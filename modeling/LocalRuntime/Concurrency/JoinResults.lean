import LocalRuntime.Concurrency.Join

/-!
# The results of a join

The outputs that a join returns are the answers of its inner futures, each in its place, and the
call that returns them is the first one by whose end every inner future has answered.

`Books` ties the array of inner futures to the log: a slot holds an output exactly when the inner
future has answered it, and the array is taken exactly when a call has returned. `Verdict` is about
the answer that the loop accumulates. That it is exact takes both directions: as long as it is
ready, everything in flight is still to be visited (`Place`), and once it is pending, something that
is in flight has been visited already, which nothing in this call can finish any more, since the
loop visits each inner future once.
-/

namespace LocalRuntime

namespace Join

variable {T : Type}

/-- Nothing is polled after it has answered. -/
def NeverAgain (log : Log T (Poll (List T))) : Prop :=
  log.Pairwise fun later earlier ↦ ∀ i val, earlier = .done i (.ready val) → later ≠ .start i

/-- No call returns after one that was ready. -/
def ReadyLast (log : Log T (Poll (List T))) : Prop :=
  log.Pairwise fun later earlier ↦ ∀ vals, earlier = .ret (.ready vals) → ∀ out, later ≠ .ret out

/-- The array of inner futures and the log. -/
structure Books (n : ℕ) (inflight : Option (List (Inflight T))) (log : Log T (Poll (List T))) :
    Prop where
  held : ∀ l, inflight = some l → ∀ i val, l[i]? = some (.done val) ↔ .done i (.ready val) ∈ log
  taken : inflight = none ↔ ∃ vals, .ret (.ready vals) ∈ log
  values : ∀ vals, .ret (.ready vals) ∈ log →
    vals.length = n ∧ ∀ i val, vals[i]? = some val ↔ .done i (.ready val) ∈ log
  never_again : NeverAgain log
  ready_last : ReadyLast log

/-- The answer so far is pending only if something in flight has been visited. -/
def Verdict (m : Join T) : Prop :=
  match m.pc with
  | .idle none => True
  | .idle (some .pending) => ∃ j, m.isFut j = true
  | .idle (some (.ready vals)) => .ret (.ready vals) ∈ m.log
  | .visit rest out => rest.Nodup ∧ (out = .pending → ∃ j, m.isFut j = true ∧ j ∉ rest)
  | .polling i rest out =>
    (i :: rest).Nodup ∧ (out = .pending → ∃ j, m.isFut j = true ∧ j ∉ i :: rest)
  | .panicked _ => m.inflight = none

section Books

variable {n i : ℕ} {inflight : Option (List (Inflight T))} {log : Log T (Poll (List T))}

theorem Books.not_returned (h : Books n inflight log) (hsome : inflight ≠ none)
    (vals : List T) : .ret (.ready vals) ∉ log :=
  fun hmem ↦ hsome (h.taken.2 ⟨vals, hmem⟩)

/-- An event that neither answers nor returns a result changes no books; it may begin a poll only of
what has not answered, and return only before the result. -/
theorem Books.cons (h : Books n inflight log) {e : Ev T (Poll (List T))}
    (hdone : ∀ i val, e ≠ .done i (.ready val)) (hready : ∀ vals, e ≠ .ret (.ready vals))
    (hstart : ∀ i, e = .start i → ∀ val, .done i (.ready val) ∉ log)
    (hret : ∀ out, e = .ret out → inflight ≠ none) : Books n inflight (e :: log) := by
  have hdone' (i : ℕ) (val : T) : .done i (.ready val) ∈ e :: log ↔ .done i (.ready val) ∈ log := by
    rw [List.mem_cons, or_iff_right fun heq ↦ hdone i val heq.symm]
  have hready' (vals : List T) : .ret (.ready vals) ∈ e :: log ↔ .ret (.ready vals) ∈ log := by
    rw [List.mem_cons, or_iff_right fun heq ↦ hready vals heq.symm]
  refine ⟨fun l hl i val ↦ ?_, ?_, fun vals hvals ↦ ?_, ?_, ?_⟩
  · rw [hdone']
    exact h.held l hl i val
  · simp only [hready']
    exact h.taken
  · simp only [hdone']
    exact h.values vals ((hready' vals).1 hvals)
  · refine List.pairwise_cons.2 ⟨fun earlier hmem i val heq hlater ↦ ?_, h.never_again⟩
    exact hstart i hlater val (heq ▸ hmem)
  · refine List.pairwise_cons.2 ⟨fun earlier hmem vals heq out hlater ↦ ?_, h.ready_last⟩
    exact h.not_returned (hret out hlater) vals (heq ▸ hmem)

theorem Books.act (h : Books n inflight log) (a : FlagWakers.Act) :
    Books n inflight (log.act a) := by
  rcases a with i | - | w
  · exact h.cons (by simp) (by simp) (by simp) (by simp)
  · exact h
  · exact h

/-- **An answer takes the place of its future.** -/
theorem Books.done {l : List (Inflight T)} (h : Books n (some l) log) (hfut : l[i]? = some .fut)
    (val : T) : Books n (some (l.set i (.done val))) (.done i (.ready val) :: log) := by
  have hfresh (v : T) : .done i (.ready v) ∉ log := by
    rw [← h.held l rfl, hfut]
    simp
  have hlt : i < l.length := (List.getElem?_eq_some_iff.1 hfut).1
  have hnone := h.not_returned (by simp)
  refine ⟨fun l' hl' j v ↦ ?_, by simp [hnone], by simp [hnone], ?_, ?_⟩
  · obtain rfl := Option.some.inj hl'
    rw [List.mem_cons]
    rcases eq_or_ne i j with rfl | hne
    · rw [List.getElem?_set_self hlt, or_iff_left (hfresh v)]
      simp [eq_comm]
    · rw [List.getElem?_set_ne hne, h.held l rfl, or_iff_right]
      exact fun heq ↦ hne (Ev.done.inj heq).1.symm
  · exact List.pairwise_cons.2 ⟨by simp, h.never_again⟩
  · exact List.pairwise_cons.2 ⟨by simp, h.ready_last⟩

/-- **The result of the join**: the outputs in their places. -/
theorem Books.ret {vals : List T} (h : Books n (some (vals.map .done)) log)
    (hlength : vals.length = n) : Books n none (.ret (.ready vals) :: log) := by
  have hnone := h.not_returned (by simp)
  refine ⟨by simp, iff_of_true rfl ⟨vals, List.mem_cons_self⟩, fun vals' hvals' ↦ ?_, ?_, ?_⟩
  · obtain rfl : vals' = vals := by simpa [hnone] using hvals'
    refine ⟨hlength, fun i val ↦ ?_⟩
    rw [List.mem_cons, or_iff_right (by simp), ← h.held _ rfl]
    simp
  · exact List.pairwise_cons.2 ⟨by simp, h.never_again⟩
  · refine List.pairwise_cons.2 ⟨fun earlier hmem vals heq ↦ ?_, h.ready_last⟩
    exact absurd (heq ▸ hmem) (hnone vals)

end Books

section Steps

variable {n i : ℕ} {m m' : Join T}

/-- What holds of the results of a join. -/
def ResultInv (n : ℕ) (m : Join T) : Prop := Books n m.inflight m.log ∧ Verdict m

theorem ResultInv.new : ResultInv n (Join.new n : Join T) := by
  refine ⟨⟨fun l hl i val ↦ ?_, ?_, ?_, List.Pairwise.nil, List.Pairwise.nil⟩, trivial⟩
  · obtain rfl := Option.some.inj hl
    refine iff_of_false (fun hi ↦ ?_) List.not_mem_nil
    exact absurd (List.eq_of_mem_replicate (List.mem_of_getElem? hi)) (by simp)
  · simp [Join.new]
  · simp [Join.new]

theorem ResultInv.begin (h : ResultInv n m) (cx : ℕ) : ResultInv n (m.begin cx) := by
  have hbooks : Books n m.inflight (.call :: m.log) :=
    h.1.cons (by simp) (by simp) (by simp) (by simp)
  simp only [Join.begin]
  split
  next hnone => exact ⟨hbooks, hnone⟩
  next l hl => exact ⟨hbooks, List.nodup_range, by simp⟩

theorem ResultInv.visit (h : ResultInv n m) {rest : List ℕ} {out : Poll Unit}
    (hpc : m.pc = .visit (i :: rest) out) : ResultInv n (m.visit i rest out) := by
  obtain ⟨hbooks, hverdict⟩ := h
  rw [Verdict, hpc] at hverdict
  obtain ⟨hnodup, hpending⟩ := hverdict
  rw [Join.visit]
  split
  next hfut =>
    split
    next =>
      obtain ⟨l, hl, hi⟩ := isFut_eq_true.1 hfut
      refine ⟨hbooks.cons (by simp) (by simp) (fun j heq val ↦ ?_) (by simp), hnodup, hpending⟩
      obtain rfl := Ev.start.inj heq
      rw [← hbooks.held l hl, hi]
      simp
    next => exact ⟨hbooks, hnodup.of_cons, fun _ ↦ ⟨i, hfut, (List.nodup_cons.1 hnodup).1⟩⟩
  next =>
    refine ⟨hbooks, hnodup.of_cons, fun hout ↦ ?_⟩
    obtain ⟨j, hj, hnot⟩ := hpending hout
    exact ⟨j, hj, fun hmem ↦ hnot (List.mem_cons_of_mem _ hmem)⟩

theorem ResultInv.answer (h : ResultInv n m) {rest : List ℕ} {out : Poll Unit}
    (hpc : m.pc = .polling i rest out) (hfut : m.isFut i = true) (p : Poll T) :
    ResultInv n (m.answer i rest out p) := by
  obtain ⟨hbooks, hverdict⟩ := h
  rw [Verdict, hpc] at hverdict
  obtain ⟨hnodup, hpending⟩ := hverdict
  obtain ⟨hi, hrest⟩ := List.nodup_cons.1 hnodup
  obtain ⟨l, hl, hget⟩ := isFut_eq_true.1 hfut
  rcases p with - | val
  · exact ⟨hbooks.cons (by simp) (by simp) (by simp) (by simp), hrest, fun _ ↦ ⟨i, hfut, hi⟩⟩
  · refine ⟨?_, hrest, fun hout ↦ ?_⟩
    · rw [hl] at hbooks
      simp only [Join.answer, hl, Option.map_some]
      exact hbooks.done hget val
    · obtain ⟨j, hj, hnot⟩ := hpending hout
      obtain ⟨hne, hnot⟩ := not_or.1 (mt List.mem_cons.2 hnot)
      exact ⟨j, isFut_answer_ready.2 ⟨Ne.symm hne, hj⟩, hnot⟩

theorem ResultInv.finish (h : ResultInv n m) (hcore : Core n m) {out : Poll Unit}
    (hpc : m.pc = .visit [] out) (hplace : Place m) : ResultInv n (m.finish out) := by
  obtain ⟨hbooks, hverdict⟩ := h
  rw [Verdict, hpc] at hverdict
  rw [Place, hpc] at hplace
  rcases out with - | ⟨⟩
  · obtain ⟨j, hj, -⟩ := hverdict.2 rfl
    exact ⟨hbooks.cons (by simp) (by simp) (by simp) fun _ _ ↦ hplace.1, j, hj⟩
  · obtain ⟨l, hl⟩ := Option.ne_none_iff_exists'.1 hplace.1
    obtain ⟨vals, rfl, heq⟩ := finish_ready hl fun j ↦
      Bool.eq_false_iff.2 fun hj ↦ List.not_mem_nil (hplace.2 rfl j hj)
    rw [heq]
    have hlength : vals.length = n := by
      rw [← hcore.length_inflight _ hl, List.length_map]
    rw [hl] at hbooks
    exact ⟨hbooks.ret hlength, List.mem_cons_self⟩

theorem ResultInv.env (h : ResultInv n m) {a : FlagWakers.Act} (ha : m.env a = some m') :
    ResultInv n m' := by
  obtain ⟨wakers, -, rfl⟩ := Option.map_eq_some_iff.1 ha
  refine ⟨h.1.act a, ?_⟩
  have hverdict := h.2
  simp only [Verdict] at hverdict ⊢
  split
  next hpc => trivial
  next hpc => rwa [hpc] at hverdict
  next vals hpc =>
    rw [hpc] at hverdict
    exact Log.ret_mem_act.2 hverdict
  next hpc => rwa [hpc] at hverdict
  next hpc => rwa [hpc] at hverdict
  next hpc => rwa [hpc] at hverdict

theorem ResultInv.step (h : ResultInv n m) (hinv : Inv n m) {a : JoinAct T}
    (hstep : m.step a = some m') : ResultInv n m' := by
  obtain ⟨hcore, hplace⟩ := hinv
  rcases step_cases hstep with hpc | hpc | hpc | hpc | hstep
  · exact h.begin _
  · exact h.finish hcore hpc hplace
  · exact h.visit hpc
  · rw [Place, hpc] at hplace
    exact h.answer hpc hplace.1 _
  · exact h.env hstep

theorem ResultInv.of_run {acts : List (JoinAct T)}
    (hrun : (machine T).run (Join.new n) acts = some m) : ResultInv n m := by
  have hboth : Inv n m ∧ ResultInv n m :=
    Machine.run_preserves (I := fun m ↦ Inv n m ∧ ResultInv n m)
      (fun _ _ _ h hstep ↦ ⟨h.1.step hstep, h.2.step h.1 hstep⟩) ⟨.new, .new⟩ hrun
  exact hboth.2

/-- A step only adds to the log. -/
theorem log_suffix_of_step {a : JoinAct T} (hstep : m.step a = some m') : m.log <:+ m'.log := by
  rcases step_cases hstep with hpc | @⟨out, hpc⟩ | @⟨i, rest, out, hpc⟩ | @⟨i, rest, out, p, hpc⟩ |
    @⟨a, m', henv⟩
  · simp only [Join.begin]
    split
    · exact List.suffix_cons _ _
    · exact List.suffix_cons _ _
  · rcases out with - | ⟨⟩
    · exact List.suffix_cons _ _
    · simp only [Join.finish]
      split
      · exact List.suffix_refl _
      · split
        · exact List.suffix_refl _
        · exact List.suffix_cons _ _
  · rw [Join.visit]
    split
    · split
      · exact List.suffix_cons _ _
      · exact List.suffix_refl _
    · exact List.suffix_refl _
  · rcases p with - | val
    · exact List.suffix_cons _ _
    · exact List.suffix_cons _ _
  · obtain ⟨wakers, -, rfl⟩ := Option.map_eq_some_iff.1 henv
    exact Log.suffix_act

theorem log_suffix_of_run {acts : List (JoinAct T)} (hrun : (machine T).run m acts = some m') :
    m.log <:+ m'.log :=
  Machine.run_preserves (I := fun u ↦ m.log <:+ u.log)
    (fun _ _ _ h hstep ↦ h.trans (log_suffix_of_step hstep)) (List.suffix_refl _) hrun

end Steps

/-! ### What a join promises -/

/-- The join holds this output: in its place in the array, or in the result that it has returned. -/
def Holds (m : Join T) (i : ℕ) (val : T) : Prop :=
  m.inflights[i]? = some (.done val) ∨ ∃ vals, .ret (.ready vals) ∈ m.log ∧ vals[i]? = some val

theorem ResultInv.holds_iff {n : ℕ} {m : Join T} (h : ResultInv n m) (i : ℕ) (val : T) :
    m.Holds i val ↔ .done i (.ready val) ∈ m.log := by
  obtain ⟨hbooks, -⟩ := h
  rw [Holds, inflights]
  rcases hinflight : m.inflight with - | l
  · obtain ⟨vals, hmem⟩ := hbooks.taken.1 hinflight
    constructor
    · rintro (hget | ⟨vals', hmem', hget⟩)
      · exact absurd hget (by simp)
      · exact ((hbooks.values vals' hmem').2 i val).1 hget
    · exact fun hdone ↦ Or.inr ⟨vals, hmem, ((hbooks.values vals hmem).2 i val).2 hdone⟩
  · rw [← hbooks.held l hinflight, Option.getD_some, or_iff_left]
    rintro ⟨vals, hmem, -⟩
    exact hbooks.not_returned (by simp [hinflight]) vals hmem

/-- What holds of the results of a join at every moment. -/
structure InPlace (n : ℕ) (m : Join T) : Prop where
  /-- A call returns ready exactly if every inner future has answered by its end. -/
  ready_iff : ∀ out, m.pc = .idle (some out) →
    ((∃ vals, out = .ready vals) ↔ ∀ i < n, Finished i m.log)
  /-- It is the first such call: no call returns after it. -/
  first : ReadyLast m.log
  returned : ∀ vals, m.pc = .idle (some (.ready vals)) → .ret (.ready vals) ∈ m.log
  /-- The outputs are the answers, each in its place. -/
  values : ∀ vals, .ret (.ready vals) ∈ m.log →
    vals.length = n ∧ ∀ i val, vals[i]? = some val ↔ .done i (.ready val) ∈ m.log
  /-- What has answered is not polled again. -/
  never_again : NeverAgain m.log
  /-- The output of an inner future is what it has answered, from then on. -/
  holds_iff : ∀ i val, m.Holds i val ↔ .done i (.ready val) ∈ m.log
  holds_stays : ∀ i val, m.Holds i val → ∀ more m', (machine T).run m more = some m' →
    m'.Holds i val
  /-- The only panic is that of a poll after the result has been returned. -/
  panicked : ∀ why, m.pc = .panicked why →
    why = .unwrapNone ∧ ∃ vals, .ret (.ready vals) ∈ m.log
  /-- Every call returns: it can always go on, and there are only so many steps. -/
  goes_on : 0 < m.pc.left → ∀ p, ∃ a ∈ [.tick, .ret p], (m.step a).isSome
  returns : 0 < m.pc.left → ∀ a m', m.step a = some m' →
    m'.pc.left < m.pc.left ∨ ∃ e, a = .env e ∧ m'.pc = m.pc

theorem ResultInv.ready_iff {n : ℕ} {m : Join T} (h : ResultInv n m) (hcore : Core n m)
    {out : Poll (List T)} (hpc : m.pc = .idle (some out)) :
    (∃ vals, out = .ready vals) ↔ ∀ i < n, Finished i m.log := by
  obtain ⟨hbooks, hverdict⟩ := h
  rw [Verdict, hpc] at hverdict
  rcases out with - | vals
  · obtain ⟨j, hj⟩ := hverdict
    refine iff_of_false (by simp) fun hall ↦ ?_
    exact (hcore.isFut_iff j (hcore.lt_of_isFut hj)).1 hj (hall j (hcore.lt_of_isFut hj))
  · obtain ⟨hlength, hvalues⟩ := hbooks.values vals hverdict
    refine iff_of_true ⟨vals, rfl⟩ fun i hi ↦ ?_
    obtain ⟨val, hval⟩ : ∃ val, vals[i]? = some val :=
      ⟨_, List.getElem?_eq_getElem (hlength.symm ▸ hi)⟩
    exact ⟨val, rfl, (hvalues i val).1 hval⟩

/-- **`join!` returns every result in place**, on the first call by whose end all the inner futures
have answered, whatever they do and however the calls interleave with wakes. -/
theorem join_in_place {T : Type} (n : ℕ) (acts : List (JoinAct T)) (m : Join T)
    (hrun : (machine T).run (new n) acts = some m) : InPlace n m := by
  have hcore : Core n m := (Inv.of_run hrun).1
  have hinv : ResultInv n m := ResultInv.of_run hrun
  refine ⟨fun out hpc ↦ hinv.ready_iff hcore hpc, hinv.1.ready_last, fun vals hpc ↦ ?_,
    hinv.1.values, hinv.1.never_again, hinv.holds_iff, fun i val hval more m' hmore ↦ ?_,
    fun why hpc ↦ ⟨?_, ?_⟩, exists_step, fun hleft _ _ hstep ↦ left_lt_of_step hstep hleft⟩
  · have hverdict := hinv.2
    rw [Verdict, hpc] at hverdict
    exact hverdict
  · have hrun' : (machine T).run (new n) (acts ++ more) = some m' := by
      rw [Machine.run_append, hrun]
      exact hmore
    rw [hinv.holds_iff] at hval
    exact ((ResultInv.of_run hrun').holds_iff i val).2 ((log_suffix_of_run hmore).subset hval)
  · have hplace := (Inv.of_run hrun).2
    rw [Place, hpc] at hplace
    rcases why with - | -
    · rfl
    · exact hplace.elim
  · have hverdict := hinv.2
    rw [Verdict, hpc] at hverdict
    exact hinv.1.taken.1 hverdict

/-- The second future answers in the first call, and the first one, woken in between, in the
second. -/
def secondFirst : List (JoinAct ℕ) :=
  [.poll 7, .tick, .ret .pending, .tick, .ret (.ready 6), .tick, .env (.wake 0),
    .env .fire, .poll 8, .tick, .ret (.ready 5), .tick, .tick]

theorem join_in_place_secondFirst :
    ∃ m, (machine ℕ).run (new 2) secondFirst = some m ∧ m.pc = .idle (some (.ready [5, 6])) ∧
      InPlace 2 m :=
  ⟨_, rfl, rfl, join_in_place 2 secondFirst _ rfl⟩

end Join

end LocalRuntime
