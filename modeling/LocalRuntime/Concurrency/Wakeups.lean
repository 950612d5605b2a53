import LocalRuntime.Concurrency.Join
import LocalRuntime.Concurrency.Merge

/-!
# Joining and merging lose no wakeup

Two facts about the flags of the inner wakers, for both loops of `src/concurrency.rs`.

* Between a call that has returned pending and the next one, a set flag has been heard: the waker of
  that call has been woken, or a wake is between its two steps. During a call this holds for the
  flags that the loop has visited, since visiting clears a flag and every wake from then on reaches
  the waker that the call has registered.
* An inner future that was unfinished and woken when a call began is polled by that call, unless the
  call has returned an item first. During a call it is still to be visited, with its flag set.

`Tended` states both for whatever the loop has visited (`covers`) and has not (`owing`), with one
lemma for each thing a loop does; each combinator then says where in its loop what is covered and
what is owing.
-/

namespace LocalRuntime

variable {O R T : Type}

/-- The flags and the log of a combinator. Whichever of the flags in `covers` is set has been heard,
and whatever the latest call owes a poll is in `owing`. -/
structure Tended (fin : O → Bool) (b : FlagWakers) (log : Log O R) (alive : ℕ → Bool)
    (covers owing : ℕ → Prop) : Prop where
  since : ∀ i < b.awoken.length, log.WokenSince i → b.isAwoken i = true
  heard : b.HeardOn fun i ↦ alive i = true ∧ covers i
  owed : ∀ i < b.awoken.length, log.Owed fin i → owing i ∧ alive i = true ∧ b.isAwoken i = true

namespace Tended

variable {fin : O → Bool} {b b' : FlagWakers} {log : Log O R} {alive alive' : ℕ → Bool}
  {covers covers' owing owing' : ℕ → Prop} {i : ℕ}

theorem weaken (h : Tended fin b log alive covers owing)
    (hcovers : ∀ j, alive' j = true → covers' j → alive j = true ∧ covers j)
    (howing : ∀ j, owing j → alive j = true → owing' j ∧ alive' j = true) :
    Tended fin b log alive' covers' owing' where
  since := h.since
  heard := h.heard.mono fun j hj ↦ hcovers j hj.1 hj.2
  owed j hlt hj := by
    obtain ⟨hjo, halive, hawoken⟩ := h.owed j hlt hj
    exact ⟨(howing j hjo halive).1, (howing j hjo halive).2, hawoken⟩

/-- **A step from outside**: a wake sets its flag and is heard. -/
theorem act (h : Tended fin b log alive covers owing)
    (hreg : ∀ j, covers j → b.baseWaker.registered ≠ none) {a : FlagWakers.Act}
    (ha : b.act a = some b') : Tended fin b' (log.act a) alive covers owing := by
  obtain ⟨hlength, -, hawoken⟩ := FlagWakers.act_eq_some ha
  refine ⟨fun j hj hwoken ↦ ?_, fun j hj hflag ↦ ?_, fun j hj howed ↦ ?_⟩
  · rw [hawoken, Bool.or_eq_true, decide_eq_true_iff]
    exact (Log.wokenSince_act.1 hwoken).imp_right (h.since j (hlength ▸ hj))
  · exact h.heard.act (hreg j hj.2) ha j hj hflag
  · obtain ⟨hjo, halive, hflag⟩ := h.owed j (hlength ▸ hj) (Log.owed_act.1 howed)
    exact ⟨hjo, halive, by rw [hawoken, hflag, Bool.or_true]⟩

/-- **A call begins**: everything that has been woken is to be visited. -/
theorem call (h : Tended fin b log alive covers owing) (cx : ℕ)
    (halive : ∀ j < b.awoken.length, ¬ log.Finished fin j → alive j = true)
    (howing : ∀ j < b.awoken.length, alive j = true → owing' j) :
    Tended fin (b.register cx) (.call :: log) alive (fun _ ↦ False) owing' := by
  refine ⟨h.since, fun _ hj ↦ hj.2.elim, fun j hj howed ↦ ?_⟩
  obtain ⟨hunfin, hwoken⟩ := Log.owed_call.1 howed
  exact ⟨howing j hj (halive j hj hunfin), halive j hj hunfin, h.since j hj hwoken⟩

/-- A visit that finds the flag clear. -/
theorem check (h : Tended fin b log alive covers owing) (hi : b.isAwoken i = false) :
    Tended fin (b.checkAwoken i) log alive (fun j ↦ j = i ∨ covers j)
      fun j ↦ j ≠ i ∧ owing j := by
  have hflag (j : ℕ) (hj : b.isAwoken j = true) : j ≠ i ∧ (b.checkAwoken i).isAwoken j = true := by
    have hne : j ≠ i := by
      rintro rfl
      exact absurd hj (by simp [hi])
    exact ⟨hne, by rw [FlagWakers.isAwoken_checkAwoken, hj]; simp [hne.symm]⟩
  refine ⟨fun j hj hwoken ↦ ?_, ?_, fun j hj howed ↦ ?_⟩
  · rw [FlagWakers.length_checkAwoken] at hj
    exact (hflag j (h.since j hj hwoken)).2
  · refine (h.heard.checkAwoken i).mono fun j hj ↦ ?_
    exact hj.2.imp_right fun hcov ↦ ⟨hj.1, hcov⟩
  · rw [FlagWakers.length_checkAwoken] at hj
    obtain ⟨hjo, halive, hawoken⟩ := h.owed j hj howed
    exact ⟨⟨(hflag j hawoken).1, hjo⟩, halive, (hflag j hawoken).2⟩

/-- **A visit that polls**: the flag is cleared before the poll begins. -/
theorem start (h : Tended fin b log alive covers owing) (i : ℕ) :
    Tended fin (b.checkAwoken i) (.start i :: log) alive (fun j ↦ j = i ∨ covers j)
      fun j ↦ j ≠ i ∧ owing j := by
  have hflag (j : ℕ) (hne : i ≠ j) (hj : b.isAwoken j = true) :
      (b.checkAwoken i).isAwoken j = true := by
    rw [FlagWakers.isAwoken_checkAwoken, hj]
    simp [hne]
  refine ⟨fun j hj hwoken ↦ ?_, ?_, fun j hj howed ↦ ?_⟩
  · rw [FlagWakers.length_checkAwoken] at hj
    exact hflag j hwoken.1 (h.since j hj hwoken.2)
  · refine (h.heard.checkAwoken i).mono fun j hj ↦ ?_
    exact hj.2.imp_right fun hcov ↦ ⟨hj.1, hcov⟩
  · rw [FlagWakers.length_checkAwoken] at hj
    obtain ⟨hne, howed⟩ := Log.owed_start.1 howed
    obtain ⟨hjo, halive, hawoken⟩ := h.owed j hj howed
    exact ⟨⟨hne.symm, hjo⟩, halive, hflag j hne hawoken⟩

/-- A visit of what has finished. -/
theorem skip (h : Tended fin b log alive covers owing) (hi : alive i = false) :
    Tended fin b log alive (fun j ↦ j = i ∨ covers j) fun j ↦ j ≠ i ∧ owing j := by
  have hne (j : ℕ) (hj : alive j = true) : j ≠ i := by
    rintro rfl
    exact absurd hj (by simp [hi])
  refine h.weaken (fun j hj hcov ↦ ⟨hj, hcov.resolve_left (hne j hj)⟩) ?_
  exact fun j hjo hj ↦ ⟨⟨hne j hj, hjo⟩, hj⟩

/-- A poll returns. -/
theorem done (h : Tended fin b log alive covers owing) (i : ℕ) (out : Poll O) :
    Tended fin b (.done i out :: log) alive covers owing :=
  ⟨h.since, h.heard, h.owed⟩

/-- A call returns. -/
theorem ret (h : Tended fin b log alive covers owing) (out : R) :
    Tended fin b (.ret out :: log) alive covers owing :=
  ⟨h.since, h.heard, h.owed⟩

/-- A flag is set for the next call, and nothing is heard about it. -/
theorem setAwoken (h : Tended fin b log alive covers owing) (hi : i < b.awoken.length) :
    Tended fin (b.setAwoken i) log alive (fun _ ↦ False) owing := by
  have hflag (j : ℕ) (hj : b.isAwoken j = true) : (b.setAwoken i).isAwoken j = true := by
    rw [FlagWakers.isAwoken_setAwoken hi, hj, Bool.or_true]
  refine ⟨fun j hj hwoken ↦ ?_, fun _ hj ↦ hj.2.elim, fun j hj howed ↦ ?_⟩
  · rw [FlagWakers.length_setAwoken] at hj
    exact hflag j (h.since j hj hwoken)
  · rw [FlagWakers.length_setAwoken] at hj
    obtain ⟨hjo, halive, hawoken⟩ := h.owed j hj howed
    exact ⟨hjo, halive, hflag j hawoken⟩

/-- The loop goes on to the rest. -/
theorem visited {rest : List ℕ}
    (h : Tended fin b log alive (fun j ↦ j = i ∨ j ∉ i :: rest) fun j ↦ j ≠ i ∧ j ∈ i :: rest) :
    Tended fin b log alive (fun j ↦ j ∉ rest) fun j ↦ j ≠ i ∧ j ∈ rest := by
  refine h.weaken (fun j hj hrest ↦ ⟨hj, ?_⟩) fun j hjo hj ↦ ⟨⟨hjo.1, ?_⟩, hj⟩
  · rcases eq_or_ne j i with rfl | hne
    · exact Or.inl rfl
    · exact Or.inr fun hmem ↦ hrest ((List.mem_cons.1 hmem).resolve_left hne)
  · exact (List.mem_cons.1 hjo.2).resolve_left hjo.1

end Tended

/-! ### Joining -/

namespace Join

/-- The flags that have been visited. -/
def Covers (j : ℕ) : JoinPc T → Prop
  | .idle (some .pending) => True
  | .idle _ | .panicked _ => False
  | .visit rest _ | .polling _ rest _ => j ∉ rest

/-- What is still to be visited. -/
def Owing (j : ℕ) : JoinPc T → Prop
  | .idle _ | .panicked _ => False
  | .visit rest _ => j ∈ rest
  | .polling i rest _ => j ≠ i ∧ j ∈ rest

/-- The flags and the log of a join, where it is. -/
structure Tending (m : Join T) : Prop where
  tended : Tended (fun _ ↦ true) m.wakers m.log m.isFut (Covers · m.pc) (Owing · m.pc)
  registered : m.pc = .idle none ∨ m.wakers.baseWaker.registered ≠ none

variable {n : ℕ} {m m' : Join T}

theorem Tending.new : Tending (Join.new n : Join T) :=
  ⟨⟨fun _ _ ↦ False.elim, fun _ hj ↦ hj.2.elim, fun _ _ howed ↦ howed.2.1.elim⟩, Or.inl rfl⟩

theorem Tending.registered_of_covers (h : Tending m) (j : ℕ) (hj : Covers j m.pc) :
    m.wakers.baseWaker.registered ≠ none := by
  refine h.registered.resolve_left fun hpc ↦ ?_
  rw [hpc] at hj
  exact hj

theorem Tending.begin (h : Tending m) (hcore : Core n m) (cx : ℕ) : Tending (m.begin cx) := by
  have hunfin (j : ℕ) (hj : j < m.wakers.awoken.length) : ¬ Finished j m.log → m.isFut j = true :=
    (hcore.isFut_iff j (hcore.length_awoken ▸ hj)).2
  simp only [Join.begin]
  split
  next hnone =>
    refine ⟨h.tended.call cx hunfin fun j _ hj ↦ ?_, Or.inr (by simp [FlagWakers.register])⟩
    obtain ⟨l, hl, -⟩ := isFut_eq_true.1 hj
    exact absurd hl (by simp [hnone])
  next l hl =>
    have hmem (j : ℕ) (hj : m.isFut j = true) : j ∈ List.range l.length := by
      rw [List.mem_range, hcore.length_inflight l hl]
      exact hcore.lt_of_isFut hj
    refine ⟨?_, Or.inr (by simp [FlagWakers.register])⟩
    refine (h.tended.call cx hunfin fun j _ ↦ hmem j).weaken ?_ fun j hjo hj ↦ ⟨hjo, hj⟩
    exact fun j hj hnot ↦ absurd (hmem j hj) hnot

theorem Tending.visit (h : Tending m) {i : ℕ} {rest : List ℕ} {out : Poll Unit}
    (hpc : m.pc = .visit (i :: rest) out) : Tending (m.visit i rest out) := by
  have htended := h.tended
  rw [hpc] at htended
  have hreg : m.wakers.baseWaker.registered ≠ none := h.registered.resolve_left (by simp [hpc])
  rw [Join.visit]
  split
  next hfut =>
    split
    next => exact ⟨(htended.start i).visited, Or.inr hreg⟩
    next hawoken =>
      have hvisited := (htended.check (Bool.eq_false_iff.2 hawoken)).visited
      exact ⟨hvisited.weaken (fun _ hj hcov ↦ ⟨hj, hcov⟩) fun _ hjo hj ↦ ⟨hjo.2, hj⟩, Or.inr hreg⟩
  next hfut =>
    have hvisited := (htended.skip (Bool.eq_false_iff.2 hfut)).visited
    exact ⟨hvisited.weaken (fun _ hj hcov ↦ ⟨hj, hcov⟩) fun _ hjo hj ↦ ⟨hjo.2, hj⟩, Or.inr hreg⟩

theorem Tending.answer (h : Tending m) {i : ℕ} {rest : List ℕ} {out : Poll Unit}
    (hpc : m.pc = .polling i rest out) (p : Poll T) : Tending (m.answer i rest out p) := by
  have htended := h.tended
  rw [hpc] at htended
  have hreg : m.wakers.baseWaker.registered ≠ none := h.registered.resolve_left (by simp [hpc])
  refine ⟨?_, Or.inr ?_⟩
  · rcases p with - | val
    · exact (htended.done i .pending).weaken (fun _ hj hcov ↦ ⟨hj, hcov⟩) fun _ hjo hj ↦ ⟨hjo.2, hj⟩
    · refine (htended.done i (.ready val)).weaken (fun j hj hcov ↦ ⟨?_, hcov⟩) fun j hjo hj ↦
        ⟨hjo.2, ?_⟩
      · exact (isFut_answer_ready.1 hj).2
      · exact isFut_answer_ready.2 ⟨hjo.1.symm, hj⟩
  · rcases p with - | val
    · exact hreg
    · exact hreg

theorem Tending.finish (h : Tending m) {out : Poll Unit} (hpc : m.pc = .visit [] out)
    (hplace : Place m) : Tending (m.finish out) := by
  have htended := h.tended
  rw [hpc] at htended
  have hreg : m.wakers.baseWaker.registered ≠ none := h.registered.resolve_left (by simp [hpc])
  rw [Place, hpc] at hplace
  rcases out with - | ⟨⟩
  · exact ⟨(htended.ret .pending).weaken (fun _ hj _ ↦ ⟨hj, List.not_mem_nil⟩)
      fun _ hjo _ ↦ absurd hjo List.not_mem_nil, Or.inr hreg⟩
  · obtain ⟨l, hl⟩ := Option.ne_none_iff_exists'.1 hplace.1
    obtain ⟨vals, -, heq⟩ := finish_ready hl fun j ↦
      Bool.eq_false_iff.2 fun hj ↦ List.not_mem_nil (hplace.2 rfl j hj)
    rw [heq]
    exact ⟨(htended.ret (.ready vals)).weaken (fun _ _ ↦ False.elim)
      fun _ hjo _ ↦ absurd hjo List.not_mem_nil, Or.inr hreg⟩

theorem Tending.env (h : Tending m) {a : FlagWakers.Act} (ha : m.env a = some m') : Tending m' := by
  obtain ⟨wakers, hact, rfl⟩ := Option.map_eq_some_iff.1 ha
  refine ⟨h.tended.act h.registered_of_covers hact, h.registered.imp_right fun hreg ↦ ?_⟩
  rw [(FlagWakers.act_eq_some hact).2.1]
  exact hreg

theorem Tending.step (h : Tending m) (hinv : Inv n m) {a : JoinAct T} (hstep : m.step a = some m') :
    Tending m' := by
  rcases step_cases hstep with hpc | hpc | hpc | hpc | hstep
  · exact h.begin hinv.1 _
  · exact h.finish hpc hinv.2
  · exact h.visit hpc
  · exact h.answer hpc _
  · exact h.env hstep

/-- What a join promises about wakeups: after a call that has returned pending, a set flag of an
unfinished future has been heard; a call polls every unfinished future that was woken when it began;
and every call returns. -/
structure LosesNoWakeup (n : ℕ) (m : Join T) : Prop where
  heard : m.pc = .idle (some .pending) → ∀ i < n, ¬ Finished i m.log →
    m.wakers.isAwoken i = true → m.wakers.Heard
  polled : ∀ out, m.pc = .idle (some out) → ∀ i < n, ¬ m.log.Owed (fun _ ↦ true) i
  goes_on : 0 < m.pc.left → ∀ p, ∃ a ∈ [.tick, .ret p], (m.step a).isSome
  returns : 0 < m.pc.left → ∀ a m', m.step a = some m' →
    m'.pc.left < m.pc.left ∨ ∃ e, a = .env e ∧ m'.pc = m.pc

/-- **A join loses no wakeup.** -/
theorem losesNoWakeup_of_run {acts : List (JoinAct T)}
    (hrun : (machine T).run (Join.new n) acts = some m) : LosesNoWakeup n m := by
  have hinv : Inv n m ∧ Tending m :=
    Machine.run_preserves (I := fun m ↦ Inv n m ∧ Tending m)
      (fun _ _ _ h hstep ↦ ⟨h.1.step hstep, h.2.step h.1 hstep⟩) ⟨.new, .new⟩ hrun
  obtain ⟨⟨hcore, -⟩, htending⟩ := hinv
  refine ⟨fun hpc i hi hunfin hflag ↦ ?_, fun out hpc i hi howed ↦ ?_, exists_step,
    fun hleft _ _ hstep ↦ left_lt_of_step hstep hleft⟩
  · refine htending.tended.heard i ⟨(hcore.isFut_iff i hi).2 hunfin, ?_⟩ hflag
    rw [hpc]
    trivial
  · have howing := (htending.tended.owed i (hcore.length_awoken.symm ▸ hi) howed).1
    rw [hpc] at howing
    exact howing

end Join

/-! ### Merging -/

namespace Merge

/-- The flags that have been visited. -/
def Covers (j : ℕ) : MergePc T → Prop
  | .idle (some .pending) => True
  | .idle _ | .panicked => False
  | .visit rest | .polling _ rest => j ∉ rest

/-- What is still to be visited, by this call or, after an item, by the next one. -/
def Owing (j : ℕ) : MergePc T → Prop
  | .idle (some (.item _ _)) => True
  | .idle _ | .panicked => False
  | .visit rest => j ∈ rest
  | .polling i rest => j ≠ i ∧ j ∈ rest

/-- The flags and the log of a merge, where it is. -/
structure Tending (K : MergeKind O T) (m : Merge O T) : Prop where
  tended : Tended K.noneFn m.wakers m.log m.alive (Covers · m.pc) (Owing · m.pc)
  registered : m.pc = .idle none ∨ m.wakers.baseWaker.registered ≠ none

variable {K : MergeKind O T} {n : ℕ} {m m' : Merge O T}

theorem Tending.new : Tending K (Merge.new n : Merge O T) :=
  ⟨⟨fun _ _ ↦ False.elim, fun _ hj ↦ hj.2.elim, fun _ _ howed ↦ howed.2.1.elim⟩, Or.inl rfl⟩

theorem Tending.registered_of_covers (h : Tending K m) (j : ℕ) (hj : Covers j m.pc) :
    m.wakers.baseWaker.registered ≠ none := by
  refine h.registered.resolve_left fun hpc ↦ ?_
  rw [hpc] at hj
  exact hj

theorem Tending.begin (h : Tending K m) (hcore : Core K n m) (cx : ℕ) : Tending K (m.begin cx) := by
  have hidx : m.idx ≤ m.pollers.length := hcore.length_pollers ▸ Nat.le_of_lt hcore.idx_lt
  have hunfin (j : ℕ) (hj : j < m.wakers.awoken.length) :
      ¬ m.log.Finished K.noneFn j → m.alive j = true :=
    (hcore.alive_iff j (hcore.length_awoken ▸ hj)).2
  have hmem (j : ℕ) (hj : m.alive j = true) : j ∈ (List.range m.pollers.length).drop m.idx ++
      (List.range m.pollers.length).take m.idx :=
    (order_perm m.idx m.pollers.length).mem_iff.2 (List.mem_range.2 (lt_of_alive hj))
  simp only [Merge.begin, if_pos hidx]
  refine ⟨?_, Or.inr (by simp [FlagWakers.register])⟩
  refine (h.tended.call cx hunfin fun j _ ↦ hmem j).weaken ?_ fun j hjo hj ↦ ⟨hjo, hj⟩
  exact fun j hj hnot ↦ absurd (hmem j hj) hnot

/-- The end of the loop body: where it ends the stream, nothing is left that could be owed a
poll. -/
theorem Tending.advance {rest : List ℕ}
    (h : Tended K.noneFn m.wakers m.log m.alive (fun j ↦ j ∉ rest) fun j ↦ j ∈ rest)
    (hreg : m.wakers.baseWaker.registered ≠ none) (hcount : m.noneCount = m.pollers.count false) :
    Tending K (m.advance rest) := by
  simp only [Merge.advance]
  split
  next hall =>
    refine ⟨(h.ret .ended).weaken (fun _ _ ↦ False.elim) fun j _ hj ↦ ?_, Or.inr hreg⟩
    exact absurd hj (by simp [alive_eq_false hcount hall j])
  next => exact ⟨h, Or.inr hreg⟩

theorem Tending.visit (h : Tending K m) (hcore : Core K n m) {i : ℕ} {rest : List ℕ}
    (hpc : m.pc = .visit (i :: rest)) : Tending K (m.visit i rest) := by
  have htended := h.tended
  rw [hpc] at htended
  have hreg : m.wakers.baseWaker.registered ≠ none := h.registered.resolve_left (by simp [hpc])
  rw [Merge.visit]
  split
  next halive =>
    split
    next => exact ⟨(htended.start i).visited, Or.inr hreg⟩
    next hawoken =>
      have hvisited := (htended.check (Bool.eq_false_iff.2 hawoken)).visited
      refine Tending.advance ?_ hreg hcore.count_eq
      exact hvisited.weaken (fun _ hj hcov ↦ ⟨hj, hcov⟩) fun _ hjo hj ↦ ⟨hjo.2, hj⟩
  next halive =>
    have hvisited := (htended.skip (Bool.eq_false_iff.2 halive)).visited
    refine Tending.advance ?_ hreg hcore.count_eq
    exact hvisited.weaken (fun _ hj hcov ↦ ⟨hj, hcov⟩) fun _ hjo hj ↦ ⟨hjo.2, hj⟩

/-- **An answer**: the one that has answered has been polled, so that it is owed nothing. -/
theorem Tending.answer (h : Tending K m) (hcore : Core K n m) {i : ℕ} {rest : List ℕ}
    (hpc : m.pc = .polling i rest) (halive : m.alive i = true) (p : Poll O) :
    Tending K (m.answer K i rest p) := by
  have htended := h.tended
  rw [hpc] at htended
  have hreg : m.wakers.baseWaker.registered ≠ none := h.registered.resolve_left (by simp [hpc])
  rcases p with - | out
  · refine Tending.advance ?_ hreg hcore.count_eq
    exact (htended.done i .pending).weaken (fun _ hj hcov ↦ ⟨hj, hcov⟩) fun _ hjo hj ↦ ⟨hjo.2, hj⟩
  · obtain ⟨hwakers, -, hlog, -⟩ := settle_eq K m i out
    have hsettled : Tended K.noneFn (settle K m i out).wakers (settle K m i out).log
        (settle K m i out).alive (fun j ↦ j ∉ rest) fun j ↦ j ∈ rest := by
      rw [hwakers, hlog]
      refine (htended.done i (.ready out)).weaken (fun j hj hcov ↦ ⟨?_, hcov⟩)
        fun j hjo hj ↦ ⟨hjo.2, ?_⟩
      · rw [alive_settle, Bool.and_eq_true] at hj
        exact hj.2
      · rw [alive_settle, hj]
        simp [hjo.1.symm]
    simp only [Merge.answer]
    split
    next val hval =>
      have hi : i < (settle K m i out).wakers.awoken.length := by
        rw [hwakers, hcore.length_awoken, ← hcore.length_pollers]
        exact lt_of_alive halive
      refine ⟨((hsettled.setAwoken hi).ret (.item i val)).weaken (fun _ _ ↦ False.elim)
        fun _ _ hj ↦ ⟨trivial, hj⟩, Or.inr ?_⟩
      rw [Merge.finish, hwakers]
      exact hreg
    next => exact Tending.advance hsettled (hwakers ▸ hreg) (hcore.settle out halive).1

theorem Tending.pending (h : Tending K m) (hpc : m.pc = .visit []) :
    Tending K (m.finish .pending) := by
  have htended := h.tended
  rw [hpc] at htended
  have hreg : m.wakers.baseWaker.registered ≠ none := h.registered.resolve_left (by simp [hpc])
  exact ⟨(htended.ret .pending).weaken (fun _ hj _ ↦ ⟨hj, List.not_mem_nil⟩)
    fun _ hjo _ ↦ absurd hjo List.not_mem_nil, Or.inr hreg⟩

theorem Tending.env (h : Tending K m) {a : FlagWakers.Act} (ha : m.env a = some m') :
    Tending K m' := by
  obtain ⟨wakers, hact, rfl⟩ := Option.map_eq_some_iff.1 ha
  refine ⟨h.tended.act h.registered_of_covers hact, h.registered.imp_right fun hreg ↦ ?_⟩
  rw [(FlagWakers.act_eq_some hact).2.1]
  exact hreg

theorem Tending.step (h : Tending K m) (hinv : Inv K n m) {a : MergeAct O}
    (hstep : m.step K a = some m') : Tending K m' := by
  obtain ⟨hcore, hplace⟩ := hinv
  rcases step_cases hstep with hpc | hpc | hpc | hpc | hstep
  · exact h.begin hcore _
  · exact h.pending hpc
  · exact h.visit hcore hpc
  · rw [Place, hpc] at hplace
    exact h.answer hcore hpc hplace.2.1 _
  · exact h.env hstep

/-- What a merge promises about wakeups: after a call that has returned pending, a set flag of an
unfinished stream has been heard; a call polls every unfinished stream that was woken when it began,
unless it has returned an item first, and then the flag is still set; and every call returns. -/
structure LosesNoWakeup (K : MergeKind O T) (n : ℕ) (m : Merge O T) : Prop where
  heard : m.pc = .idle (some .pending) → ∀ i < n, ¬ m.log.Finished K.noneFn i →
    m.wakers.isAwoken i = true → m.wakers.Heard
  polled : ∀ out, m.pc = .idle (some out) → ∀ i < n, m.log.Owed K.noneFn i →
    (∃ j val, out = .item j val) ∧ m.wakers.isAwoken i = true
  goes_on : 0 < m.pc.left → ∀ out, ∃ a ∈ [.tick, .ret out], (m.step K a).isSome
  returns : 0 < m.pc.left → ∀ a m', m.step K a = some m' →
    m'.pc.left < m.pc.left ∨ ∃ e, a = .env e ∧ m'.pc = m.pc

/-- **A merge loses no wakeup.** -/
theorem losesNoWakeup_of_run (hn : 0 < n) {acts : List (MergeAct O)}
    (hrun : (machine K).run (Merge.new n) acts = some m) : LosesNoWakeup K n m := by
  have hinv : Inv K n m ∧ Tending K m :=
    Machine.run_preserves (I := fun m ↦ Inv K n m ∧ Tending K m)
      (fun _ _ _ h hstep ↦ ⟨h.1.step hstep, h.2.step h.1 hstep⟩) ⟨.new hn, .new⟩ hrun
  obtain ⟨⟨hcore, -⟩, htending⟩ := hinv
  refine ⟨fun hpc i hi hunfin hflag ↦ ?_, fun out hpc i hi howed ↦ ?_, exists_step,
    fun hleft _ _ hstep ↦ left_lt_of_step hstep hleft⟩
  · refine htending.tended.heard i ⟨(hcore.alive_iff i hi).2 hunfin, ?_⟩ hflag
    rw [hpc]
    trivial
  · obtain ⟨howing, -, hflag⟩ := htending.tended.owed i (hcore.length_awoken.symm ▸ hi) howed
    rw [hpc] at howing
    refine ⟨?_, hflag⟩
    rcases out with - | ⟨j, val⟩ | -
    · exact howing.elim
    · exact ⟨j, val, rfl⟩
    · exact howing.elim

end Merge

/-- **`join!` and the merge combinators lose no wakeup**, whatever the inner futures do, whichever
waker each call is given, and however the calls interleave with wakes. -/
theorem combinators_lose_no_wakeup {T : Type} {n : ℕ} (hn : 0 < n) :
    (∀ acts m, (Join.machine T).run (.new n) acts = some m → m.LosesNoWakeup n) ∧
    (∀ acts m, (Merge.machine (.futures T)).run (.new n) acts = some m →
      m.LosesNoWakeup (.futures T) n) ∧
    ∀ acts m, (Merge.machine (.streams T)).run (.new n) acts = some m →
      m.LosesNoWakeup (.streams T) n := by
  refine ⟨fun acts m hrun ↦ ?_, fun acts m hrun ↦ ?_, fun acts m hrun ↦ ?_⟩
  · exact Join.losesNoWakeup_of_run hrun
  · exact Merge.losesNoWakeup_of_run hn hrun
  · exact Merge.losesNoWakeup_of_run hn hrun

/-- The second inner future wakes the first one during its own poll, and another thread has set the
flag of the second one. -/
def wakeSibling : List (JoinAct ℕ) :=
  [.poll 7, .tick, .ret .pending, .tick, .env (.wake 0), .env .fire, .ret .pending, .tick,
    .env (.wake 1)]

theorem combinators_lose_no_wakeup_two :
    (∃ m, (Join.machine ℕ).run (.new 2) wakeSibling = some m ∧ m.pc = .idle (some .pending) ∧
      m.wakers.isAwoken 0 = true ∧ m.LosesNoWakeup 2) ∧
    (∃ m, (Merge.machine (.futures ℕ)).run (.new 2) Merge.bothComplete = some m ∧
      m.LosesNoWakeup (.futures ℕ) 2) ∧
    ∃ m, (Merge.machine (.streams ℕ)).run (.new 2) Merge.itemThenEnd = some m ∧
      m.LosesNoWakeup (.streams ℕ) 2 := by
  refine ⟨⟨_, rfl, rfl, rfl, ?_⟩, ⟨_, rfl, ?_⟩, _, rfl, ?_⟩
  · exact (combinators_lose_no_wakeup (by decide)).1 wakeSibling _ rfl
  · exact (combinators_lose_no_wakeup (by decide)).2.1 Merge.bothComplete _ rfl
  · exact (combinators_lose_no_wakeup (by decide)).2.2 Merge.itemThenEnd _ rfl

end LocalRuntime
