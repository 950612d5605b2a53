import LocalRuntime.Concurrency.FlagWaker
import LocalRuntime.Lib.Machine

/-!
# Joining futures

`JoinFuture` of `src/concurrency.rs` and its loop `poll_join`: the inner futures are visited in
order, those that are awoken are polled, and the call is ready when none is in flight.

The loop is cut at every access to a flag, as in the merge. `take` empties the array of inner
futures when the call is ready, so a call after that one panics, as polling a future again does; the
other panic of the source, on an inner future that is still in flight at the end, is ruled out by
`Inv`.
-/

namespace LocalRuntime

/-- An inner future, or its output. -/
inductive Inflight (T : Type) where
  | fut
  | done (val : T)

namespace Inflight

variable {T : Type}

/-- The output is not there yet. -/
def isFut : Inflight T → Bool
  | fut => true
  | done _ => false

/-- `Inflight::unwrap_done`. -/
def unwrapDone : Inflight T → Option T
  | fut => none
  | done val => some val

end Inflight

/-- The panics of `JoinFuture::poll`. -/
inductive JoinPanic where
  /-- `unwrap` of `inflight` after it has been taken. -/
  | unwrapNone
  /-- `unwrap_done`: expected inflight future to be done. -/
  | expectedDone
  deriving DecidableEq

/-- Where a join is. The last argument in the loop is the answer so far. -/
inductive JoinPc (T : Type) where
  /-- Not being polled, with what the last call returned. -/
  | idle (last : Option (Poll (List T)))
  /-- In the loop, with the inner futures still to be visited. -/
  | visit (rest : List ℕ) (out : Poll Unit)
  /-- An inner future is being polled. -/
  | polling (i : ℕ) (rest : List ℕ) (out : Poll Unit)
  | panicked (why : JoinPanic)

/-- A bound on the steps until the call returns. -/
def JoinPc.left {T : Type} : JoinPc T → ℕ
  | idle _ | panicked _ => 0
  | visit rest _ => 2 * rest.length + 1
  | polling _ rest _ => 2 * rest.length + 2

/-- A join with its log. -/
structure Join (T : Type) where
  inflight : Option (List (Inflight T))
  wakers : FlagWakers
  pc : JoinPc T
  log : Log T (Poll (List T))

/-- A step of the join, the answer of the inner future that is being polled, or a step from
outside. -/
inductive JoinAct (T : Type) where
  | poll (cx : ℕ)
  | tick
  | ret (out : Poll T)
  | env (a : FlagWakers.Act)

namespace Join

variable {T : Type}

/-- A join of `n` inner futures that has not been polled. -/
def new (n : ℕ) : Join T where
  inflight := some (List.replicate n .fut)
  wakers := .new n
  pc := .idle none
  log := []

/-- The inner futures, none once they have been taken. -/
def inflights (m : Join T) : List (Inflight T) := m.inflight.getD []

/-- The inner future is in flight. -/
def isFut (m : Join T) (i : ℕ) : Bool := (m.inflights[i]?.map Inflight.isFut).getD false

/-- The start of a call: register its waker, and unwrap the inner futures. -/
def begin (m : Join T) (cx : ℕ) : Join T :=
  let m := { m with wakers := m.wakers.register cx, log := .call :: m.log }
  match m.inflight with
  | none => { m with pc := .panicked .unwrapNone }
  | some inflights => { m with pc := .visit (List.range inflights.length) (.ready ()) }

/-- Visit an inner future: poll it if it is in flight and its flag is set. -/
def visit (m : Join T) (i : ℕ) (rest : List ℕ) (out : Poll Unit) : Join T :=
  if m.isFut i then
    if m.wakers.isAwoken i then { m with
      wakers := m.wakers.checkAwoken i
      pc := .polling i rest out
      log := .start i :: m.log }
    else { m with wakers := m.wakers.checkAwoken i, pc := .visit rest .pending }
  else { m with pc := .visit rest out }

/-- The answer of an inner future. -/
def answer (m : Join T) (i : ℕ) (rest : List ℕ) (out : Poll Unit) : Poll T → Join T
  | .pending => { m with pc := .visit rest .pending, log := .done i .pending :: m.log }
  | .ready val => { m with
      inflight := m.inflight.map fun inflights ↦ inflights.set i (.done val)
      pc := .visit rest out
      log := .done i (.ready val) :: m.log }

/-- The end of the loop. When nothing is in flight, take the inner futures and unwrap their
outputs. -/
def finish (m : Join T) : Poll Unit → Join T
  | .pending => { m with pc := .idle (some .pending), log := .ret .pending :: m.log }
  | .ready () =>
    match m.inflight with
    | none => { m with pc := .panicked .unwrapNone }
    | some inflights =>
      match inflights.mapM Inflight.unwrapDone with
      | none => { m with inflight := none, pc := .panicked .expectedDone }
      | some vals => { m with
          inflight := none
          pc := .idle (some (.ready vals))
          log := .ret (.ready vals) :: m.log }

/-- A step from outside, with its wake in the log. -/
def env (m : Join T) (a : FlagWakers.Act) : Option (Join T) :=
  (m.wakers.act a).map fun wakers ↦ { m with wakers, log := m.log.act a }

/-- The step of an action. -/
def step (m : Join T) : JoinAct T → Option (Join T)
  | .poll cx =>
    match m.pc with
    | .idle _ => some (m.begin cx)
    | _ => none
  | .tick =>
    match m.pc with
    | .visit [] out => some (m.finish out)
    | .visit (i :: rest) out => some (m.visit i rest out)
    | _ => none
  | .ret p =>
    match m.pc with
    | .polling i rest out => some (m.answer i rest out p)
    | _ => none
  | .env a => m.env a

/-- The machine of a join. -/
def machine (T : Type) : Machine (Join T) (JoinAct T) := ⟨step⟩

/-- Every step of the machine. -/
inductive Step (m : Join T) : JoinAct T → Join T → Prop where
  | begin {last : Option (Poll (List T))} {cx : ℕ} (hpc : m.pc = .idle last) :
      Step m (.poll cx) (m.begin cx)
  | finish {out : Poll Unit} (hpc : m.pc = .visit [] out) : Step m .tick (m.finish out)
  | visit {i : ℕ} {rest : List ℕ} {out : Poll Unit} (hpc : m.pc = .visit (i :: rest) out) :
      Step m .tick (m.visit i rest out)
  | answer {i : ℕ} {rest : List ℕ} {out : Poll Unit} {p : Poll T}
      (hpc : m.pc = .polling i rest out) : Step m (.ret p) (m.answer i rest out p)
  | env {a : FlagWakers.Act} {m' : Join T} (h : m.env a = some m') : Step m (.env a) m'

theorem step_cases {m m' : Join T} {a : JoinAct T} (h : m.step a = some m') : Step m a m' := by
  rcases a with cx | - | out | a
  · simp only [step] at h
    split at h
    next hpc =>
      obtain rfl := Option.some.inj h
      exact .begin hpc
    next => exact absurd h (by simp)
  · simp only [step] at h
    split at h
    next hpc =>
      obtain rfl := Option.some.inj h
      exact .finish hpc
    next hpc =>
      obtain rfl := Option.some.inj h
      exact .visit hpc
    next => exact absurd h (by simp)
  · simp only [step] at h
    split at h
    next hpc =>
      obtain rfl := Option.some.inj h
      exact .answer hpc
    next => exact absurd h (by simp)
  · exact .env h

/-! ### What is in flight -/

/-- An inner future has finished with its first answer. -/
abbrev Finished (i : ℕ) (log : Log T (Poll (List T))) : Prop := log.Finished (fun _ ↦ true) i

/-- What holds of a join wherever it is. -/
structure Core (n : ℕ) (m : Join T) : Prop where
  length_inflight : ∀ inflights, m.inflight = some inflights → inflights.length = n
  length_awoken : m.wakers.awoken.length = n
  isFut_iff : ∀ i < n, m.isFut i = true ↔ ¬ Finished i m.log

/-- What holds where it is: as long as the answer so far is ready, everything in flight is still to
be visited. -/
def Place (m : Join T) : Prop :=
  match m.pc with
  | .idle _ | .panicked .unwrapNone => True
  | .visit rest out => m.inflight ≠ none ∧ (out = .ready () → ∀ j, m.isFut j = true → j ∈ rest)
  | .polling i rest out => m.isFut i = true ∧
      (out = .ready () → ∀ j, m.isFut j = true → j = i ∨ j ∈ rest)
  | .panicked .expectedDone => False

section Steps

variable {n : ℕ} {m m' : Join T} {i j : ℕ}

theorem isFut_eq_true : m.isFut i = true ↔ ∃ l, m.inflight = some l ∧ l[i]? = some .fut := by
  rw [isFut, inflights]
  rcases m.inflight with - | l
  · simp
  · rcases hi : l[i]? with - | (- | val)
    · simp [hi]
    · simp [hi, Inflight.isFut]
    · simp [hi, Inflight.isFut]

theorem Core.lt_of_isFut (h : Core n m) (hi : m.isFut i = true) : i < n := by
  obtain ⟨l, hl, hfut⟩ := isFut_eq_true.1 hi
  exact h.length_inflight l hl ▸ (List.getElem?_eq_some_iff.1 hfut).1

/-- Whatever leaves the inner futures alone and finishes nothing. -/
theorem Core.of_same (h : Core n m) (hinflight : m'.inflight = m.inflight)
    (hawoken : m'.wakers.awoken.length = m.wakers.awoken.length)
    (hfin : ∀ i, Finished i m'.log ↔ Finished i m.log) : Core n m' where
  length_inflight l hl := h.length_inflight l (hinflight ▸ hl)
  length_awoken := hawoken.trans h.length_awoken
  isFut_iff i hi := by
    rw [isFut, inflights, hinflight, hfin]
    exact h.isFut_iff i hi

theorem Core.begin (h : Core n m) (cx : ℕ) : Core n (m.begin cx) ∧ Place (m.begin cx) := by
  have hfin (i : ℕ) : Finished i (.call :: m.log) ↔ Finished i m.log := by
    rw [Finished, Log.finished_cons, or_iff_right (by simp)]
  simp only [Join.begin]
  split
  next => exact ⟨h.of_same rfl rfl hfin, trivial⟩
  next l hl =>
    refine ⟨h.of_same rfl rfl hfin, by simp [hl], fun _ j hj ↦ ?_⟩
    rw [List.mem_range, h.length_inflight l hl]
    exact h.lt_of_isFut hj

/-- A visit polls only what is in flight. -/
theorem Core.visit (h : Core n m) {rest : List ℕ} {out : Poll Unit}
    (hsome : m.inflight ≠ none)
    (hready : out = .ready () → ∀ j, m.isFut j = true → j ∈ i :: rest) :
    Core n (m.visit i rest out) ∧ Place (m.visit i rest out) := by
  rw [Join.visit]
  split
  next hfut =>
    split
    next =>
      refine ⟨h.of_same rfl FlagWakers.length_checkAwoken fun j ↦ ?_, hfut, fun hout j hj ↦ ?_⟩
      · rw [Finished, Log.finished_cons, or_iff_right (by simp)]
      · exact List.mem_cons.1 (hready hout j hj)
    next =>
      exact ⟨h.of_same rfl FlagWakers.length_checkAwoken fun _ ↦ Iff.rfl, hsome,
        fun hout ↦ by simp at hout⟩
  next hfut =>
    refine ⟨h.of_same rfl rfl fun _ ↦ Iff.rfl, hsome, fun hout j hj ↦ ?_⟩
    refine (List.mem_cons.1 (hready hout j hj)).resolve_left ?_
    rintro rfl
    exact hfut hj

/-- An output takes the place of its future. -/
theorem isFut_answer_ready {rest : List ℕ} {out : Poll Unit} {val : T} :
    (m.answer i rest out (.ready val)).isFut j = true ↔ i ≠ j ∧ m.isFut j = true := by
  rw [isFut_eq_true, isFut_eq_true]
  simp only [answer, Option.map_eq_some_iff]
  constructor
  · rintro ⟨l', ⟨l, hl, rfl⟩, hj⟩
    have hne : i ≠ j := by
      rintro rfl
      rw [List.getElem?_set_self'] at hj
      rcases l[i]? with - | e
      · exact absurd hj (by simp)
      · exact absurd hj (by simp)
    exact ⟨hne, l, hl, List.getElem?_set_ne hne ▸ hj⟩
  · rintro ⟨hne, l, hl, hj⟩
    exact ⟨_, ⟨l, hl, rfl⟩, (List.getElem?_set_ne hne).trans hj⟩

theorem Core.answer (h : Core n m) {rest : List ℕ} {out : Poll Unit} (hfut : m.isFut i = true)
    (hready : out = .ready () → ∀ j, m.isFut j = true → j = i ∨ j ∈ rest) (p : Poll T) :
    Core n (m.answer i rest out p) ∧ Place (m.answer i rest out p) := by
  obtain ⟨l, hl, -⟩ := isFut_eq_true.1 hfut
  rcases p with - | val
  · refine ⟨h.of_same rfl rfl fun j ↦ ?_, ?_, fun hout ↦ absurd hout (by simp)⟩
    · rw [Join.answer, Finished, Log.finished_cons, or_iff_right (by simp)]
    · simp [Join.answer, hl]
  · refine ⟨⟨fun l' hl' ↦ ?_, h.length_awoken, fun j hj ↦ ?_⟩, ?_, fun hout j hj ↦ ?_⟩
    · obtain ⟨l, hl, rfl⟩ := Option.map_eq_some_iff.1 hl'
      rw [List.length_set, h.length_inflight l hl]
    · have hlast : (∃ o : T, true = true ∧ (Ev.done i (.ready val) : Ev T (Poll (List T))) =
          .done j (.ready o)) ↔ i = j := by
        constructor
        · rintro ⟨o, -, heq⟩
          exact (Ev.done.inj heq).1
        · rintro rfl
          exact ⟨val, rfl, rfl⟩
      show _ ↔ ¬ Log.Finished _ j (.done i (.ready val) :: m.log)
      rw [isFut_answer_ready, h.isFut_iff j hj, Log.finished_cons, hlast, not_or]
    · simp [Join.answer, hl]
    · obtain ⟨hne, hj⟩ := isFut_answer_ready.1 hj
      exact (hready hout j hj).resolve_left fun heq ↦ hne heq.symm

theorem mapM_unwrapDone (vals : List T) :
    (vals.map Inflight.done).mapM Inflight.unwrapDone = some vals := by
  induction vals with
  | nil => rfl
  | cons val vals ih =>
    rw [List.map_cons, List.mapM_cons, ih]
    rfl

/-- Where nothing is in flight, the outputs are all there. -/
theorem exists_eq_map_done (l : List (Inflight T)) (h : ∀ i : ℕ, l[i]? ≠ some .fut) :
    ∃ vals : List T, l = vals.map .done := by
  induction l with
  | nil => exact ⟨[], rfl⟩
  | cons e l ih =>
    rcases e with - | val
    · exact absurd rfl (h 0)
    · obtain ⟨vals, rfl⟩ := ih fun i ↦ h (i + 1)
      exact ⟨val :: vals, rfl⟩

/-- What a call leaves that finds nothing in flight. -/
theorem finish_ready {l : List (Inflight T)} (hl : m.inflight = some l)
    (hdone : ∀ j, m.isFut j = false) : ∃ vals : List T, l = vals.map .done ∧
      m.finish (.ready ()) = { m with
        inflight := none
        pc := .idle (some (.ready vals))
        log := .ret (.ready vals) :: m.log } := by
  obtain ⟨vals, rfl⟩ := exists_eq_map_done l fun i hi ↦
    absurd (isFut_eq_true.2 ⟨l, hl, hi⟩) (by simp [hdone i])
  refine ⟨vals, rfl, ?_⟩
  simp only [finish, hl, mapM_unwrapDone]

theorem Core.finish (h : Core n m) {out : Poll Unit} (hsome : m.inflight ≠ none)
    (hready : out = .ready () → ∀ j, m.isFut j = false) :
    Core n (m.finish out) ∧ Place (m.finish out) := by
  rcases out with - | ⟨⟩
  · refine ⟨h.of_same rfl rfl fun j ↦ ?_, trivial⟩
    rw [Join.finish, Finished, Log.finished_cons, or_iff_right (by simp)]
  · obtain ⟨l, hl⟩ := Option.ne_none_iff_exists'.1 hsome
    obtain ⟨vals, rfl, heq⟩ := finish_ready hl (hready rfl)
    rw [heq]
    refine ⟨⟨by simp, h.length_awoken, fun i hi ↦ ?_⟩, trivial⟩
    have hfin : Finished i m.log := by
      by_contra hunfin
      exact absurd ((h.isFut_iff i hi).2 hunfin) (by simp [hready rfl i])
    show _ ↔ ¬ Log.Finished _ i (.ret (.ready vals) :: m.log)
    rw [Log.finished_cons, or_iff_right (by simp)]
    exact iff_of_false (by simp [isFut, inflights]) (not_not.2 hfin)

theorem Core.env (h : Core n m) {a : FlagWakers.Act} (ha : m.env a = some m') : Core n m' := by
  obtain ⟨wakers, hact, rfl⟩ := Option.map_eq_some_iff.1 ha
  exact h.of_same rfl (FlagWakers.act_eq_some hact).1 fun _ ↦ Log.finished_act

theorem Place.env (h : Place m) {a : FlagWakers.Act} (ha : m.env a = some m') : Place m' := by
  obtain ⟨wakers, -, rfl⟩ := Option.map_eq_some_iff.1 ha
  exact h

/-- A join where it is. -/
def Inv (n : ℕ) (m : Join T) : Prop := Core n m ∧ Place m

theorem Inv.new : Inv n (Join.new n : Join T) := by
  refine ⟨⟨fun l hl ↦ ?_, List.length_replicate, fun i hi ↦ ?_⟩, trivial⟩
  · obtain rfl := Option.some.inj hl
    exact List.length_replicate
  · simp [isFut, inflights, Join.new, hi, Inflight.isFut, Finished, Log.Finished]

/-- **Every step of a join keeps its books.** -/
theorem Inv.step (h : Inv n m) {a : JoinAct T} (hstep : m.step a = some m') : Inv n m' := by
  obtain ⟨hcore, hplace⟩ := h
  rcases step_cases hstep with hpc | hpc | hpc | hpc | hstep
  · exact hcore.begin _
  · rw [Place, hpc] at hplace
    refine hcore.finish hplace.1 fun hout j ↦ ?_
    exact Bool.eq_false_iff.2 fun hj ↦ List.not_mem_nil (hplace.2 hout j hj)
  · rw [Place, hpc] at hplace
    exact hcore.visit hplace.1 hplace.2
  · rw [Place, hpc] at hplace
    exact hcore.answer hplace.1 hplace.2 _
  · exact ⟨hcore.env hstep, hplace.env hstep⟩

theorem Inv.of_run {acts : List (JoinAct T)} (hrun : (machine T).run (Join.new n) acts = some m) :
    Inv n m :=
  Machine.run_preserves (I := Inv n) (fun _ _ _ h hstep ↦ h.step hstep) .new hrun

end Steps

/-! ### Returning -/

section Left

variable {m m' : Join T}

theorem left_visit (m : Join T) (i : ℕ) (rest : List ℕ) (out : Poll Unit) :
    (m.visit i rest out).pc.left ≤ 2 * rest.length + 2 := by
  rw [visit]
  split
  · split
    · exact Nat.le_refl _
    · exact Nat.le_succ _
  · exact Nat.le_succ _

theorem left_answer (m : Join T) (i : ℕ) (rest : List ℕ) (out : Poll Unit) (p : Poll T) :
    (m.answer i rest out p).pc.left = 2 * rest.length + 1 := by
  rcases p with - | val
  · rfl
  · rfl

theorem left_finish (m : Join T) (out : Poll Unit) : (m.finish out).pc.left = 0 := by
  rcases out with - | ⟨⟩
  · rfl
  · simp only [finish]
    split
    · rfl
    · split
      · rfl
      · rfl

/-- **Every step of a call brings its return nearer**, except the ones from outside. -/
theorem left_lt_of_step {a : JoinAct T} (hstep : m.step a = some m') (hleft : 0 < m.pc.left) :
    m'.pc.left < m.pc.left ∨ ∃ e, a = .env e ∧ m'.pc = m.pc := by
  rcases step_cases hstep with hpc | @⟨out, hpc⟩ | @⟨i, rest, out, hpc⟩ | @⟨i, rest, out, p, hpc⟩ |
    @⟨e, m', henv⟩
  · rw [hpc] at hleft
    exact absurd hleft (Nat.lt_irrefl 0)
  · rw [left_finish]
    exact Or.inl hleft
  · have hle := left_visit m i rest out
    rw [hpc, JoinPc.left, List.length_cons]
    exact Or.inl (by omega)
  · rw [left_answer, hpc, JoinPc.left]
    exact Or.inl (by omega)
  · obtain ⟨wakers, -, rfl⟩ := Option.map_eq_some_iff.1 henv
    exact Or.inr ⟨e, rfl, rfl⟩

/-- A call can always go on, whatever the inner future answers. -/
theorem exists_step (hleft : 0 < m.pc.left) (p : Poll T) :
    ∃ a ∈ [.tick, .ret p], (m.step a).isSome := by
  rcases hpc : m.pc with last | ⟨- | ⟨i, rest⟩, out⟩ | ⟨i, rest, out⟩ | why
  · rw [hpc] at hleft
    exact absurd hleft (Nat.lt_irrefl 0)
  · exact ⟨.tick, by simp, by simp [step, hpc]⟩
  · exact ⟨.tick, by simp, by simp [step, hpc]⟩
  · exact ⟨.ret p, by simp, by simp [step, hpc]⟩
  · rw [hpc] at hleft
    exact absurd hleft (Nat.lt_irrefl 0)

end Left

end Join

end LocalRuntime
