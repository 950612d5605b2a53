import LocalRuntime.Concurrency.Join
import LocalRuntime.Concurrency.Merge

/-!
# Minimal polling

The section of that name in the documentation of `src/concurrency.rs`: an inner future is polled
only when it is awoken, whatever its siblings do and however often the combinator is polled.

A flag is set in three places: at the start, by a wake, and by `poll_merged` after an item of the
stream. `Fresh` reads this off the log: since the latest poll of the inner future began, one of
these has happened. The flag of an inner future that can still be polled is set only if it is fresh,
so every poll begins in a fresh state (`Thrifty`); what that says about consecutive polls and about
the number of polls is then a fact about logs alone.
-/

namespace LocalRuntime

variable {O R T : Type}

namespace Ev

def isWake (i : ℕ) : Ev O R → Bool
  | wake j => decide (j = i)
  | _ => false

def isStart (i : ℕ) : Ev O R → Bool
  | start j => decide (j = i)
  | _ => false

/-- An answer after which the inner future is to be polled again, by the test of the combinator. -/
def isRenewal (renew : O → Bool) (i : ℕ) : Ev O R → Bool
  | done j (.ready out) => decide (j = i) && renew out
  | _ => false

end Ev

namespace Log

/-- How often the inner future has been woken. -/
def wakes (i : ℕ) (log : Log O R) : ℕ := log.countP (Ev.isWake i)

/-- How often it has been polled. -/
def polls (i : ℕ) (log : Log O R) : ℕ := log.countP (Ev.isStart i)

/-- How often it has given an answer after which it is to be polled again. -/
def renewals (renew : O → Bool) (i : ℕ) (log : Log O R) : ℕ := log.countP (Ev.isRenewal renew i)

/-- The inner future has not been polled yet, or since its latest poll began it has been woken or
has given an answer after which it is to be polled again. -/
def Fresh (renew : O → Bool) (i : ℕ) : Log O R → Prop
  | [] => True
  | .wake j :: log => j = i ∨ Fresh renew i log
  | .start j :: log => j ≠ i ∧ Fresh renew i log
  | .done j (.ready out) :: log => (j = i ∧ renew out = true) ∨ Fresh renew i log
  | .done _ .pending :: log | .call :: log | .ret _ :: log => Fresh renew i log

/-- Every poll begins with the inner future fresh and not yet polled by the call. -/
def Thrifty (renew : O → Bool) (log : Log O R) : Prop :=
  ∀ i earlier, .start i :: earlier <:+ log → Fresh renew i earlier ∧ ¬ Log.PolledByCall i earlier

/-- What minimal polling means. In a split `later ++ .start i :: (mid ++ .start i :: earlier)` of
the log, latest first, `mid` is what happens between two polls. -/
structure Minimal (renew : O → Bool) (log : Log O R) : Prop where
  /-- An inner future is polled at most once by a call. -/
  once : ∀ i later mid earlier, log = later ++ .start i :: (mid ++ .start i :: earlier) →
    .call ∈ mid
  /-- Between two consecutive polls it is woken, or the first of them gives a renewing answer. -/
  renewed : ∀ i later mid earlier, log = later ++ .start i :: (mid ++ .start i :: earlier) →
    .start i ∉ mid → .wake i ∈ mid ∨ ∃ out, renew out = true ∧ .done i (.ready out) ∈ mid
  polls_le : ∀ i, log.polls i ≤ 1 + log.wakes i + log.renewals renew i

section Lemmas

variable {renew : O → Bool} {i j : ℕ} {log : Log O R} {e : Ev O R}

theorem Fresh.act (h : Fresh renew i log) {a : FlagWakers.Act} : Fresh renew i (log.act a) := by
  rcases a with j | - | w
  · exact Or.inr h
  · exact h
  · exact h

theorem polledByCall_act {a : FlagWakers.Act} :
    (log.act a).PolledByCall i ↔ log.PolledByCall i := by
  rcases a with j | - | w
  · exact Iff.rfl
  · exact Iff.rfl
  · exact Iff.rfl

/-- An event that begins no poll. -/
theorem Thrifty.cons (h : Thrifty renew log) (he : ∀ j, e ≠ .start j) :
    Thrifty renew (e :: log) := by
  intro i earlier hsuffix
  rcases List.suffix_cons_iff.1 hsuffix with heq | hsuffix
  · exact absurd (List.cons.inj heq).1.symm (he i)
  · exact h i earlier hsuffix

theorem Thrifty.act (h : Thrifty renew log) (a : FlagWakers.Act) : Thrifty renew (log.act a) := by
  rcases a with j | - | w
  · exact h.cons (by simp)
  · exact h
  · exact h

theorem Thrifty.start (h : Thrifty renew log) (hfresh : Fresh renew i log)
    (hpolled : ¬ log.PolledByCall i) : Thrifty renew (.start i :: log) := by
  intro j earlier hsuffix
  rcases List.suffix_cons_iff.1 hsuffix with heq | hsuffix
  · obtain ⟨hstart, rfl⟩ := List.cons.inj heq
    exact Ev.start.inj hstart ▸ ⟨hfresh, hpolled⟩
  · exact h j earlier hsuffix

/-- A poll that the call has not made yet lies before the call. -/
theorem call_mem_of_not_polledByCall {mid earlier : Log O R}
    (h : ¬ Log.PolledByCall i (mid ++ .start i :: earlier)) : .call ∈ mid := by
  induction mid with
  | nil => exact absurd (Or.inl rfl) h
  | cons e mid ih =>
    rcases e with j | - | j | ⟨j, out⟩ | out
    case call => exact List.mem_cons_self
    case start => exact List.mem_cons_of_mem _ (ih fun hmid ↦ h (Or.inr hmid))
    all_goals exact List.mem_cons_of_mem _ (ih h)

/-- What makes it fresh again has happened since the latest poll. -/
theorem renewed_of_fresh {mid earlier : Log O R} (h : Fresh renew i (mid ++ .start i :: earlier)) :
    .wake i ∈ mid ∨ ∃ out, renew out = true ∧ .done i (.ready out) ∈ mid := by
  induction mid with
  | nil => exact absurd rfl h.1
  | cons e mid ih =>
    have hlater : Fresh renew i (mid ++ .start i :: earlier) →
        .wake i ∈ e :: mid ∨ ∃ out, renew out = true ∧ .done i (.ready out) ∈ e :: mid := by
      intro hmid
      refine (ih hmid).imp (List.mem_cons_of_mem _) ?_
      rintro ⟨out, hout, hmem⟩
      exact ⟨out, hout, List.mem_cons_of_mem _ hmem⟩
    rcases e with j | - | j | ⟨j, - | out⟩ | out
    case wake =>
      rcases h with rfl | h
      · exact Or.inl List.mem_cons_self
      · exact hlater h
    case start => exact hlater h.2
    case done.ready =>
      rcases h with ⟨rfl, hout⟩ | h
      · exact Or.inr ⟨out, hout, List.mem_cons_self⟩
      · exact hlater h
    all_goals exact hlater h

/-- Each poll uses up what has made it fresh. Where the inner future is fresh, one more poll is paid
for already. -/
theorem Thrifty.polls_le (h : Thrifty renew log) (i : ℕ) :
    log.polls i ≤ 1 + log.wakes i + log.renewals renew i ∧
      (Fresh renew i log → log.polls i ≤ log.wakes i + log.renewals renew i) := by
  induction log with
  | nil => exact ⟨Nat.zero_le _, fun _ ↦ Nat.le_refl _⟩
  | cons e log ih =>
    have htail : Thrifty renew log := fun j earlier hsuffix ↦
      h j earlier (hsuffix.trans (List.suffix_cons _ _))
    obtain ⟨hle, hfresh⟩ := ih htail
    simp only [polls, wakes, renewals, List.countP_cons] at hle hfresh ⊢
    rcases e with j | - | j | ⟨j, - | out⟩ | out
    case wake =>
      simp only [Ev.isStart, Ev.isWake, Ev.isRenewal, Fresh, decide_eq_true_eq, Bool.false_eq_true,
        if_false, Nat.add_zero]
      split
      next => exact ⟨by omega, fun _ ↦ by omega⟩
      next hji => exact ⟨hle, fun h ↦ hfresh (h.resolve_left hji)⟩
    case start =>
      simp only [Ev.isStart, Ev.isWake, Ev.isRenewal, Fresh, decide_eq_true_eq, Bool.false_eq_true,
        if_false, Nat.add_zero]
      split
      next hji =>
        have hpaid := hfresh (hji ▸ (h j log (List.suffix_refl _)).1)
        exact ⟨by omega, fun h ↦ absurd hji h.1⟩
      next => exact ⟨hle, fun h ↦ hfresh h.2⟩
    case done.ready =>
      simp only [Ev.isStart, Ev.isWake, Ev.isRenewal, Fresh, Bool.and_eq_true, decide_eq_true_eq,
        Bool.false_eq_true, if_false, Nat.add_zero]
      split
      next => exact ⟨by omega, fun _ ↦ by omega⟩
      next hji => exact ⟨hle, fun h ↦ hfresh (h.resolve_left hji)⟩
    all_goals exact ⟨hle, hfresh⟩

theorem Thrifty.minimal (h : Thrifty renew log) : Minimal renew log := by
  have hsplit (i : ℕ) (later mid earlier : Log O R)
      (heq : log = later ++ .start i :: (mid ++ .start i :: earlier)) :
      Fresh renew i (mid ++ .start i :: earlier) ∧
        ¬ Log.PolledByCall i (mid ++ .start i :: earlier) :=
    h i _ ⟨later, heq.symm⟩
  refine ⟨fun i later mid earlier heq ↦ ?_, fun i later mid earlier heq _ ↦ ?_, fun i ↦ ?_⟩
  · exact call_mem_of_not_polledByCall (hsplit i later mid earlier heq).2
  · exact renewed_of_fresh (hsplit i later mid earlier heq).1
  · exact (h.polls_le i).1

end Lemmas

end Log

/-! ### The flags -/

namespace FlagWakers

variable {b : FlagWakers} {i j : ℕ}

theorem eq_or_isAwoken_of_setAwoken (h : (b.setAwoken i).isAwoken j = true) :
    i = j ∨ b.isAwoken j = true := by
  rcases eq_or_ne i j with heq | hne
  · exact Or.inl heq
  · rw [isAwoken, setAwoken, List.getElem?_set_ne hne] at h
    exact Or.inr h

end FlagWakers

/-- The flags and the log of a combinator that still has to visit `rest`. -/
structure Thrift (renew : O → Bool) (b : FlagWakers) (log : Log O R) (alive : ℕ → Bool)
    (rest : List ℕ) : Prop where
  fresh : ∀ i, b.isAwoken i = true → alive i = true → log.Fresh renew i
  thrifty : log.Thrifty renew
  nodup : rest.Nodup
  unpolled : ∀ i ∈ rest, ¬ log.PolledByCall i

namespace Thrift

variable {renew : O → Bool} {b b' : FlagWakers} {log : Log O R} {alive alive' : ℕ → Bool}
  {rest rest' : List ℕ} {i : ℕ}

theorem weaken (h : Thrift renew b log alive rest) (halive : ∀ j, alive' j = true → alive j = true)
    (hrest : rest'.Sublist rest) : Thrift renew b log alive' rest' where
  fresh j hj halive' := h.fresh j hj (halive j halive')
  thrifty := h.thrifty
  nodup := h.nodup.sublist hrest
  unpolled j hj := h.unpolled j (hrest.subset hj)

theorem skip (h : Thrift renew b log alive (i :: rest)) : Thrift renew b log alive rest :=
  h.weaken (fun _ hj ↦ hj) (List.sublist_cons_self i rest)

/-- **A step from outside**: whoever is woken is fresh. -/
theorem act (h : Thrift renew b log alive rest) {a : FlagWakers.Act} (ha : b.act a = some b') :
    Thrift renew b' (log.act a) alive rest := by
  obtain ⟨-, -, hawoken⟩ := FlagWakers.act_eq_some ha
  refine ⟨fun j hj halive ↦ ?_, h.thrifty.act a, h.nodup, fun j hj ↦ ?_⟩
  · rw [hawoken, Bool.or_eq_true, decide_eq_true_iff] at hj
    rcases hj with rfl | hj
    · exact Or.inl rfl
    · exact (h.fresh j hj halive).act
  · rw [Log.polledByCall_act]
    exact h.unpolled j hj

/-- A call begins, which has polled nothing yet. -/
theorem call (h : Thrift renew b log alive rest) (cx : ℕ) (hrest : rest'.Nodup) :
    Thrift renew (b.register cx) (.call :: log) alive rest' :=
  ⟨h.fresh, h.thrifty.cons (by simp), hrest, fun _ _ ↦ id⟩

theorem check (h : Thrift renew b log alive rest) (i : ℕ) :
    Thrift renew (b.checkAwoken i) log alive rest := by
  refine ⟨fun j hj halive ↦ ?_, h.thrifty, h.nodup, h.unpolled⟩
  rw [FlagWakers.isAwoken_checkAwoken, Bool.and_eq_true] at hj
  exact h.fresh j hj.2 halive

/-- **A visit that polls**: the flag was set, so the inner future is fresh. -/
theorem start (h : Thrift renew b log alive (i :: rest)) (hi : b.isAwoken i = true)
    (halive : alive i = true) : Thrift renew (b.checkAwoken i) (.start i :: log) alive rest := by
  have hfresh := h.fresh i hi halive
  obtain ⟨hnot, hnodup⟩ := List.nodup_cons.1 h.nodup
  refine ⟨fun j hj hj' ↦ ?_, h.thrifty.start hfresh (h.unpolled i List.mem_cons_self), hnodup,
    fun j hj ↦ ?_⟩
  · rw [FlagWakers.isAwoken_checkAwoken, Bool.and_eq_true, Bool.not_eq_true',
      decide_eq_false_iff_not] at hj
    exact ⟨hj.1, h.fresh j hj.2 hj'⟩
  · refine not_or.2 ⟨?_, h.unpolled j (List.mem_cons_of_mem _ hj)⟩
    rintro rfl
    exact hnot hj

/-- A poll returns. -/
theorem done (h : Thrift renew b log alive rest) (i : ℕ) (out : Poll O) :
    Thrift renew b (.done i out :: log) alive rest := by
  refine ⟨fun j hj halive ↦ ?_, h.thrifty.cons (by simp), h.nodup, h.unpolled⟩
  rcases out with - | out
  · exact h.fresh j hj halive
  · exact Or.inr (h.fresh j hj halive)

/-- A flag is set after an answer, which is a renewing one if the inner future can be polled
again. -/
theorem renewed {out : O} (h : Thrift renew b (.done i (.ready out) :: log) alive rest)
    (hrenew : alive i = true → renew out = true) :
    Thrift renew (b.setAwoken i) (.done i (.ready out) :: log) alive rest := by
  refine ⟨fun j hj halive ↦ ?_, h.thrifty, h.nodup, h.unpolled⟩
  rcases FlagWakers.eq_or_isAwoken_of_setAwoken hj with rfl | hj
  · exact Or.inl ⟨rfl, hrenew halive⟩
  · exact h.fresh j hj halive

/-- A call returns. -/
theorem ret (h : Thrift renew b log alive rest) (out : R) :
    Thrift renew b (.ret out :: log) alive [] :=
  ⟨h.fresh, h.thrifty.cons (by simp), List.nodup_nil, by simp⟩

end Thrift

/-! ### Joining -/

namespace Join

/-- The inner futures that the call still has to visit. -/
def toVisit : JoinPc T → List ℕ
  | .idle _ | .panicked _ => []
  | .visit rest _ | .polling _ rest _ => rest

/-- The flags and the log of a join, where it is. -/
def Sparing (m : Join T) : Prop :=
  Thrift (fun _ ↦ false) m.wakers m.log m.isFut (toVisit m.pc)

variable {m m' : Join T}

theorem Sparing.new (n : ℕ) : Sparing (Join.new n : Join T) where
  fresh _ _ _ := trivial
  thrifty i earlier hsuffix := absurd (List.suffix_nil.1 hsuffix) (by simp)
  nodup := List.nodup_nil
  unpolled := by simp [toVisit, Join.new]

theorem Sparing.begin (h : Sparing m) (cx : ℕ) : Sparing (m.begin cx) := by
  simp only [Join.begin]
  split
  next => exact Thrift.call h cx List.nodup_nil
  next => exact Thrift.call h cx List.nodup_range

theorem Sparing.visit {i : ℕ} {rest : List ℕ} {out : Poll Unit} (h : Sparing m)
    (hpc : m.pc = .visit (i :: rest) out) : Sparing (m.visit i rest out) := by
  rw [Sparing, hpc] at h
  rw [Join.visit]
  split
  next hfut =>
    split
    next hawoken => exact h.start hawoken hfut
    next => exact (h.check i).skip
  next => exact h.skip

theorem Sparing.answer {i : ℕ} {rest : List ℕ} {out : Poll Unit} (h : Sparing m)
    (hpc : m.pc = .polling i rest out) (p : Poll T) : Sparing (m.answer i rest out p) := by
  rw [Sparing, hpc] at h
  rcases p with - | val
  · exact h.done i .pending
  · refine (h.done i (.ready val)).weaken (fun j hj ↦ ?_) (List.Sublist.refl _)
    exact (isFut_answer_ready.1 hj).2

theorem Sparing.finish {out : Poll Unit} (h : Sparing m) : Sparing (m.finish out) := by
  have hweaken {m' : Join T} (hfut : ∀ j, m'.isFut j = true → m.isFut j = true) :
      Thrift (fun _ ↦ false) m.wakers m.log m'.isFut [] :=
    Thrift.weaken h hfut (List.nil_sublist _)
  rcases out with - | ⟨⟩
  · exact Thrift.ret h .pending
  · simp only [Join.finish]
    split
    next => exact hweaken fun _ hj ↦ hj
    next l hl =>
      have hgone (j : ℕ) (pc : JoinPc T) (log : Log T (Poll (List T))) :
          ¬ isFut { m with inflight := none, pc, log } j = true := by
        simp [isFut, inflights]
      split
      next => exact hweaken fun j hj ↦ absurd hj (hgone j _ _)
      next vals hvals =>
        exact (Thrift.ret h (.ready vals)).weaken (fun j hj ↦ absurd hj (hgone j _ _))
          (List.Sublist.refl _)

theorem Sparing.step (h : Sparing m) {a : JoinAct T} (hstep : m.step a = some m') : Sparing m' := by
  rcases step_cases hstep with hpc | hpc | hpc | hpc | hstep
  · exact h.begin _
  · exact h.finish
  · exact h.visit hpc
  · exact h.answer hpc _
  · obtain ⟨wakers, hact, rfl⟩ := Option.map_eq_some_iff.1 hstep
    exact Thrift.act h hact

theorem minimal_of_run {n : ℕ} {acts : List (JoinAct T)}
    (hrun : (machine T).run (Join.new n) acts = some m) : m.log.Minimal fun _ ↦ false := by
  have hsparing : Sparing m :=
    Machine.run_preserves (I := Sparing) (fun _ _ _ h hstep ↦ h.step hstep) (.new n) hrun
  exact hsparing.thrifty.minimal

end Join

/-! ### Merging -/

namespace MergeKind

/-- The answers after which an inner stream is polled again: its items, unless they are its last
answer. -/
def renew (K : MergeKind O T) (out : O) : Bool := (K.optFn out).isSome && !K.noneFn out

theorem renew_futures : (futures T).renew = fun _ ↦ false := rfl

theorem renew_streams : (streams T).renew = Option.isSome := by
  funext out
  rcases out with - | val
  · rfl
  · rfl

end MergeKind

namespace Merge

/-- The inner futures that the call still has to visit. -/
def toVisit : MergePc T → List ℕ
  | .idle _ | .panicked => []
  | .visit rest | .polling _ rest => rest

/-- The flags and the log of a merge, where it is. -/
def Sparing (K : MergeKind O T) (m : Merge O T) : Prop :=
  Thrift K.renew m.wakers m.log m.alive (toVisit m.pc)

variable {K : MergeKind O T} {m m' : Merge O T}

theorem Sparing.new (n : ℕ) : Sparing K (Merge.new n : Merge O T) where
  fresh _ _ _ := trivial
  thrifty i earlier hsuffix := absurd (List.suffix_nil.1 hsuffix) (by simp)
  nodup := List.nodup_nil
  unpolled := by simp [toVisit, Merge.new]

theorem Sparing.begin (h : Sparing K m) (cx : ℕ) : Sparing K (m.begin cx) := by
  have horder := (order_perm m.idx m.pollers.length).nodup_iff.2 List.nodup_range
  simp only [Merge.begin]
  split
  next => exact Thrift.call h cx horder
  next => exact Thrift.call h cx List.nodup_nil

theorem Sparing.advance {rest : List ℕ} (h : Thrift K.renew m.wakers m.log m.alive rest) :
    Sparing K (m.advance rest) := by
  simp only [Merge.advance]
  split
  next => exact h.ret .ended
  next => exact h

theorem Sparing.visit {i : ℕ} {rest : List ℕ} (h : Sparing K m) (hpc : m.pc = .visit (i :: rest)) :
    Sparing K (m.visit i rest) := by
  rw [Sparing, hpc] at h
  rw [Merge.visit]
  split
  next halive =>
    split
    next hawoken => exact h.start hawoken halive
    next => exact Sparing.advance (h.check i).skip
  next => exact Sparing.advance h.skip

theorem Sparing.answer {i : ℕ} {rest : List ℕ} (h : Sparing K m) (hpc : m.pc = .polling i rest)
    (p : Poll O) : Sparing K (m.answer K i rest p) := by
  rw [Sparing, hpc] at h
  rcases p with - | out
  · exact Sparing.advance (h.done i .pending)
  · obtain ⟨hwakers, -, hlog, -⟩ := settle_eq K m i out
    have hsettled : Thrift K.renew m.wakers (.done i (.ready out) :: m.log)
        (settle K m i out).alive rest := by
      refine (h.done i (.ready out)).weaken (fun j hj ↦ ?_) (List.Sublist.refl _)
      rw [alive_settle, Bool.and_eq_true] at hj
      exact hj.2
    simp only [Merge.answer]
    split
    next val hval =>
      have hrenew (halive : (settle K m i out).alive i = true) : K.renew out = true := by
        rw [alive_settle, Bool.and_eq_true, decide_eq_true rfl, Bool.and_true] at halive
        rw [MergeKind.renew, hval, Option.isSome_some, Bool.true_and, halive.1]
      rw [Sparing, Merge.finish, hwakers, hlog]
      exact (hsettled.renewed hrenew).ret (.item i val)
    next =>
      refine Sparing.advance ?_
      rw [hwakers, hlog]
      exact hsettled

theorem Sparing.step (h : Sparing K m) {a : MergeAct O} (hstep : m.step K a = some m') :
    Sparing K m' := by
  rcases step_cases hstep with hpc | hpc | hpc | hpc | hstep
  · exact h.begin _
  · exact Thrift.ret h .pending
  · exact h.visit hpc
  · exact h.answer hpc _
  · obtain ⟨wakers, hact, rfl⟩ := Option.map_eq_some_iff.1 hstep
    exact Thrift.act h hact

theorem minimal_of_run {n : ℕ} {acts : List (MergeAct O)}
    (hrun : (machine K).run (Merge.new n) acts = some m) : m.log.Minimal K.renew := by
  have hsparing : Sparing K m :=
    Machine.run_preserves (I := Sparing K) (fun _ _ _ h hstep ↦ h.step hstep) (.new n) hrun
  exact hsparing.thrifty.minimal

end Merge

/-- **`join!` and the merge combinators poll minimally**: an inner future is polled at most once by
a call, and again only if it has been woken since or, for a stream, has yielded an item. -/
theorem combinators_poll_minimally {T : Type} (n : ℕ) :
    (∀ acts m, (Join.machine T).run (.new n) acts = some m → m.log.Minimal fun _ ↦ false) ∧
    (∀ acts m, (Merge.machine (.futures T)).run (.new n) acts = some m →
      m.log.Minimal fun _ ↦ false) ∧
    ∀ acts m, (Merge.machine (.streams T)).run (.new n) acts = some m →
      m.log.Minimal Option.isSome := by
  refine ⟨fun acts m hrun ↦ ?_, fun acts m hrun ↦ ?_, fun acts m hrun ↦ ?_⟩
  · exact Join.minimal_of_run hrun
  · rw [← MergeKind.renew_futures]
    exact Merge.minimal_of_run hrun
  · rw [← MergeKind.renew_streams]
    exact Merge.minimal_of_run hrun

/-- The join is polled twice without need before the first future is woken; it then polls that one
alone. -/
def spuriousPolls : List (JoinAct ℕ) :=
  [.poll 7, .tick, .ret .pending, .tick, .ret .pending, .tick, .poll 7, .tick, .tick,
    .tick, .poll 8, .tick, .tick, .tick, .env (.wake 0), .env .fire, .poll 8, .tick, .ret .pending,
    .tick, .tick]

theorem combinators_poll_minimally_two :
    (∃ m, (Join.machine ℕ).run (.new 2) spuriousPolls = some m ∧ m.log.polls 0 = 2 ∧
      m.log.polls 1 = 1 ∧ m.log.Minimal fun _ ↦ false) ∧
    (∃ m, (Merge.machine (.futures ℕ)).run (.new 2) Merge.bothComplete = some m ∧
      m.log.Minimal fun _ ↦ false) ∧
    ∃ m, (Merge.machine (.streams ℕ)).run (.new 2) Merge.itemThenEnd = some m ∧
      m.log.polls 0 = 2 ∧ m.log.Minimal Option.isSome := by
  refine ⟨⟨_, rfl, rfl, rfl, ?_⟩, ⟨_, rfl, ?_⟩, _, rfl, rfl, ?_⟩
  · exact (combinators_poll_minimally 2).1 spuriousPolls _ rfl
  · exact (combinators_poll_minimally 2).2.1 Merge.bothComplete _ rfl
  · exact (combinators_poll_minimally 2).2.2 Merge.itemThenEnd _ rfl

end LocalRuntime
