import LocalRuntime.Concurrency.FlagWaker
import LocalRuntime.Lib.Machine

/-!
# Merging futures and streams

`poll_merged` of `src/concurrency.rs`, which serves both `MergeFutureStream` and `MergeStream`: one
loop over the inner futures or streams, in an order that starts at `idx`, with two closures that
tell what an answer yields (`opt_fn`) and whether it is the last one (`none_fn`).

The loop is cut at every access to a flag. What an inner future does when it is polled, and what it
answers, is up to the environment.

`Exact` collects what a merge promises: the items it has returned are the items that its inner
streams have answered, each in the call in which it was answered; what has given its last answer is
not polled again; a call returns pending only while something is unfinished and ends the stream only
when nothing is, and from then on every call does; and every call returns.
-/

namespace LocalRuntime

/-- The closures `opt_fn` and `none_fn` of `poll_merged`. -/
structure MergeKind (O T : Type) where
  optFn : O → Option T
  noneFn : O → Bool

namespace MergeKind

/-- `MergeFutureStream`: an answer is an item and the last one. -/
def futures (T : Type) : MergeKind T T := ⟨some, fun _ ↦ true⟩

/-- `MergeStream`: an answer is an item or the end of the stream. -/
def streams (T : Type) : MergeKind (Option T) T := ⟨id, Option.isNone⟩

end MergeKind

/-- What a call of `poll_next` returns. An item comes with the number of the inner future it is
from, which the source does not return. -/
inductive MergeRet (T : Type) where
  | pending
  | item (i : ℕ) (val : T)
  | ended

/-- Where a merge is. -/
inductive MergePc (T : Type) where
  /-- Not being polled, with what the last call returned. -/
  | idle (last : Option (MergeRet T))
  /-- In the loop, with the inner futures still to be visited. -/
  | visit (rest : List ℕ)
  /-- An inner future is being polled. -/
  | polling (i : ℕ) (rest : List ℕ)
  /-- `split_at_mut` is out of bounds. -/
  | panicked

/-- A bound on the steps until the call returns. -/
def MergePc.left {T : Type} : MergePc T → ℕ
  | idle _ | panicked => 0
  | visit rest => 2 * rest.length + 1
  | polling _ rest => 2 * rest.length + 2

/-- A merge with its log. A poller is there until it has given its last answer. -/
structure Merge (O T : Type) where
  pollers : List Bool
  wakers : FlagWakers
  idx : ℕ
  noneCount : ℕ
  pc : MergePc T
  log : Log O (MergeRet T)

/-- A step of the merge, the answer of the inner future that is being polled, or a step from
outside. -/
inductive MergeAct (O : Type) where
  | poll (cx : ℕ)
  | tick
  | ret (out : Poll O)
  | env (a : FlagWakers.Act)

namespace Merge

variable {O T : Type}

/-- A merge of `n` inner futures that has not been polled. -/
def new (n : ℕ) : Merge O T where
  pollers := List.replicate n true
  wakers := .new n
  idx := 0
  noneCount := 0
  pc := .idle none
  log := []

/-- The inner future has not given its last answer. -/
def alive (m : Merge O T) (i : ℕ) : Bool := m.pollers[i]?.getD false

/-- The call returns. -/
def finish (m : Merge O T) (out : MergeRet T) : Merge O T :=
  { m with pc := .idle (some out), log := .ret out :: m.log }

/-- The end of the loop body: update the index, and end the stream if everything has terminated. -/
def advance (m : Merge O T) (rest : List ℕ) : Merge O T :=
  let m := { m with idx := (m.idx + 1) % m.pollers.length }
  if m.noneCount = m.pollers.length then m.finish .ended else { m with pc := .visit rest }

/-- The start of a call: register its waker, and split the inner futures at the index. -/
def begin (m : Merge O T) (cx : ℕ) : Merge O T :=
  let m := { m with wakers := m.wakers.register cx, log := .call :: m.log }
  let all := List.range m.pollers.length
  if m.idx ≤ m.pollers.length then { m with pc := .visit (all.drop m.idx ++ all.take m.idx) }
  else { m with pc := .panicked }

/-- Visit an inner future: poll it if it is there and its flag is set. -/
def visit (m : Merge O T) (i : ℕ) (rest : List ℕ) : Merge O T :=
  if m.alive i then
    if m.wakers.isAwoken i then { m with
      wakers := m.wakers.checkAwoken i
      pc := .polling i rest
      log := .start i :: m.log }
    else { m with wakers := m.wakers.checkAwoken i }.advance rest
  else m.advance rest

/-- Drop the poller of an inner future that has given its last answer. -/
def drop (m : Merge O T) (i : ℕ) : Merge O T :=
  { m with pollers := m.pollers.set i false, noneCount := m.noneCount + 1 }

/-- Take an answer, and drop the poller if it is the last one. -/
def settle (K : MergeKind O T) (m : Merge O T) (i : ℕ) (out : O) : Merge O T :=
  let m := { m with log := .done i (.ready out) :: m.log }
  if K.noneFn out then m.drop i else m

/-- The answer of an inner future. -/
def answer (K : MergeKind O T) (m : Merge O T) (i : ℕ) (rest : List ℕ) : Poll O → Merge O T
  | .pending => { m with log := .done i .pending :: m.log }.advance rest
  | .ready out =>
    let m := settle K m i out
    match K.optFn out with
    | some val => { m with wakers := m.wakers.setAwoken i }.finish (.item i val)
    | none => m.advance rest

/-- A step from outside, with its wake in the log. -/
def env (m : Merge O T) (a : FlagWakers.Act) : Option (Merge O T) :=
  (m.wakers.act a).map fun wakers ↦ { m with wakers, log := m.log.act a }

/-- The step of an action. -/
def step (K : MergeKind O T) (m : Merge O T) : MergeAct O → Option (Merge O T)
  | .poll cx =>
    match m.pc with
    | .idle _ => some (m.begin cx)
    | _ => none
  | .tick =>
    match m.pc with
    | .visit [] => some (m.finish .pending)
    | .visit (i :: rest) => some (m.visit i rest)
    | _ => none
  | .ret out =>
    match m.pc with
    | .polling i rest => some (m.answer K i rest out)
    | _ => none
  | .env a => m.env a

/-- The machine of a merge. -/
def machine (K : MergeKind O T) : Machine (Merge O T) (MergeAct O) := ⟨step K⟩

/-- Every step of the machine. -/
inductive Step (K : MergeKind O T) (m : Merge O T) : MergeAct O → Merge O T → Prop where
  | begin {last : Option (MergeRet T)} {cx : ℕ} (hpc : m.pc = .idle last) :
      Step K m (.poll cx) (m.begin cx)
  | pending (hpc : m.pc = .visit []) : Step K m .tick (m.finish .pending)
  | visit {i : ℕ} {rest : List ℕ} (hpc : m.pc = .visit (i :: rest)) :
      Step K m .tick (m.visit i rest)
  | answer {i : ℕ} {rest : List ℕ} {out : Poll O} (hpc : m.pc = .polling i rest) :
      Step K m (.ret out) (m.answer K i rest out)
  | env {a : FlagWakers.Act} {m' : Merge O T} (h : m.env a = some m') : Step K m (.env a) m'

theorem step_cases {K : MergeKind O T} {m m' : Merge O T} {a : MergeAct O}
    (h : m.step K a = some m') : Step K m a m' := by
  rcases a with cx | - | out | a
  · simp only [step] at h
    split at h
    next hpc =>
      obtain rfl := Option.some.inj h
      exact .begin hpc
    next => exact absurd h (by simp)
  · simp only [step] at h
    split at h
    next hpc =>
      obtain rfl := Option.some.inj h
      exact .pending hpc
    next hpc =>
      obtain rfl := Option.some.inj h
      exact .visit hpc
    next => exact absurd h (by simp)
  · simp only [step] at h
    split at h
    next hpc =>
      obtain rfl := Option.some.inj h
      exact .answer hpc
    next => exact absurd h (by simp)
  · exact .env h

/-- A step only adds to the log. -/
theorem log_suffix_of_step {K : MergeKind O T} {m m' : Merge O T} {a : MergeAct O}
    (hstep : m.step K a = some m') : m.log <:+ m'.log := by
  have hadvance (m : Merge O T) (rest : List ℕ) : m.log <:+ (m.advance rest).log := by
    simp only [advance]
    split
    · exact List.suffix_cons _ _
    · exact List.suffix_refl _
  rcases step_cases hstep with hpc | hpc | @⟨i, rest, hpc⟩ | @⟨i, rest, out, hpc⟩ | @⟨a, m', henv⟩
  · simp only [begin]
    split
    · exact List.suffix_cons _ _
    · exact List.suffix_cons _ _
  · exact List.suffix_cons _ _
  · rw [visit]
    split
    · split
      · exact List.suffix_cons _ _
      · exact hadvance { m with wakers := m.wakers.checkAwoken i } rest
    · exact hadvance m rest
  · rcases out with - | out
    · have hdone := hadvance { m with log := .done i .pending :: m.log } rest
      exact (List.suffix_cons _ _).trans hdone
    · have hsettle : m.log <:+ (settle K m i out).log := by
        simp only [settle]
        split
        · exact List.suffix_cons _ _
        · exact List.suffix_cons _ _
      simp only [answer]
      split
      · exact hsettle.trans (List.suffix_cons _ _)
      · exact hsettle.trans (hadvance _ rest)
  · obtain ⟨wakers, -, rfl⟩ := Option.map_eq_some_iff.1 henv
    exact Log.suffix_act

/-! ### Items and answers -/

/-- The number of calls so far. -/
def calls : Log O (MergeRet T) → ℕ
  | [] => 0
  | .call :: log => calls log + 1
  | _ :: log => calls log

/-- The items of an inner stream that the merge has returned, each with the number of the call. -/
def yieldsOf (i : ℕ) : Log O (MergeRet T) → List (ℕ × T)
  | [] => []
  | .ret (.item j val) :: log =>
    if j = i then (calls log, val) :: yieldsOf i log else yieldsOf i log
  | _ :: log => yieldsOf i log

/-- The items that an inner stream has answered, each with the number of the call. -/
def outputsOf (K : MergeKind O T) (i : ℕ) : Log O (MergeRet T) → List (ℕ × T)
  | [] => []
  | .done j (.ready out) :: log =>
    if j = i then ((K.optFn out).map fun val ↦ (calls log, val)).toList ++ outputsOf K i log
    else outputsOf K i log
  | _ :: log => outputsOf K i log

/-- Nothing is polled after it has given its last answer. -/
def NeverAgain (K : MergeKind O T) (log : Log O (MergeRet T)) : Prop :=
  log.Pairwise fun later earlier ↦ ∀ i out, K.noneFn out = true →
    earlier = .done i (.ready out) → later ≠ .start i

/-- After the end of the stream, every call ends it again. -/
def EndedStays (log : Log O (MergeRet T)) : Prop :=
  log.Pairwise fun later earlier ↦ earlier = .ret .ended → ∀ out, later = .ret out → out = .ended

/-- What holds of the log of a merge. -/
structure Recorded (K : MergeKind O T) (log : Log O (MergeRet T)) : Prop where
  items : ∀ i, yieldsOf i log = outputsOf K i log
  once : (∀ out, K.noneFn out = true) → ∀ i, (outputsOf K i log).length ≤ 1
  never_again : NeverAgain K log
  ended_stays : EndedStays log

/-- What holds of a merge wherever it is. -/
structure Core (K : MergeKind O T) (n : ℕ) (m : Merge O T) : Prop where
  length_pollers : m.pollers.length = n
  length_awoken : m.wakers.awoken.length = n
  idx_lt : m.idx < n
  count_eq : m.noneCount = m.pollers.count false
  alive_iff : ∀ i < n, m.alive i = true ↔ ¬ Log.Finished K.noneFn i m.log
  ended : .ret .ended ∈ m.log → m.noneCount = n
  recorded : Recorded K m.log

/-- What holds where it is. -/
def Place (K : MergeKind O T) (n : ℕ) (m : Merge O T) : Prop :=
  match m.pc with
  | .idle none => True
  | .idle (some .pending) => m.noneCount < n
  | .idle (some (.item i _)) => i < n ∧ ¬ Log.Finished K.noneFn i m.log.beforeCall
  | .idle (some .ended) => m.noneCount = n
  | .visit rest => (∀ j ∈ rest, j < n) ∧ (rest.length = n ∨ m.noneCount < n)
  | .polling i rest => i < n ∧ m.alive i = true ∧ ∀ j ∈ rest, j < n
  | .panicked => False

section Recorded

variable {K : MergeKind O T} {log : Log O (MergeRet T)} {i : ℕ}

/-- An event that is neither a poll nor an answer nor the return of a call. -/
theorem Recorded.cons (h : Recorded K log) {e : Ev O (MergeRet T)} (hstart : ∀ i, e ≠ .start i)
    (hdone : ∀ i out, e ≠ .done i (.ready out)) (hret : ∀ out, e ≠ .ret out) :
    Recorded K (e :: log) := by
  have hyields (i : ℕ) : yieldsOf i (e :: log) = yieldsOf i log := by
    rcases e with j | - | j | ⟨j, out⟩ | out
    case ret => exact absurd rfl (hret out)
    all_goals rfl
  have houtputs (i : ℕ) : outputsOf K i (e :: log) = outputsOf K i log := by
    rcases e with j | - | j | ⟨j, - | out⟩ | out
    case done.ready => exact absurd rfl (hdone j out)
    all_goals rfl
  refine ⟨fun i ↦ ?_, fun hall i ↦ ?_, ?_, ?_⟩
  · rw [hyields, houtputs, h.items i]
  · rw [houtputs]
    exact h.once hall i
  · exact List.pairwise_cons.2 ⟨fun _ _ i _ _ _ ↦ hstart i, h.never_again⟩
  · exact List.pairwise_cons.2 ⟨fun _ _ _ out hout ↦ absurd hout (hret out), h.ended_stays⟩

theorem Recorded.act (h : Recorded K log) (a : FlagWakers.Act) : Recorded K (log.act a) := by
  rcases a with i | - | w
  · exact h.cons (by simp) (by simp) (by simp)
  · exact h
  · exact h

/-- Only what has not given its last answer is polled. -/
theorem Recorded.start (h : Recorded K log) (hi : ¬ Log.Finished K.noneFn i log) :
    Recorded K (.start i :: log) := by
  refine ⟨h.items, h.once, ?_, ?_⟩
  · refine List.pairwise_cons.2 ⟨fun e he j out hout heq hstart ↦ ?_, h.never_again⟩
    obtain rfl := Ev.start.inj hstart
    exact hi ⟨out, hout, heq ▸ he⟩
  · exact List.pairwise_cons.2 ⟨by simp, h.ended_stays⟩

/-- A call that returns no item adds nothing to the items. -/
theorem Recorded.ret (h : Recorded K log) {out : MergeRet T} (hitem : ∀ i val, out ≠ .item i val)
    (hended : out = .ended ∨ .ret .ended ∉ log) : Recorded K (.ret out :: log) := by
  refine ⟨fun i ↦ ?_, h.once, ?_, ?_⟩
  · rcases out with - | ⟨j, val⟩ | -
    case item => exact absurd rfl (hitem j val)
    all_goals exact h.items i
  · exact List.pairwise_cons.2 ⟨by simp, h.never_again⟩
  · refine List.pairwise_cons.2 ⟨fun e he heq out' hout' ↦ ?_, h.ended_stays⟩
    obtain rfl := Ev.ret.inj hout'
    exact hended.resolve_right fun hmem ↦ hmem (heq ▸ he)

/-- What has not finished and can answer only once has not answered. -/
theorem outputsOf_eq_nil (hall : ∀ out, K.noneFn out = true) (hi : ¬ Log.Finished K.noneFn i log) :
    outputsOf K i log = [] := by
  induction log with
  | nil => rfl
  | cons e log ih =>
    rw [Log.finished_cons, not_or] at hi
    rcases e with j | - | j | ⟨j, - | out⟩ | out
    case done.ready =>
      have hne : j ≠ i := by
        rintro rfl
        exact hi.1 ⟨out, hall out, rfl⟩
      rw [outputsOf, if_neg hne, ih hi.2]
    all_goals exact ih hi.2

theorem length_outputsOf_done (h : Recorded K log) (hi : ¬ Log.Finished K.noneFn i log) (out : O)
    (hall : ∀ out, K.noneFn out = true) (j : ℕ) :
    (outputsOf K j (.done i (.ready out) :: log)).length ≤ 1 := by
  rw [outputsOf]
  split
  next hij =>
    rw [← hij, outputsOf_eq_nil hall hi, List.append_nil]
    rcases K.optFn out with - | val
    · exact Nat.zero_le _
    · exact Nat.le_refl _
  next => exact h.once hall j

/-- An answer that is not an item. -/
theorem Recorded.done (h : Recorded K log) (hi : ¬ Log.Finished K.noneFn i log) {out : O}
    (hout : K.optFn out = none) : Recorded K (.done i (.ready out) :: log) := by
  refine ⟨fun j ↦ ?_, fun hall ↦ length_outputsOf_done h hi out hall, ?_, ?_⟩
  · simp only [yieldsOf, outputsOf, hout, h.items j]
    split
    · rfl
    · rfl
  · exact List.pairwise_cons.2 ⟨by simp, h.never_again⟩
  · exact List.pairwise_cons.2 ⟨by simp, h.ended_stays⟩

/-- **An item is returned in the call in which it was answered.** -/
theorem Recorded.item (h : Recorded K log) (hi : ¬ Log.Finished K.noneFn i log)
    (hended : .ret .ended ∉ log) {out : O} {val : T} (hout : K.optFn out = some val) :
    Recorded K (.ret (.item i val) :: .done i (.ready out) :: log) := by
  refine ⟨fun j ↦ ?_, fun hall ↦ length_outputsOf_done h hi out hall, ?_, ?_⟩
  · simp only [yieldsOf, outputsOf, calls, hout, h.items j]
    split
    · rfl
    · rfl
  · exact List.pairwise_cons.2 ⟨by simp, List.pairwise_cons.2 ⟨by simp, h.never_again⟩⟩
  · refine List.pairwise_cons.2 ⟨fun e he heq ↦ ?_, List.pairwise_cons.2 ⟨by simp, h.ended_stays⟩⟩
    rcases List.mem_cons.1 (heq ▸ he) with hdone | hmem
    · exact absurd hdone (by simp)
    · exact absurd hmem hended

end Recorded

section Steps

variable {K : MergeKind O T} {n : ℕ} {m m' : Merge O T}

theorem lt_of_alive {i : ℕ} (h : m.alive i = true) : i < m.pollers.length := by
  rw [alive] at h
  by_contra hlt
  rw [List.getElem?_eq_none (Nat.le_of_not_lt hlt)] at h
  exact absurd h (by simp)

theorem Core.noneCount_le (h : Core K n m) : m.noneCount ≤ n := by
  rw [h.count_eq, ← h.length_pollers]
  exact List.count_le_length

/-- With the counter at the end, no poller is there. -/
theorem alive_eq_false (hcount : m.noneCount = m.pollers.count false)
    (hall : m.noneCount = m.pollers.length) (i : ℕ) : m.alive i = false := by
  have hfalse : ∀ b ∈ m.pollers, false = b := List.count_eq_length.1 (hcount.symm.trans hall)
  rw [alive]
  rcases hi : m.pollers[i]? with - | b
  · rfl
  · exact (hfalse b (List.mem_of_getElem? hi)).symm

/-- Everything has terminated exactly when the counter is at the end. -/
theorem Core.noneCount_eq_iff (h : Core K n m) : m.noneCount = n ↔ ∀ i < n, m.alive i = false := by
  constructor
  · exact fun heq i _ ↦ alive_eq_false h.count_eq (heq.trans h.length_pollers.symm) i
  · intro hall
    rw [h.count_eq, ← h.length_pollers, List.count_eq_length]
    intro b hb
    obtain ⟨i, hi⟩ := List.mem_iff_getElem?.1 hb
    have hdead := hall i (h.length_pollers ▸ (List.getElem?_eq_some_iff.1 hi).1)
    rw [alive, hi, Option.getD_some] at hdead
    exact hdead.symm

theorem Core.noneCount_lt (h : Core K n m) {i : ℕ} (hi : m.alive i = true) : m.noneCount < n := by
  refine lt_of_le_of_ne h.noneCount_le fun heq ↦ ?_
  have hdead := h.noneCount_eq_iff.1 heq i (h.length_pollers ▸ lt_of_alive hi)
  exact absurd hi (by simp [hdead])

theorem Core.finished_iff (h : Core K n m) {i : ℕ} (hi : i < n) :
    Log.Finished K.noneFn i m.log ↔ m.alive i = false := by
  rw [← not_iff_not, ← h.alive_iff i hi, Bool.not_eq_false]

/-- Whatever leaves the pollers alone and finishes nothing. -/
theorem Core.of_same (h : Core K n m) (hpollers : m'.pollers = m.pollers)
    (hcount : m'.noneCount = m.noneCount)
    (hawoken : m'.wakers.awoken.length = m.wakers.awoken.length) (hidx : m'.idx < n)
    (hfin : ∀ i, Log.Finished K.noneFn i m'.log ↔ Log.Finished K.noneFn i m.log)
    (hended : .ret .ended ∈ m'.log → .ret .ended ∈ m.log ∨ m.noneCount = n)
    (hlog : Recorded K m'.log) : Core K n m' where
  length_pollers := by rw [hpollers, h.length_pollers]
  length_awoken := hawoken.trans h.length_awoken
  idx_lt := hidx
  count_eq := by rw [hcount, hpollers, h.count_eq]
  alive_iff i hi := by
    rw [alive, hpollers, hfin]
    exact h.alive_iff i hi
  ended hmem := by
    rw [hcount]
    exact (hended hmem).elim h.ended id
  recorded := hlog

/-- Whatever leaves the pollers and the log alone. -/
theorem Core.of_same_log (h : Core K n m) (hpollers : m'.pollers = m.pollers)
    (hcount : m'.noneCount = m.noneCount)
    (hawoken : m'.wakers.awoken.length = m.wakers.awoken.length) (hidx : m'.idx < n)
    (hlog : m'.log = m.log) : Core K n m' :=
  h.of_same hpollers hcount hawoken hidx (fun i ↦ by rw [hlog]) (fun hmem ↦ Or.inl (hlog ▸ hmem))
    (hlog ▸ h.recorded)

/-- A call returns without an item. -/
theorem Core.finish (h : Core K n m) {out : MergeRet T} (hitem : ∀ i val, out ≠ .item i val)
    (hended : out = .ended ∧ m.noneCount = n ∨ out ≠ .ended ∧ m.noneCount < n) :
    Core K n (m.finish out) := by
  refine h.of_same rfl rfl rfl h.idx_lt (fun i ↦ ?_) (fun hmem ↦ ?_)
    (h.recorded.ret hitem ?_)
  · rw [Merge.finish, Log.finished_cons, or_iff_right (by simp)]
  · rcases List.mem_cons.1 hmem with heq | hmem
    · exact Or.inr (hended.resolve_right fun hne ↦ hne.1 (Ev.ret.inj heq).symm).2
    · exact Or.inl hmem
  · exact hended.imp And.left fun hne hmem ↦ absurd (h.ended hmem) (Nat.ne_of_lt hne.2)

/-- The end of the loop body leaves the merge in the loop with something unfinished, or ends it with
nothing unfinished. -/
theorem Core.advance (h : Core K n m) {rest : List ℕ} (hrest : ∀ j ∈ rest, j < n) :
    Core K n (m.advance rest) ∧ Place K n (m.advance rest) := by
  have hpos : 0 < n := Nat.lt_of_le_of_lt (Nat.zero_le _) h.idx_lt
  have hidx : (m.idx + 1) % m.pollers.length < n := by
    rw [h.length_pollers]
    exact Nat.mod_lt _ hpos
  have hle := h.noneCount_le
  simp only [Merge.advance]
  split
  next hall =>
    have hcore : Core K n { m with idx := (m.idx + 1) % m.pollers.length } :=
      h.of_same_log rfl rfl rfl hidx rfl
    have heq : m.noneCount = n := hall.trans h.length_pollers
    exact ⟨hcore.finish (by simp) (Or.inl ⟨rfl, heq⟩), heq⟩
  next hne =>
    rw [h.length_pollers] at hne
    exact ⟨h.of_same_log rfl rfl rfl hidx rfl, hrest, Or.inr (lt_of_le_of_ne hle hne)⟩

/-- A visit polls only what is there. -/
theorem Core.visit (h : Core K n m) {i : ℕ} {rest : List ℕ} (hi : i < n)
    (hrest : ∀ j ∈ rest, j < n) : Core K n (m.visit i rest) ∧ Place K n (m.visit i rest) := by
  rw [Merge.visit]
  split
  next halive =>
    split
    next =>
      refine ⟨h.of_same rfl rfl FlagWakers.length_checkAwoken h.idx_lt (fun j ↦ ?_) (fun hmem ↦ ?_)
        (h.recorded.start ((h.alive_iff i hi).1 halive)), hi, halive, hrest⟩
      · rw [Log.finished_cons, or_iff_right (by simp)]
      · exact Or.inl (List.mem_of_ne_of_mem (by simp) hmem)
    next =>
      have hcheck : Core K n { m with wakers := m.wakers.checkAwoken i } :=
        h.of_same_log rfl rfl FlagWakers.length_checkAwoken h.idx_lt rfl
      exact hcheck.advance hrest
  next => exact h.advance hrest

theorem alive_drop {i j : ℕ} : (m.drop i).alive j = (!decide (i = j) && m.alive j) := by
  rcases eq_or_ne i j with rfl | hne
  · rcases Nat.lt_or_ge i m.pollers.length with hi | hi
    · simp [alive, drop, hi]
    · simp [alive, drop, hi]
  · simp [alive, drop, List.getElem?_set_ne hne, hne]

/-- Dropping a poller that is there counts it. -/
theorem noneCount_drop {i : ℕ} (halive : m.alive i = true)
    (hcount : m.noneCount = m.pollers.count false) :
    (m.drop i).noneCount = (m.drop i).pollers.count false := by
  have hi := lt_of_alive halive
  rw [alive, List.getElem?_eq_getElem hi, Option.getD_some] at halive
  simp only [drop, hcount]
  rw [List.count_set hi]
  simp [halive]

theorem settle_eq (K : MergeKind O T) (m : Merge O T) (i : ℕ) (out : O) :
    (settle K m i out).wakers = m.wakers ∧ (settle K m i out).idx = m.idx ∧
      (settle K m i out).log = .done i (.ready out) :: m.log ∧
      (settle K m i out).pollers.length = m.pollers.length := by
  simp only [settle]
  split
  · exact ⟨rfl, rfl, rfl, List.length_set⟩
  · exact ⟨rfl, rfl, rfl, rfl⟩

theorem alive_settle (K : MergeKind O T) (m : Merge O T) (i j : ℕ) (out : O) :
    (settle K m i out).alive j = (!(K.noneFn out && decide (i = j)) && m.alive j) := by
  simp only [settle]
  split
  next hnone => rw [alive_drop, hnone, Bool.true_and, alive, alive]
  next hnone => simp [hnone, alive]

/-- **An answer is accounted for**: a last answer drops the poller and counts it, and nothing else
does. -/
theorem Core.settle (h : Core K n m) {i : ℕ} (out : O) (halive : m.alive i = true) :
    (Merge.settle K m i out).noneCount = (Merge.settle K m i out).pollers.count false ∧
      ∀ j < n, (Merge.settle K m i out).alive j = true ↔
        ¬ Log.Finished K.noneFn j (.done i (.ready out) :: m.log) := by
  refine ⟨?_, fun j hj ↦ ?_⟩
  · simp only [Merge.settle]
    split
    · exact noneCount_drop halive h.count_eq
    · exact h.count_eq
  · have hlast : (∃ o, K.noneFn o = true ∧ (Ev.done i (.ready out) : Ev O (MergeRet T)) =
        .done j (.ready o)) ↔ K.noneFn out = true ∧ i = j := by
      constructor
      · rintro ⟨o, ho, heq⟩
        obtain ⟨rfl, hready⟩ := Ev.done.inj heq
        exact ⟨Poll.ready.inj hready ▸ ho, rfl⟩
      · rintro ⟨hnone, rfl⟩
        exact ⟨out, hnone, rfl⟩
    rw [Log.finished_cons, hlast, not_or, ← h.alive_iff j hj, alive_settle, Bool.and_eq_true,
      Bool.not_eq_true', ← Bool.not_eq_true, Bool.and_eq_true, decide_eq_true_iff]

/-- What holds after an answer, before the loop goes on or the call returns. -/
theorem Core.answer (h : Core K n m) {i : ℕ} {rest : List ℕ} (hi : i < n)
    (halive : m.alive i = true) (hrest : ∀ j ∈ rest, j < n) (out : Poll O) :
    Core K n (m.answer K i rest out) ∧ Place K n (m.answer K i rest out) := by
  have hunfin := (h.alive_iff i hi).1 halive
  have hended : .ret .ended ∉ m.log := fun hmem ↦
    absurd (h.ended hmem) (Nat.ne_of_lt (h.noneCount_lt halive))
  rcases out with - | out
  · have hdone : Core K n { m with log := .done i .pending :: m.log } := by
      refine h.of_same rfl rfl rfl h.idx_lt (fun j ↦ ?_) (fun hmem ↦ ?_)
        (h.recorded.cons (by simp) (by simp) (by simp))
      · rw [Log.finished_cons, or_iff_right (by simp)]
      · exact Or.inl (List.mem_of_ne_of_mem (by simp) hmem)
    exact hdone.advance hrest
  · obtain ⟨hwakers, hidx, hlog, hlength⟩ := settle_eq K m i out
    obtain ⟨hcount, hiff⟩ := h.settle out halive
    simp only [Merge.answer]
    split
    next val hval =>
      refine ⟨⟨hlength.trans h.length_pollers, ?_, hidx ▸ h.idx_lt, hcount, fun j hj ↦ ?_, ?_, ?_⟩,
        hi, ?_⟩
      · rw [Merge.finish, FlagWakers.length_setAwoken, hwakers]
        exact h.length_awoken
      · rw [Merge.finish, hlog, Log.finished_cons, or_iff_right (by simp)]
        exact hiff j hj
      · rw [Merge.finish, hlog]
        exact fun hmem ↦ absurd hmem (by simp [hended])
      · rw [Merge.finish, hlog]
        exact h.recorded.item hunfin hended hval
      · rw [Merge.finish, hlog]
        exact fun hfin ↦ hunfin (Log.Finished.of_beforeCall hfin)
    next hval =>
      refine Core.advance ⟨hlength.trans h.length_pollers, by rw [hwakers, h.length_awoken],
        hidx ▸ h.idx_lt, hcount, fun j hj ↦ hlog ▸ hiff j hj, ?_,
        hlog ▸ h.recorded.done hunfin hval⟩ hrest
      rw [hlog]
      exact fun hmem ↦ absurd hmem (by simp [hended])

/-- The order of a call goes through all inner futures. -/
theorem order_perm (idx n : ℕ) :
    ((List.range n).drop idx ++ (List.range n).take idx).Perm (List.range n) :=
  List.perm_append_comm.trans (List.Perm.of_eq (List.take_append_drop idx _))

theorem Core.begin (h : Core K n m) (cx : ℕ) :
    Core K n (m.begin cx) ∧ Place K n (m.begin cx) := by
  have hidx : m.idx ≤ m.pollers.length := h.length_pollers ▸ Nat.le_of_lt h.idx_lt
  have horder := order_perm m.idx m.pollers.length
  simp only [Merge.begin, if_pos hidx]
  refine ⟨h.of_same rfl rfl rfl h.idx_lt (fun j ↦ ?_) (fun hmem ↦ ?_)
    (h.recorded.cons (by simp) (by simp) (by simp)), fun j hj ↦ ?_, Or.inl ?_⟩
  · rw [Log.finished_cons, or_iff_right (by simp)]
  · exact Or.inl (List.mem_of_ne_of_mem (by simp) hmem)
  · exact h.length_pollers ▸ List.mem_range.1 (horder.mem_iff.1 hj)
  · rw [horder.length_eq, List.length_range, h.length_pollers]

theorem Core.env (h : Core K n m) {a : FlagWakers.Act} (ha : m.env a = some m') : Core K n m' := by
  obtain ⟨wakers, hact, rfl⟩ := Option.map_eq_some_iff.1 ha
  refine h.of_same rfl rfl (FlagWakers.act_eq_some hact).1 h.idx_lt (fun j ↦ ?_) (fun hmem ↦ ?_)
    (h.recorded.act a)
  · exact Log.finished_act
  · exact Or.inl (Log.ret_mem_act.1 hmem)

theorem Place.env (h : Place K n m) {a : FlagWakers.Act} (ha : m.env a = some m') :
    Place K n m' := by
  obtain ⟨wakers, -, rfl⟩ := Option.map_eq_some_iff.1 ha
  have hbefore : (m.log.act a).beforeCall = m.log.beforeCall := Log.beforeCall_act
  simp only [Place, hbefore]
  exact h

/-- A merge where it is. -/
def Inv (K : MergeKind O T) (n : ℕ) (m : Merge O T) : Prop := Core K n m ∧ Place K n m

theorem Inv.new (hn : 0 < n) : Inv K n (Merge.new n : Merge O T) := by
  refine ⟨⟨List.length_replicate, List.length_replicate, hn, ?_, fun i hi ↦ ?_, by simp [Merge.new],
    ⟨fun i ↦ rfl, fun _ i ↦ Nat.zero_le _, List.Pairwise.nil, List.Pairwise.nil⟩⟩, trivial⟩
  · simp [Merge.new, List.count_replicate]
  · simp [alive, Merge.new, hi, Log.Finished]

/-- **Every step of a merge keeps its books.** -/
theorem Inv.step (h : Inv K n m) {a : MergeAct O} (hstep : m.step K a = some m') : Inv K n m' := by
  obtain ⟨hcore, hplace⟩ := h
  rcases step_cases hstep with hpc | hpc | hpc | hpc | hstep
  · exact hcore.begin _
  · -- the loop is over, so that something was unfinished at the end of its last round
    have hlt : m.noneCount < n := by
      have hpos := hcore.idx_lt
      rw [Place, hpc] at hplace
      exact hplace.2.resolve_left fun hzero ↦ by rw [List.length_nil] at hzero; omega
    exact ⟨hcore.finish (by simp) (Or.inr ⟨by simp, hlt⟩), hlt⟩
  · rw [Place, hpc] at hplace
    exact hcore.visit (hplace.1 _ List.mem_cons_self) fun j hj ↦
      hplace.1 j (List.mem_cons_of_mem _ hj)
  · rw [Place, hpc] at hplace
    exact hcore.answer hplace.1 hplace.2.1 hplace.2.2 _
  · exact ⟨hcore.env hstep, hplace.env hstep⟩

theorem Inv.of_run (hn : 0 < n) {acts : List (MergeAct O)}
    (hrun : (machine K).run (Merge.new n) acts = some m) : Inv K n m :=
  Machine.run_preserves (I := Inv K n) (fun _ _ _ h hstep ↦ h.step hstep) (.new hn) hrun

end Steps

/-! ### Returning -/

section Left

variable {K : MergeKind O T} {m m' : Merge O T}

theorem left_advance (m : Merge O T) (rest : List ℕ) :
    (m.advance rest).pc.left ≤ 2 * rest.length + 1 := by
  simp only [advance]
  split
  · exact Nat.zero_le _
  · exact Nat.le_refl _

theorem left_visit (m : Merge O T) (i : ℕ) (rest : List ℕ) :
    (m.visit i rest).pc.left ≤ 2 * rest.length + 2 := by
  rw [visit]
  split
  · split
    · exact Nat.le_refl _
    · exact Nat.le_succ_of_le (left_advance _ rest)
  · exact Nat.le_succ_of_le (left_advance _ rest)

theorem left_answer (m : Merge O T) (i : ℕ) (rest : List ℕ) (out : Poll O) :
    (m.answer K i rest out).pc.left ≤ 2 * rest.length + 1 := by
  rcases out with - | out
  · exact left_advance _ rest
  · simp only [answer]
    split
    · exact Nat.zero_le _
    · exact left_advance _ rest

/-- **Every step of a call brings its return nearer**, except the ones from outside. -/
theorem left_lt_of_step {a : MergeAct O} (hstep : m.step K a = some m') (hleft : 0 < m.pc.left) :
    m'.pc.left < m.pc.left ∨ ∃ e, a = .env e ∧ m'.pc = m.pc := by
  rcases step_cases hstep with hpc | hpc | @⟨i, rest, hpc⟩ | @⟨i, rest, out, hpc⟩ | @⟨e, m', henv⟩
  · rw [hpc] at hleft
    exact absurd hleft (Nat.lt_irrefl 0)
  · exact Or.inl hleft
  · have hle := left_visit m i rest
    rw [hpc, MergePc.left, List.length_cons]
    exact Or.inl (by omega)
  · have hle := left_answer (K := K) m i rest out
    rw [hpc, MergePc.left]
    exact Or.inl (by omega)
  · obtain ⟨wakers, -, rfl⟩ := Option.map_eq_some_iff.1 henv
    exact Or.inr ⟨e, rfl, rfl⟩

/-- A call can always go on, whatever the inner future answers. -/
theorem exists_step (hleft : 0 < m.pc.left) (out : Poll O) :
    ∃ a ∈ [.tick, .ret out], (m.step K a).isSome := by
  rcases hpc : m.pc with last | (- | ⟨i, rest⟩) | ⟨i, rest⟩ | -
  · rw [hpc] at hleft
    exact absurd hleft (Nat.lt_irrefl 0)
  · exact ⟨.tick, by simp, by simp [step, hpc]⟩
  · exact ⟨.tick, by simp, by simp [step, hpc]⟩
  · exact ⟨.ret out, by simp, by simp [step, hpc]⟩
  · rw [hpc] at hleft
    exact absurd hleft (Nat.lt_irrefl 0)

end Left

/-! ### What a merge promises -/

/-- What holds of a merge at every moment. -/
structure Exact (K : MergeKind O T) (n : ℕ) (m : Merge O T) : Prop where
  /-- The items returned are the items answered, in order and each in its call. -/
  items : ∀ i, yieldsOf i m.log = outputsOf K i m.log
  /-- What has given its last answer is not polled again. -/
  never_again : NeverAgain K m.log
  /-- A call returns pending only while something is unfinished. -/
  pending : m.pc = .idle (some .pending) → ∃ i < n, ¬ Log.Finished K.noneFn i m.log
  /-- A call ends the stream only if everything has finished. -/
  ended : m.pc = .idle (some .ended) → ∀ i < n, Log.Finished K.noneFn i m.log
  /-- Once everything has finished, a call without an item ends the stream. -/
  ends : ∀ out, m.pc = .idle (some out) → (∀ i val, out ≠ .item i val) →
    (∀ i < n, Log.Finished K.noneFn i m.log) → out = .ended
  /-- Where everything had finished before a call, it has no item to return. -/
  no_item : ∀ out, m.pc = .idle (some out) →
    (∀ i < n, Log.Finished K.noneFn i m.log.beforeCall) → out = .ended
  /-- After the end, every call ends the stream again. -/
  ended_stays : EndedStays m.log
  idx_lt : m.idx < n
  length_pollers : m.pollers.length = n
  /-- `none_count` is the number of empty slots, and a slot is empty when its poller has
  finished. -/
  count_eq : m.noneCount = m.pollers.count false
  alive_iff : ∀ i < n, m.alive i = true ↔ ¬ Log.Finished K.noneFn i m.log
  not_panicked : m.pc ≠ .panicked
  /-- Every call returns: it can always go on, and there are only so many steps. -/
  goes_on : 0 < m.pc.left → ∀ out, ∃ a ∈ [.tick, .ret out], (m.step K a).isSome
  returns : 0 < m.pc.left → ∀ a m', m.step K a = some m' →
    m'.pc.left < m.pc.left ∨ ∃ e, a = .env e ∧ m'.pc = m.pc

theorem Inv.exact {K : MergeKind O T} {n : ℕ} {m : Merge O T} (h : Inv K n m) : Exact K n m := by
  obtain ⟨hcore, hplace⟩ := h
  have hall : (∀ i < n, Log.Finished K.noneFn i m.log) ↔ m.noneCount = n := by
    rw [hcore.noneCount_eq_iff]
    exact forall₂_congr fun i hi ↦ hcore.finished_iff hi
  have hpending (hpc : m.pc = .idle (some .pending)) : m.noneCount < n := by
    rw [Place, hpc] at hplace
    exact hplace
  refine ⟨hcore.recorded.items, hcore.recorded.never_again, fun hpc ↦ ?_, fun hpc ↦ ?_,
    fun out hpc hitem hfin ↦ ?_, fun out hpc hfin ↦ ?_, hcore.recorded.ended_stays, hcore.idx_lt,
    hcore.length_pollers, hcore.count_eq, hcore.alive_iff, fun hpc ↦ ?_, exists_step,
    fun hleft a m' hstep ↦ left_lt_of_step hstep hleft⟩
  · have hlt := hpending hpc
    by_contra hnone
    push Not at hnone
    exact Nat.ne_of_lt hlt (hall.1 hnone)
  · rw [Place, hpc] at hplace
    exact hall.2 hplace
  · rcases out with - | ⟨i, val⟩ | -
    · exact absurd (hall.1 hfin) (Nat.ne_of_lt (hpending hpc))
    · exact absurd rfl (hitem i val)
    · rfl
  · rcases out with - | ⟨i, val⟩ | -
    · have hlog := hall.1 fun i hi ↦ Log.Finished.of_beforeCall (hfin i hi)
      exact absurd hlog (Nat.ne_of_lt (hpending hpc))
    · rw [Place, hpc] at hplace
      exact absurd (hfin i hplace.1) hplace.2
    · rfl
  · rw [Place, hpc] at hplace
    exact hplace

/-- **Merging neither loses, duplicates nor reorders items, and ends exactly when it should**, for
`MergeStream` and for `MergeFutureStream`, whose inner futures have at most one item each. -/
theorem merge_exact {T : Type} {n : ℕ} (hn : 0 < n) :
    (∀ acts m, (machine (.streams T)).run (new n) acts = some m → Exact (.streams T) n m) ∧
    ∀ acts m, (machine (.futures T)).run (new n) acts = some m →
      Exact (.futures T) n m ∧ ∀ i, (yieldsOf i m.log).length ≤ 1 := by
  refine ⟨fun acts m hrun ↦ (Inv.of_run hn hrun).exact, fun acts m hrun ↦ ?_⟩
  have hinv : Inv (.futures T) n m := Inv.of_run hn hrun
  refine ⟨hinv.exact, fun i ↦ ?_⟩
  rw [hinv.1.recorded.items i]
  exact hinv.1.recorded.once (fun _ ↦ rfl) i

/-- The first stream answers an item, and ends when it is polled again; the second one is still
there. -/
def itemThenEnd : List (MergeAct (Option ℕ)) :=
  [.poll 7, .tick, .ret (.ready (some 5)), .poll 8, .tick, .ret (.ready none), .tick, .ret .pending,
    .tick]

/-- Both futures complete, and the stream ends. -/
def bothComplete : List (MergeAct ℕ) :=
  [.poll 7, .tick, .ret (.ready 5), .poll 8, .tick, .tick, .ret (.ready 6), .poll 9, .tick]

theorem merge_exact_two :
    (∃ m, (machine (.streams ℕ)).run (new 2) itemThenEnd = some m ∧ m.pc = .idle (some .pending) ∧
      Exact (.streams ℕ) 2 m) ∧
    ∃ m, (machine (.futures ℕ)).run (new 2) bothComplete = some m ∧ m.pc = .idle (some .ended) ∧
      Exact (.futures ℕ) 2 m ∧ ∀ i, (yieldsOf i m.log).length ≤ 1 := by
  refine ⟨⟨_, rfl, rfl, ?_⟩, _, rfl, rfl, ?_⟩
  · exact (merge_exact (by decide)).1 itemThenEnd _ rfl
  · exact (merge_exact (by decide)).2 bothComplete _ rfl

end Merge

end LocalRuntime
