import LocalRuntime.Basic
import LocalRuntime.Lib.AtomicWaker

/-!
# Flag wakers and what they record

`FlagWaker` of `src/concurrency.rs`: each inner future of a combinator has a waker with a flag of
its own, and all of them share the base waker. Waking is two atomic steps, set the flag and wake the
base waker; `flights` counts the calls between the two. The combinator polls an inner future only
after it has swapped its flag from set to clear.

A combinator keeps a log of what has happened to it, latest first: wakes, its own calls, and the
polls of the inner futures with their answers. The log is not part of the source; the properties of
the combinators are stated about it.

`HeardOn` is the fact that carries the no-lost-wakeup arguments: whichever of the given flags is
set, the waker of the latest call has been woken or is about to be. Setting a flag makes it true,
since the base waker is woken after the flag is set, and swapping a flag only clears it.
-/

namespace LocalRuntime

/-- The flags of the inner wakers, the base waker, and the calls of `FlagWaker::wake` that have set
their flag and not woken the base waker yet. -/
structure FlagWakers where
  awoken : List Bool
  baseWaker : AtomicWaker ℕ
  flights : ℕ

namespace FlagWakers

/-- The flags are set, so that every inner future is polled the first time. -/
def new (n : ℕ) : FlagWakers := ⟨List.replicate n true, .new, 0⟩

/-- The flag of an inner waker. -/
def isAwoken (b : FlagWakers) (i : ℕ) : Bool := b.awoken[i]?.getD false

/-- `FlagWaker::set_awoken`. -/
def setAwoken (b : FlagWakers) (i : ℕ) : FlagWakers := { b with awoken := b.awoken.set i true }

/-- What `FlagWaker::check_awoken` leaves: the flag is swapped with `false`. -/
def checkAwoken (b : FlagWakers) (i : ℕ) : FlagWakers := { b with awoken := b.awoken.set i false }

/-- Register the waker of a call. -/
def register (b : FlagWakers) (cx : ℕ) : FlagWakers :=
  { b with baseWaker := b.baseWaker.register cx }

/-- A step that happens to the wakers from outside: the first step of a wake, its second step, or a
wake of some other waker, which may be the one of the latest call. -/
inductive Act where
  | wake (i : ℕ)
  | fire
  | hear (w : ℕ)
  deriving DecidableEq

/-- The effect of a step from outside. -/
def act (b : FlagWakers) : Act → Option FlagWakers
  | .wake i =>
    if i < b.awoken.length then some { b.setAwoken i with flights := b.flights + 1 } else none
  | .fire =>
    if 0 < b.flights then some { b with
      baseWaker := b.baseWaker.wake
      flights := b.flights - 1 }
    else none
  | .hear w => some { b with baseWaker := b.baseWaker.hear w }

variable {b b' : FlagWakers} {i j : ℕ}

theorem isAwoken_setAwoken (hi : i < b.awoken.length) :
    (b.setAwoken i).isAwoken j = (decide (i = j) || b.isAwoken j) := by
  rcases eq_or_ne i j with rfl | hne
  · simp [isAwoken, setAwoken, hi]
  · simp [isAwoken, setAwoken, List.getElem?_set_ne hne, hne]

theorem isAwoken_checkAwoken :
    (b.checkAwoken i).isAwoken j = (!decide (i = j) && b.isAwoken j) := by
  rcases eq_or_ne i j with rfl | hne
  · rcases Nat.lt_or_ge i b.awoken.length with hi | hi
    · simp [isAwoken, checkAwoken, hi]
    · simp [isAwoken, checkAwoken, hi]
  · simp [isAwoken, checkAwoken, List.getElem?_set_ne hne, hne]

@[simp] theorem length_setAwoken : (b.setAwoken i).awoken.length = b.awoken.length :=
  List.length_set

@[simp] theorem length_checkAwoken : (b.checkAwoken i).awoken.length = b.awoken.length :=
  List.length_set

/-- Steps from outside set flags and clear none. -/
theorem act_eq_some {a : Act} (h : b.act a = some b') :
    b'.awoken.length = b.awoken.length ∧ b'.baseWaker.registered = b.baseWaker.registered ∧
      ∀ j, b'.isAwoken j = (decide (a = .wake j) || b.isAwoken j) := by
  rcases a with i | - | w
  · simp only [act, Option.ite_none_right_eq_some, Option.some.injEq] at h
    obtain ⟨hi, rfl⟩ := h
    refine ⟨length_setAwoken, rfl, fun j ↦ ?_⟩
    rw [show decide (Act.wake i = Act.wake j) = decide (i = j) by simp]
    exact isAwoken_setAwoken hi
  · simp only [act, Option.ite_none_right_eq_some, Option.some.injEq] at h
    obtain ⟨-, rfl⟩ := h
    exact ⟨rfl, AtomicWaker.registered_wake, fun j ↦ by simp [isAwoken]⟩
  · obtain rfl := Option.some.inj h
    exact ⟨rfl, rfl, fun j ↦ by simp [isAwoken]⟩

/-! ### Being heard -/

/-- The waker of the latest call has been woken since, or is about to be. -/
def Heard (b : FlagWakers) : Prop := b.baseWaker.Woken ∨ 0 < b.flights

/-- Whichever of these flags is set, it has been heard. -/
def HeardOn (b : FlagWakers) (p : ℕ → Prop) : Prop := ∀ i, p i → b.isAwoken i = true → b.Heard

/-- **A wake is heard**: its flag is set before the base waker is woken. -/
theorem HeardOn.act {p : ℕ → Prop} {a : Act} (h : b.HeardOn p)
    (hreg : b.baseWaker.registered ≠ none) (ha : b.act a = some b') : b'.HeardOn p := by
  intro i hi hawoken
  rcases a with j | - | w
  · simp only [FlagWakers.act, Option.ite_none_right_eq_some, Option.some.injEq] at ha
    obtain ⟨-, rfl⟩ := ha
    exact Or.inr (Nat.succ_pos _)
  · simp only [FlagWakers.act, Option.ite_none_right_eq_some, Option.some.injEq] at ha
    obtain ⟨-, rfl⟩ := ha
    exact Or.inl (AtomicWaker.woken_wake hreg)
  · obtain rfl := Option.some.inj ha
    exact (h i hi hawoken).imp_left fun hw ↦ hw.hear w

theorem HeardOn.mono {p q : ℕ → Prop} (h : b.HeardOn p) (hqp : ∀ i, q i → p i) : b.HeardOn q :=
  fun i hi ↦ h i (hqp i hi)

/-- A flag that has been swapped is clear, so it is among those that are heard. -/
theorem HeardOn.checkAwoken {p : ℕ → Prop} (h : b.HeardOn p) (i : ℕ) :
    (b.checkAwoken i).HeardOn fun j ↦ j = i ∨ p j := by
  intro j hj hawoken
  rw [isAwoken_checkAwoken, Bool.and_eq_true, Bool.not_eq_true', decide_eq_false_iff_not] at hawoken
  exact h j (hj.resolve_left fun hji ↦ hawoken.1 hji.symm) hawoken.2

end FlagWakers

/-! ### Logs -/

/-- What happens to a combinator whose inner futures answer in `O` and whose calls return `R`. -/
inductive Ev (O R : Type) where
  /-- An inner waker is woken. -/
  | wake (i : ℕ)
  /-- The combinator is polled. -/
  | call
  /-- An inner future is polled: its flag has been swapped from set to clear. -/
  | start (i : ℕ)
  /-- The poll of an inner future returns. -/
  | done (i : ℕ) (out : Poll O)
  /-- The poll of the combinator returns. -/
  | ret (out : R)

/-- The events so far, latest first. -/
abbrev Log (O R : Type) := List (Ev O R)

namespace Log

variable {O R : Type}

/-- The log of a step from outside. -/
def act (log : Log O R) : FlagWakers.Act → Log O R
  | .wake i => .wake i :: log
  | .fire | .hear _ => log

/-- The inner future has been woken since its latest poll began. -/
def WokenSince (i : ℕ) : Log O R → Prop
  | [] => False
  | .wake j :: log => j = i ∨ WokenSince i log
  | .start j :: log => j ≠ i ∧ WokenSince i log
  | .call :: log | .done _ _ :: log | .ret _ :: log => WokenSince i log

/-- The log as it was when the latest call began. -/
def beforeCall : Log O R → Log O R
  | [] => []
  | .call :: log => log
  | .wake _ :: log | .start _ :: log | .done _ _ :: log | .ret _ :: log => beforeCall log

/-- The inner future has been polled by the latest call. -/
def PolledByCall (i : ℕ) : Log O R → Prop
  | [] | .call :: _ => False
  | .start j :: log => j = i ∨ PolledByCall i log
  | .wake _ :: log | .done _ _ :: log | .ret _ :: log => PolledByCall i log

/-- The inner future has given its last answer, by the test of the combinator. -/
def Finished (fin : O → Bool) (i : ℕ) (log : Log O R) : Prop :=
  ∃ o, fin o = true ∧ Ev.done i (.ready o) ∈ log

/-- The inner future was unfinished and woken when the latest call began, and that call has not
polled it. -/
def Owed (fin : O → Bool) (i : ℕ) (log : Log O R) : Prop :=
  ¬ Finished fin i log.beforeCall ∧ log.beforeCall.WokenSince i ∧ ¬ log.PolledByCall i

section Lemmas

variable {fin : O → Bool} {i j : ℕ} {log : Log O R}

@[simp] theorem owed_act {a : FlagWakers.Act} : Owed fin i (log.act a) ↔ Owed fin i log := by
  rcases a with j | - | w
  · exact Iff.rfl
  · exact Iff.rfl
  · exact Iff.rfl

/-- A step from outside adds nothing but wakes. -/
theorem mem_act {a : FlagWakers.Act} {e : Ev O R} (he : ∀ j, e ≠ .wake j) :
    e ∈ log.act a ↔ e ∈ log := by
  rcases a with j | - | w
  · rw [act, List.mem_cons, or_iff_right (he j)]
  · exact Iff.rfl
  · exact Iff.rfl

theorem suffix_act {a : FlagWakers.Act} : log <:+ log.act a := by
  rcases a with j | - | w
  · exact List.suffix_cons _ _
  · exact List.suffix_refl _
  · exact List.suffix_refl _

theorem finished_act {a : FlagWakers.Act} : Finished fin i (log.act a) ↔ Finished fin i log := by
  simp only [Finished, mem_act (show ∀ j, Ev.done i (.ready _) ≠ .wake j by simp)]

theorem ret_mem_act {a : FlagWakers.Act} {out : R} : .ret out ∈ log.act a ↔ .ret out ∈ log :=
  mem_act (by simp)

theorem beforeCall_act {a : FlagWakers.Act} : (log.act a).beforeCall = log.beforeCall := by
  rcases a with j | - | w
  · rfl
  · rfl
  · rfl

theorem wokenSince_act {a : FlagWakers.Act} :
    (log.act a).WokenSince i ↔ a = .wake i ∨ log.WokenSince i := by
  rcases a with j | - | w
  · simp [act, WokenSince]
  · simp [act]
  · simp [act]

theorem owed_call : Owed fin i (.call :: log) ↔ ¬ Finished fin i log ∧ log.WokenSince i :=
  ⟨fun h ↦ ⟨h.1, h.2.1⟩, fun h ↦ ⟨h.1, h.2, id⟩⟩

theorem owed_start : Owed fin i (.start j :: log) ↔ j ≠ i ∧ Owed fin i log := by
  constructor
  · rintro ⟨hfin, hwoken, hpolled⟩
    obtain ⟨hne, hpolled⟩ := not_or.1 hpolled
    exact ⟨hne, hfin, hwoken, hpolled⟩
  · rintro ⟨hne, hfin, hwoken, hpolled⟩
    exact ⟨hfin, hwoken, not_or.2 ⟨hne, hpolled⟩⟩

/-- Only an answer of the inner future itself finishes it. -/
theorem finished_cons {e : Ev O R} :
    Finished fin i (e :: log) ↔ (∃ o, fin o = true ∧ e = .done i (.ready o)) ∨
      Finished fin i log := by
  constructor
  · rintro ⟨o, ho, hmem⟩
    rcases List.mem_cons.1 hmem with heq | hmem
    · exact Or.inl ⟨o, ho, heq.symm⟩
    · exact Or.inr ⟨o, ho, hmem⟩
  · rintro (⟨o, ho, rfl⟩ | ⟨o, ho, hmem⟩)
    · exact ⟨o, ho, List.mem_cons_self⟩
    · exact ⟨o, ho, List.mem_cons_of_mem _ hmem⟩

theorem beforeCall_suffix (log : Log O R) : log.beforeCall <:+ log := by
  induction log with
  | nil => exact List.suffix_refl _
  | cons e log ih =>
    rcases e with j | - | j | ⟨j, out⟩ | out
    case call => exact List.suffix_cons _ _
    all_goals exact ih.trans (List.suffix_cons _ _)

/-- What had finished when the latest call began has finished. -/
theorem Finished.of_beforeCall (h : Finished fin i log.beforeCall) : Finished fin i log := by
  obtain ⟨o, ho, hmem⟩ := h
  exact ⟨o, ho, (beforeCall_suffix log).subset hmem⟩

end Lemmas

end Log

end LocalRuntime
