import Mathlib.Data.List.Basic

/-!
# A one-shot waker cell

The crate `atomic-waker` by its documented specification, the linearizable behaviour of an
`AtomicWaker`; the protocol inside of it is not modelled. `register` stores a waker in the only slot
and `wake` takes whatever is in the slot and wakes it, so a registered waker is woken **at most
once** through the cell and a `wake` on an empty slot does nothing.

Beside the slot the cell records its history since the latest `register`: which waker that call
stored, and which wakers have been woken since. The field `slot_or_woken` ties the two together —
the slot holds the registered waker until that waker has been woken — and is what every
"no wakeup is lost" argument rests on: a `wake` that finds the slot empty is harmless, because
somebody else has already woken the registered waker (`woken_wake`).
-/

/-- A waker cell with its history since the latest `register`. -/
structure AtomicWaker (W : Type*) where
  /-- The stored waker. -/
  slot : Option W
  /-- The waker stored by the latest `register`. -/
  registered : Option W
  /-- The wakers woken since the latest `register`, latest first. -/
  woken : List W
  /-- The slot is empty only after the registered waker has been woken. -/
  slot_or_woken : slot = registered ∨ slot = none ∧ ∃ w, registered = some w ∧ w ∈ woken

namespace AtomicWaker

variable {W : Type*}

/-- The empty cell. -/
def new : AtomicWaker W where
  slot := none
  registered := none
  woken := []
  slot_or_woken := Or.inl rfl

/-- Store a waker. -/
def register (_ : AtomicWaker W) (w : W) : AtomicWaker W where
  slot := some w
  registered := some w
  woken := []
  slot_or_woken := Or.inl rfl

/-- Take the stored waker, if there is one, and wake it. -/
def wake (c : AtomicWaker W) : AtomicWaker W :=
  match h : c.slot with
  | none => c
  | some w =>
    { slot := none
      registered := c.registered
      woken := w :: c.woken
      slot_or_woken := by
        refine Or.inr ⟨rfl, w, ?_, List.mem_cons_self⟩
        rcases c.slot_or_woken with heq | ⟨hnone, -⟩
        · rw [← heq, h]
        · rw [h] at hnone; cases hnone }

/-- A waker is woken directly, through a clone of it that the cell does not hold. -/
def hear (c : AtomicWaker W) (w : W) : AtomicWaker W where
  slot := c.slot
  registered := c.registered
  woken := w :: c.woken
  slot_or_woken := by
    rcases c.slot_or_woken with heq | ⟨hnone, v, hv, hmem⟩
    · exact Or.inl heq
    · exact Or.inr ⟨hnone, v, hv, List.mem_cons_of_mem _ hmem⟩

/-- The waker of the latest `register` has been woken since. -/
def Woken (c : AtomicWaker W) : Prop := ∃ w, c.registered = some w ∧ w ∈ c.woken

instance [DecidableEq W] (c : AtomicWaker W) : Decidable c.Woken :=
  match h : c.registered with
  | none => isFalse (by rintro ⟨w, hw, -⟩; rw [h] at hw; cases hw)
  | some w =>
    decidable_of_iff (w ∈ c.woken) ⟨fun hw ↦ ⟨w, h, hw⟩, by
      rintro ⟨v, hv, hmem⟩
      rw [h] at hv
      exact Option.some.inj hv ▸ hmem⟩

variable {c : AtomicWaker W}

@[simp] theorem registered_register (w : W) : (c.register w).registered = some w := rfl

@[simp] theorem registered_hear (w : W) : (c.hear w).registered = c.registered := rfl

@[simp] theorem registered_wake : c.wake.registered = c.registered := by
  unfold wake
  split <;> rfl

theorem Woken.hear (h : c.Woken) (w : W) : (c.hear w).Woken := by
  obtain ⟨v, hv, hmem⟩ := h
  exact ⟨v, hv, List.mem_cons_of_mem _ hmem⟩

/-- **Waking reaches the registered waker**, whoever empties the slot. -/
theorem woken_wake (h : c.registered ≠ none) : c.wake.Woken := by
  unfold wake
  split
  next hs =>
    rcases c.slot_or_woken with heq | ⟨-, hw⟩
    · exact absurd (heq ▸ hs) h
    · exact hw
  next w hs =>
    rcases c.slot_or_woken with heq | ⟨hnone, -⟩
    · exact ⟨w, by rw [← heq, hs], List.mem_cons_self⟩
    · rw [hs] at hnone; cases hnone

theorem Woken.wake (h : c.Woken) : c.wake.Woken := by
  obtain ⟨v, hv, -⟩ := h
  exact woken_wake (by simp [hv])

end AtomicWaker
