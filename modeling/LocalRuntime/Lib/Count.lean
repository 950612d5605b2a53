import Mathlib.Data.List.Basic

/-!
# Counting in a list that changes at one place

How many elements of a list have a property, after one element is replaced or removed. The equations
are between sums, so that linear arithmetic can use them without splitting a subtraction.
-/

namespace List

variable {α : Type*} {p : α → Bool} {l : List α} {i : ℕ} {x : α}

theorem countP_set_add (h : l[i]? = some x) (a : α) :
    (l.set i a).countP p + (if p x then 1 else 0) = l.countP p + (if p a then 1 else 0) := by
  induction l generalizing i with
  | nil => exact absurd h (by simp)
  | cons y l ih =>
    cases i with
    | zero =>
      obtain rfl : y = x := Option.some.inj h
      rw [set_cons_zero, countP_cons, countP_cons]
      omega
    | succ i =>
      have hi := ih (i := i) (by simpa using h)
      rw [set_cons_succ, countP_cons, countP_cons]
      omega

theorem countP_modify_add (h : l[i]? = some x) (f : α → α) :
    (l.modify i f).countP p + (if p x then 1 else 0) = l.countP p + (if p (f x) then 1 else 0) := by
  have hset : l.modify i f = l.set i (f x) := by
    rw [modify_eq_set_getElem?, h]
    rfl
  rw [hset]
  exact countP_set_add h (f x)

theorem countP_eraseIdx_add (h : l[i]? = some x) :
    (l.eraseIdx i).countP p + (if p x then 1 else 0) = l.countP p := by
  induction l generalizing i with
  | nil => exact absurd h (by simp)
  | cons y l ih =>
    cases i with
    | zero =>
      obtain rfl : y = x := Option.some.inj h
      rw [eraseIdx_zero, tail_cons, countP_cons]
    | succ i =>
      have hi := ih (i := i) (by simpa using h)
      rw [eraseIdx_cons_succ, countP_cons, countP_cons]
      omega

/-- What is found at no two places is there at most once. -/
theorem countP_le_one
    (h : ∀ (i j : ℕ) (x y : α), l[i]? = some x → l[j]? = some y → p x = true → p y = true → i = j) :
    l.countP p ≤ 1 := by
  induction l with
  | nil => exact Nat.zero_le 1
  | cons x l ih =>
    by_cases hx : p x = true
    · have hnone : l.countP p = 0 := by
        rw [countP_eq_zero]
        intro y hy hpy
        obtain ⟨j, hj⟩ := mem_iff_getElem?.1 hy
        exact absurd (h 0 (j + 1) x y rfl hj hx hpy) (by omega)
      have hone : (x :: l).countP p = 1 := by rw [countP_cons, hnone, if_pos hx]
      exact Nat.le_of_eq hone
    · rw [countP_cons, if_neg hx]
      refine ih fun i j y z hi hj hy hz ↦ ?_
      have := h (i + 1) (j + 1) y z hi hj hy hz
      omega

end List
