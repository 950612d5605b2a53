import LocalRuntime.Lib.Count

/-!
# Slabs

The crate `slab` by its documented specification, which is all that is relied on; its free list is
not modelled. A slab stores values in numbered slots and hands out the number of a vacant slot for
the next value. Which vacant slot that is belongs to the allocator; nothing here depends on the
choice, so `insert` takes the key and `IsVacant` says which keys may be offered: a free slot, or the
slot just past the end.

`get_insert` and `get_remove` describe the two updates pointwise; everything else follows from
them.
-/

/-- The slots of a slab, in key order. -/
structure Slab (α : Type*) where
  /-- A slot is `none` while it is vacant. -/
  entries : List (Option α)

namespace Slab

variable {α : Type*}

/-- The empty slab. -/
def empty : Slab α := ⟨[]⟩

/-- The value stored under a key. -/
def get (s : Slab α) (k : ℕ) : Option α := (s.entries[k]?).join

/-- The keys the allocator may offer for the next value. -/
def IsVacant (s : Slab α) (k : ℕ) : Prop := k ≤ s.entries.length ∧ s.get k = none

instance (s : Slab α) (k : ℕ) : Decidable (s.IsVacant k) :=
  inferInstanceAs (Decidable (k ≤ s.entries.length ∧ s.get k = none))

/-- Store a value in a vacant slot. -/
def insert (s : Slab α) (k : ℕ) (v : α) : Slab α :=
  if k < s.entries.length then ⟨s.entries.set k (some v)⟩ else ⟨s.entries ++ [some v]⟩

/-- Vacate a slot. -/
def remove (s : Slab α) (k : ℕ) : Slab α := ⟨s.entries.set k none⟩

/-- The stored values, in key order. -/
def values (s : Slab α) : List α := s.entries.filterMap id

@[simp] theorem get_empty (k : ℕ) : (empty : Slab α).get k = none := rfl

/-- **Insertion, pointwise.** -/
theorem get_insert {s : Slab α} {k : ℕ} (hk : s.IsVacant k) (v : α) (j : ℕ) :
    (s.insert k v).get j = if j = k then some v else s.get j := by
  unfold insert
  split
  next hlt =>
    rcases eq_or_ne j k with rfl | hne
    · simp [get, hlt]
    · simp [get, hne, List.getElem?_set_ne hne.symm]
  next hge =>
    obtain rfl : k = s.entries.length := by have := hk.1; omega
    rcases Nat.lt_trichotomy j s.entries.length with hlt | rfl | hgt
    · simp [get, List.getElem?_append_left hlt, Nat.ne_of_lt hlt]
    · simp [get]
    · have h₁ : (s.entries ++ [some v])[j]? = none := by simp; omega
      have h₂ : s.entries[j]? = none := by simp; omega
      simp [get, h₁, h₂, Nat.ne_of_gt hgt]

/-- Whatever the key, an insertion adds nothing but the value. -/
theorem eq_or_get_of_get_insert {s : Slab α} {k j : ℕ} {v x : α}
    (h : (s.insert k v).get j = some x) : x = v ∨ s.get j = some x := by
  rw [get, Option.join_eq_some_iff, insert] at h
  split at h
  · rw [List.getElem?_set] at h
    split_ifs at h
    · exact Or.inl (Option.some.inj (Option.some.inj h)).symm
    · exact Or.inr (Option.join_eq_some_iff.2 h)
  · rw [List.getElem?_append] at h
    split_ifs at h
    · exact Or.inr (Option.join_eq_some_iff.2 h)
    · obtain hmem := List.mem_singleton.1 (List.mem_of_getElem? h)
      exact Or.inl (Option.some.inj hmem)

/-- **Removal, pointwise.** -/
theorem get_remove (s : Slab α) (k j : ℕ) :
    (s.remove k).get j = if j = k then none else s.get j := by
  rcases eq_or_ne j k with rfl | hne
  · simp only [get, remove, if_true]
    rcases Nat.lt_or_ge j s.entries.length with hlt | hge
    · simp [hlt]
    · simp [hge]
  · simp [get, remove, hne, List.getElem?_set_ne hne.symm]

theorem mem_values {s : Slab α} {v : α} : v ∈ s.values ↔ ∃ k, s.get k = some v := by
  rw [values, List.mem_filterMap]
  constructor
  · rintro ⟨o, ho, rfl⟩
    obtain ⟨k, hk⟩ := List.mem_iff_getElem?.1 ho
    exact ⟨k, by rw [get, hk]; rfl⟩
  · rintro ⟨k, hk⟩
    rw [get, Option.join_eq_some_iff] at hk
    exact ⟨some v, List.mem_of_getElem? hk, rfl⟩

/-! ### How many values there are -/

theorem length_values (s : Slab α) : s.values.length = s.entries.countP Option.isSome := by
  rw [values, List.length_filterMap_eq_countP]
  rfl

theorem countP_isSome_set_le (l : List (Option α)) (k : ℕ) (o : Option α) :
    (l.set k o).countP Option.isSome ≤ l.countP Option.isSome + if o.isSome then 1 else 0 := by
  rcases h : l[k]? with - | x
  · rw [List.set_eq_of_length_le (List.getElem?_eq_none_iff.1 h)]
    exact Nat.le_add_right _ _
  · have hset := List.countP_set_add (p := Option.isSome) h o
    omega

theorem length_values_remove_le (s : Slab α) (k : ℕ) :
    (s.remove k).values.length ≤ s.values.length := by
  rw [length_values, length_values]
  exact countP_isSome_set_le s.entries k none

theorem length_values_insert_le (s : Slab α) (k : ℕ) (v : α) :
    (s.insert k v).values.length ≤ s.values.length + 1 := by
  rw [length_values, length_values, insert]
  split
  · exact countP_isSome_set_le s.entries k (some v)
  · rw [List.countP_append]
    exact Nat.le_refl _

end Slab
