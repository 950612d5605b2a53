import Mathlib

/-!
# Ordered maps

The ordered map of the standard library, `Std.TreeMap`, at the comparison of a linear order, with
the three operations a `BTreeMap` client calls: `replace` (an insertion that hands back the value it
displaced), `firstKeyValue`, and removal.

The lookup lemmas restate the library's in terms of equality of keys instead of comparison results,
which is the form the clients reason in; `firstKeyValue_eq_some` says that the first entry is a
least one.
-/

open Std (TreeMap)

/-- An ordered map over a linear order. -/
abbrev BTreeMap (κ ν : Type*) [LinearOrder κ] := TreeMap κ ν LinearOrder.toOrd.compare

namespace BTreeMap

variable {κ ν : Type*} [LinearOrder κ] {m : BTreeMap κ ν}

/-- Insert a value and hand back the one it displaced. -/
def replace (m : BTreeMap κ ν) (k : κ) (v : ν) : Option ν × BTreeMap κ ν := (m[k]?, m.insert k v)

/-- The entry with the least key. -/
def firstKeyValue (m : BTreeMap κ ν) : Option (κ × ν) := m.toList.head?

theorem getElem?_insert (k : κ) (v : ν) (a : κ) :
    (m.insert k v)[a]? = if a = k then some v else m[a]? := by
  rw [TreeMap.getElem?_insert]
  simp only [compare_eq_iff_eq, eq_comm (a := k)]

/-- To write back what is there changes nothing. -/
theorem getElem?_insert_of_eq_some {k : κ} {v : ν} (h : m[k]? = some v) (a : κ) :
    (m.insert k v)[a]? = m[a]? := by
  rw [getElem?_insert]
  split
  next ha => rw [ha, h]
  next => rfl

/-- To put back what was displaced undoes the insertion. -/
theorem getElem?_insert_insert_of_eq_some {k : κ} {v : ν} (h : m[k]? = some v) (w : ν) (a : κ) :
    ((m.insert k w).insert k v)[a]? = m[a]? := by
  rw [getElem?_insert, getElem?_insert]
  split
  next ha => rw [ha, h]
  next => rfl

theorem getElem?_erase (k a : κ) : (m.erase k)[a]? = if a = k then none else m[a]? := by
  rw [TreeMap.getElem?_erase]
  simp only [compare_eq_iff_eq, eq_comm (a := k)]

theorem mem_toList_iff {k : κ} {v : ν} : (k, v) ∈ m.toList ↔ m[k]? = some v :=
  TreeMap.mem_toList_iff_getElem?_eq_some

theorem mem_iff_exists {k : κ} : k ∈ m ↔ ∃ v, m[k]? = some v := by
  rw [TreeMap.mem_iff_isSome_getElem?, Option.isSome_iff_exists]

theorem pairwise_toList : m.toList.Pairwise fun a b ↦ a.1 < b.1 := by
  have h : m.toList.Pairwise fun a b ↦ compare a.1 b.1 = Ordering.lt :=
    TreeMap.ordered_keys_toList
  exact h.imp fun hlt ↦ compare_lt_iff_lt.1 hlt

theorem nodup_keys_toList : (m.toList.map Prod.fst).Nodup := by
  rw [List.Nodup, List.pairwise_map]
  exact pairwise_toList.imp fun hlt ↦ hlt.ne

theorem size_erase_lt {k : κ} {v : ν} (h : m[k]? = some v) : (m.erase k).size < m.size := by
  have hk : k ∈ m := mem_iff_exists.2 ⟨v, h⟩
  have hpos : m.size ≠ 0 := by
    intro h0
    have hlen : m.keys.length = 0 := by rw [TreeMap.length_keys, h0]
    rw [List.length_eq_zero_iff] at hlen
    have := TreeMap.mem_keys.2 hk
    rw [hlen] at this
    cases this
  rw [TreeMap.size_erase, if_pos (TreeMap.mem_iff_contains.1 hk)]
  omega

/-- The first entry is in the map and no key is below it. -/
theorem firstKeyValue_eq_some {k : κ} {v : ν} (h : m.firstKeyValue = some (k, v)) :
    m[k]? = some v ∧ ∀ a w, m[a]? = some w → k ≤ a := by
  obtain ⟨l, hl⟩ : ∃ l, m.toList = (k, v) :: l := List.head?_eq_some_iff.1 h
  have hsorted := pairwise_toList (m := m)
  rw [hl, List.pairwise_cons] at hsorted
  refine ⟨mem_toList_iff.1 (by rw [hl]; exact List.mem_cons_self), fun a w ha ↦ ?_⟩
  have hmem := mem_toList_iff.2 ha
  rw [hl, List.mem_cons] at hmem
  rcases hmem with heq | hmem
  · exact le_of_eq (congrArg Prod.fst heq).symm
  · exact (hsorted.1 _ hmem).le

/-- There is no first entry exactly when there is no entry. -/
theorem firstKeyValue_eq_none (h : m.firstKeyValue = none) (a : κ) : m[a]? = none := by
  rw [firstKeyValue, List.head?_eq_none_iff] at h
  rw [← Option.not_isSome_iff_eq_none, Option.isSome_iff_exists]
  rintro ⟨w, hw⟩
  have := mem_toList_iff.2 hw
  rw [h] at this
  cases this

/-- Two ordered lists of entries with the same entries are equal. -/
theorem eq_of_pairwise_of_mem_iff {l l' : List (κ × ν)} (hl : l.Pairwise fun a b ↦ a.1 < b.1)
    (hl' : l'.Pairwise fun a b ↦ a.1 < b.1) (hmem : ∀ e, e ∈ l ↔ e ∈ l') : l = l' := by
  have : Std.Irrefl fun a b : κ × ν ↦ a.1 < b.1 := ⟨fun a ↦ lt_irrefl a.1⟩
  have : Std.Antisymm fun a b : κ × ν ↦ a.1 < b.1 := ⟨fun a b hab hba ↦ absurd hba hab.asymm⟩
  exact hl.eq_of_mem_iff hl' hmem

/-- The entries of a map that has lost some of its keys. -/
theorem toList_eq_filter {m' : BTreeMap κ ν} {p : κ → Bool}
    (h : ∀ k, m'[k]? = if p k then m[k]? else none) :
    m'.toList = m.toList.filter fun e ↦ p e.1 := by
  refine eq_of_pairwise_of_mem_iff pairwise_toList (pairwise_toList.filter _) fun ⟨k, v⟩ ↦ ?_
  rw [List.mem_filter, mem_toList_iff, mem_toList_iff, h k]
  by_cases hk : p k = true
  · simp [hk]
  · simp [hk]

/-- Removing the first entry leaves the others in order. -/
theorem toList_erase_of_toList_eq_cons {k : κ} {v : ν} {l : List (κ × ν)}
    (h : m.toList = (k, v) :: l) : (m.erase k).toList = l := by
  have hsorted := pairwise_toList (m := m)
  rw [h, List.pairwise_cons] at hsorted
  have hne : ∀ e ∈ l, decide (e.1 ≠ k) = true := fun e he ↦ decide_eq_true (hsorted.1 e he).ne'
  have herase (a : κ) : (m.erase k)[a]? = if decide (a ≠ k) = true then m[a]? else none := by
    rw [getElem?_erase]
    by_cases ha : a = k
    · simp [ha]
    · simp [ha]
  rw [toList_eq_filter herase, h, List.filter_cons_of_neg (by simp), List.filter_eq_self.2 hne]

/-- A map has at least as many keys of a kind as any list of distinct keys of that kind it holds. -/
theorem length_le_countP_keys {p : κ → Bool} {l : List κ} (hnd : l.Nodup)
    (hmem : ∀ k ∈ l, k ∈ m ∧ p k) : l.length ≤ m.keys.countP p := by
  have hall : l.countP p = l.length := List.countP_eq_length.2 fun k hk ↦ (hmem k hk).2
  rw [← hall]
  exact (hnd.subperm fun k hk ↦ TreeMap.mem_keys.2 (hmem k hk).1).countP_le p

end BTreeMap
