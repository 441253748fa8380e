import Mathlib.Data.List.Sort

/-!
# Stable sorting by a key

Sorting a list by a key into a linear order. Entries with equal keys keep their order, as
`List.insertionSort` inserts each entry before the first one that is not smaller.
-/

namespace RpsServe

variable {α κ : Type*} [LinearOrder κ]

/-- Sort by `key`, stably. -/
def sortBy (key : α → κ) (l : List α) : List α := l.insertionSort fun a b => key a ≤ key b

/-- Sorting rearranges the list. -/
theorem sortBy_perm (key : α → κ) (l : List α) : (sortBy key l).Perm l :=
  List.perm_insertionSort _ l

/-- Sorting keeps the members. -/
@[simp] theorem mem_sortBy {key : α → κ} {l : List α} {a : α} : a ∈ sortBy key l ↔ a ∈ l :=
  List.mem_insertionSort _

/-- The sorted list has its keys in nondecreasing order. -/
theorem sortBy_pairwise (key : α → κ) (l : List α) :
    (sortBy key l).Pairwise fun a b => key a ≤ key b :=
  haveI : Std.Total fun a b : α => key a ≤ key b := ⟨fun a b => le_total (key a) (key b)⟩
  haveI : IsTrans α fun a b : α => key a ≤ key b := ⟨fun _ _ _ => le_trans⟩
  List.pairwise_insertionSort _ l

/-- Sorting goes by the order of the keys on the list alone. -/
theorem sortBy_congr {κ' : Type*} [LinearOrder κ'] {key : α → κ} {key' : α → κ'} {l : List α}
    (h : ∀ a ∈ l, ∀ b ∈ l, key a ≤ key b ↔ key' a ≤ key' b) :
    sortBy key l = sortBy key' l := by
  simpa [sortBy] using List.map_insertionSort (fun a b => key a ≤ key b)
    (fun a b => key' a ≤ key' b) id l h

/-- In a list that is in the order of its keys, of two entries with different keys the one with
the smaller key stands first. -/
theorem pair_sublist_iff {key : α → κ} {l : List α} (h : l.Pairwise fun a b => key a ≤ key b)
    {a b : α} (ha : a ∈ l) (hb : b ∈ l) (hne : key a ≠ key b) :
    [a, b].Sublist l ↔ key a < key b := by
  constructor
  · intro hsub
    have hle : key a ≤ key b := by simpa using h.sublist hsub
    exact lt_of_le_of_ne hle hne
  · intro hlt
    induction l with
    | nil => cases ha
    | cons c rest ih =>
      have hrest := List.pairwise_cons.mp h
      rcases List.mem_cons.mp ha with rfl | ha'
      · have hba : b ≠ a := fun hEq => hne (by rw [hEq])
        exact .cons_cons a (List.singleton_sublist.mpr ((List.mem_cons.mp hb).resolve_left hba))
      · rcases List.mem_cons.mp hb with rfl | hb'
        · exact absurd (hrest.1 a ha') (not_le.mpr hlt)
        · exact .cons c (ih hrest.2 ha' hb')

end RpsServe
