import Mathlib.Data.List.Basic
import Mathlib.Data.List.Induction
import Mathlib.Data.List.Nodup

/-!
# Chains of hashes

The items of a sequence are hashed one after another, each together with the hash before it. When
no two inputs have the same hash, and none has the hash that the chain begins with, a hash stands
for its item and for all items before it.
-/

namespace RpsServe.HashChain

variable {α β : Type*} {step : α → β → α} {z : α} {xs ys : List β} {i j : ℕ} {h : α}

/-- The hashes of a sequence of items. -/
def hashes (step : α → β → α) : α → List β → List α
  | _, [] => []
  | z, x :: xs => step z x :: hashes step (step z x) xs

/-- No two inputs have the same hash, and none has the hash `z`. -/
structure CollisionFree (step : α → β → α) (z : α) : Prop where
  injective {a b : α} {x y : β} : step a x = step b y → a = b ∧ x = y
  fresh (a : α) (x : β) : step a x ≠ z

/-- There is one hash for each content. -/
@[simp] theorem length_hashes (z : α) (xs : List β) : (hashes step z xs).length = xs.length := by
  induction xs generalizing z with
  | nil => rfl
  | cons x xs ih => exact congrArg (· + 1) (ih (step z x))

/-- A chain goes on from the last hash of its first part. -/
theorem hashes_append (z : α) (xs ys : List β) :
    hashes step z (xs ++ ys) = hashes step z xs ++ hashes step (xs.foldl step z) ys := by
  induction xs generalizing z with
  | nil => rfl
  | cons x xs ih => exact congrArg (step z x :: ·) (ih (step z x))

/-- The last hash, from which the chain goes on. -/
theorem getLast?_hashes (z : α) (xs : List β) :
    (hashes step z xs).getLast?.getD z = xs.foldl step z := by
  induction xs generalizing z with
  | nil => rfl
  | cons x xs ih =>
    rw [List.foldl_cons, ← ih (step z x), hashes, List.getLast?_cons, Option.getD_some]

/-- A hash of the chain comes from the items up to its position. -/
theorem getElem?_hashes_eq_some :
    (hashes step z xs)[i]? = some h ↔ i < xs.length ∧ (xs.take (i + 1)).foldl step z = h := by
  induction xs generalizing z i with
  | nil => simp [hashes]
  | cons x xs ih =>
    cases i with
    | zero => simp [hashes]
    | succ i =>
      rw [hashes, List.getElem?_cons_succ, ih, List.length_cons, Nat.add_lt_add_iff_right,
        List.take_succ_cons, List.foldl_cons]

namespace CollisionFree

variable (hc : CollisionFree step z)

include hc

/-- Sequences with the same hash are the same. -/
theorem foldl_injective (h : xs.foldl step z = ys.foldl step z) : xs = ys := by
  induction xs using List.reverseRecOn generalizing ys with
  | nil =>
    rcases List.eq_nil_or_concat' ys with rfl | ⟨ys, y, rfl⟩
    · rfl
    · rw [List.foldl_append] at h
      exact absurd h.symm (hc.fresh _ y)
  | append_singleton xs x ih =>
    rcases List.eq_nil_or_concat' ys with rfl | ⟨ys, y, rfl⟩
    · rw [List.foldl_append] at h
      exact absurd h (hc.fresh _ x)
    · rw [List.foldl_append, List.foldl_append] at h
      obtain ⟨hinit, rfl⟩ := hc.injective h
      rw [ih hinit]

/-- Equal hashes stand at the same position behind the same items. -/
theorem take_eq (hx : (hashes step z xs)[i]? = some h) (hy : (hashes step z ys)[j]? = some h) :
    i = j ∧ xs.take (i + 1) = ys.take (j + 1) := by
  obtain ⟨hi, hx⟩ := getElem?_hashes_eq_some.mp hx
  obtain ⟨hj, hy⟩ := getElem?_hashes_eq_some.mp hy
  have htake := hc.foldl_injective (hx.trans hy.symm)
  have hlength := congrArg List.length htake
  rw [List.length_take_of_le hi, List.length_take_of_le hj] at hlength
  exact ⟨Nat.succ.inj hlength, htake⟩

/-- No two hashes of a chain are equal. -/
theorem nodup (xs : List β) : (hashes step z xs).Nodup := by
  refine List.nodup_iff_getElem?_ne_getElem?.mpr fun i j hij hj heq => ?_
  have hget := List.getElem?_eq_getElem hj
  exact Nat.ne_of_lt hij (hc.take_eq (heq.trans hget) hget).1

end CollisionFree

end RpsServe.HashChain
