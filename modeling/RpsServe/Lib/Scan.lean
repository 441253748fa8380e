import Mathlib.Data.Nat.Notation

/-!
# Scanning for the first and the last index

The two loops over a list's indices that stop at the first hit, upwards and downwards,
with what they return: the least, respectively the greatest, index of the range at which
the test succeeds.
-/

namespace RpsServe

/-- Scan the indices `n - 1, …, 0` for one at which `p` holds. -/
def lastBelow (p : ℕ → Bool) : ℕ → Option ℕ
  | 0 => none
  | n + 1 => if p n then some n else lastBelow p n

/-- Scan the indices `start, …, start + count - 1` for one at which `p` holds. -/
def firstFrom (p : ℕ → Bool) : (start count : ℕ) → Option ℕ
  | _, 0 => none
  | start, count + 1 => if p start then some start else firstFrom p (start + 1) count

/-- A downward scan without a hit saw no hit. -/
theorem lastBelow_eq_none {p : ℕ → Bool} {n : ℕ} :
    lastBelow p n = none ↔ ∀ i < n, p i = false := by
  induction n with
  | zero => simp [lastBelow]
  | succ n ih =>
    rw [lastBelow]
    split
    · rename_i hp
      exact ⟨fun h => (nomatch h), fun h => absurd (h n (by omega)) (by simp [hp])⟩
    · rename_i hp
      rw [ih]
      refine ⟨fun h i hi => ?_, fun h i hi => h i (by omega)⟩
      rcases Nat.lt_succ_iff_lt_or_eq.mp hi with hlt | rfl
      · exact h i hlt
      · simpa using hp

/-- A downward scan stops at the greatest hit. -/
theorem lastBelow_eq_some {p : ℕ → Bool} {n k : ℕ} (h : lastBelow p n = some k) :
    k < n ∧ p k = true ∧ ∀ i < n, p i = true → i ≤ k := by
  induction n with
  | zero => simp [lastBelow] at h
  | succ n ih =>
    rw [lastBelow] at h
    split at h
    · rename_i hp
      cases h
      exact ⟨by omega, hp, fun i hi _ => by omega⟩
    · rename_i hp
      obtain ⟨hlt, hk, hmax⟩ := ih h
      refine ⟨by omega, hk, fun i hi hpi => ?_⟩
      rcases Nat.lt_succ_iff_lt_or_eq.mp hi with hlt | rfl
      · exact hmax i hlt hpi
      · exact absurd hpi hp

/-- An upward scan without a hit saw no hit. -/
theorem firstFrom_eq_none {p : ℕ → Bool} {start count : ℕ} :
    firstFrom p start count = none ↔ ∀ i, start ≤ i → i < start + count → p i = false := by
  induction count generalizing start with
  | zero => simp [firstFrom]; omega
  | succ count ih =>
    rw [firstFrom]
    split
    · rename_i hp
      exact ⟨fun h => (nomatch h),
        fun h => absurd (h start (Nat.le_refl _) (by omega)) (by simp [hp])⟩
    · rename_i hp
      rw [ih]
      refine ⟨fun h i hge hlt => ?_, fun h i hge hlt => h i (by omega) (by omega)⟩
      rcases Nat.eq_or_lt_of_le hge with rfl | hgt
      · simpa using hp
      · exact h i hgt (by omega)

/-- An upward scan stops at the least hit. -/
theorem firstFrom_eq_some {p : ℕ → Bool} {start count k : ℕ} (h : firstFrom p start count = some k) :
    start ≤ k ∧ k < start + count ∧ p k = true ∧ ∀ i, start ≤ i → i < k → p i = false := by
  induction count generalizing start with
  | zero => simp [firstFrom] at h
  | succ count ih =>
    rw [firstFrom] at h
    split at h
    · rename_i hp
      cases h
      exact ⟨Nat.le_refl _, by omega, hp, fun i hge hlt => by omega⟩
    · rename_i hp
      obtain ⟨hge, hlt, hk, hmin⟩ := ih h
      refine ⟨by omega, by omega, hk, fun i hsi hik => ?_⟩
      rcases Nat.eq_or_lt_of_le hsi with rfl | hgt
      · simpa using hp
      · exact hmin i hgt hik

/-- `o` is the least index at which `p` holds, and nothing if there is none. -/
def LeastHit (p : ℕ → Bool) : Option ℕ → Prop
  | none => ∀ i, p i = false
  | some k => p k = true ∧ ∀ i, p i = true → k ≤ i

/-- `o` is the greatest index at which `p` holds, and nothing if there is none. -/
def GreatestHit (p : ℕ → Bool) : Option ℕ → Prop
  | none => ∀ i, p i = false
  | some k => p k = true ∧ ∀ i, p i = true → i ≤ k

/-- An upward scan of a range that holds every hit finds the least one. -/
theorem leastHit_firstFrom {p : ℕ → Bool} {start count : ℕ}
    (h : ∀ i, p i = true → start ≤ i ∧ i < start + count) : LeastHit p (firstFrom p start count) := by
  cases hf : firstFrom p start count with
  | none =>
    intro i
    rw [← Bool.not_eq_true]
    intro hi
    obtain ⟨hge, hlt⟩ := h i hi
    exact absurd hi (by simp [firstFrom_eq_none.mp hf i hge hlt])
  | some k =>
    obtain ⟨-, -, hk, hmin⟩ := firstFrom_eq_some hf
    refine ⟨hk, fun i hi => Nat.not_lt.mp fun hlt => ?_⟩
    exact absurd hi (by simp [hmin i (h i hi).1 hlt])

/-- A downward scan of a range that holds every hit finds the greatest one. -/
theorem greatestHit_lastBelow {p : ℕ → Bool} {n : ℕ} (h : ∀ i, p i = true → i < n) :
    GreatestHit p (lastBelow p n) := by
  cases hl : lastBelow p n with
  | none =>
    intro i
    rw [← Bool.not_eq_true]
    intro hi
    exact absurd hi (by simp [lastBelow_eq_none.mp hl i (h i hi)])
  | some k =>
    obtain ⟨-, hk, hmax⟩ := lastBelow_eq_some hl
    exact ⟨hk, fun i hi => hmax i (h i hi) hi⟩

end RpsServe
