import Mathlib.Algebra.Order.Round
import Mathlib.Analysis.SpecialFunctions.Log.Basic
import Mathlib.Data.Int.Log

/-!
# Rounding to double precision

The nearest integer, and the nearest double: a multiple of the unit in the last place, which is
the power of two 52 places below the leading one, or the smallest subnormal. Both take the even
one of two. Rounding knows no largest double; where it matters, results are compared with it.
-/

namespace RpsServe

/-! ### Nearest integers -/

/-- `round`: the nearest integer, the even one of two. -/
noncomputable def roundHalfEven (x : ℝ) : ℤ :=
  if Int.fract x < 1 / 2 then ⌊x⌋
  else if 1 / 2 < Int.fract x then ⌊x⌋ + 1
  else if Even ⌊x⌋ then ⌊x⌋ else ⌊x⌋ + 1

variable {x y : ℝ} {n k : ℤ}

/-- Rounding stays above an integer below. -/
theorem le_roundHalfEven (h : n ≤ x) : n ≤ roundHalfEven x := by
  have hfloor : n ≤ ⌊x⌋ := Int.le_floor.mpr h
  unfold roundHalfEven
  split_ifs <;> omega

/-- Rounding stays below an integer above: a fraction that is rounded up is not 0. -/
theorem roundHalfEven_le (h : x ≤ n) : roundHalfEven x ≤ n := by
  have hfloor : ⌊x⌋ ≤ n := by exact_mod_cast (Int.floor_le x).trans h
  have hfract := Int.floor_add_fract x
  unfold roundHalfEven
  split_ifs with hlow hhigh heven
  · exact hfloor
  all_goals
    have hlt : ⌊x⌋ < n ∨ ⌊x⌋ = n := hfloor.lt_or_eq
    rcases hlt with hlt | heq
    · omega
    · have hle : Int.fract x ≤ 0 := by
        rw [← heq] at h
        linarith
      linarith

/-- An integer is rounded to itself. -/
theorem roundHalfEven_intCast (n : ℤ) : roundHalfEven n = n :=
  le_antisymm (roundHalfEven_le le_rfl) (le_roundHalfEven le_rfl)

/-- Rounding comes out below an even integer exactly when half a unit is missing to it. -/
theorem roundHalfEven_lt_iff (hn : Even n) : roundHalfEven x < n ↔ x < n - 1 / 2 := by
  have hfract := Int.floor_add_fract x
  have hnonneg := Int.fract_nonneg x
  have hlt := Int.fract_lt_one x
  have hpred : n - 1 ≤ ⌊x⌋ ↔ (n : ℝ) - 1 ≤ x := by
    rw [Int.le_floor]
    push_cast
    rfl
  rcases lt_trichotomy ⌊x⌋ (n - 1) with hbelow | hat | habove
  · refine iff_of_true ?_ ?_
    · unfold roundHalfEven
      split_ifs <;> omega
    · have : x < (n : ℝ) - 1 := not_le.mp fun h => by
        have := hpred.mpr h
        omega
      linarith
  · have hodd : ¬ Even ⌊x⌋ := by
      rw [hat, Int.even_sub_one]
      simpa using hn
    have hcast : (⌊x⌋ : ℝ) = n - 1 := by
      rw [hat]
      push_cast
      rfl
    unfold roundHalfEven
    split_ifs with hlow hhigh
    · exact iff_of_true (by omega) (by linarith)
    all_goals exact iff_of_false (by omega) (by linarith)
  · refine iff_of_false ?_ ?_
    · have := le_roundHalfEven (n := n) (x := x) (Int.le_floor.mp (by omega))
      omega
    · have : (n : ℝ) ≤ x := Int.le_floor.mp (by omega)
      linarith

/-- Rounding is monotone. -/
theorem roundHalfEven_mono (h : x ≤ y) : roundHalfEven x ≤ roundHalfEven y := by
  have hfloor := Int.floor_mono h
  rcases hfloor.lt_or_eq with hlt | heq
  · have hx : roundHalfEven x ≤ ⌊y⌋ := roundHalfEven_le
      ((Int.lt_floor_add_one x).le.trans (by exact_mod_cast hlt))
    exact hx.trans (le_roundHalfEven (Int.floor_le y))
  · have hfract : Int.fract x ≤ Int.fract y := by
      unfold Int.fract
      rw [heq]
      linarith
    unfold roundHalfEven
    rw [heq]
    split_ifs <;> first | omega | linarith

/-- Rounding commutes with changing the sign. -/
theorem roundHalfEven_neg (x : ℝ) : roundHalfEven (-x) = -roundHalfEven x := by
  by_cases hint : Int.fract x = 0
  · have hx : x = ⌊x⌋ := (Int.self_sub_floor x ▸ hint : x - ⌊x⌋ = 0) |> sub_eq_zero.mp
    have hneg : -x = ((-⌊x⌋ : ℤ) : ℝ) := by
      push_cast
      linarith
    rw [hneg, roundHalfEven_intCast]
    conv_rhs => rw [hx]
    rw [roundHalfEven_intCast]
  · have hfract : Int.fract (-x) = 1 - Int.fract x := Int.fract_neg hint
    have hfloor : ⌊-x⌋ = -⌊x⌋ - 1 := by
      have hsum := Int.floor_add_fract (-x)
      have hsum' := Int.floor_add_fract x
      rw [hfract] at hsum
      have : ((⌊-x⌋ : ℤ) : ℝ) = ((-⌊x⌋ - 1 : ℤ) : ℝ) := by
        push_cast
        linarith
      exact_mod_cast this
    have heven : Even (-⌊x⌋ - 1) ↔ ¬ Even ⌊x⌋ := by
      rw [Int.even_sub_one, even_neg]
    unfold roundHalfEven
    rw [hfract, hfloor]
    by_cases hev : Even ⌊x⌋
    · simp only [heven, hev, not_true, if_true, if_false]
      split_ifs <;> first | omega | linarith
    · simp only [heven, hev, not_false_iff, if_true, if_false]
      split_ifs <;> first | omega | linarith

/-! ### Nearest doubles -/

/-- The exponent of the unit in the last place. -/
noncomputable def ulpExp (x : ℝ) : ℤ := max (Int.log 2 |x| - 52) (-1074)

/-- The nearest double, the even one of two. -/
noncomputable def binary64 (x : ℝ) : ℝ := roundHalfEven (x / 2 ^ ulpExp x) * 2 ^ ulpExp x

/-- The largest finite double. -/
noncomputable def largestDouble : ℝ := (2 - 2 ^ (-52 : ℤ)) * 2 ^ (1023 : ℤ)

/-- The largest `x` for which `e^(-x)` rounds to 1. -/
noncomputable def tinyExponent : ℝ := -Real.log (1 - 2 ^ (-54 : ℤ))

/-- Rounding to doubles commutes with changing the sign. -/
theorem binary64_neg (x : ℝ) : binary64 (-x) = -binary64 x := by
  have hexp : ulpExp (-x) = ulpExp x := by rw [ulpExp, ulpExp, abs_neg]
  rw [binary64, binary64, hexp, neg_div, roundHalfEven_neg]
  push_cast
  ring

/-- A multiple of the unit in the last place bounds what is rounded from below. -/
theorem mul_le_binary64 (h : n * (2 : ℝ) ^ ulpExp x ≤ x) : n * (2 : ℝ) ^ ulpExp x ≤ binary64 x := by
  have hpos : (0 : ℝ) < 2 ^ ulpExp x := by positivity
  have hround : n ≤ roundHalfEven (x / 2 ^ ulpExp x) := le_roundHalfEven ((le_div_iff₀ hpos).mpr h)
  have hcast : (n : ℝ) ≤ roundHalfEven (x / 2 ^ ulpExp x) := by exact_mod_cast hround
  exact mul_le_mul_of_nonneg_right hcast hpos.le

/-- A multiple of the unit in the last place bounds what is rounded from above. -/
theorem binary64_le_mul (h : x ≤ n * (2 : ℝ) ^ ulpExp x) : binary64 x ≤ n * (2 : ℝ) ^ ulpExp x := by
  have hpos : (0 : ℝ) < 2 ^ ulpExp x := by positivity
  have hround : roundHalfEven (x / 2 ^ ulpExp x) ≤ n := roundHalfEven_le ((div_le_iff₀ hpos).mpr h)
  have hcast : (roundHalfEven (x / 2 ^ ulpExp x) : ℝ) ≤ n := by exact_mod_cast hround
  exact mul_le_mul_of_nonneg_right hcast hpos.le

/-- A power of two is a multiple of every smaller one. -/
theorem exists_mul_zpow {e : ℤ} (h : e ≤ k) : ∃ n : ℤ, (2 : ℝ) ^ k = n * 2 ^ e := by
  refine ⟨2 ^ (k - e).toNat, ?_⟩
  have hk : k = ((k - e).toNat : ℤ) + e := by omega
  conv_lhs => rw [hk, zpow_add₀ two_ne_zero, zpow_natCast]
  push_cast
  rfl

/-- Above a power of two the leading place is no smaller one. -/
theorem zpow_le_of_ulpExp (hk : -1074 ≤ k) (h : k < ulpExp x) (hx : 0 < x) :
    (2 : ℝ) ^ (ulpExp x + 52) ≤ x := by
  have hexp : ulpExp x = Int.log 2 |x| - 52 := by
    unfold ulpExp at h ⊢
    omega
  rw [hexp, sub_add_cancel, abs_of_pos hx]
  exact Int.zpow_log_le_self one_lt_two hx

/-- Rounding stays above a power of two below. -/
theorem zpow_le_binary64 (hk : -1074 ≤ k) (h : (2 : ℝ) ^ k ≤ x) : (2 : ℝ) ^ k ≤ binary64 x := by
  have hx : 0 < x := lt_of_lt_of_le (by positivity) h
  rcases le_or_gt (ulpExp x) k with hle | hlt
  · obtain ⟨n, hn⟩ := exists_mul_zpow hle
    rw [hn] at h ⊢
    exact mul_le_binary64 h
  · have hlead := zpow_le_of_ulpExp hk hlt hx
    obtain ⟨n, hn⟩ := exists_mul_zpow (show ulpExp x ≤ ulpExp x + 52 by omega)
    calc (2 : ℝ) ^ k ≤ 2 ^ (ulpExp x + 52) := zpow_le_zpow_right₀ one_le_two (by omega)
      _ ≤ binary64 x := by
        rw [hn] at hlead ⊢
        exact mul_le_binary64 hlead

/-- Rounding stays below a power of two above. -/
theorem binary64_le_zpow (hk : -1074 ≤ k) (hx : 0 < x) (h : x ≤ (2 : ℝ) ^ k) :
    binary64 x ≤ (2 : ℝ) ^ k := by
  have hle : ulpExp x ≤ k := by
    by_contra hlt
    have hlead := (zpow_le_of_ulpExp hk (not_le.mp hlt) hx).trans h
    have := (zpow_le_zpow_iff_right₀ (one_lt_two : (1 : ℝ) < 2)).mp hlead
    omega
  obtain ⟨n, hn⟩ := exists_mul_zpow hle
  rw [hn] at h ⊢
  exact binary64_le_mul h

/-- Zero is a double. -/
theorem binary64_zero : binary64 0 = 0 := by
  have hzero : roundHalfEven 0 = 0 := by exact_mod_cast roundHalfEven_intCast 0
  rw [binary64, zero_div, hzero]
  simp

/-- Rounding keeps the sign. -/
theorem binary64_nonneg (h : 0 ≤ x) : 0 ≤ binary64 x := by
  have hmul := mul_le_binary64 (n := 0) (x := x) (by simpa using h)
  simpa using hmul

/-- A power of two is a double. -/
theorem binary64_zpow (hk : -1074 ≤ k) : binary64 (2 ^ k) = 2 ^ k :=
  le_antisymm (binary64_le_zpow hk (by positivity) le_rfl) (zpow_le_binary64 hk le_rfl)

/-- A multiple of the unit in the last place is a double. -/
theorem binary64_eq_of_mul (h : x = n * (2 : ℝ) ^ ulpExp x) : binary64 x = x := by
  have hle := binary64_le_mul h.le
  have hge := mul_le_binary64 h.ge
  rw [← h] at hle hge
  exact le_antisymm hle hge

/-- What a positive number is rounded to is a double. -/
theorem binary64_binary64_of_pos (hx : 0 < x) : binary64 (binary64 x) = binary64 x := by
  set e := ulpExp x with he
  set n := roundHalfEven (x / 2 ^ e) with hn
  have hpos : (0 : ℝ) < 2 ^ e := by positivity
  have hmin : -1074 ≤ e := le_max_right _ _
  have hz : binary64 x = n * (2 : ℝ) ^ e := rfl
  have hnonneg : 0 ≤ n := le_roundHalfEven (by push_cast; positivity)
  have hle : n ≤ 2 ^ 53 := by
    refine roundHalfEven_le ((div_le_iff₀ hpos).mpr ?_)
    have hlog : Int.log 2 x ≤ e + 52 := by
      have : Int.log 2 |x| - 52 ≤ e := le_max_left _ _
      rw [abs_of_pos hx] at this
      omega
    have hbelow : x < (2 : ℝ) ^ (e + 53) := by
      have := (Int.lt_zpow_iff_log_lt one_lt_two hx).mpr (show Int.log 2 x < e + 53 by omega)
      exact_mod_cast this
    refine hbelow.le.trans_eq ?_
    rw [add_comm, zpow_add₀ two_ne_zero]
    norm_num
  rcases hnonneg.eq_or_lt with hzero | hnpos
  · rw [hz, ← hzero]
    simpa using binary64_zero
  rcases hle.eq_or_lt with htop | hlt
  · have hpow : binary64 x = (2 : ℝ) ^ (e + 53) := by
      rw [hz, htop, add_comm, zpow_add₀ two_ne_zero]
      norm_num
    rw [hpow]
    exact binary64_zpow (by omega)
  · have hzpos : 0 < binary64 x := by
      rw [hz]
      exact mul_pos (by exact_mod_cast hnpos) hpos
    have hbelow : binary64 x < (2 : ℝ) ^ (e + 53) := by
      rw [hz, add_comm, zpow_add₀ two_ne_zero]
      refine mul_lt_mul_of_pos_right ?_ hpos
      norm_num
      exact_mod_cast hlt
    have hexp : ulpExp (binary64 x) ≤ e := by
      have hlog : Int.log 2 (binary64 x) < e + 53 :=
        (Int.lt_zpow_iff_log_lt one_lt_two hzpos).mp (by exact_mod_cast hbelow)
      unfold ulpExp
      rw [abs_of_pos hzpos]
      omega
    obtain ⟨m, hm⟩ := exists_mul_zpow hexp
    refine binary64_eq_of_mul (n := n * m) ?_
    push_cast
    rw [mul_assoc, ← hm, ← hz]

/-- What a number is rounded to is a double. -/
theorem binary64_binary64 (x : ℝ) : binary64 (binary64 x) = binary64 x := by
  rcases lt_trichotomy 0 x with hx | rfl | hx
  · exact binary64_binary64_of_pos hx
  · rw [binary64_zero, binary64_zero]
  · have hneg := binary64_binary64_of_pos (neg_pos.mpr hx)
    rw [binary64_neg, binary64_neg] at hneg
    exact neg_inj.mp hneg

/-- Rounding numbers that are not negative is monotone. -/
theorem binary64_le_of_nonneg (hx : 0 ≤ x) (h : x ≤ y) : binary64 x ≤ binary64 y := by
  rcases hx.eq_or_lt with rfl | hx
  · rw [binary64_zero]
    exact binary64_nonneg h
  have hy : 0 < y := hx.trans_le h
  have hlog : Int.log 2 |x| ≤ Int.log 2 |y| := by
    rw [abs_of_pos hx, abs_of_pos hy]
    exact Int.log_mono_right hx h
  have hexp : ulpExp x ≤ ulpExp y := max_le_max (by omega) le_rfl
  rcases hexp.eq_or_lt with heq | hlt
  · have hpos : (0 : ℝ) < 2 ^ ulpExp y := by positivity
    have hround : roundHalfEven (x / 2 ^ ulpExp y) ≤ roundHalfEven (y / 2 ^ ulpExp y) :=
      roundHalfEven_mono (div_le_div_of_nonneg_right h hpos.le)
    rw [binary64, binary64, heq]
    exact mul_le_mul_of_nonneg_right (by exact_mod_cast hround) hpos.le
  · have hlead : Int.log 2 y = ulpExp y + 52 := by
      rw [abs_of_pos hx, abs_of_pos hy] at hlog
      unfold ulpExp at hlt ⊢
      rw [abs_of_pos hx, abs_of_pos hy] at hlt
      rw [abs_of_pos hy]
      omega
    have hbelow : x ≤ 2 ^ (ulpExp y + 52) := by
      rw [← hlead]
      refine (Int.lt_zpow_iff_log_lt one_lt_two hx).mpr ?_ |>.le
      unfold ulpExp at hlt
      rw [abs_of_pos hx, abs_of_pos hy] at hlt
      omega
    have habove : (2 : ℝ) ^ (ulpExp y + 52) ≤ y := by
      rw [← hlead]
      exact Int.zpow_log_le_self one_lt_two hy
    have hk : -1074 ≤ ulpExp y + 52 := by
      have : -1074 ≤ ulpExp y := le_max_right _ _
      omega
    exact (binary64_le_zpow hk hx hbelow).trans (zpow_le_binary64 hk habove)

/-- Rounding to doubles is monotone. -/
theorem binary64_mono : Monotone binary64 := by
  intro x y h
  rcases le_total 0 x with hx | hx
  · exact binary64_le_of_nonneg hx h
  rcases le_total 0 y with hy | hy
  · have hneg := binary64_nonneg (neg_nonneg.mpr hx)
    rw [binary64_neg] at hneg
    exact (neg_nonneg.mp hneg).trans (binary64_nonneg hy)
  · have hneg := binary64_le_of_nonneg (neg_nonneg.mpr hy) (neg_le_neg h)
    rw [binary64_neg, binary64_neg] at hneg
    exact neg_le_neg_iff.mp hneg

/-- A count of less than 53 bits is a double. -/
theorem binary64_natCast {m : ℕ} (h : m < 2 ^ 53) : binary64 m = m := by
  rcases Nat.eq_zero_or_pos m with rfl | hm
  · simpa using binary64_zero
  have hpos : (0 : ℝ) < m := by exact_mod_cast hm
  have hlog : Int.log 2 (m : ℝ) < 53 := by
    refine (Int.lt_zpow_iff_log_lt one_lt_two hpos).mp ?_
    rw [show (53 : ℤ) = ((53 : ℕ) : ℤ) from rfl, zpow_natCast]
    exact_mod_cast h
  have hexp : ulpExp m ≤ 0 := by
    unfold ulpExp
    rw [abs_of_pos hpos]
    omega
  obtain ⟨n, hn⟩ := exists_mul_zpow hexp
  have hmul : (m : ℝ) = ((m * n : ℤ) : ℝ) * 2 ^ ulpExp m := by
    push_cast
    rw [mul_assoc, ← hn, zpow_zero, mul_one]
  exact le_antisymm ((binary64_le_mul hmul.le).trans hmul.ge) (hmul.le.trans (mul_le_binary64 hmul.ge))

/-- 1 is a double. -/
theorem binary64_one : binary64 1 = 1 := by
  exact_mod_cast binary64_natCast (m := 1) (by norm_num)

/-- Below 1 rounding does not reach 1 exactly when more than a quarter of the unit in the last place
of 1 is missing, and then it comes out at least half such a unit below. -/
theorem binary64_lt_one_iff (h : 0 < x) (hone : x ≤ 1) :
    (binary64 x < 1 ↔ x < 1 - 2 ^ (-54 : ℤ)) ∧ (binary64 x < 1 → binary64 x ≤ 1 - 2 ^ (-53 : ℤ)) := by
  rcases lt_or_ge x (1 / 2) with hlow | hhigh
  · have hle : binary64 x ≤ 1 / 2 := by
      have := binary64_le_zpow (k := -1) (by norm_num) h (by norm_num; linarith)
      norm_num at this
      linarith
    exact ⟨iff_of_true (hle.trans_lt (by norm_num)) (hlow.trans_le (by norm_num)),
      fun _ => hle.trans (by norm_num)⟩
  rcases hone.eq_or_lt with rfl | hlt
  · rw [binary64_one]
    refine ⟨iff_of_false (lt_irrefl _) ?_, fun h => absurd h (lt_irrefl _)⟩
    have : (0 : ℝ) < 2 ^ (-54 : ℤ) := by positivity
    linarith
  have hlog : Int.log 2 x = -1 := by
    refine le_antisymm ?_ ?_
    · have := (Int.lt_zpow_iff_log_lt one_lt_two h).mp (show x < ((2 : ℕ) : ℝ) ^ (0 : ℤ) by simpa using hlt)
      omega
    · refine (Int.zpow_le_iff_le_log one_lt_two h).mp ?_
      norm_num
      linarith
  have hexp : ulpExp x = -53 := by
    unfold ulpExp
    rw [abs_of_pos h, hlog]
    norm_num
  have hpos : (0 : ℝ) < 2 ^ (-53 : ℤ) := by positivity
  have hunit : (1 : ℝ) = ((2 ^ 53 : ℤ) : ℝ) * 2 ^ (-53 : ℤ) := by norm_num
  have hround : binary64 x < 1 ↔ roundHalfEven (x / 2 ^ (-53 : ℤ)) < 2 ^ 53 := by
    rw [binary64, hexp]
    conv_lhs => rw [hunit]
    rw [mul_lt_mul_iff_of_pos_right hpos]
    exact Int.cast_lt
  refine ⟨?_, fun hbelow => ?_⟩
  · rw [hround, roundHalfEven_lt_iff ⟨2 ^ 52, by norm_num⟩, div_lt_iff₀ hpos]
    norm_num
  · have hle : roundHalfEven (x / 2 ^ (-53 : ℤ)) ≤ 2 ^ 53 - 1 := by
      have := hround.mp hbelow
      omega
    have hcast : (roundHalfEven (x / 2 ^ (-53 : ℤ)) : ℝ) ≤ 2 ^ 53 - 1 := by exact_mod_cast hle
    rw [binary64, hexp]
    calc (roundHalfEven (x / 2 ^ (-53 : ℤ)) : ℝ) * 2 ^ (-53 : ℤ)
        ≤ (2 ^ 53 - 1) * 2 ^ (-53 : ℤ) := mul_le_mul_of_nonneg_right hcast hpos.le
      _ = 1 - 2 ^ (-53 : ℤ) := by norm_num

end RpsServe
