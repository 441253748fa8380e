import Mathlib.Analysis.SpecialFunctions.Pow.Real
import Mathlib.Analysis.SpecialFunctions.Log.Basic

/-!
# Saturating curves

`1 - exp (-(k * t ^ p))` grows from 0 at `t = 0` towards 1. Two curves are compared over all
times at once: a curve with the larger rate and the larger exponent is ahead from time 1 on,
and before it the other curve has not risen above its own rate.
-/

namespace RpsServe

/-- The saturating curve of rate `k` and exponent `p`. -/
noncomputable def saturation (k p t : ℝ) : ℝ := 1 - Real.exp (-(k * t ^ p))

section Saturation

variable {k k₁ k₂ p p₁ p₂ s t δ : ℝ}

/-- A saturating curve stays below one. -/
theorem saturation_lt_one (k p t : ℝ) : saturation k p t < 1 :=
  sub_lt_self 1 (Real.exp_pos _)

/-- A curve is below its exponent. -/
theorem saturation_le_mul (k p t : ℝ) : saturation k p t ≤ k * t ^ p := by
  have hexp := Real.add_one_le_exp (-(k * t ^ p))
  rw [saturation]
  linarith

/-- Curves compare as their exponents do. -/
theorem saturation_le_saturation (h : k₁ * s ^ p₁ ≤ k₂ * t ^ p₂) :
    saturation k₁ p₁ s ≤ saturation k₂ p₂ t := by
  have hexp := Real.exp_le_exp.mpr (neg_le_neg h)
  rw [saturation, saturation]
  linarith

/-- A saturating curve is not negative. -/
theorem saturation_nonneg (hk : 0 ≤ k) (ht : 0 ≤ t) : 0 ≤ saturation k p t := by
  have hexp : Real.exp (-(k * t ^ p)) ≤ 1 :=
    Real.exp_le_one_iff.mpr (neg_nonpos.mpr (mul_nonneg hk (Real.rpow_nonneg ht p)))
  rw [saturation]
  linarith

/-- A curve of positive rate and exponent rises strictly. -/
theorem saturation_lt_saturation (hk : 0 < k) (hp : 0 < p) (hs : 0 ≤ s) (hst : s < t) :
    saturation k p s < saturation k p t := by
  have hpow := mul_lt_mul_of_pos_left (Real.rpow_lt_rpow hs hst hp) hk
  have hexp := Real.exp_lt_exp.mpr (neg_lt_neg hpow)
  rw [saturation, saturation]
  linarith

/-- The larger rate and exponent, with a lead of more than the other rate, is ahead of every
earlier point of the other curve. -/
theorem saturation_lt_add (hk₂ : 0 ≤ k₂) (hk : k₂ ≤ k₁) (hp₂ : 0 < p₂) (hp : p₂ ≤ p₁)
    (hδ : k₂ < δ) (ht : 0 ≤ t) (hts : t ≤ s) :
    saturation k₂ p₂ t < saturation k₁ p₁ s + δ := by
  have hk₁ : 0 ≤ k₁ := hk₂.trans hk
  rcases le_total 1 t with hone | hone
  · have hpow : k₂ * t ^ p₂ ≤ k₁ * s ^ p₁ :=
      calc k₂ * t ^ p₂ ≤ k₁ * t ^ p₁ :=
            mul_le_mul hk (Real.rpow_le_rpow_of_exponent_le hone hp) (Real.rpow_nonneg ht _) hk₁
        _ ≤ k₁ * s ^ p₁ := mul_le_mul_of_nonneg_left
            (Real.rpow_le_rpow ht hts (hp₂.le.trans hp)) hk₁
    have hle := saturation_le_saturation hpow
    linarith
  · have hearly : k₂ * t ^ p₂ ≤ k₂ :=
      mul_le_of_le_one_right hk₂ (Real.rpow_le_one ht hone hp₂.le)
    have hle := saturation_le_mul k₂ p₂ t
    have hpos := saturation_nonneg (p := p₁) hk₁ (ht.trans hts)
    linarith

/-- A curve of positive rate and exponent comes as close to 1 as one likes, and stays there. -/
theorem exists_saturation_gt (hk : 0 < k) (hp : 0 < p) (hδ : 0 < δ) :
    ∃ D, 0 ≤ D ∧ ∀ t, D ≤ t → 1 - δ < saturation k p t := by
  refine ⟨(max 0 (-Real.log δ / k) + 1) ^ p⁻¹, Real.rpow_nonneg (by positivity) _, fun t ht => ?_⟩
  have hbase : 0 ≤ max 0 (-Real.log δ / k) + 1 := by positivity
  have hpow : max 0 (-Real.log δ / k) + 1 ≤ t ^ p :=
    calc max 0 (-Real.log δ / k) + 1
        = ((max 0 (-Real.log δ / k) + 1) ^ p⁻¹) ^ p := by
          rw [← Real.rpow_mul hbase, inv_mul_cancel₀ hp.ne', Real.rpow_one]
      _ ≤ t ^ p := Real.rpow_le_rpow (Real.rpow_nonneg hbase _) ht hp.le
  have hlog : -Real.log δ < k * t ^ p := by
    have hlt : -Real.log δ / k < t ^ p := by
      have hmax := le_max_right 0 (-Real.log δ / k)
      linarith
    rw [div_lt_iff₀ hk] at hlt
    linarith
  have hexp : Real.exp (-(k * t ^ p)) < δ := by
    rw [← Real.lt_log_iff_exp_lt hδ]
    linarith
  rw [saturation]
  linarith

end Saturation

end RpsServe
