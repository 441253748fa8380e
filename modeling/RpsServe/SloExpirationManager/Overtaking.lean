import RpsServe.SloExpirationManager.Statistics

/-!
# Overtaking under the `rps` score

All scores saturate at 1 above the static offset of their category. A request therefore
catches up with every request that is not lighter, and with a lighter one as long as that
one's curve is not within the difference of the offsets of its limit. Past that age the
lighter request stays ahead for ever.
-/

namespace RpsServe

variable {s s' : QueueStats} {requests ranked : List ScoredRequest} {c₁ c₂ : Category}
  {a b : CategoryParams} {policy : SchedulingPolicy} {now A D : ℝ}

/-- The queue statistics after any number of steps. -/
inductive ReachableStats : QueueStats → Prop
  | init : ReachableStats {}
  | step {s s' : QueueStats} {requests ranked : List ScoredRequest} {now : ℝ} :
      ReachableStats s →
      rankStep .priority now requests s = .ok (s', ranked) → ReachableStats s'

/-- In a step after the statistics `s`, a request of the category `c₁` that arrived at least `D`
earlier than one of `c₂` has the smaller rank, if the age of the latter is as given. -/
def RanksEarlier (c₁ c₂ : Category) (D : ℝ) (age : ℝ → Prop) (s : QueueStats) : Prop :=
  ∀ s' requests ranked now, rankStep .priority now requests s = .ok (s', ranked) →
    ∀ x₁ ∈ ranked, ∀ x₂ ∈ ranked, x₁.category = some c₁ → x₂.category = some c₂ →
      x₁.arrivalTime + D ≤ x₂.arrivalTime → age x₂.age → x₁.priority < x₂.priority

/-- A step ranks its requests at their ages. -/
theorem rankStep_eq_ok (h : rankStep policy now requests s = .ok (s', ranked)) :
    rankByScore policy s' (requests.map (·.aged now)) = .ok ranked := by
  obtain ⟨⟨s₁, aged⟩, hupdate, h⟩ := bind_eq_ok.mp h
  obtain ⟨ranked', hranked, h⟩ := bind_eq_ok.mp h
  cases h
  unfold updateQueueStats at hupdate
  split at hupdate
  · cases hupdate
  · cases hupdate
    exact hranked

/-- The age written is the time since the arrival. -/
theorem age_of_aged : ∀ q ∈ requests.map (·.aged now), q.age = now - q.arrivalTime := by
  intro q hq
  obtain ⟨q', -, rfl⟩ := List.mem_map.mp hq
  rfl

/-- A request catches up, within a time that does not depend on the statistics, with every request
up to the age `A`, if at that age the other curve lacks more of its limit than the offsets
differ by. -/
theorem exists_scoreAt_gt (ha : categoryParams c₁ = some a) (hb : categoryParams c₂ = some b)
    (hroom : b.rpsOffset - a.rpsOffset < Real.exp (-(b.kBase * 3 * A ^ b.p))) :
    ∃ D, 0 ≤ D ∧ ∀ (s : QueueStats) (age₁ age₂ : ℝ), 0 ≤ age₂ → age₂ ≤ A → D ≤ age₁ →
      b.scoreAt (s.boost c₂) age₂ < a.scoreAt (s.boost c₁) age₁ := by
  obtain ⟨hka, hpa⟩ := categoryParams_pos ha
  obtain ⟨hkb, hpb⟩ := categoryParams_pos hb
  obtain ⟨D, hD, hreach⟩ := exists_saturation_gt hka hpa (sub_pos.mpr hroom)
  refine ⟨D, hD, fun s age₁ age₂ hage₂ hyoung hold => ?_⟩
  have hone : (1 : ℝ) ≤ s.boost c₁ := by exact_mod_cast (s.boost_bounds c₁).1
  have hthree : (s.boost c₂ : ℝ) ≤ 3 := by exact_mod_cast (s.boost_bounds c₂).2
  have hmost : saturation (b.kBase * s.boost c₂) b.p age₂ ≤ saturation (b.kBase * 3) b.p A :=
    saturation_le_saturation (mul_le_mul (mul_le_mul_of_nonneg_left hthree hkb.le)
      (Real.rpow_le_rpow hage₂ hyoung hpb.le) (Real.rpow_nonneg hage₂ _) (by positivity))
  have hleast : saturation a.kBase a.p age₁ ≤ saturation (a.kBase * s.boost c₁) a.p age₁ :=
    saturation_le_saturation (mul_le_mul_of_nonneg_right (le_mul_of_one_le_right hka.le hone)
      (Real.rpow_nonneg (hD.trans hold) _))
  have hlimit := hreach age₁ hold
  have hlast : saturation (b.kBase * 3) b.p A = 1 - Real.exp (-(b.kBase * 3 * A ^ b.p)) := rfl
  rw [hlast] at hmost
  unfold CategoryParams.scoreAt
  linarith

/-- Once the curve of a request is within the difference of the offsets of its limit, no request
of a category with the smaller offset is ahead of it. -/
theorem scoreAt_lt_saturated {age₁ age₂ : ℝ} {boost : ℤ} (hb : categoryParams c₂ = some b)
    (hage : 0 ≤ age₂)
    (hsat : Real.exp (-(b.kBase * age₂ ^ b.p)) ≤ b.rpsOffset - a.rpsOffset) :
    a.scoreAt boost age₁ < b.scoreAt (s.boost c₂) age₂ := by
  obtain ⟨hkb, -⟩ := categoryParams_pos hb
  have hone : (1 : ℝ) ≤ s.boost c₂ := by exact_mod_cast (s.boost_bounds c₂).1
  have hleast : saturation b.kBase b.p age₂ ≤ saturation (b.kBase * s.boost c₂) b.p age₂ :=
    saturation_le_saturation (mul_le_mul_of_nonneg_right (le_mul_of_one_le_right hkb.le hone)
      (Real.rpow_nonneg hage _))
  have hlimit := saturation_lt_one (a.kBase * boost) a.p age₁
  unfold CategoryParams.scoreAt
  rw [saturation] at hleast
  linarith

/-- The first step returns, when its requests have metadata and arrived before it. -/
theorem rankStep_total (h : ∀ q ∈ requests, q.requestMd.isSome ∧ q.arrivalTime < now) :
    ∃ s' ranked, rankStep .priority now requests {} = .ok (s', ranked) := by
  have hnone : (requests.any fun q => q.requestMd.isNone) = false := by
    rw [List.any_eq_false]
    intro q hq
    rw [Option.isNone_iff_eq_none]
    exact fun hmd => by simpa [hmd] using (h q hq).1
  set aged := requests.map (·.aged now)
  have haged : ∀ q ∈ aged, q.requestMd.isSome ∧ 0 < q.age := by
    intro q hq
    obtain ⟨q', hq', rfl⟩ := List.mem_map.mp hq
    exact ⟨(h q' hq').1, sub_pos.mpr (h q' hq').2⟩
  obtain ⟨s', hupdate⟩ : ∃ s', updateQueueStats now requests {} = .ok (s', aged) := by
    unfold updateQueueStats
    rw [hnone]
    exact ⟨_, rfl⟩
  have hnonneg := (QueueStats.Fresh.init.update hupdate fun q hq => (h q hq).2.le).1
  obtain ⟨ranked, hranked⟩ := rankByScore_total fun q hq =>
    scorePriority_total hnonneg (.inl rfl) (haged q hq).1 (haged q hq).2
  exact ⟨_, ranked, bind_eq_ok.mpr ⟨_, hupdate, bind_eq_ok.mpr ⟨ranked, hranked, rfl⟩⟩⟩

/-- A video request that arrived at a time, and a text request that arrived at 0. -/
noncomputable def rocksAndSand (arrivalTime : ℝ) : List ScoredRequest :=
  [{ requestId := 1, arrivalTime := arrivalTime, requestMd := some { category := some .rocks } },
    { requestId := 2, arrivalTime := 0, requestMd := some { category := some .sand } }]

/-- Both requests have metadata and arrived before a positive clock reading. -/
theorem rocksAndSand_ready (D : ℝ) {now : ℝ} (hnow : 0 < now) :
    ∀ q ∈ rocksAndSand (-|D|), q.requestMd.isSome ∧ q.arrivalTime < now := by
  have hneg : -|D| < now := by linarith [abs_nonneg D]
  simp only [rocksAndSand, List.mem_cons, List.not_mem_nil, or_false, forall_eq_or_imp, forall_eq]
  exact ⟨⟨rfl, hneg⟩, rfl, hnow⟩

/-- For each ordered pair of categories there is a bound, whatever the requests and the statistics
are, for overtaking by requests up to an age at which their curve still lacks more of its limit
than the offsets differ by; and there is one for overtaking at any age if the second category
is not the lighter one. -/
theorem overtaking_bounded (hc₂ : c₂ ≠ .other) :
    (c₁.weight ≤ c₂.weight → ∃ D, ∀ s, RanksEarlier c₁ c₂ D (fun _ => True) s) ∧
      ∀ a b A, categoryParams c₁ = some a → categoryParams c₂ = some b →
        b.rpsOffset - a.rpsOffset < Real.exp (-(b.kBase * 3 * A ^ b.p)) →
        ∃ D, ∀ s, RanksEarlier c₁ c₂ D (· ≤ A) s := by
  constructor
  · intro hweight
    refine ⟨1, fun s s' requests ranked now h x₁ hx₁ x₂ hx₂ hcat₁ hcat₂ harrived _ => ?_⟩
    exact rps_dominates (rankStep_eq_ok h) age_of_aged hx₁ hx₂ hcat₁ hcat₂ hc₂ (by linarith) hweight
      (.inl (by linarith))
  · intro a b A ha hb hroom
    obtain ⟨D, -, hahead⟩ := exists_scoreAt_gt ha hb hroom
    refine ⟨D, fun s s' requests ranked now h x₁ hx₁ x₂ hx₂ hcat₁ hcat₂ harrived hyoung => ?_⟩
    have hranked := rankStep_eq_ok h
    refine rank_lt_of_score hranked hx₁ hx₂ hcat₁ hcat₂ ha hb fun _ hpos => ?_
    refine hahead s' _ _ hpos hyoung ?_
    have hage₁ := age_of_ranked hranked age_of_aged hx₁
    have hage₂ := age_of_ranked hranked age_of_aged hx₂
    linarith

/-- Between text and video: a bound for overtaking by video requests of any age, and one for
overtaking by text requests up to the age 1, by which a video request is ahead of a text request
in a step. -/
theorem overtaking_bounded_rocks_sand :
    (∃ D, ∀ s, RanksEarlier .sand .rocks D (fun _ => True) s) ∧
      ∃ D, (∀ s, RanksEarlier .rocks .sand D (· ≤ 1) s) ∧ ∃ s' ranked,
        rankStep .priority 1 (rocksAndSand (-|D|)) {} = .ok (s', ranked) ∧ ∃ x₁ ∈ ranked,
          ∃ x₂ ∈ ranked, x₁.requestId = 1 ∧ x₂.requestId = 2 ∧ x₁.priority < x₂.priority := by
  have hroom : (0.1 : ℝ) - 0 < Real.exp (-((0.05 : ℝ) * 3 * 1 ^ (3.5 : ℝ))) := by
    have hexp := Real.add_one_le_exp (-((0.05 : ℝ) * 3 * 1 ^ (3.5 : ℝ)))
    rw [Real.one_rpow] at hexp ⊢
    norm_num at hexp ⊢
    linarith
  have hbound : ∃ D, ∀ s, RanksEarlier .rocks .sand D (· ≤ 1) s :=
    (overtaking_bounded (by decide)).2 _ _ 1 rfl rfl hroom
  obtain ⟨D, hD⟩ := hbound
  refine ⟨(overtaking_bounded (by decide)).1 (by decide), D, hD, ?_⟩
  obtain ⟨s', ranked, hstep⟩ := rankStep_total (rocksAndSand_ready D zero_lt_one)
  have hranked := rankStep_eq_ok hstep
  obtain ⟨x₁, hx₁, hrocks⟩ := exists_ranked hranked (q := ScoredRequest.aged 1 _)
    (List.mem_map_of_mem List.mem_cons_self)
  obtain ⟨x₂, hx₂, hsand⟩ := exists_ranked hranked (q := ScoredRequest.aged 1 _)
    (List.mem_map_of_mem (List.mem_cons_of_mem _ List.mem_cons_self))
  refine ⟨s', ranked, hstep, x₁, hx₁, x₂, hx₂, by rw [hrocks]; rfl, by rw [hsand]; rfl, ?_⟩
  refine hD {} s' _ ranked 1 hstep x₁ hx₁ x₂ hx₂ (by rw [hrocks]; rfl) (by rw [hsand]; rfl) ?_ ?_
  · rw [hrocks, hsand]
    simp [ScoredRequest.aged, le_abs_self]
  · rw [hsand]
    norm_num [ScoredRequest.aged]

/-! ### Lighter requests that are old enough are never caught -/

/-- However much earlier a video request arrived, a text request of age 10 is ahead of it, so no
bound holds between the two categories. -/
theorem no_bound_on_sand : ¬ ∀ c₁ c₂, c₁ ≠ .other → c₂ ≠ .other →
    ∃ D, ∀ s, ReachableStats s → RanksEarlier c₁ c₂ D (fun _ => True) s := by
  intro hclaim
  obtain ⟨D, hD⟩ := hclaim .rocks .sand (by decide) (by decide)
  obtain ⟨s', ranked, hstep⟩ := rankStep_total (rocksAndSand_ready D (show (0 : ℝ) < 10 by norm_num))
  have hranked := rankStep_eq_ok hstep
  obtain ⟨x₁, hx₁, hrocks⟩ := exists_ranked hranked (q := ScoredRequest.aged 10 _)
    (List.mem_map_of_mem List.mem_cons_self)
  obtain ⟨x₂, hx₂, hsand⟩ := exists_ranked hranked (q := ScoredRequest.aged 10 _)
    (List.mem_map_of_mem (List.mem_cons_of_mem _ List.mem_cons_self))
  have hc₁ : x₁.category = some .rocks := by rw [hrocks]; rfl
  have hc₂ : x₂.category = some .sand := by rw [hsand]; rfl
  have hage₂ : x₂.age = 10 := by
    rw [hsand]
    norm_num [ScoredRequest.aged]
  have hahead := hD {} .init s' _ ranked 10 hstep x₁ hx₁ x₂ hx₂ hc₁ hc₂ (by
    rw [hrocks, hsand]
    simp [ScoredRequest.aged, le_abs_self]) trivial
  have hsat : Real.exp (-((0.05 : ℝ) * 10 ^ (3.5 : ℝ))) ≤ 0.1 - 0 := by
    have hpow : (10 : ℝ) ^ (3 : ℝ) ≤ 10 ^ (3.5 : ℝ) :=
      Real.rpow_le_rpow_of_exponent_le (by norm_num) (by norm_num)
    have hten : (10 : ℝ) ≤ Real.exp (0.05 * 10 ^ (3.5 : ℝ)) := by
      have hexp := Real.add_one_le_exp ((0.05 : ℝ) * 10 ^ (3.5 : ℝ))
      norm_num at hpow hexp ⊢
      linarith
    rw [Real.exp_neg]
    exact (inv_anti₀ (by norm_num) hten).trans (by norm_num)
  have hbehind := rank_lt_of_score hranked hx₂ hx₁ hc₂ hc₁ rfl rfl fun _ _ => by
    rw [hage₂]
    exact scoreAt_lt_saturated rfl (by norm_num) hsat
  exact lt_asymm hahead hbehind

end RpsServe
