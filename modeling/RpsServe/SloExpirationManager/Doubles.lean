import RpsServe.SloExpirationManager.Dominance

/-!
# The urgency score in double precision

The same computations with the arithmetic that the code runs in: every sum, difference, product
and quotient is rounded, and `math.exp`, `**`, `math.log` and `np.mean` are those of the libraries.
What is known of these is stated as laws; the exact functions over the reals have them, and so
have the nearest doubles.
-/

namespace RpsServe

/-- The arithmetic of the score. -/
structure DoubleMath where
  /-- What the result of an operation is rounded to. -/
  rnd : ℝ → ℝ
  /-- `math.exp`. -/
  exp : ℝ → ℝ
  /-- `**` at a base that is not negative, before the test for an overflow. -/
  pow : ℝ → ℝ → ℝ
  /-- `math.log` in its domain. -/
  log : ℝ → ℝ
  /-- `np.mean`. -/
  mean : List ℝ → ℝ
  /-- The largest double. -/
  largest : WithTop ℝ
  /-- How far below 0 the argument may be for `math.exp` to return 1. -/
  tiny : ℝ

namespace DoubleMath

/-- What the arithmetic promises. -/
structure Lawful (M : DoubleMath) : Prop where
  rnd_mono : Monotone M.rnd
  rnd_neg : ∀ x, M.rnd (-x) = -M.rnd x
  rnd_rnd : ∀ x, M.rnd (M.rnd x) = M.rnd x
  rnd_natCast : ∀ n : ℕ, n < 2 ^ 53 → M.rnd n = n
  rnd_zpow : ∀ k : ℤ, -1074 ≤ k → M.rnd (2 ^ k) = 2 ^ k
  exp_nonneg : ∀ x, 0 ≤ M.exp x
  exp_le_one : ∀ x ≤ 0, M.exp x ≤ 1
  exp_lt_one_iff : ∀ x, 0 ≤ x → (M.exp (-x) < 1 ↔ M.tiny < x)
  sub_exp_pos : ∀ x, M.exp x < 1 → 0 < M.rnd (1 - M.exp x)
  tiny_nonneg : 0 ≤ M.tiny
  tiny_le : M.tiny ≤ 2 ^ (-53 : ℤ)
  pow_nonneg : ∀ x p, 0 ≤ x → 0 ≤ M.pow x p
  one_le_pow : ∀ x p, 1 ≤ x → 0 ≤ p → 1 ≤ M.pow x p
  mean_nonneg : ∀ ages, (∀ age ∈ ages, 0 ≤ age) → 0 ≤ M.mean ages

variable (M : DoubleMath)

/-! ### The statistics -/

/-- `ExponentialMovingAverage.update`. -/
noncomputable def emaUpdate (m : ExponentialMovingAverage) (value : ℝ) :
    ExponentialMovingAverage where
  alpha := m.alpha
  ema := match m.ema with
    | none => some value
    | some ema => some (M.rnd (M.rnd (M.rnd m.alpha * value) +
        M.rnd (M.rnd (1 - M.rnd m.alpha) * ema)))
  curr := some value

/-- `np.mean(ages or [0.0])`. -/
noncomputable def meanAge (ages : List ℝ) : ℝ := M.mean (if ages = [] then [0] else ages)

/-- A category's statistics, updated with the ages of its requests. -/
noncomputable def statsUpdate (s : CategoryStats) (ages : List ℝ) : CategoryStats where
  queueSize := M.emaUpdate s.queueSize (M.rnd ages.length)
  queueAge := M.emaUpdate s.queueAge (M.meanAge ages)

/-- `request.age = now - request.arrival_time`. -/
noncomputable def aged (now : ℝ) (q : ScoredRequest) : ScoredRequest :=
  { q with age := M.rnd (now - q.arrivalTime) }

/-- `update_queue_stats` at the clock reading `now`. -/
noncomputable def updateQueueStats (now : ℝ) (requests : List ScoredRequest) (s : QueueStats) :
    Except ScoreError (QueueStats × List ScoredRequest) :=
  if requests.any fun q => q.requestMd.isNone then .error .attributeError
  else
    let requests := requests.map (M.aged now)
    .ok ({ sand := M.statsUpdate s.sand (agesOf .sand requests)
           pebbles := M.statsUpdate s.pebbles (agesOf .pebbles requests)
           rocks := M.statsUpdate s.rocks (agesOf .rocks requests) }, requests)

/-! ### The score -/

/-- The boost of a category whose queue is older or longer than on average. -/
noncomputable def boost (avgQueueAge queueAge queueSize avgQueueSize : ℝ) : ℤ :=
  let lenRatio := M.rnd (queueSize / M.rnd (avgQueueSize + M.rnd eps))
  let ageRatio := M.rnd (queueAge / M.rnd (avgQueueAge + M.rnd eps))
  let excess := max 0 (M.rnd (M.rnd (M.rnd 0.7 * M.rnd (ageRatio - 1)) +
    M.rnd (M.rnd 0.3 * M.rnd (lenRatio - 1))))
  let rise := M.rnd (1 - M.exp (M.rnd (-2.0 * excess)))
  roundHalfEven (M.rnd (1 + M.rnd (M.rnd (3.0 - 1) * rise)))

/-- `compute_score`. -/
noncomputable def computeScore (policy : SchedulingPolicy) (q : ScoredRequest)
    (avgQueueAge queueAge queueSize avgQueueSize : ℝ) : Except ScoreError ℝ :=
  if policy ≠ .priority ∧ policy ≠ .waitOnly then .ok 1
  else
    match q.category.bind categoryParams with
    | none => .ok 1
    | some params =>
      if M.rnd (avgQueueSize + M.rnd eps) = 0 ∨ M.rnd (avgQueueAge + M.rnd eps) = 0 then
        .error .zeroDivisionError
      else
        let offset := if policy = .priority then M.rnd params.rpsOffset else 0
        let kEff := M.rnd (M.rnd params.kBase * M.boost avgQueueAge queueAge queueSize avgQueueSize)
        if q.age < 0 then .error .typeError
        else
          let power := M.pow q.age (M.rnd params.p)
          if M.largest < power then .error .overflowError
          else .ok (M.rnd (M.rnd (1 - M.exp (M.rnd (-kEff * power))) + offset))

/-- The score of a request by the statistics of its category. -/
noncomputable def score (policy : SchedulingPolicy) (q : ScoredRequest) (s : CategoryStats) :
    Except ScoreError ℝ :=
  match s.queueAge.ema, s.queueAge.curr, s.queueSize.curr, s.queueSize.ema with
  | some avgQueueAge, some queueAge, some queueSize, some avgQueueSize =>
    M.computeScore policy q avgQueueAge queueAge queueSize avgQueueSize
  | _, _, _, _ => .error .typeError

/-- The priority of one request: the negated logarithm of its score. -/
noncomputable def scorePriority (policy : SchedulingPolicy) (s : QueueStats) (q : ScoredRequest) :
    Except ScoreError ℝ :=
  match q.requestMd with
  | none => .error .attributeError
  | some md =>
    match md.category.bind s.of with
    | none => .ok (-M.log (M.rnd minScore))
    | some stats => do
      let score ← M.score policy q stats
      if score ≤ 0 then .error .valueError else .ok (-M.log score)

/-- `update_priorities` under a score policy: the requests in the order of their ranks, which
are their new priorities. -/
noncomputable def rankByScore (policy : SchedulingPolicy) (s : QueueStats)
    (requests : List ScoredRequest) : Except ScoreError (List ScoredRequest) := do
  let requests ← requests.mapM fun q => do
    let p ← M.scorePriority policy s q
    .ok { q with priority := p }
  let scored := sortBy (fun q => toLex (q.priority, q.arrivalTime)) requests
  .ok (scored.mapIdx fun i q => { q with priority := i + 1 })

/-- What `schedule` does under a score policy: the statistics are updated, then the live
requests are ranked. -/
noncomputable def rankStep (policy : SchedulingPolicy) (now : ℝ) (requests : List ScoredRequest)
    (s : QueueStats) : Except ScoreError (QueueStats × List ScoredRequest) := do
  let (s, requests) ← M.updateQueueStats now requests s
  let ranked ← M.rankByScore policy s requests
  .ok (s, ranked)

/-! ### Exact arithmetic -/

/-- Nothing is rounded. -/
noncomputable def unrounded : DoubleMath where
  rnd x := x
  exp := Real.exp
  pow x p := x ^ p
  log := Real.log
  mean ages := ages.sum / ages.length
  largest := ⊤
  tiny := 0

/-- Exact arithmetic is lawful. -/
theorem unrounded_lawful : unrounded.Lawful where
  rnd_mono := monotone_id
  rnd_neg _ := rfl
  rnd_rnd _ := rfl
  rnd_natCast _ _ := rfl
  rnd_zpow _ _ := rfl
  exp_nonneg x := (Real.exp_pos x).le
  exp_le_one _ hx := Real.exp_le_one_iff.mpr hx
  exp_lt_one_iff x _ := by
    show Real.exp (-x) < 1 ↔ 0 < x
    rw [Real.exp_lt_one_iff, neg_lt_zero]
  sub_exp_pos _ hx := sub_pos.mpr hx
  tiny_nonneg := le_rfl
  tiny_le := by
    show (0 : ℝ) ≤ 2 ^ (-53 : ℤ)
    positivity
  pow_nonneg _ p hx := Real.rpow_nonneg hx p
  one_le_pow _ _ hx hp := Real.one_le_rpow hx hp
  mean_nonneg _ h := div_nonneg (List.sum_nonneg h) (Nat.cast_nonneg _)

/-- Without rounding the statistics are those over the reals. -/
theorem unrounded_updateQueueStats (now : ℝ) (requests : List ScoredRequest) (s : QueueStats) :
    unrounded.updateQueueStats now requests s = RpsServe.updateQueueStats now requests s := by
  have hema : ∀ m v, unrounded.emaUpdate m v = m.update v := fun _ _ => rfl
  have hmean : ∀ ages, unrounded.meanAge ages = RpsServe.meanAge ages := fun ages => by
    unfold meanAge RpsServe.meanAge
    split
    · simp [unrounded]
    · rfl
  have hstats : ∀ s ages, unrounded.statsUpdate s ages = CategoryStats.update s ages := fun s ages => by
    unfold statsUpdate CategoryStats.update
    rw [hema, hema, hmean]
    rfl
  unfold updateQueueStats RpsServe.updateQueueStats
  simp only [hstats]
  rfl

/-- Without rounding the score is the one over the reals. -/
theorem unrounded_computeScore (policy : SchedulingPolicy) (q : ScoredRequest)
    (avgQueueAge queueAge queueSize avgQueueSize : ℝ) :
    unrounded.computeScore policy q avgQueueAge queueAge queueSize avgQueueSize =
      RpsServe.computeScore policy q avgQueueAge queueAge queueSize avgQueueSize := by
  have hboost : unrounded.boost avgQueueAge queueAge queueSize avgQueueSize =
      RpsServe.boost avgQueueAge queueAge queueSize avgQueueSize := rfl
  have hcurve : ∀ k p : ℝ, 1 - Real.exp (-k * q.age ^ p) = saturation k p q.age := fun k p => by
    rw [saturation, neg_mul]
  unfold computeScore RpsServe.computeScore
  split
  · rfl
  · cases q.category.bind categoryParams with
    | none => rfl
    | some params =>
      dsimp only
      rw [hboost]
      simp only [unrounded, not_top_lt, if_false, hcurve]

/-- Without rounding the step is the one over the reals. -/
theorem unrounded_rankStep (policy : SchedulingPolicy) (now : ℝ) (requests : List ScoredRequest)
    (s : QueueStats) : unrounded.rankStep policy now requests s =
      RpsServe.rankStep policy now requests s := by
  have hcompute : unrounded.computeScore = RpsServe.computeScore := by
    funext policy q avgQueueAge queueAge queueSize avgQueueSize
    exact unrounded_computeScore policy q avgQueueAge queueAge queueSize avgQueueSize
  have hscore : ∀ q stats, unrounded.score policy q stats = CategoryStats.score policy q stats :=
    fun q stats => by
      unfold score CategoryStats.score
      exact hcompute ▸ rfl
  have hpriority : ∀ s q, unrounded.scorePriority policy s q = RpsServe.scorePriority policy s q :=
    fun s q => by
      unfold scorePriority RpsServe.scorePriority
      simp only [hscore]
      rfl
  unfold rankStep RpsServe.rankStep rankByScore RpsServe.rankByScore
  simp only [unrounded_updateQueueStats, hpriority]

/-! ### The nearest doubles -/

/-- Double precision with correctly rounded functions, and the mean by sums from left to right. -/
noncomputable def nearest : DoubleMath where
  rnd := binary64
  exp x := binary64 (Real.exp x)
  pow x p := binary64 (x ^ p)
  log x := binary64 (Real.log x)
  mean ages := binary64 (ages.foldl (fun sum age => binary64 (sum + age)) 0 / binary64 ages.length)
  largest := largestDouble
  tiny := tinyExponent

/-- The threshold below which a correctly rounded exponential is 1. -/
theorem nearest_tiny : 0 ≤ nearest.tiny ∧ nearest.tiny ≤ 2 ^ (-53 : ℤ) := by
  have hlast : (0 : ℝ) < 2 ^ (-54 : ℤ) := by positivity
  have hpos : (0 : ℝ) < 1 - 2 ^ (-54 : ℤ) := by norm_num
  constructor
  · exact neg_nonneg.mpr (Real.log_nonpos hpos.le (by linarith))
  · show -Real.log (1 - 2 ^ (-54 : ℤ)) ≤ 2 ^ (-53 : ℤ)
    have hlog := Real.one_sub_inv_le_log_of_pos hpos
    have hbound : ((1 : ℝ) - 2 ^ (-54 : ℤ))⁻¹ ≤ 1 + 2 ^ (-53 : ℤ) := by
      rw [inv_le_iff_one_le_mul₀ hpos]
      norm_num
    calc -Real.log (1 - 2 ^ (-54 : ℤ)) ≤ -(1 - ((1 : ℝ) - 2 ^ (-54 : ℤ))⁻¹) := neg_le_neg hlog
      _ = ((1 : ℝ) - 2 ^ (-54 : ℤ))⁻¹ - 1 := neg_sub _ _
      _ ≤ 2 ^ (-53 : ℤ) := sub_le_iff_le_add'.mpr hbound

/-- The nearest doubles are lawful. -/
theorem nearest_lawful : nearest.Lawful where
  rnd_mono := binary64_mono
  rnd_neg := binary64_neg
  rnd_rnd := binary64_binary64
  rnd_natCast _ h := binary64_natCast h
  rnd_zpow _ hk := binary64_zpow hk
  exp_nonneg x := binary64_nonneg (Real.exp_pos x).le
  exp_le_one x hx := by
    have hle := binary64_mono (Real.exp_le_one_iff.mpr hx)
    rwa [binary64_one] at hle
  exp_lt_one_iff x hx := by
    have hpos : (0 : ℝ) < 1 - 2 ^ (-54 : ℤ) := by norm_num
    refine (binary64_lt_one_iff (Real.exp_pos (-x)) ?_).1.trans ?_
    · exact Real.exp_le_one_iff.mpr (neg_nonpos.mpr hx)
    · rw [← Real.lt_log_iff_exp_lt hpos]
      exact neg_lt
  sub_exp_pos x hx := by
    have hle : Real.exp x ≤ 1 := by
      by_contra hgt
      have := binary64_mono (not_le.mp hgt).le
      rw [binary64_one] at this
      exact absurd hx (not_lt.mpr this)
    have hgap := (binary64_lt_one_iff (Real.exp_pos x) hle).2 hx
    have hunit : (2 : ℝ) ^ (-53 : ℤ) ≤ 1 - nearest.exp x := by
      change binary64 (Real.exp x) ≤ _ at hgap
      change _ ≤ 1 - binary64 (Real.exp x)
      linarith
    have hpos : (0 : ℝ) < 2 ^ (-53 : ℤ) := by positivity
    exact hpos.trans_le (zpow_le_binary64 (by norm_num) hunit)
  tiny_nonneg := nearest_tiny.1
  tiny_le := nearest_tiny.2
  pow_nonneg _ p hx := binary64_nonneg (Real.rpow_nonneg hx p)
  one_le_pow x p hx hp := by
    have hle := binary64_mono (Real.one_le_rpow hx hp)
    rwa [binary64_one] at hle
  mean_nonneg ages h := by
    have hsum : ∀ l : List ℝ, (∀ age ∈ l, 0 ≤ age) → ∀ sum : ℝ, 0 ≤ sum →
        0 ≤ l.foldl (fun sum age => binary64 (sum + age)) sum := by
      intro l
      induction l with
      | nil => exact fun _ _ hsum => hsum
      | cons age rest ih =>
        intro hl sum hsum
        exact ih (fun a ha => hl a (List.mem_cons_of_mem _ ha)) _
          (binary64_nonneg (add_nonneg hsum (hl age List.mem_cons_self)))
    exact binary64_nonneg
      (div_nonneg (hsum ages h 0 le_rfl) (binary64_nonneg (Nat.cast_nonneg _)))

end DoubleMath

end RpsServe
