import RpsServe.SloExpirationManager.Score

/-!
# Priority dominance under the `rps` score

The score of a request is a saturating curve of its age above the static offset of its
category; the queue statistics only move the rate of the curve, by a factor between 1 and 3.
A lighter category has the larger rate, exponent and offset, so it stays ahead of a heavier
one at every age and for all statistics.
-/

namespace RpsServe

variable {policy : SchedulingPolicy} {s : QueueStats} {requests ranked : List ScoredRequest}
  {q x x₁ x₂ : ScoredRequest} {c c₁ c₂ : Category} {p : ℝ}

/-! ### The boost -/

/-- Whatever the statistics are, the boost is 1, 2 or 3. -/
theorem boost_bounds (avgQueueAge queueAge queueSize avgQueueSize : ℝ) :
    1 ≤ boost avgQueueAge queueAge queueSize avgQueueSize ∧
      boost avgQueueAge queueAge queueSize avgQueueSize ≤ 3 := by
  unfold boost
  extract_lets lenRatio ageRatio excess
  have hexcess : 0 ≤ excess := le_max_left _ _
  have hexp : Real.exp (-2.0 * excess) ≤ 1 := Real.exp_le_one_iff.mpr (by norm_num; linarith)
  have hpos := Real.exp_pos (-2.0 * excess)
  constructor
  · refine le_roundHalfEven ?_
    push_cast
    linarith
  · refine roundHalfEven_le ?_
    push_cast
    linarith

/-- The boost of a category by its statistics. -/
noncomputable def CategoryStats.boost (s : CategoryStats) : ℤ :=
  match s.queueAge.ema, s.queueAge.curr, s.queueSize.curr, s.queueSize.ema with
  | some avgQueueAge, some queueAge, some queueSize, some avgQueueSize =>
    RpsServe.boost avgQueueAge queueAge queueSize avgQueueSize
  | _, _, _, _ => 1

/-- The boost of a category is between one and three. -/
theorem CategoryStats.boost_bounds (s : CategoryStats) : 1 ≤ s.boost ∧ s.boost ≤ 3 := by
  unfold CategoryStats.boost
  split
  · exact RpsServe.boost_bounds _ _ _ _
  · exact ⟨le_rfl, by decide⟩

/-! ### What is ranked -/

/-- The score of a category at an age and a boost. -/
noncomputable def CategoryParams.scoreAt (params : CategoryParams) (boost : ℤ) (age : ℝ) : ℝ :=
  saturation (params.kBase * boost) params.p age + params.rpsOffset

/-- The boost that the statistics give a category. -/
noncomputable def QueueStats.boost (s : QueueStats) (c : Category) : ℤ :=
  match s.of c with
  | some stats => stats.boost
  | none => 1

/-- The boost of every category is between one and three. -/
theorem QueueStats.boost_bounds (s : QueueStats) (c : Category) : 1 ≤ s.boost c ∧ s.boost c ≤ 3 := by
  unfold QueueStats.boost
  split
  · exact CategoryStats.boost_bounds _
  · exact ⟨le_rfl, by decide⟩

/-- The priority of a request of a recognised category under `rps`. -/
theorem scorePriority_eq_ok {params : CategoryParams} (hc : q.category = some c)
    (hparams : categoryParams c = some params) (h : scorePriority .priority s q = .ok p) :
    0 ≤ q.age ∧ 0 < params.scoreAt (s.boost c) q.age ∧
      p = -Real.log (params.scoreAt (s.boost c) q.age) := by
  unfold scorePriority at h
  unfold ScoredRequest.category at hc
  cases hmd : q.requestMd with
  | none => simp [hmd] at hc
  | some md =>
    rw [hmd] at h hc
    have hcat : md.category = some c := hc
    obtain ⟨stats, hstats⟩ : ∃ stats, s.of c = some stats := by
      cases c with
      | sand | pebbles | rocks => exact ⟨_, rfl⟩
      | other => cases hparams
    dsimp only at h
    rw [hcat, Option.bind_some, hstats] at h
    obtain ⟨score, hscore, h⟩ := bind_eq_ok.mp h
    have hboost : s.boost c = stats.boost := by rw [QueueStats.boost, hstats]
    have hat : 0 ≤ q.age ∧ score = params.scoreAt stats.boost q.age := by
      unfold CategoryStats.score at hscore
      split at hscore
      · rename_i havgAge hage' hsize havgSize
        unfold computeScore ScoredRequest.category at hscore
        rw [if_neg (by simp), hmd, Option.bind_some, hcat, Option.bind_some, hparams] at hscore
        dsimp only at hscore
        split at hscore
        · cases hscore
        · split at hscore
          · cases hscore
          · rename_i hage
            cases hscore
            rw [CategoryStats.boost, havgAge, hage', hsize, havgSize, if_pos rfl]
            exact ⟨not_lt.mp hage, rfl⟩
      · cases hscore
    split at h
    · cases h
    · rename_i hpos
      cases h
      rw [hboost, ← hat.2]
      exact ⟨hat.1, not_le.mp hpos, rfl⟩

/-- A ranked request is a given one under its rank, and the ranks follow the priorities that the
scores gave. -/
theorem rankByScore_eq_ok (h : rankByScore policy s requests = .ok ranked) :
    (∀ x ∈ ranked, ∃ q ∈ requests, x = { q with priority := x.priority } ∧
      ∃ p, scorePriority policy s x = .ok p) ∧
    ∀ x₁ ∈ ranked, ∀ x₂ ∈ ranked, ∀ p₁ p₂, scorePriority policy s x₁ = .ok p₁ →
      scorePriority policy s x₂ = .ok p₂ → p₁ < p₂ → x₁.priority < x₂.priority := by
  obtain ⟨scored, hscored, h⟩ := bind_eq_ok.mp h
  cases h
  have horigin : ∀ y ∈ scored, ∃ q ∈ requests, y = { q with priority := y.priority } ∧
      scorePriority policy s y = .ok y.priority := by
    intro y hy
    obtain ⟨q, hq, hwrite⟩ := mem_of_mapM_eq_ok hscored hy
    obtain ⟨p, hp, hwrite⟩ := bind_eq_ok.mp hwrite
    cases hwrite
    exact ⟨q, hq, rfl, hp⟩
  set sorted := sortBy (fun q : ScoredRequest => toLex (q.priority, q.arrivalTime)) scored
  have hmem : ∀ i (hi : i < sorted.length), sorted[i] ∈ scored := fun i hi =>
    mem_sortBy.mp (List.getElem_mem hi)
  constructor
  · intro x hx
    obtain ⟨i, hi, rfl⟩ := List.mem_mapIdx.mp hx
    obtain ⟨q, hq, hy, hp⟩ := horigin _ (hmem i hi)
    refine ⟨q, hq, ?_, _, hp⟩
    rw [hy]
  · intro x₁ hx₁ x₂ hx₂ p₁ p₂ hp₁ hp₂ hlt
    obtain ⟨i, hi, rfl⟩ := List.mem_mapIdx.mp hx₁
    obtain ⟨j, hj, rfl⟩ := List.mem_mapIdx.mp hx₂
    obtain ⟨-, -, -, hi'⟩ := horigin _ (hmem i hi)
    obtain ⟨-, -, -, hj'⟩ := horigin _ (hmem j hj)
    have h₁ : sorted[i].priority = p₁ := Except.ok.inj (hi'.symm.trans hp₁)
    have h₂ : sorted[j].priority = p₂ := Except.ok.inj (hj'.symm.trans hp₂)
    have hij : i < j := by
      by_contra hji
      rcases (not_lt.mp hji).lt_or_eq with hji | rfl
      · have hsorted := List.pairwise_iff_getElem.mp (sortBy_pairwise _ scored) j i hj hi hji
        have hle : sorted[j].priority ≤ sorted[i].priority := by
          rcases Prod.Lex.le_iff.mp hsorted with hlt' | ⟨heq, -⟩
          exacts [hlt'.le, heq.le]
        linarith
      · linarith
    show (i : ℝ) + 1 < j + 1
    exact_mod_cast Nat.succ_lt_succ hij

/-- Every given request is ranked. -/
theorem exists_ranked (h : rankByScore policy s requests = .ok ranked) (hq : q ∈ requests) :
    ∃ x ∈ ranked, x = { q with priority := x.priority } := by
  obtain ⟨scored, hscored, h⟩ := bind_eq_ok.mp h
  cases h
  obtain ⟨y, hy, hwrite⟩ := exists_of_mapM_eq_ok hscored hq
  obtain ⟨p, -, hwrite⟩ := bind_eq_ok.mp hwrite
  cases hwrite
  have hsorted : _ ∈ sortBy (fun q : ScoredRequest => toLex (q.priority, q.arrivalTime)) scored :=
    mem_sortBy.mpr hy
  obtain ⟨i, hi, hget⟩ := List.getElem_of_mem hsorted
  refine ⟨_, List.mem_mapIdx.mpr ⟨i, hi, rfl⟩, ?_⟩
  rw [hget]

/-! ### Dominance -/

/-- `sand < pebbles < rocks`. -/
def Category.weight : Category → ℕ
  | .sand => 0
  | .pebbles => 1
  | .rocks => 2
  | .other => 3

/-- The curves of the recognised categories rise. -/
theorem categoryParams_pos {a : CategoryParams} (ha : categoryParams c = some a) :
    0 < a.kBase ∧ 0 < a.p := by
  cases c with
  | sand | pebbles | rocks =>
    cases ha
    norm_num
  | other => cases ha

/-- A lighter category has the larger exponent, the larger rate even if only the heavier one is
boosted, and a lead in the offset of more than that rate. -/
theorem categoryParams_lighter {a b : CategoryParams} (hweight : c₁.weight < c₂.weight)
    (ha : categoryParams c₁ = some a) (hb : categoryParams c₂ = some b) :
    b.kBase * 3 ≤ a.kBase ∧ b.p ≤ a.p ∧ b.kBase * 3 < a.rpsOffset - b.rpsOffset := by
  cases c₁ <;> cases c₂ <;> simp only [categoryParams, Option.some.injEq, reduceCtorEq] at ha hb
  case sand.pebbles | sand.rocks | pebbles.rocks =>
    subst ha hb
    norm_num
  all_goals
    simp [Category.weight] at hweight

/-- The older request of a category that is not heavier has the larger score, if it is older or
lighter. -/
theorem scoreAt_lt {a b : CategoryParams} {age₁ age₂ : ℝ} (ha : categoryParams c₁ = some a)
    (hb : categoryParams c₂ = some b) (hweight : c₁.weight ≤ c₂.weight) (hage : age₂ ≤ age₁)
    (hstrict : age₂ < age₁ ∨ c₁.weight < c₂.weight) (hpos : 0 ≤ age₂) :
    b.scoreAt (s.boost c₂) age₂ < a.scoreAt (s.boost c₁) age₁ := by
  obtain ⟨hone₁, -⟩ := s.boost_bounds c₁
  obtain ⟨hone₂, hthree₂⟩ := s.boost_bounds c₂
  have hone₁ : (1 : ℝ) ≤ s.boost c₁ := by exact_mod_cast hone₁
  have hone₂ : (1 : ℝ) ≤ s.boost c₂ := by exact_mod_cast hone₂
  have hthree₂ : (s.boost c₂ : ℝ) ≤ 3 := by exact_mod_cast hthree₂
  obtain ⟨hka, hpa⟩ := categoryParams_pos ha
  obtain ⟨hkb, hpb⟩ := categoryParams_pos hb
  unfold CategoryParams.scoreAt
  rcases hweight.lt_or_eq with hlighter | hsame
  · obtain ⟨hrate, hexp, hlead⟩ := categoryParams_lighter hlighter ha hb
    have hboosted : b.kBase * s.boost c₂ ≤ b.kBase * 3 := mul_le_mul_of_nonneg_left hthree₂ hkb.le
    have hbase : a.kBase ≤ a.kBase * s.boost c₁ := le_mul_of_one_le_right hka.le hone₁
    have hlt := saturation_lt_add (s := age₁) (t := age₂) (by positivity)
      (hboosted.trans (hrate.trans hbase)) hpb hexp (hboosted.trans_lt hlead) hpos hage
    linarith
  · have hcat : c₁ = c₂ := by cases c₁ <;> cases c₂ <;> first | rfl | cases hsame
    subst hcat
    cases ha.symm.trans hb
    have holder : age₂ < age₁ := hstrict.resolve_right (lt_irrefl _)
    have hlt := saturation_lt_saturation (k := a.kBase * s.boost c₁) (by positivity) hpa hpos holder
    linarith

/-- The larger score has the smaller rank. -/
theorem rank_lt_of_score {a b : CategoryParams}
    (h : rankByScore .priority s requests = .ok ranked) (hx₁ : x₁ ∈ ranked) (hx₂ : x₂ ∈ ranked)
    (hc₁ : x₁.category = some c₁) (hc₂ : x₂.category = some c₂)
    (ha : categoryParams c₁ = some a) (hb : categoryParams c₂ = some b)
    (hscore : 0 ≤ x₁.age → 0 ≤ x₂.age →
      b.scoreAt (s.boost c₂) x₂.age < a.scoreAt (s.boost c₁) x₁.age) :
    x₁.priority < x₂.priority := by
  obtain ⟨hranked, horder⟩ := rankByScore_eq_ok h
  obtain ⟨-, -, -, p₁, hp₁⟩ := hranked x₁ hx₁
  obtain ⟨-, -, -, p₂, hp₂⟩ := hranked x₂ hx₂
  obtain ⟨hage₁, -, heq₁⟩ := scorePriority_eq_ok hc₁ ha hp₁
  obtain ⟨hage₂, hpos₂, heq₂⟩ := scorePriority_eq_ok hc₂ hb hp₂
  refine horder x₁ hx₁ x₂ hx₂ p₁ p₂ hp₁ hp₂ ?_
  rw [heq₁, heq₂]
  exact neg_lt_neg (Real.log_lt_log hpos₂ (hscore hage₁ hage₂))

/-- A ranked request has the age of the step. -/
theorem age_of_ranked {now : ℝ} (h : rankByScore policy s requests = .ok ranked)
    (hage : ∀ q ∈ requests, q.age = now - q.arrivalTime) (hx : x ∈ ranked) :
    x.age = now - x.arrivalTime := by
  obtain ⟨q, hq, hxq, -⟩ := (rankByScore_eq_ok h).1 x hx
  rw [hxq]
  exact hage q hq

/-- Every recognised category has its parameters. -/
theorem exists_categoryParams (h : c.weight ≤ 2) : ∃ a, categoryParams c = some a := by
  cases c with
  | sand | pebbles | rocks => exact ⟨_, rfl⟩
  | other => simp [Category.weight] at h

/-- Under `rps`, for all queue statistics: of two requests that are ranked in the same step the
one that arrived no later and is not of a heavier category has the smaller rank, unless both
relations are ties. A step that ranks has no request of negative age. -/
theorem rps_dominates {now : ℝ} (h : rankByScore .priority s requests = .ok ranked)
    (hage : ∀ q ∈ requests, q.age = now - q.arrivalTime) (hx₁ : x₁ ∈ ranked) (hx₂ : x₂ ∈ ranked)
    (hc₁ : x₁.category = some c₁) (hc₂ : x₂.category = some c₂) (hrecognised : c₂ ≠ .other)
    (harrived : x₁.arrivalTime ≤ x₂.arrivalTime) (hweight : c₁.weight ≤ c₂.weight)
    (hstrict : x₁.arrivalTime < x₂.arrivalTime ∨ c₁.weight < c₂.weight) :
    x₁.priority < x₂.priority := by
  have htwo : c₂.weight ≤ 2 := by cases c₂ <;> first | decide | exact absurd rfl hrecognised
  obtain ⟨a, ha⟩ := exists_categoryParams (hweight.trans htwo)
  obtain ⟨b, hb⟩ := exists_categoryParams htwo
  refine rank_lt_of_score h hx₁ hx₂ hc₁ hc₂ ha hb fun _ hpos => ?_
  refine scoreAt_lt ha hb hweight ?_ (hstrict.imp_left fun hlt => ?_) hpos
  all_goals
    rw [age_of_ranked h hage hx₁, age_of_ranked h hage hx₂]
    linarith

/-! ### The ranking returns -/

/-- The averages and the current values are there and are not negative. -/
structure ExponentialMovingAverage.Nonneg (m : ExponentialMovingAverage) : Prop where
  ema : ∃ v, m.ema = some v ∧ 0 ≤ v
  curr : ∃ v, m.curr = some v ∧ 0 ≤ v

/-- Queue statistics without negative sizes or ages. -/
def QueueStats.Nonneg (s : QueueStats) : Prop :=
  ∀ c stats, s.of c = some stats → stats.queueSize.Nonneg ∧ stats.queueAge.Nonneg

/-- The static part of a score: the `rps` offset under `rps`, none under `wait-only`. -/
noncomputable def CategoryParams.offset (params : CategoryParams) (policy : SchedulingPolicy) : ℝ :=
  if policy = .priority then params.rpsOffset else 0

/-- With statistics that are not negative no denominator vanishes, and a request of a recognised
category has the score of its age. -/
theorem CategoryStats.score_eq {stats : CategoryStats} {params : CategoryParams}
    (hsize : stats.queueSize.Nonneg) (hqueue : stats.queueAge.Nonneg)
    (hpolicy : policy = .priority ∨ policy = .waitOnly) (hc : q.category = some c)
    (hparams : categoryParams c = some params) (hage : 0 ≤ q.age) :
    stats.score policy q =
      .ok (saturation (params.kBase * stats.boost) params.p q.age + params.offset policy) := by
  obtain ⟨⟨avgSize, havgSize, hsize⟩, size, hcurrSize, -⟩ := hsize
  obtain ⟨⟨avgAge, havgAge, hage'⟩, age, hcurrAge, -⟩ := hqueue
  have heps : (0 : ℝ) < eps := by norm_num [eps]
  have hscored : ¬ (policy ≠ .priority ∧ policy ≠ .waitOnly) := by tauto
  unfold CategoryStats.score CategoryStats.boost
  rw [havgAge, hcurrAge, hcurrSize, havgSize]
  dsimp only
  unfold computeScore
  rw [if_neg hscored, hc, Option.bind_some, hparams]
  dsimp only
  rw [if_neg (not_or.mpr ⟨by linarith, by linarith⟩), if_neg (not_lt.mpr hage)]
  rfl

/-- Every recognised category has statistics. -/
theorem exists_stats {params : CategoryParams} (h : categoryParams c = some params)
    (s : QueueStats) : ∃ stats, s.of c = some stats := by
  cases c with
  | sand | pebbles | rocks => exact ⟨_, rfl⟩
  | other => cases h

/-- The priority of a request of a recognised category. -/
theorem scorePriority_eq {params : CategoryParams} (hs : s.Nonneg)
    (hpolicy : policy = .priority ∨ policy = .waitOnly) (hc : q.category = some c)
    (hparams : categoryParams c = some params) (hage : 0 ≤ q.age) :
    let score := saturation (params.kBase * s.boost c) params.p q.age + params.offset policy
    scorePriority policy s q =
      if score ≤ 0 then .error .valueError else .ok (-Real.log score) := by
  obtain ⟨stats, hstats⟩ := exists_stats hparams s
  obtain ⟨hsize, hqueue⟩ := hs c stats hstats
  have hscore := CategoryStats.score_eq hsize hqueue hpolicy hc hparams hage
  have hboost : s.boost c = stats.boost := by rw [QueueStats.boost, hstats]
  unfold ScoredRequest.category at hc
  unfold scorePriority
  cases hmd : q.requestMd with
  | none => simp [hmd] at hc
  | some md =>
    rw [hmd] at hc
    have hcat : md.category = some c := hc
    dsimp only
    rw [hcat, Option.bind_some, hstats, hboost]
    dsimp only
    rw [hscore]
    rfl

/-- A request without a recognised category has the priority of the least score. -/
theorem scorePriority_unrecognised (hmd : q.requestMd.isSome)
    (hc : q.category.bind categoryParams = none) :
    scorePriority policy s q = .ok (-Real.log minScore) := by
  obtain ⟨md, hmd⟩ := Option.isSome_iff_exists.mp hmd
  unfold ScoredRequest.category at hc
  unfold scorePriority
  rw [hmd] at hc ⊢
  dsimp only
  have hnone : md.category.bind s.of = none := by
    change md.category.bind categoryParams = none at hc
    cases hcat : md.category with
    | none => rfl
    | some c =>
      rw [hcat] at hc
      cases c with
      | sand | pebbles | rocks => cases hc
      | other => rfl
  rw [hnone]

/-- No category has a negative offset. -/
theorem params_offset_nonneg {params : CategoryParams} (h : categoryParams c = some params)
    (policy : SchedulingPolicy) : 0 ≤ params.offset policy := by
  unfold CategoryParams.offset
  split
  · cases c with
    | sand | pebbles | rocks =>
      cases h
      norm_num
    | other => cases h
  · exact le_rfl

/-- A request with metadata and a positive age has a priority. -/
theorem scorePriority_total (hs : s.Nonneg) (hpolicy : policy = .priority ∨ policy = .waitOnly)
    (hmd : q.requestMd.isSome) (hage : 0 < q.age) : ∃ p, scorePriority policy s q = .ok p := by
  cases hc : q.category.bind categoryParams with
  | none => exact ⟨_, scorePriority_unrecognised hmd hc⟩
  | some params =>
    obtain ⟨c, hcat, hparams⟩ := Option.bind_eq_some_iff.mp hc
    obtain ⟨hk, hp⟩ := categoryParams_pos hparams
    have hboost : (1 : ℝ) ≤ s.boost c := by exact_mod_cast (s.boost_bounds c).1
    have hrise := saturation_lt_saturation (k := params.kBase * s.boost c) (s := 0) (by positivity)
      hp le_rfl hage
    have hzero := saturation_nonneg (k := params.kBase * s.boost c) (p := params.p) (t := 0)
      (by positivity) le_rfl
    have hoffset := params_offset_nonneg hparams policy
    rw [scorePriority_eq hs hpolicy hcat hparams hage.le, if_neg (by linarith)]
    exact ⟨_, rfl⟩

/-- When every request has a priority the ranking returns. -/
theorem rankByScore_total (h : ∀ q ∈ requests, ∃ p, scorePriority policy s q = .ok p) :
    ∃ ranked, rankByScore policy s requests = .ok ranked := by
  obtain ⟨scored, hscored⟩ := mapM_total (f := fun q => do
      let p ← scorePriority policy s q
      Except.ok { q with priority := p }) fun q hq => by
    obtain ⟨p, hp⟩ := h q hq
    exact ⟨_, bind_eq_ok.mpr ⟨p, hp, rfl⟩⟩
  exact ⟨_, bind_eq_ok.mpr ⟨scored, hscored, rfl⟩⟩

/-- Statistics with the same size and age everywhere. -/
noncomputable def evenStats : QueueStats :=
  let one : ExponentialMovingAverage := { ema := some 1, curr := some 1 }
  ⟨⟨one, one⟩, ⟨one, one⟩, ⟨one, one⟩⟩

/-- A request of a category that arrived at a time, at the clock reading 10. -/
noncomputable def requestAt (id : ReqId) (arrivalTime : ℝ) (c : Category) : ScoredRequest where
  requestId := id
  arrivalTime := arrivalTime
  requestMd := some { category := some c }
  age := 10 - arrivalTime

/-- The even statistics are not negative. -/
theorem evenStats_nonneg : evenStats.Nonneg := by
  intro c stats hstats
  have hone : ∃ v : ℝ, some (1 : ℝ) = some v ∧ 0 ≤ v := ⟨1, rfl, zero_le_one⟩
  cases c with
  | sand | pebbles | rocks =>
    cases hstats
    exact ⟨⟨hone, hone⟩, ⟨hone, hone⟩⟩
  | other => cases hstats

/-- An image request that arrived with a video request goes first. -/
theorem rps_dominates_pebblesFirst : ∃ ranked,
    rankByScore .priority evenStats [requestAt 1 4 .rocks, requestAt 2 4 .pebbles] = .ok ranked ∧
      ∃ x₁ ∈ ranked, ∃ x₂ ∈ ranked, x₁.requestId = 2 ∧ x₂.requestId = 1 ∧
        x₁.category = some .pebbles ∧ x₂.category = some .rocks ∧ x₁.priority < x₂.priority := by
  have hage : ∀ q ∈ [requestAt 1 4 .rocks, requestAt 2 4 .pebbles], q.age = 10 - q.arrivalTime := by
    simp [requestAt]
  have hready : ∀ q ∈ [requestAt 1 4 .rocks, requestAt 2 4 .pebbles],
      q.requestMd.isSome ∧ 0 < q.age := by
    simp only [List.mem_cons, List.not_mem_nil, or_false, forall_eq_or_imp, forall_eq, requestAt]
    norm_num
  obtain ⟨ranked, h⟩ := rankByScore_total fun q hq =>
    scorePriority_total evenStats_nonneg (.inl rfl) (hready q hq).1 (hready q hq).2
  obtain ⟨x₁, hx₁, hpebbles⟩ := exists_ranked h (q := requestAt 2 4 .pebbles) (by simp)
  obtain ⟨x₂, hx₂, hrocks⟩ := exists_ranked h (q := requestAt 1 4 .rocks) (by simp)
  have hc₁ : x₁.category = some .pebbles := by rw [hpebbles]; rfl
  have hc₂ : x₂.category = some .rocks := by rw [hrocks]; rfl
  refine ⟨ranked, h, x₁, hx₁, x₂, hx₂, by rw [hpebbles]; rfl, by rw [hrocks]; rfl, hc₁, hc₂, ?_⟩
  exact rps_dominates h hage hx₁ hx₂ hc₁ hc₂ (by decide)
    (by rw [hpebbles, hrocks]; exact le_rfl) (by decide) (.inr (by decide))

end RpsServe
