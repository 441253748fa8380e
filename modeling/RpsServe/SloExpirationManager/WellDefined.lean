import RpsServe.SloExpirationManager.Doubles
import RpsServe.SloExpirationManager.Statistics

/-!
# When the scores are defined

No denominator of a score ever vanishes, as the averages are not negative and `eps` is added. The
argument of the logarithm is the rounded curve of the age above the static offset. Where there is
no offset it is positive exactly when the exponent is large enough for `math.exp` to come out
below 1: at an age of one second it is, at the age 0 it is not.
-/

namespace RpsServe

namespace DoubleMath

variable {M : DoubleMath} {policy : SchedulingPolicy} {s s' : QueueStats}
  {requests aged : List ScoredRequest} {q : ScoredRequest} {c : Category}
  {params : CategoryParams} {stats : CategoryStats} {m : ExponentialMovingAverage}
  {now v x y : ℝ}

/-! ### Rounded numbers -/

namespace Lawful

/-- Rounding keeps 0. -/
theorem rnd_zero (h : M.Lawful) : M.rnd 0 = 0 := by
  exact_mod_cast h.rnd_natCast 0 (by norm_num)

/-- Rounding keeps 1. -/
theorem rnd_one (h : M.Lawful) : M.rnd 1 = 1 := by
  exact_mod_cast h.rnd_natCast 1 (by norm_num)

/-- Rounding keeps 2. -/
theorem rnd_two (h : M.Lawful) : M.rnd 2 = 2 := by
  exact_mod_cast h.rnd_natCast 2 (by norm_num)

/-- Rounding keeps 3. -/
theorem rnd_three (h : M.Lawful) : M.rnd 3 = 3 := by
  exact_mod_cast h.rnd_natCast 3 (by norm_num)

/-- What is not negative is not rounded to a negative number. -/
theorem rnd_nonneg (h : M.Lawful) (hx : 0 ≤ x) : 0 ≤ M.rnd x := by
  rw [← h.rnd_zero]
  exact h.rnd_mono hx

/-- What is at most 1 is rounded to at most 1. -/
theorem rnd_le_one (h : M.Lawful) (hx : x ≤ 1) : M.rnd x ≤ 1 := by
  rw [← h.rnd_one]
  exact h.rnd_mono hx

/-- A sum is rounded to no less than a rounded summand if the other one is not negative. -/
theorem le_rnd_add (h : M.Lawful) (hx : 0 ≤ x) : M.rnd y ≤ M.rnd (x + M.rnd y) := by
  calc M.rnd y = M.rnd (M.rnd y) := (h.rnd_rnd y).symm
    _ ≤ M.rnd (x + M.rnd y) := h.rnd_mono (by linarith)

/-- What is no less than a power of two is rounded to no less. -/
theorem zpow_le_rnd (h : M.Lawful) {k : ℤ} (hk : -1074 ≤ k) (hx : (2 : ℝ) ^ k ≤ x) :
    (2 : ℝ) ^ k ≤ M.rnd x := by
  rw [← h.rnd_zpow k hk]
  exact h.rnd_mono hx

/-- A denominator is positive. -/
theorem denominator_pos (h : M.Lawful) (hx : 0 ≤ x) : 0 < M.rnd (x + M.rnd eps) := by
  have heps : (2 : ℝ) ^ (-14 : ℤ) ≤ M.rnd eps :=
    h.zpow_le_rnd (by norm_num) (by norm_num [eps])
  exact lt_of_lt_of_le (by positivity) (heps.trans (h.le_rnd_add hx))

end Lawful

/-! ### The statistics -/

/-- The queue statistics after any number of steps, none of them ahead of an arrival. -/
inductive StatsAfter (M : DoubleMath) (policy : SchedulingPolicy) : QueueStats → Prop
  | init : StatsAfter M policy {}
  | step {s s' : QueueStats} {requests ranked : List ScoredRequest} {now : ℝ} :
      StatsAfter M policy s → (∀ q ∈ requests, q.arrivalTime ≤ now) →
      M.rankStep policy now requests s = .ok (s', ranked) → StatsAfter M policy s'

/-- An update with a value that is not negative keeps the average non-negative. -/
theorem emaUpdate_nonneg (hM : M.Lawful) (h : m.Fresh) (hv : 0 ≤ v) : (M.emaUpdate m v).Nonneg := by
  obtain ⟨halpha, hone⟩ := h.alpha
  refine ⟨?_, v, rfl, hv⟩
  unfold emaUpdate
  dsimp only
  split
  · exact ⟨v, rfl, hv⟩
  · rename_i ema hema
    have hpos := h.ema ema hema
    have hrest : 0 ≤ 1 - M.rnd m.alpha := sub_nonneg.mpr (hM.rnd_le_one hone)
    exact ⟨_, rfl, hM.rnd_nonneg (add_nonneg
      (hM.rnd_nonneg (mul_nonneg (hM.rnd_nonneg halpha) hv))
      (hM.rnd_nonneg (mul_nonneg (hM.rnd_nonneg hrest) hpos)))⟩

/-- An update leaves the weight of the average. -/
theorem emaUpdate_fresh (hM : M.Lawful) (h : m.Fresh) (hv : 0 ≤ v) : (M.emaUpdate m v).Fresh where
  alpha := h.alpha
  ema w hw := by
    obtain ⟨u, hu, hpos⟩ := (emaUpdate_nonneg hM h hv).ema
    cases hu.symm.trans hw
    exact hpos

/-- The mean of ages that are not negative is not negative. -/
theorem meanAge_nonneg (hM : M.Lawful) {ages : List ℝ} (h : ∀ age ∈ ages, 0 ≤ age) :
    0 ≤ M.meanAge ages := by
  refine hM.mean_nonneg _ fun age hage => ?_
  split at hage
  · exact (List.mem_singleton.mp hage).ge
  · exact h age hage

/-- What an update of the statistics returns. -/
theorem updateQueueStats_eq_ok (h : M.updateQueueStats now requests s = .ok (s', aged)) :
    aged = requests.map (M.aged now) ∧
      ∀ c stats', s'.of c = some stats' → ∃ stats, s.of c = some stats ∧
        stats' = M.statsUpdate stats (agesOf c aged) := by
  unfold updateQueueStats at h
  split at h
  · cases h
  · cases h
    refine ⟨rfl, fun c stats' hstats => ?_⟩
    cases c with
    | sand | pebbles | rocks =>
      cases hstats
      exact ⟨_, rfl, rfl⟩
    | other => cases hstats

/-- An update at a clock reading that no arrival is ahead of keeps the statistics non-negative. -/
theorem fresh_update (hM : M.Lawful) (h : s.Fresh)
    (hupdate : M.updateQueueStats now requests s = .ok (s', aged))
    (harrived : ∀ q ∈ requests, q.arrivalTime ≤ now) : s'.Nonneg ∧ s'.Fresh := by
  obtain ⟨rfl, hstats⟩ := updateQueueStats_eq_ok hupdate
  have hages : ∀ c, ∀ age ∈ agesOf c (requests.map (M.aged now)), 0 ≤ age := by
    intro c age hage
    obtain ⟨q, hq, rfl⟩ := List.mem_map.mp hage
    obtain ⟨q', hq', rfl⟩ := List.mem_map.mp (List.mem_of_mem_filter hq)
    exact hM.rnd_nonneg (sub_nonneg.mpr (harrived q' hq'))
  have hboth : ∀ c stats', s'.of c = some stats' →
      (stats'.queueSize.Nonneg ∧ stats'.queueAge.Nonneg) ∧
        stats'.queueSize.Fresh ∧ stats'.queueAge.Fresh := by
    intro c stats' hc
    obtain ⟨stats, hold, rfl⟩ := hstats c stats' hc
    obtain ⟨hsize, hage⟩ := h c stats hold
    have hcount : (0 : ℝ) ≤ M.rnd (agesOf c (requests.map (M.aged now))).length :=
      hM.rnd_nonneg (Nat.cast_nonneg _)
    have hmean := meanAge_nonneg hM (hages c)
    exact ⟨⟨emaUpdate_nonneg hM hsize hcount, emaUpdate_nonneg hM hage hmean⟩,
      emaUpdate_fresh hM hsize hcount, emaUpdate_fresh hM hage hmean⟩
  exact ⟨fun c stats hc => (hboth c stats hc).1, fun c stats hc => (hboth c stats hc).2⟩

/-- The statistics of every reachable state have only seen values that are not negative. -/
theorem StatsAfter.fresh (hM : M.Lawful) (h : StatsAfter M policy s) : s.Fresh := by
  induction h with
  | init => exact .init
  | step _ harrived hstep ih =>
    obtain ⟨⟨s₁, aged⟩, hupdate, hstep⟩ := bind_eq_ok.mp hstep
    obtain ⟨ranked, -, hstep⟩ := bind_eq_ok.mp hstep
    cases hstep
    exact (fresh_update hM ih hupdate harrived).2

/-! ### The exponent -/

/-- Whatever the statistics are, the boost is 1, 2 or 3. -/
theorem boost_bounds (hM : M.Lawful) (avgQueueAge queueAge queueSize avgQueueSize : ℝ) :
    1 ≤ M.boost avgQueueAge queueAge queueSize avgQueueSize ∧
      M.boost avgQueueAge queueAge queueSize avgQueueSize ≤ 3 := by
  unfold boost
  extract_lets lenRatio ageRatio excess rise
  have hexcess : 0 ≤ excess := le_max_left _ _
  have hexponent : M.rnd (-2.0 * excess) ≤ 0 := by
    rw [← hM.rnd_zero]
    exact hM.rnd_mono (by norm_num; linarith)
  have hexp := hM.exp_le_one _ hexponent
  have hexp' := hM.exp_nonneg (M.rnd (-2.0 * excess))
  have hrise : 0 ≤ rise ∧ rise ≤ 1 :=
    ⟨hM.rnd_nonneg (by linarith), hM.rnd_le_one (by linarith)⟩
  have htwo : M.rnd (3.0 - 1) = 2 := by
    rw [← hM.rnd_two]
    norm_num
  have hscaled : 0 ≤ M.rnd (M.rnd (3.0 - 1) * rise) ∧ M.rnd (M.rnd (3.0 - 1) * rise) ≤ 2 := by
    rw [htwo]
    refine ⟨hM.rnd_nonneg (by linarith [hrise.1]), ?_⟩
    conv_rhs => rw [← hM.rnd_two]
    exact hM.rnd_mono (by linarith [hrise.2])
  constructor
  · refine le_roundHalfEven ?_
    push_cast
    conv_lhs => rw [← hM.rnd_one]
    exact hM.rnd_mono (by linarith [hscaled.1])
  · refine roundHalfEven_le ?_
    push_cast
    conv_rhs => rw [← hM.rnd_three]
    exact hM.rnd_mono (by linarith [hscaled.2])

/-- The boost of a category by its statistics. -/
noncomputable def boostOf (M : DoubleMath) (s : CategoryStats) : ℤ :=
  match s.queueAge.ema, s.queueAge.curr, s.queueSize.curr, s.queueSize.ema with
  | some avgQueueAge, some queueAge, some queueSize, some avgQueueSize =>
    M.boost avgQueueAge queueAge queueSize avgQueueSize
  | _, _, _, _ => 1

/-- A category has a boost of 1, 2 or 3. -/
theorem boostOf_bounds (hM : M.Lawful) (s : CategoryStats) : 1 ≤ M.boostOf s ∧ M.boostOf s ≤ 3 := by
  unfold boostOf
  split
  · exact boost_bounds hM _ _ _ _
  · exact ⟨le_rfl, by decide⟩

/-- The power of an age in a category. -/
noncomputable def power (M : DoubleMath) (params : CategoryParams) (age : ℝ) : ℝ :=
  M.pow age (M.rnd params.p)

/-- How far a category has risen at an age: `k_base * boost * age ** p`. -/
noncomputable def exponent (M : DoubleMath) (params : CategoryParams) (s : CategoryStats)
    (age : ℝ) : ℝ :=
  M.rnd (M.rnd (M.rnd params.kBase * M.boostOf s) * M.power params age)

/-- The rate of a category is not negative. -/
theorem rate_nonneg (hM : M.Lawful) (hparams : categoryParams c = some params)
    (stats : CategoryStats) : 0 ≤ M.rnd (M.rnd params.kBase * M.boostOf stats) := by
  have hboost : (1 : ℝ) ≤ M.boostOf stats := by exact_mod_cast (boostOf_bounds hM stats).1
  have hbase := hM.rnd_nonneg (categoryParams_pos hparams).1.le
  exact hM.rnd_nonneg (mul_nonneg hbase (by linarith))

/-- The exponent is not negative. -/
theorem exponent_nonneg (hM : M.Lawful) (hparams : categoryParams c = some params) {age : ℝ}
    (hage : 0 ≤ age) : 0 ≤ M.exponent params stats age :=
  hM.rnd_nonneg (mul_nonneg (rate_nonneg hM hparams stats) (hM.pow_nonneg _ _ hage))

/-- At one second and later the exponent is not tiny. -/
theorem tiny_lt_exponent (hM : M.Lawful) (hparams : categoryParams c = some params) {age : ℝ}
    (hage : 1 ≤ age) : M.tiny < M.exponent params stats age := by
  have hbase : (2 : ℝ) ^ (-11 : ℤ) ≤ M.rnd params.kBase := by
    refine hM.zpow_le_rnd (by norm_num) ?_
    cases c with
    | sand | pebbles | rocks =>
      cases hparams
      norm_num
    | other => cases hparams
  have hboost : (1 : ℝ) ≤ M.boostOf stats := by exact_mod_cast (boostOf_bounds hM stats).1
  have hsmall : (0 : ℝ) < 2 ^ (-11 : ℤ) := by positivity
  have hrate : (2 : ℝ) ^ (-11 : ℤ) ≤ M.rnd (M.rnd params.kBase * M.boostOf stats) :=
    hM.zpow_le_rnd (by norm_num)
      (hbase.trans (le_mul_of_one_le_right (hsmall.le.trans hbase) hboost))
  have hpow : 1 ≤ M.power params age :=
    hM.one_le_pow _ _ hage (hM.rnd_nonneg (categoryParams_pos hparams).2.le)
  calc M.tiny ≤ 2 ^ (-53 : ℤ) := hM.tiny_le
    _ < 2 ^ (-11 : ℤ) := zpow_lt_zpow_right₀ one_lt_two (by norm_num)
    _ ≤ M.exponent params stats age := hM.zpow_le_rnd (by norm_num)
        (hrate.trans (le_mul_of_one_le_right (hsmall.le.trans hrate) hpow))

/-! ### Definedness -/

/-- The score of a request is defined: no denominator is 0, the logarithm is taken of a positive
number, and a priority comes out. -/
structure WellDefined (M : DoubleMath) (policy : SchedulingPolicy) (s : QueueStats)
    (q : ScoredRequest) : Prop where
  denominators : ∀ c stats, q.category = some c → s.of c = some stats →
    ∃ avgQueueSize avgQueueAge, stats.queueSize.ema = some avgQueueSize ∧
      stats.queueAge.ema = some avgQueueAge ∧ M.rnd (avgQueueSize + M.rnd eps) ≠ 0 ∧
      M.rnd (avgQueueAge + M.rnd eps) ≠ 0
  positive : ∀ c stats, q.category = some c → s.of c = some stats →
    ∃ score, M.score policy q stats = .ok score ∧ 0 < score
  returns : ∃ p, M.scorePriority policy s q = .ok p

/-- The request is not of a recognised category, or the power of its age is no larger than the
largest double, and it has a static offset or an exponent that is not tiny. -/
def Scorable (M : DoubleMath) (policy : SchedulingPolicy) (s : QueueStats) (q : ScoredRequest) :
    Prop :=
  ∀ c params stats, q.category = some c → categoryParams c = some params → s.of c = some stats →
    (M.power params q.age : WithTop ℝ) ≤ M.largest ∧
      (0 < params.offset policy ∨ M.tiny < M.exponent params stats q.age)

/-- A request is scorable from the age of one second on, until the power of its age overflows. -/
theorem Scorable.of_one_le (hM : M.Lawful) (hage : 1 ≤ q.age)
    (hpower : ∀ c params, q.category = some c → categoryParams c = some params →
      (M.power params q.age : WithTop ℝ) ≤ M.largest) : M.Scorable policy s q :=
  fun _ _ _ hc hparams _ => ⟨hpower _ _ hc hparams, .inr (tiny_lt_exponent hM hparams hage)⟩

/-- The rounded curve above the offset is positive exactly when there is an offset or the exponent
is not tiny. -/
theorem score_pos_iff (hM : M.Lawful) (hparams : categoryParams c = some params) (hx : 0 ≤ x) :
    0 < M.rnd (M.rnd (1 - M.exp (-x)) + if policy = .priority then M.rnd params.rpsOffset else 0) ↔
      0 < params.offset policy ∨ M.tiny < x := by
  have hexp : M.exp (-x) ≤ 1 := hM.exp_le_one _ (by linarith)
  have hcurve : 0 ≤ M.rnd (1 - M.exp (-x)) := hM.rnd_nonneg (by linarith)
  have hbare : 0 < M.rnd (M.rnd (1 - M.exp (-x)) + 0) ↔ M.tiny < x := by
    rw [add_zero, hM.rnd_rnd]
    constructor
    · intro hpos
      refine (hM.exp_lt_one_iff x hx).mp (hexp.lt_of_ne fun hone => ?_)
      rw [hone, sub_self, hM.rnd_zero] at hpos
      exact lt_irrefl _ hpos
    · exact fun htiny => hM.sub_exp_pos _ ((hM.exp_lt_one_iff x hx).mpr htiny)
  have hraised : ∀ {offset : ℝ}, (2 : ℝ) ^ (-5 : ℤ) ≤ offset →
      0 < M.rnd (M.rnd (1 - M.exp (-x)) + M.rnd offset) := fun hoffset => by
    have hrnd := hM.zpow_le_rnd (by norm_num) hoffset
    exact lt_of_lt_of_le (by positivity) (hrnd.trans (hM.le_rnd_add hcurve))
  unfold CategoryParams.offset
  split
  · cases c with
    | sand | pebbles =>
      cases hparams
      exact iff_of_true (hraised (by norm_num)) (.inl (by norm_num))
    | rocks =>
      cases hparams
      rw [hM.rnd_zero, hbare]
      simp
    | other => cases hparams
  · rw [hbare]
    simp

/-- With statistics that are not negative no denominator vanishes, and a request of a recognised
category has the score of its age, unless the power of it overflows. -/
theorem score_eq (hM : M.Lawful) (hsize : stats.queueSize.Nonneg) (hqueue : stats.queueAge.Nonneg)
    (hpolicy : policy = .priority ∨ policy = .waitOnly) (hc : q.category = some c)
    (hparams : categoryParams c = some params) (hage : 0 ≤ q.age) :
    M.score policy q stats =
      if M.largest < (M.power params q.age : WithTop ℝ) then .error .overflowError
      else .ok (M.rnd (M.rnd (1 - M.exp (-M.exponent params stats q.age)) +
        if policy = .priority then M.rnd params.rpsOffset else 0)) := by
  obtain ⟨⟨avgSize, havgSize, hsize⟩, size, hcurrSize, -⟩ := hsize
  obtain ⟨⟨avgAge, havgAge, hage'⟩, age, hcurrAge, -⟩ := hqueue
  have hscored : ¬ (policy ≠ .priority ∧ policy ≠ .waitOnly) := by tauto
  have hexponent : M.boostOf stats = M.boost avgAge age size avgSize := by
    unfold boostOf
    rw [havgAge, hcurrAge, hcurrSize, havgSize]
  unfold score exponent
  rw [hexponent, havgAge, hcurrAge, hcurrSize, havgSize]
  dsimp only
  unfold computeScore
  rw [if_neg hscored, hc, Option.bind_some, hparams]
  dsimp only
  rw [if_neg (not_or.mpr ⟨(hM.denominator_pos hsize).ne', (hM.denominator_pos hage').ne'⟩),
    if_neg (not_lt.mpr hage), neg_mul, hM.rnd_neg]
  rfl

/-- A request without a recognised category has the priority of the least score. -/
theorem scorePriority_unrecognised (hmd : q.requestMd.isSome)
    (hc : q.category.bind s.of = none) :
    M.scorePriority policy s q = .ok (-M.log (M.rnd minScore)) := by
  obtain ⟨md, hmd⟩ := Option.isSome_iff_exists.mp hmd
  unfold ScoredRequest.category at hc
  unfold scorePriority
  rw [hmd] at hc ⊢
  dsimp only
  rw [show md.category.bind s.of = none from hc]

/-- The priority of a request of a recognised category is the negated logarithm of its score. -/
theorem scorePriority_eq (hc : q.category = some c) (hstats : s.of c = some stats) :
    M.scorePriority policy s q = M.score policy q stats >>= fun score =>
      if score ≤ 0 then .error .valueError else .ok (-M.log score) := by
  unfold ScoredRequest.category at hc
  unfold scorePriority
  cases hmd : q.requestMd with
  | none => simp [hmd] at hc
  | some md =>
    rw [hmd] at hc
    dsimp only
    rw [show md.category = some c from hc, Option.bind_some, hstats]

/-- The categories with statistics are the recognised ones. -/
theorem exists_params (h : s.of c = some stats) : ∃ params, categoryParams c = some params := by
  cases c with
  | sand | pebbles | rocks => exact ⟨_, rfl⟩
  | other => cases h

/-- A score of a recognised category is there and positive exactly when the request is scorable. -/
theorem score_defined_iff (hM : M.Lawful) (hs : s.Nonneg)
    (hpolicy : policy = .priority ∨ policy = .waitOnly) (hc : q.category = some c)
    (hstats : s.of c = some stats) (hage : 0 ≤ q.age) :
    (∃ score, M.score policy q stats = .ok score ∧ 0 < score) ↔ M.Scorable policy s q := by
  obtain ⟨hsize, hqueue⟩ := hs c stats hstats
  obtain ⟨params, hparams⟩ := exists_params hstats
  have hscorable : M.Scorable policy s q ↔ (M.power params q.age : WithTop ℝ) ≤ M.largest ∧
      (0 < params.offset policy ∨ M.tiny < M.exponent params stats q.age) := by
    refine ⟨fun h => h c params stats hc hparams hstats, fun h c' params' stats' hc' hp hs' => ?_⟩
    cases hc.symm.trans hc'
    cases hparams.symm.trans hp
    cases hstats.symm.trans hs'
    exact h
  rw [hscorable, score_eq hM hsize hqueue hpolicy hc hparams hage,
    ← score_pos_iff hM hparams (exponent_nonneg hM hparams hage)]
  split
  · rename_i hover
    exact iff_of_false (by simp) fun h => absurd h.1 (not_le.mpr hover)
  · rename_i hfits
    refine ⟨fun h => ⟨not_lt.mp hfits, ?_⟩, fun h => ⟨_, rfl, h.2⟩⟩
    obtain ⟨_, hscore, hpos⟩ := h
    cases hscore
    exact hpos

/-- A request has a priority exactly when it is scorable. -/
theorem scorePriority_returns_iff (hM : M.Lawful) (hs : s.Nonneg)
    (hpolicy : policy = .priority ∨ policy = .waitOnly) (hmd : q.requestMd.isSome)
    (hage : 0 ≤ q.age) : (∃ p, M.scorePriority policy s q = .ok p) ↔ M.Scorable policy s q := by
  cases hrec : q.category.bind s.of with
  | none =>
    refine iff_of_true ⟨_, scorePriority_unrecognised hmd hrec⟩ fun c params stats hc _ hstats => ?_
    rw [hc, Option.bind_some, hstats] at hrec
    cases hrec
  | some stats =>
    obtain ⟨c, hc, hstats⟩ := Option.bind_eq_some_iff.mp hrec
    rw [← score_defined_iff hM hs hpolicy hc hstats hage, scorePriority_eq hc hstats]
    constructor
    · rintro ⟨p, hp⟩
      obtain ⟨score, hscore, hp⟩ := bind_eq_ok.mp hp
      split at hp
      · cases hp
      · rename_i hpos
        exact ⟨score, hscore, not_le.mp hpos⟩
    · rintro ⟨score, hscore, hpos⟩
      exact ⟨-M.log score, bind_eq_ok.mpr ⟨score, hscore, if_neg (not_le.mpr hpos)⟩⟩

/-- With statistics that are not negative, the score of a request is defined exactly when it is
scorable. -/
theorem wellDefined_iff (hM : M.Lawful) (hs : s.Nonneg)
    (hpolicy : policy = .priority ∨ policy = .waitOnly) (hmd : q.requestMd.isSome)
    (hage : 0 ≤ q.age) : M.WellDefined policy s q ↔ M.Scorable policy s q := by
  have hreturns := scorePriority_returns_iff hM hs hpolicy hmd hage
  refine ⟨fun h => hreturns.mp h.returns, fun h => ⟨fun c stats hc hstats => ?_,
    fun c stats hc hstats => (score_defined_iff hM hs hpolicy hc hstats hage).mpr h,
    hreturns.mpr h⟩⟩
  obtain ⟨hsize, hqueue⟩ := hs c stats hstats
  obtain ⟨avgSize, havgSize, hsizePos⟩ := hsize.ema
  obtain ⟨avgAge, havgAge, hagePos⟩ := hqueue.ema
  exact ⟨avgSize, avgAge, havgSize, havgAge, (hM.denominator_pos hsizePos).ne',
    (hM.denominator_pos hagePos).ne'⟩

/-- When every request has a priority the ranking returns. -/
theorem rankByScore_total (h : ∀ q ∈ requests, ∃ p, M.scorePriority policy s q = .ok p) :
    ∃ ranked, M.rankByScore policy s requests = .ok ranked := by
  obtain ⟨scored, hscored⟩ := mapM_total (f := fun q => do
      let p ← M.scorePriority policy s q
      Except.ok { q with priority := p }) fun q hq => by
    obtain ⟨p, hp⟩ := h q hq
    exact ⟨_, bind_eq_ok.mpr ⟨p, hp, rfl⟩⟩
  exact ⟨_, bind_eq_ok.mpr ⟨scored, hscored, rfl⟩⟩

end DoubleMath

open DoubleMath

variable {M : DoubleMath} {policy : SchedulingPolicy} {s s' : QueueStats}
  {requests aged : List ScoredRequest} {now : ℝ}

/-- In every reachable state under a score policy, and for every request of every category at an age
of at least 0: its score is defined exactly when it is scorable, and the ranking returns exactly
when all live requests are. -/
theorem wellDefined_iff_aged (hM : M.Lawful) (hpolicy : policy = .priority ∨ policy = .waitOnly)
    (hs : M.StatsAfter policy s)
    (hlive : ∀ q ∈ requests, q.requestMd.isSome ∧ q.arrivalTime ≤ now)
    (hupdate : M.updateQueueStats now requests s = .ok (s', aged)) :
    (∀ q, q.requestMd.isSome → 0 ≤ q.age →
      (M.WellDefined policy s' q ↔ M.Scorable policy s' q)) ∧
    ((∃ ranked, M.rankByScore policy s' aged = .ok ranked) ↔
      ∀ q ∈ aged, M.Scorable policy s' q) := by
  have hnonneg := (fresh_update hM (hs.fresh hM) hupdate fun q hq => (hlive q hq).2).1
  have haged : ∀ q ∈ aged, q.requestMd.isSome ∧ 0 ≤ q.age := by
    obtain ⟨rfl, -⟩ := DoubleMath.updateQueueStats_eq_ok hupdate
    intro q hq
    obtain ⟨q', hq', rfl⟩ := List.mem_map.mp hq
    exact ⟨(hlive q' hq').1, hM.rnd_nonneg (sub_nonneg.mpr (hlive q' hq').2)⟩
  have hreturns : ∀ q ∈ aged, (∃ p, M.scorePriority policy s' q = .ok p) ↔
      M.Scorable policy s' q := fun q hq =>
    scorePriority_returns_iff hM hnonneg hpolicy (haged q hq).1 (haged q hq).2
  refine ⟨fun q hmd hage => wellDefined_iff hM hnonneg hpolicy hmd hage, fun h q hq => ?_, fun h => ?_⟩
  · obtain ⟨ranked, hranked⟩ := h
    obtain ⟨scored, hscored, -⟩ := bind_eq_ok.mp hranked
    obtain ⟨y, -, hwrite⟩ := exists_of_mapM_eq_ok hscored hq
    obtain ⟨p, hp, -⟩ := bind_eq_ok.mp hwrite
    exact (hreturns q hq).mp ⟨p, hp⟩
  · exact DoubleMath.rankByScore_total fun q hq => (hreturns q hq).mpr (h q hq)

/-- The largest double is no less than 1. -/
theorem one_le_largestDouble : 1 ≤ largestDouble := by
  unfold largestDouble
  have hpow : (1 : ℝ) ≤ 2 ^ (1023 : ℤ) := one_le_zpow₀ one_le_two (by norm_num)
  have hmantissa : (1 : ℝ) ≤ 2 - 2 ^ (-52 : ℤ) := by norm_num
  exact one_le_mul_of_one_le_of_one_le hmantissa hpow

/-- A text request that arrived at the time 0. -/
noncomputable def sandAtZero : ScoredRequest where
  requestId := 1
  arrivalTime := 0
  requestMd := some { category := some .sand }

/-- The statistics of a step that the request alone is live in. -/
theorem updateQueueStats_sandAtZero (M : DoubleMath) (now : ℝ) : ∃ s',
    M.updateQueueStats now [sandAtZero] {} = .ok (s', [M.aged now sandAtZero]) := by
  unfold DoubleMath.updateQueueStats
  rw [if_neg (by simp [sandAtZero])]
  exact ⟨_, rfl⟩

/-- One second after its arrival the request is ranked under `wait-only`, in double precision. -/
theorem wellDefined_sandAtZero : ∃ s' ranked,
    nearest.updateQueueStats 1 [sandAtZero] {} = .ok (s', [nearest.aged 1 sandAtZero]) ∧
      (nearest.aged 1 sandAtZero).age = 1 ∧
      nearest.rankByScore .waitOnly s' [nearest.aged 1 sandAtZero] = .ok ranked := by
  obtain ⟨s', hupdate⟩ := updateQueueStats_sandAtZero nearest 1
  have hage : (nearest.aged 1 sandAtZero).age = 1 := by
    show binary64 (1 - 0) = 1
    rw [sub_zero, binary64_one]
  have hlive : ∀ q ∈ [sandAtZero], q.requestMd.isSome ∧ q.arrivalTime ≤ 1 := by
    simp [sandAtZero]
  have hscorable : ∀ q ∈ [nearest.aged 1 sandAtZero], nearest.Scorable .waitOnly s' q := by
    intro q hq
    obtain rfl := List.mem_singleton.mp hq
    refine .of_one_le nearest_lawful hage.ge fun c params _ _ => ?_
    rw [hage]
    show ((binary64 (1 ^ binary64 params.p) : ℝ) : WithTop ℝ) ≤ _
    rw [Real.one_rpow, binary64_one]
    exact WithTop.coe_le_coe.mpr one_le_largestDouble
  obtain ⟨ranked, hranked⟩ :=
    (wellDefined_iff_aged nearest_lawful (.inr rfl) .init hlive hupdate).2.mpr hscorable
  exact ⟨s', ranked, hupdate, hage, hranked⟩

/-- At the clock reading of its arrival it is not: the logarithm is taken of 0. -/
theorem not_wellDefined : ¬ ∀ policy s s' requests aged now,
    policy = .priority ∨ policy = .waitOnly → nearest.StatsAfter policy s →
    (∀ q ∈ requests, q.requestMd.isSome ∧ q.arrivalTime ≤ now) →
    nearest.updateQueueStats now requests s = .ok (s', aged) →
    (∀ q, q.requestMd.isSome → 0 ≤ q.age → nearest.WellDefined policy s' q) ∧
      ∃ ranked, nearest.rankByScore policy s' aged = .ok ranked := by
  intro hclaim
  obtain ⟨s', hupdate⟩ := updateQueueStats_sandAtZero nearest 0
  have hage : (nearest.aged 0 sandAtZero).age = 0 := by
    show binary64 (0 - 0) = 0
    rw [sub_zero, binary64_zero]
  have hlive : ∀ q ∈ [sandAtZero], q.requestMd.isSome ∧ q.arrivalTime ≤ 0 := by
    simp [sandAtZero]
  have hnonneg := (fresh_update nearest_lawful .init hupdate fun q hq => (hlive q hq).2).1
  have hdefined := (hclaim .waitOnly {} s' _ _ 0 (.inr rfl) .init hlive hupdate).1
    (nearest.aged 0 sandAtZero) rfl hage.ge
  have hscorable := (wellDefined_iff nearest_lawful hnonneg (.inr rfl) rfl hage.ge).mp hdefined
  obtain ⟨-, hoffset | hrisen⟩ := hscorable .sand _ s'.sand rfl rfl rfl
  · simp [CategoryParams.offset] at hoffset
  · have hzero : nearest.exponent ⟨3.5, 0.05, 0.1⟩ s'.sand (nearest.aged 0 sandAtZero).age = 0 := by
      rw [hage]
      show binary64 (_ * binary64 (0 ^ binary64 3.5)) = 0
      have hpos : 0 < binary64 (3.5 : ℝ) := lt_of_lt_of_le (by norm_num)
        (zpow_le_binary64 (k := 0) (by norm_num) (by norm_num))
      rw [Real.zero_rpow hpos.ne', binary64_zero, mul_zero, binary64_zero]
    rw [hzero] at hrisen
    exact absurd hrisen (not_lt.mpr nearest_tiny.1)

end RpsServe
