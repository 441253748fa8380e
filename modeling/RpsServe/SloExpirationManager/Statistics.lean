import RpsServe.SloExpirationManager.Dominance

/-!
# The queue statistics stay non-negative

Sizes are counts and ages are differences to a clock that is never behind an arrival, so all that
the averages see is not negative, and neither are the averages.
-/

namespace RpsServe

variable {m : ExponentialMovingAverage} {stats : CategoryStats} {s s' : QueueStats}
  {requests aged : List ScoredRequest} {now v : ℝ}

/-- An average that has only seen values that are not negative. -/
structure ExponentialMovingAverage.Fresh (m : ExponentialMovingAverage) : Prop where
  alpha : 0 ≤ m.alpha ∧ m.alpha ≤ 1
  ema : ∀ v, m.ema = some v → 0 ≤ v

/-- A value that is not negative keeps a mean that is not negative. -/
theorem ExponentialMovingAverage.Fresh.update (h : m.Fresh) (hv : 0 ≤ v) : (m.update v).Nonneg := by
  obtain ⟨halpha, hone⟩ := h.alpha
  refine ⟨?_, v, rfl, hv⟩
  unfold ExponentialMovingAverage.update
  dsimp only
  split
  · exact ⟨v, rfl, hv⟩
  · rename_i ema hema
    have hpos := h.ema ema hema
    exact ⟨_, rfl, add_nonneg (mul_nonneg halpha hv) (mul_nonneg (sub_nonneg.mpr hone) hpos)⟩

/-- An update leaves the weight of the average. -/
theorem ExponentialMovingAverage.Nonneg.fresh (h : (m.update v).Nonneg) (hm : m.Fresh) :
    (m.update v).Fresh where
  alpha := hm.alpha
  ema w hw := by
    obtain ⟨u, hu, hpos⟩ := h.ema
    cases hu.symm.trans hw
    exact hpos

/-- A mean of ages that are not negative is not negative. -/
theorem meanAge_nonneg {ages : List ℝ} (h : ∀ age ∈ ages, 0 ≤ age) : 0 ≤ meanAge ages := by
  unfold meanAge
  split
  · exact le_rfl
  · exact div_nonneg (List.sum_nonneg h) (Nat.cast_nonneg _)

/-- All averages of the statistics have only seen values that are not negative. -/
def QueueStats.Fresh (s : QueueStats) : Prop :=
  ∀ c stats, s.of c = some stats → stats.queueSize.Fresh ∧ stats.queueAge.Fresh

/-- The statistics before the first step. -/
theorem QueueStats.Fresh.init : QueueStats.Fresh {} := by
  intro c stats hstats
  have hone : ExponentialMovingAverage.Fresh {} := ⟨by norm_num, fun v hv => by cases hv⟩
  cases c with
  | sand | pebbles | rocks =>
    cases hstats
    exact ⟨hone, hone⟩
  | other => cases hstats

/-- Updating the statistics ages the requests and keeps the statistics of the categories. -/
theorem updateQueueStats_eq_ok (h : updateQueueStats now requests s = .ok (s', aged)) :
    aged = requests.map (·.aged now) ∧
      ∀ c stats', s'.of c = some stats' → ∃ stats, s.of c = some stats ∧
        stats' = stats.update (agesOf c aged) := by
  unfold updateQueueStats at h
  split at h
  · cases h
  · cases h
    refine ⟨rfl, fun c stats' hstats => ?_⟩
    cases c with
    | sand | pebbles | rocks =>
      cases hstats
      exact ⟨_, rfl, rfl⟩
    | other => cases hstats

/-- An update at a clock reading that no arrival is ahead of keeps the statistics non-negative. -/
theorem QueueStats.Fresh.update (h : s.Fresh)
    (hupdate : updateQueueStats now requests s = .ok (s', aged))
    (harrived : ∀ q ∈ requests, q.arrivalTime ≤ now) : s'.Nonneg ∧ s'.Fresh := by
  obtain ⟨rfl, hstats⟩ := updateQueueStats_eq_ok hupdate
  have hages : ∀ c, ∀ age ∈ agesOf c (requests.map (·.aged now)), 0 ≤ age := by
    intro c age hage
    obtain ⟨q, hq, rfl⟩ := List.mem_map.mp hage
    obtain ⟨q', hq', rfl⟩ := List.mem_map.mp (List.mem_of_mem_filter hq)
    exact sub_nonneg.mpr (harrived q' hq')
  have hboth : ∀ c stats', s'.of c = some stats' →
      (stats'.queueSize.Nonneg ∧ stats'.queueAge.Nonneg) ∧
        stats'.queueSize.Fresh ∧ stats'.queueAge.Fresh := by
    intro c stats' hc
    obtain ⟨stats, hold, rfl⟩ := hstats c stats' hc
    obtain ⟨hsize, hage⟩ := h c stats hold
    have hsize' := hsize.update (Nat.cast_nonneg (agesOf c (requests.map (·.aged now))).length)
    have hage' := hage.update (meanAge_nonneg (hages c))
    exact ⟨⟨hsize', hage'⟩, hsize'.fresh hsize, hage'.fresh hage⟩
  exact ⟨fun c stats hc => (hboth c stats hc).1, fun c stats hc => (hboth c stats hc).2⟩

end RpsServe
