import RpsServe.Lib.Binary64
import RpsServe.Lib.Except
import RpsServe.Lib.Saturation
import RpsServe.Lib.SortBy
import RpsServe.RequestQueue
import Mathlib.Data.Prod.Lex

/-!
# The urgency score

`update_queue_stats`, `compute_score` and `update_priorities` under the score policies, over
the real numbers: `rps` is the policy `priority`, and `wait-only` leaves the static offsets
out. Times are in seconds.
-/

namespace RpsServe

/-- What the ranking by scores can raise. -/
inductive ScoreError where
  /-- A field of `None`. -/
  | attributeError
  /-- A statistic that is `None`, or `math.exp` of the complex power of a negative age. -/
  | typeError
  /-- `math.log` outside its domain. -/
  | valueError
  /-- An average of `-eps`. -/
  | zeroDivisionError
  /-- A power beyond the largest double. -/
  | overflowError
deriving DecidableEq

/-- `ExponentialMovingAverage`. -/
structure ExponentialMovingAverage where
  alpha : ℝ := 0.004
  ema : Option ℝ := none
  curr : Option ℝ := none

namespace ExponentialMovingAverage

/-- `update`: the first value is the first average. -/
noncomputable def update (m : ExponentialMovingAverage) (value : ℝ) :
    ExponentialMovingAverage where
  alpha := m.alpha
  ema := match m.ema with
    | none => some value
    | some ema => some (m.alpha * value + (1 - m.alpha) * ema)
  curr := some value

end ExponentialMovingAverage

/-- The statistics of the requests of one category. -/
structure CategoryStats where
  queueSize : ExponentialMovingAverage := {}
  queueAge : ExponentialMovingAverage := {}

/-- The queue statistics of `QueueManager`. -/
structure QueueStats where
  sand : CategoryStats := {}
  pebbles : CategoryStats := {}
  rocks : CategoryStats := {}

/-- What the ranking by scores reads and writes of a request. -/
structure ScoredRequest where
  requestId : ReqId
  arrivalTime : ℝ
  requestMd : Option RequestMetadata
  age : ℝ := 0
  priority : ℝ := 0

/-- The category of a request, if it has one. -/
def ScoredRequest.category (q : ScoredRequest) : Option Category :=
  q.requestMd.bind RequestMetadata.category

/-- `request.age = now - request.arrival_time`. -/
noncomputable def ScoredRequest.aged (now : ℝ) (q : ScoredRequest) : ScoredRequest :=
  { q with age := now - q.arrivalTime }

/-! ### The statistics -/

/-- `np.mean(ages or [0.0])`. -/
noncomputable def meanAge (ages : List ℝ) : ℝ := if ages = [] then 0 else ages.sum / ages.length

/-- A category's statistics, updated with the ages of its requests. -/
noncomputable def CategoryStats.update (s : CategoryStats) (ages : List ℝ) : CategoryStats where
  queueSize := s.queueSize.update ages.length
  queueAge := s.queueAge.update (meanAge ages)

/-- The ages of the requests of a category. -/
def agesOf (c : Category) (requests : List ScoredRequest) : List ℝ :=
  (requests.filter fun q => q.category = some c).map (·.age)

/-- `update_queue_stats` at the clock reading `now`. -/
noncomputable def updateQueueStats (now : ℝ) (requests : List ScoredRequest) (s : QueueStats) :
    Except ScoreError (QueueStats × List ScoredRequest) :=
  if requests.any fun q => q.requestMd.isNone then .error .attributeError
  else
    let requests := requests.map (·.aged now)
    .ok ({ sand := s.sand.update (agesOf .sand requests)
           pebbles := s.pebbles.update (agesOf .pebbles requests)
           rocks := s.rocks.update (agesOf .rocks requests) }, requests)

/-! ### The score -/

/-- The exponent, the base rate and the `rps` offset of a category. -/
structure CategoryParams where
  p : ℝ
  kBase : ℝ
  rpsOffset : ℝ

/-- `_CATEGORY_PARAMS`. -/
noncomputable def categoryParams : Category → Option CategoryParams
  | .sand => some ⟨3.5, 0.05, 0.1⟩
  | .pebbles => some ⟨2.5, 0.003, 0.05⟩
  | .rocks => some ⟨1.1, 0.00075, 0⟩
  | .other => none

/-- `self.eps`. -/
noncomputable def eps : ℝ := 0.0001

/-- `self.min_score`. -/
noncomputable def minScore : ℝ := 1e-12

/-! ### Boost and score -/

/-- The boost of a category whose queue is older or longer than on average. -/
noncomputable def boost (avgQueueAge queueAge queueSize avgQueueSize : ℝ) : ℤ :=
  let lenRatio := queueSize / (avgQueueSize + eps)
  let ageRatio := queueAge / (avgQueueAge + eps)
  let excess := max 0 (0.7 * (ageRatio - 1) + 0.3 * (lenRatio - 1))
  roundHalfEven (1 + (3.0 - 1) * (1 - Real.exp (-2.0 * excess)))

/-- `compute_score`. -/
noncomputable def computeScore (policy : SchedulingPolicy) (q : ScoredRequest)
    (avgQueueAge queueAge queueSize avgQueueSize : ℝ) : Except ScoreError ℝ :=
  if policy ≠ .priority ∧ policy ≠ .waitOnly then .ok 1
  else
    match q.category.bind categoryParams with
    | none => .ok 1
    | some params =>
      if avgQueueSize + eps = 0 ∨ avgQueueAge + eps = 0 then .error .zeroDivisionError
      else
        let offset := if policy = .priority then params.rpsOffset else 0
        let kEff := params.kBase * boost avgQueueAge queueAge queueSize avgQueueSize
        if q.age < 0 then .error .typeError
        else .ok (saturation kEff params.p q.age + offset)

/-- The statistics a category is scored with; none for a category that is not recognised. -/
def QueueStats.of (s : QueueStats) : Category → Option CategoryStats
  | .sand => some s.sand
  | .pebbles => some s.pebbles
  | .rocks => some s.rocks
  | .other => none

/-- The score of a request by the statistics of its category. -/
noncomputable def CategoryStats.score (policy : SchedulingPolicy) (q : ScoredRequest)
    (s : CategoryStats) : Except ScoreError ℝ :=
  match s.queueAge.ema, s.queueAge.curr, s.queueSize.curr, s.queueSize.ema with
  | some avgQueueAge, some queueAge, some queueSize, some avgQueueSize =>
    computeScore policy q avgQueueAge queueAge queueSize avgQueueSize
  | _, _, _, _ => .error .typeError

/-- The priority of one request: the negated logarithm of its score. -/
noncomputable def scorePriority (policy : SchedulingPolicy) (s : QueueStats) (q : ScoredRequest) :
    Except ScoreError ℝ :=
  match q.requestMd with
  | none => .error .attributeError
  | some md =>
    match md.category.bind s.of with
    | none => .ok (-Real.log minScore)
    | some stats => do
      let score ← stats.score policy q
      if score ≤ 0 then .error .valueError else .ok (-Real.log score)

/-- `update_priorities` under a score policy: the requests in the order of their ranks, which
are their new priorities. -/
noncomputable def rankByScore (policy : SchedulingPolicy) (s : QueueStats)
    (requests : List ScoredRequest) : Except ScoreError (List ScoredRequest) := do
  let requests ← requests.mapM fun q => do
    let p ← scorePriority policy s q
    .ok { q with priority := p }
  let scored := sortBy (fun q => toLex (q.priority, q.arrivalTime)) requests
  .ok (scored.mapIdx fun i q => { q with priority := i + 1 })

/-- What `schedule` does under a score policy: the statistics are updated, then the live
requests are ranked. -/
noncomputable def rankStep (policy : SchedulingPolicy) (now : ℝ) (requests : List ScoredRequest)
    (s : QueueStats) : Except ScoreError (QueueStats × List ScoredRequest) := do
  let (s, requests) ← updateQueueStats now requests s
  let ranked ← rankByScore policy s requests
  .ok (s, ranked)

end RpsServe
