import RpsServe.Lib.Grouping
import RpsServe.Lib.SortBy
import Mathlib.Algebra.Order.Field.Rat
import Mathlib.Data.Rat.Floor
import Mathlib.Order.WithBot
import Mathlib.Algebra.BigOperators.Group.List.Basic
import Mathlib.Data.Finset.Basic

/-!
# The outputs of a run and their metrics

The records that a benchmark run leaves (`postprocessing/output.py`), the filter over them
(`filter.py`), the aggregation of a metric (`aggregator.py`), and the metrics that rest on more
than one record: the preemption latencies paired from the engine's per-step log, and the three
passes that compare latencies with objectives. Times are rational numbers. The loops over the
outputs are folds whose state is the loop's variables.
-/

namespace RpsServe.Llmperf

/-- What a metric raises: an access to a missing object, a key that a mapping lacks, or a division
by zero. -/
inductive OutputError where
  | attributeError
  | keyError
  | zeroDivisionError
deriving DecidableEq, Repr

/-- Division, which raises on a zero divisor. -/
def divide (a b : ℚ) : Except OutputError ℚ :=
  if b = 0 then .error .zeroDivisionError else .ok (a / b)

/-- `RequestOutput`: the fields that the modelled metrics read, with the defaults of the source. -/
structure RequestOutput where
  id : String
  decodeTokensCnt : ℕ := 0
  vllmId : String := "0"
  arrivalTime : ℚ := 0
  inputProcessedTime : ℚ := 0
  firstScheduledTime : ℚ := 0
  firstTokenTime : ℚ := 0
  timeInQueue : ℚ := 0
  finishedTime : ℚ := 0
  category : Option String := none
  aborted : Option Bool := none
  slo : Option ℚ := none
  ttftSlo : Option ℚ := none
  tbtSlo : Option ℚ := none

namespace RequestOutput

/-- `RequestOutput.processor_time`. -/
def processorTime (ro : RequestOutput) : ℚ := ro.inputProcessedTime - ro.arrivalTime

/-- `RequestOutput.ttft`. -/
def ttft (ro : RequestOutput) : ℚ :=
  ro.processorTime + ro.timeInQueue + (ro.firstTokenTime - ro.firstScheduledTime)

/-- `RequestOutput.e2e`. -/
def e2e (ro : RequestOutput) : ℚ := ro.finishedTime - ro.arrivalTime

/-- `RequestOutput.tbt`. -/
def tbt (ro : RequestOutput) : ℚ :=
  if ro.decodeTokensCnt ≤ 1 then 0 else (ro.e2e - ro.ttft) / (ro.decodeTokensCnt - 1)

end RequestOutput

/-- `Filter`. -/
structure Filter where
  categoryIds : Option (Finset String) := none
  category : Option String := none
  includeAborted : Bool := false

/-- `Filter.include`. -/
def Filter.include (filter : Filter) (ro : RequestOutput) : Bool :=
  if !filter.includeAborted && ro.aborted.getD false then false
  else
    match filter.categoryIds, filter.category with
    | some ids, some category =>
      (ro.category == none && decide (ro.id ∈ ids)) || ro.category == some category
    | some ids, none => decide (ro.id ∈ ids)
    | none, some category => ro.category == some category
    | none, none => true

/-- `Aggregator.Method`. -/
inductive Method where
  | mean
  | p50
  | p90
  | p95
  | p99
deriving DecidableEq, Repr

/-- The percentile with linear interpolation between the two entries of the sorted data next to the
position. -/
def percentile (data : List ℚ) (q : ℚ) : ℚ :=
  let sorted := sortBy id data
  let position := (data.length - 1 : ℚ) * q / 100
  let lower := sorted.getD ⌊position⌋.toNat 0
  let upper := sorted.getD (⌊position⌋.toNat + 1) lower
  lower + (upper - lower) * (position - ⌊position⌋)

/-- `Aggregator.aggregate`. -/
def aggregate (method : Method) (data : List ℚ) : ℚ :=
  if data = [] then 0
  else
    match method with
    | .mean => data.sum / data.length
    | .p50 => percentile data 50
    | .p90 => percentile data 90
    | .p95 => percentile data 95
    | .p99 => percentile data 99

/-- `EngineStats`: the preemption columns of the engine's per-step log, one entry a step. -/
structure EngineStats where
  preemptedReqIds : List (List String)
  preemptedReqTs : List (List ℚ)
  rescheduledReqIds : List (List String)
  rescheduledReqTs : List (List ℚ)

/-- `ExperimentOutput`: what the modelled metrics read of it. -/
structure ExperimentOutput where
  requestOutputs : List RequestOutput := []
  engineStats : Option EngineStats := none

/-- The events of two columns: the ids of every step paired with their times. -/
def events (ids : List (List String)) (ts : List (List ℚ)) : List (String × ℚ) :=
  (ids.zip ts).flatMap fun step => step.1.zip step.2

/-- The scan over the sorted preemptions and resumes of one request. The second argument is
`res_ts_list` from `res_idx` on: the scan skips the resumes that are not later than the
preemption, and uses up the one it pairs. -/
def pairResumes : List ℚ → List ℚ → List ℚ
  | [], _ => []
  | pre :: rest, resumes =>
    match resumes.dropWhile fun res => res ≤ pre with
    | [] => pairResumes rest []
    | res :: later => (res - pre) :: pairResumes rest later

/-- `preemption_deltas`, which `preemption_latency` and `relative_delay` both build. -/
def preemptionDeltas (stats : EngineStats) : Dict String (List ℚ) :=
  let preempted :=
    (Dict.group (events stats.preemptedReqIds stats.preemptedReqTs)).mapValues (sortBy id)
  let rescheduled :=
    (Dict.group (events stats.rescheduledReqIds stats.rescheduledReqTs)).mapValues (sortBy id)
  preempted.entries.foldl
    (fun deltas e =>
      match rescheduled.get? e.1 with
      | none => deltas
      | some resumes => (pairResumes e.2 resumes).foldl (fun d delta => d.push e.1 delta) deltas)
    Dict.empty

namespace ExperimentOutput

variable (output : ExperimentOutput)

/-- The outputs that the filter includes; without a filter, those of `Filter()`. -/
def included (filter : Option Filter) : List RequestOutput :=
  output.requestOutputs.filter fun ro => (filter.getD {}).include ro

/-- `filtered_req_ids`. -/
def filteredReqIds (filter : Option Filter) : Finset String :=
  ((output.included filter).map RequestOutput.vllmId).toFinset

/-- `ExperimentOutput.preemption_latency`. -/
def preemptionLatency (method : Method) (filter : Option Filter) : Except OutputError ℚ :=
  match output.engineStats with
  | none => .error .attributeError
  | some stats =>
    let latencies := (preemptionDeltas stats).entries.filterMap fun e =>
      if e.1 ∈ output.filteredReqIds filter then some e.2.sum else none
    .ok (aggregate method latencies)

/-- `req_id_to_ro`: of several outputs with one id the last one stays. -/
def reqIdToRo : Dict String RequestOutput :=
  Dict.indexBy RequestOutput.vllmId output.requestOutputs

/-- The entry of `relative_delays` for a request with this preemption latency. -/
def relativeDelayOf (reqId : String) (preemptionLatency : ℚ) : Except OutputError ℚ :=
  match output.reqIdToRo.get? reqId with
  | none => .error .keyError
  | some ro => divide (preemptionLatency + ro.timeInQueue) ro.e2e

/-- `ExperimentOutput.relative_delay`. -/
def relativeDelay (method : Method) (filter : Option Filter) : Except OutputError ℚ :=
  match output.engineStats with
  | none => .error .attributeError
  | some stats => do
    let preempted := (preemptionDeltas stats).entries.filter fun e =>
      decide (e.1 ∈ output.filteredReqIds filter)
    let delays ← preempted.mapM fun e => output.relativeDelayOf e.1 e.2.sum
    return aggregate method delays

end ExperimentOutput

/-! ## Objectives -/

/-- The keys of `LATENCY_SLO_MAP`. -/
inductive LatencyType where
  | e2e
  | tbt
  | ttft
deriving DecidableEq, Repr

/-- `getattr(ro, latency_attr)` for the attribute that `LATENCY_SLO_MAP` names. -/
def LatencyType.latency : LatencyType → RequestOutput → ℚ
  | .e2e => RequestOutput.e2e
  | .tbt => RequestOutput.tbt
  | .ttft => RequestOutput.ttft

/-- `getattr(ro, slo_attr)` for the attribute that `LATENCY_SLO_MAP` names. -/
def LatencyType.slo : LatencyType → RequestOutput → Option ℚ
  | .e2e => RequestOutput.slo
  | .tbt => RequestOutput.tbtSlo
  | .ttft => RequestOutput.ttftSlo

/-- `slo_map.get(ro.id, float("inf"))`. -/
def mappedSlo (sloMap : Dict String ℚ) (ro : RequestOutput) : WithTop ℚ :=
  match sloMap.get? ro.id with
  | some slo => slo
  | none => ⊤

/-- The recorded objective where it counts as one: `slo is None or slo == 0.0` fails. -/
def nonzeroSlo (slo : Option ℚ) : Option ℚ := slo.filter fun slo => slo ≠ 0

/-- The objective that `_slo_attainment` compares with. -/
def attainmentSlo (type : LatencyType) (sloMap : Dict String ℚ) (ro : RequestOutput) :
    WithTop ℚ :=
  match nonzeroSlo (type.slo ro) with
  | some slo => slo
  | none => mappedSlo sloMap ro

/-- The objective that `slo_violations` compares with. It reads `slo_map` without replacing
`None` by an empty mapping. -/
def violationSlo (type : LatencyType) (sloMap : Option (Dict String ℚ)) (ro : RequestOutput) :
    Except OutputError (WithTop ℚ) :=
  match nonzeroSlo (type.slo ro), sloMap with
  | some slo, _ => .ok slo
  | none, some sloMap => .ok (mappedSlo sloMap ro)
  | none, none => .error .attributeError

/-- The objective that `goodput` compares with: only `slo is None` counts as missing. -/
def goodputSlo (sloMap : Dict String ℚ) (ro : RequestOutput) : WithTop ℚ :=
  match ro.slo with
  | some slo => slo
  | none => mappedSlo sloMap ro

/-- The variables of the loop of `_slo_attainment`. -/
structure AttainmentScan where
  filteredCnt : ℕ := 0
  attainedCnt : ℕ := 0

/-- The variables of the loop of `goodput`. -/
structure GoodputScan where
  attainedCnt : ℕ := 0
  startTime : WithTop ℚ := ⊤
  finishedTime : ℚ := 0

namespace ExperimentOutput

variable (output : ExperimentOutput)

/-- `ExperimentOutput.slo_violations`. -/
def sloViolations (type : LatencyType) (filter : Option Filter)
    (sloMap : Option (Dict String ℚ)) : Except OutputError ℕ :=
  output.requestOutputs.foldlM
    (fun numViolations ro =>
      if !(filter.getD {}).include ro then pure numViolations
      else do
        let slo ← violationSlo type sloMap ro
        return if slo < type.latency ro then numViolations + 1 else numViolations)
    0

/-- The loop of `ExperimentOutput._slo_attainment`. -/
def sloAttainmentScan (type : LatencyType) (filter : Option Filter)
    (sloMap : Option (Dict String ℚ)) : AttainmentScan :=
  output.requestOutputs.foldl
    (fun scan ro =>
      if !(filter.getD {}).include ro then scan
      else
        { filteredCnt := scan.filteredCnt + 1
          attainedCnt :=
            if (type.latency ro : WithTop ℚ) ≤ attainmentSlo type (sloMap.getD Dict.empty) ro then
              scan.attainedCnt + 1
            else scan.attainedCnt })
    {}

/-- `ExperimentOutput._slo_attainment`. -/
def sloAttainment (type : LatencyType) (filter : Option Filter)
    (sloMap : Option (Dict String ℚ)) : ℚ :=
  let scan := output.sloAttainmentScan type filter sloMap
  if scan.filteredCnt = 0 then 0 else scan.attainedCnt / scan.filteredCnt * 100

/-- The loop of `ExperimentOutput.goodput`. -/
def goodputScan (filter : Option Filter) (sloMap : Option (Dict String ℚ)) : GoodputScan :=
  output.requestOutputs.foldl
    (fun scan ro =>
      if !(filter.getD {}).include ro then scan
      else
        { attainedCnt :=
            if (ro.e2e : WithTop ℚ) ≤ goodputSlo (sloMap.getD Dict.empty) ro then
              scan.attainedCnt + 1
            else scan.attainedCnt
          startTime := min scan.startTime ro.arrivalTime
          finishedTime := max scan.finishedTime ro.finishedTime })
    {}

/-- `ExperimentOutput.goodput`. -/
def goodput (filter : Option Filter) (sloMap : Option (Dict String ℚ)) :
    Except OutputError ℚ :=
  let scan := output.goodputScan filter sloMap
  if scan.attainedCnt = 0 then .ok 0
  else divide scan.attainedCnt (scan.finishedTime - scan.startTime.untopD 0)

end ExperimentOutput

end RpsServe.Llmperf
