import RpsServe.Lib.Except
import RpsServe.Llmperf.Output
import Mathlib.Tactic.NormNum

/-!
# Preemption gaps

The preemption metrics regroup the engine's per-step log by request, sort the times, and pair
each preemption with a resume by a scan. For a log in which the events of every request
alternate in time, the scan pairs every preemption with its own resume: what a request is
charged is the sum of its gaps, and both metrics use this sum.
-/

namespace RpsServe.Llmperf

/-! ## The log and the histories of its requests -/

/-- One step of the engine's log: who was preempted and who was rescheduled, with the times. -/
structure StepRecord where
  preempted : List (String × ℚ)
  rescheduled : List (String × ℚ)

/-- The columns of a log. -/
def EngineStats.ofLog (log : List StepRecord) : EngineStats where
  preemptedReqIds := log.map fun step => step.preempted.map Prod.fst
  preemptedReqTs := log.map fun step => step.preempted.map Prod.snd
  rescheduledReqIds := log.map fun step => step.rescheduled.map Prod.fst
  rescheduledReqTs := log.map fun step => step.rescheduled.map Prod.snd

/-- The preemptions and resumes of one request in their order: pairs of a preemption and its
resume, then at most one preemption without a resume, at strictly increasing times. -/
structure History where
  pairs : List (ℚ × ℚ)
  unmatched : Option ℚ
  increasing : (pairs.flatMap (fun p => [p.1, p.2]) ++ unmatched.toList).Pairwise (· < ·)

namespace History

/-- The times of the preemptions. -/
def preempts (h : History) : List ℚ := h.pairs.map Prod.fst ++ h.unmatched.toList

/-- The times of the resumes. -/
def resumes (h : History) : List ℚ := h.pairs.map Prod.snd

/-- How long each matched preemption lasted. -/
def gaps (h : History) : List ℚ := h.pairs.map fun p => p.2 - p.1

/-- How long the matched preemptions lasted together. -/
def preemptedTime (h : History) : ℚ := h.gaps.sum

end History

/-- The events of every request in the log, taken over all steps in any order, are those of its
history. -/
def Alternates (log : List StepRecord) (history : String → History) : Prop :=
  ∀ reqId,
    (valuesAt reqId (log.flatMap StepRecord.preempted)).Perm (history reqId).preempts ∧
      (valuesAt reqId (log.flatMap StepRecord.rescheduled)).Perm (history reqId).resumes

/-- Columns made of the steps' events give the events back. -/
theorem events_of_columns (steps : List (List (String × ℚ))) :
    events (steps.map (List.map Prod.fst)) (steps.map (List.map Prod.snd)) = steps.flatten := by
  have hstep : ∀ step : List (String × ℚ), (step.map Prod.fst).zip (step.map Prod.snd) = step := by
    intro step
    rw [List.zip_map']
    exact List.map_id' step
  rw [events, List.zip_map', List.flatMap_map]
  simp only [hstep]
  exact List.flatMap_id

/-- The preemption columns hold the preemptions of the log. -/
theorem events_preempted (log : List StepRecord) :
    events (EngineStats.ofLog log).preemptedReqIds (EngineStats.ofLog log).preemptedReqTs =
      log.flatMap StepRecord.preempted := by
  have h := events_of_columns (log.map StepRecord.preempted)
  rw [List.map_map, List.map_map] at h
  exact h

/-- The reschedule columns hold the reschedules of the log. -/
theorem events_rescheduled (log : List StepRecord) :
    events (EngineStats.ofLog log).rescheduledReqIds (EngineStats.ofLog log).rescheduledReqTs =
      log.flatMap StepRecord.rescheduled := by
  have h := events_of_columns (log.map StepRecord.rescheduled)
  rw [List.map_map, List.map_map] at h
  exact h

/-! ## The scan -/

/-- Without resumes nothing is paired. -/
@[simp] theorem pairResumes_nil (pre : List ℚ) : pairResumes pre [] = [] := by
  induction pre with
  | nil => rfl
  | cons t rest ih => exact ih

/-- The scan pairs the preemptions of a history with their own resumes. The invariant of the scan is
that the resumes left are those of the pairs left: the next of them is later than the preemption
at hand, so that none is skipped. -/
theorem pairResumes_pairs (unmatched : Option ℚ) (pairs : List (ℚ × ℚ))
    (h : ∀ p ∈ pairs, p.1 < p.2) :
    pairResumes (pairs.map Prod.fst ++ unmatched.toList) (pairs.map Prod.snd) =
      pairs.map fun p => p.2 - p.1 := by
  induction pairs with
  | nil => exact pairResumes_nil _
  | cons p rest ih =>
    have hlater : ¬p.2 ≤ p.1 := not_le.mpr (h p List.mem_cons_self)
    have hnone : ((p :: rest).map Prod.snd).dropWhile (fun res => res ≤ p.1) =
        p.2 :: rest.map Prod.snd := by
      rw [List.map_cons, List.dropWhile_cons, if_neg (by simpa using hlater)]
    rw [List.map_cons, List.cons_append, pairResumes, hnone, List.map_cons]
    exact congrArg _ (ih fun q hq => h q (List.mem_cons_of_mem p hq))

/-- The preemptions and the resumes of a history stand in it in their order. -/
theorem History.preempts_sublist (h : History) :
    h.preempts.Sublist (h.pairs.flatMap (fun p => [p.1, p.2]) ++ h.unmatched.toList) := by
  refine List.Sublist.append_right ?_ _
  induction h.pairs with
  | nil => exact .slnil
  | cons p rest ih => exact .cons_cons p.1 (.cons p.2 ih)

/-- The resumes of a history are among its events. -/
theorem History.resumes_sublist (h : History) :
    h.resumes.Sublist (h.pairs.flatMap (fun p => [p.1, p.2]) ++ h.unmatched.toList) := by
  refine List.Sublist.trans ?_ (List.sublist_append_left _ _)
  rw [History.resumes]
  induction h.pairs with
  | nil => exact .slnil
  | cons p rest ih => exact .cons p.1 (.cons_cons p.2 ih)

/-- Each resume is later than its preemption. -/
theorem History.pair_lt (h : History) {p : ℚ × ℚ} (hp : p ∈ h.pairs) : p.1 < p.2 := by
  have hpairs := (List.pairwise_append.mp h.increasing).1
  simpa using (List.pairwise_flatMap.mp hpairs).1 p hp

/-- Sorting events that are those of a strictly increasing list gives this list. -/
theorem sortBy_of_increasing {events times : List ℚ} (hperm : events.Perm times)
    (htimes : times.Pairwise (· < ·)) : sortBy id events = times := by
  refine List.Perm.eq_of_pairwise (fun a b _ _ hab hba => le_antisymm hab hba)
    (sortBy_pairwise id events) (htimes.imp fun hlt => le_of_lt hlt) ?_
  exact (sortBy_perm id events).trans hperm

/-! ## The deltas of a request -/

/-- The deltas are appended one after the other to those of their request. -/
theorem preemptionDeltas_eq_group (stats : EngineStats) :
    preemptionDeltas stats = Dict.group
      (((Dict.group (events stats.preemptedReqIds stats.preemptedReqTs)).mapValues
        (sortBy id)).entries.flatMap fun e =>
          (pairResumes e.2 (sortBy id
            (valuesAt e.1 (events stats.rescheduledReqIds stats.rescheduledReqTs)))).map
              fun delta => (e.1, delta)) := by
  rw [preemptionDeltas, Dict.group_flatMap]
  congr 1
  funext deltas e
  rw [List.foldl_map, Dict.get?_mapValues, Dict.get?_group]
  split
  · rename_i hnone
    split at hnone
    · rename_i hnil
      rw [hnil]
      simp [sortBy]
    · cases hnone
  · rename_i resumes hsome
    split at hsome
    · cases hsome
    · cases hsome
      rfl

/-- The deltas of a request are those of the scan over its sorted events; a request without deltas
is absent. -/
theorem get?_preemptionDeltas (stats : EngineStats) (reqId : String) :
    (preemptionDeltas stats).get? reqId =
      let deltas := pairResumes
        (sortBy id (valuesAt reqId (events stats.preemptedReqIds stats.preemptedReqTs)))
        (sortBy id (valuesAt reqId (events stats.rescheduledReqIds stats.rescheduledReqTs)))
      if deltas = [] then none else some deltas := by
  rw [preemptionDeltas_eq_group, Dict.get?_group, valuesAt_flatMap reqId
    fun k pre => pairResumes pre (sortBy id
      (valuesAt k (events stats.rescheduledReqIds stats.rescheduledReqTs)))]
  rw [Dict.valuesAt_entries, Dict.get?_mapValues, Dict.get?_group]
  split
  · rename_i hnil
    simp [hnil, sortBy, pairResumes]
  · simp

/-- In a log whose events alternate, a request has the gaps of its matched pairs as its deltas; a
request without a matched pair has none. -/
theorem get?_preemptionDeltas_of_alternates {log : List StepRecord} {history : String → History}
    (h : Alternates log history) (reqId : String) :
    (preemptionDeltas (.ofLog log)).get? reqId =
      if (history reqId).pairs = [] then none else some (history reqId).gaps := by
  have hpre := sortBy_of_increasing (h reqId).1
    ((history reqId).increasing.sublist (history reqId).preempts_sublist)
  have hres := sortBy_of_increasing (h reqId).2
    ((history reqId).increasing.sublist (history reqId).resumes_sublist)
  have hscan : pairResumes (history reqId).preempts (history reqId).resumes =
      (history reqId).gaps :=
    pairResumes_pairs _ _ fun p hp => (history reqId).pair_lt hp
  rw [get?_preemptionDeltas, events_preempted, events_rescheduled, hpre, hres, hscan]
  simp [History.gaps]

/-! ## The metrics -/

namespace ExperimentOutput

variable {output : ExperimentOutput} {filter : Option Filter} {method : Method}
variable {stats : EngineStats}

/-- The requests that the preemption metrics count, in the order in which they are counted. -/
def countedIds (output : ExperimentOutput) (stats : EngineStats) (filter : Option Filter) :
    List String :=
  (preemptionDeltas stats).keys.filter fun reqId => decide (reqId ∈ output.filteredReqIds filter)

/-- No request is counted twice. -/
theorem countedIds_nodup : (output.countedIds stats filter).Nodup :=
  (preemptionDeltas stats).keys_nodup.filter _

/-- The entries that pass the filter are those of the counted requests. -/
theorem countedEntries_ids :
    ((preemptionDeltas stats).entries.filter fun e =>
      decide (e.1 ∈ output.filteredReqIds filter)).map Prod.fst = output.countedIds stats filter := by
  rw [countedIds, Dict.keys, List.filter_map]
  rfl

/-- The filter lets an id through when it includes an output with this id. -/
theorem mem_filteredReqIds {reqId : String} : reqId ∈ output.filteredReqIds filter ↔
    ∃ ro ∈ output.requestOutputs, (filter.getD {}).include ro = true ∧ ro.vllmId = reqId := by
  rw [filteredReqIds, List.mem_toFinset, List.mem_map]
  simp only [included, List.mem_filter, and_assoc]

/-- The latencies are the sums of the counted requests. -/
theorem preemptionLatency_eq {charge : String → ℚ} (hstats : output.engineStats = some stats)
    (hcharge : ∀ e ∈ (preemptionDeltas stats).entries, e.2.sum = charge e.1) :
    output.preemptionLatency method filter =
      .ok (aggregate method ((output.countedIds stats filter).map charge)) := by
  have hlatencies : ((preemptionDeltas stats).entries.filterMap fun e =>
      if e.1 ∈ output.filteredReqIds filter then some e.2.sum else none) =
      (output.countedIds stats filter).map charge := by
    rw [← countedEntries_ids, List.map_map, ← List.filterMap_eq_map, List.filterMap_filter]
    refine List.filterMap_congr fun e he => ?_
    by_cases hin : e.1 ∈ output.filteredReqIds filter
    · simp [hin, hcharge e he]
    · simp [hin]
  rw [preemptionLatency, hstats]
  exact congrArg _ (congrArg _ hlatencies)

/-- The delays are made of the sums of the counted requests. -/
theorem relativeDelay_eq {charge : String → ℚ} (hstats : output.engineStats = some stats)
    (hcharge : ∀ e ∈ (preemptionDeltas stats).entries, e.2.sum = charge e.1) :
    output.relativeDelay method filter =
      aggregate method <$> (output.countedIds stats filter).mapM fun reqId =>
        output.relativeDelayOf reqId (charge reqId) := by
  have hdelays : (((preemptionDeltas stats).entries.filter fun e =>
      decide (e.1 ∈ output.filteredReqIds filter)).mapM fun e =>
        output.relativeDelayOf e.1 e.2.sum) =
      (output.countedIds stats filter).mapM fun reqId =>
        output.relativeDelayOf reqId (charge reqId) := by
    rw [← countedEntries_ids, List.mapM_map]
    refine mapM_congr fun e he => ?_
    rw [Function.comp_apply, hcharge e (List.mem_of_mem_filter he)]
  rw [relativeDelay, hstats]
  simp only [hdelays]
  rfl

/-- A counted request has an output, so that its delay is read off the last of its outputs. -/
theorem relativeDelayOf_ok {reqId : String} (h : reqId ∈ output.filteredReqIds filter) :
    ∃ ro ∈ output.requestOutputs, ro.vllmId = reqId ∧ ∀ latency,
      output.relativeDelayOf reqId latency = divide (latency + ro.timeInQueue) ro.e2e := by
  rw [filteredReqIds, List.mem_toFinset, List.mem_map] at h
  obtain ⟨ro', hro', hid'⟩ := h
  have hget : (output.reqIdToRo.get? reqId).isSome := by
    rw [reqIdToRo, Dict.get?_indexBy, List.find?_isSome]
    exact ⟨ro', List.mem_reverse.mpr (List.mem_of_mem_filter hro'), by simpa using hid'⟩
  obtain ⟨ro, hro⟩ := Option.isSome_iff_exists.mp hget
  have hfind := hro
  rw [reqIdToRo, Dict.get?_indexBy] at hfind
  refine ⟨ro, List.mem_reverse.mp (List.mem_of_find?_eq_some hfind), ?_, fun latency => ?_⟩
  · simpa using List.find?_some hfind
  · rw [relativeDelayOf, hro]

variable (output filter method) in
/-- In a log in which the events of every request alternate, each request is charged with the gaps
of its matched pairs and with no other time. Both metrics count each request once that has a matched
pair and an output which the filter includes, and both use the sum of its gaps. -/
theorem preemptionGaps_of_alternates {log : List StepRecord} {history : String → History}
    (hstats : output.engineStats = some (.ofLog log)) (h : Alternates log history) :
    (∀ reqId, (preemptionDeltas (.ofLog log)).get? reqId =
      if (history reqId).pairs = [] then none else some (history reqId).gaps) ∧
    ∃ reqIds : List String, reqIds.Nodup ∧
      (∀ reqId, reqId ∈ reqIds ↔ (history reqId).pairs ≠ [] ∧
        ∃ ro ∈ output.requestOutputs, (filter.getD {}).include ro = true ∧ ro.vllmId = reqId) ∧
      output.preemptionLatency method filter =
        .ok (aggregate method (reqIds.map fun reqId => (history reqId).preemptedTime)) ∧
      output.relativeDelay method filter =
        aggregate method <$> (reqIds.mapM fun reqId =>
          output.relativeDelayOf reqId (history reqId).preemptedTime) ∧
      ∀ reqId ∈ reqIds, ∃ ro ∈ output.requestOutputs, ro.vllmId = reqId ∧ ∀ latency,
        output.relativeDelayOf reqId latency = divide (latency + ro.timeInQueue) ro.e2e := by
  have hdeltas := get?_preemptionDeltas_of_alternates h
  have hcharge : ∀ e ∈ (preemptionDeltas (.ofLog log)).entries,
      e.2.sum = (history e.1).preemptedTime := by
    intro e he
    have hget := Dict.get?_of_mem_entries he
    rw [hdeltas e.1] at hget
    split at hget
    · cases hget
    · rw [← Option.some.inj hget, History.preemptedTime]
  have hcounted : ∀ reqId, reqId ∈ output.countedIds (.ofLog log) filter ↔
      (history reqId).pairs ≠ [] ∧ reqId ∈ output.filteredReqIds filter := by
    intro reqId
    rw [countedIds, List.mem_filter, ← Dict.isSome_get?, hdeltas reqId, decide_eq_true_iff]
    refine and_congr_left fun _ => ?_
    split
    · rename_i hnil
      simp [hnil]
    · rename_i hne
      simp [hne]
  exact ⟨hdeltas, output.countedIds (.ofLog log) filter, countedIds_nodup,
    fun reqId => (hcounted reqId).trans (and_congr_right' mem_filteredReqIds),
    preemptionLatency_eq hstats hcharge, relativeDelay_eq hstats hcharge,
    fun reqId hid => relativeDelayOf_ok ((hcounted reqId).mp hid).2⟩

end ExperimentOutput

/-- A log whose later events come first: `b` is resumed in one step, preempted in the other. -/
def shuffledLog : List StepRecord :=
  [{ preempted := [("a", 4)], rescheduled := [("b", 2)] },
    { preempted := [("b", 1), ("a", 1)], rescheduled := [("a", 3)] }]

/-- The histories of `shuffledLog`; the last preemption of `a` has no resume. -/
def shuffledHistory (reqId : String) : History :=
  if reqId = "a" then ⟨[(1, 3)], some 4, by decide +kernel⟩
  else if reqId = "b" then ⟨[(1, 2)], none, by decide +kernel⟩
  else ⟨[], none, by decide⟩

/-- The shuffled log alternates preemptions and resumes. -/
theorem shuffledLog_alternates : Alternates shuffledLog shuffledHistory := by
  intro reqId
  by_cases ha : reqId = "a"
  · subst ha
    decide +kernel
  · by_cases hb : reqId = "b"
    · subst hb
      decide +kernel
    · have ha' : ¬"a" = reqId := fun h => ha h.symm
      have hb' : ¬"b" = reqId := fun h => hb h.symm
      simp [shuffledLog, shuffledHistory, valuesAt, History.preempts, History.resumes,
        ha, hb, ha', hb']

/-- The outputs of the two requests, of which `a` waited for 2 and `b` for 1, both for 4 in all. -/
def shuffledOutput : ExperimentOutput where
  requestOutputs :=
    [{ id := "1", vllmId := "a", timeInQueue := 2, finishedTime := 4 },
      { id := "2", vllmId := "b", timeInQueue := 1, finishedTime := 4 },
      { id := "3", vllmId := "c", finishedTime := 4 }]
  engineStats := some (.ofLog shuffledLog)

/-- The preemption of `a` at time 1 is paired with its resume at time 3, and the one at time 4 with
none; `a` and `b` are counted once each, with 2 and 1, and `c` is not counted. -/
theorem ExperimentOutput.preemptionGaps_of_shuffledLog :
    (preemptionDeltas (.ofLog shuffledLog)).get? "a" = some [2] ∧
    (∃ reqIds : List String, reqIds.Perm ["a", "b"] ∧
      shuffledOutput.preemptionLatency .mean none =
        .ok (aggregate .mean (reqIds.map fun reqId => (shuffledHistory reqId).preemptedTime))) ∧
    shuffledOutput.preemptionLatency .mean none = .ok (3 / 2) ∧
    shuffledOutput.relativeDelay .mean none = .ok (3 / 4) := by
  obtain ⟨hdeltas, reqIds, hnodup, hmem, hlatency, -⟩ :=
    preemptionGaps_of_alternates shuffledOutput none .mean rfl shuffledLog_alternates
  have hcounted : ∀ reqId, reqId ∈ reqIds ↔ reqId ∈ ["a", "b"] := by
    intro reqId
    rw [hmem]
    by_cases ha : reqId = "a"
    · subst ha
      decide +kernel
    · by_cases hb : reqId = "b"
      · subst hb
        decide +kernel
      · simp [shuffledHistory, ha, hb]
  refine ⟨?_, ⟨reqIds, ?_, hlatency⟩, by decide +kernel, by decide +kernel⟩
  · rw [hdeltas "a"]
    decide +kernel
  · exact (List.perm_ext_iff_of_nodup hnodup (by decide)).mpr hcounted

end RpsServe.Llmperf
