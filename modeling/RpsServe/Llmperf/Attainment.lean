import RpsServe.Lib.Except
import RpsServe.Llmperf.Output

/-!
# Agreement of the attainment metrics

Three loops over the outputs of a run compare end-to-end latencies with objectives: `goodput`,
`_slo_attainment` and `slo_violations`. Each is a count over the included outputs. The first
takes a recorded objective of zero at its word, the other two as a missing one, and the last
raises where it needs a map and has none. The three agree exactly when neither difference shows.
-/

namespace RpsServe.Llmperf

/-! ## The loops as counts -/

/-- A loop that skips what the filter leaves out and counts what meets `p` of the rest. -/
theorem foldl_count {σ α : Type*} (count : σ → ℕ) (included p : α → Bool) {step : σ → α → σ}
    (hskip : ∀ s a, included a = false → count (step s a) = count s)
    (hcount : ∀ s a, included a = true → count (step s a) = count s + if p a then 1 else 0)
    (l : List α) (s : σ) :
    count (l.foldl step s) = count s + (l.filter included).countP p := by
  induction l generalizing s with
  | nil => simp
  | cons a rest ih =>
    rw [List.foldl_cons, ih]
    cases hin : included a with
    | false => rw [hskip s a hin, List.filter_cons_of_neg (by simp [hin])]
    | true =>
      rw [hcount s a hin, List.filter_cons_of_pos hin, List.countP_cons]
      omega

/-- There is an objective to compare with: a map, or a recorded one that is not zero. -/
def hasObjective (type : LatencyType) (sloMap : Option (Dict String ℚ)) (ro : RequestOutput) :
    Bool :=
  sloMap.isSome || (nonzeroSlo (type.slo ro)).isSome

/-- Where `slo_violations` finds an objective, it is the one of `_slo_attainment`. -/
theorem violationSlo_eq (type : LatencyType) (sloMap : Option (Dict String ℚ))
    (ro : RequestOutput) :
    violationSlo type sloMap ro =
      if hasObjective type sloMap ro then
        .ok (attainmentSlo type (sloMap.getD Dict.empty) ro)
      else .error .attributeError := by
  unfold violationSlo attainmentSlo hasObjective
  cases nonzeroSlo (type.slo ro) with
  | some slo => simp
  | none =>
    cases sloMap with
    | some sloMap => simp
    | none => simp

namespace ExperimentOutput

variable (output : ExperimentOutput) (type : LatencyType) (filter : Option Filter)
variable (sloMap : Option (Dict String ℚ))

/-- `_slo_attainment` counts the included outputs. -/
theorem filteredCnt_eq :
    (output.sloAttainmentScan type filter sloMap).filteredCnt =
      (output.included filter).length := by
  rw [sloAttainmentScan,
    foldl_count AttainmentScan.filteredCnt (filter.getD {}).include (fun _ => true)]
  · simp [included]
  · intro s ro hin
    simp [hin]
  · intro s ro hin
    simp [hin]

/-- `_slo_attainment` counts the included outputs within its objective. -/
theorem attainedCnt_eq :
    (output.sloAttainmentScan type filter sloMap).attainedCnt =
      (output.included filter).countP fun ro =>
        decide ((type.latency ro : WithTop ℚ) ≤
          attainmentSlo type (sloMap.getD Dict.empty) ro) := by
  rw [sloAttainmentScan,
    foldl_count AttainmentScan.attainedCnt (filter.getD {}).include fun ro =>
      decide ((type.latency ro : WithTop ℚ) ≤ attainmentSlo type (sloMap.getD Dict.empty) ro)]
  · exact Nat.zero_add _
  · intro s ro hin
    simp [hin]
  · intro s ro hin
    simp only [hin, Bool.not_true, Bool.false_eq_true, if_false, decide_eq_true_iff]
    split <;> rfl

/-- `_slo_attainment` is the percentage of the included outputs that are within its objective. -/
theorem sloAttainment_eq :
    output.sloAttainment type filter sloMap =
      if output.included filter = [] then 0
      else
        (((output.included filter).countP fun ro =>
          decide ((type.latency ro : WithTop ℚ) ≤
            attainmentSlo type (sloMap.getD Dict.empty) ro) : ℕ) : ℚ) /
          (output.included filter).length * 100 := by
  rw [sloAttainment, filteredCnt_eq, attainedCnt_eq]
  simp only [List.length_eq_zero_iff]

/-- `goodput` counts the included outputs within its objective. -/
theorem goodputCnt_eq :
    (output.goodputScan filter sloMap).attainedCnt =
      (output.included filter).countP fun ro =>
        decide ((ro.e2e : WithTop ℚ) ≤ goodputSlo (sloMap.getD Dict.empty) ro) := by
  rw [goodputScan,
    foldl_count GoodputScan.attainedCnt (filter.getD {}).include fun ro =>
      decide ((ro.e2e : WithTop ℚ) ≤ goodputSlo (sloMap.getD Dict.empty) ro)]
  · exact Nat.zero_add _
  · intro s ro hin
    simp [hin]
  · intro s ro hin
    simp only [hin, Bool.not_true, Bool.false_eq_true, if_false, decide_eq_true_iff]
    split <;> rfl

/-- `slo_violations` raises when an included output has no objective, and otherwise counts the
included outputs beyond the objective of `_slo_attainment`. -/
theorem sloViolations_eq :
    output.sloViolations type filter sloMap =
      if (output.included filter).all (hasObjective type sloMap) then
        .ok ((output.included filter).countP fun ro =>
          decide (attainmentSlo type (sloMap.getD Dict.empty) ro < type.latency ro))
      else .error .attributeError := by
  have hloop : ∀ (l : List RequestOutput) (n : ℕ),
      l.foldlM (fun numViolations ro =>
        if !(filter.getD {}).include ro then pure numViolations
        else do
          let slo ← violationSlo type sloMap ro
          return if slo < type.latency ro then numViolations + 1 else numViolations) n =
      if (l.filter (filter.getD {}).include).all (hasObjective type sloMap) then
        Except.ok (n + (l.filter (filter.getD {}).include).countP fun ro =>
          decide (attainmentSlo type (sloMap.getD Dict.empty) ro < type.latency ro))
      else Except.error OutputError.attributeError := by
    intro l
    induction l with
    | nil => exact fun n => rfl
    | cons ro rest ih =>
      intro n
      rw [List.foldlM_cons]
      cases hin : (filter.getD {}).include ro with
      | false =>
        rw [List.filter_cons_of_neg (by simp [hin])]
        exact ih n
      | true =>
        rw [List.filter_cons_of_pos hin, List.all_cons, List.countP_cons, violationSlo_eq]
        cases hobj : hasObjective type sloMap ro with
        | false => rfl
        | true =>
          have hround := ih (if attainmentSlo type (sloMap.getD Dict.empty) ro < type.latency ro
            then n + 1 else n)
          refine hround.trans ?_
          rw [Bool.true_and]
          congr 2
          simp only [decide_eq_true_iff]
          split <;> omega
  rw [sloViolations, hloop]
  simp [included]

/-! ## Agreement -/

/-- The included outputs with a recorded objective of zero. -/
def zeroSloOutputs : List RequestOutput :=
  (output.included filter).filter fun ro => ro.slo == some 0

/-- Apart from a recorded objective of zero, `goodput` and `_slo_attainment` compare with the same
objective. -/
theorem goodputSlo_eq_attainmentSlo (map : Dict String ℚ) {ro : RequestOutput}
    (h : ro.slo ≠ some 0) : goodputSlo map ro = attainmentSlo .e2e map ro := by
  have hread : LatencyType.e2e.slo ro = ro.slo := rfl
  rw [goodputSlo, attainmentSlo, hread]
  cases hslo : ro.slo with
  | none => rfl
  | some slo =>
    have hne : slo ≠ 0 := fun hzero => h (by rw [hslo, hzero])
    simp [nonzeroSlo, Option.filter, hne]

/-- A recorded objective of zero is compared with by `goodput` and replaced by the map's in
`_slo_attainment`. -/
theorem slo_of_zero (map : Dict String ℚ) {ro : RequestOutput} (h : ro.slo = some 0) :
    goodputSlo map ro = ((0 : ℚ) : WithTop ℚ) ∧ attainmentSlo .e2e map ro = mappedSlo map ro := by
  have hread : LatencyType.e2e.slo ro = ro.slo := rfl
  rw [goodputSlo, attainmentSlo, hread, h]
  exact ⟨rfl, rfl⟩

/-- `goodput` and `_slo_attainment` agree on the number of attained objectives exactly when they
agree on the outputs with a recorded objective of zero. -/
theorem attainedCnt_agree_iff :
    (output.goodputScan filter sloMap).attainedCnt =
        (output.sloAttainmentScan .e2e filter sloMap).attainedCnt ↔
      ((output.zeroSloOutputs filter).countP fun ro => decide (ro.e2e ≤ 0)) =
        (output.zeroSloOutputs filter).countP fun ro =>
          decide ((ro.e2e : WithTop ℚ) ≤ mappedSlo (sloMap.getD Dict.empty) ro) := by
  have hsplit (p : RequestOutput → Bool) := List.countP_eq_countP_filter_add
    (output.included filter) p fun ro => ro.slo == some 0
  rw [goodputCnt_eq, attainedCnt_eq, hsplit, hsplit fun ro => decide
    ((LatencyType.e2e.latency ro : WithTop ℚ) ≤ attainmentSlo .e2e (sloMap.getD Dict.empty) ro)]
  have hother : ((output.included filter).filter fun ro => !(ro.slo == some 0)).countP (fun ro =>
        decide ((ro.e2e : WithTop ℚ) ≤ goodputSlo (sloMap.getD Dict.empty) ro)) =
      ((output.included filter).filter fun ro => !(ro.slo == some 0)).countP fun ro =>
        decide ((LatencyType.e2e.latency ro : WithTop ℚ) ≤
          attainmentSlo .e2e (sloMap.getD Dict.empty) ro) := by
    refine List.countP_congr fun ro hro => ?_
    have hne : ro.slo ≠ some 0 := by simpa using (List.mem_filter.mp hro).2
    rw [goodputSlo_eq_attainmentSlo _ hne]
    rfl
  have hgoodput : (output.zeroSloOutputs filter).countP (fun ro =>
        decide ((ro.e2e : WithTop ℚ) ≤ goodputSlo (sloMap.getD Dict.empty) ro)) =
      (output.zeroSloOutputs filter).countP fun ro => decide (ro.e2e ≤ 0) := by
    refine List.countP_congr fun ro hro => ?_
    have hzero : ro.slo = some 0 := by simpa using (List.mem_filter.mp hro).2
    rw [(slo_of_zero _ hzero).1, decide_eq_true_iff, decide_eq_true_iff, WithTop.coe_le_coe]
  have hattained : (output.zeroSloOutputs filter).countP (fun ro =>
        decide ((LatencyType.e2e.latency ro : WithTop ℚ) ≤
          attainmentSlo .e2e (sloMap.getD Dict.empty) ro)) =
      (output.zeroSloOutputs filter).countP fun ro =>
        decide ((ro.e2e : WithTop ℚ) ≤ mappedSlo (sloMap.getD Dict.empty) ro) := by
    refine List.countP_congr fun ro hro => ?_
    have hzero : ro.slo = some 0 := by simpa using (List.mem_filter.mp hro).2
    rw [(slo_of_zero _ hzero).2]
    rfl
  rw [zeroSloOutputs] at hgoodput hattained ⊢
  omega

/-- What is not attained is violated, where `slo_violations` returns. -/
theorem attainedCnt_add_violations {violations : ℕ}
    (h : output.sloViolations type filter sloMap = .ok violations) :
    (output.sloAttainmentScan type filter sloMap).attainedCnt + violations =
      (output.included filter).length := by
  rw [sloViolations_eq] at h
  split at h
  · cases h
    rw [attainedCnt_eq, List.length_eq_countP_add_countP fun ro => decide
      ((type.latency ro : WithTop ℚ) ≤ attainmentSlo type (sloMap.getD Dict.empty) ro)]
    congr 2
    funext ro
    simp
  · cases h

/-- `slo_violations` returns exactly when every included output has an objective. -/
theorem sloViolations_isOk_iff :
    (∃ violations, output.sloViolations type filter sloMap = .ok violations) ↔
      ∀ ro ∈ output.included filter, hasObjective type sloMap ro = true := by
  rw [sloViolations_eq, ← List.all_eq_true]
  split
  · rename_i hall
    simp [hall]
  · rename_i hall
    simp [hall]

/-- The three metrics count the same requests as within their end-to-end objective exactly when a
map is given or every included output has recorded an objective that is not zero, and, of the
included outputs that have recorded zero, as many finish in no time as finish within the map's
objective. -/
theorem attainmentMetrics_agree_iff :
    ((output.goodputScan filter sloMap).attainedCnt =
        (output.sloAttainmentScan .e2e filter sloMap).attainedCnt ∧
      ∃ violations, output.sloViolations .e2e filter sloMap = .ok violations ∧
        ((output.goodputScan filter sloMap).attainedCnt : ℤ) =
          (output.included filter).length - violations) ↔
      (sloMap.isSome ∨ ∀ ro ∈ output.included filter, ∃ slo, ro.slo = some slo ∧ slo ≠ 0) ∧
        ((output.zeroSloOutputs filter).countP fun ro => decide (ro.e2e ≤ 0)) =
          (output.zeroSloOutputs filter).countP fun ro =>
            decide ((ro.e2e : WithTop ℚ) ≤ mappedSlo (sloMap.getD Dict.empty) ro) := by
  have hobjective : (∀ ro ∈ output.included filter, hasObjective .e2e sloMap ro = true) ↔
      (sloMap.isSome ∨
        ∀ ro ∈ output.included filter, ∃ slo, ro.slo = some slo ∧ slo ≠ 0) := by
    cases sloMap with
    | some map => simp [hasObjective]
    | none =>
      have hrecorded (ro : RequestOutput) :
          hasObjective .e2e none ro = true ↔ ∃ slo, ro.slo = some slo ∧ slo ≠ 0 := by
        simp [hasObjective, nonzeroSlo, LatencyType.slo, Option.any_eq_true]
      simp [hrecorded]
  rw [← hobjective, ← sloViolations_isOk_iff, ← attainedCnt_agree_iff]
  constructor
  · rintro ⟨hagree, violations, hok, -⟩
    exact ⟨⟨violations, hok⟩, hagree⟩
  · rintro ⟨⟨violations, hok⟩, hagree⟩
    have hsum := output.attainedCnt_add_violations .e2e filter sloMap hok
    exact ⟨hagree, violations, hok, by omega⟩

end ExperimentOutput

/-- An output that took a second and has the recorded objective zero, which the runner writes for a
request without a profile. -/
def zeroSloRun : ExperimentOutput :=
  { requestOutputs := [{ id := "r", finishedTime := 1, slo := some 0 }] }

/-- `_slo_attainment` counts this output as attained, and `goodput` does not. -/
theorem ExperimentOutput.zeroSloRun_disagrees :
    (zeroSloRun.goodputScan none (some Dict.empty)).attainedCnt ≠
      (zeroSloRun.sloAttainmentScan .e2e none (some Dict.empty)).attainedCnt := by
  decide +kernel

end RpsServe.Llmperf
