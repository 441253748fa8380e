import RpsServe.QueueManager

/-!
# What the index updates do

One inversion for each update of the queue manager: the request it moves between the id
sets, and where the two indices come from. Every later fact about a step reads these.
-/

namespace RpsServe

namespace QueueManager

variable {qm qm' : QueueManager} {ids : Finset ReqId} {i : ℕ} {r : ReqId}

/-- An index stands in a set of ids when the request there is one of them. -/
theorem standsIn_iff : qm.standsIn ids i = true ↔ ∃ r, qm.combined[i]? = some r ∧ r ∈ ids := by
  unfold standsIn
  cases h : qm.combined[i]? <;> simp

/-- At the index of a request, standing in a set is being one of it. -/
theorem standsIn_of_getElem? (h : qm.combined[i]? = some r) :
    qm.standsIn ids i = true ↔ r ∈ ids := by
  simp [standsIn, h]

/-- Where a set of ids stands depends on the merged list alone. -/
theorem standsIn_congr (h : qm'.combined = qm.combined) : qm'.standsIn ids i = qm.standsIn ids i := by
  simp [standsIn, h]

/-- An index at which something stands is within the list. -/
theorem lt_length_of_standsIn (h : qm.standsIn ids i = true) : i < qm.combined.length := by
  obtain ⟨r, hr, -⟩ := standsIn_iff.mp h
  exact (List.getElem?_eq_some_iff.mp hr).1

/-- What no update changes. -/
structure SameList (qm qm' : QueueManager) : Prop where
  combined : qm'.combined = qm.combined
  policy : qm'.policy = qm.policy

/-- The effect of `update_idxs_after_preemption` on the last running request `v` at index `l`. -/
structure PreemptionUpdate (qm qm' : QueueManager) (l : ℕ) (v : ReqId) : Prop extends
    SameList qm qm' where
  lastRunning : qm.lastRunningIdx = some l
  stands : qm.combined[l]? = some v
  wasRunning : v ∈ qm.runningReqIds
  running : qm'.runningReqIds = qm.runningReqIds.erase v
  preempted : qm'.preemptedReqIds = insert v qm.preemptedReqIds
  waiting : qm'.waitingReqIds = qm.waitingReqIds
  ignored : qm'.ignoredReqIds = qm.ignoredReqIds
  skipped : qm'.skippedReqIds = qm.skippedReqIds
  newLastRunning : qm'.lastRunningIdx = qm'.scanLastRunning (l + 1)
  noneRunning : qm'.lastRunningIdx = none →
    qm.firstWaitingIdx = some 0 ∧ qm'.firstWaitingIdx = some 0
  newFirstWaiting : qm'.lastRunningIdx ≠ none →
    qm'.firstWaitingIdx = match qm.firstWaitingIdx with
      | some first => some (min l first)
      | none => some (qm.combined.length - 1)

/-- The effect of `update_idxs_after_new_scheduling` on the first waiting request `r` at `f`. -/
structure SchedulingUpdate (qm qm' : QueueManager) (f : ℕ) (r : ReqId) : Prop extends
    SameList qm qm' where
  firstWaiting : qm.firstWaitingIdx = some f
  stands : qm.combined[f]? = some r
  running : qm'.runningReqIds = insert r qm.runningReqIds
  preempted : qm'.preemptedReqIds = qm.preemptedReqIds.erase r
  waiting : qm'.waitingReqIds = qm.waitingReqIds.erase r
  ignored : qm'.ignoredReqIds = qm.ignoredReqIds
  skipped : qm'.skippedReqIds = qm.skippedReqIds
  newFirstWaiting : qm'.firstWaitingIdx = qm'.scanFirstWaiting f
  noneWaiting : qm'.firstWaitingIdx = none → qm'.lastRunningIdx = some (qm.combined.length - 1)
  newLastRunning : qm'.firstWaitingIdx ≠ none →
    qm'.lastRunningIdx = match qm.lastRunningIdx with
      | some last => some (max last f)
      | none => some 0

/-- The effect of `update_idxs_after_ignored` and `update_idxs_after_skipped` on the first waiting
request `r` at `f`. -/
structure DropUpdate (qm qm' : QueueManager) (f : ℕ) (r : ReqId) : Prop extends
    SameList qm qm' where
  firstWaiting : qm.firstWaitingIdx = some f
  stands : qm.combined[f]? = some r
  wasWaiting : r ∈ qm.waitingReqIds
  running : qm'.runningReqIds = qm.runningReqIds
  preempted : qm'.preemptedReqIds = qm.preemptedReqIds
  waiting : qm'.waitingReqIds = qm.waitingReqIds.erase r
  dropped : qm'.ignoredReqIds ∪ qm'.skippedReqIds =
    insert r (qm.ignoredReqIds ∪ qm.skippedReqIds)
  newFirstWaiting : qm'.firstWaitingIdx = qm'.scanFirstWaiting f
  sameLastRunning : qm'.lastRunningIdx = qm.lastRunningIdx

/-- A preemption that returns finds nothing running, or preempts the last running request. -/
theorem updateIdxsAfterPreemption_cases (h : qm.updateIdxsAfterPreemption = .ok qm') :
    (qm.lastRunningIdx = none ∧ qm' = qm) ∨ ∃ l v, PreemptionUpdate qm qm' l v := by
  unfold updateIdxsAfterPreemption at h
  split at h
  · rename_i hlast
    cases h
    exact .inl ⟨hlast, rfl⟩
  · rename_i last hlast
    right
    split at h
    · cases h
    · rename_i v hv
      split at h
      · cases h
      · rename_i hmem
        have hmem : v ∈ qm.runningReqIds := by simpa using hmem
        have hcard : 0 < qm.waitingReqIds.card + (insert v qm.preemptedReqIds).card := by
          have : 0 < (insert v qm.preemptedReqIds).card := Finset.card_pos.mpr ⟨v, by simp⟩
          omega
        refine ⟨last, v, ?_⟩
        dsimp only at h
        split at h
        · rename_i hnone
          split at h
          · rename_i hzero
            cases h
            exact { combined := rfl, policy := rfl, lastRunning := hlast, stands := hv,
                    wasRunning := hmem, running := rfl, preempted := rfl, waiting := rfl,
                    ignored := rfl, skipped := rfl, newLastRunning := rfl,
                    noneRunning := fun _ => ⟨hzero, hzero⟩,
                    newFirstWaiting := fun hne => absurd hnone.1 hne }
          · cases h
        · rename_i hsome
          have hne := fun hn => hsome ⟨hn, hcard⟩
          split at h
          · rename_i first hfirst
            cases h
            exact { combined := rfl, policy := rfl, lastRunning := hlast, stands := hv,
                    wasRunning := hmem, running := rfl, preempted := rfl, waiting := rfl,
                    ignored := rfl, skipped := rfl, newLastRunning := rfl,
                    noneRunning := fun hn => absurd hn hne,
                    newFirstWaiting := fun _ => by
                      simp only [hfirst]
                      grind }
          · rename_i hfirst
            cases h
            exact { combined := rfl, policy := rfl, lastRunning := hlast, stands := hv,
                    wasRunning := hmem, running := rfl, preempted := rfl, waiting := rfl,
                    ignored := rfl, skipped := rfl, newLastRunning := rfl,
                    noneRunning := fun hn => absurd hn hne,
                    newFirstWaiting := fun _ => by simp [hfirst] }

/-- A scheduling that returns finds nothing waiting, or schedules the first waiting request. -/
theorem updateIdxsAfterNewScheduling_cases (h : qm.updateIdxsAfterNewScheduling = .ok qm') :
    (qm.firstWaitingIdx = none ∧ qm' = qm) ∨ ∃ f r, SchedulingUpdate qm qm' f r := by
  unfold updateIdxsAfterNewScheduling at h
  split at h
  · rename_i hfirst
    cases h
    exact .inl ⟨hfirst, rfl⟩
  · rename_i first hfirst
    right
    split at h
    · cases h
    · rename_i r hr
      have hcard : 0 < (insert r qm.runningReqIds).card := Finset.card_pos.mpr ⟨r, by simp⟩
      refine ⟨first, r, ?_⟩
      dsimp only at h
      split at h
      · rename_i hnone
        cases h
        exact { combined := rfl, policy := rfl, firstWaiting := hfirst, stands := hr,
                running := rfl, preempted := rfl, waiting := rfl, ignored := rfl, skipped := rfl,
                newFirstWaiting := rfl, noneWaiting := fun _ => rfl,
                newLastRunning := fun hne => absurd hnone.1 hne }
      · rename_i hsome
        have hne := fun hn => hsome ⟨hn, hcard⟩
        split at h
        · rename_i last hlast
          cases h
          exact { combined := rfl, policy := rfl, firstWaiting := hfirst, stands := hr,
                  running := rfl, preempted := rfl, waiting := rfl, ignored := rfl,
                  skipped := rfl, newFirstWaiting := rfl,
                  noneWaiting := fun hn => absurd hn hne,
                  newLastRunning := fun _ => by
                    simp only [hlast]
                    grind }
        · rename_i hlast
          cases h
          exact { combined := rfl, policy := rfl, firstWaiting := hfirst, stands := hr,
                  running := rfl, preempted := rfl, waiting := rfl, ignored := rfl,
                  skipped := rfl, newFirstWaiting := rfl,
                  noneWaiting := fun hn => absurd hn hne,
                  newLastRunning := fun _ => by simp [hlast] }

/-- Marking an ignored request finds nothing waiting, or drops the first waiting request. -/
theorem updateIdxsAfterIgnored_cases (h : qm.updateIdxsAfterIgnored = .ok qm') :
    (qm.firstWaitingIdx = none ∧ qm' = qm) ∨ ∃ f r, DropUpdate qm qm' f r := by
  unfold updateIdxsAfterIgnored dropFirstWaiting at h
  split at h
  · rename_i hfirst
    cases h
    exact .inl ⟨hfirst, rfl⟩
  · rename_i first hfirst
    right
    split at h
    · cases h
    · rename_i r hr
      split at h
      · cases h
      · rename_i hmem
        cases h
        refine ⟨first, r, ?_⟩
        exact { combined := rfl, policy := rfl, firstWaiting := hfirst, stands := hr,
                wasWaiting := by simpa using hmem, running := rfl, preempted := rfl,
                waiting := rfl, dropped := Finset.insert_union _ _ _, newFirstWaiting := rfl,
                sameLastRunning := rfl }

/-- Marking a skipped request finds nothing waiting, or drops the first waiting request. -/
theorem updateIdxsAfterSkipped_cases (h : qm.updateIdxsAfterSkipped = .ok qm') :
    (qm.firstWaitingIdx = none ∧ qm' = qm) ∨ ∃ f r, DropUpdate qm qm' f r := by
  unfold updateIdxsAfterSkipped dropFirstWaiting at h
  split at h
  · rename_i hfirst
    cases h
    exact .inl ⟨hfirst, rfl⟩
  · rename_i first hfirst
    right
    split at h
    · cases h
    · rename_i r hr
      split at h
      · cases h
      · rename_i hmem
        cases h
        refine ⟨first, r, ?_⟩
        exact { combined := rfl, policy := rfl, firstWaiting := hfirst, stands := hr,
                wasWaiting := by simpa using hmem, running := rfl, preempted := rfl,
                waiting := rfl, dropped := Finset.union_insert _ _ _, newFirstWaiting := rfl,
                sameLastRunning := rfl }

end QueueManager

end RpsServe
