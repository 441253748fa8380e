import RpsServe.QueueManager.Exact

/-!
# Merging and rebuilding the queues

The two ends of a step: the merged list holds every queued request once, in the order of
the priorities, with exact bookkeeping; and the rebuilt queues hold every request of the
merged list once.
-/

namespace RpsServe

namespace QueueManager

variable {req : ReqId → Request} {running waiting : List ReqId} {qm : QueueManager}

/-- Merging rearranges the two queues. -/
theorem mergeQueues_perm (req : ReqId → Request) (running waiting : List ReqId) :
    (mergeQueues req running waiting).Perm (running ++ waiting) := by
  unfold mergeQueues
  refine ((sortBy_perm _ _).map Prod.snd).trans ?_
  simp [Function.comp_def]

/-- The merged list is in the order of the priorities. -/
theorem mergeQueues_sorted (req : ReqId → Request) (running waiting : List ReqId) :
    (mergeQueues req running waiting).Pairwise fun a b => (req a).priority ≤ (req b).priority := by
  unfold mergeQueues
  rw [List.pairwise_map]
  refine (sortBy_pairwise _ _).imp fun {a b} hab => ?_
  rcases Prod.Lex.toLex_le_toLex.mp hab with h | h
  · exact h.le
  · exact h.1.le

/-- The merged list is the combined one. -/
@[simp] theorem combineQueues_combined :
    (qm.combineQueues req running waiting).combined = mergeQueues req running waiting := rfl

/-- Merging keeps the ignored ids. -/
@[simp] theorem combineQueues_ignored :
    (qm.combineQueues req running waiting).ignoredReqIds = qm.ignoredReqIds := rfl

/-- Merging keeps the skipped ids. -/
@[simp] theorem combineQueues_skipped :
    (qm.combineQueues req running waiting).skippedReqIds = qm.skippedReqIds := rfl

/-- After merging, the waiting ids are those of the waiting list. -/
@[simp] theorem combineQueues_waiting :
    (qm.combineQueues req running waiting).waitingReqIds = waiting.toFinset := rfl

/-- The running ids are those of the running list that are not preempted. -/
theorem mem_combineQueues_running {r : ReqId} :
    r ∈ (qm.combineQueues req running waiting).runningReqIds ↔
      r ∈ running ∧ (req r).status ≠ .preempted := by
  simp [combineQueues]

/-- After merging, the preempted ids are those of the running list that are preempted. -/
theorem mem_combineQueues_preempted {r : ReqId} :
    r ∈ (qm.combineQueues req running waiting).preemptedReqIds ↔
      r ∈ running ∧ (req r).status = .preempted := by
  simp [combineQueues]

/-- A request is merged when it is in one of the lists. -/
theorem mem_mergeQueues {r : ReqId} :
    r ∈ mergeQueues req running waiting ↔ r ∈ running ∨ r ∈ waiting := by
  rw [(mergeQueues_perm req running waiting).mem_iff, List.mem_append]

/-- Every merged request is running, waiting or preempted. -/
theorem combineQueues_cover {i : ℕ} (hi : i < (qm.combineQueues req running waiting).combined.length) :
    (qm.combineQueues req running waiting).runningAt i = true ∨
      (qm.combineQueues req running waiting).waitingAt i = true := by
  have hget := List.getElem?_eq_getElem hi
  simp only [runningAt, waitingAt, standsIn_of_getElem? hget, Finset.mem_union,
    mem_combineQueues_running, mem_combineQueues_preempted, combineQueues_waiting,
    List.mem_toFinset]
  have := mem_mergeQueues.mp (List.mem_of_getElem? hget)
  tauto

/-- After merging, the last running index is exact. -/
theorem combineQueues_last :
    GreatestHit (qm.combineQueues req running waiting).runningAt
      (qm.combineQueues req running waiting).lastRunningIdx :=
  greatestHit_lastBelow fun _ hi => lt_length_of_standsIn hi

/-- After merging, the first waiting index is exact. -/
theorem combineQueues_first :
    LeastHit (qm.combineQueues req running waiting).waitingAt
      (qm.combineQueues req running waiting).firstWaitingIdx :=
  leastHit_firstFrom fun i hi => ⟨Nat.zero_le i, by simpa using lt_length_of_standsIn hi⟩

/-- Merging queues without repetitions establishes exact bookkeeping. -/
theorem combineQueues_exact (h : (running ++ waiting).Nodup) :
    (qm.combineQueues req running waiting).Exact := by
  have hdisj : ∀ r ∈ running, r ∉ waiting := (List.nodup_append'.mp h).2.2
  exact {
    nodup := (mergeQueues_perm req running waiting).nodup_iff.mpr h
    running_sub := fun r hr => mem_mergeQueues.mpr (.inl (mem_combineQueues_running.mp hr).1)
    waiting_sub := fun r hr => mem_mergeQueues.mpr (.inr (by simpa using hr))
    preempted_sub := fun r hr => mem_mergeQueues.mpr (.inl (mem_combineQueues_preempted.mp hr).1)
    running_waiting := Finset.disjoint_left.mpr fun r hr hw =>
      hdisj r (mem_combineQueues_running.mp hr).1 (by simpa using hw)
    running_preempted := Finset.disjoint_left.mpr fun r hr hp =>
      (mem_combineQueues_running.mp hr).2 (mem_combineQueues_preempted.mp hp).2
    waiting_preempted := Finset.disjoint_left.mpr fun r hw hp =>
      hdisj r (mem_combineQueues_preempted.mp hp).1 (by simpa using hw)
    cover := fun i hi => combineQueues_cover hi
    last := combineQueues_last
    first := combineQueues_first }

/-- The rebuilt waiting queue holds the given requests. -/
theorem rebuildWaiting_items_perm (rs : List ReqId) :
    (qm.rebuildWaiting req rs).items.Perm rs := by
  unfold rebuildWaiting
  simpa using RequestQueue.items_foldl_addRequest_perm req rs (RequestQueue.create qm.policy)

/-- Some index is set unless the list is empty or something was dropped. -/
def IndexSet (qm : QueueManager) : Prop :=
  qm.NothingDropped → qm.combined ≠ [] → qm.lastRunningIdx ≠ none ∨ qm.firstWaitingIdx ≠ none

/-- After merging, the first waiting index is set while something waits. -/
theorem combineQueues_indexSet : (qm.combineQueues req running waiting).IndexSet := by
  intro _ hne
  have hlast := @combineQueues_last req running waiting qm
  have hfirst := @combineQueues_first req running waiting qm
  refine (combineQueues_cover (List.length_pos_of_ne_nil hne)).imp (fun hr hnone => ?_)
    fun hw hnone => ?_
  · rw [hnone] at hlast
    simp [hlast 0] at hr
  · rw [hnone] at hfirst
    simp [hfirst 0] at hw

/-- Every update leaves an index set. -/
theorem Update.indexSet {qm' : QueueManager} (u : Update qm qm') (h : qm.IndexSet) :
    qm'.IndexSet := by
  intro hno hne
  cases u with
  | same hs =>
    subst hs
    exact h hno hne
  | preemption u =>
    by_cases hlast : qm'.lastRunningIdx = none
    · exact .inr (by simp [(u.noneRunning hlast).2])
    · exact .inl hlast
  | scheduling u =>
    by_cases hfirst : qm'.firstWaitingIdx = none
    · exact .inl (by simp [u.noneWaiting hfirst])
    · exact .inr hfirst
  | drop u => exact absurd hno u.not_nothingDropped

variable {rs : List ReqId} {wq : RequestQueue}

/-- The waiting queue is rebuilt from the requests that the running list leaves: those that are not
in the running ids when something was dropped, and the rest of the combined list otherwise. -/
theorem updateQueues_cut (h : qm.updateQueues req = .ok (rs, wq)) (hset : qm.IndexSet) :
    ∃ ws, wq = qm.rebuildWaiting req ws ∧
      ((rs = qm.combined.filter fun r => r ∈ qm.runningReqIds) ∧
          (ws = qm.combined.filter fun r => r ∉ qm.runningReqIds) ∨ rs ++ ws = qm.combined) := by
  unfold updateQueues at h
  split at h
  · cases h
    exact ⟨_, rfl, .inl ⟨rfl, rfl⟩⟩
  · rename_i hdrop
    have hno : qm.NothingDropped := by
      simpa [NothingDropped, Finset.not_nonempty_iff_eq_empty] using hdrop
    split at h
    · split at h
      · cases h
        exact ⟨_, rfl, .inr (List.take_append_drop _ _)⟩
      · cases h
    · cases h
      exact ⟨_, rfl, .inr (List.append_nil _)⟩
    · cases h
      exact ⟨_, rfl, .inr (List.nil_append _)⟩
    · rename_i hlast hfirst
      cases h
      refine ⟨_, rfl, .inr ?_⟩
      by_contra hne
      rcases hset hno (Ne.symm hne) with hl | hf
      · exact hl hlast
      · exact hf hfirst

/-- The rebuilt queues hold every request of the combined list once. -/
theorem updateQueues_perm (h : qm.updateQueues req = .ok (rs, wq)) (hset : qm.IndexSet) :
    (rs ++ wq.items).Perm qm.combined := by
  obtain ⟨ws, rfl, hcut⟩ := updateQueues_cut h hset
  refine (List.Perm.append_left rs (rebuildWaiting_items_perm ws)).trans ?_
  rcases hcut with ⟨rfl, rfl⟩ | hcut
  · simpa using List.filter_append_perm (fun r => decide (r ∈ qm.runningReqIds)) qm.combined
  · rw [hcut]

/-- With exact bookkeeping as far as nothing was dropped, the new running list is the part of the
combined list in the running ids. -/
theorem updateQueues_running (h : qm.updateQueues req = .ok (rs, wq))
    (hexact : qm.NothingDropped → qm.Exact) :
    rs = qm.combined.filter fun r => r ∈ qm.runningReqIds := by
  unfold updateQueues at h
  split at h
  · cases h
    rfl
  · rename_i hdrop
    have hex : qm.Exact := hexact <| by
      simpa [NothingDropped, Finset.not_nonempty_iff_eq_empty] using hdrop
    have hlast := hex.last
    have hfirst := hex.first
    have hcover : ∀ i (hi : i < qm.combined.length), qm.waitingAt i = false →
        qm.combined[i] ∈ qm.runningReqIds := by
      intro i hi hw
      rcases hex.cover i hi with hr | hw'
      · exact (standsIn_of_getElem? (List.getElem?_eq_getElem hi)).mp hr
      · simp [hw] at hw'
    split at h
    · rename_i last first hl hf
      split at h
      · rename_i hadj
        cases h
        rw [hl] at hlast
        rw [hf] at hfirst
        have hin : ∀ r ∈ qm.combined.take first, r ∈ qm.runningReqIds := by
          intro r hr
          obtain ⟨i, hi, rfl⟩ := List.mem_take_iff_getElem.mp hr
          refine hcover i (by omega) ?_
          by_contra hw
          have := hfirst.2 i (by simpa using hw)
          omega
        have hout : ∀ r ∈ qm.combined.drop first, r ∉ qm.runningReqIds := by
          intro r hr hmem
          obtain ⟨i, hi, rfl⟩ := List.mem_drop_iff_getElem.mp hr
          have := hlast.2 _ ((standsIn_of_getElem? (List.getElem?_eq_getElem _)).mpr hmem)
          omega
        conv_rhs => rw [← List.take_append_drop first qm.combined, List.filter_append]
        rw [List.filter_eq_self.mpr (by simpa using hin), List.filter_eq_nil_iff.mpr (by simpa using hout),
          List.append_nil]
      · cases h
    · rename_i hl hf
      cases h
      rw [hf] at hfirst
      refine (List.filter_eq_self.mpr fun r hr => ?_).symm
      obtain ⟨i, hi, rfl⟩ := List.mem_iff_getElem.mp hr
      simpa using hcover i hi (hfirst i)
    · rename_i hl hf
      cases h
      rw [hl] at hlast
      refine (List.filter_eq_nil_iff.mpr fun r hr hmem => ?_).symm
      obtain ⟨i, hi, rfl⟩ := List.mem_iff_getElem.mp hr
      have hr : qm.runningAt i = true :=
        (standsIn_of_getElem? (List.getElem?_eq_getElem hi)).mpr (by simpa using hmem)
      simp [hlast i] at hr
    · rename_i hl hf
      cases h
      rw [hl] at hlast
      refine (List.filter_eq_nil_iff.mpr fun r hr hmem => ?_).symm
      obtain ⟨i, hi, rfl⟩ := List.mem_iff_getElem.mp hr
      have hr : qm.runningAt i = true :=
        (standsIn_of_getElem? (List.getElem?_eq_getElem hi)).mpr (by simpa using hmem)
      simp [hlast i] at hr

end QueueManager

end RpsServe
