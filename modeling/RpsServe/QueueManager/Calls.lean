import RpsServe.QueueManager.Merge
import Mathlib.Data.Finset.Card

/-!
# Sequences of calls on the queue manager

The four updates of a step, in any order, after the queues were merged. Each is right on its own
as long as nothing stands at the boundary that it assumes away: an ignored or skipped request at
the end of the list or in front of the running ones, a preempted one in front of the waiting ones,
or the only running request at the head. The calls for which this is so are the safe ones, and
they are exactly those after which the bookkeeping is exact.
-/

namespace RpsServe

namespace QueueManager

/-- The calls that a step makes after merging the queues. -/
inductive Call where
  | newScheduling
  | preemption
  | ignored
  | skipped
deriving DecidableEq

/-- Make a call. -/
def Call.run (qm : QueueManager) : Call → Except SchedError QueueManager
  | .newScheduling => qm.updateIdxsAfterNewScheduling
  | .preemption => qm.updateIdxsAfterPreemption
  | .ignored => qm.updateIdxsAfterIgnored
  | .skipped => qm.updateIdxsAfterSkipped

/-- There is a request that the call can be for. -/
def Call.Ready (qm : QueueManager) : Call → Prop
  | .newScheduling => (qm.waitingReqIds ∪ qm.preemptedReqIds).Nonempty
  | .preemption => qm.runningReqIds.Nonempty
  | .ignored | .skipped => qm.waitingReqIds.Nonempty

/-- The request that a call takes out of the waiting ids. -/
def taken (qm qm' : QueueManager) : Finset ReqId := qm.waitingReqIds \ qm'.waitingReqIds

/-- The ids that the step has ignored, after a call. -/
def Call.ignoredNow (qm qm' : QueueManager) (ids : Finset ReqId) : Call → Finset ReqId
  | .ignored => ids ∪ taken qm qm'
  | .newScheduling | .preemption | .skipped => ids

/-- The ids that the step has skipped, after a call. -/
def Call.skippedNow (qm qm' : QueueManager) (ids : Finset ReqId) : Call → Finset ReqId
  | .skipped => ids ∪ taken qm qm'
  | .newScheduling | .preemption | .ignored => ids

/-- The bookkeeping is exact, with the ids that the step has ignored and skipped so far: the five
kinds of ids partition the merged list, and the two indices are the outermost ones. -/
structure Faithful (qm : QueueManager) (ignored skipped : Finset ReqId) : Prop where
  nodup : qm.combined.Nodup
  cover : qm.runningReqIds ∪ qm.waitingReqIds ∪ qm.preemptedReqIds ∪ ignored ∪ skipped =
    qm.combined.toFinset
  disjoint : [qm.runningReqIds, qm.waitingReqIds, qm.preemptedReqIds, ignored, skipped].Pairwise
    Disjoint
  last : GreatestHit qm.runningAt qm.lastRunningIdx
  first : LeastHit qm.waitingAt qm.firstWaitingIdx

/-- The request at the end of the merged list was neither ignored nor skipped. -/
def EndKept (qm : QueueManager) : Prop :=
  qm.runningAt (qm.combined.length - 1) = true ∨ qm.waitingAt (qm.combined.length - 1) = true

/-- The call does not meet a boundary that it assumes away. -/
def Call.Safe (qm : QueueManager) : Call → Prop
  | .newScheduling =>
    if (qm.waitingReqIds ∪ qm.preemptedReqIds).card = 1 then qm.EndKept
    else qm.runningReqIds.Nonempty ∨ qm.firstWaitingIdx = some 0
  | .preemption =>
    if qm.runningReqIds.card = 1 then qm.firstWaitingIdx = some 0
    else qm.firstWaitingIdx = none → qm.lastRunningIdx = some (qm.combined.length - 1)
  | .ignored | .skipped => ∃ f r, qm.firstWaitingIdx = some f ∧ qm.combined[f]? = some r ∧
      r ∈ qm.waitingReqIds

/-- What a sequence of calls leads to from `start`, with the ids ignored and skipped on the way; every
call meets `ok` in the state it is made in. -/
inductive Calls (ok : QueueManager → Call → Prop) (start : QueueManager) :
    QueueManager → Finset ReqId → Finset ReqId → Prop
  | start : Calls ok start start ∅ ∅
  | call {qm qm' : QueueManager} {ignored skipped : Finset ReqId} {c : Call} :
      Calls ok start qm ignored skipped → c.Ready qm → ok qm c → c.run qm = .ok qm' →
      Calls ok start qm' (c.ignoredNow qm qm' ignored) (c.skippedNow qm qm' skipped)

variable {req : ReqId → Request} {running waiting : List ReqId} {qm qm' : QueueManager}
  {I S : Finset ReqId} {l f i : ℕ} {v r : ReqId}

/-- The five kinds of ids are disjoint when each request is of one kind at most. -/
theorem pairwise_disjoint_iff {R W P I S : Finset ReqId} :
    [R, W, P, I, S].Pairwise Disjoint ↔
      (∀ r ∈ R, r ∉ W ∧ r ∉ P ∧ r ∉ I ∧ r ∉ S) ∧ (∀ r ∈ W, r ∉ P ∧ r ∉ I ∧ r ∉ S) ∧
        (∀ r ∈ P, r ∉ I ∧ r ∉ S) ∧ ∀ r ∈ I, r ∉ S := by
  simp only [List.pairwise_cons, List.mem_cons, forall_eq_or_imp, Finset.disjoint_left,
    List.not_mem_nil, IsEmpty.forall_iff, implies_true, and_true, List.Pairwise.nil, forall_and]

namespace Faithful

/-- Exact bookkeeping has its ids in parts. -/
theorem parts (h : qm.Faithful I S) : qm.Parts := by
  have hdisj := h.disjoint
  simp only [List.pairwise_cons, List.mem_cons, forall_eq_or_imp] at hdisj
  have hsub : ∀ {ids : Finset ReqId}, ids ⊆ qm.runningReqIds ∪ qm.waitingReqIds ∪
      qm.preemptedReqIds ∪ I ∪ S → ∀ r ∈ ids, r ∈ qm.combined := fun hids r hr => by
    rw [← List.mem_toFinset, ← h.cover]
    exact hids hr
  exact {
    nodup := h.nodup
    running_sub := hsub fun r hr => by simp [hr]
    waiting_sub := hsub fun r hr => by simp [hr]
    preempted_sub := hsub fun r hr => by simp [hr]
    running_waiting := hdisj.1.1
    running_preempted := hdisj.1.2.1
    waiting_preempted := hdisj.2.1.1 }

/-- Merging queues without repetitions. -/
theorem combineQueues (h : (running ++ waiting).Nodup) :
    (qm.combineQueues req running waiting).Faithful ∅ ∅ := by
  have hexact : (qm.combineQueues req running waiting).Exact := combineQueues_exact h
  refine ⟨hexact.nodup, ?_, ?_, hexact.last, hexact.first⟩
  · ext r
    simp only [Finset.mem_union, mem_combineQueues_running, mem_combineQueues_preempted,
      combineQueues_waiting, List.mem_toFinset, combineQueues_combined, mem_mergeQueues,
      Finset.notMem_empty, or_false]
    tauto
  · simpa only [List.pairwise_cons, List.mem_cons, forall_eq_or_imp, Finset.disjoint_empty_right,
      List.not_mem_nil, false_or, IsEmpty.forall_iff, implies_true, and_true, true_and,
      List.Pairwise.nil] using
      ⟨⟨hexact.running_waiting, hexact.running_preempted⟩, hexact.waiting_preempted⟩

/-- A preemption moves the last running request to the preempted ones. -/
theorem preemption_partition (h : qm.Faithful I S) (u : PreemptionUpdate qm qm' l v) :
    qm'.runningReqIds ∪ qm'.waitingReqIds ∪ qm'.preemptedReqIds ∪ I ∪ S =
        qm'.combined.toFinset ∧
      [qm'.runningReqIds, qm'.waitingReqIds, qm'.preemptedReqIds, I, S].Pairwise Disjoint := by
  have hdisj := h.disjoint
  have hv := u.wasRunning
  rw [u.running, u.waiting, u.preempted, u.combined, ← h.cover]
  rw [pairwise_disjoint_iff] at hdisj ⊢
  constructor
  · ext x
    by_cases hx : x = v
    · simp [hx, hv]
    · simp [hx]
  · simp only [Finset.mem_erase, Finset.mem_insert] at hdisj ⊢
    grind

/-- A scheduling moves the first waiting or preempted request to the running ones. -/
theorem scheduling_partition (h : qm.Faithful I S) (u : SchedulingUpdate qm qm' f r)
    (hr : r ∈ qm.waitingReqIds ∪ qm.preemptedReqIds) :
    qm'.runningReqIds ∪ qm'.waitingReqIds ∪ qm'.preemptedReqIds ∪ I ∪ S =
        qm'.combined.toFinset ∧
      [qm'.runningReqIds, qm'.waitingReqIds, qm'.preemptedReqIds, I, S].Pairwise Disjoint := by
  have hdisj := h.disjoint
  rw [Finset.mem_union] at hr
  rw [u.running, u.waiting, u.preempted, u.combined, ← h.cover]
  rw [pairwise_disjoint_iff] at hdisj ⊢
  constructor
  · ext x
    by_cases hx : x = r
    · subst hx
      rcases hr with hr | hr <;> simp [hr]
    · simp [hx]
  · simp only [Finset.mem_erase, Finset.mem_insert] at hdisj ⊢
    grind

/-- A drop moves the first waiting request to the ignored or to the skipped ones. -/
theorem drop_partition (h : qm.Faithful I S) (u : DropUpdate qm qm' f r) {I' S' : Finset ReqId}
    (hmarked : I' = insert r I ∧ S' = S ∨ I' = I ∧ S' = insert r S) :
    qm'.runningReqIds ∪ qm'.waitingReqIds ∪ qm'.preemptedReqIds ∪ I' ∪ S' =
        qm'.combined.toFinset ∧
      [qm'.runningReqIds, qm'.waitingReqIds, qm'.preemptedReqIds, I', S'].Pairwise Disjoint := by
  have hdisj := h.disjoint
  have hr := u.wasWaiting
  rw [u.running, u.waiting, u.preempted, u.combined, ← h.cover]
  rw [pairwise_disjoint_iff] at hdisj ⊢
  constructor
  · ext x
    by_cases hx : x = r
    · subst hx
      rcases hmarked with ⟨rfl, rfl⟩ | ⟨rfl, rfl⟩ <;> simp [hr]
    · rcases hmarked with ⟨rfl, rfl⟩ | ⟨rfl, rfl⟩ <;> simp [hx]
  · rcases hmarked with ⟨rfl, rfl⟩ | ⟨rfl, rfl⟩
    · simp only [Finset.mem_erase, Finset.mem_insert] at hdisj ⊢
      grind
    · simp only [Finset.mem_erase, Finset.mem_insert] at hdisj ⊢
      grind

/-- An index of a running request, from the request. -/
theorem exists_runningAt (h : qm.Faithful I S) (hr : r ∈ qm.runningReqIds) :
    ∃ i, qm.combined[i]? = some r ∧ qm.runningAt i = true := by
  obtain ⟨i, hi⟩ := List.getElem?_of_mem (h.parts.running_sub r hr)
  exact ⟨i, hi, (standsIn_of_getElem? hi).mpr hr⟩

/-- While a request runs, the last running index is that of a running request. -/
theorem exists_last (h : qm.Faithful I S) (hr : r ∈ qm.runningReqIds) :
    ∃ l v, qm.lastRunningIdx = some l ∧ qm.combined[l]? = some v ∧ v ∈ qm.runningReqIds := by
  obtain ⟨i, -, hi⟩ := h.exists_runningAt hr
  have hlast := h.last
  cases hl : qm.lastRunningIdx with
  | none =>
    rw [hl] at hlast
    simp [hlast i] at hi
  | some l =>
    rw [hl] at hlast
    obtain ⟨v, hv, hmem⟩ := standsIn_iff.mp hlast.1
    exact ⟨l, v, rfl, hv, hmem⟩

/-- While a request waits or is preempted, the first waiting index is that of such a request. -/
theorem exists_first (h : qm.Faithful I S) (hr : r ∈ qm.waitingReqIds ∪ qm.preemptedReqIds) :
    ∃ f x, qm.firstWaitingIdx = some f ∧ qm.combined[f]? = some x ∧
      x ∈ qm.waitingReqIds ∪ qm.preemptedReqIds := by
  have hmem : r ∈ qm.combined := by
    rcases Finset.mem_union.mp hr with hr | hr
    exacts [h.parts.waiting_sub r hr, h.parts.preempted_sub r hr]
  obtain ⟨i, hi⟩ := List.getElem?_of_mem hmem
  have hw : qm.waitingAt i = true := (standsIn_of_getElem? hi).mpr hr
  have hfirst := h.first
  cases hf : qm.firstWaitingIdx with
  | none =>
    rw [hf] at hfirst
    simp [hfirst i] at hw
  | some f =>
    rw [hf] at hfirst
    obtain ⟨x, hx, hxmem⟩ := standsIn_iff.mp hfirst.1
    exact ⟨f, x, rfl, hx, hxmem⟩

end Faithful

/-! ### Preemptions -/

/-- After a preemption no request runs exactly when the preempted one was the only one. -/
theorem PreemptionUpdate.last_eq_none_iff (u : PreemptionUpdate qm qm' l v) (h : qm.Faithful I S) :
    qm'.lastRunningIdx = none ↔ qm.runningReqIds.card = 1 := by
  have hlast := u.last h.parts (u.lastRunning ▸ h.last)
  rw [Finset.card_eq_one]
  constructor
  · intro hnone
    rw [hnone] at hlast
    refine ⟨v, Finset.eq_singleton_iff_unique_mem.mpr ⟨u.wasRunning, fun x hx => ?_⟩⟩
    by_contra hxv
    obtain ⟨i, hi⟩ := List.getElem?_of_mem (h.parts.running_sub x hx)
    have hat : qm'.runningAt i = true := by
      refine (standsIn_of_getElem? (u.combined ▸ hi)).mpr ?_
      rw [u.running]
      exact Finset.mem_erase_of_ne_of_mem hxv hx
    simp [hlast i] at hat
  · rintro ⟨x, hx⟩
    have hempty : qm'.runningReqIds = ∅ := by
      have hv : v = x := by
        have := u.wasRunning
        rwa [hx, Finset.mem_singleton] at this
      rw [u.running, hx, hv]
      simp
    cases hl : qm'.lastRunningIdx with
    | none => rfl
    | some i =>
      rw [hl] at hlast
      obtain ⟨y, -, hy⟩ := standsIn_iff.mp hlast.1
      simp [hempty] at hy

/-- A preemption while a request runs returns unless it leaves none running, and something other than
the head waits first. -/
theorem Faithful.preemption_returns (h : qm.Faithful I S) (hready : qm.runningReqIds.Nonempty)
    (hhead : qm.runningReqIds.card = 1 → qm.firstWaitingIdx = some 0) :
    ∃ qm', qm.updateIdxsAfterPreemption = .ok qm' := by
  obtain ⟨r, hr⟩ := hready
  obtain ⟨l, v, hl, hv, hmem⟩ := h.exists_last hr
  cases hrun : qm.updateIdxsAfterPreemption with
  | ok qm' => exact ⟨qm', rfl⟩
  | error e =>
    unfold updateIdxsAfterPreemption at hrun
    rw [hl] at hrun
    dsimp only at hrun
    rw [hv] at hrun
    dsimp only at hrun
    rw [if_neg (not_not.mpr hmem)] at hrun
    split at hrun
    · rename_i hnone
      split at hrun
      · cases hrun
      · rename_i hfirst
        refine absurd (hhead ?_) hfirst
        rw [Finset.card_eq_one]
        refine ⟨v, Finset.eq_singleton_iff_unique_mem.mpr ⟨hmem, fun x hx => ?_⟩⟩
        by_contra hxv
        obtain ⟨i, hi, hat⟩ := h.exists_runningAt hx
        have hlast := h.last
        rw [hl] at hlast
        have hle := hlast.2 i hat
        have hscan := lastBelow_eq_none.mp hnone.1 i (by omega)
        rw [← Bool.not_eq_true] at hscan
        exact hscan ((standsIn_of_getElem? hi).mpr (Finset.mem_erase_of_ne_of_mem hxv hx))
    · split at hrun <;> cases hrun

/-- A preemption returns with exact bookkeeping exactly when it is safe. -/
theorem Faithful.preemption_iff (h : qm.Faithful I S) (hready : qm.runningReqIds.Nonempty) :
    (∃ qm', qm.updateIdxsAfterPreemption = .ok qm' ∧ qm'.Faithful I S) ↔
      Call.Safe qm .preemption := by
  have hupdate : ∀ {qm'}, qm.updateIdxsAfterPreemption = .ok qm' →
      ∃ l v, PreemptionUpdate qm qm' l v := fun hrun => by
    obtain ⟨r, hr⟩ := hready
    obtain ⟨l, v, hl, -⟩ := h.exists_last hr
    rcases updateIdxsAfterPreemption_cases hrun with ⟨hnone, -⟩ | hu
    · rw [hl] at hnone
      cases hnone
    · exact hu
  unfold Call.Safe
  dsimp only
  constructor
  · rintro ⟨qm', hrun, hfaithful⟩
    obtain ⟨l, v, u⟩ := hupdate hrun
    split
    · rename_i hone
      exact (u.noneRunning ((u.last_eq_none_iff h).mpr hone)).1
    · rename_i hmore
      intro hnone
      have hfirst := hfaithful.first
      rw [u.newFirstWaiting (mt (u.last_eq_none_iff h).mp hmore), hnone] at hfirst
      have hold := h.first
      rw [hnone] at hold
      rcases (u.waitingAt_iff h.parts).mp hfirst.1 with hend | hw
      · rw [u.lastRunning, hend]
      · simp [hold _] at hw
  · intro hsafe
    obtain ⟨qm', hrun⟩ := h.preemption_returns hready fun hone => by rwa [if_pos hone] at hsafe
    obtain ⟨l, v, u⟩ := hupdate hrun
    obtain ⟨hcover, hdisj⟩ := h.preemption_partition u
    have hlast : GreatestHit qm.runningAt (some l) := u.lastRunning ▸ h.last
    refine ⟨qm', hrun, u.combined ▸ h.nodup, hcover, hdisj, u.last h.parts hlast,
      u.first h.parts h.first fun hnone => ?_⟩
    have hl := lt_length_of_standsIn hlast.1
    split at hsafe
    · rw [hnone] at hsafe
      cases hsafe
    · have hend := hsafe hnone
      rw [u.lastRunning] at hend
      cases hend
      omega

/-! ### Schedulings -/

/-- After a scheduling nothing waits exactly when the scheduled request was the only one. -/
theorem SchedulingUpdate.first_eq_none_iff (u : SchedulingUpdate qm qm' f r) (h : qm.Faithful I S)
    (hr : r ∈ qm.waitingReqIds ∪ qm.preemptedReqIds) :
    qm'.firstWaitingIdx = none ↔ (qm.waitingReqIds ∪ qm.preemptedReqIds).card = 1 := by
  have hfirst := u.first h.parts (u.firstWaiting ▸ h.first)
  have hleft : qm'.waitingReqIds ∪ qm'.preemptedReqIds =
      (qm.waitingReqIds ∪ qm.preemptedReqIds).erase r := by
    rw [u.waiting, u.preempted, Finset.erase_union_distrib]
  rw [Finset.card_eq_one]
  constructor
  · intro hnone
    rw [hnone] at hfirst
    refine ⟨r, Finset.eq_singleton_iff_unique_mem.mpr ⟨hr, fun x hx => ?_⟩⟩
    by_contra hxr
    have hmem : x ∈ qm.combined := by
      rcases Finset.mem_union.mp hx with hx | hx
      exacts [h.parts.waiting_sub x hx, h.parts.preempted_sub x hx]
    obtain ⟨i, hi⟩ := List.getElem?_of_mem hmem
    have hat : qm'.waitingAt i = true := by
      refine (standsIn_of_getElem? (u.combined ▸ hi)).mpr ?_
      rw [hleft]
      exact Finset.mem_erase_of_ne_of_mem hxr hx
    simp [hfirst i] at hat
  · rintro ⟨x, hx⟩
    cases hf : qm'.firstWaitingIdx with
    | none => rfl
    | some i =>
      rw [hf] at hfirst
      obtain ⟨y, -, hy⟩ := standsIn_iff.mp hfirst.1
      rw [hleft, hx, Finset.mem_erase, Finset.mem_singleton] at hy
      rw [hx, Finset.mem_singleton] at hr
      exact absurd (hy.2.trans hr.symm) hy.1

/-- A scheduling while a request waits or is preempted returns. -/
theorem Faithful.scheduling_returns (h : qm.Faithful I S)
    (hready : (qm.waitingReqIds ∪ qm.preemptedReqIds).Nonempty) :
    ∃ qm' f r, qm.updateIdxsAfterNewScheduling = .ok qm' ∧ SchedulingUpdate qm qm' f r ∧
      r ∈ qm.waitingReqIds ∪ qm.preemptedReqIds := by
  obtain ⟨r, hr⟩ := hready
  obtain ⟨f, x, hf, hx, hmem⟩ := h.exists_first hr
  cases hrun : qm.updateIdxsAfterNewScheduling with
  | ok qm' =>
    rcases updateIdxsAfterNewScheduling_cases hrun with ⟨hnone, -⟩ | ⟨f', x', u⟩
    · rw [hf] at hnone
      cases hnone
    · obtain rfl : f = f' := Option.some.inj (hf.symm.trans u.firstWaiting)
      obtain rfl : x = x' := Option.some.inj (hx.symm.trans u.stands)
      exact ⟨qm', f, x, rfl, u, hmem⟩
  | error e =>
    unfold updateIdxsAfterNewScheduling at hrun
    rw [hf] at hrun
    dsimp only at hrun
    rw [hx] at hrun
    dsimp only at hrun
    split at hrun
    · cases hrun
    · split at hrun <;> cases hrun

/-- The last running index after a scheduling is exact when the scheduling was safe. -/
theorem SchedulingUpdate.last_iff (u : SchedulingUpdate qm qm' f r) (h : qm.Faithful I S)
    (hr : r ∈ qm.waitingReqIds ∪ qm.preemptedReqIds) :
    GreatestHit qm'.runningAt qm'.lastRunningIdx ↔ Call.Safe qm .newScheduling := by
  have hf : LeastHit qm.waitingAt (some f) := u.firstWaiting ▸ h.first
  have hfirst := u.first h.parts hf
  have hlen : f < qm.combined.length := lt_length_of_standsIn hf.1
  have hold := h.last
  unfold Call.Safe
  dsimp only
  by_cases hnone : qm'.firstWaitingIdx = none
  · rw [if_pos ((u.first_eq_none_iff h hr).mp hnone), u.noneWaiting hnone]
    rw [hnone] at hfirst
    have hbound : ∀ i, qm'.runningAt i = true → i ≤ qm.combined.length - 1 := fun i hi => by
      have := lt_length_of_standsIn hi
      rw [u.combined] at this
      omega
    have hend : qm'.runningAt (qm.combined.length - 1) = true ↔ qm.EndKept := by
      rw [u.runningAt_iff h.parts, EndKept]
      refine ⟨Or.rec (fun hEq => .inr (hEq ▸ hf.1)) .inl, Or.rec .inr fun hw => .inl ?_⟩
      by_contra hne
      have := (u.waitingAt_iff h.parts).mpr ⟨hne, hw⟩
      simp [hfirst _] at this
    exact ⟨fun hlast => hend.mp hlast.1, fun hkept => ⟨hend.mpr hkept, hbound⟩⟩
  · rw [if_neg (mt (u.first_eq_none_iff h hr).mpr hnone), u.newLastRunning hnone, u.firstWaiting]
    cases hl : qm.lastRunningIdx with
    | none =>
      rw [hl] at hold
      have hnoneRunning : ¬ qm.runningReqIds.Nonempty := by
        rintro ⟨x, hx⟩
        obtain ⟨i, -, hi⟩ := h.exists_runningAt hx
        simp [hold i] at hi
      simp only [hnoneRunning, false_or, Option.some.injEq]
      constructor
      · intro hlast
        rcases (u.runningAt_iff h.parts).mp hlast.1 with hzero | hrun
        · exact hzero.symm
        · simp [hold 0] at hrun
      · intro hzero
        refine ⟨(u.runningAt_iff h.parts).mpr (.inl hzero.symm), fun i hi => ?_⟩
        rcases (u.runningAt_iff h.parts).mp hi with rfl | hrun
        · exact hzero.le
        · simp [hold i] at hrun
    | some l =>
      rw [hl] at hold
      obtain ⟨x, -, hx⟩ := standsIn_iff.mp hold.1
      refine iff_of_true ⟨?_, fun i hi => ?_⟩ (.inl ⟨x, hx⟩)
      · rcases max_choice l f with hm | hm
        · exact (u.runningAt_iff h.parts).mpr (.inr (by rw [hm]; exact hold.1))
        · exact (u.runningAt_iff h.parts).mpr (.inl hm)
      · rcases (u.runningAt_iff h.parts).mp hi with rfl | hrun
        · exact le_max_right _ _
        · exact (hold.2 i hrun).trans (le_max_left _ _)

/-- A scheduling returns with exact bookkeeping exactly when it is safe. -/
theorem Faithful.scheduling_iff (h : qm.Faithful I S)
    (hready : (qm.waitingReqIds ∪ qm.preemptedReqIds).Nonempty) :
    (∃ qm', qm.updateIdxsAfterNewScheduling = .ok qm' ∧ qm'.Faithful I S) ↔
      Call.Safe qm .newScheduling := by
  obtain ⟨qm', f, r, hrun, u, hr⟩ := h.scheduling_returns hready
  rw [← u.last_iff h hr]
  constructor
  · rintro ⟨qm'', hrun', hfaithful⟩
    cases hrun.symm.trans hrun'
    exact hfaithful.last
  · intro hlast
    obtain ⟨hcover, hdisj⟩ := h.scheduling_partition u hr
    exact ⟨qm', hrun, u.combined ▸ h.nodup, hcover, hdisj, hlast,
      u.first h.parts (u.firstWaiting ▸ h.first)⟩

/-! ### Drops -/

/-- A drop returns exactly when it is safe. -/
theorem Faithful.drop_returns_iff (h : qm.Faithful I S) (hready : qm.waitingReqIds.Nonempty)
    (mark : ReqId → QueueManager → QueueManager) :
    (∃ qm', qm.dropFirstWaiting mark = .ok qm') ↔ Call.Safe qm .ignored := by
  obtain ⟨r, hr⟩ := hready
  obtain ⟨f, x, hf, hx, -⟩ := h.exists_first (Finset.mem_union_left _ hr)
  unfold dropFirstWaiting Call.Safe
  rw [hf]
  dsimp only
  rw [hx]
  dsimp only
  constructor
  · rintro ⟨qm', hrun⟩
    split at hrun
    · cases hrun
    · rename_i hmem
      exact ⟨f, x, rfl, hx, not_not.mp hmem⟩
  · rintro ⟨f', x', hf', hx', hmem⟩
    cases hf'
    cases hx.symm.trans hx'
    rw [if_neg (not_not.mpr hmem)]
    exact ⟨_, rfl⟩

/-- A drop that returns leaves the bookkeeping exact. -/
theorem Faithful.drop (h : qm.Faithful I S) (u : DropUpdate qm qm' f r) :
    qm'.Faithful (I ∪ taken qm qm') S ∧ qm'.Faithful I (S ∪ taken qm qm') := by
  have htaken : taken qm qm' = {r} := by
    rw [taken, u.waiting, Finset.sdiff_erase u.wasWaiting, Finset.sdiff_self]
    rfl
  have hinsert : ∀ ids : Finset ReqId, ids ∪ {r} = insert r ids := fun ids => by
    rw [Finset.union_comm]
    rfl
  have hsame : qm'.runningAt = qm.runningAt := funext fun _ => u.runningAt_eq
  have hlast : GreatestHit qm'.runningAt qm'.lastRunningIdx := by
    rw [hsame, u.sameLastRunning]
    exact h.last
  have hfirst := u.first h.parts (u.firstWaiting ▸ h.first)
  rw [htaken, hinsert, hinsert]
  constructor
  · obtain ⟨hcover, hdisj⟩ := h.drop_partition u (.inl ⟨rfl, rfl⟩)
    exact ⟨u.combined ▸ h.nodup, hcover, hdisj, hlast, hfirst⟩
  · obtain ⟨hcover, hdisj⟩ := h.drop_partition u (.inr ⟨rfl, rfl⟩)
    exact ⟨u.combined ▸ h.nodup, hcover, hdisj, hlast, hfirst⟩

/-- A drop that returns for a waiting request has dropped one. -/
theorem Faithful.exists_drop (h : qm.Faithful I S) (hready : qm.waitingReqIds.Nonempty)
    (hdrop : qm.updateIdxsAfterIgnored = .ok qm' ∨ qm.updateIdxsAfterSkipped = .ok qm') :
    ∃ f r, DropUpdate qm qm' f r := by
  obtain ⟨r, hr⟩ := hready
  obtain ⟨f, x, hf, -⟩ := h.exists_first (Finset.mem_union_left _ hr)
  rcases hdrop with hrun | hrun
  · rcases updateIdxsAfterIgnored_cases hrun with ⟨hnone, -⟩ | hu
    · rw [hf] at hnone
      cases hnone
    · exact hu
  · rcases updateIdxsAfterSkipped_cases hrun with ⟨hnone, -⟩ | hu
    · rw [hf] at hnone
      cases hnone
    · exact hu

/-! ### Sequences of calls -/

/-- A call for a request that is there returns with exact bookkeeping exactly when it is safe. -/
theorem Faithful.call_iff (h : qm.Faithful I S) (c : Call) (hready : c.Ready qm) :
    (∃ qm', c.run qm = .ok qm' ∧
      qm'.Faithful (c.ignoredNow qm qm' I) (c.skippedNow qm qm' S)) ↔ c.Safe qm := by
  cases c with
  | newScheduling => exact h.scheduling_iff hready
  | preemption => exact h.preemption_iff hready
  | ignored =>
    refine Iff.trans ⟨fun ⟨qm', hrun, _⟩ => ⟨qm', hrun⟩, fun ⟨qm', hrun⟩ => ⟨qm', hrun, ?_⟩⟩
      (h.drop_returns_iff hready fun r qm => { qm with ignoredReqIds := insert r qm.ignoredReqIds })
    obtain ⟨f, r, u⟩ := h.exists_drop hready (.inl hrun)
    exact (h.drop u).1
  | skipped =>
    refine Iff.trans ⟨fun ⟨qm', hrun, _⟩ => ⟨qm', hrun⟩, fun ⟨qm', hrun⟩ => ⟨qm', hrun, ?_⟩⟩
      (h.drop_returns_iff hready fun r qm => { qm with skippedReqIds := insert r qm.skippedReqIds })
    obtain ⟨f, r, u⟩ := h.exists_drop hready (.inr hrun)
    exact (h.drop u).2

/-- After the queues were merged, every sequence of safe calls leaves the bookkeeping exact, and
the next call returns and keeps it exactly when it is safe as well. -/
theorem faithful_of_calls (hnodup : (running ++ waiting).Nodup)
    (h : Calls (fun qm c => c.Safe qm) (qm.combineQueues req running waiting) qm' I S) :
    qm'.Faithful I S ∧ ∀ c : Call, c.Ready qm' →
      ((∃ qm'', c.run qm' = .ok qm'' ∧
        qm''.Faithful (c.ignoredNow qm' qm'' I) (c.skippedNow qm' qm'' S)) ↔ c.Safe qm') := by
  have hfaithful : qm'.Faithful I S := by
    induction h with
    | start => exact .combineQueues hnodup
    | call _ hready hsafe hrun ih =>
        obtain ⟨qm'', hrun', hfaithful⟩ := (ih.call_iff _ hready).mpr hsafe
        cases hrun.symm.trans hrun'
        exact hfaithful
  exact ⟨hfaithful, fun c hready => hfaithful.call_iff c hready⟩

/-- The state after a call that returns. -/
def Call.after (c : Call) (qm : QueueManager) : QueueManager := (c.run qm).toOption.getD qm

/-- A call that returns leads on, with the given ids ignored and skipped. -/
theorem Calls.next {ok : QueueManager → Call → Prop} {start : QueueManager}
    {A B : Finset ReqId}
    (c : Call) (h : Calls ok start qm I S) (hready : c.Ready qm) (hok : ok qm c)
    (hreturns : (c.run qm).toOption.isSome) (hignored : c.ignoredNow qm (c.after qm) I = A)
    (hskipped : c.skippedNow qm (c.after qm) S = B) : Calls ok start (c.after qm) A B := by
  subst hignored hskipped
  refine .call h hready hok ?_
  unfold Call.after
  cases hrun : c.run qm with
  | error e =>
    rw [hrun] at hreturns
    cases hreturns
  | ok qm' => rfl

/-- The queue manager after two running and four waiting requests were merged. -/
def sixQueued : QueueManager :=
  combineQueues { policy := .fcfs } (fun _ => default) [1, 2] [3, 4, 5, 6]

/-- The second request is preempted and scheduled again, the third is ignored, the fourth is
skipped and the fifth is scheduled: the bookkeeping is then exact. -/
theorem faithful_sixQueued : ∃ qm, Calls (fun qm c => c.Safe qm) sixQueued qm {3} {4} ∧
    qm.lastRunningIdx = some 4 ∧ qm.firstWaitingIdx = some 5 ∧ qm.runningReqIds = {1, 2, 5} ∧
      qm.Faithful {3} {4} := by
  have hstart : Calls (fun qm c => c.Safe qm) sixQueued sixQueued ∅ ∅ := .start
  have hpreempted := hstart.next .preemption ⟨2, by decide +kernel⟩
    (by simp only [Call.Safe]; decide +kernel) (by decide +kernel) rfl rfl
  have hresumed := hpreempted.next .newScheduling ⟨2, by decide +kernel⟩
    (by simp only [Call.Safe, EndKept]; decide +kernel) (by decide +kernel) rfl rfl
  have hignored := hresumed.next (A := {3}) .ignored ⟨3, by decide +kernel⟩
    ⟨2, 3, by decide +kernel⟩ (by decide +kernel) (by decide +kernel) rfl
  have hskipped := hignored.next (B := {4}) .skipped ⟨4, by decide +kernel⟩
    ⟨3, 4, by decide +kernel⟩ (by decide +kernel) rfl (by decide +kernel)
  have hscheduled := hskipped.next .newScheduling ⟨5, by decide +kernel⟩
    (by simp only [Call.Safe, EndKept]; decide +kernel) (by decide +kernel) rfl rfl
  exact ⟨_, hscheduled, by decide +kernel, by decide +kernel, by decide +kernel,
    (faithful_of_calls (by decide) hscheduled).1⟩

/-- The queue manager after a running and a waiting request were merged. -/
def oneEach : QueueManager :=
  combineQueues { policy := .fcfs } (fun _ => default) [1] [2]

/-- Preempting the running one raises: it stands at the head. -/
theorem not_faithful_of_calls : ¬ ∀ (qm : QueueManager) (req : ReqId → Request)
    (running waiting : List ReqId), (running ++ waiting).Nodup → ∀ qm' I S,
    Calls (fun _ _ => True) (qm.combineQueues req running waiting) qm' I S →
    qm'.Faithful I S ∧ ∀ c : Call, c.Ready qm' → ∃ qm'', c.run qm' = .ok qm'' := by
  intro hclaim
  obtain ⟨qm'', hrun⟩ := (hclaim { policy := .fcfs } (fun _ => default) [1] [2] (by decide) _ _ _
    .start).2 .preemption ⟨1, by decide +kernel⟩
  have herror : oneEach.updateIdxsAfterPreemption = .error .firstWaitingNotZero := rfl
  cases herror.symm.trans hrun

end QueueManager

end RpsServe
