import RpsServe.QueueManager.Updates
import Mathlib.Data.Finset.Lattice.Basic

/-!
# Exact bookkeeping

While no request is ignored or skipped, the running, waiting and preempted ids partition
the combined list, the last running index is the greatest one of a running request, and the
first waiting index is the least one of a waiting or preempted request. Merging the queues
establishes this, and preempting and scheduling keep it in any order.
-/

namespace RpsServe

namespace QueueManager

/-- The id sets hold distinct requests of the combined list. -/
structure Parts (qm : QueueManager) : Prop where
  nodup : qm.combined.Nodup
  running_sub : ∀ r ∈ qm.runningReqIds, r ∈ qm.combined
  waiting_sub : ∀ r ∈ qm.waitingReqIds, r ∈ qm.combined
  preempted_sub : ∀ r ∈ qm.preemptedReqIds, r ∈ qm.combined
  running_waiting : Disjoint qm.runningReqIds qm.waitingReqIds
  running_preempted : Disjoint qm.runningReqIds qm.preemptedReqIds
  waiting_preempted : Disjoint qm.waitingReqIds qm.preemptedReqIds

/-- Nothing was ever ignored or skipped. -/
def NothingDropped (qm : QueueManager) : Prop := qm.ignoredReqIds = ∅ ∧ qm.skippedReqIds = ∅

/-- A running request stands at the index. -/
def runningAt (qm : QueueManager) (i : ℕ) : Bool := qm.standsIn qm.runningReqIds i

/-- A waiting or preempted request stands at the index. -/
def waitingAt (qm : QueueManager) (i : ℕ) : Bool :=
  qm.standsIn (qm.waitingReqIds ∪ qm.preemptedReqIds) i

/-- The partition of the combined list and the exact indices. -/
structure Exact (qm : QueueManager) : Prop extends Parts qm where
  cover : ∀ i < qm.combined.length, qm.runningAt i = true ∨ qm.waitingAt i = true
  last : GreatestHit qm.runningAt qm.lastRunningIdx
  first : LeastHit qm.waitingAt qm.firstWaitingIdx

variable {qm qm' : QueueManager} {l f i : ℕ} {v r : ReqId}

/-- Two indices of a list without repetitions that hold the same request are equal. -/
theorem Parts.index_unique (h : qm.Parts) (hl : qm.combined[l]? = some v)
    (hi : qm.combined[i]? = some v) : i = l := by
  obtain ⟨hl', rfl⟩ := List.getElem?_eq_some_iff.mp hl
  obtain ⟨hi', he⟩ := List.getElem?_eq_some_iff.mp hi
  exact (List.Nodup.getElem_inj_iff h.nodup).mp he

/-- Taking a request out of a set of ids takes its index out of where the set stands. -/
theorem Parts.standsIn_erase (h : qm.Parts) (hl : qm.combined[l]? = some v) {ids : Finset ReqId} :
    qm.standsIn (ids.erase v) i = true ↔ i ≠ l ∧ qm.standsIn ids i = true := by
  simp only [standsIn_iff, Finset.mem_erase]
  constructor
  · rintro ⟨r, hr, hne, hmem⟩
    refine ⟨?_, r, hr, hmem⟩
    rintro rfl
    exact hne (Option.some.inj (hr.symm.trans hl))
  · rintro ⟨hne, r, hr, hmem⟩
    refine ⟨r, hr, ?_, hmem⟩
    rintro rfl
    exact hne (h.index_unique hl hr)

/-- Putting a request into a set of ids adds its index to where the set stands. -/
theorem Parts.standsIn_insert (h : qm.Parts) (hl : qm.combined[l]? = some v) {ids : Finset ReqId} :
    qm.standsIn (insert v ids) i = true ↔ i = l ∨ qm.standsIn ids i = true := by
  simp only [standsIn_iff, Finset.mem_insert]
  constructor
  · rintro ⟨r, hr, rfl | hmem⟩
    · exact .inl (h.index_unique hl hr)
    · exact .inr ⟨r, hr, hmem⟩
  · rintro (rfl | ⟨r, hr, hmem⟩)
    · exact ⟨v, hl, .inl rfl⟩
    · exact ⟨r, hr, .inr hmem⟩

/-- A union of ids stands where either of them does. -/
theorem standsIn_union {ids ids' : Finset ReqId} :
    qm.standsIn (ids ∪ ids') i = true ↔ qm.standsIn ids i = true ∨ qm.standsIn ids' i = true := by
  simp only [standsIn_iff, Finset.mem_union]
  constructor
  · rintro ⟨r, hr, hmem | hmem⟩
    exacts [.inl ⟨r, hr, hmem⟩, .inr ⟨r, hr, hmem⟩]
  · rintro (⟨r, hr, hmem⟩ | ⟨r, hr, hmem⟩)
    exacts [⟨r, hr, .inl hmem⟩, ⟨r, hr, .inr hmem⟩]

/-- No index is at once running and waiting. -/
theorem Parts.not_both (h : qm.Parts) (hr : qm.runningAt i = true) : qm.waitingAt i = false := by
  obtain ⟨r, hi, hmem⟩ := standsIn_iff.mp hr
  rw [← Bool.not_eq_true]
  intro hw
  obtain ⟨r', hi', hmem'⟩ := standsIn_iff.mp hw
  obtain rfl : r = r' := Option.some.inj (hi.symm.trans hi')
  rcases Finset.mem_union.mp hmem' with hw | hp
  · exact Finset.disjoint_left.mp h.running_waiting hmem hw
  · exact Finset.disjoint_left.mp h.running_preempted hmem hp

section Preemption

variable (u : PreemptionUpdate qm qm' l v)
include u

/-- A preemption keeps the parts. -/
theorem PreemptionUpdate.parts (h : qm.Parts) : qm'.Parts where
  nodup := u.combined ▸ h.nodup
  running_sub r hr := by
    rw [u.running, Finset.mem_erase] at hr
    exact u.combined ▸ h.running_sub r hr.2
  waiting_sub r hr := u.combined ▸ h.waiting_sub r (u.waiting ▸ hr)
  preempted_sub r hr := by
    rw [u.preempted, Finset.mem_insert] at hr
    rw [u.combined]
    rcases hr with rfl | hr
    · exact h.running_sub _ u.wasRunning
    · exact h.preempted_sub r hr
  running_waiting := by
    rw [u.running, u.waiting]
    exact h.running_waiting.mono_left (Finset.erase_subset _ _)
  running_preempted := by
    rw [u.running, u.preempted, Finset.disjoint_insert_right]
    exact ⟨Finset.notMem_erase _ _, h.running_preempted.mono_left (Finset.erase_subset _ _)⟩
  waiting_preempted := by
    rw [u.waiting, u.preempted, Finset.disjoint_insert_right]
    exact ⟨Finset.disjoint_left.mp h.running_waiting u.wasRunning, h.waiting_preempted⟩

/-- A preemption takes its index out of the running ones. -/
theorem PreemptionUpdate.runningAt_iff (h : qm.Parts) :
    qm'.runningAt i = true ↔ i ≠ l ∧ qm.runningAt i = true := by
  rw [runningAt, u.running, standsIn_congr u.combined, h.standsIn_erase u.stands, runningAt]

/-- A preemption adds its index to the waiting ones. -/
theorem PreemptionUpdate.waitingAt_iff (h : qm.Parts) :
    qm'.waitingAt i = true ↔ i = l ∨ qm.waitingAt i = true := by
  rw [waitingAt, u.waiting, u.preempted, standsIn_congr u.combined, Finset.union_insert,
    h.standsIn_insert u.stands, waitingAt]

/-- After a preemption the last running index is exact if the old one was. -/
theorem PreemptionUpdate.last (h : qm.Parts) (hlast : GreatestHit qm.runningAt (some l)) :
    GreatestHit qm'.runningAt qm'.lastRunningIdx := by
  rw [u.newLastRunning]
  refine greatestHit_lastBelow fun i hi => ?_
  have := hlast.2 i ((u.runningAt_iff h).mp hi).2
  omega

/-- After a preemption the first waiting index is exact if the old one was; with nothing waiting
before, the last index has to be the one preempted. -/
theorem PreemptionUpdate.first (h : qm.Parts) (hfirst : LeastHit qm.waitingAt qm.firstWaitingIdx)
    (hend : qm.firstWaitingIdx = none → l + 1 = qm.combined.length) :
    LeastHit qm'.waitingAt qm'.firstWaitingIdx := by
  by_cases hn : qm'.lastRunningIdx = none
  · obtain ⟨hzero, hzero'⟩ := u.noneRunning hn
    rw [hzero] at hfirst
    rw [hzero']
    exact ⟨(u.waitingAt_iff h).mpr (.inr hfirst.1), fun i _ => Nat.zero_le i⟩
  · rw [u.newFirstWaiting hn]
    cases hq : qm.firstWaitingIdx with
    | none =>
      rw [hq] at hfirst
      have hl : qm.combined.length - 1 = l := by have := hend hq; omega
      refine ⟨(u.waitingAt_iff h).mpr (.inl hl), fun i hi => ?_⟩
      rcases (u.waitingAt_iff h).mp hi with rfl | hw
      · exact hl.le
      · simp [hfirst i] at hw
    | some first =>
      rw [hq] at hfirst
      constructor
      · rcases min_choice l first with hm | hm
        · exact (u.waitingAt_iff h).mpr (.inl hm)
        · exact (u.waitingAt_iff h).mpr (.inr (by rw [hm]; exact hfirst.1))
      · intro i hi
        rcases (u.waitingAt_iff h).mp hi with rfl | hw
        · exact min_le_left _ _
        · exact (min_le_right _ _).trans (hfirst.2 i hw)

/-- Preempting keeps the bookkeeping exact. -/
theorem PreemptionUpdate.exact (h : qm.Exact) : qm'.Exact := by
  have hlast : GreatestHit qm.runningAt (some l) := u.lastRunning ▸ h.last
  have hl : l < qm.combined.length := lt_length_of_standsIn hlast.1
  refine { u.parts h.toParts with
    cover := fun i hi => ?_
    last := u.last h.toParts hlast
    first := u.first h.toParts h.first fun hn => ?_ }
  · rw [u.combined] at hi
    by_cases hil : i = l
    · exact .inr ((u.waitingAt_iff h.toParts).mpr (.inl hil))
    · rcases h.cover i hi with hr | hw
      · exact .inl ((u.runningAt_iff h.toParts).mpr ⟨hil, hr⟩)
      · exact .inr ((u.waitingAt_iff h.toParts).mpr (.inr hw))
  · have hnone : LeastHit qm.waitingAt none := hn ▸ h.first
    rcases h.cover (qm.combined.length - 1) (by omega) with hr | hw
    · have := hlast.2 _ hr
      omega
    · simp [hnone _] at hw

end Preemption

section Scheduling

variable (u : SchedulingUpdate qm qm' f r)
include u

/-- A scheduling keeps the parts. -/
theorem SchedulingUpdate.parts (h : qm.Parts) : qm'.Parts where
  nodup := u.combined ▸ h.nodup
  running_sub q hq := by
    rw [u.running, Finset.mem_insert] at hq
    rw [u.combined]
    rcases hq with rfl | hq
    · exact List.mem_of_getElem? u.stands
    · exact h.running_sub q hq
  waiting_sub q hq := by
    rw [u.waiting, Finset.mem_erase] at hq
    exact u.combined ▸ h.waiting_sub q hq.2
  preempted_sub q hq := by
    rw [u.preempted, Finset.mem_erase] at hq
    exact u.combined ▸ h.preempted_sub q hq.2
  running_waiting := by
    rw [u.running, u.waiting, Finset.disjoint_insert_left]
    exact ⟨Finset.notMem_erase _ _, h.running_waiting.mono_right (Finset.erase_subset _ _)⟩
  running_preempted := by
    rw [u.running, u.preempted, Finset.disjoint_insert_left]
    exact ⟨Finset.notMem_erase _ _, h.running_preempted.mono_right (Finset.erase_subset _ _)⟩
  waiting_preempted := by
    rw [u.waiting, u.preempted]
    exact h.waiting_preempted.mono (Finset.erase_subset _ _) (Finset.erase_subset _ _)

/-- A scheduling adds its index to the running ones. -/
theorem SchedulingUpdate.runningAt_iff (h : qm.Parts) :
    qm'.runningAt i = true ↔ i = f ∨ qm.runningAt i = true := by
  rw [runningAt, u.running, standsIn_congr u.combined, h.standsIn_insert u.stands, runningAt]

/-- A scheduling takes its index out of the waiting ones. -/
theorem SchedulingUpdate.waitingAt_iff (h : qm.Parts) :
    qm'.waitingAt i = true ↔ i ≠ f ∧ qm.waitingAt i = true := by
  rw [waitingAt, u.waiting, u.preempted, standsIn_congr u.combined, ← Finset.erase_union_distrib,
    h.standsIn_erase u.stands, waitingAt]

/-- After a scheduling the first waiting index is exact if the old one was. -/
theorem SchedulingUpdate.first (h : qm.Parts) (hfirst : LeastHit qm.waitingAt (some f)) :
    LeastHit qm'.waitingAt qm'.firstWaitingIdx := by
  rw [u.newFirstWaiting]
  refine leastHit_firstFrom fun i hi => ⟨hfirst.2 i ((u.waitingAt_iff h).mp hi).2, ?_⟩
  have := lt_length_of_standsIn hi
  omega

/-- Scheduling keeps the bookkeeping exact. -/
theorem SchedulingUpdate.exact (h : qm.Exact) : qm'.Exact := by
  have hf : LeastHit qm.waitingAt (some f) := u.firstWaiting ▸ h.first
  have hfirst := u.first h.toParts hf
  have hcover : ∀ i < qm'.combined.length, qm'.runningAt i = true ∨ qm'.waitingAt i = true := by
    intro i hi
    rw [u.combined] at hi
    by_cases hif : i = f
    · exact .inl ((u.runningAt_iff h.toParts).mpr (.inl hif))
    · rcases h.cover i hi with hr | hw
      · exact .inl ((u.runningAt_iff h.toParts).mpr (.inr hr))
      · exact .inr ((u.waitingAt_iff h.toParts).mpr ⟨hif, hw⟩)
  refine { u.parts h.toParts with cover := hcover, last := ?_, first := hfirst }
  by_cases hn : qm'.firstWaitingIdx = none
  · rw [u.noneWaiting hn]
    rw [hn] at hfirst
    have hlen : f < qm.combined.length := lt_length_of_standsIn hf.1
    constructor
    · rcases hcover (qm.combined.length - 1) (by rw [u.combined]; omega) with hr | hw
      · exact hr
      · simp [hfirst _] at hw
    · intro i hi
      have := lt_length_of_standsIn hi
      rw [u.combined] at this
      omega
  · rw [u.newLastRunning hn]
    have hlast := h.last
    cases hq : qm.lastRunningIdx with
    | none =>
      rw [hq] at hlast
      have hzero : f = 0 := by
        have hlen : f < qm.combined.length := lt_length_of_standsIn hf.1
        rcases h.cover 0 (by omega) with hr | hw
        · simp [hlast 0] at hr
        · exact Nat.le_zero.mp (hf.2 0 hw)
      refine ⟨(u.runningAt_iff h.toParts).mpr (.inl hzero.symm), fun i hi => ?_⟩
      rcases (u.runningAt_iff h.toParts).mp hi with rfl | hr
      · exact hzero.le
      · simp [hlast i] at hr
    | some last =>
      rw [hq] at hlast
      constructor
      · rcases max_choice last f with hm | hm
        · exact (u.runningAt_iff h.toParts).mpr (.inr (by rw [hm]; exact hlast.1))
        · exact (u.runningAt_iff h.toParts).mpr (.inl hm)
      · intro i hi
        rcases (u.runningAt_iff h.toParts).mp hi with rfl | hr
        · exact le_max_right _ _
        · exact (hlast.2 i hr).trans (le_max_left _ _)

end Scheduling

section Dropping

variable (u : DropUpdate qm qm' f r)
include u

/-- A drop keeps the parts. -/
theorem DropUpdate.parts (h : qm.Parts) : qm'.Parts where
  nodup := u.combined ▸ h.nodup
  running_sub q hq := u.combined ▸ h.running_sub q (u.running ▸ hq)
  waiting_sub q hq := by
    rw [u.waiting, Finset.mem_erase] at hq
    exact u.combined ▸ h.waiting_sub q hq.2
  preempted_sub q hq := u.combined ▸ h.preempted_sub q (u.preempted ▸ hq)
  running_waiting := by
    rw [u.running, u.waiting]
    exact h.running_waiting.mono_right (Finset.erase_subset _ _)
  running_preempted := by
    rw [u.running, u.preempted]
    exact h.running_preempted
  waiting_preempted := by
    rw [u.waiting, u.preempted]
    exact h.waiting_preempted.mono_left (Finset.erase_subset _ _)

/-- A drop leaves the running ones. -/
theorem DropUpdate.runningAt_eq : qm'.runningAt i = qm.runningAt i := by
  rw [runningAt, u.running, standsIn_congr u.combined, runningAt]

/-- A drop takes its index out of the waiting ones. -/
theorem DropUpdate.waitingAt_iff (h : qm.Parts) :
    qm'.waitingAt i = true ↔ i ≠ f ∧ qm.waitingAt i = true := by
  have hp : r ∉ qm.preemptedReqIds := Finset.disjoint_left.mp h.waiting_preempted u.wasWaiting
  have herase : qm.waitingReqIds.erase r ∪ qm.preemptedReqIds =
      (qm.waitingReqIds ∪ qm.preemptedReqIds).erase r := by
    rw [Finset.erase_union_distrib, Finset.erase_eq_of_notMem hp]
  rw [waitingAt, u.waiting, u.preempted, standsIn_congr u.combined, herase,
    h.standsIn_erase u.stands, waitingAt]

/-- After a drop the first waiting index is exact if the old one was. -/
theorem DropUpdate.first (h : qm.Parts) (hfirst : LeastHit qm.waitingAt (some f)) :
    LeastHit qm'.waitingAt qm'.firstWaitingIdx := by
  rw [u.newFirstWaiting]
  refine leastHit_firstFrom fun i hi => ⟨hfirst.2 i ((u.waitingAt_iff h).mp hi).2, ?_⟩
  have := lt_length_of_standsIn hi
  omega

/-- A drop has dropped something. -/
theorem DropUpdate.not_nothingDropped : ¬ qm'.NothingDropped := by
  rintro ⟨hi, hs⟩
  have := u.dropped
  rw [hi, hs] at this
  simpa using congrArg (r ∈ ·) this

end Dropping

/-- The queue manager after one of its updates, or after none. -/
inductive Update (qm qm' : QueueManager) : Prop where
  | same : qm' = qm → Update qm qm'
  | preemption {l : ℕ} {v : ReqId} : PreemptionUpdate qm qm' l v → Update qm qm'
  | scheduling {f : ℕ} {r : ReqId} : SchedulingUpdate qm qm' f r → Update qm qm'
  | drop {f : ℕ} {r : ReqId} : DropUpdate qm qm' f r → Update qm qm'

namespace Update

/-- A preemption that returns is an update. -/
theorem of_preemption (h : qm.updateIdxsAfterPreemption = .ok qm') : Update qm qm' := by
  rcases updateIdxsAfterPreemption_cases h with ⟨-, hq⟩ | ⟨l, v, u⟩
  exacts [.same hq, .preemption u]

/-- A scheduling that returns is an update. -/
theorem of_scheduling (h : qm.updateIdxsAfterNewScheduling = .ok qm') : Update qm qm' := by
  rcases updateIdxsAfterNewScheduling_cases h with ⟨-, hq⟩ | ⟨f, r, u⟩
  exacts [.same hq, .scheduling u]

/-- An ignored request that is marked without error is an update. -/
theorem of_ignored (h : qm.updateIdxsAfterIgnored = .ok qm') : Update qm qm' := by
  rcases updateIdxsAfterIgnored_cases h with ⟨-, hq⟩ | ⟨f, r, u⟩
  exacts [.same hq, .drop u]

/-- A skipped request that is marked without error is an update. -/
theorem of_skipped (h : qm.updateIdxsAfterSkipped = .ok qm') : Update qm qm' := by
  rcases updateIdxsAfterSkipped_cases h with ⟨-, hq⟩ | ⟨f, r, u⟩
  exacts [.same hq, .drop u]

/-- An update keeps the merged list. -/
theorem sameList (u : Update qm qm') : SameList qm qm' := by
  cases u with
  | same h => exact h ▸ ⟨rfl, rfl⟩
  | preemption u => exact u.toSameList
  | scheduling u => exact u.toSameList
  | drop u => exact u.toSameList

/-- An update keeps the parts. -/
theorem parts (u : Update qm qm') (h : qm.Parts) : qm'.Parts := by
  cases u with
  | same hs => exact hs ▸ h
  | preemption u => exact u.parts h
  | scheduling u => exact u.parts h
  | drop u => exact u.parts h

/-- No update puts a request into the waiting ids. -/
theorem waiting_subset (u : Update qm qm') : qm'.waitingReqIds ⊆ qm.waitingReqIds := by
  cases u with
  | same h => rw [h]
  | preemption u => rw [u.waiting]
  | scheduling u => exact u.waiting ▸ Finset.erase_subset _ _
  | drop u => exact u.waiting ▸ Finset.erase_subset _ _

/-- What was dropped stays dropped. -/
theorem nothingDropped (u : Update qm qm') (h : qm'.NothingDropped) : qm.NothingDropped := by
  cases u with
  | same hs => exact hs ▸ h
  | preemption u => exact ⟨u.ignored ▸ h.1, u.skipped ▸ h.2⟩
  | scheduling u => exact ⟨u.ignored ▸ h.1, u.skipped ▸ h.2⟩
  | drop u => exact absurd h u.not_nothingDropped

/-- Every update keeps the bookkeeping exact as far as nothing was dropped. -/
theorem exact (u : Update qm qm') (h : qm.NothingDropped → qm.Exact) :
    qm'.NothingDropped → qm'.Exact := by
  intro hno
  have hexact := h (u.nothingDropped hno)
  cases u with
  | same hs => exact hs ▸ hexact
  | preemption u => exact u.exact hexact
  | scheduling u => exact u.exact hexact
  | drop u => exact absurd hno u.not_nothingDropped

end Update

end QueueManager

end RpsServe
