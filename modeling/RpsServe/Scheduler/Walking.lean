import RpsServe.QueueManager.Walk
import RpsServe.Scheduler.Frame
import RpsServe.Scheduler.Grant

/-!
# The walk of a step

The invariant of the main loop. It holds in every round of a step that meets two
conditions: no request is preempted that the walk has gone past already, and none is passed
over but a running one. Under it a preemption never has to be rolled back.
-/

namespace RpsServe

namespace LoopState

variable {K E : Type}

/-- Every request that the step has scheduled so far. -/
def scheduledReqs (ls : LoopState K E) : List ReqId :=
  ls.scheduledNewReqs ++ ls.scheduledResumedReqs ++ ls.scheduledRunningReqs

/-- The loop's variables during the walk. -/
structure Walking (ls : LoopState K E) : Prop where
  walk : ls.qm.Walk ls.reqIndex
  sorted : ls.qm.combined.Pairwise fun a b => (ls.req a).priority ≤ (ls.req b).priority
  known : ∀ r ∈ ls.qm.combined, r ∈ ls.sch.objs.keys
  status : ∀ r, (ls.req r).status = .running ↔ r ∈ ls.qm.runningReqIds
  preempted : ∀ r ∈ ls.preemptedReqs, r ∈ ls.qm.preemptedReqIds
  scheduledNodup : ls.scheduledReqs.Nodup
  scheduledKeys : ∀ r, r ∈ ls.numScheduledTokens.keys ↔ r ∈ ls.scheduledReqs
  scheduled : ∀ r ∈ ls.scheduledReqs, r ∈ ls.qm.runningReqIds ∧
    ∃ j < ls.reqIndex, ls.qm.combined[j]? = some r
  budget : 0 ≤ ls.tokenBudget

/-- No request behind the walk runs. -/
def Ahead (ls : LoopState K E) : Prop := ∀ k, ls.qm.runningAt k = true → k < ls.reqIndex

/-- A frame leaves the requests sorted by priority. -/
theorem Frame.sorted {ls ls' : LoopState K E} (h : Frame ls ls')
    (hs : ls.qm.combined.Pairwise fun a b => (ls.req a).priority ≤ (ls.req b).priority) :
    ls'.qm.combined.Pairwise fun a b => (ls'.req a).priority ≤ (ls'.req b).priority := by
  have hprio : ∀ r, (ls'.req r).priority = (ls.req r).priority := by
    intro r
    obtain ⟨_, _, _, _, hr⟩ := h.inputs r
    rw [hr]
  simpa only [hprio, h.combined] using hs

/-- A frame leaves the requests known. -/
theorem Frame.known {ls ls' : LoopState K E} (h : Frame ls ls')
    (hs : ∀ r ∈ ls.qm.combined, r ∈ ls.sch.objs.keys) :
    ∀ r ∈ ls'.qm.combined, r ∈ ls'.sch.objs.keys := fun r hr => by
  rw [h.keys]
  exact hs r (h.combined ▸ hr)

/-- Assigning a status to one request, seen from the running ids. -/
theorem status_iff_modify {objs : Objs} {r : ReqId} {f : Request → Request} {R R' : Finset ReqId}
    (hr : r ∈ objs.keys) (h : ∀ x, (objs.req x).status = .running ↔ x ∈ R)
    (hself : (f (objs.req r)).status = .running ↔ r ∈ R')
    (hothers : ∀ x, x ≠ r → (x ∈ R' ↔ x ∈ R)) (x : ReqId) :
    (Objs.req (objs.modify r f) x).status = .running ↔ x ∈ R' := by
  by_cases hx : x = r
  · rw [hx, Objs.req_modify_self hr]
    exact hself
  · rw [Objs.req_modify_ne hx, hothers x hx]
    exact h x

variable [KVCacheManager K] [EncoderCache E] {cfg : Config} {env : StepEnv} {r q v : ReqId}
  {args : AllocateSlotsArgs} {l : ℕ} {kv : K} {ls ls' t t' : LoopState K E}

namespace Walking

omit [KVCacheManager K] [EncoderCache E] in
/-- The caches are no part of the invariant. -/
theorem caches (h : Walking ls) (kv : K) (enc : E) :
    Walking { ls with sch := { ls.sch with kv := kv, enc := enc } } :=
  ⟨h.walk, h.sorted, h.known, h.status, h.preempted, h.scheduledNodup, h.scheduledKeys, h.scheduled,
    h.budget⟩

omit [KVCacheManager K] [EncoderCache E] in
/-- Changing the encoder cache leaves the walk as it is. -/
theorem setEnc (h : Walking ls) (enc : E) : Walking (ls.setEnc enc) := h.caches ls.sch.kv enc

omit [KVCacheManager K] [EncoderCache E] in
/-- The walk goes past a running request. -/
theorem advance (h : Walking ls) (hr : ls.qm.combined[ls.reqIndex]? = some r)
    (hR : r ∈ ls.qm.runningReqIds) : Walking ls.advance where
  walk := h.walk.pass ((QueueManager.standsIn_of_getElem? hr).mpr hR)
  sorted := h.sorted
  known := h.known
  status := h.status
  preempted := h.preempted
  scheduledNodup := h.scheduledNodup
  scheduledKeys := h.scheduledKeys
  scheduled x hx := by
    obtain ⟨hxR, j, hj, hjx⟩ := h.scheduled x hx
    exact ⟨hxR, j, Nat.lt_succ_of_lt hj, hjx⟩
  budget := h.budget

omit [EncoderCache E] in
/-- A victim at or behind the walk was not scheduled in this step. -/
theorem victim_unscheduled (h : Walking t) (hpre : Preempts q args t l v kv) (hl : t.reqIndex ≤ l) :
    v ∉ t.scheduledRunningReqs := by
  intro hv
  obtain ⟨-, j, hj, hjv⟩ := h.scheduled v (List.mem_append_right _ hv)
  have := h.walk.toParts.index_unique hpre.stands hjv
  omega

/-- A preemption at or behind the walk is not rolled back. -/
theorem preempt_eq (h : Walking t) (hpre : Preempts q args t l v kv) (hl : t.reqIndex ≤ l)
    (hvictim : (t.setKv kv).preemptVictim v = .ok t') :
    ∃ qm', QueueManager.PreemptionUpdate t.qm qm' l v ∧ t' = { t with
      sch := { t.sch with
        kv := KVCacheManager.free kv v
        enc := EncoderCache.free t.sch.enc (t.req v)
        objs := t.sch.objs.modify v Scheduler.preempted
        queueManager := qm' }
      preemptedReqs := t.preemptedReqs ++ [v] } := by
  obtain ⟨ls₁, qm', hroll, -, hqm, rfl⟩ := preemptVictim_eq_ok hvictim
  rcases rollback_cases hroll with ⟨-, rfl⟩ | ⟨hv, -⟩
  · rcases QueueManager.updateIdxsAfterPreemption_cases hqm with ⟨hnone, -⟩ | ⟨l', v', u⟩
    · rw [qm_setKv, hpre.lastRunning] at hnone
      cases hnone
    · obtain rfl : l = l' := Option.some.inj (hpre.lastRunning.symm.trans u.lastRunning)
      obtain rfl : v = v' := Option.some.inj (hpre.stands.symm.trans u.stands)
      exact ⟨qm', u, rfl⟩
  · exact absurd hv (h.victim_unscheduled hpre hl)

/-- A preemption at or behind the walk keeps the invariant, the index and the budget. -/
theorem preempt (h : Walking t) (hpre : Preempts q args t l v kv) (hl : t.reqIndex ≤ l)
    (hvictim : (t.setKv kv).preemptVictim v = .ok t') :
    Walking t' ∧ t'.reqIndex = t.reqIndex ∧ t'.tokenBudget = t.tokenBudget := by
  obtain ⟨qm', u, ht'⟩ := h.preempt_eq hpre hl hvictim
  have hmem : v ∈ t.qm.combined := List.mem_of_getElem? hpre.stands
  have hframe : Frame t t' :=
    .of_modify (f := Scheduler.preempted) hmem (fun _ => ⟨_, _, _, _, rfl⟩) u.toSameList (by rw [ht'])
  subst ht'
  refine ⟨{
    walk := h.walk.preempt u hl
    sorted := hframe.sorted h.sorted
    known := hframe.known h.known
    status := status_iff_modify (h.known v hmem) h.status ?_ fun x hx => ?_
    preempted := fun x hx => ?_
    scheduledNodup := h.scheduledNodup
    scheduledKeys := h.scheduledKeys
    scheduled := fun x hx => ?_
    budget := h.budget }, rfl, rfl⟩
  · show RequestStatus.preempted = .running ↔ v ∈ qm'.runningReqIds
    simp [u.running]
  · show x ∈ qm'.runningReqIds ↔ _
    simp [u.running, hx]
  · show x ∈ qm'.preemptedReqIds
    rw [u.preempted, Finset.mem_insert]
    rcases List.mem_append.mp hx with hx | hx
    exacts [.inr (h.preempted x hx), .inl (List.mem_singleton.mp hx)]
  · obtain ⟨hxR, j, hj, hjx⟩ := h.scheduled x hx
    refine ⟨?_, j, hj, u.combined ▸ hjx⟩
    show x ∈ qm'.runningReqIds
    rw [u.running, Finset.mem_erase]
    refine ⟨?_, hxR⟩
    rintro rfl
    have := h.walk.toParts.index_unique hpre.stands hjx
    omega

omit [KVCacheManager K] [EncoderCache E] in
/-- The candidate was not scheduled before. -/
theorem fresh (h : Walking ls) (hr : ls.qm.combined[ls.reqIndex]? = some r) :
    r ∉ ls.scheduledReqs := fun hmem => by
  obtain ⟨-, j, hj, hjr⟩ := h.scheduled r hmem
  have := h.walk.toParts.index_unique hr hjr
  omega

omit [KVCacheManager K] [EncoderCache E] in
/-- The walk goes past a candidate that it schedules. -/
theorem next {n : ℤ} (h : Walking ls) (hr : ls.qm.combined[ls.reqIndex]? = some r)
    (hframe : Frame ls ls') (hindex : ls'.reqIndex = ls.reqIndex + 1)
    (hwalk : ls'.qm.Walk (ls.reqIndex + 1))
    (hstatus : ∀ x, (ls'.req x).status = .running ↔ x ∈ ls'.qm.runningReqIds)
    (hpreempted : ∀ x ∈ ls'.preemptedReqs, x ∈ ls'.qm.preemptedReqIds)
    (hrun : insert r ls.qm.runningReqIds ⊆ ls'.qm.runningReqIds)
    (hperm : ls'.scheduledReqs.Perm (r :: ls.scheduledReqs))
    (hkeys : ls'.numScheduledTokens = ls.numScheduledTokens.set r n)
    (hbudget : ls'.tokenBudget = ls.tokenBudget - n) (hle : n ≤ ls.tokenBudget) :
    Walking ls' where
  walk := hindex ▸ hwalk
  sorted := hframe.sorted h.sorted
  known := hframe.known h.known
  status := hstatus
  preempted := hpreempted
  scheduledNodup := hperm.nodup_iff.mpr (List.nodup_cons.mpr ⟨h.fresh hr, h.scheduledNodup⟩)
  scheduledKeys x := by
    rw [hkeys, Dict.mem_keys_set, hperm.mem_iff, List.mem_cons, h.scheduledKeys x]
  scheduled x hx := by
    rw [hframe.combined, hindex]
    rcases List.mem_cons.mp (hperm.mem_iff.mp hx) with rfl | hx
    · exact ⟨hrun (Finset.mem_insert_self _ _), ls.reqIndex, Nat.lt_succ_self _, hr⟩
    · obtain ⟨hxR, j, hj, hjx⟩ := h.scheduled x hx
      exact ⟨hrun (Finset.mem_insert_of_mem hxR), j, Nat.lt_succ_of_lt hj, hjx⟩
  budget := by rw [hbudget]; omega

omit [KVCacheManager K] in
/-- A running candidate is scheduled. -/
theorem schedule {g : Grant} {newBlocks : KVCacheBlocks} (h : Walking ls)
    (hr : ls.qm.combined[ls.reqIndex]? = some r) (hR : r ∈ ls.qm.runningReqIds)
    (hle : g.numNewTokens ≤ ls.tokenBudget) (hsched : ls.scheduleRunning r g newBlocks = .ok ls') :
    Walking ls' := by
  have hmem : r ∈ ls.qm.combined := List.mem_of_getElem? hr
  obtain ⟨enc, spec, -, hls'⟩ := scheduleRunning_eq_ok hsched
  have hframe : Frame ls ls' :=
    .of_modify (f := fun q => { q with specTokenIds := [] }) hmem (fun _ => ⟨_, _, _, _, rfl⟩)
      (⟨rfl, rfl⟩ : QueueManager.SameList ls.qm ls.qm) (by rw [hls']; rfl)
  have hperm : ls'.scheduledReqs.Perm (r :: ls.scheduledReqs) := by
    rw [hls', scheduledReqs, scheduledReqs, ← List.append_assoc]
    exact List.perm_append_singleton _ _
  subst hls'
  refine h.next hr hframe rfl (h.walk.pass ((QueueManager.standsIn_of_getElem? hr).mpr hR))
    (status_iff_modify (h.known r hmem) h.status ?_ fun _ _ => Iff.rfl) h.preempted
    (Finset.insert_subset hR subset_rfl) hperm rfl rfl hle
  exact h.status r

/-- A waiting candidate is admitted. -/
theorem admitWaiting {c : CachedPrefix} {g : Grant} (h : Walking ls)
    (hr : ls.qm.combined[ls.reqIndex]? = some r) (hW : r ∈ ls.qm.waitingReqIds)
    (hle : g.numNewTokens ≤ ls.tokenBudget) (hadmitted : ls.admitWaiting cfg r c g = .ok ls') :
    Walking ls' := by
  have hmem : r ∈ ls.qm.combined := List.mem_of_getElem? hr
  have hfirst := h.walk.first_eq hr hW
  obtain ⟨newReqs, resumedReqs, qm', enc, hlists, hqm, -, hls'⟩ := admitWaiting_eq_ok hadmitted
  have hperm : ls'.scheduledReqs.Perm (r :: ls.scheduledReqs) := by
    rw [hls', scheduledReqs, scheduledReqs]
    rcases hlists with ⟨-, rfl, rfl⟩ | ⟨-, rfl, rfl⟩
    · simp only [List.append_assoc]
      exact List.perm_middle
    · rw [← List.append_assoc, List.append_assoc _ [r]]
      exact List.perm_middle
  rcases QueueManager.updateIdxsAfterNewScheduling_cases hqm with ⟨hnone, -⟩ | ⟨f, x, u⟩
  · rw [hfirst] at hnone
    cases hnone
  · obtain rfl : ls.reqIndex = f := Option.some.inj (hfirst.symm.trans u.firstWaiting)
    obtain rfl : r = x := Option.some.inj (hr.symm.trans u.stands)
    have hframe : Frame ls ls' :=
      .of_modify (f := fun q => { q with
        status := .running
        numComputedTokens := c.numComputedTokens }) hmem (fun _ => ⟨_, _, _, _, rfl⟩) u.toSameList
        (by rw [hls'])
    have hpre : r ∉ ls.qm.preemptedReqIds :=
      Finset.disjoint_left.mp h.walk.toParts.waiting_preempted hW
    subst hls'
    refine h.next hr hframe rfl (h.walk.schedule u)
      (status_iff_modify (h.known r hmem) h.status ?_ fun x hx => ?_) (fun x hx => ?_)
      (fun x hx => ?_) hperm rfl rfl hle
    · show RequestStatus.running = .running ↔ r ∈ qm'.runningReqIds
      simp [u.running]
    · show x ∈ qm'.runningReqIds ↔ _
      simp [u.running, hx]
    · show x ∈ qm'.preemptedReqIds
      rw [u.preempted, Finset.mem_erase]
      refine ⟨?_, h.preempted x hx⟩
      rintro rfl
      exact hpre (h.preempted x hx)
    · show x ∈ qm'.runningReqIds
      rwa [u.running]

omit [KVCacheManager K] [EncoderCache E] in
/-- The walk goes past a candidate that it drops. -/
theorem dropped (h : Walking ls) (hr : ls.qm.combined[ls.reqIndex]? = some r)
    (hW : r ∈ ls.qm.waitingReqIds) (hframe : Frame ls ls')
    (hindex : ls'.reqIndex = ls.reqIndex + 1) (hpreempted : ls'.preemptedReqs = ls.preemptedReqs)
    (hscheduled : ls'.scheduledReqs = ls.scheduledReqs)
    (hkeys : ls'.numScheduledTokens = ls.numScheduledTokens)
    (hbudget : ls'.tokenBudget = ls.tokenBudget)
    (hothers : ∀ x, x ≠ r → ls'.req x = ls.req x) (hself : (ls'.req r).status ≠ .running)
    (hqm : ls.qm.updateIdxsAfterIgnored = .ok ls'.qm ∨ ls.qm.updateIdxsAfterSkipped = .ok ls'.qm) :
    Walking ls' := by
  have hfirst := h.walk.first_eq hr hW
  obtain ⟨f, x, u⟩ : ∃ f x, QueueManager.DropUpdate ls.qm ls'.qm f x := by
    rcases hqm with hqm | hqm
    · rcases QueueManager.updateIdxsAfterIgnored_cases hqm with ⟨hnone, -⟩ | hdrop
      · rw [hfirst] at hnone
        cases hnone
      · exact hdrop
    · rcases QueueManager.updateIdxsAfterSkipped_cases hqm with ⟨hnone, -⟩ | hdrop
      · rw [hfirst] at hnone
        cases hnone
      · exact hdrop
  obtain rfl : ls.reqIndex = f := Option.some.inj (hfirst.symm.trans u.firstWaiting)
  have hR : r ∉ ls.qm.runningReqIds :=
    Finset.disjoint_right.mp h.walk.toParts.running_waiting hW
  refine {
    walk := hindex ▸ h.walk.drop u
    sorted := hframe.sorted h.sorted
    known := hframe.known h.known
    status := fun y => ?_
    preempted := by rw [hpreempted, u.preempted]; exact h.preempted
    scheduledNodup := hscheduled ▸ h.scheduledNodup
    scheduledKeys := fun y => by rw [hkeys, hscheduled]; exact h.scheduledKeys y
    scheduled := fun y hy => ?_
    budget := hbudget ▸ h.budget }
  · rw [u.running]
    by_cases hy : y = r
    · subst hy
      exact iff_of_false hself hR
    · rw [hothers y hy]
      exact h.status y
  · rw [hscheduled] at hy
    obtain ⟨hyR, j, hj, hjy⟩ := h.scheduled y hy
    exact ⟨u.running ▸ hyR, j, by omega, u.combined ▸ hjy⟩

omit [KVCacheManager K] [EncoderCache E] in
/-- A waiting candidate is ignored. -/
theorem ignore (h : Walking ls) (hr : ls.qm.combined[ls.reqIndex]? = some r)
    (hW : r ∈ ls.qm.waitingReqIds) (hframe : Frame ls ls')
    (hignore : ls.ignore r = .ok (.goOn ls')) : Walking ls' := by
  have hk := h.known r (List.mem_of_getElem? hr)
  obtain ⟨qm', hqm, hf⟩ := ignore_eq_ok hignore
  cases hf
  refine h.dropped hr hW hframe rfl rfl rfl rfl rfl (fun x hx => Objs.req_modify_ne hx) ?_ (.inl hqm)
  have hself : (ls.modifyReq r fun q => { q with status := .finishedIgnored }).req r =
      { ls.req r with status := .finishedIgnored } := Objs.req_modify_self hk
  show ((ls.modifyReq r fun q => { q with status := .finishedIgnored }).req r).status ≠ .running
  rw [hself]
  exact nofun

omit [KVCacheManager K] [EncoderCache E] in
/-- A waiting candidate is skipped. -/
theorem skip (h : Walking ls) (hr : ls.qm.combined[ls.reqIndex]? = some r)
    (hW : r ∈ ls.qm.waitingReqIds) (hframe : Frame ls ls') (hskip : ls.skip = .ok (.goOn ls')) :
    Walking ls' := by
  obtain ⟨qm', hqm, hf⟩ := skip_eq_ok hskip
  cases hf
  have hR : r ∉ ls.qm.runningReqIds :=
    Finset.disjoint_right.mp h.walk.toParts.running_waiting hW
  exact h.dropped hr hW hframe rfl rfl rfl rfl rfl (fun _ _ => rfl)
    (fun hstatus => hR ((h.status r).mp hstatus)) (.inr hqm)

omit [KVCacheManager K] [EncoderCache E] in
/-- A waiting candidate is skipped, and its blocks are loaded meanwhile. -/
theorem load {c : CachedPrefix} (h : Walking ls) (hr : ls.qm.combined[ls.reqIndex]? = some r)
    (hW : r ∈ ls.qm.waitingReqIds) (hframe : Frame ls ls')
    (hskip : (ls.modifyReq r fun q => { q with
      status := .waitingForRemoteKvs
      numComputedTokens := c.numComputedTokens }).skip = .ok (.goOn ls')) : Walking ls' := by
  have hk := h.known r (List.mem_of_getElem? hr)
  obtain ⟨qm', hqm, hf⟩ := skip_eq_ok hskip
  cases hf
  refine h.dropped hr hW hframe rfl rfl rfl rfl rfl (fun x hx => Objs.req_modify_ne hx) ?_ (.inr hqm)
  have hself : (ls.modifyReq r fun q => { q with
      status := .waitingForRemoteKvs
      numComputedTokens := c.numComputedTokens }).req r = { ls.req r with
        status := .waitingForRemoteKvs
        numComputedTokens := c.numComputedTokens } := Objs.req_modify_self hk
  show ((ls.modifyReq r fun q => { q with
      status := .waitingForRemoteKvs
      numComputedTokens := c.numComputedTokens }).req r).status ≠ .running
  rw [hself]
  exact nofun

/-! ### Allocation loops -/

/-- The rounds of an allocation loop whose preemptions do not overtake the walk. -/
theorem visits (h : Walking ls) (ht : Visits (allocRound q args) ls t)
    (hgood : ∀ t l v kv, Visits (allocRound q args) ls t → Preempts q args t l v kv →
      t.reqIndex ≤ l) :
    Walking t ∧ t.reqIndex = ls.reqIndex ∧ t.tokenBudget = ls.tokenBudget := by
  refine alloc_invariant (I := fun t => Walking t ∧ t.reqIndex = ls.reqIndex ∧
    t.tokenBudget = ls.tokenBudget) ht ⟨h, rfl, rfl⟩ fun u l v kv u' hu hI hpre _ hvictim => ?_
  obtain ⟨hw, hindex, hbudget⟩ := hI.1.preempt hpre (hgood u l v kv hu hpre) hvictim
  exact ⟨hw, hindex.trans hI.2.1, hbudget.trans hI.2.2⟩

/-- An allocation loop whose preemptions do not overtake the walk. -/
theorem allocLoop {res : Option KVCacheBlocks} (h : Walking ls)
    (hloop : ls.allocLoop q args = .ok (res, ls'))
    (hgood : ∀ t l v kv, Visits (allocRound q args) ls t → Preempts q args t l v kv →
      t.reqIndex ≤ l) :
    Walking ls' ∧ ls'.reqIndex = ls.reqIndex ∧ ls'.tokenBudget = ls.tokenBudget := by
  obtain ⟨t, ht, hexit⟩ := allocLoop_outcome hloop
  obtain ⟨hw, hindex, hbudget⟩ := h.visits ht hgood
  cases hexit with
  | found => exact ⟨hw.caches _ t.sch.enc, hindex, hbudget⟩
  | noneRunning => exact ⟨hw.caches _ t.sch.enc, hindex, hbudget⟩
  | kept => exact ⟨hw.caches _ t.sch.enc, hindex, hbudget⟩
  | itself hpre hvictim =>
    obtain ⟨hw', hindex', hbudget'⟩ := hw.preempt hpre (hgood t _ _ _ ht hpre) hvictim
    exact ⟨hw', hindex'.trans hindex, hbudget'.trans hbudget⟩

omit [KVCacheManager K] [EncoderCache E] in
/-- A running request that keeps its place stands before the candidate. -/
theorem keepsPlace_lt (h : Walking t) (hq : t.qm.combined[t.reqIndex]? = some q)
    (hv : t.qm.combined[l]? = some v) (hkeep : keepsPlace (t.req v) (t.req q) = true) :
    l < t.reqIndex := by
  have hlt : (t.req v).priority < (t.req q).priority := by
    unfold keepsPlace at hkeep
    simp only [Bool.and_eq_true, decide_eq_true_eq] at hkeep
    exact hkeep.2
  by_contra hle
  obtain ⟨hi, rfl⟩ := List.getElem?_eq_some_iff.mp hq
  obtain ⟨hl, rfl⟩ := List.getElem?_eq_some_iff.mp hv
  rcases (not_lt.mp hle).eq_or_lt with heq | hilt
  · simp only [heq, lt_self_iff_false] at hlt
  · exact absurd (List.pairwise_iff_getElem.mp h.sorted _ _ hi hl hilt) (not_le.mpr hlt)

/-- An allocation loop that finds no blocks for the request at the walk leaves nothing running
behind the walk. -/
theorem ahead_of_noBlocks (h : Walking ls) (hq : ls.qm.combined[ls.reqIndex]? = some q)
    (hloop : ls.allocLoop q args = .ok (none, ls'))
    (hgood : ∀ t l v kv, Visits (allocRound q args) ls t → Preempts q args t l v kv →
      t.reqIndex ≤ l) : Ahead ls' := by
  obtain ⟨t, ht, hexit⟩ := allocLoop_outcome hloop
  obtain ⟨hw, hindex, -⟩ := h.visits ht hgood
  have hqt : t.qm.combined[t.reqIndex]? = some q := by
    rw [hindex, (visits_sameWaiting ht).combined]
    exact hq
  cases hexit with
  | noneRunning _ hnone =>
    intro k hk
    simp [hw.walk.last.none_running hnone k] at hk
  | @kept _ l _ _ hl hv hkeep =>
    have hlt := hw.keepsPlace_lt hqt hv hkeep
    intro k hk
    rcases hw.walk.last with hlast | ⟨-, hall⟩
    · rw [hl] at hlast
      exact (hlast.2 k hk).trans_lt hlt
    · exact hall k hk
  | itself hpre hvictim =>
    have hl := hgood t _ _ _ ht hpre
    obtain ⟨hw', hindex', -⟩ := hw.preempt hpre hl hvictim
    obtain ⟨qm', u, rfl⟩ := hw.preempt_eq hpre hl hvictim
    intro k hk
    refine hw'.walk.order t.reqIndex k ?_ hk
    refine (QueueManager.standsIn_of_getElem? (u.combined ▸ hqt)).mpr ?_
    show q ∈ qm'.preemptedReqIds
    rw [u.preempted]
    exact Finset.mem_insert_self _ _

end Walking

/-! ### Rounds -/

/-- The conditions of the walk: no request is preempted that the walk has gone past, and none is
passed over but a running one. -/
def Orderly : Event K E → Prop
  | .preempt ls _ l _ => ls.reqIndex ≤ l
  | .pass ls r => r ∈ ls.qm.runningReqIds
  | _ => True

/-- Besides, the walk ends at a waiting candidate only with nothing running behind it. -/
def Bounded : Event K E → Prop
  | .block ls _ => Ahead ls
  | e => Orderly e

omit [KVCacheManager K] [EncoderCache E] in
/-- A bounded event is orderly. -/
theorem Bounded.orderly {e : Event K E} (h : Bounded e) : Orderly e := by
  cases e with
  | block => trivial
  | _ => exact h

variable {good : Event K E → Prop}

/-- Every orderly round keeps the invariant of the walk. -/
theorem Walking.round {p : Pass (LoopState K E) (LoopState K E)} (h : Walking ls)
    (hround : RoundOutcome cfg env ls p) (hgood : ∀ e, RoundEvent cfg env ls e → Orderly e) :
    Walking p.state := by
  cases hround with
  | exhausted | spent | preempted | stuck => exact h
  | passed hr hbudget hpre hpass => exact h.advance hr (hgood _ (.pass hr hbudget hpre hpass))
  | running htreats hR houtcome =>
    cases houtcome with
    | noTokens => exact (h.setEnc _).advance htreats.stands hR
    | noBlocks hgrant hpos halloc =>
      exact ((h.setEnc _).allocLoop halloc fun t l v kv ht hpre =>
        hgood _ (.preemptForRunning htreats hR hgrant hpos ht hpre)).1
    | scheduled hgrant hpos halloc hsched =>
      have hle := runningGrant_le hgrant htreats.budget
      obtain ⟨hw, hindex, hbudget⟩ := (h.setEnc _).allocLoop halloc
        fun t l v kv ht hpre => hgood _ (.preemptForRunning htreats hR hgrant hpos ht hpre)
      refine hw.schedule ?_ (allocLoop_running halloc hR) ?_ hsched
      · rw [hindex, (allocLoop_sameWaiting halloc).combined]
        exact htreats.stands
      · rw [hbudget]
        exact hle
  | waiting htreats hR hW houtcome =>
    have hframe : ∀ {t t'}, Move cfg (fun _ : Event K E => True) t t' → Frame t t' := Move.frame
    have hmem : ∀ {r}, ls.Treats r → r ∈ ls.qm.combined := fun h => List.mem_of_getElem? h.stands
    cases houtcome with
    | ignoredPrompt hsize hignore =>
      obtain ⟨qm', -, rfl⟩ := ignore_eq_ok hignore
      exact h.ignore htreats.stands hW (hframe (.ignore trivial (hmem htreats) hR hignore)) hignore
    | skipped _ hskip =>
      obtain ⟨qm', -, rfl⟩ := skip_eq_ok hskip
      exact h.skip htreats.stands hW (hframe (.skip hskip)) hskip
    | ignoredEncoderInputs hc hg hignore =>
      obtain ⟨qm', -, rfl⟩ := ignore_eq_ok hignore
      exact h.ignore htreats.stands hW (hframe (.ignore trivial (hmem htreats) hR hignore)) hignore
    | blocked => exact h.setEnc _
    | noBlocks hc hg halloc =>
      have hw := ((h.setEnc _).allocLoop halloc fun t l v kv ht hpre =>
        hgood _ (.preemptForWaiting htreats hR hW hc hg ht hpre)).1
      dsimp only [Flow.toPass, Pass.state]
      split
      · exact hw.caches _ _
      · exact hw
    | loading hc hg halloc hload hskip =>
      obtain ⟨qm', -, rfl⟩ := skip_eq_ok hskip
      have hsame := allocLoop_sameWaiting halloc
      obtain ⟨hw, hindex, -⟩ := (h.setEnc _).allocLoop halloc
        fun t l v kv ht hpre => hgood _ (.preemptForWaiting htreats hR hW hc hg ht hpre)
      refine hw.load ?_ (hsame.waiting ▸ hW) (hframe (.load ?_ (fun hr => hR (hsame.running hr))
        hskip)) hskip
      · rw [hindex, hsame.combined]
        exact htreats.stands
      · rw [hsame.combined]
        exact hmem htreats
    | admitted hc hg halloc hload hadmitted =>
      have hsame := allocLoop_sameWaiting halloc
      have hle := waitingGrant_le hg htreats.budget
      obtain ⟨hw, hindex, hbudget⟩ := (h.setEnc _).allocLoop halloc
        fun t l v kv ht hpre => hgood _ (.preemptForWaiting htreats hR hW hc hg ht hpre)
      refine hw.admitWaiting ?_ (hsame.waiting ▸ hW) ?_ hadmitted
      · rw [hindex, hsame.combined]
        exact htreats.stands
      · rw [hbudget]
        exact hle

/-- A bounded round that ends the walk leaves nothing running behind it, unless the budget is
spent. -/
theorem Walking.exit (h : Walking ls) (hround : RoundOutcome cfg env ls (.done ls'))
    (hgood : ∀ e, RoundEvent cfg env ls e → Bounded e) :
    Ahead ls' ∨ ls'.tokenBudget = 0 ∧ ls'.reqIndex < ls'.qm.combined.length := by
  generalize hp : Pass.done ls' = p at hround
  cases hround with
  | exhausted hnone =>
    cases hp
    exact .inl fun k hk => (QueueManager.lt_length_of_standsIn hk).trans_le
      (List.getElem?_eq_none_iff.mp hnone)
  | spent hr hbudget =>
    cases hp
    exact .inr ⟨le_antisymm hbudget h.budget, (List.getElem?_eq_some_iff.mp hr).1⟩
  | preempted hr hpre =>
    cases hp
    refine .inl fun k hk => h.walk.order ls.reqIndex k ?_ hk
    exact (QueueManager.standsIn_of_getElem? hr).mpr (h.preempted _ hpre)
  | passed => cases hp
  | stuck => cases hp
  | running htreats hR houtcome =>
    cases houtcome with
    | noTokens => cases hp
    | scheduled => cases hp
    | @noBlocks enc _ _ hgrant hpos halloc =>
      cases hp
      exact .inl ((h.setEnc enc).ahead_of_noBlocks htreats.stands halloc
        fun t l v kv ht hpre => (hgood _ (.preemptForRunning htreats hR hgrant hpos ht hpre)))
  | waiting htreats hR hW houtcome =>
    cases houtcome with
    | ignoredPrompt hsize hignore =>
      obtain ⟨qm', -, rfl⟩ := ignore_eq_ok hignore
      cases hp
    | skipped _ hskip =>
      obtain ⟨qm', -, rfl⟩ := skip_eq_ok hskip
      cases hp
    | ignoredEncoderInputs hc hg hignore =>
      obtain ⟨qm', -, rfl⟩ := ignore_eq_ok hignore
      cases hp
    | loading hc hg halloc hload hskip =>
      obtain ⟨qm', -, rfl⟩ := skip_eq_ok hskip
      cases hp
    | admitted => cases hp
    | blocked hc hg =>
      cases hp
      exact .inl (hgood _ (.block htreats hR hW hc hg))
    | @noBlocks _ enc _ _ hc hg halloc =>
      have hahead := (h.setEnc enc).ahead_of_noBlocks htreats.stands halloc
        fun t l v kv ht hpre => (hgood _ (.preemptForWaiting htreats hR hW hc hg ht hpre))
      cases hp
      split
      · exact .inl hahead
      · exact .inl hahead

end LoopState

end RpsServe
