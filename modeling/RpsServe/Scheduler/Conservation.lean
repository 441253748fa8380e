import RpsServe.Scheduler.Answer
import RpsServe.Scheduler.Frame
import RpsServe.Scheduler.Run
import RpsServe.KVCache.FullAttention
import RpsServe.EncoderCacheManager

/-!
# Conservation of requests

Every live request of `self.requests` stands in exactly one place of the running list and
the two waiting queues. Every step keeps this, whatever the step does. Two operations
break it: resetting the cache with requests running, which preempts them and puts them into
no queue, and an answer that stops a session request which is not in the queue that its
status suggests.
-/

namespace RpsServe

namespace Scheduler

variable {K E : Type}

/-- The requests that the scheduler holds in its queues. -/
def queued (s : Scheduler K E) : List ReqId :=
  s.running ++ s.waiting.items ++ s.skippedWaiting.items

/-- Every live request is queued exactly once. -/
def Conserved (s : Scheduler K E) : Prop :=
  ∀ r ∈ s.requests, (s.req r).isFinished = false → s.queued.count r = 1

/-- The queues hold distinct known requests, among them every live one. -/
structure Tracked (s : Scheduler K E) : Prop where
  nodup : s.queued.Nodup
  live : ∀ r ∈ s.requests, (s.req r).isFinished = false → r ∈ s.queued
  queued_known : ∀ r ∈ s.queued, r ∈ s.objs.keys
  requests_known : ∀ r ∈ s.requests, r ∈ s.objs.keys

variable {s s' : Scheduler K E} {r : ReqId}

/-- Where the requests are tracked, each live one is queued once. -/
theorem Tracked.conserved (h : Tracked s) : Conserved s := fun r hr hlive =>
  List.count_eq_one_of_mem h.nodup (h.live r hr hlive)

/-- A request is queued when it is in one of the three queues. -/
theorem mem_queued :
    r ∈ s.queued ↔ r ∈ s.running ∨ r ∈ s.waiting.items ∨ r ∈ s.skippedWaiting.items := by
  simp [queued]

/-- Live requests that stay queued, with no others queued, stay tracked. -/
theorem Tracked.of_subperm (h : Tracked s) (hq : s'.queued.Subperm s.queued)
    (hkeys : s'.objs.keys = s.objs.keys) (hreq : ∀ r ∈ s'.requests, r ∈ s.requests)
    (hlive : ∀ r ∈ s'.requests, (s'.req r).isFinished = false → r ∈ s'.queued) : Tracked s' where
  nodup := by
    obtain ⟨l, hperm, hsub⟩ := hq
    exact hperm.nodup_iff.mp (h.nodup.sublist hsub)
  live := hlive
  queued_known r hr := hkeys ▸ h.queued_known r (hq.subset hr)
  requests_known r hr := hkeys ▸ h.requests_known r (hreq r hr)

/-- A change of the objects that keeps who is finished. -/
theorem Tracked.of_objs (h : Tracked s) (hq : s'.queued = s.queued)
    (hkeys : s'.objs.keys = s.objs.keys) (hreq : ∀ r ∈ s'.requests, r ∈ s.requests)
    (hfin : ∀ r ∈ s'.requests, (s'.req r).isFinished = false → (s.req r).isFinished = false) :
    Tracked s' :=
  h.of_subperm (hq ▸ List.Subperm.refl _) hkeys hreq fun r hr hlive =>
    hq ▸ h.live r (hreq r hr) (hfin r hr hlive)

/-- At the start the requests are tracked. -/
theorem init_tracked (cfg : Config) (kv : K) (enc : E) : Tracked (Scheduler.init cfg kv enc) where
  nodup := List.nodup_nil
  live := by simp [init]
  queued_known := by simp [init, queued]
  requests_known := by simp [init]

/-! ### Finishing requests -/

/-- Taking requests out of the queues. -/
theorem dequeue_subperm (s : Scheduler K E) (valid : List ReqId) :
    (s.dequeue valid).queued.Subperm s.queued :=
  ((removeAll_sublist _ _).subperm.append
    (dequeue_waiting_perm.subperm.trans List.filter_sublist.subperm)).append
      (dequeue_skippedWaiting_perm.subperm.trans List.filter_sublist.subperm)

/-- What is not taken out stays queued. -/
theorem mem_queued_dequeue {valid : List ReqId} (hnodup : s.running.Nodup) (hr : r ∉ valid)
    (h : r ∈ s.queued) : r ∈ (s.dequeue valid).queued := by
  have hrun : (s.dequeue valid).running = s.running.filter fun x =>
      x ∉ (valid.filter fun x => (s.req x).status = RequestStatus.running).toFinset :=
    removeAll_eq_filter hnodup _
  rw [mem_queued] at h ⊢
  rw [hrun, dequeue_waiting_perm.mem_iff, dequeue_skippedWaiting_perm.mem_iff]
  simpa [hr] using h

variable [KVCacheManager K] [EncoderCache E] {cfg : Config} {delayFree : ReqId → Bool}

/-- Ending requests keeps the others tracked. -/
theorem finishRequests_tracked {ids : Option (List ReqId)} {status : RequestStatus}
    (h : Tracked s) (hfinish : s.finishRequests cfg delayFree ids status = .ok s') :
    Tracked s' := by
  have hended := finishRequests_ended hfinish
  have hqueued : s'.queued = (s.dequeue (s.validRequests ids)).queued := by
    rw [queued, hended.running, hended.waiting, hended.skippedWaiting, queued]
  have hrunning : s.running.Nodup :=
    h.nodup.sublist ((List.sublist_append_left _ _).trans (List.sublist_append_left _ _))
  refine h.of_subperm (hqueued ▸ dequeue_subperm s _) hended.keys
    (fun r hr => hended.requests.subset hr) fun r hr hlive => ?_
  have hreq : r ∈ s.requests := hended.requests.subset hr
  have hvalid : r ∉ s.validRequests ids := fun hmem => by
    rw [hended.finished r hmem (h.requests_known r hreq)] at hlive
    cases hlive
  rw [hqueued]
  refine mem_queued_dequeue hrunning hvalid (h.live r hreq ?_)
  rw [hended.others r hvalid] at hlive
  exact hlive

/-! ### Entering and resetting requests -/

/-- Adding a request keeps the requests tracked. -/
theorem addRequest_tracked {request : Request} (h : Tracked s)
    (hnew : request.requestId ∈ s.requests ∨ request.requestId ∉ s.objs.keys)
    (hadd : s.addRequest cfg delayFree request = .ok s') : Tracked s' := by
  cases addRequest_outcome hadd with
  | @chunkQueued queue hmem hs' =>
    subst hs'
    exact h.of_objs rfl (keys_modifyReq _ _ _) (fun r hr => hr) fun r _ hlive =>
      (modifyReq_keeps s _ (fun q => { q with streamingQueue := some queue }) Request.isFinished
        (fun _ => rfl) r).symm.trans hlive
  | chunkTaken hmem hstatus hnext =>
    have hnext := hnext (h.requests_known _ hmem)
    obtain ⟨objs, hs'⟩ := hnext.same
    refine h.of_objs (by rw [hs']; rfl) hnext.keys (fun r hr => by rwa [hs'] at hr)
      fun r _ hlive => ?_
    by_cases hr : r = request.requestId
    · rw [hr, Request.isFinished, hstatus]
      rfl
    · rwa [hnext.others r hr] at hlive
  | sessionEnded _ hfinish => exact finishRequests_tracked h hfinish
  | admitted hmem _ _ _ _ hadmitted =>
    have hfresh : request.requestId ∉ s.objs.keys := hnew.resolve_left hmem
    have hperm : s'.queued.Perm (request.requestId :: s.queued) := by
      rw [List.perm_iff_count]
      intro a
      rcases hadmitted.entered with ⟨hw, hs⟩ | ⟨hw, hs⟩
      · have := hw.count_eq a
        simp only [queued, hadmitted.running, hs, List.count_append, List.count_cons,
          List.count_nil] at this ⊢
        omega
      · have := hs.count_eq a
        simp only [queued, hadmitted.running, hw, List.count_append, List.count_cons,
          List.count_nil] at this ⊢
        omega
    have hold : ∀ r ∈ s.objs.keys, s'.req r = s.req r := fun r hr =>
      hadmitted.others fun hEq => hfresh (hEq ▸ hr)
    refine ⟨hperm.nodup_iff.mpr (List.nodup_cons.mpr
      ⟨fun hq => hfresh (h.queued_known _ hq), h.nodup⟩), fun r hr hlive => ?_, fun r hr => ?_,
      fun r hr => ?_⟩
    · rw [hperm.mem_iff, List.mem_cons]
      rw [hadmitted.requests, List.mem_append, List.mem_singleton] at hr
      rcases hr with hr | rfl
      · exact .inr (h.live r hr (hold r (h.requests_known r hr) ▸ hlive))
      · exact .inl rfl
    · rw [hperm.mem_iff, List.mem_cons] at hr
      rw [hadmitted.objs, Dict.mem_keys_set]
      exact hr.imp_right (h.queued_known r)
    · rw [hadmitted.requests, List.mem_append, List.mem_singleton] at hr
      rw [hadmitted.objs, Dict.mem_keys_set]
      exact hr.symm.imp_right (h.requests_known r)

/-- Resetting the prefix cache keeps the requests tracked when nothing runs. -/
theorem resetPrefixCache_tracked {reset ok : Bool} (h : Tracked s)
    (hidle : reset = true → s.running = [])
    (hreset : s.resetPrefixCache reset = .ok (ok, s')) : Tracked s' := by
  cases resetPrefixCache_outcome hreset with
  | kept _ hs' =>
    subst hs'
    exact h.of_objs rfl rfl (fun r hr => hr) fun r _ hlive => hlive
  | preempted hb hall =>
    obtain ⟨objs, kv, enc, hsame⟩ := hall.same
    have hnone := hidle hb
    refine h.of_objs (by simp [hsame, queued, hnone]) hall.keys (fun r hr => by rwa [hsame] at hr)
      fun r _ hlive => ?_
    rwa [hall.others r (by simp [hnone])] at hlive

omit [KVCacheManager K] [EncoderCache E] in
/-- Drafts keep the requests tracked. -/
theorem updateDraftTokenIds_tracked {validateTokens : ReqId → List Token → List Token}
    {drafts : List (ReqId × List Token)} (h : Tracked s) :
    Tracked (s.updateDraftTokenIds validateTokens drafts) := by
  obtain ⟨⟨objs, hsame⟩, hkeys, hreq⟩ := updateDraftTokenIds_same validateTokens s drafts
  refine h.of_objs (by rw [hsame]; rfl) hkeys (fun r hr => by rwa [hsame] at hr)
    fun r _ hlive => ?_
  obtain ⟨spec, hspec⟩ := hreq r
  rwa [hspec] at hlive

/-- A step keeps track of every request, whatever it does. -/
theorem schedule_tracked {env : StepEnv} {out : SchedulerOutput} (h : Tracked s)
    (hschedule : s.schedule cfg env = .ok (out, s')) : Tracked s' := by
  have hnodup : (s.running ++ s.waiting.items).Nodup := h.nodup.sublist (List.sublist_append_left _ _)
  have hframe := schedule_frame hnodup hschedule
  have hperm : s'.queued.Perm s.queued := by
    rw [queued, queued, hframe.skippedWaiting]
    exact hframe.queued.append_right _
  refine h.of_subperm hperm.subperm hframe.keys (fun r hr => hframe.requests.mem_iff.mp hr)
    fun r hr hlive => ?_
  rw [hperm.mem_iff]
  by_cases hq : r ∈ s.running ++ s.waiting.items
  · exact List.mem_append_left _ hq
  · refine h.live r (hframe.requests.mem_iff.mp hr) ?_
    rw [Request.isFinished, hframe.status r hq] at hlive
    exact hlive

/-! ### Answering a step -/

/-- Whether a session request that stops, and had the status `before`, is where the removal after
the loop expects it. A request that was running has to be in the running list. One that was not
is removed from the waiting queue; there it has to be if it now waits for its next chunk, and
must not be if it was just put there to go on. -/
def SessionKept (s : Scheduler K E) (r : ReqId) (before : RequestStatus) : Prop :=
  (s.req r).resumable = true →
    match (s.req r).streamingQueue.getD [] with
    | [] => if before = .running then r ∈ s.running else r ∈ s.waiting.items
    | none :: _ => True
    | some _ :: _ => if before = .running then r ∈ s.running else r ∉ s.waiting.items

/-- Every session request that the answer stops is where its removal expects it. -/
def AnswerKept (cfg : Config) (out : SchedulerOutput) (mro : ModelRunnerOutput)
    (s : Scheduler K E) : Prop :=
  ∀ failed s₁ us e before sch,
    s.reportedInvalidBlocks cfg out (mro.kvConnectorOutput.getD {}) = .ok (failed, s₁) →
    FoldVisits (processOutput cfg out mro failed) out.numScheduledTokens.entries { sch := s₁ } e us →
    answerRequest cfg out mro e.1 us.sch = .ok (before, true, sch) → SessionKept sch e.1 before

/-- The queues during the loop, without the requests that stopped so far. -/
def settled (us : UpdateState K E) : List ReqId :=
  us.sch.running.filter (fun r => r ∉ us.stoppedRunningReqs) ++
    us.sch.waiting.items.filter (fun r => r ∉ us.stoppedPreemptedReqs) ++
    us.sch.skippedWaiting.items

/-- The requests are tracked during the loop, which has treated the requests `done`. -/
structure TrackedIn (done : List ReqId) (us : UpdateState K E) : Prop where
  once : ∀ r, (settled us).count r ≤ 1
  live : ∀ r ∈ us.sch.requests, (us.sch.req r).isFinished = false → (settled us).count r = 1
  queued_known : ∀ r ∈ us.sch.queued, r ∈ us.sch.objs.keys
  requests_known : ∀ r ∈ us.sch.requests, r ∈ us.sch.objs.keys
  running : us.sch.running.Nodup
  stoppedRunning : ∀ r ∈ us.stoppedRunningReqs, r ∈ done
  stoppedPreempted : ∀ r ∈ us.stoppedPreemptedReqs, r ∈ done

omit [KVCacheManager K] [EncoderCache E] in
/-- A settled request is in a queue from which it is not to be removed. -/
theorem mem_settled {us : UpdateState K E} : r ∈ settled us ↔
    r ∈ us.sch.running ∧ r ∉ us.stoppedRunningReqs ∨
      r ∈ us.sch.waiting.items ∧ r ∉ us.stoppedPreemptedReqs ∨ r ∈ us.sch.skippedWaiting.items := by
  simp [settled]

omit [KVCacheManager K] [EncoderCache E] in
/-- How often a request is settled. -/
theorem count_settled (us : UpdateState K E) (r : ReqId) : (settled us).count r =
    (if r ∈ us.stoppedRunningReqs then 0 else us.sch.running.count r) +
      (if r ∈ us.stoppedPreemptedReqs then 0 else us.sch.waiting.items.count r) +
      us.sch.skippedWaiting.items.count r := by
  simp only [settled, List.count_append, count_filter_notMem]

variable {out : SchedulerOutput} {mro : ModelRunnerOutput} {done : List ReqId}
  {us us' : UpdateState K E}

omit [KVCacheManager K] [EncoderCache E] in
/-- The part of the loop for one request `r`, seen from the counts. -/
theorem TrackedIn.next (h : TrackedIn done us) (hkeys : us'.sch.objs.keys = us.sch.objs.keys)
    (hreq : ∀ x ∈ us'.sch.requests, x ∈ us.sch.requests)
    (hrun : us'.sch.running = us.sch.running)
    (hqueued : ∀ x ∈ us'.sch.queued, x ∈ us.sch.queued ∨ x ∈ us.sch.requests)
    (hothers : ∀ x, x ≠ r → us'.sch.req x = us.sch.req x)
    (hstoppedRunning : ∀ x ∈ us'.stoppedRunningReqs, x ∈ us.stoppedRunningReqs ∨ x = r)
    (hstoppedPreempted : ∀ x ∈ us'.stoppedPreemptedReqs, x ∈ us.stoppedPreemptedReqs ∨ x = r)
    (hcount : ∀ x, x ≠ r → (settled us').count x = (settled us).count x)
    (honce : (settled us').count r ≤ 1)
    (hlive : r ∈ us'.sch.requests → (us'.sch.req r).isFinished = false →
      (settled us').count r = 1) : TrackedIn (done ++ [r]) us' where
  once x := by
    by_cases hx : x = r
    · exact hx ▸ honce
    · exact hcount x hx ▸ h.once x
  live x hxr hxl := by
    by_cases hx : x = r
    · subst hx
      exact hlive hxr hxl
    · rw [hcount x hx]
      exact h.live x (hreq x hxr) (hothers x hx ▸ hxl)
  queued_known x hx := by
    rw [hkeys]
    exact (hqueued x hx).elim (h.queued_known x) (h.requests_known x)
  requests_known x hx := hkeys ▸ h.requests_known x (hreq x hx)
  running := hrun ▸ h.running
  stoppedRunning x hx := by
    rw [List.mem_append, List.mem_singleton]
    exact (hstoppedRunning x hx).imp_left (h.stoppedRunning x)
  stoppedPreempted x hx := by
    rw [List.mem_append, List.mem_singleton]
    exact (hstoppedPreempted x hx).imp_left (h.stoppedPreempted x)

omit [KVCacheManager K] [EncoderCache E] in
/-- A request that stops and has finished is in no queue any more, and is not live. -/
theorem TrackedIn.ended {before : RequestStatus} {sch : Scheduler K E} {stopped : Bool}
    (h : TrackedIn done us) (hmem : r ∈ us.sch.requests) (hans : Answered r stopped us.sch sch)
    (hnoted : Noted r before us us') (hended : Ended cfg [r] sch us'.sch) :
    TrackedIn (done ++ [r]) us' := by
  have hk := h.requests_known _ hmem
  obtain ⟨objs, kv, enc, hsame⟩ := hans.same
  have hkeys := hended.keys.trans hans.keys
  have hrun : us'.sch.running = us.sch.running := by rw [hended.running, hsame]
  have hwait : us'.sch.waiting = us.sch.waiting := by rw [hended.waiting, hsame]
  have hskip : us'.sch.skippedWaiting = us.sch.skippedWaiting := by
    rw [hended.skippedWaiting, hsame]
  have hfin := hended.finished r (List.mem_singleton_self r) (hans.keys ▸ hk)
  refine h.next hkeys (fun x hx => ?_) hrun (fun x hx => .inl ?_) (fun x hx => ?_)
    (fun x hx => (hnoted.mem_running.mp hx).imp_right And.left)
    (fun x hx => (hnoted.mem_preempted.mp hx).imp_right And.left) (fun x hx => ?_) ?_
    fun _ hlive => ?_
  · have := hended.requests.subset hx
    rwa [hsame] at this
  · simpa only [mem_queued, hrun, hwait, hskip] using hx
  · exact (hended.others x (by simpa using hx)).trans (hans.others x hx)
  · simp [count_settled, hnoted.mem_running, hnoted.mem_preempted, hrun, hwait, hskip, hx]
  · have hle := h.once r
    simp only [count_settled, hnoted.mem_running, hnoted.mem_preempted, hrun, hwait, hskip,
      true_and] at hle ⊢
    split_ifs at hle ⊢ <;> simp_all <;> omega
  · rw [hfin] at hlive
    cases hlive

omit [KVCacheManager K] [EncoderCache E] in
/-- A session request that stops and goes on is in one queue again, if it was kept. -/
theorem TrackedIn.goesOn {sch : Scheduler K E} (h : TrackedIn done us) (hnew : r ∉ done)
    (hmem : r ∈ us.sch.requests) (hlive : (us.sch.req r).isFinished = false)
    (hans : Answered r true us.sch sch) (hkept : SessionKept sch r (us.sch.req r).status)
    (hnoted : Noted r (us.sch.req r).status us us') (hres : (sch.req r).resumable = true)
    (hgoes : GoesOn r sch us'.sch) : TrackedIn (done ++ [r]) us' := by
  obtain ⟨objs, kv, enc, hsame⟩ := hans.same
  have hr : r ∉ us.stoppedRunningReqs := fun hr => hnew (h.stoppedRunning r hr)
  have hp : r ∉ us.stoppedPreemptedReqs := fun hp => hnew (h.stoppedPreempted r hp)
  have hrun' : sch.running = us.sch.running := by rw [hsame]
  have hwait' : sch.waiting = us.sch.waiting := by rw [hsame]
  have hskip' : sch.skippedWaiting = us.sch.skippedWaiting := by rw [hsame]
  have hrun : us'.sch.running = us.sch.running := hgoes.running.trans hrun'
  have hold : us.sch.running.count r + us.sch.waiting.items.count r +
      us.sch.skippedWaiting.items.count r = 1 := by
    simpa [count_settled, hr, hp] using h.live r hmem hlive
  have hkept := hkept hres
  rw [hrun', hwait'] at hkept
  obtain ⟨w, k, hwait, hskip, hin⟩ : ∃ w k,
      us'.sch.waiting.items.Perm (us.sch.waiting.items ++ w) ∧
      us'.sch.skippedWaiting.items.Perm (us.sch.skippedWaiting.items ++ k) ∧
      (w = [] ∧ k = [r] ∧ (if (us.sch.req r).status = .running then r ∈ us.sch.running
          else r ∈ us.sch.waiting.items) ∨
        w = [r] ∧ k = [] ∧ (if (us.sch.req r).status = .running then r ∈ us.sch.running
          else r ∉ us.sch.waiting.items)) := by
    cases hgoes.rearmed with
    | waits hqueue hw hk _ _ =>
      rw [hqueue] at hkept
      refine ⟨[], [r], ?_, hskip' ▸ hk, .inl ⟨rfl, rfl, hkept⟩⟩
      rw [hw, hwait', List.append_nil]
    | goesOn hqueue hw hk _ _ =>
      rw [hqueue] at hkept
      refine ⟨[r], [], hwait' ▸ hw, ?_, .inr ⟨rfl, rfl, hkept⟩⟩
      rw [hk, hskip', List.append_nil]
  have hwk : ∀ x ∈ w ++ k, x = r := by
    rcases hin with ⟨rfl, rfl, -⟩ | ⟨rfl, rfl, -⟩ <;> simp
  have hself : (settled us').count r = 1 := by
    rw [count_settled, hrun, hwait.count_eq, hskip.count_eq]
    simp only [hnoted.mem_running, hnoted.mem_preempted, hr, hp, true_and, false_or,
      List.count_append]
    have hpos : ∀ l : List ReqId, r ∈ l ↔ 0 < l.count r := fun l => List.count_pos_iff.symm
    simp only [hpos] at hin
    by_cases hrunning : (us.sch.req r).status = .running
    · simp only [hrunning, if_true, ne_eq, not_true, if_false] at hin ⊢
      rcases hin with ⟨rfl, rfl, hin⟩ | ⟨rfl, rfl, hin⟩ <;> simp <;> omega
    · simp only [hrunning, if_false, ne_eq, not_false_iff, if_true] at hin ⊢
      rcases hin with ⟨rfl, rfl, hin⟩ | ⟨rfl, rfl, hin⟩ <;> simp <;> omega
  refine h.next (hgoes.keys.trans hans.keys) (fun x hx => ?_) hrun (fun x hx => ?_) (fun x hx => ?_)
    (fun x hx => (hnoted.mem_running.mp hx).imp_right And.left)
    (fun x hx => (hnoted.mem_preempted.mp hx).imp_right And.left) (fun x hx => ?_) hself.le
    fun _ _ => hself
  · rw [hgoes.requests, hsame] at hx
    exact hx
  · rw [mem_queued, hrun, hwait.mem_iff, hskip.mem_iff, List.mem_append, List.mem_append] at hx
    rw [mem_queued]
    have hxr : x ∈ w ∨ x ∈ k → x ∈ us.sch.requests := fun hx =>
      hwk x (List.mem_append.mpr hx) ▸ hmem
    tauto
  · exact (hgoes.others x hx).trans (hans.others x hx)
  · have hcount : w.count x = 0 ∧ k.count x = 0 := by
      constructor <;> refine List.count_eq_zero_of_not_mem fun hmem => hx (hwk x ?_) <;> simp [hmem]
    simp [count_settled, hnoted.mem_running, hnoted.mem_preempted, hrun, hwait.count_eq,
      hskip.count_eq, hx, hcount]

/-- The requests stay tracked when the answer for one of them is processed. -/
theorem processOutput_tracked {failed : List ReqId} {e : ReqId × ℤ} (h : TrackedIn done us)
    (hnew : e.1 ∉ done)
    (hkept : ∀ before sch, answerRequest cfg out mro e.1 us.sch = .ok (before, true, sch) →
      SessionKept sch e.1 before)
    (hround : processOutput cfg out mro failed us e = .ok us') :
    TrackedIn (done ++ [e.1]) us' := by
  cases processOutput_outcome hround with
  | passed hus =>
    subst hus
    exact h.next rfl (fun _ hx => hx) rfl (fun _ hx => .inl hx) (fun _ _ => rfl)
      (fun _ hx => .inl hx) (fun _ hx => .inl hx) (fun _ _ => rfl) (h.once _) (h.live _)
  | @answered before sch hmem hlive hanswer hus =>
    obtain ⟨-, hans⟩ := answerRequest_answered (h.requests_known _ hmem) hanswer
    obtain ⟨objs, kv, enc, hsame⟩ := hans.same
    have hsettled : settled us' = settled us := by
      rw [hus, hsame]
      rfl
    subst hus
    refine h.next hans.keys ?_ ?_ ?_ hans.others (fun _ hx => .inl hx) (fun _ hx => .inl hx)
      (fun _ _ => by rw [hsettled]) (hsettled ▸ h.once _) (fun hmem' hlive' => ?_)
    · rw [hsame]
      exact fun _ hx => hx
    · rw [hsame]
    · rw [hsame]
      exact fun _ hx => .inl hx
    · rw [hsettled]
      exact h.live _ hmem hlive
  | @stopped before sch hmem hlive hanswer hstop =>
    have hk := h.requests_known _ hmem
    obtain ⟨rfl, hans⟩ := answerRequest_answered hk hanswer
    obtain ⟨hnoted, hended | ⟨hres, hgoes⟩⟩ :=
      stopRequest_outcome (hans.keys ▸ hk) ((hans.answered hk).finished rfl) hstop
    · exact h.ended hmem hans hnoted hended
    · exact h.goesOn hnew hmem hlive hans (hkept _ _ hanswer) hnoted hres hgoes

omit [KVCacheManager K] [EncoderCache E] in
/-- A tracked state begins the update tracked. -/
theorem Tracked.start (h : Tracked s) : TrackedIn [] { sch := s } where
  once r := List.nodup_iff_count_le_one.mp (by simpa [settled, queued] using h.nodup) r
  live r hr hlive := by simpa [settled, queued] using h.conserved r hr hlive
  queued_known := h.queued_known
  requests_known := h.requests_known
  running := h.nodup.sublist ((List.sublist_append_left _ _).trans (List.sublist_append_left _ _))
  stoppedRunning := by simp
  stoppedPreempted := by simp

omit [KVCacheManager K] [EncoderCache E] in
/-- The removal after the loop leaves what is settled. -/
theorem removeStopped_queued (hrunning : us.sch.running.Nodup) :
    (removeStopped us).queued.Perm (settled us) := by
  rw [queued, removeStopped_running hrunning, settled]
  exact (removeStopped_waiting.append_left _).append_right _

omit [KVCacheManager K] [EncoderCache E] in
/-- At the end of the update the requests are tracked. -/
theorem TrackedIn.finish (h : TrackedIn done us) : Tracked (removeStopped us) := by
  have hperm := removeStopped_queued h.running
  refine ⟨List.nodup_iff_count_le_one.mpr fun r => hperm.count_eq r ▸ h.once r,
    fun r hr hlive => ?_, fun r hr => ?_, h.requests_known⟩
  · exact List.count_pos_iff.mp (by rw [hperm.count_eq, h.live r hr hlive]; exact Nat.one_pos)
  · refine h.queued_known r (mem_queued.mpr ?_)
    rw [hperm.mem_iff, mem_settled] at hr
    exact hr.imp And.left (Or.imp And.left id)

/-- The requests stay tracked when a step is answered and every session request that stops is
kept. -/
theorem updateFromOutput_tracked (h : Tracked s) (hkept : AnswerKept cfg out mro s)
    (hupdate : s.updateFromOutput cfg out mro = .ok s') : Tracked s' := by
  obtain ⟨failed, s₁, us, s₂, hinvalid, hrec, hfold, hfail, htransfer⟩ :=
    updateFromOutput_eq_ok hupdate
  have h₁ : Tracked s₁ := by
    obtain ⟨objs, kv, failedRecving, hsame⟩ := hrec.same
    refine h.of_objs (by rw [hsame]; rfl) hrec.keys (fun r hr => by rwa [hsame] at hr)
      fun r _ hlive => ?_
    obtain ⟨n, hn⟩ := hrec.req r
    rwa [hn] at hlive
  have hloop : TrackedIn (out.numScheduledTokens.entries.map Prod.fst) us := by
    refine foldlM_split (I := fun done us => TrackedIn (done.map Prod.fst) us) hfold h₁.start
      fun done e rest t t' hsplit hdone hI hround => ?_
    have hnodup := out.numScheduledTokens.nodup
    rw [hsplit, List.map_append, List.map_cons] at hnodup
    have hnew : e.1 ∉ done.map Prod.fst := fun hmem =>
      (List.nodup_append'.mp hnodup).2.2 hmem List.mem_cons_self
    rw [List.map_append]
    exact processOutput_tracked hI hnew
      (fun before sch => hkept failed s₁ t e before sch hinvalid ⟨done, rest, hsplit, hdone⟩) hround
  have h₂ : Tracked s₂ := by
    unfold failKvLoads at hfail
    split at hfail
    · cases hfail
      exact hloop.finish
    · split at hfail
      · cases hfail
      · exact finishRequests_tracked hloop.finish hfail
  obtain ⟨requests, finishedRecving, kv, hsame⟩ := htransfer.same
  have hreq : ∀ r, s'.req r = s₂.req r := fun r => by
    rw [hsame]
    rfl
  have hqueued : s'.queued = s₂.queued := by rw [hsame]; rfl
  exact h₂.of_objs hqueued (by rw [hsame]) (fun r hr => htransfer.requests.subset hr)
    fun r _ hlive => hreq r ▸ hlive

end Scheduler

namespace System

open Scheduler

variable {K E : Type} [KVCacheManager K] [EncoderCache E] {cfg : Config}

/-- The operations that keep track of every request: the cache is reset with
`reset_running_requests` only while nothing runs, and an answer that stops a session request finds
it where its removal expects it. -/
def KeepsRequests (cfg : Config) (sys : System K E) : Op → Prop
  | .resetPrefixCache reset => reset = true → sys.sch.running = []
  | .updateFromOutput i mro => ∀ out, sys.inFlight[i]? = some out → AnswerKept cfg out mro sys.sch
  | _ => True

/-- An operation that keeps its requests keeps them tracked. -/
theorem step_tracked {sys sys' : System K E} {op : Op} (h : Tracked sys.sch)
    (hadm : sys.Admissible op) (hok : KeepsRequests cfg sys op)
    (hstep : sys.step cfg op = .ok sys') : Tracked sys'.sch := by
  cases op with
  | addRequest request delayFree =>
    obtain ⟨sch, hadd, hs⟩ := bind_eq_ok.mp hstep
    cases hs
    exact addRequest_tracked h hadm hadd
  | schedule env =>
    obtain ⟨⟨out, sch⟩, hschedule, hs⟩ := bind_eq_ok.mp hstep
    cases hs
    exact schedule_tracked h hschedule
  | updateFromOutput i mro =>
    unfold step at hstep
    dsimp only at hstep
    split at hstep
    · cases hstep
    · rename_i out hout
      obtain ⟨sch, hupdate, hs⟩ := bind_eq_ok.mp hstep
      cases hs
      exact updateFromOutput_tracked h (hok out hout) hupdate
  | finishRequests ids status delayFree =>
    obtain ⟨sch, hfinish, hs⟩ := bind_eq_ok.mp hstep
    cases hs
    exact finishRequests_tracked h hfinish
  | setPauseState pauseState =>
    cases hstep
    exact h.of_objs rfl rfl (fun _ hr => hr) fun _ _ hlive => hlive
  | resetPrefixCache reset =>
    obtain ⟨⟨ok, sch⟩, hreset, hs⟩ := bind_eq_ok.mp hstep
    cases hs
    exact resetPrefixCache_tracked h hok hreset
  | updateDraftTokenIds validateTokens drafts =>
    cases hstep
    exact updateDraftTokenIds_tracked h

/-- In every run that neither resets the cache over running requests nor loses a stopped session,
each live request is queued exactly once in every state reached. -/
theorem conserved_of_run {kv : K} {enc : E} {sys : System K E}
    (h : Run cfg (KeepsRequests cfg) (init cfg kv enc) sys) : Conserved sys.sch :=
  Tracked.conserved <| h.invariant (I := fun sys => Tracked sys.sch) (init_tracked cfg kv enc)
    fun _ _ _ hI hadm hok hstep => step_tracked hI hadm hok hstep

/-- A system for small runs. -/
def conservationCfg : Config where
  maxNumRunningReqs := 2
  maxNumScheduledTokens := 8
  maxModelLen := 32
  blockSize := 4
  numBlocks := 8

/-- A request with a prompt of four tokens. -/
def shortRequest (r : ReqId) : Request :=
  { requestId := r, arrivalTime := r, maxTokens := 4, promptTokenIds := [1, 2, 3, 4],
    numPromptTokens := 4, allTokenIds := [1, 2, 3, 4] }

/-- A request with a prompt of `n` tokens. -/
def promptRequest (r : ReqId) (n : ℕ) : Request :=
  { shortRequest r with
    promptTokenIds := List.range n, numPromptTokens := n, allTokenIds := List.range n }

/-- A request runs and the cache is reset. -/
def resetWhileRunning : List Op :=
  [.addRequest (shortRequest 1) fun _ => false, .schedule {}, .resetPrefixCache true]

instance (s : Scheduler FullAttentionKV EncoderCacheManager) : Decidable (Conserved s) :=
  inferInstanceAs (Decidable (∀ r ∈ s.requests, (s.req r).isFinished = false →
    s.queued.count r = 1))

/-- Resetting the cache over a running request loses it from every queue. -/
theorem reset_loses_running : ∃ sys,
    Run conservationCfg (fun _ _ => True) (decoderOnly conservationCfg false 0) sys ∧
      ¬ Conserved sys.sch :=
  Reaches.exists_run resetWhileRunning (by decide +kernel) (by decide +kernel)

/-- Two requests come and go, with the cache reset in between. -/
def comeAndGo : List Op :=
  [.addRequest (shortRequest 1) fun _ => false, .resetPrefixCache true, .schedule {},
    .addRequest (shortRequest 2) fun _ => false, .schedule {}, .resetPrefixCache false,
    .finishRequests (some [1]) .finishedAborted fun _ => false]

/-- The operations but for answers, with the cache reset only while nothing runs. -/
def ResetsIdle (sys : System K E) : Op → Prop
  | .resetPrefixCache reset => reset = true → sys.sch.running = []
  | .updateFromOutput _ _ => False
  | _ => True

omit [KVCacheManager K] [EncoderCache E] in
instance (sys : System K E) (op : Op) : Decidable (ResetsIdle sys op) :=
  match op with
  | .resetPrefixCache reset => inferInstanceAs (Decidable (reset = true → sys.sch.running = []))
  | .updateFromOutput _ _ => .isFalse id
  | .addRequest _ _ | .schedule _ | .finishRequests _ _ _ | .setPauseState _
  | .updateDraftTokenIds _ _ => .isTrue trivial

/-- An operation that resets an idle system only keeps its requests. -/
theorem ResetsIdle.keepsRequests {sys : System K E} {op : Op} (h : ResetsIdle sys op) :
    KeepsRequests cfg sys op := by
  cases op with
  | resetPrefixCache reset => exact h
  | updateFromOutput => exact h.elim
  | _ => trivial

/-- Of the requests that came and went, the live one is queued once. -/
theorem conserved_of_comeAndGo : ∃ sys,
    Run conservationCfg (KeepsRequests conservationCfg) (decoderOnly conservationCfg false 0) sys ∧
      sys.sch.requests = [2] ∧ Conserved sys.sch := by
  have hlegal : Legal conservationCfg ResetsIdle (decoderOnly conservationCfg false 0) comeAndGo := by
    decide +kernel
  obtain ⟨sys, hrun, hreq⟩ := Reaches.exists_run comeAndGo
    (P := fun sys => sys.sch.requests = [2]) (by decide +kernel)
    (hlegal.mono fun _ _ h => h.keepsRequests)
  exact ⟨sys, hrun, hreq, conserved_of_run hrun⟩

end System

end RpsServe
