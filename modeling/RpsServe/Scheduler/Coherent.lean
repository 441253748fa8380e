import RpsServe.Scheduler.WalkEnd
import RpsServe.Scheduler.Answer
import RpsServe.Scheduler.Run

/-!
# Coherent queues

Between two operations the running list holds exactly the requests with status `RUNNING`,
and no request stands twice in the running list and the waiting queue. An orderly step
keeps this, and every other operation does so without a condition.
-/

namespace RpsServe

namespace Scheduler

variable {K E : Type}

/-- The running list is the list of the requests with status `RUNNING`. -/
structure Coherent (s : Scheduler K E) : Prop where
  nodup : (s.running ++ s.waiting.items).Nodup
  status : ∀ r, (s.req r).status = .running ↔ r ∈ s.running
  queued_known : ∀ r ∈ s.running ++ s.waiting.items, r ∈ s.objs.keys
  requests_known : ∀ r ∈ s.requests, r ∈ s.objs.keys

variable {cfg : Config} {env : StepEnv} {s s' : Scheduler K E} {ls : LoopState K E}

/-- No request runs twice. -/
theorem Coherent.running_nodup (h : Coherent s) : s.running.Nodup :=
  h.nodup.sublist (List.sublist_append_left _ _)

/-- A running request does not wait. -/
theorem Coherent.not_waiting (h : Coherent s) {r : ReqId} (hr : r ∈ s.running) :
    r ∉ s.waiting.items := (List.nodup_append'.mp h.nodup).2.2 hr

/-- At the start the queues are coherent. -/
theorem init_coherent (cfg : Config) (kv : K) (enc : E) :
    Coherent (Scheduler.init cfg kv enc) where
  nodup := List.nodup_nil
  status r := iff_of_false (fun h => nomatch h) List.not_mem_nil
  queued_known := by simp [init]
  requests_known := by simp [init]

variable [KVCacheManager K] [EncoderCache E]

/-! ### A step -/

omit [EncoderCache E] in
/-- The walk begins with its invariant. -/
theorem beginStep_walking (h : Coherent s) (hbegin : beginStep cfg env s = .ok ls) :
    ls.Walking := by
  have hexact := beginStep_exact hbegin h.nodup
  have hcombined := beginStep_combined hbegin
  obtain ⟨objs, requests, hsame, -, -, rfl⟩ := beginStep_eq_ok hbegin
  have hstatus : ∀ r, (objs.req r).status = (s.req r).status := fun r => by
    obtain ⟨p, hp⟩ := hsame.req r
    rw [hp]
    rfl
  have hmem : ∀ r, r ∈ reorderQueue objs.req s.running ↔ r ∈ s.running := fun r =>
    (sortBy_perm _ _).mem_iff
  exact {
    walk := .start hexact <| Finset.eq_empty_of_forall_notMem fun r hr => by
      obtain ⟨hr, hp⟩ := QueueManager.mem_combineQueues_preempted.mp hr
      rw [hstatus r, (h.status r).mpr ((hmem r).mp hr)] at hp
      cases hp
    sorted := QueueManager.mergeQueues_sorted _ _ _
    known := fun r hr => hsame.keys ▸ h.queued_known r (hcombined.mem_iff.mp hr)
    status := fun r => by
      have hrun : (objs.req r).status = .running ↔ r ∈ s.running := by
        rw [hstatus]
        exact h.status r
      refine hrun.trans (Iff.trans ?_ QueueManager.mem_combineQueues_running.symm)
      rw [hmem]
      refine ⟨fun hr => ⟨hr, fun hp => ?_⟩, And.left⟩
      rw [hrun.mpr hr] at hp
      cases hp
    preempted := by simp
    scheduledNodup := List.nodup_nil
    scheduledKeys := by simp [LoopState.scheduledReqs]
    scheduled := by simp [LoopState.scheduledReqs]
    budget := by
      dsimp only
      split <;> omega }

/-- In an orderly step the invariant of the walk holds in every round. -/
theorem Rounds.walking (h : Coherent s) (hgood : StepMeets LoopState.Orderly cfg env s)
    (hrounds : Rounds cfg env s ls) : ls.Walking := by
  obtain ⟨ls₀, hbegin, hvisits⟩ := hrounds
  refine hvisits.invariant (beginStep_walking h hbegin) fun t t' ht hI hround => ?_
  exact hI.round (LoopState.round_outcome hI.walk.toParts.running_waiting hround)
    (hgood t ⟨ls₀, hbegin, ht⟩)

/-- The end of the walk of an orderly step. -/
theorem Walked.walking (h : Coherent s) (hgood : StepMeets LoopState.Orderly cfg env s)
    (hwalked : Walked cfg env s ls) : ls.Walking := by
  obtain ⟨ls₀, ls₁, hbegin, hloop, htail⟩ := hwalked
  obtain ⟨t, ht, hexit⟩ := loop_exit hloop
  have hrounds : Rounds cfg env s t := ⟨ls₀, hbegin, ht⟩
  have hw := hrounds.walking h hgood
  have hw₁ : ls₁.Walking :=
    hw.round (LoopState.round_outcome hw.walk.toParts.running_waiting hexit) (hgood t hrounds)
  exact (hw₁.tailPreempt htail).1

/-- A step keeps the queues coherent if at the end of its walk the running ids are the requests with
the status. -/
theorem coherent_of_walked {out : SchedulerOutput} (h : Coherent s)
    (hschedule : schedule cfg env s = .ok (out, s')) (hwalked : Walked cfg env s ls)
    (hfinish : finishStep cfg ls = .ok (out, s')) (hparts : ls.qm.Parts)
    (hstatus : ∀ r, (ls.req r).status = .running ↔ r ∈ ls.qm.runningReqIds) : Coherent s' := by
  have hframe := schedule_frame h.nodup hschedule
  obtain ⟨ls₀, hbegin, hmoves⟩ := hwalked.moves h.nodup
    (fun _ _ _ _ => trivial : StepMeets (fun _ => True) cfg env s)
  have hfin := finishStep_spec hfinish
  have hrunning := QueueManager.updateQueues_running hfin.queues
    (hmoves.exact fun _ => beginStep_exact hbegin h.nodup)
  exact {
    nodup := hframe.queued.nodup_iff.mpr h.nodup
    status := fun r => by
      rw [hfin.status, hstatus r, hrunning, List.mem_filter, decide_eq_true_eq]
      exact ⟨fun hr => ⟨hparts.running_sub r hr, hr⟩, And.right⟩
    queued_known := fun r hr => by
      rw [hframe.keys]
      exact h.queued_known r (hframe.queued.mem_iff.mp hr)
    requests_known := fun r hr => by
      rw [hframe.keys]
      exact h.requests_known r (hframe.requests.mem_iff.mp hr) }

/-- An orderly step keeps the queues coherent. -/
theorem schedule_coherent {out : SchedulerOutput} (h : Coherent s)
    (hgood : StepMeets LoopState.Orderly cfg env s) (hschedule : schedule cfg env s = .ok (out, s')) :
    Coherent s' := by
  obtain ⟨ls, hwalked, hfinish⟩ := schedule_eq_ok hschedule
  have hw := hwalked.walking h hgood
  exact coherent_of_walked h hschedule hwalked hfinish hw.walk.toParts hw.status

/-! ### The operations between steps -/

variable {delayFree : ReqId → Bool} {r : ReqId}

omit [KVCacheManager K] [EncoderCache E] in
/-- A change of the objects that keeps every status. -/
theorem Coherent.of_objs (h : Coherent s) (hrunning : s'.running = s.running)
    (hwaiting : s'.waiting = s.waiting) (hkeys : s'.objs.keys = s.objs.keys)
    (hrequests : ∀ r ∈ s'.requests, r ∈ s.requests)
    (hstatus : ∀ r, (s'.req r).status = .running ↔ (s.req r).status = .running) :
    Coherent s' where
  nodup := by rw [hrunning, hwaiting]; exact h.nodup
  status r := by rw [hrunning, hstatus]; exact h.status r
  queued_known r hr := by
    rw [hrunning, hwaiting] at hr
    exact hkeys ▸ h.queued_known r hr
  requests_known r hr := hkeys ▸ h.requests_known r (hrequests r hr)

/-- Ending requests keeps the queues coherent. -/
theorem finishRequests_coherent {ids : Option (List ReqId)} {status : RequestStatus}
    (h : Coherent s) (hfinish : s.finishRequests cfg delayFree ids status = .ok s') :
    Coherent s' := by
  have hended := finishRequests_ended hfinish
  set valid := s.validRequests ids with hvalid
  have hrunning : s'.running = s.running.filter fun r =>
      r ∉ (valid.filter fun r => (s.req r).status = RequestStatus.running).toFinset :=
    hended.running.trans (removeAll_eq_filter h.running_nodup _)
  have hwaiting : s'.waiting.items.Subperm s.waiting.items := by
    rw [hended.waiting]
    exact dequeue_waiting_perm.subperm.trans List.filter_sublist.subperm
  have hqueued : (s'.running ++ s'.waiting.items).Subperm (s.running ++ s.waiting.items) :=
    (hrunning ▸ List.filter_sublist.subperm).append hwaiting
  exact {
    nodup := by
      obtain ⟨l, hperm, hsub⟩ := hqueued
      exact hperm.nodup_iff.mp (h.nodup.sublist hsub)
    status := fun r => by
      rw [hrunning, List.mem_filter, ← h.status r]
      by_cases hr : r ∈ valid
      · have hfin := hended.finished r hr (h.requests_known r (mem_validRequests hr).1)
        refine iff_of_false (fun hrun => ?_) fun hrun => ?_
        · rw [Request.isFinished, hrun] at hfin
          cases hfin
        · simp [hr, hrun.1] at hrun
      · rw [hended.others r hr]
        simp [hr, dequeue, req]
    queued_known := fun r hr => hended.keys ▸ h.queued_known r (hqueued.subset hr)
    requests_known := fun r hr => hended.keys ▸ h.requests_known r (hended.requests.subset hr) }

/-- Adding a request keeps the queues coherent. -/
theorem addRequest_coherent {request : Request} (h : Coherent s)
    (hnew : request.requestId ∈ s.requests ∨ request.requestId ∉ s.objs.keys)
    (hadd : s.addRequest cfg delayFree request = .ok s') : Coherent s' := by
  cases addRequest_outcome hadd with
  | @chunkQueued queue hmem hs' =>
    have hstatus := modifyReq_keeps s request.requestId
      (fun q => { q with streamingQueue := some queue }) Request.status fun _ => rfl
    subst hs'
    exact h.of_objs rfl rfl (keys_modifyReq _ _ _) (fun r hr => hr) fun r => by rw [hstatus r]
  | chunkTaken hmem hstatus hnext =>
    have hnext := hnext (h.requests_known _ hmem)
    obtain ⟨objs, hs'⟩ := hnext.same
    refine h.of_objs (by rw [hs']) (by rw [hs']) hnext.keys (fun r hr => by rwa [hs'] at hr)
      fun r => ?_
    by_cases hr : r = request.requestId
    · rw [hr, hnext.status, hstatus]
      exact iff_of_false nofun nofun
    · rw [hnext.others r hr]
  | sessionEnded _ hfinish => exact finishRequests_coherent h hfinish
  | @admitted q hmem _ hidle _ _ hadmitted =>
    have hfresh : request.requestId ∉ s.objs.keys := hnew.resolve_left hmem
    have hunqueued : request.requestId ∉ s.running ++ s.waiting.items := fun hq =>
      hfresh (h.queued_known _ hq)
    have hwaiting : s'.waiting.items.Subperm (s.waiting.items ++ [request.requestId]) := by
      rcases hadmitted.entered with ⟨hw, -⟩ | ⟨hw, -⟩
      · exact hw.subperm
      · rw [hw]
        exact (List.sublist_append_left _ _).subperm
    have hqueued : (s'.running ++ s'.waiting.items).Subperm
        (s.running ++ s.waiting.items ++ [request.requestId]) := by
      rw [hadmitted.running, List.append_assoc]
      exact (List.Subperm.refl _).append hwaiting
    exact {
      nodup := by
        obtain ⟨l, hperm, hsub⟩ := hqueued
        refine hperm.nodup_iff.mp (List.Nodup.sublist hsub ?_)
        exact h.nodup.append (List.nodup_singleton _) (by simpa using hunqueued)
      status := fun r => by
        rw [hadmitted.running]
        by_cases hr : r = request.requestId
        · rw [hr, hadmitted.self]
          exact iff_of_false hidle fun hmem => hunqueued (List.mem_append_left _ hmem)
        · rw [hadmitted.others hr]
          exact h.status r
      queued_known := fun r hr => by
        rw [hadmitted.objs, Dict.mem_keys_set]
        rcases List.mem_append.mp (hqueued.subset hr) with hr | hr
        exacts [.inr (h.queued_known r hr), .inl (List.mem_singleton.mp hr)]
      requests_known := fun r hr => by
        rw [hadmitted.requests, List.mem_append, List.mem_singleton] at hr
        rw [hadmitted.objs, Dict.mem_keys_set]
        exact hr.symm.imp_right (h.requests_known r) }

/-- Resetting the prefix cache keeps the queues coherent. -/
theorem resetPrefixCache_coherent {reset ok : Bool} (h : Coherent s)
    (hreset : s.resetPrefixCache reset = .ok (ok, s')) : Coherent s' := by
  cases resetPrefixCache_outcome hreset with
  | kept _ hs' =>
    subst hs'
    exact h.of_objs rfl rfl rfl (fun r hr => hr) fun r => Iff.rfl
  | preempted _ hall =>
    obtain ⟨objs, kv, enc, hsame⟩ := hall.same
    have hrunning : s'.running = [] := by rw [hsame]
    have hwaiting : s'.waiting = s.waiting := by rw [hsame]
    exact {
      nodup := by
        rw [hrunning, hwaiting]
        exact h.nodup.sublist (List.sublist_append_right _ _)
      status := fun r => by
        rw [hrunning]
        refine iff_of_false (fun hrun => ?_) List.not_mem_nil
        by_cases hr : r ∈ s.running
        · rw [hall.preempted r hr (h.queued_known r (List.mem_append_left _ hr))] at hrun
          cases hrun
        · rw [hall.others r hr] at hrun
          exact hr ((h.status r).mp hrun)
      queued_known := fun r hr => by
        rw [hrunning, hwaiting] at hr
        exact hall.keys ▸ h.queued_known r (List.mem_append_right _ hr)
      requests_known := fun r hr => by
        rw [hall.keys]
        rw [hsame] at hr
        exact h.requests_known r hr }

omit [KVCacheManager K] [EncoderCache E] in
/-- Drafts keep the queues coherent. -/
theorem updateDraftTokenIds_coherent {validateTokens : ReqId → List Token → List Token}
    {drafts : List (ReqId × List Token)} (h : Coherent s) :
    Coherent (s.updateDraftTokenIds validateTokens drafts) := by
  obtain ⟨⟨objs, hsame⟩, hkeys, hreq⟩ := updateDraftTokenIds_same validateTokens s drafts
  refine h.of_objs (by rw [hsame]) (by rw [hsame]) hkeys (fun r hr => by rwa [hsame] at hr)
    fun r => ?_
  obtain ⟨spec, hspec⟩ := hreq r
  rw [hspec]

/-! ### Answering a step -/

/-- The queues are coherent during the loop, which has treated the requests `done`, but for the
requests that stopped so far. -/
structure CoherentIn (done : List ReqId) (us : UpdateState K E) : Prop where
  once : ∀ r, (if r ∈ us.stoppedRunningReqs then 0 else us.sch.running.count r) +
    (if r ∈ us.stoppedPreemptedReqs then 0 else us.sch.waiting.items.count r) ≤ 1
  status : ∀ r, (us.sch.req r).status = .running ↔
    r ∈ us.sch.running ∧ r ∉ us.stoppedRunningReqs
  running : us.sch.running.Nodup
  queued_known : ∀ r ∈ us.sch.running ++ us.sch.waiting.items, r ∈ us.sch.objs.keys
  requests_known : ∀ r ∈ us.sch.requests, r ∈ us.sch.objs.keys
  stoppedRunning : ∀ r ∈ us.stoppedRunningReqs, r ∈ done
  stoppedPreempted : ∀ r ∈ us.stoppedPreemptedReqs, r ∈ done

variable {out : SchedulerOutput} {mro : ModelRunnerOutput} {done : List ReqId}
  {us us' : UpdateState K E}

/-- What stopping the request `r` changes. -/
structure Stops (r : ReqId) (s s' : Scheduler K E) : Prop where
  keys : s'.objs.keys = s.objs.keys
  requests : ∀ x ∈ s'.requests, x ∈ s.requests
  running : s'.running = s.running
  waiting : ∃ w, s'.waiting.items.Perm (s.waiting.items ++ w) ∧ (w = [] ∨ w = [r])
  others : ∀ x, x ≠ r → s'.req x = s.req x
  status : (s'.req r).status ≠ .running

/-- A request that stops ends or goes on waiting. -/
theorem stopRequest_stops {before : RequestStatus} {sch : Scheduler K E} (hmem : r ∈ us.sch.objs.keys)
    (hans : Answered r true us.sch sch)
    (hstop : stopRequest cfg delayFree us r before sch = .ok us') :
    Noted r before us us' ∧ Stops r us.sch us'.sch := by
  obtain ⟨objs, kv, enc, hsame⟩ := hans.same
  have hk : r ∈ sch.objs.keys := hans.keys ▸ hmem
  have hrunning : sch.running = us.sch.running := by rw [hsame]
  have hwaiting : sch.waiting = us.sch.waiting := by rw [hsame]
  have hrequests : sch.requests = us.sch.requests := by rw [hsame]
  obtain ⟨hnoted, hended | ⟨-, hgoes⟩⟩ :=
    stopRequest_outcome hk ((hans.answered hmem).finished rfl) hstop
  · refine ⟨hnoted, hended.keys.trans hans.keys, fun x hx => hrequests ▸ hended.requests.subset hx,
      hended.running.trans hrunning, ⟨[], ?_, .inl rfl⟩, fun x hx => ?_, fun hrun => ?_⟩
    · rw [hended.waiting, hwaiting, List.append_nil]
    · exact (hended.others x (by simpa using hx)).trans (hans.others x hx)
    · have hfin := hended.finished r (List.mem_singleton_self r) hk
      rw [Request.isFinished, hrun] at hfin
      cases hfin
  · refine ⟨hnoted, hgoes.keys.trans hans.keys, fun x hx => ?_, hgoes.running.trans hrunning, ?_,
      fun x hx => (hgoes.others x hx).trans (hans.others x hx), ?_⟩
    · rw [← hrequests, ← hgoes.requests]
      exact hx
    · cases hgoes.rearmed with
      | waits _ hw => exact ⟨[], by rw [hw, hwaiting, List.append_nil], .inl rfl⟩
      | goesOn _ hw => exact ⟨[r], hwaiting ▸ hw, .inr rfl⟩
    · cases hgoes.rearmed with
      | waits _ _ _ hstatus => rw [hstatus]; decide
      | goesOn _ _ _ hstatus => rw [hstatus]; decide

/-- One request of the loop. -/
theorem processOutput_coherent {failed : List ReqId} {e : ReqId × ℤ} (h : CoherentIn done us)
    (hnew : e.1 ∉ done) (hround : processOutput cfg out mro failed us e = .ok us') :
    CoherentIn (done ++ [e.1]) us' := by
  have hdone : ∀ {x}, x ∈ done → x ∈ done ++ [e.1] := fun hx => List.mem_append_left _ hx
  cases processOutput_outcome hround with
  | passed hus =>
    subst hus
    exact { h with
      stoppedRunning := fun x hx => hdone (h.stoppedRunning x hx)
      stoppedPreempted := fun x hx => hdone (h.stoppedPreempted x hx) }
  | answered hmem _ hanswer hus =>
    have hk := h.requests_known _ hmem
    obtain ⟨-, hans⟩ := answerRequest_answered hk hanswer
    have hkeys := hans.keys
    have hstatus : ∀ x, ((_ : Scheduler K E).req x).status = (us.sch.req x).status := fun x => by
      by_cases hx : x = e.1
      · subst hx
        exact (hans.answered hk).status rfl
      · rw [hans.others x hx]
    obtain ⟨objs, kv, enc, hsame⟩ := hans.same
    subst hus
    rw [hsame] at hkeys hstatus ⊢
    exact {
      once := h.once
      status := fun x => by rw [hstatus x]; exact h.status x
      running := h.running
      queued_known := fun x hx => hkeys ▸ h.queued_known x hx
      requests_known := fun x hx => hkeys ▸ h.requests_known x hx
      stoppedRunning := fun x hx => hdone (h.stoppedRunning x hx)
      stoppedPreempted := fun x hx => hdone (h.stoppedPreempted x hx) }
  | stopped hmem _ hanswer hstop =>
    have hk := h.requests_known _ hmem
    obtain ⟨rfl, hans⟩ := answerRequest_answered hk hanswer
    obtain ⟨hnoted, hstops⟩ := stopRequest_stops hk hans hstop
    obtain ⟨w, hw, hwin⟩ := hstops.waiting
    have hwr : ∀ x ∈ w, x = e.1 := by rcases hwin with rfl | rfl <;> simp
    have hwle : ∀ x, w.count x ≤ 1 := fun x =>
      List.nodup_iff_count_le_one.mp (by rcases hwin with rfl | rfl <;> simp) x
    have hr : e.1 ∉ us.stoppedRunningReqs := fun hr => hnew (h.stoppedRunning _ hr)
    have hp : e.1 ∉ us.stoppedPreemptedReqs := fun hp => hnew (h.stoppedPreempted _ hp)
    have hrunning := h.status e.1
    exact {
      once := fun x => by
        have hle := h.once x
        rw [hstops.running, hw.count_eq, List.count_append]
        simp only [hnoted.mem_running, hnoted.mem_preempted]
        by_cases hx : x = e.1
        · subst hx
          have hone : us.sch.running.count e.1 ≤ 1 := List.nodup_iff_count_le_one.mp h.running _
          have hwone : w.count e.1 ≤ 1 := hwle _
          rw [if_neg hr, if_neg hp] at hle
          by_cases hb : (us.sch.req e.1).status = .running
          · have hpos := List.count_pos_iff.mpr (hrunning.mp hb).1
            simp only [hb, hp, true_and, or_true, if_true, ne_eq, not_true, and_false, or_false,
              if_false]
            omega
          · simp only [hb, hr, and_false, or_false, if_false, ne_eq, not_false_iff, and_true,
              or_true, if_true, add_zero]
            exact hone
        · have hzero : w.count x = 0 := List.count_eq_zero_of_not_mem fun hmem => hx (hwr x hmem)
          simpa [hx, hzero] using hle
      status := fun x => by
        rw [hstops.running, hnoted.mem_running]
        by_cases hx : x = e.1
        · subst hx
          refine iff_of_false hstops.status fun hno => hno.2 ?_
          exact .inr ⟨rfl, hrunning.mpr ⟨hno.1, hr⟩⟩
        · rw [hstops.others x hx, h.status x]
          simp [hx]
      running := hstops.running ▸ h.running
      queued_known := fun x hx => by
        rw [hstops.keys]
        rw [hstops.running, List.mem_append, hw.mem_iff, List.mem_append] at hx
        rcases hx with hx | hx | hx
        · exact h.queued_known x (List.mem_append_left _ hx)
        · exact h.queued_known x (List.mem_append_right _ hx)
        · exact hwr x hx ▸ hk
      requests_known := fun x hx => hstops.keys ▸ h.requests_known x (hstops.requests x hx)
      stoppedRunning := fun x hx => by
        rcases hnoted.mem_running.mp hx with hx | ⟨rfl, -⟩
        exacts [hdone (h.stoppedRunning x hx), by simp]
      stoppedPreempted := fun x hx => by
        rcases hnoted.mem_preempted.mp hx with hx | ⟨rfl, -⟩
        exacts [hdone (h.stoppedPreempted x hx), by simp] }

omit [KVCacheManager K] [EncoderCache E] in
/-- Recomputations keep the queues coherent. -/
theorem Coherent.recomputes (h : Coherent s) (hrec : Recomputes s s') : Coherent s' := by
  obtain ⟨objs, kv, failedRecving, hsame⟩ := hrec.same
  refine h.of_objs (by rw [hsame]) (by rw [hsame]) hrec.keys (fun r hr => by rwa [hsame] at hr)
    fun r => ?_
  obtain ⟨n, hn⟩ := hrec.req r
  rw [hn]

omit [KVCacheManager K] [EncoderCache E] in
/-- The loop begins with coherent queues. -/
theorem Coherent.start (h : Coherent s) : CoherentIn [] ({ sch := s } : UpdateState K E) where
  once r := by
    have := List.nodup_iff_count_le_one.mp h.nodup r
    rwa [List.count_append] at this
  status r := by simpa using h.status r
  running := h.running_nodup
  queued_known := h.queued_known
  requests_known := h.requests_known
  stoppedRunning := by simp
  stoppedPreempted := by simp

/-- What holds at its beginning and is kept by the treatment of every entry holds at its end; the
queues are coherent in between. -/
theorem processOutputs_rule {failed : List ReqId} {I : List ReqId → UpdateState K E → Prop}
    (h : Coherent s) (hfold : out.numScheduledTokens.entries.foldlM (processOutput cfg out mro failed)
      { sch := s } = .ok us) (hstart : I [] { sch := s })
    (hround : ∀ done e t t', FoldVisits (processOutput cfg out mro failed)
        out.numScheduledTokens.entries { sch := s } e t → e.1 ∉ done → CoherentIn done t → I done t →
      processOutput cfg out mro failed t e = .ok t' → I (done ++ [e.1]) t') :
    CoherentIn (out.numScheduledTokens.entries.map Prod.fst) us ∧
      I (out.numScheduledTokens.entries.map Prod.fst) us := by
  refine foldlM_split (I := fun done us => CoherentIn (done.map Prod.fst) us ∧
    I (done.map Prod.fst) us) hfold ⟨h.start, hstart⟩ fun done e rest t t' hsplit hdone hI hstep => ?_
  have hnodup := out.numScheduledTokens.nodup
  rw [hsplit, List.map_append, List.map_cons] at hnodup
  have hnew : e.1 ∉ done.map Prod.fst := fun hmem =>
    (List.nodup_append'.mp hnodup).2.2 hmem List.mem_cons_self
  rw [List.map_append]
  exact ⟨processOutput_coherent hI.1 hnew hstep,
    hround _ e t t' ⟨done, rest, hsplit, hdone⟩ hnew hI.1 hI.2 hstep⟩

omit [KVCacheManager K] [EncoderCache E] in
/-- After the removal of the stopped requests the queues are coherent. -/
theorem CoherentIn.finish (h : CoherentIn done us) : Coherent (removeStopped us) := by
  have hrunning := removeStopped_running h.running
  have hwaiting : (removeStopped us).waiting.items.Perm _ := removeStopped_waiting
  exact {
    nodup := by
      rw [((hwaiting.append_left _).nodup_iff), hrunning, List.nodup_iff_count_le_one]
      intro r
      have hle := h.once r
      rw [List.count_append, count_filter_notMem, count_filter_notMem]
      exact hle
    status := fun r => by
      rw [hrunning, List.mem_filter, decide_eq_true_eq]
      exact h.status r
    queued_known := fun r hr => by
      refine h.queued_known r ?_
      rw [hrunning, List.mem_append, hwaiting.mem_iff] at hr
      rw [List.mem_append]
      exact hr.imp (fun hr => (List.mem_filter.mp hr).1) fun hr => (List.mem_filter.mp hr).1
    requests_known := h.requests_known }

/-- Failing requests whose blocks did not load keeps the queues coherent. -/
theorem failKvLoads_coherent {failed : List ReqId} (h : Coherent s)
    (hfail : s.failKvLoads cfg mro failed = .ok s') : Coherent s' := by
  unfold failKvLoads at hfail
  split at hfail
  · cases hfail
    exact h
  · split at hfail
    · cases hfail
    · exact finishRequests_coherent h hfail

/-- Answering a step keeps the queues coherent. -/
theorem updateFromOutput_coherent (h : Coherent s)
    (hupdate : s.updateFromOutput cfg out mro = .ok s') : Coherent s' := by
  obtain ⟨failed, s₁, us, s₂, -, hrec, hfold, hfail, htransfer⟩ := updateFromOutput_eq_ok hupdate
  obtain ⟨hloop, -⟩ := processOutputs_rule (I := fun _ _ => True) (h.recomputes hrec) hfold trivial
    fun _ _ _ _ _ _ _ _ _ => trivial
  have h₂ := failKvLoads_coherent hloop.finish hfail
  obtain ⟨requests, finishedRecving, kv, hsame⟩ := htransfer.same
  have hreq : ∀ r, s'.req r = s₂.req r := fun r => by
    rw [hsame]
    rfl
  exact h₂.of_objs (by rw [hsame]) (by rw [hsame]) (by rw [hsame])
    (fun r hr => htransfer.requests.subset hr) fun r => by rw [hreq r]

end Scheduler

namespace System

open Scheduler

variable {K E : Type} [KVCacheManager K] [EncoderCache E] {cfg : Config} {sys sys' : System K E}

/-- The operations that keep the queues coherent: every step is orderly. -/
def KeepsOrder (cfg : Config) (sys : System K E) : Op → Prop
  | .schedule env => StepMeets LoopState.Orderly cfg env sys.sch
  | _ => True

/-- Every operation keeps the queues coherent if a step does. -/
theorem step_coherent_of_schedule {op : Op} (h : Coherent sys.sch) (hadm : sys.Admissible op)
    (hschedule : ∀ env, op = .schedule env → ∀ out s',
      Scheduler.schedule cfg env sys.sch = .ok (out, s') → Coherent s')
    (hstep : sys.step cfg op = .ok sys') : Coherent sys'.sch := by
  cases op with
  | addRequest request delayFree =>
    obtain ⟨sch, hadd, hs⟩ := bind_eq_ok.mp hstep
    cases hs
    exact addRequest_coherent h hadm hadd
  | schedule env =>
    obtain ⟨⟨out, sch⟩, hok, hs⟩ := bind_eq_ok.mp hstep
    cases hs
    exact hschedule env rfl out sch hok
  | updateFromOutput i mro =>
    unfold step at hstep
    dsimp only at hstep
    split at hstep
    · cases hstep
    · obtain ⟨sch, hupdate, hs⟩ := bind_eq_ok.mp hstep
      cases hs
      exact updateFromOutput_coherent h hupdate
  | finishRequests ids status delayFree =>
    obtain ⟨sch, hfinish, hs⟩ := bind_eq_ok.mp hstep
    cases hs
    exact finishRequests_coherent h hfinish
  | setPauseState pauseState =>
    cases hstep
    exact h.of_objs rfl rfl rfl (fun _ hr => hr) fun _ => Iff.rfl
  | resetPrefixCache reset =>
    obtain ⟨⟨ok, sch⟩, hreset, hs⟩ := bind_eq_ok.mp hstep
    cases hs
    exact resetPrefixCache_coherent h hreset
  | updateDraftTokenIds validateTokens drafts =>
    cases hstep
    exact updateDraftTokenIds_coherent h

/-- An operation that keeps the order of the queues keeps them coherent. -/
theorem step_coherent {op : Op} (h : Coherent sys.sch) (hadm : sys.Admissible op)
    (hok : KeepsOrder cfg sys op) (hstep : sys.step cfg op = .ok sys') : Coherent sys'.sch :=
  step_coherent_of_schedule h hadm (fun env hop out s' hschedule => by
    subst hop
    exact schedule_coherent h hok hschedule) hstep

/-- In every run of orderly steps the queues are coherent. -/
theorem coherent_of_run {kv : K} {enc : E} (h : Run cfg (KeepsOrder cfg) (init cfg kv enc) sys) :
    Coherent sys.sch :=
  h.invariant (I := fun sys => Coherent sys.sch) (init_coherent cfg kv enc)
    fun _ _ _ hI hadm hok hstep => step_coherent hI hadm hok hstep

end System

end RpsServe
