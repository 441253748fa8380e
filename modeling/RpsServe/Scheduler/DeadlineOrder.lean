import RpsServe.Scheduler.Named
import RpsServe.Scheduler.Origin
import RpsServe.SloExpirationManager.Deadline

/-!
# The order of the deadlines over a run

Under `edf` the ranks of a step follow the deadlines. A deadline is fixed when a request comes,
but for a streaming session, whose next chunk brings a new arrival time. So two requests keep
their order from step to step as long as neither takes a chunk, whatever happens to the others.
-/

namespace RpsServe

namespace Scheduler

variable {K E : Type} {cfg : Config} {env : StepEnv} {s s₁ s' : Scheduler K E} {a r : ReqId}

/-- The live requests stay distinct, and the deadline of `a` stays in so far as it is `quiet`. -/
structure Undisturbed (a : ReqId) (quiet : Prop) (s s' : Scheduler K E) : Prop where
  requests : s.requests.Nodup → s'.requests.Nodup
  deadline : quiet → (s'.req a).deadline = (s.req a).deadline

namespace Undisturbed

variable {quiet : Prop}

/-- What is undisturbed twice is undisturbed. -/
theorem trans (h : Undisturbed a quiet s s₁) (h' : Undisturbed a quiet s₁ s') :
    Undisturbed a quiet s s' where
  requests hnodup := h'.requests (h.requests hnodup)
  deadline hq := (h'.deadline hq).trans (h.deadline hq)

/-- Requests leave, and everybody came with what they came with before. -/
theorem of_origins (hrequests : s'.requests.Sublist s.requests) (h : SameOrigins s s') :
    Undisturbed a quiet s s' where
  requests hnodup := hnodup.sublist hrequests
  deadline _ := Request.deadline_congr (h.req a).arrivalTime (h.req a).requestMd

end Undisturbed

/-- Entering a waiting queue writes to no object. -/
theorem enqueue_req (s : Scheduler K E) (r x : ReqId) :
    (s.enqueueWaitingRequest r).req x = s.req x := by
  obtain ⟨waiting, skippedWaiting, hsame⟩ := enqueue_same s r
  rw [hsame]
  rfl

variable [KVCacheManager K] [EncoderCache E] {out : SchedulerOutput} {mro : ModelRunnerOutput}

/-- Ending requests disturbs no deadline. -/
theorem finishRequests_undisturbed {delayFree : ReqId → Bool} {ids : Option (List ReqId)}
    {status : RequestStatus} {quiet : Prop}
    (h : s.finishRequests cfg delayFree ids status = .ok s') : Undisturbed a quiet s s' :=
  .of_origins (finishRequests_ended h).requests (finishRequests_origins h)

/-! ### Coming in -/

/-- A chunk for another session, or a new request, disturbs nobody. -/
theorem addRequest_undisturbed {delayFree : ReqId → Bool} {request : Request} (hnamed : Named s)
    (h : s.addRequest cfg delayFree request = .ok s') :
    Undisturbed a (request.requestId ≠ a) s s' := by
  cases addRequest_outcome h with
  | chunkQueued _ hs' =>
    subst hs'
    exact ⟨id, fun hne => by rw [req_modifyReq_ne (Ne.symm hne)]⟩
  | chunkTaken hlive _ hnext =>
    have hnext := hnext (hnamed.requests_known _ hlive)
    obtain ⟨_, hsame⟩ := hnext.same
    exact ⟨fun hnodup => by rw [hsame]; exact hnodup,
      fun hne => by rw [hnext.others a (Ne.symm hne)]⟩
  | sessionEnded _ hfinish => exact finishRequests_undisturbed hfinish
  | admitted hnew _ _ _ _ hadmitted =>
    refine ⟨fun hnodup => ?_, fun hne => by rw [hadmitted.others (Ne.symm hne)]⟩
    rw [hadmitted.requests]
    exact List.nodup_append'.mpr ⟨hnodup, List.nodup_singleton _, by simpa using hnew⟩

/-! ### Answers -/

/-- A stopped request without a queued chunk keeps its deadline, whether it is ended or waits for
its next chunk. -/
theorem stopRequest_deadline {delayFree : ReqId → Bool} {before : RequestStatus}
    {us us' : UpdateState K E} (hqueue : (s.req r).streamingQueue.getD [] = [])
    (h : stopRequest cfg delayFree us r before s = .ok us') :
    (us'.sch.req r).deadline = (s.req r).deadline ∧
      (us'.sch.req r).streamingQueue = (s.req r).streamingQueue := by
  obtain ⟨t, ht, h⟩ := bind_eq_ok.mp h
  have husch : us'.sch = t := by
    split at h <;> cases h <;> rfl
  have hkeeps : ∀ {u : Scheduler K E} {finished : Bool},
      freeIfFinished cfg delayFree r (finished, u) = .ok t → t.req r = u.req r := by
    intro u finished hu
    cases finished with
    | true =>
      obtain ⟨-, kv, rfl⟩ := freeRequest_eq_ok hu
      rfl
    | false =>
      cases hu
      rfl
  rw [husch]
  unfold handleStoppedRequest at ht
  split at ht
  · rw [hkeeps ht]
    exact ⟨rfl, rfl⟩
  · rw [hqueue] at ht
    have hwaits := fun {α : Type} (g : Request → α)
        (hg : ∀ q, g { q with status := .waitingForStreamingReq } = g q) =>
      modifyReq_keeps s r (fun q => { q with status := .waitingForStreamingReq }) g hg r
    have hreq : t.req r =
        (s.modifyReq r fun q => { q with status := .waitingForStreamingReq }).req r :=
      (hkeeps ht).trans (enqueue_req _ r r)
    rw [hreq]
    exact ⟨Request.deadline_congr (hwaits Request.arrivalTime fun _ => rfl)
      (hwaits Request.requestMd fun _ => rfl), hwaits Request.streamingQueue fun _ => rfl⟩

/-- What the loop over the answers keeps: the objects under their ids, the live requests among the
old ones, and the deadline and the queue of `a` while no chunk of it is queued. -/
structure Answering (a : ReqId) (s s' : Scheduler K E) : Prop where
  named : Named s'
  requests : s'.requests.Sublist s.requests
  deadline : (s.req a).streamingQueue.getD [] = [] → (s'.req a).deadline = (s.req a).deadline ∧
    (s'.req a).streamingQueue = (s.req a).streamingQueue

omit [KVCacheManager K] [EncoderCache E] in
/-- Two answers after one another are answers. -/
theorem Answering.trans (h : Answering a s s₁) (h' : Answering a s₁ s') : Answering a s s' where
  named := h'.named
  requests := h'.requests.trans h.requests
  deadline hqueue := by
    obtain ⟨hdeadline, hkept⟩ := h.deadline hqueue
    obtain ⟨hdeadline', hkept'⟩ := h'.deadline (by rwa [hkept])
    exact ⟨hdeadline'.trans hdeadline, hkept'.trans hkept⟩

/-- An answer to a request disturbs no deadline. -/
theorem answerRequest_answering {before : RequestStatus} {stopped : Bool} (hnamed : Named s)
    (hk : r ∈ s.objs.keys) (h : answerRequest cfg out mro r s = .ok (before, stopped, s')) :
    Answering a s s' := by
  have horigin := (answerRequest_origins h).req a
  obtain ⟨-, hanswered⟩ := answerRequest_answered hk h
  refine ⟨answerRequest_named hnamed hk h, ?_, fun _ =>
    ⟨Request.deadline_congr horigin.arrivalTime horigin.requestMd, ?_⟩⟩
  · obtain ⟨_, _, _, hsame⟩ := hanswered.same
    rw [hsame]
  · by_cases har : a = r
    · subst har
      exact (hanswered.answered hk).streamingQueue
    · rw [hanswered.others a har]

/-- An entry of the output disturbs no deadline. -/
theorem processOutput_answering {failed : List ReqId} {us us' : UpdateState K E} {e : ReqId × ℤ}
    (hnamed : Named us.sch) (h : processOutput cfg out mro failed us e = .ok us') :
    Answering a us.sch us'.sch := by
  cases processOutput_outcome h with
  | passed hus =>
    subst hus
    exact ⟨hnamed, List.Sublist.refl _, fun _ => ⟨rfl, rfl⟩⟩
  | answered hmem _ hanswer hus =>
    subst hus
    exact answerRequest_answering hnamed (hnamed.requests_known _ hmem) hanswer
  | @stopped _ sch hmem _ hanswer hstop =>
    have hk := hnamed.requests_known _ hmem
    obtain ⟨-, hanswered⟩ := answerRequest_answered hk hanswer
    have hk' : e.1 ∈ sch.objs.keys := hanswered.keys ▸ hk
    have hanswering : Answering a us.sch sch := answerRequest_answering hnamed hk hanswer
    refine hanswering.trans ⟨stopRequest_named hanswering.named hk' hstop, ?_, fun hqueue => ?_⟩
    · obtain ⟨-, hended | ⟨-, hgoes⟩⟩ :=
        stopRequest_outcome hk' ((hanswered.answered hk).finished rfl) hstop
      exacts [hended.requests, hgoes.requests ▸ List.Sublist.refl _]
    · by_cases har : a = e.1
      · subst har
        exact stopRequest_deadline hqueue hstop
      · obtain ⟨-, hended | ⟨-, hgoes⟩⟩ :=
          stopRequest_outcome hk' ((hanswered.answered hk).finished rfl) hstop
        · rw [hended.others a (by simpa using har)]
          exact ⟨rfl, rfl⟩
        · rw [hgoes.others a har]
          exact ⟨rfl, rfl⟩

/-- A whole answer disturbs nobody for whom no chunk is queued. -/
theorem updateFromOutput_undisturbed (hnamed : Named s)
    (h : s.updateFromOutput cfg out mro = .ok s') :
    Undisturbed a ((s.req a).streamingQueue.getD [] = []) s s' := by
  obtain ⟨failed, s₁, us, s₂, -, hrec, hfold, hfail, htransfer⟩ := updateFromOutput_eq_ok h
  have h₁ : Answering a s s₁ := by
    obtain ⟨objs, kv, failedRecving, hsame⟩ := hrec.same
    obtain ⟨n, hn⟩ := hrec.req a
    have hnamed₁ : Named s₁ := by
      refine hnamed.of_ids hrec.keys (fun r => ?_) ?_ ?_
      · obtain ⟨n, hn⟩ := hrec.req r
        rw [hn]
      all_goals
        rw [hsame]
        exact List.Subset.refl _
    refine ⟨hnamed₁, by rw [hsame], fun _ => ?_⟩
    rw [hn]
    exact ⟨rfl, rfl⟩
  have hloop : Answering a s us.sch :=
    foldlM_invariant (I := fun us => Answering a s us.sch) hfold h₁ fun _ _ _ _ hI hround =>
      hI.trans (processOutput_answering hI.named hround)
  have h₂ : Undisturbed a ((s.req a).streamingQueue.getD [] = []) s s₂ := by
    have hremoved : Undisturbed a ((s.req a).streamingQueue.getD [] = []) s (removeStopped us) :=
      ⟨fun hnodup => hnodup.sublist hloop.requests, fun hqueue => (hloop.deadline hqueue).1⟩
    unfold failKvLoads at hfail
    split at hfail
    · cases hfail
      exact hremoved
    · split at hfail
      · cases hfail
      · exact hremoved.trans (finishRequests_undisturbed hfail)
  obtain ⟨requests, finishedRecving, kv, hsame⟩ := htransfer.same
  exact h₂.trans (.of_origins htransfer.requests (.of_objs (by rw [hsame])))

/-! ### The other operations -/

/-- Resetting the prefix cache disturbs no deadline. -/
theorem resetPrefixCache_undisturbed {reset ok : Bool} {quiet : Prop}
    (h : s.resetPrefixCache reset = .ok (ok, s')) : Undisturbed a quiet s s' := by
  refine .of_origins ?_ (resetPrefixCache_origins h)
  cases resetPrefixCache_outcome h with
  | kept _ hs' => rw [hs']
  | preempted _ hreset =>
    obtain ⟨_, _, _, hsame⟩ := hreset.same
    rw [hsame]

omit [KVCacheManager K] [EncoderCache E] in
/-- Drafts disturb no deadline. -/
theorem updateDraftTokenIds_undisturbed {validateTokens : ReqId → List Token → List Token}
    {drafts : List (ReqId × List Token)} {quiet : Prop} :
    Undisturbed a quiet s (s.updateDraftTokenIds validateTokens drafts) := by
  refine .of_origins ?_ (updateDraftTokenIds_origins validateTokens s drafts)
  obtain ⟨⟨objs, hsame⟩, -, -⟩ := updateDraftTokenIds_same validateTokens s drafts
  rw [hsame]

/-- A step writes neither to an arrival time nor to the metadata. -/
theorem schedule_undisturbed [SeparateKVCacheManager K] {quiet : Prop} (hnamed : Named s)
    (h : schedule cfg env s = .ok (out, s')) : Undisturbed a quiet s s' := by
  obtain ⟨ls, hwalked, hfinish⟩ := schedule_eq_ok h
  have hfin := finishStep_spec hfinish
  have hkeeps : ∀ t t' : LoopState K E, (t.req a).SameInputs (t'.req a) →
      (t'.req a).deadline = (t.req a).deadline := fun t t' hsame => by
    obtain ⟨_, _, _, _, hsame⟩ := hsame
    rw [hsame]
    rfl
  have hwalk : (ls.req a).deadline = (s.req a).deadline := by
    refine hwalked.touched (I := fun t => (t.req a).deadline = (s.req a).deadline)
      (fun t ht => ?_) (fun _ t t' _ _ hI htouch => (hkeeps t t' (htouch.inputs a)).trans hI)
      fun t t' hI hall => (hkeeps t t' ((hall a).inputs a)).trans hI
    obtain ⟨objs, _, hsame, -, -, rfl⟩ := beginStep_eq_ok ht
    exact hsame.deadline a
  have hsameIds := hwalked.sameIds
  refine ⟨fun hnodup => ?_, fun _ => ?_⟩
  · rw [hfin.requests]
    exact hsameIds.sch.2.nodup_iff.mpr hnodup
  · by_cases ha : a ∈ ls.numScheduledTokens.keys
    · obtain ⟨⟨a, n⟩, hn, rfl⟩ := List.mem_map.mp ha
      have hk : a ∈ ls.sch.objs.keys := by
        rw [hsameIds.keys]
        exact hnamed.requests_known a (hsameIds.sch.2.subset (hfin.scheduled a n hn).1)
      rw [(hfin.scheduled a n hn).2 hk]
      obtain ⟨_, _, _, hadv⟩ := advanceRequest_eq cfg n
        ((ls.scheduledSpecDecodeTokens.get? a).getD []).length (ls.req a)
      rw [hadv]
      exact hwalk
    · rw [hfin.unscheduled a ha]
      exact hwalk

end Scheduler

namespace System

open Scheduler

variable {K E : Type} [KVCacheManager K] [SeparateKVCacheManager K] [EncoderCache E] {cfg : Config}
  {sys sys' : System K E} {a b : ReqId}

/-- The request takes no further chunk of its session: none comes in, and none is queued when an
answer may stop it. -/
def NoChunk (a : ReqId) (sys : System K E) : Op → Prop
  | .addRequest request _ => request.requestId ≠ a
  | .updateFromOutput _ _ => (sys.sch.req a).streamingQueue.getD [] = []
  | .schedule _ | .finishRequests _ _ _ | .setPauseState _ | .resetPrefixCache _
  | .updateDraftTokenIds _ _ => True

/-- Only a chunk of its own disturbs a request. -/
theorem step_undisturbed {op : Op} (hnamed : Named sys.sch) (h : sys.step cfg op = .ok sys') :
    Undisturbed a (NoChunk a sys op) sys.sch sys'.sch := by
  cases op with
  | addRequest request delayFree =>
    obtain ⟨sch, hadd, hs⟩ := bind_eq_ok.mp h
    cases hs
    exact addRequest_undisturbed hnamed hadd
  | schedule env =>
    obtain ⟨⟨out, sch⟩, hschedule, hs⟩ := bind_eq_ok.mp h
    cases hs
    exact schedule_undisturbed hnamed hschedule
  | updateFromOutput i mro =>
    unfold step at h
    dsimp only at h
    split at h
    · cases h
    · obtain ⟨sch, hupdate, hs⟩ := bind_eq_ok.mp h
      cases hs
      exact updateFromOutput_undisturbed hnamed hupdate
  | finishRequests ids status delayFree =>
    obtain ⟨sch, hfinish, hs⟩ := bind_eq_ok.mp h
    cases hs
    exact finishRequests_undisturbed hfinish
  | setPauseState pauseState =>
    cases h
    exact ⟨id, fun _ => rfl⟩
  | resetPrefixCache reset =>
    obtain ⟨⟨ok, sch⟩, hreset, hs⟩ := bind_eq_ok.mp h
    cases hs
    exact resetPrefixCache_undisturbed hreset
  | updateDraftTokenIds validateTokens drafts =>
    cases h
    exact updateDraftTokenIds_undisturbed

/-- In every run the live requests are distinct. -/
theorem requests_nodup_of_run {ok : System K E → Op → Prop} {kv : K} {enc : E}
    (h : Run cfg ok (init cfg kv enc) sys) : sys.sch.requests.Nodup := by
  have hboth : Named sys.sch ∧ sys.sch.requests.Nodup := by
    refine h.invariant (I := fun sys => Named sys.sch ∧ sys.sch.requests.Nodup)
      ⟨init_named cfg kv enc, by simp [init, Scheduler.init]⟩ fun sys op sys' hI _ _ hstep => ?_
    exact ⟨step_named hI.1 hstep, (step_undisturbed hI.1 hstep : Undisturbed 0 _ _ _).requests hI.2⟩
  exact hboth.2

/-- Over a run in which a request takes no chunk its deadline stays. -/
theorem deadline_of_run (hnamed : Named sys.sch) (h : Run cfg (NoChunk a) sys sys') :
    (sys'.sch.req a).deadline = (sys.sch.req a).deadline := by
  have hboth : Named sys'.sch ∧ (sys'.sch.req a).deadline = (sys.sch.req a).deadline := by
    refine h.invariant (I := fun sys' => Named sys'.sch ∧
      (sys'.sch.req a).deadline = (sys.sch.req a).deadline) ⟨hnamed, rfl⟩
      fun sys₁ op sys₂ hI _ hquiet hstep => ?_
    exact ⟨step_named hI.1 hstep, ((step_undisturbed hI.1 hstep).deadline hquiet).trans hI.2⟩
  exact hboth.2

/-- In every reachable state the ranking goes by the deadlines, and two requests that take no chunk
in between are ranked the same way by any later step. -/
theorem deadlineOrder_of_run (hpolicy : cfg.policy = .edf) {ok : System K E → Op → Prop} {kv : K}
    {enc : E} (h : Run cfg ok (init cfg kv enc) sys)
    (hlater : Run cfg (fun sys op => NoChunk a sys op ∧ NoChunk b sys op) sys sys')
    {env env' : StepEnv} {objs objs' : Objs} {requests requests' : List ReqId}
    (hrank : updatePriorities cfg.policy env sys.sch.objs sys.sch.requests = .ok (objs, requests))
    (hrank' : updatePriorities cfg.policy env' sys'.sch.objs sys'.sch.requests =
      .ok (objs', requests')) :
    RankedByDeadline sys.sch.objs sys.sch.requests objs ∧
      (a ∈ sys.sch.requests → b ∈ sys.sch.requests → a ∈ sys'.sch.requests →
        b ∈ sys'.sch.requests → (sys.sch.req a).deadline ≠ (sys.sch.req b).deadline →
        ((objs'.req a).priority < (objs'.req b).priority ↔
          (objs.req a).priority < (objs.req b).priority)) := by
  rw [hpolicy] at hrank hrank'
  have hnamed := named_of_run h
  have hafter : Run cfg (fun _ _ => True) (init cfg kv enc) sys' :=
    (h.mono fun _ _ _ => trivial).trans (hlater.mono fun _ _ _ => trivial)
  have hranked := edf_rankedByDeadline (requests_nodup_of_run h) hnamed.requests_known hrank
  refine ⟨hranked, fun ha hb ha' hb' hne => ?_⟩
  exact hranked.others env' _ _ _ _ (requests_nodup_of_run hafter)
    (named_of_run hafter).requests_known hrank' a ha b hb ha' hb'
    (deadline_of_run hnamed (hlater.mono fun _ _ hquiet => hquiet.1))
    (deadline_of_run hnamed (hlater.mono fun _ _ hquiet => hquiet.2)) hne

/-- A small system that ranks by deadline. -/
def deadlineCfg : Config := { conservationCfg with policy := .edf }

/-- A chunk of a session, with the time it came at. -/
def datedChunk (r : ReqId) (arrivalTime : ℤ) : Request :=
  { shortRequest r with
    maxTokens := 1, resumable := true, arrivalTime := arrivalTime, requestMd := some {} }

/-- A session waits for its next chunk when another one comes. -/
def waitsAndComes : List Op :=
  [.addRequest (datedChunk 1 1) fun _ => false, .schedule {},
    .updateFromOutput 0 { sampledTokenIds := fun _ => [5] },
    .addRequest (datedChunk 2 5) fun _ => false]

/-- Request `1` is ranked before request `2`. -/
def FirstBefore (sys : System FullAttentionKV EncoderCacheManager) : Prop :=
  1 ∈ sys.sch.requests ∧ 2 ∈ sys.sch.requests ∧
    (sys.sch.req 1).deadline ≠ (sys.sch.req 2).deadline ∧
    Yields (updatePriorities .edf {} sys.sch.objs sys.sch.requests) fun p =>
      (p.1.req 1).priority < (p.1.req 2).priority

instance : DecidablePred FirstBefore := fun _ => inferInstanceAs (Decidable (_ ∧ _ ∧ _ ∧ _))

/-- What the two requests do next leaves their order: the session gets no chunk. -/
theorem deadlineOrder_of_waitsAndComes : ∃ sys sys' : System FullAttentionKV EncoderCacheManager,
    ∃ objs objs' : Objs, sys'.sch.running = [2] ∧
      RankedByDeadline sys.sch.objs sys.sch.requests objs ∧
      ((objs'.req 1).priority < (objs'.req 2).priority ↔
        (objs.req 1).priority < (objs.req 2).priority) := by
  have hlegal : Legal deadlineCfg (fun _ _ => True) (decoderOnly deadlineCfg false 0)
      waitsAndComes := by
    decide +kernel
  obtain ⟨sys, hrun, hfirst, hnext⟩ := Reaches.exists_run waitsAndComes
    (P := fun sys => FirstBefore sys ∧ Legal deadlineCfg (fun _ op => op.isSchedule = true) sys
      [.schedule {}] ∧ Reaches deadlineCfg sys [.schedule {}] fun sys' =>
        FirstBefore sys' ∧ sys'.sch.running = [2]) (by decide +kernel) hlegal
  obtain ⟨hlegal', hreach⟩ := hnext
  obtain ⟨sys', hrun', hfirst', hrunning⟩ := Reaches.exists_run _ hreach hlegal'
  obtain ⟨ha, hb, hne, hrank⟩ := hfirst
  obtain ⟨ha', hb', -, hrank'⟩ := hfirst'
  obtain ⟨⟨objs, requests⟩, hrank, -⟩ := hrank.exists_ok
  obtain ⟨⟨objs', requests'⟩, hrank', -⟩ := hrank'.exists_ok
  have hlater : Run deadlineCfg (fun sys op => NoChunk 1 sys op ∧ NoChunk 2 sys op) sys sys' := by
    refine hrun'.mono fun sys op hop => ?_
    cases op with
    | schedule => exact ⟨trivial, trivial⟩
    | _ => cases hop
  obtain ⟨hranked, hstable⟩ := deadlineOrder_of_run rfl hrun hlater hrank hrank'
  exact ⟨sys, sys', objs, objs', hrunning, hranked, hstable ha hb ha' hb' hne⟩

/-- The next chunk of the session comes later than the other request and puts it behind. -/
theorem chunk_reverses : ¬ ∀ (cfg : Config) (sys sys' : System FullAttentionKV EncoderCacheManager)
    (a b : ReqId) (env env' : StepEnv) (objs objs' : Objs) (requests requests' : List ReqId),
    cfg.policy = .edf → Run cfg (fun _ _ => True) (decoderOnly cfg false 0) sys →
    Run cfg (fun _ _ => True) sys sys' →
    updatePriorities cfg.policy env sys.sch.objs sys.sch.requests = .ok (objs, requests) →
    updatePriorities cfg.policy env' sys'.sch.objs sys'.sch.requests = .ok (objs', requests') →
    a ∈ sys.sch.requests → b ∈ sys.sch.requests → a ∈ sys'.sch.requests → b ∈ sys'.sch.requests →
    (sys.sch.req a).deadline ≠ (sys.sch.req b).deadline →
    (sys'.sch.req a).deadline ≠ (sys'.sch.req b).deadline →
    ((objs'.req a).priority < (objs'.req b).priority ↔
      (objs.req a).priority < (objs.req b).priority) := by
  intro hclaim
  have hlegal : Legal deadlineCfg (fun _ _ => True) (decoderOnly deadlineCfg false 0)
      waitsAndComes := by
    decide +kernel
  obtain ⟨sys, hrun, hfirst, hlegal', hreach⟩ := Reaches.exists_run waitsAndComes
    (P := fun sys => FirstBefore sys ∧
      Legal deadlineCfg (fun _ _ => True) sys [.addRequest (datedChunk 1 9) fun _ => false] ∧
      Reaches deadlineCfg sys [.addRequest (datedChunk 1 9) fun _ => false] fun sys' =>
        1 ∈ sys'.sch.requests ∧ 2 ∈ sys'.sch.requests ∧
        (sys'.sch.req 1).deadline ≠ (sys'.sch.req 2).deadline ∧
        Yields (updatePriorities .edf {} sys'.sch.objs sys'.sch.requests) fun p =>
          (p.1.req 2).priority < (p.1.req 1).priority) (by decide +kernel) hlegal
  obtain ⟨sys', hrun', ha', hb', hne', hrank'⟩ := Reaches.exists_run _ hreach hlegal'
  obtain ⟨ha, hb, hne, hrank⟩ := hfirst
  obtain ⟨⟨objs, requests⟩, hrank, hlt⟩ := hrank.exists_ok
  obtain ⟨⟨objs', requests'⟩, hrank', hlt'⟩ := hrank'.exists_ok
  have hsame := (hclaim deadlineCfg sys sys' 1 2 {} {} objs objs' requests requests' rfl hrun hrun'
    hrank hrank' ha hb ha' hb' hne hne').mpr hlt
  exact absurd hsame (not_lt.mpr hlt'.le)

end System

end RpsServe
