import RpsServe.Scheduler.Coherent
import RpsServe.Scheduler.Steady

/-!
# Requests that leave the scheduler

An operation that gives a request a finished status puts its id into `finished_req_ids` and
takes it out of `self.requests` unless the KV connector keeps its blocks. A step hands the
ids over to the workers, and finishes no request but the ones that it ignores.
-/

namespace RpsServe

namespace Scheduler

variable {K E : Type}

/-- The KV connector keeps the blocks of a request that an operation ends in `s`. -/
def DelaysFree (cfg : Config) (delayFree : ReqId → Bool) (s : Scheduler K E) (r : ReqId) : Prop :=
  cfg.connector = true ∧ (delayFree r = true ∨ (s.req r).status = .waitingForRemoteKvs)

/-- `self.requests` has distinct ids, and without a KV connector no request waits for remote
blocks. -/
structure Listed (cfg : Config) (s : Scheduler K E) : Prop where
  nodup : s.requests.Nodup
  noRemote : cfg.connector = false → ∀ r, (s.req r).status ≠ .waitingForRemoteKvs

/-- What an operation reports of the requests that it ends, and which of them it keeps in
`self.requests`. -/
structure Reports (cfg : Config) (delayFree : ReqId → Bool) (s s' : Scheduler K E) : Prop where
  nodup : s.requests.Nodup → s'.requests.Nodup
  remote : ∀ r, (s'.req r).status = .waitingForRemoteKvs → (s.req r).status = .waitingForRemoteKvs
  finished : ∀ r, (s.req r).isFinished = true → (s'.req r).isFinished = true
  reported : ∀ r, r ∈ s'.finishedReqIds ↔
    r ∈ s.finishedReqIds ∨ (s.req r).isFinished = false ∧ (s'.req r).isFinished = true
  requests : ∀ r, (s.req r).isFinished = true → r ∈ s'.requests → r ∈ s.requests
  delayed : Listed cfg s → ∀ r, (s.req r).isFinished = false → (s'.req r).isFinished = true →
    r ∈ s'.requests → DelaysFree cfg delayFree s r

variable {cfg : Config} {delayFree : ReqId → Bool} {r : ReqId} {s s₁ s' : Scheduler K E}

namespace Reports

/-- What is reported leaves the objects listed. -/
theorem listed (h : Reports cfg delayFree s s') (hs : Listed cfg s) : Listed cfg s' :=
  ⟨h.nodup hs.nodup, fun hc r hr => hs.noRemote hc r (h.remote r hr)⟩

/-- Two operations, one after the other. -/
theorem trans (h : Reports cfg delayFree s s₁) (h' : Reports cfg delayFree s₁ s') :
    Reports cfg delayFree s s' where
  nodup hs := h'.nodup (h.nodup hs)
  remote r hr := h.remote r (h'.remote r hr)
  finished r hr := h'.finished r (h.finished r hr)
  reported r := by
    have hmono := h'.finished r
    rw [h'.reported r, h.reported r]
    cases hs : (s.req r).isFinished with
    | true => simp [h.finished r hs]
    | false =>
      cases h₁ : (s₁.req r).isFinished with
      | true => simp [hmono h₁]
      | false => simp
  requests r hr hmem := h.requests r hr (h'.requests r (h.finished r hr) hmem)
  delayed hs r hlive hfin hmem := by
    cases h₁ : (s₁.req r).isFinished with
    | true => exact h.delayed hs r hlive h₁ (h'.requests r h₁ hmem)
    | false =>
      obtain ⟨hc, hkeep⟩ := h'.delayed (h.listed hs) r h₁ hfin hmem
      exact ⟨hc, hkeep.imp_right (h.remote r)⟩

/-- An operation that ends no request. -/
theorem of_status (hnodup : s.requests.Nodup → s'.requests.Nodup)
    (hrequests : ∀ r, (s.req r).isFinished = true → r ∈ s'.requests → r ∈ s.requests)
    (hreported : s'.finishedReqIds = s.finishedReqIds)
    (hfin : ∀ r, (s'.req r).isFinished = (s.req r).isFinished)
    (hremote : ∀ r, (s'.req r).status = .waitingForRemoteKvs →
      (s.req r).status = .waitingForRemoteKvs) : Reports cfg delayFree s s' where
  nodup := hnodup
  remote := hremote
  finished r hr := (hfin r).trans hr
  reported r := by
    rw [hreported, hfin r]
    cases (s.req r).isFinished <;> simp
  requests := hrequests
  delayed _ r hlive h _ := by
    rw [hfin r, hlive] at h
    cases h

/-- An operation that changes no status. -/
theorem of_same (hrequests : s'.requests.Sublist s.requests)
    (hreported : s'.finishedReqIds = s.finishedReqIds)
    (hstatus : ∀ r, (s'.req r).status = (s.req r).status) : Reports cfg delayFree s s' :=
  .of_status (fun hnodup => hnodup.sublist hrequests) (fun _ _ hr => hrequests.subset hr) hreported
    (fun r => congrArg RequestStatus.isFinished (hstatus r)) fun r hr => hstatus r ▸ hr

/-- A state reports nothing of itself. -/
theorem refl (cfg : Config) (delayFree : ReqId → Bool) (s : Scheduler K E) :
    Reports cfg delayFree s s := .of_same (List.Sublist.refl _) rfl fun _ => rfl

/-- Ending one live request. -/
theorem of_ended (hk : r ∈ s.objs.keys) (hlive : (s.req r).isFinished = false)
    (h : Ended cfg [r] s s')
    (hdelayed : Listed cfg s → r ∈ s'.requests → DelaysFree cfg delayFree s r) :
    Reports cfg delayFree s s' := by
  have hself := h.finished r (List.mem_singleton_self r) hk
  have hothers : ∀ x, x ≠ r → s'.req x = s.req x := fun x hx => h.others x (by simpa using hx)
  exact {
    nodup := fun hnodup => hnodup.sublist h.requests
    remote := fun x hx => by
      by_cases hxr : x = r
      · rw [Request.isFinished, ← hxr, hx] at hself
        cases hself
      · rwa [hothers x hxr] at hx
    finished := fun x hx => by
      by_cases hxr : x = r
      · exact hxr ▸ hself
      · rwa [hothers x hxr]
    reported := fun x => by
      rw [h.finishedReqIds, Finset.mem_union, List.mem_toFinset, List.mem_singleton]
      refine or_congr_right ⟨fun hxr => ?_, fun hx => ?_⟩
      · exact hxr ▸ ⟨hlive, hself⟩
      · by_contra hxr
        rw [hothers x hxr, hx.1] at hx
        cases hx.2
    requests := fun x _ hx => h.requests.subset hx
    delayed := fun hs x hxlive hxfin hmem => by
      by_cases hxr : x = r
      · subst hxr
        exact hdelayed hs hmem
      · rw [hothers x hxr, hxlive] at hxfin
        cases hxfin }

end Reports

variable [KVCacheManager K] [EncoderCache E]

/-! ### The operations between steps -/

/-- Ending a request reports it. -/
theorem finishOne_reports {finishedStatus : RequestStatus} (hk : r ∈ s.objs.keys)
    (hlive : (s.req r).isFinished = false) (hstatus : finishedStatus.isFinished = true)
    (h : s.finishOne cfg delayFree finishedStatus r = .ok s') : Reports cfg delayFree s s' := by
  refine .of_ended hk hlive (finishOne_ended hstatus h) fun hs hmem => ?_
  have hkeep := freeRequest_kept h hs.nodup hmem
  rw [Bool.or_eq_true, Bool.and_eq_true, decide_eq_true_eq] at hkeep
  rcases hkeep with ⟨hremote, -⟩ | ⟨hc, hkeep⟩
  · have hremote : (s.req r).status = .waitingForRemoteKvs := by simpa using hremote
    refine ⟨?_, .inr hremote⟩
    by_contra hc
    exact hs.noRemote (by simpa using hc) r hremote
  · exact ⟨hc, .inl hkeep⟩

/-- The second pass of `finish_requests` over live requests. -/
theorem finishAll_reports {finishedStatus : RequestStatus} {ids : List ReqId}
    (hstatus : finishedStatus.isFinished = true) (hnodup : ids.Nodup)
    (hlive : ∀ r ∈ ids, r ∈ s.objs.keys ∧ (s.req r).isFinished = false)
    (h : ids.foldlM (finishOne cfg delayFree finishedStatus) s = .ok s') :
    Reports cfg delayFree s s' := by
  induction ids generalizing s with
  | nil =>
    cases h
    exact .refl _ _ _
  | cons r rest ih =>
    obtain ⟨t, ht, hrest⟩ := foldlM_cons_eq_ok.mp h
    obtain ⟨hr, hnodup⟩ := List.nodup_cons.mp hnodup
    have hself := hlive r List.mem_cons_self
    have hended := finishOne_ended hstatus ht
    refine (finishOne_reports hself.1 hself.2 hstatus ht).trans (ih hnodup (fun x hx => ?_) hrest)
    have hxr : x ∉ [r] := by
      rw [List.mem_singleton]
      rintro rfl
      exact hr hx
    rw [hended.keys, hended.others x hxr]
    exact hlive x (List.mem_cons_of_mem r hx)

/-- Ending requests reports them. -/
theorem finishRequests_reports {ids : Option (List ReqId)} {finishedStatus : RequestStatus}
    (hknown : ∀ r ∈ s.requests, r ∈ s.objs.keys)
    (h : s.finishRequests cfg delayFree ids finishedStatus = .ok s') :
    Reports cfg delayFree s s' := by
  unfold finishRequests at h
  split at h
  · cases h
  · rename_i hstatus
    have hdequeue : Reports cfg delayFree s (s.dequeue (s.validRequests ids)) :=
      .of_same (List.Sublist.refl _) rfl fun _ => rfl
    refine hdequeue.trans (finishAll_reports (by simpa using hstatus)
      ((List.nodup_dedup _).filter _) (fun r hr => ?_) h)
    obtain ⟨hmem, hlive⟩ := mem_validRequests hr
    exact ⟨hknown r hmem, hlive⟩

omit [KVCacheManager K] [EncoderCache E] in
/-- A request that was never admitted has no finished status. -/
theorem known_of_finished (h : (s.req r).isFinished = true) : r ∈ s.objs.keys := by
  by_contra hk
  rw [req, Objs.req_of_notMem hk] at h
  cases h

/-- Adding a request reports what it ends. -/
theorem addRequest_reports {request : Request} (hknown : ∀ r ∈ s.requests, r ∈ s.objs.keys)
    (hnew : request.requestId ∈ s.requests ∨ request.requestId ∉ s.objs.keys)
    (hadd : s.addRequest cfg delayFree request = .ok s') : Reports cfg delayFree s s' := by
  cases addRequest_outcome hadd with
  | @chunkQueued queue hmem hs' =>
    subst hs'
    exact .of_same (List.Sublist.refl _) rfl (modifyReq_keeps s request.requestId
      (fun q => { q with streamingQueue := some queue }) Request.status fun _ => rfl)
  | chunkTaken hmem hstatus hnext =>
    have hnext := hnext (hknown _ hmem)
    obtain ⟨objs, hs'⟩ := hnext.same
    have hother : ∀ x, x ≠ request.requestId → s'.req x = s.req x := hnext.others
    refine .of_status (by rw [hs']; exact id) (fun r _ hr => by rwa [hs'] at hr) (by rw [hs'])
      (fun r => ?_) fun r hr => ?_
    · by_cases hx : r = request.requestId
      · rw [hx, Request.isFinished, Request.isFinished, hnext.status, hstatus]
        rfl
      · rw [hother r hx]
    · by_cases hx : r = request.requestId
      · rw [hx, hnext.status] at hr
        cases hr
      · rwa [hother r hx] at hr
  | sessionEnded _ hfinish => exact finishRequests_reports hknown hfinish
  | @admitted q hmem hlive _ hremote _ hadmitted =>
    have hfresh : request.requestId ∉ s.objs.keys := hnew.resolve_left hmem
    have hold : (s.req request.requestId).isFinished = false := by
      by_contra hfin
      exact hfresh (known_of_finished (by simpa using hfin))
    refine .of_status (fun hnodup => ?_) (fun r hr hx => ?_) hadmitted.finishedReqIds (fun r => ?_)
      fun r hr => ?_
    · rw [hadmitted.requests]
      exact hnodup.append (List.nodup_singleton _) (by simpa using hmem)
    · rw [hadmitted.requests, List.mem_append, List.mem_singleton] at hx
      refine hx.resolve_right ?_
      rintro rfl
      rw [hold] at hr
      cases hr
    · by_cases hx : r = request.requestId
      · rw [hx, hadmitted.self, hlive, hold]
      · rw [hadmitted.others hx]
    · by_cases hx : r = request.requestId
      · rw [hx, hadmitted.self] at hr
        exact absurd hr hremote
      · rwa [hadmitted.others hx] at hr

/-- Resetting the prefix cache ends no request. -/
theorem resetPrefixCache_reports {reset ok : Bool} (hknown : ∀ r ∈ s.running, r ∈ s.objs.keys)
    (hreset : s.resetPrefixCache reset = .ok (ok, s')) : Reports cfg delayFree s s' := by
  cases resetPrefixCache_outcome hreset with
  | kept _ hs' =>
    subst hs'
    exact .of_same (List.Sublist.refl _) rfl fun _ => rfl
  | preempted _ hall =>
    obtain ⟨objs, kv, enc, hsame⟩ := hall.same
    refine .of_status (by rw [hsame]; exact id) (fun r _ hr => by rwa [hsame] at hr) (by rw [hsame])
      (fun r => ?_) fun r hr => ?_
    · by_cases hr : r ∈ s.running
      · rw [Request.isFinished, Request.isFinished, hall.preempted r hr (hknown r hr),
          hall.wasRunning r hr]
        rfl
      · rw [hall.others r hr]
    · by_cases hx : r ∈ s.running
      · rw [hall.preempted r hx (hknown r hx)] at hr
        cases hr
      · rwa [hall.others r hx] at hr

omit [KVCacheManager K] [EncoderCache E] in
/-- Drafts end no request. -/
theorem updateDraftTokenIds_reports {validateTokens : ReqId → List Token → List Token}
    {drafts : List (ReqId × List Token)} :
    Reports cfg delayFree s (s.updateDraftTokenIds validateTokens drafts) := by
  obtain ⟨⟨objs, hsame⟩, -, hreq⟩ := updateDraftTokenIds_same validateTokens s drafts
  refine .of_same (by rw [hsame]) (by rw [hsame]) fun r => ?_
  obtain ⟨spec, hspec⟩ := hreq r
  rw [hspec]

/-! ### Answering a step -/

variable {out : SchedulerOutput} {mro : ModelRunnerOutput} {us us' : UpdateState K E}

/-- One request of the loop in `update_from_output`. -/
theorem processOutput_reports {failed : List ReqId} {e : ReqId × ℤ}
    (hknown : ∀ r ∈ us.sch.requests, r ∈ us.sch.objs.keys)
    (hround : processOutput cfg out mro failed us e = .ok us') :
    Reports cfg mro.delayFree us.sch us'.sch := by
  cases processOutput_outcome hround with
  | passed hus =>
    subst hus
    exact .refl _ _ _
  | answered hmem _ hanswer hus =>
    have hk := hknown _ hmem
    obtain ⟨-, hans⟩ := answerRequest_answered hk hanswer
    obtain ⟨objs, kv, enc, hsame⟩ := hans.same
    have hstatus := (hans.answered hk).status rfl
    subst hus
    refine .of_same (by rw [hsame]) (by rw [hsame]) fun x => ?_
    by_cases hx : x = e.1
    · exact hx ▸ hstatus
    · rw [hans.others x hx]
  | @stopped before sch hmem hlive hanswer hstop =>
    have hk := hknown _ hmem
    obtain ⟨-, hans⟩ := answerRequest_answered hk hanswer
    have hkept : sch.requests = us.sch.requests ∧ sch.finishedReqIds = us.sch.finishedReqIds := by
      obtain ⟨objs, kv, enc, rfl⟩ := hans.same
      exact ⟨rfl, rfl⟩
    obtain ⟨-, ⟨-, hended, hdelayed⟩ | ⟨-, -, hgoes⟩⟩ :=
      stopRequest_cases (hans.keys ▸ hk) ((hans.answered hk).finished rfl) hstop
    · refine .of_ended hk hlive (hans.ended hk hended) fun hs hmem' => ?_
      have hkeep := hdelayed (hkept.1 ▸ hs.nodup) hmem'
      rw [Bool.and_eq_true] at hkeep
      exact ⟨hkeep.1, .inl hkeep.2⟩
    · have hself : (us'.sch.req e.1).status = .waitingForStreamingReq ∨
          (us'.sch.req e.1).status = .waiting := by
        cases hgoes.rearmed with
        | waits _ _ _ hstatus _ => exact .inl hstatus
        | goesOn _ _ _ hstatus _ => exact .inr hstatus
      have hothers : ∀ x, x ≠ e.1 → us'.sch.req x = us.sch.req x := fun x hx =>
        (hgoes.others x hx).trans (hans.others x hx)
      have hrequests : us'.sch.requests = us.sch.requests := hgoes.requests.trans hkept.1
      refine .of_status (hrequests ▸ id) (fun x _ hx => hrequests ▸ hx)
        (hgoes.finishedReqIds.trans hkept.2) (fun x => ?_) fun x hx => ?_
      · by_cases hxr : x = e.1
        · rw [hxr, hlive, Request.isFinished]
          rcases hself with h | h <;> rw [h] <;> rfl
        · rw [hothers x hxr]
      · by_cases hxr : x = e.1
        · rw [hxr] at hx
          rcases hself with h | h <;> rw [h] at hx <;> cases hx
        · rwa [hothers x hxr] at hx

omit [KVCacheManager K] [EncoderCache E] in
/-- Recomputations end no request. -/
theorem Recomputes.reports (h : Recomputes s s') : Reports cfg delayFree s s' := by
  obtain ⟨objs, kv, failedRecving, hsame⟩ := h.same
  refine .of_same (by rw [hsame]) (by rw [hsame]) fun r => ?_
  obtain ⟨n, hn⟩ := h.req r
  rw [hn]

omit [KVCacheManager K] [EncoderCache E] in
/-- Transfers end no request. -/
theorem Transferred.reports (h : Transferred s s') : Reports cfg delayFree s s' := by
  obtain ⟨requests, finishedRecving, kv, hsame⟩ := h.same
  exact .of_same h.requests (by rw [hsame]) fun r => by
    rw [hsame]
    rfl

/-- Failing the requests whose blocks did not load reports them. -/
theorem failKvLoads_reports {failed : List ReqId} (hknown : ∀ r ∈ s.requests, r ∈ s.objs.keys)
    (hfail : s.failKvLoads cfg mro failed = .ok s') : Reports cfg mro.delayFree s s' := by
  unfold failKvLoads at hfail
  split at hfail
  · cases hfail
    exact .refl _ _ _
  · split at hfail
    · cases hfail
    · exact finishRequests_reports hknown hfail

/-- Answering a step reports the requests that it ends. -/
theorem updateFromOutput_reports (h : Coherent s)
    (hupdate : s.updateFromOutput cfg out mro = .ok s') : Reports cfg mro.delayFree s s' := by
  obtain ⟨failed, s₁, us, s₂, -, hrec, hfold, hfail, htransfer⟩ := updateFromOutput_eq_ok hupdate
  obtain ⟨hcoherent, hloop⟩ := processOutputs_rule
    (I := fun _ us => Reports cfg mro.delayFree s₁ us.sch) (h.recomputes hrec) hfold (.refl _ _ _)
    fun _ _ _ _ _ _ hI hreports hround =>
      hreports.trans (processOutput_reports hI.requests_known hround)
  have hremoved : Reports cfg mro.delayFree us.sch (removeStopped us) :=
    .of_same (List.Sublist.refl _) rfl fun _ => rfl
  exact (((hrec.reports.trans hloop).trans hremoved).trans
    (failKvLoads_reports hcoherent.finish.requests_known hfail)).trans htransfer.reports

end Scheduler

/-- The statuses that a step may leave a request of its queues in. -/
def RequestStatus.Queueable (cfg : Config) (status : RequestStatus) : Prop :=
  status.isFinished = false ∧ status ≠ .waitingForStreamingReq ∧
    (cfg.connector = false → status ≠ .waitingForRemoteKvs)

namespace RequestStatus.Queueable

variable {cfg : Config}

/-- A request that runs can be queued. -/
theorem running : Queueable cfg .running := ⟨rfl, by decide, fun _ => by decide⟩

/-- A preempted request can be queued. -/
theorem preempted : Queueable cfg .preempted := ⟨rfl, by decide, fun _ => by decide⟩

/-- With a KV connector a request that loads can be queued. -/
theorem loading (h : cfg.connector = true) : Queueable cfg .waitingForRemoteKvs :=
  ⟨rfl, by decide, fun hc => by simp [hc] at h⟩

end RequestStatus.Queueable

namespace LoopState

variable {K E : Type} {cfg : Config} {env : StepEnv} {x r q : ReqId} {args : AllocateSlotsArgs}
  {ls ls' : LoopState K E}

/-- The status of a request after a status was assigned to some request. -/
theorem queueable_modify {objs : Objs} {f : Request → Request}
    (h : (objs.req x).status.Queueable cfg)
    (hf : ∀ q : Request, q.status.Queueable cfg → (f q).status.Queueable cfg) :
    (Objs.req (objs.modify r f) x).status.Queueable cfg := by
  rcases Objs.req_modify_cases objs r f x with hsame | ⟨-, hsame⟩
  · rw [hsame]
    exact h
  · rw [hsame]
    exact hf _ h

variable [KVCacheManager K] [EncoderCache E]

/-- Preempting a victim leaves a request queueable. -/
theorem preemptVictim_queueable {v : ReqId} {kv : K}
    (hvictim : (ls.setKv kv).preemptVictim v = .ok ls') (h : (ls.req x).status.Queueable cfg) :
    (ls'.req x).status.Queueable cfg := by
  obtain ⟨ls₁, qm', -, -, -, rfl⟩ := preemptVictim_eq_ok hvictim
  exact queueable_modify h fun _ _ => .preempted

/-- The allocation loop leaves a request queueable. -/
theorem allocLoop_queueable {res : Option KVCacheBlocks}
    (hloop : ls.allocLoop q args = .ok (res, ls')) (h : (ls.req x).status.Queueable cfg) :
    (ls'.req x).status.Queueable cfg := by
  obtain ⟨t, ht, hexit⟩ := allocLoop_outcome hloop
  have ht : (t.req x).status.Queueable cfg :=
    alloc_invariant (I := fun t => (t.req x).status.Queueable cfg) ht h
      fun _ _ _ _ _ _ hI _ _ hvictim => preemptVictim_queueable hvictim hI
  cases hexit with
  | found | noneRunning | kept => exact ht
  | itself _ hvictim => exact preemptVictim_queueable hvictim ht

/-- A tail preemption leaves a request queueable. -/
theorem tailPreemptOne_queueable (htail : ls.tailPreemptOne r = .ok ls')
    (h : (ls.req x).status.Queueable cfg) : (ls'.req x).status.Queueable cfg := by
  rcases tailPreemptOne_cases htail with ⟨-, rfl⟩ | ⟨-, qm', -, rfl⟩
  · exact h
  · exact queueable_modify h fun _ _ => .preempted

omit [EncoderCache E] in
/-- Blocks are loaded only through a KV connector. -/
theorem connector_of_loadKvAsync {c : CachedPrefix} (h : ls.cachedPrefix cfg env r = .ok (some c))
    (hload : c.loadKvAsync = true) : cfg.connector = true := by
  by_contra hc
  unfold cachedPrefix at h
  simp only [if_neg hc] at h
  split at h
  · split at h <;> cases h
    cases hload
  · cases h
    cases hload

/-- A round that gives up no candidate leaves every request in a status that can be queued. -/
theorem round_queueable {p : Pass (LoopState K E) (LoopState K E)}
    (h : (ls.req x).status.Queueable cfg) (hround : RoundOutcome cfg env ls p)
    (hgood : ∀ q, ¬ RoundEvent cfg env ls (.ignore ls q)) :
    (p.state.req x).status.Queueable cfg := by
  cases hround with
  | exhausted | spent | preempted | stuck | passed => exact h
  | running htreats hR houtcome =>
    cases houtcome with
    | noTokens => exact h
    | noBlocks _ _ halloc => exact allocLoop_queueable halloc h
    | scheduled _ _ halloc hsched =>
      have h₁ := allocLoop_queueable halloc h
      obtain ⟨enc, spec, -, rfl⟩ := scheduleRunning_eq_ok hsched
      exact queueable_modify h₁ fun _ hq => hq
  | waiting htreats hR hW houtcome =>
    cases houtcome with
    | ignoredPrompt hsize => exact absurd (.ignorePrompt htreats hR hW hsize) (hgood _)
    | skipped _ hskip =>
      obtain ⟨qm', -, rfl⟩ := skip_eq_ok hskip
      exact h
    | ignoredEncoderInputs hc hg => exact absurd (.ignoreEncoderInputs htreats hR hW hc hg) (hgood _)
    | blocked => exact h
    | noBlocks _ _ halloc =>
      have h₁ := allocLoop_queueable halloc h
      dsimp only [Flow.toPass, Pass.state]
      split <;> exact h₁
    | loading hc _ halloc hload hskip =>
      have h₁ := allocLoop_queueable halloc h
      have hconnector := connector_of_loadKvAsync hc hload
      obtain ⟨qm', -, rfl⟩ := skip_eq_ok hskip
      exact queueable_modify h₁ fun _ _ => .loading hconnector
    | admitted _ _ halloc _ hadmitted =>
      have h₁ := allocLoop_queueable halloc h
      obtain ⟨newReqs, resumedReqs, qm', enc, -, -, -, rfl⟩ := admitWaiting_eq_ok hadmitted
      exact queueable_modify h₁ fun _ _ => .running

end LoopState

namespace Scheduler

variable {K E : Type} [KVCacheManager K] [EncoderCache E] {cfg : Config} {env : StepEnv}
  {s s' : Scheduler K E} {out : SchedulerOutput}

/-- No candidate is given up for good, and only first waiting requests are admitted. -/
def GivesUpNone : Event K E → Prop
  | .ignore _ _ => False
  | e => LoopState.AdmitsFirst e

omit [KVCacheManager K] [EncoderCache E] in
/-- An event that gives no request up admits the first candidate. -/
theorem GivesUpNone.admitsFirst {e : Event K E} (h : GivesUpNone e) : LoopState.AdmitsFirst e := by
  cases e with
  | ignore => exact h.elim
  | _ => exact h

/-- A step that gives up no candidate leaves each of its requests in a status that can be
queued. -/
theorem Walked.queueable {r : ReqId} {ls : LoopState K E} (h : Coherent s)
    (hgood : StepMeets GivesUpNone cfg env s) (hr : (s.req r).status.Queueable cfg)
    (hwalked : Walked cfg env s ls) : (ls.req r).status.Queueable cfg := by
  refine hwalked.rule (I := fun t => (t.req r).status.Queueable cfg) (fun t hbegin => ?_)
    (fun t p ht hI hround => ?_) fun t x t' hI htail => LoopState.tailPreemptOne_queueable htail hI
  · obtain ⟨objs, requests, hsame, -, -, rfl⟩ := beginStep_eq_ok hbegin
    obtain ⟨p, hp⟩ := hsame.req r
    simpa only [LoopState.req, req, hp] using hr
  · have hsteady := ht.steady h fun t ht e he => (hgood t ht e he).admitsFirst
    exact LoopState.round_queueable hI
      (LoopState.round_outcome hsteady.parts.running_waiting hround) fun q => hgood t ht _

/-- A step hands the reported ids over to the workers. -/
theorem schedule_handsOver (hnodup : (s.running ++ s.waiting.items).Nodup)
    (hschedule : schedule cfg env s = .ok (out, s')) :
    out.finishedReqIds = s.finishedReqIds ∧ s'.finishedReqIds = ∅ := by
  obtain ⟨ls, hwalked, hfinish⟩ := schedule_eq_ok hschedule
  obtain ⟨ls₀, hbegin, hmoves⟩ := hwalked.moves hnodup
    (fun _ _ _ _ => trivial : StepMeets (fun _ => True) cfg env s)
  obtain ⟨objs, qm, kv, enc, hsch⟩ := hmoves.frame.sch
  obtain ⟨_, _, -, -, -, rfl⟩ := beginStep_eq_ok hbegin
  have hfin := finishStep_spec hfinish
  exact ⟨by rw [hfin.finishedReqIds, hsch], hfin.noneFinished⟩

end Scheduler

end RpsServe
