import RpsServe.Scheduler.Touch
import RpsServe.Scheduler.Answer
import RpsServe.Scheduler.Run
import RpsServe.Scheduler.Conservation

/-!
# Objects under their own ids

The cache managers are handed request objects and read the id off them. Every object is
stored under its own id and every queued or live request has an object, in all runs.
-/

namespace RpsServe

namespace Scheduler

variable {K E : Type} {cfg : Config} {env : StepEnv} {s s' : Scheduler K E} {r : ReqId}

/-- The objects carry the ids they are stored under, and there is one for every queued and for
every live request. -/
structure Named (s : Scheduler K E) : Prop where
  ids : ∀ r ∈ s.objs.keys, (s.req r).requestId = r
  queued_known : ∀ r ∈ s.queued, r ∈ s.objs.keys
  requests_known : ∀ r ∈ s.requests, r ∈ s.objs.keys

namespace Named

/-- Keeping the ids of the objects, and queueing nothing new. -/
theorem of_ids (h : Named s) (hkeys : s'.objs.keys = s.objs.keys)
    (hids : ∀ r, (s'.req r).requestId = (s.req r).requestId) (hqueued : s'.queued ⊆ s.queued)
    (hrequests : s'.requests ⊆ s.requests) : Named s' where
  ids r hr := by
    rw [hids]
    exact h.ids r (hkeys ▸ hr)
  queued_known r hr := hkeys ▸ h.queued_known r (hqueued hr)
  requests_known r hr := hkeys ▸ h.requests_known r (hrequests hr)

/-- Changing a request without its id keeps the names. -/
theorem modify {f : Request → Request} (h : Named s) (hf : ∀ q, (f q).requestId = q.requestId) :
    Named (s.modifyReq r f) :=
  h.of_ids (keys_modifyReq _ _ _) (modifyReq_keeps s r f Request.requestId hf)
    (List.Subset.refl _) (List.Subset.refl _)

/-- Changing the caches keeps the names. -/
theorem caches (h : Named s) (kv : K) (enc : E) : Named { s with kv := kv, enc := enc } :=
  ⟨h.ids, h.queued_known, h.requests_known⟩

/-- A known request may enter a waiting queue. -/
theorem enqueue (h : Named s) (hr : r ∈ s.objs.keys) : Named (s.enqueueWaitingRequest r) := by
  have hqueued : ∀ x ∈ (s.enqueueWaitingRequest r).queued, x ∈ s.queued ∨ x = r := by
    intro x hx
    rw [mem_queued] at hx ⊢
    cases hb : (s.req r).status.isBlockedWaiting with
    | true =>
      obtain ⟨hwaiting, hskipped⟩ := enqueue_blocked hb
      obtain ⟨_, _, hsame⟩ := enqueue_same s r
      rw [hwaiting, hskipped.mem_iff, List.mem_append, List.mem_singleton] at hx
      have hrun : (s.enqueueWaitingRequest r).running = s.running := by rw [hsame]
      rw [hrun] at hx
      tauto
    | false =>
      obtain ⟨hwaiting, hskipped⟩ := enqueue_waiting hb
      obtain ⟨_, _, hsame⟩ := enqueue_same s r
      rw [hskipped, hwaiting.mem_iff, List.mem_append, List.mem_singleton] at hx
      have hrun : (s.enqueueWaitingRequest r).running = s.running := by rw [hsame]
      rw [hrun] at hx
      tauto
  obtain ⟨waiting, skippedWaiting, hsame⟩ := enqueue_same s r
  rw [hsame] at hqueued ⊢
  exact {
    ids := h.ids
    queued_known := fun x hx => (hqueued x hx).elim (h.queued_known x) fun hxr => hxr ▸ hr
    requests_known := h.requests_known }

end Named

/-- At the start there is nothing to name. -/
theorem init_named (cfg : Config) (kv : K) (enc : E) : Named (Scheduler.init cfg kv enc) where
  ids r hr := absurd hr List.not_mem_nil
  queued_known := by simp [init, queued]
  requests_known := by simp [init]

/-! ### Sessions -/

/-- The next chunk of a session keeps the names. -/
theorem updateRequestAsSession_named {update : StreamingUpdate} (h : Named s) :
    Named (s.updateRequestAsSession cfg r update) :=
  Named.modify (f := Request.updateAsSession cfg.blockHasher update)
    ⟨h.ids, h.queued_known, h.requests_known⟩ fun _ => rfl

/-- A stopped request keeps the names. -/
theorem handleStoppedRequest_named {finished : Bool} (h : Named s) (hr : r ∈ s.objs.keys)
    (hstop : handleStoppedRequest cfg s r = (finished, s')) : Named s' := by
  unfold handleStoppedRequest at hstop
  split at hstop
  · cases hstop
    exact h
  · split at hstop
    · cases hstop
      have hwaits := h.modify (r := r) (f := fun q => { q with status := .waitingForStreamingReq })
        fun _ => rfl
      exact Named.enqueue ⟨hwaits.ids, hwaits.queued_known, hwaits.requests_known⟩
        ((keys_modifyReq _ _ _).symm ▸ hr)
    · rename_i update rest hqueue
      have hpopped := h.modify (r := r) (f := fun q => { q with streamingQueue := some rest })
        fun _ => rfl
      cases update with
      | none =>
        cases hstop
        exact hpopped
      | some update =>
        cases hstop
        refine (updateRequestAsSession_named hpopped).enqueue ?_
        exact (keys_modifyReq _ _ _).symm ▸ (keys_modifyReq s _ _).symm ▸ hr

variable [KVCacheManager K] [EncoderCache E]

/-! ### Finishing -/

/-- Freeing a request keeps the names. -/
theorem freeRequest_named {delayFree : ReqId → Bool} {delayed : Bool} (h : Named s)
    (hfree : s.freeRequest cfg delayFree r delayed = .ok s') : Named s' := by
  obtain ⟨-, kv, rfl⟩ := freeRequest_eq_ok hfree
  refine h.of_ids rfl (fun _ => rfl) (List.Subset.refl _) ?_
  dsimp only
  split
  exacts [List.Subset.refl _, List.erase_subset]

/-- Ending requests keeps the names. -/
theorem finishRequests_named {delayFree : ReqId → Bool} {ids : Option (List ReqId)}
    {status : RequestStatus} (h : Named s)
    (hfinish : s.finishRequests cfg delayFree ids status = .ok s') : Named s' := by
  unfold finishRequests at hfinish
  split at hfinish
  · cases hfinish
  · have hdequeued : Named (s.dequeue (s.validRequests ids)) :=
      h.of_ids rfl (fun _ => rfl) (dequeue_subperm s _).subset (List.Subset.refl _)
    refine foldlM_invariant (I := Named) hfinish hdequeued fun r _ t t' hI hone => ?_
    obtain ⟨-, kv, rfl⟩ := freeRequest_eq_ok hone
    refine hI.of_ids (keys_modifyReq t r _)
      (modifyReq_keeps t r (fun q => { q with status := status }) Request.requestId fun _ => rfl)
      (List.Subset.refl _) ?_
    dsimp only
    split
    exacts [List.Subset.refl _, List.erase_subset]

/-! ### Answers -/

/-- Appending tokens leaves the id of a request. -/
theorem appendUntilStop_requestId {tokens kept : List Token} {q q' : Request} {stopped : Bool}
    (h : appendUntilStop cfg tokens q = .ok (kept, q', stopped)) : q'.requestId = q.requestId := by
  induction tokens generalizing q kept with
  | nil =>
    cases h
    rfl
  | cons token rest ih =>
    obtain ⟨status, -, h⟩ := bind_eq_ok.mp h
    cases status with
    | some status =>
      cases h
      rfl
    | none =>
      obtain ⟨⟨kept', q₁, stopped₁⟩, happend, h⟩ := bind_eq_ok.mp h
      cases h
      have hrest := ih happend
      exact hrest

/-- Rejecting drafts leaves the id of a request. -/
theorem rejectDraftTokens_requestId (spec tokens : List Token) (q : Request) :
    (rejectDraftTokens spec tokens q).requestId = q.requestId := by
  unfold rejectDraftTokens
  split <;> rfl

omit [EncoderCache E] in
/-- Writing the output of a request keeps the names. -/
theorem updateRequestWithOutput_named {tokens kept : List Token} {stopped : Bool} (h : Named s)
    (hr : r ∈ s.objs.keys)
    (hupdate : s.updateRequestWithOutput cfg r tokens = .ok (kept, stopped, s')) : Named s' := by
  have hwrite : ∀ (kv : K) {q' : Request}, q'.requestId = (s.req r).requestId →
      Named ({ s with kv := kv }.modifyReq r fun _ => q') := by
    intro kv q' hid
    refine Named.of_ids (h.caches kv s.enc) (keys_modifyReq _ _ _) (fun x => ?_)
      (List.Subset.refl _) (List.Subset.refl _)
    by_cases hx : x = r
    · subst hx
      exact (congrArg Request.requestId (Objs.req_modify_self (f := fun _ => q') hr)).trans hid
    · exact congrArg Request.requestId (Objs.req_modify_ne (f := fun _ => q') hx)
  unfold updateRequestWithOutput at hupdate
  dsimp only at hupdate
  split at hupdate
  · cases hupdate
    exact h.modify fun _ => rfl
  · obtain ⟨⟨kept', q', stopped'⟩, happend, hupdate⟩ := bind_eq_ok.mp hupdate
    have hid := appendUntilStop_requestId happend
    split at hupdate
    · cases hupdate
      exact hwrite s.kv hid
    · dsimp only at hupdate
      split at hupdate
      · cases hupdate
      · obtain ⟨kv, -, hupdate⟩ := bind_eq_ok.mp hupdate
        cases hupdate
        exact hwrite kv hid

/-- The answer to a request keeps the names. -/
theorem answerRequest_named {out : SchedulerOutput} {mro : ModelRunnerOutput}
    {before : RequestStatus} {stopped : Bool} (h : Named s) (hr : r ∈ s.objs.keys)
    (hanswer : answerRequest cfg out mro r s = .ok (before, stopped, s')) : Named s' := by
  obtain ⟨⟨kept, stopped₁, t⟩, happly, hanswer⟩ := bind_eq_ok.mp hanswer
  set s₁ := s.modifyReq r (rejectDraftTokens
    ((out.scheduledSpecDecodeTokens.get? r).getD []) (mro.sampledTokenIds r)) with hs₁
  have h₁ : Named s₁ := h.modify (rejectDraftTokens_requestId _ _)
  have hr₁ : r ∈ s₁.objs.keys := (keys_modifyReq s r _).symm ▸ hr
  have h₂ : ∀ enc, Named { s₁ with enc := enc } := fun enc => h₁.caches s₁.kv enc
  have ht : Named t := by
    have hfreed : ∀ enc, applyOutput cfg mro { s₁ with enc := enc } r (mro.sampledTokenIds r) =
        .ok (kept, stopped₁, t) → Named t := by
      intro enc happly
      unfold applyOutput at happly
      split at happly
      · exact updateRequestWithOutput_named (h₂ enc) hr₁ happly
      · split at happly
        · cases happly
          exact (h₂ enc).modify fun _ => rfl
        · cases happly
          exact h₂ enc
    split at happly
    exacts [hfreed _ happly, hfreed s₁.enc happly]
  have hgrammar : Named (t.applyGrammar mro r kept stopped₁).2 := by
    unfold applyGrammar
    split
    exacts [ht.modify fun _ => rfl, ht]
  cases hanswer
  split
  · exact hgrammar.modify (f := fun q => { q with prefillStats := false }) fun _ => rfl
  · exact hgrammar

/-- Stopping a request keeps the names. -/
theorem stopRequest_named {delayFree : ReqId → Bool} {before : RequestStatus}
    {us us' : UpdateState K E} (h : Named s) (hr : r ∈ s.objs.keys)
    (hstop : stopRequest cfg delayFree us r before s = .ok us') : Named us'.sch := by
  obtain ⟨t, ht, hstop⟩ := bind_eq_ok.mp hstop
  have hnamed : Named t := by
    cases hhandled : handleStoppedRequest cfg s r with
    | mk finished s₁ =>
      have h₁ := handleStoppedRequest_named h hr hhandled
      rw [hhandled] at ht
      cases finished with
      | true => exact freeRequest_named h₁ ht
      | false =>
        cases ht
        exact h₁
  split at hstop <;> cases hstop <;> exact hnamed

/-- An entry of the output keeps the names. -/
theorem processOutput_named {out : SchedulerOutput} {mro : ModelRunnerOutput}
    {failed : List ReqId} {us us' : UpdateState K E} {e : ReqId × ℤ} (h : Named us.sch)
    (hround : processOutput cfg out mro failed us e = .ok us') : Named us'.sch := by
  cases processOutput_outcome hround with
  | passed hus =>
    subst hus
    exact h
  | answered hmem _ hanswer hus =>
    subst hus
    exact answerRequest_named h (h.requests_known _ hmem) hanswer
  | stopped hmem _ hanswer hstop =>
    have hk := h.requests_known _ hmem
    obtain ⟨-, hans⟩ := answerRequest_answered hk hanswer
    exact stopRequest_named (answerRequest_named h hk hanswer) (hans.keys ▸ hk) hstop

/-- Updating from the output of the model keeps the names. -/
theorem updateFromOutput_named {out : SchedulerOutput} {mro : ModelRunnerOutput} (h : Named s)
    (hupdate : s.updateFromOutput cfg out mro = .ok s') : Named s' := by
  obtain ⟨failed, s₁, us, s₂, -, hrec, hfold, hfail, htransfer⟩ := updateFromOutput_eq_ok hupdate
  have h₁ : Named s₁ := by
    obtain ⟨objs, kv, failedRecving, hsame⟩ := hrec.same
    refine h.of_ids hrec.keys (fun r => ?_) ?_ ?_
    · obtain ⟨n, hn⟩ := hrec.req r
      rw [hn]
    · rw [hsame]
      exact List.Subset.refl _
    · rw [hsame]
      exact List.Subset.refl _
  have hloop : Named us.sch :=
    foldlM_invariant (I := fun us => Named us.sch) hfold h₁ fun _ _ _ _ hI hround =>
      processOutput_named hI hround
  have hremoved : Named (removeStopped us) := by
    refine hloop.of_ids rfl (fun _ => rfl) (fun r hr => ?_) (List.Subset.refl _)
    rw [mem_queued] at hr ⊢
    refine hr.imp (fun hr => ?_) (Or.imp_left fun hr => ?_)
    · unfold removeStopped at hr
      dsimp only at hr
      split at hr
      exacts [hr, (removeAll_sublist _ _).subset hr]
    · exact (List.mem_filter.mp (removeStopped_waiting.mem_iff.mp hr)).1
  have h₂ : Named s₂ := by
    unfold failKvLoads at hfail
    split at hfail
    · cases hfail
      exact hremoved
    · split at hfail
      · cases hfail
      · exact finishRequests_named hremoved hfail
  obtain ⟨requests, finishedRecving, kv, hsame⟩ := htransfer.same
  refine h₂.of_ids (by rw [hsame]) (fun r => ?_) ?_ htransfer.requests.subset
  · rw [hsame]
    rfl
  · rw [hsame]
    exact List.Subset.refl _

/-! ### The other operations -/

/-- Adding a request keeps the names. -/
theorem addRequest_named {delayFree : ReqId → Bool} {request : Request} (h : Named s)
    (hadd : s.addRequest cfg delayFree request = .ok s') : Named s' := by
  unfold addRequest at hadd
  dsimp only at hadd
  split at hadd
  · split at hadd
    · split at hadd
      · cases hadd
      · cases hadd
        exact h.modify fun _ => rfl
    · split at hadd
      · cases hadd
        exact updateRequestAsSession_named h
      · exact finishRequests_named h hadd
  · cases hadd
    set q : Request := { request.create cfg.blockHasher with
      streamingQueue := if (request.create cfg.blockHasher).resumable then some [] else none }
    have hset : Named { s with objs := s.objs.set q.requestId q } := {
      ids := fun r hr => by
        by_cases hq : r = q.requestId
        · subst hq
          simp [req, Objs.req, Dict.get?_set_self]
        · rw [Dict.mem_keys_set] at hr
          simpa [req, Objs.req, Dict.get?_set_ne _ _ (Ne.symm hq)] using
            h.ids r (hr.resolve_left hq)
      queued_known := fun r hr => (Dict.mem_keys_set _ _ _ _).mpr (.inr (h.queued_known r hr))
      requests_known := fun r hr => (Dict.mem_keys_set _ _ _ _).mpr (.inr (h.requests_known r hr)) }
    have hmem : q.requestId ∈ (s.objs.set q.requestId q).keys :=
      (Dict.mem_keys_set _ _ _ _).mpr (.inl rfl)
    have hentered := hset.enqueue hmem
    obtain ⟨waiting, skippedWaiting, hsame⟩ :=
      enqueue_same { s with objs := s.objs.set q.requestId q } q.requestId
    refine ⟨hentered.ids, hentered.queued_known, fun r hr => ?_⟩
    rcases List.mem_append.mp hr with hr | hr
    · exact hentered.requests_known r hr
    · rw [List.mem_singleton.mp hr, hsame]
      exact hmem

/-- Resetting a running request keeps the names. -/
theorem resetRunningOne_named (h : Named s) (hreset : s.resetRunningOne r = .ok s') : Named s' := by
  obtain ⟨t, ht, hreset⟩ := bind_eq_ok.mp hreset
  obtain ⟨-, rfl⟩ := preemptRequest_eq_ok ht
  cases hreset
  have hpreempted := Named.modify (r := r) (f := preempted)
    (h.caches (KVCacheManager.free s.kv r) (EncoderCache.free s.enc (s.req r))) fun _ => rfl
  exact hpreempted.modify fun _ => rfl

/-- Resetting the prefix cache keeps the names. -/
theorem resetPrefixCache_named {reset ok : Bool} (h : Named s)
    (hreset : s.resetPrefixCache reset = .ok (ok, s')) : Named s' := by
  unfold resetPrefixCache at hreset
  split at hreset
  · obtain ⟨t, ht, hreset⟩ := bind_eq_ok.mp hreset
    obtain ⟨t₁, hall, ht⟩ := bind_eq_ok.mp ht
    cases ht
    have hnone : Named { s with running := [] } :=
      h.of_ids rfl (fun _ => rfl) (fun r hr => by
        rw [mem_queued] at hr ⊢
        exact .inr (hr.resolve_left List.not_mem_nil)) (List.Subset.refl _)
    have ht₁ : Named t₁ := foldlM_invariant (I := Named) hall hnone fun _ _ _ _ hI hone =>
      resetRunningOne_named hI hone
    dsimp only at hreset
    split at hreset
    · cases hreset
      exact ⟨ht₁.ids, ht₁.queued_known, ht₁.requests_known⟩
    · cases hreset
  · cases hreset
    exact h.caches _ s.enc

omit [KVCacheManager K] [EncoderCache E] in
/-- Drafts keep the names. -/
theorem updateDraftTokenIds_named {validateTokens : ReqId → List Token → List Token}
    {drafts : List (ReqId × List Token)} (h : Named s) :
    Named (s.updateDraftTokenIds validateTokens drafts) := by
  obtain ⟨⟨objs, hsame⟩, hkeys, hreq⟩ := updateDraftTokenIds_same validateTokens s drafts
  refine h.of_ids hkeys (fun r => ?_) ?_ ?_
  · obtain ⟨spec, hspec⟩ := hreq r
    rw [hspec]
  · rw [hsame]
    exact List.Subset.refl _
  · rw [hsame]
    exact List.Subset.refl _

/-! ### A step -/

omit [KVCacheManager K] [EncoderCache E] in
/-- The rebuilt queues hold requests of the combined list. -/
theorem updateQueues_subset {qm : QueueManager} {req : ReqId → Request} {rs : List ReqId}
    {wq : RequestQueue} (h : qm.updateQueues req = .ok (rs, wq)) :
    rs ++ wq.items ⊆ qm.combined := by
  have hrebuilt : ∀ l, (qm.rebuildWaiting req l).items ⊆ l := fun l =>
    (QueueManager.rebuildWaiting_items_perm l).subset
  unfold QueueManager.updateQueues at h
  split at h
  · cases h
    exact List.append_subset.mpr ⟨List.filter_sublist.subset,
      List.Subset.trans (hrebuilt _) List.filter_sublist.subset⟩
  · split at h
    · split at h
      · cases h
        exact List.append_subset.mpr ⟨List.take_subset _ _,
          List.Subset.trans (hrebuilt _) (List.drop_subset _ _)⟩
      · cases h
    · cases h
      exact List.append_subset.mpr ⟨List.Subset.refl _,
        List.Subset.trans (hrebuilt _) (List.nil_subset _)⟩
    · cases h
      exact List.append_subset.mpr ⟨List.nil_subset _, hrebuilt _⟩
    · cases h
      exact List.append_subset.mpr ⟨List.nil_subset _,
        List.Subset.trans (hrebuilt _) (List.nil_subset _)⟩

/-- The loop's variables name the requests as the scheduler does. -/
structure SameIds (s : Scheduler K E) (ls : LoopState K E) : Prop where
  sch : ls.sch.skippedWaiting = s.skippedWaiting ∧ ls.sch.requests.Perm s.requests
  keys : ls.sch.objs.keys = s.objs.keys
  combined : ls.qm.combined.Perm (s.running ++ s.waiting.items)
  ids : ∀ x, (ls.req x).requestId = (s.req x).requestId

omit [EncoderCache E] in
/-- The beginning of a step leaves the ids. -/
theorem beginStep_sameIds {ls : LoopState K E} (h : beginStep cfg env s = .ok ls) :
    SameIds s ls := by
  have hcombined := beginStep_combined h
  obtain ⟨objs, requests, hsame, hperm, -, rfl⟩ := beginStep_eq_ok h
  refine ⟨⟨rfl, hperm⟩, hsame.keys, hcombined, fun x => ?_⟩
  obtain ⟨p, hp⟩ := hsame.req x
  rw [LoopState.req, req, hp]
  rfl

/-- A step over requests that are queued once keeps the names. -/
theorem schedule_named_of_nodup {out : SchedulerOutput}
    (hnodup : (s.running ++ s.waiting.items).Nodup) (h : Named s)
    (hschedule : schedule cfg env s = .ok (out, s')) : Named s' := by
  have hframe := schedule_frame hnodup hschedule
  obtain ⟨ls, hwalked, hfinish⟩ := schedule_eq_ok hschedule
  obtain ⟨ls₀, hbegin, hmoves⟩ := hwalked.moves hnodup
    (fun _ _ _ _ => trivial : StepMeets (fun _ => True) cfg env s)
  have hids : ∀ r, (s'.req r).requestId = (s.req r).requestId := fun r => by
    obtain ⟨_, _, _, _, hsame⟩ := hmoves.frame.inputs r
    rw [(finishStep_spec hfinish).keeps (g := Request.requestId) (fun _ _ _ _ _ => rfl), hsame]
    exact (beginStep_sameIds hbegin).ids r
  refine ⟨fun r hr => (hids r).trans (h.ids r (hframe.keys ▸ hr)), fun r hr => ?_, fun r hr => ?_⟩
  · rw [hframe.keys]
    refine h.queued_known r ?_
    rw [queued, hframe.skippedWaiting] at hr
    exact (hframe.queued.append_right _).mem_iff.mp hr
  · rw [hframe.keys]
    exact h.requests_known r (hframe.requests.mem_iff.mp hr)

omit [EncoderCache E] in
/-- What touches one request leaves the ids. -/
theorem SameIds.touched {q : ReqId} {t t' : LoopState K E} (h : SameIds s t)
    (htouch : LoopState.Touches q t t') : SameIds s t' := by
  obtain ⟨_, _, _, _, hsch⟩ := htouch.sch
  refine ⟨by rw [hsch]; exact h.sch, htouch.keys.trans h.keys,
    htouch.combined ▸ h.combined, fun x => ?_⟩
  obtain ⟨_, _, _, _, hsame⟩ := htouch.inputs x
  rw [hsame]
  exact h.ids x

variable [SeparateKVCacheManager K]

/-- The rounds of a step leave the ids. -/
theorem Rounds.sameIds {ls : LoopState K E} (h : Rounds cfg env s ls) : SameIds s ls := by
  obtain ⟨ls₀, hbegin, hvisits⟩ := h
  refine hvisits.invariant (beginStep_sameIds hbegin) fun t t' _ hI hround => ?_
  rcases LoopState.round_touches hround with hall | ⟨q, -, htouch⟩
  exacts [hI.touched (hall 0), hI.touched htouch]

/-- In a round the objects carry the ids they are stored under. -/
theorem Rounds.ids {ls : LoopState K E} (h : Rounds cfg env s ls) (hs : Named s) :
    ∀ r ∈ ls.sch.objs.keys, (ls.req r).requestId = r := fun r hr =>
  (h.sameIds.ids r).trans (hs.ids r (h.sameIds.keys ▸ hr))

/-- The candidates of a round are known. -/
theorem Rounds.candidate_known {ls : LoopState K E} {q : ReqId} (h : Rounds cfg env s ls)
    (hs : Named s) (htreats : ls.Treats q) : q ∈ ls.sch.objs.keys := by
  have hq : q ∈ s.running ++ s.waiting.items :=
    h.sameIds.combined.subset (List.mem_of_getElem? htreats.stands)
  rw [h.sameIds.keys]
  exact hs.queued_known q (List.mem_append_left _ hq)

/-- The candidates of a round carry their ids. -/
theorem Rounds.candidate_id {ls : LoopState K E} {q : ReqId} (h : Named s)
    (hrounds : Rounds cfg env s ls) (htreats : ls.Treats q) : (ls.req q).requestId = q :=
  hrounds.ids h q (hrounds.candidate_known h htreats)

/-- The walk of a step leaves the ids. -/
theorem Walked.sameIds {ls : LoopState K E} (h : Walked cfg env s ls) : SameIds s ls :=
  h.touched (fun _ => beginStep_sameIds) (fun _ _ _ _ _ hI htouch => hI.touched htouch)
    fun _ _ hI hall => hI.touched (hall 0)

/-- A step keeps the names. -/
theorem schedule_named {out : SchedulerOutput} (h : Named s)
    (hschedule : schedule cfg env s = .ok (out, s')) : Named s' := by
  obtain ⟨ls, hwalked, hfinish⟩ := schedule_eq_ok hschedule
  have hsame := hwalked.sameIds
  have hfin := finishStep_spec hfinish
  have hkeys : s'.objs.keys = s.objs.keys := hfin.keys.trans hsame.keys
  refine ⟨fun r hr => ?_, fun r hr => ?_, fun r hr => ?_⟩
  · have hid : (ls.req r).requestId = r := (hsame.ids r).trans (h.ids r (hkeys ▸ hr))
    by_cases hsched : r ∈ ls.numScheduledTokens.keys
    · obtain ⟨⟨r, n⟩, hn, rfl⟩ := List.mem_map.mp hsched
      rw [(hfin.scheduled r n hn).2 (hfin.keys ▸ hr)]
      obtain ⟨_, _, _, hadv⟩ := advanceRequest_eq cfg n
        ((ls.scheduledSpecDecodeTokens.get? r).getD []).length (ls.req r)
      rw [hadv]
      exact hid
    · rw [hfin.unscheduled r hsched]
      exact hid
  · rw [hkeys]
    rw [mem_queued] at hr
    refine h.queued_known r (mem_queued.mpr ?_)
    have hrun : r ∈ s'.running ++ s'.waiting.items → r ∈ s.running ++ s.waiting.items :=
      fun hr => hsame.combined.subset (updateQueues_subset hfin.queues hr)
    simp only [List.mem_append] at hrun
    rw [hfin.skippedWaiting, hsame.sch.1] at hr
    tauto
  · rw [hkeys]
    rw [hfin.requests] at hr
    exact h.requests_known r (hsame.sch.2.subset hr)

end Scheduler

namespace System

open Scheduler

variable {K E : Type} [KVCacheManager K] [EncoderCache E] {cfg : Config} {sys sys' : System K E}

/-- Every operation but a step keeps the names. -/
theorem step_named_between {op : Op} (hop : op.isSchedule = false) (h : Named sys.sch)
    (hstep : sys.step cfg op = .ok sys') : Named sys'.sch := by
  cases op with
  | schedule => cases hop
  | addRequest request delayFree =>
    obtain ⟨sch, hadd, hs⟩ := bind_eq_ok.mp hstep
    cases hs
    exact addRequest_named h hadd
  | updateFromOutput i mro =>
    unfold step at hstep
    dsimp only at hstep
    split at hstep
    · cases hstep
    · obtain ⟨sch, hupdate, hs⟩ := bind_eq_ok.mp hstep
      cases hs
      exact updateFromOutput_named h hupdate
  | finishRequests ids status delayFree =>
    obtain ⟨sch, hfinish, hs⟩ := bind_eq_ok.mp hstep
    cases hs
    exact finishRequests_named h hfinish
  | setPauseState pauseState =>
    cases hstep
    exact ⟨h.ids, h.queued_known, h.requests_known⟩
  | resetPrefixCache reset =>
    obtain ⟨⟨ok, sch⟩, hreset, hs⟩ := bind_eq_ok.mp hstep
    cases hs
    exact resetPrefixCache_named h hreset
  | updateDraftTokenIds validateTokens drafts =>
    cases hstep
    exact updateDraftTokenIds_named h

variable [SeparateKVCacheManager K]

/-- Every operation keeps the names. -/
theorem step_named {op : Op} (h : Named sys.sch) (hstep : sys.step cfg op = .ok sys') :
    Named sys'.sch := by
  cases op with
  | schedule env =>
    obtain ⟨⟨out, sch⟩, hschedule, hs⟩ := bind_eq_ok.mp hstep
    cases hs
    exact schedule_named h hschedule
  | addRequest | updateFromOutput | finishRequests | setPauseState | resetPrefixCache
  | updateDraftTokenIds => exact step_named_between rfl h hstep

/-- In every run the objects are stored under their own ids. -/
theorem named_of_run {ok : System K E → Op → Prop} {kv : K} {enc : E}
    (h : Run cfg ok (init cfg kv enc) sys) : Named sys.sch :=
  h.invariant (I := fun sys => Named sys.sch) (init_named cfg kv enc)
    fun _ _ _ hI _ _ hstep => step_named hI hstep

end System

end RpsServe
