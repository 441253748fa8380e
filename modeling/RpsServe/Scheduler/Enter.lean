import RpsServe.Scheduler.Finish

/-!
# Entering and resetting requests

What `add_request`, `reset_prefix_cache` and `update_draft_token_ids` do to the queues and
to the request objects.
-/

namespace RpsServe

namespace Scheduler

variable {K E : Type} {cfg : Config} {r : ReqId} {s s' : Scheduler K E}

/-- A request without a next chunk is put behind the ones that cannot be scheduled. -/
theorem enqueue_blocked (h : (s.req r).status.isBlockedWaiting = true) :
    (s.enqueueWaitingRequest r).waiting = s.waiting ∧
      (s.enqueueWaitingRequest r).skippedWaiting.items.Perm (s.skippedWaiting.items ++ [r]) := by
  unfold enqueueWaitingRequest
  rw [if_pos h]
  exact ⟨rfl, RequestQueue.items_addRequest_perm _ _ _⟩

/-- A request that is not blocked enters the first waiting queue. -/
theorem enqueue_waiting (h : (s.req r).status.isBlockedWaiting = false) :
    (s.enqueueWaitingRequest r).waiting.items.Perm (s.waiting.items ++ [r]) ∧
      (s.enqueueWaitingRequest r).skippedWaiting = s.skippedWaiting := by
  unfold enqueueWaitingRequest
  rw [if_neg (by simp [h])]
  exact ⟨RequestQueue.items_addRequest_perm _ _ _, rfl⟩

/-- Entering a waiting queue changes nothing but that queue. -/
theorem enqueue_same (s : Scheduler K E) (r : ReqId) : ∃ waiting skippedWaiting,
    s.enqueueWaitingRequest r = { s with waiting := waiting, skippedWaiting := skippedWaiting } := by
  unfold enqueueWaitingRequest
  split
  exacts [⟨_, _, rfl⟩, ⟨_, _, rfl⟩]

/-- What the next chunk of a session changes. -/
structure NextChunk (r : ReqId) (s s' : Scheduler K E) : Prop where
  same : ∃ objs, s' = { s with
    objs := objs
    numWaitingForStreamingInput := if (s.req r).status = .waitingForStreamingReq then
      s.numWaitingForStreamingInput - 1 else s.numWaitingForStreamingInput }
  keys : s'.objs.keys = s.objs.keys
  others : ∀ x, x ≠ r → s'.req x = s.req x
  status : (s'.req r).status = .waiting

/-- The next chunk of a session rearms its request. -/
theorem updateRequestAsSession_rearms (cfg : Config) (update : StreamingUpdate)
    (hk : r ∈ s.objs.keys) : NextChunk r s (s.updateRequestAsSession cfg r update) where
  same := ⟨_, rfl⟩
  keys := keys_modifyReq _ _ _
  others _ hx := req_modifyReq_ne hx
  status := congrArg Request.status (req_modifyReq_self hk)

variable [KVCacheManager K] [EncoderCache E]

/-- What admitting a new request changes. -/
structure Admitted (r : ReqId) (q : Request) (s s' : Scheduler K E) : Prop where
  requests : s'.requests = s.requests ++ [r]
  objs : s'.objs = s.objs.set r q
  running : s'.running = s.running
  finishedReqIds : s'.finishedReqIds = s.finishedReqIds
  pauseState : s'.pauseState = s.pauseState
  numWaiting : s'.numWaitingForStreamingInput = s.numWaitingForStreamingInput
  entered : s'.waiting.items.Perm (s.waiting.items ++ [r]) ∧ s'.skippedWaiting = s.skippedWaiting ∨
    s'.waiting = s.waiting ∧ s'.skippedWaiting.items.Perm (s.skippedWaiting.items ++ [r])

omit [KVCacheManager K] [EncoderCache E] in
/-- An admitted request is the one that came. -/
theorem Admitted.self {q : Request} (h : Admitted r q s s') : s'.req r = q := by
  simp [req, Objs.req, h.objs, Dict.get?_set_self]

omit [KVCacheManager K] [EncoderCache E] in
/-- Admitting a request leaves the others. -/
theorem Admitted.others {q : Request} (h : Admitted r q s s') {x : ReqId} (hx : x ≠ r) :
    s'.req x = s.req x := by
  simp [req, Objs.req, h.objs, Dict.get?_set_ne _ _ hx.symm]

omit [KVCacheManager K] [EncoderCache E] in
/-- A request enters one of the two waiting queues. -/
theorem enqueue_admitted (q : Request) : Admitted r q s
    (let t := { s with objs := s.objs.set r q }.enqueueWaitingRequest r
     { t with requests := t.requests ++ [r] }) := by
  set t := { s with objs := s.objs.set r q } with ht
  obtain ⟨waiting, skippedWaiting, hsame⟩ := enqueue_same t r
  have hentered : (t.enqueueWaitingRequest r).waiting.items.Perm (s.waiting.items ++ [r]) ∧
      (t.enqueueWaitingRequest r).skippedWaiting = s.skippedWaiting ∨
      (t.enqueueWaitingRequest r).waiting = s.waiting ∧
        (t.enqueueWaitingRequest r).skippedWaiting.items.Perm (s.skippedWaiting.items ++ [r]) := by
    cases hb : (t.req r).status.isBlockedWaiting with
    | true => exact .inr (enqueue_blocked hb)
    | false => exact .inl (enqueue_waiting hb)
  dsimp only
  rw [hsame] at hentered ⊢
  exact ⟨rfl, rfl, rfl, rfl, rfl, rfl, hentered⟩

/-- The ways in which `add_request` treats a request. -/
inductive AddOutcome (cfg : Config) (delayFree : ReqId → Bool) (request : Request)
    (s s' : Scheduler K E) : Prop
  /-- The chunk is queued up behind the session's others. -/
  | chunkQueued {queue} : request.requestId ∈ s.requests →
      s' = s.modifyReq request.requestId (fun q => { q with streamingQueue := some queue }) →
      AddOutcome cfg delayFree request s s'
  /-- The session was waiting for this chunk. -/
  | chunkTaken : request.requestId ∈ s.requests →
      (s.req request.requestId).status = .waitingForStreamingReq →
      (request.requestId ∈ s.objs.keys → NextChunk request.requestId s s') →
      AddOutcome cfg delayFree request s s'
  /-- The session ends while it waits for a chunk. -/
  | sessionEnded : request.requestId ∈ s.requests →
      s.finishRequests cfg delayFree (some [request.requestId]) .finishedAborted = .ok s' →
      AddOutcome cfg delayFree request s s'
  /-- A request that is not live is admitted. -/
  | admitted {q} : request.requestId ∉ s.requests → q.isFinished = false →
      q.status ≠ .running → q.status ≠ .waitingForRemoteKvs → q.status ≠ .waitingForStreamingReq →
      Admitted request.requestId q s s' → AddOutcome cfg delayFree request s s'

/-- Adding a request has one of the outcomes. -/
theorem addRequest_outcome {delayFree : ReqId → Bool} {request : Request}
    (h : s.addRequest cfg delayFree request = .ok s') : AddOutcome cfg delayFree request s s' := by
  unfold addRequest at h
  dsimp only at h
  have hid : (request.create cfg.blockHasher).requestId = request.requestId := rfl
  rw [hid] at h
  split at h
  · rename_i hmem
    split at h
    · rename_i hstatus
      split at h
      · cases h
      · cases h
        exact .chunkQueued hmem rfl
    · rename_i hstatus
      split at h
      · cases h
        exact .chunkTaken hmem (by simpa using hstatus)
          fun hk => updateRequestAsSession_rearms cfg _ hk
      · exact .sessionEnded hmem h
  · rename_i hmem
    cases h
    have hstatus : (request.create cfg.blockHasher).status = .waiting ∨
        (request.create cfg.blockHasher).status = .waitingForStructuredOutputGrammar := by
      simp only [Request.create, Request.updateBlockHashes]
      split
      exacts [.inr rfl, .inl rfl]
    refine .admitted hmem ?_ ?_ ?_ ?_ (enqueue_admitted _)
    all_goals
      dsimp only [Request.isFinished]
      rcases hstatus with h | h <;> rw [h] <;> decide

/-! ### Resetting the prefix cache -/

/-- What preempting the requests `rs` outside of a step does. -/
structure ResetAll (rs : List ReqId) (s s' : Scheduler K E) : Prop where
  same : ∃ objs kv enc, s' = { s with objs := objs, kv := kv, enc := enc }
  keys : s'.objs.keys = s.objs.keys
  others : ∀ r ∉ rs, s'.req r = s.req r
  wasRunning : ∀ r ∈ rs, (s.req r).status = .running
  preempted : ∀ r ∈ rs, r ∈ s.objs.keys → (s'.req r).status = .preempted

/-- Resetting a running request resets it. -/
theorem resetRunningOne_resets (h : s.resetRunningOne r = .ok s') : ResetAll [r] s s' := by
  obtain ⟨t, ht, h⟩ := bind_eq_ok.mp h
  obtain ⟨hstatus, rfl⟩ := preemptRequest_eq_ok ht
  cases h
  refine ⟨⟨_, _, _, rfl⟩, (keys_modifyReq _ _ _).trans (keys_modifyReq s r preempted),
    fun x hx => ?_, fun x hx => by rwa [List.mem_singleton.mp hx], fun x hx hk => ?_⟩
  · have hne : x ≠ r := fun hEq => hx (hEq ▸ List.mem_singleton_self r)
    exact (req_modifyReq_ne hne).trans (req_modifyReq_ne (s := s) hne)
  · obtain rfl := List.mem_singleton.mp hx
    have hk' : x ∈ (s.modifyReq x preempted).objs.keys := by rwa [keys_modifyReq]
    have hself : (s.modifyReq x preempted).req x = preempted (s.req x) := req_modifyReq_self hk
    exact congrArg Request.status ((req_modifyReq_self hk').trans (congrArg _ hself))

/-- Resetting running requests one by one resets them all. -/
theorem resetAll_spec {rs : List ReqId} (h : rs.foldlM resetRunningOne s = .ok s') :
    ResetAll rs s s' := by
  induction rs generalizing s with
  | nil =>
    cases h
    exact ⟨⟨_, _, _, rfl⟩, rfl, fun _ _ => rfl, by simp, by simp⟩
  | cons a rest ih =>
    obtain ⟨t, ht, hrest⟩ := foldlM_cons_eq_ok.mp h
    have hone := resetRunningOne_resets ht
    have hall := ih hrest
    have hother : ∀ x, x ≠ a → t.req x = s.req x := fun x hx => hone.others x (by simpa using hx)
    refine ⟨?_, hall.keys.trans hone.keys, fun x hx => ?_, fun x hx => ?_, fun x hx hk => ?_⟩
    · obtain ⟨_, _, _, h₁⟩ := hone.same
      obtain ⟨_, _, _, h₂⟩ := hall.same
      exact ⟨_, _, _, by rw [h₂, h₁]⟩
    · rw [List.mem_cons, not_or] at hx
      exact (hall.others x hx.2).trans (hother x hx.1)
    · by_cases hxa : x = a
      · exact hxa ▸ hone.wasRunning a (List.mem_singleton_self a)
      · exact hother x hxa ▸ hall.wasRunning x ((List.mem_cons.mp hx).resolve_left hxa)
    · by_cases hxr : x ∈ rest
      · exact hall.preempted x hxr (hone.keys ▸ hk)
      · obtain rfl := (List.mem_cons.mp hx).resolve_right hxr
        rw [hall.others x hxr]
        exact hone.preempted x (List.mem_singleton_self x) hk

/-- What `reset_prefix_cache(reset_running_requests=True)` does: the running requests are
preempted and in no queue. -/
structure ResetRunning (s s' : Scheduler K E) : Prop where
  same : ∃ objs kv enc, s' = { s with
    running := []
    prevStepScheduledReqIds := ∅
    objs := objs
    kv := kv
    enc := enc }
  keys : s'.objs.keys = s.objs.keys
  others : ∀ r ∉ s.running, s'.req r = s.req r
  wasRunning : ∀ r ∈ s.running, (s.req r).status = .running
  preempted : ∀ r ∈ s.running, r ∈ s.objs.keys → (s'.req r).status = .preempted

/-- What `reset_prefix_cache` does. -/
inductive ResetOutcome (resetRunningRequests : Bool) (s s' : Scheduler K E) : Prop
  | kept {kv} : resetRunningRequests = false → s' = { s with kv := kv } →
      ResetOutcome resetRunningRequests s s'
  | preempted : resetRunningRequests = true → ResetRunning s s' →
      ResetOutcome resetRunningRequests s s'

/-- Resetting the prefix cache has one of the outcomes. -/
theorem resetPrefixCache_outcome {resetRunningRequests successful : Bool}
    (h : s.resetPrefixCache resetRunningRequests = .ok (successful, s')) :
    ResetOutcome resetRunningRequests s s' := by
  unfold resetPrefixCache at h
  split at h
  · rename_i hreset
    obtain ⟨t, ht, h⟩ := bind_eq_ok.mp h
    obtain ⟨t₁, hall, ht⟩ := bind_eq_ok.mp ht
    cases ht
    dsimp only at h
    split at h
    · cases h
      have hall := resetAll_spec hall
      obtain ⟨objs, kv, enc, hsame⟩ := hall.same
      refine .preempted hreset ⟨⟨_, _, _, by rw [hsame]⟩, hall.keys, fun r hr => ?_, fun r hr => ?_,
        fun r hr hk => ?_⟩
      · exact hall.others r (by simpa using hr)
      · exact hall.wasRunning r (by simpa using hr)
      · exact hall.preempted r (by simpa using hr) hk
    · cases h
  · rename_i hreset
    cases h
    exact .kept (by simpa using hreset) rfl

/-! ### Draft tokens -/

omit [KVCacheManager K] [EncoderCache E] in
/-- Draft tokens change no other field of the requests. -/
theorem updateDraftTokenIds_same (validateTokens : ReqId → List Token → List Token)
    (s : Scheduler K E) (drafts : List (ReqId × List Token)) :
    (∃ objs, s.updateDraftTokenIds validateTokens drafts = { s with objs := objs }) ∧
      (s.updateDraftTokenIds validateTokens drafts).objs.keys = s.objs.keys ∧
      ∀ r, ∃ spec, (s.updateDraftTokenIds validateTokens drafts).req r =
        { s.req r with specTokenIds := spec } := by
  unfold updateDraftTokenIds
  induction drafts generalizing s with
  | nil => exact ⟨⟨_, rfl⟩, rfl, fun _ => ⟨_, rfl⟩⟩
  | cons e rest ih =>
    obtain ⟨⟨objs, hsame⟩, hkeys, hreq⟩ := ih (updateDraftTokenIdsOne validateTokens s e)
    have hone : (∃ objs, updateDraftTokenIdsOne validateTokens s e = { s with objs := objs }) ∧
        (updateDraftTokenIdsOne validateTokens s e).objs.keys = s.objs.keys ∧
        ∀ r, ∃ spec, (updateDraftTokenIdsOne validateTokens s e).req r =
          { s.req r with specTokenIds := spec } := by
      unfold updateDraftTokenIdsOne
      split
      · exact ⟨⟨_, rfl⟩, rfl, fun _ => ⟨_, rfl⟩⟩
      · refine ⟨⟨_, rfl⟩, keys_modifyReq _ _ _, fun r => ?_⟩
        rcases Objs.req_modify_cases s.objs e.1 (fun q => { q with
            specTokenIds := if q.isPrefillChunk then [] else validateTokens e.1 e.2 }) r with
          h | ⟨-, h⟩
        exacts [⟨(s.req r).specTokenIds, h⟩, ⟨_, h⟩]
    obtain ⟨⟨objs₁, hsame₁⟩, hkeys₁, hreq₁⟩ := hone
    rw [List.foldl_cons]
    refine ⟨⟨objs, by rw [hsame, hsame₁]⟩, hkeys.trans hkeys₁, fun r => ?_⟩
    obtain ⟨spec, h⟩ := hreq r
    obtain ⟨spec₁, h₁⟩ := hreq₁ r
    exact ⟨spec, by rw [h, h₁]⟩

end Scheduler

end RpsServe
