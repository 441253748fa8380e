import RpsServe.Scheduler.Operations

/-!
# Ending requests

What `_free_request` and `finish_requests` do to the scheduler: the ended requests are put
into `finished_req_ids` and leave `self.requests` unless the KV connector keeps their
blocks, and no other request is touched.
-/

namespace RpsServe

namespace Scheduler

variable {K E : Type}

/-- What ending the requests `ids` does, apart from the queues. -/
structure Ended (cfg : Config) (ids : List ReqId) (s s' : Scheduler K E) : Prop where
  running : s'.running = s.running
  waiting : s'.waiting = s.waiting
  skippedWaiting : s'.skippedWaiting = s.skippedWaiting
  pauseState : s'.pauseState = s.pauseState
  numWaiting : s'.numWaitingForStreamingInput = s.numWaitingForStreamingInput
  keys : s'.objs.keys = s.objs.keys
  others : ∀ r ∉ ids, s'.req r = s.req r
  finished : ∀ r ∈ ids, r ∈ s.objs.keys → (s'.req r).isFinished = true
  finishedReqIds : s'.finishedReqIds = s.finishedReqIds ∪ ids.toFinset
  requests : s'.requests.Sublist s.requests
  stays : ∀ r ∉ ids, r ∈ s.requests → r ∈ s'.requests
  gone : cfg.connector = false → (∀ r ∈ s.requests, (s.req r).status ≠ .waitingForRemoteKvs) →
    s.requests.Nodup → ∀ r ∈ ids, r ∉ s'.requests

namespace Ended

variable {cfg : Config} {ids ids' : List ReqId} {r : ReqId} {s s₁ s' : Scheduler K E}

/-- Ending no request leaves the state as it is. -/
theorem refl (cfg : Config) (s : Scheduler K E) : Ended cfg [] s s where
  running := rfl
  waiting := rfl
  skippedWaiting := rfl
  pauseState := rfl
  numWaiting := rfl
  keys := rfl
  others _ _ := rfl
  finished r hr := absurd hr List.not_mem_nil
  finishedReqIds := by simp
  requests := List.Sublist.refl _
  stays _ _ hr := hr
  gone _ _ _ r hr := absurd hr List.not_mem_nil

/-- Requests that are ended one after the other are all ended. -/
theorem trans (h : Ended cfg ids s s₁) (h' : Ended cfg ids' s₁ s') :
    Ended cfg (ids ++ ids') s s' where
  running := h'.running.trans h.running
  waiting := h'.waiting.trans h.waiting
  skippedWaiting := h'.skippedWaiting.trans h.skippedWaiting
  pauseState := h'.pauseState.trans h.pauseState
  numWaiting := h'.numWaiting.trans h.numWaiting
  keys := h'.keys.trans h.keys
  others r hr := by
    rw [List.mem_append, not_or] at hr
    exact (h'.others r hr.2).trans (h.others r hr.1)
  finished r hr hk := by
    by_cases hr' : r ∈ ids'
    · exact h'.finished r hr' (h.keys ▸ hk)
    · rw [h'.others r hr']
      exact h.finished r ((List.mem_append.mp hr).resolve_right hr') hk
  finishedReqIds := by
    rw [h'.finishedReqIds, h.finishedReqIds, List.toFinset_append, Finset.union_assoc]
  requests := h'.requests.trans h.requests
  stays r hr hmem := by
    rw [List.mem_append, not_or] at hr
    exact h'.stays r hr.2 (h.stays r hr.1 hmem)
  gone hc hremote hnodup r hr hmem := by
    have hgone := h.gone hc hremote hnodup
    have hremote' : ∀ x ∈ s₁.requests, (s₁.req x).status ≠ .waitingForRemoteKvs := fun x hx =>
      h.others x (fun hids => hgone x hids hx) ▸ hremote x (h.requests.subset hx)
    rcases List.mem_append.mp hr with hr | hr
    · exact hgone r hr (h'.requests.subset hmem)
    · exact h'.gone hc hremote' (hnodup.sublist h.requests) r hr hmem

/-- Ending one request. -/
theorem single {objs : Objs} {requests : List ReqId} (hkeys : objs.keys = s.objs.keys)
    (hothers : ∀ x, x ≠ r → objs.req x = s.req x)
    (hfinished : r ∈ s.objs.keys → (objs.req r).isFinished = true)
    (hrequests : requests = s.requests ∨ requests = s.requests.erase r)
    (hgone : cfg.connector = false → r ∈ s.requests →
      (s.req r).status ≠ .waitingForRemoteKvs → requests = s.requests.erase r)
    (hs' : ∃ kv enc finishedRecving failedRecving, s' = { s with
      objs := objs
      requests := requests
      finishedReqIds := insert r s.finishedReqIds
      finishedRecvingKvReqIds := finishedRecving
      failedRecvingKvReqIds := failedRecving
      kv := kv
      enc := enc }) : Ended cfg [r] s s' := by
  obtain ⟨kv, enc, finishedRecving, failedRecving, rfl⟩ := hs'
  have hsub : requests.Sublist s.requests := by
    rcases hrequests with rfl | rfl
    exacts [List.Sublist.refl _, List.erase_sublist]
  exact {
    running := rfl
    waiting := rfl
    skippedWaiting := rfl
    pauseState := rfl
    numWaiting := rfl
    keys := hkeys
    others := fun x hx => hothers x fun hEq => hx (hEq ▸ List.mem_singleton_self r)
    finished := fun x hx hk => by
      obtain rfl := List.mem_singleton.mp hx
      exact hfinished hk
    finishedReqIds := by
      ext x
      simp
    requests := hsub
    stays := fun x hx hxs => by
      have hne : x ≠ r := fun hEq => hx (hEq ▸ List.mem_singleton_self r)
      rcases hrequests with h | h <;> rw [h]
      exacts [hxs, (List.mem_erase_of_ne hne).mpr hxs]
    gone := fun hc hremote hnodup x hx hxs => by
      obtain rfl := List.mem_singleton.mp hx
      have hmem := hsub.subset hxs
      rw [hgone hc hmem (hremote x hmem)] at hxs
      exact hnodup.not_mem_erase hxs }

/-- Ending a request whose object was changed before. -/
theorem of_object {objs : Objs} {kv : K} {enc : E} (hkeys : objs.keys = s.objs.keys)
    (hothers : ∀ x, x ≠ r → objs.req x = s.req x) (hfin : (objs.req r).isFinished = true)
    (h : Ended cfg [r] { s with objs := objs, kv := kv, enc := enc } s') : Ended cfg [r] s s' where
  running := h.running
  waiting := h.waiting
  skippedWaiting := h.skippedWaiting
  pauseState := h.pauseState
  numWaiting := h.numWaiting
  keys := h.keys.trans hkeys
  others x hx := (h.others x hx).trans (hothers x fun hEq => hx (hEq ▸ List.mem_singleton_self r))
  finished x hx hk := h.finished x hx (hkeys ▸ hk)
  finishedReqIds := h.finishedReqIds
  requests := h.requests
  stays := h.stays
  gone hc hremote := h.gone hc fun x hx hstatus => by
    by_cases hxr : x = r
    · have hno : (objs.req r).status.isFinished = true := hfin
      rw [← hxr, show (objs.req x).status = .waitingForRemoteKvs from hstatus] at hno
      cases hno
    · exact hremote x hx (hothers x hxr ▸ hstatus)

end Ended

variable [KVCacheManager K] [EncoderCache E] {cfg : Config} {delayFree : ReqId → Bool}
  {delayed : Bool} {finishedStatus : RequestStatus} {r : ReqId} {s s' : Scheduler K E}

omit [EncoderCache E] in
/-- Freeing the blocks of a finished request takes it out of the requests. -/
theorem freeBlocks_eq_ok (h : s.freeBlocks r = .ok s') :
    (s.req r).isFinished = true ∧ r ∈ s.requests ∧
      s' = { s with kv := KVCacheManager.free s.kv r, requests := s.requests.erase r } := by
  unfold freeBlocks at h
  split at h
  · cases h
  · rename_i hfin
    split at h
    · cases h
    · rename_i hmem
      cases h
      exact ⟨by simpa using hfin, by simpa using hmem, rfl⟩

/-- What `_free_request` does. -/
theorem freeRequest_eq_ok (h : s.freeRequest cfg delayFree r delayed = .ok s') :
    (s.req r).isFinished = true ∧ ∃ kv, s' = { s with
      kv := kv
      enc := EncoderCache.free s.enc (s.req r)
      finishedReqIds := insert r s.finishedReqIds
      requests := if delayed || (cfg.connector && delayFree r) then s.requests
        else s.requests.erase r } := by
  unfold freeRequest at h
  split at h
  · cases h
  · rename_i hfin
    refine ⟨by simpa using hfin, ?_⟩
    dsimp only at h
    split at h
    · rename_i hkeep
      cases h
      exact ⟨_, by rw [if_pos hkeep]⟩
    · rename_i hkeep
      obtain ⟨-, -, rfl⟩ := freeBlocks_eq_ok h
      exact ⟨_, by rw [if_neg hkeep]⟩

/-- Only a request whose blocks are kept stays in `self.requests`. -/
theorem freeRequest_kept (h : s.freeRequest cfg delayFree r delayed = .ok s')
    (hnodup : s.requests.Nodup) (hmem : r ∈ s'.requests) :
    (delayed || (cfg.connector && delayFree r)) = true := by
  obtain ⟨-, kv, rfl⟩ := freeRequest_eq_ok h
  by_contra hfree
  rw [if_neg hfree] at hmem
  exact hnodup.not_mem_erase hmem

/-- `_free_request` ends a request that has a finished status. -/
theorem freeRequest_ended (h : s.freeRequest cfg delayFree r = .ok s') : Ended cfg [r] s s' := by
  obtain ⟨hfin, kv, rfl⟩ := freeRequest_eq_ok h
  refine .single rfl (fun _ _ => rfl) (fun _ => hfin) ?_ (fun hc _ _ => ?_) ⟨_, _, _, _, rfl⟩
  · split
    exacts [.inl rfl, .inr rfl]
  · simp [hc]

/-- Ending a request that is there ends it. -/
theorem finishOne_ended (hstatus : finishedStatus.isFinished = true)
    (h : s.finishOne cfg delayFree finishedStatus r = .ok s') : Ended cfg [r] s s' := by
  obtain ⟨-, kv, rfl⟩ := freeRequest_eq_ok h
  refine .single (keys_modifyReq _ _ _) (fun x hx => req_modifyReq_ne hx) (fun hk => ?_) ?_
    (fun hc _ hs => ?_) ⟨_, _, _, _, rfl⟩
  · rw [← req, req_modifyReq_self hk]
    exact hstatus
  · split
    exacts [.inl rfl, .inr rfl]
  · simp [hc, hs]

/-- The second pass of `finish_requests` ends the listed requests. -/
theorem finishAll_ended {ids : List ReqId} (hstatus : finishedStatus.isFinished = true)
    (h : ids.foldlM (finishOne cfg delayFree finishedStatus) s = .ok s') :
    Ended cfg ids s s' := by
  induction ids generalizing s with
  | nil =>
    cases h
    exact .refl cfg _
  | cons r rest ih =>
    obtain ⟨t, ht, hrest⟩ := foldlM_cons_eq_ok.mp h
    exact (finishOne_ended hstatus ht).trans (ih hrest)

/-- `finish_requests` takes the valid requests out of the queues and ends them. -/
theorem finishRequests_ended {ids : Option (List ReqId)}
    (h : s.finishRequests cfg delayFree ids finishedStatus = .ok s') :
    Ended cfg (s.validRequests ids) (s.dequeue (s.validRequests ids)) s' := by
  unfold finishRequests at h
  split at h
  · cases h
  · rename_i hstatus
    exact finishAll_ended (by simpa using hstatus) h

omit [KVCacheManager K] [EncoderCache E] in
/-- The valid requests are live ones. -/
theorem mem_validRequests {ids : Option (List ReqId)} (h : r ∈ s.validRequests ids) :
    r ∈ s.requests ∧ (s.req r).isFinished = false := by
  simpa using (List.mem_filter.mp h).2

end Scheduler

/-! ### Taking requests out of a queue -/

/-- Removing requests from a list without repetitions filters them out. -/
theorem removeAll_eq_filter {l : List ReqId} (h : l.Nodup) (items : Finset ReqId) :
    removeAll l items = l.filter fun r => r ∉ items := by
  unfold removeAll
  split
  · rename_i hcard
    obtain ⟨a, rfl⟩ := Finset.card_eq_one.mp hcard
    have herase : (l.eraseP fun r => decide (r ∈ ({a} : Finset ReqId))) = l.erase a := by
      rw [List.erase_eq_eraseP]
      congr 1
      ext r
      simp [beq_eq_decide, eq_comm]
    rw [herase, h.erase_eq_filter]
    congr 1
    ext r
    simp [bne, beq_eq_decide]
  · rfl

/-- How often a request occurs in a list that others were filtered out of. -/
theorem count_filter_notMem (l stopped : List ReqId) (r : ReqId) :
    (l.filter fun x => decide (x ∉ stopped)).count r = if r ∈ stopped then 0 else l.count r := by
  split
  · rename_i hr
    exact List.count_eq_zero_of_not_mem fun hmem => by simp [hr] at hmem
  · rename_i hr
    exact List.count_filter (by simpa using hr)

/-- Removing requests from a list keeps a sublist of it. -/
theorem removeAll_sublist (l : List ReqId) (items : Finset ReqId) :
    (removeAll l items).Sublist l := by
  unfold removeAll
  split
  exacts [List.eraseP_sublist, List.filter_sublist]

namespace Scheduler

variable {K E : Type} {s : Scheduler K E} {r : ReqId} {valid : List ReqId}

/-- The waiting queue without the dequeued requests. -/
theorem dequeue_waiting_perm : (s.dequeue valid).waiting.items.Perm
    (s.waiting.items.filter fun r =>
      r ∉ valid.filter fun r => (s.req r).status ≠ RequestStatus.running) := by
  unfold dequeue
  dsimp only
  split
  · rename_i hnone
    rw [hnone]
    simp
  · exact RequestQueue.items_removeRequests_perm _ _ _

/-- Dequeuing takes the requests that do not run out of the second waiting queue. -/
theorem dequeue_skippedWaiting_perm : (s.dequeue valid).skippedWaiting.items.Perm
    (s.skippedWaiting.items.filter fun r =>
      r ∉ valid.filter fun r => (s.req r).status ≠ RequestStatus.running) := by
  unfold dequeue
  dsimp only
  split
  · rename_i hnone
    rw [hnone]
    simp
  · exact RequestQueue.items_removeRequests_perm _ _ _

end Scheduler

end RpsServe
