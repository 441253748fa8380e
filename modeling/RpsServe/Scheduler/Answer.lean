import RpsServe.Scheduler.Enter

/-!
# Answering a step

What `update_from_output` does for one request of the step: its answer is applied, and a
request that stops is ended, goes back into a waiting queue with the next chunk of its
session, or waits for one.
-/

namespace RpsServe

/-- `q'` is `q` after an answer: the session's chunks stay, and only a stop changes the status. -/
structure Request.AnsweredBy (stopped : Bool) (q q' : Request) : Prop where
  streamingQueue : q'.streamingQueue = q.streamingQueue
  resumable : q'.resumable = true → q.resumable = true
  status : stopped = false → q'.status = q.status
  finished : stopped = true → q'.isFinished = true

namespace Request.AnsweredBy

/-- A request is answered by nothing as it is. -/
theorem refl (q : Request) : q.AnsweredBy false q :=
  ⟨rfl, id, fun _ => rfl, fun h => nomatch h⟩

/-- Two answers after one another are one. -/
theorem trans {stopped : Bool} {q₁ q₂ q₃ : Request} (h : q₁.AnsweredBy false q₂)
    (h' : q₂.AnsweredBy stopped q₃) : q₁.AnsweredBy stopped q₃ where
  streamingQueue := h'.streamingQueue.trans h.streamingQueue
  resumable hr := h.resumable (h'.resumable hr)
  status hs := (h'.status hs).trans (h.status rfl)
  finished := h'.finished

end Request.AnsweredBy

/-- A request stops with a finished status. -/
theorem checkStop_finished {maxModelLen : ℕ} {q : Request} {status : RequestStatus}
    (h : checkStop maxModelLen q = .ok (some status)) : status.isFinished = true := by
  unfold checkStop at h
  grind [RequestStatus.isFinished]

/-- Appending tokens until one stops the request. -/
theorem appendUntilStop_answered {cfg : Config} {tokens kept : List Token} {q q' : Request}
    {stopped : Bool} (h : appendUntilStop cfg tokens q = .ok (kept, q', stopped)) :
    q.AnsweredBy stopped q' := by
  induction tokens generalizing q kept with
  | nil =>
    cases h
    exact .refl _
  | cons token rest ih =>
    obtain ⟨status, hstop, h⟩ := bind_eq_ok.mp h
    cases status with
    | some status =>
      cases h
      exact ⟨rfl, id, (fun h => nomatch h), fun _ => checkStop_finished hstop⟩
    | none =>
      obtain ⟨⟨kept', q₁, stopped₁⟩, hrest, h⟩ := bind_eq_ok.mp h
      cases h
      have hq := ih hrest
      exact ⟨hq.streamingQueue, hq.resumable, hq.status, hq.finished⟩

/-- Rejecting draft tokens is an answer that stops nothing. -/
theorem rejectDraftTokens_answered (spec tokens : List Token) (q : Request) :
    q.AnsweredBy false (Scheduler.rejectDraftTokens spec tokens q) := by
  unfold Scheduler.rejectDraftTokens
  split
  · exact .refl q
  · exact ⟨rfl, id, fun _ => rfl, fun h => nomatch h⟩

namespace Scheduler

variable {K E : Type}

/-- What applying the answer for `r` does: nothing but its object and the caches changes. -/
structure Answered (r : ReqId) (stopped : Bool) (s s' : Scheduler K E) : Prop where
  same : ∃ objs kv enc, s' = { s with objs := objs, kv := kv, enc := enc }
  keys : s'.objs.keys = s.objs.keys
  others : ∀ x, x ≠ r → s'.req x = s.req x
  answered : r ∈ s.objs.keys → (s.req r).AnsweredBy stopped (s'.req r)

namespace Answered

variable {r : ReqId} {stopped : Bool} {s s₁ s' : Scheduler K E}

/-- Two answers to a request after one another are one. -/
theorem trans (h : Answered r false s s₁) (h' : Answered r stopped s₁ s') :
    Answered r stopped s s' where
  same := by
    obtain ⟨_, _, _, h₁⟩ := h.same
    obtain ⟨_, _, _, h₂⟩ := h'.same
    exact ⟨_, _, _, by rw [h₂, h₁]⟩
  keys := h'.keys.trans h.keys
  others x hx := (h'.others x hx).trans (h.others x hx)
  answered hk := (h.answered hk).trans (h'.answered (h.keys ▸ hk))

/-- No answer leaves the state as it is. -/
theorem refl (r : ReqId) (s : Scheduler K E) : Answered r false s s :=
  ⟨⟨_, _, _, rfl⟩, rfl, fun _ _ => rfl, fun _ => .refl _⟩

/-- Changing the object of the request, and the caches. -/
theorem of_modify {f : Request → Request} {kv : K} {enc : E}
    (hf : r ∈ s.objs.keys → (s.req r).AnsweredBy stopped (f (s.req r))) :
    Answered r stopped s ({ s with kv := kv, enc := enc }.modifyReq r f) where
  same := ⟨_, _, _, rfl⟩
  keys := keys_modifyReq _ _ _
  others _ hx := Objs.req_modify_ne hx
  answered hk := by
    have hreq : ({ s with kv := kv, enc := enc }.modifyReq r f).req r = f (s.req r) :=
      Objs.req_modify_self hk
    rw [hreq]
    exact hf hk

/-- Changing the object of the request once more. -/
theorem modify {stopped' : Bool} {f : Request → Request} (h : Answered r stopped s s')
    (hf : (s.req r).AnsweredBy stopped (s'.req r) → (s.req r).AnsweredBy stopped' (f (s'.req r))) :
    Answered r stopped' s (s'.modifyReq r f) where
  same := by
    obtain ⟨_, _, _, hs'⟩ := h.same
    exact ⟨_, _, _, by rw [hs']; rfl⟩
  keys := (keys_modifyReq _ _ _).trans h.keys
  others x hx := (req_modifyReq_ne hx).trans (h.others x hx)
  answered hk := by
    rw [req_modifyReq_self (h.keys ▸ hk)]
    exact hf (h.answered hk)

end Answered

variable [KVCacheManager K] [EncoderCache E] {cfg : Config} {out : SchedulerOutput}
  {mro : ModelRunnerOutput} {r : ReqId} {s s' : Scheduler K E} {tokens kept : List Token}
  {stopped stopped' : Bool}

omit [EncoderCache E] in
/-- Writing the output of a request answers it. -/
theorem updateRequestWithOutput_answered
    (h : s.updateRequestWithOutput cfg r tokens = .ok (kept, stopped, s')) :
    Answered r stopped s s' := by
  unfold updateRequestWithOutput at h
  dsimp only at h
  split at h
  · cases h
    exact .of_modify fun _ => ⟨rfl, id, fun _ => rfl, fun h => nomatch h⟩
  · obtain ⟨⟨kept', q', stopped'⟩, happend, h⟩ := bind_eq_ok.mp h
    have hq := appendUntilStop_answered happend
    dsimp only at h
    split at h
    · cases h
      exact .of_modify fun _ => hq
    · split at h
      · cases h
      · obtain ⟨kv, -, h⟩ := bind_eq_ok.mp h
        cases h
        exact .of_modify fun _ => ⟨hq.streamingQueue, hq.resumable, hq.status, hq.finished⟩

omit [EncoderCache E] in
/-- Applying the output to a request answers it. -/
theorem applyOutput_answered (h : s.applyOutput cfg mro r tokens = .ok (kept, stopped, s')) :
    Answered r stopped s s' := by
  unfold applyOutput at h
  split at h
  · exact updateRequestWithOutput_answered h
  · split at h
    · cases h
      exact .of_modify fun _ => ⟨rfl, id, (fun h => nomatch h), fun _ => rfl⟩
    · cases h
      exact .refl r _

omit [KVCacheManager K] [EncoderCache E] in
/-- A grammar that rejects tokens ends the request after whatever the tokens did to it. -/
theorem applyGrammar_answered {t : Scheduler K E} (ht : Answered r stopped s t)
    (h : t.applyGrammar mro r kept stopped = (stopped', s')) : Answered r stopped' s s' := by
  unfold applyGrammar at h
  split at h
  · cases h
    exact ht.modify fun hq =>
      ⟨hq.streamingQueue, (fun h => nomatch h), (fun h => nomatch h), fun _ => rfl⟩
  · cases h
    exact ht

/-- What applying an answer does, and the status it reads before. -/
theorem answerRequest_answered {before : RequestStatus} (hk : r ∈ s.objs.keys)
    (h : answerRequest cfg out mro r s = .ok (before, stopped, s')) :
    before = (s.req r).status ∧ Answered r stopped s s' := by
  obtain ⟨⟨kept, stopped₁, t⟩, happly, h⟩ := bind_eq_ok.mp h
  have hreject : Answered r false s (s.modifyReq r (rejectDraftTokens
      ((out.scheduledSpecDecodeTokens.get? r).getD []) (mro.sampledTokenIds r))) :=
    .of_modify fun _ => rejectDraftTokens_answered _ _ _
  set s₁ := s.modifyReq r (rejectDraftTokens
    ((out.scheduledSpecDecodeTokens.get? r).getD []) (mro.sampledTokenIds r)) with hs₁
  have hfree : Answered r false s
      (if (s₁.req r).hasEncoderInputs then s₁.freeEncoderInputs cfg r else s₁) := by
    split
    · exact hreject.trans ⟨⟨_, _, _, rfl⟩, rfl, fun _ _ => rfl, fun _ => .refl _⟩
    · exact hreject
  have happlied := hfree.trans (applyOutput_answered happly)
  dsimp only at h
  cases h
  refine ⟨?_, ?_⟩
  · exact (hfree.answered hk).status rfl
  · have hgrammar := applyGrammar_answered happlied (Prod.mk.eta (p := t.applyGrammar mro r kept stopped₁)).symm
    split
    · exact hgrammar.modify fun hq => ⟨hq.streamingQueue, hq.resumable, hq.status, hq.finished⟩
    · exact hgrammar

omit [KVCacheManager K] [EncoderCache E] in
/-- A request that its answer stopped is ended. -/
theorem Answered.ended {s₁ : Scheduler K E} (h : Answered r true s s₁) (hk : r ∈ s.objs.keys)
    (hended : Ended cfg [r] s₁ s') : Ended cfg [r] s s' := by
  have hfin := (h.answered hk).finished rfl
  have hkeys := h.keys
  have hothers := h.others
  obtain ⟨objs, kv, enc, rfl⟩ := h.same
  exact .of_object hkeys hothers hfin hended

/-! ### A request that stops -/

/-- A stopped request is noted by the status it had. -/
structure Noted (r : ReqId) (before : RequestStatus) (us us' : UpdateState K E) : Prop where
  running : us'.stoppedRunningReqs =
    if before = .running then us.stoppedRunningReqs ++ [r] else us.stoppedRunningReqs
  preempted : us'.stoppedPreemptedReqs =
    if before = .running then us.stoppedPreemptedReqs else us.stoppedPreemptedReqs ++ [r]

omit [KVCacheManager K] [EncoderCache E] in
/-- A noted request is in one of the two lists, and no other request enters them. -/
theorem Noted.mem_running {before : RequestStatus} {us us' : UpdateState K E}
    (h : Noted r before us us') {x : ReqId} :
    x ∈ us'.stoppedRunningReqs ↔ x ∈ us.stoppedRunningReqs ∨ x = r ∧ before = .running := by
  rw [h.running]
  split <;> simp [*]

omit [KVCacheManager K] [EncoderCache E] in
/-- A request is noted as stopped in a waiting queue when it did not run before. -/
theorem Noted.mem_preempted {before : RequestStatus} {us us' : UpdateState K E}
    (h : Noted r before us us') {x : ReqId} :
    x ∈ us'.stoppedPreemptedReqs ↔ x ∈ us.stoppedPreemptedReqs ∨ x = r ∧ before ≠ .running := by
  rw [h.preempted]
  split <;> simp [*]

/-- What becomes of a session request that stops. -/
inductive Rearmed (r : ReqId) (s s' : Scheduler K E) : Prop
  /-- It waits for its next chunk. -/
  | waits : (s.req r).streamingQueue.getD [] = [] → s'.waiting = s.waiting →
      s'.skippedWaiting.items.Perm (s.skippedWaiting.items ++ [r]) →
      (s'.req r).status = .waitingForStreamingReq →
      s'.numWaitingForStreamingInput = s.numWaitingForStreamingInput + 1 → Rearmed r s s'
  /-- It goes on with its next chunk. -/
  | goesOn {update rest} : (s.req r).streamingQueue.getD [] = some update :: rest →
      s'.waiting.items.Perm (s.waiting.items ++ [r]) → s'.skippedWaiting = s.skippedWaiting →
      (s'.req r).status = .waiting →
      s'.numWaitingForStreamingInput = s.numWaitingForStreamingInput → Rearmed r s s'

/-- What a session request that goes on leaves alone. -/
structure GoesOn (r : ReqId) (s s' : Scheduler K E) : Prop where
  running : s'.running = s.running
  requests : s'.requests = s.requests
  finishedReqIds : s'.finishedReqIds = s.finishedReqIds
  pauseState : s'.pauseState = s.pauseState
  keys : s'.objs.keys = s.objs.keys
  others : ∀ x, x ≠ r → s'.req x = s.req x
  rearmed : Rearmed r s s'

omit [KVCacheManager K] [EncoderCache E] in
/-- A session request whose status and counter say that it waits for a chunk. -/
theorem goesOn_waits {t : Scheduler K E}
    (ht : ∃ objs, t = { s with
      objs := objs
      numWaitingForStreamingInput := s.numWaitingForStreamingInput + 1 })
    (hkeys : t.objs.keys = s.objs.keys) (hothers : ∀ x, x ≠ r → t.req x = s.req x)
    (hqueue : (s.req r).streamingQueue.getD [] = [])
    (hstatus : (t.req r).status = .waitingForStreamingReq) :
    GoesOn r s (t.enqueueWaitingRequest r) := by
  obtain ⟨hwaiting, hskipped⟩ := enqueue_blocked (by rw [hstatus]; rfl)
  obtain ⟨waiting, skippedWaiting, hsame⟩ := enqueue_same t r
  rw [hsame] at hwaiting hskipped ⊢
  obtain ⟨objs, rfl⟩ := ht
  exact ⟨rfl, rfl, rfl, rfl, hkeys, hothers, .waits hqueue hwaiting hskipped hstatus rfl⟩

omit [KVCacheManager K] [EncoderCache E] in
/-- A session request that goes on with its next chunk. -/
theorem goesOn_next {t : Scheduler K E} {update : StreamingUpdate}
    {rest : List (Option StreamingUpdate)} (ht : ∃ objs, t = { s with objs := objs })
    (hkeys : t.objs.keys = s.objs.keys) (hothers : ∀ x, x ≠ r → t.req x = s.req x)
    (hqueue : (s.req r).streamingQueue.getD [] = some update :: rest)
    (hstatus : (t.req r).status = .waiting) : GoesOn r s (t.enqueueWaitingRequest r) := by
  obtain ⟨hwaiting, hskipped⟩ := enqueue_waiting (by rw [hstatus]; rfl)
  obtain ⟨waiting, skippedWaiting, hsame⟩ := enqueue_same t r
  rw [hsame] at hwaiting hskipped ⊢
  obtain ⟨objs, rfl⟩ := ht
  exact ⟨rfl, rfl, rfl, rfl, hkeys, hothers, .goesOn hqueue hwaiting hskipped hstatus rfl⟩

omit [KVCacheManager K] [EncoderCache E] in
/-- The ways in which `_handle_stopped_request` treats a request that has a finished status. -/
theorem handleStoppedRequest_cases {finished : Bool} (hk : r ∈ s.objs.keys)
    (hfin : (s.req r).isFinished = true) (h : handleStoppedRequest cfg s r = (finished, s')) :
    (finished = true ∧ ∃ objs : Objs, s' = { s with objs := objs } ∧ objs.keys = s.objs.keys ∧
        (∀ x, x ≠ r → objs.req x = s.req x) ∧ (objs.req r).isFinished = true) ∨
      (finished = false ∧ (s.req r).resumable = true ∧ GoesOn r s s') := by
  unfold handleStoppedRequest at h
  split at h
  · cases h
    exact .inl ⟨rfl, s.objs, rfl, rfl, fun _ _ => rfl, hfin⟩
  · rename_i hres
    have hres : (s.req r).resumable = true := by simpa using hres
    split at h
    · rename_i hqueue
      cases h
      exact .inr ⟨rfl, hres, goesOn_waits ⟨_, rfl⟩ (keys_modifyReq _ _ _)
        (fun x hx => req_modifyReq_ne hx) hqueue
        (congrArg Request.status (req_modifyReq_self hk))⟩
    · rename_i update rest hqueue
      have hpop : ∀ x, x ≠ r → (s.modifyReq r fun q => { q with
          streamingQueue := some rest }).req x = s.req x := fun x hx => req_modifyReq_ne hx
      have hself : (s.modifyReq r fun q => { q with streamingQueue := some rest }).req r =
          { s.req r with streamingQueue := some rest } := req_modifyReq_self hk
      split at h
      · cases h
        exact .inl ⟨rfl, _, rfl, keys_modifyReq _ _ _, hpop,
          (congrArg Request.isFinished hself).trans hfin⟩
      · rename_i update
        cases h
        have hstop : (s.req r).status ≠ .waitingForStreamingReq := fun hEq => by
          rw [Request.isFinished, hEq] at hfin
          cases hfin
        have hk' : r ∈ (s.modifyReq r fun q => { q with streamingQueue := some rest }).objs.keys := by
          rwa [keys_modifyReq]
        have hnext := updateRequestAsSession_rearms cfg update hk'
        obtain ⟨objs, hsame⟩ := hnext.same
        rw [hself, if_neg hstop] at hsame
        exact .inr ⟨rfl, hres, goesOn_next ⟨objs, hsame⟩ (hnext.keys.trans (keys_modifyReq _ _ _))
          (fun x hx => (hnext.others x hx).trans (hpop x hx)) hqueue hnext.status⟩

/-- A request that stops is ended if it has finished, and goes on otherwise. -/
theorem stopRequest_cases {delayFree : ReqId → Bool} {before : RequestStatus}
    {us us' : UpdateState K E} (hk : r ∈ s.objs.keys) (hfin : (s.req r).isFinished = true)
    (h : stopRequest cfg delayFree us r before s = .ok us') :
    Noted r before us us' ∧
      ((handleStoppedRequest cfg s r).1 = true ∧ Ended cfg [r] s us'.sch ∧
          (s.requests.Nodup → r ∈ us'.sch.requests → (cfg.connector && delayFree r) = true) ∨
        (handleStoppedRequest cfg s r).1 = false ∧ (s.req r).resumable = true ∧
          GoesOn r s us'.sch) := by
  obtain ⟨t, ht, h⟩ := bind_eq_ok.mp h
  have hnoted : us'.sch = t ∧ Noted r before us us' := by
    split at h
    · rename_i hb
      cases h
      exact ⟨rfl, by simp [hb], by simp [hb]⟩
    · rename_i hb
      cases h
      exact ⟨rfl, by simp [hb], by simp [hb]⟩
  refine ⟨hnoted.2, ?_⟩
  rw [hnoted.1]
  cases hstop : handleStoppedRequest cfg s r with
  | mk finished s₁ =>
    rw [hstop] at ht
    rcases handleStoppedRequest_cases hk hfin hstop with
      ⟨rfl, objs, rfl, hkeys, hothers, hfin'⟩ | ⟨rfl, hres, hgoes⟩
    · refine .inl ⟨rfl, .of_object hkeys hothers hfin' (freeRequest_ended ht), fun hnodup hmem => ?_⟩
      exact freeRequest_kept ht hnodup hmem
    · cases ht
      exact .inr ⟨rfl, hres, hgoes⟩

/-- What becomes of a request that stops. -/
theorem stopRequest_outcome {delayFree : ReqId → Bool} {before : RequestStatus}
    {us us' : UpdateState K E} (hk : r ∈ s.objs.keys) (hfin : (s.req r).isFinished = true)
    (h : stopRequest cfg delayFree us r before s = .ok us') :
    Noted r before us us' ∧
      (Ended cfg [r] s us'.sch ∨ ((s.req r).resumable = true ∧ GoesOn r s us'.sch)) := by
  obtain ⟨hnoted, houtcome⟩ := stopRequest_cases hk hfin h
  exact ⟨hnoted, houtcome.imp (fun h => h.2.1) And.right⟩

/-! ### The loop over the requests of a step -/

/-- The ways in which the loop of `update_from_output` treats the request `r`. -/
inductive EntryOutcome (cfg : Config) (out : SchedulerOutput) (mro : ModelRunnerOutput) (r : ReqId)
    (us us' : UpdateState K E) : Prop
  | passed : us' = us → EntryOutcome cfg out mro r us us'
  | answered {before sch} : r ∈ us.sch.requests → (us.sch.req r).isFinished = false →
      answerRequest cfg out mro r us.sch = .ok (before, false, sch) →
      us' = { us with sch := sch } → EntryOutcome cfg out mro r us us'
  | stopped {before sch} : r ∈ us.sch.requests → (us.sch.req r).isFinished = false →
      answerRequest cfg out mro r us.sch = .ok (before, true, sch) →
      stopRequest cfg mro.delayFree us r before sch = .ok us' → EntryOutcome cfg out mro r us us'

/-- An entry of the output that is treated without error has one of the outcomes. -/
theorem processOutput_outcome {failedKvLoadReqIds : List ReqId} {us us' : UpdateState K E}
    {e : ReqId × ℤ} (h : processOutput cfg out mro failedKvLoadReqIds us e = .ok us') :
    EntryOutcome cfg out mro e.1 us us' := by
  unfold processOutput at h
  dsimp only at h
  split at h
  · cases h
  · split at h
    · cases h
      exact .passed rfl
    · split at h
      · cases h
        exact .passed rfl
      · rename_i hlive
        rw [not_or, not_not, Bool.not_eq_true] at hlive
        obtain ⟨⟨before, stopped, sch⟩, hanswer, h⟩ := bind_eq_ok.mp h
        cases stopped with
        | true => exact .stopped hlive.1 hlive.2 hanswer h
        | false =>
          cases h
          exact .answered hlive.1 hlive.2 hanswer rfl

section Removal

variable {us : UpdateState K E}

omit [KVCacheManager K] [EncoderCache E] in
/-- The running list without the requests that stopped. -/
theorem removeStopped_running (hrunning : us.sch.running.Nodup) :
    (removeStopped us).running = us.sch.running.filter fun r => r ∉ us.stoppedRunningReqs := by
  unfold removeStopped
  dsimp only
  split
  · rename_i hnone
    simp [hnone]
  · rw [removeAll_eq_filter hrunning]
    simp

omit [KVCacheManager K] [EncoderCache E] in
/-- The waiting queue without the requests that stopped. -/
theorem removeStopped_waiting : (removeStopped us).waiting.items.Perm
    (us.sch.waiting.items.filter fun r => r ∉ us.stoppedPreemptedReqs) := by
  unfold removeStopped
  dsimp only
  split
  · rename_i hnone
    simp [hnone]
  · exact RequestQueue.items_removeRequests_perm _ _ _

end Removal

/-! ### The answers of the KV connector -/

/-- What `_handle_invalid_blocks` leaves alone. -/
structure Recomputes (s s' : Scheduler K E) : Prop where
  same : ∃ objs kv failedRecving, s' = { s with
    objs := objs
    kv := kv
    failedRecvingKvReqIds := failedRecving }
  keys : s'.objs.keys = s.objs.keys
  req : ∀ r, ∃ n, s'.req r = { s.req r with numComputedTokens := n }

namespace Recomputes

variable {s₁ : Scheduler K E}

omit [KVCacheManager K] [EncoderCache E] in
/-- No recomputation leaves the state as it is. -/
theorem refl (s : Scheduler K E) : Recomputes s s :=
  ⟨⟨_, _, _, rfl⟩, rfl, fun _ => ⟨_, rfl⟩⟩

omit [KVCacheManager K] [EncoderCache E] in
/-- Two recomputations after one another are one. -/
theorem trans (h : Recomputes s s₁) (h' : Recomputes s₁ s') : Recomputes s s' where
  same := by
    obtain ⟨_, _, _, h₁⟩ := h.same
    obtain ⟨_, _, _, h₂⟩ := h'.same
    exact ⟨_, _, _, by rw [h₂, h₁]⟩
  keys := h'.keys.trans h.keys
  req r := by
    obtain ⟨n, hn⟩ := h.req r
    obtain ⟨n', hn'⟩ := h'.req r
    exact ⟨n', by rw [hn', hn]⟩

omit [KVCacheManager K] [EncoderCache E] in
/-- Setting the computed tokens of a request back is a recomputation. -/
theorem modify (s : Scheduler K E) (r : ReqId) (n : ℤ) :
    Recomputes s (s.modifyReq r fun q => { q with numComputedTokens := n }) where
  same := ⟨_, _, _, rfl⟩
  keys := keys_modifyReq _ _ _
  req x := by
    rcases Objs.req_modify_cases s.objs r (fun q => { q with numComputedTokens := n }) x with
      h | ⟨-, h⟩
    · exact ⟨(s.req x).numComputedTokens, h⟩
    · exact ⟨n, h⟩

end Recomputes

omit [EncoderCache E] in
/-- Treating a request with invalid blocks is a recomputation. -/
theorem updateInvalidOne_recomputes {invalid : Finset BlockId} {num : Dict ReqId ℤ} {evict : Bool}
    {iu iu' : InvalidUpdate K E}
    (h : updateInvalidOne cfg invalid num evict iu r = .ok iu') : Recomputes iu.sch iu'.sch := by
  unfold updateInvalidOne at h
  split at h
  · cases h
    exact .modify _ _ _
  · cases h

omit [EncoderCache E] in
/-- Treating requests with invalid blocks is a recomputation. -/
theorem updateRequestsWithInvalidBlocks_recomputes {invalid : Finset BlockId}
    {num : Dict ReqId ℤ} {evict : Bool} {ids : List ReqId} {iu : InvalidUpdate K E}
    (h : s.updateRequestsWithInvalidBlocks cfg ids invalid num evict = .ok iu) :
    Recomputes s iu.sch :=
  foldlM_invariant (I := fun iu => Recomputes s iu.sch) h (.refl s)
    fun _ _ _ _ hI hone => hI.trans (updateInvalidOne_recomputes hone)

omit [EncoderCache E] in
/-- Handling invalid blocks is a recomputation. -/
theorem handleInvalidBlocks_recomputes {invalid : Finset BlockId} {num : Dict ReqId ℤ}
    {ids : List ReqId} (h : s.handleInvalidBlocks cfg invalid num = .ok (ids, s')) :
    Recomputes s s' := by
  obtain ⟨async, hasync, h⟩ := bind_eq_ok.mp h
  obtain ⟨sync, hsync, h⟩ := bind_eq_ok.mp h
  have hboth := (updateRequestsWithInvalidBlocks_recomputes hasync).trans
    (updateRequestsWithInvalidBlocks_recomputes hsync)
  dsimp only at h
  split at h
  · cases h
    exact hboth
  · split at h
    · cases h
      split
      · exact hboth
      · exact hboth.trans ⟨⟨_, _, _, rfl⟩, rfl, fun _ => ⟨_, rfl⟩⟩
    · cases h
      exact hboth.trans ⟨⟨_, _, _, rfl⟩, rfl, fun _ => ⟨_, rfl⟩⟩

/-- What the transfers that the KV connector reports as finished change. -/
structure Transferred (s s' : Scheduler K E) : Prop where
  same : ∃ requests finishedRecving kv, s' = { s with
    requests := requests
    finishedRecvingKvReqIds := finishedRecving
    kv := kv }
  requests : s'.requests.Sublist s.requests
  stays : ∀ r ∈ s.requests, (s.req r).isFinished = false → r ∈ s'.requests

namespace Transferred

variable {s₁ : Scheduler K E}

omit [KVCacheManager K] [EncoderCache E] in
/-- No transfer leaves the state as it is. -/
theorem refl (s : Scheduler K E) : Transferred s s :=
  ⟨⟨_, _, _, rfl⟩, List.Sublist.refl _, fun _ hr _ => hr⟩

omit [KVCacheManager K] [EncoderCache E] in
/-- Two transfers after one another are one. -/
theorem trans (h : Transferred s s₁) (h' : Transferred s₁ s') : Transferred s s' where
  same := by
    obtain ⟨_, _, _, h₁⟩ := h.same
    obtain ⟨_, _, _, h₂⟩ := h'.same
    exact ⟨_, _, _, by rw [h₂, h₁]⟩
  requests := h'.requests.trans h.requests
  stays r hr hlive := by
    have hreq : s₁.req r = s.req r := by
      obtain ⟨_, _, _, h₁⟩ := h.same
      rw [h₁]
      rfl
    exact h'.stays r (h.stays r hr hlive) (hreq ▸ hlive)

end Transferred

omit [EncoderCache E] in
/-- Freeing the blocks of a request is a transfer. -/
theorem freeBlocks_transferred (h : s.freeBlocks r = .ok s') : Transferred s s' := by
  obtain ⟨hfin, -, rfl⟩ := freeBlocks_eq_ok h
  refine ⟨⟨_, _, _, rfl⟩, List.erase_sublist, fun x hx hlive => ?_⟩
  have hne : x ≠ r := fun hEq => by simp [hEq, hfin] at hlive
  exact (List.mem_erase_of_ne hne).mpr hx

omit [EncoderCache E] in
/-- Taking note of finished transfers is a transfer. -/
theorem updateFromKvXferFinished_transferred {kco : KVConnectorOutput}
    (h : s.updateFromKvXferFinished kco = .ok s') : Transferred s s' := by
  obtain ⟨t, hrecv, hsend⟩ := bind_eq_ok.mp h
  have hrecv : Transferred s t :=
    foldlM_invariant (I := Transferred s) hrecv (.refl s) fun r _ u u' hI hone => by
      unfold finishedRecvingOne at hone
      split at hone
      · cases hone
      · split at hone
        · cases hone
          exact hI.trans ⟨⟨_, _, _, rfl⟩, List.Sublist.refl _, fun _ hr _ => hr⟩
        · exact hI.trans (freeBlocks_transferred hone)
  exact foldlM_invariant (I := Transferred s) hsend hrecv fun r _ u u' hI hone => by
    unfold finishedSendingOne at hone
    split at hone
    · cases hone
    · exact hI.trans (freeBlocks_transferred hone)

/-! ### The whole operation -/

/-- The parts of `update_from_output`. -/
theorem updateFromOutput_eq_ok (h : s.updateFromOutput cfg out mro = .ok s') :
    ∃ failed s₁ us s₂,
      s.reportedInvalidBlocks cfg out (mro.kvConnectorOutput.getD {}) = .ok (failed, s₁) ∧
      Recomputes s s₁ ∧
      out.numScheduledTokens.entries.foldlM (processOutput cfg out mro failed) { sch := s₁ } =
        .ok us ∧
      (removeStopped us).failKvLoads cfg mro failed = .ok s₂ ∧ Transferred s₂ s' := by
  obtain ⟨⟨failed, s₁⟩, hinvalid, h⟩ := bind_eq_ok.mp h
  obtain ⟨us, hfold, h⟩ := bind_eq_ok.mp h
  obtain ⟨s₂, hfail, h⟩ := bind_eq_ok.mp h
  refine ⟨failed, s₁, us, s₂, hinvalid, ?_, hfold, hfail, updateFromKvXferFinished_transferred h⟩
  unfold reportedInvalidBlocks at hinvalid
  split at hinvalid
  · cases hinvalid
    exact .refl s
  · exact handleInvalidBlocks_recomputes hinvalid

end Scheduler

end RpsServe
