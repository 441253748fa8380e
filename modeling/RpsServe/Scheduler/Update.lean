import RpsServe.Scheduler.Schedule
import RpsServe.Scheduler.CheckStop

/-!
# Operations between steps

Requests enter with `add_request`, their outputs come back with `update_from_output`, and
`finish_requests` ends them from outside. A resumable request is a streaming session: when
a chunk of it stops it goes back to a waiting queue with the next chunk, or waits for one.
-/

namespace RpsServe

/-- The answers of the worker-side KV connector for one step. -/
structure KVConnectorOutput where
  finishedRecving : List ReqId := []
  finishedSending : List ReqId := []
  invalidBlockIds : Finset BlockId := ∅

/-- The answer of the workers to one step, with what the grammars and the KV connector say while
it is processed. `poolerOutput` tells which requests have one, and `delayFree` for which requests
the connector keeps the blocks. -/
structure ModelRunnerOutput where
  sampledTokenIds : ReqId → List Token := fun _ => []
  poolerOutput : ReqId → Bool := fun _ => false
  shouldAdvance : ReqId → Bool := fun _ => false
  acceptTokens : ReqId → List Token → Bool := fun _ _ => true
  delayFree : ReqId → Bool := fun _ => false
  kvConnectorOutput : Option KVConnectorOutput := none

/-- `remove_all`: one item is removed where it occurs first, several are filtered out. -/
def removeAll (l : List ReqId) (itemsToRemove : Finset ReqId) : List ReqId :=
  if itemsToRemove.card = 1 then l.eraseP fun r => r ∈ itemsToRemove
  else l.filter fun r => r ∉ itemsToRemove

/-- `_update_request_as_session`: the next chunk follows the computed tokens. -/
def Request.updateAsSession (blockHasher : Request → List BlockHash) (update : StreamingUpdate)
    (q : Request) : Request :=
  let computed := q.allTokenIds.take q.numComputedTokens.toNat
  let keptOutputTokens := computed.drop q.numPromptTokens
  let mmFeatures := q.mmFeatures ++
    update.mmFeatures.map fun f => { f with offset := f.offset + computed.length }
  let promptTokenIds := q.promptTokenIds ++ keptOutputTokens ++ update.promptTokenIds
  let q := Request.updateBlockHashes blockHasher { q with
    outputTokenIds := []
    mmFeatures := mmFeatures
    allTokenIds := computed ++ update.promptTokenIds
    promptTokenIds := promptTokenIds }
  { q with
    numPromptTokens := promptTokenIds.length
    arrivalTime := update.arrivalTime
    samplingParams := update.samplingParams
    status := .waiting }

namespace Scheduler

variable {K E : Type}

/-- `_enqueue_waiting_request`. -/
def enqueueWaitingRequest (s : Scheduler K E) (r : ReqId) : Scheduler K E :=
  if (s.req r).status.isBlockedWaiting then
    { s with skippedWaiting := s.skippedWaiting.addRequest s.req r }
  else { s with waiting := s.waiting.addRequest s.req r }

/-- `_update_request_as_session`. -/
def updateRequestAsSession (cfg : Config) (s : Scheduler K E) (r : ReqId)
    (update : StreamingUpdate) : Scheduler K E :=
  let s := { s with numWaitingForStreamingInput :=
    if (s.req r).status = RequestStatus.waitingForStreamingReq then
      s.numWaitingForStreamingInput - 1
    else s.numWaitingForStreamingInput }
  s.modifyReq r (Request.updateAsSession cfg.blockHasher update)

/-- `_handle_stopped_request`: whether the request has finished. -/
def handleStoppedRequest (cfg : Config) (s : Scheduler K E) (r : ReqId) : Bool × Scheduler K E :=
  if ¬ (s.req r).resumable then (true, s)
  else
    match (s.req r).streamingQueue.getD [] with
    | [] =>
      let s := s.modifyReq r fun q => { q with status := .waitingForStreamingReq }
      let s := { s with numWaitingForStreamingInput := s.numWaitingForStreamingInput + 1 }
      (false, s.enqueueWaitingRequest r)
    | update :: rest =>
      let s := s.modifyReq r fun q => { q with streamingQueue := some rest }
      match update with
      | none => (true, s)
      | some update => (false, (s.updateRequestAsSession cfg r update).enqueueWaitingRequest r)

variable [KVCacheManager K] [EncoderCache E]

/-- `_free_blocks`. -/
def freeBlocks (s : Scheduler K E) (r : ReqId) : Except SchedError (Scheduler K E) :=
  if ¬ (s.req r).isFinished then .error .notFinished
  else if r ∉ s.requests then .error .keyError
  else .ok { s with kv := KVCacheManager.free s.kv r, requests := s.requests.erase r }

/-- `_free_request`; the KV connector may keep the blocks. -/
def freeRequest (cfg : Config) (delayFree : ReqId → Bool) (s : Scheduler K E) (r : ReqId)
    (delayFreeBlocks : Bool := false) : Except SchedError (Scheduler K E) :=
  if ¬ (s.req r).isFinished then .error .notFinished
  else
    let s := { s with
      kv := if cfg.connector then
        KVCacheManager.removeSkippedBlocks s.kv r (s.req r).numComputedTokens else s.kv
      enc := EncoderCache.free s.enc (s.req r)
      finishedReqIds := insert r s.finishedReqIds }
    if delayFreeBlocks || (cfg.connector && delayFree r) then .ok s else s.freeBlocks r

/-- The requests a finish signal is for: live ones, each once. -/
def validRequests (s : Scheduler K E) (requestIds : Option (List ReqId)) : List ReqId :=
  ((requestIds.getD s.requests).dedup).filter fun r => r ∈ s.requests && !(s.req r).isFinished

/-- The first pass of `finish_requests`: the requests are taken out of the queues. -/
def dequeue (s : Scheduler K E) (valid : List ReqId) : Scheduler K E :=
  let runningToRemove := valid.filter fun r => (s.req r).status = RequestStatus.running
  let waitingToRemove := valid.filter fun r => (s.req r).status ≠ RequestStatus.running
  { s with
    numWaitingForStreamingInput := s.numWaitingForStreamingInput -
      (valid.countP fun r => (s.req r).status = RequestStatus.waitingForStreamingReq)
    running := removeAll s.running runningToRemove.toFinset
    waiting := if waitingToRemove = [] then s.waiting
      else s.waiting.removeRequests s.req waitingToRemove
    skippedWaiting := if waitingToRemove = [] then s.skippedWaiting
      else s.skippedWaiting.removeRequests s.req waitingToRemove }

/-- The second pass of `finish_requests` for one request. -/
def finishOne (cfg : Config) (delayFree : ReqId → Bool) (finishedStatus : RequestStatus)
    (s : Scheduler K E) (r : ReqId) : Except SchedError (Scheduler K E) :=
  let remote : Bool := (s.req r).status = .waitingForRemoteKvs
  let delayFreeBlocks : Bool := remote ∧ r ∉ s.finishedRecvingKvReqIds
  let s := { s with
    finishedRecvingKvReqIds :=
      if remote then s.finishedRecvingKvReqIds.erase r else s.finishedRecvingKvReqIds
    failedRecvingKvReqIds :=
      if remote then s.failedRecvingKvReqIds.erase r else s.failedRecvingKvReqIds }
  (s.modifyReq r fun q => { q with status := finishedStatus }).freeRequest cfg delayFree r
    delayFreeBlocks

/-- `finish_requests`; without ids, every request is finished. -/
def finishRequests (cfg : Config) (delayFree : ReqId → Bool) (s : Scheduler K E)
    (requestIds : Option (List ReqId)) (finishedStatus : RequestStatus) :
    Except SchedError (Scheduler K E) :=
  if ¬ finishedStatus.isFinished then .error .notFinished
  else
    let valid := s.validRequests requestIds
    valid.foldlM (finishOne cfg delayFree finishedStatus) (s.dequeue valid)

/-- Async scheduling: the blocks whose tokens are confirmed are cached, except of a request that was
preempted. -/
def cacheConfirmed (kv : K) (statusBeforeUpdate : RequestStatus) (q : Request) :
    Except SchedError K :=
  if statusBeforeUpdate = .running then
    KVCacheManager.cacheBlocks kv q (q.numComputedTokens - q.numOutputPlaceholders)
  else .ok kv

/-- `_update_request_with_output`, in the class that `cfg` names: the tokens kept, and whether the
request stopped. -/
def updateRequestWithOutput (cfg : Config) (s : Scheduler K E) (r : ReqId) (tokens : List Token) :
    Except SchedError (List Token × Bool × Scheduler K E) :=
  let q := s.req r
  if cfg.asyncScheduling ∧ 0 < q.asyncTokensToDiscard then
    .ok ([], false, s.modifyReq r fun q => { q with
      asyncTokensToDiscard := q.asyncTokensToDiscard - 1 })
  else do
    let (kept, q', stopped) ← appendUntilStop cfg tokens q
    if ¬ cfg.asyncScheduling then .ok (kept, stopped, s.modifyReq r fun _ => q')
    else
      let q' := { q' with numOutputPlaceholders := q'.numOutputPlaceholders - kept.length }
      if q'.numOutputPlaceholders < 0 then .error .negativePlaceholders
      else do
        let kv ← cacheConfirmed s.kv q.status q'
        .ok (kept, stopped, { s with kv := kv }.modifyReq r fun _ => q')

/-- Take rejected draft tokens back. -/
def rejectDraftTokens (scheduledSpecTokenIds generatedTokenIds : List Token) (q : Request) :
    Request :=
  if scheduledSpecTokenIds = [] ∨ generatedTokenIds = [] then q
  else
    let numRejected : ℤ := scheduledSpecTokenIds.length - (generatedTokenIds.length - 1 : ℤ)
    { q with
      numComputedTokens :=
        if 0 < q.numComputedTokens then q.numComputedTokens - numRejected else q.numComputedTokens
      numOutputPlaceholders :=
        if 0 < q.numOutputPlaceholders then q.numOutputPlaceholders - numRejected
        else q.numOutputPlaceholders }

/-- One item of `_free_encoder_inputs`: it is free once it is in the decoder's KV cache. -/
def freeEncoderInputOne (cfg : Config) (q : Request) (enc : E) (i : ℕ) : E :=
  match q.mmFeatures[i]? with
  | none => enc
  | some f =>
    if (cfg.isEncoderDecoder ∧ 0 < q.numComputedTokens) ∨
        (f.offset : ℤ) + f.length ≤ q.numComputedTokens then
      EncoderCache.freeEncoderInput enc q i
    else enc

/-- `_free_encoder_inputs`. -/
def freeEncoderInputs (cfg : Config) (s : Scheduler K E) (r : ReqId) : Scheduler K E :=
  let q := s.req r
  { s with enc := (EncoderCache.getCachedInputIds s.enc q).foldl (freeEncoderInputOne cfg q) s.enc }

/-- The requests that stopped while the outputs were processed. -/
structure UpdateState (K E : Type) where
  sch : Scheduler K E
  stoppedRunningReqs : List ReqId := []
  stoppedPreemptedReqs : List ReqId := []

/-- `_free_request` of a stopped request that has finished. -/
def freeIfFinished (cfg : Config) (delayFree : ReqId → Bool) (r : ReqId) :
    Bool × Scheduler K E → Except SchedError (Scheduler K E)
  | (true, s) => s.freeRequest cfg delayFree r
  | (false, s) => .ok s

/-- A stopped request is finished or goes on as a session, and is noted by the status it had. -/
def stopRequest (cfg : Config) (delayFree : ReqId → Bool) (us : UpdateState K E) (r : ReqId)
    (statusBeforeStop : RequestStatus) (sch : Scheduler K E) :
    Except SchedError (UpdateState K E) := do
  let sch ← freeIfFinished cfg delayFree r (handleStoppedRequest cfg sch r)
  if statusBeforeStop = .running then
    .ok { us with sch := sch, stoppedRunningReqs := us.stoppedRunningReqs ++ [r] }
  else .ok { us with sch := sch, stoppedPreemptedReqs := us.stoppedPreemptedReqs ++ [r] }

/-- The tokens of a request are appended, or its pooler output ends it; the tokens kept, and
whether it stopped. -/
def applyOutput (cfg : Config) (mro : ModelRunnerOutput) (s : Scheduler K E) (r : ReqId)
    (generatedTokenIds : List Token) : Except SchedError (List Token × Bool × Scheduler K E) :=
  if generatedTokenIds ≠ [] then s.updateRequestWithOutput cfg r generatedTokenIds
  else if (s.req r).poolingParams ∧ mro.poolerOutput r then
    .ok ([], true, s.modifyReq r fun q => { q with status := .finishedStopped })
  else .ok ([], false, s)

/-- The grammar of a request may reject its new tokens, which ends it with an error. -/
def applyGrammar (mro : ModelRunnerOutput) (r : ReqId) (newTokenIds : List Token) (stopped : Bool)
    (s : Scheduler K E) : Bool × Scheduler K E :=
  if newTokenIds ≠ [] ∧ mro.shouldAdvance r ∧ ¬ mro.acceptTokens r newTokenIds then
    (true, s.modifyReq r fun q => { q with status := .finishedError, resumable := false })
  else (stopped, s)

/-- The part of the loop in `update_from_output` up to the stop: the status before it, whether the
request stopped, and the scheduler with the answer applied. -/
def answerRequest (cfg : Config) (out : SchedulerOutput) (mro : ModelRunnerOutput) (r : ReqId)
    (s : Scheduler K E) : Except SchedError (RequestStatus × Bool × Scheduler K E) := do
  let generatedTokenIds := mro.sampledTokenIds r
  let s := s.modifyReq r
    (rejectDraftTokens ((out.scheduledSpecDecodeTokens.get? r).getD []) generatedTokenIds)
  let s := if (s.req r).hasEncoderInputs then s.freeEncoderInputs cfg r else s
  let statusBeforeStop := (s.req r).status
  let (newTokenIds, stopped, s) ← s.applyOutput cfg mro r generatedTokenIds
  let (stopped, s) := s.applyGrammar mro r newTokenIds stopped
  let s := if newTokenIds ≠ [] ∨ mro.poolerOutput r ∨ stopped then
    s.modifyReq r fun q => { q with prefillStats := false } else s
  .ok (statusBeforeStop, stopped, s)

/-- One request of the loop in `update_from_output`. -/
def processOutput (cfg : Config) (out : SchedulerOutput) (mro : ModelRunnerOutput)
    (failedKvLoadReqIds : List ReqId) (us : UpdateState K E) (e : ReqId × ℤ) :
    Except SchedError (UpdateState K E) :=
  let r := e.1
  if e.2 ≤ 0 then .error .nothingScheduled
  else if r ∈ failedKvLoadReqIds then .ok us
  else if r ∉ us.sch.requests ∨ (us.sch.req r).isFinished then .ok us
  else do
    let (statusBeforeStop, stopped, sch) ← answerRequest cfg out mro r us.sch
    if stopped then stopRequest cfg mro.delayFree us r statusBeforeStop sch
    else .ok { us with sch := sch }

end Scheduler

end RpsServe
