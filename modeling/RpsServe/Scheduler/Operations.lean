import RpsServe.Scheduler.KVTransfer

/-!
# The scheduler's interface

The operations that the engine calls between its steps.
-/

namespace RpsServe

namespace Scheduler

variable {K E : Type} [KVCacheManager K] [EncoderCache E]

/-- The requests whose load failed end with an error unless their blocks are recomputed. -/
def failKvLoads (cfg : Config) (mro : ModelRunnerOutput) (failedKvLoadReqIds : List ReqId)
    (s : Scheduler K E) : Except SchedError (Scheduler K E) :=
  if failedKvLoadReqIds = [] ∨ cfg.recomputeKvLoadFailures then .ok s
  else if ¬ failedKvLoadReqIds ⊆ s.requests then .error .keyError
  else s.finishRequests cfg mro.delayFree (some failedKvLoadReqIds) .finishedError

/-- The blocks that could not be loaded, and the requests to leave out of the output processing. -/
def reportedInvalidBlocks (cfg : Config) (s : Scheduler K E) (out : SchedulerOutput)
    (kco : KVConnectorOutput) : Except SchedError (List ReqId × Scheduler K E) :=
  if kco.invalidBlockIds = ∅ then .ok ([], s)
  else s.handleInvalidBlocks cfg kco.invalidBlockIds out.numScheduledTokens

/-- Remove the stopped requests from the running and waiting queues. -/
def removeStopped (us : UpdateState K E) : Scheduler K E :=
  { us.sch with
    running := if us.stoppedRunningReqs = [] then us.sch.running
      else removeAll us.sch.running us.stoppedRunningReqs.toFinset
    waiting := if us.stoppedPreemptedReqs = [] then us.sch.waiting
      else us.sch.waiting.removeRequests us.sch.req us.stoppedPreemptedReqs }

/-- `update_from_output`. -/
def updateFromOutput (cfg : Config) (s : Scheduler K E) (out : SchedulerOutput)
    (mro : ModelRunnerOutput) : Except SchedError (Scheduler K E) := do
  let kco := mro.kvConnectorOutput.getD {}
  let (failedKvLoadReqIds, s) ← s.reportedInvalidBlocks cfg out kco
  let us ← out.numScheduledTokens.entries.foldlM (processOutput cfg out mro failedKvLoadReqIds)
    { sch := s }
  let s ← (removeStopped us).failKvLoads cfg mro failedKvLoadReqIds
  s.updateFromKvXferFinished kco

/-- `add_request`, with a request object that was just constructed. -/
def addRequest (cfg : Config) (delayFree : ReqId → Bool) (s : Scheduler K E) (request : Request) :
    Except SchedError (Scheduler K E) :=
  let request := request.create cfg.blockHasher
  let r := request.requestId
  if r ∈ s.requests then
    let update := request.toStreamingUpdate
    if (s.req r).status ≠ .waitingForStreamingReq then
      match (s.req r).streamingQueue with
      | none => .error .duplicateRequestId
      | some queue =>
        .ok (s.modifyReq r fun q => { q with streamingQueue := some (queue ++ [update]) })
    else
      match update with
      | some update => .ok (s.updateRequestAsSession cfg r update)
      | none => s.finishRequests cfg delayFree (some [r]) .finishedAborted
  else
    let request := { request with streamingQueue := if request.resumable then some [] else none }
    let s := { s with objs := s.objs.set r request }.enqueueWaitingRequest r
    .ok { s with requests := s.requests ++ [r] }

/-- `set_pause_state`. -/
def setPauseState (s : Scheduler K E) (pauseState : PauseState) : Scheduler K E :=
  { s with pauseState := pauseState }

/-- One running request of `reset_prefix_cache(reset_running_requests=True)`: its output frames in
flight are to be discarded. -/
def resetRunningOne (s : Scheduler K E) (r : ReqId) : Except SchedError (Scheduler K E) := do
  let s ← s.preemptRequest r
  .ok (s.modifyReq r fun q => { q with
    asyncTokensToDiscard := q.numOutputPlaceholders
    numOutputPlaceholders := 0 })

/-- `reset_prefix_cache(reset_running_requests=True)` pops the running requests from the end and
preempts them. -/
def resetRunning (s : Scheduler K E) : Except SchedError (Scheduler K E) := do
  let s ← s.running.reverse.foldlM resetRunningOne { s with running := [] }
  .ok { s with prevStepScheduledReqIds := ∅ }

/-- `reset_prefix_cache`. -/
def resetPrefixCache (s : Scheduler K E) (resetRunningRequests : Bool) :
    Except SchedError (Bool × Scheduler K E) :=
  if resetRunningRequests then do
    let s ← s.resetRunning
    let (resetSuccessful, kv) := KVCacheManager.resetPrefixCache s.kv
    if resetSuccessful then .ok (resetSuccessful, { s with kv := kv }) else .error .resetFailed
  else
    let (resetSuccessful, kv) := KVCacheManager.resetPrefixCache s.kv
    .ok (resetSuccessful, { s with kv := kv })

/-- One entry of `update_draft_token_ids`; `validateTokens` is what the grammar leaves of the
drafts of a request that has one. -/
def updateDraftTokenIdsOne (validateTokens : ReqId → List Token → List Token) (s : Scheduler K E)
    (e : ReqId × List Token) : Scheduler K E :=
  if e.1 ∉ s.requests ∨ (s.req e.1).isFinished then s
  else
    s.modifyReq e.1 fun q => { q with
      specTokenIds := if q.isPrefillChunk then [] else validateTokens e.1 e.2 }

/-- `update_draft_token_ids`. -/
def updateDraftTokenIds (validateTokens : ReqId → List Token → List Token) (s : Scheduler K E)
    (drafts : List (ReqId × List Token)) : Scheduler K E :=
  drafts.foldl (updateDraftTokenIdsOne validateTokens) s

/-- `get_num_unfinished_requests`. -/
def getNumUnfinishedRequests (s : Scheduler K E) : ℤ :=
  match s.pauseState with
  | .pausedAll => 0
  | .pausedNew => s.running.length
  | .unpaused =>
    s.waiting.items.length + s.skippedWaiting.items.length - s.numWaitingForStreamingInput +
      s.running.length

end Scheduler

end RpsServe
