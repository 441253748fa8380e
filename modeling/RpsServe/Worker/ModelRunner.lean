import RpsServe.Scheduler.State
import RpsServe.Worker.Reorder

/-!
# The states of the requests at a worker

A worker is told by each `SchedulerOutput` only what changed: a new request with all of its
data, a running one with the blocks it was given since. `_update_states` applies these
changes to the states it keeps and to the persistent batch. The model is a worker of the
last pipeline rank without async scheduling, for a generation model. The buffers of token
ids and positions, and the state of drafting models, are left out.
-/

namespace RpsServe

/-- `GPUModelRunner`: the cached states, the batch of the step, and the items whose encoder outputs
are held. -/
structure ModelRunner where
  requests : Dict ReqId CachedRequestState
  inputBatch : InputBatch
  encoderCache : Finset MmHash
deriving DecidableEq

/-- The state of a request the worker does not know. `NewRequestData` carries the prompt, the items
and the parameters of the request object `q`. -/
def CachedRequestState.ofNew (q : Request) (d : NewRequestData) : CachedRequestState where
  reqId := d.reqId
  promptTokenIds := q.promptTokenIds
  mmFeatures := q.mmFeatures
  samplingParams := q.samplingParams
  blockIds := d.blockIds
  numComputedTokens := d.numComputedTokens
  outputTokenIds := []
  loraRequest := q.loraRequest

/-- The fields that `_update_streaming_request` replaces. -/
def CachedRequestState.ofStreaming (st : CachedRequestState) (q : Request) (d : NewRequestData) :
    CachedRequestState :=
  { st with
    promptTokenIds := q.promptTokenIds
    mmFeatures := q.mmFeatures
    samplingParams := q.samplingParams
    blockIds := d.blockIds
    numComputedTokens := d.numComputedTokens
    outputTokenIds := [] }

/-- What `CachedRequestData` holds at one position. -/
structure CachedRequestEntry where
  reqId : ReqId
  newBlockIds : Option KVCacheBlocks
  numComputedTokens : ℤ
  numOutputTokens : ℤ
deriving DecidableEq

/-- The positions of `CachedRequestData`, one after the other. -/
def CachedRequestData.items (d : CachedRequestData) : List CachedRequestEntry :=
  ((d.reqIds.zip d.newBlockIds).zip (d.numComputedTokens.zip d.numOutputTokens)).map fun e =>
    { reqId := e.1.1
      newBlockIds := e.1.2
      numComputedTokens := e.2.1
      numOutputTokens := e.2.2 }

namespace ModelRunner

/-- The worker before the first step. -/
def init (maxNumReqs : ℕ) : ModelRunner where
  requests := .empty
  inputBatch := .init maxNumReqs
  encoderCache := ∅

/-- `remove_request` for all requests of the batch with a property. -/
def removeRequests (p : ReqId → Bool) (b : InputBatch) : Except WorkerError InputBatch :=
  (b.reqIdToIndex.keys.filter p).foldlM InputBatch.removeRequest b

/-- The requests that `_update_states` goes on with, and `reqs_to_add`. -/
abbrev Pending := ModelRunner × List CachedRequestState

/-- One entry of `scheduled_new_reqs`: a request that is known continues its streaming session. -/
def addNewRequest (obj : ReqId → Request) (p : Pending) (d : NewRequestData) :
    Except WorkerError Pending :=
  match p.1.requests.get? d.reqId with
  | some st => do
    let b ← p.1.inputBatch.removeRequest d.reqId
    let st := st.ofStreaming (obj d.reqId) d
    .ok ({ p.1 with inputBatch := b, requests := p.1.requests.set d.reqId st }, p.2 ++ [st])
  | none =>
    let st := CachedRequestState.ofNew (obj d.reqId) d
    .ok ({ p.1 with requests := p.1.requests.set d.reqId st }, p.2 ++ [st])

/-- The blocks of a cached request: appended, or replaced after a preemption. -/
def updateBlockIds (resumedFromPreemption : Bool) (index : Option ℕ)
    (newBlockIds : Option KVCacheBlocks) (blockIds : KVCacheBlocks) :
    Except WorkerError KVCacheBlocks :=
  if resumedFromPreemption then
    if index.isSome then .error .resumedInBatch
    else
      match newBlockIds with
      | none => .error .resumedWithoutBlocks
      | some newBlockIds => .ok newBlockIds
  else .ok (extendBlockIds blockIds (newBlockIds.getD []))

/-- One entry of `scheduled_cached_reqs`. A request that has no row is put on the list of those to
add. -/
def updateCachedRequest (resumedReqIds : Finset ReqId) (p : Pending) (e : CachedRequestEntry) :
    Except WorkerError Pending :=
  match p.1.requests.get? e.reqId with
  | none => .error .keyError
  | some st => do
    let index := p.1.inputBatch.reqIdToIndex.get? e.reqId
    let blockIds ← updateBlockIds (e.reqId ∈ resumedReqIds) index e.newBlockIds st.blockIds
    let st := { st with
      numComputedTokens := e.numComputedTokens
      outputTokenIds := st.outputTokenIds.take e.numOutputTokens.toNat
      blockIds := blockIds }
    let w := { p.1 with requests := p.1.requests.set e.reqId st }
    match index with
    | none => .ok (w, p.2 ++ [st])
    | some i =>
      let row := { w.inputBatch.row i with numComputedTokens := e.numComputedTokens }
      .ok ({ w with
        inputBatch := w.inputBatch.setRow i (row.appendRow (e.newBlockIds.getD [])) }, p.2)

/-- The part of `_update_states` before the new requests: what is finished is forgotten, and what
is not scheduled leaves the batch. -/
def dropUnscheduled (out : SchedulerOutput) (w : ModelRunner) : Except WorkerError ModelRunner := do
  let b ← removeRequests (fun r => r ∈ out.finishedReqIds) w.inputBatch
  let b ← removeRequests (fun r => ¬ (r ∈ out.numScheduledTokens.keys ∧
    r ∉ out.scheduledCachedReqs.resumedReqIds)) b
  .ok {
    requests := w.requests.filterKeys fun r => r ∉ out.finishedReqIds
    inputBatch := b
    encoderCache := w.encoderCache \ out.freeEncoderMmHashes.toFinset }

/-- `_may_reorder_batch`. -/
def mayReorderBatch (reorderBatchThreshold : Option ℤ) (out : SchedulerOutput) (b : InputBatch) :
    Except WorkerError InputBatch :=
  match reorderBatchThreshold with
  | none => .ok b
  | some threshold => b.reorderBatchToSplitDecodesAndPrefills threshold out.numScheduledTokens

/-- `_update_states`, with the update for the logits processors. -/
def updateStates (reorderBatchThreshold : Option ℤ) (obj : ReqId → Request) (out : SchedulerOutput)
    (w : ModelRunner) : Except WorkerError (Option BatchUpdate × ModelRunner) := do
  let w ← w.dropUnscheduled out
  let p ← out.scheduledNewReqs.foldlM (addNewRequest obj) (w, [])
  let (w, reqsToAdd) ← out.scheduledCachedReqs.items.foldlM
    (updateCachedRequest out.scheduledCachedReqs.resumedReqIds) p
  let b ← reqsToAdd.foldlM InputBatch.addRequest w.inputBatch
  let b ← b.condense
  let b ← mayReorderBatch reorderBatchThreshold out b
  let (update, b) := b.refreshMetadata
  .ok (update, { w with inputBatch := b })

/-- The part of `_bookkeeping_sync` about the requests: the sampled tokens are appended. -/
def appendSampled (sampled : ReqId → List Token) (w : ModelRunner) : ModelRunner :=
  { w with
    requests := w.inputBatch.reqIdToIndex.keys.foldl
      (fun d r => d.modify r fun st =>
        { st with outputTokenIds := st.outputTokenIds ++ sampled r }) w.requests }

end ModelRunner

end RpsServe
