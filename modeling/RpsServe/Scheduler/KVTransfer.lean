import RpsServe.Scheduler.Update

/-!
# Answers of the KV connector

The worker-side connector reports which transfers are done and which blocks it could not
load. A request with an invalid block falls back to its longest valid prefix; of two
requests that share an invalid block only the first one recomputes it.
-/

namespace RpsServe

/-- The variables of the scan over the blocks of one request. -/
structure InvalidScan where
  isAffected : Bool := false
  markedInvalidBlock : Bool := false
  numComputedTokens : ℤ
  markedInvalidBlockIds : Finset BlockId
  blocksToEvict : List BlockId

/-- One block of the scan; `reqBlockIds` are the blocks of the request from this one on. -/
def scanInvalidBlock (blockSize idx : ℕ) (invalidBlockIds : Finset BlockId) (evictBlocks : Bool)
    (blockId : BlockId) (reqBlockIds : List BlockId) (sc : InvalidScan) : InvalidScan :=
  if blockId ∉ invalidBlockIds then sc
  else
    let sc := { sc with isAffected := true }
    if blockId ∈ sc.markedInvalidBlockIds then sc
    else
      let sc := { sc with markedInvalidBlockIds := insert blockId sc.markedInvalidBlockIds }
      if sc.markedInvalidBlock then sc
      else { sc with
        markedInvalidBlock := true
        numComputedTokens := idx * blockSize
        blocksToEvict := if evictBlocks then sc.blocksToEvict ++ reqBlockIds else sc.blocksToEvict }

/-- The scan over the first `count` of the blocks. -/
def scanInvalidBlocks (blockSize : ℕ) (invalidBlockIds : Finset BlockId) (evictBlocks : Bool) :
    (idx count : ℕ) → List BlockId → InvalidScan → InvalidScan
  | idx, count + 1, blockId :: rest, sc =>
    scanInvalidBlocks blockSize invalidBlockIds evictBlocks (idx + 1) count rest
      (scanInvalidBlock blockSize idx invalidBlockIds evictBlocks blockId (blockId :: rest) sc)
  | _, _, _, sc => sc

/-- What `_update_requests_with_invalid_blocks` collects over the requests. -/
structure InvalidUpdate (K E : Type) where
  sch : Scheduler K E
  affectedReqIds : List ReqId := []
  markedInvalidBlockIds : Finset BlockId := ∅
  blocksToEvict : List BlockId := []

namespace Scheduler

variable {K E : Type} [KVCacheManager K] [EncoderCache E]

/-- One request of `_update_requests_with_invalid_blocks`. -/
def updateInvalidOne (cfg : Config) (invalidBlockIds : Finset BlockId)
    (numScheduledTokens : Dict ReqId ℤ) (evictBlocks : Bool) (iu : InvalidUpdate K E) (r : ReqId) :
    Except SchedError (InvalidUpdate K E) :=
  match KVCacheManager.getBlocks iu.sch.kv r with
  | [reqBlockIds] =>
    let numComputed := (iu.sch.req r).numComputedTokens - (numScheduledTokens.get? r).getD 0
    let numComputedBlocks := (numComputed + cfg.blockSize - 1) / cfg.blockSize
    let sc := scanInvalidBlocks cfg.blockSize invalidBlockIds evictBlocks 0 numComputedBlocks.toNat
      reqBlockIds {
        numComputedTokens := (iu.sch.req r).numComputedTokens
        markedInvalidBlockIds := iu.markedInvalidBlockIds
        blocksToEvict := iu.blocksToEvict }
    let numComputedTokens :=
      if sc.isAffected && !sc.markedInvalidBlock then numComputed else sc.numComputedTokens
    .ok {
      sch := iu.sch.modifyReq r fun q => { q with numComputedTokens := numComputedTokens }
      affectedReqIds := if sc.isAffected then iu.affectedReqIds ++ [r] else iu.affectedReqIds
      markedInvalidBlockIds := sc.markedInvalidBlockIds
      blocksToEvict := sc.blocksToEvict }
  | _ => .error .valueError

/-- `_update_requests_with_invalid_blocks`. -/
def updateRequestsWithInvalidBlocks (cfg : Config) (s : Scheduler K E) (requests : List ReqId)
    (invalidBlockIds : Finset BlockId) (numScheduledTokens : Dict ReqId ℤ) (evictBlocks : Bool) :
    Except SchedError (InvalidUpdate K E) :=
  requests.foldlM (updateInvalidOne cfg invalidBlockIds numScheduledTokens evictBlocks) { sch := s }

/-- `_handle_invalid_blocks`: the requests to leave out of the output processing. -/
def handleInvalidBlocks (cfg : Config) (s : Scheduler K E) (invalidBlockIds : Finset BlockId)
    (numScheduledTokens : Dict ReqId ℤ) : Except SchedError (List ReqId × Scheduler K E) := do
  let asyncLoadReqs := (s.skippedWaiting.iter s.req).filter fun r =>
    (s.req r).status = RequestStatus.waitingForRemoteKvs
  let async ← s.updateRequestsWithInvalidBlocks cfg asyncLoadReqs invalidBlockIds
    numScheduledTokens false
  let sync ← async.sch.updateRequestsWithInvalidBlocks cfg async.sch.running invalidBlockIds
    numScheduledTokens true
  let s := sync.sch
  if async.affectedReqIds = [] ∧ sync.affectedReqIds = [] then .ok ([], s)
  else if ¬ cfg.recomputeKvLoadFailures then
    let s := if sync.blocksToEvict = [] then s
      else { s with kv := KVCacheManager.evictBlocks s.kv sync.blocksToEvict }
    .ok (async.affectedReqIds ++ sync.affectedReqIds, s)
  else
    .ok (sync.affectedReqIds,
      { s with failedRecvingKvReqIds := s.failedRecvingKvReqIds ∪ async.affectedReqIds.toFinset })

/-- One entry of `finished_recving`. -/
def finishedRecvingOne (s : Scheduler K E) (r : ReqId) : Except SchedError (Scheduler K E) :=
  if r ∉ s.requests then .error .keyError
  else if (s.req r).status = .waitingForRemoteKvs then
    .ok { s with finishedRecvingKvReqIds := insert r s.finishedRecvingKvReqIds }
  else s.freeBlocks r

/-- One entry of `finished_sending`. -/
def finishedSendingOne (s : Scheduler K E) (r : ReqId) : Except SchedError (Scheduler K E) :=
  if r ∉ s.requests then .error .keyError else s.freeBlocks r

/-- `_update_from_kv_xfer_finished`. -/
def updateFromKvXferFinished (s : Scheduler K E) (kco : KVConnectorOutput) :
    Except SchedError (Scheduler K E) := do
  let s ← kco.finishedRecving.foldlM finishedRecvingOne s
  kco.finishedSending.foldlM finishedSendingOne s

/-- `_update_waiting_for_remote_kv`. -/
def updateWaitingForRemoteKv (s : Scheduler K E) (r : ReqId) :
    Except SchedError (Scheduler K E) := do
  let q := s.req r
  let s ← if r ∈ s.failedRecvingKvReqIds then do
      let kv ← if q.numComputedTokens ≠ 0 then
        KVCacheManager.cacheBlocks s.kv q q.numComputedTokens else .ok (KVCacheManager.free s.kv r)
      .ok { s with kv := kv, failedRecvingKvReqIds := s.failedRecvingKvReqIds.erase r }
    else do
      let kv ← KVCacheManager.cacheBlocks s.kv q q.numComputedTokens
      .ok ({ s with kv := kv }.modifyReq r fun q => { q with
        numComputedTokens :=
          if q.numComputedTokens = q.numTokens then q.numTokens - 1 else q.numComputedTokens })
  if r ∈ s.finishedRecvingKvReqIds then
    .ok { s with finishedRecvingKvReqIds := s.finishedRecvingKvReqIds.erase r }
  else .error .keyError

end Scheduler

end RpsServe
