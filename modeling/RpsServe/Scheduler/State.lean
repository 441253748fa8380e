import RpsServe.CacheInterface
import RpsServe.QueueManager
import RpsServe.SloExpirationManager

/-!
# The scheduler's configuration, state and output

`Scheduler` holds the fields of the source's class that its methods read or write. The
Python object graph is kept as a table `objs` of every request object by id, next to the
keys of `self.requests`, so that an object that has left `self.requests` can still be read
through a queue that mentions it. Ids are never reused while a queue mentions them.
-/

namespace RpsServe

/-- `PauseState`. -/
inductive PauseState where
  | unpaused
  | pausedNew
  | pausedAll
deriving DecidableEq, Repr

/-- What the scheduler is configured with. The block hasher is the callable that `Request` is
constructed with. -/
structure Config where
  policy : SchedulingPolicy := .fcfs
  maxNumRunningReqs : ℕ
  maxNumScheduledTokens : ℕ
  maxModelLen : ℕ
  blockSize : ℕ
  numBlocks : ℕ
  longPrefillTokenThreshold : ℕ := 0
  enableChunkedPrefill : Bool := true
  disableChunkedMmInput : Bool := false
  schedulerReserveFullIsl : Bool := true
  maxNumEncoderInputTokens : ℕ := 0
  isEncoderDecoder : Bool := false
  useEagle : Bool := false
  numSpecTokens : ℕ := 0
  numLookaheadTokens : ℕ := 0
  needMambaBlockAlignedSplit : Bool := false
  cacheBlockSize : ℕ := blockSize
  needsKvCacheZeroing : Bool := false
  loraConfig : Bool := false
  connector : Bool := false
  ecConnector : Bool := false
  recomputeKvLoadFailures : Bool := true
  asyncScheduling : Bool := false
  useV2ModelRunner : Bool := false
  blockHasher : Request → List BlockHash := fun _ => []

/-- The tokens that EAGLE looks ahead by when it decides which encoder inputs a step needs. -/
def Config.shiftComputedTokens (cfg : Config) : ℤ := if cfg.useEagle then 1 else 0

/-- The scheduler's state. -/
structure Scheduler (K E : Type) where
  objs : Objs := .empty
  requests : List ReqId := []
  waiting : RequestQueue
  skippedWaiting : RequestQueue
  running : List ReqId := []
  finishedReqIds : Finset ReqId := ∅
  prevStepScheduledReqIds : Finset ReqId := ∅
  numWaitingForStreamingInput : ℤ := 0
  finishedRecvingKvReqIds : Finset ReqId := ∅
  failedRecvingKvReqIds : Finset ReqId := ∅
  pauseState : PauseState := .unpaused
  queueManager : QueueManager
  kv : K
  enc : E

namespace Scheduler

variable {K E : Type}

/-- The scheduler before its first request. -/
def init (cfg : Config) (kv : K) (enc : E) : Scheduler K E where
  waiting := RequestQueue.create cfg.policy
  skippedWaiting := RequestQueue.create cfg.policy
  queueManager := { policy := cfg.policy }
  kv := kv
  enc := enc

/-- The object of a request. -/
def req (s : Scheduler K E) (r : ReqId) : Request := s.objs.req r

/-- Assign to fields of a request object. -/
def modifyReq (s : Scheduler K E) (r : ReqId) (f : Request → Request) : Scheduler K E :=
  { s with objs := s.objs.modify r f }

section Projections

variable (s : Scheduler K E) (r : ReqId) (f : Request → Request)

/-- Changing a request leaves the request list. -/
@[simp] theorem requests_modifyReq : (s.modifyReq r f).requests = s.requests := rfl

/-- Changing a request leaves the running list. -/
@[simp] theorem running_modifyReq : (s.modifyReq r f).running = s.running := rfl

/-- Changing a request leaves the first waiting queue. -/
@[simp] theorem waiting_modifyReq : (s.modifyReq r f).waiting = s.waiting := rfl

/-- Changing a request leaves the second waiting queue. -/
@[simp] theorem skippedWaiting_modifyReq : (s.modifyReq r f).skippedWaiting = s.skippedWaiting := rfl

/-- Changing a request leaves the keys of the objects. -/
@[simp] theorem keys_modifyReq : (s.modifyReq r f).objs.keys = s.objs.keys :=
  Dict.keys_modify _ _ _

/-- The changed request is what it was changed to. -/
theorem req_modifyReq_self {s : Scheduler K E} {r : ReqId} {f : Request → Request}
    (h : r ∈ s.objs.keys) : (s.modifyReq r f).req r = f (s.req r) :=
  Objs.req_modify_self h

/-- The other requests are as they were. -/
theorem req_modifyReq_ne {s : Scheduler K E} {r x : ReqId} {f : Request → Request} (h : x ≠ r) :
    (s.modifyReq r f).req x = s.req x :=
  Objs.req_modify_ne h

/-- A property of the requests that an assignment keeps. -/
theorem modifyReq_keeps {α : Type*} (g : Request → α) (hf : ∀ q, g (f q) = g q) (x : ReqId) :
    g ((s.modifyReq r f).req x) = g (s.req x) := by
  rcases Objs.req_modify_cases s.objs r f x with h | ⟨-, h⟩
  · exact congrArg g h
  · exact (congrArg g h).trans (hf _)

end Projections

/-- What `_preempt_request` assigns to the request. -/
def preempted (q : Request) : Request :=
  { q with
    status := .preempted
    numComputedTokens := 0
    specTokenIds := []
    numPreemptions := q.numPreemptions + 1 }

/-- `_preempt_request`. Putting the request back into a queue is left to the caller. -/
def preemptRequest [KVCacheManager K] [EncoderCache E] (s : Scheduler K E) (r : ReqId) :
    Except SchedError (Scheduler K E) :=
  if (s.req r).status ≠ .running then .error .preemptedNotRunning
  else
    let s := { s with kv := KVCacheManager.free s.kv r, enc := EncoderCache.free s.enc (s.req r) }
    .ok (s.modifyReq r preempted)

/-- A preemption that returns was of a running request. -/
theorem preemptRequest_eq_ok [KVCacheManager K] [EncoderCache E] {s s' : Scheduler K E}
    {r : ReqId} (h : s.preemptRequest r = .ok s') :
    (s.req r).status = .running ∧ s' = { s with
      kv := KVCacheManager.free s.kv r
      enc := EncoderCache.free s.enc (s.req r)
      objs := s.objs.modify r preempted } := by
  unfold preemptRequest at h
  split at h
  · cases h
  · rename_i hstatus
    cases h
    exact ⟨by simpa using hstatus, rfl⟩

end Scheduler

/-- `NewRequestData`: a request the workers see for the first time. -/
structure NewRequestData where
  reqId : ReqId
  blockIds : KVCacheBlocks
  numComputedTokens : ℤ
deriving DecidableEq

/-- `CachedRequestData`: the running requests of the step, then the resumed ones. A list of new
blocks is `none` when the step gives the request no block. -/
structure CachedRequestData where
  reqIds : List ReqId
  resumedReqIds : Finset ReqId
  newBlockIds : List (Option KVCacheBlocks)
  numComputedTokens : List ℤ
  numOutputTokens : List ℤ
deriving DecidableEq

/-- `SchedulerOutput`. -/
structure SchedulerOutput where
  scheduledNewReqs : List NewRequestData
  scheduledCachedReqs : CachedRequestData
  numScheduledTokens : Dict ReqId ℤ
  totalNumScheduledTokens : ℤ
  scheduledSpecDecodeTokens : Dict ReqId (List Token)
  scheduledEncoderInputs : Dict ReqId (List ℕ)
  preemptedReqIds : Finset ReqId
  finishedReqIds : Finset ReqId
  freeEncoderMmHashes : List MmHash
  newBlockIdsToZero : List BlockId
deriving DecidableEq

end RpsServe
