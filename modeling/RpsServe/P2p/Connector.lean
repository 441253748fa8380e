import RpsServe.Lib.Dict
import RpsServe.Lib.Except
import RpsServe.Lib.Breaking
import RpsServe.CacheInterface
import Mathlib.Data.Finset.Basic

/-!
# The P2P NCCL connector on the side of the scheduler

`P2pNcclConnector`: which requests' blocks the workers send (on a producer) or load (on a
consumer) in a step. Block ids come in one list for each cache group; the connector reads the
first. The parallel lists of `CachedRequestData` are one list of records here.
-/

namespace RpsServe.P2p

/-- What the connector can raise. -/
inductive ConnectorError where
  /-- `num_scheduled_tokens[req_id]` of a request that is not scheduled. -/
  | keyError
  /-- The first group of no groups. -/
  | indexError
  /-- `assert req_id in self.chunked_prefill`. -/
  | notChunked
  /-- `assert prompt_token_ids is not None`. -/
  | noPrompt
  /-- `assert new_block_ids is not None`. -/
  | noNewBlocks
deriving DecidableEq, Repr

/-- `ReqMeta`: one request to send or to load. -/
structure ReqMeta where
  requestId : ReqId
  blockIds : List BlockId
  numTokens : ℕ
deriving DecidableEq

/-- `NewRequestData`. -/
structure NewRequest where
  reqId : ReqId
  promptTokenIds : Option (List Token)
  blockIds : List (List BlockId)
  numComputedTokens : ℕ
deriving DecidableEq

/-- What `CachedRequestData` says of one request. -/
structure CachedRequest where
  reqId : ReqId
  newBlockIds : Option (List (List BlockId))
  numComputedTokens : ℕ
deriving DecidableEq

/-- `SchedulerOutput`. -/
structure SchedulerOutput where
  scheduledNewReqs : List NewRequest
  scheduledCachedReqs : List CachedRequest
  resumedReqIds : Finset ReqId
  numScheduledTokens : Dict ReqId ℕ

/-- `P2pNcclConnector`. The request object of a pending load is read when the load is listed. -/
structure Connector where
  isProducer : Bool
  requestsNeedLoad : Dict ReqId (List BlockId) := .empty
  chunkedPrefill : Dict ReqId (List BlockId × Option (List Token)) := .empty

/-- The connector in the middle of `build_connector_meta`, with the metadata listed so far. -/
structure Building where
  reqMetas : List ReqMeta := []
  connector : Connector

/-- `meta.add_request`. -/
def Building.addRequest (b : Building) (requestId : ReqId) (blockIds : List BlockId)
    (numTokens : ℕ) : Building :=
  { b with reqMetas := b.reqMetas ++ [⟨requestId, blockIds, numTokens⟩] }

/-- Write the blocks and the prompt of a chunked prefill. -/
def Building.record (b : Building) (r : ReqId) (blockIds : List BlockId)
    (promptTokenIds : Option (List Token)) : Building :=
  { b with connector := { b.connector with
      chunkedPrefill := b.connector.chunkedPrefill.set r (blockIds, promptTokenIds) } }

/-- Take the record of a chunked prefill away. -/
def Building.dropRecord (b : Building) (r : ReqId) : Building :=
  { b with connector := { b.connector with
      chunkedPrefill := b.connector.chunkedPrefill.erase r } }

/-- Take a pending load away. -/
def Building.dropLoad (b : Building) (r : ReqId) : Building :=
  { b with connector := { b.connector with
      requestsNeedLoad := b.connector.requestsNeedLoad.erase r } }

/-- `block_ids[0]`. -/
def firstGroup (blockIds : List (List BlockId)) : Except ConnectorError (List BlockId) :=
  match blockIds with
  | [] => .error .indexError
  | group :: _ => .ok group

/-- `num_scheduled_tokens[req_id]`. -/
def SchedulerOutput.scheduled (out : SchedulerOutput) (r : ReqId) : Except ConnectorError ℕ :=
  match out.numScheduledTokens.get? r with
  | none => .error .keyError
  | some n => .ok n

namespace Connector

/-- `get_num_new_matched_tokens`; the load is never asynchronous. -/
def getNumNewMatchedTokens (c : Connector) (promptTokenIds : Option (List Token))
    (numComputedTokens : ℕ) : ℕ × Bool :=
  if c.isProducer then (0, false)
  else ((promptTokenIds.getD []).length - 1 - numComputedTokens, false)

/-- `update_state_after_alloc`. -/
def updateStateAfterAlloc (c : Connector) (r : ReqId) (blockIds : List (List BlockId))
    (numExternalTokens : ℕ) : Except ConnectorError Connector :=
  if c.isProducer = false ∧ 0 < numExternalTokens then do
    let blocks ← firstGroup blockIds
    .ok { c with requestsNeedLoad := c.requestsNeedLoad.set r blocks }
  else .ok c

/-- The loop over the new requests of `build_connector_meta`. -/
def newRequest (out : SchedulerOutput) (b : Building) (newReq : NewRequest) :
    Except ConnectorError Building :=
  if b.connector.isProducer then do
    let numScheduledTokens ← out.scheduled newReq.reqId
    let blocks ← firstGroup newReq.blockIds
    let numPromptTokens := (newReq.promptTokenIds.getD []).length
    if numScheduledTokens + newReq.numComputedTokens < numPromptTokens then
      .ok (b.record newReq.reqId blocks newReq.promptTokenIds)
    else .ok (b.addRequest newReq.reqId blocks numPromptTokens)
  else if newReq.reqId ∈ b.connector.requestsNeedLoad.keys then do
    let blocks ← firstGroup newReq.blockIds
    .ok ((b.addRequest newReq.reqId blocks (newReq.promptTokenIds.getD []).length).dropLoad
      newReq.reqId)
  else .ok b

/-- A request of the cached ones on a producer: a step without new blocks is passed over, whether or
not it ends the prompt. -/
def cachedOnProducer (out : SchedulerOutput) (b : Building) (q : CachedRequest) :
    Except ConnectorError Building := do
  let numScheduledTokens ← out.scheduled q.reqId
  match b.connector.chunkedPrefill.get? q.reqId with
  | none => .error .notChunked
  | some (before, promptTokenIds) =>
    match q.newBlockIds with
    | none => .ok b
    | some newBlockIds =>
      let new ← firstGroup newBlockIds
      let blocks := if q.reqId ∈ out.resumedReqIds then new else before ++ new
      match promptTokenIds with
      | none => .error .noPrompt
      | some prompt =>
        if numScheduledTokens + q.numComputedTokens < prompt.length then
          .ok (b.record q.reqId blocks (some prompt))
        else .ok ((b.addRequest q.reqId blocks prompt.length).dropRecord q.reqId)

/-- The loop over the cached requests of `build_connector_meta`; `none` is the `break` at the
first one that is not resumed. `allTokenIds` reads the request objects. -/
def cachedRequest (out : SchedulerOutput) (allTokenIds : ReqId → List Token) (b : Building)
    (q : CachedRequest) : Except ConnectorError (Option Building) :=
  if b.connector.isProducer then some <$> cachedOnProducer out b q
  else if q.reqId ∉ out.resumedReqIds then .ok none
  else if q.reqId ∈ b.connector.requestsNeedLoad.keys then
    match q.newBlockIds with
    | none => .error .noNewBlocks
    | some newBlockIds => do
      let blocks ← firstGroup newBlockIds
      let tokenIds := (allTokenIds q.reqId).take (q.numComputedTokens + 1)
      .ok (some ((b.addRequest q.reqId blocks tokenIds.length).dropLoad q.reqId))
  else .ok (some b)

/-- `build_connector_meta`. The pending loads are not cleared at the end. -/
def buildConnectorMeta (c : Connector) (out : SchedulerOutput)
    (allTokenIds : ReqId → List Token) : Except ConnectorError Building := do
  let built ← out.scheduledNewReqs.foldlM (newRequest out) { connector := c }
  foldBreakM (cachedRequest out allTokenIds) out.scheduledCachedReqs built

/-- `request_finished`. -/
def requestFinished (c : Connector) (r : ReqId) : Connector :=
  { c with chunkedPrefill := c.chunkedPrefill.erase r }

end Connector

/-- The calls of the scheduler. -/
inductive ConnectorOp where
  | updateStateAfterAlloc (r : ReqId) (blockIds : List (List BlockId)) (numExternalTokens : ℕ)
  | buildConnectorMeta (out : SchedulerOutput) (allTokenIds : ReqId → List Token)
  | requestFinished (r : ReqId)

namespace Connector

/-- A call, with the metadata it lists. -/
def step (c : Connector) : ConnectorOp → Except ConnectorError (List ReqMeta × Connector)
  | .updateStateAfterAlloc r blockIds numExternalTokens => do
    let c ← c.updateStateAfterAlloc r blockIds numExternalTokens
    .ok ([], c)
  | .buildConnectorMeta out allTokenIds => do
    let built ← c.buildConnectorMeta out allTokenIds
    .ok (built.reqMetas, built.connector)
  | .requestFinished r => .ok ([], c.requestFinished r)

/-- The calls in their order, with the metadata of each. -/
def run : List ConnectorOp → Connector → Except ConnectorError (List (List ReqMeta) × Connector)
  | [], c => .ok ([], c)
  | op :: ops, c => do
    let (reqMetas, c) ← c.step op
    let (rest, c) ← run ops c
    .ok (reqMetas :: rest, c)

/-- The last call of a run. -/
theorem run_concat_eq_ok {ops : List ConnectorOp} {op : ConnectorOp} {c c' : Connector}
    {metas : List (List ReqMeta)} (h : run (ops ++ [op]) c = .ok (metas, c')) :
    ∃ before c₁ last, run ops c = .ok (before, c₁) ∧ c₁.step op = .ok (last, c') ∧
      metas = before ++ [last] := by
  induction ops generalizing c metas with
  | nil =>
    obtain ⟨⟨last, c₁⟩, hstep, h⟩ := bind_eq_ok.mp h
    cases h
    exact ⟨[], c, last, rfl, hstep, rfl⟩
  | cons o ops ih =>
    obtain ⟨⟨first, c₁⟩, hstep, h⟩ := bind_eq_ok.mp h
    obtain ⟨⟨rest, c₂⟩, hrest, h⟩ := bind_eq_ok.mp h
    cases h
    obtain ⟨before, c₃, last, hbefore, hlast, hmetas⟩ := ih hrest
    refine ⟨first :: before, c₃, last, ?_, hlast, by rw [hmetas, List.cons_append]⟩
    exact bind_eq_ok.mpr ⟨(first, c₁), hstep, bind_eq_ok.mpr ⟨(before, c₃), hbefore, rfl⟩⟩

end Connector

end RpsServe.P2p
