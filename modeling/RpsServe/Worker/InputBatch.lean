import RpsServe.CacheInterface
import RpsServe.Worker.BatchUpdate
import Mathlib.Data.Finset.Basic

/-!
# The persistent batch of a worker

`InputBatch` keeps one row for each request of the step: the entries of its arrays at the
request's index. A request that leaves frees its row, a new one takes the lowest free row,
and `condense` moves the requests behind into the rows that stay free. The arrays of token
ids and of sampling parameters, which are written and moved with the row, are left out.
-/

namespace RpsServe

/-- `CachedRequestState`: what the worker keeps of a request between the steps. -/
structure CachedRequestState where
  reqId : ReqId
  promptTokenIds : List Token
  mmFeatures : List MmFeature
  samplingParams : SamplingParams
  blockIds : KVCacheBlocks
  numComputedTokens : ℤ
  outputTokenIds : List Token
  loraRequest : Option ℕ
deriving DecidableEq

/-- The entries of the batch's arrays at one index. Adapter `0` is none. -/
structure BatchRow where
  numPromptTokens : ℕ := 0
  numComputedTokens : ℤ := 0
  blockTable : KVCacheBlocks := []
  loraId : ℕ := 0
deriving DecidableEq

/-- Append the new blocks to the block ids of each KV cache group. -/
def extendBlockIds : KVCacheBlocks → KVCacheBlocks → KVCacheBlocks
  | ids :: blockIds, newIds :: newBlockIds =>
    (ids ++ newIds) :: extendBlockIds blockIds newBlockIds
  | blockIds, _ => blockIds

/-- `append_row` of every group's block table. -/
def BatchRow.appendRow (row : BatchRow) (blockIds : KVCacheBlocks) : BatchRow :=
  { row with blockTable := extendBlockIds row.blockTable blockIds }

/-- The row that `add_request` writes. -/
def CachedRequestState.row (st : CachedRequestState) : BatchRow where
  numPromptTokens := st.promptTokenIds.length
  numComputedTokens := st.numComputedTokens
  blockTable := st.blockIds
  loraId := st.loraRequest.getD 0

/-- `InputBatch`. -/
structure InputBatch where
  maxNumReqs : ℕ
  reqIds : List (Option ReqId)
  reqIdToIndex : Dict ReqId ℕ
  rows : List BatchRow
  loraIdToRequestIds : Dict ℕ (Finset ReqId)
  builder : BatchUpdateBuilder
deriving DecidableEq

namespace InputBatch

/-- `InputBatch.__init__`. -/
def init (maxNumReqs : ℕ) : InputBatch where
  maxNumReqs := maxNumReqs
  reqIds := []
  reqIdToIndex := .empty
  rows := List.replicate maxNumReqs {}
  loraIdToRequestIds := .empty
  builder := {}

/-- `num_reqs`. -/
def numReqs (b : InputBatch) : ℕ := b.reqIdToIndex.keys.length

/-- The arrays' entries at an index. -/
def row (b : InputBatch) (i : ℕ) : BatchRow := (b.rows[i]?).getD {}

/-- The batch with one row written. -/
def setRow (b : InputBatch) (i : ℕ) (row : BatchRow) : InputBatch :=
  { b with rows := b.rows.set i row }

/-- The request that stands at an index. -/
def reqAt (b : InputBatch) (i : ℕ) : Option ReqId := (b.reqIds[i]?).join

/-- The row of a request. -/
def rowOf (b : InputBatch) (r : ReqId) : Option BatchRow := (b.reqIdToIndex.get? r).map b.row

/-- The requests of an adapter. -/
def loraRequests (b : InputBatch) (loraId : ℕ) : Finset ReqId :=
  (b.loraIdToRequestIds.get? loraId).getD ∅

/-- `_register_add_request`: the lowest row that was freed in this step, or one more. -/
def registerAddRequest (b : InputBatch) (st : CachedRequestState) :
    Except WorkerError (ℕ × InputBatch) :=
  let (removed, builder) := b.builder.popRemoved
  let index := removed.getD b.numReqs
  if index < b.maxNumReqs then
    .ok (index, { b with
      builder := { builder with
        added := builder.added ++ [{
          index := index
          reqId := st.reqId
          samplingParams := st.samplingParams
          promptTokenIds := st.promptTokenIds
          outputTokenIds := st.outputTokenIds }] } })
  else .error .batchFull

/-- `add_request`. -/
def addRequest (b : InputBatch) (st : CachedRequestState) : Except WorkerError InputBatch := do
  let (index, b) ← b.registerAddRequest st
  .ok { b with
    reqIds := if index = b.reqIds.length then b.reqIds ++ [some st.reqId]
      else b.reqIds.set index (some st.reqId)
    reqIdToIndex := b.reqIdToIndex.set st.reqId index
    rows := b.rows.set index st.row
    loraIdToRequestIds :=
      match st.loraRequest with
      | none => b.loraIdToRequestIds
      | some loraId => b.loraIdToRequestIds.set loraId (insert st.reqId (b.loraRequests loraId)) }

/-- A request gives its adapter up; an adapter without requests is forgotten. -/
def discardLora (b : InputBatch) (loraId : ℕ) (r : ReqId) : Except WorkerError InputBatch :=
  if loraId = 0 then .ok b
  else
    match b.loraIdToRequestIds.get? loraId with
    | none => .error .keyError
    | some reqIds =>
      .ok { b with
        loraIdToRequestIds :=
          if reqIds.erase r = ∅ then b.loraIdToRequestIds.erase loraId
          else b.loraIdToRequestIds.set loraId (reqIds.erase r) }

/-- `remove_request`. -/
def removeRequest (b : InputBatch) (r : ReqId) : Except WorkerError InputBatch :=
  match b.reqIdToIndex.get? r with
  | none => .ok b
  | some index => do
    let builder ← b.builder.removedAppend index
    let row := b.row index
    let b ← b.discardLora row.loraId r
    .ok { b with
      builder := builder
      reqIdToIndex := b.reqIdToIndex.erase r
      reqIds := b.reqIds.set index none
      rows := b.rows.set index { row with
        blockTable := row.blockTable.map fun _ => []
        loraId := 0 } }

/-- The largest index up to `last` that is not empty. -/
def lastNonEmpty (emptyReqIndices : List ℕ) : ℕ → ℕ
  | 0 => 0
  | last + 1 => if last + 1 ∈ emptyReqIndices then lastNonEmpty emptyReqIndices last else last + 1

/-- One move of `condense`: the request at `src` goes down to the empty row `dst`. -/
def moveDown (b : InputBatch) (src dst : ℕ) : Except WorkerError InputBatch :=
  match b.reqAt src with
  | none => .error .emptyRow
  | some r =>
    .ok { b with
      reqIds := (b.reqIds.set dst (some r)).set src none
      reqIdToIndex := b.reqIdToIndex.set r dst
      rows := b.rows.set dst (b.row src)
      builder := { b.builder with
        moved := b.builder.moved ++ [{ src := src, dst := dst, direct := .unidirectional }] } }

/-- The loop of `condense` over the empty rows from the lowest on, which `pop_removed` takes off
the end of the descending list. -/
def condenseLoop : List ℕ → (last : ℕ) → InputBatch → Except WorkerError InputBatch
  | [], _, b => .ok { b with builder := { b.builder with removed := [] } }
  | empty :: rest, last, b =>
    let last := lastNonEmpty (empty :: rest) last
    if last ≤ empty then
      .ok { b with builder := { b.builder with removed := (empty :: rest).reverse } }
    else do
      let b ← b.moveDown last empty
      condenseLoop rest (last - 1) b

/-- `condense`. -/
def condense (b : InputBatch) : Except WorkerError InputBatch :=
  let numReqs := b.numReqs
  let b := { b with builder := b.builder.ensureRemovedSorted }
  if b.builder.removed = [] then .ok b
  else if numReqs = 0 then .ok { b with reqIds := [] }
  else do
    let b ← condenseLoop b.builder.removed.reverse (numReqs + b.builder.removed.length - 1) b
    .ok { b with reqIds := b.reqIds.take numReqs }

/-- `swap_states`. -/
def swapStates (b : InputBatch) (i j : ℕ) : Except WorkerError InputBatch :=
  match b.reqAt i, b.reqAt j with
  | some r, some r' =>
    .ok { b with
      reqIds := (b.reqIds.set i (some r')).set j (some r)
      reqIdToIndex := (b.reqIdToIndex.set r j).set r' i
      rows := (b.rows.set i (b.row j)).set j (b.row i)
      builder := { b.builder with
        moved := b.builder.moved ++ [{ src := i, dst := j, direct := .swap }] } }
  | _, _ => .error .emptyRow

/-- `refresh_metadata`: the update for the logits processors. -/
def refreshMetadata (b : InputBatch) : Option BatchUpdate × InputBatch :=
  let (update, builder) := b.builder.getAndReset b.numReqs
  (update, { b with builder := builder })

end InputBatch

end RpsServe
