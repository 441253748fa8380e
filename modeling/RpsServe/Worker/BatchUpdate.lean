import RpsServe.Request
import RpsServe.Lib.Except

/-!
# What a step does to the rows of the batch

The worker keeps the requests of a step in the rows of one batch. `BatchUpdateBuilder` notes
which rows were removed, added and moved, so that the logits processors, which keep state
for each row, can follow.
-/

namespace RpsServe

/-- The exceptions of the modelled worker code. -/
inductive WorkerError where
  /-- Reading a key that is absent. -/
  | keyError
  /-- `removed_append`: "Cannot register new removed request after self.removed has been read." -/
  | removedAfterRead
  /-- `_register_add_request`: `assert new_req_index < self.max_num_reqs`. -/
  | batchFull
  /-- `condense` and `swap_states`: a row without a request. -/
  | emptyRow
  /-- `_update_states`: `assert req_index is None` for a resumed request. -/
  | resumedInBatch
  /-- `_update_states`: `assert new_block_ids is not None` for a resumed request. -/
  | resumedWithoutBlocks
  /-- `_gather_mm_embeddings`: `assert start_idx < end_idx`. -/
  | emptyRange
  /-- `_gather_mm_embeddings`: "Encoder cache miss". -/
  | encoderCacheMiss
  /-- `mm_features[mm_input_id]` beyond the end of the list. -/
  | indexError
  /-- A `while` loop that never ends. -/
  | diverges
deriving DecidableEq, Repr

/-- `MoveDirectionality`. -/
inductive MoveDirectionality where
  | unidirectional
  | swap
deriving DecidableEq, Repr

/-- `AddedRequest`: the row, and what the logits processors read of the request. The list of output
tokens is shared with the request `reqId`, and grows with it. -/
structure AddedRequest where
  index : ℕ
  reqId : ReqId
  samplingParams : SamplingParams
  promptTokenIds : List Token
  outputTokenIds : List Token
deriving DecidableEq

/-- `MovedRequest`. -/
structure MovedRequest where
  src : ℕ
  dst : ℕ
  direct : MoveDirectionality
deriving DecidableEq

/-- `BatchUpdate`. -/
structure BatchUpdate where
  batchSize : ℕ
  removed : List ℕ
  added : List AddedRequest
  moved : List MovedRequest
deriving DecidableEq

/-- `BatchUpdateBuilder`. -/
structure BatchUpdateBuilder where
  removed : List ℕ := []
  isRemovedSorted : Bool := false
  added : List AddedRequest := []
  moved : List MovedRequest := []
deriving DecidableEq

namespace BatchUpdateBuilder

/-- `_ensure_removed_sorted`: in descending order, once a step. -/
def ensureRemovedSorted (u : BatchUpdateBuilder) : BatchUpdateBuilder :=
  if u.isRemovedSorted then u
  else { u with removed := u.removed.mergeSort fun i j => j ≤ i, isRemovedSorted := true }

/-- `removed_append`. -/
def removedAppend (u : BatchUpdateBuilder) (index : ℕ) : Except WorkerError BatchUpdateBuilder :=
  if u.isRemovedSorted then .error .removedAfterRead
  else .ok { u with removed := u.removed ++ [index] }

/-- `pop_removed`: the lowest removed row is the last of the list. -/
def popRemoved (u : BatchUpdateBuilder) : Option ℕ × BatchUpdateBuilder :=
  if u.removed = [] then (none, u)
  else
    let u := u.ensureRemovedSorted
    (u.removed.getLast?, { u with removed := u.removed.dropLast })

/-- `get_and_reset`: nothing when the batch did not change. -/
def getAndReset (u : BatchUpdateBuilder) (batchSize : ℕ) :
    Option BatchUpdate × BatchUpdateBuilder :=
  if u.removed = [] ∧ u.moved = [] ∧ u.added = [] then (none, { u with isRemovedSorted := false })
  else
    (some { batchSize := batchSize, removed := u.removed, added := u.added, moved := u.moved },
      {})

end BatchUpdateBuilder

end RpsServe
