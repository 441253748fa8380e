import RpsServe.Lib.Dict
import RpsServe.Worker.BatchUpdate
import Mathlib.Data.Finset.Card
import Mathlib.Data.Finset.Sort
import Mathlib.Logic.Function.Basic

/-!
# Logits processors

A logits processor keeps state for the rows of the batch and is told by each `BatchUpdate`
which rows were removed, added and moved. The sparse ones keep a dictionary from rows to
entries, and the tensors made from it that are applied to the logits; min-p keeps an array
with a count of its nonzero places, by which it skips most of the work, and a copy of the
array on the device.
-/

namespace RpsServe

variable {T α : Type*}

/-- The logits of a batch: a number for each row and token. -/
abbrev Logits (α : Type*) := ℕ → Token → α

/-! ### Sparse processors -/

/-- What a sparse processor makes of an added request: an entry, or nothing. -/
abbrev NewState (T : Type*) := AddedRequest → Option T

/-- One added request of `process_dict_updates`. -/
def addEntry (newState : NewState T) (p : Dict ℕ T × Bool) (a : AddedRequest) : Dict ℕ T × Bool :=
  match newState a with
  | some state => (p.1.set a.index state, true)
  | none => (p.1.erase a.index, p.2 || (p.1.get? a.index).isSome)

/-- One removed row. -/
def removeEntry (p : Dict ℕ T × Bool) (index : ℕ) : Dict ℕ T × Bool :=
  (p.1.erase index, p.2 || (p.1.get? index).isSome)

/-- One move or swap. -/
def moveEntry (p : Dict ℕ T × Bool) (m : MovedRequest) : Dict ℕ T × Bool :=
  let aEntry := p.1.get? m.src
  let entries := p.1.erase m.src
  let bEntry := entries.get? m.dst
  let entries := entries.erase m.dst
  let entries :=
    match aEntry with
    | some a => entries.set m.dst a
    | none => entries
  let entries :=
    match bEntry, m.direct with
    | some b, .swap => entries.set m.src b
    | _, _ => entries
  (entries, p.2 || aEntry.isSome || bEntry.isSome)

/-- `process_dict_updates`: the entries after an update, and whether anything changed. -/
def processDictUpdates (newState : NewState T) (reqEntries : Dict ℕ T)
    (batchUpdate : Option BatchUpdate) : Dict ℕ T × Bool :=
  match batchUpdate with
  | none => (reqEntries, false)
  | some u =>
    let p := u.added.foldl (addEntry newState) (reqEntries, false)
    if p.1.keys = [] then p
    else u.moved.foldl moveEntry (u.removed.foldl removeEntry p)

/-- An entry of `MinTokensLogitsProcessor`. The output tokens are those of the request `owner`, by
reference. -/
structure MinTokensEntry where
  minTokens : ℕ
  owner : ReqId
  stopTokenIds : Finset Token
deriving DecidableEq

/-- `MinTokensLogitsProcessor.add_request`, where `allStopTokenIds` reads that set off the sampling
parameters. -/
def minTokensAddRequest (allStopTokenIds : SamplingParams → Finset Token) (a : AddedRequest) :
    Option MinTokensEntry :=
  let minTokens := a.samplingParams.minTokens
  if minTokens = 0 ∨ minTokens ≤ a.outputTokenIds.length then none
  else
    some {
      minTokens := minTokens
      owner := a.reqId
      stopTokenIds := allStopTokenIds a.samplingParams }

/-- The state of `MinTokensLogitsProcessor`: the entries of the rows, and the places made from them
that `apply` reads. -/
structure MinTokensState where
  minToks : Dict ℕ MinTokensEntry
  logitsSlice : List (ℕ × Token)
deriving DecidableEq

namespace MinTokensState

/-- `MinTokensLogitsProcessor.__init__`. -/
def init : MinTokensState := ⟨.empty, []⟩

/-- The places of the stop tokens of all entries. -/
def slice (minToks : Dict ℕ MinTokensEntry) : List (ℕ × Token) :=
  minToks.entries.flatMap fun e => e.2.stopTokenIds.sort.map fun t => (e.1, t)

/-- The rows whose request has its tokens by now. -/
def toRemove (outputTokenIds : ReqId → List Token) (minToks : Dict ℕ MinTokensEntry) : List ℕ :=
  minToks.keys.filter fun index =>
    match minToks.get? index with
    | some e => e.minTokens ≤ (outputTokenIds e.owner).length
    | none => false

/-- `MinTokensLogitsProcessor.update_state`: a request that has its tokens by now loses its entry,
and the places are made anew when an entry changed. -/
def updateState (allStopTokenIds : SamplingParams → Finset Token)
    (outputTokenIds : ReqId → List Token) (s : MinTokensState)
    (batchUpdate : Option BatchUpdate) : MinTokensState :=
  let p := processDictUpdates (minTokensAddRequest allStopTokenIds) s.minToks batchUpdate
  let toRemove := toRemove outputTokenIds p.1
  let needsUpdate := p.2 || !toRemove.isEmpty
  let minToks := toRemove.foldl Dict.erase p.1
  { minToks := minToks
    logitsSlice := if needsUpdate then slice minToks else s.logitsSlice }

/-- `MinTokensLogitsProcessor.apply`. -/
def apply (negInf : α) (s : MinTokensState) (logits : Logits α) : Logits α := fun i t =>
  if s.minToks.keys = [] then logits i t
  else if (i, t) ∈ s.logitsSlice then negInf else logits i t

end MinTokensState

/-- The state of `LogitBiasLogitsProcessor`: the biases of the rows, and the tensors made from them
that `apply` reads. -/
structure LogitBiasState (α : Type*) where
  biases : Dict ℕ (Dict Token α)
  biasTensor : List α
  logitsSlice : List (ℕ × Token)

namespace LogitBiasState

/-- `LogitBiasLogitsProcessor.__init__`. -/
def init : LogitBiasState α := ⟨.empty, [], []⟩

/-- The places with a bias, and the biases. -/
def slice (biases : Dict ℕ (Dict Token α)) : List ((ℕ × Token) × α) :=
  biases.entries.flatMap fun e => e.2.entries.map fun b => ((e.1, b.1), b.2)

/-- `LogitBiasLogitsProcessor.update_state`. -/
def updateState (logitBias : NewState (Dict Token α)) (s : LogitBiasState α)
    (batchUpdate : Option BatchUpdate) : LogitBiasState α :=
  let p := processDictUpdates logitBias s.biases batchUpdate
  if p.2 then
    { biases := p.1
      biasTensor := (slice p.1).map Prod.snd
      logitsSlice := (slice p.1).map Prod.fst }
  else { s with biases := p.1 }

/-- `LogitBiasLogitsProcessor.apply`. -/
def apply [Add α] (s : LogitBiasState α) (logits : Logits α) : Logits α := fun i t =>
  if s.biases.keys = [] then logits i t
  else
    match lookupEntry (i, t) (s.logitsSlice.zip s.biasTensor) with
    | some bias => logits i t + bias
    | none => logits i t

end LogitBiasState

/-! ### Min-p -/

/-- The state of `MinPLogitsProcessor`, with the copy of the array on the device. -/
structure MinPState (α : Type*) where
  minPCpu : ℕ → α
  minPCount : ℤ
  minP : List α

namespace MinPState

variable [Zero α] [DecidableEq α]

/-- `MinPLogitsProcessor.__init__`. -/
def init : MinPState α := ⟨fun _ => 0, 0, []⟩

/-- One added request, with `needs_update`. -/
def addRow (minP : AddedRequest → α) (p : MinPState α × Bool) (a : AddedRequest) :
    MinPState α × Bool :=
  let s := p.1
  let new := minP a
  let before := s.minPCpu a.index
  if before = new then p
  else
    ({ s with
        minPCpu := Function.update s.minPCpu a.index new
        minPCount :=
          if new ≠ 0 ∧ before = 0 then s.minPCount + 1
          else if new = 0 ∧ before ≠ 0 then s.minPCount - 1
          else s.minPCount }, true)

/-- One removed row. -/
def removeRow (s : MinPState α) (index : ℕ) : MinPState α :=
  if s.minPCpu index = 0 then s
  else
    { s with
      minPCpu := Function.update s.minPCpu index 0
      minPCount := s.minPCount - 1 }

/-- One move or swap, with `needs_update`. -/
def moveRow (p : MinPState α × Bool) (m : MovedRequest) : MinPState α × Bool :=
  let s := p.1
  let minPA := s.minPCpu m.src
  let minPB := s.minPCpu m.dst
  let cpu :=
    if minPA = minPB then s.minPCpu
    else
      let cpu := Function.update s.minPCpu m.dst minPA
      if m.direct = .swap then Function.update cpu m.src minPB else cpu
  let needsUpdate := p.2 || minPA ≠ minPB
  match m.direct with
  | .swap => ({ s with minPCpu := cpu }, needsUpdate)
  | .unidirectional =>
    ({ s with
        minPCpu := if minPA = 0 then cpu else Function.update cpu m.src 0
        minPCount := if minPB = 0 then s.minPCount else s.minPCount - 1 }, needsUpdate)

/-- The part of `update_state` on the array: while no row has a value, removed and moved rows are
not looked at. -/
def updateRows (minP : AddedRequest → α) (s : MinPState α) (u : BatchUpdate) :
    MinPState α × Bool :=
  let p := u.added.foldl (addRow minP) (s, false)
  if p.1.minPCount = 0 then p
  else u.moved.foldl moveRow (u.removed.foldl removeRow p.1, p.2 || !u.removed.isEmpty)

/-- `MinPLogitsProcessor.update_state`. -/
def updateState (minP : AddedRequest → α) (s : MinPState α) (batchUpdate : Option BatchUpdate) :
    MinPState α :=
  match batchUpdate with
  | none => s
  | some u =>
    let (s, needsUpdate) := s.updateRows minP u
    if s.minPCount ≠ 0 ∧ (needsUpdate ∨ s.minP.length ≠ u.batchSize) then
      { s with minP := (List.range u.batchSize).map s.minPCpu }
    else s

end MinPState

end RpsServe
