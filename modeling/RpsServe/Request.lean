import RpsServe.Lib.Dict
import Mathlib.Data.Finset.Defs
import Mathlib.Algebra.Order.Ring.Int

/-!
# Requests

The data of `Request` that the scheduler reads or writes. A request id stands for the
engine's internal id string: the code only compares ids and orders them. Times are counted
in the scheduler's resolution of `10⁻⁷` s. Logging, metrics and payload fields that no
scheduling decision reads are left out.
-/

namespace RpsServe

/-- An internal request id. -/
abbrev ReqId := ℕ

/-- A token id; drafts that are not known yet are `-1`. -/
abbrev Token := ℤ

/-- The content hash of a multimodal item. -/
abbrev MmHash := ℕ

/-- The content hash of a full KV block. -/
abbrev BlockHash := ℕ

/-- `RequestStatus`, in the order of the enumeration. -/
inductive RequestStatus where
  | waiting
  | waitingForStructuredOutputGrammar
  | waitingForRemoteKvs
  | waitingForStreamingReq
  | running
  | preempted
  | finishedStopped
  | finishedLengthCapped
  | finishedAborted
  | finishedIgnored
  | finishedError
  | finishedRepetition
deriving DecidableEq, Repr

/-- Anything after `PREEMPTED` is a finished status. -/
def RequestStatus.isFinished : RequestStatus → Bool
  | .waiting | .waitingForStructuredOutputGrammar | .waitingForRemoteKvs
  | .waitingForStreamingReq | .running | .preempted => false
  | _ => true

/-- The statuses of `_is_blocked_waiting_status`. -/
def RequestStatus.isBlockedWaiting : RequestStatus → Bool
  | .waitingForStructuredOutputGrammar | .waitingForRemoteKvs | .waitingForStreamingReq => true
  | _ => false

/-- The category strings the rankings recognise; `other` is any other nonempty string. -/
inductive Category where
  | sand
  | pebbles
  | rocks
  | other
deriving DecidableEq, Repr

/-- `RequestMetadata`: the classifier's category, absent when the string is empty, and the SLO. -/
structure RequestMetadata where
  category : Option Category := some .other
  slo : ℤ := 0
deriving DecidableEq

/-- A multimodal item with its placeholder range. The mask, when present, has the range's length. -/
structure MmFeature where
  identifier : MmHash
  offset : ℕ
  length : ℕ
  isEmbed : Option (List Bool) := none
  isEmbed_length : ∀ mask, isEmbed = some mask → mask.length = length := by simp
deriving DecidableEq

namespace MmFeature

/-- An item whose placeholder positions all hold embeddings. -/
def unmasked (identifier : MmHash) (offset length : ℕ) : MmFeature := { identifier, offset, length }

/-- `embeds_cumsum[n - 1]`, with `0` before the first position. -/
def embedsBefore (mask : List Bool) (n : ℕ) : ℕ := (mask.take n).count true

/-- The number of embeddings of the item. -/
def getNumEmbeds (f : MmFeature) : ℕ :=
  match f.isEmbed with
  | none => f.length
  | some mask => embedsBefore mask mask.length

/-- The embedding indices of the placeholder positions in `[startIdx, endIdx)`. -/
def getEmbedsIndicesInRange (f : MmFeature) (startIdx endIdx : ℤ) : ℤ × ℤ :=
  match f.isEmbed with
  | none => (startIdx, endIdx)
  | some mask => (embedsBefore mask startIdx.toNat, embedsBefore mask endIdx.toNat)

end MmFeature

/-- The parameters of repetition detection. -/
structure RepetitionDetectionParams where
  maxPatternSize : ℤ
  minPatternSize : ℤ
  minCount : ℤ
deriving DecidableEq

/-- The sampling parameters that decide when a request stops. -/
structure SamplingParams where
  minTokens : ℕ := 0
  eosTokenId : Option Token := none
  stopTokenIds : List Token := []
  repetitionDetection : Option RepetitionDetectionParams := none
deriving DecidableEq

/-- The next input chunk of a streaming session. -/
structure StreamingUpdate where
  mmFeatures : List MmFeature
  promptTokenIds : List Token
  maxTokens : ℕ
  arrivalTime : ℤ
  samplingParams : SamplingParams
deriving DecidableEq

/-- `Request`. A `poolingParams` of `true` stands for pooling parameters being set, `prefillStats`
of `true` for statistics not taken yet, and `loraRequest` holds the adapter's integer id. -/
structure Request where
  requestId : ReqId
  priority : ℤ := 0
  samplingParams : SamplingParams := {}
  poolingParams : Bool := false
  loraRequest : Option ℕ := none
  useStructuredOutput : Bool := false
  arrivalTime : ℤ
  status : RequestStatus := .waiting
  maxTokens : ℕ
  promptTokenIds : List Token
  numPromptTokens : ℕ
  outputTokenIds : List Token := []
  allTokenIds : List Token
  numOutputPlaceholders : ℤ := 0
  asyncTokensToDiscard : ℤ := 0
  specTokenIds : List Token := []
  numComputedTokens : ℤ := 0
  mmFeatures : List MmFeature := []
  isPrefillChunk : Bool := false
  numPreemptions : ℕ := 0
  prefillStats : Bool := true
  blockHashes : List BlockHash := []
  skipReadingPrefixCache : Bool := false
  resumable : Bool := false
  streamingQueue : Option (List (Option StreamingUpdate)) := none
  requestMd : Option RequestMetadata := none
deriving DecidableEq

namespace Request

/-- The object read at an id that no request was ever admitted under. -/
instance : Inhabited Request :=
  ⟨{ requestId := 0, arrivalTime := 0, maxTokens := 0, promptTokenIds := [], numPromptTokens := 0,
     allTokenIds := [] }⟩

/-- `Request.num_tokens`. -/
def numTokens (r : Request) : ℕ := r.allTokenIds.length

/-- `Request.num_tokens_with_spec`. -/
def numTokensWithSpec (r : Request) : ℕ := r.allTokenIds.length + r.specTokenIds.length

/-- `Request.num_output_tokens`. -/
def numOutputTokens (r : Request) : ℕ := r.outputTokenIds.length

/-- `Request.has_encoder_inputs`. -/
def hasEncoderInputs (r : Request) : Bool := !r.mmFeatures.isEmpty

/-- `Request.is_finished`. -/
def isFinished (r : Request) : Bool := r.status.isFinished

/-- The embeddings of the item `inputId`; the index is one of the request's own items. -/
def getNumEncoderEmbeds (r : Request) (inputId : ℕ) : ℕ :=
  match r.mmFeatures[inputId]? with
  | some f => f.getNumEmbeds
  | none => 0

/-- `update_block_hashes`: append the hashes of the blocks that became full. -/
def updateBlockHashes (blockHasher : Request → List BlockHash) (r : Request) : Request :=
  { r with blockHashes := r.blockHashes ++ blockHasher r }

/-- `append_output_token_ids` for one token. -/
def appendOutputTokenId (blockHasher : Request → List BlockHash) (r : Request) (token : Token) :
    Request :=
  updateBlockHashes blockHasher
    { r with outputTokenIds := r.outputTokenIds ++ [token], allTokenIds := r.allTokenIds ++ [token] }

/-- `Request.__init__`: a new request object, with the status it is created in and the hashes of
its full prompt blocks. -/
def create (blockHasher : Request → List BlockHash) (r : Request) : Request :=
  updateBlockHashes blockHasher
    { requestId := r.requestId, priority := r.priority, samplingParams := r.samplingParams,
      poolingParams := r.poolingParams, loraRequest := r.loraRequest,
      useStructuredOutput := r.useStructuredOutput, arrivalTime := r.arrivalTime,
      status := if r.useStructuredOutput && !r.poolingParams then
        .waitingForStructuredOutputGrammar else .waiting,
      maxTokens := if r.poolingParams then 1 else r.maxTokens,
      promptTokenIds := r.promptTokenIds, numPromptTokens := r.promptTokenIds.length,
      allTokenIds := r.promptTokenIds, mmFeatures := r.mmFeatures,
      skipReadingPrefixCache := r.skipReadingPrefixCache, resumable := r.resumable,
      requestMd := r.requestMd }

/-- `Request.__lt__`: by priority, arrival time and id. -/
def lt (a b : Request) : Bool :=
  if a.priority ≠ b.priority then a.priority < b.priority
  else if a.arrivalTime ≠ b.arrivalTime then a.arrivalTime < b.arrivalTime
  else a.requestId < b.requestId

/-- `StreamingUpdate.from_request`: a request that is not resumable ends its session. -/
def toStreamingUpdate (r : Request) : Option StreamingUpdate :=
  if r.resumable then
    some { mmFeatures := r.mmFeatures, promptTokenIds := r.promptTokenIds,
           maxTokens := r.maxTokens, arrivalTime := r.arrivalTime,
           samplingParams := r.samplingParams }
  else none

end Request

end RpsServe
