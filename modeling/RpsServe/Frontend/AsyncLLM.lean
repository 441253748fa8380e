import RpsServe.Frontend.SloRegistry

/-!
# Submission of requests

`AsyncLLM.add_request` turns a submission into the requests that it sends to the engine core:
one, one for each of `n` samples, or one for each chunk of an input stream. On the way the
client's id is replaced by an internal one (`InputProcessor.assign_request_id`), a fan-out
prefixes it once more (`ParentRequest.get_child_info`), and the metadata with the objective is
attached (`AsyncLLM._add_request`). The type of prompts is a parameter, as are the validation of
a prompt, the estimate of its prefill time and its category, which rest on the model.
-/

namespace RpsServe.Frontend

/-- `SamplingParams`: the fields that the frontend reads. -/
structure SamplingParams where
  n : ℕ := 1
  seed : Option ℤ := none
  promptLogprobs : Bool := false
  finalOnly : Bool := false
  stop : Bool := false

/-- `SamplingParams | PoolingParams`. -/
inductive Params where
  | sampling (params : SamplingParams)
  | pooling

/-- `RequestMetadata`. -/
structure RequestMetadata where
  estimatedTime : ℚ
  category : String := "unknown"
  stl : Bool := false
  slo : ℚ := 0

/-- `EngineCoreRequest`: the fields that the frontend reads or writes. -/
structure EngineCoreRequest (P : Type) where
  requestId : String
  prompt : P
  params : Params
  resumable : Bool := false
  externalReqId : Option String := none
  requestMd : Option RequestMetadata := none

/-- `AsyncLLM`: the settings and parts that `add_request` uses. -/
structure AsyncLLM (P : Type) where
  errored : Bool := false
  kvSharingFastPrefill : Bool := false
  disableRequestIdRandomization : Bool := false
  sloRegistry : SLORegistry
  /-- The validation of a prompt and its parameters in `process_inputs`. -/
  accepts : P → Params → Bool
  /-- The prompt carries embeddings. -/
  promptEmbeds : P → Bool
  /-- The prompt of the single token 0, which the closing request of a stream has. -/
  finalPrompt : P
  prefillTimeEstimator : EngineCoreRequest P → ℚ
  requestClassifier : EngineCoreRequest P → String

/-- A call of `add_request`: with a prompt, with a prepared `EngineCoreRequest`, or with a stream of
chunks that ends by itself or is cancelled after the last chunk that it gives. -/
inductive Submission (P : Type) where
  | prompt (requestId : String) (prompt : P) (params : Params)
  | engineCoreRequest (requestId : String) (request : EngineCoreRequest P) (params : Params)
  | stream (requestId : String) (chunks : List (P × Option SamplingParams)) (cancelled : Bool)
      (params : Params)

/-- The call is for a pooling model. -/
def Params.isPooling : Params → Bool
  | .sampling _ => false
  | .pooling => true

/-- The call samples and asks for the log probabilities of its prompt. -/
def Params.promptLogprobs : Params → Bool
  | .sampling params => params.promptLogprobs
  | .pooling => false

/-- The parameters that the call passes. -/
def Submission.params {P : Type} : Submission P → Params
  | .prompt _ _ params => params
  | .engineCoreRequest _ _ params => params
  | .stream _ _ _ params => params

/-- The child's parameters: a copy with one sample, and a seed of its own where there is one. -/
def SamplingParams.child (params : SamplingParams) (index : ℕ) : SamplingParams :=
  { params with n := 1, seed := params.seed.map fun seed => seed + index }

/-- `ParentRequest.get_child_info`: the child's id and parameters. -/
def getChildInfo (parentId : String) (params : SamplingParams) (index : ℕ) :
    String × SamplingParams :=
  (toString index ++ "_" ++ parentId, params.child index)

/-- `AsyncLLM._validate_streaming_input_sampling_params`. -/
def validateStreamingInputSamplingParams : Params → Except FrontendError SamplingParams
  | .pooling => .error .valueError
  | .sampling params =>
    if 1 < params.n ∨ params.finalOnly = true ∨ params.stop = true then .error .valueError
    else .ok params

/-- The parameters for a chunk: its own, which are validated first, or those of the stream. -/
def chunkSamplingParams (samplingParams : SamplingParams) :
    Option SamplingParams → Except FrontendError SamplingParams
  | none => .ok samplingParams
  | some params => validateStreamingInputSamplingParams (.sampling params)

namespace AsyncLLM

variable {P : Type} (llm : AsyncLLM P)

/-- `InputProcessor.process_inputs`. -/
def processInputs (requestId : String) (prompt : P) (params : Params) (resumable : Bool := false) :
    Except FrontendError (EngineCoreRequest P) :=
  if llm.accepts prompt params then .ok { requestId, prompt, params, resumable }
  else .error .valueError

/-- The internal id for a client's id: with eight characters of a fresh `uuid` behind it, unless the
randomization is disabled. -/
def internalId (uuid externalId : String) : String :=
  if llm.disableRequestIdRandomization then externalId
  else externalId ++ "-" ++ String.ofList (uuid.toList.take 8)

/-- `InputProcessor.assign_request_id`. -/
def assignRequestId (uuid : String) (request : EngineCoreRequest P) :
    Except FrontendError (EngineCoreRequest P) :=
  match request.externalReqId with
  | some _ => .error .valueError
  | none =>
    .ok { request with
      externalReqId := some request.requestId
      requestId := llm.internalId uuid request.requestId }

/-- The objective of a request that the registry does not know. -/
def defaultSlo : ℚ := 1000

/-- `AsyncLLM._add_request`: the request as it is sent to the engine core. -/
def attachMetadata (request : EngineCoreRequest P) : EngineCoreRequest P :=
  let md : RequestMetadata := { estimatedTime := llm.prefillTimeEstimator request }
  let category := llm.requestClassifier { request with requestMd := some md }
  let slo := llm.sloRegistry.getSloSafe request.requestId defaultSlo
  { request with requestMd := some { md with category, slo } }

/-- The end of `add_request` for a request with its internal id: one request, or one a sample. -/
def fanOut (isPooling : Bool) (request : EngineCoreRequest P) :
    Except FrontendError (List (EngineCoreRequest P)) :=
  if isPooling then .ok [llm.attachMetadata request]
  else
    match request.params with
    | .pooling => .error .attributeError
    | .sampling params =>
      if params.n = 1 then .ok [llm.attachMetadata request]
      else
        .ok <| (List.range params.n).map fun index =>
          let child := getChildInfo request.requestId params index
          llm.attachMetadata { request with requestId := child.1, params := .sampling child.2 }

/-- The request for one chunk of a stream, under the internal id of the stream. -/
def chunkRequest (requestId internalReqId : String) (samplingParams : SamplingParams)
    (chunk : P × Option SamplingParams) : Except FrontendError (EngineCoreRequest P) := do
  let params ← chunkSamplingParams samplingParams chunk.2
  let request ← llm.processInputs internalReqId chunk.1 (.sampling params) true
  if llm.promptEmbeds chunk.1 then .error .valueError
  else return { request with externalReqId := some requestId }

/-- `handle_inputs`: the requests for the chunks up to the first that fails, and the closing request
unless the stream was cancelled. -/
def handleInputs (requestId : String) (samplingParams : SamplingParams) (cancelled : Bool)
    (finalReq : EngineCoreRequest P) :
    List (P × Option SamplingParams) → List (EngineCoreRequest P)
  | [] => if cancelled then [] else [llm.attachMetadata finalReq]
  | chunk :: rest =>
    match llm.chunkRequest requestId finalReq.requestId samplingParams chunk with
    | .error _ => [llm.attachMetadata finalReq]
    | .ok request =>
      llm.attachMetadata request ::
        handleInputs requestId samplingParams cancelled finalReq rest

/-- `AsyncLLM._add_streaming_input_request`. -/
def addStreamingInputRequest (uuid requestId : String)
    (chunks : List (P × Option SamplingParams)) (cancelled : Bool) (params : Params) :
    Except FrontendError (List (EngineCoreRequest P)) := do
  let samplingParams ← validateStreamingInputSamplingParams params
  let finalReq ← llm.processInputs requestId llm.finalPrompt (.sampling samplingParams)
  let finalReq ← llm.assignRequestId uuid finalReq
  return llm.handleInputs requestId samplingParams cancelled finalReq chunks

/-- `AsyncLLM.add_request`: the requests that are sent to the engine core for a submission, in their
order. -/
def addRequest (uuid : String) (submission : Submission P) :
    Except FrontendError (List (EngineCoreRequest P)) :=
  if llm.errored then .error .engineDead
  else if llm.kvSharingFastPrefill && submission.params.promptLogprobs then .error .valueError
  else
    match submission with
    | .stream requestId chunks cancelled params =>
      llm.addStreamingInputRequest uuid requestId chunks cancelled params
    | .engineCoreRequest _ request params => do
      let request ← llm.assignRequestId uuid request
      llm.fanOut params.isPooling request
    | .prompt requestId prompt params => do
      let request ← llm.processInputs requestId prompt params
      let request ← llm.assignRequestId uuid request
      llm.fanOut params.isPooling request

end AsyncLLM

end RpsServe.Frontend
