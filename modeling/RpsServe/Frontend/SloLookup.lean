import RpsServe.Frontend.AsyncLLM
import Mathlib.Data.List.Basic

/-!
# Objectives looked up by rewritten ids

The registry is keyed by the clients' ids, and `_add_request` looks a request up by its internal
id. The requests of a submission carry the objective of the client's id exactly when the registry
answers alike for the ids under which they are sent: at the latest when nothing was rewritten,
which takes both a disabled randomization and a submission without a fan-out.
-/

namespace RpsServe.Frontend

variable {P : Type}

/-- The client's id of a submission; of a prepared request, its own id counts. -/
def Submission.externalId : Submission P → String
  | .prompt requestId _ _ => requestId
  | .engineCoreRequest _ request _ => request.requestId
  | .stream requestId _ _ _ => requestId

/-- The sampling parameters ask for several samples of one prompt. -/
def Params.fansOut : Params → Bool
  | .sampling params => decide (params.n ≠ 1)
  | .pooling => false

/-- The submission is fanned out into children. -/
def Submission.fansOut : Submission P → Bool
  | .prompt _ _ params => params.fansOut
  | .engineCoreRequest _ request params => !params.isPooling && request.params.fansOut
  | .stream .. => false

/-- The number of samples that the parameters ask for. -/
def Params.samples : Params → ℕ
  | .sampling params => params.n
  | .pooling => 1

/-- The number of children that a submission is fanned out into. -/
def Submission.samples : Submission P → ℕ
  | .prompt _ _ params => params.samples
  | .engineCoreRequest _ request _ => request.params.samples
  | .stream .. => 1

/-- A stream that is cancelled before its first chunk sends nothing. -/
def Submission.sendsNothing : Submission P → Bool
  | .stream _ chunks cancelled _ => chunks.isEmpty && cancelled
  | _ => false

/-- The request carries this objective in its metadata. -/
def EngineCoreRequest.Carries (request : EngineCoreRequest P) (slo : ℚ) : Prop :=
  ∃ md, request.requestMd = some md ∧ md.slo = slo

/-- A request carries one objective. -/
theorem EngineCoreRequest.Carries.unique {request : EngineCoreRequest P} {slo slo' : ℚ}
    (h : request.Carries slo) (h' : request.Carries slo') : slo = slo' := by
  obtain ⟨md, hmd, rfl⟩ := h
  obtain ⟨md', hmd', rfl⟩ := h'
  rw [hmd] at hmd'
  cases hmd'
  rfl

namespace AsyncLLM

variable {llm : AsyncLLM P} {uuid : String} {submission : Submission P}
variable {request : EngineCoreRequest P} {sent : List (EngineCoreRequest P)}

/-- The ids under which the requests of a submission are sent. -/
def requestIds (llm : AsyncLLM P) (uuid : String) (submission : Submission P) : List String :=
  let internalId := llm.internalId uuid submission.externalId
  if submission.sendsNothing then []
  else if submission.fansOut then
    (List.range submission.samples).map fun index => toString index ++ "_" ++ internalId
  else [internalId]

/-! ## What is looked up -/

/-- Attaching the metadata keeps the id of a request. -/
@[simp] theorem attachMetadata_requestId :
    (llm.attachMetadata request).requestId = request.requestId := rfl

/-- A request is sent with the objective that the registry has for its internal id. -/
theorem attachMetadata_carries :
    (llm.attachMetadata request).Carries
      (llm.sloRegistry.getSloSafe request.requestId defaultSlo) :=
  ⟨_, rfl, rfl⟩

/-- Every request was looked up by the id under which it is sent. -/
def LookedUp (llm : AsyncLLM P) (sent : List (EngineCoreRequest P)) : Prop :=
  ∀ request ∈ sent, request.Carries (llm.sloRegistry.getSloSafe request.requestId defaultSlo)

/-- One request, or one a child. -/
theorem fanOut_sent {isPooling : Bool} (h : llm.fanOut isPooling request = .ok sent) :
    llm.LookedUp sent ∧ sent.map EngineCoreRequest.requestId =
      if !isPooling && request.params.fansOut then
        (List.range request.params.samples).map fun index =>
          toString index ++ "_" ++ request.requestId
      else [request.requestId] := by
  have hone : llm.LookedUp [llm.attachMetadata request] := by
    intro r hr
    rw [List.mem_singleton.mp hr]
    exact attachMetadata_carries
  unfold fanOut at h
  cases hpooling : isPooling with
  | true =>
    rw [hpooling, if_pos rfl] at h
    cases h
    exact ⟨hone, rfl⟩
  | false =>
    rw [hpooling, if_neg (by simp)] at h
    cases hparams : request.params with
    | pooling =>
      rw [hparams] at h
      cases h
    | sampling params =>
      rw [hparams] at h
      by_cases hn : params.n = 1
      · simp only [hn, if_true] at h
        cases h
        exact ⟨hone, by simp [Params.fansOut, hn]⟩
      · simp only [hn, if_false] at h
        cases h
        refine ⟨?_, ?_⟩
        · intro r hr
          obtain ⟨index, -, rfl⟩ := List.mem_map.mp hr
          exact attachMetadata_carries
        · simp [Params.fansOut, Params.samples, hn, getChildInfo]

/-- Assigning an id keeps the client's id as the external one. -/
theorem assignRequestId_eq {uuid : String} {request' : EngineCoreRequest P}
    (h : llm.assignRequestId uuid request = .ok request') :
    request' = { request with
      externalReqId := some request.requestId
      requestId := llm.internalId uuid request.requestId } := by
  unfold assignRequestId at h
  split at h
  · cases h
  · cases h
    rfl

/-- What the input processor makes of a submission without error. -/
theorem processInputs_eq {requestId : String} {prompt : P} {params : Params} {resumable : Bool}
    (h : llm.processInputs requestId prompt params resumable = .ok request) :
    request = { requestId, prompt, params, resumable } := by
  unfold processInputs at h
  split at h
  · cases h
    rfl
  · cases h

/-- The request for a chunk has the internal id of its stream. -/
theorem chunkRequest_requestId {requestId internalReqId : String}
    {samplingParams : SamplingParams} {chunk : P × Option SamplingParams}
    (h : llm.chunkRequest requestId internalReqId samplingParams chunk = .ok request) :
    request.requestId = internalReqId := by
  obtain ⟨params, -, h⟩ := bind_eq_ok.mp h
  obtain ⟨processed, hprocessed, h⟩ := bind_eq_ok.mp h
  split at h
  · cases h
  · cases h
    rw [processInputs_eq hprocessed]

/-- All requests of a stream are sent under its internal id, and looked up by it. -/
theorem handleInputs_sent {requestId : String} {samplingParams : SamplingParams}
    {cancelled : Bool} {finalReq : EngineCoreRequest P}
    (chunks : List (P × Option SamplingParams)) :
    llm.LookedUp (llm.handleInputs requestId samplingParams cancelled finalReq chunks) ∧
      ∀ r ∈ llm.handleInputs requestId samplingParams cancelled finalReq chunks,
        r.requestId = finalReq.requestId := by
  have hfinal : llm.LookedUp [llm.attachMetadata finalReq] ∧
      ∀ r ∈ [llm.attachMetadata finalReq], r.requestId = finalReq.requestId := by
    simp only [LookedUp, List.forall_mem_singleton]
    exact ⟨attachMetadata_carries, rfl⟩
  induction chunks with
  | nil =>
    unfold handleInputs
    cases cancelled with
    | true => simp [LookedUp]
    | false => exact hfinal
  | cons chunk rest ih =>
    unfold handleInputs
    split
    · exact hfinal
    · rename_i request hrequest
      simp only [LookedUp, List.forall_mem_cons, attachMetadata_requestId]
      exact ⟨⟨attachMetadata_carries, ih.1⟩, chunkRequest_requestId hrequest, ih.2⟩

/-- A stream sends a request, unless it is cancelled before its first chunk. -/
theorem handleInputs_eq_nil_iff {requestId : String} {samplingParams : SamplingParams}
    {cancelled : Bool} {finalReq : EngineCoreRequest P}
    (chunks : List (P × Option SamplingParams)) :
    llm.handleInputs requestId samplingParams cancelled finalReq chunks = [] ↔
      (chunks.isEmpty && cancelled) = true := by
  cases chunks with
  | nil => cases cancelled <;> simp [handleInputs]
  | cons chunk rest =>
    unfold handleInputs
    split <;> simp

/-- Every request of a submission was looked up by the id under which it is sent, and these ids are
the submission's request ids. -/
theorem addRequest_sent (h : llm.addRequest uuid submission = .ok sent) :
    llm.LookedUp sent ∧
      ∀ id, id ∈ llm.requestIds uuid submission ↔ ∃ r ∈ sent, r.requestId = id := by
  unfold addRequest at h
  split at h
  · cases h
  split at h
  · cases h
  have hfan : sent.map EngineCoreRequest.requestId = llm.requestIds uuid submission →
      ∀ id, id ∈ llm.requestIds uuid submission ↔ ∃ r ∈ sent, r.requestId = id := by
    intro hids id
    rw [← hids, List.mem_map]
  cases submission with
  | stream requestId chunks cancelled params =>
    obtain ⟨samplingParams, -, h⟩ := bind_eq_ok.mp h
    obtain ⟨processed, hprocessed, h⟩ := bind_eq_ok.mp h
    obtain ⟨finalReq, hassigned, h⟩ := bind_eq_ok.mp h
    cases h
    have hfinal : finalReq.requestId = llm.internalId uuid requestId := by
      rw [assignRequestId_eq hassigned, processInputs_eq hprocessed]
    have hids : ∀ r ∈ llm.handleInputs requestId samplingParams cancelled finalReq chunks,
        r.requestId = finalReq.requestId := (handleInputs_sent chunks).2
    have hnil : llm.handleInputs requestId samplingParams cancelled finalReq chunks = [] ↔
        (chunks.isEmpty && cancelled) = true := handleInputs_eq_nil_iff chunks
    refine ⟨(handleInputs_sent chunks).1, fun id => ?_⟩
    simp only [requestIds, Submission.sendsNothing, Submission.fansOut, Submission.externalId,
      Bool.false_eq_true, if_false, ← hfinal]
    split
    · rename_i hnothing
      simp [hnil.mpr hnothing]
    · rename_i hsome
      obtain ⟨r, hr⟩ := List.exists_mem_of_ne_nil _ fun heq => hsome (hnil.mp heq)
      constructor
      · intro hid
        exact ⟨r, hr, (hids r hr).trans (List.mem_singleton.mp hid).symm⟩
      · rintro ⟨r', hr', rfl⟩
        exact List.mem_singleton.mpr (hids r' hr')
  | engineCoreRequest requestId request params =>
    obtain ⟨assigned, hassigned, h⟩ := bind_eq_ok.mp h
    obtain ⟨hlooked, hids⟩ := fanOut_sent h
    rw [assignRequestId_eq hassigned] at hids
    exact ⟨hlooked, hfan hids⟩
  | prompt requestId prompt params =>
    obtain ⟨processed, hprocessed, h⟩ := bind_eq_ok.mp h
    obtain ⟨assigned, hassigned, h⟩ := bind_eq_ok.mp h
    obtain ⟨hlooked, hids⟩ := fanOut_sent h
    rw [assignRequestId_eq hassigned, processInputs_eq hprocessed] at hids
    have hpooling : (!params.isPooling && params.fansOut) = params.fansOut := by
      cases params with
      | sampling params => rfl
      | pooling => rfl
    rw [hpooling] at hids
    exact ⟨hlooked, hfan hids⟩

/-! ## Which ids are rewritten -/

/-- Nothing is rewritten when the randomization is disabled and the submission is not fanned out. -/
def Rewrites (llm : AsyncLLM P) (submission : Submission P) : Bool :=
  !llm.disableRequestIdRandomization || submission.fansOut

/-- Without rewriting, the requests are sent under the client's id. -/
theorem requestIds_of_not_rewrites (h : llm.Rewrites submission = false) {id : String}
    (hid : id ∈ llm.requestIds uuid submission) : id = submission.externalId := by
  rw [Rewrites, Bool.or_eq_false_iff, Bool.not_eq_false'] at h
  unfold requestIds at hid
  split at hid
  · cases hid
  · rw [h.2, if_neg (by simp), internalId, if_pos h.1] at hid
    exact List.mem_singleton.mp hid

/-- A rewritten id is longer than the client's, so that it differs from it. -/
theorem requestIds_of_rewrites (h : llm.Rewrites submission = true) {id : String}
    (hid : id ∈ llm.requestIds uuid submission) : id ≠ submission.externalId := by
  have hone : "-".length = 1 ∧ "_".length = 1 := ⟨rfl, rfl⟩
  have hinternal : submission.externalId.length ≤
      (llm.internalId uuid submission.externalId).length := by
    unfold internalId
    split
    · exact le_rfl
    · rw [String.length_append, String.length_append]
      omega
  have hlonger : submission.externalId.length < id.length := by
    unfold requestIds at hid
    split at hid
    · cases hid
    · split at hid
      · obtain ⟨index, -, rfl⟩ := List.mem_map.mp hid
        rw [String.length_append, String.length_append]
        omega
      · rename_i hfan
        have hrandom : llm.disableRequestIdRandomization = false := by
          simpa [Rewrites, hfan] using h
        rw [List.mem_singleton.mp hid, internalId, if_neg (by simp [hrandom]),
          String.length_append, String.length_append]
        omega
  exact fun heq => absurd (congrArg String.length heq) (Nat.ne_of_gt hlonger)

/-! ## The objectives of a submission -/

/-- The requests of a submission carry the objective of the client's id, or the default one where
this id is not registered, exactly when no id is rewritten or the registry answers for every
rewritten id as for the client's. -/
theorem carries_iff (h : llm.addRequest uuid submission = .ok sent) :
    (∀ request ∈ sent,
      request.Carries (llm.sloRegistry.getSloSafe submission.externalId defaultSlo)) ↔
      llm.Rewrites submission = false ∨ ∀ id ∈ llm.requestIds uuid submission,
        llm.sloRegistry.getSloSafe id defaultSlo =
          llm.sloRegistry.getSloSafe submission.externalId defaultSlo := by
  obtain ⟨hlooked, hids⟩ := addRequest_sent h
  constructor
  · intro hcarries
    refine .inr fun id hid => ?_
    obtain ⟨request, hrequest, rfl⟩ := (hids id).mp hid
    exact (hlooked request hrequest).unique (hcarries request hrequest)
  · intro hcond request hrequest
    have hid := (hids request.requestId).mpr ⟨request, hrequest, rfl⟩
    rcases hcond with hkeep | hsame
    · rw [← requestIds_of_not_rewrites hkeep hid]
      exact hlooked request hrequest
    · rw [← hsame request.requestId hid]
      exact hlooked request hrequest

/-- A frontend whose registry holds the objective 5 for the id `r`, with the randomization on or
off. -/
def registeredFrontend (disableRequestIdRandomization : Bool) : AsyncLLM Unit where
  disableRequestIdRandomization := disableRequestIdRandomization
  sloRegistry := { reqToSlo := Dict.empty.set "r" 5 }
  accepts := fun _ _ => true
  promptEmbeds := fun _ => false
  finalPrompt := ()
  prefillTimeEstimator := fun _ => 0
  requestClassifier := fun _ => "unknown"

/-- Without the randomization, a submission of one sample is looked up by its own id. -/
theorem carries_iff_of_registeredFrontend :
    ∃ sent, (registeredFrontend true).addRequest "0123456789abcdef"
        (.prompt "r" () (.sampling {})) = .ok sent ∧
      ∀ request ∈ sent, request.Carries
        ((registeredFrontend true).sloRegistry.getSloSafe "r" defaultSlo) := by
  have hsent : (registeredFrontend true).addRequest "0123456789abcdef"
      (.prompt "r" () (.sampling {})) = .ok [_] := rfl
  exact ⟨_, hsent, (carries_iff hsent).mpr (.inl rfl)⟩

/-- With the randomization, a submission of one sample under the registered id `r` is looked up by
another id, and carries the default objective. -/
theorem registeredFrontend_misses :
    ∃ sent, (registeredFrontend false).addRequest "0123456789abcdef"
        (.prompt "r" () (.sampling {})) = .ok sent ∧
      ¬∀ request ∈ sent, request.Carries
        ((registeredFrontend false).sloRegistry.getSloSafe "r" defaultSlo) := by
  refine ⟨_, rfl, fun hcarries => ?_⟩
  have hdefault := attachMetadata_carries.unique (hcarries _ List.mem_cons_self)
  revert hdefault
  decide +kernel

/-- Where no rewritten id is registered, a rewritten submission carries the default objective,
whatever the client's id is registered with. -/
theorem carries_default (h : llm.addRequest uuid submission = .ok sent)
    (hfresh : ∀ id ∈ llm.sloRegistry.reqToSlo.keys, id ∉ llm.requestIds uuid submission)
    {request : EngineCoreRequest P} (hrequest : request ∈ sent) : request.Carries defaultSlo := by
  obtain ⟨hlooked, hids⟩ := addRequest_sent h
  have hid := (hids request.requestId).mpr ⟨request, hrequest, rfl⟩
  have hnone : llm.sloRegistry.reqToSlo.get? request.requestId = none := by
    cases hget : llm.sloRegistry.reqToSlo.get? request.requestId with
    | none => rfl
    | some slo => exact absurd hid (hfresh _ (Dict.mem_keys_of_get? hget))
  have hcarries := hlooked request hrequest
  rwa [SLORegistry.getSloSafe, hnone] at hcarries

end AsyncLLM

end RpsServe.Frontend
