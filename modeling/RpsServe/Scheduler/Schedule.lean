import RpsServe.Scheduler.LoopState
import Mathlib.Data.Finset.Option

/-!
# One step of the scheduler

`schedule` ranks the requests, merges the queues into one list and walks it. A running
candidate is given its next tokens, a waiting one is admitted, and both preempt the least
urgent running requests while blocks are missing. What a spent token budget leaves running
behind the walk is preempted too, the queues are rebuilt from the merged list, and the
output for the workers is put together.
-/

namespace RpsServe

/-- How a block of the loop's body ends: `continue`, `break`, or on to the next statement. -/
inductive Flow (σ : Type*) where
  | goOn (s : σ)
  | leave (s : σ)
  | fall (s : σ)

/-- What a candidate is to be given before its blocks are allocated. -/
structure Grant where
  numNewTokens : ℤ
  encoderInputsToSchedule : List ℕ := []
  externalLoadEncoderInput : List ℕ := []
  newEncoderComputeBudget : ℤ

/-- The tokens of a waiting candidate that are computed already. -/
structure CachedPrefix where
  newComputedBlocks : KVCacheBlocks
  numNewLocalComputedTokens : ℤ
  numExternalComputedTokens : ℤ
  loadKvAsync : Bool
  numComputedTokens : ℤ

/-- What is decided about a waiting candidate before its blocks are allocated. -/
inductive Admission (E : Type) where
  /-- Its multimodal items can never fit. -/
  | ignored
  /-- The walk ends at it. -/
  | blocked (enc : E)
  | granted (enc : E) (g : Grant)

/-- `long_prefill_token_threshold`, when one is set. -/
def Config.capPrefill (cfg : Config) (numNewTokens : ℤ) : ℤ :=
  if 0 < cfg.longPrefillTokenThreshold ∧ cfg.longPrefillTokenThreshold < numNewTokens then
    cfg.longPrefillTokenThreshold
  else numNewTokens

/-- `_mamba_block_aligned_split`. -/
def mambaBlockAlignedSplit (cfg : Config) (q : Request) (numNewTokens : ℤ)
    (numNewLocalComputedTokens numExternalComputedTokens : ℤ := 0) : Except SchedError ℤ :=
  if numExternalComputedTokens ≠ 0 then .error .externalTokens
  else
    let numComputedTokens :=
      q.numComputedTokens + numNewLocalComputedTokens + numExternalComputedTokens
    if numComputedTokens < max (q.numPromptTokens : ℤ) (q.numTokens - 1) then
      let blockSize : ℤ := cfg.cacheBlockSize
      let lastCachePosition := (q.numTokens : ℤ) - q.numTokens % blockSize
      let lastCachePosition :=
        if cfg.useEagle then max (lastCachePosition - blockSize) 0 else lastCachePosition
      let numComputedTokensAfterSched := numComputedTokens + numNewTokens
      if numComputedTokensAfterSched < lastCachePosition then
        .ok (numNewTokens / blockSize * blockSize)
      else if numComputedTokens < lastCachePosition ∧
          lastCachePosition < numComputedTokensAfterSched then
        .ok (lastCachePosition - numComputedTokens)
      else .ok numNewTokens
    else .ok numNewTokens

/-- The split where the model has mamba layers in alignment mode. -/
def alignTokens (cfg : Config) (q : Request) (numNewTokens : ℤ)
    (numNewLocalComputedTokens numExternalComputedTokens : ℤ := 0) : Except SchedError ℤ :=
  if cfg.needMambaBlockAlignedSplit then
    mambaBlockAlignedSplit cfg q numNewTokens numNewLocalComputedTokens numExternalComputedTokens
  else .ok numNewTokens

/-- Async scheduling: the steps in flight already reach the request's `max_tokens`. -/
def reachesMaxTokens (q : Request) : Bool :=
  0 < q.numOutputPlaceholders &&
    q.numPromptTokens + q.maxTokens ≤ q.numComputedTokens + 2 - q.numOutputPlaceholders

/-- The prompt does not fit the KV cache even when it is empty. -/
def oversizePrompt (cfg : Config) (q : Request) : Bool :=
  cfg.numBlocks * cfg.blockSize < q.numPromptTokens

/-- The multimodal items together fit neither the encoder cache nor its compute budget. -/
def oversizeEncoderInputs {E : Type} [EncoderCache E] (cfg : Config) (enc : E) (q : Request) :
    Bool :=
  let encoderTokens := (q.mmFeatures.map MmFeature.getNumEmbeds).sum
  EncoderCache.cacheSize enc < encoderTokens || cfg.maxNumEncoderInputTokens < encoderTokens

namespace LoopState

variable {K E : Type} [KVCacheManager K] [EncoderCache E]

/-- Record the encoder inputs of a scheduled request and allocate them in the encoder cache. -/
def commitEncoderInputs (r : ReqId) (g : Grant) (ls : LoopState K E) :
    Except SchedError (LoopState K E) := do
  let enc ← allocateEncoderInputs (ls.req r)
    (g.encoderInputsToSchedule ++ g.externalLoadEncoderInput) ls.sch.enc
  .ok { ls.setEnc enc with
    scheduledEncoderInputs :=
      if g.encoderInputsToSchedule = [] then ls.scheduledEncoderInputs
      else ls.scheduledEncoderInputs.set r g.encoderInputsToSchedule
    encoderComputeBudget :=
      if g.encoderInputsToSchedule = [] then ls.encoderComputeBudget
      else g.newEncoderComputeBudget }

/-- The tokens a running request asks for before its encoder inputs are looked at. -/
def runningTokens (cfg : Config) (q : Request) (tokenBudget : ℤ) : ℤ :=
  let numNewTokens := (q.numTokensWithSpec : ℤ) + q.numOutputPlaceholders - q.numComputedTokens
  min (min (cfg.capPrefill numNewTokens) tokenBudget) (cfg.maxModelLen - 1 - q.numComputedTokens)

/-- The grant of a running candidate. -/
def runningGrant (cfg : Config) (env : StepEnv) (r : ReqId) (ls : LoopState K E) :
    Except SchedError (E × Grant) := do
  let q := ls.req r
  let p ← tryScheduleEncoderInputs cfg env ls.sch.enc q q.numComputedTokens
    (runningTokens cfg q ls.tokenBudget) ls.encoderComputeBudget cfg.shiftComputedTokens
  let numNewTokens ← alignTokens cfg q p.numNewTokens
  .ok (p.enc, {
    numNewTokens := numNewTokens
    encoderInputsToSchedule := p.encoderInputsToSchedule
    externalLoadEncoderInput := p.externalLoadEncoderInput
    newEncoderComputeBudget := p.encoderComputeBudget })

/-- The draft tokens of a running request are scheduled as far as the grant covers them, and
forgotten. -/
def scheduleSpecTokens (r : ReqId) (numNewTokens : ℤ) (ls : LoopState K E) : LoopState K E :=
  let q := ls.req r
  let numScheduledSpecTokens :=
    numNewTokens + q.numComputedTokens - q.numTokens - q.numOutputPlaceholders
  { ls.modifyReq r fun q => { q with specTokenIds := [] } with
    scheduledSpecDecodeTokens :=
      if q.specTokenIds ≠ [] ∧ 0 < numScheduledSpecTokens then
        ls.scheduledSpecDecodeTokens.set r (q.specTokenIds.take numScheduledSpecTokens.toNat)
      else ls.scheduledSpecDecodeTokens }

/-- Schedule a running candidate whose blocks were found. -/
def scheduleRunning (r : ReqId) (g : Grant) (newBlocks : KVCacheBlocks) (ls : LoopState K E) :
    Except SchedError (LoopState K E) :=
  let ls := { ls with
    scheduledRunningReqs := ls.scheduledRunningReqs ++ [r]
    reqToNewBlocks := ls.reqToNewBlocks.set r newBlocks
    numScheduledTokens := ls.numScheduledTokens.set r g.numNewTokens
    tokenBudget := ls.tokenBudget - g.numNewTokens
    reqIndex := ls.reqIndex + 1 }
  (ls.scheduleSpecTokens r g.numNewTokens).commitEncoderInputs r g

/-- The arguments a running candidate's blocks are allocated with. -/
def runningArgs (cfg : Config) (g : Grant) : AllocateSlotsArgs where
  numNewTokens := g.numNewTokens
  numLookaheadTokens := cfg.numLookaheadTokens

/-- The branch of a candidate in the running ids. -/
def runningCandidate (cfg : Config) (env : StepEnv) (r : ReqId) (ls : LoopState K E) :
    Except SchedError (Flow (LoopState K E)) := do
  let (enc, g) ← ls.runningGrant cfg env r
  let ls := ls.setEnc enc
  if g.numNewTokens = 0 then .ok (.goOn ls.advance)
  else do
    let (newBlocks, ls) ← ls.allocLoop r (runningArgs cfg g)
    match newBlocks with
    | none => .ok (.leave ls)
    | some newBlocks => do
      let ls ← ls.scheduleRunning r g newBlocks
      .ok (.fall ls)

/-- Give a waiting candidate up for good. It stays in the merged list. -/
def ignore (r : ReqId) (ls : LoopState K E) : Except SchedError (Flow (LoopState K E)) := do
  let ls := ls.modifyReq r fun q => { q with status := .finishedIgnored }
  let qm ← ls.qm.updateIdxsAfterIgnored
  .ok (.goOn (ls.setQm qm).advance)

/-- Pass over a waiting candidate in this step. -/
def skip (ls : LoopState K E) : Except SchedError (Flow (LoopState K E)) := do
  let qm ← ls.qm.updateIdxsAfterSkipped
  .ok (.goOn (ls.setQm qm).advance)

/-- The computed prefix of a waiting candidate; `none` while the KV connector cannot tell. -/
def cachedPrefix (cfg : Config) (env : StepEnv) (r : ReqId) (ls : LoopState K E) :
    Except SchedError (Option CachedPrefix) :=
  let q := ls.req r
  if q.numComputedTokens = 0 then
    let (newComputedBlocks, numNewLocalComputedTokens) :=
      KVCacheManager.getComputedBlocks ls.sch.kv q
    let (extTokens, loadKvAsync) :=
      if cfg.connector then env.getNumNewMatchedTokens r numNewLocalComputedTokens
      else (some 0, false)
    match extTokens with
    | none => .ok none
    | some numExternalComputedTokens =>
      let numComputedTokens := numNewLocalComputedTokens + numExternalComputedTokens
      if numComputedTokens ≤ q.numTokens ∧
          (q.prefillStats → numComputedTokens ≤ q.numPromptTokens) then
        .ok (some {
          newComputedBlocks := newComputedBlocks
          numNewLocalComputedTokens := numNewLocalComputedTokens
          numExternalComputedTokens := numExternalComputedTokens
          loadKvAsync := loadKvAsync
          numComputedTokens := numComputedTokens })
      else .error .tooManyComputedTokens
  else
    .ok (some {
      newComputedBlocks := KVCacheManager.emptyKvCacheBlocks ls.sch.kv
      numNewLocalComputedTokens := 0
      numExternalComputedTokens := 0
      loadKvAsync := false
      numComputedTokens := q.numComputedTokens })

/-- The mamba split of a waiting candidate's grant, after which it needs a token. -/
def alignGrant (cfg : Config) (q : Request) (c : CachedPrefix) (enc : E) (g : Grant) :
    Except SchedError (Admission E) := do
  let numNewTokens ← alignTokens cfg q g.numNewTokens c.numNewLocalComputedTokens
    c.numExternalComputedTokens
  if cfg.needMambaBlockAlignedSplit ∧ numNewTokens = 0 then .ok (.blocked enc)
  else .ok (.granted enc { g with numNewTokens := numNewTokens })

/-- The grant of a waiting candidate. -/
def waitingGrant (cfg : Config) (env : StepEnv) (r : ReqId) (c : CachedPrefix)
    (ls : LoopState K E) : Except SchedError (Admission E) :=
  let q := ls.req r
  if c.loadKvAsync then
    if 0 < c.numExternalComputedTokens then
      alignGrant cfg q c ls.sch.enc
        { numNewTokens := 0, newEncoderComputeBudget := ls.encoderComputeBudget }
    else .error .externalTokens
  else
    let numNewTokens := cfg.capPrefill (q.numTokens - c.numComputedTokens)
    if ¬ cfg.enableChunkedPrefill ∧ ls.tokenBudget < numNewTokens then .ok (.blocked ls.sch.enc)
    else
      let numNewTokens := min numNewTokens ls.tokenBudget
      if numNewTokens ≤ 0 then .error .noNewTokens
      else if q.hasEncoderInputs ∧ oversizeEncoderInputs cfg ls.sch.enc q then .ok .ignored
      else do
        let p ← tryScheduleEncoderInputs cfg env ls.sch.enc q c.numComputedTokens numNewTokens
          ls.encoderComputeBudget cfg.shiftComputedTokens
        if p.numNewTokens = 0 then .ok (.blocked p.enc)
        else
          alignGrant cfg q c p.enc {
            numNewTokens := p.numNewTokens
            encoderInputsToSchedule := p.encoderInputsToSchedule
            externalLoadEncoderInput := p.externalLoadEncoderInput
            newEncoderComputeBudget := p.encoderComputeBudget }

/-- The arguments a waiting candidate's blocks are allocated with. -/
def waitingArgs (cfg : Config) (q : Request) (c : CachedPrefix) (g : Grant) : AllocateSlotsArgs where
  numNewTokens := g.numNewTokens
  numNewComputedTokens := c.numNewLocalComputedTokens
  newComputedBlocks := some c.newComputedBlocks
  numLookaheadTokens := if q.numComputedTokens = 0 then 0 else cfg.numLookaheadTokens
  numExternalComputedTokens := c.numExternalComputedTokens
  delayCacheBlocks := c.loadKvAsync
  numEncoderTokens :=
    if cfg.isEncoderDecoder ∧ q.hasEncoderInputs then encoderEmbeds q g.encoderInputsToSchedule
    else 0
  fullSequenceMustFit := cfg.schedulerReserveFullIsl

/-- Enter an admitted request into the list of the new or of the resumed ones. -/
def recordAdmitted (r : ReqId) (ls : LoopState K E) : Except SchedError (LoopState K E) :=
  match (ls.req r).status with
  | .waiting => .ok { ls with scheduledNewReqs := ls.scheduledNewReqs ++ [r] }
  | .preempted => .ok { ls with scheduledResumedReqs := ls.scheduledResumedReqs ++ [r] }
  | _ => .error .invalidRequestStatus

/-- Admit a waiting candidate whose blocks were found. -/
def admitWaiting (cfg : Config) (r : ReqId) (c : CachedPrefix) (g : Grant) (ls : LoopState K E) :
    Except SchedError (LoopState K E) := do
  let ls ← ls.advance.recordAdmitted r
  let qm ← ls.qm.updateIdxsAfterNewScheduling
  let ls := { ls.setQm qm with
    scheduledLoras :=
      if cfg.loraConfig then ls.scheduledLoras ∪ (ls.req r).loraRequest.toFinset
      else ls.scheduledLoras
    reqToNewBlocks := ls.reqToNewBlocks.set r (KVCacheManager.getBlocks ls.sch.kv r)
    numScheduledTokens := ls.numScheduledTokens.set r g.numNewTokens
    tokenBudget := ls.tokenBudget - g.numNewTokens }
  let ls := ls.modifyReq r fun q => { q with
    status := .running
    numComputedTokens := c.numComputedTokens }
  ls.commitEncoderInputs r g

/-- The blocks of a waiting candidate, and its admission. -/
def placeWaiting (cfg : Config) (r : ReqId) (c : CachedPrefix) (g : Grant) (ls : LoopState K E) :
    Except SchedError (Flow (LoopState K E)) := do
  let (newBlocks, ls) ← ls.allocLoop r (waitingArgs cfg (ls.req r) c g)
  if newBlocks.isNone then
    let q := ls.req r
    .ok (.leave (if q.hasEncoderInputs then ls.setEnc (EncoderCache.free ls.sch.enc q) else ls))
  else if c.loadKvAsync then
    (ls.modifyReq r fun q => { q with
      status := .waitingForRemoteKvs
      numComputedTokens := c.numComputedTokens }).skip
  else do
    let ls ← ls.admitWaiting cfg r c g
    .ok (.fall ls)

/-- The branch of a candidate in the waiting ids. -/
def waitingCandidate (cfg : Config) (env : StepEnv) (r : ReqId) (ls : LoopState K E) :
    Except SchedError (Flow (LoopState K E)) :=
  if oversizePrompt cfg (ls.req r) then ls.ignore r
  else do
    match ← ls.cachedPrefix cfg env r with
    | none => ls.skip
    | some c =>
      match ← ls.waitingGrant cfg env r c with
      | .ignored => ls.ignore r
      | .blocked enc => .ok (.leave (ls.setEnc enc))
      | .granted enc g => (ls.setEnc enc).placeWaiting cfg r c g

/-- The two branches of a candidate, the waiting one after the running one. -/
def candidate (cfg : Config) (env : StepEnv) (r : ReqId) (ls : LoopState K E) :
    Except SchedError (Flow (LoopState K E)) := do
  match ← (if r ∈ ls.qm.runningReqIds then ls.runningCandidate cfg env r else .ok (.fall ls)) with
  | .fall ls => if r ∈ ls.qm.waitingReqIds then ls.waitingCandidate cfg env r else .ok (.fall ls)
  | flow => .ok flow

/-- One iteration of the main loop. -/
def round (cfg : Config) (env : StepEnv) (ls : LoopState K E) :
    Except SchedError (Pass (LoopState K E) (LoopState K E)) :=
  match ls.qm.combined[ls.reqIndex]? with
  | none => .ok (.done ls)
  | some r =>
    if ls.tokenBudget ≤ 0 then .ok (.done ls)
    else if r ∈ ls.preemptedReqs then .ok (.done ls)
    else if reachesMaxTokens (ls.req r) then .ok (.next ls.advance)
    else do
      match ← ls.candidate cfg env r with
      | .goOn ls | .fall ls => .ok (.next ls)
      | .leave ls => .ok (.done ls)

/-- The main loop. A round moves the index on by one, and a rollback moves it back by one at most
once for every request; a loop that does neither never ends. -/
def mainLoop (cfg : Config) (env : StepEnv) (ls : LoopState K E) :
    Except SchedError (LoopState K E) :=
  loop (round cfg env) .diverges (2 * ls.qm.combined.length + 1) ls

/-- The tail preemption of one request behind the walk. -/
def tailPreemptOne (ls : LoopState K E) (r : ReqId) : Except SchedError (LoopState K E) :=
  if (ls.req r).status ≠ .running then .ok ls
  else do
    let ls := { ls with
      sch := { ls.sch with
        kv := KVCacheManager.free ls.sch.kv r
        enc := EncoderCache.free ls.sch.enc (ls.req r) } }
    let ls := ls.modifyReq r fun q => { q with status := .preempted, numComputedTokens := 0 }
    let qm ← ls.qm.updateIdxsAfterPreemption
    .ok { ls.setQm qm with preemptedReqs := ls.preemptedReqs ++ [r] }

/-- With the token budget spent, preempt what is still running behind the walk. -/
def tailPreempt (ls : LoopState K E) : Except SchedError (LoopState K E) :=
  if ls.tokenBudget = 0 ∧ ls.reqIndex < ls.qm.combined.length then
    (ls.qm.combined.drop ls.reqIndex).foldlM tailPreemptOne ls
  else .ok ls

/-- The assertions on the rebuilt running list. -/
def checkConstraints (cfg : Config) (ls : LoopState K E) (running : List ReqId) :
    Except SchedError Unit :=
  if cfg.maxNumScheduledTokens < ls.numScheduledTokens.values.sum then .error .tooManyScheduledTokens
  else if ls.tokenBudget < 0 then .error .negativeTokenBudget
  else if cfg.maxNumRunningReqs < running.length then .error .tooManyRunning
  else if running.length < ls.scheduledNewReqs.length + ls.scheduledResumedReqs.length +
      ls.scheduledRunningReqs.length then .error .scheduledNotRunning
  else .ok ()

/-- `req_to_new_blocks[req_id]`. -/
def newBlocksOf (ls : LoopState K E) (r : ReqId) : Except SchedError KVCacheBlocks :=
  match ls.reqToNewBlocks.get? r with
  | some blocks => .ok blocks
  | none => .error .keyError

/-- `NewRequestData.from_request`. -/
def newRequestData (ls : LoopState K E) (r : ReqId) : Except SchedError NewRequestData := do
  let blocks ← ls.newBlocksOf r
  .ok { reqId := r, blockIds := blocks, numComputedTokens := (ls.req r).numComputedTokens }

/-- `get_block_ids(allow_none=True)`. -/
def blockIdsOrNone (blocks : KVCacheBlocks) : Option KVCacheBlocks :=
  if blocks.all List.isEmpty then none else some blocks

/-- `_make_cached_request_data`. -/
def makeCachedRequestData (ls : LoopState K E) (resumedReqs : List ReqId) :
    Except SchedError CachedRequestData :=
  let reqs := ls.scheduledRunningReqs ++ resumedReqs
  if ∃ r ∈ resumedReqs, r ∈ ls.sch.prevStepScheduledReqIds then .error .resumedInPrevStep
  else do
    let blocks ← reqs.mapM ls.newBlocksOf
    .ok {
      reqIds := reqs
      resumedReqIds := resumedReqs.toFinset
      newBlockIds := blocks.map blockIdsOrNone
      numComputedTokens := reqs.map fun r => (ls.req r).numComputedTokens
      numOutputTokens := reqs.map fun r =>
        (ls.req r).numOutputTokens + (ls.req r).numOutputPlaceholders }

end LoopState

namespace Scheduler

variable {K E : Type} [KVCacheManager K] [EncoderCache E]

/-- A scheduled request after its step was handed out: its computed tokens advance, and under async
scheduling it is given placeholders for the tokens the step will sample. -/
def advanceRequest (cfg : Config) (numScheduledTokens : ℤ) (numSpecTokens : ℕ) (q : Request) :
    Request :=
  let numComputedTokens := q.numComputedTokens + numScheduledTokens
  let isPrefillChunk : Bool := numComputedTokens < q.numTokens + q.numOutputPlaceholders
  let q := { q with numComputedTokens := numComputedTokens, isPrefillChunk := isPrefillChunk }
  if cfg.asyncScheduling && !isPrefillChunk then
    { q with
      numOutputPlaceholders := q.numOutputPlaceholders + 1 + numSpecTokens
      specTokenIds := List.replicate cfg.numSpecTokens (-1) }
  else q

/-- One entry of `_update_after_schedule`. -/
def updateAfterScheduleOne (cfg : Config) (spec : Dict ReqId (List Token)) (s : Scheduler K E)
    (e : ReqId × ℤ) : Except SchedError (Scheduler K E) :=
  if e.1 ∉ s.requests then .error .keyError
  else .ok (s.modifyReq e.1 (advanceRequest cfg e.2 ((spec.get? e.1).getD []).length))

/-- `_update_after_schedule`. -/
def updateAfterSchedule (cfg : Config) (out : SchedulerOutput) (s : Scheduler K E) :
    Except SchedError (Scheduler K E) := do
  let s ← out.numScheduledTokens.entries.foldlM
    (updateAfterScheduleOne cfg out.scheduledSpecDecodeTokens) s
  .ok { s with finishedReqIds := ∅ }

/-- The part of a step before the main loop. -/
def beginStep (cfg : Config) (env : StepEnv) (s : Scheduler K E) :
    Except SchedError (LoopState K E) := do
  let (objs, requests) ← updatePriorities cfg.policy env s.objs s.requests
  let running := reorderQueue objs.req s.running
  let waiting := reorderQueue objs.req (s.waiting.iter objs.req)
  .ok {
    sch := { s with
      objs := objs
      requests := requests
      queueManager := s.queueManager.combineQueues objs.req running waiting
      kv := KVCacheManager.newStepStarts s.kv }
    tokenBudget := if s.pauseState = .pausedAll then 0 else cfg.maxNumScheduledTokens
    encoderComputeBudget := cfg.maxNumEncoderInputTokens }

/-- The output of a step and the state after it was put together. -/
def makeOutput (cfg : Config) (ls : LoopState K E) :
    Except SchedError (SchedulerOutput × Scheduler K E) := do
  let newReqs :=
    if cfg.useV2ModelRunner then ls.scheduledNewReqs ++ ls.scheduledResumedReqs
    else ls.scheduledNewReqs
  let resumedReqs := if cfg.useV2ModelRunner then [] else ls.scheduledResumedReqs
  let newReqsData ← newReqs.mapM ls.newRequestData
  let cachedReqsData ← ls.makeCachedRequestData resumedReqs
  let (newBlockIds, kv) :=
    if cfg.needsKvCacheZeroing then KVCacheManager.takeNewBlockIds ls.sch.kv else ([], ls.sch.kv)
  let (freedMmHashes, enc) := EncoderCache.getFreedMmHashes ls.sch.enc
  .ok ({
    scheduledNewReqs := newReqsData
    scheduledCachedReqs := cachedReqsData
    numScheduledTokens := ls.numScheduledTokens
    totalNumScheduledTokens := ls.numScheduledTokens.values.sum
    scheduledSpecDecodeTokens := ls.scheduledSpecDecodeTokens
    scheduledEncoderInputs := ls.scheduledEncoderInputs
    preemptedReqIds := ls.preemptedReqs.toFinset
    finishedReqIds := ls.sch.finishedReqIds
    freeEncoderMmHashes := freedMmHashes
    newBlockIdsToZero := newBlockIds },
    { ls.sch with
      prevStepScheduledReqIds := ls.numScheduledTokens.keys.toFinset
      kv := kv
      enc := enc })

/-- The part of a step after the tail preemption. -/
def finishStep (cfg : Config) (ls : LoopState K E) :
    Except SchedError (SchedulerOutput × Scheduler K E) := do
  let (running, waiting) ← ls.qm.updateQueues ls.req
  ls.checkConstraints cfg running
  let (out, s) ← makeOutput cfg ls
  let s ← updateAfterSchedule cfg out { s with running := running, waiting := waiting }
  .ok (out, s)

/-- `schedule`. -/
def schedule (cfg : Config) (env : StepEnv) (s : Scheduler K E) :
    Except SchedError (SchedulerOutput × Scheduler K E) := do
  let ls ← beginStep cfg env s
  let ls ← ls.mainLoop cfg env
  let ls ← ls.tailPreempt
  finishStep cfg ls

end Scheduler

end RpsServe
