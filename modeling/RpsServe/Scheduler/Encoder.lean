import RpsServe.Scheduler.State

/-!
# Encoder inputs of a candidate

`_try_schedule_encoder_inputs` walks the multimodal items of a request in order, decides
which of them the step has to encode, and cuts the number of new tokens short before an
item that fits neither the encoder cache nor the compute budget. Looking an item up takes a
reference to it and making room may evict others, so the walk carries the cache's state.
-/

namespace RpsServe

/-- The variables of the walk over the items. -/
structure EncoderPass (E : Type) where
  enc : E
  numNewTokens : ℤ
  encoderComputeBudget : ℤ
  mmHashesToSchedule : Finset MmHash := ∅
  numEmbedsToSchedule : ℤ := 0
  encoderInputsToSchedule : List ℕ := []
  externalLoadEncoderInput : List ℕ := []

variable {E : Type} [EncoderCache E]

/-- The lookup of an item: scheduled already in this walk, or cached from an earlier step. -/
def encoderItemCached (cfg : Config) (q : Request) (i : ℕ) (f : MmFeature) (p : EncoderPass E) :
    Except SchedError (Bool × EncoderPass E) :=
  if cfg.isEncoderDecoder then .ok (false, p)
  else if f.identifier ∈ p.mmHashesToSchedule then .ok (true, p)
  else do
    let (hit, enc) ← EncoderCache.checkAndUpdateCache p.enc q i
    .ok (hit, { p with enc := enc })

/-- An item that has to be computed or loaded and fits: nothing is done if none of its embeddings
is in the scheduled range. -/
def encoderItemAdd (cfg : Config) (env : StepEnv) (i : ℕ) (f : MmFeature) (numComputedTokens : ℤ)
    (p : EncoderPass E) : EncoderPass E :=
  let startIdxRel := max 0 (numComputedTokens - f.offset)
  let endIdxRel := min (f.length : ℤ) (numComputedTokens + p.numNewTokens - f.offset)
  let (currEmbedsStart, currEmbedsEnd) := f.getEmbedsIndicesInRange startIdxRel endIdxRel
  if currEmbedsEnd - currEmbedsStart = 0 then p
  else if cfg.ecConnector && env.hasCacheItem f.identifier then
    { p with
      mmHashesToSchedule := insert f.identifier p.mmHashesToSchedule
      externalLoadEncoderInput := p.externalLoadEncoderInput ++ [i]
      numEmbedsToSchedule := p.numEmbedsToSchedule + f.getNumEmbeds }
  else
    { p with
      numEmbedsToSchedule := p.numEmbedsToSchedule + f.getNumEmbeds
      encoderComputeBudget := p.encoderComputeBudget - f.getNumEmbeds
      mmHashesToSchedule := insert f.identifier p.mmHashesToSchedule
      encoderInputsToSchedule := p.encoderInputsToSchedule ++ [i] }

/-- One item of the walk; `false` ends it. -/
def encoderItem (cfg : Config) (env : StepEnv) (q : Request) (numComputedTokens shift : ℤ)
    (i : ℕ) (f : MmFeature) (p : EncoderPass E) : Except SchedError (Bool × EncoderPass E) :=
  if numComputedTokens + p.numNewTokens + shift ≤ f.offset then .ok (false, p)
  else if cfg.isEncoderDecoder ∧ 0 < numComputedTokens then
    if f.offset = 0 then .ok (true, p) else .error .encoderInputNotAtStart
  else if (f.offset : ℤ) + f.length ≤ numComputedTokens then .ok (true, p)
  else do
    let (hit, p) ← encoderItemCached cfg q i f p
    if hit then .ok (true, p)
    else if cfg.disableChunkedMmInput ∧ numComputedTokens < f.offset ∧
        numComputedTokens + p.numNewTokens < (f.offset : ℤ) + f.length then
      .ok (false, { p with numNewTokens := max 0 (f.offset - (numComputedTokens + shift)) })
    else do
      let (fits, enc) ←
        EncoderCache.canAllocate p.enc q i p.encoderComputeBudget p.numEmbedsToSchedule
      let p := { p with enc := enc }
      if fits then .ok (true, encoderItemAdd cfg env i f numComputedTokens p)
      else
        .ok (false, { p with
          numNewTokens := if numComputedTokens + shift < f.offset then
            f.offset - (numComputedTokens + shift) else 0 })

/-- The walk over the items from index `i` on. -/
def encoderItems (cfg : Config) (env : StepEnv) (q : Request) (numComputedTokens shift : ℤ) :
    (i : ℕ) → List MmFeature → EncoderPass E → Except SchedError (EncoderPass E)
  | _, [], p => .ok p
  | i, f :: rest, p => do
    let (goOn, p) ← encoderItem cfg env q numComputedTokens shift i f p
    if goOn then encoderItems cfg env q numComputedTokens shift (i + 1) rest p else .ok p

/-- `_try_schedule_encoder_inputs`. -/
def tryScheduleEncoderInputs (cfg : Config) (env : StepEnv) (enc : E) (q : Request)
    (numComputedTokens numNewTokens encoderComputeBudget : ℤ) (shiftComputedTokens : ℤ := 0) :
    Except SchedError (EncoderPass E) :=
  let p : EncoderPass E :=
    { enc := enc, numNewTokens := numNewTokens, encoderComputeBudget := encoderComputeBudget }
  if numNewTokens = 0 ∨ ¬ q.hasEncoderInputs then .ok p
  else encoderItems cfg env q numComputedTokens shiftComputedTokens 0 q.mmFeatures p

/-- Allocate the listed items one after the other. -/
def allocateEncoderInputs (q : Request) : List ℕ → E → Except SchedError E
  | [], enc => .ok enc
  | i :: rest, enc => do
    let enc ← EncoderCache.allocate enc q i
    allocateEncoderInputs q rest enc

end RpsServe
