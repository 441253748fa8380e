import RpsServe.Scheduler.State
import Mathlib.Data.List.Basic

/-!
# Stop conditions

A request stops at an end token, at its length limits, or when the tail of its output
repeats one pattern often enough.
-/

namespace RpsServe

/-- `_has_repeating_pattern`, for a pattern that fits the tokens `minCount` times. -/
def hasRepeatingPattern (tokenIds : List Token) (patternLen minCount : ℕ) : Bool :=
  (List.range patternLen).all fun n =>
    (List.range (minCount - 1)).all fun m =>
      tokenIds[tokenIds.length - (patternLen * (m + 1) + (n + 1))]? =
        tokenIds[tokenIds.length - (n + 1)]?

/-- `check_sequence_repetition`. -/
def checkSequenceRepetition (tokenIds : List Token) (params : RepetitionDetectionParams) : Bool :=
  let minPatternSize := if params.minPatternSize ≤ 0 then 1 else params.minPatternSize
  if params.maxPatternSize ≤ 0 ∨ params.minCount < 2 ∨ params.maxPatternSize < minPatternSize then
    false
  else
    let minCount := params.minCount.toNat
    let sizes := List.range' minPatternSize.toNat
      (params.maxPatternSize.toNat + 1 - minPatternSize.toNat)
    (sizes.takeWhile fun n => n * minCount ≤ tokenIds.length).any fun n =>
      hasRepeatingPattern tokenIds n minCount

/-- `check_stop`: the finished status of a request that stops. -/
def checkStop (maxModelLen : ℕ) (q : Request) : Except SchedError (Option RequestStatus) :=
  if q.poolingParams then .error .poolingTokens
  else if q.numOutputTokens < q.samplingParams.minTokens then .ok none
  else
    match q.outputTokenIds.getLast? with
    | none => .error .indexError
    | some lastTokenId =>
      if some lastTokenId = q.samplingParams.eosTokenId ∨
          lastTokenId ∈ q.samplingParams.stopTokenIds then
        .ok (some .finishedStopped)
      else if maxModelLen ≤ q.numTokens ∨ q.maxTokens ≤ q.numOutputTokens then
        .ok (some .finishedLengthCapped)
      else
        match q.samplingParams.repetitionDetection with
        | some params =>
          .ok (if checkSequenceRepetition q.outputTokenIds params then some .finishedRepetition
            else none)
        | none => .ok none

/-- The loop of `_update_request_with_output`: the tokens kept, the request with its status, and
whether it stopped. -/
def appendUntilStop (cfg : Config) :
    List Token → Request → Except SchedError (List Token × Request × Bool)
  | [], q => .ok ([], q, false)
  | token :: rest, q => do
    let q := q.appendOutputTokenId cfg.blockHasher token
    match ← checkStop cfg.maxModelLen q with
    | some status => .ok ([token], { q with status := status }, true)
    | none => do
      let (kept, q, stopped) ← appendUntilStop cfg rest q
      .ok (token :: kept, q, stopped)

end RpsServe
