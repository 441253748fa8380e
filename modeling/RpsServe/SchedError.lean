/-!
# What the scheduler can raise

One constructor for each assertion and each exception that the modelled code can end in.
-/

namespace RpsServe

/-- The exceptions of the modelled code. -/
inductive SchedError where
  /-- Reading or removing a key that is absent. -/
  | keyError
  /-- Reading a list past its end. -/
  | indexError
  /-- Reading a field of `None`. -/
  | attributeError
  /-- `math.log` outside its domain, or a tuple of the wrong length. -/
  | valueError
  /-- A `while` loop that never ends. -/
  | diverges
  /-- `update_queues`: `assert last_running_idx == first_waiting_idx - 1`. -/
  | queuesNotAdjacent
  /-- `update_idxs_after_preemption`: `assert first_waiting_idx == 0`. -/
  | firstWaitingNotZero
  /-- `_preempt_request`: "Only running requests can be preempted". -/
  | preemptedNotRunning
  /-- `schedule`: `assert num_new_tokens > 0`. -/
  | noNewTokens
  /-- `schedule`: `assert num_computed_tokens <= request.num_tokens`, or `num_prompt_tokens`. -/
  | tooManyComputedTokens
  /-- `schedule`: `assert num_external_computed_tokens > 0`, or `== 0` under mamba alignment. -/
  | externalTokens
  /-- `schedule`: "Invalid request status". -/
  | invalidRequestStatus
  /-- `schedule`: `assert total_num_scheduled_tokens <= max_num_scheduled_tokens`. -/
  | tooManyScheduledTokens
  /-- `schedule`: `assert token_budget >= 0`. -/
  | negativeTokenBudget
  /-- `schedule`: `assert len(running) <= max_num_running_reqs`. -/
  | tooManyRunning
  /-- `schedule`: more requests scheduled than `len(running)`. -/
  | scheduledNotRunning
  /-- `_make_cached_request_data`: `assert not scheduled_in_prev_step`. -/
  | resumedInPrevStep
  /-- `allocate_slots`: no new tokens and no external tokens, or an allocator assertion. -/
  | kvCacheError
  /-- An assertion of the encoder cache manager. -/
  | encoderCacheError
  /-- `_try_schedule_encoder_inputs`: an encoder input past the start of the sequence. -/
  | encoderInputNotAtStart
  /-- `update_from_output`: `assert num_tokens_scheduled > 0`. -/
  | nothingScheduled
  /-- `_free_request`, `_free_blocks`, `finish_requests`: `assert is_finished`. -/
  | notFinished
  /-- `AsyncScheduler`: `assert num_output_placeholders >= 0`. -/
  | negativePlaceholders
  /-- `check_stop`: `assert not pooling_params`. -/
  | poolingTokens
  /-- `add_request`: "duplicate request id". -/
  | duplicateRequestId
  /-- `reset_prefix_cache`: "Failed to reset KV cache". -/
  | resetFailed
deriving DecidableEq, Repr

end RpsServe
