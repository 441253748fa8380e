import RpsServe.Worker.RowTensors

/-!
# The logits processors follow the batch

Along every run of a worker, the bias and the min-p of a row are those its request asks for,
in the dictionary and the array as in the tensors that are applied to the logits; the count by
which min-p skips its work is the number of nonzero places; and the min-tokens processor masks
the stop tokens of exactly those requests that have not yet generated their minimum.
-/

namespace RpsServe

/-! ### A worker with its processors -/

/-- How the processors of a worker read the sampling parameters, whose fields for them the request
model leaves out: `all_stop_token_ids`, `logit_bias or None` and `min_p`. -/
structure SamplerConfig (α : Type) where
  reorderBatchThreshold : Option ℤ
  allStopTokenIds : SamplingParams → Finset Token
  logitBias : SamplingParams → Option (Dict Token α)
  minP : SamplingParams → α

/-- A worker with its three built-in logits processors. -/
structure Sampler (α : Type) where
  runner : ModelRunner
  logitBias : LogitBiasState α
  minTokens : MinTokensState
  minP : MinPState α

namespace ModelRunner

/-- The state of the request in a row. -/
def stateAt (w : ModelRunner) (i : ℕ) : Option CachedRequestState :=
  (w.inputBatch.reqAt i).bind w.requests.get?

/-- The output tokens of a request. -/
def outputTokenIds (w : ModelRunner) (r : ReqId) : List Token :=
  ((w.requests.get? r).map CachedRequestState.outputTokenIds).getD []

end ModelRunner

namespace Sampler

variable {α : Type} [Zero α] [DecidableEq α]

/-- The worker before the first step. -/
def init (maxNumReqs : ℕ) : Sampler α := ⟨.init maxNumReqs, .init, .init, .init⟩

/-- The part of a step before the forward pass: `_update_states`, which hands its update to the
processors. -/
def update (c : SamplerConfig α) (obj : ReqId → Request) (out : SchedulerOutput)
    (s : Sampler α) : Except WorkerError (Sampler α) := do
  let (u, w) ← s.runner.updateStates c.reorderBatchThreshold obj out
  .ok {
    runner := w
    logitBias := s.logitBias.updateState (fun a => c.logitBias a.samplingParams) u
    minTokens := s.minTokens.updateState c.allStopTokenIds w.outputTokenIds u
    minP := s.minP.updateState (fun a => c.minP a.samplingParams) u }

/-- The part behind the forward pass: the sampled tokens are noted. -/
def sample (sampled : ReqId → List Token) (s : Sampler α) : Sampler α :=
  { s with runner := s.runner.appendSampled sampled }

/-- The states a worker comes to when every output applies and meets `ok`. -/
inductive Reached (c : SamplerConfig α) (ok : ModelRunner → SchedulerOutput → Prop)
    (maxNumReqs : ℕ) : Sampler α → Prop
  | init : Reached c ok maxNumReqs (.init maxNumReqs)
  | update {obj : ReqId → Request} {out : SchedulerOutput} {s s' : Sampler α} :
      Reached c ok maxNumReqs s → s.runner.Applies out → ok s.runner out →
      (∀ r, (obj r).loraRequest ≠ some 0) → s.update c obj out = .ok s' →
      Reached c ok maxNumReqs s'
  | sample {s : Sampler α} (sampled : ReqId → List Token) :
      Reached c ok maxNumReqs s → Reached c ok maxNumReqs (s.sample sampled)

end Sampler

/-! ### Sampled tokens -/

/-- Sampled tokens leave the state showing the requests. -/
theorem shows_appendSampled {V : Type*} {clear : V} {R : CachedRequestState → V → Prop} {f : ℕ → V}
    {w : ModelRunner} (h : Shows clear R f w) (sampled : ReqId → List Token)
    (hgrow : ∀ st v toks, R st v →
      R { st with outputTokenIds := st.outputTokenIds ++ toks } v) :
    Shows clear R f (w.appendSampled sampled) := by
  intro i
  have hi := h i
  change Seen clear R _ (w.inputBatch.reqAt i) (f i)
  cases hat : w.inputBatch.reqAt i with
  | none =>
    rw [hat] at hi
    exact hi
  | some r =>
    rw [hat] at hi
    obtain ⟨st, hst, hR⟩ := hi
    by_cases hr : r ∈ w.inputBatch.reqIdToIndex.keys
    · exact ⟨_, by rw [get?_appendSampled, if_pos hr, hst]; rfl, hgrow st _ _ hR⟩
    · exact ⟨st, by rw [get?_appendSampled, if_neg hr, hst], hR⟩

/-! ### The run -/

namespace Sampler

variable {α : Type} [Zero α] [DecidableEq α] {c : SamplerConfig α}
  {ok : ModelRunner → SchedulerOutput → Prop} {maxNumReqs : ℕ} {s s' : Sampler α}
  {obj : ReqId → Request} {out : SchedulerOutput}

/-- The entry of the min-tokens processor that belongs to a state. -/
def minTokensOf (c : SamplerConfig α) (st : CachedRequestState) : Option MinTokensEntry :=
  if st.outputTokenIds.length < st.samplingParams.minTokens then
    some {
      minTokens := st.samplingParams.minTokens
      owner := st.reqId
      stopTokenIds := c.allStopTokenIds st.samplingParams }
  else none

/-- Between the updates an entry may outlive its need, but none is missing or foreign. -/
def MinTokensShown (c : SamplerConfig α) (st : CachedRequestState) (v : Option MinTokensEntry) :
    Prop :=
  (st.outputTokenIds.length < st.samplingParams.minTokens → v = minTokensOf c st) ∧
    ∀ e, v = some e → e.minTokens = st.samplingParams.minTokens ∧ e.owner = st.reqId

/-- No output token of a cached request is discarded. -/
def KeepsTokens (w : ModelRunner) (out : SchedulerOutput) : Prop :=
  ∀ e ∈ out.scheduledCachedReqs.items, ∀ st, w.requests.get? e.reqId = some st →
    (st.outputTokenIds.length : ℤ) ≤ e.numOutputTokens

/-- An update takes the batch update and shows it to the processors. -/
theorem update_eq_ok (h : s.update c obj out = .ok s') : ∃ u,
    s.runner.updateStates c.reorderBatchThreshold obj out = .ok (u, s'.runner) ∧
      s'.logitBias = s.logitBias.updateState (fun a => c.logitBias a.samplingParams) u ∧
      s'.minTokens = s.minTokens.updateState c.allStopTokenIds s'.runner.outputTokenIds u ∧
      s'.minP = s.minP.updateState (fun a => c.minP a.samplingParams) u := by
  obtain ⟨⟨u, w⟩, hrun, h⟩ := bind_eq_ok.mp h
  cases h
  exact ⟨u, hrun, rfl, rfl, rfl⟩

/-- Where the runner updates, the processors do. -/
theorem exists_update_of_updateStates {u : Option BatchUpdate} {w' : ModelRunner}
    (h : s.runner.updateStates c.reorderBatchThreshold obj out = .ok (u, w')) :
    ∃ s', s.update c obj out = .ok s' ∧ s'.runner = w' := by
  rw [Sampler.update, h]
  exact ⟨_, rfl, rfl⟩

/-- What is true of the rows at every state of a run. -/
structure Follows (c : SamplerConfig α) (s : Sampler α) : Prop where
  sound : s.runner.Sound
  biases : Shows none (fun st v => v = c.logitBias st.samplingParams) s.logitBias.biases.get?
    s.runner
  biasTensors : s.logitBias.Current
  stopTokens : s.minTokens.Current
  minP : Shows 0 (fun st v => v = c.minP st.samplingParams) s.minP.minPCpu s.runner
  counted : s.minP.Counted
  minPTensor : s.minP.Current s.runner.inputBatch.numReqs

/-- A step keeps the state of every processor in line with the rows. -/
theorem Follows.update (hs : s.Follows c) (ha : s.runner.Applies out)
    (hlora : ∀ r, (obj r).loraRequest ≠ some 0) (h : s.update c obj out = .ok s') :
    s'.Follows c := by
  obtain ⟨u, hrun, hbias, hmin, hminP⟩ := update_eq_ok h
  obtain ⟨u₁, w₁, hrun₁, happlied, hshow₁, -⟩ := shows_updateStates
    (fun a => c.logitBias a.samplingParams) c.reorderBatchThreshold (fun st i => rfl) hlora hs.sound ha
    hs.biases (fun e he st hst v hv => hv)
  obtain ⟨u₂, w₂, hrun₂, -, hshow₂, hmoved⟩ := shows_updateStates
    (fun a => c.minP a.samplingParams) c.reorderBatchThreshold (fun st i => rfl) hlora hs.sound ha
    hs.minP (fun e he st hst v hv => hv)
  rw [hrun] at hrun₁ hrun₂
  cases hrun₁
  cases hrun₂
  obtain ⟨hcounted, hcpu⟩ := hs.counted.updateState (u := u)
    (fun a => c.minP a.samplingParams) fun u' hu' m hm => ((hmoved u' hu').2 m hm).1
  have hnum : u = none → s'.runner.inputBatch.numReqs = s.runner.inputBatch.numReqs := by
    rintro rfl
    exact numReqs_of_noUpdate hlora hs.sound ha hrun
  refine ⟨happlied.sound, ?_, ?_, ?_, ?_, by rwa [hminP], ?_⟩
  · rw [hbias, LogitBiasState.biases_updateState, get?_processDictUpdates]
    exact hshow₁
  · rw [hbias]
    exact hs.biasTensors.updateState _ u
  · rw [hmin]
    exact hs.stopTokens.updateState _ _ u
  · rw [hminP, hcpu]
    exact hshow₂
  · rw [hminP]
    exact hs.minPTensor.updateState hnum hmoved

/-- A sampler that is reached follows its runner. -/
theorem Reached.follows (h : Reached c ok maxNumReqs s) : s.Follows c := by
  induction h with
  | init =>
    exact ⟨ModelRunner.init_sound maxNumReqs, fun i => rfl, LogitBiasState.current_init,
      MinTokensState.current_init, fun i => rfl, MinPState.counted_init, fun h => absurd rfl h⟩
  | update _ ha _ hlora hupdate ih => exact ih.update ha hlora hupdate
  | sample sampled _ ih =>
    exact ⟨ih.sound.appendSampled sampled,
      shows_appendSampled ih.biases sampled fun _ _ _ h => h, ih.biasTensors, ih.stopTokens,
      shows_appendSampled ih.minP sampled fun _ _ _ h => h, ih.counted, ih.minPTensor⟩

/-- A worker takes every output that applies. Its rows are then without gaps, each scheduled
request has a row, which shows its state, and with a decode threshold they are sorted by region. -/
theorem Reached.decodes_first (h : Reached c ok maxNumReqs s) (ha : s.runner.Applies out)
    (hlora : ∀ r, (obj r).loraRequest ≠ some 0) :
    ∃ s', s.update c obj out = .ok s' ∧
      (∀ t, c.reorderBatchThreshold = some t →
        s'.runner.inputBatch.Split t out.numScheduledTokens) ∧
      (∀ i < s'.runner.inputBatch.reqIds.length, ∃ r st, s'.runner.inputBatch.reqAt i = some r ∧
        s'.runner.requests.get? r = some st ∧ s'.runner.inputBatch.row i = st.row) ∧
      ∀ r, r ∈ out.numScheduledTokens.keys ↔ ∃ i, s'.runner.inputBatch.reqAt i = some r := by
  obtain ⟨u, w', b, hrun, happlied, -, hb, hrefresh, hsplit⟩ :=
    ModelRunner.updateStates_rule c.reorderBatchThreshold ModelRunner.followed_true hlora
      h.follows.sound ha trivial fun _ _ _ _ => trivial
  have hbatch : w'.inputBatch = b.refreshMetadata.2 := (congrArg Prod.snd hrefresh).symm
  obtain ⟨s', hs', rfl⟩ := exists_update_of_updateStates hrun
  refine ⟨s', hs', fun t ht => ?_, fun i hi => ?_, fun r => ?_⟩
  · rw [hbatch]
    exact hsplit t ht
  · rw [hbatch] at hi
    obtain ⟨r, hr⟩ := hb.exists_reqAt hi
    have hat : s'.runner.inputBatch.reqAt i = some r := by
      rw [hbatch]
      exact InputBatch.reqAt_eq_some.mpr hr
    obtain ⟨st, hst, hshow⟩ := happlied.sound.exists_state hat
    exact ⟨r, st, hat, hst, hshow⟩
  · rw [← happlied.scheduled, InputBatch.isSome_rowOf, ← Dict.isSome_get?, Option.isSome_iff_exists]
    exact exists_congr fun i => (happlied.sound.batch.index r i).trans
      InputBatch.reqAt_eq_some.symm

/-- A row's state of a processor that depends on the request alone. -/
theorem shows_eq {V : Type*} {clear : V} {g : CachedRequestState → V} {f : ℕ → V} {w : ModelRunner}
    (h : Shows clear (fun st v => v = g st) f w) (i : ℕ) :
    f i = ((w.stateAt i).map g).getD clear := by
  have hi := h i
  unfold ModelRunner.stateAt
  cases hat : w.inputBatch.reqAt i with
  | none =>
    rw [hat] at hi
    exact hi
  | some r =>
    rw [hat] at hi
    obtain ⟨st, hst, hv⟩ := hi
    rw [Option.bind_some, hst]
    exact hv

/-- In every state a worker comes to, whatever rows were freed, filled and swapped on the way, the
bias and the min-p of a row are those of the request that stands there, no other row has any, the
tensors that are applied show them, and the count by which min-p skips its work is the number of
rows with a value. -/
theorem Reached.rows_follow [Add α] (h : Reached c ok maxNumReqs s) :
    (∀ i, s.logitBias.biases.get? i =
        (s.runner.stateAt i).bind fun st => c.logitBias st.samplingParams) ∧
      (∀ logits i t, s.logitBias.apply logits i t =
        (((s.runner.stateAt i).bind fun st => c.logitBias st.samplingParams).bind fun b =>
          b.get? t).elim (logits i t) (logits i t + ·)) ∧
      (∀ i, s.minP.minPCpu i =
        ((s.runner.stateAt i).map fun st => c.minP st.samplingParams).getD 0) ∧
      (∃ rows : Finset ℕ, (∀ i, i ∈ rows ↔ s.minP.minPCpu i ≠ 0) ∧
        s.minP.minPCount = rows.card) ∧
      (s.minP.minPCount ≠ 0 →
        s.minP.minP = (List.range s.runner.inputBatch.numReqs).map s.minP.minPCpu) := by
  have hf := h.follows
  have hbiases : ∀ i, s.logitBias.biases.get? i =
      (s.runner.stateAt i).bind fun st => c.logitBias st.samplingParams := by
    intro i
    rw [shows_eq hf.biases i]
    cases s.runner.stateAt i <;> rfl
  refine ⟨hbiases, fun logits i t => ?_, shows_eq hf.minP, hf.counted, hf.minPTensor⟩
  rw [hf.biasTensors.apply_eq, hbiases]

/-! ### Min-tokens -/

/-- Once the runner is up to date, the entry of a row is that of the request there. -/
theorem minTokensShown_update (hs : s.Follows c)
    (hshow : Shows none (MinTokensShown c) s.minTokens.minToks.get? s.runner) (ha : s.runner.Applies out)
    (hkeeps : KeepsTokens s.runner out) (hlora : ∀ r, (obj r).loraRequest ≠ some 0)
    (h : s.update c obj out = .ok s') :
    ∀ i, s'.minTokens.minToks.get? i = (s'.runner.stateAt i).bind (minTokensOf c) := by
  obtain ⟨u, hrun, -, hmin, -⟩ := update_eq_ok h
  obtain ⟨u₁, w₁, hrun₁, happlied, hshow₁, -⟩ := shows_updateStates
    (minTokensAddRequest c.allStopTokenIds) c.reorderBatchThreshold (R := MinTokensShown c)
    (fun st i => by
      unfold MinTokensShown minTokensOf minTokensAddRequest CachedRequestState.addedAt
      refine ⟨fun hlt => ?_, fun e he => ?_⟩
      · rw [if_neg (by simp only; omega), if_pos hlt]
      · dsimp only at he
        split at he
        · cases he
        · cases he
          exact ⟨rfl, rfl⟩) hlora hs.sound ha hshow
    (fun e he st hst v hv => by
      have htake : st.outputTokenIds.take e.numOutputTokens.toNat = st.outputTokenIds :=
        List.take_of_length_le (by have := hkeeps e he st hst; omega)
      unfold MinTokensShown minTokensOf ModelRunner.afterEntry at *
      simpa only [htake] using hv)
  rw [hrun] at hrun₁
  cases hrun₁
  intro i
  have hi := hshow₁ i
  rw [← get?_processDictUpdates] at hi
  rw [hmin, MinTokensState.updateState]
  dsimp only
  rw [Dict.get?_foldl_erase, MinTokensState.toRemove]
  simp only [List.mem_filter, ← Dict.isSome_get?]
  generalize (processDictUpdates (minTokensAddRequest c.allStopTokenIds)
    s.minTokens.minToks u).1.get? i = v at hi ⊢
  unfold ModelRunner.stateAt
  cases hat : s'.runner.inputBatch.reqAt i with
  | none =>
    rw [hat] at hi
    rw [show v = none from hi]
    simp
  | some r =>
    rw [hat] at hi
    obtain ⟨st, hst, hlt, howner⟩ := hi
    have hid := (happlied.sound.ids r st hst).1
    rw [Option.bind_some, hst, Option.bind_some]
    cases v with
    | none =>
      by_cases hless : st.outputTokenIds.length < st.samplingParams.minTokens
      · rw [← hlt hless]
        simp
      · rw [minTokensOf, if_neg hless]
        simp
    | some e =>
      obtain ⟨hmin, hown⟩ := howner e rfl
      have htokens : s'.runner.outputTokenIds e.owner = st.outputTokenIds := by
        rw [hown, hid, ModelRunner.outputTokenIds, hst]
        rfl
      by_cases hless : st.outputTokenIds.length < st.samplingParams.minTokens
      · rw [← hlt hless, if_neg]
        simp only [htokens, hmin]
        simpa using hless
      · rw [minTokensOf, if_neg hless, if_pos]
        simp only [htokens, hmin]
        simpa using hless

/-- In every state a worker comes to, no entry is missing or foreign. -/
theorem Reached.minTokensShown (hok : ∀ w out, ok w out → KeepsTokens w out)
    (h : Reached c ok maxNumReqs s) :
    Shows none (MinTokensShown c) s.minTokens.minToks.get? s.runner := by
  induction h with
  | init => exact fun i => rfl
  | @update obj out s s' hs ha hmeets hlora hupdate ih =>
    have hexact := minTokensShown_update hs.follows ih ha (hok _ _ hmeets) hlora hupdate
    have hsound := (hs.follows.update ha hlora hupdate).sound
    intro i
    rw [hexact i, ModelRunner.stateAt]
    cases hat : s'.runner.inputBatch.reqAt i with
    | none => rfl
    | some r =>
      obtain ⟨st, hst, -⟩ := hsound.exists_state hat
      refine ⟨st, hst, fun _ => by rw [Option.bind_some, hst]; rfl, fun e he => ?_⟩
      rw [Option.bind_some, hst, Option.bind_some, minTokensOf] at he
      split at he
      · cases he
        exact ⟨rfl, rfl⟩
      · cases he
  | sample sampled _ ih =>
    refine shows_appendSampled ih sampled fun st v toks hv => ⟨fun hlt => ?_, hv.2⟩
    have hless : st.outputTokenIds.length < st.samplingParams.minTokens := by
      simp only [List.length_append] at hlt
      omega
    rw [hv.1 hless, minTokensOf, minTokensOf, if_pos hless, if_pos hlt]

/-- The token is a stop token of the request in the row, which has not generated its minimum. -/
def Withheld (c : SamplerConfig α) (w : ModelRunner) (i : ℕ) (t : Token) : Prop :=
  ∃ st, w.stateAt i = some st ∧ st.outputTokenIds.length < st.samplingParams.minTokens ∧
    t ∈ c.allStopTokenIds st.samplingParams

omit [Zero α] [DecidableEq α] in
/-- An entry with the token among its stop tokens stands for a withheld token. -/
theorem exists_entry_iff {w : ModelRunner} {i : ℕ} {t : Token} {v : Option MinTokensEntry}
    (h : v = (w.stateAt i).bind (minTokensOf c)) :
    (∃ e, v = some e ∧ t ∈ e.stopTokenIds) ↔ Withheld c w i t := by
  unfold Withheld
  rw [h]
  cases w.stateAt i with
  | none => simp
  | some st =>
    rw [Option.bind_some, minTokensOf]
    by_cases hless : st.outputTokenIds.length < st.samplingParams.minTokens
    · simp [hless]
    · simp [hless]

/-- When the worker is about to run the model, the logits of the stop tokens of exactly those
requests that have not generated their minimum are masked, and no other logit is changed, provided
that no output tokens are discarded. -/
theorem Reached.minTokens_exact (hok : ∀ w out, ok w out → KeepsTokens w out)
    (h : Reached c ok maxNumReqs s) (ha : s.runner.Applies out) (hmeets : ok s.runner out)
    (hlora : ∀ r, (obj r).loraRequest ≠ some 0) (hupdate : s.update c obj out = .ok s')
    (negInf : α) (logits : Logits α) :
    (∀ i, s'.minTokens.minToks.get? i = (s'.runner.stateAt i).bind (minTokensOf c)) ∧
      ∀ i t, (Withheld c s'.runner i t → s'.minTokens.apply negInf logits i t = negInf) ∧
        (¬ Withheld c s'.runner i t → s'.minTokens.apply negInf logits i t = logits i t) := by
  have hentries := minTokensShown_update h.follows (h.minTokensShown hok) ha (hok _ _ hmeets) hlora
    hupdate
  have hcurrent := (h.follows.update ha hlora hupdate).stopTokens
  refine ⟨hentries, fun i t => ?_⟩
  rw [← exists_entry_iff (hentries i)]
  exact hcurrent.apply_eq negInf logits i t

/-! ### Two steps of a worker -/

/-- The parameters as numbers, with a decode threshold of one token. -/
def numbered : SamplerConfig ℕ where
  reorderBatchThreshold := some 1
  allStopTokenIds _ := {0}
  logitBias p := if p.minTokens = 0 then none else some (.ofPairs [(0, p.minTokens)])
  minP p := p.minTokens

/-- A request that needs as many tokens as its id says. -/
def needing (r : ReqId) : Request where
  requestId := r
  arrivalTime := 0
  maxTokens := 8
  promptTokenIds := [5, 6]
  numPromptTokens := 2
  allTokenIds := [5, 6]
  samplingParams := { minTokens := r }

/-- The requests of the example name no adapter. -/
theorem needing_loraRequest (r : ReqId) : (needing r).loraRequest ≠ some 0 := by simp [needing]

/-- Two requests begin. -/
def twoBegin : SchedulerOutput where
  scheduledNewReqs := [⟨1, [[1]], 0⟩, ⟨2, [[2]], 0⟩]
  scheduledCachedReqs := ⟨[], ∅, [], [], []⟩
  numScheduledTokens := .ofPairs [(1, 2), (2, 2)]
  totalNumScheduledTokens := 4
  scheduledSpecDecodeTokens := .empty
  scheduledEncoderInputs := .empty
  preemptedReqIds := ∅
  finishedReqIds := ∅
  freeEncoderMmHashes := []
  newBlockIdsToZero := []

/-- The first is finished, the second decodes and a third begins. -/
def oneComes : SchedulerOutput :=
  { twoBegin with
    scheduledNewReqs := [⟨3, [[1]], 0⟩]
    scheduledCachedReqs := ⟨[2], ∅, [none], [2], [1]⟩
    numScheduledTokens := .ofPairs [(2, 1), (3, 2)]
    finishedReqIds := {1} }

/-- The third request takes the row of the first, and the second then changes places with it. The
second has one of its two tokens. -/
theorem oneComes_reached : ∃ s s' : Sampler ℕ, Reached numbered KeepsTokens 2 s ∧
    s.runner.Applies oneComes ∧ KeepsTokens s.runner oneComes ∧
      s.update numbered needing oneComes = .ok s' ∧
        s'.runner.inputBatch.reqAt 0 = some 2 ∧ s'.runner.inputBatch.reqAt 1 = some 3 ∧
          s'.runner.inputBatch.numReqs = 2 ∧ (s'.runner.stateAt 0).map (fun st =>
            (st.outputTokenIds.length, st.samplingParams.minTokens)) = some (1, 2) := by
  obtain ⟨s, hs, ⟨hknown, hmax⟩, hyields⟩ := Yields.exists_ok
    (x := (init 2 : Sampler ℕ).update numbered needing twoBegin)
    (P := fun s => (((s.sample fun _ => [7]).runner.requests.get? 2).map
        CachedRequestState.outputTokenIds = some [7] ∧ s.runner.inputBatch.maxNumReqs = 2) ∧
      Yields ((s.sample fun _ => [7]).update numbered needing oneComes) fun s' =>
        s'.runner.inputBatch.reqAt 0 = some 2 ∧ s'.runner.inputBatch.reqAt 1 = some 3 ∧
          s'.runner.inputBatch.numReqs = 2 ∧ (s'.runner.stateAt 0).map (fun st =>
            (st.outputTokenIds.length, st.samplingParams.minTokens)) = some (1, 2))
    (by decide +kernel)
  obtain ⟨s', hs', hat⟩ := hyields.exists_ok
  obtain ⟨st, hst, htokens⟩ := Option.map_eq_some_iff.mp hknown
  have hitems : ∀ e ∈ oneComes.scheduledCachedReqs.items, e = ⟨2, none, 2, 1⟩ := by decide +kernel
  have hbegin : (ModelRunner.init 2).Applies twoBegin :=
    ⟨.of_keys (by decide +kernel), fun e he => (nomatch he), fun e he => (nomatch he),
      by decide +kernel⟩
  refine ⟨s.sample fun _ => [7], s', ?_, ?_, ?_, hs', hat⟩
  · exact .sample _ (.update .init hbegin (fun e he => (nomatch he)) needing_loraRequest hs)
  · refine ⟨.of_keys (by decide +kernel), fun e he => ?_, fun e he hres => ?_, ?_⟩
    · rw [hitems e he, hst]
      exact ⟨by decide, rfl⟩
    · rw [hitems e he] at hres
      exact absurd hres (by decide)
    · exact hmax ▸ (by decide +kernel : oneComes.numScheduledTokens.keys.length ≤ 2)
  · intro e he st' hst'
    rw [hitems e he] at hst' ⊢
    rw [hst] at hst'
    cases hst'
    rw [htokens]
    decide

/-- The decode of the second request stands before the prompt of the third. -/
theorem decodes_first_oneComes : ∃ s' : Sampler ℕ,
    s'.runner.inputBatch.reqAt 0 = some 2 ∧ s'.runner.inputBatch.reqAt 1 = some 3 ∧
      s'.runner.inputBatch.Split 1 oneComes.numScheduledTokens := by
  obtain ⟨s, s', hreached, happlies, -, hs', hat, hat', -⟩ := oneComes_reached
  obtain ⟨s'', hs'', hsplit, -⟩ := hreached.decodes_first happlies needing_loraRequest
  rw [hs'] at hs''
  cases hs''
  exact ⟨s', hat, hat', hsplit 1 rfl⟩

/-- The bias and the min-p of the second request are in the row it has moved to. -/
theorem rows_follow_oneComes : ∃ s : Sampler ℕ,
    s.runner.inputBatch.reqAt 0 = some 2 ∧ s.logitBias.apply (fun _ _ => 10) 0 0 = 12 ∧
      s.minP.minPCpu 0 = 2 ∧ s.minP.minP = (List.range 2).map s.minP.minPCpu := by
  obtain ⟨s, s', hreached, happlies, hkeeps, hs', hat, -, hnum, hstate⟩ := oneComes_reached
  obtain ⟨-, hbias, hminP, ⟨rows, hrows, hcount⟩, hcopy⟩ :=
    (Reached.update hreached happlies hkeeps needing_loraRequest hs').rows_follow
  obtain ⟨st, hst, htokens⟩ := Option.map_eq_some_iff.mp hstate
  have htwo : st.samplingParams.minTokens = 2 := congrArg Prod.snd htokens
  have hvalue : s'.minP.minPCpu 0 = 2 := by
    rw [hminP, hst]
    exact htwo
  refine ⟨s', hat, ?_, hvalue, ?_⟩
  · rw [hbias, hst, Option.bind_some, numbered]
    dsimp only
    rw [htwo]
    rfl
  · rw [hnum] at hcopy
    refine hcopy fun hzero => ?_
    rw [hcount, Nat.cast_eq_zero, Finset.card_eq_zero] at hzero
    have hmem := (hrows 0).mpr (by rw [hvalue]; decide)
    rw [hzero] at hmem
    exact absurd hmem (Finset.notMem_empty 0)

/-- The stop token of the second request is masked, and its other tokens are not. -/
theorem minTokens_exact_oneComes : ∃ s : Sampler ℕ,
    s.runner.inputBatch.reqAt 0 = some 2 ∧ s.minTokens.apply 0 (fun _ _ => 5) 0 0 = 0 ∧
      s.minTokens.apply 0 (fun _ _ => 5) 0 1 = 5 := by
  obtain ⟨s, s', hreached, happlies, hkeeps, hs', hat, -, -, hstate⟩ := oneComes_reached
  obtain ⟨-, hmasks⟩ := hreached.minTokens_exact (fun _ _ h => h) happlies hkeeps
    needing_loraRequest hs' 0 fun _ _ => 5
  obtain ⟨st, hst, htokens⟩ := Option.map_eq_some_iff.mp hstate
  obtain ⟨hlen, hmin⟩ := Prod.ext_iff.mp htokens
  refine ⟨s', hat, (hmasks 0 0).1 ⟨st, hst, ?_, Finset.mem_singleton_self 0⟩, (hmasks 0 1).2 ?_⟩
  · rw [show st.outputTokenIds.length = 1 from hlen, show st.samplingParams.minTokens = 2 from hmin]
    decide
  · rintro ⟨st', -, -, hstop⟩
    exact absurd (Finset.mem_singleton.mp hstop) (by decide)

end Sampler

end RpsServe
