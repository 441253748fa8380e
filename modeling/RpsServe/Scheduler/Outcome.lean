import RpsServe.Scheduler.Schedule
import RpsServe.Lib.Except

/-!
# What a round of the main loop can do

One inversion for each branch of the loop's body: the ways in which a running and a waiting
candidate can end a round, with everything that was decided on the way there.
-/

namespace RpsServe

/-! ### One item of a candidate -/

section Encoder

variable {E : Type} [EncoderCache E] {cfg : Config} {env : StepEnv} {q : Request}
  {numComputedTokens shift : ℤ} {i : ℕ} {f : MmFeature} {p p' : EncoderPass E} {goOn hit : Bool}

/-- The item begins before the end of the scheduled range, and its last position is not computed. -/
def EncoderPass.Needs (p : EncoderPass E) (numComputedTokens shift : ℤ) (f : MmFeature) : Prop :=
  f.offset < numComputedTokens + p.numNewTokens + shift ∧ numComputedTokens < f.offset + f.length

/-- The ways in which the walk over the items of a candidate treats one of them. -/
inductive EncoderItemOutcome (cfg : Config) (env : StepEnv) (q : Request)
    (numComputedTokens shift : ℤ) (i : ℕ) (f : MmFeature) (p : EncoderPass E) :
    Bool → EncoderPass E → Prop
  | beyond : numComputedTokens + p.numNewTokens + shift ≤ f.offset →
      EncoderItemOutcome cfg env q numComputedTokens shift i f p false p
  | encoded : cfg.isEncoderDecoder = true →
      EncoderItemOutcome cfg env q numComputedTokens shift i f p true p
  | computed : (f.offset : ℤ) + f.length ≤ numComputedTokens →
      EncoderItemOutcome cfg env q numComputedTokens shift i f p true p
  | cached {p₁} : p.Needs numComputedTokens shift f →
      encoderItemCached cfg q i f p = .ok (true, p₁) →
      EncoderItemOutcome cfg env q numComputedTokens shift i f p true p₁
  | rolledBack {p₁} : p.Needs numComputedTokens shift f →
      encoderItemCached cfg q i f p = .ok (false, p₁) →
      EncoderItemOutcome cfg env q numComputedTokens shift i f p false
        { p₁ with numNewTokens := max 0 (f.offset - (numComputedTokens + shift)) }
  | noRoom {p₁ enc} : p.Needs numComputedTokens shift f →
      encoderItemCached cfg q i f p = .ok (false, p₁) →
      EncoderCache.canAllocate p₁.enc q i p₁.encoderComputeBudget p₁.numEmbedsToSchedule =
        .ok (false, enc) →
      EncoderItemOutcome cfg env q numComputedTokens shift i f p false
        { p₁ with
          enc := enc
          numNewTokens := if numComputedTokens + shift < f.offset then
            f.offset - (numComputedTokens + shift) else 0 }
  | added {p₁ enc} : p.Needs numComputedTokens shift f →
      encoderItemCached cfg q i f p = .ok (false, p₁) →
      EncoderCache.canAllocate p₁.enc q i p₁.encoderComputeBudget p₁.numEmbedsToSchedule =
        .ok (true, enc) →
      EncoderItemOutcome cfg env q numComputedTokens shift i f p true
        (encoderItemAdd cfg env i f numComputedTokens { p₁ with enc := enc })

/-- An item of the pass has one of the outcomes. -/
theorem encoderItem_outcome (h : encoderItem cfg env q numComputedTokens shift i f p = .ok (goOn, p')) :
    EncoderItemOutcome cfg env q numComputedTokens shift i f p goOn p' := by
  unfold encoderItem at h
  split at h
  · rename_i hbeyond
    cases h
    exact .beyond hbeyond
  rename_i hbehind
  split at h
  · rename_i hencoded
    split at h <;> cases h
    exact .encoded hencoded.1
  split at h
  · rename_i hcomputed
    cases h
    exact .computed hcomputed
  rename_i hopen
  have hneeds : p.Needs numComputedTokens shift f := ⟨not_le.mp hbehind, not_le.mp hopen⟩
  obtain ⟨⟨hit, p₁⟩, hcached, h⟩ := bind_eq_ok.mp h
  dsimp only at h
  split at h
  · rename_i hhit
    subst hhit
    cases h
    exact .cached hneeds hcached
  rename_i hhit
  rw [Bool.not_eq_true] at hhit
  subst hhit
  split at h
  · cases h
    exact .rolledBack hneeds hcached
  obtain ⟨⟨fits, enc⟩, hcan, h⟩ := bind_eq_ok.mp h
  dsimp only at h
  cases fits <;> cases h
  exacts [.noRoom hneeds hcached hcan, .added hneeds hcached hcan]

/-- The ways in which the lookup of an item ends. -/
inductive EncoderLookupOutcome (cfg : Config) (q : Request) (i : ℕ) (f : MmFeature)
    (p : EncoderPass E) : Bool → EncoderPass E → Prop
  | encoderDecoder : cfg.isEncoderDecoder = true → EncoderLookupOutcome cfg q i f p false p
  | repeated : f.identifier ∈ p.mmHashesToSchedule → EncoderLookupOutcome cfg q i f p true p
  | looked {hit enc} : cfg.isEncoderDecoder = false → f.identifier ∉ p.mmHashesToSchedule →
      EncoderCache.checkAndUpdateCache p.enc q i = .ok (hit, enc) →
      EncoderLookupOutcome cfg q i f p hit { p with enc := enc }

/-- Looking up a cached item has one of the outcomes. -/
theorem encoderItemCached_outcome (h : encoderItemCached cfg q i f p = .ok (hit, p')) :
    EncoderLookupOutcome cfg q i f p hit p' := by
  unfold encoderItemCached at h
  split at h
  · rename_i hdecoder
    cases h
    exact .encoderDecoder hdecoder
  · rename_i hdecoder
    split at h
    · rename_i hmem
      cases h
      exact .repeated hmem
    · rename_i hmem
      obtain ⟨⟨hit', enc⟩, hcheck, h⟩ := bind_eq_ok.mp h
      cases h
      exact .looked (by simpa using hdecoder) hmem hcheck

end Encoder

namespace LoopState

variable {K E : Type} {cfg : Config} {env : StepEnv} {r : ReqId} {ls : LoopState K E}

/-- Ignoring a request moves the queues and marks it. -/
theorem ignore_eq_ok {f : Flow (LoopState K E)} (h : ls.ignore r = .ok f) :
    ∃ qm', ls.qm.updateIdxsAfterIgnored = .ok qm' ∧
      f = .goOn ((ls.modifyReq r fun q => { q with status := .finishedIgnored }).setQm qm').advance := by
  obtain ⟨qm', hqm, h⟩ := bind_eq_ok.mp h
  cases h
  exact ⟨qm', hqm, rfl⟩

/-- Skipping a request moves the queues only. -/
theorem skip_eq_ok {f : Flow (LoopState K E)} (h : ls.skip = .ok f) :
    ∃ qm', ls.qm.updateIdxsAfterSkipped = .ok qm' ∧ f = .goOn (ls.setQm qm').advance := by
  obtain ⟨qm', hqm, h⟩ := bind_eq_ok.mp h
  cases h
  exact ⟨qm', hqm, rfl⟩

/-- An admitted request is recorded as new or as resumed. -/
theorem recordAdmitted_cases {ls' : LoopState K E} (h : ls.recordAdmitted r = .ok ls') :
    ((ls.req r).status = .waiting ∧
      ls' = { ls with scheduledNewReqs := ls.scheduledNewReqs ++ [r] }) ∨
    ((ls.req r).status = .preempted ∧
      ls' = { ls with scheduledResumedReqs := ls.scheduledResumedReqs ++ [r] }) := by
  unfold recordAdmitted at h
  split at h
  · rename_i hs
    cases h
    exact .inl ⟨hs, rfl⟩
  · rename_i hs
    cases h
    exact .inr ⟨hs, rfl⟩
  · cases h

variable [KVCacheManager K] [EncoderCache E]

/-- The ways in which the branch of a running candidate ends. -/
inductive RunningOutcome (cfg : Config) (env : StepEnv) (r : ReqId) (ls : LoopState K E) :
    Flow (LoopState K E) → Prop
  | noTokens {enc g} : ls.runningGrant cfg env r = .ok (enc, g) → g.numNewTokens = 0 →
      RunningOutcome cfg env r ls (.goOn (ls.setEnc enc).advance)
  | noBlocks {enc g ls₁} : ls.runningGrant cfg env r = .ok (enc, g) → g.numNewTokens ≠ 0 →
      (ls.setEnc enc).allocLoop r (runningArgs cfg g) = .ok (none, ls₁) →
      RunningOutcome cfg env r ls (.leave ls₁)
  | scheduled {enc g newBlocks ls₁ ls₂} : ls.runningGrant cfg env r = .ok (enc, g) →
      g.numNewTokens ≠ 0 →
      (ls.setEnc enc).allocLoop r (runningArgs cfg g) = .ok (some newBlocks, ls₁) →
      ls₁.scheduleRunning r g newBlocks = .ok ls₂ → RunningOutcome cfg env r ls (.fall ls₂)

/-- The ways in which the branch of a waiting candidate ends. -/
inductive WaitingOutcome (cfg : Config) (env : StepEnv) (r : ReqId) (ls : LoopState K E) :
    Flow (LoopState K E) → Prop
  | ignoredPrompt {f} : oversizePrompt cfg (ls.req r) → ls.ignore r = .ok f →
      WaitingOutcome cfg env r ls f
  | skipped {f} : ls.cachedPrefix cfg env r = .ok none → ls.skip = .ok f →
      WaitingOutcome cfg env r ls f
  | ignoredEncoderInputs {c f} : ls.cachedPrefix cfg env r = .ok (some c) →
      ls.waitingGrant cfg env r c = .ok .ignored → ls.ignore r = .ok f →
      WaitingOutcome cfg env r ls f
  | blocked {c enc} : ls.cachedPrefix cfg env r = .ok (some c) →
      ls.waitingGrant cfg env r c = .ok (.blocked enc) →
      WaitingOutcome cfg env r ls (.leave (ls.setEnc enc))
  | noBlocks {c enc g ls₁} : ls.cachedPrefix cfg env r = .ok (some c) →
      ls.waitingGrant cfg env r c = .ok (.granted enc g) →
      (ls.setEnc enc).allocLoop r (waitingArgs cfg (ls.req r) c g) = .ok (none, ls₁) →
      WaitingOutcome cfg env r ls (.leave
        (if (ls₁.req r).hasEncoderInputs then ls₁.setEnc (EncoderCache.free ls₁.sch.enc (ls₁.req r))
        else ls₁))
  | loading {c enc g newBlocks ls₁ f} : ls.cachedPrefix cfg env r = .ok (some c) →
      ls.waitingGrant cfg env r c = .ok (.granted enc g) →
      (ls.setEnc enc).allocLoop r (waitingArgs cfg (ls.req r) c g) = .ok (some newBlocks, ls₁) →
      c.loadKvAsync = true →
      (ls₁.modifyReq r fun q => { q with
        status := .waitingForRemoteKvs
        numComputedTokens := c.numComputedTokens }).skip = .ok f →
      WaitingOutcome cfg env r ls f
  | admitted {c enc g newBlocks ls₁ ls₂} : ls.cachedPrefix cfg env r = .ok (some c) →
      ls.waitingGrant cfg env r c = .ok (.granted enc g) →
      (ls.setEnc enc).allocLoop r (waitingArgs cfg (ls.req r) c g) = .ok (some newBlocks, ls₁) →
      c.loadKvAsync = false → ls₁.admitWaiting cfg r c g = .ok ls₂ →
      WaitingOutcome cfg env r ls (.fall ls₂)

/-- A running candidate has one of the outcomes. -/
theorem runningCandidate_outcome {f : Flow (LoopState K E)}
    (h : ls.runningCandidate cfg env r = .ok f) : RunningOutcome cfg env r ls f := by
  rw [runningCandidate, bind_eq_ok] at h
  obtain ⟨⟨enc, g⟩, hgrant, h⟩ := h
  dsimp only at h
  split at h
  · rename_i hzero
    cases h
    exact .noTokens hgrant hzero
  · rename_i hpos
    obtain ⟨⟨newBlocks, ls₁⟩, halloc, h⟩ := bind_eq_ok.mp h
    cases newBlocks with
    | none =>
      cases h
      exact .noBlocks hgrant hpos halloc
    | some newBlocks =>
      obtain ⟨ls₂, hsched, h⟩ := bind_eq_ok.mp h
      cases h
      exact .scheduled hgrant hpos halloc hsched

/-- A waiting candidate has one of the outcomes. -/
theorem waitingCandidate_outcome {f : Flow (LoopState K E)}
    (h : ls.waitingCandidate cfg env r = .ok f) : WaitingOutcome cfg env r ls f := by
  unfold waitingCandidate at h
  split at h
  · rename_i hsize
    exact .ignoredPrompt hsize h
  · obtain ⟨c, hc, h⟩ := bind_eq_ok.mp h
    cases c with
    | none => exact .skipped hc h
    | some c =>
      obtain ⟨a, ha, h⟩ := bind_eq_ok.mp h
      cases a with
      | ignored => exact .ignoredEncoderInputs hc ha h
      | blocked enc =>
        cases h
        exact .blocked hc ha
      | granted enc g =>
        obtain ⟨⟨newBlocks, ls₁⟩, halloc, h⟩ := bind_eq_ok.mp h
        dsimp only at h
        cases newBlocks with
        | none =>
          cases h
          exact .noBlocks hc ha halloc
        | some newBlocks =>
          split at h
          · rename_i hnone
            cases hnone
          · split at h
            · rename_i hload
              exact .loading hc ha halloc hload h
            · rename_i hload
              obtain ⟨ls₂, hadmitted, h⟩ := bind_eq_ok.mp h
              cases h
              exact .admitted hc ha halloc (by simpa using hload) hadmitted

/-! ### What a scheduling changes -/

omit [KVCacheManager K] in
/-- Committing the encoder inputs of a grant allocates them. -/
theorem commitEncoderInputs_eq_ok {g : Grant} {ls' : LoopState K E}
    (h : ls.commitEncoderInputs r g = .ok ls') :
    ∃ enc, allocateEncoderInputs (ls.req r)
        (g.encoderInputsToSchedule ++ g.externalLoadEncoderInput) ls.sch.enc = .ok enc ∧
      ls' = { ls with
        sch := { ls.sch with enc := enc }
        scheduledEncoderInputs :=
          if g.encoderInputsToSchedule = [] then ls.scheduledEncoderInputs
          else ls.scheduledEncoderInputs.set r g.encoderInputsToSchedule
        encoderComputeBudget :=
          if g.encoderInputsToSchedule = [] then ls.encoderComputeBudget
          else g.newEncoderComputeBudget } := by
  obtain ⟨enc, henc, h⟩ := bind_eq_ok.mp h
  cases h
  exact ⟨enc, henc, rfl⟩

/-- What an admission changes: the candidate is recorded as new or as resumed, and the first
waiting request of the queue manager, whichever that is, becomes a running one. -/
theorem admitWaiting_eq_ok {c : CachedPrefix} {g : Grant} {ls' : LoopState K E}
    (h : ls.admitWaiting cfg r c g = .ok ls') :
    ∃ newReqs resumedReqs qm' enc,
      ((ls.req r).status = .waiting ∧ newReqs = ls.scheduledNewReqs ++ [r] ∧
          resumedReqs = ls.scheduledResumedReqs ∨
        (ls.req r).status = .preempted ∧ newReqs = ls.scheduledNewReqs ∧
          resumedReqs = ls.scheduledResumedReqs ++ [r]) ∧
      ls.qm.updateIdxsAfterNewScheduling = .ok qm' ∧
      allocateEncoderInputs
        ((ls.modifyReq r fun q => { q with
          status := .running
          numComputedTokens := c.numComputedTokens }).req r)
        (g.encoderInputsToSchedule ++ g.externalLoadEncoderInput) ls.sch.enc = .ok enc ∧
      ls' = { ls with
        sch := { ls.sch with
          objs := ls.sch.objs.modify r fun q => { q with
            status := .running
            numComputedTokens := c.numComputedTokens }
          queueManager := qm'
          enc := enc }
        scheduledNewReqs := newReqs
        scheduledResumedReqs := resumedReqs
        reqToNewBlocks := ls.reqToNewBlocks.set r (KVCacheManager.getBlocks ls.sch.kv r)
        numScheduledTokens := ls.numScheduledTokens.set r g.numNewTokens
        tokenBudget := ls.tokenBudget - g.numNewTokens
        scheduledEncoderInputs :=
          if g.encoderInputsToSchedule = [] then ls.scheduledEncoderInputs
          else ls.scheduledEncoderInputs.set r g.encoderInputsToSchedule
        encoderComputeBudget :=
          if g.encoderInputsToSchedule = [] then ls.encoderComputeBudget
          else g.newEncoderComputeBudget
        scheduledLoras :=
          if cfg.loraConfig then ls.scheduledLoras ∪ (ls.req r).loraRequest.toFinset
          else ls.scheduledLoras
        reqIndex := ls.reqIndex + 1 } := by
  obtain ⟨ls₁, hrec, h⟩ := bind_eq_ok.mp h
  obtain ⟨qm', hqm, h⟩ := bind_eq_ok.mp h
  obtain ⟨enc, henc, rfl⟩ := commitEncoderInputs_eq_ok h
  rcases recordAdmitted_cases hrec with ⟨hs, rfl⟩ | ⟨hs, rfl⟩
  · exact ⟨_, _, qm', enc, .inl ⟨hs, rfl, rfl⟩, hqm, henc, rfl⟩
  · exact ⟨_, _, qm', enc, .inr ⟨hs, rfl, rfl⟩, hqm, henc, rfl⟩

omit [KVCacheManager K] in
/-- Scheduling a running request records its grant. -/
theorem scheduleRunning_eq_ok {g : Grant} {newBlocks : KVCacheBlocks} {ls' : LoopState K E}
    (h : ls.scheduleRunning r g newBlocks = .ok ls') :
    ∃ enc spec,
      allocateEncoderInputs ((ls.modifyReq r fun q => { q with specTokenIds := [] }).req r)
        (g.encoderInputsToSchedule ++ g.externalLoadEncoderInput) ls.sch.enc = .ok enc ∧
      ls' = { ls with
        sch := { ls.sch with
          objs := ls.sch.objs.modify r fun q => { q with specTokenIds := [] }
          enc := enc }
        scheduledRunningReqs := ls.scheduledRunningReqs ++ [r]
        reqToNewBlocks := ls.reqToNewBlocks.set r newBlocks
        numScheduledTokens := ls.numScheduledTokens.set r g.numNewTokens
        tokenBudget := ls.tokenBudget - g.numNewTokens
        scheduledEncoderInputs :=
          if g.encoderInputsToSchedule = [] then ls.scheduledEncoderInputs
          else ls.scheduledEncoderInputs.set r g.encoderInputsToSchedule
        encoderComputeBudget :=
          if g.encoderInputsToSchedule = [] then ls.encoderComputeBudget
          else g.newEncoderComputeBudget
        scheduledSpecDecodeTokens := spec
        reqIndex := ls.reqIndex + 1 } := by
  obtain ⟨enc, henc, rfl⟩ := commitEncoderInputs_eq_ok h
  exact ⟨enc, _, henc, rfl⟩

/-- A tail preemption does nothing, or preempts a running request. -/
theorem tailPreemptOne_cases {ls' : LoopState K E} (h : ls.tailPreemptOne r = .ok ls') :
    ((ls.req r).status ≠ .running ∧ ls' = ls) ∨
      (ls.req r).status = .running ∧ ∃ qm', ls.qm.updateIdxsAfterPreemption = .ok qm' ∧
        ls' = { ls with
          sch := { ls.sch with
            kv := KVCacheManager.free ls.sch.kv r
            enc := EncoderCache.free ls.sch.enc (ls.req r)
            objs := ls.sch.objs.modify r fun q => { q with
              status := .preempted
              numComputedTokens := 0 }
            queueManager := qm' }
          preemptedReqs := ls.preemptedReqs ++ [r] } := by
  unfold tailPreemptOne at h
  split at h
  · rename_i hs
    cases h
    exact .inl ⟨hs, rfl⟩
  · rename_i hs
    obtain ⟨qm', hqm, h⟩ := bind_eq_ok.mp h
    cases h
    exact .inr ⟨by simpa using hs, qm', hqm, rfl⟩

end LoopState

end RpsServe
