import RpsServe.Scheduler.Outcome
import RpsServe.QueueManager.Merge

/-!
# Rounds and events

The rounds of the main loop by the way they end, and the events of a step: the preemptions,
admissions and exits on which the behaviour of a step hinges. A condition on a step says
which events it is free of.
-/

namespace RpsServe

/-- What happens in a step, with the loop's variables at that moment. -/
inductive Event (K E : Type) where
  /-- The request `victim` at index `l` is preempted to make room for `candidate`. -/
  | preempt (ls : LoopState K E) (candidate : ReqId) (l : ℕ) (victim : ReqId)
  /-- A candidate is passed over, as the steps in flight already reach its `max_tokens`. -/
  | pass (ls : LoopState K E) (candidate : ReqId)
  /-- A waiting candidate is given up for good. -/
  | ignore (ls : LoopState K E) (candidate : ReqId)
  /-- The walk ends at a waiting candidate before blocks are asked for. -/
  | block (ls : LoopState K E) (candidate : ReqId)
  /-- A waiting candidate is admitted. -/
  | admitWaiting (ls : LoopState K E) (candidate : ReqId)

/-- The next round after a block of the loop's body, or the end of the loop. -/
def Flow.toPass {σ : Type*} : Flow σ → Pass σ σ
  | .goOn s | .fall s => .next s
  | .leave s => .done s

/-- The state a round ends in. -/
def Pass.state {σ : Type*} : Pass σ σ → σ
  | .next s | .done s => s

namespace LoopState

variable {K E : Type}

/-- The round treats the request `r`: the walk has come to it with tokens left. -/
structure Treats (ls : LoopState K E) (r : ReqId) : Prop where
  stands : ls.qm.combined[ls.reqIndex]? = some r
  budget : 0 < ls.tokenBudget
  notPreempted : r ∉ ls.preemptedReqs
  notPassed : reachesMaxTokens (ls.req r) = false

instance (ls : LoopState K E) (r : ReqId) : Decidable (ls.Treats r) :=
  decidable_of_iff (ls.qm.combined[ls.reqIndex]? = some r ∧ 0 < ls.tokenBudget ∧
      r ∉ ls.preemptedReqs ∧ reachesMaxTokens (ls.req r) = false)
    ⟨fun ⟨hstands, hbudget, hpre, hpass⟩ => ⟨hstands, hbudget, hpre, hpass⟩,
      fun h => ⟨h.stands, h.budget, h.notPreempted, h.notPassed⟩⟩

variable [KVCacheManager K] [EncoderCache E]

/-- The ways in which a round of the main loop ends, while no request is both running and
waiting. -/
inductive RoundOutcome (cfg : Config) (env : StepEnv) (ls : LoopState K E) :
    Pass (LoopState K E) (LoopState K E) → Prop
  | exhausted : ls.qm.combined[ls.reqIndex]? = none → RoundOutcome cfg env ls (.done ls)
  | spent {r} : ls.qm.combined[ls.reqIndex]? = some r → ls.tokenBudget ≤ 0 →
      RoundOutcome cfg env ls (.done ls)
  | preempted {r} : ls.qm.combined[ls.reqIndex]? = some r → r ∈ ls.preemptedReqs →
      RoundOutcome cfg env ls (.done ls)
  | passed {r} : ls.qm.combined[ls.reqIndex]? = some r → 0 < ls.tokenBudget →
      r ∉ ls.preemptedReqs → reachesMaxTokens (ls.req r) = true →
      RoundOutcome cfg env ls (.next ls.advance)
  | running {r f} : ls.Treats r → r ∈ ls.qm.runningReqIds → RunningOutcome cfg env r ls f →
      RoundOutcome cfg env ls (Flow.toPass f)
  | waiting {r f} : ls.Treats r → r ∉ ls.qm.runningReqIds → r ∈ ls.qm.waitingReqIds →
      WaitingOutcome cfg env r ls f → RoundOutcome cfg env ls (Flow.toPass f)
  | stuck {r} : ls.Treats r → r ∉ ls.qm.runningReqIds → r ∉ ls.qm.waitingReqIds →
      RoundOutcome cfg env ls (.next ls)

/-- The events of a round. -/
inductive RoundEvent (cfg : Config) (env : StepEnv) (ls : LoopState K E) : Event K E → Prop
  | pass {r} : ls.qm.combined[ls.reqIndex]? = some r → 0 < ls.tokenBudget →
      r ∉ ls.preemptedReqs → reachesMaxTokens (ls.req r) = true →
      RoundEvent cfg env ls (.pass ls r)
  | preemptForRunning {r enc g t l v kv} : ls.Treats r → r ∈ ls.qm.runningReqIds →
      ls.runningGrant cfg env r = .ok (enc, g) → g.numNewTokens ≠ 0 →
      Visits (allocRound r (runningArgs cfg g)) (ls.setEnc enc) t →
      Preempts r (runningArgs cfg g) t l v kv → RoundEvent cfg env ls (.preempt t r l v)
  | preemptForWaiting {r c enc g t l v kv} : ls.Treats r → r ∉ ls.qm.runningReqIds →
      r ∈ ls.qm.waitingReqIds → ls.cachedPrefix cfg env r = .ok (some c) →
      ls.waitingGrant cfg env r c = .ok (.granted enc g) →
      Visits (allocRound r (waitingArgs cfg (ls.req r) c g)) (ls.setEnc enc) t →
      Preempts r (waitingArgs cfg (ls.req r) c g) t l v kv →
      RoundEvent cfg env ls (.preempt t r l v)
  | ignorePrompt {r} : ls.Treats r → r ∉ ls.qm.runningReqIds → r ∈ ls.qm.waitingReqIds →
      oversizePrompt cfg (ls.req r) = true → RoundEvent cfg env ls (.ignore ls r)
  | ignoreEncoderInputs {r c} : ls.Treats r → r ∉ ls.qm.runningReqIds →
      r ∈ ls.qm.waitingReqIds → ls.cachedPrefix cfg env r = .ok (some c) →
      ls.waitingGrant cfg env r c = .ok .ignored → RoundEvent cfg env ls (.ignore ls r)
  | block {r c enc} : ls.Treats r → r ∉ ls.qm.runningReqIds → r ∈ ls.qm.waitingReqIds →
      ls.cachedPrefix cfg env r = .ok (some c) →
      ls.waitingGrant cfg env r c = .ok (.blocked enc) → RoundEvent cfg env ls (.block ls r)
  | admitWaiting {r c enc g newBlocks ls₁} : ls.Treats r → r ∉ ls.qm.runningReqIds →
      r ∈ ls.qm.waitingReqIds → ls.cachedPrefix cfg env r = .ok (some c) →
      ls.waitingGrant cfg env r c = .ok (.granted enc g) →
      (ls.setEnc enc).allocLoop r (waitingArgs cfg (ls.req r) c g) = .ok (some newBlocks, ls₁) →
      c.loadKvAsync = false → RoundEvent cfg env ls (.admitWaiting ls₁ r)

variable {cfg : Config} {env : StepEnv} {r q v : ReqId} {args : AllocateSlotsArgs}
  {ls ls' t : LoopState K E}

/-- What every preemption of another request keeps holds at the start of every round. -/
theorem alloc_invariant {I : LoopState K E → Prop} (ht : Visits (allocRound q args) ls t)
    (hs : I ls)
    (hstep : ∀ t l v kv t', Visits (allocRound q args) ls t → I t → Preempts q args t l v kv →
      v ≠ q → (t.setKv kv).preemptVictim v = .ok t' → I t') : I t := by
  refine ht.invariant hs fun u u' hu hI hround => ?_
  cases allocRound_outcome hround with
  | other hpre hvq hvictim => exact hstep u _ _ _ u' hu hI hpre hvq hvictim

/-- What an allocation loop leaves alone: the merged list, the waiting ids, and the requests that
do not run. -/
structure SameWaiting (ls ls' : LoopState K E) : Prop where
  combined : ls'.qm.combined = ls.qm.combined
  waiting : ls'.qm.waitingReqIds = ls.qm.waitingReqIds
  running : ls'.qm.runningReqIds ⊆ ls.qm.runningReqIds

omit [KVCacheManager K] [EncoderCache E] in
/-- States with the waiting requests of the same state have the same waiting requests. -/
theorem SameWaiting.trans {ls₁ ls₂ ls₃ : LoopState K E} (h : SameWaiting ls₁ ls₂)
    (h' : SameWaiting ls₂ ls₃) : SameWaiting ls₁ ls₃ :=
  ⟨h'.combined.trans h.combined, h'.waiting.trans h.waiting, h'.running.trans h.running⟩

/-- Preempting a victim leaves the waiting requests. -/
theorem preemptVictim_sameWaiting {kv : K} (h : (ls.setKv kv).preemptVictim v = .ok ls') :
    SameWaiting ls ls' := by
  obtain ⟨ls₁, qm', -, -, hqm, rfl⟩ := preemptVictim_eq_ok h
  rcases QueueManager.updateIdxsAfterPreemption_cases hqm with ⟨-, hq⟩ | ⟨l, v', u⟩
  · exact ⟨congrArg QueueManager.combined hq, congrArg QueueManager.waitingReqIds hq,
      (congrArg QueueManager.runningReqIds hq).subset⟩
  · exact ⟨u.combined, u.waiting, u.running ▸ Finset.erase_subset _ _⟩

/-- The rounds of the allocation loop leave the waiting requests. -/
theorem visits_sameWaiting (ht : Visits (allocRound q args) ls t) : SameWaiting ls t :=
  alloc_invariant ht ⟨rfl, rfl, Finset.Subset.refl _⟩ fun _ _ _ _ _ _ hI _ _ hvictim =>
    SameWaiting.trans hI (preemptVictim_sameWaiting hvictim)

/-- The allocation loop leaves the waiting requests. -/
theorem allocLoop_sameWaiting {res : Option KVCacheBlocks}
    (h : ls.allocLoop q args = .ok (res, ls')) : SameWaiting ls ls' := by
  obtain ⟨t, ht, hexit⟩ := allocLoop_outcome h
  have hsame := visits_sameWaiting ht
  cases hexit with
  | found | noneRunning | kept => exact ⟨hsame.combined, hsame.waiting, hsame.running⟩
  | itself _ hvictim => exact hsame.trans (preemptVictim_sameWaiting hvictim)

/-- A preemption updates the queue manager for its victim. -/
theorem preemptVictim_update {kv : K} {l : ℕ} (hpre : Preempts q args ls l v kv)
    (h : (ls.setKv kv).preemptVictim v = .ok ls') :
    QueueManager.PreemptionUpdate ls.qm ls'.qm l v := by
  obtain ⟨ls₁, qm', -, -, hqm, rfl⟩ := preemptVictim_eq_ok h
  rcases QueueManager.updateIdxsAfterPreemption_cases hqm with ⟨hnone, -⟩ | ⟨l', v', u⟩
  · rw [qm_setKv, hpre.lastRunning] at hnone
    cases hnone
  · obtain rfl : l = l' := Option.some.inj (hpre.lastRunning.symm.trans u.lastRunning)
    obtain rfl : v = v' := Option.some.inj (hpre.stands.symm.trans u.stands)
    exact u

/-- The victim of a preemption is the request that leaves the running ids. -/
theorem preemptVictim_running {kv : K} {l : ℕ} (hpre : Preempts q args ls l v kv)
    (h : (ls.setKv kv).preemptVictim v = .ok ls') :
    ls'.qm.runningReqIds = ls.qm.runningReqIds.erase v := (preemptVictim_update hpre h).running

/-- A running candidate is one as long as it is not preempted itself. -/
theorem allocLoop_running {blocks : KVCacheBlocks}
    (h : ls.allocLoop q args = .ok (some blocks, ls')) (hq : q ∈ ls.qm.runningReqIds) :
    q ∈ ls'.qm.runningReqIds := by
  obtain ⟨t, ht, hexit⟩ := allocLoop_outcome h
  have hmem : q ∈ t.qm.runningReqIds :=
    alloc_invariant (I := fun t => q ∈ t.qm.runningReqIds) ht hq
      fun t l v kv t' _ hI hpre hvq hvictim => by
        rw [preemptVictim_running hpre hvictim]
        exact Finset.mem_erase_of_ne_of_mem (Ne.symm hvq) hI
  cases hexit with
  | found => exact hmem

/-- A running candidate that is scheduled does not go on to the waiting branch. -/
theorem not_waiting_of_scheduled {f : Flow (LoopState K E)} (hw : r ∉ ls.qm.waitingReqIds)
    (h : RunningOutcome cfg env r ls f) (hf : f = .fall ls') : r ∉ ls'.qm.waitingReqIds := by
  cases h with
  | noTokens => cases hf
  | noBlocks => cases hf
  | scheduled _ _ halloc hsched =>
    cases hf
    obtain ⟨enc, spec, -, rfl⟩ := scheduleRunning_eq_ok hsched
    exact fun hmem => hw ((allocLoop_sameWaiting halloc).waiting ▸ hmem)

/-- A round of the walk has one of the outcomes. -/
theorem round_outcome {p : Pass (LoopState K E) (LoopState K E)}
    (hdisj : Disjoint ls.qm.runningReqIds ls.qm.waitingReqIds) (h : ls.round cfg env = .ok p) :
    RoundOutcome cfg env ls p := by
  unfold round at h
  split at h
  · rename_i hnone
    cases h
    exact .exhausted hnone
  · rename_i r hr
    split at h
    · rename_i hbudget
      cases h
      exact .spent hr hbudget
    · rename_i hbudget
      split at h
      · rename_i hpre
        cases h
        exact .preempted hr hpre
      · rename_i hpre
        split at h
        · rename_i hpass
          cases h
          exact .passed hr (by omega) hpre hpass
        · rename_i hpass
          have htreats : ls.Treats r := ⟨hr, by omega, hpre, by simpa using hpass⟩
          obtain ⟨f, hcand, h⟩ := bind_eq_ok.mp h
          have hp : p = Flow.toPass f := by cases f <;> cases h <;> rfl
          obtain ⟨f₁, hrun, hwait⟩ := bind_eq_ok.mp hcand
          subst hp
          by_cases hR : r ∈ ls.qm.runningReqIds
          · rw [if_pos hR] at hrun
            have houtcome := runningCandidate_outcome hrun
            have hW : r ∉ ls.qm.waitingReqIds := Finset.disjoint_left.mp hdisj hR
            have hf : f = f₁ := by
              cases f₁ with
              | goOn ls₁ => cases hwait; rfl
              | leave ls₁ => cases hwait; rfl
              | fall ls₁ =>
                dsimp only at hwait
                rw [if_neg (not_waiting_of_scheduled hW houtcome rfl)] at hwait
                cases hwait
                rfl
            exact .running htreats hR (hf ▸ houtcome)
          · rw [if_neg hR] at hrun
            cases hrun
            dsimp only at hwait
            by_cases hW : r ∈ ls.qm.waitingReqIds
            · rw [if_pos hW] at hwait
              exact .waiting htreats hR hW (waitingCandidate_outcome hwait)
            · rw [if_neg hW] at hwait
              cases hwait
              exact .stuck htreats hR hW

/-! ### Rounds without a condition on the queues -/

/-- The walk comes to the waiting branch of the round for `q`. -/
def ReachesWaiting (cfg : Config) (env : StepEnv) (ls : LoopState K E) (q : ReqId)
    (ls₁ : LoopState K E) : Prop :=
  (if q ∈ ls.qm.runningReqIds then ls.runningCandidate cfg env q else .ok (.fall ls)) =
    .ok (.fall ls₁)

/-- With the running and the waiting ids apart, only a candidate that does not run comes there. -/
theorem ReachesWaiting.of_disjoint {ls₁ : LoopState K E} (h : ls.ReachesWaiting cfg env q ls₁)
    (hdisj : Disjoint ls.qm.runningReqIds ls.qm.waitingReqIds) (hW : q ∈ ls₁.qm.waitingReqIds) :
    q ∉ ls.qm.runningReqIds ∧ ls₁ = ls := by
  by_cases hR : q ∈ ls.qm.runningReqIds
  · rw [ReachesWaiting, if_pos hR] at h
    exact absurd hW (not_waiting_of_scheduled (Finset.disjoint_left.mp hdisj hR)
      (runningCandidate_outcome h) rfl)
  · rw [ReachesWaiting, if_neg hR] at h
    cases h
    exact ⟨hR, rfl⟩

/-- The round asks for blocks: the candidate, the arguments, its grant, and the variables with which
its allocation loop begins. -/
inductive Allocates (cfg : Config) (env : StepEnv) (ls : LoopState K E) :
    ReqId → AllocateSlotsArgs → Grant → LoopState K E → Prop
  | running {q enc g} : ls.Treats q → q ∈ ls.qm.runningReqIds →
      ls.runningGrant cfg env q = .ok (enc, g) → g.numNewTokens ≠ 0 →
      Allocates cfg env ls q (runningArgs cfg g) g (ls.setEnc enc)
  | waiting {q ls₁ c enc g} : ls.Treats q → ls.ReachesWaiting cfg env q ls₁ →
      q ∈ ls₁.qm.waitingReqIds → oversizePrompt cfg (ls₁.req q) = false →
      ls₁.cachedPrefix cfg env q = .ok (some c) →
      ls₁.waitingGrant cfg env q c = .ok (.granted enc g) →
      Allocates cfg env ls q (waitingArgs cfg (ls₁.req q) c g) g (ls₁.setEnc enc)

/-- With the running and the waiting ids apart, the preemptions of an allocation loop are events of
the round. -/
theorem Allocates.preempt {g : Grant} {ls₁ t : LoopState K E} {l : ℕ} {kv : K}
    (h : ls.Allocates cfg env q args g ls₁)
    (hdisj : Disjoint ls.qm.runningReqIds ls.qm.waitingReqIds)
    (ht : Visits (allocRound q args) ls₁ t) (hpre : Preempts q args t l v kv) :
    RoundEvent cfg env ls (.preempt t q l v) := by
  cases h with
  | running htreats hR hgrant hpos => exact .preemptForRunning htreats hR hgrant hpos ht hpre
  | waiting htreats hreach hW _ hc hg =>
    obtain ⟨hR, rfl⟩ := hreach.of_disjoint hdisj hW
    exact .preemptForWaiting htreats hR hW hc hg ht hpre

/-- A candidate runs or waits. -/
theorem candidate_cases {f : Flow (LoopState K E)} (h : ls.candidate cfg env q = .ok f) :
    (q ∈ ls.qm.runningReqIds ∧ ls.runningCandidate cfg env q = .ok f) ∨
      ∃ ls₁, ls.ReachesWaiting cfg env q ls₁ ∧
        (q ∈ ls₁.qm.waitingReqIds ∧ ls₁.waitingCandidate cfg env q = .ok f ∨
          q ∉ ls₁.qm.waitingReqIds ∧ f = .fall ls₁) := by
  obtain ⟨f₁, hrunning, h⟩ := bind_eq_ok.mp h
  cases f₁ with
  | fall ls₁ =>
    refine .inr ⟨ls₁, hrunning, ?_⟩
    dsimp only at h
    split at h
    · rename_i hW
      exact .inl ⟨hW, h⟩
    · rename_i hW
      cases h
      exact .inr ⟨hW, rfl⟩
  | goOn ls₁ | leave ls₁ =>
    cases h
    split at hrunning
    · rename_i hR
      exact .inl ⟨hR, hrunning⟩
    · cases hrunning

/-- A round of the walk ends it, passes over a request, or treats a candidate. -/
theorem round_cases {p : Pass (LoopState K E) (LoopState K E)} (h : ls.round cfg env = .ok p) :
    p = .done ls ∨ p = .next ls.advance ∨
      ∃ q f, ls.Treats q ∧ ls.candidate cfg env q = .ok f ∧ p = f.toPass := by
  unfold round at h
  split at h
  · cases h
    exact .inl rfl
  · rename_i q hq
    split at h
    · cases h
      exact .inl rfl
    · rename_i hbudget
      split at h
      · cases h
        exact .inl rfl
      · rename_i hpre
        split at h
        · cases h
          exact .inr (.inl rfl)
        · rename_i hpass
          obtain ⟨f, hf, h⟩ := bind_eq_ok.mp h
          refine .inr (.inr ⟨q, f, ⟨hq, not_le.mp hbudget, hpre, by simpa using hpass⟩, hf, ?_⟩)
          cases f <;> cases h <;> rfl

end LoopState

namespace Scheduler

variable {K E : Type} [KVCacheManager K] [EncoderCache E]

/-- The variables at the beginning of a round of the step from `s`. -/
def Rounds (cfg : Config) (env : StepEnv) (s : Scheduler K E) (ls : LoopState K E) : Prop :=
  ∃ ls₀, beginStep cfg env s = .ok ls₀ ∧ Visits (LoopState.round cfg env) ls₀ ls

/-- The variables at the end of the walk and of the tail preemption, before the queues are rebuilt. -/
def Walked (cfg : Config) (env : StepEnv) (s : Scheduler K E) (ls : LoopState K E) : Prop :=
  ∃ ls₀ ls₁, beginStep cfg env s = .ok ls₀ ∧ ls₀.mainLoop cfg env = .ok ls₁ ∧
    ls₁.tailPreempt = .ok ls

/-- What holds at the beginning of a step and is kept by every round and by every tail preemption
holds at the end of the walk. -/
theorem Walked.rule {cfg : Config} {env : StepEnv} {s : Scheduler K E} {ls : LoopState K E}
    {I : LoopState K E → Prop} (h : Walked cfg env s ls)
    (hstart : ∀ t, beginStep cfg env s = .ok t → I t)
    (hround : ∀ t p, Rounds cfg env s t → I t → t.round cfg env = .ok p → I p.state)
    (htail : ∀ t r t', I t → t.tailPreemptOne r = .ok t' → I t') : I ls := by
  obtain ⟨ls₀, ls₁, hbegin, hloop, htailed⟩ := h
  obtain ⟨t, ht, hexit⟩ := loop_exit hloop
  have hI : I t := ht.invariant (hstart ls₀ hbegin) fun u u' hu hI hstep =>
    hround u _ ⟨ls₀, hbegin, hu⟩ hI hstep
  have hI₁ : I ls₁ := hround t _ ⟨ls₀, hbegin, ht⟩ hI hexit
  unfold LoopState.tailPreempt at htailed
  split at htailed
  · exact foldlM_invariant htailed hI₁ fun r _ u u' hI hone => htail u r u' hI hone
  · cases htailed
    exact hI₁

/-- While everything is paused, no round of a step has a token to give. -/
theorem Rounds.spent_of_paused {cfg : Config} {env : StepEnv} {s : Scheduler K E}
    {ls : LoopState K E} (h : Rounds cfg env s ls) (hpause : s.pauseState = .pausedAll) :
    ¬ 0 < ls.tokenBudget := by
  obtain ⟨ls₀, hbegin, hvisits⟩ := h
  refine hvisits.invariant (I := fun u => ¬ 0 < u.tokenBudget) ?_ fun u u' _ hu hround => ?_
  · obtain ⟨⟨objs, requests⟩, -, hbegin⟩ := bind_eq_ok.mp hbegin
    cases hbegin
    simp [hpause]
  · rw [LoopState.round] at hround
    split at hround
    · cases hround
    · rw [if_pos (not_lt.mp hu)] at hround
      cases hround

/-- Every event of the step from `s` is one of `good`. -/
def StepMeets (good : Event K E → Prop) (cfg : Config) (env : StepEnv) (s : Scheduler K E) : Prop :=
  ∀ ls, Rounds cfg env s ls → ∀ e, LoopState.RoundEvent cfg env ls e → good e

end Scheduler

end RpsServe
