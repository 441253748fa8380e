import RpsServe.Scheduler.Round

/-!
# Moves

Every change that a step makes to the loop's variables before the queues are rebuilt is one
of the moves below. An invariant that holds of the result of every move holds at every
round of the main loop, at its end and after the tail preemption.
-/

namespace RpsServe

namespace LoopState

variable {K E : Type} [KVCacheManager K] [EncoderCache E]

/-- One change of the loop's variables, with the events among the moves restricted to `good`. -/
inductive Move (cfg : Config) (good : Event K E → Prop) : LoopState K E → LoopState K E → Prop
  | caches {ls} (kv : K) (enc : E) :
      Move cfg good ls { ls with sch := { ls.sch with kv := kv, enc := enc } }
  | advance {ls r} : ls.qm.combined[ls.reqIndex]? = some r → Move cfg good ls ls.advance
  | preempt {t ls' q args l v kv} : good (.preempt t q l v) → Preempts q args t l v kv →
      (t.setKv kv).preemptVictim v = .ok ls' → Move cfg good t ls'
  | schedule {ls ls' r g newBlocks} : r ∈ ls.qm.combined → r ∈ ls.qm.runningReqIds →
      ls.scheduleRunning r g newBlocks = .ok ls' → Move cfg good ls ls'
  | ignore {ls ls' r} : good (.ignore ls r) → r ∈ ls.qm.combined → r ∉ ls.qm.runningReqIds →
      ls.ignore r = .ok (.goOn ls') → Move cfg good ls ls'
  | skip {ls ls'} : ls.skip = .ok (.goOn ls') → Move cfg good ls ls'
  | load {ls ls' r} {c : CachedPrefix} : r ∈ ls.qm.combined → r ∉ ls.qm.runningReqIds →
      (ls.modifyReq r fun q => { q with
        status := .waitingForRemoteKvs
        numComputedTokens := c.numComputedTokens }).skip = .ok (.goOn ls') → Move cfg good ls ls'
  | admitWaiting {ls ls' r c g} : good (.admitWaiting ls r) → r ∈ ls.qm.combined →
      r ∈ ls.qm.waitingReqIds →
      ls.admitWaiting cfg r c g = .ok ls' → Move cfg good ls ls'
  | tail {ls ls' r} : r ∈ ls.qm.combined → ls.tailPreemptOne r = .ok ls' → Move cfg good ls ls'

/-- Any number of moves. -/
abbrev Moves (cfg : Config) (good : Event K E → Prop) : LoopState K E → LoopState K E → Prop :=
  Relation.ReflTransGen (Move cfg good)

variable {cfg : Config} {env : StepEnv} {good : Event K E → Prop} {r q : ReqId}
  {args : AllocateSlotsArgs} {ls ls' t : LoopState K E}

/-- What every move keeps holds after any number of moves. -/
theorem Moves.invariant {I : LoopState K E → Prop} (h : Moves cfg good ls ls') (hs : I ls)
    (hmove : ∀ t t', I t → Move cfg good t t' → I t') : I ls' := by
  induction h with
  | refl => exact hs
  | tail _ hlast ih => exact hmove _ _ ih hlast

/-- The rounds of an allocation loop consist of preemptions. -/
theorem moves_visits (ht : Visits (allocRound q args) ls t)
    (hgood : ∀ t l v kv, Visits (allocRound q args) ls t → Preempts q args t l v kv →
      good (.preempt t q l v)) : Moves cfg good ls t :=
  alloc_invariant ht .refl fun u l v kv _ hu hI hpre _ hvictim =>
    hI.tail (.preempt (hgood u l v kv hu hpre) hpre hvictim)

/-- The allocation loop moves by preemptions. -/
theorem moves_allocLoop {res : Option KVCacheBlocks}
    (h : ls.allocLoop q args = .ok (res, ls'))
    (hgood : ∀ t l v kv, Visits (allocRound q args) ls t → Preempts q args t l v kv →
      good (.preempt t q l v)) : Moves cfg good ls ls' := by
  obtain ⟨t, ht, hexit⟩ := allocLoop_outcome h
  have hmoves : Moves cfg good ls t := moves_visits ht hgood
  cases hexit with
  | found => exact hmoves.tail (.caches _ t.sch.enc)
  | noneRunning => exact hmoves.tail (.caches _ t.sch.enc)
  | kept => exact hmoves.tail (.caches _ t.sch.enc)
  | itself hpre hvictim => exact hmoves.tail (.preempt (hgood t _ _ _ ht hpre) hpre hvictim)

/-- The branch of a running candidate consists of moves. -/
theorem moves_running {f : Flow (LoopState K E)} (h : RunningOutcome cfg env r ls f)
    (htreats : ls.Treats r) (hR : r ∈ ls.qm.runningReqIds)
    (hgood : ∀ e, RoundEvent cfg env ls e → good e) : Moves cfg good ls (Flow.toPass f).state := by
  cases h with
  | noTokens hgrant hzero =>
    exact (Relation.ReflTransGen.single (.caches ls.sch.kv _)).tail (.advance htreats.stands)
  | noBlocks hgrant hpos halloc =>
    refine (Relation.ReflTransGen.single (.caches ls.sch.kv _)).trans
      (moves_allocLoop halloc fun t l v kv ht hpre => ?_)
    exact hgood _ (.preemptForRunning htreats hR hgrant hpos ht hpre)
  | scheduled hgrant hpos halloc hsched =>
    have hmem : r ∈ ls.qm.combined := List.mem_of_getElem? htreats.stands
    refine ((Relation.ReflTransGen.single (.caches ls.sch.kv _)).trans
      (moves_allocLoop halloc fun t l v kv ht hpre => ?_)).tail
        (.schedule ((allocLoop_sameWaiting halloc).combined ▸ hmem) (allocLoop_running halloc hR) hsched)
    exact hgood _ (.preemptForRunning htreats hR hgrant hpos ht hpre)

/-- The branch of a waiting candidate consists of moves. -/
theorem moves_waiting {f : Flow (LoopState K E)} (h : WaitingOutcome cfg env r ls f)
    (htreats : ls.Treats r) (hR : r ∉ ls.qm.runningReqIds) (hW : r ∈ ls.qm.waitingReqIds)
    (hgood : ∀ e, RoundEvent cfg env ls e → good e) : Moves cfg good ls (Flow.toPass f).state := by
  have hmem : r ∈ ls.qm.combined := List.mem_of_getElem? htreats.stands
  have hmoves : ∀ {c enc g res ls₁}, ls.cachedPrefix cfg env r = .ok (some c) →
      ls.waitingGrant cfg env r c = .ok (.granted enc g) →
      (ls.setEnc enc).allocLoop r (waitingArgs cfg (ls.req r) c g) = .ok (res, ls₁) →
      Moves cfg good ls ls₁ := fun hc hg halloc =>
    (Relation.ReflTransGen.single (.caches ls.sch.kv _)).trans
      (moves_allocLoop halloc fun t l v kv ht hpre =>
        hgood _ (.preemptForWaiting htreats hR hW hc hg ht hpre))
  cases h with
  | ignoredPrompt hsize hignore =>
    obtain ⟨qm', -, rfl⟩ := ignore_eq_ok hignore
    exact .single (.ignore (hgood _ (.ignorePrompt htreats hR hW hsize)) hmem hR hignore)
  | skipped _ hskip =>
    obtain ⟨qm', -, rfl⟩ := skip_eq_ok hskip
    exact .single (.skip hskip)
  | ignoredEncoderInputs hc hg hignore =>
    obtain ⟨qm', -, rfl⟩ := ignore_eq_ok hignore
    exact .single (.ignore (hgood _ (.ignoreEncoderInputs htreats hR hW hc hg)) hmem hR
      hignore)
  | blocked => exact .single (.caches ls.sch.kv _)
  | noBlocks hc hg halloc =>
    dsimp only [Flow.toPass, Pass.state]
    split
    · exact (hmoves hc hg halloc).tail (.caches _ _)
    · exact hmoves hc hg halloc
  | loading hc hg halloc hload hskip =>
    obtain ⟨qm', -, rfl⟩ := skip_eq_ok hskip
    have hsame := allocLoop_sameWaiting halloc
    exact (hmoves hc hg halloc).tail
      (.load (hsame.combined ▸ hmem) (fun hr => hR (hsame.running hr)) hskip)
  | admitted hc hg halloc hload hadmitted =>
    have hsame := allocLoop_sameWaiting halloc
    exact (hmoves hc hg halloc).tail (.admitWaiting (hgood _ (.admitWaiting htreats hR hW hc hg halloc hload))
      (hsame.combined ▸ hmem) (hsame.waiting ▸ hW) hadmitted)

/-- A round consists of moves. -/
theorem moves_round {p : Pass (LoopState K E) (LoopState K E)} (h : RoundOutcome cfg env ls p)
    (hgood : ∀ e, RoundEvent cfg env ls e → good e) : Moves cfg good ls p.state := by
  cases h with
  | exhausted | spent | preempted | stuck => exact .refl
  | passed hr => exact .single (.advance hr)
  | running htreats hR houtcome => exact moves_running houtcome htreats hR hgood
  | waiting htreats hR hW houtcome => exact moves_waiting houtcome htreats hR hW hgood

/-- What a move does to the queue manager is one of its updates. -/
theorem Move.update (h : Move cfg good ls ls') : QueueManager.Update ls.qm ls'.qm := by
  cases h with
  | caches | advance => exact .same rfl
  | preempt _ _ hvictim =>
    obtain ⟨ls₁, qm', -, -, hqm, rfl⟩ := preemptVictim_eq_ok hvictim
    exact .of_preemption hqm
  | schedule _ _ hsched =>
    obtain ⟨enc, spec, -, rfl⟩ := scheduleRunning_eq_ok hsched
    exact .same rfl
  | ignore _ _ _ hignore =>
    obtain ⟨qm', hqm, hf⟩ := ignore_eq_ok hignore
    cases hf
    exact .of_ignored hqm
  | skip h =>
    obtain ⟨qm', hqm, hf⟩ := skip_eq_ok h
    cases hf
    exact .of_skipped hqm
  | load _ _ h =>
    obtain ⟨qm', hqm, hf⟩ := skip_eq_ok h
    cases hf
    exact .of_skipped hqm
  | admitWaiting _ _ _ hadmitted =>
    obtain ⟨newReqs, resumedReqs, qm', enc, -, hqm, -, rfl⟩ := admitWaiting_eq_ok hadmitted
    exact .of_scheduling hqm
  | tail _ htail =>
    rcases tailPreemptOne_cases htail with ⟨-, rfl⟩ | ⟨-, qm', hqm, rfl⟩
    exacts [.same rfl, .of_preemption hqm]

/-- A request enters the running ids only through an admission. -/
theorem Move.running (h : Move cfg good ls ls') :
    ls'.qm.runningReqIds ⊆ ls.qm.runningReqIds ∨
      ∃ r x, good (.admitWaiting ls r) ∧ ls'.qm.runningReqIds = insert x ls.qm.runningReqIds := by
  have hpre : ∀ {qm qm'}, QueueManager.updateIdxsAfterPreemption qm = .ok qm' →
      qm'.runningReqIds ⊆ qm.runningReqIds := by
    intro qm qm' hqm
    rcases QueueManager.updateIdxsAfterPreemption_cases hqm with ⟨-, rfl⟩ | ⟨l, v, u⟩
    exacts [subset_rfl, u.running ▸ Finset.erase_subset _ _]
  have hskip : ∀ {qm qm'}, QueueManager.updateIdxsAfterSkipped qm = .ok qm' →
      qm'.runningReqIds ⊆ qm.runningReqIds := by
    intro qm qm' hqm
    rcases QueueManager.updateIdxsAfterSkipped_cases hqm with ⟨-, rfl⟩ | ⟨f, r, u⟩
    exacts [subset_rfl, u.running.subset]
  cases h with
  | caches | advance => exact .inl subset_rfl
  | preempt _ _ hvictim =>
    obtain ⟨ls₁, qm', -, -, hqm, rfl⟩ := preemptVictim_eq_ok hvictim
    exact .inl (hpre hqm)
  | schedule _ _ hsched =>
    obtain ⟨enc, spec, -, rfl⟩ := scheduleRunning_eq_ok hsched
    exact .inl subset_rfl
  | ignore _ _ _ hignore =>
    obtain ⟨qm', hqm, hf⟩ := ignore_eq_ok hignore
    cases hf
    rcases QueueManager.updateIdxsAfterIgnored_cases hqm with ⟨-, hq⟩ | ⟨f, r, u⟩
    exacts [.inl (congrArg QueueManager.runningReqIds hq).subset, .inl u.running.subset]
  | skip h =>
    obtain ⟨qm', hqm, hf⟩ := skip_eq_ok h
    cases hf
    exact .inl (hskip hqm)
  | load _ _ h =>
    obtain ⟨qm', hqm, hf⟩ := skip_eq_ok h
    cases hf
    exact .inl (hskip hqm)
  | @admitWaiting _ r _ _ hgood _ _ hadmitted =>
    obtain ⟨newReqs, resumedReqs, qm', enc, -, hqm, -, rfl⟩ := admitWaiting_eq_ok hadmitted
    rcases QueueManager.updateIdxsAfterNewScheduling_cases hqm with ⟨-, hq⟩ | ⟨f, x, u⟩
    exacts [.inl (congrArg QueueManager.runningReqIds hq).subset, .inr ⟨r, x, hgood, u.running⟩]
  | tail _ htail =>
    rcases tailPreemptOne_cases htail with ⟨-, rfl⟩ | ⟨-, qm', hqm, rfl⟩
    exacts [.inl subset_rfl, .inl (hpre hqm)]

/-- A request is given tokens as a running one or through an admission. -/
theorem Move.scheduled (h : Move cfg good ls ls') :
    (∀ r ∈ ls'.numScheduledTokens.keys, r ∈ ls.numScheduledTokens.keys ∨ r ∈ ls.qm.runningReqIds) ∨
      ∃ r, good (.admitWaiting ls r) := by
  cases h with
  | caches | advance => exact .inl fun _ hr => .inl hr
  | preempt _ _ hvictim =>
    obtain ⟨ls₁, qm', hroll, -, -, rfl⟩ := preemptVictim_eq_ok hvictim
    refine .inl fun r hr => .inl ?_
    rcases rollback_cases hroll with ⟨-, rfl⟩ | ⟨-, _, _, -, -, rfl⟩
    · exact hr
    · exact ((Dict.mem_keys_erase _ _ _).mp hr).1
  | schedule _ hR hsched =>
    obtain ⟨enc, spec, -, rfl⟩ := scheduleRunning_eq_ok hsched
    refine .inl fun r hr => ?_
    rcases (Dict.mem_keys_set _ _ _ _).mp hr with rfl | hr
    exacts [.inr hR, .inl hr]
  | ignore _ _ _ hignore =>
    obtain ⟨qm', -, hf⟩ := ignore_eq_ok hignore
    cases hf
    exact .inl fun _ hr => .inl hr
  | skip h =>
    obtain ⟨qm', -, hf⟩ := skip_eq_ok h
    cases hf
    exact .inl fun _ hr => .inl hr
  | load _ _ h =>
    obtain ⟨qm', -, hf⟩ := skip_eq_ok h
    cases hf
    exact .inl fun _ hr => .inl hr
  | @admitWaiting _ r _ _ hgood => exact .inr ⟨r, hgood⟩
  | tail _ htail =>
    rcases tailPreemptOne_cases htail with ⟨-, rfl⟩ | ⟨-, qm', -, rfl⟩
    all_goals exact .inl fun _ hr => .inl hr

/-- Only requests of the merged list are given tokens. -/
theorem Move.scheduled_mem (h : Move cfg good ls ls') :
    ∀ r ∈ ls'.numScheduledTokens.keys, r ∈ ls.numScheduledTokens.keys ∨ r ∈ ls.qm.combined := by
  intro x hx
  cases h with
  | admitWaiting _ hr _ hadmitted =>
    obtain ⟨newReqs, resumedReqs, qm', enc, -, -, -, rfl⟩ := admitWaiting_eq_ok hadmitted
    rcases (Dict.mem_keys_set _ _ _ _).mp hx with rfl | hx
    exacts [.inr hr, .inl hx]
  | schedule hr _ hsched =>
    obtain ⟨enc, spec, -, rfl⟩ := scheduleRunning_eq_ok hsched
    rcases (Dict.mem_keys_set _ _ _ _).mp hx with rfl | hx
    exacts [.inr hr, .inl hx]
  | caches | advance => exact .inl hx
  | preempt _ _ hvictim =>
    obtain ⟨ls₁, qm', hroll, -, -, rfl⟩ := preemptVictim_eq_ok hvictim
    rcases rollback_cases hroll with ⟨-, rfl⟩ | ⟨-, _, _, -, -, rfl⟩
    · exact .inl hx
    · exact .inl ((Dict.mem_keys_erase _ _ _).mp hx).1
  | ignore _ _ _ hignore =>
    obtain ⟨qm', -, hf⟩ := ignore_eq_ok hignore
    cases hf
    exact .inl hx
  | skip h =>
    obtain ⟨qm', -, hf⟩ := skip_eq_ok h
    cases hf
    exact .inl hx
  | load _ _ h =>
    obtain ⟨qm', -, hf⟩ := skip_eq_ok h
    cases hf
    exact .inl hx
  | tail _ htail =>
    rcases tailPreemptOne_cases htail with ⟨-, rfl⟩ | ⟨-, qm', -, rfl⟩
    exacts [.inl hx, .inl hx]

/-- Moves keep the parts of the queues. -/
theorem Moves.parts (h : Moves cfg good ls ls') (hp : ls.qm.Parts) : ls'.qm.Parts :=
  h.invariant hp fun _ _ hp hmove => hmove.update.parts hp

/-- The main loop consists of moves. -/
theorem moves_visits_round (hp : ls.qm.Parts) (ht : Visits (round cfg env) ls t)
    (hgood : ∀ t, Visits (round cfg env) ls t → ∀ e, RoundEvent cfg env t e → good e) :
    Moves cfg good ls t := by
  refine ht.invariant .refl fun u u' hu hI hround => ?_
  have houtcome := round_outcome (hI.parts hp).running_waiting hround
  exact hI.trans (moves_round houtcome (hgood u hu))

/-- The main loop moves by the events of its rounds. -/
theorem moves_mainLoop (hp : ls.qm.Parts) (h : ls.mainLoop cfg env = .ok ls')
    (hgood : ∀ t, Visits (round cfg env) ls t → ∀ e, RoundEvent cfg env t e → good e) :
    Moves cfg good ls ls' := by
  obtain ⟨t, ht, hexit⟩ := loop_exit h
  have hmoves := moves_visits_round hp ht hgood
  exact hmoves.trans
    (moves_round (round_outcome (hmoves.parts hp).running_waiting hexit) (hgood t ht))

/-- The tail preemption consists of moves. -/
theorem moves_tailPreempt (h : ls.tailPreempt = .ok ls') : Moves cfg good ls ls' := by
  unfold tailPreempt at h
  split at h
  · refine (foldlM_invariant (I := fun t => Moves cfg good ls t ∧ t.qm.combined = ls.qm.combined) h
      ⟨.refl, rfl⟩ fun r hr t t' hI htail => ?_).1
    have hmove : Move cfg good t t' := .tail (hI.2 ▸ List.mem_of_mem_drop hr) htail
    exact ⟨hI.1.tail hmove, hmove.update.sameList.combined.trans hI.2⟩
  · cases h
    exact .refl

end LoopState

end RpsServe
