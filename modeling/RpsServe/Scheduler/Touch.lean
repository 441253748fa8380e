import RpsServe.Scheduler.Frame

/-!
# What a round touches

A round changes the request it treats and requests that run, and nothing about the others:
neither their objects, nor their blocks, nor whether they are given tokens.
-/

namespace RpsServe

namespace LoopState

variable {K E : Type} [KVCacheManager K]

/-- Between the two states only the request `q` and requests that run are touched. -/
structure Touches (q : ReqId) (ls ls' : LoopState K E) : Prop where
  sch : ∃ objs qm kv enc, ls'.sch = { ls.sch with
    objs := objs
    queueManager := qm
    kv := kv
    enc := enc }
  keys : ls'.sch.objs.keys = ls.sch.objs.keys
  combined : ls'.qm.combined = ls.qm.combined
  inputs : ∀ x, (ls.req x).SameInputs (ls'.req x)
  others : ∀ x, x ≠ q → (ls.req x).status ≠ .running → ls'.req x = ls.req x
  tokens : ∀ x, x ≠ q → x ∈ ls'.numScheduledTokens.keys → x ∈ ls.numScheduledTokens.keys
  blocks : (ls.req q).requestId = q → ∀ x, x ≠ q → (ls.req x).status ≠ .running →
    KVCacheManager.getBlocks ls'.sch.kv x = KVCacheManager.getBlocks ls.sch.kv x

namespace Touches

variable {ls ls' ls₁ t t' : LoopState K E} {q r v x : ReqId}

/-- What touches one request twice touches it alone. -/
theorem trans (h : Touches q ls ls₁) (h' : Touches q ls₁ ls') : Touches q ls ls' where
  sch := by
    obtain ⟨_, _, _, _, h₁⟩ := h.sch
    obtain ⟨_, _, _, _, h₂⟩ := h'.sch
    exact ⟨_, _, _, _, by rw [h₂, h₁]⟩
  keys := h'.keys.trans h.keys
  combined := h'.combined.trans h.combined
  inputs x := (h.inputs x).trans (h'.inputs x)
  others x hx hrun := by
    have hsame := h.others x hx hrun
    exact (h'.others x hx (by rwa [hsame])).trans hsame
  tokens x hx hmem := h.tokens x hx (h'.tokens x hx hmem)
  blocks hq x hx hrun := by
    have hid : (ls₁.req q).requestId = q := by
      obtain ⟨_, _, _, _, hsame⟩ := h.inputs q
      rw [hsame]
      exact hq
    have hsame := h.others x hx hrun
    exact (h'.blocks hid x hx (by rwa [hsame])).trans (h.blocks hq x hx hrun)

/-- Changing neither the objects nor the caches, nor the requests with tokens. -/
theorem of_same (hsch : ∃ objs qm kv enc, ls'.sch = { ls.sch with
      objs := objs
      queueManager := qm
      kv := kv
      enc := enc }) (hobjs : ls'.sch.objs = ls.sch.objs)
    (hcombined : ls'.qm.combined = ls.qm.combined) (hkv : ls'.sch.kv = ls.sch.kv)
    (htokens : ls'.numScheduledTokens = ls.numScheduledTokens) : Touches q ls ls' := by
  have hreq : ∀ x, ls'.req x = ls.req x := fun x => congrArg (Objs.req · x) hobjs
  exact {
    sch := hsch
    keys := by rw [hobjs]
    combined := hcombined
    inputs := fun x => hreq x ▸ .refl _
    others := fun x _ _ => hreq x
    tokens := fun _ _ hx => htokens ▸ hx
    blocks := fun _ x _ _ => by rw [hkv] }

/-- Doing nothing touches one request at most. -/
theorem refl (q : ReqId) (ls : LoopState K E) : Touches q ls ls := of_same ⟨_, _, _, _, rfl⟩ rfl rfl rfl rfl

/-- Assigning to the request itself, or to one that runs, and freeing its blocks at most. -/
theorem of_modify {f : Request → Request} (hsch : ∃ objs qm kv enc, ls'.sch = { ls.sch with
      objs := objs
      queueManager := qm
      kv := kv
      enc := enc }) (hobjs : ls'.sch.objs = ls.sch.objs.modify r f)
    (hcombined : ls'.qm.combined = ls.qm.combined)
    (hf : (ls.req r).SameInputs (f (ls.req r))) (hr : r = q ∨ (ls.req r).status = .running)
    (htokens : ∀ x, x ≠ q → x ∈ ls'.numScheduledTokens.keys → x ∈ ls.numScheduledTokens.keys)
    (hkv : ∀ x, x ≠ q → (ls.req x).status ≠ .running →
      KVCacheManager.getBlocks ls'.sch.kv x = KVCacheManager.getBlocks ls.sch.kv x) :
    Touches q ls ls' := by
  have hreq : ∀ x, ls'.req x = Objs.req (ls.sch.objs.modify r f) x := fun x =>
    congrArg (Objs.req · x) hobjs
  exact {
    sch := hsch
    keys := by
      rw [hobjs]
      exact Dict.keys_modify _ _ _
    combined := hcombined
    inputs := fun x => by
      rw [hreq]
      rcases Objs.req_modify_cases ls.sch.objs r f x with hsame | ⟨rfl, hsame⟩
      · rw [hsame]
        exact .refl _
      · rw [hsame]
        exact hf
    others := fun x hx hrun => by
      rw [hreq]
      refine Objs.req_modify_ne fun hxr => ?_
      subst hxr
      exact hr.elim hx hrun
    tokens := htokens
    blocks := fun _ => hkv }

end Touches

variable [SeparateKVCacheManager K] [EncoderCache E] {cfg : Config} {env : StepEnv}
  {args : AllocateSlotsArgs} {l : ℕ} {kv : K} {ls ls' ls₁ t t' : LoopState K E} {q v : ReqId}

omit [KVCacheManager K] [SeparateKVCacheManager K] [EncoderCache E] in
/-- Passing over the first waiting request keeps the merged list. -/
theorem dropped_combined {qm qm' : QueueManager}
    (h : qm.updateIdxsAfterIgnored = .ok qm' ∨ qm.updateIdxsAfterSkipped = .ok qm') :
    qm'.combined = qm.combined := by
  rcases h with h | h
  · rcases QueueManager.updateIdxsAfterIgnored_cases h with ⟨-, rfl⟩ | ⟨_, _, u⟩
    exacts [rfl, u.combined]
  · rcases QueueManager.updateIdxsAfterSkipped_cases h with ⟨-, rfl⟩ | ⟨_, _, u⟩
    exacts [rfl, u.combined]

omit [EncoderCache E] in
/-- Asking for blocks touches the request they are for. -/
theorem touches_allocateSlots {blocks : Option KVCacheBlocks}
    (h : KVCacheManager.allocateSlots ls.sch.kv (ls.req q) args = .ok (blocks, kv)) :
    Touches q ls (ls.setKv kv) where
  sch := ⟨_, _, _, _, rfl⟩
  keys := rfl
  combined := rfl
  inputs _ := .refl _
  others _ _ _ := rfl
  tokens _ _ hx := hx
  blocks hq _ hx _ := SeparateKVCacheManager.getBlocks_allocateSlots h (by rwa [hq])

/-- A preemption touches a request that runs. -/
theorem touches_preempt (hpre : Preempts q args t l v kv)
    (h : (t.setKv kv).preemptVictim v = .ok t') : Touches q t t' := by
  refine (touches_allocateSlots hpre.noBlocks).trans ?_
  obtain ⟨ls₁, qm', hroll, hrun, hqm, rfl⟩ := preemptVictim_eq_ok h
  have hcombined : qm'.combined = t.qm.combined := by
    rcases QueueManager.updateIdxsAfterPreemption_cases hqm with ⟨-, rfl⟩ | ⟨_, _, u⟩
    exacts [rfl, u.combined]
  refine .of_modify ⟨_, _, _, _, rfl⟩ rfl hcombined ⟨_, _, _, _, rfl⟩ (.inr hrun) (fun x _ hx => ?_) fun x _ hx => ?_
  · rcases rollback_cases hroll with ⟨-, rfl⟩ | ⟨-, _, _, -, -, rfl⟩
    · exact hx
    · exact ((Dict.mem_keys_erase _ _ _).mp hx).1
  · refine SeparateKVCacheManager.getBlocks_free _ fun hxv => ?_
    subst hxv
    exact hx hrun

/-- The tail preemption touches requests that run. -/
theorem touches_tailPreemptOne {r : ReqId} (q : ReqId) (h : t.tailPreemptOne r = .ok t') :
    Touches q t t' := by
  rcases tailPreemptOne_cases h with ⟨-, rfl⟩ | ⟨hrun, qm', hqm, rfl⟩
  · exact .refl q t'
  · have hcombined : qm'.combined = t.qm.combined := by
      rcases QueueManager.updateIdxsAfterPreemption_cases hqm with ⟨-, rfl⟩ | ⟨_, _, u⟩
      exacts [rfl, u.combined]
    refine .of_modify ⟨_, _, _, _, rfl⟩ rfl hcombined ⟨_, _, _, _, rfl⟩ (.inr hrun)
      (fun _ _ hx => hx) fun x _ hx => ?_
    refine SeparateKVCacheManager.getBlocks_free _ fun hxr => ?_
    subst hxr
    exact hx hrun

/-- Beside its victims the allocation loop touches nothing. -/
theorem touches_allocLoop {res : Option KVCacheBlocks} (h : ls.allocLoop q args = .ok (res, ls')) :
    Touches q ls ls' := by
  obtain ⟨t, ht, hexit⟩ := allocLoop_outcome h
  have hbefore : Touches q ls t := alloc_invariant ht (.refl q ls)
    fun u l v kv u' _ hI hpre _ hvictim => hI.trans (touches_preempt hpre hvictim)
  cases hexit with
  | found halloc => exact hbefore.trans (touches_allocateSlots halloc)
  | noneRunning halloc => exact hbefore.trans (touches_allocateSlots halloc)
  | kept halloc => exact hbefore.trans (touches_allocateSlots halloc)
  | itself hpre hvictim => exact hbefore.trans (touches_preempt hpre hvictim)

/-- A running candidate touches itself and its victims. -/
theorem touches_runningCandidate {f : Flow (LoopState K E)}
    (h : ls.runningCandidate cfg env q = .ok f) : Touches q ls f.toPass.state := by
  have henc : ∀ enc, Touches q ls (ls.setEnc enc) := fun _ => .of_same ⟨_, _, _, _, rfl⟩ rfl rfl rfl rfl
  cases runningCandidate_outcome h with
  | noTokens => exact .of_same ⟨_, _, _, _, rfl⟩ rfl rfl rfl rfl
  | noBlocks _ _ halloc => exact (henc _).trans (touches_allocLoop halloc)
  | scheduled _ _ halloc hsched =>
    refine ((henc _).trans (touches_allocLoop halloc)).trans ?_
    obtain ⟨enc, spec, -, rfl⟩ := scheduleRunning_eq_ok hsched
    refine .of_modify ⟨_, _, _, _, rfl⟩ rfl rfl ⟨_, _, _, _, rfl⟩ (.inl rfl) (fun x hx hmem => ?_) fun _ _ _ => rfl
    exact ((Dict.mem_keys_set _ _ _ _).mp hmem).resolve_left hx

omit [SeparateKVCacheManager K] [EncoderCache E] in
/-- Ignoring a request touches it alone. -/
theorem touches_ignore {f : Flow (LoopState K E)} (h : ls.ignore q = .ok f) :
    Touches q ls f.toPass.state := by
  obtain ⟨qm', hqm, rfl⟩ := ignore_eq_ok h
  exact .of_modify ⟨_, _, _, _, rfl⟩ rfl (dropped_combined (.inl hqm)) ⟨_, _, _, _, rfl⟩ (.inl rfl) (fun _ _ h => h) fun _ _ _ => rfl

/-- A waiting candidate touches itself and its victims. -/
theorem touches_waitingCandidate {f : Flow (LoopState K E)}
    (h : ls.waitingCandidate cfg env q = .ok f) : Touches q ls f.toPass.state := by
  have henc : ∀ enc, Touches q ls (ls.setEnc enc) := fun _ => .of_same ⟨_, _, _, _, rfl⟩ rfl rfl rfl rfl
  cases waitingCandidate_outcome h with
  | ignoredPrompt _ hignore => exact touches_ignore hignore
  | skipped _ hskip =>
    obtain ⟨qm', hqm, rfl⟩ := skip_eq_ok hskip
    exact .of_same ⟨_, _, _, _, rfl⟩ rfl (dropped_combined (.inr hqm)) rfl rfl
  | ignoredEncoderInputs _ _ hignore => exact touches_ignore hignore
  | blocked => exact .of_same ⟨_, _, _, _, rfl⟩ rfl rfl rfl rfl
  | noBlocks _ _ halloc =>
    refine ((henc _).trans (touches_allocLoop halloc)).trans ?_
    dsimp only [Flow.toPass, Pass.state]
    split
    exacts [.of_same ⟨_, _, _, _, rfl⟩ rfl rfl rfl rfl, .refl _ _]
  | loading _ _ halloc _ hskip =>
    refine ((henc _).trans (touches_allocLoop halloc)).trans ?_
    obtain ⟨qm', hqm, rfl⟩ := skip_eq_ok hskip
    exact .of_modify ⟨_, _, _, _, rfl⟩ rfl (dropped_combined (.inr hqm)) ⟨_, _, _, _, rfl⟩ (.inl rfl) (fun _ _ h => h) fun _ _ _ => rfl
  | @admitted _ _ _ _ ls₂ _ _ _ halloc _ hadmitted =>
    refine ((henc _).trans (touches_allocLoop halloc)).trans ?_
    obtain ⟨newReqs, resumedReqs, qm', enc, -, hqm, -, rfl⟩ := admitWaiting_eq_ok hadmitted
    have hcombined : qm'.combined = ls₂.qm.combined := by
      rcases QueueManager.updateIdxsAfterNewScheduling_cases hqm with ⟨-, rfl⟩ | ⟨_, _, u⟩
      exacts [rfl, u.combined]
    refine .of_modify ⟨_, _, _, _, rfl⟩ rfl hcombined ⟨_, _, _, _, rfl⟩ (.inl rfl) (fun x hx hmem => ?_) fun _ _ _ => rfl
    exact ((Dict.mem_keys_set _ _ _ _).mp hmem).resolve_left hx

/-- A round touches the request it treats. -/
theorem touches_candidate {f : Flow (LoopState K E)} (h : ls.candidate cfg env q = .ok f) :
    Touches q ls f.toPass.state := by
  have hreached : ∀ {ls₁}, ls.ReachesWaiting cfg env q ls₁ → Touches q ls ls₁ := by
    intro ls₁ hreach
    unfold ReachesWaiting at hreach
    split at hreach
    · exact touches_runningCandidate hreach
    · cases hreach
      exact .refl q ls
  rcases candidate_cases h with ⟨-, hrunning⟩ | ⟨ls₁, hreach, ⟨-, hwaiting⟩ | ⟨-, rfl⟩⟩
  · exact touches_runningCandidate hrunning
  · exact (hreached hreach).trans (touches_waitingCandidate hwaiting)
  · exact hreached hreach

/-- A round touches nothing, or the request it treats. -/
theorem round_touches {p : Pass (LoopState K E) (LoopState K E)} (h : ls.round cfg env = .ok p) :
    (∀ q, Touches q ls p.state) ∨ ∃ q, ls.Treats q ∧ Touches q ls p.state := by
  rcases round_cases h with rfl | rfl | ⟨q, f, htreats, hf, rfl⟩
  · exact .inl fun q => .refl q ls
  · exact .inl fun q => .of_same ⟨_, _, _, _, rfl⟩ rfl rfl rfl rfl
  · exact .inr ⟨q, htreats, touches_candidate hf⟩

end LoopState

namespace Scheduler

open LoopState

variable {K E : Type} [KVCacheManager K] [SeparateKVCacheManager K] [EncoderCache E]
  {cfg : Config} {env : StepEnv} {s s' : Scheduler K E} {out : SchedulerOutput}
  {ls : LoopState K E} {x : ReqId}

/-- What holds at the beginning of a step, and is kept by touching the request that a round treats
and by touching none but running ones, holds at its end. -/
theorem Walked.touched {I : LoopState K E → Prop} (h : Walked cfg env s ls)
    (hstart : ∀ t, beginStep cfg env s = .ok t → I t)
    (htreated : ∀ q t t', Rounds cfg env s t → t.Treats q → I t → Touches q t t' → I t')
    (hrunning : ∀ t t', I t → (∀ q, Touches q t t') → I t') : I ls := by
  refine h.rule hstart (fun t p ht hI hround => ?_) fun u r u' hI hone =>
    hrunning u u' hI fun q => touches_tailPreemptOne q hone
  rcases round_touches hround with hall | ⟨q, htreats, htouch⟩
  · exact hrunning t _ hI hall
  · exact htreated q t _ ht htreats hI htouch

end Scheduler

end RpsServe
