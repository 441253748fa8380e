import RpsServe.Scheduler.Conservation
import RpsServe.Scheduler.Spending

/-!
# Pausing

`PAUSED_ALL` forces the token budget of a step to zero. The walk then ends before its first
candidate, and the tail preemption, which a spent budget triggers, preempts whatever runs:
such a step freezes the scheduler only if nothing runs. `PAUSED_NEW` is read nowhere in a
step, so that it keeps new requests out only where other things do: prompts that can never
fit, or running requests that take all tokens ahead of what waits.
-/

namespace RpsServe

namespace LoopState

variable {K E : Type} [KVCacheManager K] [EncoderCache E] {cfg : Config} {env : StepEnv}
  {ls ls' : LoopState K E}

/-- Without a token the walk ends where it stands. -/
theorem mainLoop_of_spent (h : ls.tokenBudget ≤ 0) : ls.mainLoop cfg env = .ok ls := by
  have hround : ls.round cfg env = .ok (.done ls) := by
    unfold round
    split
    · rfl
    · rw [if_pos h]
  rw [mainLoop, loop, hround]

/-- The tail preemption passes over requests that do not run. -/
theorem tailPreempt_of_idle (h : ∀ r ∈ ls.qm.combined, (ls.req r).status ≠ .running) :
    ls.tailPreempt = .ok ls := by
  have hfold : ∀ rs : List ReqId, (∀ r ∈ rs, (ls.req r).status ≠ .running) →
      rs.foldlM tailPreemptOne ls = .ok ls := by
    intro rs
    induction rs with
    | nil => exact fun _ => rfl
    | cons r rest ih =>
      intro hrs
      refine foldlM_cons_eq_ok.mpr ⟨ls, ?_, ih fun x hx => hrs x (List.mem_cons_of_mem r hx)⟩
      rw [tailPreemptOne, if_pos (hrs r List.mem_cons_self)]
  unfold tailPreempt
  split
  · exact hfold _ fun r hr => h r (List.mem_of_mem_drop hr)
  · rfl

/-- An allocation loop gives tokens to nobody. -/
theorem allocLoop_tokens {q : ReqId} {args : AllocateSlotsArgs} {res : Option KVCacheBlocks}
    (h : ls.allocLoop q args = .ok (res, ls')) :
    ∀ x ∈ ls'.numScheduledTokens.keys, x ∈ ls.numScheduledTokens.keys := by
  have hvictim : ∀ {t t' : LoopState K E} {v : ReqId} {kv : K}, (t.setKv kv).preemptVictim v = .ok t' →
      ∀ x ∈ t'.numScheduledTokens.keys, x ∈ t.numScheduledTokens.keys := by
    intro t t' v kv hvictim x hx
    obtain ⟨ls₁, qm', hroll, -, -, rfl⟩ := preemptVictim_eq_ok hvictim
    rcases rollback_cases hroll with ⟨-, rfl⟩ | ⟨-, _, _, -, -, rfl⟩
    · exact hx
    · exact ((Dict.mem_keys_erase _ _ _).mp hx).1
  obtain ⟨t, ht, hexit⟩ := allocLoop_outcome h
  have hbefore : ∀ x ∈ t.numScheduledTokens.keys, x ∈ ls.numScheduledTokens.keys :=
    alloc_invariant (I := fun t => ∀ x ∈ t.numScheduledTokens.keys, x ∈ ls.numScheduledTokens.keys)
      ht (fun _ hx => hx)
      fun _ _ _ _ _ _ hI _ _ hv x hx => hI x (hvictim hv x hx)
  cases hexit with
  | found | noneRunning | kept => exact hbefore
  | itself _ hv => exact fun x hx => hbefore x (hvictim hv x hx)

end LoopState

namespace Scheduler

variable {K E : Type} [KVCacheManager K] [EncoderCache E] {cfg : Config} {env : StepEnv}
  {s s' : Scheduler K E} {ls : LoopState K E}

/-- Nothing runs: the queues can be rebuilt, and nothing runs afterwards. -/
theorem updateQueues_of_idle {qm : QueueManager} (req : ReqId → Request)
    (hrunning : qm.runningReqIds = ∅) (hlast : qm.lastRunningIdx = none) :
    ∃ waiting, qm.updateQueues req = .ok ([], waiting) := by
  unfold QueueManager.updateQueues
  split
  · exact ⟨_, by simp [hrunning]; rfl⟩
  · rw [hlast]
    split
    · rename_i hnone _
      cases hnone
    · rename_i hnone _
      cases hnone
    · exact ⟨_, rfl⟩
    · exact ⟨_, rfl⟩

/-- A walk that has scheduled nothing, over requests of which none runs, finishes its step. -/
theorem finishStep_of_idle (cfg : Config) {waiting : RequestQueue}
    (hqueues : ls.qm.updateQueues ls.req = .ok ([], waiting)) (hbudget : ls.tokenBudget = 0)
    (hnew : ls.scheduledNewReqs = []) (hresumed : ls.scheduledResumedReqs = [])
    (hrunning : ls.scheduledRunningReqs = []) (hnum : ls.numScheduledTokens = .empty) :
    ∃ out s', finishStep cfg ls = .ok (out, s') := by
  have hcheck : ls.checkConstraints cfg [] = .ok () := by
    unfold LoopState.checkConstraints
    rw [hnum, hbudget, hnew, hresumed, hrunning]
    simp [Dict.values, Dict.empty]
  have hreqs : ∀ b : Bool, (if b then ls.scheduledNewReqs ++ ls.scheduledResumedReqs
      else ls.scheduledNewReqs) = [] := by
    rw [hnew, hresumed]
    exact fun b => by cases b <;> rfl
  have hcached : ls.makeCachedRequestData [] = .ok {
      reqIds := []
      resumedReqIds := ∅
      newBlockIds := []
      numComputedTokens := []
      numOutputTokens := [] } := by
    unfold LoopState.makeCachedRequestData
    rw [hrunning]
    rfl
  obtain ⟨out, s₁, hout, hempty⟩ : ∃ out s₁, makeOutput cfg ls = .ok (out, s₁) ∧
      out.numScheduledTokens = .empty := by
    unfold makeOutput
    rw [hreqs, hresumed, ite_self]
    dsimp only
    rw [hcached]
    exact ⟨_, _, rfl, hnum⟩
  refine ⟨out, { { s₁ with running := [], waiting := waiting } with finishedReqIds := ∅ },
    bind_eq_ok.mpr ⟨_, hqueues, bind_eq_ok.mpr ⟨_, hcheck, bind_eq_ok.mpr ⟨_, hout,
      bind_eq_ok.mpr ⟨_, ?_, rfl⟩⟩⟩⟩⟩
  unfold updateAfterSchedule
  rw [hempty]
  rfl

/-- What every step does to the KV cache manager, whether or not it schedules anything: a new step is
announced, and where blocks are zeroed the list of the new ones is taken. -/
def stepKv (cfg : Config) (kv : K) : K :=
  if cfg.needsKvCacheZeroing then
    (KVCacheManager.takeNewBlockIds (KVCacheManager.newStepStarts kv)).2
  else KVCacheManager.newStepStarts kv

/-- What every step does to the encoder cache: the list of the evicted items is taken. -/
def stepEnc (enc : E) : E := (EncoderCache.getFreedMmHashes enc).2

/-- What `n` steps of a paused scheduler are to leave as it was. The caches are compared as wholes, up
to the lists that every step takes out of them. -/
structure Frozen (cfg : Config) (n : ℕ) (s s' : Scheduler K E) : Prop where
  running : s'.running.Perm s.running
  waiting : s'.waiting.items.Perm s.waiting.items
  skippedWaiting : s'.skippedWaiting = s.skippedWaiting
  status : ∀ r, (s'.req r).status = (s.req r).status
  numComputedTokens : ∀ r, (s'.req r).numComputedTokens = (s.req r).numComputedTokens
  kv : s'.kv = (stepKv cfg)^[n] s.kv
  enc : s'.enc = stepEnc^[n] s.enc
  blocks : ∀ r, KVCacheManager.getBlocks s'.kv r = KVCacheManager.getBlocks s.kv r
  encoderInputs : ∀ q, EncoderCache.getCachedInputIds s'.enc q =
    EncoderCache.getCachedInputIds s.enc q

/-- Nothing runs, by its queue or by its status. -/
structure Idle (s : Scheduler K E) : Prop where
  running : s.running = []
  waiting : ∀ r ∈ s.waiting.items, (s.req r).status ≠ .running

/-- A paused step over requests of which none runs returns, schedules nothing and freezes. -/
theorem schedule_of_idle [LawfulKVCacheManager K] [LawfulEncoderCache E]
    (hpause : s.pauseState = .pausedAll) (hidle : Idle s)
    (hranked : ∀ r ∈ s.requests, Ranked cfg.policy env (s.req r)) :
    ∃ out s', schedule cfg env s = .ok (out, s') ∧ out.numScheduledTokens.keys = [] ∧
      Frozen cfg 1 s s' ∧ s'.pauseState = .pausedAll ∧ s'.requests.Perm s.requests ∧
      SamePriorities s.objs s'.objs := by
  obtain ⟨objs, requests, hprio⟩ := updatePriorities_total hranked
  obtain ⟨hsame, hperm⟩ := updatePriorities_spec hprio
  obtain ⟨ls, hbegin⟩ : ∃ ls, beginStep cfg env s = .ok ls :=
    ⟨_, bind_eq_ok.mpr ⟨(objs, requests), hprio, rfl⟩⟩
  obtain ⟨objs', requests', hsame', hperm', hprio', hls⟩ := beginStep_eq_ok hbegin
  cases hprio.symm.trans hprio'
  have hcombined := beginStep_combined hbegin
  have hset := beginStep_indexSet hbegin
  have hbudget : ls.tokenBudget = 0 := by rw [hls, hpause]; rfl
  have hreq : ∀ r, ∃ p, ls.req r = { s.req r with priority := p } := fun r => hls ▸ hsame.req r
  have hstatus : ∀ r ∈ ls.qm.combined, (ls.req r).status ≠ .running := by
    intro r hr
    obtain ⟨p, hp⟩ := hreq r
    have hmem := hcombined.mem_iff.mp hr
    rw [hidle.running, List.nil_append] at hmem
    rw [hp]
    exact hidle.waiting r hmem
  have hrunning : ls.qm.runningReqIds = ∅ := by
    refine Finset.eq_empty_of_forall_notMem fun r hr => ?_
    rw [hls] at hr
    have hmem := (QueueManager.mem_combineQueues_running.mp hr).1
    rw [hidle.running] at hmem
    cases hmem
  have hlast : ls.qm.lastRunningIdx = none := by
    rw [Option.eq_none_iff_forall_not_mem]
    intro l hl
    have hhit : GreatestHit ls.qm.runningAt ls.qm.lastRunningIdx := by
      rw [hls]
      exact QueueManager.combineQueues_last
    rw [Option.mem_def.mp hl] at hhit
    obtain ⟨r, -, hr⟩ := QueueManager.standsIn_iff.mp hhit.1
    simp [hrunning] at hr
  obtain ⟨waiting, hqueues⟩ := updateQueues_of_idle ls.req hrunning hlast
  obtain ⟨out, s', hfinish⟩ := finishStep_of_idle cfg hqueues hbudget (by rw [hls])
    (by rw [hls]) (by rw [hls]) (by rw [hls])
  have hschedule : schedule cfg env s = .ok (out, s') :=
    bind_eq_ok.mpr ⟨ls, hbegin, bind_eq_ok.mpr ⟨ls, LoopState.mainLoop_of_spent hbudget.le,
      bind_eq_ok.mpr ⟨ls, LoopState.tailPreempt_of_idle hstatus, hfinish⟩⟩⟩
  have hfin := finishStep_spec hfinish
  have hnum : ls.numScheduledTokens.keys = [] := by rw [hls]; rfl
  have hreq' : ∀ r, s'.req r = ls.req r := fun r => hfin.unscheduled r (by simp [hnum])
  have hq := hfin.queues
  rw [hqueues] at hq
  have hpair := Prod.mk.inj (Except.ok.inj hq)
  have hperm' := (QueueManager.updateQueues_perm hqueues hset).trans hcombined
  refine ⟨out, s', hschedule, hfin.numScheduledTokens ▸ hnum, ?_, ?_, ?_, ?_⟩
  · exact {
      running := by rw [← hpair.1, hidle.running]
      waiting := by
        rw [← hpair.2]
        simpa [hidle.running] using hperm'
      skippedWaiting := by rw [hfin.skippedWaiting, hls]
      status := fun r => by
        obtain ⟨p, hp⟩ := hreq r
        rw [hreq', hp]
      numComputedTokens := fun r => by
        obtain ⟨p, hp⟩ := hreq r
        rw [hreq', hp]
      kv := by
        rw [hfin.kv, hls]
        rfl
      enc := by
        rw [hfin.enc, hls]
        rfl
      blocks := fun r => by
        rw [hfin.kv, hls]
        dsimp only
        split
        · rw [LawfulKVCacheManager.getBlocks_takeNewBlockIds,
            LawfulKVCacheManager.getBlocks_newStepStarts]
        · exact LawfulKVCacheManager.getBlocks_newStepStarts _ _
      encoderInputs := fun q => by
        rw [hfin.enc, LawfulEncoderCache.getCachedInputIds_getFreedMmHashes, hls] }
  · rw [hfin.pauseState, hls]
    exact hpause
  · rw [hfin.requests, hls]
    exact hperm
  · refine ⟨hfin.keys.trans (by rw [hls]; exact hsame.keys), fun r => ?_⟩
    obtain ⟨p, hp⟩ := hreq r
    exact ⟨p, (hreq' r).trans hp⟩

/-! ### Consecutive steps -/

/-- The outputs of a step for each of the listed environments, and the state after them. -/
def schedules (cfg : Config) : List StepEnv → Scheduler K E →
    Except SchedError (List SchedulerOutput × Scheduler K E)
  | [], s => .ok ([], s)
  | env :: rest, s => do
    let (out, s) ← schedule cfg env s
    let (outs, s) ← schedules cfg rest s
    .ok (out :: outs, s)

/-- The steps return, give no token to any request and leave the scheduler as it was. -/
def FreezesAll (cfg : Config) (envs : List StepEnv) (s : Scheduler K E) : Prop :=
  ∃ outs s', schedules cfg envs s = .ok (outs, s') ∧
    (∀ out ∈ outs, out.numScheduledTokens.keys = []) ∧ Frozen cfg envs.length s s'

/-- Each step gives tokens only to requests that were running when it began, and lets no other
request run. -/
def SchedulesOnlyRunning (cfg : Config) : List StepEnv → Scheduler K E → Prop
  | [], _ => True
  | env :: rest, s => ∀ out s', schedule cfg env s = .ok (out, s') →
    (∀ r ∈ out.numScheduledTokens.keys, r ∈ s.running) ∧ (∀ r ∈ s'.running, r ∈ s.running) ∧
      SchedulesOnlyRunning cfg rest s'

/-- No step at all freezes everything. -/
theorem Frozen.refl (cfg : Config) (s : Scheduler K E) : Frozen cfg 0 s s where
  running := .refl _
  waiting := .refl _
  skippedWaiting := rfl
  status _ := rfl
  numComputedTokens _ := rfl
  kv := rfl
  enc := rfl
  blocks _ := rfl
  encoderInputs _ := rfl

/-- What is frozen by a first and then by further steps is frozen by all of them. -/
theorem Frozen.trans {n m : ℕ} {s₁ s₂ s₃ : Scheduler K E} (h : Frozen cfg n s₁ s₂)
    (h' : Frozen cfg m s₂ s₃) : Frozen cfg (m + n) s₁ s₃ where
  running := h'.running.trans h.running
  waiting := h'.waiting.trans h.waiting
  skippedWaiting := h'.skippedWaiting.trans h.skippedWaiting
  status r := (h'.status r).trans (h.status r)
  numComputedTokens r := (h'.numComputedTokens r).trans (h.numComputedTokens r)
  kv := by rw [Function.iterate_add_apply, ← h.kv, h'.kv]
  enc := by rw [Function.iterate_add_apply, ← h.enc, h'.enc]
  blocks r := (h'.blocks r).trans (h.blocks r)
  encoderInputs q := (h'.encoderInputs q).trans (h.encoderInputs q)

/-- Frozen steps keep the block pool and the tables of a KV cache manager over full attention. -/
theorem Frozen.fullAttention {n : ℕ} {s s' : Scheduler FullAttentionKV E} (h : Frozen cfg n s s') :
    ∃ newBlockIds, s'.kv = { s.kv with newBlockIds := newBlockIds } := by
  have hstep : ∀ m : FullAttentionKV, ∃ ids, stepKv cfg m = { m with newBlockIds := ids } := by
    intro m
    unfold stepKv
    split
    exacts [⟨[], rfl⟩, ⟨m.newBlockIds, rfl⟩]
  have hsteps : ∀ n : ℕ, ∃ ids, (stepKv cfg)^[n] s.kv = { s.kv with newBlockIds := ids } := by
    intro n
    induction n with
    | zero => exact ⟨_, rfl⟩
    | succ n ih =>
      obtain ⟨ids, hids⟩ := ih
      obtain ⟨ids', hids'⟩ := hstep { s.kv with newBlockIds := ids }
      exact ⟨ids', by rw [Function.iterate_succ_apply', hids, hids']⟩
  exact h.kv ▸ hsteps n

/-- Frozen steps keep the references, the order of eviction and the slots of an encoder cache. -/
theorem Frozen.encoderCache {n : ℕ} {s s' : Scheduler K EncoderCacheManager}
    (h : Frozen cfg n s s') : ∃ freed, s'.enc = { s.enc with freed := freed } := by
  have hsteps : ∀ n : ℕ, ∃ freed, stepEnc^[n] s.enc = { s.enc with freed := freed } := by
    intro n
    induction n with
    | zero => exact ⟨_, rfl⟩
    | succ n ih =>
      obtain ⟨freed, hfreed⟩ := ih
      exact ⟨[], by rw [Function.iterate_succ_apply', hfreed]; rfl⟩
  exact h.enc ▸ hsteps n

/-- What is frozen while nothing runs stays so. -/
theorem Idle.of_frozen {n : ℕ} (h : Idle s) (hf : Frozen cfg n s s') : Idle s' where
  running := by
    have hperm := hf.running
    rw [h.running] at hperm
    exact hperm.eq_nil
  waiting r hr := by
    rw [hf.status r]
    exact h.waiting r (hf.waiting.mem_iff.mp hr)

/-- Any number of paused steps over requests of which none runs freezes them. -/
theorem freezesAll_of_idle [LawfulKVCacheManager K] [LawfulEncoderCache E] {envs : List StepEnv}
    (hpause : s.pauseState = .pausedAll) (hidle : Idle s)
    (hranked : ∀ env ∈ envs, ∀ r ∈ s.requests, Ranked cfg.policy env (s.req r)) :
    FreezesAll cfg envs s := by
  induction envs generalizing s with
  | nil => exact ⟨[], s, rfl, by simp, .refl cfg s⟩
  | cons env rest ih =>
    obtain ⟨out, s₁, hschedule, hnone, hfrozen, hpause₁, hperm, hsame⟩ :=
      schedule_of_idle hpause hidle (hranked env List.mem_cons_self)
    obtain ⟨outs, s', hrest, hnone', hfrozen'⟩ := ih hpause₁ (hidle.of_frozen hfrozen)
      fun env henv r hr => by
        obtain ⟨p, hp⟩ := hsame.req r
        rw [req, hp, Ranked.of_priority]
        exact hranked env (List.mem_cons_of_mem _ henv) r (hperm.mem_iff.mp hr)
    refine ⟨out :: outs, s', ?_, ?_, hfrozen.trans hfrozen'⟩
    · exact bind_eq_ok.mpr ⟨(out, s₁), hschedule, bind_eq_ok.mpr ⟨(outs, s'), hrest, rfl⟩⟩
    · exact List.forall_mem_cons.mpr ⟨hnone, hnone'⟩

/-! ### Keeping new requests out -/

/-- What keeps the waiting requests out of a step: each of them has a prompt that can never fit and
is given up, or the running requests take all tokens ahead of the first that has not. -/
inductive KeepsOut (cfg : Config) (env : StepEnv) (s : Scheduler K E) : Prop
  | oversize : (s.running ++ s.waiting.items).Nodup →
      (∀ r ∈ s.waiting.items, oversizePrompt cfg (s.req r) = true) → KeepsOut cfg env s
  | spent : Coherent s →
      Begins (LoopState.SpendsAhead cfg fun q => !oversizePrompt cfg q) cfg env s →
      KeepsOut cfg env s

omit [EncoderCache E] in
/-- No request stands twice in the queues. -/
theorem KeepsOut.nodup (h : KeepsOut cfg env s) : (s.running ++ s.waiting.items).Nodup := by
  cases h with
  | oversize hnodup => exact hnodup
  | spent hcoherent => exact hcoherent.nodup

/-- The walk comes to no waiting request but those it gives up. -/
theorem KeepsOut.oversize_of_treats {r : ReqId} (h : KeepsOut cfg env s)
    (hrounds : Rounds cfg env s ls) (htreats : ls.Treats r) (hW : r ∈ ls.qm.waitingReqIds) :
    oversizePrompt cfg (ls.req r) = true := by
  obtain ⟨ls₀, hbegin, hframe, hsize⟩ : ∃ ls₀, beginStep cfg env s = .ok ls₀ ∧
      LoopState.Frame ls₀ ls ∧ oversizePrompt cfg (ls₀.req r) = true := by
    cases h with
    | oversize hnodup hall =>
      obtain ⟨ls₀, hbegin, hmoves⟩ := hrounds.moves hnodup
        (fun _ _ _ _ => trivial : StepMeets (fun _ => True) cfg env s)
      refine ⟨ls₀, hbegin, hmoves.frame, ?_⟩
      have hW₀ : ls.qm.waitingReqIds ⊆ ls₀.qm.waitingReqIds :=
        hmoves.invariant (I := fun t => t.qm.waitingReqIds ⊆ ls₀.qm.waitingReqIds) subset_rfl
          fun _ _ hI hmove => hmove.update.waiting_subset.trans hI
      obtain ⟨objs, requests, hsame, -, -, rfl⟩ := beginStep_eq_ok hbegin
      have hr := List.mem_toFinset.mp (hW₀ hW)
      have hmem := ((sortBy_perm (fun r => (objs.req r).priority) (s.waiting.iter objs.req)).trans
        (RequestQueue.iter_perm objs.req s.waiting)).mem_iff.mp hr
      obtain ⟨p, hp⟩ := hsame.req r
      have hreq : oversizePrompt cfg (objs.req r) = true := by
        rw [hp]
        exact hall r hmem
      exact hreq
    | spent hcoherent hspends =>
      obtain ⟨ls₀, hbegin, hspending⟩ := hrounds.spending hcoherent hspends
      have hdisj := (beginStep_walking hcoherent hbegin).walk.toParts.running_waiting
      refine ⟨ls₀, hbegin, hspending.frame, ?_⟩
      simpa using (hspending.not_barred hdisj htreats hW).1
  obtain ⟨_, _, _, _, hreq⟩ := hframe.inputs r
  rw [hreq]
  exact hsize

/-- A round that gives up every waiting candidate gives tokens to a request that runs, and lets no
other one run. -/
theorem round_oversize {p : Pass (LoopState K E) (LoopState K E)}
    (hdisj : Disjoint ls.qm.runningReqIds ls.qm.waitingReqIds)
    (hsize : ∀ r, ls.Treats r → r ∈ ls.qm.waitingReqIds → oversizePrompt cfg (ls.req r) = true)
    (hround : ls.round cfg env = .ok p) : p.state.qm.runningReqIds ⊆ ls.qm.runningReqIds ∧
      ∀ r ∈ p.state.numScheduledTokens.keys,
        r ∈ ls.numScheduledTokens.keys ∨ r ∈ ls.qm.runningReqIds := by
  have hrunning : ∀ {r f}, r ∈ ls.qm.runningReqIds → ls.runningCandidate cfg env r = .ok f →
      f.toPass.state.qm.runningReqIds ⊆ ls.qm.runningReqIds ∧
        ∀ x ∈ f.toPass.state.numScheduledTokens.keys,
          x ∈ ls.numScheduledTokens.keys ∨ x ∈ ls.qm.runningReqIds := by
    intro r f hR hf
    cases LoopState.runningCandidate_outcome hf with
    | noTokens => exact ⟨subset_rfl, fun x hx => .inl hx⟩
    | noBlocks _ _ halloc =>
      exact ⟨(LoopState.allocLoop_sameWaiting halloc).running,
        fun x hx => .inl (LoopState.allocLoop_tokens halloc x hx)⟩
    | scheduled _ _ halloc hsched =>
      have hsub := (LoopState.allocLoop_sameWaiting halloc).running
      obtain ⟨enc, spec, -, rfl⟩ := LoopState.scheduleRunning_eq_ok hsched
      refine ⟨hsub, fun x hx => ?_⟩
      rcases (Dict.mem_keys_set _ _ _ _).mp hx with rfl | hx
      exacts [.inr hR, .inl (LoopState.allocLoop_tokens halloc x hx)]
  rcases LoopState.round_cases hround with rfl | rfl | ⟨q, f, htreats, hf, rfl⟩
  · exact ⟨subset_rfl, fun x hx => .inl hx⟩
  · exact ⟨subset_rfl, fun x hx => .inl hx⟩
  · rcases LoopState.candidate_cases hf with ⟨hR, hcand⟩ | ⟨ls₁, hreach, ⟨hW, hcand⟩ | ⟨-, rfl⟩⟩
    · exact hrunning hR hcand
    · obtain ⟨-, rfl⟩ := hreach.of_disjoint hdisj hW
      unfold LoopState.waitingCandidate at hcand
      rw [if_pos (hsize q htreats hW)] at hcand
      obtain ⟨qm', hqm, rfl⟩ := LoopState.ignore_eq_ok hcand
      refine ⟨?_, fun x hx => .inl hx⟩
      rcases QueueManager.updateIdxsAfterIgnored_cases hqm with ⟨-, rfl⟩ | ⟨_, _, u⟩
      exacts [subset_rfl, u.running.subset]
    · unfold LoopState.ReachesWaiting at hreach
      split at hreach
      · rename_i hR
        exact hrunning hR hreach
      · cases hreach
        exact ⟨subset_rfl, fun x hx => .inl hx⟩

/-- A step that keeps the waiting requests out gives tokens only to what ran when it began. -/
theorem schedule_keepsOut (hkeeps : KeepsOut cfg env s) {out : SchedulerOutput}
    (h : schedule cfg env s = .ok (out, s')) :
    (∀ r ∈ out.numScheduledTokens.keys, r ∈ s.running) ∧ ∀ r ∈ s'.running, r ∈ s.running := by
  have hnodup := hkeeps.nodup
  obtain ⟨ls, hwalked, hfinish⟩ := schedule_eq_ok h
  have hfin := finishStep_spec hfinish
  have hmoves : ∀ t, Rounds cfg env s t → t.qm.Parts := fun t ht => by
    obtain ⟨ls₀, hbegin, hmoves⟩ := ht.moves hnodup
      (fun _ _ _ _ => trivial : StepMeets (fun _ => True) cfg env s)
    exact hmoves.parts (beginStep_exact hbegin hnodup).toParts
  obtain ⟨hrunning, hnum⟩ : (∀ r ∈ ls.qm.runningReqIds, r ∈ s.running) ∧
      ∀ r ∈ ls.numScheduledTokens.keys, r ∈ s.running := by
    refine hwalked.rule (I := fun t => (∀ r ∈ t.qm.runningReqIds, r ∈ s.running) ∧
      ∀ r ∈ t.numScheduledTokens.keys, r ∈ s.running) (fun t ht => ?_) (fun t p ht hI hround => ?_)
      fun t r t' hI hone => ?_
    · obtain ⟨objs, requests, -, -, -, rfl⟩ := beginStep_eq_ok ht
      refine ⟨fun r hr => ?_, by simp⟩
      exact (sortBy_perm _ _).mem_iff.mp (QueueManager.mem_combineQueues_running.mp hr).1
    · obtain ⟨hsub, hkeys⟩ := round_oversize (hmoves t ht).running_waiting
        (fun r => hkeeps.oversize_of_treats ht) hround
      exact ⟨fun r hr => hI.1 r (hsub hr), fun r hr => (hkeys r hr).elim (hI.2 r) (hI.1 r)⟩
    · rcases LoopState.tailPreemptOne_cases hone with ⟨-, rfl⟩ | ⟨-, qm', hqm, rfl⟩
      · exact hI
      · refine ⟨fun x hx => hI.1 x ?_, hI.2⟩
        rcases QueueManager.updateIdxsAfterPreemption_cases hqm with ⟨-, rfl⟩ | ⟨_, _, u⟩
        exacts [hx, Finset.erase_subset _ _ (u.running ▸ hx)]
  obtain ⟨ls₀, hbegin, hall⟩ := hwalked.moves hnodup
    (fun _ _ _ _ => trivial : StepMeets (fun _ => True) cfg env s)
  have hexact := hall.exact fun _ => beginStep_exact hbegin hnodup
  refine ⟨fun r hr => hnum r (hfin.numScheduledTokens ▸ hr), fun r hr => hrunning r ?_⟩
  rw [QueueManager.updateQueues_running hfin.queues hexact, List.mem_filter] at hr
  exact of_decide_eq_true hr.2

/-- Every one of the steps finds the waiting requests kept out. -/
def AllKeepOut (cfg : Config) : List StepEnv → Scheduler K E → Prop
  | [], _ => True
  | env :: rest, s => KeepsOut cfg env s ∧
    ∀ out s', schedule cfg env s = .ok (out, s') → AllKeepOut cfg rest s'

/-- Steps that find the waiting requests kept out schedule only what runs. -/
theorem schedulesOnlyRunning_of_keepsOut {envs : List StepEnv} (h : AllKeepOut cfg envs s) :
    SchedulesOnlyRunning cfg envs s := by
  induction envs generalizing s with
  | nil => trivial
  | cons env rest ih =>
    intro out s' hschedule
    obtain ⟨hnum, hrunning⟩ := schedule_keepsOut h.1 hschedule
    exact ⟨hnum, hrunning, ih (h.2 out s' hschedule)⟩

/-! ### The contract -/

/-- What a paused scheduler is to do in consecutive steps. -/
structure PauseContract (cfg : Config) (envs : List StepEnv) (s : Scheduler K E) : Prop where
  pausedAll : s.pauseState = .pausedAll → FreezesAll cfg envs s
  pausedNew : s.pauseState = .pausedNew → SchedulesOnlyRunning cfg envs s

/-- The states in which the pause holds: with everything paused nothing runs and the live requests
can be ranked, with new requests paused every step finds the waiting ones kept out. -/
structure PauseHeld (cfg : Config) (envs : List StepEnv) (s : Scheduler K E) : Prop where
  pausedAll : s.pauseState = .pausedAll →
    Idle s ∧ ∀ env ∈ envs, ∀ r ∈ s.requests, Ranked cfg.policy env (s.req r)
  pausedNew : s.pauseState = .pausedNew → AllKeepOut cfg envs s

end Scheduler

namespace System

open Scheduler

/-- A request runs, everything is paused. -/
def pauseAllWhileRunning : List Op :=
  [.addRequest (shortRequest 1) fun _ => false, .schedule {}, .setPauseState .pausedAll]

/-- A request waits, new requests are paused. -/
def pauseNewWhileWaiting : List Op :=
  [.addRequest (shortRequest 1) fun _ => false, .setPauseState .pausedNew]

/-- A request waits, everything is paused. -/
def pauseAllWhileWaiting : List Op :=
  [.addRequest (shortRequest 1) fun _ => false, .setPauseState .pausedAll]

/-- A request runs whose prompt takes all tokens of three steps, another one waits, new requests are
paused. -/
def pauseNewBehindLong : List Op :=
  [.addRequest (promptRequest 1 28) fun _ => false, .schedule {},
    .addRequest (shortRequest 2) fun _ => false, .setPauseState .pausedNew]

end System

end RpsServe
