import RpsServe.Scheduler.BlockTables

/-!
# Steps that grant tokens

The walk passes over a running request to which it could give no token, and admits no waiting one
without a token. So every request that a step schedules is given one at least, when no running
request is ahead of its tokens at the begin of the step. Without that condition a request whose
drafts are in flight could be given a negative number of tokens.
-/

namespace RpsServe

/-- The request has computed no more than its tokens, and has room in the model's context. -/
def Request.Behind (cfg : Config) (q : Request) : Prop :=
  q.numComputedTokens ≤ (q.numTokensWithSpec : ℤ) + q.numOutputPlaceholders ∧
    q.numComputedTokens < cfg.maxModelLen

instance (cfg : Config) : DecidablePred (Request.Behind cfg) := fun _ =>
  inferInstanceAs (Decidable (_ ∧ _))

namespace LoopState

variable {K E : Type} [EncoderCache E] {cfg : Config} {env : StepEnv} {ls ls' t : LoopState K E}
  {q : Request} {r v x : ReqId} {c : CachedPrefix} {enc enc' : E} {g g' : Grant}

/-! ### Grants -/

/-- The tokens of a running request that is behind are not negative. -/
theorem runningTokens_nonneg {tokenBudget : ℤ} (h : q.Behind cfg) (hbudget : 0 < tokenBudget) :
    0 ≤ runningTokens cfg q tokenBudget := by
  obtain ⟨htokens, hroom⟩ := h
  unfold runningTokens Config.capPrefill
  dsimp only
  split <;> omega

/-- A running request that is behind is granted no negative number of tokens. -/
theorem runningGrant_nonneg (h : (ls.req r).Behind cfg) (hbudget : 0 < ls.tokenBudget)
    (hg : ls.runningGrant cfg env r = .ok (enc, g)) : 0 ≤ g.numNewTokens := by
  obtain ⟨p, hp, hg⟩ := bind_eq_ok.mp hg
  obtain ⟨n, hn, hg⟩ := bind_eq_ok.mp hg
  cases hg
  exact alignTokens_nonneg
    (tryScheduleEncoderInputs_tokens_nonneg (runningTokens_nonneg h hbudget) hp) hn

omit [EncoderCache E] in
/-- Aligning a positive grant leaves it positive. -/
theorem alignGrant_pos (hg : 0 < g.numNewTokens)
    (h : alignGrant cfg q c enc g = .ok (.granted enc' g')) : 0 < g'.numNewTokens := by
  have hnonneg := alignGrant_nonneg hg.le h
  obtain ⟨n, hn, h⟩ := bind_eq_ok.mp h
  split at h
  · cases h
  · rename_i hsplit
    cases h
    unfold alignTokens at hn
    split at hn
    · rename_i hneed
      have hne : n ≠ 0 := fun hzero => hsplit ⟨hneed, hzero⟩
      dsimp only at hnonneg ⊢
      omega
    · cases hn
      exact hg

/-- A waiting candidate is granted a token at least. -/
theorem waitingGrant_pos (hload : c.loadKvAsync = false)
    (h : ls.waitingGrant cfg env r c = .ok (.granted enc g)) : 0 < g.numNewTokens := by
  unfold waitingGrant at h
  rw [hload] at h
  dsimp only at h
  split at h
  · rename_i hfalse
    cases hfalse
  split at h
  · cases h
  split at h
  · cases h
  split at h
  · cases h
  obtain ⟨p, hp, h⟩ := bind_eq_ok.mp h
  have hnonneg := tryScheduleEncoderInputs_tokens_nonneg (by omega) hp
  split at h
  · cases h
  · exact alignGrant_pos (lt_of_le_of_ne hnonneg (Ne.symm ‹_›)) h

/-! ### The walk -/

/-- The scheduled requests have been given a token, and the running ones that the walk has still to
reach are not ahead of their tokens. -/
structure Granting (cfg : Config) (ls : LoopState K E) : Prop where
  pos : ∀ r n, ls.numScheduledTokens.get? r = some n → 0 < n
  behind : ∀ r, (ls.req r).status = .running → r ∉ ls.numScheduledTokens.keys →
    (ls.req r).Behind cfg

namespace Granting

omit [EncoderCache E] in
/-- A frame that leaves the scheduled tokens and the running requests leaves the granting. -/
theorem of_frame (h : Granting cfg ls) (hnum : ls'.numScheduledTokens = ls.numScheduledTokens)
    (hreq : ∀ x, (ls'.req x).status = .running → ls'.req x = ls.req x) : Granting cfg ls' := by
  refine ⟨fun x n hn => h.pos x n (hnum ▸ hn), fun x hx hnot => ?_⟩
  have hsame := hreq x hx
  rw [hsame] at hx ⊢
  exact h.behind x hx (hnum ▸ hnot)

omit [EncoderCache E] in
/-- A request that does not run any more. -/
theorem write {f : Request → Request} (h : Granting cfg ls)
    (hnum : ls'.numScheduledTokens = ls.numScheduledTokens)
    (hobjs : ls'.sch.objs = ls.sch.objs.modify v f) (hf : ∀ q, (f q).status ≠ .running) :
    Granting cfg ls' := by
  refine h.of_frame hnum fun x hx => ?_
  rw [req, Scheduler.req, hobjs] at hx ⊢
  by_cases hxv : x = v
  · subst hxv
    by_cases hk : x ∈ ls.sch.objs.keys
    · rw [Objs.req_modify_self hk] at hx
      exact absurd hx (hf _)
    · rw [Objs.req_of_notMem (by rwa [Dict.keys_modify]), req, Scheduler.req,
        Objs.req_of_notMem hk]
  · exact Objs.req_modify_ne hxv

omit [EncoderCache E] in
/-- The step schedules a request with a token at least. -/
theorem grant {f : Request → Request} {n : ℤ} (h : Granting cfg ls) (hn : 0 < n)
    (hnum : ls'.numScheduledTokens = ls.numScheduledTokens.set r n)
    (hobjs : ls'.sch.objs = ls.sch.objs.modify r f) : Granting cfg ls' := by
  refine ⟨fun x m hm => ?_, fun x hx hnot => ?_⟩
  · rw [hnum] at hm
    by_cases hxr : x = r
    · rw [hxr, Dict.get?_set_self, Option.some.injEq] at hm
      omega
    · rw [Dict.get?_set_ne _ _ (Ne.symm hxr)] at hm
      exact h.pos x m hm
  · rw [hnum, Dict.mem_keys_set, not_or] at hnot
    rw [req, Scheduler.req, hobjs, Objs.req_modify_ne hnot.1] at hx ⊢
    exact h.behind x hx hnot.2

variable [KVCacheManager K] {a : ReqId} {args : AllocateSlotsArgs}

/-- The preemptions of an allocation loop. -/
theorem allocLoop {res : Option KVCacheBlocks} (h : Granting cfg ls) (hw : Walking ls)
    (hloop : ls.allocLoop a args = .ok (res, ls'))
    (hgood : ∀ t l v kv, Visits (allocRound a args) ls t → Preempts a args t l v kv →
      t.reqIndex ≤ l) : Granting cfg ls' := by
  have hpreempt : ∀ {u u' l v kv}, Visits (allocRound a args) ls u → Granting cfg u →
      Preempts a args u l v kv → (u.setKv kv).preemptVictim v = .ok u' → Granting cfg u' := by
    intro u u' l v kv hu hI hpre hvictim
    obtain ⟨qm', -, rfl⟩ := (hw.visits hu hgood).1.preempt_eq hpre (hgood u l v kv hu hpre) hvictim
    exact hI.write rfl rfl fun q hrunning => nomatch hrunning
  obtain ⟨t, ht, hexit⟩ := allocLoop_outcome hloop
  have hI : Granting cfg t := alloc_invariant ht h fun u l v kv u' hu hI hpre _ hvictim =>
    hpreempt hu hI hpre hvictim
  cases hexit with
  | found | noneRunning | kept => exact hI.of_frame rfl fun _ _ => rfl
  | itself hpre hvictim => exact hpreempt ht hI hpre hvictim

/-- Every orderly round grants tokens. -/
theorem round {p : Pass (LoopState K E) (LoopState K E)} (hc : cfg.connector = false)
    (h : Granting cfg ls) (hw : Walking ls) (hround : RoundOutcome cfg env ls p)
    (hgood : ∀ e, RoundEvent cfg env ls e → Orderly e) : Granting cfg p.state := by
  have hset : ∀ enc, Granting cfg (ls.setEnc enc) := fun enc => h.of_frame rfl fun _ _ => rfl
  cases hround with
  | exhausted | spent | preempted | stuck => exact h
  | passed => exact h.of_frame rfl fun _ _ => rfl
  | @running r f htreats hR houtcome =>
    have hfresh : r ∉ ls.numScheduledTokens.keys := fun hmem =>
      hw.fresh htreats.stands ((hw.scheduledKeys r).mp hmem)
    have hbehind : (ls.req r).Behind cfg := h.behind r ((hw.status r).mpr hR) hfresh
    cases houtcome with
    | noTokens hgrant => exact h.of_frame rfl fun _ _ => rfl
    | noBlocks hgrant hpos halloc =>
      exact (hset _).allocLoop (hw.setEnc _) halloc fun t l v kv ht hpre =>
        hgood _ (.preemptForRunning htreats hR hgrant hpos ht hpre)
    | @scheduled enc g newBlocks ls₁ ls₂ hgrant hpos halloc hsched =>
      have hI := (hset _).allocLoop (hw.setEnc _) halloc fun t l v kv ht hpre =>
        hgood _ (.preemptForRunning htreats hR hgrant hpos ht hpre)
      have hnonneg := runningGrant_nonneg hbehind htreats.budget hgrant
      obtain ⟨enc', spec, -, rfl⟩ := scheduleRunning_eq_ok hsched
      exact hI.grant (lt_of_le_of_ne hnonneg (Ne.symm hpos)) rfl rfl
  | @waiting r f htreats hR hW houtcome =>
    cases houtcome with
    | ignoredPrompt _ hignore | ignoredEncoderInputs _ _ hignore =>
      obtain ⟨qm', -, rfl⟩ := ignore_eq_ok hignore
      exact h.write rfl rfl fun q hrunning => nomatch hrunning
    | skipped _ hskip =>
      obtain ⟨qm', -, rfl⟩ := skip_eq_ok hskip
      exact h.of_frame rfl fun _ _ => rfl
    | blocked => exact hset _
    | @noBlocks c enc g ls₁ hcached hgrant halloc =>
      have hI := (hset _).allocLoop (hw.setEnc _) halloc fun t l v kv ht hpre =>
        hgood _ (.preemptForWaiting htreats hR hW hcached hgrant ht hpre)
      dsimp only [Flow.toPass, Pass.state]
      split
      · exact hI.of_frame rfl fun _ _ => rfl
      · exact hI
    | loading hcached hgrant halloc hload =>
      rw [(cachedPrefix_local hc hcached).load] at hload
      cases hload
    | admitted hcached hgrant halloc hload hadmitted =>
      have hI := (hset _).allocLoop (hw.setEnc _) halloc fun t l v kv ht hpre =>
        hgood _ (.preemptForWaiting htreats hR hW hcached hgrant ht hpre)
      obtain ⟨newReqs, resumedReqs, qm', enc', -, -, -, rfl⟩ := admitWaiting_eq_ok hadmitted
      exact hI.grant (waitingGrant_pos (cachedPrefix_local hc hcached).load hgrant) rfl rfl

end Granting

end LoopState

namespace Scheduler

variable {K E : Type} [KVCacheManager K] [EncoderCache E] {cfg : Config} {env : StepEnv}
  {s s' : Scheduler K E} {ls : LoopState K E} {out : SchedulerOutput}

/-- When no running request is ahead of its tokens, an orderly step gives every request that it
schedules a token at least. -/
theorem schedule_grants (hc : cfg.connector = false) (h : Coherent s)
    (hgood : StepMeets LoopState.Orderly cfg env s)
    (hbehind : ∀ r, (s.req r).status = .running → (s.req r).Behind cfg)
    (hschedule : schedule cfg env s = .ok (out, s')) {r : ReqId} {n : ℤ}
    (hn : out.numScheduledTokens.get? r = some n) : 0 < n := by
  obtain ⟨ls, hwalked, hfinish⟩ := schedule_eq_ok hschedule
  have hgranting : ls.Granting cfg := by
    refine hwalked.rule (fun t hbegin => ?_) (fun t p ht hI hstep => ?_) fun t r t' hI hone => ?_
    · obtain ⟨objs, requests, hsame, -, -, rfl⟩ := beginStep_eq_ok hbegin
      refine ⟨fun x n hn => ?_, fun x hx _ => ?_⟩
      · cases hn
      · obtain ⟨p, hp⟩ := hsame.req x
        change (Objs.req objs x).status = .running at hx
        change (Objs.req objs x).Behind cfg
        rw [hp] at hx ⊢
        exact hbehind x hx
    · have hw := ht.walking h hgood
      exact hI.round hc hw (LoopState.round_outcome hw.walk.toParts.running_waiting hstep)
        (hgood t ht)
    · rcases LoopState.tailPreemptOne_cases hone with ⟨-, rfl⟩ | ⟨-, qm', -, rfl⟩
      · exact hI
      · exact hI.write rfl rfl fun q hrunning => nomatch hrunning
  exact hgranting.pos r n ((finishStep_spec hfinish).numScheduledTokens ▸ hn)

end Scheduler

end RpsServe
