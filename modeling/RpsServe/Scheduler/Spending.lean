import RpsServe.Scheduler.Untied

/-!
# Steps that spend their tokens ahead of a request

The walk comes to a request only with tokens left. Whether the running requests that are
ranked ahead of it use them up can be read off the state before the step, as long as no
two queued requests tie, the running ones have no multimodal items and no mamba split is
made: each of them then takes exactly what it asks for, or ends the walk.
-/

namespace RpsServe

namespace LoopState

variable {K E : Type}

/-- A walk over `rs` with `b` tokens left spends them on requests that run in `ls` before it comes
to another request that `bars` names. -/
def Spends (cfg : Config) (bars : Request → Bool) (ls : LoopState K E) : List ReqId → ℤ → Prop
  | [], _ => True
  | r :: rest, b => b ≤ 0 ∨
    if r ∈ ls.qm.runningReqIds then
      Spends cfg bars ls rest (b - runningTokens cfg (ls.req r) b)
    else bars (ls.req r) = false ∧ Spends cfg bars ls rest b

/-- Whether the tokens are spent can be computed. -/
instance decidableSpends (cfg : Config) (bars : Request → Bool) (ls : LoopState K E) :
    (rs : List ReqId) → (b : ℤ) → Decidable (Spends cfg bars ls rs b)
  | [], _ => .isTrue trivial
  | r :: rest, b => by
    have hrunning := decidableSpends cfg bars ls rest (b - runningTokens cfg (ls.req r) b)
    have hwaiting := decidableSpends cfg bars ls rest b
    unfold Spends
    infer_instance

/-- What a running request leaves of the tokens grows with them. -/
theorem sub_runningTokens_mono (cfg : Config) (q : Request) {b b' : ℤ} (h : b' ≤ b) :
    b' - runningTokens cfg q b' ≤ b - runningTokens cfg q b := by
  unfold runningTokens
  dsimp only
  omega

/-- Fewer tokens are spent earlier. -/
theorem Spends.mono {cfg : Config} {bars : Request → Bool} {ls : LoopState K E} {rs : List ReqId}
    {b b' : ℤ} (h : Spends cfg bars ls rs b) (hle : b' ≤ b) : Spends cfg bars ls rs b' := by
  induction rs generalizing b b' with
  | nil => trivial
  | cons r rest ih =>
    rcases h with hspent | h
    · exact .inl (hle.trans hspent)
    · refine .inr ?_
      split_ifs at h ⊢
      · exact ih h (sub_runningTokens_mono cfg _ hle)
      · exact ⟨h.1, ih h.2 hle⟩

/-- What begins a step whose tokens are spent ahead of the requests that `bars` names. -/
structure SpendsAhead (cfg : Config) (bars : Request → Bool) (ls : LoopState K E) : Prop where
  untied : ls.Untied
  textOnly : ∀ r ∈ ls.qm.runningReqIds, (ls.req r).mmFeatures = []
  unaligned : cfg.needMambaBlockAlignedSplit = false
  spends : Spends cfg bars ls ls.qm.combined ls.tokenBudget

instance (cfg : Config) (bars : Request → Bool) (ls : LoopState K E) :
    Decidable (SpendsAhead cfg bars ls) :=
  decidable_of_iff (_ ∧ _ ∧ _ ∧ _) ⟨fun h => ⟨h.1, h.2.1, h.2.2.1, h.2.2.2⟩,
    fun h => ⟨h.1, h.2, h.3, h.4⟩⟩

/-- The requests that run in `ls'` ran in `ls`, and nothing about them has changed. -/
def RunsAsBefore (ls ls' : LoopState K E) : Prop :=
  ∀ x ∈ ls'.qm.runningReqIds, x ∈ ls.qm.runningReqIds ∧ ls'.req x = ls.req x

variable [KVCacheManager K] [EncoderCache E] {cfg : Config} {env : StepEnv} {r q : ReqId}
  {bars : Request → Bool} {args : AllocateSlotsArgs} {ls₀ ls ls' t : LoopState K E}

/-- A preemption changes nothing about those that go on running. -/
theorem preemptVictim_runsAsBefore {l : ℕ} {v : ReqId} {kv : K} (hpre : Preempts q args ls l v kv)
    (h : (ls.setKv kv).preemptVictim v = .ok ls') : RunsAsBefore ls ls' := by
  intro x hx
  rw [preemptVictim_running hpre h, Finset.mem_erase] at hx
  obtain ⟨ls₁, qm', -, -, -, rfl⟩ := preemptVictim_eq_ok h
  exact ⟨hx.2, Objs.req_modify_ne hx.1⟩

/-- An allocation loop changes nothing about those that go on running. -/
theorem allocLoop_runsAsBefore {res : Option KVCacheBlocks}
    (h : ls.allocLoop q args = .ok (res, ls')) : RunsAsBefore ls ls' := by
  have htrans : ∀ {t t'}, RunsAsBefore ls t → RunsAsBefore t t' → RunsAsBefore ls t' :=
    fun hI hnext x hx => by
      obtain ⟨hx₁, hreq⟩ := hnext x hx
      obtain ⟨hx₂, hreq'⟩ := hI x hx₁
      exact ⟨hx₂, hreq.trans hreq'⟩
  obtain ⟨t, ht, hexit⟩ := allocLoop_outcome h
  have hbefore : RunsAsBefore ls t := alloc_invariant ht (fun x hx => ⟨hx, rfl⟩)
    fun u l v kv u' _ hI hpre _ hvictim => htrans hI (preemptVictim_runsAsBefore hpre hvictim)
  cases hexit with
  | found | noneRunning | kept => exact hbefore
  | itself hpre hvictim => exact htrans hbefore (preemptVictim_runsAsBefore hpre hvictim)

omit [KVCacheManager K] in
/-- Without multimodal items and mamba blocks a running candidate is granted what it asks for. -/
theorem runningGrant_eq {enc : E} {g : Grant} (hunaligned : cfg.needMambaBlockAlignedSplit = false)
    (htext : (ls.req r).mmFeatures = []) (h : ls.runningGrant cfg env r = .ok (enc, g)) :
    g.numNewTokens = runningTokens cfg (ls.req r) ls.tokenBudget := by
  obtain ⟨p, hp, h⟩ := bind_eq_ok.mp h
  obtain ⟨n, hn, h⟩ := bind_eq_ok.mp h
  cases h
  unfold tryScheduleEncoderInputs at hp
  rw [if_pos (.inr (by simp [Request.hasEncoderInputs, htext]))] at hp
  cases hp
  rw [alignTokens, if_neg (by simp [hunaligned])] at hn
  cases hn
  rfl

/-- The walk that began in `ls₀` has come to `ls`, and what it has yet to come to still spends the
tokens that are left. -/
structure Spending (cfg : Config) (bars : Request → Bool) (ls₀ ls : LoopState K E) : Prop where
  walking : Walking ls
  untied : ls.Untied
  frame : Frame ls₀ ls
  runs : ∀ k x, ls.reqIndex ≤ k → ls.qm.combined[k]? = some x → x ∈ ls.qm.runningReqIds →
    x ∈ ls₀.qm.runningReqIds ∧ ls.req x = ls₀.req x
  waits : ls.qm.waitingReqIds ⊆ ls₀.qm.waitingReqIds
  spends : Spends cfg bars ls₀ (ls.qm.combined.drop ls.reqIndex) ls.tokenBudget

namespace Spending

omit [KVCacheManager K] [EncoderCache E] in
/-- Where a walk begins. -/
theorem start (h : SpendsAhead cfg bars ls) (hw : Walking ls) (hindex : ls.reqIndex = 0) :
    Spending cfg bars ls ls where
  walking := hw
  untied := h.untied
  frame := .refl ls
  runs _ _ _ _ hx := ⟨hx, rfl⟩
  waits := subset_rfl
  spends := by rw [hindex]; exact h.spends

omit [KVCacheManager K] [EncoderCache E] in
/-- What a treated candidate leaves to be spent. -/
theorem rest (h : Spending cfg bars ls₀ ls) (htreats : ls.Treats r) :
    if r ∈ ls₀.qm.runningReqIds then
      Spends cfg bars ls₀ (ls.qm.combined.drop (ls.reqIndex + 1))
        (ls.tokenBudget - runningTokens cfg (ls₀.req r) ls.tokenBudget)
    else bars (ls₀.req r) = false ∧
      Spends cfg bars ls₀ (ls.qm.combined.drop (ls.reqIndex + 1)) ls.tokenBudget := by
  have hspends := h.spends
  obtain ⟨hlt, hr⟩ := List.getElem?_eq_some_iff.mp htreats.stands
  rw [List.drop_eq_getElem_cons hlt, hr] at hspends
  exact hspends.resolve_left (not_le.mpr htreats.budget)

omit [KVCacheManager K] [EncoderCache E] in
/-- A waiting candidate is none that is barred. -/
theorem not_barred (h : Spending cfg bars ls₀ ls)
    (hdisj : Disjoint ls₀.qm.runningReqIds ls₀.qm.waitingReqIds) (htreats : ls.Treats r)
    (hW : r ∈ ls.qm.waitingReqIds) : bars (ls₀.req r) = false ∧
      Spends cfg bars ls₀ (ls.qm.combined.drop (ls.reqIndex + 1)) ls.tokenBudget := by
  have hrest := h.rest htreats
  rwa [if_neg fun hR => Finset.disjoint_left.mp hdisj hR (h.waits hW)] at hrest

omit [KVCacheManager K] [EncoderCache E] in
/-- The walk goes past the candidate `r`. -/
theorem next (h : Spending cfg bars ls₀ ls) (hr : ls.qm.combined[ls.reqIndex]? = some r)
    (hw : Walking ls') (hframe : Frame ls ls') (hindex : ls'.reqIndex = ls.reqIndex + 1)
    (hruns : ∀ x ∈ ls'.qm.runningReqIds, x ≠ r → x ∈ ls.qm.runningReqIds ∧ ls'.req x = ls.req x)
    (hwaits : ls'.qm.waitingReqIds ⊆ ls.qm.waitingReqIds)
    (hspends : Spends cfg bars ls₀ (ls.qm.combined.drop (ls.reqIndex + 1)) ls'.tokenBudget) :
    Spending cfg bars ls₀ ls' where
  walking := hw
  untied := hframe.untied h.untied
  frame := h.frame.trans hframe
  runs k x hk hx hR := by
    rw [hindex] at hk
    rw [hframe.combined] at hx
    obtain ⟨hR', hreq⟩ := hruns x hR fun hxr => by
      subst hxr
      have := h.walking.walk.toParts.index_unique hx hr
      omega
    obtain ⟨hR₀, hreq₀⟩ := h.runs k x (by omega) hx hR'
    exact ⟨hR₀, hreq.trans hreq₀⟩
  waits := hwaits.trans h.waits
  spends := by rw [hindex, hframe.combined]; exact hspends

/-- Every round of such a walk that goes on spends what it grants. -/
theorem round (hahead : SpendsAhead cfg bars ls₀) (h : Spending cfg bars ls₀ ls)
    (hdisj : Disjoint ls₀.qm.runningReqIds ls₀.qm.waitingReqIds)
    (hround : RoundOutcome cfg env ls (.next ls')) : Spending cfg bars ls₀ ls' := by
  have horderly : ∀ e, RoundEvent cfg env ls e → Orderly e := fun _ he =>
    h.walking.orderly h.untied he
  have hw : Walking ls' := h.walking.round hround horderly
  have hmoves : Moves cfg (fun _ => True) ls ls' := moves_round hround fun _ _ => trivial
  have hwaits : ls'.qm.waitingReqIds ⊆ ls.qm.waitingReqIds :=
    hmoves.invariant (I := fun t => t.qm.waitingReqIds ⊆ ls.qm.waitingReqIds) subset_rfl
      fun _ _ hI hmove => hmove.update.waiting_subset.trans hI
  generalize hp : Pass.next ls' = p at hround
  cases hround with
  | exhausted | spent | preempted => cases hp
  | stuck =>
    cases hp
    exact h
  | passed hr hbudget hpre hpass =>
    have hzero := h.untied.answered _ (List.mem_of_getElem? hr)
    simp only [reachesMaxTokens, Bool.and_eq_true, decide_eq_true_eq] at hpass
    omega
  | @running r _ htreats hR houtcome =>
    obtain ⟨hR₀, hreq⟩ := h.runs _ r le_rfl htreats.stands hR
    have htext : (ls.req r).mmFeatures = [] := hreq ▸ hahead.textOnly r hR₀
    have hrest := h.rest htreats
    rw [if_pos hR₀, ← hreq] at hrest
    cases houtcome with
    | noBlocks => cases hp
    | noTokens hgrant hzero =>
      cases hp
      refine h.next htreats.stands hw hmoves.frame rfl (fun x hx _ => ⟨hx, rfl⟩) hwaits ?_
      rwa [← runningGrant_eq hahead.unaligned htext hgrant, hzero, sub_zero] at hrest
    | @scheduled enc g _ ls₁ _ hgrant hpos halloc hsched =>
      cases hp
      have hframe := hmoves.frame
      obtain ⟨-, hindex, hbudget⟩ := (h.walking.setEnc enc).allocLoop halloc
        fun t l v kv ht hpre => horderly _ (.preemptForRunning htreats hR hgrant hpos ht hpre)
      have hruns := allocLoop_runsAsBefore halloc
      obtain ⟨enc', spec, -, rfl⟩ := scheduleRunning_eq_ok hsched
      refine h.next htreats.stands hw hframe (congrArg (· + 1) hindex) (fun x hx hxr => ?_)
        hwaits ?_
      · obtain ⟨hx', hreq'⟩ := hruns x hx
        exact ⟨hx', (Objs.req_modify_ne hxr).trans hreq'⟩
      · dsimp only
        rw [hbudget]
        rwa [← runningGrant_eq hahead.unaligned htext hgrant] at hrest
  | @waiting r _ htreats hR hW houtcome =>
    obtain ⟨-, hrest⟩ := h.not_barred hdisj htreats hW
    have hframe := hmoves.frame
    have hignored : ∀ {f}, ls.ignore r = .ok f → f.toPass = .next ls' →
        Spending cfg bars ls₀ ls' := by
      intro f hignore hf
      obtain ⟨qm', hqm, rfl⟩ := ignore_eq_ok hignore
      cases hf
      refine h.next htreats.stands hw hframe rfl (fun x hx hxr => ⟨?_, Objs.req_modify_ne hxr⟩)
        hwaits hrest
      rcases QueueManager.updateIdxsAfterIgnored_cases hqm with ⟨-, rfl⟩ | ⟨_, _, u⟩
      exacts [hx, u.running ▸ hx]
    cases houtcome with
    | blocked | noBlocks => cases hp
    | ignoredPrompt _ hignore | ignoredEncoderInputs _ _ hignore => exact hignored hignore hp.symm
    | skipped _ hskip =>
      obtain ⟨qm', hqm, rfl⟩ := skip_eq_ok hskip
      cases hp
      refine h.next htreats.stands hw hframe rfl (fun x hx _ => ⟨?_, rfl⟩) hwaits hrest
      rcases QueueManager.updateIdxsAfterSkipped_cases hqm with ⟨-, rfl⟩ | ⟨_, _, u⟩
      exacts [hx, u.running ▸ hx]
    | @loading _ enc _ _ ls₁ _ hc hg halloc _ hskip =>
      obtain ⟨-, hindex, hbudget⟩ := (h.walking.setEnc enc).allocLoop halloc
        fun t l v kv ht hpre => horderly _ (.preemptForWaiting htreats hR hW hc hg ht hpre)
      have hruns := allocLoop_runsAsBefore halloc
      obtain ⟨qm', hqm, rfl⟩ := skip_eq_ok hskip
      cases hp
      refine h.next htreats.stands hw hframe (congrArg (· + 1) hindex) (fun x hx hxr => ?_)
        hwaits (hrest.mono hbudget.le)
      have hx₁ : x ∈ ls₁.qm.runningReqIds := by
        rcases QueueManager.updateIdxsAfterSkipped_cases hqm with ⟨-, rfl⟩ | ⟨_, _, u⟩
        exacts [hx, u.running ▸ hx]
      obtain ⟨hx', hreq'⟩ := hruns x hx₁
      exact ⟨hx', (Objs.req_modify_ne hxr).trans hreq'⟩
    | @admitted _ enc _ _ ls₁ _ hc hg halloc _ hadmitted =>
      cases hp
      obtain ⟨hw₁, hindex, hbudget⟩ := (h.walking.setEnc enc).allocLoop halloc
        fun t l v kv ht hpre => horderly _ (.preemptForWaiting htreats hR hW hc hg ht hpre)
      have hruns := allocLoop_runsAsBefore halloc
      have hsame := allocLoop_sameWaiting halloc
      have hstands : ls₁.qm.combined[ls₁.reqIndex]? = some r := by
        rw [hindex, hsame.combined]
        exact htreats.stands
      have hfirst := hw₁.walk.first_eq hstands (hsame.waiting ▸ hW)
      obtain ⟨newReqs, resumedReqs, qm', enc', -, hqm, -, rfl⟩ := admitWaiting_eq_ok hadmitted
      have hnonneg := waitingGrant_nonneg hg
      refine h.next htreats.stands hw hframe (congrArg (· + 1) hindex) (fun x hx hxr => ?_)
        hwaits (hrest.mono ?_)
      · have hx₁ : x ∈ ls₁.qm.runningReqIds := by
          rcases QueueManager.updateIdxsAfterNewScheduling_cases hqm with ⟨-, rfl⟩ | ⟨f, y, u⟩
          · exact hx
          · obtain rfl : ls₁.reqIndex = f := Option.some.inj (hfirst.symm.trans u.firstWaiting)
            obtain rfl : r = y := Option.some.inj (hstands.symm.trans u.stands)
            exact (Finset.mem_insert.mp (u.running ▸ hx)).resolve_left hxr
        obtain ⟨hx', hreq'⟩ := hruns x hx₁
        exact ⟨hx', (Objs.req_modify_ne hxr).trans hreq'⟩
      · have hle : ls₁.tokenBudget ≤ ls.tokenBudget := hbudget.le
        dsimp only
        omega

end Spending

end LoopState

namespace Scheduler

open LoopState

variable {K E : Type} [KVCacheManager K] [EncoderCache E] {cfg : Config} {env : StepEnv}
  {bars : Request → Bool} {s : Scheduler K E} {ls : LoopState K E}

/-- The tokens of a step are spent, in every round of it, ahead of the requests that are barred. -/
theorem Rounds.spending (hrounds : Rounds cfg env s ls) (h : Coherent s)
    (hspends : Begins (SpendsAhead cfg bars) cfg env s) :
    ∃ ls₀, beginStep cfg env s = .ok ls₀ ∧ Spending cfg bars ls₀ ls := by
  obtain ⟨ls₀, hbegin, hvisits⟩ := hrounds
  have hahead := hspends.of_eq_ok hbegin
  have hw := beginStep_walking h hbegin
  have hindex : ls₀.reqIndex = 0 := by
    obtain ⟨objs, requests, -, -, -, rfl⟩ := beginStep_eq_ok hbegin
    rfl
  refine ⟨ls₀, hbegin, hvisits.invariant (I := fun t => Spending cfg bars ls₀ t)
    (.start hahead hw hindex) fun t t' _ hI hround => ?_⟩
  exact hI.round hahead hw.walk.toParts.running_waiting
    (round_outcome hI.walking.walk.toParts.running_waiting hround)

end Scheduler

end RpsServe
