import RpsServe.Scheduler.Named
import RpsServe.Scheduler.Preemption
import RpsServe.Scheduler.Pause

/-!
# Requests whose KV blocks are loading

A request whose blocks a connector loads asynchronously keeps its place in the waiting queue. The
status is tested nowhere on the walk: the next step that comes to the request treats it as any
other candidate, and an allocation may pick it as its victim. The promotion that was written for it
has no caller, and the scan for invalid blocks looks for it in the other waiting queue. The request
is left alone by the steps that never come to it, as their tokens are spent ahead of it.
-/

namespace RpsServe

namespace LoopState

variable {K E : Type} [KVCacheManager K] [EncoderCache E] {cfg : Config} {env : StepEnv}
  {ls ls' : LoopState K E} {r x : ReqId}

/-- The KV blocks of the request are loading. -/
def Loading (ls : LoopState K E) (r : ReqId) : Prop := (ls.req r).status = .waitingForRemoteKvs

/-- The round is about to preempt `v` for an allocation. -/
inductive Selects (cfg : Config) (env : StepEnv) (ls : LoopState K E) :
    LoopState K E → ReqId → Prop
  | forRunning {q enc g t l v kv} : ls.Treats q → q ∈ ls.qm.runningReqIds →
      ls.runningGrant cfg env q = .ok (enc, g) → g.numNewTokens ≠ 0 →
      Visits (allocRound q (runningArgs cfg g)) (ls.setEnc enc) t →
      Preempts q (runningArgs cfg g) t l v kv → Selects cfg env ls (t.setKv kv) v
  | forWaiting {q ls₁ c enc g t l v kv} : ls.Treats q → ls.ReachesWaiting cfg env q ls₁ →
      q ∈ ls₁.qm.waitingReqIds → oversizePrompt cfg (ls₁.req q) = false →
      ls₁.cachedPrefix cfg env q = .ok (some c) →
      ls₁.waitingGrant cfg env q c = .ok (.granted enc g) →
      Visits (allocRound q (waitingArgs cfg (ls₁.req q) c g)) (ls₁.setEnc enc) t →
      Preempts q (waitingArgs cfg (ls₁.req q) c g) t l v kv → Selects cfg env ls (t.setKv kv) v

/-- Nothing about the request changes, and it gets neither tokens nor blocks. -/
structure Untouched (ls ls' : LoopState K E) (r : ReqId) : Prop where
  req : ls'.req r = ls.req r
  blocks : KVCacheManager.getBlocks ls'.sch.kv r = KVCacheManager.getBlocks ls.sch.kv r
  tokens : r ∈ ls'.numScheduledTokens.keys → r ∈ ls.numScheduledTokens.keys

omit [EncoderCache E] in
/-- A state leaves a request untouched. -/
theorem Untouched.refl (ls : LoopState K E) (r : ReqId) : Untouched ls ls r := ⟨rfl, rfl, id⟩

omit [EncoderCache E] in
/-- What two stretches leave untouched their composition does. -/
theorem Untouched.trans {ls₁ : LoopState K E} (h : Untouched ls ls₁ r) (h' : Untouched ls₁ ls' r) :
    Untouched ls ls' r :=
  ⟨h'.req.trans h.req, h'.blocks.trans h.blocks, fun hr => h.tokens (h'.tokens hr)⟩

omit [EncoderCache E] in
/-- A request that does not run is not touched by the treatment of another one. -/
theorem Touches.untouched {q : ReqId} (h : Touches q ls ls') (hid : (ls.req q).requestId = q)
    (hr : r ≠ q) (hrun : (ls.req r).status ≠ .running) : Untouched ls ls' r :=
  ⟨h.others r hr hrun, h.blocks hid r hr hrun, h.tokens r hr⟩

/-- An allocation loop lets nobody load. -/
theorem allocLoop_loading {q : ReqId} {args : AllocateSlotsArgs} {res : Option KVCacheBlocks}
    (h : ls.allocLoop q args = .ok (res, ls')) (hx : ls'.Loading x) : ls.Loading x := by
  have hvictim : ∀ {t t' : LoopState K E} {v : ReqId} {kv : K},
      (t.setKv kv).preemptVictim v = .ok t' → t'.Loading x → t.Loading x := by
    intro t t' v kv hvictim hx
    obtain ⟨ls₁, qm', -, -, -, rfl⟩ := preemptVictim_eq_ok hvictim
    rcases Objs.req_modify_cases t.sch.objs v Scheduler.preempted x with hsame | ⟨rfl, hsame⟩
    · exact (congrArg Request.status hsame).symm.trans hx
    · have hstatus : (Objs.req (t.sch.objs.modify x Scheduler.preempted) x).status =
          .waitingForRemoteKvs := hx
      rw [hsame] at hstatus
      cases hstatus
  obtain ⟨t, ht, hexit⟩ := allocLoop_outcome h
  have hbefore : t.Loading x → ls.Loading x :=
    alloc_invariant (I := fun t => t.Loading x → ls.Loading x) ht id
      fun _ _ _ _ _ _ hI _ _ hv hx => hI (hvictim hv hx)
  cases hexit with
  | found | noneRunning | kept => exact hbefore hx
  | itself _ hv => exact hbefore (hvictim hv hx)

/-- Without ties, a round that goes on lets at most the candidate it goes past load. -/
theorem Walking.round_loading (h : Walking ls) (hu : Untied ls)
    (hround : RoundOutcome cfg env ls (.next ls')) : ls.reqIndex ≤ ls'.reqIndex ∧
      ∀ x, ls'.Loading x → ls.Loading x ∨
        ls.qm.combined[ls.reqIndex]? = some x ∧ ls'.reqIndex = ls.reqIndex + 1 := by
  have horderly : ∀ e, RoundEvent cfg env ls e → Orderly e := fun _ he => h.orderly hu he
  have hmodify : ∀ {t t' : LoopState K E} {r : ReqId} {f : Request → Request},
      (∀ x, t.Loading x → ls.Loading x) → (∀ x, t'.req x = Objs.req (t.sch.objs.modify r f) x) →
      ((f (t.req r)).status = .waitingForRemoteKvs → (t.req r).status = .waitingForRemoteKvs) →
      ∀ x, t'.Loading x → ls.Loading x := by
    intro t t' r f ht hreq hf x hx
    rw [Loading, hreq] at hx
    rcases Objs.req_modify_cases t.sch.objs r f x with hsame | ⟨rfl, hsame⟩
    · exact ht x ((congrArg Request.status hsame).symm.trans hx)
    · exact ht x (hf ((congrArg Request.status hsame).symm.trans hx))
  generalize hp : Pass.next ls' = p at hround
  cases hround with
  | exhausted | spent | preempted => cases hp
  | stuck =>
    cases hp
    exact ⟨le_rfl, fun x hx => .inl hx⟩
  | passed =>
    cases hp
    exact ⟨Nat.le_succ _, fun x hx => .inl hx⟩
  | running htreats hR houtcome =>
    cases houtcome with
    | noBlocks => cases hp
    | noTokens =>
      cases hp
      exact ⟨Nat.le_succ _, fun x hx => .inl hx⟩
    | @scheduled enc _ _ ls₁ _ hgrant hpos halloc hsched =>
      cases hp
      obtain ⟨-, hindex, -⟩ := (h.setEnc enc).allocLoop halloc
        fun t l v kv ht hpre => horderly _ (.preemptForRunning htreats hR hgrant hpos ht hpre)
      have hindex : ls₁.reqIndex = ls.reqIndex := hindex
      have halloc := fun x => allocLoop_loading (x := x) halloc
      obtain ⟨enc', spec, -, rfl⟩ := scheduleRunning_eq_ok hsched
      exact ⟨by dsimp only; omega, fun x hx => .inl (hmodify halloc (fun _ => rfl) id x hx)⟩
  | @waiting r _ htreats hR hW houtcome =>
    have hignored : ∀ {f}, ls.ignore r = .ok f → f.toPass = .next ls' →
        ls.reqIndex ≤ ls'.reqIndex ∧ ∀ x, ls'.Loading x → ls.Loading x := by
      intro f hignore hf
      obtain ⟨qm', -, rfl⟩ := ignore_eq_ok hignore
      cases hf
      exact ⟨Nat.le_succ _, hmodify (fun _ hx => hx) (fun _ => rfl) fun h => nomatch h⟩
    cases houtcome with
    | blocked | noBlocks => cases hp
    | ignoredPrompt _ hignore | ignoredEncoderInputs _ _ hignore =>
      obtain ⟨hle, hload⟩ := hignored hignore hp.symm
      exact ⟨hle, fun x hx => .inl (hload x hx)⟩
    | skipped _ hskip =>
      obtain ⟨qm', -, rfl⟩ := skip_eq_ok hskip
      cases hp
      exact ⟨Nat.le_succ _, fun x hx => .inl hx⟩
    | @loading _ enc _ _ ls₁ _ hc hg halloc _ hskip =>
      obtain ⟨-, hindex, -⟩ := (h.setEnc enc).allocLoop halloc
        fun t l v kv ht hpre => horderly _ (.preemptForWaiting htreats hR hW hc hg ht hpre)
      have hindex : ls₁.reqIndex = ls.reqIndex := hindex
      obtain ⟨qm', -, rfl⟩ := skip_eq_ok hskip
      cases hp
      have hnext : ls₁.reqIndex + 1 = ls.reqIndex + 1 := congrArg (· + 1) hindex
      refine ⟨hindex.ge.trans (Nat.le_succ _), fun x hx => ?_⟩
      by_cases hxr : x = r
      · exact .inr ⟨hxr ▸ htreats.stands, hnext⟩
      · have hload : ls₁.Loading x :=
          (congrArg Request.status (Objs.req_modify_ne hxr)).symm.trans hx
        exact .inl (allocLoop_loading halloc hload : (ls.setEnc enc).Loading x)
    | @admitted _ enc _ _ ls₁ _ hc hg halloc _ hadmitted =>
      cases hp
      obtain ⟨-, hindex, -⟩ := (h.setEnc enc).allocLoop halloc
        fun t l v kv ht hpre => horderly _ (.preemptForWaiting htreats hR hW hc hg ht hpre)
      have hindex : ls₁.reqIndex = ls.reqIndex := hindex
      have halloc := fun x => allocLoop_loading (x := x) halloc
      obtain ⟨newReqs, resumedReqs, qm', enc', -, -, -, rfl⟩ := admitWaiting_eq_ok hadmitted
      refine ⟨by dsimp only; omega, fun x hx => .inl (hmodify halloc (fun _ => rfl) ?_ x hx)⟩
      intro hrunning
      cases hrunning

end LoopState

namespace Scheduler

open LoopState

variable {K E : Type} [KVCacheManager K] [EncoderCache E] {cfg : Config} {env : StepEnv}
  {s s' : Scheduler K E} {ls : LoopState K E} {out : SchedulerOutput} {mro : ModelRunnerOutput}
  {r : ReqId}

/-- The KV blocks of the request are loading. -/
def Loading (s : Scheduler K E) (r : ReqId) : Prop := (s.req r).status = .waitingForRemoteKvs

/-- The walk comes to no request whose blocks are loading, and selects none as a victim. -/
structure PassesLoading (cfg : Config) (env : StepEnv) (s : Scheduler K E) : Prop where
  candidates : ∀ ls, Rounds cfg env s ls → ∀ r, ls.Treats r → ¬ ls.Loading r
  victims : ∀ ls, Rounds cfg env s ls → ∀ t v, ls.Selects cfg env t v → ¬ t.Loading v

/-- What is expected of a step: a request whose blocks are loading gets neither tokens nor blocks,
and no round fails over it. -/
structure StepLeavesLoading (cfg : Config) (env : StepEnv) (s : Scheduler K E) : Prop where
  candidates : ∀ ls, Rounds cfg env s ls → ∀ r, ls.Treats r → ls.Loading r →
    ∃ p, ls.round cfg env = .ok p
  victims : ∀ ls, Rounds cfg env s ls → ∀ t v, ls.Selects cfg env t v → t.Loading v →
    ∃ t', t.preemptVictim v = .ok t'
  rounds : ∀ ls p, Rounds cfg env s ls → ls.round cfg env = .ok p → ∀ r, ls.Loading r →
    Untouched ls p.state r
  steps : ∀ out s', schedule cfg env s = .ok (out, s') → ∀ r, s.Loading r →
    r ∉ out.numScheduledTokens.keys ∧
      KVCacheManager.getBlocks s'.kv r = KVCacheManager.getBlocks s.kv r

variable [SeparateKVCacheManager K]

/-- A round leaves a request alone whose blocks are loading and that it does not treat. -/
theorem Rounds.untouched {p : Pass (LoopState K E) (LoopState K E)} (h : Named s)
    (hrounds : Rounds cfg env s ls) (hround : ls.round cfg env = .ok p) (hr : ls.Loading r)
    (htreats : ¬ ls.Treats r) : Untouched ls p.state r := by
  have hrun : (ls.req r).status ≠ .running := by
    rw [hr]
    decide
  rcases round_cases hround with rfl | rfl | ⟨q, f, hq, hf, rfl⟩
  · exact .refl ls r
  · exact ⟨rfl, rfl, id⟩
  · exact (touches_candidate hf).untouched (hrounds.candidate_id h hq)
      (fun hEq => htreats (hEq ▸ hq)) hrun

/-- The tail preemption leaves alone who does not run. -/
theorem tailPreempt_untouched {ls' : LoopState K E} (h : ls.tailPreempt = .ok ls')
    (hr : ls.Loading r) : Untouched ls ls' r := by
  unfold tailPreempt at h
  split at h
  · refine foldlM_invariant (I := fun t => Untouched ls t r) h (.refl ls r) fun q _ t t' hI hone => ?_
    have hrun : (t.req r).status ≠ .running := by
      rw [hI.req, hr]
      decide
    rcases tailPreemptOne_cases hone with ⟨-, rfl⟩ | ⟨hq, qm', -, rfl⟩
    · exact hI
    · have hne : r ≠ q := fun hEq => hrun (hEq ▸ hq)
      exact hI.trans ⟨Objs.req_modify_ne hne, SeparateKVCacheManager.getBlocks_free _ hne, id⟩
  · cases h
    exact .refl ls r

/-- A walk that comes to no request whose blocks are loading leaves all of them alone. -/
theorem Walked.untouched (h : Named s) (hpasses : PassesLoading cfg env s)
    (hwalked : Walked cfg env s ls) (hr : s.Loading r) :
    ∃ ls₀, beginStep cfg env s = .ok ls₀ ∧ Untouched ls₀ ls r := by
  obtain ⟨ls₀, ls₁, hbegin, hloop, htail⟩ := hwalked
  refine ⟨ls₀, hbegin, ?_⟩
  have hr₀ : ls₀.Loading r := by
    obtain ⟨objs, requests, hsame, -, -, rfl⟩ := beginStep_eq_ok hbegin
    obtain ⟨p, hp⟩ := hsame.req r
    exact (congrArg Request.status hp).trans hr
  have hround : ∀ t p, Visits (round cfg env) ls₀ t → Untouched ls₀ t r →
      t.round cfg env = .ok p → Untouched ls₀ p.state r := by
    intro t p ht hI hround
    have hrounds : Rounds cfg env s t := ⟨ls₀, hbegin, ht⟩
    have hload : t.Loading r := (congrArg Request.status hI.req).trans hr₀
    exact hI.trans (hrounds.untouched h hround hload fun htreats =>
      hpasses.candidates t hrounds r htreats hload)
  obtain ⟨t, ht, hexit⟩ := loop_exit hloop
  have hI : Untouched ls₀ t r := ht.invariant (I := fun u => Untouched ls₀ u r) (.refl ls₀ r)
    fun u u' hu hI hstep => hround u _ hu hI hstep
  have hI₁ : Untouched ls₀ ls₁ r := hround t _ ht hI hexit
  exact hI₁.trans (tailPreempt_untouched htail ((congrArg Request.status hI₁.req).trans hr₀))

/-- A step that comes to no request whose blocks are loading leaves all of them alone. -/
theorem schedule_leavesLoading (h : Named s) (hpasses : PassesLoading cfg env s)
    (hschedule : schedule cfg env s = .ok (out, s')) (hr : s.Loading r) :
    r ∉ out.numScheduledTokens.keys ∧
      KVCacheManager.getBlocks s'.kv r = KVCacheManager.getBlocks s.kv r ∧ s'.Loading r := by
  obtain ⟨ls, hwalked, hfinish⟩ := schedule_eq_ok hschedule
  obtain ⟨ls₀, hbegin, huntouched⟩ := hwalked.untouched h hpasses hr
  have hfin := finishStep_spec hfinish
  obtain ⟨objs, requests, hsame, -, -, rfl⟩ := beginStep_eq_ok hbegin
  have hnone : r ∉ ls.numScheduledTokens.keys := fun hmem =>
    absurd (huntouched.tokens hmem) List.not_mem_nil
  refine ⟨hfin.numScheduledTokens ▸ hnone, ?_, ?_⟩
  · have hblocks : KVCacheManager.getBlocks ls.sch.kv r = KVCacheManager.getBlocks s.kv r :=
      huntouched.blocks.trans (LawfulKVCacheManager.getBlocks_newStepStarts _ _)
    rw [hfin.kv]
    split
    · rw [LawfulKVCacheManager.getBlocks_takeNewBlockIds]
      exact hblocks
    · exact hblocks
  · obtain ⟨p, hp⟩ := hsame.req r
    rw [Loading, hfin.unscheduled r hnone, huntouched.req]
    exact (congrArg Request.status hp).trans hr

/-- A step that passes over the loading requests leaves them loading. -/
theorem stepLeavesLoading (h : Named s) (hpasses : PassesLoading cfg env s) :
    StepLeavesLoading cfg env s where
  candidates ls hrounds r htreats hr := absurd hr (hpasses.candidates ls hrounds r htreats)
  victims ls hrounds t v hselects hv := absurd hv (hpasses.victims ls hrounds t v hselects)
  rounds ls p hrounds hround r hr := hrounds.untouched h hround hr fun htreats =>
    hpasses.candidates ls hrounds r htreats hr
  steps out s' hschedule r hr := by
    obtain ⟨htokens, hblocks, -⟩ := schedule_leavesLoading h hpasses hschedule hr
    exact ⟨htokens, hblocks⟩

omit [SeparateKVCacheManager K] in
/-- A step that hands out no tokens begins one round and treats nobody. -/
theorem passesLoading_of_paused (h : s.pauseState = .pausedAll) : PassesLoading cfg env s := by
  constructor
  · intro ls hrounds r htreats
    exact absurd htreats.budget (hrounds.spent_of_paused h)
  · intro ls hrounds t v hselects
    cases hselects with
    | forRunning htreats => exact absurd htreats.budget (hrounds.spent_of_paused h)
    | forWaiting htreats => exact absurd htreats.budget (hrounds.spent_of_paused h)

/-- What keeps a step from the requests whose blocks are loading, read off the state before it:
everything is paused, or none is loading, or the running requests that are ranked ahead of the first
of them take all tokens. -/
inductive SparesLoading (cfg : Config) (env : StepEnv) (s : Scheduler K E) : Prop
  | paused : s.pauseState = .pausedAll → SparesLoading cfg env s
  | none : Coherent s → Begins LoopState.Untied cfg env s → (∀ r, ¬ s.Loading r) →
      SparesLoading cfg env s
  | spent : Coherent s →
      Begins (LoopState.SpendsAhead cfg fun q => q.status = .waitingForRemoteKvs) cfg env s →
      SparesLoading cfg env s

omit [SeparateKVCacheManager K] in
/-- Without ties, what the walk has yet to come to is loading only if it was when the step began. -/
theorem Rounds.loading (hrounds : Rounds cfg env s ls) (h : Coherent s)
    (hu : Begins LoopState.Untied cfg env s) :
    ∀ k x, ls.reqIndex ≤ k → ls.qm.combined[k]? = some x → ls.Loading x → s.Loading x := by
  obtain ⟨ls₀, hbegin, hvisits⟩ := hrounds
  refine And.right (hvisits.invariant (I := fun t => (t.Walking ∧ t.Untied) ∧
    ∀ k x, t.reqIndex ≤ k → t.qm.combined[k]? = some x → t.Loading x → s.Loading x)
    ⟨⟨beginStep_walking h hbegin, hu.of_eq_ok hbegin⟩, ?_⟩ fun t t' ht hI hround => ?_)
  · intro k x _ _ hx
    obtain ⟨objs, requests, hsame, -, -, rfl⟩ := beginStep_eq_ok hbegin
    obtain ⟨p, hp⟩ := hsame.req x
    exact (congrArg Request.status hp).symm.trans hx
  · obtain ⟨⟨hw, hut⟩, hloading⟩ := hI
    have houtcome := LoopState.round_outcome hw.walk.toParts.running_waiting hround
    have hmoves : LoopState.Moves cfg (fun _ => True) t t' :=
      LoopState.moves_round houtcome fun _ _ => trivial
    refine ⟨⟨hw.round houtcome fun e he => hw.orderly hut he, hmoves.frame.untied hut⟩,
      fun k x hk hx hload => ?_⟩
    rw [hmoves.frame.combined] at hx
    obtain ⟨hindex, hall⟩ := hw.round_loading hut houtcome
    rcases hall x hload with hbefore | ⟨hstands, hnext⟩
    · exact hloading k x (hindex.trans hk) hx hbefore
    · have := hw.walk.toParts.index_unique hx hstands
      omega

omit [SeparateKVCacheManager K] in
/-- A step that is kept from the requests whose blocks are loading comes to none of them. -/
theorem SparesLoading.passesLoading (h : SparesLoading cfg env s) : PassesLoading cfg env s := by
  obtain ⟨hcoherent, huntied, hcandidates⟩ | hpause : (Coherent s ∧
      Begins LoopState.Untied cfg env s ∧ ∀ ls, Rounds cfg env s ls → ∀ r, ls.Treats r →
        ¬ ls.Loading r) ∨ s.pauseState = .pausedAll := by
    cases h with
    | paused hpause => exact .inr hpause
    | none hcoherent huntied hnone =>
      exact .inl ⟨hcoherent, huntied, fun ls hrounds r htreats hload =>
        hnone r (hrounds.loading hcoherent huntied _ r le_rfl htreats.stands hload)⟩
    | spent hcoherent hspends =>
      have huntied := hspends.mono fun _ h => h.untied
      refine .inl ⟨hcoherent, huntied, fun ls hrounds r htreats hload => ?_⟩
      have hr := hrounds.loading hcoherent huntied _ r le_rfl htreats.stands hload
      obtain ⟨ls₀, hbegin, hspending⟩ := hrounds.spending hcoherent hspends
      have hr₀ : (ls₀.req r).status = .waitingForRemoteKvs := by
        obtain ⟨objs, requests, hsame, -, -, rfl⟩ := beginStep_eq_ok hbegin
        obtain ⟨p, hp⟩ := hsame.req r
        exact (congrArg Request.status hp).trans hr
      have hrest := hspending.rest htreats
      split_ifs at hrest with hR
      · have hrunning := ((beginStep_walking hcoherent hbegin).status r).mpr hR
        rw [hr₀] at hrunning
        cases hrunning
      · simp [hr₀] at hrest
  · refine ⟨hcandidates, fun ls hrounds t v hselects hv => ?_⟩
    obtain ⟨hw, hut⟩ := hrounds.untied hcoherent huntied
    have hvictim : ∀ {q enc args u l kv}, ls.qm.combined[ls.reqIndex]? = some q →
        Visits (allocRound q args) (ls.setEnc enc) u → Preempts q args u l v kv →
          (u.req v).status = .running := by
      intro q enc args u l kv hq ht hpre
      have hgood : ∀ t l v kv, Visits (allocRound q args) (ls.setEnc enc) t →
          Preempts q args t l v kv → t.reqIndex ≤ l := fun t l v kv ht hpre => by
        obtain ⟨hut, hqt⟩ := (hw.setEnc enc).visits_untied cfg (hut.setEnc enc) hq ht
        exact hut.behind hqt hpre
      obtain ⟨hwu, -, -⟩ := (hw.setEnc enc).visits ht hgood
      have hlast := hwu.walk.last.of_last hpre.lastRunning (hgood u l v kv ht hpre)
      exact (hwu.status v).mpr ((QueueManager.standsIn_of_getElem? hpre.stands).mp hlast.1)
    cases hselects with
    | forRunning htreats _ _ _ ht hpre =>
      rw [LoopState.Loading, req_setKv, hvictim htreats.stands ht hpre] at hv
      cases hv
    | forWaiting htreats hreach hW _ _ _ ht hpre =>
      obtain ⟨-, rfl⟩ := hreach.of_disjoint hw.walk.toParts.running_waiting hW
      rw [LoopState.Loading, req_setKv, hvictim htreats.stands ht hpre] at hv
      cases hv
  · exact passesLoading_of_paused hpause

/-! ### The other operations -/

/-- The blocks of the request are still loading, unless it has ended. -/
def StillLoading (s : Scheduler K E) (r : ReqId) : Prop := s.Loading r ∨ (s.req r).isFinished = true

omit [KVCacheManager K] [EncoderCache E] [SeparateKVCacheManager K] in
/-- A request whose status stays goes on loading. -/
theorem StillLoading.of_status (h : s.StillLoading r) (hs : (s'.req r).status = (s.req r).status) :
    s'.StillLoading r := by
  rw [StillLoading, Loading, Request.isFinished, hs]
  exact h

omit [KVCacheManager K] [EncoderCache E] [SeparateKVCacheManager K] in
/-- Ending requests. -/
theorem StillLoading.ended {ids : List ReqId} (h : s.StillLoading r) (hended : Ended cfg ids s s')
    (hids : ∀ x ∈ ids, x ∈ s.objs.keys) : s'.StillLoading r := by
  by_cases hr : r ∈ ids
  · exact .inr (hended.finished r hr (hids r hr))
  · exact h.of_status (congrArg Request.status (hended.others r hr))

omit [SeparateKVCacheManager K] in
/-- Ending requests leaves those that load loading until they are ended. -/
theorem finishRequests_stillLoading {delayFree : ReqId → Bool} {ids : Option (List ReqId)}
    {status : RequestStatus} (hnamed : Named s) (h : s.StillLoading r)
    (hfinish : s.finishRequests cfg delayFree ids status = .ok s') : s'.StillLoading r := by
  have hstart : (s.dequeue (s.validRequests ids)).StillLoading r := h.of_status rfl
  refine hstart.ended (finishRequests_ended hfinish) fun x hx => ?_
  exact hnamed.requests_known x (mem_validRequests hx).1

/-- Among the requests that a step gave tokens to, no session request has its blocks loading. -/
def AnswersNoLoading (out : SchedulerOutput) (s : Scheduler K E) : Prop :=
  ∀ r ∈ out.numScheduledTokens.keys, s.Loading r → (s.req r).resumable = false

omit [SeparateKVCacheManager K] in
/-- Applying the answer for one request changes no other one. -/
theorem processOutput_others {failed : List ReqId} {us us' : UpdateState K E} {e : ReqId × ℤ}
    (hnamed : Named us.sch) (hround : processOutput cfg out mro failed us e = .ok us') {x : ReqId}
    (hx : x ≠ e.1) : us'.sch.req x = us.sch.req x := by
  cases processOutput_outcome hround with
  | passed hus =>
    subst hus
    rfl
  | answered hmem _ hanswer hus =>
    subst hus
    exact (answerRequest_answered (hnamed.requests_known _ hmem) hanswer).2.others x hx
  | stopped hmem _ hanswer hstop =>
    have hk := hnamed.requests_known _ hmem
    obtain ⟨-, hans⟩ := answerRequest_answered hk hanswer
    obtain ⟨-, hended | ⟨-, hgoes⟩⟩ :=
      stopRequest_outcome (hans.keys ▸ hk) ((hans.answered hk).finished rfl) hstop
    · exact (hended.others x fun hmem => hx (List.mem_singleton.mp hmem)).trans (hans.others x hx)
    · exact (hgoes.others x hx).trans (hans.others x hx)

omit [SeparateKVCacheManager K] in
/-- Who is stopped while its blocks are loading is no session, and ends. -/
theorem processOutput_stillLoading {failed : List ReqId} {us us' : UpdateState K E} {e : ReqId × ℤ}
    (hnamed : Named us.sch) (h : us.sch.StillLoading r)
    (hplain : us.sch.Loading e.1 → (us.sch.req e.1).resumable = false)
    (hround : processOutput cfg out mro failed us e = .ok us') : us'.sch.StillLoading r := by
  cases processOutput_outcome hround with
  | passed hus =>
    subst hus
    exact h
  | answered hmem _ hanswer hus =>
    subst hus
    obtain ⟨-, hans⟩ := answerRequest_answered (hnamed.requests_known _ hmem) hanswer
    by_cases hr : r = e.1
    · subst hr
      exact h.of_status ((hans.answered (hnamed.requests_known _ hmem)).status rfl)
    · exact h.of_status (congrArg Request.status (hans.others r hr))
  | @stopped _ sch hmem hlive hanswer hstop =>
    have hk := hnamed.requests_known _ hmem
    obtain ⟨-, hans⟩ := answerRequest_answered hk hanswer
    have hk₁ : e.1 ∈ sch.objs.keys := by rwa [hans.keys]
    obtain ⟨-, houtcome⟩ := stopRequest_outcome hk₁ ((hans.answered hk).finished rfl) hstop
    by_cases hr : r = e.1
    · subst hr
      have hload : us.sch.Loading e.1 := h.resolve_right fun hfin => by simp [hlive] at hfin
      rcases houtcome with hended | ⟨hresumable, -⟩
      · exact .inr (hended.finished e.1 (List.mem_singleton_self _) hk₁)
      · have hsession := (hans.answered hk).resumable hresumable
        rw [hplain hload] at hsession
        cases hsession
    · have hothers : us'.sch.req r = sch.req r := by
        rcases houtcome with hended | ⟨-, hgoes⟩
        · exact hended.others r fun hmem => hr (List.mem_singleton.mp hmem)
        · exact hgoes.others r hr
      exact h.of_status (congrArg Request.status (hothers.trans (hans.others r hr)))

omit [SeparateKVCacheManager K] in
/-- Answering a step lets who is loading load on, or end. -/
theorem updateFromOutput_stillLoading (hnamed : Named s) (h : s.StillLoading r)
    (hplain : AnswersNoLoading out s) (hupdate : s.updateFromOutput cfg out mro = .ok s') :
    s'.StillLoading r := by
  obtain ⟨failed, s₁, us, s₂, -, hrec, hfold, hfail, htransfer⟩ := updateFromOutput_eq_ok hupdate
  have hnamed₁ : Named s₁ := by
    obtain ⟨objs, kv, failedRecving, hsame⟩ := hrec.same
    refine hnamed.of_ids hrec.keys (fun x => ?_) (by rw [hsame]; exact List.Subset.refl _)
      (by rw [hsame]; exact List.Subset.refl _)
    obtain ⟨n, hn⟩ := hrec.req x
    rw [hn]
  have h₁ : s₁.StillLoading r := by
    obtain ⟨n, hn⟩ := hrec.req r
    exact h.of_status (by rw [hn])
  have hplain₁ : ∀ x ∈ out.numScheduledTokens.keys, s₁.Loading x → (s₁.req x).resumable = false := by
    intro x hx hload
    obtain ⟨n, hn⟩ := hrec.req x
    rw [Loading, hn] at hload
    rw [hn]
    exact hplain x hx hload
  have hloop : Named us.sch ∧ us.sch.StillLoading r := by
    refine (foldlM_split (I := fun done us => (Named us.sch ∧ us.sch.StillLoading r) ∧
      ∀ x ∉ done.map Prod.fst, us.sch.req x = s₁.req x) hfold ⟨⟨hnamed₁, h₁⟩, fun _ _ => rfl⟩
        fun done e rest t t' hsplit _ hI hround => ?_).1
    obtain ⟨⟨hnamed, hstill⟩, hsame⟩ := hI
    have hnodup := out.numScheduledTokens.nodup
    have hmem : e.1 ∈ out.numScheduledTokens.keys := by
      rw [Dict.keys, hsplit]
      simp
    rw [hsplit, List.map_append, List.map_cons] at hnodup
    have hreq : t.sch.req e.1 = s₁.req e.1 := hsame e.1 fun hmem =>
      (List.nodup_append'.mp hnodup).2.2 hmem List.mem_cons_self
    refine ⟨⟨processOutput_named hnamed hround,
      processOutput_stillLoading hnamed hstill (fun hload => ?_) hround⟩, fun x hx => ?_⟩
    · rw [Loading, hreq] at hload
      rw [hreq]
      exact hplain₁ e.1 hmem hload
    · rw [List.map_append, List.mem_append, not_or] at hx
      rw [processOutput_others hnamed hround (fun hxe => hx.2 (by simp [hxe])), hsame x hx.1]
  have h₂ : s₂.StillLoading r := by
    have hremoved : (removeStopped us).StillLoading r := hloop.2.of_status rfl
    unfold failKvLoads at hfail
    split at hfail
    · cases hfail
      exact hremoved
    · split at hfail
      · cases hfail
      · refine StillLoading.ended (s := (removeStopped us).dequeue _) (hremoved.of_status rfl)
          (finishRequests_ended hfail) fun x hx => ?_
        exact hloop.1.requests_known x (mem_validRequests hx).1
  obtain ⟨requests, finishedRecving, kv, hsame⟩ := htransfer.same
  exact h₂.of_status (by rw [hsame]; rfl)

omit [KVCacheManager K] [EncoderCache E] [SeparateKVCacheManager K] in
/-- A request whose blocks are loading is known. -/
theorem Loading.known (h : s.Loading r) : r ∈ s.objs.keys := by
  by_contra hno
  rw [Loading, req, Objs.req_of_notMem hno] at h
  cases h

omit [SeparateKVCacheManager K] in
/-- Adding a request leaves those that load loading. -/
theorem addRequest_stillLoading {request : Request} {delayFree : ReqId → Bool} (hnamed : Named s)
    (h : s.Loading r) (hnew : request.requestId ∈ s.requests ∨ request.requestId ∉ s.objs.keys)
    (hadd : s.addRequest cfg delayFree request = .ok s') : s'.StillLoading r := by
  have hstill : s.StillLoading r := .inl h
  cases addRequest_outcome hadd with
  | @chunkQueued queue _ hs' =>
    subst hs'
    exact hstill.of_status (modifyReq_keeps s _ (fun q => { q with streamingQueue := some queue })
      Request.status (fun _ => rfl) r)
  | chunkTaken hmem hwaits hnext =>
    have hr : r ≠ request.requestId := by
      intro hEq
      rw [Loading, hEq, hwaits] at h
      cases h
    have hothers := (hnext (hnamed.requests_known _ hmem)).others r hr
    exact hstill.of_status (congrArg Request.status hothers)
  | sessionEnded _ hfinish => exact finishRequests_stillLoading hnamed hstill hfinish
  | admitted hmem _ _ _ _ hadmitted =>
    have hr : r ≠ request.requestId := fun hEq => hnew.resolve_left hmem (hEq ▸ h.known)
    exact hstill.of_status (congrArg Request.status (hadmitted.others hr))

omit [SeparateKVCacheManager K] in
/-- Resetting the prefix cache leaves those that load loading. -/
theorem resetPrefixCache_stillLoading {reset ok : Bool} (h : s.Loading r)
    (hreset : s.resetPrefixCache reset = .ok (ok, s')) : s'.StillLoading r := by
  have hstill : s.StillLoading r := .inl h
  cases resetPrefixCache_outcome hreset with
  | kept _ hs' =>
    subst hs'
    exact hstill.of_status rfl
  | preempted _ hall =>
    have hr : r ∉ s.running := by
      intro hmem
      have hrunning := hall.wasRunning r hmem
      rw [h] at hrunning
      cases hrunning
    exact hstill.of_status (congrArg Request.status (hall.others r hr))

omit [KVCacheManager K] [EncoderCache E] [SeparateKVCacheManager K] in
/-- Drafts leave those that load loading. -/
theorem updateDraftTokenIds_stillLoading {validateTokens : ReqId → List Token → List Token}
    {drafts : List (ReqId × List Token)} (h : s.StillLoading r) :
    (s.updateDraftTokenIds validateTokens drafts).StillLoading r := by
  obtain ⟨-, -, hreq⟩ := updateDraftTokenIds_same validateTokens s drafts
  obtain ⟨spec, hspec⟩ := hreq r
  exact h.of_status (by rw [hspec])

/-- The requests that `_handle_invalid_blocks` examines. -/
def examined (s : Scheduler K E) : List ReqId :=
  (s.skippedWaiting.iter s.req).filter (fun r => (s.req r).status = .waitingForRemoteKvs) ++ s.running

end Scheduler

namespace System

open Scheduler

variable {K E : Type} [KVCacheManager K] [EncoderCache E] {cfg : Config} {sys sys' : System K E}

/-- The answer reports blocks that could not be loaded. -/
def ReportsInvalid (mro : ModelRunnerOutput) : Prop :=
  (mro.kvConnectorOutput.getD {}).invalidBlockIds ≠ ∅

instance (mro : ModelRunnerOutput) : Decidable (ReportsInvalid mro) :=
  inferInstanceAs (Decidable (_ ≠ _))

/-- The operations that pass requests over whose blocks are loading, by the state before them: a step
is kept from them, an answer is for no session among them, and invalid blocks are reported only
while there is none. -/
def PassesOverLoading (cfg : Config) (sys : System K E) : Op → Prop
  | .schedule env => SparesLoading cfg env sys.sch
  | .updateFromOutput i mro =>
    (ReportsInvalid mro → ∀ r ∈ sys.sch.requests, ¬ sys.sch.Loading r) ∧
      ∀ out, sys.inFlight[i]? = some out → AnswersNoLoading out sys.sch
  | _ => True

/-- What is expected of an operation. -/
structure LeavesLoading (cfg : Config) (sys : System K E) (op : Op) : Prop where
  /-- No step gives tokens or blocks to a request whose blocks are loading, or fails over it. -/
  step : ∀ env, op = .schedule env → StepLeavesLoading cfg env sys.sch
  /-- The request waits until its id is in `finished_recving_kv_req_ids`, or ends. -/
  waits : ∀ sys' r, sys.step cfg op = .ok sys' → sys.sch.Loading r →
    sys'.sch.StillLoading r ∨ r ∈ sys'.sch.finishedRecvingKvReqIds
  /-- Whenever invalid blocks are reported, it is examined for them. -/
  examined : ∀ i mro, op = .updateFromOutput i mro → ReportsInvalid mro →
    ∀ r ∈ sys.sch.requests, sys.sch.Loading r → r ∈ sys.sch.examined

variable [SeparateKVCacheManager K]

/-- An operation that passes over the loading requests leaves them loading. -/
theorem step_stillLoading {op : Op} {r : ReqId} (hnamed : Named sys.sch) (hadm : sys.Admissible op)
    (hok : PassesOverLoading cfg sys op) (hstep : sys.step cfg op = .ok sys')
    (hr : sys.sch.Loading r) : sys'.sch.StillLoading r := by
  cases op with
  | addRequest request delayFree =>
    obtain ⟨sch, hadd, hs⟩ := bind_eq_ok.mp hstep
    cases hs
    exact addRequest_stillLoading hnamed hr hadm hadd
  | schedule env =>
    obtain ⟨⟨out, sch⟩, hschedule, hs⟩ := bind_eq_ok.mp hstep
    cases hs
    exact .inl (schedule_leavesLoading hnamed hok.passesLoading hschedule hr).2.2
  | updateFromOutput i mro =>
    unfold step at hstep
    dsimp only at hstep
    split at hstep
    · cases hstep
    · rename_i out hout
      obtain ⟨sch, hupdate, hs⟩ := bind_eq_ok.mp hstep
      cases hs
      exact updateFromOutput_stillLoading hnamed (.inl hr) (hok.2 out hout) hupdate
  | finishRequests ids status delayFree =>
    obtain ⟨sch, hfinish, hs⟩ := bind_eq_ok.mp hstep
    cases hs
    exact finishRequests_stillLoading hnamed (.inl hr) hfinish
  | setPauseState pauseState =>
    cases hstep
    exact .inl hr
  | resetPrefixCache reset =>
    obtain ⟨⟨ok, sch⟩, hreset, hs⟩ := bind_eq_ok.mp hstep
    cases hs
    exact resetPrefixCache_stillLoading hr hreset
  | updateDraftTokenIds validateTokens drafts =>
    cases hstep
    exact updateDraftTokenIds_stillLoading (.inl hr)

/-- A system with a KV connector. -/
def connectorCfg : Config := { conservationCfg with connector := true }

/-- Half of a prompt of eight tokens is loaded. -/
def loadHalf : List Op :=
  [.addRequest { shortRequest 1 with
      promptTokenIds := [1, 2, 3, 4, 5, 6, 7, 8], numPromptTokens := 8,
      allTokenIds := [1, 2, 3, 4, 5, 6, 7, 8] } fun _ => false,
    .schedule { getNumNewMatchedTokens := fun _ _ => (some 4, true) }]

/-- The answer of a worker that could not load a block. -/
def blockMissing : ModelRunnerOutput :=
  { sampledTokenIds := fun _ => [], kvConnectorOutput := some { invalidBlockIds := {0} } }

/-- Half of the prompt of request 2 is loaded when request 1 comes, which arrived earlier and takes all
tokens of two steps. -/
def loadBehindLong : List Op :=
  [.addRequest (promptRequest 2 8) fun _ => false,
    .schedule { getNumNewMatchedTokens := fun _ _ => (some 4, true) },
    .addRequest (promptRequest 1 20) fun _ => false, .schedule {}]

end System

end RpsServe
