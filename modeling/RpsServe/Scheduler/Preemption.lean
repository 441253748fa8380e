import RpsServe.Scheduler.Frame
import RpsServe.Scheduler.Conservation

/-!
# The three preemptions

A step preempts a running request in three places: for the allocation of a running
candidate, for that of a waiting one, and behind the walk when the token budget is used up.
The first two call `_preempt_request`. The third has a copy of its body, which forgets the
draft tokens and the preemption counter.
-/

namespace RpsServe

namespace LoopState

variable {K E : Type} {ls ls' ls₁ t t' : LoopState K E} {r q v x : ReqId}

/-- No request is preempted between the two states. -/
structure Quiet (ls ls' : LoopState K E) : Prop where
  status : ∀ x, (ls'.req x).status = .preempted → (ls.req x).status = .preempted
  ids : ls'.preemptedReqs = ls.preemptedReqs

/-- A state is quiet to itself. -/
theorem Quiet.refl (ls : LoopState K E) : Quiet ls ls := ⟨fun _ h => h, rfl⟩

/-- Assigning to a request without preempting it. -/
theorem quiet_of_modify {f : Request → Request} (hids : ls'.preemptedReqs = ls.preemptedReqs)
    (hobjs : ls'.sch.objs = ls.sch.objs.modify r f)
    (hf : (f (ls.req r)).status = .preempted → (ls.req r).status = .preempted) : Quiet ls ls' where
  status x hx := by
    have hreq : ls'.req x = Objs.req (ls.sch.objs.modify r f) x := by
      rw [← hobjs]
      rfl
    rw [hreq] at hx
    rcases Objs.req_modify_cases ls.sch.objs r f x with hsame | ⟨rfl, hsame⟩
    · rw [hsame] at hx
      exact hx
    · rw [hsame] at hx
      exact hf hx
  ids := hids

/-- Ignoring a request is quiet. -/
theorem ignore_quiet {f : Flow (LoopState K E)} (h : ls.ignore r = .ok f) :
    Quiet ls f.toPass.state := by
  obtain ⟨qm', -, rfl⟩ := ignore_eq_ok h
  exact quiet_of_modify rfl rfl fun h => nomatch h

/-- Skipping a request is quiet. -/
theorem skip_quiet {f : Flow (LoopState K E)} (h : ls.skip = .ok f) :
    Quiet ls f.toPass.state := by
  obtain ⟨qm', -, rfl⟩ := skip_eq_ok h
  exact ⟨fun _ h => h, rfl⟩

/-- Setting a request loading is quiet. -/
theorem load_quiet {n : ℤ} {f : Flow (LoopState K E)}
    (h : (ls.modifyReq r fun q => { q with
      status := .waitingForRemoteKvs
      numComputedTokens := n }).skip = .ok f) : Quiet ls f.toPass.state := by
  obtain ⟨qm', -, rfl⟩ := skip_eq_ok h
  exact quiet_of_modify rfl rfl fun h => nomatch h

variable [KVCacheManager K] [EncoderCache E] {cfg : Config} {env : StepEnv}
  {args : AllocateSlotsArgs} {l : ℕ} {kv : K}

omit [KVCacheManager K] in
/-- Scheduling a running request is quiet. -/
theorem scheduleRunning_quiet {g : Grant} {newBlocks : KVCacheBlocks}
    (h : ls.scheduleRunning r g newBlocks = .ok ls') : Quiet ls ls' := by
  obtain ⟨enc, spec, -, rfl⟩ := scheduleRunning_eq_ok h
  exact quiet_of_modify rfl rfl fun h => h

/-- Admitting a waiting request is quiet. -/
theorem admitWaiting_quiet {c : CachedPrefix} {g : Grant} (h : ls.admitWaiting cfg r c g = .ok ls') :
    Quiet ls ls' := by
  obtain ⟨newReqs, resumedReqs, qm', enc, -, -, -, rfl⟩ := admitWaiting_eq_ok h
  exact quiet_of_modify rfl rfl fun h => nomatch h

/-! ### Where a step preempts -/

/-- What preempting a victim does. -/
theorem preemptVictim_spec (hpre : Preempts q args t l v kv)
    (h : (t.setKv kv).preemptVictim v = .ok t') :
    t'.req v = Scheduler.preempted (t.req v) ∧ (∀ x, x ≠ v → t'.req x = t.req x) ∧
      t'.sch.kv = KVCacheManager.free kv v ∧ t'.sch.enc = EncoderCache.free t.sch.enc (t.req v) ∧
      v ∈ t'.qm.preemptedReqIds ∧ v ∉ t'.qm.runningReqIds ∧
      t'.preemptedReqs = t.preemptedReqs ++ [v] := by
  obtain ⟨ls₁, qm', hroll, hrun, hqm, rfl⟩ := preemptVictim_eq_ok h
  have hids : ls₁.preemptedReqs = t.preemptedReqs := by
    rcases rollback_cases hroll with ⟨-, rfl⟩ | ⟨-, _, _, -, -, rfl⟩ <;> rfl
  rcases QueueManager.updateIdxsAfterPreemption_cases hqm with ⟨hnone, -⟩ | ⟨l', v', u⟩
  · rw [qm_setKv, hpre.lastRunning] at hnone
    cases hnone
  · obtain rfl : l = l' := Option.some.inj (hpre.lastRunning.symm.trans u.lastRunning)
    obtain rfl : v = v' := Option.some.inj (hpre.stands.symm.trans u.stands)
    refine ⟨Objs.req_modify_self (known_of_running hrun), fun x hx => Objs.req_modify_ne hx,
      rfl, rfl, ?_, ?_, by rw [hids]⟩
    · show v ∈ qm'.preemptedReqIds
      rw [u.preempted]
      exact Finset.mem_insert_self v _
    · show v ∉ qm'.runningReqIds
      rw [u.running]
      exact Finset.notMem_erase v _

/-- What the allocation loop reports from one of its rounds on stays reported. -/
theorem allocLoop_reports {res : Option KVCacheBlocks} (hloop : ls.allocLoop q args = .ok (res, ls'))
    (ht : Visits (allocRound q args) ls t) : t.preemptedReqs ⊆ ls'.preemptedReqs := by
  obtain ⟨n, hrest⟩ := ht.loop_rest hloop
  obtain ⟨u, hu, hexit⟩ := loop_exit hrest
  have hsub : t.preemptedReqs ⊆ u.preemptedReqs :=
    alloc_invariant (I := fun u => t.preemptedReqs ⊆ u.preemptedReqs) hu (List.Subset.refl _)
      fun u l v kv u' _ hI hpre _ hvictim => by
        obtain ⟨-, -, -, -, -, -, hids⟩ := preemptVictim_spec hpre hvictim
        rw [hids]
        exact List.Subset.trans hI (List.subset_append_left _ _)
  cases allocRound_outcome hexit with
  | found | noneRunning | kept => exact hsub
  | itself hpre hvictim =>
    obtain ⟨-, -, -, -, -, -, hids⟩ := preemptVictim_spec hpre hvictim
    rw [hids]
    exact List.Subset.trans hsub (List.subset_append_left _ _)

/-- A preemption of an allocation loop. -/
def AllocPreempts (q : ReqId) (args : AllocateSlotsArgs) (ls t t' : LoopState K E) (v : ReqId) :
    Prop :=
  ∃ t₀ l kv, Visits (allocRound q args) ls t₀ ∧ Preempts q args t₀ l v kv ∧ t = t₀.setKv kv ∧
    t.preemptVictim v = .ok t'

/-- A request that an allocation loop leaves preempted was so before, or is preempted by it. -/
theorem allocLoop_preempted {res : Option KVCacheBlocks}
    (hloop : ls.allocLoop q args = .ok (res, ls')) (hx : (ls'.req x).status = .preempted) :
    (ls.req x).status = .preempted ∨ ∃ t t', AllocPreempts q args ls t t' x := by
  have hone : ∀ {u u' l v kv}, Visits (allocRound q args) ls u → Preempts q args u l v kv →
      (u.setKv kv).preemptVictim v = .ok u' → (u'.req x).status = .preempted →
      (u.req x).status = .preempted ∨ ∃ t t', AllocPreempts q args ls t t' x := by
    intro u u' l v kv hu hpre hvictim hx
    obtain ⟨-, hothers, -⟩ := preemptVictim_spec hpre hvictim
    by_cases hxv : x = v
    · subst hxv
      exact .inr ⟨_, u', u, l, kv, hu, hpre, rfl, hvictim⟩
    · rw [hothers x hxv] at hx
      exact .inl hx
  obtain ⟨u, hu, hexit⟩ := allocLoop_outcome hloop
  have hstart : (u.req x).status = .preempted →
      (ls.req x).status = .preempted ∨ ∃ t t', AllocPreempts q args ls t t' x :=
    hu.invariant (I := fun u => (u.req x).status = .preempted →
      (ls.req x).status = .preempted ∨ ∃ t t', AllocPreempts q args ls t t' x) .inl
      fun w w' hw hI hround hx => by
        cases allocRound_outcome hround with
        | other hpre _ hvictim =>
          rcases hone hw hpre hvictim hx with hx | hx
          exacts [hI hx, .inr hx]
  cases hexit with
  | found | noneRunning | kept => exact hstart hx
  | itself hpre hvictim =>
    rcases hone hu hpre hvictim hx with hx | hx
    exacts [hstart hx, .inr hx]

/-- A request that an allocation loop preempts is reported when the loop is left. -/
theorem AllocPreempts.reported {res : Option KVCacheBlocks} (h : AllocPreempts q args ls t t' v)
    (hloop : ls.allocLoop q args = .ok (res, ls')) : v ∈ ls'.preemptedReqs := by
  obtain ⟨t₀, l, kv, ht₀, hpre, rfl, hvictim⟩ := h
  have hv : v ∈ t'.preemptedReqs := by
    obtain ⟨-, -, -, -, -, -, hids⟩ := preemptVictim_spec hpre hvictim
    simp [hids]
  have hround : t₀.allocRound q args =
      .ok (if v = q then .done (none, t') else .next t') := by
    unfold allocRound
    rw [hpre.noBlocks]
    simp only [bind, Except.bind, qm_setKv, req_setKv, hpre.lastRunning, hpre.stands, hpre.passes,
      hvictim, Bool.false_eq_true, if_false]
    split <;> rfl
  by_cases hvq : v = q
  · rw [if_pos hvq] at hround
    obtain ⟨n, hrest⟩ := ht₀.loop_rest hloop
    cases n with
    | zero => simp [loop] at hrest
    | succ n =>
      rw [loop, hround] at hrest
      cases hrest
      exact hv
  · rw [if_neg hvq] at hround
    exact allocLoop_reports hloop (ht₀.next hround) hv

/-! ### Rounds -/

/-- The branch of a running candidate preempts in its allocation loop only. -/
theorem runningCandidate_preempts {f : Flow (LoopState K E)}
    (h : ls.runningCandidate cfg env q = .ok f) :
    Quiet ls f.toPass.state ∨ ∃ enc g res ls₁, ls.runningGrant cfg env q = .ok (enc, g) ∧
      g.numNewTokens ≠ 0 ∧ (ls.setEnc enc).allocLoop q (runningArgs cfg g) = .ok (res, ls₁) ∧
      Quiet ls₁ f.toPass.state := by
  cases runningCandidate_outcome h with
  | noTokens => exact .inl ⟨fun _ h => h, rfl⟩
  | noBlocks hgrant hpos halloc => exact .inr ⟨_, _, _, _, hgrant, hpos, halloc, .refl _⟩
  | scheduled hgrant hpos halloc hsched =>
    exact .inr ⟨_, _, _, _, hgrant, hpos, halloc, scheduleRunning_quiet hsched⟩

/-- The branch of a waiting candidate preempts in its allocation loop only. -/
theorem waitingCandidate_preempts {f : Flow (LoopState K E)}
    (h : ls.waitingCandidate cfg env q = .ok f) :
    Quiet ls f.toPass.state ∨ ∃ c enc g res ls₁, ls.cachedPrefix cfg env q = .ok (some c) ∧
      ls.waitingGrant cfg env q c = .ok (.granted enc g) ∧
      (ls.setEnc enc).allocLoop q (waitingArgs cfg (ls.req q) c g) = .ok (res, ls₁) ∧
      Quiet ls₁ f.toPass.state := by
  cases waitingCandidate_outcome h with
  | ignoredPrompt _ hignore => exact .inl (ignore_quiet hignore)
  | skipped _ hskip => exact .inl (skip_quiet hskip)
  | ignoredEncoderInputs _ _ hignore => exact .inl (ignore_quiet hignore)
  | blocked => exact .inl ⟨fun _ h => h, rfl⟩
  | noBlocks hc hg halloc =>
    refine .inr ⟨_, _, _, _, _, hc, hg, halloc, ?_⟩
    dsimp only [Flow.toPass, Pass.state]
    split
    exacts [⟨fun _ h => h, rfl⟩, .refl _]
  | loading hc hg halloc _ hskip => exact .inr ⟨_, _, _, _, _, hc, hg, halloc, load_quiet hskip⟩
  | admitted hc hg halloc _ hadmitted =>
    exact .inr ⟨_, _, _, _, _, hc, hg, halloc, admitWaiting_quiet hadmitted⟩

/-- What is reported before the branch of a running candidate stays reported. -/
theorem runningCandidate_reports {f : Flow (LoopState K E)}
    (h : ls.runningCandidate cfg env q = .ok f) : ls.preemptedReqs ⊆ f.toPass.state.preemptedReqs := by
  rcases runningCandidate_preempts h with hquiet | ⟨enc, g, res, ls₁, -, -, halloc, hquiet⟩
  · rw [hquiet.ids]
    exact List.Subset.refl _
  · have hsub : (ls.setEnc enc).preemptedReqs ⊆ ls₁.preemptedReqs := allocLoop_reports halloc .start
    rw [hquiet.ids]
    exact hsub

/-- A waiting candidate keeps the preempted requests reported. -/
theorem waitingCandidate_reports {f : Flow (LoopState K E)}
    (h : ls.waitingCandidate cfg env q = .ok f) : ls.preemptedReqs ⊆ f.toPass.state.preemptedReqs := by
  rcases waitingCandidate_preempts h with hquiet | ⟨c, enc, g, res, ls₁, -, -, halloc, hquiet⟩
  · rw [hquiet.ids]
    exact List.Subset.refl _
  · have hsub : (ls.setEnc enc).preemptedReqs ⊆ ls₁.preemptedReqs := allocLoop_reports halloc .start
    rw [hquiet.ids]
    exact hsub

/-- Where a candidate is reached, the preempted requests are still reported. -/
theorem ReachesWaiting.reports (h : ls.ReachesWaiting cfg env q ls₁) :
    ls.preemptedReqs ⊆ ls₁.preemptedReqs := by
  unfold ReachesWaiting at h
  split at h
  · exact runningCandidate_reports h
  · cases h
    exact List.Subset.refl _

/-- What is reported before a round stays reported. -/
theorem round_reports {p : Pass (LoopState K E) (LoopState K E)} (h : ls.round cfg env = .ok p) :
    ls.preemptedReqs ⊆ p.state.preemptedReqs := by
  rcases round_cases h with rfl | rfl | ⟨q, f, -, hf, rfl⟩
  · exact List.Subset.refl _
  · exact List.Subset.refl _
  · rcases candidate_cases hf with ⟨-, hrunning⟩ | ⟨ls₁, hreach, ⟨-, hwaiting⟩ | ⟨-, rfl⟩⟩
    · exact runningCandidate_reports hrunning
    · exact List.Subset.trans hreach.reports (waitingCandidate_reports hwaiting)
    · exact hreach.reports

/-- What is reported when the main loop has come to a round stays reported to its end. -/
theorem mainLoop_reports {n : ℕ} (h : loop (round cfg env) .diverges n ls = .ok ls') :
    ls.preemptedReqs ⊆ ls'.preemptedReqs := by
  obtain ⟨t, ht, hexit⟩ := loop_exit h
  have hsub : ls.preemptedReqs ⊆ t.preemptedReqs :=
    ht.invariant (I := fun t => ls.preemptedReqs ⊆ t.preemptedReqs) (List.Subset.refl _)
      fun u u' _ hI hround => List.Subset.trans hI (round_reports hround)
  exact List.Subset.trans hsub (round_reports hexit)

/-- A tail preemption keeps the preempted requests reported. -/
theorem tailPreemptOne_reports (h : t.tailPreemptOne r = .ok t') :
    t.preemptedReqs ⊆ t'.preemptedReqs := by
  rcases tailPreemptOne_cases h with ⟨-, rfl⟩ | ⟨-, qm', -, rfl⟩
  exacts [List.Subset.refl _, List.subset_append_left _ _]

/-- The tail preemptions keep the preempted requests reported. -/
theorem tailPreempt_reports {rs : List ReqId} (h : rs.foldlM tailPreemptOne t = .ok t') :
    t.preemptedReqs ⊆ t'.preemptedReqs :=
  foldlM_invariant (I := fun u => t.preemptedReqs ⊆ u.preemptedReqs) h (List.Subset.refl _)
    fun _ _ _ _ hI hone => List.Subset.trans hI (tailPreemptOne_reports hone)

end LoopState

namespace Scheduler

open LoopState

/-- The places in which a step preempts a request. -/
inductive PreemptionPath where
  /-- For the allocation of a running candidate. -/
  | runningAllocation
  /-- For the allocation of a waiting candidate. -/
  | waitingAllocation
  /-- Behind the walk, the token budget being used up. -/
  | tail
deriving DecidableEq

variable {K E : Type} [KVCacheManager K] [EncoderCache E] {cfg : Config} {env : StepEnv}
  {s s' : Scheduler K E} {out : SchedulerOutput} {ls t t' : LoopState K E} {r : ReqId}
  {path : PreemptionPath}

/-- The preemptions of the step from `s`: the request, and the variables before and after. -/
inductive Preemption (cfg : Config) (env : StepEnv) (s : Scheduler K E) :
    PreemptionPath → LoopState K E → LoopState K E → ReqId → Prop
  | forRunning {ls q enc g t t' v} : Rounds cfg env s ls → ls.Treats q →
      q ∈ ls.qm.runningReqIds → ls.runningGrant cfg env q = .ok (enc, g) → g.numNewTokens ≠ 0 →
      AllocPreempts q (runningArgs cfg g) (ls.setEnc enc) t t' v →
      Preemption cfg env s .runningAllocation t t' v
  | forWaiting {ls ls₁ q c enc g t t' v} : Rounds cfg env s ls → ls.Treats q →
      ls.ReachesWaiting cfg env q ls₁ → q ∈ ls₁.qm.waitingReqIds →
      oversizePrompt cfg (ls₁.req q) = false → ls₁.cachedPrefix cfg env q = .ok (some c) →
      ls₁.waitingGrant cfg env q c = .ok (.granted enc g) →
      AllocPreempts q (waitingArgs cfg (ls₁.req q) c g) (ls₁.setEnc enc) t t' v →
      Preemption cfg env s .waitingAllocation t t' v
  | behind {ls₀ ls₁ done r rest t t'} : beginStep cfg env s = .ok ls₀ →
      ls₀.mainLoop cfg env = .ok ls₁ → ls₁.tokenBudget = 0 →
      ls₁.qm.combined.drop ls₁.reqIndex = done ++ r :: rest →
      done.foldlM tailPreemptOne ls₁ = .ok t → (t.req r).status = .running →
      t.tailPreemptOne r = .ok t' → Preemption cfg env s .tail t t' r

/-- What a round has reported is still reported when the main loop ends. -/
theorem listed_of_round {ls₀ ls₁ : LoopState K E} {p : Pass (LoopState K E) (LoopState K E)}
    (ht : Visits (LoopState.round cfg env) ls₀ ls) (hloop : ls₀.mainLoop cfg env = .ok ls₁)
    (hround : ls.round cfg env = .ok p) (hr : r ∈ p.state.preemptedReqs) :
    r ∈ ls₁.preemptedReqs := by
  obtain ⟨n, hrest⟩ := ht.loop_rest hloop
  cases n with
  | zero => simp [loop] at hrest
  | succ n =>
    rw [loop, hround] at hrest
    cases p with
    | done ls₁' =>
      cases hrest
      exact hr
    | next ls' => exact mainLoop_reports hrest hr

/-- A main loop that returns returned from every round. -/
theorem round_eq_ok {ls₀ ls₁ : LoopState K E} (ht : Visits (LoopState.round cfg env) ls₀ ls)
    (hloop : ls₀.mainLoop cfg env = .ok ls₁) : ∃ p, ls.round cfg env = .ok p := by
  obtain ⟨n, hrest⟩ := ht.loop_rest hloop
  cases n with
  | zero => simp [loop] at hrest
  | succ n =>
    rw [loop] at hrest
    split at hrest
    · cases hrest
    · rename_i p hp
      exact ⟨_, hp⟩
    · rename_i p hp
      exact ⟨_, hp⟩

/-- A round that treats a request is the round of its branches. -/
theorem candidate_of_round {p : Pass (LoopState K E) (LoopState K E)} {q : ReqId}
    (h : ls.round cfg env = .ok p) (htreats : ls.Treats q) :
    ∃ f, ls.candidate cfg env q = .ok f ∧ p = f.toPass := by
  unfold LoopState.round at h
  rw [htreats.stands] at h
  dsimp only at h
  rw [if_neg (not_le.mpr htreats.budget), if_neg htreats.notPreempted,
    if_neg (by simp [htreats.notPassed])] at h
  obtain ⟨f, hf, h⟩ := bind_eq_ok.mp h
  refine ⟨f, hf, ?_⟩
  cases f <;> cases h <;> rfl

/-- What the allocation loop of a running candidate preempts is reported when its branch ends. -/
theorem running_reported {q v : ReqId} {enc : E} {g : Grant} {f : Flow (LoopState K E)}
    (hgrant : ls.runningGrant cfg env q = .ok (enc, g)) (hpos : g.numNewTokens ≠ 0)
    (halloc : AllocPreempts q (runningArgs cfg g) (ls.setEnc enc) t t' v)
    (h : ls.runningCandidate cfg env q = .ok f) : v ∈ f.toPass.state.preemptedReqs := by
  cases runningCandidate_outcome h with
  | noTokens hgrant' hzero =>
    cases hgrant.symm.trans hgrant'
    exact absurd hzero hpos
  | noBlocks hgrant' _ hloop =>
    cases hgrant.symm.trans hgrant'
    exact halloc.reported hloop
  | scheduled hgrant' _ hloop hsched =>
    cases hgrant.symm.trans hgrant'
    rw [Flow.toPass, Pass.state, (scheduleRunning_quiet hsched).ids]
    exact halloc.reported hloop

/-- What the allocation loop of a waiting candidate preempts is reported when its branch ends. -/
theorem waiting_reported {q v : ReqId} {c : CachedPrefix} {enc : E} {g : Grant}
    {f : Flow (LoopState K E)} (hc : ls.cachedPrefix cfg env q = .ok (some c))
    (hg : ls.waitingGrant cfg env q c = .ok (.granted enc g))
    (halloc : AllocPreempts q (waitingArgs cfg (ls.req q) c g) (ls.setEnc enc) t t' v)
    (h : ls.waitingCandidate cfg env q = .ok f) (hsize : oversizePrompt cfg (ls.req q) = false) :
    v ∈ f.toPass.state.preemptedReqs := by
  cases waitingCandidate_outcome h with
  | ignoredPrompt hsize' => simp [hsize] at hsize'
  | skipped hc' => cases hc.symm.trans hc'
  | ignoredEncoderInputs hc' hg' =>
    cases hc.symm.trans hc'
    cases hg.symm.trans hg'
  | blocked hc' hg' =>
    cases hc.symm.trans hc'
    cases hg.symm.trans hg'
  | noBlocks hc' hg' hloop =>
    cases hc.symm.trans hc'
    cases hg.symm.trans hg'
    have hv := halloc.reported hloop
    dsimp only [Flow.toPass, Pass.state]
    split
    exacts [hv, hv]
  | loading hc' hg' hloop _ hskip =>
    cases hc.symm.trans hc'
    cases hg.symm.trans hg'
    rw [(load_quiet hskip).ids]
    exact halloc.reported hloop
  | admitted hc' hg' hloop _ hadmitted =>
    cases hc.symm.trans hc'
    cases hg.symm.trans hg'
    rw [Flow.toPass, Pass.state, (admitWaiting_quiet hadmitted).ids]
    exact halloc.reported hloop

/-- What an allocation loop preempts is reported when the main loop ends. -/
theorem Preemption.listed {ls₀ ls₁ : LoopState K E} (h : Preemption cfg env s path t t' r)
    (hbegin : beginStep cfg env s = .ok ls₀) (hloop : ls₀.mainLoop cfg env = .ok ls₁)
    (hpath : path ≠ .tail) : r ∈ ls₁.preemptedReqs := by
  cases h with
  | @forRunning ls q _ _ _ _ _ hrounds htreats hR hgrant hpos halloc =>
    obtain ⟨ls₀', hbegin', ht⟩ := hrounds
    obtain rfl : ls₀ = ls₀' := Except.ok.inj (hbegin.symm.trans hbegin')
    obtain ⟨p, hp⟩ := round_eq_ok ht hloop
    obtain ⟨f, hf, rfl⟩ := candidate_of_round hp htreats
    refine listed_of_round ht hloop hp ?_
    rcases candidate_cases hf with ⟨-, hrunning⟩ | ⟨ls₁, hreach, hrest⟩
    · exact running_reported hgrant hpos halloc hrunning
    · rw [ReachesWaiting, if_pos hR] at hreach
      have hmem : r ∈ ls₁.preemptedReqs := running_reported hgrant hpos halloc hreach
      rcases hrest with ⟨-, hwaiting⟩ | ⟨-, rfl⟩
      exacts [waitingCandidate_reports hwaiting hmem, hmem]
  | forWaiting hrounds htreats hreach hW hsize hc hg halloc =>
    obtain ⟨ls₀', hbegin', ht⟩ := hrounds
    obtain rfl : ls₀ = ls₀' := Except.ok.inj (hbegin.symm.trans hbegin')
    obtain ⟨p, hp⟩ := round_eq_ok ht hloop
    obtain ⟨f, hf, rfl⟩ := candidate_of_round hp htreats
    refine listed_of_round ht hloop hp ?_
    obtain ⟨f₁, hrunning, hf⟩ := bind_eq_ok.mp hf
    cases hrunning.symm.trans hreach
    dsimp only at hf
    rw [if_pos hW] at hf
    exact waiting_reported hc hg halloc hf hsize
  | behind => exact absurd rfl hpath

/-- A round preempts only in the two allocation loops. -/
theorem preempted_of_round {p : Pass (LoopState K E) (LoopState K E)}
    (hrounds : Rounds cfg env s ls) (hround : ls.round cfg env = .ok p)
    (hr : (p.state.req r).status = .preempted) :
    (ls.req r).status = .preempted ∨ ∃ path t t', Preemption cfg env s path t t' r := by
  rcases round_cases hround with rfl | rfl | ⟨q, f, htreats, hf, rfl⟩
  · exact .inl hr
  · exact .inl hr
  have hrunning : ∀ {f : Flow (LoopState K E)}, q ∈ ls.qm.runningReqIds →
      ls.runningCandidate cfg env q = .ok f → (f.toPass.state.req r).status = .preempted →
      (ls.req r).status = .preempted ∨ ∃ path t t', Preemption cfg env s path t t' r := by
    intro f hR hrunning hr
    rcases runningCandidate_preempts hrunning with hquiet | ⟨enc, g, res, ls₁, hgrant, hpos, hloop, hquiet⟩
    · exact .inl (hquiet.status r hr)
    · rcases allocLoop_preempted hloop (hquiet.status r hr) with hr | ⟨t, t', halloc⟩
      exacts [.inl hr, .inr ⟨_, t, t', .forRunning hrounds htreats hR hgrant hpos halloc⟩]
  have hreached : ∀ {ls₁}, ls.ReachesWaiting cfg env q ls₁ → (ls₁.req r).status = .preempted →
      (ls.req r).status = .preempted ∨ ∃ path t t', Preemption cfg env s path t t' r := by
    intro ls₁ hreach hr
    unfold ReachesWaiting at hreach
    split at hreach
    · rename_i hR
      exact hrunning hR hreach hr
    · cases hreach
      exact .inl hr
  rcases candidate_cases hf with ⟨hR, hcand⟩ | ⟨ls₁, hreach, ⟨hW, hwaiting⟩ | ⟨-, rfl⟩⟩
  · exact hrunning hR hcand hr
  · cases hsize : oversizePrompt cfg (ls₁.req q) with
    | true =>
      rw [waitingCandidate, if_pos hsize] at hwaiting
      exact hreached hreach ((ignore_quiet hwaiting).status r hr)
    | false =>
      rcases waitingCandidate_preempts hwaiting with
        hquiet | ⟨c, enc, g, res, ls₂, hc, hg, hloop, hquiet⟩
      · exact hreached hreach (hquiet.status r hr)
      · rcases allocLoop_preempted hloop (hquiet.status r hr) with hr | ⟨t, t', halloc⟩
        · exact hreached hreach hr
        · exact .inr ⟨_, t, t', .forWaiting hrounds htreats hreach hW hsize hc hg halloc⟩
  · exact hreached hreach hr

/-- A request that a step leaves preempted was so before, or one of the three places did it. -/
theorem preemption_of_schedule (hschedule : schedule cfg env s = .ok (out, s'))
    (hr : (s'.req r).status = .preempted) :
    (s.req r).status = .preempted ∨ ∃ path t t', Preemption cfg env s path t t' r := by
  obtain ⟨ls₂, ⟨ls₀, ls₁, hbegin, hloop, htail⟩, hfinish⟩ := schedule_eq_ok hschedule
  rw [(finishStep_spec hfinish).status] at hr
  have hstart : (ls₀.req r).status = (s.req r).status := by
    obtain ⟨objs, requests, hsame, -, -, rfl⟩ := beginStep_eq_ok hbegin
    obtain ⟨p, hp⟩ := hsame.req r
    rw [LoopState.req, req, hp]
    rfl
  obtain ⟨u, hu, hexit⟩ := loop_exit hloop
  have hmain : (ls₁.req r).status = .preempted →
      (s.req r).status = .preempted ∨ ∃ path t t', Preemption cfg env s path t t' r := by
    intro hr
    have hvisited : (u.req r).status = .preempted →
        (s.req r).status = .preempted ∨ ∃ path t t', Preemption cfg env s path t t' r :=
      hu.invariant (I := fun u => (u.req r).status = .preempted →
          (s.req r).status = .preempted ∨ ∃ path t t', Preemption cfg env s path t t' r)
        (fun hr => .inl (hstart ▸ hr)) fun w w' hw hI hround hr =>
          (preempted_of_round ⟨ls₀, hbegin, hw⟩ hround hr).elim hI .inr
    exact (preempted_of_round ⟨ls₀, hbegin, hu⟩ hexit hr).elim hvisited .inr
  unfold tailPreempt at htail
  split at htail
  · rename_i hbudget
    refine foldlM_split (I := fun _ t => (t.req r).status = .preempted →
        (s.req r).status = .preempted ∨ ∃ path t t', Preemption cfg env s path t t' r) htail hmain
      (fun done x rest t t' hsplit hdone hI hone hr => ?_) hr
    rcases tailPreemptOne_cases hone with ⟨-, rfl⟩ | ⟨hrun, qm', -, ht'⟩
    · exact hI hr
    · by_cases hx : r = x
      · subst hx
        exact .inr ⟨_, t, t', .behind hbegin hloop hbudget.1 hsplit hdone hrun hone⟩
      · have hsame : t'.req r = t.req r := by
          rw [ht']
          exact Objs.req_modify_ne hx
        exact hI (hsame ▸ hr)
  · cases htail
    exact hmain hr

end Scheduler

end RpsServe
