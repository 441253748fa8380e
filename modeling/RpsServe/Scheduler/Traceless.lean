import RpsServe.Scheduler.Lookups
import RpsServe.Scheduler.Named
import RpsServe.EncoderCache.Gains
import RpsServe.KVCache.FullAttention

/-!
# Candidates that are passed over

What a step leaves of a waiting request that it considers and does not schedule. Every exit
but one leaves no trace: a candidate that is ignored or skipped was not looked up yet, and
one that finds no blocks gives its references up again. But where the walk ends before
blocks are asked for, the references that the lookups took stay with a request that waits.
-/

namespace RpsServe

open EncoderCacheManager

/-! ### References in a round -/

/-- A walk over items gives references to their request only. -/
theorem gains_rule (m : EncoderCacheManager) (q : Request) (lookups : List (ℕ × EncoderCacheManager)) :
    LookupRule q lookups (GainsOnly {q.requestId} m) where
  lookup _ _ _ _ _ _ hI hcheck := hI.trans (checkAndUpdateCache_gains hcheck)
  room _ _ _ _ _ _ hI hcan :=
    hI.trans ((canAllocate_evicts hcan).gainsOnly.mono (Set.empty_subset _))

/-- Allocating inputs gains references only. -/
theorem allocateEncoderInputs_gains {q : Request} {inputs : List ℕ} {m m' : EncoderCacheManager}
    (h : allocateEncoderInputs q inputs m = .ok m') : GainsOnly {q.requestId} m m' := by
  induction inputs generalizing m with
  | nil =>
    cases h
    exact .refl _ _
  | cons i rest ih =>
    obtain ⟨m₁, halloc, h⟩ := bind_eq_ok.mp h
    exact (allocate_gains halloc).trans (ih h)

namespace LoopState

variable {K : Type} [KVCacheManager K] {cfg : Config} {env : StepEnv} {q r v : ReqId}
  {args : AllocateSlotsArgs} {l : ℕ} {kv : K} {ls ls' t t' : LoopState K EncoderCacheManager}

/-- Preempting a victim gains no reference. -/
theorem preemptVictim_gains (h : (t.setKv kv).preemptVictim v = .ok t') :
    GainsOnly ∅ t.sch.enc t'.sch.enc := by
  obtain ⟨ls₁, qm', -, -, -, rfl⟩ := preemptVictim_eq_ok h
  exact free_gains t.sch.enc (t.req v)

/-- The allocation loop gains no reference. -/
theorem allocLoop_gains {res : Option KVCacheBlocks} (h : ls.allocLoop q args = .ok (res, ls')) :
    GainsOnly ∅ ls.sch.enc ls'.sch.enc := by
  obtain ⟨t, ht, hexit⟩ := allocLoop_outcome h
  have hvisited : GainsOnly ∅ ls.sch.enc t.sch.enc :=
    alloc_invariant (I := fun t => GainsOnly ∅ ls.sch.enc t.sch.enc) ht (.refl _ _)
      fun u l v kv u' _ hI _ _ hvictim => hI.trans (preemptVictim_gains hvictim)
  cases hexit with
  | found | noneRunning | kept => exact hvisited
  | itself _ hvictim => exact hvisited.trans (preemptVictim_gains hvictim)

section Gains

variable [SeparateKVCacheManager K]

/-- The allocation loop leaves the id of a request. -/
theorem allocLoop_requestId {res : Option KVCacheBlocks} (h : ls.allocLoop q args = .ok (res, ls')) :
    (ls'.req r).requestId = (ls.req r).requestId := by
  obtain ⟨_, _, _, _, hsame⟩ := (touches_allocLoop h).inputs r
  rw [hsame]

omit [KVCacheManager K] [SeparateKVCacheManager K] in
/-- Changing a request without its id leaves the ids. -/
theorem modifyReq_requestId {f : Request → Request} (hf : ∀ q, (f q).requestId = q.requestId) :
    ((ls.modifyReq q f).req r).requestId = (ls.req r).requestId :=
  Scheduler.modifyReq_keeps ls.sch q f Request.requestId hf r

omit [KVCacheManager K] [SeparateKVCacheManager K] in
/-- The grant of a running candidate gives references to nobody else. -/
theorem runningGrant_gains {enc : EncoderCacheManager} {g : Grant} (hid : (ls.req q).requestId = q)
    (h : ls.runningGrant cfg env q = .ok (enc, g)) : GainsOnly {q} ls.sch.enc enc := by
  obtain ⟨p, hp, h⟩ := bind_eq_ok.mp h
  obtain ⟨n, -, h⟩ := bind_eq_ok.mp h
  cases h
  have hgains := tryScheduleEncoderInputs_rule hp (.refl _ _) (gains_rule ls.sch.enc (ls.req q) _)
  rwa [hid] at hgains

omit [KVCacheManager K] [SeparateKVCacheManager K] in
/-- The lookups of a waiting candidate give references to nobody else. -/
theorem waitingLookups_gains (cfg : Config) (env : StepEnv) (c : CachedPrefix)
    (hid : (ls.req q).requestId = q) : LookupRule (ls.req q) (ls.waitingLookups cfg env q c)
      (GainsOnly {q} ls.sch.enc) := by
  have hgains := gains_rule ls.sch.enc (ls.req q) (ls.waitingLookups cfg env q c)
  rwa [hid] at hgains

omit [KVCacheManager K] [SeparateKVCacheManager K] in
/-- A running candidate that is scheduled gains references only for itself. -/
theorem scheduleRunning_gains {g : Grant} {newBlocks : KVCacheBlocks}
    (hid : (ls.req q).requestId = q) (h : ls.scheduleRunning q g newBlocks = .ok ls') :
    GainsOnly {q} ls.sch.enc ls'.sch.enc := by
  obtain ⟨enc', spec, henc, rfl⟩ := scheduleRunning_eq_ok h
  have hgains := allocateEncoderInputs_gains henc
  have hself : ((ls.modifyReq q fun q => { q with specTokenIds := [] }).req q).requestId =
      (ls.req q).requestId := modifyReq_requestId fun _ => rfl
  rwa [hself, hid] at hgains

omit [SeparateKVCacheManager K] in
/-- A waiting candidate that is admitted gains references only for itself. -/
theorem admitWaiting_gains {c : CachedPrefix} {g : Grant} (hid : (ls.req q).requestId = q)
    (h : ls.admitWaiting cfg q c g = .ok ls') : GainsOnly {q} ls.sch.enc ls'.sch.enc := by
  obtain ⟨newReqs, resumedReqs, qm', enc', -, -, henc, rfl⟩ := admitWaiting_eq_ok h
  have hgains := allocateEncoderInputs_gains henc
  have hself : ((ls.modifyReq q fun q =>
      { q with status := .running, numComputedTokens := c.numComputedTokens }).req q).requestId =
        (ls.req q).requestId := modifyReq_requestId fun _ => rfl
  rwa [hself, hid] at hgains

/-- The branch of a running candidate gives references to nobody else. -/
theorem runningCandidate_gains {f : Flow (LoopState K EncoderCacheManager)}
    (hid : (ls.req q).requestId = q) (h : ls.runningCandidate cfg env q = .ok f) :
    GainsOnly {q} ls.sch.enc f.toPass.state.sch.enc := by
  cases runningCandidate_outcome h with
  | noTokens hg => exact runningGrant_gains hid hg
  | noBlocks hg _ halloc =>
    exact (runningGrant_gains hid hg).trans ((allocLoop_gains halloc).mono (Set.empty_subset _))
  | scheduled hg _ halloc hsched =>
    have hloop := (runningGrant_gains hid hg).trans
      ((allocLoop_gains halloc).mono (Set.empty_subset _))
    exact hloop.trans (scheduleRunning_gains ((allocLoop_requestId halloc).trans hid) hsched)

/-- The branch of a waiting candidate gives references to nobody else. -/
theorem waitingCandidate_gains {f : Flow (LoopState K EncoderCacheManager)}
    (hid : (ls.req q).requestId = q) (h : ls.waitingCandidate cfg env q = .ok f) :
    GainsOnly {q} ls.sch.enc f.toPass.state.sch.enc := by
  have hrule := fun c => waitingLookups_gains cfg env c hid
  have hloop : ∀ {c enc g args res ls₁}, ls.waitingGrant cfg env q c = .ok (.granted enc g) →
      (ls.setEnc enc).allocLoop q args = .ok (res, ls₁) → GainsOnly {q} ls.sch.enc ls₁.sch.enc :=
    fun hg halloc => ((waitingGrant_rule hg (.refl _ _) (hrule _)).2 _ _ rfl).trans
      ((allocLoop_gains halloc).mono (Set.empty_subset _))
  cases waitingCandidate_outcome h with
  | ignoredPrompt _ hignore | ignoredEncoderInputs _ _ hignore =>
    obtain ⟨qm', -, rfl⟩ := ignore_eq_ok hignore
    exact .refl _ _
  | skipped _ hskip =>
    obtain ⟨qm', -, rfl⟩ := skip_eq_ok hskip
    exact .refl _ _
  | blocked _ hg => exact (waitingGrant_rule hg (.refl _ _) (hrule _)).1 _ rfl
  | @noBlocks _ _ _ ls₁ _ hg halloc =>
    have hgains := hloop hg halloc
    dsimp only [Flow.toPass, Pass.state]
    split
    · exact hgains.trans ((free_gains ls₁.sch.enc (ls₁.req q)).mono (Set.empty_subset _))
    · exact hgains
  | loading _ hg halloc _ hskip =>
    have hgains := hloop hg halloc
    obtain ⟨qm', -, rfl⟩ := skip_eq_ok hskip
    exact hgains
  | admitted _ hg halloc _ hadmitted =>
    exact (hloop hg halloc).trans
      (admitWaiting_gains ((allocLoop_requestId halloc).trans hid) hadmitted)

/-- A round gives references to the request it treats only. -/
theorem candidate_gains {f : Flow (LoopState K EncoderCacheManager)}
    (hid : (ls.req q).requestId = q) (h : ls.candidate cfg env q = .ok f) :
    GainsOnly {q} ls.sch.enc f.toPass.state.sch.enc := by
  have hreached : ∀ {ls₁}, ls.ReachesWaiting cfg env q ls₁ →
      GainsOnly {q} ls.sch.enc ls₁.sch.enc ∧ (ls₁.req q).requestId = q := by
    intro ls₁ hreach
    unfold ReachesWaiting at hreach
    split at hreach
    · obtain ⟨_, _, _, _, hsame⟩ := (touches_runningCandidate hreach).inputs q
      refine ⟨runningCandidate_gains hid hreach, ?_⟩
      change ((Flow.fall ls₁).toPass.state.req q).requestId = q
      rw [hsame]
      exact hid
    · cases hreach
      exact ⟨.refl _ _, hid⟩
  rcases candidate_cases h with ⟨-, hrunning⟩ | ⟨ls₁, hreach, ⟨-, hwaiting⟩ | ⟨-, rfl⟩⟩
  · exact runningCandidate_gains hid hrunning
  · obtain ⟨hgains, hid₁⟩ := hreached hreach
    exact hgains.trans (waitingCandidate_gains hid₁ hwaiting)
  · exact (hreached hreach).1

end Gains

/-! ### Asking in vain -/

/-- What a failing allocation loop leaves of its candidate. -/
structure InVain (r : ReqId) (ls ls' : LoopState K EncoderCacheManager) : Prop
    extends Touches r ls ls' where
  request : ls'.req r = ls.req r
  unscheduled : r ∈ ls'.numScheduledTokens.keys → r ∈ ls.numScheduledTokens.keys
  heldBlocks : ∀ b ∈ (KVCacheManager.getBlocks ls'.sch.kv r).flatten,
    b = 0 ∨ b ∈ (KVCacheManager.getBlocks ls.sch.kv r).flatten
  owes : ∀ m₀ P, Owes m₀ (ls.req r) P ls.sch.enc → Owes m₀ (ls.req r) P ls'.sch.enc

namespace InVain

variable [StrictKVCacheManager K]

/-- The candidate asks for blocks once more. -/
theorem ask (h : InVain r ls t) (hr : (ls.req r).requestId = r)
    (hask : KVCacheManager.allocateSlots t.sch.kv (t.req r) args = .ok (none, kv)) :
    InVain r ls (t.setKv kv) where
  toTouches := h.toTouches.trans (touches_allocateSlots hask)
  request := h.request
  unscheduled := h.unscheduled
  heldBlocks b hb := by
    have hid : (t.req r).requestId = r := h.request ▸ hr
    have hmem := StrictKVCacheManager.mem_getBlocks_of_none (b := b) hask (by rwa [hid])
    rw [hid] at hmem
    exact hmem.elim .inl (h.heldBlocks b)
  owes := h.owes

/-- Another request is preempted for it. -/
theorem preempt (h : InVain r ls t) (hr : (ls.req r).requestId = r)
    (hids : ∀ x ∈ ls.sch.objs.keys, (ls.req x).requestId = x) (hpre : Preempts r args t l v kv)
    (hne : v ≠ r) (hvictim : (t.setKv kv).preemptVictim v = .ok t') : InVain r ls t' := by
  have hasked := h.ask hr hpre.noBlocks
  have htouch := touches_preempt hpre hvictim
  obtain ⟨ls₁, qm', hroll, hrun, -, rfl⟩ := preemptVictim_eq_ok hvictim
  refine ⟨h.toTouches.trans htouch, ?_, fun hmem => ?_, fun b hb => ?_, fun m₀ P ho => ?_⟩
  · exact (Objs.req_modify_ne (f := Scheduler.preempted) (Ne.symm hne)).trans h.request
  · refine h.unscheduled ?_
    rcases rollback_cases hroll with ⟨-, rfl⟩ | ⟨-, _, _, -, -, rfl⟩
    exacts [hmem, ((Dict.mem_keys_erase _ _ _).mp hmem).1]
  · have hsame := SeparateKVCacheManager.getBlocks_free kv (Ne.symm hne)
    exact hasked.heldBlocks b (hsame ▸ hb)
  · have hv : (t.req v).requestId = v := by
      obtain ⟨_, _, _, _, hsame⟩ := h.inputs v
      rw [hsame]
      exact hids v (h.keys ▸ known_of_running hrun)
    refine (h.owes m₀ P ho).free ?_
    rwa [req_setKv, hv, hr]

/-- A failing allocation loop changes nothing about a candidate that does not run. -/
theorem of_allocLoop (hidle : (ls.req r).status ≠ .running)
    (hids : ∀ x ∈ ls.sch.objs.keys, (ls.req x).requestId = x) (hr : (ls.req r).requestId = r)
    (h : ls.allocLoop r args = .ok (none, ls')) : InVain r ls ls' := by
  obtain ⟨t, ht, hexit⟩ := allocLoop_outcome h
  have hvisited : InVain r ls t := alloc_invariant (I := fun t => InVain r ls t) ht
    ⟨.refl r ls, rfl, id, fun _ hb => .inr hb, fun _ _ ho => ho⟩
    fun u l v kv u' _ hI hpre hne hvictim => hI.preempt hr hids hpre hne hvictim
  cases hexit with
  | noneRunning hask | kept hask => exact hvisited.ask hr hask
  | itself _ hvictim =>
    obtain ⟨-, -, -, hrun, -⟩ := preemptVictim_eq_ok hvictim
    exact absurd (hvisited.request ▸ hrun) hidle

omit [StrictKVCacheManager K] in
/-- A candidate that found no blocks gives up what it borrowed. -/
theorem settle {enc : EncoderCacheManager} (h : InVain r (ls.setEnc enc) ls')
    (hr : (ls.req r).requestId = r) (hgains : GainsOnly ∅ enc ls'.sch.enc)
    (hborrows : Borrows ls.sch.enc (ls.req r) enc) (hcount : ls.sch.enc.CountsAtMost (ls.req r)) :
    let enc' := if (ls'.req r).hasEncoderInputs then EncoderCache.free ls'.sch.enc (ls'.req r)
      else ls'.sch.enc
    (∀ a, enc'.Holds a r → ls.sch.enc.Holds a r) ∧
      ls.sch.enc.numFreeableSlots ≤ enc'.numFreeableSlots := by
  have hreq : ls'.req r = ls.req r := h.request
  obtain ⟨P, howes⟩ := hborrows.owes
  have howes' : Owes ls.sch.enc (ls.req r) P ls'.sch.enc := h.owes _ P howes
  have hother : ∀ a, (∀ i < (ls.req r).mmFeatures.length, (ls.req r).mmHash i ≠ a) →
      ls'.sch.enc.Holds a r → ls.sch.enc.Holds a r := fun a ha hh =>
    hborrows.others a r ha (hgains a r (Set.notMem_empty r) hh)
  rw [hreq]
  cases hinputs : (ls.req r).hasEncoderInputs with
  | true =>
    refine ⟨fun a hh => ?_, howes'.settle hcount⟩
    have hfreed := free_gains ls'.sch.enc (ls.req r) a r (Set.notMem_empty r) hh
    refine hother a (fun i hi hia => ?_) hfreed
    subst hia
    have hreleased := free_releases (m := ls'.sch.enc) hi
    rw [hr] at hreleased
    exact hreleased hh
  | false =>
    have htext : (ls.req r).mmFeatures = [] := by
      simpa [Request.hasEncoderInputs] using hinputs
    have hnone : ∀ a, ∀ i < (ls.req r).mmFeatures.length, (ls.req r).mmHash i ≠ a := by
      intro a i hi
      rw [htext] at hi
      exact absurd hi (Nat.not_lt_zero i)
    refine ⟨fun a hh => hother a (hnone a) hh, ?_⟩
    have hempty : P = ∅ := Finset.eq_empty_of_forall_notMem fun a ha => by
      obtain ⟨i, hi, hia⟩ := howes'.own a ha
      exact hnone a i hi hia
    subst hempty
    simpa using howes'.sum

end InVain

/-! ### A candidate that is passed over -/

/-- Every lookup of a pass borrows at most a reference of its item. -/
theorem borrows_rule (m₀ : EncoderCacheManager) (q : Request)
    (lookups : List (ℕ × EncoderCacheManager)) : LookupRule q lookups (Borrows m₀ q) where
  lookup _ _ _ _ _ hj hI hcheck := hI.lookup hj hcheck
  room _ _ _ _ _ _ hI hcan := hI.evicts (canAllocate_evicts hcan)

/-- Before blocks are asked for, the walk takes no reference for the waiting candidate `r` that it
is stopped at. If no blocks are found, the candidate counts no fewer embeddings for its items than
the cache does. -/
def CleanGrant (cfg : Config) (env : StepEnv) (r : ReqId) (ls : LoopState K EncoderCacheManager) :
    Prop :=
  match ls.cachedPrefix cfg env r with
  | .ok (some c) =>
    match ls.waitingGrant cfg env r c with
    | .ok (.blocked _) => ∀ l ∈ ls.waitingLookups cfg env r c, ¬ l.2.TakesReference (ls.req r) l.1
    | .ok (.granted enc g) =>
      match (ls.setEnc enc).allocLoop r (waitingArgs cfg (ls.req r) c g) with
      | .ok (none, _) => ls.sch.enc.CountsAtMost (ls.req r)
      | _ => True
    | _ => True
  | _ => True

instance : Decidable (ls.CleanGrant cfg env r) := by
  unfold CleanGrant
  split
  · split
    · infer_instance
    · split <;> infer_instance
    · infer_instance
  · infer_instance

/-- The candidate of the round runs if its id is one of the running ones, and leaves no trace if it
is one of the waiting ones. -/
def CleanRound (cfg : Config) (env : StepEnv) (ls : LoopState K EncoderCacheManager) : Prop :=
  ∀ r ∈ ls.qm.combined[ls.reqIndex]?, ls.Treats r →
    (r ∈ ls.qm.runningReqIds → (ls.req r).status = .running) ∧
    (r ∈ ls.qm.waitingReqIds → oversizePrompt cfg (ls.req r) = false → ls.CleanGrant cfg env r)

instance : Decidable (ls.CleanRound cfg env) :=
  inferInstanceAs (Decidable (∀ r ∈ ls.qm.combined[ls.reqIndex]?, _))

omit [KVCacheManager K] in
/-- Where the walk ends before blocks are asked for, a clean candidate took nothing. -/
theorem blocked_clean {c : CachedPrefix} {enc : EncoderCacheManager}
    (hg : ls.waitingGrant cfg env r c = .ok (.blocked enc))
    (hclean : ∀ l ∈ ls.waitingLookups cfg env r c, ¬ l.2.TakesReference (ls.req r) l.1) :
    GainsOnly ∅ ls.sch.enc enc ∧ enc.numFreeableSlots = ls.sch.enc.numFreeableSlots := by
  refine (waitingGrant_rule hg
    (I := fun m => GainsOnly ∅ ls.sch.enc m ∧ m.numFreeableSlots = ls.sch.enc.numFreeableSlots)
    ⟨.refl _ _, rfl⟩ ⟨fun j m hit m' hmem _ hI hcheck => ?_, fun j m _ _ _ m' hI hcan => ?_⟩).1 _ rfl
  · obtain ⟨hgains, hslots⟩ := checkAndUpdateCache_of_held hcheck (hclean _ hmem)
    exact ⟨hI.1.trans hgains, hslots.trans hI.2⟩
  · have hevicts := canAllocate_evicts hcan
    exact ⟨hI.1.trans hevicts.gainsOnly, hevicts.freeableSlots.trans hI.2⟩

/-- The round neither admits the request nor has its blocks load. -/
def PassesOver (cfg : Config) (env : StepEnv) (r : ReqId) (ls : LoopState K EncoderCacheManager) :
    Prop :=
  match ls.round cfg env with
  | .ok p => (p.state.req r).status ≠ .running ∧ (p.state.req r).status ≠ .waitingForRemoteKvs
  | .error _ => True

instance : Decidable (ls.PassesOver cfg env r) := by
  unfold PassesOver
  split <;> infer_instance

/-- The round goes on with the cache it began with, or ends the walk with no fewer freeable slots. -/
def KeepsSlots (ls : LoopState K EncoderCacheManager) :
    Pass (LoopState K EncoderCacheManager) (LoopState K EncoderCacheManager) → Prop
  | .next ls' => ls'.sch.enc = ls.sch.enc
  | .done ls' => ls.sch.enc.numFreeableSlots ≤ ls'.sch.enc.numFreeableSlots

/-- No trace of the step from `s` is left on the request `r`. -/
structure Untraced (s : Scheduler K EncoderCacheManager) (r : ReqId)
    (ls : LoopState K EncoderCacheManager) : Prop where
  idle : (ls.req r).status ≠ .running
  numComputedTokens : (ls.req r).numComputedTokens = (s.req r).numComputedTokens
  tokens : r ∉ ls.numScheduledTokens.keys
  heldBlocks : ∀ b ∈ (KVCacheManager.getBlocks ls.sch.kv r).flatten,
    b = 0 ∨ b ∈ (KVCacheManager.getBlocks s.kv r).flatten
  references : ∀ h, ls.sch.enc.Holds h r → s.enc.Holds h r

namespace Untraced

variable {s : Scheduler K EncoderCacheManager}

/-- Leaving the request alone. -/
theorem of_kept (h : Untraced s r ls) (hreq : ls'.req r = ls.req r)
    (htokens : r ∈ ls'.numScheduledTokens.keys → r ∈ ls.numScheduledTokens.keys)
    (hblocks : KVCacheManager.getBlocks ls'.sch.kv r = KVCacheManager.getBlocks ls.sch.kv r)
    (hholds : ∀ a, ls'.sch.enc.Holds a r → ls.sch.enc.Holds a r) : Untraced s r ls' where
  idle := hreq ▸ h.idle
  numComputedTokens := hreq ▸ h.numComputedTokens
  tokens hmem := h.tokens (htokens hmem)
  heldBlocks := hblocks ▸ h.heldBlocks
  references a hh := h.references a (hholds a hh)

/-- What is done for another request. -/
theorem touched (h : Untraced s r ls) (htouch : Touches q ls ls') (hq : r ≠ q)
    (hid : (ls.req q).requestId = q) (hgains : GainsOnly {q} ls.sch.enc ls'.sch.enc) :
    Untraced s r ls' :=
  h.of_kept (htouch.others r hq h.idle) (htouch.tokens r hq) (htouch.blocks hid r hq h.idle)
    fun a => hgains a r hq

/-- What is done to the request itself: neither tokens, nor blocks, nor references are given. -/
theorem of_request (h : Untraced s r ls) (hidle : (ls'.req r).status ≠ .running)
    (hcomputed : (ls'.req r).numComputedTokens = (ls.req r).numComputedTokens)
    (htokens : ls'.numScheduledTokens = ls.numScheduledTokens) (hkv : ls'.sch.kv = ls.sch.kv)
    (hgains : GainsOnly ∅ ls.sch.enc ls'.sch.enc) : Untraced s r ls' where
  idle := hidle
  numComputedTokens := hcomputed.trans h.numComputedTokens
  tokens := htokens ▸ h.tokens
  heldBlocks := hkv ▸ h.heldBlocks
  references a hh := h.references a (hgains a r (Set.notMem_empty r) hh)

/-- Ignoring a request leaves no trace of the one passed over. -/
theorem ignore {f : Flow (LoopState K EncoderCacheManager)} (h : Untraced s r ls)
    (hk : r ∈ ls.sch.objs.keys) (hignore : ls.ignore r = .ok f) :
    Untraced s r f.toPass.state ∧ ls.KeepsSlots f.toPass := by
  obtain ⟨qm', -, rfl⟩ := ignore_eq_ok hignore
  have hreq : (((ls.modifyReq r fun q => { q with status := .finishedIgnored }).setQm
      qm').advance.req r) = { ls.req r with status := .finishedIgnored } := Objs.req_modify_self hk
  refine ⟨h.of_request ?_ ?_ rfl rfl (.refl _ _), rfl⟩
  · dsimp only [Flow.toPass, Pass.state]
    rw [hreq]
    exact fun hrun => by cases hrun
  · dsimp only [Flow.toPass, Pass.state]
    rw [hreq]

/-- Skipping a request leaves no trace of it. -/
theorem skip {f : Flow (LoopState K EncoderCacheManager)} (h : Untraced s r ls)
    (hskip : ls.skip = .ok f) : Untraced s r f.toPass.state ∧ ls.KeepsSlots f.toPass := by
  obtain ⟨qm', -, rfl⟩ := skip_eq_ok hskip
  exact ⟨h.of_request h.idle rfl rfl rfl (.refl _ _), rfl⟩

variable [StrictKVCacheManager K]

/-- The candidate found no blocks and gave its references up. -/
theorem noBlocks {enc : EncoderCacheManager} (h : Untraced s r ls)
    (hids : ∀ x ∈ ls.sch.objs.keys, (ls.req x).requestId = x) (hr : (ls.req r).requestId = r)
    (hborrows : Borrows ls.sch.enc (ls.req r) enc) (hcount : ls.sch.enc.CountsAtMost (ls.req r))
    (halloc : (ls.setEnc enc).allocLoop r args = .ok (none, t)) :
    let t' := if (t.req r).hasEncoderInputs then t.setEnc (EncoderCache.free t.sch.enc (t.req r)) else t
    Untraced s r t' ∧ ls.sch.enc.numFreeableSlots ≤ t'.sch.enc.numFreeableSlots := by
  have hvain : InVain r (ls.setEnc enc) t := .of_allocLoop h.idle hids hr halloc
  have hsettled := hvain.settle hr (allocLoop_gains halloc) hborrows hcount
  have hreq : t.req r = ls.req r := hvain.request
  have huntraced : ∀ enc', (∀ a, EncoderCacheManager.Holds enc' a r → ls.sch.enc.Holds a r) →
      Untraced s r (t.setEnc enc') := fun enc' hholds => {
    idle := hreq ▸ h.idle
    numComputedTokens := hreq ▸ h.numComputedTokens
    tokens := fun hmem => h.tokens (hvain.unscheduled hmem)
    heldBlocks := fun b hb => (hvain.heldBlocks b hb).elim .inl (h.heldBlocks b)
    references := fun a hh => h.references a (hholds a hh) }
  dsimp only at hsettled ⊢
  split at hsettled
  · rename_i hinputs
    rw [if_pos hinputs]
    exact ⟨huntraced _ hsettled.1, hsettled.2⟩
  · rename_i hinputs
    rw [if_neg hinputs]
    exact ⟨huntraced t.sch.enc hsettled.1, hsettled.2⟩

/-- The branch of a waiting candidate that it passes over. -/
theorem waitingCandidate {f : Flow (LoopState K EncoderCacheManager)} (h : Untraced s r ls)
    (hids : ∀ x ∈ ls.sch.objs.keys, (ls.req x).requestId = x) (hk : r ∈ ls.sch.objs.keys)
    (hclean : oversizePrompt cfg (ls.req r) = false → ls.CleanGrant cfg env r)
    (hcand : ls.waitingCandidate cfg env r = .ok f)
    (hplaced : (f.toPass.state.req r).status ≠ .running ∧
      (f.toPass.state.req r).status ≠ .waitingForRemoteKvs) :
    Untraced s r f.toPass.state ∧ ls.KeepsSlots f.toPass := by
  cases hsize : oversizePrompt cfg (ls.req r) with
  | true =>
    rw [LoopState.waitingCandidate, if_pos hsize] at hcand
    exact h.ignore hk hcand
  | false =>
    have hgrant := hclean hsize
    unfold CleanGrant at hgrant
    cases waitingCandidate_outcome hcand with
    | ignoredPrompt hignored =>
      rw [hsize] at hignored
      cases hignored
    | skipped _ hskip => exact h.skip hskip
    | ignoredEncoderInputs _ _ hignore => exact h.ignore hk hignore
    | blocked hc hg =>
      rw [hc] at hgrant
      dsimp only at hgrant
      rw [hg] at hgrant
      obtain ⟨hgains, hslots⟩ := blocked_clean hg hgrant
      exact ⟨h.of_request h.idle rfl rfl rfl hgains, hslots.ge⟩
    | noBlocks hc hg halloc =>
      rw [hc] at hgrant
      dsimp only at hgrant
      rw [hg] at hgrant
      dsimp only at hgrant
      rw [halloc] at hgrant
      have hborrows := (waitingGrant_rule hg (Borrows.refl ls.sch.enc (ls.req r))
        (borrows_rule _ _ _)).2 _ _ rfl
      exact h.noBlocks hids (hids r hk) hborrows hgrant halloc
    | @loading _ _ _ _ ls₁ _ _ _ halloc _ hskip =>
      obtain ⟨qm', -, rfl⟩ := skip_eq_ok hskip
      have hk₁ : r ∈ ls₁.sch.objs.keys := (touches_allocLoop halloc).keys ▸ hk
      exact absurd (congrArg Request.status (Objs.req_modify_self hk₁)) hplaced.2
    | @admitted _ _ _ _ ls₁ _ _ _ halloc _ hadmitted =>
      obtain ⟨_, _, _, _, -, -, -, rfl⟩ := admitWaiting_eq_ok hadmitted
      have hk₁ : r ∈ ls₁.sch.objs.keys := (touches_allocLoop halloc).keys ▸ hk
      exact absurd (congrArg Request.status (Objs.req_modify_self hk₁)) hplaced.1

/-- The round that treats the request passes over it. -/
theorem candidate {f : Flow (LoopState K EncoderCacheManager)} (h : Untraced s r ls)
    (hids : ∀ x ∈ ls.sch.objs.keys, (ls.req x).requestId = x) (hk : r ∈ ls.sch.objs.keys)
    (hclean : ls.CleanRound cfg env) (htreats : ls.Treats r)
    (hcand : ls.candidate cfg env r = .ok f)
    (hplaced : (f.toPass.state.req r).status ≠ .running ∧
      (f.toPass.state.req r).status ≠ .waitingForRemoteKvs) :
    Untraced s r f.toPass.state ∧ ls.KeepsSlots f.toPass := by
  obtain ⟨hrunning, hwaiting⟩ := hclean r htreats.stands htreats
  have hR : r ∉ ls.qm.runningReqIds := fun hR => h.idle (hrunning hR)
  rcases candidate_cases hcand with ⟨hR', -⟩ | ⟨ls₁, hreach, hrest⟩
  · exact absurd hR' hR
  rw [ReachesWaiting, if_neg hR] at hreach
  cases hreach
  rcases hrest with ⟨hW, hcand⟩ | ⟨-, rfl⟩
  · exact h.waitingCandidate hids hk (hwaiting hW) hcand hplaced
  · exact ⟨h, rfl⟩

/-- A round. -/
theorem round {p : Pass (LoopState K EncoderCacheManager) (LoopState K EncoderCacheManager)}
    (hs : s.Named) (hrounds : Scheduler.Rounds cfg env s ls) (h : Untraced s r ls)
    (hclean : ls.CleanRound cfg env) (hpasses : ls.PassesOver cfg env r)
    (hround : ls.round cfg env = .ok p) :
    Untraced s r p.state ∧ (ls.Treats r → ls.KeepsSlots p) := by
  have hids := hrounds.ids hs
  rw [PassesOver, hround] at hpasses
  rcases round_cases hround with rfl | rfl | ⟨q, f, htreats, hcand, rfl⟩
  · exact ⟨h, fun _ => le_refl _⟩
  · exact ⟨h.of_request h.idle rfl rfl rfl (.refl _ _), fun _ => rfl⟩
  · have hk := hrounds.candidate_known hs htreats
    by_cases hq : r = q
    · subst hq
      obtain ⟨huntraced, hslots⟩ := h.candidate hids hk hclean htreats hcand hpasses
      exact ⟨huntraced, fun _ => hslots⟩
    · refine ⟨h.touched (touches_candidate hcand) hq (hids q hk)
        (candidate_gains (hids q hk) hcand), fun htreats' => ?_⟩
      exact absurd (Option.some.inj (htreats'.stands.symm.trans htreats.stands)) hq

omit [StrictKVCacheManager K] in
/-- The tail preemption of one request. -/
theorem tailPreemptOne [SeparateKVCacheManager K] (h : Untraced s r t)
    (htail : t.tailPreemptOne q = .ok t') : Untraced s r t' := by
  rcases tailPreemptOne_cases htail with ⟨-, rfl⟩ | ⟨hrun, qm', -, rfl⟩
  · exact h
  have hne : r ≠ q := fun hrq => h.idle (hrq ▸ hrun)
  exact h.of_kept (Objs.req_modify_ne hne) id (SeparateKVCacheManager.getBlocks_free _ hne)
    fun a => free_gains _ _ a r (Set.notMem_empty r)

end Untraced

end LoopState

namespace Scheduler

open LoopState

variable {K : Type} [KVCacheManager K] {cfg : Config} {env : StepEnv} {r : ReqId}
  {s s' : Scheduler K EncoderCacheManager} {ls ls' : LoopState K EncoderCacheManager}
  {p : Pass (LoopState K EncoderCacheManager) (LoopState K EncoderCacheManager)}
  {out : SchedulerOutput}

/-! ### The step -/

/-- What is left of the step behind a round. -/
def restOfStep (cfg : Config) (env : StepEnv) :
    Pass (LoopState K EncoderCacheManager) (LoopState K EncoderCacheManager) →
      Except SchedError (SchedulerOutput × Scheduler K EncoderCacheManager)
  | .next ls => do
    let ls ← ls.mainLoop cfg env
    let ls ← ls.tailPreempt
    finishStep cfg ls
  | .done ls => do
    let ls ← ls.tailPreempt
    finishStep cfg ls

/-- The round from `ls` as if it had not considered its candidate: it goes on with the cache that it
began with, or the walk ends where the round began. -/
def unconsidered (ls : LoopState K EncoderCacheManager) :
    Pass (LoopState K EncoderCacheManager) (LoopState K EncoderCacheManager) →
      Pass (LoopState K EncoderCacheManager) (LoopState K EncoderCacheManager)
  | .next ls' => .next (ls'.setEnc ls.sch.enc)
  | .done _ => .done ls

/-- The request waits, and the step from `s` neither admits it nor has its blocks load. -/
structure PassedOver (cfg : Config) (env : StepEnv) (s : Scheduler K EncoderCacheManager)
    (r : ReqId) : Prop where
  waits : (s.req r).status = .waiting ∨ (s.req r).status = .preempted
  passes : ∀ ls, Rounds cfg env s ls → ls.PassesOver cfg env r

/-- What is expected of the step from `s` to `s'`: it leaves no trace on the request `r`. -/
structure NoTrace (cfg : Config) (env : StepEnv) (s : Scheduler K EncoderCacheManager) (r : ReqId)
    (s' : Scheduler K EncoderCacheManager) : Prop where
  heldBlocks : ∀ b ∈ (KVCacheManager.getBlocks s'.kv r).flatten,
    b = 0 ∨ b ∈ (KVCacheManager.getBlocks s.kv r).flatten
  references : ∀ h, s'.enc.Holds h r → s.enc.Holds h r
  numComputedTokens : (s'.req r).numComputedTokens = (s.req r).numComputedTokens
  freeableSlots : ∀ ls p out₀ s₀, Rounds cfg env s ls → ls.Treats r → ls.round cfg env = .ok p →
    restOfStep cfg env (unconsidered ls p) = .ok (out₀, s₀) →
    s₀.enc.numFreeableSlots ≤ s'.enc.numFreeableSlots

/-- Every round of the step from `s` is clean. -/
def StepClean (cfg : Config) (env : StepEnv) (s : Scheduler K EncoderCacheManager) : Prop :=
  ∀ ls, Rounds cfg env s ls → ls.CleanRound cfg env

/-- The tail preemptions do not lower the freeable slots. -/
theorem tailPreempt_numFreeableSlots_le (h : ls.tailPreempt = .ok ls') :
    ls.sch.enc.numFreeableSlots ≤ ls'.sch.enc.numFreeableSlots := by
  unfold tailPreempt at h
  split at h
  · refine foldlM_invariant (I := fun t => ls.sch.enc.numFreeableSlots ≤ t.sch.enc.numFreeableSlots)
      h (le_refl _) fun q _ t t' hI hone => ?_
    rcases tailPreemptOne_cases hone with ⟨-, rfl⟩ | ⟨-, qm', -, rfl⟩
    · exact hI
    · exact hI.trans (free_numFreeableSlots_le t.sch.enc (t.req q))
  · cases h
    exact le_refl _

/-- Finishing the step leaves the references and the freeable slots. -/
theorem finishStep_numFreeableSlots (h : finishStep cfg ls = .ok (out, s')) :
    s'.enc.numFreeableSlots = ls.sch.enc.numFreeableSlots := by
  rw [(finishStep_spec h).enc]
  rfl

/-- The step is what is left of it behind any of its rounds. -/
theorem restOfStep_unique {res : SchedulerOutput × Scheduler K EncoderCacheManager}
    (hschedule : schedule cfg env s = .ok (out, s')) (hrounds : Rounds cfg env s ls)
    (hround : ls.round cfg env = .ok p) (hrest : restOfStep cfg env p = .ok res) :
    res = (out, s') := by
  obtain ⟨ls₀, hbegin, hvisits⟩ := hrounds
  obtain ⟨ls₂, ⟨ls₀', ls₁, hbegin', hloop, htail⟩, hfinish⟩ := schedule_eq_ok hschedule
  cases hbegin.symm.trans hbegin'
  have hend : ls₁.tailPreempt >>= finishStep cfg = .ok res := by
    cases p with
    | next t =>
      obtain ⟨t', ht', hrest⟩ := bind_eq_ok.mp hrest
      obtain ⟨m, hm⟩ := (hvisits.next hround).loop_rest hloop
      exact loop_unique ht' hm ▸ hrest
    | done t => exact hvisits.loop_done hround hloop ▸ hrest
  obtain ⟨t, ht, hend⟩ := bind_eq_ok.mp hend
  cases ht.symm.trans htail
  exact Except.ok.inj (hend.symm.trans hfinish)

/-- Considering a candidate loses no freeable slots if the round keeps them. -/
theorem numFreeableSlots_le {out₀ : SchedulerOutput} {s₀ : Scheduler K EncoderCacheManager}
    (hschedule : schedule cfg env s = .ok (out, s')) (hrounds : Rounds cfg env s ls)
    (htreats : ls.Treats r) (hround : ls.round cfg env = .ok p) (hkeeps : ls.KeepsSlots p)
    (hrest : restOfStep cfg env (unconsidered ls p) = .ok (out₀, s₀)) :
    s₀.enc.numFreeableSlots ≤ s'.enc.numFreeableSlots := by
  cases p with
  | next t =>
    have hsame : t.setEnc ls.sch.enc = t := by rw [← show t.sch.enc = ls.sch.enc from hkeeps]; rfl
    rw [unconsidered, hsame] at hrest
    cases restOfStep_unique hschedule hrounds hround hrest
    exact le_refl _
  | done t =>
    obtain ⟨ls₀, hbegin, hvisits⟩ := hrounds
    obtain ⟨ls₂, ⟨ls₀', ls₁, hbegin', hloop, htail⟩, hfinish⟩ := schedule_eq_ok hschedule
    cases hbegin.symm.trans hbegin'
    cases hvisits.loop_done hround hloop
    have hnoTail : ls.tailPreempt = .ok ls :=
      if_neg fun htail => absurd htail.1 (ne_of_gt htreats.budget)
    obtain ⟨t', ht', hrest⟩ := bind_eq_ok.mp hrest
    cases ht'.symm.trans hnoTail
    calc s₀.enc.numFreeableSlots
        = ls.sch.enc.numFreeableSlots := finishStep_numFreeableSlots hrest
      _ ≤ t.sch.enc.numFreeableSlots := hkeeps
      _ ≤ ls₂.sch.enc.numFreeableSlots := tailPreempt_numFreeableSlots_le htail
      _ = s'.enc.numFreeableSlots := (finishStep_numFreeableSlots hfinish).symm

section Traceless

variable [StrictKVCacheManager K]

/-- At the beginning of the step nothing was done for a waiting request. -/
theorem beginStep_untraced (hwaits : (s.req r).status = .waiting ∨ (s.req r).status = .preempted)
    (h : beginStep cfg env s = .ok ls) : Untraced s r ls := by
  obtain ⟨objs, requests, hsame, -, -, rfl⟩ := beginStep_eq_ok h
  obtain ⟨prio, hprio⟩ := hsame.req r
  refine ⟨?_, ?_, List.not_mem_nil, fun b hb => .inr ?_, fun _ hh => hh⟩
  · change (objs.req r).status ≠ .running
    rw [hprio]
    intro hrun
    rcases hwaits with hs | hs <;> cases hs.symm.trans hrun
  · change (objs.req r).numComputedTokens = (s.req r).numComputedTokens
    rw [hprio]
    rfl
  · rwa [LawfulKVCacheManager.getBlocks_newStepStarts] at hb

/-- The rounds of a clean step leave no trace of a request they pass over. -/
theorem Rounds.untraced (hs : s.Named) (hclean : StepClean cfg env s) (hr : PassedOver cfg env s r)
    (h : Rounds cfg env s ls) : Untraced s r ls := by
  obtain ⟨ls₀, hbegin, hvisits⟩ := h
  refine hvisits.invariant (beginStep_untraced hr.waits hbegin) fun t t' ht hI hround => ?_
  have hrounds : Rounds cfg env s t := ⟨ls₀, hbegin, ht⟩
  exact (hI.round hs hrounds (hclean t hrounds) (hr.passes t hrounds) hround).1

/-- The walk of a clean step leaves no trace of a request it passes over. -/
theorem Walked.untraced (hs : s.Named) (hclean : StepClean cfg env s) (hr : PassedOver cfg env s r)
    (h : Walked cfg env s ls) : Untraced s r ls :=
  h.rule (fun _ => beginStep_untraced hr.waits)
    (fun t _ hrounds hI hround =>
      (hI.round hs hrounds (hclean t hrounds) (hr.passes t hrounds) hround).1)
    fun _ _ _ hI hone => hI.tailPreemptOne hone

/-- A clean step leaves no trace on a waiting request that it does not place. -/
theorem schedule_noTrace (hs : s.Named) (hclean : StepClean cfg env s) (hr : PassedOver cfg env s r)
    (hschedule : schedule cfg env s = .ok (out, s')) : NoTrace cfg env s r s' := by
  obtain ⟨ls, hwalked, hfinish⟩ := schedule_eq_ok hschedule
  have huntraced := hwalked.untraced hs hclean hr
  have hfin := finishStep_spec hfinish
  refine ⟨fun b hb => huntraced.heldBlocks b ?_, fun a hh => huntraced.references a ?_, ?_,
    fun ls p out₀ s₀ hrounds htreats hround hrest => ?_⟩
  · rw [hfin.kv] at hb
    split at hb
    · rwa [LawfulKVCacheManager.getBlocks_takeNewBlockIds] at hb
    · exact hb
  · rw [hfin.enc] at hh
    exact hh
  · rw [hfin.unscheduled r huntraced.tokens]
    exact huntraced.numComputedTokens
  · have hkeeps := (hrounds.untraced hs hclean hr).round hs hrounds (hclean ls hrounds)
      (hr.passes ls hrounds) hround
    exact numFreeableSlots_le hschedule hrounds htreats hround (hkeeps.2 htreats) hrest

end Traceless

end Scheduler

namespace System

open Scheduler

variable {K : Type} [KVCacheManager K] [StrictKVCacheManager K] {cfg : Config} {env : StepEnv}
  {sys : System K EncoderCacheManager} {s' : Scheduler K EncoderCacheManager} {r : ReqId}
  {out : SchedulerOutput}

/-- A failed admission leaves no trace where the step is clean. -/
theorem noTrace_of_run {ok : System K EncoderCacheManager → Op → Prop} {kv : K} {cacheSize : ℕ}
    (h : Run cfg ok (init cfg kv (EncoderCacheManager.init cacheSize)) sys)
    (hclean : StepClean cfg env sys.sch) (hr : PassedOver cfg env sys.sch r)
    (hschedule : schedule cfg env sys.sch = .ok (out, s')) : NoTrace cfg env sys.sch r s' :=
  schedule_noTrace (named_of_run h) hclean hr hschedule

/-- EAGLE looks one token ahead. A step has room for four embeddings. -/
def eagleCfg (numBlocks : ℕ) : Config where
  maxNumRunningReqs := 4
  maxNumScheduledTokens := 16
  maxModelLen := 32
  blockSize := 4
  numBlocks := numBlocks
  maxNumEncoderInputTokens := 4
  useEagle := true

/-- A request with the given items in its prompt of four tokens. -/
def itemRequest (r : ReqId) (items : List MmFeature) : Request :=
  { shortRequest r with mmFeatures := items }

/-- A request leaves its item in the cache. Two more come, the second one with the given items. -/
def itemCached (items : List MmFeature) : List Op :=
  [.addRequest (itemRequest 1 [.unmasked 1 0 1]) fun _ => false, .schedule {},
    .finishRequests (some [1]) .finishedAborted fun _ => false,
    .addRequest (itemRequest 2 [.unmasked 2 0 3]) fun _ => false,
    .addRequest (itemRequest 3 items) fun _ => false]

/-- With one block for two requests, the second one gives the cached item up again. -/
theorem noTrace_of_oneBlock : ∃ sys out s',
    Run (eagleCfg 2) (fun _ _ => True) (decoderOnly (eagleCfg 2) false 8) sys ∧
      schedule (eagleCfg 2) {} sys.sch = .ok (out, s') ∧ NoTrace (eagleCfg 2) {} sys.sch 3 s' := by
  have hlegal : Legal (eagleCfg 2) (fun _ _ => True) (decoderOnly (eagleCfg 2) false 8)
      (itemCached [.unmasked 1 0 1]) := by decide +kernel
  obtain ⟨sys, hrun, hwaits, hclean, hpasses, hafter⟩ := Reaches.exists_run
    (itemCached [.unmasked 1 0 1])
    (P := fun sys => (sys.sch.req 3).status = .waiting ∧
      InEveryRound (eagleCfg 2) sys (LoopState.CleanRound (eagleCfg 2) {}) ∧
      InEveryRound (eagleCfg 2) sys (LoopState.PassesOver (eagleCfg 2) {} 3) ∧
      AfterStep (eagleCfg 2) sys fun _ _ => True) (by decide +kernel) hlegal
  obtain ⟨out, s', hschedule, -⟩ := hafter.exists_ok
  exact ⟨sys, out, s', hrun, hschedule, noTrace_of_run hrun (fun _ hrounds => hclean.of_rounds hrounds)
    ⟨.inl hwaits, fun _ hrounds => hpasses.of_rounds hrounds⟩ hschedule⟩

/-- The second request finds its first item in the cache, and for the second item, which EAGLE wants
at once, the budget does not suffice. It waits on and refers to the first item. -/
theorem itemCached_leavesTrace : ∃ sys out s',
    Run (eagleCfg 8) (fun _ _ => True) (decoderOnly (eagleCfg 8) false 8) sys ∧
      schedule (eagleCfg 8) {} sys.sch = .ok (out, s') ∧ PassedOver (eagleCfg 8) {} sys.sch 3 ∧
      (s'.req 3).status = .waiting ∧ ¬ NoTrace (eagleCfg 8) {} sys.sch 3 s' := by
  have hlegal : Legal (eagleCfg 8) (fun _ _ => True) (decoderOnly (eagleCfg 8) false 8)
      (itemCached [.unmasked 1 0 1, .unmasked 4 1 2]) := by decide +kernel
  obtain ⟨sys, hrun, hwaits, hpasses, hafter⟩ := Reaches.exists_run
    (itemCached [.unmasked 1 0 1, .unmasked 4 1 2])
    (P := fun sys => (sys.sch.req 3).status = .waiting ∧
      InEveryRound (eagleCfg 8) sys (LoopState.PassesOver (eagleCfg 8) {} 3) ∧
      AfterStep (eagleCfg 8) sys fun _ s' => (s'.req 3).status = .waiting ∧
        s'.enc.Holds 1 3 ∧ ¬ sys.sch.enc.Holds 1 3) (by decide +kernel) hlegal
  obtain ⟨out, s', hschedule, hstill, hholds, hnot⟩ := hafter.exists_ok
  exact ⟨sys, out, s', hrun, hschedule, ⟨.inl hwaits, fun _ hrounds => hpasses.of_rounds hrounds⟩,
    hstill, fun htrace => hnot (htrace.references 1 hholds)⟩

end System

end RpsServe
