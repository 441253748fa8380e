import RpsServe.Scheduler.Preemption
import RpsServe.Scheduler.Traceless
import RpsServe.Scheduler.Untied

/-!
# What a preemption leaves

A request that an allocation loop preempts has given everything back when `schedule` returns,
whatever else the step does. One that the tail preemption preempts has not: its preemption is
not counted.
-/

namespace RpsServe

open EncoderCacheManager

namespace LoopState

variable {K : Type} [KVCacheManager K] {s : Scheduler K EncoderCacheManager}
  {cfg : Config} {env : StepEnv} {args : AllocateSlotsArgs} {l : ℕ} {kv : K} {q r v : ReqId}
  {ls ls' t t' : LoopState K EncoderCacheManager}

/-- The request `r` was preempted since the step from `s` began, and has given everything back. -/
structure PutBack (s : Scheduler K EncoderCacheManager) (t : LoopState K EncoderCacheManager)
    (r : ReqId) : Prop where
  status : (t.req r).status = .preempted
  numComputedTokens : (t.req r).numComputedTokens = 0
  specTokenIds : (t.req r).specTokenIds = []
  numPreemptions : (t.req r).numPreemptions = (s.req r).numPreemptions + 1
  blocks : (KVCacheManager.getBlocks t.sch.kv r).flatten = []
  references : ∀ i < (s.req r).mmFeatures.length, ¬ t.sch.enc.Holds ((s.req r).mmHash i) r

/-- What was given back stays so while nothing is done to the request. -/
theorem PutBack.kept (h : PutBack s t r) (hreq : t'.req r = t.req r)
    (hblocks : KVCacheManager.getBlocks t'.sch.kv r = KVCacheManager.getBlocks t.sch.kv r)
    (hholds : ∀ a, t'.sch.enc.Holds a r → t.sch.enc.Holds a r) : PutBack s t' r where
  status := hreq ▸ h.status
  numComputedTokens := hreq ▸ h.numComputedTokens
  specTokenIds := hreq ▸ h.specTokenIds
  numPreemptions := hreq ▸ h.numPreemptions
  blocks := hblocks ▸ h.blocks
  references i hi hh := h.references i hi (hholds _ hh)

/-- Since the step from `s` began, the reported requests have given everything back, and no other
request has its preemptions counted anew. -/
structure Settled (s : Scheduler K EncoderCacheManager) (t : LoopState K EncoderCacheManager) :
    Prop where
  putBack : ∀ r ∈ t.preemptedReqs, PutBack s t r
  uncounted : ∀ r ∉ t.preemptedReqs, (t.req r).numPreemptions = (s.req r).numPreemptions
  items : ∀ r, (t.req r).mmFeatures = (s.req r).mmFeatures
  ids : ∀ r ∈ t.sch.objs.keys, (t.req r).requestId = r

namespace Settled

/-- What is done for the request `q` settles as before. -/
theorem frame (h : Settled s t) (hq : q ∉ t.preemptedReqs)
    (hreported : t'.preemptedReqs = t.preemptedReqs)
    (hkeys : t'.sch.objs.keys = t.sch.objs.keys) (hothers : ∀ x, x ≠ q → t'.req x = t.req x)
    (hself : (t.req q).SameInputs (t'.req q))
    (hcount : (t'.req q).numPreemptions = (t.req q).numPreemptions)
    (hblocks : ∀ x, x ≠ q →
      KVCacheManager.getBlocks t'.sch.kv x = KVCacheManager.getBlocks t.sch.kv x)
    (hgains : GainsOnly {q} t.sch.enc t'.sch.enc) : Settled s t' where
  putBack x hx := by
    rw [hreported] at hx
    have hne : x ≠ q := fun hxq => hq (hxq ▸ hx)
    exact (h.putBack x hx).kept (hothers x hne) (hblocks x hne) fun a => hgains a x hne
  uncounted x hx := by
    rw [hreported] at hx
    refine Eq.trans ?_ (h.uncounted x hx)
    by_cases hxq : x = q
    · rw [hxq, hcount]
    · rw [hothers x hxq]
  items x := by
    refine Eq.trans ?_ (h.items x)
    by_cases hxq : x = q
    · obtain ⟨_, _, _, _, hsame⟩ := hself
      rw [hxq, hsame]
    · rw [hothers x hxq]
  ids x hx := by
    rw [hkeys] at hx
    refine Eq.trans ?_ (h.ids x hx)
    by_cases hxq : x = q
    · obtain ⟨_, _, _, _, hsame⟩ := hself
      rw [hxq, hsame]
    · rw [hothers x hxq]

/-- Assigning to the request `q` without counting a preemption settles as before. -/
theorem assign {f : Request → Request} (h : Settled s t) (hq : q ∉ t.preemptedReqs)
    (hreported : t'.preemptedReqs = t.preemptedReqs)
    (hobjs : t'.sch.objs = t.sch.objs.modify q f) (hf : (t.req q).SameInputs (f (t.req q)))
    (hcount : (f (t.req q)).numPreemptions = (t.req q).numPreemptions)
    (hkv : t'.sch.kv = t.sch.kv) (hgains : GainsOnly {q} t.sch.enc t'.sch.enc) :
    Settled s t' := by
  have hreq : ∀ x, t'.req x = Objs.req (t.sch.objs.modify q f) x := fun x =>
    congrArg (Objs.req · x) hobjs
  have hself : t'.req q = t.req q ∨ t'.req q = f (t.req q) := by
    rw [hreq]
    rcases Objs.req_modify_cases t.sch.objs q f q with hsame | ⟨-, hsame⟩
    exacts [.inl hsame, .inr hsame]
  refine h.frame hq hreported ?_ (fun x hx => (hreq x).trans (Objs.req_modify_ne hx)) ?_ ?_
    (fun x _ => by rw [hkv]) hgains
  · rw [hobjs]
    exact Dict.keys_modify _ _ _
  · rcases hself with hself | hself
    · exact hself ▸ .refl _
    · exact hself ▸ hf
  · rcases hself with hself | hself
    · rw [hself]
    · rw [hself, hcount]

/-- Another encoder cache for the request `q` settles as before. -/
theorem setEnc {enc : EncoderCacheManager} (h : Settled s t) (hq : q ∉ t.preemptedReqs)
    (hgains : GainsOnly {q} t.sch.enc enc) : Settled s (t.setEnc enc) :=
  h.frame hq rfl rfl (fun _ _ => rfl) (.refl _) rfl (fun _ _ => rfl) hgains

/-- Changing neither the requests nor their blocks, and giving nobody references, settles as
before. -/
theorem same (h : Settled s t) (hreported : t'.preemptedReqs = t.preemptedReqs)
    (hobjs : t'.sch.objs = t.sch.objs) (hkv : t'.sch.kv = t.sch.kv)
    (hgains : GainsOnly ∅ t.sch.enc t'.sch.enc) : Settled s t' := by
  have hreq : ∀ x, t'.req x = t.req x := fun x => congrArg (Objs.req · x) hobjs
  refine ⟨fun x hx => ?_, fun x hx => ?_, fun x => ?_, fun x hx => ?_⟩
  · exact (h.putBack x (hreported ▸ hx)).kept (hreq x) (by rw [hkv]) fun a =>
      hgains a x (Set.notMem_empty x)
  · rw [hreq]
    exact h.uncounted x (hreported ▸ hx)
  · rw [hreq]
    exact h.items x
  · rw [hreq]
    exact h.ids x (hobjs ▸ hx)

section Alloc

variable [SeparateKVCacheManager K]

/-- Asking for blocks for the request `q` settles as before. -/
theorem ask {blocks : Option KVCacheBlocks} (h : Settled s t) (hq : q ∉ t.preemptedReqs)
    (hid : (t.req q).requestId = q)
    (hask : KVCacheManager.allocateSlots t.sch.kv (t.req q) args = .ok (blocks, kv)) :
    Settled s (t.setKv kv) :=
  h.frame hq rfl rfl (fun _ _ => rfl) (.refl _) rfl
    (fun x hx => SeparateKVCacheManager.getBlocks_allocateSlots hask (by rwa [hid])) (.refl _ _)

end Alloc

variable [ReleasingKVCacheManager K]

/-- The victim of an allocation loop gives everything back. -/
theorem preempt (h : Settled s t) (hq : q ∉ t.preemptedReqs) (hid : (t.req q).requestId = q)
    (hpre : Preempts q args t l v kv) (hvictim : (t.setKv kv).preemptVictim v = .ok t') :
    Settled s t' := by
  have hasked := h.ask hq hid hpre.noBlocks
  obtain ⟨hself, hothers, hkv, henc, -, -, hreported⟩ := preemptVictim_spec hpre hvictim
  obtain ⟨ls₁, qm', -, hrun, -, ht'⟩ := preemptVictim_eq_ok hvictim
  have hkeys : t'.sch.objs.keys = t.sch.objs.keys := by
    rw [ht']
    exact Dict.keys_modify _ _ _
  have hvid : (t.req v).requestId = v := h.ids v (known_of_running hrun)
  have hv : v ∉ t.preemptedReqs := fun hv => by
    cases hrun.symm.trans (h.putBack v hv).status
  refine ⟨fun x hx => ?_, fun x hx => ?_, fun x => ?_, fun x hx => ?_⟩
  · rw [hreported, List.mem_append, List.mem_singleton] at hx
    by_cases hxv : x = v
    · subst hxv
      exact {
        status := by rw [hself]; rfl
        numComputedTokens := by rw [hself]; rfl
        specTokenIds := by rw [hself]; rfl
        numPreemptions := by rw [hself, ← h.uncounted x hv]; rfl
        blocks := by rw [hkv]; exact ReleasingKVCacheManager.getBlocks_free_self kv x
        references := fun i hi hh => by
          rw [henc] at hh
          have hitems := h.items x
          have hreleased := free_releases (m := t.sch.enc) (q := t.req x) (i := i)
            (by rwa [hitems])
          rw [hvid, Request.mmHash, hitems] at hreleased
          exact hreleased hh }
    · refine (hasked.putBack x (hx.resolve_right hxv)).kept (hothers x hxv) ?_ fun a hh => ?_
      · rw [hkv]
        exact SeparateKVCacheManager.getBlocks_free kv hxv
      · rw [henc] at hh
        exact free_gains t.sch.enc (t.req v) a x (Set.notMem_empty x) hh
  · rw [hreported, List.mem_append, List.mem_singleton, not_or] at hx
    rw [hothers x hx.2]
    exact h.uncounted x hx.1
  · refine Eq.trans ?_ (h.items x)
    by_cases hxv : x = v
    · rw [hxv, hself]
      rfl
    · rw [hothers x hxv]
  · rw [hkeys] at hx
    refine Eq.trans ?_ (h.ids x hx)
    by_cases hxv : x = v
    · rw [hxv, hself]
      rfl
    · rw [hothers x hxv]

/-- The allocation loop settles as before, and leaves its candidate out if it finds blocks. -/
theorem allocLoop {res : Option KVCacheBlocks} (h : Settled s ls) (hq : q ∉ ls.preemptedReqs)
    (hid : (ls.req q).requestId = q) (hloop : ls.allocLoop q args = .ok (res, ls')) :
    Settled s ls' ∧ (res.isSome → q ∉ ls'.preemptedReqs) := by
  obtain ⟨t, ht, hexit⟩ := allocLoop_outcome hloop
  obtain ⟨hsettled, hqt, hidt⟩ : Settled s t ∧ q ∉ t.preemptedReqs ∧ (t.req q).requestId = q := by
    refine alloc_invariant
      (I := fun t => Settled s t ∧ q ∉ t.preemptedReqs ∧ (t.req q).requestId = q) ht ⟨h, hq, hid⟩
      fun u l v kv u' _ hI hpre hne hvictim => ?_
    obtain ⟨hI, hqu, hidu⟩ := hI
    obtain ⟨-, hothers, -, -, -, -, hreported⟩ := preemptVictim_spec hpre hvictim
    refine ⟨hI.preempt hqu hidu hpre hvictim, ?_, ?_⟩
    · rw [hreported, List.mem_append, List.mem_singleton]
      exact not_or.mpr ⟨hqu, Ne.symm hne⟩
    · rw [hothers q (Ne.symm hne)]
      exact hidu
  cases hexit with
  | found hask => exact ⟨hsettled.ask hqt hidt hask, fun _ => hqt⟩
  | noneRunning hask | kept hask => exact ⟨hsettled.ask hqt hidt hask, nofun⟩
  | itself hpre hvictim => exact ⟨hsettled.preempt hqt hidt hpre hvictim, nofun⟩

/-- The branch of a running candidate settles as before. -/
theorem runningCandidate {f : Flow (LoopState K EncoderCacheManager)} (h : Settled s ls)
    (hq : q ∉ ls.preemptedReqs) (hid : (ls.req q).requestId = q)
    (hf : ls.runningCandidate cfg env q = .ok f) :
    Settled s f.toPass.state ∧ ∀ ls', f = .fall ls' → q ∉ ls'.preemptedReqs := by
  cases runningCandidate_outcome hf with
  | noTokens hgrant =>
    refine ⟨(h.setEnc hq (runningGrant_gains hid hgrant)).same rfl rfl rfl (.refl _ _), ?_⟩
    intro ls' hls'
    cases hls'
  | noBlocks hgrant _ halloc =>
    refine ⟨((h.setEnc hq (runningGrant_gains hid hgrant)).allocLoop hq hid halloc).1, ?_⟩
    intro ls' hls'
    cases hls'
  | scheduled hgrant _ halloc hsched =>
    obtain ⟨hsettled, hq₁⟩ :=
      (h.setEnc hq (runningGrant_gains hid hgrant)).allocLoop hq hid halloc
    have hgains := scheduleRunning_gains ((allocLoop_requestId halloc).trans hid) hsched
    obtain ⟨enc, spec, -, rfl⟩ := scheduleRunning_eq_ok hsched
    refine ⟨hsettled.assign (hq₁ rfl) rfl rfl ⟨_, _, _, _, rfl⟩ rfl rfl hgains, fun ls' hls' => ?_⟩
    cases hls'
    exact hq₁ rfl

omit [ReleasingKVCacheManager K] in
/-- A waiting candidate that is given up settles as before. -/
theorem ignore {f : Flow (LoopState K EncoderCacheManager)} (h : Settled s ls)
    (hq : q ∉ ls.preemptedReqs) (hignore : ls.ignore q = .ok f) : Settled s f.toPass.state := by
  obtain ⟨qm', -, rfl⟩ := ignore_eq_ok hignore
  exact h.assign hq rfl rfl ⟨_, _, _, _, rfl⟩ rfl rfl (.refl _ _)

/-- The branch of a waiting candidate settles as before. -/
theorem waitingCandidate {f : Flow (LoopState K EncoderCacheManager)} (h : Settled s ls)
    (hq : q ∉ ls.preemptedReqs) (hid : (ls.req q).requestId = q)
    (hf : ls.waitingCandidate cfg env q = .ok f) : Settled s f.toPass.state := by
  have hrule := fun c => waitingLookups_gains cfg env c hid
  have hgranted : ∀ {c enc g}, ls.waitingGrant cfg env q c = .ok (.granted enc g) →
      Settled s (ls.setEnc enc) := fun hg =>
    h.setEnc hq ((waitingGrant_rule hg (.refl _ _) (hrule _)).2 _ _ rfl)
  cases waitingCandidate_outcome hf with
  | ignoredPrompt _ hignore | ignoredEncoderInputs _ _ hignore => exact h.ignore hq hignore
  | skipped _ hskip =>
    obtain ⟨qm', -, rfl⟩ := skip_eq_ok hskip
    exact h.same rfl rfl rfl (.refl _ _)
  | blocked _ hg => exact h.setEnc hq ((waitingGrant_rule hg (.refl _ _) (hrule _)).1 _ rfl)
  | @noBlocks _ _ _ ls₁ _ hg halloc =>
    have hsettled := ((hgranted hg).allocLoop hq hid halloc).1
    dsimp only [Flow.toPass, Pass.state]
    split
    · exact hsettled.same rfl rfl rfl (free_gains ls₁.sch.enc (ls₁.req q))
    · exact hsettled
  | loading _ hg halloc _ hskip =>
    obtain ⟨hsettled, hq₁⟩ := (hgranted hg).allocLoop hq hid halloc
    obtain ⟨qm', -, rfl⟩ := skip_eq_ok hskip
    exact hsettled.assign (hq₁ rfl) rfl rfl ⟨_, _, _, _, rfl⟩ rfl rfl (.refl _ _)
  | admitted _ hg halloc _ hadmitted =>
    obtain ⟨hsettled, hq₁⟩ := (hgranted hg).allocLoop hq hid halloc
    have hgains := admitWaiting_gains ((allocLoop_requestId halloc).trans hid) hadmitted
    obtain ⟨newReqs, resumedReqs, qm', enc, -, -, -, rfl⟩ := admitWaiting_eq_ok hadmitted
    exact hsettled.assign (hq₁ rfl) rfl rfl ⟨_, _, _, _, rfl⟩ rfl rfl hgains

/-- A round settles as before. -/
theorem round {p : Pass (LoopState K EncoderCacheManager) (LoopState K EncoderCacheManager)}
    (h : Settled s ls) (hknown : ∀ q, ls.Treats q → q ∈ ls.sch.objs.keys)
    (hround : ls.round cfg env = .ok p) : Settled s p.state := by
  rcases round_cases hround with rfl | rfl | ⟨q, f, htreats, hf, rfl⟩
  · exact h
  · exact h.same rfl rfl rfl (.refl _ _)
  have hq := htreats.notPreempted
  have hid := h.ids q (hknown q htreats)
  have hreached : ∀ {ls₁}, ls.ReachesWaiting cfg env q ls₁ →
      Settled s ls₁ ∧ q ∉ ls₁.preemptedReqs ∧ (ls₁.req q).requestId = q := by
    intro ls₁ hreach
    unfold ReachesWaiting at hreach
    split at hreach
    · obtain ⟨hsettled, hq₁⟩ := h.runningCandidate hq hid hreach
      obtain ⟨_, _, _, _, hsame⟩ := (touches_runningCandidate hreach).inputs q
      refine ⟨hsettled, hq₁ ls₁ rfl, ?_⟩
      change ((Flow.fall ls₁).toPass.state.req q).requestId = q
      rw [hsame]
      exact hid
    · cases hreach
      exact ⟨h, hq, hid⟩
  rcases candidate_cases hf with ⟨-, hrunning⟩ | ⟨ls₁, hreach, ⟨-, hwaiting⟩ | ⟨-, rfl⟩⟩
  · exact (h.runningCandidate hq hid hrunning).1
  · obtain ⟨hsettled, hq₁, hid₁⟩ := hreached hreach
    exact hsettled.waitingCandidate hq₁ hid₁ hwaiting
  · exact (hreached hreach).1

end Settled

/-! ### Behind the walk -/

/-- What the tail preemption leaves of the end `ls` of the main loop. -/
structure TailSettled (s : Scheduler K EncoderCacheManager) (ls t : LoopState K EncoderCacheManager) :
    Prop where
  putBack : ∀ r ∈ ls.preemptedReqs, PutBack s t r
  numPreemptions : ∀ r, (t.req r).numPreemptions = (ls.req r).numPreemptions

variable [SeparateKVCacheManager K]

/-- The tail preemption of one request. -/
theorem TailSettled.one (h : TailSettled s ls t) (hone : t.tailPreemptOne r = .ok t') :
    TailSettled s ls t' := by
  rcases tailPreemptOne_cases hone with ⟨-, rfl⟩ | ⟨hrun, qm', -, rfl⟩
  · exact h
  refine ⟨fun x hx => ?_, fun x => Eq.trans ?_ (h.numPreemptions x)⟩
  · have hput := h.putBack x hx
    have hne : x ≠ r := fun hxr => by
      subst hxr
      cases hrun.symm.trans hput.status
    exact hput.kept (Objs.req_modify_ne hne) (SeparateKVCacheManager.getBlocks_free _ hne) fun a =>
      free_gains t.sch.enc (t.req r) a x (Set.notMem_empty x)
  · exact t.sch.modifyReq_keeps r (fun q => { q with status := .preempted, numComputedTokens := 0 })
      Request.numPreemptions (fun _ => rfl) x

/-- The tail preemption of some requests, one after the other. -/
theorem Settled.tail {rs : List ReqId} (h : Settled s ls)
    (hfold : rs.foldlM tailPreemptOne ls = .ok t) : TailSettled s ls t :=
  foldlM_invariant (I := fun t => TailSettled s ls t) hfold ⟨h.putBack, fun _ => rfl⟩
    fun _ _ _ _ hI hone => hI.one hone

end LoopState

namespace Scheduler

open LoopState

variable {K : Type} [KVCacheManager K] {cfg : Config} {env : StepEnv} {r : ReqId}
  {s s' : Scheduler K EncoderCacheManager} {ls ls₀ ls₁ t t' : LoopState K EncoderCacheManager}
  {out : SchedulerOutput} {path : PreemptionPath}

/-- What is expected of a request that the step from `s` to `s'` preempts. -/
structure Released (s s' : Scheduler K EncoderCacheManager) (out : SchedulerOutput) (r : ReqId) :
    Prop where
  blocks : (KVCacheManager.getBlocks s'.kv r).flatten = []
  references : ∀ i < (s.req r).mmFeatures.length, ¬ s'.enc.Holds ((s.req r).mmHash i) r
  numComputedTokens : (s'.req r).numComputedTokens = 0
  specTokenIds : (s'.req r).specTokenIds = []
  numPreemptions : (s'.req r).numPreemptions = (s.req r).numPreemptions + 1
  status : (s'.req r).status = .preempted
  preempted : r ∈ s'.queueManager.preemptedReqIds
  notRunning : r ∉ s'.queueManager.runningReqIds
  reported : r ∈ out.preemptedReqIds

instance : Decidable (Released s s' out r) :=
  decidable_of_iff (_ ∧ _ ∧ _ ∧ _ ∧ _ ∧ _ ∧ _ ∧ _ ∧ _)
    ⟨fun ⟨h₁, h₂, h₃, h₄, h₅, h₆, h₇, h₈, h₉⟩ => ⟨h₁, h₂, h₃, h₄, h₅, h₆, h₇, h₈, h₉⟩,
      fun h => ⟨h.1, h.2, h.3, h.4, h.5, h.6, h.7, h.8, h.9⟩⟩

/-- A step begins with nothing to settle. -/
theorem beginStep_settled (hs : s.Named) (h : beginStep cfg env s = .ok ls) : Settled s ls := by
  obtain ⟨objs, requests, hsame, -, -, rfl⟩ := beginStep_eq_ok h
  refine ⟨fun x hx => absurd hx List.not_mem_nil, fun x _ => ?_, fun x => ?_, fun x hx => ?_⟩
  · obtain ⟨prio, hprio⟩ := hsame.req x
    change (objs.req x).numPreemptions = (s.req x).numPreemptions
    rw [hprio]
    rfl
  · obtain ⟨prio, hprio⟩ := hsame.req x
    change (objs.req x).mmFeatures = (s.req x).mmFeatures
    rw [hprio]
    rfl
  · obtain ⟨prio, hprio⟩ := hsame.req x
    change (objs.req x).requestId = x
    rw [hprio]
    exact hs.ids x (hsame.keys ▸ hx)

variable [ReleasingKVCacheManager K]

/-- Every round of a step comes to a settled state. -/
theorem Rounds.settled (hs : s.Named) (h : Rounds cfg env s ls) : Settled s ls := by
  obtain ⟨ls₀, hbegin, hvisits⟩ := h
  refine hvisits.invariant (beginStep_settled hs hbegin) fun t t' ht hI hround => ?_
  exact hI.round (fun q => Rounds.candidate_known ⟨ls₀, hbegin, ht⟩ hs) hround

/-- The main loop ends settled. -/
theorem mainLoop_settled (hs : s.Named) (hbegin : beginStep cfg env s = .ok ls₀)
    (hloop : ls₀.mainLoop cfg env = .ok ls₁) : Settled s ls₁ := by
  obtain ⟨t, ht, hexit⟩ := loop_exit hloop
  have hrounds : Rounds cfg env s t := ⟨ls₀, hbegin, ht⟩
  exact (hrounds.settled hs).round (fun q => hrounds.candidate_known hs) hexit

/-- Of a request whose preemption the main loop reports nothing is left when the step ends. -/
theorem released_of_listed (hc : Coherent s) (hs : s.Named)
    (hgood : StepMeets LoopState.Orderly cfg env s) (hbegin : beginStep cfg env s = .ok ls₀)
    (hloop : ls₀.mainLoop cfg env = .ok ls₁) (htail : ls₁.tailPreempt = .ok ls)
    (hfinish : finishStep cfg ls = .ok (out, s')) (hr : r ∈ ls₁.preemptedReqs) :
    Released s s' out r := by
  have hw := Walked.walking hc hgood ⟨ls₀, ls₁, hbegin, hloop, htail⟩
  have hfin := finishStep_spec hfinish
  have hsettled := mainLoop_settled hs hbegin hloop
  obtain ⟨hput, hreported⟩ : PutBack s ls r ∧ r ∈ ls.preemptedReqs := by
    unfold tailPreempt at htail
    split at htail
    · exact ⟨(hsettled.tail htail).putBack r hr, tailPreempt_reports htail hr⟩
    · cases htail
      exact ⟨hsettled.putBack r hr, hr⟩
  have hidle : r ∉ ls.qm.runningReqIds := fun hR => by
    cases hput.status.symm.trans ((hw.status r).mpr hR)
  have hunscheduled : r ∉ ls.numScheduledTokens.keys := fun hkey =>
    hidle (hw.scheduled r ((hw.scheduledKeys r).mp hkey)).1
  have hreq := hfin.unscheduled r hunscheduled
  exact {
    blocks := by
      rw [hfin.kv]
      split
      · rw [LawfulKVCacheManager.getBlocks_takeNewBlockIds]
        exact hput.blocks
      · exact hput.blocks
    references := fun i hi hh => by
      rw [hfin.enc] at hh
      exact hput.references i hi hh
    numComputedTokens := by rw [hreq]; exact hput.numComputedTokens
    specTokenIds := by rw [hreq]; exact hput.specTokenIds
    numPreemptions := by rw [hreq]; exact hput.numPreemptions
    status := by rw [hreq]; exact hput.status
    preempted := by rw [hfin.queueManager]; exact hw.preempted r hreported
    notRunning := by rw [hfin.queueManager]; exact hidle
    reported := by rw [hfin.preemptedReqIds, List.mem_toFinset]; exact hreported }

/-- The preemption of a request behind the walk is not counted. -/
theorem Preemption.uncounted (hs : s.Named) (hschedule : schedule cfg env s = .ok (out, s'))
    (h : Preemption cfg env s .tail t t' r) : (s'.req r).numPreemptions = (s.req r).numPreemptions := by
  obtain ⟨ls, ⟨ls₀, ls₁, hbegin, hloop, htail⟩, hfinish⟩ := schedule_eq_ok hschedule
  have hsettled := mainLoop_settled hs hbegin hloop
  have hend : (ls.req r).numPreemptions = (ls₁.req r).numPreemptions := by
    unfold tailPreempt at htail
    split at htail
    · exact (hsettled.tail htail).numPreemptions r
    · cases htail
      rfl
  cases h with
  | behind hbegin' hloop' _ _ hdone hrun _ =>
    cases hbegin.symm.trans hbegin'
    cases hloop.symm.trans hloop'
    have hnot : r ∉ ls₁.preemptedReqs := fun hr => by
      cases hrun.symm.trans ((hsettled.tail hdone).putBack r hr).status
    rw [(finishStep_spec hfinish).numPreemptions, hend, hsettled.uncounted r hnot]

/-- The three preemptions agree but for the tail preemption. -/
theorem Preemption.released_iff (hc : Coherent s) (hs : s.Named)
    (hgood : StepMeets LoopState.Orderly cfg env s)
    (hschedule : schedule cfg env s = .ok (out, s')) (h : Preemption cfg env s path t t' r) :
    Released s s' out r ↔ path ≠ .tail := by
  refine ⟨fun hreleased hpath => ?_, fun hpath => ?_⟩
  · subst hpath
    have hcount := hreleased.numPreemptions
    rw [h.uncounted hs hschedule] at hcount
    exact absurd hcount (Nat.ne_of_lt (Nat.lt_succ_self _))
  · obtain ⟨ls, ⟨ls₀, ls₁, hbegin, hloop, htail⟩, hfinish⟩ := schedule_eq_ok hschedule
    exact released_of_listed hc hs hgood hbegin hloop htail hfinish (h.listed hbegin hloop hpath)

end Scheduler

namespace System

open Scheduler

variable {K : Type} [KVCacheManager K] [ReleasingKVCacheManager K] {cfg : Config} {env : StepEnv}
  {sys : System K EncoderCacheManager} {s' : Scheduler K EncoderCacheManager}
  {out : SchedulerOutput}

/-- The most urgent request comes first. -/
def urgentFirst (numBlocks : ℕ) : Config :=
  { conservationCfg with policy := .edf, numBlocks := numBlocks }

/-- A request with a prompt of the given length and a deadline. -/
def urgentRequest (r : ReqId) (slo : ℤ) (numPromptTokens : ℕ) : Request :=
  { shortRequest r with
    arrivalTime := 0
    promptTokenIds := List.replicate numPromptTokens 1
    numPromptTokens := numPromptTokens
    allTokenIds := List.replicate numPromptTokens 1
    requestMd := some { slo := slo } }

/-- A request runs when a more urgent one comes that takes all the tokens of a step. -/
def urgentTakesTokens : List Op :=
  [.addRequest (urgentRequest 1 9 2) fun _ => false, .schedule {},
    .updateFromOutput 0 { sampledTokenIds := fun _ => [5] },
    .addRequest (urgentRequest 2 1 8) fun _ => false]

end System

end RpsServe
