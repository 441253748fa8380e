import RpsServe.Worker.HandsOut
import RpsServe.Scheduler.EncoderCalls
import RpsServe.Scheduler.GonePast

/-!
# The encoder outputs that a step supplies

A worker keeps the encoder outputs it has computed until it is told to free them, and computes
those that a step schedules. During the walk every item in the scheduler's cache is one that
the worker holds and is not told to free, or one that the step schedules. A scheduled request
refers to all items with embeddings among its tokens, and as long as the walk does not preempt what
it has gone past, they stay cached to its end.
-/

namespace RpsServe

open EncoderCacheManager

/-! ### What a candidate is granted -/

/-- The items with embeddings among the granted tokens are cached for the request, or granted. -/
def Grant.Provides (g : Grant) (q : Request) (numComputedTokens : ℤ) (enc : EncoderCacheManager) :
    Prop :=
  ∀ f ∈ q.mmFeatures, f.HasEmbedsIn numComputedTokens (numComputedTokens + g.numNewTokens) →
    enc.Holds f.identifier q.requestId ∨ ∃ i ∈ g.encoderInputsToSchedule, q.mmHash i = f.identifier

/-- The items of a request stand in the order of their offsets. -/
def Request.ItemsInOrder (q : Request) : Prop :=
  q.mmFeatures.Pairwise fun f g => f.offset ≤ g.offset

variable {cfg : Config} {env : StepEnv} {q : Request} {m m' : EncoderCacheManager}

/-- The shift of the computed tokens is not negative. -/
theorem Config.shiftComputedTokens_nonneg (cfg : Config) : 0 ≤ cfg.shiftComputedTokens := by
  unfold shiftComputedTokens
  split <;> decide

/-- Without an EC connector nothing is loaded from outside. -/
theorem tryScheduleEncoderInputs_external {numComputedTokens n budget shift : ℤ}
    {p : EncoderPass EncoderCacheManager} (hec : cfg.ecConnector = false)
    (h : tryScheduleEncoderInputs cfg env m q numComputedTokens n budget shift = .ok p) :
    p.externalLoadEncoderInput = [] := by
  unfold tryScheduleEncoderInputs at h
  dsimp only at h
  split at h
  · cases h
    rfl
  · exact encoderItems_external hec h

/-- What the walk over the items of a candidate provides. -/
theorem tryScheduleEncoderInputs_provides {numComputedTokens n budget shift : ℤ}
    {p : EncoderPass EncoderCacheManager} (hdec : cfg.isEncoderDecoder = false)
    (hec : cfg.ecConnector = false) (hshift : 0 ≤ shift) (henc : m.Consistent)
    (hsorted : q.ItemsInOrder)
    (h : tryScheduleEncoderInputs cfg env m q numComputedTokens n budget shift = .ok p) :
    ∀ f ∈ q.mmFeatures, f.HasEmbedsIn numComputedTokens (numComputedTokens + p.numNewTokens) →
      p.enc.Holds f.identifier q.requestId ∨
        ∃ i ∈ p.encoderInputsToSchedule, q.mmHash i = f.identifier := by
  intro f hf hin
  have hpos : 0 < p.numNewTokens := by
    obtain ⟨k, -, hlo, hhi⟩ := hin
    omega
  have hle := tryScheduleEncoderInputs_tokens_le h
  have hn : 0 < n := by omega
  have hexternal := tryScheduleEncoderInputs_external hec h
  unfold tryScheduleEncoderInputs at h
  dsimp only at h
  split at h
  · rename_i hnone
    rcases hnone with hzero | hnone
    · omega
    · have hempty : q.mmFeatures = [] :=
        List.isEmpty_iff.mp (by simpa [Request.hasEncoderInputs] using hnone)
      rw [hempty] at hf
      exact absurd hf List.not_mem_nil
  · have hspec := @encoderItems_spec cfg env q numComputedTokens shift 0 q.mmFeatures
      { enc := m, numNewTokens := n, encoderComputeBudget := budget } hdec hshift List.drop_zero
      hsorted (.start henc _ _) hn.le
    obtain ⟨p', hwalk, hfits, -, -, -, hprovided⟩ := hspec
    cases hwalk.symm.trans h
    refine (hprovided f hf hin).imp_right fun hmem => ?_
    obtain ⟨i, hi, heq⟩ := (hfits.hashes _).mp hmem
    rw [EncoderPass.inputs, hexternal, List.append_nil] at hi
    exact ⟨i, hi, heq⟩

/-- Allocating the listed items of a request, of which none is cached. -/
theorem allocateEncoderInputs_adds {inputs : List ℕ} (hm : m.Wf) (hlacks : m.Lacks q inputs)
    (h : allocateEncoderInputs q inputs m = .ok m') :
    Adds (inputs.map q.mmHash) q.requestId m m' := by
  induction inputs generalizing m with
  | nil =>
    cases h
    exact ⟨hm, fun a => by simp, rfl, fun _ _ hh => hh, fun a ha => by simp at ha⟩
  | cons i rest ih =>
    obtain ⟨m₁, hone, h⟩ := bind_eq_ok.mp h
    have hnew := hlacks.missing i List.mem_cons_self
    have hadds := allocate_adds hm hnew hone
    obtain ⟨-, heq⟩ := allocate_eq_ok hnew hone
    have hrest := ih hadds.wf (hlacks.tail (by rw [heq])) h
    refine ⟨hrest.wf, fun a => ?_, hrest.freed.trans hadds.freed,
      fun a x hh => hrest.holds a x (hadds.holds a x hh), fun a ha => ?_⟩
    · rw [hrest.keys, hadds.keys]
      simp only [List.map_cons, List.mem_cons, List.not_mem_nil, or_false]
      tauto
    · rw [List.map_cons] at ha
      rcases List.mem_cons.mp ha with rfl | ha
      · exact hrest.holds _ _ (hadds.added _ List.mem_cons_self)
      · exact hrest.added a ha

namespace LoopState

variable {K : Type} {ls : LoopState K EncoderCacheManager} {r : ReqId} {g : Grant}

/-- A grant that can be committed in the cache: the granted items are not in it, and the others with
embeddings among the tokens are cached for the request. -/
structure Stands (g : Grant) (q : Request) (numComputedTokens : ℤ) (m : EncoderCacheManager) :
    Prop where
  allocatable : Grant.Allocatable g q m
  provides : g.Provides q numComputedTokens m
  external : g.externalLoadEncoderInput = []

/-- A grant comes with a cache that has only given items away. -/
structure Granted (ls : LoopState K EncoderCacheManager) (r : ReqId) (numComputedTokens : ℤ)
    (g : Grant) (enc : EncoderCacheManager) : Prop where
  shrinks : Shrinks ∅ ls.sch.enc enc
  stands : Stands g (ls.req r) numComputedTokens enc

/-- The lookups of a pass take no reference away. -/
theorem shrinks_lookups (q : Request) (base : EncoderCacheManager)
    (lookups : List (ℕ × EncoderCacheManager)) : LookupRule q lookups (Shrinks ∅ base) where
  lookup _ _ _ _ _ _ hm hcheck := hm.trans (checkAndUpdateCache_spec hm.wf hcheck).1
  room _ _ _ _ _ _ hm hcan := hm.trans (canAllocate_shrinks hm.wf hcan)

/-- A running candidate. -/
theorem runningGrant_granted {enc : EncoderCacheManager} (hdec : cfg.isEncoderDecoder = false)
    (hec : cfg.ecConnector = false) (henc : ls.sch.enc.Consistent)
    (hsorted : (ls.req r).ItemsInOrder) (h : ls.runningGrant cfg env r = .ok (enc, g)) :
    Granted ls r (ls.req r).numComputedTokens g enc := by
  obtain ⟨p, hp, h⟩ := bind_eq_ok.mp h
  obtain ⟨n, hn, h⟩ := bind_eq_ok.mp h
  cases h
  have halign := alignTokens_le hn
  refine ⟨tryScheduleEncoderInputs_rule hp (.refl henc.wf) (shrinks_lookups _ _ _),
    (tryScheduleEncoderInputs_chosen hdec hp).lacks, fun f hf hin => ?_,
    tryScheduleEncoderInputs_external hec hp⟩
  refine tryScheduleEncoderInputs_provides hdec hec cfg.shiftComputedTokens_nonneg henc hsorted hp f
    hf (hin.mono ?_)
  obtain ⟨k, -, hlo, hhi⟩ := hin
  dsimp only at hhi ⊢
  omega

/-- Aligning a grant leaves what its inputs provide. -/
theorem alignGrant_provides {c : CachedPrefix} {enc₀ enc : EncoderCacheManager} {g₀ : Grant}
    (hprovides : g₀.Provides q c.numComputedTokens enc₀)
    (hexternal : g₀.externalLoadEncoderInput = [])
    (h : alignGrant cfg q c enc₀ g₀ = .ok (.granted enc g)) :
    g.Provides q c.numComputedTokens enc ∧ g.externalLoadEncoderInput = [] := by
  obtain ⟨n, hn, h⟩ := bind_eq_ok.mp h
  have halign := alignTokens_le hn
  split at h
  · cases h
  · cases h
    refine ⟨fun f hf hin => hprovides f hf (hin.mono ?_), hexternal⟩
    obtain ⟨k, -, hlo, hhi⟩ := hin
    dsimp only at hhi ⊢
    omega

/-- A waiting candidate. -/
theorem waitingGrant_granted {c : CachedPrefix} {enc : EncoderCacheManager}
    (hdec : cfg.isEncoderDecoder = false) (hec : cfg.ecConnector = false)
    (henc : ls.sch.enc.Consistent) (hsorted : (ls.req r).ItemsInOrder)
    (h : ls.waitingGrant cfg env r c = .ok (.granted enc g)) :
    Granted ls r c.numComputedTokens g enc := by
  have hshrinks := (waitingGrant_rule h (.refl henc.wf)
    (shrinks_lookups (ls.req r) ls.sch.enc _)).2 _ _ rfl
  have hlacks := waitingGrant_serves hdec h
  obtain ⟨hprovides, hexternal⟩ : g.Provides (ls.req r) c.numComputedTokens enc ∧
      g.externalLoadEncoderInput = [] := by
    unfold waitingGrant at h
    dsimp only at h
    split at h
    · split at h
      · refine alignGrant_provides (fun f hf hin => ?_) rfl h
        obtain ⟨k, -, hlo, hhi⟩ := hin
        dsimp only at hhi
        omega
      · cases h
    split at h
    · cases h
    split at h
    · cases h
    split at h
    · cases h
    obtain ⟨p, hp, h⟩ := bind_eq_ok.mp h
    split at h
    · cases h
    · refine alignGrant_provides ?_ (tryScheduleEncoderInputs_external hec hp) h
      exact tryScheduleEncoderInputs_provides hdec hec cfg.shiftComputedTokens_nonneg henc hsorted hp
  exact ⟨hshrinks, hlacks, hprovides, hexternal⟩

/-! ### The walk -/

/-- The step schedules an item with the hash. -/
def Computes (s : Scheduler K EncoderCacheManager) (inputs : Dict ReqId (List ℕ)) (h : MmHash) :
    Prop :=
  ∃ r is, inputs.get? r = some is ∧ ∃ i ∈ is, (s.req r).mmHash i = h

/-- The encoder outputs in a round of the step from `s`, when the worker holds those in `W`. -/
structure Supplied (W : Finset MmHash) (s : Scheduler K EncoderCacheManager)
    (ls : LoopState K EncoderCacheManager) : Prop where
  wf : ls.sch.enc.Wf
  features : ∀ r, (ls.req r).mmFeatures = (s.req r).mmFeatures
  ids : ∀ r, (ls.req r).mmFeatures ≠ [] → (ls.req r).requestId = r
  backed : ∀ h ∈ ls.sch.enc.cached.keys,
    (h ∈ W ∧ h ∉ ls.sch.enc.freed) ∨ Computes s ls.scheduledEncoderInputs h
  scheduled : ∀ r ∈ ls.scheduledEncoderInputs.keys, r ∈ ls.scheduledReqs
  known : ∀ r is, ls.scheduledEncoderInputs.get? r = some is →
    ∀ i ∈ is, i < (s.req r).mmFeatures.length
  referred : ∀ r n, ls.numScheduledTokens.get? r = some n → ∀ f ∈ (s.req r).mmFeatures,
    f.HasEmbedsIn (ls.req r).numComputedTokens ((ls.req r).numComputedTokens + n) →
      ls.sch.enc.Holds f.identifier r

namespace Supplied

variable {W : Finset MmHash} {s : Scheduler K EncoderCacheManager}
  {ls' t : LoopState K EncoderCacheManager} {who : Set ReqId}

/-- A request frees the references under its own id, if it has items at all. -/
theorem free_shrinks (h : Supplied W s ls) (r : ReqId) :
    Shrinks {r} ls.sch.enc (ls.sch.enc.free (ls.req r)) := by
  by_cases hitems : (ls.req r).mmFeatures = []
  · rw [EncoderCacheManager.free_of_noItems hitems]
    exact .refl h.wf
  · have hshrinks := (EncoderCacheManager.free_shrinks h.wf (ls.req r)).1
    rwa [h.ids r hitems] at hshrinks

/-- A cache that gives items away, while only requests that are not scheduled are written to. -/
theorem of_frame (h : Supplied W s ls) (hshrinks : Shrinks who ls.sch.enc ls'.sch.enc)
    (hwho : ∀ r ∈ ls.numScheduledTokens.keys, r ∉ who)
    (hinputs : ls'.scheduledEncoderInputs = ls.scheduledEncoderInputs)
    (hnum : ls'.numScheduledTokens = ls.numScheduledTokens)
    (hsched : ls'.scheduledReqs = ls.scheduledReqs)
    (hfeatures : ∀ r, (ls'.req r).mmFeatures = (ls.req r).mmFeatures)
    (hids : ∀ r, (ls'.req r).requestId = (ls.req r).requestId)
    (hcomputed : ∀ r ∈ ls.numScheduledTokens.keys,
      (ls'.req r).numComputedTokens = (ls.req r).numComputedTokens) : Supplied W s ls' where
  wf := hshrinks.wf
  features r := (hfeatures r).trans (h.features r)
  ids r hr := (hids r).trans (h.ids r (hfeatures r ▸ hr))
  backed a ha := by
    rw [hinputs]
    refine (h.backed a (hshrinks.keys ha)).imp_left fun ⟨hW, hfreed⟩ => ⟨hW, fun hmem => ?_⟩
    exact hfreed (hshrinks.freed a ha hmem)
  scheduled r hr := hsched ▸ h.scheduled r (hinputs ▸ hr)
  known r is his := h.known r is (hinputs ▸ his)
  referred r n hn f hf hin := by
    rw [hnum] at hn
    have hr := Dict.mem_keys_of_get? hn
    rw [hcomputed r hr] at hin
    exact hshrinks.holds _ r (hwho r hr) (h.referred r n hn f hf hin)

/-- Another cache, queue manager, KV cache manager and index. -/
theorem setEnc (h : Supplied W s ls) {enc : EncoderCacheManager}
    (hshrinks : Shrinks ∅ ls.sch.enc enc) (kv : K) (qm : QueueManager) (n : ℕ) :
    Supplied W s { ls with
      sch := { ls.sch with kv := kv, enc := enc, queueManager := qm }
      reqIndex := n } :=
  h.of_frame hshrinks (fun _ _ => Set.notMem_empty _) rfl rfl rfl (fun _ => rfl) (fun _ => rfl)
    fun _ _ => rfl

/-- Writing to a request that is not scheduled, which may give its references up. -/
theorem write {f : Request → Request} {v : ReqId} {kv : K} {enc : EncoderCacheManager}
    {qm : QueueManager} {n : ℕ} {preemptedReqs : List ReqId} (h : Supplied W s ls)
    (hshrinks : Shrinks {v} ls.sch.enc enc) (hv : v ∉ ls.numScheduledTokens.keys)
    (hfeatures : ∀ q, (f q).mmFeatures = q.mmFeatures)
    (hids : ∀ q, (f q).requestId = q.requestId) :
    Supplied W s { ls with
      sch := { ls.sch with
        kv := kv
        enc := enc
        objs := ls.sch.objs.modify v f
        queueManager := qm }
      preemptedReqs := preemptedReqs
      reqIndex := n } := by
  have hne : ∀ r ∈ ls.numScheduledTokens.keys, r ≠ v := by
    rintro r hr rfl
    exact hv hr
  refine h.of_frame hshrinks (fun r hr => hne r hr) rfl rfl rfl
    (Scheduler.modifyReq_keeps ls.sch v f Request.mmFeatures hfeatures)
    (Scheduler.modifyReq_keeps ls.sch v f Request.requestId hids) fun r hr => ?_
  exact congrArg Request.numComputedTokens (Objs.req_modify_ne (hne r hr))

/-- The step schedules a request with what it is granted. -/
theorem grant {f : Request → Request} {numComputedTokens : ℤ} {enc : EncoderCacheManager}
    (h : Supplied W s t) (hfresh : r ∉ t.scheduledReqs)
    (hstands : Stands g (t.req r) numComputedTokens t.sch.enc)
    (hfeatures : ∀ q, (f q).mmFeatures = q.mmFeatures)
    (hids : ∀ q, (f q).requestId = q.requestId)
    (hcomputed : (f (t.req r)).numComputedTokens = numComputedTokens)
    (halloc : allocateEncoderInputs ((t.modifyReq r f).req r)
      (g.encoderInputsToSchedule ++ g.externalLoadEncoderInput) t.sch.enc = .ok enc)
    (hobjs : ls'.sch.objs = t.sch.objs.modify r f) (henc : ls'.sch.enc = enc)
    (hinputs : ls'.scheduledEncoderInputs =
      if g.encoderInputsToSchedule = [] then t.scheduledEncoderInputs
      else t.scheduledEncoderInputs.set r g.encoderInputsToSchedule)
    (hnum : ls'.numScheduledTokens = t.numScheduledTokens.set r g.numNewTokens)
    (hsched : ∀ x, x ∈ ls'.scheduledReqs ↔ x ∈ t.scheduledReqs ∨ x = r) : Supplied W s ls' := by
  obtain ⟨hlacks, hprovides, hexternal⟩ := hstands
  have hreq : ∀ x, ls'.req x = (t.modifyReq r f).req x := fun x => by
    rw [req, Scheduler.req, hobjs]
    rfl
  have hitems : ∀ x, (ls'.req x).mmFeatures = (t.req x).mmFeatures := fun x =>
    hreq x ▸ Scheduler.modifyReq_keeps t.sch r f Request.mmFeatures hfeatures x
  have hid : ∀ x, (ls'.req x).requestId = (t.req x).requestId := fun x =>
    hreq x ▸ Scheduler.modifyReq_keeps t.sch r f Request.requestId hids x
  have hother : ∀ x, x ≠ r → ls'.req x = t.req x := fun x hx =>
    (hreq x).trans (Objs.req_modify_ne hx)
  rw [hexternal, List.append_nil, ← hreq] at halloc
  rw [Grant.Allocatable, hexternal, List.append_nil] at hlacks
  have hhash : ∀ i, (ls'.req r).mmHash i = (s.req r).mmHash i := fun i => by
    rw [Request.mmHash, Request.mmHash, hitems, h.features]
  have hadds := allocateEncoderInputs_adds h.wf (hlacks.congr (hitems r)) halloc
  rw [hid, ← henc] at hadds
  have hnone : r ∉ t.scheduledEncoderInputs.keys := fun hmem => hfresh (h.scheduled r hmem)
  have hget : ∀ x is, ls'.scheduledEncoderInputs.get? x = some is →
      (x ≠ r ∧ t.scheduledEncoderInputs.get? x = some is) ∨
        x = r ∧ is = g.encoderInputsToSchedule := by
    intro x is his
    rw [hinputs] at his
    by_cases hx : x = r
    · subst hx
      split at his
      · exact absurd (Dict.mem_keys_of_get? his) hnone
      · rw [Dict.get?_set_self] at his
        exact .inr ⟨rfl, (Option.some.inj his).symm⟩
    · refine .inl ⟨hx, ?_⟩
      split at his
      · exact his
      · rwa [Dict.get?_set_ne _ _ (Ne.symm hx)] at his
  have hkept : ∀ {a}, Computes s t.scheduledEncoderInputs a →
      Computes s ls'.scheduledEncoderInputs a := by
    rintro a ⟨x, is, his, hmem⟩
    refine ⟨x, is, ?_, hmem⟩
    rw [hinputs]
    split
    · exact his
    · rw [Dict.get?_set_ne _ _ ?_]
      · exact his
      · rintro rfl
        exact hnone (Dict.mem_keys_of_get? his)
  have hown : ∀ i ∈ g.encoderInputsToSchedule,
      Computes s ls'.scheduledEncoderInputs ((s.req r).mmHash i) := by
    intro i hi
    refine ⟨r, g.encoderInputsToSchedule, ?_, i, hi, rfl⟩
    rw [hinputs, if_neg (List.ne_nil_of_mem hi), Dict.get?_set_self]
  refine ⟨hadds.wf, fun x => ?_, fun x hx => ?_, fun a ha => ?_, fun x hx => ?_,
    fun x is his i hi => ?_, fun x n hn f' hf' hin => ?_⟩
  · rw [hitems, h.features]
  · rw [hid, h.ids x (hitems x ▸ hx)]
  · rcases (hadds.keys a).mp ha with ha | ha
    · obtain ⟨i, hi, rfl⟩ := List.mem_map.mp ha
      rw [hhash]
      exact .inr (hown i hi)
    · rw [hadds.freed]
      exact (h.backed a ha).imp_right hkept
  · rw [hsched]
    obtain ⟨is, his⟩ := Option.isSome_iff_exists.mp ((Dict.isSome_get? _ _).mpr hx)
    rcases hget x is his with ⟨-, his⟩ | ⟨rfl, -⟩
    · exact .inl (h.scheduled x (Dict.mem_keys_of_get? his))
    · exact .inr rfl
  · rcases hget x is his with ⟨-, his⟩ | ⟨rfl, rfl⟩
    · exact h.known x is his i hi
    · rw [← h.features]
      exact hlacks.own i hi
  · rw [hnum] at hn
    by_cases hx : x = r
    · subst hx
      rw [Dict.get?_set_self, Option.some.injEq] at hn
      rw [← h.features] at hf'
      have hsome : (t.req x).mmFeatures ≠ [] := List.ne_nil_of_mem hf'
      have hself : ls'.req x = f (t.req x) :=
        (hreq x).trans (Objs.req_modify_self (known_of_items hsome))
      rw [hself, hcomputed, ← hn] at hin
      have hid := h.ids x hsome
      rw [hid] at hadds
      rcases hprovides f' hf' hin with hh | ⟨i, hi, hi'⟩
      · exact hadds.holds _ _ (hid ▸ hh)
      · refine hadds.added _ (List.mem_map.mpr ⟨i, hi, ?_⟩)
        rw [hhash, ← hi', Request.mmHash, Request.mmHash, h.features]
    · rw [Dict.get?_set_ne _ _ (Ne.symm hx)] at hn
      rw [hother x hx] at hin
      exact hadds.holds _ _ (h.referred x n hn f' hf' hin)

variable [KVCacheManager K] {q v : ReqId} {kv : K} {l : ℕ} {args : AllocateSlotsArgs}
  {enc : EncoderCacheManager} {numComputedTokens : ℤ}

/-! ### Allocation loops -/

/-- A preemption at or behind the walk takes references from its victim alone. -/
theorem preempt (h : Supplied W s t) (hw : GonePast t) (hpre : Preempts q args t l v kv)
    (hl : t.reqIndex ≤ l) (hvictim : (t.setKv kv).preemptVictim v = .ok ls') :
    Supplied W s ls' ∧ Shrinks {v} t.sch.enc ls'.sch.enc := by
  obtain ⟨qm', -, rfl⟩ := hw.preempt_eq hpre hl hvictim
  have hshrinks := h.free_shrinks v
  exact ⟨h.write (n := t.reqIndex) hshrinks (hw.unscheduled hpre.stands hl) (fun _ => rfl)
    (fun _ => rfl), hshrinks⟩

/-- The rounds of an allocation loop for a candidate with a grant. -/
theorem visits (h : Supplied W s ls) (hw : GonePast ls)
    (hstands : Stands g (ls.req q) numComputedTokens ls.sch.enc)
    (hgood : ∀ t l v kv, Visits (allocRound q args) ls t → Preempts q args t l v kv →
      t.reqIndex ≤ l) (ht : Visits (allocRound q args) ls t) :
    Supplied W s t ∧ GonePast t ∧ t.req q = ls.req q ∧
      Stands g (ls.req q) numComputedTokens t.sch.enc := by
  refine alloc_invariant (I := fun t => Supplied W s t ∧ GonePast t ∧ t.req q = ls.req q ∧
    Stands g (ls.req q) numComputedTokens t.sch.enc) ht ⟨h, hw, rfl, hstands⟩
    fun u l v kv u' hu hI hpre hne hvictim => ?_
  obtain ⟨hsup, hwalk, hsame, hu⟩ := hI
  have hl := hgood u l v kv ‹_› hpre
  obtain ⟨hsup', hshrinks⟩ := hsup.preempt hwalk hpre hl hvictim
  have hframe := preemptVictim_freesOnly hvictim
  refine ⟨hsup', (hwalk.preempt hpre hl hvictim).1, ?_, hu.allocatable.mono hframe.keys,
    fun f hf hin => (hu.provides f hf hin).imp_left (hshrinks.holds _ _ ?_), hu.external⟩
  · obtain ⟨qm', -, rfl⟩ := hwalk.preempt_eq hpre hl hvictim
    exact (Objs.req_modify_ne (Ne.symm hne)).trans hsame
  · rw [h.ids q (List.ne_nil_of_mem hf)]
    exact Ne.symm hne

/-- An allocation loop that finds no blocks. -/
theorem allocLoop_none (h : Supplied W s ls) (hw : GonePast ls)
    (hstands : Stands g (ls.req q) numComputedTokens ls.sch.enc)
    (hgood : ∀ t l v kv, Visits (allocRound q args) ls t → Preempts q args t l v kv →
      t.reqIndex ≤ l) (hloop : ls.allocLoop q args = .ok (none, ls')) : Supplied W s ls' := by
  obtain ⟨t, ht, hexit⟩ := allocLoop_outcome hloop
  obtain ⟨hsup, hwalk, -⟩ := h.visits hw hstands hgood ht
  cases hexit with
  | noneRunning halloc | kept halloc => exact hsup.setEnc (.refl hsup.wf) _ _ _
  | itself hpre hvictim => exact (hsup.preempt hwalk hpre (hgood t _ _ _ ht hpre) hvictim).1

/-- An allocation loop that finds blocks does so in a round of the walk. -/
theorem allocLoop_some {blocks : KVCacheBlocks} (h : Supplied W s ls) (hw : GonePast ls)
    (hstands : Stands g (ls.req q) numComputedTokens ls.sch.enc)
    (hgood : ∀ t l v kv, Visits (allocRound q args) ls t → Preempts q args t l v kv →
      t.reqIndex ≤ l) (hloop : ls.allocLoop q args = .ok (some blocks, ls')) :
    ∃ t kv, ls' = t.setKv kv ∧ Supplied W s t ∧ GonePast t ∧ t.reqIndex = ls.reqIndex ∧
      t.qm.combined = ls.qm.combined ∧ t.req q = ls.req q ∧
      Stands g (ls.req q) numComputedTokens t.sch.enc := by
  obtain ⟨t, ht, hexit⟩ := allocLoop_outcome hloop
  obtain ⟨hsup, hwalk, hsame, hstands'⟩ := h.visits hw hstands hgood ht
  cases hexit with
  | found halloc =>
    exact ⟨t, _, rfl, hsup, hwalk, (hw.visits ht hgood).2, (visits_sameWaiting ht).combined, hsame,
      hstands'⟩

/-! ### Rounds -/

/-- A round that preempts no request that the walk has gone past keeps the encoder outputs accounted
for. -/
theorem round {p : Pass (LoopState K EncoderCacheManager) (LoopState K EncoderCacheManager)}
    (hdec : cfg.isEncoderDecoder = false) (hec : cfg.ecConnector = false) (h : Supplied W s ls)
    (hw : GonePast ls) (henc : ls.sch.enc.Consistent) (hsorted : ∀ r, (s.req r).ItemsInOrder)
    (hround : RoundOutcome cfg env ls p) (hgood : ∀ e, RoundEvent cfg env ls e → Spares e) :
    Supplied W s p.state := by
  have horder : ∀ r, (ls.req r).ItemsInOrder := fun r => by
    rw [Request.ItemsInOrder, h.features]
    exact hsorted r
  have hset : ∀ {r c g enc}, Granted ls r c g enc → Supplied W s (ls.setEnc enc) := fun hg =>
    h.setEnc hg.shrinks _ _ _
  cases hround with
  | exhausted | spent | preempted | stuck => exact h
  | passed => exact h.setEnc (.refl h.wf) _ _ _
  | @running r f htreats hR houtcome =>
    cases houtcome with
    | noTokens hgrant =>
      have hg := runningGrant_granted hdec hec henc (horder r) hgrant
      exact (hset hg).setEnc (.refl hg.shrinks.wf) _ _ _
    | noBlocks hgrant hpos halloc =>
      have hg := runningGrant_granted hdec hec henc (horder r) hgrant
      exact (hset hg).allocLoop_none (hw.setEnc _) hg.stands
        (fun t l v kv ht hpre => hgood _ (.preemptForRunning htreats hR hgrant hpos ht hpre)) halloc
    | @scheduled enc g newBlocks ls₁ ls₂ hgrant hpos halloc hsched =>
      have hg := runningGrant_granted hdec hec henc (horder r) hgrant
      obtain ⟨t, kv, rfl, hsup, hwalk, hindex, hcombined, hsame, hstands⟩ :=
        (hset hg).allocLoop_some (hw.setEnc _) hg.stands
          (fun t l v kv ht hpre => hgood _ (.preemptForRunning htreats hR hgrant hpos ht hpre)) halloc
      have hat : t.qm.combined[t.reqIndex]? = some r := by
        rw [hcombined, hindex]
        exact htreats.stands
      rw [← hsame] at hstands
      have hadded := scheduleRunning_scheduledReqs hsched
      obtain ⟨enc', spec, henc', rfl⟩ := scheduleRunning_eq_ok hsched
      exact hsup.grant (f := fun q => { q with specTokenIds := [] }) (hwalk.fresh hat le_rfl)
        hstands (fun _ => rfl) (fun _ => rfl)
        (show (t.req r).numComputedTokens = (ls.req r).numComputedTokens by rw [hsame]; rfl)
        henc' rfl rfl rfl rfl hadded
  | @waiting r f htreats hR hW houtcome =>
    have hnum : r ∉ ls.numScheduledTokens.keys := hw.unscheduled htreats.stands le_rfl
    cases houtcome with
    | ignoredPrompt _ hignore | ignoredEncoderInputs _ _ hignore =>
      obtain ⟨qm', -, rfl⟩ := ignore_eq_ok hignore
      exact h.write (.refl h.wf) hnum (fun _ => rfl) fun _ => rfl
    | skipped _ hskip =>
      obtain ⟨qm', -, rfl⟩ := skip_eq_ok hskip
      exact h.setEnc (.refl h.wf) _ _ _
    | blocked _ hg =>
      exact h.setEnc ((waitingGrant_rule hg (.refl h.wf) (shrinks_lookups _ _ _)).1 _ rfl) _ _ _
    | @noBlocks c enc g ls₁ hcached hgrant halloc =>
      have hg := waitingGrant_granted hdec hec henc (horder r) hgrant
      have hat : ∀ t l v kv, Visits (allocRound r _) _ t → Preempts r _ t l v kv →
          t.reqIndex ≤ l := fun t l v kv ht hpre =>
        hgood _ (.preemptForWaiting htreats hR hW hcached hgrant ht hpre)
      have hsup := (hset hg).allocLoop_none (hw.setEnc _) hg.stands hat halloc
      obtain ⟨hw₁, hindex⟩ := (hw.setEnc _).allocLoop halloc hat
      dsimp only [Flow.toPass, Pass.state]
      split
      · have hstands : ls₁.qm.combined[ls₁.reqIndex]? = some r := by
          rw [hindex, (allocLoop_sameWaiting halloc).combined]
          exact htreats.stands
        refine hsup.of_frame (hsup.free_shrinks r) (fun x hx hmem => ?_) rfl rfl rfl (fun _ => rfl)
          (fun _ => rfl) fun _ _ => rfl
        rw [Set.mem_singleton_iff] at hmem
        exact hw₁.unscheduled hstands le_rfl (hmem ▸ hx)
      · exact hsup
    | loading hcached hgrant halloc hload hskip =>
      have hg := waitingGrant_granted hdec hec henc (horder r) hgrant
      obtain ⟨t, kv, rfl, hsup, hwalk, hindex, hcombined, -, -⟩ :=
        (hset hg).allocLoop_some (hw.setEnc _) hg.stands
          (fun t l v kv ht hpre =>
            hgood _ (.preemptForWaiting htreats hR hW hcached hgrant ht hpre)) halloc
      have hat : t.qm.combined[t.reqIndex]? = some r := by
        rw [hcombined, hindex]
        exact htreats.stands
      obtain ⟨qm', -, rfl⟩ := skip_eq_ok hskip
      exact hsup.write (.refl hsup.wf) (hwalk.unscheduled hat le_rfl) (fun _ => rfl) fun _ => rfl
    | admitted hcached hgrant halloc hload hadmitted =>
      have hg := waitingGrant_granted hdec hec henc (horder r) hgrant
      obtain ⟨t, kv, rfl, hsup, hwalk, hindex, hcombined, hsame, hstands⟩ :=
        (hset hg).allocLoop_some (hw.setEnc _) hg.stands
          (fun t l v kv ht hpre =>
            hgood _ (.preemptForWaiting htreats hR hW hcached hgrant ht hpre)) halloc
      have hat : t.qm.combined[t.reqIndex]? = some r := by
        rw [hcombined, hindex]
        exact htreats.stands
      rw [← hsame] at hstands
      have hadded := admitWaiting_scheduledReqs hadmitted
      obtain ⟨newReqs, resumedReqs, qm', enc', -, -, henc', rfl⟩ := admitWaiting_eq_ok hadmitted
      exact hsup.grant (f := fun q => { q with
          status := .running
          numComputedTokens := _ }) (hwalk.fresh hat le_rfl) hstands
        (fun _ => rfl) (fun _ => rfl) rfl henc' rfl rfl rfl rfl hadded

/-- The tail preemption behind the walk. -/
theorem tailPreempt (h : Supplied W s ls) (hw : GonePast ls) (htail : ls.tailPreempt = .ok t) :
    Supplied W s t := by
  unfold LoopState.tailPreempt at htail
  split at htail
  · refine And.left (foldlM_invariant
      (I := fun u => Supplied W s u ∧ u.numScheduledTokens = ls.numScheduledTokens) htail ⟨h, rfl⟩
      fun r hr u u' hI hone => ?_)
    obtain ⟨hsup, hnum⟩ := hI
    rcases tailPreemptOne_cases hone with ⟨-, rfl⟩ | ⟨-, qm', -, rfl⟩
    · exact ⟨hsup, hnum⟩
    · obtain ⟨k, hle, hk⟩ := mem_behind.mp hr
      exact ⟨hsup.write (n := u.reqIndex) (hsup.free_shrinks r) (hnum ▸ hw.unscheduled hk hle)
        (fun _ => rfl) fun _ => rfl, hnum⟩
  · cases htail
    exact h

end Supplied

end LoopState

namespace Scheduler

variable {K : Type} [KVCacheManager K] {s s' : Scheduler K EncoderCacheManager}
  {ls : LoopState K EncoderCacheManager} {out : SchedulerOutput} {W : Finset MmHash}

/-- What the scheduler keeps between two steps: a worker that holds the outputs in `W` holds all that
are cached, and it knows of all that were evicted. -/
structure Backed (W : Finset MmHash) (s : Scheduler K EncoderCacheManager) : Prop where
  cached : ∀ h ∈ s.enc.cached.keys, h ∈ W
  reported : s.enc.freed = []

omit [KVCacheManager K] in
/-- References that are given up leave the items cached. -/
theorem Backed.givesUp (h : Backed W s) (hgives : GivesUp s.enc s'.enc) (hwf : s.enc.Wf) :
    Backed W s' := by
  have hall : s'.enc.Wf ∧ s'.enc.cached.keys ⊆ s.enc.cached.keys ∧ s'.enc.freed = s.enc.freed := by
    generalize s'.enc = enc' at hgives
    induction hgives with
    | refl => exact ⟨hwf, List.Subset.refl _, rfl⟩
    | freeEncoderInput q i _ ih =>
      obtain ⟨hwf, hkeys, hfreed⟩ := ih
      obtain ⟨hone, hsame⟩ := freeEncoderInput_shrinks hwf q i
      exact ⟨hone.wf, List.Subset.trans hone.keys hkeys, hsame.trans hfreed⟩
    | free q _ ih =>
      obtain ⟨hwf, hkeys, hfreed⟩ := ih
      obtain ⟨hone, hsame⟩ := free_shrinks hwf q
      exact ⟨hone.wf, List.Subset.trans hone.keys hkeys, hsame.trans hfreed⟩
  exact ⟨fun a ha => h.cached a (hall.2.1 ha), hall.2.2.trans h.reported⟩

/-- A step begins with the cache as it is. -/
theorem beginStep_supplied (hs : Backed W s) (hwf : s.enc.Wf) (hnamed : Named s)
    (hbegin : beginStep cfg env s = .ok ls) : ls.Supplied W s := by
  obtain ⟨objs, requests, hsame, -, -, rfl⟩ := beginStep_eq_ok hbegin
  have hreq : ∀ r, ∃ p, Objs.req objs r = { s.req r with priority := p } := hsame.req
  refine ⟨hwf, fun r => ?_, fun r hr => ?_, fun a ha => .inl ⟨hs.cached a ha, ?_⟩, fun r hr => ?_,
    fun r is his => ?_, fun r n hn => ?_⟩
  · obtain ⟨p, hp⟩ := hreq r
    change (Objs.req objs r).mmFeatures = (s.req r).mmFeatures
    rw [hp]
  · obtain ⟨p, hp⟩ := hreq r
    change (Objs.req objs r).requestId = r
    rw [hp]
    exact hnamed.ids r (hsame.keys ▸ LoopState.known_of_items hr)
  · change a ∉ s.enc.freed
    rw [hs.reported]
    exact List.not_mem_nil
  · exact absurd hr List.not_mem_nil
  · cases his
  · cases hn

/-- At the end of the walk of a step that preempts no request that it has gone past. -/
theorem Walked.supplied (hdec : cfg.isEncoderDecoder = false) (hec : cfg.ecConnector = false)
    (hs : Backed W s) (hserves : Serves (fun _ => True) Consistent s) (hnamed : Named s)
    (hsorted : ∀ r, (s.req r).ItemsInOrder) (hnodup : (s.running ++ s.waiting.items).Nodup)
    (hgood : StepMeets LoopState.Spares cfg env s) (hwalked : Walked cfg env s ls) :
    ls.Supplied W s := by
  obtain ⟨ls₀, ls₁, hbegin, hloop, htail⟩ := hwalked
  have hround : ∀ t p, Rounds cfg env s t → t.Supplied W s → t.round cfg env = .ok p →
      p.state.Supplied W s := fun t p ht hI hstep =>
    hI.round hdec hec (ht.gonePast hnodup hgood) (ht.serves consistent_rule hdec hserves).cache
      hsorted (ht.outcome hnodup hstep) (hgood t ht)
  obtain ⟨t, hvisits, hexit⟩ := loop_exit hloop
  have hrounds : Rounds cfg env s t := ⟨ls₀, hbegin, hvisits⟩
  have hsup : t.Supplied W s := hvisits.invariant (I := fun t => t.Supplied W s)
    (beginStep_supplied hs hserves.cache.wf hnamed hbegin)
    fun u u' hu hI hstep => hround u _ ⟨ls₀, hbegin, hu⟩ hI hstep
  have hw₁ : ls₁.GonePast :=
    (hrounds.gonePast hnodup hgood).round (hrounds.outcome hnodup hexit) (hgood t hrounds)
  exact (hround t _ hrounds hsup hexit).tailPreempt hw₁ htail

/-- What the output of a step supplies to a worker that holds the encoder outputs in `W`. -/
structure Supplies (W : Finset MmHash) (s : Scheduler K EncoderCacheManager) (out : SchedulerOutput)
    (s' : Scheduler K EncoderCacheManager) : Prop where
  items : ∀ r, (s'.req r).mmFeatures = (s.req r).mmFeatures
  cached : ∀ h ∈ s'.enc.cached.keys, (h ∈ W ∧ h ∉ out.freeEncoderMmHashes) ∨
    LoopState.Computes s out.scheduledEncoderInputs h
  reported : s'.enc.freed = []
  scheduled : ∀ r ∈ out.scheduledEncoderInputs.keys, r ∈ out.numScheduledTokens.keys
  known : ∀ r is, out.scheduledEncoderInputs.get? r = some is →
    ∀ i ∈ is, i < (s.req r).mmFeatures.length
  referred : ∀ r n, out.numScheduledTokens.get? r = some n → ∀ f ∈ (s.req r).mmFeatures,
    ∀ c, Advances out s' r c → f.HasEmbedsIn c (c + n) → f.identifier ∈ s'.enc.cached.keys

/-- A step that preempts no request that its walk has gone past supplies the encoder outputs that
the inputs of its requests need. -/
theorem schedule_supplies (hdec : cfg.isEncoderDecoder = false) (hec : cfg.ecConnector = false)
    (hs : Backed W s) (hserves : Serves (fun _ => True) Consistent s) (hnamed : Named s)
    (hsorted : ∀ r, (s.req r).ItemsInOrder) (hnodup : (s.running ++ s.waiting.items).Nodup)
    (hgood : StepMeets LoopState.Spares cfg env s)
    (hschedule : schedule cfg env s = .ok (out, s')) : Supplies W s out s' := by
  obtain ⟨ls, hwalked, hfinish⟩ := schedule_eq_ok hschedule
  have hsup := hwalked.supplied hdec hec hs hserves hnamed hsorted hnodup hgood
  have hw := hwalked.gonePast hnodup hgood
  have hfin := finishStep_spec hfinish
  have hfreed : out.freeEncoderMmHashes = ls.sch.enc.freed := hfin.freeEncoderMmHashes
  have hcached : s'.enc.cached = ls.sch.enc.cached := by rw [hfin.enc]; rfl
  refine ⟨fun r => (hfin.keeps (g := Request.mmFeatures) (fun _ _ _ _ _ => rfl) r).trans
    (hsup.features r), fun a ha => ?_,
    by rw [hfin.enc]; rfl, fun r hr => ?_, fun r is his => ?_, fun r n hn f hf c hc' hin => ?_⟩
  · rw [hfin.scheduledEncoderInputs, hfreed]
    exact hsup.backed a (hcached ▸ ha)
  · rw [hfin.scheduledEncoderInputs] at hr
    rw [hfin.numScheduledTokens]
    exact (hw.scheduledKeys r).mpr (hsup.scheduled r hr)
  · exact hsup.known r is (hfin.scheduledEncoderInputs ▸ his)
  · have hnum := hn
    rw [hfin.numScheduledTokens] at hn
    have hk : r ∈ ls.sch.objs.keys :=
      LoopState.known_of_items (hsup.features r ▸ List.ne_nil_of_mem hf)
    have hadv : (s'.req r).numComputedTokens = (ls.req r).numComputedTokens + n := by
      rw [(hfin.scheduled r n (Dict.mem_entries_of_get? hn)).2 hk]
      obtain ⟨_, _, _, hadv⟩ := advanceRequest_eq cfg n
        ((ls.scheduledSpecDecodeTokens.get? r).getD []).length (ls.req r)
      rw [hadv]
    have hsame : c = (ls.req r).numComputedTokens := by
      have := hc' n hnum
      omega
    rw [hcached]
    exact (hsup.referred r n hn f hf (hsame ▸ hin)).cached

end Scheduler

end RpsServe
