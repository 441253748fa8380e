import RpsServe.Scheduler.KVCalls
import RpsServe.Scheduler.ScheduledSets
import RpsServe.Worker.InputBatch

/-!
# The blocks that a step hands out

The blocks of the requests during the walk of a step, compared with those from before it. A
request that runs and is not scheduled keeps its blocks, a scheduled one gets the blocks that are
noted for it appended, and an admitted one is noted with all of its blocks. The invariant rests
on the walk never preempting what the step has scheduled already.
-/

namespace RpsServe

/-- A manager that only appends blocks to those of a running request, and none when it is asked in
vain. -/
class AppendingKVCacheManager (K : Type) [KVCacheManager K] : Prop extends
    ReleasingKVCacheManager K where
  getBlocks_of_none {kv kv' : K} {q : Request} {args : AllocateSlotsArgs}
    (h : KVCacheManager.allocateSlots kv q args = .ok (none, kv')) :
    KVCacheManager.getBlocks kv' q.requestId = KVCacheManager.getBlocks kv q.requestId
  getBlocks_of_running {kv kv' : K} {q : Request} {args : AllocateSlotsArgs} {blocks : KVCacheBlocks}
    (hnew : args.newComputedBlocks = none) (hext : args.numExternalComputedTokens = 0)
    (h : KVCacheManager.allocateSlots kv q args = .ok (some blocks, kv')) :
    KVCacheManager.getBlocks kv' q.requestId =
      extendBlockIds (KVCacheManager.getBlocks kv q.requestId) blocks
  flatten_subset {kv kv' : K} {q : Request} {args : AllocateSlotsArgs} {blocks : KVCacheBlocks}
    (hnew : args.newComputedBlocks = none) (hext : args.numExternalComputedTokens = 0)
    (h : KVCacheManager.allocateSlots kv q args = .ok (some blocks, kv')) :
    blocks.flatten ⊆ (KVCacheManager.getBlocks kv' q.requestId).flatten
  getBlocks_cacheBlocks {kv kv' : K} {q : Request} {n : ℤ}
    (h : KVCacheManager.cacheBlocks kv q n = .ok kv') (r : ReqId) :
    KVCacheManager.getBlocks kv' r = KVCacheManager.getBlocks kv r
  getBlocks_resetPrefixCache (kv : K) (r : ReqId) :
    KVCacheManager.getBlocks (KVCacheManager.resetPrefixCache kv).2 r = KVCacheManager.getBlocks kv r

section Laws

variable {K : Type} [KVCacheManager K] [AppendingKVCacheManager K] {kv kv' : K} {r : ReqId}

/-- Asking in vain changes the blocks of no request. -/
theorem getBlocks_of_vain {q : Request} {args : AllocateSlotsArgs}
    (h : KVCacheManager.allocateSlots kv q args = .ok (none, kv')) (r : ReqId) :
    KVCacheManager.getBlocks kv' r = KVCacheManager.getBlocks kv r := by
  by_cases hr : r = q.requestId
  · rw [hr]
    exact AppendingKVCacheManager.getBlocks_of_none h
  · exact SeparateKVCacheManager.getBlocks_allocateSlots h hr

/-- Between the steps the blocks of what is not released stay. -/
theorem KVReleased.getBlocks {P : ReqId → Prop} {H : ReqId → List BlockHash}
    (h : KVReleased P H kv kv') (hr : ¬ P r) :
    KVCacheManager.getBlocks kv' r = KVCacheManager.getBlocks kv r := by
  induction h with
  | refl => rfl
  | @free kv' v _ hv ih =>
    have hne : r ≠ v := by
      rintro rfl
      exact hr hv
    exact (SeparateKVCacheManager.getBlocks_free kv' hne).trans ih
  | cacheBlocks _ _ _ hc ih => exact (AppendingKVCacheManager.getBlocks_cacheBlocks hc r).trans ih
  | resetPrefixCache _ ih => exact (AppendingKVCacheManager.getBlocks_resetPrefixCache _ r).trans ih

/-- A request without blocks is given none between the steps. -/
theorem KVReleased.flatten_eq_nil {P : ReqId → Prop} {H : ReqId → List BlockHash}
    (h : KVReleased P H kv kv') (hr : (KVCacheManager.getBlocks kv r).flatten = []) :
    (KVCacheManager.getBlocks kv' r).flatten = [] := by
  induction h with
  | refl => exact hr
  | @free kv' v _ _ ih =>
    by_cases hv : r = v
    · exact hv ▸ ReleasingKVCacheManager.getBlocks_free_self kv' r
    · exact (congrArg List.flatten (SeparateKVCacheManager.getBlocks_free kv' hv)).trans ih
  | cacheBlocks _ _ _ hc ih =>
    exact (congrArg List.flatten (AppendingKVCacheManager.getBlocks_cacheBlocks hc r)).trans ih
  | resetPrefixCache _ ih =>
    exact (congrArg List.flatten (AppendingKVCacheManager.getBlocks_resetPrefixCache _ r)).trans ih

end Laws

/-! ### Calls in a step -/

section Calls

variable {K : Type} [KVCacheManager K]

/-- The manager after room was made: requests were preempted, and blocks asked for in vain. -/
inductive RoomMade (kv : K) : K → Prop
  | refl : RoomMade kv kv
  | free {kv' : K} (r : ReqId) : RoomMade kv kv' → RoomMade kv (KVCacheManager.free kv' r)
  | vain {kv₁ kv' : K} {q : Request} {args : AllocateSlotsArgs} : RoomMade kv kv₁ →
      KVCacheManager.allocateSlots kv₁ q args = .ok (none, kv') → RoomMade kv kv'

/-- The manager after the calls of a step that change it, with the requests that were freed, in their
order. -/
inductive StepCalls (kv : K) : List ReqId → K → Prop
  | newStepStarts : StepCalls kv [] (KVCacheManager.newStepStarts kv)
  | allocateSlots {freed : List ReqId} {kv₁ kv' : K} {q : Request} {args : AllocateSlotsArgs}
      {res : Option KVCacheBlocks} : StepCalls kv freed kv₁ →
      KVCacheManager.allocateSlots kv₁ q args = .ok (res, kv') → StepCalls kv freed kv'
  | free {freed : List ReqId} {kv' : K} (r : ReqId) : StepCalls kv freed kv' →
      StepCalls kv (freed ++ [r]) (KVCacheManager.free kv' r)
  | takeNewBlockIds {freed : List ReqId} {kv' : K} : StepCalls kv freed kv' →
      StepCalls kv freed (KVCacheManager.takeNewBlockIds kv').2

/-- The prefix of the request was looked up in the manager, without a KV connector. -/
structure CachedPrefix.Local (kv : K) (q : Request) (c : CachedPrefix) : Prop where
  blocks : (c.newComputedBlocks = (KVCacheManager.getComputedBlocks kv q).1 ∧
      c.numNewLocalComputedTokens = (KVCacheManager.getComputedBlocks kv q).2) ∨
    c.newComputedBlocks = KVCacheManager.emptyKvCacheBlocks kv ∧ c.numNewLocalComputedTokens = 0
  external : c.numExternalComputedTokens = 0
  load : c.loadKvAsync = false

/-- Without a KV connector the computed prefix is the manager's own. -/
theorem LoopState.cachedPrefix_local {E : Type} {cfg : Config} {env : StepEnv} {r : ReqId}
    {ls : LoopState K E} {c : CachedPrefix} (hc : cfg.connector = false)
    (h : ls.cachedPrefix cfg env r = .ok (some c)) : c.Local ls.sch.kv (ls.req r) := by
  unfold cachedPrefix at h
  simp only [hc, Bool.false_eq_true, if_false] at h
  split at h
  · split at h
    · cases h
      exact ⟨.inl ⟨rfl, rfl⟩, rfl, rfl⟩
    · cases h
  · cases h
    exact ⟨.inr ⟨rfl, rfl⟩, rfl, rfl⟩

/-- What every call of the scheduler to its KV cache manager keeps when no KV connector is used and
the requests have the block hashes `H`; and an admitted request of which nothing is computed yet has
a block afterwards. -/
structure KVRule (cfg : Config) (H : ReqId → List BlockHash) (J : K → Prop) : Prop where
  newStepStarts {kv : K} : J kv → J (KVCacheManager.newStepStarts kv)
  free {kv : K} (r : ReqId) : J kv → J (KVCacheManager.free kv r)
  cacheBlocks {kv kv' : K} {q : Request} {n : ℤ} : J kv → q.blockHashes <+: H q.requestId →
    HasSlots q.requestId kv → KVCacheManager.cacheBlocks kv q n = .ok kv' → J kv'
  resetPrefixCache {kv : K} : J kv → J (KVCacheManager.resetPrefixCache kv).2
  takeNewBlockIds {kv : K} : J kv → J (KVCacheManager.takeNewBlockIds kv).2
  running {kv kv' : K} {q : Request} {g : Grant} {res : Option KVCacheBlocks} : J kv →
    q.blockHashes = H q.requestId →
    KVCacheManager.allocateSlots kv q (LoopState.runningArgs cfg g) = .ok (res, kv') → J kv'
  waiting {kv₀ kv kv' : K} {q₀ q q' : Request} {c : CachedPrefix} {g : Grant}
    {res : Option KVCacheBlocks} : J kv₀ → c.Local kv₀ q₀ → q₀.blockHashes = H q.requestId →
    q.blockHashes = H q.requestId → RoomMade kv₀ kv → J kv →
    KVCacheManager.allocateSlots kv q (LoopState.waitingArgs cfg q' c g) = .ok (res, kv') → J kv'
  filled {kv₀ kv kv' : K} {q₀ q q' : Request} {c : CachedPrefix} {g : Grant}
    {blocks : KVCacheBlocks} : c.Local kv₀ q₀ → J kv → q.numComputedTokens = 0 →
    0 ≤ g.numNewTokens →
    KVCacheManager.allocateSlots kv q (LoopState.waitingArgs cfg q' c g) =
      .ok (some blocks, kv') →
    ¬ (KVCacheManager.getBlocks kv' q.requestId).all List.isEmpty

/-- Between the steps. -/
theorem KVRule.released {cfg : Config} {H : ReqId → List BlockHash} {J : K → Prop}
    (hrule : KVRule cfg H J) {P : ReqId → Prop} {kv kv' : K} (h : KVReleased P H kv kv')
    (hkv : J kv) : J kv' := by
  induction h with
  | refl => exact hkv
  | free _ _ ih => exact hrule.free _ ih
  | cacheBlocks _ hq ht hc ih => exact hrule.cacheBlocks ih hq ht hc
  | resetPrefixCache _ ih => exact hrule.resetPrefixCache ih

/-- A property of the KV cache manager and the block hashes of the requests that the calls of the
scheduler keep. -/
structure KVRules (cfg : Config) (J : (ReqId → List BlockHash) → K → Prop) : Prop where
  mono {H H' : ReqId → List BlockHash} {kv : K} : (∀ r, H r <+: H' r) → J H kv → J H' kv
  rule {H : ReqId → List BlockHash} : (∀ r, (H r).Nodup) → KVRule cfg H (J H)

end Calls

/-! ### The walk -/

/-- What the writes of a step keep of a request. -/
structure Request.Keeps (q q' : Request) : Prop where
  requestId : q'.requestId = q.requestId
  content : q'.content = q.content
  plain : q.Plain → q'.Plain

/-- What is kept of a request twice is kept. -/
theorem Request.Keeps.trans {q q₁ q' : Request} (h : q.Keeps q₁) (h' : q₁.Keeps q') : q.Keeps q' :=
  ⟨h'.requestId.trans h.requestId, h'.content.trans h.content, h'.plain ∘ h.plain⟩

namespace LoopState

open KVCacheManager (getBlocks allocateSlots)

variable {K E : Type} [KVCacheManager K]

/-- The blocks in a round of the step from `s`. -/
structure Tabled (J : K → Prop) (s : Scheduler K E) (ls : LoopState K E) : Prop where
  kv : J ls.sch.kv
  hasSlots : ∀ r, (ls.req r).status = .running → HasSlots r ls.sch.kv
  ids : ∀ r ∈ ls.sch.objs.keys, (ls.req r).requestId = r
  keeps : ∀ r, (s.req r).Keeps (ls.req r)
  unscheduled : ∀ r, (ls.req r).status = .running → r ∉ ls.scheduledReqs →
    (s.req r).status = .running ∧ getBlocks ls.sch.kv r = getBlocks s.kv r
  running : ∀ r ∈ ls.scheduledRunningReqs, (s.req r).status = .running ∧
    ∃ blocks, ls.reqToNewBlocks.get? r = some blocks ∧
      getBlocks ls.sch.kv r = extendBlockIds (getBlocks s.kv r) blocks ∧
      blocks.flatten ⊆ (getBlocks ls.sch.kv r).flatten
  new : ∀ r ∈ ls.scheduledNewReqs, ls.reqToNewBlocks.get? r = some (getBlocks ls.sch.kv r)
  resumed : ∀ r ∈ ls.scheduledResumedReqs, (s.req r).Announced ∧
    ls.reqToNewBlocks.get? r = some (getBlocks ls.sch.kv r) ∧
    ¬ (getBlocks ls.sch.kv r).all List.isEmpty
  preempted : ∀ r, (ls.req r).status = .preempted →
    (s.req r).Announced ∧ (ls.req r).numComputedTokens = 0
  resting : ∀ r, (ls.req r).Resting →
    (s.req r).Resting ∧ getBlocks ls.sch.kv r = getBlocks s.kv r ∨
      (getBlocks ls.sch.kv r).flatten = []
  calls : StepCalls s.kv ls.preemptedReqs ls.sch.kv
  once : ls.preemptedReqs.Nodup
  listed : ∀ r, r ∈ ls.preemptedReqs ↔
    (s.req r).status = .running ∧ (ls.req r).status = .preempted

namespace Tabled

variable {J : K → Prop} {s : Scheduler K E} {ls ls' t t' : LoopState K E} {r v q : ReqId}
  {kv kv₀ : K} {l : ℕ} {args : AllocateSlotsArgs} {cfg : Config} {env : StepEnv}

/-- Another manager with the same blocks, and another encoder cache. -/
theorem caches (h : Tabled J s ls) (hJ : J kv) (ht : ∀ r, HasSlots r ls.sch.kv → HasSlots r kv)
    (hkv : ∀ r, getBlocks kv r = getBlocks ls.sch.kv r)
    (hcalls : StepCalls s.kv ls.preemptedReqs kv) (enc : E) :
    Tabled J s { ls with sch := { ls.sch with kv := kv, enc := enc } } where
  kv := hJ
  hasSlots r hr := ht r (h.hasSlots r hr)
  ids := h.ids
  keeps := h.keeps
  unscheduled r hr hnot := by
    obtain ⟨hs, hb⟩ := h.unscheduled r hr hnot
    exact ⟨hs, (hkv r).trans hb⟩
  running r hr := by
    obtain ⟨hs, blocks, hget, hb⟩ := h.running r hr
    exact ⟨hs, blocks, hget, (hkv r).symm ▸ hb⟩
  new r hr := (h.new r hr).trans (congrArg some (hkv r).symm)
  resumed r hr := by
    obtain ⟨hs, hget, hne⟩ := h.resumed r hr
    exact ⟨hs, hget.trans (congrArg some (hkv r).symm), (hkv r).symm ▸ hne⟩
  preempted := h.preempted
  resting r hr := (h.resting r hr).imp (.imp_right ((hkv r).trans ·))
    ((congrArg List.flatten (hkv r)).trans ·)
  calls := hcalls
  once := h.once
  listed := h.listed

/-- Changing the encoder cache keeps the block tables right. -/
theorem setEnc (h : Tabled J s ls) (enc : E) : Tabled J s (ls.setEnc enc) :=
  h.caches h.kv (fun _ => id) (fun _ => rfl) h.calls enc

/-- Another queue manager, and another index. -/
theorem move (h : Tabled J s ls) (qm : QueueManager) (n : ℕ) :
    Tabled J s { ls with sch := { ls.sch with queueManager := qm }, reqIndex := n } :=
  ⟨h.kv, h.hasSlots, h.ids, h.keeps, h.unscheduled, h.running, h.new, h.resumed, h.preempted,
    h.resting, h.calls, h.once, h.listed⟩

/-- Writing a status of a finished request to one that this step has not preempted. -/
theorem unannounce {f : Request → Request} {qm : QueueManager} {n : ℕ} (h : Tabled J s ls)
    (hr : r ∉ ls.preemptedReqs) (hfin : ∀ q, (f q).isFinished = true)
    (hf : ∀ q, Request.Keeps q (f q)) :
    Tabled J s { ls with
      sch := { ls.sch with objs := ls.sch.objs.modify r f, queueManager := qm }
      reqIndex := n } := by
  have hreq : ∀ x, (Objs.req (ls.sch.objs.modify r f) x).Announced ∨
      (Objs.req (ls.sch.objs.modify r f) x).Resting →
      Objs.req (ls.sch.objs.modify r f) x = ls.req x := by
    intro x hx
    rcases Objs.req_modify_cases ls.sch.objs r f x with hsame | ⟨-, hsame⟩
    · exact hsame
    · rw [hsame] at hx
      have hended := hfin (ls.sch.objs.req x)
      rcases hx with (hs | hs) | hs | hs <;> rw [Request.isFinished, hs] at hended <;> cases hended
  refine ⟨h.kv, fun x hx => ?_, fun x hx => ?_, fun x => ?_, fun x hx hnot => ?_, h.running, h.new,
    h.resumed, fun x hx => ?_, fun x hx => ?_, h.calls, h.once, fun x => ?_⟩
  · have hsame := hreq x (.inl (.inl hx))
    change (Objs.req (ls.sch.objs.modify r f) x).status = .running at hx
    rw [hsame] at hx
    exact h.hasSlots x hx
  · rw [Dict.keys_modify] at hx
    change (Objs.req (ls.sch.objs.modify r f) x).requestId = x
    rcases Objs.req_modify_cases ls.sch.objs r f x with hsame | ⟨-, hsame⟩ <;> rw [hsame]
    · exact h.ids x hx
    · exact (hf _).requestId.trans (h.ids x hx)
  · change (s.req x).Keeps (Objs.req (ls.sch.objs.modify r f) x)
    rcases Objs.req_modify_cases ls.sch.objs r f x with hsame | ⟨-, hsame⟩ <;> rw [hsame]
    · exact h.keeps x
    · exact (h.keeps x).trans (hf _)
  · have hsame := hreq x (.inl (.inl hx))
    change (Objs.req (ls.sch.objs.modify r f) x).status = .running at hx
    rw [hsame] at hx
    exact h.unscheduled x hx hnot
  · have hsame := hreq x (.inl (.inr hx))
    change (Objs.req (ls.sch.objs.modify r f) x).status = .preempted at hx
    change _ ∧ (Objs.req (ls.sch.objs.modify r f) x).numComputedTokens = 0
    rw [hsame] at hx ⊢
    exact h.preempted x hx
  · have hsame := hreq x (.inr hx)
    change (Objs.req (ls.sch.objs.modify r f) x).Resting at hx
    rw [hsame] at hx
    exact h.resting x hx
  · change _ ↔ _ ∧ (Objs.req (ls.sch.objs.modify r f) x).status = .preempted
    rw [h.listed]
    refine and_congr_right fun hrun => ⟨fun hx => ?_, fun hx => ?_⟩
    · have hxr : x ≠ r := fun hxr => hr (hxr ▸ (h.listed x).mpr ⟨hrun, hx⟩)
      rwa [Objs.req_modify_ne hxr]
    · rwa [hreq x (.inl (.inr hx))] at hx

variable [AppendingKVCacheManager K]

/-- A request that the step has not scheduled is preempted, and its blocks are freed. -/
theorem release {f : Request → Request} {qm : QueueManager} {enc : E}
    (hrule : KVRule cfg s.hashes J) (h : Tabled J s ls) (hJ : J kv)
    (ht : ∀ r, HasSlots r ls.sch.kv → HasSlots r kv)
    (hkv : ∀ r, getBlocks kv r = getBlocks ls.sch.kv r)
    (hcalls : StepCalls s.kv ls.preemptedReqs kv) (hv : (ls.req v).status = .running)
    (hnot : v ∉ ls.scheduledReqs) (hstatus : ∀ q, (f q).status = .preempted)
    (hzero : ∀ q, (f q).numComputedTokens = 0) (hf : ∀ q, Request.Keeps q (f q)) :
    Tabled J s { ls with
      sch := { ls.sch with
        kv := KVCacheManager.free kv v
        enc := enc
        objs := ls.sch.objs.modify v f
        queueManager := qm }
      preemptedReqs := ls.preemptedReqs ++ [v] } := by
  have hk := known_of_running hv
  have hself : Objs.req (ls.sch.objs.modify v f) v = f (ls.req v) := Objs.req_modify_self hk
  have hother : ∀ x, x ≠ v → Objs.req (ls.sch.objs.modify v f) x = ls.req x := fun x hx =>
    Objs.req_modify_ne hx
  have hblocks : ∀ x, x ≠ v → getBlocks (KVCacheManager.free kv v) x = getBlocks ls.sch.kv x :=
    fun x hx => (SeparateKVCacheManager.getBlocks_free kv hx).trans (hkv x)
  have hsched : ∀ x ∈ ls.scheduledReqs, x ≠ v := by
    rintro x hx rfl
    exact hnot hx
  have hran := (h.unscheduled v hv hnot).1
  have hfresh : v ∉ ls.preemptedReqs := fun hmem => by
    cases hv.symm.trans ((h.listed v).mp hmem).2
  refine ⟨hrule.free v hJ, fun x hx => ?_, fun x hx => ?_, fun x => ?_, fun x hx hx' => ?_,
    fun x hx => ?_, fun x hx => ?_, fun x hx => ?_, fun x hx => ?_, fun x hx => ?_, hcalls.free v,
    List.concat_eq_append ▸ h.once.concat hfresh, fun x => ?_⟩
  · change (Objs.req (ls.sch.objs.modify v f) x).status = .running at hx
    by_cases hxv : x = v
    · rw [hxv, hself, hstatus] at hx
      cases hx
    · rw [hother x hxv] at hx
      exact (ht x (h.hasSlots x hx)).free hxv
  · rw [Dict.keys_modify] at hx
    change (Objs.req (ls.sch.objs.modify v f) x).requestId = x
    by_cases hxv : x = v
    · rw [hxv, hself, (hf _).requestId]
      exact h.ids v hk
    · rw [hother x hxv]
      exact h.ids x hx
  · change (s.req x).Keeps (Objs.req (ls.sch.objs.modify v f) x)
    by_cases hxv : x = v
    · rw [hxv, hself]
      exact (h.keeps v).trans (hf _)
    · rw [hother x hxv]
      exact h.keeps x
  · change (Objs.req (ls.sch.objs.modify v f) x).status = .running at hx
    by_cases hxv : x = v
    · rw [hxv, hself, hstatus] at hx
      cases hx
    · rw [hother x hxv] at hx
      obtain ⟨hs, hb⟩ := h.unscheduled x hx hx'
      exact ⟨hs, (hblocks x hxv).trans hb⟩
  · obtain ⟨hs, blocks, hget, hb⟩ := h.running x hx
    have hsame := hblocks x (hsched x (List.mem_append_right _ hx))
    exact ⟨hs, blocks, hget, hsame.symm ▸ hb⟩
  · refine (h.new x hx).trans (congrArg some (hblocks x (hsched x ?_)).symm)
    exact List.mem_append_left _ (List.mem_append_left _ hx)
  · obtain ⟨hs, hget, hne⟩ := h.resumed x hx
    have hb := hblocks x (hsched x (List.mem_append_left _ (List.mem_append_right _ hx)))
    exact ⟨hs, hget.trans (congrArg some hb.symm), hb.symm ▸ hne⟩
  · change (Objs.req (ls.sch.objs.modify v f) x).status = .preempted at hx
    change _ ∧ (Objs.req (ls.sch.objs.modify v f) x).numComputedTokens = 0
    by_cases hxv : x = v
    · rw [hxv, hself]
      exact ⟨.inl hran, hzero _⟩
    · rw [hother x hxv] at hx ⊢
      exact h.preempted x hx
  · by_cases hxv : x = v
    · exact .inr (hxv ▸ ReleasingKVCacheManager.getBlocks_free_self kv x)
    · change (Objs.req (ls.sch.objs.modify v f) x).Resting at hx
      rw [hother x hxv] at hx
      exact (h.resting x hx).imp (.imp_right ((hblocks x hxv).trans ·))
        ((congrArg List.flatten (hblocks x hxv)).trans ·)
  · change _ ↔ _ ∧ (Objs.req (ls.sch.objs.modify v f) x).status = .preempted
    rw [List.mem_append, List.mem_singleton, h.listed]
    by_cases hxv : x = v
    · rw [hxv, hself]
      exact iff_of_true (.inr rfl) ⟨hran, hstatus _⟩
    · rw [hother x hxv]
      exact or_iff_left hxv

variable [EncoderCache E]

omit [AppendingKVCacheManager K] [EncoderCache E] in
/-- A victim at or behind the walk was not scheduled in this step. -/
theorem victim_fresh (hw : Walking t) (hpre : Preempts q args t l v kv) (hl : t.reqIndex ≤ l) :
    v ∉ t.scheduledReqs := by
  intro hmem
  obtain ⟨-, j, hj, hjv⟩ := hw.scheduled v hmem
  have := hw.walk.toParts.index_unique hpre.stands hjv
  omega

/-- A preemption at or behind the walk. -/
theorem preempt (hrule : KVRule cfg s.hashes J) (h : Tabled J s t) (hw : Walking t) (hJ : J kv)
    (hpre : Preempts q args t l v kv) (hl : t.reqIndex ≤ l)
    (hvictim : (t.setKv kv).preemptVictim v = .ok t') : Tabled J s t' := by
  obtain ⟨ls₁, qm₁, -, hstatus, -, -⟩ := preemptVictim_eq_ok hvictim
  obtain ⟨qm', -, rfl⟩ := hw.preempt_eq hpre hl hvictim
  exact h.release hrule hJ (fun _ ht => ht.allocateSlots hpre.noBlocks)
    (getBlocks_of_vain hpre.noBlocks) (h.calls.allocateSlots hpre.noBlocks) hstatus
    (victim_fresh hw hpre hl)
    (fun _ => rfl) (fun _ => rfl) fun _ => ⟨rfl, rfl, fun hplain => ⟨hplain.1, by rintro ⟨⟩⟩⟩

omit [AppendingKVCacheManager K] [EncoderCache E] in
/-- A request has the hashes from before the step. -/
theorem hashed (h : Tabled J s ls) (r : ReqId) : (ls.req r).blockHashes = s.hashes r :=
  congrArg Content.blockHashes (h.keeps r).content

/-! ### Allocation loops -/

/-- What the calls with the arguments keep after room was made in `ls`. -/
def LawfulCall (J : K → Prop) (s : Scheduler K E) (ls : LoopState K E) (r : ReqId)
    (args : AllocateSlotsArgs) : Prop :=
  ∀ kv q res kv', RoomMade ls.sch.kv kv → J kv → q.requestId = r → q.blockHashes = s.hashes r →
    allocateSlots kv q args = .ok (res, kv') → J kv'

/-- The rounds of an allocation loop whose preemptions do not overtake the walk. -/
theorem visits (hrule : KVRule cfg s.hashes J) (h : Tabled J s ls) (hw : Walking ls)
    (hq : q ∈ ls.qm.combined) (hfresh : q ∉ ls.preemptedReqs) (hargs : LawfulCall J s ls q args)
    (hgood : ∀ t l v kv, Visits (allocRound q args) ls t → Preempts q args t l v kv →
      t.reqIndex ≤ l) (ht : Visits (allocRound q args) ls t) :
    Tabled J s t ∧ Walking t ∧ RoomMade ls.sch.kv t.sch.kv ∧ q ∉ t.preemptedReqs := by
  refine alloc_invariant (I := fun t => Tabled J s t ∧ Walking t ∧ RoomMade ls.sch.kv t.sch.kv ∧
    q ∉ t.preemptedReqs) ht ⟨h, hw, .refl, hfresh⟩ fun u l v kv u' hu hI hpre hne hvictim => ?_
  obtain ⟨htab, hwalk, hroom, hfresh⟩ := hI
  have hl := hgood u l v kv hu hpre
  have hid := htab.ids q (hwalk.known q ((visits_sameWaiting hu).combined ▸ hq))
  refine ⟨htab.preempt hrule hwalk
    (hargs _ _ _ _ hroom htab.kv hid (htab.hashed q) hpre.noBlocks) hpre hl hvictim,
    (hwalk.preempt hpre hl hvictim).1, ?_⟩
  obtain ⟨qm', -, rfl⟩ := hwalk.preempt_eq hpre hl hvictim
  refine ⟨(hroom.vain hpre.noBlocks).free v, fun hmem => ?_⟩
  exact (List.mem_append.mp hmem).elim hfresh fun hlast => hne (List.mem_singleton.mp hlast).symm

/-- An allocation loop that finds no blocks. -/
theorem allocLoop_none (hrule : KVRule cfg s.hashes J) (h : Tabled J s ls) (hw : Walking ls)
    (hq : q ∈ ls.qm.combined) (hfresh : q ∉ ls.preemptedReqs) (hargs : LawfulCall J s ls q args)
    (hgood : ∀ t l v kv, Visits (allocRound q args) ls t → Preempts q args t l v kv →
      t.reqIndex ≤ l) (hloop : ls.allocLoop q args = .ok (none, ls')) : Tabled J s ls' := by
  obtain ⟨t, ht, hexit⟩ := allocLoop_outcome hloop
  obtain ⟨htab, hwalk, hroom, -⟩ := h.visits hrule hw hq hfresh hargs hgood ht
  have hid := htab.ids q (hwalk.known q ((visits_sameWaiting ht).combined ▸ hq))
  have hvain : ∀ {kv}, allocateSlots t.sch.kv (t.req q) args = .ok (none, kv) →
      Tabled J s (t.setKv kv) := fun halloc =>
    htab.caches (hargs _ _ _ _ hroom htab.kv hid (htab.hashed q) halloc)
      (fun _ ht => ht.allocateSlots halloc) (getBlocks_of_vain halloc)
      (htab.calls.allocateSlots halloc) t.sch.enc
  cases hexit with
  | noneRunning halloc | kept halloc => exact hvain halloc
  | itself hpre hvictim =>
    exact htab.preempt hrule hwalk
      (hargs _ _ _ _ hroom htab.kv hid (htab.hashed q) hpre.noBlocks) hpre (hgood t _ _ _ ht hpre)
      hvictim

/-- An allocation loop that finds blocks does so in a round of the walk. -/
theorem allocLoop_some {blocks : KVCacheBlocks} (hrule : KVRule cfg s.hashes J) (h : Tabled J s ls)
    (hw : Walking ls) (hq : q ∈ ls.qm.combined) (hfresh : q ∉ ls.preemptedReqs)
    (hargs : LawfulCall J s ls q args)
    (hgood : ∀ t l v kv, Visits (allocRound q args) ls t → Preempts q args t l v kv →
      t.reqIndex ≤ l) (hloop : ls.allocLoop q args = .ok (some blocks, ls')) :
    ∃ t kv, Tabled J s t ∧ Walking t ∧ q ∉ t.preemptedReqs ∧ t.reqIndex = ls.reqIndex ∧
      SameWaiting ls t ∧
      RoomMade ls.sch.kv t.sch.kv ∧ J kv ∧
      allocateSlots t.sch.kv (t.req q) args = .ok (some blocks, kv) ∧ ls' = t.setKv kv := by
  obtain ⟨t, ht, hexit⟩ := allocLoop_outcome hloop
  obtain ⟨htab, hwalk, hroom, hfresh⟩ := h.visits hrule hw hq hfresh hargs hgood ht
  have hid := htab.ids q (hwalk.known q ((visits_sameWaiting ht).combined ▸ hq))
  cases hexit with
  | found halloc =>
    exact ⟨t, _, htab, hwalk, hfresh, (hw.visits ht hgood).2.1, visits_sameWaiting ht, hroom,
      hargs _ _ _ _ hroom htab.kv hid (htab.hashed q) halloc, halloc, rfl⟩

/-! ### Scheduling -/

omit [AppendingKVCacheManager K] [EncoderCache E] in
/-- The step schedules the request `r`, whose blocks alone have changed. -/
theorem grant {f : Request → Request} {blocks : KVCacheBlocks} (h : Tabled J s t) (hJ : J kv)
    (ht : ∀ x, HasSlots x t.sch.kv → HasSlots x kv) (htr : HasSlots r kv)
    (hothers : ∀ x, x ≠ r → getBlocks kv x = getBlocks t.sch.kv x)
    (hcalls : StepCalls s.kv t.preemptedReqs kv) (hfresh : r ∉ t.scheduledReqs)
    (hk : r ∈ t.sch.objs.keys) (hkept : r ∉ t.preemptedReqs)
    (hlisted : ls'.preemptedReqs = t.preemptedReqs) (hf : ∀ q, Request.Keeps q (f q)) (hstatus : (f (t.req r)).status = .running)
    (hkv : ls'.sch.kv = kv) (hobjs : ls'.sch.objs = t.sch.objs.modify r f)
    (hblocks : ls'.reqToNewBlocks = t.reqToNewBlocks.set r blocks)
    (hsched : ∀ x, x ∉ ls'.scheduledReqs → x ∉ t.scheduledReqs ∧ x ≠ r)
    (hrunning : ∀ x ∈ ls'.scheduledRunningReqs, x ∈ t.scheduledRunningReqs ∨
      x = r ∧ (s.req r).status = .running ∧
        getBlocks kv r = extendBlockIds (getBlocks s.kv r) blocks ∧
        blocks.flatten ⊆ (getBlocks kv r).flatten)
    (hnew : ∀ x ∈ ls'.scheduledNewReqs, x ∈ t.scheduledNewReqs ∨ x = r ∧ blocks = getBlocks kv r)
    (hresumed : ∀ x ∈ ls'.scheduledResumedReqs, x ∈ t.scheduledResumedReqs ∨
      x = r ∧ (s.req r).Announced ∧ blocks = getBlocks kv r ∧
        ¬ (getBlocks kv r).all List.isEmpty) : Tabled J s ls' := by
  have hself : ls'.req r = f (t.req r) := by
    rw [req, Scheduler.req, hobjs]
    exact Objs.req_modify_self hk
  have hother : ∀ x, x ≠ r → ls'.req x = t.req x := fun x hx => by
    rw [req, Scheduler.req, hobjs]
    exact Objs.req_modify_ne hx
  have hkeep : ∀ x ∈ t.scheduledReqs, x ≠ r := by
    rintro x hx rfl
    exact hfresh hx
  have hget : ∀ x, x ≠ r → ls'.reqToNewBlocks.get? x = t.reqToNewBlocks.get? x := fun x hx => by
    rw [hblocks, Dict.get?_set_ne _ _ (Ne.symm hx)]
  have hgetr : ls'.reqToNewBlocks.get? r = some blocks := by rw [hblocks, Dict.get?_set_self]
  have hran : (ls'.req r).status = .running := hself ▸ hstatus
  refine ⟨hkv ▸ hJ, fun x hx => ?_, fun x hx => ?_, fun x => ?_, fun x hx hx' => ?_, fun x hx => ?_,
    fun x hx => ?_, fun x hx => ?_, fun x hx => ?_, fun x hx => ?_, ?_, hlisted ▸ h.once, fun x => ?_⟩
  · rw [hkv]
    by_cases hxr : x = r
    · exact hxr ▸ htr
    · rw [hother x hxr] at hx
      exact ht x (h.hasSlots x hx)
  · rw [hobjs, Dict.keys_modify] at hx
    by_cases hxr : x = r
    · rw [hxr, hself, (hf _).requestId]
      exact h.ids r hk
    · rw [hother x hxr]
      exact h.ids x hx
  · have hcases := Objs.req_modify_cases t.sch.objs r f x
    rw [← hobjs] at hcases
    rcases hcases with hsame | ⟨rfl, hsame⟩
    · exact (congrArg (Request.Keeps _) hsame).mpr (h.keeps x)
    · exact (congrArg (Request.Keeps _) hsame).mpr ((h.keeps x).trans (hf _))
  · obtain ⟨hnot, hxr⟩ := hsched x hx'
    rw [hother x hxr] at hx
    obtain ⟨hs, hb⟩ := h.unscheduled x hx hnot
    exact ⟨hs, by rw [hkv, hothers x hxr, hb]⟩
  · rw [hkv]
    rcases hrunning x hx with hx | ⟨rfl, hs, hb⟩
    · have hxr := hkeep x (List.mem_append_right _ hx)
      obtain ⟨hs, new, hg, hb⟩ := h.running x hx
      exact ⟨hs, new, (hget x hxr).trans hg, (hothers x hxr).symm ▸ hb⟩
    · exact ⟨hs, blocks, hgetr, hb⟩
  · rw [hkv]
    rcases hnew x hx with hx | ⟨rfl, hb⟩
    · have hxr := hkeep x (List.mem_append_left _ (List.mem_append_left _ hx))
      rw [hget x hxr, h.new x hx, hothers x hxr]
    · rw [hgetr, hb]
  · rw [hkv]
    rcases hresumed x hx with hx | ⟨rfl, hs, hb, hne⟩
    · have hxr := hkeep x (List.mem_append_left _ (List.mem_append_right _ hx))
      obtain ⟨hs, hg, hne⟩ := h.resumed x hx
      rw [hget x hxr, hg, hothers x hxr]
      exact ⟨hs, rfl, hne⟩
    · exact ⟨hs, by rw [hgetr, hb], hne⟩
  · by_cases hxr : x = r
    · cases hran.symm.trans (hxr ▸ hx)
    · rw [hother x hxr] at hx ⊢
      exact h.preempted x hx
  · by_cases hxr : x = r
    · rcases hx with hx | hx <;> cases hran.symm.trans (hxr ▸ hx)
    · rw [hother x hxr] at hx
      rw [hkv, hothers x hxr]
      exact h.resting x hx
  · rw [hkv, hlisted]
    exact hcalls
  · rw [hlisted]
    by_cases hxr : x = r
    · refine iff_of_false (hxr ▸ hkept) fun hx => ?_
      cases hran.symm.trans (hxr ▸ hx.2)
    · rw [hother x hxr]
      exact h.listed x

/-- A running candidate is scheduled with its new blocks. -/
theorem scheduleRunning {g : Grant} {blocks : KVCacheBlocks} (h : Tabled J s t) (hw : Walking t)
    (hkept : r ∉ t.preemptedReqs) (hr : t.qm.combined[t.reqIndex]? = some r) (hstatus : (t.req r).status = .running) (hJ : J kv)
    (halloc : allocateSlots t.sch.kv (t.req r) (runningArgs cfg g) = .ok (some blocks, kv))
    (hsched : (t.setKv kv).scheduleRunning r g blocks = .ok ls') : Tabled J s ls' := by
  have hid := h.ids r (known_of_running hstatus)
  have hfresh := hw.fresh hr
  obtain ⟨hs, hb⟩ := h.unscheduled r hstatus hfresh
  have hnow := AppendingKVCacheManager.getBlocks_of_running rfl rfl halloc
  have hsub := AppendingKVCacheManager.flatten_subset rfl rfl halloc
  rw [hid, hb] at hnow
  rw [hid] at hsub
  obtain ⟨enc, spec, -, rfl⟩ := scheduleRunning_eq_ok hsched
  refine h.grant (f := fun q => { q with specTokenIds := [] }) hJ
    (fun x ht => ht.allocateSlots halloc) (.allocated hid halloc) (fun x hx =>
    SeparateKVCacheManager.getBlocks_allocateSlots halloc (by rwa [hid]))
    (h.calls.allocateSlots halloc) hfresh (known_of_running hstatus) hkept rfl
    (fun _ => ⟨rfl, rfl, fun hplain => hplain⟩) hstatus rfl rfl rfl (fun x hx => ?_)
    (fun x hx => ?_) (fun x hx => .inl hx) fun x hx => .inl hx
  · rw [scheduledReqs, ← List.append_assoc, List.mem_append, not_or, List.mem_singleton] at hx
    exact hx
  · rcases List.mem_append.mp hx with hx | hx
    · exact .inl hx
    · exact .inr ⟨List.mem_singleton.mp hx, hs, hnow, hsub⟩

/-- A waiting candidate is admitted and noted with all of its blocks. -/
theorem admitWaiting {c : CachedPrefix} {g : Grant} {blocks : KVCacheBlocks} {q₀ q' : Request}
    (hrule : KVRule cfg s.hashes J) (h : Tabled J s t) (hw : Walking t)
    (hkept : r ∉ t.preemptedReqs) (hr : t.qm.combined[t.reqIndex]? = some r) (hlocal : c.Local kv₀ q₀) (hnonneg : 0 ≤ g.numNewTokens)
    (hJ : J kv)
    (halloc : allocateSlots t.sch.kv (t.req r) (waitingArgs cfg q' c g) = .ok (some blocks, kv))
    (hadmitted : (t.setKv kv).admitWaiting cfg r c g = .ok ls') : Tabled J s ls' := by
  have hk := hw.known r (List.mem_of_getElem? hr)
  have hid := h.ids r hk
  have hfresh := hw.fresh hr
  obtain ⟨newReqs, resumedReqs, qm', enc, hlists, -, -, rfl⟩ := admitWaiting_eq_ok hadmitted
  refine h.grant (f := fun q => { q with
      status := .running
      numComputedTokens := c.numComputedTokens }) hJ
    (fun x ht => ht.allocateSlots halloc) (.allocated hid halloc) (fun x hx =>
    SeparateKVCacheManager.getBlocks_allocateSlots halloc (by rwa [hid]))
    (h.calls.allocateSlots halloc) hfresh hk hkept rfl
    (fun _ => ⟨rfl, rfl, fun hplain => ⟨hplain.1, by rintro ⟨⟩⟩⟩) rfl rfl rfl rfl (fun x hx => ?_)
    (fun x hx => .inl hx) (fun x hx => ?_) fun x hx => ?_
  · rw [scheduledReqs, List.mem_append, List.mem_append, not_or, not_or] at hx
    obtain ⟨⟨hn, hres⟩, hrun⟩ := hx
    rw [scheduledReqs, List.mem_append, List.mem_append, not_or, not_or]
    rcases hlists with ⟨-, rfl, rfl⟩ | ⟨-, rfl, rfl⟩
    · rw [List.mem_append, not_or, List.mem_singleton] at hn
      exact ⟨⟨⟨hn.1, hres⟩, hrun⟩, hn.2⟩
    · rw [List.mem_append, not_or, List.mem_singleton] at hres
      exact ⟨⟨⟨hn, hres.1⟩, hrun⟩, hres.2⟩
  · rcases hlists with ⟨-, rfl, -⟩ | ⟨-, rfl, -⟩
    · rcases List.mem_append.mp hx with hx | hx
      · exact .inl hx
      · exact .inr ⟨List.mem_singleton.mp hx, rfl⟩
    · exact .inl hx
  · rcases hlists with ⟨-, -, rfl⟩ | ⟨hstatus, -, rfl⟩
    · exact .inl hx
    · rcases List.mem_append.mp hx with hx | hx
      · exact .inl hx
      · obtain ⟨hs, hzero⟩ := h.preempted r hstatus
        have hfilled := hrule.filled hlocal h.kv hzero hnonneg halloc
        rw [hid] at hfilled
        exact .inr ⟨List.mem_singleton.mp hx, hs, rfl, hfilled⟩

/-! ### Rounds -/

/-- Every orderly round keeps the blocks accounted for. -/
theorem round {p : Pass (LoopState K E) (LoopState K E)} (hrule : KVRule cfg s.hashes J)
    (hc : cfg.connector = false) (h : Tabled J s ls) (hw : Walking ls)
    (hround : RoundOutcome cfg env ls p) (hgood : ∀ e, RoundEvent cfg env ls e → Orderly e) :
    Tabled J s p.state := by
  have hrunArgs : ∀ {enc g r}, LawfulCall J s (ls.setEnc enc) r (runningArgs cfg g) := by
    intro enc g r kv q res kv' _ hkv hid hhashes halloc
    exact hrule.running hkv (hid.symm ▸ hhashes) halloc
  have hwaitArgs : ∀ {enc g c q' r}, c.Local ls.sch.kv (ls.req r) →
      LawfulCall J s (ls.setEnc enc) r (waitingArgs cfg q' c g) := by
    intro enc g c q' r hlocal kv q res kv' hroom hkv hid hhashes halloc
    have hhashes₀ : (ls.req r).blockHashes = s.hashes q.requestId := hid.symm ▸ h.hashed r
    exact hrule.waiting h.kv hlocal hhashes₀ (hid.symm ▸ hhashes) hroom hkv halloc
  cases hround with
  | exhausted | spent | preempted | stuck => exact h
  | passed => exact h.move _ _
  | running htreats hR houtcome =>
    have hin : ∀ enc, _ ∈ (ls.setEnc enc).qm.combined := fun _ =>
      List.mem_of_getElem? htreats.stands
    have hfresh : ∀ enc, _ ∉ (ls.setEnc enc).preemptedReqs := fun _ => htreats.notPreempted
    cases houtcome with
    | @noTokens enc => exact (h.setEnc enc).move ls.qm (ls.reqIndex + 1)
    | noBlocks hgrant hpos halloc =>
      exact (h.setEnc _).allocLoop_none hrule (hw.setEnc _) (hin _) (hfresh _) hrunArgs (fun t l v kv ht hpre =>
        hgood _ (.preemptForRunning htreats hR hgrant hpos ht hpre)) halloc
    | scheduled hgrant hpos halloc hsched =>
      have hrunning := allocLoop_running halloc hR
      obtain ⟨t, kv, htab, hwalk, hkept, hindex, hsame, -, hkv, halloc', rfl⟩ :=
        (h.setEnc _).allocLoop_some hrule (hw.setEnc _) (hin _) (hfresh _) hrunArgs (fun t l v kv ht hpre =>
          hgood _ (.preemptForRunning htreats hR hgrant hpos ht hpre)) halloc
      refine htab.scheduleRunning hwalk hkept ?_ ((hwalk.status _).mpr hrunning) hkv halloc' hsched
      rw [hindex, hsame.combined]
      exact htreats.stands
  | waiting htreats hR hW houtcome =>
    have hin : ∀ enc, _ ∈ (ls.setEnc enc).qm.combined := fun _ =>
      List.mem_of_getElem? htreats.stands
    have hfresh : ∀ enc, _ ∉ (ls.setEnc enc).preemptedReqs := fun _ => htreats.notPreempted
    cases houtcome with
    | ignoredPrompt _ hignore | ignoredEncoderInputs _ _ hignore =>
      obtain ⟨qm', -, rfl⟩ := ignore_eq_ok hignore
      exact h.unannounce htreats.notPreempted (fun _ => rfl) fun _ =>
        ⟨rfl, rfl, fun hplain => ⟨hplain.1, by rintro ⟨⟩⟩⟩
    | skipped _ hskip =>
      obtain ⟨qm', -, rfl⟩ := skip_eq_ok hskip
      exact h.move _ _
    | blocked => exact h.setEnc _
    | noBlocks hcached hg halloc =>
      have hlocal := cachedPrefix_local hc hcached
      have htab := (h.setEnc _).allocLoop_none hrule (hw.setEnc _) (hin _) (hfresh _) (hwaitArgs hlocal)
        (fun t l v kv ht hpre => hgood _ (.preemptForWaiting htreats hR hW hcached hg ht hpre)) halloc
      dsimp only [Flow.toPass, Pass.state]
      split
      · exact htab.setEnc _
      · exact htab
    | loading hcached hg halloc hload =>
      rw [(cachedPrefix_local hc hcached).load] at hload
      cases hload
    | admitted hcached hg halloc hload hadmitted =>
      have hlocal := cachedPrefix_local hc hcached
      obtain ⟨t, kv, htab, hwalk, hkept, hindex, hsame, -, hkv, halloc', rfl⟩ :=
        (h.setEnc _).allocLoop_some hrule (hw.setEnc _) (hin _) (hfresh _) (hwaitArgs hlocal)
          (fun t l v kv ht hpre => hgood _ (.preemptForWaiting htreats hR hW hcached hg ht hpre))
          halloc
      refine htab.admitWaiting hrule hwalk hkept ?_ hlocal (waitingGrant_nonneg hg) hkv halloc' hadmitted
      rw [hindex, hsame.combined]
      exact htreats.stands

/-- The tail preemption behind the walk. -/
theorem tailPreempt (hrule : KVRule cfg s.hashes J) (h : Tabled J s ls) (hw : Walking ls)
    (htail : ls.tailPreempt = .ok t) : Tabled J s t := by
  unfold LoopState.tailPreempt at htail
  split at htail
  · have hkept := tailKept_walk ls.reqIndex
    have hpass : TailPass (·.Walk ls.reqIndex) ls [] t ∧ Tabled J s t := by
      refine foldlM_rule (I := fun rest t => TailPass (·.Walk ls.reqIndex) ls rest t ∧ Tabled J s t)
        htail ⟨.start hkept hw.walk hw.status, h⟩ fun r rest u u' hI hone => ?_
      obtain ⟨htail, htab⟩ := hI
      refine ⟨htail.next hkept hw.known hone, ?_⟩
      rcases tailPreemptOne_cases hone with ⟨-, rfl⟩ | ⟨hstatus, qm', -, rfl⟩
      · exact htab
      · have hnot : r ∉ u.scheduledReqs := by
          obtain ⟨_, _, rfl⟩ := htail.same
          intro hmem
          obtain ⟨-, j, hj, hjr⟩ := hw.scheduled r hmem
          obtain ⟨k, hik, hk⟩ := mem_behind.mp (htail.sub r List.mem_cons_self)
          have := hw.walk.toParts.index_unique hk hjr
          omega
        exact htab.release hrule htab.kv (fun _ => id) (fun _ => rfl) htab.calls hstatus hnot
          (fun _ => rfl) (fun _ => rfl) fun _ => ⟨rfl, rfl, fun hplain => ⟨hplain.1, by rintro ⟨⟩⟩⟩
    exact hpass.2
  · cases htail
    exact h

end Tabled

end LoopState

namespace Scheduler

open KVCacheManager (getBlocks)

variable {K E : Type} [KVCacheManager K] [AppendingKVCacheManager K] [EncoderCache E]
  {J : K → Prop} {cfg : Config} {env : StepEnv} {s s' : Scheduler K E} {ls : LoopState K E}
  {out : SchedulerOutput}

omit [EncoderCache E] in
/-- A step begins with the blocks as they are. -/
theorem beginStep_tabled (hrule : KVRule cfg s.hashes J) (hs : J s.kv) (ht : s.Tracking)
    (hnamed : Named s) (hrewound : ∀ r, (s.req r).Rewound) (hbegin : beginStep cfg env s = .ok ls) :
    ls.Tabled J s := by
  obtain ⟨objs, requests, hsame, -, -, rfl⟩ := beginStep_eq_ok hbegin
  have hreq : ∀ r, ∃ p, Objs.req objs r = { s.req r with priority := p } := hsame.req
  have hblocks : ∀ r, getBlocks (KVCacheManager.newStepStarts s.kv) r = getBlocks s.kv r := fun r =>
    LawfulKVCacheManager.getBlocks_newStepStarts _ _
  refine ⟨hrule.newStepStarts hs, fun r hr => ?_, fun r hr => ?_, fun r => ?_, fun r hr _ => ?_,
    by simp, by simp, by simp, fun r hr => ?_, fun r hr => .inl ?_, .newStepStarts, List.nodup_nil,
    fun r => iff_of_false List.not_mem_nil fun hr => ?_⟩
  · obtain ⟨p, hp⟩ := hreq r
    change (Objs.req objs r).status = .running at hr
    rw [hp] at hr
    exact (ht r hr).newStepStarts
  · obtain ⟨p, hp⟩ := hreq r
    change (Objs.req objs r).requestId = r
    rw [hp]
    exact hnamed.ids r (hsame.keys ▸ hr)
  · obtain ⟨p, hp⟩ := hreq r
    change (s.req r).Keeps (Objs.req objs r)
    rw [hp]
    exact ⟨rfl, rfl, fun hplain => hplain⟩
  · obtain ⟨p, hp⟩ := hreq r
    change (Objs.req objs r).status = .running at hr
    rw [hp] at hr
    exact ⟨hr, hblocks r⟩
  · obtain ⟨p, hp⟩ := hreq r
    change (Objs.req objs r).status = .preempted at hr
    change _ ∧ (Objs.req objs r).numComputedTokens = 0
    rw [hp] at hr ⊢
    exact ⟨.inr hr, hrewound r hr⟩
  · obtain ⟨p, hp⟩ := hreq r
    change (Objs.req objs r).Resting at hr
    rw [hp] at hr
    exact ⟨hr, hblocks r⟩
  · obtain ⟨p, hp⟩ := hreq r
    change _ ∧ (Objs.req objs r).status = .preempted at hr
    rw [hp] at hr
    cases hr.1.symm.trans hr.2

/-- At the end of the walk of an orderly step. -/
theorem Walked.tabled (hrule : KVRule cfg s.hashes J) (hc : cfg.connector = false) (hs : J s.kv)
    (ht : s.Tracking) (hnamed : Named s) (hrewound : ∀ r, (s.req r).Rewound) (h : Coherent s)
    (hgood : StepMeets LoopState.Orderly cfg env s) (hwalked : Walked cfg env s ls) :
    ls.Tabled J s := by
  obtain ⟨ls₀, ls₁, hbegin, hloop, htail⟩ := hwalked
  have hround : ∀ t p, Rounds cfg env s t → t.Tabled J s → t.round cfg env = .ok p →
      p.state.Tabled J s := by
    intro t p ht hI hstep
    have hw := ht.walking h hgood
    exact hI.round hrule hc hw (LoopState.round_outcome hw.walk.toParts.running_waiting hstep)
      (hgood t ht)
  obtain ⟨t, hvisits, hexit⟩ := loop_exit hloop
  have hrounds : Rounds cfg env s t := ⟨ls₀, hbegin, hvisits⟩
  have htab : t.Tabled J s := hvisits.invariant (I := fun t => t.Tabled J s)
    (beginStep_tabled hrule hs ht hnamed hrewound hbegin)
    fun u u' hu hI hstep => hround u _ ⟨ls₀, hbegin, hu⟩ hI hstep
  have hw := hrounds.walking h hgood
  have hw₁ : ls₁.Walking :=
    hw.round (LoopState.round_outcome hw.walk.toParts.running_waiting hexit) (hgood t hrounds)
  exact LoopState.Tabled.tailPreempt hrule (hround t _ hrounds htab hexit) hw₁ htail

end Scheduler

end RpsServe
