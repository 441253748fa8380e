import RpsServe.Scheduler.Growth
import RpsServe.Scheduler.Leaving
import RpsServe.Scheduler.Named

/-!
# The calls of the KV cache manager

All calls that the scheduler issues to its KV cache manager when no KV connector is used. What
each call keeps holds in every run. Between the steps only blocks of requests that do not run
any more are released, and a request that runs on keeps what the workers were told of it.
-/

namespace RpsServe

/-- What `NewRequestData` carries of a request besides its blocks. -/
structure Payload where
  promptTokenIds : List Token
  mmFeatures : List MmFeature
  samplingParams : SamplingParams
  loraRequest : Option ℕ
deriving DecidableEq

namespace Request

/-- The payload of a request object. -/
def payload (q : Request) : Payload where
  promptTokenIds := q.promptTokenIds
  mmFeatures := q.mmFeatures
  samplingParams := q.samplingParams
  loraRequest := q.loraRequest

/-- The workers know the request: it runs, or it was preempted. -/
def Announced (q : Request) : Prop := q.status = .running ∨ q.status = .preempted

instance : DecidablePred Announced := fun _ => inferInstanceAs (Decidable (_ ∨ _))

/-- The request waits, or it was preempted. -/
def Resting (q : Request) : Prop := q.status = .waiting ∨ q.status = .preempted

/-- Nothing is computed of a request that was preempted. -/
def Rewound (q : Request) : Prop := q.status = .preempted → q.numComputedTokens = 0

/-- No request begins to run between two steps, and one the workers know keeps its payload. -/
structure Stays (q q' : Request) : Prop where
  running : q'.status = .running → q.status = .running
  announced : q'.Announced → q.Announced
  payload : q'.Announced → q'.payload = q.payload
  rewound : q.Rewound → q'.Rewound

namespace Stays

variable {q q₁ q' : Request}

/-- A request stays itself. -/
theorem refl (q : Request) : q.Stays q := ⟨id, id, fun _ => rfl, id⟩

/-- What stays twice stays. -/
theorem trans (h : q.Stays q₁) (h' : q₁.Stays q') : q.Stays q' where
  running hr := h.running (h'.running hr)
  announced ha := h.announced (h'.announced ha)
  payload ha := (h'.payload ha).trans (h.payload (h'.announced ha))
  rewound hq := h'.rewound (h.rewound hq)

/-- Keeping the status, the payload, and that nothing is computed. -/
theorem of_same (hstatus : q'.status = q.status) (hpayload : q'.payload = q.payload)
    (hzero : q.numComputedTokens = 0 → q'.numComputedTokens = 0) : q.Stays q' where
  running hr := hstatus ▸ hr
  announced ha := ha.imp (hstatus ▸ ·) (hstatus ▸ ·)
  payload _ := hpayload
  rewound hq hp := hzero (hq (hstatus ▸ hp))

/-- Taking a status in which the workers do not know the request. -/
theorem of_unannounced (h : ¬ q'.Announced) : q.Stays q' where
  running hr := absurd (.inl hr) h
  announced ha := absurd ha h
  payload ha := absurd ha h
  rewound _ hp := absurd (.inr hp) h

/-- Any request stays when it comes to be finished. -/
theorem of_finished (h : q'.isFinished = true) : q.Stays q' :=
  .of_unannounced <| by
    rintro (hs | hs) <;> rw [isFinished, hs] at h <;> cases h

end Stays

/-- A request comes to wait only if it is a session, and it is not preempted. -/
structure Rests (q q' : Request) : Prop where
  waiting : q.Plain → q'.status = .waiting → q.status = .waiting
  preempted : q'.status = .preempted → q.status = .preempted

namespace Rests

variable {q q' : Request}

/-- A request that keeps its status rests. -/
theorem of_same (hstatus : q'.status = q.status) : q.Rests q' :=
  ⟨fun _ h => hstatus ▸ h, fun h => hstatus ▸ h⟩

/-- A request that comes neither to wait nor to be preempted rests. -/
theorem of_ne (hwaiting : q'.status ≠ .waiting) (hpreempted : q'.status ≠ .preempted) :
    q.Rests q' := ⟨fun _ h => absurd h hwaiting, fun h => absurd h hpreempted⟩

/-- A request that comes to be finished rests. -/
theorem of_finished (h : q'.isFinished = true) : q.Rests q' := by
  refine .of_ne (fun hs => ?_) fun hs => ?_
  all_goals
    rw [isFinished, hs] at h
    cases h

end Rests

end Request

/-! ### Calls between the steps -/

section KVReleased

variable {K : Type} [KVCacheManager K] {P P' : ReqId → Prop} {H H' : ReqId → List BlockHash}
  {kv kv₁ kv' : K} {r : ReqId}

/-- The request was given slots and not freed since. -/
inductive HasSlots (r : ReqId) : K → Prop
  | allocated {kv kv' : K} {q : Request} {args : AllocateSlotsArgs} {blocks : KVCacheBlocks} :
      q.requestId = r → KVCacheManager.allocateSlots kv q args = .ok (some blocks, kv') →
      HasSlots r kv'
  | allocateSlots {kv kv' : K} {q : Request} {args : AllocateSlotsArgs}
      {res : Option KVCacheBlocks} : HasSlots r kv →
      KVCacheManager.allocateSlots kv q args = .ok (res, kv') → HasSlots r kv'
  | free {kv : K} {v : ReqId} : HasSlots r kv → r ≠ v → HasSlots r (KVCacheManager.free kv v)
  | cacheBlocks {kv kv' : K} {q : Request} {n : ℤ} : HasSlots r kv →
      KVCacheManager.cacheBlocks kv q n = .ok kv' → HasSlots r kv'
  | resetPrefixCache {kv : K} : HasSlots r kv → HasSlots r (KVCacheManager.resetPrefixCache kv).2
  | newStepStarts {kv : K} : HasSlots r kv → HasSlots r (KVCacheManager.newStepStarts kv)
  | takeNewBlockIds {kv : K} : HasSlots r kv → HasSlots r (KVCacheManager.takeNewBlockIds kv).2

/-- Between the steps: requests with the property `P` are freed, blocks are cached under the first
of the hashes `H`, and the prefix cache is reset. -/
inductive KVReleased (P : ReqId → Prop) (H : ReqId → List BlockHash) (kv : K) : K → Prop
  | refl : KVReleased P H kv kv
  | free {kv' : K} {r : ReqId} : KVReleased P H kv kv' → P r →
      KVReleased P H kv (KVCacheManager.free kv' r)
  | cacheBlocks {kv₁ kv' : K} {q : Request} {n : ℤ} : KVReleased P H kv kv₁ →
      q.blockHashes <+: H q.requestId → HasSlots q.requestId kv₁ →
      KVCacheManager.cacheBlocks kv₁ q n = .ok kv' → KVReleased P H kv kv'
  | resetPrefixCache {kv' : K} : KVReleased P H kv kv' →
      KVReleased P H kv (KVCacheManager.resetPrefixCache kv').2

namespace KVReleased

/-- Releases for fewer requests and shorter hashes are releases. -/
theorem mono (hP : ∀ r, P r → P' r) (hH : ∀ r, H r <+: H' r) (h : KVReleased P H kv kv') :
    KVReleased P' H' kv kv' := by
  induction h with
  | refl => exact .refl
  | free _ hr ih => exact ih.free (hP _ hr)
  | cacheBlocks _ hq ht hc ih => exact ih.cacheBlocks (hq.trans (hH _)) ht hc
  | resetPrefixCache _ ih => exact ih.resetPrefixCache

/-- Releases compose. -/
theorem trans (h : KVReleased P H kv kv₁) (h' : KVReleased P H kv₁ kv') : KVReleased P H kv kv' := by
  induction h' with
  | refl => exact h
  | free _ hr ih => exact ih.free hr
  | cacheBlocks _ hq ht hc ih => exact ih.cacheBlocks hq ht hc
  | resetPrefixCache _ ih => exact ih.resetPrefixCache

/-- What is not released keeps its slots. -/
theorem hasSlots (h : KVReleased P H kv kv') (hr : ¬ P r) (ht : HasSlots r kv) : HasSlots r kv' := by
  induction h with
  | refl => exact ht
  | @free kv' v _ hv ih =>
    refine ih.free ?_
    rintro rfl
    exact hr hv
  | cacheBlocks _ _ _ hc ih => exact ih.cacheBlocks hc
  | resetPrefixCache _ ih => exact ih.resetPrefixCache

end KVReleased

/-- Between the steps: references to encoder outputs are given up. -/
inductive GivesUp {E : Type} [EncoderCache E] (enc : E) : E → Prop
  | refl : GivesUp enc enc
  | freeEncoderInput {enc' : E} (q : Request) (i : ℕ) : GivesUp enc enc' →
      GivesUp enc (EncoderCache.freeEncoderInput enc' q i)
  | free {enc' : E} (q : Request) : GivesUp enc enc' → GivesUp enc (EncoderCache.free enc' q)

/-- Giving references up composes. -/
theorem GivesUp.trans {E : Type} [EncoderCache E] {enc enc₁ enc' : E} (h : GivesUp enc enc₁)
    (h' : GivesUp enc₁ enc') : GivesUp enc enc' := by
  induction h' with
  | refl => exact h
  | freeEncoderInput q i _ ih => exact .freeEncoderInput q i ih
  | free q _ ih => exact .free q ih

end KVReleased

namespace Scheduler

variable {K E : Type} [KVCacheManager K] [EncoderCache E] {cfg : Config}
  {delayFree : ReqId → Bool} {r : ReqId} {s s₁ s' : Scheduler K E}

/-- The block hashes of the requests. -/
def hashes (s : Scheduler K E) (r : ReqId) : List BlockHash := (s.req r).blockHashes

/-- Every request that runs has slots. -/
def Tracking (s : Scheduler K E) : Prop := ∀ r, (s.req r).status = .running → HasSlots r s.kv

/-- What an operation between two steps leaves of the requests and of their blocks. It makes no
requests known but those in `new`, only sessions go back to waiting, and what it preempts it frees. -/
structure Retains (blockHasher : Request → List BlockHash) (new : ReqId → Prop)
    (s s' : Scheduler K E) : Prop where
  stays : ∀ r, (s.req r).Stays (s'.req r)
  keys : s.objs.keys ⊆ s'.objs.keys
  fresh : ∀ r ∈ s'.objs.keys, r ∈ s.objs.keys ∨ new r
  grows : ∀ r ∈ s.objs.keys, (s.req r).Grows blockHasher (s'.req r)
  waiting : ∀ r ∈ s.objs.keys, (s.req r).Plain → (s'.req r).status = .waiting →
    (s.req r).status = .waiting
  preempted : s.Tracking → ∀ r, (s'.req r).status = .preempted → (s.req r).status = .preempted ∨
    ∃ kv, KVReleased (fun x => (s'.req x).status ≠ .running) s'.hashes (KVCacheManager.free kv r) s'.kv
  kv : s.Tracking → KVReleased (fun r => (s'.req r).status ≠ .running) s'.hashes s.kv s'.kv
  enc : GivesUp s.enc s'.enc

variable {new : ReqId → Prop} {blockHasher : Request → List BlockHash}

omit [KVCacheManager K] [EncoderCache E] in
/-- Hashes are appended, and an unknown request has none. -/
theorem hashes_extend (hgrows : ∀ r ∈ s.objs.keys, (s.req r).Grows blockHasher (s'.req r))
    (r : ReqId) : s.hashes r <+: s'.hashes r := by
  by_cases hr : r ∈ s.objs.keys
  · exact (hgrows r hr).blockHashes
  · unfold hashes
    rw [req, Objs.req_of_notMem hr]
    exact List.nil_prefix

namespace Retains

/-- Retaining the requests keeps the tracking. -/
theorem tracking (h : Retains blockHasher new s s') (ht : s.Tracking) : s'.Tracking :=
  fun r hr => (h.kv ht).hasSlots (not_not_intro hr) (ht r ((h.stays r).running hr))

/-- Retaining composes. -/
theorem trans (h : Retains blockHasher new s s₁) (h' : Retains blockHasher new s₁ s') :
    Retains blockHasher new s s' where
  stays r := (h.stays r).trans (h'.stays r)
  keys := List.Subset.trans h.keys h'.keys
  fresh r hr := (h'.fresh r hr).elim (h.fresh r) .inr
  grows r hr := (h.grows r hr).trans (h'.grows r (h.keys hr))
  waiting r hr hplain hw :=
    h.waiting r hr hplain (h'.waiting r (h.keys hr) ((h.grows r hr).plain hplain) hw)
  preempted ht r hr := by
    refine (h'.preempted (h.tracking ht) r hr).elim (fun hr₁ => ?_) .inr
    refine (h.preempted ht r hr₁).imp_right fun ⟨kv, hkv⟩ => ⟨kv, ?_⟩
    exact (hkv.mono (fun r hr hrun => hr ((h'.stays r).running hrun))
      (hashes_extend h'.grows)).trans (h'.kv (h.tracking ht))
  kv ht := ((h.kv ht).mono (fun r hr hrun => hr ((h'.stays r).running hrun))
    (hashes_extend h'.grows)).trans (h'.kv (h.tracking ht))
  enc := h.enc.trans h'.enc

/-- Changing neither the requests nor their blocks. -/
theorem of_same (hobjs : s'.objs = s.objs) (hkv : s'.kv = s.kv)
    (henc : GivesUp s.enc s'.enc) : Retains blockHasher new s s' where
  stays r := by
    rw [req, req, hobjs]
    exact .refl _
  keys := by rw [hobjs]; exact List.Subset.refl _
  fresh r hr := .inl (hobjs ▸ hr)
  grows r _ := by
    rw [req, req, hobjs]
    exact .refl _
  waiting r _ _ hr := by rwa [req, hobjs] at hr
  preempted _ r hr := .inl (by rwa [req, hobjs] at hr)
  kv _ := hkv ▸ .refl
  enc := henc

/-- A state retains what it has. -/
theorem refl (s : Scheduler K E) : Retains blockHasher new s s := of_same rfl rfl .refl

/-- Writing to one request. -/
theorem modify {f : Request → Request} (hf : (s.req r).Stays (f (s.req r)))
    (hrests : (s.req r).Rests (f (s.req r)))
    (hgrows : (s.req r).Grows blockHasher (f (s.req r))) (hobjs : s'.objs = s.objs.modify r f)
    (hkv : s'.kv = s.kv) (henc : s'.enc = s.enc) : Retains blockHasher new s s' := by
  have hreq : ∀ x, s'.req x = s.req x ∨ x = r ∧ s'.req x = f (s.req r) := by
    intro x
    rw [req, hobjs]
    rcases Objs.req_modify_cases s.objs r f x with h | ⟨rfl, h⟩
    exacts [.inl h, .inr ⟨rfl, h⟩]
  have hkeys : s'.objs.keys = s.objs.keys := by rw [hobjs, Dict.keys_modify]
  refine ⟨fun x => ?_, by rw [hkeys]; exact List.Subset.refl _, fun x hx => .inl (hkeys ▸ hx),
    fun x _ => ?_, fun x _ hplain => ?_, fun _ x => ?_, fun _ => hkv ▸ .refl, henc ▸ .refl⟩
  all_goals rcases hreq x with h | ⟨rfl, h⟩ <;> rw [h]
  exacts [.refl _, hf, .refl _, hgrows, id, hrests.waiting hplain, .inl,
    fun hx => .inl (hrests.preempted hx)]

/-- Writing to fields of one request other than its status, its payload, its content and its
progress. -/
theorem modify_fields {f : Request → Request} (hstatus : ∀ q, (f q).status = q.status)
    (hpayload : ∀ q, (f q).payload = q.payload) (hcontent : ∀ q, (f q).content = q.content)
    (hresumable : ∀ q, (f q).resumable = q.resumable)
    (hzero : ∀ q, q.numComputedTokens = 0 → (f q).numComputedTokens = 0) :
    Retains blockHasher new s (s.modifyReq r f) :=
  .modify (.of_same (hstatus _) (hpayload _) (hzero _)) (.of_same (hstatus _))
    (.same (hcontent _) (.imp (hresumable _ ▸ id) (hstatus _ ▸ id))) rfl rfl rfl

/-- Ending a request. -/
theorem ended {f : Request → Request} (hfin : (f (s.req r)).isFinished = true)
    (hcontent : (f (s.req r)).content = (s.req r).content)
    (hresumable : (s.req r).resumable = false → (f (s.req r)).resumable = false)
    (hobjs : s'.objs = s.objs.modify r f) (hkv : s'.kv = s.kv)
    (henc : s'.enc = s.enc) : Retains blockHasher new s s' := by
  refine .modify (.of_finished hfin) (.of_finished hfin)
    (.same hcontent fun h => ⟨hresumable h.1, fun hs => ?_⟩) hobjs hkv henc
  rw [Request.isFinished, hs] at hfin
  cases hfin

/-- Releasing the blocks of a request that does not run. -/
theorem freed (hobjs : s'.objs = s.objs) (hkv : s'.kv = KVCacheManager.free s.kv r)
    (hr : (s.req r).status ≠ .running) (henc : GivesUp s.enc s'.enc) :
    Retains blockHasher new s s' := by
  have hsame : ∀ x, s'.req x = s.req x := fun x => by rw [req, req, hobjs]
  refine ⟨fun x => hsame x ▸ .refl _, by rw [hobjs]; exact List.Subset.refl _,
    fun x hx => .inl (hobjs ▸ hx), fun x _ => hsame x ▸ .refl _, fun x _ _ hx => hsame x ▸ hx,
    fun _ x hx => .inl (hsame x ▸ hx), fun _ => ?_, henc⟩
  rw [hkv]
  exact .free .refl (by rwa [hsame])

/-- Preempting a running request and releasing its blocks. -/
theorem vacated {f : Request → Request} (hk : r ∈ s.objs.keys) (hrun : (s.req r).status = .running)
    (hf : (f (s.req r)).status = .preempted ∧ (f (s.req r)).numComputedTokens = 0 ∧
      (f (s.req r)).payload = (s.req r).payload ∧ (f (s.req r)).content = (s.req r).content ∧
      ((s.req r).resumable = false → (f (s.req r)).resumable = false))
    (hobjs : s'.objs = s.objs.modify r f) (hkv : s'.kv = KVCacheManager.free s.kv r)
    (henc : GivesUp s.enc s'.enc) : Retains blockHasher new s s' := by
  obtain ⟨hstatus, hzero, hpayload, hcontent, hresumable⟩ := hf
  have hself : s'.req r = f (s.req r) := by
    rw [req, hobjs]
    exact Objs.req_modify_self hk
  have hother : ∀ x, x ≠ r → s'.req x = s.req x := fun x hx => by
    rw [req, hobjs]
    exact Objs.req_modify_ne hx
  have hkeys : s'.objs.keys = s.objs.keys := by rw [hobjs, Dict.keys_modify]
  have hidle : (s'.req r).status ≠ .running := by
    rw [hself, hstatus]
    rintro ⟨⟩
  refine ⟨fun x => ?_, by rw [hkeys]; exact List.Subset.refl _, fun x hx => .inl (hkeys ▸ hx),
    fun x _ => ?_, fun x _ _ hx => ?_, fun _ x hx => ?_, fun _ => hkv ▸ .free .refl hidle, henc⟩
  all_goals by_cases hxr : x = r
  · rw [hxr, hself]
    exact ⟨fun _ => hrun, fun _ => .inl hrun, fun _ => hpayload, fun _ _ => hzero⟩
  · rw [hother x hxr]
    exact .refl _
  · rw [hxr, hself]
    refine .same hcontent fun hplain => ⟨hresumable hplain.1, ?_⟩
    rw [hstatus]
    rintro ⟨⟩
  · rw [hother x hxr]
    exact .refl _
  · rw [hxr, hself, hstatus] at hx
    cases hx
  · rwa [hother x hxr] at hx
  · exact .inr ⟨s.kv, hxr ▸ hkv ▸ .refl⟩
  · exact .inl (hother x hxr ▸ hx)

end Retains

omit [KVCacheManager K] [EncoderCache E] in
/-- A finished request does not run. -/
theorem not_running_of_finished (h : (s.req r).isFinished = true) : (s.req r).status ≠ .running := by
  intro hs
  rw [Request.isFinished, hs] at h
  cases h

/-- Writing to a request and caching the blocks of its confirmed tokens. -/
theorem Retains.cached {kv : K} {q : Request} (h : Retains blockHasher new s s₁)
    (hrests : ∀ r, (s.req r).Rests (s₁.req r))
    (hq : q.blockHashes <+: s₁.hashes q.requestId)
    (hc : cacheConfirmed s.kv (s.req q.requestId).status q = .ok kv) :
    Retains blockHasher new s { s₁ with kv := kv } := by
  refine ⟨h.stays, h.keys, h.fresh, h.grows, h.waiting, fun _ r hr => .inl ((hrests r).preempted hr),
    fun ht => ?_, h.enc⟩
  unfold cacheConfirmed at hc
  split at hc
  · rename_i hrun
    exact .cacheBlocks .refl hq (ht _ hrun) hc
  · cases hc
    exact .refl

/-- Freeing a request retains the others. -/
theorem freeRequest_retains {delayed : Bool} (hc : cfg.connector = false)
    (h : s.freeRequest cfg delayFree r delayed = .ok s') : Retains blockHasher new s s' := by
  unfold freeRequest at h
  split at h
  · cases h
  · rename_i hfin
    have hstop : (s.req r).status ≠ .running := not_running_of_finished (by simpa using hfin)
    simp only [hc, Bool.false_eq_true, if_false, Bool.false_and, Bool.or_false] at h
    have hfree : GivesUp s.enc (EncoderCache.free s.enc (s.req r)) := .free _ .refl
    split at h
    · cases h
      exact .of_same rfl rfl hfree
    · obtain ⟨-, -, rfl⟩ := freeBlocks_eq_ok h
      exact .freed rfl rfl hstop hfree

/-- Ending requests retains the others. -/
theorem finishRequests_retains {ids : Option (List ReqId)} {finishedStatus : RequestStatus}
    (hc : cfg.connector = false) (h : s.finishRequests cfg delayFree ids finishedStatus = .ok s') :
    Retains blockHasher new s s' := by
  unfold finishRequests at h
  split at h
  · cases h
  · rename_i hfin
    have hfin : finishedStatus.isFinished = true := by simpa using hfin
    refine foldlM_invariant (I := Retains blockHasher new s) h (.of_same rfl rfl .refl)
      fun r _ t t' hI hone => ?_
    refine (hI.trans ?_).trans (freeRequest_retains hc hone)
    exact .ended (r := r) (f := fun q => { q with status := finishedStatus }) hfin rfl id rfl rfl rfl

/-! ### Answers -/

omit [KVCacheManager K] [EncoderCache E] in
/-- Appending tokens keeps the payload and the progress. -/
theorem appendUntilStop_payload {tokens kept : List Token} {q q' : Request} {stopped : Bool}
    (h : appendUntilStop cfg tokens q = .ok (kept, q', stopped)) :
    q'.payload = q.payload ∧ q'.numComputedTokens = q.numComputedTokens := by
  induction tokens generalizing q kept with
  | nil =>
    cases h
    exact ⟨rfl, rfl⟩
  | cons token rest ih =>
    obtain ⟨status, -, h⟩ := bind_eq_ok.mp h
    cases status with
    | some status =>
      cases h
      exact ⟨rfl, rfl⟩
    | none =>
      obtain ⟨⟨kept', q₁, stopped₁⟩, happend, h⟩ := bind_eq_ok.mp h
      cases h
      have hrest := ih happend
      exact hrest

omit [KVCacheManager K] [EncoderCache E] in
/-- Appending tokens lets the request grow. -/
theorem appendUntilStop_grows {tokens kept : List Token} {q q' : Request} {stopped : Bool}
    (h : appendUntilStop cfg tokens q = .ok (kept, q', stopped)) :
    q.Grows cfg.blockHasher q' := by
  induction tokens generalizing q kept with
  | nil =>
    cases h
    exact .refl _
  | cons token rest ih =>
    obtain ⟨status, hstop, h⟩ := bind_eq_ok.mp h
    have happend : q.Grows cfg.blockHasher (q.appendOutputTokenId cfg.blockHasher token) :=
      .append token (.refl q) rfl fun hq => hq
    cases status with
    | some status =>
      cases h
      refine happend.then_same rfl fun hq => ⟨hq.1, fun hs => ?_⟩
      have hfin := checkStop_finished hstop
      rw [show status = .waitingForStreamingReq from hs] at hfin
      cases hfin
    | none =>
      obtain ⟨⟨kept', q₁, stopped₁⟩, hrest, h⟩ := bind_eq_ok.mp h
      cases h
      exact happend.trans (ih hrest)

/-- The object that is written back carries the id and at least the hashes of the one that was
read. -/
theorem updateRequestWithOutput_retains {tokens kept : List Token} {stopped : Bool}
    (hk : r ∈ s.objs.keys) (hid : (s.req r).requestId = r)
    (h : s.updateRequestWithOutput cfg r tokens = .ok (kept, stopped, s')) :
    Retains cfg.blockHasher new s s' := by
  unfold updateRequestWithOutput at h
  dsimp only at h
  split at h
  · cases h
    exact .modify_fields (fun _ => rfl) (fun _ => rfl) (fun _ => rfl) (fun _ => rfl) fun _ h => h
  · obtain ⟨⟨kept', q', stopped'⟩, happend, h⟩ := bind_eq_ok.mp h
    obtain ⟨hpayload, hcomputed⟩ := appendUntilStop_payload happend
    have hgrows := appendUntilStop_grows happend
    have hanswered := appendUntilStop_answered happend
    have hstays : (s.req r).Stays q' := by
      cases stopped' with
      | false => exact .of_same (hanswered.status rfl) hpayload fun h => hcomputed.trans h
      | true => exact .of_finished (hanswered.finished rfl)
    have hrests : (s.req r).Rests q' := by
      cases stopped' with
      | false => exact .of_same (hanswered.status rfl)
      | true => exact .of_finished (hanswered.finished rfl)
    split at h
    · cases h
      exact .modify (r := r) (f := fun _ => q') hstays hrests hgrows rfl rfl rfl
    · dsimp only at h
      split at h
      · cases h
      · obtain ⟨kv, hcache, h⟩ := bind_eq_ok.mp h
        cases h
        generalize hq : ({ q' with
          numOutputPlaceholders := q'.numOutputPlaceholders - kept.length } : Request) = q at hcache ⊢
        have hself : (s.modifyReq r fun _ => q).req r = q := req_modifyReq_self hk
        have hqid : q.requestId = r := by
          rw [← hq]
          exact (appendUntilStop_requestId happend).trans hid
        have hwritten : Retains cfg.blockHasher new s (s.modifyReq r fun _ => q) := by
          refine .modify (r := r) (f := fun _ => q) ?_ ?_ ?_ rfl rfl rfl
          · rw [← hq]
            exact hstays.trans (.of_same rfl rfl id)
          · rw [← hq]
            exact ⟨hrests.waiting, hrests.preempted⟩
          · rw [← hq]
            exact hgrows.then_same rfl fun hplain => hplain
        refine hwritten.cached (fun x => ?_) ?_ (hqid.symm ▸ hcache)
        · by_cases hx : x = r
          · rw [hx, hself, ← hq]
            exact ⟨hrests.waiting, hrests.preempted⟩
          · exact .of_same (congrArg Request.status (Objs.req_modify_ne hx))
        · rw [hqid, hashes, hself]

omit [KVCacheManager K] in
/-- Freeing the encoder inputs that are behind only gives references up. -/
theorem freeEncoderInputs_givesUp (cfg : Config) (s : Scheduler K E) (r : ReqId) :
    GivesUp s.enc (s.freeEncoderInputs cfg r).enc := by
  have hfold : ∀ (l : List ℕ) (enc : E), GivesUp s.enc enc →
      GivesUp s.enc (l.foldl (freeEncoderInputOne cfg (s.req r)) enc) := by
    intro l
    induction l with
    | nil => exact fun enc h => h
    | cons i l ih =>
      refine fun enc h => ih _ ?_
      unfold freeEncoderInputOne
      split
      · exact h
      · split
        · exact .freeEncoderInput _ i h
        · exact h
  exact hfold _ _ .refl

/-- A live request is answered. -/
theorem answerRequest_retains {out : SchedulerOutput} {mro : ModelRunnerOutput}
    {before : RequestStatus} {stopped : Bool} (hk : r ∈ s.objs.keys)
    (hid : (s.req r).requestId = r)
    (h : answerRequest cfg out mro r s = .ok (before, stopped, s')) :
    Retains cfg.blockHasher new s s' := by
  obtain ⟨⟨kept, stopped₁, t⟩, happly, h⟩ := bind_eq_ok.mp h
  set s₁ := s.modifyReq r (rejectDraftTokens
    ((out.scheduledSpecDecodeTokens.get? r).getD []) (mro.sampledTokenIds r)) with hs₁
  have hreject : ∀ q : Request, ∃ n p, rejectDraftTokens
      ((out.scheduledSpecDecodeTokens.get? r).getD []) (mro.sampledTokenIds r) q =
        { q with numComputedTokens := n, numOutputPlaceholders := p } ∧
      (q.numComputedTokens = 0 → n = 0) := by
    intro q
    unfold rejectDraftTokens
    split
    · exact ⟨_, _, rfl, id⟩
    · exact ⟨_, _, rfl, fun hq => by simp [hq]⟩
  have h₁ : Retains cfg.blockHasher new s s₁ := by
    obtain ⟨n, p, hq, hzero⟩ := hreject (s.req r)
    refine .modify (f := rejectDraftTokens _ _) ?_ ?_ ?_ rfl rfl rfl
    · rw [hq]
      exact .of_same rfl rfl hzero
    · rw [hq]
      exact .of_same rfl
    · rw [hq]
      exact .same rfl fun hplain => hplain
  have hk₁ : r ∈ s₁.objs.keys := h₁.keys hk
  have hid₁ : (s₁.req r).requestId = r := by
    obtain ⟨n, p, hq, -⟩ := hreject (s.req r)
    rw [hs₁, req_modifyReq_self hk, hq]
    exact hid
  have happlied : ∀ {u}, Retains cfg.blockHasher new s u → r ∈ u.objs.keys →
      (u.req r).requestId = r →
      applyOutput cfg mro u r (mro.sampledTokenIds r) = .ok (kept, stopped₁, t) →
      Retains cfg.blockHasher new s t := by
    intro u hu hku hidu happly
    unfold applyOutput at happly
    split at happly
    · exact hu.trans (updateRequestWithOutput_retains hku hidu happly)
    · split at happly
      · cases happly
        exact hu.trans
          (.ended (r := r) (f := fun q => { q with status := .finishedStopped }) rfl rfl id rfl rfl
            rfl)
      · cases happly
        exact hu
  have ht : Retains cfg.blockHasher new s t := by
    split at happly
    · exact happlied (u := s₁.freeEncoderInputs cfg r)
        (h₁.trans (.of_same rfl rfl (freeEncoderInputs_givesUp cfg s₁ r))) hk₁ hid₁ happly
    · exact happlied h₁ hk₁ hid₁ happly
  have hgrammar : Retains cfg.blockHasher new s (t.applyGrammar mro r kept stopped₁).2 := by
    unfold applyGrammar
    split
    · exact ht.trans (.ended (r := r)
        (f := fun q => { q with status := .finishedError, resumable := false }) rfl rfl
        (fun _ => rfl) rfl rfl rfl)
    · exact ht
  cases h
  split
  · exact hgrammar.trans
      (.modify_fields (fun _ => rfl) (fun _ => rfl) (fun _ => rfl) (fun _ => rfl) fun _ h => h)
  · exact hgrammar

/-- The next chunk of a session retains the requests. -/
theorem updateRequestAsSession_retains {update : StreamingUpdate} (hr : ¬ (s.req r).Plain) :
    Retains cfg.blockHasher new s (s.updateRequestAsSession cfg r update) :=
  .modify (.of_unannounced (by rintro (h | h) <;> cases h)) ⟨fun hplain => absurd hplain hr, fun h => by cases h⟩
    (.session update (.refl _) hr rfl) rfl rfl rfl

/-- Putting a request into a waiting queue retains the requests. -/
theorem enqueue_retains (s : Scheduler K E) (r : ReqId) :
    Retains blockHasher new s (s.enqueueWaitingRequest r) := by
  obtain ⟨waiting, skippedWaiting, hsame⟩ := enqueue_same s r
  rw [hsame]
  exact .of_same rfl rfl .refl

/-- A stopped request retains the requests. -/
theorem handleStoppedRequest_retains {finished : Bool}
    (h : handleStoppedRequest cfg s r = (finished, s')) : Retains cfg.blockHasher new s s' := by
  unfold handleStoppedRequest at h
  split at h
  · cases h
    exact .refl s
  · rename_i hresumable
    have hsession : ¬ (s.req r).Plain := fun hplain => hresumable (by simp [hplain.1])
    split at h
    · cases h
      refine Retains.trans ?_ (enqueue_retains _ r)
      exact .modify (r := r) (f := fun q => { q with status := .waitingForStreamingReq })
        (.of_unannounced (by rintro (h | h) <;> cases h))
        (.of_ne nofun nofun)
        (.same rfl fun hplain => absurd hplain hsession) rfl rfl rfl
    · rename_i update rest hqueue
      have hpopped : Retains cfg.blockHasher new s
          (s.modifyReq r fun q => { q with streamingQueue := some rest }) :=
        .modify_fields (fun _ => rfl) (fun _ => rfl) (fun _ => rfl) (fun _ => rfl) fun _ h => h
      cases update with
      | none =>
        cases h
        exact hpopped
      | some update =>
        cases h
        refine (hpopped.trans (updateRequestAsSession_retains ?_)).trans (enqueue_retains _ r)
        rcases Objs.req_modify_cases s.objs r
          (fun q => { q with streamingQueue := some rest }) r with hsame | ⟨-, hsame⟩
        all_goals
          rw [modifyReq, req, hsame]
          exact hsession

/-- Stopping a request retains the requests that are left. -/
theorem stopRequest_retains {before : RequestStatus} {us us' : UpdateState K E}
    (hc : cfg.connector = false) (h : stopRequest cfg delayFree us r before s = .ok us') :
    Retains cfg.blockHasher new s us'.sch := by
  obtain ⟨t, ht, h⟩ := bind_eq_ok.mp h
  have hretains : Retains cfg.blockHasher new s t := by
    cases hhandled : handleStoppedRequest cfg s r with
    | mk finished s₁ =>
      have h₁ : Retains cfg.blockHasher new s s₁ := handleStoppedRequest_retains hhandled
      rw [hhandled] at ht
      cases finished with
      | true => exact h₁.trans (freeRequest_retains hc ht)
      | false =>
        cases ht
        exact h₁
  split at h <;> cases h <;> exact hretains

/-- Without an answer of a KV connector, the operation is the loop over the requests. -/
theorem updateFromOutput_plain {out : SchedulerOutput} {mro : ModelRunnerOutput}
    (hmro : mro.kvConnectorOutput = none) (h : s.updateFromOutput cfg out mro = .ok s') :
    ∃ us, out.numScheduledTokens.entries.foldlM (processOutput cfg out mro []) { sch := s } =
      .ok us ∧ s' = removeStopped us := by
  unfold updateFromOutput at h
  rw [hmro] at h
  simp only [Option.getD_none, reportedInvalidBlocks, if_true] at h
  obtain ⟨⟨failed, t⟩, ht, h⟩ := bind_eq_ok.mp h
  cases ht
  obtain ⟨us, hfold, h⟩ := bind_eq_ok.mp h
  refine ⟨us, hfold, ?_⟩
  obtain ⟨t, ht, h⟩ := bind_eq_ok.mp h
  unfold failKvLoads at ht
  simp only [true_or, if_true] at ht
  cases ht
  cases h
  rfl

/-- Updating from the output of the model retains the requests that are left. -/
theorem updateFromOutput_retains {out : SchedulerOutput} {mro : ModelRunnerOutput}
    (hc : cfg.connector = false) (hmro : mro.kvConnectorOutput = none)
    (hnamed : Named s) (h : s.updateFromOutput cfg out mro = .ok s') :
    Retains cfg.blockHasher new s s' := by
  obtain ⟨us, hfold, rfl⟩ := updateFromOutput_plain hmro h
  have hloop : Retains cfg.blockHasher new s us.sch ∧ Named us.sch := by
    refine foldlM_invariant (I := fun us => Retains cfg.blockHasher new s us.sch ∧ Named us.sch)
      hfold ⟨.refl s, hnamed⟩ fun e _ u u' hI hround => ⟨?_, processOutput_named hI.2 hround⟩
    obtain ⟨hretains, hu⟩ := hI
    cases processOutput_outcome hround with
    | passed hus =>
      subst hus
      exact hretains
    | answered hmem _ hanswer hus =>
      subst hus
      have hk := hu.requests_known _ hmem
      exact hretains.trans (answerRequest_retains hk (hu.ids _ hk) hanswer)
    | stopped hmem _ hanswer hstop =>
      have hk := hu.requests_known _ hmem
      exact (hretains.trans (answerRequest_retains hk (hu.ids _ hk) hanswer)).trans
        (stopRequest_retains hc hstop)
  exact hloop.1.trans (.of_same rfl rfl .refl)

/-! ### The other operations -/

/-- Adding a request retains the others. -/
theorem addRequest_retains {request : Request} (hc : cfg.connector = false)
    (hnew : request.requestId ∈ s.requests ∨ request.requestId ∉ s.objs.keys)
    (h : s.addRequest cfg delayFree request = .ok s') :
    Retains cfg.blockHasher (· = request.requestId) s s' := by
  unfold addRequest at h
  dsimp only at h
  split at h
  · split at h
    · split at h
      · cases h
      · cases h
        exact .modify_fields (fun _ => rfl) (fun _ => rfl) (fun _ => rfl) (fun _ => rfl) fun _ h => h
    · rename_i hstatus
      split at h
      · cases h
        exact updateRequestAsSession_retains fun hplain => hstatus hplain.2
      · exact finishRequests_retains hc h
  · rename_i hmem
    have hfresh : request.requestId ∉ s.objs.keys := hnew.resolve_left hmem
    cases h
    set q : Request := { request.create cfg.blockHasher with
      streamingQueue := if (request.create cfg.blockHasher).resumable then some [] else none }
      with hq
    have hidle : ¬ q.Announced := by
      dsimp only [q, Request.Announced, Request.create, Request.updateBlockHashes]
      split <;> rintro (h | h) <;> cases h
    have hset : Retains cfg.blockHasher (· = request.requestId) s
        { s with objs := s.objs.set q.requestId q } := by
      have hother : ∀ x, x ≠ q.requestId →
          req { s with objs := s.objs.set q.requestId q } x = s.req x := fun x hx => by
        simp [req, Objs.req, Dict.get?_set_ne _ _ hx.symm]
      refine ⟨fun x => ?_, fun x hx => ?_, fun x hx => ?_, fun x hx => ?_, fun x hx _ hw => ?_,
        fun _ x hx => ?_, fun _ => .refl, .refl⟩
      · by_cases hx : x = q.requestId
        · refine .of_unannounced ?_
          simpa [req, Objs.req, hx, Dict.get?_set_self] using hidle
        · rw [hother x hx]
          exact .refl _
      · rw [Dict.mem_keys_set]
        exact .inr hx
      · exact ((Dict.mem_keys_set _ _ _ _).mp hx).symm
      · rw [hother x]
        · exact .refl _
        · rintro rfl
          exact hfresh hx
      · rwa [hother x] at hw
        rintro rfl
        exact hfresh hx
      · by_cases hxq : x = q.requestId
        · refine absurd (.inr hx) (?_ : ¬ Request.Announced _)
          simpa [req, Objs.req, hxq, Dict.get?_set_self] using hidle
        · exact .inl (hother x hxq ▸ hx)
    exact (hset.trans (enqueue_retains _ q.requestId)).trans (.of_same rfl rfl .refl)

/-- A request that is not live enters as a new object. -/
theorem addRequest_entered {request : Request} (hmem : request.requestId ∉ s.requests)
    (h : s.addRequest cfg delayFree request = .ok s') :
    (s'.req request.requestId).content = (request.create cfg.blockHasher).content ∧
      (request.resumable = false → (s'.req request.requestId).Plain) := by
  unfold addRequest at h
  dsimp only at h
  split at h
  · rename_i hin
    exact absurd hin hmem
  cases h
  set q : Request := { request.create cfg.blockHasher with
    streamingQueue := if (request.create cfg.blockHasher).resumable then some [] else none }
    with hq
  have hself : ({ s with objs := s.objs.set q.requestId q }.enqueueWaitingRequest q.requestId).req
      request.requestId = q := by
    obtain ⟨waiting, skippedWaiting, hsame⟩ :=
      enqueue_same { s with objs := s.objs.set q.requestId q } q.requestId
    rw [hsame]
    change Objs.req (s.objs.set q.requestId q) q.requestId = q
    simp [Objs.req]
  refine ⟨(congrArg Request.content hself).trans rfl, fun hresumable => ?_⟩
  refine (congrArg Request.Plain hself).mpr ⟨hresumable, ?_⟩
  dsimp only [q, Request.create, Request.updateBlockHashes]
  split <;> rintro ⟨⟩

/-- Resetting the prefix cache retains the requests. -/
theorem resetPrefixCache_retains {reset ok : Bool}
    (h : s.resetPrefixCache reset = .ok (ok, s')) : Retains blockHasher new s s' := by
  have hreset : ∀ t : Scheduler K E,
      Retains blockHasher new t { t with kv := (KVCacheManager.resetPrefixCache t.kv).2 } := fun t =>
    ⟨fun _ => .refl _, List.Subset.refl _, fun _ hr => .inl hr, fun _ _ => .refl _,
      fun _ _ _ hr => hr, fun _ _ hr => .inl hr, fun _ => .resetPrefixCache .refl, .refl⟩
  have hone : ∀ {t t' : Scheduler K E} {r}, t.resetRunningOne r = .ok t' →
      Retains blockHasher new t t' := by
    intro t t' r hone
    obtain ⟨t₁, hpreempt, hone⟩ := bind_eq_ok.mp hone
    obtain ⟨hstatus, rfl⟩ := preemptRequest_eq_ok hpreempt
    cases hone
    have hk : r ∈ t.objs.keys := by
      by_contra hno
      rw [req, Objs.req_of_notMem hno] at hstatus
      cases hstatus
    refine (Retains.vacated hk hstatus ?_ rfl rfl (.free _ .refl)).trans
      (.modify_fields (fun _ => rfl) (fun _ => rfl) (fun _ => rfl) (fun _ => rfl) fun _ h => h)
    exact ⟨rfl, rfl, rfl, rfl, id⟩
  unfold resetPrefixCache at h
  split at h
  · obtain ⟨t, ht, h⟩ := bind_eq_ok.mp h
    obtain ⟨t₁, hall, ht⟩ := bind_eq_ok.mp ht
    cases ht
    have ht₁ : Retains blockHasher new s t₁ :=
      foldlM_invariant (I := Retains blockHasher new s) hall (.of_same rfl rfl .refl)
        fun _ _ _ _ hI hstep => hI.trans (hone hstep)
    dsimp only at h
    split at h
    · cases h
      exact (ht₁.trans (hreset t₁)).trans (.of_same rfl rfl .refl)
    · cases h
  · cases h
    exact hreset s

/-- Drafts retain the requests. -/
theorem updateDraftTokenIds_retains {validateTokens : ReqId → List Token → List Token}
    {drafts : List (ReqId × List Token)} :
    Retains blockHasher new s (s.updateDraftTokenIds validateTokens drafts) := by
  obtain ⟨⟨objs, hsame⟩, hkeys, hreq⟩ := updateDraftTokenIds_same validateTokens s drafts
  refine ⟨fun r => ?_, by rw [hkeys]; exact List.Subset.refl _, fun r hr => .inl (hkeys ▸ hr),
    fun r _ => ?_, fun r _ _ => ?_, fun _ r hr => .inl ?_, fun _ => by rw [hsame]; exact .refl,
    by rw [hsame]; exact .refl⟩
  all_goals obtain ⟨spec, h⟩ := hreq r
  · rw [h]
    exact .of_same rfl rfl id
  · rw [h]
    exact .same rfl fun hplain => hplain
  · rw [h]
    exact id
  · rwa [h] at hr

end Scheduler

namespace System

open Scheduler

variable {K E : Type} [KVCacheManager K] [EncoderCache E] {cfg : Config} {sys sys' : System K E}

/-- No KV connector answers. -/
def Unconnected : Op → Prop
  | .updateFromOutput _ mro => mro.kvConnectorOutput = none
  | _ => True

/-- The requests that an operation may make known. -/
def Arrives : Op → ReqId → Prop
  | .addRequest request _, r => r = request.requestId
  | _, _ => False

/-- Every operation but a step retains what runs. -/
theorem step_retains {op : Op} (hc : cfg.connector = false) (hnamed : Named sys.sch)
    (hadm : sys.Admissible op) (hop : op.isSchedule = false) (hun : Unconnected op)
    (h : sys.step cfg op = .ok sys') :
    Retains cfg.blockHasher (Arrives op) sys.sch sys'.sch := by
  cases op with
  | addRequest request delayFree =>
    obtain ⟨sch, hadd, h⟩ := bind_eq_ok.mp h
    cases h
    exact addRequest_retains hc hadm hadd
  | schedule env => cases hop
  | updateFromOutput i mro =>
    unfold step at h
    dsimp only at h
    split at h
    · cases h
    · obtain ⟨sch, hupdate, h⟩ := bind_eq_ok.mp h
      cases h
      exact updateFromOutput_retains hc hun hnamed hupdate
  | finishRequests ids status delayFree =>
    obtain ⟨sch, hfinish, h⟩ := bind_eq_ok.mp h
    cases h
    exact finishRequests_retains hc hfinish
  | setPauseState pauseState =>
    cases h
    exact .of_same rfl rfl .refl
  | resetPrefixCache reset =>
    obtain ⟨⟨ok, sch⟩, hreset, h⟩ := bind_eq_ok.mp h
    cases h
    exact resetPrefixCache_retains hreset
  | updateDraftTokenIds validateTokens drafts =>
    cases h
    exact updateDraftTokenIds_retains

/-- The request that an operation makes known. -/
theorem step_entered {request : Request} {delayFree : ReqId → Bool} (hnamed : Named sys.sch)
    (hfresh : request.requestId ∉ sys.sch.objs.keys)
    (h : sys.step cfg (.addRequest request delayFree) = .ok sys') :
    (sys'.sch.req request.requestId).content = (request.create cfg.blockHasher).content ∧
      (request.resumable = false → (sys'.sch.req request.requestId).Plain) := by
  obtain ⟨sch, hadd, h⟩ := bind_eq_ok.mp h
  cases h
  exact addRequest_entered (fun hmem => hfresh (hnamed.requests_known _ hmem)) hadd

/-- Every operation but a step reports the requests that it ends. -/
theorem step_reports {op : Op} (h : Coherent sys.sch) (hadm : sys.Admissible op)
    (hop : op.isSchedule = false) (hstep : sys.step cfg op = .ok sys') :
    Reports cfg op.delayFree sys.sch sys'.sch := by
  have hknown := h.requests_known
  cases op with
  | addRequest request delayFree =>
    obtain ⟨sch, hadd, hs⟩ := bind_eq_ok.mp hstep
    cases hs
    exact addRequest_reports hknown hadm hadd
  | schedule env => cases hop
  | updateFromOutput i mro =>
    unfold step at hstep
    dsimp only at hstep
    split at hstep
    · cases hstep
    · obtain ⟨sch, hupdate, hs⟩ := bind_eq_ok.mp hstep
      cases hs
      exact updateFromOutput_reports h hupdate
  | finishRequests ids status delayFree =>
    obtain ⟨sch, hfinish, hs⟩ := bind_eq_ok.mp hstep
    cases hs
    exact finishRequests_reports hknown hfinish
  | setPauseState pauseState =>
    cases hstep
    exact .of_same (List.Sublist.refl _) rfl fun _ => rfl
  | resetPrefixCache reset =>
    obtain ⟨⟨ok, sch⟩, hreset, hs⟩ := bind_eq_ok.mp hstep
    cases hs
    exact resetPrefixCache_reports (fun r hr => h.queued_known r (List.mem_append_left _ hr)) hreset
  | updateDraftTokenIds validateTokens drafts =>
    cases hstep
    exact updateDraftTokenIds_reports

end System

end RpsServe
