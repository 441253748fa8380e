import RpsServe.Scheduler.EncoderWalk
import RpsServe.Scheduler.Conservation

/-!
# The calls of the encoder cache

All calls that the scheduler issues to the encoder cache of a decoder-only model, through the
rounds of a step with their preemptions and through all operations. What each call keeps for
the items of the requests holds in every run. An item is allocated only after a lookup in the
same round missed it, and what is preempted in between gives references up but caches nothing.
-/

namespace RpsServe

open EncoderCacheManager

variable {F : MmFeature → Prop} {I : EncoderCacheManager → Prop} {q q' : Request}
  {cfg : Config} {env : StepEnv}

/-! ### Items of a kind -/

/-- The items of the request, and of the chunks that wait for it, are of the kind `F`. -/
structure Request.ItemsMeet (F : MmFeature → Prop) (q : Request) : Prop where
  items : ∀ f ∈ q.mmFeatures, F f
  queued : ∀ u, some u ∈ q.streamingQueue.getD [] → ∀ f ∈ u.mmFeatures, F f

namespace Request.ItemsMeet

/-- The items of a request that does not exist have every property. -/
theorem default (F : MmFeature → Prop) : (default : Request).ItemsMeet F :=
  ⟨fun _ hf => absurd hf List.not_mem_nil, fun _ hu => absurd hu List.not_mem_nil⟩

/-- Changing neither the items nor the chunks. -/
theorem of_same (h : q.ItemsMeet F) (hitems : q'.mmFeatures = q.mmFeatures)
    (hqueue : q'.streamingQueue = q.streamingQueue) : q'.ItemsMeet F :=
  ⟨hitems ▸ h.items, hqueue ▸ h.queued⟩

/-- The items of the next chunk follow, moved behind the computed tokens. -/
theorem updateAsSession (hF : ∀ f n, F f → F { f with offset := n }) (h : q.ItemsMeet F)
    {update : StreamingUpdate} (hu : ∀ f ∈ update.mmFeatures, F f)
    (blockHasher : Request → List BlockHash) : (q.updateAsSession blockHasher update).ItemsMeet F where
  items f hf := by
    rcases List.mem_append.mp hf with hf | hf
    · exact h.items f hf
    · obtain ⟨f', hf', rfl⟩ := List.mem_map.mp hf
      exact hF f' _ (hu f' hf')
  queued := h.queued

end Request.ItemsMeet

/-- A walk over items issues lookups and makes room. -/
theorem EncoderCacheManager.CallRule.lookups (hrule : CallRule F I) (hq : q.ItemsMeet F)
    (lookups : List (ℕ × EncoderCacheManager)) : LookupRule q lookups I where
  lookup _ _ _ _ _ _ hm hcheck := hrule.lookup hq.items hm hcheck
  room _ _ _ _ _ _ hm hcan := hrule.canAllocate hq.items hm hcan

/-- Allocating the inputs of a candidate calls the encoder cache by the rule. -/
theorem allocateEncoderInputs_calls (hrule : CallRule F I) (hq : q.ItemsMeet F) {inputs : List ℕ}
    {m m' : EncoderCacheManager} (hm : I m) (hlacks : m.Lacks q inputs)
    (h : allocateEncoderInputs q inputs m = .ok m') : I m' := by
  induction inputs generalizing m with
  | nil =>
    cases h
    exact hm
  | cons i rest ih =>
    obtain ⟨m₁, hone, h⟩ := bind_eq_ok.mp h
    have hnew := hlacks.missing i List.mem_cons_self
    have hm₁ := hrule.allocate hq.items (hlacks.own i List.mem_cons_self) hm hnew hone
    obtain ⟨-, heq⟩ := allocate_eq_ok hnew hone
    exact ih hm₁ (hlacks.tail (by rw [heq])) h

/-! ### The state of the cache and of the requests -/

namespace Scheduler

variable {K : Type} {s s' : Scheduler K EncoderCacheManager} {r : ReqId}

/-- All requests have items of the kind `F`, and the cache is as the calls for them leave it. -/
structure Serves (F : MmFeature → Prop) (I : EncoderCacheManager → Prop)
    (s : Scheduler K EncoderCacheManager) : Prop where
  requests : ∀ r, (s.req r).ItemsMeet F
  cache : I s.enc

namespace Serves

/-- What holds of the cache alone. -/
theorem of_cache (h : I s.enc) : Serves (fun _ => True) I s :=
  ⟨fun _ => ⟨fun _ _ => trivial, fun _ _ _ _ => trivial⟩, h⟩

/-- Keeping the items of every request, and the cache. -/
theorem of_req (h : Serves F I s) (hreq : ∀ r, (s.req r).ItemsMeet F → (s'.req r).ItemsMeet F)
    (hcache : s'.enc = s.enc) : Serves F I s' :=
  ⟨fun r => hreq r (h.requests r), hcache ▸ h.cache⟩

/-- Changing a request by what keeps its items keeps the calls by the rule. -/
theorem modify {f : Request → Request} (h : Serves F I s)
    (hf : ∀ q, q.ItemsMeet F → (f q).ItemsMeet F) : Serves F I (s.modifyReq r f) := by
  refine h.of_req (fun x hx => ?_) rfl
  rcases Objs.req_modify_cases s.objs r f x with hsame | ⟨-, hsame⟩
  · rw [req, modifyReq, hsame]
    exact hx
  · rw [req, modifyReq, hsame]
    exact hf _ hx

/-- A request gives its references up. -/
theorem free (hrule : FreeRule F I) (h : Serves F I s) (r : ReqId) :
    Serves F I { s with enc := EncoderCache.free s.enc (s.req r) } :=
  ⟨h.requests, hrule.free (h.requests r).items h.cache⟩

end Serves

end Scheduler

namespace LoopState

variable {K : Type} [KVCacheManager K] {args : AllocateSlotsArgs} {r v : ReqId}
  {ls ls' t : LoopState K EncoderCacheManager} {g : Grant} {enc : EncoderCacheManager}

/-! ### Preemptions -/

/-- Preempting a victim calls the encoder cache by the rule. -/
theorem preemptVictim_serves (hrule : CallRule F I) (hs : Scheduler.Serves F I ls.sch)
    (h : ls.preemptVictim v = .ok ls') : Scheduler.Serves F I ls'.sch := by
  obtain ⟨ls₁, qm', -, -, -, rfl⟩ := preemptVictim_eq_ok h
  have hfreed := (hs.free hrule.toFreeRule v).modify (r := v) (f := Scheduler.preempted) fun _ hq =>
    hq.of_same rfl rfl
  exact ⟨hfreed.requests, hfreed.cache⟩

/-- What an allocation loop leaves of the cache: the items of the requests are the same, and nothing
new is cached. -/
structure FreesOnly (ls ls' : LoopState K EncoderCacheManager) : Prop where
  features : ∀ x, (ls'.req x).mmFeatures = (ls.req x).mmFeatures
  keys : ls'.sch.enc.cached.keys ⊆ ls.sch.enc.cached.keys

/-- Preempting a victim only frees references. -/
theorem preemptVictim_freesOnly (h : ls.preemptVictim v = .ok ls') : FreesOnly ls ls' := by
  obtain ⟨ls₁, qm', -, -, -, rfl⟩ := preemptVictim_eq_ok h
  refine ⟨fun x => ?_, free_keys _ _⟩
  exact Scheduler.modifyReq_keeps ls.sch v Scheduler.preempted Request.mmFeatures (fun _ => rfl) x

/-- The allocation loop calls the encoder cache by the rule and only frees references. -/
theorem allocLoop_serves (hrule : CallRule F I) {res : Option KVCacheBlocks}
    (hs : Scheduler.Serves F I ls.sch) (h : ls.allocLoop r args = .ok (res, ls')) :
    Scheduler.Serves F I ls'.sch ∧ FreesOnly ls ls' := by
  have hvictim : ∀ {t t' : LoopState K EncoderCacheManager} {kv v},
      Scheduler.Serves F I t.sch ∧ FreesOnly ls t → (t.setKv kv).preemptVictim v = .ok t' →
      Scheduler.Serves F I t'.sch ∧ FreesOnly ls t' := by
    rintro t t' kv v ⟨ht, hframe⟩ hvictim
    have hone := preemptVictim_freesOnly hvictim
    have hserves : Scheduler.Serves F I (t.setKv kv).sch := ⟨ht.requests, ht.cache⟩
    refine ⟨preemptVictim_serves hrule hserves hvictim, ?_, ?_⟩
    · exact fun x => (hone.features x).trans (hframe.features x)
    · exact List.Subset.trans hone.keys hframe.keys
  obtain ⟨t, ht, hexit⟩ := allocLoop_outcome h
  have hvisited : Scheduler.Serves F I t.sch ∧ FreesOnly ls t :=
    alloc_invariant (I := fun t => Scheduler.Serves F I t.sch ∧ FreesOnly ls t) ht
      ⟨hs, fun _ => rfl, List.Subset.refl _⟩ fun _ _ _ _ _ _ hI _ _ hstep => hvictim hI hstep
  cases hexit with
  | found | noneRunning | kept =>
    exact ⟨⟨hvisited.1.requests, hvisited.1.cache⟩, hvisited.2.features, hvisited.2.keys⟩
  | itself _ hself => exact hvictim hvisited hself

/-! ### The branches of a round -/

/-- A grant whose items can be allocated from the cache it comes with. -/
def Grant.Allocatable (g : Grant) (q : Request) (enc : EncoderCacheManager) : Prop :=
  enc.Lacks q (g.encoderInputsToSchedule ++ g.externalLoadEncoderInput)

omit [KVCacheManager K] in
/-- A grant to a running request calls the encoder cache by the rule. -/
theorem runningGrant_serves (hrule : CallRule F I) (hdec : cfg.isEncoderDecoder = false)
    (hs : Scheduler.Serves F I ls.sch) (h : ls.runningGrant cfg env r = .ok (enc, g)) :
    I enc ∧ Grant.Allocatable g (ls.req r) enc := by
  obtain ⟨p, hp, h⟩ := bind_eq_ok.mp h
  obtain ⟨n, -, h⟩ := bind_eq_ok.mp h
  cases h
  exact ⟨tryScheduleEncoderInputs_rule hp hs.cache (hrule.lookups (hs.requests r) _),
    (tryScheduleEncoderInputs_chosen hdec hp).lacks⟩

omit [KVCacheManager K] in
/-- Aligning a grant keeps its inputs allocatable. -/
theorem alignGrant_allocatable {c : CachedPrefix} {enc₀ : EncoderCacheManager} {g₀ : Grant}
    (hlacks : Grant.Allocatable g₀ q enc₀) (h : alignGrant cfg q c enc₀ g₀ = .ok (.granted enc g)) :
    Grant.Allocatable g q enc := by
  obtain ⟨n, -, h⟩ := bind_eq_ok.mp h
  split at h
  · cases h
  · cases h
    exact hlacks

omit [KVCacheManager K] in
/-- A grant to a waiting request calls the encoder cache by the rule. -/
theorem waitingGrant_serves {c : CachedPrefix} (hdec : cfg.isEncoderDecoder = false)
    (h : ls.waitingGrant cfg env r c = .ok (.granted enc g)) :
    Grant.Allocatable g (ls.req r) enc := by
  unfold waitingGrant at h
  dsimp only at h
  split at h
  · split at h
    · refine alignGrant_allocatable ?_ h
      exact Lacks.nil _ _
    · cases h
  split at h
  · cases h
  split at h
  · cases h
  split at h
  · cases h
  obtain ⟨p, hp, h⟩ := bind_eq_ok.mp h
  split at h
  · cases h
  · refine alignGrant_allocatable ?_ h
    exact (tryScheduleEncoderInputs_chosen hdec hp).lacks

omit [KVCacheManager K] in
/-- Writing to a request and allocating the items that it lacked before its blocks were found. -/
theorem commit_serves (hrule : CallRule F I) {f : Request → Request}
    (hs : Scheduler.Serves F I ls'.sch) (hframe : FreesOnly (ls.setEnc enc) ls')
    (hlacks : Grant.Allocatable g (ls.req r) enc) {enc' : EncoderCacheManager}
    (h : allocateEncoderInputs ((ls'.modifyReq r f).req r)
      (g.encoderInputsToSchedule ++ g.externalLoadEncoderInput) ls'.sch.enc = .ok enc')
    (hitems : ∀ q, (f q).mmFeatures = q.mmFeatures)
    (hqueue : ∀ q, (f q).streamingQueue = q.streamingQueue) :
    Scheduler.Serves F I { ls'.sch with objs := ls'.sch.objs.modify r f, enc := enc' } := by
  have hmodified : Scheduler.Serves F I (ls'.sch.modifyReq r f) :=
    hs.modify fun q hq => hq.of_same (hitems q) (hqueue q)
  have hsame : ((ls'.modifyReq r f).req r).mmFeatures = (ls.req r).mmFeatures :=
    (Scheduler.modifyReq_keeps ls'.sch r f Request.mmFeatures hitems r).trans (hframe.features r)
  refine ⟨hmodified.requests, ?_⟩
  exact allocateEncoderInputs_calls hrule (hmodified.requests r) hs.cache
    ((hlacks.mono hframe.keys).congr hsame) h

/-- A running candidate calls the encoder cache by the rule. -/
theorem runningCandidate_serves (hrule : CallRule F I) (hdec : cfg.isEncoderDecoder = false)
    (hs : Scheduler.Serves F I ls.sch) {f : Flow (LoopState K EncoderCacheManager)}
    (h : ls.runningCandidate cfg env r = .ok f) : Scheduler.Serves F I f.toPass.state.sch := by
  have hwalked : ∀ {enc g}, ls.runningGrant cfg env r = .ok (enc, g) →
      Scheduler.Serves F I (ls.setEnc enc).sch := fun hg =>
    ⟨hs.requests, (runningGrant_serves hrule hdec hs hg).1⟩
  cases runningCandidate_outcome h with
  | noTokens hg => exact hwalked hg
  | noBlocks hg _ halloc => exact (allocLoop_serves hrule (hwalked hg) halloc).1
  | scheduled hg _ halloc hsched =>
    obtain ⟨hs₁, hframe⟩ := allocLoop_serves hrule (hwalked hg) halloc
    obtain ⟨enc', spec, henc, rfl⟩ := scheduleRunning_eq_ok hsched
    exact commit_serves hrule hs₁ hframe (runningGrant_serves hrule hdec hs hg).2 henc (fun _ => rfl)
      fun _ => rfl

/-- A waiting candidate calls the encoder cache by the rule. -/
theorem waitingCandidate_serves (hrule : CallRule F I) (hdec : cfg.isEncoderDecoder = false)
    (hs : Scheduler.Serves F I ls.sch) {f : Flow (LoopState K EncoderCacheManager)}
    (h : ls.waitingCandidate cfg env r = .ok f) : Scheduler.Serves F I f.toPass.state.sch := by
  have hlookups := fun c => hrule.lookups (hs.requests r) (ls.waitingLookups cfg env r c)
  have hwalked : ∀ {c enc g}, ls.waitingGrant cfg env r c = .ok (.granted enc g) →
      Scheduler.Serves F I (ls.setEnc enc).sch := fun hg =>
    ⟨hs.requests, (waitingGrant_rule hg hs.cache (hlookups _)).2 _ _ rfl⟩
  have hignored : ∀ {f}, ls.ignore r = .ok f → Scheduler.Serves F I f.toPass.state.sch := by
    intro f hignore
    obtain ⟨qm', -, rfl⟩ := ignore_eq_ok hignore
    have hmodified := hs.modify (r := r) (f := fun q => { q with status := .finishedIgnored })
      fun _ hq => hq.of_same rfl rfl
    exact ⟨hmodified.requests, hmodified.cache⟩
  cases waitingCandidate_outcome h with
  | ignoredPrompt _ hignore | ignoredEncoderInputs _ _ hignore => exact hignored hignore
  | skipped _ hskip =>
    obtain ⟨qm', -, rfl⟩ := skip_eq_ok hskip
    exact ⟨hs.requests, hs.cache⟩
  | blocked _ hg => exact ⟨hs.requests, (waitingGrant_rule hg hs.cache (hlookups _)).1 _ rfl⟩
  | noBlocks _ hg halloc =>
    obtain ⟨hs₁, -⟩ := allocLoop_serves hrule (hwalked hg) halloc
    dsimp only [Flow.toPass, Pass.state]
    split
    exacts [hs₁.free hrule.toFreeRule r, hs₁]
  | @loading c _ _ _ ls₁ _ _ hg halloc _ hskip =>
    obtain ⟨hs₁, -⟩ := allocLoop_serves hrule (hwalked hg) halloc
    obtain ⟨qm', -, rfl⟩ := skip_eq_ok hskip
    have hmodified := hs₁.modify (r := r) (f := fun q => { q with
      status := .waitingForRemoteKvs
      numComputedTokens := c.numComputedTokens }) fun _ hq => hq.of_same rfl rfl
    exact ⟨hmodified.requests, hmodified.cache⟩
  | admitted _ hg halloc _ hadmitted =>
    obtain ⟨hs₁, hframe⟩ := allocLoop_serves hrule (hwalked hg) halloc
    obtain ⟨newReqs, resumedReqs, qm', enc', -, -, henc, rfl⟩ := admitWaiting_eq_ok hadmitted
    have hcommitted := commit_serves hrule hs₁ hframe (waitingGrant_serves hdec hg) henc
      (fun _ => rfl) fun _ => rfl
    exact ⟨hcommitted.requests, hcommitted.cache⟩

/-- A round issues its calls by the rule. -/
theorem round_serves (hrule : CallRule F I) (hdec : cfg.isEncoderDecoder = false)
    (hs : Scheduler.Serves F I ls.sch)
    {p : Pass (LoopState K EncoderCacheManager) (LoopState K EncoderCacheManager)}
    (h : ls.round cfg env = .ok p) : Scheduler.Serves F I p.state.sch := by
  rcases round_cases h with rfl | rfl | ⟨r, f, -, hf, rfl⟩
  · exact hs
  · exact hs
  have hreached : ∀ {ls₁}, ls.ReachesWaiting cfg env r ls₁ → Scheduler.Serves F I ls₁.sch := by
    intro ls₁ hreach
    unfold ReachesWaiting at hreach
    split at hreach
    · exact runningCandidate_serves hrule hdec hs hreach
    · cases hreach
      exact hs
  rcases candidate_cases hf with ⟨-, hrunning⟩ | ⟨ls₁, hreach, ⟨-, hwaiting⟩ | ⟨-, rfl⟩⟩
  · exact runningCandidate_serves hrule hdec hs hrunning
  · exact waitingCandidate_serves hrule hdec (hreached hreach) hwaiting
  · exact hreached hreach

/-- A tail preemption calls the encoder cache by the rule. -/
theorem tailPreemptOne_serves (hrule : CallRule F I) (hs : Scheduler.Serves F I ls.sch)
    (h : ls.tailPreemptOne r = .ok ls') : Scheduler.Serves F I ls'.sch := by
  rcases tailPreemptOne_cases h with ⟨-, rfl⟩ | ⟨-, qm', -, rfl⟩
  · exact hs
  · have hfreed := (hs.free hrule.toFreeRule r).modify (r := r)
      (f := fun q => { q with status := .preempted, numComputedTokens := 0 }) fun _ hq =>
        hq.of_same rfl rfl
    exact ⟨hfreed.requests, hfreed.cache⟩

end LoopState

namespace Scheduler

variable {K : Type} [KVCacheManager K] {s s' : Scheduler K EncoderCacheManager} {r : ReqId}

/-! ### A step -/

/-- The beginning of a step calls the encoder cache by the rule. -/
theorem beginStep_serves {ls : LoopState K EncoderCacheManager} (hs : Serves F I s)
    (h : beginStep cfg env s = .ok ls) : Serves F I ls.sch := by
  obtain ⟨objs, requests, hsame, -, -, rfl⟩ := beginStep_eq_ok h
  refine hs.of_req (fun x hx => ?_) rfl
  obtain ⟨p, hp⟩ := hsame.req x
  rw [req, hp]
  exact hx.of_same rfl rfl

/-- In every round of a step. -/
theorem Rounds.serves (hrule : CallRule F I) (hdec : cfg.isEncoderDecoder = false)
    {ls : LoopState K EncoderCacheManager} (hs : Serves F I s) (h : Rounds cfg env s ls) :
    Serves F I ls.sch := by
  obtain ⟨ls₀, hbegin, hvisits⟩ := h
  exact hvisits.invariant (I := fun ls => Serves F I ls.sch) (beginStep_serves hs hbegin)
    fun t t' _ hI hround => LoopState.round_serves hrule hdec hI hround

/-- A step calls the encoder cache by the rule. -/
theorem schedule_serves (hrule : CallRule F I) (hdec : cfg.isEncoderDecoder = false)
    {out : SchedulerOutput} (hs : Serves F I s) (h : schedule cfg env s = .ok (out, s')) :
    Serves F I s' := by
  obtain ⟨ls, hwalked, hfinish⟩ := schedule_eq_ok h
  have hls : Serves F I ls.sch :=
    hwalked.rule (I := fun ls => Serves F I ls.sch) (fun _ hbegin => beginStep_serves hs hbegin)
      (fun _ _ _ hI hround => LoopState.round_serves hrule hdec hI hround)
      fun _ _ _ hI htail => LoopState.tailPreemptOne_serves hrule hI htail
  have hfin := finishStep_spec hfinish
  refine ⟨fun r => ?_, ?_⟩
  · by_cases hr : r ∈ ls.numScheduledTokens.keys
    · obtain ⟨⟨r', n⟩, hn, rfl⟩ := List.mem_map.mp hr
      by_cases hk : r' ∈ ls.sch.objs.keys
      · rw [(hfin.scheduled r' n hn).2 hk]
        obtain ⟨_, _, _, hadv⟩ := advanceRequest_eq cfg n
          ((ls.scheduledSpecDecodeTokens.get? r').getD []).length (ls.req r')
        rw [hadv]
        exact (hls.requests r').of_same rfl rfl
      · rw [req, Objs.req_of_notMem (hfin.keys ▸ hk)]
        exact .default F
    · rw [hfin.unscheduled r hr]
      exact hls.requests r
  · rw [hfin.enc]
    exact hrule.getFreedMmHashes hls.cache

/-! ### Sessions and answers -/

omit [KVCacheManager K] in
/-- Putting a request into a waiting queue leaves the encoder cache. -/
theorem enqueue_serves (hs : Serves F I s) (r : ReqId) : Serves F I (s.enqueueWaitingRequest r) := by
  obtain ⟨waiting, skippedWaiting, hsame⟩ := enqueue_same s r
  rw [hsame]
  exact ⟨hs.requests, hs.cache⟩

omit [KVCacheManager K] in
/-- The next chunk of a session leaves the encoder cache. -/
theorem updateRequestAsSession_serves (hF : ∀ f n, F f → F { f with offset := n })
    {update : StreamingUpdate} (hs : Serves F I s) (hu : ∀ f ∈ update.mmFeatures, F f) :
    Serves F I (s.updateRequestAsSession cfg r update) :=
  Serves.modify (f := Request.updateAsSession cfg.blockHasher update) ⟨hs.requests, hs.cache⟩
    fun _ hq => hq.updateAsSession hF hu cfg.blockHasher

omit [KVCacheManager K] in
/-- A stopped request leaves the encoder cache. -/
theorem handleStoppedRequest_serves (hF : ∀ f n, F f → F { f with offset := n }) {finished : Bool}
    (hs : Serves F I s) (h : handleStoppedRequest cfg s r = (finished, s')) : Serves F I s' := by
  unfold handleStoppedRequest at h
  split at h
  · cases h
    exact hs
  · split at h
    · cases h
      have hwaits := hs.modify (r := r) (f := fun q => { q with status := .waitingForStreamingReq })
        fun _ hq => hq.of_same rfl rfl
      refine enqueue_serves ?_ r
      exact ⟨hwaits.requests, hwaits.cache⟩
    · rename_i update rest hqueue
      have hpopped : Serves F I (s.modifyReq r fun q => { q with streamingQueue := some rest }) := by
        refine hs.of_req (fun x hx => ?_) rfl
        rcases Objs.req_modify_cases s.objs r (fun q => { q with streamingQueue := some rest }) x with
          hsame | ⟨rfl, hsame⟩
        · rw [req, modifyReq, hsame]
          exact hx
        · rw [req, modifyReq, hsame]
          refine ⟨hx.items, fun u hu => hx.queued u ?_⟩
          rw [hqueue]
          exact List.mem_cons_of_mem _ hu
      cases update with
      | none =>
        cases h
        exact hpopped
      | some update =>
        cases h
        refine enqueue_serves (updateRequestAsSession_serves hF hpopped ?_) r
        exact (hs.requests r).queued update (hqueue ▸ List.mem_cons_self)

/-- Freeing a request calls the encoder cache by the rule. -/
theorem freeRequest_serves (hrule : FreeRule F I) {delayFree : ReqId → Bool} {delayed : Bool}
    (hs : Serves F I s) (h : s.freeRequest cfg delayFree r delayed = .ok s') : Serves F I s' := by
  obtain ⟨-, kv, rfl⟩ := freeRequest_eq_ok h
  have hfreed := hs.free hrule r
  exact ⟨hfreed.requests, hfreed.cache⟩

/-- Ending requests calls the encoder cache by the rule. -/
theorem finishRequests_serves (hrule : FreeRule F I) {delayFree : ReqId → Bool}
    {ids : Option (List ReqId)} {status : RequestStatus} (hs : Serves F I s)
    (h : s.finishRequests cfg delayFree ids status = .ok s') : Serves F I s' := by
  unfold finishRequests at h
  split at h
  · cases h
  · refine foldlM_invariant (I := Serves F I) h ⟨hs.requests, hs.cache⟩ fun r _ t t' hI hone => ?_
    refine freeRequest_serves hrule ?_ hone
    exact Serves.modify (f := fun q => { q with status := status }) ⟨hI.requests, hI.cache⟩
      fun _ hq => hq.of_same rfl rfl

/-- Appending tokens leaves the items of a request and its chunks. -/
theorem appendUntilStop_sameItems {tokens kept : List Token} {stopped : Bool}
    (h : appendUntilStop cfg tokens q = .ok (kept, q', stopped)) :
    q'.mmFeatures = q.mmFeatures ∧ q'.streamingQueue = q.streamingQueue := by
  induction tokens generalizing q kept with
  | nil =>
    cases h
    exact ⟨rfl, rfl⟩
  | cons token rest ih =>
    obtain ⟨status, -, h⟩ := bind_eq_ok.mp h
    cases status with
    | some status =>
      cases h
      exact ⟨rfl, rfl⟩
    | none =>
      obtain ⟨⟨kept', q₁, stopped₁⟩, happend, h⟩ := bind_eq_ok.mp h
      cases h
      have hrest := ih happend
      exact hrest

/-- Writing the output of a request leaves the encoder cache. -/
theorem updateRequestWithOutput_serves {tokens kept : List Token} {stopped : Bool}
    (hs : Serves F I s) (h : s.updateRequestWithOutput cfg r tokens = .ok (kept, stopped, s')) :
    Serves F I s' := by
  have hwrite : ∀ (kv : K) {q' : Request}, q'.mmFeatures = (s.req r).mmFeatures ∧
      q'.streamingQueue = (s.req r).streamingQueue →
      Serves F I ({ s with kv := kv }.modifyReq r fun _ => q') := by
    rintro kv q' ⟨hitems, hqueue⟩
    exact Serves.modify ⟨hs.requests, hs.cache⟩ fun _ _ => (hs.requests r).of_same hitems hqueue
  unfold updateRequestWithOutput at h
  dsimp only at h
  split at h
  · cases h
    exact hs.modify fun _ hq => hq.of_same rfl rfl
  · obtain ⟨⟨kept', q', stopped'⟩, happend, h⟩ := bind_eq_ok.mp h
    have hsame := appendUntilStop_sameItems happend
    split at h
    · cases h
      exact hwrite s.kv hsame
    · dsimp only at h
      split at h
      · cases h
      · obtain ⟨kv, -, h⟩ := bind_eq_ok.mp h
        cases h
        exact hwrite kv hsame

omit [KVCacheManager K] in
/-- Freeing the encoder inputs that are behind calls the encoder cache by the rule. -/
theorem freeEncoderInputs_serves (hrule : FreeRule F I) (hs : Serves F I s) (r : ReqId) :
    Serves F I (s.freeEncoderInputs cfg r) := by
  have hone : ∀ (m : EncoderCacheManager) (i : ℕ), I m → I (freeEncoderInputOne cfg (s.req r) m i) := by
    intro m i hm
    unfold freeEncoderInputOne
    split
    · exact hm
    · rename_i f hf
      split
      · exact hrule.freeEncoderInput (hs.requests r).items (lt_length_of_getElem? hf) hm
      · exact hm
  have hfold : ∀ (l : List ℕ) (m : EncoderCacheManager), I m →
      I (l.foldl (freeEncoderInputOne cfg (s.req r)) m) := by
    intro l
    induction l with
    | nil => exact fun _ hm => hm
    | cons i rest ih => exact fun m hm => ih _ (hone m i hm)
  exact ⟨hs.requests, hfold _ _ hs.cache⟩

/-- The answer to a request calls the encoder cache by the rule. -/
theorem answerRequest_serves (hrule : FreeRule F I) {out : SchedulerOutput} {mro : ModelRunnerOutput}
    {before : RequestStatus} {stopped : Bool} (hs : Serves F I s)
    (h : answerRequest cfg out mro r s = .ok (before, stopped, s')) : Serves F I s' := by
  obtain ⟨⟨kept, stopped₁, t⟩, happly, h⟩ := bind_eq_ok.mp h
  set s₁ := s.modifyReq r (rejectDraftTokens
    ((out.scheduledSpecDecodeTokens.get? r).getD []) (mro.sampledTokenIds r)) with hs₁
  have h₁ : Serves F I s₁ := hs.modify fun q hq => by
    unfold rejectDraftTokens
    split
    exacts [hq, hq.of_same rfl rfl]
  have happlied : ∀ {u}, Serves F I u →
      applyOutput cfg mro u r (mro.sampledTokenIds r) = .ok (kept, stopped₁, t) → Serves F I t := by
    intro u hu happly
    unfold applyOutput at happly
    split at happly
    · exact updateRequestWithOutput_serves hu happly
    · split at happly
      · cases happly
        exact hu.modify fun _ hq => hq.of_same rfl rfl
      · cases happly
        exact hu
  have ht : Serves F I t := by
    split at happly
    exacts [happlied (freeEncoderInputs_serves hrule h₁ r) happly, happlied h₁ happly]
  have hgrammar : Serves F I (t.applyGrammar mro r kept stopped₁).2 := by
    unfold applyGrammar
    split
    exacts [ht.modify fun _ hq => hq.of_same rfl rfl, ht]
  cases h
  split
  · exact hgrammar.modify (f := fun q => { q with prefillStats := false }) fun _ hq => hq.of_same rfl rfl
  · exact hgrammar

/-- Stopping a request calls the encoder cache by the rule. -/
theorem stopRequest_serves (hrule : FreeRule F I) (hF : ∀ f n, F f → F { f with offset := n })
    {delayFree : ReqId → Bool} {before : RequestStatus} {us us' : UpdateState K EncoderCacheManager}
    (hs : Serves F I s) (h : stopRequest cfg delayFree us r before s = .ok us') :
    Serves F I us'.sch := by
  obtain ⟨t, ht, h⟩ := bind_eq_ok.mp h
  have hserves : Serves F I t := by
    cases hhandled : handleStoppedRequest cfg s r with
    | mk finished s₁ =>
      have h₁ := handleStoppedRequest_serves hF hs hhandled
      rw [hhandled] at ht
      cases finished with
      | true => exact freeRequest_serves hrule h₁ ht
      | false =>
        cases ht
        exact h₁
  split at h <;> cases h <;> exact hserves

/-- Updating from the output of the model calls the encoder cache by the rule. -/
theorem updateFromOutput_serves (hrule : FreeRule F I) (hF : ∀ f n, F f → F { f with offset := n })
    {out : SchedulerOutput} {mro : ModelRunnerOutput} (hs : Serves F I s)
    (h : s.updateFromOutput cfg out mro = .ok s') : Serves F I s' := by
  obtain ⟨failed, s₁, us, s₂, -, hrec, hfold, hfail, htransfer⟩ := updateFromOutput_eq_ok h
  have h₁ : Serves F I s₁ := by
    obtain ⟨objs, kv, failedRecving, hsame⟩ := hrec.same
    refine hs.of_req (fun x hx => ?_) (by rw [hsame])
    obtain ⟨n, hn⟩ := hrec.req x
    rw [hn]
    exact hx.of_same rfl rfl
  have hloop : Serves F I us.sch := by
    refine foldlM_invariant (I := fun us => Serves F I us.sch) hfold h₁ fun e _ u u' hI hround => ?_
    cases processOutput_outcome hround with
    | passed hus =>
      subst hus
      exact hI
    | answered _ _ hanswer hus =>
      subst hus
      exact answerRequest_serves hrule hI hanswer
    | stopped _ _ hanswer hstop =>
      exact stopRequest_serves hrule hF (answerRequest_serves hrule hI hanswer) hstop
  have hremoved : Serves F I (removeStopped us) := ⟨hloop.requests, hloop.cache⟩
  have h₂ : Serves F I s₂ := by
    unfold failKvLoads at hfail
    split at hfail
    · cases hfail
      exact hremoved
    · split at hfail
      · cases hfail
      · exact finishRequests_serves hrule hremoved hfail
  obtain ⟨requests, finishedRecving, kv, hsame⟩ := htransfer.same
  rw [hsame]
  exact ⟨h₂.requests, h₂.cache⟩

/-! ### The other operations -/

/-- Adding a request calls the encoder cache by the rule. -/
theorem addRequest_serves (hrule : FreeRule F I) (hF : ∀ f n, F f → F { f with offset := n })
    {delayFree : ReqId → Bool} {request : Request} (hs : Serves F I s)
    (hnew : ∀ f ∈ request.mmFeatures, F f) (h : s.addRequest cfg delayFree request = .ok s') :
    Serves F I s' := by
  have hupdate : ∀ u, (request.create cfg.blockHasher).toStreamingUpdate = some u →
      ∀ f ∈ u.mmFeatures, F f := by
    intro u hu
    unfold Request.toStreamingUpdate at hu
    split at hu <;> cases hu
    exact hnew
  unfold addRequest at h
  dsimp only at h
  split at h
  · split at h
    · split at h
      · cases h
      · rename_i queue hqueue
        cases h
        refine hs.of_req (fun x hx => ?_) rfl
        rcases Objs.req_modify_cases s.objs (request.create cfg.blockHasher).requestId (fun q => { q with
          streamingQueue := some (queue ++ [(request.create cfg.blockHasher).toStreamingUpdate]) }) x with
          hsame | ⟨rfl, hsame⟩
        · rw [req, modifyReq, hsame]
          exact hx
        · rw [req, modifyReq, hsame]
          refine ⟨hx.items, fun u hu => ?_⟩
          rcases List.mem_append.mp hu with hu | hu
          · exact hx.queued u (hqueue ▸ hu)
          · exact hupdate u (List.mem_singleton.mp hu).symm
    · split at h
      · rename_i update hsome
        cases h
        exact updateRequestAsSession_serves hF hs (hupdate update hsome)
      · exact finishRequests_serves hrule hs h
  · cases h
    set q : Request := { request.create cfg.blockHasher with
      streamingQueue := if (request.create cfg.blockHasher).resumable then some [] else none }
    have hq : q.ItemsMeet F := by
      refine ⟨hnew, fun u hu => ?_⟩
      dsimp only [q] at hu
      split at hu <;> exact absurd hu List.not_mem_nil
    have hset : Serves F I { s with objs := s.objs.set q.requestId q } := by
      refine hs.of_req (fun x hx => ?_) rfl
      by_cases hxq : q.requestId = x
      · subst hxq
        simpa [req, Objs.req, Dict.get?_set_self] using hq
      · simpa [req, Objs.req, Dict.get?_set_ne _ _ hxq] using hx
    have hentered := enqueue_serves hset q.requestId
    exact ⟨hentered.requests, hentered.cache⟩

/-- Resetting the prefix cache leaves the encoder cache. -/
theorem resetPrefixCache_serves (hrule : FreeRule F I) {reset ok : Bool} (hs : Serves F I s)
    (h : s.resetPrefixCache reset = .ok (ok, s')) : Serves F I s' := by
  have hone : ∀ {t t' : Scheduler K EncoderCacheManager} {r}, Serves F I t →
      t.resetRunningOne r = .ok t' → Serves F I t' := by
    intro t t' r ht hone
    obtain ⟨t₁, hpreempt, hone⟩ := bind_eq_ok.mp hone
    obtain ⟨-, rfl⟩ := preemptRequest_eq_ok hpreempt
    cases hone
    have hfreed := (ht.free hrule r).modify (r := r) (f := preempted) fun _ hq => hq.of_same rfl rfl
    exact Serves.modify ⟨hfreed.requests, hfreed.cache⟩ fun _ hq => hq.of_same rfl rfl
  unfold resetPrefixCache at h
  split at h
  · obtain ⟨t, ht, h⟩ := bind_eq_ok.mp h
    obtain ⟨t₁, hall, ht⟩ := bind_eq_ok.mp ht
    cases ht
    have ht₁ : Serves F I t₁ :=
      foldlM_invariant (I := Serves F I) hall ⟨hs.requests, hs.cache⟩ fun _ _ _ _ hI hstep => hone hI hstep
    dsimp only at h
    split at h
    · cases h
      exact ⟨ht₁.requests, ht₁.cache⟩
    · cases h
  · cases h
    exact ⟨hs.requests, hs.cache⟩

omit [KVCacheManager K] in
/-- Drafts leave the encoder cache. -/
theorem updateDraftTokenIds_serves {validateTokens : ReqId → List Token → List Token}
    {drafts : List (ReqId × List Token)} (hs : Serves F I s) :
    Serves F I (s.updateDraftTokenIds validateTokens drafts) := by
  obtain ⟨⟨objs, hsame⟩, -, hreq⟩ := updateDraftTokenIds_same validateTokens s drafts
  refine hs.of_req (fun x hx => ?_) (by rw [hsame])
  obtain ⟨spec, hspec⟩ := hreq x
  rw [hspec]
  exact hx.of_same rfl rfl

end Scheduler

namespace System

open Scheduler

variable {K : Type} [KVCacheManager K] {sys sys' : System K EncoderCacheManager}

/-- What enters with an operation has items of the kind `F`. -/
def Brings (F : MmFeature → Prop) : Op → Prop
  | .addRequest request _ => ∀ f ∈ request.mmFeatures, F f
  | _ => True

/-- Every operation but a step only gives references up. -/
theorem step_frees (hrule : FreeRule F I) (hF : ∀ f n, F f → F { f with offset := n }) {op : Op}
    (hno : op.isSchedule = false) (hs : Serves F I sys.sch) (hop : Brings F op)
    (h : sys.step cfg op = .ok sys') : Serves F I sys'.sch := by
  cases op with
  | schedule => cases hno
  | addRequest request delayFree =>
    obtain ⟨sch, hadd, h⟩ := bind_eq_ok.mp h
    cases h
    exact addRequest_serves hrule hF hs hop hadd
  | updateFromOutput i mro =>
    unfold step at h
    dsimp only at h
    split at h
    · cases h
    · obtain ⟨sch, hupdate, h⟩ := bind_eq_ok.mp h
      cases h
      exact updateFromOutput_serves hrule hF hs hupdate
  | finishRequests ids status delayFree =>
    obtain ⟨sch, hfinish, h⟩ := bind_eq_ok.mp h
    cases h
    exact finishRequests_serves hrule hs hfinish
  | setPauseState pauseState =>
    cases h
    exact ⟨hs.requests, hs.cache⟩
  | resetPrefixCache reset =>
    obtain ⟨⟨ok, sch⟩, hreset, h⟩ := bind_eq_ok.mp h
    cases h
    exact resetPrefixCache_serves hrule hs hreset
  | updateDraftTokenIds validateTokens drafts =>
    cases h
    exact updateDraftTokenIds_serves hs

/-- Every operation calls the encoder cache by the rule. -/
theorem step_serves (hrule : CallRule F I) (hF : ∀ f n, F f → F { f with offset := n })
    (hdec : cfg.isEncoderDecoder = false) {op : Op} (hs : Serves F I sys.sch) (hop : Brings F op)
    (h : sys.step cfg op = .ok sys') : Serves F I sys'.sch := by
  cases op with
  | schedule env =>
    obtain ⟨⟨out, sch⟩, hschedule, h⟩ := bind_eq_ok.mp h
    cases h
    exact schedule_serves hrule hdec hs hschedule
  | addRequest | updateFromOutput | finishRequests | setPauseState | resetPrefixCache
  | updateDraftTokenIds => exact step_frees hrule.toFreeRule hF rfl hs hop h

/-- What holds of the cache that a system starts with and is kept by every call of the scheduler
holds in every run. -/
theorem serves_of_run (hrule : CallRule F I) (hF : ∀ f n, F f → F { f with offset := n })
    (hdec : cfg.isEncoderDecoder = false) {kv : K} {enc : EncoderCacheManager} (henc : I enc)
    (h : Run cfg (fun _ => Brings F) (init cfg kv enc) sys) : Serves F I sys.sch :=
  h.invariant (I := fun sys => Serves F I sys.sch) ⟨fun _ => .default F, henc⟩
    fun _ _ _ hI _ hop hstep => step_serves hrule hF hdec hI hop hstep

/-- Items of any kind may be brought. -/
theorem brings_any (op : Op) : Brings (fun _ => True) op := by
  cases op with
  | addRequest => exact fun _ _ => trivial
  | _ => exact trivial

/-- In every run the cache is consistent, whatever the requests bring. -/
theorem consistent_of_run {ok : System K EncoderCacheManager → Op → Prop}
    (hdec : cfg.isEncoderDecoder = false) {kv : K} {cacheSize : ℕ}
    (h : Run cfg ok (init cfg kv (EncoderCacheManager.init cacheSize)) sys) :
    sys.sch.enc.Consistent :=
  (serves_of_run consistent_rule (fun _ _ _ => trivial) hdec (init_consistent cacheSize)
    (h.mono fun _ op _ => brings_any op)).cache

/-- Where equal hashes stand for equally many embeddings, every run, and every round of a step
begun in it, leads the cache through calls of the scheduler only, and after every call the counters
and the freeable items balance. -/
theorem encoderBalanced_of_run (size : MmHash → ℕ) (hdec : cfg.isEncoderDecoder = false) {kv : K}
    {cacheSize : ℕ} (h : Run cfg (fun _ => Brings (Sized size))
      (init cfg kv (EncoderCacheManager.init cacheSize)) sys) :
    Called (Sized size) (EncoderCacheManager.init cacheSize) sys.sch.enc ∧
      (∀ env ls, Rounds cfg env sys.sch ls →
        Called (Sized size) (EncoderCacheManager.init cacheSize) ls.sch.enc) ∧
      ∀ m, Called (Sized size) (EncoderCacheManager.init cacheSize) m → Balanced size cacheSize m := by
  have hrule := called_rule (Sized size) (EncoderCacheManager.init cacheSize)
  have hserves := serves_of_run hrule (fun _ _ hf => hf) hdec .start h
  refine ⟨hserves.cache, fun env ls hrounds => (hrounds.serves hrule hdec hserves).cache, fun m hm => ?_⟩
  exact (hm.invariant (accounts_rule size cacheSize) (init_accounts size cacheSize)).balanced

instance (size : MmHash → ℕ) : DecidablePred (Brings (Sized size)) := fun op =>
  match op with
  | .addRequest request _ =>
    inferInstanceAs (Decidable (∀ f ∈ request.mmFeatures, f.getNumEmbeds = size f.identifier))
  | .schedule _ | .updateFromOutput _ _ | .finishRequests _ _ _ | .setPauseState _
  | .resetPrefixCache _ | .updateDraftTokenIds _ _ => .isTrue trivial

/-- Two requests that share an item are scheduled. -/
def shareItem : List Op :=
  [.addRequest { shortRequest 1 with
      mmFeatures := [{ identifier := 7, offset := 0, length := 1 }] } fun _ => false,
    .addRequest { shortRequest 2 with
      mmFeatures := [{ identifier := 7, offset := 0, length := 1 },
        { identifier := 9, offset := 1, length := 2, isEmbed := some [true, false] }] } fun _ => false,
    .schedule {}]

/-- The item that two requests share is in the cache of a run once, and the counters balance. -/
theorem encoderBalanced_of_shareItem : ∃ sys : System FullAttentionKV EncoderCacheManager,
    sys.sch.enc.items = {7, 9} ∧ Balanced (fun _ => 1) 4 sys.sch.enc := by
  have hlegal : Legal { conservationCfg with maxNumEncoderInputTokens := 4 }
      (fun _ => Brings (Sized fun _ => 1))
      (decoderOnly { conservationCfg with maxNumEncoderInputTokens := 4 } false 4) shareItem := by
    decide +kernel
  obtain ⟨sys, hrun, hitems⟩ := Reaches.exists_run shareItem
    (P := fun sys => sys.sch.enc.items = {7, 9}) (by decide +kernel) hlegal
  obtain ⟨hcalled, -, hbalanced⟩ := encoderBalanced_of_run (fun _ => 1) rfl hrun
  exact ⟨sys, hitems, hbalanced _ hcalled⟩

end System

end RpsServe
