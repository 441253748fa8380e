import RpsServe.Scheduler.Move

/-!
# The frame of a step

What a step leaves alone: the moves write to the request objects of the merged list, and
there to four fields only; finishing the step replaces the two queues and advances the
scheduled requests.
-/

namespace RpsServe

/-- `q'` differs from `q` in the fields that the scheduling loop writes. -/
def Request.SameInputs (q q' : Request) : Prop :=
  ∃ status numComputedTokens specTokenIds numPreemptions, q' = { q with
    status := status
    numComputedTokens := numComputedTokens
    specTokenIds := specTokenIds
    numPreemptions := numPreemptions }

namespace Request.SameInputs

/-- A request has the same inputs as itself. -/
theorem refl (q : Request) : SameInputs q q := ⟨_, _, _, _, rfl⟩

/-- Requests with the same inputs as one request have the same inputs. -/
theorem trans {q₁ q₂ q₃ : Request} (h : SameInputs q₁ q₂) (h' : SameInputs q₂ q₃) :
    SameInputs q₁ q₃ := by
  obtain ⟨_, _, _, _, rfl⟩ := h
  obtain ⟨_, _, _, _, rfl⟩ := h'
  exact ⟨_, _, _, _, rfl⟩

end Request.SameInputs

namespace LoopState

variable {K E : Type}

/-- What the moves of a step leave alone. -/
structure Frame (ls ls' : LoopState K E) : Prop where
  sch : ∃ objs qm kv enc, ls'.sch = { ls.sch with
    objs := objs
    queueManager := qm
    kv := kv
    enc := enc }
  keys : ls'.sch.objs.keys = ls.sch.objs.keys
  others : ∀ r ∉ ls.qm.combined, ls'.req r = ls.req r
  inputs : ∀ r, (ls.req r).SameInputs (ls'.req r)
  combined : ls'.qm.combined = ls.qm.combined
  policy : ls'.qm.policy = ls.qm.policy

namespace Frame

variable {ls ls' ls₁ ls₂ : LoopState K E}

/-- A state frames itself. -/
theorem refl (ls : LoopState K E) : Frame ls ls :=
  ⟨⟨_, _, _, _, rfl⟩, rfl, fun _ _ => rfl, fun _ => .refl _, rfl, rfl⟩

/-- Frames compose. -/
theorem trans (h : Frame ls ls₁) (h' : Frame ls₁ ls₂) : Frame ls ls₂ where
  sch := by
    obtain ⟨_, _, _, _, h₁⟩ := h.sch
    obtain ⟨_, _, _, _, h₂⟩ := h'.sch
    exact ⟨_, _, _, _, by rw [h₂, h₁]⟩
  keys := h'.keys.trans h.keys
  others r hr := (h'.others r (h.combined ▸ hr)).trans (h.others r hr)
  inputs r := (h.inputs r).trans (h'.inputs r)
  combined := h'.combined.trans h.combined
  policy := h'.policy.trans h.policy

/-- A move that changes the queue manager and one request of the merged list. -/
theorem of_modify {r : ReqId} {f : Request → Request} {qm : QueueManager} {kv : K} {enc : E}
    (hr : r ∈ ls.qm.combined) (hf : ∀ q, Request.SameInputs q (f q))
    (hqm : QueueManager.SameList ls.qm qm)
    (hsch : ls'.sch = { ls.sch with
      objs := ls.sch.objs.modify r f
      queueManager := qm
      kv := kv
      enc := enc }) : Frame ls ls' where
  sch := ⟨_, _, _, _, hsch⟩
  keys := by simp [hsch]
  others x hx := by
    have hne : x ≠ r := fun h => hx (h ▸ hr)
    simp only [req, Scheduler.req, hsch]
    exact Objs.req_modify_ne hne
  inputs x := by
    simp only [req, Scheduler.req, hsch]
    rcases Objs.req_modify_cases ls.sch.objs r f x with h | ⟨-, h⟩
    · rw [h]
      exact .refl _
    · rw [h]
      exact hf _
  combined := by
    simp only [LoopState.qm, hsch]
    exact hqm.combined
  policy := by
    simp only [LoopState.qm, hsch]
    exact hqm.policy

/-- A move that changes no request. -/
theorem of_sch {qm : QueueManager} {kv : K} {enc : E} (hqm : QueueManager.SameList ls.qm qm)
    (hsch : ls'.sch = { ls.sch with queueManager := qm, kv := kv, enc := enc }) : Frame ls ls' where
  sch := ⟨_, _, _, _, hsch⟩
  keys := by simp [hsch]
  others x _ := by simp only [req, Scheduler.req, hsch]
  inputs x := by
    simp only [req, Scheduler.req, hsch]
    exact .refl _
  combined := by
    simp only [LoopState.qm, hsch]
    exact hqm.combined
  policy := by
    simp only [LoopState.qm, hsch]
    exact hqm.policy

end Frame

variable [KVCacheManager K] [EncoderCache E] {cfg : Config} {good : Event K E → Prop}
  {ls ls' : LoopState K E}

/-- The frame of a move. -/
theorem Move.frame (h : Move cfg good ls ls') : Frame ls ls' := by
  have hlist := h.update.sameList
  cases h with
  | caches => exact .of_sch ⟨rfl, rfl⟩ rfl
  | advance => exact .of_sch ⟨rfl, rfl⟩ rfl
  | preempt _ hpre hvictim =>
    obtain ⟨ls₁, qm', hroll, -, -, rfl⟩ := preemptVictim_eq_ok hvictim
    exact .of_modify (List.mem_of_getElem? hpre.stands) (fun _ => ⟨_, _, _, _, rfl⟩) hlist rfl
  | schedule hr _ hsched =>
    obtain ⟨enc, spec, -, rfl⟩ := scheduleRunning_eq_ok hsched
    exact .of_modify hr (fun _ => ⟨_, _, _, _, rfl⟩) hlist rfl
  | ignore _ hr _ hignore =>
    obtain ⟨qm', -, hf⟩ := ignore_eq_ok hignore
    cases hf
    exact .of_modify hr (fun _ => ⟨_, _, _, _, rfl⟩) hlist rfl
  | skip h =>
    obtain ⟨qm', -, hf⟩ := skip_eq_ok h
    cases hf
    exact .of_sch hlist rfl
  | load hr _ h =>
    obtain ⟨qm', -, hf⟩ := skip_eq_ok h
    cases hf
    exact .of_modify hr (fun _ => ⟨_, _, _, _, rfl⟩) hlist rfl
  | admitWaiting _ hr _ hadmitted =>
    obtain ⟨newReqs, resumedReqs, qm', enc, -, -, -, rfl⟩ := admitWaiting_eq_ok hadmitted
    exact .of_modify hr (fun _ => ⟨_, _, _, _, rfl⟩) hlist rfl
  | tail hr htail =>
    rcases tailPreemptOne_cases htail with ⟨-, rfl⟩ | ⟨-, qm', -, rfl⟩
    · exact .refl _
    · exact .of_modify hr (fun _ => ⟨_, _, _, _, rfl⟩) hlist rfl

/-- Moves frame the state. -/
theorem Moves.frame (h : Moves cfg good ls ls') : Frame ls ls' :=
  h.invariant (.refl ls) fun _ _ hI hmove => hI.trans hmove.frame

/-- Moves keep exact bookkeeping exact while nothing is dropped. -/
theorem Moves.exact (h : Moves cfg good ls ls') (hs : ls.qm.NothingDropped → ls.qm.Exact) :
    ls'.qm.NothingDropped → ls'.qm.Exact :=
  h.invariant (I := fun t => t.qm.NothingDropped → t.qm.Exact) hs
    fun _ _ hI hmove => hmove.update.exact hI

/-- Moves keep the first waiting index set. -/
theorem Moves.indexSet (h : Moves cfg good ls ls') (hs : ls.qm.IndexSet) : ls'.qm.IndexSet :=
  h.invariant (I := fun t => t.qm.IndexSet) hs fun _ _ hI hmove => hmove.update.indexSet hI

end LoopState

namespace Scheduler

variable {K E : Type} [KVCacheManager K] [EncoderCache E] {cfg : Config} {env : StepEnv}
  {s s' : Scheduler K E} {ls ls₀ : LoopState K E} {out : SchedulerOutput}

omit [EncoderCache E] in
/-- What the beginning of a step does: it writes priorities and merges the queues. -/
theorem beginStep_eq_ok (h : beginStep cfg env s = .ok ls₀) :
    ∃ objs requests, SamePriorities s.objs objs ∧ requests.Perm s.requests ∧
      updatePriorities cfg.policy env s.objs s.requests = .ok (objs, requests) ∧
      ls₀ = {
        sch := { s with
          objs := objs
          requests := requests
          queueManager := s.queueManager.combineQueues objs.req (reorderQueue objs.req s.running)
            (reorderQueue objs.req (s.waiting.iter objs.req))
          kv := KVCacheManager.newStepStarts s.kv }
        tokenBudget := if s.pauseState = .pausedAll then 0 else cfg.maxNumScheduledTokens
        encoderComputeBudget := cfg.maxNumEncoderInputTokens } := by
  obtain ⟨⟨objs, requests⟩, hprio, h⟩ := bind_eq_ok.mp h
  cases h
  obtain ⟨hsame, hperm⟩ := updatePriorities_spec hprio
  exact ⟨objs, requests, hsame, hperm, hprio, rfl⟩

omit [KVCacheManager K] [EncoderCache E] in
/-- The reordered queues hold the queued requests. -/
theorem reordered_perm (req : ReqId → Request) (s : Scheduler K E) :
    (reorderQueue req s.running ++ reorderQueue req (s.waiting.iter req)).Perm
      (s.running ++ s.waiting.items) :=
  (sortBy_perm _ _).append ((sortBy_perm _ _).trans (RequestQueue.iter_perm req s.waiting))

omit [EncoderCache E] in
/-- The merged list holds the queued requests. -/
theorem beginStep_combined (h : beginStep cfg env s = .ok ls₀) :
    ls₀.qm.combined.Perm (s.running ++ s.waiting.items) := by
  obtain ⟨objs, requests, -, -, -, rfl⟩ := beginStep_eq_ok h
  exact (QueueManager.mergeQueues_perm _ _ _).trans (reordered_perm _ s)

omit [EncoderCache E] in
/-- A step begins with exact bookkeeping. -/
theorem beginStep_exact (h : beginStep cfg env s = .ok ls₀)
    (hnodup : (s.running ++ s.waiting.items).Nodup) : ls₀.qm.Exact := by
  obtain ⟨objs, requests, -, -, -, rfl⟩ := beginStep_eq_ok h
  exact QueueManager.combineQueues_exact ((reordered_perm _ s).nodup_iff.mpr hnodup)

omit [EncoderCache E] in
/-- A step begins with the first waiting index set. -/
theorem beginStep_indexSet (h : beginStep cfg env s = .ok ls₀) : ls₀.qm.IndexSet := by
  obtain ⟨objs, requests, -, -, -, rfl⟩ := beginStep_eq_ok h
  exact QueueManager.combineQueues_indexSet

/-- The parts of a step that returns. -/
theorem schedule_eq_ok (h : schedule cfg env s = .ok (out, s')) :
    ∃ ls, Walked cfg env s ls ∧ finishStep cfg ls = .ok (out, s') := by
  obtain ⟨ls₀, hbegin, h⟩ := bind_eq_ok.mp h
  obtain ⟨ls₁, hloop, h⟩ := bind_eq_ok.mp h
  obtain ⟨ls₂, htail, h⟩ := bind_eq_ok.mp h
  exact ⟨ls₂, ⟨ls₀, ls₁, hbegin, hloop, htail⟩, h⟩

/-- Moves lead to every round of a step. -/
theorem Rounds.moves {good : Event K E → Prop} (h : Rounds cfg env s ls)
    (hnodup : (s.running ++ s.waiting.items).Nodup) (hgood : StepMeets good cfg env s) :
    ∃ ls₀, beginStep cfg env s = .ok ls₀ ∧ LoopState.Moves cfg good ls₀ ls := by
  obtain ⟨ls₀, hbegin, hvisits⟩ := h
  exact ⟨ls₀, hbegin, LoopState.moves_visits_round (beginStep_exact hbegin hnodup).toParts hvisits
    fun t ht => hgood t ⟨ls₀, hbegin, ht⟩⟩

/-- Moves lead to the end of the walk and of the tail preemption. -/
theorem Walked.moves {good : Event K E → Prop} (h : Walked cfg env s ls)
    (hnodup : (s.running ++ s.waiting.items).Nodup) (hgood : StepMeets good cfg env s) :
    ∃ ls₀, beginStep cfg env s = .ok ls₀ ∧ LoopState.Moves cfg good ls₀ ls := by
  obtain ⟨ls₀, ls₁, hbegin, hloop, htail⟩ := h
  refine ⟨ls₀, hbegin, .trans ?_ (LoopState.moves_tailPreempt htail)⟩
  exact LoopState.moves_mainLoop (beginStep_exact hbegin hnodup).toParts hloop
    fun t ht => hgood t ⟨ls₀, hbegin, ht⟩

/-! ### Finishing a step -/

omit [KVCacheManager K] [EncoderCache E] in
/-- Advancing a request keeps everything but four of its fields. -/
theorem advanceRequest_eq (cfg : Config) (n : ℤ) (k : ℕ) (q : Request) :
    ∃ isPrefillChunk numOutputPlaceholders specTokenIds, advanceRequest cfg n k q = { q with
      numComputedTokens := q.numComputedTokens + n
      isPrefillChunk := isPrefillChunk
      numOutputPlaceholders := numOutputPlaceholders
      specTokenIds := specTokenIds } := by
  unfold advanceRequest
  dsimp only
  split <;> exact ⟨_, _, _, rfl⟩

omit [KVCacheManager K] [EncoderCache E] in
/-- What `_update_after_schedule` does to the objects: it advances the scheduled requests, which
are all in `self.requests`. -/
theorem advanceAll_spec {spec : Dict ReqId (List Token)} {l : List (ReqId × ℤ)}
    (hnodup : (l.map Prod.fst).Nodup) (h : l.foldlM (updateAfterScheduleOne cfg spec) s = .ok s') :
    (∃ objs, s' = { s with objs := objs }) ∧ s'.objs.keys = s.objs.keys ∧
      (∀ r ∉ l.map Prod.fst, s'.req r = s.req r) ∧
      ∀ e ∈ l, e.1 ∈ s.requests ∧ (e.1 ∈ s.objs.keys →
        s'.req e.1 = advanceRequest cfg e.2 ((spec.get? e.1).getD []).length (s.req e.1)) := by
  induction l generalizing s with
  | nil =>
    cases h
    exact ⟨⟨_, rfl⟩, rfl, fun _ _ => rfl, by simp⟩
  | cons e rest ih =>
    obtain ⟨t, ht, hrest⟩ := foldlM_cons_eq_ok.mp h
    unfold updateAfterScheduleOne at ht
    split at ht
    · cases ht
    · rename_i hmem
      cases ht
      rw [List.map_cons, List.nodup_cons] at hnodup
      obtain ⟨⟨objs, hobjs⟩, hkeys, hothers, hentries⟩ := ih hnodup.2 hrest
      have hother : ∀ r, r ≠ e.1 → (s.modifyReq e.1
          (advanceRequest cfg e.2 ((spec.get? e.1).getD []).length)).req r = s.req r :=
        fun r hr => Objs.req_modify_ne hr
      refine ⟨⟨objs, hobjs⟩, hkeys.trans (Dict.keys_modify _ _ _), fun r hr => ?_,
        fun a ha => ?_⟩
      · rw [List.map_cons, List.mem_cons, not_or] at hr
        rw [hothers r hr.2, hother r hr.1]
      · rcases List.mem_cons.mp ha with rfl | ha
        · refine ⟨by simpa using hmem, fun hk => ?_⟩
          rw [hothers _ hnodup.1]
          exact Objs.req_modify_self hk
        · have hne : a.1 ≠ e.1 := fun hEq => hnodup.1 (hEq ▸ List.mem_map_of_mem ha)
          obtain ⟨hreq, hadv⟩ := hentries a ha
          refine ⟨hreq, fun hk => ?_⟩
          rw [hadv (by simpa [modifyReq] using hk), hother _ hne]

/-- What `_update_after_schedule` does to the scheduler. -/
structure Advanced (cfg : Config) (out : SchedulerOutput) (s s' : Scheduler K E) : Prop where
  same : ∃ objs, s' = { s with objs := objs, finishedReqIds := ∅ }
  keys : s'.objs.keys = s.objs.keys
  unscheduled : ∀ r ∉ out.numScheduledTokens.keys, s'.req r = s.req r
  scheduled : ∀ r n, (r, n) ∈ out.numScheduledTokens.entries → r ∈ s.requests ∧
    (r ∈ s.objs.keys → s'.req r = advanceRequest cfg n
      ((out.scheduledSpecDecodeTokens.get? r).getD []).length (s.req r))

omit [KVCacheManager K] [EncoderCache E] in
/-- After a step the scheduled requests have advanced. -/
theorem updateAfterSchedule_spec (h : updateAfterSchedule cfg out s = .ok s') :
    Advanced cfg out s s' := by
  obtain ⟨t, hall, h⟩ := bind_eq_ok.mp h
  cases h
  obtain ⟨⟨objs, rfl⟩, hkeys, hothers, hentries⟩ := advanceAll_spec out.numScheduledTokens.nodup hall
  exact ⟨⟨objs, rfl⟩, hkeys, hothers, fun r n hrn => hentries (r, n) hrn⟩

/-- What finishing a step does: the queues are rebuilt, the output is put together from the
loop's variables, and the scheduled requests are advanced. -/
structure Finished (cfg : Config) (ls : LoopState K E) (out : SchedulerOutput)
    (s' : Scheduler K E) : Prop where
  queues : ls.qm.updateQueues ls.req = .ok (s'.running, s'.waiting)
  checked : ls.checkConstraints cfg s'.running = .ok ()
  kv : s'.kv = if cfg.needsKvCacheZeroing then (KVCacheManager.takeNewBlockIds ls.sch.kv).2
    else ls.sch.kv
  enc : s'.enc = (EncoderCache.getFreedMmHashes ls.sch.enc).2
  freeEncoderMmHashes : out.freeEncoderMmHashes = (EncoderCache.getFreedMmHashes ls.sch.enc).1
  scheduledEncoderInputs : out.scheduledEncoderInputs = ls.scheduledEncoderInputs
  numScheduledTokens : out.numScheduledTokens = ls.numScheduledTokens
  preemptedReqIds : out.preemptedReqIds = ls.preemptedReqs.toFinset
  finishedReqIds : out.finishedReqIds = ls.sch.finishedReqIds
  requests : s'.requests = ls.sch.requests
  skippedWaiting : s'.skippedWaiting = ls.sch.skippedWaiting
  pauseState : s'.pauseState = ls.sch.pauseState
  numWaiting : s'.numWaitingForStreamingInput = ls.sch.numWaitingForStreamingInput
  queueManager : s'.queueManager = ls.qm
  noneFinished : s'.finishedReqIds = ∅
  keys : s'.objs.keys = ls.sch.objs.keys
  unscheduled : ∀ r ∉ ls.numScheduledTokens.keys, s'.req r = ls.req r
  scheduled : ∀ r n, (r, n) ∈ ls.numScheduledTokens.entries → r ∈ ls.sch.requests ∧
    (r ∈ ls.sch.objs.keys → s'.req r = advanceRequest cfg n
      ((ls.scheduledSpecDecodeTokens.get? r).getD []).length (ls.req r))

/-- What the end of a step does to the state. -/
theorem finishStep_spec (h : finishStep cfg ls = .ok (out, s')) : Finished cfg ls out s' := by
  obtain ⟨⟨running, waiting⟩, hqueues, h⟩ := bind_eq_ok.mp h
  obtain ⟨⟨⟩, hcheck, h⟩ := bind_eq_ok.mp h
  obtain ⟨⟨out', s₁⟩, hout, h⟩ := bind_eq_ok.mp h
  obtain ⟨s₂, hupdate, h⟩ := bind_eq_ok.mp h
  cases h
  obtain ⟨newReqsData, -, hmake⟩ := bind_eq_ok.mp hout
  obtain ⟨cachedReqsData, -, hmake⟩ := bind_eq_ok.mp hmake
  have hadv := updateAfterSchedule_spec hupdate
  obtain ⟨⟨objs, hs'⟩, hkeys, hothers, hentries⟩ := hadv
  cases hmake
  exact {
    queues := by rw [hs']; exact hqueues
    checked := by rw [hs']; exact hcheck
    kv := by
      rw [hs']
      cases cfg.needsKvCacheZeroing <;> rfl
    enc := by rw [hs']; rfl
    freeEncoderMmHashes := rfl
    scheduledEncoderInputs := rfl
    numScheduledTokens := rfl
    preemptedReqIds := rfl
    finishedReqIds := rfl
    requests := by rw [hs']
    skippedWaiting := by rw [hs']
    pauseState := by rw [hs']
    numWaiting := by rw [hs']
    queueManager := by rw [hs']; rfl
    noneFinished := by rw [hs']
    keys := hkeys
    unscheduled := hothers
    scheduled := hentries }

/-- What a step leaves alone, and the queues it rearranges. -/
structure StepFrame (s s' : Scheduler K E) : Prop where
  queued : (s'.running ++ s'.waiting.items).Perm (s.running ++ s.waiting.items)
  skippedWaiting : s'.skippedWaiting = s.skippedWaiting
  requests : s'.requests.Perm s.requests
  keys : s'.objs.keys = s.objs.keys
  status : ∀ r ∉ s.running ++ s.waiting.items, (s'.req r).status = (s.req r).status
  pauseState : s'.pauseState = s.pauseState
  numWaiting : s'.numWaitingForStreamingInput = s.numWaitingForStreamingInput

/-- What does not read the progress of a request is kept by finishing the step. -/
theorem Finished.keeps {α : Type*} {g : Request → α}
    (hg : ∀ (q : Request) n b p spec, g { q with
      numComputedTokens := n
      isPrefillChunk := b
      numOutputPlaceholders := p
      specTokenIds := spec } = g q) (hfin : Finished cfg ls out s') (r : ReqId) :
    g (s'.req r) = g (ls.req r) := by
  by_cases hr : r ∈ ls.numScheduledTokens.keys
  · obtain ⟨⟨r, n⟩, hn, rfl⟩ := List.mem_map.mp hr
    by_cases hk : r ∈ ls.sch.objs.keys
    · rw [(hfin.scheduled r n hn).2 hk]
      obtain ⟨_, _, _, hadv⟩ := advanceRequest_eq cfg n
        ((ls.scheduledSpecDecodeTokens.get? r).getD []).length (ls.req r)
      rw [hadv]
      exact hg _ _ _ _ _
    · rw [req, Objs.req_of_notMem (hfin.keys ▸ hk), LoopState.req, req, Objs.req_of_notMem hk]
  · rw [hfin.unscheduled r hr]

/-- Advancing keeps a request's status. -/
theorem Finished.status (h : Finished cfg ls out s') (r : ReqId) :
    (s'.req r).status = (ls.req r).status :=
  h.keeps (g := Request.status) (fun _ _ _ _ _ => rfl) r

/-- Advancing keeps how often a request was preempted. -/
theorem Finished.numPreemptions (h : Finished cfg ls out s') (r : ReqId) :
    (s'.req r).numPreemptions = (ls.req r).numPreemptions :=
  h.keeps (g := Request.numPreemptions) (fun _ _ _ _ _ => rfl) r

/-- The frame of a step that returns. -/
theorem schedule_frame (hnodup : (s.running ++ s.waiting.items).Nodup)
    (h : schedule cfg env s = .ok (out, s')) : StepFrame s s' := by
  obtain ⟨ls₂, hwalked, hfinish⟩ := schedule_eq_ok h
  obtain ⟨ls₀, hbegin, hmoves⟩ := hwalked.moves hnodup
    (fun _ _ _ _ => trivial : StepMeets (fun _ => True) cfg env s)
  have hframe := hmoves.frame
  have hset := hmoves.indexSet (beginStep_indexSet hbegin)
  have hfin := finishStep_spec hfinish
  have hcombined : ls₂.qm.combined.Perm (s.running ++ s.waiting.items) :=
    hframe.combined ▸ beginStep_combined hbegin
  obtain ⟨objs, requests, hsame, hperm, -, hbegin'⟩ := beginStep_eq_ok hbegin
  obtain ⟨objs₂, qm₂, kv₂, enc₂, hsch⟩ := hframe.sch
  exact {
    queued := (QueueManager.updateQueues_perm hfin.queues hset).trans hcombined
    skippedWaiting := by rw [hfin.skippedWaiting, hsch, hbegin']
    requests := by rw [hfin.requests, hsch, hbegin']; exact hperm
    keys := by rw [hfin.keys, hframe.keys, hbegin']; exact hsame.keys
    status := fun r hr => by
      have hout : r ∉ ls₀.qm.combined := fun hmem =>
        hr ((beginStep_combined hbegin).mem_iff.mp hmem)
      obtain ⟨p, hp⟩ := hsame.req r
      rw [hfin.status, hframe.others r hout, LoopState.req, req, hbegin', hp]
      rfl
    pauseState := by rw [hfin.pauseState, hsch, hbegin']
    numWaiting := by rw [hfin.numWaiting, hsch, hbegin'] }

end Scheduler

end RpsServe
