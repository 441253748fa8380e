import RpsServe.P2p.Producer

/-!
# What a consumer loads

In a step of the scheduler every admitted request is announced to the connector with its
blocks, and the output lists the running requests before the resumed ones. The loop over
the cached requests ends at the first running one, so a resumed request is loaded in its
step only when no request runs, or when the resumed requests are listed as new ones.
-/

namespace RpsServe.P2p

/-- A request that a step admits from the waiting queue, new or resumed. -/
structure Admission where
  reqId : ReqId
  resumed : Bool
  promptTokenIds : Option (List Token)
  allTokenIds : List Token
  blockIds : List (List BlockId)
  numComputedTokens : ℕ
  numExternalTokens : ℕ
  numScheduledTokens : ℕ
deriving DecidableEq

/-- What a step of the scheduler does: the requests that finished before it, the running ones it
schedules, with their numbers of tokens, and the admitted ones in their order. -/
structure StepPlan where
  finished : List ReqId := []
  running : List (CachedRequest × ℕ) := []
  admitted : List Admission := []
deriving DecidableEq

/-- `NewRequestData.from_request`. -/
def Admission.toNew (a : Admission) : NewRequest :=
  ⟨a.reqId, a.promptTokenIds, a.blockIds, a.numComputedTokens⟩

/-- The record of a resumed request: its new blocks are all of its blocks. -/
def Admission.toCached (a : Admission) : CachedRequest :=
  ⟨a.reqId, some a.blockIds, a.numComputedTokens⟩

namespace StepPlan

/-- The requests of the output that are listed as new ones; the second model runner takes the
resumed requests for new ones. -/
def newReqs (useV2 : Bool) (plan : StepPlan) : List Admission :=
  plan.admitted.filter (fun a => !a.resumed) ++
    if useV2 then plan.admitted.filter (·.resumed) else []

/-- The resumed requests that are listed among the cached ones. -/
def resumedReqs (useV2 : Bool) (plan : StepPlan) : List Admission :=
  if useV2 then [] else plan.admitted.filter (·.resumed)

/-- The output of the step; `_make_cached_request_data` lists the running requests first. -/
def output (useV2 : Bool) (plan : StepPlan) : SchedulerOutput where
  scheduledNewReqs := (plan.newReqs useV2).map Admission.toNew
  scheduledCachedReqs := plan.running.map Prod.fst ++
    (plan.resumedReqs useV2).map Admission.toCached
  resumedReqIds := ((plan.resumedReqs useV2).map (·.reqId)).toFinset
  numScheduledTokens := (plan.running.map (fun q => (q.1.reqId, q.2)) ++
    plan.admitted.map fun a => (a.reqId, a.numScheduledTokens)).foldl
      (fun d e => d.set e.1 e.2) .empty

/-- `request.all_token_ids`. -/
def allTokenIds (plan : StepPlan) (r : ReqId) : List Token :=
  ((plan.admitted.find? (·.reqId = r)).map (·.allTokenIds)).getD []

/-- The blocks that the step announces for a request with external tokens. -/
def loads (plan : StepPlan) (r : ReqId) : List (List BlockId) :=
  (plan.admitted.filter fun a => a.reqId = r ∧ 0 < a.numExternalTokens).map
    fun a => a.blockIds.headD []

/-- The step schedules a request once, and an admitted one has blocks. -/
structure WellFormed (plan : StepPlan) : Prop where
  nodup : (plan.running.map (·.1.reqId) ++ plan.admitted.map (·.reqId)).Nodup
  blocks : ∀ a ∈ plan.admitted, a.blockIds ≠ []

/-- No request is resumed with external tokens behind a running one. -/
def Timely (useV2 : Bool) (plan : StepPlan) : Prop :=
  useV2 = true ∨ plan.running = [] ∨
    ∀ a ∈ plan.admitted, a.resumed = true → a.numExternalTokens = 0

instance (useV2 : Bool) (plan : StepPlan) : Decidable (plan.Timely useV2) :=
  inferInstanceAs (Decidable (_ ∨ _ ∨ _))

end StepPlan

namespace Connector

/-- The calls of one step. -/
def consumeStep (useV2 : Bool) (plan : StepPlan) (c : Connector) :
    Except ConnectorError (List ReqMeta × Connector) := do
  let c := plan.finished.foldl requestFinished c
  let c ← plan.admitted.foldlM
    (fun c a => c.updateStateAfterAlloc a.reqId a.blockIds a.numExternalTokens) c
  let built ← c.buildConnectorMeta (plan.output useV2) plan.allTokenIds
  .ok (built.reqMetas, built.connector)

/-- The steps in their order, with the metadata of each. -/
def consume (useV2 : Bool) : List StepPlan → Connector →
    Except ConnectorError (List (List ReqMeta) × Connector)
  | [], c => .ok ([], c)
  | plan :: plans, c => do
    let (reqMetas, c) ← consumeStep useV2 plan c
    let (rest, c) ← consume useV2 plans c
    .ok (reqMetas :: rest, c)

end Connector

/-- The metadata of a step has one entry, with its blocks, for every request that was announced
with external tokens in the step, and no other. -/
def LoadsExactly (plan : StepPlan) (reqMetas : List ReqMeta) : Prop :=
  ∀ r, (entries r reqMetas).map (·.blockIds) = plan.loads r

/-- How often the tensors of a request are asked for, or sent, by the workers that are given the
metadata: each entry stands for one tensor of every layer. -/
def timesListed (r : ReqId) (metas : List (List ReqMeta)) : ℕ := (entries r metas.flatten).length

/-- How often a request is announced with external tokens. -/
def timesAnnounced (r : ReqId) (plans : List StepPlan) : ℕ := (plans.flatMap (·.loads r)).length

/-! ### The loops of a consumer -/

variable {c c' : Connector} {out : SchedulerOutput} {b b' b₁ b₂ : Building} {a : Admission}
  {l l₁ l₂ : List Admission} {plan : StepPlan} {useV2 : Bool} {r : ReqId} {blocks : List BlockId}

/-- The admissions `l` were gone through: the ones with a pending load are listed with their
blocks, and their loads are not pending any more. -/
structure Listed (l : List Admission) (b b' : Building) : Prop where
  consumer : b'.connector.isProducer = false
  metas : ∀ r, (entries r b'.reqMetas).map (·.blockIds) =
    (entries r b.reqMetas).map (·.blockIds) ++
      (l.filter fun a => a.reqId = r ∧ r ∈ b.connector.requestsNeedLoad.keys).map
        fun a => a.blockIds.headD []
  keys : ∀ r, r ∈ b'.connector.requestsNeedLoad.keys ↔
    r ∈ b.connector.requestsNeedLoad.keys ∧ r ∉ l.map (·.reqId)

namespace Listed

/-- A loop that does nothing has listed nothing. -/
theorem nil (h : b.connector.isProducer = false) : Listed [] b b := ⟨h, by simp, by simp⟩

/-- Lists without a common request are gone through one after the other. -/
theorem append (h₁ : Listed l₁ b b₁) (h₂ : Listed l₂ b₁ b₂)
    (hdisjoint : ∀ a ∈ l₂, a.reqId ∉ l₁.map (·.reqId)) : Listed (l₁ ++ l₂) b b₂ where
  consumer := h₂.consumer
  metas r := by
    have hsame : (l₂.filter fun a => a.reqId = r ∧ r ∈ b₁.connector.requestsNeedLoad.keys) =
        l₂.filter fun a => a.reqId = r ∧ r ∈ b.connector.requestsNeedLoad.keys := by
      refine List.filter_congr fun a ha => decide_eq_decide.mpr (and_congr_right fun hr => ?_)
      rw [h₁.keys r]
      exact and_iff_left (hr ▸ hdisjoint a ha)
    rw [h₂.metas r, h₁.metas r, hsame, List.filter_append, List.map_append, List.append_assoc]
  keys r := by
    rw [h₂.keys r, h₁.keys r, List.map_append, List.mem_append, not_or, and_assoc]

/-- A request with a pending load is listed. -/
theorem single (k : ℕ) {groups : List (List BlockId)} (hcons : b.connector.isProducer = false)
    (hmem : a.reqId ∈ b.connector.requestsNeedLoad.keys) (hblocks : a.blockIds = blocks :: groups) :
    Listed [a] b ((b.addRequest a.reqId blocks k).dropLoad a.reqId) where
  consumer := hcons
  metas r := by
    by_cases hr : a.reqId = r
    · subst hr
      simp [entries, Building.addRequest, Building.dropLoad, List.filter_append, hmem, hblocks]
    · simp [entries, Building.addRequest, Building.dropLoad, List.filter_append, hr]
  keys r := by
    simp [Building.addRequest, Building.dropLoad]

/-- A request without a pending load is passed over. -/
theorem skip (hcons : b.connector.isProducer = false)
    (hmem : a.reqId ∉ b.connector.requestsNeedLoad.keys) : Listed [a] b b where
  consumer := hcons
  metas r := by
    have hnone : ¬ (a.reqId = r ∧ r ∈ b.connector.requestsNeedLoad.keys) :=
      fun ⟨hr, hkey⟩ => hmem (hr ▸ hkey)
    rw [List.filter_cons_of_neg (by simpa using hnone)]
    simp
  keys r := by
    rw [List.map_singleton, List.mem_singleton]
    exact ⟨fun hr => ⟨hr, fun heq => hmem (heq ▸ hr)⟩, And.left⟩

end Listed

namespace Connector

/-- A new request on a consumer. -/
theorem newRequest_listed (out : SchedulerOutput) (hcons : b.connector.isProducer = false)
    (hblocks : a.blockIds ≠ []) :
    ∃ b', newRequest out b a.toNew = .ok b' ∧ Listed [a] b b' := by
  obtain ⟨blocks, groups, hgroups⟩ := List.exists_cons_of_ne_nil hblocks
  by_cases hmem : a.reqId ∈ b.connector.requestsNeedLoad.keys
  · refine ⟨_, ?_, Listed.single (a.promptTokenIds.getD []).length hcons hmem hgroups⟩
    unfold newRequest
    rw [if_neg (by simp [hcons]), if_pos (show a.toNew.reqId ∈ _ from hmem)]
    exact bind_eq_ok.mpr ⟨blocks, by rw [Admission.toNew, hgroups]; rfl, rfl⟩
  · refine ⟨b, ?_, Listed.skip hcons hmem⟩
    unfold newRequest
    rw [if_neg (by simp [hcons]), if_neg (show a.toNew.reqId ∉ _ from hmem)]

/-- A resumed request on a consumer. -/
theorem cachedRequest_listed (allTokenIds : ReqId → List Token)
    (hcons : b.connector.isProducer = false) (hblocks : a.blockIds ≠ [])
    (hresumed : a.reqId ∈ out.resumedReqIds) :
    ∃ b', cachedRequest out allTokenIds b a.toCached = .ok (some b') ∧ Listed [a] b b' := by
  obtain ⟨blocks, groups, hgroups⟩ := List.exists_cons_of_ne_nil hblocks
  have hgoes : ¬ a.toCached.reqId ∉ out.resumedReqIds := not_not.mpr hresumed
  by_cases hmem : a.reqId ∈ b.connector.requestsNeedLoad.keys
  · refine ⟨_, ?_, Listed.single ((allTokenIds a.reqId).take (a.numComputedTokens + 1)).length
      hcons hmem hgroups⟩
    unfold cachedRequest
    rw [if_neg (by simp [hcons]), if_neg hgoes, if_pos (show a.toCached.reqId ∈ _ from hmem)]
    exact bind_eq_ok.mpr ⟨blocks, by rw [hgroups]; rfl, rfl⟩
  · refine ⟨b, ?_, Listed.skip hcons hmem⟩
    unfold cachedRequest
    rw [if_neg (by simp [hcons]), if_neg hgoes, if_neg (show a.toCached.reqId ∉ _ from hmem)]

/-- The loop over the new requests goes through all of them. -/
theorem newLoop_listed (out : SchedulerOutput) (hcons : b.connector.isProducer = false)
    (hnodup : (l.map (·.reqId)).Nodup) (hblocks : ∀ a ∈ l, a.blockIds ≠ []) :
    ∃ b', (l.map Admission.toNew).foldlM (newRequest out) b = .ok b' ∧ Listed l b b' := by
  induction l generalizing b with
  | nil => exact ⟨b, rfl, .nil hcons⟩
  | cons a rest ih =>
    rw [List.map_cons, List.nodup_cons] at hnodup
    obtain ⟨b₁, hround, hfirst⟩ := newRequest_listed out hcons (hblocks a List.mem_cons_self)
    obtain ⟨b', hloop, hrest⟩ := ih hfirst.consumer hnodup.2
      fun x hx => hblocks x (List.mem_cons_of_mem a hx)
    refine ⟨b', foldlM_cons_eq_ok.mpr ⟨b₁, hround, hloop⟩, hfirst.append hrest fun x hx heq => ?_⟩
    rw [List.map_singleton, List.mem_singleton] at heq
    exact hnodup.1 (heq ▸ List.mem_map_of_mem hx)

/-- The loop over the cached requests goes through all of them when no running one is listed. -/
theorem cachedLoop_listed (allTokenIds : ReqId → List Token)
    (hcons : b.connector.isProducer = false)
    (hnodup : (l.map (·.reqId)).Nodup) (hblocks : ∀ a ∈ l, a.blockIds ≠ [])
    (hresumed : ∀ a ∈ l, a.reqId ∈ out.resumedReqIds) :
    ∃ b', foldBreakM (cachedRequest out allTokenIds) (l.map Admission.toCached) b = .ok b' ∧
      Listed l b b' := by
  induction l generalizing b with
  | nil => exact ⟨b, rfl, .nil hcons⟩
  | cons a rest ih =>
    rw [List.map_cons, List.nodup_cons] at hnodup
    obtain ⟨b₁, hround, hfirst⟩ := cachedRequest_listed allTokenIds hcons
      (hblocks a List.mem_cons_self) (hresumed a List.mem_cons_self)
    obtain ⟨b', hloop, hrest⟩ := ih hfirst.consumer hnodup.2
      (fun x hx => hblocks x (List.mem_cons_of_mem a hx))
      fun x hx => hresumed x (List.mem_cons_of_mem a hx)
    refine ⟨b', foldBreakM_cons_eq_ok.mpr (.inr ⟨b₁, hround, hloop⟩),
      hfirst.append hrest fun x hx heq => ?_⟩
    rw [List.map_singleton, List.mem_singleton] at heq
    exact hnodup.1 (heq ▸ List.mem_map_of_mem hx)

/-- Announcing the admitted requests makes the loads of those with external tokens pending. -/
theorem announce (hcons : c.isProducer = false) (hblocks : ∀ a ∈ l, a.blockIds ≠ []) :
    ∃ c', l.foldlM (fun c a => c.updateStateAfterAlloc a.reqId a.blockIds a.numExternalTokens) c =
        .ok c' ∧ c'.isProducer = false ∧
      ∀ r, r ∈ c'.requestsNeedLoad.keys ↔
        r ∈ c.requestsNeedLoad.keys ∨ ∃ a ∈ l, a.reqId = r ∧ 0 < a.numExternalTokens := by
  induction l generalizing c with
  | nil => exact ⟨c, rfl, hcons, by simp⟩
  | cons a rest ih =>
    obtain ⟨blocks, groups, hgroups⟩ := List.exists_cons_of_ne_nil (hblocks a List.mem_cons_self)
    have hfirst : ∃ c₁, c.updateStateAfterAlloc a.reqId a.blockIds a.numExternalTokens = .ok c₁ ∧
        c₁.isProducer = false ∧ ∀ r, r ∈ c₁.requestsNeedLoad.keys ↔
          r ∈ c.requestsNeedLoad.keys ∨ a.reqId = r ∧ 0 < a.numExternalTokens := by
      by_cases hext : 0 < a.numExternalTokens
      · refine ⟨{ c with requestsNeedLoad := c.requestsNeedLoad.set a.reqId blocks }, ?_, hcons,
          fun r => ?_⟩
        · unfold updateStateAfterAlloc
          rw [if_pos ⟨hcons, hext⟩]
          exact bind_eq_ok.mpr ⟨blocks, by rw [hgroups]; rfl, rfl⟩
        · rw [Dict.mem_keys_set, or_comm, eq_comm, and_iff_left hext]
      · refine ⟨c, ?_, hcons, fun r => (or_iff_left fun h => hext h.2).symm⟩
        unfold updateStateAfterAlloc
        rw [if_neg fun h => hext h.2]
    obtain ⟨c₁, hstep, hcons₁, hkeys₁⟩ := hfirst
    obtain ⟨c', hloop, hcons', hkeys'⟩ := ih hcons₁ fun x hx => hblocks x (List.mem_cons_of_mem a hx)
    refine ⟨c', foldlM_cons_eq_ok.mpr ⟨c₁, hstep, hloop⟩, hcons', fun r => ?_⟩
    rw [hkeys', hkeys₁, or_assoc]
    simp

/-- Requests that finish have no say in the pending loads. -/
theorem finish_keeps (l : List ReqId) (c : Connector) :
    (l.foldl requestFinished c).isProducer = c.isProducer ∧
      (l.foldl requestFinished c).requestsNeedLoad = c.requestsNeedLoad := by
  induction l generalizing c with
  | nil => exact ⟨rfl, rfl⟩
  | cons r rest ih => exact ih (c.requestFinished r)

end Connector

/-! ### One step -/

namespace StepPlan

/-- The admitted requests that the connector gets to see in the output. -/
def seen (useV2 : Bool) (plan : StepPlan) : List Admission :=
  plan.newReqs useV2 ++ if plan.running = [] then plan.resumedReqs useV2 else []

/-- The step announces the request with external tokens. -/
def Announces (plan : StepPlan) (r : ReqId) : Prop :=
  ∃ a ∈ plan.admitted, a.reqId = r ∧ 0 < a.numExternalTokens

instance (plan : StepPlan) (r : ReqId) : Decidable (plan.Announces r) :=
  inferInstanceAs (Decidable (∃ a ∈ plan.admitted, _))

/-- The new and the resumed ones are the admitted ones. -/
theorem split_perm (plan : StepPlan) : (plan.admitted.filter (fun a => !a.resumed) ++
    plan.admitted.filter (·.resumed)).Perm plan.admitted :=
  List.perm_append_comm.trans (List.filter_append_perm _ _)

/-- The connector sees admitted requests only, the new ones before the resumed ones. -/
theorem seen_sublist (useV2 : Bool) (plan : StepPlan) : (plan.seen useV2).Sublist
    (plan.admitted.filter (fun a => !a.resumed) ++ plan.admitted.filter (·.resumed)) := by
  unfold seen newReqs resumedReqs
  cases useV2 with
  | true =>
    rw [if_pos rfl, if_pos rfl, ite_self, List.append_nil]
  | false =>
    rw [if_neg Bool.false_ne_true, if_neg Bool.false_ne_true, List.append_nil]
    split
    · exact List.Sublist.refl _
    · rw [List.append_nil]
      exact List.sublist_append_left _ _

/-- A request that the connector sees was admitted. -/
theorem seen_subset (ha : a ∈ plan.seen useV2) : a ∈ plan.admitted :=
  plan.split_perm.subset ((seen_sublist useV2 plan).subset ha)

/-- The connector sees a request once. -/
theorem seen_nodup (h : plan.WellFormed) : ((plan.seen useV2).map (·.reqId)).Nodup :=
  ((plan.split_perm.map _).nodup_iff.mpr (List.Nodup.of_append_right h.nodup)).sublist
    ((seen_sublist useV2 plan).map _)

/-- A new request is always seen. -/
theorem mem_seen_of_new (ha : a ∈ plan.admitted) (hnew : a.resumed = false) :
    a ∈ plan.seen useV2 := by
  refine List.mem_append_left _ (List.mem_append_left _ (List.mem_filter.mpr ⟨ha, ?_⟩))
  rw [hnew]
  rfl

/-- A resumed request is seen as a new one, or when no running one is listed. -/
theorem mem_seen_iff_resumed (ha : a ∈ plan.admitted) (hresumed : a.resumed = true) :
    a ∈ plan.seen useV2 ↔ useV2 = true ∨ plan.running = [] := by
  have hmem : a ∈ plan.admitted.filter (·.resumed) := List.mem_filter.mpr ⟨ha, hresumed⟩
  unfold seen newReqs resumedReqs
  cases useV2 with
  | true => simp [ha, hresumed]
  | false =>
    by_cases hrun : plan.running = []
    · simp [hrun, ha, hresumed]
    · simp [hrun, hresumed]

end StepPlan

namespace Connector

/-- A step of a consumer returns. It lists the requests that it sees and whose load is pending from
before or announced in the step, and leaves pending what it does not see. -/
theorem consumeStep_spec (useV2 : Bool) (hcons : c.isProducer = false) (hplan : plan.WellFormed) :
    ∃ reqMetas c', consumeStep useV2 plan c = .ok (reqMetas, c') ∧ c'.isProducer = false ∧
      (∀ r, (entries r reqMetas).map (·.blockIds) =
        ((plan.seen useV2).filter fun a => a.reqId = r ∧
          (r ∈ c.requestsNeedLoad.keys ∨ plan.Announces r)).map fun a => a.blockIds.headD []) ∧
      ∀ r, r ∈ c'.requestsNeedLoad.keys ↔ (r ∈ c.requestsNeedLoad.keys ∨ plan.Announces r) ∧
        r ∉ (plan.seen useV2).map (·.reqId) := by
  obtain ⟨hcons₀, hkeys₀⟩ := finish_keeps plan.finished c
  obtain ⟨c₁, hannounce, hcons₁, hkeys₁⟩ := announce (hcons₀.trans hcons) hplan.blocks
  rw [hkeys₀] at hkeys₁
  have hnodup : ((plan.seen useV2).map (·.reqId)).Nodup := StepPlan.seen_nodup hplan
  have hblocks : ∀ a ∈ plan.seen useV2, a.blockIds ≠ [] := fun a ha =>
    hplan.blocks a (StepPlan.seen_subset ha)
  have hsplit := hnodup
  rw [StepPlan.seen, List.map_append] at hsplit
  obtain ⟨b₁, hnew, hlisted₁⟩ := newLoop_listed (plan.output useV2) (b := { connector := c₁ }) hcons₁
    (List.Nodup.of_append_left hsplit) fun a ha => hblocks a (List.mem_append_left _ ha)
  have hcached : ∃ b', foldBreakM (cachedRequest (plan.output useV2) plan.allTokenIds)
      (plan.output useV2).scheduledCachedReqs b₁ = .ok b' ∧
      Listed (if plan.running = [] then plan.resumedReqs useV2 else []) b₁ b' := by
    by_cases hrun : plan.running = []
    · rw [if_pos hrun] at hsplit ⊢
      have hresumed : ∀ a ∈ plan.resumedReqs useV2, a.reqId ∈ (plan.output useV2).resumedReqIds :=
        fun a ha => List.mem_toFinset.mpr (List.mem_map_of_mem ha)
      obtain ⟨b', hloop, hlisted⟩ := cachedLoop_listed plan.allTokenIds hlisted₁.consumer
        (List.Nodup.of_append_right hsplit) (fun a ha => hblocks a (by
          rw [StepPlan.seen, if_pos hrun]
          exact List.mem_append_right _ ha)) hresumed
      have honly : (plan.output useV2).scheduledCachedReqs =
          (plan.resumedReqs useV2).map Admission.toCached := by simp [StepPlan.output, hrun]
      exact ⟨b', by rw [honly]; exact hloop, hlisted⟩
    · rw [if_neg hrun]
      obtain ⟨q, rest, hq⟩ := List.exists_cons_of_ne_nil hrun
      have hnot : q.1.reqId ∉ (plan.output useV2).resumedReqIds := by
        intro hmem
        obtain ⟨a, ha, hid⟩ := List.mem_map.mp (List.mem_toFinset.mp hmem)
        have hadmitted : a ∈ plan.admitted := by
          unfold StepPlan.resumedReqs at ha
          split at ha
          · cases ha
          · exact List.mem_of_mem_filter ha
        refine (List.nodup_append.mp hplan.nodup).2.2 q.1.reqId ?_ a.reqId ?_ hid.symm
        · rw [hq]
          exact List.mem_cons_self
        · exact List.mem_map_of_mem hadmitted
      have hfirst : (plan.output useV2).scheduledCachedReqs =
          q.1 :: (rest.map Prod.fst ++ (plan.resumedReqs useV2).map Admission.toCached) := by
        simp [StepPlan.output, hq]
      refine ⟨b₁, ?_, .nil hlisted₁.consumer⟩
      rw [hfirst]
      refine foldBreakM_cons_eq_ok.mpr (.inl ⟨?_, rfl⟩)
      unfold cachedRequest
      rw [if_neg (by simp [hlisted₁.consumer]), if_pos hnot]
  obtain ⟨b', hloop, hlisted₂⟩ := hcached
  have hlisted := hlisted₁.append hlisted₂ fun a ha hmem =>
    (List.nodup_append.mp hsplit).2.2 _ hmem _ (List.mem_map_of_mem ha) rfl
  refine ⟨b'.reqMetas, b'.connector, ?_, hlisted.consumer, fun r => ?_, fun r => ?_⟩
  · exact bind_eq_ok.mpr ⟨c₁, hannounce, bind_eq_ok.mpr
      ⟨b', bind_eq_ok.mpr ⟨b₁, hnew, hloop⟩, rfl⟩⟩
  · rw [hlisted.metas r]
    simp only [entries, List.filter_nil, List.map_nil, List.nil_append, hkeys₁]
    rfl
  · rw [hlisted.keys r, hkeys₁]
    rfl

end Connector

/-- What a filter leaves of a list without two entries of one key. -/
theorem filter_eq_singleton {α β : Type*} (key : α → β) {p : α → Bool} {l : List α} {a : α}
    (hnodup : (l.map key).Nodup) (ha : a ∈ l) (hp : p a = true)
    (hkey : ∀ x ∈ l, p x = true → key x = key a) : l.filter p = [a] := by
  obtain ⟨l₁, l₂, rfl⟩ := List.append_of_mem ha
  rw [List.map_append, List.map_cons, List.nodup_append, List.nodup_cons] at hnodup
  obtain ⟨-, ⟨hafter, -⟩, hbefore⟩ := hnodup
  have h₁ : l₁.filter p = [] := List.filter_eq_nil_iff.mpr fun x hx hpx =>
    hbefore _ (List.mem_map_of_mem hx) _ List.mem_cons_self
      (hkey x (List.mem_append_left _ hx) hpx)
  have h₂ : l₂.filter p = [] := List.filter_eq_nil_iff.mpr fun x hx hpx =>
    hafter (hkey x (List.mem_append_right _ (List.mem_cons_of_mem a hx)) hpx ▸
      List.mem_map_of_mem hx)
  rw [List.filter_append, h₁, List.filter_cons_of_pos hp, h₂, List.nil_append]

namespace StepPlan

/-- A request is announced with its blocks, at most once in a step. -/
theorem loads_eq (h : plan.WellFormed) (ha : a ∈ plan.admitted) (hext : 0 < a.numExternalTokens) :
    plan.loads a.reqId = [a.blockIds.headD []] := by
  rw [loads, filter_eq_singleton Admission.reqId (List.Nodup.of_append_right h.nodup) ha
    (by simpa using hext) fun x _ hx => (of_decide_eq_true hx).1]
  rfl

/-- A plan that does not announce a request loads nothing for it. -/
theorem loads_eq_nil (h : ¬ plan.Announces r) : plan.loads r = [] := by
  rw [loads, List.filter_eq_nil_iff.mpr, List.map_nil]
  exact fun a ha hp => h ⟨a, ha, of_decide_eq_true hp⟩

/-- In a timely step every announced request is seen. -/
theorem mem_seen_of_timely (h : plan.Timely useV2) (ha : a ∈ plan.admitted)
    (hext : 0 < a.numExternalTokens) : a ∈ plan.seen useV2 := by
  cases hres : a.resumed with
  | false => exact mem_seen_of_new ha hres
  | true =>
    rw [mem_seen_iff_resumed ha hres]
    rcases h with hv2 | hrun | hnone
    · exact .inl hv2
    · exact .inr hrun
    · exact absurd (hnone a ha hres) hext.ne'

end StepPlan

/-- A step that starts without pending loads loads exactly what it announces when it is timely, and
only then. -/
theorem loadsExactly_iff_timely {reqMetas : List ReqMeta} (hplan : plan.WellFormed)
    (hmetas : ∀ r, (entries r reqMetas).map (·.blockIds) =
      ((plan.seen useV2).filter fun a => a.reqId = r ∧ plan.Announces r).map
        fun a => a.blockIds.headD []) :
    LoadsExactly plan reqMetas ↔ plan.Timely useV2 := by
  constructor
  · intro hexact
    by_contra hlate
    unfold StepPlan.Timely at hlate
    push Not at hlate
    obtain ⟨hv2, hrun, a, ha, hres, hext⟩ := hlate
    have hunseen : a ∉ plan.seen useV2 := by
      rw [StepPlan.mem_seen_iff_resumed ha hres]
      exact not_or.mpr ⟨hv2, hrun⟩
    have hone := hexact a.reqId
    rw [StepPlan.loads_eq hplan ha (Nat.pos_of_ne_zero hext), hmetas] at hone
    obtain ⟨x, hx, -⟩ := List.mem_map.mp (hone ▸ List.mem_singleton_self _)
    obtain ⟨hseen, hid⟩ := List.mem_filter.mp hx
    have hinj := List.inj_on_of_nodup_map (List.Nodup.of_append_right hplan.nodup)
      (StepPlan.seen_subset hseen) ha (of_decide_eq_true hid).1
    exact hunseen (hinj ▸ hseen)
  · intro htimely r
    rw [hmetas r]
    by_cases hann : plan.Announces r
    · obtain ⟨a, ha, rfl, hext⟩ := hann
      rw [StepPlan.loads_eq hplan ha hext, filter_eq_singleton Admission.reqId
        (StepPlan.seen_nodup hplan) (StepPlan.mem_seen_of_timely htimely ha hext)
        (decide_eq_true ⟨rfl, a, ha, rfl, hext⟩) fun x _ hx => (of_decide_eq_true hx).1]
      rfl
    · rw [StepPlan.loads_eq_nil hann, List.filter_eq_nil_iff.mpr, List.map_nil]
      exact fun a _ hp => hann (of_decide_eq_true hp).2

/-! ### Runs -/

variable {plans : List StepPlan} {metas : List (List ReqMeta)}

/-- A run of a consumer returns. -/
theorem consume_total (useV2 : Bool) (hcons : c.isProducer = false)
    (hplans : ∀ plan ∈ plans, plan.WellFormed) :
    ∃ metas c', Connector.consume useV2 plans c = .ok (metas, c') := by
  induction plans generalizing c with
  | nil => exact ⟨[], c, rfl⟩
  | cons plan plans ih =>
    obtain ⟨reqMetas, c₁, hstep, hcons₁, -⟩ :=
      Connector.consumeStep_spec useV2 hcons (hplans plan List.mem_cons_self)
    obtain ⟨rest, c', hrest⟩ := ih hcons₁ fun p hp => hplans p (List.mem_cons_of_mem plan hp)
    exact ⟨reqMetas :: rest, c',
      bind_eq_ok.mpr ⟨_, hstep, bind_eq_ok.mpr ⟨_, hrest, rfl⟩⟩⟩

/-- In a run from a consumer without pending loads all steps load exactly what they announce when
they are all timely, and only then. -/
theorem forall_loadsExactly_iff (hcons : c.isProducer = false)
    (hempty : ∀ r, r ∉ c.requestsNeedLoad.keys) (hplans : ∀ plan ∈ plans, plan.WellFormed)
    (h : Connector.consume useV2 plans c = .ok (metas, c')) :
    List.Forall₂ LoadsExactly plans metas ↔ ∀ plan ∈ plans, plan.Timely useV2 := by
  induction plans generalizing c metas with
  | nil =>
    cases h
    simp
  | cons plan plans ih =>
    have hplan := hplans plan List.mem_cons_self
    obtain ⟨reqMetas, c₁, hstep, hcons₁, hmetas, hkeys⟩ :=
      Connector.consumeStep_spec useV2 hcons hplan
    obtain ⟨⟨first, c₂⟩, hstep', h⟩ := bind_eq_ok.mp h
    cases hstep.symm.trans hstep'
    obtain ⟨⟨rest, c₃⟩, hrest, h⟩ := bind_eq_ok.mp h
    cases h
    have hannounced : ∀ r, r ∈ c.requestsNeedLoad.keys ∨ plan.Announces r ↔ plan.Announces r :=
      fun r => or_iff_right (hempty r)
    simp only [hannounced] at hmetas hkeys
    rw [List.forall₂_cons, List.forall_mem_cons, loadsExactly_iff_timely hplan hmetas]
    refine and_congr_right fun htimely => ih hcons₁ (fun r hr => ?_)
      (fun p hp => hplans p (List.mem_cons_of_mem plan hp)) hrest
    obtain ⟨⟨a, ha, rfl, hext⟩, hunseen⟩ := (hkeys r).mp hr
    exact hunseen (List.mem_map_of_mem (StepPlan.mem_seen_of_timely htimely ha hext))

/-- Steps that load exactly what they announce ask for a request as often as it is announced. -/
theorem timesListed_eq (h : List.Forall₂ LoadsExactly plans metas) (r : ReqId) :
    timesListed r metas = timesAnnounced r plans := by
  unfold timesListed timesAnnounced entries
  induction h with
  | nil => rfl
  | @cons plan reqMetas plans metas hfirst _ ih =>
    have hlen := congrArg List.length (hfirst r)
    rw [List.length_map] at hlen
    rw [List.flatten_cons, List.filter_append, List.length_append, List.flatMap_cons,
      List.length_append, ih, ← hlen]
    rfl

/-- In every run of a consumer, with admissions, preemptions and resumptions in any order: every
step lists exactly the requests it announces with external tokens, each once and with its
blocks, and no request is asked for more often than the producer's metadata sends it, exactly
when no step resumes a request with external tokens behind a running one and no request is
announced with external tokens more often than it is sent. -/
theorem loadsOnce_iff_timely (useV2 : Bool) (plans : List StepPlan)
    (produced : List (List ReqMeta)) (hplans : ∀ plan ∈ plans, plan.WellFormed) :
    ∃ metas c', Connector.consume useV2 plans { isProducer := false } = .ok (metas, c') ∧
      ((List.Forall₂ LoadsExactly plans metas ∧
          ∀ r, timesListed r metas ≤ timesListed r produced) ↔
        (∀ plan ∈ plans, plan.Timely useV2) ∧
          ∀ r, timesAnnounced r plans ≤ timesListed r produced) := by
  obtain ⟨metas, c', h⟩ := consume_total useV2 (c := { isProducer := false }) rfl hplans
  have hiff := forall_loadsExactly_iff rfl (by simp) hplans h
  refine ⟨metas, c', h, ?_⟩
  rw [← hiff]
  exact and_congr_right fun hexact => forall_congr' fun r => by rw [timesListed_eq hexact r]

/-! ### A resumption behind a running request -/

/-- A request with a prompt of four tokens, of which the consumer has none. -/
def admission (r : ReqId) (resumed : Bool) (blocks : List BlockId) : Admission where
  reqId := r
  resumed := resumed
  promptTokenIds := some [1, 2, 3, 4]
  allTokenIds := [1, 2, 3, 4]
  blockIds := [blocks]
  numComputedTokens := 3
  numExternalTokens :=
    (Connector.getNumNewMatchedTokens { isProducer := false } (some [1, 2, 3, 4]) 0).1
  numScheduledTokens := 1

/-- Two requests are admitted. -/
def bothAdmitted : StepPlan := { admitted := [admission 1 false [7], admission 2 false [8]] }

/-- The first one goes on; the second one is preempted. -/
def secondPreempted : StepPlan := { running := [(⟨1, none, 4⟩, 1)] }

/-- The first one goes on, and the second one is resumed. -/
def secondResumed : StepPlan :=
  { running := [(⟨1, none, 5⟩, 1)], admitted := [admission 2 true [9]] }

/-- What a producer sends of the two prompts. -/
def bothSent : List (List ReqMeta) := [[⟨1, [3], 4⟩, ⟨2, [4], 4⟩]]

/-- A request that is resumed behind a running one is not loaded in its step. -/
theorem resumed_not_loaded :
    (∀ plan ∈ [bothAdmitted, secondPreempted, secondResumed], plan.WellFormed) ∧
    ∃ metas c', Connector.consume false [bothAdmitted, secondPreempted, secondResumed]
        { isProducer := false } = .ok (metas, c') ∧
      ¬ (List.Forall₂ LoadsExactly [bothAdmitted, secondPreempted, secondResumed] metas ∧
        ∀ r, timesListed r metas ≤ timesListed r bothSent) := by
  have hplans : ∀ plan ∈ [bothAdmitted, secondPreempted, secondResumed], plan.WellFormed := by
    simp only [List.mem_cons, List.not_mem_nil, or_false, forall_eq_or_imp, forall_eq]
    exact ⟨⟨by decide, by decide⟩, ⟨by decide, by decide⟩, ⟨by decide, by decide⟩⟩
  refine ⟨hplans, _, _, rfl, fun ⟨hexact, _⟩ => ?_⟩
  obtain ⟨-, hexact⟩ := List.forall₂_cons.mp hexact
  obtain ⟨-, hexact⟩ := List.forall₂_cons.mp hexact
  obtain ⟨hthird, -⟩ := List.forall₂_cons.mp hexact
  have hnone : ([] : List (List BlockId)) = [[9]] := hthird 2
  cases hnone

/-- Two requests that are not preempted are loaded once each. -/
theorem loadsOnce_bothAdmitted : ∃ metas c',
    Connector.consume false [bothAdmitted, secondPreempted] { isProducer := false } =
        .ok (metas, c') ∧
      List.Forall₂ LoadsExactly [bothAdmitted, secondPreempted] metas ∧
      ∀ r, timesListed r metas ≤ timesListed r bothSent := by
  have hplans : ∀ plan ∈ [bothAdmitted, secondPreempted], plan.WellFormed := by
    simp only [List.mem_cons, List.not_mem_nil, or_false, forall_eq_or_imp, forall_eq]
    exact ⟨⟨by decide, by decide⟩, ⟨by decide, by decide⟩⟩
  obtain ⟨metas, c', h, hiff⟩ :=
    loadsOnce_iff_timely false [bothAdmitted, secondPreempted] bothSent hplans
  have hsent : ∀ r, timesAnnounced r [bothAdmitted, secondPreempted] ≤ timesListed r bothSent
    | 0 | 1 | 2 => by decide
    | r + 3 => by
      have hnone : timesAnnounced (r + 3) [bothAdmitted, secondPreempted] = 0 := rfl
      omega
  exact ⟨metas, c', h, hiff.mpr ⟨by decide, hsent⟩⟩

end RpsServe.P2p
