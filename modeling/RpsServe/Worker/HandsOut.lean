import RpsServe.Scheduler.BlockTables
import RpsServe.Scheduler.Leaving
import RpsServe.Worker.UpdateStates

/-!
# What a step hands out

The output of an orderly step, compared with the states before and after it, without a KV
connector: the entries of a running request carry the blocks that it was given, those of a new
or resumed one all of its blocks.
-/

namespace RpsServe

/-- Appending no blocks. -/
theorem extendBlockIds_of_empty {blocks : KVCacheBlocks} (h : blocks.all List.isEmpty = true)
    (blockIds : KVCacheBlocks) : extendBlockIds blockIds blocks = blockIds := by
  induction blockIds generalizing blocks with
  | nil => cases blocks <;> rfl
  | cons ids blockIds ih =>
    cases blocks with
    | nil => rfl
    | cons newIds blocks =>
      rw [List.all_cons, Bool.and_eq_true, List.isEmpty_iff] at h
      rw [extendBlockIds, ih h.2, h.1, List.append_nil]

/-- Leaving out empty blocks makes no difference to what is appended. -/
theorem extendBlockIds_blockIdsOrNone (blockIds blocks : KVCacheBlocks) :
    extendBlockIds blockIds ((LoopState.blockIdsOrNone blocks).getD []) =
      extendBlockIds blockIds blocks := by
  unfold LoopState.blockIdsOrNone
  split
  · rename_i h
    rw [extendBlockIds_of_empty h]
    exact extendBlockIds_of_empty rfl blockIds
  · rfl

/-- Leaving out empty blocks adds none. -/
theorem flatten_blockIdsOrNone_subset (blocks : KVCacheBlocks) :
    ((LoopState.blockIdsOrNone blocks).getD []).flatten ⊆ blocks.flatten := by
  unfold LoopState.blockIdsOrNone
  split
  · exact List.nil_subset _
  · exact List.Subset.refl _

/-- Zipping with an image pairs every entry with its own. -/
theorem zip_map_self {α β : Type*} (f : α → β) (l : List α) :
    l.zip (l.map f) = l.map fun a => (a, f a) := by
  induction l with
  | nil => rfl
  | cons a l ih => rw [List.map_cons, List.zip_cons_cons, ih, List.map_cons]

namespace LoopState

variable {K E : Type} {ls : LoopState K E}

/-- The entry of a request among those that the workers know. -/
def cachedEntry (ls : LoopState K E) (r : ReqId) : CachedRequestEntry where
  reqId := r
  newBlockIds := blockIdsOrNone ((ls.reqToNewBlocks.get? r).getD [])
  numComputedTokens := (ls.req r).numComputedTokens
  numOutputTokens := (ls.req r).numOutputTokens + (ls.req r).numOutputPlaceholders

/-- The cached request data have one entry for each running and resumed request. -/
theorem makeCachedRequestData_items {resumedReqs : List ReqId} {data : CachedRequestData}
    (h : ls.makeCachedRequestData resumedReqs = .ok data) :
    data.items = (ls.scheduledRunningReqs ++ resumedReqs).map ls.cachedEntry := by
  unfold makeCachedRequestData at h
  dsimp only at h
  split at h
  · cases h
  · obtain ⟨blocks, hblocks, h⟩ := bind_eq_ok.mp h
    cases h
    have hmap := eq_map_of_mapM_eq_ok (g := fun r => (ls.reqToNewBlocks.get? r).getD []) hblocks
      fun r blocks hr => by
        unfold newBlocksOf at hr
        split at hr
        · rename_i hget
          cases hr
          rw [hget, Option.getD_some]
        · cases hr
    rw [hmap, CachedRequestData.items, List.map_map, zip_map_self, List.zip_map', List.zip_map',
      List.map_map]
    rfl

end LoopState

namespace Scheduler

open KVCacheManager (getBlocks)

variable {K E : Type} [KVCacheManager K] {cfg : Config} {env : StepEnv} {s s' : Scheduler K E}
  {ls : LoopState K E} {out : SchedulerOutput}

/-- The entries of the output. With the V2 model runner resumed requests are sent like new ones. -/
theorem finishStep_entries [EncoderCache E] (h : finishStep cfg ls = .ok (out, s')) :
    ∃ newReqs resumedReqs : List ReqId,
      (newReqs = ls.scheduledNewReqs ∧ resumedReqs = ls.scheduledResumedReqs ∨
        newReqs = ls.scheduledNewReqs ++ ls.scheduledResumedReqs ∧ resumedReqs = []) ∧
      out.scheduledNewReqs.map NewRequestData.reqId = newReqs ∧
      (∀ d ∈ out.scheduledNewReqs, ls.reqToNewBlocks.get? d.reqId = some d.blockIds ∧
        d.numComputedTokens = (ls.req d.reqId).numComputedTokens) ∧
      out.scheduledCachedReqs.items =
        (ls.scheduledRunningReqs ++ resumedReqs).map ls.cachedEntry ∧
      out.scheduledCachedReqs.resumedReqIds = resumedReqs.toFinset := by
  obtain ⟨⟨running, waiting⟩, -, h⟩ := bind_eq_ok.mp h
  obtain ⟨⟨⟩, -, h⟩ := bind_eq_ok.mp h
  obtain ⟨⟨out', s₁⟩, hmake, h⟩ := bind_eq_ok.mp h
  obtain ⟨s₂, -, h⟩ := bind_eq_ok.mp h
  cases h
  obtain ⟨newReqsData, hnew, hmake⟩ := bind_eq_ok.mp hmake
  obtain ⟨cachedReqsData, hcached, hmake⟩ := bind_eq_ok.mp hmake
  cases hmake
  have hdata : ∀ r data, ls.newRequestData r = .ok data → data.reqId = r ∧
      ls.reqToNewBlocks.get? r = some data.blockIds ∧
      data.numComputedTokens = (ls.req r).numComputedTokens := by
    intro r data hr
    obtain ⟨blocks, hblocks, hr⟩ := bind_eq_ok.mp hr
    cases hr
    unfold LoopState.newBlocksOf at hblocks
    split at hblocks
    · rename_i hget
      cases hblocks
      exact ⟨rfl, hget, rfl⟩
    · cases hblocks
  refine ⟨_, _, ?_, map_of_mapM_eq_ok hnew fun r data hr => (hdata r data hr).1, fun d hd => ?_,
    LoopState.makeCachedRequestData_items hcached, (makeCachedRequestData_ids hcached).2⟩
  · split
    · exact .inr ⟨rfl, rfl⟩
    · exact .inl ⟨rfl, rfl⟩
  · obtain ⟨r, -, hr⟩ := mem_of_mapM_eq_ok hnew hd
    obtain ⟨hid, hget, hcomputed⟩ := hdata r d hr
    rw [hid]
    exact ⟨hget, hcomputed⟩

/-- The request's computed tokens before and after the step. -/
def Advances (out : SchedulerOutput) (s' : Scheduler K E) (r : ReqId)
    (numComputedTokens : ℤ) : Prop :=
  ∀ n, out.numScheduledTokens.get? r = some n →
    (s'.req r).numComputedTokens = numComputedTokens + n

/-- Work in flight only adds placeholders. -/
theorem numOutputPlaceholders_le_advanceRequest (cfg : Config) (n : ℤ) (k : ℕ) (q : Request) :
    q.numOutputPlaceholders ≤ (advanceRequest cfg n k q).numOutputPlaceholders := by
  unfold advanceRequest
  dsimp only
  split
  · dsimp only
    omega
  · exact le_rfl

/-- What the output of the step from `s` to `s'` says of the blocks, and what the step leaves. -/
structure HandsOut (cfg : Config) (J : K → Prop) (s : Scheduler K E) (out : SchedulerOutput)
    (s' : Scheduler K E) : Prop where
  wellFormed : ModelRunner.WellFormed out
  room : out.numScheduledTokens.keys.length ≤ cfg.maxNumRunningReqs
  kv : J s'.kv
  tracking : s'.Tracking
  finishedReqIds : out.finishedReqIds = s.finishedReqIds
  noneFinished : s'.finishedReqIds = ∅
  keys : s'.objs.keys = s.objs.keys
  payload : ∀ r, (s'.req r).payload = (s.req r).payload
  content : ∀ r, (s'.req r).content = (s.req r).content
  plain : ∀ r, (s.req r).Plain → (s'.req r).Plain
  scheduled : ∀ r ∈ out.numScheduledTokens.keys, (s'.req r).status = .running
  new : ∀ d ∈ out.scheduledNewReqs,
    d.blockIds = getBlocks s'.kv d.reqId ∧ Advances out s' d.reqId d.numComputedTokens
  resumed : ∀ e ∈ out.scheduledCachedReqs.items, e.reqId ∈ out.scheduledCachedReqs.resumedReqIds →
    (s.req e.reqId).Announced ∧ e.newBlockIds = some (getBlocks s'.kv e.reqId)
  running : ∀ e ∈ out.scheduledCachedReqs.items, e.reqId ∉ out.scheduledCachedReqs.resumedReqIds →
    (s.req e.reqId).status = .running ∧ getBlocks s'.kv e.reqId =
      extendBlockIds (getBlocks s.kv e.reqId) (e.newBlockIds.getD []) ∧
      (e.newBlockIds.getD []).flatten ⊆ (getBlocks s'.kv e.reqId).flatten
  progress : ∀ e ∈ out.scheduledCachedReqs.items, Advances out s' e.reqId e.numComputedTokens
  outputs : ∀ e ∈ out.scheduledCachedReqs.items,
    e.numOutputTokens ≤ (s'.req e.reqId).numOutputTokens + (s'.req e.reqId).numOutputPlaceholders
  unscheduled : ∀ r ∉ out.numScheduledTokens.keys, (s'.req r).status = .running →
    (s.req r).status = .running ∧ getBlocks s'.kv r = getBlocks s.kv r
  preempted : ∀ r, (s'.req r).status = .preempted →
    (s.req r).Announced ∧ (s'.req r).numComputedTokens = 0
  resting : ∀ r, (s'.req r).Resting →
    (s.req r).Resting ∧ getBlocks s'.kv r = getBlocks s.kv r ∨ (getBlocks s'.kv r).flatten = []
  freed : ∃ freed, StepCalls s.kv freed s'.kv ∧ freed.Nodup ∧
    ∀ r, r ∈ freed ↔ (s.req r).status = .running ∧ (s'.req r).status = .preempted

variable [AppendingKVCacheManager K] [EncoderCache E] {J : K → Prop}

/-- A step hands out all that a worker needs to follow it. -/
theorem schedule_handsOut (hrule : KVRule cfg s.hashes J) (hc : cfg.connector = false)
    (hs : J s.kv) (ht : s.Tracking) (hnamed : Named s)
    (hrewound : ∀ r, (s.req r).Rewound) (h : Coherent s)
    (hgood : StepMeets LoopState.Orderly cfg env s)
    (hschedule : schedule cfg env s = .ok (out, s')) : HandsOut cfg J s out s' := by
  have hsets := setsAgree_of_orderly h hgood hschedule
  have hhand := schedule_handsOver h.nodup hschedule
  have hframe := schedule_frame h.nodup hschedule
  obtain ⟨ls, hwalked, hfinish⟩ := schedule_eq_ok hschedule
  have htab := hwalked.tabled hrule hc hs ht hnamed hrewound h hgood
  have hw := hwalked.walking h hgood
  obtain ⟨ls₀, hbegin, hmoves⟩ := hwalked.moves h.nodup
    (fun _ _ _ _ => trivial : StepMeets (fun _ => True) cfg env s)
  obtain ⟨objs, requests, hsame, -, -, rfl⟩ := beginStep_eq_ok hbegin
  have hfin := finishStep_spec hfinish
  obtain ⟨newReqs, resumedReqs, hsent, hnewIds, hnew, hitems, hresumedIds⟩ :=
    finishStep_entries hfinish
  have hblocks : ∀ r, getBlocks s'.kv r = getBlocks ls.sch.kv r := by
    intro r
    rw [hfin.kv]
    split
    · exact LawfulKVCacheManager.getBlocks_takeNewBlockIds _ r
    · rfl
  have hkeys : ∀ r, r ∈ out.numScheduledTokens.keys ↔ r ∈ ls.scheduledReqs := fun r => by
    rw [hfin.numScheduledTokens]
    exact hw.scheduledKeys r
  have hadvance : ∀ r, Advances out s' r (ls.req r).numComputedTokens := by
    intro r n hn
    rw [hfin.numScheduledTokens] at hn
    have hmem : r ∈ ls.scheduledReqs := (hw.scheduledKeys r).mp (Dict.mem_keys_of_get? hn)
    have hk := LoopState.known_of_running ((hw.status r).mpr (hw.scheduled r hmem).1)
    rw [(hfin.scheduled r n (Dict.mem_entries_of_get? hn)).2 hk]
    obtain ⟨_, _, _, hadv⟩ := advanceRequest_eq cfg n
      ((ls.scheduledSpecDecodeTokens.get? r).getD []).length (ls.req r)
    rw [hadv]
  have houtputs : ∀ r ∈ ls.scheduledReqs, (ls.cachedEntry r).numOutputTokens ≤
      (s'.req r).numOutputTokens + (s'.req r).numOutputPlaceholders := by
    intro r hmem
    obtain ⟨n, hn⟩ := Option.isSome_iff_exists.mp
      ((Dict.isSome_get? _ _).mpr ((hw.scheduledKeys r).mpr hmem))
    have hk := LoopState.known_of_running ((hw.status r).mpr (hw.scheduled r hmem).1)
    have hle := numOutputPlaceholders_le_advanceRequest cfg n
      ((ls.scheduledSpecDecodeTokens.get? r).getD []).length (ls.req r)
    have hsame : (s'.req r).numOutputTokens = (ls.req r).numOutputTokens :=
      hfin.keeps (g := Request.numOutputTokens) (fun _ _ _ _ _ => rfl) r
    rw [← (hfin.scheduled r n (Dict.mem_entries_of_get? hn)).2 hk] at hle
    rw [hsame]
    exact Int.add_le_add_left hle _
  have hpayload : ∀ r, (s'.req r).payload = (s.req r).payload := by
    intro r
    obtain ⟨_, _, _, _, hinputs⟩ := hmoves.frame.inputs r
    obtain ⟨p, hp⟩ := hsame.req r
    rw [hfin.keeps (g := Request.payload) (fun _ _ _ _ _ => rfl), hinputs, LoopState.req, req, hp]
    rfl
  have hplain : ∀ r, (s'.req r).Plain = (ls.req r).Plain :=
    hfin.keeps (g := Request.Plain) fun _ _ _ _ _ => rfl
  have hlen : out.numScheduledTokens.keys.length ≤ cfg.maxNumRunningReqs := by
    have hsub : out.numScheduledTokens.keys ⊆ s'.running := fun r hr => (hsets.scheduled r hr).2
    have hle := ((Dict.keys_nodup _).subperm hsub).length_le
    have hcheck := hfin.checked
    unfold LoopState.checkConstraints at hcheck
    split_ifs at hcheck
    omega
  have hids : ∀ e ∈ out.scheduledCachedReqs.items, ∃ r, e = ls.cachedEntry r ∧
      (r ∈ ls.scheduledRunningReqs ∨ r ∈ resumedReqs) := by
    intro e he
    rw [hitems] at he
    obtain ⟨r, hr, rfl⟩ := List.mem_map.mp he
    exact ⟨r, rfl, List.mem_append.mp hr⟩
  have hcachedIds : out.scheduledCachedReqs.items.map CachedRequestEntry.reqId =
      ls.scheduledRunningReqs ++ resumedReqs := by
    rw [hitems, List.map_map]
    exact List.map_id _
  have hperm : (newReqs ++ (ls.scheduledRunningReqs ++ resumedReqs)).Perm ls.scheduledReqs := by
    rw [LoopState.scheduledReqs]
    rcases hsent with ⟨rfl, rfl⟩ | ⟨rfl, rfl⟩
    · rw [List.append_assoc]
      exact List.perm_append_comm.append_left _
    · rw [List.append_nil]
  have hsentNew : ∀ r ∈ newReqs, r ∈ ls.scheduledNewReqs ∨ r ∈ ls.scheduledResumedReqs := by
    rcases hsent with ⟨rfl, -⟩ | ⟨rfl, -⟩
    · exact fun _ => .inl
    · exact fun _ => List.mem_append.mp
  have hsentResumed : resumedReqs ⊆ ls.scheduledResumedReqs := by
    rcases hsent with ⟨-, rfl⟩ | ⟨-, rfl⟩
    · exact List.Subset.refl _
    · exact List.nil_subset _
  exact {
    wellFormed := by
      refine ⟨?_, fun r => ?_⟩
      · rw [hnewIds, hcachedIds]
        exact hperm.nodup_iff.mpr hw.scheduledNodup
      · rw [hnewIds, hcachedIds, ← List.mem_append, hperm.mem_iff]
        exact hkeys r
    room := hlen
    kv := by
      rw [hfin.kv]
      split
      · exact hrule.takeNewBlockIds htab.kv
      · exact htab.kv
    tracking := fun r hr => by
      rw [hfin.status] at hr
      rw [hfin.kv]
      split
      · exact (htab.hasSlots r hr).takeNewBlockIds
      · exact htab.hasSlots r hr
    finishedReqIds := hhand.1
    noneFinished := hhand.2
    keys := hframe.keys
    payload := hpayload
    content := fun r =>
      (hfin.keeps (g := Request.content) (fun _ _ _ _ _ => rfl) r).trans (htab.keeps r).content
    plain := fun r hr => (hplain r).mpr ((htab.keeps r).plain hr)
    scheduled := fun r hr => (hsets.scheduled r hr).1
    new := fun d hd => by
      obtain ⟨hget, hcomputed⟩ := hnew d hd
      have hmem : d.reqId ∈ newReqs := hnewIds ▸ List.mem_map_of_mem hd
      have hall : ls.reqToNewBlocks.get? d.reqId = some (getBlocks ls.sch.kv d.reqId) :=
        (hsentNew d.reqId hmem).elim (htab.new d.reqId) fun hres => (htab.resumed d.reqId hres).2.1
      rw [hall, Option.some.injEq] at hget
      rw [hcomputed, hblocks]
      exact ⟨hget.symm, hadvance d.reqId⟩
    resumed := fun e he hres => by
      obtain ⟨r, rfl, -⟩ := hids e he
      rw [hresumedIds, List.mem_toFinset] at hres
      obtain ⟨hannounced, hget, hne⟩ := htab.resumed r (hsentResumed hres)
      refine ⟨hannounced, ?_⟩
      rw [LoopState.cachedEntry, hget, Option.getD_some, hblocks, LoopState.blockIdsOrNone,
        if_neg hne]
    running := fun e he hres => by
      obtain ⟨r, rfl, hr⟩ := hids e he
      rw [hresumedIds, List.mem_toFinset] at hres
      obtain ⟨hrun, blocks, hget, hext, hsub⟩ := htab.running r (hr.resolve_right hres)
      have hnew : (ls.cachedEntry r).newBlockIds = LoopState.blockIdsOrNone blocks := by
        rw [LoopState.cachedEntry, hget, Option.getD_some]
      rw [hnew, extendBlockIds_blockIdsOrNone]
      refine ⟨hrun, (hblocks r).trans hext, fun b hb => ?_⟩
      exact (congrArg List.flatten (hblocks r)).symm ▸ hsub (flatten_blockIdsOrNone_subset blocks hb)
    progress := fun e he => by
      obtain ⟨r, rfl, -⟩ := hids e he
      exact hadvance r
    outputs := fun e he => by
      obtain ⟨r, rfl, hr⟩ := hids e he
      refine houtputs r (hperm.mem_iff.mp ?_)
      exact List.mem_append_right _ (List.mem_append.mpr hr)
    unscheduled := fun r hr hrun => by
      rw [hfin.status] at hrun
      rw [hblocks]
      exact htab.unscheduled r hrun fun hmem => hr ((hkeys r).mpr hmem)
    preempted := fun r hr => by
      have hnot : r ∉ ls.numScheduledTokens.keys := fun hmem => by
        rw [(hsets.scheduled r (by rwa [hfin.numScheduledTokens])).1] at hr
        cases hr
      rw [hfin.unscheduled r hnot] at hr ⊢
      exact htab.preempted r hr
    resting := fun r hr => by
      rw [Request.Resting, hfin.status] at hr
      rw [hblocks]
      exact htab.resting r hr
    freed := by
      refine ⟨ls.preemptedReqs, ?_, htab.once, fun r => ?_⟩
      · rw [hfin.kv]
        split
        · exact htab.calls.takeNewBlockIds
        · exact htab.calls
      · rw [hfin.status]
        exact htab.listed r }

end Scheduler

end RpsServe
