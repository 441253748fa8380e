import RpsServe.Worker.MultiModal
import RpsServe.Scheduler.Granting
import RpsServe.KVCache.SharedBlocks

/-!
# The encoder cache of a worker

The scheduler decides from its own book of cached items which of them a worker has to compute,
and a worker only drops the outputs that it is told to drop. Whatever happens between the steps, a
worker that prepared the inputs of all earlier ones holds every output that the next one reads.
-/

namespace RpsServe

/-- The sum of the values, key after key. -/
theorem Dict.values_sum_keys {α : Type*} [DecidableEq α] (d : Dict α ℤ) :
    d.values.sum = (d.keys.map fun k => (d.get? k).getD 0).sum := by
  rw [Dict.values, Dict.keys, List.map_map]
  refine congrArg List.sum (List.map_congr_left fun e he => ?_)
  rw [Function.comp_apply, Dict.get?_of_mem_entries he, Option.getD_some]

/-- The requests of a batch without empty rows, one after the other. -/
theorem InputBatch.exists_rows {b : InputBatch} (h : b.WellFormed) (hs : b.Settled) :
    ∃ rows : List ReqId, b.reqIds = rows.map some ∧ rows.Nodup ∧
      ∀ r, r ∈ rows ↔ (b.rowOf r).isSome := by
  have hfull : ∀ x ∈ b.reqIds, x.isSome := by
    intro x hx
    obtain ⟨i, hi⟩ := List.mem_iff_getElem?.mp hx
    cases x with
    | some r => rfl
    | none =>
      have hempty := (h.empty i).mpr hi
      rw [hs] at hempty
      cases hempty
  have hrows : b.reqIds = (b.reqIds.filterMap id).map some := by
    generalize b.reqIds = l at hfull
    induction l with
    | nil => rfl
    | cons x l ih =>
      obtain ⟨r, rfl⟩ := Option.isSome_iff_exists.mp (hfull x List.mem_cons_self)
      exact congrArg (some r :: ·) (ih fun y hy => hfull y (List.mem_cons_of_mem _ hy))
  have hat : ∀ i r, (b.reqIds.filterMap id)[i]? = some r ↔ b.reqIdToIndex.get? r = some i := by
    intro i r
    rw [h.index r i, hrows, List.getElem?_map, List.filterMap_map]
    simp
  refine ⟨_, hrows, ?_, fun r => ?_⟩
  · rw [List.nodup_iff_getElem?_ne_getElem?]
    intro i j hij hj heq
    have hget := List.getElem?_eq_getElem hj
    have hi := (hat i _).mp (heq.trans hget)
    rw [(hat j _).mp hget] at hi
    exact absurd (Option.some.inj hi) (by omega)
  · rw [InputBatch.isSome_rowOf, ← Dict.isSome_get?, Option.isSome_iff_exists,
      List.mem_iff_getElem?]
    exact exists_congr fun i => hat i r

namespace ModelRunner

variable {w : ModelRunner} {out : SchedulerOutput}

/-- The hashes of the scheduled items. -/
theorem batchMmInputs_ok
    (h : ∀ r is, out.scheduledEncoderInputs.get? r = some is →
      ∃ st, w.requests.get? r = some st ∧ ∀ i ∈ is, i < st.mmFeatures.length) :
    ∃ hashes, w.batchMmInputsFromScheduler out = .ok hashes ∧
      ∀ r is st, out.scheduledEncoderInputs.get? r = some is → w.requests.get? r = some st →
        ∀ i ∈ is, ∀ f, st.mmFeatures[i]? = some f → f.identifier ∈ hashes := by
  have hitems : ∀ (st : CachedRequestState) (is : List ℕ), (∀ i ∈ is, i < st.mmFeatures.length) →
      ∃ hashes, itemHashes st is = .ok hashes := by
    refine fun st is his => mapM_total fun i hi => ?_
    rw [List.getElem?_eq_getElem (his i hi)]
    exact ⟨_, rfl⟩
  obtain ⟨hashes, hmap⟩ : ∃ hashes,
      out.scheduledEncoderInputs.entries.mapM w.reqItemHashes = .ok hashes := by
    refine mapM_total fun e he => ?_
    obtain ⟨st, hst, his⟩ := h e.1 e.2 (Dict.get?_of_mem_entries he)
    rw [reqItemHashes, hst]
    exact hitems st e.2 his
  refine ⟨hashes.flatten, bind_eq_ok.mpr ⟨_, hmap, rfl⟩, fun r is st his hst i hi f hf => ?_⟩
  obtain ⟨one, hone, heq⟩ := exists_of_mapM_eq_ok hmap (Dict.mem_entries_of_get? his)
  rw [reqItemHashes, hst] at heq
  obtain ⟨x, hx, hxf⟩ := exists_of_mapM_eq_ok heq hi
  rw [hf] at hxf
  cases hxf
  exact List.mem_flatten.mpr ⟨one, hone, hx⟩

end ModelRunner

namespace Scheduler

variable {K : Type} [KVCacheManager K] {cfg : Config} {env : StepEnv}

/-- The total of a step is that of its requests. -/
theorem schedule_total {E : Type} [EncoderCache E] {s s' : Scheduler K E} {out : SchedulerOutput}
    (h : schedule cfg env s = .ok (out, s')) :
    out.totalNumScheduledTokens = out.numScheduledTokens.values.sum := by
  obtain ⟨ls, -, hfinish⟩ := schedule_eq_ok h
  obtain ⟨⟨running, waiting⟩, -, h⟩ := bind_eq_ok.mp hfinish
  obtain ⟨⟨⟩, -, h⟩ := bind_eq_ok.mp h
  obtain ⟨⟨out', s₁⟩, hmake, h⟩ := bind_eq_ok.mp h
  obtain ⟨s₂, -, h⟩ := bind_eq_ok.mp h
  cases h
  unfold makeOutput at hmake
  obtain ⟨newReqsData, hnew, hmake⟩ := bind_eq_ok.mp hmake
  obtain ⟨cachedReqsData, hcached, hmake⟩ := bind_eq_ok.mp hmake
  cases hmake
  rfl

end Scheduler

namespace Request

variable {blockHasher : Request → List BlockHash} {F : Request → Prop} {P : List MmFeature → Prop}

/-- A request that is no streaming session keeps its items. -/
theorem GrowRule.withItems (hrule : GrowRule blockHasher F) :
    GrowRule blockHasher fun q => F q ∧ q.Plain ∧ P q.mmFeatures where
  same {q q'} h hc hp := by
    obtain ⟨hF, hplain, hP⟩ := h
    have hitems : q'.mmFeatures = q.mmFeatures := congrArg Content.mmFeatures hc
    exact ⟨hrule.same hF hc hp, hp hplain, hitems ▸ hP⟩
  append {q q'} token h hc hp := by
    obtain ⟨hF, hplain, hP⟩ := h
    have hitems : q'.mmFeatures = q.mmFeatures := congrArg Content.mmFeatures hc
    exact ⟨hrule.append token hF hc hp, hp hplain, hitems ▸ hP⟩
  session _ h hsession := absurd h.2.1 hsession

end Request

/-- The items of a request can be walked over: they are not empty and stand in order. -/
structure Walkable (items : List MmFeature) : Prop where
  sorted : items.Pairwise fun f g => f.offset ≤ g.offset
  length : ∀ f ∈ items, 0 < f.length

/-- Items are walkable when they are sorted by offset and none is empty. -/
theorem walkable_iff {items : List MmFeature} : Walkable items ↔
    (items.Pairwise fun f g => f.offset ≤ g.offset) ∧ ∀ f ∈ items, 0 < f.length :=
  ⟨fun h => ⟨h.sorted, h.length⟩, fun h => ⟨h.1, h.2⟩⟩

instance : DecidablePred Walkable := fun _ => decidable_of_iff _ walkable_iff.symm

/-! ### The worker's encoder cache -/

namespace ModelRunner

/-- The worker after the outputs of the log, for all of which it prepared the inputs. -/
inductive Prepared (threshold : Option ℤ) (maxNumReqs : ℕ) : StepLog → ModelRunner → Prop
  | init : Prepared threshold maxNumReqs [] (.init maxNumReqs)
  | prepare {log : StepLog} {w w' : ModelRunner} {out : SchedulerOutput} {obj : ReqId → Request}
      {g : Option MmEmbeddings} : Prepared threshold maxNumReqs log w →
      w.prepareMultiModal threshold obj out = .ok (g, w') →
      Prepared threshold maxNumReqs (log ++ [(out, obj)]) w'
  | sample {log : StepLog} {w : ModelRunner} (sampled : ReqId → List Token) :
      Prepared threshold maxNumReqs log w →
      Prepared threshold maxNumReqs log (w.appendSampled sampled)

variable {threshold : Option ℤ} {maxNumReqs : ℕ} {log : StepLog} {w w' : ModelRunner}

/-- A worker that prepared nothing. -/
theorem Prepared.rule_init {I : ModelRunner → Prop} (h : Prepared threshold maxNumReqs [] w)
    (hinit : I (.init maxNumReqs)) (hsample : ∀ w sampled, I w → I (w.appendSampled sampled)) :
    I w := by
  generalize hlog : ([] : StepLog) = log at h
  induction h with
  | init => exact hinit
  | prepare => simp at hlog
  | sample sampled _ ih => exact hsample _ sampled (ih hlog)

/-- A worker after one more output. -/
theorem Prepared.rule_prepare {I : ModelRunner → Prop} {out : SchedulerOutput}
    {obj : ReqId → Request} (h : Prepared threshold maxNumReqs (log ++ [(out, obj)]) w)
    (hprepare : ∀ w w' g, Prepared threshold maxNumReqs log w →
      w.prepareMultiModal threshold obj out = .ok (g, w') → I w')
    (hsample : ∀ w sampled, I w → I (w.appendSampled sampled)) : I w := by
  generalize hlog : log ++ [(out, obj)] = log' at h
  induction h with
  | init => simp at hlog
  | @prepare log' w w' out' obj' g hw hprep _ =>
    obtain ⟨rfl, hlast⟩ := List.append_inj' hlog rfl
    cases hlast
    exact hprepare w w' g hw hprep
  | sample sampled _ ih => exact hsample _ sampled (ih hlog)

end ModelRunner

namespace Scheduler

open ModelRunner

variable {K : Type} [KVCacheManager K] {cfg : Config} {s s' : Scheduler K EncoderCacheManager}
  {out : SchedulerOutput} {w w' : ModelRunner} {threshold : Option ℤ} {J : K → Prop}

/-- The embeddings that the requests `rows` need in the step after which the scheduler is in `s`. -/
def neededEmbeddings (s : Scheduler K EncoderCacheManager) (out : SchedulerOutput)
    (rows : List ReqId) : MmEmbeddings :=
  gatheredRows (fun r => (s.req r).mmFeatures)
    (fun r => (s.req r).numComputedTokens - (out.numScheduledTokens.get? r).getD 0)
    (fun r => (out.numScheduledTokens.get? r).getD 0) rows

/-- What stands for the tokens of these requests in the step. -/
def neededRows (s : Scheduler K EncoderCacheManager) (out : SchedulerOutput)
    (rows : List ReqId) : List (Option (MmHash × ℤ)) :=
  batchEmbeds (fun r => (s.req r).mmFeatures)
    (fun r => (s.req r).numComputedTokens - (out.numScheduledTokens.get? r).getD 0)
    (fun r => (out.numScheduledTokens.get? r).getD 0) rows

/-- What a worker has prepared after it was handed the output of a step: it has a row for every
scheduled request, and the embeddings for their tokens. -/
structure PreparesStep (s' : Scheduler K EncoderCacheManager) (out : SchedulerOutput)
    (g : Option MmEmbeddings) (w' : ModelRunner) : Prop where
  rows : ∃ rows : List ReqId, w'.inputBatch.reqIds = rows.map some ∧
    rows.Perm out.numScheduledTokens.keys ∧
      g = if rows = [] then none else some (neededEmbeddings s' out rows)
  cached : ∀ h ∈ s'.enc.cached.keys, h ∈ w'.encoderCache

/-- The worker's states show the items and the progress of the scheduled requests. -/
def ShowsItems (s' : Scheduler K EncoderCacheManager) (out : SchedulerOutput) (w : ModelRunner) :
    Prop :=
  ∀ r ∈ out.numScheduledTokens.keys, ∃ st, w.requests.get? r = some st ∧
    st.mmFeatures = (s'.req r).mmFeatures ∧
      st.numComputedTokens = (s'.req r).numComputedTokens - (out.numScheduledTokens.get? r).getD 0

/-- The applied output shows the worker the items of the scheduled requests. -/
theorem Knows.showsItems (h : Knows cfg s w) (hout : HandsOut cfg J s out s')
    (happlied : Applied s'.req out w w') : ShowsItems s' out w' := by
  intro r hr
  obtain ⟨st, hst, hshow⟩ := h.showsRequest hout happlied hr
  obtain ⟨n, hn⟩ := Option.isSome_iff_exists.mp ((Dict.isSome_get? _ _).mpr hr)
  have hadv := hshow.advances n hn
  rw [hn, Option.getD_some]
  exact ⟨st, hst, congrArg Payload.mmFeatures hshow.payload, by omega⟩

omit [KVCacheManager K] in
/-- The worker computes what the step schedules, and then holds what the scheduler counts as
cached. -/
theorem ShowsItems.executes {W : Finset MmHash} (h : ShowsItems s' out w)
    (hsup : Supplies W s out s') (hcache : w.encoderCache = W \ out.freeEncoderMmHashes.toFinset) :
    ∃ W', w.executeMmEncoder out = .ok { w with encoderCache := W' } ∧
      ∀ a ∈ s'.enc.cached.keys, a ∈ W' := by
  have hknown : ∀ r is, out.scheduledEncoderInputs.get? r = some is →
      ∃ st, w.requests.get? r = some st ∧ st.mmFeatures = (s.req r).mmFeatures := by
    intro r is his
    obtain ⟨st, hst, hfeatures, -⟩ := h r (hsup.scheduled r (Dict.mem_keys_of_get? his))
    exact ⟨st, hst, hfeatures.trans (hsup.items r)⟩
  obtain ⟨hashes, hbatch, hhashes⟩ : ∃ hashes,
      w.batchMmInputsFromScheduler out = .ok hashes ∧ _ := batchMmInputs_ok fun r is his => by
    obtain ⟨st, hst, hfeatures⟩ := hknown r is his
    refine ⟨st, hst, fun i hi => ?_⟩
    rw [hfeatures]
    exact hsup.known r is his i hi
  refine ⟨w.encoderCache ∪ hashes.toFinset, bind_eq_ok.mpr ⟨hashes, hbatch, rfl⟩, fun a ha => ?_⟩
  rw [Finset.mem_union, hcache, Finset.mem_sdiff, List.mem_toFinset, List.mem_toFinset]
  refine (hsup.cached a ha).imp_right ?_
  rintro ⟨r, is, his, i, hi, rfl⟩
  obtain ⟨st, hst, hfeatures⟩ := hknown r is his
  have hlt : i < (s.req r).mmFeatures.length := hsup.known r is his i hi
  rw [Request.mmHash, List.getElem?_map, List.getElem?_eq_getElem hlt, Option.map_some,
    Option.getD_some]
  refine hhashes r is st his hst i hi _ ?_
  rw [hfeatures, List.getElem?_eq_getElem hlt]

omit [KVCacheManager K] in
/-- Everything is there for gathering the rows of a scheduled request. -/
theorem ShowsItems.ready {W W' : Finset MmHash} (h : ShowsItems s' out w)
    (hsup : Supplies W s out s') (hcached : ∀ a ∈ s'.enc.cached.keys, a ∈ W')
    (hpos : ∀ r n, out.numScheduledTokens.get? r = some n → 0 < n)
    (hwalkable : ∀ r, Walkable (s'.req r).mmFeatures) {r : ReqId}
    (hr : r ∈ out.numScheduledTokens.keys) :
    RowReady { w with encoderCache := W' } out (s'.req r).mmFeatures
      ((s'.req r).numComputedTokens - (out.numScheduledTokens.get? r).getD 0)
      ((out.numScheduledTokens.get? r).getD 0) r := by
  obtain ⟨n, hn⟩ := Option.isSome_iff_exists.mp ((Dict.isSome_get? _ _).mpr hr)
  have hshow := h r hr
  rw [hn, Option.getD_some] at hshow ⊢
  refine ⟨hn, hpos r n hn, hshow, (hwalkable r).sorted, (hwalkable r).length,
    fun f hf hin => hcached _ ?_⟩
  refine hsup.referred r n hn f (hsup.items r ▸ hf) _ (fun m hm => ?_) hin
  rw [hn, Option.some.injEq] at hm
  omega

/-- A worker that knows the state of the scheduler prepares the inputs of the next step. -/
theorem Knows.prepares (h : Knows cfg s w) (hout : HandsOut cfg J s out s')
    (hsup : Supplies w.encoderCache s out s') (hlora : ∀ r, (s'.req r).loraRequest ≠ some 0)
    (hpos : ∀ r n, out.numScheduledTokens.get? r = some n → 0 < n)
    (htotal : out.totalNumScheduledTokens = out.numScheduledTokens.values.sum)
    (hwalkable : ∀ r, Walkable (s'.req r).mmFeatures) :
    ∃ g w', w.prepareMultiModal threshold s'.req out = .ok (g, w') ∧ PreparesStep s' out g w' ∧
      Knows cfg s' w' ∧ Backed w'.encoderCache s' := by
  obtain ⟨update, w₁, hupdate, happlied⟩ := updateStates_ok threshold hlora h.sound
    (h.applies hout)
  have hw₁ := h.step hout happlied
  have hshows := h.showsItems hout happlied
  obtain ⟨rows, hrows, hnodup, hmem⟩ := InputBatch.exists_rows happlied.sound.batch
    happlied.sound.settled
  have hperm : rows.Perm out.numScheduledTokens.keys :=
    (List.perm_ext_iff_of_nodup hnodup (Dict.keys_nodup _)).mpr fun r =>
      (hmem r).trans (happlied.scheduled r)
  have hsum : out.totalNumScheduledTokens =
      (rows.map fun r => (out.numScheduledTokens.get? r).getD 0).sum := by
    rw [htotal, Dict.values_sum_keys]
    exact (hperm.map _).sum_eq.symm
  obtain ⟨W', hexecute, hcached⟩ := hshows.executes hsup happlied.encoderCache
  by_cases hempty : rows = []
  · have hkeys : out.numScheduledTokens.keys = [] := List.nil_perm.mp (hempty ▸ hperm)
    have hcached₁ : ∀ a ∈ s'.enc.cached.keys, a ∈ w₁.encoderCache := fun a ha => by
      rw [happlied.encoderCache, Finset.mem_sdiff, List.mem_toFinset]
      refine (hsup.cached a ha).resolve_right fun ⟨r, is, his, _⟩ => ?_
      have hr := hsup.scheduled r (Dict.mem_keys_of_get? his)
      rw [hkeys] at hr
      cases hr
    refine ⟨none, w₁, bind_eq_ok.mpr ⟨_, hupdate, if_pos ?_⟩,
      ⟨⟨rows, hrows, hperm, by rw [if_pos hempty]⟩, hcached₁⟩, hw₁, hcached₁, hsup.reported⟩
    rw [hsum, hempty]
    rfl
  · have hready := fun r (hr : r ∈ rows) => hshows.ready hsup hcached hpos hwalkable
      (hperm.mem_iff.mp hr)
    have htokens : 0 < out.totalNumScheduledTokens := by
      rw [hsum]
      refine List.sum_pos _ (fun n hn => ?_) (mt List.map_eq_nil_iff.mp hempty)
      obtain ⟨r, hr, rfl⟩ := List.mem_map.mp hn
      exact (hready r hr).pos
    refine ⟨some (neededEmbeddings s' out rows), { w₁ with encoderCache := W' },
      bind_eq_ok.mpr ⟨_, hupdate, ?_⟩, ⟨⟨rows, hrows, hperm, by rw [if_neg hempty]⟩, hcached⟩,
      ⟨⟨hw₁.sound.batch, hw₁.sound.settled, hw₁.sound.rows, hw₁.sound.ids⟩, hw₁.maxNumReqs,
        hw₁.known, hw₁.announced, hw₁.running⟩, hcached, hsup.reported⟩
    dsimp only
    rw [if_neg (by omega)]
    exact bind_eq_ok.mpr ⟨_, hexecute,
      bind_eq_ok.mpr ⟨_, gatherMmEmbeddings_ok hrows hready hsum, rfl⟩⟩

section Items

variable {K E : Type} [KVCacheManager K] {J : (ReqId → List BlockHash) → K → Prop}
  {F : Request → Prop} {s : Scheduler K E} {P : List MmFeature → Prop}

/-- What holds of the items of all requests that are held, and of no items. -/
theorem Held.items (h : Held J F s) (hP : ∀ q, F q → P q.mmFeatures) (hnil : P []) (r : ReqId) :
    P (s.req r).mmFeatures := by
  by_cases hr : r ∈ s.objs.keys
  · exact hP _ (h.requests r hr).1
  · rw [Scheduler.req, Objs.req_of_notMem hr]
    exact hnil

end Items

end Scheduler

namespace System

open Scheduler ModelRunner FullAttentionKV

section Deployment

variable {K : Type} [KVCacheManager K] [AppendingKVCacheManager K] {cfg : Config}
  {J : (ReqId → List BlockHash) → K → Prop} {F : Request → Prop} {kv : K} {cacheSize : ℕ}
  {sys : System K EncoderCacheManager} {log : StepLog} {threshold : Option ℤ}

/-- When a step begins, no running request is ahead of its tokens. -/
def StaysBehind (cfg : Config) (sys : System K EncoderCacheManager) : Op → Prop
  | .schedule _ => ∀ r ∈ sys.sch.objs.keys, (sys.sch.req r).status = .running →
      (sys.sch.req r).Behind cfg
  | _ => True

omit [AppendingKVCacheManager K] in
/-- A step that stays behind grants tokens to requests that are behind. -/
theorem StaysBehind.grants {env : StepEnv} (h : StaysBehind cfg sys (.schedule env))
    (hc : cfg.connector = false) (hcoherent : Coherent sys.sch)
    (horder : KeepsOrder cfg sys (.schedule env)) {out : SchedulerOutput}
    {s' : Scheduler K EncoderCacheManager}
    (hschedule : Scheduler.schedule cfg env sys.sch = .ok (out, s')) {r : ReqId} {n : ℤ}
    (hn : out.numScheduledTokens.get? r = some n) : 0 < n := by
  refine schedule_grants hc hcoherent horder (fun x hx => h x ?_ hx) hschedule hn
  by_contra hno
  rw [Scheduler.req, Objs.req_of_notMem hno] at hx
  cases hx

namespace Deployment

variable (hd : Deployment cfg J F) (hdec : cfg.isEncoderDecoder = false)
  (hec : cfg.ecConnector = false) (hF : ∀ q, F q → Walkable q.mmFeatures)

include hd hdec hec hF

/-- A worker that holds what the scheduler relies on prepares the next step. -/
theorem prepares (hkv : J (fun _ => []) kv)
    (h : Run cfg (Serviced cfg F) (init cfg kv (EncoderCacheManager.init cacheSize)) sys)
    {env : StepEnv} (hok : Serviced cfg F sys (.schedule env))
    (hbehind : StaysBehind cfg sys (.schedule env)) {out : SchedulerOutput}
    {s' : Scheduler K EncoderCacheManager}
    (hschedule : Scheduler.schedule cfg env sys.sch = .ok (out, s')) {w : ModelRunner}
    (hw : Knows cfg sys.sch w) (hbacked : Backed w.encoderCache sys.sch) :
    ∃ g w', w.prepareMultiModal threshold s'.req out = .ok (g, w') ∧ PreparesStep s' out g w' ∧
      Knows cfg s' w' ∧ Backed w'.encoderCache s' := by
  have hheld := hd.held hkv h
  have hout := hd.handsOut h hheld hok hschedule
  have hheld' := hheld.step hd.grow hout
  have hnil : Walkable [] := ⟨.nil, fun f hf => absurd hf List.not_mem_nil⟩
  have hwalkable := hheld.items hF hnil
  have hwalkable' := hheld'.items hF hnil
  have hserves : Serves (fun _ => True) EncoderCacheManager.Consistent sys.sch :=
    .of_cache (consistent_of_run hdec h)
  have hcoherent := coherent_of_run (h.mono fun _ _ h => h.order)
  have hspares : StepMeets LoopState.Spares cfg env sys.sch := fun ls hrounds e he =>
    LoopState.Orderly.spares (hok.order ls hrounds e he)
  have hsup := schedule_supplies hdec hec hbacked hserves (named_of_run h)
    (fun r => (hwalkable r).sorted) hcoherent.nodup hspares hschedule
  exact hw.prepares hout hsup hheld'.adapters
    (fun _ _ hn => hbehind.grants hd.connector hcoherent hok.order hschedule hn)
    (schedule_total hschedule) hwalkable'

/-- In every run the worker holds what the scheduler relies on. -/
theorem backed (hkv : J (fun _ => []) kv)
    (h : Recorded cfg (fun sys op => Serviced cfg F sys op ∧ StaysBehind cfg sys op)
      (init cfg kv (EncoderCacheManager.init cacheSize)) sys log) :
    ∀ w, Prepared threshold cfg.maxNumRunningReqs log w →
      Knows cfg sys.sch w ∧ Backed w.encoderCache sys.sch := by
  induction h with
  | start =>
    have hbacked : Backed (ModelRunner.init cfg.maxNumRunningReqs).encoderCache
        (Scheduler.init cfg kv (EncoderCacheManager.init cacheSize)) :=
      ⟨fun a ha => absurd ha List.not_mem_nil, rfl⟩
    exact fun w hw => hw.rule_init (I := fun w => Knows cfg _ w ∧ Backed w.encoderCache _)
      ⟨.start cfg kv _, hbacked⟩ fun _ sampled hI => ⟨hI.1.sample sampled, hI.2⟩
  | @between sys sys' log op hlog hadm hok hop hstep ih =>
    have hrun := hlog.run.mono fun _ _ h => h.1
    have hcoherent := coherent_of_run (hrun.mono fun _ _ h => h.order)
    have hretains := step_retains hd.connector (named_of_run hrun) hadm hop hok.1.unconnected hstep
    have ht := (hd.held hkv hrun).tracking
    have hwf := (consistent_of_run hdec hrun).wf
    exact fun w hw => ⟨(ih w hw).1.retains ht hretains (step_reports hcoherent hadm hop hstep),
      (ih w hw).2.givesUp hretains.enc hwf⟩
  | @schedule sys log env out sch hlog hok hschedule ih =>
    have hrun := hlog.run.mono fun _ _ h => h.1
    refine fun w hw => hw.rule_prepare (I := fun w => Knows cfg _ w ∧ Backed w.encoderCache _)
      (fun w w' g hw hprepare => ?_) fun _ sampled hI => ⟨hI.1.sample sampled, hI.2⟩
    obtain ⟨hknows, hbacked⟩ := ih w hw
    obtain ⟨g', w'', hprepare', -, hknows', hbacked'⟩ :=
      hd.prepares hdec hec hF hkv hrun hok.1 hok.2 hschedule hknows hbacked
    rw [hprepare'] at hprepare
    cases hprepare
    exact ⟨hknows', hbacked'⟩

/-- A worker that prepares every step can go on. -/
theorem exists_prepared (hkv : J (fun _ => []) kv)
    (h : Recorded cfg (fun sys op => Serviced cfg F sys op ∧ StaysBehind cfg sys op)
      (init cfg kv (EncoderCacheManager.init cacheSize)) sys log) :
    ∃ w, Prepared threshold cfg.maxNumRunningReqs log w := by
  induction h with
  | start => exact ⟨_, .init⟩
  | between _ _ _ _ _ ih => exact ih
  | schedule hlog hok hschedule ih =>
    obtain ⟨w, hw⟩ := ih
    obtain ⟨hknows, hbacked⟩ := hd.backed hdec hec hF hkv hlog w hw
    obtain ⟨g, w', hprepare, -⟩ := hd.prepares hdec hec hF hkv (hlog.run.mono fun _ _ h => h.1)
      hok.1 hok.2 hschedule hknows hbacked
    exact ⟨w', hw.prepare hprepare⟩

end Deployment

end Deployment

/-! ### A model with full attention -/

section FullAttention

variable {cfg : Config} {hashing : BlockHashing} {enableCaching : Bool} {cacheSize : ℕ}
  {sys : System FullAttentionKV EncoderCacheManager} {log : StepLog} {threshold : Option ℤ}
  {P : List MmFeature → Prop}

/-- The items of the requests that come in have the property. -/
def BringsItems (P : List MmFeature → Prop) : Op → Prop
  | .addRequest request _ => P request.mmFeatures
  | _ => True

instance [DecidablePred P] : DecidablePred (BringsItems P)
  | .addRequest _ _ => inferInstanceAs (Decidable (P _))
  | .updateFromOutput _ _ | .schedule _ | .finishRequests _ _ _ | .setPauseState _
  | .resetPrefixCache _ | .updateDraftTokenIds _ _ => .isTrue trivial

/-- An operation of a run as in `Served`, so in particular one that keeps the order of the queues and
has no KV connector, without streaming sessions, where the items of the requests have the property
and no step begins with a running request ahead of its tokens. -/
structure ServedItems (cfg : Config) (P : List MmFeature → Prop)
    (sys : System FullAttentionKV EncoderCacheManager) (op : Op) : Prop
    extends Served cfg Set.univ sys op where
  items : BringsItems P op
  behind : StaysBehind cfg sys op

/-- A request without a session, with its hashes and its items. -/
abbrev HashedItems (hashing : BlockHashing) (cfg : Config) (P : List MmFeature → Prop)
    (q : Request) : Prop :=
  hashing.Hashed cfg.blockSize Set.univ q ∧ q.Plain ∧ P q.mmFeatures

namespace FullAttentionModel

variable (hm : FullAttentionModel hashing cfg)

include hm

/-- The full attention manager with the encoder cache is a deployment. -/
theorem itemsDeployment (enableCaching : Bool) (P : List MmFeature → Prop) :
    Deployment cfg (fun H (m : FullAttentionKV) => Kept cfg enableCaching m ∧ Labelled H m)
      (HashedItems hashing cfg P) where
  rules := (hm.deployment enableCaching Set.univ).rules
  grow := (hm.deployment enableCaching Set.univ).grow.withItems
  nodup _ hq := hq.1.nodup hm.collisionFree
  connector := hm.connector

/-- What serves the items of the requests is serviced. -/
theorem servicedItems {op : Op} (h : ServedItems cfg P sys op) :
    Serviced cfg (HashedItems hashing cfg P) sys op where
  order := h.order
  unconnected := h.unconnected
  adapter := h.adapter
  enters request delayFree hop q hq hplain := by
    have hitems : q.mmFeatures = request.mmFeatures := congrArg Content.mmFeatures hq
    have hP : BringsItems P (.addRequest request delayFree) := hop ▸ h.items
    exact ⟨(hm.serviced h.toServed).enters request delayFree hop q hq hplain,
      hplain (h.plain request delayFree hop trivial), hitems ▸ hP⟩

/-- After a step the items of all requests have the property. -/
theorem items_after
    (h : Recorded cfg (ServedItems cfg P) (decoderOnly cfg enableCaching cacheSize) sys log)
    {env : StepEnv} (hok : ServedItems cfg P sys (.schedule env)) {out : SchedulerOutput}
    {s' : Scheduler FullAttentionKV EncoderCacheManager}
    (hschedule : Scheduler.schedule cfg env sys.sch = .ok (out, s')) (hnil : P []) (r : ReqId) :
    P (s'.req r).mmFeatures := by
  have hd := hm.itemsDeployment enableCaching P
  have hrun := h.run.mono fun _ _ h => hm.servicedItems h
  have hheld := hd.held init_labelled hrun
  have hout := hd.handsOut hrun hheld (hm.servicedItems hok) hschedule
  exact (hheld.step hd.grow hout).items (fun _ hq => hq.2.2) hnil r

variable (hdec : cfg.isEncoderDecoder = false) (hec : cfg.ecConnector = false)
  (hP : ∀ items, P items → Walkable items)

include hdec hec hP

/-- The encoder cache of a worker that followed the log backs the scheduler's. -/
theorem prepared_backed
    (h : Recorded cfg (ServedItems cfg P) (decoderOnly cfg enableCaching cacheSize) sys log)
    {w : ModelRunner} (hw : Prepared threshold cfg.maxNumRunningReqs log w) :
    Knows cfg sys.sch w ∧ Backed w.encoderCache sys.sch :=
  (hm.itemsDeployment enableCaching P).backed hdec hec (fun _ hq => hP _ hq.2.2)
    init_labelled (h.mono fun _ _ h => ⟨hm.servicedItems h, h.behind⟩) w hw

/-- Along a recorded run a worker prepares every step. -/
theorem exists_prepared
    (h : Recorded cfg (ServedItems cfg P) (decoderOnly cfg enableCaching cacheSize) sys log) :
    ∃ w, Prepared threshold cfg.maxNumRunningReqs log w :=
  (hm.itemsDeployment enableCaching P).exists_prepared hdec hec (fun _ hq => hP _ hq.2.2)
    init_labelled (h.mono fun _ _ h => ⟨hm.servicedItems h, h.behind⟩)

variable (h : Recorded cfg (ServedItems cfg P) (decoderOnly cfg enableCaching cacheSize) sys log)
  {env : StepEnv} (hok : ServedItems cfg P sys (.schedule env)) {out : SchedulerOutput}
  {s' : Scheduler FullAttentionKV EncoderCacheManager}
  (hschedule : Scheduler.schedule cfg env sys.sch = .ok (out, s'))

include h hok hschedule

/-- A worker that followed the log prepares the next step. -/
theorem prepares_next {w : ModelRunner} (hw : Prepared threshold cfg.maxNumRunningReqs log w) :
    ∃ g w', w.prepareMultiModal threshold s'.req out = .ok (g, w') ∧ PreparesStep s' out g w' := by
  obtain ⟨hknows, hbacked⟩ := hm.prepared_backed hdec hec hP h hw
  obtain ⟨g, w', hprepare, hstep, -⟩ := (hm.itemsDeployment enableCaching P).prepares hdec hec
    (fun _ hq => hP _ hq.2.2)
    init_labelled (h.run.mono fun _ _ h => hm.servicedItems h) (hm.servicedItems hok) hok.behind
    hschedule hknows hbacked
  exact ⟨g, w', hprepare, hstep⟩

/-- A worker that prepared the inputs of all earlier steps holds every output that the scheduler
counts as cached. It prepares the inputs of the next step without an error: for each scheduled
request it gathers the rows that belong to the tokens of the step, and then holds again what the
scheduler counts as cached. -/
theorem worker_gathers {w : ModelRunner} (hw : Prepared threshold cfg.maxNumRunningReqs log w) :
    Backed w.encoderCache sys.sch ∧
      ∃ g w', w.prepareMultiModal threshold s'.req out = .ok (g, w') ∧ PreparesStep s' out g w' :=
  ⟨(hm.prepared_backed hdec hec hP h hw).2, hm.prepares_next hdec hec hP h hok hschedule hw⟩

/-- Where the items of a request stand apart, a worker marks the tokens for which a row of an
encoder output stands, and gathers these rows in the order of the tokens. -/
theorem worker_fills (hnil : P []) (hapart : ∀ items, P items → Apart items) {w w' : ModelRunner}
    (hw : Prepared threshold cfg.maxNumRunningReqs log w) {g : MmEmbeddings}
    (hprepare : w.prepareMultiModal threshold s'.req out = .ok (some g, w')) :
    ∃ rows : List ReqId, w'.inputBatch.reqIds = rows.map some ∧
      g.isMmEmbed = (neededRows s' out rows).map Option.isSome ∧
      g.mmEmbeds.flatMap EmbedSlice.rows = (neededRows s' out rows).reduceOption := by
  obtain ⟨g', w'', hprepare', hstep⟩ := hm.prepares_next hdec hec hP h hok hschedule hw
  rw [hprepare] at hprepare'
  cases hprepare'
  obtain ⟨rows, hrows, hperm, hg⟩ := hstep.rows
  split at hg
  · cases hg
  · cases hg
    refine ⟨rows, hrows, isMmEmbed_gatheredRows _ _ _ _,
      rows_gatheredRows (fun r hr => ?_) fun r _ =>
        hapart _ (hm.items_after h hok hschedule hnil r)⟩
    obtain ⟨n, hn⟩ := Option.isSome_iff_exists.mp
      ((Dict.isSome_get? _ _).mpr (hperm.mem_iff.mp hr))
    rw [hn, Option.getD_some]
    have hcoherent := coherent_of_run (h.run.mono fun _ _ h => h.order)
    exact (hok.behind.grants hm.connector hcoherent hok.order hschedule hn).le

end FullAttentionModel

/-! ### An item that two requests share -/

/-- Runs without ties of plain requests serve their items. -/
theorem servedItems_of_noTies [DecidablePred P] {kv : FullAttentionKV} {enc : EncoderCacheManager}
    (h : Run cfg (fun sys op => (NoTies cfg sys op ∧ PlainOp op) ∧ BringsItems P op ∧
      StaysBehind cfg sys op) (init cfg kv enc) sys) :
    Run cfg (ServedItems cfg P) (init cfg kv enc) sys := by
  induction h with
  | start => exact .start
  | @step sys _ op hrun hadm hok hs ih =>
    refine .step ih hadm ⟨served_of_plainOp ?_ hok.1.2, hok.2.1, hok.2.2⟩ hs
    cases op with
    | schedule env =>
      exact orderly_of_untied (coherent_of_run (ih.mono fun _ _ h => h.order)) hok.1.1
    | _ => trivial

instance (sys : System FullAttentionKV EncoderCacheManager) (op : Op) :
    Decidable (StaysBehind cfg sys op) :=
  match op with
  | .schedule _ => inferInstanceAs (Decidable (∀ r ∈ sys.sch.objs.keys,
      (sys.sch.req r).status = .running → (sys.sch.req r).Behind cfg))
  | .addRequest _ _ | .updateFromOutput _ _ | .finishRequests _ _ _ | .setPauseState _
  | .resetPrefixCache _ | .updateDraftTokenIds _ _ => .isTrue trivial

end FullAttention

/-- Blocks of one token, and room for items. -/
def itemBlocks : Config := { oneTokenBlocks with numBlocks := 16, maxNumEncoderInputTokens := 4 }

/-- The hashing of blocks by the items is one of the code's. -/
theorem itemBlocks_model : FullAttentionModel codeHashing itemBlocks :=
  ⟨by decide, by decide, rfl, codeHashing_collisionFree, rfl⟩

/-- The second of the two requests comes when the item that they share has been computed. -/
def itemTwice : List Op := shareItem.take 1 ++ [.schedule {}] ++ (shareItem.drop 1).take 1

/-- The next step computes the other item of the second request. -/
theorem itemTwice_computes : ∃ (sys : System FullAttentionKV EncoderCacheManager) (log : StepLog)
    (out : SchedulerOutput) (s' : Scheduler FullAttentionKV EncoderCacheManager),
    Recorded itemBlocks (ServedItems itemBlocks fun items => Walkable items ∧ Apart items)
        (decoderOnly itemBlocks false 4) sys log ∧
      ServedItems itemBlocks (fun items => Walkable items ∧ Apart items) sys (.schedule {}) ∧
      Scheduler.schedule itemBlocks {} sys.sch = .ok (out, s') ∧
      7 ∈ sys.sch.enc.cached.keys ∧ out.scheduledEncoderInputs.entries = [(2, [1])] ∧
      out.numScheduledTokens.keys = [2] := by
  have hlegal : Legal itemBlocks (fun sys op => (NoTies itemBlocks sys op ∧ PlainOp op) ∧
      BringsItems (fun items => Walkable items ∧ Apart items) op ∧ StaysBehind itemBlocks sys op)
      (decoderOnly itemBlocks false 4) itemTwice := by
    decide +kernel
  obtain ⟨sys, hrun, hstep, huntied, hbehind, hcached⟩ := Reaches.exists_run itemTwice
    (P := fun sys => (AfterStep itemBlocks sys fun out _ =>
        out.scheduledEncoderInputs.entries = [(2, [1])] ∧ out.numScheduledTokens.keys = [2]) ∧
      NoTies itemBlocks sys (.schedule {}) ∧ StaysBehind itemBlocks sys (.schedule {}) ∧
      7 ∈ sys.sch.enc.cached.keys) (by decide +kernel) hlegal
  obtain ⟨out, s', hok, hentries, hkeys⟩ := hstep.exists_ok
  have hserved := servedItems_of_noTies hrun
  obtain ⟨log, hlog⟩ := hserved.recorded
  have horder : KeepsOrder itemBlocks sys (.schedule {}) :=
    orderly_of_untied (coherent_of_run (hserved.mono fun _ _ h => h.order)) huntied
  exact ⟨sys, log, out, s', hlog, ⟨served_of_plainOp horder trivial, trivial, hbehind⟩, hok,
    hcached, hentries, hkeys⟩

/-- The worker still has the item of the first request, and computes the other one. -/
theorem worker_gathers_itemTwice : ∃ (out : SchedulerOutput)
    (s' : Scheduler FullAttentionKV EncoderCacheManager) (w : ModelRunner),
    out.scheduledEncoderInputs.entries = [(2, [1])] ∧ 7 ∈ w.encoderCache ∧
      ∃ g w', w.prepareMultiModal none s'.req out = .ok (g, w') ∧ PreparesStep s' out g w' := by
  obtain ⟨sys, log, out, s', hlog, hok, hschedule, hcached, hentries, -⟩ := itemTwice_computes
  have hP : ∀ items, Walkable items ∧ Apart items → Walkable items := fun _ h => h.1
  obtain ⟨w, hw⟩ : ∃ w, Prepared none itemBlocks.maxNumRunningReqs log w :=
    itemBlocks_model.exists_prepared rfl rfl hP hlog
  obtain ⟨hbacked, hgathers⟩ :=
    itemBlocks_model.worker_gathers rfl rfl hP hlog hok hschedule hw
  exact ⟨out, s', w, hentries, hbacked.cached 7 hcached, hgathers⟩

/-- The worker fills the rows of a request whose item comes twice. -/
theorem worker_fills_itemTwice : ∃ (out : SchedulerOutput)
    (s' : Scheduler FullAttentionKV EncoderCacheManager) (w : ModelRunner) (g : MmEmbeddings)
    (w' : ModelRunner), out.numScheduledTokens.keys = [2] ∧
      w.prepareMultiModal none s'.req out = .ok (some g, w') ∧
      ∃ rows : List ReqId, w'.inputBatch.reqIds = rows.map some ∧
        g.isMmEmbed = (neededRows s' out rows).map Option.isSome ∧
        g.mmEmbeds.flatMap EmbedSlice.rows = (neededRows s' out rows).reduceOption := by
  obtain ⟨sys, log, out, s', hlog, hok, hschedule, -, -, hkeys⟩ := itemTwice_computes
  have hP : ∀ items, Walkable items ∧ Apart items → Walkable items := fun _ h => h.1
  obtain ⟨w, hw⟩ : ∃ w, Prepared none itemBlocks.maxNumRunningReqs log w :=
    itemBlocks_model.exists_prepared rfl rfl hP hlog
  obtain ⟨g, w', hprepare, hstep⟩ :=
    itemBlocks_model.prepares_next rfl rfl hP hlog hok hschedule hw
  obtain ⟨rows, -, hperm, hg⟩ := hstep.rows
  rw [hkeys] at hperm
  rw [if_neg (by rintro rfl; cases hperm.length_eq)] at hg
  rw [hg] at hprepare
  have hnil : Walkable [] ∧ Apart [] := by decide
  exact ⟨out, s', w, _, w', hkeys, hprepare, itemBlocks_model.worker_fills rfl rfl hP hlog hok
    hschedule hnil (fun _ h => h.2) hw hprepare⟩

end System

end RpsServe
