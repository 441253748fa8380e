import RpsServe.Worker.ModelRunner

/-!
# What a scheduler output does to the worker's states

The spec of `_update_states`. Given an output that names every scheduled request once, that
asks nothing of unknown requests and that fits the batch, it does not raise; the batch ends
up with one row for each scheduled request, and every row holds what the cached state of its
request says. The phases are followed by any property of the batch that the operations on
rows keep, so that the logits processors need no second walk.
-/

namespace RpsServe

namespace ModelRunner

variable {w w' : ModelRunner} {r x : ReqId} {i : ℕ} {adds : List CachedRequestState}

/-- The worker between two steps: the batch is settled, and each row shows the cached state. -/
structure Sound (w : ModelRunner) : Prop where
  batch : w.inputBatch.WellFormed
  settled : w.inputBatch.Settled
  rows : ∀ r row, w.inputBatch.rowOf r = some row →
    ∃ st, w.requests.get? r = some st ∧ row = st.row
  ids : ∀ r st, w.requests.get? r = some st → st.reqId = r ∧ st.loraRequest ≠ some 0

/-- The worker within `_update_states`, with the states that are to get a row. -/
structure Midway (w : ModelRunner) (adds : List CachedRequestState) : Prop where
  batch : w.inputBatch.WellFormed
  unread : w.inputBatch.builder.isRemovedSorted = false
  unmoved : w.inputBatch.builder.moved = []
  rows : ∀ r row, w.inputBatch.rowOf r = some row →
    ∃ st, w.requests.get? r = some st ∧ row = st.row
  ids : ∀ r st, w.requests.get? r = some st → st.reqId = r ∧ st.loraRequest ≠ some 0
  waiting : ∀ st ∈ adds, w.requests.get? st.reqId = some st ∧ w.inputBatch.rowOf st.reqId = none
  distinct : (adds.map CachedRequestState.reqId).Nodup

/-- A property of the cached states and the batch that every operation of a step keeps. -/
structure Followed (I : (ReqId → Option CachedRequestState) → InputBatch → Prop)
    (Stays : CachedRequestState → CachedRequestState → Prop) : Prop where
  remove : ∀ {d b b' r}, I d b → b.WellFormed → b.builder.isRemovedSorted = false →
    b.builder.moved = [] → b.removeRequest r = .ok b' → I d b'
  forget : ∀ {d d' b}, I d b → b.WellFormed →
    (∀ r, (b.rowOf r).isSome → d' r = d r) → I d' b
  update : ∀ {d d' b r i st st' row}, I d b → b.WellFormed → b.reqIdToIndex.get? r = some i →
    d r = some st → Stays st st' → d' = Function.update d r (some st') → I d' (b.setRow i row)
  add : ∀ {d b b' st i}, I d b → b.WellFormed → b.builder.moved = [] → b.rowOf st.reqId = none →
    d st.reqId = some st → InputBatch.AddedAt b b' st i → I d b'
  condense : ∀ {d b b'}, I d b → b.WellFormed → b.builder.moved = [] → b.condense = .ok b' → I d b'
  swap : ∀ {d b b' i j}, I d b → b.Condensed → InputBatch.Swapped b b' i j → i ≠ j → I d b'

/-- The trivial property is followed. -/
theorem followed_true : Followed (fun _ _ => True) fun _ _ => True where
  remove _ _ _ _ _ := trivial
  forget _ _ _ := trivial
  update _ _ _ _ _ _ := trivial
  add _ _ _ _ _ _ := trivial
  condense _ _ _ _ := trivial
  swap _ _ _ _ := trivial

variable {I : (ReqId → Option CachedRequestState) → InputBatch → Prop}
  {Stays : CachedRequestState → CachedRequestState → Prop}

/-! ### Removing -/

/-- Removing a request leaves the moves and the size of the batch. -/
theorem removed_frame {b b' : InputBatch} (h : b.removeRequest r = .ok b') :
    b'.builder.moved = b.builder.moved ∧ b'.maxNumReqs = b.maxNumReqs := by
  cases hi : b.reqIdToIndex.get? r with
  | none =>
    rw [InputBatch.removeRequest, hi] at h
    cases h
    exact ⟨rfl, rfl⟩
  | some i =>
    obtain ⟨-, b₁, row, hlora, -, rfl⟩ := InputBatch.removeRequest_eq_ok h hi
    obtain ⟨d, rfl, -⟩ := InputBatch.discardLora_eq_ok hlora
    exact ⟨rfl, rfl⟩

/-- The requests with a property lose their rows, and the others keep them. -/
theorem removeRequests_spec {b : InputBatch} {d : ReqId → Option CachedRequestState}
    (hf : Followed I Stays) (hI : I d b) (hb : b.WellFormed)
    (hunread : b.builder.isRemovedSorted = false) (hmoved : b.builder.moved = [])
    (p : ReqId → Bool) : ∃ b', removeRequests p b = .ok b' ∧ I d b' ∧ b'.WellFormed ∧
      b'.builder.isRemovedSorted = false ∧ b'.builder.moved = [] ∧
      b'.maxNumReqs = b.maxNumReqs ∧
      ∀ x, b'.rowOf x = if p x then none else b.rowOf x := by
  have hfold : ∀ (l : List ReqId) (b : InputBatch), I d b → b.WellFormed →
      b.builder.isRemovedSorted = false → b.builder.moved = [] →
      ∃ b', l.foldlM InputBatch.removeRequest b = .ok b' ∧ I d b' ∧ b'.WellFormed ∧
        b'.builder.isRemovedSorted = false ∧ b'.builder.moved = [] ∧
        b'.maxNumReqs = b.maxNumReqs ∧ ∀ x, b'.rowOf x = if x ∈ l then none else b.rowOf x := by
    intro l
    induction l with
    | nil => exact fun b hI hb hu hm => ⟨b, rfl, hI, hb, hu, hm, rfl, fun x => by simp⟩
    | cons r l ih =>
      intro b hI hb hu hm
      obtain ⟨b₁, h₁, hu₁⟩ := InputBatch.removeRequest_ok hb hu r
      have hb₁ := InputBatch.removeRequest_wellFormed hb h₁
      obtain ⟨hm₁, hmax₁⟩ := removed_frame h₁
      obtain ⟨b', hl, hI', hb', hu', hm', hmax', hrows⟩ :=
        ih b₁ (hf.remove hI hb hu hm h₁) hb₁ hu₁ (hm₁.trans hm)
      refine ⟨b', foldlM_cons_eq_ok.mpr ⟨b₁, h₁, hl⟩, hI', hb', hu', hm', hmax'.trans hmax₁,
        fun x => ?_⟩
      rw [hrows, InputBatch.removeRequest_rowOf hb h₁]
      by_cases hx : x = r
      · simp [hx]
      · rw [Function.update_of_ne hx]
        simp [hx]
  obtain ⟨b', hl, hI', hb', hu', hm', hmax', hrows⟩ := hfold _ b hI hb hunread hmoved
  refine ⟨b', hl, hI', hb', hu', hm', hmax', fun x => ?_⟩
  rw [hrows]
  simp only [List.mem_filter]
  by_cases hp : p x
  · by_cases hx : x ∈ b.reqIdToIndex.keys
    · simp [hp, hx]
    · have hnone : b.rowOf x = none := by
        rw [← Option.not_isSome_iff_eq_none, InputBatch.isSome_rowOf]
        exact hx
      simp [hp, hx, hnone]
  · simp [hp]

/-- Which requests keep their row. -/
def Keeps (out : SchedulerOutput) (r : ReqId) : Prop :=
  r ∉ out.finishedReqIds ∧ r ∈ out.numScheduledTokens.keys ∧
    r ∉ out.scheduledCachedReqs.resumedReqIds

instance (out : SchedulerOutput) : DecidablePred (Keeps out) := fun _ => by
  unfold Keeps
  infer_instance

/-- Rows of requests that are not scheduled are removed. -/
theorem dropUnscheduled_spec (hf : Followed I Stays) (hw : w.Sound)
    (hI : I w.requests.get? w.inputBatch) (out : SchedulerOutput) :
    ∃ w', w.dropUnscheduled out = .ok w' ∧ w'.Midway [] ∧ I w'.requests.get? w'.inputBatch ∧
      w'.inputBatch.maxNumReqs = w.inputBatch.maxNumReqs ∧
      w'.encoderCache = w.encoderCache \ out.freeEncoderMmHashes.toFinset ∧
      (∀ r, w'.inputBatch.rowOf r = if Keeps out r then w.inputBatch.rowOf r else none) ∧
      ∀ r, w'.requests.get? r = if r ∈ out.finishedReqIds then none else w.requests.get? r := by
  have hsettled : w.inputBatch.builder = {} := hw.settled
  obtain ⟨b₁, h₁, hI₁, hb₁, hu₁, hm₁, hmax₁, hrows₁⟩ := removeRequests_spec hf hI hw.batch
    (by rw [hsettled]) (by rw [hsettled]) (fun r => r ∈ out.finishedReqIds)
  obtain ⟨b₂, h₂, hI₂, hb₂, hu₂, hm₂, hmax₂, hrows₂⟩ := removeRequests_spec hf hI₁ hb₁ hu₁ hm₁
    (fun r => ¬ (r ∈ out.numScheduledTokens.keys ∧ r ∉ out.scheduledCachedReqs.resumedReqIds))
  have hrows : ∀ r, b₂.rowOf r = if Keeps out r then w.inputBatch.rowOf r else none := by
    intro r
    rw [hrows₂, hrows₁]
    unfold Keeps
    by_cases h1 : r ∈ out.finishedReqIds <;> by_cases h2 : r ∈ out.numScheduledTokens.keys <;>
      by_cases h3 : r ∈ out.scheduledCachedReqs.resumedReqIds <;> simp [h1, h2, h3]
  have hget : ∀ r, (w.requests.filterKeys fun r => r ∉ out.finishedReqIds).get? r =
      if r ∈ out.finishedReqIds then none else w.requests.get? r := by
    intro r
    rw [Dict.get?_filterKeys]
    by_cases h : r ∈ out.finishedReqIds <;> simp [h]
  refine ⟨_, bind_eq_ok.mpr ⟨b₁, h₁, bind_eq_ok.mpr ⟨b₂, h₂, rfl⟩⟩, ⟨hb₂, hu₂, hm₂, ?_, ?_, ?_,
    List.nodup_nil⟩, ?_, hmax₂.trans hmax₁, rfl, hrows, hget⟩
  · intro r row hr
    rw [hrows] at hr
    split at hr
    · rename_i hkeep
      obtain ⟨st, hst, hrow⟩ := hw.rows r row hr
      exact ⟨st, by rw [hget, if_neg hkeep.1, hst], hrow⟩
    · cases hr
  · intro r st hst
    rw [hget] at hst
    split at hst
    · cases hst
    · exact hw.ids r st hst
  · exact fun st hst => absurd hst (by simp)
  · refine hf.forget hI₂ hb₂ fun r hr => ?_
    rw [hrows] at hr
    split at hr
    · rename_i hkeep
      rw [hget, if_neg hkeep.1]
    · cases hr

/-! ### New requests -/

/-- The state that an entry of `scheduled_new_reqs` describes. A request that the worker already
knows keeps its adapter. -/
structure Describes (obj : ReqId → Request) (old : Option CachedRequestState) (d : NewRequestData)
    (st : CachedRequestState) : Prop where
  reqId : st.reqId = d.reqId
  promptTokenIds : st.promptTokenIds = (obj d.reqId).promptTokenIds
  mmFeatures : st.mmFeatures = (obj d.reqId).mmFeatures
  samplingParams : st.samplingParams = (obj d.reqId).samplingParams
  blockIds : st.blockIds = d.blockIds
  numComputedTokens : st.numComputedTokens = d.numComputedTokens
  outputTokenIds : st.outputTokenIds = []
  loraRequest : st.loraRequest =
    (old.map CachedRequestState.loraRequest).getD (obj d.reqId).loraRequest

/-- A state put on the list of those to add. -/
theorem Midway.enter (st : CachedRequestState) {b : InputBatch} {r : ReqId}
    (hm : w.Midway adds) (hb : b.WellFormed) (hunread : b.builder.isRemovedSorted = false)
    (hmoved : b.builder.moved = []) (hrows : b.rowOf = Function.update w.inputBatch.rowOf r none)
    (hid : st.reqId = r) (hlora : st.loraRequest ≠ some 0)
    (hnew : r ∉ adds.map CachedRequestState.reqId) :
    Midway { w with inputBatch := b, requests := w.requests.set r st } (adds ++ [st]) := by
  subst hid
  have hget : ∀ x, (w.requests.set st.reqId st).get? x =
      if st.reqId = x then some st else w.requests.get? x := fun x => Dict.get?_set _ _ _ _
  refine ⟨hb, hunread, hmoved, fun x row hx => ?_, fun x st' hx => ?_, fun st' hst' => ?_, ?_⟩
  · simp only [hrows] at hx
    by_cases hxr : x = st.reqId
    · rw [hxr, Function.update_self] at hx
      cases hx
    · rw [Function.update_of_ne hxr] at hx
      obtain ⟨st', hst', hrow⟩ := hm.rows x row hx
      exact ⟨st', by rw [hget, if_neg (Ne.symm hxr), hst'], hrow⟩
  · simp only [hget] at hx
    split at hx
    · rename_i hxr
      cases hx
      exact ⟨hxr, hlora⟩
    · exact hm.ids x st' hx
  · simp only [hget, hrows]
    rcases List.mem_append.mp hst' with hst' | hst'
    · have hne : st.reqId ≠ st'.reqId := fun heq => hnew (heq ▸ List.mem_map_of_mem hst')
      obtain ⟨hreq, hrow⟩ := hm.waiting st' hst'
      rw [if_neg hne, Function.update_of_ne (Ne.symm hne)]
      exact ⟨hreq, hrow⟩
    · rw [List.mem_singleton] at hst'
      subst hst'
      rw [if_pos rfl, Function.update_self]
      exact ⟨rfl, rfl⟩
  · rw [List.map_append, List.map_singleton]
    exact List.Nodup.append hm.distinct (List.nodup_singleton _) (by simpa using hnew)

/-- A new request is stored and waits to be added. -/
theorem addNewRequest_spec {obj : ReqId → Request} {d : NewRequestData} (hf : Followed I Stays)
    (hm : w.Midway adds) (hI : I w.requests.get? w.inputBatch)
    (hnew : d.reqId ∉ adds.map CachedRequestState.reqId)
    (hlora : (obj d.reqId).loraRequest ≠ some 0) :
    ∃ w' st, addNewRequest obj (w, adds) d = .ok (w', adds ++ [st]) ∧
      Describes obj (w.requests.get? d.reqId) d st ∧
      w'.Midway (adds ++ [st]) ∧ I w'.requests.get? w'.inputBatch ∧
      w'.inputBatch.maxNumReqs = w.inputBatch.maxNumReqs ∧ w'.encoderCache = w.encoderCache ∧
      w'.inputBatch.rowOf = Function.update w.inputBatch.rowOf d.reqId none ∧
      w'.requests.get? = Function.update w.requests.get? d.reqId (some st) := by
  have hget : ∀ st, (w.requests.set d.reqId st).get? =
      Function.update w.requests.get? d.reqId (some st) := by
    intro st
    funext x
    rw [Dict.get?_set, Function.update_apply]
    simp only [eq_comm]
  have hforget : ∀ (b : InputBatch) (st : CachedRequestState),
      b.rowOf = Function.update w.inputBatch.rowOf d.reqId none → b.WellFormed →
      I w.requests.get? b → I (w.requests.set d.reqId st).get? b := by
    intro b st hrows hb hI
    refine hf.forget hI hb fun x hx => ?_
    have hne : x ≠ d.reqId := by
      rintro rfl
      rw [hrows, Function.update_self] at hx
      cases hx
    rw [hget, Function.update_of_ne hne]
  cases hst : w.requests.get? d.reqId with
  | some st =>
    obtain ⟨b, hb, hunread⟩ := InputBatch.removeRequest_ok hm.batch hm.unread d.reqId
    have hwf := InputBatch.removeRequest_wellFormed hm.batch hb
    have hrows := InputBatch.removeRequest_rowOf hm.batch hb
    obtain ⟨hmoved, hmax⟩ := removed_frame hb
    obtain ⟨hid, hlora'⟩ := hm.ids d.reqId st hst
    have hmid := hm.enter (st.ofStreaming (obj d.reqId) d) hwf hunread
      (hmoved.trans hm.unmoved) hrows hid hlora' hnew
    refine ⟨{ w with
        inputBatch := b
        requests := w.requests.set d.reqId (st.ofStreaming (obj d.reqId) d) },
      st.ofStreaming (obj d.reqId) d, ?_, ⟨hid, rfl, rfl, rfl, rfl, rfl, rfl, rfl⟩, hmid, ?_, hmax, rfl,
      hrows, hget _⟩
    · rw [addNewRequest, hst]
      exact bind_eq_ok.mpr ⟨b, hb, rfl⟩
    · exact hforget b _ hrows hwf (hf.remove hI hm.batch hm.unread hm.unmoved hb)
  | none =>
    have hnone : w.inputBatch.rowOf d.reqId = none := by
      by_contra hne
      obtain ⟨row, hrow⟩ := Option.ne_none_iff_exists'.mp hne
      obtain ⟨st, hst', -⟩ := hm.rows d.reqId row hrow
      rw [hst] at hst'
      cases hst'
    have hrows : w.inputBatch.rowOf = Function.update w.inputBatch.rowOf d.reqId none := by
      rw [← hnone, Function.update_eq_self]
    have hmid := hm.enter (.ofNew (obj d.reqId) d) hm.batch hm.unread hm.unmoved hrows rfl
      hlora hnew
    refine ⟨{ w with requests := w.requests.set d.reqId (.ofNew (obj d.reqId) d) },
      .ofNew (obj d.reqId) d, ?_, ⟨rfl, rfl, rfl, rfl, rfl, rfl, rfl, rfl⟩, hmid, ?_, rfl, rfl, hrows,
      hget _⟩
    · rw [addNewRequest, hst]
    · exact hforget _ _ hrows hm.batch hI

/-- All entries of `scheduled_new_reqs`. -/
theorem addNewRequests_spec {obj : ReqId → Request}
    {old : NewRequestData → Option CachedRequestState} (hf : Followed I Stays)
    (hlora : ∀ r, (obj r).loraRequest ≠ some 0) (ds : List NewRequestData)
    (hm : w.Midway adds) (hI : I w.requests.get? w.inputBatch)
    (hold : ∀ d ∈ ds, old d = w.requests.get? d.reqId)
    (hnodup : (ds.map NewRequestData.reqId).Nodup)
    (hnew : ∀ d ∈ ds, d.reqId ∉ adds.map CachedRequestState.reqId) :
    ∃ w' news, ds.foldlM (addNewRequest obj) (w, adds) = .ok (w', adds ++ news) ∧
      List.Forall₂ (fun d st => Describes obj (old d) d st) ds news ∧ w'.Midway (adds ++ news) ∧
      I w'.requests.get? w'.inputBatch ∧
      w'.inputBatch.maxNumReqs = w.inputBatch.maxNumReqs ∧ w'.encoderCache = w.encoderCache ∧
      (∀ x, w'.inputBatch.rowOf x =
        if x ∈ ds.map NewRequestData.reqId then none else w.inputBatch.rowOf x) ∧
      ∀ x, x ∉ ds.map NewRequestData.reqId → w'.requests.get? x = w.requests.get? x := by
  induction ds generalizing w adds with
  | nil =>
    exact ⟨w, [], by rw [List.append_nil]; rfl, .nil, by rwa [List.append_nil], hI, rfl, rfl,
      fun x => by simp, fun x _ => rfl⟩
  | cons d ds ih =>
    rw [List.map_cons, List.nodup_cons] at hnodup
    obtain ⟨w₁, st, h₁, hst, hm₁, hI₁, hmax₁, henc₁, hrows₁, hreq₁⟩ :=
      addNewRequest_spec hf hm hI (hnew d (by simp)) (hlora d.reqId)
    rw [← hold d (by simp)] at hst
    obtain ⟨w', news, hl, hnews, hm', hI', hmax', henc', hrows', hreq'⟩ :=
      ih hm₁ hI₁ (fun d' hd' => by
        have hne : d'.reqId ≠ d.reqId := fun heq => hnodup.1 (heq ▸ List.mem_map_of_mem hd')
        rw [hreq₁, Function.update_of_ne hne]
        exact hold d' (by simp [hd'])) hnodup.2 (fun d' hd' => by
        rw [List.map_append, List.map_singleton, List.mem_append, List.mem_singleton, not_or]
        refine ⟨hnew d' (by simp [hd']), fun heq => hnodup.1 ?_⟩
        rw [← hst.reqId, ← heq]
        exact List.mem_map_of_mem hd')
    rw [List.append_assoc, List.singleton_append] at hl hm'
    refine ⟨w', st :: news, foldlM_cons_eq_ok.mpr ⟨_, h₁, hl⟩, .cons hst hnews, hm', hI',
      hmax'.trans hmax₁, henc'.trans henc₁, fun x => ?_, fun x hx => ?_⟩
    · rw [hrows', hrows₁, List.map_cons]
      by_cases hx : x = d.reqId
      · simp [hx]
      · rw [Function.update_of_ne hx]
        simp [hx]
    · rw [List.map_cons, List.mem_cons, not_or] at hx
      rw [hreq' x hx.2, hreq₁, Function.update_of_ne hx.1]

/-! ### Cached requests -/

/-- The state of a cached request after its entry. -/
def afterEntry (resumedReqIds : Finset ReqId) (e : CachedRequestEntry) (st : CachedRequestState) :
    CachedRequestState :=
  { st with
    numComputedTokens := e.numComputedTokens
    outputTokenIds := st.outputTokenIds.take e.numOutputTokens.toNat
    blockIds := if e.reqId ∈ resumedReqIds then e.newBlockIds.getD []
      else extendBlockIds st.blockIds (e.newBlockIds.getD []) }

/-- What an entry of `scheduled_cached_reqs` asks for: a known request, which has no row and is
given blocks when it is resumed. -/
structure Serves (w : ModelRunner) (resumedReqIds : Finset ReqId) (e : CachedRequestEntry) :
    Prop where
  known : (w.requests.get? e.reqId).isSome
  resumed : e.reqId ∈ resumedReqIds →
    w.inputBatch.rowOf e.reqId = none ∧ e.newBlockIds.isSome

/-- A cached request is brought up to date, or waits to be added. -/
theorem updateCachedRequest_spec {resumedReqIds : Finset ReqId} {e : CachedRequestEntry}
    {st : CachedRequestState} (hf : Followed I Stays) (hm : w.Midway adds)
    (hI : I w.requests.get? w.inputBatch) (he : w.Serves resumedReqIds e)
    (hst : w.requests.get? e.reqId = some st)
    (hnew : e.reqId ∉ adds.map CachedRequestState.reqId)
    (hstays : Stays st (afterEntry resumedReqIds e st)) :
    ∃ w' more, updateCachedRequest resumedReqIds (w, adds) e = .ok (w', adds ++ more) ∧
      w'.Midway (adds ++ more) ∧ I w'.requests.get? w'.inputBatch ∧
      w'.inputBatch.maxNumReqs = w.inputBatch.maxNumReqs ∧ w'.encoderCache = w.encoderCache ∧
      (∀ x, w'.inputBatch.rowOf x = none ↔ w.inputBatch.rowOf x = none) ∧
      (∀ x, x ∈ more.map CachedRequestState.reqId ↔
        x = e.reqId ∧ w.inputBatch.rowOf e.reqId = none) ∧
      w'.requests.get? =
        Function.update w.requests.get? e.reqId (some (afterEntry resumedReqIds e st)) := by
  obtain ⟨hid, hlora⟩ := hm.ids e.reqId st hst
  have hget : (w.requests.set e.reqId (afterEntry resumedReqIds e st)).get? =
      Function.update w.requests.get? e.reqId (some (afterEntry resumedReqIds e st)) := by
    funext x
    rw [Dict.get?_set, Function.update_apply]
    simp only [eq_comm]
  have hblocks : updateBlockIds (e.reqId ∈ resumedReqIds)
      (w.inputBatch.reqIdToIndex.get? e.reqId) e.newBlockIds st.blockIds =
        .ok (afterEntry resumedReqIds e st).blockIds := by
    by_cases hres : e.reqId ∈ resumedReqIds
    · obtain ⟨hnone, hsome⟩ := he.resumed hres
      rw [InputBatch.rowOf, Option.map_eq_none_iff] at hnone
      obtain ⟨ids, hids⟩ := Option.isSome_iff_exists.mp hsome
      simp [updateBlockIds, afterEntry, hres, hnone, hids]
    · simp [updateBlockIds, afterEntry, hres]
  cases hi : w.inputBatch.reqIdToIndex.get? e.reqId with
  | none =>
    have hnone : w.inputBatch.rowOf e.reqId = none := by rw [InputBatch.rowOf, hi, Option.map_none]
    have hrows : w.inputBatch.rowOf = Function.update w.inputBatch.rowOf e.reqId none := by
      rw [← hnone, Function.update_eq_self]
    have hmid := hm.enter (afterEntry resumedReqIds e st) hm.batch hm.unread hm.unmoved hrows
      hid hlora hnew
    refine ⟨{ w with requests := w.requests.set e.reqId (afterEntry resumedReqIds e st) },
      [afterEntry resumedReqIds e st], ?_, hmid, ?_, rfl, rfl, fun x => Iff.rfl, fun x => ?_, hget⟩
    · rw [updateCachedRequest, hst]
      refine bind_eq_ok.mpr ⟨_, hblocks, ?_⟩
      simp only [hi]
      rfl
    · refine hf.forget hI hm.batch fun x hx => ?_
      have hne : x ≠ e.reqId := by
        rintro rfl
        rw [hnone] at hx
        cases hx
      rw [hget, Function.update_of_ne hne]
    · have hid' : (afterEntry resumedReqIds e st).reqId = e.reqId := hid
      simp [hid', hnone]
  | some i =>
    have hrow : w.inputBatch.rowOf e.reqId = some (w.inputBatch.row i) :=
      InputBatch.rowOf_eq_some.mpr ⟨i, hi, rfl⟩
    have hres : e.reqId ∉ resumedReqIds := fun hres => by
      rw [(he.resumed hres).1] at hrow
      cases hrow
    obtain ⟨st', hst', hshow⟩ := hm.rows e.reqId _ hrow
    rw [hst] at hst'
    cases hst'
    obtain ⟨row', hrow'⟩ : ∃ row' : BatchRow, row' =
        ({ w.inputBatch.row i with numComputedTokens := e.numComputedTokens } : BatchRow).appendRow
          (e.newBlockIds.getD []) := ⟨_, rfl⟩
    have hshow' : row' = (afterEntry resumedReqIds e st).row := by
      rw [hrow', hshow, afterEntry, if_neg hres]
      rfl
    obtain ⟨hb, hrows⟩ := InputBatch.setRow_spec row' hm.batch hi (by rw [hrow']; rfl)
    refine ⟨{ w with
        requests := w.requests.set e.reqId (afterEntry resumedReqIds e st)
        inputBatch := w.inputBatch.setRow i row' }, [], ?_, ?_, ?_, rfl, rfl, fun x => ?_,
      fun x => by simp [hrow], hget⟩
    · rw [updateCachedRequest, hst]
      refine bind_eq_ok.mpr ⟨_, hblocks, ?_⟩
      simp only [hi, List.append_nil, hrow']
      rfl
    · rw [List.append_nil]
      refine ⟨hb, hm.unread, hm.unmoved, fun x row hx => ?_, fun x st' hx => ?_,
        fun st' hst' => ?_, hm.distinct⟩
      · simp only [hrows] at hx
        simp only [hget]
        by_cases hxe : x = e.reqId
        · rw [hxe, Function.update_self] at hx ⊢
          exact ⟨_, rfl, (Option.some.inj hx).symm.trans hshow'⟩
        · rw [Function.update_of_ne hxe] at hx ⊢
          exact hm.rows x row hx
      · simp only [hget] at hx
        by_cases hxe : x = e.reqId
        · rw [hxe, Function.update_self, Option.some.injEq] at hx
          subst hx
          exact ⟨hid.trans hxe.symm, hlora⟩
        · rw [Function.update_of_ne hxe] at hx
          exact hm.ids x st' hx
      · have hne : st'.reqId ≠ e.reqId := fun heq => hnew (heq ▸ List.mem_map_of_mem hst')
        simp only [hget, hrows]
        rw [Function.update_of_ne hne, Function.update_of_ne hne]
        exact hm.waiting st' hst'
    · exact hf.update hI hm.batch hi hst hstays hget
    · simp only [hrows]
      by_cases hxe : x = e.reqId
      · rw [hxe, Function.update_self, hrow]
        simp
      · rw [Function.update_of_ne hxe]

/-- All entries of `scheduled_cached_reqs`. -/
theorem updateCachedRequests_spec {resumedReqIds : Finset ReqId} (hf : Followed I Stays)
    (es : List CachedRequestEntry) (hm : w.Midway adds) (hI : I w.requests.get? w.inputBatch)
    (hes : ∀ e ∈ es, w.Serves resumedReqIds e)
    (hnodup : (es.map CachedRequestEntry.reqId).Nodup)
    (hnew : ∀ e ∈ es, e.reqId ∉ adds.map CachedRequestState.reqId)
    (hstays : ∀ e ∈ es, ∀ st, w.requests.get? e.reqId = some st →
      Stays st (afterEntry resumedReqIds e st)) :
    ∃ w' more, es.foldlM (updateCachedRequest resumedReqIds) (w, adds) = .ok (w', adds ++ more) ∧
      w'.Midway (adds ++ more) ∧ I w'.requests.get? w'.inputBatch ∧
      w'.inputBatch.maxNumReqs = w.inputBatch.maxNumReqs ∧ w'.encoderCache = w.encoderCache ∧
      (∀ x, w'.inputBatch.rowOf x = none ↔ w.inputBatch.rowOf x = none) ∧
      (∀ x, x ∈ more.map CachedRequestState.reqId ↔
        x ∈ es.map CachedRequestEntry.reqId ∧ w.inputBatch.rowOf x = none) ∧
      (∀ e ∈ es, ∀ st, w.requests.get? e.reqId = some st →
        w'.requests.get? e.reqId = some (afterEntry resumedReqIds e st)) ∧
      ∀ x, x ∉ es.map CachedRequestEntry.reqId → w'.requests.get? x = w.requests.get? x := by
  induction es generalizing w adds with
  | nil =>
    exact ⟨w, [], by rw [List.append_nil]; rfl, by rwa [List.append_nil], hI, rfl, rfl,
      fun x => Iff.rfl, fun x => by simp, fun e he => absurd he (by simp), fun x _ => rfl⟩
  | cons e es ih =>
    rw [List.map_cons, List.nodup_cons] at hnodup
    have he := hes e (by simp)
    obtain ⟨st, hst⟩ := Option.isSome_iff_exists.mp he.known
    obtain ⟨w₁, m₁, h₁, hm₁, hI₁, hmax₁, henc₁, hrows₁, hmore₁, hreq₁⟩ :=
      updateCachedRequest_spec hf hm hI he hst (hnew e (by simp)) (hstays e (by simp) st hst)
    have hother : ∀ e' ∈ es, e'.reqId ≠ e.reqId := fun e' he' heq =>
      hnodup.1 (heq ▸ List.mem_map_of_mem he')
    have hsame : ∀ e' ∈ es, w₁.requests.get? e'.reqId = w.requests.get? e'.reqId := by
      intro e' he'
      rw [hreq₁, Function.update_of_ne (hother e' he')]
    obtain ⟨w', more, hl, hm', hI', hmax', henc', hrows', hmore', hafter, hreq'⟩ := ih hm₁ hI₁
      (fun e' he' => by
        have hserve := hes e' (by simp [he'])
        refine ⟨by rw [hsame e' he']; exact hserve.known, fun hres => ?_⟩
        obtain ⟨hnone, hsome⟩ := hserve.resumed hres
        exact ⟨(hrows₁ _).mpr hnone, hsome⟩) hnodup.2
      (fun e' he' => by
        rw [List.map_append, List.mem_append, not_or, hmore₁]
        exact ⟨hnew e' (by simp [he']), fun h => hother e' he' h.1⟩)
      (fun e' he' st' hst' => by
        rw [hsame e' he'] at hst'
        exact hstays e' (by simp [he']) st' hst')
    rw [List.append_assoc] at hl hm'
    refine ⟨w', m₁ ++ more, foldlM_cons_eq_ok.mpr ⟨_, h₁, hl⟩, hm', hI', hmax'.trans hmax₁,
      henc'.trans henc₁, fun x => (hrows' x).trans (hrows₁ x), fun x => ?_, ?_, fun x hx => ?_⟩
    · rw [List.map_append, List.mem_append, hmore', hmore₁, hrows₁, List.map_cons, List.mem_cons]
      constructor
      · rintro (⟨rfl, hnone⟩ | ⟨hmem, hnone⟩)
        · exact ⟨.inl rfl, hnone⟩
        · exact ⟨.inr hmem, hnone⟩
      · rintro ⟨rfl | hmem, hnone⟩
        · exact .inl ⟨rfl, hnone⟩
        · exact .inr ⟨hmem, hnone⟩
    · intro e' he' st' hst'
      rcases List.mem_cons.mp he' with rfl | he'
      · rw [hst] at hst'
        cases hst'
        rw [hreq' _ hnodup.1, hreq₁, Function.update_self]
      · rw [← hsame e' he'] at hst'
        exact hafter e' he' st' hst'
    · rw [List.map_cons, List.mem_cons, not_or] at hx
      rw [hreq' x hx.2, hreq₁, Function.update_of_ne hx.1]

/-! ### Adding the rows -/

/-- The requests that wait are added one after the other. -/
theorem addRequests_spec {d : ReqId → Option CachedRequestState} {b : InputBatch}
    (hf : Followed I Stays) (sts : List CachedRequestState) (hI : I d b) (hb : b.WellFormed)
    (hmoved : b.builder.moved = [])
    (hsts : ∀ st ∈ sts, d st.reqId = some st ∧ b.rowOf st.reqId = none ∧
      st.loraRequest ≠ some 0)
    (hnodup : (sts.map CachedRequestState.reqId).Nodup)
    (hroom : b.numReqs + sts.length ≤ b.maxNumReqs) :
    ∃ b', sts.foldlM InputBatch.addRequest b = .ok b' ∧ I d b' ∧ b'.WellFormed ∧
      b'.builder.moved = [] ∧ b'.maxNumReqs = b.maxNumReqs ∧
      (∀ st ∈ sts, b'.rowOf st.reqId = some st.row) ∧
      ∀ x, x ∉ sts.map CachedRequestState.reqId → b'.rowOf x = b.rowOf x := by
  induction sts generalizing b with
  | nil => exact ⟨b, rfl, hI, hb, hmoved, rfl, fun st hst => absurd hst (by simp), fun x _ => rfl⟩
  | cons st sts ih =>
    rw [List.map_cons, List.nodup_cons] at hnodup
    rw [List.length_cons] at hroom
    obtain ⟨hst, hnone, hlora⟩ := hsts st (by simp)
    obtain ⟨b₁, h₁⟩ := InputBatch.addRequest_ok hb (by omega) st
    obtain ⟨i, ha⟩ := InputBatch.addRequest_eq_ok hb h₁
    have hb₁ := ha.wellFormed hb hnone hlora
    have hrows₁ := ha.rowOf_eq hb
    have hmax₁ : b₁.maxNumReqs = b.maxNumReqs := by rw [ha.written]
    have hnum₁ := ha.numReqs_eq hnone
    obtain ⟨b', hl, hI', hb', hmoved', hmax', hrows', hrest'⟩ :=
      ih (hf.add hI hb hmoved hnone hst ha) hb₁ (ha.moved.trans hmoved)
        (fun st' hst' => by
          have hne : st'.reqId ≠ st.reqId := fun heq => hnodup.1 (heq ▸ List.mem_map_of_mem hst')
          obtain ⟨hd, hrow, hl⟩ := hsts st' (by simp [hst'])
          exact ⟨hd, by rw [hrows₁, Function.update_of_ne hne, hrow], hl⟩)
        hnodup.2 (by omega)
    refine ⟨b', foldlM_cons_eq_ok.mpr ⟨b₁, h₁, hl⟩, hI', hb', hmoved', hmax'.trans hmax₁,
      fun st' hst' => ?_, fun x hx => ?_⟩
    · rcases List.mem_cons.mp hst' with rfl | hst'
      · rw [hrest' _ hnodup.1, hrows₁, Function.update_self]
      · exact hrows' st' hst'
    · rw [List.map_cons, List.mem_cons, not_or] at hx
      rw [hrest' x hx.2, hrows₁, Function.update_of_ne hx.1]

/-! ### The whole update -/

/-- The scheduler names every scheduled request once, and the entries of the cached ones match. -/
structure WellFormed (out : SchedulerOutput) : Prop where
  distinct : (out.scheduledNewReqs.map NewRequestData.reqId ++
    out.scheduledCachedReqs.items.map CachedRequestEntry.reqId).Nodup
  complete : ∀ r, r ∈ out.numScheduledTokens.keys ↔
    r ∈ out.scheduledNewReqs.map NewRequestData.reqId ∨
      r ∈ out.scheduledCachedReqs.items.map CachedRequestEntry.reqId

/-- An output whose tokens are those of its requests is well formed. -/
theorem WellFormed.of_keys {out : SchedulerOutput}
    (h : out.numScheduledTokens.keys.Perm (out.scheduledNewReqs.map NewRequestData.reqId ++
      out.scheduledCachedReqs.items.map CachedRequestEntry.reqId)) : WellFormed out where
  distinct := h.nodup_iff.mp (Dict.keys_nodup _)
  complete r := by rw [h.mem_iff, List.mem_append]

/-- The worker can apply the output: the cached requests are known, the resumed ones come with
blocks, and the batch has room. -/
structure Applies (w : ModelRunner) (out : SchedulerOutput) : Prop where
  wellFormed : WellFormed out
  known : ∀ e ∈ out.scheduledCachedReqs.items,
    e.reqId ∉ out.finishedReqIds ∧ (w.requests.get? e.reqId).isSome
  resumed : ∀ e ∈ out.scheduledCachedReqs.items,
    e.reqId ∈ out.scheduledCachedReqs.resumedReqIds → e.newBlockIds.isSome
  room : out.numScheduledTokens.keys.length ≤ w.inputBatch.maxNumReqs

/-- What the worker holds after the output was applied. -/
structure Applied (obj : ReqId → Request) (out : SchedulerOutput) (w w' : ModelRunner) : Prop where
  sound : w'.Sound
  maxNumReqs : w'.inputBatch.maxNumReqs = w.inputBatch.maxNumReqs
  scheduled : ∀ r, (w'.inputBatch.rowOf r).isSome ↔ r ∈ out.numScheduledTokens.keys
  fresh : ∀ d ∈ out.scheduledNewReqs,
    ∃ st, w'.requests.get? d.reqId = some st ∧ Describes obj
      (if d.reqId ∈ out.finishedReqIds then none else w.requests.get? d.reqId) d st
  cached : ∀ e ∈ out.scheduledCachedReqs.items, ∀ st, w.requests.get? e.reqId = some st →
    w'.requests.get? e.reqId = some (afterEntry out.scheduledCachedReqs.resumedReqIds e st)
  others : ∀ r, r ∉ out.numScheduledTokens.keys →
    w'.requests.get? r = if r ∈ out.finishedReqIds then none else w.requests.get? r
  encoderCache : w'.encoderCache = w.encoderCache \ out.freeEncoderMmHashes.toFinset

/-- A member of the first list has a partner in the second. -/
theorem forall₂_mem {α β : Type*} {R : α → β → Prop} {l : List α} {l' : List β}
    (h : List.Forall₂ R l l') {a : α} (ha : a ∈ l) : ∃ b ∈ l', R a b := by
  induction h with
  | nil => cases ha
  | cons hab _ ih =>
    rcases List.mem_cons.mp ha with rfl | ha
    · exact ⟨_, by simp, hab⟩
    · obtain ⟨b, hb, hR⟩ := ih ha
      exact ⟨b, by simp [hb], hR⟩

/-- What describes the new requests has their ids. -/
theorem describes_ids {obj : ReqId → Request} {old : NewRequestData → Option CachedRequestState}
    {ds : List NewRequestData} {sts : List CachedRequestState}
    (h : List.Forall₂ (fun d st => Describes obj (old d) d st) ds sts) :
    sts.map CachedRequestState.reqId = ds.map NewRequestData.reqId := by
  induction h with
  | nil => rfl
  | cons hd _ ih => rw [List.map_cons, List.map_cons, hd.reqId, ih]

/-- An output that applies is applied without an error, and what the operations on rows keep holds
of the batch the update is taken from. -/
theorem updateStates_rule (threshold : Option ℤ) {obj : ReqId → Request} {out : SchedulerOutput}
    (hf : Followed I Stays) (hlora : ∀ r, (obj r).loraRequest ≠ some 0) (hw : w.Sound)
    (ha : w.Applies out) (hI : I w.requests.get? w.inputBatch)
    (hstays : ∀ e ∈ out.scheduledCachedReqs.items, ∀ st, w.requests.get? e.reqId = some st →
      Stays st (afterEntry out.scheduledCachedReqs.resumedReqIds e st)) :
    ∃ update w' b, w.updateStates threshold obj out = .ok (update, w') ∧ Applied obj out w w' ∧
      I w'.requests.get? b ∧ b.Condensed ∧ b.refreshMetadata = (update, w'.inputBatch) ∧
      ∀ t, threshold = some t → b.Split t out.numScheduledTokens := by
  obtain ⟨hnodup, hcomplete⟩ := ha.wellFormed
  obtain ⟨hnewNodup, hcachedNodup, hdisj⟩ := List.nodup_append.mp hnodup
  obtain ⟨w₁, h₁, hm₁, hI₁, hmax₁, henc₁, hrows₁, hreq₁⟩ := dropUnscheduled_spec hf hw hI out
  obtain ⟨w₂, news, h₂, hnews, hm₂, hI₂, hmax₂, henc₂, hrows₂, hreq₂⟩ :=
    addNewRequests_spec hf hlora out.scheduledNewReqs hm₁ hI₁ (fun d _ => rfl) hnewNodup (by simp)
  rw [List.nil_append] at h₂ hm₂
  have hnewsIds : ∀ x, x ∈ news.map CachedRequestState.reqId ↔
      x ∈ out.scheduledNewReqs.map NewRequestData.reqId := by
    intro x
    rw [describes_ids hnews]
  have hcachedNew : ∀ e ∈ out.scheduledCachedReqs.items,
      e.reqId ∉ out.scheduledNewReqs.map NewRequestData.reqId := fun e he hmem =>
    hdisj _ hmem _ (List.mem_map_of_mem he) rfl
  have hreq₁₂ : ∀ e ∈ out.scheduledCachedReqs.items,
      w₂.requests.get? e.reqId = w.requests.get? e.reqId := by
    intro e he
    rw [hreq₂ _ (hcachedNew e he), hreq₁, if_neg (ha.known e he).1]
  obtain ⟨w₃, more, h₃, hm₃, hI₃, hmax₃, henc₃, hrows₃, hmore₃, hafter₃, hreq₃⟩ :=
    updateCachedRequests_spec hf out.scheduledCachedReqs.items hm₂ hI₂
      (fun e he => by
        refine ⟨by rw [hreq₁₂ e he]; exact (ha.known e he).2, fun hres => ?_⟩
        refine ⟨?_, ha.resumed e he hres⟩
        rw [hrows₂, if_neg (hcachedNew e he), hrows₁, if_neg fun hkeep => hkeep.2.2 hres])
      hcachedNodup (fun e he => by rw [hnewsIds]; exact hcachedNew e he)
      (fun e he st hst => hstays e he st (by rwa [hreq₁₂ e he] at hst))
  have hkept : ∀ x, (w₃.inputBatch.rowOf x).isSome →
      x ∈ out.numScheduledTokens.keys ∧ x ∉ (news ++ more).map CachedRequestState.reqId := by
    intro x hx
    have hx₂ : w₂.inputBatch.rowOf x ≠ none := by
      rw [Ne, ← hrows₃ x]
      exact Option.isSome_iff_ne_none.mp hx
    have hx₂' := hx₂
    rw [hrows₂] at hx₂'
    split at hx₂'
    · exact absurd rfl hx₂'
    · rename_i hnot
      rw [hrows₁] at hx₂'
      split at hx₂'
      · rename_i hkeep
        refine ⟨hkeep.2.1, ?_⟩
        rw [List.map_append, List.mem_append, hnewsIds, hmore₃, not_or]
        exact ⟨hnot, fun h => hx₂ h.2⟩
      · exact absurd rfl hx₂'
  have hadded : ∀ x, x ∈ (news ++ more).map CachedRequestState.reqId →
      x ∈ out.numScheduledTokens.keys := by
    intro x hx
    rw [List.map_append, List.mem_append, hnewsIds, hmore₃] at hx
    exact (hcomplete x).mpr (hx.imp id And.left)
  have hroom : w₃.inputBatch.numReqs + (news ++ more).length ≤ w₃.inputBatch.maxNumReqs := by
    have hsub : (w₃.inputBatch.reqIdToIndex.keys ++
        (news ++ more).map CachedRequestState.reqId) ⊆ out.numScheduledTokens.keys := by
      intro x hx
      rcases List.mem_append.mp hx with hx | hx
      · exact (hkept x (InputBatch.isSome_rowOf.mpr hx)).1
      · exact hadded x hx
    have hnodup' : (w₃.inputBatch.reqIdToIndex.keys ++
        (news ++ more).map CachedRequestState.reqId).Nodup := by
      refine List.Nodup.append (Dict.keys_nodup _) hm₃.distinct fun x hx hx' => ?_
      exact (hkept x (InputBatch.isSome_rowOf.mpr hx)).2 hx'
    have hlen := (hnodup'.subperm hsub).length_le
    rw [List.length_append, List.length_map] at hlen
    rw [hmax₃, hmax₂, hmax₁]
    exact hlen.trans ha.room
  obtain ⟨b₄, h₄, hI₄, hb₄, hmoved₄, hmax₄, hrows₄, hrest₄⟩ := addRequests_spec hf (news ++ more)
    hI₃ hm₃.batch hm₃.unmoved
    (fun st hst => ⟨(hm₃.waiting st hst).1, (hm₃.waiting st hst).2,
      (hm₃.ids _ st (hm₃.waiting st hst).1).2⟩) hm₃.distinct hroom
  have hscheduled : ∀ r, (b₄.rowOf r).isSome ↔ r ∈ out.numScheduledTokens.keys := by
    intro r
    by_cases hr : r ∈ (news ++ more).map CachedRequestState.reqId
    · obtain ⟨st, hst, rfl⟩ := List.mem_map.mp hr
      rw [hrows₄ st hst]
      simp [hadded _ hr]
    · rw [hrest₄ r hr]
      refine ⟨fun h => (hkept r h).1, fun h => ?_⟩
      rw [List.map_append, List.mem_append, hnewsIds, hmore₃, not_or] at hr
      rcases (hcomplete r).mp h with h | h
      · exact absurd h hr.1
      · by_contra hnone
        exact hr.2 ⟨h, (hrows₃ r).mp (Option.not_isSome_iff_eq_none.mp hnone)⟩
  obtain ⟨b₅, h₅, hb₅, hsame₅⟩ := InputBatch.condense_spec hb₄
  have hI₅ := hf.condense hI₄ hb₄ hmoved₄ h₅
  have hall : b₅.AllScheduled out.numScheduledTokens := by
    intro r hr
    rw [← hscheduled, ← hsame₅.rowOf]
    exact InputBatch.isSome_rowOf.mpr hr
  have hreorder : ∃ b₆, mayReorderBatch threshold out b₅ = .ok b₆ ∧ b₆.Condensed ∧
      InputBatch.SameRows b₅ b₆ ∧ I w₃.requests.get? b₆ ∧
      ∀ t, threshold = some t → b₆.Split t out.numScheduledTokens := by
    cases threshold with
    | none => exact ⟨b₅, rfl, hb₅, .refl b₅, hI₅, fun t ht => nomatch ht⟩
    | some t =>
      obtain ⟨b₆, h₆, hb₆, hsame₆, hI₆, hsplit₆⟩ := InputBatch.reorder_rule t
        (J := I w₃.requests.get?) hb₅ hall hI₅ fun u u' i j hu hJ hsw hij => hf.swap hJ hu hsw hij
      exact ⟨b₆, h₆, hb₆, hsame₆, hI₆, fun t' ht => Option.some.inj ht ▸ hsplit₆⟩
  obtain ⟨b₆, h₆, hb₆, hsame₆, hI₆, hsplit₆⟩ := hreorder
  obtain ⟨hb₇, hsettled₇, hsame₇, -⟩ := InputBatch.refreshMetadata_spec hb₆
  have hsame := hsame₅.trans (hsame₆.trans hsame₇)
  refine ⟨b₆.refreshMetadata.1, { w₃ with inputBatch := b₆.refreshMetadata.2 }, b₆, ?_, ?_, hI₆, hb₆,
    rfl, hsplit₆⟩
  · refine bind_eq_ok.mpr ⟨w₁, h₁, bind_eq_ok.mpr ⟨_, h₂, bind_eq_ok.mpr ⟨_, h₃, ?_⟩⟩⟩
    exact bind_eq_ok.mpr ⟨b₄, h₄, bind_eq_ok.mpr ⟨b₅, h₅, bind_eq_ok.mpr ⟨b₆, h₆, rfl⟩⟩⟩
  · refine ⟨⟨hb₇, hsettled₇, fun r row hr => ?_, hm₃.ids⟩, ?_, fun r => ?_, fun d hd => ?_,
      fun e he st hst => ?_, fun r hr => ?_, ?_⟩
    · rw [hsame.rowOf] at hr
      by_cases hmem : r ∈ (news ++ more).map CachedRequestState.reqId
      · obtain ⟨st, hst, rfl⟩ := List.mem_map.mp hmem
        rw [hrows₄ st hst] at hr
        exact ⟨st, (hm₃.waiting st hst).1, (Option.some.inj hr).symm⟩
      · rw [hrest₄ r hmem] at hr
        exact hm₃.rows r row hr
    · exact hsame.maxNumReqs.trans (hmax₄.trans (hmax₃.trans (hmax₂.trans hmax₁)))
    · rw [hsame.rowOf, hscheduled]
    · obtain ⟨st, hst, hdesc⟩ := forall₂_mem hnews hd
      refine ⟨st, ?_, by rwa [hreq₁] at hdesc⟩
      rw [← hdesc.reqId]
      exact (hm₃.waiting st (by simp [hst])).1
    · exact hafter₃ e he st (by rwa [hreq₁₂ e he])
    · rw [hcomplete, not_or] at hr
      rw [hreq₃ r hr.2, hreq₂ r hr.1, hreq₁]
    · exact (henc₃.trans henc₂).trans henc₁

/-- An output that applies is applied without an error. -/
theorem updateStates_ok (threshold : Option ℤ) {obj : ReqId → Request} {out : SchedulerOutput}
    (hlora : ∀ r, (obj r).loraRequest ≠ some 0) (hw : w.Sound) (ha : w.Applies out) :
    ∃ update w', w.updateStates threshold obj out = .ok (update, w') ∧ Applied obj out w w' := by
  obtain ⟨update, w', -, hrun, happlied, -⟩ := updateStates_rule threshold followed_true hlora
    hw ha trivial fun _ _ _ _ => trivial
  exact ⟨update, w', hrun, happlied⟩

/-- At the start the worker is sound. -/
theorem init_sound (maxNumReqs : ℕ) : (ModelRunner.init maxNumReqs).Sound where
  batch := InputBatch.WellFormed.init maxNumReqs
  settled := rfl
  rows r row hr := by cases hr
  ids r st hst := by cases hst

end ModelRunner

/-! ### Sampled tokens -/

/-- The sampled tokens of a request in the batch are appended to its state. -/
theorem get?_appendSampled (sampled : ReqId → List Token) (w : ModelRunner) (r : ReqId) :
    (w.appendSampled sampled).requests.get? r =
      if r ∈ w.inputBatch.reqIdToIndex.keys then
        (w.requests.get? r).map fun st =>
          { st with outputTokenIds := st.outputTokenIds ++ sampled r }
      else w.requests.get? r := by
  have hfold : ∀ (l : List ReqId) (d : Dict ReqId CachedRequestState), l.Nodup →
      (l.foldl (fun d r => d.modify r fun st =>
        { st with outputTokenIds := st.outputTokenIds ++ sampled r }) d).get? r =
      if r ∈ l then (d.get? r).map fun st =>
        { st with outputTokenIds := st.outputTokenIds ++ sampled r }
      else d.get? r := by
    intro l
    induction l with
    | nil => simp
    | cons x l ih =>
      intro d hnodup
      obtain ⟨hnot, hnodup⟩ := List.nodup_cons.mp hnodup
      rw [List.foldl_cons, ih _ hnodup, Dict.get?_modify]
      by_cases hx : x = r
      · subst hx
        simp [hnot]
      · simp [hx, Ne.symm hx]
  exact hfold _ _ (Dict.keys_nodup _)

/-- Sampled tokens leave the worker sound. -/
theorem ModelRunner.Sound.appendSampled {w : ModelRunner} (hw : w.Sound)
    (sampled : ReqId → List Token) : (w.appendSampled sampled).Sound where
  batch := hw.batch
  settled := hw.settled
  rows r row hr := by
    obtain ⟨st, hst, hrow⟩ := hw.rows r row hr
    rw [get?_appendSampled, hst]
    split
    · exact ⟨_, rfl, hrow⟩
    · exact ⟨st, rfl, hrow⟩
  ids r st hst := by
    rw [get?_appendSampled] at hst
    split at hst
    · obtain ⟨st', hst', rfl⟩ := Option.map_eq_some_iff.mp hst
      exact hw.ids r st' hst'
    · exact hw.ids r st hst

end RpsServe
