import RpsServe.Worker.LogitsProcessor
import RpsServe.Worker.UpdateStates

/-!
# State that follows the rows

What every logits processor has to do with an update, as a function of the rows: the added
rows are written, the removed ones are cleared, and the moved ones are carried over. A state
that is updated in this way shows for each row what belongs to the request that stands there,
whatever rows the batch gave to it in between.
-/

namespace RpsServe

variable {V T α : Type*} {clear : V} {newState : AddedRequest → V}

/-- Write the added rows. -/
def applyAdded (newState : AddedRequest → V) (f : ℕ → V) (added : List AddedRequest) : ℕ → V :=
  added.foldl (fun f a => Function.update f a.index (newState a)) f

/-- Clear the removed rows. -/
def applyRemoved (clear : V) (f : ℕ → V) (removed : List ℕ) (i : ℕ) : V :=
  if i ∈ removed then clear else f i

/-- Carry a row over to another one, or exchange the two. -/
def applyMove (clear : V) (f : ℕ → V) (m : MovedRequest) (i : ℕ) : V :=
  if i = m.dst then f m.src
  else if i = m.src then
    match m.direct with
    | .swap => f m.dst
    | .unidirectional => clear
  else f i

/-- The rows after an update. -/
def applyRows (clear : V) (newState : AddedRequest → V) (f : ℕ → V) (added : List AddedRequest)
    (removed : List ℕ) (moved : List MovedRequest) : ℕ → V :=
  moved.foldl (applyMove clear) (applyRemoved clear (applyAdded newState f added) removed)

/-- The rows after the update that the builder would hand out. -/
def applyUpdate (clear : V) (newState : AddedRequest → V) (f : ℕ → V) :
    Option BatchUpdate → ℕ → V
  | none => f
  | some u => applyRows clear newState f u.added u.removed u.moved

/-- The removed rows that are not read do not matter. -/
theorem applyRows_congr {f : ℕ → V} {added : List AddedRequest} {removed : List ℕ}
    (removed' : List ℕ) {moved : List MovedRequest} (h : ∀ i, i ∈ removed ↔ i ∈ removed') :
    applyRows clear newState f added removed moved =
      applyRows clear newState f added removed' moved := by
  have heq : applyRemoved clear (applyAdded newState f added) removed =
      applyRemoved clear (applyAdded newState f added) removed' := by
    funext i
    simp only [applyRemoved, h]
  rw [applyRows, applyRows, heq]

/-- What the builder hands out has the effect of what was pending in it. -/
theorem applyUpdate_getAndReset (f : ℕ → V) (u : BatchUpdateBuilder) (n : ℕ) :
    applyUpdate clear newState f (u.getAndReset n).1 =
      applyRows clear newState f u.added u.removed u.moved := by
  unfold BatchUpdateBuilder.getAndReset
  split
  · rename_i hnil
    obtain ⟨hr, hm, ha⟩ := hnil
    funext i
    simp [applyUpdate, applyRows, applyAdded, applyRemoved, hr, hm, ha]
  · rfl

/-- A move comes after the rest of the update. -/
theorem applyRows_move {f : ℕ → V} {added : List AddedRequest} {removed : List ℕ}
    {moved : List MovedRequest} (m : MovedRequest) :
    applyRows clear newState f added removed (moved ++ [m]) =
      applyMove clear (applyRows clear newState f added removed moved) m := by
  rw [applyRows, applyRows, List.foldl_append]
  rfl

/-- Where every row is clear, nothing is left to remove or to move. -/
theorem applyRows_of_clear {f : ℕ → V} {added : List AddedRequest} {removed : List ℕ}
    {moved : List MovedRequest} (h : applyAdded newState f added = fun _ => clear) :
    applyRows clear newState f added removed moved = fun _ => clear := by
  have hremoved : applyRemoved clear (fun _ => clear) removed = fun _ => clear := by
    funext i
    simp [applyRemoved]
  rw [applyRows, h, hremoved]
  induction moved with
  | nil => rfl
  | cons m moved ih =>
    have hm : applyMove clear (fun _ => clear) m = fun _ => clear := by
      funext i
      unfold applyMove
      cases m.direct <;> simp
    rw [List.foldl_cons, hm, ih]

/-- Moves of other rows carry a difference in one row along unchanged. -/
theorem foldl_applyMove_of_ne {f g : ℕ → V} {x : ℕ} {moved : List MovedRequest}
    (hfg : ∀ i, i ≠ x → f i = g i) (hmoved : ∀ m ∈ moved, m.src ≠ x ∧ m.dst ≠ x) :
    ∀ i, i ≠ x → moved.foldl (applyMove clear) f i = moved.foldl (applyMove clear) g i := by
  induction moved generalizing f g with
  | nil => exact hfg
  | cons m moved ih =>
    refine ih (fun i hi => ?_) fun m' hm' => hmoved m' (by simp [hm'])
    obtain ⟨hsrc, hdst⟩ := hmoved m (by simp)
    simp only [applyMove, hfg _ hsrc, hfg _ hdst, hfg _ hi]

/-- A one-way move into a row clears whatever was there. -/
theorem applyRows_moveDown {f : ℕ → V} {added : List AddedRequest} {removed : List ℕ}
    {moved : List MovedRequest} {src dst : ℕ} (hne : src ≠ dst)
    (hmoved : ∀ m ∈ moved, m.src ≠ dst ∧ m.dst ≠ dst) (i : ℕ) :
    applyRows clear newState f added removed
        (moved ++ [{ src := src, dst := dst, direct := .unidirectional }]) i =
      if i = dst then applyRows clear newState f added (dst :: removed) moved src
      else if i = src then clear
      else applyRows clear newState f added (dst :: removed) moved i := by
  rw [applyRows_move]
  have hother : ∀ i, i ≠ dst → applyRows clear newState f added removed moved i =
      applyRows clear newState f added (dst :: removed) moved i := by
    refine foldl_applyMove_of_ne (fun i hi => ?_) hmoved
    simp [applyRemoved, hi]
  simp only [applyMove]
  by_cases hd : i = dst
  · rw [if_pos hd, if_pos hd, hother src hne]
  · rw [if_neg hd, if_neg hd, hother i hd]

/-- What a row shows: nothing where no request stands, else what `R` says of the request. -/
def Seen (clear : V) (R : CachedRequestState → V → Prop)
    (d : ReqId → Option CachedRequestState) (r : Option ReqId) (v : V) : Prop :=
  match r with
  | none => v = clear
  | some r => ∃ st, d r = some st ∧ R st v

variable {R : CachedRequestState → V → Prop} {f : ℕ → V}

/-- With the update that is pending in the builder, the state shows every row's request. -/
structure Tracks (clear : V) (newState : AddedRequest → V) (R : CachedRequestState → V → Prop)
    (f : ℕ → V) (d : ReqId → Option CachedRequestState) (b : InputBatch) : Prop where
  seen : ∀ i, Seen clear R d (b.reqAt i)
    (applyRows clear newState f b.builder.added b.builder.removed b.builder.moved i)
  apart : ∀ m ∈ b.builder.moved, m.src ≠ m.dst ∧
    (m.direct = .unidirectional → b.reqIds.length ≤ m.src)

/-- The entry that the logits processors are told about a state. -/
def CachedRequestState.addedAt (st : CachedRequestState) (i : ℕ) : AddedRequest where
  index := i
  reqId := st.reqId
  samplingParams := st.samplingParams
  promptTokenIds := st.promptTokenIds
  outputTokenIds := st.outputTokenIds

/-- The rows of the batch without its pending update. -/
theorem reqAt_congr {b b' : InputBatch} {i j : ℕ} (h : b'.reqIds[j]? = b.reqIds[i]?) :
    b'.reqAt j = b.reqAt i := by
  rw [InputBatch.reqAt, InputBatch.reqAt, h]

section Operations

variable {d d' : ReqId → Option CachedRequestState} {b b' : InputBatch} {r : ReqId} {i j : ℕ}
  {st st' : CachedRequestState}

/-- Removing a request empties its row and notes it in the builder. -/
theorem removeRequest_frame (h : b.removeRequest r = .ok b') (hb : b.WellFormed)
    (hi : b.reqIdToIndex.get? r = some i) :
    b'.builder = { b.builder with removed := b.builder.removed ++ [i] } ∧
      ∀ j, b'.reqAt j = if j = i then none else b.reqAt j := by
  obtain ⟨-, b₁, row, hlora, -, rfl⟩ := InputBatch.removeRequest_eq_ok h hi
  obtain ⟨_, rfl, -⟩ := InputBatch.discardLora_eq_ok hlora
  refine ⟨rfl, fun j => ?_⟩
  by_cases hj : j = i
  · subst hj
    simp [InputBatch.reqAt, hb.index_lt hi]
  · rw [if_neg hj]
    exact reqAt_congr (List.getElem?_set_ne (Ne.symm hj))

/-- Removing a request keeps the state tracking. -/
theorem tracks_remove (h : Tracks clear newState R f d b) (hb : b.WellFormed)
    (hmoved : b.builder.moved = []) (hrem : b.removeRequest r = .ok b') :
    Tracks clear newState R f d b' := by
  cases hi : b.reqIdToIndex.get? r with
  | none =>
    rw [InputBatch.removeRequest, hi] at hrem
    cases hrem
    exact h
  | some i =>
    obtain ⟨hbuilder, hat⟩ := removeRequest_frame hrem hb hi
    refine ⟨fun j => ?_, by simp [hbuilder, hmoved]⟩
    have hj := h.seen j
    simp only [hbuilder, hmoved, hat, applyRows, List.foldl_nil, applyRemoved, List.mem_append,
      List.mem_singleton] at hj ⊢
    by_cases hji : j = i
    · simp [hji, Seen]
    · simpa [hji] using hj

/-- Changing cached states without rows keeps the state tracking. -/
theorem tracks_forget (h : Tracks clear newState R f d b) (hb : b.WellFormed)
    (hsame : ∀ r, (b.rowOf r).isSome → d' r = d r) : Tracks clear newState R f d' b := by
  refine ⟨fun i => ?_, h.apart⟩
  have hi := h.seen i
  cases hat : b.reqAt i with
  | none =>
    rw [hat] at hi
    exact hi
  | some r =>
    rw [hat] at hi
    obtain ⟨st, hst, hR⟩ := hi
    have hindex := (hb.index r i).mpr (InputBatch.reqAt_eq_some.mp hat)
    refine ⟨st, ?_, hR⟩
    rw [hsame r (by rw [InputBatch.rowOf, hindex]; rfl), hst]

/-- Changing a cached state as it may keeps the state tracking. -/
theorem tracks_update {row : BatchRow} (h : Tracks clear newState R f d b)
    (hst : d r = some st) (hstays : ∀ v, R st v → R st' v)
    (hd : d' = Function.update d r (some st')) :
    Tracks clear newState R f d' (b.setRow i row) := by
  refine ⟨fun j => ?_, h.apart⟩
  have hj := h.seen j
  change Seen clear R d' (b.reqAt j) _
  cases hat : b.reqAt j with
  | none =>
    rw [hat] at hj
    exact hj
  | some x =>
    rw [hat] at hj
    obtain ⟨stx, hstx, hR⟩ := hj
    by_cases hx : x = r
    · subst hx
      rw [hst] at hstx
      cases hstx
      exact ⟨st', by rw [hd, Function.update_self], hstays _ hR⟩
    · exact ⟨stx, by rw [hd, Function.update_of_ne hx, hstx], hR⟩

/-- Adding a request keeps the state tracking. -/
theorem tracks_add (hnew : ∀ st i, R st (newState (st.addedAt i)))
    (h : Tracks clear newState R f d b) (hb : b.WellFormed) (hmoved : b.builder.moved = [])
    (hst : d st.reqId = some st) (ha : InputBatch.AddedAt b b' st i) :
    Tracks clear newState R f d b' := by
  have hmem : ∀ j, j ≠ i → (j ∈ b'.builder.removed ↔ j ∈ b.builder.removed) := by
    intro j hj
    rcases ha.place with ⟨hnil, hnil', -⟩ | ⟨hperm, -⟩
    · rw [hnil, hnil']
    · rw [hperm.mem_iff]
      simp [hj]
  have hnot : i ∉ b'.builder.removed := by
    rcases ha.place with ⟨-, hnil', -⟩ | ⟨hperm, -⟩
    · rw [hnil']
      simp
    · exact fun hi => (List.nodup_append.mp (hperm.nodup_iff.mp hb.distinct)).2.2 i hi i (by simp) rfl
  refine ⟨fun j => ?_, by simp [ha.moved, hmoved]⟩
  have hj := h.seen j
  simp only [ha.moved, hmoved, ha.added, applyRows, List.foldl_nil, applyAdded, List.foldl_append,
    List.foldl_cons, applyRemoved] at hj ⊢
  by_cases hji : j = i
  · subst hji
    have hat : b'.reqAt j = some st.reqId := by
      rw [InputBatch.reqAt_eq_some, ha.reqIds_get, if_pos rfl]
    rw [hat, if_neg hnot, Function.update_self]
    exact ⟨st, hst, hnew st j⟩
  · have hat : b'.reqAt j = b.reqAt j := reqAt_congr (by rw [ha.reqIds_get, if_neg hji])
    rw [hat]
    simp only [hmem j hji, Function.update_of_ne hji]
    exact hj

/-- What is kept through the moves of `condense`, with the rows `rest` still empty. -/
structure TracksMoves (clear : V) (newState : AddedRequest → V) (R : CachedRequestState → V → Prop)
    (f : ℕ → V) (d : ReqId → Option CachedRequestState) (rest : List ℕ) (b : InputBatch) :
    Prop where
  seen : ∀ i, Seen clear R d (b.reqAt i)
    (applyRows clear newState f b.builder.added rest b.builder.moved i)
  empty : ∀ x ∈ rest, b.reqIds[x]? = some none
  distinct : rest.Nodup
  untouched : ∀ m ∈ b.builder.moved, ∀ x ∈ rest, m.src ≠ x ∧ m.dst ≠ x
  apart : ∀ m ∈ b.builder.moved, m.src ≠ m.dst ∧
    (m.direct = .unidirectional → b.reqIds[m.src]? = some none)

/-- A move keeps the state tracking. -/
theorem TracksMoves.moveDown {src dst : ℕ} {rest : List ℕ}
    (h : TracksMoves clear newState R f d (dst :: rest) b)
    (hm : InputBatch.MovesDown b b' r src dst) : TracksMoves clear newState R f d rest b' := by
  have hbelow := hm.below
  have hadded : b'.builder.added = b.builder.added := by rw [hm.moved]
  have hmoved : b'.builder.moved = b.builder.moved ++
      [{ src := src, dst := dst, direct := .unidirectional }] := by rw [hm.moved]
  obtain ⟨hnot, hnodup⟩ := List.nodup_cons.mp h.distinct
  refine ⟨fun i => ?_, fun x hx => ?_, hnodup, fun m hm' x hx => ?_, fun m hm' => ?_⟩
  · rw [hadded, hmoved, applyRows_moveDown (by omega) fun m hm' => h.untouched m hm' dst (by simp)]
    have hget := hm.reqIds_get i
    by_cases hd : i = dst
    · subst hd
      rw [if_pos rfl]
      have hat : b'.reqAt i = b.reqAt src := by
        rw [if_neg (by omega), if_pos rfl] at hget
        exact reqAt_congr (hget.trans hm.stands.symm)
      rw [hat]
      exact h.seen src
    · rw [if_neg hd]
      by_cases hs : i = src
      · subst hs
        rw [if_pos rfl]
        have hat : b'.reqAt i = none := by
          rw [if_pos rfl] at hget
          rw [InputBatch.reqAt, hget]
          rfl
        rw [hat]
        rfl
      · rw [if_neg hs]
        rw [if_neg hs, if_neg hd] at hget
        rw [reqAt_congr hget]
        exact h.seen i
  · rw [hm.reqIds_get]
    split
    · rfl
    · rw [if_neg fun heq : x = dst => hnot (heq ▸ hx)]
      exact h.empty x (by simp [hx])
  · rw [hmoved, List.mem_append, List.mem_singleton] at hm'
    rcases hm' with hm' | rfl
    · exact h.untouched m hm' x (by simp [hx])
    · refine ⟨fun heq => ?_, fun heq : dst = x => hnot (heq ▸ hx)⟩
      have hempty := h.empty x (by simp [hx])
      rw [← heq, hm.stands] at hempty
      cases hempty
  · rw [hmoved, List.mem_append, List.mem_singleton] at hm'
    rcases hm' with hm' | rfl
    · obtain ⟨hne, hempty⟩ := h.apart m hm'
      refine ⟨hne, fun hdirect => ?_⟩
      rw [hm.reqIds_get]
      split
      · rfl
      · rw [if_neg (h.untouched m hm' dst (by simp)).1]
        exact hempty hdirect
    · refine ⟨hbelow.ne', fun _ => ?_⟩
      rw [hm.reqIds_get, if_pos rfl]

/-- Condensing keeps the state tracking. -/
theorem tracks_condense (h : Tracks clear newState R f d b) (hb : b.WellFormed)
    (hmoved : b.builder.moved = []) (hcond : b.condense = .ok b') :
    Tracks clear newState R f d b' := by
  obtain ⟨hperm, -, -, hadded, hsorted⟩ := InputBatch.ensureRemovedSorted_spec hb.sorted
  have hmem : ∀ i, i ∈ b.builder.ensureRemovedSorted.removed.reverse ↔ i ∈ b.builder.removed := by
    intro i
    rw [List.mem_reverse, hperm.mem_iff]
  have hstart : TracksMoves clear newState R f d b.builder.ensureRemovedSorted.removed.reverse
      { b with builder := b.builder.ensureRemovedSorted } := by
    refine ⟨fun i => ?_, fun x hx => (hb.empty x).mp ((hmem x).mp hx),
      List.nodup_reverse.mpr (hperm.nodup_iff.mpr hb.distinct), fun m hm => ?_, ?_⟩
    · simp only [hadded, hsorted]
      rw [applyRows_congr _ hmem]
      exact h.seen i
    · simp only [hsorted, hmoved] at hm
      cases hm
    · simp [hsorted, hmoved]
  obtain ⟨t, left, hok, hleft, hindex, hfull⟩ := InputBatch.condense_rule hb hstart
    fun t t' r src dst rest ht _ hm => ht.moveDown hm
  rw [hok, Except.ok.injEq] at hcond
  subst hcond
  obtain ⟨-, hlen, hget⟩ := InputBatch.take_full hfull
  refine ⟨fun i => ?_, fun m hm => ?_⟩
  rotate_left
  · obtain ⟨hne, hempty⟩ := hleft.apart m hm
    refine ⟨hne, fun hdirect => ?_⟩
    change (t.reqIds.take b.numReqs).length ≤ m.src
    refine (List.length_take_le _ _).trans (Nat.le_of_not_lt fun hlt => ?_)
    obtain ⟨r, hr⟩ := (hfull m.src).mpr hlt
    rw [hempty hdirect] at hr
    cases hr
  have hseen := hleft.seen i
  have hat : InputBatch.reqAt { t with
      reqIds := t.reqIds.take b.numReqs
      builder := { t.builder with removed := left.reverse } } i = t.reqAt i := by
    refine Option.ext fun r => ?_
    rw [InputBatch.reqAt_eq_some, InputBatch.reqAt_eq_some]
    exact hget i r
  rw [hat]
  rwa [applyRows_congr left (fun x => List.mem_reverse)]

/-- Swapping two rows keeps the state tracking. -/
theorem tracks_swap (h : Tracks clear newState R f d b) (hs : InputBatch.Swapped b b' i j)
    (hij : i ≠ j) : Tracks clear newState R f d b' := by
  refine ⟨fun k => ?_, fun m hm => ?_⟩
  rotate_left
  · rw [hs.moved, List.mem_append, List.mem_singleton] at hm
    rw [hs.length]
    rcases hm with hm | rfl
    · exact h.apart m hm
    · exact ⟨hij, fun hdirect => nomatch hdirect⟩
  rw [hs.added, hs.removed, hs.moved, applyRows_move]
  have hk := hs.reqIds k
  simp only [applyMove]
  by_cases hkj : k = j
  · rw [if_pos hkj] at hk
    rw [if_pos hkj, reqAt_congr hk]
    exact h.seen i
  · by_cases hki : k = i
    · rw [if_neg hkj, if_pos hki] at hk
      rw [if_neg hkj, if_pos hki, reqAt_congr hk]
      exact h.seen j
    · rw [if_neg hkj, if_neg hki] at hk
      rw [if_neg hkj, if_neg hki, reqAt_congr hk]
      exact h.seen k

/-- State that is kept for each row follows every operation of a step. -/
theorem tracks_followed (hnew : ∀ st i, R st (newState (st.addedAt i))) :
    ModelRunner.Followed (Tracks clear newState R f) (fun st st' => ∀ v, R st v → R st' v) where
  remove h hb _ hmoved hrem := tracks_remove h hb hmoved hrem
  forget h hb hsame := tracks_forget h hb hsame
  update h _ _ hst hstays hd := tracks_update h hst hstays hd
  add h hb hmoved _ hst ha := tracks_add hnew h hb hmoved hst ha
  condense h hb hmoved hcond := tracks_condense h hb hmoved hcond
  swap h _ hs hij := tracks_swap h hs hij

end Operations

/-- Between the steps, the state of each row is that of the request that stands there. -/
def Shows (clear : V) (R : CachedRequestState → V → Prop) (f : ℕ → V) (w : ModelRunner) : Prop :=
  ∀ i, Seen clear R w.requests.get? (w.inputBatch.reqAt i) (f i)

variable (newState) in
/-- A state that shows the rows before the step, updated with what the step hands out, shows the
rows after it. -/
theorem shows_updateStates {w : ModelRunner} (threshold : Option ℤ) {obj : ReqId → Request}
    {out : SchedulerOutput} (hnew : ∀ st i, R st (newState (st.addedAt i)))
    (hlora : ∀ r, (obj r).loraRequest ≠ some 0) (hw : w.Sound) (ha : w.Applies out)
    (hf : Shows clear R f w)
    (hstays : ∀ e ∈ out.scheduledCachedReqs.items, ∀ st, w.requests.get? e.reqId = some st →
      ∀ v, R st v →
        R (ModelRunner.afterEntry out.scheduledCachedReqs.resumedReqIds e st) v) :
    ∃ update w', w.updateStates threshold obj out = .ok (update, w') ∧
      ModelRunner.Applied obj out w w' ∧
      Shows clear R (applyUpdate clear newState f update) w' ∧
      ∀ u, update = some u → u.batchSize = w'.inputBatch.numReqs ∧ ∀ m ∈ u.moved,
        m.src ≠ m.dst ∧ (m.direct = .unidirectional → w'.inputBatch.numReqs ≤ m.src) := by
  have hsettled : w.inputBatch.builder = {} := hw.settled
  have hstart : Tracks clear newState R f w.requests.get? w.inputBatch := by
    refine ⟨fun i => ?_, by simp [hsettled]⟩
    rw [hsettled]
    simpa [applyRows, applyAdded, applyRemoved] using hf i
  obtain ⟨update, w', b, hrun, happlied, htracks, hfull, hrefresh, -⟩ :=
    ModelRunner.updateStates_rule threshold (tracks_followed hnew) hlora hw ha hstart
      hstays
  have hupdate : (b.builder.getAndReset b.numReqs).1 = update := congrArg Prod.fst hrefresh
  have hbatch : w'.inputBatch = b.refreshMetadata.2 := (congrArg Prod.snd hrefresh).symm
  have hnum : w'.inputBatch.numReqs = b.numReqs := by
    rw [hbatch]
    rfl
  refine ⟨update, w', hrun, happlied, fun i => ?_, fun u hu => ?_⟩
  · have hi := htracks.seen i
    have hat : w'.inputBatch.reqAt i = b.reqAt i := by
      rw [hbatch]
      rfl
    rwa [hat, ← hupdate, applyUpdate_getAndReset]
  · rw [← hupdate] at hu
    unfold BatchUpdateBuilder.getAndReset at hu
    split at hu
    · cases hu
    · cases hu
      refine ⟨hnum.symm, fun m hm => ?_⟩
      rw [hnum, ← hfull.size]
      exact htracks.apart m hm

/-- The row of a request shows its state. -/
theorem ModelRunner.Sound.exists_state {w : ModelRunner} (hw : w.Sound) {i : ℕ} {r : ReqId}
    (h : w.inputBatch.reqAt i = some r) :
    ∃ st, w.requests.get? r = some st ∧ w.inputBatch.row i = st.row := by
  have hindex := (hw.batch.index r i).mpr (InputBatch.reqAt_eq_some.mp h)
  exact hw.rows r _ (InputBatch.rowOf_eq_some.mpr ⟨i, hindex, rfl⟩)

/-- Between the steps the rows of a batch are those below its number of requests. -/
theorem exists_reqAt_iff {w : ModelRunner} (hw : w.Sound) (i : ℕ) :
    (∃ r, w.inputBatch.reqAt i = some r) ↔ i < w.inputBatch.numReqs := by
  have hremoved : w.inputBatch.builder.removed = [] :=
    congrArg BatchUpdateBuilder.removed hw.settled
  have hsize : w.inputBatch.reqIds.length = w.inputBatch.numReqs := by
    rw [hw.batch.size, hremoved]
    rfl
  have hsome : w.inputBatch.reqIds[i]? ≠ some none := by
    rw [ne_eq, ← hw.batch.empty, hremoved]
    exact List.not_mem_nil
  rw [← hsize]
  constructor
  · rintro ⟨r, hr⟩
    exact (List.getElem?_eq_some_iff.mp (InputBatch.reqAt_eq_some.mp hr)).1
  · intro hi
    rw [List.getElem?_eq_getElem hi, ne_eq, Option.some.injEq] at hsome
    obtain ⟨r, hr⟩ := Option.ne_none_iff_exists'.mp hsome
    exact ⟨r, InputBatch.reqAt_eq_some.mpr (by rw [List.getElem?_eq_getElem hi, hr])⟩

/-- A step without an update has as many rows as the step before. -/
theorem numReqs_of_noUpdate {w w' : ModelRunner} {threshold : Option ℤ} {obj : ReqId → Request}
    {out : SchedulerOutput} (hlora : ∀ r, (obj r).loraRequest ≠ some 0) (hw : w.Sound)
    (ha : w.Applies out) (h : w.updateStates threshold obj out = .ok (none, w')) :
    w'.inputBatch.numReqs = w.inputBatch.numReqs := by
  have hshow : Shows false (fun _ v => v = true) (fun i => decide (i < w.inputBatch.numReqs)) w := by
    intro i
    have hrow := exists_reqAt_iff hw i
    cases hat : w.inputBatch.reqAt i with
    | none =>
      exact decide_eq_false fun hi => by simp [hat] at hrow; omega
    | some r =>
      obtain ⟨st, hst, -⟩ := hw.exists_state hat
      exact ⟨st, hst, decide_eq_true (hrow.mp ⟨r, hat⟩)⟩
  obtain ⟨u, w₁, hrun, happlied, hshow', -⟩ := shows_updateStates (R := fun _ v => v = true)
    (fun _ => true) threshold (fun _ _ => rfl) hlora hw ha hshow fun _ _ _ _ _ hv => hv
  rw [h] at hrun
  cases hrun
  refine InputBatch.numReqs_eq_of_full happlied.sound.batch.index fun i => ?_
  have hi := hshow' i
  cases hat : w'.inputBatch.reqAt i with
  | none =>
    rw [hat] at hi
    have hge : ¬ i < w.inputBatch.numReqs := of_decide_eq_false hi
    refine ⟨fun hr => ?_, fun hlt => absurd hlt hge⟩
    obtain ⟨r, hr⟩ := hr
    rw [InputBatch.reqAt_eq_some.mpr hr] at hat
    cases hat
  | some r =>
    rw [hat] at hi
    obtain ⟨st, -, hv⟩ := hi
    exact ⟨fun _ => of_decide_eq_true hv, fun _ => ⟨r, InputBatch.reqAt_eq_some.mp hat⟩⟩

end RpsServe
