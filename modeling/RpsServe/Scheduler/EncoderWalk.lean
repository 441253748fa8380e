import RpsServe.Scheduler.Lookups
import RpsServe.Scheduler.Budgets
import RpsServe.EncoderCache.Accounts

/-!
# The walk over the items of a candidate

What `_try_schedule_encoder_inputs` promises of the tokens, the items and the budget that it
returns, for a decoder-only model. No item that it schedules is cached, so that the items can
be allocated one after the other, and there is room for all of them. The walk ends at the
first item that begins behind the scheduled tokens, so that what it returns serves all items
only if they stand in order.
-/

namespace RpsServe

open EncoderCacheManager

open LoopState (encoderEmbeds)

/-! ### Embeddings in a range -/

namespace MmFeature

/-- The position of the placeholder range has an embedding. -/
def embedsAt (f : MmFeature) (k : ℕ) : Bool :=
  match f.isEmbed with
  | none => k < f.length
  | some mask => mask[k]?.getD false

/-- The item has an embedding at a position of the prompt in `[lo, hi)`. -/
def HasEmbedsIn (f : MmFeature) (lo hi : ℤ) : Prop :=
  ∃ k : ℕ, f.embedsAt k = true ∧ lo ≤ f.offset + k ∧ f.offset + k < hi

/-- An item with embeddings in a range has them in a longer one. -/
theorem HasEmbedsIn.mono {f : MmFeature} {lo hi hi' : ℤ} (h : f.HasEmbedsIn lo hi) (hle : hi ≤ hi') :
    f.HasEmbedsIn lo hi' := by
  obtain ⟨k, hk, hlo, hhi⟩ := h
  exact ⟨k, hk, hlo, hhi.trans_le hle⟩

/-- An item with an embedding at a position is longer than it. -/
theorem lt_length_of_embedsAt {f : MmFeature} {k : ℕ} (h : f.embedsAt k = true) : k < f.length := by
  unfold embedsAt at h
  split at h
  · exact of_decide_eq_true h
  · rename_i mask hmask
    rw [← f.isEmbed_length mask hmask]
    by_contra hge
    rw [List.getElem?_eq_none (not_lt.mp hge)] at h
    cases h

/-- There are no fewer embeddings before a later position. -/
theorem embedsBefore_mono (mask : List Bool) {n m : ℕ} (h : n ≤ m) :
    embedsBefore mask n ≤ embedsBefore mask m :=
  (List.take_sublist_take_left h).count_le true

/-- There are more embeddings before the position behind one of them. -/
theorem embedsBefore_lt {mask : List Bool} {k : ℕ} (h : mask[k]?.getD false = true) :
    embedsBefore mask k < embedsBefore mask (k + 1) := by
  have hget : mask[k]? = some true := by
    cases hk : mask[k]? with
    | none =>
      rw [hk] at h
      cases h
    | some b =>
      rw [hk] at h
      exact congrArg some h
  simp [embedsBefore, List.take_add_one, hget]

/-- Where the indices of a range meet, no embedding is in it. -/
theorem not_hasEmbedsIn {f : MmFeature} {lo hi : ℤ}
    (h : (f.getEmbedsIndicesInRange (max 0 (lo - f.offset)) (min (f.length : ℤ) (hi - f.offset))).2 -
      (f.getEmbedsIndicesInRange (max 0 (lo - f.offset)) (min (f.length : ℤ) (hi - f.offset))).1 = 0) :
    ¬ f.HasEmbedsIn lo hi := by
  rintro ⟨k, hk, hlo, hhi⟩
  have hlength := lt_length_of_embedsAt hk
  unfold getEmbedsIndicesInRange at h
  unfold embedsAt at hk
  split at h
  · dsimp only at h
    omega
  · rename_i mask hmask
    rw [hmask] at hk
    have hbefore := embedsBefore_mono mask (n := (max 0 (lo - f.offset)).toNat) (m := k) (by omega)
    have hbehind := embedsBefore_mono mask (n := k + 1) (m := (min (f.length : ℤ) (hi - f.offset)).toNat)
      (by omega)
    have hat := embedsBefore_lt hk
    dsimp only at h
    omega

end MmFeature

/-! ### The items that are scheduled -/

/-- The items that the walk has chosen to compute or to load. -/
def EncoderPass.inputs {E : Type} (p : EncoderPass E) : List ℕ :=
  p.encoderInputsToSchedule ++ p.externalLoadEncoderInput

/-- The chosen items are not cached, and are noted under their hashes. -/
structure EncoderPass.Chosen (q : Request) (p : EncoderPass EncoderCacheManager) : Prop where
  lacks : p.enc.Lacks q p.inputs
  hashes : ∀ h, h ∈ p.mmHashesToSchedule ↔ ∃ i ∈ p.inputs, q.mmHash i = h

variable {cfg : Config} {env : StepEnv} {q : Request} {numComputedTokens shift : ℤ} {i : ℕ}
  {f g : MmFeature} {fs : List MmFeature} {p p' p₁ : EncoderPass EncoderCacheManager}
  {enc : EncoderCacheManager} {goOn hit : Bool}

/-- What is left of a list begins with the item at its index. -/
theorem drop_eq_cons {α : Type*} {l rest : List α} {i : ℕ} {a : α} (h : l.drop i = a :: rest) :
    l[i]? = some a ∧ l.drop (i + 1) = rest := by
  refine ⟨?_, ?_⟩
  · rw [← List.head?_drop, h]
    rfl
  · rw [← List.tail_drop, h]
    rfl

/-- The hash of an item is its identifier. -/
theorem mmHash_of_getElem? (hf : q.mmFeatures[i]? = some f) : q.mmHash i = f.identifier := by
  simp [Request.mmHash, hf]

/-- The embeddings of an item are counted by its mask. -/
theorem getNumEncoderEmbeds_of_getElem? (hf : q.mmFeatures[i]? = some f) :
    q.getNumEncoderEmbeds i = f.getNumEmbeds := by
  simp [Request.getNumEncoderEmbeds, hf]

/-- The index of an item is within the items. -/
theorem lt_length_of_getElem? (hf : q.mmFeatures[i]? = some f) : i < q.mmFeatures.length :=
  (List.getElem?_eq_some_iff.mp hf).1

/-- The ways in which an item that is not cached enters the walk's variables. -/
inductive ItemAddOutcome (i : ℕ) (f : MmFeature) (numComputedTokens : ℤ)
    (p : EncoderPass EncoderCacheManager) : EncoderPass EncoderCacheManager → Prop
  | outside : ¬ f.HasEmbedsIn numComputedTokens (numComputedTokens + p.numNewTokens) →
      ItemAddOutcome i f numComputedTokens p p
  | chosen {p₂} : p₂.inputs.Perm (i :: p.inputs) →
      p₂.mmHashesToSchedule = insert f.identifier p.mmHashesToSchedule →
      p₂.numEmbedsToSchedule = p.numEmbedsToSchedule + f.getNumEmbeds → p₂.enc = p.enc →
      p₂.numNewTokens = p.numNewTokens → ItemAddOutcome i f numComputedTokens p p₂

variable (cfg env i f numComputedTokens p) in
/-- Adding an item has one of the outcomes. -/
theorem encoderItemAdd_outcome : ItemAddOutcome i f numComputedTokens p
    (encoderItemAdd cfg env i f numComputedTokens p) := by
  unfold encoderItemAdd
  dsimp only
  split
  · rename_i hzero
    refine .outside (MmFeature.not_hasEmbedsIn ?_)
    exact hzero
  · split
    · refine .chosen ?_ rfl rfl rfl rfl
      rw [EncoderPass.inputs, ← List.append_assoc]
      exact List.perm_append_singleton _ _
    · refine .chosen ?_ rfl rfl rfl rfl
      rw [EncoderPass.inputs, List.append_assoc]
      exact List.perm_middle

namespace EncoderPass.Chosen

/-- A pass that begins has chosen nothing wrong. -/
theorem start (numNewTokens budget : ℤ) : EncoderPass.Chosen q
    { enc := enc, numNewTokens := numNewTokens, encoderComputeBudget := budget } where
  lacks := .nil _ _
  hashes h := by simp [inputs]

/-- Making room and cutting the tokens leaves what is chosen right. -/
theorem withEnc (hp : p.Chosen q) (hkeys : enc.cached.keys ⊆ p.enc.cached.keys) (n : ℤ) :
    EncoderPass.Chosen q { p with enc := enc, numNewTokens := n } :=
  ⟨hp.lacks.mono hkeys, hp.hashes⟩

/-- An item that is not cached and not chosen yet is added. -/
theorem add (hp : p.Chosen q) (hf : q.mmFeatures[i]? = some f) (hnew : f.identifier ∉ p.mmHashesToSchedule)
    (hmiss : f.identifier ∉ p.enc.cached.keys) :
    (encoderItemAdd cfg env i f numComputedTokens p).Chosen q := by
  have hadd := encoderItemAdd_outcome cfg env numComputedTokens i f p
  generalize encoderItemAdd cfg env i f numComputedTokens p = p' at hadd
  have hhash := mmHash_of_getElem? hf
  cases hadd with
  | outside => exact hp
  | chosen hperm hhashes _ henc =>
    refine ⟨?_, fun h => ?_⟩
    · rw [henc]
      refine Lacks.perm (hp.lacks.cons (lt_length_of_getElem? hf) (fun j hj hji => ?_) (hhash ▸ hmiss)) hperm
      exact hnew ((hp.hashes _).mpr ⟨j, hj, hji.trans hhash⟩)
    · rw [hhashes, Finset.mem_insert, hp.hashes]
      simp only [hperm.mem_iff, List.mem_cons, or_and_right, exists_or, exists_eq_left, hhash]
      exact or_congr_left eq_comm

end EncoderPass.Chosen

/-- A lookup that finds nothing. -/
theorem encoderItemCached_miss (hdec : cfg.isEncoderDecoder = false) (hf : q.mmFeatures[i]? = some f)
    (h : encoderItemCached cfg q i f p = .ok (false, p₁)) :
    p = p₁ ∧ f.identifier ∉ p.mmHashesToSchedule ∧ f.identifier ∉ p.enc.cached.keys := by
  cases encoderItemCached_outcome h with
  | encoderDecoder htrue => exact absurd (hdec.symm.trans htrue) (by decide)
  | looked _ hnew hcheck =>
    obtain ⟨rfl, hmiss⟩ := checkAndUpdateCache_miss hcheck
    exact ⟨rfl, hnew, mmHash_of_getElem? hf ▸ hmiss⟩

/-- An item of the pass is chosen right. -/
theorem encoderItem_chosen (hdec : cfg.isEncoderDecoder = false) (hf : q.mmFeatures[i]? = some f)
    (hp : p.Chosen q) (h : encoderItem cfg env q numComputedTokens shift i f p = .ok (goOn, p')) :
    p'.Chosen q := by
  cases encoderItem_outcome h with
  | beyond | encoded | computed => exact hp
  | cached _ hcached =>
    cases encoderItemCached_outcome hcached with
    | repeated => exact hp
    | looked _ _ hcheck => exact hp.withEnc (checkAndUpdateCache_keys hcheck) _
  | rolledBack _ hcached =>
    obtain ⟨rfl, -⟩ := encoderItemCached_miss hdec hf hcached
    exact ⟨hp.lacks, hp.hashes⟩
  | noRoom _ hcached hcan =>
    obtain ⟨rfl, -⟩ := encoderItemCached_miss hdec hf hcached
    exact hp.withEnc (canAllocate_evicts hcan).keys _
  | added _ hcached hcan =>
    obtain ⟨rfl, hnew, hmiss⟩ := encoderItemCached_miss hdec hf hcached
    have hkeys := (canAllocate_evicts hcan).keys
    exact (hp.withEnc hkeys _).add hf hnew fun hmem => hmiss (hkeys hmem)

/-- The items of a pass are chosen right. -/
theorem encoderItems_chosen (hdec : cfg.isEncoderDecoder = false) (hfs : q.mmFeatures.drop i = fs)
    (hp : p.Chosen q) (h : encoderItems cfg env q numComputedTokens shift i fs p = .ok p') :
    p'.Chosen q := by
  induction fs generalizing i p with
  | nil =>
    cases h
    exact hp
  | cons f rest ih =>
    obtain ⟨hf, hrest⟩ := drop_eq_cons hfs
    obtain ⟨⟨goOn, p₁⟩, hitem, h⟩ := bind_eq_ok.mp h
    have hp₁ := encoderItem_chosen hdec hf hp hitem
    dsimp only at h
    split at h
    · exact ih hrest hp₁ h
    · cases h
      exact hp₁

/-- What is scheduled of a request's items is not cached. -/
theorem tryScheduleEncoderInputs_chosen {numNewTokens budget : ℤ} (hdec : cfg.isEncoderDecoder = false)
    (h : tryScheduleEncoderInputs cfg env enc q numComputedTokens numNewTokens budget shift = .ok p) :
    p.Chosen q := by
  unfold tryScheduleEncoderInputs at h
  dsimp only at h
  split at h
  · cases h
    exact .start _ _
  · exact encoderItems_chosen hdec List.drop_zero (.start _ _) h

/-! ### Room for the items -/

/-- There is room for all items that the walk has chosen. -/
structure EncoderPass.Fits (q : Request) (p : EncoderPass EncoderCacheManager) : Prop extends
    EncoderPass.Chosen q p where
  consistent : p.enc.Consistent
  embeds : p.numEmbedsToSchedule = encoderEmbeds q p.inputs
  room : p.numEmbedsToSchedule ≤ p.enc.numFreeSlots

/-- The embeddings of inputs do not depend on their order. -/
theorem encoderEmbeds_perm {l l' : List ℕ} (h : l.Perm l') : encoderEmbeds q l = encoderEmbeds q l' :=
  (h.map _).sum_eq

namespace EncoderPass.Fits

/-- A pass that begins fits. -/
theorem start (henc : enc.Consistent) (numNewTokens budget : ℤ) : EncoderPass.Fits q
    { enc := enc, numNewTokens := numNewTokens, encoderComputeBudget := budget } where
  toChosen := .start _ _
  consistent := henc
  embeds := rfl
  room := henc.nonneg

/-- Making room and cutting the tokens leaves a pass that fits. -/
theorem withEnc (hp : p.Fits q) (henc : enc.Consistent) (hkeys : enc.cached.keys ⊆ p.enc.cached.keys)
    (hslots : p.enc.numFreeSlots ≤ enc.numFreeSlots) (n : ℤ) :
    EncoderPass.Fits q { p with enc := enc, numNewTokens := n } :=
  ⟨hp.toChosen.withEnc hkeys n, henc, hp.embeds, hp.room.trans hslots⟩

/-- The chosen items can be allocated one after the other. -/
theorem allocate_ok {inputs : List ℕ} (henc : enc.Consistent) (hlacks : enc.Lacks q inputs)
    (hroom : encoderEmbeds q inputs ≤ enc.numFreeSlots) :
    ∃ enc', allocateEncoderInputs q inputs enc = .ok enc' := by
  induction inputs generalizing enc with
  | nil => exact ⟨enc, rfl⟩
  | cons i rest ih =>
    have hsum : encoderEmbeds q (i :: rest) = q.getNumEncoderEmbeds i + encoderEmbeds q rest := rfl
    have hrest := encoderEmbeds_nonneg q rest
    obtain ⟨enc₁, hone⟩ := henc.allocate_ok (q := q) (i := i) (by omega)
    have hnew := hlacks.missing i List.mem_cons_self
    have henc₁ := henc.allocate hnew hone
    obtain ⟨-, heq⟩ := allocate_eq_ok hnew hone
    have hlacks₁ : enc₁.Lacks q rest := hlacks.tail (by rw [heq])
    obtain ⟨enc', hall⟩ := ih henc₁ hlacks₁ (by rw [heq]; dsimp only; omega)
    exact ⟨enc', bind_eq_ok.mpr ⟨enc₁, hone, hall⟩⟩

end EncoderPass.Fits

variable (cfg q i f) in
/-- A lookup of the walk that does not raise. -/
theorem encoderItemCached_ok (hp : p.enc.Consistent) :
    ∃ hit p₁, encoderItemCached cfg q i f p = .ok (hit, p₁) ∧ p₁.enc.Consistent := by
  unfold encoderItemCached
  split
  · exact ⟨_, _, rfl, hp⟩
  · split
    · exact ⟨_, _, rfl, hp⟩
    · obtain ⟨hit, enc, hcheck⟩ := hp.lookup_ok q i
      exact ⟨hit, { p with enc := enc }, bind_eq_ok.mpr ⟨_, hcheck, rfl⟩, hp.lookup hcheck⟩

variable (env q numComputedTokens shift i f) in
/-- For a decoder-only model no item raises. -/
theorem encoderItem_ok (hdec : cfg.isEncoderDecoder = false) (hp : p.enc.Consistent) :
    ∃ goOn p', encoderItem cfg env q numComputedTokens shift i f p = .ok (goOn, p') := by
  unfold encoderItem
  split
  · exact ⟨_, _, rfl⟩
  rw [if_neg (by simp [hdec])]
  split
  · exact ⟨_, _, rfl⟩
  obtain ⟨hit, p₁, hcached, hp₁⟩ := encoderItemCached_ok cfg q i f hp
  obtain ⟨fits, enc, hcan, -⟩ :=
    hp₁.canAllocate_ok q i p₁.encoderComputeBudget p₁.numEmbedsToSchedule
  cases hit with
  | true => exact ⟨_, _, bind_eq_ok.mpr ⟨_, hcached, rfl⟩⟩
  | false =>
    by_cases hchunk : cfg.disableChunkedMmInput ∧ numComputedTokens < f.offset ∧
        numComputedTokens + p₁.numNewTokens < (f.offset : ℤ) + f.length
    · exact ⟨_, _, bind_eq_ok.mpr ⟨_, hcached, if_pos hchunk⟩⟩
    · cases fits <;>
        exact ⟨_, _, bind_eq_ok.mpr ⟨_, hcached,
          (if_neg hchunk).trans (bind_eq_ok.mpr ⟨_, hcan, rfl⟩)⟩⟩

/-- An item of the pass fits. -/
theorem encoderItem_fits (hdec : cfg.isEncoderDecoder = false) (hf : q.mmFeatures[i]? = some f)
    (hp : p.Fits q) (h : encoderItem cfg env q numComputedTokens shift i f p = .ok (goOn, p')) :
    p'.Fits q := by
  have hchosen := encoderItem_chosen hdec hf hp.toChosen h
  have hroom : ∀ {fits enc}, EncoderCache.canAllocate p.enc q i p.encoderComputeBudget
      p.numEmbedsToSchedule = .ok (fits, enc) → enc.Consistent ∧ p.enc.numFreeSlots ≤ enc.numFreeSlots ∧
        (fits = true → q.getNumEncoderEmbeds i + p.numEmbedsToSchedule ≤ enc.numFreeSlots) := by
    intro fits enc hcan
    obtain ⟨fits', enc', hcan', hle, hfits⟩ :=
      hp.consistent.canAllocate_ok q i p.encoderComputeBudget p.numEmbedsToSchedule
    cases hcan.symm.trans hcan'
    exact ⟨hp.consistent.canAllocate hcan, hle, hfits⟩
  cases encoderItem_outcome h with
  | beyond | encoded | computed => exact hp
  | cached _ hcached =>
    cases encoderItemCached_outcome hcached with
    | repeated => exact hp
    | looked _ _ hcheck =>
      refine ⟨hchosen, hp.consistent.lookup hcheck, hp.embeds, hp.room.trans_eq ?_⟩
      cases checkAndUpdateCache_outcome hcheck <;> rfl
  | rolledBack _ hcached =>
    obtain ⟨rfl, -⟩ := encoderItemCached_miss hdec hf hcached
    exact ⟨hchosen, hp.consistent, hp.embeds, hp.room⟩
  | noRoom _ hcached hcan =>
    obtain ⟨rfl, -⟩ := encoderItemCached_miss hdec hf hcached
    obtain ⟨hconsistent, hle, -⟩ := hroom hcan
    exact ⟨hchosen, hconsistent, hp.embeds, hp.room.trans hle⟩
  | @added _ enc _ hcached hcan =>
    obtain ⟨rfl, -⟩ := encoderItemCached_miss hdec hf hcached
    obtain ⟨hconsistent, hle, hfits⟩ := hroom hcan
    have hadd := encoderItemAdd_outcome cfg env numComputedTokens i f { p with enc := enc }
    generalize encoderItemAdd cfg env i f numComputedTokens { p with enc := enc } = p' at hadd hchosen
    cases hadd with
    | outside => exact ⟨hchosen, hconsistent, hp.embeds, hp.room.trans hle⟩
    | chosen hperm _ hembeds henc =>
      have hnum := getNumEncoderEmbeds_of_getElem? hf
      have hsum : encoderEmbeds q (i :: p.inputs) = q.getNumEncoderEmbeds i + encoderEmbeds q p.inputs :=
        rfl
      have hbefore := hp.embeds
      have hroom' := hfits rfl
      refine ⟨hchosen, henc ▸ hconsistent, ?_, ?_⟩
      · rw [encoderEmbeds_perm hperm, hembeds]
        change p.numEmbedsToSchedule + f.getNumEmbeds = encoderEmbeds q (i :: p.inputs)
        omega
      · rw [hembeds, henc]
        change p.numEmbedsToSchedule + f.getNumEmbeds ≤ enc.numFreeSlots
        omega

/-! ### Items that are provided for -/

/-- The item is cached for the request or will be computed. -/
def EncoderPass.Provides (q : Request) (p : EncoderPass EncoderCacheManager) (f : MmFeature) : Prop :=
  p.enc.Holds f.identifier q.requestId ∨ f.identifier ∈ p.mmHashesToSchedule

/-- What the treatment of one item does for the items before it. -/
theorem encoderItem_provides (hdec : cfg.isEncoderDecoder = false) (hf : q.mmFeatures[i]? = some f)
    (hp : p.enc.Consistent) (h : encoderItem cfg env q numComputedTokens shift i f p = .ok (goOn, p'))
    (hg : p.Provides q g) : p'.Provides q g := by
  have hkept : ∀ {enc fits}, EncoderCache.canAllocate p.enc q i p.encoderComputeBudget
      p.numEmbedsToSchedule = .ok (fits, enc) → p.enc.Holds g.identifier q.requestId →
      enc.Holds g.identifier q.requestId := fun hcan hh =>
    (canAllocate_shrinks hp.wf hcan).holds _ _ (Set.notMem_empty _) hh
  cases encoderItem_outcome h with
  | beyond | encoded | computed => exact hg
  | cached _ hcached =>
    cases encoderItemCached_outcome hcached with
    | repeated => exact hg
    | looked _ _ hcheck =>
      exact hg.imp_left ((checkAndUpdateCache_spec hp.wf hcheck).1.holds _ _ (Set.notMem_empty _))
  | rolledBack _ hcached =>
    obtain ⟨rfl, -⟩ := encoderItemCached_miss hdec hf hcached
    exact hg
  | noRoom _ hcached hcan =>
    obtain ⟨rfl, -⟩ := encoderItemCached_miss hdec hf hcached
    exact hg.imp_left (hkept hcan)
  | @added _ enc _ hcached hcan =>
    obtain ⟨rfl, -⟩ := encoderItemCached_miss hdec hf hcached
    have hadd := encoderItemAdd_outcome cfg env numComputedTokens i f { p with enc := enc }
    generalize encoderItemAdd cfg env i f numComputedTokens { p with enc := enc } = p' at hadd
    have hroom : EncoderPass.Provides q { p with enc := enc } g := hg.imp_left (hkept hcan)
    cases hadd with
    | outside => exact hroom
    | chosen _ hhashes _ henc =>
      refine hroom.imp (fun hh => henc ▸ hh) fun hmem => ?_
      rw [hhashes]
      exact Finset.mem_insert_of_mem hmem

/-- An item that the walk goes on behind is provided for, if it has embeddings in the range. -/
theorem encoderItem_goOn (hdec : cfg.isEncoderDecoder = false) (hf : q.mmFeatures[i]? = some f)
    (hp : p.enc.Consistent) (h : encoderItem cfg env q numComputedTokens shift i f p = .ok (true, p')) :
    p'.numNewTokens = p.numNewTokens ∧
      (f.HasEmbedsIn numComputedTokens (numComputedTokens + p.numNewTokens) → p'.Provides q f) := by
  cases encoderItem_outcome h with
  | encoded hencoded => exact absurd (hdec.symm.trans hencoded) (by decide)
  | computed hcomputed =>
    refine ⟨rfl, ?_⟩
    rintro ⟨k, hk, hlo, -⟩
    have := MmFeature.lt_length_of_embedsAt hk
    omega
  | cached _ hcached =>
    cases encoderItemCached_outcome hcached with
    | repeated hmem => exact ⟨rfl, fun _ => .inr hmem⟩
    | looked _ _ hcheck =>
      have hholds := (checkAndUpdateCache_spec hp.wf hcheck).2
      rw [if_pos rfl, mmHash_of_getElem? hf] at hholds
      exact ⟨rfl, fun _ => .inl hholds⟩
  | @added _ enc _ hcached hcan =>
    obtain ⟨rfl, -⟩ := encoderItemCached_miss hdec hf hcached
    have hadd := encoderItemAdd_outcome cfg env numComputedTokens i f { p with enc := enc }
    generalize encoderItemAdd cfg env i f numComputedTokens { p with enc := enc } = p' at hadd
    cases hadd with
    | outside hout => exact ⟨rfl, fun hin => absurd hin hout⟩
    | chosen _ hhashes _ _ htokens =>
      refine ⟨htokens, fun _ => .inr ?_⟩
      rw [hhashes]
      exact Finset.mem_insert_self _ _

/-- Where the walk ends, the tokens that are left end before the item. -/
theorem encoderItem_stop (hshift : 0 ≤ shift) (hp : 0 ≤ p.numNewTokens)
    (h : encoderItem cfg env q numComputedTokens shift i f p = .ok (false, p')) :
    0 ≤ p'.numNewTokens ∧ p'.numNewTokens ≤ p.numNewTokens ∧
      (p'.numNewTokens = 0 ∨ numComputedTokens + p'.numNewTokens ≤ f.offset) := by
  cases encoderItem_outcome h with
  | beyond hbeyond => exact ⟨hp, le_refl _, .inr (by omega)⟩
  | rolledBack hneeds =>
    have := hneeds.1
    dsimp only
    omega
  | noRoom hneeds =>
    have := hneeds.1
    dsimp only
    split <;> omega

variable (env) in
/-- The walk from the index of an item on, over items in order. -/
theorem encoderItems_spec (hdec : cfg.isEncoderDecoder = false) (hshift : 0 ≤ shift)
    (hfs : q.mmFeatures.drop i = fs) (hsorted : fs.Pairwise fun f g => f.offset ≤ g.offset)
    (hp : p.Fits q) (htokens : 0 ≤ p.numNewTokens) :
    ∃ p', encoderItems cfg env q numComputedTokens shift i fs p = .ok p' ∧ p'.Fits q ∧
      0 ≤ p'.numNewTokens ∧ p'.numNewTokens ≤ p.numNewTokens ∧
      (∀ g, p.Provides q g → p'.Provides q g) ∧
      ∀ g ∈ fs, g.HasEmbedsIn numComputedTokens (numComputedTokens + p'.numNewTokens) →
        p'.Provides q g := by
  induction fs generalizing i p with
  | nil =>
    exact ⟨p, rfl, hp, htokens, le_refl _, fun _ hg => hg, fun _ hg => absurd hg List.not_mem_nil⟩
  | cons f rest ih =>
    obtain ⟨hf, hrest⟩ := drop_eq_cons hfs
    obtain ⟨hhead, htail⟩ := List.pairwise_cons.mp hsorted
    obtain ⟨goOn, p₁, hitem⟩ := encoderItem_ok env q numComputedTokens shift i f hdec
      hp.consistent
    have hp₁ := encoderItem_fits hdec hf hp hitem
    have hkept : ∀ g, p.Provides q g → p₁.Provides q g := fun g hg =>
      encoderItem_provides hdec hf hp.consistent hitem hg
    cases goOn with
    | true =>
      obtain ⟨hsame, hown⟩ := encoderItem_goOn hdec hf hp.consistent hitem
      obtain ⟨p', hwalk, hp', hnonneg, hle, hkept', hprovided⟩ := ih hrest htail hp₁ (hsame ▸ htokens)
      refine ⟨p', bind_eq_ok.mpr ⟨_, hitem, hwalk⟩, hp', hnonneg, hsame ▸ hle,
        fun g hg => hkept' g (hkept g hg), fun g hg hin => ?_⟩
      rcases List.mem_cons.mp hg with rfl | hg
      · exact hkept' g (hown (hin.mono (by omega)))
      · exact hprovided g hg hin
    | false =>
      obtain ⟨hnonneg, hle, hend⟩ := encoderItem_stop hshift htokens hitem
      refine ⟨p₁, bind_eq_ok.mpr ⟨_, hitem, rfl⟩, hp₁, hnonneg, hle, hkept, fun g hg hin => ?_⟩
      have hbehind : (f.offset : ℤ) ≤ g.offset := by
        rcases List.mem_cons.mp hg with rfl | hg
        exacts [le_refl _, Int.ofNat_le.mpr (hhead g hg)]
      obtain ⟨k, -, hlo, hhi⟩ := hin
      omega

/-- Without a connector of the encoder cache nothing is loaded from outside. -/
theorem encoderItem_external (hec : cfg.ecConnector = false)
    (h : encoderItem cfg env q numComputedTokens shift i f p = .ok (goOn, p')) :
    p'.externalLoadEncoderInput = p.externalLoadEncoderInput := by
  have hlooked : ∀ {hit p₁}, encoderItemCached cfg q i f p = .ok (hit, p₁) →
      p₁.externalLoadEncoderInput = p.externalLoadEncoderInput := by
    intro hit p₁ hcached
    cases encoderItemCached_outcome hcached <;> rfl
  cases encoderItem_outcome h with
  | beyond | encoded | computed => rfl
  | cached _ hcached => exact hlooked hcached
  | rolledBack _ hcached | noRoom _ hcached =>
    have hsame := hlooked hcached
    exact hsame
  | added _ hcached =>
    have hsame := hlooked hcached
    unfold encoderItemAdd
    dsimp only
    split
    · exact hsame
    · rw [if_neg (by simp [hec])]
      exact hsame

/-- Without an EC connector the items of a pass load nothing from outside. -/
theorem encoderItems_external (hec : cfg.ecConnector = false)
    (h : encoderItems cfg env q numComputedTokens shift i fs p = .ok p') :
    p'.externalLoadEncoderInput = p.externalLoadEncoderInput := by
  induction fs generalizing i p with
  | nil =>
    cases h
    rfl
  | cons f rest ih =>
    obtain ⟨⟨goOn, p₁⟩, hitem, h⟩ := bind_eq_ok.mp h
    have hone := encoderItem_external hec hitem
    dsimp only at h
    split at h
    · exact (ih h).trans hone
    · cases h
      exact hone

/-- What `_try_schedule_encoder_inputs` promises: tokens between none and those asked for, whose
embeddings are cached or will be computed, the budget that the chosen items leave, and room for
these one after the other. -/
structure EncoderPass.Meets (q : Request) (numComputedTokens numNewTokens encoderComputeBudget : ℤ)
    (p : EncoderPass EncoderCacheManager) : Prop where
  tokens_nonneg : 0 ≤ p.numNewTokens
  tokens_le : p.numNewTokens ≤ numNewTokens
  provided : ∀ f ∈ q.mmFeatures,
    f.HasEmbedsIn numComputedTokens (numComputedTokens + p.numNewTokens) →
      f.identifier ∈ p.enc.cached.keys ∨ ∃ i ∈ p.encoderInputsToSchedule, q.mmHash i = f.identifier
  budget_eq : p.encoderComputeBudget =
    encoderComputeBudget - encoderEmbeds q p.encoderInputsToSchedule
  budget_nonneg : 0 ≤ p.encoderComputeBudget
  fit : ∃ enc, allocateEncoderInputs q p.encoderInputsToSchedule p.enc = .ok enc

/-- For items in the order of their offsets the promise is kept, from every position, for every
count of tokens, budget and shift, and in every consistent cache. -/
theorem tryScheduleEncoderInputs_meets (hdec : cfg.isEncoderDecoder = false)
    (hec : cfg.ecConnector = false) (henc : enc.Consistent)
    (hsorted : q.mmFeatures.Pairwise fun f g => f.offset ≤ g.offset) (numComputedTokens : ℤ)
    (numNewTokens encoderComputeBudget shiftComputedTokens : ℕ) :
    ∃ p, tryScheduleEncoderInputs cfg env enc q numComputedTokens numNewTokens encoderComputeBudget
        shiftComputedTokens = .ok p ∧
      p.Meets q numComputedTokens numNewTokens encoderComputeBudget := by
  set p₀ : EncoderPass EncoderCacheManager := {
    enc := enc
    numNewTokens := numNewTokens
    encoderComputeBudget := encoderComputeBudget } with hp₀
  have hstart : p₀.Fits q := .start henc _ _
  have hwalked : ∃ p, tryScheduleEncoderInputs cfg env enc q numComputedTokens numNewTokens
      encoderComputeBudget shiftComputedTokens = .ok p ∧ p.Fits q ∧ 0 ≤ p.numNewTokens ∧
      p.numNewTokens ≤ numNewTokens ∧ p.externalLoadEncoderInput = [] ∧
      ∀ g ∈ q.mmFeatures, g.HasEmbedsIn numComputedTokens (numComputedTokens + p.numNewTokens) →
        p.Provides q g := by
    unfold tryScheduleEncoderInputs
    by_cases hnone : (numNewTokens : ℤ) = 0 ∨ ¬ q.hasEncoderInputs
    · refine ⟨p₀, if_pos hnone, hstart, Int.natCast_nonneg _, le_refl _, rfl, fun g hg hin => ?_⟩
      rcases hnone with hzero | hnone
      · obtain ⟨k, -, hlo, hhi⟩ := hin
        change (g.offset : ℤ) + k < numComputedTokens + (numNewTokens : ℤ) at hhi
        omega
      · have hempty : q.mmFeatures = [] :=
          List.isEmpty_iff.mp (by simpa [Request.hasEncoderInputs] using hnone)
        rw [hempty] at hg
        exact absurd hg List.not_mem_nil
    · obtain ⟨p, hwalk, hp, hnonneg, hle, -, hprovided⟩ := encoderItems_spec env (p := p₀)
        hdec (Int.natCast_nonneg shiftComputedTokens) List.drop_zero hsorted hstart (Int.natCast_nonneg _)
      exact ⟨p, (if_neg hnone).trans hwalk, hp, hnonneg, hle, encoderItems_external hec hwalk, hprovided⟩
  obtain ⟨p, hp, hfits, hnonneg, hle, hexternal, hprovided⟩ := hwalked
  have hpaid := tryScheduleEncoderInputs_paid (Int.natCast_nonneg _) hp
  have hinputs : p.inputs = p.encoderInputsToSchedule := by
    rw [EncoderPass.inputs, hexternal, List.append_nil]
  refine ⟨p, hp, hnonneg, hle, fun f hf hin => ?_, hpaid.left_eq, hpaid.nonneg, ?_⟩
  · refine (hprovided f hf hin).imp Holds.cached fun hmem => ?_
    rw [hfits.hashes, hinputs] at hmem
    exact hmem
  · have hroom := hfits.room
    rw [hfits.embeds, hinputs] at hroom
    exact EncoderPass.Fits.allocate_ok hfits.consistent (hinputs ▸ hfits.lacks) hroom

/-- A request with three items, of which the last one repeats the first. -/
def repeatingRequest : Request where
  requestId := 1
  arrivalTime := 0
  maxTokens := 1
  promptTokenIds := []
  numPromptTokens := 8
  allTokenIds := List.replicate 8 0
  mmFeatures := [.unmasked 1 1 2,
    { identifier := 2, offset := 3, length := 2, isEmbed := some [false, true] }, .unmasked 1 6 2]

/-- A configuration for a decoder-only model. -/
def decoderConfig : Config where
  maxNumRunningReqs := 4
  maxNumScheduledTokens := 8
  maxModelLen := 64
  blockSize := 4
  numBlocks := 16

/-- The request whose item comes twice meets the promise. -/
theorem repeatingRequest_meets : decoderConfig.isEncoderDecoder = false ∧ ∃ p,
    tryScheduleEncoderInputs decoderConfig {} (EncoderCacheManager.init 4) repeatingRequest 0 (8 : ℕ)
      (3 : ℕ) (1 : ℕ) = .ok p ∧ p.Meets repeatingRequest 0 (8 : ℕ) (3 : ℕ) :=
  ⟨rfl, tryScheduleEncoderInputs_meets rfl rfl (init_consistent 4) (by decide) 0 8 3 1⟩

/-- A request whose second item stands before the first. -/
def disorderedRequest : Request where
  requestId := 1
  arrivalTime := 0
  maxTokens := 1
  promptTokenIds := []
  numPromptTokens := 8
  allTokenIds := List.replicate 8 0
  mmFeatures := [.unmasked 1 6 2, .unmasked 2 1 2]

/-- The walk ends at the item that is not needed yet, so that the one before it is missed. -/
theorem disorderedRequest_not_meets : ¬ ∃ p,
    tryScheduleEncoderInputs decoderConfig {} (EncoderCacheManager.init 4) disorderedRequest 0 4 4 =
      .ok p ∧ p.Meets disorderedRequest 0 4 4 := by
  have hwalk : tryScheduleEncoderInputs decoderConfig {} (EncoderCacheManager.init 4)
      disorderedRequest 0 4 4 =
        .ok { enc := EncoderCacheManager.init 4, numNewTokens := 4, encoderComputeBudget := 4 } := rfl
  rintro ⟨p, hp, hmeets⟩
  cases hwalk.symm.trans hp
  rcases hmeets.provided _ (List.mem_cons_of_mem _ List.mem_cons_self)
    ⟨0, by decide, by decide, by decide⟩ with hcached | ⟨i, hi, -⟩
  · exact absurd hcached List.not_mem_nil
  · exact absurd hi List.not_mem_nil

end RpsServe
