import RpsServe.KVCache.Oversize
import RpsServe.Scheduler.BlockTables

/-!
# The contents of the blocks

A block that is cached has the hash of its contents and of everything before it. The blocks of a
request carry the hashes of the request at their positions, or they have none yet and the request
is alone in holding them. So two requests that share a block agree on its hash, and a block that is
still to be filled is never shared.
-/

namespace RpsServe

/-- Zipping a list with another one keeps a sublist of it. -/
theorem map_fst_zip_sublist {α β : Type*} (l : List α) (l' : List β) :
    ((l.zip l').map Prod.fst).Sublist l := by
  induction l generalizing l' with
  | nil => exact List.Sublist.refl _
  | cons a l ih =>
    cases l' with
    | nil => exact List.nil_sublist _
    | cons b l' => exact (ih l').cons_cons a

namespace BlockPool

variable {p p' : BlockPool}

/-- A block is cached under the hash that comes with it. -/
theorem cacheFullBlock_blockHash {e : BlockId × BlockHash} (hnull : e.1 ≠ nullBlock)
    (hlt : e.1 < p.blocks.length) (h : p.cacheFullBlock e = .ok p') :
    p'.blocks.length = p.blocks.length ∧
      ∀ x, (p'.block x).blockHash = if x = e.1 then some e.2 else (p.block x).blockHash := by
  unfold cacheFullBlock at h
  rw [if_neg hnull] at h
  split at h
  · cases h
  cases h
  refine ⟨List.length_modify .., fun x => ?_⟩
  refine (congrArg KVCacheBlock.blockHash (block_modifyBlock p e.1 x _)).trans ?_
  by_cases hx : x = e.1
  · rw [if_pos ⟨hx.symm, by rw [hx]; exact hlt⟩, if_pos hx]
  · rw [if_neg fun hx' => hx hx'.1.symm, if_neg hx]

/-- Different blocks are cached one after another. -/
theorem foldlM_cacheFullBlock_blockHash {es : List (BlockId × BlockHash)}
    (hnodup : (es.map Prod.fst).Nodup)
    (hreal : ∀ e ∈ es, e.1 ≠ nullBlock ∧ e.1 < p.blocks.length)
    (h : es.foldlM cacheFullBlock p = .ok p') :
    (∀ e ∈ es, (p'.block e.1).blockHash = some e.2) ∧
      ∀ x ∉ es.map Prod.fst, (p'.block x).blockHash = (p.block x).blockHash := by
  induction es generalizing p with
  | nil =>
    cases h
    exact ⟨by simp, fun _ _ => rfl⟩
  | cons e es ih =>
    obtain ⟨p₁, hone, h⟩ := foldlM_cons_eq_ok.mp h
    rw [List.map_cons, List.nodup_cons] at hnodup
    obtain ⟨hnull, hlt⟩ := hreal e List.mem_cons_self
    obtain ⟨hlength, hhash⟩ := cacheFullBlock_blockHash hnull hlt hone
    obtain ⟨hcached, hothers⟩ := ih hnodup.2
      (fun e' he' => hlength ▸ hreal e' (List.mem_cons_of_mem e he')) h
    refine ⟨fun e' he' => ?_, fun x hx => ?_⟩
    · rcases List.mem_cons.mp he' with rfl | he'
      · rw [hothers _ hnodup.1, hhash, if_pos rfl]
      · exact hcached e' he'
    · rw [List.map_cons, List.mem_cons, not_or] at hx
      rw [hothers x hx.2, hhash, if_neg hx.1]

end BlockPool

namespace FullAttentionKV

open BlockPool (nullBlock)

variable {cfg : Config} {enableCaching : Bool} {m m' : FullAttentionKV} {r x : ReqId} {b : BlockId}
  {H H' : ReqId → List BlockHash} {q : Request}

/-- Every block of a request has the request's hash at its position, or it is uncached and held by
this request alone. -/
def Labelled (H : ReqId → List BlockHash) (m : FullAttentionKV) : Prop :=
  ∀ (r : ReqId) (i : ℕ) (b : BlockId), (m.reqBlocks r)[i]? = some b →
    (m.blockPool.block b).blockHash = none ∧ m.holders b = 1 ∨
      ∃ h, (m.blockPool.block b).blockHash = some h ∧ (H r)[i]? = some h

/-- Blocks that are cached under the hashes at their positions. -/
def Matches (hashes : List BlockHash) (m : FullAttentionKV) (ids : List BlockId) : Prop :=
  ∀ (i : ℕ) (b : BlockId), ids[i]? = some b →
    ∃ h, (m.blockPool.block b).blockHash = some h ∧ hashes[i]? = some h

/-- Blocks under different hashes are different. -/
theorem Matches.inCache {hashes : List BlockHash} {ids : List BlockId} (hnodup : hashes.Nodup)
    (h : Matches hashes m ids) : m.InCache ids := by
  refine ⟨List.nodup_iff_getElem?_ne_getElem?.mpr fun i j hij hj heq => ?_, fun b hb => ?_⟩
  · have hb := List.getElem?_eq_getElem hj
    generalize ids[j] = b at hb
    obtain ⟨v, hv, hi⟩ := h i b (heq.trans hb)
    obtain ⟨v', hv', hj'⟩ := h j b hb
    cases hv.symm.trans hv'
    exact List.nodup_iff_getElem?_ne_getElem?.mp hnodup i j hij
      (List.getElem?_eq_some_iff.mp hj').1 (hi.trans hj'.symm)
  · obtain ⟨i, hi⟩ := List.mem_iff_getElem?.mp hb
    obtain ⟨v, hv, -⟩ := h i b hi
    rw [hv]
    exact Option.some_ne_none v

/-! ### Appending -/

/-- New blocks come at the end of a request's table. -/
theorem allocateNewBlocks_reqBlocks {n : ℤ} {new : List BlockId}
    (h : m.allocateNewBlocks r n = .ok (new, m')) : m'.reqBlocks r = m.reqBlocks r ++ new := by
  unfold allocateNewBlocks at h
  dsimp only at h
  split at h
  · cases h
    simp [reqBlocks]
  · obtain ⟨⟨blocks, pool⟩, -, h⟩ := bind_eq_ok.mp h
    cases h
    simp [reqBlocks]

/-- A running request gets the allocated blocks appended. -/
theorem allocateSlots_appends {args : AllocateSlotsArgs} {blocks : KVCacheBlocks}
    (hnew : args.newComputedBlocks = none) (hext : args.numExternalComputedTokens = 0)
    (h : m.allocateSlots q args = .ok (some blocks, m')) :
    ∃ new, blocks = [new] ∧ m'.reqBlocks q.requestId = m.reqBlocks q.requestId ++ new := by
  have hhits : hitBlocks args = [] := by rw [hitBlocks, hnew]; rfl
  obtain ⟨hnone, -, -⟩ | ⟨m₁, new, m₂, -, h₁, h₂, h₃, hblocks⟩ := allocateSlots_cases hext h
  · cases hnone
  · obtain rfl : m₁ = m := (h₁.resolve_right fun hne => hne.1 hhits).2
    cases hblocks
    have hm' : m'.reqBlocks q.requestId = m₂.reqBlocks q.requestId := by
      rcases h₃ with ⟨-, rfl⟩ | h₃
      · rfl
      · exact cacheBlocks_reqBlocks h₃
    exact ⟨new, rfl, hm'.trans (allocateNewBlocks_reqBlocks h₂)⟩

instance : AppendingKVCacheManager FullAttentionKV where
  getBlocks_of_none h := by rw [allocateSlots_none h]
  getBlocks_of_running hnew hext h := by
    obtain ⟨new, rfl, hblocks⟩ := allocateSlots_appends hnew hext h
    exact congrArg (fun ids => [ids]) hblocks
  flatten_subset {m m' q args blocks} hnew hext h := by
    obtain ⟨new, rfl, hblocks⟩ := allocateSlots_appends hnew hext h
    change new ++ [] ⊆ m'.reqBlocks q.requestId ++ []
    rw [List.append_nil, List.append_nil, hblocks]
    exact List.subset_append_right _ _
  getBlocks_cacheBlocks h r := congrArg (fun ids => [ids]) (cacheBlocks_reqBlocks h)
  getBlocks_resetPrefixCache _ _ := rfl

/-! ### The entries of the requests -/

/-- Computed blocks make no request lose its table. -/
theorem allocateNewComputedBlocks_keys {ids : List BlockId} {numLocal numExternal : ℤ}
    (h : m.allocateNewComputedBlocks r ids numLocal numExternal = .ok m') :
    m.reqToBlocks.keys ⊆ m'.reqToBlocks.keys := by
  have hset : ∀ (d : Dict ReqId (List BlockId)) (v : List BlockId), d.keys ⊆ (d.set r v).keys :=
    fun d v x hx => (Dict.mem_keys_set _ _ _ _).mpr (.inr hx)
  unfold allocateNewComputedBlocks at h
  split at h
  · split at h
    · cases h
    · cases h
      exact List.Subset.refl _
  · split at h
    · cases h
    · split at h
      · cases h
      · dsimp only at h
        split at h
        · obtain ⟨⟨allocated, pool⟩, -, h⟩ := bind_eq_ok.mp h
          cases h
          exact List.Subset.trans (hset _ _) (hset _ _)
        · cases h
          exact hset _ _

/-- New blocks make no request lose its table, and give their request one. -/
theorem allocateNewBlocks_keys {n : ℤ} {new : List BlockId}
    (h : m.allocateNewBlocks r n = .ok (new, m')) :
    m.reqToBlocks.keys ⊆ m'.reqToBlocks.keys ∧ r ∈ m'.reqToBlocks.keys := by
  have hset : ∀ v : List BlockId, m.reqToBlocks.keys ⊆ (m.reqToBlocks.set r v).keys ∧
      r ∈ (m.reqToBlocks.set r v).keys := fun v =>
    ⟨fun x hx => (Dict.mem_keys_set _ _ _ _).mpr (.inr hx),
      (Dict.mem_keys_set _ _ _ _).mpr (.inl rfl)⟩
  unfold allocateNewBlocks at h
  dsimp only at h
  split at h
  · cases h
    exact hset _
  · obtain ⟨⟨blocks, pool⟩, -, h⟩ := bind_eq_ok.mp h
    cases h
    exact hset _

/-- Caching blocks leaves the tables as they are. -/
theorem cacheBlocks_reqToBlocks {n : ℤ} (h : m.cacheBlocks q n = .ok m') :
    m'.reqToBlocks = m.reqToBlocks := by
  unfold cacheBlocks at h
  split at h
  · unfold cacheBlocksUpTo at h
    dsimp only at h
    split at h
    · cases h
      rfl
    · obtain ⟨pool, -, h⟩ := bind_eq_ok.mp h
      cases h
      rfl
  · cases h
    rfl

/-- A request that slots were allocated for has an entry, and no other loses its own. -/
theorem allocateSlots_keys {args : AllocateSlotsArgs} {blocks : Option KVCacheBlocks}
    (h : m.allocateSlots q args = .ok (blocks, m')) :
    m.reqToBlocks.keys ⊆ m'.reqToBlocks.keys ∧
      (blocks.isSome → q.requestId ∈ m'.reqToBlocks.keys) := by
  cases blocks with
  | none =>
    rw [allocateSlots_none h]
    exact ⟨List.Subset.refl _, fun hnone => nomatch hnone⟩
  | some blocks =>
    have hsteps : ∀ {m₁ m₂ : FullAttentionKV} {n : ℤ} {new : List BlockId},
        m.reqToBlocks.keys ⊆ m₁.reqToBlocks.keys →
        m₁.allocateNewBlocks q.requestId n = .ok (new, m₂) → m'.reqToBlocks = m₂.reqToBlocks →
        m.reqToBlocks.keys ⊆ m'.reqToBlocks.keys ∧ q.requestId ∈ m'.reqToBlocks.keys := by
      intro m₁ m₂ n new h₁ h₂ h₃
      obtain ⟨hmore, hin⟩ := allocateNewBlocks_keys h₂
      rw [h₃]
      exact ⟨List.Subset.trans h₁ hmore, hin⟩
    suffices hall : m.reqToBlocks.keys ⊆ m'.reqToBlocks.keys ∧
        q.requestId ∈ m'.reqToBlocks.keys from ⟨hall.1, fun _ => hall.2⟩
    unfold allocateSlots at h
    split at h
    · cases h
    dsimp only at h
    obtain ⟨fit, -, h⟩ := bind_eq_ok.mp h
    split at h
    · split at h
      all_goals
        obtain ⟨m₁, h₁, h⟩ := bind_eq_ok.mp h
        obtain ⟨⟨new, m₂⟩, h₂, h⟩ := bind_eq_ok.mp h
        have hkeys : m.reqToBlocks.keys ⊆ m₁.reqToBlocks.keys := by
          first
            | exact allocateNewComputedBlocks_keys h₁
            | cases h₁; exact List.Subset.refl _
        refine hsteps hkeys h₂ ?_
        dsimp only at h
        split at h
        · cases h
          rfl
        · obtain ⟨m₃, h₃, h⟩ := bind_eq_ok.mp h
          cases h
          exact cacheBlocks_reqToBlocks h₃
    · cases h

/-- A request with slots has an entry. -/
theorem mem_keys_of_hasSlots (h : HasSlots r m) : r ∈ m.reqToBlocks.keys := by
  induction h with
  | allocated hid halloc => exact hid ▸ (allocateSlots_keys halloc).2 rfl
  | allocateSlots _ halloc ih => exact (allocateSlots_keys halloc).1 ih
  | @free m v _ hne ih => exact (Dict.mem_keys_erase _ _ _).mpr ⟨ih, hne⟩
  | cacheBlocks _ hc ih => exact cacheBlocks_reqToBlocks hc ▸ ih
  | resetPrefixCache _ ih | newStepStarts _ ih | takeNewBlockIds _ ih => exact ih

/-! ### What each operation keeps -/

/-- Longer lists of hashes keep the labels right. -/
theorem Labelled.mono (hH : ∀ r, H r <+: H' r) (h : Labelled H m) : Labelled H' m := by
  intro r i b hb
  refine (h r i b hb).imp_right ?_
  rintro ⟨v, hv, hi⟩
  obtain ⟨t, ht⟩ := hH r
  refine ⟨v, hv, ?_⟩
  rw [← ht, List.getElem?_append_left]
  · exact hi
  · exact (List.getElem?_eq_some_iff.mp hi).1

/-- The blocks of a request are labelled afresh, and those of the others keep their hashes; of what
they hold alone nobody else becomes a holder. -/
theorem Labelled.exchange (h : Labelled H m)
    (hself : ∀ (i : ℕ) (b : BlockId), (m'.reqBlocks r)[i]? = some b →
      (m'.blockPool.block b).blockHash = none ∧ m'.holders b = 1 ∨
        ∃ v, (m'.blockPool.block b).blockHash = some v ∧ (H r)[i]? = some v)
    (hothers : ∀ x, x ≠ r → m'.reqBlocks x = m.reqBlocks x)
    (hhash : ∀ x, x ≠ r → ∀ b ∈ m.reqBlocks x,
      (m'.blockPool.block b).blockHash = (m.blockPool.block b).blockHash)
    (hholders : ∀ x, x ≠ r → ∀ b ∈ m.reqBlocks x, (m.blockPool.block b).blockHash = none →
      m.holders b = 1 → m'.holders b = 1) : Labelled H m' := by
  intro x i b hb
  by_cases hx : x = r
  · subst hx
    exact hself i b hb
  · rw [hothers x hx] at hb
    have hmem := List.mem_of_getElem? hb
    rw [hhash x hx b hmem]
    exact (h x i b hb).imp_left fun ⟨hnone, hone⟩ => ⟨hnone, hholders x hx b hmem hnone hone⟩

/-- Freeing a request keeps the labels right. -/
theorem Labelled.free (h : Labelled H m) (r : ReqId) : Labelled H (m.free r) := by
  have hgone : (m.free r).reqBlocks r = [] := by
    simp [reqBlocks, FullAttentionKV.free, Dict.get?_erase]
  refine h.exchange (r := r) (fun i b hb => ?_) (fun x hx => reqBlocks_free hx) (fun x _ b _ => ?_)
    fun x hx b hb _ hone => ?_
  · rw [hgone] at hb
    cases hb
  · exact (BlockPool.releaseBlocks_rest _).2.2.2.2 b
  · have herase := total_erase_count (m := m) (r := r) b
    have hle := count_add_count_le (m := m) (b := b) hx
    have hpos := List.count_pos_iff.mpr hb
    have hsame : (m.free r).holders b = (m.reqToBlocks.erase r).total (List.count b) := rfl
    omega

/-- The computed blocks of a request are cached under its hashes. -/
theorem allocateNewComputedBlocks_labelled (h : Labelled H m) {ids : List BlockId} {numLocal : ℤ}
    (hids : m.InCache ids) (hmatch : Matches (H r) m ids)
    (ha : m.allocateNewComputedBlocks r ids numLocal 0 = .ok m') : Labelled H m' := by
  unfold allocateNewComputedBlocks at ha
  split at ha
  · split at ha
    · cases ha
    · cases ha
      exact h
  split at ha
  · cases ha
  rename_i hempty
  split at ha
  · cases ha
  rw [if_neg (lt_irrefl 0)] at ha
  cases ha
  have hnil : m.reqBlocks r = [] := not_not.mp hempty
  have hhash : ∀ b, ((if m.enableCaching then m.blockPool.touch ids else m.blockPool).block
      b).blockHash = (m.blockPool.block b).blockHash := by
    intro b
    split
    · exact BlockPool.touch_blockHash ids b
    · rfl
  refine h.exchange (r := r) (fun i b hb => .inr ?_) (fun x hx => reqBlocks_set hx)
    (fun x _ b _ => hhash b) fun x hx b hb hnone hone => ?_
  · have hself : (m.reqToBlocks.set r ids).get? r = some ids := Dict.get?_set_self _ _ _
    simp only [reqBlocks, hself, Option.getD_some] at hb
    obtain ⟨v, hv, hi⟩ := hmatch i b hb
    exact ⟨v, (hhash b).trans hv, hi⟩
  · have hset := total_set_count (m := m) (r := r) ids b
    rw [hnil, List.count_nil, List.count_eq_zero.mpr fun hmem => hids.2 b hmem hnone] at hset
    exact hset.trans hone

/-- The new blocks of a request were held by nobody, and they have no hashes. -/
theorem allocateNewBlocks_cases (h : Kept cfg enableCaching m) {n : ℤ} {new : List BlockId}
    (ha : m.allocateNewBlocks r n = .ok (new, m')) :
    new.Nodup ∧ (∀ b ∈ new, m.holders b = 0) ∧
      (∀ b, (m'.blockPool.block b).blockHash =
        if b ∈ new then none else (m.blockPool.block b).blockHash) ∧
      ∀ b, m'.holders b = m.holders b + new.count b := by
  have hroom := numFree_of_allocateNewBlocks ha
  have hcount : ∀ b, m'.holders b + (m.reqBlocks r).count b =
      m.holders b + (m.reqBlocks r ++ new).count b := by
    intro b
    rw [← allocateNewBlocks_reqBlocks ha]
    have hset := total_set_count (m := m) (r := r) (m'.reqBlocks r) b
    suffices hsame : m'.reqToBlocks = m.reqToBlocks.set r (m'.reqBlocks r) by
      rw [← hset, ← hsame]
      rfl
    rw [allocateNewBlocks_reqBlocks ha]
    unfold allocateNewBlocks at ha
    dsimp only at ha
    split at ha
    · cases ha
      rw [List.append_nil]
    · obtain ⟨⟨blocks, pool⟩, -, ha⟩ := bind_eq_ok.mp ha
      cases ha
      rfl
  have hholders : ∀ b, m'.holders b = m.holders b + new.count b := by
    intro b
    have hb := hcount b
    rw [List.count_append] at hb
    omega
  unfold allocateNewBlocks at ha
  dsimp only at ha
  split at ha
  · cases ha
    exact ⟨List.nodup_nil, by simp, fun b => (if_neg List.not_mem_nil).symm, hholders⟩
  · obtain ⟨⟨blocks, pool⟩, hget, ha⟩ := bind_eq_ok.mp ha
    obtain ⟨pool', hget', -, -, -, hhash⟩ := BlockPool.getNewBlocks_spec
      (k := (m.numRequiredBlocks n - ((m.reqBlocks r).length : ℤ)).toNat) h.pool (by omega)
    obtain ⟨rfl, rfl⟩ := Prod.mk.inj (Except.ok.inj (hget.symm.trans hget'))
    cases ha
    exact ⟨h.pool.free_nodup.sublist (List.take_sublist _ _),
      fun b hb => ((h.pool.mem_free b).mp (List.mem_of_mem_take hb)).2.2, hhash, hholders⟩

/-- New blocks keep the labels right. -/
theorem allocateNewBlocks_labelled (hk : Kept cfg enableCaching m) (h : Labelled H m) {n : ℤ}
    {new : List BlockId} (ha : m.allocateNewBlocks r n = .ok (new, m')) : Labelled H m' := by
  obtain ⟨hnodup, hunheld, hhash, hholders⟩ := allocateNewBlocks_cases hk ha
  have hheld : ∀ x, ∀ b ∈ m.reqBlocks x, b ∉ new := by
    intro x b hb hmem
    have hle := count_le_holders (m := m) (r := x) (b := b)
    have hpos := List.count_pos_iff.mpr hb
    have hzero := hunheld b hmem
    omega
  have hkeep : ∀ x, ∀ b ∈ m.reqBlocks x, (m'.blockPool.block b).blockHash =
      (m.blockPool.block b).blockHash ∧ m'.holders b = m.holders b := by
    intro x b hb
    rw [hhash, hholders, if_neg (hheld x b hb), List.count_eq_zero.mpr (hheld x b hb)]
    exact ⟨rfl, rfl⟩
  refine h.exchange (r := r) (fun i b hb => ?_) (fun x hx => allocateNewBlocks_others ha hx)
    (fun x _ b hb => (hkeep x b hb).1) fun x _ b hb _ hone => (hkeep x b hb).2.trans hone
  rw [allocateNewBlocks_reqBlocks ha, List.getElem?_append] at hb
  split at hb
  · obtain ⟨hsame, hcount⟩ := hkeep r b (List.mem_of_getElem? hb)
    rw [hsame, hcount]
    exact h r i b hb
  · have hmem := List.mem_of_getElem? hb
    refine .inl ⟨by rw [hhash, if_pos hmem], ?_⟩
    rw [hholders, hunheld b hmem, List.count_eq_one_of_mem hnodup hmem]

/-- The full blocks of a request get its hashes. -/
theorem cacheBlocks_labelled (hk : Kept cfg enableCaching m) (h : Labelled H m) {n : ℤ}
    (hq : q.blockHashes <+: H q.requestId) (hc : m.cacheBlocks q n = .ok m') : Labelled H m' := by
  unfold cacheBlocks at hc
  split at hc
  · unfold cacheBlocksUpTo at hc
    dsimp only at hc
    split at hc
    · cases hc
      exact h
    rename_i hfull
    obtain ⟨pool, hcache, hc⟩ := bind_eq_ok.mp hc
    cases hc
    unfold BlockPool.cacheFullBlocks at hcache
    rw [if_neg hfull] at hcache
    split at hcache
    · cases hcache
    change ((((m.reqBlocks q.requestId).take _).drop (m.numCached q.requestId)).zip
      (q.blockHashes.drop (m.numCached q.requestId))).foldlM _ _ = _ at hcache
    generalize (n / (m.blockSize : ℤ)).toNat = numFull at hcache
    set ids := m.reqBlocks q.requestId with hids
    set es := ((ids.take numFull).drop (m.numCached q.requestId)).zip
      (q.blockHashes.drop (m.numCached q.requestId)) with hes
    have hentry : ∀ e ∈ es, ∃ i, m.numCached q.requestId ≤ i ∧ ids[i]? = some e.1 ∧
        q.blockHashes[i]? = some e.2 := by
      intro e he
      obtain ⟨k, hk⟩ := List.mem_iff_getElem?.mp he
      obtain ⟨hb, hv⟩ := List.getElem?_zip_eq_some.mp hk
      rw [List.getElem?_drop] at hb hv
      refine ⟨_, Nat.le_add_right _ k, ?_, hv⟩
      rw [List.getElem?_take] at hb
      split at hb
      · exact hb
      · cases hb
    have htail : ∀ b ∈ es.map Prod.fst, b ∈ ids.drop (m.numCached q.requestId) := by
      intro b hb
      obtain ⟨e, he, rfl⟩ := List.mem_map.mp hb
      obtain ⟨i, hi, hb, -⟩ := hentry e he
      refine List.mem_iff_getElem?.mpr ⟨i - m.numCached q.requestId, ?_⟩
      rw [List.getElem?_drop, Nat.add_sub_cancel' hi]
      exact hb
    have hnodup : (es.map Prod.fst).Nodup :=
      (hk.nodup q.requestId).sublist ((map_fst_zip_sublist _ _).trans
        ((List.drop_sublist _ _).trans (List.take_sublist _ _)))
    obtain ⟨hcached, hothers⟩ := BlockPool.foldlM_cacheFullBlock_blockHash hnodup (fun e he => by
      have hb := hk.real q.requestId e.1
        (List.mem_of_mem_drop (htail e.1 (List.mem_map_of_mem he)))
      exact ⟨hb.1, hk.pool.length.symm ▸ hb.2⟩) hcache
    refine h.exchange (r := q.requestId) (fun i b hb => ?_) (fun _ _ => rfl)
      (fun x hx b hb => hothers b fun hmem => ?_) fun _ _ _ _ _ hone => hone
    · by_cases hmem : b ∈ es.map Prod.fst
      · obtain ⟨e, he, rfl⟩ := List.mem_map.mp hmem
        obtain ⟨j, -, hj, hv⟩ := hentry e he
        obtain ⟨hi, -⟩ := List.getElem?_eq_some_iff.mp hb
        obtain rfl : i = j :=
          (List.getElem?_inj hi (hk.nodup q.requestId)).mp (hb.trans hj.symm)
        refine .inr ⟨e.2, hcached e he, ?_⟩
        obtain ⟨t, ht⟩ := hq
        rw [← ht, List.getElem?_append_left (List.getElem?_eq_some_iff.mp hv).1]
        exact hv
      · have hsame := h q.requestId i b hb
        rw [← hothers b hmem] at hsame
        exact hsame
    · exact hk.notMem_of_tail (Ne.symm hx) (htail b hmem) hb
  · cases hc
    exact h

/-- The prefix cache is only reset while no request holds a block. -/
theorem Kept.reqBlocks_of_reset (hk : Kept cfg enableCaching m)
    (hfree : (m.blockPool.blocks.length : ℤ) - m.blockPool.getNumFreeBlocks = 1) (r : ReqId) :
    m.reqBlocks r = [] := by
  refine List.eq_nil_iff_forall_not_mem.mpr fun b hb => ?_
  have hsub : m.blockPool.freeBlockQueue.toFinset ⊆ (Finset.range cfg.numBlocks).erase nullBlock := by
    intro x hx
    obtain ⟨hnull, hlt, -⟩ := (hk.pool.mem_free x).mp (List.mem_toFinset.mp hx)
    exact Finset.mem_erase.mpr ⟨hnull, Finset.mem_range.mpr hlt⟩
  have hlt₀ : nullBlock < cfg.numBlocks := Nat.zero_lt_of_lt (hk.real r b hb).2
  have hall := Finset.eq_of_subset_of_card_le hsub (by
    rw [List.toFinset_card_of_nodup hk.pool.free_nodup]
    rw [hk.pool.length, BlockPool.getNumFreeBlocks] at hfree
    have hcard : ((Finset.range cfg.numBlocks).erase nullBlock).card = cfg.numBlocks - 1 := by
      rw [Finset.card_erase_of_mem (Finset.mem_range.mpr hlt₀), Finset.card_range]
    omega)
  obtain ⟨hnull, hlt⟩ := hk.real r b hb
  have hin : b ∈ m.blockPool.freeBlockQueue := List.mem_toFinset.mp <| by
    rw [hall]
    exact Finset.mem_erase.mpr ⟨hnull, Finset.mem_range.mpr hlt⟩
  have hzero := ((hk.pool.mem_free b).mp hin).2.2
  have hle := count_le_holders (m := m) (r := r) (b := b)
  have hpos := List.count_pos_iff.mpr hb
  omega

/-- Resetting the prefix cache keeps the labels right. -/
theorem resetPrefixCache_labelled (hk : Kept cfg enableCaching m) (h : Labelled H m) :
    Labelled H { m with blockPool := m.blockPool.resetPrefixCache.2 } := by
  by_cases hfree : (m.blockPool.blocks.length : ℤ) - m.blockPool.getNumFreeBlocks = 1
  · intro r i b hb
    change (m.reqBlocks r)[i]? = some b at hb
    rw [hk.reqBlocks_of_reset hfree r] at hb
    cases hb
  · have hsame : m.blockPool.resetPrefixCache.2 = m.blockPool := by
      unfold BlockPool.resetPrefixCache
      rw [if_pos hfree]
    rw [hsame]
    exact h

/-! ### The computed prefix -/

/-- A chain of hits is cached under the hashes at its positions. -/
theorem cachedChain_matches (hk : Kept cfg enableCaching m) (hs : List BlockHash) :
    Matches hs m (cachedChain m.blockPool hs) := by
  induction hs with
  | nil =>
    intro i b hb
    cases hb
  | cons h hs ih =>
    intro i b hb
    unfold cachedChain at hb
    split at hb
    · rename_i b' hcached
      cases i with
      | zero =>
        obtain rfl : b' = b := Option.some.inj hb
        obtain ⟨ids, hids, hhead⟩ := Option.bind_eq_some_iff.mp hcached
        refine ⟨h, (hk.pool.blockHash b' h).mpr ?_, rfl⟩
        rw [BlockPool.cachedIds, hids]
        exact List.mem_of_mem_head? hhead
      | succ i => exact ih i b hb
    · cases hb

/-- A shorter table of blocks still matches longer lists of hashes. -/
theorem Matches.extend {hashes hashes' : List BlockHash} {ids ids' : List BlockId}
    (h : Matches hashes m ids) (hhashes : hashes <+: hashes') (hids : ids' <+: ids) :
    Matches hashes' m ids' := by
  intro i b hb
  obtain ⟨t, rfl⟩ := hids
  obtain ⟨v, hv, hi⟩ := h i b <| by
    rw [List.getElem?_append_left (List.getElem?_eq_some_iff.mp hb).1]
    exact hb
  obtain ⟨t', rfl⟩ := hhashes
  exact ⟨v, hv, by rw [List.getElem?_append_left (List.getElem?_eq_some_iff.mp hi).1]; exact hi⟩

/-- The computed blocks of a request are cached under its first hashes. -/
theorem getComputedBlocks_matches (hk : Kept cfg enableCaching m) (q : Request) :
    Matches q.blockHashes m (m.getComputedBlocks q).1.flatten := by
  unfold getComputedBlocks
  split
  · exact fun i b hb => by simp at hb
  · dsimp only
    rw [List.flatten_singleton]
    refine (cachedChain_matches hk (q.blockHashes.take ((q.numTokens - 1) / m.blockSize))).extend
      (List.take_prefix _ _) ?_
    unfold findLongestCacheHit
    dsimp only
    split
    · exact List.dropLast_prefix _
    · exact List.prefix_refl _

/-- The prefix that was looked up for a request. -/
theorem matches_of_local (hk : Kept cfg enableCaching m) {c : CachedPrefix} (h : c.Local m q) :
    Matches q.blockHashes m c.newComputedBlocks.flatten := by
  rcases h.blocks with ⟨hblocks, -⟩ | ⟨hblocks, -⟩ <;> rw [hblocks]
  · exact getComputedBlocks_matches hk q
  · exact fun i b hb => by simp [KVCacheManager.emptyKvCacheBlocks] at hb

/-- The manager's own computed tokens are not negative. -/
theorem tokens_of_local {c : CachedPrefix} (h : c.Local m q) :
    0 ≤ c.numNewLocalComputedTokens := by
  rcases h.blocks with ⟨-, htokens⟩ | ⟨-, htokens⟩ <;> rw [htokens]
  change 0 ≤ (m.getComputedBlocks q).2
  unfold getComputedBlocks
  split
  · exact le_refl 0
  · exact Int.mul_nonneg (Int.natCast_nonneg _) (Int.natCast_nonneg _)

/-- Making room takes no hashes away. -/
theorem blockHash_of_roomMade (h : RoomMade m m') (b : BlockId) :
    (m'.blockPool.block b).blockHash = (m.blockPool.block b).blockHash := by
  induction h with
  | refl => rfl
  | @free m' v _ ih => exact ((BlockPool.releaseBlocks_rest _).2.2.2.2 b).trans ih
  | vain _ halloc ih =>
    rw [allocateSlots_none halloc]
    exact ih

/-- Making room keeps the matches of a table. -/
theorem matches_of_roomMade {hashes : List BlockHash} {ids : List BlockId} (h : RoomMade m m')
    (hmatch : Matches hashes m ids) : Matches hashes m' ids := by
  intro i b hb
  rw [blockHash_of_roomMade h]
  exact hmatch i b hb

/-! ### The rules -/

/-- Slots behind computed blocks that are cached under the hashes of the request. -/
theorem allocateSlots_labelled (hk : Kept cfg enableCaching m) (h : Labelled H m)
    {args : AllocateSlotsArgs} {res : Option KVCacheBlocks}
    (hq : q.blockHashes = H q.requestId) (hnodup : (H q.requestId).Nodup)
    (hmatch : Matches (H q.requestId) m (hitBlocks args))
    (hext : args.numExternalComputedTokens = 0) (ha : m.allocateSlots q args = .ok (res, m')) :
    Kept cfg enableCaching m' ∧ Labelled H m' := by
  have hhits := hmatch.inCache hnodup
  refine ⟨allocateSlots_kept hk hhits hext ha, ?_⟩
  obtain ⟨-, rfl, -⟩ | ⟨m₁, new, m₂, -, h₁, h₂, h₃, -⟩ := allocateSlots_cases hext ha
  · exact h
  obtain ⟨hk₁, hlab₁⟩ : Kept cfg enableCaching m₁ ∧ Labelled H m₁ := by
    rcases h₁ with ⟨-, rfl⟩ | ⟨-, h₁⟩
    · exact ⟨hk, h⟩
    · exact ⟨allocateNewComputedBlocks_kept hk hhits h₁,
        allocateNewComputedBlocks_labelled h hhits hmatch h₁⟩
  have hlab₂ := allocateNewBlocks_labelled hk₁ hlab₁ h₂
  obtain ⟨new', m₂', hnew, hk₂, -⟩ := allocateNewBlocks_spec hk₁ (m.slotTokens q args)
    (numFree_of_allocateNewBlocks h₂)
  obtain ⟨rfl, rfl⟩ := Prod.mk.inj (Except.ok.inj (h₂.symm.trans hnew))
  rcases h₃ with ⟨-, rfl⟩ | h₃
  · exact hlab₂
  · exact cacheBlocks_labelled hk₂ hlab₂ (hq ▸ List.prefix_refl _) h₃

/-- Resetting the prefix cache keeps the pool counted. -/
theorem Kept.resetPrefixCache (h : Kept cfg enableCaching m) :
    Kept cfg enableCaching { m with blockPool := m.blockPool.resetPrefixCache.2 } :=
  ⟨BlockPool.resetPrefixCache_sound h.pool, h.enabled,
    BlockPool.resetPrefixCache_enableCaching.trans h.poolEnabled, h.blockSize, h.maxModelLen,
    h.real, h.nodup, fun x b hb => ⟨BlockPool.resetPrefixCache_blockHash (h.tail x b hb).1,
      (h.tail x b hb).2⟩, h.known⟩

/-- Computed blocks leave the block size as it is. -/
theorem allocateNewComputedBlocks_blockSize {ids : List BlockId} {numLocal numExternal : ℤ}
    (h : m.allocateNewComputedBlocks r ids numLocal numExternal = .ok m') :
    m'.blockSize = m.blockSize := by
  unfold allocateNewComputedBlocks at h
  split at h
  · split at h
    · cases h
    · cases h
      rfl
  · split at h
    · cases h
    · split at h
      · cases h
      · dsimp only at h
        split at h
        · obtain ⟨⟨allocated, pool⟩, -, h⟩ := bind_eq_ok.mp h
          cases h
          rfl
        · cases h
          rfl

/-- A request with slots for its tokens has a block. -/
theorem allocateNewBlocks_ne_nil {n : ℤ} {new : List BlockId} (hbs : 0 < m.blockSize) (hn : 0 < n)
    (h : m.allocateNewBlocks r n = .ok (new, m')) : m'.reqBlocks r ≠ [] := by
  have hneed : 0 < m.numRequiredBlocks n := by
    by_contra hnot
    have hle := (numRequiredBlocks_le_iff hbs _ 0).mp (not_lt.mp hnot)
    omega
  have hroom := numFree_of_allocateNewBlocks h
  have hblocks := allocateNewBlocks_reqBlocks h
  intro hnil
  rw [hnil] at hblocks
  obtain ⟨hold, rfl⟩ := List.append_eq_nil_iff.mp hblocks.symm
  rw [hold, List.length_nil] at hroom
  unfold allocateNewBlocks at h
  dsimp only at h
  rw [hold, List.length_nil, if_neg (by omega)] at h
  obtain ⟨⟨blocks, pool⟩, hget, h⟩ := bind_eq_ok.mp h
  obtain ⟨rfl, -⟩ := Prod.mk.inj (Except.ok.inj h)
  unfold BlockPool.getNewBlocks at hget
  split at hget
  · cases hget
  obtain ⟨pool', -, hget⟩ := bind_eq_ok.mp hget
  have htake := congrArg List.length (Prod.mk.inj (Except.ok.inj hget)).1
  rw [List.length_take, List.length_nil] at htake
  rw [BlockPool.getNumFreeBlocks] at hroom
  omega

/-- An admitted request has a block. -/
theorem reqBlocks_ne_nil (hbs : 0 < m.blockSize) (hlen : 0 < m.maxModelLen)
    {args : AllocateSlotsArgs} {blocks : KVCacheBlocks} (hext : args.numExternalComputedTokens = 0)
    (hcomputed : 0 ≤ q.numComputedTokens + args.numNewComputedTokens)
    (hnew : 0 ≤ args.numNewTokens) (hlook : 0 ≤ args.numLookaheadTokens)
    (ha : m.allocateSlots q args = .ok (some blocks, m')) : m'.reqBlocks q.requestId ≠ [] := by
  have hpos : args.numNewTokens ≠ 0 := by
    intro hzero
    unfold allocateSlots at ha
    rw [if_pos ⟨hzero, hext⟩] at ha
    cases ha
  obtain ⟨hnone, -, -⟩ | ⟨m₁, new, m₂, -, h₁, h₂, h₃, -⟩ := allocateSlots_cases hext ha
  · cases hnone
  have hsize : m₁.blockSize = m.blockSize := by
    rcases h₁ with ⟨-, rfl⟩ | ⟨-, h₁⟩
    · rfl
    · exact allocateNewComputedBlocks_blockSize h₁
  have hslots : 0 < m.slotTokens q args := by
    unfold slotTokens mainTokens
    omega
  have hfilled := allocateNewBlocks_ne_nil (hsize.symm ▸ hbs) hslots h₂
  rcases h₃ with ⟨-, rfl⟩ | h₃
  · exact hfilled
  · rwa [cacheBlocks_reqBlocks h₃]

/-- The manager of a model with full attention keeps its blocks counted and labelled. -/
theorem kvRules (hbs : 0 < cfg.blockSize) (hlen : 0 < cfg.maxModelLen) :
    KVRules cfg fun H (m : FullAttentionKV) => Kept cfg enableCaching m ∧ Labelled H m where
  mono hH h := ⟨h.1, h.2.mono hH⟩
  rule {H} hnodup :=
    { newStepStarts := id
      free := fun r h => ⟨h.1.free r, h.2.free r⟩
      cacheBlocks := fun {m m' q n} h hq hslots hc => by
        obtain ⟨m₁, hc', hk, -⟩ := cacheBlocks_spec n h.1
          ((Dict.isSome_get? _ _).mpr (mem_keys_of_hasSlots hslots)) (hashes_of_cacheBlocks h.1 hc)
        cases hc.symm.trans hc'
        exact ⟨hk, cacheBlocks_labelled h.1 h.2 hq hc⟩
      resetPrefixCache := fun h => ⟨h.1.resetPrefixCache, resetPrefixCache_labelled h.1 h.2⟩
      takeNewBlockIds := fun h =>
        ⟨⟨h.1.pool, h.1.enabled, h.1.poolEnabled, h.1.blockSize, h.1.maxModelLen, h.1.real, h.1.nodup,
          h.1.tail, h.1.known⟩, h.2⟩
      running := fun h hq ha => allocateSlots_labelled h.1 h.2 hq (hnodup _)
        (fun i b hb => by simp [hitBlocks, LoopState.runningArgs] at hb) rfl ha
      waiting := fun h₀ hlocal hq₀ hq hroom h ha =>
        allocateSlots_labelled h.1 h.2 hq (hnodup _)
          (matches_of_roomMade hroom (hq₀ ▸ matches_of_local h₀.1 hlocal)) hlocal.external ha
      filled := fun {m₀ m m' q₀ q q' c g blocks} hlocal h hzero hg ha => by
        have hcomputed : 0 ≤ q.numComputedTokens + c.numNewLocalComputedTokens := by
          rw [hzero, zero_add]
          exact tokens_of_local hlocal
        have hlook : 0 ≤ (LoopState.waitingArgs cfg q' c g).numLookaheadTokens := by
          unfold LoopState.waitingArgs
          dsimp only
          split <;> omega
        have hfilled := reqBlocks_ne_nil (h.1.blockSize.symm ▸ hbs) (h.1.maxModelLen.symm ▸ hlen)
          hlocal.external hcomputed hg hlook ha
        change ¬ [m'.reqBlocks q.requestId].all List.isEmpty = true
        simpa using hfilled }

end FullAttentionKV

end RpsServe
