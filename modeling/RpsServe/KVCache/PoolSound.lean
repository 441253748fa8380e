import RpsServe.KVCache.BlockPool
import RpsServe.Lib.Except

/-!
# The accounting of the block pool

The references to a block are counted by the pool and known to its callers. A block other
than the null block is free exactly while nobody refers to it, and the hash of a block and
the map of the cached blocks say the same. Every operation keeps that, and an operation that
asks for no more blocks than are free succeeds.
-/

namespace RpsServe.BlockPool

/-- The blocks that are cached under a hash. -/
def cachedIds (p : BlockPool) (h : BlockHash) : List BlockId :=
  (p.cachedBlockHashToBlock.get? h).getD []

/-- The hashes of the blocks and the map of the cached blocks agree. -/
structure Hashed (n : ℕ) (p : BlockPool) : Prop where
  blockHash : ∀ b h, (p.block b).blockHash = some h ↔ b ∈ p.cachedIds h
  nodup : ∀ h, (p.cachedIds h).Nodup
  real : ∀ h, ∀ b ∈ p.cachedIds h, b ≠ nullBlock ∧ b < n
  off : p.enableCaching = false → ∀ h, p.cachedIds h = []

/-- The pool counts the references that there are, and the blocks without one are free. -/
structure Sound (n : ℕ) (refs : BlockId → ℕ) (p : BlockPool) : Prop extends Hashed n p where
  length : p.blocks.length = n
  free_nodup : p.freeBlockQueue.Nodup
  mem_free : ∀ b, b ∈ p.freeBlockQueue ↔ b ≠ nullBlock ∧ b < n ∧ refs b = 0
  refCnt : ∀ b, b ≠ nullBlock → b < n → (p.block b).refCnt = refs b

variable {n : ℕ} {refs : BlockId → ℕ} {p p' : BlockPool} {b : BlockId} {h : BlockHash}

/-- A write to one block. -/
theorem block_modifyBlock (p : BlockPool) (b x : BlockId) (f : KVCacheBlock → KVCacheBlock) :
    (p.modifyBlock b f).block x =
      if b = x ∧ x < p.blocks.length then f (p.block x) else p.block x := by
  unfold block modifyBlock
  rw [List.getElem?_modify]
  by_cases hx : x < p.blocks.length
  · rw [List.getElem?_eq_getElem hx]
    split_ifs with hb hb' hb'
    · rfl
    · exact absurd ⟨hb, hx⟩ hb'
    · exact absurd hb'.1 hb
    · rfl
  · rw [List.getElem?_eq_none (Nat.le_of_not_lt hx), if_neg fun hb => hx hb.2]
    rfl

/-- A write that keeps the hash of the block keeps what the map says. -/
theorem blockHash_modifyBlock (b x : BlockId) {f : KVCacheBlock → KVCacheBlock}
    (hf : ∀ blk, (f blk).blockHash = blk.blockHash) :
    ((p.modifyBlock b f).block x).blockHash = (p.block x).blockHash := by
  rw [block_modifyBlock]
  split
  · exact hf _
  · rfl

/-- A write that keeps the count of the block. -/
theorem refCnt_modifyBlock (b x : BlockId) {f : KVCacheBlock → KVCacheBlock}
    (hf : ∀ blk, (f blk).refCnt = blk.refCnt) :
    ((p.modifyBlock b f).block x).refCnt = (p.block x).refCnt := by
  rw [block_modifyBlock]
  split
  · exact hf _
  · rfl

/-- The pool before its first request. -/
theorem init_sound (n : ℕ) (enableCaching : Bool) : (init n enableCaching).Sound n fun _ => 0 := by
  have hblock : ∀ b, (init n enableCaching).block b = {} := by
    intro b
    unfold block init
    rw [List.getElem?_replicate]
    split <;> rfl
  refine ⟨⟨fun b h => ?_, fun h => List.nodup_nil, fun h b hb => absurd hb List.not_mem_nil,
    fun _ _ => rfl⟩, List.length_replicate, ?_, fun b => ?_, fun b _ _ => ?_⟩
  · rw [hblock]
    exact iff_of_false (Option.some_ne_none h ∘ Eq.symm) List.not_mem_nil
  · exact (List.nodup_range).sublist (List.drop_sublist _ _)
  · change b ∈ (List.range n).drop 1 ↔ _
    rcases n with _ | n
    · simp
    · rw [List.range_succ_eq_map, List.drop_one, List.tail_cons, List.mem_map]
      constructor
      · rintro ⟨c, hc, rfl⟩
        exact ⟨Nat.succ_ne_zero c, Nat.succ_lt_succ (List.mem_range.mp hc), rfl⟩
      · rintro ⟨hb, hlt, -⟩
        obtain ⟨c, rfl⟩ := Nat.exists_eq_succ_of_ne_zero hb
        exact ⟨c, List.mem_range.mpr (Nat.lt_of_succ_lt_succ hlt), rfl⟩
  · rw [hblock]
    rfl

/-! ### References given and taken -/

/-- A new reference to a block of the pool; a free block leaves the queue. -/
theorem touchBlock_sound (hp : p.Sound n refs) (hb : b ≠ nullBlock) (hlt : b < n) :
    (p.touchBlock b).Sound n fun x => refs x + if x = b then 1 else 0 := by
  have hcount := hp.refCnt b hb hlt
  have hblock : ∀ (free : List BlockId) (x : BlockId),
      ((({ p with freeBlockQueue := free } : BlockPool).modifyBlock b fun blk =>
        { blk with refCnt := blk.refCnt + 1 }).block x).blockHash = (p.block x).blockHash :=
    fun free x => blockHash_modifyBlock b x fun _ => rfl
  have hrefs : ∀ (free : List BlockId) (x : BlockId), x ≠ nullBlock → x < n →
      ((({ p with freeBlockQueue := free } : BlockPool).modifyBlock b fun blk =>
        { blk with refCnt := blk.refCnt + 1 }).block x).refCnt =
          ((refs x + if x = b then 1 else 0 : ℕ) : ℤ) := by
    intro free x hx hxlt
    have hold := hp.refCnt x hx hxlt
    rw [block_modifyBlock]
    by_cases hxb : x = b
    · subst hxb
      rw [if_pos ⟨rfl, by rw [hp.length]; exact hxlt⟩, if_pos rfl]
      push_cast
      rw [← hold]
      rfl
    · rw [if_neg fun h => hxb h.1.symm, if_neg hxb, Nat.add_zero, ← hold]
      rfl
  have hlength : ∀ (free : List BlockId),
      (({ p with freeBlockQueue := free } : BlockPool).modifyBlock b fun blk =>
        { blk with refCnt := blk.refCnt + 1 }).blocks.length = n := by
    intro free
    rw [← hp.length]
    exact List.length_modify ..
  unfold touchBlock
  split
  · rename_i hzero
    have href : refs b = 0 := by
      rw [hcount] at hzero
      exact_mod_cast hzero.1
    refine ⟨⟨fun x h => ?_, hp.nodup, hp.real, hp.off⟩, hlength _, hp.free_nodup.erase b,
      fun x => ?_, hrefs _⟩
    · rw [hblock]
      exact hp.blockHash x h
    · change x ∈ p.freeBlockQueue.erase b ↔ _
      rw [hp.free_nodup.mem_erase_iff, hp.mem_free]
      by_cases hxb : x = b
      · simp [hxb]
      · simp [hxb]
  · rename_i hnonzero
    have href : refs b ≠ 0 := fun hzero => hnonzero ⟨by rw [hcount, hzero]; rfl, hb⟩
    refine ⟨⟨fun x h => ?_, hp.nodup, hp.real, hp.off⟩, hlength _, hp.free_nodup,
      fun x => ?_, hrefs _⟩
    · exact (congrArg (· = some h) (hblock p.freeBlockQueue x)).to_iff.trans (hp.blockHash x h)
    · change x ∈ p.freeBlockQueue ↔ _
      rw [hp.mem_free]
      by_cases hxb : x = b
      · simp [hxb, href]
      · simp [hxb]

/-- Soundness depends on the values of the counts alone. -/
theorem Sound.congr {refs' : BlockId → ℕ} (hp : p.Sound n refs) (hrefs : ∀ b, refs b = refs' b) :
    p.Sound n refs' := funext hrefs ▸ hp

/-- Touching a block leaves all hashes as they are. -/
theorem touchBlock_blockHash (x : BlockId) :
    ((p.touchBlock b).block x).blockHash = (p.block x).blockHash := by
  refine (blockHash_modifyBlock (f := fun blk => { blk with refCnt := blk.refCnt + 1 }) b x
    fun _ => rfl).trans ?_
  split <;> rfl

/-- New references to blocks of the pool. -/
theorem touch_sound {l : List BlockId} (hp : p.Sound n refs)
    (hl : ∀ b ∈ l, b ≠ nullBlock ∧ b < n) : (p.touch l).Sound n fun x => refs x + l.count x := by
  induction l generalizing p refs with
  | nil => exact hp
  | cons b l ih =>
    obtain ⟨hb, hlt⟩ := hl b List.mem_cons_self
    refine (ih (touchBlock_sound hp hb hlt) fun x hx => hl x (List.mem_cons_of_mem b hx)).congr ?_
    intro x
    rw [List.count_cons]
    by_cases hx : x = b
    · simp [hx]
      omega
    · simp [hx, Ne.symm hx]

/-- Touching blocks leaves all hashes as they are. -/
theorem touch_blockHash (l : List BlockId) (x : BlockId) :
    ((p.touch l).block x).blockHash = (p.block x).blockHash := by
  induction l generalizing p with
  | nil => rfl
  | cons b l ih => exact ih.trans (touchBlock_blockHash x)

/-- Touching blocks leaves caching switched as it is. -/
theorem touch_enableCaching (l : List BlockId) : (p.touch l).enableCaching = p.enableCaching := by
  induction l generalizing p with
  | nil => rfl
  | cons b l ih =>
    refine (ih (p := p.touchBlock b)).trans ?_
    unfold touchBlock
    split <;> rfl

/-- A block loses its hash, and the map forgets it. -/
theorem maybeEvictCachedBlock_hashed (hp : Hashed n p) (b : BlockId) (hlt : b < p.blocks.length) :
    Hashed n (p.maybeEvictCachedBlock b) ∧
      (∀ x, ((p.maybeEvictCachedBlock b).block x).blockHash =
        if x = b then none else (p.block x).blockHash) ∧
      (∀ x, ((p.maybeEvictCachedBlock b).block x).refCnt = (p.block x).refCnt) ∧
      (p.maybeEvictCachedBlock b).freeBlockQueue = p.freeBlockQueue ∧
      (p.maybeEvictCachedBlock b).enableCaching = p.enableCaching ∧
      (p.maybeEvictCachedBlock b).blocks.length = p.blocks.length := by
  unfold maybeEvictCachedBlock
  cases hhash : (p.block b).blockHash with
  | none =>
    refine ⟨hp, fun x => ?_, fun _ => rfl, rfl, rfl, rfl⟩
    change (p.block x).blockHash = _
    by_cases hx : x = b
    · rw [hx, if_pos rfl, hhash]
    · rw [if_neg hx]
  | some h =>
    have hmem : b ∈ p.cachedIds h := (hp.blockHash b h).mp hhash
    dsimp only
    obtain ⟨ids, hids⟩ : ∃ ids, p.cachedBlockHashToBlock.get? h = some ids := by
      unfold cachedIds at hmem
      cases hget : p.cachedBlockHashToBlock.get? h with
      | none =>
        rw [hget] at hmem
        exact absurd hmem List.not_mem_nil
      | some ids => exact ⟨ids, rfl⟩
    have hcached : p.cachedIds h = ids := by
      rw [cachedIds, hids]
      rfl
    rw [hcached] at hmem
    rw [hids]
    dsimp only
    rw [if_neg (not_not_intro hmem)]
    have hrest : ∀ h', cachedIds { p with
        cachedBlockHashToBlock := if ids.erase b = [] then p.cachedBlockHashToBlock.erase h
          else p.cachedBlockHashToBlock.set h (ids.erase b) } h' =
        if h' = h then ids.erase b else p.cachedIds h' := by
      intro h'
      unfold cachedIds
      dsimp only
      by_cases hh : h' = h
      · subst hh
        rw [if_pos rfl]
        split_ifs with hnil
        · rw [Dict.get?_erase, if_pos rfl, hnil]
          rfl
        · rw [Dict.get?_set_self]
          rfl
      · rw [if_neg hh]
        split_ifs
        · rw [Dict.get?_erase, if_neg (Ne.symm hh)]
        · rw [Dict.get?_set_ne _ _ (Ne.symm hh)]
    have hnodup := hp.nodup h
    rw [hcached] at hnodup
    have hhashes : ∀ x, ((modifyBlock { p with
        cachedBlockHashToBlock := if ids.erase b = [] then p.cachedBlockHashToBlock.erase h
          else p.cachedBlockHashToBlock.set h (ids.erase b) } b
          fun blk => { blk with blockHash := none }).block x).blockHash =
        if x = b then none else (p.block x).blockHash := by
      intro x
      rw [block_modifyBlock]
      by_cases hx : x = b
      · rw [if_pos ⟨hx.symm, by rw [hx]; exact hlt⟩, if_pos hx]
      · rw [if_neg fun hx' => hx hx'.1.symm, if_neg hx]
        rfl
    refine ⟨⟨fun x h' => ?_, fun h' => ?_, fun h' x hx => ?_, fun hoff => ?_⟩, hhashes,
      fun x => refCnt_modifyBlock b x fun _ => rfl, rfl, rfl, List.length_modify ..⟩
    · rw [hhashes]
      refine Iff.trans ?_ (Eq.to_iff (congrArg (x ∈ ·) (hrest h').symm))
      by_cases hx : x = b
      · subst hx
        rw [if_pos rfl]
        refine iff_of_false (Option.some_ne_none h' ∘ Eq.symm) fun hin => ?_
        split at hin
        · exact hnodup.not_mem_erase hin
        · rename_i hne
          have hother := (hp.blockHash x h').mpr hin
          rw [hhash] at hother
          exact hne (Option.some.inj hother).symm
      · rw [if_neg hx, hp.blockHash]
        split
        · rename_i hh
          rw [hh, hcached, List.mem_erase_of_ne hx]
        · rfl
    · refine (congrArg List.Nodup (hrest h')).mpr ?_
      split
      · exact hnodup.erase b
      · exact hp.nodup h'
    · have hx := (congrArg (x ∈ ·) (hrest h')).mp hx
      split at hx
      · exact hp.real h x (hcached ▸ List.mem_of_mem_erase hx)
      · exact hp.real h' x hx
    · have hnone := hp.off hoff h
      rw [hcached] at hnone
      rw [hnone] at hmem
      exact absurd hmem List.not_mem_nil

/-- What taking the blocks `l` out of the queue does to the pool behind it. -/
structure Taken (l : List BlockId) (p p' : BlockPool) : Prop where
  free : p'.freeBlockQueue = p.freeBlockQueue
  caching : p'.enableCaching = p.enableCaching
  length : p'.blocks.length = p.blocks.length
  refCnt : ∀ x, x < p.blocks.length → (p'.block x).refCnt = (p.block x).refCnt + l.count x
  blockHash : ∀ x, (p'.block x).blockHash = if x ∈ l then none else (p.block x).blockHash

/-- A block without references is taken. -/
theorem takeNewBlock_spec (hp : Hashed n p) (hlt : b < p.blocks.length)
    (hzero : (p.block b).refCnt = 0) :
    ∃ p', p.takeNewBlock b = .ok p' ∧ Hashed n p' ∧ Taken [b] p p' := by
  obtain ⟨q, hq, hhashed, hhash, hcount, hfree, hcaching, hlength⟩ :
      ∃ q, (if p.enableCaching then p.maybeEvictCachedBlock b else p) = q ∧ Hashed n q ∧
        (∀ x, (q.block x).blockHash = if x = b then none else (p.block x).blockHash) ∧
        (∀ x, (q.block x).refCnt = (p.block x).refCnt) ∧
        q.freeBlockQueue = p.freeBlockQueue ∧ q.enableCaching = p.enableCaching ∧
        q.blocks.length = p.blocks.length := by
    by_cases hcaching : p.enableCaching = true
    · rw [if_pos hcaching]
      exact ⟨_, rfl, maybeEvictCachedBlock_hashed hp b hlt⟩
    · rw [if_neg hcaching]
      refine ⟨p, rfl, hp, fun x => ?_, fun _ => rfl, rfl, rfl, rfl⟩
      cases hhash : (p.block x).blockHash with
      | none => exact (ite_self _).symm
      | some h =>
        have hmem := (hp.blockHash x h).mp hhash
        rw [hp.off (Bool.eq_false_iff.mpr hcaching)] at hmem
        exact absurd hmem List.not_mem_nil
  have hblock : ∀ x, ((q.modifyBlock b fun blk => { blk with refCnt := blk.refCnt + 1 }).block
      x).blockHash = (q.block x).blockHash := fun x => blockHash_modifyBlock b x fun _ => rfl
  refine ⟨q.modifyBlock b fun blk => { blk with refCnt := blk.refCnt + 1 }, ?_,
    ⟨fun x h => ?_, hhashed.nodup, hhashed.real, hhashed.off⟩, hfree, hcaching, ?_,
    fun x hx => ?_, fun x => ?_⟩
  · unfold takeNewBlock
    rw [hq, if_neg (not_not_intro ((hcount b).trans hzero))]
  · rw [hblock]
    exact hhashed.blockHash x h
  · rw [← hlength]
    exact List.length_modify ..
  · rw [block_modifyBlock]
    by_cases hxb : b = x
    · subst hxb
      rw [if_pos ⟨rfl, hlength ▸ hx⟩, List.count_singleton_self]
      exact congrArg (· + 1) (hcount b)
    · rw [if_neg fun h => hxb h.1, hcount, List.count_singleton, beq_eq_false_iff_ne.mpr hxb]
      exact (Int.add_zero _).symm
  · rw [hblock, hhash]
    exact if_congr List.mem_singleton.symm rfl rfl

/-- Blocks without references are taken one after another. -/
theorem foldlM_takeNewBlock {l : List BlockId} (hp : Hashed n p) (hl : l.Nodup)
    (hlt : ∀ b ∈ l, b < p.blocks.length) (hzero : ∀ b ∈ l, (p.block b).refCnt = 0) :
    ∃ p', l.foldlM takeNewBlock p = .ok p' ∧ Hashed n p' ∧ Taken l p p' := by
  induction l generalizing p with
  | nil =>
    exact ⟨p, rfl, hp, rfl, rfl, rfl, fun x _ => (Int.add_zero _).symm,
      fun x => (if_neg List.not_mem_nil).symm⟩
  | cons b l ih =>
    obtain ⟨hb, hl⟩ := List.nodup_cons.mp hl
    obtain ⟨p₁, hp₁, hhashed, htaken⟩ := takeNewBlock_spec hp (hlt b List.mem_cons_self)
      (hzero b List.mem_cons_self)
    obtain ⟨p', hp', hhashed', htaken'⟩ := ih hhashed hl
      (fun x hx => htaken.length ▸ hlt x (List.mem_cons_of_mem b hx)) fun x hx => by
        have hne : (b == x) = false := beq_eq_false_iff_ne.mpr fun hbx => hb (hbx ▸ hx)
        rw [htaken.refCnt x (hlt x (List.mem_cons_of_mem b hx)),
          hzero x (List.mem_cons_of_mem b hx), List.count_singleton, hne]
        rfl
    refine ⟨p', bind_eq_ok.mpr ⟨p₁, hp₁, hp'⟩, hhashed', htaken'.free.trans htaken.free,
      htaken'.caching.trans htaken.caching, htaken'.length.trans htaken.length,
      fun x hx => ?_, fun x => ?_⟩
    · rw [htaken'.refCnt x (htaken.length ▸ hx), htaken.refCnt x hx, List.count_singleton,
        List.count_cons]
      push_cast
      omega
    · rw [htaken'.blockHash, htaken.blockHash]
      by_cases hx : x ∈ l
      · rw [if_pos hx, if_pos (List.mem_cons_of_mem b hx)]
      · simp [hx]

/-- As many blocks as are free can be taken. -/
theorem getNewBlocks_spec {k : ℕ} (hp : p.Sound n refs) (hk : k ≤ p.getNumFreeBlocks) :
    ∃ p', p.getNewBlocks k = .ok (p.freeBlockQueue.take k, p') ∧
      p'.freeBlockQueue = p.freeBlockQueue.drop k ∧ p'.enableCaching = p.enableCaching ∧
      p'.Sound n (fun x => refs x + (p.freeBlockQueue.take k).count x) ∧
      ∀ x, (p'.block x).blockHash =
        if x ∈ p.freeBlockQueue.take k then none else (p.block x).blockHash := by
  have hfree : ∀ b ∈ p.freeBlockQueue.take k, b ≠ nullBlock ∧ b < n ∧ refs b = 0 :=
    fun b hb => (hp.mem_free b).mp (List.mem_of_mem_take hb)
  have hnodup : (p.freeBlockQueue.take k).Nodup := hp.free_nodup.sublist (List.take_sublist _ _)
  obtain ⟨p', hp', hhashed, htaken⟩ := foldlM_takeNewBlock
    (p := { p with freeBlockQueue := p.freeBlockQueue.drop k })
    ⟨hp.blockHash, hp.nodup, hp.real, hp.off⟩ hnodup
    (fun b hb => (hfree b hb).2.1.trans_eq hp.length.symm)
    fun b hb => by
      have hcount := hp.refCnt b (hfree b hb).1 (hfree b hb).2.1
      rw [(hfree b hb).2.2] at hcount
      exact hcount
  refine ⟨p', ?_, htaken.free, htaken.caching, ⟨hhashed, htaken.length.trans hp.length, ?_, ?_, ?_⟩,
    htaken.blockHash⟩
  · unfold getNewBlocks
    rw [if_neg (Nat.not_lt.mpr hk)]
    exact bind_eq_ok.mpr ⟨p', hp', rfl⟩
  · rw [htaken.free]
    exact hp.free_nodup.sublist (List.drop_sublist _ _)
  · intro x
    rw [htaken.free]
    have hsplit : x ∈ p.freeBlockQueue ↔
        x ∈ p.freeBlockQueue.take k ∨ x ∈ p.freeBlockQueue.drop k := by
      rw [← List.mem_append, List.take_append_drop]
    have hdisj : x ∈ p.freeBlockQueue.take k → x ∉ p.freeBlockQueue.drop k := by
      have hall := hp.free_nodup
      rw [← List.take_append_drop k p.freeBlockQueue] at hall
      exact fun ht hd => (List.nodup_append.mp hall).2.2 x ht x hd rfl
    have hmem := hp.mem_free x
    constructor
    · intro hx
      obtain ⟨hnull, hlt, hrefs⟩ := hmem.mp (hsplit.mpr (.inr hx))
      refine ⟨hnull, hlt, ?_⟩
      rw [hrefs, List.count_eq_zero.mpr fun ht => hdisj ht hx]
    · rintro ⟨hnull, hlt, hrefs⟩
      refine (hsplit.mp (hmem.mpr ⟨hnull, hlt, by omega⟩)).resolve_left fun ht => ?_
      have hpos := List.count_pos_iff.mpr ht
      omega
  · intro x hx hlt
    rw [htaken.refCnt x (hlt.trans_eq hp.length.symm)]
    push_cast
    exact congrArg (· + _) (hp.refCnt x hx hlt)

/-! ### The prefix cache -/

/-- What caching the blocks `l` leaves alone. -/
structure Recorded (l : List BlockId) (p p' : BlockPool) : Prop where
  free : p'.freeBlockQueue = p.freeBlockQueue
  caching : p'.enableCaching = p.enableCaching
  length : p'.blocks.length = p.blocks.length
  refCnt : ∀ x, (p'.block x).refCnt = (p.block x).refCnt
  blockHash : ∀ x, x ∉ l → (p'.block x).blockHash = (p.block x).blockHash

/-- Recording hashes keeps the pool sound. -/
theorem Recorded.sound {l : List BlockId} (h : Recorded l p p') (hp : p.Sound n refs)
    (hhashed : Hashed n p') : p'.Sound n refs := by
  refine ⟨hhashed, h.length.trans hp.length, ?_, fun x => ?_, fun x hx hlt => ?_⟩
  · rw [h.free]
    exact hp.free_nodup
  · rw [h.free]
    exact hp.mem_free x
  · rw [h.refCnt]
    exact hp.refCnt x hx hlt

/-- A block without a hash is cached under the hash of its contents. -/
theorem cacheFullBlock_spec (hp : Hashed n p) (hcaching : p.enableCaching = true)
    (hb : b ≠ nullBlock) (hlt : b < n) (hlength : p.blocks.length = n)
    (hnone : (p.block b).blockHash = none) :
    ∃ p', p.cacheFullBlock (b, h) = .ok p' ∧ Hashed n p' ∧ Recorded [b] p p' := by
  have hother : ∀ h', b ∉ p.cachedIds h' := by
    intro h' hmem
    rw [← hp.blockHash, hnone] at hmem
    cases hmem
  have hids : ∀ h', cachedIds ((p.modifyBlock b fun blk => { blk with blockHash := some h }).insertCached
      h b) h' = if h' = h then p.cachedIds h ++ [b] else p.cachedIds h' := by
    intro h'
    change ((p.cachedBlockHashToBlock.set h (if b ∈ p.cachedIds h then p.cachedIds h
      else p.cachedIds h ++ [b])).get? h').getD [] = _
    rw [if_neg (hother h), Dict.get?_set]
    by_cases hh : h = h'
    · rw [if_pos hh, if_pos hh.symm]
      rfl
    · rw [if_neg hh, if_neg (Ne.symm hh)]
      rfl
  have hhash : ∀ x, (((p.modifyBlock b fun blk => { blk with blockHash := some h }).insertCached
      h b).block x).blockHash = if x = b then some h else (p.block x).blockHash := by
    intro x
    refine (congrArg KVCacheBlock.blockHash (block_modifyBlock p b x _)).trans ?_
    by_cases hx : x = b
    · rw [if_pos ⟨hx.symm, by rw [hx, hlength]; exact hlt⟩, if_pos hx]
    · rw [if_neg fun hx' => hx hx'.1.symm, if_neg hx]
  have hcount : ∀ x, (((p.modifyBlock b fun blk => { blk with blockHash := some h }).insertCached
      h b).block x).refCnt = (p.block x).refCnt := fun x => refCnt_modifyBlock b x fun _ => rfl
  refine ⟨(p.modifyBlock b fun blk => { blk with blockHash := some h }).insertCached h b, ?_,
    ⟨fun x h' => ?_, fun h' => ?_, fun h' x hx => ?_, fun hoff => ?_⟩,
    rfl, rfl, List.length_modify .., hcount, fun x hx => ?_⟩
  · unfold cacheFullBlock
    rw [if_neg hb, if_neg (not_not_intro hnone)]
  · rw [hhash, hids]
    by_cases hx : x = b
    · subst hx
      rw [if_pos rfl]
      split
      · rename_i hh
        exact iff_of_true (congrArg some hh.symm) (List.mem_append_right _ List.mem_cons_self)
      · rename_i hh
        exact iff_of_false (fun hsome => hh (Option.some.inj hsome).symm) (hother h')
    · rw [if_neg hx, hp.blockHash]
      split
      · rename_i hh
        simp [hh, hx]
      · rfl
  · rw [hids]
    split
    · exact List.nodup_append.mpr ⟨hp.nodup h, List.nodup_singleton b, fun x hx y hy hxy =>
        hother h (List.mem_singleton.mp hy ▸ hxy ▸ hx)⟩
    · exact hp.nodup h'
  · rw [hids] at hx
    split at hx
    · rcases List.mem_append.mp hx with hold | hnew
      · exact hp.real h x hold
      · rw [List.mem_singleton.mp hnew]
        exact ⟨hb, hlt⟩
    · exact hp.real h' x hx
  · exact absurd (hcaching.symm.trans hoff) Bool.noConfusion
  · rw [hhash, if_neg fun h => hx (List.mem_singleton.mpr h)]

/-- Blocks without a hash are cached one after another. -/
theorem foldlM_cacheFullBlock {l : List BlockId} (hs : List BlockHash) (hp : Hashed n p)
    (hcaching : p.enableCaching = true) (hlength : p.blocks.length = n) (hl : l.Nodup)
    (hreal : ∀ b ∈ l, b ≠ nullBlock ∧ b < n) (hnone : ∀ b ∈ l, (p.block b).blockHash = none) :
    ∃ p', (l.zip hs).foldlM cacheFullBlock p = .ok p' ∧ Hashed n p' ∧ Recorded l p p' := by
  induction l generalizing p hs with
  | nil =>
    rw [List.zip_nil_left]
    exact ⟨p, rfl, hp, rfl, rfl, rfl, fun _ => rfl, fun _ _ => rfl⟩
  | cons b l ih =>
    cases hs with
    | nil =>
      rw [List.zip_nil_right]
      exact ⟨p, rfl, hp, rfl, rfl, rfl, fun _ => rfl, fun _ _ => rfl⟩
    | cons h hs =>
      obtain ⟨hb, hl⟩ := List.nodup_cons.mp hl
      obtain ⟨hnull, hlt⟩ := hreal b List.mem_cons_self
      obtain ⟨p₁, hp₁, hhashed, hrec⟩ := cacheFullBlock_spec (h := h) hp hcaching hnull hlt hlength
        (hnone b List.mem_cons_self)
      obtain ⟨p', hp', hhashed', hrec'⟩ := ih hs hhashed (hrec.caching.trans hcaching)
        (hrec.length.trans hlength) hl (fun x hx => hreal x (List.mem_cons_of_mem b hx))
        fun x hx => by
          rw [hrec.blockHash x fun hxb => hb (List.mem_singleton.mp hxb ▸ hx)]
          exact hnone x (List.mem_cons_of_mem b hx)
      refine ⟨p', bind_eq_ok.mpr ⟨p₁, hp₁, hp'⟩, hhashed', hrec'.free.trans hrec.free,
        hrec'.caching.trans hrec.caching, hrec'.length.trans hrec.length,
        fun x => (hrec'.refCnt x).trans (hrec.refCnt x), fun x hx => ?_⟩
      rw [List.mem_cons, not_or] at hx
      rw [hrec'.blockHash x hx.2, hrec.blockHash x fun h => hx.1 (List.mem_singleton.mp h)]

/-- The full blocks of a request with enough hashes are cached, when none of them was. -/
theorem cacheFullBlocks_spec {q : Request} {ids : List BlockId} {numCached : ℕ} (numFull : ℕ)
    (hp : p.Sound n refs) (hcaching : p.enableCaching = true)
    (hhashes : numFull ≤ q.blockHashes.length) (hids : ids.Nodup)
    (hreal : ∀ b ∈ ids, b ≠ nullBlock ∧ b < n)
    (hnone : ∀ b ∈ ids.drop numCached, (p.block b).blockHash = none) :
    ∃ p', p.cacheFullBlocks q ids numCached numFull = .ok p' ∧ p'.Sound n refs ∧
      Recorded ((ids.take numFull).drop numCached) p p' := by
  have hsub : ∀ b ∈ (ids.take numFull).drop numCached, b ∈ ids.drop numCached := by
    intro b hb
    rw [List.drop_take] at hb
    exact List.mem_of_mem_take hb
  unfold cacheFullBlocks
  by_cases hle : numFull ≤ numCached
  · rw [if_pos hle]
    exact ⟨p, rfl, hp, rfl, rfl, rfl, fun _ => rfl, fun _ _ => rfl⟩
  · rw [if_neg hle, if_neg (Nat.not_lt.mpr hhashes)]
    obtain ⟨p', hp', hhashed, hrec⟩ := foldlM_cacheFullBlock
      (q.blockHashes.drop numCached) hp.toHashed hcaching hp.length
      (hids.sublist ((List.drop_sublist _ _).trans (List.take_sublist _ _)))
      (fun b hb => hreal b (List.mem_of_mem_take (List.mem_of_mem_drop hb)))
      fun b hb => hnone b (hsub b hb)
    exact ⟨p', hp', hrec.sound hp hhashed, hrec⟩

/-! ### References given back -/

/-- The references to the blocks `l` are given back one after another. -/
theorem refCnt_releaseBlocks (l : List BlockId) (x : BlockId) (hx : x < p.blocks.length) :
    ((l.foldl releaseBlock p).block x).refCnt = (p.block x).refCnt - l.count x := by
  induction l generalizing p with
  | nil => exact (Int.sub_zero _).symm
  | cons b l ih =>
    have hlength : (p.releaseBlock b).blocks.length = p.blocks.length := List.length_modify ..
    refine (ih (p := p.releaseBlock b) (hlength ▸ hx)).trans ?_
    rw [releaseBlock, block_modifyBlock, List.count_cons]
    by_cases hxb : b = x
    · rw [if_pos ⟨hxb, hx⟩, if_pos (beq_iff_eq.mpr hxb)]
      push_cast
      omega
    · rw [if_neg fun h => hxb h.1, if_neg fun h => hxb (beq_iff_eq.mp h)]
      push_cast
      omega

/-- Giving references back changes only the counts. -/
theorem releaseBlocks_rest (l : List BlockId) :
    (l.foldl releaseBlock p).freeBlockQueue = p.freeBlockQueue ∧
      (l.foldl releaseBlock p).enableCaching = p.enableCaching ∧
      (l.foldl releaseBlock p).blocks.length = p.blocks.length ∧
      (l.foldl releaseBlock p).cachedBlockHashToBlock = p.cachedBlockHashToBlock ∧
      ∀ x, ((l.foldl releaseBlock p).block x).blockHash = (p.block x).blockHash := by
  induction l generalizing p with
  | nil => exact ⟨rfl, rfl, rfl, rfl, fun _ => rfl⟩
  | cons b l ih =>
    obtain ⟨hfree, hcaching, hlength, hcached, hhash⟩ := ih (p := p.releaseBlock b)
    refine ⟨hfree, hcaching, hlength.trans (List.length_modify ..), hcached, fun x => ?_⟩
    exact (hhash x).trans (blockHash_modifyBlock b x fun _ => rfl)

/-- A request gives its blocks back; those that nobody else refers to are free again. -/
theorem freeBlocks_sound {l : List BlockId} (hp : p.Sound n refs) (hl : l.Nodup)
    (hreal : ∀ b ∈ l, b ≠ nullBlock ∧ b < n) (hheld : ∀ b ∈ l, 0 < refs b) :
    (p.freeBlocks l).Sound n fun x => refs x - l.count x := by
  obtain ⟨hfree, hcaching, hlength, hcached, hhash⟩ := releaseBlocks_rest (p := p) l
  have hcount : ∀ x, x ≠ nullBlock → x < n →
      ((l.foldl releaseBlock p).block x).refCnt = ((refs x - l.count x : ℕ) : ℤ) := by
    intro x hx hlt
    rw [refCnt_releaseBlocks l x (hlt.trans_eq hp.length.symm), hp.refCnt x hx hlt]
    by_cases hmem : x ∈ l
    · have hpos := hheld x hmem
      rw [List.count_eq_one_of_mem hl hmem]
      omega
    · rw [List.count_eq_zero.mpr hmem]
      simp
  refine ⟨⟨fun x h => ?_, fun h => ?_, fun h => ?_, fun hoff h => ?_⟩, hlength.trans hp.length, ?_,
    fun x => ?_, hcount⟩
  · change ((l.foldl releaseBlock p).block x).blockHash = _ ↔ x ∈ ((l.foldl releaseBlock
      p).cachedBlockHashToBlock.get? h).getD []
    rw [hhash, hcached]
    exact hp.blockHash x h
  · change (((l.foldl releaseBlock p).cachedBlockHashToBlock.get? h).getD []).Nodup
    rw [hcached]
    exact hp.nodup h
  · change ∀ b ∈ ((l.foldl releaseBlock p).cachedBlockHashToBlock.get? h).getD [], _
    rw [hcached]
    exact hp.real h
  · change ((l.foldl releaseBlock p).cachedBlockHashToBlock.get? h).getD [] = []
    rw [hcached]
    exact hp.off (hcaching ▸ hoff) h
  · refine List.nodup_append.mpr ⟨hfree ▸ hp.free_nodup, hl.filter _, fun x hx y hy hxy => ?_⟩
    subst hxy
    rw [hfree] at hx
    have hpos := hheld x (List.mem_of_mem_filter hy)
    have hzero := ((hp.mem_free x).mp hx).2.2
    omega
  · change x ∈ (l.foldl releaseBlock p).freeBlockQueue ++ _ ↔ _
    rw [List.mem_append, hfree, hp.mem_free, List.mem_filter]
    by_cases hmem : x ∈ l
    · obtain ⟨hnull, hlt⟩ := hreal x hmem
      have hpos := hheld x hmem
      have hone := List.count_eq_one_of_mem hl hmem
      rw [decide_eq_true_iff, hcount x hnull hlt]
      constructor
      · rintro (⟨-, -, hzero⟩ | ⟨-, hzero, -⟩)
        · omega
        · exact ⟨hnull, hlt, by exact_mod_cast hzero⟩
      · rintro ⟨-, -, hzero⟩
        exact .inr ⟨hmem, by exact_mod_cast hzero, hnull⟩
    · rw [List.count_eq_zero.mpr hmem, Nat.sub_zero]
      simp [hmem]

/-- The reset of the prefix cache takes the hash of every block. -/
theorem block_reset (x : BlockId) : block { p with
    cachedBlockHashToBlock := .empty
    blocks := p.blocks.map fun blk => { blk with blockHash := none } } x =
      { p.block x with blockHash := none } := by
  unfold block
  dsimp only
  rw [List.getElem?_map]
  cases p.blocks[x]? <;> rfl

/-- The reset of the prefix cache forgets the hashes alone. -/
theorem resetPrefixCache_sound (hp : p.Sound n refs) : p.resetPrefixCache.2.Sound n refs := by
  unfold resetPrefixCache
  split
  · exact hp
  · refine ⟨⟨fun x h => ?_, fun _ => List.nodup_nil, fun _ _ hx => absurd hx List.not_mem_nil,
      fun _ _ => rfl⟩, (List.length_map _).trans hp.length, hp.free_nodup, hp.mem_free,
      fun x hx hlt => ?_⟩
    · rw [block_reset]
      exact iff_of_false (Option.some_ne_none h ∘ Eq.symm) List.not_mem_nil
    · rw [block_reset]
      exact hp.refCnt x hx hlt

/-- Resetting the prefix cache leaves caching switched as it is. -/
theorem resetPrefixCache_enableCaching :
    p.resetPrefixCache.2.enableCaching = p.enableCaching := by
  unfold resetPrefixCache
  split <;> rfl

/-- A block without a hash has none after the reset. -/
theorem resetPrefixCache_blockHash (hnone : (p.block b).blockHash = none) :
    (p.resetPrefixCache.2.block b).blockHash = none := by
  unfold resetPrefixCache
  split
  · exact hnone
  · exact congrArg KVCacheBlock.blockHash (block_reset b)

end RpsServe.BlockPool
