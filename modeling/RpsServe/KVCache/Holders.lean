import RpsServe.KVCache.FullAttention
import RpsServe.KVCache.PoolSound
import RpsServe.Lib.Census

/-!
# Which request holds which block

Requests share the blocks of a common prefix, which are cached, and hold the rest of their
blocks alone. The pool counts for every block the requests that hold it. Every operation of
the manager keeps that, so it holds in every state that the scheduler can bring it to.
-/

namespace RpsServe.FullAttentionKV

open BlockPool (nullBlock)

/-- The number of requests that hold a block. -/
def holders (m : FullAttentionKV) (b : BlockId) : ℕ := m.reqToBlocks.total (List.count b)

/-- The blocks of a request that are in the prefix cache stand before the others. -/
def numCached (m : FullAttentionKV) (r : ReqId) : ℕ := (m.numCachedBlock.get? r).getD 0

/-- Blocks of the prefix cache, each once. -/
def InCache (m : FullAttentionKV) (ids : List BlockId) : Prop :=
  ids.Nodup ∧ ∀ b ∈ ids, (m.blockPool.block b).blockHash ≠ none

/-- The computed blocks that are handed over. -/
def hitBlocks (args : AllocateSlotsArgs) : List BlockId := (args.newComputedBlocks.getD [[]]).flatten

/-- What the manager keeps: the pool counts the holders of the blocks, and a request is the only
holder of its blocks behind the cached ones. -/
structure Kept (cfg : Config) (enableCaching : Bool) (m : FullAttentionKV) : Prop where
  pool : m.blockPool.Sound cfg.numBlocks m.holders
  enabled : m.enableCaching = enableCaching
  poolEnabled : m.blockPool.enableCaching = enableCaching
  blockSize : m.blockSize = cfg.blockSize
  maxModelLen : m.maxModelLen = cfg.maxModelLen
  real : ∀ r, ∀ b ∈ m.reqBlocks r, b ≠ nullBlock ∧ b < cfg.numBlocks
  nodup : ∀ r, (m.reqBlocks r).Nodup
  tail : ∀ r, ∀ b ∈ (m.reqBlocks r).drop (m.numCached r),
    (m.blockPool.block b).blockHash = none ∧ m.holders b = 1
  known : ∀ r, (m.numCachedBlock.get? r).isSome → (m.reqToBlocks.get? r).isSome

/-- The states of a manager of the scheduler without a KV connector. The computed blocks of a
request are found in the prefix cache before the allocation loop makes room for it. -/
inductive Reached (cfg : Config) (enableCaching : Bool) : FullAttentionKV → Prop
  | init : Reached cfg enableCaching (init cfg enableCaching)
  | allocateSlots {m m' : FullAttentionKV} {q : Request} {args : AllocateSlotsArgs}
      {blocks : Option KVCacheBlocks} : Reached cfg enableCaching m →
      m.InCache (hitBlocks args) →
      args.numExternalComputedTokens = 0 →
      m.allocateSlots q args = .ok (blocks, m') → Reached cfg enableCaching m'
  | free {m : FullAttentionKV} (r : ReqId) : Reached cfg enableCaching m → Reached cfg enableCaching (m.free r)
  | resetPrefixCache {m : FullAttentionKV} : Reached cfg enableCaching m →
      Reached cfg enableCaching { m with blockPool := m.blockPool.resetPrefixCache.2 }
  | takeNewBlockIds {m : FullAttentionKV} : Reached cfg enableCaching m →
      Reached cfg enableCaching { m with newBlockIds := [] }

variable {cfg : Config} {enableCaching : Bool} {m m' : FullAttentionKV} {r x : ReqId} {b : BlockId}

/-! ### Counting holders -/

/-- The holders of a block when a request gets other blocks. -/
theorem total_set_count (ids : List BlockId) (b : BlockId) :
    (m.reqToBlocks.set r ids).total (List.count b) + (m.reqBlocks r).count b =
      m.holders b + ids.count b := by
  unfold reqBlocks holders
  cases hget : m.reqToBlocks.get? r with
  | none =>
    have hkey : r ∉ m.reqToBlocks.keys := by
      rw [← m.reqToBlocks.isSome_get?, hget]
      exact Bool.false_ne_true
    exact Dict.total_set _ hkey
  | some old => exact Dict.total_set_of_get? _ hget

/-- The holders of a block when a request gives its blocks back. -/
theorem total_erase_count (b : BlockId) :
    (m.reqToBlocks.erase r).total (List.count b) + (m.reqBlocks r).count b = m.holders b := by
  unfold reqBlocks holders
  cases hget : m.reqToBlocks.get? r with
  | none =>
    have hsame : m.reqToBlocks.erase r = m.reqToBlocks := by
      have hentries : m.reqToBlocks.entries.filter (fun e => e.1 ≠ r) = m.reqToBlocks.entries := by
        refine List.filter_eq_self.mpr fun e he => decide_eq_true fun hr => ?_
        have hsome := Dict.get?_of_mem_entries he
        rw [hr, hget] at hsome
        cases hsome
      cases hd : m.reqToBlocks with
      | mk entries nodup =>
        rw [hd] at hentries
        simpa [Dict.erase] using hentries
    rw [hsame]
    rfl
  | some old => exact Dict.total_erase _ hget

/-- Two requests that hold a block are two holders. -/
theorem count_add_count_le (hx : x ≠ r) :
    (m.reqBlocks x).count b + (m.reqBlocks r).count b ≤ m.holders b := by
  rw [← total_erase_count b]
  refine Nat.add_le_add_right ?_ _
  unfold reqBlocks
  cases hget : m.reqToBlocks.get? x with
  | none => exact Nat.zero_le _
  | some ids =>
    refine Dict.le_total (k := x) (List.count b) ?_
    rw [Dict.get?_erase, if_neg (Ne.symm hx), hget]
    rfl

/-- A request that holds a block is a holder. -/
theorem count_le_holders : (m.reqBlocks r).count b ≤ m.holders b := by
  have h := total_erase_count (m := m) (r := r) b
  omega

/-- A counted holder is a request. -/
theorem exists_holder (h : 0 < m.holders b) : ∃ r, b ∈ m.reqBlocks r := by
  obtain ⟨n, hn, hpos⟩ := List.exists_mem_ne_zero_of_sum_ne_zero (Nat.ne_of_gt h)
  obtain ⟨ids, hids, rfl⟩ := List.mem_map.mp hn
  obtain ⟨e, he, rfl⟩ := List.mem_map.mp hids
  refine ⟨e.1, ?_⟩
  rw [reqBlocks, Dict.get?_of_mem_entries he, Option.getD_some]
  exact List.count_pos_iff.mp (Nat.pos_of_ne_zero hpos)

/-- A block behind the cached ones of a request is held by no other. -/
theorem Kept.notMem_of_tail (h : Kept cfg enableCaching m) (hx : x ≠ r)
    (hb : b ∈ (m.reqBlocks x).drop (m.numCached x)) : b ∉ m.reqBlocks r := by
  intro hr
  have hle := count_add_count_le (m := m) (b := b) hx
  have hone := (h.tail x b hb).2
  have hpos := List.count_pos_iff.mpr hr
  have hpos' := List.count_pos_iff.mpr (List.mem_of_mem_drop hb)
  omega

/-! ### What each operation keeps -/

/-- The manager before its first request. -/
theorem init_kept : Kept cfg enableCaching (init cfg enableCaching) :=
  ⟨BlockPool.init_sound cfg.numBlocks enableCaching, rfl, rfl, rfl, rfl,
    fun _ _ hb => absurd hb List.not_mem_nil, fun _ => List.nodup_nil,
    fun _ _ hb => absurd hb List.not_mem_nil, fun _ hsome => absurd hsome Bool.false_ne_true⟩

/-- The blocks of a request are exchanged, in the manager and in its pool. The other requests
keep theirs, and those that they hold alone are neither given away nor cached. -/
theorem Kept.exchange (h : Kept cfg enableCaching m) {pool : BlockPool} {ids new : List BlockId}
    {numCachedBlock : Dict ReqId ℕ}
    (hpool : pool.Sound cfg.numBlocks fun b => m.holders b + ids.count b - (m.reqBlocks r).count b)
    (hcaching : pool.enableCaching = m.blockPool.enableCaching)
    (hreal : ∀ b ∈ ids, b ≠ nullBlock ∧ b < cfg.numBlocks) (hnodup : ids.Nodup)
    (hothers : ∀ x, x ≠ r → numCachedBlock.get? x = m.numCachedBlock.get? x)
    (hkeep : ∀ x, x ≠ r → ∀ b ∈ (m.reqBlocks x).drop (m.numCached x),
      b ∉ ids ∧ (pool.block b).blockHash = none)
    (htail : ∀ b ∈ ids.drop ((numCachedBlock.get? r).getD 0), (pool.block b).blockHash = none ∧
      m.holders b + ids.count b - (m.reqBlocks r).count b = 1) :
    Kept cfg enableCaching { m with
      blockPool := pool
      reqToBlocks := m.reqToBlocks.set r ids
      numCachedBlock := numCachedBlock
      newBlockIds := new } := by
  have hholders : ∀ b, (m.reqToBlocks.set r ids).total (List.count b) =
      m.holders b + ids.count b - (m.reqBlocks r).count b := by
    intro b
    have hset := total_set_count (m := m) (r := r) ids b
    omega
  have hself : (reqBlocks { m with
      blockPool := pool
      reqToBlocks := m.reqToBlocks.set r ids
      numCachedBlock := numCachedBlock
      newBlockIds := new } r) = ids := by
    simp [reqBlocks]
  refine ⟨hpool.congr fun b => (hholders b).symm, h.enabled, hcaching.trans h.poolEnabled,
    h.blockSize, h.maxModelLen, fun x => ?_, fun x => ?_, fun x => ?_, fun x hsome => ?_⟩
  all_goals by_cases hx : x = r
  · rw [hx, hself]
    exact hreal
  · rw [reqBlocks_set hx]
    exact h.real x
  · rw [hx, hself]
    exact hnodup
  · rw [reqBlocks_set hx]
    exact h.nodup x
  · rw [hx, hself]
    intro b hb
    exact ⟨(htail b hb).1, (hholders b).trans (htail b hb).2⟩
  · rw [reqBlocks_set hx]
    intro b hb
    have hold : b ∈ (m.reqBlocks x).drop (m.numCached x) := by
      rw [numCached, ← hothers x hx]
      exact hb
    obtain ⟨hids, hhash⟩ := hkeep x hx b hold
    refine ⟨hhash, (hholders b).trans ?_⟩
    rw [List.count_eq_zero.mpr hids, List.count_eq_zero.mpr (h.notMem_of_tail hx hold),
      (h.tail x b hold).2]
  · rw [hx]
    exact (congrArg Option.isSome (Dict.get?_set_self m.reqToBlocks r ids)).trans rfl
  · refine (congrArg Option.isSome (Dict.get?_set_ne m.reqToBlocks ids (Ne.symm hx))).trans ?_
    refine h.known x ?_
    rw [← hothers x hx]
    exact hsome

/-- A request gives its blocks back. -/
theorem Kept.free (h : Kept cfg enableCaching m) (r : ReqId) :
    Kept cfg enableCaching (m.free r) := by
  have hholders : ∀ b, (m.free r).holders b = m.holders b - (m.reqBlocks r).count b := by
    intro b
    have herase := total_erase_count (m := m) (r := r) b
    exact Nat.eq_sub_of_add_eq herase
  have hgone : (m.free r).reqBlocks r = [] := by
    simp [reqBlocks, FullAttentionKV.free, Dict.get?_erase]
  have hpool := BlockPool.freeBlocks_sound h.pool (List.nodup_reverse.mpr (h.nodup r))
    (fun b hb => h.real r b (List.mem_reverse.mp hb)) fun b hb =>
      (List.count_pos_iff.mpr (List.mem_reverse.mp hb)).trans_le count_le_holders
  refine ⟨hpool.congr fun b => ?_, h.enabled, ?_, h.blockSize, h.maxModelLen, fun x => ?_,
    fun x => ?_, fun x => ?_, fun x hsome => ?_⟩
  · rw [hholders, List.count_reverse]
  · exact (BlockPool.releaseBlocks_rest _).2.1.trans h.poolEnabled
  all_goals by_cases hx : x = r
  · rw [hx, hgone]
    exact fun b hb => absurd hb List.not_mem_nil
  · rw [reqBlocks_free hx]
    exact h.real x
  · rw [hx, hgone]
    exact List.nodup_nil
  · rw [reqBlocks_free hx]
    exact h.nodup x
  · rw [hx, hgone, List.drop_nil]
    exact fun b hb => absurd hb List.not_mem_nil
  · have hcached : (m.free r).numCached x = m.numCached x := by
      simp [numCached, FullAttentionKV.free, Dict.get?_erase, Ne.symm hx]
    rw [reqBlocks_free hx, hcached]
    intro b hb
    refine ⟨((BlockPool.releaseBlocks_rest _).2.2.2.2 b).trans (h.tail x b hb).1, ?_⟩
    rw [hholders, List.count_eq_zero.mpr (h.notMem_of_tail hx hb), (h.tail x b hb).2]
  · exfalso
    subst hx
    simp [FullAttentionKV.free, Dict.get?_erase] at hsome
  · have hknown := h.known x
    simp only [FullAttentionKV.free, Dict.get?_erase, if_neg (Ne.symm hx)] at hsome ⊢
    exact hknown hsome

/-- The computed blocks of a request are touched, and the request begins with them. -/
theorem allocateNewComputedBlocks_kept (h : Kept cfg enableCaching m) {ids : List BlockId}
    {numLocal : ℤ} (hids : m.InCache ids)
    (ha : m.allocateNewComputedBlocks r ids numLocal 0 = .ok m') :
    Kept cfg enableCaching m' := by
  unfold allocateNewComputedBlocks at ha
  split at ha
  · split at ha
    · cases ha
    · cases ha
      exact h
  · split at ha
    · cases ha
    · rename_i hnone hempty
      split at ha
      · cases ha
      · rename_i hcaching
        rw [if_neg (lt_irrefl 0)] at ha
        cases ha
        have hnil : m.reqBlocks r = [] := not_not.mp hempty
        have hreal : ∀ b ∈ ids, b ≠ nullBlock ∧ b < cfg.numBlocks := by
          intro b hb
          obtain ⟨hash, hhash⟩ := Option.ne_none_iff_exists'.mp (hids.2 b hb)
          exact h.pool.real hash b ((h.pool.blockHash b hash).mp hhash)
        have hpool : (if m.enableCaching then m.blockPool.touch ids else m.blockPool) =
            m.blockPool.touch ids := by
          split
          · rfl
          · rename_i hoff
            have : ids = [] := by
              by_contra hne
              exact hcaching ⟨hoff, hne⟩
            rw [this]
            rfl
        rw [hpool]
        refine h.exchange ((BlockPool.touch_sound h.pool hreal).congr fun b => ?_)
          (BlockPool.touch_enableCaching _) hreal hids.1
          (fun x hx => Dict.get?_set_ne _ _ (Ne.symm hx)) (fun x hx b hb => ?_) fun b hb => ?_
        · rw [hnil, List.count_nil, Nat.sub_zero]
        · rw [BlockPool.touch_blockHash]
          exact ⟨fun hmem => hids.2 b hmem (h.tail x b hb).1, (h.tail x b hb).1⟩
        · rw [Dict.get?_set_self, Option.getD_some, List.drop_length] at hb
          exact absurd hb List.not_mem_nil

/-- New blocks come behind those of the request, as many as the tokens need and the pool has. -/
theorem allocateNewBlocks_spec (h : Kept cfg enableCaching m) (numTokens : ℤ)
    (hfree : m.numRequiredBlocks numTokens - (m.reqBlocks r).length ≤ m.blockPool.getNumFreeBlocks) :
    ∃ new m', m.allocateNewBlocks r numTokens = .ok (new, m') ∧ Kept cfg enableCaching m' ∧
      ((m'.reqBlocks r).length : ℤ) =
        max ((m.reqBlocks r).length : ℤ) (m.numRequiredBlocks numTokens) ∧
      (m'.reqToBlocks.get? r).isSome ∧
      ∀ x, x ≠ r → m'.reqToBlocks.get? x = m.reqToBlocks.get? x := by
  unfold allocateNewBlocks
  dsimp only
  by_cases hneed : m.numRequiredBlocks numTokens - ((m.reqBlocks r).length : ℤ) ≤ 0
  · rw [if_pos hneed]
    refine ⟨_, _, rfl, ?_, ?_, ?_, fun x hx => Dict.get?_set_ne _ _ (Ne.symm hx)⟩
    · refine h.exchange (h.pool.congr fun b => (Nat.add_sub_cancel ..).symm) rfl (h.real r)
        (h.nodup r) (fun _ _ => rfl) (fun x hx b hb => ⟨h.notMem_of_tail hx hb, (h.tail x b hb).1⟩)
        fun b hb => ⟨(h.tail r b hb).1, ?_⟩
      rw [Nat.add_sub_cancel]
      exact (h.tail r b hb).2
    · rw [max_eq_left (by omega)]
      simp [reqBlocks]
    · exact (congrArg Option.isSome (Dict.get?_set_self ..)).trans rfl
  · rw [if_neg hneed]
    obtain ⟨pool, hget, -, hcaching, hpool, hhash⟩ := BlockPool.getNewBlocks_spec
      (k := (m.numRequiredBlocks numTokens - ((m.reqBlocks r).length : ℤ)).toNat) h.pool (by omega)
    generalize hnew : m.blockPool.freeBlockQueue.take
      (m.numRequiredBlocks numTokens - ((m.reqBlocks r).length : ℤ)).toNat = new at hget hpool hhash
    have hlength : new.length =
        (m.numRequiredBlocks numTokens - ((m.reqBlocks r).length : ℤ)).toNat := by
      rw [← hnew, List.length_take]
      refine min_eq_left ?_
      change _ ≤ m.blockPool.getNumFreeBlocks
      omega
    have hunheld : ∀ b ∈ new, b ≠ nullBlock ∧ b < cfg.numBlocks ∧ m.holders b = 0 := by
      intro b hb
      rw [← hnew] at hb
      exact (h.pool.mem_free b).mp (List.mem_of_mem_take hb)
    have hnotheld : ∀ x, ∀ b ∈ new, b ∉ m.reqBlocks x := by
      intro x b hb hmem
      have hle := count_le_holders (m := m) (r := x) (b := b)
      have hpos := List.count_pos_iff.mpr hmem
      have hzero := (hunheld b hb).2.2
      omega
    have hnodup : new.Nodup := hnew ▸ h.pool.free_nodup.sublist (List.take_sublist _ _)
    refine ⟨new, _, bind_eq_ok.mpr ⟨_, hget, rfl⟩, ?_, ?_, ?_,
      fun x hx => Dict.get?_set_ne _ _ (Ne.symm hx)⟩
    · refine h.exchange (hpool.congr fun b => ?_) hcaching (fun b hb => ?_) ?_ (fun _ _ => rfl)
        (fun x hx b hb => ?_) fun b hb => ?_
      · change m.holders b + new.count b =
          m.holders b + (m.reqBlocks r ++ new).count b - (m.reqBlocks r).count b
        rw [List.count_append]
        omega
      · rcases List.mem_append.mp hb with hold | hb
        · exact h.real r b hold
        · exact ⟨(hunheld b hb).1, (hunheld b hb).2.1⟩
      · exact List.nodup_append.mpr ⟨h.nodup r, hnodup, fun x hx y hy hxy =>
          hnotheld r y hy (hxy ▸ hx)⟩
      · have hnotnew : b ∉ new := fun hin => hnotheld x b hin (List.mem_of_mem_drop hb)
        refine ⟨fun hin => ?_, ?_⟩
        · exact (List.mem_append.mp hin).elim (h.notMem_of_tail hx hb) hnotnew
        · rw [hhash, if_neg hnotnew]
          exact (h.tail x b hb).1
      · rw [hhash, List.count_append]
        by_cases hin : b ∈ new
        · rw [if_pos hin, List.count_eq_zero.mpr (hnotheld r b hin),
            List.count_eq_one_of_mem hnodup hin, (hunheld b hin).2.2]
          exact ⟨rfl, rfl⟩
        · rw [List.drop_append, List.mem_append] at hb
          have hold := hb.resolve_right fun hb => hin (List.mem_of_mem_drop hb)
          rw [if_neg hin, List.count_eq_zero.mpr hin, Nat.add_zero, Nat.add_sub_cancel]
          exact h.tail r b hold
    · rw [max_eq_right (by omega)]
      have hids : (reqBlocks { m with
          blockPool := pool
          reqToBlocks := m.reqToBlocks.set r (m.reqBlocks r ++ new)
          newBlockIds := m.newBlockIds ++ new } r) = m.reqBlocks r ++ new := by
        simp [reqBlocks]
      rw [hids, List.length_append, hlength]
      push_cast
      omega
    · exact (congrArg Option.isSome (Dict.get?_set_self ..)).trans rfl

/-- New blocks are allocated only when the pool has them. -/
theorem numFree_of_allocateNewBlocks {numTokens : ℤ} {new : List BlockId}
    (ha : m.allocateNewBlocks r numTokens = .ok (new, m')) :
    m.numRequiredBlocks numTokens - (m.reqBlocks r).length ≤ m.blockPool.getNumFreeBlocks := by
  unfold allocateNewBlocks at ha
  dsimp only at ha
  split at ha
  · omega
  · obtain ⟨⟨blocks, pool⟩, hget, -⟩ := bind_eq_ok.mp ha
    unfold BlockPool.getNewBlocks at hget
    split at hget
    · cases hget
    · omega

/-- The full blocks of a request with enough hashes are cached. -/
theorem cacheBlocks_spec {q : Request} (numTokens : ℤ) (h : Kept cfg enableCaching m)
    (hknown : (m.reqToBlocks.get? q.requestId).isSome)
    (hhashes : enableCaching = true → m.numCached q.requestId < (numTokens / m.blockSize).toNat →
      (numTokens / m.blockSize).toNat ≤ q.blockHashes.length) :
    ∃ m', m.cacheBlocks q numTokens = .ok m' ∧ Kept cfg enableCaching m' ∧
      m'.reqToBlocks = m.reqToBlocks := by
  unfold cacheBlocks
  split
  · rename_i hcaching
    rw [h.enabled] at hcaching
    unfold cacheBlocksUpTo
    dsimp only
    split
    · exact ⟨m, rfl, h, rfl⟩
    · rename_i hfull
      rw [Nat.not_le] at hfull
      obtain ⟨pool, hget, hpool, hrec⟩ := BlockPool.cacheFullBlocks_spec
        (numTokens / m.blockSize).toNat h.pool (h.poolEnabled.trans hcaching)
        (hhashes hcaching hfull) (h.nodup q.requestId) (h.real q.requestId)
        fun b hb => (h.tail q.requestId b hb).1
      generalize (numTokens / (m.blockSize : ℤ)).toNat = numFull at hfull hget hrec ⊢
      refine ⟨_, bind_eq_ok.mpr ⟨pool, hget, rfl⟩, ⟨hpool, h.enabled,
        hrec.caching.trans h.poolEnabled, h.blockSize, h.maxModelLen, h.real, h.nodup,
        fun x b hb => ?_, fun x hsome => ?_⟩, rfl⟩
      · change b ∈ (m.reqBlocks x).drop (((m.numCachedBlock.set q.requestId numFull).get? x).getD 0)
          at hb
        suffices hold : b ∈ (m.reqBlocks x).drop (m.numCached x) ∧
            b ∉ ((m.reqBlocks q.requestId).take numFull).drop (m.numCached q.requestId) by
          refine ⟨?_, (h.tail x b hold.1).2⟩
          rw [hrec.blockHash b hold.2]
          exact (h.tail x b hold.1).1
        by_cases hx : x = q.requestId
        · subst hx
          rw [Dict.get?_set_self, Option.getD_some] at hb
          refine ⟨List.drop_subset_drop_left _ hfull.le hb, fun htake => ?_⟩
          have hall := h.nodup q.requestId
          rw [← List.take_append_drop numFull (m.reqBlocks q.requestId)] at hall
          exact (List.nodup_append.mp hall).2.2 b (List.mem_of_mem_drop htake) b hb rfl
        · rw [Dict.get?_set_ne _ _ (Ne.symm hx)] at hb
          exact ⟨hb, fun htake => h.notMem_of_tail hx hb
            (List.mem_of_mem_take (List.mem_of_mem_drop htake))⟩
      · by_cases hx : x = q.requestId
        · exact hx ▸ hknown
        · refine h.known x ?_
          rw [← hsome]
          exact congrArg Option.isSome (Dict.get?_set_ne _ _ (Ne.symm hx)).symm
  · exact ⟨m, rfl, h, rfl⟩

/-- Blocks are cached only when the request has their hashes. -/
theorem hashes_of_cacheBlocks (h : Kept cfg enableCaching m) {q : Request} {numTokens : ℤ}
    (hc : m.cacheBlocks q numTokens = .ok m') (hcaching : enableCaching = true)
    (hfull : m.numCached q.requestId < (numTokens / m.blockSize).toNat) :
    (numTokens / m.blockSize).toNat ≤ q.blockHashes.length := by
  unfold numCached at hfull
  unfold cacheBlocks cacheBlocksUpTo at hc
  rw [if_pos (h.enabled.trans hcaching)] at hc
  dsimp only at hc
  rw [if_neg (Nat.not_le.mpr hfull)] at hc
  obtain ⟨pool, hget, -⟩ := bind_eq_ok.mp hc
  unfold BlockPool.cacheFullBlocks at hget
  rw [if_neg (Nat.not_le.mpr hfull)] at hget
  by_contra hlt
  rw [if_pos (Nat.not_le.mp hlt)] at hget
  cases hget

/-- The tokens of a request after the step, without the lookahead. -/
def mainTokens (m : FullAttentionKV) (q : Request) (args : AllocateSlotsArgs) : ℤ :=
  min (q.numComputedTokens + args.numNewComputedTokens + args.numExternalComputedTokens)
    m.maxModelLen + args.numNewTokens

/-- The tokens of a request that get slots. -/
def slotTokens (m : FullAttentionKV) (q : Request) (args : AllocateSlotsArgs) : ℤ :=
  min (m.mainTokens q args + args.numLookaheadTokens) m.maxModelLen

/-- The slots are refused, and nothing changes, or the computed blocks come first, the new ones
next, and the cache is told last. -/
theorem allocateSlots_cases {q : Request} {args : AllocateSlotsArgs}
    {blocks : Option KVCacheBlocks} (hext : args.numExternalComputedTokens = 0)
    (ha : m.allocateSlots q args = .ok (blocks, m')) :
    (blocks = none ∧ m' = m ∧ m.fits q args (hitBlocks args) (m.slotTokens q args) = .ok false) ∨
    ∃ m₁ new m₂, m.fits q args (hitBlocks args) (m.slotTokens q args) = .ok true ∧
      (hitBlocks args = [] ∧ m₁ = m ∨ hitBlocks args ≠ [] ∧
        m.allocateNewComputedBlocks q.requestId (hitBlocks args)
          (q.numComputedTokens + args.numNewComputedTokens) 0 = .ok m₁) ∧
      m₁.allocateNewBlocks q.requestId (m.slotTokens q args) = .ok (new, m₂) ∧
      (args.delayCacheBlocks = true ∧ m' = m₂ ∨
        m₂.cacheBlocks q (min (m.mainTokens q args) q.numTokens) = .ok m') ∧
      blocks = some [new] := by
  have hlast : ∀ {m₂ : FullAttentionKV} {new : List BlockId},
      (if args.delayCacheBlocks then
        (Except.ok m₂ >>= fun m => Except.ok (some [new], m))
      else m₂.cacheBlocks q (min (m.mainTokens q args) q.numTokens) >>= fun m =>
        Except.ok (some [new], m)) = .ok (blocks, m') →
      (args.delayCacheBlocks = true ∧ m' = m₂ ∨
        m₂.cacheBlocks q (min (m.mainTokens q args) q.numTokens) = .ok m') ∧
      blocks = some [new] := by
    intro m₂ new h
    split at h
    · rename_i hdelay
      cases h
      exact ⟨.inl ⟨hdelay, rfl⟩, rfl⟩
    · obtain ⟨m₃, h₃, h⟩ := bind_eq_ok.mp h
      cases h
      exact ⟨.inr h₃, rfl⟩
  unfold allocateSlots at ha
  split at ha
  · cases ha
  · dsimp only at ha
    obtain ⟨fit, hfit, ha⟩ := bind_eq_ok.mp ha
    split at ha
    · rename_i htrue
      subst htrue
      split at ha
      · rename_i hhits
        obtain ⟨m₁, h₁, ha⟩ := bind_eq_ok.mp ha
        obtain ⟨⟨new, m₂⟩, h₂, ha⟩ := bind_eq_ok.mp ha
        obtain ⟨h₃, hblocks⟩ := hlast ha
        rw [hext] at h₁ hhits
        exact .inr ⟨m₁, new, m₂, hfit, .inr ⟨hhits.resolve_right (lt_irrefl 0), h₁⟩, h₂, h₃,
          hblocks⟩
      · rename_i hhits
        obtain ⟨m₁, h₁, ha⟩ := bind_eq_ok.mp ha
        cases h₁
        obtain ⟨⟨new, m₂⟩, h₂, ha⟩ := bind_eq_ok.mp ha
        obtain ⟨h₃, hblocks⟩ := hlast ha
        exact .inr ⟨m, new, m₂, hfit, .inl ⟨not_not.mp fun hne => hhits (.inl hne), rfl⟩, h₂, h₃,
          hblocks⟩
    · rename_i hfalse
      cases ha
      exact .inl ⟨rfl, rfl, (Bool.eq_false_iff.mpr hfalse) ▸ hfit⟩

/-- Slots are allocated without a change to what the manager keeps. -/
theorem allocateSlots_kept (h : Kept cfg enableCaching m) {q : Request} {args : AllocateSlotsArgs}
    {blocks : Option KVCacheBlocks} (hhits : m.InCache (hitBlocks args))
    (hext : args.numExternalComputedTokens = 0)
    (ha : m.allocateSlots q args = .ok (blocks, m')) : Kept cfg enableCaching m' := by
  obtain ⟨-, rfl, -⟩ | ⟨m₁, new, m₂, -, h₁, h₂, h₃, -⟩ := allocateSlots_cases hext ha
  · exact h
  · have hkept₁ : Kept cfg enableCaching m₁ := by
      rcases h₁ with ⟨-, rfl⟩ | ⟨-, h₁⟩
      · exact h
      · exact allocateNewComputedBlocks_kept h hhits h₁
    obtain ⟨new', m₂', hnew, hkept₂, -, hknown, -⟩ := allocateNewBlocks_spec hkept₁
      (m.slotTokens q args) (numFree_of_allocateNewBlocks h₂)
    obtain ⟨rfl, rfl⟩ := Prod.mk.inj (Except.ok.inj (h₂.symm.trans hnew))
    rcases h₃ with ⟨-, rfl⟩ | h₃
    · exact hkept₂
    · obtain ⟨m₃, hcache, hkept₃, -⟩ := cacheBlocks_spec _ hkept₂ hknown
        (hashes_of_cacheBlocks hkept₂ h₃)
      cases h₃.symm.trans hcache
      exact hkept₃

/-- The pool counts the holders of the blocks in every state of the manager. -/
theorem Reached.kept (h : Reached cfg enableCaching m) : Kept cfg enableCaching m := by
  induction h with
  | init => exact init_kept
  | allocateSlots _ hhits hext ha ih => exact allocateSlots_kept ih hhits hext ha
  | free r _ ih => exact ih.free r
  | resetPrefixCache _ ih =>
    exact ⟨BlockPool.resetPrefixCache_sound ih.pool, ih.enabled,
      BlockPool.resetPrefixCache_enableCaching.trans ih.poolEnabled, ih.blockSize, ih.maxModelLen,
      ih.real, ih.nodup, fun x b hb => ⟨BlockPool.resetPrefixCache_blockHash (ih.tail x b hb).1,
        (ih.tail x b hb).2⟩, ih.known⟩
  | takeNewBlockIds _ ih =>
    exact ⟨ih.pool, ih.enabled, ih.poolEnabled, ih.blockSize, ih.maxModelLen, ih.real, ih.nodup,
      ih.tail, ih.known⟩

end RpsServe.FullAttentionKV
