import RpsServe.KVCache.BlockPool
import RpsServe.Scheduler.State

/-!
# The KV cache manager of a model with full attention

One KV cache group of full attention layers: `KVCacheManager` over the unitary coordinator
and `FullAttentionManager`. Such a manager never skips a block, so what the other attention
types do to blocks outside of their window does not occur.
-/

namespace RpsServe

/-- `KVCacheManager` with its coordinator and its one `FullAttentionManager`. -/
structure FullAttentionKV where
  blockPool : BlockPool
  blockSize : ℕ
  maxModelLen : ℕ
  enableCaching : Bool
  useEagle : Bool
  reqToBlocks : Dict ReqId (List BlockId) := .empty
  numCachedBlock : Dict ReqId ℕ := .empty
  newBlockIds : List BlockId := []
deriving DecidableEq

namespace FullAttentionKV

/-- The manager before its first request. -/
def init (cfg : Config) (enableCaching : Bool) : FullAttentionKV where
  blockPool := BlockPool.init cfg.numBlocks enableCaching
  blockSize := cfg.blockSize
  maxModelLen := cfg.maxModelLen
  enableCaching := enableCaching
  useEagle := cfg.useEagle

/-- `req_to_blocks.get(request_id, ())`. -/
def reqBlocks (m : FullAttentionKV) (r : ReqId) : List BlockId := (m.reqToBlocks.get? r).getD []

/-- `cdiv(num_tokens, block_size)`. -/
def numRequiredBlocks (m : FullAttentionKV) (numTokens : ℤ) : ℤ :=
  (numTokens + m.blockSize - 1) / m.blockSize

/-- The blocks of a chain of hashes up to the first miss. -/
def cachedChain (p : BlockPool) : List BlockHash → List BlockId
  | [] => []
  | h :: rest =>
    match p.getCachedBlock h with
    | some b => b :: cachedChain p rest
    | none => []

/-- `find_longest_cache_hit`. -/
def findLongestCacheHit (m : FullAttentionKV) (blockHashes : List BlockHash) (maxLength : ℕ) :
    List BlockId :=
  let computed := cachedChain m.blockPool (blockHashes.take (maxLength / m.blockSize))
  if m.useEagle then computed.dropLast else computed

/-- `get_computed_blocks`. -/
def getComputedBlocks (m : FullAttentionKV) (q : Request) : KVCacheBlocks × ℤ :=
  if ¬ m.enableCaching ∨ q.skipReadingPrefixCache then ([[]], 0)
  else
    let hit := m.findLongestCacheHit q.blockHashes (q.numTokens - 1)
    ([hit], hit.length * m.blockSize)

/-- `get_num_blocks_to_allocate`. -/
def getNumBlocksToAllocate (m : FullAttentionKV) (r : ReqId) (numTokens : ℤ)
    (newComputedBlocks : List BlockId) : Except SchedError ℤ :=
  let numRequiredBlocks := m.numRequiredBlocks numTokens
  let numReqBlocks := (m.reqBlocks r).length
  if (m.numCachedBlock.get? r).isSome then
    if newComputedBlocks ≠ [] then .error .kvCacheError
    else .ok (max (numRequiredBlocks - numReqBlocks) 0)
  else
    let numNewBlocks := max (numRequiredBlocks - (newComputedBlocks.length + numReqBlocks)) 0
    let numEvictableBlocks := newComputedBlocks.countP fun b =>
      (m.blockPool.block b).refCnt = 0 ∧ b ≠ BlockPool.nullBlock
    .ok (numNewBlocks + numEvictableBlocks)

/-- `allocate_new_computed_blocks`. -/
def allocateNewComputedBlocks (m : FullAttentionKV) (r : ReqId) (newComputedBlocks : List BlockId)
    (numLocalComputedTokens numExternalComputedTokens : ℤ) : Except SchedError FullAttentionKV :=
  if (m.numCachedBlock.get? r).isSome then
    if newComputedBlocks ≠ [] then .error .kvCacheError else .ok m
  else if m.reqBlocks r ≠ [] then .error .kvCacheError
  else if ¬ m.enableCaching ∧ newComputedBlocks ≠ [] then .error .kvCacheError
  else
    let m := { m with
      blockPool := if m.enableCaching then m.blockPool.touch newComputedBlocks else m.blockPool
      reqToBlocks := m.reqToBlocks.set r newComputedBlocks
      numCachedBlock := m.numCachedBlock.set r newComputedBlocks.length }
    if 0 < numExternalComputedTokens then do
      let (allocated, pool) ← m.blockPool.getNewBlocks
        (m.numRequiredBlocks (numLocalComputedTokens + numExternalComputedTokens) -
          newComputedBlocks.length).toNat
      .ok { m with
        blockPool := pool
        reqToBlocks := m.reqToBlocks.set r (newComputedBlocks ++ allocated)
        newBlockIds := m.newBlockIds ++ allocated }
    else .ok m

/-- `allocate_new_blocks`. -/
def allocateNewBlocks (m : FullAttentionKV) (r : ReqId) (numTokens : ℤ) :
    Except SchedError (List BlockId × FullAttentionKV) :=
  let reqBlocks := m.reqBlocks r
  let numNewBlocks := m.numRequiredBlocks numTokens - reqBlocks.length
  if numNewBlocks ≤ 0 then .ok ([], { m with reqToBlocks := m.reqToBlocks.set r reqBlocks })
  else do
    let (newBlocks, pool) ← m.blockPool.getNewBlocks numNewBlocks.toNat
    .ok (newBlocks, { m with
      blockPool := pool
      reqToBlocks := m.reqToBlocks.set r (reqBlocks ++ newBlocks)
      newBlockIds := m.newBlockIds ++ newBlocks })

/-- `SingleTypeKVCacheManager.cache_blocks`. -/
def cacheBlocksUpTo (m : FullAttentionKV) (q : Request) (numTokens : ℤ) :
    Except SchedError FullAttentionKV :=
  let numCachedBlocks := (m.numCachedBlock.get? q.requestId).getD 0
  let numFullBlocks := (numTokens / m.blockSize).toNat
  if numFullBlocks ≤ numCachedBlocks then .ok m
  else do
    let pool ← m.blockPool.cacheFullBlocks q (m.reqBlocks q.requestId) numCachedBlocks numFullBlocks
    .ok { m with
      blockPool := pool
      numCachedBlock := m.numCachedBlock.set q.requestId numFullBlocks }

/-- `cache_blocks`. -/
def cacheBlocks (m : FullAttentionKV) (q : Request) (numComputedTokens : ℤ) :
    Except SchedError FullAttentionKV :=
  if m.enableCaching then m.cacheBlocksUpTo q numComputedTokens else .ok m

/-- The two tests of `allocate_slots` against the free blocks: the whole sequence, when that is
asked for, and the slots of the new tokens. -/
def fits (m : FullAttentionKV) (q : Request) (args : AllocateSlotsArgs)
    (newComputedBlocks : List BlockId) (numTokensNeedSlot : ℤ) : Except SchedError Bool := do
  let fullNumTokens : ℤ := min q.numTokens m.maxModelLen
  let numFull ← if args.fullSequenceMustFit then
    m.getNumBlocksToAllocate q.requestId fullNumTokens newComputedBlocks else .ok 0
  if m.blockPool.getNumFreeBlocks < numFull then .ok false
  else do
    let numBlocks ← m.getNumBlocksToAllocate q.requestId numTokensNeedSlot newComputedBlocks
    .ok (numBlocks ≤ m.blockPool.getNumFreeBlocks)

/-- `allocate_slots`: the new blocks, or nothing when the free blocks do not suffice. -/
def allocateSlots (m : FullAttentionKV) (q : Request) (args : AllocateSlotsArgs) :
    Except SchedError (Option KVCacheBlocks × FullAttentionKV) :=
  if args.numNewTokens = 0 ∧ args.numExternalComputedTokens = 0 then .error .valueError
  else do
    let newComputedBlocks := (args.newComputedBlocks.getD [[]]).flatten
    let numLocalComputedTokens := q.numComputedTokens + args.numNewComputedTokens
    let totalComputedTokens :=
      min (numLocalComputedTokens + args.numExternalComputedTokens) m.maxModelLen
    let numTokensMainModel := totalComputedTokens + args.numNewTokens
    let numTokensNeedSlot := min (numTokensMainModel + args.numLookaheadTokens) m.maxModelLen
    if ← m.fits q args newComputedBlocks numTokensNeedSlot then do
      let m ← if newComputedBlocks ≠ [] ∨ 0 < args.numExternalComputedTokens then
        m.allocateNewComputedBlocks q.requestId newComputedBlocks numLocalComputedTokens
          args.numExternalComputedTokens else .ok m
      let (newBlocks, m) ← m.allocateNewBlocks q.requestId numTokensNeedSlot
      let m ← if args.delayCacheBlocks then .ok m
        else m.cacheBlocks q (min numTokensMainModel q.numTokens)
      .ok (some [newBlocks], m)
    else .ok (none, m)

/-- `free`: the tail blocks are evicted first. -/
def free (m : FullAttentionKV) (r : ReqId) : FullAttentionKV :=
  { m with
    blockPool := m.blockPool.freeBlocks (m.reqBlocks r).reverse
    reqToBlocks := m.reqToBlocks.erase r
    numCachedBlock := m.numCachedBlock.erase r }

instance : KVCacheManager FullAttentionKV where
  emptyKvCacheBlocks _ := [[]]
  newStepStarts m := m
  getComputedBlocks := getComputedBlocks
  allocateSlots := allocateSlots
  free := free
  getBlocks m r := [m.reqBlocks r]
  cacheBlocks := cacheBlocks
  resetPrefixCache m :=
    let (ok, pool) := m.blockPool.resetPrefixCache
    (ok, { m with blockPool := pool })
  evictBlocks m blockIds := { m with blockPool := m.blockPool.evictBlocks blockIds }
  removeSkippedBlocks m _ _ := m
  takeNewBlockIds m := (m.newBlockIds, { m with newBlockIds := [] })

instance : LawfulKVCacheManager FullAttentionKV where
  getBlocks_newStepStarts _ _ := rfl
  getBlocks_takeNewBlockIds _ _ := rfl

/-! ### What belongs to one request -/

variable {m m' : FullAttentionKV} {r x : ReqId} {q : Request}

/-- A request that is written leaves the tables of the others as they are. -/
theorem reqBlocks_set {ids : List BlockId} {p : BlockPool} {n : Dict ReqId ℕ} {new : List BlockId}
    (hx : x ≠ r) : reqBlocks { m with
      blockPool := p
      reqToBlocks := m.reqToBlocks.set r ids
      numCachedBlock := n
      newBlockIds := new } x = m.reqBlocks x := by
  simp [reqBlocks, Dict.get?_set_ne _ _ (Ne.symm hx)]

/-- Freeing a request leaves the tables of the others as they are. -/
theorem reqBlocks_free (hx : x ≠ r) : (m.free r).reqBlocks x = m.reqBlocks x := by
  simp [reqBlocks, free, Dict.get?_erase, Ne.symm hx]

/-- Giving a request its computed blocks leaves the tables of the others as they are. -/
theorem allocateNewComputedBlocks_others {ids : List BlockId} {local_ external : ℤ}
    (h : m.allocateNewComputedBlocks r ids local_ external = .ok m') (hx : x ≠ r) :
    m'.reqBlocks x = m.reqBlocks x := by
  unfold allocateNewComputedBlocks at h
  split at h
  · split at h
    · cases h
    · cases h
      rfl
  · split at h
    · cases h
    · split at h
      · cases h
      · dsimp only at h
        split at h
        · obtain ⟨⟨allocated, pool⟩, -, h⟩ := bind_eq_ok.mp h
          cases h
          simp [reqBlocks, Dict.get?_set_ne _ _ (Ne.symm hx)]
        · cases h
          exact reqBlocks_set hx

/-- Giving a request new blocks leaves the tables of the others as they are. -/
theorem allocateNewBlocks_others {n : ℤ} {new : List BlockId}
    (h : m.allocateNewBlocks r n = .ok (new, m')) (hx : x ≠ r) :
    m'.reqBlocks x = m.reqBlocks x := by
  unfold allocateNewBlocks at h
  dsimp only at h
  split at h
  · cases h
    exact reqBlocks_set hx
  · obtain ⟨⟨blocks, pool⟩, -, h⟩ := bind_eq_ok.mp h
    cases h
    exact reqBlocks_set hx

/-- Caching blocks leaves the tables as they are. -/
theorem cacheBlocks_reqBlocks {n : ℤ} (h : m.cacheBlocks q n = .ok m') :
    m'.reqBlocks x = m.reqBlocks x := by
  unfold cacheBlocks at h
  split at h
  · unfold cacheBlocksUpTo at h
    dsimp only at h
    split at h
    · cases h
      rfl
    · obtain ⟨pool, -, h⟩ := bind_eq_ok.mp h
      cases h
      rfl
  · cases h
    rfl

/-- Giving a request slots leaves the tables of the others as they are. -/
theorem allocateSlots_others {args : AllocateSlotsArgs} {blocks : Option KVCacheBlocks}
    (h : m.allocateSlots q args = .ok (blocks, m')) (hx : x ≠ q.requestId) :
    m'.reqBlocks x = m.reqBlocks x := by
  unfold allocateSlots at h
  split at h
  · cases h
  · dsimp only at h
    obtain ⟨fit, -, h⟩ := bind_eq_ok.mp h
    have hnew : ∀ {m₁ m₂ : FullAttentionKV} {n : ℤ} {new : List BlockId},
        m₁.allocateNewBlocks q.requestId n = .ok (new, m₂) → m₁.reqBlocks x = m.reqBlocks x →
        m₂.reqBlocks x = m.reqBlocks x := fun h₂ h₁ => (allocateNewBlocks_others h₂ hx).trans h₁
    split at h
    · split at h
      · obtain ⟨m₁, h₁, h⟩ := bind_eq_ok.mp h
        obtain ⟨⟨new, m₂⟩, h₂, h⟩ := bind_eq_ok.mp h
        have hm₂ := hnew h₂ (allocateNewComputedBlocks_others h₁ hx)
        split at h
        · cases h
          exact hm₂
        · obtain ⟨m₃, h₃, h⟩ := bind_eq_ok.mp h
          cases h
          exact (cacheBlocks_reqBlocks h₃).trans hm₂
      · obtain ⟨m₁, h₁, h⟩ := bind_eq_ok.mp h
        cases h₁
        obtain ⟨⟨new, m₂⟩, h₂, h⟩ := bind_eq_ok.mp h
        have hm₂ := hnew h₂ rfl
        split at h
        · cases h
          exact hm₂
        · obtain ⟨m₃, h₃, h⟩ := bind_eq_ok.mp h
          cases h
          exact (cacheBlocks_reqBlocks h₃).trans hm₂
    · cases h
      rfl

instance : SeparateKVCacheManager FullAttentionKV where
  getBlocks_allocateSlots h hr := congrArg (fun ids => [ids]) (allocateSlots_others h hr)
  getBlocks_free _ _ _ hr := congrArg (fun ids => [ids]) (reqBlocks_free hr)

/-- A request that was freed has no blocks. -/
theorem reqBlocks_free_self (m : FullAttentionKV) (r : ReqId) : (m.free r).reqBlocks r = [] := by
  simp [reqBlocks, free, Dict.get?_erase]

instance : ReleasingKVCacheManager FullAttentionKV where
  getBlocks_free_self m r := congrArg (fun ids => [ids].flatten) (reqBlocks_free_self m r)

/-- Asking in vain changes nothing. -/
theorem allocateSlots_none {args : AllocateSlotsArgs} (h : m.allocateSlots q args = .ok (none, m')) :
    m' = m := by
  unfold allocateSlots at h
  split at h
  · cases h
  · dsimp only at h
    obtain ⟨fit, -, h⟩ := bind_eq_ok.mp h
    split at h
    · split at h <;> obtain ⟨m₁, -, h⟩ := bind_eq_ok.mp h <;>
        obtain ⟨⟨new, m₂⟩, -, h⟩ := bind_eq_ok.mp h <;> split at h
      · cases h
      · obtain ⟨m₃, -, h⟩ := bind_eq_ok.mp h
        cases h
      · cases h
      · obtain ⟨m₃, -, h⟩ := bind_eq_ok.mp h
        cases h
    · cases h
      rfl

instance : StrictKVCacheManager FullAttentionKV where
  mem_getBlocks_of_none h hb := by
    cases allocateSlots_none h
    exact .inr hb

end FullAttentionKV

end RpsServe
