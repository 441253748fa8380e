import RpsServe.CacheInterface
import RpsServe.Lib.Dict
import Mathlib.Algebra.Order.Ring.Int

/-!
# The block pool

`BlockPool` keeps for every KV block its reference count and the hash it is cached under,
the queue of free blocks in eviction order, and the map from a hash to the blocks with its
contents. Block `0` is the null block, which is taken out of the queue for good.
-/

namespace RpsServe

/-- The fields of `KVCacheBlock`. -/
structure KVCacheBlock where
  refCnt : ℤ := 0
  blockHash : Option BlockHash := none
deriving DecidableEq

/-- `BlockPool`. The blocks of one hash are listed in the order they were cached in. -/
structure BlockPool where
  blocks : List KVCacheBlock
  freeBlockQueue : List BlockId
  cachedBlockHashToBlock : Dict BlockHash (List BlockId) := .empty
  enableCaching : Bool
deriving DecidableEq

namespace BlockPool

/-- The null block. -/
def nullBlock : BlockId := 0

/-- `BlockPool.__init__`. -/
def init (numGpuBlocks : ℕ) (enableCaching : Bool) : BlockPool where
  blocks := List.replicate numGpuBlocks {}
  freeBlockQueue := (List.range numGpuBlocks).drop 1
  enableCaching := enableCaching

/-- A block of the pool. -/
def block (p : BlockPool) (b : BlockId) : KVCacheBlock := (p.blocks[b]?).getD {}

/-- Change one block. -/
def modifyBlock (p : BlockPool) (b : BlockId) (f : KVCacheBlock → KVCacheBlock) : BlockPool :=
  { p with blocks := p.blocks.modify b f }

/-- `get_num_free_blocks`. -/
def getNumFreeBlocks (p : BlockPool) : ℕ := p.freeBlockQueue.length

/-- `get_cached_block` for one KV cache group. -/
def getCachedBlock (p : BlockPool) (h : BlockHash) : Option BlockId :=
  (p.cachedBlockHashToBlock.get? h).bind List.head?

/-- `BlockHashToBlockMap.insert`. -/
def insertCached (p : BlockPool) (h : BlockHash) (b : BlockId) : BlockPool :=
  let ids := (p.cachedBlockHashToBlock.get? h).getD []
  { p with
    cachedBlockHashToBlock := p.cachedBlockHashToBlock.set h (if b ∈ ids then ids else ids ++ [b]) }

/-- `_maybe_evict_cached_block`, with `BlockHashToBlockMap.pop`. -/
def maybeEvictCachedBlock (p : BlockPool) (b : BlockId) : BlockPool :=
  match (p.block b).blockHash with
  | none => p
  | some h =>
    match p.cachedBlockHashToBlock.get? h with
    | none => p
    | some ids =>
      if b ∉ ids then p
      else
        let rest := ids.erase b
        { p with
          cachedBlockHashToBlock :=
            if rest = [] then p.cachedBlockHashToBlock.erase h
            else p.cachedBlockHashToBlock.set h rest }.modifyBlock b
          fun blk => { blk with blockHash := none }

/-- One block of `cache_full_blocks`. -/
def cacheFullBlock (p : BlockPool) (e : BlockId × BlockHash) : Except SchedError BlockPool :=
  if e.1 = nullBlock then .ok p
  else if (p.block e.1).blockHash ≠ none then .error .kvCacheError
  else .ok ((p.modifyBlock e.1 fun blk => { blk with blockHash := some e.2 }).insertCached e.2 e.1)

/-- `cache_full_blocks`: the blocks in `[numCachedBlocks, numFullBlocks)` get their hashes. -/
def cacheFullBlocks (p : BlockPool) (q : Request) (blocks : List BlockId)
    (numCachedBlocks numFullBlocks : ℕ) : Except SchedError BlockPool :=
  if numFullBlocks ≤ numCachedBlocks then .ok p
  else if q.blockHashes.length < numFullBlocks then .error .kvCacheError
  else
    (((blocks.take numFullBlocks).drop numCachedBlocks).zip
      (q.blockHashes.drop numCachedBlocks)).foldlM cacheFullBlock p

/-- One block of `get_new_blocks`. -/
def takeNewBlock (p : BlockPool) (b : BlockId) : Except SchedError BlockPool :=
  let p := if p.enableCaching then p.maybeEvictCachedBlock b else p
  if (p.block b).refCnt ≠ 0 then .error .kvCacheError
  else .ok (p.modifyBlock b fun blk => { blk with refCnt := blk.refCnt + 1 })

/-- `get_new_blocks`. -/
def getNewBlocks (p : BlockPool) (numBlocks : ℕ) : Except SchedError (List BlockId × BlockPool) :=
  if p.getNumFreeBlocks < numBlocks then .error .kvCacheError
  else do
    let ret := p.freeBlockQueue.take numBlocks
    let p ← ret.foldlM takeNewBlock { p with freeBlockQueue := p.freeBlockQueue.drop numBlocks }
    .ok (ret, p)

/-- One block of `touch`. -/
def touchBlock (p : BlockPool) (b : BlockId) : BlockPool :=
  let p := if (p.block b).refCnt = 0 ∧ b ≠ nullBlock then
    { p with freeBlockQueue := p.freeBlockQueue.erase b } else p
  p.modifyBlock b fun blk => { blk with refCnt := blk.refCnt + 1 }

/-- `touch`. -/
def touch (p : BlockPool) (blocks : List BlockId) : BlockPool := blocks.foldl touchBlock p

/-- One reference to a block is given back. -/
def releaseBlock (p : BlockPool) (b : BlockId) : BlockPool :=
  p.modifyBlock b fun blk => { blk with refCnt := blk.refCnt - 1 }

/-- `free_blocks`, in the order of eviction. -/
def freeBlocks (p : BlockPool) (orderedBlocks : List BlockId) : BlockPool :=
  let p := orderedBlocks.foldl releaseBlock p
  { p with
    freeBlockQueue := p.freeBlockQueue ++
      orderedBlocks.filter fun b => (p.block b).refCnt = 0 ∧ b ≠ nullBlock }

/-- `evict_blocks`. -/
def evictBlocks (p : BlockPool) (blockIds : List BlockId) : BlockPool :=
  blockIds.foldl maybeEvictCachedBlock p

/-- `reset_prefix_cache`: it fails while a block other than the null block is in use. -/
def resetPrefixCache (p : BlockPool) : Bool × BlockPool :=
  if (p.blocks.length : ℤ) - p.getNumFreeBlocks ≠ 1 then (false, p)
  else
    (true, { p with
      cachedBlockHashToBlock := .empty
      blocks := p.blocks.map fun blk => { blk with blockHash := none } })

end BlockPool

end RpsServe
