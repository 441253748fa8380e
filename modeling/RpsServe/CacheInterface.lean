import RpsServe.Request
import RpsServe.SchedError

/-!
# The cache managers as the scheduler sees them

The scheduler calls its KV cache manager and its encoder cache manager through a fixed set
of methods, and each has several implementations: one KV manager for every combination of
attention types, an encoder cache for decoder-only and one for encoder-decoder models. The
scheduler is modelled over any of them.
-/

namespace RpsServe

/-- The index of a KV block in the block pool. -/
abbrev BlockId := ℕ

/-- `KVCacheBlocks`: for each KV cache group a list of blocks. -/
abbrev KVCacheBlocks := List (List BlockId)

/-- The arguments of `allocate_slots` after the request. -/
structure AllocateSlotsArgs where
  numNewTokens : ℤ
  numNewComputedTokens : ℤ := 0
  newComputedBlocks : Option KVCacheBlocks := none
  numLookaheadTokens : ℤ := 0
  numExternalComputedTokens : ℤ := 0
  delayCacheBlocks : Bool := false
  numEncoderTokens : ℤ := 0
  fullSequenceMustFit : Bool := false

/-- The methods of `KVCacheManager` that the scheduler calls, over a state type. -/
class KVCacheManager (K : Type) where
  emptyKvCacheBlocks : K → KVCacheBlocks
  newStepStarts : K → K
  getComputedBlocks : K → Request → KVCacheBlocks × ℤ
  allocateSlots : K → Request → AllocateSlotsArgs → Except SchedError (Option KVCacheBlocks × K)
  free : K → ReqId → K
  getBlocks : K → ReqId → KVCacheBlocks
  cacheBlocks : K → Request → ℤ → Except SchedError K
  resetPrefixCache : K → Bool × K
  evictBlocks : K → List BlockId → K
  removeSkippedBlocks : K → ReqId → ℤ → K
  takeNewBlockIds : K → List BlockId × K

/-- The methods of `EncoderCacheManager` that the scheduler calls, over a state type. -/
class EncoderCache (E : Type) where
  cacheSize : E → ℕ
  checkAndUpdateCache : E → Request → ℕ → Except SchedError (Bool × E)
  canAllocate : E → Request → ℕ → (encoderComputeBudget numEmbedsToSchedule : ℤ) →
    Except SchedError (Bool × E)
  allocate : E → Request → ℕ → Except SchedError E
  getCachedInputIds : E → Request → List ℕ
  freeEncoderInput : E → Request → ℕ → E
  free : E → Request → E
  getFreedMmHashes : E → List MmHash × E

/-- What the two calls that frame a step do to the blocks of the requests: nothing. -/
class LawfulKVCacheManager (K : Type) [KVCacheManager K] : Prop where
  getBlocks_newStepStarts (kv : K) (r : ReqId) :
    KVCacheManager.getBlocks (KVCacheManager.newStepStarts kv) r = KVCacheManager.getBlocks kv r
  getBlocks_takeNewBlockIds (kv : K) (r : ReqId) :
    KVCacheManager.getBlocks (KVCacheManager.takeNewBlockIds kv).2 r =
      KVCacheManager.getBlocks kv r

/-- Allocating and freeing change the blocks of no other request. -/
class SeparateKVCacheManager (K : Type) [KVCacheManager K] : Prop extends
    LawfulKVCacheManager K where
  getBlocks_allocateSlots {kv kv' : K} {q : Request} {args : AllocateSlotsArgs}
    {blocks : Option KVCacheBlocks} {r : ReqId}
    (h : KVCacheManager.allocateSlots kv q args = .ok (blocks, kv')) (hr : r ≠ q.requestId) :
    KVCacheManager.getBlocks kv' r = KVCacheManager.getBlocks kv r
  getBlocks_free (kv : K) {v r : ReqId} (hr : r ≠ v) :
    KVCacheManager.getBlocks (KVCacheManager.free kv v) r = KVCacheManager.getBlocks kv r

/-- Asking in vain gives a request no blocks but the null block `0`, which takes the place of blocks
outside of the attention window. -/
class StrictKVCacheManager (K : Type) [KVCacheManager K] : Prop extends SeparateKVCacheManager K where
  mem_getBlocks_of_none {kv kv' : K} {q : Request} {args : AllocateSlotsArgs} {b : BlockId}
    (h : KVCacheManager.allocateSlots kv q args = .ok (none, kv'))
    (hb : b ∈ (KVCacheManager.getBlocks kv' q.requestId).flatten) :
    b = 0 ∨ b ∈ (KVCacheManager.getBlocks kv q.requestId).flatten

/-- Freeing leaves a request no blocks. -/
class ReleasingKVCacheManager (K : Type) [KVCacheManager K] : Prop extends
    SeparateKVCacheManager K where
  getBlocks_free_self (kv : K) (r : ReqId) :
    (KVCacheManager.getBlocks (KVCacheManager.free kv r) r).flatten = []

/-- Room is found only for an item that the compute budget covers. -/
class BudgetedEncoderCache (E : Type) [EncoderCache E] : Prop where
  embeds_le_of_canAllocate {enc enc' : E} {q : Request} {i : ℕ}
    {encoderComputeBudget numEmbedsToSchedule : ℤ}
    (h : EncoderCache.canAllocate enc q i encoderComputeBudget numEmbedsToSchedule =
      .ok (true, enc')) : (q.getNumEncoderEmbeds i : ℤ) ≤ encoderComputeBudget

/-- Handing out the freed hashes leaves what is cached. -/
class LawfulEncoderCache (E : Type) [EncoderCache E] : Prop where
  getCachedInputIds_getFreedMmHashes (enc : E) (q : Request) :
    EncoderCache.getCachedInputIds (EncoderCache.getFreedMmHashes enc).2 q =
      EncoderCache.getCachedInputIds enc q

end RpsServe
