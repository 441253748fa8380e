import RpsServe.Lib.Dict
import RpsServe.Lib.Except
import RpsServe.Lib.Packing
import Mathlib.Data.Nat.Size
import Mathlib.Algebra.Order.Ring.Int

/-!
# The pool of pinned host memory

`TensorMemoryPool`: a buddy allocator. Free blocks are filed by size, blocks in use by address;
both files hold the blocks themselves. A block is cut in halves until it fits, and a freed one is
joined with its buddy as long as the buddy is free.

The contents of the memory are not modelled, only which addresses are whose.
-/

namespace RpsServe.P2p

/-- What the pool can raise. -/
inductive PoolError where
  /-- Block sizes must be positive. -/
  | blockSizesNotPositive
  /-- Max block size must be greater than min block size. -/
  | maxBelowMin
  /-- Allocation size must be positive. -/
  | sizeNotPositive
  /-- Requested size exceeds maximum block size. -/
  | sizeExceedsMaximum
  /-- Insufficient memory. -/
  | insufficientMemory
  /-- Invalid address to free. -/
  | invalidFree
  /-- Allocated block size is smaller than required size. -/
  | blockTooSmall
  /-- Failed to create tensor view. -/
  | noTensorView
  /-- Invalid address to load. -/
  | invalidLoad
  /-- Requested tensor size exceeds block size. -/
  | tensorExceedsBlock
  /-- A size without a list of free blocks, or a free block that is not in its list. -/
  | keyError
deriving DecidableEq, Repr

/-- `MemoryBlock`. -/
structure MemoryBlock where
  size : ℕ
  addr : ℤ
deriving DecidableEq, Repr

/-- `TensorMemoryPool`. -/
structure TensorMemoryPool where
  maxBlockSize : ℕ
  minBlockSize : ℕ
  baseAddress : ℤ
  freeLists : Dict ℕ (Dict ℤ MemoryBlock) := .empty
  allocatedBlocks : Dict ℤ MemoryBlock := .empty

/-- What the pool sees of a tensor: `element_size()` and the shape. -/
structure Tensor where
  elementSize : ℕ
  shape : List ℕ
deriving DecidableEq, Repr

/-- `tensor.element_size() * tensor.numel()`. -/
def Tensor.size (t : Tensor) : ℕ := t.elementSize * t.shape.prod

/-- `_round_to_power_of_two`. -/
def roundToPowerOfTwo (size : ℕ) : ℕ := 2 ^ (size - 1).size

/-- The loop of `_initialize_free_lists`: an empty list for the size and for its halves. -/
def initializeFreeLists (minBlockSize : ℕ) : ℕ → ℕ → Dict ℕ (Dict ℤ MemoryBlock) →
    Dict ℕ (Dict ℤ MemoryBlock)
  | 0, _, lists => lists
  | fuel + 1, size, lists =>
    if minBlockSize ≤ size then
      initializeFreeLists minBlockSize fuel (size / 2) (lists.set size .empty)
    else lists

namespace TensorMemoryPool

/-- `self.free_lists[size]`. -/
def freeList (p : TensorMemoryPool) (size : ℕ) : Except PoolError (Dict ℤ MemoryBlock) :=
  match p.freeLists.get? size with
  | none => .error .keyError
  | some list => .ok list

/-- `self.free_lists[block.size][block.addr] = block`. -/
def fileFree (p : TensorMemoryPool) (block : MemoryBlock) : Except PoolError TensorMemoryPool := do
  let list ← p.freeList block.size
  return { p with freeLists := p.freeLists.set block.size (list.set block.addr block) }

/-- `del self.free_lists[size][addr]`. -/
def dropFree (p : TensorMemoryPool) (size : ℕ) (addr : ℤ) :
    Except PoolError TensorMemoryPool := do
  let list ← p.freeList size
  if addr ∈ list.keys then
    return { p with freeLists := p.freeLists.set size (list.erase addr) }
  else throw .keyError

/-- `TensorMemoryPool(max_block_size, min_block_size)` over memory pinned at an address. -/
def new (maxBlockSize minBlockSize : ℕ) (baseAddress : ℤ) :
    Except PoolError TensorMemoryPool :=
  if maxBlockSize = 0 ∨ minBlockSize = 0 then .error .blockSizesNotPositive
  else if maxBlockSize < minBlockSize then .error .maxBelowMin
  else
    let top := roundToPowerOfTwo maxBlockSize
    let least := roundToPowerOfTwo minBlockSize
    fileFree
      { maxBlockSize := top, minBlockSize := least, baseAddress
        freeLists := initializeFreeLists least (top + 1) top .empty } ⟨top, baseAddress⟩

/-- The search of `allocate`: the block filed last in the first list that has one. -/
def takeFree : ℕ → ℕ → TensorMemoryPool → Except PoolError (MemoryBlock × TensorMemoryPool)
  | 0, _, _ => .error .insufficientMemory
  | fuel + 1, currentSize, p =>
    if currentSize ≤ p.maxBlockSize then do
      let list ← p.freeList currentSize
      match list.last? with
      | none => takeFree fuel (currentSize * 2) p
      | some (addr, block) =>
        let p ← p.dropFree currentSize addr
        return (block, p)
    else .error .insufficientMemory

/-- `_split_block`: file the upper halves. -/
def splitBlock (requiredSize : ℕ) : ℕ → MemoryBlock → TensorMemoryPool →
    Except PoolError (MemoryBlock × TensorMemoryPool)
  | 0, block, p => .ok (block, p)
  | fuel + 1, block, p =>
    if requiredSize < block.size ∧ p.minBlockSize ≤ block.size / 2 then do
      let buddySize := block.size / 2
      let p ← p.fileFree ⟨buddySize, block.addr + buddySize⟩
      splitBlock requiredSize fuel ⟨buddySize, block.addr⟩ p
    else .ok (block, p)

/-- `allocate`. -/
def allocate (p : TensorMemoryPool) (size : ℕ) : Except PoolError (ℤ × TensorMemoryPool) :=
  if size = 0 then .error .sizeNotPositive
  else
    let requiredSize := roundToPowerOfTwo (max size p.minBlockSize)
    if p.maxBlockSize < requiredSize then .error .sizeExceedsMaximum
    else do
      let (block, p) ← takeFree (p.maxBlockSize + 1) requiredSize p
      let (block, p) ← splitBlock requiredSize block.size block p
      return (block.addr, { p with allocatedBlocks := p.allocatedBlocks.set block.addr block })

/-- `_merge_buddies`: join the block with its buddy while the buddy is free, so many times at
most, and file it. -/
def mergeBuddies : ℕ → MemoryBlock → TensorMemoryPool → Except PoolError TensorMemoryPool
  | 0, block, p => p.fileFree block
  | depth + 1, block, p => do
    let buddyOffset : ℤ :=
      if (block.addr - p.baseAddress) % (2 * block.size) = 0 then block.size else -block.size
    let list ← p.freeList block.size
    match list.get? (block.addr + buddyOffset) with
    | none => p.fileFree block
    | some buddy =>
      let p ← p.dropFree buddy.size buddy.addr
      mergeBuddies depth ⟨block.size * 2, min block.addr buddy.addr⟩ p

/-- `MAX_MERGE_DEPTH`. -/
def maxMergeDepth : ℕ := 30

/-- `free`. -/
def free (p : TensorMemoryPool) (addr : ℤ) : Except PoolError TensorMemoryPool :=
  match p.allocatedBlocks.get? addr with
  | none => .error .invalidFree
  | some block =>
    mergeBuddies maxMergeDepth block { p with allocatedBlocks := p.allocatedBlocks.erase addr }

/-- `store_tensor`, with the pool it leaves also when it raises. `viewFails` says that no view of
the block could be made, which the caller hears after the block was given back. -/
def storeTensor (p : TensorMemoryPool) (t : Tensor) (viewFails : Bool) :
    Except PoolError ℤ × TensorMemoryPool :=
  match p.allocate t.size with
  | .error e => (.error e, p)
  | .ok (addr, p) =>
    if (p.allocatedBlocks.get? addr).any (fun block => block.size < t.size) then
      giveBack p addr .blockTooSmall
    else if viewFails then giveBack p addr .noTensorView
    else (.ok addr, p)
where
  /-- Free the block and raise. -/
  giveBack (p : TensorMemoryPool) (addr : ℤ) (e : PoolError) :
      Except PoolError ℤ × TensorMemoryPool :=
    match p.free addr with
    | .error e => (.error e, p)
    | .ok p => (.error e, p)

/-- `load_tensor`. -/
def loadTensor (p : TensorMemoryPool) (addr : ℤ) (elementSize : ℕ) (shape : List ℕ) :
    Except PoolError Tensor :=
  match p.allocatedBlocks.get? addr with
  | none => .error .invalidLoad
  | some block =>
    if block.size < shape.prod * elementSize then .error .tensorExceedsBlock
    else .ok ⟨elementSize, shape⟩

end TensorMemoryPool

end RpsServe.P2p
