import RpsServe.P2p.TensorMemoryPool
import Mathlib.Data.Nat.Log
import Mathlib.Tactic.Ring

/-!
# Blocks of the pinned pool

The lists of free blocks and the file of allocated ones are slots of one packing of the pinned
memory. Every operation of the pool moves one span at a time between its slots and the hand, so
that no address is ever given out twice and no list of free blocks is ever missing.
-/

namespace RpsServe.P2p

/-- `MemoryBlock` as a span. -/
def MemoryBlock.span (b : MemoryBlock) : Span := ⟨b.addr, b.size⟩

namespace TensorMemoryPool

/-- A slot of the pool: an address of the list of a size, or of the file of allocated blocks. -/
abbrev Slot := Option ℕ × ℤ

/-- The block in a slot. -/
def block? (p : TensorMemoryPool) : Slot → Option MemoryBlock
  | (none, addr) => p.allocatedBlocks.get? addr
  | (some size, addr) => (p.freeLists.get? size).bind fun list => list.get? addr

/-- The span in a slot. -/
def held (p : TensorMemoryPool) (slot : Slot) : Option Span := (p.block? slot).map MemoryBlock.span

/-- The pinned memory. -/
def pinned (p : TensorMemoryPool) : Span := ⟨p.baseAddress, p.maxBlockSize⟩

/-- A size the pool has a list for. -/
def IsSize (p : TensorMemoryPool) (size : ℕ) : Prop :=
  (∃ k, size = 2 ^ k) ∧ p.minBlockSize ≤ size ∧ size ≤ p.maxBlockSize

/-- A block stands in the slot of its own size and address. -/
def Filed (p : TensorMemoryPool) (slot : Slot) (b : MemoryBlock) : Prop :=
  p.IsSize b.size ∧ slot.2 = b.addr ∧ ∀ size, slot.1 = some size → size = b.size

/-- The pool is in order. -/
structure Wf (p : TensorMemoryPool) : Prop where
  max : ∃ k, p.maxBlockSize = 2 ^ k
  min : ∃ k, p.minBlockSize = 2 ^ k
  lists : ∀ size, (p.freeLists.get? size).isSome ↔ p.IsSize size
  filed : ∀ slot b, p.block? slot = some b → p.Filed slot b
  packed : Packed p.pinned p.held

/-- A block in hand: of a size of the pool, and apart from every block in a slot. -/
structure InHand (p : TensorMemoryPool) (b : MemoryBlock) : Prop where
  isSize : p.IsSize b.size
  spare : Spare p.pinned p.held b.span

variable {p p' : TensorMemoryPool} {b : MemoryBlock} {size : ℕ} {addr : ℤ} {slot : Slot}

/-- The slot without a size is that of an allocated block. -/
@[simp] theorem block?_none : p.block? (none, addr) = p.allocatedBlocks.get? addr := rfl

/-- A slot with a block holds the block's span. -/
theorem held_eq_some (h : p.block? slot = some b) : p.held slot = some b.span := by
  rw [held, h]
  rfl

/-- A size is positive. -/
theorem isSize_pos (h : p.IsSize size) : 0 < size := by
  obtain ⟨⟨k, rfl⟩, -⟩ := h
  exact Nat.two_pow_pos k

/-- Half of a size is one, unless it is too small. -/
theorem isSize_half (h : p.IsSize size) (hmin : p.minBlockSize ≤ size / 2)
    (hpos : 0 < p.minBlockSize) : p.IsSize (size / 2) ∧ size = size / 2 + size / 2 := by
  obtain ⟨⟨k, rfl⟩, -, hmax⟩ := h
  cases k with
  | zero => simp at hmin; omega
  | succ k =>
    have hhalf : 2 ^ (k + 1) / 2 = 2 ^ k := by rw [pow_succ]; omega
    rw [hhalf] at hmin ⊢
    exact ⟨⟨⟨k, rfl⟩, hmin, by rw [pow_succ] at hmax; omega⟩, by rw [pow_succ]; omega⟩

/-- Twice a size is one, unless it is too large. -/
theorem isSize_double (h : p.IsSize size) (hmax : size * 2 ≤ p.maxBlockSize) :
    p.IsSize (size * 2) := by
  obtain ⟨⟨k, rfl⟩, hmin, -⟩ := h
  exact ⟨⟨k + 1, (pow_succ 2 k).symm⟩, by omega, hmax⟩

/-- The least size of a pool is positive. -/
theorem Wf.min_pos (h : p.Wf) : 0 < p.minBlockSize := by
  obtain ⟨k, hk⟩ := h.min
  rw [hk]
  exact Nat.two_pow_pos k

/-- A size of the pool has its list. -/
theorem Wf.freeList_ok (h : p.Wf) (hs : p.IsSize size) :
    ∃ list, p.freeLists.get? size = some list ∧ p.freeList size = .ok list := by
  obtain ⟨list, hlist⟩ := Option.isSome_iff_exists.mp ((h.lists size).mpr hs)
  exact ⟨list, hlist, by simp [freeList, hlist]⟩

/-! ## Moves between the slots and the hand -/

/-- Writing one list changes the slots of that list only. -/
theorem block?_setList (list : Dict ℤ MemoryBlock) (slot : Slot) :
    block? { p with freeLists := p.freeLists.set size list } slot =
      if slot.1 = some size then list.get? slot.2 else p.block? slot := by
  obtain ⟨s | s, a⟩ := slot
  · simp
  · simp only [block?, Dict.get?_set, Option.some.injEq]
    by_cases hs : size = s
    · simp [hs]
    · simp [hs, Ne.symm hs]

/-- Writing the list of a size keeps the sizes that have lists. -/
theorem isSome_setList (list : Dict ℤ MemoryBlock) (h : p.Wf) (hs : p.IsSize size) (s : ℕ) :
    ((p.freeLists.set size list).get? s).isSome ↔ p.IsSize s := by
  rw [Dict.get?_set]
  by_cases hss : size = s
  · simp [← hss, hs]
  · simp [hss, h.lists]

/-- What a pool becomes when only its slots change, one of them. -/
structure Moved (p p' : TensorMemoryPool) (slot : Slot) (b? : Option MemoryBlock) : Prop where
  max : p'.maxBlockSize = p.maxBlockSize
  min : p'.minBlockSize = p.minBlockSize
  base : p'.baseAddress = p.baseAddress
  lists : ∀ s, (p'.freeLists.get? s).isSome ↔ (p.freeLists.get? s).isSome
  block? : p'.block? = Function.update p.block? slot b?

variable {b? : Option MemoryBlock}

/-- A move changes the span of one slot. -/
theorem Moved.held (h : Moved p p' slot b?) :
    p'.held = Function.update p.held slot (b?.map MemoryBlock.span) := by
  funext s
  rw [TensorMemoryPool.held, h.block?]
  by_cases hs : s = slot
  · simp [hs]
  · simp [hs, TensorMemoryPool.held]

/-- A move keeps the pinned memory. -/
theorem Moved.pinned (h : Moved p p' slot b?) : p'.pinned = p.pinned := by
  rw [TensorMemoryPool.pinned, h.base, h.max]
  rfl

/-- A move keeps the sizes. -/
theorem Moved.isSize (h : Moved p p' slot b?) (s : ℕ) : p'.IsSize s ↔ p.IsSize s := by
  rw [IsSize, h.max, h.min]
  rfl

/-- A block is taken out of its slot. -/
theorem Moved.taken (h : Moved p p' slot none) (hwf : p.Wf) (hb : p.block? slot = some b) :
    p'.Wf ∧ p'.InHand b := by
  have hheld : p'.held = Function.update p.held slot none := h.held
  refine ⟨⟨h.max ▸ hwf.max, h.min ▸ hwf.min, ?_, ?_, ?_⟩, ⟨?_, ?_⟩⟩
  · intro s
    rw [h.lists, h.isSize, hwf.lists]
  · intro s c hc
    rw [h.block?] at hc
    by_cases hs : s = slot
    · simp [hs] at hc
    · rw [Function.update_of_ne hs] at hc
      exact ⟨(h.isSize c.size).mpr (hwf.filed s c hc).1, (hwf.filed s c hc).2⟩
  · rw [hheld, h.pinned]
    exact hwf.packed.clear slot
  · exact (h.isSize b.size).mpr (hwf.filed slot b hb).1
  · rw [hheld, h.pinned]
    exact hwf.packed.spare_of_clear (held_eq_some hb)

/-- A block in hand is put into a slot of its own. -/
theorem Moved.put (h : Moved p p' slot (some b)) (hwf : p.Wf) (hb : p.InHand b)
    (hslot : slot.2 = b.addr ∧ ∀ size, slot.1 = some size → size = b.size) : p'.Wf := by
  have hheld : p'.held = Function.update p.held slot (some b.span) := h.held
  refine ⟨h.max ▸ hwf.max, h.min ▸ hwf.min, ?_, ?_, ?_⟩
  · intro s
    rw [h.lists, h.isSize, hwf.lists]
  · intro s c hc
    rw [h.block?] at hc
    by_cases hs : s = slot
    · rw [hs, Function.update_self, Option.some.injEq] at hc
      subst hs hc
      exact ⟨(h.isSize b.size).mpr hb.isSize, hslot⟩
    · rw [Function.update_of_ne hs] at hc
      exact ⟨(h.isSize c.size).mpr (hwf.filed s c hc).1, (hwf.filed s c hc).2⟩
  · rw [hheld, h.pinned]
    exact hwf.packed.put hb.spare slot

/-- `self.free_lists[block.size][block.addr] = block` finds its list. -/
theorem fileFree_spec (hwf : p.Wf) (hb : p.IsSize b.size) : ∃ p', p.fileFree b = .ok p' ∧
    Moved p p' (some b.size, b.addr) (some b) ∧ p'.allocatedBlocks = p.allocatedBlocks := by
  obtain ⟨list, hget, hlist⟩ := hwf.freeList_ok hb
  refine ⟨{ p with freeLists := p.freeLists.set b.size (list.set b.addr b) }, ?_, ?_, rfl⟩
  · simp [fileFree, hlist, bind, Except.bind, pure, Except.pure]
  · refine ⟨rfl, rfl, rfl, fun s => ?_, ?_⟩
    · rw [isSome_setList _ hwf hb, hwf.lists]
    · funext slot
      rw [block?_setList]
      obtain ⟨s | s, a⟩ := slot
      · simp
      · by_cases hs : s = b.size
        · by_cases ha : a = b.addr
          · simp [hs, ha]
          · simp [hs, ha, Dict.get?_set_ne _ _ (Ne.symm ha), block?, hget]
        · simp [hs]

/-- `del self.free_lists[size][addr]` of a block that is there. -/
theorem dropFree_spec (hwf : p.Wf) (hb : p.block? (some size, addr) = some b) :
    ∃ p', p.dropFree size addr = .ok p' ∧ Moved p p' (some size, addr) none ∧
      p'.allocatedBlocks = p.allocatedBlocks := by
  obtain ⟨list, hget, hlist⟩ := Option.bind_eq_some_iff.mp hb
  have hsize : p.IsSize size := (hwf.lists size).mp (by rw [hget]; rfl)
  have hmem : addr ∈ list.keys := Dict.mem_keys_of_get? hlist
  refine ⟨{ p with freeLists := p.freeLists.set size (list.erase addr) }, ?_, ?_, rfl⟩
  · simp [dropFree, freeList, hget, hmem, bind, Except.bind, pure, Except.pure]
  · refine ⟨rfl, rfl, rfl, fun s => ?_, ?_⟩
    · rw [isSome_setList _ hwf hsize, hwf.lists]
    · funext slot
      rw [block?_setList]
      obtain ⟨s | s, a⟩ := slot
      · simp
      · by_cases hs : s = size
        · by_cases ha : a = addr
          · simp [hs, ha, Dict.get?_erase]
          · simp [hs, ha, Dict.get?_erase, Ne.symm ha, block?, hget]
        · simp [hs]

end TensorMemoryPool

end RpsServe.P2p
