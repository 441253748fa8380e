import RpsServe.P2p.PoolBlocks

/-!
# The operations of the pinned pool

Every operation keeps the pool in order and finds its lists. An allocation gives out an address
that is not in use, with a block that is large enough; a free takes exactly that address back.
-/

namespace RpsServe.P2p.TensorMemoryPool

variable {p p' : TensorMemoryPool} {b : MemoryBlock} {size : ℕ} {addr : ℤ}

/-! ## The pool at the start -/

/-- The lists made at the start: one for each power of two from the least size up. -/
theorem get?_initializeFreeLists {least : ℕ} (hleast : 0 < least) (fuel k : ℕ)
    (hfuel : k < fuel) (lists : Dict ℕ (Dict ℤ MemoryBlock)) (s : ℕ) :
    (initializeFreeLists least fuel (2 ^ k) lists).get? s =
      if ∃ j ≤ k, s = 2 ^ j ∧ least ≤ s then some .empty else lists.get? s := by
  induction fuel generalizing k lists with
  | zero => omega
  | succ fuel ih =>
    by_cases hle : least ≤ 2 ^ k
    · rw [initializeFreeLists, if_pos hle]
      cases k with
      | zero =>
        have hstop : ∀ lists, initializeFreeLists least fuel (2 ^ 0 / 2) lists = lists := by
          cases fuel with
          | zero => exact fun _ => rfl
          | succ fuel => exact fun _ => by rw [initializeFreeLists, if_neg (by simp; omega)]
        rw [hstop, Dict.get?_set]
        by_cases hs : 2 ^ 0 = s
        · simp only [hs, if_true]
          rw [if_pos ⟨0, le_refl 0, hs.symm, hs ▸ hle⟩]
        · rw [if_neg hs, if_neg]
          rintro ⟨j, hj, rfl, -⟩
          exact hs (by rw [Nat.le_zero.mp hj])
      | succ k =>
        have hhalf : 2 ^ (k + 1) / 2 = 2 ^ k := by rw [pow_succ]; omega
        rw [hhalf, ih k (by omega), Dict.get?_set]
        by_cases hs : 2 ^ (k + 1) = s
        · have htop : ∃ j ≤ k + 1, s = 2 ^ j ∧ least ≤ s :=
            ⟨k + 1, le_refl _, hs.symm, hs ▸ hle⟩
          simp [hs, htop]
        · have hiff : (∃ j ≤ k + 1, s = 2 ^ j ∧ least ≤ s) ↔
              ∃ j ≤ k, s = 2 ^ j ∧ least ≤ s := by
            constructor
            · rintro ⟨j, hj, rfl, hs'⟩
              have hne : j ≠ k + 1 := fun h => hs (by rw [h])
              exact ⟨j, by omega, rfl, hs'⟩
            · rintro ⟨j, hj, hs'⟩
              exact ⟨j, by omega, hs'⟩
          simp only [hs, if_false, hiff]
    · rw [initializeFreeLists, if_neg hle, if_neg]
      rintro ⟨j, hj, rfl, hs⟩
      exact hle (hs.trans (Nat.pow_le_pow_right two_pos hj))

/-- The pool before its memory is filed. -/
def unfiled (j k : ℕ) (base : ℤ) : TensorMemoryPool where
  maxBlockSize := 2 ^ k
  minBlockSize := 2 ^ j
  baseAddress := base
  freeLists := initializeFreeLists (2 ^ j) (2 ^ k + 1) (2 ^ k) .empty

/-- A pool without blocks has an empty list for each of its sizes. -/
theorem unfiled_lists (j k : ℕ) (base : ℤ) (s : ℕ) : (unfiled j k base).freeLists.get? s =
    if ∃ i ≤ k, s = 2 ^ i ∧ 2 ^ j ≤ s then some .empty else none :=
  get?_initializeFreeLists (Nat.two_pow_pos j) (2 ^ k + 1) k
    (Nat.lt_succ_of_lt Nat.lt_two_pow_self) .empty s

/-- A pool without blocks has none in any slot. -/
theorem unfiled_block? (j k : ℕ) (base : ℤ) (slot : Slot) :
    (unfiled j k base).block? slot = none := by
  obtain ⟨s | s, a⟩ := slot
  · rfl
  · simp only [block?, unfiled_lists]
    split <;> simp

/-- A pool without blocks holds nothing. -/
theorem unfiled_held (j k : ℕ) (base : ℤ) : (unfiled j k base).held = fun _ => none := by
  funext slot
  simp [held, unfiled_block?]

/-- A pool without blocks is well-formed. -/
theorem unfiled_wf (j k : ℕ) (base : ℤ) : (unfiled j k base).Wf := by
  refine ⟨⟨k, rfl⟩, ⟨j, rfl⟩, fun s => ?_, fun slot b hb => ?_, ?_⟩
  · rw [unfiled_lists]
    constructor
    · intro h
      split at h
      · rename_i hs
        obtain ⟨i, hi, rfl, hmin⟩ := hs
        exact ⟨⟨i, rfl⟩, hmin, Nat.pow_le_pow_right two_pos hi⟩
      · cases h
    · rintro ⟨⟨i, rfl⟩, hmin, hmax⟩
      have hi : i ≤ k := (Nat.pow_le_pow_iff_right one_lt_two).mp hmax
      rw [if_pos ⟨i, hi, rfl, hmin⟩]
      rfl
  · rw [unfiled_block?] at hb
    cases hb
  · rw [unfiled_held]
    exact .none

/-- A pool that is made is in order, and no block of it is in use. -/
theorem new_spec {maxBlockSize minBlockSize : ℕ} {base : ℤ}
    (h : new maxBlockSize minBlockSize base = .ok p) :
    p.Wf ∧ p.allocatedBlocks = .empty := by
  unfold new at h
  split at h
  · cases h
  split at h
  · cases h
  rename_i hle
  have hjk : (minBlockSize - 1).size ≤ (maxBlockSize - 1).size := Nat.size_le_size (by omega)
  generalize hj : (minBlockSize - 1).size = j at hjk
  generalize hk : (maxBlockSize - 1).size = k at hjk
  simp only [roundToPowerOfTwo, hj, hk] at h
  have hsize : (unfiled j k base).IsSize (2 ^ k) :=
    ⟨⟨k, rfl⟩, Nat.pow_le_pow_right two_pos hjk, le_refl (2 ^ k)⟩
  obtain ⟨p', hp', hmoved, halloc⟩ :=
    fileFree_spec (b := ⟨2 ^ k, base⟩) (unfiled_wf j k base) hsize
  obtain rfl := Except.ok.inj (h.symm.trans hp')
  have hspare : Spare (unfiled j k base).pinned (unfiled j k base).held ⟨base, 2 ^ k⟩ := by
    refine ⟨Nat.two_pow_pos k, ⟨le_refl base, le_refl _⟩, fun slot c hc => ?_⟩
    simp [unfiled_held] at hc
  exact ⟨hmoved.put (unfiled_wf j k base) ⟨hsize, hspare⟩ ⟨rfl, by simp⟩, halloc⟩

/-! ## Allocating -/

/-- The power of two a request is rounded up to. -/
theorem le_roundToPowerOfTwo (size : ℕ) : size ≤ roundToPowerOfTwo size := by
  have h := Nat.lt_size_self (size - 1)
  unfold roundToPowerOfTwo
  omega

/-- A power of two below another is at most its half. -/
theorem pow_le_half {j k : ℕ} (h : 2 ^ j < 2 ^ k) : 2 ^ j ≤ 2 ^ k / 2 := by
  cases k with
  | zero => exact absurd h (by simp)
  | succ k =>
    have hjk : j ≤ k := Nat.lt_succ_iff.mp ((Nat.pow_lt_pow_iff_right one_lt_two).mp h)
    have hle : 2 ^ j ≤ 2 ^ k := Nat.pow_le_pow_right two_pos hjk
    rw [pow_succ]
    omega

/-- The search finds a block that is large enough, or there is none. -/
theorem takeFree_spec (fuel : ℕ) {currentSize : ℕ} (hwf : p.Wf)
    (hpow : ∃ k, currentSize = 2 ^ k) (hmin : p.minBlockSize ≤ currentSize) :
    takeFree fuel currentSize p = .error .insufficientMemory ∨
      ∃ b p', takeFree fuel currentSize p = .ok (b, p') ∧ p'.Wf ∧ p'.InHand b ∧
        currentSize ≤ b.size ∧ p'.allocatedBlocks = p.allocatedBlocks := by
  induction fuel generalizing currentSize with
  | zero => exact .inl rfl
  | succ fuel ih =>
    by_cases hmax : currentSize ≤ p.maxBlockSize
    · obtain ⟨list, hget, hlist⟩ := hwf.freeList_ok ⟨hpow, hmin, hmax⟩
      simp only [takeFree, if_pos hmax, hlist, bind, Except.bind]
      cases hlast : list.last? with
      | none =>
        obtain ⟨k, hk⟩ := hpow
        have hdouble := ih ⟨k + 1, by rw [hk, pow_succ]⟩ (show _ ≤ currentSize * 2 by omega)
        rcases hdouble with h | ⟨b, p', h, hwf', hb, hle, halloc⟩
        · exact .inl h
        · exact .inr ⟨b, p', h, hwf', hb, by omega, halloc⟩
      | some e =>
        have hblock : p.block? (some currentSize, e.1) = some e.2 := by
          simp [block?, hget, Dict.get?_of_last? hlast]
        obtain ⟨p', hdrop, hmoved, halloc⟩ := dropFree_spec hwf hblock
        obtain ⟨hwf', hb⟩ := hmoved.taken hwf hblock
        refine .inr ⟨e.2, p', ?_, hwf', hb, ?_, halloc⟩
        · simp [hdrop, pure, Except.pure]
        · exact le_of_eq ((hwf.filed _ _ hblock).2.2 currentSize rfl)
    · exact .inl (by simp [takeFree, hmax])

/-- The upper half of a block in hand is filed, the lower half stays in hand. -/
theorem fileHalf_spec (hwf : p.Wf) (hb : p.InHand b) (hmin : p.minBlockSize ≤ b.size / 2) :
    ∃ p', p.fileFree ⟨b.size / 2, b.addr + ↑(b.size / 2)⟩ = .ok p' ∧ p'.Wf ∧
      p'.InHand ⟨b.size / 2, b.addr⟩ ∧ p'.allocatedBlocks = p.allocatedBlocks := by
  obtain ⟨hhalf, htwice⟩ := isSize_half hb.isSize hmin hwf.min_pos
  have hspare : Spare p.pinned p.held ⟨b.addr, b.size / 2 + b.size / 2⟩ := by
    rw [← htwice]
    exact hb.spare
  have hpos := isSize_pos hhalf
  obtain ⟨p', hp', hmoved, halloc⟩ :=
    fileFree_spec (b := ⟨b.size / 2, b.addr + ↑(b.size / 2)⟩) hwf hhalf
  obtain ⟨hupper, hlower⟩ := hspare.cut hpos hpos (some (b.size / 2), b.addr + ↑(b.size / 2))
  refine ⟨p', hp', hmoved.put hwf ⟨hhalf, hupper⟩ ⟨rfl, ?_⟩, ⟨(hmoved.isSize _).mpr hhalf, ?_⟩,
    halloc⟩
  · intro size hsize
    exact (Option.some.inj hsize).symm
  · rw [hmoved.held, hmoved.pinned]
    exact hlower

/-- Cutting a block leaves one at the same address that is still large enough. -/
theorem splitBlock_spec (fuel : ℕ) {required : ℕ} (hwf : p.Wf) (hb : p.InHand b)
    (hpow : ∃ k, required = 2 ^ k) (hle : required ≤ b.size) :
    ∃ b' p', splitBlock required fuel b p = .ok (b', p') ∧ p'.Wf ∧ p'.InHand b' ∧
      required ≤ b'.size ∧ p'.allocatedBlocks = p.allocatedBlocks := by
  induction fuel generalizing b p with
  | zero => exact ⟨b, p, rfl, hwf, hb, hle, rfl⟩
  | succ fuel ih =>
    by_cases hcut : required < b.size ∧ p.minBlockSize ≤ b.size / 2
    · obtain ⟨p₁, hfile, hwf₁, hb₁, halloc₁⟩ := fileHalf_spec hwf hb hcut.2
      have hhalf : required ≤ b.size / 2 := by
        obtain ⟨j, rfl⟩ := hpow
        obtain ⟨⟨k, hk⟩, -⟩ := hb.isSize
        rw [hk] at hcut ⊢
        exact pow_le_half hcut.1
      obtain ⟨b', p', hsplit, hwf', hb', hle', halloc'⟩ := ih hwf₁ hb₁ hhalf
      refine ⟨b', p', ?_, hwf', hb', hle', halloc'.trans halloc₁⟩
      rw [splitBlock, if_pos hcut]
      exact bind_eq_ok.mpr ⟨p₁, hfile, hsplit⟩
    · exact ⟨b, p, by simp [splitBlock, hcut], hwf, hb, hle, rfl⟩

/-- The cutting stops because the loop is left, not because its bound is used up. -/
theorem splitBlock_exit (fuel : ℕ) {required : ℕ} (hrequired : 0 < required) {b' : MemoryBlock}
    (hfuel : b.size ≤ fuel) (h : splitBlock required fuel b p = .ok (b', p')) :
    ¬ (required < b'.size ∧ p'.minBlockSize ≤ b'.size / 2) := by
  induction fuel generalizing b p with
  | zero =>
    cases h
    omega
  | succ fuel ih =>
    by_cases hcut : required < b.size ∧ p.minBlockSize ≤ b.size / 2
    · simp only [splitBlock, if_pos hcut] at h
      obtain ⟨p₁, -, h⟩ := bind_eq_ok.mp h
      exact ih (show b.size / 2 ≤ fuel by omega) h
    · simp only [splitBlock, if_neg hcut] at h
      cases h
      exact hcut

/-- A block in hand does not begin where an allocated one does. -/
theorem InHand.not_allocated (hb : p.InHand b) (hwf : p.Wf) :
    b.addr ∉ p.allocatedBlocks.keys := by
  intro hmem
  obtain ⟨c, hc⟩ := Option.isSome_iff_exists.mp ((Dict.isSome_get? _ _).mpr hmem)
  have hslot : p.block? (none, b.addr) = some c := hc
  exact hb.spare.start_ne hwf.packed (held_eq_some hslot) (hwf.filed _ _ hslot).2.1

/-- A block in hand is entered among the allocated ones. -/
theorem moved_allocated (p : TensorMemoryPool) (b : MemoryBlock) :
    Moved p { p with allocatedBlocks := p.allocatedBlocks.set b.addr b } (none, b.addr)
      (some b) := by
  refine ⟨rfl, rfl, rfl, fun s => Iff.rfl, ?_⟩
  funext slot
  obtain ⟨s | s, a⟩ := slot
  · by_cases ha : a = b.addr
    · simp [ha]
    · simp [ha, Dict.get?_set_ne _ _ (Ne.symm ha)]
  · simp [block?]

/-- An allocated block is taken out. -/
theorem moved_freed (p : TensorMemoryPool) (addr : ℤ) :
    Moved p { p with allocatedBlocks := p.allocatedBlocks.erase addr } (none, addr) none := by
  refine ⟨rfl, rfl, rfl, fun s => Iff.rfl, ?_⟩
  funext slot
  obtain ⟨s | s, a⟩ := slot
  · by_cases ha : a = addr
    · simp [ha, Dict.get?_erase]
    · simp [ha, Dict.get?_erase, Ne.symm ha]
  · simp [block?]

/-- `allocate` gives out a block that is large enough and not to be cut any further, at an address
that is not in use, or raises one of its own errors. -/
theorem allocate_spec (hwf : p.Wf) (size : ℕ) :
    (∃ e, p.allocate size = .error e ∧ e ≠ .keyError) ∨
      ∃ addr p' b, p.allocate size = .ok (addr, p') ∧ p'.Wf ∧ size ≤ b.size ∧
        ¬ (roundToPowerOfTwo (max size p.minBlockSize) < b.size ∧
          p'.minBlockSize ≤ b.size / 2) ∧
        addr ∉ p.allocatedBlocks.keys ∧
        p'.allocatedBlocks = p.allocatedBlocks.set addr b := by
  unfold allocate
  split
  · exact .inl ⟨_, rfl, by simp⟩
  simp only []
  split
  · exact .inl ⟨_, rfl, by simp⟩
  have hround := le_roundToPowerOfTwo (max size p.minBlockSize)
  have hpow : ∃ k, roundToPowerOfTwo (max size p.minBlockSize) = 2 ^ k := ⟨_, rfl⟩
  generalize roundToPowerOfTwo (max size p.minBlockSize) = required at hround hpow
  rcases takeFree_spec (p.maxBlockSize + 1) hwf hpow (by omega) with
    htake | ⟨b₁, p₁, htake, hwf₁, hb₁, hle₁, halloc₁⟩
  · exact .inl ⟨_, by rw [htake]; rfl, by simp⟩
  · obtain ⟨b, p₂, hsplit, hwf₂, hb₂, hle₂, halloc₂⟩ :=
      splitBlock_spec b₁.size hwf₁ hb₁ hpow hle₁
    have hsame : p₂.allocatedBlocks = p.allocatedBlocks := halloc₂.trans halloc₁
    have hcut := splitBlock_exit b₁.size (by omega) le_rfl hsplit
    refine .inr ⟨b.addr, { p₂ with allocatedBlocks := p₂.allocatedBlocks.set b.addr b }, b, ?_,
      (moved_allocated p₂ b).put hwf₂ hb₂ ⟨rfl, by simp⟩, by omega, hcut, ?_, by simp [hsame]⟩
    · simp [htake, hsplit, bind, Except.bind, pure, Except.pure]
    · rw [← hsame]
      exact hb₂.not_allocated hwf₂

/-! ## Freeing -/

/-- A block in hand and its free buddy are one block in hand. -/
theorem InHand.join {q : TensorMemoryPool} {buddy : MemoryBlock} {offset : ℤ} (hwf : q.Wf)
    (hb : q.InHand b) (hbuddy : q.InHand buddy) (hsize : buddy.size = b.size)
    (haddr : buddy.addr = b.addr + offset) (hoffset : offset = b.size ∨ offset = -b.size) :
    q.InHand ⟨b.size * 2, min b.addr buddy.addr⟩ := by
  have hjoined : Spare q.pinned q.held ⟨min b.addr buddy.addr, b.size + b.size⟩ := by
    rcases hoffset with h | h
    · have hmin : min b.addr buddy.addr = b.addr := by omega
      have hnext : buddy.span = ⟨b.addr + b.size, b.size⟩ := by
        rw [MemoryBlock.span, hsize, haddr, h]
      rw [hmin]
      exact Spare.join hwf.packed hb.spare (hnext ▸ hbuddy.spare)
    · have hmin : min b.addr buddy.addr = buddy.addr := by omega
      have hnext : b.span = ⟨buddy.addr + buddy.size, b.size⟩ := by
        rw [MemoryBlock.span, hsize, haddr, h, neg_add_cancel_right]
      rw [hmin]
      nth_rewrite 1 [← hsize]
      exact Spare.join hwf.packed hbuddy.spare (hnext ▸ hb.spare)
  rw [← Nat.mul_two] at hjoined
  refine ⟨isSize_double hb.isSize ?_, hjoined⟩
  have hin := hjoined.within
  simp only [Span.Within, Span.stop, pinned] at hin
  omega

/-- Joining and filing a block succeeds. -/
theorem mergeBuddies_spec (depth : ℕ) (hwf : p.Wf) (hb : p.InHand b) :
    ∃ p', mergeBuddies depth b p = .ok p' ∧ p'.Wf ∧
      p'.allocatedBlocks = p.allocatedBlocks := by
  have hfile : ∀ {q : TensorMemoryPool} {c : MemoryBlock}, q.Wf → q.InHand c → ∃ q',
      q.fileFree c = .ok q' ∧ q'.Wf ∧ q'.allocatedBlocks = q.allocatedBlocks := by
    intro q c hq hc
    obtain ⟨q', hq', hmoved, halloc⟩ := fileFree_spec hq hc.isSize
    exact ⟨q', hq', hmoved.put hq hc ⟨rfl, by simp⟩, halloc⟩
  induction depth generalizing b p with
  | zero => exact hfile hwf hb
  | succ depth ih =>
    obtain ⟨list, hget, hlist⟩ := hwf.freeList_ok hb.isSize
    simp only [mergeBuddies, hlist, bind, Except.bind]
    generalize hoff : (if (b.addr - p.baseAddress) % (2 * b.size) = 0 then (b.size : ℤ)
      else -b.size) = offset
    have hoffset : offset = b.size ∨ offset = -b.size := by
      rw [← hoff]
      split <;> simp
    cases hbuddy : list.get? (b.addr + offset) with
    | none => exact hfile hwf hb
    | some buddy =>
      have hslot : p.block? (some b.size, b.addr + offset) = some buddy := by
        simp [block?, hget, hbuddy]
      obtain ⟨-, haddr, hsize⟩ := hwf.filed _ _ hslot
      have hsize : buddy.size = b.size := (hsize b.size rfl).symm
      have hslot' : p.block? (some buddy.size, buddy.addr) = some buddy := by
        rw [hsize, ← haddr]
        exact hslot
      obtain ⟨p₁, hdrop, hmoved, halloc⟩ := dropFree_spec hwf hslot'
      obtain ⟨hwf₁, hbuddy₁⟩ := hmoved.taken hwf hslot'
      have hb₁ : p₁.InHand b := by
        refine ⟨(hmoved.isSize b.size).mpr hb.isSize, ?_⟩
        rw [hmoved.held, hmoved.pinned]
        exact hb.spare.clear _
      obtain ⟨p', hmerge, hwf', halloc'⟩ :=
        ih hwf₁ (hb₁.join hwf₁ hbuddy₁ hsize haddr.symm hoffset)
      refine ⟨p', ?_, hwf', halloc'.trans halloc⟩
      simp only [hdrop]
      exact hmerge

/-- `free` takes an address that is in use back. -/
theorem free_spec (hwf : p.Wf) (h : p.allocatedBlocks.get? addr = some b) :
    ∃ p', p.free addr = .ok p' ∧ p'.Wf ∧
      p'.allocatedBlocks = p.allocatedBlocks.erase addr := by
  obtain ⟨hwf₁, hb₁⟩ := (moved_freed p addr).taken hwf h
  obtain ⟨p', hp', hwf', halloc⟩ := mergeBuddies_spec maxMergeDepth hwf₁ hb₁
  exact ⟨p', by rw [free, h]; exact hp', hwf', halloc⟩

/-! ## Storing and loading -/

/-- `store_tensor` gives the tensor a block of its own, or leaves the allocated blocks as they
were. -/
theorem storeTensor_spec (hwf : p.Wf) (t : Tensor) (viewFails : Bool) :
    (∃ e p', p.storeTensor t viewFails = (.error e, p') ∧ p'.Wf ∧
        ∀ a, p'.allocatedBlocks.get? a = p.allocatedBlocks.get? a) ∨
      ∃ addr p' b, p.storeTensor t viewFails = (.ok addr, p') ∧ p'.Wf ∧ t.size ≤ b.size ∧
        addr ∉ p.allocatedBlocks.keys ∧
        p'.allocatedBlocks = p.allocatedBlocks.set addr b := by
  unfold storeTensor
  rcases allocate_spec hwf t.size with ⟨e, h, -⟩ | ⟨addr, p₁, b, h, hwf₁, hle, -, hnew, halloc⟩
  · exact .inl ⟨e, p, by rw [h], hwf, fun _ => rfl⟩
  · have hget : p₁.allocatedBlocks.get? addr = some b := by rw [halloc, Dict.get?_set_self]
    have hfits : ¬ b.size < t.size := by omega
    have hsmall : (p₁.allocatedBlocks.get? addr).any (fun block => block.size < t.size) = false := by
      simp [hget, hle]
    simp only [h, hsmall, Bool.false_eq_true, if_false]
    cases viewFails with
    | false => exact .inr ⟨addr, p₁, b, rfl, hwf₁, hle, hnew, halloc⟩
    | true =>
      obtain ⟨p', hfree, hwf', halloc'⟩ := free_spec hwf₁ hget
      refine .inl ⟨.noTensorView, p', by simp [storeTensor.giveBack, hfree], hwf', fun a => ?_⟩
      have hnone : p.allocatedBlocks.get? addr = none := by
        rw [← Option.not_isSome_iff_eq_none, Dict.isSome_get?]
        exact hnew
      rw [halloc', halloc, Dict.get?_erase, Dict.get?_set]
      by_cases ha : addr = a
      · simp [← ha, hnone]
      · simp [ha]

/-- `load_tensor` of a tensor that fits its block. -/
theorem loadTensor_spec (t : Tensor) (h : p.allocatedBlocks.get? addr = some b)
    (hfits : t.size ≤ b.size) : p.loadTensor addr t.elementSize t.shape = .ok t := by
  have hle : ¬ b.size < t.shape.prod * t.elementSize := by
    rw [Nat.mul_comm]
    exact Nat.not_lt.mpr hfits
  simp [loadTensor, h, hle]

end RpsServe.P2p.TensorMemoryPool
