import RpsServe.Scheduler.EncoderSupply
import RpsServe.Worker.Replica
import Mathlib.Data.List.ReduceOption

/-!
# Multimodal inputs at a worker

Before the forward pass a worker runs the encoder on the items that the step schedules, keeps
their outputs under their hashes, and gathers the rows of these outputs that belong to the
scheduled tokens, with a mask over the tokens of the batch. The outputs themselves, the batches
by modality and the adapters of the encoder are left out: the cache is the set of the hashes
that it holds, and a gathered slice is a range of the rows of one output. Pruning and the positions
of M-RoPE and XD-RoPE are left out too.
-/

namespace RpsServe

/-- A slice `encoder_output[start:stop]`. -/
structure EmbedSlice where
  mmHash : MmHash
  start : ℤ
  stop : ℤ
deriving DecidableEq

/-- `mm_embeds` and `is_mm_embed`. -/
structure MmEmbeddings where
  mmEmbeds : List EmbedSlice
  isMmEmbed : List Bool
deriving DecidableEq

namespace MmFeature

/-- `is_mm_embed` after an item, whose positions from `startIdx` to `endIdx` are among the
tokens. -/
def markEmbeds (f : MmFeature) (reqStartPos startIdx endIdx : ℤ) (isMmEmbed : List Bool) :
    List Bool :=
  isMmEmbed.mapIdx fun k marked =>
    if reqStartPos + startIdx ≤ k ∧ k < reqStartPos + endIdx then
      match f.isEmbed with
      | none => true
      | some isEmbed => marked || (isEmbed[(k - reqStartPos).toNat]?).getD false
    else marked

end MmFeature

namespace ModelRunner

/-- The loop of `_gather_mm_embeddings` over the items of one request. -/
def gatherItems (encoderCache : Finset MmHash)
    (reqStartIdx numComputedTokens numScheduledTokens : ℤ) :
    List MmFeature → MmEmbeddings → Except WorkerError MmEmbeddings
  | [], g => .ok g
  | f :: rest, g =>
    if numComputedTokens + numScheduledTokens ≤ f.offset then .ok g
    else if (f.offset : ℤ) + f.length ≤ numComputedTokens then
      gatherItems encoderCache reqStartIdx numComputedTokens numScheduledTokens rest g
    else
      let startIdx := max (numComputedTokens - f.offset) 0
      let endIdx := min (numComputedTokens - f.offset + numScheduledTokens) f.length
      if ¬ startIdx < endIdx then .error .emptyRange
      else
        let currEmbeds := f.getEmbedsIndicesInRange startIdx endIdx
        if currEmbeds.1 = currEmbeds.2 then
          gatherItems encoderCache reqStartIdx numComputedTokens numScheduledTokens rest g
        else if f.identifier ∉ encoderCache then .error .encoderCacheMiss
        else
          let slice : EmbedSlice :=
            if f.isEmbed.isSome then ⟨f.identifier, currEmbeds.1, currEmbeds.2⟩
            else ⟨f.identifier, startIdx, endIdx⟩
          gatherItems encoderCache reqStartIdx numComputedTokens numScheduledTokens rest {
            mmEmbeds := g.mmEmbeds ++ [slice]
            isMmEmbed := f.markEmbeds (reqStartIdx + f.offset - numComputedTokens) startIdx endIdx
              g.isMmEmbed }

/-- One row of the batch, whose tokens begin at `reqStartIdx`. -/
def gatherRow (w : ModelRunner) (out : SchedulerOutput) (p : ℤ × MmEmbeddings)
    (row : Option ReqId) : Except WorkerError (ℤ × MmEmbeddings) :=
  match row.bind fun r => (out.numScheduledTokens.get? r).bind fun n =>
      (w.requests.get? r).map fun st => (n, st) with
  | none => .error .keyError
  | some (numScheduledTokens, st) => do
    let g ← gatherItems w.encoderCache p.1 st.numComputedTokens numScheduledTokens st.mmFeatures p.2
    .ok (p.1 + numScheduledTokens, g)

/-- `_gather_mm_embeddings`. -/
def gatherMmEmbeddings (w : ModelRunner) (out : SchedulerOutput) :
    Except WorkerError MmEmbeddings := do
  let p ← w.inputBatch.reqIds.foldlM (w.gatherRow out) (0, {
    mmEmbeds := []
    isMmEmbed := List.replicate out.totalNumScheduledTokens.toNat false })
  .ok p.2

/-- The hashes of the items of one request with these indices. -/
def itemHashes (st : CachedRequestState) (encoderInputIds : List ℕ) :
    Except WorkerError (List MmHash) :=
  encoderInputIds.mapM fun i =>
    match st.mmFeatures[i]? with
    | none => .error .indexError
    | some f => .ok f.identifier

/-- The hashes of the scheduled items of one request. -/
def reqItemHashes (w : ModelRunner) (e : ReqId × List ℕ) : Except WorkerError (List MmHash) :=
  match w.requests.get? e.1 with
  | none => .error .keyError
  | some st => itemHashes st e.2

/-- `_batch_mm_inputs_from_scheduler`: the hashes of the items to compute. -/
def batchMmInputsFromScheduler (w : ModelRunner) (out : SchedulerOutput) :
    Except WorkerError (List MmHash) := do
  let hashes ← out.scheduledEncoderInputs.entries.mapM w.reqItemHashes
  .ok hashes.flatten

/-- `_execute_mm_encoder`: the outputs of the scheduled items are kept. -/
def executeMmEncoder (w : ModelRunner) (out : SchedulerOutput) :
    Except WorkerError ModelRunner := do
  let mmHashes ← w.batchMmInputsFromScheduler out
  .ok { w with encoderCache := w.encoderCache ∪ mmHashes.toFinset }

/-- The part of `execute_model` that prepares the inputs of a multimodal model; without scheduled
tokens it ends early. -/
def prepareMultiModal (reorderBatchThreshold : Option ℤ) (obj : ReqId → Request)
    (out : SchedulerOutput) (w : ModelRunner) :
    Except WorkerError (Option MmEmbeddings × ModelRunner) := do
  let (_, w) ← w.updateStates reorderBatchThreshold obj out
  if out.totalNumScheduledTokens = 0 then .ok (none, w)
  else do
    let w ← w.executeMmEncoder out
    let g ← w.gatherMmEmbeddings out
    .ok (some g, w)

end ModelRunner

/-! ### Embeddings among the tokens -/

namespace MmFeature

variable {f : MmFeature} {c n start : ℤ}

/-- The item has an embedding at the position of the prompt. -/
def embedsAtPosition (f : MmFeature) (p : ℤ) : Bool :=
  decide (f.offset ≤ p) && f.embedsAt (p - f.offset).toNat

/-- The number of embeddings among the first positions of the placeholder range. -/
def embedsUpTo (f : MmFeature) (k : ℕ) : ℕ := (List.range k).countP f.embedsAt

/-- The number of embeddings among the `n` tokens from the position `c` on. -/
def numEmbedsIn (f : MmFeature) (c n : ℤ) : ℕ :=
  (List.range n.toNat).countP fun k : ℕ => f.embedsAtPosition (c + (k : ℤ))

/-- One position more has its embedding more. -/
theorem embedsUpTo_succ (f : MmFeature) (k : ℕ) :
    f.embedsUpTo (k + 1) = f.embedsUpTo k + if f.embedsAt k then 1 else 0 := by
  rw [embedsUpTo, List.range_succ, List.countP_append]
  simp [embedsUpTo, List.countP_singleton]

/-- Behind the placeholder range there are no embeddings. -/
theorem embedsUpTo_min (f : MmFeature) (k : ℕ) :
    f.embedsUpTo (min k f.length) = f.embedsUpTo k := by
  induction k with
  | zero => simp
  | succ k ih =>
    rw [embedsUpTo_succ]
    by_cases hk : f.embedsAt k = true
    · have hlt := lt_length_of_embedsAt hk
      rw [if_pos hk, ← ih, min_eq_left hlt, min_eq_left hlt.le, embedsUpTo_succ, if_pos hk]
    · rw [if_neg hk, ← ih]
      by_cases hlt : k < f.length
      · rw [min_eq_left hlt, min_eq_left hlt.le, embedsUpTo_succ, if_neg hk]
      · rw [min_eq_right (by omega), min_eq_right (by omega), Nat.add_zero]

/-- The embeddings before a position are those up to it. -/
theorem embedsBefore_eq {mask : List Bool} (hf : f.isEmbed = some mask) (k : ℕ) :
    embedsBefore mask k = f.embedsUpTo k := by
  have hat : ∀ k, f.embedsAt k = mask[k]?.getD false := fun k => by rw [embedsAt, hf]
  induction k with
  | zero => simp [embedsBefore, embedsUpTo]
  | succ k ih =>
    rw [embedsUpTo_succ, ← ih, hat, embedsBefore, List.take_add_one, List.count_append,
      embedsBefore]
    cases mask[k]? with
    | none => simp
    | some b => cases b <;> simp

/-- Without a mask every position has an embedding. -/
theorem embedsUpTo_unmasked (hf : f.isEmbed = none) (k : ℕ) : f.embedsUpTo k = min k f.length := by
  have hat : ∀ k, f.embedsAt k = decide (k < f.length) := fun k => by rw [embedsAt, hf]
  induction k with
  | zero => simp [embedsUpTo]
  | succ k ih =>
    rw [embedsUpTo_succ, ih, hat]
    by_cases h : k < f.length
    · rw [if_pos (by simpa using h)]
      omega
    · rw [if_neg (by simpa using h)]
      omega

/-- The embeddings among the tokens, counted from the begin of the item. -/
theorem numEmbedsIn_eq (f : MmFeature) (c : ℤ) {n : ℤ} (hn : 0 ≤ n) :
    (f.numEmbedsIn c n : ℤ) =
      f.embedsUpTo (c - f.offset + n).toNat - f.embedsUpTo (c - f.offset).toNat := by
  obtain ⟨n, rfl⟩ := Int.eq_ofNat_of_zero_le hn
  rw [numEmbedsIn, Int.toNat_natCast]
  induction n with
  | zero => simp
  | succ n ih =>
    rw [List.range_succ, List.countP_append, Nat.cast_add, ih (Int.natCast_nonneg n)]
    rw [List.countP_singleton, embedsAtPosition]
    by_cases hlt : c + n < f.offset
    · rw [decide_eq_false (by omega), Bool.false_and, if_neg (by decide)]
      rw [show (c - f.offset + ((n + 1 : ℕ) : ℤ)).toNat = 0 by omega,
        show (c - f.offset + (n : ℤ)).toNat = 0 by omega]
      simp
    · rw [decide_eq_true (by omega), Bool.true_and]
      rw [show (c - f.offset + ((n + 1 : ℕ) : ℤ)).toNat = (c + n - f.offset).toNat + 1 by omega,
        show (c - f.offset + (n : ℤ)).toNat = (c + n - f.offset).toNat by omega, embedsUpTo_succ]
      push_cast
      omega

/-- An item has embeddings in a range when it has more than none there. -/
theorem hasEmbedsIn_iff : f.HasEmbedsIn c (c + n) ↔ 0 < f.numEmbedsIn c n := by
  rw [numEmbedsIn, List.countP_pos_iff]
  constructor
  · rintro ⟨k, hk, hlo, hhi⟩
    refine ⟨(f.offset + k - c).toNat, List.mem_range.mpr (by omega), ?_⟩
    rw [embedsAtPosition, decide_eq_true (by omega), Bool.true_and]
    rwa [show (c + ((f.offset + k - c).toNat : ℤ) - f.offset).toNat = k by omega]
  · rintro ⟨k, hk, hat⟩
    rw [List.mem_range] at hk
    rw [embedsAtPosition, Bool.and_eq_true, decide_eq_true_eq] at hat
    exact ⟨_, hat.2, by omega, by omega⟩

/-- Marking an item marks the tokens at whose positions it has an embedding. -/
theorem markEmbeds_map_range (f : MmFeature) (L : ℕ) (P : ℕ → Bool) (c n start : ℤ) :
    f.markEmbeds (start + f.offset - c) (max (c - f.offset) 0) (min (c - f.offset + n) f.length)
        ((List.range L).map P) =
      (List.range L).map fun k => P k ||
        (decide (start ≤ k ∧ (k : ℤ) < start + n) && f.embedsAtPosition (c + (k - start))) := by
  refine List.ext_getElem (by simp [markEmbeds]) fun k hk _ => ?_
  have hkL : k < L := by simpa [markEmbeds] using hk
  simp only [markEmbeds, List.getElem_mapIdx, List.getElem_map, List.getElem_range]
  have hj : (k - (start + f.offset - c) : ℤ).toNat = (c + (k - start) - f.offset).toNat := by omega
  by_cases hin : start ≤ k ∧ (k : ℤ) < start + n
  · rw [decide_eq_true hin, Bool.true_and, embedsAtPosition]
    by_cases hoff : (f.offset : ℤ) ≤ c + (k - start)
    · rw [decide_eq_true hoff, Bool.true_and]
      by_cases hlen : c + (k - start) < f.offset + f.length
      · rw [if_pos (by omega), embedsAt, hj]
        cases f.isEmbed with
        | none =>
          dsimp only
          rw [decide_eq_true (by omega), Bool.or_true]
        | some mask => rfl
      · have hnone : f.embedsAt (c + (k - start) - f.offset).toNat = false := by
          by_contra hat
          have := lt_length_of_embedsAt (by simpa using hat)
          omega
        rw [if_neg (by omega), hnone, Bool.or_false]
    · rw [if_neg (by omega), decide_eq_false hoff, Bool.false_and, Bool.or_false]
  · rw [if_neg (by omega), decide_eq_false hin, Bool.false_and, Bool.or_false]

end MmFeature

/-! ### What is gathered -/

variable {cache : Finset MmHash} {c n : ℤ}

namespace MmFeature

/-- The rows of the item's output that belong to the `n` tokens from the position `c` on. -/
def sliceIn (f : MmFeature) (c n : ℤ) : EmbedSlice where
  mmHash := f.identifier
  start := f.embedsUpTo (c - f.offset).toNat
  stop := f.embedsUpTo (c - f.offset + n).toNat

/-- A range without marked positions has no embeddings. -/
theorem numEmbedsIn_eq_zero {f : MmFeature}
    (h : ∀ k : ℕ, (k : ℤ) < n → f.embedsAtPosition (c + k) = false) : f.numEmbedsIn c n = 0 := by
  rw [numEmbedsIn, List.countP_eq_zero]
  intro k hk
  rw [List.mem_range] at hk
  simp [h k (by omega)]

/-- No token is at a position of an item that ends before the tokens, or begins behind them. -/
theorem embedsAtPosition_of_outside {f : MmFeature} {p : ℤ}
    (h : p < f.offset ∨ (f.offset : ℤ) + f.length ≤ p) : f.embedsAtPosition p = false := by
  rw [embedsAtPosition]
  rcases h with h | h
  · rw [decide_eq_false (by omega), Bool.false_and]
  · have hnone : f.embedsAt (p - f.offset).toNat = false := by
      by_contra hat
      have := lt_length_of_embedsAt (by simpa using hat)
      omega
    rw [hnone, Bool.and_false]

/-- The code finds the two ends of the slice in a range. -/
theorem getEmbedsIndicesInRange_eq {f : MmFeature} (hn : 0 ≤ n)
    (hlt : max (c - f.offset) 0 < min (c - f.offset + n) (f.length : ℤ)) :
    f.getEmbedsIndicesInRange (max (c - f.offset) 0) (min (c - f.offset + n) f.length) =
      ((f.sliceIn c n).start, (f.sliceIn c n).stop) := by
  have hlo : (max (c - f.offset) 0).toNat = (c - f.offset).toNat := by omega
  have hhi : (min (c - f.offset + n) (f.length : ℤ)).toNat =
      min (c - f.offset + n).toNat f.length := by omega
  rw [getEmbedsIndicesInRange, sliceIn]
  split
  · rename_i hnone
    rw [embedsUpTo_unmasked hnone, embedsUpTo_unmasked hnone, Prod.mk.injEq]
    dsimp only
    constructor <;> omega
  · rename_i mask hmask
    rw [embedsBefore_eq hmask, embedsBefore_eq hmask, hlo, hhi, embedsUpTo_min]

end MmFeature

/-- `mm_embeds_req`: the slices for the tokens of one request. -/
def gatheredSlices (items : List MmFeature) (c n : ℤ) : List EmbedSlice :=
  (items.filter fun f => f.numEmbedsIn c n ≠ 0).map fun f => f.sliceIn c n

/-- The tokens of one request that are replaced by embeddings. -/
def embedMask (items : List MmFeature) (c n : ℤ) : List Bool :=
  (List.range n.toNat).map fun k : ℕ => items.any fun f => f.embedsAtPosition (c + (k : ℤ))

/-! ### One request -/

section Items

variable {items rest : List MmFeature} {f : MmFeature} {start : ℤ}

/-- A range without embeddings marks none of its positions. -/
theorem MmFeature.embedsAtPosition_of_numEmbedsIn (h : f.numEmbedsIn c n = 0) {k : ℕ}
    (hlo : start ≤ k) (hhi : (k : ℤ) < start + n) :
    f.embedsAtPosition (c + (k - start)) = false := by
  rw [numEmbedsIn, List.countP_eq_zero] at h
  have hk := h (k - start).toNat (List.mem_range.mpr (by omega))
  rw [show c + ((k - start).toNat : ℤ) = c + (k - start) by omega] at hk
  simpa using hk

/-- The rows between the computed positions are the slice, with and without a mask. -/
theorem MmFeature.slice_eq (hn : 0 ≤ n)
    (hlt : max (c - f.offset) 0 < min (c - f.offset + n) (f.length : ℤ)) :
    (if f.isEmbed.isSome then
      (⟨f.identifier, (f.sliceIn c n).start, (f.sliceIn c n).stop⟩ : EmbedSlice)
      else ⟨f.identifier, max (c - f.offset) 0, min (c - f.offset + n) f.length⟩) =
        f.sliceIn c n := by
  have hindices := getEmbedsIndicesInRange_eq hn hlt
  split
  · rfl
  · rename_i hsome
    have hnone : f.isEmbed = none := by simpa using hsome
    rw [getEmbedsIndicesInRange, hnone, Prod.mk.injEq] at hindices
    rw [hindices.1, hindices.2]
    rfl

/-- Items without embeddings in the range have no slices. -/
theorem gatheredSlices_of_none (h : ∀ f ∈ items, f.numEmbedsIn c n = 0) :
    gatheredSlices items c n = [] := by
  rw [gatheredSlices, List.map_eq_nil_iff, List.filter_eq_nil_iff]
  intro f hf
  simp [h f hf]

/-- An item without embeddings in the range adds no slice. -/
theorem gatheredSlices_cons_of_none (h : f.numEmbedsIn c n = 0) :
    gatheredSlices (f :: rest) c n = gatheredSlices rest c n := by
  simp [gatheredSlices, h]

/-- An item with embeddings in the range adds its slice. -/
theorem gatheredSlices_cons (h : f.numEmbedsIn c n ≠ 0) :
    gatheredSlices (f :: rest) c n = f.sliceIn c n :: gatheredSlices rest c n := by
  simp [gatheredSlices, h]

/-- The mask over a batch when the items of a request, whose tokens begin at `start`, are added. -/
def markedWith (items : List MmFeature) (start c n : ℤ) (P : ℕ → Bool) (k : ℕ) : Bool :=
  P k || (decide (start ≤ k ∧ (k : ℤ) < start + n) &&
    items.any fun f => f.embedsAtPosition (c + (k - start)))

/-- Items without embeddings in the range mark nothing. -/
theorem markedWith_of_none (h : ∀ f ∈ items, f.numEmbedsIn c n = 0) (P : ℕ → Bool) :
    markedWith items start c n P = P := by
  funext k
  rw [markedWith]
  by_cases hin : start ≤ k ∧ (k : ℤ) < start + n
  · have hnone : (items.any fun f => f.embedsAtPosition (c + (k - start))) = false := by
      rw [List.any_eq_false]
      intro f hf
      rw [MmFeature.embedsAtPosition_of_numEmbedsIn (h f hf) hin.1 hin.2]
      exact Bool.false_ne_true
    rw [hnone, Bool.and_false, Bool.or_false]
  · rw [decide_eq_false hin, Bool.false_and, Bool.or_false]

/-- The items of a request are added one after the other. -/
theorem markedWith_cons (f : MmFeature) (rest : List MmFeature) (P : ℕ → Bool) :
    markedWith (f :: rest) start c n P =
      markedWith rest start c n (markedWith [f] start c n P) := by
  funext k
  simp only [markedWith, List.any_cons, List.any_nil, Bool.or_false]
  rw [Bool.and_or_distrib_left, Bool.or_assoc]

/-- The loop over the items of one request gathers what has embeddings among its tokens. -/
theorem ModelRunner.gatherItems_ok (hn : 0 < n)
    (hsorted : items.Pairwise fun f g => f.offset ≤ g.offset) (hlength : ∀ f ∈ items, 0 < f.length)
    (hcache : ∀ f ∈ items, f.HasEmbedsIn c (c + n) → f.identifier ∈ cache) (L : ℕ) (P : ℕ → Bool)
    (slices : List EmbedSlice) :
    gatherItems cache start c n items ⟨slices, (List.range L).map P⟩ =
      .ok ⟨slices ++ gatheredSlices items c n,
        (List.range L).map (markedWith items start c n P)⟩ := by
  induction items generalizing P slices with
  | nil =>
    rw [gatherItems, markedWith_of_none fun f hf => absurd hf List.not_mem_nil]
    simp [gatheredSlices]
  | cons f rest ih =>
    obtain ⟨hhead, htail⟩ := List.pairwise_cons.mp hsorted
    have hrest := ih htail (fun g hg => hlength g (List.mem_cons_of_mem _ hg))
      fun g hg => hcache g (List.mem_cons_of_mem _ hg)
    have hskip : f.numEmbedsIn c n = 0 → gatherItems cache start c n rest
        ⟨slices, (List.range L).map P⟩ = .ok ⟨slices ++ gatheredSlices (f :: rest) c n,
          (List.range L).map (markedWith (f :: rest) start c n P)⟩ := by
      intro hzero
      have hone : ∀ g ∈ [f], g.numEmbedsIn c n = 0 := fun g hg => by
        rwa [List.mem_singleton.mp hg]
      rw [hrest, gatheredSlices_cons_of_none hzero, markedWith_cons, markedWith_of_none hone]
    rw [gatherItems]
    split
    · rename_i hbehind
      have hzero : ∀ g ∈ f :: rest, g.numEmbedsIn c n = 0 := by
        intro g hg
        have hle : f.offset ≤ g.offset := by
          rcases List.mem_cons.mp hg with rfl | hg
          exacts [le_rfl, hhead g hg]
        exact MmFeature.numEmbedsIn_eq_zero fun k hk =>
          MmFeature.embedsAtPosition_of_outside (.inl (by omega))
      rw [gatheredSlices_of_none hzero, List.append_nil, markedWith_of_none hzero]
    · split
      · rename_i hbefore
        exact hskip (MmFeature.numEmbedsIn_eq_zero fun k hk =>
          MmFeature.embedsAtPosition_of_outside (.inr (by omega)))
      · have hpos := hlength f List.mem_cons_self
        have hlt : max (c - f.offset) 0 < min (c - f.offset + n) (f.length : ℤ) := by omega
        have hcount := MmFeature.numEmbedsIn_eq f c hn.le
        dsimp only
        rw [if_neg (not_not_intro hlt), MmFeature.getEmbedsIndicesInRange_eq hn.le hlt]
        dsimp only
        split
        · rename_i heq
          dsimp only [MmFeature.sliceIn] at heq
          exact hskip (by omega)
        · rename_i hne
          have hsome : f.numEmbedsIn c n ≠ 0 := by
            dsimp only [MmFeature.sliceIn] at hne
            omega
          have hmem : f.identifier ∈ cache := hcache f List.mem_cons_self
            (MmFeature.hasEmbedsIn_iff.mpr (Nat.pos_of_ne_zero hsome))
          have hmark : (fun k : ℕ => P k || (decide (start ≤ k ∧ (k : ℤ) < start + n) &&
              f.embedsAtPosition (c + (k - start)))) = markedWith [f] start c n P := by
            funext k
            simp only [markedWith, List.any_cons, List.any_nil, Bool.or_false]
          rw [if_neg (not_not_intro hmem), MmFeature.markEmbeds_map_range, hmark, hrest,
            MmFeature.slice_eq hn.le hlt, gatheredSlices_cons hsome, List.append_assoc,
            List.singleton_append, ← markedWith_cons]

end Items

/-! ### The rows that stand for the tokens -/

/-- The rows of a slice. -/
def EmbedSlice.rows (e : EmbedSlice) : List (MmHash × ℤ) :=
  (List.range (e.stop - e.start).toNat).map fun k : ℕ => (e.mmHash, e.start + (k : ℤ))

/-- The row of an encoder output that stands for the token at the position of the prompt. -/
def embedOf (items : List MmFeature) (p : ℤ) : Option (MmHash × ℤ) :=
  (items.find? fun f => f.embedsAtPosition p).map fun f =>
    (f.identifier, (f.embedsUpTo (p - f.offset).toNat : ℤ))

/-- The rows that stand for the `n` tokens from the position `c` on. -/
def tokenEmbeds (items : List MmFeature) (c n : ℤ) : List (Option (MmHash × ℤ)) :=
  (List.range n.toNat).map fun k : ℕ => embedOf items (c + (k : ℤ))

/-- A row stands for a position when an item marks it. -/
theorem isSome_embedOf (items : List MmFeature) (p : ℤ) :
    (embedOf items p).isSome = items.any fun f => f.embedsAtPosition p := by
  rw [embedOf, Option.isSome_map, Bool.eq_iff_iff, List.find?_isSome, List.any_eq_true]

/-- The mask marks the tokens for which a row stands. -/
theorem embedMask_eq (items : List MmFeature) (c n : ℤ) :
    embedMask items c n = (tokenEmbeds items c n).map Option.isSome := by
  rw [embedMask, tokenEmbeds, List.map_map]
  exact List.map_congr_left fun k _ => (isSome_embedOf items _).symm

/-- The first item that marks a position gives its row. -/
theorem embedOf_cons (f : MmFeature) (rest : List MmFeature) (p : ℤ) :
    embedOf (f :: rest) p = (embedOf [f] p).or (embedOf rest p) := by
  simp only [embedOf, List.find?_cons, List.find?_nil]
  cases f.embedsAtPosition p <;> rfl

/-- The row that an item gives for a position. -/
theorem embedOf_singleton (f : MmFeature) (p : ℤ) : embedOf [f] p =
    if f.embedsAtPosition p then some (f.identifier, (f.embedsUpTo (p - f.offset).toNat : ℤ))
    else none := by
  simp only [embedOf, List.find?_cons, List.find?_nil]
  cases f.embedsAtPosition p <;> rfl

/-- The rows that stand for tokens are those of the marked positions. -/
theorem reduceOption_tokenEmbeds (items : List MmFeature) (c n : ℤ) :
    (tokenEmbeds items c n).reduceOption =
      (List.range n.toNat).filterMap fun k : ℕ => embedOf items (c + (k : ℤ)) := by
  rw [tokenEmbeds, List.reduceOption, List.filterMap_map]
  rfl

/-- A slice has the rows of its item that stand for the tokens. -/
theorem MmFeature.rows_sliceIn (f : MmFeature) (c : ℤ) {n : ℤ} (hn : 0 ≤ n) :
    (f.sliceIn c n).rows = (List.range n.toNat).filterMap fun k : ℕ => embedOf [f] (c + k) := by
  obtain ⟨n, rfl⟩ := Int.eq_ofNat_of_zero_le hn
  rw [Int.toNat_natCast]
  induction n with
  | zero => simp [EmbedSlice.rows, sliceIn]
  | succ n ih =>
    have hcount := numEmbedsIn_eq f c (Int.natCast_nonneg n)
    rw [List.range_succ, List.filterMap_append, ← ih (Int.natCast_nonneg n), List.filterMap_cons,
      List.filterMap_nil, embedOf_singleton, embedsAtPosition]
    by_cases hlt : c + n < f.offset
    · have hstop : (c - f.offset + ((n + 1 : ℕ) : ℤ)).toNat = (c - f.offset + (n : ℤ)).toNat := by
        omega
      rw [decide_eq_false (by omega), Bool.false_and, if_neg (by decide), List.append_nil, sliceIn,
        hstop]
      rfl
    · have hstop : (c - f.offset + ((n + 1 : ℕ) : ℤ)).toNat =
          (c - f.offset + (n : ℤ)).toNat + 1 := by omega
      have hat : (c + (n : ℤ) - f.offset).toNat = (c - f.offset + (n : ℤ)).toNat := by omega
      rw [decide_eq_true (by omega), Bool.true_and, hat]
      by_cases hemb : f.embedsAt (c - f.offset + (n : ℤ)).toNat = true
      · have hlen : (((f.embedsUpTo (c - f.offset + (n : ℤ)).toNat + 1 : ℕ) : ℤ) -
            f.embedsUpTo (c - f.offset).toNat).toNat =
            ((f.embedsUpTo (c - f.offset + (n : ℤ)).toNat : ℤ) -
              f.embedsUpTo (c - f.offset).toNat).toNat + 1 := by
          omega
        simp only [EmbedSlice.rows, sliceIn, hstop, embedsUpTo_succ, if_pos hemb]
        rw [hlen, List.range_succ, List.map_append, List.map_singleton]
        congr 3
        omega
      · simp only [EmbedSlice.rows, sliceIn, hstop, embedsUpTo_succ, if_neg hemb, Nat.add_zero,
          List.append_nil]

/-- Where what `p` finds stands before what `q` finds. -/
theorem filterMap_or {α β : Type*} {l : List α} {p q : α → Option β}
    (hboth : ∀ a ∈ l, (p a).isSome → q a = none)
    (h : l.Pairwise fun a b => (q a).isSome → p b = none) :
    (l.filterMap fun a => (p a).or (q a)) = l.filterMap p ++ l.filterMap q := by
  induction l with
  | nil => rfl
  | cons a l ih =>
    obtain ⟨hhead, htail⟩ := List.pairwise_cons.mp h
    have hrest := ih (fun b hb => hboth b (List.mem_cons_of_mem _ hb)) htail
    have ha := hboth a List.mem_cons_self
    simp only [List.filterMap_cons]
    cases hp : p a with
    | some v =>
      rw [hp] at ha
      rw [ha rfl, hrest]
      rfl
    | none =>
      cases hq : q a with
      | none => exact hrest
      | some v =>
        have hnil : l.filterMap p = [] := List.filterMap_eq_nil_iff.mpr fun b hb =>
          hhead b hb (by rw [hq]; rfl)
        rw [hnil, List.nil_append] at hrest ⊢
        rw [hrest]
        rfl

/-- The placeholder ranges of the items stand behind each other. -/
def Apart (items : List MmFeature) : Prop :=
  items.Pairwise fun f g => f.offset + f.length ≤ g.offset

instance : DecidablePred Apart := fun _ => inferInstanceAs (Decidable (List.Pairwise _ _))

/-- Where the items stand apart, the gathered rows are those that stand for the tokens, in the
order of the tokens. -/
theorem rows_gatheredSlices {items : List MmFeature} (hn : 0 ≤ n) (h : Apart items) :
    (gatheredSlices items c n).flatMap EmbedSlice.rows = (tokenEmbeds items c n).reduceOption := by
  induction items with
  | nil =>
    rw [reduceOption_tokenEmbeds]
    simp [gatheredSlices, embedOf]
  | cons f rest ih =>
    obtain ⟨hhead, htail⟩ := List.pairwise_cons.mp h
    have hcons : (gatheredSlices (f :: rest) c n).flatMap EmbedSlice.rows =
        (f.sliceIn c n).rows ++ (gatheredSlices rest c n).flatMap EmbedSlice.rows := by
      by_cases hzero : f.numEmbedsIn c n = 0
      · have hempty : (f.sliceIn c n).rows = [] := by
          have hcount := MmFeature.numEmbedsIn_eq f c hn
          have hsame : ((f.sliceIn c n).stop - (f.sliceIn c n).start).toNat = 0 := by
            dsimp only [MmFeature.sliceIn]
            omega
          rw [EmbedSlice.rows, hsame]
          rfl
        rw [hempty]
        simp [gatheredSlices, hzero]
      · simp [gatheredSlices, hzero]
    have hbehind : ∀ k : ℕ, (embedOf rest (c + k)).isSome = true →
        (f.offset : ℤ) + f.length ≤ c + k := by
      intro k hk
      rw [isSome_embedOf, List.any_eq_true] at hk
      obtain ⟨g, hg, hat⟩ := hk
      have hbefore := hhead g hg
      by_contra hge
      rw [MmFeature.embedsAtPosition_of_outside (.inl (by omega))] at hat
      cases hat
    have hnone : ∀ k : ℕ, (f.offset : ℤ) + f.length ≤ c + k → embedOf [f] (c + k) = none := by
      intro k hk
      rw [embedOf_singleton, MmFeature.embedsAtPosition_of_outside (.inr hk)]
      rfl
    rw [hcons, ih htail, MmFeature.rows_sliceIn f c hn]
    simp only [reduceOption_tokenEmbeds]
    rw [← filterMap_or (fun k _ hk => ?_) (List.pairwise_lt_range.imp fun hlt hk => ?_)]
    · exact List.filterMap_congr fun k _ => (embedOf_cons f rest _).symm
    · by_contra hsome
      rw [hnone k (hbehind k (Option.isSome_iff_ne_none.mpr hsome))] at hk
      cases hk
    · have := hbehind _ hk
      exact hnone _ (by omega)

/-! ### The batch -/

/-- The mask has one entry for each token. -/
theorem length_embedMask (items : List MmFeature) (c n : ℤ) :
    (embedMask items c n).length = n.toNat := by
  rw [embedMask, List.length_map, List.length_range]

/-- What the rows of a batch gather, when `items`, `computed` and `scheduled` are those of the
requests. -/
def gatheredRows (items : ReqId → List MmFeature) (computed scheduled : ReqId → ℤ)
    (rows : List ReqId) : MmEmbeddings where
  mmEmbeds := rows.flatMap fun r => gatheredSlices (items r) (computed r) (scheduled r)
  isMmEmbed := rows.flatMap fun r => embedMask (items r) (computed r) (scheduled r)

/-- The mask covers the scheduled tokens. -/
theorem length_gatheredRows (items : ReqId → List MmFeature) (computed : ReqId → ℤ)
    {scheduled : ReqId → ℤ} {rows : List ReqId} (h : ∀ r ∈ rows, 0 ≤ scheduled r) :
    ((gatheredRows items computed scheduled rows).isMmEmbed.length : ℤ) =
      (rows.map scheduled).sum := by
  induction rows with
  | nil => rfl
  | cons r rest ih =>
    have hrest := ih fun x hx => h x (List.mem_cons_of_mem _ hx)
    have hr := h r List.mem_cons_self
    simp only [gatheredRows, List.flatMap_cons, List.length_append, List.map_cons,
      List.sum_cons] at hrest ⊢
    rw [length_embedMask, Nat.cast_add, hrest]
    omega

/-- What stands for the tokens of a batch. -/
def batchEmbeds (items : ReqId → List MmFeature) (computed scheduled : ReqId → ℤ)
    (rows : List ReqId) : List (Option (MmHash × ℤ)) :=
  rows.flatMap fun r => tokenEmbeds (items r) (computed r) (scheduled r)

/-- The mask of the batch is that of its rows one after the other. -/
theorem isMmEmbed_gatheredRows (items : ReqId → List MmFeature) (computed scheduled : ReqId → ℤ)
    (rows : List ReqId) : (gatheredRows items computed scheduled rows).isMmEmbed =
      (batchEmbeds items computed scheduled rows).map Option.isSome := by
  simp only [gatheredRows, batchEmbeds, embedMask_eq, List.map_flatMap]

/-- Where the items stand apart, the rows are gathered in the order of the tokens. -/
theorem rows_gatheredRows {items : ReqId → List MmFeature} {computed scheduled : ReqId → ℤ}
    {rows : List ReqId} (h : ∀ r ∈ rows, 0 ≤ scheduled r) (hapart : ∀ r ∈ rows, Apart (items r)) :
    (gatheredRows items computed scheduled rows).mmEmbeds.flatMap EmbedSlice.rows =
      (batchEmbeds items computed scheduled rows).reduceOption := by
  induction rows with
  | nil => rfl
  | cons r rest ih =>
    have hrest := ih (fun x hx => h x (List.mem_cons_of_mem _ hx))
      fun x hx => hapart x (List.mem_cons_of_mem _ hx)
    simp only [gatheredRows, batchEmbeds, List.flatMap_cons, List.flatMap_append,
      List.reduceOption, List.filterMap_append] at hrest ⊢
    rw [hrest, rows_gatheredSlices (h r List.mem_cons_self) (hapart r List.mem_cons_self)]
    rfl

namespace ModelRunner

variable {w : ModelRunner} {out : SchedulerOutput} {items : ReqId → List MmFeature}
  {computed scheduled : ReqId → ℤ} {r : ReqId}

/-- Everything that gathering reads of a row is there. -/
structure RowReady (w : ModelRunner) (out : SchedulerOutput) (items : List MmFeature)
    (computed scheduled : ℤ) (r : ReqId) : Prop where
  granted : out.numScheduledTokens.get? r = some scheduled
  pos : 0 < scheduled
  state : ∃ st, w.requests.get? r = some st ∧ st.mmFeatures = items ∧
    st.numComputedTokens = computed
  sorted : items.Pairwise fun f g => f.offset ≤ g.offset
  length : ∀ f ∈ items, 0 < f.length
  cached : ∀ f ∈ items, f.HasEmbedsIn computed (computed + scheduled) →
    f.identifier ∈ w.encoderCache

/-- One row, behind the rows whose masks are `done`. -/
theorem gatherRow_ok (h : RowReady w out (items r) (computed r) (scheduled r) r)
    (slices : List EmbedSlice) (L : ℕ) (done : List Bool) :
    w.gatherRow out (done.length, ⟨slices, (List.range L).map fun k => done[k]?.getD false⟩)
        (some r) =
      .ok (((done ++ embedMask (items r) (computed r) (scheduled r)).length : ℤ),
        ⟨slices ++ gatheredSlices (items r) (computed r) (scheduled r), (List.range L).map fun k =>
          (done ++ embedMask (items r) (computed r) (scheduled r))[k]?.getD false⟩) := by
  obtain ⟨st, hst, hitems, hcomputed⟩ := h.state
  have hpos := h.pos
  rw [gatherRow]
  simp only [Option.bind_some, h.granted, hst, Option.map_some]
  rw [hcomputed, hitems, gatherItems_ok hpos h.sorted h.length h.cached]
  refine congrArg Except.ok (Prod.ext ?_ ?_)
  · rw [List.length_append, length_embedMask]
    dsimp only
    omega
  · dsimp only
    congr 1
    refine List.map_congr_left fun k _ => ?_
    rw [markedWith]
    by_cases hk : k < done.length
    · rw [List.getElem?_append_left hk, decide_eq_false (by omega), Bool.false_and, Bool.or_false]
    · rw [List.getElem?_append_right (by omega), List.getElem?_eq_none (by omega),
        Option.getD_none, Bool.false_or]
      by_cases hin : k - done.length < (scheduled r).toNat
      · rw [decide_eq_true (by omega), Bool.true_and, embedMask, List.getElem?_map,
          List.getElem?_range hin, Option.map_some, Option.getD_some]
        congr 1
        funext f
        congr 1
        omega
      · rw [decide_eq_false (by omega), Bool.false_and, List.getElem?_eq_none
          (by rw [length_embedMask]; omega), Option.getD_none]

/-- The loop over the rows. -/
theorem gatherRows_ok {rows : List ReqId}
    (h : ∀ r ∈ rows, RowReady w out (items r) (computed r) (scheduled r) r)
    (slices : List EmbedSlice) (L : ℕ) (done : List Bool) :
    (rows.map some).foldlM (w.gatherRow out)
        ((done.length : ℤ), ⟨slices, (List.range L).map fun k => done[k]?.getD false⟩) =
      .ok (((done ++ (gatheredRows items computed scheduled rows).isMmEmbed).length : ℤ),
        ⟨slices ++ (gatheredRows items computed scheduled rows).mmEmbeds,
          (List.range L).map fun k =>
            (done ++ (gatheredRows items computed scheduled rows).isMmEmbed)[k]?.getD false⟩) := by
  induction rows generalizing slices done with
  | nil =>
    simp only [gatheredRows, List.map_nil, List.flatMap_nil, List.append_nil]
    rfl
  | cons r rest ih =>
    rw [List.map_cons, List.foldlM_cons, gatherRow_ok (h r List.mem_cons_self)]
    refine (ih (fun x hx => h x (List.mem_cons_of_mem _ hx)) _ _).trans ?_
    simp only [gatheredRows, List.flatMap_cons, List.append_assoc]

/-- Reading a list at all its indices gives it back. -/
theorem map_range_getElem? (l : List Bool) :
    ((List.range l.length).map fun k => l[k]?.getD false) = l :=
  List.ext_getElem (by simp) fun k hk _ => by
    simp only [List.getElem_map, List.getElem_range]
    rw [List.getElem?_eq_getElem (by simpa using hk), Option.getD_some]

/-- When all rows are ready, gathering does not fail. It yields the slices with the embeddings of
the scheduled tokens, row after row, and marks these tokens. -/
theorem gatherMmEmbeddings_ok {rows : List ReqId} (hrows : w.inputBatch.reqIds = rows.map some)
    (h : ∀ r ∈ rows, RowReady w out (items r) (computed r) (scheduled r) r)
    (htotal : out.totalNumScheduledTokens = (rows.map scheduled).sum) :
    w.gatherMmEmbeddings out = .ok (gatheredRows items computed scheduled rows) := by
  have hlength : (gatheredRows items computed scheduled rows).isMmEmbed.length =
      out.totalNumScheduledTokens.toNat := by
    have hsum := length_gatheredRows items computed fun r hr => (h r hr).pos.le
    rw [← htotal] at hsum
    omega
  have hstart : List.replicate out.totalNumScheduledTokens.toNat false =
      (List.range out.totalNumScheduledTokens.toNat).map fun k =>
        ([] : List Bool)[k]?.getD false := by
    refine (List.eq_replicate_iff.mpr ⟨by simp, fun b hb => ?_⟩).symm
    obtain ⟨k, -, rfl⟩ := List.mem_map.mp hb
    rfl
  rw [gatherMmEmbeddings, hstart, hrows]
  refine bind_eq_ok.mpr ⟨_, gatherRows_ok h [] _ [], ?_⟩
  simp only [List.nil_append]
  rw [← hlength, map_range_getElem?]

end ModelRunner

end RpsServe
