import RpsServe.Worker.Condense
import RpsServe.Lib.Cycles
import RpsServe.Lib.SortBy

/-!
# Splitting the batch into decodes and prefills

Some attention backends want the requests that decode in front and those that begin their
prefill at the end. `reorder_batch_to_split_decodes_and_prefills` finds the rows whose
region is not the one that belongs there, pairs them off in the order of their regions, and
follows the cycles of that pairing with swaps.
-/

namespace RpsServe

/-- The region of a request: decode, short extend, long extend, prefill. -/
def reqRegion (decodeThreshold numScheduledTokens : ℤ) (row : BatchRow) : ℕ :=
  if 0 < row.numComputedTokens then
    if numScheduledTokens ≤ decodeThreshold then
      if row.numPromptTokens ≤ row.numComputedTokens then 0 else 1
    else 2
  else 3

/-- `target_regions`: as many rows of each region, one region after the other. -/
def targetRegions (reqRegions : List ℕ) : List ℕ :=
  [0, 1, 2, 3].flatMap fun region => List.replicate (reqRegions.count region) region

/-- `orig_indices`: the rows that need a swap. -/
def origIndices (reqRegions : List ℕ) : List ℕ :=
  (List.range reqRegions.length).filter fun i => reqRegions[i]? ≠ (targetRegions reqRegions)[i]?

/-- `src_indices`: these rows in the order of their regions. -/
def srcIndices (reqRegions : List ℕ) : List ℕ :=
  sortBy (fun i => (reqRegions[i]?).getD 0) (origIndices reqRegions)

/-- `src_dest_map`. -/
def srcDestMap (reqRegions : List ℕ) : Dict ℕ ℕ :=
  .ofPairs ((srcIndices reqRegions).zip (origIndices reqRegions))

namespace InputBatch

/-- `req_regions`: the region of every row. -/
def reqRegions (b : InputBatch) (decodeThreshold : ℤ) (numScheduledTokens : Dict ReqId ℤ) :
    Except WorkerError (List ℕ) :=
  (List.range b.reqIds.length).mapM fun i =>
    match (b.reqAt i).bind numScheduledTokens.get? with
    | none => .error .keyError
    | some n => .ok (reqRegion decodeThreshold n (b.row i))

/-- `reorder_batch_to_split_decodes_and_prefills`. -/
def reorderBatchToSplitDecodesAndPrefills (b : InputBatch) (decodeThreshold : ℤ)
    (numScheduledTokens : Dict ReqId ℤ) : Except WorkerError InputBatch := do
  let regions ← b.reqRegions decodeThreshold numScheduledTokens
  followCycles swapStates .diverges (srcDestMap regions) b

end InputBatch

/-! ### The pairing of the rows -/

variable {regions : List ℕ}

/-- The regions in the wanted order ascend. -/
theorem targetRegions_pairwise (regions : List ℕ) : (targetRegions regions).Pairwise (· ≤ ·) := by
  simp only [targetRegions, List.flatMap_cons, List.flatMap_nil, List.append_nil,
    List.pairwise_append, List.pairwise_replicate, List.mem_append, List.mem_replicate]
  refine ⟨by simp, ⟨by simp, ⟨by simp, by simp, ?_⟩, ?_⟩, ?_⟩ <;> omega

/-- The wanted order has the regions the batch has. -/
theorem targetRegions_perm (h : ∀ x ∈ regions, x ≤ 3) : (targetRegions regions).Perm regions := by
  rw [List.perm_iff_count]
  intro v
  simp only [targetRegions, List.flatMap_cons, List.flatMap_nil, List.append_nil, List.count_append,
    List.count_replicate]
  by_cases hv : v ≤ 3
  · obtain rfl | rfl | rfl | rfl : v = 0 ∨ v = 1 ∨ v = 2 ∨ v = 3 := by omega
    all_goals simp
  · have hzero : regions.count v = 0 := List.count_eq_zero.mpr fun hmem => hv (h v hmem)
    rw [hzero]
    have : v ≠ 0 ∧ v ≠ 1 ∧ v ≠ 2 ∧ v ≠ 3 := by omega
    simp [this.1.symm, this.2.1.symm, this.2.2.1.symm, this.2.2.2.symm]

/-- The rows out of place are listed once. -/
theorem origIndices_nodup (regions : List ℕ) : (origIndices regions).Nodup :=
  List.nodup_range.filter _

/-- The sources are the rows out of place in another order. -/
theorem srcIndices_perm (regions : List ℕ) : (srcIndices regions).Perm (origIndices regions) :=
  sortBy_perm _ _

/-- The map sends the sources to the rows out of place in turn. -/
theorem keys_srcDestMap (regions : List ℕ) :
    (srcDestMap regions).entries = (srcIndices regions).zip (origIndices regions) ∧
      (srcDestMap regions).keys = srcIndices regions := by
  have hfst : ((srcIndices regions).zip (origIndices regions)).map Prod.fst = srcIndices regions :=
    List.map_fst_zip (srcIndices_perm regions).length_eq.le
  have hentries := Dict.entries_ofPairs (l := (srcIndices regions).zip (origIndices regions))
    (by rw [hfst]; exact (srcIndices_perm regions).nodup_iff.mpr (origIndices_nodup regions))
  exact ⟨hentries, by rw [Dict.keys, srcDestMap, hentries, hfst]⟩

/-- The `j`-th source goes to the `j`-th of the rows. -/
theorem destination_srcDestMap {j : ℕ} (hj : j < (srcIndices regions).length)
    (hj' : j < (origIndices regions).length) :
    destination (srcDestMap regions) (srcIndices regions)[j] = (origIndices regions)[j] := by
  have hmem : ((srcIndices regions)[j], (origIndices regions)[j]) ∈ (srcDestMap regions).entries := by
    rw [(keys_srcDestMap regions).1, List.mem_iff_getElem]
    exact ⟨j, by rw [List.length_zip]; omega, List.getElem_zip⟩
  rw [destination, Dict.get?_of_mem_entries hmem]
  rfl

/-- The pairing permutes the rows. -/
theorem destination_injective (regions : List ℕ) :
    Function.Injective (destination (srcDestMap regions)) := by
  have hperm := srcIndices_perm regions
  have hlen := hperm.length_eq
  have hin : ∀ a, a ∈ srcIndices regions → ∃ (j : ℕ) (hj : j < (srcIndices regions).length)
      (hj' : j < (origIndices regions).length), (srcIndices regions)[j] = a ∧
        destination (srcDestMap regions) a = (origIndices regions)[j] := by
    intro a ha
    obtain ⟨j, hj, rfl⟩ := List.mem_iff_getElem.mp ha
    exact ⟨j, hj, hlen ▸ hj, rfl, destination_srcDestMap hj (hlen ▸ hj)⟩
  have hout : ∀ a, a ∉ srcIndices regions → destination (srcDestMap regions) a = a := by
    intro a ha
    exact destination_of_notMem (by rwa [(keys_srcDestMap regions).2])
  intro a c hac
  by_cases ha : a ∈ srcIndices regions <;> by_cases hc : c ∈ srcIndices regions
  · obtain ⟨j, hj, hj', rfl, haj⟩ := hin a ha
    obtain ⟨k, hk, hk', rfl, hck⟩ := hin c hc
    rw [haj, hck] at hac
    have : j = k := (origIndices_nodup regions).getElem_inj_iff.mp hac
    subst this
    rfl
  · obtain ⟨j, hj, hj', -, haj⟩ := hin a ha
    rw [haj, hout c hc] at hac
    exact absurd (hperm.mem_iff.mpr (hac ▸ List.getElem_mem hj')) hc
  · obtain ⟨k, hk, hk', -, hck⟩ := hin c hc
    rw [hck, hout a ha] at hac
    exact absurd (hperm.mem_iff.mpr (hac ▸ List.getElem_mem hk')) ha
  · rwa [hout a ha, hout c hc] at hac

/-- On the rows that need a swap, the regions and the targets are the same up to order. -/
theorem origIndices_map_perm (h : ∀ x ∈ regions, x ≤ 3) :
    ((origIndices regions).map fun i => (regions[i]?).getD 0).Perm
      ((origIndices regions).map fun i => ((targetRegions regions)[i]?).getD 0) := by
  have hlen := (targetRegions_perm h).length_eq
  have hself : ∀ l : List ℕ, l = (List.range l.length).map fun i => (l[i]?).getD 0 := by
    intro l
    refine List.ext_getElem (by simp) fun i hi _ => ?_
    simp [List.getElem?_eq_getElem hi]
  have hall : ((List.range regions.length).map fun i => ((targetRegions regions)[i]?).getD 0).Perm
      ((List.range regions.length).map fun i => (regions[i]?).getD 0) := by
    have htarget := hself (targetRegions regions)
    rw [hlen] at htarget
    rw [← hself regions, ← htarget]
    exact targetRegions_perm h
  rw [List.perm_iff_count] at hall ⊢
  intro v
  have hsplit : ∀ f : ℕ → ℕ, ((List.range regions.length).map f).count v =
      ((origIndices regions).map f).count v +
        (((List.range regions.length).filter fun i =>
          regions[i]? = (targetRegions regions)[i]?).map f).count v := by
    intro f
    simp only [List.count, List.countP_map, origIndices, List.countP_filter]
    rw [List.countP_eq_countP_filter_add (List.range regions.length) _
      fun i => decide (regions[i]? ≠ (targetRegions regions)[i]?), List.countP_filter,
      List.countP_filter]
    simp
  have hkept : ((((List.range regions.length).filter fun i =>
        regions[i]? = (targetRegions regions)[i]?).map fun i => (regions[i]?).getD 0)) =
      (((List.range regions.length).filter fun i =>
        regions[i]? = (targetRegions regions)[i]?).map
          fun i => ((targetRegions regions)[i]?).getD 0) := by
    refine List.map_congr_left fun i hi => ?_
    rw [List.mem_filter, decide_eq_true_eq] at hi
    rw [hi.2]
  have hcount := hall v
  rw [hsplit, hsplit, hkept] at hcount
  omega

/-- What goes to a row is of the region that belongs there. -/
theorem region_destination (h : ∀ x ∈ regions, x ≤ 3) {i : ℕ} (hi : i < regions.length) :
    (regions[i]?).getD 0 =
      ((targetRegions regions)[destination (srcDestMap regions) i]?).getD 0 := by
  by_cases hsrc : i ∈ srcIndices regions
  · have hsorted : (srcIndices regions).map (fun i => (regions[i]?).getD 0) =
        (origIndices regions).map fun i => ((targetRegions regions)[i]?).getD 0 := by
      refine List.Perm.eq_of_pairwise
        (fun (a b : ℕ) _ _ (hab : a ≤ b) (hba : b ≤ a) => le_antisymm hab hba) ?_ ?_ ?_
      · rw [List.pairwise_map]
        exact sortBy_pairwise _ _
      · rw [List.pairwise_map]
        refine List.Pairwise.imp_of_mem (fun {j k} hj hk hjk => ?_)
          (List.pairwise_lt_range.filter _ : (origIndices regions).Pairwise (· < ·))
        have hlen := (targetRegions_perm h).length_eq
        simp only [origIndices, List.mem_filter, List.mem_range] at hj hk
        have hpair := List.pairwise_iff_getElem.mp (targetRegions_pairwise regions) j k
          (by omega) (by omega) hjk
        rw [List.getElem?_eq_getElem (by omega), List.getElem?_eq_getElem (by omega)]
        exact hpair
      · exact ((srcIndices_perm regions).map _).trans (origIndices_map_perm h)
    obtain ⟨j, hj, rfl⟩ := List.mem_iff_getElem.mp hsrc
    have hj' : j < (origIndices regions).length := (srcIndices_perm regions).length_eq ▸ hj
    rw [destination_srcDestMap hj hj']
    have hget := congrArg (fun l => l[j]?) hsorted
    simpa only [List.getElem?_map, List.getElem?_eq_getElem hj, List.getElem?_eq_getElem hj',
      Option.map_some, Option.some.injEq] using hget
  · have hstay : i ∉ (srcDestMap regions).keys := by rwa [(keys_srcDestMap regions).2]
    rw [destination_of_notMem hstay]
    rw [(srcIndices_perm regions).mem_iff, origIndices, List.mem_filter, List.mem_range] at hsrc
    simp only [hi, true_and, decide_eq_true_eq, not_not] at hsrc
    rw [hsrc]

/-- Something goes to every row. -/
theorem exists_destination {k : ℕ} (hk : k < regions.length) :
    ∃ i < regions.length, destination (srcDestMap regions) i = k := by
  by_cases hmem : k ∈ origIndices regions
  · obtain ⟨j, hj, rfl⟩ := List.mem_iff_getElem.mp hmem
    have hj' : j < (srcIndices regions).length := (srcIndices_perm regions).length_eq ▸ hj
    refine ⟨(srcIndices regions)[j], ?_, destination_srcDestMap hj' hj⟩
    have hsrc := (srcIndices_perm regions).mem_iff.mp (List.getElem_mem hj')
    rw [origIndices, List.mem_filter, List.mem_range] at hsrc
    exact hsrc.1
  · refine ⟨k, hk, destination_of_notMem ?_⟩
    rwa [(keys_srcDestMap regions).2, (srcIndices_perm regions).mem_iff]

/-- There are four regions. -/
theorem reqRegion_le (decodeThreshold n : ℤ) (row : BatchRow) :
    reqRegion decodeThreshold n row ≤ 3 := by
  unfold reqRegion
  repeat' split
  all_goals omega

namespace InputBatch

variable {b b' : InputBatch} {decodeThreshold : ℤ} {numScheduledTokens : Dict ReqId ℤ}

/-- Every request of the batch has its number of scheduled tokens. -/
def AllScheduled (b : InputBatch) (numScheduledTokens : Dict ReqId ℤ) : Prop :=
  ∀ r ∈ b.reqIdToIndex.keys, r ∈ numScheduledTokens.keys

/-- The region of the request in a row. -/
def regionAt (b : InputBatch) (decodeThreshold : ℤ) (numScheduledTokens : Dict ReqId ℤ) (i : ℕ) :
    ℕ :=
  reqRegion decodeThreshold (((b.reqAt i).bind numScheduledTokens.get?).getD 0) (b.row i)

/-- Decodes stand before short extends, these before long extends, and these before prefills. -/
def Split (b : InputBatch) (decodeThreshold : ℤ) (numScheduledTokens : Dict ReqId ℤ) : Prop :=
  ((List.range b.reqIds.length).map
    (b.regionAt decodeThreshold numScheduledTokens)).Pairwise (· ≤ ·)

/-- Every row of a condensed batch has a request. -/
theorem Condensed.exists_reqAt (hb : b.Condensed) {i : ℕ} (hi : i < b.reqIds.length) :
    ∃ r, b.reqIds[i]? = some (some r) := by
  have hne := hb.full i
  rw [List.getElem?_eq_getElem hi] at hne ⊢
  cases hget : b.reqIds[i] with
  | none => exact absurd (congrArg some hget) hne
  | some r => exact ⟨r, rfl⟩

/-- The regions of a scheduled batch are those of its rows. -/
theorem reqRegions_eq (hb : b.Condensed) (hall : b.AllScheduled numScheduledTokens) :
    b.reqRegions decodeThreshold numScheduledTokens =
      .ok ((List.range b.reqIds.length).map
        (b.regionAt decodeThreshold numScheduledTokens)) := by
  refine (mapM_congr (g := fun i => .ok (b.regionAt decodeThreshold numScheduledTokens i))
    fun i hi => ?_).trans List.mapM_pure
  obtain ⟨r, hr⟩ := hb.exists_reqAt (List.mem_range.mp hi)
  have hmem := hall r (Dict.mem_keys_of_get? ((hb.index r i).mpr hr))
  rw [← Dict.isSome_get?] at hmem
  obtain ⟨n, hn⟩ := Option.isSome_iff_exists.mp hmem
  rw [regionAt, reqAt_eq_some.mpr hr, Option.bind_some, hn]
  rfl

/-- The region goes with the request. -/
theorem regionAt_eq {i j : ℕ} {r : ReqId} (hb : b.Condensed) (hb' : b'.Condensed)
    (hsame : SameRows b b') (hi : b.reqIds[i]? = some (some r)) (hj : b'.reqIds[j]? = some (some r)) :
    b'.regionAt decodeThreshold numScheduledTokens j =
      b.regionAt decodeThreshold numScheduledTokens i := by
  have hrow := congrFun hsame.rowOf r
  rw [rowOf, rowOf, (hb.index r i).mpr hi, (hb'.index r j).mpr hj, Option.map_some,
    Option.map_some, Option.some.injEq] at hrow
  rw [regionAt, regionAt, reqAt_eq_some.mpr hi, reqAt_eq_some.mpr hj, hrow]

variable (decodeThreshold) in
/-- What a swap of two rows keeps holds of the reordered batch. -/
theorem reorder_rule {J : InputBatch → Prop} (hb : b.Condensed)
    (hall : b.AllScheduled numScheduledTokens) (hJ : J b)
    (hswap : ∀ t t' i j, t.Condensed → J t → Swapped t t' i j → i ≠ j → J t') :
    ∃ b', b.reorderBatchToSplitDecodesAndPrefills decodeThreshold numScheduledTokens = .ok b' ∧
      b'.Condensed ∧ SameRows b b' ∧ J b' ∧ b'.Split decodeThreshold numScheduledTokens := by
  obtain ⟨regions, hregions⟩ : ∃ regions, regions = (List.range b.reqIds.length).map
    (b.regionAt decodeThreshold numScheduledTokens) := ⟨_, rfl⟩
  have hlen : regions.length = b.reqIds.length := by simp [hregions]
  have hle : ∀ x ∈ regions, x ≤ 3 := by
    intro x hx
    rw [hregions] at hx
    obtain ⟨i, -, rfl⟩ := List.mem_map.mp hx
    exact reqRegion_le _ _ _
  have hkeys : ∀ k ∈ (srcDestMap regions).keys, k < b.reqIds.length := by
    intro k hk
    rw [(keys_srcDestMap regions).2, (srcIndices_perm regions).mem_iff, origIndices,
      List.mem_filter, List.mem_range] at hk
    exact hlen ▸ hk.1
  obtain ⟨b', hrun, ⟨hb', hsame, hlen', hJ'⟩, hobs⟩ := followCycles_spec
    WorkerError.diverges (fun t k => t.reqIds[k]?)
    (I := fun t => t.Condensed ∧ SameRows b t ∧ t.reqIds.length = b.reqIds.length ∧ J t)
    (destination_injective regions) (fun t i j ⟨ht, hs, hl, hJt⟩ hi hj hij => by
      obtain ⟨t', hok, ht', hsw⟩ := swapStates_spec ht (hl ▸ hkeys i hi) (hl ▸ hkeys j hj)
      exact ⟨t', hok, ⟨ht', hs.trans hsw.same, hsw.length.trans hl, hswap t t' i j ht hJt hsw hij⟩,
        hsw.reqIds⟩)
    ⟨hb, .refl b, rfl, hJ⟩
  refine ⟨b', ?_, hb', hsame, hJ', ?_⟩
  · rw [reorderBatchToSplitDecodesAndPrefills, reqRegions_eq hb hall, ← hregions]
    exact hrun
  · have hrow : ∀ k < b.reqIds.length, b'.regionAt decodeThreshold numScheduledTokens k =
        ((targetRegions regions)[k]?).getD 0 := by
      intro k hk
      obtain ⟨i, hi, hik⟩ := exists_destination (hlen ▸ hk)
      rw [hlen] at hi
      obtain ⟨r, hr⟩ := hb.exists_reqAt hi
      have hr' := hobs i
      rw [hik] at hr'
      have hregion : (regions[i]?).getD 0 = b.regionAt decodeThreshold numScheduledTokens i := by
        simp [hregions, List.getElem?_map, List.getElem?_range hi]
      rw [regionAt_eq hb hb' hsame hr (hr'.trans hr), ← hregion,
        region_destination hle (hlen ▸ hi), hik]
    rw [Split, hlen', List.pairwise_map]
    refine List.pairwise_lt_range.imp_of_mem fun {j k} hj hk hjk => ?_
    rw [List.mem_range] at hj hk
    have htarget := (targetRegions_perm hle).length_eq.trans hlen
    rw [hrow j hj, hrow k hk, List.getElem?_eq_getElem (by omega),
      List.getElem?_eq_getElem (by omega)]
    exact List.pairwise_iff_getElem.mp (targetRegions_pairwise regions) j k _ _ hjk

end InputBatch

end RpsServe
