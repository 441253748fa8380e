import RpsServe.Worker.InputBatch
import Mathlib.Data.List.Sort

/-!
# The rows of the batch by request

Seen from outside, the persistent batch is a map from a request to its row. Removing and
adding a request change that map at the request alone, and moving rows about leaves it as
it is, so that what the arrays hold for a request does not depend on where its row stands.
-/

namespace RpsServe

namespace InputBatch

variable {b b' : InputBatch} {r x : ReqId} {i j : ℕ}

/-- The index is the inverse of the rows' requests. -/
def Indexed (b : InputBatch) : Prop :=
  ∀ r i, b.reqIdToIndex.get? r = some i ↔ b.reqIds[i]? = some (some r)

/-- The lists of the batch agree: the index is the inverse of the rows' requests, the builder knows
the empty rows, and the adapters know their requests. -/
structure WellFormed (b : InputBatch) : Prop where
  index : b.Indexed
  empty : ∀ i, i ∈ b.builder.removed ↔ b.reqIds[i]? = some none
  distinct : b.builder.removed.Nodup
  sorted : b.builder.isRemovedSorted = true → b.builder.removed.Pairwise (· ≥ ·)
  size : b.reqIds.length = b.numReqs + b.builder.removed.length
  room : b.reqIds.length ≤ b.maxNumReqs
  width : b.rows.length = b.maxNumReqs
  lora : ∀ loraId r, r ∈ b.loraRequests loraId ↔
    loraId ≠ 0 ∧ ∃ row, b.rowOf r = some row ∧ row.loraId = loraId

/-- Nothing is pending in the builder, as it is between the steps. -/
def Settled (b : InputBatch) : Prop := b.builder = {}

/-- A row has a request when it names it. -/
theorem reqAt_eq_some : b.reqAt i = some r ↔ b.reqIds[i]? = some (some r) := by
  rw [reqAt, Option.join_eq_some_iff]

/-- The row of a request is the one its index names. -/
theorem rowOf_eq_some {row : BatchRow} :
    b.rowOf r = some row ↔ ∃ i, b.reqIdToIndex.get? r = some i ∧ b.row i = row := by
  rw [rowOf, Option.map_eq_some_iff]

/-- A request has a row when it is in the index. -/
theorem isSome_rowOf : (b.rowOf r).isSome ↔ r ∈ b.reqIdToIndex.keys := by
  rw [rowOf, Option.isSome_map, Dict.isSome_get?]

/-- Writing a row changes this row only. -/
theorem row_set (b : InputBatch) (i j : ℕ) (row : BatchRow) (hi : i < b.rows.length) :
    ((b.rows.set i row)[j]?).getD {} = if j = i then row else b.row j := by
  rw [List.getElem?_set, if_pos hi]
  by_cases hij : i = j
  · rw [if_pos hij, if_pos hij.symm]
    rfl
  · rw [if_neg hij, if_neg (Ne.symm hij)]
    rfl

namespace WellFormed

/-- The empty batch is well formed. -/
theorem init (maxNumReqs : ℕ) : (InputBatch.init maxNumReqs).WellFormed where
  index r i := by simp [InputBatch.init]
  empty i := by simp [InputBatch.init]
  distinct := List.nodup_nil
  sorted _ := List.Pairwise.nil
  size := rfl
  room := Nat.zero_le _
  width := List.length_replicate
  lora loraId r := by simp [InputBatch.init, loraRequests, rowOf]

/-- The row of a request lies in the arrays. -/
theorem index_lt (h : b.WellFormed) (hi : b.reqIdToIndex.get? r = some i) :
    i < b.reqIds.length :=
  (List.getElem?_eq_some_iff.mp ((h.index r i).mp hi)).1

/-- An index is within the rows. -/
theorem index_lt_width (h : b.WellFormed) (hi : b.reqIdToIndex.get? r = some i) :
    i < b.rows.length := by
  have hlt := h.index_lt hi
  have hroom := h.room
  have hwidth := h.width
  omega

/-- Two requests stand in two rows. -/
theorem index_inj (h : b.WellFormed) (hr : b.reqIdToIndex.get? r = some i)
    (hx : b.reqIdToIndex.get? x = some i) : r = x := by
  rw [h.index] at hr hx
  rw [hr] at hx
  simpa using hx

/-- An empty row is not the row of a request. -/
theorem index_ne_of_empty (h : b.WellFormed) (hi : i ∈ b.builder.removed)
    (hj : b.reqIdToIndex.get? r = some j) : j ≠ i := by
  rintro rfl
  rw [h.index, (h.empty _).mp hi] at hj
  cases hj

end WellFormed

/-! ### Removing a request -/

/-- Without its request, an adapter's entry reads as the set that is left of it. -/
theorem getD_discarded {d : Dict ℕ (Finset ReqId)} {loraId : ℕ} (left : Finset ReqId) (l : ℕ) :
    (((if left = ∅ then d.erase loraId else d.set loraId left).get? l).getD ∅) =
      if l = loraId then left else (d.get? l).getD ∅ := by
  by_cases hl : l = loraId
  · subst hl
    by_cases hempty : left = ∅
    · simp [hempty, Dict.get?_erase]
    · simp [hempty]
  · by_cases hempty : left = ∅
    · simp [hempty, Dict.get?_erase, hl, Ne.symm hl]
    · simp [hempty, Dict.get?_set, hl, Ne.symm hl]

/-- Taking a request out of an adapter leaves its other requests. -/
theorem discardLora_eq_ok {loraId : ℕ} (h : b.discardLora loraId r = .ok b') :
    ∃ d, b' = { b with loraIdToRequestIds := d } ∧
      ∀ l, ((d.get? l).getD ∅) = if l = loraId ∧ loraId ≠ 0 then (b.loraRequests l).erase r
        else b.loraRequests l := by
  unfold discardLora at h
  split at h
  · rename_i hzero
    cases h
    exact ⟨b.loraIdToRequestIds, rfl, fun l => by rw [if_neg fun hl => hl.2 hzero]; rfl⟩
  · rename_i hne
    split at h
    · cases h
    · rename_i reqIds hget
      cases h
      refine ⟨_, rfl, fun l => ?_⟩
      rw [getD_discarded]
      by_cases hl : l = loraId
      · rw [if_pos hl, if_pos ⟨hl, hne⟩, loraRequests, hl, hget]
        rfl
      · rw [if_neg hl, if_neg fun h => hl h.1]
        rfl

/-- A request of an adapter is taken out of it without an error. -/
theorem discardLora_ok {loraId : ℕ} (h : loraId ≠ 0 → r ∈ b.loraRequests loraId) :
    ∃ b', b.discardLora loraId r = .ok b' := by
  unfold discardLora
  split
  · exact ⟨_, rfl⟩
  · rename_i hne
    have hr := h hne
    split
    · rename_i hnone
      rw [loraRequests, hnone] at hr
      simp at hr
    · exact ⟨_, rfl⟩

/-- What `remove_request` does to a request of the batch. -/
theorem removeRequest_eq_ok (h : b.removeRequest r = .ok b')
    (hi : b.reqIdToIndex.get? r = some i) :
    b.builder.isRemovedSorted = false ∧ ∃ b₁ row, b.discardLora (b.row i).loraId r = .ok b₁ ∧
      row.loraId = 0 ∧ b' = { b₁ with
        builder := { b.builder with removed := b.builder.removed ++ [i] }
        reqIdToIndex := b.reqIdToIndex.erase r
        reqIds := b.reqIds.set i none
        rows := b.rows.set i row } := by
  unfold removeRequest at h
  rw [hi] at h
  obtain ⟨builder, hbuilder, h⟩ := bind_eq_ok.mp h
  obtain ⟨b₁, hb₁, h⟩ := bind_eq_ok.mp h
  obtain ⟨d, rfl, -⟩ := discardLora_eq_ok hb₁
  unfold BatchUpdateBuilder.removedAppend at hbuilder
  split at hbuilder
  · cases hbuilder
  · rename_i hsorted
    cases hbuilder
    cases h
    exact ⟨by simpa using hsorted, _, _, hb₁, rfl, rfl⟩

/-- A request that leaves takes its key along. -/
theorem numReqs_erase (hi : b.reqIdToIndex.get? r = some i) :
    (b.reqIdToIndex.erase r).keys.length + 1 = b.numReqs := by
  have hperm := (Dict.entries_perm_erase hi).length_eq
  rw [List.length_cons] at hperm
  simp only [numReqs, Dict.keys, List.length_map]
  exact hperm.symm

/-- The row of a removed request becomes empty, and the rows of the others stay. -/
theorem removeRequest_rowOf (hb : b.WellFormed) (h : b.removeRequest r = .ok b') :
    b'.rowOf = Function.update b.rowOf r none := by
  funext x
  cases hi : b.reqIdToIndex.get? r with
  | none =>
    rw [removeRequest, hi] at h
    cases h
    by_cases hx : x = r
    · rw [hx, Function.update_self, rowOf, hi]
      rfl
    · rw [Function.update_of_ne hx]
  | some i =>
    obtain ⟨-, b₁, row, -, -, rfl⟩ := removeRequest_eq_ok h hi
    by_cases hx : x = r
    · subst hx
      rw [Function.update_self, rowOf, Dict.get?_erase, if_pos rfl]
      rfl
    · rw [Function.update_of_ne hx, rowOf, Dict.get?_erase, if_neg (Ne.symm hx), rowOf]
      refine Option.map_congr fun j hj => ?_
      have hne : j ≠ i := fun heq => hx (hb.index_inj (heq ▸ hj) hi)
      exact (row_set b i j row (hb.index_lt_width hi)).trans (if_neg hne)

/-- Removing a request keeps the batch well formed. -/
theorem removeRequest_wellFormed (hb : b.WellFormed) (h : b.removeRequest r = .ok b') :
    b'.WellFormed := by
  have hrows := removeRequest_rowOf hb h
  cases hi : b.reqIdToIndex.get? r with
  | none =>
    rw [removeRequest, hi] at h
    cases h
    exact hb
  | some i =>
    obtain ⟨hsorted, b₁, row, hlora, -, rfl⟩ := removeRequest_eq_ok h hi
    obtain ⟨d, rfl, hd⟩ := discardLora_eq_ok hlora
    have hlt := hb.index_lt hi
    have hnotEmpty : i ∉ b.builder.removed := fun hmem => hb.index_ne_of_empty hmem hi rfl
    have hset : ∀ j, (b.reqIds.set i none)[j]? = if i = j then some none else b.reqIds[j]? := by
      intro j
      rw [List.getElem?_set, if_pos hlt]
    refine ⟨fun x j => ?_, fun j => ?_, ?_, fun hread => ?_, ?_, ?_, ?_, fun l x => ?_⟩
    · rw [Dict.get?_erase, hset]
      by_cases hx : r = x
      · subst hx
        rw [if_pos rfl]
        by_cases hij : i = j
        · simp [hij]
        · rw [if_neg hij, ← hb.index, hi]
          simp [hij]
      · rw [if_neg hx, hb.index]
        by_cases hij : i = j
        · subst hij
          rw [if_pos rfl, (hb.index r i).mp hi]
          simp [hx]
        · rw [if_neg hij]
    · rw [hset, List.mem_append, hb.empty, List.mem_singleton]
      by_cases hij : i = j
      · simp [hij]
      · simp [hij, Ne.symm hij]
    · exact List.Nodup.append hb.distinct (List.nodup_singleton i) (by simpa using hnotEmpty)
    · rw [hsorted] at hread
      cases hread
    · have hnum := numReqs_erase hi
      have hsize := hb.size
      simp only [numReqs, List.length_set, List.length_append, List.length_singleton] at *
      omega
    · simpa using hb.room
    · simpa using hb.width
    · rw [hrows, loraRequests, hd]
      have hr : b.rowOf r = some (b.row i) := rowOf_eq_some.mpr ⟨i, hi, rfl⟩
      by_cases hx : x = r
      · subst hx
        rw [Function.update_self]
        split
        · simp
        · rename_i hne
          rw [hb.lora, hr]
          simp only [Option.some.injEq, exists_eq_left', false_and, exists_false, and_false,
            reduceCtorEq, iff_false, not_and]
          exact fun hl heq => hne ⟨heq.symm, heq ▸ hl⟩
      · rw [Function.update_of_ne hx, ← hb.lora]
        split
        · simp [hx]
        · rfl

/-- Before the builder was read, every request can be removed. -/
theorem removeRequest_ok (hb : b.WellFormed) (hsorted : b.builder.isRemovedSorted = false)
    (r : ReqId) : ∃ b', b.removeRequest r = .ok b' ∧ b'.builder.isRemovedSorted = false := by
  cases hi : b.reqIdToIndex.get? r with
  | none => exact ⟨b, by rw [removeRequest, hi], hsorted⟩
  | some i =>
    obtain ⟨b₁, hb₁⟩ : ∃ b₁, b.discardLora (b.row i).loraId r = .ok b₁ := discardLora_ok
      fun hne => (hb.lora _ r).mpr ⟨hne, b.row i, rowOf_eq_some.mpr ⟨i, hi, rfl⟩, rfl⟩
    obtain ⟨d, rfl, -⟩ := discardLora_eq_ok hb₁
    have hbuilder : b.builder.removedAppend i =
        .ok { b.builder with removed := b.builder.removed ++ [i] } := if_neg (by simp [hsorted])
    have hok : ∃ b', b.removeRequest r = .ok b' := by
      rw [removeRequest, hi]
      exact ⟨_, bind_eq_ok.mpr ⟨_, hbuilder, bind_eq_ok.mpr ⟨_, hb₁, rfl⟩⟩⟩
    obtain ⟨b', hb'⟩ := hok
    obtain ⟨-, b₂, row, -, -, rfl⟩ := removeRequest_eq_ok hb' hi
    exact ⟨_, hb', hsorted⟩

/-! ### Adding a request -/

/-- Sorting the removed rows for the first read keeps them, in descending order. -/
theorem ensureRemovedSorted_spec {u : BatchUpdateBuilder}
    (h : u.isRemovedSorted = true → u.removed.Pairwise (· ≥ ·)) :
    u.ensureRemovedSorted.removed.Perm u.removed ∧
      u.ensureRemovedSorted.removed.Pairwise (· ≥ ·) ∧
      u.ensureRemovedSorted.isRemovedSorted = true ∧ u.ensureRemovedSorted.added = u.added ∧
      u.ensureRemovedSorted.moved = u.moved := by
  unfold BatchUpdateBuilder.ensureRemovedSorted
  split
  · rename_i hsorted
    exact ⟨.refl _, h hsorted, hsorted, rfl, rfl⟩
  · refine ⟨List.mergeSort_perm _ _, ?_, rfl, rfl, rfl⟩
    have hpair : (u.removed.mergeSort fun i j => decide (j ≤ i)).Pairwise fun i j =>
        decide (j ≤ i) = true := List.pairwise_mergeSort
      (fun i j k hij hjk => by simp only [decide_eq_true_eq] at *; omega)
      (fun i j => by simp only [Bool.or_eq_true, decide_eq_true_eq]; omega) u.removed
    simpa using hpair

/-- `pop_removed` takes the lowest of the removed rows. -/
theorem popRemoved_spec {u : BatchUpdateBuilder}
    (h : u.isRemovedSorted = true → u.removed.Pairwise (· ≥ ·)) :
    (u.removed = [] ∧ u.popRemoved = (none, u)) ∨
      ∃ i rest, u.removed.Perm (rest ++ [i]) ∧ (rest ++ [i]).Pairwise (· ≥ ·) ∧
        u.popRemoved = (some i, { u with removed := rest, isRemovedSorted := true }) := by
  obtain ⟨hperm, hpair, hread, hadded, hmoved⟩ := ensureRemovedSorted_spec h
  unfold BatchUpdateBuilder.popRemoved
  split
  · rename_i hnil
    exact .inl ⟨hnil, rfl⟩
  · rename_i hne
    have hne' : u.ensureRemovedSorted.removed ≠ [] := fun hnil => by
      rw [hnil] at hperm
      exact hne hperm.nil_eq.symm
    have hsplit := List.dropLast_append_getLast hne'
    refine .inr ⟨u.ensureRemovedSorted.removed.getLast hne',
      u.ensureRemovedSorted.removed.dropLast, ?_, ?_, ?_⟩
    · rw [hsplit]
      exact hperm.symm
    · rwa [hsplit]
    · dsimp only
      rw [List.getLast?_eq_some_getLast hne']
      simp only [Prod.mk.injEq, true_and]
      rw [← hread, ← hadded, ← hmoved]

/-- What `add_request` writes, and where: in an empty row or behind all rows. -/
structure AddedAt (b b' : InputBatch) (st : CachedRequestState) (i : ℕ) : Prop where
  inside : i < b.maxNumReqs
  place : (b.builder.removed = [] ∧ b'.builder.removed = [] ∧ i = b.reqIds.length ∧
      b'.reqIds = b.reqIds ++ [some st.reqId]) ∨
    b.builder.removed.Perm (b'.builder.removed ++ [i]) ∧ i < b.reqIds.length ∧
      b'.reqIds = b.reqIds.set i (some st.reqId)
  sorted : b'.builder.isRemovedSorted = true → b'.builder.removed.Pairwise (· ≥ ·)
  added : b'.builder.added = b.builder.added ++ [{
    index := i, reqId := st.reqId, samplingParams := st.samplingParams,
    promptTokenIds := st.promptTokenIds, outputTokenIds := st.outputTokenIds }]
  moved : b'.builder.moved = b.builder.moved
  written : b' = { b' with
    maxNumReqs := b.maxNumReqs
    reqIdToIndex := b.reqIdToIndex.set st.reqId i
    rows := b.rows.set i st.row }
  lora : ∀ l, b'.loraRequests l =
    if st.loraRequest = some l then insert st.reqId (b.loraRequests l) else b.loraRequests l

/-- A request that is added is written to some row. -/
theorem addRequest_eq_ok {st : CachedRequestState} (hb : b.WellFormed)
    (h : b.addRequest st = .ok b') : ∃ i, AddedAt b b' st i := by
  obtain ⟨⟨i, b₁⟩, hreg, h⟩ := bind_eq_ok.mp h
  have hlora : ∀ (d : Dict ℕ (Finset ReqId)) (l : ℕ),
      (st.loraRequest = none → d = b.loraIdToRequestIds) →
      (∀ loraId, st.loraRequest = some loraId → d = b.loraIdToRequestIds.set loraId
        (insert st.reqId (b.loraRequests loraId))) → (d.get? l).getD ∅ =
      if st.loraRequest = some l then insert st.reqId (b.loraRequests l) else b.loraRequests l := by
    intro d l hnone hsome
    cases hst : st.loraRequest with
    | none =>
      rw [hnone hst]
      rfl
    | some loraId =>
      simp only [hsome loraId hst, Dict.get?_set, Option.some.injEq]
      by_cases hl : loraId = l
      · simp [hl]
      · simp [hl, loraRequests]
  unfold registerAddRequest at hreg
  rcases popRemoved_spec hb.sorted with ⟨hnil, hpop⟩ | ⟨e, rest, hperm, hpair, hpop⟩
  · rw [hpop] at hreg
    have hlen : b.numReqs = b.reqIds.length := by simp [hb.size, hnil]
    dsimp only [Option.getD_none] at hreg
    split at hreg
    · rename_i hlt
      cases hreg
      cases h
      refine ⟨b.numReqs, hlt, .inl ⟨hnil, hnil, hlen, ?_⟩, hb.sorted, rfl, rfl, rfl,
        fun l => hlora _ l (fun hst => by rw [hst]) fun _ hst => by rw [hst]; rfl⟩
      exact if_pos hlen
    · cases hreg
  · rw [hpop] at hreg
    have hmem : e ∈ b.builder.removed := hperm.mem_iff.mpr (by simp)
    have hlt : e < b.reqIds.length :=
      (List.getElem?_eq_some_iff.mp ((hb.empty e).mp hmem)).1
    dsimp only [Option.getD_some] at hreg
    split at hreg
    · rename_i hroom
      cases hreg
      cases h
      refine ⟨_, hroom, .inr ⟨hperm, hlt, ?_⟩, fun _ => ?_, rfl, rfl, rfl,
        fun l => hlora _ l (fun hst => by rw [hst]) fun _ hst => by rw [hst]; rfl⟩
      · exact if_neg hlt.ne
      · exact (List.pairwise_append.mp hpair).1
    · cases hreg

namespace AddedAt

variable {st : CachedRequestState}

/-- Behind the write, the request stands at the row, and the others stand where they did. -/
theorem reqIds_get (ha : AddedAt b b' st i) (j : ℕ) :
    b'.reqIds[j]? = if j = i then some (some st.reqId) else b.reqIds[j]? := by
  rcases ha.place with ⟨-, -, hi, hreqIds⟩ | ⟨-, hi, hreqIds⟩
  · rw [hreqIds, hi]
    by_cases hj : j = b.reqIds.length
    · simp [hj]
    · rw [if_neg hj, List.getElem?_append]
      split
      · rfl
      · rename_i hge
        rw [List.getElem?_eq_none (by simp only [List.length_singleton]; omega),
          List.getElem?_eq_none (by omega)]
  · rw [hreqIds, List.getElem?_set, if_pos hi]
    by_cases hj : j = i
    · rw [if_pos hj, if_pos hj.symm]
    · rw [if_neg hj, if_neg (Ne.symm hj)]

/-- The row was free before. -/
theorem not_occupied (ha : AddedAt b b' st i) (hb : b.WellFormed) (x : ReqId) :
    b.reqIdToIndex.get? x ≠ some i := by
  intro hx
  rcases ha.place with ⟨-, -, hi, -⟩ | ⟨hperm, -, -⟩
  · exact absurd (hb.index_lt hx) (by omega)
  · exact hb.index_ne_of_empty (hperm.mem_iff.mpr (by simp)) hx rfl

/-- The index names the row of the added request. -/
theorem get?_index (ha : AddedAt b b' st i) (x : ReqId) :
    b'.reqIdToIndex.get? x = if st.reqId = x then some i else b.reqIdToIndex.get? x := by
  rw [ha.written]
  exact Dict.get?_set _ _ _ _

/-- An added request gets the row its state describes, and the others keep theirs. -/
theorem rowOf_eq (ha : AddedAt b b' st i) (hb : b.WellFormed) :
    b'.rowOf = Function.update b.rowOf st.reqId (some st.row) := by
  have hrow : ∀ j, b'.row j = if j = i then st.row else b.row j := by
    intro j
    have hwidth : i < b.rows.length := hb.width ▸ ha.inside
    rw [ha.written]
    exact row_set b i j st.row hwidth
  funext x
  rw [rowOf, ha.get?_index]
  by_cases hx : st.reqId = x
  · rw [if_pos hx, ← hx, Function.update_self, Option.map_some, hrow, if_pos rfl]
  · rw [if_neg hx, Function.update_of_ne (Ne.symm hx)]
    refine Option.map_congr fun j hj => ?_
    have hne : j ≠ i := fun heq => ha.not_occupied hb x (heq ▸ hj)
    rw [hrow, if_neg hne]

/-- A new request is one more in the batch. -/
theorem numReqs_eq (ha : AddedAt b b' st i)
    (hnew : b.rowOf st.reqId = none) : b'.numReqs = b.numReqs + 1 := by
  have hfresh : st.reqId ∉ b.reqIdToIndex.keys := by
    rw [← isSome_rowOf, hnew]
    simp
  rw [numReqs, ha.written, Dict.keys_set, if_neg hfresh]
  simp [numReqs]

/-- Adding a new request keeps the batch well formed. -/
theorem wellFormed (ha : AddedAt b b' st i) (hb : b.WellFormed) (hnew : b.rowOf st.reqId = none)
    (hlora : st.loraRequest ≠ some 0) : b'.WellFormed := by
  have hrows := ha.rowOf_eq hb
  have hget : b.reqIdToIndex.get? st.reqId = none := Option.map_eq_none_iff.mp hnew
  have hkeys := ha.numReqs_eq hnew
  have hroom : b'.maxNumReqs = b.maxNumReqs := by rw [ha.written]
  have hwidth : b'.rows.length = b.rows.length := by rw [ha.written]; exact List.length_set
  refine ⟨fun x j => ?_, fun j => ?_, ?_, ha.sorted, ?_, ?_, ?_, fun l x => ?_⟩
  · rw [ha.get?_index, ha.reqIds_get]
    by_cases hx : st.reqId = x
    · subst hx
      rw [if_pos rfl]
      by_cases hj : j = i
      · simp [hj]
      · rw [if_neg hj, ← hb.index, hget]
        simp [Ne.symm hj]
    · rw [if_neg hx, hb.index]
      by_cases hj : j = i
      · subst hj
        rw [if_pos rfl, ← hb.index]
        simp [hx, ha.not_occupied hb x]
      · rw [if_neg hj]
  · rw [ha.reqIds_get]
    rcases ha.place with ⟨hnil, hnil', hi, -⟩ | ⟨hperm, hi, -⟩
    · have hempty := hb.empty j
      rw [hnil] at hempty
      by_cases hj : j = i
      · simp [hj, hnil']
      · simpa [hj, hnil'] using hempty
    · have hnodup := hperm.nodup_iff.mp hb.distinct
      have hempty := hb.empty j
      rw [hperm.mem_iff] at hempty
      by_cases hj : j = i
      · have hnot : i ∉ b'.builder.removed := fun hmem =>
          (List.nodup_append.mp hnodup).2.2 i hmem i (by simp) rfl
        simp [hj, hnot]
      · simpa [hj] using hempty
  · rcases ha.place with ⟨-, hnil', -⟩ | ⟨hperm, -⟩
    · rw [hnil']
      exact List.nodup_nil
    · exact (List.nodup_append.mp (hperm.nodup_iff.mp hb.distinct)).1
  · have hsize := hb.size
    rcases ha.place with ⟨hnil, hnil', -, hreqIds⟩ | ⟨hperm, -, hreqIds⟩
    · rw [hnil, List.length_nil] at hsize
      rw [hreqIds, hkeys, hnil', List.length_append, List.length_singleton, List.length_nil]
      omega
    · have hlen := hperm.length_eq
      rw [hreqIds, hkeys]
      simp only [List.length_set, List.length_append, List.length_singleton] at *
      omega
  · have hinside := ha.inside
    have hle := hb.room
    rcases ha.place with ⟨-, -, hi, hreqIds⟩ | ⟨-, -, hreqIds⟩
    · rw [hreqIds, hroom, List.length_append, List.length_singleton]
      omega
    · rw [hreqIds, hroom, List.length_set]
      exact hle
  · rw [hwidth, hroom, hb.width]
  · rw [hrows, ha.lora]
    by_cases hx : x = st.reqId
    · subst hx
      have hnone : st.reqId ∉ b.loraRequests l := by
        rw [hb.lora, hnew]
        simp
      rw [Function.update_self]
      cases hreq : st.loraRequest with
      | none => simp [CachedRequestState.row, hreq, hnone, eq_comm]
      | some loraId =>
        have hne : loraId ≠ 0 := fun h0 => hlora (by rw [hreq, h0])
        by_cases hl : loraId = l
        · subst hl
          simp [CachedRequestState.row, hreq, hne]
        · simp [CachedRequestState.row, hreq, hl, hnone]
    · rw [Function.update_of_ne hx, ← hb.lora]
      split
      · simp [hx]
      · rfl

end AddedAt

/-- There is a row for a new request as long as the batch is not full. -/
theorem addRequest_ok (hb : b.WellFormed) (hroom : b.numReqs < b.maxNumReqs)
    (st : CachedRequestState) : ∃ b', b.addRequest st = .ok b' := by
  have hreg : ∃ p, b.registerAddRequest st = .ok p := by
    unfold registerAddRequest
    rcases popRemoved_spec hb.sorted with ⟨-, hpop⟩ | ⟨e, rest, hperm, -, hpop⟩
    · rw [hpop]
      exact ⟨_, if_pos hroom⟩
    · rw [hpop]
      have hmem : e ∈ b.builder.removed := hperm.mem_iff.mpr (by simp)
      have hlt : e < b.reqIds.length :=
        (List.getElem?_eq_some_iff.mp ((hb.empty e).mp hmem)).1
      exact ⟨_, if_pos (hlt.trans_le hb.room)⟩
  obtain ⟨p, hp⟩ := hreg
  exact ⟨_, bind_eq_ok.mpr ⟨p, hp, rfl⟩⟩

/-! ### Writing to a row -/

/-- Writing to a request's row, short of its adapter, changes nothing else. -/
theorem setRow_spec (row : BatchRow) (hb : b.WellFormed) (hi : b.reqIdToIndex.get? r = some i)
    (hlora : row.loraId = (b.row i).loraId) :
    (b.setRow i row).WellFormed ∧ (b.setRow i row).rowOf = Function.update b.rowOf r (some row) := by
  have hrows : (b.setRow i row).rowOf = Function.update b.rowOf r (some row) := by
    funext x
    by_cases hx : x = r
    · subst hx
      rw [Function.update_self]
      refine rowOf_eq_some.mpr ⟨i, hi, ?_⟩
      exact (row_set b i i row (hb.index_lt_width hi)).trans (if_pos rfl)
    · rw [Function.update_of_ne hx]
      refine Option.map_congr fun j hj => ?_
      have hne : j ≠ i := fun heq => hx (hb.index_inj (heq ▸ hj) hi)
      exact (row_set b i j row (hb.index_lt_width hi)).trans (if_neg hne)
  refine ⟨⟨hb.index, hb.empty, hb.distinct, hb.sorted, hb.size, hb.room, ?_, fun l x => ?_⟩, hrows⟩
  · exact List.length_set.trans hb.width
  · have hbefore := hb.lora l x
    rw [hrows]
    change x ∈ b.loraRequests l ↔ _
    by_cases hx : x = r
    · subst hx
      rw [Function.update_self]
      rw [rowOf_eq_some.mpr ⟨i, hi, rfl⟩] at hbefore
      simpa [hlora] using hbefore
    · rw [Function.update_of_ne hx]
      exact hbefore

end InputBatch

end RpsServe
