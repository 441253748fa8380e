import RpsServe.Worker.BatchRows
import Mathlib.Data.List.Nodup

/-!
# Condensing and reordering the batch

`condense` moves the last requests into the rows that stay empty, and `swap_states`
exchanges two rows. Neither changes what the batch holds for a request. The loop of
`condense` is given a rule of its own, which the state that follows the rows uses too.
-/

namespace RpsServe

namespace InputBatch

variable {b b' : InputBatch} {r x : ReqId} {i j : ℕ}

/-- A batch without empty rows, as it is from `condense` to the next removal. -/
structure Condensed (b : InputBatch) : Prop where
  index : b.Indexed
  full : ∀ i : ℕ, b.reqIds[i]? ≠ some none
  size : b.reqIds.length = b.numReqs
  room : b.reqIds.length ≤ b.maxNumReqs
  width : b.rows.length = b.maxNumReqs
  lora : ∀ loraId r, r ∈ b.loraRequests loraId ↔
    loraId ≠ 0 ∧ ∃ row, b.rowOf r = some row ∧ row.loraId = loraId

/-- The last index that is not empty has empty ones behind it only. -/
theorem lastNonEmpty_spec (E : List ℕ) (last : ℕ) : lastNonEmpty E last ≤ last ∧
    (∀ i, lastNonEmpty E last < i → i ≤ last → i ∈ E) ∧
    (lastNonEmpty E last ∈ E → lastNonEmpty E last = 0) := by
  induction last with
  | zero => exact ⟨le_refl 0, fun i hlt hle => absurd (hlt.trans_le hle) (lt_irrefl _), fun _ => rfl⟩
  | succ last ih =>
    obtain ⟨hle, hempty, hzero⟩ := ih
    rw [lastNonEmpty]
    split
    · rename_i hmem
      refine ⟨hle.trans (Nat.le_succ _), fun i hlt hi => ?_, hzero⟩
      rcases Nat.lt_or_ge last i with h | h
      · rwa [show i = last + 1 by omega]
      · exact hempty i hlt h
    · rename_i hmem
      exact ⟨le_refl _, fun i hlt hi => absurd (hlt.trans_le hi) (lt_irrefl _),
        fun h => absurd h hmem⟩

/-- The loop of `condense` with the empty rows `rest` left and nothing behind `last`. -/
structure Packs (b : InputBatch) (rest : List ℕ) (last : ℕ) : Prop where
  index : b.Indexed
  empty : ∀ i ≤ last, (i ∈ rest ↔ b.reqIds[i]? = some none)
  behind : ∀ i, last < i → ∀ r, b.reqIds[i]? ≠ some (some r)
  inside : last < b.reqIds.length
  ascending : rest.Pairwise (· < ·)

/-- One move of `condense`: the request at `src` goes to the empty row `dst` below. -/
structure MovesDown (b b' : InputBatch) (r : ReqId) (src dst : ℕ) : Prop where
  below : dst < src
  stands : b.reqIds[src]? = some (some r)
  free : b.reqIds[dst]? = some none
  moved : b' = { b with
    reqIds := (b.reqIds.set dst (some r)).set src none
    reqIdToIndex := b.reqIdToIndex.set r dst
    rows := b.rows.set dst (b.row src)
    builder := { b.builder with
      moved := b.builder.moved ++ [{ src := src, dst := dst, direct := .unidirectional }] } }

namespace MovesDown

variable {src dst : ℕ}

/-- A move empties its source and fills its destination. -/
theorem reqIds_get (hm : MovesDown b b' r src dst) (j : ℕ) : b'.reqIds[j]? =
    if j = src then some none else if j = dst then some (some r) else b.reqIds[j]? := by
  have hsrc := (List.getElem?_eq_some_iff.mp hm.stands).1
  have hdst := (List.getElem?_eq_some_iff.mp hm.free).1
  have hbelow := hm.below
  rw [hm.moved]
  simp only [List.getElem?_set, List.length_set]
  grind

/-- A move keeps the index right. -/
theorem index_eq (hm : MovesDown b b' r src dst) (hindex : b.Indexed) : b'.Indexed := by
  intro x j
  have hr := (hindex r src).mpr hm.stands
  have hbelow := hm.below
  have hfree := hm.free
  have hstands := hm.stands
  rw [hm.reqIds_get, hm.moved, Dict.get?_set]
  by_cases hx : r = x
  · subst hx
    rw [if_pos rfl]
    have hother : b.reqIds[j]? = some (some r) → j = src := fun h => by
      rw [← hindex, hr] at h
      exact (Option.some.inj h).symm
    grind
  · rw [if_neg hx, hindex]
    grind

/-- A move takes the row along. -/
theorem rowOf_eq (hm : MovesDown b b' r src dst) (hindex : b.Indexed)
    (hwidth : b.reqIds.length ≤ b.rows.length) : b'.rowOf = b.rowOf := by
  have hr := (hindex r src).mpr hm.stands
  have hdst : dst < b.rows.length :=
    (List.getElem?_eq_some_iff.mp hm.free).1.trans_le hwidth
  have hrow : ∀ j, b'.row j = if j = dst then b.row src else b.row j := by
    intro j
    rw [hm.moved]
    exact row_set b dst j (b.row src) hdst
  funext x
  have hget : b'.reqIdToIndex.get? x = if r = x then some dst else b.reqIdToIndex.get? x := by
    rw [hm.moved]
    exact Dict.get?_set _ _ _ _
  rw [rowOf, hget]
  by_cases hx : r = x
  · rw [if_pos hx, ← hx, rowOf, hr, Option.map_some, Option.map_some, hrow, if_pos rfl]
  · rw [if_neg hx, rowOf]
    refine Option.map_congr fun j hj => ?_
    have hne : j ≠ dst := by
      rintro rfl
      rw [hindex, hm.free] at hj
      cases hj
    rw [hrow, if_neg hne]

/-- A move keeps the number of requests. -/
theorem numReqs_eq (hm : MovesDown b b' r src dst) (hindex : b.Indexed) :
    b'.numReqs = b.numReqs := by
  have hr := Dict.mem_keys_of_get? ((hindex r src).mpr hm.stands)
  rw [numReqs, hm.moved, Dict.keys_set, if_pos hr]
  rfl

end MovesDown

/-- What a move into an empty row keeps holds at the end, where the requests stand in the rows
below some `n`. -/
theorem condenseLoop_rule {I : List ℕ → InputBatch → Prop} {rest : List ℕ} {last : ℕ}
    (hp : b.Packs rest last) (hI : I rest b)
    (hmove : ∀ t t' r src dst rest, I (dst :: rest) t → t.Indexed →
      MovesDown t t' r src dst → I rest t') :
    ∃ t left n, condenseLoop rest last b =
        .ok { t with builder := { t.builder with removed := left.reverse } } ∧ I left t ∧ t.Indexed ∧
      ∀ i : ℕ, (∃ r, t.reqIds[i]? = some (some r)) ↔ i < n := by
  induction rest generalizing b last with
  | nil =>
    refine ⟨b, [], last + 1, rfl, hI, hp.index, fun i => ⟨fun ⟨r, hr⟩ => ?_, fun hi => ?_⟩⟩
    · by_contra hlt
      exact hp.behind i (by omega) r hr
    · have hlt : i < b.reqIds.length := by have := hp.inside; omega
      have hne : b.reqIds[i]? ≠ some none := fun h => by
        simpa using (hp.empty i (by omega)).mpr h
      rw [List.getElem?_eq_getElem hlt] at hne ⊢
      cases hget : b.reqIds[i] with
      | none => exact absurd (congrArg some hget) hne
      | some r => exact ⟨r, rfl⟩
  | cons empty rest ih =>
    obtain ⟨hle, hempties, hzero⟩ := lastNonEmpty_spec (empty :: rest) last
    have hfirst : ∀ i ∈ empty :: rest, empty ≤ i := by
      intro i hi
      rcases List.mem_cons.mp hi with rfl | hi
      · exact le_refl _
      · exact (List.rel_of_pairwise_cons hp.ascending hi).le
    have hfull : ∀ i ≤ last, i ∉ empty :: rest → ∃ r, b.reqIds[i]? = some (some r) := by
      intro i hi hnot
      have hlt : i < b.reqIds.length := by have := hp.inside; omega
      have hne : b.reqIds[i]? ≠ some none := fun h => hnot ((hp.empty i hi).mpr h)
      rw [List.getElem?_eq_getElem hlt] at hne ⊢
      cases hget : b.reqIds[i] with
      | none => exact absurd (congrArg some hget) hne
      | some r => exact ⟨r, rfl⟩
    rw [condenseLoop]
    dsimp only
    split
    · rename_i hstop
      refine ⟨b, empty :: rest, min empty (last + 1), rfl, hI, hp.index, fun i => ⟨?_, fun hi => ?_⟩⟩
      · rintro ⟨r, hr⟩
        have hlast : i ≤ last := by
          by_contra hlt
          exact hp.behind i (by omega) r hr
        have hnot : i ∉ empty :: rest := fun hmem => by
          rw [(hp.empty i hlast).mp hmem] at hr
          cases hr
        have hi : i ≤ lastNonEmpty (empty :: rest) last := by
          by_contra hlt
          exact hnot (hempties i (by omega) hlast)
        have hne : i ≠ empty := fun heq => hnot (by simp [heq])
        omega
      · have hlast : i ≤ last := by omega
        exact hfull i hlast fun hmem => by
          have := hfirst i hmem
          omega
    · rename_i hgo
      have hsrc : lastNonEmpty (empty :: rest) last ∉ empty :: rest := fun hmem => by
        have := hzero hmem
        omega
      obtain ⟨r, hr⟩ := hfull _ hle hsrc
      generalize lastNonEmpty (empty :: rest) last = src at *
      have hfree : b.reqIds[empty]? = some none := (hp.empty empty (by omega)).mp (by simp)
      have hdown : b.moveDown src empty = .ok { b with
          reqIds := (b.reqIds.set empty (some r)).set src none
          reqIdToIndex := b.reqIdToIndex.set r empty
          rows := b.rows.set empty (b.row src)
          builder := { b.builder with
            moved := b.builder.moved ++ [{
              src := src, dst := empty, direct := .unidirectional }] } } := by
        rw [moveDown, reqAt_eq_some.mpr hr]
      have hm : MovesDown b _ r src empty := ⟨by omega, hr, hfree, rfl⟩
      rw [hdown]
      refine ih ⟨hm.index_eq hp.index, fun i hi => ?_, fun i hi x => ?_, ?_, ?_⟩
        (hmove _ _ _ _ _ _ hI hp.index hm)
      · have hlt := hm.below
        rw [hm.reqIds_get, if_neg (by omega)]
        by_cases he : i = empty
        · subst he
          have hnot : i ∉ rest := fun hmem =>
            lt_irrefl _ (List.rel_of_pairwise_cons hp.ascending hmem)
          simp [hnot]
        · rw [if_neg he, ← hp.empty i (by omega), List.mem_cons]
          simp [he]
      · have hlt := hm.below
        rw [hm.reqIds_get]
        by_cases hi' : i = src
        · simp [hi']
        · rw [if_neg hi', if_neg (by omega)]
          rcases Nat.lt_or_ge last i with h | h
          · exact hp.behind i h x
          · rw [(hp.empty i h).mp (hempties i (by omega) h)]
            simp
      · have hinside := hp.inside
        simp only [List.length_set]
        omega
      · exact (List.pairwise_cons.mp hp.ascending).2

/-- As many requests as rows that are occupied. -/
theorem numReqs_eq_of_full {n : ℕ} (hindex : b.Indexed)
    (hfull : ∀ i : ℕ, (∃ r, b.reqIds[i]? = some (some r)) ↔ i < n) : b.numReqs = n := by
  have hget : ∀ r ∈ b.reqIdToIndex.keys,
      b.reqIdToIndex.get? r = some ((b.reqIdToIndex.get? r).getD 0) := by
    intro r hr
    rw [← Dict.isSome_get?] at hr
    obtain ⟨i, hi⟩ := Option.isSome_iff_exists.mp hr
    rw [hi]
    rfl
  have hperm : (b.reqIdToIndex.keys.map fun r => (b.reqIdToIndex.get? r).getD 0).Perm
      (List.range n) := by
    refine (List.perm_ext_iff_of_nodup ?_ List.nodup_range).mpr fun i => ?_
    · refine List.Nodup.map_on (fun r hr x hx heq => ?_) b.reqIdToIndex.keys_nodup
      have hrow := (hindex _ _).mp (hget r hr)
      rw [heq, (hindex _ _).mp (hget x hx)] at hrow
      simpa using hrow.symm
    · rw [List.mem_map, List.mem_range, ← hfull]
      constructor
      · rintro ⟨r, hr, rfl⟩
        exact ⟨r, (hindex _ _).mp (hget r hr)⟩
      · rintro ⟨r, hr⟩
        have hi := (hindex r i).mpr hr
        exact ⟨r, Dict.mem_keys_of_get? hi, by rw [hi]; rfl⟩
  simpa [numReqs] using hperm.length_eq

/-- What a move into an empty row keeps holds at the end, where the requests stand in the first
rows and the list is cut behind them. -/
theorem condense_rule {I : List ℕ → InputBatch → Prop} (hb : b.WellFormed)
    (hI : I b.builder.ensureRemovedSorted.removed.reverse
      { b with builder := b.builder.ensureRemovedSorted })
    (hmove : ∀ t t' r src dst rest, I (dst :: rest) t → t.Indexed →
      MovesDown t t' r src dst → I rest t') :
    ∃ t left, b.condense = .ok { t with
        reqIds := t.reqIds.take b.numReqs
        builder := { t.builder with removed := left.reverse } } ∧ I left t ∧ t.Indexed ∧
      ∀ i : ℕ, (∃ r, t.reqIds[i]? = some (some r)) ↔ i < b.numReqs := by
  obtain ⟨hperm, hpair, -⟩ := ensureRemovedSorted_spec hb.sorted
  have hindex : Indexed { b with builder := b.builder.ensureRemovedSorted } := hb.index
  have hsize := hb.size
  have hlen := hperm.length_eq
  unfold condense
  dsimp only
  split
  · rename_i hnil
    have hremoved : b.builder.removed = [] := by rwa [hnil, List.nil_perm] at hperm
    rw [hremoved, List.length_nil, add_zero] at hsize
    refine ⟨_, [], ?_, by rwa [hnil] at hI, hindex, fun i => ⟨fun ⟨r, hr⟩ => ?_, fun hi => ?_⟩⟩
    · rw [← hsize, List.take_length, List.reverse_nil]
      simp only [Except.ok.injEq]
      rw [← hnil]
    · exact hsize ▸ (List.getElem?_eq_some_iff.mp hr).1
    · have hempty := hb.empty i
      rw [hremoved] at hempty
      rw [← hsize] at hi
      rw [List.getElem?_eq_getElem hi] at hempty ⊢
      cases hget : b.reqIds[i] with
      | none => simp [hget] at hempty
      | some r => exact ⟨r, rfl⟩
  · rename_i hne
    split
    · rename_i hzero
      refine ⟨_, _, ?_, hI, hindex, fun i => ⟨fun ⟨r, hr⟩ => ?_, fun hi => ?_⟩⟩
      · rw [hzero, List.take_zero, List.reverse_reverse]
      · have hkey := Dict.mem_keys_of_get? ((hb.index r i).mpr hr)
        rw [numReqs, List.length_eq_zero_iff] at hzero
        rw [hzero] at hkey
        cases hkey
      · omega
    · rename_i hnum
      have hstart : Packs { b with builder := b.builder.ensureRemovedSorted }
          b.builder.ensureRemovedSorted.removed.reverse
          (b.numReqs + b.builder.ensureRemovedSorted.removed.length - 1) := by
        refine ⟨hindex, fun i hi => ?_, fun i hi r hr => ?_, ?_, ?_⟩
        · rw [List.mem_reverse, hperm.mem_iff]
          exact hb.empty i
        · have hlt := (List.getElem?_eq_some_iff.mp hr).1
          simp only at hlt
          omega
        · simp only
          omega
        · rw [List.pairwise_reverse]
          have hnodup := hperm.nodup_iff.mpr hb.distinct
          exact (hpair.and hnodup).imp fun {i j} hij => lt_of_le_of_ne hij.1 hij.2.symm
      obtain ⟨t, left, n, hloop, ⟨hleft, hcount⟩, htindex, hfull⟩ :=
        condenseLoop_rule (I := fun rest t => I rest t ∧ t.numReqs = b.numReqs) hstart ⟨hI, rfl⟩
          fun t t' r src dst rest h hindex hm =>
            ⟨hmove t t' r src dst rest h.1 hindex hm, (hm.numReqs_eq hindex).trans h.2⟩
      refine ⟨t, left, ?_, hleft, htindex, ?_⟩
      · rw [hloop]
        rfl
      · rwa [← hcount, numReqs_eq_of_full htindex hfull]

/-- What a batch holds for each request, and how large it may get. -/
structure SameRows (b b' : InputBatch) : Prop where
  rowOf : b'.rowOf = b.rowOf
  maxNumReqs : b'.maxNumReqs = b.maxNumReqs
  width : b'.rows.length = b.rows.length
  lora : b'.loraIdToRequestIds = b.loraIdToRequestIds
  length : b'.reqIds.length ≤ b.reqIds.length

/-- A batch has its own rows. -/
theorem SameRows.refl (b : InputBatch) : SameRows b b := ⟨rfl, rfl, rfl, rfl, le_refl _⟩

/-- Batches with the rows of the same batch have the same rows. -/
theorem SameRows.trans {c : InputBatch} (h : SameRows b b') (h' : SameRows b' c) :
    SameRows b c where
  rowOf := h'.rowOf.trans h.rowOf
  maxNumReqs := h'.maxNumReqs.trans h.maxNumReqs
  width := h'.width.trans h.width
  lora := h'.lora.trans h.lora
  length := h'.length.trans h.length

/-- A move keeps the rows of the requests. -/
theorem MovesDown.sameRows {src dst : ℕ} (hm : MovesDown b b' r src dst) (hindex : b.Indexed)
    (hwidth : b.reqIds.length ≤ b.rows.length) : SameRows b b' where
  rowOf := hm.rowOf_eq hindex hwidth
  maxNumReqs := by rw [hm.moved]
  width := by
    rw [hm.moved]
    exact List.length_set
  lora := by rw [hm.moved]
  length := by
    rw [hm.moved]
    simp

/-- A list whose occupied places are the first `n` is full once it is cut behind them. -/
theorem take_full {n : ℕ} {l : List (Option ReqId)}
    (hfull : ∀ i : ℕ, (∃ r, l[i]? = some (some r)) ↔ i < n) :
    (∀ i : ℕ, (l.take n)[i]? ≠ some none) ∧ (l.take n).length = n ∧
      ∀ (i : ℕ) (r : ReqId), (l.take n)[i]? = some (some r) ↔ l[i]? = some (some r) := by
  have hlen : n ≤ l.length := by
    cases n with
    | zero => exact Nat.zero_le _
    | succ n =>
      obtain ⟨r, hr⟩ := (hfull n).mpr (Nat.lt_succ_self n)
      exact (List.getElem?_eq_some_iff.mp hr).1
  refine ⟨fun i hi => ?_, by rw [List.length_take, Nat.min_eq_left hlen], fun i r => ?_⟩
  · rw [List.getElem?_take] at hi
    split at hi
    · rename_i hlt
      obtain ⟨r, hr⟩ := (hfull i).mpr hlt
      rw [hr] at hi
      cases hi
    · cases hi
  · rw [List.getElem?_take]
    constructor
    · intro h
      split at h
      · exact h
      · cases h
    · intro h
      rw [if_pos ((hfull i).mp ⟨r, h⟩), h]

/-- Condensing fills the empty rows and cuts the list behind the last request; the row of every
request stays what it was. -/
theorem condense_spec (hb : b.WellFormed) : ∃ b', b.condense = .ok b' ∧ b'.Condensed ∧
    SameRows b b' := by
  obtain ⟨t, left, hok, ⟨hsame, hle⟩, hindex, hfull⟩ := condense_rule
    (I := fun _ t => SameRows b t ∧ t.reqIds.length ≤ t.rows.length) hb
    ⟨⟨rfl, rfl, rfl, rfl, le_refl _⟩, by rw [hb.width]; exact hb.room⟩
    fun t t' r src dst rest ⟨hs, hle⟩ hindex hm => by
      have hm' := hm.sameRows hindex hle
      exact ⟨hs.trans hm', by rw [hm'.width]; exact hm'.length.trans hle⟩
  obtain ⟨hnone, hlen, hget⟩ := take_full hfull
  refine ⟨_, hok, ⟨fun r i => ?_, hnone, ?_, ?_, ?_, fun l r => ?_⟩, ?_⟩
  · rw [hget]
    exact hindex r i
  · rw [hlen]
    exact (numReqs_eq_of_full hindex hfull).symm
  · rw [hlen, hsame.maxNumReqs]
    have hsize := hb.size
    have hroom := hb.room
    omega
  · exact hsame.width.trans (hb.width.trans hsame.maxNumReqs.symm)
  · have hlora := hb.lora l r
    rw [loraRequests, ← hsame.lora, ← hsame.rowOf] at hlora
    exact hlora
  · refine ⟨hsame.rowOf, hsame.maxNumReqs, hsame.width, hsame.lora, ?_⟩
    rw [hlen]
    have hsize := hb.size
    omega

/-! ### Swapping two rows -/

/-- What `swap_states` does to two requests of the batch. -/
structure Swapped (b b' : InputBatch) (i j : ℕ) : Prop where
  reqIds : ∀ k : ℕ, b'.reqIds[k]? =
    if k = j then b.reqIds[i]? else if k = i then b.reqIds[j]? else b.reqIds[k]?
  length : b'.reqIds.length = b.reqIds.length
  removed : b'.builder.removed = b.builder.removed
  added : b'.builder.added = b.builder.added
  moved : b'.builder.moved = b.builder.moved ++ [{ src := i, dst := j, direct := .swap }]
  same : SameRows b b'

/-- Swapping two rows of a condensed batch keeps it condensed. -/
theorem swapStates_spec (hb : b.Condensed) (hi : i < b.reqIds.length) (hj : j < b.reqIds.length) :
    ∃ b', b.swapStates i j = .ok b' ∧ b'.Condensed ∧ Swapped b b' i j := by
  have hfull : ∀ k : ℕ, k < b.reqIds.length → ∃ r, b.reqIds[k]? = some (some r) := by
    intro k hk
    have hne := hb.full k
    rw [List.getElem?_eq_getElem hk] at hne ⊢
    cases hget : b.reqIds[k] with
    | none => exact absurd (congrArg some hget) hne
    | some r => exact ⟨r, rfl⟩
  obtain ⟨r, hr⟩ := hfull i hi
  obtain ⟨r', hr'⟩ := hfull j hj
  have hwidth : b.reqIds.length ≤ b.rows.length := by
    rw [hb.width]
    exact hb.room
  have hri := (hb.index r i).mpr hr
  have hrj := (hb.index r' j).mpr hr'
  obtain ⟨b', hb'⟩ : ∃ b' : InputBatch, b' = { b with
      reqIds := (b.reqIds.set i (some r')).set j (some r)
      reqIdToIndex := (b.reqIdToIndex.set r j).set r' i
      rows := (b.rows.set i (b.row j)).set j (b.row i)
      builder := { b.builder with
        moved := b.builder.moved ++ [{ src := i, dst := j, direct := .swap }] } } := ⟨_, rfl⟩
  refine ⟨b', by rw [swapStates, reqAt_eq_some.mpr hr, reqAt_eq_some.mpr hr', hb'], ?_⟩
  have hreqIds : ∀ k : ℕ, ((b.reqIds.set i (some r')).set j (some r))[k]? =
      if k = j then b.reqIds[i]? else if k = i then b.reqIds[j]? else b.reqIds[k]? := by
    intro k
    simp only [List.getElem?_set, List.length_set]
    grind
  have hrow : ∀ k, ((((b.rows.set i (b.row j)).set j (b.row i))[k]?).getD {}) =
      if k = j then b.row i else if k = i then b.row j else b.row k := by
    intro k
    simp only [row, List.getElem?_set, List.length_set]
    grind
  have hindex : ∀ x k, ((b.reqIdToIndex.set r j).set r' i).get? x = some k ↔
      ((b.reqIds.set i (some r')).set j (some r))[k]? = some (some x) := by
    intro x k
    have hx := hb.index x k
    have hother : ∀ y k, b.reqIds[k]? = some (some y) → b.reqIdToIndex.get? y = some k :=
      fun y k => (hb.index y k).mpr
    rw [hreqIds, Dict.get?_set, Dict.get?_set]
    grind
  have hrows : ∀ x, (((b.reqIdToIndex.set r j).set r' i).get? x).map
      (fun k => ((((b.rows.set i (b.row j)).set j (b.row i))[k]?).getD {})) = b.rowOf x := by
    intro x
    have hx := hb.index x
    rw [rowOf, Dict.get?_set, Dict.get?_set]
    by_cases hxr' : r' = x
    · rw [if_pos hxr', ← hxr', hrj, Option.map_some, Option.map_some, hrow]
      split <;> simp_all
    · by_cases hxr : r = x
      · rw [if_neg hxr', if_pos hxr, ← hxr, hri, Option.map_some, Option.map_some, hrow, if_pos rfl]
      · rw [if_neg hxr', if_neg hxr]
        refine Option.map_congr fun k hk => ?_
        have hki : k ≠ i := fun heq => by
          rw [heq, hx, hr] at hk
          exact hxr (by simpa using hk)
        have hkj : k ≠ j := fun heq => by
          rw [heq, hx, hr'] at hk
          exact hxr' (by simpa using hk)
        rw [hrow, if_neg hkj, if_neg hki]
  have hkeys : ((b.reqIdToIndex.set r j).set r' i).keys = b.reqIdToIndex.keys := by
    rw [Dict.keys_set, Dict.keys_set, if_pos (Dict.mem_keys_of_get? hri),
      if_pos (Dict.mem_keys_of_get? hrj)]
  have hsame : SameRows b b' := by
    subst hb'
    exact ⟨funext hrows, rfl, by simp, rfl, by simp⟩
  have hswap : Swapped b b' i j := by
    have hsame' := hsame
    subst hb'
    exact ⟨hreqIds, by simp, rfl, rfl, rfl, hsame'⟩
  refine ⟨⟨?_, fun k => ?_, ?_, ?_, ?_, fun l x => ?_⟩, hswap⟩
  · subst hb'
    exact hindex
  · rw [hswap.reqIds]
    split
    · exact hb.full i
    · split
      · exact hb.full j
      · exact hb.full k
  · rw [hswap.length, hb.size, hb', numReqs, numReqs, hkeys]
  · rw [hswap.length, hsame.maxNumReqs]
    exact hb.room
  · rw [hsame.width, hsame.maxNumReqs]
    exact hb.width
  · rw [loraRequests, hsame.lora, hsame.rowOf]
    exact hb.lora l x

/-! ### Settling -/

/-- A condensed and settled batch is well formed. -/
theorem Condensed.wellFormed (hb : b.Condensed) (hsettled : b.Settled) : b.WellFormed where
  index := hb.index
  empty i := by
    rw [hsettled]
    simpa using hb.full i
  distinct := by
    rw [hsettled]
    exact List.nodup_nil
  sorted := by
    rw [hsettled]
    exact fun _ => List.Pairwise.nil
  size := by
    rw [hsettled]
    exact hb.size
  room := hb.room
  width := hb.width
  lora := hb.lora

/-- Taking the update empties the builder. -/
theorem getAndReset_snd (u : BatchUpdateBuilder) (n : ℕ) : (u.getAndReset n).2 = {} := by
  unfold BatchUpdateBuilder.getAndReset
  split
  · rename_i hnil
    obtain ⟨hr, hm, ha⟩ := hnil
    simp only [hr, hm, ha]
  · rfl

/-- `refresh_metadata` hands the update out and leaves nothing pending. -/
theorem refreshMetadata_spec (hb : b.Condensed) :
    b.refreshMetadata.2.WellFormed ∧ b.refreshMetadata.2.Settled ∧
      SameRows b b.refreshMetadata.2 ∧ b.refreshMetadata.2.reqIds = b.reqIds := by
  have hsettled : b.refreshMetadata.2.Settled := getAndReset_snd b.builder b.numReqs
  have hcond : b.refreshMetadata.2.Condensed :=
    ⟨hb.index, hb.full, hb.size, hb.room, hb.width, hb.lora⟩
  exact ⟨hcond.wellFormed hsettled, hsettled, ⟨rfl, rfl, rfl, rfl, le_refl _⟩, rfl⟩

end InputBatch

end RpsServe
