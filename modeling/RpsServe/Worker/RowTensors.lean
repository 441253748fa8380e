import RpsServe.Worker.RowState

/-!
# What the logits processors apply

The dictionary of a sparse processor and the array of min-p are updated as a function of the
rows. What is applied to the logits are the tensors made from them, which are made anew only
when a change was noticed: no change is missed, so that they are those of the dictionary and
the array after every update.
-/

namespace RpsServe

variable {T α : Type*}

/-! ### Sparse processors -/

section Sparse

variable {newState : NewState T} {p : Dict ℕ T × Bool}

/-- An added request writes the entry of its row. -/
theorem get?_addEntry (p : Dict ℕ T × Bool) (a : AddedRequest) :
    (addEntry newState p a).1.get? = Function.update p.1.get? a.index (newState a) := by
  funext i
  unfold addEntry
  split
  · rename_i state hstate
    rw [Dict.get?_set, Function.update_apply, hstate]
    simp only [eq_comm]
  · rename_i hstate
    rw [Dict.get?_erase, Function.update_apply, hstate]
    simp only [eq_comm]

/-- Removed rows lose their entries. -/
theorem get?_removeEntries (removed : List ℕ) (p : Dict ℕ T × Bool) :
    (removed.foldl removeEntry p).1.get? = applyRemoved none p.1.get? removed := by
  induction removed generalizing p with
  | nil =>
    funext i
    simp [applyRemoved]
  | cons index removed ih =>
    rw [List.foldl_cons, ih]
    funext i
    simp only [applyRemoved, removeEntry, Dict.get?_erase, List.mem_cons]
    by_cases hi : i = index
    · simp [hi]
    · simp [hi, Ne.symm hi]

/-- A move takes the entry of its row along. -/
theorem get?_moveEntry (p : Dict ℕ T × Bool) (m : MovedRequest) :
    (moveEntry p m).1.get? = applyMove none p.1.get? m := by
  funext i
  simp only [moveEntry, applyMove]
  cases hm : m.direct <;> cases ha : p.1.get? m.src <;>
    cases hb : (p.1.erase m.src).get? m.dst <;>
    simp only [Dict.get?_set, Dict.get?_erase] at hb ⊢ <;>
    grind

/-- `process_dict_updates` has the effect of the update on the rows. -/
theorem get?_processDictUpdates (newState : NewState T) (d : Dict ℕ T) (u : Option BatchUpdate) :
    (processDictUpdates newState d u).1.get? = applyUpdate none newState d.get? u := by
  cases u with
  | none => rfl
  | some u =>
    have hadded : ∀ (l : List AddedRequest) (p : Dict ℕ T × Bool),
        (l.foldl (addEntry newState) p).1.get? = applyAdded newState p.1.get? l := by
      intro l
      induction l with
      | nil => exact fun p => rfl
      | cons a l ih =>
        intro p
        rw [List.foldl_cons, ih, get?_addEntry]
        rfl
    have hmoved : ∀ (l : List MovedRequest) (p : Dict ℕ T × Bool),
        (l.foldl moveEntry p).1.get? = l.foldl (applyMove none) p.1.get? := by
      intro l
      induction l with
      | nil => exact fun p => rfl
      | cons m l ih =>
        intro p
        rw [List.foldl_cons, ih, get?_moveEntry, List.foldl_cons]
    rw [processDictUpdates, applyUpdate]
    split
    · rename_i hempty
      have hnone : applyAdded newState d.get? u.added = fun _ => none := by
        rw [← hadded u.added (d, false)]
        funext i
        rw [← Option.not_isSome_iff_eq_none, Dict.isSome_get?, hempty]
        simp
      rw [hadded u.added (d, false), hnone]
      exact (applyRows_of_clear hnone).symm
    · rw [applyRows, hmoved, get?_removeEntries, hadded]

/-- An added request that changes nothing leaves the entries as they are. -/
theorem addEntry_unchanged {a : AddedRequest} (h : (addEntry newState p a).2 = false) :
    p.2 = false ∧ (addEntry newState p a).1 = p.1 := by
  unfold addEntry at h ⊢
  split at h
  · cases h
  · rename_i hnone
    obtain ⟨hp, hget⟩ := Bool.or_eq_false_iff.mp h
    exact ⟨hp, Dict.erase_eq_self (Option.not_isSome_iff_eq_none.mp (by simp [hget]))⟩

/-- A removed row that changes nothing leaves the entries as they are. -/
theorem removeEntry_unchanged {i : ℕ} (h : (removeEntry p i).2 = false) :
    p.2 = false ∧ (removeEntry p i).1 = p.1 := by
  obtain ⟨hp, hget⟩ := Bool.or_eq_false_iff.mp h
  exact ⟨hp, Dict.erase_eq_self (Option.not_isSome_iff_eq_none.mp (by simp [hget]))⟩

/-- A move that changes nothing leaves the entries as they are. -/
theorem moveEntry_unchanged {m : MovedRequest} (h : (moveEntry p m).2 = false) :
    p.2 = false ∧ (moveEntry p m).1 = p.1 := by
  obtain ⟨h, hdst⟩ := Bool.or_eq_false_iff.mp h
  obtain ⟨hp, hsrc⟩ := Bool.or_eq_false_iff.mp h
  have ha : p.1.get? m.src = none := Option.not_isSome_iff_eq_none.mp (by simp [hsrc])
  have herase := Dict.erase_eq_self ha
  have hb : (p.1.erase m.src).get? m.dst = none :=
    Option.not_isSome_iff_eq_none.mp (by simp [hdst])
  have herase' := Dict.erase_eq_self hb
  refine ⟨hp, ?_⟩
  simp only [moveEntry, ha, hb, herase']
  exact herase

/-- A fold of steps that report every change reports every change. -/
theorem foldl_unchanged {A : Type*} {step : Dict ℕ T × Bool → A → Dict ℕ T × Bool}
    (hstep : ∀ p a, (step p a).2 = false → p.2 = false ∧ (step p a).1 = p.1) {l : List A}
    (h : (l.foldl step p).2 = false) : p.2 = false ∧ (l.foldl step p).1 = p.1 := by
  induction l generalizing p with
  | nil => exact ⟨h, rfl⟩
  | cons a l ih =>
    obtain ⟨hflag, hrest⟩ := ih h
    obtain ⟨hp, hone⟩ := hstep p a hflag
    exact ⟨hp, hrest.trans hone⟩

/-- `process_dict_updates` reports every change of the entries. -/
theorem processDictUpdates_unchanged {d : Dict ℕ T} {u : Option BatchUpdate}
    (h : (processDictUpdates newState d u).2 = false) :
    (processDictUpdates newState d u).1 = d := by
  cases u with
  | none => rfl
  | some u =>
    unfold processDictUpdates at h ⊢
    dsimp only at h ⊢
    split at h
    · rename_i hempty
      rw [if_pos hempty]
      exact (foldl_unchanged (fun _ _ => addEntry_unchanged) h).2
    · rename_i hne
      rw [if_neg hne]
      obtain ⟨hremoved, hmoved⟩ := foldl_unchanged (fun _ _ => moveEntry_unchanged) h
      obtain ⟨hadded, hcleared⟩ := foldl_unchanged (fun _ _ => removeEntry_unchanged) hremoved
      exact hmoved.trans (hcleared.trans
        (foldl_unchanged (fun _ _ => addEntry_unchanged) hadded).2)

end Sparse

/-! ### The tensors of the sparse processors -/

namespace MinTokensState

variable {s : MinTokensState}

/-- The places are those of the entries. -/
def Current (s : MinTokensState) : Prop := s.logitsSlice = slice s.minToks

/-- At the start the slices are current. -/
theorem current_init : init.Current := rfl

/-- The places stay those of the entries, since every change of the entries is noticed. -/
theorem Current.updateState (hs : s.Current) (allStopTokenIds : SamplingParams → Finset Token)
    (outputTokenIds : ReqId → List Token) (u : Option BatchUpdate) :
    (s.updateState allStopTokenIds outputTokenIds u).Current := by
  unfold Current MinTokensState.updateState
  dsimp only
  split
  · rfl
  · rename_i hflag
    rw [Bool.not_eq_true, Bool.or_eq_false_iff, Bool.not_eq_false', List.isEmpty_iff] at hflag
    obtain ⟨hflag, hnone⟩ := hflag
    rw [hnone, List.foldl_nil, processDictUpdates_unchanged hflag]
    exact hs

/-- The slices name the stop tokens of the rows that have some. -/
theorem mem_slice {minToks : Dict ℕ MinTokensEntry} {i : ℕ} {t : Token} :
    (i, t) ∈ slice minToks ↔ ∃ e, minToks.get? i = some e ∧ t ∈ e.stopTokenIds := by
  unfold slice
  simp only [List.mem_flatMap, List.mem_map, Finset.mem_sort, Prod.mk.injEq, Prod.exists]
  constructor
  · rintro ⟨j, e, he, t', ht, rfl, rfl⟩
    exact ⟨e, Dict.get?_of_mem_entries he, ht⟩
  · rintro ⟨e, he, ht⟩
    exact ⟨i, e, Dict.mem_entries_of_get? he, t, ht, rfl, rfl⟩

/-- With current places, exactly the stop tokens of the entries are masked. -/
theorem Current.apply_eq (hs : s.Current) (negInf : α) (logits : Logits α) (i : ℕ) (t : Token) :
    ((∃ e, s.minToks.get? i = some e ∧ t ∈ e.stopTokenIds) →
        s.apply negInf logits i t = negInf) ∧
      ((¬ ∃ e, s.minToks.get? i = some e ∧ t ∈ e.stopTokenIds) →
        s.apply negInf logits i t = logits i t) := by
  unfold MinTokensState.apply
  rw [show s.logitsSlice = slice s.minToks from hs]
  constructor
  · intro hstop
    have hne : s.minToks.keys ≠ [] := by
      intro hnil
      obtain ⟨e, he, -⟩ := hstop
      rw [Dict.get?_of_keys_eq_nil hnil] at he
      cases he
    rw [if_neg hne, if_pos (mem_slice.mpr hstop)]
  · intro hstop
    rw [if_neg (mem_slice.not.mpr hstop), ite_self]

end MinTokensState

namespace LogitBiasState

variable {s : LogitBiasState α} {logitBias : NewState (Dict Token α)}

/-- The tensors are those of the biases. -/
def Current (s : LogitBiasState α) : Prop :=
  s.biasTensor = (slice s.biases).map Prod.snd ∧ s.logitsSlice = (slice s.biases).map Prod.fst

/-- At the start the tensors of the biases are current. -/
theorem current_init : (init : LogitBiasState α).Current := ⟨rfl, rfl⟩

/-- The biases after an update are those of `process_dict_updates`. -/
theorem biases_updateState (s : LogitBiasState α) (u : Option BatchUpdate) :
    (s.updateState logitBias u).biases = (processDictUpdates logitBias s.biases u).1 := by
  unfold updateState
  dsimp only
  split <;> rfl

/-- The tensors stay those of the biases, since every change of the biases is noticed. -/
theorem Current.updateState (hs : s.Current) (logitBias : NewState (Dict Token α))
    (u : Option BatchUpdate) : (s.updateState logitBias u).Current := by
  unfold LogitBiasState.updateState
  dsimp only
  split
  · exact ⟨rfl, rfl⟩
  · rename_i hflag
    have hsame : (processDictUpdates logitBias s.biases u).1 = s.biases :=
      processDictUpdates_unchanged (Bool.not_eq_true _ ▸ hflag)
    exact ⟨hsame.symm ▸ hs.1, hsame.symm ▸ hs.2⟩

/-- The entries of another row are not found. -/
theorem lookupEntry_row (i j : ℕ) (t : Token) (l : List (Token × α)) :
    lookupEntry (i, t) (l.map fun b => ((j, b.1), b.2)) =
      if j = i then lookupEntry t l else none := by
  induction l with
  | nil => simp [lookupEntry]
  | cons b l ih =>
    rw [List.map_cons, lookupEntry, ih, lookupEntry]
    by_cases hj : j = i <;> by_cases ht : b.1 = t <;> simp [hj, ht]

/-- The place of a row and a token holds the bias of that token in that row. -/
theorem lookupEntry_slice (biases : Dict ℕ (Dict Token α)) (i : ℕ) (t : Token) :
    lookupEntry (i, t) (slice biases) = (biases.get? i).bind fun b => b.get? t := by
  have hrows : ∀ l : List (ℕ × Dict Token α), (l.map Prod.fst).Nodup →
      lookupEntry (i, t) (l.flatMap fun e => e.2.entries.map fun b => ((e.1, b.1), b.2)) =
        (lookupEntry i l).bind fun b => b.get? t := by
    intro l hl
    induction l with
    | nil => rfl
    | cons e l ih =>
      rw [List.map_cons, List.nodup_cons] at hl
      rw [List.flatMap_cons, lookupEntry_append, lookupEntry_row, ih hl.2, lookupEntry]
      by_cases he : e.1 = i
      · have habsent : lookupEntry i l = none := by
          rw [← Option.not_isSome_iff_eq_none, lookupEntry_isSome, ← he]
          exact hl.1
        rw [if_pos he, if_pos he, habsent]
        exact Option.or_none
      · rw [if_neg he, if_neg he]
        rfl
  exact hrows biases.entries biases.nodup

/-- The tensors of a list of pairs zip to it. -/
theorem zip_slice (l : List ((ℕ × Token) × α)) :
    (l.map Prod.fst).zip (l.map Prod.snd) = l := by
  rw [List.zip_map', List.map_id']

/-- With current tensors, exactly the biases of the rows are added. -/
theorem Current.apply_eq [Add α] (hs : s.Current) (logits : Logits α) (i : ℕ) (t : Token) :
    s.apply logits i t =
      ((s.biases.get? i).bind fun b => b.get? t).elim (logits i t) (logits i t + ·) := by
  obtain ⟨htensor, hslice⟩ := hs
  unfold LogitBiasState.apply
  rw [htensor, hslice, zip_slice, lookupEntry_slice]
  split
  · rename_i hnil
    rw [Dict.get?_of_keys_eq_nil hnil]
    rfl
  · cases (s.biases.get? i).bind fun b => b.get? t <;> rfl

end LogitBiasState

/-! ### Min-p -/

namespace MinPState

variable [Zero α] [DecidableEq α] {s : MinPState α} {p : MinPState α × Bool}
  {minP : AddedRequest → α}

/-- The count is the number of rows with a value. -/
def Counted (s : MinPState α) : Prop :=
  ∃ rows : Finset ℕ, (∀ i, i ∈ rows ↔ s.minPCpu i ≠ 0) ∧ s.minPCount = rows.card

omit [DecidableEq α] in
/-- At first no row has a value. -/
theorem counted_init : (init : MinPState α).Counted := ⟨∅, fun i => by simp [init], rfl⟩

variable (minP) in
/-- Adding a request keeps the count right and writes its row. -/
theorem Counted.addRow (hs : p.1.Counted) (a : AddedRequest) :
    (addRow minP p a).1.Counted ∧
      (addRow minP p a).1.minPCpu = Function.update p.1.minPCpu a.index (minP a) := by
  obtain ⟨rows, hrows, hcount⟩ := hs
  unfold MinPState.addRow
  dsimp only
  split
  · rename_i hsame
    exact ⟨⟨rows, hrows, hcount⟩, by rw [← hsame, Function.update_eq_self]⟩
  · rename_i hne
    refine ⟨?_, rfl⟩
    have hin := hrows a.index
    by_cases hnew : minP a = 0
    · have hmem : a.index ∈ rows := hin.mpr fun h => hne (h.trans hnew.symm)
      refine ⟨rows.erase a.index, fun i => ?_, ?_⟩
      · by_cases hi : i = a.index
        · simp [hi, hnew]
        · simp [hi, hrows]
      · have hbefore : p.1.minPCpu a.index ≠ 0 := hin.mp hmem
        have hcard := Finset.card_erase_add_one hmem
        simp only [hnew, hbefore, ne_eq, not_true_eq_false, if_false, not_false_iff,
          and_self, if_true]
        omega
    · by_cases hbefore : p.1.minPCpu a.index = 0
      · have hmem : a.index ∉ rows := fun h => hin.mp h hbefore
        refine ⟨insert a.index rows, fun i => ?_, ?_⟩
        · by_cases hi : i = a.index
          · simp [hi, hnew]
          · simp [hi, hrows]
        · simp only [hnew, hbefore, ne_eq, not_false_iff, and_self, if_true,
            Finset.card_insert_of_notMem hmem]
          omega
      · refine ⟨rows, fun i => ?_, ?_⟩
        · by_cases hi : i = a.index
          · simp [hi, hnew, hin, hbefore]
          · simp [hi, hrows]
        · simp [hnew, hbefore, hcount]

/-- Removing a row keeps the count right and clears the row. -/
theorem Counted.removeRow (hs : s.Counted) (index : ℕ) :
    (s.removeRow index).Counted ∧
      (s.removeRow index).minPCpu = Function.update s.minPCpu index 0 := by
  obtain ⟨rows, hrows, hcount⟩ := hs
  unfold MinPState.removeRow
  split
  · rename_i hzero
    exact ⟨⟨rows, hrows, hcount⟩, by rw [← hzero, Function.update_eq_self]⟩
  · rename_i hne
    have hmem : index ∈ rows := (hrows index).mpr hne
    have hcard := Finset.card_erase_add_one hmem
    refine ⟨⟨rows.erase index, fun i => ?_, by simp only; omega⟩, rfl⟩
    by_cases hi : i = index
    · simp [hi]
    · simp [hi, hrows]

/-- The array after a move, without the test that saves equal values from being written. -/
theorem minPCpu_moveRow (p : MinPState α × Bool) {m : MovedRequest} (hm : m.src ≠ m.dst) :
    (moveRow p m).1.minPCpu = applyMove 0 p.1.minPCpu m := by
  funext i
  unfold MinPState.moveRow applyMove
  cases hd : m.direct
  · by_cases ha : p.1.minPCpu m.src = p.1.minPCpu m.dst
    · by_cases hz : p.1.minPCpu m.src = 0 <;> simp only [ha, if_true] <;> grind
    · by_cases hz : p.1.minPCpu m.src = 0 <;>
        simp only [if_neg ha, reduceCtorEq, if_false] <;> grind
  · by_cases ha : p.1.minPCpu m.src = p.1.minPCpu m.dst
    · simp only [ha, if_true]
      grind
    · simp only [if_neg ha, if_true, Function.update_apply]
      grind

/-- A move keeps the count right: a one-way move into a row with a value loses that value. -/
theorem Counted.moveRow (hs : p.1.Counted) {m : MovedRequest} (hm : m.src ≠ m.dst) :
    (moveRow p m).1.Counted := by
  obtain ⟨rows, hrows, hcount⟩ := hs
  have hcpu := minPCpu_moveRow p hm
  have hsrc := hrows m.src
  have hdst := hrows m.dst
  cases hd : m.direct with
  | unidirectional =>
    have hcnt : (MinPState.moveRow p m).1.minPCount =
        if p.1.minPCpu m.dst = 0 then p.1.minPCount else p.1.minPCount - 1 := by
      simp only [MinPState.moveRow, hd]
    refine ⟨if p.1.minPCpu m.src = 0 then rows.erase m.dst
      else insert m.dst (rows.erase m.src), fun i => ?_, ?_⟩
    · rw [hcpu]
      simp only [applyMove, hd]
      have hi := hrows i
      split <;> simp only [Finset.mem_erase, Finset.mem_insert] <;> grind
    · rw [hcnt]
      by_cases ha : p.1.minPCpu m.src = 0
      · rw [if_pos ha]
        by_cases hb : p.1.minPCpu m.dst = 0
        · rw [if_pos hb, Finset.erase_eq_of_notMem fun h => hdst.mp h hb, hcount]
        · have hcard := Finset.card_erase_add_one (hdst.mpr hb)
          rw [if_neg hb]
          omega
      · have hmem := hsrc.mpr ha
        have hcard := Finset.card_erase_add_one hmem
        rw [if_neg ha]
        by_cases hb : p.1.minPCpu m.dst = 0
        · have hnot : m.dst ∉ rows.erase m.src := fun h => hdst.mp (Finset.mem_of_mem_erase h) hb
          rw [if_pos hb, Finset.card_insert_of_notMem hnot]
          omega
        · have hin : m.dst ∈ rows.erase m.src := Finset.mem_erase.mpr ⟨Ne.symm hm, hdst.mpr hb⟩
          rw [if_neg hb, Finset.insert_eq_of_mem hin]
          omega
  | swap =>
    have hcnt : (MinPState.moveRow p m).1.minPCount = p.1.minPCount := by
      simp only [MinPState.moveRow, hd]
    refine ⟨rows.map (Equiv.swap m.src m.dst).toEmbedding, fun i => ?_, ?_⟩
    · rw [hcpu, Finset.mem_map_equiv, hrows, Equiv.symm_swap]
      simp only [applyMove, hd]
      by_cases hid : i = m.dst
      · rw [hid, Equiv.swap_apply_right, if_pos rfl]
      · by_cases his : i = m.src
        · rw [his, Equiv.swap_apply_left, if_neg hm, if_pos rfl]
        · rw [Equiv.swap_apply_of_ne_of_ne his hid, if_neg hid, if_neg his]
    · rw [hcnt, Finset.card_map, hcount]

variable (minP) in
/-- Min-p loses nothing by its count: the array gets the update on its rows, and the count stays
the number of rows with a value. -/
theorem Counted.updateRows (hs : s.Counted) {u : BatchUpdate}
    (hmoved : ∀ m ∈ u.moved, m.src ≠ m.dst) :
    (s.updateRows minP u).1.Counted ∧
      (s.updateRows minP u).1.minPCpu =
        applyRows 0 minP s.minPCpu u.added u.removed u.moved := by
  have hadded : ∀ (l : List AddedRequest) (p : MinPState α × Bool), p.1.Counted →
      (l.foldl (MinPState.addRow minP) p).1.Counted ∧
        (l.foldl (MinPState.addRow minP) p).1.minPCpu = applyAdded minP p.1.minPCpu l := by
    intro l
    induction l with
    | nil => exact fun p hp => ⟨hp, rfl⟩
    | cons a l ih =>
      intro p hp
      obtain ⟨hp', hcpu⟩ := hp.addRow minP a
      obtain ⟨hc, hl⟩ := ih _ hp'
      exact ⟨hc, by rw [List.foldl_cons, hl, hcpu]; rfl⟩
  have hremoved : ∀ (l : List ℕ) (s : MinPState α), s.Counted →
      (l.foldl MinPState.removeRow s).Counted ∧
        (l.foldl MinPState.removeRow s).minPCpu = applyRemoved 0 s.minPCpu l := by
    intro l
    induction l with
    | nil => exact fun s hs => ⟨hs, by funext i; simp [applyRemoved]⟩
    | cons index l ih =>
      intro s hs
      obtain ⟨hs', hcpu⟩ := hs.removeRow index
      obtain ⟨hc, hl⟩ := ih _ hs'
      refine ⟨hc, ?_⟩
      rw [List.foldl_cons, hl, hcpu]
      funext i
      simp only [applyRemoved, Function.update_apply, List.mem_cons]
      by_cases hi : i = index <;> simp [hi]
  have hmoves : ∀ (l : List MovedRequest) (p : MinPState α × Bool), (∀ m ∈ l, m.src ≠ m.dst) →
      p.1.Counted → (l.foldl MinPState.moveRow p).1.Counted ∧
        (l.foldl MinPState.moveRow p).1.minPCpu = l.foldl (applyMove 0) p.1.minPCpu := by
    intro l
    induction l with
    | nil => exact fun p _ hp => ⟨hp, rfl⟩
    | cons m l ih =>
      intro p hl hp
      have hm := hl m (by simp)
      obtain ⟨hc, hcpu⟩ := ih _ (fun m' hm' => hl m' (by simp [hm'])) (hp.moveRow hm)
      exact ⟨hc, by rw [List.foldl_cons, hcpu, minPCpu_moveRow p hm, List.foldl_cons]⟩
  obtain ⟨hs₁, hcpu₁⟩ := hadded u.added (s, false) hs
  unfold MinPState.updateRows
  dsimp only
  split
  · rename_i hzero
    obtain ⟨rows, hrows, hcount⟩ := hs₁
    have hempty : rows = ∅ := by
      rw [hzero] at hcount
      exact Finset.card_eq_zero.mp (by exact_mod_cast hcount.symm)
    have hnone : applyAdded minP s.minPCpu u.added = fun _ => 0 := by
      rw [← hcpu₁]
      funext i
      by_contra hi
      have hmem := (hrows i).mpr hi
      rw [hempty] at hmem
      simp at hmem
    refine ⟨⟨rows, hrows, hcount⟩, ?_⟩
    rw [hcpu₁, hnone]
    exact (applyRows_of_clear hnone).symm
  · obtain ⟨hs₂, hcpu₂⟩ := hremoved u.removed _ hs₁
    obtain ⟨hs₃, hcpu₃⟩ := hmoves u.moved
      ((u.removed.foldl MinPState.removeRow (u.added.foldl (MinPState.addRow minP) (s, false)).1),
        (u.added.foldl (MinPState.addRow minP) (s, false)).2 || !u.removed.isEmpty) hmoved hs₂
    exact ⟨hs₃, by rw [hcpu₃, hcpu₂, hcpu₁, applyRows]⟩

variable (minP) in
/-- What `update_state` does to the array is what it does to the rows. -/
theorem updateState_some (s : MinPState α) (u : BatchUpdate) :
    (s.updateState minP (some u)).minPCpu = (s.updateRows minP u).1.minPCpu ∧
      (s.updateState minP (some u)).minPCount = (s.updateRows minP u).1.minPCount := by
  unfold updateState
  dsimp only
  split <;> exact ⟨rfl, rfl⟩

variable (minP) in
/-- The update has its effect on the rows, and the count stays the number of rows with a value. -/
theorem Counted.updateState (hs : s.Counted) {u : Option BatchUpdate}
    (hmoved : ∀ u', u = some u' → ∀ m ∈ u'.moved, m.src ≠ m.dst) :
    (s.updateState minP u).Counted ∧
      (s.updateState minP u).minPCpu = applyUpdate 0 minP s.minPCpu u := by
  cases u with
  | none => exact ⟨hs, rfl⟩
  | some u =>
    obtain ⟨⟨rows, hrows, hcount⟩, hcpu⟩ := hs.updateRows minP (hmoved u rfl)
    obtain ⟨hcpu', hcount'⟩ := updateState_some minP s u
    refine ⟨⟨rows, fun i => ?_, hcount'.trans hcount⟩, hcpu'.trans hcpu⟩
    rw [hcpu']
    exact hrows i

/-! ### The copy of min-p on the device -/

/-- While a row has a value, the copy shows the first `n` rows of the array. -/
def Current (s : MinPState α) (n : ℕ) : Prop :=
  s.minPCount ≠ 0 → s.minP = (List.range n).map s.minPCpu

/-- Without a noticed change, the copy and the first `n` rows are as they were. -/
def Unchanged (s : MinPState α) (n : ℕ) (p : MinPState α × Bool) : Prop :=
  p.1.minP = s.minP ∧ (p.2 = false → ∀ i < n, p.1.minPCpu i = s.minPCpu i)

variable (minP) in
/-- An added request that changes nothing leaves everything as it is. -/
theorem addRow_unchanged {a : AddedRequest} :
    (addRow minP p a).1.minP = p.1.minP ∧
      ((addRow minP p a).2 = false → addRow minP p a = p) := by
  unfold addRow
  dsimp only
  split
  · exact ⟨rfl, fun _ => rfl⟩
  · exact ⟨rfl, fun h => nomatch h⟩

variable (minP) in
/-- Added requests that change nothing leave everything as it is. -/
theorem addRows_unchanged (l : List AddedRequest) (p : MinPState α × Bool) :
    (l.foldl (addRow minP) p).1.minP = p.1.minP ∧
      ((l.foldl (addRow minP) p).2 = false → l.foldl (addRow minP) p = p) := by
  induction l generalizing p with
  | nil => exact ⟨rfl, fun _ => rfl⟩
  | cons a l ih =>
    obtain ⟨hcopy, hsame⟩ := addRow_unchanged minP (p := p) (a := a)
    obtain ⟨hcopy', hsame'⟩ := ih (addRow minP p a)
    refine ⟨hcopy'.trans hcopy, fun h => ?_⟩
    have hrest := hsame' h
    rw [List.foldl_cons, hrest] at h ⊢
    exact hsame h

omit [DecidableEq α] in
/-- Removed rows do not touch the copy. -/
theorem minP_removeRows [DecidableEq α] (l : List ℕ) (s : MinPState α) :
    (l.foldl removeRow s).minP = s.minP := by
  induction l generalizing s with
  | nil => rfl
  | cons i l ih =>
    rw [List.foldl_cons, ih, removeRow]
    split <;> rfl

/-- A move that is not noticed changes no row below `n`: its two rows have the same value, and a
one-way move clears a row that is `n` or more. -/
theorem Unchanged.moveRow {n : ℕ} (hp : s.Unchanged n p) {m : MovedRequest} (hne : m.src ≠ m.dst)
    (hm : m.direct = .unidirectional → n ≤ m.src) : s.Unchanged n (moveRow p m) := by
  obtain ⟨hcopy, hrows⟩ := hp
  have hcpu := minPCpu_moveRow p hne
  refine ⟨?_, fun hflag i hi => ?_⟩
  · unfold MinPState.moveRow
    cases m.direct <;> exact hcopy
  · have hsame : p.2 = false ∧ p.1.minPCpu m.src = p.1.minPCpu m.dst := by
      unfold MinPState.moveRow at hflag
      cases hd : m.direct <;> simp only [hd] at hflag <;> simpa using hflag
    rw [hcpu, ← hrows hsame.1 i hi]
    unfold applyMove
    split
    · rename_i hdst
      rw [hsame.2, hdst]
    · split
      · rename_i hsrc
        cases hd : m.direct with
        | swap =>
          simp only
          rw [← hsame.2, hsrc]
        | unidirectional =>
          have := hm hd
          omega
      · rfl

/-- A noticed change stays noticed through the moves. -/
theorem moveRow_noticed {m : MovedRequest} (h : (moveRow p m).2 = false) : p.2 = false := by
  unfold moveRow at h
  cases hd : m.direct <;> simp only [hd] at h <;> exact (Bool.or_eq_false_iff.mp h).1

/-- Moves that are not noticed change no row below `n`. -/
theorem Unchanged.moveRows {n : ℕ} {l : List MovedRequest} (hp : s.Unchanged n p)
    (hl : ∀ m ∈ l, m.src ≠ m.dst ∧ (m.direct = .unidirectional → n ≤ m.src)) :
    s.Unchanged n (l.foldl MinPState.moveRow p) ∧
      ((l.foldl MinPState.moveRow p).2 = false → p.2 = false) := by
  induction l generalizing p with
  | nil => exact ⟨hp, id⟩
  | cons m l ih =>
    obtain ⟨hne, hsrc⟩ := hl m (by simp)
    obtain ⟨hsame, hflag⟩ := ih (hp.moveRow hne hsrc) fun m' hm' => hl m' (by simp [hm'])
    exact ⟨hsame, fun h => moveRow_noticed (hflag h)⟩

/-- An update that is not noticed, while a row has a value, changes no row below `n`. -/
theorem updateRows_unchanged {n : ℕ} {u : BatchUpdate}
    (hmoved : ∀ m ∈ u.moved, m.src ≠ m.dst ∧ (m.direct = .unidirectional → n ≤ m.src))
    (hcount : (s.updateRows minP u).1.minPCount ≠ 0)
    (hflag : (s.updateRows minP u).2 = false) :
    s.minPCount ≠ 0 ∧ s.Unchanged n (s.updateRows minP u) := by
  obtain ⟨-, hadded⟩ := addRows_unchanged minP u.added (s, false)
  unfold updateRows at hcount hflag ⊢
  dsimp only at hcount hflag ⊢
  split at hcount
  · rename_i hzero
    exact absurd hzero hcount
  · rename_i hvalue
    rw [if_neg hvalue] at hflag ⊢
    have hstart : s.Unchanged n (u.removed.foldl removeRow (u.added.foldl (addRow minP) (s, false)).1,
        (u.added.foldl (addRow minP) (s, false)).2 || !u.removed.isEmpty) := by
      refine ⟨?_, fun h i _ => ?_⟩
      · rw [minP_removeRows]
        exact (addRows_unchanged minP u.added (s, false)).1
      · obtain ⟨hadd, hnone⟩ := Bool.or_eq_false_iff.mp h
        rw [Bool.not_eq_false', List.isEmpty_iff] at hnone
        rw [hnone, hadded hadd]
        rfl
    obtain ⟨hsame, hbefore⟩ := hstart.moveRows hmoved
    have hadd := (Bool.or_eq_false_iff.mp (hbefore hflag)).1
    rw [hadded hadd] at hvalue
    exact ⟨hvalue, hsame⟩

/-- The copy stays that of the array. -/
theorem Current.updateState {n : ℕ} {u : Option BatchUpdate} (hs : s.Current n)
    (hnone : u = none → n' = n)
    (hsome : ∀ u', u = some u' → u'.batchSize = n' ∧ ∀ m ∈ u'.moved, m.src ≠ m.dst ∧
      (m.direct = .unidirectional → n' ≤ m.src)) : (s.updateState minP u).Current n' := by
  cases u with
  | none =>
    rw [hnone rfl]
    exact hs
  | some u =>
    obtain ⟨hsize, hmoved⟩ := hsome u rfl
    intro hcount
    rw [(updateState_some minP s u).1]
    rw [(updateState_some minP s u).2] at hcount
    unfold MinPState.updateState
    dsimp only
    split
    · rw [hsize]
    · rename_i hstale
      obtain ⟨hflag, hlength⟩ := not_or.mp (not_and.mp hstale hcount)
      rw [not_not, hsize] at hlength
      obtain ⟨hvalue, hcopy, hrows⟩ :=
        updateRows_unchanged hmoved hcount (Bool.not_eq_true _ ▸ hflag)
      have hold := hs hvalue
      rw [hcopy] at hlength ⊢
      have hn : n = n' := by
        rw [hold, List.length_map, List.length_range] at hlength
        exact hlength
      rw [hold, hn]
      exact List.map_congr_left fun i hi =>
        (hrows (Bool.not_eq_true _ ▸ hflag) i (List.mem_range.mp hi)).symm

end MinPState

end RpsServe
