import RpsServe.Lib.Heap
import Mathlib.Data.Fintype.Order
import Mathlib.Order.WithBot
import Mathlib.Logic.Equiv.Basic

/-!
# The order of a heap

Where the comparison is that of a key into a linear order, and the keys of the entries do
not change, the list is a heap: no entry has a smaller key than its parent. Positions past
the end count as holding the greatest key, so that the order is one inequality for each
position. Pushing and popping keep the order, a pop returns a least entry, and popping until
the heap is empty yields the entries in the order of their keys.
-/

namespace RpsServe

namespace Heap

variable {α κ : Type*} {key : α → κ} {l : List α} {i j pos fuel : ℕ} {a : α}

/-- The key at a position, the greatest one past the end. -/
def keyAt (key : α → κ) (l : List α) (i : ℕ) : WithTop κ :=
  match l[i]? with
  | some a => key a
  | none => ⊤

/-- Beyond the end the key is the largest. -/
@[simp] theorem keyAt_of_length_le (h : l.length ≤ i) : keyAt key l i = ⊤ := by
  simp [keyAt, List.getElem?_eq_none h]

/-- Within the list the key is that of the entry. -/
theorem keyAt_of_getElem? (h : l[i]? = some a) : keyAt key l i = key a := by
  simp [keyAt, h]

/-- Exchanging two entries keeps the length. -/
@[simp] theorem length_swapAt (l : List α) (i j : ℕ) : (swapAt l i j).length = l.length :=
  (swapAt_perm l i j).length_eq

/-- Exchanging two entries exchanges their keys. -/
theorem keyAt_swapAt (key : α → κ) (hi : i < l.length) (hj : j < l.length) (n : ℕ) :
    keyAt key (swapAt l i j) n = keyAt key l (Equiv.swap i j n) := by
  have hswap : swapAt l i j = (l.set i l[j]).set j l[i] := by
    simp [swapAt, List.getElem?_eq_getElem hi, List.getElem?_eq_getElem hj]
  unfold keyAt
  rw [hswap, List.getElem?_set, List.getElem?_set]
  by_cases hnj : n = j
  · subst hnj
    simp [hj, List.getElem?_eq_getElem hi]
  · by_cases hni : n = i
    · subst hni
      simp [hi, Ne.symm hnj, List.getElem?_eq_getElem hj]
    · rw [Equiv.swap_apply_of_ne_of_ne hni hnj]
      simp [Ne.symm hnj, Ne.symm hni]

variable [LinearOrder κ]

/-- No entry has a smaller key than its parent. -/
def Ordered (key : α → κ) (l : List α) : Prop :=
  ∀ i, 0 < i → keyAt key l ((i - 1) / 2) ≤ keyAt key l i

/-- The order while an entry bubbles up from `pos`: only its own parent may be greater, and the
parent is no greater than its children. -/
structure Bubbling (key : α → κ) (l : List α) (pos : ℕ) : Prop where
  except : ∀ i, 0 < i → i ≠ pos → keyAt key l ((i - 1) / 2) ≤ keyAt key l i
  grand : 0 < pos → ∀ i, 0 < i → (i - 1) / 2 = pos → keyAt key l ((pos - 1) / 2) ≤ keyAt key l i

/-- The order while an entry sinks from `pos`: it may be out of order with its parent and with
its children, and the parent is no greater than the children. -/
structure Sinking (key : α → κ) (l : List α) (pos : ℕ) : Prop where
  except : ∀ i, 0 < i → i ≠ pos → (i - 1) / 2 ≠ pos → keyAt key l ((i - 1) / 2) ≤ keyAt key l i
  grand : 0 < pos → ∀ i, 0 < i → (i - 1) / 2 = pos → keyAt key l ((pos - 1) / 2) ≤ keyAt key l i

/-- In a heap no entry has a smaller key than the root. -/
theorem Ordered.root_le (h : Ordered key l) (i : ℕ) : keyAt key l 0 ≤ keyAt key l i := by
  induction i using Nat.strong_induction_on with
  | _ i ih =>
    rcases Nat.eq_zero_or_pos i with rfl | hpos
    · exact le_rfl
    · exact (ih ((i - 1) / 2) (by omega)).trans (h i hpos)

/-! ## Bubbling up -/

/-- An entry that stands before its parent is exchanged with it. -/
theorem Bubbling.move (h : Bubbling key l pos) (hpos : 0 < pos) (hlen : pos < l.length)
    (hlt : keyAt key l pos < keyAt key l ((pos - 1) / 2)) :
    Bubbling key (swapAt l pos ((pos - 1) / 2)) ((pos - 1) / 2) := by
  have hkey := keyAt_swapAt key hlen (by omega : (pos - 1) / 2 < l.length)
  generalize hp : (pos - 1) / 2 = p at hlt hkey ⊢
  have hne : p ≠ pos := by omega
  have hup : 0 < p → keyAt key l ((p - 1) / 2) ≤ keyAt key l p := fun h0 => h.except p h0 hne
  constructor
  · intro i hi hip
    rw [hkey, hkey]
    by_cases hipos : i = pos
    · subst hipos
      simpa [hp] using hlt.le
    · rw [Equiv.swap_apply_of_ne_of_ne hipos hip]
      by_cases hparent : (i - 1) / 2 = pos
      · rw [hparent, Equiv.swap_apply_left, ← hp]
        exact h.grand hpos i hi hparent
      · by_cases hsib : (i - 1) / 2 = p
        · rw [hsib, Equiv.swap_apply_right]
          exact hlt.le.trans (hsib ▸ h.except i hi hipos)
        · rw [Equiv.swap_apply_of_ne_of_ne hparent hsib]
          exact h.except i hi hipos
  · intro h0 i hi hparent
    rw [hkey, hkey, Equiv.swap_apply_of_ne_of_ne (by omega) (by omega)]
    by_cases hipos : i = pos
    · rw [hipos, Equiv.swap_apply_left]
      exact hup h0
    · rw [Equiv.swap_apply_of_ne_of_ne hipos (by omega)]
      exact (hup h0).trans (hparent ▸ h.except i hi hipos)

/-- An entry that does not stand before its parent is in its place. -/
theorem Bubbling.finish (h : Bubbling key l pos)
    (hstop : 0 < pos → keyAt key l ((pos - 1) / 2) ≤ keyAt key l pos) : Ordered key l := by
  intro i hi
  by_cases hipos : i = pos
  · subst hipos
    exact hstop hi
  · exact h.except i hi hipos

section

variable {lt : α → α → Bool} (hlt : ∀ a b, lt a b = true ↔ key a < key b)
include hlt

/-- Bubbling up ends in a heap. -/
theorem siftdown_ordered (h : Bubbling key l pos) (hlen : pos < l.length) (hfuel : pos ≤ fuel) :
    Ordered key (siftdown lt 0 fuel pos l) := by
  induction fuel generalizing pos l with
  | zero => exact h.finish fun h0 => by omega
  | succ fuel ih =>
    unfold siftdown
    split
    · rename_i hpos
      have hparent : (pos - 1) / 2 < l.length := by omega
      have ha : keyAt key l pos = key l[pos] :=
        keyAt_of_getElem? (List.getElem?_eq_getElem hlen)
      have hb : keyAt key l ((pos - 1) / 2) = key l[(pos - 1) / 2] :=
        keyAt_of_getElem? (List.getElem?_eq_getElem hparent)
      simp only [List.getElem?_eq_getElem hlen, List.getElem?_eq_getElem hparent]
      split
      · rename_i hbefore
        have hless : keyAt key l pos < keyAt key l ((pos - 1) / 2) := by
          rw [ha, hb]
          exact WithTop.coe_lt_coe.mpr ((hlt _ _).mp hbefore)
        exact ih (h.move hpos hlen hless) (by simpa using hparent) (by omega)
      · rename_i hafter
        refine h.finish fun _ => ?_
        rw [ha, hb]
        exact WithTop.coe_le_coe.mpr (not_lt.mp fun hless => hafter ((hlt _ _).mpr hless))
    · exact h.finish fun h0 => by omega

/-- Pushing keeps the heap. -/
theorem push_ordered (h : Ordered key l) (a : α) : Ordered key (push lt l a) := by
  refine siftdown_ordered hlt ⟨fun i hi hne => ?_, fun _ i hi hparent => ?_⟩ (by simp) (by omega)
  · rcases Nat.lt_or_gt_of_ne hne with hbelow | habove
    · have hkeep : ∀ n < l.length, keyAt key (l ++ [a]) n = keyAt key l n := fun n hn => by
        simp [keyAt, List.getElem?_append_left hn]
      rw [hkeep i hbelow, hkeep _ (by omega)]
      exact h i hi
    · rw [keyAt_of_length_le (i := i) (by simp; omega)]
      exact le_top
  · rw [keyAt_of_length_le (i := i) (by simp; omega)]
    exact le_top

/-! ## Sinking -/

/-- The smaller child is one of the children, and neither has a smaller key. -/
theorem smallerChild_spec (hlen : 2 * pos + 1 < l.length) :
    smallerChild lt l pos < l.length ∧ (smallerChild lt l pos - 1) / 2 = pos ∧
      0 < smallerChild lt l pos ∧
      ∀ i, 0 < i → (i - 1) / 2 = pos → keyAt key l (smallerChild lt l pos) ≤ keyAt key l i := by
  have hchild : ∀ i, 0 < i → (i - 1) / 2 = pos → i = 2 * pos + 1 ∨ i = 2 * pos + 2 := by omega
  unfold smallerChild
  by_cases hright : 2 * pos + 2 < l.length
  · simp only [List.getElem?_eq_getElem hlen, List.getElem?_eq_getElem hright]
    have ha : keyAt key l (2 * pos + 1) = key l[2 * pos + 1] :=
      keyAt_of_getElem? (List.getElem?_eq_getElem hlen)
    have hb : keyAt key l (2 * pos + 2) = key l[2 * pos + 2] :=
      keyAt_of_getElem? (List.getElem?_eq_getElem hright)
    split
    · rename_i hbefore
      have hless := WithTop.coe_lt_coe.mpr ((hlt _ _).mp hbefore)
      refine ⟨hlen, by omega, by omega, fun i hi hp => ?_⟩
      rcases hchild i hi hp with rfl | rfl
      · exact le_rfl
      · rw [ha, hb]
        exact hless.le
    · rename_i hafter
      have hle := not_lt.mp fun hless => hafter ((hlt _ _).mpr hless)
      refine ⟨hright, by omega, by omega, fun i hi hp => ?_⟩
      rcases hchild i hi hp with rfl | rfl
      · rw [ha, hb]
        exact WithTop.coe_le_coe.mpr hle
      · exact le_rfl
  · simp only [List.getElem?_eq_getElem hlen,
      List.getElem?_eq_none (by omega : l.length ≤ 2 * pos + 2)]
    refine ⟨hlen, by omega, by omega, fun i hi hp => ?_⟩
    rcases hchild i hi hp with rfl | rfl
    · exact le_rfl
    · rw [keyAt_of_length_le (i := 2 * pos + 2) (by omega)]
      exact le_top

/-- The sinking entry is exchanged with its smaller child. -/
theorem Sinking.move (h : Sinking key l pos) (hlen : 2 * pos + 1 < l.length) :
    Sinking key (swapAt l pos (smallerChild lt l pos)) (smallerChild lt l pos) := by
  obtain ⟨hclen, hparent, hcpos, hmin⟩ := smallerChild_spec hlt hlen
  have hkey := keyAt_swapAt key (by omega : pos < l.length) hclen
  generalize smallerChild lt l pos = c at hclen hparent hcpos hmin hkey ⊢
  have hne : pos ≠ c := by omega
  constructor
  · intro i hi hic hpc
    rw [hkey, hkey]
    by_cases hipos : i = pos
    · subst hipos
      rw [Equiv.swap_apply_left, Equiv.swap_apply_of_ne_of_ne (by omega) hpc]
      exact h.grand hi c hcpos hparent
    · rw [Equiv.swap_apply_of_ne_of_ne hipos hic]
      by_cases hppos : (i - 1) / 2 = pos
      · rw [hppos, Equiv.swap_apply_left]
        exact hmin i hi hppos
      · rw [Equiv.swap_apply_of_ne_of_ne hppos hpc]
        exact h.except i hi hipos hppos
  · intro _ i hi hpi
    rw [hkey, hkey, hparent, Equiv.swap_apply_left,
      Equiv.swap_apply_of_ne_of_ne (by omega) (by omega), ← hpi]
    exact h.except i hi (by omega) (by omega)

/-- The entry sinks to a leaf, from where it bubbles up. -/
theorem sink_bubbling (h : Sinking key l pos) (hlen : pos < l.length)
    (hfuel : l.length ≤ fuel + pos) :
    Bubbling key (sink lt fuel pos l).2 (sink lt fuel pos l).1 ∧
      (sink lt fuel pos l).1 < (sink lt fuel pos l).2.length := by
  induction fuel generalizing pos l with
  | zero => omega
  | succ fuel ih =>
    unfold sink
    split
    · rename_i hchild
      obtain ⟨hclen, hparent, hcpos, -⟩ := smallerChild_spec hlt hchild
      exact ih (h.move hlt hchild) (by simpa using hclen) (by simp; omega)
    · refine ⟨⟨fun i hi hne => ?_, h.grand⟩, hlen⟩
      dsimp only at hne ⊢
      by_cases hparent : (i - 1) / 2 = pos
      · rw [keyAt_of_length_le (i := i) (by omega)]
        exact le_top
      · exact h.except i hi hne hparent

/-- Popping keeps the heap. -/
theorem popRoot_ordered {init : List α} {last : α} (h : Ordered key (init ++ [last])) :
    Ordered key (popRoot lt init last).2 := by
  cases init with
  | nil => exact fun i hi => by simp [popRoot, keyAt]
  | cons root rest =>
    have hsink : Sinking key (last :: rest) 0 := by
      refine ⟨fun i hi _ hparent => ?_, fun h0 => absurd h0 (Nat.lt_irrefl 0)⟩
      by_cases hlen : i < (last :: rest).length
      · have hkeep : ∀ n, 0 < n → n < (last :: rest).length →
            keyAt key (last :: rest) n = keyAt key (root :: rest ++ [last]) n := fun n hn hlt => by
          obtain ⟨m, rfl⟩ := Nat.exists_eq_succ_of_ne_zero hn.ne'
          have : m < rest.length := by simpa using hlt
          simp [keyAt, List.getElem?_append_left this]
        rw [hkeep i hi hlen, hkeep _ (Nat.pos_of_ne_zero hparent) (by omega)]
        exact h i hi
      · rw [keyAt_of_length_le (i := i) (by omega)]
        exact le_top
    have hfuel : (last :: rest).length ≤ (last :: rest).length + 0 := le_rfl
    obtain ⟨hbubble, hleaf⟩ := sink_bubbling hlt hsink (by simp) hfuel
    exact siftdown_ordered hlt hbubble hleaf hleaf.le

omit hlt in
/-- A pop returns an entry with the least key. -/
theorem popRoot_le {init : List α} {last : α} (h : Ordered key (init ++ [last])) :
    ∀ a ∈ init ++ [last], key (popRoot lt init last).1 ≤ key a := by
  intro a ha
  have hroot : keyAt key (init ++ [last]) 0 = key (popRoot lt init last).1 := by
    cases init <;> rfl
  obtain ⟨i, hi⟩ := List.getElem?_of_mem ha
  have hle := h.root_le i
  rw [hroot, keyAt_of_getElem? hi] at hle
  exact WithTop.coe_le_coe.mp hle

/-- Popping until the heap is empty yields the entries in the order of their keys. -/
theorem drain_pairwise (h : Ordered key l) (hfuel : l.length ≤ fuel) :
    (drain lt fuel l).Pairwise fun a b => key a ≤ key b := by
  induction fuel generalizing l with
  | zero => exact List.Pairwise.nil
  | succ fuel ih =>
    unfold drain
    split
    · exact List.Pairwise.nil
    · rename_i last hlast
      have hsplit : l.dropLast ++ [last] = l := List.dropLast_append_getLast? last hlast
      rw [← hsplit] at h
      have hpop := popRoot_perm lt l.dropLast last
      have hlen : (popRoot lt l.dropLast last).2.length ≤ fuel := by
        have := hpop.length_eq
        rw [hsplit] at this
        simp only [List.length_cons] at this
        omega
      refine List.pairwise_cons.mpr ⟨fun b hb => ?_, ih (popRoot_ordered hlt h) hlen⟩
      have hrest : b ∈ (popRoot lt l.dropLast last).2 := (drain_perm lt hlen).mem_iff.mp hb
      exact popRoot_le h b (hpop.mem_iff.mp (List.mem_cons_of_mem _ hrest))

end

end Heap

end RpsServe
