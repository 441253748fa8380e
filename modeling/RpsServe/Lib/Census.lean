import RpsServe.Lib.Dict
import Mathlib.Data.Finset.Card
import Mathlib.Data.Finset.Basic
import Mathlib.Algebra.BigOperators.Group.List.Basic
import Mathlib.Algebra.Order.Ring.Int

/-!
# Census of a dictionary

How many keys of a dictionary have a value of a given kind, how much its values and its
entries weigh, and how one write changes these numbers. A write moves one key from the kinds
of its old value to the kinds of its new one.
-/

namespace RpsServe.Dict

variable {α β : Type*} [DecidableEq α]

/-- The keys whose value is of the kind `p`. -/
def keysWith (d : Dict α β) (p : β → Bool) : Finset α :=
  d.keys.toFinset.filter fun k => (d.get? k).any p

variable {d : Dict α β} {p q : β → Bool} {k j : α} {v : β}

/-- The keys with a property are those whose value has it. -/
@[simp] theorem mem_keysWith : k ∈ d.keysWith p ↔ ∃ v, d.get? k = some v ∧ p v := by
  rw [keysWith, Finset.mem_filter, List.mem_toFinset, ← isSome_get?]
  cases d.get? k with
  | none => simp
  | some v => simp

/-- The empty dictionary has no key with a property. -/
@[simp] theorem keysWith_empty (p : β → Bool) : (empty : Dict α β).keysWith p = ∅ := rfl

/-- A write of a value of the kind adds the key. -/
theorem keysWith_set_of_pos (h : p v = true) : (d.set k v).keysWith p = insert k (d.keysWith p) := by
  ext j
  rw [Finset.mem_insert, mem_keysWith, mem_keysWith, get?_set]
  by_cases hj : k = j
  · simp [hj, h]
  · simp [hj, Ne.symm hj]

/-- A write of a value of another kind takes the key away. -/
theorem keysWith_set_of_neg (h : p v = false) :
    (d.set k v).keysWith p = (d.keysWith p).erase k := by
  ext j
  rw [Finset.mem_erase, mem_keysWith, mem_keysWith, get?_set]
  by_cases hj : k = j
  · simp [hj, h]
  · simp [hj, Ne.symm hj]

/-- The balance of one write: what the old value counted for, the new one does. -/
theorem card_keysWith_set (d : Dict α β) (p : β → Bool) (k : α) (v : β) :
    ((d.set k v).keysWith p).card + (if (d.get? k).any p then 1 else 0) =
      (d.keysWith p).card + if p v then 1 else 0 := by
  have hmem : k ∈ d.keysWith p ↔ (d.get? k).any p = true := by
    rw [mem_keysWith, Option.any_eq_true]
  cases hv : p v with
  | true =>
    rw [keysWith_set_of_pos hv]
    by_cases hk : k ∈ d.keysWith p
    · rw [Finset.insert_eq_of_mem hk, if_pos (hmem.mp hk), if_pos rfl]
    · rw [Finset.card_insert_of_notMem hk, if_neg (mt hmem.mpr hk), if_pos rfl]
  | false =>
    rw [keysWith_set_of_neg hv]
    by_cases hk : k ∈ d.keysWith p
    · rw [if_pos (hmem.mp hk), if_neg Bool.false_ne_true, Finset.card_erase_add_one hk,
        Nat.add_zero]
    · rw [Finset.erase_eq_of_notMem hk, if_neg (mt hmem.mpr hk), if_neg Bool.false_ne_true]

/-- Two kinds without a common value are counted apart. -/
theorem card_keysWith_or (h : ∀ v, p v = true → q v = false) :
    (d.keysWith fun v => p v || q v).card = (d.keysWith p).card + (d.keysWith q).card := by
  rw [← Finset.card_union_of_disjoint]
  · congr 1
    ext k
    simp only [mem_keysWith, Finset.mem_union, Bool.or_eq_true]
    constructor
    · rintro ⟨v, hv, hp | hq⟩
      exacts [.inl ⟨v, hv, hp⟩, .inr ⟨v, hv, hq⟩]
    · rintro (⟨v, hv, hp⟩ | ⟨v, hv, hq⟩)
      exacts [⟨v, hv, .inl hp⟩, ⟨v, hv, .inr hq⟩]
  · rw [Finset.disjoint_left]
    intro k hp hq
    obtain ⟨v, hv, hpv⟩ := mem_keysWith.mp hp
    obtain ⟨w, hw, hqw⟩ := mem_keysWith.mp hq
    have hvw : w = v := Option.some.inj (hw.symm.trans hv)
    rw [hvw, h v hpv] at hqw
    exact Bool.false_ne_true hqw

/-- No key is of a kind that counts nothing. -/
theorem card_keysWith_eq_zero :
    (d.keysWith p).card = 0 ↔ ∀ k v, d.get? k = some v → p v = false := by
  rw [Finset.card_eq_zero, Finset.eq_empty_iff_forall_notMem]
  refine forall_congr' fun k => ?_
  simp only [mem_keysWith, not_exists, not_and, Bool.not_eq_true]

/-! ## Totals -/

/-- The sum of a measure over the values. -/
def total (d : Dict α β) (f : β → ℕ) : ℕ := (d.values.map f).sum

omit [DecidableEq α] in
/-- The empty dictionary has no total. -/
@[simp] theorem total_empty (f : β → ℕ) : (empty : Dict α β).total f = 0 := rfl

/-- A fresh key adds its value. -/
theorem total_set (f : β → ℕ) (h : k ∉ d.keys) : (d.set k v).total f = d.total f + f v := by
  simp [total, values, entries_set v h]

/-- A key that is written again exchanges its old value for the new one. -/
theorem total_set_of_get? (f : β → ℕ) {old : β} (h : d.get? k = some old) :
    (d.set k v).total f + f old = d.total f + f v := by
  have hset : ∀ l : List (α × β), lookupEntry k l = some old →
      (((setEntry k v l).map Prod.snd).map f).sum + f old =
        ((l.map Prod.snd).map f).sum + f v := by
    intro l hl
    induction l with
    | nil => cases hl
    | cons e rest ih =>
      by_cases hek : e.1 = k
      · rw [lookupEntry, if_pos hek, Option.some.injEq] at hl
        rw [setEntry, if_pos hek, ← hl]
        simp only [List.map_cons, List.sum_cons]
        omega
      · rw [lookupEntry, if_neg hek] at hl
        have hsum := ih hl
        rw [setEntry, if_neg hek]
        simp only [List.map_cons, List.sum_cons]
        omega
  exact hset d.entries h

/-- An erased key takes its value away. -/
theorem total_erase (f : β → ℕ) (h : d.get? k = some v) :
    (d.erase k).total f + f v = d.total f := by
  have hperm := ((entries_perm_erase h).map fun e => f e.2).sum_eq
  rw [List.map_cons, List.sum_cons] at hperm
  simp only [total, values, List.map_map, Function.comp_def]
  dsimp only at hperm
  omega

/-- The value of a key is a part of the total. -/
theorem le_total (f : β → ℕ) (h : d.get? k = some v) : f v ≤ d.total f := by
  have herase := total_erase f h
  omega

/-- A measure that is one for the values of a kind and zero for the others counts their keys. -/
theorem total_eq_card {f : β → ℕ} (h : ∀ k v, d.get? k = some v → f v = if p v then 1 else 0) :
    d.total f = (d.keysWith p).card := by
  have hkeys : d.keysWith p = ((d.entries.filter fun e => p e.2).map Prod.fst).toFinset := by
    ext k
    rw [mem_keysWith, List.mem_toFinset, List.mem_map]
    constructor
    · rintro ⟨v, hv, hp⟩
      exact ⟨(k, v), List.mem_filter.mpr ⟨mem_entries_of_get? hv, hp⟩, rfl⟩
    · rintro ⟨e, he, rfl⟩
      obtain ⟨he, hp⟩ := List.mem_filter.mp he
      exact ⟨e.2, get?_of_mem_entries he, hp⟩
  have hsum : ∀ l : List (α × β), (∀ e ∈ l, f e.2 = if p e.2 then 1 else 0) →
      ((l.map Prod.snd).map f).sum = (l.filter fun e => p e.2).length := by
    intro l hl
    induction l with
    | nil => rfl
    | cons e rest ih =>
      rw [List.map_cons, List.map_cons, List.sum_cons, List.filter_cons, hl e List.mem_cons_self,
        ih fun e' he' => hl e' (List.mem_cons_of_mem e he')]
      split
      · rw [List.length_cons, Nat.add_comm]
      · rw [Nat.zero_add]
  have hnodup : ((d.entries.filter fun e => p e.2).map Prod.fst).Nodup :=
    (keys_nodup d).sublist (List.filter_sublist.map Prod.fst)
  rw [hkeys, List.toFinset_card_of_nodup hnodup, List.length_map]
  exact hsum d.entries fun e he => h e.1 e.2 (get?_of_mem_entries he)

/-! ## Weights -/

/-- The sum of a weight over the entries. -/
def weight (d : Dict α β) (w : α → β → ℤ) : ℤ := (d.entries.map fun e => w e.1 e.2).sum

variable {w w' : α → β → ℤ}

omit [DecidableEq α] in
/-- The empty dictionary has no weight. -/
@[simp] theorem weight_empty (w : α → β → ℤ) : (empty : Dict α β).weight w = 0 := rfl

omit [DecidableEq α] in
/-- The weight depends on the weights of the entries alone. -/
theorem weight_congr (h : ∀ k v, w k v = w' k v) : d.weight w = d.weight w' := by
  simp only [weight, h]

omit [DecidableEq α] in
/-- The sum of the values is the weight by the values. -/
theorem values_sum (d : Dict α ℤ) : d.values.sum = d.weight fun _ n => n := rfl

/-- A fresh key adds its weight. -/
theorem weight_set (w : α → β → ℤ) (h : k ∉ d.keys) : (d.set k v).weight w = d.weight w + w k v := by
  simp [weight, entries_set v h]

/-- An erased key takes its weight away. -/
theorem weight_erase (w : α → β → ℤ) (h : d.get? k = some v) :
    (d.erase k).weight w = d.weight w - w k v := by
  have hperm := ((entries_perm_erase h).map fun e => w e.1 e.2).sum_eq
  rw [List.map_cons, List.sum_cons] at hperm
  simp only [weight]
  dsimp only at hperm
  omega

/-- Erasing a key that is not there changes nothing. -/
theorem weight_erase_of_none (w : α → β → ℤ) (h : d.get? k = none) :
    (d.erase k).weight w = d.weight w := by
  have hkeys : k ∉ d.keys := fun hk => by
    have hsome := (d.isSome_get? k).mpr hk
    rw [h] at hsome
    cases hsome
  have hsame : (d.erase k).entries = d.entries :=
    List.filter_eq_self.mpr fun e he => decide_eq_true fun hek =>
      hkeys (hek ▸ List.mem_map_of_mem he)
  rw [weight, weight, hsame]

end RpsServe.Dict
