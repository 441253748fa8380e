import Mathlib.Data.List.Basic
import Mathlib.Data.List.Induction
import Mathlib.Data.List.Nodup

/-!
# Insertion-ordered dictionaries

A finite map kept as the list of its entries in insertion order. Writing to a key that
is present changes its value in place, writing to a fresh key appends, and deleting a
key keeps the order of the others. The structure carries the fact that no key occurs
twice, so every lookup lemma below holds of every value of the type.
-/

namespace RpsServe

/-- Write `v` at `k`: in place when the key is present, at the end otherwise. -/
def setEntry {α β : Type*} [DecidableEq α] (k : α) (v : β) : List (α × β) → List (α × β)
  | [] => [(k, v)]
  | e :: rest => if e.1 = k then (k, v) :: rest else e :: setEntry k v rest

/-- The value stored at `k`. -/
def lookupEntry {α β : Type*} [DecidableEq α] (k : α) : List (α × β) → Option β
  | [] => none
  | e :: rest => if e.1 = k then some e.2 else lookupEntry k rest

section Entries

variable {α β : Type*} [DecidableEq α] (k : α) (v : β)

/-- Writing keeps the keys, up to appending a fresh one. -/
theorem setEntry_keys (l : List (α × β)) :
    (setEntry k v l).map Prod.fst =
      if k ∈ l.map Prod.fst then l.map Prod.fst else l.map Prod.fst ++ [k] := by
  induction l with
  | nil => rfl
  | cons e rest ih =>
    by_cases he : e.1 = k
    · simp [setEntry, he]
    · have hne : k ≠ e.1 := fun h => he h.symm
      simp only [setEntry, if_neg he, List.map_cons, ih, List.mem_cons, hne, false_or]
      split <;> rfl

/-- Writing never duplicates a key. -/
theorem setEntry_nodup {l : List (α × β)} (h : (l.map Prod.fst).Nodup) :
    ((setEntry k v l).map Prod.fst).Nodup := by
  rw [setEntry_keys]
  split
  · exact h
  · rename_i hk
    exact List.Nodup.append h (List.nodup_singleton k) (by simpa using hk)

/-- What stands at a key after writing. -/
theorem lookupEntry_setEntry (j : α) (l : List (α × β)) :
    lookupEntry j (setEntry k v l) = if k = j then some v else lookupEntry j l := by
  induction l with
  | nil => simp [setEntry, lookupEntry]
  | cons e rest ih =>
    by_cases he : e.1 = k
    · simp only [setEntry, if_pos he, lookupEntry]
      by_cases hj : k = j
      · simp [hj]
      · simp [hj, he]
    · simp only [setEntry, if_neg he, lookupEntry, ih]
      by_cases hej : e.1 = j
      · have : k ≠ j := fun h => he (hej.trans h.symm)
        simp [hej, this]
      · simp [hej]

/-- A lookup in two lists after one another looks into the first one first. -/
theorem lookupEntry_append (l l' : List (α × β)) :
    lookupEntry k (l ++ l') = (lookupEntry k l).or (lookupEntry k l') := by
  induction l with
  | nil => rfl
  | cons e l ih =>
    rw [List.cons_append, lookupEntry, lookupEntry]
    split
    · rfl
    · exact ih

/-- A key is found when it is among the keys. -/
theorem lookupEntry_isSome (l : List (α × β)) :
    (lookupEntry k l).isSome ↔ k ∈ l.map Prod.fst := by
  induction l with
  | nil => simp [lookupEntry]
  | cons e rest ih =>
    by_cases he : e.1 = k
    · simp [lookupEntry, he]
    · have hne : k ≠ e.1 := fun h => he h.symm
      simp only [lookupEntry, if_neg he, ih, List.map_cons, List.mem_cons, hne, false_or]

omit k v in
/-- With distinct keys, every entry is the one that is found. -/
theorem lookupEntry_of_mem {l : List (α × β)} (h : (l.map Prod.fst).Nodup) {e : α × β}
    (he : e ∈ l) : lookupEntry e.1 l = some e.2 := by
  induction l with
  | nil => simp at he
  | cons x rest ih =>
    rw [List.map_cons, List.nodup_cons] at h
    rcases List.mem_cons.mp he with rfl | he
    · simp [lookupEntry]
    · have hne : x.1 ≠ e.1 := fun heq => h.1 (heq ▸ List.mem_map_of_mem he)
      rw [lookupEntry, if_neg hne, ih h.2 he]

/-- What stands at a key after the entries of a key are filtered out. -/
theorem lookupEntry_filter (j : α) (l : List (α × β)) :
    lookupEntry j (l.filter fun e => e.1 ≠ k) = if k = j then none else lookupEntry j l := by
  induction l with
  | nil => simp [lookupEntry]
  | cons e rest ih =>
    by_cases he : e.1 = k
    · rw [List.filter_cons_of_neg (by simpa using he), ih]
      by_cases hj : k = j
      · simp [hj]
      · simp [lookupEntry, hj, he]
    · rw [List.filter_cons_of_pos (by simpa using he)]
      simp only [lookupEntry, ih]
      by_cases hej : e.1 = j
      · have : k ≠ j := fun h => he (hej.trans h.symm)
        simp [hej, this]
      · simp [hej]

end Entries

/-- A dictionary in insertion order. -/
structure Dict (α β : Type*) where
  entries : List (α × β)
  nodup : (entries.map Prod.fst).Nodup
deriving DecidableEq

namespace Dict

variable {α β : Type*}

/-- The dictionary without entries. -/
def empty : Dict α β := ⟨[], List.nodup_nil⟩

/-- The keys in insertion order. -/
def keys (d : Dict α β) : List α := d.entries.map Prod.fst

/-- The values in insertion order. -/
def values (d : Dict α β) : List β := d.entries.map Prod.snd

/-- The keys of a dictionary are distinct. -/
theorem keys_nodup (d : Dict α β) : d.keys.Nodup := d.nodup

/-- The empty dictionary has no keys. -/
@[simp] theorem keys_empty : (empty : Dict α β).keys = [] := rfl

/-- The empty dictionary has no values. -/
@[simp] theorem values_empty : (empty : Dict α β).values = [] := rfl

variable [DecidableEq α]

/-- The value at a key. -/
def get? (d : Dict α β) (k : α) : Option β := lookupEntry k d.entries

/-- Write a value at a key. -/
def set (d : Dict α β) (k : α) (v : β) : Dict α β :=
  ⟨setEntry k v d.entries, setEntry_nodup k v d.nodup⟩

/-- Delete a key. -/
def erase (d : Dict α β) (k : α) : Dict α β :=
  ⟨d.entries.filter fun e => e.1 ≠ k, d.nodup.sublist (List.filter_sublist.map _)⟩

/-- Change the value at a key, if there is one. -/
def modify (d : Dict α β) (k : α) (f : β → β) : Dict α β :=
  match d.get? k with
  | none => d
  | some v => d.set k (f v)

/-- The entry written last, which `popitem` takes. -/
def last? (d : Dict α β) : Option (α × β) := d.entries.getLast?

/-- The empty dictionary has nothing at any key. -/
@[simp] theorem get?_empty (k : α) : (empty : Dict α β).get? k = none := rfl

/-- After writing, the key has the value and the others have theirs. -/
theorem get?_set (d : Dict α β) (k j : α) (v : β) :
    (d.set k v).get? j = if k = j then some v else d.get? j :=
  lookupEntry_setEntry k v j d.entries

/-- The key that was written has the value. -/
@[simp] theorem get?_set_self (d : Dict α β) (k : α) (v : β) : (d.set k v).get? k = some v := by
  rw [get?_set, if_pos rfl]

/-- Writing leaves the values of the other keys. -/
theorem get?_set_ne (d : Dict α β) {k j : α} (v : β) (h : k ≠ j) :
    (d.set k v).get? j = d.get? j := by
  rw [get?_set, if_neg h]

/-- After deleting, the key has no value and the others have theirs. -/
theorem get?_erase (d : Dict α β) (k j : α) :
    (d.erase k).get? j = if k = j then none else d.get? j :=
  lookupEntry_filter k j d.entries

/-- A key has a value exactly when it is among the keys. -/
theorem isSome_get? (d : Dict α β) (k : α) : (d.get? k).isSome ↔ k ∈ d.keys :=
  lookupEntry_isSome k d.entries

/-- A key with a value is among the keys. -/
theorem mem_keys_of_get? {d : Dict α β} {k : α} {v : β} (h : d.get? k = some v) : k ∈ d.keys :=
  (d.isSome_get? k).mp (by rw [h]; rfl)

/-- An entry is the value of its key. -/
theorem get?_of_mem_entries {d : Dict α β} {e : α × β} (h : e ∈ d.entries) :
    d.get? e.1 = some e.2 :=
  lookupEntry_of_mem d.nodup h

/-- The value of a key is among the entries. -/
theorem mem_entries_of_get? {d : Dict α β} {k : α} {v : β} (h : d.get? k = some v) :
    (k, v) ∈ d.entries := by
  obtain ⟨⟨k', v'⟩, hmem, rfl⟩ := List.mem_map.mp (mem_keys_of_get? h)
  have hget := get?_of_mem_entries hmem
  rw [h] at hget
  cases hget
  exact hmem

/-- The entry written last is the value of its key. -/
theorem get?_of_last? {d : Dict α β} {e : α × β} (h : d.last? = some e) :
    d.get? e.1 = some e.2 :=
  get?_of_mem_entries (List.mem_of_getLast? h)

/-- Writing appends the key unless it is there. -/
theorem keys_set (d : Dict α β) (k : α) (v : β) :
    (d.set k v).keys = if k ∈ d.keys then d.keys else d.keys ++ [k] :=
  setEntry_keys k v d.entries

/-- After writing, the keys are the old ones and the one written. -/
@[simp] theorem mem_keys_set (d : Dict α β) (k j : α) (v : β) :
    j ∈ (d.set k v).keys ↔ j = k ∨ j ∈ d.keys := by
  rw [keys_set]
  split
  · rename_i h
    exact ⟨Or.inr, fun hj => hj.elim (fun e => e ▸ h) id⟩
  · simp [or_comm]

/-- Deleting takes the key out of the others, whose order stays. -/
theorem keys_erase (d : Dict α β) (k : α) : (d.erase k).keys = d.keys.filter fun j => j ≠ k := by
  simp only [keys, erase, List.filter_map]
  rfl

/-- After deleting, the keys are the old ones but the one deleted. -/
@[simp] theorem mem_keys_erase (d : Dict α β) (k j : α) :
    j ∈ (d.erase k).keys ↔ j ∈ d.keys ∧ j ≠ k := by
  rw [keys_erase]
  simp

/-- Without keys there are no values. -/
theorem get?_of_keys_eq_nil {d : Dict α β} (h : d.keys = []) (k : α) : d.get? k = none := by
  rw [← Option.not_isSome_iff_eq_none, isSome_get?, h]
  exact List.not_mem_nil

/-- Deleting an absent key changes nothing. -/
theorem erase_eq_self {d : Dict α β} {k : α} (h : d.get? k = none) : d.erase k = d := by
  have hkey : k ∉ d.keys := by
    rw [← isSome_get?, h]
    exact Bool.false_ne_true
  have hentries : (d.erase k).entries = d.entries :=
    List.filter_eq_self.mpr fun e he => decide_eq_true fun heq =>
      hkey (heq ▸ List.mem_map_of_mem he)
  cases d
  simpa [erase] using hentries

/-- Deleting keys one after the other deletes them all. -/
theorem get?_foldl_erase {d : Dict α β} {l : List α} {k : α} :
    (l.foldl erase d).get? k = if k ∈ l then none else d.get? k := by
  induction l generalizing d with
  | nil => simp
  | cons j l ih =>
    rw [List.foldl_cons, ih, get?_erase]
    by_cases hj : j = k
    · simp [hj]
    · simp [hj, Ne.symm hj]

/-- Changing the value at a key changes no other one. -/
theorem get?_modify (d : Dict α β) (k j : α) (f : β → β) :
    (d.modify k f).get? j = if k = j then (d.get? j).map f else d.get? j := by
  unfold modify
  split
  · rename_i h
    split
    · rename_i hkj
      rw [← hkj, h]
      rfl
    · rfl
  · rename_i v h
    rw [get?_set]
    split
    · rename_i hkj
      rw [← hkj, h]
      rfl
    · rfl

/-- Changing a value keeps the keys. -/
@[simp] theorem keys_modify (d : Dict α β) (k : α) (f : β → β) : (d.modify k f).keys = d.keys := by
  unfold modify
  split
  · rfl
  · rename_i v h
    rw [keys_set, if_pos (mem_keys_of_get? h)]

/-- A fresh key is written at the end. -/
theorem entries_set {d : Dict α β} {k : α} (v : β) (h : k ∉ d.keys) :
    (d.set k v).entries = d.entries ++ [(k, v)] := by
  have happend : ∀ l : List (α × β), k ∉ l.map Prod.fst → setEntry k v l = l ++ [(k, v)] := by
    intro l hl
    induction l with
    | nil => rfl
    | cons e rest ih =>
      rw [List.map_cons, List.mem_cons, not_or] at hl
      rw [setEntry, if_neg (Ne.symm hl.1), ih hl.2, List.cons_append]
  exact happend d.entries h

/-- Deleting a key takes its entry out of the others. -/
theorem entries_perm_erase {d : Dict α β} {k : α} {v : β} (h : d.get? k = some v) :
    d.entries.Perm ((k, v) :: (d.erase k).entries) := by
  have herase : ∀ l : List (α × β), (l.map Prod.fst).Nodup → lookupEntry k l = some v →
      l.Perm ((k, v) :: l.filter fun e => e.1 ≠ k) := by
    intro l hl hv
    induction l with
    | nil => cases hv
    | cons e rest ih =>
      rw [List.map_cons, List.nodup_cons] at hl
      by_cases hek : e.1 = k
      · have hrest : rest.filter (fun e => e.1 ≠ k) = rest := by
          refine List.filter_eq_self.mpr fun x hx => decide_eq_true fun hxk => hl.1 ?_
          rw [hek, ← hxk]
          exact List.mem_map_of_mem hx
        rw [lookupEntry, if_pos hek, Option.some.injEq] at hv
        rw [List.filter_cons_of_neg (by simpa using hek), hrest, ← hv, ← hek]
      · rw [lookupEntry, if_neg hek] at hv
        rw [List.filter_cons_of_pos (by simpa using hek)]
        exact ((ih hl.2 hv).cons e).trans (.swap _ _ _)
  exact herase d.entries d.nodup h

/-- Keep the keys with a property. -/
def filterKeys (d : Dict α β) (p : α → Bool) : Dict α β :=
  ⟨d.entries.filter fun e => p e.1, d.nodup.sublist (List.filter_sublist.map _)⟩

/-- After filtering, the keys with the property have their values. -/
theorem get?_filterKeys (d : Dict α β) (p : α → Bool) (k : α) :
    (d.filterKeys p).get? k = if p k then d.get? k else none := by
  have hlookup : ∀ l : List (α × β), lookupEntry k (l.filter fun e => p e.1) =
      if p k then lookupEntry k l else none := by
    intro l
    induction l with
    | nil => simp [lookupEntry]
    | cons e rest ih =>
      by_cases he : e.1 = k
      · subst he
        by_cases hp : p e.1 <;> simp_all [lookupEntry]
      · by_cases hp : p e.1 <;> simp_all [lookupEntry]
  exact hlookup d.entries

/-- The dictionary of a list of pairs, the last of which counts for a key. -/
def ofPairs (l : List (α × β)) : Dict α β := l.foldl (fun d e => d.set e.1 e.2) .empty

/-- With distinct keys the pairs are the entries. -/
theorem entries_ofPairs {l : List (α × β)} (h : (l.map Prod.fst).Nodup) :
    (ofPairs l).entries = l := by
  induction l using List.reverseRecOn with
  | nil => rfl
  | append_singleton l e ih =>
    rw [List.map_append, List.nodup_append] at h
    obtain ⟨hl, -, hdisj⟩ := h
    have hfresh : e.1 ∉ (ofPairs l).keys := by
      rw [keys, ih hl]
      exact fun hmem => hdisj e.1 hmem e.1 (by simp) rfl
    rw [ofPairs, List.foldl_append, List.foldl_cons, List.foldl_nil]
    exact (entries_set e.2 hfresh).trans (congrArg (· ++ [e]) (ih hl))

end Dict

end RpsServe
