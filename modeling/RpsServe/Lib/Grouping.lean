import RpsServe.Lib.Dict
import Mathlib.Data.List.Induction

/-!
# Grouping by key

A list of keyed values is collected into a dictionary of lists by appending each value at its
key. A key's list is then the values of the entries with this key, in their order, and a key is
present exactly when it has an entry.
-/

namespace RpsServe

section Values

variable {α β : Type*} [DecidableEq α]

/-- The values of the entries with key `k`, in order. -/
def valuesAt (k : α) : List (α × β) → List β
  | [] => []
  | e :: rest => if e.1 = k then e.2 :: valuesAt k rest else valuesAt k rest

/-- An empty list has no values at any key. -/
@[simp] theorem valuesAt_nil (k : α) : valuesAt k ([] : List (α × β)) = [] := rfl

/-- The values of two lists after one another come after one another. -/
theorem valuesAt_append (k : α) (l₁ l₂ : List (α × β)) :
    valuesAt k (l₁ ++ l₂) = valuesAt k l₁ ++ valuesAt k l₂ := by
  induction l₁ with
  | nil => rfl
  | cons e rest ih =>
    simp only [List.cons_append, valuesAt, ih]
    split <;> rfl

/-- Entries that all have the key `j` are all values of `j`, and no values of another key. -/
theorem valuesAt_map_mk (k j : α) (vs : List β) :
    valuesAt k (vs.map fun v => (j, v)) = if j = k then vs else [] := by
  induction vs with
  | nil => simp
  | cons v rest ih =>
    by_cases hj : j = k
    · simp only [List.map_cons, valuesAt, ih, if_pos hj]
    · simp only [List.map_cons, valuesAt, ih, if_neg hj]

/-- When every group `f e` holds values of the key of `e` alone, the values of a key are those of
the groups of the entries with this key. -/
theorem valuesAt_flatMap {γ : Type*} (k : α) (f : α → β → List γ) (l : List (α × β)) :
    valuesAt k (l.flatMap fun e => (f e.1 e.2).map fun v => (e.1, v)) =
      (valuesAt k l).flatMap (f k) := by
  induction l with
  | nil => rfl
  | cons e rest ih =>
    rw [List.flatMap_cons, valuesAt_append, valuesAt_map_mk, ih, valuesAt]
    by_cases hk : e.1 = k
    · rw [if_pos hk, if_pos hk, List.flatMap_cons, hk]
    · rw [if_neg hk, if_neg hk, List.nil_append]

/-- Among entries with distinct keys, a key has at most the one value that is found at it. -/
theorem valuesAt_eq_toList {k : α} {l : List (α × β)} (h : (l.map Prod.fst).Nodup) :
    valuesAt k l = (lookupEntry k l).toList := by
  induction l with
  | nil => rfl
  | cons e rest ih =>
    rw [List.map_cons, List.nodup_cons] at h
    rw [valuesAt, lookupEntry, ih h.2]
    by_cases hk : e.1 = k
    · have hnone : lookupEntry k rest = none := by
        have hnot : ¬(lookupEntry k rest).isSome := fun hs =>
          h.1 (hk ▸ (lookupEntry_isSome k rest).mp hs)
        simpa using hnot
      rw [if_pos hk, if_pos hk, hnone]
      rfl
    · rw [if_neg hk, if_neg hk]

end Values

namespace Dict

variable {α β γ : Type*} [DecidableEq α]

/-- Append a value at a key, which starts with no values. -/
def push (d : Dict α (List β)) (k : α) (v : β) : Dict α (List β) :=
  d.set k ((d.get? k).getD [] ++ [v])

/-- The entries collected by key. -/
def group (l : List (α × β)) : Dict α (List β) := l.foldl (fun d e => d.push e.1 e.2) empty

/-- The values by their keys; of several values with one key the last one stays. -/
def indexBy (key : β → α) (l : List β) : Dict α β := l.foldl (fun d v => d.set (key v) v) empty

/-- The values rewritten one by one, at the same keys. -/
def mapValues (f : β → γ) (d : Dict α β) : Dict α γ :=
  ⟨d.entries.map fun e => (e.1, f e.2), by simpa [Function.comp_def] using d.nodup⟩

/-- One more pair is grouped behind the others. -/
theorem group_append_singleton (l : List (α × β)) (e : α × β) :
    group (l ++ [e]) = (group l).push e.1 e.2 := by
  rw [group, List.foldl_append]
  rfl

/-- Collecting several lists is collecting one after the other into the same dictionary. -/
theorem group_flatMap (f : γ → List (α × β)) (l : List γ) :
    group (l.flatMap f) = l.foldl (fun d c => (f c).foldl (fun d e => d.push e.1 e.2) d) empty :=
  List.foldl_flatMap

/-- The list of a key is the list of its values; a key without values is absent. -/
theorem get?_group (k : α) (l : List (α × β)) :
    (group l).get? k = if valuesAt k l = [] then none else some (valuesAt k l) := by
  induction l using List.reverseRecOn with
  | nil => rfl
  | append_singleton l e ih =>
    rw [group_append_singleton, push, get?_set, valuesAt_append]
    by_cases hk : e.1 = k
    · have hvalues : ((group l).get? k).getD [] = valuesAt k l := by
        rw [ih]
        split
        · rename_i hnil
          exact hnil.symm
        · rfl
      simp [valuesAt, hk, hvalues]
    · simp [valuesAt, hk, ih]

/-- The value at a key is the last one that has it. -/
theorem get?_indexBy (key : β → α) (l : List β) (k : α) :
    (indexBy key l).get? k = l.reverse.find? fun v => key v = k := by
  induction l using List.reverseRecOn with
  | nil => rfl
  | append_singleton l v ih =>
    rw [indexBy, List.foldl_append, List.foldl_cons, List.foldl_nil, get?_set,
      List.reverse_append, List.reverse_singleton, List.singleton_append, List.find?_cons]
    by_cases hk : key v = k
    · simp [hk]
    · simp only [hk, if_false, decide_false]
      exact ih

omit [DecidableEq α] in
/-- Mapping the values keeps the keys. -/
@[simp] theorem keys_mapValues (f : β → γ) (d : Dict α β) : (d.mapValues f).keys = d.keys := by
  simp [keys, mapValues, Function.comp_def]

/-- The mapped dictionary has the mapped values. -/
@[simp] theorem get?_mapValues (f : β → γ) (d : Dict α β) (k : α) :
    (d.mapValues f).get? k = (d.get? k).map f := by
  have hlookup : ∀ l : List (α × β),
      lookupEntry k (l.map fun e => (e.1, f e.2)) = (lookupEntry k l).map f := by
    intro l
    induction l with
    | nil => rfl
    | cons e rest ih =>
      rw [List.map_cons, lookupEntry, lookupEntry, ih]
      split <;> rfl
  exact hlookup d.entries

/-- The values of a key among the entries are the value at it, if there is one. -/
theorem valuesAt_entries (k : α) (d : Dict α β) : valuesAt k d.entries = (d.get? k).toList :=
  valuesAt_eq_toList d.nodup

end Dict

end RpsServe
