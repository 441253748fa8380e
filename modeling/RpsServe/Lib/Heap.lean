import Mathlib.Data.List.Perm.Basic
import Mathlib.Data.Nat.Notation

/-!
# Binary heaps in a list

The array heap of `heapq` over any comparison: pushing bubbles the new entry up, popping
moves the last entry to the root, sinks it to a leaf along the smaller children and bubbles
it up again. Nothing here asks for the heap order, since the keys of the entries may change
while they are in the heap. Every operation only exchanges entries, so it permutes them.
-/

namespace RpsServe

namespace Heap

variable {α : Type*}

/-- Exchange two entries; positions past the end are left alone. -/
def swapAt (l : List α) (i j : ℕ) : List α :=
  match l[i]?, l[j]? with
  | some a, some b => (l.set i b).set j a
  | _, _ => l

/-- Bubble the entry at `pos` up towards `start` while it stands before its parent. -/
def siftdown (lt : α → α → Bool) (start : ℕ) : (fuel pos : ℕ) → List α → List α
  | 0, _, l => l
  | fuel + 1, pos, l =>
    if start < pos then
      let parent := (pos - 1) / 2
      match l[pos]?, l[parent]? with
      | some a, some b => if lt a b then siftdown lt start fuel parent (swapAt l pos parent) else l
      | _, _ => l
    else l

/-- The smaller child of `pos`, the right one unless the left one stands before it. -/
def smallerChild (lt : α → α → Bool) (l : List α) (pos : ℕ) : ℕ :=
  match l[2 * pos + 1]?, l[2 * pos + 2]? with
  | some a, some b => if lt a b then 2 * pos + 1 else 2 * pos + 2
  | _, _ => 2 * pos + 1

/-- Sink the entry at `pos` to a leaf; the leaf's position and the list. -/
def sink (lt : α → α → Bool) : (fuel pos : ℕ) → List α → ℕ × List α
  | 0, pos, l => (pos, l)
  | fuel + 1, pos, l =>
    if 2 * pos + 1 < l.length then
      let child := smallerChild lt l pos
      sink lt fuel child (swapAt l pos child)
    else (pos, l)

/-- `_siftup`: sink an entry to a leaf, then bubble it up to its place. -/
def siftup (lt : α → α → Bool) (pos : ℕ) (l : List α) : List α :=
  let (leaf, l) := sink lt l.length pos l
  siftdown lt pos l.length leaf l

/-- `heappush`. -/
def push (lt : α → α → Bool) (l : List α) (a : α) : List α :=
  siftdown lt 0 (l.length + 1) l.length (l ++ [a])

/-- `heappop`, on a heap with the given last entry and the entries before it. -/
def popRoot (lt : α → α → Bool) (init : List α) (last : α) : α × List α :=
  match init with
  | [] => (last, [])
  | root :: rest => (root, siftup lt 0 (last :: rest))

/-- `heapify`: sift every inner position, the last one first. -/
def heapify (lt : α → α → Bool) (l : List α) : List α :=
  (List.range (l.length / 2)).reverse.foldl (fun l i => siftup lt i l) l

/-- Pop until the heap is empty. -/
def drain (lt : α → α → Bool) : (fuel : ℕ) → List α → List α
  | 0, _ => []
  | fuel + 1, l =>
    match l.getLast? with
    | none => []
    | some last =>
      let (root, rest) := popRoot lt l.dropLast last
      root :: drain lt fuel rest

/-- Exchanging two entries permutes the list. -/
theorem swapAt_perm (l : List α) (i j : ℕ) : (swapAt l i j).Perm l := by
  unfold swapAt
  split
  · rename_i a b ha hb
    obtain ⟨hi, rfl⟩ := List.getElem?_eq_some_iff.mp ha
    obtain ⟨hj, rfl⟩ := List.getElem?_eq_some_iff.mp hb
    exact List.set_set_perm hi hj
  · exact List.Perm.refl _

/-- Sifting down permutes the list. -/
theorem siftdown_perm (lt : α → α → Bool) (start fuel pos : ℕ) (l : List α) :
    (siftdown lt start fuel pos l).Perm l := by
  induction fuel generalizing pos l with
  | zero => exact List.Perm.refl _
  | succ fuel ih =>
    unfold siftdown
    split
    · dsimp only
      split
      · split
        · exact (ih _ _).trans (swapAt_perm _ _ _)
        · exact List.Perm.refl _
      · exact List.Perm.refl _
    · exact List.Perm.refl _

/-- Sinking permutes the list. -/
theorem sink_perm (lt : α → α → Bool) (fuel pos : ℕ) (l : List α) :
    (sink lt fuel pos l).2.Perm l := by
  induction fuel generalizing pos l with
  | zero => exact List.Perm.refl _
  | succ fuel ih =>
    unfold sink
    split
    · exact (ih _ _).trans (swapAt_perm _ _ _)
    · exact List.Perm.refl _

/-- Sifting up permutes the list. -/
theorem siftup_perm (lt : α → α → Bool) (pos : ℕ) (l : List α) : (siftup lt pos l).Perm l :=
  (siftdown_perm _ _ _ _ _).trans (sink_perm _ _ _ _)

/-- Pushing adds the entry. -/
theorem push_perm (lt : α → α → Bool) (l : List α) (a : α) : (push lt l a).Perm (l ++ [a]) :=
  siftdown_perm _ _ _ _ _

/-- Popping returns one of the entries and keeps the others. -/
theorem popRoot_perm (lt : α → α → Bool) (init : List α) (last : α) :
    ((popRoot lt init last).1 :: (popRoot lt init last).2).Perm (init ++ [last]) := by
  cases init with
  | nil => exact List.Perm.refl _
  | cons root rest =>
    have hsift : (siftup lt 0 (last :: rest)).Perm (rest ++ [last]) :=
      (siftup_perm lt 0 _).trans (List.perm_append_singleton last rest).symm
    exact hsift.cons root

/-- Building a heap permutes the list. -/
theorem heapify_perm (lt : α → α → Bool) (l : List α) : (heapify lt l).Perm l := by
  have hfold : ∀ (is : List ℕ) (m : List α),
      (is.foldl (fun l i => siftup lt i l) m).Perm m := by
    intro is
    induction is with
    | nil => exact fun m => List.Perm.refl m
    | cons i is ih => exact fun m => (ih _).trans (siftup_perm lt i m)
  exact hfold _ l

/-- Popping until the heap is empty yields every entry once. -/
theorem drain_perm (lt : α → α → Bool) {fuel : ℕ} {l : List α} (h : l.length ≤ fuel) :
    (drain lt fuel l).Perm l := by
  induction fuel generalizing l with
  | zero =>
    obtain rfl := List.eq_nil_of_length_eq_zero (by omega : l.length = 0)
    exact List.Perm.refl _
  | succ fuel ih =>
    unfold drain
    split
    · rename_i hlast
      rw [List.getLast?_eq_none_iff.mp hlast]
    · rename_i last hlast
      have hpop : ((popRoot lt l.dropLast last).1 :: (popRoot lt l.dropLast last).2).Perm l := by
        have hsplit : l.dropLast ++ [last] = l := List.dropLast_append_getLast? last hlast
        exact (popRoot_perm lt l.dropLast last).trans (by rw [hsplit])
      have hlen : (popRoot lt l.dropLast last).2.length ≤ fuel := by
        have := hpop.length_eq
        simp only [List.length_cons] at this
        omega
      exact ((ih hlen).cons _).trans hpop

end Heap

end RpsServe
