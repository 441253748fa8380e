import RpsServe.Lib.Except

/-!
# Loops over a list with a break

A fold that may fail and may stop early: a round that gives `none` leaves the loop with the
state it found.
-/

namespace RpsServe

universe u

variable {σ τ : Type u} {α ε : Type*}

/-- Fold until a round breaks. -/
def foldBreakM (f : σ → α → Except ε (Option σ)) : List α → σ → Except ε σ
  | [], s => .ok s
  | a :: rest, s => do
    match ← f s a with
    | none => .ok s
    | some s' => foldBreakM f rest s'

variable {f : σ → α → Except ε (Option σ)} {g : σ → α → Except ε σ} {a : α} {rest l : List α}
  {s s' : σ}

/-- A loop over a list that is not empty breaks at the head or goes on with the rest. -/
theorem foldBreakM_cons_eq_ok : foldBreakM f (a :: rest) s = .ok s' ↔
    (f s a = .ok none ∧ s' = s) ∨ ∃ t, f s a = .ok (some t) ∧ foldBreakM f rest t = .ok s' := by
  rw [foldBreakM, bind_eq_ok]
  constructor
  · rintro ⟨none | t, hround, h⟩
    · cases h
      exact .inl ⟨hround, rfl⟩
    · exact .inr ⟨t, hround, h⟩
  · rintro (⟨hround, rfl⟩ | ⟨t, hround, h⟩)
    exacts [⟨none, hround, rfl⟩, ⟨some t, hround, h⟩]

/-- A loop whose rounds all go on is a fold, as long as `I` is kept. -/
theorem foldlM_of_foldBreakM {I : σ → Prop} (h : foldBreakM f l s = .ok s') (hs : I s)
    (hf : ∀ t a, I t → f t a = some <$> g t a)
    (hround : ∀ t a t', I t → g t a = .ok t' → I t') : l.foldlM g s = .ok s' := by
  induction l generalizing s with
  | nil => exact h
  | cons a rest ih =>
    have hround' := hf s a hs
    rcases foldBreakM_cons_eq_ok.mp h with ⟨hbreak, -⟩ | ⟨t, hgo, h⟩
    · obtain ⟨t, -, hnone⟩ := map_eq_ok.mp (hround'.symm.trans hbreak)
      cases hnone
    · obtain ⟨t', hg, ht⟩ := map_eq_ok.mp (hround'.symm.trans hgo)
      cases ht
      exact foldlM_cons_eq_ok.mpr ⟨t, hg, ih h (hround s a t hs hg)⟩

/-- One entry of the kind `p` in a fold: what the others keep is that of the round for it. -/
theorem foldlM_single (view : σ → τ) {I : σ → Prop} {p : α → Bool}
    (h : l.foldlM g s = .ok s') (hs : I s) (hl : l.filter p = [a])
    (hround : ∀ t b t', I t → g t b = .ok t' → I t' ∧ (p b = false → view t' = view t)) :
    ∃ t t', I t ∧ view t = view s ∧ g t a = .ok t' ∧ I s' ∧ view s' = view t' := by
  obtain ⟨l₁, l₂, rfl, hl₁, -, hl₂⟩ := List.filter_eq_cons_iff.mp hl
  rw [List.foldlM_append] at h
  obtain ⟨t, ht, h⟩ := bind_eq_ok.mp h
  obtain ⟨t', ht', h⟩ := foldlM_cons_eq_ok.mp h
  have hbefore : I t ∧ view t = view s :=
    foldlM_invariant (I := fun t => I t ∧ view t = view s) ht ⟨hs, rfl⟩ fun b hb u u' hu hg => by
      obtain ⟨hI, hview⟩ := hround u b u' hu.1 hg
      exact ⟨hI, (hview (by simpa using hl₁ b hb)).trans hu.2⟩
  have hafter : I s' ∧ view s' = view t' := by
    refine foldlM_invariant (I := fun u => I u ∧ view u = view t') h
      ⟨(hround t a t' hbefore.1 ht').1, rfl⟩ fun b hb u u' hu hg => ?_
    obtain ⟨hI, hview⟩ := hround u b u' hu.1 hg
    exact ⟨hI, (hview (by simpa using List.filter_eq_nil_iff.mp hl₂ b hb)).trans hu.2⟩
  exact ⟨t, t', hbefore.1, hbefore.2, ht', hafter.1, hafter.2⟩

end RpsServe
