import Mathlib.Data.List.Basic

/-!
# Computations that may fail

Inversion of a computation in `Except` that returned, and the induction over the rounds of
a fold that may fail: what every round keeps holds of the result.
-/

namespace RpsServe

universe u v w

variable {ε : Type v} {α : Type w} {β σ : Type u}

/-- A sequence returns exactly when both parts do. -/
theorem bind_eq_ok {x : Except ε σ} {f : σ → Except ε β} {b : β} :
    x >>= f = .ok b ↔ ∃ a, x = .ok a ∧ f a = .ok b := by
  cases x with
  | error e => simp [bind, Except.bind]
  | ok a => simp [bind, Except.bind]

/-- A mapped computation returns what the computation returns, mapped. -/
theorem map_eq_ok {x : Except ε σ} {k : σ → β} {b : β} :
    k <$> x = .ok b ↔ ∃ a, x = .ok a ∧ k a = b := by
  cases x with
  | error e => simp
  | ok a => simp

/-- The computation returns a value that meets `P`. -/
def Yields (x : Except ε σ) (P : σ → Prop) : Prop :=
  match x with
  | .ok a => P a
  | .error _ => False

instance (x : Except ε σ) (P : σ → Prop) [DecidablePred P] : Decidable (Yields x P) := by
  unfold Yields
  split <;> infer_instance

/-- A result with the property is a result. -/
theorem Yields.exists_ok {x : Except ε σ} {P : σ → Prop} (h : Yields x P) :
    ∃ a, x = .ok a ∧ P a := by
  unfold Yields at h
  split at h
  · rename_i a
    exact ⟨a, rfl, h⟩
  · exact h.elim

/-- A fold over `a :: l` that returns made its first round. -/
theorem foldlM_cons_eq_ok {f : σ → α → Except ε σ} {a : α} {l : List α} {s s' : σ} :
    (a :: l).foldlM f s = .ok s' ↔ ∃ t, f s a = .ok t ∧ l.foldlM f t = .ok s' := by
  rw [List.foldlM_cons, bind_eq_ok]

/-- A property indexed by the rest of the list and kept by every round holds of the result at the
end of the list. -/
theorem foldlM_rule {f : σ → α → Except ε σ} {I : List α → σ → Prop} {l : List α} {s s' : σ}
    (h : l.foldlM f s = .ok s') (hs : I l s)
    (hround : ∀ a rest t t', I (a :: rest) t → f t a = .ok t' → I rest t') : I [] s' := by
  induction l generalizing s with
  | nil =>
    cases h
    exact hs
  | cons a rest ih =>
    obtain ⟨t, ht, hrest⟩ := foldlM_cons_eq_ok.mp h
    exact ih hrest (hround a rest s t hs ht)

/-- The fold rule for a property of the state alone, with the members of the list at hand. -/
theorem foldlM_invariant {f : σ → α → Except ε σ} {I : σ → Prop} {l : List α} {s s' : σ}
    (h : l.foldlM f s = .ok s') (hs : I s)
    (hround : ∀ a ∈ l, ∀ t t', I t → f t a = .ok t' → I t') : I s' := by
  induction l generalizing s with
  | nil =>
    cases h
    exact hs
  | cons a rest ih =>
    obtain ⟨t, ht, hrest⟩ := foldlM_cons_eq_ok.mp h
    exact ih hrest (hround a List.mem_cons_self s t hs ht)
      fun b hb => hround b (List.mem_cons_of_mem a hb)

/-- A map that may fail keeps what can be read back off its results. -/
theorem map_of_mapM_eq_ok {f : α → Except ε β} {g : β → α} {l : List α} {l' : List β}
    (h : l.mapM f = .ok l') (hf : ∀ a b, f a = .ok b → g b = a) : l'.map g = l := by
  induction l generalizing l' with
  | nil =>
    cases h
    rfl
  | cons a rest ih =>
    rw [List.mapM_cons] at h
    obtain ⟨b, hb, h⟩ := bind_eq_ok.mp h
    obtain ⟨bs, hbs, h⟩ := bind_eq_ok.mp h
    cases h
    rw [List.map_cons, hf a b hb, ih hbs]

/-- A map that may fail is a map where its results are known. -/
theorem eq_map_of_mapM_eq_ok {f : α → Except ε β} {g : α → β} {l : List α} {l' : List β}
    (h : l.mapM f = .ok l') (hf : ∀ a b, f a = .ok b → b = g a) : l' = l.map g := by
  induction l generalizing l' with
  | nil =>
    cases h
    rfl
  | cons a rest ih =>
    rw [List.mapM_cons] at h
    obtain ⟨b, hb, h⟩ := bind_eq_ok.mp h
    obtain ⟨bs, hbs, h⟩ := bind_eq_ok.mp h
    cases h
    rw [List.map_cons, hf a b hb, ih hbs]

/-- Maps that agree on the list have the same result. -/
theorem mapM_congr {f g : α → Except ε β} {l : List α} (h : ∀ a ∈ l, f a = g a) :
    l.mapM f = l.mapM g := by
  induction l with
  | nil => rfl
  | cons a rest ih =>
    rw [List.mapM_cons, List.mapM_cons, h a List.mem_cons_self,
      ih fun b hb => h b (List.mem_cons_of_mem a hb)]

/-- A map that fails nowhere has a result. -/
theorem mapM_total {f : α → Except ε β} {l : List α} (h : ∀ a ∈ l, ∃ b, f a = .ok b) :
    ∃ l', l.mapM f = .ok l' := by
  induction l with
  | nil => exact ⟨[], rfl⟩
  | cons a rest ih =>
    obtain ⟨b, hb⟩ := h a List.mem_cons_self
    obtain ⟨bs, hbs⟩ := ih fun x hx => h x (List.mem_cons_of_mem a hx)
    refine ⟨b :: bs, ?_⟩
    rw [List.mapM_cons]
    exact bind_eq_ok.mpr ⟨b, hb, bind_eq_ok.mpr ⟨bs, hbs, rfl⟩⟩

/-- Every result of a map that may fail is the result of an entry of the list. -/
theorem mem_of_mapM_eq_ok {f : α → Except ε β} {l : List α} {l' : List β} {b : β}
    (h : l.mapM f = .ok l') (hb : b ∈ l') : ∃ a ∈ l, f a = .ok b := by
  induction l generalizing l' with
  | nil =>
    cases h
    cases hb
  | cons a rest ih =>
    rw [List.mapM_cons] at h
    obtain ⟨c, hc, h⟩ := bind_eq_ok.mp h
    obtain ⟨cs, hcs, h⟩ := bind_eq_ok.mp h
    cases h
    rcases List.mem_cons.mp hb with rfl | hb
    · exact ⟨a, List.mem_cons_self, hc⟩
    · obtain ⟨a', ha', hfa'⟩ := ih hcs hb
      exact ⟨a', List.mem_cons_of_mem a ha', hfa'⟩

/-- Every entry of the list has its result. -/
theorem exists_of_mapM_eq_ok {f : α → Except ε β} {l : List α} {l' : List β} {a : α}
    (h : l.mapM f = .ok l') (ha : a ∈ l) : ∃ b ∈ l', f a = .ok b := by
  induction l generalizing l' with
  | nil => cases ha
  | cons x rest ih =>
    rw [List.mapM_cons] at h
    obtain ⟨b, hb, h⟩ := bind_eq_ok.mp h
    obtain ⟨bs, hbs, h⟩ := bind_eq_ok.mp h
    cases h
    rcases List.mem_cons.mp ha with rfl | ha
    · exact ⟨b, List.mem_cons_self, hb⟩
    · obtain ⟨b', hb', hfb'⟩ := ih hbs ha
      exact ⟨b', List.mem_cons_of_mem b hb', hfb'⟩

/-- The rounds of a fold: the state `t` in which the round for `a` begins. -/
def FoldVisits (f : σ → α → Except ε σ) (l : List α) (s : σ) (a : α) (t : σ) : Prop :=
  ∃ done rest, l = done ++ a :: rest ∧ done.foldlM f s = .ok t

/-- An element that the fold visits is one of the list. -/
theorem FoldVisits.mem {f : σ → α → Except ε σ} {l : List α} {s t : σ} {a : α}
    (h : FoldVisits f l s a t) : a ∈ l := by
  obtain ⟨done, rest, rfl, -⟩ := h
  simp

/-- The fold rule for a property of the rounds made so far, with the split of the list at hand. -/
theorem foldlM_split {f : σ → α → Except ε σ} {I : List α → σ → Prop} {l : List α} {s s' : σ}
    (h : l.foldlM f s = .ok s') (hs : I [] s)
    (hround : ∀ done a rest t t', l = done ++ a :: rest → done.foldlM f s = .ok t → I done t →
      f t a = .ok t' → I (done ++ [a]) t') : I l s' := by
  have hrest : ∀ rest done t, l = done ++ rest → done.foldlM f s = .ok t → I done t →
      rest.foldlM f t = .ok s' → I l s' := by
    intro rest
    induction rest with
    | nil =>
      intro done t hl hdone hI hrest
      cases hrest
      rwa [hl, List.append_nil]
    | cons a rest ih =>
      intro done t hl hdone hI hrest
      obtain ⟨t', ht', hrest⟩ := foldlM_cons_eq_ok.mp hrest
      refine ih (done ++ [a]) t' (by simp [hl]) ?_ (hround done a rest t t' hl hdone hI ht') hrest
      rw [List.foldlM_append, bind_eq_ok]
      exact ⟨t, hdone, foldlM_cons_eq_ok.mpr ⟨t', ht', rfl⟩⟩
  exact hrest l [] s rfl rfl hs h

end RpsServe
