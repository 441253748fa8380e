import RpsServe.EncoderCacheManager
import RpsServe.Lib.Except
import Mathlib.Data.Set.Insert

/-!
# References to cached items

Only an item that no request refers to is evicted, as the items in `freeable` are the unreferenced
ones. All methods but `allocate` shrink the cache: they cache nothing new, report what they evict,
and keep the references of the requests that they are not called for.
-/

namespace RpsServe

namespace EncoderCacheManager

variable {m m₁ m' : EncoderCacheManager} {q : Request} {i : ℕ} {h : MmHash} {x : ReqId}
  {who who' : Set ReqId}

/-- The request refers to the cached item. -/
def Holds (m : EncoderCacheManager) (h : MmHash) (x : ReqId) : Prop :=
  ∃ ids, m.cached.get? h = some ids ∧ x ∈ ids

/-- What can be evicted is cached and unreferenced. -/
def Wf (m : EncoderCacheManager) : Prop := ∀ h ∈ m.freeable.keys, m.cached.get? h = some ∅

/-- What is referenced is cached. -/
theorem Holds.cached (hh : m.Holds h x) : h ∈ m.cached.keys := by
  obtain ⟨ids, hids, -⟩ := hh
  exact Dict.mem_keys_of_get? hids

/-- What is cached afterwards was so before and has not been reported since, and only the requests
`who` lose references. -/
structure Shrinks (who : Set ReqId) (m m' : EncoderCacheManager) : Prop where
  wf : m'.Wf
  keys : m'.cached.keys ⊆ m.cached.keys
  freed : ∀ h ∈ m'.cached.keys, h ∈ m'.freed → h ∈ m.freed
  holds : ∀ h, ∀ x ∉ who, m.Holds h x → m'.Holds h x

namespace Shrinks

/-- A consistent cache loses nothing to itself. -/
theorem refl (hm : m.Wf) : Shrinks who m m :=
  ⟨hm, List.Subset.refl _, fun _ _ hh => hh, fun _ _ _ hh => hh⟩

/-- Losses add up along two changes. -/
theorem trans (h : Shrinks who m m₁) (h' : Shrinks who m₁ m') : Shrinks who m m' where
  wf := h'.wf
  keys := List.Subset.trans h'.keys h.keys
  freed a ha hfreed := h.freed a (h'.keys ha) (h'.freed a ha hfreed)
  holds a x hx hh := h'.holds a x hx (h.holds a x hx hh)

/-- Losses of fewer requests are losses of more. -/
theorem mono (h : Shrinks who m m') (hwho : who ⊆ who') : Shrinks who' m m' :=
  ⟨h.wf, h.keys, h.freed, fun a x hx => h.holds a x fun hmem => hx (hwho hmem)⟩

end Shrinks

/-- A lookup finds a cached item and refers to it, or it finds none. -/
theorem checkAndUpdateCache_spec {hit : Bool} (hm : m.Wf)
    (hcheck : m.checkAndUpdateCache q i = .ok (hit, m')) : Shrinks ∅ m m' ∧
      (if hit then m'.Holds (q.mmHash i) q.requestId else q.mmHash i ∉ m'.cached.keys) := by
  unfold checkAndUpdateCache at hcheck
  dsimp only at hcheck
  split at hcheck
  · rename_i hnone
    cases hcheck
    refine ⟨.refl hm, ?_⟩
    rw [if_neg (by decide), ← m.cached.isSome_get?, hnone]
    exact nofun
  · rename_i ids hids
    have hkeys : (m.cached.set (q.mmHash i) (insert q.requestId ids)).keys ⊆ m.cached.keys := by
      intro a ha
      rcases (Dict.mem_keys_set _ _ _ _).mp ha with rfl | ha
      exacts [Dict.mem_keys_of_get? hids, ha]
    have hself : ∀ n f, EncoderCacheManager.Holds { m with
        cached := m.cached.set (q.mmHash i) (insert q.requestId ids)
        freeable := f
        numFreeableSlots := n } (q.mmHash i) q.requestId := fun n f =>
      ⟨_, Dict.get?_set_self _ _ _, Finset.mem_insert_self _ _⟩
    have hholds : ∀ n f a x, m.Holds a x → EncoderCacheManager.Holds { m with
        cached := m.cached.set (q.mmHash i) (insert q.requestId ids)
        freeable := f
        numFreeableSlots := n } a x := by
      rintro n f a x ⟨ids', hids', hx⟩
      by_cases ha : q.mmHash i = a
      · subst ha
        cases hids.symm.trans hids'
        exact ⟨_, Dict.get?_set_self _ _ _, Finset.mem_insert_of_mem hx⟩
      · exact ⟨ids', (Dict.get?_set_ne _ _ ha).trans hids', hx⟩
    split at hcheck
    · rename_i hne
      cases hcheck
      refine ⟨⟨fun a ha => ?_, hkeys, fun _ _ hf => hf, fun a x _ => hholds _ _ a x⟩, hself _ _⟩
      have hae : q.mmHash i ≠ a := by
        rintro rfl
        exact hne (Option.some.inj (hids.symm.trans (hm _ ha)))
      exact (Dict.get?_set_ne _ _ hae).trans (hm a ha)
    · split at hcheck
      · cases hcheck
      · cases hcheck
        refine ⟨⟨fun a ha => ?_, hkeys, fun _ _ hf => hf, fun a x _ => hholds _ _ a x⟩, hself _ _⟩
        obtain ⟨ha, hae⟩ := (Dict.mem_keys_erase _ _ _).mp ha
        exact (Dict.get?_set_ne _ _ (Ne.symm hae)).trans (hm a ha)

/-- Evicting unreferenced items. -/
theorem evictUntil_shrinks {n : ℤ} {freeable : List (MmHash × ℕ)}
    (hnodup : (freeable.map Prod.fst).Nodup)
    (hfree : ∀ e ∈ freeable, m.cached.get? e.1 = some ∅) (hm : m.Wf)
    (hevict : evictUntil n freeable m = .ok m') : Shrinks ∅ m m' := by
  induction freeable generalizing m with
  | nil =>
    unfold evictUntil at hevict
    split at hevict
    · cases hevict
      exact .refl hm
    · cases hevict
  | cons e rest ih =>
    unfold evictUntil at hevict
    split at hevict
    · cases hevict
      exact .refl hm
    · dsimp only at hevict
      split at hevict
      · cases hevict
      · obtain ⟨hnew, hnodup⟩ := List.nodup_cons.mp hnodup
        have hempty := hfree e List.mem_cons_self
        have hothers : ∀ a, a ≠ e.1 → (m.cached.erase e.1).get? a = m.cached.get? a := fun a ha => by
          rw [Dict.get?_erase, if_neg (Ne.symm ha)]
        have hone : Shrinks ∅ m { m with
            freeable := m.freeable.erase e.1
            cached := m.cached.erase e.1
            freed := m.freed ++ [e.1]
            numFreeSlots := m.numFreeSlots + e.2 } := by
          refine ⟨fun a ha => ?_, fun a ha => ((Dict.mem_keys_erase _ _ _).mp ha).1,
            fun a ha hfreed => ?_, fun a x _ hh => ?_⟩
          · obtain ⟨ha, hae⟩ := (Dict.mem_keys_erase _ _ _).mp ha
            exact (hothers a hae).trans (hm a ha)
          · have hae := ((Dict.mem_keys_erase _ _ _).mp ha).2
            exact (List.mem_append.mp hfreed).resolve_right fun hlast =>
              hae (List.mem_singleton.mp hlast)
          · obtain ⟨ids, hids, hx⟩ := hh
            have hae : a ≠ e.1 := by
              rintro rfl
              cases hids.symm.trans hempty
              exact absurd hx (Finset.notMem_empty x)
            exact ⟨ids, (hothers a hae).trans hids, hx⟩
        refine hone.trans (ih hnodup (fun e' he' => ?_) hone.wf hevict)
        have hne : e'.1 ≠ e.1 := fun hEq => hnew (hEq ▸ List.mem_map_of_mem he')
        exact (hothers _ hne).trans (hfree e' (List.mem_cons_of_mem _ he'))

/-- Making room takes no reference away. -/
theorem canAllocate_shrinks {budget embeds : ℤ} {fits : Bool} (hm : m.Wf)
    (hcan : m.canAllocate q i budget embeds = .ok (fits, m')) : Shrinks ∅ m m' := by
  unfold canAllocate at hcan
  dsimp only at hcan
  split at hcan
  · cases hcan
    exact .refl hm
  · split at hcan
    · cases hcan
      exact .refl hm
    · split at hcan
      · cases hcan
        exact .refl hm
      · obtain ⟨m₁, hevict, hcan⟩ := bind_eq_ok.mp hcan
        cases hcan
        exact evictUntil_shrinks m.freeable.nodup (fun e he => hm _ (List.mem_map_of_mem he)) hm hevict

/-- What allocating items that are not cached does. -/
structure Adds (hs : List MmHash) (x : ReqId) (m m' : EncoderCacheManager) : Prop where
  wf : m'.Wf
  keys : ∀ a, a ∈ m'.cached.keys ↔ a ∈ hs ∨ a ∈ m.cached.keys
  freed : m'.freed = m.freed
  holds : ∀ a y, m.Holds a y → m'.Holds a y
  added : ∀ a ∈ hs, m'.Holds a x

/-- An allocation adds its item to the references of its request. -/
theorem allocate_adds (hm : m.Wf) (hnew : q.mmHash i ∉ m.cached.keys)
    (halloc : m.allocate q i = .ok m') : Adds [q.mmHash i] q.requestId m m' := by
  unfold allocate at halloc
  dsimp only at halloc
  split at halloc
  · cases halloc
  · cases halloc
    refine ⟨fun a ha => ?_, fun a => ?_, rfl, fun a y hh => ?_, fun a ha => ?_⟩
    · have hold := hm a ha
      have hne : q.mmHash i ≠ a := by
        rintro rfl
        exact hnew (Dict.mem_keys_of_get? hold)
      exact (Dict.get?_set_ne _ _ hne).trans hold
    · rw [Dict.mem_keys_set, List.mem_singleton]
    · obtain ⟨ids, hids, hy⟩ := hh
      have hne : q.mmHash i ≠ a := by
        rintro rfl
        exact hnew (Dict.mem_keys_of_get? hids)
      exact ⟨ids, (Dict.get?_set_ne _ _ hne).trans hids, hy⟩
    · obtain rfl := List.mem_singleton.mp ha
      exact ⟨_, Dict.get?_set_self _ _ _, Finset.mem_insert_self _ _⟩

/-- A request gives a reference up; nothing leaves the cache. -/
theorem freeEncoderInput_shrinks (hm : m.Wf) (q : Request) (i : ℕ) :
    Shrinks {q.requestId} m (m.freeEncoderInput q i) ∧ (m.freeEncoderInput q i).freed = m.freed := by
  unfold freeEncoderInput
  dsimp only
  split
  · exact ⟨.refl hm, rfl⟩
  · rename_i hne
    obtain ⟨ids, hids⟩ : ∃ ids, m.cached.get? (q.mmHash i) = some ids := by
      cases hget : m.cached.get? (q.mmHash i) with
      | none => exact absurd (by rw [hget]; rfl) hne
      | some ids => exact ⟨ids, rfl⟩
    rw [hids, Option.getD_some] at hne ⊢
    have hkeys : (m.cached.set (q.mmHash i) (ids.erase q.requestId)).keys ⊆ m.cached.keys := by
      intro a ha
      rcases (Dict.mem_keys_set _ _ _ _).mp ha with rfl | ha
      exacts [Dict.mem_keys_of_get? hids, ha]
    have hholds : ∀ n f a, ∀ x ∉ ({q.requestId} : Set ReqId), m.Holds a x →
        EncoderCacheManager.Holds { m with
          cached := m.cached.set (q.mmHash i) (ids.erase q.requestId)
          freeable := f
          numFreeableSlots := n } a x := by
      rintro n f a x hx ⟨ids', hids', hmem⟩
      by_cases ha : q.mmHash i = a
      · subst ha
        cases hids.symm.trans hids'
        exact ⟨_, Dict.get?_set_self _ _ _, Finset.mem_erase_of_ne_of_mem hx hmem⟩
      · exact ⟨ids', (Dict.get?_set_ne _ _ ha).trans hids', hmem⟩
    have hwf : ∀ a ∈ m.freeable.keys,
        (m.cached.set (q.mmHash i) (ids.erase q.requestId)).get? a = some ∅ := by
      intro a ha
      have hae : q.mmHash i ≠ a := by
        rintro rfl
        exact hne (Option.some.inj (hids.symm.trans (hm _ ha)))
      exact (Dict.get?_set_ne _ _ hae).trans (hm a ha)
    split
    · exact ⟨⟨hwf, hkeys, fun _ _ hf => hf, hholds _ _⟩, rfl⟩
    · rename_i hlast
      rw [not_not] at hlast
      refine ⟨⟨fun a ha => ?_, hkeys, fun _ _ hf => hf, hholds _ _⟩, rfl⟩
      rcases (Dict.mem_keys_set _ _ _ _).mp ha with rfl | ha
      · exact (Dict.get?_set_self _ _ _).trans (congrArg some hlast)
      · exact hwf a ha

/-- A request without items has no references to give up. -/
theorem free_of_noItems {q : Request} (h : q.mmFeatures = []) : m.free q = m := by
  rw [free, getCachedInputIds, h]
  rfl

/-- A request gives all its references up. -/
theorem free_shrinks (hm : m.Wf) (q : Request) :
    Shrinks {q.requestId} m (m.free q) ∧ (m.free q).freed = m.freed := by
  have hfold : ∀ (l : List ℕ) {t : EncoderCacheManager}, t.Wf →
      Shrinks {q.requestId} t (l.foldl (fun t i => t.freeEncoderInput q i) t) ∧
        (l.foldl (fun t i => t.freeEncoderInput q i) t).freed = t.freed := by
    intro l
    induction l with
    | nil => exact fun ht => ⟨.refl ht, rfl⟩
    | cons i rest ih =>
      intro t ht
      obtain ⟨hone, hfreed⟩ := freeEncoderInput_shrinks ht q i
      obtain ⟨hrest, hfreed'⟩ := ih hone.wf
      exact ⟨hone.trans hrest, hfreed'.trans hfreed⟩
  exact hfold _ hm

end EncoderCacheManager

end RpsServe
