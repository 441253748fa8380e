import RpsServe.EncoderCache.References
import Mathlib.Algebra.BigOperators.Group.Finset.Basic
import Mathlib.Algebra.Order.Group.Int

/-!
# Who gains references

Looking an item up and allocating it give references to the request itself only, and the
other methods to nobody. The slots that a lookup takes out of the freeable ones are owed by
the request until it gives its references up: then they are all returned, if the request
counts no fewer embeddings for an item than the cache does.
-/

namespace RpsServe

namespace EncoderCacheManager

variable {m m₀ m₁ m' : EncoderCacheManager} {q v : Request} {i : ℕ} {h : MmHash} {x : ReqId}
  {who who' : Set ReqId} {hit fits : Bool} {P : Finset MmHash}

instance (m : EncoderCacheManager) (h : MmHash) (x : ReqId) : Decidable (m.Holds h x) :=
  inferInstanceAs (Decidable (∃ ids ∈ m.cached.get? h, x ∈ ids))

/-- Only the requests `who` gain references. -/
def GainsOnly (who : Set ReqId) (m m' : EncoderCacheManager) : Prop :=
  ∀ h, ∀ x ∉ who, m'.Holds h x → m.Holds h x

namespace GainsOnly

/-- A cache gains nothing over itself. -/
theorem refl (who : Set ReqId) (m : EncoderCacheManager) : GainsOnly who m m := fun _ _ _ hh => hh

/-- Gains add up along two changes. -/
theorem trans (h : GainsOnly who m m₁) (h' : GainsOnly who m₁ m') : GainsOnly who m m' :=
  fun a x hx hh => h a x hx (h' a x hx hh)

/-- Gains of fewer requests are gains of more. -/
theorem mono (h : GainsOnly who m m') (hwho : who ⊆ who') : GainsOnly who' m m' :=
  fun a x hx => h a x fun hmem => hx (hwho hmem)

/-- Writing the references of one item that hold no new request but those of `who`. -/
theorem of_set {ids : Finset ReqId} {m' : EncoderCacheManager}
    (hcached : m'.cached = m.cached.set h ids) (hids : ∀ x ∈ ids, x ∉ who → m.Holds h x) :
    GainsOnly who m m' := by
  rintro a x hx ⟨ids', hids', hmem⟩
  rw [hcached] at hids'
  by_cases ha : h = a
  · subst ha
    rw [Dict.get?_set_self] at hids'
    cases hids'
    exact hids x hmem hx
  · rw [Dict.get?_set_ne _ _ ha] at hids'
    exact ⟨ids', hids', hmem⟩

end GainsOnly

/-! ### Evictions -/

/-- What making room does: items that can be evicted leave the cache. -/
structure Evicts (m m' : EncoderCacheManager) : Prop where
  freeableSlots : m'.numFreeableSlots = m.numFreeableSlots
  kept : ∀ h ∉ m.freeable.keys, m'.cached.get? h = m.cached.get? h
  gone : ∀ h, m'.cached.get? h = m.cached.get? h ∨ m'.cached.get? h = none
  freeable : ∀ h n, m'.freeable.get? h = some n → m.freeable.get? h = some n

/-- No evictions are evictions. -/
theorem Evicts.refl (m : EncoderCacheManager) : Evicts m m :=
  ⟨rfl, fun _ _ => rfl, fun _ => .inl rfl, fun _ _ hn => hn⟩

/-- Evictions followed by evictions are evictions. -/
theorem Evicts.trans (h : Evicts m m₁) (h' : Evicts m₁ m') : Evicts m m' where
  freeableSlots := h'.freeableSlots.trans h.freeableSlots
  kept a ha := by
    refine (h'.kept a fun hmem => ha ?_).trans (h.kept a ha)
    obtain ⟨n, hn⟩ := Option.isSome_iff_exists.mp ((Dict.isSome_get? _ _).mpr hmem)
    exact Dict.mem_keys_of_get? (h.freeable a n hn)
  gone a := by
    rcases h'.gone a with ha | ha
    · rw [ha]
      exact h.gone a
    · exact .inr ha
  freeable a n hn := h.freeable a n (h'.freeable a n hn)

/-- Evictions give no references. -/
theorem Evicts.gainsOnly (h : Evicts m m') : GainsOnly ∅ m m' := by
  rintro a x - ⟨ids, hids, hx⟩
  rcases h.gone a with ha | ha
  · exact ⟨ids, ha ▸ hids, hx⟩
  · rw [ha] at hids
    cases hids

/-- The loop of evictions only evicts freeable items. -/
theorem evictUntil_evicts {n : ℤ} {freeable : List (MmHash × ℕ)}
    (hnodup : (freeable.map Prod.fst).Nodup) (hkeys : ∀ e ∈ freeable, e.1 ∈ m.freeable.keys)
    (hevict : evictUntil n freeable m = .ok m') : Evicts m m' := by
  induction freeable generalizing m with
  | nil =>
    unfold evictUntil at hevict
    split at hevict
    · cases hevict
      exact .refl _
    · cases hevict
  | cons e rest ih =>
    unfold evictUntil at hevict
    split at hevict
    · cases hevict
      exact .refl _
    · dsimp only at hevict
      split at hevict
      · cases hevict
      · obtain ⟨hnew, hnodup⟩ := List.nodup_cons.mp hnodup
        have hkey := hkeys e List.mem_cons_self
        have hone : Evicts m { m with
            freeable := m.freeable.erase e.1
            cached := m.cached.erase e.1
            freed := m.freed ++ [e.1]
            numFreeSlots := m.numFreeSlots + e.2 } := by
          refine ⟨rfl, fun a ha => ?_, fun a => ?_, fun a n hn => ?_⟩
          · rw [Dict.get?_erase, if_neg]
            rintro rfl
            exact ha hkey
          · rw [Dict.get?_erase]
            split
            exacts [.inr rfl, .inl rfl]
          · rw [Dict.get?_erase] at hn
            split at hn
            · cases hn
            · exact hn
        refine hone.trans (ih hnodup (fun e' he' => ?_) hevict)
        refine (Dict.mem_keys_erase _ _ _).mpr ⟨hkeys e' (List.mem_cons_of_mem _ he'), fun hee => ?_⟩
        exact hnew (hee ▸ List.mem_map_of_mem he')

/-- Making room only evicts freeable items. -/
theorem canAllocate_evicts {budget embeds : ℤ}
    (hcan : m.canAllocate q i budget embeds = .ok (fits, m')) : Evicts m m' := by
  unfold canAllocate at hcan
  dsimp only at hcan
  split at hcan
  · cases hcan
    exact .refl m
  · split at hcan
    · cases hcan
      exact .refl m
    · split at hcan
      · cases hcan
        exact .refl m
      · obtain ⟨m₁, hevict, hcan⟩ := bind_eq_ok.mp hcan
        cases hcan
        exact evictUntil_evicts m.freeable.nodup (fun e he => List.mem_map_of_mem he) hevict

/-! ### Lookups and allocations -/

/-- The ways in which a lookup ends. -/
inductive LookupOutcome (m : EncoderCacheManager) (q : Request) (i : ℕ) :
    Bool → EncoderCacheManager → Prop
  | miss : m.cached.get? (q.mmHash i) = none → LookupOutcome m q i false m
  | shared {ids} : m.cached.get? (q.mmHash i) = some ids → ids ≠ ∅ →
      LookupOutcome m q i true { m with cached := m.cached.set (q.mmHash i) (insert q.requestId ids) }
  | alone {n : ℕ} : m.cached.get? (q.mmHash i) = some ∅ → m.freeable.get? (q.mmHash i) = some n →
      LookupOutcome m q i true { m with
        cached := m.cached.set (q.mmHash i) {q.requestId}
        freeable := m.freeable.erase (q.mmHash i)
        numFreeableSlots := m.numFreeableSlots - n }

/-- A lookup that returns has one of the outcomes. -/
theorem checkAndUpdateCache_outcome (hcheck : m.checkAndUpdateCache q i = .ok (hit, m')) :
    LookupOutcome m q i hit m' := by
  unfold checkAndUpdateCache at hcheck
  dsimp only at hcheck
  split at hcheck
  · rename_i hnone
    cases hcheck
    exact .miss hnone
  · rename_i ids hids
    split at hcheck
    · rename_i hne
      cases hcheck
      exact .shared hids hne
    · rename_i hempty
      rw [not_not] at hempty
      subst hempty
      split at hcheck
      · cases hcheck
      · rename_i n hn
        cases hcheck
        exact .alone hids hn

/-- A lookup gives references to its own request only. -/
theorem checkAndUpdateCache_gains (hcheck : m.checkAndUpdateCache q i = .ok (hit, m')) :
    GainsOnly {q.requestId} m m' := by
  cases checkAndUpdateCache_outcome hcheck with
  | miss => exact .refl _ m
  | shared hids =>
    refine .of_set rfl fun x hx hne => ⟨_, hids, ?_⟩
    exact (Finset.mem_insert.mp hx).resolve_left hne
  | alone => exact .of_set rfl fun x hx hne => absurd (Finset.mem_singleton.mp hx) hne

/-- A lookup gives a request a reference that it does not have: the item is cached, and the request
does not refer to it. -/
def TakesReference (m : EncoderCacheManager) (q : Request) (i : ℕ) : Prop :=
  q.mmHash i ∈ m.cached.keys ∧ ¬ m.Holds (q.mmHash i) q.requestId

instance (m : EncoderCacheManager) (q : Request) (i : ℕ) : Decidable (m.TakesReference q i) :=
  inferInstanceAs (Decidable (_ ∧ _))

/-- A lookup that takes no reference changes nothing that matters. -/
theorem checkAndUpdateCache_of_held (hcheck : m.checkAndUpdateCache q i = .ok (hit, m'))
    (hheld : ¬ m.TakesReference q i) :
    GainsOnly ∅ m m' ∧ m'.numFreeableSlots = m.numFreeableSlots := by
  have hholds : ∀ {ids}, m.cached.get? (q.mmHash i) = some ids → q.requestId ∈ ids := by
    intro ids hids
    rw [TakesReference, not_and, not_not] at hheld
    obtain ⟨ids', hids', hmem⟩ := hheld (Dict.mem_keys_of_get? hids)
    cases hids.symm.trans hids'
    exact hmem
  cases checkAndUpdateCache_outcome hcheck with
  | miss => exact ⟨.refl _ m, rfl⟩
  | shared hids =>
    refine ⟨.of_set rfl fun x hx _ => ⟨_, hids, ?_⟩, rfl⟩
    rwa [Finset.insert_eq_of_mem (hholds hids)] at hx
  | alone hids => exact absurd (hholds hids) (Finset.notMem_empty _)

/-- An allocation gives references to its own request only. -/
theorem allocate_gains (halloc : m.allocate q i = .ok m') : GainsOnly {q.requestId} m m' := by
  unfold allocate at halloc
  dsimp only at halloc
  split at halloc
  · cases halloc
  · cases halloc
    refine .of_set rfl fun x hx hne => ?_
    have hmem := (Finset.mem_insert.mp hx).resolve_left hne
    cases hget : m.cached.get? (q.mmHash i) with
    | none =>
      rw [hget] at hmem
      exact absurd hmem (Finset.notMem_empty x)
    | some ids =>
      rw [hget] at hmem
      exact ⟨ids, hget, hmem⟩

/-! ### Giving references up -/

/-- The ways in which a reference is given up. -/
inductive FreeOutcome (m : EncoderCacheManager) (q : Request) (i : ℕ) : EncoderCacheManager → Prop
  | unreferenced : (∀ x, ¬ m.Holds (q.mmHash i) x) → FreeOutcome m q i m
  | shared {ids} : m.cached.get? (q.mmHash i) = some ids → ids.erase q.requestId ≠ ∅ →
      FreeOutcome m q i { m with cached := m.cached.set (q.mmHash i) (ids.erase q.requestId) }
  | last {ids} : m.cached.get? (q.mmHash i) = some ids → ids ≠ ∅ → ids.erase q.requestId = ∅ →
      FreeOutcome m q i { m with
        cached := m.cached.set (q.mmHash i) ∅
        freeable := m.freeable.set (q.mmHash i) (q.getNumEncoderEmbeds i)
        numFreeableSlots := m.numFreeableSlots + q.getNumEncoderEmbeds i }

/-- Freeing an input has one of the outcomes. -/
theorem freeEncoderInput_outcome (m : EncoderCacheManager) (q : Request) (i : ℕ) :
    FreeOutcome m q i (m.freeEncoderInput q i) := by
  unfold freeEncoderInput
  dsimp only
  cases hget : m.cached.get? (q.mmHash i) with
  | none =>
    refine .unreferenced fun x => ?_
    rintro ⟨ids, hids, -⟩
    rw [hget] at hids
    cases hids
  | some ids =>
    rw [Option.getD_some]
    by_cases hempty : ids = ∅
    · subst hempty
      refine .unreferenced fun x => ?_
      rintro ⟨ids, hids, hx⟩
      cases hget.symm.trans hids
      exact absurd hx (Finset.notMem_empty x)
    · rw [if_neg hempty]
      by_cases hlast : ids.erase q.requestId = ∅
      · rw [if_neg (not_not.mpr hlast), hlast]
        exact .last hget hempty hlast
      · rw [if_pos hlast]
        exact .shared hget hlast

/-- Nobody gains a reference, the request loses its own, and no slot is lost. -/
theorem freeEncoderInput_spec (m : EncoderCacheManager) (q : Request) (i : ℕ) :
    GainsOnly ∅ m (m.freeEncoderInput q i) ∧
      ¬ (m.freeEncoderInput q i).Holds (q.mmHash i) q.requestId ∧
      m.numFreeableSlots ≤ (m.freeEncoderInput q i).numFreeableSlots := by
  have houtcome := freeEncoderInput_outcome m q i
  generalize m.freeEncoderInput q i = m' at houtcome
  have hself : ∀ {c n f : _} {ids : Finset ReqId}, q.requestId ∉ ids →
      c = m.cached.set (q.mmHash i) ids → ¬ EncoderCacheManager.Holds { m with
        cached := c
        freeable := f
        numFreeableSlots := n } (q.mmHash i) q.requestId := by
    rintro c n f ids hno rfl ⟨ids', hids', hmem⟩
    cases (Dict.get?_set_self _ _ _).symm.trans hids'
    exact hno hmem
  cases houtcome with
  | unreferenced hno => exact ⟨.refl _ m, hno _, le_refl _⟩
  | shared hids =>
    refine ⟨.of_set rfl fun x hx _ => ⟨_, hids, Finset.mem_of_mem_erase hx⟩, ?_, le_refl _⟩
    exact hself (Finset.notMem_erase _ _) rfl
  | last hids =>
    refine ⟨.of_set rfl fun x hx => absurd hx (Finset.notMem_empty x), ?_, ?_⟩
    · exact hself (Finset.notMem_empty _) rfl
    · exact le_add_of_nonneg_right (Int.natCast_nonneg _)

/-- Giving up the listed inputs one after the other. -/
theorem foldl_free_spec (q : Request) (l : List ℕ) (m : EncoderCacheManager) :
    GainsOnly ∅ m (l.foldl (fun m i => m.freeEncoderInput q i) m) ∧
      (∀ i ∈ l, ¬ (l.foldl (fun m i => m.freeEncoderInput q i) m).Holds (q.mmHash i) q.requestId) ∧
      m.numFreeableSlots ≤ (l.foldl (fun m i => m.freeEncoderInput q i) m).numFreeableSlots := by
  induction l generalizing m with
  | nil => exact ⟨.refl _ m, fun _ hi => absurd hi List.not_mem_nil, le_refl _⟩
  | cons i rest ih =>
    obtain ⟨hgains, hself, hle⟩ := freeEncoderInput_spec m q i
    obtain ⟨hgains', hrest, hle'⟩ := ih (m.freeEncoderInput q i)
    refine ⟨hgains.trans hgains', fun j hj => ?_, hle.trans hle'⟩
    rcases List.mem_cons.mp hj with rfl | hj
    · exact fun hh => hself (hgains' _ _ (Set.notMem_empty _) hh)
    · exact hrest j hj

/-- Freeing a request gives no references. -/
theorem free_gains (m : EncoderCacheManager) (q : Request) : GainsOnly ∅ m (m.free q) :=
  (foldl_free_spec q _ m).1

/-- Freeing a request does not shrink the freeable slots. -/
theorem free_numFreeableSlots_le (m : EncoderCacheManager) (q : Request) :
    m.numFreeableSlots ≤ (m.free q).numFreeableSlots := (foldl_free_spec q _ m).2.2

/-- The cached items of a request are those whose hash is cached. -/
theorem mem_getCachedInputIds : i ∈ m.getCachedInputIds q ↔
    i < q.mmFeatures.length ∧ q.mmHash i ∈ m.cached.keys := by
  rw [getCachedInputIds, List.mem_filter, List.mem_range, Dict.isSome_get?]

/-- Afterwards the request refers to none of its items. -/
theorem free_releases (hi : i < q.mmFeatures.length) : ¬ (m.free q).Holds (q.mmHash i) q.requestId := by
  intro hh
  obtain ⟨hgains, hlost, -⟩ := foldl_free_spec q (m.getCachedInputIds q) m
  have hcached := (hgains _ _ (Set.notMem_empty _) hh).cached
  exact hlost i (mem_getCachedInputIds.mpr ⟨hi, hcached⟩) hh

/-! ### What a request owes -/

/-- The items `P` were taken out of the freeable ones of `m₀` for `q` alone, and no other slot was
lost since. -/
structure Owes (m₀ : EncoderCacheManager) (q : Request) (P : Finset MmHash)
    (m : EncoderCacheManager) : Prop where
  sum : m₀.numFreeableSlots ≤
    m.numFreeableSlots + ∑ h ∈ P, (((m₀.freeable.get? h).getD 0 : ℕ) : ℤ)
  held : ∀ h ∈ P, m.cached.get? h = some {q.requestId}
  taken : ∀ h ∈ P, h ∉ m.freeable.keys
  own : ∀ h ∈ P, ∃ i < q.mmFeatures.length, q.mmHash i = h

namespace Owes

/-- A request owes nothing to the cache as it is. -/
theorem refl (m : EncoderCacheManager) (q : Request) : Owes m q ∅ m :=
  ⟨by simp, fun _ hh => absurd hh (Finset.notMem_empty _), fun _ hh => absurd hh (Finset.notMem_empty _),
    fun _ hh => absurd hh (Finset.notMem_empty _)⟩

/-- Evictions leave what is owed. -/
theorem evicts (ho : Owes m₀ q P m) (h : Evicts m m') : Owes m₀ q P m' where
  sum := h.freeableSlots ▸ ho.sum
  held a ha := (h.kept a (ho.taken a ha)).trans (ho.held a ha)
  taken a ha hmem := by
    obtain ⟨n, hn⟩ := Option.isSome_iff_exists.mp ((Dict.isSome_get? _ _).mpr hmem)
    exact ho.taken a ha (Dict.mem_keys_of_get? (h.freeable a n hn))
  own := ho.own

/-- A lookup owes the slots of an item that nobody referred to. -/
theorem lookup (ho : Owes m₀ q P m) (hi : i < q.mmFeatures.length)
    (hsub : ∀ h n, m.freeable.get? h = some n → m₀.freeable.get? h = some n)
    (hcheck : m.checkAndUpdateCache q i = .ok (hit, m')) : ∃ P', Owes m₀ q P' m' := by
  cases checkAndUpdateCache_outcome hcheck with
  | miss => exact ⟨P, ho⟩
  | @shared ids hids =>
    refine ⟨P, ho.sum, fun a ha => ?_, ho.taken, ho.own⟩
    by_cases hia : q.mmHash i = a
    · subst hia
      cases hids.symm.trans (ho.held _ ha)
      exact (Dict.get?_set_self _ _ _).trans (by simp)
    · exact (Dict.get?_set_ne _ _ hia).trans (ho.held a ha)
  | @alone n hids hn =>
    have hnew : q.mmHash i ∉ P := fun hmem => ho.taken _ hmem (Dict.mem_keys_of_get? hn)
    have hne : ∀ a ∈ P, q.mmHash i ≠ a := fun a ha hia => hnew (hia ▸ ha)
    refine ⟨insert (q.mmHash i) P, ?_, fun a ha => ?_, fun a ha => ?_, fun a ha => ?_⟩
    · rw [Finset.sum_insert hnew, hsub _ _ hn, Option.getD_some]
      have := ho.sum
      dsimp only
      omega
    · rcases Finset.mem_insert.mp ha with rfl | ha
      · exact Dict.get?_set_self _ _ _
      · exact (Dict.get?_set_ne _ _ (hne a ha)).trans (ho.held a ha)
    · rw [Dict.mem_keys_erase]
      rintro ⟨hmem, hia⟩
      rcases Finset.mem_insert.mp ha with rfl | ha
      exacts [hia rfl, ho.taken a ha hmem]
    · rcases Finset.mem_insert.mp ha with rfl | ha
      exacts [⟨i, hi, rfl⟩, ho.own a ha]

/-- What another request gives up is not owed. -/
theorem freeEncoderInput (ho : Owes m₀ q P m) (hv : v.requestId ≠ q.requestId) (i : ℕ) :
    Owes m₀ q P (m.freeEncoderInput v i) := by
  have houtcome := freeEncoderInput_outcome m v i
  generalize m.freeEncoderInput v i = m' at houtcome
  have hself : ({q.requestId} : Finset ReqId).erase v.requestId = {q.requestId} :=
    Finset.erase_eq_of_notMem fun hmem => hv (Finset.mem_singleton.mp hmem)
  cases houtcome with
  | unreferenced => exact ho
  | @shared ids hids hne =>
    refine ⟨ho.sum, fun a ha => ?_, ho.taken, ho.own⟩
    by_cases hia : v.mmHash i = a
    · subst hia
      cases hids.symm.trans (ho.held _ ha)
      exact (Dict.get?_set_self _ _ _).trans (congrArg some hself)
    · exact (Dict.get?_set_ne _ _ hia).trans (ho.held a ha)
  | @last ids hids hne hlast =>
    have hnew : ∀ a ∈ P, v.mmHash i ≠ a := by
      rintro a ha rfl
      cases hids.symm.trans (ho.held _ ha)
      rw [hself] at hlast
      exact absurd hlast (Finset.singleton_ne_empty _)
    refine ⟨?_, fun a ha => ?_, fun a ha hmem => ?_, ho.own⟩
    · have := ho.sum
      dsimp only
      omega
    · exact (Dict.get?_set_ne _ _ (hnew a ha)).trans (ho.held a ha)
    · rcases (Dict.mem_keys_set _ _ _ _).mp hmem with hia | hmem
      exacts [hnew a ha hia.symm, ho.taken a ha hmem]

/-- Freeing another request leaves what is owed. -/
theorem free (ho : Owes m₀ q P m) (hv : v.requestId ≠ q.requestId) : Owes m₀ q P (m.free v) := by
  have hfold : ∀ (l : List ℕ) {t : EncoderCacheManager}, Owes m₀ q P t →
      Owes m₀ q P (l.foldl (fun t i => t.freeEncoderInput v i) t) := by
    intro l
    induction l with
    | nil => exact fun ht => ht
    | cons i rest ih => exact fun ht => ih (ht.freeEncoderInput hv i)
  exact hfold _ ho

end Owes

/-- The cache counts no more embeddings for a freeable item than the request does. -/
def CountsAtMost (m : EncoderCacheManager) (q : Request) : Prop :=
  ∀ i < q.mmFeatures.length, ∀ n ∈ m.freeable.get? (q.mmHash i), n ≤ q.getNumEncoderEmbeds i

instance (m : EncoderCacheManager) (q : Request) : Decidable (m.CountsAtMost q) :=
  inferInstanceAs (Decidable (∀ i < q.mmFeatures.length, _))

namespace Owes

/-- Giving a reference up returns what is owed for it. -/
theorem settleOne (ho : Owes m₀ q P m) (hcount : m₀.CountsAtMost q) (hi : i < q.mmFeatures.length) :
    Owes m₀ q (P.erase (q.mmHash i)) (m.freeEncoderInput q i) := by
  have houtcome := freeEncoderInput_outcome m q i
  generalize m.freeEncoderInput q i = m' at houtcome
  have hle : (m₀.freeable.get? (q.mmHash i)).getD 0 ≤ q.getNumEncoderEmbeds i := by
    cases hget : m₀.freeable.get? (q.mmHash i) with
    | none => exact Nat.zero_le _
    | some n => exact hcount i hi n hget
  have hown : ∀ a ∈ P.erase (q.mmHash i), ∃ i < q.mmFeatures.length, q.mmHash i = a := fun a ha =>
    ho.own a (Finset.mem_of_mem_erase ha)
  have hne : ∀ a ∈ P.erase (q.mmHash i), q.mmHash i ≠ a := fun a ha =>
    (Finset.ne_of_mem_erase ha).symm
  have hnot : ∀ {ids}, m.cached.get? (q.mmHash i) = some ids → ids.erase q.requestId ≠ ∅ →
      q.mmHash i ∉ P := by
    rintro ids hids hne hmem
    cases hids.symm.trans (ho.held _ hmem)
    simp at hne
  cases houtcome with
  | unreferenced hno =>
    have hnew : q.mmHash i ∉ P := fun hmem =>
      hno q.requestId ⟨_, ho.held _ hmem, Finset.mem_singleton_self _⟩
    rw [Finset.erase_eq_of_notMem hnew]
    exact ho
  | shared hids hshared =>
    rw [Finset.erase_eq_of_notMem (hnot hids hshared)] at hne ⊢
    exact ⟨ho.sum, fun a ha => (Dict.get?_set_ne _ _ (hne a ha)).trans (ho.held a ha), ho.taken, ho.own⟩
  | last hids _ hlast =>
    refine ⟨?_, fun a ha => ?_, fun a ha hmem => ?_, hown⟩
    · have hsum := ho.sum
      dsimp only
      by_cases hmem : q.mmHash i ∈ P
      · rw [← Finset.add_sum_erase _ _ hmem] at hsum
        omega
      · rw [Finset.erase_eq_of_notMem hmem]
        omega
    · exact (Dict.get?_set_ne _ _ (hne a ha)).trans (ho.held a (Finset.mem_of_mem_erase ha))
    · rcases (Dict.mem_keys_set _ _ _ _).mp hmem with hia | hmem
      exacts [hne a ha hia.symm, ho.taken a (Finset.mem_of_mem_erase ha) hmem]

/-- Giving all references up returns everything. -/
theorem settle (ho : Owes m₀ q P m) (hcount : m₀.CountsAtMost q) :
    m₀.numFreeableSlots ≤ (m.free q).numFreeableSlots := by
  have hfold : ∀ (l : List ℕ) {t : EncoderCacheManager} {P : Finset MmHash}, Owes m₀ q P t →
      (∀ i ∈ l, i < q.mmFeatures.length) →
      ∃ P' ⊆ P, Owes m₀ q P' (l.foldl (fun t i => t.freeEncoderInput q i) t) ∧
        ∀ i ∈ l, q.mmHash i ∉ P' := by
    intro l
    induction l with
    | nil => exact fun ht _ => ⟨_, Finset.Subset.refl _, ht, fun _ hi => absurd hi List.not_mem_nil⟩
    | cons i rest ih =>
      intro t P ht hl
      obtain ⟨P', hsub, hP', hrest⟩ := ih (ht.settleOne hcount (hl i List.mem_cons_self))
        fun j hj => hl j (List.mem_cons_of_mem _ hj)
      refine ⟨P', hsub.trans (Finset.erase_subset _ _), hP', fun j hj => ?_⟩
      rcases List.mem_cons.mp hj with rfl | hj
      · exact fun hmem => Finset.notMem_erase _ _ (hsub hmem)
      · exact hrest j hj
  obtain ⟨P', hsub, hP', hnone⟩ := hfold (m.getCachedInputIds q) ho fun i hi =>
    (mem_getCachedInputIds.mp hi).1
  have hempty : P' = ∅ := by
    refine Finset.eq_empty_of_forall_notMem fun a ha => ?_
    obtain ⟨i, hi, rfl⟩ := ho.own a (hsub ha)
    have hcached := Dict.mem_keys_of_get? (ho.held _ (hsub ha))
    exact hnone i (mem_getCachedInputIds.mpr ⟨hi, hcached⟩) ha
  subst hempty
  have hsum := hP'.sum
  rw [Finset.sum_empty, add_zero] at hsum
  exact hsum

end Owes

/-- Since `m₀` the request took its own items at most, and owes what it took. -/
structure Borrows (m₀ : EncoderCacheManager) (q : Request) (m : EncoderCacheManager) : Prop where
  owes : ∃ P, Owes m₀ q P m
  freeable : ∀ h n, m.freeable.get? h = some n → m₀.freeable.get? h = some n
  others : ∀ h x, (∀ i < q.mmFeatures.length, q.mmHash i ≠ h) → m.Holds h x → m₀.Holds h x

namespace Borrows

/-- The cache as it is has lent nothing. -/
theorem refl (m : EncoderCacheManager) (q : Request) : Borrows m q m :=
  ⟨⟨∅, .refl m q⟩, fun _ _ hn => hn, fun _ _ _ hh => hh⟩

/-- Evictions lend nothing. -/
theorem evicts (hb : Borrows m₀ q m) (h : Evicts m m') : Borrows m₀ q m' where
  owes := hb.owes.imp fun _ ho => ho.evicts h
  freeable a n hn := hb.freeable a n (h.freeable a n hn)
  others a x ha hh := hb.others a x ha (h.gainsOnly a x (Set.notMem_empty x) hh)

/-- A lookup lends to its own request only. -/
theorem lookup (hb : Borrows m₀ q m) (hi : i < q.mmFeatures.length)
    (hcheck : m.checkAndUpdateCache q i = .ok (hit, m')) : Borrows m₀ q m' := by
  obtain ⟨P, ho⟩ := hb.owes
  have hother : ∀ {c : Dict MmHash (Finset ReqId)} {n : ℤ} {f : Dict MmHash ℕ} {ids : Finset ReqId}
      {a x}, c = m.cached.set (q.mmHash i) ids → (∀ j < q.mmFeatures.length, q.mmHash j ≠ a) →
      EncoderCacheManager.Holds { m with
        cached := c
        freeable := f
        numFreeableSlots := n } a x → m₀.Holds a x := by
    rintro c n f ids a x rfl ha ⟨ids', hids', hx⟩
    exact hb.others a x ha ⟨ids', (Dict.get?_set_ne _ _ (ha i hi)).symm.trans hids', hx⟩
  refine ⟨ho.lookup hi hb.freeable hcheck, ?_, ?_⟩
  · cases checkAndUpdateCache_outcome hcheck with
    | miss | shared => exact hb.freeable
    | alone =>
      intro a n hn
      dsimp only at hn
      rw [Dict.get?_erase] at hn
      split at hn
      · cases hn
      · exact hb.freeable a n hn
  · intro a x ha hh
    cases checkAndUpdateCache_outcome hcheck with
    | miss => exact hb.others a x ha hh
    | shared | alone => exact hother rfl ha hh

end Borrows

end EncoderCacheManager

end RpsServe
