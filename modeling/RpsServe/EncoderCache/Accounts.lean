import RpsServe.EncoderCache.Gains
import RpsServe.Lib.Census
import Mathlib.Algebra.Order.BigOperators.Group.Finset
import Mathlib.Algebra.Order.BigOperators.Group.List

/-!
# The accounts of the encoder cache

The manager counts the slots that are free and those that can be made free, and keeps the
items nobody refers to apart. The second count is the first one and the sizes noted for the
freeable items, whatever these are. Where equal hashes mean equal embedding counts, the
noted sizes are the items' own, and the first count is the cache size less what is cached.
-/

namespace RpsServe

namespace EncoderCacheManager

variable {m m' : EncoderCacheManager} {q : Request} {i : ℕ} {h : MmHash} {hit fits : Bool}
  {size : MmHash → ℕ} {cacheSize : ℕ}

/-- The freeable items are the cached ones without a reference, and their noted sizes are what can
be made free. -/
structure Consistent (m : EncoderCacheManager) : Prop where
  freeable_iff : ∀ h, h ∈ m.freeable.keys ↔ m.cached.get? h = some ∅
  freeableSlots : m.numFreeableSlots = m.numFreeSlots + m.freeable.weight fun _ n => (n : ℤ)
  nonneg : 0 ≤ m.numFreeSlots

/-- The cache a manager starts with is consistent. -/
theorem init_consistent (cacheSize : ℕ) : (init cacheSize).Consistent where
  freeable_iff h := ⟨fun hh => absurd hh List.not_mem_nil, nofun⟩
  freeableSlots := by simp [init]
  nonneg := Int.natCast_nonneg _

namespace Consistent

/-- In a consistent cache what is freeable is cached. -/
theorem wf (hm : m.Consistent) : m.Wf := fun h hh => (hm.freeable_iff h).mp hh

/-- A lookup does not raise. -/
theorem lookup_ok (hm : m.Consistent) (q : Request) (i : ℕ) :
    ∃ hit m', m.checkAndUpdateCache q i = .ok (hit, m') := by
  unfold checkAndUpdateCache
  dsimp only
  cases hget : m.cached.get? (q.mmHash i) with
  | none => exact ⟨_, _, rfl⟩
  | some ids =>
    dsimp only
    by_cases hids : ids = ∅
    · subst hids
      obtain ⟨n, hn⟩ := Option.isSome_iff_exists.mp
        ((Dict.isSome_get? _ _).mpr ((hm.freeable_iff _).mpr hget))
      rw [if_neg (by simp), hn]
      exact ⟨_, _, rfl⟩
    · rw [if_pos hids]
      exact ⟨_, _, rfl⟩

/-- A lookup keeps the cache consistent. -/
theorem lookup (hm : m.Consistent) (hcheck : m.checkAndUpdateCache q i = .ok (hit, m')) :
    m'.Consistent := by
  cases checkAndUpdateCache_outcome hcheck with
  | miss => exact hm
  | shared hids hne =>
    refine ⟨fun h => ?_, hm.freeableSlots, hm.nonneg⟩
    rw [hm.freeable_iff, Dict.get?_set]
    split
    · rename_i hh
      subst hh
      simp [hids, hne]
    · rfl
  | alone hids hn =>
    refine ⟨fun h => ?_, ?_, hm.nonneg⟩
    · rw [Dict.mem_keys_erase, hm.freeable_iff, Dict.get?_set]
      split
      · rename_i hh
        subst hh
        simp
      · rename_i hh
        exact and_iff_left (Ne.symm hh)
    · dsimp only
      rw [Dict.weight_erase _ hn, hm.freeableSlots]
      omega

end Consistent

/-! ### Evictions -/

/-- One eviction of `can_allocate`. -/
def evict (m : EncoderCacheManager) (e : MmHash × ℕ) : EncoderCacheManager :=
  { m with
    freeable := m.freeable.erase e.1
    cached := m.cached.erase e.1
    freed := m.freed ++ [e.1]
    numFreeSlots := m.numFreeSlots + e.2 }

/-- The entries behind the first one are those that are left without it. -/
theorem entries_erase_head {d : Dict MmHash ℕ} {e : MmHash × ℕ} {rest : List (MmHash × ℕ)}
    (h : d.entries = e :: rest) : (d.erase e.1).entries = rest := by
  have hnodup := d.nodup
  rw [h, List.map_cons, List.nodup_cons] at hnodup
  simp only [Dict.erase, h]
  rw [List.filter_cons_of_neg (by simp)]
  refine List.filter_eq_self.mpr fun x hx => decide_eq_true fun hxe => hnodup.1 ?_
  exact hxe ▸ List.mem_map_of_mem hx

/-- What evicting a freeable item keeps is kept by making room. -/
theorem evictUntil_keeps {I : EncoderCacheManager → Prop} {n : ℤ} {freeable : List (MmHash × ℕ)}
    (hm : I m) (hentries : m.freeable.entries = freeable)
    (hone : ∀ m e, I m → m.freeable.get? e.1 = some e.2 → I (m.evict e))
    (h : evictUntil n freeable m = .ok m') : I m' := by
  induction freeable generalizing m with
  | nil =>
    unfold evictUntil at h
    split at h <;> cases h
    exact hm
  | cons e rest ih =>
    have hget : m.freeable.get? e.1 = some e.2 :=
      Dict.get?_of_mem_entries (hentries ▸ List.mem_cons_self)
    unfold evictUntil at h
    split at h
    · cases h
      exact hm
    · dsimp only at h
      split at h
      · cases h
      · exact ih (m := m.evict e) (hone m e hm hget) (entries_erase_head hentries) h

/-- What evicting a freeable item keeps is kept by making room. -/
theorem canAllocate_keeps {I : EncoderCacheManager → Prop} {budget embeds : ℤ} (hm : I m)
    (hone : ∀ m e, I m → m.freeable.get? e.1 = some e.2 → I (m.evict e))
    (h : m.canAllocate q i budget embeds = .ok (fits, m')) : I m' := by
  unfold canAllocate at h
  dsimp only at h
  split at h
  · cases h
    exact hm
  · split at h
    · cases h
      exact hm
    · split at h
      · cases h
        exact hm
      · obtain ⟨m₁, hevict, h⟩ := bind_eq_ok.mp h
        cases h
        exact evictUntil_keeps hm rfl hone hevict

namespace Consistent

/-- Evicting a freeable item keeps the cache consistent. -/
theorem evict {e : MmHash × ℕ} (hm : m.Consistent) (he : m.freeable.get? e.1 = some e.2) :
    (m.evict e).Consistent where
  freeable_iff h := by
    simp only [EncoderCacheManager.evict]
    rw [Dict.mem_keys_erase, hm.freeable_iff, Dict.get?_erase]
    split
    · rename_i hh
      exact ⟨fun hne => absurd hh.symm hne.2, fun hnone => by cases hnone⟩
    · rename_i hh
      exact and_iff_left (Ne.symm hh)
  freeableSlots := by
    simp only [EncoderCacheManager.evict]
    rw [Dict.weight_erase _ he, hm.freeableSlots]
    omega
  nonneg := add_nonneg hm.nonneg (Int.natCast_nonneg _)

/-- Making room keeps the cache consistent. -/
theorem canAllocate {budget embeds : ℤ} (hm : m.Consistent)
    (h : m.canAllocate q i budget embeds = .ok (fits, m')) : m'.Consistent :=
  canAllocate_keeps (I := Consistent) hm (fun _ _ hm he => hm.evict he) h

/-- There is room for what can be made free. -/
theorem evictUntil_ok {n : ℤ} {freeable : List (MmHash × ℕ)} (hm : m.Consistent)
    (hentries : m.freeable.entries = freeable) (hroom : n ≤ m.numFreeableSlots) :
    ∃ m', evictUntil n freeable m = .ok m' ∧ n ≤ m'.numFreeSlots ∧
      m.numFreeSlots ≤ m'.numFreeSlots := by
  induction freeable generalizing m with
  | nil =>
    have hfree : n ≤ m.numFreeSlots := by
      have hslots := hm.freeableSlots
      simp only [Dict.weight, hentries, List.map_nil, List.sum_nil] at hslots
      omega
    refine ⟨m, ?_, hfree, le_refl _⟩
    rw [evictUntil, if_pos hfree]
  | cons e rest ih =>
    have hget : m.freeable.get? e.1 = some e.2 :=
      Dict.get?_of_mem_entries (hentries ▸ List.mem_cons_self)
    unfold evictUntil
    by_cases hfree : n ≤ m.numFreeSlots
    · rw [if_pos hfree]
      exact ⟨m, rfl, hfree, le_refl _⟩
    · have hcached : ¬ (m.cached.get? e.1).isNone = true := by
        rw [(hm.freeable_iff _).mp (Dict.mem_keys_of_get? hget)]
        exact Bool.false_ne_true
      rw [if_neg hfree]
      dsimp only
      rw [if_neg hcached]
      obtain ⟨m', hevict, hn, hle⟩ := ih (hm.evict hget) (entries_erase_head hentries) hroom
      refine ⟨m', hevict, hn, le_trans ?_ hle⟩
      exact le_add_of_nonneg_right (Int.natCast_nonneg _)

/-- Making room does not raise. If it succeeds there is room for the item behind the others. -/
theorem canAllocate_ok (hm : m.Consistent) (q : Request) (i : ℕ) (budget embeds : ℤ) :
    ∃ fits m', m.canAllocate q i budget embeds = .ok (fits, m') ∧
      m.numFreeSlots ≤ m'.numFreeSlots ∧
      (fits = true → q.getNumEncoderEmbeds i + embeds ≤ m'.numFreeSlots) := by
  unfold EncoderCacheManager.canAllocate
  dsimp only
  split
  · exact ⟨_, _, rfl, le_refl _, nofun⟩
  · split
    · rename_i hfree
      exact ⟨_, _, rfl, le_refl _, fun _ => hfree⟩
    · split
      · exact ⟨_, _, rfl, le_refl _, nofun⟩
      · rename_i hroom
        obtain ⟨m', hevict, hn, hle⟩ := hm.evictUntil_ok rfl (not_lt.mp hroom)
        rw [hevict]
        exact ⟨_, _, rfl, hle, fun _ => hn⟩

end Consistent

/-! ### Allocations and references given up -/

/-- Allocating an item that is not cached. -/
theorem allocate_eq_ok (hnew : q.mmHash i ∉ m.cached.keys) (h : m.allocate q i = .ok m') :
    (q.getNumEncoderEmbeds i : ℤ) ≤ m.numFreeSlots ∧ m' = { m with
      cached := m.cached.set (q.mmHash i) {q.requestId}
      numFreeSlots := m.numFreeSlots - q.getNumEncoderEmbeds i
      numFreeableSlots := m.numFreeableSlots - q.getNumEncoderEmbeds i } := by
  have hnone : m.cached.get? (q.mmHash i) = none := by
    rwa [← Option.not_isSome_iff_eq_none, m.cached.isSome_get?]
  unfold allocate at h
  dsimp only at h
  rw [hnone] at h
  split at h
  · cases h
  · rename_i hroom
    cases h
    exact ⟨by omega, rfl⟩

namespace Consistent

/-- Allocating an item that is not cached keeps the cache consistent. -/
theorem allocate (hm : m.Consistent) (hnew : q.mmHash i ∉ m.cached.keys)
    (h : m.allocate q i = .ok m') : m'.Consistent := by
  obtain ⟨hroom, rfl⟩ := allocate_eq_ok hnew h
  refine ⟨fun h => ?_, ?_, sub_nonneg.mpr hroom⟩
  · rw [hm.freeable_iff, Dict.get?_set]
    split
    · rename_i hh
      subst hh
      have hnone : m.cached.get? (q.mmHash i) = none := by
        rwa [← Option.not_isSome_iff_eq_none, m.cached.isSome_get?]
      simp [hnone]
    · rfl
  · dsimp only
    rw [hm.freeableSlots]
    omega

/-- The freeable slots include the free ones. -/
theorem le_freeableSlots (hm : m.Consistent) : m.numFreeSlots ≤ m.numFreeableSlots := by
  rw [hm.freeableSlots]
  refine le_add_of_nonneg_right (List.sum_nonneg fun n hn => ?_)
  obtain ⟨e, -, rfl⟩ := List.mem_map.mp hn
  exact Int.natCast_nonneg _

/-- An item that fits the free slots can be allocated. -/
theorem allocate_ok (hm : m.Consistent) (hroom : (q.getNumEncoderEmbeds i : ℤ) ≤ m.numFreeSlots) :
    ∃ m', m.allocate q i = .ok m' := by
  have hfreeable := hm.le_freeableSlots
  unfold EncoderCacheManager.allocate
  dsimp only
  rw [if_neg (by omega)]
  exact ⟨_, rfl⟩

/-- Freeing an input keeps the cache consistent. -/
theorem freeEncoderInput (hm : m.Consistent) (q : Request) (i : ℕ) :
    (m.freeEncoderInput q i).Consistent := by
  have houtcome := freeEncoderInput_outcome m q i
  generalize m.freeEncoderInput q i = m' at houtcome
  cases houtcome with
  | unreferenced => exact hm
  | shared hids hne =>
    refine ⟨fun h => ?_, hm.freeableSlots, hm.nonneg⟩
    rw [hm.freeable_iff, Dict.get?_set]
    split
    · rename_i hh
      subst hh
      have hids' : m.cached.get? (q.mmHash i) ≠ some ∅ := by
        rw [hids]
        rintro hempty
        cases hempty
        exact hne rfl
      simp [hne, hids']
    · rfl
  | last hids hne =>
    have hnew : q.mmHash i ∉ m.freeable.keys := fun hmem =>
      hne (Option.some.inj (hids.symm.trans ((hm.freeable_iff _).mp hmem)))
    refine ⟨fun h => ?_, ?_, hm.nonneg⟩
    · rw [Dict.mem_keys_set, hm.freeable_iff, Dict.get?_set]
      split
      · rename_i hh
        exact ⟨fun _ => rfl, fun _ => .inl hh.symm⟩
      · rename_i hh
        exact or_iff_right (Ne.symm hh)
    · dsimp only
      rw [Dict.weight_set _ hnew, hm.freeableSlots]
      omega

end Consistent

/-! ### Items that are not cached -/

/-- A lookup caches nothing. -/
theorem checkAndUpdateCache_keys (hcheck : m.checkAndUpdateCache q i = .ok (hit, m')) :
    m'.cached.keys ⊆ m.cached.keys := by
  have hset : ∀ {ids ids' : Finset ReqId}, m.cached.get? (q.mmHash i) = some ids →
      (m.cached.set (q.mmHash i) ids').keys ⊆ m.cached.keys := by
    intro ids ids' hids a ha
    rcases (Dict.mem_keys_set _ _ _ _).mp ha with rfl | ha
    exacts [Dict.mem_keys_of_get? hids, ha]
  cases checkAndUpdateCache_outcome hcheck with
  | miss => exact List.Subset.refl _
  | shared hids | alone hids => exact hset hids

/-- A lookup that finds nothing leaves the cache without the item. -/
theorem checkAndUpdateCache_miss (hcheck : m.checkAndUpdateCache q i = .ok (false, m')) :
    m' = m ∧ q.mmHash i ∉ m.cached.keys := by
  cases checkAndUpdateCache_outcome hcheck with
  | miss hnone =>
    refine ⟨rfl, ?_⟩
    rw [← m.cached.isSome_get?, hnone]
    exact nofun

/-- Evictions cache nothing. -/
theorem Evicts.keys (h : Evicts m m') : m'.cached.keys ⊆ m.cached.keys := by
  intro a ha
  rw [← Dict.isSome_get?] at ha ⊢
  rcases h.gone a with hsame | hnone
  · rwa [hsame] at ha
  · rw [hnone] at ha
    cases ha

/-- Freeing a request caches nothing. -/
theorem free_keys (m : EncoderCacheManager) (q : Request) : (m.free q).cached.keys ⊆ m.cached.keys := by
  have hone : ∀ (m : EncoderCacheManager) (i : ℕ),
      (m.freeEncoderInput q i).cached.keys ⊆ m.cached.keys := by
    intro m i
    have houtcome := freeEncoderInput_outcome m q i
    generalize m.freeEncoderInput q i = m' at houtcome
    cases houtcome with
    | unreferenced => exact List.Subset.refl _
    | shared hids | last hids =>
      intro a ha
      rcases (Dict.mem_keys_set _ _ _ _).mp ha with rfl | ha
      exacts [Dict.mem_keys_of_get? hids, ha]
  have hfold : ∀ (l : List ℕ) (m : EncoderCacheManager),
      (l.foldl (fun m i => m.freeEncoderInput q i) m).cached.keys ⊆ m.cached.keys := by
    intro l
    induction l with
    | nil => exact fun m => List.Subset.refl _
    | cons i rest ih => exact fun m => List.Subset.trans (ih _) (hone m i)
  exact hfold _ m

/-- None of the listed items of the request is cached, and no two of them are the same. -/
structure Lacks (m : EncoderCacheManager) (q : Request) (inputs : List ℕ) : Prop where
  own : ∀ i ∈ inputs, i < q.mmFeatures.length
  nodup : (inputs.map q.mmHash).Nodup
  missing : ∀ i ∈ inputs, q.mmHash i ∉ m.cached.keys

namespace Lacks

variable {inputs inputs' : List ℕ}

/-- Of no items none is cached. -/
theorem nil (m : EncoderCacheManager) (q : Request) : Lacks m q [] :=
  ⟨fun _ hi => absurd hi List.not_mem_nil, List.nodup_nil, fun _ hi => absurd hi List.not_mem_nil⟩

/-- A cache with fewer entries lacks as much. -/
theorem mono (h : Lacks m q inputs) (hkeys : m'.cached.keys ⊆ m.cached.keys) : Lacks m' q inputs :=
  ⟨h.own, h.nodup, fun i hi hmem => h.missing i hi (hkeys hmem)⟩

/-- What is lacked does not depend on the order of the items. -/
theorem perm (h : Lacks m q inputs) (hperm : inputs'.Perm inputs) : Lacks m q inputs' where
  own i hi := h.own i (hperm.mem_iff.mp hi)
  nodup := (hperm.map _).nodup_iff.mpr h.nodup
  missing i hi := h.missing i (hperm.mem_iff.mp hi)

/-- One more item that is not cached is lacked. -/
theorem cons (h : Lacks m q inputs) (hi : i < q.mmFeatures.length)
    (hnew : ∀ j ∈ inputs, q.mmHash j ≠ q.mmHash i) (hmiss : q.mmHash i ∉ m.cached.keys) :
    Lacks m q (i :: inputs) where
  own j hj := by
    rcases List.mem_cons.mp hj with rfl | hj
    exacts [hi, h.own j hj]
  nodup := by
    rw [List.map_cons, List.nodup_cons]
    refine ⟨fun hmem => ?_, h.nodup⟩
    obtain ⟨j, hj, hji⟩ := List.mem_map.mp hmem
    exact hnew j hj hji
  missing j hj := by
    rcases List.mem_cons.mp hj with rfl | hj
    exacts [hmiss, h.missing j hj]

/-- What is lacked depends on the items of the request alone. -/
theorem congr {q' : Request} (h : Lacks m q inputs) (hsame : q'.mmFeatures = q.mmFeatures) :
    Lacks m q' inputs := by
  have hhash : q'.mmHash = q.mmHash := by
    funext j
    rw [Request.mmHash, Request.mmHash, hsame]
  exact ⟨hsame ▸ h.own, hhash ▸ h.nodup, fun j hj => hhash ▸ h.missing j hj⟩

/-- After the first item was allocated the others are still missing. -/
theorem tail (h : Lacks m q (i :: inputs)) (hcached : m'.cached = m.cached.set (q.mmHash i) {q.requestId}) :
    Lacks m' q inputs where
  own j hj := h.own j (List.mem_cons_of_mem _ hj)
  nodup := (List.nodup_cons.mp h.nodup).2
  missing j hj hmem := by
    rw [hcached, Dict.mem_keys_set] at hmem
    rcases hmem with hji | hmem
    · exact (List.nodup_cons.mp h.nodup).1 (hji ▸ List.mem_map_of_mem hj)
    · exact h.missing j (List.mem_cons_of_mem _ hj) hmem

end Lacks

/-! ### Sizes -/

/-- The cached items. -/
def items (m : EncoderCacheManager) : Finset MmHash := m.cached.keys.toFinset

/-- The cached items that no request refers to. -/
def unreferenced (m : EncoderCacheManager) : Finset MmHash :=
  m.items.filter fun h => m.cached.get? h = some ∅

/-- The books of a cache in which equal hashes stand for equally many embeddings. -/
structure Accounts (size : MmHash → ℕ) (cacheSize : ℕ) (m : EncoderCacheManager) : Prop
    extends Consistent m where
  noted : ∀ h n, m.freeable.get? h = some n → n = size h
  freeSlots : m.numFreeSlots = cacheSize - ∑ h ∈ m.items, (size h : ℤ)

/-- The embedding counts of the request's items are those of their hashes. -/
def Sized (size : MmHash → ℕ) (f : MmFeature) : Prop := f.getNumEmbeds = size f.identifier

/-- With sized items, an item has as many embeddings as its hash says. -/
theorem getNumEncoderEmbeds_of_sized (hq : ∀ f ∈ q.mmFeatures, Sized size f)
    (hi : i < q.mmFeatures.length) : q.getNumEncoderEmbeds i = size (q.mmHash i) := by
  have hget : q.mmFeatures[i]? = some q.mmFeatures[i] := List.getElem?_eq_getElem hi
  have hhash : q.mmHash i = q.mmFeatures[i].identifier := by
    simp [Request.mmHash, hget]
  rw [hhash, ← hq _ (List.getElem_mem hi)]
  simp [Request.getNumEncoderEmbeds, hget]

/-- Writing a hash to the cache adds it to the items. -/
theorem items_set {k : MmHash} {ids : Finset ReqId} (hcached : m'.cached = m.cached.set k ids) :
    m'.items = insert k m.items := by
  ext h
  simp [items, hcached]

/-- Writing the references of a cached item. -/
theorem items_set_of_cached {k : MmHash} {ids ids' : Finset ReqId} (hk : m.cached.get? k = some ids')
    (hcached : m'.cached = m.cached.set k ids) : m'.items = m.items := by
  rw [items_set hcached]
  exact Finset.insert_eq_self.mpr (List.mem_toFinset.mpr (Dict.mem_keys_of_get? hk))

/-- The accounts of an empty cache are right. -/
theorem init_accounts (size : MmHash → ℕ) (cacheSize : ℕ) : Accounts size cacheSize (init cacheSize) where
  toConsistent := init_consistent cacheSize
  noted _ _ := nofun
  freeSlots := by simp [init, items]

namespace Accounts

/-- A lookup keeps the accounts right. -/
theorem lookup (hm : Accounts size cacheSize m) (hcheck : m.checkAndUpdateCache q i = .ok (hit, m')) :
    Accounts size cacheSize m' := by
  have hconsistent := hm.toConsistent.lookup hcheck
  cases checkAndUpdateCache_outcome hcheck with
  | miss => exact hm
  | shared hids =>
    refine ⟨hconsistent, hm.noted, ?_⟩
    rw [items_set_of_cached hids rfl]
    exact hm.freeSlots
  | alone hids =>
    refine ⟨hconsistent, fun h n hn => hm.noted h n ?_, ?_⟩
    · rw [Dict.get?_erase] at hn
      split at hn
      · cases hn
      · exact hn
    · rw [items_set_of_cached hids rfl]
      exact hm.freeSlots

/-- Evicting a freeable item keeps the accounts right. -/
theorem evict {e : MmHash × ℕ} (hm : Accounts size cacheSize m) (he : m.freeable.get? e.1 = some e.2) :
    Accounts size cacheSize (m.evict e) where
  toConsistent := hm.toConsistent.evict he
  noted h n hn := by
    refine hm.noted h n ?_
    simp only [EncoderCacheManager.evict] at hn
    rw [Dict.get?_erase] at hn
    split at hn
    · cases hn
    · exact hn
  freeSlots := by
    have hmem : e.1 ∈ m.items :=
      List.mem_toFinset.mpr (Dict.mem_keys_of_get? ((hm.freeable_iff _).mp (Dict.mem_keys_of_get? he)))
    have hitems : (m.evict e).items = m.items.erase e.1 := by
      ext h
      simp [items, EncoderCacheManager.evict, and_comm]
    have hsum := Finset.add_sum_erase m.items (fun h => (size h : ℤ)) hmem
    have hsize := hm.noted _ _ he
    have hfree := hm.freeSlots
    rw [hitems]
    simp only [EncoderCacheManager.evict]
    omega

/-- Allocating an item that is not cached keeps the accounts right. -/
theorem allocate (hm : Accounts size cacheSize m) (hq : ∀ f ∈ q.mmFeatures, Sized size f)
    (hi : i < q.mmFeatures.length) (hnew : q.mmHash i ∉ m.cached.keys)
    (h : m.allocate q i = .ok m') : Accounts size cacheSize m' := by
  have hconsistent := hm.toConsistent.allocate hnew h
  obtain ⟨-, rfl⟩ := allocate_eq_ok hnew h
  have hfresh : q.mmHash i ∉ m.items := by rwa [items, List.mem_toFinset]
  refine ⟨hconsistent, hm.noted, ?_⟩
  rw [items_set (m := m) rfl, Finset.sum_insert hfresh]
  dsimp only
  rw [hm.freeSlots, getNumEncoderEmbeds_of_sized hq hi]
  omega

/-- Freeing an input keeps the accounts right. -/
theorem freeEncoderInput (hm : Accounts size cacheSize m) (hq : ∀ f ∈ q.mmFeatures, Sized size f)
    (hi : i < q.mmFeatures.length) : Accounts size cacheSize (m.freeEncoderInput q i) := by
  have hconsistent := hm.toConsistent.freeEncoderInput q i
  have houtcome := freeEncoderInput_outcome m q i
  generalize m.freeEncoderInput q i = m' at houtcome hconsistent
  cases houtcome with
  | unreferenced => exact hm
  | shared hids =>
    refine ⟨hconsistent, hm.noted, ?_⟩
    rw [items_set_of_cached hids rfl]
    exact hm.freeSlots
  | last hids =>
    refine ⟨hconsistent, fun h n hn => ?_, ?_⟩
    · rw [Dict.get?_set] at hn
      split at hn
      · rename_i hh
        subst hh
        cases hn
        exact getNumEncoderEmbeds_of_sized hq hi
      · exact hm.noted h n hn
    · rw [items_set_of_cached hids rfl]
      exact hm.freeSlots

/-- The freeable items are the unreferenced ones, with their sizes. -/
theorem freeableSlots_eq (hm : Accounts size cacheSize m) :
    m.numFreeableSlots = m.numFreeSlots + ∑ h ∈ m.unreferenced, (size h : ℤ) := by
  have hkeys : m.unreferenced = m.freeable.keys.toFinset := by
    ext h
    rw [unreferenced, Finset.mem_filter, List.mem_toFinset, hm.freeable_iff, items, List.mem_toFinset]
    exact and_iff_right_of_imp fun hh => Dict.mem_keys_of_get? hh
  have hweight : (m.freeable.weight fun _ n => (n : ℤ)) = ∑ h ∈ m.unreferenced, (size h : ℤ) := by
    rw [hkeys, List.sum_toFinset _ m.freeable.keys_nodup, Dict.weight, Dict.keys, List.map_map]
    refine congrArg List.sum (List.map_congr_left fun e he => ?_)
    rw [hm.noted e.1 e.2 (Dict.get?_of_mem_entries he)]
    rfl
  rw [hm.freeableSlots, hweight]

end Accounts

/-- The two counters and the freeable items tell what is cached and what is referred to. -/
structure Balanced (size : MmHash → ℕ) (cacheSize : ℕ) (m : EncoderCacheManager) : Prop where
  freeSlots : m.numFreeSlots = cacheSize - ∑ h ∈ m.items, (size h : ℤ)
  freeableSlots : m.numFreeableSlots = m.numFreeSlots + ∑ h ∈ m.unreferenced, (size h : ℤ)
  freeable_iff : ∀ h, h ∈ m.freeable.keys ↔ m.cached.get? h = some ∅
  freeSlots_range : 0 ≤ m.numFreeSlots ∧ m.numFreeSlots ≤ cacheSize
  freeableSlots_range : 0 ≤ m.numFreeableSlots ∧ m.numFreeableSlots ≤ cacheSize

/-- Right accounts are balanced. -/
theorem Accounts.balanced (hm : Accounts size cacheSize m) : Balanced size cacheSize m := by
  have hunref : ∑ h ∈ m.unreferenced, (size h : ℤ) ≤ ∑ h ∈ m.items, (size h : ℤ) :=
    Finset.sum_le_sum_of_subset_of_nonneg (Finset.filter_subset _ _) fun _ _ _ =>
      Int.natCast_nonneg _
  have hunref_nonneg : 0 ≤ ∑ h ∈ m.unreferenced, (size h : ℤ) :=
    Finset.sum_nonneg fun _ _ => Int.natCast_nonneg _
  have hfree := hm.freeSlots
  have hfreeable := hm.freeableSlots_eq
  have hnonneg := hm.nonneg
  exact ⟨hfree, hfreeable, hm.freeable_iff, ⟨hnonneg, by omega⟩, by omega, by omega⟩

/-! ### The calls of the scheduler -/

/-- What is kept when requests with items of the kind `F` give references up. -/
structure FreeRule (F : MmFeature → Prop) (I : EncoderCacheManager → Prop) : Prop where
  freeEncoderInput : ∀ {m q i}, (∀ f ∈ q.mmFeatures, F f) → i < q.mmFeatures.length → I m →
    I (m.freeEncoderInput q i)

/-- What is kept by every call that the scheduler issues for requests with items of the kind `F`.
Only items that are not cached are allocated. -/
structure CallRule (F : MmFeature → Prop) (I : EncoderCacheManager → Prop) : Prop
    extends FreeRule F I where
  lookup : ∀ {m m' q i hit}, (∀ f ∈ q.mmFeatures, F f) → I m →
    m.checkAndUpdateCache q i = .ok (hit, m') → I m'
  canAllocate : ∀ {m m' q i budget embeds fits}, (∀ f ∈ q.mmFeatures, F f) → I m →
    m.canAllocate q i budget embeds = .ok (fits, m') → I m'
  allocate : ∀ {m m' q i}, (∀ f ∈ q.mmFeatures, F f) → i < q.mmFeatures.length → I m →
    q.mmHash i ∉ m.cached.keys → m.allocate q i = .ok m' → I m'
  getFreedMmHashes : ∀ {m}, I m → I { m with freed := [] }

/-- The states of the cache that sequences of such calls lead to. -/
inductive Called (F : MmFeature → Prop) (m₀ : EncoderCacheManager) : EncoderCacheManager → Prop
  | start : Called F m₀ m₀
  | lookup {c c' v j found} : (∀ f ∈ v.mmFeatures, F f) → Called F m₀ c →
      c.checkAndUpdateCache v j = .ok (found, c') → Called F m₀ c'
  | canAllocate {c c' v j budget embeds found} : (∀ f ∈ v.mmFeatures, F f) → Called F m₀ c →
      c.canAllocate v j budget embeds = .ok (found, c') → Called F m₀ c'
  | allocate {c c' v j} : (∀ f ∈ v.mmFeatures, F f) → j < v.mmFeatures.length → Called F m₀ c →
      v.mmHash j ∉ c.cached.keys → c.allocate v j = .ok c' → Called F m₀ c'
  | freeEncoderInput {c v j} : (∀ f ∈ v.mmFeatures, F f) → j < v.mmFeatures.length →
      Called F m₀ c → Called F m₀ (c.freeEncoderInput v j)
  | getFreedMmHashes {c} : Called F m₀ c → Called F m₀ { c with freed := [] }

/-- What the calls of a scheduler lead to is kept by further calls. -/
theorem called_rule (F : MmFeature → Prop) (m₀ : EncoderCacheManager) : CallRule F (Called F m₀) :=
  ⟨⟨.freeEncoderInput⟩, .lookup, .canAllocate, .allocate, .getFreedMmHashes⟩

/-- What every call keeps holds after every sequence of calls. -/
theorem Called.invariant {F : MmFeature → Prop} {I : EncoderCacheManager → Prop}
    {m₀ : EncoderCacheManager} (h : Called F m₀ m) (hrule : CallRule F I) (hm₀ : I m₀) : I m := by
  induction h with
  | start => exact hm₀
  | lookup hq _ hcheck ih => exact hrule.lookup hq ih hcheck
  | canAllocate hq _ hcan ih => exact hrule.canAllocate hq ih hcan
  | allocate hq hi _ hnew halloc ih => exact hrule.allocate hq hi ih hnew halloc
  | freeEncoderInput hq hi _ ih => exact hrule.freeEncoderInput hq hi ih
  | getFreedMmHashes _ ih => exact hrule.getFreedMmHashes ih

/-- A request gives all its references up. -/
theorem FreeRule.free {F : MmFeature → Prop} {I : EncoderCacheManager → Prop} (hrule : FreeRule F I)
    (hq : ∀ f ∈ q.mmFeatures, F f) (hm : I m) : I (m.free q) := by
  have hfold : ∀ (l : List ℕ) {t : EncoderCacheManager}, (∀ i ∈ l, i < q.mmFeatures.length) → I t →
      I (l.foldl (fun t i => t.freeEncoderInput q i) t) := by
    intro l
    induction l with
    | nil => exact fun _ ht => ht
    | cons i rest ih =>
      intro t hl ht
      refine ih (fun j hj => hl j (List.mem_cons_of_mem _ hj)) ?_
      exact hrule.freeEncoderInput hq (hl i List.mem_cons_self) ht
  exact hfold _ (fun i hi => (mem_getCachedInputIds.mp hi).1) hm

/-- Every call keeps the cache consistent. -/
theorem consistent_rule : CallRule (fun _ => True) Consistent where
  lookup _ hm h := hm.lookup h
  canAllocate _ hm h := hm.canAllocate h
  allocate _ _ hm hnew h := hm.allocate hnew h
  freeEncoderInput _ _ hm := hm.freeEncoderInput _ _
  getFreedMmHashes hm := ⟨hm.freeable_iff, hm.freeableSlots, hm.nonneg⟩

/-- Every call keeps the accounts right. -/
theorem accounts_rule (size : MmHash → ℕ) (cacheSize : ℕ) :
    CallRule (Sized size) (Accounts size cacheSize) where
  lookup _ hm h := hm.lookup h
  canAllocate _ hm h := canAllocate_keeps hm (fun _ _ hm he => hm.evict he) h
  allocate hq hi hm hnew h := hm.allocate hq hi hnew h
  freeEncoderInput hq hi hm := hm.freeEncoderInput hq hi
  getFreedMmHashes hm := ⟨consistent_rule.getFreedMmHashes hm.toConsistent, hm.noted, hm.freeSlots⟩

end EncoderCacheManager

end RpsServe
