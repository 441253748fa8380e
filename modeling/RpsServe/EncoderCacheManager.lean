import RpsServe.CacheInterface
import RpsServe.Lib.Dict
import Mathlib.Data.Finset.Basic

/-!
# The encoder cache managers

`EncoderCacheManager` counts which requests refer to a cached item. An item nobody refers
to stays cached, in the order in which it was given up, until its room is needed; what was
evicted is reported to the workers with the next step. `EncoderDecoderCacheManager` only
counts slots.
-/

namespace RpsServe

/-- The hash of the item `inputId`; the index is one of the request's own items. -/
def Request.mmHash (q : Request) (inputId : ℕ) : MmHash := (q.mmFeatures.map (·.identifier))[inputId]?.getD 0

/-- `EncoderCacheManager`. The entries of `freeable` are in the order of eviction. -/
structure EncoderCacheManager where
  cacheSize : ℕ
  numFreeSlots : ℤ
  numFreeableSlots : ℤ
  cached : Dict MmHash (Finset ReqId) := .empty
  freeable : Dict MmHash ℕ := .empty
  freed : List MmHash := []
deriving DecidableEq

namespace EncoderCacheManager

/-- `EncoderCacheManager.__init__`. -/
def init (cacheSize : ℕ) : EncoderCacheManager where
  cacheSize := cacheSize
  numFreeSlots := cacheSize
  numFreeableSlots := cacheSize

/-- `check_and_update_cache`: whether the item is cached, and then a reference to it. -/
def checkAndUpdateCache (m : EncoderCacheManager) (q : Request) (inputId : ℕ) :
    Except SchedError (Bool × EncoderCacheManager) :=
  let mmHash := q.mmHash inputId
  match m.cached.get? mmHash with
  | none => .ok (false, m)
  | some ids =>
    let cached := m.cached.set mmHash (insert q.requestId ids)
    if ids ≠ ∅ then .ok (true, { m with cached := cached })
    else
      match m.freeable.get? mmHash with
      | none => .error .keyError
      | some numEncoderEmbeds =>
        .ok (true, { m with
          cached := cached
          freeable := m.freeable.erase mmHash
          numFreeableSlots := m.numFreeableSlots - numEncoderEmbeds })

/-- The evictions of `can_allocate`, from the given entries of `freeable` on. -/
def evictUntil (numEmbeds : ℤ) : List (MmHash × ℕ) → EncoderCacheManager →
    Except SchedError EncoderCacheManager
  | freeable, m =>
    if numEmbeds ≤ m.numFreeSlots then .ok m
    else
      match freeable with
      | [] => .error .keyError
      | (mmHash, numFreeEmbeds) :: rest =>
        if (m.cached.get? mmHash).isNone then .error .keyError
        else
          evictUntil numEmbeds rest { m with
            freeable := m.freeable.erase mmHash
            cached := m.cached.erase mmHash
            freed := m.freed ++ [mmHash]
            numFreeSlots := m.numFreeSlots + numFreeEmbeds }

/-- `can_allocate`. -/
def canAllocate (m : EncoderCacheManager) (q : Request) (inputId : ℕ)
    (encoderComputeBudget numEmbedsToSchedule : ℤ) :
    Except SchedError (Bool × EncoderCacheManager) :=
  let numEmbeds : ℤ := q.getNumEncoderEmbeds inputId
  if encoderComputeBudget < numEmbeds then .ok (false, m)
  else
    let numEmbeds := numEmbeds + numEmbedsToSchedule
    if numEmbeds ≤ m.numFreeSlots then .ok (true, m)
    else if m.numFreeableSlots < numEmbeds then .ok (false, m)
    else do
      let m ← evictUntil numEmbeds m.freeable.entries m
      .ok (true, m)

/-- `allocate`. -/
def allocate (m : EncoderCacheManager) (q : Request) (inputId : ℕ) :
    Except SchedError EncoderCacheManager :=
  let mmHash := q.mmHash inputId
  let ids := (m.cached.get? mmHash).getD ∅
  let numEncoderEmbeds : ℤ := q.getNumEncoderEmbeds inputId
  if m.numFreeSlots < numEncoderEmbeds ∨ m.numFreeableSlots < numEncoderEmbeds then
    .error .encoderCacheError
  else
    .ok { m with
      cached := m.cached.set mmHash (insert q.requestId ids)
      numFreeSlots := m.numFreeSlots - numEncoderEmbeds
      numFreeableSlots := m.numFreeableSlots - numEncoderEmbeds }

/-- `get_cached_input_ids`. -/
def getCachedInputIds (m : EncoderCacheManager) (q : Request) : List ℕ :=
  (List.range q.mmFeatures.length).filter fun i => (m.cached.get? (q.mmHash i)).isSome

/-- `free_encoder_input`: the request gives its reference up. -/
def freeEncoderInput (m : EncoderCacheManager) (q : Request) (inputId : ℕ) : EncoderCacheManager :=
  let mmHash := q.mmHash inputId
  let ids := (m.cached.get? mmHash).getD ∅
  if ids = ∅ then m
  else
    let m := { m with cached := m.cached.set mmHash (ids.erase q.requestId) }
    if ids.erase q.requestId ≠ ∅ then m
    else
      let numEncoderEmbeds := q.getNumEncoderEmbeds inputId
      { m with
        freeable := m.freeable.set mmHash numEncoderEmbeds
        numFreeableSlots := m.numFreeableSlots + numEncoderEmbeds }

/-- `free`. -/
def free (m : EncoderCacheManager) (q : Request) : EncoderCacheManager :=
  (m.getCachedInputIds q).foldl (fun m i => m.freeEncoderInput q i) m

instance : EncoderCache EncoderCacheManager where
  cacheSize := cacheSize
  checkAndUpdateCache := checkAndUpdateCache
  canAllocate := canAllocate
  allocate := allocate
  getCachedInputIds := getCachedInputIds
  freeEncoderInput := freeEncoderInput
  free := free
  getFreedMmHashes m := (m.freed, { m with freed := [] })

instance : LawfulEncoderCache EncoderCacheManager where
  getCachedInputIds_getFreedMmHashes _ _ := rfl

instance : BudgetedEncoderCache EncoderCacheManager where
  embeds_le_of_canAllocate {m m' q i budget embeds} h := by
    change m.canAllocate q i budget embeds = .ok (true, m') at h
    unfold canAllocate at h
    dsimp only at h
    split at h
    · cases h
    · omega

end EncoderCacheManager

/-- `EncoderDecoderCacheManager`. -/
structure EncoderDecoderCacheManager where
  cacheSize : ℕ
  numFreeSlots : ℤ
  allocated : List MmHash := []
  toFree : List MmHash := []
deriving DecidableEq

namespace EncoderDecoderCacheManager

/-- `EncoderDecoderCacheManager.__init__`. -/
def init (cacheSize : ℕ) : EncoderDecoderCacheManager where
  cacheSize := cacheSize
  numFreeSlots := cacheSize

/-- `can_allocate`. -/
def canAllocate (m : EncoderDecoderCacheManager) (q : Request) (inputId : ℕ)
    (encoderComputeBudget numEmbedsToSchedule : ℤ) : Bool :=
  let numEncoderEmbeds : ℤ := q.getNumEncoderEmbeds inputId
  numEncoderEmbeds ≤ encoderComputeBudget && numEncoderEmbeds + numEmbedsToSchedule ≤ m.numFreeSlots

/-- `allocate`. -/
def allocate (m : EncoderDecoderCacheManager) (q : Request) (inputId : ℕ) :
    EncoderDecoderCacheManager :=
  { m with
    numFreeSlots := m.numFreeSlots - q.getNumEncoderEmbeds inputId
    allocated := m.allocated ++ [q.mmHash inputId] }

/-- `free_encoder_input`. -/
def freeEncoderInput (m : EncoderDecoderCacheManager) (q : Request) (inputId : ℕ) :
    EncoderDecoderCacheManager :=
  { m with numFreeSlots := m.numFreeSlots + q.getNumEncoderEmbeds inputId }

/-- `free`. -/
def free (m : EncoderDecoderCacheManager) (q : Request) : EncoderDecoderCacheManager :=
  (List.range q.mmFeatures.length).foldl (fun m i => m.freeEncoderInput q i) m

instance : EncoderCache EncoderDecoderCacheManager where
  cacheSize := cacheSize
  checkAndUpdateCache m _ _ := .ok (false, m)
  canAllocate m q i budget embeds := .ok (m.canAllocate q i budget embeds, m)
  allocate m q i := .ok (m.allocate q i)
  getCachedInputIds _ q := List.range q.mmFeatures.length
  freeEncoderInput := freeEncoderInput
  free := free
  getFreedMmHashes m := (m.toFree, { m with toFree := m.allocated, allocated := [] })

instance : LawfulEncoderCache EncoderDecoderCacheManager where
  getCachedInputIds_getFreedMmHashes _ _ := rfl

instance : BudgetedEncoderCache EncoderDecoderCacheManager where
  embeds_le_of_canAllocate {m m' q i budget embeds} h := by
    change (Except.ok (m.canAllocate q i budget embeds, m) : Except SchedError _) =
      .ok (true, m') at h
    obtain ⟨hfits, -⟩ := Prod.mk.inj (Except.ok.inj h)
    rw [canAllocate, Bool.and_eq_true, decide_eq_true_eq] at hfits
    exact hfits.1

end EncoderDecoderCacheManager

end RpsServe
