import RpsServe.P2p.Engine
import RpsServe.P2p.BuddySystem
import RpsServe.Lib.Census

/-!
# The store of received tensors

The books of the engine balance: the buffer is charged for what the store holds, and the pool
lends out exactly the addresses the store refers to. Receiving and cleaning up keep the books.
What they cannot undo is an entry that came around them: one that the own rank put, which is
neither charged nor recorded, one whose request was cleaned up before, and one that is recorded
under another request because the id of its own has a `#`.
-/

namespace RpsServe.P2p

/-- What the buffer is charged for an entry. -/
def entrySize (entry : Option Stored) : ℕ := (entry.map Stored.size).getD 0

/-- An entry without a tensor has no size. -/
@[simp] theorem entrySize_none : entrySize none = 0 := rfl

/-- An entry with a tensor has the tensor's size. -/
@[simp] theorem entrySize_some (x : Stored) : entrySize (some x) = x.size := rfl

namespace Engine

/-- The entry at a tensor id refers to an address of the pool. -/
def RefersTo (e : Engine) (tensorId : Text) (addr : ℤ) : Prop :=
  ∃ elementSize shape, e.recvStore.get? tensorId = some (some (.pooled addr elementSize shape))

/-- The books balance. -/
structure Balanced (e : Engine) : Prop where
  pool : e.pool.Wf
  charged : e.bufferSize = e.recvStore.total entrySize
  lent : ∀ addr, addr ∈ e.pool.allocatedBlocks.keys ↔ ∃ tensorId, e.RefersTo tensorId addr
  once : ∀ addr tensorId tensorId', e.RefersTo tensorId addr → e.RefersTo tensorId' addr →
    tensorId = tensorId'
  fits : ∀ tensorId addr elementSize shape,
    e.recvStore.get? tensorId = some (some (.pooled addr elementSize shape)) →
    ∃ b, e.pool.allocatedBlocks.get? addr = some b ∧ shape.prod * elementSize ≤ b.size

/-- Every entry is recorded under the request that its id names. -/
def Recorded (e : Engine) : Prop :=
  ∀ tensorId ∈ e.recvStore.keys,
    tensorId ∈ (e.recvRequestIdToTensorIds.get? (requestOf tensorId)).getD []

variable {e e' : Engine} {tensorId : Text} {tensor : Tensor} {entry : Option Stored}

/-! ## An entry comes in -/

/-- An entry that refers to no address is charged and filed. -/
theorem Balanced.file (h : e.Balanced) (hnew : tensorId ∉ e.recvStore.keys)
    (hentry : ∀ addr elementSize shape, entry ≠ some (.pooled addr elementSize shape))
    (hpool : e'.pool = e.pool) (hsize : e'.bufferSize = e.bufferSize + entrySize entry)
    (hstore : e'.recvStore = e.recvStore.set tensorId entry) : e'.Balanced := by
  have hget : ∀ t addr elementSize shape,
      e'.recvStore.get? t = some (some (.pooled addr elementSize shape)) ↔
        e.recvStore.get? t = some (some (.pooled addr elementSize shape)) := by
    intro t addr elementSize shape
    rw [hstore, Dict.get?_set]
    by_cases ht : tensorId = t
    · have hnone : e.recvStore.get? t = none := by
        rw [← Option.not_isSome_iff_eq_none, Dict.isSome_get?, ← ht]
        exact hnew
      simp [ht, hnone, hentry]
    · simp [ht]
  have hrefers : ∀ t addr, e'.RefersTo t addr ↔ e.RefersTo t addr := fun t addr => by
    simp only [RefersTo, hget]
  refine ⟨hpool ▸ h.pool, ?_, fun addr => ?_, fun addr t t' => ?_, fun t addr es shape => ?_⟩
  · rw [hsize, hstore, Dict.total_set _ hnew, h.charged]
    push_cast
    rfl
  · simp only [hpool, hrefers]
    exact h.lent addr
  · rw [hrefers, hrefers]
    exact h.once addr t t'
  · rw [hget, hpool]
    exact h.fits t addr es shape

/-- An entry that went to a fresh address of the pool is charged and filed. -/
theorem Balanced.filePooled {addr : ℤ} {b : MemoryBlock} (h : e.Balanced)
    (hnew : tensorId ∉ e.recvStore.keys) (hpool : e'.pool.Wf) (hfits : tensor.size ≤ b.size)
    (haddr : addr ∉ e.pool.allocatedBlocks.keys)
    (halloc : e'.pool.allocatedBlocks = e.pool.allocatedBlocks.set addr b)
    (hsize : e'.bufferSize = e.bufferSize + tensor.size)
    (hstore : e'.recvStore =
      e.recvStore.set tensorId (some (.pooled addr tensor.elementSize tensor.shape))) :
    e'.Balanced := by
  have hcomm : tensor.shape.prod * tensor.elementSize = tensor.size := Nat.mul_comm _ _
  have hrefers : ∀ t a, e'.RefersTo t a ↔ (t = tensorId ∧ a = addr) ∨ e.RefersTo t a := by
    intro t a
    rw [RefersTo, hstore]
    by_cases ht : t = tensorId
    · subst ht
      have hnone : ¬ e.RefersTo t a := fun ⟨_, _, ht⟩ => hnew (Dict.mem_keys_of_get? ht)
      simp [hnone, eq_comm]
    · simp [ht, Dict.get?_set_ne _ _ (Ne.symm ht), RefersTo]
  have hfresh : ∀ t, ¬ e.RefersTo t addr := fun t ht => haddr ((h.lent addr).mpr ⟨t, ht⟩)
  refine ⟨hpool, ?_, fun a => ?_, fun a t t' ht ht' => ?_, fun t a es shape ht => ?_⟩
  · rw [hsize, hstore, Dict.total_set _ hnew, h.charged, entrySize_some, Stored.size, hcomm]
    push_cast
    rfl
  · rw [halloc, Dict.mem_keys_set]
    simp only [hrefers, exists_or]
    rw [h.lent a]
    simp
  · rw [hrefers] at ht ht'
    rcases ht with ⟨rfl, rfl⟩ | ht
    · rcases ht' with ⟨rfl, -⟩ | ht'
      · rfl
      · exact absurd ht' (hfresh t')
    · rcases ht' with ⟨rfl, rfl⟩ | ht'
      · exact absurd ht (hfresh t)
      · exact h.once a t t' ht ht'
  · rw [hstore] at ht
    rw [halloc]
    by_cases htid : tensorId = t
    · rw [htid, Dict.get?_set_self] at ht
      simp only [Option.some.injEq, Stored.pooled.injEq] at ht
      obtain ⟨rfl, rfl, rfl⟩ := ht
      exact ⟨b, Dict.get?_set_self _ _ _, by omega⟩
    · rw [Dict.get?_set_ne _ _ htid] at ht
      obtain ⟨c, hc, hle⟩ := h.fits t a es shape ht
      have hne : addr ≠ a := fun heq => haddr (heq ▸ Dict.mem_keys_of_get? hc)
      exact ⟨c, by rw [Dict.get?_set_ne _ _ hne, hc], hle⟩

/-! ## An entry goes out -/

/-- An entry that refers to no address is taken out of the books. -/
theorem Balanced.take (h : e.Balanced) (hget : e.recvStore.get? tensorId = some entry)
    (hentry : ∀ addr elementSize shape, entry ≠ some (.pooled addr elementSize shape))
    (hpool : e'.pool = e.pool) (hsize : e'.bufferSize = e.bufferSize - entrySize entry)
    (hstore : e'.recvStore = e.recvStore.erase tensorId) : e'.Balanced := by
  have hget' : ∀ t addr elementSize shape,
      e'.recvStore.get? t = some (some (.pooled addr elementSize shape)) ↔
        e.recvStore.get? t = some (some (.pooled addr elementSize shape)) := by
    intro t addr elementSize shape
    rw [hstore, Dict.get?_erase]
    by_cases ht : tensorId = t
    · simp [← ht, hget, hentry]
    · simp [ht]
  have hrefers : ∀ t addr, e'.RefersTo t addr ↔ e.RefersTo t addr := fun t addr => by
    simp only [RefersTo, hget']
  have htotal := e.recvStore.total_erase entrySize hget
  refine ⟨hpool ▸ h.pool, ?_, fun addr => ?_, fun addr t t' => ?_, fun t addr es shape => ?_⟩
  · rw [hsize, hstore, h.charged]
    omega
  · simp only [hpool, hrefers]
    exact h.lent addr
  · rw [hrefers, hrefers]
    exact h.once addr t t'
  · rw [hget', hpool]
    exact h.fits t addr es shape

/-- An entry that refers to an address is taken out of the books, and the address given back. -/
theorem Balanced.takePooled {addr : ℤ} {elementSize : ℕ} {shape : List ℕ} (h : e.Balanced)
    (hget : e.recvStore.get? tensorId = some (some (.pooled addr elementSize shape)))
    (hpool : e'.pool.Wf)
    (halloc : e'.pool.allocatedBlocks = e.pool.allocatedBlocks.erase addr)
    (hsize : e'.bufferSize = e.bufferSize - ↑(shape.prod * elementSize))
    (hstore : e'.recvStore = e.recvStore.erase tensorId) : e'.Balanced := by
  have hself : e.RefersTo tensorId addr := ⟨elementSize, shape, hget⟩
  have hrefers : ∀ t a, e'.RefersTo t a ↔ a ≠ addr ∧ e.RefersTo t a := by
    intro t a
    rw [RefersTo, hstore]
    by_cases ht : t = tensorId
    · subst ht
      have hgone : ¬ (a ≠ addr ∧ e.RefersTo t a) := by
        rintro ⟨hne, es, sh, hes⟩
        rw [hget] at hes
        simp only [Option.some.injEq, Stored.pooled.injEq] at hes
        exact hne hes.1.symm
      simp [Dict.get?_erase, hgone]
    · have hne : e.RefersTo t a → a ≠ addr := fun hr ha => ht (h.once addr t tensorId (ha ▸ hr) hself)
      simp only [Dict.get?_erase, if_neg (Ne.symm ht)]
      exact ⟨fun hr => ⟨hne hr, hr⟩, fun hr => hr.2⟩
  have htotal := e.recvStore.total_erase entrySize hget
  simp only [entrySize_some, Stored.size] at htotal
  refine ⟨hpool, ?_, fun a => ?_, fun a t t' ht ht' => ?_, fun t a es sh ht => ?_⟩
  · rw [hsize, hstore, h.charged]
    omega
  · rw [halloc, Dict.mem_keys_erase, h.lent a]
    simp only [hrefers, exists_and_left]
    exact and_comm
  · exact h.once a t t' ((hrefers t a).mp ht).2 ((hrefers t' a).mp ht').2
  · have hne : a ≠ addr := ((hrefers t a).mp ⟨es, sh, ht⟩).1
    rw [hstore, Dict.get?_erase] at ht
    split at ht
    · cases ht
    · obtain ⟨b, hb, hle⟩ := h.fits t a es sh ht
      exact ⟨b, by rw [halloc, Dict.get?_erase, if_neg (Ne.symm hne), hb], hle⟩

/-! ## The operations -/

/-- Cleaning a tensor up never raises: its entry is gone, and the books balance. -/
theorem cleanTensor_spec (h : e.Balanced) (tensorId : Text) : ∃ e',
    e.cleanTensor tensorId = (.ok (), e') ∧ e'.Balanced ∧
      (∀ t, e'.recvStore.get? t = if tensorId = t then none else e.recvStore.get? t) ∧
      e'.recvRequestIdToTensorIds = e.recvRequestIdToTensorIds := by
  unfold cleanTensor
  cases hget : e.recvStore.get? tensorId with
  | none =>
    refine ⟨e, rfl, h, fun t => ?_, rfl⟩
    split
    · rename_i ht
      rw [← ht, hget]
    · rfl
  | some entry =>
    have herase := e.recvStore.get?_erase tensorId
    cases entry with
    | none =>
      exact ⟨_, rfl, h.take hget (by simp) rfl (by simp) rfl, herase, rfl⟩
    | some x =>
      cases x with
      | onDevice tensor =>
        exact ⟨_, rfl, h.take hget (by simp) rfl (by simp [Stored.size]) rfl, herase, rfl⟩
      | pooled addr elementSize shape =>
        obtain ⟨b, hb, -⟩ := h.fits tensorId addr elementSize shape hget
        obtain ⟨pool, hfree, hwf, halloc⟩ := TensorMemoryPool.free_spec h.pool hb
        simp only [hfree]
        exact ⟨_, rfl, h.takePooled hget hwf halloc rfl rfl, herase, rfl⟩

/-- `recv_tensor` of a tensor that is there returns it, and leaves what a cleanup leaves. -/
theorem recvTensor_spec (h : e.Balanced) (tensorId : Text) :
    (∃ tensor?, (e.recvTensor tensorId).1 = .ok tensor?) ∧
        (e.recvTensor tensorId).2 = (e.cleanTensor tensorId).2 ∨
      (e.recvTensor tensorId = (.error .waits, e) ∧ tensorId ∉ e.recvStore.keys) := by
  unfold recvTensor cleanTensor
  cases hget : e.recvStore.get? tensorId with
  | none =>
    refine .inr ⟨rfl, fun hmem => ?_⟩
    rw [← Dict.isSome_get?, hget] at hmem
    cases hmem
  | some entry =>
    left
    cases entry with
    | none => exact ⟨⟨none, rfl⟩, rfl⟩
    | some x =>
      cases x with
      | onDevice tensor => exact ⟨⟨some tensor, rfl⟩, rfl⟩
      | pooled addr elementSize shape =>
        obtain ⟨b, hb, hfits⟩ := h.fits tensorId addr elementSize shape hget
        obtain ⟨pool, hfree, -⟩ := TensorMemoryPool.free_spec h.pool hb
        have hload := TensorMemoryPool.loadTensor_spec ⟨elementSize, shape⟩ hb
          (le_of_eq_of_le (Nat.mul_comm _ _) hfits)
        simp only [hload, hfree, and_true]
        exact ⟨some ⟨elementSize, shape⟩, rfl⟩

/-- Cleaning up tensors takes them out of the store and keeps the books. -/
theorem cleanTensors_spec (tensorIds : List Text) (h : e.Balanced) : ∃ e',
    cleanTensors tensorIds e = (.ok (), e') ∧ e'.Balanced ∧
      (∀ t, e'.recvStore.get? t = if t ∈ tensorIds then none else e.recvStore.get? t) ∧
      e'.recvRequestIdToTensorIds = e.recvRequestIdToTensorIds := by
  induction tensorIds generalizing e with
  | nil => exact ⟨e, rfl, h, by simp, rfl⟩
  | cons tensorId rest ih =>
    obtain ⟨e₁, hclean, h₁, hget₁, hrec₁⟩ := cleanTensor_spec h tensorId
    obtain ⟨e₂, hrest, h₂, hget₂, hrec₂⟩ := ih h₁
    refine ⟨e₂, ?_, h₂, fun t => ?_, hrec₂.trans hrec₁⟩
    · rw [cleanTensors, hclean]
      exact hrest
    · simp only [hget₂, hget₁, List.mem_cons]
      by_cases ht : tensorId = t
      · simp [ht]
      · simp [ht, Ne.symm ht]

/-- `get_finished` never raises: of the requests it is told, no entry is left that is recorded. -/
theorem getFinished_spec {order : List Text → List Text} (horder : ∀ ids, (order ids).Perm ids)
    (requestIds : List Text) (h : e.Balanced) (hrec : e.Recorded) : ∃ e',
    getFinished order requestIds e = (.ok (), e') ∧ e'.Balanced ∧ e'.Recorded ∧
      ∀ t ∈ e'.recvStore.keys, t ∈ e.recvStore.keys ∧ requestOf t ∉ requestIds := by
  induction requestIds generalizing e with
  | nil => exact ⟨e, rfl, h, hrec, by simp⟩
  | cons requestId rest ih =>
    have hpopped : Balanced
        { e with recvRequestIdToTensorIds := e.recvRequestIdToTensorIds.erase requestId } :=
      ⟨h.pool, h.charged, h.lent, h.once, h.fits⟩
    obtain ⟨e₁, hclean, h₁, hget₁, hrec₁⟩ :=
      cleanTensors_spec (order ((e.recvRequestIdToTensorIds.get? requestId).getD [])) hpopped
    let e₂ : Engine :=
      { e₁ with sendRequestIdToTensorIds := e₁.sendRequestIdToTensorIds.erase requestId }
    have h₂ : e₂.Balanced := ⟨h₁.pool, h₁.charged, h₁.lent, h₁.once, h₁.fits⟩
    have hkeys : ∀ t ∈ e₂.recvStore.keys, t ∈ e.recvStore.keys ∧ requestOf t ≠ requestId := by
      intro t ht
      have hsome := (Dict.isSome_get? _ _).mpr ht
      rw [show e₂.recvStore.get? t = _ from hget₁ t] at hsome
      split at hsome
      · cases hsome
      · rename_i hnot
        have hmem : t ∈ e.recvStore.keys := (Dict.isSome_get? _ _).mp hsome
        refine ⟨hmem, fun hreq => hnot ((horder _).mem_iff.mpr ?_)⟩
        rw [← hreq]
        exact hrec t hmem
    have hrec₂ : e₂.Recorded := by
      intro t ht
      have hsame : e₂.recvRequestIdToTensorIds = e.recvRequestIdToTensorIds.erase requestId := hrec₁
      rw [hsame, Dict.get?_erase, if_neg (hkeys t ht).2.symm]
      exact hrec t (hkeys t ht).1
    obtain ⟨e', hrest, h', hrec', hkeys'⟩ := ih h₂ hrec₂
    refine ⟨e', ?_, h', hrec', fun t ht => ?_⟩
    · simp only [getFinished, hclean]
      exact hrest
    · obtain ⟨hmem, hnot⟩ := hkeys' t ht
      exact ⟨(hkeys t hmem).1, by simp [(hkeys t hmem).2, hnot]⟩

/-- Recording a tensor id adds it to those of its request. -/
theorem mem_recordTensorId (d : Dict Text (List Text)) (t : Text) :
    t ∈ ((recordTensorId tensorId d).get? (requestOf t)).getD [] ↔
      t = tensorId ∨ t ∈ (d.get? (requestOf t)).getD [] := by
  rw [recordTensorId, Dict.get?_set]
  by_cases hreq : requestOf tensorId = requestOf t
  · rw [if_pos hreq, hreq, Option.getD_some]
    split
    · rename_i hmem
      exact ⟨.inr, fun ht => ht.elim (fun heq => heq ▸ hmem) id⟩
    · simp [or_comm]
  · have hne : t ≠ tensorId := fun heq => hreq (heq ▸ rfl)
    simp [hreq, hne]

/-- A stored entry is recorded, and the others stay so. -/
theorem Recorded.storeReceived (h : e.Recorded) (tensorId : Text) (entry : Option Stored) :
    (e.storeReceived tensorId entry).Recorded := by
  intro t ht
  have ht : t = tensorId ∨ t ∈ e.recvStore.keys := (Dict.mem_keys_set _ _ _ _).mp ht
  exact (mem_recordTensorId _ t).mpr (ht.imp_right (h t))

/-- A PUT whose id is not in the store adds at most an entry under this id. -/
theorem putArrives_spec (h : e.Balanced) (hrec : e.Recorded)
    (hnew : tensorId ∉ e.recvStore.keys) (tensor : Tensor) (arrival : Arrival) :
    (e.putArrives tensorId tensor arrival).Balanced ∧
      (e.putArrives tensorId tensor arrival).Recorded ∧
      ∀ t ∈ (e.putArrives tensorId tensor arrival).recvStore.keys,
        t = tensorId ∨ t ∈ e.recvStore.keys := by
  have hkeys : ∀ {d : Engine} (entry : Option Stored), d.recvStore = e.recvStore →
      ∀ t ∈ (d.storeReceived tensorId entry).recvStore.keys,
        t = tensorId ∨ t ∈ e.recvStore.keys := fun entry hd t ht =>
    hd ▸ (Dict.mem_keys_set _ _ _ _).mp ht
  unfold putArrives
  split
  · exact ⟨h, hrec, fun _ ht => .inr ht⟩
  split
  · exact ⟨h.file hnew (by simp) rfl (by simp; rfl) rfl, hrec.storeReceived _ _, hkeys _ rfl⟩
  split
  · rcases TensorMemoryPool.storeTensor_spec h.pool tensor arrival.viewFails with
      ⟨err, pool, hstore, hwf, hget⟩ | ⟨addr, pool, b, hstore, hwf, hfits, haddr, halloc⟩
    · simp only [hstore]
      have hmem : ∀ a, a ∈ pool.allocatedBlocks.keys ↔ a ∈ e.pool.allocatedBlocks.keys :=
        fun a => by rw [← Dict.isSome_get?, ← Dict.isSome_get?, hget]
      refine ⟨⟨hwf, h.charged, fun a => (hmem a).trans (h.lent a), h.once, ?_⟩, hrec,
        fun _ ht => .inr ht⟩
      intro t a es shape ht
      obtain ⟨b, hb, hle⟩ := h.fits t a es shape ht
      exact ⟨b, (hget a).trans hb, hle⟩
    · simp only [hstore]
      exact ⟨h.filePooled hnew hwf hfits haddr halloc rfl rfl, Recorded.storeReceived hrec _ _,
        hkeys _ rfl⟩
  · exact ⟨h.file hnew (by simp) rfl rfl rfl, Recorded.storeReceived hrec _ _, hkeys _ rfl⟩

/-- Sending to another rank does not touch the store. -/
theorem sendSync_spec (e : Engine) (item : SendQueueItem) (accepted : Bool) :
    ∃ sent, (e.sendSync item accepted).2 = { e with sendRequestIdToTensorIds := sent } := by
  unfold sendSync
  split
  · exact ⟨_, rfl⟩
  split
  · split
    · exact ⟨_, rfl⟩
    · exact ⟨_, rfl⟩
  · exact ⟨_, rfl⟩

/-- Sending to another rank only changes the side of sending. -/
theorem sendTensor_spec (e : Engine) (tensorId : Text) (tensor : Tensor) (address : Text)
    (accepted : Bool) : ∃ queue sent,
    (e.sendTensor tensorId tensor (some address) accepted).2 =
      { e with sendQueue := queue, sendRequestIdToTensorIds := sent } := by
  simp only [sendTensor]
  split
  · obtain ⟨sent, hsent⟩ := e.sendSync_spec ⟨tensorId, some address, tensor⟩ accepted
    exact ⟨e.sendQueue, sent, hsent⟩
  · exact ⟨_, _, rfl⟩

/-- The sending thread only changes the side of sending. -/
theorem sendAsync_spec (e : Engine) (accepted : Bool) : ∃ queue sent,
    e.sendAsync accepted =
      { e with sendQueue := queue, sendRequestIdToTensorIds := sent } := by
  unfold sendAsync
  split
  · exact ⟨_, _, rfl⟩
  · rename_i item queue _
    obtain ⟨sent, hsent⟩ := sendSync_spec { e with sendQueue := queue } item accepted
    exact ⟨queue, sent, hsent⟩

end Engine

end RpsServe.P2p
