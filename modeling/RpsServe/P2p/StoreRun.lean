import RpsServe.P2p.RecvStore

/-!
# The store over a run of the engine

As long as no tensor comes around the books, they balance after every operation, and a request
that was reported finished has nothing left in the store.
-/

namespace RpsServe.P2p

/-- What the callers of the engine keep to: the PUTs are those of the producer, no tensor id is
put twice, and a set is gone through completely. -/
def Legal (puts : Set (Text × Text)) (s : EngineRun) : EngineOp → Prop
  | .put requestId layerName _ _ =>
    (requestId, layerName) ∈ puts ∧
      ∀ x ∈ s.arrived, tensorIdOf x.1 x.2 ≠ tensorIdOf requestId layerName
  | .getFinished _ order => ∀ ids, (order ids).Perm ids
  | .send _ _ _ _ _ | .sendAsync _ | .recv _ _ => True

/-- Nothing comes around the books: no tensor is sent to the own rank, and what is put is of a
request that is not reported finished yet and whose id has no `#`. -/
def ByTheBooks (s : EngineRun) : EngineOp → Prop
  | .put requestId _ _ _ => '#' ∉ requestId ∧ requestId ∉ s.reported
  | .send _ _ _ remoteAddress _ => remoteAddress ≠ none
  | .sendAsync _ | .recv _ _ | .getFinished _ _ => True

/-- The accounting of the store. A request is done with when it was reported finished and all its
PUTs have arrived. -/
structure Accounted (puts : Set (Text × Text)) (s : EngineRun) : Prop where
  bufferSize : s.engine.bufferSize = s.engine.recvStore.total entrySize
  nonneg : 0 ≤ s.engine.bufferSize
  pool : ∀ addr, addr ∈ s.engine.pool.allocatedBlocks.keys ↔
    ∃ tensorId, s.engine.RefersTo tensorId addr
  finished : ∀ requestId ∈ s.reported,
    (∀ layerName, (requestId, layerName) ∈ puts → (requestId, layerName) ∈ s.arrived) →
    ∀ layerName, (requestId, layerName) ∈ puts →
      tensorIdOf requestId layerName ∉ s.engine.recvStore.keys

/-- What a run by the books keeps. -/
structure Tracked (s : EngineRun) : Prop where
  balanced : s.engine.Balanced
  recorded : s.engine.Recorded
  arrived : ∀ t ∈ s.engine.recvStore.keys, ∃ x ∈ s.arrived, tensorIdOf x.1 x.2 = t
  plain : ∀ x ∈ s.arrived, '#' ∉ x.1
  cleaned : ∀ x ∈ s.arrived, x.1 ∈ s.reported →
    tensorIdOf x.1 x.2 ∉ s.engine.recvStore.keys

variable {puts : Set (Text × Text)} {s : EngineRun} {op : EngineOp}

/-- A request id without `#` is read back from its tensor ids. -/
theorem requestOf_tensorIdOf {requestId : Text} (h : '#' ∉ requestId) (layerName : Text) :
    requestOf (tensorIdOf requestId layerName) = requestId := by
  induction requestId with
  | nil => rfl
  | cons c rest ih =>
    rw [List.mem_cons, not_or] at h
    rw [tensorIdOf, List.cons_append, requestOf, List.takeWhile_cons_of_pos (by simpa using Ne.symm h.1)]
    exact congrArg (c :: ·) (ih h.2)

/-- An engine that only loses entries stays tracked. -/
theorem Tracked.shrink {e : Engine} (h : Tracked s) (hbal : e.Balanced) (hrec : e.Recorded)
    (hkeys : ∀ t ∈ e.recvStore.keys, t ∈ s.engine.recvStore.keys) :
    Tracked { s with engine := e } :=
  ⟨hbal, hrec, fun t ht => h.arrived t (hkeys t ht), h.plain,
    fun x hx hrep ht => h.cleaned x hx hrep (hkeys _ ht)⟩

/-- An engine that differs on the side of sending only stays tracked. -/
theorem Tracked.sent (h : Tracked s) (queue : List SendQueueItem)
    (sent : Dict Text (List Text)) :
    Tracked { s with engine := { s.engine with
      sendQueue := queue, sendRequestIdToTensorIds := sent } } :=
  h.shrink ⟨h.balanced.pool, h.balanced.charged, h.balanced.lent, h.balanced.once,
    h.balanced.fits⟩ h.recorded fun _ ht => ht

/-- A PUT by the books. -/
theorem Tracked.put {requestId layerName : Text} (h : Tracked s)
    (hnew : ∀ x ∈ s.arrived, tensorIdOf x.1 x.2 ≠ tensorIdOf requestId layerName)
    (hplain : '#' ∉ requestId) (hlive : requestId ∉ s.reported) (tensor : Tensor)
    (arrival : Engine.Arrival) :
    Tracked (s.apply (.put requestId layerName tensor arrival)) := by
  have hfresh : tensorIdOf requestId layerName ∉ s.engine.recvStore.keys := fun hmem => by
    obtain ⟨x, hx, heq⟩ := h.arrived _ hmem
    exact hnew x hx heq
  obtain ⟨hbal, hrec, hkeys⟩ :=
    Engine.putArrives_spec h.balanced h.recorded hfresh tensor arrival
  refine ⟨hbal, hrec, fun t ht => ?_, fun x hx => ?_, fun x hx hrep ht => ?_⟩
  · rcases hkeys t ht with rfl | ht
    · exact ⟨(requestId, layerName), List.mem_append_right _ (List.mem_singleton_self _), rfl⟩
    · obtain ⟨x, hx, heq⟩ := h.arrived t ht
      exact ⟨x, List.mem_append_left _ hx, heq⟩
  · rcases List.mem_append.mp hx with hx | hx
    · exact h.plain x hx
    · rw [List.mem_singleton.mp hx]
      exact hplain
  · rcases List.mem_append.mp hx with hx | hx
    · rcases hkeys _ ht with heq | ht
      · exact hnew x hx heq
      · exact h.cleaned x hx hrep ht
    · rw [List.mem_singleton.mp hx] at hrep
      exact hlive hrep

/-- A receive takes an entry or waits. -/
theorem Tracked.recv (h : Tracked s) (requestId layerName : Text) :
    Tracked (s.apply (.recv requestId layerName)) := by
  rcases Engine.recvTensor_spec h.balanced (tensorIdOf requestId layerName) with
    ⟨-, hsame⟩ | ⟨hwaits, -⟩
  · obtain ⟨e', hclean, hbal, hget, hrec⟩ :=
      Engine.cleanTensor_spec h.balanced (tensorIdOf requestId layerName)
    have hkeys : ∀ t ∈ e'.recvStore.keys, t ∈ s.engine.recvStore.keys := by
      intro t ht
      rw [← Dict.isSome_get?, hget] at ht
      split at ht
      · cases ht
      · exact (Dict.isSome_get? _ _).mp ht
    simp only [EngineRun.apply, hsame, hclean]
    refine h.shrink hbal (fun t ht => ?_) hkeys
    rw [hrec]
    exact h.recorded t (hkeys t ht)
  · simp only [EngineRun.apply, hwaits]
    exact h

/-- A cleanup leaves nothing of the requests it was told. -/
theorem Tracked.getFinished {order : List Text → List Text} (h : Tracked s)
    (horder : ∀ ids, (order ids).Perm ids) (finishedReqIds : List Text) :
    Tracked (s.apply (.getFinished finishedReqIds order)) := by
  obtain ⟨e', hfin, hbal, hrec, hkeys⟩ :=
    Engine.getFinished_spec horder finishedReqIds h.balanced h.recorded
  simp only [EngineRun.apply, hfin]
  refine ⟨hbal, hrec, fun t ht => h.arrived t (hkeys t ht).1, h.plain, fun x hx hrep ht => ?_⟩
  rcases List.mem_append.mp hrep with hrep | hrep
  · exact h.cleaned x hx hrep (hkeys _ ht).1
  · refine (hkeys _ ht).2 ?_
    rw [requestOf_tensorIdOf (h.plain x hx)]
    exact hrep

/-- Every operation by the books keeps the tracking. -/
theorem Tracked.apply (h : Tracked s) (hlegal : Legal puts s op) (hbooks : ByTheBooks s op) :
    Tracked (s.apply op) := by
  cases op with
  | put requestId layerName tensor arrival =>
    exact h.put hlegal.2 hbooks.1 hbooks.2 tensor arrival
  | send requestId layerName tensor remoteAddress accepted =>
    cases remoteAddress with
    | none => exact absurd rfl hbooks
    | some address =>
      obtain ⟨queue, sent, hsent⟩ := s.engine.sendTensor_spec
        (tensorIdOf requestId layerName) tensor address accepted
      simp only [EngineRun.apply, hsent]
      exact h.sent queue sent
  | sendAsync accepted =>
    obtain ⟨queue, sent, hsent⟩ := s.engine.sendAsync_spec accepted
    simp only [EngineRun.apply, hsent]
    exact h.sent queue sent
  | recv requestId layerName => exact h.recv requestId layerName
  | getFinished finishedReqIds order => exact h.getFinished hlegal finishedReqIds

/-- An engine that was just made. -/
theorem tracked_start {maxBlockSize minBlockSize : ℕ} {baseAddress : ℤ} {pool : TensorMemoryPool}
    (hpool : TensorMemoryPool.new maxBlockSize minBlockSize baseAddress = .ok pool)
    (sendType : SendType) (bufferSizeThreshold : ℚ) :
    Tracked (EngineRun.start sendType pool bufferSizeThreshold) := by
  obtain ⟨hwf, hempty⟩ := TensorMemoryPool.new_spec hpool
  refine ⟨⟨hwf, rfl, fun addr => ?_, ?_, ?_⟩, ?_, ?_, ?_, ?_⟩
  · simp [EngineRun.start, hempty, Engine.RefersTo]
  · rintro addr t t' ⟨es, shape, ht⟩
    simp [EngineRun.start] at ht
  · intro t addr es shape ht
    simp [EngineRun.start] at ht
  all_goals simp [EngineRun.start, Engine.Recorded]

/-- A tracked run is accounted for. -/
theorem Tracked.accounted (h : Tracked s) : Accounted puts s := by
  refine ⟨h.balanced.charged, ?_, h.balanced.lent, fun r hr hall layerName hput => ?_⟩
  · rw [h.balanced.charged]
    exact Int.natCast_nonneg _
  · exact h.cleaned (r, layerName) (hall layerName hput) hr

/-- In every run by the books, the store is accounted for after every operation. -/
theorem accounted_of_byTheBooks {maxBlockSize minBlockSize : ℕ} {baseAddress : ℤ}
    {pool : TensorMemoryPool}
    (hpool : TensorMemoryPool.new maxBlockSize minBlockSize baseAddress = .ok pool)
    (sendType : SendType) (bufferSizeThreshold : ℚ) (puts : Set (Text × Text)) {s : EngineRun}
    (hrun : EngineRun.Reaches (fun s op => Legal puts s op ∧ ByTheBooks s op)
      (EngineRun.start sendType pool bufferSizeThreshold) s) : Accounted puts s := by
  suffices h : Tracked s from h.accounted
  induction hrun with
  | refl => exact tracked_start hpool sendType bufferSizeThreshold
  | tail _ hstep ih =>
    obtain ⟨op, ⟨hlegal, hbooks⟩, rfl⟩ := hstep
    exact ih.apply hlegal hbooks

/-! ## What comes around the books -/

/-- A tensor of four bytes. -/
def fourBytes : Tensor := ⟨4, [1]⟩

/-- A tensor is sent to the own rank. -/
def sentToSelf : List EngineOp := [.send ['r'] ['l'] fourBytes none true]

/-- A request is aborted before its last PUT arrives. -/
def putAfterFinish : List EngineOp :=
  [.getFinished [['r']] id, .put ['r'] ['l'] fourBytes {}]

/-- A request whose id has a `#` is aborted before it receives. -/
def hashInId : List EngineOp :=
  [.put ['r', '#', '1'] ['l'] fourBytes {}, .getFinished [['r', '#', '1']] id]

/-- Each of the three leaves the store out of account. -/
theorem not_accounted : ∃ pool, TensorMemoryPool.new 1024 512 0 = .ok pool ∧
    ∀ case ∈ [(sentToSelf, []), (putAfterFinish, [(['r'], ['l'])]),
        (hashInId, [(['r', '#', '1'], ['l'])])],
      EngineRun.Reaches (Legal {x | x ∈ case.2}) (.start .putAsync pool 100)
          (EngineRun.run (.start .putAsync pool 100) case.1) ∧
        ¬ Accounted {x | x ∈ case.2} (EngineRun.run (.start .putAsync pool 100) case.1) := by
  refine ⟨_, rfl, ?_⟩
  simp only [List.mem_cons, List.not_mem_nil, or_false, forall_eq_or_imp, forall_eq]
  refine ⟨⟨EngineRun.reaches_of_along ⟨trivial, trivial⟩, fun h => ?_⟩,
    ⟨EngineRun.reaches_of_along ⟨fun _ => .refl _, ⟨rfl, by decide⟩, trivial⟩, fun h => ?_⟩,
    ⟨EngineRun.reaches_of_along ⟨⟨rfl, by decide⟩, fun _ => .refl _, trivial⟩, fun h => ?_⟩⟩
  · exact absurd h.bufferSize (by decide)
  · exact h.finished ['r'] (by decide) (fun _ hput => by cases hput; decide) ['l'] rfl (by decide)
  · exact h.finished ['r', '#', '1'] (by decide) (fun _ hput => by cases hput; decide) ['l'] rfl
      (by decide)

/-- A tensor of more bytes than the threshold leaves on the device. -/
def spilling : Tensor := ⟨4, [30]⟩

/-- A tensor that arrives in time and is received, one that spills into the pool and is cleaned up,
and one that spills and stays. -/
def inTime : List EngineOp :=
  [.put ['r'] ['l'] fourBytes {}, .recv ['r'] ['l'], .put ['r'] ['m'] spilling {},
    .getFinished [['r']] id, .put ['s'] ['l'] spilling {}]

/-- The run is accounted for, with the one block of the pool that is still in use. -/
theorem accounted_inTime : ∃ pool, TensorMemoryPool.new 1024 512 0 = .ok pool ∧
    Accounted {(['r'], ['l']), (['r'], ['m']), (['s'], ['l'])}
        (EngineRun.run (.start .putAsync pool 100) inTime) ∧
      (EngineRun.run (.start .putAsync pool 100) inTime).engine.bufferSize = 120 ∧
        (EngineRun.run (.start .putAsync pool 100) inTime).engine.pool.allocatedBlocks.keys = [0] := by
  obtain ⟨pool, hpool, hsize, hblocks⟩ : ∃ pool, TensorMemoryPool.new 1024 512 0 = .ok pool ∧
      (EngineRun.run (.start .putAsync pool 100) inTime).engine.bufferSize = 120 ∧
        (EngineRun.run (.start .putAsync pool 100) inTime).engine.pool.allocatedBlocks.keys = [0] :=
    ⟨_, rfl, by decide +kernel, by decide +kernel⟩
  refine ⟨pool, hpool, accounted_of_byTheBooks hpool .putAsync 100 _ ?_, hsize, hblocks⟩
  refine EngineRun.reaches_of_along ⟨⟨⟨.inl rfl, ?_⟩, ?_⟩, ⟨trivial, trivial⟩,
    ⟨⟨.inr (.inl rfl), ?_⟩, ?_⟩, ⟨fun _ => .refl _, trivial⟩,
    ⟨⟨.inr (.inr rfl), ?_⟩, ?_⟩, trivial⟩
  all_goals simp [EngineRun.start, EngineRun.apply, tensorIdOf, ByTheBooks]

end RpsServe.P2p
