import RpsServe.P2p.TensorMemoryPool
import Mathlib.Data.Rat.Defs
import Mathlib.Logic.Relation

/-!
# The P2P NCCL engine

`P2pNcclEngine` of a worker in the modes that put: the store of received tensors, their record
by request, the size of the buffer and the pool that takes what the buffer cannot. The listener
thread files what arrives, the model runner takes it out, and the end of a request cleans up.

Texts are lists of characters. A Python set of tensor ids is a list without repetitions, and
whoever goes through it says in which order. An operation that raises leaves the engine as far
as it got.
-/

namespace RpsServe.P2p

/-- `str`. -/
abbrev Text := List Char

/-- The tensor id of a layer of a request, as the connector makes it. -/
def tensorIdOf (requestId layerName : Text) : Text := requestId ++ '#' :: layerName

/-- `tensor_id.split("#")[0]`. -/
def requestOf (tensorId : Text) : Text := tensorId.takeWhile (· ≠ '#')

/-- What the store of received tensors holds: a tensor on the device, or the address, element
size and shape of one in the pool. -/
inductive Stored where
  | onDevice (tensor : Tensor)
  | pooled (addr : ℤ) (elementSize : ℕ) (shape : List ℕ)
deriving DecidableEq

/-- The size the buffer is charged for. -/
def Stored.size : Stored → ℕ
  | onDevice tensor => tensor.size
  | pooled _ elementSize shape => shape.prod * elementSize

/-- `send_type`, of those that put. -/
inductive SendType where
  | put
  | putAsync
deriving DecidableEq

/-- `SendQueueItem`. -/
structure SendQueueItem where
  tensorId : Text
  remoteAddress : Option Text
  tensor : Tensor

/-- What `recv_tensor` can end with instead of a tensor. -/
inductive RecvError where
  /-- The tensor is not there yet: the thread waits. -/
  | waits
  | pool (e : PoolError)

/-- `P2pNcclEngine`. `listening` says that the listener thread is alive. -/
structure Engine where
  sendType : SendType
  pool : TensorMemoryPool
  bufferSizeThreshold : ℚ
  bufferSize : ℤ := 0
  sendQueue : List SendQueueItem := []
  recvStore : Dict Text (Option Stored) := .empty
  recvRequestIdToTensorIds : Dict Text (List Text) := .empty
  sendRequestIdToTensorIds : Dict Text (List Text) := .empty
  listening : Bool := true

/-- Add a tensor id to the set of its request. -/
def recordTensorId (tensorId : Text) (d : Dict Text (List Text)) : Dict Text (List Text) :=
  let ids := (d.get? (requestOf tensorId)).getD []
  d.set (requestOf tensorId) (if tensorId ∈ ids then ids else ids ++ [tensorId])

namespace Engine

/-- `have_sent_tensor_id`. -/
def haveSentTensorId (e : Engine) (tensorId : Text) : Engine :=
  { e with sendRequestIdToTensorIds := recordTensorId tensorId e.sendRequestIdToTensorIds }

/-- `have_received_tensor_id`. -/
def haveReceivedTensorId (e : Engine) (tensorId : Text) : Engine :=
  { e with recvRequestIdToTensorIds := recordTensorId tensorId e.recvRequestIdToTensorIds }

/-- `send_sync`; `accepted` is the answer of the peer. -/
def sendSync (e : Engine) (item : SendQueueItem) (accepted : Bool) : Bool × Engine :=
  match item.remoteAddress with
  | none => (false, e)
  | some _ =>
    if accepted then
      match e.sendType with
      | .put => (true, e)
      | .putAsync => (true, e.haveSentTensorId item.tensorId)
    else (false, e)

/-- `send_tensor`. Without a remote address the tensor goes into the own store. -/
def sendTensor (e : Engine) (tensorId : Text) (tensor : Tensor) (remoteAddress : Option Text)
    (accepted : Bool) : Bool × Engine :=
  match remoteAddress with
  | none => (true, { e with recvStore := e.recvStore.set tensorId (some (.onDevice tensor)) })
  | some address =>
    let item : SendQueueItem := ⟨tensorId, some address, tensor⟩
    match e.sendType with
    | .put => e.sendSync item accepted
    | .putAsync => (true, { e with sendQueue := e.sendQueue ++ [item] })

/-- A round of `send_async`. -/
def sendAsync (e : Engine) (accepted : Bool) : Engine :=
  match e.sendQueue with
  | [] => e
  | item :: queue => (sendSync { e with sendQueue := queue } item accepted).2

/-- What happens to a PUT on the way: the device has no room for the tensor, or the pool cannot
make a view. -/
structure Arrival where
  outOfMemory : Bool := false
  viewFails : Bool := false

/-- The last lines of the PUT branch: write the entry and record it. -/
def storeReceived (e : Engine) (tensorId : Text) (entry : Option Stored) : Engine :=
  haveReceivedTensorId { e with recvStore := e.recvStore.set tensorId entry } tensorId

/-- The PUT branch of `listen_for_requests`. An error of the pool is not caught and ends the
listener thread. -/
def putArrives (e : Engine) (tensorId : Text) (tensor : Tensor) (arrival : Arrival) : Engine :=
  if !e.listening then e
  else if arrival.outOfMemory then e.storeReceived tensorId none
  else if e.bufferSizeThreshold < ((e.bufferSize + tensor.size : ℤ) : ℚ) then
    match e.pool.storeTensor tensor arrival.viewFails with
    | (.error _, pool) => { e with pool := pool, listening := false }
    | (.ok addr, pool) =>
      storeReceived { e with pool := pool, bufferSize := e.bufferSize + tensor.size } tensorId
        (some (.pooled addr tensor.elementSize tensor.shape))
  else
    storeReceived { e with bufferSize := e.bufferSize + tensor.size } tensorId
      (some (.onDevice tensor))

/-- `recv_tensor`. -/
def recvTensor (e : Engine) (tensorId : Text) : Except RecvError (Option Tensor) × Engine :=
  match e.recvStore.get? tensorId with
  | none => (.error .waits, e)
  | some entry =>
    let e := { e with recvStore := e.recvStore.erase tensorId }
    match entry with
    | none => (.ok none, e)
    | some (.pooled addr elementSize shape) =>
      match e.pool.loadTensor addr elementSize shape with
      | .error err => (.error (.pool err), e)
      | .ok tensor =>
        match e.pool.free addr with
        | .error err => (.error (.pool err), e)
        | .ok pool =>
          (.ok (some tensor),
            { e with pool := pool, bufferSize := e.bufferSize - ↑(shape.prod * elementSize) })
    | some (.onDevice tensor) =>
      (.ok (some tensor), { e with bufferSize := e.bufferSize - tensor.size })

/-- Clean one tensor of a finished request up. -/
def cleanTensor (e : Engine) (tensorId : Text) : Except PoolError Unit × Engine :=
  match e.recvStore.get? tensorId with
  | none => (.ok (), e)
  | some entry =>
    let e := { e with recvStore := e.recvStore.erase tensorId }
    match entry with
    | none => (.ok (), e)
    | some (.pooled addr elementSize shape) =>
      match e.pool.free addr with
      | .error err => (.error err, e)
      | .ok pool =>
        (.ok (), { e with pool := pool, bufferSize := e.bufferSize - ↑(shape.prod * elementSize) })
    | some (.onDevice tensor) => (.ok (), { e with bufferSize := e.bufferSize - tensor.size })

/-- The inner loop of `get_finished`. -/
def cleanTensors : List Text → Engine → Except PoolError Unit × Engine
  | [], e => (.ok (), e)
  | tensorId :: rest, e =>
    match e.cleanTensor tensorId with
    | (.error err, e) => (.error err, e)
    | (.ok _, e) => cleanTensors rest e

/-- `get_finished`; `order` is the order in which a set of tensor ids is gone through. -/
def getFinished (order : List Text → List Text) : List Text → Engine → Except PoolError Unit × Engine
  | [], e => (.ok (), e)
  | requestId :: rest, e =>
    let tensorIdsToClean := (e.recvRequestIdToTensorIds.get? requestId).getD []
    let e := { e with recvRequestIdToTensorIds := e.recvRequestIdToTensorIds.erase requestId }
    match cleanTensors (order tensorIdsToClean) e with
    | (.error err, e) => (.error err, e)
    | (.ok _, e) =>
      getFinished order rest
        { e with sendRequestIdToTensorIds := e.sendRequestIdToTensorIds.erase requestId }

end Engine

/-! ## Runs of the engine -/

/-- What happens at an engine. -/
inductive EngineOp where
  /-- A PUT message of a layer of a request is handled. -/
  | put (requestId layerName : Text) (tensor : Tensor) (arrival : Engine.Arrival)
  | send (requestId layerName : Text) (tensor : Tensor) (remoteAddress : Option Text)
      (accepted : Bool)
  | sendAsync (accepted : Bool)
  | recv (requestId layerName : Text)
  | getFinished (finishedReqIds : List Text) (order : List Text → List Text)

/-- An engine with its history: the layers whose PUTs have arrived, and the requests that were
reported finished. -/
structure EngineRun where
  engine : Engine
  arrived : List (Text × Text) := []
  reported : List Text := []

/-- One operation. -/
def EngineRun.apply (s : EngineRun) : EngineOp → EngineRun
  | .put requestId layerName tensor arrival =>
    { s with
      engine := s.engine.putArrives (tensorIdOf requestId layerName) tensor arrival
      arrived := s.arrived ++ [(requestId, layerName)] }
  | .send requestId layerName tensor remoteAddress accepted =>
    { s with
      engine := (s.engine.sendTensor (tensorIdOf requestId layerName) tensor remoteAddress
        accepted).2 }
  | .sendAsync accepted => { s with engine := s.engine.sendAsync accepted }
  | .recv requestId layerName =>
    { s with engine := (s.engine.recvTensor (tensorIdOf requestId layerName)).2 }
  | .getFinished finishedReqIds order =>
    { s with
      engine := (Engine.getFinished order finishedReqIds s.engine).2
      reported := s.reported ++ finishedReqIds }

/-- The engine after `__init__`. -/
def EngineRun.start (sendType : SendType) (pool : TensorMemoryPool) (bufferSizeThreshold : ℚ) :
    EngineRun :=
  { engine := { sendType, pool, bufferSizeThreshold } }

/-- The runs whose operations are all of a kind. -/
abbrev EngineRun.Reaches (allowed : EngineRun → EngineOp → Prop) : EngineRun → EngineRun → Prop :=
  Relation.ReflTransGen fun s s' => ∃ op, allowed s op ∧ s' = s.apply op

/-- The run of a list of operations. -/
def EngineRun.run (s : EngineRun) (ops : List EngineOp) : EngineRun := ops.foldl apply s

/-- Every operation of the list is of the kind when its turn comes. -/
def EngineRun.Along (allowed : EngineRun → EngineOp → Prop) : List EngineOp → EngineRun → Prop
  | [], _ => True
  | op :: ops, s => allowed s op ∧ Along allowed ops (s.apply op)

/-- A list of operations that are allowed along the way reaches the state it ends in. -/
theorem EngineRun.reaches_of_along {allowed : EngineRun → EngineOp → Prop} {ops : List EngineOp}
    {s : EngineRun} (h : Along allowed ops s) : Reaches allowed s (s.run ops) := by
  induction ops generalizing s with
  | nil => exact .refl
  | cons op ops ih => exact .head ⟨op, h.1, rfl⟩ (ih h.2)

end RpsServe.P2p
