import RpsServe.Lib.Census
import Mathlib.Order.WithBot
import Mathlib.Algebra.Order.Ring.Rat

/-!
# The state of a worker group

`WorkerGroupState` of the load generator: the ids of the requests that are queued, pending
and processing, with the counters that are published with every update. Float times are
rationals; where the source compares with an infinity, the infinity is added.
-/

namespace RpsServe.LoadGenerator

/-- The id of a request. -/
abbrev RequestId := String

/-- The statuses a worker reports. -/
inductive RequestStatus where
  | queued | pending | inProgress | firstToken | completed | errored | cancelled
deriving DecidableEq

/-- Whether the status ends the request. -/
def RequestStatus.final : RequestStatus → Bool
  | .completed | .errored | .cancelled => true
  | .queued | .pending | .inProgress | .firstToken => false

/-- The times of `RequestTimings` that the group state reads or writes. -/
structure RequestTimings where
  requestStart : Option ℚ := none
  requestEnd : Option ℚ := none
  finalized : Option ℚ := none
deriving DecidableEq

/-- `RequestInfo`. -/
structure RequestInfo where
  requestId : RequestId
  status : RequestStatus := .queued
  timings : RequestTimings := {}
deriving DecidableEq

/-- What a constraint says about the queueing of further requests. -/
inductive RequestQueuing where
  | goOn | stop
deriving DecidableEq

/-- What a constraint says about the requests in process. -/
inductive RequestProcessing where
  | goOn | stopLocal | stopAll
deriving DecidableEq

/-- `SchedulerUpdateAction`. -/
structure SchedulerUpdateAction where
  requestQueuing : RequestQueuing := .goOn
  requestProcessing : RequestProcessing := .goOn
deriving DecidableEq

/-- `SchedulerState`: the counters and the times. -/
structure SchedulerState where
  endTime : Option ℚ := none
  startRequestsTime : Option (WithTop ℚ) := none
  endRequestsTime : Option ℚ := none
  endQueuingTime : Option ℚ := none
  endQueuingConstraints : List (String × SchedulerUpdateAction) := []
  endProcessingTime : Option ℚ := none
  endProcessingConstraints : List (String × SchedulerUpdateAction) := []
  schedulerConstraints : List (String × SchedulerUpdateAction) := []
  createdRequests : ℕ := 0
  queuedRequests : ℕ := 0
  pendingRequests : ℕ := 0
  processingRequests : ℕ := 0
  processedRequests : ℕ := 0
  successfulRequests : ℕ := 0
  erroredRequests : ℕ := 0
  cancelledRequests : ℕ := 0

/-- `WorkerGroupState`. -/
structure WorkerGroupState where
  state : SchedulerState := {}
  queuedRequestIds : Finset RequestId := ∅
  pendingRequestIds : Finset RequestId := ∅
  processingRequestIds : Finset RequestId := ∅

/-- What an update reads from outside: the clock at each place that asks for the time, and
what the constraints answer to the counted state. -/
structure UpdateEnv where
  endTime : ℚ
  finalized : ℚ
  queuingStop : ℚ
  processingStop : ℚ
  actions : SchedulerState → RequestInfo → List (String × SchedulerUpdateAction)

/-- `t or inf`: the time 0 counts as absent. -/
def orInf : Option (WithTop ℚ) → WithTop ℚ
  | none => ⊤
  | some t => if t = (0 : ℚ) then ⊤ else t

/-- `max(t or -inf, u)`. -/
def maxOr (t : Option ℚ) (u : ℚ) : ℚ :=
  match t with
  | none => u
  | some t => if t = 0 then u else max t u

namespace WorkerGroupState

/-- Write the queued ids and their number. -/
def setQueued (g : WorkerGroupState) (ids : Finset RequestId) : WorkerGroupState :=
  { g with queuedRequestIds := ids, state := { g.state with queuedRequests := ids.card } }

/-- Write the pending ids and their number. -/
def setPending (g : WorkerGroupState) (ids : Finset RequestId) : WorkerGroupState :=
  { g with pendingRequestIds := ids, state := { g.state with pendingRequests := ids.card } }

/-- Write the processing ids and their number. -/
def setProcessing (g : WorkerGroupState) (ids : Finset RequestId) : WorkerGroupState :=
  { g with processingRequestIds := ids, state := { g.state with processingRequests := ids.card } }

/-- A request that stops early leaves the first set that holds it. -/
def dropRequest (g : WorkerGroupState) (r : RequestId) : WorkerGroupState :=
  if r ∈ g.queuedRequestIds then g.setQueued (g.queuedRequestIds.erase r)
  else if r ∈ g.pendingRequestIds then g.setPending (g.pendingRequestIds.erase r)
  else if r ∈ g.processingRequestIds then g.setProcessing (g.processingRequestIds.erase r)
  else g

/-- The branches of `_update_state_request_counts` on the status: a pending update discards the id
from the pending ones, and adds it to none. -/
def countStatus (g : WorkerGroupState) (r : RequestId) : RequestStatus → WorkerGroupState
  | .queued =>
    let g := g.setQueued (insert r g.queuedRequestIds)
    { g with state := { g.state with createdRequests := g.state.createdRequests + 1 } }
  | .pending =>
    let g := g.setQueued (g.queuedRequestIds.erase r)
    g.setPending (g.pendingRequestIds.erase r)
  | .inProgress =>
    let g := g.setPending (g.pendingRequestIds.erase r)
    g.setProcessing (insert r g.processingRequestIds)
  | .firstToken => g
  | .completed =>
    let g := g.setProcessing (g.processingRequestIds.erase r)
    { g with state := { g.state with
        processedRequests := g.state.processedRequests + 1
        successfulRequests := g.state.successfulRequests + 1 } }
  | .errored =>
    let g := g.dropRequest r
    { g with state := { g.state with
        processedRequests := g.state.processedRequests + 1
        erroredRequests := g.state.erroredRequests + 1 } }
  | .cancelled =>
    let g := g.dropRequest r
    { g with state := { g.state with
        processedRequests := g.state.processedRequests + 1
        cancelledRequests := g.state.cancelledRequests + 1 } }

/-- `_update_state_request_counts`: the update with its finalization time, and the state, whose
times are the earliest start and the latest end over all updates. -/
def updateStateRequestCounts (finalized : ℚ) (info : RequestInfo) (g : WorkerGroupState) :
    RequestInfo × WorkerGroupState :=
  let g := g.countStatus info.requestId info.status
  let info := if info.status.final then
      { info with timings := { info.timings with finalized := some finalized } }
    else info
  (info, { g with state := { g.state with
    startRequestsTime := some (min (orInf (info.timings.requestStart.map fun t => (t : WithTop ℚ)))
      (orInf g.state.startRequestsTime))
    endRequestsTime := some (maxOr info.timings.requestEnd
      (maxOr g.state.endRequestsTime finalized)) } })

/-- `_update_with_constraints`: a constraint may end the queueing or the processing, once. -/
def updateWithConstraints (env : UpdateEnv) (info : RequestInfo) (g : WorkerGroupState) :
    WorkerGroupState :=
  let s := g.state
  let actions := env.actions s info
  let stopQueuing := actions.filter fun a =>
    s.endQueuingTime.isNone && a.2.requestQueuing = .stop
  let stopProcessing := actions.filter fun a =>
    s.endProcessingTime.isNone && a.2.requestProcessing ≠ .goOn
  { g with state := { s with
    schedulerConstraints := actions
    endQueuingConstraints := if stopQueuing = [] then s.endQueuingConstraints else stopQueuing
    endQueuingTime := if stopQueuing = [] then s.endQueuingTime else some env.queuingStop
    endProcessingConstraints :=
      if stopProcessing = [] then s.endProcessingConstraints else stopProcessing
    endProcessingTime := if stopProcessing = [] then s.endProcessingTime else some env.processingStop } }

/-- `_locked_update` for a request; the second part says whether the queueing and whether the
processing has to stop. -/
def lockedUpdate (env : UpdateEnv) (info : RequestInfo) (g : WorkerGroupState) :
    WorkerGroupState × Bool × Bool :=
  let g := { g with state := { g.state with endTime := some env.endTime } }
  let (info, g) := updateStateRequestCounts env.finalized info g
  let g := updateWithConstraints env info g
  (g, g.state.endQueuingTime.isSome, g.state.endProcessingTime.isSome)

/-- The state after the updates, in the order in which they arrived. -/
def run : List (UpdateEnv × RequestInfo) → WorkerGroupState → WorkerGroupState
  | [], g => g
  | (env, info) :: us, g => run us (lockedUpdate env info g).1

end WorkerGroupState

end RpsServe.LoadGenerator
