import RpsServe.LoadGenerator.Accounting

/-!
# The end of generation

Three parties share a worker group: the generator creates the requests in the thread that
sends them, the workers take whole conversations from the queue, and the callback counts
their updates in the thread that receives them. The callback sets the event that ends the
receiving of the workers when the generator has returned and it has counted no queued id.
Ids stand for requests there, and the count is older than the test, so the event comes too
early when an id leaves the set while another request with it is still to be taken, or when
a request is created between the count and the test.
-/

namespace RpsServe.LoadGenerator

/-- The turns of a conversation in their order. -/
abbrev Conversation := List RequestInfo

/-- Where `requests_generator` stands: between two chains, in `_turn_iter` with the rest of its
chain, with a conversation that the sending thread has not put into the queue, or at its end. -/
inductive Generator where
  | ready
  | turns (requestsChain : List RequestId) (conversation : Conversation)
  | yielded (conversation : Conversation)
  | returned
deriving DecidableEq

/-- The created requests that the generator still holds. -/
def Generator.conversation : Generator → Conversation
  | .ready | .returned => []
  | .turns _ conversation | .yielded conversation => conversation

/-- The ids of the chain that the generator has not come to. -/
def Generator.requestsChain : Generator → List RequestId
  | .turns requestsChain _ => requestsChain
  | .ready | .yielded _ | .returned => []

/-- A worker group with its queues and events. The requests that were taken from the queue are
all kept, with the status that their worker reported last. -/
structure System where
  requests : List (List RequestId)
  generator : Generator := .ready
  stopQueueing : Bool := false
  group : WorkerGroupState := {}
  stopSendRequestsEvent : Bool := false
  requestsGeneratedEvent : Bool := false
  constraintReachedEvent : Bool := false
  shutdownEvent : Bool := false
  pendingQueue : List Conversation := []
  taken : List RequestInfo := []
  doneQueue : List RequestInfo := []
  stateUpdate : Option (SchedulerState × Bool) := none

/-- The steps that the threads and the processes interleave. -/
inductive Action where
  | nextChain
  | createRequest (env : UpdateEnv)
  | yieldConversation
  | putConversation
  | getConversation
  | sendUpdate (i : ℕ) (status : RequestStatus) (timings : RequestTimings)
  | countUpdate (env : UpdateEnv)
  | setEvents

/-- Whether an update with the status takes its id out of the queued ids. -/
def RequestStatus.leavesQueue : RequestStatus → Bool
  | .pending | .errored | .cancelled => true
  | .queued | .inProgress | .firstToken | .completed => false

namespace System

/-- The created requests that no worker has taken from the queue. -/
def untaken (s : System) : List RequestInfo :=
  s.generator.conversation ++ s.pendingQueue.flatten

/-- The ids of the requests, to be created, untaken and taken. -/
def requestIds (s : System) : List RequestId :=
  s.requests.flatten ++ s.generator.requestsChain ++ s.untaken.map (·.requestId) ++
    s.taken.map (·.requestId)

/-- The end of `requests_generator`. -/
def finishGeneration (s : System) : System :=
  { s with generator := .returned, stopSendRequestsEvent := true }

/-- The loop of `requests_generator` at its head: the constraint that is added when the requests run
out reaches the state with the next update. -/
def nextChain (s : System) : Option System :=
  match s.generator with
  | .ready =>
    if s.stopQueueing then some s.finishGeneration
    else
      match s.requests with
      | [] => some s.finishGeneration
      | requestsChain :: requests =>
        some { s with requests := requests, generator := .turns requestsChain [] }
  | .turns .. | .yielded _ | .returned => none

/-- One round of `_turn_iter`. -/
def createRequest (env : UpdateEnv) (s : System) : Option System :=
  match s.generator with
  | .turns (requestId :: requestsChain) conversation =>
    let requestInfo : RequestInfo := { requestId := requestId, status := .queued }
    let (group, stopQueueing, _) := s.group.lockedUpdate env requestInfo
    some { s with
      group := group
      stopQueueing := s.stopQueueing || stopQueueing
      generator := .turns (if stopQueueing then [] else requestsChain)
        (conversation ++ [requestInfo]) }
  | .turns [] _ | .ready | .yielded _ | .returned => none

/-- The generator hands over the conversation of the chain. -/
def yieldConversation (s : System) : Option System :=
  match s.generator with
  | .turns [] conversation => some { s with generator := .yielded conversation }
  | .turns (_ :: _) _ | .ready | .yielded _ | .returned => none

/-- `_send_messages_task_thread` of the group: the conversation enters the queue. -/
def putConversation (s : System) : Option System :=
  match s.generator with
  | .yielded conversation =>
    some { s with generator := .ready, pendingQueue := s.pendingQueue ++ [conversation] }
  | .turns .. | .ready | .returned => none

/-- `_receive_messages_task_thread` of a worker. -/
def getConversation (s : System) : Option System :=
  match s.pendingQueue with
  | [] => none
  | conversation :: pendingQueue =>
    some { s with pendingQueue := pendingQueue, taken := s.taken ++ conversation }

/-- `_send_update`: the worker reports the next status of one of its requests, once. -/
def sendUpdate (i : ℕ) (status : RequestStatus) (timings : RequestTimings) (s : System) :
    Option System :=
  match s.taken[i]? with
  | none => none
  | some requestInfo =>
    if status ≠ requestInfo.status ∧ Follows (some requestInfo.status) status then
      let requestInfo := { requestInfo with status := status, timings := timings }
      some { s with
        taken := s.taken.set i requestInfo
        doneQueue := s.doneQueue ++ [requestInfo] }
    else none

/-- The first half of `received_callback`: the update is counted under the lock, and the
callback goes on with a copy of the state. -/
def countUpdate (env : UpdateEnv) (s : System) : Option System :=
  match s.stateUpdate, s.doneQueue with
  | none, requestInfo :: doneQueue =>
    let (group, _, stopProcessing) := s.group.lockedUpdate env requestInfo
    some { s with
      group := group
      doneQueue := doneQueue
      stateUpdate := some (group.state, stopProcessing) }
  | none, [] | some _, _ => none

/-- The second half of `received_callback`: the tests on the copy and on the events. -/
def setEvents (s : System) : Option System :=
  match s.stateUpdate with
  | none => none
  | some (state, stopProcessing) =>
    let generated := s.requestsGeneratedEvent ||
      (state.queuedRequests = 0 && s.stopSendRequestsEvent)
    let reached := s.constraintReachedEvent || stopProcessing
    some { s with
      stateUpdate := none
      requestsGeneratedEvent := generated
      constraintReachedEvent := reached
      shutdownEvent := s.shutdownEvent || (state.processedRequests = state.createdRequests &&
        s.stopSendRequestsEvent && generated && reached) }

/-- What an action does; `none` where it cannot be taken. -/
def step : Action → System → Option System
  | .nextChain => nextChain
  | .createRequest env => createRequest env
  | .yieldConversation => yieldConversation
  | .putConversation => putConversation
  | .getConversation => getConversation
  | .sendUpdate i status timings => sendUpdate i status timings
  | .countUpdate env => countUpdate env
  | .setEvents => setEvents

/-- The actions in their order. -/
def run : List Action → System → Option System
  | [], s => some s
  | a :: as, s => (step a s).bind (run as)

/-- The event is set in time: every created request was taken from the queue by a worker. -/
def GeneratedInTime (s : System) : Prop :=
  s.requestsGeneratedEvent = true →
    s.untaken = [] ∧ s.taken.length = s.group.state.createdRequests

/-- The action does not make the count of queued ids mistake the requests: no id leaves the
queued ones while an untaken request has it, and a count of zero is tested before another
request is queued. -/
def CountsRight : Action → System → Prop
  | .countUpdate _, s => ∀ requestInfo ∈ s.doneQueue.head?, requestInfo.status.leavesQueue = true →
      ∀ other ∈ s.untaken, other.requestId ≠ requestInfo.requestId
  | .setEvents, s => ∀ update ∈ s.stateUpdate, s.stopSendRequestsEvent = true →
      update.1.queuedRequests = 0 → s.group.state.queuedRequests = 0
  | .nextChain, _ | .createRequest _, _ | .yieldConversation, _ | .putConversation, _ => True
  | .getConversation, _ | .sendUpdate .., _ => True

instance (s : System) : ∀ a : Action, Decidable (CountsRight a s)
  | .countUpdate _ => inferInstanceAs (Decidable (∀ requestInfo ∈ s.doneQueue.head?,
      requestInfo.status.leavesQueue = true → ∀ other ∈ s.untaken,
        other.requestId ≠ requestInfo.requestId))
  | .setEvents => inferInstanceAs (Decidable (∀ update ∈ s.stateUpdate,
      s.stopSendRequestsEvent = true → update.1.queuedRequests = 0 →
        s.group.state.queuedRequests = 0))
  | .nextChain | .createRequest _ | .yieldConversation | .putConversation => isTrue trivial
  | .getConversation | .sendUpdate .. => isTrue trivial

/-- Every action of the run counts right. -/
def RunCountsRight : List Action → System → Prop
  | [], _ => True
  | a :: as, s => CountsRight a s ∧ ∀ s' ∈ step a s, RunCountsRight as s'

instance instDecidableRunCountsRight : ∀ (as : List Action) (s : System),
    Decidable (RunCountsRight as s)
  | [], _ => isTrue trivial
  | _ :: as, _ =>
    have := instDecidableRunCountsRight as
    inferInstanceAs (Decidable (_ ∧ _))

end System

/-! ### What an update does to the queued ids -/

variable {g : WorkerGroupState} {env : UpdateEnv} {requestInfo : RequestInfo}

/-- The number of queued requests that is published is the number of queued ids. -/
def QueuedCounted (g : WorkerGroupState) : Prop :=
  g.state.queuedRequests = g.queuedRequestIds.card

/-- The queued ids after an update, whatever the state before it. -/
theorem lockedUpdate_queuedRequestIds : (g.lockedUpdate env requestInfo).1.queuedRequestIds =
    if requestInfo.status = .queued then insert requestInfo.requestId g.queuedRequestIds
    else if requestInfo.status.leavesQueue then g.queuedRequestIds.erase requestInfo.requestId
    else g.queuedRequestIds := by
  have hdrop : ∀ h : WorkerGroupState, (h.dropRequest requestInfo.requestId).queuedRequestIds =
      h.queuedRequestIds.erase requestInfo.requestId := by
    intro h
    unfold WorkerGroupState.dropRequest
    split
    · rfl
    · rename_i hq
      rw [Finset.erase_eq_of_notMem hq]
      split_ifs <;> rfl
  rcases requestInfo with ⟨requestId, status, timings⟩
  cases status with
  | queued | pending | inProgress | firstToken | completed => rfl
  | errored | cancelled => exact hdrop _

/-- Every update publishes the number of queued ids. -/
theorem lockedUpdate_queuedCounted (h : QueuedCounted g) :
    QueuedCounted (g.lockedUpdate env requestInfo).1 := by
  have hdrop : ∀ h : WorkerGroupState, QueuedCounted h →
      QueuedCounted (h.dropRequest requestInfo.requestId) := by
    intro h hcounted
    unfold WorkerGroupState.dropRequest
    split_ifs
    · rfl
    · exact hcounted
    · exact hcounted
    · exact hcounted
  rcases requestInfo with ⟨requestId, status, timings⟩
  cases status with
  | queued | pending => rfl
  | inProgress | firstToken | completed => exact h
  | errored | cancelled => exact hdrop { g with state := { g.state with endTime := _ } } h

/-- A request is created by its queued update alone. -/
theorem lockedUpdate_createdRequests :
    (g.lockedUpdate env requestInfo).1.state.createdRequests =
      g.state.createdRequests + if requestInfo.status = .queued then 1 else 0 := by
  have hdrop : ∀ h : WorkerGroupState, (h.dropRequest requestInfo.requestId).state.createdRequests =
      h.state.createdRequests := by
    intro h
    unfold WorkerGroupState.dropRequest
    split_ifs <;> rfl
  rcases requestInfo with ⟨requestId, status, timings⟩
  cases status with
  | queued | pending | inProgress | firstToken | completed => rfl
  | errored | cancelled => exact hdrop _

/-! ### What each action does -/

variable {s s' : System} {a : Action}

/-- The generator goes on to the next chain, or returns. -/
theorem nextChain_cases (hs : s.nextChain = some s') : s.generator = .ready ∧
    (s' = s.finishGeneration ∨ ∃ requestsChain requests, s.requests = requestsChain :: requests ∧
      s' = { s with requests := requests, generator := .turns requestsChain [] }) := by
  unfold System.nextChain at hs
  split at hs
  · rename_i hready
    refine ⟨hready, ?_⟩
    split at hs
    · exact .inl (Option.some.inj hs).symm
    · split at hs
      · exact .inl (Option.some.inj hs).symm
      · rename_i requestsChain requests hrequests
        exact .inr ⟨_, _, hrequests, (Option.some.inj hs).symm⟩
  all_goals cases hs

/-- A round of `_turn_iter` queues a request and adds it to the conversation; the rest of the
chain is dropped when the queueing has to stop. -/
theorem createRequest_cases (hs : s.createRequest env = some s') :
    ∃ requestId requestsChain conversation rest stopQueueing,
      s.generator = .turns (requestId :: requestsChain) conversation ∧
        (rest = requestsChain ∨ rest = []) ∧
        s' = { s with
          group := (s.group.lockedUpdate env { requestId := requestId }).1
          stopQueueing := stopQueueing
          generator := .turns rest (conversation ++ [{ requestId := requestId }]) } := by
  unfold System.createRequest at hs
  split at hs
  · rename_i requestId requestsChain conversation hturns
    have hrest : ∀ stop : Bool, (if stop then [] else requestsChain) = requestsChain ∨
        (if stop then [] else requestsChain) = [] := by
      intro stop
      cases stop
      · exact .inl rfl
      · exact .inr rfl
    exact ⟨_, _, _, _, _, hturns, hrest _, (Option.some.inj hs).symm⟩
  all_goals cases hs

/-- The conversation is handed over at the end of its chain. -/
theorem yieldConversation_cases (hs : s.yieldConversation = some s') :
    ∃ conversation, s.generator = .turns [] conversation ∧
      s' = { s with generator := .yielded conversation } := by
  unfold System.yieldConversation at hs
  split at hs
  · rename_i conversation hturns
    exact ⟨_, hturns, (Option.some.inj hs).symm⟩
  all_goals cases hs

/-- The conversation enters the queue at its end. -/
theorem putConversation_cases (hs : s.putConversation = some s') :
    ∃ conversation, s.generator = .yielded conversation ∧
      s' = { s with generator := .ready, pendingQueue := s.pendingQueue ++ [conversation] } := by
  unfold System.putConversation at hs
  split at hs
  · rename_i conversation hyielded
    exact ⟨_, hyielded, (Option.some.inj hs).symm⟩
  all_goals cases hs

/-- A worker takes the first conversation of the queue. -/
theorem getConversation_cases (hs : s.getConversation = some s') :
    ∃ conversation pendingQueue, s.pendingQueue = conversation :: pendingQueue ∧
      s' = { s with pendingQueue := pendingQueue, taken := s.taken ++ conversation } := by
  unfold System.getConversation at hs
  split at hs
  · cases hs
  · rename_i conversation pendingQueue hqueue
    exact ⟨_, _, hqueue, (Option.some.inj hs).symm⟩

/-- A worker reports a request that it has taken, and never as queued. -/
theorem sendUpdate_cases {i : ℕ} {status : RequestStatus} {timings : RequestTimings}
    (hs : s.sendUpdate i status timings = some s') :
    ∃ requestInfo, s.taken[i]? = some requestInfo ∧ status ≠ .queued ∧
      s' = { s with
        taken := s.taken.set i { requestInfo with status := status, timings := timings }
        doneQueue := s.doneQueue ++
          [{ requestInfo with status := status, timings := timings }] } := by
  unfold System.sendUpdate at hs
  split at hs
  · cases hs
  · rename_i requestInfo hget
    split_ifs at hs with hsend
    refine ⟨requestInfo, hget, ?_, (Option.some.inj hs).symm⟩
    rintro rfl
    cases hold : requestInfo.status <;> simp [hold, Follows, RequestStatus.final] at hsend

/-- The first half of the callback counts the oldest update. -/
theorem countUpdate_cases (hs : s.countUpdate env = some s') :
    ∃ requestInfo doneQueue stateUpdate, s.doneQueue = requestInfo :: doneQueue ∧
      s' = { s with
        group := (s.group.lockedUpdate env requestInfo).1
        doneQueue := doneQueue
        stateUpdate := stateUpdate } := by
  unfold System.countUpdate at hs
  split at hs
  · rename_i requestInfo doneQueue hnone hdone
    exact ⟨_, _, _, hdone, (Option.some.inj hs).symm⟩
  all_goals cases hs

/-- The second half of the callback sets events; that of the end of generation only when it
counted no queued id and the generator has returned. -/
theorem setEvents_cases (hs : s.setEvents = some s') :
    ∃ state stopProcessing generated reached shutdown,
      s.stateUpdate = some (state, stopProcessing) ∧
        (generated = true → s.requestsGeneratedEvent = true ∨
          state.queuedRequests = 0 ∧ s.stopSendRequestsEvent = true) ∧
        s' = { s with
          stateUpdate := none
          requestsGeneratedEvent := generated
          constraintReachedEvent := reached
          shutdownEvent := shutdown } := by
  unfold System.setEvents at hs
  split at hs
  · cases hs
  · rename_i state stopProcessing hupdate
    refine ⟨state, stopProcessing, _, _, _, hupdate, fun hset => ?_, (Option.some.inj hs).symm⟩
    rcases Bool.or_eq_true_iff.mp hset with hold | hnow
    · exact .inl hold
    · obtain ⟨hzero, hstop⟩ := Bool.and_eq_true_iff.mp hnow
      exact .inr ⟨of_decide_eq_true hzero, hstop⟩

/-! ### The invariant of the run -/

/-- The queued ids cover the untaken requests, and the events say what they stand for. -/
structure Covered (s : System) : Prop where
  queued : ∀ requestInfo ∈ s.untaken, requestInfo.requestId ∈ s.group.queuedRequestIds
  counted : QueuedCounted s.group
  created : s.group.state.createdRequests = s.untaken.length + s.taken.length
  reported : ∀ requestInfo ∈ s.doneQueue, requestInfo.status ≠ .queued
  stopped : s.stopSendRequestsEvent = true → s.generator = .returned
  generated : s.requestsGeneratedEvent = true → s.stopSendRequestsEvent = true ∧ s.untaken = []

/-- While the generator is on its way the event is not set. -/
theorem Covered.not_generated (h : Covered s) (hgen : s.generator ≠ .returned) :
    ¬ s.requestsGeneratedEvent = true :=
  fun hset => hgen (h.stopped (h.generated hset).1)

/-- When no id is queued every created request was taken. -/
theorem Covered.untaken_eq_nil (h : Covered s) (hzero : s.group.state.queuedRequests = 0) :
    s.untaken = [] := by
  have hempty : s.group.queuedRequestIds = ∅ := by
    rw [← Finset.card_eq_zero, ← h.counted, hzero]
  refine List.eq_nil_iff_forall_not_mem.mpr fun requestInfo hmem => ?_
  have hin := h.queued requestInfo hmem
  rw [hempty] at hin
  exact Finset.notMem_empty _ hin

/-- A step of the generator that creates nothing and drops nothing. -/
theorem Covered.handOver (h : Covered s) (hgroup : s'.group = s.group)
    (huntaken : s'.untaken = s.untaken) (htaken : s'.taken = s.taken)
    (hdone : s'.doneQueue = s.doneQueue) (hrequests : s'.requestsGeneratedEvent = s.requestsGeneratedEvent)
    (hreturned : s'.stopSendRequestsEvent = true → s'.generator = .returned)
    (hstop : s.stopSendRequestsEvent = true → s'.stopSendRequestsEvent = true) : Covered s' := by
  refine ⟨?_, ?_, ?_, ?_, hreturned, ?_⟩
  · rw [hgroup, huntaken]
    exact h.queued
  · rw [hgroup]
    exact h.counted
  · rw [hgroup, huntaken, htaken]
    exact h.created
  · rw [hdone]
    exact h.reported
  · rw [hrequests, huntaken]
    exact fun hset => ⟨hstop (h.generated hset).1, (h.generated hset).2⟩

/-- Between two chains nothing is held by the generator. -/
theorem untaken_of_ready (hready : s.generator = .ready) :
    s.untaken = s.pendingQueue.flatten := by
  rw [System.untaken, hready, Generator.conversation, List.nil_append]

/-- The generator creates nothing between two chains. -/
theorem nextChain_covered (h : Covered s) (hs : s.nextChain = some s') : Covered s' := by
  obtain ⟨hready, rfl | ⟨requestsChain, requests, -, rfl⟩⟩ := nextChain_cases hs
  · exact h.handOver rfl (untaken_of_ready hready).symm rfl rfl rfl (fun _ => rfl) fun _ => rfl
  · refine h.handOver rfl (untaken_of_ready hready).symm rfl rfl rfl (fun hstop => ?_)
      fun hstop => hstop
    cases hready.symm.trans (h.stopped hstop)

/-- A created request is queued before any worker can take it. -/
theorem createRequest_covered (h : Covered s) (hs : s.createRequest env = some s') :
    Covered s' := by
  obtain ⟨requestId, requestsChain, conversation, rest, stopQueueing, hturns, -, rfl⟩ :=
    createRequest_cases hs
  have hgen : s.generator ≠ .returned := by
    rw [hturns]
    exact Generator.noConfusion
  have huntaken : s.untaken = conversation ++ s.pendingQueue.flatten := by
    rw [System.untaken, hturns, Generator.conversation]
  refine ⟨fun requestInfo hmem => ?_, lockedUpdate_queuedCounted h.counted, ?_, h.reported,
    fun hstop => absurd (h.stopped hstop) hgen, fun hset => absurd hset (h.not_generated hgen)⟩
  · rw [lockedUpdate_queuedRequestIds, if_pos rfl]
    have hcases : requestInfo ∈ s.untaken ∨ requestInfo = { requestId := requestId } := by
      rw [huntaken]
      simpa [System.untaken, Generator.conversation, or_assoc, or_comm, or_left_comm] using hmem
    rcases hcases with hold | rfl
    · exact Finset.mem_insert_of_mem (h.queued _ hold)
    · exact Finset.mem_insert_self _ _
  · rw [lockedUpdate_createdRequests, if_pos rfl, h.created, huntaken]
    simp only [System.untaken, Generator.conversation, List.length_append, List.length_singleton]
    omega

/-- A conversation that is handed over is still untaken. -/
theorem yieldConversation_covered (h : Covered s) (hs : s.yieldConversation = some s') :
    Covered s' := by
  obtain ⟨conversation, hturns, rfl⟩ := yieldConversation_cases hs
  refine h.handOver rfl ?_ rfl rfl rfl (fun hstop => ?_) fun hstop => hstop
  · simp only [System.untaken, hturns, Generator.conversation]
  · cases hturns.symm.trans (h.stopped hstop)

/-- A conversation that enters the queue is still untaken. -/
theorem putConversation_covered (h : Covered s) (hs : s.putConversation = some s') :
    Covered s' := by
  obtain ⟨conversation, hyielded, rfl⟩ := putConversation_cases hs
  have hgen : s.generator ≠ .returned := by
    rw [hyielded]
    exact Generator.noConfusion
  have hperm : (System.untaken { s with
      generator := .ready
      pendingQueue := s.pendingQueue ++ [conversation] }).Perm s.untaken := by
    simpa [System.untaken, hyielded, Generator.conversation] using List.perm_append_comm
  refine ⟨fun requestInfo hmem => h.queued requestInfo (hperm.mem_iff.mp hmem), h.counted, ?_,
    h.reported, fun hstop => absurd (h.stopped hstop) hgen,
    fun hset => absurd hset (h.not_generated hgen)⟩
  rw [hperm.length_eq]
  exact h.created

/-- The requests of a conversation go from the untaken ones to the taken ones. -/
theorem getConversation_covered (h : Covered s) (hs : s.getConversation = some s') :
    Covered s' := by
  obtain ⟨conversation, pendingQueue, hqueue, rfl⟩ := getConversation_cases hs
  have hperm : s.untaken.Perm
      (conversation ++ (s.generator.conversation ++ pendingQueue.flatten)) := by
    rw [System.untaken, hqueue, List.flatten_cons, ← List.append_assoc, ← List.append_assoc]
    exact List.perm_append_comm.append_right _
  refine ⟨fun requestInfo hmem => ?_, h.counted, ?_, h.reported, h.stopped, fun hset => ?_⟩
  · exact h.queued requestInfo (hperm.mem_iff.mpr (List.mem_append_right _ hmem))
  · rw [h.created, hperm.length_eq]
    simp only [System.untaken, List.length_append]
    omega
  · obtain ⟨hstop, hnone⟩ := h.generated hset
    rw [hnone] at hperm
    exact ⟨hstop, (List.append_eq_nil_iff.mp hperm.nil_eq.symm).2⟩

/-- A report is never a queued one. -/
theorem sendUpdate_covered {i : ℕ} {status : RequestStatus} {timings : RequestTimings}
    (h : Covered s) (hs : s.sendUpdate i status timings = some s') : Covered s' := by
  obtain ⟨requestInfo, -, hstatus, rfl⟩ := sendUpdate_cases hs
  refine ⟨h.queued, h.counted, ?_, fun info hmem => ?_, h.stopped, h.generated⟩
  · rw [h.created]
    exact congrArg (s.untaken.length + ·) List.length_set.symm
  · rcases List.mem_append.mp hmem with hold | hnew
    · exact h.reported info hold
    · rw [List.mem_singleton.mp hnew]
      exact hstatus

/-- An update is counted, and no id of an untaken request leaves the queued ones. -/
theorem countUpdate_covered (h : Covered s) (hright : s.CountsRight (.countUpdate env))
    (hs : s.countUpdate env = some s') : Covered s' := by
  obtain ⟨requestInfo, doneQueue, stateUpdate, hdone, rfl⟩ := countUpdate_cases hs
  have hreported : requestInfo.status ≠ .queued := h.reported requestInfo (by simp [hdone])
  refine ⟨fun other hmem => ?_, lockedUpdate_queuedCounted h.counted, ?_, fun info hmem => ?_,
    h.stopped, h.generated⟩
  · rw [lockedUpdate_queuedRequestIds, if_neg hreported]
    have hold := h.queued other hmem
    split
    · rename_i hleaves
      exact Finset.mem_erase.mpr ⟨hright requestInfo (by simp [hdone]) hleaves other hmem, hold⟩
    · exact hold
  · rw [lockedUpdate_createdRequests, if_neg hreported]
    exact h.created
  · exact h.reported info (by rw [hdone]; exact List.mem_cons_of_mem _ hmem)

/-- The tests of the callback set the event when every created request was taken. -/
theorem setEvents_covered (h : Covered s) (hright : s.CountsRight .setEvents)
    (hs : s.setEvents = some s') : Covered s' := by
  obtain ⟨state, stopProcessing, generated, reached, shutdown, hupdate, hset, rfl⟩ :=
    setEvents_cases hs
  refine ⟨h.queued, h.counted, h.created, h.reported, h.stopped, fun hgenerated => ?_⟩
  rcases hset hgenerated with hold | ⟨hzero, hstop⟩
  · exact h.generated hold
  · exact ⟨hstop, h.untaken_eq_nil (hright _ hupdate hstop hzero)⟩

/-- Every action that counts right keeps the queued ids on the untaken requests. -/
theorem step_covered (h : Covered s) (hright : s.CountsRight a) (hs : s.step a = some s') :
    Covered s' := by
  cases a with
  | nextChain => exact nextChain_covered h hs
  | createRequest env => exact createRequest_covered h hs
  | yieldConversation => exact yieldConversation_covered h hs
  | putConversation => exact putConversation_covered h hs
  | getConversation => exact getConversation_covered h hs
  | sendUpdate i status timings => exact sendUpdate_covered h hs
  | countUpdate env => exact countUpdate_covered h hright hs
  | setEvents => exact setEvents_covered h hright hs

/-- Before the first step nothing is created. -/
theorem start_covered (requests : List (List RequestId)) : Covered { requests := requests } :=
  ⟨fun _ hmem => absurd hmem List.not_mem_nil, rfl, rfl,
    fun _ hmem => absurd hmem List.not_mem_nil, Bool.noConfusion, Bool.noConfusion⟩

/-- A run whose actions count right keeps the queued ids on the untaken requests. -/
theorem run_covered {as : List Action} (h : Covered s) (hright : s.RunCountsRight as)
    (hs : s.run as = some s') : Covered s' := by
  induction as generalizing s with
  | nil =>
    cases hs
    exact h
  | cons a as ih =>
    obtain ⟨next, hstep, hrest⟩ := Option.bind_eq_some_iff.mp hs
    exact ih (step_covered h hright.1 hstep) (hright.2 next hstep) hrest

/-- For every dataset and every interleaving, with ids that repeat or not, the end of generation
is signalled in time when every action counts right. -/
theorem generatedInTime_of_run (requests : List (List RequestId)) (as : List Action) (s : System)
    (hright : System.RunCountsRight as { requests := requests })
    (hs : System.run as { requests := requests } = some s) : s.GeneratedInTime := by
  intro hset
  have hcovered := run_covered (start_covered requests) hright hs
  have hnone := (hcovered.generated hset).2
  refine ⟨hnone, ?_⟩
  have hcreated := hcovered.created
  rw [hnone, List.length_nil, Nat.zero_add] at hcreated
  exact hcreated.symm

/-! ### Distinct ids -/

/-- The requests have distinct ids, and every update comes from a taken request. -/
structure Distinct (s : System) : Prop where
  once : s.requestIds.Nodup
  reported : ∀ requestInfo ∈ s.doneQueue, requestInfo.requestId ∈ s.taken.map (·.requestId)

/-- A report keeps the ids of the taken requests. -/
theorem map_set_requestId {taken : List RequestInfo} {i : ℕ} {old new : RequestInfo}
    (hget : taken[i]? = some old) (hid : new.requestId = old.requestId) :
    (taken.set i new).map (·.requestId) = taken.map (·.requestId) := by
  obtain ⟨hi, hold⟩ := List.getElem?_eq_some_iff.mp hget
  refine List.ext_getElem (by simp) fun j hj hj' => ?_
  rw [List.getElem_map, List.getElem_map, List.getElem_set]
  split
  · rename_i hij
    subst hij
    rw [hid, hold]
  · rfl

/-- No step adds an id; only the generator drops some. -/
theorem step_count_le (hs : s.step a = some s') (r : RequestId) :
    s'.requestIds.count r ≤ s.requestIds.count r := by
  cases a with
  | nextChain =>
    obtain ⟨hready, rfl | ⟨requestsChain, requests, hrequests, rfl⟩⟩ := nextChain_cases hs
    · simp [System.requestIds, System.untaken, System.finishGeneration, hready,
        Generator.conversation, Generator.requestsChain]
    · simp [System.requestIds, System.untaken, hready, hrequests, Generator.conversation,
        Generator.requestsChain]
      omega
  | createRequest env =>
    obtain ⟨requestId, requestsChain, conversation, rest, stopQueueing, hturns, hrest, rfl⟩ :=
      createRequest_cases hs
    have hle : rest.count r ≤ requestsChain.count r := by
      rcases hrest with rfl | rfl
      · exact le_rfl
      · exact Nat.zero_le _
    simp [System.requestIds, System.untaken, hturns, Generator.conversation,
      Generator.requestsChain, List.count_cons]
    omega
  | yieldConversation =>
    obtain ⟨conversation, hturns, rfl⟩ := yieldConversation_cases hs
    simp [System.requestIds, System.untaken, hturns, Generator.conversation,
      Generator.requestsChain]
  | putConversation =>
    obtain ⟨conversation, hyielded, rfl⟩ := putConversation_cases hs
    simp [System.requestIds, System.untaken, hyielded, Generator.conversation,
      Generator.requestsChain]
    omega
  | getConversation =>
    obtain ⟨conversation, pendingQueue, hqueue, rfl⟩ := getConversation_cases hs
    simp [System.requestIds, System.untaken, hqueue]
    omega
  | sendUpdate i status timings =>
    obtain ⟨requestInfo, hget, -, rfl⟩ := sendUpdate_cases hs
    refine le_of_eq (congrArg (fun ids => List.count r (s.requests.flatten ++
      s.generator.requestsChain ++ s.untaken.map (·.requestId) ++ ids)) ?_)
    exact map_set_requestId hget rfl
  | countUpdate env =>
    obtain ⟨requestInfo, doneQueue, stateUpdate, -, rfl⟩ := countUpdate_cases hs
    exact le_rfl
  | setEvents =>
    obtain ⟨state, stopProcessing, generated, reached, shutdown, -, -, rfl⟩ := setEvents_cases hs
    exact le_rfl

/-- Every update still comes from a taken request. -/
theorem step_reported (h : Distinct s) (hs : s.step a = some s') :
    ∀ requestInfo ∈ s'.doneQueue, requestInfo.requestId ∈ s'.taken.map (·.requestId) := by
  cases a with
  | nextChain =>
    obtain ⟨-, rfl | ⟨requestsChain, requests, -, rfl⟩⟩ := nextChain_cases hs
    · exact h.reported
    · exact h.reported
  | createRequest env =>
    obtain ⟨_, _, _, _, _, -, -, rfl⟩ := createRequest_cases hs
    exact h.reported
  | yieldConversation =>
    obtain ⟨conversation, -, rfl⟩ := yieldConversation_cases hs
    exact h.reported
  | putConversation =>
    obtain ⟨conversation, -, rfl⟩ := putConversation_cases hs
    exact h.reported
  | getConversation =>
    obtain ⟨conversation, pendingQueue, -, rfl⟩ := getConversation_cases hs
    intro requestInfo hmem
    rw [List.map_append]
    exact List.mem_append_left _ (h.reported requestInfo hmem)
  | sendUpdate i status timings =>
    obtain ⟨old, hget, -, rfl⟩ := sendUpdate_cases hs
    have hids : (s.taken.set i { old with status := status, timings := timings }).map
        (·.requestId) = s.taken.map (·.requestId) := map_set_requestId hget rfl
    intro requestInfo hmem
    refine (congrArg (requestInfo.requestId ∈ ·) hids).mpr ?_
    rcases List.mem_append.mp hmem with hold | hnew
    · exact h.reported requestInfo hold
    · rw [List.mem_singleton.mp hnew]
      exact List.mem_map.mpr ⟨old, List.mem_of_getElem? hget, rfl⟩
  | countUpdate env =>
    obtain ⟨requestInfo, doneQueue, stateUpdate, hdone, rfl⟩ := countUpdate_cases hs
    exact fun other hmem => h.reported other (hdone ▸ List.mem_cons_of_mem _ hmem)
  | setEvents =>
    obtain ⟨_, _, _, _, _, -, -, rfl⟩ := setEvents_cases hs
    exact h.reported

/-- Every run keeps the ids distinct. -/
theorem run_distinct {as : List Action} (h : Distinct s) (hs : s.run as = some s') :
    Distinct s' := by
  induction as generalizing s with
  | nil =>
    cases hs
    exact h
  | cons a as ih =>
    obtain ⟨next, hstep, hrest⟩ := Option.bind_eq_some_iff.mp hs
    refine ih ⟨List.nodup_iff_count_le_one.mpr fun r => ?_, step_reported h hstep⟩ hrest
    exact (step_count_le hstep r).trans (List.nodup_iff_count_le_one.mp h.once r)

/-- With distinct ids in the dataset no update takes the id of an untaken request out of the
queued ones: only the older count is left to go wrong. -/
theorem countUpdate_countsRight_of_nodup {requests : List (List RequestId)} {as : List Action}
    (hnodup : requests.flatten.Nodup) (hs : System.run as { requests := requests } = some s) :
    s.CountsRight (.countUpdate env) := by
  have hstart : Distinct { requests := requests } := by
    refine ⟨?_, fun _ hmem => absurd hmem List.not_mem_nil⟩
    simpa [System.requestIds, System.untaken, Generator.conversation, Generator.requestsChain]
      using hnodup
  have hdistinct := run_distinct hstart hs
  intro requestInfo hhead _ other hother hid
  have htaken := hdistinct.reported requestInfo (List.mem_of_mem_head? hhead)
  have hnodup' := hdistinct.once
  rw [System.requestIds, List.nodup_append] at hnodup'
  refine hnodup'.2.2 other.requestId (List.mem_append_right _ (List.mem_map_of_mem hother)) _ ?_ hid
  exact htaken

/-- The clocks of an update, without constraints. -/
def clocksAt (t : ℚ) : UpdateEnv := ⟨t, t, t, t, fun _ _ => []⟩

/-- One turn of the generator: a chain of one request goes into the queue. -/
def generateOne (t : ℚ) : List Action :=
  [.nextChain, .createRequest (clocksAt t), .yieldConversation, .putConversation]

/-- A worker takes the first request of two and reports it, and the report is counted. -/
def takeFirst : List Action :=
  generateOne 1 ++ generateOne 2 ++ [.nextChain, .getConversation, .sendUpdate 0 .pending {},
    .countUpdate (clocksAt 3), .setEvents]

/-- With one id for both requests the event is set while the second is in the queue. -/
theorem repeatedId_not_inTime : ∃ s, System.run takeFirst { requests := [["a"], ["a"]] } = some s ∧
    ¬ s.GeneratedInTime := by
  refine ⟨_, rfl, fun h => ?_⟩
  have hnone := (h rfl).1
  exact absurd hnone (List.cons_ne_nil _ _)

/-- The second request is created between the count of the first report and the test. -/
def createBetween : List Action :=
  generateOne 1 ++ [.getConversation, .sendUpdate 0 .pending {}, .countUpdate (clocksAt 2)] ++
    generateOne 3 ++ [.nextChain, .setEvents]

/-- The older count sets the event too early for distinct ids as well. -/
example : ∃ s, System.run createBetween { requests := [["a"], ["b"]] } = some s ∧
    ¬ s.GeneratedInTime := by
  refine ⟨_, rfl, fun h => ?_⟩
  have hnone := (h rfl).1
  exact absurd hnone (List.cons_ne_nil _ _)

/-- Both requests are taken and reported, with ids of their own. -/
def takeBoth : List Action :=
  takeFirst ++ [.getConversation, .sendUpdate 1 .pending {}, .countUpdate (clocksAt 4), .setEvents]

/-- With two ids every action counts right, and the event is set after the second report. -/
theorem takeBoth_inTime : ∃ s, System.run takeBoth { requests := [["a"], ["b"]] } = some s ∧
    s.requestsGeneratedEvent = true ∧ s.GeneratedInTime := by
  refine ⟨_, rfl, rfl, generatedInTime_of_run [["a"], ["b"]] takeBoth _ ?_ rfl⟩
  decide

end RpsServe.LoadGenerator
