import RpsServe.LoadGenerator.WorkerGroupState

/-!
# Request accounting of the load generator

The abstract view of a group of workers is a ledger: the latest status of every request
that was created. The group state is compared with the census of the ledger. Every class
agrees with it but the pending one, which is never entered, so a request is out of the
account from its pending update to its next one.
-/

namespace RpsServe.LoadGenerator

/-- The latest status of every request. -/
abbrev Ledger := Dict RequestId RequestStatus

/-- The statuses that may follow one another in the life of a request. -/
def Follows : Option RequestStatus → RequestStatus → Bool
  | none, st => st = .queued
  | some .queued, st => st = .pending ∨ st = .errored ∨ st = .cancelled
  | some .pending, st => st = .inProgress ∨ st = .errored ∨ st = .cancelled
  | some .inProgress, st | some .firstToken, st => st = .firstToken ∨ st.final
  | some .completed, _ | some .errored, _ | some .cancelled, _ => false

/-- The ledger after the updates. -/
def Ledger.run : List (UpdateEnv × RequestInfo) → Ledger → Ledger
  | [], l => l
  | (_, info) :: us, l => Ledger.run us (l.set info.requestId info.status)

/-- Every update comes along the life of its request. -/
def Lifecycle : Ledger → List (UpdateEnv × RequestInfo) → Prop
  | _, [] => True
  | l, (_, info) :: us =>
    Follows (l.get? info.requestId) info.status ∧
      Lifecycle (l.set info.requestId info.status) us

instance instDecidableLifecycle : ∀ (l : Ledger) (us : List (UpdateEnv × RequestInfo)),
    Decidable (Lifecycle l us)
  | _, [] => isTrue trivial
  | l, (_, info) :: us =>
    have := instDecidableLifecycle (l.set info.requestId info.status) us
    inferInstanceAs (Decidable (_ ∧ _))

/-- Whether the request is with the backend. -/
def RequestStatus.processing : RequestStatus → Bool
  | .inProgress | .firstToken => true
  | .queued | .pending | .completed | .errored | .cancelled => false

/-- In how many classes a request is counted: one for each set of ids that holds it, and one
when it has ended. -/
def timesCounted (g : WorkerGroupState) (l : Ledger) (r : RequestId) : ℕ :=
  (if r ∈ g.queuedRequestIds then 1 else 0) + (if r ∈ g.pendingRequestIds then 1 else 0) +
    (if r ∈ g.processingRequestIds then 1 else 0) + if (l.get? r).any (·.final) then 1 else 0

/-- The accounting of the group state: the counters add up, they are the sizes of the classes,
and every created request is in one class. -/
structure Accounted (g : WorkerGroupState) (l : Ledger) : Prop where
  created : g.state.createdRequests = g.state.queuedRequests + g.state.pendingRequests +
    g.state.processingRequests + g.state.processedRequests
  processed : g.state.processedRequests = g.state.successfulRequests +
    g.state.erroredRequests + g.state.cancelledRequests
  sizes : g.state.queuedRequests = g.queuedRequestIds.card ∧
    g.state.pendingRequests = g.pendingRequestIds.card ∧
    g.state.processingRequests = g.processingRequestIds.card ∧
    g.state.processedRequests = (l.keysWith (·.final)).card
  once : ∀ r ∈ l.keys, timesCounted g l r = 1

/-! ### What the group state records -/

/-- The group state is the census of the ledger, without the pending requests. -/
structure Tallies (g : WorkerGroupState) (l : Ledger) : Prop where
  queuedIds : g.queuedRequestIds = l.keysWith (· = .queued)
  pendingIds : g.pendingRequestIds = ∅
  processingIds : g.processingRequestIds = l.keysWith (·.processing)
  queued : g.state.queuedRequests = g.queuedRequestIds.card
  pending : g.state.pendingRequests = 0
  processing : g.state.processingRequests = g.processingRequestIds.card
  created : g.state.createdRequests = (l.keysWith fun _ => true).card
  successful : g.state.successfulRequests = (l.keysWith (· = .completed)).card
  errored : g.state.erroredRequests = (l.keysWith (· = .errored)).card
  cancelled : g.state.cancelledRequests = (l.keysWith (· = .cancelled)).card
  processed : g.state.processedRequests = g.state.successfulRequests +
    g.state.erroredRequests + g.state.cancelledRequests

/-- What counting the status `st` of `r` does to the state: `r` enters or leaves the sets, and
the counters follow. -/
structure Counts (g g' : WorkerGroupState) (r : RequestId) (st : RequestStatus) : Prop where
  queuedIds : g'.queuedRequestIds =
    if st = .queued then insert r g.queuedRequestIds else g.queuedRequestIds.erase r
  pendingIds : g'.pendingRequestIds = ∅
  processingIds : g'.processingRequestIds =
    if st.processing then insert r g.processingRequestIds else g.processingRequestIds.erase r
  queued : g'.state.queuedRequests = g'.queuedRequestIds.card
  pending : g'.state.pendingRequests = 0
  processing : g'.state.processingRequests = g'.processingRequestIds.card
  created : g'.state.createdRequests = g.state.createdRequests + if st = .queued then 1 else 0
  successful : g'.state.successfulRequests =
    g.state.successfulRequests + if st = .completed then 1 else 0
  errored : g'.state.erroredRequests = g.state.erroredRequests + if st = .errored then 1 else 0
  cancelled : g'.state.cancelledRequests =
    g.state.cancelledRequests + if st = .cancelled then 1 else 0
  processed : g'.state.processedRequests =
    g.state.processedRequests + if st.final then 1 else 0

variable {g g' : WorkerGroupState} {l : Ledger} {r : RequestId} {st : RequestStatus}

/-- A request that goes on has not ended. -/
theorem follows_not_final (h : Follows (l.get? r) st) : (l.get? r).any (·.final) = false := by
  cases hold : l.get? r with
  | none => rfl
  | some o =>
    rw [hold] at h
    cases o with
    | queued | pending | inProgress | firstToken => rfl
    | completed | errored | cancelled => exact absurd h Bool.false_ne_true

/-- Only a new request is queued. -/
theorem follows_queued_iff (h : Follows (l.get? r) st) : st = .queued ↔ l.get? r = none := by
  cases hold : l.get? r with
  | none =>
    rw [hold] at h
    simpa [Follows] using h
  | some o =>
    rw [hold] at h
    refine iff_of_false (fun hst => ?_) (Option.some_ne_none _)
    subst hst
    cases o <;> simp [Follows, RequestStatus.final] at h

/-- A pending update comes to a queued request, an in-progress update to a pending one. -/
theorem follows_early (h : Follows (l.get? r) st) :
    (st = .pending → l.get? r = some .queued) ∧
      (st = .inProgress → l.get? r = some .pending) := by
  cases hold : l.get? r with
  | none =>
    rw [hold] at h
    have hst : st = .queued := by simpa [Follows] using h
    exact ⟨by simp [hst], by simp [hst]⟩
  | some o =>
    rw [hold] at h
    constructor
    all_goals
      rintro rfl
      cases o <;> simp [Follows, RequestStatus.final] at h ⊢

/-- A first token and a completion come to a request in process. -/
theorem follows_late (h : Follows (l.get? r) st) (hst : st = .firstToken ∨ st = .completed) :
    ∃ o, l.get? r = some o ∧ o.processing := by
  cases hold : l.get? r with
  | none =>
    rw [hold] at h
    rcases hst with rfl | rfl <;> simp [Follows] at h
  | some o =>
    rw [hold] at h
    refine ⟨o, rfl, ?_⟩
    rcases hst with rfl | rfl <;>
      cases o <;> simp [Follows, RequestStatus.processing] at h ⊢

/-- Where the tallies are right, the queued ids are the requests that were queued last. -/
theorem Tallies.mem_queued (h : Tallies g l) :
    r ∈ g.queuedRequestIds ↔ l.get? r = some .queued := by
  rw [h.queuedIds, Dict.mem_keysWith]
  simp

/-- Where the tallies are right, the processing ids are the requests in progress. -/
theorem Tallies.mem_processing (h : Tallies g l) :
    r ∈ g.processingRequestIds ↔ ∃ o, l.get? r = some o ∧ o.processing := by
  rw [h.processingIds, Dict.mem_keysWith]

/-- A request that stops early leaves both sets; it is in at most one of them. -/
theorem Tallies.dropRequest_eq (h : Tallies g l) : g.dropRequest r =
    (g.setQueued (g.queuedRequestIds.erase r)).setProcessing (g.processingRequestIds.erase r) := by
  unfold WorkerGroupState.dropRequest
  split
  · rename_i hq
    have hp : r ∉ g.processingRequestIds := by
      rw [h.mem_processing, h.mem_queued.mp hq]
      rintro ⟨o, ho, hproc⟩
      cases ho
      exact Bool.false_ne_true hproc
    rw [Finset.erase_eq_of_notMem hp]
    simp [WorkerGroupState.setQueued, WorkerGroupState.setProcessing, ← h.processing]
  · rename_i hq
    rw [h.pendingIds, if_neg (Finset.notMem_empty r), Finset.erase_eq_of_notMem hq]
    split
    · simp [WorkerGroupState.setQueued, WorkerGroupState.setProcessing, ← h.queued]
    · rename_i hp
      rw [Finset.erase_eq_of_notMem hp]
      simp [WorkerGroupState.setQueued, WorkerGroupState.setProcessing, ← h.queued, ← h.processing]

/-- Counting an update along the life of its request. -/
theorem countStatus_counts (h : Tallies g l) (hf : Follows (l.get? r) st) :
    Counts g (g.countStatus r st) r st := by
  have hqueued : l.get? r ≠ some .queued → g.queuedRequestIds.erase r = g.queuedRequestIds :=
    fun hold => Finset.erase_eq_of_notMem (mt h.mem_queued.mp hold)
  have hprocessing : (∀ o, l.get? r = some o → o.processing = false) →
      g.processingRequestIds.erase r = g.processingRequestIds := by
    refine fun hno => Finset.erase_eq_of_notMem fun hr => ?_
    obtain ⟨o, hold, hproc⟩ := h.mem_processing.mp hr
    rw [hno o hold] at hproc
    exact Bool.false_ne_true hproc
  have hpending : g.pendingRequestIds.erase r = ∅ := by
    rw [h.pendingIds, Finset.erase_empty]
  have hnonePending : (g.pendingRequestIds.erase r).card = 0 := by
    rw [hpending, Finset.card_empty]
  cases st with
  | queued =>
    have hnone := (follows_queued_iff hf).mp rfl
    have hsame := hprocessing fun o hold => by cases hnone.symm.trans hold
    exact ⟨rfl, h.pendingIds, hsame.symm, rfl, h.pending, h.processing, rfl, rfl, rfl, rfl, rfl⟩
  | pending =>
    have hold := (follows_early hf).1 rfl
    have hsame := hprocessing fun o ho => by cases hold.symm.trans ho; rfl
    exact ⟨rfl, hpending, hsame.symm, rfl, hnonePending, h.processing, rfl, rfl, rfl, rfl, rfl⟩
  | inProgress =>
    have hold := (follows_early hf).2 rfl
    have hsame := hqueued (by rw [hold]; simp)
    exact ⟨hsame.symm, hpending, rfl, h.queued, hnonePending, rfl, rfl, rfl, rfl, rfl, rfl⟩
  | firstToken =>
    obtain ⟨o, hold, hproc⟩ := follows_late hf (.inl rfl)
    have hsame := hqueued (by rw [hold]; rintro ⟨⟩; exact Bool.false_ne_true hproc)
    have hstays := Finset.insert_eq_of_mem (h.mem_processing.mpr ⟨o, hold, hproc⟩)
    exact ⟨hsame.symm, h.pendingIds, hstays.symm, h.queued, h.pending, h.processing,
      rfl, rfl, rfl, rfl, rfl⟩
  | completed =>
    obtain ⟨o, hold, hproc⟩ := follows_late hf (.inr rfl)
    have hsame := hqueued (by rw [hold]; rintro ⟨⟩; exact Bool.false_ne_true hproc)
    exact ⟨hsame.symm, h.pendingIds, rfl, h.queued, h.pending, rfl, rfl, rfl, rfl, rfl, rfl⟩
  | errored | cancelled =>
    unfold WorkerGroupState.countStatus
    rw [h.dropRequest_eq]
    exact ⟨rfl, h.pendingIds, rfl, rfl, h.pending, rfl, rfl, rfl, rfl, rfl, rfl⟩

/-- The census of the ledger follows the counters. -/
theorem Counts.tallies (hc : Counts g g' r st) (h : Tallies g l) (hf : Follows (l.get? r) st) :
    Tallies g' (l.set r st) := by
  have hgains : ∀ p : RequestStatus → Bool, (l.get? r).any p = false →
      ((l.set r st).keysWith p).card = (l.keysWith p).card + if p st then 1 else 0 := by
    intro p hp
    have hcard := Dict.card_keysWith_set l p r st
    rwa [hp, if_neg Bool.false_ne_true, Nat.add_zero] at hcard
  have hended : ∀ p : RequestStatus → Bool, (∀ st, p st = true → st.final = true) →
      (l.get? r).any p = false := by
    intro p hp
    have hgoes := follows_not_final hf
    cases hold : l.get? r with
    | none => rfl
    | some o =>
      rw [hold] at hgoes
      exact Bool.eq_false_iff.mpr fun ho => Bool.eq_false_iff.mp hgoes (hp o ho)
  refine ⟨?_, hc.pendingIds, ?_, hc.queued, hc.pending, hc.processing, ?_, ?_, ?_, ?_, ?_⟩
  · rw [hc.queuedIds, h.queuedIds]
    split
    · rw [Dict.keysWith_set_of_pos (by simpa)]
    · rw [Dict.keysWith_set_of_neg (by simpa)]
  · rw [hc.processingIds, h.processingIds]
    cases hp : st.processing with
    | true => exact (Dict.keysWith_set_of_pos hp).symm
    | false => exact (Dict.keysWith_set_of_neg hp).symm
  · have hcard := Dict.card_keysWith_set l (fun _ => true) r st
    rw [hc.created, h.created]
    by_cases hst : st = .queued
    · have hnone := (follows_queued_iff hf).mp hst
      simp only [hnone, Option.any_none, Bool.false_eq_true, if_false] at hcard
      simp only [hst, if_true] at hcard ⊢
      omega
    · obtain ⟨o, hold⟩ := Option.ne_none_iff_exists'.mp (mt (follows_queued_iff hf).mpr hst)
      simp only [hold, Option.any_some, if_true] at hcard
      rw [if_neg hst]
      omega
  · rw [hc.successful, h.successful, hgains _ (hended _ (by simp [RequestStatus.final]))]
    simp
  · rw [hc.errored, h.errored, hgains _ (hended _ (by simp [RequestStatus.final]))]
    simp
  · rw [hc.cancelled, h.cancelled, hgains _ (hended _ (by simp [RequestStatus.final]))]
    simp
  · rw [hc.processed, hc.successful, hc.errored, hc.cancelled, h.processed]
    cases st <;> simp [RequestStatus.final] <;> omega

/-- Every update along the life of its request keeps the tallies. -/
theorem lockedUpdate_tallies {env : UpdateEnv} {info : RequestInfo} (h : Tallies g l)
    (hf : Follows (l.get? info.requestId) info.status) :
    Tallies (g.lockedUpdate env info).1 (l.set info.requestId info.status) := by
  have hstart : Tallies { g with state := { g.state with endTime := some env.endTime } } l :=
    ⟨h.queuedIds, h.pendingIds, h.processingIds, h.queued, h.pending, h.processing, h.created,
      h.successful, h.errored, h.cancelled, h.processed⟩
  have hcounted := (countStatus_counts hstart hf).tallies hstart hf
  exact ⟨hcounted.queuedIds, hcounted.pendingIds, hcounted.processingIds, hcounted.queued,
    hcounted.pending, hcounted.processing, hcounted.created, hcounted.successful,
    hcounted.errored, hcounted.cancelled, hcounted.processed⟩

/-- The group state after any updates along the lives of the requests is the census of the
ledger after them. -/
theorem run_tallies {us : List (UpdateEnv × RequestInfo)} (h : Tallies g l)
    (hlife : Lifecycle l us) : Tallies (WorkerGroupState.run us g) (Ledger.run us l) := by
  induction us generalizing g l with
  | nil => exact h
  | cons u us ih => exact ih (lockedUpdate_tallies h hlife.1) hlife.2

/-! ### The account -/

/-- Every created request is queued, pending, processing or ended. -/
theorem card_ledger (l : Ledger) : (l.keysWith fun _ => true).card =
    (l.keysWith (· = .queued)).card + (l.keysWith (· = .pending)).card +
      (l.keysWith (·.processing)).card + (l.keysWith (·.final)).card := by
  rw [← Dict.card_keysWith_or, ← Dict.card_keysWith_or, ← Dict.card_keysWith_or]
  · congr 2
    funext st
    cases st <;> rfl
  all_goals
    intro st
    cases st <;> simp [RequestStatus.final, RequestStatus.processing]

/-- The ended requests are the completed, the errored and the cancelled ones. -/
theorem card_final (l : Ledger) : (l.keysWith (·.final)).card =
    (l.keysWith (· = .completed)).card + (l.keysWith (· = .errored)).card +
      (l.keysWith (· = .cancelled)).card := by
  rw [← Dict.card_keysWith_or, ← Dict.card_keysWith_or]
  · congr 2
    funext st
    cases st <;> rfl
  all_goals
    intro st
    cases st <;> simp

/-- The counter of the ended requests. -/
theorem Tallies.processed_eq (h : Tallies g l) :
    g.state.processedRequests = (l.keysWith (·.final)).card := by
  rw [h.processed, h.successful, h.errored, h.cancelled, card_final]

/-- A pending request is in no class, every other one in one. -/
theorem Tallies.timesCounted_eq (h : Tallies g l) (hst : l.get? r = some st) :
    timesCounted g l r = if st = .pending then 0 else 1 := by
  have hprocessing : r ∈ g.processingRequestIds ↔ st.processing = true := by
    rw [h.mem_processing, hst]
    simp
  rw [timesCounted, h.pendingIds]
  simp only [h.mem_queued, hprocessing, hst, Finset.notMem_empty, Option.any_some]
  cases st <;> rfl

/-- The pending requests are all that the account lacks. -/
theorem Tallies.accounted_iff (h : Tallies g l) :
    Accounted g l ↔ ∀ r, l.get? r ≠ some .pending := by
  have hcreated : g.state.createdRequests = g.state.queuedRequests + g.state.pendingRequests +
      g.state.processingRequests + g.state.processedRequests +
      (l.keysWith (· = .pending)).card := by
    rw [h.created, card_ledger, h.queued, h.queuedIds, h.pending, h.processing, h.processingIds,
      h.processed_eq]
    omega
  have hnone : (l.keysWith (· = .pending)).card = 0 ↔ ∀ r, l.get? r ≠ some .pending := by
    rw [Dict.card_keysWith_eq_zero]
    refine forall_congr' fun r => ⟨fun hr hst => ?_, fun hr st hst => ?_⟩
    · exact absurd (hr _ hst) (by simp)
    · exact decide_eq_false fun hp => hr (hst.trans (congrArg some hp))
  constructor
  · intro hacc
    have := hacc.created
    exact hnone.mp (by omega)
  · intro hpending
    have hzero := hnone.mpr hpending
    refine ⟨by omega, h.processed,
      ⟨h.queued, by rw [h.pending, h.pendingIds, Finset.card_empty], h.processing, h.processed_eq⟩,
      fun r hr => ?_⟩
    obtain ⟨st, hst⟩ := Option.isSome_iff_exists.mp ((l.isSome_get? r).mpr hr)
    have hp : st ≠ .pending := fun hp => hpending r (hst.trans (congrArg some hp))
    rw [h.timesCounted_eq hst, if_neg hp]

/-- The group of workers before its first request. -/
theorem init_tallies : Tallies {} .empty :=
  ⟨rfl, rfl, rfl, rfl, rfl, rfl, rfl, rfl, rfl, rfl, rfl⟩

/-- After any updates along the lives of the requests, in any interleaving, the group state
accounts for every request exactly when the latest status of none of them is pending. -/
theorem accounted_iff_noPending (us : List (UpdateEnv × RequestInfo))
    (hlife : Lifecycle .empty us) :
    Accounted (WorkerGroupState.run us {}) (Ledger.run us .empty) ↔
      ∀ r, (Ledger.run us .empty).get? r ≠ some .pending :=
  (run_tallies init_tallies hlife).accounted_iff

/-- An update at the given time, without constraints. -/
def updateAt (t : ℚ) (r : RequestId) (status : RequestStatus) : UpdateEnv × RequestInfo :=
  (⟨t, t, t, t, fun _ _ => []⟩, { requestId := r, status := status })

/-- One request is pulled by a worker while another one is queued. -/
def pulledByWorker : List (UpdateEnv × RequestInfo) :=
  [updateAt 1 "a" .queued, updateAt 2 "b" .queued, updateAt 3 "a" .pending]

/-- The pulled request is counted in no class. -/
theorem pending_not_counted : Lifecycle .empty pulledByWorker ∧
    ¬ Accounted (WorkerGroupState.run pulledByWorker {}) (Ledger.run pulledByWorker .empty) := by
  refine ⟨by decide, fun h => ?_⟩
  have hcreated : 2 = 1 + 0 + 0 + 0 := h.created
  omega

/-- The life of both requests to their ends: one in process, one from the queue. -/
def bothEnded : List (UpdateEnv × RequestInfo) :=
  pulledByWorker ++ [updateAt 4 "a" .inProgress, updateAt 5 "a" .firstToken,
    updateAt 6 "b" .cancelled, updateAt 7 "a" .completed]

/-- Once both requests have ended the account is whole. -/
theorem accounted_of_ended :
    Accounted (WorkerGroupState.run bothEnded {}) (Ledger.run bothEnded .empty) := by
  refine (accounted_iff_noPending bothEnded (by decide)).mpr fun r hr => ?_
  have hpending : ∀ r ∈ (Ledger.run bothEnded .empty).keys,
      (Ledger.run bothEnded .empty).get? r ≠ some .pending := by decide
  exact hpending r (Dict.mem_keys_of_get? hr) hr

end RpsServe.LoadGenerator
