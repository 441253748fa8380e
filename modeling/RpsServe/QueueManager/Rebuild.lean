import RpsServe.QueueManager.Calls
import RpsServe.Lib.Except
import RpsServe.Lib.HeapOrder

/-!
# Rebuilding the queues

At the end of a step the combined list is split into the running list and the waiting queue
again: cut at the first waiting index when nothing was ignored or skipped, and filtered by the
running ids otherwise. Cutting is right because the bookkeeping is exact then, whatever was
preempted and scheduled in between. The waiting part is put into a new queue one request after
the other; a deque keeps the order of the combined list, and a heap yields the requests in the
order of `Request.__lt__`, which is that of the priorities first.
-/

namespace RpsServe

/-- What `Request.__lt__` compares: priority, arrival time, id. -/
def Request.rank (r : Request) : ℤ ×ₗ ℤ ×ₗ ℕ :=
  toLex (r.priority, toLex (r.arrivalTime, r.requestId))

namespace Request

variable {a b : Request}

/-- A request is less than another one when its rank is. -/
theorem lt_iff_rank : a.lt b = true ↔ a.rank < b.rank := by
  simp only [lt, rank, Prod.Lex.toLex_lt_toLex]
  split_ifs with hprio harrival
  · have : a.priority ≠ b.priority := hprio
    simp [this]
  · have heq : a.priority = b.priority := not_not.mp hprio
    have : a.arrivalTime ≠ b.arrivalTime := harrival
    simp [heq, this]
  · have heq : a.priority = b.priority := not_not.mp hprio
    have heq' : a.arrivalTime = b.arrivalTime := not_not.mp harrival
    simp [heq, heq']

/-- The priority comes first. -/
theorem priority_le_of_rank_le (h : a.rank ≤ b.rank) : a.priority ≤ b.priority := by
  rcases Prod.Lex.toLex_le_toLex.mp h with hlt | heq
  · exact hlt.le
  · exact heq.1.le

end Request

namespace RequestQueue

variable {req : ReqId → Request} {q : RequestQueue} {r : ReqId} {rs : List ReqId}

/-- A request comes before another one when its rank is less. -/
theorem before_iff_rank (a b : ReqId) :
    before req a b = true ↔ (req a).rank < (req b).rank := Request.lt_iff_rank

/-- A queue stays the kind it is when a request is added. -/
@[simp] theorem heap_addRequest : (q.addRequest req r).heap = q.heap := rfl

/-- A queue stays the kind it is when requests are added. -/
@[simp] theorem heap_foldl_addRequest : (rs.foldl (addRequest req) q).heap = q.heap := by
  induction rs generalizing q with
  | nil => rfl
  | cons r rest ih => simp [ih]

/-- A deque keeps the order in which the requests are added. -/
theorem items_foldl_deque (h : q.heap = false) :
    (rs.foldl (addRequest req) q).items = q.items ++ rs := by
  induction rs generalizing q with
  | nil => simp
  | cons r rest ih =>
    have hitems : (q.addRequest req r).items = q.items ++ [r] := by simp [addRequest, h]
    have hrest : ((q.addRequest req r).heap = false) := h
    rw [List.foldl_cons, ih hrest, hitems, List.append_assoc, List.singleton_append]

/-- Requests added to a heap leave it a heap. -/
theorem ordered_foldl_heap (h : q.heap = true)
    (hq : Heap.Ordered (fun r => (req r).rank) q.items) :
    Heap.Ordered (fun r => (req r).rank) (rs.foldl (addRequest req) q).items := by
  induction rs generalizing q with
  | nil => exact hq
  | cons r rest ih =>
    refine ih h ?_
    simpa [addRequest, h] using Heap.push_ordered before_iff_rank hq r

/-- Iterating over a heap follows the order of the requests. -/
theorem iter_pairwise (h : q.heap = true) (hq : Heap.Ordered (fun r => (req r).rank) q.items) :
    (q.iter req).Pairwise fun a b => (req a).priority ≤ (req b).priority := by
  have hdrain := Heap.drain_pairwise before_iff_rank hq le_rfl
  simpa [iter, h] using hdrain.imp fun hab => Request.priority_le_of_rank_le hab

end RequestQueue

namespace QueueManager

variable {req req' : ReqId → Request} {running waiting rs : List ReqId} {qm qm' : QueueManager}
  {wq : RequestQueue}

/-- Rebuilt from a list in the order of the priorities, the waiting queue iterates in that order. -/
theorem rebuildWaiting_pairwise
    (h : rs.Pairwise fun a b => (req a).priority ≤ (req b).priority) :
    ((qm.rebuildWaiting req rs).iter req).Pairwise
      fun a b => (req a).priority ≤ (req b).priority := by
  have hheap : (qm.rebuildWaiting req rs).heap = (RequestQueue.create qm.policy).heap :=
    RequestQueue.heap_foldl_addRequest
  cases hcreate : (RequestQueue.create qm.policy).heap with
  | false =>
    have hitems : (qm.rebuildWaiting req rs).items = rs := by
      rw [rebuildWaiting, RequestQueue.items_foldl_deque hcreate, RequestQueue.items_create,
        List.nil_append]
    simpa [RequestQueue.iter, hheap, hcreate, hitems] using h
  | true =>
    have hempty : Heap.Ordered (fun r => (req r).rank) (RequestQueue.create qm.policy).items :=
      fun i _ => by simp
    exact RequestQueue.iter_pairwise (hheap.trans hcreate)
      (RequestQueue.ordered_foldl_heap hcreate hempty)

/-- The queues that filtering the combined list by the running ids yields. -/
def filterQueues (qm : QueueManager) (req : ReqId → Request) : List ReqId × RequestQueue :=
  (qm.combined.filter fun r => r ∈ qm.runningReqIds,
    qm.rebuildWaiting req (qm.combined.filter fun r => r ∉ qm.runningReqIds))

/-- Every call that returns makes one of the updates, or none. -/
theorem Call.update {c : Call} (h : c.run qm = .ok qm') : Update qm qm' := by
  cases c with
  | newScheduling =>
    rcases updateIdxsAfterNewScheduling_cases h with ⟨-, hsame⟩ | ⟨f, r, u⟩
    exacts [.same hsame, .scheduling u]
  | preemption =>
    rcases updateIdxsAfterPreemption_cases h with ⟨-, hsame⟩ | ⟨l, v, u⟩
    exacts [.same hsame, .preemption u]
  | ignored =>
    rcases updateIdxsAfterIgnored_cases h with ⟨-, hsame⟩ | ⟨f, r, u⟩
    exacts [.same hsame, .drop u]
  | skipped =>
    rcases updateIdxsAfterSkipped_cases h with ⟨-, hsame⟩ | ⟨f, r, u⟩
    exacts [.same hsame, .drop u]

/-- Whatever calls follow the merge, the list stays, and the bookkeeping is exact as far as nothing
was dropped. -/
theorem calls_exact (hnodup : (running ++ waiting).Nodup) {calls : List Call}
    (h : calls.foldlM Call.run (qm.combineQueues req running waiting) = .ok qm') :
    qm'.combined = mergeQueues req running waiting ∧ (qm'.NothingDropped → qm'.Exact) ∧
      qm'.IndexSet := by
  refine foldlM_rule (I := fun _ qm' => qm'.combined = mergeQueues req running waiting ∧
    (qm'.NothingDropped → qm'.Exact) ∧ qm'.IndexSet) h
    ⟨rfl, fun _ => combineQueues_exact hnodup, combineQueues_indexSet⟩ ?_
  rintro c _ t t' ⟨hlist, hexact, hset⟩ hrun
  have u := Call.update hrun
  exact ⟨u.sameList.combined.trans hlist, u.exact hexact, u.indexSet hset⟩

/-- With exact bookkeeping as far as nothing was dropped, cutting the list yields the queues that
filtering yields. -/
theorem updateQueues_filterQueues (h : qm.updateQueues req = .ok (rs, wq))
    (hexact : qm.NothingDropped → qm.Exact) (hset : qm.IndexSet) :
    (rs, wq) = qm.filterQueues req := by
  have hrs := updateQueues_running h hexact
  obtain ⟨ws, rfl, ⟨-, rfl⟩ | hcut⟩ := updateQueues_cut h hset
  · rw [filterQueues, ← hrs]
  · have hin : ∀ r ∈ rs, r ∈ qm.runningReqIds := fun r hr => by
      rw [hrs] at hr
      simpa using (List.mem_filter.mp hr).2
    have hout : ∀ r ∈ ws, r ∉ qm.runningReqIds := by
      have hkeep : rs.filter (fun r => r ∈ qm.runningReqIds) = rs :=
        List.filter_eq_self.mpr (by simpa using hin)
      rw [← hcut, List.filter_append, hkeep] at hrs
      have hnone := List.self_eq_append_right.mp hrs
      simpa using List.filter_eq_nil_iff.mp hnone
    have hws : qm.combined.filter (fun r => r ∉ qm.runningReqIds) = ws := by
      rw [← hcut, List.filter_append, List.filter_eq_nil_iff.mpr (by simpa using hin),
        List.filter_eq_self.mpr (by simpa using hout), List.nil_append]
    rw [filterQueues, ← hrs, hws]

/-- After any calls that follow a merge, the rebuilt queues are those that filtering the combined
list by the running ids yields, by either path; they hold every request of it once, the running
list those of the running ids, each in the order of the priorities. -/
theorem updateQueues_rebuilds (hnodup : (running ++ waiting).Nodup) {calls : List Call}
    (hcalls : calls.foldlM Call.run (qm.combineQueues req running waiting) = .ok qm')
    (hprio : ∀ r, (req' r).priority = (req r).priority)
    (h : qm'.updateQueues req' = .ok (rs, wq)) :
    (rs, wq) = qm'.filterQueues req' ∧ (rs ++ wq.iter req').Perm qm'.combined ∧
      (∀ r ∈ rs, r ∈ qm'.runningReqIds) ∧
      (rs.Pairwise fun a b => (req' a).priority ≤ (req' b).priority) ∧
      (wq.iter req').Pairwise fun a b => (req' a).priority ≤ (req' b).priority := by
  obtain ⟨hlist, hexact, hset⟩ := calls_exact hnodup hcalls
  have hqueues := updateQueues_filterQueues h hexact hset
  have hsorted : qm'.combined.Pairwise fun a b => (req' a).priority ≤ (req' b).priority := by
    rw [hlist]
    simpa only [hprio] using mergeQueues_sorted req running waiting
  have hperm : (rs ++ wq.iter req').Perm qm'.combined :=
    ((RequestQueue.iter_perm req' wq).append_left rs).trans (updateQueues_perm h hset)
  obtain ⟨rfl, rfl⟩ := Prod.mk.inj hqueues
  exact ⟨rfl, hperm, fun r hr => by simpa using (List.mem_filter.mp hr).2,
    hsorted.sublist List.filter_sublist,
    rebuildWaiting_pairwise (hsorted.sublist List.filter_sublist)⟩

/-- Requests with their ids as priorities. -/
def byId (r : ReqId) : Request := { (default : Request) with requestId := r, priority := r }

/-- Two waiting requests are scheduled and one of them is preempted again. -/
theorem updateQueues_rebuilds_byId : ∃ (qm' : QueueManager) (wq : RequestQueue),
    qm'.updateQueues byId = .ok ([1, 2], wq) ∧ ([1, 2], wq) = qm'.filterQueues byId ∧
      (wq.iter byId).Pairwise fun a b => (byId a).priority ≤ (byId b).priority := by
  obtain ⟨qm', hcalls, hqueues⟩ : ∃ qm' : QueueManager, [.newScheduling, .newScheduling, .preemption].foldlM
      Call.run (combineQueues { policy := .priority } byId [1] [4, 3, 2]) = .ok qm' ∧
      Yields (qm'.updateQueues byId) fun q => q.1 = [1, 2] := ⟨_, rfl, by decide +kernel⟩
  obtain ⟨⟨rs, wq⟩, h, hrs⟩ := hqueues.exists_ok
  obtain rfl : rs = [1, 2] := hrs
  obtain ⟨hfilter, -, -, -, hsorted⟩ := updateQueues_rebuilds (by decide) hcalls (fun _ => rfl) h
  exact ⟨qm', wq, h, hfilter, hsorted⟩

end QueueManager

end RpsServe
