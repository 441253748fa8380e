import RpsServe.Request
import RpsServe.Lib.Heap

/-!
# Request queues

`FCFSRequestQueue` is a deque and `PriorityRequestQueue` a `heapq` heap ordered by
`Request.__lt__`; iterating over the heap pops a copy until it is empty. A queue holds ids
and reads the objects when it compares them, so a request whose priority changes while it
is queued stays where it is in the heap.
-/

namespace RpsServe

/-- `SchedulingPolicy`. The score of policy `priority` is the `rps` one. -/
inductive SchedulingPolicy where
  | fcfs
  | priority
  | edf
  | catfcfs
  | waitOnly
deriving DecidableEq, Repr

/-- A request queue: a deque, or a heap in the order of its array. -/
structure RequestQueue where
  heap : Bool
  items : List ReqId
deriving DecidableEq

namespace RequestQueue

/-- `create_request_queue`. -/
def create (policy : SchedulingPolicy) : RequestQueue where
  heap := match policy with
    | .fcfs => false
    | .priority | .edf | .catfcfs | .waitOnly => true
  items := []

/-- The comparison of the heap. -/
def before (req : ReqId → Request) (a b : ReqId) : Bool := (req a).lt (req b)

/-- `RequestQueue.add_request`. -/
def addRequest (req : ReqId → Request) (q : RequestQueue) (r : ReqId) : RequestQueue :=
  { q with items := if q.heap then Heap.push (before req) q.items r else q.items ++ [r] }

/-- `RequestQueue.remove_requests`. -/
def removeRequests (req : ReqId → Request) (q : RequestQueue) (rs : List ReqId) : RequestQueue :=
  let kept := q.items.filter fun r => r ∉ rs
  { q with items := if q.heap then Heap.heapify (before req) kept else kept }

/-- `__iter__`. -/
def iter (req : ReqId → Request) (q : RequestQueue) : List ReqId :=
  if q.heap then Heap.drain (before req) q.items.length q.items else q.items

/-- A queue is created empty. -/
@[simp] theorem items_create (policy : SchedulingPolicy) : (create policy).items = [] := rfl

/-- Adding puts the request among the others. -/
theorem items_addRequest_perm (req : ReqId → Request) (q : RequestQueue) (r : ReqId) :
    (q.addRequest req r).items.Perm (q.items ++ [r]) := by
  unfold addRequest
  split
  · exact Heap.push_perm _ _ _
  · exact List.Perm.refl _

/-- Removing keeps exactly the others. -/
theorem items_removeRequests_perm (req : ReqId → Request) (q : RequestQueue) (rs : List ReqId) :
    (q.removeRequests req rs).items.Perm (q.items.filter fun r => r ∉ rs) := by
  unfold removeRequests
  split
  · exact Heap.heapify_perm _ _
  · exact List.Perm.refl _

/-- Iteration yields every queued request once. -/
theorem iter_perm (req : ReqId → Request) (q : RequestQueue) : (q.iter req).Perm q.items := by
  unfold iter
  split
  · exact Heap.drain_perm _ le_rfl
  · exact List.Perm.refl _

/-- Adding a list of requests one after the other. -/
theorem items_foldl_addRequest_perm (req : ReqId → Request) (rs : List ReqId) (q : RequestQueue) :
    (rs.foldl (addRequest req) q).items.Perm (q.items ++ rs) := by
  induction rs generalizing q with
  | nil => simp
  | cons r rest ih =>
    have hhead : ((q.addRequest req r).items ++ rest).Perm (q.items ++ r :: rest) := by
      simpa using (items_addRequest_perm req q r).append_right rest
    exact (ih (q.addRequest req r)).trans hhead

end RequestQueue

end RpsServe
