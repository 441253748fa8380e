import RpsServe.RequestQueue
import RpsServe.SchedError
import RpsServe.Lib.Scan
import RpsServe.Lib.SortBy
import Mathlib.Data.Finset.Card
import Mathlib.Data.Prod.Lex

/-!
# The queue manager

`QueueManager` merges the running list and the waiting queue into one list in priority
order and keeps, while the scheduling loop walks it, which of its requests are running,
waiting, preempted, ignored or skipped, with the index of the last running and of the
first waiting one. The queue statistics feed only the score of the rankings and are not
part of this state.
-/

namespace RpsServe

/-- The fields of `QueueManager` that the scheduling loop uses. -/
structure QueueManager where
  combined : List ReqId := []
  runningReqIds : Finset ReqId := ∅
  waitingReqIds : Finset ReqId := ∅
  preemptedReqIds : Finset ReqId := ∅
  ignoredReqIds : Finset ReqId := ∅
  skippedReqIds : Finset ReqId := ∅
  lastRunningIdx : Option ℕ := none
  firstWaitingIdx : Option ℕ := none
  policy : SchedulingPolicy
deriving DecidableEq

/-- `reorder_running_queue`, `reorder_waiting_queue`: a stable sort by priority. -/
def reorderQueue (req : ReqId → Request) (queue : List ReqId) : List ReqId :=
  sortBy (fun r => (req r).priority) queue

namespace QueueManager

/-- Whether the request at an index of the combined list is one of `ids`. -/
def standsIn (qm : QueueManager) (ids : Finset ReqId) (i : ℕ) : Bool :=
  match qm.combined[i]? with
  | some r => r ∈ ids
  | none => false

/-- The last running index below `n`. -/
def scanLastRunning (qm : QueueManager) (n : ℕ) : Option ℕ :=
  lastBelow (qm.standsIn qm.runningReqIds) n

/-- The first waiting or preempted index from `start` on. -/
def scanFirstWaiting (qm : QueueManager) (start : ℕ) : Option ℕ :=
  firstFrom (qm.standsIn (qm.waitingReqIds ∪ qm.preemptedReqIds)) start (qm.combined.length - start)

/-- The queue type `combine_queues` sorts by after the priority: running, preempted, waiting. -/
def runningKind (req : ReqId → Request) (r : ReqId) : ℕ :=
  if (req r).status = .preempted then 1 else 0

/-- The combined list: by priority, then by queue type, then by the order of the queues. -/
def mergeQueues (req : ReqId → Request) (running waiting : List ReqId) : List ReqId :=
  (sortBy (fun e : ℕ × ReqId => toLex ((req e.2).priority, e.1))
    (running.map (fun r => (runningKind req r, r)) ++ waiting.map fun r => (2, r))).map Prod.snd

/-- `combine_queues`. The ignored and the skipped ids of earlier steps are kept. -/
def combineQueues (qm : QueueManager) (req : ReqId → Request) (running waiting : List ReqId) :
    QueueManager :=
  let qm := { qm with
    combined := mergeQueues req running waiting
    runningReqIds := (running.filter fun r => (req r).status ≠ RequestStatus.preempted).toFinset
    waitingReqIds := waiting.toFinset
    preemptedReqIds := (running.filter fun r => (req r).status = RequestStatus.preempted).toFinset }
  { qm with
    lastRunningIdx := qm.scanLastRunning qm.combined.length
    firstWaitingIdx := qm.scanFirstWaiting 0 }

/-- The waiting queue rebuilt from a part of the combined list. -/
def rebuildWaiting (qm : QueueManager) (req : ReqId → Request) (rs : List ReqId) : RequestQueue :=
  rs.foldl (RequestQueue.addRequest req) (RequestQueue.create qm.policy)

/-- `update_queues`: the new running list and waiting queue. -/
def updateQueues (qm : QueueManager) (req : ReqId → Request) :
    Except SchedError (List ReqId × RequestQueue) :=
  if qm.ignoredReqIds.Nonempty ∨ qm.skippedReqIds.Nonempty then
    .ok (qm.combined.filter fun r => r ∈ qm.runningReqIds,
      qm.rebuildWaiting req (qm.combined.filter fun r => r ∉ qm.runningReqIds))
  else
    match qm.lastRunningIdx, qm.firstWaitingIdx with
    | some last, some first =>
      if last + 1 = first then
        .ok (qm.combined.take first, qm.rebuildWaiting req (qm.combined.drop first))
      else .error .queuesNotAdjacent
    | some _, none => .ok (qm.combined, qm.rebuildWaiting req [])
    | none, some _ => .ok ([], qm.rebuildWaiting req qm.combined)
    | none, none => .ok ([], qm.rebuildWaiting req [])

/-- `update_idxs_after_preemption`: the last running request becomes a preempted one. -/
def updateIdxsAfterPreemption (qm : QueueManager) : Except SchedError QueueManager :=
  match qm.lastRunningIdx with
  | none => .ok qm
  | some last =>
    match qm.combined[last]? with
    | none => .error .indexError
    | some r =>
      if r ∉ qm.runningReqIds then .error .keyError
      else
        let qm := { qm with
          runningReqIds := qm.runningReqIds.erase r
          preemptedReqIds := insert r qm.preemptedReqIds }
        let qm := { qm with lastRunningIdx := qm.scanLastRunning (last + 1) }
        if qm.lastRunningIdx = none ∧ 0 < qm.waitingReqIds.card + qm.preemptedReqIds.card then
          if qm.firstWaitingIdx = some 0 then .ok qm else .error .firstWaitingNotZero
        else
          match qm.firstWaitingIdx with
          | some first => .ok { qm with firstWaitingIdx := some (if last < first then last else first) }
          | none => .ok { qm with firstWaitingIdx := some (qm.combined.length - 1) }

/-- `update_idxs_after_new_scheduling`: the first waiting request becomes a running one. -/
def updateIdxsAfterNewScheduling (qm : QueueManager) : Except SchedError QueueManager :=
  match qm.firstWaitingIdx with
  | none => .ok qm
  | some first =>
    match qm.combined[first]? with
    | none => .error .indexError
    | some r =>
      let qm := { qm with
        waitingReqIds := qm.waitingReqIds.erase r
        preemptedReqIds := qm.preemptedReqIds.erase r
        runningReqIds := insert r qm.runningReqIds }
      let qm := { qm with firstWaitingIdx := qm.scanFirstWaiting first }
      if qm.firstWaitingIdx = none ∧ 0 < qm.runningReqIds.card then
        .ok { qm with lastRunningIdx := some (qm.combined.length - 1) }
      else
        match qm.lastRunningIdx with
        | some last => .ok { qm with lastRunningIdx := some (if last < first then first else last) }
        | none => .ok { qm with lastRunningIdx := some 0 }

/-- What `update_idxs_after_ignored` and `update_idxs_after_skipped` share: the first waiting
request leaves the waiting ids and is put into the ids that `mark` writes. -/
def dropFirstWaiting (mark : ReqId → QueueManager → QueueManager) (qm : QueueManager) :
    Except SchedError QueueManager :=
  match qm.firstWaitingIdx with
  | none => .ok qm
  | some first =>
    match qm.combined[first]? with
    | none => .error .indexError
    | some r =>
      if r ∉ qm.waitingReqIds then .error .keyError
      else
        let qm := mark r { qm with waitingReqIds := qm.waitingReqIds.erase r }
        .ok { qm with firstWaitingIdx := qm.scanFirstWaiting first }

/-- `update_idxs_after_ignored`. -/
def updateIdxsAfterIgnored (qm : QueueManager) : Except SchedError QueueManager :=
  qm.dropFirstWaiting fun r qm => { qm with ignoredReqIds := insert r qm.ignoredReqIds }

/-- `update_idxs_after_skipped`. -/
def updateIdxsAfterSkipped (qm : QueueManager) : Except SchedError QueueManager :=
  qm.dropFirstWaiting fun r qm => { qm with skippedReqIds := insert r qm.skippedReqIds }

end QueueManager

end RpsServe
