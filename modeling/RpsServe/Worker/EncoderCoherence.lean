import RpsServe.Scheduler.EncoderSupply
import RpsServe.Scheduler.EncoderWalk
import RpsServe.Scheduler.Untied
import RpsServe.Worker.Replica

/-!
# The two encoder caches

What a worker holds follows from the outputs of the steps alone: each says which encoder outputs to
free and which items to compute. As long as the queued requests have distinct positive priorities
when a step begins, and list their items in the order of the offsets, this is never less than what
the scheduler counts as cached, and it covers the tokens that the step schedules. Nothing is asked
of the KV cache manager, of a KV connector, of work in flight or of streaming sessions.
-/

namespace RpsServe

open EncoderCacheManager

/-! ### The worker's cache -/

/-- The encoder outputs at the worker after a step: those it is told to free go, those of the
scheduled items come. -/
def encoderCacheAfter (W : Finset MmHash) (step : SchedulerOutput × (ReqId → Request)) :
    Finset MmHash :=
  (W \ step.1.freeEncoderMmHashes.toFinset) ∪
    (step.1.scheduledEncoderInputs.entries.flatMap fun e =>
      e.2.map (step.2 e.1).mmHash).toFinset

/-- The encoder outputs at the worker after the steps of the log. -/
def workerEncoderCache (log : StepLog) : Finset MmHash := log.foldl encoderCacheAfter ∅

/-- One more step. -/
theorem workerEncoderCache_append (log : StepLog) (step : SchedulerOutput × (ReqId → Request)) :
    workerEncoderCache (log ++ [step]) = encoderCacheAfter (workerEncoderCache log) step := by
  rw [workerEncoderCache, List.foldl_append]
  rfl

namespace Scheduler

variable {K : Type} {cfg : Config} {env : StepEnv} {s s' : Scheduler K EncoderCacheManager}
  {out : SchedulerOutput} {W : Finset MmHash}

/-- After a step a worker that holds the outputs in `W` misses none: neither one that the scheduler
counts as cached, nor one with embeddings among the tokens that the step scheduled. -/
structure EncoderCoherent (W : Finset MmHash) (out : SchedulerOutput)
    (s' : Scheduler K EncoderCacheManager) : Prop where
  cached : ∀ a ∈ s'.enc.cached.keys, a ∈ W
  needed : ∀ r n, out.numScheduledTokens.get? r = some n → ∀ f ∈ (s'.req r).mmFeatures,
    f.HasEmbedsIn ((s'.req r).numComputedTokens - n) (s'.req r).numComputedTokens →
      f.identifier ∈ W

/-- What a step supplies is at the worker afterwards. -/
theorem Supplies.coherent (h : Supplies W s out s') :
    EncoderCoherent (encoderCacheAfter W (out, s'.req)) out s' := by
  have hcached : ∀ a ∈ s'.enc.cached.keys, a ∈ encoderCacheAfter W (out, s'.req) := by
    intro a ha
    rw [encoderCacheAfter, Finset.mem_union, Finset.mem_sdiff, List.mem_toFinset,
      List.mem_toFinset, List.mem_flatMap]
    refine (h.cached a ha).imp_right ?_
    rintro ⟨r, is, his, i, hi, rfl⟩
    refine ⟨(r, is), Dict.mem_entries_of_get? his, List.mem_map.mpr ⟨i, hi, ?_⟩⟩
    rw [Request.mmHash, Request.mmHash, h.items]
  refine ⟨hcached, fun r n hn f hf hin => hcached _ ?_⟩
  refine h.referred r n hn f (h.items r ▸ hf) ((s'.req r).numComputedTokens - n) (fun m hm => ?_) ?_
  · rw [hn, Option.some.injEq] at hm
    omega
  · rwa [sub_add_cancel]

/-- What the scheduler counts as cached after a step is at the worker, and no eviction is left to
report. -/
theorem Supplies.backed (h : Supplies W s out s') :
    Backed (encoderCacheAfter W (out, s'.req)) s' :=
  ⟨h.coherent.cached, h.reported⟩

end Scheduler

/-! ### Runs -/

namespace System

open Scheduler

section Record

variable {K E : Type} [KVCacheManager K] [EncoderCache E] {cfg : Config} {start sys : System K E}
  {ok : System K E → Op → Prop} {log : StepLog} {op : Op} {ops : List Op}

/-- An operation, with the log of the steps so far. -/
def record (cfg : Config) (p : System K E × StepLog) (op : Op) :
    Except SchedError (System K E × StepLog) := do
  let sys ← p.1.step cfg op
  .ok (sys,
    if op.isSchedule then p.2 ++ sys.outputs.getLast?.toList.map fun out => (out, sys.sch.req)
    else p.2)

/-- Recording a legal operation extends a recorded run. -/
theorem Recorded.record {p : System K E × StepLog} (h : Recorded cfg ok start sys log)
    (hadm : sys.Admissible op) (hok : ok sys op) (hrecord : record cfg (sys, log) op = .ok p) :
    Recorded cfg ok start p.1 p.2 := by
  obtain ⟨sys', hstep, hrecord⟩ := bind_eq_ok.mp hrecord
  cases hrecord
  cases hop : op.isSchedule with
  | false => exact .between h hadm hok hop hstep
  | true =>
    cases op with
    | schedule env =>
      obtain ⟨⟨out, sch⟩, hschedule, hstep⟩ := bind_eq_ok.mp hstep
      cases hstep
      simpa using Recorded.schedule h hok hschedule
    | _ => cases hop

/-- A property of the state and the log that a list of operations leads to. -/
def Records (cfg : Config) (start : System K E) (ops : List Op)
    (P : System K E → StepLog → Prop) : Prop :=
  match ops.foldlM (record cfg) (start, []) with
  | .ok p => P p.1 p.2
  | .error _ => False

instance (P : System K E → StepLog → Prop) [∀ sys log, Decidable (P sys log)] :
    Decidable (Records cfg start ops P) := by
  unfold Records
  split <;> infer_instance

/-- Recording legal operations one after the other. -/
theorem Recorded.fold {p : System K E × StepLog} (h : Recorded cfg ok start sys log)
    (hfold : ops.foldlM (System.record cfg) (sys, log) = .ok p) (hlegal : Legal cfg ok sys ops) :
    Recorded cfg ok start p.1 p.2 := by
  induction ops generalizing sys log with
  | nil =>
    cases hfold
    exact h
  | cons op rest ih =>
    obtain ⟨⟨sys', log'⟩, hrecord, hfold⟩ := foldlM_cons_eq_ok.mp hfold
    obtain ⟨hadm, hok, hlegal⟩ := hlegal
    have hnext := h.record hadm hok hrecord
    obtain ⟨sys₁, hstep, hrecord⟩ := bind_eq_ok.mp hrecord
    cases hrecord
    rw [hstep] at hlegal
    exact ih hnext hfold hlegal

/-- A list of legal operations is a recorded run. -/
theorem Records.exists_recorded (ops : List Op) {P : System K E → StepLog → Prop}
    (h : Records cfg start ops P) (hlegal : Legal cfg ok start ops) :
    ∃ sys log, Recorded cfg ok start sys log ∧ P sys log := by
  unfold Records at h
  split at h
  · rename_i p hfold
    exact ⟨p.1, p.2, Recorded.start.fold hfold hlegal, h⟩
  · exact h.elim

end Record

variable {K : Type} [KVCacheManager K] {cfg : Config} {kv : K} {cacheSize : ℕ}
  {sys : System K EncoderCacheManager} {log : StepLog}

/-- Where a step begins, the queued requests have distinct positive priorities. -/
def RanksApart (cfg : Config) (sys : System K EncoderCacheManager) : Op → Prop
  | .schedule env => Begins LoopState.DistinctPriorities cfg env sys.sch
  | _ => True

/-- Where a step begins, every request lists its items in the order of their offsets. -/
def ListsInOrder (sys : System K EncoderCacheManager) : Op → Prop
  | .schedule _ => ∀ r ∈ sys.sch.objs.keys, (sys.sch.req r).ItemsInOrder
  | _ => True

instance (sys : System K EncoderCacheManager) (op : Op) : Decidable (RanksApart cfg sys op) :=
  match op with
  | .schedule env =>
    inferInstanceAs (Decidable (Begins LoopState.DistinctPriorities cfg env sys.sch))
  | .addRequest _ _ | .updateFromOutput _ _ | .finishRequests _ _ _ | .setPauseState _
  | .resetPrefixCache _ | .updateDraftTokenIds _ _ => .isTrue trivial

instance : DecidablePred Request.ItemsInOrder := fun _ =>
  inferInstanceAs (Decidable (List.Pairwise _ _))

instance (sys : System K EncoderCacheManager) (op : Op) : Decidable (ListsInOrder sys op) :=
  match op with
  | .schedule _ => inferInstanceAs (Decidable (∀ r ∈ sys.sch.objs.keys, _))
  | .addRequest _ _ | .updateFromOutput _ _ | .finishRequests _ _ _ | .setPauseState _
  | .resetPrefixCache _ | .updateDraftTokenIds _ _ => .isTrue trivial

/-- Where the priorities are distinct when a step begins, no request is queued twice, and the step
preempts none that its walk has gone past. -/
theorem RanksApart.spares {env : StepEnv} (h : RanksApart cfg sys (.schedule env))
    {out : SchedulerOutput} {s' : Scheduler K EncoderCacheManager}
    (hschedule : Scheduler.schedule cfg env sys.sch = .ok (out, s')) :
    (sys.sch.running ++ sys.sch.waiting.items).Nodup ∧
      StepMeets LoopState.Spares cfg env sys.sch := by
  have hdistinct : ∀ ls, beginStep cfg env sys.sch = .ok ls → ls.DistinctPriorities :=
    fun ls hbegin => Begins.of_eq_ok h hbegin
  obtain ⟨ls, ⟨ls₀, -, hbegin, -⟩, -⟩ := schedule_eq_ok hschedule
  exact ⟨nodup_of_distinct hdistinct hbegin, spares_of_distinct hdistinct⟩

/-- In every run of such steps the objects are stored under their own ids. -/
theorem named_of_ranksApart (h : Run cfg (RanksApart cfg)
    (init cfg kv (EncoderCacheManager.init cacheSize)) sys) : Named sys.sch := by
  refine h.invariant (I := fun sys => Named sys.sch) (init_named cfg kv _)
    fun sys op sys' hI _ hranks hstep => ?_
  cases hop : op.isSchedule with
  | false => exact step_named_between hop hI hstep
  | true =>
    cases op with
    | schedule env =>
      obtain ⟨⟨out, sch⟩, hschedule, hstep⟩ := bind_eq_ok.mp hstep
      cases hstep
      exact schedule_named_of_nodup (hranks.spares hschedule).1 hI hschedule
    | _ => cases hop

/-- A step over ranked requests with their items in order supplies what its tokens need. -/
theorem supplies_of_ranksApart (hdec : cfg.isEncoderDecoder = false) (hec : cfg.ecConnector = false)
    (h : Run cfg (RanksApart cfg) (init cfg kv (EncoderCacheManager.init cacheSize)) sys)
    {W : Finset MmHash} (hbacked : Backed W sys.sch) {env : StepEnv}
    (hranks : RanksApart cfg sys (.schedule env)) (horder : ListsInOrder sys (.schedule env))
    {out : SchedulerOutput} {s' : Scheduler K EncoderCacheManager}
    (hschedule : Scheduler.schedule cfg env sys.sch = .ok (out, s')) :
    Supplies W sys.sch out s' := by
  have hserves : Serves (fun _ => True) EncoderCacheManager.Consistent sys.sch :=
    .of_cache (consistent_of_run hdec h)
  obtain ⟨hnodup, hspares⟩ := hranks.spares hschedule
  refine Scheduler.schedule_supplies hdec hec hbacked hserves (named_of_ranksApart h) (fun r => ?_)
    hnodup hspares hschedule
  by_cases hr : r ∈ sys.sch.objs.keys
  · exact horder r hr
  · rw [Scheduler.req, Objs.req_of_notMem hr]
    exact .nil

/-- In every run of such steps the worker holds what the scheduler counts as cached. -/
theorem workerEncoderCache_backed (hdec : cfg.isEncoderDecoder = false)
    (hec : cfg.ecConnector = false)
    (h : Recorded cfg (fun sys op => RanksApart cfg sys op ∧ ListsInOrder sys op)
      (init cfg kv (EncoderCacheManager.init cacheSize)) sys log) :
    Backed (workerEncoderCache log) sys.sch := by
  induction h with
  | start => exact ⟨fun a ha => absurd ha List.not_mem_nil, rfl⟩
  | @between sys sys' log op hlog hadm hok hop hstep ih =>
    have hgives : Serves (fun _ => True) (GivesUp sys.sch.enc) sys'.sch :=
      step_frees ⟨fun {_ q i} _ _ hm => .freeEncoderInput q i hm⟩ (fun _ _ _ => trivial) hop
        (.of_cache .refl) (brings_any op) hstep
    exact ih.givesUp hgives.cache (consistent_of_run hdec hlog.run).wf
  | @schedule sys log env out sch hlog hok hschedule ih =>
    rw [workerEncoderCache_append]
    exact (supplies_of_ranksApart hdec hec (hlog.run.mono fun _ _ h => h.1) ih hok.1 hok.2
      hschedule).backed

/-- In every run whose steps begin with distinct positive priorities and items in order, the caches
are coherent after each step. -/
theorem encoderCaches_coherent (hdec : cfg.isEncoderDecoder = false) (hec : cfg.ecConnector = false)
    (h : Recorded cfg (fun sys op => RanksApart cfg sys op ∧ ListsInOrder sys op)
      (init cfg kv (EncoderCacheManager.init cacheSize)) sys log)
    {env : StepEnv} (hranks : RanksApart cfg sys (.schedule env))
    (horder : ListsInOrder sys (.schedule env)) {out : SchedulerOutput}
    {s' : Scheduler K EncoderCacheManager}
    (hschedule : Scheduler.schedule cfg env sys.sch = .ok (out, s')) :
    EncoderCoherent (workerEncoderCache (log ++ [(out, s'.req)])) out s' := by
  rw [workerEncoderCache_append]
  exact (supplies_of_ranksApart hdec hec (h.run.mono fun _ _ h => h.1)
    (workerEncoderCache_backed hdec hec h) hranks horder hschedule).coherent

/-! ### An item that makes room for another -/

/-- Requests are ranked by their deadlines, and four tokens of encoder inputs fit in a step. -/
def itemsByDeadline : Config :=
  { decoderConfig with policy := .edf, maxNumEncoderInputTokens := 4 }

/-- A request with a prompt of eight tokens and the given items. -/
def requestWithItems (r : ReqId) (mmFeatures : List MmFeature) : Request :=
  { promptRequest r 8 with
    mmFeatures := mmFeatures
    requestMd := some { slo := 10 } }

/-- The second of two requests comes when the first one, whose item fills the cache, is gone. -/
def oneItemForAnother : List Op :=
  [.addRequest (requestWithItems 1 [.unmasked 7 0 4]) fun _ => false, .schedule {},
    .finishRequests (some [1]) .finishedAborted fun _ => false,
    .addRequest (requestWithItems 2 [.unmasked 9 2 4]) fun _ => false]

/-- When the item of the second request takes the place of the first one's, the caches are
coherent. -/
theorem encoderCaches_coherent_oneItemForAnother :
    ∃ (sys : System FullAttentionKV EncoderCacheManager) (log : StepLog) (out : SchedulerOutput)
      (s' : Scheduler FullAttentionKV EncoderCacheManager),
      Scheduler.schedule itemsByDeadline {} sys.sch = .ok (out, s') ∧ 7 ∈ workerEncoderCache log ∧
        out.freeEncoderMmHashes = [7] ∧ out.scheduledEncoderInputs.entries = [(2, [0])] ∧
        EncoderCoherent (workerEncoderCache (log ++ [(out, s'.req)])) out s' := by
  have hlegal : Legal itemsByDeadline
      (fun sys op => RanksApart itemsByDeadline sys op ∧ ListsInOrder sys op)
      (decoderOnly itemsByDeadline false 4) oneItemForAnother := by decide +kernel
  obtain ⟨sys, log, hlog, hstep, hranks, horder, hworker⟩ := Records.exists_recorded
    oneItemForAnother (P := fun sys log => AfterStep itemsByDeadline sys (fun out _ =>
        out.freeEncoderMmHashes = [7] ∧ out.scheduledEncoderInputs.entries = [(2, [0])]) ∧
      RanksApart itemsByDeadline sys (.schedule {}) ∧ ListsInOrder sys (.schedule {}) ∧
      7 ∈ workerEncoderCache log) (by decide +kernel) hlegal
  obtain ⟨out, s', hschedule, hfree, hinputs⟩ := hstep.exists_ok
  exact ⟨sys, log, out, s', hschedule, hworker, hfree, hinputs,
    encoderCaches_coherent rfl rfl hlog hranks horder hschedule⟩

/-- Four tokens fit in a step. -/
def fourTokens : Config := { itemsByDeadline with maxNumScheduledTokens := 4 }

/-- A request that lists the item at its end before the one at its begin. -/
def disorderedItems : List Op :=
  [.addRequest (requestWithItems 1 [.unmasked 1 6 2, .unmasked 2 1 2]) fun _ => false]

/-- Of a request that lists its items in another order the step schedules the tokens of an item that
the worker does not have, although the priorities are distinct and positive. -/
theorem encoderCaches_incoherent_disorderedItems :
    ∃ (sys : System FullAttentionKV EncoderCacheManager) (log : StepLog) (out : SchedulerOutput)
      (s' : Scheduler FullAttentionKV EncoderCacheManager),
      Recorded fourTokens (RanksApart fourTokens) (decoderOnly fourTokens false 4) sys log ∧
        RanksApart fourTokens sys (.schedule {}) ∧
        Scheduler.schedule fourTokens {} sys.sch = .ok (out, s') ∧
        ¬ EncoderCoherent (workerEncoderCache (log ++ [(out, s'.req)])) out s' := by
  have hlegal : Legal fourTokens (RanksApart fourTokens) (decoderOnly fourTokens false 4)
      disorderedItems := by decide +kernel
  obtain ⟨sys, log, hlog, hstep, hranks⟩ := Records.exists_recorded disorderedItems
    (P := fun sys log => AfterStep fourTokens sys (fun out s' =>
        out.numScheduledTokens.get? 1 = some 4 ∧ (s'.req 1).numComputedTokens = 4 ∧
        .unmasked 2 1 2 ∈ (s'.req 1).mmFeatures ∧
        2 ∉ workerEncoderCache (log ++ [(out, s'.req)])) ∧
      RanksApart fourTokens sys (.schedule {})) (by decide +kernel) hlegal
  obtain ⟨out, s', hschedule, hnum, hcomputed, hitem, hmissing⟩ := hstep.exists_ok
  refine ⟨sys, log, out, s', hlog, hranks, hschedule, fun h => hmissing ?_⟩
  refine h.needed 1 4 hnum _ hitem ⟨0, by decide, ?_, ?_⟩
  · rw [hcomputed]
    decide
  · rw [hcomputed]
    decide

end System

end RpsServe
