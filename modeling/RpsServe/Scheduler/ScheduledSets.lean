import RpsServe.Scheduler.Untied
import RpsServe.Scheduler.Conservation

/-!
# The sets of a step

The lists of scheduled requests in a step's output, the keys of its token map, its preempted
ids and the running list afterwards fit together, as long as no preemption of the step takes a
request that the walk has gone past. The victim test compares priorities: among equal ones
it takes a request that stands before the candidate and was scheduled already, and only those
scheduled as running requests are rolled back.
-/

namespace RpsServe

/-- The ids of the newly scheduled, the running and the resumed requests of a step. -/
def SchedulerOutput.scheduledIds (out : SchedulerOutput) : List ReqId :=
  out.scheduledNewReqs.map NewRequestData.reqId ++ out.scheduledCachedReqs.reqIds

namespace Scheduler

variable {K E : Type} {cfg : Config} {env : StepEnv} {s s' : Scheduler K E}
  {out : SchedulerOutput} {ls : LoopState K E}

/-- The sets of a step fit together: no request is listed twice, the listed requests are those
with tokens, none of them was preempted, all of them run, and the running list holds what runs. -/
structure SetsAgree (out : SchedulerOutput) (s' : Scheduler K E) : Prop where
  nodup : out.scheduledIds.Nodup
  keys : ∀ r, r ∈ out.numScheduledTokens.keys ↔ r ∈ out.scheduledIds
  resumed : out.scheduledCachedReqs.resumedReqIds ⊆ out.scheduledCachedReqs.reqIds.toFinset
  preempted : ∀ r ∈ out.numScheduledTokens.keys, r ∉ out.preemptedReqIds
  scheduled : ∀ r ∈ out.numScheduledTokens.keys, (s'.req r).status = .running ∧ r ∈ s'.running
  running : ∀ r, r ∈ s'.running ↔ (s'.req r).status = .running

/-- The data of the cached requests is listed for the running ones, then for the resumed ones. -/
theorem makeCachedRequestData_ids {resumedReqs : List ReqId} {data : CachedRequestData}
    (h : ls.makeCachedRequestData resumedReqs = .ok data) :
    data.reqIds = ls.scheduledRunningReqs ++ resumedReqs ∧
      data.resumedReqIds = resumedReqs.toFinset := by
  unfold LoopState.makeCachedRequestData at h
  dsimp only at h
  split at h
  · cases h
  · obtain ⟨blocks, -, h⟩ := bind_eq_ok.mp h
    cases h
    exact ⟨rfl, rfl⟩

variable [KVCacheManager K] [EncoderCache E]

/-- The output lists what the loop has scheduled. -/
theorem finishStep_scheduledIds (h : finishStep cfg ls = .ok (out, s')) :
    out.scheduledIds.Perm ls.scheduledReqs ∧
      out.scheduledCachedReqs.resumedReqIds ⊆ out.scheduledCachedReqs.reqIds.toFinset := by
  obtain ⟨⟨running, waiting⟩, -, h⟩ := bind_eq_ok.mp h
  obtain ⟨⟨⟩, -, h⟩ := bind_eq_ok.mp h
  obtain ⟨⟨out', s₁⟩, hmake, h⟩ := bind_eq_ok.mp h
  obtain ⟨s₂, -, h⟩ := bind_eq_ok.mp h
  cases h
  obtain ⟨newReqsData, hnew, hmake⟩ := bind_eq_ok.mp hmake
  obtain ⟨cachedReqsData, hcached, hmake⟩ := bind_eq_ok.mp hmake
  cases hmake
  have hnewIds := map_of_mapM_eq_ok (g := NewRequestData.reqId) hnew fun r data hdata => by
    obtain ⟨blocks, -, hdata⟩ := bind_eq_ok.mp hdata
    cases hdata
    rfl
  obtain ⟨hreqIds, hresumed⟩ := makeCachedRequestData_ids hcached
  constructor
  · rw [SchedulerOutput.scheduledIds, hnewIds, hreqIds, LoopState.scheduledReqs]
    split
    · rw [List.append_nil]
    · rw [List.append_assoc]
      exact List.perm_append_comm.append_left _
  · intro r hr
    rw [hresumed, List.mem_toFinset] at hr
    rw [hreqIds, List.mem_toFinset]
    exact List.mem_append_right _ hr

/-- The sets of an orderly step fit together. -/
theorem setsAgree_of_orderly (h : Coherent s) (hgood : StepMeets LoopState.Orderly cfg env s)
    (hschedule : schedule cfg env s = .ok (out, s')) : SetsAgree out s' := by
  have hcoherent := schedule_coherent h hgood hschedule
  obtain ⟨ls, hwalked, hfinish⟩ := schedule_eq_ok hschedule
  have hw := hwalked.walking h hgood
  obtain ⟨ls₀, hbegin, hmoves⟩ := hwalked.moves h.nodup
    (fun _ _ _ _ => trivial : StepMeets (fun _ => True) cfg env s)
  have hfin := finishStep_spec hfinish
  have hrunning := QueueManager.updateQueues_running hfin.queues
    (hmoves.exact fun _ => beginStep_exact hbegin h.nodup)
  obtain ⟨hids, hresumed⟩ := finishStep_scheduledIds hfinish
  have hkeys : ∀ r, r ∈ out.numScheduledTokens.keys ↔ r ∈ ls.scheduledReqs := fun r => by
    rw [hfin.numScheduledTokens]
    exact hw.scheduledKeys r
  have hruns : ∀ r ∈ out.numScheduledTokens.keys, r ∈ ls.qm.runningReqIds := fun r hr =>
    (hw.scheduled r ((hkeys r).mp hr)).1
  have hlist : ∀ r ∈ out.numScheduledTokens.keys, r ∈ s'.running := fun r hr => by
    rw [hrunning, List.mem_filter, decide_eq_true_eq]
    exact ⟨hw.walk.running_sub r (hruns r hr), hruns r hr⟩
  exact {
    nodup := hids.nodup_iff.mpr hw.scheduledNodup
    keys := fun r => (hkeys r).trans hids.mem_iff.symm
    resumed := hresumed
    preempted := fun r hr hp => by
      rw [hfin.preemptedReqIds, List.mem_toFinset] at hp
      exact Finset.disjoint_left.mp hw.walk.toParts.running_preempted (hruns r hr)
        (hw.preempted r hp)
    scheduled := fun r hr => ⟨(hcoherent.status r).mpr (hlist r hr), hlist r hr⟩
    running := fun r => (hcoherent.status r).symm }

end Scheduler

namespace System

open Scheduler

variable {K E : Type} [KVCacheManager K] [EncoderCache E] {cfg : Config}

/-- In every run of orderly steps the sets of a further orderly step that returns fit together. -/
theorem setsAgree_of_run {kv : K} {enc : E} {sys : System K E}
    (h : Run cfg (KeepsOrder cfg) (init cfg kv enc) sys) (env : StepEnv)
    (hgood : KeepsOrder cfg sys (.schedule env)) (out : SchedulerOutput) (s' : Scheduler K E)
    (hschedule : schedule cfg env sys.sch = .ok (out, s')) : SetsAgree out s' :=
  setsAgree_of_orderly (coherent_of_run h) hgood hschedule

/-- Blocks for two short requests. -/
def twoBlocks : Config := { conservationCfg with numBlocks := 3 }

/-- A short request that came at the given time. -/
def shortRequestAt (r : ReqId) (arrivalTime : ℤ) : Request :=
  { shortRequest r with arrivalTime := arrivalTime }

/-- A request runs, its step unanswered, when two come at one time. -/
def comeTogether : List Op :=
  [.addRequest (shortRequestAt 1 1) fun _ => false, .schedule {},
    .addRequest (shortRequestAt 2 2) fun _ => false, .addRequest (shortRequestAt 3 2) fun _ => false]

/-- Of two requests that came at one time the second preempts the first, which stays among the
scheduled ones. -/
theorem tie_preempts_scheduled : ∃ sys out s',
    Run twoBlocks (fun _ _ => True) (decoderOnly twoBlocks false 0) sys ∧
      schedule twoBlocks {} sys.sch = .ok (out, s') ∧ 2 ∈ out.numScheduledTokens.keys ∧
      2 ∈ out.preemptedReqIds ∧ ¬ SetsAgree out s' := by
  have hlegal : Legal twoBlocks (fun _ _ => True) (decoderOnly twoBlocks false 0) comeTogether := by
    decide +kernel
  obtain ⟨sys, hrun, hstep⟩ := Reaches.exists_run comeTogether
    (P := fun sys => AfterStep twoBlocks sys fun out _ =>
      2 ∈ out.numScheduledTokens.keys ∧ 2 ∈ out.preemptedReqIds) (by decide +kernel) hlegal
  obtain ⟨out, s', hok, hkey, hpreempted⟩ := hstep.exists_ok
  exact ⟨sys, out, s', hrun, hok, hkey, hpreempted, fun h => h.preempted 2 hkey hpreempted⟩

/-- The same requests, but the third comes later. -/
def comeInTurn : List Op :=
  [.addRequest (shortRequestAt 1 1) fun _ => false, .schedule {},
    .addRequest (shortRequestAt 2 2) fun _ => false, .addRequest (shortRequestAt 3 3) fun _ => false]

/-- Two requests that come in turn are scheduled into sets that agree. -/
theorem setsAgree_of_comeInTurn : ∃ sys out s',
    Run twoBlocks (KeepsOrder twoBlocks) (decoderOnly twoBlocks false 0) sys ∧
      schedule twoBlocks {} sys.sch = .ok (out, s') ∧ out.scheduledIds = [2] ∧
      SetsAgree out s' := by
  have hlegal : Legal twoBlocks (NoTies twoBlocks) (decoderOnly twoBlocks false 0) comeInTurn := by
    decide +kernel
  obtain ⟨sys, hrun, hstep, huntied⟩ := Reaches.exists_run comeInTurn
    (P := fun sys => (AfterStep twoBlocks sys fun out _ => out.scheduledIds = [2]) ∧
      NoTies twoBlocks sys (.schedule {})) (by decide +kernel) hlegal
  obtain ⟨out, s', hok, hids⟩ := hstep.exists_ok
  have hrun := keepsOrder_of_noTies hrun
  exact ⟨sys, out, s', hrun, hok, hids,
    setsAgree_of_run hrun {} (orderly_of_untied (coherent_of_run hrun) huntied) out s' hok⟩

end System

end RpsServe
