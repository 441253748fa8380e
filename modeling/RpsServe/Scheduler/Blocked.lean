import RpsServe.Scheduler.Frame
import RpsServe.Scheduler.Conservation

/-!
# Blocked requests

A request with a blocked status is put into the second waiting queue. The candidates of a
step are merged from the running list and the first waiting queue only: nothing reads the
second one, so that what was put there stays there.
-/

namespace RpsServe

namespace Scheduler

variable {K E : Type} [KVCacheManager K] [EncoderCache E] {cfg : Config} {env : StepEnv}
  {s s' : Scheduler K E} {out : SchedulerOutput} {r : ReqId}

/-- A step gives tokens only to requests of the running list and of the waiting queue. -/
theorem scheduled_queued (hnodup : (s.running ++ s.waiting.items).Nodup)
    (hschedule : schedule cfg env s = .ok (out, s')) (hr : r ∈ out.numScheduledTokens.keys) :
    r ∈ s.running ++ s.waiting.items := by
  obtain ⟨ls, hwalked, hfinish⟩ := schedule_eq_ok hschedule
  obtain ⟨ls₀, hbegin, hmoves⟩ := hwalked.moves hnodup
    (fun _ _ _ _ => trivial : StepMeets (fun _ => True) cfg env s)
  have hscheduled : ls.qm.combined = ls₀.qm.combined ∧
      ∀ x ∈ ls.numScheduledTokens.keys, x ∈ ls₀.qm.combined := by
    refine hmoves.invariant (I := fun t => t.qm.combined = ls₀.qm.combined ∧
      ∀ x ∈ t.numScheduledTokens.keys, x ∈ ls₀.qm.combined) ⟨rfl, ?_⟩ fun t t' hI hmove => ?_
    · obtain ⟨objs, requests, -, -, -, rfl⟩ := beginStep_eq_ok hbegin
      exact fun x hx => absurd hx List.not_mem_nil
    · refine ⟨hmove.frame.combined.trans hI.1, fun x hx => ?_⟩
      rcases hmove.scheduled_mem x hx with hx | hx
      exacts [hI.2 x hx, hI.1 ▸ hx]
  rw [(finishStep_spec hfinish).numScheduledTokens] at hr
  exact (beginStep_combined hbegin).mem_iff.mp (hscheduled.2 r hr)

/-- The next step gives the request tokens. -/
def ComesBack (cfg : Config) (env : StepEnv) (s : Scheduler K E) (r : ReqId) : Prop :=
  ∃ out s', schedule cfg env s = .ok (out, s') ∧ r ∈ out.numScheduledTokens.keys

/-- A request that was put into the second waiting queue does not come back, be nothing else
schedulable and whatever has become of its blocking condition; it stays there. -/
theorem not_comesBack (env : StepEnv) (hr : r ∈ s.skippedWaiting.items) (hrunning : s.running = [])
    (hwaiting : s.waiting.items = []) : ¬ ComesBack cfg env s r ∧
      ∀ out s', schedule cfg env s = .ok (out, s') → r ∈ s'.skippedWaiting.items := by
  have hnone : s.running ++ s.waiting.items = [] := by rw [hrunning, hwaiting, List.append_nil]
  constructor
  · rintro ⟨out, s', hschedule, hkey⟩
    have hmem := scheduled_queued (hnone ▸ List.nodup_nil) hschedule hkey
    rw [hnone] at hmem
    exact List.not_mem_nil hmem
  · intro out s' hschedule
    rwa [(schedule_frame (hnone ▸ List.nodup_nil) hschedule).skippedWaiting]

end Scheduler

namespace System

open Scheduler

/-- A session whose chunks end after one token. -/
def chunk (r : ReqId) : Request := { shortRequest r with maxTokens := 1, resumable := true }

/-- A session runs its first chunk to the end, and the second one comes. -/
def nextChunk : List Op :=
  [.addRequest (chunk 1) fun _ => false, .schedule {},
    .updateFromOutput 0 { sampledTokenIds := fun _ => [5] }, .addRequest (chunk 1) fun _ => false]

/-- The state with the second waiting queue in the place of the first. -/
def unblocked {K E : Type} (s : Scheduler K E) : Scheduler K E :=
  { s with waiting := s.skippedWaiting, skippedWaiting := s.waiting }

/-- The session is not taken up again, although its status is `WAITING`, nothing else is queued, and
a step would give it tokens if it stood in the other queue. -/
theorem session_stays_blocked : ∃ sys,
    Run conservationCfg (fun _ _ => True) (decoderOnly conservationCfg false 0) sys ∧
      sys.sch.pauseState = .unpaused ∧ sys.sch.skippedWaiting.items = [1] ∧
      (sys.sch.req 1).status = .waiting ∧ sys.sch.running = [] ∧ sys.sch.waiting.items = [] ∧
      ComesBack conservationCfg {} (unblocked sys.sch) 1 ∧
      ¬ ComesBack conservationCfg {} sys.sch 1 := by
  have hlegal : Legal conservationCfg (fun _ _ => True) (decoderOnly conservationCfg false 0)
      nextChunk := by decide +kernel
  obtain ⟨sys, hrun, hpause, hskipped, hstatus, hrunning, hwaiting, hother, hnone⟩ :=
    Reaches.exists_run nextChunk
      (P := fun sys => sys.sch.pauseState = .unpaused ∧ sys.sch.skippedWaiting.items = [1] ∧
        (sys.sch.req 1).status = .waiting ∧ sys.sch.running = [] ∧ sys.sch.waiting.items = [] ∧
        (AfterStep conservationCfg { sys with sch := unblocked sys.sch }
          fun out _ => 1 ∈ out.numScheduledTokens.keys) ∧
        (schedule conservationCfg {} sys.sch).isOk = true) (by decide +kernel) hlegal
  obtain ⟨out, s', hok, hkey⟩ := hother.exists_ok
  refine ⟨sys, hrun, hpause, hskipped, hstatus, hrunning, hwaiting, ⟨out, s', hok, hkey⟩, ?_⟩
  rintro ⟨out, s', hschedule, hkey⟩
  have hnil : sys.sch.running ++ sys.sch.waiting.items = [] := by
    rw [hrunning, hwaiting, List.append_nil]
  have hmem := scheduled_queued (hnil ▸ List.nodup_nil) hschedule hkey
  rw [hnil] at hmem
  exact List.not_mem_nil hmem

/-- A request comes with a grammar that is not compiled yet. -/
def grammarRequested : List Op :=
  [.addRequest { shortRequest 1 with useStructuredOutput := true } fun _ => false]

/-- A request whose grammar is not ready stays in the second waiting queue. -/
theorem not_comesBack_of_grammar : ∃ sys,
    Run conservationCfg (fun _ _ => True) (decoderOnly conservationCfg false 0) sys ∧
      (sys.sch.req 1).status = .waitingForStructuredOutputGrammar ∧
      sys.sch.skippedWaiting.items = [1] ∧ ¬ ComesBack conservationCfg {} sys.sch 1 ∧
      ∀ out s', schedule conservationCfg {} sys.sch = .ok (out, s') →
        1 ∈ s'.skippedWaiting.items := by
  have hlegal : Legal conservationCfg (fun _ _ => True) (decoderOnly conservationCfg false 0)
      grammarRequested := by decide +kernel
  obtain ⟨sys, hrun, hstatus, hskipped, hrunning, hwaiting⟩ := Reaches.exists_run grammarRequested
    (P := fun sys => (sys.sch.req 1).status = .waitingForStructuredOutputGrammar ∧
      sys.sch.skippedWaiting.items = [1] ∧ sys.sch.running = [] ∧ sys.sch.waiting.items = [])
    (by decide +kernel) hlegal
  exact ⟨sys, hrun, hstatus, hskipped,
    not_comesBack {} (by rw [hskipped]; decide) hrunning hwaiting⟩

end System

end RpsServe
