import RpsServe.Scheduler.Untied
import RpsServe.Scheduler.Conservation

/-!
# Priority inversion across the boundary

Where the walk ends, the requests that run must form a prefix of the combined order, but
for ignored and skipped ones: `update_queues` asserts it. The exits at a failed allocation,
at a preempted request and at the end of the list leave such a prefix, and so does the tail
preemption when the token budget is used up. The exits at a waiting candidate that does not
fit (encoder inputs, chunking disabled, block alignment) do nothing about running requests
behind the candidate.
-/

namespace RpsServe

namespace LoopState

variable {K E : Type} {ls : LoopState K E}

/-- Every request that runs stands before every waiting or preempted one that was neither ignored
nor skipped. -/
def NoInversion (ls : LoopState K E) : Prop :=
  ∀ (k j : ℕ) (r x : ReqId), ls.qm.combined[k]? = some r → (ls.req r).status = .running →
    ls.qm.combined[j]? = some x → (ls.req x).status ≠ .running →
    x ∉ ls.qm.ignoredReqIds ∪ ls.qm.skippedReqIds → k < j

/-- With nothing running behind the walk there is no inversion. -/
theorem Walking.noInversion (h : Walking ls) (hahead : Ahead ls) : NoInversion ls := by
  intro k j r x hk hr hj hx hdropped
  have hkr : ls.qm.runningAt k = true :=
    (QueueManager.standsIn_of_getElem? hk).mpr ((h.status r).mp hr)
  have hxR : x ∉ ls.qm.runningReqIds := fun hmem => hx ((h.status x).mpr hmem)
  by_contra hle
  have hbefore : j < ls.reqIndex := by
    have := hahead k hkr
    omega
  rcases h.walk.dropped j hbefore x hj with hmem | hmem
  exacts [hxR hmem, hdropped hmem]

/-- Then the assertion of `update_queues` holds. -/
theorem Walking.adjacent (h : Walking ls) (hahead : Ahead ls)
    (hexact : ls.qm.NothingDropped → ls.qm.Exact) :
    ∃ running waiting, ls.qm.updateQueues ls.req = .ok (running, waiting) := by
  unfold QueueManager.updateQueues
  split
  · exact ⟨_, _, rfl⟩
  · rename_i hnone
    rw [not_or, Finset.not_nonempty_iff_eq_empty, Finset.not_nonempty_iff_eq_empty] at hnone
    have hx := hexact hnone
    split
    · rename_i last first hlast hfirst
      have hgreatest := hx.last
      have hleast := hx.first
      rw [hlast] at hgreatest
      rw [hfirst] at hleast
      have hadjacent : last + 1 = first := by
        have hle : last < first := by
          by_contra hge
          have hlt := hahead last hgreatest.1
          have := h.walk.before first (by omega)
          rw [hleast.1] at this
          cases this
        have hlen := QueueManager.lt_length_of_standsIn hleast.1
        rcases hx.cover (last + 1) (by omega) with hr | hw
        · have := hgreatest.2 _ hr
          omega
        · have := hleast.2 _ hw
          omega
      rw [if_pos hadjacent]
      exact ⟨_, _, rfl⟩
    all_goals exact ⟨_, _, rfl⟩

end LoopState

namespace Scheduler

variable {K E : Type} [KVCacheManager K] [EncoderCache E] {cfg : Config} {env : StepEnv}
  {s : Scheduler K E} {ls : LoopState K E}

/-- At the end of a bounded step nothing runs behind the walk. -/
theorem Walked.ahead (h : Coherent s) (hgood : StepMeets LoopState.Bounded cfg env s)
    (hwalked : Walked cfg env s ls) : ls.Walking ∧ ls.Ahead := by
  have horderly : StepMeets LoopState.Orderly cfg env s := fun t ht e he =>
    (hgood t ht e he).orderly
  refine ⟨hwalked.walking h horderly, ?_⟩
  obtain ⟨ls₀, ls₁, hbegin, hloop, htail⟩ := hwalked
  obtain ⟨t, ht, hexit⟩ := loop_exit hloop
  have hrounds : Rounds cfg env s t := ⟨ls₀, hbegin, ht⟩
  have hw := hrounds.walking h horderly
  have hround := LoopState.round_outcome hw.walk.toParts.running_waiting hexit
  have hw₁ : ls₁.Walking := hw.round hround (horderly t hrounds)
  obtain ⟨-, -, hahead⟩ := hw₁.tailPreempt htail
  exact hahead (hw.exit hround (hgood t hrounds))

end Scheduler

namespace System

open Scheduler

variable {K E : Type} [KVCacheManager K] [EncoderCache E] {cfg : Config}

/-- Every step is bounded. -/
def KeepsBounds (cfg : Config) (sys : System K E) : Op → Prop
  | .schedule env => StepMeets LoopState.Bounded cfg env sys.sch
  | _ => True

/-- An operation that keeps its bounds keeps the order of the queues. -/
theorem KeepsBounds.keepsOrder {sys : System K E} {op : Op} (h : KeepsBounds cfg sys op) :
    KeepsOrder cfg sys op := by
  cases op with
  | schedule env => exact fun ls hls e he => (h ls hls e he).orderly
  | _ => trivial

/-- Besides, no request queued at a step has multimodal items. -/
def Plain (cfg : Config) (sys : System K E) : Op → Prop
  | .schedule env => Begins LoopState.Untied cfg env sys.sch ∧
    Begins LoopState.TextOnly cfg env sys.sch
  | _ => True

instance (sys : System K E) (op : Op) : Decidable (Plain cfg sys op) :=
  match op with
  | .schedule _ => inferInstanceAs (Decidable (_ ∧ _))
  | .addRequest _ _ | .updateFromOutput _ _ | .finishRequests _ _ _ | .setPauseState _
  | .resetPrefixCache _ | .updateDraftTokenIds _ _ => .isTrue trivial

/-- A plain run is a run of bounded steps. -/
theorem keepsBounds_of_plain {kv : K} {enc : E} {sys : System K E}
    (hchunk : cfg.enableChunkedPrefill = true) (halign : cfg.needMambaBlockAlignedSplit = false)
    (h : Run cfg (Plain cfg) (init cfg kv enc) sys) :
    Run cfg (KeepsBounds cfg) (init cfg kv enc) sys := by
  induction h with
  | start => exact .start
  | @step sys _ op _ hadm hok hs ih =>
    refine .step ih hadm ?_ hs
    cases op with
    | schedule env =>
      have hcoherent := coherent_of_run (ih.mono fun _ _ hok => hok.keepsOrder)
      exact bounded_of_untied hcoherent hok.1 hok.2 hchunk halign
    | _ => trivial

/-- In every run of bounded steps, wherever the walk of a further bounded step ends, no request
that waits stands before one that runs, and the queues can be rebuilt. -/
theorem noInversion_of_run {kv : K} {enc : E} {sys : System K E}
    (h : Run cfg (KeepsBounds cfg) (init cfg kv enc) sys) (env : StepEnv)
    (hgood : KeepsBounds cfg sys (.schedule env)) (ls : LoopState K E)
    (hwalked : Walked cfg env sys.sch ls) :
    ls.NoInversion ∧ ∃ running waiting, ls.qm.updateQueues ls.req = .ok (running, waiting) := by
  have hcoherent := coherent_of_run (h.mono fun _ _ hok => hok.keepsOrder)
  obtain ⟨hw, hahead⟩ := hwalked.ahead hcoherent hgood
  obtain ⟨ls₀, hbegin, hmoves⟩ := hwalked.moves hcoherent.nodup
    (fun _ _ _ _ => trivial : StepMeets (fun _ => True) cfg env sys.sch)
  exact ⟨hw.noInversion hahead, hw.adjacent hahead <|
    hmoves.exact fun _ => beginStep_exact hbegin hcoherent.nodup⟩

/-- Prompts are not split. -/
def wholePrompts : Config where
  policy := .edf
  maxNumRunningReqs := 4
  maxNumScheduledTokens := 8
  maxModelLen := 8
  blockSize := 4
  numBlocks := 8
  enableChunkedPrefill := false

/-- A request with a prompt of the given length and a deadline. -/
def dueRequest (r : ReqId) (slo : ℤ) (numPromptTokens : ℕ) : Request where
  requestId := r
  arrivalTime := 0
  maxTokens := 4
  promptTokenIds := List.replicate numPromptTokens 1
  numPromptTokens := numPromptTokens
  allTokenIds := List.replicate numPromptTokens 1
  requestMd := some { slo := slo }

/-- Three requests run and have sampled a token each, when a long prompt comes that is due before
the third of them. -/
def longPromptBetween : List Op :=
  [.addRequest (dueRequest 1 1 2) fun _ => false, .addRequest (dueRequest 2 2 2) fun _ => false,
    .addRequest (dueRequest 3 4 2) fun _ => false, .schedule {},
    .updateFromOutput 0 { sampledTokenIds := fun _ => [5] },
    .addRequest (dueRequest 4 3 7) fun _ => false]

/-- The walk ends at the long prompt with the third request running behind it, and the step
raises. -/
theorem inversion_at_longPrompt : ∃ sys,
    Run wholePrompts (fun _ _ => True) (decoderOnly wholePrompts false 0) sys ∧
      (∃ ls, Walked wholePrompts {} sys.sch ls ∧ ¬ ls.NoInversion ∧
        ls.qm.updateQueues ls.req = .error .queuesNotAdjacent) ∧
      (schedule wholePrompts {} sys.sch).isOk = false := by
  have hlegal : Legal wholePrompts (fun _ _ => True) (decoderOnly wholePrompts false 0)
      longPromptBetween := by decide +kernel
  obtain ⟨sys, hrun, hwalk, hraise⟩ := Reaches.exists_run longPromptBetween
    (P := fun sys => AfterWalk wholePrompts sys (fun ls =>
        ls.qm.combined[3]? = some 3 ∧ (ls.req 3).status = .running ∧
        ls.qm.combined[2]? = some 4 ∧ (ls.req 4).status = .waiting ∧
        4 ∉ ls.qm.ignoredReqIds ∪ ls.qm.skippedReqIds ∧
        ls.qm.updateQueues ls.req = .error .queuesNotAdjacent) ∧
      (schedule wholePrompts {} sys.sch).isOk = false)
    (by decide +kernel) hlegal
  obtain ⟨ls, hwalked, h3, hruns, h2, hwaits, hkept, hqueues⟩ := hwalk.exists_walked
  refine ⟨sys, hrun, ⟨ls, hwalked, fun hno => ?_, hqueues⟩, hraise⟩
  exact absurd (hno 3 2 3 4 h3 hruns h2 (by rw [hwaits]; exact nofun) hkept) (by decide)

/-- A request runs when another one comes. -/
def runsAndComes : List Op :=
  [.addRequest (shortRequest 1) fun _ => false, .schedule {},
    .addRequest (shortRequest 2) fun _ => false]

/-- At the end of a walk of the run nothing that waits stands before what runs. -/
theorem noInversion_of_runsAndComes : ∃ sys ls,
    Run conservationCfg (KeepsBounds conservationCfg) (decoderOnly conservationCfg false 0) sys ∧
      Walked conservationCfg {} sys.sch ls ∧ ls.qm.runningReqIds = {1, 2} ∧ ls.NoInversion ∧
      ∃ running waiting, ls.qm.updateQueues ls.req = .ok (running, waiting) := by
  have hlegal : Legal conservationCfg (Plain conservationCfg) (decoderOnly conservationCfg false 0)
      runsAndComes := by decide +kernel
  obtain ⟨sys, hrun, hwalk, hplain⟩ := Reaches.exists_run runsAndComes
    (P := fun sys => AfterWalk conservationCfg sys (fun ls => ls.qm.runningReqIds = {1, 2}) ∧
      Plain conservationCfg sys (.schedule {}))
    (by decide +kernel) hlegal
  obtain ⟨ls, hwalked, hrunning⟩ := hwalk.exists_walked
  have hrun := keepsBounds_of_plain rfl rfl hrun
  have hcoherent := coherent_of_run (hrun.mono fun _ _ hok => hok.keepsOrder)
  exact ⟨sys, ls, hrun, hwalked, hrunning, noInversion_of_run hrun {}
    (bounded_of_untied hcoherent hplain.1 hplain.2 rfl rfl) ls hwalked⟩

end System

end RpsServe
