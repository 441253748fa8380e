import RpsServe.Scheduler.Steady
import RpsServe.Scheduler.Released
import RpsServe.Scheduler.Untied
import RpsServe.Scheduler.ScheduledSets

/-!
# The victims of a step

Whom a round preempts while it asks for blocks. The victim is looked up through the last
running index, and it is spared when it is more urgent than the candidate. But the two
priorities are compared only when neither of them is zero, so that a request of priority zero
is spared by nobody and spares nobody.
-/

namespace RpsServe

namespace LoopState

variable {K E : Type} {ls t t' u u' : LoopState K E} {q v w x : ReqId} {args : AllocateSlotsArgs}
  {l : ℕ} {kv : K}

/-- No running request stands behind `v` in the combined list. -/
def LeastUrgent (ls : LoopState K E) (v : ReqId) : Prop :=
  ∃ l : ℕ, ls.qm.combined[l]? = some v ∧
    ∀ x, (ls.req x).status = .running → ∃ k : ℕ, k ≤ l ∧ ls.qm.combined[k]? = some x

variable [KVCacheManager K] [EncoderCache E] {cfg : Config} {env : StepEnv}

/-- The discipline of the allocation loop for `q`: it ends after as many rounds as requests run,
and every round but the last preempts another request, the least urgent one that runs, which is not
more urgent than `q`. -/
structure Disciplined (q : ReqId) (args : AllocateSlotsArgs) (ls : LoopState K E) : Prop where
  ends : ∃ n ≤ ls.qm.runningReqIds.card, ∃ t, afterRounds (allocRound q args) n ls = some t ∧
    ∀ t', t.allocRound q args ≠ .ok (.next t')
  wasRunning : ∀ t t' v, AllocPreempts q args ls t t' v → (t.req v).status = .running
  leastUrgent : ∀ t t' v, AllocPreempts q args ls t t' v → t.LeastUrgent v
  notMoreUrgent : ∀ t t' v, AllocPreempts q args ls t t' v →
    (t.req q).priority ≤ (t.req v).priority
  distinct : ∀ t t' v u u' w, AllocPreempts q args ls t t' v → AllocPreempts q args t' u u' w →
    w ≠ v

/-- A round that goes on has one running request less. -/
theorem allocRound_card (h : ls.allocRound q args = .ok (.next t)) :
    t.qm.runningReqIds.card < ls.qm.runningReqIds.card := by
  cases allocRound_outcome h with
  | other hpre _ hvictim =>
    have hu := preemptVictim_update hpre hvictim
    rw [hu.running]
    exact Finset.card_erase_lt_of_mem hu.wasRunning

/-- The running ids only shrink in an allocation loop. -/
theorem visits_running (ht : Visits (allocRound q args) ls t) :
    t.qm.runningReqIds ⊆ ls.qm.runningReqIds := (visits_sameWaiting ht).running

/-- A victim ran before its preemption and does not run after it. -/
theorem AllocPreempts.wasRunning (h : AllocPreempts q args ls t t' v) :
    v ∈ ls.qm.runningReqIds ∧ v ∉ t'.qm.runningReqIds := by
  obtain ⟨t₀, l, kv, ht, hpre, rfl, hvictim⟩ := h
  have hu := preemptVictim_update hpre hvictim
  exact ⟨visits_running ht hu.wasRunning, hu.running ▸ Finset.notMem_erase v _⟩

/-- What is preempted through a sound last running index is the last running request. -/
theorem Steady.leastUrgent (h : Steady ls) (hpre : Preempts q args ls l v kv)
    (hvictim : (ls.setKv kv).preemptVictim v = .ok t') : ls.LeastUrgent v := by
  have hlast := h.last.exact (preemptVictim_update hpre hvictim)
  refine ⟨l, hpre.stands, fun x hx => ?_⟩
  have hR := (h.status x).mp hx
  obtain ⟨k, hk⟩ := List.mem_iff_getElem?.mp (h.parts.running_sub x hR)
  exact ⟨k, hlast.2 k ((QueueManager.standsIn_of_getElem? hk).mpr hR), hk⟩

/-- A round that goes on preempts the request at the last running index. -/
theorem allocPreempts_of_next (hnext : ls.allocRound q args = .ok (.next t'))
    (hlast : ls.qm.lastRunningIdx = some l) (hv : ls.qm.combined[l]? = some v) :
    ∃ kv, AllocPreempts q args ls (ls.setKv kv) t' v := by
  cases allocRound_outcome hnext with
  | @other kv _ _ _ hpre _ hvictim =>
    cases hlast.symm.trans hpre.lastRunning
    cases hv.symm.trans hpre.stands
    exact ⟨kv, ls, l, kv, .start, hpre, rfl, hvictim⟩

/-- Where no candidate outranks its victims, a steady state preempts with discipline. -/
theorem Steady.disciplined (h : Steady ls)
    (hprio : ∀ t l v kv, Visits (allocRound q args) ls t → Preempts q args t l v kv →
      (t.req q).priority ≤ (t.req v).priority) : Disciplined q args ls where
  ends := exists_last_round (fun t => t.qm.runningReqIds.card) (fun _ _ => allocRound_card) ls
  wasRunning t t' v := by
    rintro ⟨t₀, l, kv, -, -, rfl, hvictim⟩
    obtain ⟨-, -, -, hrun, -⟩ := preemptVictim_eq_ok hvictim
    exact hrun
  leastUrgent t t' v := by
    rintro ⟨t₀, l, kv, ht, hpre, rfl, hvictim⟩
    exact ((h.visits ht).leastUrgent hpre hvictim : t₀.LeastUrgent v)
  notMoreUrgent t t' v := by
    rintro ⟨t₀, l, kv, ht, hpre, rfl, -⟩
    exact hprio t₀ l v kv ht hpre
  distinct t t' v u u' w hv hw := by
    rintro rfl
    exact hv.wasRunning.2 hw.wasRunning.1

/-- The two priorities of a preemption are compared when the victim is the more urgent one, and an
admitted candidate is the first waiting request of the queue manager. -/
def Fair : Event K E → Prop
  | .preempt ls q _ v => (ls.req v).priority < (ls.req q).priority →
      (ls.req v).priority ≠ 0 ∧ (ls.req q).priority ≠ 0
  | e => AdmitsFirst e

omit [KVCacheManager K] [EncoderCache E] in
/-- A fair event admits the first candidate. -/
theorem Fair.admitsFirst {e : Event K E} (h : Fair e) : AdmitsFirst e := by
  cases e with
  | admitWaiting => exact h
  | _ => trivial

omit [EncoderCache E] in
/-- Who is compared with the candidate and preempted is not more urgent. -/
theorem Preempts.not_lt (h : Preempts q args ls l v kv)
    (hfair : (ls.req v).priority < (ls.req q).priority →
      (ls.req v).priority ≠ 0 ∧ (ls.req q).priority ≠ 0) :
    (ls.req q).priority ≤ (ls.req v).priority := by
  by_contra hlt
  have hcompared := hfair (not_le.mp hlt)
  have hkeep : keepsPlace (ls.req v) (ls.req q) = true := by
    simp [keepsPlace, hcompared.1, hcompared.2, not_le.mp hlt]
  rw [h.passes] at hkeep
  cases hkeep

/-- The allocation loops of a fair round. -/
theorem Steady.allocates {ls₁ : LoopState K E} {g : Grant} (h : Steady ls)
    (hgood : ∀ e, RoundEvent cfg env ls e → Fair e) (halloc : ls.Allocates cfg env q args g ls₁) :
    Disciplined q args ls₁ := by
  have hdisj := h.parts.running_waiting
  have hs : Steady ls₁ := by
    cases halloc with
    | running => exact h.setEnc _
    | waiting _ hreach hW =>
      obtain ⟨-, rfl⟩ := hreach.of_disjoint hdisj hW
      exact h.setEnc _
  exact hs.disciplined fun t l v kv ht hpre =>
    hpre.not_lt (hgood _ (halloc.preempt hdisj ht hpre))

/-- A round without ties is fair. -/
theorem Walking.fair {e : Event K E} (h : Walking ls) (hu : Untied ls)
    (he : RoundEvent cfg env ls e) : Fair e := by
  have hpositive : ∀ {enc q args t l v kv}, ls.Treats q →
      Visits (allocRound q args) (ls.setEnc enc) t → Preempts q args t l v kv →
      Fair (.preempt t q l v : Event K E) := by
    intro enc q args t l v kv htreats ht hpre _
    obtain ⟨hut, hq⟩ := (h.setEnc enc).visits_untied cfg (hu.setEnc enc) htreats.stands ht
    exact ⟨(hut.positive v (List.mem_of_getElem? hpre.stands)).ne',
      (hut.positive q (List.mem_of_getElem? hq)).ne'⟩
  have hfirst := h.admitsFirst hu he
  cases he with
  | preemptForRunning htreats _ _ _ ht hpre => exact hpositive htreats ht hpre
  | preemptForWaiting htreats _ _ _ _ ht hpre => exact hpositive htreats ht hpre
  | admitWaiting => exact hfirst
  | pass | ignorePrompt | ignoreEncoderInputs | block => trivial

end LoopState

namespace Scheduler

variable {K E : Type} [KVCacheManager K] [EncoderCache E] {cfg : Config} {env : StepEnv}
  {s : Scheduler K E}

/-- A step without ties is fair. -/
theorem fair_of_untied (h : Coherent s) (hu : Begins LoopState.Untied cfg env s) :
    StepMeets LoopState.Fair cfg env s := fun _ hrounds _ he => by
  obtain ⟨hw, hut⟩ := hrounds.untied h hu
  exact hw.fair hut he

end Scheduler

namespace System

open Scheduler

variable {K E : Type} [KVCacheManager K] [EncoderCache E] {cfg : Config} {kv : K} {enc : E}
  {sys : System K E}

/-- Every step is fair. -/
def KeepsFair (cfg : Config) (sys : System K E) : Op → Prop
  | .schedule env => StepMeets LoopState.Fair cfg env sys.sch
  | _ => True

/-- An operation that keeps its events fair admits the first candidates. -/
theorem KeepsFair.keepsFirst {op : Op} (h : KeepsFair cfg sys op) : KeepsFirst cfg sys op := by
  cases op with
  | schedule env => exact fun ls hls e he => (h ls hls e he).admitsFirst
  | _ => trivial

/-- A run without ties is a run of fair steps. -/
theorem keepsFair_of_noTies (h : Run cfg (NoTies cfg) (init cfg kv enc) sys) :
    Run cfg (KeepsFair cfg) (init cfg kv enc) sys := by
  induction h with
  | start => exact .start
  | @step sys _ op hrun hadm hok hs ih =>
    refine .step ih hadm ?_ hs
    cases op with
    | schedule env => exact fair_of_untied (coherent_of_run (keepsOrder_of_noTies hrun)) hok
    | _ => trivial

/-- In every run of fair steps, every allocation loop of a further fair step is disciplined. -/
theorem disciplined_of_run (h : Run cfg (KeepsFair cfg) (init cfg kv enc) sys) (env : StepEnv)
    (hgood : KeepsFair cfg sys (.schedule env)) (ls : LoopState K E)
    (hrounds : Rounds cfg env sys.sch ls) (q : ReqId) (args : AllocateSlotsArgs) (g : Grant)
    (ls₁ : LoopState K E) (halloc : ls.Allocates cfg env q args g ls₁) :
    ls₁.Disciplined q args := by
  have hcoherent := coherent_of_keepsFirst (h.mono fun _ _ hok => hok.keepsFirst)
  have hfirst : StepMeets LoopState.AdmitsFirst cfg env sys.sch :=
    fun ls hls e he => (hgood ls hls e he).admitsFirst
  exact (hrounds.steady hcoherent hfirst).allocates (hgood ls hrounds) halloc

/-- What a waiting candidate asks for, and the variables with which its allocation loop begins. -/
def waitingAsk (cfg : Config) (q : ReqId) (ls : LoopState K E) :
    Option (AllocateSlotsArgs × Grant × LoopState K E) :=
  match ls.cachedPrefix cfg {} q with
  | .ok (some c) =>
    match ls.waitingGrant cfg {} q c with
    | .ok (.granted enc g) => some (LoopState.waitingArgs cfg (ls.req q) c g, g, ls.setEnc enc)
    | _ => none
  | _ => none

/-- The round treats the waiting request `q`, and its allocation loop begins with the given
property. -/
def AsksWaiting (cfg : Config) (q : ReqId) (P : AllocateSlotsArgs → LoopState K E → Prop)
    (ls : LoopState K E) : Prop :=
  (ls.qm.combined[ls.reqIndex]? = some q ∧ 0 < ls.tokenBudget ∧ q ∉ ls.preemptedReqs ∧
    reachesMaxTokens (ls.req q) = false) ∧
    q ∉ ls.qm.runningReqIds ∧ q ∈ ls.qm.waitingReqIds ∧
      oversizePrompt cfg (ls.req q) = false ∧ ∃ a ∈ waitingAsk cfg q ls, P a.1 a.2.2

instance (q : ReqId) (P : AllocateSlotsArgs → LoopState K E → Prop)
    [∀ args ls, Decidable (P args ls)] (ls : LoopState K E) : Decidable (AsksWaiting cfg q P ls) :=
  inferInstanceAs (Decidable (_ ∧ _))

/-- A waiting candidate that asks for slots allocates with some arguments. -/
theorem AsksWaiting.exists_allocates {q : ReqId} {P : AllocateSlotsArgs → LoopState K E → Prop}
    {ls : LoopState K E} (h : AsksWaiting cfg q P ls) :
    ∃ args g ls₁, ls.Allocates cfg {} q args g ls₁ ∧ P args ls₁ := by
  obtain ⟨htreats, hR, hW, hsize, ⟨args, g, ls₁⟩, hask, hP⟩ := h
  refine ⟨args, g, ls₁, ?_, hP⟩
  unfold waitingAsk at hask
  split at hask
  · rename_i c hc
    split at hask
    · rename_i enc g' hg
      cases hask
      exact .waiting ⟨htreats.1, htreats.2.1, htreats.2.2.1, htreats.2.2.2⟩ (if_neg hR) hW hsize hc hg
    · cases hask
  · cases hask

/-- The request `v` is preempted first in an allocation loop, at a state with the given property. -/
def PreemptsFirst (q : ReqId) (args : AllocateSlotsArgs) (l : ℕ) (v : ReqId)
    (ls : LoopState K E) : Prop :=
  ls.qm.lastRunningIdx = some l ∧ ls.qm.combined[l]? = some v ∧
    (afterRounds (LoopState.allocRound q args) 1 ls).isSome = true

instance (q : ReqId) (args : AllocateSlotsArgs) (l : ℕ) (v : ReqId) (ls : LoopState K E) :
    Decidable (PreemptsFirst q args l v ls) := inferInstanceAs (Decidable (_ ∧ _))

/-- What a candidate preempts first is preempted in its allocation loop. -/
theorem PreemptsFirst.exists_allocPreempts {q v : ReqId} {args : AllocateSlotsArgs} {l : ℕ}
    {ls : LoopState K E} (h : PreemptsFirst q args l v ls) :
    ∃ kv t', LoopState.AllocPreempts q args ls (ls.setKv kv) t' v := by
  obtain ⟨hlast, hv, hnext⟩ := h
  obtain ⟨t', ht'⟩ := Option.isSome_iff_exists.mp hnext
  rw [afterRounds] at ht'
  split at ht'
  · rename_i u hu
    obtain ⟨kv, hpre⟩ := LoopState.allocPreempts_of_next hu hlast hv
    exact ⟨kv, u, hpre⟩
  · cases ht'

/-- There are blocks for two short requests. -/
def twoFit : Config := { conservationCfg with numBlocks := 3 }

/-- Two requests that came at time zero run when a third one comes. -/
def comeAtZero : List Op :=
  [.addRequest (shortRequestAt 1 0) fun _ => false, .addRequest (shortRequestAt 2 0) fun _ => false,
    .schedule {}, .addRequest (shortRequestAt 3 1) fun _ => false]

/-- The third request preempts the second one, which came before it. -/
theorem zero_not_spared : ∃ sys ls args g ls₁,
    Run twoFit (fun _ _ => True) (decoderOnly twoFit false 0) sys ∧
      Rounds twoFit {} sys.sch ls ∧ ls.Allocates twoFit {} 3 args g ls₁ ∧
      (ls₁.req 2).priority = 0 ∧ (ls₁.req 3).priority = 1 ∧ ¬ ls₁.Disciplined 3 args := by
  have hlegal : Legal twoFit (fun _ _ => True) (decoderOnly twoFit false 0) comeAtZero := by
    decide +kernel
  obtain ⟨sys, hrun, hround⟩ := Reaches.exists_run comeAtZero
    (P := fun sys => AtRound twoFit sys 2 fun _ ls => AsksWaiting twoFit 3 (fun args ls₁ =>
      (ls₁.req 2).priority = 0 ∧ (ls₁.req 3).priority = 1 ∧ PreemptsFirst 3 args 1 2 ls₁) ls)
    (by decide +kernel) hlegal
  obtain ⟨ls₀, ls, hbegin, ht, hask⟩ := hround.exists_visits
  obtain ⟨args, g, ls₁, halloc, hzero, hprio, hfirst⟩ := hask.exists_allocates
  obtain ⟨kv, t', hpre⟩ := hfirst.exists_allocPreempts
  refine ⟨sys, ls, args, g, ls₁, hrun, ⟨ls₀, hbegin, ht⟩, halloc, hzero, hprio, fun h => ?_⟩
  have hle := h.notMoreUrgent _ _ _ hpre
  rw [LoopState.req_setKv, LoopState.req_setKv, hzero, hprio] at hle
  exact absurd hle (by decide)

/-- A more urgent request preempts the one that runs. -/
theorem disciplined_of_urgentTakesBlocks : ∃ sys ls args g ls₁ t t',
    Run (urgentFirst 3) (KeepsFair (urgentFirst 3)) (decoderOnly (urgentFirst 3) false 0) sys ∧
      Rounds (urgentFirst 3) {} sys.sch ls ∧ ls.Allocates (urgentFirst 3) {} 2 args g ls₁ ∧
      LoopState.AllocPreempts 2 args ls₁ t t' 1 ∧ ls₁.Disciplined 2 args := by
  have hlegal : Legal (urgentFirst 3) (NoTies (urgentFirst 3)) (decoderOnly (urgentFirst 3) false 0)
      urgentTakesTokens := by decide +kernel
  obtain ⟨sys, hrun, hround, huntied⟩ := Reaches.exists_run urgentTakesTokens
    (P := fun sys => (AtRound (urgentFirst 3) sys 0 fun _ ls =>
        AsksWaiting (urgentFirst 3) 2 (fun args ls₁ => PreemptsFirst 2 args 1 1 ls₁) ls) ∧
      NoTies (urgentFirst 3) sys (.schedule {})) (by decide +kernel) hlegal
  obtain ⟨ls₀, ls, hbegin, ht, hask⟩ := hround.exists_visits
  obtain ⟨args, g, ls₁, halloc, hfirst⟩ := hask.exists_allocates
  obtain ⟨kv, t', hpre⟩ := hfirst.exists_allocPreempts
  have huntied : Begins LoopState.Untied (urgentFirst 3) {} sys.sch := huntied
  have hgood := fair_of_untied (coherent_of_run (keepsOrder_of_noTies hrun)) huntied
  have hrun := keepsFair_of_noTies hrun
  exact ⟨sys, ls, args, g, ls₁, _, t', hrun, ⟨ls₀, hbegin, ht⟩, halloc, hpre,
    disciplined_of_run hrun {} hgood ls ⟨ls₀, hbegin, ht⟩ 2 args g ls₁ halloc⟩

end System

end RpsServe
