import RpsServe.Scheduler.Coherent
import RpsServe.QueueManager.LastRunning

/-!
# Steady steps

What the loop keeps of its bookkeeping when preemptions may overtake the walk: the running ids
are the requests with status `RUNNING`, and the last running index is sound. The one way to
break this is an admission that moves another request into the running ids than the one that
is admitted, since the update takes the first waiting request of the list, whichever that is.
-/

namespace RpsServe

namespace LoopState

variable {K E : Type}

/-- The bookkeeping that every preemption relies on. -/
structure Steady (ls : LoopState K E) : Prop where
  parts : ls.qm.Parts
  last : ls.qm.LastSound
  known : ∀ r ∈ ls.qm.combined, r ∈ ls.sch.objs.keys
  status : ∀ r, (ls.req r).status = .running ↔ r ∈ ls.qm.runningReqIds

variable {r q v : ReqId} {args : AllocateSlotsArgs} {l : ℕ} {ls ls' t t' : LoopState K E}

namespace Steady

/-- An update of the queue manager keeps the bookkeeping if it keeps the status of what runs. -/
theorem of_update (h : Steady ls) (u : QueueManager.Update ls.qm ls'.qm)
    (hkeys : ls'.sch.objs.keys = ls.sch.objs.keys)
    (hstatus : ∀ x, (ls'.req x).status = .running ↔ x ∈ ls'.qm.runningReqIds) : Steady ls' where
  parts := u.parts h.parts
  last := u.lastSound h.parts h.last
  known r hr := by
    rw [hkeys]
    exact h.known r (u.sameList.combined ▸ hr)
  status := hstatus

/-- The caches are no part of the bookkeeping. -/
theorem caches (h : Steady ls) (kv : K) (enc : E) :
    Steady { ls with sch := { ls.sch with kv := kv, enc := enc } } :=
  ⟨h.parts, h.last, h.known, h.status⟩

/-- Changing the encoder cache leaves a steady state steady. -/
theorem setEnc (h : Steady ls) (enc : E) : Steady (ls.setEnc enc) := h.caches ls.sch.kv enc

/-- Advancing leaves a steady state steady. -/
theorem advance (h : Steady ls) : Steady ls.advance := ⟨h.parts, h.last, h.known, h.status⟩

/-- A drop from the waiting ids changes the status of no running request. -/
theorem dropped_running {qm qm' : QueueManager}
    (hqm : qm.updateIdxsAfterIgnored = .ok qm' ∨ qm.updateIdxsAfterSkipped = .ok qm') :
    qm'.runningReqIds = qm.runningReqIds := by
  rcases hqm with hqm | hqm
  · rcases QueueManager.updateIdxsAfterIgnored_cases hqm with ⟨-, rfl⟩ | ⟨f, r, u⟩
    exacts [rfl, u.running]
  · rcases QueueManager.updateIdxsAfterSkipped_cases hqm with ⟨-, rfl⟩ | ⟨f, r, u⟩
    exacts [rfl, u.running]

/-- Giving a request that does not run another status than `RUNNING`. -/
theorem status_of_idle {f : Request → Request} {qm' : QueueManager} (h : Steady ls)
    (hr : r ∈ ls.qm.combined) (hR : r ∉ ls.qm.runningReqIds)
    (hf : (f (ls.req r)).status ≠ .running) (hqm : qm'.runningReqIds = ls.qm.runningReqIds) (x : ReqId) :
    (Objs.req (ls.sch.objs.modify r f) x).status = .running ↔ x ∈ qm'.runningReqIds := by
  rw [hqm]
  exact status_iff_modify (h.known r hr) h.status (iff_of_false hf hR) (fun _ _ => Iff.rfl) x

/-- Ignoring a waiting request leaves a steady state steady. -/
theorem ignore (h : Steady ls) (hr : r ∈ ls.qm.combined) (hR : r ∉ ls.qm.runningReqIds)
    (hignore : ls.ignore r = .ok (.goOn ls')) : Steady ls' := by
  obtain ⟨qm', hqm, hf⟩ := ignore_eq_ok hignore
  cases hf
  refine h.of_update (.of_ignored hqm) (Dict.keys_modify _ _ _) ?_
  exact h.status_of_idle (f := fun q => { q with status := .finishedIgnored }) hr hR nofun
    (dropped_running (.inl hqm))

/-- Skipping a request leaves a steady state steady. -/
theorem skip (h : Steady ls) (hskip : ls.skip = .ok (.goOn ls')) : Steady ls' := by
  obtain ⟨qm', hqm, hf⟩ := skip_eq_ok hskip
  cases hf
  refine h.of_update (.of_skipped hqm) rfl fun x => ?_
  show (ls.req x).status = .running ↔ x ∈ qm'.runningReqIds
  rw [dropped_running (.inr hqm)]
  exact h.status x

/-- Setting a waiting request loading leaves a steady state steady. -/
theorem load {c : CachedPrefix} (h : Steady ls) (hr : r ∈ ls.qm.combined)
    (hR : r ∉ ls.qm.runningReqIds)
    (hskip : (ls.modifyReq r fun q => { q with
      status := .waitingForRemoteKvs
      numComputedTokens := c.numComputedTokens }).skip = .ok (.goOn ls')) : Steady ls' := by
  obtain ⟨qm', hqm, hf⟩ := skip_eq_ok hskip
  cases hf
  refine h.of_update (.of_skipped hqm) (Dict.keys_modify _ _ _) ?_
  exact h.status_of_idle
    (f := fun q => { q with
      status := .waitingForRemoteKvs
      numComputedTokens := c.numComputedTokens }) hr hR nofun (dropped_running (.inr hqm))

variable [KVCacheManager K] [EncoderCache E] {cfg : Config} {kv : K}

/-- A preemption keeps the bookkeeping, wherever the victim stands. -/
theorem preempt (h : Steady t) (hpre : Preempts q args t l v kv)
    (hvictim : (t.setKv kv).preemptVictim v = .ok t') : Steady t' := by
  have hrunning := preemptVictim_running hpre hvictim
  obtain ⟨ls₁, qm', -, -, hqm, rfl⟩ := preemptVictim_eq_ok hvictim
  refine h.of_update (.of_preemption hqm) (Dict.keys_modify _ _ _) ?_
  refine status_iff_modify (f := Scheduler.preempted) (h.known v (List.mem_of_getElem? hpre.stands))
    h.status ?_ fun x hx => ?_
  · rw [hrunning]
    exact iff_of_false nofun (Finset.notMem_erase v _)
  · rw [hrunning, Finset.mem_erase, and_iff_right hx]

/-- Every round of an allocation loop, whatever it preempts. -/
theorem visits (h : Steady ls) (ht : Visits (allocRound q args) ls t) : Steady t :=
  alloc_invariant ht h fun _ _ _ _ _ _ hI hpre _ hvictim => hI.preempt hpre hvictim

/-- The allocation loop leaves a steady state steady. -/
theorem allocLoop {res : Option KVCacheBlocks} (h : Steady ls)
    (hloop : ls.allocLoop q args = .ok (res, ls')) : Steady ls' := by
  obtain ⟨t, ht, hexit⟩ := allocLoop_outcome hloop
  have hs := h.visits ht
  cases hexit with
  | found => exact hs.caches _ t.sch.enc
  | noneRunning => exact hs.caches _ t.sch.enc
  | kept => exact hs.caches _ t.sch.enc
  | itself hpre hvictim => exact hs.preempt hpre hvictim

omit [KVCacheManager K] in
/-- Scheduling a running request leaves a steady state steady. -/
theorem scheduleRunning {g : Grant} {newBlocks : KVCacheBlocks} (h : Steady ls)
    (hr : r ∈ ls.qm.combined) (hsched : ls.scheduleRunning r g newBlocks = .ok ls') :
    Steady ls' := by
  obtain ⟨enc, spec, -, rfl⟩ := scheduleRunning_eq_ok hsched
  refine h.of_update (.same rfl) (Dict.keys_modify _ _ _) ?_
  exact status_iff_modify (f := fun q => { q with specTokenIds := [] }) (h.known r hr) h.status
    (h.status r) fun _ _ => Iff.rfl

/-- Admitting the first waiting request keeps the bookkeeping. -/
theorem admitWaiting {c : CachedPrefix} {g : Grant} {f : ℕ} (h : Steady ls)
    (hr : r ∈ ls.qm.combined) (hfirst : ls.qm.firstWaitingIdx = some f)
    (hf : ls.qm.combined[f]? = some r) (hadmitted : ls.admitWaiting cfg r c g = .ok ls') :
    Steady ls' := by
  obtain ⟨newReqs, resumedReqs, qm', enc, -, hqm, -, rfl⟩ := admitWaiting_eq_ok hadmitted
  refine h.of_update (.of_scheduling hqm) (Dict.keys_modify _ _ _) ?_
  rcases QueueManager.updateIdxsAfterNewScheduling_cases hqm with ⟨hnone, -⟩ | ⟨f', x, u⟩
  · rw [hfirst] at hnone
    cases hnone
  · obtain rfl : f = f' := Option.some.inj (hfirst.symm.trans u.firstWaiting)
    obtain rfl : r = x := Option.some.inj (hf.symm.trans u.stands)
    refine status_iff_modify
      (f := fun q => { q with status := .running, numComputedTokens := c.numComputedTokens })
      (h.known r hr) h.status ?_ fun y hy => ?_
    · refine iff_of_true rfl ?_
      show r ∈ qm'.runningReqIds
      rw [u.running]
      exact Finset.mem_insert_self r _
    · show y ∈ qm'.runningReqIds ↔ _
      rw [u.running, Finset.mem_insert, or_iff_right hy]

end Steady

/-! ### Rounds and the tail preemption -/

variable [KVCacheManager K] [EncoderCache E] {cfg : Config} {env : StepEnv}

/-- An admitted candidate is the first waiting request of the queue manager. -/
def AdmitsFirst : Event K E → Prop
  | .admitWaiting ls r => ∃ f, ls.qm.firstWaitingIdx = some f ∧ ls.qm.combined[f]? = some r
  | _ => True

/-- A round keeps the bookkeeping if it admits only first waiting requests. -/
theorem Steady.round {p : Pass (LoopState K E) (LoopState K E)} (h : Steady ls)
    (hround : RoundOutcome cfg env ls p) (hgood : ∀ e, RoundEvent cfg env ls e → AdmitsFirst e) :
    Steady p.state := by
  have hmem : ∀ {r}, ls.Treats r → r ∈ ls.qm.combined := fun h => List.mem_of_getElem? h.stands
  cases hround with
  | exhausted | spent | preempted | stuck => exact h
  | passed => exact h.advance
  | running htreats hR houtcome =>
    cases houtcome with
    | noTokens => exact (h.setEnc _).advance
    | noBlocks _ _ halloc => exact (h.setEnc _).allocLoop halloc
    | scheduled _ _ halloc hsched =>
      have hcombined := (allocLoop_sameWaiting halloc).combined
      exact ((h.setEnc _).allocLoop halloc).scheduleRunning (hcombined ▸ hmem htreats) hsched
  | waiting htreats hR hW houtcome =>
    cases houtcome with
    | ignoredPrompt _ hignore =>
      obtain ⟨qm', -, rfl⟩ := ignore_eq_ok hignore
      exact h.ignore (hmem htreats) hR hignore
    | skipped _ hskip =>
      obtain ⟨qm', -, rfl⟩ := skip_eq_ok hskip
      exact h.skip hskip
    | ignoredEncoderInputs _ _ hignore =>
      obtain ⟨qm', -, rfl⟩ := ignore_eq_ok hignore
      exact h.ignore (hmem htreats) hR hignore
    | blocked => exact h.setEnc _
    | noBlocks _ _ halloc =>
      have hs := (h.setEnc _).allocLoop halloc
      dsimp only [Flow.toPass, Pass.state]
      split
      · exact hs.setEnc _
      · exact hs
    | loading _ _ halloc _ hskip =>
      obtain ⟨qm', -, rfl⟩ := skip_eq_ok hskip
      have hsame := allocLoop_sameWaiting halloc
      exact ((h.setEnc _).allocLoop halloc).load (hsame.combined ▸ hmem htreats)
        (fun hr => hR (hsame.running hr)) hskip
    | admitted hc hg halloc hload hadmitted =>
      have hcombined := (allocLoop_sameWaiting halloc).combined
      obtain ⟨f, hfirst, hf⟩ := hgood _ (.admitWaiting htreats hR hW hc hg halloc hload)
      exact ((h.setEnc _).allocLoop halloc).admitWaiting (hcombined ▸ hmem htreats) hfirst hf hadmitted

/-- Tail preemptions keep the parts and the last running index sound. -/
theorem tailKept_lastSound (i : ℕ) : TailKept i fun qm => qm.Parts ∧ qm.LastSound where
  parts h := h.1
  none_running h hl := h.2.none_running hl _
  exact h u _ _ := h.2.exact u
  preempt h u _ := ⟨u.parts h.1, u.lastSound h.1 h.2⟩

/-- The tail preemption keeps the bookkeeping. -/
theorem Steady.tailPreempt (h : Steady ls) (htail : ls.tailPreempt = .ok t) : Steady t := by
  unfold LoopState.tailPreempt at htail
  split at htail
  · have hkept := tailKept_lastSound ls.reqIndex
    have hpass := foldlM_rule (I := TailPass (fun qm => qm.Parts ∧ qm.LastSound) ls) htail
      (.start hkept ⟨h.parts, h.last⟩ h.status) fun _ _ _ _ hI hone => hI.next hkept h.known hone
    exact ⟨hpass.kept.1, hpass.kept.2, hpass.frame.known h.known, hpass.status_iff⟩
  · cases htail
    exact h

end LoopState

namespace Scheduler

variable {K E : Type} [KVCacheManager K] [EncoderCache E] {cfg : Config} {env : StepEnv}
  {s s' : Scheduler K E} {ls : LoopState K E}

omit [EncoderCache E] in
/-- A coherent step begins steady. -/
theorem beginStep_steady (h : Coherent s) (hbegin : beginStep cfg env s = .ok ls) : ls.Steady := by
  have hw := beginStep_walking h hbegin
  exact ⟨hw.walk.toParts, .inl (beginStep_exact hbegin h.nodup).last, hw.known, hw.status⟩

/-- In every round of a step that admits only first waiting requests the bookkeeping is kept. -/
theorem Rounds.steady (h : Coherent s) (hgood : StepMeets LoopState.AdmitsFirst cfg env s)
    (hrounds : Rounds cfg env s ls) : ls.Steady := by
  obtain ⟨ls₀, hbegin, hvisits⟩ := hrounds
  refine hvisits.invariant (beginStep_steady h hbegin) fun t t' ht hI hround => ?_
  exact hI.round (LoopState.round_outcome hI.parts.running_waiting hround)
    (hgood t ⟨ls₀, hbegin, ht⟩)

/-- The walk of a coherent step that admits the first candidates is steady. -/
theorem Walked.steady (h : Coherent s) (hgood : StepMeets LoopState.AdmitsFirst cfg env s)
    (hwalked : Walked cfg env s ls) : ls.Steady := by
  obtain ⟨ls₀, ls₁, hbegin, hloop, htail⟩ := hwalked
  obtain ⟨t, ht, hexit⟩ := loop_exit hloop
  have hrounds : Rounds cfg env s t := ⟨ls₀, hbegin, ht⟩
  have hs := hrounds.steady h hgood
  have hs₁ : ls₁.Steady :=
    hs.round (LoopState.round_outcome hs.parts.running_waiting hexit) (hgood t hrounds)
  exact hs₁.tailPreempt htail

/-- A step that admits only first waiting requests keeps the queues coherent, whatever it
preempts. -/
theorem schedule_coherent_of_steady {out : SchedulerOutput} (h : Coherent s)
    (hgood : StepMeets LoopState.AdmitsFirst cfg env s)
    (hschedule : schedule cfg env s = .ok (out, s')) : Coherent s' := by
  obtain ⟨ls, hwalked, hfinish⟩ := schedule_eq_ok hschedule
  have hs := hwalked.steady h hgood
  exact coherent_of_walked h hschedule hwalked hfinish hs.parts hs.status

end Scheduler

namespace System

open Scheduler

variable {K E : Type} [KVCacheManager K] [EncoderCache E] {cfg : Config} {sys : System K E}

/-- Every step admits only first waiting requests. -/
def KeepsFirst (cfg : Config) (sys : System K E) : Op → Prop
  | .schedule env => StepMeets LoopState.AdmitsFirst cfg env sys.sch
  | _ => True

/-- In every run whose steps admit only first waiting requests the queues are coherent. -/
theorem coherent_of_keepsFirst {kv : K} {enc : E}
    (h : Run cfg (KeepsFirst cfg) (init cfg kv enc) sys) : Coherent sys.sch :=
  h.invariant (I := fun sys => Coherent sys.sch) (init_coherent cfg kv enc)
    fun _ _ _ hI hadm hok hstep => step_coherent_of_schedule hI hadm (fun env hop out s' hs => by
      subst hop
      exact schedule_coherent_of_steady hI hok hs) hstep

end System

end RpsServe
