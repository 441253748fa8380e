import RpsServe.Scheduler.Frame
import RpsServe.Scheduler.Answer
import RpsServe.Scheduler.Conservation

/-!
# The cap on running requests

A step checks at its end that no more than `max_num_running_reqs` requests run, but it
admits waiting requests without looking at that number. The cap holds as long as every step
begins with no more requests in its queues than may run, or is paused. No other operation
lets a request run.
-/

namespace RpsServe

namespace Scheduler

variable {K E : Type}

/-- Every live request has an object. -/
def Known (s : Scheduler K E) : Prop := ∀ r ∈ s.requests, r ∈ s.objs.keys

variable [KVCacheManager K] [EncoderCache E] {cfg : Config} {env : StepEnv}
  {s s' : Scheduler K E} {delayFree : ReqId → Bool}

/-! ### The operations between steps -/

/-- Ending requests takes requests out of the running list only. -/
theorem finishRequests_running {ids : Option (List ReqId)} {status : RequestStatus} (h : Known s)
    (hfinish : s.finishRequests cfg delayFree ids status = .ok s') :
    Known s' ∧ s'.running.Sublist s.running := by
  have hended := finishRequests_ended hfinish
  refine ⟨fun r hr => ?_, hended.running ▸ removeAll_sublist _ _⟩
  rw [hended.keys]
  exact h r (hended.requests.subset hr)

/-- Adding a request takes requests out of the running list only. -/
theorem addRequest_running {request : Request} (h : Known s)
    (hadd : s.addRequest cfg delayFree request = .ok s') :
    Known s' ∧ s'.running.Sublist s.running := by
  cases addRequest_outcome hadd with
  | chunkQueued _ hs' =>
    subst hs'
    exact ⟨fun r hr => (keys_modifyReq s _ _).symm ▸ h r hr, .refl _⟩
  | chunkTaken hmem _ hnext =>
    have hnext := hnext (h _ hmem)
    obtain ⟨objs, hs'⟩ := hnext.same
    have hkeys := hnext.keys
    rw [hs'] at hkeys ⊢
    exact ⟨fun r hr => hkeys ▸ h r hr, .refl _⟩
  | sessionEnded _ hfinish => exact finishRequests_running h hfinish
  | admitted _ _ _ _ _ hadmitted =>
    refine ⟨fun r hr => ?_, hadmitted.running ▸ .refl _⟩
    rw [hadmitted.requests, List.mem_append, List.mem_singleton] at hr
    rw [hadmitted.objs, Dict.mem_keys_set]
    exact hr.symm.imp_right (h r)

/-- Resetting the prefix cache takes requests out of the running list only. -/
theorem resetPrefixCache_running {reset ok : Bool} (h : Known s)
    (hreset : s.resetPrefixCache reset = .ok (ok, s')) :
    Known s' ∧ s'.running.Sublist s.running := by
  cases resetPrefixCache_outcome hreset with
  | kept _ hs' =>
    subst hs'
    exact ⟨h, .refl _⟩
  | preempted _ hall =>
    obtain ⟨objs, kv, enc, hsame⟩ := hall.same
    have hkeys := hall.keys
    rw [hsame] at hkeys ⊢
    exact ⟨fun r hr => hkeys ▸ h r hr, List.nil_sublist _⟩

/-- The loop of `update_from_output` leaves the running list alone. -/
theorem processOutput_running {out : SchedulerOutput} {mro : ModelRunnerOutput}
    {failed : List ReqId} {us us' : UpdateState K E} {e : ReqId × ℤ} (h : Known us.sch)
    (hround : processOutput cfg out mro failed us e = .ok us') :
    Known us'.sch ∧ us'.sch.running = us.sch.running := by
  cases processOutput_outcome hround with
  | passed hus =>
    subst hus
    exact ⟨h, rfl⟩
  | answered hmem _ hanswer hus =>
    obtain ⟨-, hans⟩ := answerRequest_answered (h _ hmem) hanswer
    obtain ⟨objs, kv, enc, hsame⟩ := hans.same
    have hkeys := hans.keys
    subst hus
    rw [hsame] at hkeys ⊢
    exact ⟨fun r hr => hkeys ▸ h r hr, rfl⟩
  | stopped hmem _ hanswer hstop =>
    have hk := h _ hmem
    obtain ⟨rfl, hans⟩ := answerRequest_answered hk hanswer
    obtain ⟨objs, kv, enc, hsame⟩ := hans.same
    obtain ⟨-, hended | ⟨-, hgoes⟩⟩ :=
      stopRequest_outcome (hans.keys ▸ hk) ((hans.answered hk).finished rfl) hstop
    · refine ⟨fun r hr => ?_, hended.running.trans (by rw [hsame])⟩
      rw [hended.keys, hans.keys]
      have := hended.requests.subset hr
      rw [hsame] at this
      exact h r this
    · refine ⟨fun r hr => ?_, hgoes.running.trans (by rw [hsame])⟩
      rw [hgoes.keys, hans.keys]
      rw [hgoes.requests, hsame] at hr
      exact h r hr

/-- Updating from the output of the model takes requests out of the running list only. -/
theorem updateFromOutput_running {out : SchedulerOutput} {mro : ModelRunnerOutput} (h : Known s)
    (hupdate : s.updateFromOutput cfg out mro = .ok s') :
    Known s' ∧ s'.running.Sublist s.running := by
  obtain ⟨failed, s₁, us, s₂, -, hrec, hfold, hfail, htransfer⟩ := updateFromOutput_eq_ok hupdate
  have h₁ : Known s₁ ∧ s₁.running = s.running := by
    obtain ⟨objs, kv, failedRecving, hsame⟩ := hrec.same
    have hkeys := hrec.keys
    rw [hsame] at hkeys ⊢
    exact ⟨fun r hr => hkeys ▸ h r hr, rfl⟩
  have hloop : Known us.sch ∧ us.sch.running = s.running :=
    foldlM_invariant (I := fun us => Known us.sch ∧ us.sch.running = s.running) hfold h₁
      fun e _ t t' hI hround =>
        ⟨(processOutput_running hI.1 hround).1, (processOutput_running hI.1 hround).2.trans hI.2⟩
  have hremoved : Known (removeStopped us) ∧ (removeStopped us).running.Sublist s.running := by
    refine ⟨hloop.1, ?_⟩
    rw [← hloop.2]
    unfold removeStopped
    dsimp only
    split
    exacts [.refl _, removeAll_sublist _ _]
  have h₂ : Known s₂ ∧ s₂.running.Sublist s.running := by
    unfold failKvLoads at hfail
    split at hfail
    · cases hfail
      exact hremoved
    · split at hfail
      · cases hfail
      · obtain ⟨hknown, hsub⟩ := finishRequests_running hremoved.1 hfail
        exact ⟨hknown, hsub.trans hremoved.2⟩
  obtain ⟨requests, finishedRecving, kv, hsame⟩ := htransfer.same
  have hreq := htransfer.requests
  rw [hsame] at hreq ⊢
  exact ⟨fun r hr => h₂.1 r (hreq.subset hr), h₂.2⟩

/-! ### The cap within a step -/

/-- A waiting candidate is admitted only below the cap. -/
def HasRoom (cfg : Config) : Event K E → Prop
  | .admitWaiting ls _ => ls.qm.runningReqIds.card < cfg.maxNumRunningReqs
  | _ => True

/-- The cap holds throughout a step, and for the running list that its end checks. -/
structure WithinCap (cfg : Config) (env : StepEnv) (s : Scheduler K E) : Prop where
  rounds : ∀ ls, Rounds cfg env s ls → ls.qm.runningReqIds.card ≤ cfg.maxNumRunningReqs
  rebuilt : ∀ ls running waiting, Walked cfg env s ls →
    ls.qm.updateQueues ls.req = .ok (running, waiting) → running.length ≤ cfg.maxNumRunningReqs

/-- Moves whose admissions find room keep the cap. -/
theorem moves_card {ls ls' : LoopState K E} (h : LoopState.Moves cfg (HasRoom cfg) ls ls')
    (hcap : ls.qm.runningReqIds.card ≤ cfg.maxNumRunningReqs) :
    ls'.qm.runningReqIds.card ≤ cfg.maxNumRunningReqs := by
  refine h.invariant (I := fun t => t.qm.runningReqIds.card ≤ cfg.maxNumRunningReqs) hcap
    fun t t' hI hmove => ?_
  rcases hmove.running with hsub | ⟨r, x, hroom, hinsert⟩
  · exact (Finset.card_le_card hsub).trans hI
  · rw [hinsert]
    exact (Finset.card_insert_le _ _).trans hroom

omit [EncoderCache E] in
/-- The running ids at the beginning of a step come from the running list. -/
theorem beginStep_card {ls : LoopState K E} (h : beginStep cfg env s = .ok ls) :
    ls.qm.runningReqIds.card ≤ s.running.length := by
  obtain ⟨objs, requests, -, -, -, rfl⟩ := beginStep_eq_ok h
  calc _ ≤ _ := List.toFinset_card_le _
    _ ≤ (reorderQueue objs.req s.running).length := List.length_filter_le _ _
    _ = s.running.length := (sortBy_perm _ _).length_eq

/-- A step whose admissions find room stays within the cap. -/
theorem withinCap_of_hasRoom (hnodup : (s.running ++ s.waiting.items).Nodup)
    (hroom : StepMeets (HasRoom cfg) cfg env s) (hcap : s.running.length ≤ cfg.maxNumRunningReqs) :
    WithinCap cfg env s where
  rounds ls hrounds := by
    obtain ⟨ls₀, hbegin, hmoves⟩ := hrounds.moves hnodup hroom
    exact moves_card hmoves ((beginStep_card hbegin).trans hcap)
  rebuilt ls running waiting hwalked hqueues := by
    obtain ⟨ls₀, hbegin, hmoves⟩ := hwalked.moves hnodup hroom
    have hexact := hmoves.exact fun _ => beginStep_exact hbegin hnodup
    have hcombined : ls.qm.combined.Nodup :=
      (hmoves.parts (beginStep_exact hbegin hnodup).toParts).nodup
    rw [QueueManager.updateQueues_running hqueues hexact]
    calc _ = _ := (List.toFinset_card_of_nodup (hcombined.filter _)).symm
      _ ≤ ls.qm.runningReqIds.card := Finset.card_le_card fun r hr => by
        rw [List.mem_toFinset, List.mem_filter] at hr
        exact of_decide_eq_true hr.2
      _ ≤ _ := moves_card hmoves ((beginStep_card hbegin).trans hcap)

omit [KVCacheManager K] [EncoderCache E] in
/-- The queues as a step finds them: no request stands in them twice, and they hold no more requests
than may run, unless everything is paused. -/
structure FewQueued (cfg : Config) (s : Scheduler K E) : Prop where
  nodup : (s.running ++ s.waiting.items).Nodup
  few : s.pauseState = .pausedAll ∨
    (s.running ++ s.waiting.items).length ≤ cfg.maxNumRunningReqs

omit [KVCacheManager K] [EncoderCache E] in
instance (s : Scheduler K E) : Decidable (FewQueued cfg s) :=
  decidable_of_iff (_ ∧ _) ⟨fun h => ⟨h.1, h.2⟩, fun h => ⟨h.1, h.2⟩⟩

/-- A step that is paused admits nobody. -/
theorem hasRoom_of_paused (hpause : s.pauseState = .pausedAll) :
    StepMeets (HasRoom cfg) cfg env s := by
  intro ls hrounds e he
  cases he with
  | admitWaiting htreats => exact absurd htreats.budget (hrounds.spent_of_paused hpause)
  | _ => trivial

/-- Admissions find room while no more requests are queued than may run. -/
theorem hasRoom_of_few (h : FewQueued cfg s) : StepMeets (HasRoom cfg) cfg env s := by
  obtain ⟨hnodup, hpause | hfew⟩ := h
  · exact hasRoom_of_paused hpause
  intro ls hrounds e he
  obtain ⟨ls₀, hbegin, hmoves⟩ := hrounds.moves hnodup
    (fun _ _ _ _ => trivial : StepMeets (fun _ => True) cfg env s)
  have hparts := hmoves.parts (beginStep_exact hbegin hnodup).toParts
  have hcombined : ls.qm.combined.length = (s.running ++ s.waiting.items).length :=
    hmoves.frame.combined ▸ (beginStep_combined hbegin).length_eq
  cases he with
  | @admitWaiting r _ _ _ _ ls₁ htreats hR _ _ _ halloc =>
    have hsub := (LoopState.allocLoop_sameWaiting halloc).running
    have hmem : r ∈ ls.qm.combined := List.mem_of_getElem? htreats.stands
    have hins : insert r ls₁.qm.runningReqIds ⊆ ls.qm.combined.toFinset := by
      intro x hx
      rw [List.mem_toFinset]
      rcases Finset.mem_insert.mp hx with rfl | hx
      exacts [hmem, hparts.running_sub x (hsub hx)]
    show ls₁.qm.runningReqIds.card + 1 ≤ cfg.maxNumRunningReqs
    calc _ = (insert r ls₁.qm.runningReqIds).card :=
          (Finset.card_insert_of_notMem fun hr => hR (hsub hr)).symm
      _ ≤ ls.qm.combined.length := (Finset.card_le_card hins).trans (List.toFinset_card_le _)
      _ ≤ cfg.maxNumRunningReqs := hcombined ▸ hfew
  | _ => trivial

end Scheduler

namespace System

open Scheduler

variable {K E : Type} [KVCacheManager K] [EncoderCache E] {cfg : Config}

/-- The operations that keep the cap: a step finds few requests in the queues. -/
def KeepsCap (cfg : Config) (sys : System K E) : Op → Prop
  | .schedule _ => FewQueued cfg sys.sch
  | _ => True

omit [KVCacheManager K] [EncoderCache E] in
instance (sys : System K E) (op : Op) : Decidable (KeepsCap cfg sys op) :=
  match op with
  | .schedule _ => inferInstanceAs (Decidable (FewQueued cfg sys.sch))
  | .addRequest _ _ | .updateFromOutput _ _ | .finishRequests _ _ _ | .setPauseState _
  | .resetPrefixCache _ | .updateDraftTokenIds _ _ => .isTrue trivial

/-- An operation that keeps the cap leaves the running list within it. -/
theorem step_cap {sys sys' : System K E} {op : Op} (hknown : Known sys.sch)
    (hcap : sys.sch.running.length ≤ cfg.maxNumRunningReqs) (hok : KeepsCap cfg sys op)
    (hstep : sys.step cfg op = .ok sys') :
    Known sys'.sch ∧ sys'.sch.running.length ≤ cfg.maxNumRunningReqs := by
  have hsub : ∀ {s' : Scheduler K E}, Known s' ∧ s'.running.Sublist sys.sch.running →
      Known s' ∧ s'.running.length ≤ cfg.maxNumRunningReqs :=
    fun h => ⟨h.1, h.2.length_le.trans hcap⟩
  cases op with
  | addRequest request delayFree =>
    obtain ⟨sch, hadd, hs⟩ := bind_eq_ok.mp hstep
    cases hs
    exact hsub (addRequest_running hknown hadd)
  | schedule env =>
    obtain ⟨⟨out, sch⟩, hschedule, hs⟩ := bind_eq_ok.mp hstep
    cases hs
    have hframe := schedule_frame hok.nodup hschedule
    obtain ⟨ls, hwalked, hfinish⟩ := schedule_eq_ok hschedule
    refine ⟨fun r hr => ?_, (withinCap_of_hasRoom hok.nodup (hasRoom_of_few hok) hcap).rebuilt ls _ _ hwalked
      (finishStep_spec hfinish).queues⟩
    dsimp only at hr ⊢
    rw [hframe.keys]
    exact hknown r (hframe.requests.mem_iff.mp hr)
  | updateFromOutput i mro =>
    unfold step at hstep
    dsimp only at hstep
    split at hstep
    · cases hstep
    · obtain ⟨sch, hupdate, hs⟩ := bind_eq_ok.mp hstep
      cases hs
      exact hsub (updateFromOutput_running hknown hupdate)
  | finishRequests ids status delayFree =>
    obtain ⟨sch, hfinish, hs⟩ := bind_eq_ok.mp hstep
    cases hs
    exact hsub (finishRequests_running hknown hfinish)
  | setPauseState pauseState =>
    cases hstep
    exact ⟨hknown, hcap⟩
  | resetPrefixCache reset =>
    obtain ⟨⟨ok, sch⟩, hreset, hs⟩ := bind_eq_ok.mp hstep
    cases hs
    exact hsub (resetPrefixCache_running hknown hreset)
  | updateDraftTokenIds validateTokens drafts =>
    cases hstep
    obtain ⟨⟨objs, hsame⟩, hkeys, -⟩ := updateDraftTokenIds_same validateTokens sys.sch drafts
    refine hsub ⟨fun r hr => ?_, ?_⟩
    · rw [hkeys]
      rw [hsame] at hr
      exact hknown r hr
    · rw [hsame]

/-- In every run whose steps find few requests in the queues, the running list keeps to the cap in
every state reached, and so does every step from there that finds few. -/
theorem withinCap_of_run {kv : K} {enc : E} {sys : System K E}
    (h : Run cfg (KeepsCap cfg) (init cfg kv enc) sys) :
    sys.sch.running.length ≤ cfg.maxNumRunningReqs ∧
      ∀ env, KeepsCap cfg sys (.schedule env) → WithinCap cfg env sys.sch := by
  obtain ⟨-, hcap⟩ := h.invariant
    (I := fun sys => Known sys.sch ∧ sys.sch.running.length ≤ cfg.maxNumRunningReqs)
    ⟨by simp [Known, init, Scheduler.init], Nat.zero_le _⟩
    fun _ _ _ hI _ hok hstep => step_cap hI.1 hI.2 hok hstep
  exact ⟨hcap, fun _ hok => withinCap_of_hasRoom hok.nodup (hasRoom_of_few hok) hcap⟩

/-- Three short requests wait for two places. -/
def threeWaiting : List Op :=
  [.addRequest (shortRequest 1) fun _ => false, .addRequest (shortRequest 2) fun _ => false,
    .addRequest (shortRequest 3) fun _ => false]

/-- A system with two places and tokens for three short requests. -/
def twoPlaces : Config := { conservationCfg with maxNumScheduledTokens := 16 }

/-- A step admits three requests to two places, and raises. -/
theorem cap_exceeded : ∃ sys,
    Run twoPlaces (fun _ _ => True) (decoderOnly twoPlaces false 0) sys ∧
      sys.sch.running.length ≤ twoPlaces.maxNumRunningReqs ∧ ¬ WithinCap twoPlaces {} sys.sch ∧
      (schedule twoPlaces {} sys.sch).isOk = false := by
  have hlegal : Legal twoPlaces (fun _ _ => True) (decoderOnly twoPlaces false 0) threeWaiting := by
    decide +kernel
  obtain ⟨sys, hrun, hcap, hwalk, hraise⟩ := Reaches.exists_run threeWaiting
    (P := fun sys => sys.sch.running.length ≤ twoPlaces.maxNumRunningReqs ∧
      AfterWalk twoPlaces sys (fun ls => ls.qm.lastRunningIdx = some 2 ∧
        ls.qm.firstWaitingIdx = none ∧ ls.qm.combined.length = 3 ∧
        ls.qm.ignoredReqIds = ∅ ∧ ls.qm.skippedReqIds = ∅) ∧
      (schedule twoPlaces {} sys.sch).isOk = false)
    (by decide +kernel) hlegal
  obtain ⟨ls, hwalked, hlast, hfirst, hlen, hignored, hskipped⟩ := hwalk.exists_walked
  refine ⟨sys, hrun, hcap, fun hwithin => ?_, hraise⟩
  have hle := hwithin.rebuilt ls ls.qm.combined _ hwalked (by
    unfold QueueManager.updateQueues
    rw [if_neg (by simp [hignored, hskipped]), hlast, hfirst])
  rw [hlen] at hle
  exact absurd hle (by decide)

/-- Two of them come and run. -/
def twoRunning : List Op :=
  [.addRequest (shortRequest 1) fun _ => false, .addRequest (shortRequest 2) fun _ => false,
    .schedule {}]

/-- Two requests run in two places. -/
theorem withinCap_of_twoRunning : ∃ sys,
    Run twoPlaces (KeepsCap twoPlaces) (decoderOnly twoPlaces false 0) sys ∧
      sys.sch.running = [1, 2] ∧ sys.sch.running.length ≤ twoPlaces.maxNumRunningReqs ∧
      ∀ env, KeepsCap twoPlaces sys (.schedule env) → WithinCap twoPlaces env sys.sch := by
  have hlegal : Legal twoPlaces (KeepsCap twoPlaces) (decoderOnly twoPlaces false 0) twoRunning := by
    decide +kernel
  obtain ⟨sys, hrun, hrunning⟩ := Reaches.exists_run twoRunning
    (P := fun sys => sys.sch.running = [1, 2]) (by decide +kernel) hlegal
  exact ⟨sys, hrun, hrunning, withinCap_of_run hrun⟩

end System

end RpsServe
