import RpsServe.Scheduler.Origin
import RpsServe.Scheduler.Conservation
import RpsServe.Scheduler.Frame
import RpsServe.Scheduler.Run
import RpsServe.SloExpirationManager.Arrival

/-!
# First come, first served

Under `fcfs` and `catfcfs` every step walks the queued requests in the order of their places.
What carries the order over a run is that a queued request has the priority of its place from its
first ranking on, and that until then it is live, waits and is answered by nobody.
-/

namespace RpsServe

namespace Scheduler

variable {K E : Type} {cfg : Config} {policy : SchedulingPolicy} {s s' : Scheduler K E} {r : ReqId}

/-- The request came in after the last ranking. -/
structure Arriving (s : Scheduler K E) (r : ReqId) : Prop where
  live : r ∈ s.requests
  notRunning : r ∉ s.running
  status : (s.req r).status ≠ .running
  unfinished : (s.req r).isFinished = false

/-- What a run keeps of the queues and the places of the requests. -/
structure InPlace (policy : SchedulingPolicy) (s : Scheduler K E) : Prop where
  nodup : s.queued.Nodup
  queued_known : ∀ r ∈ s.queued, r ∈ s.objs.keys
  requests_known : ∀ r ∈ s.requests, r ∈ s.objs.keys
  plain : ∀ r, (s.req r).resumable = false
  range : ∀ r ∈ s.objs.keys, InRange (s.req r)
  known : ∀ r ∈ s.requests, Placed policy (s.req r) ∨ Unplaced policy (s.req r)
  placed : ∀ r ∈ s.queued, Placed policy (s.req r) ∨ Arriving s r

/-- Whether a request is placed depends on its origin alone. -/
theorem Placed.of_origin {q q' : Request} (h : q.SameOrigin q') :
    Placed policy q' ↔ Placed policy q := by
  rw [Placed, Placed, placePriority, placePriority, urgencyClass_congr h.requestMd, h.priority,
    h.arrivalTime]

/-- Whether a request is unplaced depends on its origin alone. -/
theorem Unplaced.of_origin {q q' : Request} (h : q.SameOrigin q') :
    Unplaced policy q' ↔ Unplaced policy q := by
  rw [Unplaced, Unplaced, h.priority, h.requestMd]

/-- The place of a request depends on its origin alone. -/
theorem place_of_origin {q q' : Request} (h : q.SameOrigin q') : place policy q' = place policy q := by
  rw [place, place, urgencyClass_congr h.requestMd, h.arrivalTime]

/-- Whether a request is in range depends on its origin alone. -/
theorem InRange.of_origin {q q' : Request} (h : q.SameOrigin q') : InRange q' ↔ InRange q := by
  rw [InRange, InRange, h.arrivalTime]

/-- Nobody's place changes, and nobody loses the priority of it. -/
structure KeepsPlaces (policy : SchedulingPolicy) (s s' : Scheduler K E) : Prop where
  keys : s.objs.keys ⊆ s'.objs.keys
  place : ∀ r ∈ s.objs.keys, place policy (s'.req r) = place policy (s.req r)
  placed : ∀ r ∈ s.objs.keys, Placed policy (s.req r) → Placed policy (s'.req r)

namespace KeepsPlaces

/-- A state keeps its own places. -/
theorem refl (s : Scheduler K E) : KeepsPlaces policy s s :=
  ⟨List.Subset.refl _, fun _ _ => rfl, fun _ _ => id⟩

/-- Places that are kept twice are kept. -/
theorem trans {s₁ : Scheduler K E} (h : KeepsPlaces policy s s₁) (h' : KeepsPlaces policy s₁ s') :
    KeepsPlaces policy s s' where
  keys := List.Subset.trans h.keys h'.keys
  place r hr := (h'.place r (h.keys hr)).trans (h.place r hr)
  placed r hr hp := h'.placed r (h.keys hr) (h.placed r hr hp)

end KeepsPlaces

/-- A state with the same origins keeps the places. -/
theorem SameOrigins.keepsPlaces (h : SameOrigins s s') (policy : SchedulingPolicy) :
    KeepsPlaces policy s s' where
  keys := h.keys ▸ List.Subset.refl _
  place r _ := place_of_origin (h.req r)
  placed r _ := (Placed.of_origin (h.req r)).mpr

namespace InPlace

/-- At the start every request is in its place. -/
theorem init_inPlace (cfg : Config) (kv : K) (enc : E) :
    InPlace policy (Scheduler.init cfg kv enc) where
  nodup := List.nodup_nil
  queued_known := by simp [init, queued]
  requests_known := by simp [init]
  plain _ := rfl
  range r hr := absurd hr List.not_mem_nil
  known r hr := absurd hr List.not_mem_nil
  placed := by simp [init, queued]

/-- Queues that only shrink, and objects that keep their origin. -/
theorem shrink (h : InPlace policy s) (horigins : SameOrigins s s')
    (hqueued : s'.queued.Subperm s.queued) (hrunning : s'.running ⊆ s.running)
    (hrequests : s'.requests ⊆ s.requests)
    (harriving : ∀ r ∈ s'.queued, ¬ Placed policy (s.req r) → Arriving s r →
      r ∈ s'.requests ∧ (s'.req r).status = (s.req r).status) : InPlace policy s' where
  nodup := by
    obtain ⟨l, hperm, hsub⟩ := hqueued
    exact hperm.nodup_iff.mp (h.nodup.sublist hsub)
  queued_known r hr := horigins.keys ▸ h.queued_known r (hqueued.subset hr)
  requests_known r hr := horigins.keys ▸ h.requests_known r (hrequests hr)
  plain r := (horigins.req r).plain (h.plain r)
  range r hr := (InRange.of_origin (horigins.req r)).mpr (h.range r (horigins.keys ▸ hr))
  known r hr := (h.known r (hrequests hr)).imp (Placed.of_origin (horigins.req r)).mpr
    (Unplaced.of_origin (horigins.req r)).mpr
  placed r hr := by
    by_cases hplaced : Placed policy (s.req r)
    · exact .inl ((Placed.of_origin (horigins.req r)).mpr hplaced)
    · have harr := (h.placed r (hqueued.subset hr)).resolve_left hplaced
      obtain ⟨hlive, hstatus⟩ := harriving r hr hplaced harr
      refine .inr ⟨hlive, fun hmem => harr.notRunning (hrunning hmem), hstatus ▸ harr.status, ?_⟩
      rw [Request.isFinished, hstatus]
      exact harr.unfinished

/-- Changing neither queues nor objects. -/
theorem of_same (h : InPlace policy s) (hobjs : s'.objs = s.objs) (hqueued : s'.queued = s.queued)
    (hrunning : s'.running = s.running) (hrequests : s'.requests = s.requests) :
    InPlace policy s' :=
  h.shrink (.of_objs hobjs) (hqueued ▸ List.Subperm.refl _) (hrunning ▸ List.Subset.refl _)
    (hrequests ▸ List.Subset.refl _) fun r _ _ harr =>
      ⟨hrequests ▸ harr.live, by rw [req, req, hobjs]⟩

end InPlace

variable [KVCacheManager K] [EncoderCache E] {out : SchedulerOutput} {mro : ModelRunnerOutput}
  {delayFree : ReqId → Bool} {env : StepEnv}

/-! ### The operations between the steps -/

/-- Ending requests leaves the others in their places. -/
theorem finishRequests_inPlace {ids : Option (List ReqId)} {status : RequestStatus}
    (h : InPlace policy s) (hfinish : s.finishRequests cfg delayFree ids status = .ok s') :
    InPlace policy s' := by
  have hended := finishRequests_ended hfinish
  have hqueued : s'.queued = (s.dequeue (s.validRequests ids)).queued := by
    rw [queued, hended.running, hended.waiting, hended.skippedWaiting, queued]
  refine h.shrink (finishRequests_origins hfinish) (hqueued ▸ dequeue_subperm s _) ?_
    hended.requests.subset fun r hr _ harr => ?_
  · rw [hended.running]
    exact (removeAll_sublist _ _).subset
  · have hvalid : r ∉ s.validRequests ids := by
      intro hmem
      rw [hqueued, mem_queued, dequeue_waiting_perm.mem_iff, dequeue_skippedWaiting_perm.mem_iff]
        at hr
      have hgone : r ∈ (s.validRequests ids).filter
          fun r => (s.req r).status ≠ RequestStatus.running := by
        simp [hmem, harr.status]
      rcases hr with hr | hr | hr
      · exact harr.notRunning ((removeAll_sublist _ _).subset hr)
      · exact of_decide_eq_true (List.mem_filter.mp hr).2 hgone
      · exact of_decide_eq_true (List.mem_filter.mp hr).2 hgone
    exact ⟨hended.stays r hvalid harr.live, congrArg Request.status (hended.others r hvalid)⟩

/-- What the loop of `update_from_output` leaves of the state when no request is resumable. -/
structure Settled (out : SchedulerOutput) (s s' : Scheduler K E) : Prop where
  origins : SameOrigins s s'
  running : s'.running = s.running
  waiting : s'.waiting = s.waiting
  skippedWaiting : s'.skippedWaiting = s.skippedWaiting
  requests : s'.requests ⊆ s.requests
  others : ∀ r ∉ out.numScheduledTokens.keys, r ∈ s.requests →
    r ∈ s'.requests ∧ (s'.req r).status = (s.req r).status

/-- An entry of the output leaves the queued requests settled. -/
theorem processOutput_settled {failed : List ReqId} {us us' : UpdateState K E} {e : ReqId × ℤ}
    (h : Settled out s us.sch) (hplain : ∀ x, (s.req x).resumable = false)
    (hknown : ∀ r ∈ s.requests, r ∈ s.objs.keys) (he : e ∈ out.numScheduledTokens.entries)
    (hround : processOutput cfg out mro failed us e = .ok us') : Settled out s us'.sch := by
  have hkey : e.1 ∈ out.numScheduledTokens.keys := List.mem_map_of_mem he
  have hplain' : ∀ x, (us.sch.req x).resumable = false := fun x =>
    (h.origins.req x).plain (hplain x)
  have horigins := h.origins.trans (processOutput_origins hplain' hround)
  have hanswered : ∀ {before stopped sch}, e.1 ∈ us.sch.requests →
      answerRequest cfg out mro e.1 us.sch = .ok (before, stopped, sch) → SameOrigins s sch →
      Settled out s sch := by
    intro before stopped sch hmem hanswer horigins
    obtain ⟨-, hans⟩ :=
      answerRequest_answered (h.origins.keys ▸ hknown _ (h.requests hmem)) hanswer
    obtain ⟨objs, kv, enc, hsame⟩ := hans.same
    refine ⟨horigins, by rw [hsame]; exact h.running, by rw [hsame]; exact h.waiting,
      by rw [hsame]; exact h.skippedWaiting, by rw [hsame]; exact h.requests, fun r hr hlive => ?_⟩
    obtain ⟨hstays, hstatus⟩ := h.others r hr hlive
    have hne : r ≠ e.1 := fun hEq => hr (hEq ▸ hkey)
    refine ⟨by rw [hsame]; exact hstays, ?_⟩
    rw [hans.others r hne]
    exact hstatus
  cases processOutput_outcome hround with
  | passed hus =>
    subst hus
    exact h
  | answered hmem _ hanswer hus =>
    subst hus
    exact hanswered hmem hanswer horigins
  | stopped hmem _ hanswer hstop =>
    have hsch := answerRequest_origins hanswer
    have h₁ := hanswered hmem hanswer (h.origins.trans hsch)
    have hfree := stopRequest_plain ((hsch.req e.1).plain (hplain' e.1)) hstop
    have hended := freeRequest_ended hfree
    refine ⟨horigins, hended.running.trans h₁.running, hended.waiting.trans h₁.waiting,
      hended.skippedWaiting.trans h₁.skippedWaiting,
      List.Subset.trans hended.requests.subset h₁.requests, fun r hr hlive => ?_⟩
    obtain ⟨hstays, hstatus⟩ := h₁.others r hr hlive
    have hne : r ∉ [e.1] := fun hmem => hr (List.mem_singleton.mp hmem ▸ hkey)
    exact ⟨hended.stays r hne hstays, (congrArg Request.status (hended.others r hne)).trans hstatus⟩

/-- An answer to placed requests keeps the places. -/
theorem updateFromOutput_inPlace (h : InPlace policy s)
    (hplaced : ∀ r ∈ out.numScheduledTokens.keys, Placed policy (s.req r))
    (hupdate : s.updateFromOutput cfg out mro = .ok s') : InPlace policy s' := by
  obtain ⟨failed, s₁, us, s₂, -, hrec, hfold, hfail, htransfer⟩ := updateFromOutput_eq_ok hupdate
  have hsettled₁ : Settled out s s₁ := by
    obtain ⟨objs, kv, failedRecving, hsame⟩ := hrec.same
    refine ⟨⟨hrec.keys, fun x => ?_⟩, by rw [hsame], by rw [hsame], by rw [hsame],
      by rw [hsame]; exact List.Subset.refl _, fun r _ hlive => ⟨by rw [hsame]; exact hlive, ?_⟩⟩
    · obtain ⟨n, hn⟩ := hrec.req x
      rw [hn]
      exact ⟨rfl, id⟩
    · obtain ⟨n, hn⟩ := hrec.req r
      rw [hn]
  have hsettled : Settled out s us.sch :=
    foldlM_invariant (I := fun us => Settled out s us.sch) hfold hsettled₁ fun e he u u' hI hround =>
      processOutput_settled hI h.plain h.requests_known he hround
  have hloop : InPlace policy us.sch := by
    have hqueued : us.sch.queued = s.queued := by
      rw [queued, hsettled.running, hsettled.waiting, hsettled.skippedWaiting, queued]
    refine h.shrink hsettled.origins (hqueued ▸ List.Subperm.refl _)
      (hsettled.running ▸ List.Subset.refl _) hsettled.requests fun r _ hun harr => ?_
    exact hsettled.others r (fun hkey => hun (hplaced r hkey)) harr.live
  have hremoved : InPlace policy (removeStopped us) := by
    refine hloop.shrink (.of_objs rfl) ?_ ?_ (List.Subset.refl _) fun r _ _ harr => ⟨harr.live, rfl⟩
    · refine List.Subperm.append (List.Subperm.append ?_ ?_) (List.Subperm.refl _)
      · unfold removeStopped
        dsimp only
        split
        exacts [List.Subperm.refl _, (removeAll_sublist _ _).subperm]
      · exact removeStopped_waiting.subperm.trans List.filter_sublist.subperm
    · unfold removeStopped
      dsimp only
      split
      exacts [List.Subset.refl _, (removeAll_sublist _ _).subset]
  have h₂ : InPlace policy s₂ := by
    unfold failKvLoads at hfail
    split at hfail
    · cases hfail
      exact hremoved
    · split at hfail
      · cases hfail
      · exact finishRequests_inPlace hremoved hfail
  obtain ⟨requests, finishedRecving, kv, hsame⟩ := htransfer.same
  refine h₂.shrink (.of_objs (by rw [hsame])) (by rw [hsame]; exact List.Subperm.refl _)
    (by rw [hsame]; exact List.Subset.refl _) htransfer.requests.subset fun r _ _ harr =>
      ⟨htransfer.stays r harr.live harr.unfinished, by rw [hsame]; rfl⟩

/-- Resetting the prefix cache leaves the requests in their places. -/
theorem resetPrefixCache_inPlace {reset ok : Bool} (h : InPlace policy s)
    (hreset : s.resetPrefixCache reset = .ok (ok, s')) : InPlace policy s' := by
  have horigins := resetPrefixCache_origins hreset
  cases resetPrefixCache_outcome hreset with
  | kept _ hs' =>
    subst hs'
    exact h.of_same rfl rfl rfl rfl
  | preempted _ hall =>
    obtain ⟨objs, kv, enc, hsame⟩ := hall.same
    refine h.shrink horigins ?_ ?_ ?_ fun r _ _ harr => ⟨?_, ?_⟩
    · rw [hsame]
      exact ((List.Sublist.append_right (List.nil_sublist s.running) _).append_right _).subperm
    · rw [hsame]
      exact List.nil_subset _
    · rw [hsame]
      exact List.Subset.refl _
    · rw [hsame]
      exact harr.live
    · rw [hall.others r harr.notRunning]

omit [KVCacheManager K] [EncoderCache E] in
/-- Drafts leave the requests in their places. -/
theorem updateDraftTokenIds_inPlace {validateTokens : ReqId → List Token → List Token}
    {drafts : List (ReqId × List Token)} (h : InPlace policy s) :
    InPlace policy (s.updateDraftTokenIds validateTokens drafts) := by
  have horigins := updateDraftTokenIds_origins validateTokens s drafts
  obtain ⟨⟨objs, hsame⟩, -, hreq⟩ := updateDraftTokenIds_same validateTokens s drafts
  refine h.shrink horigins (by rw [hsame]; exact List.Subperm.refl _)
    (by rw [hsame]; exact List.Subset.refl _) (by rw [hsame]; exact List.Subset.refl _)
    fun r _ _ harr => ⟨by rw [hsame]; exact harr.live, ?_⟩
  obtain ⟨spec, hspec⟩ := hreq r
  rw [hspec]

/-- What becomes of a request that is not resumable: it is a chunk that nobody takes, it ends the
session that it belongs to, or it is admitted as it came. -/
theorem addRequest_plain {request : Request} (hplain : request.resumable = false)
    (hadd : s.addRequest cfg delayFree request = .ok s') :
    (∃ queue, s' = s.modifyReq request.requestId fun q => { q with streamingQueue := some queue }) ∨
      s.finishRequests cfg delayFree (some [request.requestId]) .finishedAborted = .ok s' ∨
      (request.requestId ∉ s.requests ∧ ∃ q, request.SameOrigin q ∧
        (q.status = .waiting ∨ q.status = .waitingForStructuredOutputGrammar) ∧
        Admitted request.requestId q s s') := by
  unfold addRequest at hadd
  dsimp only at hadd
  have hid : (request.create cfg.blockHasher).requestId = request.requestId := rfl
  rw [hid] at hadd
  split at hadd
  · split at hadd
    · split at hadd
      · cases hadd
      · cases hadd
        exact .inl ⟨_, rfl⟩
    · have hend : (request.create cfg.blockHasher).toStreamingUpdate = none := by
        have hcreated : (request.create cfg.blockHasher).resumable = request.resumable := rfl
        rw [Request.toStreamingUpdate, hcreated, hplain]
        rfl
      rw [hend] at hadd
      exact .inr (.inl hadd)
  · rename_i hmem
    cases hadd
    refine .inr (.inr ⟨hmem, { request.create cfg.blockHasher with
      streamingQueue := if (request.create cfg.blockHasher).resumable then some [] else none },
      ⟨rfl, id⟩, ?_, enqueue_admitted (s := s) (r := request.requestId) _⟩)
    simp only [Request.create, Request.updateBlockHashes]
    split
    exacts [.inr rfl, .inl rfl]

/-- A request that comes in unplaced, or with the priority of its place, may be added. -/
theorem addRequest_inPlace {request : Request} (h : InPlace policy s)
    (hnew : request.requestId ∈ s.requests ∨ request.requestId ∉ s.objs.keys)
    (hplain : request.resumable = false) (hrange : InRange request)
    (hplace : Placed policy request ∨ Unplaced policy request)
    (hadd : s.addRequest cfg delayFree request = .ok s') :
    InPlace policy s' ∧ KeepsPlaces policy s s' := by
  rcases addRequest_plain hplain hadd with ⟨queue, rfl⟩ | hfinish |
    ⟨hmem, q, horigin, hstatus, hadm⟩
  · have horigins : SameOrigins s (s.modifyReq request.requestId fun q =>
        { q with streamingQueue := some queue }) := (SameOrigins.refl s).modify ⟨rfl, id⟩ rfl
    refine ⟨h.shrink horigins (List.Subperm.refl _) (List.Subset.refl _) (List.Subset.refl _)
      fun r _ _ harr => ⟨harr.live, ?_⟩, horigins.keepsPlaces policy⟩
    exact modifyReq_keeps s _ (fun q => { q with streamingQueue := some queue }) Request.status
      (fun _ => rfl) r
  · exact ⟨finishRequests_inPlace h hfinish, (finishRequests_origins hfinish).keepsPlaces policy⟩
  · have hfresh : request.requestId ∉ s.objs.keys := hnew.resolve_left hmem
    have hself : s'.req request.requestId = q := hadm.self
    have hothers : ∀ {r}, r ∈ s.objs.keys → s'.req r = s.req r := fun hr =>
      hadm.others fun hEq => hfresh (hEq ▸ hr)
    have hkeys : ∀ r, r ∈ s'.objs.keys ↔ r = request.requestId ∨ r ∈ s.objs.keys := fun r => by
      rw [hadm.objs, Dict.mem_keys_set]
    have hrequests : ∀ r, r ∈ s'.requests ↔ r ∈ s.requests ∨ r = request.requestId := fun r => by
      rw [hadm.requests, List.mem_append, List.mem_singleton]
    have hperm : s'.queued.Perm (request.requestId :: s.queued) := by
      rw [List.perm_iff_count]
      intro a
      rcases hadm.entered with ⟨hw, hs⟩ | ⟨hw, hs⟩
      · have := hw.count_eq a
        simp only [queued, hadm.running, hs, List.count_append, List.count_cons,
          List.count_nil] at this ⊢
        omega
      · have := hs.count_eq a
        simp only [queued, hadm.running, hw, List.count_append, List.count_cons,
          List.count_nil] at this ⊢
        omega
    refine ⟨?_, fun r hr => (hkeys r).mpr (.inr hr), fun r hr => by rw [hothers hr],
      fun r hr hp => by rwa [hothers hr]⟩
    constructor
    · exact hperm.nodup_iff.mpr (List.nodup_cons.mpr ⟨fun hr => hfresh (h.queued_known _ hr),
        h.nodup⟩)
    · intro r hr
      exact (hkeys r).mpr ((List.mem_cons.mp (hperm.subset hr)).imp_right (h.queued_known r))
    · intro r hr
      exact (hkeys r).mpr (((hrequests r).mp hr).symm.imp_right (h.requests_known r))
    · intro r
      by_cases hr : r = request.requestId
      · rw [hr, hself]
        exact horigin.plain hplain
      · rw [hadm.others hr]
        exact h.plain r
    · intro r hr
      rcases (hkeys r).mp hr with rfl | hr
      · rw [hself, InRange.of_origin horigin]
        exact hrange
      · rw [hothers hr]
        exact h.range r hr
    · intro r hr
      rcases (hrequests r).mp hr with hr | rfl
      · rw [hothers (h.requests_known r hr)]
        exact h.known r hr
      · rw [hself, Placed.of_origin horigin, Unplaced.of_origin horigin]
        exact hplace
    · intro r hr
      rcases List.mem_cons.mp (hperm.subset hr) with rfl | hr
      · refine .inr ⟨(hrequests _).mpr (.inr rfl), fun hrun => ?_, ?_, ?_⟩
        · rw [hadm.running] at hrun
          exact hfresh (h.queued_known _ (mem_queued.mpr (.inl hrun)))
        · rw [hself]
          rcases hstatus with hstatus | hstatus <;> rw [hstatus] <;> decide
        · rw [hself, Request.isFinished]
          rcases hstatus with hstatus | hstatus <;> rw [hstatus] <;> rfl
      · have hsame := hothers (h.queued_known r hr)
        refine (h.placed r hr).imp (fun hp => hsame ▸ hp) fun harr => ?_
        exact ⟨(hrequests r).mpr (.inl harr.live), by rw [hadm.running]; exact harr.notRunning,
          hsame ▸ harr.status, hsame ▸ harr.unfinished⟩

/-! ### A step -/

/-- A step ranks the requests and then changes nothing that they came with. -/
theorem schedule_ranked (h : InPlace policy s)
    (hschedule : schedule cfg env s = .ok (out, s')) : ∃ objs requests,
    updatePriorities cfg.policy env s.objs s.requests = .ok (objs, requests) ∧
      SamePriorities s.objs objs ∧ s'.objs.keys = s.objs.keys ∧
      (∀ r, (objs.req r).SameOrigin (s'.req r)) ∧
      ∀ r ∈ out.numScheduledTokens.keys, r ∈ s.requests := by
  obtain ⟨ls, hwalked, hfinish⟩ := schedule_eq_ok hschedule
  have hnodup : (s.running ++ s.waiting.items).Nodup :=
    h.nodup.sublist (List.sublist_append_left _ _)
  obtain ⟨ls₀, hbegin, hmoves⟩ := hwalked.moves hnodup
    (fun _ _ _ _ => trivial : StepMeets (fun _ => True) cfg env s)
  have hframe := hmoves.frame
  have hfin := finishStep_spec hfinish
  obtain ⟨objs, requests, hsame, hperm, hprio, hls₀⟩ := beginStep_eq_ok hbegin
  obtain ⟨objs₂, qm₂, kv₂, enc₂, hsch⟩ := hframe.sch
  have hrequests : ls.sch.requests = requests := by rw [hsch, hls₀]
  have hkeys : ls.sch.objs.keys = s.objs.keys := by
    rw [hframe.keys, hls₀]
    exact hsame.keys
  have hscheduled : ∀ r ∈ out.numScheduledTokens.keys, r ∈ s.requests := by
    intro r hr
    rw [hfin.numScheduledTokens] at hr
    obtain ⟨⟨r, n⟩, hn, rfl⟩ := List.mem_map.mp hr
    exact hperm.subset (hrequests ▸ (hfin.scheduled r n hn).1)
  refine ⟨objs, requests, hprio, hsame, hfin.keys.trans hkeys, fun r => ?_, hscheduled⟩
  have hwalk : (objs.req r).SameOrigin (ls.req r) := by
    obtain ⟨_, _, _, _, hin⟩ := hframe.inputs r
    rw [hin, hls₀]
    exact ⟨rfl, id⟩
  by_cases hr : r ∈ ls.numScheduledTokens.keys
  · obtain ⟨⟨r, n⟩, hn, rfl⟩ := List.mem_map.mp hr
    have hlive : r ∈ s.requests := hscheduled r (by rw [hfin.numScheduledTokens]; exact hr)
    rw [(hfin.scheduled r n hn).2 (hkeys ▸ h.requests_known r hlive)]
    obtain ⟨_, _, _, hadv⟩ := advanceRequest_eq cfg n
      ((ls.scheduledSpecDecodeTokens.get? r).getD []).length (ls.req r)
    rw [hadv]
    exact hwalk.trans ⟨rfl, id⟩
  · rw [hfin.unscheduled r hr]
    exact hwalk

omit [KVCacheManager K] [EncoderCache E] in
/-- Ranking places every queued and every live request, and keeps the places of the others. -/
theorem ranked_placed (h : InPlace policy s) (hpolicy : policy = .fcfs ∨ policy = .catfcfs)
    {objs : Objs} {requests : List ReqId}
    (hprio : updatePriorities policy env s.objs s.requests = .ok (objs, requests)) {r : ReqId}
    (hr : r ∈ s.queued ∨ r ∈ s.requests ∨ r ∈ s.objs.keys ∧ Placed policy (s.req r)) :
    Placed policy (objs.req r) := by
  have hplaced : r ∈ s.objs.keys → Placed policy (s.req r) ∨ r ∈ s.requests →
      Placed policy (objs.req r) := by
    intro hk hr
    refine updatePriorities_placed hpolicy hprio hk (h.range r hk) ?_
    rcases hr with hp | hlive
    · exact .inl hp
    · exact (h.known r hlive).imp_right fun hun => ⟨hun, hlive⟩
  rcases hr with hr | hr | ⟨hk, hp⟩
  · exact hplaced (h.queued_known r hr) ((h.placed r hr).imp_right Arriving.live)
  · exact hplaced (h.requests_known r hr) (.inr hr)
  · exact hplaced hk (.inl hp)

/-- A step leaves the requests in their places, which it keeps. -/
theorem schedule_inPlace (hpolicy : cfg.policy = .fcfs ∨ cfg.policy = .catfcfs)
    (h : InPlace cfg.policy s) (hschedule : schedule cfg env s = .ok (out, s')) :
    InPlace cfg.policy s' ∧ KeepsPlaces cfg.policy s s' ∧
      ∀ r ∈ out.numScheduledTokens.keys, r ∈ s'.objs.keys ∧ Placed cfg.policy (s'.req r) := by
  obtain ⟨objs, requests, hprio, hsame, hkeys, horigin, hscheduled⟩ := schedule_ranked h hschedule
  have hplaced : ∀ {r}, r ∈ s.queued ∨ r ∈ s.requests ∨
      r ∈ s.objs.keys ∧ Placed cfg.policy (s.req r) → Placed cfg.policy (s'.req r) := fun hr =>
    (Placed.of_origin (horigin _)).mpr (ranked_placed h hpolicy hprio hr)
  have hframe := schedule_frame (h.nodup.sublist (List.sublist_append_left _ _)) hschedule
  have hperm : s'.queued.Perm s.queued := by
    rw [queued, queued, hframe.skippedWaiting]
    exact hframe.queued.append_right _
  refine ⟨?_, ?_, fun r hr => ⟨?_, hplaced (.inr (.inl (hscheduled r hr)))⟩⟩
  · constructor
    · exact hperm.nodup_iff.mpr h.nodup
    · exact fun r hr => hkeys ▸ h.queued_known r (hperm.subset hr)
    · exact fun r hr => hkeys ▸ h.requests_known r (hframe.requests.subset hr)
    · intro r
      obtain ⟨p, hp⟩ := hsame.req r
      exact (horigin r).plain (by rw [hp]; exact h.plain r)
    · intro r hr
      obtain ⟨p, hp⟩ := hsame.req r
      rw [InRange.of_origin (horigin r), hp]
      exact h.range r (hkeys ▸ hr)
    · exact fun r hr => .inl (hplaced (.inr (.inl (hframe.requests.subset hr))))
    · exact fun r hr => .inl (hplaced (.inl (hperm.subset hr)))
  · refine ⟨hkeys ▸ List.Subset.refl _, fun r hr => ?_, fun r hr hp => hplaced (.inr (.inr ⟨hr, hp⟩))⟩
    obtain ⟨p, hp⟩ := hsame.req r
    rw [place_of_origin (horigin r), hp]
    rfl
  · exact hkeys ▸ h.requests_known r (hscheduled r hr)

/-- Every iteration of a step walks a list that is in the order of the places. -/
theorem Rounds.inOrder {ls : LoopState K E} (hpolicy : cfg.policy = .fcfs ∨ cfg.policy = .catfcfs)
    (h : InPlace cfg.policy s) (hrounds : Rounds cfg env s ls) :
    (∀ r ∈ ls.qm.combined, r ∈ s.objs.keys) ∧ ls.qm.combined.Pairwise fun a b =>
      place cfg.policy (s.req a) ≤ place cfg.policy (s.req b) := by
  obtain ⟨ls₀, hbegin, hmoves⟩ := hrounds.moves (h.nodup.sublist (List.sublist_append_left _ _))
    (fun _ _ _ _ => trivial : StepMeets (fun _ => True) cfg env s)
  rw [hmoves.frame.combined]
  have hqueued : ∀ r ∈ ls₀.qm.combined, r ∈ s.queued := fun r hr =>
    List.mem_append_left _ ((beginStep_combined hbegin).subset hr)
  obtain ⟨objs, requests, hsame, -, hprio, hls₀⟩ := beginStep_eq_ok hbegin
  refine ⟨fun r hr => h.queued_known r (hqueued r hr), ?_⟩
  have hsorted : ls₀.qm.combined.Pairwise fun a b => (objs.req a).priority ≤ (objs.req b).priority := by
    rw [hls₀]
    exact QueueManager.mergeQueues_sorted _ _ _
  refine hsorted.imp_of_mem fun {a b} ha hb hab => ?_
  have hranked : ∀ r ∈ ls₀.qm.combined, (objs.req r).priority =
      placePriority cfg.policy (s.req r) := by
    intro r hr
    obtain ⟨p, hp⟩ := hsame.req r
    have hplaced := ranked_placed h hpolicy hprio (.inl (hqueued r hr))
    rw [Placed, hp] at hplaced
    rw [hp]
    exact hplaced
  rw [hranked a ha, hranked b hb] at hab
  exact (placePriority_le_iff (h.range a (h.queued_known a (hqueued a ha)))
    (h.range b (h.queued_known b (hqueued b hb)))).mp hab

end Scheduler

namespace System

open Scheduler

variable {K E : Type} [KVCacheManager K] [EncoderCache E] {cfg : Config}

/-- What may be asked of a run by arrival. The requests are not resumable and arrive in range. Each
comes with the priority of its place, or with none and no unrecognised category. -/
def ComesToPlace (cfg : Config) : System K E → Op → Prop
  | _, .addRequest request _ => request.resumable = false ∧ InRange request ∧
    (Placed cfg.policy request ∨ Unplaced cfg.policy request)
  | _, _ => True

/-- The queues are in place, and the requests that are with the workers are placed. -/
structure AllInPlace (policy : SchedulingPolicy) (sys : System K E) : Prop where
  sch : InPlace policy sys.sch
  flight : ∀ out ∈ sys.inFlight, ∀ r ∈ out.numScheduledTokens.keys,
    r ∈ sys.sch.objs.keys ∧ Placed policy (sys.sch.req r)

omit [KVCacheManager K] [EncoderCache E] in
/-- Outputs that stay in flight under an operation that keeps the places. -/
theorem AllInPlace.keeps {policy : SchedulingPolicy} {sys sys' : System K E}
    (h : AllInPlace policy sys) (hsch : InPlace policy sys'.sch)
    (hkeeps : KeepsPlaces policy sys.sch sys'.sch) (hflight : sys'.inFlight ⊆ sys.inFlight) :
    AllInPlace policy sys' where
  sch := hsch
  flight out hout r hr := by
    obtain ⟨hkey, hplaced⟩ := h.flight out (hflight hout) r hr
    exact ⟨hkeeps.keys hkey, hkeeps.placed r hkey hplaced⟩

/-- An operation that comes to its place leaves all requests in their places. -/
theorem step_inPlace {sys sys' : System K E} {op : Op}
    (hpolicy : cfg.policy = .fcfs ∨ cfg.policy = .catfcfs) (h : AllInPlace cfg.policy sys)
    (hadm : sys.Admissible op) (hok : ComesToPlace cfg sys op)
    (hstep : sys.step cfg op = .ok sys') :
    AllInPlace cfg.policy sys' ∧ KeepsPlaces cfg.policy sys.sch sys'.sch := by
  cases op with
  | addRequest request delayFree =>
    obtain ⟨sch, hadd, hs⟩ := bind_eq_ok.mp hstep
    cases hs
    obtain ⟨hplain, hrange, hplace⟩ := hok
    obtain ⟨hsch, hkeeps⟩ := addRequest_inPlace h.sch hadm hplain hrange hplace hadd
    exact ⟨h.keeps hsch hkeeps (List.Subset.refl _), hkeeps⟩
  | schedule env =>
    obtain ⟨⟨out, sch⟩, hschedule, hs⟩ := bind_eq_ok.mp hstep
    cases hs
    obtain ⟨hsch, hkeeps, hout⟩ := schedule_inPlace hpolicy h.sch hschedule
    refine ⟨⟨hsch, fun o ho r hr => ?_⟩, hkeeps⟩
    rcases List.mem_append.mp ho with ho | ho
    · obtain ⟨hkey, hplaced⟩ := h.flight o ho r hr
      exact ⟨hkeeps.keys hkey, hkeeps.placed r hkey hplaced⟩
    · exact hout r (List.mem_singleton.mp ho ▸ hr)
  | updateFromOutput i mro =>
    unfold step at hstep
    dsimp only at hstep
    split at hstep
    · cases hstep
    · rename_i out hout
      obtain ⟨sch, hupdate, hs⟩ := bind_eq_ok.mp hstep
      cases hs
      have hflight := h.flight out (List.mem_of_getElem? hout)
      have hkeeps := (updateFromOutput_origins h.sch.plain hupdate).keepsPlaces cfg.policy
      have hsch := updateFromOutput_inPlace h.sch (fun r hr => (hflight r hr).2) hupdate
      exact ⟨h.keeps hsch hkeeps (List.eraseIdx_subset), hkeeps⟩
  | finishRequests ids status delayFree =>
    obtain ⟨sch, hfinish, hs⟩ := bind_eq_ok.mp hstep
    cases hs
    have hkeeps := (finishRequests_origins hfinish).keepsPlaces cfg.policy
    exact ⟨h.keeps (finishRequests_inPlace h.sch hfinish) hkeeps (List.Subset.refl _), hkeeps⟩
  | setPauseState pauseState =>
    cases hstep
    have hsch : InPlace cfg.policy (sys.sch.setPauseState pauseState) :=
      h.sch.of_same rfl rfl rfl rfl
    have horigins : SameOrigins sys.sch (sys.sch.setPauseState pauseState) := .of_objs rfl
    have hkeeps := horigins.keepsPlaces cfg.policy
    exact ⟨h.keeps hsch hkeeps (List.Subset.refl _), hkeeps⟩
  | resetPrefixCache reset =>
    obtain ⟨⟨ok, sch⟩, hreset, hs⟩ := bind_eq_ok.mp hstep
    cases hs
    have hkeeps := (resetPrefixCache_origins hreset).keepsPlaces cfg.policy
    exact ⟨h.keeps (resetPrefixCache_inPlace h.sch hreset) hkeeps (List.Subset.refl _), hkeeps⟩
  | updateDraftTokenIds validateTokens drafts =>
    cases hstep
    have hkeeps := (updateDraftTokenIds_origins validateTokens sys.sch drafts).keepsPlaces
      cfg.policy
    exact ⟨h.keeps (updateDraftTokenIds_inPlace h.sch) hkeeps (List.Subset.refl _), hkeeps⟩

/-- Along a run that comes to its places all requests are in them. -/
theorem run_inPlace {start sys : System K E}
    (hpolicy : cfg.policy = .fcfs ∨ cfg.policy = .catfcfs) (hstart : AllInPlace cfg.policy start)
    (h : Run cfg (ComesToPlace cfg) start sys) :
    AllInPlace cfg.policy sys ∧ KeepsPlaces cfg.policy start.sch sys.sch :=
  h.invariant
    (I := fun sys => AllInPlace cfg.policy sys ∧ KeepsPlaces cfg.policy start.sch sys.sch)
    ⟨hstart, .refl _⟩ fun _ _ _ hI hadm hok hstep => by
      obtain ⟨hplace, hkeeps⟩ := step_inPlace hpolicy hI.1 hadm hok hstep
      exact ⟨hplace, hI.2.trans hkeeps⟩

/-- In every step the walk is in the order of the places, and two requests with different places
that a later step walks as well stand there in the same order. -/
structure ArrivalOrder (cfg : Config) (ok : System K E → Op → Prop) (sys : System K E) : Prop where
  sorted : ∀ env ls, Rounds cfg env sys.sch ls → ls.qm.combined.Pairwise fun a b =>
    place cfg.policy (sys.sch.req a) ≤ place cfg.policy (sys.sch.req b)
  stable : ∀ env ls, Rounds cfg env sys.sch ls → ∀ sys', Run cfg ok sys sys' →
    ∀ env' ls', Rounds cfg env' sys'.sch ls' → ∀ r ∈ ls.qm.combined, ∀ x ∈ ls.qm.combined,
    r ∈ ls'.qm.combined → x ∈ ls'.qm.combined →
    place cfg.policy (sys.sch.req r) ≠ place cfg.policy (sys.sch.req x) →
    ([r, x].Sublist ls.qm.combined ↔ [r, x].Sublist ls'.qm.combined)

/-- In every run whose requests come to their places, every step walks the queued requests in the
order of their places, and no later step changes it. -/
theorem arrivalOrder_of_run {kv : K} {enc : E} {sys : System K E}
    (hpolicy : cfg.policy = .fcfs ∨ cfg.policy = .catfcfs)
    (h : Run cfg (ComesToPlace cfg) (init cfg kv enc) sys) :
    ArrivalOrder cfg (ComesToPlace cfg) sys := by
  have hinit : AllInPlace cfg.policy (init cfg kv enc) :=
    ⟨InPlace.init_inPlace cfg kv enc, fun out hout => absurd hout List.not_mem_nil⟩
  obtain ⟨hplace, -⟩ := run_inPlace hpolicy hinit h
  refine ⟨fun env ls hrounds => (hrounds.inOrder hpolicy hplace.sch).2, ?_⟩
  intro env ls hrounds sys' hlater env' ls' hrounds' r hr x hx hr' hx' hne
  obtain ⟨hplace', hkeeps⟩ := run_inPlace hpolicy hplace hlater
  obtain ⟨hknown, hsorted⟩ := hrounds.inOrder hpolicy hplace.sch
  obtain ⟨-, hsorted'⟩ := hrounds'.inOrder hpolicy hplace'.sch
  have hr_place := hkeeps.place r (hknown r hr)
  have hx_place := hkeeps.place x (hknown x hx)
  rw [pair_sublist_iff hsorted hr hx hne,
    pair_sublist_iff hsorted' hr' hx' (by rwa [hr_place, hx_place]), hr_place, hx_place]

/-- The requests are not resumable and arrive in range. -/
def ArrivesInRange (_ : System K E) : Op → Prop
  | .addRequest request _ => request.resumable = false ∧ InRange request
  | _ => True

omit [KVCacheManager K] [EncoderCache E] in
instance (sys : System K E) (op : Op) : Decidable (ArrivesInRange sys op) :=
  match op with
  | .addRequest _ _ => inferInstanceAs (Decidable (_ ∧ _))
  | .schedule _ | .updateFromOutput _ _ | .finishRequests _ _ _ | .setPauseState _
  | .resetPrefixCache _ | .updateDraftTokenIds _ _ => .isTrue trivial

omit [KVCacheManager K] [EncoderCache E] in
instance (sys : System K E) (op : Op) : Decidable (ComesToPlace cfg sys op) :=
  match op with
  | .addRequest _ _ => inferInstanceAs (Decidable (_ ∧ _ ∧ (_ ∨ _)))
  | .schedule _ | .updateFromOutput _ _ | .finishRequests _ _ _ | .setPauseState _
  | .resetPrefixCache _ | .updateDraftTokenIds _ _ => .isTrue trivial

/-- A step begins its walk with a later request before an earlier one. -/
theorem not_arrivalOrder_of_atStart {ok : System K E → Op → Prop} {sys : System K E} {r x : ReqId}
    (hstart : AtStart cfg sys fun ls => ls.qm.combined = [r, x])
    (hlater : place cfg.policy (sys.sch.req x) < place cfg.policy (sys.sch.req r)) :
    ¬ ArrivalOrder cfg ok sys := by
  intro horder
  obtain ⟨ls, hrounds, hcombined⟩ := hstart.exists_rounds
  have hsorted := horder.sorted {} ls hrounds
  rw [hcombined] at hsorted
  exact absurd hlater (not_lt.mpr (by simpa using hsorted))

/-- A request comes with a priority that its client supplied. -/
def clientPriority : List Op :=
  [.addRequest { shortRequest 1 with arrivalTime := 10 } fun _ => false,
    .addRequest { shortRequest 2 with arrivalTime := 20, priority := 5 } fun _ => false]

/-- A request comes with a category that is not recognised. -/
def unknownCategory : List Op :=
  [.addRequest { shortRequest 1 with
      arrivalTime := 10, requestMd := some { category := some .sand } } fun _ => false,
    .addRequest { shortRequest 2 with arrivalTime := 20, requestMd := some {} } fun _ => false]

/-- The system under `catfcfs`. -/
def catfcfsCfg : Config := { conservationCfg with policy := .catfcfs }

/-- A client's priority is taken for an arrival time, and a request of an unrecognised category
goes before the most urgent ones. -/
theorem not_arrivalOrder :
    (∃ sys, Run conservationCfg ArrivesInRange (decoderOnly conservationCfg false 0) sys ∧
      ¬ ArrivalOrder conservationCfg ArrivesInRange sys) ∧
    ∃ sys, Run catfcfsCfg ArrivesInRange (decoderOnly catfcfsCfg false 0) sys ∧
      ¬ ArrivalOrder catfcfsCfg ArrivesInRange sys := by
  constructor
  · have hlegal : Legal conservationCfg ArrivesInRange (decoderOnly conservationCfg false 0)
        clientPriority := by decide +kernel
    obtain ⟨sys, hrun, hstart, hlater⟩ := Reaches.exists_run clientPriority
      (P := fun sys => (AtStart conservationCfg sys fun ls => ls.qm.combined = [2, 1]) ∧
        place .fcfs (sys.sch.req 1) < place .fcfs (sys.sch.req 2)) (by decide +kernel) hlegal
    exact ⟨sys, hrun, not_arrivalOrder_of_atStart hstart hlater⟩
  · have hlegal : Legal catfcfsCfg ArrivesInRange (decoderOnly catfcfsCfg false 0)
        unknownCategory := by decide +kernel
    obtain ⟨sys, hrun, hstart, hlater⟩ := Reaches.exists_run unknownCategory
      (P := fun sys => (AtStart catfcfsCfg sys fun ls => ls.qm.combined = [2, 1]) ∧
        place .catfcfs (sys.sch.req 1) < place .catfcfs (sys.sch.req 2)) (by decide +kernel) hlegal
    exact ⟨sys, hrun, not_arrivalOrder_of_atStart hstart hlater⟩

/-- Sand comes after rocks and goes first, before and after a step. -/
def sandAfterRocks : List Op :=
  [.addRequest { shortRequest 1 with
      arrivalTime := 10, requestMd := some { category := some .rocks } } fun _ => false,
    .addRequest { shortRequest 2 with
      arrivalTime := 20, requestMd := some { category := some .sand } } fun _ => false,
    .schedule {}]

/-- A video request that arrived before a text request is behind it in the running queue of a run.
-/
theorem arrivalOrder_of_sandAfterRocks : ∃ sys,
    Run catfcfsCfg (ComesToPlace catfcfsCfg) (decoderOnly catfcfsCfg false 0) sys ∧
      sys.sch.running = [2, 1] ∧ ArrivalOrder catfcfsCfg (ComesToPlace catfcfsCfg) sys := by
  have hlegal : Legal catfcfsCfg (ComesToPlace catfcfsCfg) (decoderOnly catfcfsCfg false 0)
      sandAfterRocks := by decide +kernel
  obtain ⟨sys, hrun, hrunning⟩ := Reaches.exists_run sandAfterRocks
    (P := fun sys => sys.sch.running = [2, 1]) (by decide +kernel) hlegal
  exact ⟨sys, hrun, hrunning, arrivalOrder_of_run (.inr rfl) hrun⟩

end System

end RpsServe
