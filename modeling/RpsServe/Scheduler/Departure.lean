import RpsServe.Scheduler.Leaving
import RpsServe.Scheduler.Conservation
import RpsServe.Scheduler.Untied
import Mathlib.Data.Finset.Card

/-!
# Finished requests leave the scheduler

A request that has a finished status is in no queue, was reported to the workers or will be
by the next step, once, and is in `self.requests` only if the KV connector kept its blocks.
Three things break this: a candidate that a step gives up for good stays in the waiting queue
and is never reported, an admission that makes another request a running one leaves both in the
wrong queue, and an answer that ends a request of the skipped queue leaves it there.
-/

namespace RpsServe

namespace Scheduler

variable {K E : Type}

/-- The sessions that wait for their next chunk. -/
def awaiting (s : Scheduler K E) : Finset ReqId :=
  s.objs.keys.toFinset.filter fun r => (s.req r).status = .waitingForStreamingReq

/-- Apart from the requests `stopped`, which are to be removed from the waiting queue, only live
requests wait; the skipped ones stand in no other queue, and the sessions among them that wait for
a chunk are counted. -/
structure Tidy (stopped : List ReqId) (s : Scheduler K E) : Prop where
  waiting_live : ∀ r ∈ s.waiting.items, r ∉ stopped → (s.req r).isFinished = false
  skipped_live : ∀ r ∈ s.skippedWaiting.items, (s.req r).isFinished = false
  skipped_idle : ∀ r ∈ s.skippedWaiting.items, (s.req r).status ≠ .running
  skipped_known : ∀ r ∈ s.skippedWaiting.items, r ∈ s.objs.keys
  skipped_once : ∀ r ∈ s.skippedWaiting.items, r ∈ s.waiting.items → r ∈ stopped
  sessions : ∀ r, (s.req r).status = .waitingForStreamingReq → r ∈ s.skippedWaiting.items
  counted : s.numWaitingForStreamingInput = s.awaiting.card

variable {cfg : Config} {delayFree : ReqId → Bool} {r : ReqId} {stopped : List ReqId}
  {s s' : Scheduler K E}

/-- A request is awaiting when it waits for a streaming chunk. -/
theorem mem_awaiting : r ∈ s.awaiting ↔ (s.req r).status = .waitingForStreamingReq := by
  rw [awaiting, Finset.mem_filter, List.mem_toFinset]
  refine ⟨And.right, fun h => ⟨?_, h⟩⟩
  by_contra hk
  rw [req, Objs.req_of_notMem hk] at h
  cases h

/-- The waiting sessions when the status of one request may have changed. -/
theorem awaiting_card_of_others (h : ∀ x, x ≠ r → s'.req x = s.req x) :
    (s'.awaiting.card : ℤ) = s.awaiting.card -
      (if (s.req r).status = .waitingForStreamingReq then 1 else 0) +
      if (s'.req r).status = .waitingForStreamingReq then 1 else 0 := by
  have hsame : s'.awaiting.erase r = s.awaiting.erase r := by
    ext x
    rw [Finset.mem_erase, Finset.mem_erase]
    refine and_congr_right fun hx => ?_
    rw [mem_awaiting, mem_awaiting, h x hx]
  have hcard : ∀ t : Scheduler K E, (t.awaiting.card : ℤ) = (t.awaiting.erase r).card +
      if (t.req r).status = .waitingForStreamingReq then 1 else 0 := fun t => by
    by_cases hr : (t.req r).status = .waitingForStreamingReq
    · rw [if_pos hr, ← Nat.cast_succ, Nat.succ_eq_add_one,
        Finset.card_erase_add_one (mem_awaiting.mpr hr)]
    · rw [if_neg hr, Finset.erase_eq_of_notMem fun hmem => hr (mem_awaiting.mp hmem), add_zero]
  rw [hcard s', hcard s, hsame, add_sub_cancel_right]

/-- At the start the state is tidy. -/
theorem init_tidy (cfg : Config) (kv : K) (enc : E) : Tidy [] (Scheduler.init cfg kv enc) where
  waiting_live := by simp [init]
  skipped_live := by simp [init]
  skipped_idle := by simp [init]
  skipped_known := by simp [init]
  skipped_once := by simp [init]
  sessions r hr := by cases hr
  counted := rfl

namespace Tidy

/-- A change of the objects that keeps every status. -/
theorem of_objs (h : Tidy stopped s) (hwaiting : s'.waiting = s.waiting)
    (hskipped : s'.skippedWaiting = s.skippedWaiting) (hkeys : s'.objs.keys = s.objs.keys)
    (hnum : s'.numWaitingForStreamingInput = s.numWaitingForStreamingInput)
    (hstatus : ∀ r, (s'.req r).status = (s.req r).status) : Tidy stopped s' where
  waiting_live r hr hstop := by
    rw [Request.isFinished, hstatus r]
    exact h.waiting_live r (hwaiting ▸ hr) hstop
  skipped_live r hr := by
    rw [Request.isFinished, hstatus r]
    exact h.skipped_live r (hskipped ▸ hr)
  skipped_idle r hr := by
    rw [hstatus r]
    exact h.skipped_idle r (hskipped ▸ hr)
  skipped_known r hr := by
    rw [hkeys]
    exact h.skipped_known r (hskipped ▸ hr)
  skipped_once r hr hw := h.skipped_once r (hskipped ▸ hr) (hwaiting ▸ hw)
  sessions r hr := by
    rw [hskipped]
    exact h.sessions r (hstatus r ▸ hr)
  counted := by
    have hsame : s'.awaiting = s.awaiting := by
      ext r
      rw [mem_awaiting, mem_awaiting, hstatus r]
    rw [hnum, hsame]
    exact h.counted

/-- An operation on the request `r`, which enters the waiting queue once for each member of `w` and
the skipped queue once for each member of `k`. -/
theorem next {stopped' w k : List ReqId} (h : Tidy stopped s)
    (hothers : ∀ x, x ≠ r → s'.req x = s.req x)
    (hkeys : ∀ x, x = r ∨ x ∈ s.objs.keys → x ∈ s'.objs.keys)
    (hw : s'.waiting.items.Perm (s.waiting.items ++ w))
    (hk : s'.skippedWaiting.items.Perm (s.skippedWaiting.items ++ k))
    (hwk : ∀ x, x ∈ w ∨ x ∈ k → x = r) (hstopped : ∀ x ∈ stopped, x ∈ stopped')
    (hlive : r ∈ s'.waiting.items → r ∉ stopped' → (s'.req r).isFinished = false)
    (hskip : r ∈ s'.skippedWaiting.items → (s'.req r).isFinished = false ∧
      (s'.req r).status ≠ .running ∧ (r ∈ s'.waiting.items → r ∈ stopped'))
    (hsession : (s'.req r).status = .waitingForStreamingReq → r ∈ s'.skippedWaiting.items)
    (hnum : s'.numWaitingForStreamingInput = s.numWaitingForStreamingInput -
      (if (s.req r).status = .waitingForStreamingReq then 1 else 0) +
      if (s'.req r).status = .waitingForStreamingReq then 1 else 0) : Tidy stopped' s' := by
  have hwaiting : ∀ x, x ≠ r → x ∈ s'.waiting.items → x ∈ s.waiting.items := fun x hx hmem =>
    (List.mem_append.mp (hw.mem_iff.mp hmem)).resolve_right fun hmem => hx (hwk x (.inl hmem))
  have hskipped : ∀ x, x ≠ r → x ∈ s'.skippedWaiting.items → x ∈ s.skippedWaiting.items :=
    fun x hx hmem =>
      (List.mem_append.mp (hk.mem_iff.mp hmem)).resolve_right fun hmem => hx (hwk x (.inr hmem))
  exact {
    waiting_live := fun x hx hstop => by
      by_cases hxr : x = r
      · subst hxr
        exact hlive hx hstop
      · rw [hothers x hxr]
        exact h.waiting_live x (hwaiting x hxr hx) fun hmem => hstop (hstopped x hmem)
    skipped_live := fun x hx => by
      by_cases hxr : x = r
      · subst hxr
        exact (hskip hx).1
      · rw [hothers x hxr]
        exact h.skipped_live x (hskipped x hxr hx)
    skipped_idle := fun x hx => by
      by_cases hxr : x = r
      · subst hxr
        exact (hskip hx).2.1
      · rw [hothers x hxr]
        exact h.skipped_idle x (hskipped x hxr hx)
    skipped_known := fun x hx => by
      refine hkeys x ?_
      by_cases hxr : x = r
      · exact .inl hxr
      · exact .inr (h.skipped_known x (hskipped x hxr hx))
    skipped_once := fun x hx hx' => by
      by_cases hxr : x = r
      · subst hxr
        exact (hskip hx).2.2 hx'
      · exact hstopped x (h.skipped_once x (hskipped x hxr hx) (hwaiting x hxr hx'))
    sessions := fun x hx => by
      by_cases hxr : x = r
      · subst hxr
        exact hsession hx
      · rw [hothers x hxr] at hx
        exact hk.mem_iff.mpr (List.mem_append_left _ (h.sessions x hx))
    counted := by rw [hnum, h.counted, awaiting_card_of_others hothers] }

end Tidy

variable [KVCacheManager K] [EncoderCache E]

/-! ### The operations between steps -/

/-- Ending requests keeps the state tidy. -/
theorem finishRequests_tidy {ids : Option (List ReqId)} {status : RequestStatus}
    (hs : Coherent s) (h : Tidy [] s) (hfinish : s.finishRequests cfg delayFree ids status = .ok s') :
    Tidy [] s' := by
  have hended := finishRequests_ended hfinish
  set valid := s.validRequests ids with hvalid
  have hknown : ∀ r ∈ valid, r ∈ s.objs.keys := fun r hr =>
    hs.requests_known r (mem_validRequests hr).1
  have hidle : ∀ r ∈ s.waiting.items, (s.req r).status ≠ .running := fun r hr hrun =>
    hs.not_waiting ((hs.status r).mp hrun) hr
  have hold : ∀ r ∉ valid, s'.req r = s.req r := hended.others
  have hwaiting : ∀ r ∈ s'.waiting.items, r ∈ s.waiting.items ∧ r ∉ valid := fun r hr => by
    rw [hended.waiting, dequeue_waiting_perm.mem_iff, List.mem_filter] at hr
    refine ⟨hr.1, fun hmem => ?_⟩
    simp [hmem, hidle r hr.1] at hr
  have hskipped : ∀ r, r ∈ s'.skippedWaiting.items ↔ r ∈ s.skippedWaiting.items ∧ r ∉ valid :=
    fun r => by
      rw [hended.skippedWaiting, dequeue_skippedWaiting_perm.mem_iff, List.mem_filter]
      refine and_congr_right fun hr => ?_
      simp [h.skipped_idle r hr]
  have hstreaming : ∀ r, (s'.req r).status = .waitingForStreamingReq → r ∉ valid := fun r hr hmem => by
    have hfin := hended.finished r hmem (hknown r hmem)
    rw [Request.isFinished, hr] at hfin
    cases hfin
  exact {
    waiting_live := fun r hr _ => by
      rw [hold r (hwaiting r hr).2]
      exact h.waiting_live r (hwaiting r hr).1 List.not_mem_nil
    skipped_live := fun r hr => by
      rw [hold r ((hskipped r).mp hr).2]
      exact h.skipped_live r ((hskipped r).mp hr).1
    skipped_idle := fun r hr => by
      rw [hold r ((hskipped r).mp hr).2]
      exact h.skipped_idle r ((hskipped r).mp hr).1
    skipped_known := fun r hr => hended.keys ▸ h.skipped_known r ((hskipped r).mp hr).1
    skipped_once := fun r hr hw => h.skipped_once r ((hskipped r).mp hr).1 (hwaiting r hw).1
    sessions := fun r hr => by
      have hno := hstreaming r hr
      rw [hold r hno] at hr
      exact (hskipped r).mpr ⟨h.sessions r hr, hno⟩
    counted := by
      have hsplit : s'.awaiting = s.awaiting \ valid.toFinset := by
        ext r
        rw [mem_awaiting, Finset.mem_sdiff, mem_awaiting, List.mem_toFinset]
        refine ⟨fun hr => ⟨hold r (hstreaming r hr) ▸ hr, hstreaming r hr⟩, fun hr => ?_⟩
        rw [hold r hr.2]
        exact hr.1
      have hcount : (valid.countP fun r => (s.req r).status = RequestStatus.waitingForStreamingReq) =
          (valid.toFinset ∩ s.awaiting).card := by
        have hnodup : valid.Nodup := (List.nodup_dedup _).filter _
        rw [List.countP_eq_length_filter, ← List.toFinset_card_of_nodup (hnodup.filter _)]
        congr 1
        ext r
        rw [List.mem_toFinset, List.mem_filter, Finset.mem_inter, List.mem_toFinset, mem_awaiting,
          decide_eq_true_eq]
      have hcard := Finset.card_sdiff_add_card_inter s.awaiting valid.toFinset
      rw [Finset.inter_comm] at hcard
      have hnum := hended.numWaiting
      dsimp only [dequeue] at hnum
      rw [hnum, hsplit, h.counted, hcount]
      omega }

/-- Adding a request keeps the state tidy. -/
theorem addRequest_tidy {request : Request} (hs : Coherent s) (h : Tidy [] s)
    (hnew : request.requestId ∈ s.requests ∨ request.requestId ∉ s.objs.keys)
    (hadd : s.addRequest cfg delayFree request = .ok s') : Tidy [] s' := by
  cases addRequest_outcome hadd with
  | @chunkQueued queue hmem hs' =>
    subst hs'
    exact h.of_objs rfl rfl (keys_modifyReq _ _ _) rfl (modifyReq_keeps s request.requestId
      (fun q => { q with streamingQueue := some queue }) Request.status fun _ => rfl)
  | chunkTaken hmem hstatus hnext =>
    have hnext := hnext (hs.requests_known _ hmem)
    obtain ⟨objs, hs'⟩ := hnext.same
    have hself := hnext.status
    have hlive : (s'.req request.requestId).isFinished = false := by
      rw [Request.isFinished, hself]
      rfl
    refine h.next (w := []) (k := []) hnext.others
      (fun x hx => hnext.keys ▸ hx.elim (fun hx => hx ▸ hs.requests_known _ hmem) id)
      (by rw [hs', List.append_nil]) (by rw [hs', List.append_nil]) (by simp) (fun _ hx => hx)
      (fun _ _ => hlive) (fun hr => ⟨hlive, by rw [hself]; decide, fun hw => ?_⟩)
      (fun hwaits => ?_) ?_
    · rw [hs'] at hr hw
      exact h.skipped_once _ hr hw
    · rw [hself] at hwaits
      cases hwaits
    · rw [hself, hs']
      simp [hstatus]
  | sessionEnded _ hfinish => exact finishRequests_tidy hs h hfinish
  | @admitted q hmem hlive hidle _ hchunk hadmitted =>
    have hfresh : request.requestId ∉ s.objs.keys := hnew.resolve_left hmem
    have hself := hadmitted.self
    have hunqueued : request.requestId ∉ s.waiting.items ∧
        request.requestId ∉ s.skippedWaiting.items :=
      ⟨fun hr => hfresh (hs.queued_known _ (List.mem_append_right _ hr)),
        fun hr => hfresh (h.skipped_known _ hr)⟩
    have hold : (s.req request.requestId).status ≠ .waitingForStreamingReq := fun hr =>
      hunqueued.2 (h.sessions _ hr)
    obtain ⟨w, k, hw, hk, hin⟩ : ∃ w k, s'.waiting.items.Perm (s.waiting.items ++ w) ∧
        s'.skippedWaiting.items.Perm (s.skippedWaiting.items ++ k) ∧
        (w = [request.requestId] ∧ k = [] ∨ w = [] ∧ k = [request.requestId]) := by
      rcases hadmitted.entered with ⟨hw, hk⟩ | ⟨hw, hk⟩
      · exact ⟨_, [], hw, by rw [hk, List.append_nil], .inl ⟨rfl, rfl⟩⟩
      · exact ⟨[], _, by rw [hw, List.append_nil], hk, .inr ⟨rfl, rfl⟩⟩
    have hwk : ∀ x, x ∈ w ∨ x ∈ k → x = request.requestId := fun x hx => by
      rcases hin with ⟨rfl, rfl⟩ | ⟨rfl, rfl⟩ <;> simpa using hx
    have hkeys : ∀ x, x = request.requestId ∨ x ∈ s.objs.keys → x ∈ s'.objs.keys := fun x hx => by
      rw [hadmitted.objs, Dict.mem_keys_set]
      exact hx
    refine h.next (fun _ hx => hadmitted.others hx) hkeys hw hk hwk (fun _ hx => hx)
      (fun _ _ => hself ▸ hlive) (fun hr => ⟨hself ▸ hlive, hself ▸ hidle, fun hr' => ?_⟩)
      (fun hwaits => absurd (hself ▸ hwaits) hchunk) ?_
    · have hr := (List.mem_append.mp (hk.mem_iff.mp hr)).resolve_left hunqueued.2
      have hr' := (List.mem_append.mp (hw.mem_iff.mp hr')).resolve_left hunqueued.1
      rcases hin with ⟨-, rfl⟩ | ⟨rfl, -⟩
      exacts [hr, hr']
    · rw [hadmitted.numWaiting, hself, if_neg hold, if_neg hchunk, sub_zero, add_zero]

/-- Resetting the prefix cache keeps the state tidy. -/
theorem resetPrefixCache_tidy {reset ok : Bool} (hs : Coherent s) (h : Tidy [] s)
    (hreset : s.resetPrefixCache reset = .ok (ok, s')) : Tidy [] s' := by
  cases resetPrefixCache_outcome hreset with
  | kept _ hs' =>
    subst hs'
    exact h.of_objs rfl rfl rfl rfl fun _ => rfl
  | preempted _ hall =>
    obtain ⟨objs, kv, enc, hsame⟩ := hall.same
    have hwaiting : s'.waiting = s.waiting := by rw [hsame]
    have hskipped : s'.skippedWaiting = s.skippedWaiting := by rw [hsame]
    have hrunning : ∀ r ∈ s.running, (s'.req r).status = .preempted := fun r hr =>
      hall.preempted r hr (hs.queued_known r (List.mem_append_left _ hr))
    have hold : ∀ r, r ∈ s.waiting.items ∨ r ∈ s.skippedWaiting.items → s'.req r = s.req r :=
      fun r hr => hall.others r fun hrun => hr.elim (hs.not_waiting hrun) fun hr =>
        h.skipped_idle r hr ((hs.status r).mpr hrun)
    have hchunk : ∀ r, (s'.req r).status = .waitingForStreamingReq ↔
        (s.req r).status = .waitingForStreamingReq := fun r => by
      by_cases hr : r ∈ s.running
      · rw [hrunning r hr, (hs.status r).mpr hr]
        decide
      · rw [hall.others r hr]
    exact {
      waiting_live := fun r hr hstop => by
        rw [hwaiting] at hr
        rw [hold r (.inl hr)]
        exact h.waiting_live r hr hstop
      skipped_live := fun r hr => by
        rw [hskipped] at hr
        rw [hold r (.inr hr)]
        exact h.skipped_live r hr
      skipped_idle := fun r hr => by
        rw [hskipped] at hr
        rw [hold r (.inr hr)]
        exact h.skipped_idle r hr
      skipped_known := fun r hr => hall.keys ▸ h.skipped_known r (hskipped ▸ hr)
      skipped_once := fun r hr hw => h.skipped_once r (hskipped ▸ hr) (hwaiting ▸ hw)
      sessions := fun r hr => by
        rw [hskipped]
        exact h.sessions r ((hchunk r).mp hr)
      counted := by
        have hawaiting : s'.awaiting = s.awaiting := by
          ext r
          rw [mem_awaiting, mem_awaiting, hchunk r]
        rw [hawaiting, hsame]
        exact h.counted }

omit [KVCacheManager K] [EncoderCache E] in
/-- Drafts keep the state tidy. -/
theorem updateDraftTokenIds_tidy {validateTokens : ReqId → List Token → List Token}
    {drafts : List (ReqId × List Token)} (h : Tidy [] s) :
    Tidy [] (s.updateDraftTokenIds validateTokens drafts) := by
  obtain ⟨⟨objs, hsame⟩, hkeys, hreq⟩ := updateDraftTokenIds_same validateTokens s drafts
  refine h.of_objs (by rw [hsame]) (by rw [hsame]) hkeys (by rw [hsame]) fun r => ?_
  obtain ⟨spec, hspec⟩ := hreq r
  rw [hspec]

/-! ### Answering a step -/

/-- Whether a request that stops, and had the status `before`, stays live if it stands in the
skipped queue: it did not wait for a chunk, and its session goes on. -/
def StaysSkipped (cfg : Config) (s : Scheduler K E) (r : ReqId) (before : RequestStatus) : Prop :=
  r ∈ s.skippedWaiting.items →
    before ≠ .waitingForStreamingReq ∧ (handleStoppedRequest cfg s r).1 = false

/-- Every request of the skipped queue that the answer stops stays live. -/
def AnswerStaysSkipped (cfg : Config) (out : SchedulerOutput) (mro : ModelRunnerOutput)
    (s : Scheduler K E) : Prop :=
  ∀ failed s₁ us e before sch,
    s.reportedInvalidBlocks cfg out (mro.kvConnectorOutput.getD {}) = .ok (failed, s₁) →
    FoldVisits (processOutput cfg out mro failed) out.numScheduledTokens.entries { sch := s₁ } e us →
    e.1 ∈ us.sch.requests → (us.sch.req e.1).isFinished = false →
    answerRequest cfg out mro e.1 us.sch = .ok (before, true, sch) → StaysSkipped cfg sch e.1 before

variable {out : SchedulerOutput} {mro : ModelRunnerOutput} {done : List ReqId}
  {us us' : UpdateState K E}

/-- One request of the loop in `update_from_output`. -/
theorem processOutput_tidy {failed : List ReqId} {e : ReqId × ℤ} (hs : CoherentIn done us)
    (h : Tidy us.stoppedPreemptedReqs us.sch)
    (hstay : ∀ before sch, e.1 ∈ us.sch.requests → (us.sch.req e.1).isFinished = false →
      answerRequest cfg out mro e.1 us.sch = .ok (before, true, sch) →
      StaysSkipped cfg sch e.1 before)
    (hround : processOutput cfg out mro failed us e = .ok us') :
    Tidy us'.stoppedPreemptedReqs us'.sch := by
  cases processOutput_outcome hround with
  | passed hus =>
    subst hus
    exact h
  | answered hmem _ hanswer hus =>
    have hk := hs.requests_known _ hmem
    obtain ⟨-, hans⟩ := answerRequest_answered hk hanswer
    obtain ⟨objs, kv, enc, hsame⟩ := hans.same
    have hstatus := (hans.answered hk).status rfl
    subst hus
    refine h.of_objs (by rw [hsame]) (by rw [hsame]) hans.keys (by rw [hsame]) fun x => ?_
    by_cases hx : x = e.1
    · exact hx ▸ hstatus
    · rw [hans.others x hx]
  | @stopped before sch hmem hlive hanswer hstop =>
    have hk := hs.requests_known _ hmem
    have hstay := hstay before sch hmem hlive hanswer
    obtain ⟨rfl, hans⟩ := answerRequest_answered hk hanswer
    have hqueues : sch.waiting = us.sch.waiting ∧ sch.skippedWaiting = us.sch.skippedWaiting ∧
        sch.numWaitingForStreamingInput = us.sch.numWaitingForStreamingInput := by
      obtain ⟨objs, kv, enc, rfl⟩ := hans.same
      exact ⟨rfl, rfl, rfl⟩
    have hchunk : (us.sch.req e.1).status ≠ .waitingForStreamingReq := fun hwaits =>
      (hstay (hqueues.2.1 ▸ h.sessions _ hwaits)).1 hwaits
    obtain ⟨hnoted, houtcome⟩ :=
      stopRequest_cases (hans.keys ▸ hk) ((hans.answered hk).finished rfl) hstop
    have hremoved : e.1 ∈ us.sch.waiting.items → e.1 ∈ us'.stoppedPreemptedReqs := fun hw => by
      rw [hnoted.mem_preempted]
      by_cases hb : (us.sch.req e.1).status = .running
      · have hrun := (hs.status e.1).mp hb
        have hle := hs.once e.1
        have hpos := List.count_pos_iff.mpr hrun.1
        have hpos' := List.count_pos_iff.mpr hw
        by_contra hno
        rw [if_neg hrun.2, if_neg fun hmem => hno (.inl hmem)] at hle
        omega
      · exact .inr ⟨rfl, hb⟩
    have hsub : ∀ x ∈ us.stoppedPreemptedReqs, x ∈ us'.stoppedPreemptedReqs := fun x hx =>
      hnoted.mem_preempted.mpr (.inl hx)
    have hnum : sch.numWaitingForStreamingInput = us.sch.numWaitingForStreamingInput -
        if (us.sch.req e.1).status = .waitingForStreamingReq then 1 else 0 := by
      rw [if_neg hchunk, sub_zero, hqueues.2.2]
    rcases houtcome with ⟨hover, hended, -⟩ | ⟨-, -, hgoes⟩
    · have hfin := hended.finished e.1 (List.mem_singleton_self _) (hans.keys ▸ hk)
      have hskipped : us'.sch.skippedWaiting = sch.skippedWaiting := hended.skippedWaiting
      have hno : e.1 ∉ us'.sch.skippedWaiting.items := fun hmem => by
        have hgoes := (hstay (hskipped ▸ hmem)).2
        rw [hover] at hgoes
        cases hgoes
      have hchunk' : (us'.sch.req e.1).status ≠ .waitingForStreamingReq := fun hwaits => by
        rw [Request.isFinished, hwaits] at hfin
        cases hfin
      refine h.next (w := []) (k := []) (fun x hx => ?_) (fun x hx => ?_) ?_ ?_ (by simp) hsub
        (fun hw hstop => absurd (hremoved ?_) hstop) (fun hmem => absurd hmem hno)
        (fun hwaits => absurd hwaits hchunk') ?_
      · exact (hended.others x (by simpa using hx)).trans (hans.others x hx)
      · rw [hended.keys, hans.keys]
        exact hx.elim (fun hx => hx ▸ hk) id
      · rw [hended.waiting, hqueues.1, List.append_nil]
      · rw [hskipped, hqueues.2.1, List.append_nil]
      · rwa [hended.waiting, hqueues.1] at hw
      · rw [hended.numWaiting, hnum, if_neg hchunk', add_zero]
    · have hothers : ∀ x, x ≠ e.1 → us'.sch.req x = us.sch.req x := fun x hx =>
        (hgoes.others x hx).trans (hans.others x hx)
      have hkeys : ∀ x, x = e.1 ∨ x ∈ us.sch.objs.keys → x ∈ us'.sch.objs.keys := fun x hx => by
        rw [hgoes.keys, hans.keys]
        exact hx.elim (fun hx => hx ▸ hk) id
      cases hgoes.rearmed with
      | waits _ hw hskip hstatus hcount =>
        have hwaiting : us'.sch.waiting = us.sch.waiting := hw.trans hqueues.1
        refine h.next (w := []) hothers hkeys ?_ (hqueues.2.1 ▸ hskip) (by simp) hsub ?_ ?_ ?_ ?_
        · rw [hwaiting, List.append_nil]
        · exact fun _ _ => by rw [Request.isFinished, hstatus]; rfl
        · exact fun _ => ⟨by rw [Request.isFinished, hstatus]; rfl, by rw [hstatus]; decide,
            fun hmem => hremoved (hwaiting ▸ hmem)⟩
        · exact fun _ => hskip.mem_iff.mpr (by simp)
        · rw [hcount, hnum, if_pos hstatus]
      | goesOn _ hw hskip hstatus hcount =>
        have hskipped : us'.sch.skippedWaiting = us.sch.skippedWaiting := hskip.trans hqueues.2.1
        have hchunk' : (us'.sch.req e.1).status ≠ .waitingForStreamingReq := by
          rw [hstatus]
          decide
        refine h.next (k := []) hothers hkeys (hqueues.1 ▸ hw) ?_ (by simp) hsub ?_ ?_ ?_ ?_
        · rw [hskipped, List.append_nil]
        · exact fun _ _ => by rw [Request.isFinished, hstatus]; rfl
        · refine fun hmem => ⟨by rw [Request.isFinished, hstatus]; rfl, by rw [hstatus]; decide,
            fun _ => hnoted.mem_preempted.mpr (.inr ⟨rfl, ?_⟩)⟩
          exact h.skipped_idle e.1 (hskipped ▸ hmem)
        · exact fun hwaits => absurd hwaits hchunk'
        · rw [hcount, hnum, if_neg hchunk', add_zero]

omit [KVCacheManager K] [EncoderCache E] in
/-- After the removal of the stopped requests only live ones wait. -/
theorem Tidy.finish (h : Tidy us.stoppedPreemptedReqs us.sch) : Tidy [] (removeStopped us) := by
  have hwaiting : ∀ r ∈ (removeStopped us).waiting.items,
      r ∈ us.sch.waiting.items ∧ r ∉ us.stoppedPreemptedReqs := fun r hr => by
    simpa using removeStopped_waiting.mem_iff.mp hr
  exact {
    waiting_live := fun r hr _ => h.waiting_live r (hwaiting r hr).1 (hwaiting r hr).2
    skipped_live := h.skipped_live
    skipped_idle := h.skipped_idle
    skipped_known := h.skipped_known
    skipped_once := fun r hr hw =>
      absurd (h.skipped_once r hr (hwaiting r hw).1) (hwaiting r hw).2
    sessions := h.sessions
    counted := h.counted }

/-- Answering a step keeps only live requests in the waiting queues if the requests of the skipped
queue that it stops stay live. -/
theorem updateFromOutput_tidy (hs : Coherent s) (h : Tidy [] s)
    (hstay : AnswerStaysSkipped cfg out mro s)
    (hupdate : s.updateFromOutput cfg out mro = .ok s') : Tidy [] s' := by
  obtain ⟨failed, s₁, us, s₂, hinvalid, hrec, hfold, hfail, htransfer⟩ := updateFromOutput_eq_ok hupdate
  have h₁ : Tidy [] s₁ := by
    obtain ⟨objs, kv, failedRecving, hsame⟩ := hrec.same
    refine h.of_objs (by rw [hsame]) (by rw [hsame]) hrec.keys (by rw [hsame]) fun r => ?_
    obtain ⟨n, hn⟩ := hrec.req r
    rw [hn]
  obtain ⟨hcoherent, hloop⟩ := processOutputs_rule
    (I := fun _ us => Tidy us.stoppedPreemptedReqs us.sch) (hs.recomputes hrec) hfold h₁
    fun _ e t _ hvisits _ hI htidy hround => processOutput_tidy hI htidy
      (fun before sch => hstay failed s₁ t e before sch hinvalid hvisits) hround
  have h₂ : Tidy [] s₂ := by
    unfold failKvLoads at hfail
    split at hfail
    · cases hfail
      exact hloop.finish
    · split at hfail
      · cases hfail
      · exact finishRequests_tidy hcoherent.finish hloop.finish hfail
  obtain ⟨requests, finishedRecving, kv, hsame⟩ := htransfer.same
  exact h₂.of_objs (by rw [hsame]) (by rw [hsame]) (by rw [hsame]) (by rw [hsame]) fun r => by
    rw [hsame]
    rfl

/-! ### A step -/

variable {env : StepEnv}

/-- A step that gives up no candidate leaves each queued request in a status that can be queued. -/
theorem schedule_queueable (hs : Coherent s) (h : Tidy [] s) (hlisted : Listed cfg s)
    (hgood : StepMeets GivesUpNone cfg env s) (hschedule : schedule cfg env s = .ok (out, s')) :
    ∀ r ∈ s.running ++ s.waiting.items, (s'.req r).status.Queueable cfg := by
  intro r hr
  obtain ⟨ls, hwalked, hfinish⟩ := schedule_eq_ok hschedule
  rw [(finishStep_spec hfinish).status r]
  refine hwalked.queueable hs hgood ?_
  rcases List.mem_append.mp hr with hr | hr
  · rw [(hs.status r).mpr hr]
    exact .running
  · refine ⟨h.waiting_live r hr List.not_mem_nil, fun hwaits => ?_, fun hc => hlisted.noRemote hc r⟩
    exact absurd (h.skipped_once r (h.sessions r hwaits) hr) List.not_mem_nil

/-- A step that gives up no candidate and admits only first waiting requests keeps only live
requests in the waiting queues. -/
theorem schedule_tidy (hs : Coherent s) (h : Tidy [] s) (hlisted : Listed cfg s)
    (hgood : StepMeets GivesUpNone cfg env s) (hschedule : schedule cfg env s = .ok (out, s')) :
    Tidy [] s' := by
  have hframe := schedule_frame hs.nodup hschedule
  have hqueueable := schedule_queueable hs h hlisted hgood hschedule
  have hskipped : ∀ r ∈ s'.skippedWaiting.items, r ∉ s.running ++ s.waiting.items := fun r hr hq => by
    rw [hframe.skippedWaiting] at hr
    rcases List.mem_append.mp hq with hq | hq
    · exact h.skipped_idle r hr ((hs.status r).mpr hq)
    · exact absurd (h.skipped_once r hr hq) List.not_mem_nil
  have hwaiting : ∀ r ∈ s'.waiting.items, r ∈ s.running ++ s.waiting.items := fun r hr =>
    hframe.queued.mem_iff.mp (List.mem_append_right _ hr)
  have hchunk : ∀ r, (s'.req r).status = .waitingForStreamingReq ↔
      (s.req r).status = .waitingForStreamingReq := fun r => by
    by_cases hr : r ∈ s.running ++ s.waiting.items
    · refine iff_of_false (hqueueable r hr).2.1 fun hwaits => hskipped r ?_ hr
      rw [hframe.skippedWaiting]
      exact h.sessions r hwaits
    · rw [hframe.status r hr]
  exact {
    waiting_live := fun r hr _ => (hqueueable r (hwaiting r hr)).1
    skipped_live := fun r hr => by
      rw [Request.isFinished, hframe.status r (hskipped r hr)]
      exact h.skipped_live r (hframe.skippedWaiting ▸ hr)
    skipped_idle := fun r hr => by
      rw [hframe.status r (hskipped r hr)]
      exact h.skipped_idle r (hframe.skippedWaiting ▸ hr)
    skipped_known := fun r hr => hframe.keys ▸ h.skipped_known r (hframe.skippedWaiting ▸ hr)
    skipped_once := fun r hr hw => absurd (hwaiting r hw) (hskipped r hr)
    sessions := fun r hr => by
      rw [hframe.skippedWaiting]
      exact h.sessions r ((hchunk r).mp hr)
    counted := by
      have hawaiting : s'.awaiting = s.awaiting := by
        ext r
        rw [mem_awaiting, mem_awaiting, hchunk r]
      rw [hframe.numWaiting, hawaiting]
      exact h.counted }

/-- A step that gives up no candidate finishes none. -/
theorem schedule_isFinished (hs : Coherent s) (h : Tidy [] s) (hlisted : Listed cfg s)
    (hgood : StepMeets GivesUpNone cfg env s) (hschedule : schedule cfg env s = .ok (out, s'))
    (r : ReqId) : (s'.req r).isFinished = (s.req r).isFinished := by
  by_cases hr : r ∈ s.running ++ s.waiting.items
  · have hlive : (s.req r).isFinished = false := by
      rcases List.mem_append.mp hr with hr | hr
      · rw [Request.isFinished, (hs.status r).mpr hr]
        rfl
      · exact h.waiting_live r hr List.not_mem_nil
    rw [hlive]
    exact (schedule_queueable hs h hlisted hgood hschedule r hr).1
  · exact congrArg RequestStatus.isFinished ((schedule_frame hs.nodup hschedule).status r hr)

/-- A step that gives no request up keeps the objects listed. -/
theorem schedule_listed (hs : Coherent s) (h : Tidy [] s) (hlisted : Listed cfg s)
    (hgood : StepMeets GivesUpNone cfg env s) (hschedule : schedule cfg env s = .ok (out, s')) :
    Listed cfg s' where
  nodup := (schedule_frame hs.nodup hschedule).requests.nodup_iff.mpr hlisted.nodup
  noRemote hc r := by
    by_cases hr : r ∈ s.running ++ s.waiting.items
    · exact (schedule_queueable hs h hlisted hgood hschedule r hr).2.2 hc
    · rw [(schedule_frame hs.nodup hschedule).status r hr]
      exact hlisted.noRemote hc r

end Scheduler

namespace System

open Scheduler

variable {K E : Type} [KVCacheManager K] [EncoderCache E] {cfg : Config} {sys sys' : System K E}
  {op : Op} {r : ReqId}

/-- How often the id was put into `finished_req_ids`: once for each output that carries it, and
once more while it waits to be handed over. -/
def timesReported (sys : System K E) (r : ReqId) : ℕ :=
  sys.outputs.countP (fun out => r ∈ out.finishedReqIds) +
    if r ∈ sys.sch.finishedReqIds then 1 else 0

/-- Every request that has finished has left the scheduler. -/
structure Left (cfg : Config) (sys : System K E) : Prop where
  unqueued : ∀ r, (sys.sch.req r).isFinished = true →
    r ∉ sys.sch.running ∧ r ∉ sys.sch.waiting.items ∧ r ∉ sys.sch.skippedWaiting.items
  once : ∀ r, (sys.sch.req r).isFinished = true → sys.timesReported r = 1
  freed : cfg.connector = false → ∀ r, (sys.sch.req r).isFinished = true → r ∉ sys.sch.requests
  none : (∀ r ∈ sys.sch.objs.keys, (sys.sch.req r).isFinished = true) →
    sys.sch.getNumUnfinishedRequests = 0

/-- The operations that leave no finished request behind: a step gives up no candidate and admits
only first waiting requests, and an answer stops no request of the skipped queue for good. -/
def LeavesNone (cfg : Config) (sys : System K E) : Op → Prop
  | .schedule env => StepMeets GivesUpNone cfg env sys.sch
  | .updateFromOutput i mro =>
    ∀ out, sys.inFlight[i]? = some out → AnswerStaysSkipped cfg out mro sys.sch
  | _ => True

/-- What every operation that leaves no finished request behind keeps. -/
structure Leaving (cfg : Config) (sys : System K E) : Prop where
  coherent : Coherent sys.sch
  tidy : Tidy [] sys.sch
  listed : Listed cfg sys.sch
  reported : ∀ r, sys.timesReported r = if (sys.sch.req r).isFinished then 1 else 0
  freed : cfg.connector = false → ∀ r, (sys.sch.req r).isFinished = true → r ∉ sys.sch.requests

omit [KVCacheManager K] [EncoderCache E] in
/-- At the start the finished requests are leaving. -/
theorem init_leaving (cfg : Config) (kv : K) (enc : E) : Leaving cfg (init cfg kv enc) where
  coherent := init_coherent cfg kv enc
  tidy := init_tidy cfg kv enc
  listed := ⟨List.nodup_nil, fun _ r hr => by cases hr⟩
  reported r := rfl
  freed _ r _ := List.not_mem_nil

omit [KVCacheManager K] [EncoderCache E] in
/-- Finished requests that are leaving have left. -/
theorem Leaving.left (h : Leaving cfg sys) : Left cfg sys where
  unqueued r hr := by
    refine ⟨fun hrun => ?_, fun hw => ?_, fun hk => ?_⟩
    · rw [Request.isFinished, (h.coherent.status r).mpr hrun] at hr
      cases hr
    · rw [h.tidy.waiting_live r hw List.not_mem_nil] at hr
      cases hr
    · rw [h.tidy.skipped_live r hk] at hr
      cases hr
  once r hr := by rw [h.reported r, if_pos hr]
  freed := h.freed
  none hall := by
    have hlive : ∀ r, (sys.sch.req r).isFinished = false → r ∉ sys.sch.objs.keys := fun r hr hk => by
      rw [hall r hk] at hr
      cases hr
    have hrunning : sys.sch.running = [] := List.eq_nil_iff_forall_not_mem.mpr fun r hr =>
      hlive r (by rw [Request.isFinished, (h.coherent.status r).mpr hr]; rfl)
        (h.coherent.queued_known r (List.mem_append_left _ hr))
    have hwaiting : sys.sch.waiting.items = [] := List.eq_nil_iff_forall_not_mem.mpr fun r hr =>
      hlive r (h.tidy.waiting_live r hr List.not_mem_nil)
        (h.coherent.queued_known r (List.mem_append_right _ hr))
    have hskipped : sys.sch.skippedWaiting.items = [] :=
      List.eq_nil_iff_forall_not_mem.mpr fun r hr =>
        hlive r (h.tidy.skipped_live r hr) (h.tidy.skipped_known r hr)
    have hcounted : sys.sch.numWaitingForStreamingInput = 0 := by
      rw [h.tidy.counted, Finset.card_eq_zero.mpr]
      · rfl
      · refine Finset.eq_empty_of_forall_notMem fun r hr => ?_
        have hmem := h.tidy.sessions r (mem_awaiting.mp hr)
        rw [hskipped] at hmem
        exact List.not_mem_nil hmem
    unfold getNumUnfinishedRequests
    cases sys.sch.pauseState <;> simp [hrunning, hwaiting, hskipped, hcounted]

omit [KVCacheManager K] [EncoderCache E] in
/-- An operation that hands over no output. -/
theorem Leaving.of_reports {delayFree : ReqId → Bool} (h : Leaving cfg sys)
    (hcoherent : Coherent sys'.sch) (htidy : Tidy [] sys'.sch)
    (hreports : Reports cfg delayFree sys.sch sys'.sch) (houtputs : sys'.outputs = sys.outputs) :
    Leaving cfg sys' where
  coherent := hcoherent
  tidy := htidy
  listed := hreports.listed h.listed
  reported r := by
    have hold := h.reported r
    have hmono := hreports.finished r
    unfold timesReported at hold ⊢
    rw [houtputs]
    cases hs : (sys.sch.req r).isFinished with
    | true =>
      have hsame : r ∈ sys'.sch.finishedReqIds ↔ r ∈ sys.sch.finishedReqIds := by
        simp [hreports.reported r, hs]
      rw [hs] at hold
      rw [hmono hs]
      simpa only [hsame] using hold
    | false =>
      rw [hs, if_neg Bool.false_ne_true] at hold
      have hno : r ∉ sys.sch.finishedReqIds := fun hmem => by simp [hmem] at hold
      have hnew : r ∈ sys'.sch.finishedReqIds ↔ (sys'.sch.req r).isFinished = true := by
        simp [hreports.reported r, hs, hno]
      rw [if_neg hno, Nat.add_zero] at hold
      simp only [hold, hnew, Nat.zero_add]
  freed hc r hfin hmem := by
    cases hs : (sys.sch.req r).isFinished with
    | true => exact h.freed hc r hs (hreports.requests r hs hmem)
    | false =>
      have hdelays := hreports.delayed h.listed r hs hfin hmem
      rw [DelaysFree, hc] at hdelays
      cases hdelays.1

/-- The requests that an operation finishes and keeps in `self.requests`. -/
def KeepsDelayed (cfg : Config) (sys : System K E) (op : Op) (sys' : System K E) : Prop :=
  ∀ r, (sys.sch.req r).isFinished = false → (sys'.sch.req r).isFinished = true →
    r ∈ sys'.sch.requests → DelaysFree cfg op.delayFree sys.sch r

/-- A step that leaves no finished request behind. -/
theorem schedule_leaving {env : StepEnv} {out : SchedulerOutput} {sch : Scheduler K E}
    (h : Leaving cfg sys) (hgood : StepMeets GivesUpNone cfg env sys.sch)
    (hschedule : Scheduler.schedule cfg env sys.sch = .ok (out, sch)) :
    Leaving cfg { sch := sch, inFlight := sys.inFlight ++ [out], outputs := sys.outputs ++ [out] } := by
  have hfin := schedule_isFinished h.coherent h.tidy h.listed hgood hschedule
  obtain ⟨hout, hnone⟩ := schedule_handsOver h.coherent.nodup hschedule
  exact {
    coherent := schedule_coherent_of_steady h.coherent
      (fun ls hls e he => (hgood ls hls e he).admitsFirst) hschedule
    tidy := schedule_tidy h.coherent h.tidy h.listed hgood hschedule
    listed := schedule_listed h.coherent h.tidy h.listed hgood hschedule
    reported := fun r => by
      have hold := h.reported r
      unfold timesReported at hold ⊢
      simp only [List.countP_append, List.countP_singleton, hout, hnone, hfin r,
        Finset.notMem_empty, if_false, Nat.add_zero, decide_eq_true_eq]
      exact hold
    freed := fun hc r hr hmem => by
      refine h.freed hc r ((hfin r).symm.trans hr) ?_
      exact (schedule_frame h.coherent.nodup hschedule).requests.mem_iff.mp hmem }

/-- An operation that leaves no finished request behind. -/
theorem step_leaving (h : Leaving cfg sys) (hadm : sys.Admissible op) (hok : LeavesNone cfg sys op)
    (hstep : sys.step cfg op = .ok sys') : Leaving cfg sys' ∧ KeepsDelayed cfg sys op sys' := by
  have hcoherent : Coherent sys'.sch := step_coherent_of_schedule h.coherent hadm
    (fun env hop out s' hschedule => by
      subst hop
      exact (schedule_leaving h hok hschedule).coherent) hstep
  have hknown := h.coherent.requests_known
  cases op with
  | addRequest request delayFree =>
    obtain ⟨sch, hadd, hs⟩ := bind_eq_ok.mp hstep
    cases hs
    have hreports := addRequest_reports hknown hadm hadd
    exact ⟨h.of_reports hcoherent (addRequest_tidy h.coherent h.tidy hadm hadd) hreports rfl,
      hreports.delayed h.listed⟩
  | schedule env =>
    obtain ⟨⟨out, sch⟩, hschedule, hs⟩ := bind_eq_ok.mp hstep
    cases hs
    refine ⟨schedule_leaving h hok hschedule, fun r hlive hfin _ => ?_⟩
    rw [schedule_isFinished h.coherent h.tidy h.listed hok hschedule r, hlive] at hfin
    cases hfin
  | updateFromOutput i mro =>
    unfold step at hstep
    dsimp only at hstep
    split at hstep
    · cases hstep
    · rename_i out hout
      obtain ⟨sch, hupdate, hs⟩ := bind_eq_ok.mp hstep
      cases hs
      have hreports := updateFromOutput_reports h.coherent hupdate
      exact ⟨h.of_reports hcoherent
        (updateFromOutput_tidy h.coherent h.tidy (hok out hout) hupdate) hreports rfl,
        hreports.delayed h.listed⟩
  | finishRequests ids status delayFree =>
    obtain ⟨sch, hfinish, hs⟩ := bind_eq_ok.mp hstep
    cases hs
    have hreports := finishRequests_reports hknown hfinish
    exact ⟨h.of_reports hcoherent (finishRequests_tidy h.coherent h.tidy hfinish) hreports rfl,
      hreports.delayed h.listed⟩
  | setPauseState pauseState =>
    cases hstep
    have hreports : Reports cfg (fun _ => false) sys.sch (sys.sch.setPauseState pauseState) :=
      .of_same (List.Sublist.refl _) rfl fun _ => rfl
    exact ⟨h.of_reports hcoherent (h.tidy.of_objs rfl rfl rfl rfl fun _ => rfl) hreports rfl,
      hreports.delayed h.listed⟩
  | resetPrefixCache reset =>
    obtain ⟨⟨ok, sch⟩, hreset, hs⟩ := bind_eq_ok.mp hstep
    cases hs
    have hreports : Reports cfg (fun _ => false) sys.sch sch := resetPrefixCache_reports
      (fun r hr => h.coherent.queued_known r (List.mem_append_left _ hr)) hreset
    exact ⟨h.of_reports hcoherent (resetPrefixCache_tidy h.coherent h.tidy hreset) hreports rfl,
      hreports.delayed h.listed⟩
  | updateDraftTokenIds validateTokens drafts =>
    cases hstep
    have hreports : Reports cfg (fun _ => false) sys.sch
        (sys.sch.updateDraftTokenIds validateTokens drafts) := updateDraftTokenIds_reports
    exact ⟨h.of_reports hcoherent (updateDraftTokenIds_tidy h.tidy) hreports rfl,
      hreports.delayed h.listed⟩

/-- In every run whose operations leave no finished request behind, every request that has finished
is in no queue, was reported once, and left `self.requests` in the operation that finished it
unless the KV connector kept its blocks. -/
theorem finished_left_of_run {kv : K} {enc : E}
    (h : Run cfg (LeavesNone cfg) (init cfg kv enc) sys) :
    Left cfg sys ∧ ∀ op sys', sys.Admissible op → LeavesNone cfg sys op →
      sys.step cfg op = .ok sys' → KeepsDelayed cfg sys op sys' := by
  have hleaving : Leaving cfg sys := h.invariant (init_leaving cfg kv enc)
    fun _ _ _ hI hadm hok hstep => (step_leaving hI hadm hok hstep).1
  exact ⟨hleaving.left, fun op sys' hadm hok hstep => (step_leaving hleaving hadm hok hstep).2⟩

/-! ### Steps that give up no candidate -/

omit [KVCacheManager K] in
/-- Only a candidate with multimodal items is given up for them. -/
theorem hasEncoderInputs_of_ignored {env : StepEnv} {ls : LoopState K E} {c : CachedPrefix}
    (h : ls.waitingGrant cfg env r c = .ok .ignored) : (ls.req r).hasEncoderInputs = true := by
  have haligned : ∀ e g, LoopState.alignGrant cfg (ls.req r) c e g ≠ .ok (.ignored : Admission E) :=
    fun e g h => by
      obtain ⟨n, -, h⟩ := bind_eq_ok.mp h
      split at h <;> cases h
  unfold LoopState.waitingGrant at h
  dsimp only at h
  split at h
  · split at h
    · exact absurd h (haligned _ _)
    · cases h
  · split at h
    · cases h
    · split at h
      · cases h
      · split at h
        · rename_i hover
          exact hover.1
        · obtain ⟨p, -, h⟩ := bind_eq_ok.mp h
          split at h
          · cases h
          · exact absurd h (haligned _ _)

/-- No two queued requests tie, and none is too large for the caches. -/
def Modest (cfg : Config) (ls : LoopState K E) : Prop :=
  ls.Untied ∧ ls.TextOnly ∧ ∀ r ∈ ls.qm.combined, oversizePrompt cfg (ls.req r) = false

omit [KVCacheManager K] [EncoderCache E] in
instance (ls : LoopState K E) : Decidable (Modest cfg ls) := inferInstanceAs (Decidable (_ ∧ _ ∧ _))

/-- A step over modest requests gives up none of them. -/
theorem givesUpNone_of_modest {env : StepEnv} {s : Scheduler K E} (h : Coherent s)
    (hmodest : Begins (Modest cfg) cfg env s) : StepMeets GivesUpNone cfg env s := by
  intro ls hrounds e he
  have hbegin : ∀ ls₀, beginStep cfg env s = .ok ls₀ → Modest cfg ls₀ := fun _ => hmodest.of_eq_ok
  obtain ⟨hw, hu⟩ := hrounds.untied h <| by
    unfold Begins
    split
    · exact (hbegin _ ‹_›).1
    · trivial
  obtain ⟨ls₀, hbegin', hmoves⟩ := hrounds.moves h.nodup
    (fun _ _ _ _ => trivial : StepMeets (fun _ => True) cfg env s)
  obtain ⟨-, htext, hsize⟩ := hbegin ls₀ hbegin'
  have hfirst := hw.admitsFirst hu he
  cases he with
  | @ignorePrompt r htreats _ _ hover =>
    obtain ⟨_, _, _, _, hsame⟩ := hmoves.frame.inputs r
    have hmem := hmoves.frame.combined ▸ List.mem_of_getElem? htreats.stands
    rw [hsame] at hover
    have hfits := hsize r hmem
    exact absurd (hfits.symm.trans hover) Bool.false_ne_true
  | @ignoreEncoderInputs r c htreats _ _ _ hg =>
    have hnone := hmoves.frame.textOnly htext r (List.mem_of_getElem? htreats.stands)
    have hsome := hasEncoderInputs_of_ignored hg
    simp [Request.hasEncoderInputs, hnone] at hsome
  | _ => exact hfirst

/-- Blocks for twelve tokens. -/
def twelveTokens : Config := { conservationCfg with numBlocks := 3 }

/-- A request with a prompt of sixteen tokens. -/
def longRequest (r : ReqId) : Request :=
  { requestId := r, arrivalTime := r, maxTokens := 4, promptTokenIds := List.replicate 16 1,
    numPromptTokens := 16, allTokenIds := List.replicate 16 1 }

/-- A request whose prompt can never fit comes and is scheduled. -/
def neverFits : List Op := [.addRequest (longRequest 1) fun _ => false, .schedule {}]

/-- After the answer the request that was given up is still waiting, is unfinished to the engine and
was never reported. -/
theorem ignored_not_left : ∃ sys sys',
    Run twelveTokens (fun _ _ => True) (decoderOnly twelveTokens false 0) sys ∧
      (sys.sch.req 1).status = .finishedIgnored ∧
      sys.step twelveTokens (.updateFromOutput 0 {}) = .ok sys' ∧
      (sys'.sch.req 1).status = .finishedIgnored ∧ 1 ∈ sys'.sch.waiting.items ∧
      1 ∈ sys'.sch.requests ∧ sys'.timesReported 1 = 0 ∧
      (∀ r ∈ sys'.sch.objs.keys, (sys'.sch.req r).isFinished = true) ∧
      sys'.sch.getNumUnfinishedRequests = 1 ∧ ¬ Left twelveTokens sys' := by
  have hlegal : Legal twelveTokens (fun _ _ => True) (decoderOnly twelveTokens false 0) neverFits := by
    decide +kernel
  obtain ⟨sys, hrun, hignored, hyields⟩ := Reaches.exists_run neverFits
    (P := fun sys => (sys.sch.req 1).status = .finishedIgnored ∧
      Yields (sys.step twelveTokens (.updateFromOutput 0 {})) fun sys' =>
        (sys'.sch.req 1).status = .finishedIgnored ∧ 1 ∈ sys'.sch.waiting.items ∧
          1 ∈ sys'.sch.requests ∧ sys'.timesReported 1 = 0 ∧
          (∀ r ∈ sys'.sch.objs.keys, (sys'.sch.req r).isFinished = true) ∧
          sys'.sch.getNumUnfinishedRequests = 1)
    (by decide +kernel) hlegal
  obtain ⟨sys', hstep, hstatus, hw, hmem, htimes, hall, hnum⟩ := hyields.exists_ok
  refine ⟨sys, sys', hrun, hignored, hstep, hstatus, hw, hmem, htimes, hall, hnum, fun h => ?_⟩
  exact absurd hw (h.unqueued 1 (by rw [Request.isFinished, hstatus]; rfl)).2.1

/-- The operations but for answers, with steps over modest requests. -/
def StaysModest (cfg : Config) (sys : System K E) : Op → Prop
  | .schedule env => Begins (Modest cfg) cfg env sys.sch
  | .updateFromOutput _ _ => False
  | _ => True

instance (sys : System K E) (op : Op) : Decidable (StaysModest cfg sys op) :=
  match op with
  | .schedule env => inferInstanceAs (Decidable (Begins (Modest cfg) cfg env sys.sch))
  | .updateFromOutput _ _ => .isFalse id
  | .addRequest _ _ | .finishRequests _ _ _ | .setPauseState _ | .resetPrefixCache _
  | .updateDraftTokenIds _ _ => .isTrue trivial

/-- A run over modest requests leaves no finished request behind. -/
theorem leavesNone_of_staysModest {kv : K} {enc : E}
    (h : Run cfg (StaysModest cfg) (init cfg kv enc) sys) :
    Run cfg (LeavesNone cfg) (init cfg kv enc) sys ∧ Coherent sys.sch := by
  induction h with
  | start => exact ⟨.start, init_coherent cfg kv enc⟩
  | @step sys sys' op _ hadm hok hs ih =>
    have hleaves : LeavesNone cfg sys op := by
      cases op with
      | schedule env => exact givesUpNone_of_modest ih.2 hok
      | updateFromOutput => exact hok.elim
      | _ => trivial
    refine ⟨.step ih.1 hadm hleaves hs, step_coherent_of_schedule ih.2 hadm ?_ hs⟩
    rintro env rfl out s' hschedule
    exact schedule_coherent_of_steady ih.2
      (fun ls hls e he => (givesUpNone_of_modest ih.2 hok ls hls e he).admitsFirst) hschedule

/-- Two requests run, and one of them is aborted before the next step. -/
def abortOne : List Op :=
  [.addRequest (shortRequest 1) fun _ => false, .addRequest (shortRequest 2) fun _ => false,
    .schedule {}, .finishRequests (some [1]) .finishedAborted fun _ => false, .schedule {}]

/-- An aborted request has left in a run. -/
theorem left_of_abortOne : ∃ sys,
    Run conservationCfg (LeavesNone conservationCfg) (decoderOnly conservationCfg false 0) sys ∧
      (sys.sch.req 1).status = .finishedAborted ∧ sys.sch.running = [2] ∧ Left conservationCfg sys := by
  have hlegal : Legal conservationCfg (StaysModest conservationCfg) (decoderOnly conservationCfg false 0) abortOne := by
    decide +kernel
  obtain ⟨sys, hrun, hstatus, hrunning⟩ := Reaches.exists_run abortOne
    (P := fun sys => (sys.sch.req 1).status = .finishedAborted ∧ sys.sch.running = [2])
    (by decide +kernel) hlegal
  have hrun := (leavesNone_of_staysModest hrun).1
  exact ⟨sys, hrun, hstatus, hrunning, (finished_left_of_run hrun).1⟩

end System

end RpsServe
