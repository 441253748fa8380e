import RpsServe.Scheduler.Answer

/-!
# What a request comes with

Its id, priority, arrival time and metadata. Answers, endings and resets write to none of them,
and a request that was not resumable does not become so; the next chunk of a session is the one
exception, and it is never taken by a request that is not resumable.
-/

namespace RpsServe

/-- What a request comes with. -/
structure Origin where
  requestId : ReqId
  priority : ℤ
  arrivalTime : ℤ
  requestMd : Option RequestMetadata

namespace Request

/-- What the request came with. -/
def origin (q : Request) : Origin := ⟨q.requestId, q.priority, q.arrivalTime, q.requestMd⟩

/-- `q'` came with the same as `q`, and is no more resumable. -/
structure SameOrigin (q q' : Request) : Prop where
  origin : q'.origin = q.origin
  plain : q.resumable = false → q'.resumable = false

namespace SameOrigin

variable {q q₁ q' : Request}

/-- A request has its own origin. -/
theorem refl (q : Request) : q.SameOrigin q := ⟨rfl, id⟩

/-- Requests with the origin of the same request have the same origin. -/
theorem trans (h : q.SameOrigin q₁) (h' : q₁.SameOrigin q') : q.SameOrigin q' :=
  ⟨h'.origin.trans h.origin, fun hq => h'.plain (h.plain hq)⟩

/-- Requests of the same origin have the same priority. -/
theorem priority (h : q.SameOrigin q') : q'.priority = q.priority := congrArg Origin.priority h.origin

/-- Requests of the same origin have the same arrival time. -/
theorem arrivalTime (h : q.SameOrigin q') : q'.arrivalTime = q.arrivalTime :=
  congrArg Origin.arrivalTime h.origin

/-- Requests of the same origin have the same metadata. -/
theorem requestMd (h : q.SameOrigin q') : q'.requestMd = q.requestMd :=
  congrArg Origin.requestMd h.origin

end SameOrigin

end Request

/-- Appending tokens. -/
theorem appendUntilStop_origin {cfg : Config} {tokens kept : List Token} {q q' : Request}
    {stopped : Bool} (h : appendUntilStop cfg tokens q = .ok (kept, q', stopped)) :
    q.SameOrigin q' := by
  induction tokens generalizing q kept with
  | nil =>
    cases h
    exact .refl _
  | cons token rest ih =>
    obtain ⟨status, -, h⟩ := bind_eq_ok.mp h
    cases status with
    | some status =>
      cases h
      exact ⟨rfl, id⟩
    | none =>
      obtain ⟨⟨kept', q₁, stopped₁⟩, happend, h⟩ := bind_eq_ok.mp h
      cases h
      have hrest := ih happend
      exact ⟨hrest.origin, hrest.plain⟩

namespace Scheduler

variable {K E : Type} {cfg : Config} {s s₁ s' : Scheduler K E} {r : ReqId}

/-- Rejecting drafts leaves the origin of a request. -/
theorem rejectDraftTokens_origin (spec tokens : List Token) (q : Request) :
    q.SameOrigin (rejectDraftTokens spec tokens q) := by
  unfold rejectDraftTokens
  split
  · exact .refl q
  · exact ⟨rfl, id⟩

/-- Every object came with the same as before. -/
structure SameOrigins (s s' : Scheduler K E) : Prop where
  keys : s'.objs.keys = s.objs.keys
  req : ∀ x, (s.req x).SameOrigin (s'.req x)

namespace SameOrigins

/-- A state has the origins it has. -/
theorem refl (s : Scheduler K E) : SameOrigins s s := ⟨rfl, fun _ => .refl _⟩

/-- States with the origins of the same state have the same origins. -/
theorem trans (h : SameOrigins s s₁) (h' : SameOrigins s₁ s') : SameOrigins s s' :=
  ⟨h'.keys.trans h.keys, fun x => (h.req x).trans (h'.req x)⟩

/-- States with the same objects have the same origins. -/
theorem of_objs (h : s'.objs = s.objs) : SameOrigins s s' :=
  ⟨by rw [h], fun x => by rw [Scheduler.req, Scheduler.req, h]; exact .refl _⟩

/-- Writing to a request what keeps its origin. -/
theorem modify {f : Request → Request} (h : SameOrigins s s₁)
    (hf : (s₁.req r).SameOrigin (f (s₁.req r))) (hobjs : s'.objs = s₁.objs.modify r f) :
    SameOrigins s s' := by
  refine h.trans ⟨by rw [hobjs, Dict.keys_modify], fun x => ?_⟩
  have hreq : s'.req x = Objs.req (s₁.objs.modify r f) x := congrArg (Objs.req · x) hobjs
  rw [hreq]
  rcases Objs.req_modify_cases s₁.objs r f x with hx | ⟨rfl, hx⟩
  · rw [hx]
    exact .refl _
  · rw [hx]
    exact hf

end SameOrigins

variable [KVCacheManager K] [EncoderCache E] {out : SchedulerOutput} {mro : ModelRunnerOutput}
  {tokens kept : List Token} {stopped : Bool} {delayFree : ReqId → Bool}

/-! ### Answers -/

omit [EncoderCache E] in
/-- Writing the output of a request leaves the origins. -/
theorem updateRequestWithOutput_origins
    (h : s.updateRequestWithOutput cfg r tokens = .ok (kept, stopped, s')) : SameOrigins s s' := by
  unfold updateRequestWithOutput at h
  dsimp only at h
  split at h
  · cases h
    exact (SameOrigins.refl s).modify ⟨rfl, id⟩ rfl
  · obtain ⟨⟨kept', q', stopped'⟩, happend, h⟩ := bind_eq_ok.mp h
    have hq := appendUntilStop_origin happend
    dsimp only at h
    split at h
    · cases h
      exact (SameOrigins.refl s).modify hq rfl
    · split at h
      · cases h
      · obtain ⟨kv, -, h⟩ := bind_eq_ok.mp h
        cases h
        exact (SameOrigins.refl s).modify (hq.trans ⟨rfl, id⟩) rfl

omit [EncoderCache E] in
/-- Applying the output to a request leaves the origins. -/
theorem applyOutput_origins (h : s.applyOutput cfg mro r tokens = .ok (kept, stopped, s')) :
    SameOrigins s s' := by
  unfold applyOutput at h
  split at h
  · exact updateRequestWithOutput_origins h
  · split at h
    · cases h
      exact (SameOrigins.refl s).modify ⟨rfl, id⟩ rfl
    · cases h
      exact .refl s

omit [KVCacheManager K] [EncoderCache E] in
/-- Advancing the grammar of a request leaves the origins. -/
theorem applyGrammar_origins (mro : ModelRunnerOutput) (r : ReqId) (kept : List Token)
    (stopped : Bool) (s : Scheduler K E) :
    SameOrigins s (s.applyGrammar mro r kept stopped).2 := by
  unfold applyGrammar
  split
  · exact (SameOrigins.refl s).modify ⟨rfl, fun _ => rfl⟩ rfl
  · exact .refl s

/-- The answer to a request leaves the origins. -/
theorem answerRequest_origins {before : RequestStatus}
    (h : answerRequest cfg out mro r s = .ok (before, stopped, s')) : SameOrigins s s' := by
  obtain ⟨⟨kept, stopped₁, t⟩, happly, h⟩ := bind_eq_ok.mp h
  set s₁ := s.modifyReq r (rejectDraftTokens
    ((out.scheduledSpecDecodeTokens.get? r).getD []) (mro.sampledTokenIds r)) with hs₁
  have hfree : SameOrigins s
      (if (s₁.req r).hasEncoderInputs then s₁.freeEncoderInputs cfg r else s₁) := by
    have hreject : SameOrigins s s₁ :=
      (SameOrigins.refl s).modify (rejectDraftTokens_origin _ _ _) rfl
    split
    · exact hreject.trans (.of_objs rfl)
    · exact hreject
  have happlied := (hfree.trans (applyOutput_origins happly)).trans
    (applyGrammar_origins mro r kept stopped₁ t)
  cases h
  split
  · exact happlied.modify ⟨rfl, id⟩ rfl
  · exact happlied

/-! ### Endings -/

/-- Freeing a request leaves the origins. -/
theorem freeRequest_origins {delayed : Bool} (h : s.freeRequest cfg delayFree r delayed = .ok s') :
    SameOrigins s s' := by
  obtain ⟨-, kv, rfl⟩ := freeRequest_eq_ok h
  exact .of_objs rfl

/-- Ending requests leaves the origins. -/
theorem finishRequests_origins {ids : Option (List ReqId)} {status : RequestStatus}
    (h : s.finishRequests cfg delayFree ids status = .ok s') : SameOrigins s s' := by
  unfold finishRequests at h
  split at h
  · cases h
  · refine foldlM_invariant (I := SameOrigins s) h (.of_objs rfl) fun r _ t t' hI hone => ?_
    obtain ⟨-, kv, rfl⟩ := freeRequest_eq_ok hone
    exact hI.modify ⟨rfl, id⟩ rfl

/-- A request that is not resumable and stops is ended. -/
theorem stopRequest_plain {before : RequestStatus} {us us' : UpdateState K E}
    (hplain : (s.req r).resumable = false)
    (h : stopRequest cfg delayFree us r before s = .ok us') :
    s.freeRequest cfg delayFree r = .ok us'.sch := by
  have hhandled : handleStoppedRequest cfg s r = (true, s) := by simp [handleStoppedRequest, hplain]
  rw [stopRequest, hhandled] at h
  obtain ⟨t, ht, h⟩ := bind_eq_ok.mp h
  split at h <;> cases h <;> exact ht

/-- An entry of the output leaves the origins where no session is resumable. -/
theorem processOutput_origins {failed : List ReqId} {us us' : UpdateState K E} {e : ReqId × ℤ}
    (hplain : ∀ x, (us.sch.req x).resumable = false)
    (h : processOutput cfg out mro failed us e = .ok us') : SameOrigins us.sch us'.sch := by
  cases processOutput_outcome h with
  | passed hus =>
    subst hus
    exact .refl _
  | answered _ _ hanswer hus =>
    subst hus
    exact answerRequest_origins hanswer
  | stopped _ _ hanswer hstop =>
    have hanswered := answerRequest_origins hanswer
    have hended := stopRequest_plain ((hanswered.req e.1).plain (hplain e.1)) hstop
    exact hanswered.trans (freeRequest_origins hended)

/-- A whole answer to requests that are not resumable. -/
theorem updateFromOutput_origins (hplain : ∀ x, (s.req x).resumable = false)
    (h : s.updateFromOutput cfg out mro = .ok s') : SameOrigins s s' := by
  obtain ⟨failed, s₁, us, s₂, -, hrec, hfold, hfail, htransfer⟩ := updateFromOutput_eq_ok h
  have h₁ : SameOrigins s s₁ := by
    refine ⟨hrec.keys, fun x => ?_⟩
    obtain ⟨n, hn⟩ := hrec.req x
    rw [hn]
    exact ⟨rfl, id⟩
  have hloop : SameOrigins s us.sch :=
    foldlM_invariant (I := fun us => SameOrigins s us.sch) hfold h₁ fun e _ u u' hI hround =>
      hI.trans (processOutput_origins (fun x => (hI.req x).plain (hplain x)) hround)
  have h₂ : SameOrigins s s₂ := by
    have hremoved : SameOrigins s (removeStopped us) := hloop.trans (.of_objs rfl)
    unfold failKvLoads at hfail
    split at hfail
    · cases hfail
      exact hremoved
    · split at hfail
      · cases hfail
      · exact hremoved.trans (finishRequests_origins hfail)
  obtain ⟨requests, finishedRecving, kv, rfl⟩ := htransfer.same
  exact h₂.trans (.of_objs rfl)

/-! ### Resets, drafts and steps -/

/-- Resetting the prefix cache leaves the origins. -/
theorem resetPrefixCache_origins {reset ok : Bool} (h : s.resetPrefixCache reset = .ok (ok, s')) :
    SameOrigins s s' := by
  unfold resetPrefixCache at h
  split at h
  · obtain ⟨t, ht, h⟩ := bind_eq_ok.mp h
    obtain ⟨t₁, hall, ht⟩ := bind_eq_ok.mp ht
    cases ht
    have ht₁ : SameOrigins s t₁ := by
      refine foldlM_invariant (I := SameOrigins s) hall (.of_objs rfl) fun r _ u u' hI hone => ?_
      obtain ⟨v, hv, hone⟩ := bind_eq_ok.mp hone
      obtain ⟨-, rfl⟩ := preemptRequest_eq_ok hv
      cases hone
      exact (hI.modify ⟨rfl, id⟩ rfl).modify ⟨rfl, id⟩ rfl
    dsimp only at h
    split at h
    · cases h
      exact ht₁.trans (.of_objs rfl)
    · cases h
  · cases h
    exact .of_objs rfl

omit [KVCacheManager K] [EncoderCache E] in
/-- Drafts leave the origins. -/
theorem updateDraftTokenIds_origins (validateTokens : ReqId → List Token → List Token)
    (s : Scheduler K E) (drafts : List (ReqId × List Token)) :
    SameOrigins s (s.updateDraftTokenIds validateTokens drafts) := by
  obtain ⟨-, hkeys, hreq⟩ := updateDraftTokenIds_same validateTokens s drafts
  refine ⟨hkeys, fun x => ?_⟩
  obtain ⟨spec, hspec⟩ := hreq x
  rw [hspec]
  exact ⟨rfl, id⟩

end Scheduler

end RpsServe
