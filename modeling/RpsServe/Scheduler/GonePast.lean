import RpsServe.Scheduler.Touch
import RpsServe.Scheduler.Walking

/-!
# What the walk has gone past

No request stands twice in the merged list, and the walk goes past what it schedules. As long as
no step preempts a request that its walk has gone past, nothing that was scheduled is taken back,
whatever the queue manager records of the two queues.
-/

namespace RpsServe

namespace LoopState

variable {K E : Type}

/-- No request stands twice in the merged list, and what the step has scheduled stands before the
walk. -/
structure GonePast (ls : LoopState K E) : Prop where
  nodup : ls.qm.combined.Nodup
  scheduledKeys : ∀ r, r ∈ ls.numScheduledTokens.keys ↔ r ∈ ls.scheduledReqs
  scheduled : ∀ r ∈ ls.scheduledReqs, ∃ j < ls.reqIndex, ls.qm.combined[j]? = some r

/-- No request is preempted that the walk has gone past. -/
def Spares : Event K E → Prop
  | .preempt ls _ l _ => ls.reqIndex ≤ l
  | _ => True

/-- The requests of the merged list stand in the strict order of their positive priorities. -/
structure StrictlyRanked (ls : LoopState K E) : Prop where
  sorted : ls.qm.combined.Pairwise fun a b => (ls.req a).priority < (ls.req b).priority
  positive : ∀ r ∈ ls.qm.combined, 0 < (ls.req r).priority

/-- The queued requests have distinct positive priorities. -/
structure DistinctPriorities (ls : LoopState K E) : Prop where
  distinct : ls.qm.combined.Pairwise fun a b => (ls.req a).priority ≠ (ls.req b).priority
  positive : ∀ r ∈ ls.qm.combined, 0 < (ls.req r).priority

instance (ls : LoopState K E) : Decidable ls.DistinctPriorities :=
  decidable_of_iff (_ ∧ _) ⟨fun h => ⟨h.1, h.2⟩, fun h => ⟨h.1, h.2⟩⟩

variable [KVCacheManager K] [EncoderCache E] {cfg : Config} {env : StepEnv} {r q v : ReqId}
  {args : AllocateSlotsArgs} {l i j : ℕ} {kv : K} {ls ls' t t' : LoopState K E}

omit [KVCacheManager K] [EncoderCache E] in
/-- A frame leaves the requests ranked. -/
theorem Frame.ranked (h : Frame ls ls') (hr : StrictlyRanked ls) : StrictlyRanked ls' := by
  have hprio : ∀ r, (ls'.req r).priority = (ls.req r).priority := fun r => by
    obtain ⟨_, _, _, _, hsame⟩ := h.inputs r
    rw [hsame]
  exact ⟨by simpa only [hprio, h.combined] using hr.sorted,
    by simpa only [hprio, h.combined] using hr.positive⟩

omit [EncoderCache E] in
/-- Where the requests are ranked, a victim stands at the candidate or behind it. -/
theorem StrictlyRanked.behind (h : StrictlyRanked t) (hq : t.qm.combined[t.reqIndex]? = some q)
    (hpre : Preempts q args t l v kv) : t.reqIndex ≤ l := by
  by_contra hlt
  obtain ⟨hi, rfl⟩ := List.getElem?_eq_some_iff.mp hq
  obtain ⟨hl, rfl⟩ := List.getElem?_eq_some_iff.mp hpre.stands
  have hprio := List.pairwise_iff_getElem.mp h.sorted _ _ hl hi (not_le.mp hlt)
  have hpos := h.positive _ (List.getElem_mem hl)
  have hkeep : keepsPlace (t.req t.qm.combined[l]) (t.req t.qm.combined[t.reqIndex]) = true := by
    simp only [keepsPlace, Bool.and_eq_true, decide_eq_true_eq]
    omega
  rw [hpre.passes] at hkeep
  cases hkeep

omit [KVCacheManager K] [EncoderCache E] in
/-- An orderly event preempts no request that the walk has gone past. -/
theorem Orderly.spares {e : Event K E} (h : Orderly e) : Spares e := by
  cases e with
  | preempt => exact h
  | _ => trivial

namespace GonePast

omit [KVCacheManager K] [EncoderCache E]

/-- A request stands at one place. -/
theorem unique (h : GonePast ls) (hi : ls.qm.combined[i]? = some r)
    (hj : ls.qm.combined[j]? = some r) : i = j := by
  obtain ⟨hi, rfl⟩ := List.getElem?_eq_some_iff.mp hi
  obtain ⟨hj, heq⟩ := List.getElem?_eq_some_iff.mp hj
  exact (h.nodup.getElem_inj_iff.mp heq).symm

/-- What stands at or behind the walk was not scheduled. -/
theorem fresh (h : GonePast ls) (hi : ls.qm.combined[i]? = some r) (hle : ls.reqIndex ≤ i) :
    r ∉ ls.scheduledReqs := fun hmem => by
  obtain ⟨j, hj, hjr⟩ := h.scheduled r hmem
  have := h.unique hi hjr
  omega

/-- What stands at or behind the walk has no tokens yet. -/
theorem unscheduled (h : GonePast ls) (hi : ls.qm.combined[i]? = some r) (hle : ls.reqIndex ≤ i) :
    r ∉ ls.numScheduledTokens.keys := fun hmem =>
  h.fresh hi hle ((h.scheduledKeys r).mp hmem)

/-- The walk schedules nothing and does not go back. -/
theorem of_same (h : GonePast ls) (hcombined : ls'.qm.combined = ls.qm.combined)
    (hnum : ls'.numScheduledTokens = ls.numScheduledTokens)
    (hsched : ls'.scheduledReqs = ls.scheduledReqs) (hindex : ls.reqIndex ≤ ls'.reqIndex) :
    GonePast ls' where
  nodup := hcombined ▸ h.nodup
  scheduledKeys r := by rw [hnum, hsched, h.scheduledKeys r]
  scheduled r hr := by
    obtain ⟨j, hj, hjr⟩ := h.scheduled r (hsched ▸ hr)
    exact ⟨j, hj.trans_le hindex, hcombined ▸ hjr⟩

/-- Changing the encoder cache moves nothing. -/
theorem setEnc (h : GonePast ls) (enc : E) : GonePast (ls.setEnc enc) := h.of_same rfl rfl rfl le_rfl

/-- The walk goes past the candidate that it schedules. -/
theorem next {n : ℤ} (h : GonePast ls) (hr : ls.qm.combined[ls.reqIndex]? = some r)
    (hcombined : ls'.qm.combined = ls.qm.combined) (hindex : ls'.reqIndex = ls.reqIndex + 1)
    (hsched : ∀ x, x ∈ ls'.scheduledReqs ↔ x ∈ ls.scheduledReqs ∨ x = r)
    (hnum : ls'.numScheduledTokens = ls.numScheduledTokens.set r n) : GonePast ls' where
  nodup := hcombined ▸ h.nodup
  scheduledKeys x := by rw [hnum, Dict.mem_keys_set, hsched, h.scheduledKeys x, or_comm]
  scheduled x hx := by
    rw [hcombined, hindex]
    rcases (hsched x).mp hx with hx | rfl
    · obtain ⟨j, hj, hjx⟩ := h.scheduled x hx
      exact ⟨j, Nat.lt_succ_of_lt hj, hjx⟩
    · exact ⟨ls.reqIndex, Nat.lt_succ_self _, hr⟩

end GonePast

omit [KVCacheManager K] in
/-- What scheduling a running candidate adds to the scheduled requests. -/
theorem scheduleRunning_scheduledReqs {g : Grant} {newBlocks : KVCacheBlocks}
    (h : ls.scheduleRunning r g newBlocks = .ok ls') (x : ReqId) :
    x ∈ ls'.scheduledReqs ↔ x ∈ ls.scheduledReqs ∨ x = r := by
  obtain ⟨enc, spec, -, rfl⟩ := scheduleRunning_eq_ok h
  simp only [scheduledReqs, List.mem_append, List.mem_singleton, or_assoc]

/-- What admitting a waiting candidate adds to the scheduled requests. -/
theorem admitWaiting_scheduledReqs {c : CachedPrefix} {g : Grant}
    (h : ls.admitWaiting cfg r c g = .ok ls') (x : ReqId) :
    x ∈ ls'.scheduledReqs ↔ x ∈ ls.scheduledReqs ∨ x = r := by
  obtain ⟨newReqs, resumedReqs, qm', enc, hlists, -, -, rfl⟩ := admitWaiting_eq_ok h
  rcases hlists with ⟨-, rfl, rfl⟩ | ⟨-, rfl, rfl⟩ <;>
    simp only [scheduledReqs, List.mem_append, List.mem_singleton] <;> tauto

namespace GonePast

/-- A victim at or behind the walk is not rolled back. -/
theorem preempt_eq (h : GonePast t) (hpre : Preempts q args t l v kv) (hl : t.reqIndex ≤ l)
    (hvictim : (t.setKv kv).preemptVictim v = .ok t') :
    ∃ qm', QueueManager.PreemptionUpdate t.qm qm' l v ∧ t' = { t with
      sch := { t.sch with
        kv := KVCacheManager.free kv v
        enc := EncoderCache.free t.sch.enc (t.req v)
        objs := t.sch.objs.modify v Scheduler.preempted
        queueManager := qm' }
      preemptedReqs := t.preemptedReqs ++ [v] } := by
  obtain ⟨ls₁, qm', hroll, -, hqm, rfl⟩ := preemptVictim_eq_ok hvictim
  rcases rollback_cases hroll with ⟨-, rfl⟩ | ⟨hv, -⟩
  · rcases QueueManager.updateIdxsAfterPreemption_cases hqm with ⟨hnone, -⟩ | ⟨l', v', u⟩
    · rw [qm_setKv, hpre.lastRunning] at hnone
      cases hnone
    · obtain rfl : l = l' := Option.some.inj (hpre.lastRunning.symm.trans u.lastRunning)
      obtain rfl : v = v' := Option.some.inj (hpre.stands.symm.trans u.stands)
      exact ⟨qm', u, rfl⟩
  · exact absurd (List.mem_append_right _ hv) (h.fresh hpre.stands hl)

/-- A preemption at or behind the walk. -/
theorem preempt (h : GonePast t) (hpre : Preempts q args t l v kv) (hl : t.reqIndex ≤ l)
    (hvictim : (t.setKv kv).preemptVictim v = .ok t') :
    GonePast t' ∧ t'.reqIndex = t.reqIndex := by
  obtain ⟨qm', u, rfl⟩ := h.preempt_eq hpre hl hvictim
  exact ⟨h.of_same u.combined rfl rfl le_rfl, rfl⟩

/-- The rounds of an allocation loop whose victims stand at or behind the walk. -/
theorem visits (h : GonePast ls) (ht : Visits (allocRound q args) ls t)
    (hgood : ∀ t l v kv, Visits (allocRound q args) ls t → Preempts q args t l v kv →
      t.reqIndex ≤ l) : GonePast t ∧ t.reqIndex = ls.reqIndex := by
  refine alloc_invariant (I := fun t => GonePast t ∧ t.reqIndex = ls.reqIndex) ht ⟨h, rfl⟩
    fun u l v kv u' hu hI hpre _ hvictim => ?_
  obtain ⟨hpast, hindex⟩ := hI.1.preempt hpre (hgood u l v kv hu hpre) hvictim
  exact ⟨hpast, hindex.trans hI.2⟩

/-- An allocation loop whose victims stand at or behind the walk. -/
theorem allocLoop {res : Option KVCacheBlocks} (h : GonePast ls)
    (hloop : ls.allocLoop q args = .ok (res, ls'))
    (hgood : ∀ t l v kv, Visits (allocRound q args) ls t → Preempts q args t l v kv →
      t.reqIndex ≤ l) : GonePast ls' ∧ ls'.reqIndex = ls.reqIndex := by
  obtain ⟨t, ht, hexit⟩ := allocLoop_outcome hloop
  obtain ⟨hpast, hindex⟩ := h.visits ht hgood
  cases hexit with
  | found | noneRunning | kept => exact ⟨hpast.of_same rfl rfl rfl le_rfl, hindex⟩
  | itself hpre hvictim =>
    obtain ⟨hpast', hindex'⟩ := hpast.preempt hpre (hgood t _ _ _ ht hpre) hvictim
    exact ⟨hpast', hindex'.trans hindex⟩

/-- A round that preempts no request that the walk has gone past. -/
theorem round {p : Pass (LoopState K E) (LoopState K E)} (h : GonePast ls)
    (hround : RoundOutcome cfg env ls p) (hgood : ∀ e, RoundEvent cfg env ls e → Spares e) :
    GonePast p.state := by
  have hadvance : ∀ {ls' : LoopState K E}, ls'.qm.combined = ls.qm.combined →
      ls'.numScheduledTokens = ls.numScheduledTokens → ls'.scheduledReqs = ls.scheduledReqs →
      ls.reqIndex ≤ ls'.reqIndex → GonePast ls' := h.of_same
  have hignored : ∀ {r f}, ls.ignore r = .ok f → GonePast f.toPass.state := fun hignore => by
    obtain ⟨qm', hqm, rfl⟩ := ignore_eq_ok hignore
    exact hadvance (dropped_combined (.inl hqm)) rfl rfl (Nat.le_succ _)
  cases hround with
  | exhausted | spent | preempted | stuck => exact h
  | passed => exact hadvance rfl rfl rfl (Nat.le_succ _)
  | running htreats hR houtcome =>
    cases houtcome with
    | noTokens => exact hadvance rfl rfl rfl (Nat.le_succ _)
    | noBlocks hgrant hpos halloc =>
      exact ((h.setEnc _).allocLoop halloc fun t l v kv ht hpre =>
        hgood _ (.preemptForRunning htreats hR hgrant hpos ht hpre)).1
    | scheduled hgrant hpos halloc hsched =>
      obtain ⟨hpast, hindex⟩ := (h.setEnc _).allocLoop halloc
        fun t l v kv ht hpre => hgood _ (.preemptForRunning htreats hR hgrant hpos ht hpre)
      have hadded := scheduleRunning_scheduledReqs hsched
      obtain ⟨enc, spec, -, rfl⟩ := scheduleRunning_eq_ok hsched
      refine hpast.next ?_ rfl rfl hadded rfl
      rw [hindex, (allocLoop_sameWaiting halloc).combined]
      exact htreats.stands
  | waiting htreats hR hW houtcome =>
    cases houtcome with
    | ignoredPrompt _ hignore | ignoredEncoderInputs _ _ hignore => exact hignored hignore
    | skipped _ hskip =>
      obtain ⟨qm', hqm, rfl⟩ := skip_eq_ok hskip
      exact hadvance (dropped_combined (.inr hqm)) rfl rfl (Nat.le_succ _)
    | blocked => exact h.setEnc _
    | noBlocks hc hg halloc =>
      have hpast := ((h.setEnc _).allocLoop halloc fun t l v kv ht hpre =>
        hgood _ (.preemptForWaiting htreats hR hW hc hg ht hpre)).1
      dsimp only [Flow.toPass, Pass.state]
      split
      exacts [hpast.of_same rfl rfl rfl le_rfl, hpast]
    | loading hc hg halloc hload hskip =>
      have hpast := ((h.setEnc _).allocLoop halloc fun t l v kv ht hpre =>
        hgood _ (.preemptForWaiting htreats hR hW hc hg ht hpre)).1
      obtain ⟨qm', hqm, rfl⟩ := skip_eq_ok hskip
      exact hpast.of_same (dropped_combined (.inr hqm)) rfl rfl (Nat.le_succ _)
    | admitted hc hg halloc hload hadmitted =>
      obtain ⟨hpast, hindex⟩ := (h.setEnc _).allocLoop halloc
        fun t l v kv ht hpre => hgood _ (.preemptForWaiting htreats hR hW hc hg ht hpre)
      have hadded := admitWaiting_scheduledReqs hadmitted
      obtain ⟨newReqs, resumedReqs, qm', enc, -, hqm, -, rfl⟩ := admitWaiting_eq_ok hadmitted
      refine hpast.next ?_ ?_ rfl hadded rfl
      · rw [hindex, (allocLoop_sameWaiting halloc).combined]
        exact htreats.stands
      · rcases QueueManager.updateIdxsAfterNewScheduling_cases hqm with ⟨-, rfl⟩ | ⟨_, _, u⟩
        exacts [rfl, u.combined]

/-- An allocation loop over ranked requests. -/
theorem visits_ranked (cfg : Config) (h : GonePast ls) (hranked : StrictlyRanked ls)
    (hq : ls.qm.combined[ls.reqIndex]? = some q) (ht : Visits (allocRound q args) ls t) :
    StrictlyRanked t ∧ t.qm.combined[t.reqIndex]? = some q := by
  refine And.right (alloc_invariant
    (I := fun t => GonePast t ∧ StrictlyRanked t ∧ t.qm.combined[t.reqIndex]? = some q) ht
    ⟨h, hranked, hq⟩ fun u l v kv u' _ hI hpre hvq hvictim => ?_)
  obtain ⟨hpast, hranked, hq⟩ := hI
  obtain ⟨hpast', hindex⟩ := hpast.preempt hpre (hranked.behind hq hpre) hvictim
  have hframe : Frame u u' :=
    (Move.preempt trivial hpre hvictim : Move cfg (fun _ => True) u u').frame
  exact ⟨hpast', hframe.ranked hranked, by rw [hindex, hframe.combined, hq]⟩

/-- A round over ranked requests preempts none that the walk has gone past. -/
theorem spares {e : Event K E} (h : GonePast ls) (hranked : StrictlyRanked ls)
    (he : RoundEvent cfg env ls e) : Spares e := by
  cases he with
  | @preemptForRunning _ enc _ _ _ _ _ htreats hR hgrant hpos ht hpre =>
    obtain ⟨hranked, hq⟩ := (h.setEnc enc).visits_ranked cfg ⟨hranked.1, hranked.2⟩
      htreats.stands ht
    exact hranked.behind hq hpre
  | @preemptForWaiting _ _ enc _ _ _ _ _ htreats hR hW hc hg ht hpre =>
    obtain ⟨hranked, hq⟩ := (h.setEnc enc).visits_ranked cfg ⟨hranked.1, hranked.2⟩
      htreats.stands ht
    exact hranked.behind hq hpre
  | pass | ignorePrompt | ignoreEncoderInputs | block | admitWaiting => trivial

/-- A tail preemption schedules nothing. -/
theorem tailPreemptOne (h : GonePast t) (hone : t.tailPreemptOne r = .ok t') : GonePast t' := by
  rcases tailPreemptOne_cases hone with ⟨-, rfl⟩ | ⟨-, qm', hqm, rfl⟩
  · exact h
  · refine h.of_same ?_ rfl rfl le_rfl
    rcases QueueManager.updateIdxsAfterPreemption_cases hqm with ⟨-, rfl⟩ | ⟨_, _, u⟩
    exacts [rfl, u.combined]

end GonePast

end LoopState

namespace Scheduler

open LoopState

variable {K E : Type} [KVCacheManager K] [EncoderCache E] {cfg : Config} {env : StepEnv}
  {s : Scheduler K E} {ls : LoopState K E}

omit [EncoderCache E] in
/-- Requests with distinct priorities are queued once. -/
theorem nodup_of_distinct
    (h : ∀ ls, beginStep cfg env s = .ok ls → LoopState.DistinctPriorities ls)
    (hbegin : beginStep cfg env s = .ok ls) : (s.running ++ s.waiting.items).Nodup := by
  refine (beginStep_combined hbegin).nodup_iff.mp ((h ls hbegin).distinct.imp fun hne => ?_)
  rintro rfl
  exact hne rfl

omit [EncoderCache E] in
/-- The merged list of requests with distinct priorities is in their strict order. -/
theorem beginStep_ranked
    (h : ∀ ls, beginStep cfg env s = .ok ls → LoopState.DistinctPriorities ls)
    (hbegin : beginStep cfg env s = .ok ls) : ls.StrictlyRanked := by
  obtain ⟨hdistinct, hpositive⟩ := h ls hbegin
  obtain ⟨objs, requests, -, -, -, rfl⟩ := beginStep_eq_ok hbegin
  refine ⟨(hdistinct.and (QueueManager.mergeQueues_sorted _ _ _)).imp fun hlt => ?_, hpositive⟩
  exact lt_of_le_of_ne hlt.2 hlt.1

omit [EncoderCache E] in
/-- A step begins with nothing scheduled. -/
theorem beginStep_gonePast (hnodup : (s.running ++ s.waiting.items).Nodup)
    (hbegin : beginStep cfg env s = .ok ls) : ls.GonePast := by
  have hparts := (beginStep_exact hbegin hnodup).toParts
  obtain ⟨objs, requests, -, -, -, rfl⟩ := beginStep_eq_ok hbegin
  exact ⟨hparts.nodup, fun r => by simp [scheduledReqs], fun r hr => absurd hr List.not_mem_nil⟩

/-- What a round of a step does. -/
theorem Rounds.outcome {p : Pass (LoopState K E) (LoopState K E)} (h : Rounds cfg env s ls)
    (hnodup : (s.running ++ s.waiting.items).Nodup) (hround : ls.round cfg env = .ok p) :
    RoundOutcome cfg env ls p := by
  obtain ⟨ls₀, hbegin, hvisits⟩ := h
  have hparts := (beginStep_exact hbegin hnodup).toParts
  have hmoves : Moves cfg (fun _ => True) ls₀ ls :=
    moves_visits_round hparts hvisits fun _ _ _ _ => trivial
  exact round_outcome (hmoves.parts hparts).running_waiting hround

/-- A step that begins with distinct positive priorities preempts no request that its walk has gone
past. -/
theorem spares_of_distinct
    (h : ∀ ls, beginStep cfg env s = .ok ls → LoopState.DistinctPriorities ls) :
    StepMeets Spares cfg env s := by
  rintro ls ⟨ls₀, hbegin, hvisits⟩ e he
  have hnodup := nodup_of_distinct h hbegin
  refine And.elim (fun hpast hranked => hpast.spares hranked he) (hvisits.invariant
    (I := fun t => LoopState.GonePast t ∧ LoopState.StrictlyRanked t)
    ⟨beginStep_gonePast hnodup hbegin, beginStep_ranked h hbegin⟩ fun t t' ht hI hround => ?_)
  have houtcome := Rounds.outcome ⟨ls₀, hbegin, ht⟩ hnodup hround
  have hmoves : LoopState.Moves cfg (fun _ => True) t t' :=
    LoopState.moves_round houtcome fun _ _ => trivial
  exact ⟨hI.1.round houtcome fun e he => hI.1.spares hI.2 he, hmoves.frame.ranked hI.2⟩

/-- In every round of a step that preempts no request that its walk has gone past. -/
theorem Rounds.gonePast (h : Rounds cfg env s ls) (hnodup : (s.running ++ s.waiting.items).Nodup)
    (hgood : StepMeets Spares cfg env s) : ls.GonePast := by
  obtain ⟨ls₀, hbegin, hvisits⟩ := h
  exact hvisits.invariant (I := LoopState.GonePast) (beginStep_gonePast hnodup hbegin)
    fun t t' ht hI hround => hI.round (Rounds.outcome ⟨ls₀, hbegin, ht⟩ hnodup hround)
      (hgood t ⟨ls₀, hbegin, ht⟩)

/-- At the end of the walk of such a step. -/
theorem Walked.gonePast (h : Walked cfg env s ls) (hnodup : (s.running ++ s.waiting.items).Nodup)
    (hgood : StepMeets Spares cfg env s) : ls.GonePast := by
  obtain ⟨ls₀, ls₁, hbegin, hloop, htail⟩ := h
  obtain ⟨t, hvisits, hexit⟩ := loop_exit hloop
  have hrounds : Rounds cfg env s t := ⟨ls₀, hbegin, hvisits⟩
  have hpast : ls₁.GonePast := (hrounds.gonePast hnodup hgood).round (hrounds.outcome hnodup hexit)
    (hgood t hrounds)
  unfold LoopState.tailPreempt at htail
  split at htail
  · exact foldlM_invariant (I := LoopState.GonePast) htail hpast fun _ _ _ _ hI hone =>
      hI.tailPreemptOne hone
  · cases htail
    exact hpast

end Scheduler

end RpsServe
