import RpsServe.Scheduler.GonePast
import RpsServe.Scheduler.Steady

/-!
# Steps without ties

When no two queued requests have the same priority and none has output placeholders, the
walk is orderly: the victim of a preemption never stands before the candidate. When besides
no candidate is ever sent away before blocks are asked for, it is bounded. Both are read off
the state before the step.
-/

namespace RpsServe

namespace LoopState

variable {K E : Type}

/-- The requests of the combined list have positive and distinct priorities, and no output
placeholders. -/
structure Untied (ls : LoopState K E) : Prop where
  sorted : ls.qm.combined.Pairwise fun a b => (ls.req a).priority < (ls.req b).priority
  positive : ∀ r ∈ ls.qm.combined, 0 < (ls.req r).priority
  answered : ∀ r ∈ ls.qm.combined, (ls.req r).numOutputPlaceholders ≤ 0

/-- No request of the combined list has multimodal items. -/
def TextOnly (ls : LoopState K E) : Prop := ∀ r ∈ ls.qm.combined, (ls.req r).mmFeatures = []

instance (ls : LoopState K E) : Decidable ls.Untied :=
  decidable_of_iff (_ ∧ _ ∧ _) ⟨fun h => ⟨h.1, h.2.1, h.2.2⟩, fun h => ⟨h.1, h.2, h.3⟩⟩

instance (ls : LoopState K E) : Decidable ls.TextOnly :=
  inferInstanceAs (Decidable (∀ r ∈ ls.qm.combined, _))

variable {ls ls' t : LoopState K E} {q v : ReqId} {args : AllocateSlotsArgs} {l : ℕ}

/-- A frame leaves the priorities untied. -/
theorem Frame.untied (h : Frame ls ls') (hu : Untied ls) : Untied ls' where
  sorted := (h.ranked ⟨hu.sorted, hu.positive⟩).sorted
  positive := (h.ranked ⟨hu.sorted, hu.positive⟩).positive
  answered r hr := by
    obtain ⟨_, _, _, _, hsame⟩ := h.inputs r
    rw [hsame]
    exact hu.answered r (h.combined ▸ hr)

/-- Changing the encoder cache leaves the priorities untied. -/
theorem Untied.setEnc (h : Untied ls) (enc : E) : Untied (ls.setEnc enc) :=
  ⟨h.sorted, h.positive, h.answered⟩

/-- A frame leaves the requests with text only. -/
theorem Frame.textOnly (h : Frame ls ls') (ht : TextOnly ls) : TextOnly ls' := fun r hr => by
  obtain ⟨_, _, _, _, hsame⟩ := h.inputs r
  rw [hsame]
  exact ht r (h.combined ▸ hr)

variable [KVCacheManager K] [EncoderCache E] {cfg : Config} {env : StepEnv} {kv : K}

omit [KVCacheManager K] [EncoderCache E] in
/-- Requests without ties are ranked. -/
theorem Untied.ranked (h : Untied ls) : StrictlyRanked ls := ⟨h.sorted, h.positive⟩

omit [EncoderCache E] in
/-- The victim stands at the candidate or behind it. -/
theorem Untied.behind (h : Untied t) (hq : t.qm.combined[t.reqIndex]? = some q)
    (hpre : Preempts q args t l v kv) : t.reqIndex ≤ l :=
  h.ranked.behind hq hpre

/-- An allocation loop without ties does not disturb the walk. -/
theorem Walking.visits_untied (cfg : Config) (h : Walking ls) (hu : Untied ls)
    (hq : ls.qm.combined[ls.reqIndex]? = some q) (ht : Visits (allocRound q args) ls t) :
    Untied t ∧ t.qm.combined[t.reqIndex]? = some q := by
  refine And.right (alloc_invariant
    (I := fun t => Walking t ∧ Untied t ∧ t.qm.combined[t.reqIndex]? = some q) ht ⟨h, hu, hq⟩
    fun u l v kv u' _ hI hpre hvq hvictim => ?_)
  obtain ⟨hw, hu, hq⟩ := hI
  obtain ⟨hw', hindex, -⟩ := hw.preempt hpre (hu.behind hq hpre) hvictim
  have hframe : Frame u u' :=
    (Move.preempt trivial hpre hvictim : Move cfg (fun _ => True) u u').frame
  exact ⟨hw', hframe.untied hu, by rw [hindex, hframe.combined, hq]⟩

/-- A round without ties is orderly. -/
theorem Walking.orderly {e : Event K E} (h : Walking ls) (hu : Untied ls)
    (he : RoundEvent cfg env ls e) : Orderly e := by
  cases he with
  | pass hr _ _ hpass =>
    have hzero := hu.answered _ (List.mem_of_getElem? hr)
    simp only [reachesMaxTokens, Bool.and_eq_true, decide_eq_true_eq] at hpass
    omega
  | @preemptForRunning _ enc _ _ _ _ _ htreats hR hgrant hpos ht hpre =>
    obtain ⟨hut, hq⟩ := (h.setEnc enc).visits_untied cfg (hu.setEnc enc) htreats.stands ht
    exact hut.behind hq hpre
  | @preemptForWaiting _ _ enc _ _ _ _ _ htreats hR hW hc hg ht hpre =>
    obtain ⟨hut, hq⟩ := (h.setEnc enc).visits_untied cfg (hu.setEnc enc) htreats.stands ht
    exact hut.behind hq hpre
  | ignorePrompt | ignoreEncoderInputs | block | admitWaiting => trivial

/-- A round without ties admits only first waiting requests. -/
theorem Walking.admitsFirst {e : Event K E} (h : Walking ls) (hu : Untied ls)
    (he : RoundEvent cfg env ls e) : AdmitsFirst e := by
  cases he with
  | @admitWaiting _ _ enc _ _ _ htreats _ hW _ _ halloc =>
    obtain ⟨hw, hindex, -⟩ := (h.setEnc enc).allocLoop halloc fun t l v kv ht hpre => by
      obtain ⟨hut, hq⟩ := (h.setEnc enc).visits_untied cfg (hu.setEnc enc) htreats.stands ht
      exact hut.behind hq hpre
    have hsame := allocLoop_sameWaiting halloc
    have hstands : (ls.setEnc enc).qm.combined[(ls.setEnc enc).reqIndex]? = some _ := htreats.stands
    rw [← hindex, ← hsame.combined] at hstands
    exact ⟨_, hw.walk.first_eq hstands (hsame.waiting ▸ hW), hstands⟩
  | pass | preemptForRunning | preemptForWaiting | ignorePrompt | ignoreEncoderInputs | block => trivial

omit [KVCacheManager K] in
/-- Without multimodal items, with chunking and without block alignment the walk does not end at a
waiting candidate before blocks are asked for. -/
theorem waitingGrant_ne_blocked {r : ReqId} {c : CachedPrefix} {enc : E}
    (hchunk : cfg.enableChunkedPrefill = true) (halign : cfg.needMambaBlockAlignedSplit = false)
    (htext : (ls.req r).mmFeatures = []) :
    ls.waitingGrant cfg env r c ≠ .ok (.blocked enc) := by
  have haligned : ∀ e g, alignGrant cfg (ls.req r) c e g ≠ .ok (.blocked enc) := fun e g h => by
    obtain ⟨n, -, h⟩ := bind_eq_ok.mp h
    rw [if_neg (by simp [halign])] at h
    cases h
  have hnone : (ls.req r).hasEncoderInputs = false := by simp [Request.hasEncoderInputs, htext]
  intro h
  unfold waitingGrant at h
  dsimp only at h
  split at h
  · split at h
    · exact haligned _ _ h
    · cases h
  · rw [if_neg (by simp [hchunk])] at h
    split at h
    · cases h
    · rename_i hpos
      rw [if_neg (by simp [hnone])] at h
      obtain ⟨p, hp, h⟩ := bind_eq_ok.mp h
      unfold tryScheduleEncoderInputs at hp
      rw [if_pos (.inr (by simp [hnone]))] at hp
      cases hp
      rw [if_neg fun hzero => hpos hzero.le] at h
      exact haligned _ _ h

end LoopState

namespace Scheduler

variable {K E : Type} [KVCacheManager K] [EncoderCache E] {cfg : Config} {env : StepEnv}
  {s : Scheduler K E}

/-- A property of the variables that a step begins with. -/
def Begins (P : LoopState K E → Prop) (cfg : Config) (env : StepEnv) (s : Scheduler K E) : Prop :=
  match beginStep cfg env s with
  | .ok ls => P ls
  | .error _ => True

instance (P : LoopState K E → Prop) [DecidablePred P] : Decidable (Begins P cfg env s) := by
  unfold Begins
  split <;> infer_instance

omit [EncoderCache E] in
/-- What the beginning of a step promises holds of the state it begins in. -/
theorem Begins.of_eq_ok {P : LoopState K E → Prop} {ls : LoopState K E} (h : Begins P cfg env s)
    (hbegin : beginStep cfg env s = .ok ls) : P ls := by
  rwa [Begins, hbegin] at h

omit [EncoderCache E] in
/-- What a step begins with has every weaker property too. -/
theorem Begins.mono {P Q : LoopState K E → Prop} (h : Begins P cfg env s)
    (himp : ∀ ls, P ls → Q ls) : Begins Q cfg env s := by
  unfold Begins at h ⊢
  cases hbegin : beginStep cfg env s with
  | ok ls =>
    rw [hbegin] at h
    exact himp ls h
  | error => trivial

/-- Every round of a step without ties is one. -/
theorem Rounds.untied {ls : LoopState K E} (hrounds : Rounds cfg env s ls) (h : Coherent s)
    (hu : Begins LoopState.Untied cfg env s) : ls.Walking ∧ ls.Untied := by
  obtain ⟨ls₀, hbegin, hvisits⟩ := hrounds
  refine hvisits.invariant (I := fun t => t.Walking ∧ t.Untied)
    ⟨beginStep_walking h hbegin, hu.of_eq_ok hbegin⟩ fun t t' _ hI hround => ?_
  have houtcome := LoopState.round_outcome hI.1.walk.toParts.running_waiting hround
  have hmoves : LoopState.Moves cfg (fun _ => True) t t' :=
    LoopState.moves_round houtcome fun _ _ => trivial
  exact ⟨hI.1.round houtcome fun e he => hI.1.orderly hI.2 he, hmoves.frame.untied hI.2⟩

/-- A step without ties is orderly. -/
theorem orderly_of_untied (h : Coherent s) (hu : Begins LoopState.Untied cfg env s) :
    StepMeets LoopState.Orderly cfg env s := fun _ hrounds _ he => by
  obtain ⟨hw, hut⟩ := hrounds.untied h hu
  exact hw.orderly hut he

/-- A step without ties over requests without multimodal items is bounded. -/
theorem bounded_of_untied (h : Coherent s) (hu : Begins LoopState.Untied cfg env s)
    (htext : Begins LoopState.TextOnly cfg env s) (hchunk : cfg.enableChunkedPrefill = true)
    (halign : cfg.needMambaBlockAlignedSplit = false) : StepMeets LoopState.Bounded cfg env s := by
  intro ls hrounds e he
  have horderly := orderly_of_untied h hu ls hrounds e he
  obtain ⟨ls₀, hbegin, hmoves⟩ := hrounds.moves h.nodup
    (fun _ _ _ _ => trivial : StepMeets (fun _ => True) cfg env s)
  cases he with
  | block htreats hR hW hc hg =>
    refine absurd hg (LoopState.waitingGrant_ne_blocked hchunk halign ?_)
    have hmem := List.mem_of_getElem? htreats.stands
    exact hmoves.frame.textOnly (htext.of_eq_ok hbegin) _ hmem
  | _ => exact horderly

end Scheduler

namespace System

open Scheduler

variable {K E : Type} [KVCacheManager K] [EncoderCache E] {cfg : Config} {kv : K} {enc : E}
  {sys : System K E}

/-- No two requests queued at a step tie. -/
def NoTies (cfg : Config) (sys : System K E) : Op → Prop
  | .schedule env => Begins LoopState.Untied cfg env sys.sch
  | _ => True

instance (sys : System K E) (op : Op) : Decidable (NoTies cfg sys op) :=
  match op with
  | .schedule env => inferInstanceAs (Decidable (Begins LoopState.Untied cfg env sys.sch))
  | .addRequest _ _ | .updateFromOutput _ _ | .finishRequests _ _ _ | .setPauseState _
  | .resetPrefixCache _ | .updateDraftTokenIds _ _ => .isTrue trivial

/-- A run without ties is a run of orderly steps. -/
theorem keepsOrder_of_noTies (h : Run cfg (NoTies cfg) (init cfg kv enc) sys) :
    Run cfg (KeepsOrder cfg) (init cfg kv enc) sys := by
  induction h with
  | start => exact .start
  | @step sys _ op _ hadm hok hs ih =>
    refine .step ih hadm ?_ hs
    cases op with
    | schedule env => exact orderly_of_untied (coherent_of_run ih) hok
    | _ => trivial

end System

end RpsServe
