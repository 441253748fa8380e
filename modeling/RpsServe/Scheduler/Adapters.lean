import RpsServe.Scheduler.Named
import RpsServe.Scheduler.Conservation
import RpsServe.Scheduler.Spending

/-!
# The adapters of a step

A batch may use at most `max_loras` adapters. The scheduling loop collects the adapters of the
requests that it admits and never looks at them, so that nothing but the requests that it can
come to bounds how many a step uses: the running ones, and the waiting ones up to where running
requests ranked ahead of them take all tokens.
-/

namespace RpsServe

/-- The positive adapter ids of a list of requests. -/
def adapters (req : ReqId → Request) (rs : List ReqId) : Finset ℕ :=
  (rs.filterMap fun r => (req r).loraRequest).toFinset.filter (0 < ·)

/-- The adapters of requests are the positive ids that one of them has. -/
theorem mem_adapters {req : ReqId → Request} {rs : List ReqId} {a : ℕ} :
    a ∈ adapters req rs ↔ (∃ r ∈ rs, (req r).loraRequest = some a) ∧ 0 < a := by
  simp [adapters]

/-- More requests use more adapters. -/
theorem adapters_mono {req : ReqId → Request} {rs rs' : List ReqId} (h : rs ⊆ rs') :
    adapters req rs ⊆ adapters req rs' := by
  intro a ha
  obtain ⟨⟨r, hr, hlora⟩, hpos⟩ := mem_adapters.mp ha
  exact mem_adapters.mpr ⟨⟨r, h hr, hlora⟩, hpos⟩

namespace Scheduler

variable {K E : Type} [KVCacheManager K] [SeparateKVCacheManager K] [EncoderCache E]
  {cfg : Config} {env : StepEnv} {s s' : Scheduler K E} {out : SchedulerOutput}
  {ls : LoopState K E} {maxLoras : ℕ}

/-- The request uses an adapter that is not one of `A`. -/
def usesOther (A : Finset ℕ) (q : Request) : Bool :=
  q.loraRequest.any fun a => decide (0 < a ∧ a ∉ A)

/-- The requests that a step can come to use adapters of `A` only: the running ones do, and the
waiting ones do as well, or the tokens of the step are spent on running requests ahead of the first
waiting one that does not. -/
structure UsesOnly (cfg : Config) (env : StepEnv) (A : Finset ℕ) (s : Scheduler K E) : Prop where
  running : adapters s.req s.running ⊆ A
  waiting : adapters s.req s.waiting.items ⊆ A ∨
    Coherent s ∧ Begins (LoopState.SpendsAhead cfg (usesOther A)) cfg env s

/-- The requests that a step can come to use at most `maxLoras` adapters. -/
def AdaptersFit (cfg : Config) (env : StepEnv) (maxLoras : ℕ) (s : Scheduler K E) : Prop :=
  ∃ A : Finset ℕ, A.card ≤ maxLoras ∧ UsesOnly cfg env A s

omit [SeparateKVCacheManager K] [EncoderCache E] in
/-- Whatever is spent, the step can come to the queued requests only. -/
theorem adaptersFit_of_queued
    (h : (adapters s.req (s.running ++ s.waiting.items)).card ≤ maxLoras) :
    AdaptersFit cfg env maxLoras s :=
  ⟨_, h, adapters_mono (List.subset_append_left _ _),
    .inl (adapters_mono (List.subset_append_right _ _))⟩

/-- A request that the walk comes to uses adapters of `A` only. -/
theorem UsesOnly.of_treats {A : Finset ℕ} {r : ReqId} (h : UsesOnly cfg env A s)
    (hrounds : Rounds cfg env s ls) (htreats : ls.Treats r) : adapters s.req [r] ⊆ A := by
  have hrunning : r ∈ s.running → adapters s.req [r] ⊆ A := fun hr =>
    (adapters_mono (List.cons_subset.mpr ⟨hr, List.nil_subset _⟩)).trans h.running
  rcases h.waiting with hwaiting | ⟨hcoherent, hspends⟩
  · have hmem := hrounds.sameIds.combined.subset (List.mem_of_getElem? htreats.stands)
    rcases List.mem_append.mp hmem with hr | hr
    · exact hrunning hr
    · exact (adapters_mono (List.cons_subset.mpr ⟨hr, List.nil_subset _⟩)).trans hwaiting
  · obtain ⟨ls₀, hbegin, hspending⟩ := hrounds.spending hcoherent hspends
    have hrest := hspending.rest htreats
    split_ifs at hrest with hR
    · obtain ⟨objs, requests, -, -, -, rfl⟩ := beginStep_eq_ok hbegin
      exact hrunning
        ((sortBy_perm _ _).mem_iff.mp (QueueManager.mem_combineQueues_running.mp hR).1)
    · obtain ⟨objs, requests, hsame, -, -, rfl⟩ := beginStep_eq_ok hbegin
      intro a ha
      obtain ⟨⟨x, hx, hlora⟩, hpos⟩ := mem_adapters.mp ha
      obtain rfl := List.mem_singleton.mp hx
      obtain ⟨p, hp⟩ := hsame.req x
      have hother : usesOther A (objs.req x) = false := hrest.1
      rw [hp] at hother
      by_contra hno
      simp [usesOther, show (Objs.req s.objs x).loraRequest = some a from hlora, hpos, hno]
        at hother

/-- The walk gives tokens only to requests that it comes to. -/
theorem Walked.tokens_rule {P : ReqId → Prop} (h : Walked cfg env s ls)
    (hP : ∀ t r, Rounds cfg env s t → t.Treats r → P r) :
    ∀ x ∈ ls.numScheduledTokens.keys, P x := by
  refine h.touched (I := fun t => ∀ x ∈ t.numScheduledTokens.keys, P x) (fun t ht => ?_)
    (fun r t t' hrounds htreats hI htouch x hx => ?_) fun t t' hI hall x hx => ?_
  · obtain ⟨_, _, _, _, -, rfl⟩ := beginStep_eq_ok ht
    exact fun x hx => by cases hx
  · by_cases hxr : x = r
    · exact hxr ▸ hP t r hrounds htreats
    · exact hI x (htouch.tokens x hxr hx)
  · exact hI x ((hall (x + 1)).tokens x (Nat.succ_ne_self x).symm hx)

/-- A step uses adapters only of the requests that it can come to. -/
theorem schedule_adapters {A : Finset ℕ} (hA : UsesOnly cfg env A s)
    (h : schedule cfg env s = .ok (out, s')) : adapters s.req out.numScheduledTokens.keys ⊆ A := by
  obtain ⟨ls, hwalked, hfinish⟩ := schedule_eq_ok h
  rw [(finishStep_spec hfinish).numScheduledTokens]
  intro a ha
  obtain ⟨⟨r, hr, hlora⟩, hpos⟩ := mem_adapters.mp ha
  exact hwalked.tokens_rule (P := fun r => adapters s.req [r] ⊆ A)
    (fun t r hrounds htreats => hA.of_treats hrounds htreats) r hr
    (mem_adapters.mpr ⟨⟨r, List.mem_singleton.mpr rfl, hlora⟩, hpos⟩)

end Scheduler

namespace System

open Scheduler

variable {K E : Type} [KVCacheManager K] [SeparateKVCacheManager K] [EncoderCache E]
  {cfg : Config} {sys : System K E} {maxLoras : ℕ}

/-- The steps can come to requests of at most `maxLoras` adapters. -/
def StepsFit (cfg : Config) (maxLoras : ℕ) (sys : System K E) : Op → Prop
  | .schedule env => AdaptersFit cfg env maxLoras sys.sch
  | .addRequest _ _ | .updateFromOutput _ _ | .finishRequests _ _ _ | .setPauseState _
  | .resetPrefixCache _ | .updateDraftTokenIds _ _ => True

/-- The step from `sys` that yields `out` uses at most `maxLoras` adapters. -/
def UsesAtMost (cfg : Config) (maxLoras : ℕ) (sys : System K E) (out : SchedulerOutput) : Prop :=
  (∃ env s', Scheduler.schedule cfg env sys.sch = .ok (out, s')) ∧
    (adapters sys.sch.req out.numScheduledTokens.keys).card ≤ maxLoras

/-- A system with adapters. -/
def adapterCfg : Config := { conservationCfg with loraConfig := true }

/-- Two requests with different adapters are added. -/
def addTwoAdapters : List Op :=
  [.addRequest { shortRequest 1 with loraRequest := some 1 } fun _ => false,
    .addRequest { shortRequest 2 with loraRequest := some 2 } fun _ => false]

/-- A request with one adapter runs whose prompt takes all tokens of three steps, and another one
with another adapter waits. -/
def addBehindLong : List Op :=
  [.addRequest { promptRequest 1 28 with loraRequest := some 1 } fun _ => false, .schedule {},
    .addRequest { shortRequest 2 with loraRequest := some 2 } fun _ => false]

end System

end RpsServe
