import RpsServe.RequestQueue
import RpsServe.SchedError
import RpsServe.Lib.SortBy
import RpsServe.Lib.Except
import Mathlib.Data.Prod.Lex

/-!
# Priorities

`SLOExpirationManager.update_priorities`, run at the start of every step. Under `fcfs` and
`catfcfs` a priority is written once; under `edf` and the score policies the live requests
are ranked anew in every step and `self.requests` is put into the order of the ranks.

The clock reading and the scores are inputs of the step: `negLogScore` places the float
`-math.log(score)` of each request among the others and is `none` where `math.log` raises.
-/

namespace RpsServe

/-- The request objects by id. -/
abbrev Objs := Dict ReqId Request

/-- The object of a request. -/
def Objs.req (objs : Objs) (r : ReqId) : Request := (objs.get? r).getD default

namespace Objs

variable {objs : Objs} {r x : ReqId} {f : Request → Request}

/-- The changed request is what it was changed to. -/
theorem req_modify_self (h : r ∈ objs.keys) : Objs.req (objs.modify r f) r = f (objs.req r) := by
  obtain ⟨q, hq⟩ := Option.isSome_iff_exists.mp ((objs.isSome_get? r).mpr h)
  simp [Objs.req, Dict.get?_modify, hq]

/-- The other requests are as they were. -/
theorem req_modify_ne (h : x ≠ r) : Objs.req (objs.modify r f) x = objs.req x := by
  simp [Objs.req, Dict.get?_modify, h.symm]

/-- A request that is not a key is not there. -/
theorem get?_eq_none (h : r ∉ objs.keys) : objs.get? r = none := by
  rw [← Option.not_isSome_iff_eq_none, objs.isSome_get? r]
  exact h

/-- Under an id that was never used stands the default object. -/
theorem req_of_notMem (h : r ∉ objs.keys) : objs.req r = default := by
  rw [Objs.req, get?_eq_none h, Option.getD_none]

/-- An object is as it was, or it is the modified one. -/
theorem req_modify_cases (objs : Objs) (r : ReqId) (f : Request → Request) (x : ReqId) :
    Objs.req (objs.modify r f) x = objs.req x ∨
      x = r ∧ Objs.req (objs.modify r f) x = f (objs.req x) := by
  by_cases hx : x = r
  · by_cases hr : r ∈ objs.keys
    · exact .inr ⟨hx, by rw [hx]; exact req_modify_self hr⟩
    · left
      simp [Dict.modify, get?_eq_none hr]
  · exact .inl (req_modify_ne hx)

end Objs

/-- What a step reads from outside of the scheduler: the clock, the scores, and the answers of
the KV connector and of the encoder-cache connector. -/
structure StepEnv where
  now : ℤ := 0
  negLogScore : ReqId → Option ℤ := fun _ => some 0
  getNumNewMatchedTokens : ReqId → ℤ → Option ℤ × Bool := fun _ _ => (some 0, false)
  hasCacheItem : MmHash → Bool := fun _ => false

/-- `int(req.arrival_time * 10**7)`, once. -/
def fcfsPriority (r : Request) : ℤ := if 0 < r.priority then r.priority else r.arrivalTime

/-- The `catfcfs` priority, once; an unrecognised category leaves the field as it is. -/
def catfcfsPriority (r : Request) : ℤ :=
  if 0 < r.priority then r.priority
  else
    match r.requestMd.bind RequestMetadata.category with
    | none => 10 ^ 19 + r.arrivalTime
    | some .sand => r.arrivalTime
    | some .pebbles => 10 ^ 18 + r.arrivalTime
    | some .rocks => 10 ^ 19 + r.arrivalTime
    | some .other => r.priority

/-- The slack of a request under `edf`. -/
def edfSlack (env : StepEnv) (r : Request) : Except SchedError ℤ :=
  match r.requestMd with
  | none => .error .attributeError
  | some md => .ok (md.slo - (env.now - r.arrivalTime))

/-- The negated log score of a request under a score policy. -/
def scoreKey (env : StepEnv) (r : Request) : Except SchedError ℤ :=
  match r.requestMd with
  | none => .error .attributeError
  | some _ =>
    match env.negLogScore r.requestId with
    | none => .error .valueError
    | some k => .ok k

/-- Write a priority into every listed request. -/
def writePriorities (priority : Request → ℤ) (requests : List ReqId) (objs : Objs) : Objs :=
  requests.foldl (fun objs r => objs.modify r fun q => { q with priority := priority q }) objs

/-- Write a priority that may raise into every listed request. -/
def tryWritePriorities (priority : Request → Except SchedError ℤ) :
    List ReqId → Objs → Except SchedError Objs
  | [], objs => .ok objs
  | r :: rest, objs => do
    let p ← priority (objs.req r)
    tryWritePriorities priority rest (objs.modify r fun q => { q with priority := p })

/-- Write the ranks `start + 1, start + 2, …` in the order of the list. -/
def writeRanks : (start : ℕ) → List ReqId → Objs → Objs
  | _, [], objs => objs
  | start, r :: rest, objs =>
    writeRanks (start + 1) rest (objs.modify r fun q => { q with priority := start + 1 })

/-- Rank the live requests by `(priority, arrival_time)`; the dictionary takes the ranks' order. -/
def rankRequests (key : Request → Except SchedError ℤ) (requests : List ReqId) (objs : Objs) :
    Except SchedError (Objs × List ReqId) := do
  let objs ← tryWritePriorities key requests objs
  let scored := sortBy (fun r => toLex ((objs.req r).priority, (objs.req r).arrivalTime)) requests
  .ok (writeRanks 0 scored objs, scored)

/-- `update_priorities`: the request objects and the order of `self.requests`. -/
def updatePriorities (policy : SchedulingPolicy) (env : StepEnv) (objs : Objs)
    (requests : List ReqId) : Except SchedError (Objs × List ReqId) :=
  match policy with
  | .fcfs => .ok (writePriorities fcfsPriority requests objs, requests)
  | .catfcfs => .ok (writePriorities catfcfsPriority requests objs, requests)
  | .edf => rankRequests (edfSlack env) requests objs
  | .priority | .waitOnly => rankRequests (scoreKey env) requests objs

/-! ### Ranking writes priorities and nothing else -/

/-- The objects of `objs'` are those of `objs` up to their priorities. -/
structure SamePriorities (objs objs' : Objs) : Prop where
  keys : objs'.keys = objs.keys
  req : ∀ r, ∃ p, objs'.req r = { objs.req r with priority := p }

namespace SamePriorities

variable {objs objs₁ objs₂ : Objs}

/-- The requests differ in no more than their priorities from themselves. -/
theorem refl (objs : Objs) : SamePriorities objs objs := ⟨rfl, fun _ => ⟨_, rfl⟩⟩

/-- Objects with the requests of the same objects have the same requests. -/
theorem trans (h : SamePriorities objs objs₁) (h' : SamePriorities objs₁ objs₂) :
    SamePriorities objs objs₂ where
  keys := h'.keys.trans h.keys
  req r := by
    obtain ⟨p, hp⟩ := h.req r
    obtain ⟨p', hp'⟩ := h'.req r
    exact ⟨p', by rw [hp', hp]⟩

/-- Changing a priority leaves the rest of the requests. -/
theorem modify (objs : Objs) (r : ReqId) (f : Request → ℤ) :
    SamePriorities objs (objs.modify r fun q => { q with priority := f q }) where
  keys := Dict.keys_modify objs r _
  req x := by
    rcases Objs.req_modify_cases objs r (fun q => { q with priority := f q }) x with h | ⟨-, h⟩
    · exact ⟨(objs.req x).priority, h⟩
    · exact ⟨f (objs.req x), h⟩

end SamePriorities

/-- Writing priorities leaves the rest of the requests. -/
theorem writePriorities_same (priority : Request → ℤ) (requests : List ReqId) (objs : Objs) :
    SamePriorities objs (writePriorities priority requests objs) := by
  unfold writePriorities
  induction requests generalizing objs with
  | nil => exact .refl objs
  | cons r rest ih => exact (SamePriorities.modify objs r priority).trans (ih _)

/-- Writing priorities that may fail leaves the rest of the requests. -/
theorem tryWritePriorities_same {priority : Request → Except SchedError ℤ} {requests : List ReqId}
    {objs objs' : Objs} (h : tryWritePriorities priority requests objs = .ok objs') :
    SamePriorities objs objs' := by
  induction requests generalizing objs with
  | nil =>
    cases h
    exact .refl _
  | cons r rest ih =>
    obtain ⟨p, -, h⟩ := bind_eq_ok.mp h
    exact (SamePriorities.modify objs r fun _ => p).trans (ih h)

/-- Writing ranks leaves the rest of the requests. -/
theorem writeRanks_same (start : ℕ) (requests : List ReqId) (objs : Objs) :
    SamePriorities objs (writeRanks start requests objs) := by
  induction requests generalizing start objs with
  | nil => exact .refl objs
  | cons r rest ih => exact (SamePriorities.modify objs r fun _ => start + 1).trans (ih _ _)

/-- Ranking changes priorities only, and orders the same requests. -/
theorem rankRequests_spec {key : Request → Except SchedError ℤ} {requests requests' : List ReqId}
    {objs objs' : Objs} (h : rankRequests key requests objs = .ok (objs', requests')) :
    SamePriorities objs objs' ∧ requests'.Perm requests := by
  obtain ⟨objs₁, h₁, h⟩ := bind_eq_ok.mp h
  cases h
  exact ⟨(tryWritePriorities_same h₁).trans (writeRanks_same _ _ _), sortBy_perm _ _⟩

/-- Ranking changes no object but for its priority, and no request of `self.requests`. -/
theorem updatePriorities_spec {policy : SchedulingPolicy} {env : StepEnv}
    {requests requests' : List ReqId} {objs objs' : Objs}
    (h : updatePriorities policy env objs requests = .ok (objs', requests')) :
    SamePriorities objs objs' ∧ requests'.Perm requests := by
  cases policy with
  | fcfs =>
    cases h
    exact ⟨writePriorities_same _ _ _, List.Perm.refl _⟩
  | catfcfs =>
    cases h
    exact ⟨writePriorities_same _ _ _, List.Perm.refl _⟩
  | edf => exact rankRequests_spec h
  | priority => exact rankRequests_spec h
  | waitOnly => exact rankRequests_spec h

/-! ### When ranking raises -/

/-- The request has what its ranking reads: the metadata under `edf`, and a score besides under the
score policies. -/
def Ranked (policy : SchedulingPolicy) (env : StepEnv) (q : Request) : Prop :=
  match policy with
  | .fcfs | .catfcfs => True
  | .edf => q.requestMd.isSome = true
  | .priority | .waitOnly =>
    q.requestMd.isSome = true ∧ (env.negLogScore q.requestId).isSome = true

instance (policy : SchedulingPolicy) (env : StepEnv) (q : Request) :
    Decidable (Ranked policy env q) :=
  match policy with
  | .fcfs | .catfcfs => .isTrue trivial
  | .edf => inferInstanceAs (Decidable (q.requestMd.isSome = true))
  | .priority | .waitOnly => inferInstanceAs (Decidable (_ ∧ _))

/-- A ranking does not depend on the priorities written before. -/
theorem Ranked.of_priority {policy : SchedulingPolicy} {env : StepEnv} {q : Request} {p : ℤ} :
    Ranked policy env { q with priority := p } ↔ Ranked policy env q := by
  cases policy <;> rfl

/-- Where the keys are, writing the priorities returns. -/
theorem tryWritePriorities_total {policy : SchedulingPolicy} {env : StepEnv}
    {key : Request → Except SchedError ℤ} (hkey : ∀ q, Ranked policy env q → ∃ p, key q = .ok p)
    {requests : List ReqId} {objs : Objs} (h : ∀ r ∈ requests, Ranked policy env (objs.req r)) :
    ∃ objs', tryWritePriorities key requests objs = .ok objs' := by
  induction requests generalizing objs with
  | nil => exact ⟨objs, rfl⟩
  | cons r rest ih =>
    obtain ⟨p, hp⟩ := hkey _ (h r List.mem_cons_self)
    have hrest : ∀ x ∈ rest,
        Ranked policy env (Objs.req (objs.modify r fun q => { q with priority := p }) x) := by
      intro x hx
      obtain ⟨p', hp'⟩ := (SamePriorities.modify objs r fun _ => p).req x
      rw [hp', Ranked.of_priority]
      exact h x (List.mem_cons_of_mem r hx)
    obtain ⟨objs', hobjs'⟩ := ih hrest
    exact ⟨objs', bind_eq_ok.mpr ⟨p, hp, hobjs'⟩⟩

/-- Ranking does not raise when every live request has what it reads. -/
theorem updatePriorities_total {policy : SchedulingPolicy} {env : StepEnv} {objs : Objs}
    {requests : List ReqId} (h : ∀ r ∈ requests, Ranked policy env (objs.req r)) :
    ∃ objs' requests', updatePriorities policy env objs requests = .ok (objs', requests') := by
  have hslack : ∀ q, Ranked .edf env q → ∃ p, edfSlack env q = .ok p := by
    intro q hq
    obtain ⟨md, hmd⟩ := Option.isSome_iff_exists.mp hq
    exact ⟨_, by rw [edfSlack, hmd]⟩
  have hscore : ∀ q, Ranked .priority env q → ∃ p, scoreKey env q = .ok p := by
    intro q hq
    obtain ⟨md, hmd⟩ := Option.isSome_iff_exists.mp hq.1
    obtain ⟨k, hk⟩ := Option.isSome_iff_exists.mp hq.2
    exact ⟨k, by rw [scoreKey, hmd]; simp only [hk]⟩
  have hrank : ∀ {policy key}, (∀ q, Ranked policy env q → ∃ p, key q = .ok p) →
      (∀ r ∈ requests, Ranked policy env (objs.req r)) →
      ∃ objs' requests', rankRequests key requests objs = .ok (objs', requests') := by
    intro policy key hkey hall
    obtain ⟨objs', hobjs'⟩ := tryWritePriorities_total hkey hall
    exact ⟨_, _, bind_eq_ok.mpr ⟨objs', hobjs', rfl⟩⟩
  cases policy with
  | fcfs | catfcfs => exact ⟨_, _, rfl⟩
  | edf => exact hrank hslack h
  | priority | waitOnly => exact hrank hscore h

end RpsServe
