import RpsServe.SloExpirationManager
import Mathlib.Tactic.IntervalCases
import Mathlib.Algebra.Group.Int.Defs

/-!
# Priorities by arrival

Under `fcfs` and `catfcfs` a priority is written once and encodes where the request belongs: its
class, and its arrival time within the class. The test whether it was written already looks at the
field itself, so that a priority that the client supplied is taken for a written one; and a
category that is not recognised gets none.
-/

namespace RpsServe

/-- The class of a request: under `catfcfs` sand before pebbles before everything else. -/
def urgencyClass (policy : SchedulingPolicy) (q : Request) : ℕ :=
  match policy with
  | .catfcfs =>
    match q.requestMd.bind RequestMetadata.category with
    | some .sand => 0
    | some .pebbles => 1
    | some .rocks | some .other | none => 2
  | .fcfs | .edf | .priority | .waitOnly => 0

/-- Where a request belongs: behind those of lower class, and among its class by arrival. -/
def place (policy : SchedulingPolicy) (q : Request) : ℕ ×ₗ ℤ :=
  toLex (urgencyClass policy q, q.arrivalTime)

/-- The priorities of a class begin here. -/
def classOffset : ℕ → ℤ
  | 0 => 0
  | 1 => 10 ^ 18
  | _ => 10 ^ 19

/-- The priority that encodes a place. -/
def placePriority (policy : SchedulingPolicy) (q : Request) : ℤ :=
  classOffset (urgencyClass policy q) + q.arrivalTime

/-- The request arrived in the first `9 · 10¹⁰` seconds. -/
def InRange (q : Request) : Prop := 0 < q.arrivalTime ∧ q.arrivalTime < 9 * 10 ^ 17

/-- The request's priority encodes its place. -/
def Placed (policy : SchedulingPolicy) (q : Request) : Prop := q.priority = placePriority policy q

/-- The next ranking will give the request its priority. -/
def Unplaced (policy : SchedulingPolicy) (q : Request) : Prop :=
  q.priority ≤ 0 ∧
    (policy = .catfcfs → q.requestMd.bind RequestMetadata.category ≠ some .other)

instance (q : Request) : Decidable (InRange q) := inferInstanceAs (Decidable (_ ∧ _))

instance (policy : SchedulingPolicy) (q : Request) : Decidable (Placed policy q) :=
  inferInstanceAs (Decidable (_ = _))

instance (policy : SchedulingPolicy) (q : Request) : Decidable (Unplaced policy q) :=
  inferInstanceAs (Decidable (_ ∧ _))

variable {policy : SchedulingPolicy} {q q' : Request}

/-- There are three classes. -/
theorem urgencyClass_le (policy : SchedulingPolicy) (q : Request) : urgencyClass policy q ≤ 2 := by
  unfold urgencyClass
  split
  · split <;> decide
  all_goals decide

/-- The class is read off the metadata. -/
theorem urgencyClass_congr (h : q'.requestMd = q.requestMd) :
    urgencyClass policy q' = urgencyClass policy q := by
  simp only [urgencyClass, h]

/-- In range, the priorities are in the order of the places. -/
theorem placePriority_le_iff (hq : InRange q) (hq' : InRange q') :
    placePriority policy q ≤ placePriority policy q' ↔ place policy q ≤ place policy q' := by
  have hle := urgencyClass_le policy q
  have hle' := urgencyClass_le policy q'
  obtain ⟨hpos, hlt⟩ := hq
  obtain ⟨hpos', hlt'⟩ := hq'
  rw [placePriority, placePriority, place, place, Prod.Lex.toLex_le_toLex]
  generalize urgencyClass policy q = c at hle
  generalize urgencyClass policy q' = c' at hle'
  interval_cases c <;> interval_cases c' <;> simp [classOffset] <;> omega

/-- A priority in its place is positive. -/
theorem placePriority_pos (policy : SchedulingPolicy) (hq : InRange q) : 0 < placePriority policy q := by
  have hle := urgencyClass_le policy q
  obtain ⟨hpos, -⟩ := hq
  rw [placePriority]
  generalize urgencyClass policy q = c at hle
  interval_cases c <;> simp only [classOffset] <;> omega

/-- Ranking by arrival gives a request the priority that encodes its place. -/
theorem fcfsPriority_eq (hq : InRange q) (h : Placed .fcfs q ∨ Unplaced .fcfs q) :
    fcfsPriority q = placePriority .fcfs q := by
  have hpos := placePriority_pos .fcfs hq
  have hplace : placePriority .fcfs q = q.arrivalTime := zero_add _
  rcases h with h | h
  · rw [fcfsPriority, h, if_pos hpos]
  · rw [fcfsPriority, if_neg (not_lt.mpr h.1), hplace]

/-- Ranking by class and arrival does so for every category but the unrecognised ones. -/
theorem catfcfsPriority_eq (hq : InRange q) (h : Placed .catfcfs q ∨ Unplaced .catfcfs q) :
    catfcfsPriority q = placePriority .catfcfs q := by
  have hpos := placePriority_pos .catfcfs hq
  rcases h with h | h
  · rw [catfcfsPriority, h, if_pos hpos]
  · have hknown := h.2 rfl
    rw [catfcfsPriority, if_neg (not_lt.mpr h.1), placePriority, urgencyClass]
    cases hcat : q.requestMd.bind RequestMetadata.category with
    | none => rfl
    | some c =>
      cases c with
      | sand => exact (zero_add _).symm
      | pebbles => rfl
      | rocks => rfl
      | other => exact absurd hcat hknown

/-- Writing the priorities of a list places its requests. -/
theorem writePriorities_placed {priority : Request → ℤ} {requests : List ReqId} {objs : Objs}
    {x : ReqId} (hpriority : ∀ q, InRange q → Placed policy q ∨ Unplaced policy q →
      priority q = placePriority policy q) (hk : x ∈ objs.keys) (hrange : InRange (objs.req x))
    (h : Placed policy (objs.req x) ∨ Unplaced policy (objs.req x) ∧ x ∈ requests) :
    Placed policy (Objs.req (writePriorities priority requests objs) x) := by
  induction requests generalizing objs with
  | nil => exact h.resolve_right fun hun => absurd hun.2 List.not_mem_nil
  | cons r rest ih =>
    rw [writePriorities, List.foldl_cons]
    refine ih (by rwa [Dict.keys_modify]) ?_ ?_
    · obtain ⟨p, hp⟩ := (SamePriorities.modify objs r priority).req x
      rw [hp]
      exact hrange
    · by_cases hx : x = r
      · subst hx
        rw [Objs.req_modify_self hk]
        exact .inl (hpriority _ hrange (h.imp_right And.left))
      · rw [Objs.req_modify_ne hx]
        exact h.imp_right fun hun => ⟨hun.1, (List.mem_cons.mp hun.2).resolve_left hx⟩

/-- Ranking places the live requests and keeps the places of the others. -/
theorem updatePriorities_placed {env : StepEnv} {objs objs' : Objs} {requests requests' : List ReqId}
    {x : ReqId} (hpolicy : policy = .fcfs ∨ policy = .catfcfs)
    (h : updatePriorities policy env objs requests = .ok (objs', requests')) (hk : x ∈ objs.keys)
    (hrange : InRange (objs.req x))
    (hx : Placed policy (objs.req x) ∨ Unplaced policy (objs.req x) ∧ x ∈ requests) :
    Placed policy (objs'.req x) := by
  rcases hpolicy with rfl | rfl
  · cases h
    exact writePriorities_placed (fun _ => fcfsPriority_eq) hk hrange hx
  · cases h
    exact writePriorities_placed (fun _ => catfcfsPriority_eq) hk hrange hx

end RpsServe
