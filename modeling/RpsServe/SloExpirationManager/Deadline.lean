import RpsServe.SloExpirationManager
import Mathlib.Order.Interval.Set.Basic
import Mathlib.Data.Set.Function
import Mathlib.Tactic.Ring
import Mathlib.Data.Int.ConditionallyCompleteOrder
import Mathlib.Order.SuccPred.Basic

/-!
# Deadlines

Under `edf` every step ranks the live requests by their slack, the time left until the deadline,
and by the arrival time among equal slacks. The clock reading is the same for all of them, so that
the ranks follow the deadlines whatever the time is, and which other requests are ranked makes no
difference to two requests with different deadlines or arrival times.
-/

namespace RpsServe

/-- The SLO of a request, the default one if none is set. -/
def Request.slo (q : Request) : ℤ :=
  match q.requestMd with
  | some md => md.slo
  | none => ({} : RequestMetadata).slo

/-- What the ranking by deadline goes by: the deadline, and the arrival time among equal ones. -/
def Request.deadline (q : Request) : ℤ ×ₗ ℤ := toLex (q.arrivalTime + q.slo, q.arrivalTime)

variable {objs objs' objs₁ objs₂ : Objs} {env : StepEnv} {requests requests' : List ReqId}
  {r x : ReqId}

/-- The deadline is read off the arrival time and the metadata. -/
theorem Request.deadline_congr {q q' : Request} (harrival : q'.arrivalTime = q.arrivalTime)
    (hmd : q'.requestMd = q.requestMd) : q'.deadline = q.deadline := by
  simp only [Request.deadline, Request.slo, harrival, hmd]

/-- Requests that differ in their priorities have the same deadlines. -/
theorem SamePriorities.deadline (h : SamePriorities objs objs') (r : ReqId) :
    (objs'.req r).deadline = (objs.req r).deadline := by
  obtain ⟨p, hp⟩ := h.req r
  exact Request.deadline_congr (by rw [hp]) (by rw [hp])

/-- The slack is the time that is left until the deadline. -/
theorem edfSlack_eq_ok {q : Request} {p : ℤ} (h : edfSlack env q = .ok p) :
    p = q.arrivalTime + q.slo - env.now := by
  unfold edfSlack at h
  split at h
  · cases h
  · rename_i md hmd
    cases h
    simp only [Request.slo, hmd]
    ring

/-- Every listed request is given its slack, and no other request is given one. -/
theorem tryWritePriorities_slack (hknown : ∀ r ∈ requests, r ∈ objs.keys)
    (h : tryWritePriorities (edfSlack env) requests objs = .ok objs') (x : ReqId) :
    (x ∈ requests → (objs'.req x).priority =
        (objs.req x).arrivalTime + (objs.req x).slo - env.now) ∧
      (x ∉ requests → objs'.req x = objs.req x) := by
  induction requests generalizing objs with
  | nil =>
    cases h
    exact ⟨fun hx => absurd hx List.not_mem_nil, fun _ => rfl⟩
  | cons r rest ih =>
    obtain ⟨p, hp, hrest⟩ := bind_eq_ok.mp h
    have hsame := SamePriorities.modify objs r fun _ => p
    obtain ⟨hin, hout⟩ := ih (fun y hy => hsame.keys ▸ hknown y (List.mem_cons_of_mem r hy)) hrest
    by_cases hx : x ∈ rest
    · refine ⟨fun _ => ?_, fun hno => absurd (List.mem_cons_of_mem r hx) hno⟩
      obtain ⟨p', hp'⟩ := hsame.req x
      rw [hin hx, hp']
      rfl
    · refine ⟨fun hmem => ?_, fun hno => ?_⟩
      · obtain rfl := (List.mem_cons.mp hmem).resolve_right hx
        rw [hout hx, Objs.req_modify_self (hknown x List.mem_cons_self)]
        exact edfSlack_eq_ok hp
      · rw [hout hx, Objs.req_modify_ne fun hxr => hno (by simp [hxr])]

/-- The ranks count up along the list, and no other request is given one. -/
theorem writeRanks_priority (start : ℕ) (objs : Objs) (hnodup : requests.Nodup)
    (hknown : ∀ r ∈ requests, r ∈ objs.keys) :
    (∀ (i : ℕ) (r : ReqId), requests[i]? = some r →
        ((writeRanks start requests objs).req r).priority = start + i + 1) ∧
      ∀ r ∉ requests, (writeRanks start requests objs).req r = objs.req r := by
  induction requests generalizing start objs with
  | nil => exact ⟨fun i r hr => by simp at hr, fun _ _ => rfl⟩
  | cons r rest ih =>
    set objs₁ := objs.modify r fun q => { q with priority := start + 1 } with hobjs₁
    have hkeys : objs₁.keys = objs.keys := Dict.keys_modify _ _ _
    obtain ⟨hr, hrest⟩ := List.nodup_cons.mp hnodup
    obtain ⟨hin, hout⟩ := ih (start + 1) objs₁ hrest fun y hy =>
      hkeys ▸ hknown y (List.mem_cons_of_mem r hy)
    refine ⟨fun i x hi => ?_, fun x hx => ?_⟩
    · cases i with
      | zero =>
        obtain rfl : r = x := by simpa using hi
        rw [writeRanks, hout r hr, Objs.req_modify_self (hknown r List.mem_cons_self)]
        simp
      | succ i =>
        rw [writeRanks, hin i x (by simpa using hi)]
        push_cast
        ring
    · rw [writeRanks, hout x fun hmem => hx (List.mem_cons_of_mem r hmem), hobjs₁,
        Objs.req_modify_ne fun hxr => hx (by simp [hxr])]

section Edf

variable (hnodup : requests.Nodup) (hknown : ∀ r ∈ requests, r ∈ objs.keys)
  (h : updatePriorities .edf env objs requests = .ok (objs', requests'))
include hnodup hknown h

/-- The requests are put into the order of their deadlines, and their ranks count up along it. -/
theorem updatePriorities_edf : requests' = sortBy (fun r => (objs.req r).deadline) requests ∧
    ∀ (i : ℕ) (r : ReqId), requests'[i]? = some r → (objs'.req r).priority = i + 1 := by
  obtain ⟨objs₁, hslack, h⟩ := bind_eq_ok.mp h
  cases h
  have hsame := tryWritePriorities_same hslack
  refine ⟨sortBy_congr fun a ha b hb => ?_, fun i r hi => ?_⟩
  · obtain ⟨p, hp⟩ := hsame.req a
    obtain ⟨p', hp'⟩ := hsame.req b
    have harrival : (objs₁.req a).arrivalTime = (objs.req a).arrivalTime := by rw [hp]
    have harrival' : (objs₁.req b).arrivalTime = (objs.req b).arrivalTime := by rw [hp']
    rw [harrival, harrival', (tryWritePriorities_slack hknown hslack a).1 ha,
      (tryWritePriorities_slack hknown hslack b).1 hb]
    simp only [Request.deadline, Prod.Lex.toLex_le_toLex, Int.sub_lt_sub_right_iff, sub_left_inj]
  · have hperm := sortBy_perm (fun r => toLex ((objs₁.req r).priority, (objs₁.req r).arrivalTime))
      requests
    have hranks := writeRanks_priority 0 objs₁ (hperm.nodup_iff.mpr hnodup) fun r hr =>
      hsame.keys ▸ hknown r (hperm.subset hr)
    simpa using hranks.1 i r hi

/-- The ranks of the live requests are `1, …, n`. -/
theorem edf_bijOn : Set.BijOn (fun r => (objs'.req r).priority) {r | r ∈ requests}
    (Set.Icc 1 requests.length) := by
  obtain ⟨hsorted, hranks⟩ := updatePriorities_edf hnodup hknown h
  have hperm : requests'.Perm requests := hsorted ▸ sortBy_perm _ _
  have hget : ∀ r ∈ requests, ∃ i : ℕ, requests'[i]? = some r ∧ (objs'.req r).priority = i + 1 := by
    intro r hr
    obtain ⟨i, hi⟩ := List.getElem?_of_mem (hperm.mem_iff.mpr hr)
    exact ⟨i, hi, hranks i r hi⟩
  refine ⟨fun r hr => ?_, fun r hr x hx heq => ?_, fun p hp => ?_⟩
  · obtain ⟨i, hi, hrank⟩ := hget r hr
    have hlt : i < requests.length := hperm.length_eq ▸ (List.getElem?_eq_some_iff.mp hi).1
    simp only [hrank, Set.mem_Icc]
    omega
  · obtain ⟨i, hi, hrank⟩ := hget r hr
    obtain ⟨j, hj, hrank'⟩ := hget x hx
    obtain rfl : i = j := by
      simp only [hrank, hrank'] at heq
      omega
    exact Option.some.inj (hi.symm.trans hj)
  · obtain ⟨hlow, hhigh⟩ := hp
    have hlt : (p - 1).toNat < requests'.length := by
      rw [hperm.length_eq]
      omega
    have hi := List.getElem?_eq_getElem hlt
    refine ⟨requests'[(p - 1).toNat], hperm.subset (List.getElem_mem hlt), ?_⟩
    simp only [hranks _ _ hi]
    omega

/-- Two requests with different deadlines are ranked by them. -/
theorem edf_lt_iff (hr : r ∈ requests) (hx : x ∈ requests)
    (hne : (objs.req r).deadline ≠ (objs.req x).deadline) :
    (objs'.req r).priority < (objs'.req x).priority ↔
      (objs.req r).deadline < (objs.req x).deadline := by
  obtain ⟨hsorted, hranks⟩ := updatePriorities_edf hnodup hknown h
  have hpair : requests'.Pairwise fun a b => (objs.req a).deadline ≤ (objs.req b).deadline :=
    hsorted ▸ sortBy_pairwise _ _
  have hperm : requests'.Perm requests := hsorted ▸ sortBy_perm _ _
  obtain ⟨i, hi⟩ := List.getElem?_of_mem (hperm.mem_iff.mpr hr)
  obtain ⟨j, hj⟩ := List.getElem?_of_mem (hperm.mem_iff.mpr hx)
  have hle : ∀ {i j : ℕ} {a b : ReqId}, requests'[i]? = some a → requests'[j]? = some b → i < j →
      (objs.req a).deadline ≤ (objs.req b).deadline := by
    intro i j a b hi hj hij
    obtain ⟨hi', rfl⟩ := List.getElem?_eq_some_iff.mp hi
    obtain ⟨hj', rfl⟩ := List.getElem?_eq_some_iff.mp hj
    exact List.pairwise_iff_getElem.mp hpair i j hi' hj' hij
  rw [hranks i r hi, hranks j x hj]
  constructor
  · intro hlt
    exact lt_of_le_of_ne (hle hi hj (by omega)) hne
  · intro hlt
    by_contra hno
    rcases Nat.lt_or_ge j i with hji | hij
    · exact absurd (hle hj hi hji) (not_le.mpr hlt)
    · obtain rfl : i = j := by omega
      exact hne (congrArg (fun r => (objs.req r).deadline)
        (Option.some.inj (hi.symm.trans hj)))

/-- The clock reading makes no difference to the ranks. -/
theorem edf_clock {env' : StepEnv} {objs'' : Objs} {requests'' : List ReqId}
    (h' : updatePriorities .edf env' objs requests = .ok (objs'', requests'')) :
    requests'' = requests' ∧ ∀ r ∈ requests, (objs''.req r).priority = (objs'.req r).priority := by
  obtain ⟨hsorted, hranks⟩ := updatePriorities_edf hnodup hknown h
  obtain ⟨hsorted', hranks'⟩ := updatePriorities_edf hnodup hknown h'
  obtain rfl : requests'' = requests' := hsorted'.trans hsorted.symm
  refine ⟨rfl, fun r hr => ?_⟩
  have hmem : r ∈ requests'' := hsorted ▸ mem_sortBy.mpr hr
  obtain ⟨i, hi⟩ := List.getElem?_of_mem hmem
  rw [hranks' i r hi, hranks i r hi]

end Edf

/-- The ranking goes by the deadlines and by nothing else: the ranks are `1, …, n`, they follow the
deadlines, the clock reading makes no difference, and two requests with different deadlines are
ranked the same way among any other live requests. -/
structure RankedByDeadline (objs : Objs) (requests : List ReqId) (ranked : Objs) : Prop where
  bijOn : Set.BijOn (fun r => (ranked.req r).priority) {r | r ∈ requests}
    (Set.Icc 1 requests.length)
  lt_iff : ∀ r ∈ requests, ∀ x ∈ requests, (objs.req r).deadline ≠ (objs.req x).deadline →
    ((ranked.req r).priority < (ranked.req x).priority ↔
      (objs.req r).deadline < (objs.req x).deadline)
  clock : ∀ env objs' requests', updatePriorities .edf env objs requests = .ok (objs', requests') →
    ∀ r ∈ requests, (objs'.req r).priority = (ranked.req r).priority
  others : ∀ env objs₁ requests₁ objs' requests', requests₁.Nodup →
    (∀ r ∈ requests₁, r ∈ objs₁.keys) →
    updatePriorities .edf env objs₁ requests₁ = .ok (objs', requests') →
    ∀ r ∈ requests, ∀ x ∈ requests, r ∈ requests₁ → x ∈ requests₁ →
    (objs₁.req r).deadline = (objs.req r).deadline →
    (objs₁.req x).deadline = (objs.req x).deadline →
    (objs.req r).deadline ≠ (objs.req x).deadline →
    ((objs'.req r).priority < (objs'.req x).priority ↔
      (ranked.req r).priority < (ranked.req x).priority)

/-- The policy edf ranks the requests by their deadlines. -/
theorem edf_rankedByDeadline (hnodup : requests.Nodup) (hknown : ∀ r ∈ requests, r ∈ objs.keys)
    (h : updatePriorities .edf env objs requests = .ok (objs', requests')) :
    RankedByDeadline objs requests objs' where
  bijOn := edf_bijOn hnodup hknown h
  lt_iff r hr x hx := edf_lt_iff hnodup hknown h hr hx
  clock _ _ _ h' := (edf_clock hnodup hknown h h').2
  others _ _ _ _ _ hnodup₁ hknown₁ h₁ r hr x hx hr₁ hx₁ hsame hsame' hne := by
    rw [edf_lt_iff hnodup hknown h hr hx hne,
      edf_lt_iff hnodup₁ hknown₁ h₁ hr₁ hx₁ (by rwa [hsame, hsame']), hsame, hsame']

end RpsServe
