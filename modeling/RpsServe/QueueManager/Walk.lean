import RpsServe.QueueManager.Merge

/-!
# The walk over the combined list

What the bookkeeping looks like when the walk has come to an index: the requests before it
run or were dropped, those from it on run or wait, and everything preempted stands behind
everything that runs. Preempting at or behind the index keeps this, and so does treating
the request at the index, with the index moving on by one.
-/

namespace RpsServe

namespace QueueManager

/-- A preempted request stands at the index. -/
def preemptedAt (qm : QueueManager) (i : ℕ) : Bool := qm.standsIn qm.preemptedReqIds i

/-- The last running index is exact, or it stands for running requests before the walk only: the
first admission into an empty running set writes index `0`, whatever stands there. -/
def LastKnown (qm : QueueManager) (i : ℕ) : Prop :=
  GreatestHit qm.runningAt qm.lastRunningIdx ∨
    (∃ l < i, qm.lastRunningIdx = some l) ∧ ∀ k, qm.runningAt k = true → k < i

/-- The bookkeeping when the walk has come to the index `i`. -/
structure Walk (qm : QueueManager) (i : ℕ) : Prop extends Parts qm where
  before : ∀ j < i, qm.waitingAt j = false
  after : ∀ j, i ≤ j → j < qm.combined.length → qm.runningAt j = true ∨ qm.waitingAt j = true
  order : ∀ j k, qm.preemptedAt j = true → qm.runningAt k = true → k < j
  dropped : ∀ j < i, ∀ r, qm.combined[j]? = some r → r ∈ qm.runningReqIds ∨
    r ∈ qm.ignoredReqIds ∪ qm.skippedReqIds
  first : LeastHit qm.waitingAt qm.firstWaitingIdx
  last : qm.LastKnown i

variable {qm qm' : QueueManager} {i j k l f : ℕ} {r v : ReqId}

/-- When a request from some index on runs, the last running index is exact. -/
theorem LastKnown.exact (h : qm.LastKnown i) (hk : qm.runningAt k = true) (hik : i ≤ k) :
    GreatestHit qm.runningAt qm.lastRunningIdx := by
  rcases h with h | ⟨-, hall⟩
  · exact h
  · exact absurd (hall k hk) (by omega)

/-- A last running index at or behind the walk is exact. -/
theorem LastKnown.of_last (h : qm.LastKnown i) (hl : qm.lastRunningIdx = some l) (hil : i ≤ l) :
    GreatestHit qm.runningAt (some l) := by
  rcases h with h | ⟨⟨l', hl', hsome⟩, -⟩
  · exact hl ▸ h
  · obtain rfl : l = l' := Option.some.inj (hl.symm.trans hsome)
    omega

/-- Without a last running index nothing runs. -/
theorem LastKnown.none_running (h : qm.LastKnown i) (hl : qm.lastRunningIdx = none) (k : ℕ) :
    qm.runningAt k = false := by
  rcases h with h | ⟨⟨l', -, hsome⟩, -⟩
  · rw [hl] at h
    exact h k
  · rw [hl] at hsome
    cases hsome

/-- A preempted request waits too. -/
theorem preemptedAt_waitingAt (h : qm.preemptedAt j = true) : qm.waitingAt j = true :=
  standsIn_union.mpr (.inr h)

namespace Walk

/-- Exact bookkeeping with nothing preempted is where the walk starts. -/
theorem start (h : qm.Exact) (hp : qm.preemptedReqIds = ∅) : qm.Walk 0 where
  toParts := h.toParts
  before j hj := absurd hj (Nat.not_lt_zero j)
  after j _ hj := h.cover j hj
  order j k hj := by
    obtain ⟨r, -, hr⟩ := standsIn_iff.mp hj
    simp [hp] at hr
  dropped j hj := absurd hj (Nat.not_lt_zero j)
  first := h.first
  last := .inl h.last

/-- The walk goes past a running request. -/
theorem pass (h : qm.Walk i) (hr : qm.runningAt i = true) : qm.Walk (i + 1) where
  toParts := h.toParts
  before j hj := by
    rcases Nat.lt_succ_iff_lt_or_eq.mp hj with hj | rfl
    exacts [h.before j hj, h.toParts.not_both hr]
  after j hj := h.after j (by omega)
  order := h.order
  dropped j hj r hjr := by
    rcases Nat.lt_succ_iff_lt_or_eq.mp hj with hj | rfl
    · exact h.dropped j hj r hjr
    · exact .inl ((standsIn_of_getElem? hjr).mp hr)
  first := h.first
  last := .inl (h.last.exact hr le_rfl)

/-- The last running request, at or behind the walk, is preempted. -/
theorem preempt (h : qm.Walk i) (u : PreemptionUpdate qm qm' l v) (hil : i ≤ l) : qm'.Walk i := by
  have hlast : GreatestHit qm.runningAt (some l) := h.last.of_last u.lastRunning hil
  have hl : l < qm.combined.length := lt_length_of_standsIn hlast.1
  have hpreempted : ∀ {j}, qm'.preemptedAt j = true ↔ j = l ∨ qm.preemptedAt j = true := by
    intro j
    rw [preemptedAt, u.preempted, standsIn_congr u.combined, h.toParts.standsIn_insert u.stands,
      preemptedAt]
  refine { u.parts h.toParts with
    before := fun j hj => ?_
    after := fun j hij hj => ?_
    order := fun j k hj hk => ?_
    dropped := fun j hj r hjr => ?_
    first := u.first h.toParts h.first fun hnone => ?_
    last := .inl (u.last h.toParts hlast) }
  · rw [← Bool.not_eq_true, u.waitingAt_iff h.toParts, not_or, Bool.not_eq_true]
    exact ⟨by omega, h.before j hj⟩
  · rw [u.combined] at hj
    rw [u.runningAt_iff h.toParts, u.waitingAt_iff h.toParts]
    have := h.after j hij hj
    tauto
  · obtain ⟨hkl, hk⟩ := (u.runningAt_iff h.toParts).mp hk
    rcases hpreempted.mp hj with rfl | hj
    · exact lt_of_le_of_ne (hlast.2 k hk) hkl
    · exact h.order j k hj hk
  · rw [u.combined] at hjr
    rw [u.running, u.ignored, u.skipped, Finset.mem_erase]
    refine (h.dropped j hj r hjr).imp_left fun hr => ⟨?_, hr⟩
    rintro rfl
    have := h.toParts.index_unique u.stands hjr
    omega
  · have hfirst := h.first
    rw [hnone] at hfirst
    rcases h.after (qm.combined.length - 1) (by omega) (by omega) with hr | hw
    · have := hlast.2 _ hr
      omega
    · simp [hfirst _] at hw

/-- A candidate in the waiting ids is the first waiting request. -/
theorem first_eq (h : qm.Walk i) (hi : qm.combined[i]? = some r) (hr : r ∈ qm.waitingReqIds) :
    qm.firstWaitingIdx = some i := by
  have hw : qm.waitingAt i = true :=
    (standsIn_of_getElem? hi).mpr (Finset.mem_union_left _ hr)
  have hfirst := h.first
  cases hq : qm.firstWaitingIdx with
  | none =>
    rw [hq] at hfirst
    simp [hfirst i] at hw
  | some f =>
    rw [hq] at hfirst
    have hle := hfirst.2 i hw
    have hge : i ≤ f := by
      by_contra hlt
      exact absurd hfirst.1 (by simp [h.before f (by omega)])
    rw [show f = i by omega]

/-- The candidate is admitted. -/
theorem schedule (h : qm.Walk i) (u : SchedulingUpdate qm qm' i r) :
    qm'.Walk (i + 1) := by
  have hfirst : LeastHit qm.waitingAt (some i) := u.firstWaiting ▸ h.first
  have hlen : i < qm.combined.length := lt_length_of_standsIn hfirst.1
  have hnewFirst := u.first h.toParts hfirst
  have hafter : ∀ j, i ≤ j → j < qm'.combined.length →
      qm'.runningAt j = true ∨ qm'.waitingAt j = true := by
    intro j hij hj
    rw [u.combined] at hj
    rw [u.runningAt_iff h.toParts, u.waitingAt_iff h.toParts]
    have := h.after j hij hj
    tauto
  have hpreempted : ∀ {j}, qm'.preemptedAt j = true → i < j ∧ qm.preemptedAt j = true := by
    intro j hj
    rw [preemptedAt, u.preempted, standsIn_congr u.combined, h.toParts.standsIn_erase u.stands]
      at hj
    refine ⟨lt_of_le_of_ne (hfirst.2 j (preemptedAt_waitingAt hj.2)) (Ne.symm hj.1), hj.2⟩
  refine { u.parts h.toParts with
    before := fun j hj => ?_
    after := fun j hij => hafter j (by omega)
    order := fun j k hj hk => ?_
    dropped := fun j hj x hjx => ?_
    first := hnewFirst
    last := ?_ }
  · rw [← Bool.not_eq_true, u.waitingAt_iff h.toParts]
    rintro ⟨hne, hw⟩
    have := hfirst.2 j hw
    omega
  · obtain ⟨hij, hj⟩ := hpreempted hj
    rcases (u.runningAt_iff h.toParts).mp hk with rfl | hk
    · exact hij
    · exact h.order j k hj hk
  · rw [u.combined] at hjx
    rw [u.running, u.ignored, u.skipped, Finset.mem_insert]
    rcases Nat.lt_succ_iff_lt_or_eq.mp hj with hj | rfl
    · exact (h.dropped j hj x hjx).imp_left .inr
    · exact .inl (.inl (Option.some.inj (hjx.symm.trans u.stands)))
  · by_cases hn : qm'.firstWaitingIdx = none
    · left
      rw [u.noneWaiting hn]
      rw [hn] at hnewFirst
      constructor
      · rcases hafter (qm.combined.length - 1) (by omega) (by rw [u.combined]; omega) with hr | hw
        · exact hr
        · simp [hnewFirst _] at hw
      · intro k hk
        have := lt_length_of_standsIn hk
        rw [u.combined] at this
        omega
    · have hnew := u.newLastRunning hn
      cases hq : qm.lastRunningIdx with
      | none =>
        rw [hq] at hnew
        refine .inr ⟨⟨0, by omega, hnew⟩, fun k hk => ?_⟩
        rcases (u.runningAt_iff h.toParts).mp hk with rfl | hk
        · omega
        · simp [h.last.none_running hq k] at hk
      | some l =>
        left
        rw [hnew, hq]
        dsimp only
        rcases h.last with hlast | ⟨⟨l', hl', hsome⟩, hall⟩
        · rw [hq] at hlast
          constructor
          · rcases max_choice l i with hm | hm
            · exact (u.runningAt_iff h.toParts).mpr (.inr (by rw [hm]; exact hlast.1))
            · exact (u.runningAt_iff h.toParts).mpr (.inl hm)
          · intro k hk
            rcases (u.runningAt_iff h.toParts).mp hk with rfl | hk
            · exact le_max_right _ _
            · exact (hlast.2 k hk).trans (le_max_left _ _)
        · obtain rfl : l = l' := Option.some.inj (hq.symm.trans hsome)
          rw [max_eq_right hl'.le]
          refine ⟨(u.runningAt_iff h.toParts).mpr (.inl rfl), fun k hk => ?_⟩
          rcases (u.runningAt_iff h.toParts).mp hk with rfl | hk
          · exact le_rfl
          · exact (hall k hk).le

/-- The candidate is ignored or skipped. -/
theorem drop (h : qm.Walk i) (u : DropUpdate qm qm' i r) : qm'.Walk (i + 1) := by
  have hfirst : LeastHit qm.waitingAt (some i) := u.firstWaiting ▸ h.first
  have hpreempted : ∀ {j}, qm'.preemptedAt j = qm.preemptedAt j := by
    intro j
    rw [preemptedAt, u.preempted, standsIn_congr u.combined, preemptedAt]
  refine { u.parts h.toParts with
    before := fun j hj => ?_
    after := fun j hij hj => ?_
    order := fun j k hj hk => ?_
    dropped := fun j hj x hjx => ?_
    first := u.first h.toParts hfirst
    last := ?_ }
  · rw [← Bool.not_eq_true, u.waitingAt_iff h.toParts]
    rintro ⟨hne, hw⟩
    have := hfirst.2 j hw
    omega
  · rw [u.combined] at hj
    rw [u.runningAt_eq, u.waitingAt_iff h.toParts]
    have := h.after j (by omega) hj
    have : j ≠ i := by omega
    tauto
  · rw [hpreempted] at hj
    rw [u.runningAt_eq] at hk
    exact h.order j k hj hk
  · rw [u.combined] at hjx
    rw [u.running, u.dropped, Finset.mem_insert]
    rcases Nat.lt_succ_iff_lt_or_eq.mp hj with hj | rfl
    · exact (h.dropped j hj x hjx).imp_right .inr
    · exact .inr (.inl (Option.some.inj (hjx.symm.trans u.stands)))
  · have hsame : qm'.runningAt = qm.runningAt := funext fun _ => u.runningAt_eq
    rw [LastKnown, hsame, u.sameLastRunning]
    rcases h.last with hlast | ⟨⟨l, hl, hsome⟩, hall⟩
    · exact .inl hlast
    · exact .inr ⟨⟨l, by omega, hsome⟩, fun k hk => Nat.lt_succ_of_lt (hall k hk)⟩

end Walk

end QueueManager

end RpsServe
