import RpsServe.QueueManager.Exact

/-!
# The last running index

The index need not be exact: the first admission into an empty running set writes index `0`
and the last one of all writes the last index of the list, whatever stands there. But then no
running request stands at it, so that nothing can be preempted through it. Every update of the
queue manager keeps this, in any order.
-/

namespace RpsServe

namespace QueueManager

/-- The last running index is exact, or no running request stands at it and all that run stand
before the first waiting request. -/
def LastSound (qm : QueueManager) : Prop :=
  GreatestHit qm.runningAt qm.lastRunningIdx ∨
    (∃ l, qm.lastRunningIdx = some l ∧ qm.runningAt l = false) ∧
      ∀ f, qm.firstWaitingIdx = some f → ∀ k, qm.runningAt k = true → k < f

variable {qm qm' : QueueManager} {l f k : ℕ} {v r : ReqId}

/-- What is preempted through the index is the last running request. -/
theorem LastSound.exact (h : qm.LastSound) (u : PreemptionUpdate qm qm' l v) :
    GreatestHit qm.runningAt (some l) := by
  rcases h with h | ⟨⟨l', hl', hidle⟩, -⟩
  · exact u.lastRunning ▸ h
  · obtain rfl : l = l' := Option.some.inj (u.lastRunning.symm.trans hl')
    rw [runningAt, (standsIn_of_getElem? u.stands).mpr u.wasRunning] at hidle
    cases hidle

/-- Without a last running index nothing runs. -/
theorem LastSound.none_running (h : qm.LastSound) (hl : qm.lastRunningIdx = none) (k : ℕ) :
    qm.runningAt k = false := by
  rcases h with h | ⟨⟨l', hl', -⟩, -⟩
  · rw [hl] at h
    exact h k
  · rw [hl] at hl'
    cases hl'

/-- A preemption keeps the last running index sound. -/
theorem PreemptionUpdate.lastSound (u : PreemptionUpdate qm qm' l v) (hp : qm.Parts)
    (h : qm.LastSound) : qm'.LastSound := .inl (u.last hp (h.exact u))

/-- What a scan from `f` on finds stands behind `f` when nothing waits at `f` any more. -/
theorem SchedulingUpdate.lt_first (u : SchedulingUpdate qm qm' f r) (hp : qm.Parts) {f' : ℕ}
    (hf' : qm'.firstWaitingIdx = some f') : f < f' := by
  rw [u.newFirstWaiting] at hf'
  obtain ⟨hge, -, hwaits, -⟩ := firstFrom_eq_some hf'
  have hne : f' ≠ f := ((u.waitingAt_iff hp).mp hwaits).1
  omega

/-- A scheduling keeps the last running index sound. -/
theorem SchedulingUpdate.lastSound (u : SchedulingUpdate qm qm' f r) (hp : qm.Parts)
    (h : qm.LastSound) : qm'.LastSound := by
  have hruns : ∀ {k}, qm'.runningAt k = true ↔ k = f ∨ qm.runningAt k = true :=
    u.runningAt_iff hp
  by_cases hn : qm'.firstWaitingIdx = none
  · have hlast := u.noneWaiting hn
    by_cases hrun : qm'.runningAt (qm.combined.length - 1) = true
    · rw [LastSound, hlast]
      refine .inl ⟨hrun, fun k hk => ?_⟩
      have := lt_length_of_standsIn hk
      rw [u.combined] at this
      omega
    · refine .inr ⟨⟨_, hlast, by simpa using hrun⟩, fun f' hf' => ?_⟩
      rw [hn] at hf'
      cases hf'
  · have hnew := u.newLastRunning hn
    cases hq : qm.lastRunningIdx with
    | none =>
      rw [hq] at hnew
      have honly : ∀ {k}, qm'.runningAt k = true → k = f := fun hk =>
        (hruns.mp hk).resolve_right (by simp [h.none_running hq])
      by_cases hzero : f = 0
      · rw [LastSound, hnew]
        exact .inl ⟨hruns.mpr (.inl hzero.symm), fun k hk => by rw [honly hk, hzero]⟩
      · refine .inr ⟨⟨0, hnew, ?_⟩, fun f' hf' k hk => ?_⟩
        · rw [← Bool.not_eq_true]
          exact fun hk => hzero (honly hk).symm
        · exact honly hk ▸ u.lt_first hp hf'
    | some l =>
      rw [hq] at hnew
      dsimp only at hnew
      rcases h with hlast | ⟨⟨l', hl', hidle⟩, hbefore⟩
      · rw [hq] at hlast
        rw [LastSound, hnew]
        refine .inl ⟨?_, fun k hk => ?_⟩
        · rcases max_choice l f with hm | hm
          · exact hruns.mpr (.inr (by rw [hm]; exact hlast.1))
          · exact hruns.mpr (.inl hm)
        · rcases hruns.mp hk with rfl | hk
          · exact le_max_right _ _
          · exact (hlast.2 k hk).trans (le_max_left _ _)
      · obtain rfl : l = l' := Option.some.inj (hq.symm.trans hl')
        have hle : ∀ {k}, qm'.runningAt k = true → k ≤ f := fun hk => by
          rcases hruns.mp hk with rfl | hk
          exacts [le_rfl, (hbefore f u.firstWaiting _ hk).le]
        by_cases hlf : l ≤ f
        · rw [LastSound, hnew, max_eq_right hlf]
          exact .inl ⟨hruns.mpr (.inl rfl), fun k hk => hle hk⟩
        · rw [max_eq_left (by omega)] at hnew
          refine .inr ⟨⟨l, hnew, ?_⟩, fun f' hf' k hk => (hle hk).trans_lt (u.lt_first hp hf')⟩
          rw [← Bool.not_eq_true, hruns, hidle]
          simp only [Bool.false_eq_true, or_false]
          omega

/-- A drop keeps the last running index sound. -/
theorem DropUpdate.lastSound (u : DropUpdate qm qm' f r) (h : qm.LastSound) : qm'.LastSound := by
  have hsame : qm'.runningAt = qm.runningAt := funext fun _ => u.runningAt_eq
  rw [LastSound, hsame, u.sameLastRunning]
  rcases h with h | ⟨hidle, hbefore⟩
  · exact .inl h
  · refine .inr ⟨hidle, fun f' hf' k hk => (hbefore f u.firstWaiting k hk).trans_le ?_⟩
    rw [u.newFirstWaiting] at hf'
    exact (firstFrom_eq_some hf').1

/-- Every update keeps the last running index sound. -/
theorem Update.lastSound (u : Update qm qm') (hp : qm.Parts) (h : qm.LastSound) :
    qm'.LastSound := by
  cases u with
  | same hs => exact hs ▸ h
  | preemption u => exact u.lastSound hp h
  | scheduling u => exact u.lastSound hp h
  | drop u => exact u.lastSound h

end QueueManager

end RpsServe
