import RpsServe.Scheduler.Walking

/-!
# The end of the walk

The tail preemption takes the requests behind the walk one after the other and preempts for
each one that has the status `RUNNING` the last running request of the queue manager. The
two need not be the same request, but they are as many, so that in the end nothing runs
behind the walk.
-/

namespace RpsServe

namespace LoopState

variable {K E : Type} [KVCacheManager K] [EncoderCache E] {cfg : Config} {env : StepEnv}
  {r : ReqId} {ls t t' : LoopState K E}

/-- The requests from the walk on. -/
def behind (ls : LoopState K E) : List ReqId := ls.qm.combined.drop ls.reqIndex

omit [KVCacheManager K] [EncoderCache E] in
/-- A request is behind when it stands at the index of the walk or after it. -/
theorem mem_behind {ls : LoopState K E} :
    r ∈ ls.behind ↔ ∃ k, ls.reqIndex ≤ k ∧ ls.qm.combined[k]? = some r := by
  rw [behind, List.mem_iff_getElem?]
  constructor
  · rintro ⟨k, hk⟩
    exact ⟨ls.reqIndex + k, Nat.le_add_right _ _, by rwa [List.getElem?_drop] at hk⟩
  · rintro ⟨k, hik, hk⟩
    refine ⟨k - ls.reqIndex, ?_⟩
    rwa [List.getElem?_drop, Nat.add_sub_cancel' hik]

/-- What the tail preemption behind the index `i` asks of a property of the bookkeeping. -/
structure TailKept (i : ℕ) (W : QueueManager → Prop) : Prop where
  parts {qm : QueueManager} : W qm → qm.Parts
  none_running {qm : QueueManager} {k : ℕ} : W qm → qm.lastRunningIdx = none →
    qm.runningAt k = false
  exact {qm qm' : QueueManager} {l k : ℕ} {v : ReqId} : W qm →
    QueueManager.PreemptionUpdate qm qm' l v → qm.runningAt k = true → i ≤ k →
      GreatestHit qm.runningAt (some l)
  preempt {qm qm' : QueueManager} {l : ℕ} {v : ReqId} : W qm →
    QueueManager.PreemptionUpdate qm qm' l v → i ≤ l → W qm'

/-- The tail preemption that began in `ls` still has the requests `rest` to go. -/
structure TailPass (W : QueueManager → Prop) (ls : LoopState K E) (rest : List ReqId)
    (t : LoopState K E) : Prop where
  kept : W t.qm
  frame : Frame ls t
  same : ∃ sch preemptedReqs, t = { ls with sch := sch, preemptedReqs := preemptedReqs }
  nodup : rest.Nodup
  sub : ∀ r ∈ rest, r ∈ ls.behind
  count : (t.qm.runningReqIds.filter fun r => r ∈ ls.behind).card =
    (rest.filter fun r => r ∈ ls.qm.runningReqIds).length
  outside : ∀ r ∉ ls.behind, r ∈ t.qm.runningReqIds ↔ r ∈ ls.qm.runningReqIds
  status : ∀ r, (t.req r).status = .running ↔
    r ∈ ls.qm.runningReqIds ∧ (r ∈ ls.behind → r ∈ rest)
  waiting : t.qm.waitingReqIds = ls.qm.waitingReqIds
  preemptedIds : ls.qm.preemptedReqIds ⊆ t.qm.preemptedReqIds
  preempted : ∀ r ∈ t.preemptedReqs, r ∈ ls.preemptedReqs ∨
    r ∈ ls.qm.runningReqIds ∧ r ∈ ls.behind

namespace TailPass

variable {W : QueueManager → Prop}

omit [KVCacheManager K] [EncoderCache E] in
/-- The tail preemption begins with the requests behind the walk. -/
theorem start (hkept : TailKept ls.reqIndex W) (h : W ls.qm)
    (hstatus : ∀ r, (ls.req r).status = .running ↔ r ∈ ls.qm.runningReqIds) :
    TailPass W ls ls.behind ls where
  kept := h
  frame := .refl ls
  same := ⟨_, _, rfl⟩
  nodup := (hkept.parts h).nodup.sublist (List.drop_sublist _ _)
  sub _ hr := hr
  count := by
    have hnodup : ls.behind.Nodup := (hkept.parts h).nodup.sublist (List.drop_sublist _ _)
    rw [← List.toFinset_card_of_nodup (hnodup.filter _)]
    congr 1
    ext r
    simp [and_comm]
  outside _ _ := Iff.rfl
  status r := by simp [hstatus r]
  waiting := rfl
  preemptedIds := subset_rfl
  preempted _ hr := .inl hr

/-- One request of the tail preemption. -/
theorem next {rest : List ReqId} (hkept : TailKept ls.reqIndex W) (h : TailPass W ls (r :: rest) t)
    (hknown : ∀ r ∈ ls.qm.combined, r ∈ ls.sch.objs.keys) (htail : t.tailPreemptOne r = .ok t') :
    TailPass W ls rest t' := by
  have hbehind : r ∈ ls.behind := h.sub r List.mem_cons_self
  obtain ⟨hnotin, hnodup⟩ := List.nodup_cons.mp h.nodup
  have hsub : ∀ x ∈ rest, x ∈ ls.behind := fun x hx => h.sub x (List.mem_cons_of_mem r hx)
  have hcount := h.count
  rw [List.filter_cons] at hcount
  rcases tailPreemptOne_cases htail with ⟨hidle, rfl⟩ | ⟨hrun, qm', hqm, ht'⟩
  · have hR : r ∉ ls.qm.runningReqIds := fun hR =>
      hidle ((h.status r).mpr ⟨hR, fun _ => List.mem_cons_self⟩)
    rw [if_neg (by simpa using hR)] at hcount
    refine { h with nodup := hnodup, sub := hsub, count := hcount, status := fun x => ?_ }
    rw [h.status x, List.mem_cons]
    refine and_congr_right fun hx => imp_congr_right fun _ => or_iff_right ?_
    rintro rfl
    exact hR hx
  · have hR : r ∈ ls.qm.runningReqIds := ((h.status r).mp hrun).1
    rw [if_pos (by simpa using hR), List.length_cons] at hcount
    obtain ⟨x, hx⟩ := Finset.card_pos.mp
      (by omega : 0 < (t.qm.runningReqIds.filter fun r => r ∈ ls.behind).card)
    obtain ⟨hxR, hxb⟩ := Finset.mem_filter.mp hx
    obtain ⟨k, hik, hk⟩ := mem_behind.mp hxb
    rw [← h.frame.combined] at hk
    have hkr : t.qm.runningAt k = true := (QueueManager.standsIn_of_getElem? hk).mpr hxR
    rcases QueueManager.updateIdxsAfterPreemption_cases hqm with ⟨hnone, -⟩ | ⟨l, v, u⟩
    · rw [hkept.none_running h.kept hnone] at hkr
      cases hkr
    · have hexact := hkept.exact h.kept u hkr hik
      have hil : ls.reqIndex ≤ l := hik.trans (hexact.2 k hkr)
      have hv : v ∈ ls.behind := mem_behind.mpr ⟨l, hil, h.frame.combined ▸ u.stands⟩
      have hrc : r ∈ t.qm.combined := by
        rw [h.frame.combined]
        exact List.mem_of_mem_drop hbehind
      have hframe : Frame t t' :=
        .of_modify (f := fun q => { q with status := .preempted, numComputedTokens := 0 }) hrc
          (fun _ => ⟨_, _, _, _, rfl⟩) u.toSameList (by rw [ht'])
      have hqm' : t'.qm = qm' := by rw [ht']; rfl
      have hreq : ∀ x, t'.req x = Objs.req (t.sch.objs.modify r fun q => { q with
          status := .preempted
          numComputedTokens := 0 }) x := fun x => by rw [ht']; rfl
      have hrk : r ∈ t.sch.objs.keys := h.frame.known hknown r hrc
      exact {
        kept := hqm' ▸ hkept.preempt h.kept u hil
        frame := h.frame.trans hframe
        same := by
          obtain ⟨sch, preemptedReqs, hsame⟩ := h.same
          exact ⟨_, _, by rw [ht', hsame]⟩
        nodup := hnodup
        sub := hsub
        count := by
          have hvin : v ∈ t.qm.runningReqIds.filter fun r => r ∈ ls.behind :=
            Finset.mem_filter.mpr ⟨u.wasRunning, hv⟩
          rw [hqm', u.running, Finset.filter_erase, Finset.card_erase_of_mem hvin]
          omega
        outside := fun x hx => by
          have hne : x ≠ v := fun hEq => hx (hEq ▸ hv)
          rw [hqm', u.running, Finset.mem_erase, and_iff_right hne]
          exact h.outside x hx
        status := fun x => by
          rw [hreq x]
          by_cases hxr : x = r
          · subst hxr
            rw [Objs.req_modify_self hrk]
            simp [hbehind, hnotin]
          · rw [Objs.req_modify_ne hxr]
            refine (h.status x).trans ?_
            simp [hxr]
        waiting := by rw [hqm', u.waiting, h.waiting]
        preemptedIds := by
          rw [hqm', u.preempted]
          exact h.preemptedIds.trans (Finset.subset_insert _ _)
        preempted := fun x hx => by
          rw [ht'] at hx
          rcases List.mem_append.mp hx with hx | hx
          · exact h.preempted x hx
          · obtain rfl := List.mem_singleton.mp hx
            exact .inr ⟨hR, hbehind⟩ }

omit [KVCacheManager K] [EncoderCache E] in
/-- When the tail preemption is done, nothing runs behind the walk. -/
theorem ahead (h : TailPass W ls [] t) : Ahead t := by
  have hnone : (t.qm.runningReqIds.filter fun r => r ∈ ls.behind) = ∅ :=
    Finset.card_eq_zero.mp h.count
  have hindex : t.reqIndex = ls.reqIndex := by
    obtain ⟨_, _, hsame⟩ := h.same
    rw [hsame]
  intro k hk
  obtain ⟨x, hkx, hx⟩ := QueueManager.standsIn_iff.mp hk
  by_contra hle
  rw [hindex, not_lt] at hle
  rw [h.frame.combined] at hkx
  have hmem : x ∈ t.qm.runningReqIds.filter fun r => r ∈ ls.behind :=
    Finset.mem_filter.mpr ⟨hx, mem_behind.mpr ⟨k, hle, hkx⟩⟩
  simp [hnone] at hmem

omit [KVCacheManager K] [EncoderCache E] in
/-- What runs when the tail preemption is done does not stand behind the walk. -/
theorem not_behind {x : ReqId} (h : TailPass W ls [] t) (hx : x ∈ t.qm.runningReqIds) :
    x ∉ ls.behind := by
  have hindex : t.reqIndex = ls.reqIndex := by
    obtain ⟨_, _, hsame⟩ := h.same
    rw [hsame]
  intro hb
  obtain ⟨k, hik, hk⟩ := mem_behind.mp hb
  rw [← h.frame.combined] at hk
  have := h.ahead k ((QueueManager.standsIn_of_getElem? hk).mpr hx)
  omega

omit [KVCacheManager K] [EncoderCache E] in
/-- When the tail preemption is done, the requests in the running ids are those with the status. -/
theorem status_iff (h : TailPass W ls [] t) (x : ReqId) :
    (t.req x).status = .running ↔ x ∈ t.qm.runningReqIds := by
  rw [h.status x]
  by_cases hx : x ∈ ls.behind
  · exact iff_of_false (fun hR => List.not_mem_nil (hR.2 hx)) fun hR => h.not_behind hR hx
  · simp [hx, h.outside x hx]

omit [KVCacheManager K] [EncoderCache E] in
/-- The invariant of the walk holds again when the tail preemption is done. -/
theorem walking (h : TailPass (·.Walk ls.reqIndex) ls [] t) (hs : Walking ls) : Walking t := by
  obtain ⟨sch, preemptedReqs, hsame⟩ := h.same
  have hindex : t.reqIndex = ls.reqIndex := by rw [hsame]
  have hscheduled : t.scheduledReqs = ls.scheduledReqs := by rw [hsame]; rfl
  exact {
    walk := hindex ▸ h.kept
    sorted := h.frame.sorted hs.sorted
    known := h.frame.known hs.known
    status := h.status_iff
    preempted := fun x hx => by
      rcases h.preempted x hx with hx | ⟨hR, hb⟩
      · exact h.preemptedIds (hs.preempted x hx)
      · obtain ⟨k, hik, hk⟩ := mem_behind.mp hb
        rw [← h.frame.combined] at hk
        have hnotR : x ∉ t.qm.runningReqIds := fun hx => h.not_behind hx hb
        have hnotW : x ∉ t.qm.waitingReqIds := by
          rw [h.waiting]
          exact Finset.disjoint_left.mp hs.walk.toParts.running_waiting hR
        rcases h.kept.after k hik (List.getElem?_eq_some_iff.mp hk).1 with hr | hw
        · exact absurd ((QueueManager.standsIn_of_getElem? hk).mp hr) hnotR
        · have hw := (QueueManager.standsIn_of_getElem? hk).mp hw
          exact (Finset.mem_union.mp hw).resolve_left hnotW
    scheduledNodup := hscheduled ▸ hs.scheduledNodup
    scheduledKeys := fun x => by
      rw [hscheduled, ← hs.scheduledKeys x, hsame]
    scheduled := fun x hx => by
      rw [hscheduled] at hx
      obtain ⟨hxR, j, hj, hjx⟩ := hs.scheduled x hx
      refine ⟨(h.outside x ?_).mpr hxR, j, hindex ▸ hj, h.frame.combined ▸ hjx⟩
      rw [mem_behind]
      rintro ⟨k, hik, hk⟩
      have := hs.walk.toParts.index_unique hk hjx
      omega
    budget := by
      rw [hsame]
      exact hs.budget }

end TailPass

/-- Tail preemptions keep the bookkeeping of the walk. -/
theorem tailKept_walk (i : ℕ) : TailKept i (·.Walk i) where
  parts h := h.toParts
  none_running h hl := h.last.none_running hl _
  exact h u hk hik := u.lastRunning ▸ h.last.exact hk hik
  preempt h u hil := h.preempt u hil

/-- The tail preemption keeps the invariant of the walk; where it is made at all, nothing runs
behind the walk afterwards. -/
theorem Walking.tailPreempt (h : Walking ls) (htail : ls.tailPreempt = .ok t) :
    Walking t ∧ t.reqIndex = ls.reqIndex ∧
      (Ahead ls ∨ ls.tokenBudget = 0 ∧ ls.reqIndex < ls.qm.combined.length → Ahead t) := by
  unfold LoopState.tailPreempt at htail
  split at htail
  · have hkept := tailKept_walk ls.reqIndex
    have hpass : TailPass (·.Walk ls.reqIndex) ls [] t :=
      foldlM_rule (I := TailPass (·.Walk ls.reqIndex) ls) htail (.start hkept h.walk h.status)
        fun _ _ _ _ hI hone => hI.next hkept h.known hone
    obtain ⟨_, _, hsame⟩ := hpass.same
    exact ⟨hpass.walking h, by rw [hsame], fun _ => hpass.ahead⟩
  · rename_i hno
    cases htail
    exact ⟨h, rfl, fun hahead => hahead.resolve_right hno⟩

end LoopState

end RpsServe
