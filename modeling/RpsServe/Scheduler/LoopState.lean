import RpsServe.Scheduler.Encoder
import RpsServe.Lib.Loop
import RpsServe.Lib.Except

/-!
# The local variables of a step

`schedule` walks the combined list with a number of local lists and dictionaries. They are
kept in one record together with the scheduler's own state, and the operations below are
the groups of assignments that the loop makes at one place.
-/

namespace RpsServe

/-- The local variables of `schedule`. The set `preempted_req_ids` is the set of the ids in
`preemptedReqs`. The index is lowered only for a request that raised it before. -/
structure LoopState (K E : Type) where
  sch : Scheduler K E
  scheduledNewReqs : List ReqId := []
  scheduledResumedReqs : List ReqId := []
  scheduledRunningReqs : List ReqId := []
  preemptedReqs : List ReqId := []
  reqToNewBlocks : Dict ReqId KVCacheBlocks := .empty
  numScheduledTokens : Dict ReqId ℤ := .empty
  tokenBudget : ℤ
  scheduledEncoderInputs : Dict ReqId (List ℕ) := .empty
  encoderComputeBudget : ℤ
  scheduledSpecDecodeTokens : Dict ReqId (List Token) := .empty
  scheduledLoras : Finset ℕ := ∅
  reqIndex : ℕ := 0

namespace LoopState

variable {K E : Type}

/-- The queue manager of the step. -/
def qm (ls : LoopState K E) : QueueManager := ls.sch.queueManager

/-- The object of a request. -/
def req (ls : LoopState K E) (r : ReqId) : Request := ls.sch.req r

/-- The loop state with other queues. -/
def setQm (ls : LoopState K E) (qm : QueueManager) : LoopState K E :=
  { ls with sch := { ls.sch with queueManager := qm } }

/-- The loop state with another KV manager. -/
def setKv (ls : LoopState K E) (kv : K) : LoopState K E := { ls with sch := { ls.sch with kv := kv } }

/-- The loop state with another encoder cache. -/
def setEnc (ls : LoopState K E) (enc : E) : LoopState K E :=
  { ls with sch := { ls.sch with enc := enc } }

/-- The loop state with one request changed. -/
def modifyReq (ls : LoopState K E) (r : ReqId) (f : Request → Request) : LoopState K E :=
  { ls with sch := ls.sch.modifyReq r f }

/-- `req_index += 1`. -/
def advance (ls : LoopState K E) : LoopState K E := { ls with reqIndex := ls.reqIndex + 1 }

section Projections

variable (ls : LoopState K E) (kv : K) (enc : E) (qm : QueueManager) (r : ReqId)
  (f : Request → Request)

/-- Changing the KV manager leaves the queues. -/
@[simp] theorem qm_setKv : (ls.setKv kv).qm = ls.qm := rfl

/-- Changing the KV manager leaves the requests. -/
@[simp] theorem req_setKv : (ls.setKv kv).req r = ls.req r := rfl

/-- Changing the encoder cache leaves the queues. -/
@[simp] theorem qm_setEnc : (ls.setEnc enc).qm = ls.qm := rfl

/-- Changing the encoder cache leaves the requests. -/
@[simp] theorem req_setEnc : (ls.setEnc enc).req r = ls.req r := rfl

/-- The queues are those that were set. -/
@[simp] theorem qm_setQm : (ls.setQm qm).qm = qm := rfl

/-- Changing the queues leaves the requests. -/
@[simp] theorem req_setQm : (ls.setQm qm).req r = ls.req r := rfl

/-- Changing a request leaves the queues. -/
@[simp] theorem qm_modifyReq : (ls.modifyReq r f).qm = ls.qm := rfl

/-- Advancing leaves the queues. -/
@[simp] theorem qm_advance : ls.advance.qm = ls.qm := rfl

/-- Advancing leaves the requests. -/
@[simp] theorem req_advance : ls.advance.req r = ls.req r := rfl

end Projections

/-- A request with status `RUNNING` is known. -/
theorem known_of_running {ls : LoopState K E} {r : ReqId} (h : (ls.req r).status = .running) :
    r ∈ ls.sch.objs.keys := by
  by_contra hno
  rw [LoopState.req, Scheduler.req, Objs.req_of_notMem hno] at h
  cases h

/-- A request with items is known. -/
theorem known_of_items {ls : LoopState K E} {r : ReqId} (h : (ls.req r).mmFeatures ≠ []) :
    r ∈ ls.sch.objs.keys := by
  by_contra hno
  rw [LoopState.req, Scheduler.req, Objs.req_of_notMem hno] at h
  exact h rfl

/-- The embeddings of the listed items of a request. -/
def encoderEmbeds (q : Request) (inputs : List ℕ) : ℤ :=
  (inputs.map fun i => (q.getNumEncoderEmbeds i : ℤ)).sum

/-- Undo the scheduling of a victim that was scheduled as a running request in this step. -/
def rollback (ls : LoopState K E) (v : ReqId) : Except SchedError (LoopState K E) :=
  if v ∉ ls.scheduledRunningReqs then .ok ls
  else
    match ls.numScheduledTokens.get? v, ls.reqToNewBlocks.get? v with
    | some numTokens, some _ =>
      .ok { ls with
        scheduledRunningReqs := ls.scheduledRunningReqs.erase v
        tokenBudget := ls.tokenBudget + numTokens
        numScheduledTokens := ls.numScheduledTokens.erase v
        reqToNewBlocks := ls.reqToNewBlocks.erase v
        scheduledSpecDecodeTokens := ls.scheduledSpecDecodeTokens.erase v
        scheduledEncoderInputs := ls.scheduledEncoderInputs.erase v
        encoderComputeBudget := ls.encoderComputeBudget +
          encoderEmbeds (ls.req v) ((ls.scheduledEncoderInputs.get? v).getD [])
        reqIndex := ls.reqIndex - 1 }
    | _, _ => .error .keyError

variable [KVCacheManager K] [EncoderCache E]

/-- Preempt a victim in one of the two allocation loops. -/
def preemptVictim (ls : LoopState K E) (v : ReqId) : Except SchedError (LoopState K E) := do
  let ls ← ls.rollback v
  let sch ← ls.sch.preemptRequest v
  let qm ← sch.queueManager.updateIdxsAfterPreemption
  .ok { ls with
    sch := { sch with queueManager := qm }
    preemptedReqs := ls.preemptedReqs ++ [v] }

/-- Whether a running request is not preempted for the sake of a candidate. -/
def keepsPlace (victim candidate : Request) : Bool :=
  victim.priority ≠ 0 && candidate.priority ≠ 0 && victim.priority < candidate.priority

/-- One round of an allocation loop: the blocks when they were found, nothing when no request is
left to preempt, or the next round after a preemption. -/
def allocRound (q : ReqId) (args : AllocateSlotsArgs) (ls : LoopState K E) :
    Except SchedError (Pass (LoopState K E) (Option KVCacheBlocks × LoopState K E)) := do
  let (newBlocks, kv) ← KVCacheManager.allocateSlots ls.sch.kv (ls.req q) args
  let ls := ls.setKv kv
  match newBlocks with
  | some blocks => .ok (.done (some blocks, ls))
  | none =>
    match ls.qm.lastRunningIdx with
    | none => .ok (.done (none, ls))
    | some lrIdx =>
      match ls.qm.combined[lrIdx]? with
      | none => .error .indexError
      | some v =>
        if keepsPlace (ls.req v) (ls.req q) then .ok (.done (none, ls))
        else do
          let ls ← ls.preemptVictim v
          if v = q then .ok (.done (none, ls)) else .ok (.next ls)

/-- The loop around `allocate_slots`; every further round has taken a request out of the running
ids. -/
def allocLoop (q : ReqId) (args : AllocateSlotsArgs) (ls : LoopState K E) :
    Except SchedError (Option KVCacheBlocks × LoopState K E) :=
  loop (allocRound q args) .diverges (ls.qm.runningReqIds.card + 1) ls

/-! ### What the allocation loop can do -/

variable {ls ls' : LoopState K E} {v q : ReqId} {args : AllocateSlotsArgs}

omit [KVCacheManager K] [EncoderCache E] in
/-- Rolling a victim back does nothing, or takes back what it was granted. -/
theorem rollback_cases (h : ls.rollback v = .ok ls') :
    (v ∉ ls.scheduledRunningReqs ∧ ls' = ls) ∨
      v ∈ ls.scheduledRunningReqs ∧ ∃ numTokens blocks,
        ls.numScheduledTokens.get? v = some numTokens ∧ ls.reqToNewBlocks.get? v = some blocks ∧
        ls' = { ls with
          scheduledRunningReqs := ls.scheduledRunningReqs.erase v
          tokenBudget := ls.tokenBudget + numTokens
          numScheduledTokens := ls.numScheduledTokens.erase v
          reqToNewBlocks := ls.reqToNewBlocks.erase v
          scheduledSpecDecodeTokens := ls.scheduledSpecDecodeTokens.erase v
          scheduledEncoderInputs := ls.scheduledEncoderInputs.erase v
          encoderComputeBudget := ls.encoderComputeBudget +
            encoderEmbeds (ls.req v) ((ls.scheduledEncoderInputs.get? v).getD [])
          reqIndex := ls.reqIndex - 1 } := by
  unfold rollback at h
  split at h
  · rename_i hv
    cases h
    exact .inl ⟨hv, rfl⟩
  · rename_i hv
    split at h
    · rename_i numTokens blocks hn hb
      cases h
      exact .inr ⟨by simpa using hv, numTokens, blocks, hn, hb, rfl⟩
    · cases h

omit [KVCacheManager K] [EncoderCache E] in
/-- A rollback leaves the scheduler's own state alone. -/
theorem rollback_sch (h : ls.rollback v = .ok ls') : ls'.sch = ls.sch := by
  rcases rollback_cases h with ⟨-, rfl⟩ | ⟨-, _, _, -, -, rfl⟩ <;> rfl

/-- A preemption that returns rolled the running victim back and moved it in the queues. -/
theorem preemptVictim_eq_ok (h : ls.preemptVictim v = .ok ls') :
    ∃ ls₁ qm', ls.rollback v = .ok ls₁ ∧ (ls.req v).status = .running ∧
      ls.qm.updateIdxsAfterPreemption = .ok qm' ∧
      ls' = { ls₁ with
        sch := { ls.sch with
          kv := KVCacheManager.free ls.sch.kv v
          enc := EncoderCache.free ls.sch.enc (ls.req v)
          objs := ls.sch.objs.modify v Scheduler.preempted
          queueManager := qm' }
        preemptedReqs := ls₁.preemptedReqs ++ [v] } := by
  obtain ⟨ls₁, hroll, h⟩ := bind_eq_ok.mp h
  obtain ⟨sch, hsch, h⟩ := bind_eq_ok.mp h
  obtain ⟨qm', hqm, h⟩ := bind_eq_ok.mp h
  have hsame := rollback_sch hroll
  rw [hsame] at hsch
  obtain ⟨hstatus, rfl⟩ := Scheduler.preemptRequest_eq_ok hsch
  cases h
  exact ⟨ls₁, qm', hroll, hstatus, hqm, rfl⟩

/-- A round of an allocation loop finds no blocks and preempts the request `v` at index `l`. -/
structure Preempts (q : ReqId) (args : AllocateSlotsArgs) (ls : LoopState K E) (l : ℕ) (v : ReqId)
    (kv : K) : Prop where
  noBlocks : KVCacheManager.allocateSlots ls.sch.kv (ls.req q) args = .ok (none, kv)
  lastRunning : ls.qm.lastRunningIdx = some l
  stands : ls.qm.combined[l]? = some v
  passes : keepsPlace (ls.req v) (ls.req q) = false

/-- The ways in which a round of an allocation loop ends. -/
inductive AllocOutcome (q : ReqId) (args : AllocateSlotsArgs) (ls : LoopState K E) :
    Pass (LoopState K E) (Option KVCacheBlocks × LoopState K E) → Prop
  | found {blocks kv} :
      KVCacheManager.allocateSlots ls.sch.kv (ls.req q) args = .ok (some blocks, kv) →
      AllocOutcome q args ls (.done (some blocks, ls.setKv kv))
  | noneRunning {kv} :
      KVCacheManager.allocateSlots ls.sch.kv (ls.req q) args = .ok (none, kv) →
      ls.qm.lastRunningIdx = none → AllocOutcome q args ls (.done (none, ls.setKv kv))
  | kept {kv l v} :
      KVCacheManager.allocateSlots ls.sch.kv (ls.req q) args = .ok (none, kv) →
      ls.qm.lastRunningIdx = some l → ls.qm.combined[l]? = some v →
      keepsPlace (ls.req v) (ls.req q) = true → AllocOutcome q args ls (.done (none, ls.setKv kv))
  | itself {kv l ls'} : Preempts q args ls l q kv → (ls.setKv kv).preemptVictim q = .ok ls' →
      AllocOutcome q args ls (.done (none, ls'))
  | other {kv l v ls'} : Preempts q args ls l v kv → v ≠ q →
      (ls.setKv kv).preemptVictim v = .ok ls' → AllocOutcome q args ls (.next ls')

/-- A round of the allocation loop has one of the outcomes. -/
theorem allocRound_outcome {p : Pass (LoopState K E) (Option KVCacheBlocks × LoopState K E)}
    (h : ls.allocRound q args = .ok p) : AllocOutcome q args ls p := by
  obtain ⟨⟨newBlocks, kv⟩, halloc, h⟩ := bind_eq_ok.mp h
  cases newBlocks with
  | some blocks =>
    cases h
    exact .found halloc
  | none =>
    dsimp only at h
    split at h
    · rename_i hlast
      cases h
      exact .noneRunning halloc hlast
    · rename_i l hlast
      split at h
      · cases h
      · rename_i v hv
        split at h
        · rename_i hkeep
          cases h
          exact .kept halloc hlast hv hkeep
        · rename_i hkeep
          have hpre : Preempts q args ls l v kv := ⟨halloc, hlast, hv, by simpa using hkeep⟩
          obtain ⟨ls', hvictim, h⟩ := bind_eq_ok.mp h
          split at h
          · rename_i hvq
            cases h
            exact .itself (hvq ▸ hpre) (hvq ▸ hvictim)
          · rename_i hvq
            cases h
            exact .other hpre hvq hvictim

/-- An allocation loop that returns leaves from a round it visits. -/
theorem allocLoop_outcome {res : Option KVCacheBlocks} (h : ls.allocLoop q args = .ok (res, ls')) :
    ∃ t, Visits (allocRound q args) ls t ∧ AllocOutcome q args t (.done (res, ls')) := by
  obtain ⟨t, ht, hexit⟩ := loop_exit h
  exact ⟨t, ht, allocRound_outcome hexit⟩

end LoopState

end RpsServe
