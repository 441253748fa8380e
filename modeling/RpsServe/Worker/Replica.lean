import RpsServe.Worker.HandsOut

/-!
# The worker's copy of the scheduler's state

A worker sees nothing of the scheduler but the outputs of its steps, in their order and maybe
long after: requests come, answers are worked in and requests are finished in between. It keeps
its own block tables and token counts from what the outputs say has changed. Whenever it is
handed the output of a step after all earlier ones, its rows show exactly what the scheduler
held at the end of that step.
-/

namespace RpsServe

open KVCacheManager (getBlocks)

/-- The outputs of the steps, each with the objects that its requests were read from. -/
abbrev StepLog := List (SchedulerOutput × (ReqId → Request))

namespace System

variable {K E : Type} [KVCacheManager K] [EncoderCache E]

/-- The runs with the outputs that their steps have handed out. -/
inductive Recorded (cfg : Config) (ok : System K E → Op → Prop) (start : System K E) :
    System K E → StepLog → Prop
  | start : Recorded cfg ok start start []
  | between {sys sys' : System K E} {log : StepLog} {op : Op} : Recorded cfg ok start sys log →
      sys.Admissible op → ok sys op → op.isSchedule = false → sys.step cfg op = .ok sys' →
      Recorded cfg ok start sys' log
  | schedule {sys : System K E} {log : StepLog} {env : StepEnv} {out : SchedulerOutput}
      {sch : Scheduler K E} : Recorded cfg ok start sys log → ok sys (.schedule env) →
      Scheduler.schedule cfg env sys.sch = .ok (out, sch) →
      Recorded cfg ok start
        { sch := sch, inFlight := sys.inFlight ++ [out], outputs := sys.outputs ++ [out] }
        (log ++ [(out, sch.req)])

variable {cfg : Config} {ok : System K E → Op → Prop} {start sys : System K E} {log : StepLog}

/-- A recorded run is a run. -/
theorem Recorded.run (h : Recorded cfg ok start sys log) : Run cfg ok start sys := by
  induction h with
  | start => exact .start
  | between _ hadm hok _ hstep ih => exact .step ih hadm hok hstep
  | @schedule sys log env out sch _ hok hschedule ih =>
    have hadm : sys.Admissible (.schedule env) := trivial
    exact .step ih hadm hok (bind_eq_ok.mpr ⟨_, hschedule, rfl⟩)

/-- What is recorded under a stronger condition is recorded under a weaker one. -/
theorem Recorded.mono {ok' : System K E → Op → Prop} (h : Recorded cfg ok start sys log)
    (hok : ∀ sys op, ok sys op → ok' sys op) : Recorded cfg ok' start sys log := by
  induction h with
  | start => exact .start
  | between _ hadm hop hs hstep ih => exact .between ih hadm (hok _ _ hop) hs hstep
  | schedule _ hop hschedule ih => exact .schedule ih (hok _ _ hop) hschedule

/-- Every run can be recorded. -/
theorem Run.recorded (h : Run cfg ok start sys) : ∃ log, Recorded cfg ok start sys log := by
  induction h with
  | start => exact ⟨[], .start⟩
  | @step sys sys' op _ hadm hok hstep ih =>
    obtain ⟨log, hlog⟩ := ih
    cases hop : op.isSchedule with
    | false => exact ⟨log, .between hlog hadm hok hop hstep⟩
    | true =>
      cases op with
      | schedule env =>
        obtain ⟨⟨out, sch⟩, hschedule, hstep⟩ := bind_eq_ok.mp hstep
        cases hstep
        exact ⟨_, .schedule hlog hok hschedule⟩
      | _ => cases hop

end System

/-! ### The worker -/

/-- The payload of a cached state. -/
def CachedRequestState.payload (st : CachedRequestState) : Payload where
  promptTokenIds := st.promptTokenIds
  mmFeatures := st.mmFeatures
  samplingParams := st.samplingParams
  loraRequest := st.loraRequest

namespace ModelRunner

/-- The worker after the outputs of the log, with tokens sampled at any time. -/
inductive Handed (threshold : Option ℤ) (maxNumReqs : ℕ) : StepLog → ModelRunner → Prop
  | init : Handed threshold maxNumReqs [] (.init maxNumReqs)
  | update {log : StepLog} {w w' : ModelRunner} {out : SchedulerOutput} {obj : ReqId → Request}
      {update : Option BatchUpdate} : Handed threshold maxNumReqs log w →
      w.updateStates threshold obj out = .ok (update, w') →
      Handed threshold maxNumReqs (log ++ [(out, obj)]) w'
  | sample {log : StepLog} {w : ModelRunner} (sampled : ReqId → List Token) :
      Handed threshold maxNumReqs log w → Handed threshold maxNumReqs log (w.appendSampled sampled)

variable {threshold : Option ℤ} {maxNumReqs : ℕ} {log : StepLog} {w w' : ModelRunner}

/-- A worker that no output was handed to. -/
theorem Handed.rule_init {I : ModelRunner → Prop} (h : Handed threshold maxNumReqs [] w)
    (hinit : I (.init maxNumReqs)) (hsample : ∀ w sampled, I w → I (w.appendSampled sampled)) :
    I w := by
  generalize hlog : ([] : StepLog) = log at h
  induction h with
  | init => exact hinit
  | update => simp at hlog
  | sample sampled _ ih => exact hsample _ sampled (ih hlog)

/-- A worker after one more output. -/
theorem Handed.rule_update {I : ModelRunner → Prop} {out : SchedulerOutput} {obj : ReqId → Request}
    (h : Handed threshold maxNumReqs (log ++ [(out, obj)]) w)
    (hupdate : ∀ w w' update, Handed threshold maxNumReqs log w →
      w.updateStates threshold obj out = .ok (update, w') → I w')
    (hsample : ∀ w sampled, I w → I (w.appendSampled sampled)) : I w := by
  generalize hlog : log ++ [(out, obj)] = log' at h
  induction h with
  | init => simp at hlog
  | @update log' w w' out' obj' update hw hupd _ =>
    obtain ⟨rfl, hlast⟩ := List.append_inj' hlog rfl
    cases hlast
    exact hupdate w w' update hw hupd
  | sample sampled _ ih => exact hsample _ sampled (ih hlog)

end ModelRunner

namespace Scheduler

variable {K E : Type} [KVCacheManager K] {cfg : Config} {s s' : Scheduler K E}
  {out : SchedulerOutput} {w w' : ModelRunner} {threshold : Option ℤ}

/-- The row of a request that a step gave `n` tokens, from the scheduler's state after the step. -/
def rowOf (s : Scheduler K E) (r : ReqId) (n : ℤ) : BatchRow where
  numPromptTokens := (s.req r).promptTokenIds.length
  numComputedTokens := (s.req r).numComputedTokens - n
  blockTable := getBlocks s.kv r
  loraId := (s.req r).loraRequest.getD 0

/-- The cached state of a request that a step has scheduled, as the scheduler left it: its data, its
blocks, its computed tokens, and no more output tokens than the scheduler counts with those in
flight. -/
structure ShowsRequest (s' : Scheduler K E) (out : SchedulerOutput) (r : ReqId)
    (st : CachedRequestState) : Prop where
  payload : st.payload = (s'.req r).payload
  blockIds : st.blockIds = getBlocks s'.kv r
  advances : Advances out s' r st.numComputedTokens
  outputs : st.outputTokenIds.length ≤
    ((s'.req r).numOutputTokens + (s'.req r).numOutputPlaceholders).toNat

/-- The worker's cached states and its batch show the scheduled requests as the scheduler left
them. -/
structure Replicates (s' : Scheduler K E) (out : SchedulerOutput) (w' : ModelRunner) : Prop where
  condensed : w'.inputBatch.WellFormed
  states : ∀ r ∈ out.numScheduledTokens.keys,
    ∃ st, w'.requests.get? r = some st ∧ ShowsRequest s' out r st
  scheduled : ∀ r, (w'.inputBatch.rowOf r).isSome ↔ r ∈ out.numScheduledTokens.keys
  rows : ∀ r n, out.numScheduledTokens.get? r = some n →
    w'.inputBatch.rowOf r = some (s'.rowOf r n)

/-- No request that waits or was preempted has blocks. -/
def Vacant (s : Scheduler K E) : Prop :=
  ∀ r, (s.req r).Resting → (getBlocks s.kv r).flatten = []

/-- What a worker knows that was handed all outputs so far. -/
structure Knows (cfg : Config) (s : Scheduler K E) (w : ModelRunner) : Prop where
  sound : w.Sound
  maxNumReqs : w.inputBatch.maxNumReqs = cfg.maxNumRunningReqs
  known : ∀ r st, w.requests.get? r = some st →
    r ∈ s.objs.keys ∧ st.loraRequest = (s.req r).loraRequest
  announced : ∀ r, (s.req r).Announced → r ∉ s.finishedReqIds ∧
    ∃ st, w.requests.get? r = some st ∧ st.payload = (s.req r).payload
  running : ∀ r st, (s.req r).status = .running → w.requests.get? r = some st →
    st.blockIds = getBlocks s.kv r

namespace Knows

/-- At the start the worker knows all requests. -/
theorem start (cfg : Config) (kv : K) (enc : E) :
    Knows cfg (Scheduler.init cfg kv enc) (.init cfg.maxNumRunningReqs) := by
  refine ⟨ModelRunner.init_sound _, rfl, fun r st hst => ?_, fun r hr => ?_, fun r st hr _ => ?_⟩
  · cases hst
  · rcases hr with hr | hr <;> cases hr
  · cases hr

/-- Sampled tokens leave the worker knowing the requests. -/
theorem sample (h : Knows cfg s w) (sampled : ReqId → List Token) :
    Knows cfg s (w.appendSampled sampled) := by
  have hget : ∀ r st, (w.appendSampled sampled).requests.get? r = some st →
      ∃ st₀, w.requests.get? r = some st₀ ∧
        ∃ tokens, st = { st₀ with outputTokenIds := tokens } := by
    intro r st hst
    rw [get?_appendSampled] at hst
    split at hst
    · obtain ⟨st₀, hst₀, rfl⟩ := Option.map_eq_some_iff.mp hst
      exact ⟨st₀, hst₀, _, rfl⟩
    · exact ⟨st, hst, _, rfl⟩
  refine ⟨h.sound.appendSampled sampled, h.maxNumReqs, fun r st hst => ?_, fun r hr => ?_,
    fun r st hr hst => ?_⟩
  · obtain ⟨st₀, hst₀, _, rfl⟩ := hget r st hst
    exact h.known r st₀ hst₀
  · obtain ⟨hfin, st, hst, hpayload⟩ := h.announced r hr
    refine ⟨hfin, ?_⟩
    rw [get?_appendSampled, hst]
    split
    · exact ⟨_, rfl, hpayload⟩
    · exact ⟨st, rfl, hpayload⟩
  · obtain ⟨st₀, hst₀, _, rfl⟩ := hget r st hst
    exact h.running r st₀ hr hst₀

/-- Between two steps. -/
theorem retains [AppendingKVCacheManager K] {blockHasher : Request → List BlockHash}
    {new : ReqId → Prop} {delayFree : ReqId → Bool} (h : Knows cfg s w) (ht : s.Tracking)
    [EncoderCache E] (hretains : Retains blockHasher new s s') (hreports : Reports cfg delayFree s s') :
    Knows cfg s' w := by
  refine ⟨h.sound, h.maxNumReqs, fun r st hst => ?_, fun r hr => ?_, fun r st hr hst => ?_⟩
  · obtain ⟨hk, hlora⟩ := h.known r st hst
    exact ⟨hretains.keys hk, hlora.trans (hretains.grows r hk).loraRequest.symm⟩
  · obtain ⟨hfin, st, hst, hpayload⟩ := h.announced r ((hretains.stays r).announced hr)
    refine ⟨fun hmem => ?_, st, hst, hpayload.trans ((hretains.stays r).payload hr).symm⟩
    rcases (hreports.reported r).mp hmem with hmem | ⟨-, hended⟩
    · exact hfin hmem
    · rcases hr with hr | hr <;> rw [Request.isFinished, hr] at hended <;> cases hended
  · rw [(hretains.kv ht).getBlocks (r := r) fun hnot => hnot hr]
    exact h.running r st ((hretains.stays r).running hr) hst

variable {J : K → Prop} {r : ReqId}

/-- The worker can apply the output of a step. -/
theorem applies (h : Knows cfg s w) (hout : HandsOut cfg J s out s') : w.Applies out := by
  have hannounced : ∀ e ∈ out.scheduledCachedReqs.items, (s.req e.reqId).Announced := by
    intro e he
    by_cases hres : e.reqId ∈ out.scheduledCachedReqs.resumedReqIds
    · exact (hout.resumed e he hres).1
    · exact .inl (hout.running e he hres).1
  refine ⟨hout.wellFormed, fun e he => ?_, fun e he hres => ?_, ?_⟩
  · obtain ⟨hfin, st, hst, -⟩ := h.announced e.reqId (hannounced e he)
    rw [hout.finishedReqIds, hst]
    exact ⟨hfin, rfl⟩
  · rw [(hout.resumed e he hres).2]
    rfl
  · rw [h.maxNumReqs]
    exact hout.room

/-- The cached state of a scheduled request after the output. -/
theorem showsRequest (h : Knows cfg s w) (hout : HandsOut cfg J s out s')
    (happlied : ModelRunner.Applied s'.req out w w') (hr : r ∈ out.numScheduledTokens.keys) :
    ∃ st, w'.requests.get? r = some st ∧ ShowsRequest s' out r st := by
  have hlora : ∀ st, w.requests.get? r = some st →
      st.loraRequest = (s'.req r).loraRequest := fun st hst =>
    (h.known r st hst).2.trans (congrArg Payload.loraRequest (hout.payload r)).symm
  rcases (hout.wellFormed.complete r).mp hr with hr | hr
  · obtain ⟨d, hd, rfl⟩ := List.mem_map.mp hr
    obtain ⟨st, hst, hdesc⟩ := happlied.fresh d hd
    obtain ⟨hblocks, hadvances⟩ := hout.new d hd
    refine ⟨st, hst, ?_, hdesc.blockIds.trans hblocks, hdesc.numComputedTokens ▸ hadvances, ?_⟩
    swap
    · rw [hdesc.outputTokenIds]
      exact Nat.zero_le _
    have hadapter : st.loraRequest = (s'.req d.reqId).loraRequest := by
      rw [hdesc.loraRequest]
      split
      · rfl
      · cases hold : w.requests.get? d.reqId with
        | none => rfl
        | some st₀ => exact hlora st₀ hold
    rw [CachedRequestState.payload, hdesc.promptTokenIds, hdesc.mmFeatures, hdesc.samplingParams,
      hadapter]
    rfl
  · obtain ⟨e, he, rfl⟩ := List.mem_map.mp hr
    have hannounced : (s.req e.reqId).Announced := by
      by_cases hres : e.reqId ∈ out.scheduledCachedReqs.resumedReqIds
      · exact (hout.resumed e he hres).1
      · exact .inl (hout.running e he hres).1
    obtain ⟨-, st, hst, hpayload⟩ := h.announced e.reqId hannounced
    have htake : (st.outputTokenIds.take e.numOutputTokens.toNat).length ≤
        ((s'.req e.reqId).numOutputTokens + (s'.req e.reqId).numOutputPlaceholders).toNat :=
      (List.length_take_le _ _).trans (Int.toNat_le_toNat (hout.outputs e he))
    refine ⟨_, happlied.cached e he st hst, hpayload.trans (hout.payload e.reqId).symm, ?_,
      hout.progress e he, htake⟩
    by_cases hres : e.reqId ∈ out.scheduledCachedReqs.resumedReqIds
    · rw [ModelRunner.afterEntry, if_pos hres, (hout.resumed e he hres).2, Option.getD_some]
    · obtain ⟨hrun, hblocks, -⟩ := hout.running e he hres
      rw [ModelRunner.afterEntry, if_neg hres, hblocks, h.running e.reqId st hrun hst]

/-- A step that hands its output to the worker. -/
theorem step (h : Knows cfg s w) (hout : HandsOut cfg J s out s')
    (happlied : ModelRunner.Applied s'.req out w w') : Knows cfg s' w' := by
  have hold : ∀ r ∉ out.numScheduledTokens.keys, ∀ st, w'.requests.get? r = some st →
      w.requests.get? r = some st := by
    intro r hr st hst
    rw [happlied.others r hr] at hst
    split at hst
    · cases hst
    · exact hst
  refine ⟨happlied.sound, happlied.maxNumReqs.trans h.maxNumReqs, fun r st hst => ?_,
    fun r hr => ?_, fun r st hr hst => ?_⟩
  · by_cases hkey : r ∈ out.numScheduledTokens.keys
    · obtain ⟨st', hst', hshow⟩ := h.showsRequest hout happlied hkey
      rw [hst'] at hst
      cases hst
      refine ⟨?_, congrArg Payload.loraRequest hshow.payload⟩
      by_contra hno
      have hrun := hout.scheduled r hkey
      rw [req, Objs.req_of_notMem hno] at hrun
      cases hrun
    · obtain ⟨hk, hlora⟩ := h.known r st (hold r hkey st hst)
      exact ⟨hout.keys ▸ hk, hlora.trans (congrArg Payload.loraRequest (hout.payload r)).symm⟩
  · refine ⟨hout.noneFinished ▸ Finset.notMem_empty r, ?_⟩
    by_cases hkey : r ∈ out.numScheduledTokens.keys
    · obtain ⟨st, hst, hshow⟩ := h.showsRequest hout happlied hkey
      exact ⟨st, hst, hshow.payload⟩
    · have hannounced : (s.req r).Announced := by
        rcases hr with hr | hr
        · exact .inl (hout.unscheduled r hkey hr).1
        · exact (hout.preempted r hr).1
      obtain ⟨hfin, st, hst, hpayload⟩ := h.announced r hannounced
      refine ⟨st, ?_, hpayload.trans (hout.payload r).symm⟩
      rw [happlied.others r hkey, hout.finishedReqIds, if_neg hfin, hst]
  · by_cases hkey : r ∈ out.numScheduledTokens.keys
    · obtain ⟨st', hst', hshow⟩ := h.showsRequest hout happlied hkey
      rw [hst'] at hst
      cases hst
      exact hshow.blockIds
    · obtain ⟨hrun, hblocks⟩ := hout.unscheduled r hkey hr
      rw [hblocks]
      exact h.running r st hrun (hold r hkey st hst)

/-- The rows of the batch. -/
theorem replicates (h : Knows cfg s w) (hout : HandsOut cfg J s out s')
    (happlied : ModelRunner.Applied s'.req out w w') : Replicates s' out w' := by
  refine ⟨happlied.sound.batch, fun r hr => h.showsRequest hout happlied hr, happlied.scheduled,
    fun r n hn => ?_⟩
  have hkey := Dict.mem_keys_of_get? hn
  obtain ⟨row, hrow⟩ := Option.isSome_iff_exists.mp ((happlied.scheduled r).mpr hkey)
  obtain ⟨st, hst, rfl⟩ := happlied.sound.rows r row hrow
  obtain ⟨st', hst', hshow⟩ := h.showsRequest hout happlied hkey
  rw [hst'] at hst
  cases hst
  have hprompt : st.promptTokenIds = (s'.req r).promptTokenIds :=
    congrArg Payload.promptTokenIds hshow.payload
  have hlora : st.loraRequest = (s'.req r).loraRequest :=
    congrArg Payload.loraRequest hshow.payload
  rw [hrow, CachedRequestState.row, Scheduler.rowOf, hshow.blockIds, hshow.advances n hn,
    add_sub_cancel_right, hprompt, hlora]

end Knows

/-- What the state of the scheduler keeps for its workers. -/
structure Held (J : (ReqId → List BlockHash) → K → Prop) (F : Request → Prop)
    (s : Scheduler K E) : Prop where
  kv : J s.hashes s.kv
  tracking : s.Tracking
  rewound : ∀ r, (s.req r).Rewound
  requests : ∀ r ∈ s.objs.keys, F (s.req r) ∧ (s.req r).loraRequest ≠ some 0

namespace Held

variable {J : (ReqId → List BlockHash) → K → Prop} {F : Request → Prop}

/-- At the start nothing is held. -/
theorem start {kv : K} (hkv : J (fun _ => []) kv) (enc : E) :
    Held J F (Scheduler.init cfg kv enc) :=
  ⟨hkv, fun _ h => (nomatch h), fun _ h => (nomatch h), fun _ hr => absurd hr List.not_mem_nil⟩

/-- The hashes of a request are listed once. -/
theorem hashes_nodup (hF : ∀ q, F q → q.blockHashes.Nodup) (h : Held J F s) (r : ReqId) :
    (s.hashes r).Nodup := by
  by_cases hr : r ∈ s.objs.keys
  · exact hF _ (h.requests r hr).1
  · rw [hashes, req, Objs.req_of_notMem hr]
    exact List.nodup_nil

/-- No request names the adapter zero. -/
theorem adapters (h : Held J F s) (r : ReqId) : (s.req r).loraRequest ≠ some 0 := by
  by_cases hr : r ∈ s.objs.keys
  · exact (h.requests r hr).2
  · rw [req, Objs.req_of_notMem hr]
    intro hlora
    cases hlora

/-- What retains the requests keeps them held. -/
theorem retains {new : ReqId → Prop} (hrules : KVRules cfg J)
    (hF : ∀ q, F q → q.blockHashes.Nodup) (hgrow : Request.GrowRule cfg.blockHasher F)
    [EncoderCache E] (h : Held J F s) (hretains : Retains cfg.blockHasher new s s')
    (hnew : ∀ r ∉ s.objs.keys, r ∈ s'.objs.keys →
      F (s'.req r) ∧ (s'.req r).loraRequest ≠ some 0) : Held J F s' := by
  have hrequests : ∀ r ∈ s'.objs.keys, F (s'.req r) ∧ (s'.req r).loraRequest ≠ some 0 := by
    intro r hr'
    by_cases hr : r ∈ s.objs.keys
    · obtain ⟨hq, hlora⟩ := h.requests r hr
      have hgrows := hretains.grows r hr
      exact ⟨hgrows.keeps hgrow hq, hgrows.loraRequest ▸ hlora⟩
    · exact hnew r hr hr'
  have hnodup : ∀ r, (s'.hashes r).Nodup := by
    intro r
    by_cases hr : r ∈ s'.objs.keys
    · exact hF _ (hrequests r hr).1
    · rw [hashes, req, Objs.req_of_notMem hr]
      exact List.nodup_nil
  exact ⟨(hrules.rule hnodup).released (hretains.kv h.tracking)
      (hrules.mono (hashes_extend hretains.grows) h.kv), hretains.tracking h.tracking,
    fun r => (hretains.stays r).rewound (h.rewound r), hrequests⟩

/-- A step keeps the requests held. -/
theorem step (hgrow : Request.GrowRule cfg.blockHasher F) (h : Held J F s)
    (hout : HandsOut cfg (J s.hashes) s out s') : Held J F s' := by
  have hhashes : s'.hashes = s.hashes :=
    funext fun r => congrArg Content.blockHashes (hout.content r)
  refine ⟨hhashes ▸ hout.kv, hout.tracking, fun r hr => (hout.preempted r hr).2, fun r hr => ?_⟩
  obtain ⟨hq, hlora⟩ := h.requests r (hout.keys ▸ hr)
  refine ⟨hgrow.same hq (hout.content r) (hout.plain r), ?_⟩
  have hsame : (s'.req r).loraRequest = (s.req r).loraRequest :=
    congrArg Payload.loraRequest (hout.payload r)
  rwa [hsame]

end Held

end Scheduler

namespace System

open Scheduler ModelRunner

variable {K E : Type} [KVCacheManager K] [AppendingKVCacheManager K] [EncoderCache E]
  {cfg : Config} {J : (ReqId → List BlockHash) → K → Prop} {F : Request → Prop} {kv : K} {enc : E}
  {sys : System K E} {log : StepLog} {threshold : Option ℤ}

/-- An operation without a KV connector that keeps the order of the queues. A request that comes in
has the property `F`, and its adapter an id of at least one. -/
structure Serviced (cfg : Config) (F : Request → Prop) (sys : System K E) (op : Op) : Prop where
  order : KeepsOrder cfg sys op
  unconnected : Unconnected op
  adapter : ∀ request delayFree, op = .addRequest request delayFree →
    request.loraRequest ≠ some 0
  enters : ∀ request delayFree, op = .addRequest request delayFree → ∀ q : Request,
    q.content = (request.create cfg.blockHasher).content →
    (request.resumable = false → q.Plain) → F q

/-- What the requests have, and the KV cache manager, in a deployment without a KV connector. -/
structure Deployment (cfg : Config) (J : (ReqId → List BlockHash) → K → Prop) (F : Request → Prop) :
    Prop where
  rules : KVRules cfg J
  grow : Request.GrowRule cfg.blockHasher F
  nodup : ∀ q, F q → q.blockHashes.Nodup
  connector : cfg.connector = false

namespace Deployment

variable (hd : Deployment cfg J F)

include hd

/-- A step of a run. -/
theorem handsOut (h : Run cfg (Serviced cfg F) (init cfg kv enc) sys) (hheld : Held J F sys.sch)
    {env : StepEnv} (hok : Serviced cfg F sys (.schedule env)) {out : SchedulerOutput}
    {s' : Scheduler K E} (hschedule : schedule cfg env sys.sch = .ok (out, s')) :
    HandsOut cfg (J sys.sch.hashes) sys.sch out s' :=
  schedule_handsOut (hd.rules.rule (hheld.hashes_nodup hd.nodup)) hd.connector hheld.kv
    hheld.tracking (named_of_run h) hheld.rewound (coherent_of_run (h.mono fun _ _ h => h.order)) hok.order
    hschedule

/-- An operation between two steps. -/
theorem held_between (h : Run cfg (Serviced cfg F) (init cfg kv enc) sys)
    (hheld : Held J F sys.sch) {op : Op} {sys' : System K E} (hadm : sys.Admissible op)
    (hok : Serviced cfg F sys op) (hop : op.isSchedule = false)
    (hstep : sys.step cfg op = .ok sys') : Held J F sys'.sch := by
  have hretains := step_retains hd.connector (named_of_run h) hadm hop hok.unconnected hstep
  refine hheld.retains hd.rules hd.nodup hd.grow hretains fun r hr hr' => ?_
  have harrives := (hretains.fresh r hr').resolve_left hr
  cases op with
  | addRequest request delayFree =>
    subst harrives
    obtain ⟨hcontent, hplain⟩ := step_entered (named_of_run h) hr hstep
    refine ⟨hok.enters request delayFree rfl _ hcontent hplain, ?_⟩
    have hlora : (sys'.sch.req request.requestId).loraRequest = request.loraRequest :=
      congrArg Content.loraRequest hcontent
    exact hlora ▸ hok.adapter request delayFree rfl
  | _ => exact harrives.elim

/-- In every run. -/
theorem held (hkv : J (fun _ => []) kv) (h : Run cfg (Serviced cfg F) (init cfg kv enc) sys) :
    Held J F sys.sch := by
  induction h with
  | start => exact .start hkv enc
  | @step sys sys' op hrun hadm hok hstep ih =>
    cases hop : op.isSchedule with
    | false => exact hd.held_between hrun ih hadm hok hop hstep
    | true =>
      cases op with
      | schedule env =>
        obtain ⟨⟨out, sch⟩, hschedule, hstep⟩ := bind_eq_ok.mp hstep
        cases hstep
        exact ih.step hd.grow (hd.handsOut hrun ih hok hschedule)
      | _ => cases hop

/-- In every run without streaming sessions no request that waits or was preempted has blocks. -/
theorem vacant (hempty : ∀ r, (getBlocks kv r).flatten = []) (hkv : J (fun _ => []) kv)
    (hplain : ∀ q, F q → q.Plain) (h : Run cfg (Serviced cfg F) (init cfg kv enc) sys) :
    sys.sch.Vacant := by
  induction h with
  | start => exact fun r _ => hempty r
  | @step sys sys' op hrun hadm hok hstep ih =>
    have hheld := hd.held hkv hrun
    cases hop : op.isSchedule with
    | false =>
      have hretains := step_retains hd.connector (named_of_run hrun) hadm hop hok.unconnected hstep
      have hkept : ∀ r, (sys.sch.req r).Resting → (getBlocks sys'.sch.kv r).flatten = [] :=
        fun r hr => (hretains.kv hheld.tracking).flatten_eq_nil (ih r hr)
      rintro r (hr | hr)
      · by_cases hk : r ∈ sys.sch.objs.keys
        · exact hkept r (.inl (hretains.waiting r hk (hplain _ (hheld.requests r hk).1) hr))
        · refine hkept r (.inl ?_)
          rw [Scheduler.req, Objs.req_of_notMem hk]
          rfl
      · rcases hretains.preempted hheld.tracking r hr with hr | ⟨kv₁, hfreed⟩
        · exact hkept r (.inr hr)
        · exact hfreed.flatten_eq_nil (ReleasingKVCacheManager.getBlocks_free_self kv₁ r)
    | true =>
      cases op with
      | schedule env =>
        obtain ⟨⟨out, sch⟩, hschedule, hstep⟩ := bind_eq_ok.mp hstep
        cases hstep
        intro r hr
        rcases (hd.handsOut hrun hheld hok hschedule).resting r hr with ⟨hr, hsame⟩ | hnone
        · exact (congrArg List.flatten hsame).trans (ih r hr)
        · exact hnone
      | _ => cases hop

/-- Every worker that was handed all outputs knows the scheduler's state. -/
theorem knows (hkv : J (fun _ => []) kv)
    (h : Recorded cfg (Serviced cfg F) (init cfg kv enc) sys log) :
    ∀ w, Handed threshold cfg.maxNumRunningReqs log w → Knows cfg sys.sch w := by
  induction h with
  | start => exact fun w hw => hw.rule_init (.start cfg kv enc) fun _ sampled hI => hI.sample sampled
  | @between sys sys' log op hlog hadm hok hop hstep ih =>
    have hcoherent := coherent_of_run (hlog.run.mono fun _ _ h => h.order)
    have hretains := step_retains hd.connector (named_of_run hlog.run) hadm hop hok.unconnected hstep
    have ht := (hd.held hkv hlog.run).tracking
    exact fun w hw => (ih w hw).retains ht hretains (step_reports hcoherent hadm hop hstep)
  | @schedule sys log env out sch hlog hok hschedule ih =>
    have hheld := hd.held hkv hlog.run
    have hout := hd.handsOut hlog.run hheld hok hschedule
    have hadapters := (hheld.step hd.grow hout).adapters
    refine fun w hw => hw.rule_update (fun w w' update hw hupdate => ?_) fun _ sampled hI =>
      hI.sample sampled
    have hw := ih w hw
    obtain ⟨update', w'', hrun, happlied⟩ := updateStates_ok threshold hadapters
      hw.sound (hw.applies hout)
    rw [hrun] at hupdate
    cases hupdate
    exact hw.step hout happlied

/-- A worker that was handed all earlier outputs takes the next one without an error, and its batch
shows what the scheduler holds after that step. -/
theorem replicates (hkv : J (fun _ => []) kv)
    (h : Recorded cfg (Serviced cfg F) (init cfg kv enc) sys log) {env : StepEnv}
    (hok : Serviced cfg F sys (.schedule env)) {out : SchedulerOutput} {s' : Scheduler K E}
    (hschedule : Scheduler.schedule cfg env sys.sch = .ok (out, s')) {w : ModelRunner}
    (hw : Handed threshold cfg.maxNumRunningReqs log w) :
    ∃ update w', w.updateStates threshold s'.req out = .ok (update, w') ∧
      Replicates s' out w' := by
  have hheld := hd.held hkv h.run
  have hw := hd.knows hkv h w hw
  have hout := hd.handsOut h.run hheld hok hschedule
  obtain ⟨update, w', hrun, happlied⟩ := updateStates_ok threshold
    (hheld.step hd.grow hout).adapters hw.sound (hw.applies hout)
  exact ⟨update, w', hrun, hw.replicates hout happlied⟩

/-- A worker that is handed every output can go on. -/
theorem exists_handed (hkv : J (fun _ => []) kv)
    (h : Recorded cfg (Serviced cfg F) (init cfg kv enc) sys log) :
    ∃ w, Handed threshold cfg.maxNumRunningReqs log w := by
  induction h with
  | start => exact ⟨_, .init⟩
  | between _ _ _ _ _ ih => exact ih
  | schedule hlog hok hschedule ih =>
    obtain ⟨w, hw⟩ := ih
    obtain ⟨update, w', hupdate, -⟩ := hd.replicates hkv hlog hok hschedule hw
    exact ⟨w', hw.update hupdate⟩

end Deployment

end System

end RpsServe
