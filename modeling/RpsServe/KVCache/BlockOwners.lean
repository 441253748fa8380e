import RpsServe.KVCache.SharedBlocks

/-!
# Who owns the blocks after a step

The blocks that a step sends to the worker for a request are owned by that request when the step
returns, requests share nothing but full cached blocks, and a request that waits or was preempted
owns none. This holds in every run whose steps preempt no request that their walk has gone past.
-/

namespace RpsServe

namespace FullAttentionKV

variable {cfg : Config} {enableCaching : Bool} {m : FullAttentionKV} {r : ReqId} {b : BlockId}

/-- The requests that own a block. -/
def owners (m : FullAttentionKV) (b : BlockId) : Finset ReqId := m.reqToBlocks.keysWith (b ∈ ·)

/-- A request owns the blocks of its table. -/
theorem mem_owners : r ∈ m.owners b ↔ b ∈ m.reqBlocks r := by
  rw [owners, Dict.mem_keysWith, reqBlocks]
  cases m.reqToBlocks.get? r with
  | none => simp
  | some ids => simp

/-- No request has a block twice, so the holders of a block are its owners. -/
theorem Kept.holders_eq (h : Kept cfg enableCaching m) (b : BlockId) :
    m.holders b = (m.owners b).card := by
  refine Dict.total_eq_card fun r ids hids => ?_
  have hr : m.reqBlocks r = ids := by rw [reqBlocks, hids, Option.getD_some]
  have hnodup : ids.Nodup := hr ▸ h.nodup r
  rw [hnodup.count]
  simp

/-- A block that more than one request may own: it is cached, full for every owner, and the pool
counts its owners. -/
structure Shareable (blockSize : ℕ) (req : ReqId → Request) (m : FullAttentionKV) (b : BlockId) :
    Prop where
  cached : ∃ hash, b ∈ m.blockPool.cachedIds hash
  full : ∀ r i, (m.reqBlocks r)[i]? = some b → (i + 1) * blockSize ≤ (req r).numTokens
  counted : (m.blockPool.block b).refCnt = (m.owners b).card

end FullAttentionKV

open FullAttentionKV

namespace Scheduler

/-- Which request owns which blocks after the step from `s` to `s'`: those sent to the worker for a
request are its own, a block with two owners is cached and full, and a request that waits or was
preempted has none, those that the step preempts being freed once each and no other. -/
structure BlocksOwned {E : Type} (cfg : Config) (s : Scheduler FullAttentionKV E)
    (out : SchedulerOutput) (s' : Scheduler FullAttentionKV E) : Prop where
  new : ∀ d ∈ out.scheduledNewReqs, ∀ b ∈ d.blockIds.flatten, b ∈ s'.kv.reqBlocks d.reqId
  cached : ∀ e ∈ out.scheduledCachedReqs.items, ∀ b ∈ (e.newBlockIds.getD []).flatten,
    b ∈ s'.kv.reqBlocks e.reqId
  shared : ∀ b r x, x ≠ r → b ∈ s'.kv.reqBlocks x → b ∈ s'.kv.reqBlocks r →
    Shareable cfg.blockSize s'.req s'.kv b
  vacant : ∀ r, (s'.req r).Resting → s'.kv.reqBlocks r = []
  freed : ∃ freed, StepCalls s.kv freed s'.kv ∧ freed.Nodup ∧
    ∀ r, r ∈ freed ↔ (s.req r).status = .running ∧ (s'.req r).status = .preempted

end Scheduler

namespace System

open Scheduler

variable {E : Type} [EncoderCache E] {cfg : Config} {hashing : BlockHashing} {N : Set ReqId}
  {enableCaching : Bool} {enc : E} {sys : System FullAttentionKV E}

namespace FullAttentionModel

variable (hm : FullAttentionModel hashing cfg)

include hm

/-- In every state of a run without streaming sessions a block with two owners is cached and full. -/
theorem shareable (h : Run cfg (Served cfg Set.univ) (init cfg (.init cfg enableCaching) enc) sys)
    {b : BlockId} {r x : ReqId} (hx : x ≠ r) (hbx : b ∈ sys.sch.kv.reqBlocks x)
    (hbr : b ∈ sys.sch.kv.reqBlocks r) : Shareable cfg.blockSize sys.sch.req sys.sch.kv b := by
  obtain ⟨hkept, hlabelled⟩ := (hm.held h).kv
  have hall : ∀ (y : ReqId) (i : ℕ), (sys.sch.kv.reqBlocks y)[i]? = some b →
      ∃ v : BlockHash, (sys.sch.kv.blockPool.block b).blockHash = some v ∧
        (sys.sch.hashes y)[i]? = some v := by
    intro y i hy
    by_cases hyr : y = r
    · exact hlabelled.hash_of_shared (hyr ▸ Ne.symm hx) hy hbx
    · exact hlabelled.hash_of_shared hyr hy hbr
  obtain ⟨j, hj⟩ := List.mem_iff_getElem?.mp hbr
  obtain ⟨v, hv, -⟩ := hall r j hj
  refine ⟨⟨v, (hkept.pool.blockHash b v).mp hv⟩, fun y i hy => ?_, ?_⟩
  · obtain ⟨w, -, hw⟩ := hall y i hy
    obtain ⟨xs, hxs, hdescribes⟩ := hm.chain_of_hash h hw
    obtain ⟨hi, -⟩ := HashChain.getElem?_hashes_eq_some.mp hxs
    exact (hdescribes trivial i xs[i] (List.getElem?_eq_getElem hi)).1
  · obtain ⟨hreal, hlt⟩ := hkept.real r b hbr
    rw [hkept.pool.refCnt b hreal hlt, hkept.holders_eq]

/-- In every run without streaming sessions whose steps preempt no request that their walk has gone
past, the blocks have their owners when a further such step returns. -/
theorem blocksOwned (h : Run cfg (Served cfg Set.univ) (init cfg (.init cfg enableCaching) enc) sys)
    {env : StepEnv} (hok : Served cfg Set.univ sys (.schedule env)) {out : SchedulerOutput}
    {s' : Scheduler FullAttentionKV E} (hschedule : schedule cfg env sys.sch = .ok (out, s')) :
    BlocksOwned cfg sys.sch out s' := by
  have hd := hm.deployment enableCaching Set.univ
  have hserviced := h.mono fun _ _ => hm.serviced
  have hadm : sys.Admissible (.schedule env) := trivial
  have hnext := h.step hadm hok (bind_eq_ok.mpr ⟨_, hschedule, rfl⟩)
  have hout := hd.handsOut hserviced (hm.held h) (hm.serviced hok) hschedule
  have hvacant := hd.vacant (fun _ => rfl) init_labelled (fun q hq => hq.plain trivial)
    (hnext.mono fun _ _ => hm.serviced)
  have hflat : ∀ r, (KVCacheManager.getBlocks s'.kv r).flatten = s'.kv.reqBlocks r := fun r =>
    List.append_nil _
  exact {
    new := fun d hd b hb => by
      rw [(hout.new d hd).1, hflat] at hb
      exact hb
    cached := fun e he b hb => by
      by_cases hres : e.reqId ∈ out.scheduledCachedReqs.resumedReqIds
      · rw [(hout.resumed e he hres).2, Option.getD_some, hflat] at hb
        exact hb
      · rw [← hflat]
        exact (hout.running e he hres).2.2 hb
    shared := fun b r x hx hbx hbr => hm.shareable hnext hx hbx hbr
    vacant := fun r hr => (hflat r).symm.trans (hvacant r hr)
    freed := hout.freed }

end FullAttentionModel

/-! ### Preempted requests and shared blocks -/

/-- Three requests run in blocks of one token. -/
def threeInOneTokenBlocks : Config := { oneTokenBlocks with maxNumRunningReqs := 3 }

/-- The configuration for three requests is a model with full attention. -/
theorem threeInOneTokenBlocks_model : FullAttentionModel codeHashing threeInOneTokenBlocks :=
  ⟨by decide, by decide, rfl, codeHashing_collisionFree, rfl⟩

/-- Three requests with one prompt run, one after the other, until all blocks but one are given. -/
def promptThrice : List Op :=
  [.addRequest (shortRequestAt 1 1) fun _ => false, .schedule {},
    .addRequest (shortRequestAt 2 2) fun _ => false,
    .addRequest (shortRequestAt 3 3) fun _ => false, .schedule {},
    .updateFromOutput 0 { sampledTokenIds := fun _ => [5] },
    .updateFromOutput 0 { sampledTokenIds := fun _ => [5] }]

/-- The next step preempts the last of the three, the others share the blocks of the prompt. -/
theorem blocksOwned_promptThrice : ∃ (sys : System FullAttentionKV EncoderCacheManager)
    (out : SchedulerOutput) (s' : Scheduler FullAttentionKV EncoderCacheManager),
    schedule threeInOneTokenBlocks {} sys.sch = .ok (out, s') ∧ out.preemptedReqIds = {3} ∧
      3 ∈ s'.kv.reqBlocks 1 ∧ 3 ∈ s'.kv.reqBlocks 2 ∧ s'.kv.reqBlocks 3 = [] ∧
      BlocksOwned threeInOneTokenBlocks sys.sch out s' := by
  have hlegal : Legal threeInOneTokenBlocks
      (fun sys op => NoTies threeInOneTokenBlocks sys op ∧ PlainOp op)
      (decoderOnly threeInOneTokenBlocks true 0) promptThrice := by
    decide +kernel
  obtain ⟨sys, hrun, hstep, huntied⟩ := Reaches.exists_run promptThrice
    (P := fun sys => (AfterStep threeInOneTokenBlocks sys fun out s' => out.preemptedReqIds = {3} ∧
      3 ∈ s'.kv.reqBlocks 1 ∧ 3 ∈ s'.kv.reqBlocks 2 ∧ s'.kv.reqBlocks 3 = []) ∧
      NoTies threeInOneTokenBlocks sys (.schedule {})) (by decide +kernel) hlegal
  obtain ⟨out, s', hschedule, hpreempted, hfirst, hsecond, hthird⟩ := hstep.exists_ok
  have hserved : Run threeInOneTokenBlocks (Served threeInOneTokenBlocks Set.univ) _ sys :=
    served_of_noTies hrun
  have horder : KeepsOrder threeInOneTokenBlocks sys (.schedule {}) :=
    orderly_of_untied (coherent_of_run (hserved.mono fun _ _ h => h.order)) huntied
  exact ⟨sys, out, s', hschedule, hpreempted, hfirst, hsecond, hthird,
    threeInOneTokenBlocks_model.blocksOwned hserved (served_of_plainOp horder trivial) hschedule⟩

/-- Of two requests that come at one time the first is sent a block and then loses it to the
second. -/
theorem tie_sends_lost_block : ∃ (sys : System FullAttentionKV EncoderCacheManager)
    (out : SchedulerOutput) (s' : Scheduler FullAttentionKV EncoderCacheManager),
    Run twoBlocks (fun _ op => PlainOp op) (decoderOnly twoBlocks false 0) sys ∧
      schedule twoBlocks {} sys.sch = .ok (out, s') ∧
      (∃ d ∈ out.scheduledNewReqs, d.reqId = 2 ∧ 2 ∈ d.blockIds.flatten) ∧
      s'.kv.reqBlocks 2 = [] ∧ 2 ∈ s'.kv.reqBlocks 3 ∧
      ¬ BlocksOwned twoBlocks sys.sch out s' := by
  have hlegal : Legal twoBlocks (fun _ op => PlainOp op) (decoderOnly twoBlocks false 0)
      comeTogether := by decide +kernel
  obtain ⟨sys, hrun, hstep⟩ := Reaches.exists_run comeTogether
    (P := fun sys => AfterStep twoBlocks sys fun out s' =>
      (∃ d ∈ out.scheduledNewReqs, d.reqId = 2 ∧ 2 ∈ d.blockIds.flatten) ∧
        s'.kv.reqBlocks 2 = [] ∧ 2 ∈ s'.kv.reqBlocks 3) (by decide +kernel) hlegal
  obtain ⟨out, s', hschedule, hsent, hnone, hthird⟩ := hstep.exists_ok
  refine ⟨sys, out, s', hrun, hschedule, hsent, hnone, hthird, fun h => ?_⟩
  obtain ⟨d, hd, hid, hb⟩ := hsent
  have howned := h.new d hd 2 hb
  rw [hid, hnone] at howned
  exact absurd howned List.not_mem_nil

end System

end RpsServe
