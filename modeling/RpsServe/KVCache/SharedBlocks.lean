import RpsServe.KVCache.BlockHasher
import RpsServe.KVCache.Labels
import RpsServe.Worker.Replica
import Mathlib.Data.Nat.Pairing
import Mathlib.Logic.Equiv.List

/-!
# Blocks in a whole run

The scheduler with the KV cache manager of a model with full attention, over whole runs without a
KV connector: every block is free or counted with its holders, the workers' block tables are the
manager's, and requests only share full blocks that hold the same tokens for both.
-/

namespace RpsServe

namespace BlockHashing

variable {hashing : BlockHashing} {blockSize : ℕ} {N : Set ReqId} {q q' : Request}

/-- The block hashes of a request are a chain. The requests with an id in `N` are no streaming
sessions, and the chain is that of their tokens. -/
structure Hashed (hashing : BlockHashing) (blockSize : ℕ) (N : Set ReqId) (q : Request) : Prop where
  chain : ∃ xs, q.blockHashes = hashing.chain xs ∧
    (q.requestId ∈ N → hashing.Describes blockSize q xs)
  plain : q.requestId ∈ N → q.Plain

namespace Hashed

/-- Without collisions the hashes of a request are distinct. -/
theorem nodup (hc : hashing.CollisionFree) (h : Hashed hashing blockSize N q) :
    q.blockHashes.Nodup := by
  obtain ⟨xs, hxs, -⟩ := h.chain
  rw [hxs]
  exact hc.nodup xs

/-- The next full blocks are hashed. -/
theorem update (q₁ : Request) (xs : List BlockContent) (hxs : q₁.blockHashes = hashing.chain xs)
    (hdescribes : q₁.requestId ∈ N → hashing.Describes blockSize q₁ xs)
    (hq' : q'.content =
      (q₁.updateBlockHashes (hashing.getRequestBlockHasher blockSize)).content)
    (hplain : q'.requestId ∈ N → q'.Plain) : Hashed hashing blockSize N q' := by
  obtain ⟨ys, hys, hmore⟩ := updateBlockHashes_chain blockSize hxs
  refine ⟨⟨xs ++ ys, (congrArg Content.blockHashes hq').trans hys, fun hN => ?_⟩, hplain⟩
  have hid : q'.requestId = q₁.requestId := congrArg Content.requestId hq'
  have htokens : q'.allTokenIds = q₁.allTokenIds := congrArg Content.allTokenIds hq'
  exact (hmore (hdescribes (hid ▸ hN))).append (htokens ▸ List.prefix_refl _)
    (congrArg Content.loraRequest hq')

/-- The hashes of a new request. -/
theorem create {request : Request}
    (hq : q.content =
      (request.create (hashing.getRequestBlockHasher blockSize)).content)
    (hplain : q.requestId ∈ N → q.Plain) : Hashed hashing blockSize N q :=
  update _ [] rfl (fun _ _ _ hx => nomatch hx) hq hplain

/-- The hashes of a request grow with it. -/
theorem growRule : Request.GrowRule (hashing.getRequestBlockHasher blockSize)
    (Hashed hashing blockSize N) where
  same {q q'} h hc hp := by
    have hid : q'.requestId = q.requestId := congrArg Content.requestId hc
    have htokens : q'.allTokenIds = q.allTokenIds := congrArg Content.allTokenIds hc
    obtain ⟨xs, hxs, hdescribes⟩ := h.chain
    refine ⟨⟨xs, (congrArg Content.blockHashes hc).trans hxs, fun hN => ?_⟩, fun hN =>
      hp (h.plain (hid ▸ hN))⟩
    exact (hdescribes (hid ▸ hN)).append (htokens ▸ List.prefix_refl _)
      (congrArg Content.loraRequest hc)
  append {q q'} token h hc hp := by
    obtain ⟨xs, hxs, hdescribes⟩ := h.chain
    have hid : q'.requestId = q.requestId := congrArg Content.requestId hc
    refine update { q with
      outputTokenIds := q.outputTokenIds ++ [token]
      allTokenIds := q.allTokenIds ++ [token] } xs hxs (fun hN => ?_) hc fun hN =>
        hp (h.plain (hid ▸ hN))
    exact (hdescribes hN).append (List.prefix_append _ _) rfl
  session {q q'} chunk h hsession hc := by
    have hid : q'.requestId = q.requestId := congrArg Content.requestId hc
    have hnot : q.requestId ∉ N := fun hN => hsession (h.plain hN)
    obtain ⟨xs, hxs, -⟩ := h.chain
    exact update { q with
      outputTokenIds := []
      mmFeatures := _
      allTokenIds := _
      promptTokenIds := _ } xs hxs (fun hN => absurd hN hnot) hc fun hN => absurd (hid ▸ hN) hnot

end Hashed

end BlockHashing

/-! ### Shared blocks -/

namespace FullAttentionKV

variable {cfg : Config} {enableCaching : Bool} {m : FullAttentionKV} {H : ReqId → List BlockHash}
  {r x : ReqId} {i j : ℕ} {b : BlockId}

/-- The holder of a block that others hold too has its hash at its position. -/
theorem Labelled.hash_of_shared (h : Labelled H m) (hx : x ≠ r)
    (hb : (m.reqBlocks x)[i]? = some b) (hb' : b ∈ m.reqBlocks r) :
    ∃ v, (m.blockPool.block b).blockHash = some v ∧ (H x)[i]? = some v := by
  refine (h x i b hb).resolve_left fun ⟨_, hone⟩ => ?_
  have hle := count_add_count_le (m := m) (b := b) hx
  have hpos := List.count_pos_iff.mpr (List.mem_of_getElem? hb)
  have hpos' := List.count_pos_iff.mpr hb'
  omega

/-- A block without a hash is held by one request at most. -/
theorem Labelled.holders_le_one (h : Labelled H m)
    (hb : (m.blockPool.block b).blockHash = none) : m.holders b ≤ 1 := by
  by_contra hmany
  obtain ⟨r, hr⟩ := exists_holder (m := m) (b := b) (by omega)
  obtain ⟨i, hi⟩ := List.mem_iff_getElem?.mp hr
  rcases h r i b hi with ⟨-, hone⟩ | ⟨v, hv, -⟩
  · omega
  · rw [hb] at hv
    cases hv

/-- Requests that hold one block have one hash for it. -/
theorem Labelled.shared (h : Labelled H m) (hx : x ≠ r) (hb : (m.reqBlocks x)[i]? = some b)
    (hb' : (m.reqBlocks r)[j]? = some b) : ∃ v, (H x)[i]? = some v ∧ (H r)[j]? = some v := by
  obtain ⟨v, hv, hi⟩ := h.hash_of_shared hx hb (List.mem_of_getElem? hb')
  obtain ⟨v', hv', hj⟩ := h.hash_of_shared (Ne.symm hx) hb' (List.mem_of_getElem? hb)
  cases hv.symm.trans hv'
  exact ⟨v, hi, hj⟩

/-- The manager before its first request is counted and labelled. -/
theorem init_labelled : Kept cfg enableCaching (.init cfg enableCaching) ∧
    Labelled (fun _ => []) (.init cfg enableCaching) :=
  ⟨init_kept, fun _ _ _ hb => absurd hb (by simp [reqBlocks, FullAttentionKV.init])⟩

end FullAttentionKV

namespace System

open Scheduler FullAttentionKV

variable {E : Type} [EncoderCache E] {cfg : Config} {hashing : BlockHashing} {N : Set ReqId}
  {enableCaching : Bool} {enc : E} {sys : System FullAttentionKV E} {log : StepLog}

/-- An operation of a run that keeps the order of the queues (`KeepsOrder`: no step preempts a request
that its walk has gone past already, which it never does where no two live requests tie, by
`orderly_of_untied`) and has no KV connector (`Unconnected`: no answer of the model runner carries
connector output). Adapters have ids from 1 on, and the requests that come in with an id in `N` are
no streaming sessions. -/
structure Served (cfg : Config) (N : Set ReqId) (sys : System FullAttentionKV E) (op : Op) :
    Prop where
  order : KeepsOrder cfg sys op
  unconnected : Unconnected op
  adapter : ∀ request delayFree, op = .addRequest request delayFree →
    request.loraRequest ≠ some 0
  plain : ∀ request delayFree, op = .addRequest request delayFree → request.requestId ∈ N →
    request.resumable = false

/-- Two requests have the same first `n` tokens, and the same adapter. -/
structure SameUpTo (hashing : BlockHashing) (n : ℕ) (q q' : Request) : Prop where
  left : n ≤ q.numTokens
  right : n ≤ q'.numTokens
  tokens : q.allTokenIds.take n = q'.allTokenIds.take n
  adapter : q.loraRequest.map hashing.loraName = q'.loraRequest.map hashing.loraName

/-- A model with full attention, served without a KV connector, whose blocks are hashed without
collisions. -/
structure FullAttentionModel (hashing : BlockHashing) (cfg : Config) : Prop where
  blockSize : 0 < cfg.blockSize
  maxModelLen : 0 < cfg.maxModelLen
  blockHasher : cfg.blockHasher = hashing.getRequestBlockHasher cfg.blockSize
  collisionFree : hashing.CollisionFree
  connector : cfg.connector = false

namespace FullAttentionModel

variable (hm : FullAttentionModel hashing cfg)

include hm

/-- The blocks stay counted and labelled, and the hashes of the requests chains. -/
theorem deployment (enableCaching : Bool) (N : Set ReqId) :
    Deployment cfg (fun H (m : FullAttentionKV) => Kept cfg enableCaching m ∧ Labelled H m)
      (BlockHashing.Hashed hashing cfg.blockSize N) where
  rules := kvRules hm.blockSize hm.maxModelLen
  grow := hm.blockHasher ▸ BlockHashing.Hashed.growRule
  nodup _ hq := hq.nodup hm.collisionFree
  connector := hm.connector

/-- A served operation is one that the deployment can serve. -/
theorem serviced {op : Op} (h : Served cfg N sys op) :
    Serviced cfg (BlockHashing.Hashed hashing cfg.blockSize N) sys op where
  order := h.order
  unconnected := h.unconnected
  adapter := h.adapter
  enters request delayFree hop q hq hplain := by
    rw [hm.blockHasher] at hq
    have hid : q.requestId = request.requestId := congrArg Content.requestId hq
    exact .create hq fun hN => hplain (h.plain request delayFree hop (hid ▸ hN))

/-- What every run keeps. -/
theorem held (h : Run cfg (Served cfg N) (init cfg (.init cfg enableCaching) enc) sys) :
    Held (fun H (m : FullAttentionKV) => Kept cfg enableCaching m ∧ Labelled H m)
      (BlockHashing.Hashed hashing cfg.blockSize N) sys.sch :=
  (hm.deployment enableCaching N).held init_labelled
    (h.mono fun _ _ => hm.serviced)

/-- In every state of a served run the pool counts the holders of every block, the blocks without one
are free, and a block without a hash has one holder at most. -/
theorem kept_of_run (h : Run cfg (Served cfg N) (init cfg (.init cfg enableCaching) enc) sys) :
    Kept cfg enableCaching sys.sch.kv ∧
      ∀ b, (sys.sch.kv.blockPool.block b).blockHash = none → sys.sch.kv.holders b ≤ 1 :=
  ⟨(hm.held h).kv.1, fun _ hb => (hm.held h).kv.2.holders_le_one hb⟩

/-- In every state of a run, the hashes of a request are a chain, and if it is no streaming session the
chain describes its tokens. -/
theorem chain_of_hash (h : Run cfg (Served cfg N) (init cfg (.init cfg enableCaching) enc) sys)
    {r : ReqId} {i : ℕ} {v : BlockHash} (hv : (sys.sch.hashes r)[i]? = some v) :
    ∃ xs, (hashing.chain xs)[i]? = some v ∧
      (r ∈ N → hashing.Describes cfg.blockSize (sys.sch.req r) xs) := by
  have hr : r ∈ sys.sch.objs.keys := by
    by_contra hno
    rw [hashes, Scheduler.req, Objs.req_of_notMem hno] at hv
    cases hv
  obtain ⟨xs, hxs, hdescribes⟩ := ((hm.held h).requests r hr).1.chain
  rw [(named_of_run h).ids r hr] at hdescribes
  exact ⟨xs, hxs ▸ hv, hdescribes⟩

/-- In every state of a run, requests that share a block have it at the same
position; if they are no streaming sessions, they have the same adapter and the same tokens up to
the end of the block. -/
theorem sharedAlike (h : Run cfg (Served cfg N) (init cfg (.init cfg enableCaching) enc) sys)
    {r x : ReqId} {i j : ℕ} {b : BlockId} (hx : x ≠ r)
    (hb : (sys.sch.kv.reqBlocks x)[i]? = some b) (hb' : (sys.sch.kv.reqBlocks r)[j]? = some b) :
    i = j ∧ (x ∈ N → r ∈ N → SameUpTo hashing ((i + 1) * cfg.blockSize) (sys.sch.req x)
      (sys.sch.req r)) := by
  obtain ⟨v, hv, hv'⟩ := (hm.held h).kv.2.shared hx hb hb'
  obtain ⟨xs, hxs, hdescribes⟩ := hm.chain_of_hash h hv
  obtain ⟨ys, hys, hdescribes'⟩ := hm.chain_of_hash h hv'
  refine ⟨(hm.collisionFree.take_eq hxs hys).1, fun hN hN' => ?_⟩
  obtain ⟨hroom, hroom', htokens, hadapter⟩ :=
    (hdescribes hN).agree hm.collisionFree hxs hys (hdescribes' hN')
  exact ⟨hroom, hroom', htokens, hadapter⟩

/-- A worker that was handed all earlier outputs takes the next one without an error, and its batch
shows the blocks and the progress that the scheduler holds after that step. -/
theorem worker_replicates {threshold : Option ℤ}
    (h : Recorded cfg (Served cfg N) (init cfg (.init cfg enableCaching) enc) sys log)
    {env : StepEnv} (hok : Served cfg N sys (.schedule env)) {out : SchedulerOutput}
    {s' : Scheduler FullAttentionKV E}
    (hschedule : Scheduler.schedule cfg env sys.sch = .ok (out, s')) {w : ModelRunner}
    (hw : ModelRunner.Handed threshold cfg.maxNumRunningReqs log w) :
    ∃ update w', w.updateStates threshold s'.req out = .ok (update, w') ∧
      Replicates s' out w' :=
  (hm.deployment enableCaching N).replicates init_labelled (h.mono fun _ _ => hm.serviced)
    (hm.serviced hok) hschedule hw

/-- A worker can be handed all outputs so far. -/
theorem exists_handed {threshold : Option ℤ}
    (h : Recorded cfg (Served cfg N) (init cfg (.init cfg enableCaching) enc) sys log) :
    ∃ w, ModelRunner.Handed threshold cfg.maxNumRunningReqs log w :=
  (hm.deployment enableCaching N).exists_handed init_labelled
    (h.mono fun _ _ => hm.serviced)

end FullAttentionModel

/-! ### Two requests with one prompt -/

/-- An operation without sessions, adapters and KV connectors. -/
def PlainOp : Op → Prop
  | .addRequest request _ => request.loraRequest = none ∧ request.resumable = false
  | .updateFromOutput _ mro => mro.kvConnectorOutput.isNone
  | _ => True

instance : DecidablePred PlainOp
  | .addRequest _ _ => inferInstanceAs (Decidable (_ ∧ _))
  | .updateFromOutput _ mro => inferInstanceAs (Decidable (mro.kvConnectorOutput.isNone = true))
  | .schedule _ | .finishRequests _ _ _ | .setPauseState _ | .resetPrefixCache _
  | .updateDraftTokenIds _ _ => .isTrue trivial

omit [EncoderCache E] in
/-- A plain operation that keeps the order of the queues is served. -/
theorem served_of_plainOp [EncoderCache E] {op : Op} (horder : KeepsOrder cfg sys op)
    (hplain : PlainOp op) : Served cfg N sys op := by
  cases op with
  | addRequest request delayFree =>
    refine ⟨horder, trivial, ?_, ?_⟩ <;> rintro _ _ ⟨⟩
    · rw [hplain.1]
      exact fun hnone => nomatch hnone
    · exact fun _ => hplain.2
  | updateFromOutput i mro =>
    exact ⟨horder, Option.isNone_iff_eq_none.mp hplain, fun _ _ h => (nomatch h),
      fun _ _ h => (nomatch h)⟩
  | _ => exact ⟨horder, trivial, fun _ _ h => (nomatch h), fun _ _ h => (nomatch h)⟩

/-- A run of such operations without ties. -/
theorem served_of_noTies {kv : FullAttentionKV}
    (h : Run cfg (fun sys op => NoTies cfg sys op ∧ PlainOp op) (init cfg kv enc) sys) :
    Run cfg (Served cfg N) (init cfg kv enc) sys := by
  induction h with
  | start => exact .start
  | @step sys _ op hrun hadm hok hs ih =>
    refine .step ih hadm (served_of_plainOp ?_ hok.2) hs
    cases op with
    | schedule env =>
      exact orderly_of_untied (coherent_of_run (ih.mono fun _ _ h => h.order)) hok.1
    | _ => trivial

end System

/-- A key as a number. -/
def ExtraKey.code : ExtraKey → ℕ
  | lora loraName => Nat.pair 0 (Encodable.encode (loraName.toList.map Char.toNat))
  | mm identifier offset => Nat.pair 1 (Nat.pair identifier (Encodable.encode offset))

/-- The code of an extra key determines it. -/
theorem ExtraKey.code_injective : Function.Injective ExtraKey.code := by
  intro k k' h
  cases k <;> cases k' <;>
    simp only [code, Nat.pair_eq_pair, zero_ne_one, one_ne_zero, false_and, true_and] at h
  · have hchars := List.map_injective_iff.mpr (fun c c' hc => Char.toNat_inj.mp hc)
      (Encodable.encode_injective h)
    rw [String.toList_inj.mp hchars]
  · rw [h.1, Encodable.encode_injective h.2]

/-- Hashes that code the contents of the blocks. -/
def codeHashing : BlockHashing where
  noneHash := 0
  cachingHashFn x := Nat.pair x.1 (Nat.pair (Encodable.encode x.2.1)
    (Encodable.encode (x.2.2.map fun keys => keys.map ExtraKey.code))) + 1
  loraName _ := "adapter"

/-- Coding everything is a hashing without collisions. -/
theorem codeHashing_collisionFree : codeHashing.CollisionFree where
  injective {a b x y} h := by
    have hpair := Nat.pair_eq_pair.mp (Nat.succ.inj h)
    obtain ⟨htokens, hkeys⟩ := Nat.pair_eq_pair.mp hpair.2
    have hmap := Option.map_injective (List.map_injective_iff.mpr ExtraKey.code_injective)
    exact ⟨hpair.1, Prod.ext (Encodable.encode_injective htokens)
      (hmap (Encodable.encode_injective hkeys))⟩
  fresh _ _ := Nat.succ_ne_zero _

namespace System

open Scheduler FullAttentionKV

/-- Blocks of one token. -/
def oneTokenBlocks : Config where
  maxNumRunningReqs := 2
  maxNumScheduledTokens := 8
  maxModelLen := 32
  blockSize := 1
  numBlocks := 8
  blockHasher := codeHashing.getRequestBlockHasher 1

/-- The configuration with blocks of one token is a model with full attention. -/
theorem oneTokenBlocks_model : FullAttentionModel codeHashing oneTokenBlocks :=
  ⟨by decide, by decide, rfl, codeHashing_collisionFree, rfl⟩

/-- A request comes when another with its prompt runs. -/
def promptTwice : List Op :=
  [.addRequest (shortRequestAt 1 1) fun _ => false, .schedule {},
    .addRequest (shortRequestAt 2 2) fun _ => false]

/-- After the next step the requests share three blocks. -/
theorem promptTwice_shares : ∃ sys : System FullAttentionKV EncoderCacheManager,
    Run oneTokenBlocks (Served oneTokenBlocks Set.univ) (decoderOnly oneTokenBlocks true 0) sys ∧
      (sys.sch.kv.reqBlocks 1)[2]? = some 3 ∧ (sys.sch.kv.reqBlocks 2)[2]? = some 3 := by
  have hlegal : Legal oneTokenBlocks (fun sys op => NoTies oneTokenBlocks sys op ∧ PlainOp op)
      (decoderOnly oneTokenBlocks true 0) (promptTwice ++ [.schedule {}]) := by
    decide +kernel
  obtain ⟨sys, hrun, hblocks⟩ := Reaches.exists_run (promptTwice ++ [.schedule {}])
    (P := fun sys => (sys.sch.kv.reqBlocks 1)[2]? = some 3 ∧
      (sys.sch.kv.reqBlocks 2)[2]? = some 3) (by decide +kernel) hlegal
  exact ⟨sys, served_of_noTies hrun, hblocks⟩

/-- While the two requests share blocks, those without a hash have one holder at most. -/
theorem kept_of_promptTwice : ∃ sys : System FullAttentionKV EncoderCacheManager,
    (sys.sch.kv.reqBlocks 1)[2]? = some 3 ∧ Kept oneTokenBlocks true sys.sch.kv ∧
      ∀ b, (sys.sch.kv.blockPool.block b).blockHash = none → sys.sch.kv.holders b ≤ 1 := by
  obtain ⟨sys, hrun, hblock, -⟩ := promptTwice_shares
  exact ⟨sys, hblock, oneTokenBlocks_model.kept_of_run hrun⟩

/-- The two requests share the third block and have the same three tokens. -/
theorem promptTwice_sharedAlike : ∃ sys : System FullAttentionKV EncoderCacheManager,
    (sys.sch.kv.reqBlocks 1)[2]? = some 3 ∧ (sys.sch.kv.reqBlocks 2)[2]? = some 3 ∧
      SameUpTo codeHashing 3 (sys.sch.req 1) (sys.sch.req 2) := by
  obtain ⟨sys, hrun, hb, hb'⟩ := promptTwice_shares
  obtain ⟨-, hsame⟩ := oneTokenBlocks_model.sharedAlike hrun (by decide) hb hb'
  exact ⟨sys, hb, hb', hsame trivial trivial⟩

/-- The worker takes the step that schedules the second request. -/
theorem worker_replicates_promptTwice : ∃ (sys : System FullAttentionKV EncoderCacheManager)
    (out : SchedulerOutput) (s' : Scheduler FullAttentionKV EncoderCacheManager)
    (w : ModelRunner), Scheduler.schedule oneTokenBlocks {} sys.sch = .ok (out, s') ∧
      out.scheduledIds = [2] ∧ ∃ update w', w.updateStates none s'.req out = .ok (update, w') ∧
        Replicates s' out w' := by
  have hlegal : Legal oneTokenBlocks (fun sys op => NoTies oneTokenBlocks sys op ∧ PlainOp op)
      (decoderOnly oneTokenBlocks true 0) promptTwice := by
    decide +kernel
  obtain ⟨sys, hrun, hstep, huntied⟩ := Reaches.exists_run promptTwice
    (P := fun sys => (AfterStep oneTokenBlocks sys fun out _ => out.scheduledIds = [2]) ∧
      NoTies oneTokenBlocks sys (.schedule {})) (by decide +kernel) hlegal
  obtain ⟨out, s', hok, hids⟩ := hstep.exists_ok
  have hserved : Run oneTokenBlocks (Served oneTokenBlocks Set.univ) _ sys := served_of_noTies hrun
  obtain ⟨log, hlog⟩ := hserved.recorded
  obtain ⟨w, hw⟩ : ∃ w, ModelRunner.Handed none oneTokenBlocks.maxNumRunningReqs log w :=
    oneTokenBlocks_model.exists_handed hlog
  have horder : KeepsOrder oneTokenBlocks sys (.schedule {}) :=
    orderly_of_untied (coherent_of_run (hserved.mono fun _ _ h => h.order)) huntied
  exact ⟨sys, out, s', w, hok, hids,
    oneTokenBlocks_model.worker_replicates hlog (served_of_plainOp horder trivial) hok hw⟩

end System

end RpsServe
