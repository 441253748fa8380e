import RpsServe.KVCache.Holders
import RpsServe.Scheduler.Schedule

/-!
# The rejection of oversize prompts

A waiting request is given up when its prompt is longer than all the blocks together. The
allocator has one block less, since the null block is never given out. So a prompt that needs
the last block passes the test and never gets its slots; away from that boundary the test is
exact, and a request that passes it is prefilled to its end in any sequence of chunks.
-/

namespace RpsServe.FullAttentionKV

open BlockPool (nullBlock)

/-! ### Prefilling a request that is alone -/

/-- The computed prefix of a waiting request without a KV connector. -/
def computedPrefix (m : FullAttentionKV) (q : Request) : CachedPrefix where
  newComputedBlocks := (m.getComputedBlocks q).1
  numNewLocalComputedTokens := (m.getComputedBlocks q).2
  numExternalComputedTokens := 0
  loadKvAsync := false
  numComputedTokens := (m.getComputedBlocks q).2

/-- The grant of a chunk. -/
def chunk (numNewTokens : ℕ) : Grant where
  numNewTokens := numNewTokens
  newEncoderComputeBudget := 0

/-- The later chunks of a request, one in each step, in which it is running. -/
def prefillRunning (cfg : Config) :
    List ℕ → Request → FullAttentionKV → Except SchedError (Option FullAttentionKV)
  | [], _, m => .ok (some m)
  | c :: cs, q, m => do
    let (blocks, m) ← m.allocateSlots q (LoopState.runningArgs cfg (chunk c))
    if blocks.isNone then .ok none
    else prefillRunning cfg cs { q with numComputedTokens := q.numComputedTokens + c } m

/-- The chunks of a waiting request; it is admitted with the first, behind its computed prefix. -/
def prefill (cfg : Config) :
    List ℕ → Request → FullAttentionKV → Except SchedError (Option FullAttentionKV)
  | [], _, _ => .ok none
  | c :: cs, q, m => do
    let p := m.computedPrefix q
    let (blocks, m) ← m.allocateSlots q (LoopState.waitingArgs cfg q p (chunk c))
    if blocks.isNone then .ok none
    else prefillRunning cfg cs { q with numComputedTokens := p.numComputedTokens + c } m

/-- Every token of the request has a slot. -/
def Covers (m : FullAttentionKV) (q : Request) : Prop :=
  q.numTokens ≤ (m.reqBlocks q.requestId).length * m.blockSize

/-- The chunks are given slots for every token of the request. -/
def Prefilled (cfg : Config) (m : FullAttentionKV) (q : Request) (chunks : List ℕ) : Prop :=
  ∃ m', prefill cfg chunks q m = .ok (some m') ∧ m'.Covers q

/-- The whole sequence of a waiting request, which is its prompt when it is new, is given slots
in one step. -/
def GivenSlots (cfg : Config) (m : FullAttentionKV) (q : Request) : Prop :=
  Prefilled cfg m q [(q.numTokens - (m.computedPrefix q).numComputedTokens).toNat]

/-- The test of the prompt rejects what cannot be given slots, and what passes it is prefilled to
the end in any sequence of chunks. -/
structure ExactRejection (cfg : Config) (m : FullAttentionKV) (q : Request) : Prop where
  rejected : oversizePrompt cfg q = true ↔ ¬ GivenSlots cfg m q
  prefilled : oversizePrompt cfg q = false → ∀ chunks : List ℕ, (∀ c ∈ chunks, 0 < c) →
    (m.computedPrefix q).numComputedTokens + chunks.sum = q.numTokens → Prefilled cfg m q chunks

variable {cfg : Config} {enableCaching : Bool} {m m' : FullAttentionKV} {q : Request}

/-! ### Rounding up to blocks -/

/-- Blocks for `k` tokens, rounded up. -/
theorem numRequiredBlocks_le_iff (hbs : 0 < m.blockSize) (k j : ℤ) :
    m.numRequiredBlocks k ≤ j ↔ k ≤ j * m.blockSize := by
  have hpos : (0 : ℤ) < m.blockSize := by exact_mod_cast hbs
  unfold numRequiredBlocks
  rw [← Int.lt_add_one_iff, Int.ediv_lt_iff_lt_mul hpos, add_mul]
  omega

/-- Rounded up to blocks, a number of tokens is not less. -/
theorem le_ceil_mul (k : ℕ) {b : ℕ} (hb : 0 < b) : k ≤ (k + b - 1) / b * b := by
  have hlt := Nat.lt_div_mul_add (a := k + b - 1) hb
  omega

/-! ### The blocks of a request that is alone -/

/-- Every block but the null block is free or held by the only request. -/
theorem Kept.free_add_held (h : Kept cfg enableCaching m) {r : ReqId}
    (halone : ∀ x, x ≠ r → m.reqToBlocks.get? x = none) :
    m.blockPool.getNumFreeBlocks + (m.reqBlocks r).length = cfg.numBlocks - 1 := by
  have hholders : ∀ b, m.holders b = (m.reqBlocks r).count b := by
    intro b
    have herase := total_erase_count (m := m) (r := r) b
    have hnone : (m.reqToBlocks.erase r).entries = [] := by
      refine List.eq_nil_iff_forall_not_mem.mpr fun e he => ?_
      have hget := Dict.get?_of_mem_entries he
      rw [Dict.get?_erase] at hget
      split at hget
      · cases hget
      · rename_i hne
        rw [halone e.1 (Ne.symm hne)] at hget
        cases hget
    have hzero : (m.reqToBlocks.erase r).total (List.count b) = 0 := by
      simp [Dict.total, Dict.values, hnone]
    omega
  have hdisj : ∀ b ∈ m.blockPool.freeBlockQueue, b ∉ m.reqBlocks r := by
    intro b hb hmem
    have hzero := ((h.pool.mem_free b).mp hb).2.2
    rw [hholders] at hzero
    exact List.count_eq_zero.mp hzero hmem
  have hnodup : (m.blockPool.freeBlockQueue ++ m.reqBlocks r).Nodup :=
    List.nodup_append.mpr ⟨h.pool.free_nodup, h.nodup r, fun x hx y hy hxy =>
      hdisj x hx (hxy ▸ hy)⟩
  have hset : (m.blockPool.freeBlockQueue ++ m.reqBlocks r).toFinset =
      (Finset.range cfg.numBlocks).erase nullBlock := by
    ext b
    rw [List.mem_toFinset, List.mem_append, Finset.mem_erase, Finset.mem_range]
    constructor
    · rintro (hb | hb)
      · obtain ⟨hnull, hlt, -⟩ := (h.pool.mem_free b).mp hb
        exact ⟨hnull, hlt⟩
      · exact h.real r b hb
    · rintro ⟨hnull, hlt⟩
      by_cases hb : b ∈ m.reqBlocks r
      · exact .inr hb
      · refine .inl ((h.pool.mem_free b).mpr ⟨hnull, hlt, ?_⟩)
        rw [hholders, List.count_eq_zero.mpr hb]
  have hcard := List.toFinset_card_of_nodup hnodup
  rw [hset, List.length_append] at hcard
  rw [BlockPool.getNumFreeBlocks, ← hcard]
  rcases Nat.eq_zero_or_pos cfg.numBlocks with hzero | hpos
  · rw [hzero]
    rfl
  · have hnull : nullBlock ∈ Finset.range cfg.numBlocks := Finset.mem_range.mpr hpos
    rw [Finset.card_erase_of_mem hnull, Finset.card_range]

/-- The computed blocks of a request that has none yet become its blocks. -/
theorem allocateNewComputedBlocks_ok {r : ReqId} {ids : List BlockId} {numLocal : ℤ}
    (hne : ids ≠ []) (ha : m.allocateNewComputedBlocks r ids numLocal 0 = .ok m') :
    m.numCachedBlock.get? r = none ∧ m.reqBlocks r = [] ∧ m'.reqBlocks r = ids ∧
      ∀ x, x ≠ r → m'.reqToBlocks.get? x = m.reqToBlocks.get? x := by
  unfold allocateNewComputedBlocks at ha
  split at ha
  · cases ha
  · rename_i hnone
    split at ha
    · cases ha
    · rename_i hempty
      split at ha
      · cases ha
      · rw [if_neg (lt_irrefl 0)] at ha
        cases ha
        refine ⟨Option.not_isSome_iff_eq_none.mp hnone, not_not.mp hempty, ?_,
          fun x hx => Dict.get?_set_ne _ _ (Ne.symm hx)⟩
        simp [reqBlocks]

/-- The blocks of a request that is alone after slots were allocated for it. -/
theorem allocateSlots_grows (h : Kept cfg enableCaching m) {args : AllocateSlotsArgs}
    {blocks : KVCacheBlocks} (halone : ∀ x, x ≠ q.requestId → m.reqToBlocks.get? x = none)
    (hhits : m.InCache (hitBlocks args)) (hext : args.numExternalComputedTokens = 0)
    (ha : m.allocateSlots q args = .ok (some blocks, m')) :
    (∀ x, x ≠ q.requestId → m'.reqToBlocks.get? x = none) ∧
      ((m'.reqBlocks q.requestId).length : ℤ) =
        max (((m.reqBlocks q.requestId).length + (hitBlocks args).length : ℕ) : ℤ)
          (m.numRequiredBlocks (m.slotTokens q args)) := by
  obtain ⟨hnone, -, -⟩ | ⟨m₁, new, m₂, -, h₁, h₂, h₃, -⟩ := allocateSlots_cases hext ha
  · cases hnone
  · obtain ⟨hkept₁, hothers₁, hlength₁⟩ : Kept cfg enableCaching m₁ ∧
        (∀ x, x ≠ q.requestId → m₁.reqToBlocks.get? x = none) ∧
        (m₁.reqBlocks q.requestId).length =
          (m.reqBlocks q.requestId).length + (hitBlocks args).length := by
      rcases h₁ with ⟨hnil, rfl⟩ | ⟨hne, h₁⟩
      · exact ⟨h, halone, by rw [hnil]; rfl⟩
      · obtain ⟨-, hempty, hids, hothers⟩ := allocateNewComputedBlocks_ok hne h₁
        refine ⟨allocateNewComputedBlocks_kept h hhits h₁,
          fun x hx => (hothers x hx).trans (halone x hx), ?_⟩
        rw [hids, hempty, List.length_nil, Nat.zero_add]
    obtain ⟨new', m₂', hnew, hkept₂, hlength₂, hknown, hothers₂⟩ := allocateNewBlocks_spec hkept₁
      (m.slotTokens q args) (numFree_of_allocateNewBlocks h₂)
    obtain ⟨rfl, rfl⟩ := Prod.mk.inj (Except.ok.inj (h₂.symm.trans hnew))
    have hsize : m₁.numRequiredBlocks = m.numRequiredBlocks := by
      unfold numRequiredBlocks
      rw [hkept₁.blockSize, h.blockSize]
    have hsame : m'.reqToBlocks = m₂.reqToBlocks := by
      rcases h₃ with ⟨-, rfl⟩ | h₃
      · rfl
      · obtain ⟨m₃, hcache, -, hreqs⟩ := cacheBlocks_spec _ hkept₂ hknown
          (hashes_of_cacheBlocks hkept₂ h₃)
        cases h₃.symm.trans hcache
        exact hreqs
    refine ⟨fun x hx => ?_, ?_⟩
    · rw [hsame, hothers₂ x hx, hothers₁ x hx]
    · rw [reqBlocks, hsame, ← reqBlocks, hlength₂, hlength₁, hsize]

/-- Whether the free blocks suffice depends on the blocks of the pool alone: the computed blocks
of the request, which nobody else holds, are counted as free ones. -/
theorem getNumBlocksToAllocate_le (h : Kept cfg enableCaching m) {ids : List BlockId} {k : ℤ}
    (halone : ∀ x, x ≠ q.requestId → m.reqToBlocks.get? x = none)
    (hfirst : ids ≠ [] → m.numCachedBlock.get? q.requestId = none ∧ m.reqBlocks q.requestId = [])
    (hids : (ids.length : ℤ) ≤ (cfg.numBlocks - 1 : ℕ))
    (hk : m.numRequiredBlocks k ≤ (cfg.numBlocks - 1 : ℕ)) :
    ∃ v, m.getNumBlocksToAllocate q.requestId k ids = .ok v ∧
      v ≤ m.blockPool.getNumFreeBlocks := by
  have hfree := h.free_add_held halone
  unfold getNumBlocksToAllocate
  dsimp only
  by_cases hknown : (m.numCachedBlock.get? q.requestId).isSome = true
  · have hnil : ids = [] := by
      by_contra hne
      rw [(hfirst hne).1] at hknown
      exact Bool.false_ne_true hknown
    rw [if_pos hknown, if_neg (not_not_intro hnil)]
    refine ⟨_, rfl, ?_⟩
    omega
  · rw [if_neg hknown]
    refine ⟨_, rfl, ?_⟩
    have hcount := List.countP_le_length
      (p := fun b => decide ((m.blockPool.block b).refCnt = 0 ∧ b ≠ nullBlock)) (l := ids)
    by_cases hnil : ids = []
    · rw [hnil, List.countP_nil, List.length_nil]
      omega
    · have hempty := congrArg List.length (hfirst hnil).2
      rw [List.length_nil] at hempty
      omega

/-- A request that is alone is given slots as far as the pool has blocks. -/
theorem allocateSlots_succeeds (h : Kept cfg enableCaching m) (hbs : 0 < m.blockSize)
    {args : AllocateSlotsArgs}
    (halone : ∀ x, x ≠ q.requestId → m.reqToBlocks.get? x = none)
    (hhits : m.InCache (hitBlocks args)) (hext : args.numExternalComputedTokens = 0)
    (hnew : args.numNewTokens ≠ 0)
    (hfirst : hitBlocks args ≠ [] → m.numCachedBlock.get? q.requestId = none ∧
      m.reqBlocks q.requestId = [] ∧ enableCaching = true)
    (hids : ((hitBlocks args).length : ℤ) ≤ (cfg.numBlocks - 1 : ℕ))
    (hfull : m.numRequiredBlocks (min q.numTokens m.maxModelLen) ≤ (cfg.numBlocks - 1 : ℕ))
    (hslots : m.numRequiredBlocks (m.slotTokens q args) ≤ (cfg.numBlocks - 1 : ℕ))
    (hhashes : enableCaching = true →
      ((q.numTokens : ℤ) / m.blockSize).toNat ≤ q.blockHashes.length) :
    ∃ blocks m', m.allocateSlots q args = .ok (some blocks, m') := by
  have hfit : m.fits q args (hitBlocks args) (m.slotTokens q args) = .ok true := by
    obtain ⟨full, hfull, hle⟩ := getNumBlocksToAllocate_le h halone
      (fun hne => ⟨(hfirst hne).1, (hfirst hne).2.1⟩) hids hfull
    obtain ⟨num, hnum, hle'⟩ := getNumBlocksToAllocate_le h halone
      (fun hne => ⟨(hfirst hne).1, (hfirst hne).2.1⟩) hids hslots
    unfold fits
    cases hmust : args.fullSequenceMustFit with
    | true =>
      refine bind_eq_ok.mpr ⟨full, hfull, ?_⟩
      refine (if_neg (by omega)).trans ?_
      exact bind_eq_ok.mpr ⟨num, hnum, congrArg Except.ok (decide_eq_true hle')⟩
    | false =>
      refine bind_eq_ok.mpr ⟨0, rfl, ?_⟩
      refine (if_neg (by omega)).trans ?_
      exact bind_eq_ok.mpr ⟨num, hnum, congrArg Except.ok (decide_eq_true hle')⟩
  obtain ⟨m₁, h₁, hkept₁, hothers₁, hheld₁⟩ : ∃ m₁,
      (if hitBlocks args ≠ [] ∨ 0 < args.numExternalComputedTokens then
        m.allocateNewComputedBlocks q.requestId (hitBlocks args)
          (q.numComputedTokens + args.numNewComputedTokens) args.numExternalComputedTokens
      else .ok m) = .ok m₁ ∧ Kept cfg enableCaching m₁ ∧
      (∀ x, x ≠ q.requestId → m₁.reqToBlocks.get? x = none) ∧
      ((m₁.reqBlocks q.requestId).length : ℤ) ≤ (cfg.numBlocks - 1 : ℕ) := by
    have hfree := h.free_add_held halone
    by_cases hnil : hitBlocks args = []
    · rw [if_neg fun hor => hor.elim (fun hne => hne hnil) (by omega)]
      exact ⟨m, rfl, h, halone, by omega⟩
    · obtain ⟨hnone, hempty, hcaching⟩ := hfirst hnil
      rw [if_pos (.inl hnil), hext]
      obtain ⟨m₁, h₁⟩ : ∃ m₁, m.allocateNewComputedBlocks q.requestId (hitBlocks args)
          (q.numComputedTokens + args.numNewComputedTokens) 0 = .ok m₁ := by
        unfold allocateNewComputedBlocks
        rw [if_neg (by rw [hnone]; exact Bool.false_ne_true), if_neg (not_not_intro hempty),
          if_neg fun hoff => hoff.1 (h.enabled.trans hcaching), if_neg (lt_irrefl 0)]
        exact ⟨_, rfl⟩
      obtain ⟨-, -, hlength, hothers⟩ := allocateNewComputedBlocks_ok hnil h₁
      refine ⟨m₁, h₁, allocateNewComputedBlocks_kept h hhits h₁,
        fun x hx => (hothers x hx).trans (halone x hx), ?_⟩
      rw [hlength]
      exact hids
  have hfree₁ := hkept₁.free_add_held hothers₁
  have hsize : m₁.numRequiredBlocks = m.numRequiredBlocks := by
    unfold numRequiredBlocks
    rw [hkept₁.blockSize, h.blockSize]
  obtain ⟨new, m₂, h₂, hkept₂, -, hknown, -⟩ := allocateNewBlocks_spec (r := q.requestId) hkept₁
    (m.slotTokens q args) (by rw [hsize]; omega)
  obtain ⟨m₃, h₃⟩ : ∃ m₃, (if args.delayCacheBlocks then .ok m₂
      else m₂.cacheBlocks q (min (m.mainTokens q args) q.numTokens)) = .ok m₃ := by
    split
    · exact ⟨m₂, rfl⟩
    · obtain ⟨m₃, h₃, -⟩ := cacheBlocks_spec (q := q)
        (min (m.mainTokens q args) q.numTokens) hkept₂ hknown fun hcaching _ => by
          refine le_trans (Int.toNat_le_toNat ?_) (hhashes hcaching)
          rw [hkept₂.blockSize, ← h.blockSize]
          exact Int.ediv_le_ediv (by exact_mod_cast hbs) (min_le_right _ _)
      exact ⟨m₃, h₃⟩
  have hlast : (if args.delayCacheBlocks then
        (Except.ok m₂ >>= fun m => Except.ok (some [new], m))
      else m₂.cacheBlocks q (min (m.mainTokens q args) q.numTokens) >>= fun m =>
        Except.ok (some [new], m)) = (Except.ok (some [new], m₃) : Except SchedError _) := by
    by_cases hdelay : args.delayCacheBlocks = true
    · rw [if_pos hdelay] at h₃ ⊢
      exact bind_eq_ok.mpr ⟨m₃, h₃, rfl⟩
    · rw [if_neg hdelay] at h₃ ⊢
      exact bind_eq_ok.mpr ⟨m₃, h₃, rfl⟩
  refine ⟨[new], m₃, ?_⟩
  unfold allocateSlots
  rw [if_neg fun hzero => hnew hzero.1]
  refine bind_eq_ok.mpr ⟨true, hfit, ?_⟩
  refine (if_pos rfl).trans ?_
  by_cases hcond : hitBlocks args ≠ [] ∨ 0 < args.numExternalComputedTokens
  · rw [if_pos hcond] at h₁
    refine (if_pos hcond).trans ?_
    exact bind_eq_ok.mpr ⟨m₁, h₁, bind_eq_ok.mpr ⟨(new, m₂), h₂, hlast⟩⟩
  · rw [if_neg hcond] at h₁
    refine (if_neg hcond).trans ?_
    exact bind_eq_ok.mpr ⟨m₁, h₁, bind_eq_ok.mpr ⟨(new, m₂), h₂, hlast⟩⟩

/-! ### The computed prefix -/

/-- A block of a chain is cached under a hash of the chain. -/
theorem mem_cachedChain {p : BlockPool} {hs : List BlockHash} {b : BlockId}
    (hb : b ∈ cachedChain p hs) : ∃ h ∈ hs, b ∈ p.cachedIds h := by
  induction hs with
  | nil => exact absurd hb List.not_mem_nil
  | cons h hs ih =>
    unfold cachedChain at hb
    split at hb
    · rename_i b' hcached
      rcases List.mem_cons.mp hb with rfl | hb
      · refine ⟨h, List.mem_cons_self, ?_⟩
        obtain ⟨ids, hids, hhead⟩ := Option.bind_eq_some_iff.mp hcached
        rw [BlockPool.cachedIds, hids]
        exact List.mem_of_mem_head? hhead
      · obtain ⟨h', hh', hmem⟩ := ih hb
        exact ⟨h', List.mem_cons_of_mem h hh', hmem⟩
    · exact absurd hb List.not_mem_nil

/-- The chain of different hashes has different blocks. -/
theorem cachedChain_nodup {n : ℕ} {p : BlockPool} (hp : BlockPool.Hashed n p)
    {hs : List BlockHash} (hhs : hs.Nodup) : (cachedChain p hs).Nodup := by
  induction hs with
  | nil => exact List.nodup_nil
  | cons h hs ih =>
    obtain ⟨hh, hhs⟩ := List.nodup_cons.mp hhs
    unfold cachedChain
    split
    · rename_i b hcached
      refine List.nodup_cons.mpr ⟨fun hb => ?_, ih hhs⟩
      obtain ⟨h', hh', hmem⟩ := mem_cachedChain hb
      obtain ⟨ids, hids, hhead⟩ := Option.bind_eq_some_iff.mp hcached
      have hb' : b ∈ p.cachedIds h := by
        rw [BlockPool.cachedIds, hids]
        exact List.mem_of_mem_head? hhead
      have hsome := (hp.blockHash b h).mpr hb'
      rw [(hp.blockHash b h').mpr hmem] at hsome
      exact hh (Option.some.inj hsome ▸ hh')
    · exact List.nodup_nil

/-- A chain of cached blocks is not longer than the list of hashes. -/
theorem length_cachedChain_le (p : BlockPool) (hs : List BlockHash) :
    (cachedChain p hs).length ≤ hs.length := by
  induction hs with
  | nil => exact Nat.le_refl 0
  | cons h hs ih =>
    unfold cachedChain
    split
    · exact Nat.succ_le_succ ih
    · exact Nat.zero_le _

/-- The computed prefix: blocks of the prefix cache, which leave a token to be computed. -/
theorem computedPrefix_spec (h : Kept cfg enableCaching m) (hbs : 0 < m.blockSize)
    (htokens : 0 < q.numTokens) (hnodup : q.blockHashes.Nodup) :
    m.InCache (m.computedPrefix q).newComputedBlocks.flatten ∧
      (m.computedPrefix q).numComputedTokens =
        (m.computedPrefix q).newComputedBlocks.flatten.length * m.blockSize ∧
      (m.computedPrefix q).newComputedBlocks.flatten.length * m.blockSize < q.numTokens ∧
      ((m.computedPrefix q).newComputedBlocks.flatten ≠ [] → enableCaching = true) := by
  unfold computedPrefix getComputedBlocks
  split
  · exact ⟨⟨List.nodup_nil, fun b hb => absurd hb List.not_mem_nil⟩, by simp, by simpa using htokens,
      fun hne => absurd rfl hne⟩
  · rename_i hcaching
    rw [not_or, not_not] at hcaching
    dsimp only
    rw [List.flatten_singleton]
    have hsub : (m.findLongestCacheHit q.blockHashes (q.numTokens - 1)).Sublist
        (cachedChain m.blockPool (q.blockHashes.take ((q.numTokens - 1) / m.blockSize))) := by
      unfold findLongestCacheHit
      dsimp only
      split
      · exact List.dropLast_sublist _
      · exact List.Sublist.refl _
    have hlength : (m.findLongestCacheHit q.blockHashes (q.numTokens - 1)).length ≤
        (q.numTokens - 1) / m.blockSize :=
      hsub.length_le.trans ((length_cachedChain_le _ _).trans (List.length_take_le _ _))
    refine ⟨⟨(cachedChain_nodup h.pool.toHashed (hnodup.sublist (List.take_sublist _ _))).sublist
      hsub, fun b hb => ?_⟩, rfl, ?_, fun _ => h.enabled.symm.trans hcaching.1⟩
    · obtain ⟨hash, -, hmem⟩ := mem_cachedChain (hsub.mem hb)
      rw [(h.pool.blockHash b hash).mpr hmem]
      exact Option.some_ne_none hash
    · have hle := (Nat.le_div_iff_mul_le hbs).mp hlength
      omega

/-! ### Prefilling to the end -/

/-- A chunk of a request that is alone, and after the last chunk the slots of all tokens. -/
theorem chunk_succeeds (args : AllocateSlotsArgs) (h : Kept cfg enableCaching m)
    (hbs : 0 < cfg.blockSize) (halone : ∀ x, x ≠ q.requestId → m.reqToBlocks.get? x = none)
    (hhits : m.InCache (hitBlocks args)) (hext : args.numExternalComputedTokens = 0)
    (hlook : args.numLookaheadTokens = 0) (hnew : 0 < args.numNewTokens)
    (hfirst : hitBlocks args ≠ [] → m.numCachedBlock.get? q.requestId = none ∧
      m.reqBlocks q.requestId = [] ∧ enableCaching = true)
    (hids : (hitBlocks args).length ≤ cfg.numBlocks - 1)
    (htokens : q.numComputedTokens + args.numNewComputedTokens + args.numNewTokens ≤ q.numTokens)
    (hfits : q.numTokens ≤ (cfg.numBlocks - 1) * cfg.blockSize)
    (hround : ∀ j : ℤ, min (q.numTokens : ℤ) cfg.maxModelLen ≤ j * cfg.blockSize →
      (q.numTokens : ℤ) ≤ j * cfg.blockSize)
    (hhashes : enableCaching = true → q.numTokens / cfg.blockSize ≤ q.blockHashes.length) :
    ∃ blocks m', m.allocateSlots q args = .ok (some blocks, m') ∧ Kept cfg enableCaching m' ∧
      (∀ x, x ≠ q.requestId → m'.reqToBlocks.get? x = none) ∧
      (q.numComputedTokens + args.numNewComputedTokens + args.numNewTokens = q.numTokens →
        m'.Covers q) := by
  have hsize : 0 < m.blockSize := h.blockSize.symm ▸ hbs
  have hroom : (q.numTokens : ℤ) ≤ ((cfg.numBlocks - 1 : ℕ) : ℤ) * m.blockSize := by
    rw [h.blockSize]
    exact_mod_cast hfits
  have hslots : m.slotTokens q args ≤ q.numTokens := by
    unfold slotTokens mainTokens
    rw [hext, hlook]
    omega
  obtain ⟨blocks, m', ha⟩ := allocateSlots_succeeds h hsize halone hhits hext (by omega) hfirst
    (by exact_mod_cast hids)
    ((numRequiredBlocks_le_iff hsize _ _).mpr ((min_le_left _ _).trans hroom))
    ((numRequiredBlocks_le_iff hsize _ _).mpr (hslots.trans hroom)) fun hcaching => by
      rw [h.blockSize]
      exact_mod_cast hhashes hcaching
  have hkept := allocateSlots_kept h hhits hext ha
  obtain ⟨hothers, hlength⟩ := allocateSlots_grows h halone hhits hext ha
  refine ⟨blocks, m', ha, hkept, hothers, fun hlast => ?_⟩
  have hreach : min (q.numTokens : ℤ) cfg.maxModelLen ≤ m.slotTokens q args := by
    unfold slotTokens mainTokens
    rw [hext, hlook, h.maxModelLen]
    omega
  have hle : m.numRequiredBlocks (m.slotTokens q args) ≤
      ((m'.reqBlocks q.requestId).length : ℤ) := by
    rw [hlength]
    exact le_max_right _ _
  have hcover := hround (m'.reqBlocks q.requestId).length (by
    rw [← h.blockSize]
    exact hreach.trans ((numRequiredBlocks_le_iff hsize _ _).mp hle))
  unfold Covers
  rw [hkept.blockSize]
  exact_mod_cast hcover

/-- The later chunks of a request that is alone. -/
theorem prefillRunning_succeeds (hbs : 0 < cfg.blockSize) (hlook : cfg.numLookaheadTokens = 0)
    {chunks : List ℕ} (h : Kept cfg enableCaching m)
    (halone : ∀ x, x ≠ q.requestId → m.reqToBlocks.get? x = none)
    (hpos : ∀ c ∈ chunks, 0 < c) (hsum : q.numComputedTokens + chunks.sum = q.numTokens)
    (hfits : q.numTokens ≤ (cfg.numBlocks - 1) * cfg.blockSize)
    (hround : ∀ j : ℤ, min (q.numTokens : ℤ) cfg.maxModelLen ≤ j * cfg.blockSize →
      (q.numTokens : ℤ) ≤ j * cfg.blockSize)
    (hhashes : enableCaching = true → q.numTokens / cfg.blockSize ≤ q.blockHashes.length)
    (hdone : chunks = [] → m.Covers q) :
    ∃ m', prefillRunning cfg chunks q m = .ok (some m') ∧ m'.Covers q := by
  induction chunks generalizing q m with
  | nil => exact ⟨m, rfl, hdone rfl⟩
  | cons c cs ih =>
    rw [List.sum_cons, Nat.cast_add] at hsum
    have hc := hpos c List.mem_cons_self
    have hcomputed : (LoopState.runningArgs cfg (chunk c)).numNewComputedTokens = 0 := rfl
    have hnew : (LoopState.runningArgs cfg (chunk c)).numNewTokens = c := rfl
    obtain ⟨blocks, m₁, ha, hkept, hothers, hcovers⟩ := chunk_succeeds (q := q)
      (LoopState.runningArgs cfg (chunk c)) h hbs halone
      ⟨List.nodup_nil, fun b hb => absurd hb List.not_mem_nil⟩ rfl
      (by simp [LoopState.runningArgs, hlook]) (by omega) (fun hne => absurd rfl hne)
      (Nat.zero_le _) (by omega) hfits hround hhashes
    have hsum' : q.numComputedTokens + c + (cs.sum : ℤ) = q.numTokens := by omega
    obtain ⟨m', hrest, hcover⟩ := ih
      (q := { q with numComputedTokens := q.numComputedTokens + c }) hkept hothers
      (fun x hx => hpos x (List.mem_cons_of_mem c hx)) hsum' hfits hround hhashes (fun hnil => by
        rw [hnil, List.sum_nil] at hsum
        exact hcovers (by omega))
    exact ⟨m', bind_eq_ok.mpr ⟨_, ha, hrest⟩, hcover⟩

/-- The chunks of a waiting request that is alone. -/
theorem prefill_succeeds (h : Kept cfg enableCaching m)
    (hidle : ∀ x, m.reqToBlocks.get? x = none) (hbs : 0 < cfg.blockSize)
    (hlook : cfg.numLookaheadTokens = 0) (hcomputed : q.numComputedTokens = 0)
    (htokens : 0 < q.numTokens) (hnodup : q.blockHashes.Nodup)
    (hhashes : enableCaching = true → q.numTokens / cfg.blockSize ≤ q.blockHashes.length)
    (hfits : q.numTokens ≤ (cfg.numBlocks - 1) * cfg.blockSize)
    (hround : ∀ j : ℤ, min (q.numTokens : ℤ) cfg.maxModelLen ≤ j * cfg.blockSize →
      (q.numTokens : ℤ) ≤ j * cfg.blockSize)
    {chunks : List ℕ} (hpos : ∀ c ∈ chunks, 0 < c)
    (hsum : (m.computedPrefix q).numComputedTokens + chunks.sum = q.numTokens) :
    Prefilled cfg m q chunks := by
  obtain ⟨hcache, hfirst, hlt, hcaching⟩ :=
    computedPrefix_spec h (h.blockSize.symm ▸ hbs) htokens hnodup
  cases chunks with
  | nil =>
    rw [List.sum_nil, hfirst] at hsum
    exact absurd (by exact_mod_cast hsum) hlt.ne
  | cons c cs =>
    rw [List.sum_cons, Nat.cast_add] at hsum
    have hc := hpos c List.mem_cons_self
    have hempty : m.reqBlocks q.requestId = [] := by
      rw [reqBlocks, hidle]
      rfl
    have hunknown : m.numCachedBlock.get? q.requestId = none := by
      refine Option.not_isSome_iff_eq_none.mp fun hsome => ?_
      have hknown := h.known q.requestId hsome
      rw [hidle] at hknown
      exact Bool.false_ne_true hknown
    have hids : (m.computedPrefix q).newComputedBlocks.flatten.length ≤ cfg.numBlocks - 1 := by
      refine Nat.le_of_mul_le_mul_right ?_ hbs
      rw [h.blockSize] at hlt
      omega
    obtain ⟨blocks, m₁, ha, hkept, hothers, hcovers⟩ := chunk_succeeds (q := q)
      (LoopState.waitingArgs cfg q (m.computedPrefix q) (chunk c)) h hbs
      (fun x _ => hidle x) hcache rfl (by simp [LoopState.waitingArgs, hcomputed])
      (Int.natCast_pos.mpr hc) (fun hne => ⟨hunknown, hempty, hcaching hne⟩) hids
      (by rw [hcomputed]; change 0 + (m.computedPrefix q).numComputedTokens + (c : ℤ) ≤ _; omega)
      hfits hround hhashes
    have hsum' : (m.computedPrefix q).numComputedTokens + c + (cs.sum : ℤ) = q.numTokens := by omega
    obtain ⟨m', hrest, hcover⟩ := prefillRunning_succeeds
      (q := { q with numComputedTokens := (m.computedPrefix q).numComputedTokens + c }) hbs hlook
      hkept hothers (fun x hx => hpos x (List.mem_cons_of_mem c hx)) hsum' hfits hround hhashes
      (fun hnil => hcovers (by
        rw [hnil, List.sum_nil] at hsum
        rw [hcomputed]
        change 0 + (m.computedPrefix q).numComputedTokens + (c : ℤ) = _
        omega))
    exact ⟨m', bind_eq_ok.mpr ⟨_, ha, hrest⟩, hcover⟩

/-- A sequence that is given slots in one step fits the blocks of the pool and the length of the
model, rounded up to blocks. -/
theorem GivenSlots.fits (h : Kept cfg enableCaching m) (hidle : ∀ x, m.reqToBlocks.get? x = none)
    (hbs : 0 < cfg.blockSize) (htokens : 0 < q.numTokens) (hnodup : q.blockHashes.Nodup)
    (hgiven : GivenSlots cfg m q) :
    q.numTokens ≤ (cfg.numBlocks - 1) * cfg.blockSize ∧
      q.numTokens ≤ (cfg.maxModelLen + cfg.blockSize - 1) / cfg.blockSize * cfg.blockSize := by
  obtain ⟨m', hprefill, hcover⟩ := hgiven
  obtain ⟨hcache, hfirst, hlt, hcaching⟩ :=
    computedPrefix_spec h (h.blockSize.symm ▸ hbs) htokens hnodup
  obtain ⟨⟨blocks, m₁⟩, ha, hrest⟩ := bind_eq_ok.mp hprefill
  cases blocks with
  | none => cases hrest
  | some blocks =>
    cases hrest
    generalize hargs : LoopState.waitingArgs cfg q (m.computedPrefix q) _ = args at ha
    have hhits : hitBlocks args = (m.computedPrefix q).newComputedBlocks.flatten := by
      rw [← hargs]
      rfl
    have hext : args.numExternalComputedTokens = 0 := by
      rw [← hargs]
      rfl
    rw [← hhits] at hcache hlt
    have hkept := allocateSlots_kept h hcache hext ha
    obtain ⟨hothers, hlength⟩ := allocateSlots_grows h (fun x _ => hidle x) hcache hext ha
    have hfree := hkept.free_add_held hothers
    unfold Covers at hcover
    rw [hkept.blockSize] at hcover
    rw [h.blockSize] at hlt
    refine ⟨hcover.trans (Nat.mul_le_mul_right _ (by omega)), ?_⟩
    have hempty : m.reqBlocks q.requestId = [] := by
      rw [reqBlocks, hidle]
      rfl
    have hmore : (hitBlocks args).length < (m'.reqBlocks q.requestId).length :=
      lt_of_mul_lt_mul_right (hlt.trans_le hcover) (Nat.zero_le _)
    rw [hempty, List.length_nil, Nat.zero_add] at hlength
    have hslots : ((m'.reqBlocks q.requestId).length : ℤ) =
        m.numRequiredBlocks (m.slotTokens q args) := by omega
    have hmax : m.numRequiredBlocks (m.slotTokens q args) ≤
        (((cfg.maxModelLen + cfg.blockSize - 1) / cfg.blockSize : ℕ) : ℤ) := by
      rw [numRequiredBlocks_le_iff (h.blockSize.symm ▸ hbs), h.blockSize]
      refine (min_le_right _ _).trans ?_
      rw [h.maxModelLen]
      exact_mod_cast le_ceil_mul cfg.maxModelLen hbs
    refine hcover.trans (Nat.mul_le_mul_right _ ?_)
    omega

/-- For every configuration, and every state of the manager in which no request has blocks: the
rejection of a waiting request by its prompt is exact if and only if its prompt is longer than all
the blocks, or its sequence fits the blocks without the null block and the length of the model. -/
theorem exactRejection_iff (hm : Reached cfg enableCaching m)
    (hidle : ∀ x, m.reqToBlocks.get? x = none) (hbs : 0 < cfg.blockSize)
    (hlook : cfg.numLookaheadTokens = 0) (hcomputed : q.numComputedTokens = 0)
    (hprompt : 0 < q.numPromptTokens) (hle : q.numPromptTokens ≤ q.numTokens)
    (hnodup : q.blockHashes.Nodup)
    (hhashes : enableCaching = true → q.numTokens / cfg.blockSize ≤ q.blockHashes.length) :
    ExactRejection cfg m q ↔
      cfg.numBlocks * cfg.blockSize < q.numPromptTokens ∨
        q.numTokens ≤ (cfg.numBlocks - 1) * cfg.blockSize ∧
          q.numTokens ≤ (cfg.maxModelLen + cfg.blockSize - 1) / cfg.blockSize * cfg.blockSize := by
  have hkept := hm.kept
  have htokens : 0 < q.numTokens := hprompt.trans_le hle
  have hless : (cfg.numBlocks - 1) * cfg.blockSize ≤ cfg.numBlocks * cfg.blockSize :=
    Nat.mul_le_mul_right _ (Nat.sub_le _ _)
  have hsize : oversizePrompt cfg q = true ↔ cfg.numBlocks * cfg.blockSize < q.numPromptTokens := by
    unfold oversizePrompt
    exact decide_eq_true_iff
  constructor
  · intro hexact
    by_cases hover : cfg.numBlocks * cfg.blockSize < q.numPromptTokens
    · exact .inl hover
    · have hgiven : GivenSlots cfg m q :=
        not_not.mp fun hno => hover (hsize.mp (hexact.rejected.mpr hno))
      exact .inr (hgiven.fits hkept hidle hbs htokens hnodup)
  · rintro (hover | ⟨hfits, hlen⟩)
    · refine ⟨iff_of_true (hsize.mpr hover) fun hgiven => ?_, fun hpass => ?_⟩
      · have hfits := (hgiven.fits hkept hidle hbs htokens hnodup).1
        omega
      · rw [hsize.mpr hover] at hpass
        cases hpass
    · have hpass : ¬ oversizePrompt cfg q = true := by
        rw [hsize]
        omega
      have hround : ∀ j : ℤ, min (q.numTokens : ℤ) cfg.maxModelLen ≤ j * cfg.blockSize →
          (q.numTokens : ℤ) ≤ j * cfg.blockSize := by
        intro j hj
        rcases le_total (q.numTokens : ℤ) cfg.maxModelLen with hmin | hmin
        · rwa [min_eq_left hmin] at hj
        · rw [min_eq_right hmin, ← hkept.blockSize, ← numRequiredBlocks_le_iff
            (hkept.blockSize.symm ▸ hbs), numRequiredBlocks, hkept.blockSize] at hj
          have hceil : (((cfg.maxModelLen + cfg.blockSize - 1) / cfg.blockSize : ℕ) : ℤ) ≤ j := by
            rw [Int.natCast_ediv, Nat.cast_sub (by omega)]
            exact_mod_cast hj
          refine le_trans ?_ (mul_le_mul_of_nonneg_right hceil (Int.natCast_nonneg _))
          exact_mod_cast hlen
      have hprefilled : ∀ chunks : List ℕ, (∀ c ∈ chunks, 0 < c) →
          (m.computedPrefix q).numComputedTokens + chunks.sum = q.numTokens →
          Prefilled cfg m q chunks := fun chunks hpos hsum =>
        prefill_succeeds hkept hidle hbs hlook hcomputed htokens hnodup hhashes hfits hround hpos hsum
      obtain ⟨-, hfirst, hlt, -⟩ :=
        computedPrefix_spec hkept (hkept.blockSize.symm ▸ hbs) htokens hnodup
      have hmissing : (m.computedPrefix q).numComputedTokens < q.numTokens := by
        rw [hfirst]
        exact_mod_cast hlt
      refine ⟨iff_of_false hpass (not_not_intro (hprefilled _ ?_ ?_)), fun _ => hprefilled⟩
      · intro c hc
        rw [List.mem_singleton.mp hc]
        omega
      · rw [List.sum_singleton]
        omega

/-- Blocks of four tokens. -/
def fourTokenBlocks (numBlocks : ℕ) : Config where
  maxNumRunningReqs := 1
  maxNumScheduledTokens := 64
  maxModelLen := 64
  blockSize := 4
  numBlocks := numBlocks

/-- A new request with a prompt of eight tokens. -/
def eightTokens : Request :=
  { (default : Request) with
    requestId := 1
    promptTokenIds := List.replicate 8 0
    numPromptTokens := 8
    allTokenIds := List.replicate 8 0
    blockHashes := [1, 2] }

/-- Two blocks are as long as the prompt, and one of them is the null block: the request passes
the test, and no step gives it slots. -/
theorem lastBlock_not_exact : ¬ ExactRejection (fourTokenBlocks 2)
    (init (fourTokenBlocks 2) true) eightTokens := by
  intro h
  have hnone : ¬ GivenSlots (fourTokenBlocks 2) (init (fourTokenBlocks 2) true) eightTokens := by
    rintro ⟨m', hprefill, -⟩
    have hrefused : prefill (fourTokenBlocks 2) [8] eightTokens (init (fourTokenBlocks 2) true) =
        .ok none := by decide +kernel
    cases hprefill.symm.trans hrefused
  exact absurd (h.rejected.mpr hnone) (by decide)

/-- With one block more the prompt fits, and the rejection is exact. -/
theorem threeBlocks_exact : ExactRejection (fourTokenBlocks 3)
    (init (fourTokenBlocks 3) true) eightTokens :=
  (exactRejection_iff .init (fun _ => rfl) (by decide) rfl rfl (by decide) (by decide) (by decide)
    (by decide)).mpr (.inr (by decide))

end RpsServe.FullAttentionKV
