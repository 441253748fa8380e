import RpsServe.Lib.HashChain
import RpsServe.Request

/-!
# The hashes of the full blocks of a request

`get_request_block_hasher`: every full block of tokens is hashed together with the hash of the
block before it, and with extra keys that tell apart what the tokens do not show: the LoRA
adapter, and the multimodal items whose placeholders lie in the block. The hash function, its
initial hash and the names of the adapters are parameters.
-/

namespace RpsServe

/-- An extra key of a block. -/
inductive ExtraKey where
  | lora (loraName : String)
  | mm (identifier : MmHash) (offset : ℤ)
deriving DecidableEq

/-- The adapter that a key names. -/
def ExtraKey.loraName? : ExtraKey → Option String
  | lora loraName => some loraName
  | mm .. => none

/-- The hash function `caching_hash_fn` with `NONE_HASH`, and the names of the LoRA adapters. -/
structure BlockHashing where
  noneHash : BlockHash
  cachingHashFn : BlockHash × List Token × Option (List ExtraKey) → BlockHash
  loraName : ℕ → String

namespace BlockHashing

variable (hashing : BlockHashing) (blockSize : ℕ)

/-- The loop of `_gen_mm_extra_hash_keys` over the items from index `currMmIdx` on: a block that
contains the end of an item may contain the next one. -/
def mmKeys (startTokenIdx endTokenIdx : ℕ) : List MmFeature → ℕ → List ExtraKey × ℕ
  | [], currMmIdx => ([], currMmIdx)
  | f :: rest, currMmIdx =>
    if f.offset < endTokenIdx then
      if f.offset + f.length ≤ startTokenIdx then
        mmKeys startTokenIdx endTokenIdx rest (currMmIdx + 1)
      else
        let key := ExtraKey.mm f.identifier (f.offset - startTokenIdx)
        if f.offset + f.length ≤ endTokenIdx then
          let (keys, currMmIdx) := mmKeys startTokenIdx endTokenIdx rest (currMmIdx + 1)
          (key :: keys, currMmIdx)
        else ([key], currMmIdx)
    else ([], currMmIdx)

/-- `_gen_mm_extra_hash_keys`; a negative index counts from the end. -/
def genMmExtraHashKeys (q : Request) (startTokenIdx endTokenIdx : ℕ) (startMmIdx : ℤ) :
    List ExtraKey × ℤ :=
  match q.mmFeatures.getLast? with
  | none => ([], startMmIdx)
  | some last =>
    if last.offset + last.length ≤ startTokenIdx then ([], startMmIdx)
    else
      let currMmIdx :=
        (if startMmIdx < 0 then q.mmFeatures.length + startMmIdx else startMmIdx).toNat
      let (keys, currMmIdx) :=
        mmKeys startTokenIdx endTokenIdx (q.mmFeatures.drop currMmIdx) currMmIdx
      (keys, currMmIdx)

/-- `_gen_lora_extra_hash_keys`. -/
def genLoraExtraHashKeys (q : Request) : List ExtraKey :=
  match q.loraRequest with
  | none => []
  | some adapter => [.lora (hashing.loraName adapter)]

/-- `generate_block_hash_extra_keys`, without cache salts and prompt embeddings. -/
def generateBlockHashExtraKeys (q : Request) (startTokenIdx endTokenIdx : ℕ) (startMmIdx : ℤ) :
    Option (List ExtraKey) × ℤ :=
  let (mmExtraKeys, newStartMmIdx) := genMmExtraHashKeys q startTokenIdx endTokenIdx startMmIdx
  let extraKeys := hashing.genLoraExtraHashKeys q ++ mmExtraKeys
  if extraKeys.isEmpty then (none, newStartMmIdx) else (some extraKeys, newStartMmIdx)

/-- `hash_block_tokens`. -/
def hashBlockTokens (parentBlockHash : Option BlockHash) (currBlockTokenIds : List Token)
    (extraKeys : Option (List ExtraKey)) : BlockHash :=
  hashing.cachingHashFn (parentBlockHash.getD hashing.noneHash, currBlockTokenIds, extraKeys)

/-- The loop of the block hasher: the hashes of `numBlocks` full blocks. -/
def hashBlocks (q : Request) : (numBlocks startTokenIdx : ℕ) → (prevBlockHashValue : Option BlockHash) →
    (currMmIdx : ℤ) → List BlockHash
  | 0, _, _, _ => []
  | numBlocks + 1, startTokenIdx, prevBlockHashValue, currMmIdx =>
    let (extraKeys, currMmIdx) :=
      hashing.generateBlockHashExtraKeys q startTokenIdx (startTokenIdx + blockSize) currMmIdx
    let blockTokens := (q.allTokenIds.drop startTokenIdx).take blockSize
    let blockHash := hashing.hashBlockTokens prevBlockHashValue blockTokens extraKeys
    blockHash :: hashBlocks q numBlocks (startTokenIdx + blockSize) (some blockHash) currMmIdx

/-- `get_request_block_hasher`: the hashes of the full blocks that have none yet. After the first
call only the last item is looked at. -/
def getRequestBlockHasher (q : Request) : List BlockHash :=
  let startTokenIdx := q.blockHashes.length * blockSize
  if q.numTokens < startTokenIdx + blockSize then []
  else
    let currMmIdx := if 0 < startTokenIdx then -1 else 0
    hashing.hashBlocks blockSize q ((q.numTokens - startTokenIdx) / blockSize) startTokenIdx
      q.blockHashes.getLast? currMmIdx

/-! ### The chain -/

/-- What is hashed of a block: its tokens and its extra keys. -/
abbrev BlockContent := List Token × Option (List ExtraKey)

/-- The hash of a block behind another. -/
def step (parentBlockHash : BlockHash) (x : BlockContent) : BlockHash :=
  hashing.cachingHashFn (parentBlockHash, x.1, x.2)

/-- No two blocks have the same hash behind different ones, and none has `NONE_HASH`. -/
def CollisionFree : Prop := HashChain.CollisionFree hashing.step hashing.noneHash

/-- The hashes of a sequence of blocks. -/
def chain (xs : List BlockContent) : List BlockHash :=
  HashChain.hashes hashing.step hashing.noneHash xs

/-- The names of the adapters among the keys of a block. -/
def adapters (extraKeys : Option (List ExtraKey)) : List String :=
  (extraKeys.getD []).filterMap ExtraKey.loraName?

/-- The contents of the blocks in the loop of the block hasher. -/
def blockContents (q : Request) : (numBlocks startTokenIdx : ℕ) → (currMmIdx : ℤ) →
    List BlockContent
  | 0, _, _ => []
  | numBlocks + 1, startTokenIdx, currMmIdx =>
    let (extraKeys, currMmIdx) :=
      hashing.generateBlockHashExtraKeys q startTokenIdx (startTokenIdx + blockSize) currMmIdx
    ((q.allTokenIds.drop startTokenIdx).take blockSize, extraKeys) ::
      blockContents q numBlocks (startTokenIdx + blockSize) currMmIdx

/-- The contents `xs` are those of the first full blocks of the request, under its adapter. -/
def Describes (q : Request) (xs : List BlockContent) : Prop :=
  ∀ (i : ℕ) (x : BlockContent), xs[i]? = some x → (i + 1) * blockSize ≤ q.numTokens ∧
    x.1 = (q.allTokenIds.drop (i * blockSize)).take blockSize ∧
    adapters x.2 = (q.loraRequest.map hashing.loraName).toList

variable {hashing blockSize} {q q' : Request} {xs ys : List BlockContent} {i j : ℕ}

/-- The hashes of the full blocks are those of their contents, chained. -/
theorem hashBlocks_eq (n startTokenIdx : ℕ) (prev : Option BlockHash) (mmIdx : ℤ) :
    hashing.hashBlocks blockSize q n startTokenIdx prev mmIdx =
      HashChain.hashes hashing.step (prev.getD hashing.noneHash)
        (hashing.blockContents blockSize q n startTokenIdx mmIdx) := by
  induction n generalizing startTokenIdx prev mmIdx with
  | zero => rfl
  | succ n ih => exact congrArg (List.cons _) (ih _ _ _)

/-- The keys of multimodal items name no adapter. -/
theorem loraName?_mmKeys {startTokenIdx endTokenIdx : ℕ} {fs : List MmFeature} {mmIdx : ℕ} :
    ∀ key ∈ (mmKeys startTokenIdx endTokenIdx fs mmIdx).1, key.loraName? = none := by
  induction fs generalizing mmIdx with
  | nil => simp [mmKeys]
  | cons f fs ih =>
    intro key hkey
    unfold mmKeys at hkey
    split_ifs at hkey
    · exact ih key hkey
    · rcases List.mem_cons.mp hkey with rfl | hkey
      · rfl
      · exact ih key hkey
    · rw [List.mem_singleton.mp hkey]
      rfl
    · cases hkey

/-- The keys of a block name the adapter of the request. -/
theorem adapters_generateBlockHashExtraKeys (q : Request) (startTokenIdx endTokenIdx : ℕ)
    (mmIdx : ℤ) : adapters (hashing.generateBlockHashExtraKeys q startTokenIdx endTokenIdx mmIdx).1 =
      (q.loraRequest.map hashing.loraName).toList := by
  have hmm : (genMmExtraHashKeys q startTokenIdx endTokenIdx mmIdx).1.filterMap
      ExtraKey.loraName? = [] := by
    refine List.filterMap_eq_nil_iff.mpr ?_
    unfold genMmExtraHashKeys
    split
    · simp
    · split
      · simp
      · exact loraName?_mmKeys
  have hlora : (hashing.genLoraExtraHashKeys q).filterMap ExtraKey.loraName? =
      (q.loraRequest.map hashing.loraName).toList := by
    unfold genLoraExtraHashKeys
    cases q.loraRequest <;> rfl
  have hall : (hashing.genLoraExtraHashKeys q ++
      (genMmExtraHashKeys q startTokenIdx endTokenIdx mmIdx).1).filterMap ExtraKey.loraName? =
      (q.loraRequest.map hashing.loraName).toList := by
    rw [List.filterMap_append, hmm, List.append_nil, hlora]
  unfold generateBlockHashExtraKeys adapters
  dsimp only
  split
  · rename_i hempty
    rw [List.isEmpty_iff.mp hempty] at hall
    exact hall
  · exact hall

/-- The contents of a block are its tokens, and the adapter among its extra keys. -/
theorem getElem?_blockContents {n startTokenIdx : ℕ} {mmIdx : ℤ} {x : BlockContent}
    (h : (hashing.blockContents blockSize q n startTokenIdx mmIdx)[i]? = some x) :
    i < n ∧ x.1 = (q.allTokenIds.drop (startTokenIdx + i * blockSize)).take blockSize ∧
      adapters x.2 = (q.loraRequest.map hashing.loraName).toList := by
  induction n generalizing startTokenIdx mmIdx i with
  | zero => cases h
  | succ n ih =>
    cases i with
    | zero =>
      cases h
      refine ⟨Nat.succ_pos n, by rw [Nat.zero_mul]; rfl, ?_⟩
      exact adapters_generateBlockHashExtraKeys ..
    | succ i =>
      obtain ⟨hlt, htokens, hadapters⟩ := ih h
      refine ⟨Nat.succ_lt_succ hlt, ?_, hadapters⟩
      rw [htokens, Nat.succ_mul, Nat.add_assoc, Nat.add_comm blockSize]

/-- The hasher goes on with the blocks that have no hash yet. -/
theorem getRequestBlockHasher_eq (hashing : BlockHashing) (blockSize : ℕ) (q : Request) :
    ∃ n mmIdx, (n = 0 ∨ q.blockHashes.length * blockSize + n * blockSize ≤ q.numTokens) ∧
      hashing.getRequestBlockHasher blockSize q =
        HashChain.hashes hashing.step (q.blockHashes.getLast?.getD hashing.noneHash)
          (hashing.blockContents blockSize q n (q.blockHashes.length * blockSize) mmIdx) := by
  unfold getRequestBlockHasher
  dsimp only
  split
  · exact ⟨0, 0, .inl rfl, rfl⟩
  · rename_i hlt
    refine ⟨_, _, .inr ?_, hashBlocks_eq _ _ _ _⟩
    have hle := Nat.div_mul_le_self (q.numTokens - q.blockHashes.length * blockSize) blockSize
    omega

variable (blockSize) in
/-- The chain of hashes goes on with the full blocks. -/
theorem updateBlockHashes_chain (h : q.blockHashes = hashing.chain xs) :
    ∃ ys, (q.updateBlockHashes (hashing.getRequestBlockHasher blockSize)).blockHashes =
        hashing.chain (xs ++ ys) ∧
      (hashing.Describes blockSize q xs → hashing.Describes blockSize q (xs ++ ys)) := by
  obtain ⟨n, mmIdx, hroom, hhashes⟩ := getRequestBlockHasher_eq hashing blockSize q
  have hlength : q.blockHashes.length = xs.length := by rw [h, chain, HashChain.length_hashes]
  refine ⟨hashing.blockContents blockSize q n (q.blockHashes.length * blockSize) mmIdx, ?_,
    fun hxs i x hx => ?_⟩
  · rw [Request.updateBlockHashes, hhashes, chain, HashChain.hashes_append]
    rw [h, chain, HashChain.getLast?_hashes]
  · rw [List.getElem?_append] at hx
    split at hx
    · exact hxs i x hx
    · rename_i hge
      obtain ⟨hlt, htokens, hadapters⟩ := getElem?_blockContents hx
      rw [hlength, ← Nat.add_mul, Nat.add_sub_cancel' (Nat.not_lt.mp hge)] at htokens
      rw [hlength, ← Nat.add_mul] at hroom
      refine ⟨?_, htokens, hadapters⟩
      exact (Nat.mul_le_mul_right _ (by omega)).trans (hroom.resolve_left (by omega))

/-! ### What the contents describe -/

/-- Tokens that are appended make no difference to the full blocks. -/
theorem Describes.append (h : hashing.Describes blockSize q xs)
    (htokens : q.allTokenIds <+: q'.allTokenIds) (hlora : q'.loraRequest = q.loraRequest) :
    hashing.Describes blockSize q' xs := by
  intro i x hx
  obtain ⟨hroom, hblock, hadapters⟩ := h i x hx
  obtain ⟨ts, hts⟩ := htokens
  have hlength : q'.numTokens = q.numTokens + ts.length := by
    rw [Request.numTokens, ← hts, List.length_append]
    rfl
  have hroom' : i * blockSize + blockSize ≤ q.allTokenIds.length := by
    rw [← Nat.succ_mul]
    exact hroom
  refine ⟨by omega, ?_, hlora.symm ▸ hadapters⟩
  rw [hblock, ← hts, List.drop_append_of_le_length (by omega),
    List.take_append_of_le_length (by rw [List.length_drop]; omega)]

/-- The tokens of the full blocks. -/
theorem Describes.take_tokens (h : hashing.Describes blockSize q xs) (hi : i ≤ xs.length) :
    q.allTokenIds.take (i * blockSize) = ((xs.take i).map Prod.fst).flatten := by
  induction i with
  | zero => rw [Nat.zero_mul, List.take_zero]; rfl
  | succ i ih =>
    obtain ⟨-, hblock, -⟩ := h i xs[i] (List.getElem?_eq_getElem hi)
    rw [Nat.succ_mul, List.take_add, ih (Nat.le_of_lt hi), List.take_succ_eq_append_getElem hi,
      List.map_append, List.flatten_append, ← hblock]
    simp

/-- Requests with one hash at positions `i` and `j` have it at the same position; there they have
the same tokens up to the end of the block, and the same adapter. -/
theorem Describes.agree (hc : hashing.CollisionFree) {v : BlockHash}
    (hx : (hashing.chain xs)[i]? = some v) (hy : (hashing.chain ys)[j]? = some v)
    (hq : hashing.Describes blockSize q xs) (hq' : hashing.Describes blockSize q' ys) :
    (i + 1) * blockSize ≤ q.numTokens ∧ (i + 1) * blockSize ≤ q'.numTokens ∧
      q.allTokenIds.take ((i + 1) * blockSize) = q'.allTokenIds.take ((i + 1) * blockSize) ∧
      q.loraRequest.map hashing.loraName = q'.loraRequest.map hashing.loraName := by
  obtain ⟨rfl, htake⟩ := hc.take_eq hx hy
  obtain ⟨hi, -⟩ := HashChain.getElem?_hashes_eq_some.mp hx
  obtain ⟨hj, -⟩ := HashChain.getElem?_hashes_eq_some.mp hy
  obtain ⟨hroom, -, hadapters⟩ := hq i xs[i] (List.getElem?_eq_getElem hi)
  obtain ⟨hroom', -, hadapters'⟩ := hq' i ys[i] (List.getElem?_eq_getElem hj)
  have hlast : xs[i] = ys[i] := by
    have hget := congrArg (·[i]?) htake
    simpa [List.getElem?_take, hi, hj] using hget
  refine ⟨hroom, hroom', by rw [hq.take_tokens hi, hq'.take_tokens hj, htake], ?_⟩
  have hsame := hadapters.symm.trans ((congrArg (adapters ·.2) hlast).trans hadapters')
  rw [← Option.head?_toList (o := q.loraRequest.map hashing.loraName), hsame, Option.head?_toList]

end BlockHashing

end RpsServe
