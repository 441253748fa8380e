import RpsServe.Scheduler.Outcome

/-!
# Grants keep to the token budget

A candidate asks for at most the tokens that are left, and whatever is cut from that on the
way, for its encoder inputs or for the alignment of mamba blocks, only makes it less. What
a waiting candidate is granted is never negative.
-/

namespace RpsServe

section Encoder

variable {E : Type} [EncoderCache E] {cfg : Config} {env : StepEnv} {q : Request}
  {numComputedTokens shift : ℤ} {goOn : Bool} {p p' : EncoderPass E}

/-- Looking up a cached item leaves the tokens. -/
theorem encoderItemCached_tokens {i : ℕ} {f : MmFeature} {hit : Bool}
    (h : encoderItemCached cfg q i f p = .ok (hit, p')) : p'.numNewTokens = p.numNewTokens := by
  cases encoderItemCached_outcome h with
  | encoderDecoder | repeated | looked => rfl

omit [EncoderCache E] in
/-- Adding an item leaves the tokens. -/
theorem encoderItemAdd_tokens {i : ℕ} {f : MmFeature} :
    (encoderItemAdd cfg env i f numComputedTokens p).numNewTokens = p.numNewTokens := by
  unfold encoderItemAdd
  dsimp only
  split
  · rfl
  · split <;> rfl

/-- An item of the pass does not raise the tokens. -/
theorem encoderItem_tokens_le {i : ℕ} {f : MmFeature}
    (h : encoderItem cfg env q numComputedTokens shift i f p = .ok (goOn, p')) :
    p'.numNewTokens ≤ max p.numNewTokens 0 := by
  cases encoderItem_outcome h with
  | beyond | encoded | computed => exact le_max_left _ _
  | cached _ hcached => exact encoderItemCached_tokens hcached ▸ le_max_left _ _
  | rolledBack hneeds =>
    have := hneeds.1
    dsimp only
    omega
  | noRoom hneeds =>
    have := hneeds.1
    dsimp only
    split <;> omega
  | added _ hcached =>
    rw [encoderItemAdd_tokens]
    exact encoderItemCached_tokens hcached ▸ le_max_left _ _

/-- The items of a pass do not raise the tokens. -/
theorem encoderItems_tokens_le {i : ℕ} {fs : List MmFeature}
    (h : encoderItems cfg env q numComputedTokens shift i fs p = .ok p') :
    p'.numNewTokens ≤ max p.numNewTokens 0 := by
  induction fs generalizing i p with
  | nil =>
    cases h
    exact le_max_left _ _
  | cons f rest ih =>
    obtain ⟨⟨goOn, p₁⟩, hitem, h⟩ := bind_eq_ok.mp h
    have hp₁ := encoderItem_tokens_le hitem
    dsimp only at h
    split at h
    · have := ih h
      omega
    · cases h
      exact hp₁

/-- Encoder inputs only cut a grant short. -/
theorem tryScheduleEncoderInputs_tokens_le {enc : E} {numNewTokens encoderComputeBudget : ℤ}
    (h : tryScheduleEncoderInputs cfg env enc q numComputedTokens numNewTokens
      encoderComputeBudget shift = .ok p) : p.numNewTokens ≤ max numNewTokens 0 := by
  unfold tryScheduleEncoderInputs at h
  dsimp only at h
  split at h
  · cases h
    exact le_max_left _ _
  · exact encoderItems_tokens_le h

end Encoder

/-- The alignment of mamba blocks only cuts a grant short. -/
theorem alignTokens_le {cfg : Config} {q : Request} {n m numLocal numExternal : ℤ}
    (h : alignTokens cfg q n numLocal numExternal = .ok m) : m ≤ max n 0 := by
  unfold alignTokens at h
  split at h
  · unfold mambaBlockAlignedSplit at h
    split at h
    · cases h
    · dsimp only at h
      generalize (cfg.cacheBlockSize : ℤ) = b at h
      split_ifs at h <;> cases h
      all_goals first
        | omega
        | rcases eq_or_ne b 0 with rfl | hb
          · simp
          · exact (Int.ediv_mul_le n hb).trans (le_max_left _ _)
  · cases h
    exact le_max_left _ _

namespace LoopState

variable {K E : Type} [KVCacheManager K] [EncoderCache E] {cfg : Config} {env : StepEnv}
  {r : ReqId} {ls : LoopState K E} {g : Grant} {enc : E}

omit [KVCacheManager K] in
/-- A running candidate is granted no more tokens than are left. -/
theorem runningGrant_le (h : ls.runningGrant cfg env r = .ok (enc, g))
    (hbudget : 0 < ls.tokenBudget) : g.numNewTokens ≤ ls.tokenBudget := by
  obtain ⟨p, hp, h⟩ := bind_eq_ok.mp h
  obtain ⟨n, hn, h⟩ := bind_eq_ok.mp h
  cases h
  have hcut := tryScheduleEncoderInputs_tokens_le hp
  have halign := alignTokens_le hn
  have htokens : runningTokens cfg (ls.req r) ls.tokenBudget ≤ ls.tokenBudget :=
    (min_le_left _ _).trans (min_le_right _ _)
  dsimp only
  omega

omit [EncoderCache E] in
/-- Aligning a grant does not raise its tokens. -/
theorem alignGrant_le {q : Request} {c : CachedPrefix} {enc₀ : E} {g₀ : Grant}
    (h : alignGrant cfg q c enc₀ g₀ = .ok (.granted enc g)) :
    g.numNewTokens ≤ max g₀.numNewTokens 0 := by
  obtain ⟨n, hn, h⟩ := bind_eq_ok.mp h
  split at h
  · cases h
  · cases h
    exact alignTokens_le hn

omit [KVCacheManager K] in
/-- A waiting candidate is granted no more tokens than are left. -/
theorem waitingGrant_le {c : CachedPrefix}
    (h : ls.waitingGrant cfg env r c = .ok (.granted enc g)) (hbudget : 0 < ls.tokenBudget) :
    g.numNewTokens ≤ ls.tokenBudget := by
  unfold waitingGrant at h
  dsimp only at h
  split at h
  · split at h
    · have := alignGrant_le h
      dsimp only at this
      omega
    · cases h
  · split at h
    · cases h
    · split at h
      · cases h
      · split at h
        · cases h
        · obtain ⟨p, hp, h⟩ := bind_eq_ok.mp h
          have hcut := tryScheduleEncoderInputs_tokens_le hp
          split at h
          · cases h
          · have := alignGrant_le h
            dsimp only at this
            omega

end LoopState

/-! ### Grants are not negative -/

section Grants

variable {E : Type} [EncoderCache E] {cfg : Config} {env : StepEnv} {q : Request}
  {numComputedTokens shift : ℤ} {p p' : EncoderPass E}

/-- An item of the pass leaves the tokens not negative. -/
theorem encoderItem_tokens_nonneg {i : ℕ} {f : MmFeature} {goOn : Bool} (hp : 0 ≤ p.numNewTokens)
    (h : encoderItem cfg env q numComputedTokens shift i f p = .ok (goOn, p')) :
    0 ≤ p'.numNewTokens := by
  cases encoderItem_outcome h with
  | beyond | encoded | computed => exact hp
  | cached _ hcached => rwa [encoderItemCached_tokens hcached]
  | rolledBack => exact le_max_left _ _
  | noRoom =>
    dsimp only
    split <;> omega
  | added _ hcached =>
    rw [encoderItemAdd_tokens]
    rwa [← encoderItemCached_tokens hcached] at hp

/-- The items of a pass leave the tokens not negative. -/
theorem encoderItems_tokens_nonneg {i : ℕ} {fs : List MmFeature} (hp : 0 ≤ p.numNewTokens)
    (h : encoderItems cfg env q numComputedTokens shift i fs p = .ok p') :
    0 ≤ p'.numNewTokens := by
  induction fs generalizing i p with
  | nil =>
    cases h
    exact hp
  | cons f rest ih =>
    obtain ⟨⟨goOn, p₁⟩, hitem, h⟩ := bind_eq_ok.mp h
    have hp₁ := encoderItem_tokens_nonneg hp hitem
    dsimp only at h
    split at h
    · exact ih hp₁ h
    · cases h
      exact hp₁

/-- Encoder scheduling leaves the tokens not negative. -/
theorem tryScheduleEncoderInputs_tokens_nonneg {enc : E} {numNewTokens encoderComputeBudget : ℤ}
    (hp : 0 ≤ numNewTokens) (h : tryScheduleEncoderInputs cfg env enc q numComputedTokens
      numNewTokens encoderComputeBudget shift = .ok p) : 0 ≤ p.numNewTokens := by
  unfold tryScheduleEncoderInputs at h
  dsimp only at h
  split at h
  · cases h
    exact hp
  · exact encoderItems_tokens_nonneg hp h

omit [EncoderCache E] in
/-- Aligning tokens leaves them not negative. -/
theorem alignTokens_nonneg {n m numLocal numExternal : ℤ} (hn : 0 ≤ n)
    (h : alignTokens cfg q n numLocal numExternal = .ok m) : 0 ≤ m := by
  unfold alignTokens at h
  split at h
  · unfold mambaBlockAlignedSplit at h
    split at h
    · cases h
    · dsimp only at h
      have hb : (0 : ℤ) ≤ cfg.cacheBlockSize := Int.natCast_nonneg _
      generalize (cfg.cacheBlockSize : ℤ) = b at h hb
      split_ifs at h <;> cases h
      all_goals first
        | omega
        | exact Int.mul_nonneg (Int.ediv_nonneg hn hb) hb
  · cases h
    exact hn

omit [EncoderCache E] in
/-- Aligning a grant leaves its tokens not negative. -/
theorem alignGrant_nonneg {c : CachedPrefix} {enc enc' : E} {g g' : Grant}
    (hg : 0 ≤ g.numNewTokens)
    (h : LoopState.alignGrant cfg q c enc g = .ok (.granted enc' g')) : 0 ≤ g'.numNewTokens := by
  obtain ⟨n, hn, h⟩ := bind_eq_ok.mp h
  have hnonneg := alignTokens_nonneg hg hn
  split at h
  · cases h
  · cases h
    exact hnonneg

/-- A waiting candidate is granted no negative number of tokens. -/
theorem LoopState.waitingGrant_nonneg {K : Type} {ls : LoopState K E} {r : ReqId} {c : CachedPrefix}
    {enc : E} {g : Grant} (h : ls.waitingGrant cfg env r c = .ok (.granted enc g)) :
    0 ≤ g.numNewTokens := by
  unfold waitingGrant at h
  dsimp only at h
  split at h
  · split at h
    · exact alignGrant_nonneg (le_refl 0) h
    · cases h
  split at h
  · cases h
  split at h
  · cases h
  rename_i hpos
  split at h
  · cases h
  obtain ⟨p, hp, h⟩ := bind_eq_ok.mp h
  have hnonneg := tryScheduleEncoderInputs_tokens_nonneg (by omega) hp
  split at h
  · cases h
  · exact alignGrant_nonneg hnonneg h

end Grants

end RpsServe
