import RpsServe.Scheduler.Outcome

/-!
# The lookups of a candidate

Which items the walk over a candidate's items looks up in the encoder cache, and the cache
at that moment. What every lookup and every making of room keeps holds of the cache when
the walk ends.
-/

namespace RpsServe

variable {E : Type} [EncoderCache E] {cfg : Config} {env : StepEnv} {q : Request}
  {numComputedTokens shift : ℤ}

/-- The walk comes to the lookup of an item. -/
def looksUp (cfg : Config) (numComputedTokens shift : ℤ) (f : MmFeature) (p : EncoderPass E) : Bool :=
  f.offset < numComputedTokens + p.numNewTokens + shift && numComputedTokens < f.offset + f.length &&
    !cfg.isEncoderDecoder && f.identifier ∉ p.mmHashesToSchedule

/-- The items that the walk looks up from index `i` on, with the cache at that moment. -/
def encoderLookups (cfg : Config) (env : StepEnv) (q : Request) (numComputedTokens shift : ℤ) :
    (i : ℕ) → List MmFeature → EncoderPass E → List (ℕ × E)
  | _, [], _ => []
  | i, f :: rest, p =>
    (if looksUp cfg numComputedTokens shift f p then [(i, p.enc)] else []) ++
      match encoderItem cfg env q numComputedTokens shift i f p with
      | .ok (true, p') => encoderLookups cfg env q numComputedTokens shift (i + 1) rest p'
      | _ => []

/-- The lookups of `_try_schedule_encoder_inputs`. -/
def tryLookups (cfg : Config) (env : StepEnv) (enc : E) (q : Request)
    (numComputedTokens numNewTokens encoderComputeBudget : ℤ) : List (ℕ × E) :=
  if numNewTokens = 0 ∨ ¬ q.hasEncoderInputs then []
  else encoderLookups cfg env q numComputedTokens cfg.shiftComputedTokens 0 q.mmFeatures
    { enc := enc, numNewTokens := numNewTokens, encoderComputeBudget := encoderComputeBudget }

/-- What is kept of the cache by the lookups of a walk and by making room. -/
structure LookupRule (q : Request) (lookups : List (ℕ × E)) (I : E → Prop) : Prop where
  lookup : ∀ j enc hit enc', (j, enc) ∈ lookups → j < q.mmFeatures.length → I enc →
    EncoderCache.checkAndUpdateCache enc q j = .ok (hit, enc') → I enc'
  room : ∀ j enc budget embeds fits enc', I enc →
    EncoderCache.canAllocate enc q j budget embeds = .ok (fits, enc') → I enc'

variable {I : E → Prop} {i : ℕ} {f : MmFeature} {rest : List MmFeature} {p p' : EncoderPass E}
  {goOn : Bool}

omit [EncoderCache E] in
/-- Adding an item leaves the encoder cache. -/
theorem encoderItemAdd_enc : (encoderItemAdd cfg env i f numComputedTokens p).enc = p.enc := by
  unfold encoderItemAdd
  dsimp only
  split
  · rfl
  · split <;> rfl

/-- One item of the walk. -/
theorem encoderItem_rule (h : encoderItem cfg env q numComputedTokens shift i f p = .ok (goOn, p'))
    (hi : i < q.mmFeatures.length) (hp : I p.enc)
    (hrule : LookupRule q (encoderLookups cfg env q numComputedTokens shift i (f :: rest) p) I) :
    I p'.enc := by
  have hlooked : ∀ {hit p₁}, p.Needs numComputedTokens shift f →
      encoderItemCached cfg q i f p = .ok (hit, p₁) → I p₁.enc := by
    intro hit p₁ hneeds hcached
    cases encoderItemCached_outcome hcached with
    | encoderDecoder | repeated => exact hp
    | looked hdecoder hnew hcheck =>
      refine hrule.lookup i _ _ _ ?_ hi hp hcheck
      have hlooks : looksUp cfg numComputedTokens shift f p = true := by
        simp only [looksUp, Bool.and_eq_true, decide_eq_true_eq, Bool.not_eq_true']
        exact ⟨⟨hneeds, hdecoder⟩, hnew⟩
      rw [encoderLookups, if_pos hlooks]
      exact List.mem_append_left _ List.mem_cons_self
  cases encoderItem_outcome h with
  | beyond | encoded | computed => exact hp
  | cached hneeds hcached => exact hlooked hneeds hcached
  | rolledBack hneeds hcached =>
    have henc := hlooked hneeds hcached
    exact henc
  | noRoom hneeds hcached hcan => exact hrule.room i _ _ _ _ _ (hlooked hneeds hcached) hcan
  | added hneeds hcached hcan =>
    rw [encoderItemAdd_enc]
    exact hrule.room i _ _ _ _ _ (hlooked hneeds hcached) hcan

/-- What every lookup keeps holds once the items are gone through. -/
theorem encoderItems_rule {fs : List MmFeature}
    (h : encoderItems cfg env q numComputedTokens shift i fs p = .ok p')
    (hi : i + fs.length = q.mmFeatures.length) (hp : I p.enc)
    (hrule : LookupRule q (encoderLookups cfg env q numComputedTokens shift i fs p) I) :
    I p'.enc := by
  induction fs generalizing i p with
  | nil =>
    cases h
    exact hp
  | cons f rest ih =>
    rw [List.length_cons] at hi
    obtain ⟨⟨goOn, p₁⟩, hitem, h⟩ := bind_eq_ok.mp h
    have hp₁ := encoderItem_rule hitem (by omega) hp hrule
    dsimp only at h
    split at h
    · rename_i hgo
      subst hgo
      refine ih h (by omega) hp₁ ⟨fun j enc hit enc' hmem => hrule.lookup j enc hit enc' ?_, hrule.room⟩
      rw [encoderLookups, hitem]
      exact List.mem_append_right _ hmem
    · cases h
      exact hp₁

/-- The lookups of a pass follow the rule. -/
theorem tryScheduleEncoderInputs_rule {enc : E} {numNewTokens budget : ℤ} {p' : EncoderPass E}
    (h : tryScheduleEncoderInputs cfg env enc q numComputedTokens numNewTokens budget
      cfg.shiftComputedTokens = .ok p')
    (henc : I enc)
    (hrule : LookupRule q (tryLookups cfg env enc q numComputedTokens numNewTokens budget) I) :
    I p'.enc := by
  unfold tryScheduleEncoderInputs at h
  dsimp only at h
  split at h
  · cases h
    exact henc
  · rename_i hwalk
    rw [tryLookups, if_neg hwalk] at hrule
    exact encoderItems_rule h (Nat.zero_add _) henc hrule

namespace LoopState

variable {K : Type}

/-- The lookups of the round for the waiting candidate `r`. -/
def waitingLookups (cfg : Config) (env : StepEnv) (r : ReqId) (c : CachedPrefix)
    (ls : LoopState K E) : List (ℕ × E) :=
  let q := ls.req r
  let numNewTokens := cfg.capPrefill (q.numTokens - c.numComputedTokens)
  if c.loadKvAsync then []
  else if ¬ cfg.enableChunkedPrefill ∧ ls.tokenBudget < numNewTokens then []
  else
    tryLookups cfg env ls.sch.enc q c.numComputedTokens (min numNewTokens ls.tokenBudget)
      ls.encoderComputeBudget

variable {ls : LoopState K E} {r : ReqId} {c : CachedPrefix} {enc : E}

omit [EncoderCache E] in
/-- Aligning a grant leaves the encoder cache. -/
theorem alignGrant_enc {q : Request} {g : Grant} {a : Admission E}
    (h : alignGrant cfg q c enc g = .ok a) : a = .blocked enc ∨ ∃ g', a = .granted enc g' := by
  obtain ⟨n, -, h⟩ := bind_eq_ok.mp h
  split at h <;> cases h
  exacts [.inl rfl, .inr ⟨_, rfl⟩]

/-- The cache that a candidate leaves when it is neither ignored nor placed yet. -/
theorem waitingGrant_rule {a : Admission E} (h : ls.waitingGrant cfg env r c = .ok a)
    (henc : I ls.sch.enc) (hrule : LookupRule (ls.req r) (ls.waitingLookups cfg env r c) I) :
    (∀ enc, a = .blocked enc → I enc) ∧ ∀ enc g, a = .granted enc g → I enc := by
  have haligned : ∀ {q g} {enc : E}, I enc → alignGrant cfg q c enc g = .ok a →
      (∀ enc, a = .blocked enc → I enc) ∧ ∀ enc g, a = .granted enc g → I enc := by
    intro q g enc hI halign
    rcases alignGrant_enc halign with rfl | ⟨g', rfl⟩
    · exact ⟨fun _ ha => by cases ha; exact hI, nofun⟩
    · exact ⟨nofun, fun _ _ ha => by cases ha; exact hI⟩
  unfold waitingGrant at h
  unfold waitingLookups at hrule
  dsimp only at h hrule
  split at h
  · split at h
    · exact haligned henc h
    · cases h
  rename_i hsync
  rw [if_neg hsync] at hrule
  split at h
  · cases h
    exact ⟨fun _ ha => by cases ha; exact henc, nofun⟩
  rename_i hchunk
  rw [if_neg hchunk] at hrule
  split at h
  · cases h
  split at h
  · cases h
    exact ⟨nofun, nofun⟩
  obtain ⟨p, hp, h⟩ := bind_eq_ok.mp h
  have hI := tryScheduleEncoderInputs_rule hp henc hrule
  split at h
  · cases h
    exact ⟨fun _ ha => by cases ha; exact hI, nofun⟩
  · exact haligned hI h

end LoopState

end RpsServe
