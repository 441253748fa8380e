import RpsServe.Scheduler.ScheduledSets
import RpsServe.Lib.Census
import Mathlib.Algebra.Order.BigOperators.Group.List

/-!
# The budgets of a step

A step spends a budget of tokens and a budget of encoder embeddings. What a candidate is given
is taken off both, and rolling a victim back returns what it was given. The encoder budget left
after a candidate is computed before its blocks are allocated and written back afterwards,
so that what the allocation returns in between is lost when the candidate has encoder inputs
of its own. Otherwise both budgets add up at the head of every round.
-/

namespace RpsServe

open LoopState (encoderEmbeds)

/-! ### The encoder budget of a candidate -/

section Encoder

variable {E : Type} {q q' : Request} {inputs : List ℕ} {i : ℕ} {budget : ℤ}

/-- The embeddings of inputs depend on the items alone. -/
theorem encoderEmbeds_congr (h : q'.mmFeatures = q.mmFeatures) (inputs : List ℕ) :
    encoderEmbeds q' inputs = encoderEmbeds q inputs := by
  simp only [encoderEmbeds, Request.getNumEncoderEmbeds, h]

/-- One more input adds its embeddings. -/
theorem encoderEmbeds_append :
    encoderEmbeds q (inputs ++ [i]) = encoderEmbeds q inputs + q.getNumEncoderEmbeds i := by
  simp [encoderEmbeds]

/-- The embeddings of inputs are not negative. -/
theorem encoderEmbeds_nonneg (q : Request) (inputs : List ℕ) : 0 ≤ encoderEmbeds q inputs :=
  List.sum_nonneg fun n hn => by
    obtain ⟨i, -, rfl⟩ := List.mem_map.mp hn
    exact Int.natCast_nonneg _

/-- The listed items are paid from the budget. -/
structure Spends (q : Request) (budget : ℤ) (inputs : List ℕ) (left : ℤ) : Prop where
  left_eq : left = budget - encoderEmbeds q inputs
  nonneg : 0 ≤ left

/-- Without inputs the budget is as it was. -/
theorem Spends.nothing (h : 0 ≤ budget) : Spends q budget [] budget :=
  ⟨by simp [encoderEmbeds], h⟩

/-- The items found so far are paid from the budget. -/
abbrev EncoderPass.Paid (q : Request) (budget : ℤ) (p : EncoderPass E) : Prop :=
  Spends q budget p.encoderInputsToSchedule p.encoderComputeBudget

variable [EncoderCache E] {cfg : Config} {env : StepEnv} {f : MmFeature}
  {numComputedTokens shift : ℤ} {goOn : Bool} {p p' : EncoderPass E}

/-- Looking up a cached item pays nothing. -/
theorem encoderItemCached_paid {hit : Bool} (hp : p.Paid q budget)
    (h : encoderItemCached cfg q i f p = .ok (hit, p')) : p'.Paid q budget := by
  cases encoderItemCached_outcome h with
  | encoderDecoder | repeated | looked => exact hp

omit [EncoderCache E] in
/-- An item that is added is paid for. -/
theorem encoderItemAdd_paid (hf : q.mmFeatures[i]? = some f) (hp : p.Paid q budget)
    (hle : (q.getNumEncoderEmbeds i : ℤ) ≤ p.encoderComputeBudget) :
    (encoderItemAdd cfg env i f numComputedTokens p).Paid q budget := by
  have hembeds : q.getNumEncoderEmbeds i = f.getNumEmbeds := by
    simp [Request.getNumEncoderEmbeds, hf]
  have hleft := hp.left_eq
  unfold encoderItemAdd
  dsimp only
  split
  · exact hp
  · split
    · exact hp
    · refine ⟨?_, ?_⟩
      · rw [encoderEmbeds_append, hembeds]
        dsimp only
        omega
      · dsimp only
        omega

variable [BudgetedEncoderCache E]

/-- An item of the pass is paid for. -/
theorem encoderItem_paid (hf : q.mmFeatures[i]? = some f) (hp : p.Paid q budget)
    (h : encoderItem cfg env q numComputedTokens shift i f p = .ok (goOn, p')) :
    p'.Paid q budget := by
  cases encoderItem_outcome h with
  | beyond | encoded | computed => exact hp
  | cached _ hcached => exact encoderItemCached_paid hp hcached
  | rolledBack _ hcached | noRoom _ hcached =>
    have hp₁ := encoderItemCached_paid hp hcached
    exact ⟨hp₁.left_eq, hp₁.nonneg⟩
  | added _ hcached hcan =>
    have hp₁ := encoderItemCached_paid hp hcached
    exact encoderItemAdd_paid hf ⟨hp₁.left_eq, hp₁.nonneg⟩
      (BudgetedEncoderCache.embeds_le_of_canAllocate hcan)

/-- The items of a pass are paid for. -/
theorem encoderItems_paid {fs : List MmFeature} (hfs : q.mmFeatures.drop i = fs)
    (hp : p.Paid q budget) (h : encoderItems cfg env q numComputedTokens shift i fs p = .ok p') :
    p'.Paid q budget := by
  induction fs generalizing i p with
  | nil =>
    cases h
    exact hp
  | cons f rest ih =>
    have hf : q.mmFeatures[i]? = some f := by
      rw [← List.head?_drop, hfs]
      rfl
    have hrest : q.mmFeatures.drop (i + 1) = rest := by
      rw [← List.tail_drop, hfs]
      rfl
    obtain ⟨⟨goOn, p₁⟩, hitem, h⟩ := bind_eq_ok.mp h
    have hp₁ := encoderItem_paid hf hp hitem
    dsimp only at h
    split at h
    · exact ih hrest hp₁ h
    · cases h
      exact hp₁

/-- What is scheduled of a request's items is paid from the budget. -/
theorem tryScheduleEncoderInputs_paid {enc : E} {numNewTokens : ℤ} (hbudget : 0 ≤ budget)
    (h : tryScheduleEncoderInputs cfg env enc q numComputedTokens numNewTokens budget shift = .ok p) :
    p.Paid q budget := by
  unfold tryScheduleEncoderInputs at h
  dsimp only at h
  split at h
  · cases h
    exact .nothing hbudget
  · exact encoderItems_paid List.drop_zero (.nothing hbudget) h

end Encoder

namespace LoopState

variable {K E : Type}

/-- The embeddings of all encoder inputs that are scheduled. -/
def scheduledEmbeds (ls : LoopState K E) : ℤ :=
  ls.scheduledEncoderInputs.weight fun r inputs => encoderEmbeds (ls.req r) inputs

/-- What was spent since the walk began in `ls₀` is what is scheduled, and no budget is overdrawn. -/
structure Balanced (ls₀ ls : LoopState K E) : Prop where
  tokens : ls.tokenBudget = ls₀.tokenBudget - ls.numScheduledTokens.values.sum
  tokens_nonneg : 0 ≤ ls.tokenBudget
  embeds : ls.encoderComputeBudget = ls₀.encoderComputeBudget - ls.scheduledEmbeds
  embeds_nonneg : 0 ≤ ls.encoderComputeBudget

/-- Besides, only requests with tokens have scheduled encoder inputs. -/
structure Accounted (ls₀ ls : LoopState K E) : Prop extends Balanced ls₀ ls where
  inputs_keys : ∀ r ∈ ls.scheduledEncoderInputs.keys, r ∈ ls.numScheduledTokens.keys

/-- No budget and nothing scheduled differs. -/
structure SameAccounts (ls ls' : LoopState K E) : Prop where
  tokenBudget : ls'.tokenBudget = ls.tokenBudget
  numScheduledTokens : ls'.numScheduledTokens = ls.numScheduledTokens
  encoderComputeBudget : ls'.encoderComputeBudget = ls.encoderComputeBudget
  scheduledEncoderInputs : ls'.scheduledEncoderInputs = ls.scheduledEncoderInputs
  items : ∀ r, (ls'.req r).mmFeatures = (ls.req r).mmFeatures

variable {ls₀ ls ls' t t' : LoopState K E} {r q v : ReqId} {g : Grant}

/-- States with the same accounts as the same state have the same accounts. -/
theorem SameAccounts.trans {ls₁ ls₂ : LoopState K E} (h : SameAccounts ls ls₁)
    (h' : SameAccounts ls₁ ls₂) : SameAccounts ls ls₂ where
  tokenBudget := h'.tokenBudget.trans h.tokenBudget
  numScheduledTokens := h'.numScheduledTokens.trans h.numScheduledTokens
  encoderComputeBudget := h'.encoderComputeBudget.trans h.encoderComputeBudget
  scheduledEncoderInputs := h'.scheduledEncoderInputs.trans h.scheduledEncoderInputs
  items r := (h'.items r).trans (h.items r)

/-- An assignment to a request that keeps its items. -/
theorem sameAccounts_modifyReq (ls : LoopState K E) (r : ReqId) {f : Request → Request}
    (hf : ∀ q, (f q).mmFeatures = q.mmFeatures) : SameAccounts ls (ls.modifyReq r f) :=
  ⟨rfl, rfl, rfl, rfl, Scheduler.modifyReq_keeps ls.sch r f Request.mmFeatures hf⟩

/-- Ignoring a request leaves the accounts. -/
theorem ignore_sameAccounts {f : Flow (LoopState K E)} (h : ls.ignore r = .ok f) :
    SameAccounts ls f.toPass.state := by
  obtain ⟨qm', -, rfl⟩ := ignore_eq_ok h
  exact (sameAccounts_modifyReq ls r (f := fun q => { q with status := .finishedIgnored })
    fun _ => rfl).trans ⟨rfl, rfl, rfl, rfl, fun _ => rfl⟩

/-- Skipping a request leaves the accounts. -/
theorem skip_sameAccounts {f : Flow (LoopState K E)} (h : ls.skip = .ok f) :
    SameAccounts ls f.toPass.state := by
  obtain ⟨qm', -, rfl⟩ := skip_eq_ok h
  exact ⟨rfl, rfl, rfl, rfl, fun _ => rfl⟩

/-- The embeddings of a step depend on its inputs and on the items alone. -/
theorem scheduledEmbeds_congr (hinputs : ls'.scheduledEncoderInputs = ls.scheduledEncoderInputs)
    (hitems : ∀ r, (ls'.req r).mmFeatures = (ls.req r).mmFeatures) :
    ls'.scheduledEmbeds = ls.scheduledEmbeds := by
  rw [scheduledEmbeds, hinputs]
  exact Dict.weight_congr fun r inputs => encoderEmbeds_congr (hitems r) inputs

/-- The same accounts stay balanced. -/
theorem Accounted.of_same (h : Accounted ls₀ ls) (hs : SameAccounts ls ls') : Accounted ls₀ ls' where
  tokens := by rw [hs.tokenBudget, hs.numScheduledTokens, h.tokens]
  tokens_nonneg := hs.tokenBudget ▸ h.tokens_nonneg
  embeds := by
    rw [hs.encoderComputeBudget, h.embeds,
      scheduledEmbeds_congr hs.scheduledEncoderInputs hs.items]
  embeds_nonneg := hs.encoderComputeBudget ▸ h.embeds_nonneg
  inputs_keys := by
    rw [hs.scheduledEncoderInputs, hs.numScheduledTokens]
    exact h.inputs_keys

/-! ### Returning what a victim was given -/

/-- The items that are scheduled for a request have these embeddings. -/
def embedsOf (ls : LoopState K E) (v : ReqId) : ℤ :=
  encoderEmbeds (ls.req v) ((ls.scheduledEncoderInputs.get? v).getD [])

/-- Without the inputs of a request, the embeddings of the step are fewer by its own. -/
theorem weight_erase_embeds (v : ReqId) :
    ((ls.scheduledEncoderInputs.erase v).weight fun r inputs => encoderEmbeds (ls.req r) inputs) =
      ls.scheduledEmbeds - ls.embedsOf v := by
  unfold embedsOf
  cases hget : ls.scheduledEncoderInputs.get? v with
  | none =>
    rw [Dict.weight_erase_of_none _ hget]
    simp [scheduledEmbeds, encoderEmbeds]
  | some inputs =>
    rw [Dict.weight_erase _ hget]
    rfl

/-- A rollback returns what the victim was given. -/
theorem Accounted.rollback (h : Accounted ls₀ ls) (hroll : ls.rollback v = .ok ls')
    (hpos : v ∈ ls.scheduledRunningReqs →
      ∀ n, ls.numScheduledTokens.get? v = some n → 0 ≤ n) :
    Accounted ls₀ ls' ∧ ls.tokenBudget ≤ ls'.tokenBudget := by
  rcases rollback_cases hroll with ⟨-, rfl⟩ | ⟨hv, n, blocks, hn, -, rfl⟩
  · exact ⟨h, le_rfl⟩
  · have hn₀ := hpos hv n hn
    have htokens := h.tokens
    have hembeds := h.embeds
    have hrefund : 0 ≤ ls.embedsOf v := encoderEmbeds_nonneg _ _
    refine ⟨{
      tokens := ?_
      tokens_nonneg := add_nonneg h.tokens_nonneg hn₀
      embeds := ?_
      embeds_nonneg := add_nonneg h.embeds_nonneg hrefund
      inputs_keys := fun r hr => ?_ }, le_add_of_nonneg_right hn₀⟩
    · show ls.tokenBudget + n = ls₀.tokenBudget - (ls.numScheduledTokens.erase v).values.sum
      rw [Dict.values_sum, Dict.weight_erase _ hn, ← Dict.values_sum]
      omega
    · show ls.encoderComputeBudget + ls.embedsOf v = ls₀.encoderComputeBudget -
        (ls.scheduledEncoderInputs.erase v).weight fun r inputs => encoderEmbeds (ls.req r) inputs
      rw [weight_erase_embeds]
      omega
    · obtain ⟨hr, hne⟩ := (Dict.mem_keys_erase _ _ _).mp hr
      exact (Dict.mem_keys_erase _ _ _).mpr ⟨h.inputs_keys r hr, hne⟩

variable [KVCacheManager K] [EncoderCache E] {cfg : Config} {env : StepEnv}
  {args : AllocateSlotsArgs}

/-- What the allocation loop of a candidate may do to the accounts: the candidate has no tokens
yet, and what is returned is neither a debt nor, while the budget after a candidate with encoder
inputs is fixed already, encoder budget. -/
structure KeepsAccount (r : ReqId) (args : AllocateSlotsArgs) (g : Grant) (ls : LoopState K E) :
    Prop where
  once : r ∉ ls.numScheduledTokens.keys
  noDebt : ∀ t l v kv, Visits (allocRound r args) ls t → Preempts r args t l v kv →
    v ∈ t.scheduledRunningReqs → ∀ n, t.numScheduledTokens.get? v = some n → 0 ≤ n
  noEmbeds : g.encoderInputsToSchedule ≠ [] → ∀ t l v kv, Visits (allocRound r args) ls t →
    Preempts r args t l v kv → v ∈ t.scheduledRunningReqs → t.embedsOf v = 0

/-- The accounts when the allocation loop that began in `ls` has come to `t`. -/
structure AllocAccounted (ls₀ ls : LoopState K E) (r : ReqId) (g : Grant) (t : LoopState K E) :
    Prop extends Accounted ls₀ t where
  fresh : r ∉ t.numScheduledTokens.keys
  budget_le : ls.tokenBudget ≤ t.tokenBudget
  encoderBudget : g.encoderInputsToSchedule ≠ [] → t.encoderComputeBudget = ls.encoderComputeBudget
  items : ∀ x, (t.req x).mmFeatures = (ls.req x).mmFeatures

/-- The preemptions of an allocation loop keep the accounts. -/
theorem AllocAccounted.preempt {l : ℕ} {kv : K} (h : AllocAccounted ls₀ ls r g t)
    (hkeeps : KeepsAccount r args g ls) (ht : Visits (allocRound r args) ls t)
    (hpre : Preempts r args t l v kv) (hvictim : (t.setKv kv).preemptVictim v = .ok t') :
    AllocAccounted ls₀ ls r g t' := by
  obtain ⟨t₁, qm', hroll, -, -, rfl⟩ := preemptVictim_eq_ok hvictim
  have hset : Accounted ls₀ (t.setKv kv) :=
    h.toAccounted.of_same ⟨rfl, rfl, rfl, rfl, fun _ => rfl⟩
  obtain ⟨hacc, hle⟩ := hset.rollback hroll (hkeeps.noDebt t l v kv ht hpre)
  have hsch : t₁.sch = (t.setKv kv).sch := rollback_sch hroll
  have hitems : ∀ x, (Objs.req (t.sch.objs.modify v Scheduler.preempted) x).mmFeatures =
      (t.req x).mmFeatures :=
    Scheduler.modifyReq_keeps t.sch v Scheduler.preempted Request.mmFeatures fun _ => rfl
  refine {
    toAccounted := hacc.of_same ⟨rfl, rfl, rfl, rfl, fun x => ?_⟩
    fresh := fun hr => h.fresh ?_
    budget_le := h.budget_le.trans hle
    encoderBudget := fun hg => ?_
    items := fun x => (hitems x).trans (h.items x) }
  · have hreq : t₁.req x = (t.setKv kv).req x := congrArg (fun s => Scheduler.req s x) hsch
    rw [hreq]
    exact hitems x
  · rcases rollback_cases hroll with ⟨-, rfl⟩ | ⟨-, _, _, -, -, rfl⟩
    · exact hr
    · exact ((Dict.mem_keys_erase _ _ _).mp hr).1
  · rw [← h.encoderBudget hg]
    rcases rollback_cases hroll with ⟨-, rfl⟩ | ⟨hv, _, _, -, -, rfl⟩
    · rfl
    · show t.encoderComputeBudget + t.embedsOf v = t.encoderComputeBudget
      rw [hkeeps.noEmbeds hg t l v kv ht hpre hv, add_zero]

/-- The accounts when blocks were found. -/
theorem Accounted.allocLoop {blocks : KVCacheBlocks} (h : Accounted ls₀ ls)
    (hkeeps : KeepsAccount r args g ls) (halloc : ls.allocLoop r args = .ok (some blocks, ls')) :
    AllocAccounted ls₀ ls r g ls' := by
  obtain ⟨t, ht, hexit⟩ := allocLoop_outcome halloc
  have hacc : AllocAccounted ls₀ ls r g t :=
    alloc_invariant ht ⟨h, hkeeps.once, le_rfl, fun _ => rfl, fun _ => rfl⟩
      fun u l v kv u' hu hI hpre _ hvictim => hI.preempt hkeeps hu hpre hvictim
  cases hexit with
  | found =>
    exact {
      toAccounted := hacc.toAccounted.of_same ⟨rfl, rfl, rfl, rfl, fun _ => rfl⟩
      fresh := hacc.fresh
      budget_le := hacc.budget_le
      encoderBudget := hacc.encoderBudget
      items := hacc.items }

/-! ### What a candidate is given -/

variable [BudgetedEncoderCache E] {enc : E}

omit [KVCacheManager K] in
/-- A running candidate spends of the budget what its inputs have. -/
theorem runningGrant_spends (h : ls.runningGrant cfg env r = .ok (enc, g))
    (hbudget : 0 ≤ ls.encoderComputeBudget) : Spends (ls.req r) ls.encoderComputeBudget
      g.encoderInputsToSchedule g.newEncoderComputeBudget := by
  obtain ⟨p, hp, h⟩ := bind_eq_ok.mp h
  obtain ⟨n, -, h⟩ := bind_eq_ok.mp h
  cases h
  exact tryScheduleEncoderInputs_paid hbudget hp

omit [EncoderCache E] [BudgetedEncoderCache E] in
/-- The alignment of mamba blocks leaves the encoder inputs of a grant. -/
theorem alignGrant_inputs {c : CachedPrefix} {q : Request} {enc₀ : E} {g₀ : Grant}
    (h : alignGrant cfg q c enc₀ g₀ = .ok (.granted enc g)) :
    g.encoderInputsToSchedule = g₀.encoderInputsToSchedule ∧
      g.newEncoderComputeBudget = g₀.newEncoderComputeBudget := by
  obtain ⟨n, -, h⟩ := bind_eq_ok.mp h
  split at h
  · cases h
  · cases h
    exact ⟨rfl, rfl⟩

omit [KVCacheManager K] in
/-- A waiting candidate spends of the budget what its inputs have. -/
theorem waitingGrant_spends {c : CachedPrefix}
    (h : ls.waitingGrant cfg env r c = .ok (.granted enc g))
    (hbudget : 0 ≤ ls.encoderComputeBudget) : Spends (ls.req r) ls.encoderComputeBudget
      g.encoderInputsToSchedule g.newEncoderComputeBudget := by
  unfold waitingGrant at h
  dsimp only at h
  split at h
  · split at h
    · obtain ⟨hinputs, hleft⟩ := alignGrant_inputs h
      rw [hinputs, hleft]
      exact .nothing hbudget
    · cases h
  · split at h
    · cases h
    · split at h
      · cases h
      · split at h
        · cases h
        · obtain ⟨p, hp, h⟩ := bind_eq_ok.mp h
          split at h
          · cases h
          · obtain ⟨hinputs, hleft⟩ := alignGrant_inputs h
            rw [hinputs, hleft]
            exact tryScheduleEncoderInputs_paid hbudget hp

/-- A grant is taken off the budgets. -/
structure Gives (r : ReqId) (g : Grant) (ls ls' : LoopState K E) : Prop where
  numScheduledTokens : ls'.numScheduledTokens = ls.numScheduledTokens.set r g.numNewTokens
  tokenBudget : ls'.tokenBudget = ls.tokenBudget - g.numNewTokens
  scheduledEncoderInputs : ls'.scheduledEncoderInputs =
    if g.encoderInputsToSchedule = [] then ls.scheduledEncoderInputs
    else ls.scheduledEncoderInputs.set r g.encoderInputsToSchedule
  encoderComputeBudget : ls'.encoderComputeBudget =
    if g.encoderInputsToSchedule = [] then ls.encoderComputeBudget else g.newEncoderComputeBudget
  items : ∀ x, (ls'.req x).mmFeatures = (ls.req x).mmFeatures

omit [KVCacheManager K] [BudgetedEncoderCache E] in
/-- Scheduling a running request gives it what was granted. -/
theorem scheduleRunning_gives {blocks : KVCacheBlocks} (h : ls.scheduleRunning r g blocks = .ok ls') :
    Gives r g ls ls' := by
  obtain ⟨enc, spec, -, rfl⟩ := scheduleRunning_eq_ok h
  exact ⟨rfl, rfl, rfl, rfl, Scheduler.modifyReq_keeps ls.sch r
    (fun q => { q with specTokenIds := [] }) Request.mmFeatures fun _ => rfl⟩

omit [BudgetedEncoderCache E] in
/-- Admitting a waiting request gives it what was granted. -/
theorem admitWaiting_gives {c : CachedPrefix} (h : ls.admitWaiting cfg r c g = .ok ls') :
    Gives r g ls ls' := by
  obtain ⟨newReqs, resumedReqs, qm', enc, -, -, -, rfl⟩ := admitWaiting_eq_ok h
  exact ⟨rfl, rfl, rfl, rfl, Scheduler.modifyReq_keeps ls.sch r
    (fun q => { q with status := .running, numComputedTokens := c.numComputedTokens })
    Request.mmFeatures fun _ => rfl⟩

omit [KVCacheManager K] [EncoderCache E] [BudgetedEncoderCache E] in
/-- A grant that the budgets cover keeps the accounts. -/
theorem Accounted.give (h : Accounted ls₀ ls) (hgives : Gives r g ls ls')
    (hfresh : r ∉ ls.numScheduledTokens.keys) (hle : g.numNewTokens ≤ ls.tokenBudget)
    (hspends : g.encoderInputsToSchedule ≠ [] → Spends (ls.req r) ls.encoderComputeBudget
      g.encoderInputsToSchedule g.newEncoderComputeBudget) : Accounted ls₀ ls' where
  tokens := by
    have htokens := h.tokens
    rw [hgives.tokenBudget, hgives.numScheduledTokens, Dict.values_sum, Dict.weight_set _ hfresh,
      ← Dict.values_sum]
    omega
  tokens_nonneg := by
    rw [hgives.tokenBudget]
    omega
  embeds := by
    have hembeds := h.embeds
    by_cases hg : g.encoderInputsToSchedule = []
    · rw [hgives.encoderComputeBudget, if_pos hg, hembeds]
      congr 1
      refine (scheduledEmbeds_congr ?_ hgives.items).symm
      rw [hgives.scheduledEncoderInputs, if_pos hg]
    · have hleft := (hspends hg).left_eq
      have hset : ls'.scheduledEmbeds =
          ls.scheduledEmbeds + encoderEmbeds (ls.req r) g.encoderInputsToSchedule := by
        rw [scheduledEmbeds, hgives.scheduledEncoderInputs, if_neg hg,
          Dict.weight_congr fun x inputs => encoderEmbeds_congr (hgives.items x) inputs]
        exact Dict.weight_set _ fun hr => hfresh (h.inputs_keys r hr)
      rw [hgives.encoderComputeBudget, if_neg hg, hset]
      omega
  embeds_nonneg := by
    rw [hgives.encoderComputeBudget]
    split
    · exact h.embeds_nonneg
    · rename_i hg
      exact (hspends hg).nonneg
  inputs_keys x hx := by
    rw [hgives.numScheduledTokens, Dict.mem_keys_set]
    rw [hgives.scheduledEncoderInputs] at hx
    split at hx
    · exact .inr (h.inputs_keys x hx)
    · exact ((Dict.mem_keys_set _ _ _ _).mp hx).imp_right (h.inputs_keys x)

omit [BudgetedEncoderCache E] in
/-- A candidate whose blocks were found is given its grant. -/
theorem Accounted.allocLoop_give {blocks : KVCacheBlocks} (h : Accounted ls₀ ls)
    (hkeeps : KeepsAccount r args g ls) (halloc : ls.allocLoop r args = .ok (some blocks, t))
    (hgives : Gives r g t t') (hle : g.numNewTokens ≤ ls.tokenBudget)
    (hspends : Spends (ls.req r) ls.encoderComputeBudget g.encoderInputsToSchedule
      g.newEncoderComputeBudget) : Accounted ls₀ t' := by
  have hacc := h.allocLoop hkeeps halloc
  refine hacc.toAccounted.give hgives hacc.fresh (hle.trans hacc.budget_le) fun hg => ⟨?_, hspends.nonneg⟩
  rw [hspends.left_eq, hacc.encoderBudget hg, encoderEmbeds_congr (hacc.items r)]

/-! ### Rounds -/

/-- Every allocation loop of the round that finds blocks keeps the accounts. -/
def RoundKeepsAccounts (cfg : Config) (env : StepEnv) (ls : LoopState K E) : Prop :=
  ∀ r args g ls₁, ls.Allocates cfg env r args g ls₁ →
    (∃ blocks ls', ls₁.allocLoop r args = .ok (some blocks, ls')) → KeepsAccount r args g ls₁

variable {ls₁ : LoopState K E} {f : Flow (LoopState K E)}

omit [KVCacheManager K] [EncoderCache E] [BudgetedEncoderCache E] in
/-- Changing the encoder cache leaves the accounts balanced. -/
theorem Accounted.setEnc (h : Accounted ls₀ ls) (enc : E) : Accounted ls₀ (ls.setEnc enc) :=
  h.of_same ⟨rfl, rfl, rfl, rfl, fun _ => rfl⟩

omit [KVCacheManager K] [EncoderCache E] [BudgetedEncoderCache E] in
/-- A round that goes on with the same accounts leaves them balanced. -/
theorem Accounted.of_flow (h : Accounted ls₀ ls) (hs : SameAccounts ls f.toPass.state)
    (hf : f.toPass = .next ls') : Accounted ls₀ ls' := by
  rw [hf] at hs
  exact h.of_same hs

/-- The branch of a running candidate keeps the accounts. -/
theorem Accounted.running (h : Accounted ls₀ ls) (hkeeps : RoundKeepsAccounts cfg env ls)
    (htreats : ls.Treats r) (hR : r ∈ ls.qm.runningReqIds)
    (hrun : ls.runningCandidate cfg env r = .ok f) (hf : f.toPass = .next ls') :
    Accounted ls₀ ls' := by
  cases runningCandidate_outcome hrun with
  | noTokens =>
    cases hf
    exact h.of_same ⟨rfl, rfl, rfl, rfl, fun _ => rfl⟩
  | noBlocks => cases hf
  | @scheduled enc _ _ _ _ hgrant hpos halloc hsched =>
    cases hf
    have hplaced := hkeeps _ _ _ _ (.running htreats hR hgrant hpos) ⟨_, _, halloc⟩
    have hle := runningGrant_le hgrant htreats.budget
    have hspends := runningGrant_spends hgrant h.embeds_nonneg
    exact (h.setEnc enc).allocLoop_give hplaced halloc (scheduleRunning_gives hsched) hle hspends

/-- Where a candidate is reached, the accounts are balanced. -/
theorem ReachesWaiting.accounted (hreach : ls.ReachesWaiting cfg env r ls₁)
    (h : Accounted ls₀ ls) (hkeeps : RoundKeepsAccounts cfg env ls) (htreats : ls.Treats r) :
    Accounted ls₀ ls₁ := by
  unfold ReachesWaiting at hreach
  split at hreach
  · rename_i hR
    exact h.running hkeeps htreats hR hreach rfl
  · cases hreach
    exact h

omit [BudgetedEncoderCache E] in
/-- A candidate without tokens comes to the waiting branch with the round's own variables. -/
theorem ReachesWaiting.eq (hreach : ls.ReachesWaiting cfg env r ls₁)
    (hfresh : r ∉ ls₁.numScheduledTokens.keys) : ls₁ = ls := by
  unfold ReachesWaiting at hreach
  split at hreach
  · generalize hf : Flow.fall ls₁ = f at hreach
    cases runningCandidate_outcome hreach with
    | noTokens => cases hf
    | noBlocks => cases hf
    | scheduled _ _ _ hsched =>
      cases hf
      rw [(scheduleRunning_gives hsched).numScheduledTokens, Dict.mem_keys_set] at hfresh
      exact absurd (.inl rfl) hfresh
  · cases hreach
    rfl

/-- The branch of a waiting candidate keeps the accounts. -/
theorem Accounted.waiting (h : Accounted ls₀ ls) (hkeeps : RoundKeepsAccounts cfg env ls)
    (htreats : ls.Treats r) (hreach : ls.ReachesWaiting cfg env r ls₁)
    (hW : r ∈ ls₁.qm.waitingReqIds) (hwait : ls₁.waitingCandidate cfg env r = .ok f)
    (hf : f.toPass = .next ls') : Accounted ls₀ ls' := by
  have h₁ := hreach.accounted h hkeeps htreats
  cases hsize : oversizePrompt cfg (ls₁.req r) with
  | true =>
    rw [waitingCandidate, if_pos hsize] at hwait
    exact h₁.of_flow (ignore_sameAccounts hwait) hf
  | false =>
    cases waitingCandidate_outcome hwait with
    | ignoredPrompt _ hignore => exact h₁.of_flow (ignore_sameAccounts hignore) hf
    | skipped _ hskip => exact h₁.of_flow (skip_sameAccounts hskip) hf
    | ignoredEncoderInputs _ _ hignore => exact h₁.of_flow (ignore_sameAccounts hignore) hf
    | blocked => cases hf
    | noBlocks => cases hf
    | @loading c enc _ _ ls₂ _ hc hg halloc hload hskip =>
      have hplaced := hkeeps _ _ _ _ (.waiting htreats hreach hW hsize hc hg) ⟨_, _, halloc⟩
      have hacc := (h₁.setEnc enc).allocLoop hplaced halloc
      have hmodified := sameAccounts_modifyReq ls₂ r
        (f := fun q => { q with
          status := .waitingForRemoteKvs
          numComputedTokens := c.numComputedTokens }) fun _ => rfl
      exact (hacc.toAccounted.of_same hmodified).of_flow (skip_sameAccounts hskip) hf
    | @admitted _ enc _ _ _ _ hc hg halloc _ hadmitted =>
      cases hf
      have hplaced := hkeeps _ _ _ _ (.waiting htreats hreach hW hsize hc hg) ⟨_, _, halloc⟩
      obtain rfl := hreach.eq hplaced.once
      have hle := waitingGrant_le hg htreats.budget
      have hspends := waitingGrant_spends hg h.embeds_nonneg
      exact (h.setEnc enc).allocLoop_give hplaced halloc (admitWaiting_gives hadmitted) hle hspends

/-- A round keeps the accounts. -/
theorem Accounted.round (h : Accounted ls₀ ls) (hkeeps : RoundKeepsAccounts cfg env ls)
    (hround : ls.round cfg env = .ok (.next ls')) : Accounted ls₀ ls' := by
  rcases round_cases hround with hp | hp | ⟨r, f, htreats, hf, hp⟩
  · cases hp
  · cases hp
    exact h.of_same ⟨rfl, rfl, rfl, rfl, fun _ => rfl⟩
  · rcases candidate_cases hf with ⟨hR, hrun⟩ | ⟨ls₁, hreach, ⟨hW, hwait⟩ | ⟨-, rfl⟩⟩
    · exact h.running hkeeps htreats hR hrun hp.symm
    · exact h.waiting hkeeps htreats hreach hW hwait hp.symm
    · cases hp
      exact hreach.accounted h hkeeps htreats

/-! ### Orderly rounds -/

omit [BudgetedEncoderCache E] in
/-- The allocation loop of an orderly round has nothing to return. -/
theorem Walking.keepsAccount (h : Walking ls) (hq : ls.qm.combined[ls.reqIndex]? = some r)
    (hgood : ∀ t l v kv, Visits (allocRound r args) ls t → Preempts r args t l v kv →
      t.reqIndex ≤ l) : KeepsAccount r args g ls where
  once hr := h.fresh hq ((h.scheduledKeys r).mp hr)
  noDebt t l v kv ht hpre hv :=
    absurd hv ((h.visits ht hgood).1.victim_unscheduled hpre (hgood t l v kv ht hpre))
  noEmbeds _ t l v kv ht hpre hv :=
    absurd hv ((h.visits ht hgood).1.victim_unscheduled hpre (hgood t l v kv ht hpre))

omit [BudgetedEncoderCache E] in
/-- The rounds of an orderly walk keep the accounts. -/
theorem Walking.roundKeepsAccounts (h : Walking ls)
    (hgood : ∀ e, RoundEvent cfg env ls e → Orderly e) : RoundKeepsAccounts cfg env ls := by
  intro r args g ls₁ halloc _
  have hdisj := h.walk.toParts.running_waiting
  have hpre : ∀ t l v kv, Visits (allocRound r args) ls₁ t → Preempts r args t l v kv →
      t.reqIndex ≤ l := fun t l v kv ht hpre => hgood _ (halloc.preempt hdisj ht hpre)
  cases halloc with
  | running htreats => exact (h.setEnc _).keepsAccount htreats.stands hpre
  | waiting htreats hreach hW =>
    obtain ⟨-, rfl⟩ := hreach.of_disjoint hdisj hW
    exact (h.setEnc _).keepsAccount htreats.stands hpre

end LoopState

namespace Scheduler

variable {K E : Type} [KVCacheManager K] [EncoderCache E] {cfg : Config} {env : StepEnv}
  {s : Scheduler K E} {ls₀ ls : LoopState K E}

omit [EncoderCache E] in
/-- The walk begins with whole budgets. -/
theorem beginStep_accounted (hbegin : beginStep cfg env s = .ok ls) : ls.Accounted ls := by
  obtain ⟨objs, requests, -, -, -, rfl⟩ := beginStep_eq_ok hbegin
  refine ⟨⟨(sub_zero _).symm, ?_, (sub_zero _).symm, Int.natCast_nonneg _⟩,
    fun r hr => absurd hr List.not_mem_nil⟩
  dsimp only
  split <;> omega

/-- Every round of the step keeps the accounts. -/
def StepKeepsAccounts (cfg : Config) (env : StepEnv) (s : Scheduler K E) : Prop :=
  ∀ ls, Rounds cfg env s ls → ls.RoundKeepsAccounts cfg env

/-- At the head of every round of a step that keeps the accounts they are balanced. -/
theorem visits_accounted [BudgetedEncoderCache E] (hkeeps : StepKeepsAccounts cfg env s)
    (hbegin : beginStep cfg env s = .ok ls₀) (ht : Visits (LoopState.round cfg env) ls₀ ls) :
    ls₀.Accounted ls :=
  ht.invariant (beginStep_accounted hbegin) fun t _ ht hI hround =>
    hI.round (hkeeps t ⟨ls₀, hbegin, ht⟩) hround

/-- An orderly step keeps the accounts. -/
theorem stepKeepsAccounts_of_orderly (h : Coherent s)
    (hgood : StepMeets LoopState.Orderly cfg env s) : StepKeepsAccounts cfg env s :=
  fun ls hrounds => (hrounds.walking h hgood).roundKeepsAccounts (hgood ls hrounds)

end Scheduler

namespace System

open Scheduler

variable {K E : Type} [KVCacheManager K] [EncoderCache E]

/-- Every step keeps the accounts. -/
def KeepsAccounts (cfg : Config) (sys : System K E) : Op → Prop
  | .schedule env => StepKeepsAccounts cfg env sys.sch
  | _ => True

/-- A run without ties keeps the accounts. -/
theorem keepsAccounts_of_noTies {cfg : Config} {kv : K} {enc : E} {sys : System K E}
    (h : Run cfg (NoTies cfg) (init cfg kv enc) sys) :
    Run cfg (KeepsAccounts cfg) (init cfg kv enc) sys := by
  induction h with
  | start => exact .start
  | @step sys _ op hrun hadm hok hs ih =>
    refine .step ih hadm ?_ hs
    cases op with
    | schedule env =>
      have hcoherent := coherent_of_run (keepsOrder_of_noTies hrun)
      exact stepKeepsAccounts_of_orderly hcoherent (orderly_of_untied hcoherent hok)
    | _ => trivial

/-- In every run whose steps keep the accounts, the budgets of a further such step add up and are
not overdrawn at the head of every round, whatever was rolled back before. -/
theorem balanced_of_run [BudgetedEncoderCache E] (cfg : Config) (kv : K) (enc : E) :
    ∀ sys, Run cfg (KeepsAccounts cfg) (init cfg kv enc) sys →
      ∀ env, KeepsAccounts cfg sys (.schedule env) →
        ∀ ls₀ ls, beginStep cfg env sys.sch = .ok ls₀ →
          Visits (LoopState.round cfg env) ls₀ ls → ls₀.Balanced ls :=
  fun _ _ _ hkeeps _ _ hbegin ht => (visits_accounted hkeeps hbegin ht).toBalanced

/-- Long prompts are split into small chunks, and every step has room for a few images. -/
def smallChunks : Config where
  maxNumRunningReqs := 4
  maxNumScheduledTokens := 8
  maxModelLen := 32
  blockSize := 4
  numBlocks := 4
  longPrefillTokenThreshold := 2
  maxNumEncoderInputTokens := 8

/-- A request with an image of two embeddings at the given offset of its prompt. -/
def imageRequest (r : ReqId) (arrivalTime : ℤ) (numPromptTokens offset : ℕ) : Request where
  requestId := r
  arrivalTime := arrivalTime
  maxTokens := 4
  promptTokenIds := List.replicate numPromptTokens 1
  numPromptTokens := numPromptTokens
  allTokenIds := List.replicate numPromptTokens 1
  mmFeatures := [{ identifier := r, offset := offset, length := 2 }]

/-- Two requests run and come to their images in the next step, when a third one comes at their time
with an image at its beginning. -/
def imagesCome : List Op :=
  [.addRequest (shortRequestAt 1 1) fun _ => false, .schedule {},
    .addRequest (imageRequest 2 2 4 2) fun _ => false,
    .addRequest (imageRequest 3 2 4 2) fun _ => false, .schedule {},
    .addRequest (imageRequest 4 2 8 0) fun _ => false]

/-- The third request preempts the two others, and what their images cost is not returned. -/
theorem images_not_returned : ∃ sys ls₀ ls,
    Run smallChunks (fun _ _ => True) (decoderOnly smallChunks false 8) sys ∧
      beginStep smallChunks {} sys.sch = .ok ls₀ ∧
      Visits (LoopState.round smallChunks {}) ls₀ ls ∧ ls.preemptedReqs = [3, 2] ∧
      ls.scheduledEncoderInputs.entries = [(4, [0])] ∧ ¬ ls₀.Balanced ls ∧
      (schedule smallChunks {} sys.sch).isOk = true := by
  have hlegal : Legal smallChunks (fun _ _ => True) (decoderOnly smallChunks false 8) imagesCome := by
    decide +kernel
  obtain ⟨sys, hrun, hround, hok⟩ := Reaches.exists_run imagesCome
    (P := fun sys => (AtRound smallChunks sys 4 fun ls₀ ls => ls.preemptedReqs = [3, 2] ∧
        ls.scheduledEncoderInputs.entries = [(4, [0])] ∧
        ls.encoderComputeBudget ≠ ls₀.encoderComputeBudget - ls.scheduledEmbeds) ∧
      (schedule smallChunks {} sys.sch).isOk = true) (by decide +kernel) hlegal
  obtain ⟨ls₀, ls, hbegin, ht, hpreempted, hinputs, hembeds⟩ := hround.exists_visits
  exact ⟨sys, ls₀, ls, hrun, hbegin, ht, hpreempted, hinputs, fun h => hembeds h.embeds, hok⟩

/-- The same requests, but each comes later than the one before. -/
def imagesComeInTurn : List Op :=
  [.addRequest (shortRequestAt 1 1) fun _ => false, .schedule {},
    .addRequest (imageRequest 2 2 4 2) fun _ => false,
    .addRequest (imageRequest 3 3 4 2) fun _ => false, .schedule {},
    .addRequest (imageRequest 4 4 8 0) fun _ => false]

/-- The images of a run are scheduled one after the other, within the budget. -/
theorem balanced_of_imagesComeInTurn : ∃ sys ls₀ ls,
    Run smallChunks (KeepsAccounts smallChunks) (decoderOnly smallChunks false 8) sys ∧
      beginStep smallChunks {} sys.sch = .ok ls₀ ∧
      Visits (LoopState.round smallChunks {}) ls₀ ls ∧
      ls.scheduledEncoderInputs.entries = [(2, [0]), (3, [0])] ∧ ls.scheduledEmbeds = 4 ∧
      ls₀.Balanced ls := by
  have hlegal : Legal smallChunks (NoTies smallChunks) (decoderOnly smallChunks false 8)
      imagesComeInTurn := by decide +kernel
  obtain ⟨sys, hrun, hround, huntied⟩ := Reaches.exists_run imagesComeInTurn
    (P := fun sys => (AtRound smallChunks sys 3 fun _ ls =>
        ls.scheduledEncoderInputs.entries = [(2, [0]), (3, [0])] ∧ ls.scheduledEmbeds = 4) ∧
      NoTies smallChunks sys (.schedule {})) (by decide +kernel) hlegal
  obtain ⟨ls₀, ls, hbegin, ht, hinputs, hembeds⟩ := hround.exists_visits
  have hcoherent := coherent_of_run (keepsOrder_of_noTies hrun)
  have huntied : Begins LoopState.Untied smallChunks {} sys.sch := huntied
  have hgood := stepKeepsAccounts_of_orderly hcoherent (orderly_of_untied hcoherent huntied)
  have hkeeps := keepsAccounts_of_noTies hrun
  exact ⟨sys, ls₀, ls, hkeeps, hbegin, ht, hinputs, hembeds,
    balanced_of_run smallChunks _ _ sys hkeeps {} hgood ls₀ ls hbegin ht⟩

end System

end RpsServe
