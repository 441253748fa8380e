import RpsServe.P2p.Connector

/-!
# What a producer sends of a prompt

A prompt is computed in one step or in several. The blocks of its chunks are recorded under
its id, and the step that completes the prompt lists the request with all of them. That
step is passed over when it brings no new block, and then the request is never sent.
-/

namespace RpsServe.P2p

variable {c c' : Connector} {out : SchedulerOutput} {b b' : Building} {r : ReqId} {n : ℕ}
  {allTokenIds : ReqId → List Token} {prompt : List Token} {blocks before : List BlockId}
  {ops : List ConnectorOp} {op : ConnectorOp} {metas : List (List ReqMeta)} {computed : ℕ}

/-- The entries of a request. -/
def entries (r : ReqId) (reqMetas : List ReqMeta) : List ReqMeta :=
  reqMetas.filter (·.requestId = r)

/-- What a call says of a request and what it records for it. -/
def About (r : ReqId) (b : Building) : List ReqMeta × Option (List BlockId × Option (List Token)) :=
  (entries r b.reqMetas, b.connector.chunkedPrefill.get? r)

section About

variable {x : ReqId} {k : ℕ} {record : Option (List Token)}

/-- An entry of another request. -/
theorem about_addRequest_ne (h : x ≠ r) : About r (b.addRequest x blocks k) = About r b := by
  simp [About, entries, Building.addRequest, List.filter_append, h]

/-- An added request is listed behind what is listed about it. -/
theorem about_addRequest : About r (b.addRequest r blocks k) =
    ((About r b).1 ++ [⟨r, blocks, k⟩], (About r b).2) := by
  simp [About, entries, Building.addRequest, List.filter_append]

/-- A record of another request. -/
theorem about_record_ne (h : x ≠ r) : About r (b.record x blocks record) = About r b := by
  simp [About, Building.record, Dict.get?_set_ne _ _ h]

/-- A record of the request replaces the older one. -/
theorem about_record : About r (b.record r blocks record) =
    ((About r b).1, some (blocks, record)) := by
  simp [About, Building.record]

/-- Dropping another record leaves what is known about the request. -/
theorem about_dropRecord_ne (h : x ≠ r) : About r (b.dropRecord x) = About r b := by
  simp [About, Building.dropRecord, Dict.get?_erase, h]

/-- After dropping its record nothing is recorded about the request. -/
theorem about_dropRecord : About r (b.dropRecord r) = ((About r b).1, none) := by
  simp [About, Building.dropRecord, Dict.get?_erase]

end About

/-- The first group of blocks is there when reading it does not fail. -/
theorem firstGroup_eq_ok {blockIds : List (List BlockId)} (h : firstGroup blockIds = .ok blocks) :
    ∃ groups, blockIds = blocks :: groups := by
  cases blockIds with
  | nil => cases h
  | cons group groups =>
    cases h
    exact ⟨groups, rfl⟩

/-- The scheduled tokens are there when reading them does not fail. -/
theorem scheduled_eq_ok (h : out.scheduled r = .ok n) : out.numScheduledTokens.get? r = some n := by
  unfold SchedulerOutput.scheduled at h
  split at h
  · cases h
  · rename_i m hm
    cases h
    exact hm

/-! ### One request of a step -/

namespace Connector

/-- A new request on a producer: its first chunk is recorded, or the whole prompt is listed. -/
theorem newRequest_eq_ok {q : NewRequest} (h : newRequest out b q = .ok b')
    (hprod : b.connector.isProducer = true) :
    ∃ n blocks groups, out.numScheduledTokens.get? q.reqId = some n ∧
      q.blockIds = blocks :: groups ∧
      b' = if n + q.numComputedTokens < (q.promptTokenIds.getD []).length then
          b.record q.reqId blocks q.promptTokenIds
        else b.addRequest q.reqId blocks (q.promptTokenIds.getD []).length := by
  unfold newRequest at h
  rw [if_pos hprod] at h
  obtain ⟨n, hn, h⟩ := bind_eq_ok.mp h
  obtain ⟨blocks, hblocks, h⟩ := bind_eq_ok.mp h
  obtain ⟨groups, hgroups⟩ := firstGroup_eq_ok hblocks
  refine ⟨n, blocks, groups, scheduled_eq_ok hn, hgroups, ?_⟩
  dsimp only at h
  split at h
  · rename_i hshort
    cases h
    rw [if_pos hshort]
  · rename_i hwhole
    cases h
    rw [if_neg hwhole]

/-- The first group of the new blocks of a step; none without new blocks. -/
def newGroup (q : CachedRequest) : List BlockId := (q.newBlockIds.bind List.head?).getD []

/-- A cached request on a producer: a step without new blocks changes nothing, another one records
its blocks with those before, or lists the request when the prompt is complete. -/
theorem cachedOnProducer_eq_ok {q : CachedRequest} (h : cachedOnProducer out b q = .ok b') :
    ∃ n before promptTokenIds, out.numScheduledTokens.get? q.reqId = some n ∧
      b.connector.chunkedPrefill.get? q.reqId = some (before, promptTokenIds) ∧
      (q.newBlockIds = none ∧ b' = b ∨
        q.newBlockIds.isSome = true ∧ ∃ prompt, promptTokenIds = some prompt ∧
          let blocks := if q.reqId ∈ out.resumedReqIds then newGroup q else before ++ newGroup q
          b' = if n + q.numComputedTokens < prompt.length then
              b.record q.reqId blocks (some prompt)
            else (b.addRequest q.reqId blocks prompt.length).dropRecord q.reqId) := by
  unfold cachedOnProducer at h
  obtain ⟨n, hn, h⟩ := bind_eq_ok.mp h
  split at h
  · cases h
  · rename_i before promptTokenIds hrecord
    refine ⟨n, before, promptTokenIds, scheduled_eq_ok hn, hrecord, ?_⟩
    split at h
    · rename_i hnone
      cases h
      exact .inl ⟨hnone, rfl⟩
    · rename_i newBlockIds hsome
      right
      obtain ⟨new, hnew, h⟩ := bind_eq_ok.mp h
      obtain ⟨groups, hgroups⟩ := firstGroup_eq_ok hnew
      have hgroup : newGroup q = new := by
        rw [newGroup, hsome, hgroups]
        rfl
      refine ⟨by rw [hsome]; rfl, ?_⟩
      cases promptTokenIds with
      | none => cases h
      | some prompt =>
        refine ⟨prompt, rfl, ?_⟩
        rw [hgroup]
        dsimp only at h ⊢
        split at h
        · rename_i hshort
          cases h
          rw [if_pos hshort]
        · rename_i hwhole
          cases h
          rw [if_neg hwhole]

/-- A round for a new request of a producer. -/
theorem newRequest_keeps {q : NewRequest} (h : newRequest out b q = .ok b')
    (hprod : b.connector.isProducer = true) :
    b'.connector.isProducer = true ∧ (q.reqId ≠ r → About r b' = About r b) := by
  obtain ⟨n, blocks, groups, -, -, rfl⟩ := newRequest_eq_ok h hprod
  split
  · exact ⟨hprod, about_record_ne⟩
  · exact ⟨hprod, about_addRequest_ne⟩

/-- A round for a cached request of a producer. -/
theorem cachedOnProducer_keeps {q : CachedRequest} (h : cachedOnProducer out b q = .ok b')
    (hprod : b.connector.isProducer = true) :
    b'.connector.isProducer = true ∧ (q.reqId ≠ r → About r b' = About r b) := by
  obtain ⟨n, before, promptTokenIds, -, -, ⟨-, rfl⟩ | ⟨-, prompt, -, rfl⟩⟩ :=
    cachedOnProducer_eq_ok h
  · exact ⟨hprod, fun _ => rfl⟩
  · split
    · exact ⟨hprod, about_record_ne⟩
    · exact ⟨hprod, fun hne => (about_dropRecord_ne hne).trans (about_addRequest_ne hne)⟩

/-- Both loops of a producer are folds. -/
theorem buildConnectorMeta_eq_ok (h : c.buildConnectorMeta out allTokenIds = .ok b')
    (hprod : c.isProducer = true) :
    ∃ b, out.scheduledNewReqs.foldlM (newRequest out) { connector := c } = .ok b ∧
      b.connector.isProducer = true ∧
      out.scheduledCachedReqs.foldlM (cachedOnProducer out) b = .ok b' := by
  obtain ⟨b, hnew, hcached⟩ := bind_eq_ok.mp h
  have hb : b.connector.isProducer = true :=
    foldlM_invariant (I := fun b => b.connector.isProducer = true) hnew hprod
      fun q _ t t' ht hround => (newRequest_keeps (r := q.reqId) hround ht).1
  refine ⟨b, hnew, hb, foldlM_of_foldBreakM (I := fun b => b.connector.isProducer = true) hcached hb
    (fun t q ht => if_pos ht) fun t q t' ht hround =>
      (cachedOnProducer_keeps (r := q.reqId) hround ht).1⟩

end Connector

/-! ### The prefill of one request -/

/-- The call does not schedule the request, nor finish it. -/
def Ignores (r : ReqId) : ConnectorOp → Prop
  | .updateStateAfterAlloc _ _ _ => True
  | .buildConnectorMeta out _ =>
    (∀ q ∈ out.scheduledNewReqs, q.reqId ≠ r) ∧ ∀ q ∈ out.scheduledCachedReqs, q.reqId ≠ r
  | .requestFinished x => x ≠ r

/-- The call schedules `n` tokens of the request, as the new request `q`. -/
def Starts (r : ReqId) (q : NewRequest) (n : ℕ) : ConnectorOp → Prop
  | .buildConnectorMeta out _ => out.scheduledNewReqs.filter (·.reqId = r) = [q] ∧
    (∀ q ∈ out.scheduledCachedReqs, q.reqId ≠ r) ∧ out.numScheduledTokens.get? r = some n
  | _ => False

/-- The call schedules `n` tokens of the request, as the cached request `q` that is not resumed. -/
def Continues (r : ReqId) (q : CachedRequest) (n : ℕ) : ConnectorOp → Prop
  | .buildConnectorMeta out _ => (∀ q ∈ out.scheduledNewReqs, q.reqId ≠ r) ∧
    out.scheduledCachedReqs.filter (·.reqId = r) = [q] ∧ r ∉ out.resumedReqIds ∧
    out.numScheduledTokens.get? r = some n
  | _ => False

/-- Calls in which the prompt of a request is computed up to `computed` tokens, without being
complete, and in which the request was given `blocks`. -/
inductive Prefill (r : ReqId) (prompt : List Token) :
    List ConnectorOp → ℕ → List BlockId → Prop
  | start {ops : List ConnectorOp} {op : ConnectorOp} {q : NewRequest} {n : ℕ}
      {blocks : List BlockId} {groups : List (List BlockId)} :
      (∀ o ∈ ops, Ignores r o) → Starts r q n op → q.promptTokenIds = some prompt →
      q.blockIds = blocks :: groups → n + q.numComputedTokens < prompt.length →
      Prefill r prompt (ops ++ [op]) (n + q.numComputedTokens) blocks
  | ignore {ops : List ConnectorOp} {op : ConnectorOp} {computed : ℕ} {blocks : List BlockId} :
      Prefill r prompt ops computed blocks → Ignores r op →
      Prefill r prompt (ops ++ [op]) computed blocks
  | chunk {ops : List ConnectorOp} {op : ConnectorOp} {q : CachedRequest} {computed n : ℕ}
      {blocks : List BlockId} :
      Prefill r prompt ops computed blocks → Continues r q n op →
      q.numComputedTokens = computed → n + computed < prompt.length →
      Prefill r prompt (ops ++ [op]) (n + computed) (blocks ++ Connector.newGroup q)

/-- The call after `ops` completes the prompt, at once or after some chunks; `blocks` are all the
blocks that the request was given. -/
inductive Completes (r : ReqId) (prompt : List Token) :
    List ConnectorOp → ConnectorOp → List BlockId → Prop
  | atOnce {ops : List ConnectorOp} {op : ConnectorOp} {q : NewRequest} {n : ℕ}
      {blocks : List BlockId} {groups : List (List BlockId)} :
      (∀ o ∈ ops, Ignores r o) → Starts r q n op → q.promptTokenIds = some prompt →
      q.blockIds = blocks :: groups → prompt.length ≤ n + q.numComputedTokens →
      Completes r prompt ops op blocks
  | chunked {ops : List ConnectorOp} {op : ConnectorOp} {q : CachedRequest} {computed n : ℕ}
      {blocks : List BlockId} :
      Prefill r prompt ops computed blocks → Continues r q n op →
      q.numComputedTokens = computed → prompt.length ≤ n + computed →
      Completes r prompt ops op (blocks ++ Connector.newGroup q)

/-- The call brings blocks for the request: it schedules the request for the first time, or with
a list of new blocks. -/
def BringsBlocks (r : ReqId) : ConnectorOp → Prop
  | .buildConnectorMeta out _ => (∃ q ∈ out.scheduledNewReqs, q.reqId = r) ∨
    ∃ q ∈ out.scheduledCachedReqs, q.reqId = r ∧ q.newBlockIds.isSome = true
  | _ => False

/-- The request is listed once, in the last call, with its whole prompt and these blocks. -/
def SentOnce (r : ReqId) (prompt : List Token) (blocks : List BlockId)
    (metas : List (List ReqMeta)) : Prop :=
  ∃ before last, metas = before ++ [last] ∧ (∀ m ∈ before, entries r m = []) ∧
    entries r last = [⟨r, blocks, prompt.length⟩]

namespace Connector

variable {last : List ReqMeta}

/-- A call that ignores the request lists nothing for it and keeps its record. -/
theorem step_ignores (h : c.step op = .ok (last, c')) (hprod : c.isProducer = true)
    (hop : Ignores r op) : c'.isProducer = true ∧ entries r last = [] ∧
      c'.chunkedPrefill.get? r = c.chunkedPrefill.get? r := by
  cases op with
  | updateStateAfterAlloc x blockIds n =>
    obtain ⟨c₁, hupdate, h⟩ := bind_eq_ok.mp h
    cases h
    unfold updateStateAfterAlloc at hupdate
    rw [if_neg (by simp [hprod])] at hupdate
    cases hupdate
    exact ⟨hprod, rfl, rfl⟩
  | buildConnectorMeta out allTokenIds =>
    obtain ⟨b', hbuild, h⟩ := bind_eq_ok.mp h
    cases h
    obtain ⟨b, hnew, hb, hcached⟩ := buildConnectorMeta_eq_ok hbuild hprod
    have hfirst : About r b = About r { connector := c } :=
      (foldlM_invariant (I := fun b => b.connector.isProducer = true ∧
        About r b = About r { connector := c }) hnew ⟨hprod, rfl⟩ fun q hq t t' ht hround =>
          (newRequest_keeps hround ht.1).imp_right fun hkeeps => (hkeeps (hop.1 q hq)).trans ht.2).2
    have hsecond := foldlM_invariant (I := fun t => t.connector.isProducer = true ∧
      About r t = About r b) hcached ⟨hb, rfl⟩ fun q hq t t' ht hround =>
        (cachedOnProducer_keeps hround ht.1).imp_right fun hkeeps => (hkeeps (hop.2 q hq)).trans ht.2
    have habout := hsecond.2.trans hfirst
    exact ⟨hsecond.1, congrArg Prod.fst habout, congrArg Prod.snd habout⟩
  | requestFinished x =>
    cases h
    refine ⟨hprod, rfl, ?_⟩
    rw [requestFinished, Dict.get?_erase, if_neg hop]

/-- The call that starts a request records its first chunk, or lists its whole prompt. -/
theorem step_starts {q : NewRequest} {groups : List (List BlockId)}
    (h : c.step op = .ok (last, c')) (hprod : c.isProducer = true) (hop : Starts r q n op)
    (hprompt : q.promptTokenIds = some prompt) (hblocks : q.blockIds = blocks :: groups) :
    c'.isProducer = true ∧ (entries r last, c'.chunkedPrefill.get? r) =
      if n + q.numComputedTokens < prompt.length then ([], some (blocks, some prompt))
      else ([⟨r, blocks, prompt.length⟩], c.chunkedPrefill.get? r) := by
  cases op with
  | buildConnectorMeta out allTokenIds =>
    obtain ⟨hfilter, hother, hn⟩ := hop
    obtain ⟨b', hbuild, h⟩ := bind_eq_ok.mp h
    cases h
    obtain ⟨b, hnew, hb, hcached⟩ := buildConnectorMeta_eq_ok hbuild hprod
    have hsecond := foldlM_invariant (I := fun t => t.connector.isProducer = true ∧
      About r t = About r b) hcached ⟨hb, rfl⟩ fun q hq t t' ht hround =>
        (cachedOnProducer_keeps hround ht.1).imp_right fun hkeeps =>
          (hkeeps (hother q hq)).trans ht.2
    obtain ⟨t, t', ht, hbefore, hround, -, hafter⟩ := foldlM_single (About r) hnew
      (I := fun b => b.connector.isProducer = true) hprod hfilter fun t q t' ht hround =>
        (newRequest_keeps hround ht).imp_right fun hkeeps hne => hkeeps (of_decide_eq_false hne)
    have hr : q.reqId = r := by
      have hmem : q ∈ out.scheduledNewReqs.filter (·.reqId = r) := by rw [hfilter]; simp
      simpa using (List.mem_filter.mp hmem).2
    obtain ⟨n', blocks', groups', hn', hblocks', rfl⟩ := newRequest_eq_ok hround ht
    rw [hr] at hn' hafter
    cases hn.symm.trans hn'
    cases hblocks.symm.trans hblocks'
    refine ⟨hsecond.1, (hsecond.2.trans hafter).trans ?_⟩
    rw [hprompt, Option.getD_some]
    have hempty : (About r t).1 = [] := congrArg Prod.fst hbefore
    have hrecord : (About r t).2 = c.chunkedPrefill.get? r := congrArg Prod.snd hbefore
    split
    · rw [about_record, hempty]
    · rw [about_addRequest, hempty, hrecord]
      rfl
  | updateStateAfterAlloc | requestFinished => exact hop.elim

/-- The call that continues a request finds its record. Without new blocks it changes nothing;
with new blocks it records them too, or lists the prompt with all of them. -/
theorem step_continues {q : CachedRequest} (h : c.step op = .ok (last, c'))
    (hprod : c.isProducer = true) (hop : Continues r q n op)
    (hrecord : c.chunkedPrefill.get? r = some (before, some prompt)) :
    c'.isProducer = true ∧ (entries r last, c'.chunkedPrefill.get? r) =
      if q.newBlockIds = none then ([], some (before, some prompt))
      else if n + q.numComputedTokens < prompt.length then
        ([], some (before ++ newGroup q, some prompt))
      else ([⟨r, before ++ newGroup q, prompt.length⟩], none) := by
  cases op with
  | buildConnectorMeta out allTokenIds =>
    obtain ⟨hother, hfilter, hresumed, hn⟩ := hop
    obtain ⟨b', hbuild, h⟩ := bind_eq_ok.mp h
    cases h
    obtain ⟨b, hnew, hb, hcached⟩ := buildConnectorMeta_eq_ok hbuild hprod
    have hfirst : About r b = ([], some (before, some prompt)) :=
      (foldlM_invariant (I := fun b => b.connector.isProducer = true ∧
        About r b = About r { connector := c }) hnew ⟨hprod, rfl⟩ fun q hq t t' ht hround =>
          (newRequest_keeps hround ht.1).imp_right fun hkeeps =>
            (hkeeps (hother q hq)).trans ht.2).2.trans (congrArg (Prod.mk []) hrecord)
    obtain ⟨t, t', ht, hbefore, hround, hprod', hafter⟩ := foldlM_single (About r) hcached
      (I := fun b => b.connector.isProducer = true) hb hfilter fun t q t' ht hround =>
        (cachedOnProducer_keeps hround ht).imp_right fun hkeeps hne => hkeeps (of_decide_eq_false hne)
    have hr : q.reqId = r := by
      have hmem : q ∈ out.scheduledCachedReqs.filter (·.reqId = r) := by rw [hfilter]; simp
      simpa using (List.mem_filter.mp hmem).2
    have habout := hbefore.trans hfirst
    have hempty : (About r t).1 = [] := congrArg Prod.fst habout
    have hfound : t.connector.chunkedPrefill.get? r = some (before, some prompt) :=
      congrArg Prod.snd habout
    obtain ⟨n', before', promptTokenIds, hn', hrecord', hcase⟩ := cachedOnProducer_eq_ok hround
    rw [hr] at hn' hrecord' hcase
    cases hn.symm.trans hn'
    cases hfound.symm.trans hrecord'
    refine ⟨hprod', hafter.trans ?_⟩
    rcases hcase with ⟨hnone, rfl⟩ | ⟨hsome, prompt', hprompt', rfl⟩
    · rw [if_pos hnone, habout]
    · cases hprompt'
      rw [if_neg (Option.isSome_iff_ne_none.mp hsome), if_neg hresumed]
      split
      · rw [about_record, hempty]
      · rw [about_dropRecord, about_addRequest, hempty]
        rfl
  | updateStateAfterAlloc | requestFinished => exact hop.elim

/-- Calls that ignore the request list nothing for it. -/
theorem run_ignores (h : run ops c = .ok (metas, c')) (hprod : c.isProducer = true)
    (hops : ∀ o ∈ ops, Ignores r o) :
    c'.isProducer = true ∧ ∀ m ∈ metas, entries r m = [] := by
  induction ops generalizing c metas with
  | nil =>
    cases h
    exact ⟨hprod, by simp⟩
  | cons o ops ih =>
    obtain ⟨⟨first, c₁⟩, hstep, h⟩ := bind_eq_ok.mp h
    obtain ⟨⟨rest, c₂⟩, hrest, h⟩ := bind_eq_ok.mp h
    cases h
    obtain ⟨hprod₁, hfirst, -⟩ := step_ignores hstep hprod (hops o List.mem_cons_self)
    obtain ⟨hprod₂, hall⟩ := ih hrest hprod₁ fun x hx => hops x (List.mem_cons_of_mem o hx)
    exact ⟨hprod₂, List.forall_mem_cons.mpr ⟨hfirst, hall⟩⟩

/-- While a prompt is not complete the request is not listed, and its blocks so far are recorded
in their order. -/
theorem run_prefill {blocks : List BlockId} (hp : Prefill r prompt ops computed blocks)
    (h : run ops c = .ok (metas, c')) (hprod : c.isProducer = true) :
    c'.isProducer = true ∧ (∀ m ∈ metas, entries r m = []) ∧
      c'.chunkedPrefill.get? r = some (blocks, some prompt) := by
  induction hp generalizing c' metas with
  | start hops hop hprompt hblocks hshort =>
    obtain ⟨before, c₁, last, hbefore, hlast, rfl⟩ := run_concat_eq_ok h
    obtain ⟨hprod₁, hnone⟩ := run_ignores hbefore hprod hops
    obtain ⟨hprod', habout⟩ := step_starts hlast hprod₁ hop hprompt hblocks
    rw [if_pos hshort] at habout
    exact ⟨hprod', List.forall_mem_append.mpr
      ⟨hnone, List.forall_mem_singleton.mpr (congrArg Prod.fst habout)⟩, congrArg Prod.snd habout⟩
  | ignore _ hop ih =>
    obtain ⟨before, c₁, last, hbefore, hlast, rfl⟩ := run_concat_eq_ok h
    obtain ⟨hprod₁, hnone, hrecord⟩ := ih hbefore
    obtain ⟨hprod', hlast, hkeeps⟩ := step_ignores hlast hprod₁ hop
    exact ⟨hprod', List.forall_mem_append.mpr ⟨hnone, List.forall_mem_singleton.mpr hlast⟩,
      hkeeps.trans hrecord⟩
  | @chunk _ _ q _ _ blocks _ hop hcomputed hshort ih =>
    obtain ⟨before, c₁, last, hbefore, hlast, rfl⟩ := run_concat_eq_ok h
    obtain ⟨hprod₁, hnone, hrecord⟩ := ih hbefore
    obtain ⟨hprod', habout⟩ := step_continues hlast hprod₁ hop hrecord
    rw [hcomputed, if_pos hshort] at habout
    have hsame : (entries r last, c'.chunkedPrefill.get? r) =
        ([], some (blocks ++ newGroup q, some prompt)) := by
      split at habout
      · rename_i hnew
        have hgroup : newGroup q = [] := by
          rw [newGroup, hnew]
          rfl
        rw [habout, hgroup, List.append_nil]
      · exact habout
    exact ⟨hprod', List.forall_mem_append.mpr
      ⟨hnone, List.forall_mem_singleton.mpr (congrArg Prod.fst hsame)⟩, congrArg Prod.snd hsame⟩

end Connector

/-- The call that starts a request brings it blocks. -/
theorem bringsBlocks_of_starts {q : NewRequest} (h : Starts r q n op) : BringsBlocks r op := by
  cases op with
  | buildConnectorMeta out allTokenIds =>
    have hmem : q ∈ out.scheduledNewReqs.filter (·.reqId = r) := by rw [h.1]; simp
    obtain ⟨hq, hr⟩ := List.mem_filter.mp hmem
    exact .inl ⟨q, hq, of_decide_eq_true hr⟩
  | updateStateAfterAlloc | requestFinished => exact h.elim

/-- A call that continues a request brings it blocks when it has a list of new ones. -/
theorem bringsBlocks_of_continues {q : CachedRequest} (h : Continues r q n op) :
    BringsBlocks r op ↔ q.newBlockIds ≠ none := by
  cases op with
  | buildConnectorMeta out allTokenIds =>
    obtain ⟨hother, hfilter, -, -⟩ := h
    rw [← Option.isSome_iff_ne_none]
    constructor
    · rintro (⟨x, hx, hr⟩ | ⟨x, hx, hr, hsome⟩)
      · exact absurd hr (hother x hx)
      · have hmem : x ∈ out.scheduledCachedReqs.filter (·.reqId = r) :=
          List.mem_filter.mpr ⟨hx, decide_eq_true hr⟩
        rw [hfilter, List.mem_singleton] at hmem
        exact hmem ▸ hsome
    · intro hsome
      have hmem : q ∈ out.scheduledCachedReqs.filter (·.reqId = r) := by rw [hfilter]; simp
      obtain ⟨hq, hr⟩ := List.mem_filter.mp hmem
      exact .inr ⟨q, hq, of_decide_eq_true hr, hsome⟩
  | updateStateAfterAlloc | requestFinished => exact h.elim

/-- In every run of a producer in which the prompt of a request is computed, in any chunks and
with any lists of new blocks, the request is sent once and whole, in the step that completes
the prompt, exactly when that step brings it blocks. -/
theorem sentOnce_iff_bringsBlocks {blocks : List BlockId} (hprod : c.isProducer = true)
    (hp : Completes r prompt ops op blocks) (h : Connector.run (ops ++ [op]) c = .ok (metas, c')) :
    SentOnce r prompt blocks metas ↔ BringsBlocks r op := by
  obtain ⟨before, c₁, last, hbefore, hlast, rfl⟩ := Connector.run_concat_eq_ok h
  have hsent : (∀ m ∈ before, entries r m = []) → (SentOnce r prompt blocks (before ++ [last]) ↔
      entries r last = [⟨r, blocks, prompt.length⟩]) := by
    intro hnone
    constructor
    · rintro ⟨before', last', heq, -, hentries⟩
      obtain ⟨-, hlast'⟩ := List.append_inj' heq rfl
      cases hlast'
      exact hentries
    · exact fun hentries => ⟨before, last, rfl, hnone, hentries⟩
  cases hp with
  | atOnce hops hop hprompt hblocks hwhole =>
    obtain ⟨hprod₁, hnone⟩ := Connector.run_ignores hbefore hprod hops
    obtain ⟨-, habout⟩ := Connector.step_starts hlast hprod₁ hop hprompt hblocks
    rw [if_neg (not_lt.mpr hwhole)] at habout
    exact iff_of_true ((hsent hnone).mpr (congrArg Prod.fst habout)) (bringsBlocks_of_starts hop)
  | chunked hprefill hop hcomputed hwhole =>
    obtain ⟨hprod₁, hnone, hrecord⟩ := Connector.run_prefill hprefill hbefore hprod
    obtain ⟨-, habout⟩ := Connector.step_continues hlast hprod₁ hop hrecord
    rw [hcomputed, if_neg (not_lt.mpr hwhole)] at habout
    rw [hsent hnone, bringsBlocks_of_continues hop]
    split at habout
    · rename_i hnew
      have hempty : entries r last = [] := congrArg Prod.fst habout
      simp [hempty, hnew]
    · rename_i hnew
      exact iff_of_true (congrArg Prod.fst habout) hnew

/-- A step that schedules one new request. -/
def newStep (q : NewRequest) (n : ℕ) : ConnectorOp :=
  .buildConnectorMeta ⟨[q], [], ∅, Dict.empty.set q.reqId n⟩ fun _ => []

/-- A step that schedules one cached request. -/
def cachedStep (q : CachedRequest) (n : ℕ) : ConnectorOp :=
  .buildConnectorMeta ⟨[], [q], ∅, Dict.empty.set q.reqId n⟩ fun _ => []

/-- A request with a prompt of four tokens, in one block. -/
def fourTokens : NewRequest := ⟨1, some [1, 2, 3, 4], [[7]], 0⟩

/-- The step that computes its last token, with the given new blocks. -/
def lastToken (newBlockIds : Option (List (List BlockId))) : ConnectorOp :=
  cachedStep ⟨1, newBlockIds, 3⟩ 1

/-- Three tokens are computed first, then the last one. -/
theorem fourTokens_completes (newBlockIds : Option (List (List BlockId))) :
    Completes 1 [1, 2, 3, 4] [newStep fourTokens 3] (lastToken newBlockIds)
      ([7] ++ Connector.newGroup ⟨1, newBlockIds, 3⟩) := by
  have hstart : Starts 1 fourTokens 3 (newStep fourTokens 3) := ⟨rfl, by simp, rfl⟩
  have hlast : Continues 1 ⟨1, newBlockIds, 3⟩ 1 (lastToken newBlockIds) :=
    ⟨by simp, rfl, by simp, rfl⟩
  have hprefill : Prefill 1 [1, 2, 3, 4] ([] ++ [newStep fourTokens 3]) (3 + 0) [7] :=
    .start (by simp) hstart rfl rfl (by decide)
  exact .chunked hprefill hlast rfl (by decide)

/-- A prompt whose last token fits into the block of the others is never sent. -/
theorem lastToken_not_sent :
    Completes 1 [1, 2, 3, 4] [newStep fourTokens 3] (lastToken none) [7] ∧
    ∃ metas c', Connector.run [newStep fourTokens 3, lastToken none] { isProducer := true } =
        .ok (metas, c') ∧
      ¬ SentOnce 1 [1, 2, 3, 4] [7] metas := by
  refine ⟨fourTokens_completes none, [[], []], _, rfl, ?_⟩
  rintro ⟨before, last, heq, -, hlast⟩
  have hempty : last ∈ [([] : List ReqMeta), []] := by rw [heq]; simp
  have hnone : last = [] := by simpa using hempty
  rw [hnone] at hlast
  cases hlast

/-- With a block of its own for the last token the prompt is sent with both blocks. -/
theorem sentOnce_lastTokenInBlock : ∃ metas c',
    Connector.run ([newStep fourTokens 3] ++ [lastToken (some [[8]])]) { isProducer := true } =
        .ok (metas, c') ∧
      SentOnce 1 [1, 2, 3, 4] [7, 8] metas := by
  have hruns : ∃ metas c', Connector.run ([newStep fourTokens 3] ++ [lastToken (some [[8]])])
      { isProducer := true } = .ok (metas, c') := ⟨_, _, rfl⟩
  obtain ⟨metas, c', hrun⟩ := hruns
  refine ⟨metas, c', hrun,
    (sentOnce_iff_bringsBlocks rfl (fourTokens_completes (some [[8]])) hrun).mpr ?_⟩
  exact .inr ⟨⟨1, some [[8]], 3⟩, List.mem_singleton_self _, rfl, rfl⟩

end RpsServe.P2p
