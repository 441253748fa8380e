import RpsServe.Scheduler.Update

/-!
# How the tokens of a request grow

Tokens, items and block hashes of a request object are written in two places only: a sampled token
is appended, and the next chunk of a streaming session takes the place of what is not computed
yet. Everything that holds of a new request and is kept by both holds for good.
-/

namespace RpsServe

/-- What the block hashes of a request are computed from, and the hashes. -/
structure Content where
  requestId : ReqId
  allTokenIds : List Token
  mmFeatures : List MmFeature
  loraRequest : Option ℕ
  blockHashes : List BlockHash

namespace Request

/-- The content of a request object. -/
def content (q : Request) : Content where
  requestId := q.requestId
  allTokenIds := q.allTokenIds
  mmFeatures := q.mmFeatures
  loraRequest := q.loraRequest
  blockHashes := q.blockHashes

/-- The request is no streaming session. -/
def Plain (q : Request) : Prop := q.resumable = false ∧ q.status ≠ .waitingForStreamingReq

/-- `q'` is the request `q` after tokens were appended and, if it is a session, chunks came in. -/
inductive Grows (blockHasher : Request → List BlockHash) (q : Request) : Request → Prop
  | same {q' : Request} : q'.content = q.content → (q.Plain → q'.Plain) → Grows blockHasher q q'
  | append {q₁ q' : Request} (token : Token) : Grows blockHasher q q₁ →
      q'.content = (q₁.appendOutputTokenId blockHasher token).content → (q₁.Plain → q'.Plain) →
      Grows blockHasher q q'
  | session {q₁ q' : Request} (update : StreamingUpdate) : Grows blockHasher q q₁ → ¬ q₁.Plain →
      q'.content = (q₁.updateAsSession blockHasher update).content → Grows blockHasher q q'

/-- A property of requests that lasts while they grow. -/
structure GrowRule (blockHasher : Request → List BlockHash) (F : Request → Prop) : Prop where
  same {q q' : Request} : F q → q'.content = q.content → (q.Plain → q'.Plain) → F q'
  append {q q' : Request} (token : Token) : F q →
    q'.content = (q.appendOutputTokenId blockHasher token).content → (q.Plain → q'.Plain) → F q'
  session {q q' : Request} (update : StreamingUpdate) : F q → ¬ q.Plain →
    q'.content = (q.updateAsSession blockHasher update).content → F q'

variable {blockHasher : Request → List BlockHash} {q q₁ q' : Request} {F : Request → Prop}

namespace Grows

/-- A request grows to itself. -/
theorem refl (q : Request) : q.Grows blockHasher q := .same rfl id

/-- The object is written again, but not its content. -/
theorem then_same (h : q.Grows blockHasher q₁) (hcontent : q'.content = q₁.content)
    (hplain : q₁.Plain → q'.Plain) : q.Grows blockHasher q' := by
  cases h with
  | same hc hp => exact .same (hcontent.trans hc) (hplain ∘ hp)
  | append token h hc hp => exact .append token h (hcontent.trans hc) (hplain ∘ hp)
  | session update h hsession hc => exact .session update h hsession (hcontent.trans hc)

/-- Growth composes. -/
theorem trans (h : q.Grows blockHasher q₁) (h' : q₁.Grows blockHasher q') :
    q.Grows blockHasher q' := by
  induction h' with
  | same hc hp => exact h.then_same hc hp
  | append token _ hc hp ih => exact .append token ih hc hp
  | session update _ hsession hc ih => exact .session update ih hsession hc

/-- What every update of a request keeps holds of the request that has grown. -/
theorem keeps (hrule : GrowRule blockHasher F) (h : q.Grows blockHasher q') (hq : F q) : F q' := by
  induction h with
  | same hc hp => exact hrule.same hq hc hp
  | append token _ hc hp ih => exact hrule.append token ih hc hp
  | session update _ hsession hc ih => exact hrule.session update ih hsession hc

/-- Growth leaves the adapter. -/
theorem loraRequest (h : q.Grows blockHasher q') : q'.loraRequest = q.loraRequest := by
  refine h.keeps (F := fun x => x.loraRequest = q.loraRequest) ⟨?_, ?_, ?_⟩ rfl
  · exact fun hx hc _ => (congrArg Content.loraRequest hc).trans hx
  · exact fun _ hx hc _ => (congrArg Content.loraRequest hc).trans hx
  · exact fun _ hx _ hc => (congrArg Content.loraRequest hc).trans hx

/-- What has grown from no session is none. -/
theorem plain (h : q.Grows blockHasher q') (hq : q.Plain) : q'.Plain := by
  refine h.keeps (F := Plain) ⟨?_, ?_, ?_⟩ hq
  · exact fun hx _ hp => hp hx
  · exact fun _ hx _ hp => hp hx
  · exact fun _ hx hsession _ => absurd hx hsession

/-- The block hashes are only appended to. -/
theorem blockHashes (h : q.Grows blockHasher q') : q.blockHashes <+: q'.blockHashes := by
  have heq : ∀ {x y : Request}, y.content = x.content → y.blockHashes = x.blockHashes :=
    fun h => congrArg Content.blockHashes h
  refine h.keeps (F := fun x => q.blockHashes <+: x.blockHashes) ⟨?_, ?_, ?_⟩ (List.prefix_refl _)
  · exact fun hx hc _ => (heq hc).symm ▸ hx
  · exact fun _ hx hc _ => (heq hc).symm ▸ hx.trans (List.prefix_append _ _)
  · exact fun _ hx _ hc => (heq hc).symm ▸ hx.trans (List.prefix_append _ _)

end Grows

end Request

end RpsServe
