import RpsServe.Lib.Dict
import RpsServe.Lib.Except
import RpsServe.Lib.Loop
import Mathlib.Data.Finset.Card
import Mathlib.Logic.Function.Basic

/-!
# Moving the places of a permutation by swaps

A dictionary says for some of the places of a store which place their contents are to go
to. Along each cycle the contents of the first place are swapped with those of the place
they belong to, until what has come to the first place belongs there. If the dictionary is
a permutation, every content ends up where the dictionary sends it.
-/

namespace RpsServe

universe u v

variable {σ : Type u} {ε : Type v}

/-- One swap along the cycle of `src`, whose contents belong to `t.2.2`. -/
def cycleRound (swap : σ → ℕ → ℕ → Except ε σ) (src : ℕ) (t : Dict ℕ ℕ × σ × ℕ) :
    Except ε (Pass (Dict ℕ ℕ × σ × ℕ) (Dict ℕ ℕ × σ)) :=
  if src = t.2.2 then .ok (.done (t.1, t.2.1))
  else do
    let s ← swap t.2.1 src t.2.2
    .ok (.next (t.1.set t.2.2 t.2.2, s, (t.1.get? t.2.2).getD t.2.2))

/-- The swaps along the cycle of one place. Each of them settles a further place. -/
def followCycle (swap : σ → ℕ → ℕ → Except ε σ) (diverges : ε) (t : Dict ℕ ℕ × σ) (src : ℕ) :
    Except ε (Dict ℕ ℕ × σ) :=
  loop (cycleRound swap src) diverges (t.1.keys.length + 1)
    (t.1, t.2, (t.1.get? src).getD src)

/-- The swaps along the cycles of all places. -/
def followCycles (swap : σ → ℕ → ℕ → Except ε σ) (diverges : ε) (m : Dict ℕ ℕ) (s : σ) :
    Except ε σ :=
  Prod.snd <$> m.keys.foldlM (followCycle swap diverges) (m, s)

/-- Where the contents of a place go. -/
def destination (m : Dict ℕ ℕ) (k : ℕ) : ℕ := (m.get? k).getD k

/-- A place that is no key stays where it is. -/
theorem destination_of_notMem {m : Dict ℕ ℕ} {k : ℕ} (h : k ∉ m.keys) : destination m k = k := by
  rw [← Dict.isSome_get?] at h
  rw [destination, Option.not_isSome_iff_eq_none.mp h]
  rfl

variable {α : Type*} {swap : σ → ℕ → ℕ → Except ε σ} {diverges : ε} {obs : σ → ℕ → α}
  {I : σ → Prop} {T : ℕ → α} {keys : List ℕ}

/-- A swap of two of the places exchanges what is seen there. -/
def Swaps (swap : σ → ℕ → ℕ → Except ε σ) (obs : σ → ℕ → α) (I : σ → Prop) (keys : List ℕ) :
    Prop :=
  ∀ s i j, I s → i ∈ keys → j ∈ keys → i ≠ j → ∃ s', swap s i j = .ok s' ∧ I s' ∧
    ∀ k, obs s' k = if k = j then obs s i else if k = i then obs s j else obs s k

/-- The contents are on their way to the arrangement `T`: what stands at `k` goes to `dest k`. -/
structure OnWay (obs : σ → ℕ → α) (T : ℕ → α) (keys : List ℕ) (dest : ℕ → ℕ) (s : σ) : Prop where
  injective : Function.Injective dest
  outside : ∀ k, k ∉ keys → dest k = k
  arrives : ∀ k, T (dest k) = obs s k

/-- The places whose contents still have to move. -/
def unsettled (keys : List ℕ) (dest : ℕ → ℕ) : Finset ℕ := keys.toFinset.filter fun k => dest k ≠ k

namespace OnWay

variable {dest : ℕ → ℕ} {s s' : σ} {src dst : ℕ}

/-- The place to go to is one of the places, unless the contents stay. -/
theorem dest_mem (h : OnWay obs T keys dest s) (hne : dest src ≠ src) : dest src ∈ keys := by
  by_contra hnot
  exact hne (h.injective (h.outside _ hnot))

variable (s') in
/-- After the swap the contents that were at `src` are settled, and `src` holds what has to go
where `dst` pointed to. -/
theorem swap_step (h : OnWay obs T keys dest s) (hsrc : src ∈ keys) (hne : dest src ≠ src)
    (hobs : ∀ k, obs s' k =
      if k = dest src then obs s src else if k = src then obs s (dest src) else obs s k) :
    OnWay obs T keys (Function.update (Function.update dest (dest src) (dest src)) src
      (dest (dest src))) s' := by
  have hinj := h.injective
  have hmem := h.dest_mem hne
  refine ⟨fun a b hab => ?_, fun k hk => ?_, fun k => ?_⟩
  · simp only [Function.update_apply] at hab
    have hinj' : ∀ x y, dest x = dest y → x = y := fun x y hxy => hinj hxy
    grind
  · have hks : k ≠ src := fun heq => hk (heq ▸ hsrc)
    have hkd : k ≠ dest src := fun heq => hk (heq ▸ hmem)
    rw [Function.update_of_ne hks, Function.update_of_ne hkd, h.outside k hk]
  · rw [hobs]
    by_cases hks : k = src
    · subst hks
      rw [if_neg (Ne.symm hne), if_pos rfl, Function.update_self, h.arrives]
    · rw [Function.update_of_ne hks]
      by_cases hkd : k = dest src
      · rw [if_pos hkd, hkd, Function.update_self, h.arrives]
      · rw [if_neg hkd, if_neg hks, Function.update_of_ne hkd, h.arrives]

/-- Each swap settles a place. -/
theorem unsettled_lt (h : OnWay obs T keys dest s) (hne : dest src ≠ src) :
    (unsettled keys (Function.update (Function.update dest (dest src) (dest src)) src
      (dest (dest src)))).card < (unsettled keys dest).card := by
  have hmem := h.dest_mem hne
  refine Finset.card_lt_card ⟨fun k hk => ?_, fun hsub => ?_⟩
  · simp only [unsettled, Finset.mem_filter, List.mem_toFinset] at hk ⊢
    refine ⟨hk.1, ?_⟩
    by_cases hks : k = src
    · rwa [hks]
    · have hk2 := hk.2
      rw [Function.update_of_ne hks] at hk2
      by_cases hkd : k = dest src
      · rw [hkd, Function.update_self] at hk2
        exact absurd rfl hk2
      · rwa [Function.update_of_ne hkd] at hk2
  · have hin : dest src ∈ unsettled keys dest := by
      simp only [unsettled, Finset.mem_filter, List.mem_toFinset]
      exact ⟨hmem, fun heq => hne (h.injective heq)⟩
    have hout := hsub hin
    simp only [unsettled, Finset.mem_filter, List.mem_toFinset] at hout
    rw [Function.update_of_ne hne, Function.update_self] at hout
    exact hout.2 rfl

end OnWay

/-- Where the contents go once the places in `settled` hold what belongs there. -/
def remaining (m : Dict ℕ ℕ) (settled : List ℕ) (k : ℕ) : ℕ :=
  if k ∈ settled then k else destination m k

variable (diverges) in
/-- The swaps of a place's cycle settle that place too. -/
theorem followCycle_spec {m : Dict ℕ ℕ} {s : σ} {src : ℕ} {settled : List ℕ}
    (hswap : Swaps swap obs I m.keys) (hs : I s) (hsrc : src ∈ m.keys) (hnew : src ∉ settled)
    (hway : OnWay obs T m.keys (remaining m settled) s) :
    ∃ m' s', followCycle swap diverges (m, s) src = .ok (m', s') ∧ I s' ∧ m'.keys = m.keys ∧
      OnWay obs T m.keys (remaining m' (src :: settled)) s' := by
  let J : Dict ℕ ℕ × σ × ℕ → Prop := fun t => I t.2.1 ∧ t.1.keys = m.keys ∧
    OnWay obs T m.keys (Function.update (remaining t.1 settled) src t.2.2) t.2.1
  let measure : Dict ℕ ℕ × σ × ℕ → ℕ := fun t =>
    (unsettled m.keys (Function.update (remaining t.1 settled) src t.2.2)).card
  have hround : ∀ t, J t → ∃ p, cycleRound swap src t = .ok p ∧
      ∀ t', p = .next t' → J t' ∧ measure t' < measure t := by
    rintro ⟨d, t, dst⟩ ⟨hI, hkeys, hway⟩
    simp only at hI hkeys hway
    unfold cycleRound
    split
    · exact ⟨_, rfl, fun t' h => by cases h⟩
    · rename_i hne
      simp only at hne
      have hself : Function.update (remaining d settled) src dst src = dst :=
        Function.update_self ..
      have hne' : Function.update (remaining d settled) src dst src ≠ src := by
        rw [hself]
        exact Ne.symm hne
      have hdst : dst ∈ m.keys := hself ▸ hway.dest_mem hne'
      obtain ⟨s', hs', hI', hobs⟩ := hswap t src dst hI hsrc hdst hne
      refine ⟨_, bind_eq_ok.mpr ⟨s', hs', rfl⟩, ?_⟩
      rintro t' ⟨⟩
      have hstep := hway.swap_step s' hsrc hne' (by rwa [hself])
      have hlt := hway.unsettled_lt hne'
      have hopen : dst ∉ settled := fun hmem => by
        have hfix : Function.update (remaining d settled) src dst dst = dst := by
          rw [Function.update_of_ne (Ne.symm hne), remaining, if_pos hmem]
        exact hne (hway.injective (hself.trans hfix.symm))
      have heq : Function.update (Function.update
            (Function.update (remaining d settled) src dst) dst dst) src
            (Function.update (remaining d settled) src dst dst) =
          Function.update (remaining (d.set dst dst) settled) src ((d.get? dst).getD dst) := by
        funext k
        by_cases hks : k = src
        · rw [hks, Function.update_self, Function.update_self, Function.update_of_ne (Ne.symm hne),
            remaining, if_neg hopen]
          rfl
        · rw [Function.update_of_ne hks, Function.update_of_ne hks]
          by_cases hkd : k = dst
          · rw [hkd, Function.update_self, remaining, if_neg hopen, destination,
              Dict.get?_set_self]
            rfl
          · rw [Function.update_of_ne hkd, Function.update_of_ne hks, remaining, remaining,
              destination, destination, Dict.get?_set_ne _ _ (Ne.symm hkd)]
      rw [hself] at hstep hlt
      rw [heq] at hstep hlt
      refine ⟨⟨hI', ?_, hstep⟩, hlt⟩
      simp only [Dict.keys_set, hkeys, if_pos hdst]
  have hstart : J (m, s, (m.get? src).getD src) := by
    refine ⟨hs, rfl, ?_⟩
    have heq : Function.update (remaining m settled) src ((m.get? src).getD src) =
        remaining m settled := by
      refine Function.update_eq_self_iff.mpr ?_
      rw [remaining, if_neg hnew]
      rfl
    rw [heq]
    exact hway
  have hbound : measure (m, s, (m.get? src).getD src) < m.keys.length + 1 :=
    Nat.lt_succ_of_le ((Finset.card_filter_le _ _).trans (List.toFinset_card_le _))
  obtain ⟨⟨m', s'⟩, hloop⟩ : ∃ p, loop (cycleRound swap src) diverges (m.keys.length + 1)
      (m, s, (m.get? src).getD src) = .ok p := loop_total measure hround hstart hbound
  have hJ := loop_rule (Q := fun p : Dict ℕ ℕ × σ => I p.2 ∧ p.1.keys = m.keys ∧
      OnWay obs T m.keys (remaining p.1 (src :: settled)) p.2) hloop hstart
    (fun t t' _ ht hnext => by
      obtain ⟨p, hp, hmeasure⟩ := hround t ht
      rw [hp] at hnext
      cases hnext
      exact (hmeasure t' rfl).1)
    (fun t a _ ht hdone => by
      obtain ⟨d, t, dst⟩ := t
      obtain ⟨hI, hkeys, hway⟩ := ht
      unfold cycleRound at hdone
      split at hdone
      · rename_i heq
        cases hdone
        simp only at hway heq
        subst heq
        have hremaining : Function.update (remaining d settled) src src =
            remaining d (src :: settled) := by
          funext k
          by_cases hks : k = src
          · rw [hks, Function.update_self, remaining, if_pos (by simp)]
          · rw [Function.update_of_ne hks, remaining, remaining]
            simp [hks]
        rw [hremaining] at hway
        exact ⟨hI, hkeys, hway⟩
      · obtain ⟨s'', -, hdone⟩ := bind_eq_ok.mp hdone
        cases hdone)
  exact ⟨m', s', hloop, hJ.1, hJ.2.1, hJ.2.2⟩

variable (diverges obs) in
/-- If the dictionary permutes its keys, the swaps succeed and bring the contents of every place to
its destination. -/
theorem followCycles_spec {m : Dict ℕ ℕ} {s : σ} (hinj : Function.Injective (destination m))
    (hswap : Swaps swap obs I m.keys) (hs : I s) :
    ∃ s', followCycles swap diverges m s = .ok s' ∧ I s' ∧
      ∀ k, obs s' (destination m k) = obs s k := by
  have hfold : ∀ (rest settled : List ℕ) (d : Dict ℕ ℕ) (t : σ), rest.Nodup →
      (∀ k ∈ rest, k ∈ m.keys ∧ k ∉ settled) → d.keys = m.keys → I t →
      OnWay obs (Function.extend (destination m) (obs s) (obs s)) m.keys (remaining d settled) t →
      ∃ d' s', rest.foldlM (followCycle swap diverges) (d, t) = .ok (d', s') ∧ I s' ∧
        OnWay obs (Function.extend (destination m) (obs s) (obs s)) m.keys
          (remaining d' (rest.reverse ++ settled)) s' := by
    intro rest
    induction rest with
    | nil => exact fun settled d t _ _ _ hI hway => ⟨d, t, rfl, hI, hway⟩
    | cons src rest ih =>
      intro settled d t hnodup hrest hkeys hI hway
      obtain ⟨hsrc, hopen⟩ := hrest src (by simp)
      rw [← hkeys] at hway hswap hsrc
      obtain ⟨d₁, t₁, hcycle, hI₁, hkeys₁, hway₁⟩ :=
        followCycle_spec diverges hswap hI hsrc hopen hway
      rw [hkeys] at hway₁ hkeys₁
      rw [hkeys] at hswap
      obtain ⟨hnot, hnodup'⟩ := List.nodup_cons.mp hnodup
      obtain ⟨d', s', hfold, hI', hway'⟩ := ih (src :: settled) d₁ t₁ hnodup'
        (fun k hk => ⟨(hrest k (by simp [hk])).1, by
          rw [List.mem_cons, not_or]
          exact ⟨fun heq => hnot (heq ▸ hk), (hrest k (by simp [hk])).2⟩⟩) hkeys₁ hI₁ hway₁
      refine ⟨d', s', foldlM_cons_eq_ok.mpr ⟨_, hcycle, hfold⟩, hI', ?_⟩
      simpa using hway'
  have hnone : remaining m [] = destination m := funext fun k => by simp [remaining]
  have hstart : OnWay obs (Function.extend (destination m) (obs s) (obs s)) m.keys
      (remaining m []) s :=
    ⟨by rwa [hnone], fun k hk => by simp [remaining, destination_of_notMem hk],
      fun k => by simp [remaining, hinj.extend_apply]⟩
  obtain ⟨d', s', hrun, hI', hway⟩ := hfold m.keys [] m s m.keys_nodup (by simp) rfl hs hstart
  refine ⟨s', map_eq_ok.mpr ⟨_, hrun, rfl⟩, hI', fun k => ?_⟩
  have harrive := hway.arrives (destination m k)
  have hfix : remaining d' (m.keys.reverse ++ []) (destination m k) = destination m k := by
    by_cases hk : destination m k ∈ m.keys
    · simp [remaining, hk]
    · exact hway.outside _ hk
  rw [hfix, hinj.extend_apply] at harrive
  exact harrive.symm

end RpsServe
