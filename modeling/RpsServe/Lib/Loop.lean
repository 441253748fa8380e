import Mathlib.Data.Nat.Notation
import Mathlib.Tactic.TypeStar

/-!
# Fallible loops with an early exit

A `while` loop whose body may fail, go round again or leave with a result. `loop` runs the
body under a round bound and reports `diverges` when the bound is used up. `Visits` is the
set of states at which a round begins, so that a condition on the loop's inputs can be put
on exactly the rounds that a run makes.

The invariant rules do the induction over rounds once: a property kept by every round of
the run holds at every round's start, and a property of every exit holds of the result.
-/

namespace RpsServe

/-- What one round of a loop does: begin the next round, or leave with a result. -/
inductive Pass (σ α : Type*) where
  | next (s : σ)
  | done (a : α)

variable {σ α ε : Type*}

/-- Run a loop body for at most the given number of rounds. -/
def loop (body : σ → Except ε (Pass σ α)) (diverges : ε) : ℕ → σ → Except ε α
  | 0, _ => .error diverges
  | n + 1, s =>
    match body s with
    | .error e => .error e
    | .ok (.done a) => .ok a
    | .ok (.next s') => loop body diverges n s'

/-- The states at which a round begins when the loop is started at `start`. -/
inductive Visits (body : σ → Except ε (Pass σ α)) (start : σ) : σ → Prop
  | start : Visits body start start
  | next {s s' : σ} : Visits body start s → body s = .ok (.next s') → Visits body start s'

variable {body : σ → Except ε (Pass σ α)} {diverges : ε}

/-- The rounds after the first are the rounds of the loop started at the second. -/
theorem Visits.of_next {s s' t : σ} (h : body s = .ok (.next s')) (ht : Visits body s' t) :
    Visits body s t := by
  induction ht with
  | start => exact .next .start h
  | next _ hstep ih => exact .next ih hstep

/-- A property that every round keeps holds at the start of every round. -/
theorem Visits.invariant {I : σ → Prop} {s t : σ} (ht : Visits body s t) (hs : I s)
    (hnext : ∀ u u', Visits body s u → I u → body u = .ok (.next u') → I u') : I t := by
  induction ht with
  | start => exact hs
  | next hv hstep ih => exact hnext _ _ hv ih hstep

/-- The state at which the round after the next `n` begins, if the loop comes to it. -/
def afterRounds (body : σ → Except ε (Pass σ α)) : ℕ → σ → Option σ
  | 0, s => some s
  | n + 1, s =>
    match body s with
    | .ok (.next s') => afterRounds body n s'
    | _ => none

/-- The state after some rounds is visited. -/
theorem Visits.of_afterRounds {n : ℕ} {s t : σ} (h : afterRounds body n s = some t) :
    Visits body s t := by
  induction n generalizing s with
  | zero =>
    cases h
    exact .start
  | succ n ih =>
    rw [afterRounds] at h
    split at h
    · rename_i s' hb
      exact (ih h).of_next hb
    · cases h

/-- `P` holds at the start of every round, and the loop ends within `n` rounds. -/
def AllRounds (body : σ → Except ε (Pass σ α)) (P : σ → Prop) : ℕ → σ → Prop
  | 0, _ => False
  | n + 1, s => P s ∧
    match body s with
    | .ok (.next s') => AllRounds body P n s'
    | _ => True

instance AllRounds.decidable (body : σ → Except ε (Pass σ α)) (P : σ → Prop) [DecidablePred P]
    (n : ℕ) (s : σ) : Decidable (AllRounds body P n s) :=
  match n with
  | 0 => .isFalse id
  | n + 1 =>
    haveI : Decidable (match body s with
        | .ok (.next s') => AllRounds body P n s'
        | _ => True) :=
      match body s with
      | .ok (.next s') => AllRounds.decidable body P n s'
      | .ok (.done _) | .error _ => .isTrue trivial
    inferInstanceAs (Decidable (_ ∧ _))

/-- What holds in all rounds holds of a visited state. -/
theorem AllRounds.of_visits {P : σ → Prop} {n : ℕ} {s t : σ} (h : AllRounds body P n s)
    (ht : Visits body s t) : P t := by
  suffices ∃ m, AllRounds body P (m + 1) t from this.elim fun _ hall => hall.1
  induction ht with
  | start =>
    cases n with
    | zero => exact h.elim
    | succ n => exact ⟨n, h⟩
  | next _ hstep ih =>
    obtain ⟨m, -, hrest⟩ := ih
    rw [hstep] at hrest
    cases m with
    | zero => exact hrest.elim
    | succ m => exact ⟨m, hrest⟩

/-- A loop whose rounds lower a measure comes to a round after which no other begins. -/
theorem exists_last_round (measure : σ → ℕ)
    (hnext : ∀ s s', body s = .ok (.next s') → measure s' < measure s) (s : σ) :
    ∃ n ≤ measure s, ∃ t, afterRounds body n s = some t ∧ ∀ t', body t ≠ .ok (.next t') := by
  by_cases h : ∃ s', body s = .ok (.next s')
  · obtain ⟨s', hs'⟩ := h
    have hlt := hnext s s' hs'
    obtain ⟨n, hn, t, ht, hlast⟩ := exists_last_round measure hnext s'
    refine ⟨n + 1, by omega, t, ?_, hlast⟩
    rw [afterRounds, hs']
    exact ht
  · exact ⟨0, Nat.zero_le _, s, rfl, fun t' ht' => h ⟨t', ht'⟩⟩
termination_by measure s

/-- A loop that returns does so from every round it visits. -/
theorem Visits.loop_rest {n : ℕ} {s t : σ} {a : α} (ht : Visits body s t)
    (h : loop body diverges n s = .ok a) : ∃ m, loop body diverges m t = .ok a := by
  induction ht with
  | start => exact ⟨n, h⟩
  | next _ hstep ih =>
    obtain ⟨m, hm⟩ := ih
    cases m with
    | zero => simp [loop] at hm
    | succ m => exact ⟨m, by rwa [loop, hstep] at hm⟩

/-- A loop that returns does so with the result of the round it leaves from. -/
theorem Visits.loop_done {n : ℕ} {s t : σ} {a b : α} (ht : Visits body s t)
    (hdone : body t = .ok (.done b)) (h : loop body diverges n s = .ok a) : b = a := by
  obtain ⟨m, hm⟩ := ht.loop_rest h
  cases m with
  | zero => cases hm
  | succ m =>
    rw [loop, hdone] at hm
    cases hm
    rfl

/-- Two bounds under which a loop returns lead to one result. -/
theorem loop_unique {n m : ℕ} {s : σ} {a b : α} (h : loop body diverges n s = .ok a)
    (h' : loop body diverges m s = .ok b) : a = b := by
  induction n generalizing m s with
  | zero => cases h
  | succ n ih =>
    cases m with
    | zero => cases h'
    | succ m =>
      rw [loop] at h h'
      cases hb : body s with
      | error e =>
        rw [hb] at h
        cases h
      | ok p =>
        rw [hb] at h h'
        cases p with
        | done a' =>
          cases h
          cases h'
          rfl
        | next s' => exact ih h h'

/-- A loop that returns leaves from a round it visits. -/
theorem loop_exit {n : ℕ} {s : σ} {a : α} (h : loop body diverges n s = .ok a) :
    ∃ t, Visits body s t ∧ body t = .ok (.done a) := by
  induction n generalizing s with
  | zero => simp [loop] at h
  | succ n ih =>
    rw [loop] at h
    split at h
    · cases h
    · rename_i hb
      cases h
      exact ⟨s, .start, hb⟩
    · rename_i s' hb
      obtain ⟨t, ht, hdone⟩ := ih h
      exact ⟨t, ht.of_next hb, hdone⟩

/-- What every round keeps and every exit turns into `Q` gives `Q` of the result. -/
theorem loop_rule {I : σ → Prop} {Q : α → Prop} {n : ℕ} {s : σ} {a : α}
    (h : loop body diverges n s = .ok a) (hs : I s)
    (hnext : ∀ t t', Visits body s t → I t → body t = .ok (.next t') → I t')
    (hdone : ∀ t a, Visits body s t → I t → body t = .ok (.done a) → Q a) : Q a := by
  obtain ⟨t, ht, hexit⟩ := loop_exit h
  exact hdone t a ht (ht.invariant hs hnext) hexit

/-- A loop whose rounds neither fail nor repeat a measure returns once the bound exceeds the
measure. -/
theorem loop_total {I : σ → Prop} (measure : σ → ℕ)
    (hround : ∀ t, I t → ∃ p, body t = .ok p ∧ ∀ t', p = .next t' → I t' ∧ measure t' < measure t)
    {n : ℕ} {s : σ} (hs : I s) (hn : measure s < n) : ∃ a, loop body diverges n s = .ok a := by
  induction n generalizing s with
  | zero => omega
  | succ n ih =>
    obtain ⟨p, hp, hmeasure⟩ := hround s hs
    cases p with
    | done a => exact ⟨a, by simp [loop, hp]⟩
    | next s' =>
      obtain ⟨hI, hlt⟩ := hmeasure s' rfl
      obtain ⟨a, ha⟩ := ih hI (by omega)
      exact ⟨a, by simp [loop, hp, ha]⟩

end RpsServe
