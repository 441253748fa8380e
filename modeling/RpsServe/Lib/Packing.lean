import Mathlib.Data.Int.Notation
import Mathlib.Data.Nat.Notation
import Mathlib.Data.Int.Order.Basic
import Mathlib.Logic.Function.Basic
import Mathlib.Tactic.TypeStar

/-!
# Spans packed into a region

Spans of a line of addresses, held in slots, that lie inside a region and apart from each other.
A span can be taken out of its slot, cut in two, joined with a neighbour and put back, and the
packing survives. `Spare` says that a span is in nobody's slot: it is what the hand holds between
the moves.
-/

namespace RpsServe

/-- The addresses from `start` on, `size` of them. -/
structure Span where
  start : ℤ
  size : ℕ

namespace Span

/-- The first address behind the span. -/
def stop (b : Span) : ℤ := b.start + b.size

/-- No address is in both. -/
def Apart (b c : Span) : Prop := b.stop ≤ c.start ∨ c.stop ≤ b.start

/-- Every address is in the region. -/
def Within (b region : Span) : Prop := region.start ≤ b.start ∧ b.stop ≤ region.stop

variable {b c : Span}

/-- Two spans that are apart are so in either order. -/
theorem Apart.symm (h : b.Apart c) : c.Apart b := Or.symm h

/-- Spans that are not empty and lie apart start apart. -/
theorem Apart.start_ne (h : b.Apart c) (hb : 0 < b.size) (hc : 0 < c.size) :
    b.start ≠ c.start := by
  simp only [Apart, stop] at h
  omega

end Span

variable {ι : Type*} {region b c : Span} {held : ι → Option Span} {i j : ι}

/-- The spans in the slots are not empty, lie in the region and lie apart. -/
structure Packed (region : Span) (held : ι → Option Span) : Prop where
  pos : ∀ i b, held i = some b → 0 < b.size
  within : ∀ i b, held i = some b → b.Within region
  apart : ∀ i j b c, held i = some b → held j = some c → i ≠ j → b.Apart c

/-- A span of the region that meets no span in a slot. -/
structure Spare (region : Span) (held : ι → Option Span) (b : Span) : Prop where
  pos : 0 < b.size
  within : b.Within region
  apart : ∀ i c, held i = some c → b.Apart c

/-- No slot holds a span that begins where a spare one does. -/
theorem Spare.start_ne (hb : Spare region held b) (hp : Packed region held)
    (hc : held i = some c) : b.start ≠ c.start :=
  (hb.apart i c hc).start_ne hb.pos (hp.pos i c hc)

/-- A packing of nothing. -/
theorem Packed.none : Packed region fun _ : ι => Option.none :=
  ⟨by simp, by simp, by simp⟩

/-- A spare span and the span of a slot right behind it are one spare span. -/
theorem Spare.join {a : ℤ} {m n : ℕ} (hp : Packed region held) (h : Spare region held ⟨a, m⟩)
    (hc : Spare region held ⟨a + m, n⟩) : Spare region held ⟨a, m + n⟩ := by
  have hin := h.within
  have hin' := hc.within
  have hpos := h.pos
  refine ⟨by simp only at hpos ⊢; omega, ?_, fun j d hd => ?_⟩
  · simp only [Span.Within, Span.stop] at hin hin' ⊢
    omega
  · have hap := h.apart j d hd
    have hap' := hc.apart j d hd
    have hd := hp.pos j d hd
    simp only [Span.Apart, Span.stop] at hap hap' ⊢
    omega

variable [DecidableEq ι]

/-- What a slot holds after some slot was cleared was there before. -/
theorem held_of_cleared (h : Function.update held i Option.none j = some b) :
    j ≠ i ∧ held j = some b := by
  by_cases hj : j = i
  · rw [hj, Function.update_self] at h
    cases h
  · rw [Function.update_of_ne hj] at h
    exact ⟨hj, h⟩

/-- A slot is cleared. -/
theorem Packed.clear (h : Packed region held) (i : ι) :
    Packed region (Function.update held i Option.none) where
  pos j b hb := h.pos j b (held_of_cleared hb).2
  within j b hb := h.within j b (held_of_cleared hb).2
  apart j k b c hb hc := h.apart j k b c (held_of_cleared hb).2 (held_of_cleared hc).2

/-- The span of a cleared slot is spare. -/
theorem Packed.spare_of_clear (h : Packed region held) (hi : held i = some b) :
    Spare region (Function.update held i Option.none) b where
  pos := h.pos i b hi
  within := h.within i b hi
  apart j c hc := h.apart i j b c hi (held_of_cleared hc).2 (held_of_cleared hc).1.symm

/-- A spare span stays spare when a slot is cleared. -/
theorem Spare.clear (h : Spare region held b) (i : ι) :
    Spare region (Function.update held i Option.none) b :=
  ⟨h.pos, h.within, fun j c hc => h.apart j c (held_of_cleared hc).2⟩

/-- A spare span is put into a slot. -/
theorem Packed.put (h : Packed region held) (hb : Spare region held b) (i : ι) :
    Packed region (Function.update held i (some b)) := by
  have hheld : ∀ j c, Function.update held i (some b) j = some c →
      (j = i ∧ c = b) ∨ (j ≠ i ∧ held j = some c) := by
    intro j c hc
    by_cases hj : j = i
    · rw [hj, Function.update_self] at hc
      exact .inl ⟨hj, (Option.some.inj hc).symm⟩
    · rw [Function.update_of_ne hj] at hc
      exact .inr ⟨hj, hc⟩
  constructor
  · intro j c hc
    rcases hheld j c hc with ⟨-, rfl⟩ | ⟨-, hc'⟩
    · exact hb.pos
    · exact h.pos j c hc'
  · intro j c hc
    rcases hheld j c hc with ⟨-, rfl⟩ | ⟨-, hc'⟩
    · exact hb.within
    · exact h.within j c hc'
  · intro j k c d hc hd hjk
    rcases hheld j c hc with ⟨rfl, rfl⟩ | ⟨-, hc'⟩
    · rcases hheld k d hd with ⟨rfl, -⟩ | ⟨-, hd'⟩
      · exact absurd rfl hjk
      · exact hb.apart k d hd'
    · rcases hheld k d hd with ⟨-, rfl⟩ | ⟨-, hd'⟩
      · exact (hb.apart j c hc').symm
      · exact h.apart j k c d hc' hd' hjk

/-- A spare span is cut: the upper part goes into a slot, the lower part stays spare. -/
theorem Spare.cut {a : ℤ} {m n : ℕ} (h : Spare region held ⟨a, m + n⟩) (hm : 0 < m) (hn : 0 < n)
    (i : ι) : Spare region held ⟨a + m, n⟩ ∧
      Spare region (Function.update held i (some ⟨a + m, n⟩)) ⟨a, m⟩ := by
  have hin := h.within
  have hap := h.apart
  simp only [Span.Within, Span.Apart, Span.stop] at hin hap
  constructor
  · refine ⟨hn, ?_, fun j c hc => ?_⟩
    · simp only [Span.Within, Span.stop]
      omega
    · have := hap j c hc
      simp only [Span.Apart, Span.stop]
      omega
  · refine ⟨hm, ?_, fun j c hc => ?_⟩
    · simp only [Span.Within, Span.stop]
      omega
    · by_cases hj : j = i
      · rw [hj, Function.update_self] at hc
        obtain rfl := Option.some.inj hc
        exact .inl (le_refl (a + m))
      · rw [Function.update_of_ne hj] at hc
        have := hap j c hc
        simp only [Span.Apart, Span.stop]
        omega

end RpsServe
