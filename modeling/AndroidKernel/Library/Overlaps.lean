import Mathlib.Tactic.Common

/-!
# Overlaps of a pattern with a text

An overlap at a place of a text is a prefix of the pattern that ends there. The longest overlap at
the next place is found from the longest one at this place and from the longest overlaps of the
pattern with its own rest. `Candidate` is what is known on the way.
-/

namespace AndroidKernel.Library

variable {α : Type} {pat text : Nat → α} {len e k q b : Nat}

/-- The first `k` values of the pattern are the last `k` values of the text before `e`. -/
def Overlap (pat text : Nat → α) (e k : Nat) : Prop :=
  k ≤ e ∧ ∀ j, j < k → text (e - k + j) = pat j

/-- A pattern without its first value. Its overlaps with the pattern are the proper ones. -/
def patRest (pat : Nat → α) : Nat → α := fun i => pat (i + 1)

theorem overlap_zero (pat text : Nat → α) (e : Nat) : Overlap pat text e 0 :=
  ⟨Nat.zero_le e, fun j hj => absurd hj (Nat.not_lt_zero j)⟩

theorem overlap_succ :
    Overlap pat text (e + 1) (k + 1) ↔ Overlap pat text e k ∧ text e = pat k := by
  unfold Overlap
  constructor
  · rintro ⟨hle, hvals⟩
    have hstart : e + 1 - (k + 1) = e - k := Nat.add_sub_add_right e 1 k
    rw [hstart] at hvals
    refine ⟨⟨Nat.le_of_succ_le_succ hle, fun j hj => hvals j (Nat.lt_succ_of_lt hj)⟩, ?_⟩
    have hlast := hvals k (Nat.lt_succ_self k)
    rwa [Nat.sub_add_cancel (Nat.le_of_succ_le_succ hle)] at hlast
  · rintro ⟨⟨hle, hvals⟩, hlast⟩
    refine ⟨Nat.succ_le_succ hle, fun j hj => ?_⟩
    rw [Nat.add_sub_add_right]
    rcases Nat.lt_succ_iff_lt_or_eq.mp hj with hlt | rfl
    · exact hvals j hlt
    · rw [Nat.sub_add_cancel hle]
      exact hlast

/-- The shorter overlaps at a place are the overlaps of the pattern with its rest. -/
theorem Overlap.shorter (h : Overlap pat text e (q + 1)) (hk : k ≤ q) :
    Overlap pat text e k ↔ Overlap pat (patRest pat) q k := by
  obtain ⟨hle, hvals⟩ := h
  have hsame : ∀ j, j < k → text (e - k + j) = patRest pat (q - k + j) := fun j hj => by
    have hval := hvals (q - k + j + 1) (by omega)
    rw [show e - (q + 1) + (q - k + j + 1) = e - k + j by omega] at hval
    exact hval
  constructor
  · rintro ⟨-, hshort⟩
    exact ⟨hk, fun j hj => (hsame j hj).symm.trans (hshort j hj)⟩
  · rintro ⟨-, hshort⟩
    exact ⟨by omega, fun j hj => (hsame j hj).trans (hshort j hj)⟩

/-- The longest of the overlaps of at most `len` values. -/
structure Longest (pat text : Nat → α) (len e q : Nat) : Prop where
  overlap : Overlap pat text e q
  most : ∀ k, k ≤ len → Overlap pat text e k → k ≤ q

/-- An overlap, and no longer one goes on at the next place. -/
structure Candidate (pat text : Nat → α) (len e q : Nat) : Prop where
  overlap : Overlap pat text e q
  most : ∀ k, k < len → Overlap pat text (e + 1) (k + 1) → k ≤ q

theorem Longest.candidate (h : Longest pat text len e q) : Candidate pat text len e q :=
  ⟨h.overlap, fun k hk hnext => h.most k (Nat.le_of_lt hk) (overlap_succ.mp hnext).1⟩

/-- When a candidate does not go on, the next one is the longest overlap with the rest. -/
theorem Candidate.back (h : Candidate pat text len e (q + 1)) (hne : pat (q + 1) ≠ text e)
    (hlongest : Longest pat (patRest pat) len q b) : Candidate pat text len e b := by
  have hb : b ≤ q := hlongest.overlap.1
  refine ⟨(h.overlap.shorter hb).mpr hlongest.overlap, fun k hk hnext => ?_⟩
  obtain ⟨hoverlap, hval⟩ := overlap_succ.mp hnext
  have hle := h.most k hk hnext
  have hneq : k ≠ q + 1 := by
    rintro rfl
    exact hne hval.symm
  exact hlongest.most k (Nat.le_of_lt hk) ((h.overlap.shorter (by omega)).mp hoverlap)

theorem Candidate.next (h : Candidate pat text len e q) (heq : pat q = text e) :
    Longest pat text len (e + 1) (q + 1) := by
  refine ⟨overlap_succ.mpr ⟨h.overlap, heq.symm⟩, fun k hk hoverlap => ?_⟩
  cases k with
  | zero => exact Nat.zero_le _
  | succ k => exact Nat.succ_le_succ (h.most k hk hoverlap)

/-- The empty candidate does not go on. -/
theorem Candidate.stop (h : Candidate pat text len e 0) (hne : pat 0 ≠ text e) :
    Longest pat text len (e + 1) 0 := by
  refine ⟨overlap_zero pat text (e + 1), fun k hk hoverlap => ?_⟩
  cases k with
  | zero => exact Nat.le_refl 0
  | succ k =>
    have hle := h.most k hk hoverlap
    rw [Nat.le_zero.mp hle] at hoverlap
    exact absurd (overlap_succ.mp hoverlap).2.symm hne

theorem longest_zero (pat text : Nat → α) (len : Nat) : Longest pat text len 0 0 :=
  ⟨overlap_zero pat text 0, fun _ _ h => h.1⟩

end AndroidKernel.Library
