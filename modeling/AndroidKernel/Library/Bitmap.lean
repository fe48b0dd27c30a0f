import Mathlib.Order.Interval.Finset.Nat

/-!
# Bitmaps

A bitmap is a function from bit numbers; only bits below the size it is used with are read.
The scan for the next clear bit and the number of clear bits are related by what setting and
clearing one bit does to them.
-/

namespace AndroidKernel.Library

/-- A bitmap of any size. -/
abbrev Bitmap := Nat → Bool

namespace Bitmap

/-- `find_next_zero_bit`: the first clear bit from `offset` on, or `size`. -/
def findNextZeroBit (m : Bitmap) (size offset : Nat) : Nat :=
  ((List.range' offset (size - offset)).find? fun i => !m i).getD size

/-- `find_next_bit`: the first set bit from `offset` on, or `size`. -/
def findNextBit (m : Bitmap) (size offset : Nat) : Nat :=
  findNextZeroBit (fun i => !m i) size offset

/-- Writes `n` bits from `start` on, one after the other. -/
def writeBits (value : Bool) : Nat → Nat → Bitmap → Bitmap
  | _, 0, m => m
  | start, n + 1, m => writeBits value (start + 1) n (Function.update m start value)

/-- The clear bits below `size`. -/
def zeros (m : Bitmap) (size : Nat) : Finset Nat :=
  (Finset.range size).filter fun i => m i = false

/-- The set bits below `size`. -/
def ones (m : Bitmap) (size : Nat) : Finset Nat :=
  (Finset.range size).filter fun i => m i = true

variable {m : Bitmap} {size offset i : Nat}

@[simp]
theorem mem_zeros : i ∈ m.zeros size ↔ i < size ∧ m i = false := by
  simp [zeros]

/-- What the scan returns: every bit it passed is set, and it stopped at a clear bit or at the
end. -/
theorem findNextZeroBit_spec (h : offset ≤ size) :
    offset ≤ m.findNextZeroBit size offset ∧ m.findNextZeroBit size offset ≤ size ∧
      (m.findNextZeroBit size offset < size → m (m.findNextZeroBit size offset) = false) ∧
      ∀ i, offset ≤ i → i < m.findNextZeroBit size offset → m i = true := by
  unfold findNextZeroBit
  cases hfind : (List.range' offset (size - offset)).find? fun i => !m i with
  | none =>
    rw [List.find?_eq_none] at hfind
    refine ⟨h, Nat.le_refl _, fun hlt => absurd hlt (Nat.lt_irrefl _), fun i hle hlt => ?_⟩
    have hmem : i ∈ List.range' offset (size - offset) := by
      rw [List.mem_range'_1]
      simp only [Option.getD_none] at hlt
      omega
    simpa using hfind i hmem
  | some k =>
    have hmem := List.mem_of_find?_eq_some hfind
    rw [List.mem_range'_1] at hmem
    have hbit := List.find?_some hfind
    rw [Option.getD_some]
    refine ⟨by omega, by omega, fun _ => by simpa using hbit, fun i hle hlt => ?_⟩
    obtain ⟨-, before, after, heq, hbefore⟩ := List.find?_eq_some_iff_append.1 hfind
    have hi : i ∈ List.range' offset (size - offset) := by
      rw [List.mem_range'_1]
      omega
    have hsorted : (List.range' offset (size - offset)).Pairwise (· < ·) :=
      List.pairwise_lt_range'
    rw [heq] at hi hsorted
    rcases List.mem_append.1 hi with hi | hi
    · simpa using hbefore i hi
    · have hge : k ≤ i := by
        rcases List.mem_cons.1 hi with rfl | hi
        · exact Nat.le_refl _
        · have := (List.pairwise_cons.1 (List.pairwise_append.1 hsorted).2.1).1 i hi
          exact Nat.le_of_lt this
      omega

theorem findNextBit_spec (h : offset ≤ size) :
    offset ≤ m.findNextBit size offset ∧ m.findNextBit size offset ≤ size ∧
      ∀ i, offset ≤ i → i < m.findNextBit size offset → m i = false := by
  obtain ⟨hle, hsize, _, hclear⟩ := @findNextZeroBit_spec (fun i => !m i) size offset h
  refine ⟨hle, hsize, ?_⟩
  intro i hi hlt
  simpa using hclear i hi hlt

/-- A scan that stops before its end stops at a set bit. -/
theorem findNextBit_set (h : offset ≤ size) (hlt : m.findNextBit size offset < size) :
    m (m.findNextBit size offset) = true := by
  obtain ⟨_, _, hclear, _⟩ := @findNextZeroBit_spec (fun i => !m i) size offset h
  have hset : (!m (m.findNextBit size offset)) = false := hclear hlt
  simpa using hset

theorem writeBits_apply (value : Bool) (start n : Nat) (m : Bitmap) (i : Nat) :
    writeBits value start n m i = if start ≤ i ∧ i < start + n then value else m i := by
  induction n generalizing start m with
  | zero => rw [writeBits, if_neg (by omega)]
  | succ n ih =>
    rw [writeBits, ih]
    by_cases hstart : i = start
    · subst hstart
      rw [if_neg (by omega), Function.update_self, if_pos (by omega)]
    · rw [Function.update_of_ne hstart]
      by_cases hin : start ≤ i ∧ i < start + (n + 1)
      · rw [if_pos hin, if_pos (by omega)]
      · rw [if_neg hin, if_neg (by omega)]

/-- Setting a clear bit takes it from the clear ones. -/
theorem card_zeros_set (hi : i < size) (hclear : m i = false) :
    (zeros (Function.update m i true) size).card + 1 = (m.zeros size).card := by
  have hmem : i ∈ m.zeros size := mem_zeros.2 ⟨hi, hclear⟩
  have heq : zeros (Function.update m i true) size = (m.zeros size).erase i := by
    ext k
    by_cases hk : k = i
    · simp [hk]
    · simp [hk]
  rw [heq, Finset.card_erase_add_one hmem]

/-- Clearing a set bit adds it to the clear ones. -/
theorem card_zeros_clear (hi : i < size) (hset : m i = true) :
    (zeros (Function.update m i false) size).card = (m.zeros size).card + 1 := by
  have hmem : i ∉ m.zeros size := by simp [hset]
  have heq : zeros (Function.update m i false) size = insert i (m.zeros size) := by
    ext k
    by_cases hk : k = i
    · simp [hk, hi]
    · simp [hk]
  rw [heq, Finset.card_insert_of_notMem hmem]

/-- There is no clear bit left exactly when the count is zero. -/
theorem card_zeros_eq_zero : (m.zeros size).card = 0 ↔ ∀ i, i < size → m i = true := by
  rw [Finset.card_eq_zero, Finset.eq_empty_iff_forall_notMem]
  simp

@[simp]
theorem mem_ones : i ∈ m.ones size ↔ i < size ∧ m i = true := by
  simp [ones]

theorem card_ones_le (m : Bitmap) (size : Nat) : (m.ones size).card ≤ size := by
  have h := Finset.card_filter_le (Finset.range size) fun i => m i = true
  rwa [Finset.card_range] at h

/-- Setting a run of clear bits. -/
theorem card_ones_or {pos n : Nat} (hin : pos + n ≤ size)
    (hclear : ∀ i, pos ≤ i → i < pos + n → m i = false) :
    (ones (fun i => m i || decide (pos ≤ i ∧ i < pos + n)) size).card =
      (m.ones size).card + n := by
  have heq : ones (fun i => m i || decide (pos ≤ i ∧ i < pos + n)) size =
      m.ones size ∪ Finset.Ico pos (pos + n) := by
    ext i
    simp only [mem_ones, Finset.mem_union, Finset.mem_Ico, Bool.or_eq_true, decide_eq_true_eq]
    constructor
    · intro h
      exact h.2.imp (fun hbit => ⟨h.1, hbit⟩) id
    · rintro (h | h)
      · exact ⟨h.1, .inl h.2⟩
      · exact ⟨by omega, .inr h⟩
  have hdisjoint : Disjoint (m.ones size) (Finset.Ico pos (pos + n)) := by
    rw [Finset.disjoint_left]
    intro i hone hrun
    rw [Finset.mem_Ico] at hrun
    have hset := (mem_ones.1 hone).2
    rw [hclear i hrun.1 hrun.2] at hset
    cases hset
  rw [heq, Finset.card_union_of_disjoint hdisjoint, Nat.card_Ico, Nat.add_sub_cancel_left]

/-- There is no clear bit left exactly when the count of the set ones is the size. -/
theorem card_ones_eq_size : (m.ones size).card = size ↔ ∀ i, i < size → m i = true := by
  constructor
  · intro h i hi
    have hall : m.ones size = Finset.range size :=
      Finset.eq_of_subset_of_card_le (Finset.filter_subset _ _) (by rw [h, Finset.card_range])
    have hmem : i ∈ m.ones size := by
      rw [hall]
      exact Finset.mem_range.2 hi
    exact (mem_ones.1 hmem).2
  · intro h
    have hall : m.ones size = Finset.range size :=
      Finset.filter_true_of_mem fun i hi => h i (Finset.mem_range.1 hi)
    rw [hall, Finset.card_range]

end Bitmap

/-!
## Packed bits

A sequence of words as one sequence of bits, and a masked store in one of its words.
-/

variable {w : Nat} {map : Nat → BitVec w}

/-- Bit `b` of a sequence of words. -/
def bitAt (map : Nat → BitVec w) (b : Nat) : Bool :=
  (map (b / w)).getLsbD (b % w)

/-- The bits of `val` that the mask selects are stored in one word. -/
def putWord (map : Nat → BitVec w) (i : Nat) (mask val : BitVec w) : Nat → BitVec w :=
  Function.update map i (map i &&& ~~~mask ||| mask &&& val)

theorem bitAt_putWord (hw : 0 < w) (i b : Nat) (mask val : BitVec w) :
    bitAt (putWord map i mask val) b =
      if b / w = i ∧ mask.getLsbD (b % w) = true then val.getLsbD (b % w) else bitAt map b := by
  have hlt : b % w < w := Nat.mod_lt b hw
  unfold bitAt putWord
  by_cases hi : b / w = i
  · subst hi
    rw [Function.update_self, BitVec.getLsbD_or, BitVec.getLsbD_and, BitVec.getLsbD_and,
      BitVec.getLsbD_not, decide_eq_true hlt]
    cases mask.getLsbD (b % w) <;> simp
  · rw [Function.update_of_ne hi, if_neg fun h => hi h.1]

end AndroidKernel.Library
