import AndroidKernel.NandEcc.Correct

/-!
# Detection of double bits

Read `nand_ecc_detects_double` first. Comparison is linear: the codes of a block and a code that
differ in two bits from what was written differ in the exclusive sum of what each bit changes. Two
data bits leave each pair of parities equal, a code bit spoils one pair of a data bit, and two code
bits are too few for the pairs.
-/

namespace AndroidKernel.NandEcc

/-! ## Syndromes -/

/-- The bytes `b0`, `b1` and `b2`, in which two codes differ. -/
@[ext]
structure Syndrome where
  b0 : BitVec 8
  b1 : BitVec 8
  b2 : BitVec 8

namespace Syndrome

/-- The exclusive sum. -/
def add (s s' : Syndrome) : Syndrome :=
  ⟨s.b0 ^^^ s'.b0, s.b1 ^^^ s'.b1, s.b2 ^^^ s'.b2⟩

theorem add_comm (s s' : Syndrome) : s.add s' = s'.add s :=
  Syndrome.ext (BitVec.xor_comm ..) (BitVec.xor_comm ..) (BitVec.xor_comm ..)

/-- A single bit of one of the bytes. -/
def single (place j : Nat) : Syndrome :=
  match place with
  | 0 => ⟨1#8 <<< j, 0#8, 0#8⟩
  | 1 => ⟨0#8, 1#8 <<< j, 0#8⟩
  | _ => ⟨0#8, 0#8, 1#8 <<< j⟩

/-- The number of bits. -/
def count (s : Syndrome) : Nat :=
  lookup bitsperbyte s.b0 + lookup bitsperbyte s.b1 + lookup bitsperbyte s.b2

/-- `nand_correct_data` takes the last branch. -/
structure Uncorrectable (eccsizeMult : Nat) (s : Syndrome) : Prop where
  differs : s.b0 ||| s.b1 ||| s.b2 ≠ 0
  notData : ¬ (halfSet 0x55 s.b0 ∧ halfSet 0x55 s.b1 ∧
    (eccsizeMult = 1 ∧ halfSet 0x54 s.b2 ∨ eccsizeMult = 2 ∧ halfSet 0x55 s.b2))
  notCode : s.count ≠ 1

/-- Two bits or more are a difference. -/
theorem uncorrectable_of_count {eccsizeMult : Nat} {s : Syndrome} (hcount : 2 ≤ s.count)
    (hdata : ¬ (halfSet 0x55 s.b0 ∧ halfSet 0x55 s.b1 ∧
      (eccsizeMult = 1 ∧ halfSet 0x54 s.b2 ∨ eccsizeMult = 2 ∧ halfSet 0x55 s.b2))) :
    s.Uncorrectable eccsizeMult := by
  refine ⟨fun hzero => ?_, hdata, by omega⟩
  obtain ⟨h01, h2⟩ := BitVec.or_eq_zero_iff.mp hzero
  obtain ⟨h0, h1⟩ := BitVec.or_eq_zero_iff.mp h01
  have hnone : s.count = 0 := by
    rw [count, h0, h1, h2]
    rfl
  omega

theorem Uncorrectable.correct {eccsizeMult : Nat} {s : Syndrome} (h : s.Uncorrectable eccsizeMult)
    (buf : Nat → BitVec 8) : NandEcc.correct eccsizeMult buf s.b0 s.b1 s.b2 = (-1, buf) := by
  rw [NandEcc.correct, if_neg h.differs, if_neg h.notData]
  exact if_neg h.notCode

end Syndrome

/-- The syndrome of two codes. -/
def diffs (smc : Bool) (readEcc calcEcc : Ecc) : Syndrome :=
  ⟨diff0 smc readEcc calcEcc, diff1 smc readEcc calcEcc, readEcc.code2 ^^^ calcEcc.code2⟩

theorem nandCorrectData_of_uncorrectable {smc : Bool} {eccsizeMult : Nat} {readEcc calcEcc : Ecc}
    (h : (diffs smc readEcc calcEcc).Uncorrectable eccsizeMult) (buf : Nat → BitVec 8) :
    nandCorrectData smc eccsizeMult buf readEcc calcEcc = (-1, buf) :=
  h.correct buf

/-- What a byte of the code is compared as. -/
def place (smc : Bool) : Nat → Nat
  | 0 => if smc then 0 else 1
  | 1 => if smc then 1 else 0
  | _ => 2

/-- The syndrome of a difference. -/
def Difference.syndrome (smc : Bool) (eccsizeMult : Nat) : Difference → Syndrome
  | none => ⟨0, 0, 0⟩
  | data k j => ⟨lowPairs k, highPairs k, columnPairs eccsizeMult k j⟩
  | code byte j => .single (place smc byte) j

section Linear

variable {smc : Bool} {eccsizeMult : Nat} {ecc calcEcc : Ecc} {δ : Difference}

theorem xor_xor_left (x y e : BitVec 8) : x ^^^ e ^^^ y = x ^^^ y ^^^ e := by
  ac_rfl

/-- A change of the code that is read. -/
theorem diffs_flip (byte j : Nat) :
    diffs smc (ecc.flip byte j) calcEcc = (diffs smc ecc calcEcc).add (.single (place smc byte) j) := by
  match byte with
  | 0 | 1 | _ + 2 =>
    cases smc <;>
      simp only [diffs, diff0, diff1, Ecc.flip, place, Syndrome.add, Syndrome.single, if_true,
        xor_xor_left] <;>
      exact Syndrome.ext (by simp) (by simp) (by simp)

theorem diffs_self (s : Syndrome) : (diffs smc ecc ecc).add s = s := by
  have hcancel : ∀ x y : BitVec 8, x ^^^ x ^^^ y = y := by
    intro x y
    rw [BitVec.xor_self, BitVec.zero_xor]
  cases smc <;> exact Syndrome.ext (hcancel ..) (hcancel ..) (hcancel ..)

theorem diffs_add (e : Ecc) :
    (diffs smc ecc e).add (diffs smc e calcEcc) = diffs smc ecc calcEcc := by
  have hcancel : ∀ x y z : BitVec 8, x ^^^ y ^^^ (y ^^^ z) = x ^^^ z := by
    intro x y z
    rw [BitVec.xor_assoc, ← BitVec.xor_assoc y, BitVec.xor_self, BitVec.zero_xor]
  cases smc <;> exact Syndrome.ext (hcancel ..) (hcancel ..) (hcancel ..)

/-- A difference adds its syndrome. -/
theorem diffs_difference (hm : eccsizeMult = 1 ∨ eccsizeMult = 2) (hδ : δ.Used eccsizeMult)
    (buf : Nat → BitVec 8) :
    diffs smc (δ.readEcc ecc) (nandCalculateEcc smc eccsizeMult (δ.block buf)) =
      (diffs smc ecc (nandCalculateEcc smc eccsizeMult buf)).add (δ.syndrome smc eccsizeMult) := by
  cases δ with
  | none => exact Syndrome.ext BitVec.xor_zero.symm BitVec.xor_zero.symm BitVec.xor_zero.symm
  | code byte j => exact diffs_flip byte j
  | data k j =>
    obtain ⟨hlow, hhigh, hcolumn⟩ := diff_flipBit hm smc buf hδ.1 hδ.2
    have hdata : diffs smc (nandCalculateEcc smc eccsizeMult buf)
        (nandCalculateEcc smc eccsizeMult (flipBit buf k j)) =
        (Difference.data k j).syndrome smc eccsizeMult :=
      Syndrome.ext hlow hhigh hcolumn
    rw [← hdata, diffs_add]
    rfl

end Linear

/-! ## Pairs of syndromes -/

/-- Two data bits: equal pairs. -/
theorem pairs_xor_pairs : ∀ x3 x2 x1 x0 y3 y2 y1 y0 : Bool,
    halfSet 0x55 (pairs x3 x2 x1 x0 ^^^ pairs y3 y2 y1 y0) = false ∧
      lookup bitsperbyte (pairs x3 x2 x1 x0 ^^^ pairs y3 y2 y1 y0) % 2 = 0 := by
  decide

theorem pairsAbove_xor_pairsAbove : ∀ x3 x2 x1 y3 y2 y1 : Bool,
    lookup bitsperbyte (pairsAbove x3 x2 x1 ^^^ pairsAbove y3 y2 y1) % 2 = 0 := by
  decide

/-- The half of a data bit of 512 bytes. -/
theorem pairs_last : ∀ x3 x2 x1 x0 y0 : Bool, pairs x3 x2 x1 x0 = pairs x3 x2 x1 y0 → x0 = y0 := by
  decide

theorem lookup_bitsperbyte_pairs : ∀ x3 x2 x1 x0 : Bool,
    lookup bitsperbyte (pairs x3 x2 x1 x0) = 4 := by
  decide

/-- A data bit and a code bit: one pair is equal. -/
theorem pairs_xor_single : ∀ x3 x2 x1 x0 : Bool, ∀ j < 8,
    halfSet 0x55 (pairs x3 x2 x1 x0 ^^^ 1#8 <<< j) = false := by
  decide

theorem pairsAbove_xor_single : ∀ x3 x2 x1 : Bool, ∀ j < 8, 2 ≤ j →
    halfSet 0x54 (pairsAbove x3 x2 x1 ^^^ 1#8 <<< j) = false := by
  decide

/-- Two code bits. -/
theorem single_add_single : ∀ p q : Fin 3, ∀ j i : Fin 8, ¬ (p = q ∧ j = i) →
    halfSet 0x55 ((Syndrome.single p j).add (Syndrome.single q i)).b0 = false ∧
      ((Syndrome.single p j).add (Syndrome.single q i)).count = 2 := by
  decide

section Pairs

variable {smc : Bool} {eccsizeMult k k' j j' byte byte' : Nat}

/-- The address of a bit from its syndrome. -/
theorem data_ext (hm : eccsizeMult = 1 ∨ eccsizeMult = 2) (hk : k < 256 * eccsizeMult)
    (hk' : k' < 256 * eccsizeMult) (hj : j < 8) (hj' : j' < 8) (hlow : lowPairs k = lowPairs k')
    (hhigh : highPairs k = highPairs k')
    (hcolumn : columnPairs eccsizeMult k j = columnPairs eccsizeMult k' j') :
    k = k' ∧ j = j' := by
  have hfour : k % 16 = k' % 16 := by
    rw [← lookup_lowPairs, ← lookup_lowPairs, hlow]
  have hnext : k / 16 % 16 = k' / 16 % 16 := by
    rw [← lookup_highPairs, ← lookup_highPairs, hhigh]
  have hbit : j = j' := by
    rw [← lookup_columnPairs_shift eccsizeMult k hj, hcolumn,
      lookup_columnPairs_shift eccsizeMult k' hj']
  rcases hm with rfl | rfl
  · exact ⟨by omega, hbit⟩
  · have hlast : k.testBit 8 = k'.testBit 8 := by
      subst hbit
      exact pairs_last _ _ _ _ _ hcolumn
    have hhalf : k / 256 % 2 = k' / 256 % 2 := by
      have hdiv : ∀ n : Nat, (n.testBit 8).toNat = n / 256 % 2 := fun n => Nat.toNat_testBit n 8
      rw [← hdiv, ← hdiv, hlast]
    exact ⟨by omega, hbit⟩

/-- Two bits of the block. -/
theorem uncorrectable_data_data (hm : eccsizeMult = 1 ∨ eccsizeMult = 2)
    (hk : k < 256 * eccsizeMult) (hk' : k' < 256 * eccsizeMult) (hj : j < 8) (hj' : j' < 8)
    (hne : ¬ (k = k' ∧ j = j')) :
    (((Difference.data k j).syndrome smc eccsizeMult).add
      ((Difference.data k' j').syndrome smc eccsizeMult)).Uncorrectable eccsizeMult := by
  have hlow := pairs_xor_pairs (k.testBit 3) (k.testBit 2) (k.testBit 1) (k.testBit 0)
    (k'.testBit 3) (k'.testBit 2) (k'.testBit 1) (k'.testBit 0)
  have hhigh := pairs_xor_pairs (k.testBit 7) (k.testBit 6) (k.testBit 5) (k.testBit 4)
    (k'.testBit 7) (k'.testBit 6) (k'.testBit 5) (k'.testBit 4)
  have hcolumn : lookup bitsperbyte (columnPairs eccsizeMult k j ^^^ columnPairs eccsizeMult k' j')
      % 2 = 0 := by
    rcases hm with rfl | rfl
    · exact pairsAbove_xor_pairsAbove ..
    · exact (pairs_xor_pairs ..).2
  refine ⟨fun hzero => ?_, fun hhalf => ?_, fun hone => ?_⟩
  · -- no difference at all: the two bits have one address
    obtain ⟨hlowhigh, hcolumn⟩ := BitVec.or_eq_zero_iff.mp hzero
    obtain ⟨hlow, hhigh⟩ := BitVec.or_eq_zero_iff.mp hlowhigh
    exact hne (data_ext hm hk hk' hj hj' (BitVec.xor_eq_zero_iff.mp hlow)
      (BitVec.xor_eq_zero_iff.mp hhigh) (BitVec.xor_eq_zero_iff.mp hcolumn))
  · exact Bool.false_ne_true (hlow.1.symm.trans hhalf.1)
  -- equal pairs have an even number of bits
  have hsum : lookup bitsperbyte (lowPairs k ^^^ lowPairs k') +
      lookup bitsperbyte (highPairs k ^^^ highPairs k') +
      lookup bitsperbyte (columnPairs eccsizeMult k j ^^^ columnPairs eccsizeMult k' j') = 1 :=
    hone
  have hlow2 : lookup bitsperbyte (lowPairs k ^^^ lowPairs k') % 2 = 0 := hlow.2
  have hhigh2 : lookup bitsperbyte (highPairs k ^^^ highPairs k') % 2 = 0 := hhigh.2
  omega

/-- Bits that the code of 256 bytes does not use are left out. -/
theorem not_halfSet_column (hm : eccsizeMult = 1 ∨ eccsizeMult = 2) (hj : j < 8)
    (hused : ¬ (eccsizeMult = 1 ∧ j < 2)) (k j' : Nat) :
    ¬ (eccsizeMult = 1 ∧ halfSet 0x54 (columnPairs eccsizeMult k j' ^^^ 1#8 <<< j) ∨
      eccsizeMult = 2 ∧ halfSet 0x55 (columnPairs eccsizeMult k j' ^^^ 1#8 <<< j)) := by
  rcases hm with rfl | rfl
  · have hhalf := pairsAbove_xor_single (j'.testBit 2) (j'.testBit 1) (j'.testBit 0) j hj
      (by omega)
    rintro (⟨_, hset⟩ | ⟨htwo, _⟩)
    · exact Bool.false_ne_true (hhalf.symm.trans hset)
    · omega
  · have hhalf := (pairs_xor_single (j'.testBit 2) (j'.testBit 1) (j'.testBit 0) (k.testBit 8) j
      hj)
    rintro (⟨hone, _⟩ | ⟨_, hset⟩)
    · omega
    · exact Bool.false_ne_true (hhalf.symm.trans hset)

theorem place_lt (smc : Bool) (byte : Nat) : place smc byte < 3 := by
  match byte with
  | 0 | 1 => cases smc <;> decide
  | _ + 2 => exact Nat.lt_succ_self 2

/-- The bytes of a code are compared one by one. -/
theorem place_inj (hbyte : byte < 3) (hbyte' : byte' < 3) (h : place smc byte = place smc byte') :
    byte = byte' := by
  have hall : ∀ b : Bool, ∀ m < 3, ∀ n < 3, place b m = place b n → m = n := by
    decide
  exact hall smc byte hbyte byte' hbyte' h

theorem place_two (hplace : place smc byte = 2) (hbyte : byte < 3) : byte = 2 :=
  place_inj hbyte (by omega) (hplace.trans (by cases smc <;> rfl) : place smc byte = place smc 2)

/-- A bit of the block and one of its code. -/
theorem uncorrectable_data_code (hm : eccsizeMult = 1 ∨ eccsizeMult = 2)
    (hused : (Difference.code byte j).Used eccsizeMult) (k j' : Nat) :
    (((Difference.data k j').syndrome smc eccsizeMult).add
      ((Difference.code byte j).syndrome smc eccsizeMult)).Uncorrectable eccsizeMult := by
  obtain ⟨hbyte, hj, hlast⟩ := hused
  have hlow4 : lookup bitsperbyte (lowPairs k) = 4 := lookup_bitsperbyte_pairs ..
  have hhigh4 : lookup bitsperbyte (highPairs k) = 4 := lookup_bitsperbyte_pairs ..
  have hlow : halfSet 0x55 (lowPairs k ^^^ 1#8 <<< j) = false := (pairs_xor_single _ _ _ _ j hj)
  have hhigh : halfSet 0x55 (highPairs k ^^^ 1#8 <<< j) = false := (pairs_xor_single _ _ _ _ j hj)
  simp only [Difference.syndrome]
  -- the byte with the bit has a pair that is equal, and one of the others has four bits
  match hplace : place smc byte, place_lt smc byte with
  | 0, _ =>
    refine Syndrome.uncorrectable_of_count ?_ fun hhalf => ?_
    · simp only [Syndrome.single, Syndrome.add, Syndrome.count, BitVec.xor_zero]
      omega
    · exact Bool.false_ne_true (hlow.symm.trans hhalf.1)
  | 1, _ =>
    refine Syndrome.uncorrectable_of_count ?_ fun hhalf => ?_
    · simp only [Syndrome.single, Syndrome.add, Syndrome.count, BitVec.xor_zero]
      omega
    · exact Bool.false_ne_true (hhigh.symm.trans hhalf.2.1)
  | 2, _ =>
    have hcolumn := not_halfSet_column hm hj
      (fun hbad => hlast ⟨hbad.1, place_two hplace hbyte, hbad.2⟩) k j'
    refine Syndrome.uncorrectable_of_count ?_ fun hhalf => hcolumn hhalf.2.2
    simp only [Syndrome.single, Syndrome.add, Syndrome.count, BitVec.xor_zero]
    omega

/-- Two bits of the code. -/
theorem uncorrectable_code_code (hbyte : byte < 3) (hbyte' : byte' < 3) (hj : j < 8)
    (hj' : j' < 8) (hne : ¬ (byte = byte' ∧ j = j')) :
    (((Difference.code byte j).syndrome smc eccsizeMult).add
      ((Difference.code byte' j').syndrome smc eccsizeMult)).Uncorrectable eccsizeMult := by
  obtain ⟨hhalf, hcount⟩ := single_add_single ⟨place smc byte, place_lt smc byte⟩
    ⟨place smc byte', place_lt smc byte'⟩ ⟨j, hj⟩ ⟨j', hj'⟩
    fun heq => hne ⟨place_inj hbyte hbyte' (Fin.mk.inj heq.1), Fin.mk.inj heq.2⟩
  exact Syndrome.uncorrectable_of_count (Nat.le_of_eq hcount.symm)
    fun hset => Bool.false_ne_true (hhalf.symm.trans hset.1)

end Pairs

/-! ## Main result -/

/-- Two different bits of what was written are changed: the block that is read is reported, and
left alone. -/
theorem nand_ecc_detects_double {eccsizeMult : Nat} (hm : eccsizeMult = 1 ∨ eccsizeMult = 2)
    (smc : Bool) (buf : Nat → BitVec 8) {δ δ' : Difference} (hδ : δ.Used eccsizeMult)
    (hδ' : δ'.Used eccsizeMult) (hsome : δ ≠ .none) (hsome' : δ' ≠ .none) (hne : δ ≠ δ') :
    nandCorrectData smc eccsizeMult (δ'.block (δ.block buf))
        (δ'.readEcc (δ.readEcc (nandCalculateEcc smc eccsizeMult buf)))
        (nandCalculateEcc smc eccsizeMult (δ'.block (δ.block buf))) =
      (-1, δ'.block (δ.block buf)) := by
  have hsyndrome : (diffs smc (δ'.readEcc (δ.readEcc (nandCalculateEcc smc eccsizeMult buf)))
      (nandCalculateEcc smc eccsizeMult (δ'.block (δ.block buf)))) =
      (δ.syndrome smc eccsizeMult).add (δ'.syndrome smc eccsizeMult) := by
    rw [diffs_difference hm hδ', diffs_difference hm hδ, diffs_self]
  refine nandCorrectData_of_uncorrectable (hsyndrome ▸ ?_) _
  cases δ with
  | none => exact absurd rfl hsome
  | data k j =>
    cases δ' with
    | none => exact absurd rfl hsome'
    | data k' j' =>
      exact uncorrectable_data_data hm hδ.1 hδ'.1 hδ.2 hδ'.2
        fun heq => hne (congrArg₂ Difference.data heq.1 heq.2)
    | code byte' j' => exact uncorrectable_data_code hm hδ' k j
  | code byte j =>
    cases δ' with
    | none => exact absurd rfl hsome'
    | data k' j' =>
      rw [Syndrome.add_comm]
      exact uncorrectable_data_code hm hδ k' j'
    | code byte' j' =>
      exact uncorrectable_code_code hδ.1 hδ'.1 hδ.2.1 hδ'.2.1
        fun heq => hne (congrArg₂ Difference.code heq.1 heq.2)

/-- Bit 0 of byte 0 and of byte 511 of 512 zero bytes. -/
theorem nand_ecc_detects_double_ends :
    nandCorrectData false 2 (flipBit (flipBit (fun _ => 0) 0 0) 511 0)
      (nandCalculateEcc false 2 fun _ => 0)
      (nandCalculateEcc false 2 (flipBit (flipBit (fun _ => 0) 0 0) 511 0)) =
    (-1, flipBit (flipBit (fun _ => 0) 0 0) 511 0) :=
  @nand_ecc_detects_double 2 (.inr rfl) false (fun _ => 0) (.data 0 0) (.data 511 0)
    ⟨by decide, by decide⟩ ⟨by decide, by decide⟩ nofun nofun
    fun heq => absurd (Difference.data.inj heq).1 (by decide)

end AndroidKernel.NandEcc
