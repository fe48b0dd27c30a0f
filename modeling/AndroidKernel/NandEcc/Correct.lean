import AndroidKernel.Library.LineParity
import AndroidKernel.NandEcc.Model

/-!
# Correction of single bits

Read `nand_ecc_corrects_iff` first. The codes of blocks that differ in one bit differ in one bit of
each pair of parities, and these bits are the address of the bit.
-/

/-!
## Accumulated parities

Each parity that the loop of `nand_calculate_ecc` accumulates is the exclusive sum of the words
whose number has a certain bit clear.
-/

namespace AndroidKernel.NandEcc

open Library

/-- The parities as exclusive sums of the words below `n`. -/
def sums (eccsizeMult : Nat) (bp : Nat → BitVec 32) (n : Nat) : Parities where
  rp4 := xorSum (fun q => !q.testBit 0) bp n
  rp6 := xorSum (fun q => !q.testBit 1) bp n
  rp8 := xorSum (fun q => !q.testBit 2) bp n
  rp10 := xorSum (fun q => !q.testBit 3) bp n
  rp12 := xorSum (fun q => !q.testBit 4) bp n
  rp14 := xorSum (fun q => !q.testBit 5) bp n
  rp16 := xorSum (fun q => decide (eccsizeMult = 2) && !q.testBit 6) bp n
  par := xorSum (fun _ => true) bp n

/-- The bits of a word number in a group of sixteen. -/
theorem testBit_low {i r k : Nat} (hr : r < 16) (hk : k < 4) :
    (16 * i + r).testBit k = r.testBit k := by
  have hadd := Nat.testBit_two_pow_mul_add i (show r < 2 ^ 4 from hr) k
  rw [if_pos hk] at hadd
  exact hadd

theorem testBit_high {i r k : Nat} (hr : r < 16) : (16 * i + r).testBit (k + 4) = i.testBit k := by
  have hadd := Nat.testBit_two_pow_mul_add i (show r < 2 ^ 4 from hr) (k + 4)
  rw [if_neg (by omega), Nat.add_sub_cancel] at hadd
  exact hadd

/-- The sum of a group of sixteen words, of which a predicate selects some. -/
def groupSum (p : Nat → Bool) (bp : Nat → BitVec 32) (i : Nat) : Nat → BitVec 32
  | 0 => 0
  | r + 1 => if p r then groupSum p bp i r ^^^ bp (16 * i + r) else groupSum p bp i r

variable {eccsizeMult i : Nat} {p p' : Nat → Bool} {bp : Nat → BitVec 32}

theorem groupSum_zero : groupSum p bp i 0 = 0 :=
  rfl

theorem groupSum_succ (r : Nat) : groupSum p bp i (r + 1) =
    if p r then groupSum p bp i r ^^^ bp (16 * i + r) else groupSum p bp i r :=
  rfl

/-- A sum goes on with the sum of the next group. -/
theorem xorSum_group (h : ∀ r < 16, p (16 * i + r) = p' r) {r : Nat} (hr : r ≤ 16) :
    xorSum p bp (16 * i + r) = xorSum p bp (16 * i) ^^^ groupSum p' bp i r := by
  induction r with
  | zero => exact (BitVec.xor_zero).symm
  | succ r ih =>
    have hsucc : 16 * i + (r + 1) = 16 * i + r + 1 := rfl
    rw [hsucc, xorSum, groupSum_succ, h r (by omega), ih (by omega)]
    split_ifs
    · rw [BitVec.xor_assoc]
    · rfl

/-- A group is selected as a whole, or not at all. -/
theorem groupSum_const (c : Bool) (r : Nat) :
    groupSum (fun _ => c) bp i r = if c then groupSum (fun _ => true) bp i r else 0 := by
  induction r with
  | zero => cases c <;> rfl
  | succ r ih =>
    rw [groupSum_succ, ih]
    cases c <;> rfl

/-! ## The loop -/

section Iteration

variable (acc : Parities)

theorem iteration_rp4 : (iteration eccsizeMult bp acc i).rp4 =
    acc.rp4 ^^^ groupSum (fun r => !r.testBit 0) bp i 16 := by
  simp [iteration, groupSum_zero, groupSum_succ, Nat.testBit, BitVec.xor_assoc]

theorem iteration_rp6 : (iteration eccsizeMult bp acc i).rp6 =
    acc.rp6 ^^^ groupSum (fun r => !r.testBit 1) bp i 16 := by
  simp [iteration, groupSum_zero, groupSum_succ, Nat.testBit, BitVec.xor_assoc]

theorem iteration_rp8 : (iteration eccsizeMult bp acc i).rp8 =
    acc.rp8 ^^^ groupSum (fun r => !r.testBit 2) bp i 16 := by
  simp [iteration, groupSum_zero, groupSum_succ, Nat.testBit, BitVec.xor_assoc]

theorem iteration_rp10 : (iteration eccsizeMult bp acc i).rp10 =
    acc.rp10 ^^^ groupSum (fun r => !r.testBit 3) bp i 16 := by
  simp [iteration, groupSum_zero, groupSum_succ, Nat.testBit, BitVec.xor_assoc]

theorem iteration_par : (iteration eccsizeMult bp acc i).par =
    acc.par ^^^ groupSum (fun _ => true) bp i 16 := by
  simp [iteration, groupSum_zero, groupSum_succ, BitVec.xor_assoc]

theorem and_two_pow_eq_zero (i k : Nat) : i &&& 2 ^ k = 0 ↔ i.testBit k = false := by
  rw [Nat.and_two_pow]
  cases i.testBit k with
  | false => exact ⟨fun _ => rfl, fun _ => Nat.zero_mul _⟩
  | true =>
    have hpos := Nat.two_pow_pos k
    refine ⟨fun hzero => ?_, nofun⟩
    rw [Bool.toNat_true, Nat.one_mul] at hzero
    omega

/-- A parity that takes whole groups. -/
theorem ite_xor_group {c : Prop} [Decidable c] {b : Bool} (x : BitVec 32) (h : c ↔ b = true) :
    (if c then x ^^^ groupSum (fun _ => true) bp i 16 else x) =
      x ^^^ groupSum (fun _ => b) bp i 16 := by
  rw [groupSum_const b]
  by_cases hc : c
  · rw [if_pos hc, if_pos (h.mp hc)]
  · rw [if_neg hc, if_neg (fun hb => hc (h.mpr hb))]
    exact BitVec.xor_zero.symm

theorem iteration_rp12 : (iteration eccsizeMult bp acc i).rp12 =
    acc.rp12 ^^^ groupSum (fun _ => !i.testBit 0) bp i 16 := by
  have hbit : i &&& 1 = 0 ↔ (!i.testBit 0) = true := by
    rw [Bool.not_eq_true']
    exact and_two_pow_eq_zero i 0
  rw [← ite_xor_group acc.rp12 hbit]
  simp [iteration, groupSum_zero, groupSum_succ, BitVec.xor_assoc]

theorem iteration_rp14 : (iteration eccsizeMult bp acc i).rp14 =
    acc.rp14 ^^^ groupSum (fun _ => !i.testBit 1) bp i 16 := by
  have hbit : i &&& 2 = 0 ↔ (!i.testBit 1) = true := by
    rw [Bool.not_eq_true']
    exact and_two_pow_eq_zero i 1
  rw [← ite_xor_group acc.rp14 hbit]
  simp [iteration, groupSum_zero, groupSum_succ, BitVec.xor_assoc]

theorem iteration_rp16 : (iteration eccsizeMult bp acc i).rp16 =
    acc.rp16 ^^^ groupSum (fun _ => decide (eccsizeMult = 2) && !i.testBit 2) bp i 16 := by
  have hbit : eccsizeMult = 2 ∧ i &&& 4 = 0 ↔
      (decide (eccsizeMult = 2) && !i.testBit 2) = true := by
    rw [Bool.and_eq_true, decide_eq_true_iff, Bool.not_eq_true']
    exact and_congr_right' (and_two_pow_eq_zero i 2)
  rw [← ite_xor_group acc.rp16 hbit]
  simp [iteration, groupSum_zero, groupSum_succ, BitVec.xor_assoc]

end Iteration

/-- The loop accumulates the sums. -/
theorem accumulate_eq (n : Nat) : accumulate eccsizeMult bp n = sums eccsizeMult bp (16 * n) := by
  induction n with
  | zero => rfl
  | succ n ih =>
    have hlow : ∀ k < 4, ∀ r < 16, (!(16 * n + r).testBit k) = !r.testBit k := by
      intro k hk r hr
      rw [testBit_low hr hk]
    have hhigh : ∀ k, ∀ r < 16, (!(16 * n + r).testBit (k + 4)) = !n.testBit k := by
      intro k r hr
      rw [testBit_high hr]
    have hmult : ∀ r < 16, (decide (eccsizeMult = 2) && !(16 * n + r).testBit 6) =
        (decide (eccsizeMult = 2) && !n.testBit 2) := by
      intro r hr
      rw [hhigh 2 r hr]
    have hsum : ∀ {p p' : Nat → Bool}, (∀ r < 16, p (16 * n + r) = p' r) →
        xorSum p bp (16 * n) ^^^ groupSum p' bp n 16 = xorSum p bp (16 * (n + 1)) :=
      fun h => (xorSum_group h (Nat.le_refl 16)).symm
    rw [accumulate, ih]
    refine Parities.ext ?_ ?_ ?_ ?_ ?_ ?_ ?_ ?_
    · exact (iteration_rp4 _).trans (hsum (hlow 0 (by omega)))
    · exact (iteration_rp6 _).trans (hsum (hlow 1 (by omega)))
    · exact (iteration_rp8 _).trans (hsum (hlow 2 (by omega)))
    · exact (iteration_rp10 _).trans (hsum (hlow 3 (by omega)))
    · exact (iteration_rp12 _).trans (hsum (hhigh 0))
    · exact (iteration_rp14 _).trans (hsum (hhigh 1))
    · exact (iteration_rp16 _).trans (hsum hmult)
    · exact (iteration_par _).trans (hsum fun _ _ => rfl)

/-! ## Bytes of a code -/

/-- A bit as a byte. -/
def bit (b : Bool) : BitVec 8 :=
  if b then 1 else 0

/-- The table holds the parities. -/
theorem inv_eq (x : BitVec 8) : inv x = bit (!odd x) := by
  revert x
  decide

theorem getLsbD_pack_bit : ∀ b7 b6 b5 b4 b3 b2 b1 b0 : Bool, ∀ i < 8,
    (pack (bit b7) (bit b6) (bit b5) (bit b4) (bit b3) (bit b2) (bit b1) (bit b0)).getLsbD i =
      [b0, b1, b2, b3, b4, b5, b6, b7].getD i false := by
  decide

/-- Codes are compared bit by bit. -/
theorem pack_bit_xor (b7 b6 b5 b4 b3 b2 b1 b0 c7 c6 c5 c4 c3 c2 c1 c0 : Bool) :
    pack (bit b7) (bit b6) (bit b5) (bit b4) (bit b3) (bit b2) (bit b1) (bit b0) ^^^
      pack (bit c7) (bit c6) (bit c5) (bit c4) (bit c3) (bit c2) (bit c1) (bit c0) =
      pack (bit (b7 ^^ c7)) (bit (b6 ^^ c6)) (bit (b5 ^^ c5)) (bit (b4 ^^ c4)) (bit (b3 ^^ c3))
        (bit (b2 ^^ c2)) (bit (b1 ^^ c1)) (bit (b0 ^^ c0)) := by
  refine BitVec.eq_of_getLsbD_eq fun i hi => ?_
  rw [BitVec.getLsbD_xor, getLsbD_pack_bit _ _ _ _ _ _ _ _ i hi,
    getLsbD_pack_bit _ _ _ _ _ _ _ _ i hi, getLsbD_pack_bit _ _ _ _ _ _ _ _ i hi]
  match i, hi with
  | 0, _ | 1, _ | 2, _ | 3, _ | 4, _ | 5, _ | 6, _ | 7, _ => rfl

/-! ## Linear parts -/

theorem foldByte_xor (x y : BitVec 32) : foldByte (x ^^^ y) = foldByte x ^^^ foldByte y := by
  simp only [foldByte, BitVec.ushiftRight_xor_distrib, BitVec.setWidth_xor]
  ac_rfl

theorem parRp3_xor (x y : BitVec 32) : parRp3 (x ^^^ y) = parRp3 x ^^^ parRp3 y := by
  simp only [parRp3, BitVec.ushiftRight_xor_distrib, BitVec.setWidth_xor]
  ac_rfl

theorem and_xor (x y m : BitVec 32) : (x ^^^ y) &&& m = (x &&& m) ^^^ (y &&& m) := by
  refine BitVec.eq_of_getLsbD_eq fun i _ => ?_
  simp only [BitVec.getLsbD_and, BitVec.getLsbD_xor]
  exact Bool.and_xor_distrib_right _ _ _

theorem parRp2_xor (x y : BitVec 32) : parRp2 (x ^^^ y) = parRp2 x ^^^ parRp2 y := by
  simp only [parRp2, and_xor, BitVec.ushiftRight_xor_distrib, BitVec.setWidth_xor]
  ac_rfl

theorem parRp1_xor (x y : BitVec 32) : parRp1 (x ^^^ y) = parRp1 x ^^^ parRp1 y := by
  simp only [parRp1, BitVec.ushiftRight_xor_distrib, BitVec.setWidth_xor]
  ac_rfl

theorem parRp0_xor (x y : BitVec 32) : parRp0 (x ^^^ y) = parRp0 x ^^^ parRp0 y := by
  simp only [parRp0, BitVec.ushiftRight_xor_distrib, BitVec.setWidth_xor]
  ac_rfl

/-! ## One bit -/

/-- A single bit of a word. -/
def single (byte j : Nat) : BitVec 32 :=
  1#32 <<< (8 * byte + j)

theorem foldByte_single : ∀ t < 4, ∀ j < 8, foldByte (single t j) = 1#8 <<< j := by
  decide

theorem odd_parRp_single : ∀ t < 4, ∀ j < 8,
    odd (parRp3 (single t j)) = t.testBit 1 ∧ odd (parRp2 (single t j)) = !t.testBit 1 ∧
      odd (parRp1 (single t j)) = t.testBit 0 ∧ odd (parRp0 (single t j)) = !t.testBit 0 := by
  decide

/-- The column parities of a single bit. -/
theorem odd_column : ∀ j < 8,
    odd (1#8 <<< j) = true ∧
      odd (1#8 <<< j &&& 0xf0) = j.testBit 2 ∧ odd (1#8 <<< j &&& 0x0f) = !j.testBit 2 ∧
      odd (1#8 <<< j &&& 0xcc) = j.testBit 1 ∧ odd (1#8 <<< j &&& 0x33) = !j.testBit 1 ∧
      odd (1#8 <<< j &&& 0xaa) = j.testBit 0 ∧ odd (1#8 <<< j &&& 0x55) = !j.testBit 0 := by
  decide

/-- The words of the parities differ in a single bit, where they take its word. -/
structure Change (t j : Nat) (c4 c6 c8 c10 c12 c14 c16 : Bool) (acc acc' : Parities) : Prop where
  rp4 : acc'.rp4 = acc.rp4 ^^^ if c4 then single t j else 0
  rp6 : acc'.rp6 = acc.rp6 ^^^ if c6 then single t j else 0
  rp8 : acc'.rp8 = acc.rp8 ^^^ if c8 then single t j else 0
  rp10 : acc'.rp10 = acc.rp10 ^^^ if c10 then single t j else 0
  rp12 : acc'.rp12 = acc.rp12 ^^^ if c12 then single t j else 0
  rp14 : acc'.rp14 = acc.rp14 ^^^ if c14 then single t j else 0
  rp16 : acc'.rp16 = acc.rp16 ^^^ if c16 then single t j else 0
  par : acc'.par = acc.par ^^^ single t j

section Change

variable {t j : Nat} {c c4 c6 c8 c10 c12 c14 c16 : Bool} {acc acc' : Parities}
  {x x' y y' : BitVec 32}

theorem odd_foldByte_single (ht : t < 4) (hj : j < 8) : odd (foldByte (single t j)) = true := by
  rw [foldByte_single t ht j hj]
  exact (odd_column j hj).1

theorem odd_foldByte_zero : odd (foldByte 0) = false := by
  decide

theorem odd_foldByte_ite (ht : t < 4) (hj : j < 8) :
    odd (foldByte (if c then single t j else 0)) = c := by
  cases c with
  | false => exact odd_foldByte_zero
  | true => exact odd_foldByte_single ht hj

/-- An even row parity. -/
theorem inv_even (ht : t < 4) (hj : j < 8) (hx : x' = x ^^^ if c then single t j else 0) :
    inv (foldByte x') = bit (!odd (foldByte x) ^^ c) := by
  rw [inv_eq, hx, foldByte_xor, odd_xor, odd_foldByte_ite ht hj, Bool.not_xor]

/-- An odd row parity. -/
theorem inv_odd (ht : t < 4) (hj : j < 8) (hx : x' = x ^^^ if c then single t j else 0)
    (hy : y' = y ^^^ single t j) :
    inv (foldByte y' ^^^ foldByte x') = bit (!odd (foldByte y ^^^ foldByte x) ^^ !c) := by
  rw [inv_eq, hx, hy, foldByte_xor, foldByte_xor, odd_xor, odd_xor, odd_xor, odd_xor,
    odd_foldByte_ite ht hj, odd_foldByte_single ht hj]
  cases odd (foldByte y) <;> cases odd (foldByte x) <;> cases c <;> rfl

/-- A parity of the last row bits. -/
theorem inv_linear {f : BitVec 32 → BitVec 8} (hf : ∀ x y, f (x ^^^ y) = f x ^^^ f y)
    (hodd : odd (f (single t j)) = c) (hy : y' = y ^^^ single t j) :
    inv (f y') = bit (!odd (f y) ^^ c) := by
  rw [inv_eq, hy, hf, odd_xor, hodd, Bool.not_xor]

/-- A column parity. -/
theorem inv_column (m : BitVec 8) (ht : t < 4) (hj : j < 8) (hodd : odd (1#8 <<< j &&& m) = c)
    (hy : y' = y ^^^ single t j) :
    inv (foldByte y' &&& m) = bit (!odd (foldByte y &&& m) ^^ c) := by
  have hmask : (foldByte y ^^^ 1#8 <<< j) &&& m = (foldByte y &&& m) ^^^ (1#8 <<< j &&& m) := by
    refine BitVec.eq_of_getLsbD_eq fun i _ => ?_
    simp only [BitVec.getLsbD_and, BitVec.getLsbD_xor]
    exact Bool.and_xor_distrib_right _ _ _
  rw [inv_eq, hy, foldByte_xor, foldByte_single t ht j hj, hmask, odd_xor, hodd, Bool.not_xor]

theorem bit_xor (a c : Bool) : (a ^^ (a ^^ c)) = c := by
  cases a <;> cases c <;> rfl

theorem Change.lowCode (h : Change t j c4 c6 c8 c10 c12 c14 c16 acc acc') (ht : t < 4)
    (hj : j < 8) :
    NandEcc.lowCode acc ^^^ NandEcc.lowCode acc' =
      pack (bit !c6) (bit c6) (bit !c4) (bit c4) (bit (t.testBit 1)) (bit !t.testBit 1)
        (bit (t.testBit 0)) (bit !t.testBit 0) := by
  obtain ⟨h3, h2, h1, h0⟩ := odd_parRp_single t ht j hj
  simp only [NandEcc.lowCode]
  rw [inv_odd ht hj h.rp6 h.par, inv_even ht hj h.rp6, inv_odd ht hj h.rp4 h.par,
    inv_even ht hj h.rp4, inv_linear parRp3_xor h3 h.par, inv_linear parRp2_xor h2 h.par,
    inv_linear parRp1_xor h1 h.par, inv_linear parRp0_xor h0 h.par]
  simp only [inv_eq, pack_bit_xor, bit_xor]

theorem Change.highCode (h : Change t j c4 c6 c8 c10 c12 c14 c16 acc acc') (ht : t < 4)
    (hj : j < 8) :
    NandEcc.highCode acc ^^^ NandEcc.highCode acc' =
      pack (bit !c14) (bit c14) (bit !c12) (bit c12) (bit !c10) (bit c10) (bit !c8) (bit c8) := by
  simp only [NandEcc.highCode]
  rw [inv_odd ht hj h.rp14 h.par, inv_even ht hj h.rp14, inv_odd ht hj h.rp12 h.par,
    inv_even ht hj h.rp12, inv_odd ht hj h.rp10 h.par, inv_even ht hj h.rp10,
    inv_odd ht hj h.rp8 h.par, inv_even ht hj h.rp8]
  simp only [inv_eq, pack_bit_xor, bit_xor]

/-- The last byte of the code of one half: the column. -/
theorem Change.columnCode_one (h : Change t j c4 c6 c8 c10 c12 c14 c16 acc acc') (ht : t < 4)
    (hj : j < 8) :
    NandEcc.columnCode 1 acc ^^^ NandEcc.columnCode 1 acc' =
      pack (bit (j.testBit 2)) (bit !j.testBit 2) (bit (j.testBit 1)) (bit !j.testBit 1)
        (bit (j.testBit 0)) (bit !j.testBit 0) (bit false) (bit false) := by
  obtain ⟨_, hf0, h0f, hcc, h33, haa, h55⟩ := odd_column j hj
  have hone : (1 : BitVec 8) = bit true := rfl
  simp only [NandEcc.columnCode, if_true, hone]
  rw [inv_column 0xf0 ht hj hf0 h.par, inv_column 0x0f ht hj h0f h.par,
    inv_column 0xcc ht hj hcc h.par, inv_column 0x33 ht hj h33 h.par,
    inv_column 0xaa ht hj haa h.par, inv_column 0x55 ht hj h55 h.par]
  simp only [inv_eq, pack_bit_xor, bit_xor, Bool.xor_self]

/-- The last byte of the code of two halves: the column and the half. -/
theorem Change.columnCode_two (h : Change t j c4 c6 c8 c10 c12 c14 c16 acc acc') (ht : t < 4)
    (hj : j < 8) :
    NandEcc.columnCode 2 acc ^^^ NandEcc.columnCode 2 acc' =
      pack (bit (j.testBit 2)) (bit !j.testBit 2) (bit (j.testBit 1)) (bit !j.testBit 1)
        (bit (j.testBit 0)) (bit !j.testBit 0) (bit !c16) (bit c16) := by
  obtain ⟨_, hf0, h0f, hcc, h33, haa, h55⟩ := odd_column j hj
  have htwo : ¬ (2 : Nat) = 1 := by omega
  simp only [NandEcc.columnCode, if_neg htwo]
  rw [inv_column 0xf0 ht hj hf0 h.par, inv_column 0x0f ht hj h0f h.par,
    inv_column 0xcc ht hj hcc h.par, inv_column 0x33 ht hj h33 h.par,
    inv_column 0xaa ht hj haa h.par, inv_column 0x55 ht hj h55 h.par,
    inv_odd ht hj h.rp16 h.par, inv_even ht hj h.rp16]
  simp only [inv_eq, pack_bit_xor, bit_xor]

end Change

/-! ## Addresses -/

/-- Four pairs of complementary bits. -/
def pairs (x3 x2 x1 x0 : Bool) : BitVec 8 :=
  pack (bit x3) (bit !x3) (bit x2) (bit !x2) (bit x1) (bit !x1) (bit x0) (bit !x0)

/-- Three pairs of complementary bits and two clear bits. -/
def pairsAbove (x3 x2 x1 : Bool) : BitVec 8 :=
  pack (bit x3) (bit !x3) (bit x2) (bit !x2) (bit x1) (bit !x1) (bit false) (bit false)

theorem pairs_ne_zero : ∀ x3 x2 x1 x0 : Bool, pairs x3 x2 x1 x0 ≠ 0 := by
  decide

theorem halfSet_pairs : ∀ x3 x2 x1 x0 : Bool, halfSet 0x55 (pairs x3 x2 x1 x0) = true := by
  decide

theorem halfSet_pairsAbove : ∀ x3 x2 x1 : Bool, halfSet 0x54 (pairsAbove x3 x2 x1) = true := by
  decide

theorem lookup_pairs : ∀ x3 x2 x1 x0 : Bool, lookup addressbits (pairs x3 x2 x1 x0) =
    8 * x3.toNat + 4 * x2.toNat + 2 * x1.toNat + x0.toNat := by
  decide

theorem lookup_pairs_shift : ∀ x3 x2 x1 x0 : Bool, lookup addressbits (pairs x3 x2 x1 x0 >>> 2) =
    4 * x3.toNat + 2 * x2.toNat + x1.toNat := by
  decide

theorem lookup_pairsAbove_shift : ∀ x3 x2 x1 : Bool,
    lookup addressbits (pairsAbove x3 x2 x1 >>> 2) = 4 * x3.toNat + 2 * x2.toNat + x1.toNat := by
  decide

/-- A number below eight from its bits. -/
theorem bits_three : ∀ j < 8,
    4 * (j.testBit 2).toNat + 2 * (j.testBit 1).toNat + (j.testBit 0).toNat = j := by
  decide

/-- The lowest four bits of a number. -/
theorem bits_four (k : Nat) :
    8 * (k.testBit 3).toNat + 4 * (k.testBit 2).toNat + 2 * (k.testBit 1).toNat +
      (k.testBit 0).toNat = k % 16 := by
  have hsmall : ∀ n < 16, 8 * (n.testBit 3).toNat + 4 * (n.testBit 2).toNat +
      2 * (n.testBit 1).toNat + (n.testBit 0).toNat = n := by
    decide
  have hbit : ∀ i < 4, (k % 16).testBit i = k.testBit i := by
    intro i hi
    rw [show 16 = 2 ^ 4 from rfl, Nat.testBit_mod_two_pow, decide_eq_true hi, Bool.true_and]
  have hmod := hsmall (k % 16) (Nat.mod_lt k (by omega))
  rwa [hbit 3 (by omega), hbit 2 (by omega), hbit 1 (by omega), hbit 0 (by omega)] at hmod

theorem bits_next (k : Nat) :
    8 * (k.testBit 7).toNat + 4 * (k.testBit 6).toNat + 2 * (k.testBit 5).toNat +
      (k.testBit 4).toNat = k / 16 % 16 := by
  have hbit : ∀ i, (k / 16).testBit i = k.testBit (i + 4) := by
    intro i
    rw [show 16 = 2 ^ 4 from rfl, Nat.testBit_div_two_pow]
  rw [← bits_four (k / 16), hbit, hbit, hbit, hbit]

/-- The difference of the low code for byte `k`. -/
def lowPairs (k : Nat) : BitVec 8 :=
  pairs (k.testBit 3) (k.testBit 2) (k.testBit 1) (k.testBit 0)

/-- The difference of the high code for byte `k`. -/
def highPairs (k : Nat) : BitVec 8 :=
  pairs (k.testBit 7) (k.testBit 6) (k.testBit 5) (k.testBit 4)

/-- The difference of the last code for bit `j` of byte `k`: the column, and the half of 512 bytes. -/
def columnPairs (eccsizeMult k j : Nat) : BitVec 8 :=
  if eccsizeMult = 1 then pairsAbove (j.testBit 2) (j.testBit 1) (j.testBit 0)
  else pairs (j.testBit 2) (j.testBit 1) (j.testBit 0) (k.testBit 8)

theorem lookup_lowPairs (k : Nat) : lookup addressbits (lowPairs k) = k % 16 :=
  (lookup_pairs _ _ _ _).trans (bits_four k)

theorem lookup_highPairs (k : Nat) : lookup addressbits (highPairs k) = k / 16 % 16 :=
  (lookup_pairs _ _ _ _).trans (bits_next k)

theorem lookup_columnPairs_shift (eccsizeMult k : Nat) {j : Nat} (hj : j < 8) :
    lookup addressbits (columnPairs eccsizeMult k j >>> 2) = j := by
  rw [columnPairs]
  split_ifs
  · rw [lookup_pairsAbove_shift, bits_three j hj]
  · rw [lookup_pairs_shift, bits_three j hj]

/-- The address drops the ninth bit. -/
theorem byteAddr_pairs (eccsizeMult k : Nat) (b2 : BitVec 8) :
    (byteAddr eccsizeMult (lowPairs k) (highPairs k) b2).toNat = k % 256 := by
  rw [byteAddr, lookup_lowPairs, lookup_highPairs]
  split_ifs with hmult
  · rw [BitVec.toNat_ofNat, Nat.shiftLeft_eq]
    omega
  · rw [BitVec.toNat_ofNat, Nat.shiftLeft_eq, Nat.shiftLeft_eq]
    omega

theorem lowPairs_or_ne_zero (k : Nat) (b1 b2 : BitVec 8) : lowPairs k ||| b1 ||| b2 ≠ 0 := by
  intro hzero
  have hlow := (BitVec.or_eq_zero_iff.mp (BitVec.or_eq_zero_iff.mp hzero).1).1
  exact pairs_ne_zero _ _ _ _ hlow

/-- The difference that a data bit makes. -/
theorem correct_pairs {eccsizeMult : Nat} (hm : eccsizeMult = 1 ∨ eccsizeMult = 2)
    (buf : Nat → BitVec 8) (k : Nat) {j : Nat} (hj : j < 8) :
    correct eccsizeMult buf (lowPairs k) (highPairs k) (columnPairs eccsizeMult k j) =
      (1, flipBit buf (k % 256) j) := by
  have hhalf : eccsizeMult = 1 ∧ halfSet 0x54 (columnPairs eccsizeMult k j) ∨
      eccsizeMult = 2 ∧ halfSet 0x55 (columnPairs eccsizeMult k j) := by
    rcases hm with rfl | rfl
    · exact .inl ⟨rfl, halfSet_pairsAbove _ _ _⟩
    · exact .inr ⟨rfl, halfSet_pairs _ _ _ _⟩
  rw [correct, if_neg (lowPairs_or_ne_zero k _ _),
    if_pos ⟨halfSet_pairs _ _ _ _, halfSet_pairs _ _ _ _, hhalf⟩, byteAddr_pairs,
    lookup_columnPairs_shift eccsizeMult k hj]

/-! ## Blocks that differ in one bit -/

section Block

variable {buf : Nat → BitVec 8} {k j : Nat}

theorem flipBit_self : flipBit buf k j k = buf k ^^^ (1#8 <<< j) :=
  Function.update_self ..

theorem flipBit_of_ne {i : Nat} (h : i ≠ k) : flipBit buf k j i = buf i :=
  Function.update_of_ne h ..

/-- To flip a bit twice is to leave it. -/
theorem flipBit_flipBit : flipBit (flipBit buf k j) k j = buf := by
  funext i
  by_cases hi : i = k
  · subst hi
    rw [flipBit_self, flipBit_self, BitVec.xor_assoc, BitVec.xor_self, BitVec.xor_zero]
  · rw [flipBit_of_ne hi, flipBit_of_ne hi]

theorem shiftLeft_one_ne_zero : ∀ j < 8, 1#8 <<< j ≠ 0 := by
  decide

theorem flipBit_ne (hj : j < 8) : flipBit buf k j k ≠ buf k := by
  intro heq
  rw [flipBit_self] at heq
  have hxor := congrArg (buf k ^^^ ·) heq
  simp only [← BitVec.xor_assoc, BitVec.xor_self, BitVec.zero_xor] at hxor
  exact shiftLeft_one_ne_zero j hj hxor

theorem append_single : ∀ j < 8,
    1#8 <<< j ++ 0#8 ++ 0#8 ++ 0#8 = single 3 j ∧
      0#8 ++ 1#8 <<< j ++ 0#8 ++ 0#8 = single 2 j ∧
      0#8 ++ 0#8 ++ 1#8 <<< j ++ 0#8 = single 1 j ∧
      0#8 ++ 0#8 ++ 0#8 ++ 1#8 <<< j = single 0 j := by
  decide

theorem longword_flipBit (hj : j < 8) :
    longword (flipBit buf k j) (k / 4) = longword buf (k / 4) ^^^ single (k % 4) j := by
  obtain ⟨h3, h2, h1, h0⟩ := append_single j hj
  generalize hq : k / 4 = q
  have hlt : k % 4 < 4 := Nat.mod_lt k (by omega)
  rw [longword, longword]
  match hk : k % 4, hlt with
  | 0, _ =>
    obtain rfl : k = 4 * q := by omega
    rw [flipBit_self, flipBit_of_ne (by omega), flipBit_of_ne (by omega),
      flipBit_of_ne (by omega), ← h0, BitVec.xor_append, BitVec.xor_append,
      BitVec.xor_append, BitVec.xor_zero, BitVec.xor_zero, BitVec.xor_zero]
  | 1, _ =>
    obtain rfl : k = 4 * q + 1 := by omega
    rw [flipBit_self, flipBit_of_ne (by omega), flipBit_of_ne (by omega),
      flipBit_of_ne (by omega), ← h1, BitVec.xor_append, BitVec.xor_append,
      BitVec.xor_append, BitVec.xor_zero, BitVec.xor_zero, BitVec.xor_zero]
  | 2, _ =>
    obtain rfl : k = 4 * q + 2 := by omega
    rw [flipBit_self, flipBit_of_ne (by omega), flipBit_of_ne (by omega),
      flipBit_of_ne (by omega), ← h2, BitVec.xor_append, BitVec.xor_append,
      BitVec.xor_append, BitVec.xor_zero, BitVec.xor_zero, BitVec.xor_zero]
  | 3, _ =>
    obtain rfl : k = 4 * q + 3 := by omega
    rw [flipBit_self, flipBit_of_ne (by omega), flipBit_of_ne (by omega),
      flipBit_of_ne (by omega), ← h3, BitVec.xor_append, BitVec.xor_append,
      BitVec.xor_append, BitVec.xor_zero, BitVec.xor_zero, BitVec.xor_zero]

theorem longword_flipBit_of_ne {q : Nat} (h : q ≠ k / 4) :
    longword (flipBit buf k j) q = longword buf q := by
  rw [longword, longword, flipBit_of_ne (by omega), flipBit_of_ne (by omega),
    flipBit_of_ne (by omega), flipBit_of_ne (by omega)]

/-- A flipped bit changes the parities that take its byte. -/
theorem change_of_flipBit (eccsizeMult : Nat) (buf : Nat → BitVec 8) {n : Nat} (hj : j < 8)
    (hk : k / 4 < n) :
    Change (k % 4) j (!k.testBit 2) (!k.testBit 3) (!k.testBit 4) (!k.testBit 5) (!k.testBit 6)
      (!k.testBit 7) (decide (eccsizeMult = 2) && !k.testBit 8)
      (sums eccsizeMult (longword buf) n) (sums eccsizeMult (longword (flipBit buf k j)) n) := by
  have hbit : ∀ i, (k / 4).testBit i = k.testBit (i + 2) := by
    intro i
    rw [show 4 = 2 ^ 2 from rfl, Nat.testBit_div_two_pow]
  have hsum : ∀ p : Nat → Bool, xorSum p (longword (flipBit buf k j)) n =
      xorSum p (longword buf) n ^^^ if p (k / 4) then single (k % 4) j else 0 :=
    fun _ => xorSum_of_change hk (longword_flipBit hj) fun _ => longword_flipBit_of_ne
  refine ⟨?_, ?_, ?_, ?_, ?_, ?_, ?_, ?_⟩
  · rw [← hbit 0]
    exact hsum _
  · rw [← hbit 1]
    exact hsum _
  · rw [← hbit 2]
    exact hsum _
  · rw [← hbit 3]
    exact hsum _
  · rw [← hbit 4]
    exact hsum _
  · rw [← hbit 5]
    exact hsum _
  · rw [← hbit 6]
    exact hsum _
  · exact hsum _

end Block

/-! ## Codes -/

theorem diff0_order (smc : Bool) (low high code2 low' high' code2' : BitVec 8) :
    diff0 smc (order smc low high code2) (order smc low' high' code2') = low ^^^ low' := by
  cases smc <;> rfl

theorem diff1_order (smc : Bool) (low high code2 low' high' code2' : BitVec 8) :
    diff1 smc (order smc low high code2) (order smc low' high' code2') = high ^^^ high' := by
  cases smc <;> rfl

theorem code2_order (smc : Bool) (low high code2 : BitVec 8) :
    (order smc low high code2).code2 = code2 := by
  cases smc <;> rfl

/-- The codes of blocks that differ in one bit. -/
theorem diff_flipBit {eccsizeMult : Nat} (hm : eccsizeMult = 1 ∨ eccsizeMult = 2) (smc : Bool)
    (buf : Nat → BitVec 8) {k j : Nat} (hk : k < 256 * eccsizeMult) (hj : j < 8) :
    diff0 smc (nandCalculateEcc smc eccsizeMult buf)
        (nandCalculateEcc smc eccsizeMult (flipBit buf k j)) = lowPairs k ∧
      diff1 smc (nandCalculateEcc smc eccsizeMult buf)
        (nandCalculateEcc smc eccsizeMult (flipBit buf k j)) = highPairs k ∧
      (nandCalculateEcc smc eccsizeMult buf).code2 ^^^
        (nandCalculateEcc smc eccsizeMult (flipBit buf k j)).code2 =
        columnPairs eccsizeMult k j := by
  have hn : k / 4 < 16 * (eccsizeMult <<< 2) := by
    rw [Nat.shiftLeft_eq]
    omega
  have hchange := change_of_flipBit eccsizeMult buf hj hn
  rw [← accumulate_eq, ← accumulate_eq] at hchange
  have ht : k % 4 < 4 := Nat.mod_lt k (by omega)
  have hlow := hchange.lowCode ht hj
  have hhigh := hchange.highCode ht hj
  have hmod : ∀ i < 2, (k % 4).testBit i = k.testBit i := by
    intro i hi
    rw [show 4 = 2 ^ 2 from rfl, Nat.testBit_mod_two_pow, decide_eq_true hi, Bool.true_and]
  rw [hmod 1 (by omega), hmod 0 (by omega)] at hlow
  simp only [Bool.not_not] at hlow hhigh
  simp only [nandCalculateEcc, codeOf, diff0_order, diff1_order, code2_order]
  refine ⟨hlow, hhigh, ?_⟩
  rcases hm with rfl | rfl
  · exact hchange.columnCode_one ht hj
  · have hcolumn := hchange.columnCode_two ht hj
    simp only [decide_true, Bool.true_and, Bool.not_not] at hcolumn
    exact hcolumn

/-- A data bit is looked up in the lower half of the block. -/
theorem correct_data {eccsizeMult : Nat} (hm : eccsizeMult = 1 ∨ eccsizeMult = 2) (smc : Bool)
    (buf : Nat → BitVec 8) {k j : Nat} (hk : k < 256 * eccsizeMult) (hj : j < 8) :
    nandCorrectData smc eccsizeMult (flipBit buf k j) (nandCalculateEcc smc eccsizeMult buf)
        (nandCalculateEcc smc eccsizeMult (flipBit buf k j)) =
      (1, flipBit (flipBit buf k j) (k % 256) j) := by
  obtain ⟨hlow, hhigh, hcolumn⟩ := diff_flipBit hm smc buf hk hj
  rw [nandCorrectData, hlow, hhigh, hcolumn]
  exact correct_pairs hm _ k hj

theorem correct_none (smc : Bool) (eccsizeMult : Nat) (buf : Nat → BitVec 8) (ecc : Ecc) :
    nandCorrectData smc eccsizeMult buf ecc ecc = (0, buf) := by
  have hzero : diff0 smc ecc ecc ||| diff1 smc ecc ecc ||| (ecc.code2 ^^^ ecc.code2) = 0 := by
    cases smc <;> simp only [diff0, diff1, BitVec.xor_self, BitVec.or_self, if_true] <;> rfl
  rw [nandCorrectData, correct, if_pos hzero]

/-- One bit of a byte of a code. -/
def Ecc.flip (ecc : Ecc) (byte bit : Nat) : Ecc :=
  match byte with
  | 0 => { ecc with code0 := ecc.code0 ^^^ (1#8 <<< bit) }
  | 1 => { ecc with code1 := ecc.code1 ^^^ (1#8 <<< bit) }
  | _ => { ecc with code2 := ecc.code2 ^^^ (1#8 <<< bit) }

/-- Codes that differ in one bit leave the block alone. -/
theorem correct_single (eccsizeMult : Nat) (buf : Nat → BitVec 8) : ∀ j < 8,
    correct eccsizeMult buf (1#8 <<< j) 0 0 = (1, buf) ∧
      correct eccsizeMult buf 0 (1#8 <<< j) 0 = (1, buf) ∧
      correct eccsizeMult buf 0 0 (1#8 <<< j) = (1, buf) := by
  have hzero : ¬ halfSet 0x55 0 := by
    decide
  have hbits : lookup bitsperbyte 0 = 0 := by
    decide
  have hsingle : ∀ j < 8, 1#8 <<< j ≠ 0 ∧ lookup bitsperbyte (1#8 <<< j) = 1 := by
    decide
  intro j hj
  obtain ⟨hne, hone⟩ := hsingle j hj
  refine ⟨?_, ?_, ?_⟩
  · rw [correct, if_neg (by simpa using hne), if_neg fun h => hzero h.2.1, hbits, hone, if_pos rfl]
  · rw [correct, if_neg (by simpa using hne), if_neg fun h => hzero h.1, hbits, hone, if_pos rfl]
  · rw [correct, if_neg (by simpa using hne), if_neg fun h => hzero h.1, hbits, hone, if_pos rfl]

theorem xor_xor_self (x e : BitVec 8) : x ^^^ e ^^^ x = e := by
  rw [BitVec.xor_comm x e, BitVec.xor_assoc, BitVec.xor_self, BitVec.xor_zero]

theorem correct_code (smc : Bool) (eccsizeMult : Nat) (buf : Nat → BitVec 8) (ecc : Ecc)
    (byte : Nat) {j : Nat} (hj : j < 8) :
    nandCorrectData smc eccsizeMult buf (ecc.flip byte j) ecc = (1, buf) := by
  obtain ⟨h0, h1, h2⟩ := correct_single eccsizeMult buf j hj
  match byte with
  | 0 =>
    cases smc <;>
      simp only [nandCorrectData, diff0, diff1, Ecc.flip, xor_xor_self, BitVec.xor_self, if_true]
    · exact h1
    · exact h0
  | 1 =>
    cases smc <;>
      simp only [nandCorrectData, diff0, diff1, Ecc.flip, xor_xor_self, BitVec.xor_self, if_true]
    · exact h0
    · exact h1
  | _ + 2 =>
    cases smc <;>
      simp only [nandCorrectData, diff0, diff1, Ecc.flip, xor_xor_self, BitVec.xor_self, if_true]
    · exact h2
    · exact h2

/-! ## Main result -/

/-- A difference of a block and its code from those that were written. -/
inductive Difference
  | none
  | data (byte bit : Nat)
  | code (byte bit : Nat)

namespace Difference

/-- The difference is in the block or in a used bit of the code: the last byte of the code of 256
bytes ends in two bits that are always set. -/
def Used (eccsizeMult : Nat) : Difference → Prop
  | none => True
  | data byte bit => byte < 256 * eccsizeMult ∧ bit < 8
  | code byte bit => byte < 3 ∧ bit < 8 ∧ ¬ (eccsizeMult = 1 ∧ byte = 2 ∧ bit < 2)

/-- The block that is read. -/
def block (buf : Nat → BitVec 8) : Difference → Nat → BitVec 8
  | data byte bit => flipBit buf byte bit
  | _ => buf

/-- The code that is read. -/
def readEcc (ecc : Ecc) : Difference → Ecc
  | code byte bit => ecc.flip byte bit
  | _ => ecc

/-- The expected result. -/
def result : Difference → Int
  | none => 0
  | _ => 1

/-- The bit is in the second half of a block of 512 bytes. -/
def SecondHalf : Difference → Prop
  | data byte _ => 256 ≤ byte
  | _ => False

end Difference

/-- The block is corrected, unless the bit is in the second half: `byte_addr` holds eight bits. -/
theorem nand_ecc_corrects_iff {eccsizeMult : Nat} (hm : eccsizeMult = 1 ∨ eccsizeMult = 2)
    (smc : Bool) (buf : Nat → BitVec 8) {δ : Difference} (hδ : δ.Used eccsizeMult) :
    nandCorrectData smc eccsizeMult (δ.block buf)
        (δ.readEcc (nandCalculateEcc smc eccsizeMult buf))
        (nandCalculateEcc smc eccsizeMult (δ.block buf)) = (δ.result, buf) ↔
      ¬ δ.SecondHalf := by
  cases δ with
  | none => exact iff_of_true (correct_none smc eccsizeMult buf _) not_false
  | code byte bit => exact iff_of_true (correct_code smc eccsizeMult buf _ byte hδ.2.1) not_false
  | data k j =>
    obtain ⟨hk, hj⟩ := hδ
    have hdata := correct_data hm smc buf hk hj
    refine (Eq.congr_left hdata).trans ⟨fun heq hhalf => ?_, fun hhalf => ?_⟩
    · have hsnd := congrFun (Prod.mk.inj heq).2 k
      have hne : k ≠ k % 256 := by
        have hge : 256 ≤ k := hhalf
        omega
      rw [flipBit_of_ne hne] at hsnd
      exact flipBit_ne hj hsnd
    · have hlt : k < 256 := Nat.lt_of_not_le hhalf
      rw [Nat.mod_eq_of_lt hlt, flipBit_flipBit]
      rfl

/-- Bit 0 of byte 255 of 512 zero bytes. -/
theorem nand_ecc_corrects_iff_last :
    nandCorrectData false 2 (flipBit (fun _ => 0) 255 0)
      (nandCalculateEcc false 2 fun _ => 0)
      (nandCalculateEcc false 2 (flipBit (fun _ => 0) 255 0)) = (1, fun _ => 0) :=
  (@nand_ecc_corrects_iff 2 (.inr rfl) false (fun _ => 0) (.data 255 0)
    ⟨by decide, by decide⟩).mpr (show ¬ 256 ≤ 255 by decide)

/-- Bit 0 of byte 256: bit 0 of byte 0 is flipped. -/
theorem nand_ecc_corrects_lower :
    nandCorrectData false 2 (flipBit (fun _ => 0) 256 0)
        (nandCalculateEcc false 2 fun _ => 0)
        (nandCalculateEcc false 2 (flipBit (fun _ => 0) 256 0)) =
      (1, flipBit (flipBit (fun _ => 0) 256 0) 0 0) ∧
    flipBit (flipBit (fun _ => 0) 256 0) 0 0 ≠ fun _ => 0 := by
  refine ⟨correct_data (.inr rfl) false (fun _ => 0) (show 256 < 512 by decide) (by decide), ?_⟩
  intro heq
  exact absurd (congrFun heq 0) (by decide)

end AndroidKernel.NandEcc
