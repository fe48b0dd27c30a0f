import AndroidKernel.Library.LineParity
import AndroidKernel.YaffsEcc.Model

/-!
# Correction of single bits, detection of double ones

Read `yaffs_ecc_corrects` first. Both codes are line parity codes: `pageView` and `otherView` read
the parities out of their words, and what the correcting functions do follows from the verdict on
the difference of the parities.
-/

/-!
## Sums of parities

A changed bit of the data changes the sums of the loop in the parities of the bit, whatever the
data: `sums_flipBit`. The loops that count bits count the bits of a word.
-/

namespace AndroidKernel.YaffsEcc

open Library

variable {w : Nat}

/-! ## Counted bits -/

theorem cpopNatRec_shift (x : BitVec w) (n : Nat) :
    (x >>> 1).cpopNatRec n 0 + (x.getLsbD 0).toNat = x.cpopNatRec (n + 1) 0 := by
  induction n with
  | zero => simp
  | succ n ih =>
    have hshift : (x >>> 1).getLsbD n = x.getLsbD (n + 1) := by
      rw [BitVec.getLsbD_ushiftRight, Nat.add_comm]
    calc (x >>> 1).cpopNatRec (n + 1) 0 + (x.getLsbD 0).toNat
        = (x >>> 1).cpopNatRec n 0 + (0 + (x.getLsbD (n + 1)).toNat) + (x.getLsbD 0).toNat := by
          rw [BitVec.cpopNatRec_succ, BitVec.cpopNatRec_eq, hshift]
      _ = x.cpopNatRec (n + 1) 0 + (0 + (x.getLsbD (n + 1)).toNat) := by
          rw [← ih, Nat.add_right_comm]
      _ = x.cpopNatRec (n + 1 + 1) 0 := (BitVec.cpopNatRec_eq _).symm

theorem cpopNatRec_zero_word (n : Nat) : (0#w).cpopNatRec n 0 = 0 := by
  induction n with
  | zero => rfl
  | succ n ih =>
    rw [BitVec.cpopNatRec_succ, BitVec.getLsbD_zero]
    exact ih

/-- Each round counts the lowest bit of the word that is left. -/
theorem countLoop_eq (rounds : Nat) (x : BitVec w) (r : Nat) :
    countLoop rounds x r = r + x.cpopNatRec rounds 0 := by
  induction rounds generalizing x r with
  | zero => rfl
  | succ rounds ih =>
    rw [countLoop]
    split_ifs with hzero hbit
    · subst hzero
      rw [show (0 : BitVec w) = 0#w from rfl, cpopNatRec_zero_word, Nat.add_zero]
    · rw [ih, ← cpopNatRec_shift, hbit, Bool.toNat_true]
      omega
    · rw [ih, ← cpopNatRec_shift, Bool.eq_false_of_not_eq_true hbit, Bool.toNat_false, Nat.add_zero]

theorem countBits32_eq (x : BitVec 32) : countBits32 x = x.cpop.toNat := by
  rw [countBits32, countLoop_eq, BitVec.toNat_cpop, Nat.zero_add]

/-! ## The table -/

/-- The table is linear. -/
theorem columnParity_flip : ∀ x : BitVec 8, ∀ j < 8,
    columnParity (x ^^^ 1#8 <<< j) = columnParity x ^^^ columnParity (1#8 <<< j) := by
  decide

/-- The entries of single bits. -/
theorem columnParity_single : ∀ j < 8, (columnParity (1#8 <<< j)).getLsbD 0 = true ∧
    (columnParity (1#8 <<< j) >>> 2).setWidth 6 = columns j := by
  decide

/-! ## Changed data -/

section Data

variable {data : Nat → BitVec 8} {k j : Nat}

theorem flipBit_self : flipBit data k j k = data k ^^^ 1#8 <<< j :=
  Function.update_self ..

theorem flipBit_of_ne {i : Nat} (h : i ≠ k) : flipBit data k j i = data i :=
  Function.update_of_ne h ..

/-- To flip a bit twice is to leave it. -/
theorem flipBit_flipBit : flipBit (flipBit data k j) k j = data := by
  funext i
  by_cases hi : i = k
  · subst hi
    rw [flipBit_self, flipBit_self, BitVec.xor_assoc, BitVec.xor_self, BitVec.xor_zero]
  · rw [flipBit_of_ne hi, flipBit_of_ne hi]

/-- The exclusive sum of sums. -/
def Sums.add (acc acc' : Sums w) : Sums w :=
  ⟨acc.colParity ^^^ acc'.colParity, acc.lineParity ^^^ acc'.lineParity,
    acc.lineParityPrime ^^^ acc'.lineParityPrime⟩

/-- The sums of bit `j` of byte `k`. -/
def bitSums (w k j : Nat) : Sums w :=
  ⟨columnParity (1#8 <<< j), BitVec.ofNat w k, ~~~BitVec.ofNat w k⟩

theorem xor_swap (x y z : BitVec w) : x ^^^ y ^^^ z = x ^^^ z ^^^ y := by
  ac_rfl

/-- What was added before a round stays added. -/
theorem Sums.next_add (acc acc' : Sums w) (i : Nat) :
    (acc.add acc').next data i = (acc.next data i).add acc' := by
  simp only [Sums.next, Sums.add]
  split_ifs
  · rw [Sums.mk.injEq]
    exact ⟨xor_swap .., xor_swap .., xor_swap ..⟩
  · rw [Sums.mk.injEq]
    exact ⟨xor_swap .., rfl, rfl⟩

/-- The round of the changed byte: it turns odd or even. -/
theorem Sums.next_flipBit (acc : Sums w) (hj : j < 8) :
    acc.next (flipBit data k j) k = (acc.next data k).add (bitSums w k j) := by
  obtain ⟨hodd, _⟩ := columnParity_single j hj
  have hbit : (columnParity (data k ^^^ 1#8 <<< j)).getLsbD 0 = !(columnParity (data k)).getLsbD 0 := by
    rw [columnParity_flip _ j hj, BitVec.getLsbD_xor, hodd, Bool.xor_true]
  simp only [Sums.next, flipBit_self, hbit, Sums.add, bitSums]
  cases heven : (columnParity (data k)).getLsbD 0 with
  | false =>
    simp only [Bool.not_false, if_true, Bool.false_eq_true, if_false, columnParity_flip _ j hj,
      BitVec.xor_assoc]
  | true =>
    simp only [Bool.not_true, if_true, Bool.false_eq_true, if_false, columnParity_flip _ j hj,
      BitVec.xor_assoc, BitVec.xor_self, BitVec.xor_zero]

theorem sums_flipBit_of_le {n : Nat} (h : n ≤ k) :
    sums w (flipBit data k j) n = sums w data n := by
  induction n with
  | zero => rfl
  | succ n ih =>
    rw [sums, sums, ih (by omega), Sums.next, Sums.next, flipBit_of_ne (by omega)]

/-- A changed bit changes the sums in its own. -/
theorem sums_flipBit {n : Nat} (hk : k < n) (hj : j < 8) :
    sums w (flipBit data k j) n = (sums w data n).add (bitSums w k j) := by
  induction n with
  | zero => exact absurd hk (Nat.not_lt_zero k)
  | succ n ih =>
    rw [sums, sums]
    by_cases hlast : k = n
    · subst hlast
      rw [sums_flipBit_of_le (Nat.le_refl k), Sums.next_flipBit _ hj]
    · rw [ih (by omega), ← Sums.next_add, Sums.next, Sums.next, flipBit_of_ne (Ne.symm hlast)]

end Data

/-! ## Codes and changes -/

/-- A code for blocks of bytes: `κ` names the bits of the words that hold it. -/
structure Code (E κ : Type) where
  bytes : Nat
  calculate : (Nat → BitVec 8) → E
  correct : (Nat → BitVec 8) → E → E → Int × (Nat → BitVec 8) × E
  flip : E → κ → E
  used : κ → Prop

/-- A changed bit of the data or of the stored code. -/
inductive Change (κ : Type)
  | data (byte bit : Nat)
  | code (bit : κ)

section Change

variable {E κ : Type} {w : Nat}

/-- The bit is used. -/
def Change.Used (code : Code E κ) : Change κ → Prop
  | .data byte bit => byte < code.bytes ∧ bit < 8
  | .code bit => code.used bit

/-- The data that is read. -/
def Change.block (data : Nat → BitVec 8) : Change κ → Nat → BitVec 8
  | .data byte bit => flipBit data byte bit
  | .code _ => data

/-- The code that is read. -/
def Change.readEcc (code : Code E κ) (ecc : E) : Change κ → E
  | .data _ _ => ecc
  | .code bit => code.flip ecc bit

/-- A code corrects what it should: nothing is done to an unchanged pair, a pair with one changed
bit is restored, and a pair with two is reported and left alone. -/
structure Corrects (code : Code E κ) (data : Nat → BitVec 8) : Prop where
  unchanged : code.correct data (code.calculate data) (code.calculate data) =
    (0, data, code.calculate data)
  single : ∀ δ : Change κ, δ.Used code →
    code.correct (δ.block data) (δ.readEcc code (code.calculate data))
      (code.calculate (δ.block data)) = (1, data, code.calculate data)
  double : ∀ δ δ' : Change κ, δ.Used code → δ'.Used code → δ ≠ δ' →
    code.correct (δ'.block (δ.block data)) (δ'.readEcc code (δ.readEcc code (code.calculate data)))
      (code.calculate (δ'.block (δ.block data))) =
      (-1, δ'.block (δ.block data), δ'.readEcc code (δ.readEcc code (code.calculate data)))

/-! ## Codes as parities -/

/-- What a verdict makes of the pair that is read. -/
def outcome (code : Code E κ) (data : Nat → BitVec 8) (readEcc testEcc : E) :
    Verdict w → Int × (Nat → BitVec 8) × E
  | .clean => (0, data, readEcc)
  | .data byte bit =>
    if code.bytes ≤ byte.toNat then (-1, data, readEcc)
    else (1, flipBit data byte.toNat bit, readEcc)
  | .code => (1, data, testEcc)
  | .failed => (-1, data, readEcc)

/-- The branches of the correcting functions. -/
theorem outcome_classify (code : Code E κ) (data : Nat → BitVec 8) (readEcc testEcc : E)
    (s : LineParity w) : outcome code data readEcc testEcc s.classify =
      if s = ⟨0, 0, 0⟩ then (0, data, readEcc)
      else if s.line = ~~~s.prime ∧ halfSet s.col then
        if code.bytes ≤ s.line.toNat then (-1, data, readEcc)
        else (1, flipBit data s.line.toNat (bitOf s.col), readEcc)
      else if s.count = 1 then (1, data, testEcc)
      else (-1, data, readEcc) := by
  rw [LineParity.classify, apply_ite (outcome code data readEcc testEcc),
    apply_ite (outcome code data readEcc testEcc), apply_ite (outcome code data readEcc testEcc)]
  rfl

/-- A code that stores line parities. Words are valid when their unused bits are as calculated. -/
structure View (code : Code E κ) (w : Nat) where
  parities : E → LineParity w
  place : κ → Place
  Valid : E → Prop
  bytes_le : code.bytes ≤ 2 ^ w
  place_inRange : ∀ bit, code.used bit → (place bit).InRange w
  place_code : ∀ bit, (place bit).verdict w = .code
  place_inj : ∀ bit bit', code.used bit → code.used bit' → place bit = place bit' → bit = bit'
  valid_calculate : ∀ data, Valid (code.calculate data)
  valid_flip : ∀ ecc bit, code.used bit → Valid ecc → Valid (code.flip ecc bit)
  parities_flip : ∀ ecc bit, code.used bit →
    parities (code.flip ecc bit) = (parities ecc).add ((place bit).syndrome w)
  parities_data : ∀ data byte bit, byte < code.bytes → bit < 8 →
    parities (code.calculate (flipBit data byte bit)) =
      (parities (code.calculate data)).add ((Place.data byte bit).syndrome w)
  correct_eq : ∀ data readEcc testEcc, Valid readEcc → Valid testEcc →
    code.correct data readEcc testEcc =
      outcome code data readEcc testEcc ((parities readEcc).add (parities testEcc)).classify

namespace View

variable {code : Code E κ} (view : View code w) {data : Nat → BitVec 8} {ecc : E}

/-- The bit of the line parity code that a change flips. -/
def placeOf : Change κ → Place
  | .data byte bit => .data byte bit
  | .code bit => view.place bit

theorem placeOf_inRange {δ : Change κ} (hδ : δ.Used code) : (view.placeOf δ).InRange w := by
  cases δ with
  | data byte bit => exact ⟨Nat.lt_of_lt_of_le hδ.1 view.bytes_le, hδ.2⟩
  | code bit => exact view.place_inRange bit hδ

theorem placeOf_inj {δ δ' : Change κ} (hδ : δ.Used code) (hδ' : δ'.Used code)
    (h : view.placeOf δ = view.placeOf δ') : δ = δ' := by
  have hdata : ∀ byte bit b, Place.data byte bit ≠ view.place b := by
    intro byte bit b heq
    have hcode := view.place_code b
    rw [← heq] at hcode
    exact nomatch hcode
  cases δ with
  | data byte bit =>
    cases δ' with
    | data byte' bit' =>
      obtain ⟨rfl, rfl⟩ := Place.data.inj h
      rfl
    | code bit' => exact absurd h (hdata _ _ _)
  | code bit =>
    cases δ' with
    | data byte' bit' => exact absurd h.symm (hdata _ _ _)
    | code bit' => rw [view.place_inj bit bit' hδ hδ' h]

theorem valid_readEcc {δ : Change κ} (hδ : δ.Used code) (hvalid : view.Valid ecc) :
    view.Valid (δ.readEcc code ecc) := by
  cases δ with
  | data byte bit => exact hvalid
  | code bit => exact view.valid_flip ecc bit hδ hvalid

/-- A change adds its syndrome to the difference of the stored and the calculated code. -/
theorem difference {δ : Change κ} (hδ : δ.Used code) (data : Nat → BitVec 8) (ecc : E) :
    (view.parities (δ.readEcc code ecc)).add (view.parities (code.calculate (δ.block data))) =
      ((view.parities ecc).add (view.parities (code.calculate data))).add
        ((view.placeOf δ).syndrome w) := by
  cases δ with
  | data byte bit =>
    show (view.parities ecc).add (view.parities (code.calculate (flipBit data byte bit))) = _
    rw [view.parities_data data byte bit hδ.1 hδ.2, LineParity.add_assoc]
    rfl
  | code bit =>
    show (view.parities (code.flip ecc bit)).add (view.parities (code.calculate data)) = _
    rw [view.parities_flip ecc bit hδ, LineParity.add_assoc, LineParity.add_assoc,
      LineParity.add_comm ((view.place bit).syndrome w)]
    rfl

/-- The verdict decides, so a code of line parities corrects what it should. -/
theorem corrects (view : View code w) (hw : 0 < w) (heven : w % 2 = 0) (data : Nat → BitVec 8) :
    Corrects code data := by
  refine ⟨?_, fun δ hδ => ?_, fun δ δ' hδ hδ' hne => ?_⟩
  · rw [view.correct_eq _ _ _ (view.valid_calculate data) (view.valid_calculate data),
      LineParity.add_self, Place.classify_zero]
    rfl
  · rw [view.correct_eq _ _ _ (view.valid_readEcc hδ (view.valid_calculate data))
      (view.valid_calculate _), view.difference hδ, LineParity.add_self, LineParity.zero_add,
      Place.classify_single hw (view.placeOf_inRange hδ)]
    cases δ with
    | data byte bit =>
      have hbyte : (BitVec.ofNat w byte).toNat = byte := by
        rw [BitVec.toNat_ofNat, Nat.mod_eq_of_lt (Nat.lt_of_lt_of_le hδ.1 view.bytes_le)]
      show outcome code _ _ _ (.data (BitVec.ofNat w byte) bit) = _
      rw [outcome, hbyte, if_neg (Nat.not_le.mpr hδ.1)]
      show (1, flipBit (flipBit data byte bit) byte bit, code.calculate data) = _
      rw [flipBit_flipBit]
    | code bit =>
      show outcome code _ _ _ ((view.place bit).verdict w) = _
      rw [view.place_code bit]
      rfl
  · rw [view.correct_eq _ _ _
        (view.valid_readEcc hδ' (view.valid_readEcc hδ (view.valid_calculate data)))
        (view.valid_calculate _), view.difference hδ', view.difference hδ, LineParity.add_self,
      LineParity.zero_add, Place.classify_two hw heven (view.placeOf_inRange hδ)
        (view.placeOf_inRange hδ') fun h => hne (view.placeOf_inj hδ hδ' h)]
    rfl

end View

end Change

/-! ## Blocks of any length -/

/-- A bit of a `yaffs_ECCOther`. -/
inductive OtherBit
  | colParity (bit : Nat)
  | lineParity (bit : Nat)
  | lineParityPrime (bit : Nat)

/-- The code of `nBytes` bytes. Two bits of `colParity` are not used. -/
def otherCode (nBytes : Nat) : Code EccOther OtherBit where
  bytes := nBytes
  calculate data := eccCalculateOther data nBytes
  correct data := eccCorrectOther data nBytes
  flip ecc
    | .colParity bit => { ecc with colParity := ecc.colParity ^^^ 1#8 <<< bit }
    | .lineParity bit => { ecc with lineParity := ecc.lineParity ^^^ 1#32 <<< bit }
    | .lineParityPrime bit => { ecc with lineParityPrime := ecc.lineParityPrime ^^^ 1#32 <<< bit }
  used
    | .colParity bit => bit < 6
    | .lineParity bit | .lineParityPrime bit => bit < 32

/-- The parities of a `yaffs_ECCOther`. -/
def EccOther.parities (ecc : EccOther) : LineParity 32 :=
  ⟨ecc.colParity.setWidth 6, ecc.lineParity, ecc.lineParityPrime⟩

/-- The place of a bit. -/
def OtherBit.place : OtherBit → Place
  | .colParity bit => .col bit
  | .lineParity bit => .line bit
  | .lineParityPrime bit => .prime bit

/-- Column parities of six bits, as the functions see them in a byte. -/
theorem wide_spec : ∀ c : BitVec 6, pairsSet 0x15 (c.setWidth 8) = halfSet c ∧
    bitOfDelta (c.setWidth 8) 0x20 0x08 0x02 = bitOf c ∧
    countBits (c.setWidth 8) = c.cpop.toNat ∧ ((c.setWidth 8).setWidth 32 = 0#32 ↔ c = 0) := by
  decide

theorem narrow_single : ∀ b < 6, (1#8 <<< b).setWidth 6 = 1#6 <<< b := by
  decide

theorem wide_single : ∀ b < 6, (1#6 <<< b).setWidth 8 = 1#8 <<< b := by
  decide

theorem narrow_calculated : ∀ c : BitVec 8,
    (((c >>> 2) &&& 0x3f).setWidth 6).setWidth 8 = (c >>> 2) &&& 0x3f ∧
      ((c >>> 2) &&& 0x3f).setWidth 6 = (c >>> 2).setWidth 6 := by
  decide

theorem wide_xor (c d : BitVec 6) :
    (c ^^^ d).setWidth 8 = c.setWidth 8 ^^^ d.setWidth 8 :=
  BitVec.setWidth_xor ..

/-- The difference of a code of 32 lines, and the counts of its words. -/
theorem eccCorrectOther_eq (data : Nat → BitVec 8) (nBytes : Nat) {readEcc testEcc : EccOther}
    (hread : readEcc.parities.col.setWidth 8 = readEcc.colParity)
    (htest : testEcc.parities.col.setWidth 8 = testEcc.colParity) :
    eccCorrectOther data nBytes readEcc testEcc = outcome (otherCode nBytes) data readEcc testEcc
      (readEcc.parities.add testEcc.parities).classify := by
  obtain ⟨s, hs⟩ : ∃ s, s = readEcc.parities.add testEcc.parities := ⟨_, rfl⟩
  have hcol : readEcc.colParity ^^^ testEcc.colParity = s.col.setWidth 8 := by
    rw [hs, ← hread, ← htest, ← wide_xor]
    rfl
  have hline : readEcc.lineParity ^^^ testEcc.lineParity = s.line := by
    rw [hs]
    rfl
  have hprime : readEcc.lineParityPrime ^^^ testEcc.lineParityPrime = s.prime := by
    rw [hs]
    rfl
  obtain ⟨hpairs, hbit, hcount, hzero⟩ := wide_spec s.col
  have hclean : (s.col.setWidth 8).setWidth 32 ||| s.line ||| s.prime = 0 ↔ s = ⟨0, 0, 0⟩ := by
    constructor
    · intro hall
      obtain ⟨hfirst, hlast⟩ := BitVec.or_eq_zero_iff.mp hall
      obtain ⟨hc, hl⟩ := BitVec.or_eq_zero_iff.mp hfirst
      exact LineParity.ext (hzero.mp hc) hl hlast
    · rintro rfl
      rfl
  have hsum : countBits32 s.line + countBits32 s.prime + countBits (s.col.setWidth 8) =
      s.count := by
    rw [countBits32_eq, countBits32_eq, hcount]
    rfl
  rw [← hs, outcome_classify]
  simp only [eccCorrectOther, hcol, hline, hprime, hpairs, hbit, hsum, hclean]
  rfl

/-- The view of a code of 32 lines. -/
def otherView {nBytes : Nat} (hn : nBytes < 2 ^ 32) : View (otherCode nBytes) 32 where
  parities := EccOther.parities
  place := OtherBit.place
  Valid ecc := ecc.parities.col.setWidth 8 = ecc.colParity
  bytes_le := Nat.le_of_lt hn
  place_inRange bit hbit := by cases bit <;> exact hbit
  place_code bit := by cases bit <;> rfl
  place_inj bit bit' _ _ h := by
    cases bit <;> cases bit' <;> cases h <;> rfl
  valid_calculate data := (narrow_calculated _).1
  valid_flip ecc bit hbit hvalid := by
    cases bit with
    | colParity b =>
      show ((ecc.colParity ^^^ 1#8 <<< b).setWidth 6).setWidth 8 = ecc.colParity ^^^ 1#8 <<< b
      rw [BitVec.setWidth_xor, wide_xor, narrow_single b hbit]
      exact congrArg₂ (· ^^^ ·) hvalid (wide_single b hbit)
    | lineParity b | lineParityPrime b => exact hvalid
  parities_flip ecc bit hbit := by
    cases bit with
    | colParity b =>
      refine LineParity.ext ?_ BitVec.xor_zero.symm BitVec.xor_zero.symm
      show (ecc.colParity ^^^ 1#8 <<< b).setWidth 6 = ecc.colParity.setWidth 6 ^^^ 1#6 <<< b
      rw [BitVec.setWidth_xor, narrow_single b hbit]
    | lineParity b => exact LineParity.ext BitVec.xor_zero.symm rfl BitVec.xor_zero.symm
    | lineParityPrime b => exact LineParity.ext BitVec.xor_zero.symm BitVec.xor_zero.symm rfl
  parities_data data byte bit hbyte hbit := by
    have hsums : sums 32 (flipBit data byte bit) nBytes =
        (sums 32 data nBytes).add (bitSums 32 byte bit) := sums_flipBit hbyte hbit
    have hline := congrArg Sums.lineParity hsums
    have hprime := congrArg Sums.lineParityPrime hsums
    refine LineParity.ext ?_ hline hprime
    show (((sums 32 (flipBit data byte bit) nBytes).colParity >>> 2) &&& 0x3f).setWidth 6 =
      (((sums 32 data nBytes).colParity >>> 2) &&& 0x3f).setWidth 6 ^^^ columns bit
    rw [(narrow_calculated _).2, (narrow_calculated _).2, hsums, ← (columnParity_single bit hbit).2]
    show (((sums 32 data nBytes).colParity ^^^ columnParity (1#8 <<< bit)) >>> 2).setWidth 6 = _
    rw [BitVec.ushiftRight_xor_distrib, BitVec.setWidth_xor]
  correct_eq data readEcc testEcc hread htest := eccCorrectOther_eq data nBytes hread htest

/-! ## Blocks of 256 bytes -/

/-- One bit of the three bytes of a code. -/
def Ecc.flip (ecc : Ecc) (bit : Nat × Nat) : Ecc :=
  match bit.1 with
  | 0 => { ecc with ecc0 := ecc.ecc0 ^^^ 1#8 <<< bit.2 }
  | 1 => { ecc with ecc1 := ecc.ecc1 ^^^ 1#8 <<< bit.2 }
  | _ => { ecc with ecc2 := ecc.ecc2 ^^^ 1#8 <<< bit.2 }

/-- The code of 256 bytes: a bit is a byte and its bit. The last byte ends in two bits that are not
used. -/
def pageCode (wrongOrder : Bool) : Code Ecc (Nat × Nat) where
  bytes := 256
  calculate := eccCalculate wrongOrder
  correct := eccCorrect wrongOrder
  flip := Ecc.flip
  used bit := bit.1 < 3 ∧ bit.2 < 8 ∧ ¬ (bit.1 = 2 ∧ bit.2 < 2)

/-- The upper bits of the four pairs of a byte: lines. -/
def upper (d : BitVec 8) : BitVec 4 :=
  BitVec.ofBool (d.getLsbD 7) ++ BitVec.ofBool (d.getLsbD 5) ++ BitVec.ofBool (d.getLsbD 3) ++
    BitVec.ofBool (d.getLsbD 1)

/-- The lower bits: complements of lines. -/
def lower (d : BitVec 8) : BitVec 4 :=
  BitVec.ofBool (d.getLsbD 6) ++ BitVec.ofBool (d.getLsbD 4) ++ BitVec.ofBool (d.getLsbD 2) ++
    BitVec.ofBool (d.getLsbD 0)

theorem getLsbD_upper : ∀ d : BitVec 8, ∀ i < 4, (upper d).getLsbD i = d.getLsbD (2 * i + 1) := by
  decide

theorem getLsbD_lower : ∀ d : BitVec 8, ∀ i < 4, (lower d).getLsbD i = d.getLsbD (2 * i) := by
  decide

theorem upper_xor (d e : BitVec 8) : upper (d ^^^ e) = upper d ^^^ upper e := by
  refine BitVec.eq_of_getLsbD_eq fun i hi => ?_
  rw [BitVec.getLsbD_xor, getLsbD_upper _ i hi, getLsbD_upper _ i hi, getLsbD_upper _ i hi,
    BitVec.getLsbD_xor]

theorem lower_xor (d e : BitVec 8) : lower (d ^^^ e) = lower d ^^^ lower e := by
  refine BitVec.eq_of_getLsbD_eq fun i hi => ?_
  rw [BitVec.getLsbD_xor, getLsbD_lower _ i hi, getLsbD_lower _ i hi, getLsbD_lower _ i hi,
    BitVec.getLsbD_xor]

/-- The tests on a delta of pairs. -/
theorem pairs_spec : ∀ d : BitVec 8, (d = 0 ↔ upper d = 0 ∧ lower d = 0) ∧
    (pairsSet 0x55 d = true ↔ upper d = ~~~lower d) ∧
    countBits d = (upper d).cpop.toNat + (lower d).cpop.toNat := by
  decide

/-- The tests on the delta of the columns. -/
theorem columns_delta : ∀ c : BitVec 6, pairsSet 0x54 (c.setWidth 8 <<< 2) = halfSet c ∧
    bitOfDelta (c.setWidth 8 <<< 2) 0x80 0x20 0x08 = bitOf c ∧
    countBits (c.setWidth 8 <<< 2) = c.cpop.toNat ∧ (c.setWidth 8 <<< 2 = (0 : BitVec 8) ↔ c = 0) := by
  decide

/-- The bytes of the lower and of the higher lines. -/
def Ecc.lowByte (wrongOrder : Bool) (ecc : Ecc) : BitVec 8 :=
  if wrongOrder then ecc.ecc1 else ecc.ecc0

def Ecc.highByte (wrongOrder : Bool) (ecc : Ecc) : BitVec 8 :=
  if wrongOrder then ecc.ecc0 else ecc.ecc1

/-- The parities of three bytes. -/
def Ecc.parities (wrongOrder : Bool) (ecc : Ecc) : LineParity 8 :=
  ⟨(ecc.ecc2 >>> 2).setWidth 6,
    upper (ecc.highByte wrongOrder) ++ upper (ecc.lowByte wrongOrder),
    lower (ecc.highByte wrongOrder) ++ lower (ecc.lowByte wrongOrder)⟩

/-- The masks select bits. -/
theorem mask_spec : ∀ d : BitVec 8,
    (d &&& 0x80 ≠ 0 ↔ d.getLsbD 7 = true) ∧ (d &&& 0x40 ≠ 0 ↔ d.getLsbD 6 = true) ∧
    (d &&& 0x20 ≠ 0 ↔ d.getLsbD 5 = true) ∧ (d &&& 0x10 ≠ 0 ↔ d.getLsbD 4 = true) ∧
    (d &&& 0x08 ≠ 0 ↔ d.getLsbD 3 = true) ∧ (d &&& 0x04 ≠ 0 ↔ d.getLsbD 2 = true) ∧
    (d &&& 0x02 ≠ 0 ↔ d.getLsbD 1 = true) ∧ (d &&& 0x01 ≠ 0 ↔ d.getLsbD 0 = true) := by
  decide

/-- Eight bits set one by one, from the highest to the lowest. -/
def collect (b7 b6 b5 b4 b3 b2 b1 b0 : Bool) : BitVec 8 :=
  let t : BitVec 8 := 0
  let t := if b7 then t ||| 0x80 else t
  let t := if b6 then t ||| 0x40 else t
  let t := if b5 then t ||| 0x20 else t
  let t := if b4 then t ||| 0x10 else t
  let t := if b3 then t ||| 0x08 else t
  let t := if b2 then t ||| 0x04 else t
  let t := if b1 then t ||| 0x02 else t
  if b0 then t ||| 0x01 else t

/-- Four bits. -/
def nibble (b3 b2 b1 b0 : Bool) : BitVec 4 :=
  BitVec.ofBool b3 ++ BitVec.ofBool b2 ++ BitVec.ofBool b1 ++ BitVec.ofBool b0

theorem collect_spec : ∀ b7 b6 b5 b4 b3 b2 b1 b0 : Bool,
    collect b7 b6 b5 b4 b3 b2 b1 b0 = nibble b7 b6 b5 b4 ++ nibble b3 b2 b1 b0 ∧
      upper (collect b7 b6 b5 b4 b3 b2 b1 b0) = nibble b7 b5 b3 b1 ∧
      lower (collect b7 b6 b5 b4 b3 b2 b1 b0) = nibble b6 b4 b2 b0 := by
  decide

/-- The address that the deltas name. -/
theorem byteOf_eq (d0 d1 : BitVec 8) : byteOf d0 d1 = upper d1 ++ upper d0 := by
  obtain ⟨h7, _, h5, _, h3, _, h1, _⟩ := mask_spec d0
  obtain ⟨k7, _, k5, _, k3, _, k1, _⟩ := mask_spec d1
  simp only [byteOf, h7, h5, h3, h1, k7, k5, k3, k1]
  exact (collect_spec _ _ _ _ _ _ _ _).1

/-- The halves of a byte. -/
theorem halves_spec : ∀ d : BitVec 8,
    d.extractLsb' 4 4 = nibble (d.getLsbD 7) (d.getLsbD 6) (d.getLsbD 5) (d.getLsbD 4) ∧
      d.extractLsb' 0 4 = nibble (d.getLsbD 3) (d.getLsbD 2) (d.getLsbD 1) (d.getLsbD 0) ∧
      ~~~d.extractLsb' 4 4 ++ ~~~d.extractLsb' 0 4 = ~~~d := by
  decide

/-- The four pairs that the first four masks select, and those that the last four do. -/
theorem interleave_high (line prime : BitVec 8) :
    upper (interleave line prime 0x80 0x40 0x20 0x10) = line.extractLsb' 4 4 ∧
      lower (interleave line prime 0x80 0x40 0x20 0x10) = prime.extractLsb' 4 4 := by
  obtain ⟨h7, h6, h5, h4, _⟩ := mask_spec line
  obtain ⟨k7, k6, k5, k4, _⟩ := mask_spec prime
  simp only [interleave, h7, h6, h5, h4, k7, k6, k5, k4, (halves_spec _).1]
  exact (collect_spec _ _ _ _ _ _ _ _).2

theorem interleave_low (line prime : BitVec 8) :
    upper (interleave line prime 0x08 0x04 0x02 0x01) = line.extractLsb' 0 4 ∧
      lower (interleave line prime 0x08 0x04 0x02 0x01) = prime.extractLsb' 0 4 := by
  obtain ⟨_, _, _, _, h3, h2, h1, h0⟩ := mask_spec line
  obtain ⟨_, _, _, _, k3, k2, k1, k0⟩ := mask_spec prime
  simp only [interleave, h3, h2, h1, h0, k3, k2, k1, k0, (halves_spec _).2.1]
  exact (collect_spec _ _ _ _ _ _ _ _).2

theorem append_xor (a b c d : BitVec 4) : (a ^^^ b) ++ (c ^^^ d) = (a ++ c) ^^^ (b ++ d) :=
  BitVec.xor_append.symm

theorem not_spec : ∀ d : BitVec 8, upper (~~~d) = ~~~upper d ∧ lower (~~~d) = ~~~lower d ∧
    ((~~~d ||| 0x03) >>> 2).setWidth 6 = ~~~(d >>> 2).setWidth 6 ∧
    (~~~d ||| 0x03) &&& 0x03 = 0x03 := by
  decide

/-- A calculated code stores the complements of the sums. -/
theorem parities_packEcc (wrongOrder : Bool) (acc : Sums 8) :
    (packEcc wrongOrder acc).parities wrongOrder =
      ⟨~~~(acc.colParity >>> 2).setWidth 6, ~~~acc.lineParity, ~~~acc.lineParityPrime⟩ := by
  obtain ⟨huh, hlh⟩ := interleave_high acc.lineParity acc.lineParityPrime
  obtain ⟨hul, hll⟩ := interleave_low acc.lineParity acc.lineParityPrime
  obtain ⟨high, hhigh⟩ : ∃ t, t = interleave acc.lineParity acc.lineParityPrime 0x80 0x40 0x20 0x10 :=
    ⟨_, rfl⟩
  obtain ⟨low, hlow⟩ : ∃ t, t = interleave acc.lineParity acc.lineParityPrime 0x08 0x04 0x02 0x01 :=
    ⟨_, rfl⟩
  rw [← hhigh] at huh hlh
  rw [← hlow] at hul hll
  have hline : upper (~~~high) ++ upper (~~~low) = ~~~acc.lineParity := by
    rw [(not_spec _).1, (not_spec _).1, huh, hul]
    exact (halves_spec _).2.2
  have hprime : lower (~~~high) ++ lower (~~~low) = ~~~acc.lineParityPrime := by
    rw [(not_spec _).2.1, (not_spec _).2.1, hlh, hll]
    exact (halves_spec _).2.2
  have hcol := (not_spec acc.colParity).2.2.1
  rw [packEcc, ← hhigh, ← hlow]
  cases wrongOrder with
  | false => exact LineParity.ext hcol hline hprime
  | true => exact LineParity.ext hcol hline hprime

/-- The two bits of the last byte that are not used are set. -/
def Ecc.Valid (ecc : Ecc) : Prop :=
  ecc.ecc2 &&& 0x03 = 0x03

/-- Deltas of valid bytes leave these bits clear. -/
theorem delta_column (x y : BitVec 8) (hx : x &&& 0x03 = 0x03) (hy : y &&& 0x03 = 0x03) :
    x ^^^ y = ((x >>> 2).setWidth 6 ^^^ (y >>> 2).setWidth 6).setWidth 8 <<< 2 := by
  have hshape : ∀ d : BitVec 8, d &&& 0x03 = 0x03 →
      d = ((d >>> 2).setWidth 6).setWidth 8 <<< 2 ^^^ 3#8 := by
    decide
  have hcancel : ∀ u v c : BitVec 8, (u ^^^ c) ^^^ (v ^^^ c) = u ^^^ v := by
    intro u v c
    rw [BitVec.xor_assoc, BitVec.xor_comm v c, ← BitVec.xor_assoc c c, BitVec.xor_self,
      BitVec.zero_xor]
  calc x ^^^ y
      = (((x >>> 2).setWidth 6).setWidth 8 <<< 2 ^^^ 3#8) ^^^
          (((y >>> 2).setWidth 6).setWidth 8 <<< 2 ^^^ 3#8) := by
        rw [← hshape x hx, ← hshape y hy]
    _ = ((x >>> 2).setWidth 6 ^^^ (y >>> 2).setWidth 6).setWidth 8 <<< 2 := by
        rw [hcancel, BitVec.setWidth_xor, BitVec.shiftLeft_xor_distrib]

/-- Two halves of a byte. -/
theorem append_inj (a b c d : BitVec 4) : a ++ c = b ++ d ↔ a = b ∧ c = d := by
  have hhalves : ∀ x y : BitVec 4, (x ++ y).extractLsb' 4 4 = x ∧ (x ++ y).extractLsb' 0 4 = y := by
    decide
  constructor
  · intro h
    rw [← (hhalves a c).1, h, ← (hhalves a c).2, h]
    exact hhalves b d
  · rintro ⟨rfl, rfl⟩
    rfl

section Deltas

variable (high low : BitVec 8)

/-- The two bytes of lines have one bit of each pair when lines and complements are complements. -/
theorem pairsSet_both : pairsSet 0x55 high ∧ pairsSet 0x55 low ↔
    upper high ++ upper low = ~~~(lower high ++ lower low) := by
  rw [BitVec.not_append, append_inj]
  exact and_congr (pairs_spec high).2.1 (pairs_spec low).2.1

theorem or_eq_zero_both : high = 0 ∧ low = 0 ↔
    upper high ++ upper low = 0#8 ∧ lower high ++ lower low = 0#8 := by
  have hzero : ∀ a c : BitVec 4, a ++ c = 0#8 ↔ a = 0 ∧ c = 0 :=
    fun a c => append_inj a 0 c 0
  rw [hzero, hzero, (pairs_spec high).1, (pairs_spec low).1]
  exact and_and_and_comm

theorem countBits_both : countBits high + countBits low =
    (upper high ++ upper low).cpop.toNat + (lower high ++ lower low).cpop.toNat := by
  rw [(pairs_spec high).2.2, (pairs_spec low).2.2, BitVec.toNat_cpop_append,
    BitVec.toNat_cpop_append]
  omega

end Deltas

/-- The order of the bytes does not matter for the tests on the deltas. -/
theorem eccCorrect_order (wrongOrder : Bool) (data : Nat → BitVec 8) (readEcc testEcc : Ecc) :
    eccCorrect wrongOrder data readEcc testEcc =
      (let high := readEcc.highByte wrongOrder ^^^ testEcc.highByte wrongOrder
       let low := readEcc.lowByte wrongOrder ^^^ testEcc.lowByte wrongOrder
       let column := readEcc.ecc2 ^^^ testEcc.ecc2
       if (high = 0 ∧ low = 0) ∧ column = 0 then (0, data, readEcc)
       else if (pairsSet 0x55 high ∧ pairsSet 0x55 low) ∧ pairsSet 0x54 column then
         (1, flipBit data (byteOf low high).toNat (bitOfDelta column 0x80 0x20 0x08), readEcc)
       else if countBits high + countBits low + countBits column = 1 then (1, data, testEcc)
       else (-1, data, readEcc)) := by
  have hzero : ∀ x y z : BitVec 8, x ||| y ||| z = 0 ↔ (x = 0 ∧ y = 0) ∧ z = 0 := by
    intro x y z
    exact BitVec.or_eq_zero_iff.trans (and_congr_left' BitVec.or_eq_zero_iff)
  cases wrongOrder with
  | false =>
    simp only [eccCorrect, Ecc.highByte, Ecc.lowByte, hzero, if_false, Bool.false_eq_true]
    simp only [and_comm, and_left_comm, and_assoc, Nat.add_comm]
  | true =>
    simp only [eccCorrect, Ecc.highByte, Ecc.lowByte, hzero, if_true, and_assoc]

/-- The deltas of a code of eight lines, and the counts of its bytes. -/
theorem eccCorrect_eq (wrongOrder : Bool) (data : Nat → BitVec 8) {readEcc testEcc : Ecc}
    (hread : readEcc.Valid) (htest : testEcc.Valid) :
    eccCorrect wrongOrder data readEcc testEcc = outcome (pageCode wrongOrder) data readEcc testEcc
      ((readEcc.parities wrongOrder).add (testEcc.parities wrongOrder)).classify := by
  obtain ⟨s, hs⟩ : ∃ s, s = (readEcc.parities wrongOrder).add (testEcc.parities wrongOrder) :=
    ⟨_, rfl⟩
  obtain ⟨high, hhigh⟩ : ∃ d, d = readEcc.highByte wrongOrder ^^^ testEcc.highByte wrongOrder :=
    ⟨_, rfl⟩
  obtain ⟨low, hlow⟩ : ∃ d, d = readEcc.lowByte wrongOrder ^^^ testEcc.lowByte wrongOrder :=
    ⟨_, rfl⟩
  have hline : upper high ++ upper low = s.line := by
    rw [hhigh, hlow, hs, upper_xor, upper_xor]
    exact append_xor ..
  have hprime : lower high ++ lower low = s.prime := by
    rw [hhigh, hlow, hs, lower_xor, lower_xor]
    exact append_xor ..
  have hcol : readEcc.ecc2 ^^^ testEcc.ecc2 = s.col.setWidth 8 <<< 2 := by
    rw [hs]
    exact delta_column _ _ hread htest
  obtain ⟨hpairs, hbit, hcount, hzero⟩ := columns_delta s.col
  have hclean : (high = 0 ∧ low = 0) ∧ s.col.setWidth 8 <<< 2 = (0 : BitVec 8) ↔ s = ⟨0, 0, 0⟩ := by
    rw [or_eq_zero_both, hline, hprime, hzero]
    constructor
    · rintro ⟨⟨hl, hp⟩, hc⟩
      exact LineParity.ext hc hl hp
    · rintro rfl
      exact ⟨⟨rfl, rfl⟩, rfl⟩
  have hdata : (pairsSet 0x55 high ∧ pairsSet 0x55 low) ∧ pairsSet 0x54 (s.col.setWidth 8 <<< 2) ↔
      s.line = ~~~s.prime ∧ halfSet s.col := by
    rw [pairsSet_both, hline, hprime, hpairs]
  have hsum : countBits high + countBits low + countBits (s.col.setWidth 8 <<< 2) = s.count := by
    rw [countBits_both, hline, hprime, hcount]
    rfl
  have hbyte : ¬ (pageCode wrongOrder).bytes ≤ s.line.toNat := Nat.not_le.mpr s.line.isLt
  rw [← hs, outcome_classify, if_neg hbyte, eccCorrect_order, ← hhigh, ← hlow, hcol]
  simp only [hclean, hdata, hsum, hbit, byteOf_eq, hline]

/-- The place of a bit of the three bytes. -/
def pagePlace (wrongOrder : Bool) (bit : Nat × Nat) : Place :=
  let first := if (bit.1 == 0) == wrongOrder then 4 else 0
  if bit.1 = 0 ∨ bit.1 = 1 then
    if bit.2 % 2 = 1 then .line (first + bit.2 / 2) else .prime (first + bit.2 / 2)
  else .col (bit.2 - 2)

/-- The exclusive sum of codes. -/
def Ecc.add (ecc ecc' : Ecc) : Ecc :=
  ⟨ecc.ecc0 ^^^ ecc'.ecc0, ecc.ecc1 ^^^ ecc'.ecc1, ecc.ecc2 ^^^ ecc'.ecc2⟩

/-- A single bit. -/
def Ecc.single (bit : Nat × Nat) : Ecc :=
  (⟨0, 0, 0⟩ : Ecc).flip bit

theorem Ecc.flip_eq_add (ecc : Ecc) (bit : Nat × Nat) : ecc.flip bit = ecc.add (.single bit) := by
  have hzero : ∀ x : BitVec 8, x ^^^ 0 = x := fun _ => BitVec.xor_zero
  have hleft : ∀ x : BitVec 8, 0 ^^^ x = x := fun _ => BitVec.zero_xor
  obtain ⟨byte, j⟩ := bit
  match byte with
  | 0 | 1 | _ + 2 => simp only [Ecc.flip, Ecc.single, Ecc.add, hzero, hleft]

theorem Ecc.parities_add (wrongOrder : Bool) (ecc ecc' : Ecc) :
    (ecc.add ecc').parities wrongOrder =
      (ecc.parities wrongOrder).add (ecc'.parities wrongOrder) := by
  have hcol : ((ecc.ecc2 ^^^ ecc'.ecc2) >>> 2).setWidth 6 =
      (ecc.ecc2 >>> 2).setWidth 6 ^^^ (ecc'.ecc2 >>> 2).setWidth 6 := by
    rw [BitVec.ushiftRight_xor_distrib, BitVec.setWidth_xor]
  have hupper : ∀ h h' l l' : BitVec 8, upper (h ^^^ h') ++ upper (l ^^^ l') =
      (upper h ++ upper l) ^^^ (upper h' ++ upper l') := by
    intro h h' l l'
    rw [upper_xor, upper_xor]
    exact append_xor ..
  have hlower : ∀ h h' l l' : BitVec 8, lower (h ^^^ h') ++ lower (l ^^^ l') =
      (lower h ++ lower l) ^^^ (lower h' ++ lower l') := by
    intro h h' l l'
    rw [lower_xor, lower_xor]
    exact append_xor ..
  cases wrongOrder with
  | false => exact LineParity.ext hcol (hupper ..) (hlower ..)
  | true => exact LineParity.ext hcol (hupper ..) (hlower ..)

/-- Single bits, one by one. -/
theorem single_spec : ∀ wrongOrder : Bool, ∀ byte : Fin 3, ∀ j : Fin 8,
    ¬ (byte.val = 2 ∧ j.val < 2) →
      (Ecc.single (byte, j)).parities wrongOrder = (pagePlace wrongOrder (byte, j)).syndrome 8 ∧
      (Ecc.single (byte, j)).ecc2 &&& 0x03 = 0 := by
  decide

theorem pagePlace_inj : ∀ wrongOrder : Bool, ∀ byte byte' : Fin 3, ∀ j j' : Fin 8,
    ¬ (byte.val = 2 ∧ j.val < 2) → ¬ (byte'.val = 2 ∧ j'.val < 2) →
      pagePlace wrongOrder (byte, j) = pagePlace wrongOrder (byte', j') →
      byte = byte' ∧ j = j' := by
  decide

/-- The view of a code of eight lines. -/
def pageView (wrongOrder : Bool) : View (pageCode wrongOrder) 8 where
  parities := Ecc.parities wrongOrder
  place := pagePlace wrongOrder
  Valid := Ecc.Valid
  bytes_le := Nat.le_refl 256
  place_inRange bit hbit := by
    obtain ⟨hbyte, hj, hused⟩ := hbit
    simp only [pagePlace]
    split_ifs <;> simp only [Place.InRange] <;> omega
  place_code bit := by
    simp only [pagePlace]
    split_ifs <;> rfl
  place_inj bit bit' hbit hbit' h := by
    obtain ⟨hbyte, hj⟩ := pagePlace_inj wrongOrder ⟨bit.1, hbit.1⟩ ⟨bit'.1, hbit'.1⟩
      ⟨bit.2, hbit.2.1⟩ ⟨bit'.2, hbit'.2.1⟩ hbit.2.2 hbit'.2.2 h
    exact Prod.ext (Fin.mk.inj hbyte) (Fin.mk.inj hj)
  valid_calculate data := by
    have hlast := (not_spec (sums 8 data 256).colParity).2.2.2
    cases wrongOrder with
    | false => exact hlast
    | true => exact hlast
  valid_flip ecc bit hbit hvalid := by
    obtain ⟨_, hclear⟩ := single_spec wrongOrder ⟨bit.1, hbit.1⟩ ⟨bit.2, hbit.2.1⟩ hbit.2.2
    have hand : ∀ x y m : BitVec 8, (x ^^^ y) &&& m = (x &&& m) ^^^ (y &&& m) := by
      intro x y m
      refine BitVec.eq_of_getLsbD_eq fun i _ => ?_
      simp only [BitVec.getLsbD_and, BitVec.getLsbD_xor]
      exact Bool.and_xor_distrib_right _ _ _
    show (ecc.flip bit).ecc2 &&& 0x03 = 0x03
    rw [Ecc.flip_eq_add]
    show (ecc.ecc2 ^^^ (Ecc.single bit).ecc2) &&& 0x03 = 0x03
    rw [hand, hvalid, hclear]
    rfl
  parities_flip ecc bit hbit := by
    show (ecc.flip bit).parities wrongOrder = _
    rw [Ecc.flip_eq_add, Ecc.parities_add,
      ← (single_spec wrongOrder ⟨bit.1, hbit.1⟩ ⟨bit.2, hbit.2.1⟩ hbit.2.2).1]
  parities_data data byte bit hbyte hbit := by
    show (packEcc wrongOrder (sums 8 (flipBit data byte bit) 256)).parities wrongOrder =
      LineParity.add ((packEcc wrongOrder (sums 8 data 256)).parities wrongOrder) _
    rw [sums_flipBit (show byte < 256 from hbyte) hbit, parities_packEcc, parities_packEcc]
    refine LineParity.ext ?_ BitVec.not_xor_left BitVec.not_xor_left
    show ~~~(((sums 8 data 256).colParity ^^^ columnParity (1#8 <<< bit)) >>> 2).setWidth 6 =
      ~~~((sums 8 data 256).colParity >>> 2).setWidth 6 ^^^ columns bit
    rw [BitVec.ushiftRight_xor_distrib, BitVec.setWidth_xor, (columnParity_single bit hbit).2,
      BitVec.not_xor_left]
  correct_eq data readEcc testEcc hread htest := eccCorrect_eq wrongOrder data hread htest

/-! ## Main result -/

/-- Both codes correct every changed bit and detect every two. -/
theorem yaffs_ecc_corrects (data : Nat → BitVec 8) :
    (∀ wrongOrder, Corrects (pageCode wrongOrder) data) ∧
      ∀ nBytes < 2 ^ 32, Corrects (otherCode nBytes) data :=
  ⟨fun wrongOrder => (pageView wrongOrder).corrects (by omega) rfl data,
    fun _ hn => (otherView hn).corrects (by omega) rfl data⟩

/-- The first byte of three is restored. -/
theorem yaffs_ecc_corrects_three :
    eccCorrectOther (flipBit (fun _ => 0xa5) 0 7) 3 (eccCalculateOther (fun _ => 0xa5) 3)
        (eccCalculateOther (flipBit (fun _ => 0xa5) 0 7) 3) =
      (1, fun _ => 0xa5, eccCalculateOther (fun _ => 0xa5) 3) :=
  ((yaffs_ecc_corrects fun _ => 0xa5).2 3 (by decide)).single (.data 0 7)
    ⟨by decide, by decide⟩

end AndroidKernel.YaffsEcc
