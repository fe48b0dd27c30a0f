import Mathlib.Data.Nat.Bitwise

/-!
# Line and column parities

A code for blocks of bytes: three pairs of column parities, the exclusive sum of the numbers of the
odd bytes, and the exclusive sum of their complements. `classify_single` and `classify_two` say what
the difference of two codes tells about one and about two changed bits.
-/

/-!
## Exclusive sums

The exclusive sum of the words of a sequence that a predicate selects, and what one changed word
does to it. `odd` is the parity of a word.
-/

namespace AndroidKernel.Library

variable {w : Nat}

/-- The exclusive sum of the selected words below `n`. -/
def xorSum (p : Nat → Bool) (f : Nat → BitVec w) : Nat → BitVec w
  | 0 => 0
  | n + 1 => if p n then xorSum p f n ^^^ f n else xorSum p f n

variable {p : Nat → Bool} {f g : Nat → BitVec w} {e : BitVec w} {n q : Nat}

theorem xorSum_congr (h : ∀ i < n, g i = f i) : xorSum p g n = xorSum p f n := by
  induction n with
  | zero => rfl
  | succ n ih =>
    rw [xorSum, xorSum, ih fun i hi => h i (Nat.lt_succ_of_lt hi), h n (Nat.lt_succ_self n)]

/-- A change of one word changes the sum in the same bits, if the word is selected. -/
theorem xorSum_of_change (hq : q < n) (hg : g q = f q ^^^ e) (hne : ∀ i ≠ q, g i = f i) :
    xorSum p g n = xorSum p f n ^^^ if p q then e else 0 := by
  induction n with
  | zero => exact absurd hq (Nat.not_lt_zero q)
  | succ n ih =>
    rw [xorSum, xorSum]
    by_cases hlast : q = n
    · subst hlast
      rw [xorSum_congr fun i hi => hne i (Nat.ne_of_lt hi), hg]
      split_ifs with hp
      · rw [BitVec.xor_assoc]
      · exact (BitVec.xor_zero).symm
    · rw [ih (by omega), hne n (Ne.symm hlast)]
      split_ifs with hp hq
      · ac_rfl
      · ac_rfl
      · rfl
      · rfl

/-- The parity of the bits below `n`. -/
def oddBelow (x : BitVec w) : Nat → Bool
  | 0 => false
  | n + 1 => oddBelow x n ^^ x.getLsbD n

/-- The parity of a word. -/
def odd (x : BitVec w) : Bool :=
  oddBelow x w

theorem oddBelow_xor (x y : BitVec w) (n : Nat) :
    oddBelow (x ^^^ y) n = (oddBelow x n ^^ oddBelow y n) := by
  induction n with
  | zero => rfl
  | succ n ih =>
    rw [oddBelow, oddBelow, oddBelow, ih, BitVec.getLsbD_xor]
    cases oddBelow x n <;> cases oddBelow y n <;> cases x.getLsbD n <;> cases y.getLsbD n <;> rfl

/-- Parity is additive. -/
theorem odd_xor (x y : BitVec w) : odd (x ^^^ y) = (odd x ^^ odd y) :=
  oddBelow_xor x y w

/-! ## Counted bits -/

section Count

variable {w : Nat}

theorem cpopNatRec_parity (x : BitVec w) (n : Nat) :
    x.cpopNatRec n 0 % 2 = (oddBelow x n).toNat := by
  induction n with
  | zero => rfl
  | succ n ih =>
    rw [BitVec.cpopNatRec_succ, BitVec.cpopNatRec_eq, Nat.add_mod, ih, oddBelow]
    cases oddBelow x n <;> cases x.getLsbD n <;> rfl

/-- Words of odd parity have an odd number of bits. -/
theorem toNat_cpop_parity (x : BitVec w) : x.cpop.toNat % 2 = (odd x).toNat := by
  rw [BitVec.toNat_cpop, cpopNatRec_parity]
  rfl

theorem getLsbD_one_shiftLeft {j : Nat} (hj : j < w) (i : Nat) :
    (1#w <<< j).getLsbD i = decide (i = j) := by
  rw [BitVec.getLsbD_shiftLeft, BitVec.getLsbD_one]
  by_cases hij : i = j
  · subst hij
    simp [hj, Nat.zero_lt_of_lt hj]
  · by_cases hlt : i < j
    · simp [hlt, hij]
    · have hsub : i - j ≠ 0 := by omega
      simp [hsub, hij]

theorem one_shiftLeft_ne_zero {j : Nat} (hj : j < w) : 1#w <<< j ≠ 0 := by
  intro hzero
  have hbit := getLsbD_one_shiftLeft hj j
  rw [hzero, decide_eq_true rfl] at hbit
  exact Bool.false_ne_true (BitVec.getLsbD_zero.symm.trans hbit)

theorem one_shiftLeft_inj {i j : Nat} (hi : i < w) (hj : j < w) (h : 1#w <<< i = 1#w <<< j) :
    i = j := by
  have hbit := getLsbD_one_shiftLeft hi i
  rw [h, getLsbD_one_shiftLeft hj, decide_eq_true (rfl : i = i)] at hbit
  exact of_decide_eq_true hbit

/-- A single bit counts one. -/
theorem toNat_cpop_single {j : Nat} (hj : j < w) : (1#w <<< j).cpop.toNat = 1 := by
  have hrec : ∀ n, (1#w <<< j).cpopNatRec n 0 = if j < n then 1 else 0 := by
    intro n
    induction n with
    | zero => rfl
    | succ n ih =>
      rw [BitVec.cpopNatRec_succ, BitVec.cpopNatRec_eq, ih, getLsbD_one_shiftLeft hj]
      by_cases hn : n = j
      · subst hn
        simp
      · have hlt : j < n ↔ j < n + 1 := by omega
        simp [hn, hlt]
  rw [BitVec.toNat_cpop, hrec, if_pos hj]

theorem odd_single {j : Nat} (hj : j < w) : odd (1#w <<< j) = true := by
  have hparity := toNat_cpop_parity (1#w <<< j)
  rw [toNat_cpop_single hj] at hparity
  cases hodd : odd (1#w <<< j) with
  | true => rfl
  | false =>
    rw [hodd] at hparity
    exact absurd hparity (by decide)

/-- A word of an even number of bits and its complement have the same parity. -/
theorem odd_not (hw : w % 2 = 0) (x : BitVec w) : odd (~~~x) = odd x := by
  have hcpop := BitVec.toNat_cpop_not (x := x)
  have hle := BitVec.toNat_cpop_le x
  have hx := toNat_cpop_parity x
  have hnot := toNat_cpop_parity (~~~x)
  rw [hcpop] at hnot
  cases hodd : odd x <;> cases hodd' : odd (~~~x) <;>
    simp only [hodd, hodd', Bool.toNat_true, Bool.toNat_false] at hx hnot <;> first | rfl | omega

theorem odd_zero : odd (0#w) = false := by
  have hself := odd_xor (0#w) (0#w)
  rw [BitVec.xor_self, Bool.xor_self] at hself
  exact hself

end Count

/-! ## Codes -/

/-- The parities of a block, or the difference of those of two blocks. -/
@[ext]
structure LineParity (w : Nat) where
  col : BitVec 6
  line : BitVec w
  prime : BitVec w
  deriving DecidableEq

/-- What the difference of two codes says. -/
inductive Verdict (w : Nat)
  | clean
  | data (byte : BitVec w) (bit : Nat)
  | code
  | failed

/-- A bit of a block, or of its code. -/
inductive Place
  | data (byte bit : Nat)
  | col (bit : Nat)
  | line (bit : Nat)
  | prime (bit : Nat)
  deriving DecidableEq

/-- Each pair of column parities has one bit. -/
def halfSet (col : BitVec 6) : Bool :=
  (col ^^^ (col >>> 1)) &&& 0x15 == 0x15

/-- The bit that the column parities name. -/
def bitOf (col : BitVec 6) : Nat :=
  4 * (col.getLsbD 5).toNat + 2 * (col.getLsbD 3).toNat + (col.getLsbD 1).toNat

/-- The column parities of a bit. -/
def columns (j : Nat) : BitVec 6 :=
  BitVec.ofBool (j.testBit 2) ++ BitVec.ofBool (!j.testBit 2) ++ BitVec.ofBool (j.testBit 1) ++
    BitVec.ofBool (!j.testBit 1) ++ BitVec.ofBool (j.testBit 0) ++ BitVec.ofBool (!j.testBit 0)

namespace LineParity

variable {w : Nat}

/-- The exclusive sum. -/
def add (s s' : LineParity w) : LineParity w :=
  ⟨s.col ^^^ s'.col, s.line ^^^ s'.line, s.prime ^^^ s'.prime⟩

/-- The number of bits. -/
def count (s : LineParity w) : Nat :=
  s.line.cpop.toNat + s.prime.cpop.toNat + s.col.cpop.toNat

/-- The parity of all bits. -/
def total (s : LineParity w) : Bool :=
  odd s.line ^^ odd s.prime ^^ odd s.col

/-- A data bit has complementary parities, a bit of the code is a single bit. -/
def classify (s : LineParity w) : Verdict w :=
  if s = ⟨0, 0, 0⟩ then .clean
  else if s.line = ~~~s.prime ∧ halfSet s.col then .data s.line (bitOf s.col)
  else if s.count = 1 then .code
  else .failed

theorem add_comm (s s' : LineParity w) : s.add s' = s'.add s :=
  LineParity.ext (BitVec.xor_comm ..) (BitVec.xor_comm ..) (BitVec.xor_comm ..)

theorem add_assoc (s s' s'' : LineParity w) : (s.add s').add s'' = s.add (s'.add s'') :=
  LineParity.ext (BitVec.xor_assoc ..) (BitVec.xor_assoc ..) (BitVec.xor_assoc ..)

theorem add_self (s : LineParity w) : s.add s = ⟨0, 0, 0⟩ :=
  LineParity.ext BitVec.xor_self BitVec.xor_self BitVec.xor_self

theorem zero_add (s : LineParity w) : add ⟨0, 0, 0⟩ s = s :=
  LineParity.ext BitVec.zero_xor BitVec.zero_xor BitVec.zero_xor

theorem eq_of_add_eq_zero {s s' : LineParity w} (h : s.add s' = ⟨0, 0, 0⟩) : s = s' := by
  obtain ⟨hcol, hline, hprime⟩ := LineParity.mk.inj h
  exact LineParity.ext (BitVec.xor_eq_zero_iff.mp hcol) (BitVec.xor_eq_zero_iff.mp hline)
    (BitVec.xor_eq_zero_iff.mp hprime)

theorem total_add (s s' : LineParity w) : (s.add s').total = (s.total ^^ s'.total) := by
  rw [total, total, total, add, odd_xor, odd_xor, odd_xor]
  simp only [Bool.xor_assoc, Bool.xor_left_comm]

theorem count_parity (s : LineParity w) : s.count % 2 = s.total.toNat := by
  have hline := toNat_cpop_parity s.line
  have hprime := toNat_cpop_parity s.prime
  have hcol := toNat_cpop_parity s.col
  rw [count, Nat.add_mod, Nat.add_mod s.line.cpop.toNat, hline, hprime, hcol, total]
  cases odd s.line <;> cases odd s.prime <;> cases odd s.col <;> rfl

end LineParity

/-! ## Places -/

namespace Place

variable {w : Nat} {p q : Place}

/-- The place is in a code of `w` lines. -/
def InRange (w : Nat) : Place → Prop
  | data byte bit => byte < 2 ^ w ∧ bit < 8
  | col bit => bit < 6
  | line bit | prime bit => bit < w

/-- What a changed bit changes in the difference of the codes. -/
def syndrome (w : Nat) : Place → LineParity w
  | data byte bit => ⟨columns bit, BitVec.ofNat w byte, ~~~BitVec.ofNat w byte⟩
  | col bit => ⟨1#6 <<< bit, 0, 0⟩
  | line bit => ⟨0, 1#w <<< bit, 0⟩
  | prime bit => ⟨0, 0, 1#w <<< bit⟩

/-- The verdict on a single changed bit. -/
def verdict (w : Nat) : Place → Verdict w
  | data byte bit => .data (BitVec.ofNat w byte) bit
  | _ => .code

theorem columns_spec : ∀ j < 8, halfSet (columns j) = true ∧ bitOf (columns j) = j ∧
    odd (columns j) = true ∧ columns j ≠ 0 := by
  decide

theorem columns_inj {i j : Nat} (hi : i < 8) (hj : j < 8) (h : columns i = columns j) : i = j := by
  have hbit := (columns_spec i hi).2.1
  rw [h, (columns_spec j hj).2.1] at hbit
  exact hbit.symm

/-- One pair of the column parities of a data bit is spoilt. -/
theorem halfSet_columns_single : ∀ j < 8, ∀ b < 6, halfSet (columns j ^^^ 1#6 <<< b) = false := by
  decide

/-- Two bits are too few for three pairs. -/
theorem halfSet_two : ∀ a < 6, ∀ b < 6, halfSet (1#6 <<< a ^^^ 1#6 <<< b) = false := by
  decide

theorem halfSet_one : ∀ a < 6, halfSet (1#6 <<< a) = false := by
  decide

theorem halfSet_zero : halfSet 0 = false :=
  rfl

theorem ne_not_self (hw : 0 < w) (x : BitVec w) : x ≠ ~~~x := by
  intro heq
  have hbit := congrArg (fun y => BitVec.getLsbD y 0) heq
  simp only [BitVec.getLsbD_not, hw, decide_true, Bool.true_and] at hbit
  cases hx : x.getLsbD 0 <;> rw [hx] at hbit <;> exact Bool.noConfusion hbit

/-- A single bit changes an odd number of bits of the difference. -/
theorem total_syndrome (hw : w % 2 = 0) (hp : p.InRange w) : (p.syndrome w).total = true := by
  cases p with
  | data byte bit =>
    obtain ⟨_, _, hodd, _⟩ := columns_spec bit hp.2
    show (odd (BitVec.ofNat w byte) ^^ odd (~~~BitVec.ofNat w byte) ^^ odd (columns bit)) = true
    rw [odd_not hw, Bool.xor_self, hodd]
    rfl
  | col bit =>
    show (odd (0#w) ^^ odd (0#w) ^^ odd (1#6 <<< bit)) = true
    rw [Bool.xor_self, odd_single hp]
    rfl
  | line bit =>
    show (odd (1#w <<< bit) ^^ odd (0#w) ^^ odd (0#6)) = true
    rw [odd_single hp, odd_zero, odd_zero]
    rfl
  | prime bit =>
    show (odd (0#w) ^^ odd (1#w <<< bit) ^^ odd (0#6)) = true
    rw [odd_single hp, odd_zero, odd_zero]
    rfl

/-! ## Verdicts -/

theorem classify_zero : LineParity.classify (⟨0, 0, 0⟩ : LineParity w) = .clean :=
  if_pos rfl

/-- One changed bit is named. -/
theorem classify_single (hw : 0 < w) (hp : p.InRange w) :
    (p.syndrome w).classify = p.verdict w := by
  cases p with
  | data byte bit =>
    obtain ⟨hhalf, hbit, _, hne⟩ := columns_spec bit hp.2
    have hdiffers : (data byte bit).syndrome w ≠ ⟨0, 0, 0⟩ :=
      fun hzero => hne (LineParity.mk.inj hzero).1
    have hdata : BitVec.ofNat w byte = ~~~(~~~BitVec.ofNat w byte) ∧ halfSet (columns bit) :=
      ⟨BitVec.not_not.symm, hhalf⟩
    rw [LineParity.classify, if_neg hdiffers]
    exact (if_pos hdata).trans (congrArg _ hbit)
  | col bit =>
    have hdiffers : (col bit).syndrome w ≠ ⟨0, 0, 0⟩ :=
      fun hzero => one_shiftLeft_ne_zero hp (LineParity.mk.inj hzero).1
    have hcount : ((col bit).syndrome w).count = 1 := by
      show (0#w).cpop.toNat + (0#w).cpop.toNat + (1#6 <<< bit).cpop.toNat = 1
      rw [BitVec.cpop_zero, toNat_cpop_single hp]
      rfl
    rw [LineParity.classify, if_neg hdiffers, if_neg fun h => ne_not_self hw _ h.1, if_pos hcount]
    rfl
  | line bit =>
    have hdiffers : (line bit).syndrome w ≠ ⟨0, 0, 0⟩ :=
      fun hzero => one_shiftLeft_ne_zero hp (LineParity.mk.inj hzero).2.1
    have hcount : ((line bit).syndrome w).count = 1 := by
      show (1#w <<< bit).cpop.toNat + (0#w).cpop.toNat + (0#6).cpop.toNat = 1
      rw [BitVec.cpop_zero, BitVec.cpop_zero, toNat_cpop_single hp]
      rfl
    rw [LineParity.classify, if_neg hdiffers,
      if_neg fun h => Bool.false_ne_true (halfSet_zero.symm.trans h.2), if_pos hcount]
    rfl
  | prime bit =>
    have hdiffers : (prime bit).syndrome w ≠ ⟨0, 0, 0⟩ :=
      fun hzero => one_shiftLeft_ne_zero hp (LineParity.mk.inj hzero).2.2
    have hcount : ((prime bit).syndrome w).count = 1 := by
      show (0#w).cpop.toNat + (1#w <<< bit).cpop.toNat + (0#6).cpop.toNat = 1
      rw [BitVec.cpop_zero, BitVec.cpop_zero, toNat_cpop_single hp]
      rfl
    rw [LineParity.classify, if_neg hdiffers,
      if_neg fun h => Bool.false_ne_true (halfSet_zero.symm.trans h.2), if_pos hcount]
    rfl

theorem ofNat_inj {i j : Nat} (hi : i < 2 ^ w) (hj : j < 2 ^ w)
    (h : BitVec.ofNat w i = BitVec.ofNat w j) : i = j := by
  have hnat := congrArg BitVec.toNat h
  rwa [BitVec.toNat_ofNat, BitVec.toNat_ofNat, Nat.mod_eq_of_lt hi, Nat.mod_eq_of_lt hj] at hnat

/-- A data bit does not look like a bit of the code. -/
theorem syndrome_data_ne (hw : 0 < w) {byte bit : Nat} (hbit : bit < 8)
    (hq : q.verdict w = .code) : (data byte bit).syndrome w ≠ q.syndrome w := by
  intro heq
  obtain ⟨_, _, _, hne⟩ := columns_spec bit hbit
  obtain ⟨hcol, hline, hprime⟩ := LineParity.mk.inj heq
  cases q with
  | data byte' bit' => exact nomatch hq
  | col b => exact ne_not_self hw _ (hline.trans hprime.symm)
  | line b => exact hne hcol
  | prime b => exact hne hcol

/-- Different bits make different differences. -/
theorem syndrome_inj (hw : 0 < w) (hp : p.InRange w) (hq : q.InRange w)
    (h : p.syndrome w = q.syndrome w) : p = q := by
  have hne : ∀ {j}, j < w → (1#w <<< j) ≠ 0 := one_shiftLeft_ne_zero
  cases p with
  | data byte bit =>
    cases q with
    | data byte' bit' =>
      obtain ⟨hcol, hline, _⟩ := LineParity.mk.inj h
      rw [ofNat_inj hp.1 hq.1 hline, columns_inj hp.2 hq.2 hcol]
    | col b | line b | prime b => exact absurd h (syndrome_data_ne hw hp.2 rfl)
  | col a =>
    cases q with
    | data byte' bit' => exact absurd h.symm (syndrome_data_ne hw hq.2 rfl)
    | col b => rw [one_shiftLeft_inj hp hq (LineParity.mk.inj h).1]
    | line b => exact absurd (LineParity.mk.inj h).2.1.symm (hne hq)
    | prime b => exact absurd (LineParity.mk.inj h).2.2.symm (hne hq)
  | line a =>
    cases q with
    | data byte' bit' => exact absurd h.symm (syndrome_data_ne hw hq.2 rfl)
    | line b => rw [one_shiftLeft_inj hp hq (LineParity.mk.inj h).2.1]
    | col b | prime b => exact absurd (LineParity.mk.inj h).2.1 (hne hp)
  | prime a =>
    cases q with
    | data byte' bit' => exact absurd h.symm (syndrome_data_ne hw hq.2 rfl)
    | prime b => rw [one_shiftLeft_inj hp hq (LineParity.mk.inj h).2.2]
    | col b | line b => exact absurd (LineParity.mk.inj h).2.2 (hne hp)

/-- The difference is not that of a data bit. -/
def NotData (s : LineParity w) : Prop :=
  ¬ (s.line = ~~~s.prime ∧ halfSet s.col)

theorem eq_zero_of_xor_eq_self {x e : BitVec w} (h : x ^^^ e = x) : e = 0 := by
  have hxor := congrArg (x ^^^ ·) h
  simp only [← BitVec.xor_assoc, BitVec.xor_self, BitVec.zero_xor] at hxor
  exact hxor

/-- A data bit and a bit of the code. -/
theorem notData_data_code {byte bit : Nat} (hbit : bit < 8) (hq : q.InRange w)
    (hcode : q.verdict w = .code) :
    NotData (((data byte bit).syndrome w).add (q.syndrome w)) := by
  intro hdata
  cases q with
  | data byte' bit' => exact nomatch hcode
  | col b => exact Bool.false_ne_true ((halfSet_columns_single bit hbit b hq).symm.trans hdata.2)
  | line b =>
    have hline : BitVec.ofNat w byte ^^^ 1#w <<< b = ~~~(~~~BitVec.ofNat w byte ^^^ 0#w) := hdata.1
    rw [BitVec.xor_zero, BitVec.not_not] at hline
    exact one_shiftLeft_ne_zero hq (eq_zero_of_xor_eq_self hline)
  | prime b =>
    have hline : BitVec.ofNat w byte ^^^ 0#w = ~~~(~~~BitVec.ofNat w byte ^^^ 1#w <<< b) := hdata.1
    rw [BitVec.xor_zero, BitVec.not_xor_left, BitVec.not_not] at hline
    exact one_shiftLeft_ne_zero hq (eq_zero_of_xor_eq_self hline.symm)

/-- Two bits of the code. -/
theorem notData_code_code (hp : p.InRange w) (hq : q.InRange w) (hpcode : p.verdict w = .code)
    (hqcode : q.verdict w = .code) : NotData ((p.syndrome w).add (q.syndrome w)) := by
  intro hdata
  have hcol : ∀ r : Place, r.InRange w → r.verdict w = .code →
      (r.syndrome w).col = 0#6 ∨ ∃ b < 6, (r.syndrome w).col = 1#6 <<< b := by
    intro r hr hcode
    cases r with
    | data byte bit => exact nomatch hcode
    | col b => exact .inr ⟨b, hr, rfl⟩
    | line b | prime b => exact .inl rfl
  have hhalf : halfSet ((p.syndrome w).col ^^^ (q.syndrome w).col) = true := hdata.2
  rcases hcol p hp hpcode with hp0 | ⟨a, ha, hpa⟩ <;> rcases hcol q hq hqcode with hq0 | ⟨b, hb, hqb⟩
  · rw [hp0, hq0] at hhalf
    exact Bool.false_ne_true hhalf
  · rw [hp0, hqb, BitVec.zero_xor, halfSet_one b hb] at hhalf
    exact Bool.false_ne_true hhalf
  · rw [hpa, hq0, BitVec.xor_zero, halfSet_one a ha] at hhalf
    exact Bool.false_ne_true hhalf
  · rw [hpa, hqb, halfSet_two a ha b hb] at hhalf
    exact Bool.false_ne_true hhalf

theorem notData_two (hw : 0 < w) (hp : p.InRange w) (hq : q.InRange w) :
    NotData ((p.syndrome w).add (q.syndrome w)) := by
  have hkind : ∀ r : Place, (∃ byte bit, r = data byte bit) ∨ r.verdict w = .code := by
    intro r
    cases r with
    | data byte bit => exact .inl ⟨byte, bit, rfl⟩
    | col b | line b | prime b => exact .inr rfl
  rcases hkind p with ⟨byte, bit, rfl⟩ | hpcode <;> rcases hkind q with ⟨byte', bit', rfl⟩ | hqcode
  · -- two data bits leave the lines equal to their complements
    rintro ⟨hline, _⟩
    have hprime : ~~~BitVec.ofNat w byte ^^^ ~~~BitVec.ofNat w byte' =
        BitVec.ofNat w byte ^^^ BitVec.ofNat w byte' := by
      rw [← BitVec.not_xor_left, ← BitVec.not_xor_right, BitVec.not_not]
    have hline' : BitVec.ofNat w byte ^^^ BitVec.ofNat w byte' =
        ~~~(~~~BitVec.ofNat w byte ^^^ ~~~BitVec.ofNat w byte') := hline
    rw [hprime] at hline'
    exact ne_not_self hw _ hline'
  · exact notData_data_code hp.2 hq hqcode
  · rw [LineParity.add_comm]
    exact notData_data_code hq.2 hp hpcode
  · exact notData_code_code hp hq hpcode hqcode

/-- Two changed bits are detected. -/
theorem classify_two (hw : 0 < w) (heven : w % 2 = 0) (hp : p.InRange w) (hq : q.InRange w)
    (hne : p ≠ q) : ((p.syndrome w).add (q.syndrome w)).classify = .failed := by
  have hdiffers : (p.syndrome w).add (q.syndrome w) ≠ ⟨0, 0, 0⟩ :=
    fun hzero => hne (syndrome_inj hw hp hq (LineParity.eq_of_add_eq_zero hzero))
  have hcount : ((p.syndrome w).add (q.syndrome w)).count ≠ 1 := by
    intro hone
    have hparity := ((p.syndrome w).add (q.syndrome w)).count_parity
    rw [hone, LineParity.total_add, total_syndrome heven hp, total_syndrome heven hq] at hparity
    exact absurd hparity (by decide)
  rw [LineParity.classify, if_neg hdiffers, if_neg (notData_two hw hp hq), if_neg hcount]

end Place

end AndroidKernel.Library
