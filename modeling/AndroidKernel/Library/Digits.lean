import Mathlib.Data.Nat.Digits.Lemmas

/-!
# Digits of an index

The digits of a number in base `2 ^ w`, least significant first, as the levels of a radix tree
use them: below a level, two numbers that agree in the digits seen so far are not told apart.
-/

namespace AndroidKernel.Library

/-- Digit `h` of `i` in base `2 ^ w`. -/
def digit (w h i : Nat) : Nat :=
  i / 2 ^ (w * h) % 2 ^ w

theorem digit_lt (w h i : Nat) : digit w h i < 2 ^ w :=
  Nat.mod_lt _ (Nat.two_pow_pos w)

/-- One more digit. -/
theorem mod_succ (w h i : Nat) :
    i % 2 ^ (w * (h + 1)) = i % 2 ^ (w * h) + 2 ^ (w * h) * digit w h i := by
  rw [Nat.mul_succ, Nat.pow_add, Nat.mod_mul]
  rfl

/-- Two numbers agree in `h + 1` digits if they agree in `h` digits and the next. -/
theorem mod_succ_inj {w h i j : Nat} :
    i % 2 ^ (w * (h + 1)) = j % 2 ^ (w * (h + 1)) ↔
      digit w h i = digit w h j ∧ i % 2 ^ (w * h) = j % 2 ^ (w * h) := by
  constructor
  · intro heq
    have hdvd : 2 ^ (w * h) ∣ 2 ^ (w * (h + 1)) := Nat.pow_dvd_pow 2 (Nat.mul_le_mul_left w (by omega))
    have hlow : i % 2 ^ (w * h) = j % 2 ^ (w * h) := by
      rw [← Nat.mod_mod_of_dvd i hdvd, heq, Nat.mod_mod_of_dvd j hdvd]
    rw [mod_succ, mod_succ, hlow] at heq
    exact ⟨Nat.eq_of_mul_eq_mul_left (Nat.two_pow_pos _) (Nat.add_left_cancel heq), hlow⟩
  · rintro ⟨hdigit, hlow⟩
    rw [mod_succ, mod_succ, hdigit, hlow]

/-- A number with a given digit above given low digits. -/
theorem digit_add {w h i d : Nat} (hi : i < 2 ^ (w * h)) (hd : d < 2 ^ w) :
    digit w h (i + 2 ^ (w * h) * d) = d := by
  unfold digit
  rw [Nat.add_mul_div_left _ _ (Nat.two_pow_pos _), Nat.div_eq_of_lt hi, Nat.zero_add,
    Nat.mod_eq_of_lt hd]

theorem digit_eq_zero {w h i : Nat} (hi : i < 2 ^ (w * h)) : digit w h i = 0 := by
  unfold digit
  rw [Nat.div_eq_of_lt hi, Nat.zero_mod]

/-- A number of `h + 1` digits with the last one zero. -/
theorem lt_of_digit_eq_zero {w h i : Nat} (hi : i < 2 ^ (w * (h + 1))) (hd : digit w h i = 0) :
    i < 2 ^ (w * h) := by
  have hmod := mod_succ w h i
  rw [hd, Nat.mul_zero, Nat.add_zero, Nat.mod_eq_of_lt hi] at hmod
  rw [hmod]
  exact Nat.mod_lt _ (Nat.two_pow_pos _)

/-- A number cut above a digit, and with it. -/
theorem div_eq_add_digit (w h i : Nat) :
    i / 2 ^ (w * h) = i / 2 ^ (w * (h + 1)) * 2 ^ w + digit w h i := by
  unfold digit
  rw [Nat.mul_succ, Nat.pow_add, ← Nat.div_div_eq_div_mul, Nat.div_add_mod']

/-- Numbers that agree above a digit and in it. -/
theorem div_eq_iff {w h i j : Nat} : i / 2 ^ (w * h) = j / 2 ^ (w * h) ↔
    i / 2 ^ (w * (h + 1)) = j / 2 ^ (w * (h + 1)) ∧ digit w h i = digit w h j := by
  constructor
  · intro heq
    have hhigh : i / 2 ^ (w * (h + 1)) = j / 2 ^ (w * (h + 1)) := by
      rw [Nat.mul_succ, Nat.pow_add, ← Nat.div_div_eq_div_mul, ← Nat.div_div_eq_div_mul, heq]
    exact ⟨hhigh, by rw [digit, digit, heq]⟩
  · rintro ⟨hhigh, hdigit⟩
    rw [div_eq_add_digit w h i, div_eq_add_digit w h j, hhigh, hdigit]

/-- Indices that agree above a level share all digits above it. -/
theorem div_eq_of_div_eq {w h k i j : Nat} (hle : h ≤ k)
    (heq : j / 2 ^ (w * h) = i / 2 ^ (w * h)) : j / 2 ^ (w * k) = i / 2 ^ (w * k) := by
  have hsplit : 2 ^ (w * k) = 2 ^ (w * h) * 2 ^ (w * (k - h)) := by
    rw [← Nat.pow_add, ← Nat.mul_add]
    congr 2
    omega
  rw [hsplit, ← Nat.div_div_eq_div_mul, ← Nat.div_div_eq_div_mul, heq]

/-!
## Numerals

The digits of a number in a base, the most significant one first, as they are written and read.
`numeralValue` is the value of digits that are read after a number.
-/

/-!
## Character classes

The functions of `lib/ctype.c` on bytes. The upper half of the table is Latin-1.
-/

/-- A `char` or `u8`. -/
abbrev Byte := BitVec 8

def ch (c : Char) : Byte :=
  BitVec.ofNat 8 c.toNat

def isdigit (c : Byte) : Bool :=
  decide (48 ≤ c.toNat ∧ c.toNat ≤ 57)

def isxdigit (c : Byte) : Bool :=
  isdigit c || decide (65 ≤ c.toNat ∧ c.toNat ≤ 70) || decide (97 ≤ c.toNat ∧ c.toNat ≤ 102)

def isspace (c : Byte) : Bool :=
  decide (9 ≤ c.toNat ∧ c.toNat ≤ 13 ∨ c.toNat = 32 ∨ c.toNat = 160)

def islower (c : Byte) : Bool :=
  decide (97 ≤ c.toNat ∧ c.toNat ≤ 122 ∨ 223 ≤ c.toNat ∧ c.toNat ≠ 247)

def isupper (c : Byte) : Bool :=
  decide (65 ≤ c.toNat ∧ c.toNat ≤ 90 ∨ 192 ≤ c.toNat ∧ c.toNat ≤ 222 ∧ c.toNat ≠ 215)

def toupper (c : Byte) : Byte :=
  if islower c then c - 32#8 else c

def tolower (c : Byte) : Byte :=
  if isupper c then c + 32#8 else c

/-- `TOLOWER`, which is for digits and letters only. -/
def lower (c : Byte) : Byte :=
  c ||| 0x20#8

/-- The digits of a number. Zero has one, too. -/
def numeral (base n : Nat) : List Nat :=
  if n = 0 then [0] else (Nat.digits base n).reverse

/-- The number that `v` and the digits after it make. -/
def numeralValue (base : Nat) (v : Nat) (ds : List Nat) : Nat :=
  ds.foldl (fun v d => v * base + d) v

variable {base n k v d : Nat} {ds : List Nat}

@[simp] theorem numeralValue_nil : numeralValue base v [] = v :=
  rfl

@[simp] theorem numeralValue_cons : numeralValue base v (d :: ds) = numeralValue base (v * base + d) ds :=
  rfl

theorem le_numeralValue (hbase : 1 ≤ base) : v ≤ numeralValue base v ds := by
  induction ds generalizing v with
  | nil => exact Nat.le_refl v
  | cons d ds ih =>
    have hmul : v * 1 ≤ v * base := Nat.mul_le_mul_left v hbase
    exact Nat.le_trans (by omega) (@ih (v * base + d))

theorem numeral_ne_nil : numeral base n ≠ [] := by
  unfold numeral
  split
  · exact List.cons_ne_nil _ _
  · next h => exact fun hnil => h (Nat.digits_eq_nil_iff_eq_zero.mp (List.reverse_eq_nil_iff.mp hnil))

theorem lt_of_mem_numeral (hbase : 1 < base) (h : d ∈ numeral base n) : d < base := by
  unfold numeral at h
  split at h
  · rw [List.mem_singleton.mp h]
    omega
  · exact Nat.digits_lt_base hbase (List.mem_reverse.mp h)

/-- A numeral is read as the number. -/
theorem numeralValue_numeral : numeralValue base 0 (numeral base n) = n := by
  unfold numeral
  split
  · next h => rw [h, numeralValue_cons, Nat.zero_mul, numeralValue_nil]
  · have hcomm : (fun (d v : Nat) => v * base + d) = fun d v => d + base * v := by
      funext d v
      rw [Nat.mul_comm, Nat.add_comm]
    rw [numeralValue, List.foldl_reverse, hcomm]
    exact (Nat.ofDigits_eq_foldr base _).symm.trans (Nat.ofDigits_digits base n)

/-- Zeros before the digits do not count. -/
theorem numeralValue_replicate (k : Nat) : numeralValue base 0 (List.replicate k 0 ++ ds) = numeralValue base 0 ds := by
  induction k with
  | zero => rfl
  | succ k ih => rw [List.replicate_succ, List.cons_append, numeralValue_cons, Nat.zero_mul, ih]

end AndroidKernel.Library
