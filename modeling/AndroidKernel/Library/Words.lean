import Mathlib.Data.Nat.Bitwise

/-!
# 32-bit words and pages

Unsigned machine words are natural numbers below `word`, with wrapping addition and
subtraction. `signedDiff` is the C idiom `(long)(a - b)`. `int` wraps. Pages are 4096 bytes.
-/

namespace AndroidKernel.Library

/-- The number of values of an unsigned 32-bit word. -/
def word : Nat := 2 ^ 32

/-- Wrapping addition of unsigned words. -/
def wadd (a b : Nat) : Nat := (a + b) % word

/-- Wrapping subtraction of unsigned words. -/
def wsub (a b : Nat) : Nat := (a + (word - b % word)) % word

/-- `(long)(a - b)`: the wrapped difference read as a two's complement number. -/
def signedDiff (a b : Nat) : Int :=
  if wsub a b < 2 ^ 31 then (wsub a b : Int) else (wsub a b : Int) - 2 ^ 32

/-- `PAGE_SIZE`. -/
def pageSize : Nat := 4096

/-- `addr & PAGE_MASK`: round down to a page boundary. -/
def pageMask (addr : Nat) : Nat := addr / pageSize * pageSize

/-- `PAGE_ALIGN(addr)`: round up to a page boundary, wrapping at the top of the address space. -/
def pageAlign (addr : Nat) : Nat := pageMask (wadd addr (pageSize - 1))

/-- A wrapped sum that does not overflow is the sum. -/
theorem wadd_eq {a b : Nat} (h : a + b < word) : wadd a b = a + b :=
  Nat.mod_eq_of_lt h

/-- A wrapped difference that does not borrow is the difference. -/
theorem wsub_eq {a b : Nat} (hle : b ≤ a) (ha : a < word) : wsub a b = a - b := by
  simp only [wsub, word] at *
  omega

/-- Every wrapped sum is a word. -/
theorem wadd_lt (a b : Nat) : wadd a b < word :=
  Nat.mod_lt _ (by simp [word])

/-- Every wrapped difference is a word. -/
theorem wsub_lt (a b : Nat) : wsub a b < word :=
  Nat.mod_lt _ (by simp [word])

/-- Signed differences of words are exact for numbers less than 2^31 apart. -/
theorem signedDiff_eq {a b : Nat} (hab : a < b + 2 ^ 31) (hba : b < a + 2 ^ 31) :
    signedDiff (a % word) (b % word) = (a : Int) - b := by
  simp only [signedDiff, wsub, word]
  split_ifs <;> omega

/-- A page boundary is a multiple of the page size. -/
theorem pageMask_mod (addr : Nat) : pageMask addr % pageSize = 0 := by
  simp [pageMask]

/-- Rounding up gives a multiple of the page size. -/
theorem pageAlign_mod (addr : Nat) : pageAlign addr % pageSize = 0 :=
  pageMask_mod _

/-- Rounding up gives a word. -/
theorem pageAlign_lt (addr : Nat) : pageAlign addr < word := by
  have h := wadd_lt addr (pageSize - 1)
  simp only [pageAlign, pageMask, pageSize, word] at *
  omega

/-- The page with this number contains a byte of the interval. -/
def MeetsPage (page lo hi : Nat) : Prop :=
  ∃ byte, lo ≤ byte ∧ byte < hi ∧ byte / pageSize = page

/-- The pages a non-empty interval meets run from the page of its first byte to the last one
that starts before its end. -/
theorem meetsPage_iff {page lo hi : Nat} (h : lo < hi) :
    MeetsPage page lo hi ↔ lo / pageSize ≤ page ∧ page * pageSize < hi := by
  simp only [MeetsPage, pageSize]
  constructor
  · intro hmeets
    obtain ⟨byte, hlo, hhi, hpage⟩ := hmeets
    omega
  · intro hrange
    refine ⟨max lo (page * 4096), ?_⟩
    omega

/-- Conversion to an `int`. -/
def int (x : Int) : Int :=
  x.bmod (2 ^ 32)

theorem int_eq {x : Int} (hlo : -2 ^ 31 ≤ x) (hhi : x < 2 ^ 31) : int x = x := by
  refine Int.bmod_eq_of_le ?_ ?_
  · omega
  · omega

/-- What is left of a number in an `int`. -/
theorem int_cases (x : Int) : int x = x % 2 ^ 32 ∧ x % 2 ^ 32 < 2 ^ 31 ∨
    int x = x % 2 ^ 32 - 2 ^ 32 ∧ 2 ^ 31 ≤ x % 2 ^ 32 := by
  unfold int
  rw [Int.bmod_def]
  split
  · exact .inl ⟨rfl, by omega⟩
  · exact .inr ⟨rfl, by omega⟩

theorem int_lt (x : Int) : int x < 2 ^ 31 := by
  rcases int_cases x with h | h
  · omega
  · omega

/-!
## Rounding up to a power of two in machine words

`align` is the usual mask expression on words of `width` bits. It is the least multiple that is
not below its argument where there is one, and it wraps to 0 above the last multiple.
-/

/-- `(x + (a - 1)) & ~(a - 1)` on words of `width` bits. -/
def align (width x a : Nat) : Nat :=
  (x + (a - 1)) % 2 ^ width &&& (2 ^ width - 1 - (a - 1))

variable {width k x y : Nat}

/-- The mask clears the low bits of a word. -/
theorem and_mask_eq (hk : k ≤ width) (hx : x < 2 ^ width) :
    x &&& (2 ^ width - 1 - (2 ^ k - 1)) = x / 2 ^ k * 2 ^ k := by
  have hmask : 2 ^ width - 1 - (2 ^ k - 1) = 2 ^ k * (2 ^ (width - k) - 1) := by
    rw [Nat.mul_sub_one, ← pow_add, Nat.add_sub_cancel' hk]
    have := Nat.two_pow_pos k
    omega
  apply Nat.eq_of_testBit_eq
  intro i
  rw [hmask, Nat.mul_comm _ (2 ^ k), Nat.testBit_and, Nat.testBit_two_pow_mul,
    Nat.testBit_two_pow_mul, Nat.testBit_div_two_pow, Nat.testBit_two_pow_sub_one]
  by_cases hi : k ≤ i
  · by_cases hlow : i < width
    · simp [hi, show i - k < width - k by omega]
    · -- above the word both sides are clear
      have hzero : x.testBit i = false :=
        Nat.testBit_lt_two_pow (hx.trans_le (Nat.pow_le_pow_right (by decide) (by omega)))
      simp [hi, hzero]
  · simp [hi]

/-- Rounding as a division. -/
theorem align_eq (hk : k ≤ width) :
    align width x (2 ^ k) = (x + (2 ^ k - 1)) % 2 ^ width / 2 ^ k * 2 ^ k :=
  and_mask_eq hk (Nat.mod_lt _ (Nat.two_pow_pos width))

theorem align_dvd (hk : k ≤ width) : 2 ^ k ∣ align width x (2 ^ k) := by
  rw [align_eq hk]
  exact Nat.dvd_mul_left _ _

/-- Below the last multiple the result is not below the argument. -/
theorem le_align (hk : k ≤ width) (h : x + 2 ^ k ≤ 2 ^ width) : x ≤ align width x (2 ^ k) := by
  have hpos := Nat.two_pow_pos k
  rw [align_eq hk, Nat.mod_eq_of_lt (by omega)]
  have hdiv := Nat.div_add_mod (x + (2 ^ k - 1)) (2 ^ k)
  have hmod := Nat.mod_lt (x + (2 ^ k - 1)) hpos
  rw [Nat.mul_comm] at hdiv
  omega

/-- The result is the least of the multiples from the argument on. -/
theorem align_le (hk : k ≤ width) (hdvd : 2 ^ k ∣ y) (hle : x ≤ y) :
    align width x (2 ^ k) ≤ y := by
  obtain ⟨n, rfl⟩ := hdvd
  have hpos := Nat.two_pow_pos k
  rw [align_eq hk, Nat.mul_comm (2 ^ k) n]
  apply Nat.mul_le_mul_right
  apply Nat.le_of_lt_succ
  rw [Nat.div_lt_iff_lt_mul hpos]
  have hmod : (x + (2 ^ k - 1)) % 2 ^ width ≤ x + (2 ^ k - 1) := Nat.mod_le _ _
  rw [Nat.mul_comm] at hle
  calc (x + (2 ^ k - 1)) % 2 ^ width ≤ n * 2 ^ k + (2 ^ k - 1) := by omega
    _ < n.succ * 2 ^ k := by
      rw [Nat.succ_mul]
      omega

/-- Above the last multiple the sum wraps, and the result is 0. -/
theorem align_eq_zero (hk : k ≤ width) (hx : x < 2 ^ width) (h : 2 ^ width < x + 2 ^ k) :
    align width x (2 ^ k) = 0 := by
  have hpos := Nat.two_pow_pos k
  have hpow : 2 ^ k ≤ 2 ^ width := Nat.pow_le_pow_right (by decide) hk
  rw [align_eq hk, Nat.mod_eq_sub_mod (by omega), Nat.mod_eq_of_lt (by omega),
    Nat.div_eq_of_lt (by omega), Nat.zero_mul]

/-- A multiple that is a word leaves room for one more step. -/
theorem add_le_of_dvd (hk : k ≤ width) (hdvd : 2 ^ k ∣ y) (hy : y < 2 ^ width) :
    y + 2 ^ k ≤ 2 ^ width := by
  obtain ⟨n, rfl⟩ := hdvd
  rw [← Nat.add_sub_cancel' hk, pow_add] at hy ⊢
  have hn : n + 1 ≤ 2 ^ (width - k) := Nat.lt_of_mul_lt_mul_left hy
  calc 2 ^ k * n + 2 ^ k = 2 ^ k * (n + 1) := rfl
    _ ≤ 2 ^ k * 2 ^ (width - k) := Nat.mul_le_mul_left _ hn

end AndroidKernel.Library
