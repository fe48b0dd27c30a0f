import Mathlib.Algebra.Order.Floor.Div
import Mathlib.Data.Nat.ModEq

/-!
# Rows of a circular table

Numbers are grouped into rows of `2 ^ s`, and row `q` goes into slot `q % 2 ^ n`. The rows that are
not before a number `x` begin with `nextRow s x`. As long as all rows in use are among the next
`2 ^ n`, the slots from that of the next row on hold them in order.
-/

namespace AndroidKernel.Library

variable {s n x q j : Nat}

/-- The first row that begins at `x` or later. -/
def nextRow (s x : Nat) : Nat :=
  x ⌈/⌉ 2 ^ s

theorem nextRow_le_iff : nextRow s x ≤ q ↔ x ≤ q * 2 ^ s := by
  unfold nextRow
  rw [ceilDiv_le_iff_le_mul (Nat.two_pow_pos s), Nat.mul_comm]

theorem le_nextRow_mul (s x : Nat) : x ≤ nextRow s x * 2 ^ s :=
  nextRow_le_iff.mp le_rfl

theorem lt_nextRow_iff : q < nextRow s x ↔ q * 2 ^ s < x := by
  rw [← not_le, ← not_le, nextRow_le_iff]

/-- The next row of rows. -/
theorem nextRow_add (s n x : Nat) : nextRow (s + n) x = nextRow n (nextRow s x) := by
  refine eq_of_forall_ge_iff fun q => ?_
  rw [nextRow_le_iff, nextRow_le_iff, nextRow_le_iff, Nat.mul_assoc, ← Nat.pow_add, Nat.add_comm]

theorem nextRow_of_dvd (hdvd : 2 ^ s ∣ x) : nextRow s x = x / 2 ^ s := by
  obtain ⟨q, rfl⟩ := hdvd
  rw [Nat.mul_div_cancel_left _ (Nat.two_pow_pos s)]
  refine eq_of_forall_ge_iff fun r => ?_
  rw [nextRow_le_iff, Nat.mul_comm r, Nat.mul_le_mul_left_iff (Nat.two_pow_pos s)]

theorem nextRow_zero (x : Nat) : nextRow 0 x = x := by
  rw [nextRow_of_dvd (one_dvd x), Nat.pow_zero, Nat.div_one]

/-- What is missing to the next multiple. -/
theorem add_sub_mod (s x : Nat) : x + (2 ^ s - x % 2 ^ s) = 2 ^ s * (x / 2 ^ s + 1) := by
  have hsplit := Nat.div_add_mod x (2 ^ s)
  have hmod := Nat.mod_lt x (Nat.two_pow_pos s)
  rw [Nat.mul_succ]
  omega

/-- Rounding up by what is missing to the next row. -/
theorem nextRow_eq (s x : Nat) :
    nextRow s x = (if x % 2 ^ s ≠ 0 then x + (2 ^ s - x % 2 ^ s) else x) / 2 ^ s := by
  have hpos := Nat.two_pow_pos s
  by_cases hzero : x % 2 ^ s = 0
  · rw [if_neg (not_not.mpr hzero)]
    exact nextRow_of_dvd (Nat.dvd_of_mod_eq_zero hzero)
  rw [if_pos hzero, add_sub_mod, Nat.mul_div_cancel_left _ hpos]
  refine eq_of_forall_ge_iff fun r => ?_
  rw [nextRow_le_iff, Nat.succ_le_iff, Nat.div_lt_iff_lt_mul hpos]
  constructor
  · intro hle
    refine lt_of_le_of_ne hle fun heq => hzero ?_
    rw [heq, Nat.mul_mod_left]
  · exact le_of_lt

theorem nextRow_mul (hx : x % 2 ^ s ≠ 0) : nextRow s x * 2 ^ s = x + (2 ^ s - x % 2 ^ s) := by
  rw [nextRow_eq, if_pos hx, add_sub_mod, Nat.mul_div_cancel_left _ (Nat.two_pow_pos s), Nat.mul_comm]

/-- A row that begins less than one turn after `x` is one of the next `2 ^ n`. -/
theorem lt_nextRow_add (hlt : q * 2 ^ s < x + 2 ^ (s + n)) : q < nextRow s x + 2 ^ n := by
  by_contra hge
  have hle : nextRow s x ≤ q - 2 ^ n := by omega
  rw [nextRow_le_iff, Nat.sub_mul, ← Nat.pow_add, Nat.add_comm n] at hle
  have hturn : 2 ^ (s + n) ≤ q * 2 ^ s := by
    rw [Nat.add_comm, Nat.pow_add]
    exact Nat.mul_le_mul_right _ (by omega)
  omega

/-- Within one turn a slot stands for one row. -/
theorem eq_of_mod_eq (hle : x ≤ q) (hlt : q < x + 2 ^ n) (hj : j < 2 ^ n)
    (hslot : q % 2 ^ n = (x + j) % 2 ^ n) : q = x + j := by
  obtain ⟨i, rfl⟩ := Nat.exists_eq_add_of_le hle
  have hi : i < 2 ^ n := by omega
  have hmod : i % 2 ^ n = j % 2 ^ n := Nat.ModEq.add_left_cancel' x hslot
  rw [Nat.mod_eq_of_lt hi, Nat.mod_eq_of_lt hj] at hmod
  rw [hmod]

/-- The slots are numbered from 0 again where a turn of the next level begins. -/
theorem add_lt_nextRow (hj : j < 2 ^ n) (hslot : x % 2 ^ n ≤ (x + j) % 2 ^ n) (hx : x % 2 ^ n ≠ 0) :
    x + j < nextRow n x * 2 ^ n := by
  have hpos := Nat.two_pow_pos n
  have hsplit := Nat.div_add_mod x (2 ^ n)
  have hmod := Nat.mod_lt x hpos
  have hrow : x / 2 ^ n + 1 ≤ nextRow n x := by
    rw [Nat.succ_le_iff, lt_nextRow_iff, Nat.mul_comm]
    omega
  have hend : (x / 2 ^ n + 1) * 2 ^ n ≤ nextRow n x * 2 ^ n := Nat.mul_le_mul_right _ hrow
  rw [Nat.succ_mul, Nat.mul_comm] at hend
  by_contra hge
  -- the slot would be below that of `x`
  have hover : (x + j) % 2 ^ n = x % 2 ^ n + j - 2 ^ n := by
    rw [← Nat.mod_add_mod, Nat.mod_eq_sub_mod (by omega), Nat.mod_eq_of_lt (by omega)]
  omega

end AndroidKernel.Library
