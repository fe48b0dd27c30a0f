import AndroidKernel.Crc32.Model
import AndroidKernel.Library.ShiftRegister

/-!
# The generated tables

Entry `k` of a table is eight steps from the byte `k`. A round of a generator adds the entry of one
power of two to the entries that are there already.
-/

namespace AndroidKernel.Crc32

open Library

/-! ## Steps -/

/-- A test against a mask with one bit. -/
theorem and_twoPow_ne_zero {i : Nat} (hi : i < 32) (x : U32) :
    (x &&& BitVec.twoPow 32 i ≠ 0#32) ↔ x.getLsbD i = true := by
  have hmask : BitVec.twoPow 32 i ≠ 0#32 := by
    intro h
    have hbit := congrArg (fun y => BitVec.getLsbD y i) h
    simp [hi] at hbit
  rw [BitVec.and_twoPow]
  cases x.getLsbD i <;> simp [hmask]

theorem stepLe_eq (x : U32) :
    stepLe x = x >>> 1 ^^^ if x.getLsbD 0 then crcpolyLe else 0 :=
  congrArg (x >>> 1 ^^^ ·) (if_congr (and_twoPow_ne_zero (i := 0) (by omega) x) rfl rfl)

theorem stepBe_eq (x : U32) :
    stepBe x = x <<< 1 ^^^ if x.getMsbD 0 then crcpolyBe else 0 :=
  congrArg (x <<< 1 ^^^ ·) (if_congr (and_twoPow_ne_zero (i := 31) (by omega) x) rfl rfl)

theorem stepLe_linear : XorLinear stepLe := by
  have hshift : XorLinear fun x : U32 => x >>> 1 := fun x y => BitVec.ushiftRight_xor_distrib x y 1
  rw [funext stepLe_eq]
  exact hshift.feedback crcpolyLe fun x y => BitVec.getLsbD_xor

theorem stepBe_linear : XorLinear stepBe := by
  have hshift : XorLinear fun x : U32 => x <<< 1 := fun x y => BitVec.shiftLeft_xor_distrib x y 1
  rw [funext stepBe_eq]
  exact hshift.feedback crcpolyBe fun x y => BitVec.getMsbD_xor

theorem stepLe_of_even (x : U32) (h : x.getLsbD 0 = false) : stepLe x = x >>> 1 := by
  rw [stepLe_eq, h]
  exact BitVec.xor_zero

theorem stepBe_of_low (x : U32) (h : x.getMsbD 0 = false) : stepBe x = x <<< 1 := by
  rw [stepBe_eq, h]
  exact BitVec.xor_zero

/-! ## What the entries are -/

/-- Entry `k` of the little-endian table. -/
def valueLe (k : Nat) : U32 :=
  stepLe^[8] (BitVec.ofNat 32 k)

/-- Entry `k` of the big-endian table. -/
def valueBe (k : Nat) : U32 :=
  stepBe^[8] (BitVec.ofNat 32 k <<< 24)

theorem valueLe_add {a n : Nat} (ha : a < 2 ^ n) (q : Nat) :
    valueLe (2 ^ n * q + a) = valueLe (2 ^ n * q) ^^^ valueLe a := by
  unfold valueLe
  rw [ofNat_two_pow_mul_add ha, stepLe_linear.iterate]

theorem valueBe_add {a n : Nat} (ha : a < 2 ^ n) (q : Nat) :
    valueBe (2 ^ n * q + a) = valueBe (2 ^ n * q) ^^^ valueBe a := by
  unfold valueBe
  rw [ofNat_two_pow_mul_add ha, BitVec.shiftLeft_xor_distrib, stepBe_linear.iterate]

@[simp] theorem valueLe_zero : valueLe 0 = 0#32 :=
  (stepLe_linear.iterate 8).zero

@[simp] theorem valueBe_zero : valueBe 0 = 0#32 :=
  (stepBe_linear.iterate 8).zero

/-- The first steps bring the bit of a power of two down to bit 0. -/
theorem valueLe_two_pow {m : Nat} (hm : m < 8) : valueLe (2 ^ m) = stepLe^[8 - m] 1#32 := by
  have hdown : stepLe^[m] (BitVec.ofNat 32 (2 ^ m)) = 1#32 := by
    interval_cases m <;> rfl
  unfold valueLe
  rw [← hdown, ← Function.iterate_add_apply, Nat.sub_add_cancel (Nat.le_of_lt hm)]

/-- The first steps bring the bit of a power of two up to bit 31. -/
theorem valueBe_two_pow {m : Nat} (hm : m < 8) :
    valueBe (2 ^ m) = stepBe^[m + 1] 0x80000000#32 := by
  have hup : stepBe^[7 - m] (BitVec.ofNat 32 (2 ^ m) <<< 24) = 0x80000000#32 := by
    interval_cases m <;> rfl
  unfold valueBe
  rw [← hup, ← Function.iterate_add_apply, show m + 1 + (7 - m) = 8 by omega]

/-! ## The loops -/

theorem entry_store {tab : Table} {k j : Nat} (hj : j < 256) (x : U32) :
    (tab.store k x).entry j = if j = k then x else tab.entry j := by
  unfold Table.store Table.entry Vector.getD
  by_cases h : j = k
  · subst h
    simp [hj]
  · simp [hj, h, Ne.symm h]

theorem entry_emptyTable : emptyTable.entry 0 = 0#32 := by
  rw [emptyTable, entry_store (by omega), if_pos rfl]

theorem entry_map {g : U32 → U32} {tab : Table} {k : Nat} (hk : k < 256) :
    Table.entry (tab.map g) k = g (tab.entry k) := by
  unfold Table.entry Vector.getD
  simp [hk]

/-- The inner loop of the little-endian generator goes through the odd multiples of `2 ^ m`. -/
theorem fillLe_entry {m q : Nat} {tab : Table}
    (hold : ∀ r, 2 ^ m * (2 * r) < 256 → tab.entry (2 ^ m * (2 * r)) = valueLe (2 ^ m * (2 * r)))
    (hdone : ∀ r < 2 * q, 2 ^ m * r < 256 → tab.entry (2 ^ m * r) = valueLe (2 ^ m * r))
    (r : Nat) (hr : 2 ^ m * r < 256) :
    (fillLe (valueLe (2 ^ m)) (2 ^ m) tab (2 ^ m * (2 * q))).entry (2 ^ m * r) =
      valueLe (2 ^ m * r) := by
  have hpos : 0 < 2 ^ m := Nat.two_pow_pos m
  induction hleft : 256 - 2 ^ m * (2 * q) using Nat.strong_induction_on generalizing q tab with
  | _ left ih =>
    rw [fillLe]
    split
    · rename_i hin
      have hnext : 2 ^ m * (2 * q) + 2 * 2 ^ m = 2 ^ m * (2 * (q + 1)) := by ring
      have hodd : 2 ^ m + 2 ^ m * (2 * q) = 2 ^ m * (2 * q + 1) := by ring
      have hnew : valueLe (2 ^ m) ^^^ tab.entry (2 ^ m * (2 * q)) =
          valueLe (2 ^ m * (2 * q + 1)) := by
        have hlow : 2 ^ m < 2 ^ (m + 1) := Nat.pow_lt_pow_right Nat.one_lt_two (Nat.lt_succ_self m)
        have hsum := valueLe_add hlow q
        rw [show 2 ^ (m + 1) * q = 2 ^ m * (2 * q) by ring] at hsum
        rw [hold q hin.1, Nat.mul_add_one, hsum, BitVec.xor_comm]
      rw [hnext, hodd, hnew]
      refine ih _ ?_ ?_ ?_ rfl
      · omega
      · intro r hr
        rw [entry_store hr, if_neg, hold r hr]
        intro h
        have := Nat.eq_of_mul_eq_mul_left hpos h
        omega
      intro r hlt hr
      rw [entry_store hr]
      split
      · rename_i h
        rw [h]
      · rename_i h
        rcases Nat.lt_or_ge r (2 * q) with hr' | hr'
        · exact hdone r hr' hr
        · obtain rfl : r = 2 * q := by
            have : r ≠ 2 * q + 1 := fun e => h (e ▸ rfl)
            omega
          exact hold q hr
    · rename_i hout
      refine hdone r ?_ hr
      refine Nat.lt_of_mul_lt_mul_left (a := 2 ^ m) ?_
      omega

/-- A round of the little-endian generator. -/
theorem fillLe_round {m : Nat} {tab : Table}
    (hold : ∀ r, 2 ^ (m + 1) * r < 256 → tab.entry (2 ^ (m + 1) * r) = valueLe (2 ^ (m + 1) * r))
    (r : Nat) (hr : 2 ^ m * r < 256) :
    (fillLe (valueLe (2 ^ m)) (2 ^ m) tab 0).entry (2 ^ m * r) = valueLe (2 ^ m * r) := by
  have heven : ∀ r, 2 ^ m * (2 * r) = 2 ^ (m + 1) * r := fun r => by ring
  refine fillLe_entry (q := 0) (fun r hr => ?_) (fun r hlt => absurd hlt (Nat.not_lt_zero r)) r hr
  rw [heven] at hr ⊢
  exact hold r hr

theorem stepLe_iterate {m : Nat} (hm : m < 8) : stepLe (stepLe^[7 - m] 1#32) = valueLe (2 ^ m) := by
  rw [valueLe_two_pow hm, ← Function.iterate_succ_apply' stepLe,
    show (7 - m).succ = 8 - m by omega]

theorem roundsLe_entry {m : Nat} {tab : Table} (hm : m < 8)
    (hold : ∀ r, 2 ^ (m + 1) * r < 256 → tab.entry (2 ^ (m + 1) * r) = valueLe (2 ^ (m + 1) * r))
    (k : Nat) (hk : k < 256) :
    (roundsLe (2 ^ m) (stepLe^[7 - m] 1#32) tab).entry k = valueLe k := by
  induction m generalizing tab with
  | zero =>
    have hround := fillLe_round hold k
    rw [pow_zero, Nat.one_mul] at hround
    rw [pow_zero, roundsLe, if_pos Nat.one_pos, roundsLe, if_neg (show ¬0 < 1 / 2 by decide),
      stepLe_iterate hm]
    exact hround hk
  | succ m ih =>
    have hhalf : 2 ^ (m + 1) / 2 = 2 ^ m := by omega
    have hnext : stepLe^[7 - m] 1#32 = valueLe (2 ^ (m + 1)) := by
      rw [valueLe_two_pow hm, show 8 - (m + 1) = 7 - m by omega]
    rw [roundsLe, if_pos (Nat.two_pow_pos _), hhalf, stepLe_iterate hm, ← hnext]
    refine ih (Nat.lt_of_succ_lt hm) ?_
    rw [hnext]
    exact fillLe_round hold

theorem crc32initLe_entry {k : Nat} (hk : k < 256) : crc32initLe.entry k = valueLe k := by
  have hold : ∀ r, 2 ^ (7 + 1) * r < 256 →
      emptyTable.entry (2 ^ (7 + 1) * r) = valueLe (2 ^ (7 + 1) * r) := by
    intro r hr
    obtain rfl : r = 0 := by omega
    rw [Nat.mul_zero, valueLe_zero, entry_emptyTable]
  have hrounds := roundsLe_entry (by omega) hold k hk
  rwa [show 2 ^ 7 = 128 from rfl, Nat.sub_self, Function.iterate_zero_apply] at hrounds

/-- The inner loop of the big-endian generator doubles what is filled in. -/
theorem fillBe_entry {m j : Nat} {tab : Table} (hj : j ≤ 2 ^ m)
    (hdone : ∀ k < 2 ^ m + j, k < 256 → tab.entry k = valueBe k)
    (k : Nat) (hlt : k < 2 ^ (m + 1)) (hk : k < 256) :
    (fillBe (valueBe (2 ^ m)) (2 ^ m) tab j).entry k = valueBe k := by
  induction hleft : 2 ^ m - j generalizing j tab with
  | zero =>
    rw [fillBe, if_neg (by omega)]
    exact hdone k (by omega) hk
  | succ left ih =>
    have hlt' : j < 2 ^ m := by omega
    rw [fillBe, if_pos hlt']
    refine ih (by omega) (fun k hlt hk => ?_) (by omega)
    rw [entry_store hk]
    split
    · rename_i h
      have hsum := valueBe_add hlt' 1
      rw [Nat.mul_one] at hsum
      rw [h, hsum, hdone j (by omega) (by omega)]
    · exact hdone k (by omega) hk

theorem stepBe_iterate {m : Nat} (hm : m < 8) :
    stepBe (stepBe^[m] 0x80000000#32) = valueBe (2 ^ m) := by
  rw [valueBe_two_pow hm, ← Function.iterate_succ_apply' stepBe]

theorem roundsBe_entry {m : Nat} {tab : Table} (hm : m ≤ 8)
    (hdone : ∀ k < 2 ^ m, k < 256 → tab.entry k = valueBe k) (k : Nat) (hk : k < 256) :
    (roundsBe (2 ^ m) (stepBe^[m] 0x80000000#32) tab).entry k = valueBe k := by
  induction hleft : 8 - m generalizing m tab with
  | zero =>
    obtain rfl : m = 8 := by omega
    rw [roundsBe, if_neg fun h => Nat.lt_irrefl _ h.2]
    exact hdone k hk hk
  | succ left ih =>
    have hm' : m < 8 := by omega
    have hin : 2 ^ m < 256 := Nat.pow_lt_pow_right Nat.one_lt_two hm'
    have hdouble : 2 * 2 ^ m = 2 ^ (m + 1) := by ring
    have hnext : stepBe^[m + 1] 0x80000000#32 = valueBe (2 ^ m) := (valueBe_two_pow hm').symm
    rw [roundsBe, if_pos ⟨Nat.two_pow_pos m, hin⟩, hdouble, stepBe_iterate hm', ← hnext]
    refine ih (by omega) (fun k hlt hk => ?_) (by omega)
    rw [hnext]
    exact fillBe_entry (Nat.zero_le _) hdone k hlt hk

theorem crc32initBe_entry {k : Nat} (hk : k < 256) : crc32initBe.entry k = valueBe k := by
  have hdone : ∀ k < 2 ^ 0, k < 256 → emptyTable.entry k = valueBe k := by
    intro k hlt _
    obtain rfl : k = 0 := by omega
    rw [valueBe_zero, entry_emptyTable]
  exact roundsBe_entry (by omega) hdone k hk

end AndroidKernel.Crc32
