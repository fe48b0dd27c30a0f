import Mathlib.Data.Nat.Bitwise
import AndroidKernel.Library.Bitmap

/-!
# Bitmaps of words

The bitmaps of `lib/bitmap.c` are arrays of `unsigned long`s of `w` bits each. The unused bits of
the last word are 'don't care'. `number` is the number that the bits below the size make.
-/

namespace AndroidKernel.Bitmaps

open Library

variable {w : Nat}

/-- `BITS_TO_LONGS`. -/
def bitsToLongs (w bits : Nat) : Nat :=
  (bits + w - 1) / w

/-- `(1UL << left) - 1`: the low `left` bits. -/
def lowMask (w left : Nat) : BitVec w :=
  (1#w <<< left) - 1#w

/-- The number that the low `bits` bits of a bitmap make. -/
def number (map : Nat → BitVec w) (bits : Nat) : Nat :=
  Nat.ofBits fun i : Fin bits => bitAt map i

theorem getLsbD_lowMask {left j : Nat} (hleft : left < w) (hj : j < w) :
    (lowMask w left).getLsbD j = decide (j < left) := by
  have hone : (1#w <<< left).toNat = 2 ^ left := by
    rw [BitVec.toNat_shiftLeft, BitVec.toNat_ofNat, Nat.shiftLeft_eq,
      Nat.mod_eq_of_lt (Nat.one_lt_two_pow (by omega)), Nat.one_mul,
      Nat.mod_eq_of_lt (Nat.pow_lt_pow_right Nat.one_lt_two hleft)]
  have hpos := Nat.two_pow_pos left
  have hlt := Nat.pow_lt_pow_right Nat.one_lt_two hleft
  have hmask : (lowMask w left).toNat = 2 ^ left - 1 := by
    rw [lowMask, BitVec.toNat_sub, hone, BitVec.toNat_ofNat,
      Nat.mod_eq_of_lt (Nat.one_lt_two_pow (by omega : w ≠ 0))]
    have hsum : 2 ^ w - 1 + 2 ^ left = 2 ^ w + (2 ^ left - 1) := by omega
    rw [hsum, Nat.add_mod_left, Nat.mod_eq_of_lt (by omega)]
  rw [← BitVec.testBit_toNat, hmask, Nat.testBit_two_pow_sub_one]

theorem testBit_number (map : Nat → BitVec w) (bits i : Nat) :
    (number map bits).testBit i = (decide (i < bits) && bitAt map i) := by
  by_cases h : i < bits
  · rw [number, Nat.testBit_ofBits_lt _ i h, decide_eq_true h, Bool.true_and]
  · rw [number, Nat.testBit_ofBits_ge _ i (Nat.not_lt.mp h), decide_eq_false h, Bool.false_and]

/-- A bit is a bit of the word that its number divided by the word size gives. -/
theorem bitAt_mul_add (map : Nat → BitVec w) (k : Nat) {j : Nat} (hj : j < w) :
    bitAt map (k * w + j) = (map k).getLsbD j := by
  rw [bitAt, Nat.mul_comm, Nat.mul_add_div (by omega), Nat.mul_add_mod, Nat.div_eq_of_lt hj,
    Nat.mod_eq_of_lt hj, Nat.add_zero]

/-- The last word is used in part, or all words in full. -/
theorem bitsToLongs_eq (hw : 0 < w) (bits : Nat) :
    bitsToLongs w bits = if bits % w = 0 then bits / w else bits / w + 1 := by
  have hdiv := Nat.div_add_mod bits w
  unfold bitsToLongs
  by_cases h : bits % w = 0
  · rw [if_pos h]
    have hsum : bits + w - 1 = w * (bits / w) + (w - 1) := by omega
    rw [hsum, Nat.mul_add_div hw, Nat.div_eq_of_lt (Nat.sub_lt hw Nat.one_pos), Nat.add_zero]
  · rw [if_neg h]
    have hmod := Nat.mod_lt bits hw
    have hsum : bits + w - 1 = w * (bits / w + 1) + (bits % w - 1) := by
      rw [Nat.mul_add, Nat.mul_one]
      omega
    have hlt : bits % w - 1 < w := by omega
    rw [hsum, Nat.mul_add_div hw, Nat.div_eq_of_lt hlt, Nat.add_zero]

theorem bits_le (hw : 0 < w) (bits : Nat) : bits ≤ bitsToLongs w bits * w := by
  have hdiv := Nat.div_add_mod' bits w
  have hmod := Nat.mod_lt bits hw
  rw [bitsToLongs_eq hw]
  split
  · omega
  · rw [Nat.succ_mul]
    omega

/-- `if (left && k == lim - 1) word &= mask`: the unused bits of the last word masked out. -/
def maskLast (bits k : Nat) (word : BitVec w) : BitVec w :=
  if bits % w ≠ 0 ∧ k = bitsToLongs w bits - 1 then word &&& lowMask w (bits % w) else word

theorem mul_le_bits (hw : 0 < w) {bits k : Nat} (hk : k < bitsToLongs w bits)
    (hlast : ¬(bits % w ≠ 0 ∧ k = bitsToLongs w bits - 1)) : k * w + w ≤ bits := by
  rw [bitsToLongs_eq hw] at hk hlast
  have hle : k + 1 ≤ bits / w := by
    split at hk
    · exact hk
    · next h =>
        rw [if_neg h] at hlast
        omega
  have hmul := Nat.mul_le_mul_right w hle
  rw [Nat.succ_mul] at hmul
  exact Nat.le_trans hmul (Nat.div_mul_le_self bits w)

/-- What is left of a word are the bits below the size. -/
theorem getLsbD_maskLast (word : BitVec w) {bits k j : Nat} (hk : k < bitsToLongs w bits)
    (hj : j < w) :
    (maskLast bits k word).getLsbD j = (decide (k * w + j < bits) && word.getLsbD j) := by
  have hw : 0 < w := by omega
  unfold maskLast
  by_cases hlast : bits % w ≠ 0 ∧ k = bitsToLongs w bits - 1
  · rw [if_pos hlast, BitVec.getLsbD_and, getLsbD_lowMask (Nat.mod_lt _ hw) hj, Bool.and_comm]
    obtain ⟨hleft, hlast⟩ := hlast
    rw [bitsToLongs_eq hw, if_neg hleft, Nat.add_sub_cancel] at hlast
    have hdiv := Nat.div_add_mod' bits w
    rw [← hlast] at hdiv
    have hiff : j < bits % w ↔ k * w + j < bits := by omega
    simp only [hiff]
  · have hle := mul_le_bits hw hk hlast
    rw [if_neg hlast, decide_eq_true (by omega), Bool.true_and]

/-!
## Shifting a bitmap

`__bitmap_shift_right` and `__bitmap_shift_left` go through the words of the destination in an
order that lets it be the source, too. The main theorem, `bitmap_shift_spec`, says that they shift
the number that the bits make, whatever the unused bits of the source are.
-/

variable {w : Nat}

/-- What the source array holds when the destination is `dst`: the same, if they are one array. -/
def source (same : Bool) (dst src : Nat → BitVec w) : Nat → BitVec w :=
  if same then dst else src

/-- The word that the right shift stores at `k`. With `rem = 0` the upper part is a zero, shifted
by a whole word. -/
def shiftRightWord (shift bits : Nat) (src : Nat → BitVec w) (k : Nat) : BitVec w :=
  let lim := bitsToLongs w bits
  let off := shift / w
  let rem := shift % w
  let upper :=
    if rem = 0 ∨ lim ≤ off + k + 1 then 0 else maskLast bits (off + k + 1) (src (off + k + 1))
  let lower := maskLast bits (off + k) (src (off + k))
  maskLast bits k (upper <<< (w - rem) ||| lower >>> rem)

/-- `__bitmap_shift_right`. -/
def bitmapShiftRight (same : Bool) (dst src : Nat → BitVec w) (shift bits : Nat) :
    Nat → BitVec w :=
  let lim := bitsToLongs w bits
  let off := shift / w
  let dst := (List.range (lim - off)).foldl
    (fun dst k => Function.update dst k (shiftRightWord shift bits (source same dst src) k)) dst
  fun k => if lim - off ≤ k ∧ k < lim - off + off then 0 else dst k

/-- The word that the left shift stores at `k + off`. -/
def shiftLeftWord (shift bits : Nat) (src : Nat → BitVec w) (k : Nat) : BitVec w :=
  let off := shift / w
  let rem := shift % w
  let lower := if rem ≠ 0 ∧ 0 < k then src (k - 1) else 0
  let upper := maskLast bits k (src k)
  maskLast bits (k + off) (lower >>> (w - rem) ||| upper <<< rem)

/-- `__bitmap_shift_left`, from the last word down. -/
def bitmapShiftLeft (same : Bool) (dst src : Nat → BitVec w) (shift bits : Nat) :
    Nat → BitVec w :=
  let lim := bitsToLongs w bits
  let off := shift / w
  let dst := (List.range (lim - off)).foldr
    (fun k (dst : Nat → BitVec w) =>
      Function.update dst (k + off) (shiftLeftWord shift bits (source same dst src) k)) dst
  fun k => if k < off then 0 else dst k

variable {same : Bool} {dst src : Nat → BitVec w} {shift bits k j : Nat}

/-- A word of the right shift depends on the source words from its place on. -/
theorem shiftRightWord_congr {src' : Nat → BitVec w} (h : ∀ m, k ≤ m → src' m = src m) :
    shiftRightWord shift bits src' k = shiftRightWord shift bits src k := by
  unfold shiftRightWord
  dsimp only
  rw [h _ (Nat.le_add_left k _), h _ (Nat.le_succ_of_le (Nat.le_add_left k _))]

/-- A word of the left shift depends on the source words up to its place. -/
theorem shiftLeftWord_congr {src' : Nat → BitVec w} (h : ∀ m, m ≤ k → src' m = src m) :
    shiftLeftWord shift bits src' k = shiftLeftWord shift bits src k := by
  unfold shiftLeftWord
  dsimp only
  rw [h k (Nat.le_refl k), h (k - 1) (Nat.sub_le k 1)]

theorem source_congr {dst' : Nat → BitVec w} (h : dst' k = dst k) :
    source same dst' src k = source same dst src k := by
  unfold source
  cases same with
  | false => rfl
  | true => exact h

/-- The loop of the right shift, after `n` rounds. -/
theorem shiftRight_loop (same : Bool) (dst src : Nat → BitVec w) (shift bits n : Nat) :
    (List.range n).foldl
      (fun dst k => Function.update dst k (shiftRightWord shift bits (source same dst src) k)) dst =
      fun k => if k < n then shiftRightWord shift bits (source same dst src) k else dst k := by
  induction n with
  | zero =>
    funext k
    rw [if_neg (Nat.not_lt_zero k)]
    rfl
  | succ n ih =>
    rw [List.range_succ, List.foldl_append, ih, List.foldl_cons, List.foldl_nil]
    funext k
    rcases Nat.lt_trichotomy k n with hlt | rfl | hgt
    · rw [Function.update_of_ne (Nat.ne_of_lt hlt), if_pos hlt, if_pos (Nat.lt_succ_of_lt hlt)]
    · rw [Function.update_self, if_pos (Nat.lt_succ_self k)]
      -- the words read in this round have not been stored yet
      refine shiftRightWord_congr fun m hm => source_congr ?_
      exact if_neg (Nat.not_lt.mpr hm)
    · rw [Function.update_of_ne (Nat.ne_of_gt hgt), if_neg (Nat.not_lt_of_gt hgt),
        if_neg (by omega)]

/-- The loop of the left shift, in the round that stores at `n + off` and all before it. -/
theorem shiftLeft_loop (same : Bool) (dst src : Nat → BitVec w) (shift bits off lim n : Nat)
    (hn : n ≤ lim) :
    ((List.range lim).drop n).foldr (fun k (dst : Nat → BitVec w) =>
        Function.update dst (k + off) (shiftLeftWord shift bits (source same dst src) k)) dst =
      fun k => if n + off ≤ k ∧ k < lim + off then
        shiftLeftWord shift bits (source same dst src) (k - off) else dst k := by
  induction hm : lim - n generalizing n with
  | zero =>
    rw [List.drop_eq_nil_of_le (by rw [List.length_range]; omega)]
    funext k
    rw [if_neg (by omega)]
    rfl
  | succ m ih =>
    have hlt : n < (List.range lim).length := by
      rw [List.length_range]
      omega
    rw [List.drop_eq_getElem_cons hlt, List.getElem_range, List.foldr_cons,
      ih (n + 1) (by omega) (by omega)]
    funext k
    by_cases hk : k = n + off
    · rw [hk, Function.update_self, if_pos (by omega), Nat.add_sub_cancel]
      -- the words read in this round have not been stored yet
      refine shiftLeftWord_congr fun i hi => source_congr ?_
      exact if_neg (by omega)
    · rw [Function.update_of_ne hk]
      have hiff : n + 1 + off ≤ k ∧ k < lim + off ↔
          n + off ≤ k ∧ k < lim + off := by
        omega
      simp only [hiff]

/-! ## Bits -/

/-- The bits of a word of the right shift. -/
theorem getLsbD_shiftRightWord (hk : shift / w + k < bitsToLongs w bits) (hj : j < w) :
    (shiftRightWord shift bits src k).getLsbD j =
      (decide (k * w + j + shift < bits) && bitAt src (k * w + j + shift)) := by
  have hw : 0 < w := by omega
  have hshift := Nat.div_add_mod' shift w
  have hrem := Nat.mod_lt shift hw
  have hbits := bits_le hw bits
  unfold shiftRightWord
  dsimp only
  generalize shift / w = off at *
  generalize shift % w = rem at *
  rw [getLsbD_maskLast _ (by omega) hj, BitVec.getLsbD_or, BitVec.getLsbD_shiftLeft,
    BitVec.getLsbD_ushiftRight, decide_eq_true hj, Bool.true_and]
  have hsum : (off + k) * w = off * w + k * w := Nat.add_mul off k w
  by_cases hlow : rem + j < w
  · -- the bit is one of the lower word
    have hindex : k * w + j + shift = (off + k) * w + (rem + j) := by omega
    rw [decide_eq_true (show j < w - rem by omega), Bool.not_true, Bool.false_and, Bool.false_or,
      getLsbD_maskLast _ hk hlow, hindex, bitAt_mul_add src _ hlow]
    by_cases hin : (off + k) * w + (rem + j) < bits
    · rw [decide_eq_true hin, decide_eq_true (show k * w + j < bits by omega), Bool.true_and]
    · rw [decide_eq_false hin, Bool.false_and, Bool.and_false]
  -- the bit is one of the word above, if there is one
  have hsucc : (off + k + 1) * w = (off + k) * w + w := Nat.succ_mul _ w
  have hindex : k * w + j + shift = (off + k + 1) * w + (j - (w - rem)) := by omega
  have hhigh : j - (w - rem) < w := by omega
  rw [decide_eq_false (show ¬ j < w - rem by omega), Bool.not_false, Bool.true_and,
    BitVec.getLsbD_of_ge _ (rem + j) (Nat.not_lt.mp hlow), Bool.or_false, hindex]
  by_cases hlast : rem = 0 ∨ bitsToLongs w bits ≤ off + k + 1
  · have hle : bitsToLongs w bits * w ≤ (off + k + 1) * w :=
      Nat.mul_le_mul_right w (hlast.resolve_left (by omega))
    have hout : ¬(off + k + 1) * w + (j - (w - rem)) < bits := by omega
    rw [if_pos hlast, decide_eq_false hout, Bool.false_and]
    exact (congrArg _ BitVec.getLsbD_zero).trans (Bool.and_false _)
  · rw [if_neg hlast, getLsbD_maskLast _ (by omega) hhigh, bitAt_mul_add src _ hhigh]
    by_cases hin : (off + k + 1) * w + (j - (w - rem)) < bits
    · rw [decide_eq_true hin, decide_eq_true (show k * w + j < bits by omega), Bool.true_and]
    · rw [decide_eq_false hin, Bool.false_and, Bool.and_false]

/-- The bits of a word of the left shift. -/
theorem getLsbD_shiftLeftWord (hk : k + shift / w < bitsToLongs w bits) (hj : j < w) :
    (shiftLeftWord shift bits src k).getLsbD j =
      (decide (shift ≤ (k + shift / w) * w + j ∧ (k + shift / w) * w + j < bits) &&
        bitAt src ((k + shift / w) * w + j - shift)) := by
  have hw : 0 < w := by omega
  have hshift := Nat.div_add_mod' shift w
  have hrem := Nat.mod_lt shift hw
  unfold shiftLeftWord
  dsimp only
  generalize shift / w = off at *
  generalize shift % w = rem at *
  rw [getLsbD_maskLast _ hk hj, BitVec.getLsbD_or, BitVec.getLsbD_shiftLeft,
    BitVec.getLsbD_ushiftRight, decide_eq_true hj, Bool.true_and]
  have hsum : (k + off) * w = k * w + off * w := Nat.add_mul k off w
  by_cases hlow : j < rem
  · rw [decide_eq_true hlow, Bool.not_true, Bool.false_and, Bool.or_false]
    by_cases hfirst : k = 0
    · -- there is no word below
      have hzero : k * w = 0 := by rw [hfirst, Nat.zero_mul]
      rw [if_neg (by omega), decide_eq_false (show ¬(shift ≤ _ ∧ _) by omega), Bool.false_and]
      exact (congrArg _ BitVec.getLsbD_zero).trans (Bool.and_false _)
    have hpred : k * w = (k - 1) * w + w := by
      rw [← Nat.succ_mul]
      exact congrArg (· * w) (by omega)
    have hindex : (k + off) * w + j - shift = (k - 1) * w + (w - rem + j) := by omega
    have hhigh : w - rem + j < w := by omega
    have hiff : shift ≤ (k + off) * w + j ∧ (k + off) * w + j < bits ↔
        (k + off) * w + j < bits := by
      omega
    rw [if_pos (by omega), hindex, bitAt_mul_add src _ hhigh]
    simp only [hiff]
  rw [decide_eq_false hlow, Bool.not_false, Bool.true_and,
    BitVec.getLsbD_of_ge _ (w - rem + j) (by omega), Bool.false_or]
  have hindex : (k + off) * w + j - shift = k * w + (j - rem) := by omega
  have hhigh : j - rem < w := by omega
  have hiff : shift ≤ (k + off) * w + j ∧ (k + off) * w + j < bits ↔
      (k + off) * w + j < bits := by
    omega
  rw [getLsbD_maskLast _ (by omega) hhigh, hindex, bitAt_mul_add src _ hhigh]
  simp only [hiff]
  by_cases hin : (k + off) * w + j < bits
  · rw [decide_eq_true hin, decide_eq_true (show k * w + (j - rem) < bits by omega),
      Bool.true_and, Bool.true_and]
  · rw [decide_eq_false hin, Bool.false_and, Bool.false_and]

variable (same dst src shift bits)

/-- The bits of the words of a bitmap shifted right. -/
theorem bitAt_bitmapShiftRight (hw : 0 < w) {i : Nat} (hi : i < bitsToLongs w bits * w) :
    bitAt (bitmapShiftRight same dst src shift bits) i =
      (decide (i + shift < bits) && bitAt (source same dst src) (i + shift)) := by
  have hmod := Nat.mod_lt i hw
  have hindex := Nat.div_add_mod' i w
  have hlim : i / w < bitsToLongs w bits := (Nat.div_lt_iff_lt_mul hw).mpr hi
  have hbits := bits_le hw bits
  have hshift := Nat.div_add_mod' shift w
  unfold bitmapShiftRight bitAt
  dsimp only
  rw [shiftRight_loop]
  by_cases hin : shift / w + i / w < bitsToLongs w bits
  · rw [if_neg (by omega)]
    show (if _ then _ else _ : BitVec w).getLsbD _ = _
    rw [if_pos (by omega), getLsbD_shiftRightWord hin hmod, hindex]
    rfl
  -- the words that the loop leaves out are cleared
  have hle : bitsToLongs w bits * w ≤ (shift / w + i / w) * w :=
    Nat.mul_le_mul_right w (Nat.not_lt.mp hin)
  rw [Nat.add_mul] at hle
  have hclear : bitsToLongs w bits - shift / w ≤ i / w ∧
      i / w < bitsToLongs w bits - shift / w + shift / w := by
    generalize i / w = q at *
    generalize shift / w = off at *
    omega
  rw [if_pos hclear, decide_eq_false (by omega), Bool.false_and]
  exact BitVec.getLsbD_zero

/-- The bits of the words of a bitmap shifted left. -/
theorem bitAt_bitmapShiftLeft (hw : 0 < w) {i : Nat} (hi : i < bitsToLongs w bits * w) :
    bitAt (bitmapShiftLeft same dst src shift bits) i =
      (decide (shift ≤ i ∧ i < bits) && bitAt (source same dst src) (i - shift)) := by
  have hmod := Nat.mod_lt i hw
  have hindex := Nat.div_add_mod' i w
  have hlim : i / w < bitsToLongs w bits := (Nat.div_lt_iff_lt_mul hw).mpr hi
  have hshift := Nat.div_add_mod' shift w
  have hloop := shiftLeft_loop same dst src shift bits (shift / w)
    (bitsToLongs w bits - shift / w) 0 (Nat.zero_le _)
  rw [List.drop_zero] at hloop
  unfold bitmapShiftLeft bitAt
  dsimp only
  rw [hloop]
  by_cases hoff : i / w < shift / w
  · have hle : (i / w + 1) * w ≤ shift / w * w := Nat.mul_le_mul_right w hoff
    rw [Nat.succ_mul] at hle
    rw [if_pos hoff, decide_eq_false (by omega), Bool.false_and]
    exact BitVec.getLsbD_zero
  · have hplace : i / w - shift / w + shift / w = i / w := Nat.sub_add_cancel (Nat.not_lt.mp hoff)
    rw [if_neg hoff]
    show (if _ then _ else _ : BitVec w).getLsbD _ = _
    rw [if_pos (by omega), getLsbD_shiftLeftWord (by omega) hmod, hplace, hindex]
    rfl

/-- The words after the bitmap are not touched. -/
theorem bitmapShift_frame (hw : 0 < w) (hshift : shift ≤ bits) {k : Nat}
    (hk : bitsToLongs w bits ≤ k) : bitmapShiftRight same dst src shift bits k = dst k ∧
      bitmapShiftLeft same dst src shift bits k = dst k := by
  have hoff : shift / w ≤ bitsToLongs w bits :=
    Nat.div_le_of_le_mul (Nat.mul_comm w _ ▸ Nat.le_trans hshift (bits_le hw bits))
  have hloop := shiftLeft_loop same dst src shift bits (shift / w)
    (bitsToLongs w bits - shift / w) 0 (Nat.zero_le _)
  rw [List.drop_zero] at hloop
  unfold bitmapShiftRight bitmapShiftLeft
  rw [shiftRight_loop, hloop]
  generalize shift / w = off at *
  constructor
  · rw [if_neg (by omega)]
    exact if_neg (by omega)
  · rw [if_neg (by omega)]
    exact if_neg (by omega)

/-- The shifts of a bitmap are those of the number that its bits make, whether or not the
destination is the source and whatever its unused bits are. They leave the unused bits of the
destination zero, and the words after it as they are. -/
theorem bitmap_shift_spec (hw : 0 < w) (hshift : shift ≤ bits) :
    number (bitmapShiftRight same dst src shift bits) bits =
        number (source same dst src) bits >>> shift ∧
      number (bitmapShiftLeft same dst src shift bits) bits =
        number (source same dst src) bits <<< shift % 2 ^ bits ∧
      (∀ i, bits ≤ i → i < bitsToLongs w bits * w →
        bitAt (bitmapShiftRight same dst src shift bits) i = false ∧
          bitAt (bitmapShiftLeft same dst src shift bits) i = false) ∧
      ∀ k, bitsToLongs w bits ≤ k → bitmapShiftRight same dst src shift bits k = dst k ∧
        bitmapShiftLeft same dst src shift bits k = dst k := by
  have hbits := bits_le hw bits
  refine ⟨?_, ?_, fun i hle hlt => ?_, fun k => bitmapShift_frame same dst src shift bits hw hshift⟩
  · refine Nat.eq_of_testBit_eq fun i => ?_
    rw [testBit_number, Nat.testBit_shiftRight, testBit_number, Nat.add_comm shift i]
    by_cases hi : i < bits
    · rw [decide_eq_true hi, Bool.true_and,
        bitAt_bitmapShiftRight same dst src shift bits hw (by omega)]
    · rw [decide_eq_false hi, decide_eq_false (show ¬ i + shift < bits by omega), Bool.false_and,
        Bool.false_and]
  · refine Nat.eq_of_testBit_eq fun i => ?_
    rw [testBit_number, Nat.testBit_mod_two_pow, Nat.testBit_shiftLeft, testBit_number]
    by_cases hi : i < bits
    · rw [decide_eq_true hi, Bool.true_and, Bool.true_and,
        bitAt_bitmapShiftLeft same dst src shift bits hw (by omega)]
      by_cases hle : shift ≤ i
      · rw [decide_eq_true (show shift ≤ i ∧ i < bits from ⟨hle, hi⟩),
          decide_eq_true (show i - shift < bits by omega), decide_eq_true (show i ≥ shift from hle)]
        rfl
      · rw [decide_eq_false (show ¬(shift ≤ i ∧ i < bits) from fun h => hle h.1),
          decide_eq_false (show ¬ i ≥ shift from hle), Bool.false_and, Bool.false_and]
    · rw [decide_eq_false hi, Bool.false_and, Bool.false_and]
  · rw [bitAt_bitmapShiftRight same dst src shift bits hw hlt,
      bitAt_bitmapShiftLeft same dst src shift bits hw hlt,
      decide_eq_false (show ¬ i + shift < bits by omega),
      decide_eq_false (show ¬(shift ≤ i ∧ i < bits) by omega), Bool.false_and, Bool.false_and]
    exact ⟨rfl, rfl⟩

/-- A bitmap of 40 bits in words of 32 bits with all unused bits set, shifted in place. -/
theorem bitmap_shift_spec_forty :
    number (bitmapShiftRight true (fun _ => BitVec.allOnes 32) (fun _ => 0) 33 40) 40 =
      number (fun _ => BitVec.allOnes 32) 40 >>> 33 :=
  (bitmap_shift_spec true (fun _ => BitVec.allOnes 32) (fun _ => 0) 33 40 (by decide)
    (by decide)).1

end AndroidKernel.Bitmaps
