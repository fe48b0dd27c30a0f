import AndroidKernel.Bitmaps.Words
import AndroidKernel.Library.Bytes
import AndroidKernel.Library.Words

/-!
# Regions of a bitmap

A region is a stretch of `2 ^ order` bits at a multiple of its size. It is a part of one word or a
number of whole words, and `__reg_op` treats both alike. The array has `lim` words, and an access
to another one is a fault. The module says what the three operations of `__reg_op` do to the bits
of a region.
-/

namespace AndroidKernel.Bitmaps

open Library Exec

variable {w : Nat}

/-- `enum { REG_OP_ISFREE, REG_OP_ALLOC, REG_OP_RELEASE }`. -/
inductive RegOp where
  | isFree
  | alloc
  | release

/-- `bitmap[index]`. -/
def loadWord (lim : Nat) (map : Nat → BitVec w) (index : Int) : Exec (BitVec w) :=
  if 0 ≤ index ∧ index < lim then .ok (map index.toNat) else .error .fault

/-- Whether one of the next words has a bit of the mask. -/
def anyBusy (lim : Nat) (map : Nat → BitVec w) (mask : BitVec w) : Nat → Int → Exec Bool
  | 0, _ => .ok false
  | n + 1, index => do
    let word ← loadWord lim map index
    if word &&& mask ≠ 0 then .ok true else anyBusy lim map mask n (index + 1)

/-- The next words changed. -/
def changeWords (lim : Nat) (change : BitVec w → BitVec w) :
    Nat → Int → (Nat → BitVec w) → Exec (Nat → BitVec w)
  | 0, _, map => .ok map
  | n + 1, index, map => do
    let word ← loadWord lim map index
    changeWords lim change n (index + 1) (Function.update map index.toNat (change word))

/-- The bits of a region in each of its words. A mask of all bits cannot be made by one shift. -/
def regMask (w : Nat) (offset : Int) (order : Nat) : BitVec w :=
  let nbitsinlong := min (2 ^ order) w
  let mask := 1#w <<< (nbitsinlong - 1)
  (mask + (mask - 1#w)) <<< offset.toNat

/-- `__reg_op`: the bitmap after the operation, and the result. -/
def regOp (lim : Nat) (map : Nat → BitVec w) (pos : Int) (order : Nat) (op : RegOp) :
    Exec ((Nat → BitVec w) × Int) :=
  let nbitsReg := 2 ^ order
  let index := pos.tdiv w
  let offset := pos - index * w
  let nlongsReg := bitsToLongs w nbitsReg
  let mask := regMask w offset order
  match op with
  | .isFree => do
    let busy ← anyBusy lim map mask nlongsReg index
    pure (map, if busy then 0 else 1)
  | .alloc => do
    let map ← changeWords lim (· ||| mask) nlongsReg index map
    pure (map, 0)
  | .release => do
    let map ← changeWords lim (· &&& ~~~mask) nlongsReg index map
    pure (map, 0)

/-! ## The bits of a region -/

/-- The bits of the region at `pos`. -/
def InRegion (pos order i : Nat) : Prop :=
  pos ≤ i ∧ i < pos + 2 ^ order

instance (pos order i : Nat) : Decidable (InRegion pos order i) :=
  inferInstanceAs (Decidable (_ ∧ _))

variable {L lim pos order i j n : Nat} {map : Nat → BitVec w} {mask : BitVec w}

theorem getLsbD_regMask (hw : 0 < w) {offset : Nat} (hj : j < w) :
    (regMask w offset order).getLsbD j =
      decide (offset ≤ j ∧ j < offset + min (2 ^ order) w) := by
  have hpos := Nat.two_pow_pos order
  obtain ⟨n, hn⟩ : ∃ n, min (2 ^ order) w = n + 1 := ⟨min (2 ^ order) w - 1, by omega⟩
  have hnw : n + 1 ≤ w := hn ▸ Nat.min_le_right _ _
  have hn2 := Nat.two_pow_pos n
  have hpow : 2 ^ (n + 1) ≤ 2 ^ w := Nat.pow_le_pow_right Nat.two_pos hnw
  have hsucc : 2 ^ (n + 1) = 2 ^ n + 2 ^ n := by rw [Nat.pow_succ, Nat.mul_two]
  have hone : (1#w <<< n).toNat = 2 ^ n := by
    rw [BitVec.toNat_shiftLeft, BitVec.toNat_ofNat, Nat.shiftLeft_eq,
      Nat.mod_eq_of_lt (Nat.one_lt_two_pow (Nat.ne_of_gt hw)), Nat.one_mul,
      Nat.mod_eq_of_lt (by omega)]
  have hmask : (1#w <<< n + (1#w <<< n - 1#w)).toNat = 2 ^ (n + 1) - 1 := by
    rw [BitVec.toNat_add, BitVec.toNat_sub, hone, BitVec.toNat_ofNat,
      Nat.mod_eq_of_lt (Nat.one_lt_two_pow (Nat.ne_of_gt hw))]
    have hsum : 2 ^ w - 1 + 2 ^ n = 2 ^ w + (2 ^ n - 1) := by omega
    have hlow : 2 ^ n - 1 < 2 ^ w := by omega
    have hall : 2 ^ n + (2 ^ n - 1) < 2 ^ w := by omega
    rw [hsum, Nat.add_mod_left, Nat.mod_eq_of_lt hlow, Nat.mod_eq_of_lt hall]
    omega
  unfold regMask
  dsimp only
  rw [hn, Nat.add_sub_cancel, Int.toNat_natCast, BitVec.getLsbD_shiftLeft,
    ← BitVec.testBit_toNat, hmask, Nat.testBit_two_pow_sub_one, decide_eq_true hj, Bool.true_and,
    ← decide_not, ← Bool.decide_and]
  exact decide_eq_decide.mpr (by omega)

/-- A region is in the words from its first one on, where the mask is. -/
theorem inRegion_iff (hw : w = 2 ^ L) (halign : 2 ^ order ∣ pos) :
    InRegion pos order i ↔ pos / w ≤ i / w ∧ i / w < pos / w + bitsToLongs w (2 ^ order) ∧
      (regMask w ((pos % w : Nat) : Int) order).getLsbD (i % w) := by
  have hpos : 0 < w := hw ▸ Nat.two_pow_pos L
  have hpow := Nat.two_pow_pos order
  have hi := Nat.div_add_mod' i w
  have himod := Nat.mod_lt i hpos
  have hp := Nat.div_add_mod' pos w
  have hpmod := Nat.mod_lt pos hpos
  rw [getLsbD_regMask hpos himod, decide_eq_true_iff]
  unfold InRegion
  rcases Nat.le_total order L with hle | hle
  · -- a part of one word
    obtain ⟨c, hc⟩ : 2 ^ order ∣ w := hw ▸ Nat.pow_dvd_pow 2 hle
    have hle' : 2 ^ order ≤ w := Nat.le_of_dvd hpos ⟨c, hc⟩
    have hone : bitsToLongs w (2 ^ order) = 1 := by
      unfold bitsToLongs
      have hsum : 2 ^ order + w - 1 = w * 1 + (2 ^ order - 1) := by omega
      have hlt : 2 ^ order - 1 < w := by omega
      rw [hsum, Nat.mul_add_div hpos, Nat.div_eq_of_lt hlt]
    have hfit : pos % w + 2 ^ order ≤ w := by
      have hdvd : 2 ^ order ∣ w - pos % w :=
        Nat.dvd_sub ⟨c, hc⟩ ((Nat.dvd_mod_iff ⟨c, hc⟩).mpr halign)
      have := Nat.le_of_dvd (by omega) hdvd
      omega
    rw [hone, Nat.min_eq_left hle']
    constructor
    · rintro ⟨hlo, hhi⟩
      have hq : i / w = pos / w := by
        refine Nat.div_eq_of_lt_le ?_ ?_
        · omega
        · rw [Nat.succ_mul]
          omega
      rw [hq] at hi ⊢
      omega
    · rintro ⟨hlo, hhi, hin⟩
      have hq : i / w = pos / w := by omega
      rw [hq] at hi
      omega
  -- whole words
  obtain ⟨c, hc⟩ : w ∣ 2 ^ order := hw ▸ Nat.pow_dvd_pow 2 hle
  have hlongs : bitsToLongs w (2 ^ order) = c := by
    rw [bitsToLongs_eq hpos, hc, Nat.mul_mod_right, if_pos rfl, Nat.mul_div_cancel_left _ hpos]
  have hzero : pos % w = 0 := Nat.mod_eq_zero_of_dvd (Nat.dvd_trans ⟨c, hc⟩ halign)
  have hge : w ≤ 2 ^ order := Nat.le_of_dvd hpow ⟨c, hc⟩
  rw [hlongs, hzero, Nat.min_eq_right hge, hc]
  rw [hzero, Nat.add_zero] at hp
  have hlo : pos / w ≤ i / w ↔ pos ≤ i := by
    rw [Nat.le_div_iff_mul_le hpos, hp]
  have hhi : i / w < pos / w + c ↔ i < pos + w * c := by
    rw [Nat.div_lt_iff_lt_mul hpos, Nat.add_mul, hp, Nat.mul_comm c]
  rw [hlo, hhi]
  omega

/-! ## The loops over its words -/

theorem loadWord_eq {k : Nat} (hk : k < lim) : loadWord lim map k = .ok (map k) := by
  rw [loadWord, if_pos ⟨Int.natCast_nonneg k, Int.ofNat_lt.mpr hk⟩, Int.toNat_natCast]

theorem anyBusy_eq {k : Nat} (hk : k + n ≤ lim) :
    ∃ busy, anyBusy lim map mask n k = .ok busy ∧
      (busy ↔ ∃ m, k ≤ m ∧ m < k + n ∧ map m &&& mask ≠ 0) := by
  induction n generalizing k with
  | zero =>
    refine ⟨false, rfl, ?_⟩
    simp only [Bool.false_eq_true, false_iff]
    rintro ⟨m, hle, hlt, -⟩
    omega
  | succ n ih =>
    rw [anyBusy, loadWord_eq (by omega), ok_bind]
    by_cases hword : map k &&& mask ≠ 0
    · rw [if_pos hword]
      exact ⟨true, rfl, fun _ => ⟨k, Nat.le_refl k, by omega, hword⟩, fun _ => rfl⟩
    rw [if_neg hword]
    obtain ⟨busy, hrun, hbusy⟩ := @ih (k + 1) (by omega)
    refine ⟨busy, hrun, hbusy.trans ⟨?_, ?_⟩⟩
    · rintro ⟨m, hle, hlt, hm⟩
      exact ⟨m, by omega, by omega, hm⟩
    · rintro ⟨m, hle, hlt, hm⟩
      have hne : m ≠ k := by
        rintro rfl
        exact hword hm
      exact ⟨m, by omega, by omega, hm⟩

theorem changeWords_eq (change : BitVec w → BitVec w) {k : Nat} (hk : k + n ≤ lim) :
    changeWords lim change n k map =
      .ok fun m => if k ≤ m ∧ m < k + n then change (map m) else map m := by
  induction n generalizing k map with
  | zero =>
    refine congrArg Except.ok (funext fun m => ?_)
    rw [if_neg (by omega)]
  | succ n ih =>
    rw [changeWords, loadWord_eq (by omega), ok_bind]
    refine (ih (show k + 1 + n ≤ lim by omega)).trans (congrArg Except.ok (funext fun m => ?_))
    rw [Int.toNat_natCast]
    by_cases hm : m = k
    · rw [hm, if_neg (by omega), Function.update_self, if_pos (by omega)]
    · rw [Function.update_of_ne hm]
      have hiff : k + 1 ≤ m ∧ m < k + 1 + n ↔ k ≤ m ∧ m < k + (n + 1) := by omega
      simp only [hiff]

/-! ## The operations on a region -/

/-- A region of the bitmap: at a multiple of its size, and inside. -/
structure IsRegion (bits order pos : Nat) : Prop where
  aligned : 2 ^ order ∣ pos
  inside : pos + 2 ^ order ≤ bits

/-- All bits of the region are clear. -/
def Free (map : Nat → BitVec w) (pos order : Nat) : Prop :=
  ∀ i, InRegion pos order i → bitAt map i = false

theorem tdiv_eq (pos : Nat) : (pos : Int).tdiv w = ((pos / w : Nat) : Int) :=
  rfl

theorem offset_eq (pos : Nat) :
    (pos : Int) - ((pos / w : Nat) : Int) * w = ((pos % w : Nat) : Int) := by
  have h := Nat.div_add_mod' pos w
  have hcast : ((pos / w : Nat) : Int) * w + ((pos % w : Nat) : Int) = pos := by
    rw [← Int.natCast_mul, ← Int.natCast_add, h]
  omega

variable {bits : Nat}

/-- The words of a region inside the bitmap are words of the array. -/
theorem IsRegion.words_le (hw : w = 2 ^ L) (h : IsRegion bits order pos) :
    pos / w + bitsToLongs w (2 ^ order) ≤ bitsToLongs w bits := by
  have hpos : 0 < w := hw ▸ Nat.two_pow_pos L
  have hpow := Nat.two_pow_pos order
  have hmod := Nat.mod_lt pos hpos
  by_contra hgt
  -- the region has a bit in its last word
  have hin : InRegion pos order
      ((pos / w + bitsToLongs w (2 ^ order) - 1) * w + pos % w) := by
    have hlongs : bitsToLongs w (2 ^ order) ≠ 0 := fun hzero => by
      have hle := bits_le hpos (2 ^ order)
      rw [hzero, Nat.zero_mul] at hle
      omega
    rw [inRegion_iff hw h.aligned, Nat.mul_comm, Nat.mul_add_div hpos, Nat.mul_add_mod,
      Nat.div_eq_of_lt hmod, Nat.mod_eq_of_lt hmod, getLsbD_regMask hpos hmod, decide_eq_true_iff]
    generalize pos / w = q at *
    omega
  have hlast : bitsToLongs w bits * w ≤ (pos / w + bitsToLongs w (2 ^ order) - 1) * w :=
    Nat.mul_le_mul_right w (Nat.le_sub_one_of_lt (Nat.not_le.mp hgt))
  have hbits := bits_le hpos bits
  have hinside := h.inside
  have hhi := hin.2
  omega

/-- A word of the array has a bit of the mask exactly when the region has a set bit in it. -/
theorem word_and_ne_zero {k : Nat} :
    map k &&& mask ≠ 0 ↔ ∃ j, j < w ∧ mask.getLsbD j ∧ bitAt map (k * w + j) := by
  constructor
  · intro hne
    by_contra hnone
    refine hne (BitVec.eq_of_getLsbD_eq fun j hj => ?_)
    rw [BitVec.getLsbD_and, ← bitAt_mul_add map k hj]
    refine Eq.trans ?_ BitVec.getLsbD_zero.symm
    cases hbit : bitAt map (k * w + j) with
    | false => rfl
    | true =>
      cases hmask : mask.getLsbD j with
      | false => rfl
      | true => exact absurd ⟨j, hj, hmask, hbit⟩ hnone
  · rintro ⟨j, hj, hmask, hbit⟩ hzero
    have hand : (map k &&& mask).getLsbD j = true := by
      rw [BitVec.getLsbD_and, ← bitAt_mul_add map k hj, hmask, hbit]
      rfl
    rw [hzero] at hand
    exact absurd (hand.symm.trans BitVec.getLsbD_zero) Bool.true_eq_false.mp

/-- `REG_OP_ISFREE` finds out whether the region is free. -/
theorem regOp_isFree (map : Nat → BitVec w) (hw : w = 2 ^ L)
    (h : IsRegion bits order pos) :
    ∃ ret, regOp (bitsToLongs w bits) map pos order .isFree = .ok (map, ret) ∧
      (ret ≠ 0 ↔ Free map pos order) := by
  have hpos : 0 < w := hw ▸ Nat.two_pow_pos L
  have hle := h.words_le hw
  unfold regOp
  dsimp only
  rw [tdiv_eq, offset_eq]
  obtain ⟨busy, hrun, hbusy⟩ :=
    @anyBusy_eq w _ _ map (regMask w ((pos % w : Nat) : Int) order) _ hle
  rw [hrun, ok_bind]
  refine ⟨if busy then 0 else 1, rfl, ?_⟩
  have hfree : busy = false ↔ Free map pos order := by
    rw [← Bool.not_eq_true, hbusy]
    constructor
    · intro hnone i hi
      by_contra hbit
      obtain ⟨hlo, hhi, hmask⟩ := (inRegion_iff hw h.aligned).mp hi
      refine hnone ⟨i / w, hlo, hhi, word_and_ne_zero.mpr ⟨i % w, Nat.mod_lt i hpos, hmask, ?_⟩⟩
      rw [Nat.div_add_mod']
      exact (Bool.not_eq_false _).mp hbit
    rintro hall ⟨m, hlo, hhi, hne⟩
    obtain ⟨j, hj, hmask, hbit⟩ := word_and_ne_zero.mp hne
    have hin : InRegion pos order (m * w + j) := by
      rw [inRegion_iff hw h.aligned, Nat.mul_comm, Nat.mul_add_div hpos, Nat.mul_add_mod,
        Nat.div_eq_of_lt hj, Nat.mod_eq_of_lt hj]
      exact ⟨hlo, hhi, hmask⟩
    rw [hall _ hin] at hbit
    cases hbit
  rw [← hfree]
  cases busy with
  | true => exact ⟨fun hne => absurd rfl hne, fun hf => by cases hf⟩
  | false => exact ⟨fun _ => rfl, fun _ => by decide⟩

/-- Words changed where the mask is: the bits of the region are changed. -/
theorem changeWords_region (map : Nat → BitVec w) (hw : w = 2 ^ L)
    (h : IsRegion bits order pos) {value : Bool} {change : BitVec w → BitVec w}
    (hchange : ∀ word j, j < w → (change word).getLsbD j =
      if (regMask w ((pos % w : Nat) : Int) order).getLsbD j then value else word.getLsbD j) :
    ∃ map', changeWords (bitsToLongs w bits) change (bitsToLongs w (2 ^ order))
        ((pos / w : Nat) : Int) map = .ok map' ∧
      ∀ i, bitAt map' i = if InRegion pos order i then value else bitAt map i := by
  have hpos : 0 < w := hw ▸ Nat.two_pow_pos L
  refine ⟨_, changeWords_eq change (h.words_le hw), fun i => ?_⟩
  have hmod := Nat.mod_lt i hpos
  simp only [inRegion_iff hw h.aligned, bitAt]
  by_cases hword : pos / w ≤ i / w ∧ i / w < pos / w + bitsToLongs w (2 ^ order)
  · rw [if_pos hword, hchange _ _ hmod]
    by_cases hmask : (regMask w ((pos % w : Nat) : Int) order).getLsbD (i % w) = true
    · rw [if_pos hmask, if_pos ⟨hword.1, hword.2, hmask⟩]
    · rw [if_neg hmask, if_neg fun hall => hmask hall.2.2]
  · rw [if_neg hword, if_neg fun hall => hword ⟨hall.1, hall.2.1⟩]

/-- `REG_OP_ALLOC` sets the bits of the region. -/
theorem regOp_alloc (map : Nat → BitVec w) (hw : w = 2 ^ L)
    (h : IsRegion bits order pos) :
    ∃ map', regOp (bitsToLongs w bits) map pos order .alloc = .ok (map', 0) ∧
      ∀ i, bitAt map' i = if InRegion pos order i then true else bitAt map i := by
  have hchange : ∀ word j, j < w →
      (word ||| regMask w ((pos % w : Nat) : Int) order).getLsbD j =
        if (regMask w ((pos % w : Nat) : Int) order).getLsbD j then true else word.getLsbD j := by
    intro word j _
    rw [BitVec.getLsbD_or]
    cases (regMask w ((pos % w : Nat) : Int) order).getLsbD j with
    | true => exact Bool.or_true _
    | false => exact Bool.or_false _
  obtain ⟨map', hrun, hbits⟩ := changeWords_region map hw h hchange
  refine ⟨map', ?_, hbits⟩
  unfold regOp
  dsimp only
  rw [tdiv_eq, offset_eq, hrun]
  rfl

/-- `REG_OP_RELEASE` clears the bits of the region. -/
theorem regOp_release (map : Nat → BitVec w) (hw : w = 2 ^ L)
    (h : IsRegion bits order pos) :
    ∃ map', regOp (bitsToLongs w bits) map pos order .release = .ok (map', 0) ∧
      ∀ i, bitAt map' i = if InRegion pos order i then false else bitAt map i := by
  have hchange : ∀ word j, j < w →
      (word &&& ~~~regMask w ((pos % w : Nat) : Int) order).getLsbD j =
        if (regMask w ((pos % w : Nat) : Int) order).getLsbD j then false else word.getLsbD j := by
    intro word j hj
    rw [BitVec.getLsbD_and, BitVec.getLsbD_not, decide_eq_true hj, Bool.true_and]
    cases (regMask w ((pos % w : Nat) : Int) order).getLsbD j with
    | true => exact Bool.and_false _
    | false => exact Bool.and_true _
  obtain ⟨map', hrun, hbits⟩ := changeWords_region map hw h hchange
  refine ⟨map', ?_, hbits⟩
  unfold regOp
  dsimp only
  rw [tdiv_eq, offset_eq, hrun]
  rfl

end AndroidKernel.Bitmaps
