import AndroidKernel.Bitmaps.Region

/-!
# The region allocator of a bitmap

`bitmap_find_free_region` takes the first free region, in the order of their positions. It adds
the region size to a position before it compares the sum with the number of bits, so that the sum
can overflow near the greatest number of bits that an `int` holds. The main theorem,
`region_allocator_iff`, says what the three functions do, and for which bitmaps the search is
right.
-/

namespace AndroidKernel.Bitmaps

open Library Exec

variable {w : Nat}

def enomem : Int := -12

def ebusy : Int := -16

/-- The loop of `bitmap_find_free_region`, from `pos` on. -/
def findFreeRegionLoop (bits order : Nat) : Nat → (Nat → BitVec w) → Int →
    Exec ((Nat → BitVec w) × Int)
  | 0, _, _ => .error .unfinished
  | fuel + 1, map, pos =>
    let next := int (pos + int (2 ^ order))
    if next ≤ bits then do
      let (map, free) ← regOp (bitsToLongs w bits) map pos order .isFree
      if free = 0 then
        findFreeRegionLoop bits order fuel map next
      else do
        let (map, _) ← regOp (bitsToLongs w bits) map pos order .alloc
        pure (map, pos)
    else
      pure (map, enomem)

/-- `bitmap_find_free_region`: the bitmap afterwards, and the result. -/
def bitmapFindFreeRegion (fuel : Nat) (map : Nat → BitVec w) (bits order : Nat) :
    Exec ((Nat → BitVec w) × Int) :=
  findFreeRegionLoop bits order fuel map 0

/-- `bitmap_release_region`. -/
def bitmapReleaseRegion (bits : Nat) (map : Nat → BitVec w) (pos : Int) (order : Nat) :
    Exec (Nat → BitVec w) := do
  let (map, _) ← regOp (bitsToLongs w bits) map pos order .release
  pure map

/-- `bitmap_allocate_region`. -/
def bitmapAllocateRegion (bits : Nat) (map : Nat → BitVec w) (pos : Int) (order : Nat) :
    Exec ((Nat → BitVec w) × Int) := do
  let (map, free) ← regOp (bitsToLongs w bits) map pos order .isFree
  if free = 0 then
    pure (map, ebusy)
  else do
    let (map, _) ← regOp (bitsToLongs w bits) map pos order .alloc
    pure (map, 0)

/-- What a caller expects of the search: the first free region, with its bits set, or an error and
the bitmap as it was when no region is free. -/
def FindsLeast (map : Nat → BitVec w) (bits order : Nat)
    (result : Exec ((Nat → BitVec w) × Int)) : Prop :=
  (∃ (map' : Nat → BitVec w) (pos : Nat), result = .ok (map', (pos : Int)) ∧
    IsRegion bits order pos ∧ Free map pos order ∧
    (∀ p, IsRegion bits order p → Free map p order → pos ≤ p) ∧
    ∀ i, bitAt map' i = if InRegion pos order i then true else bitAt map i) ∨
  ((∀ p, IsRegion bits order p → ¬ Free map p order) ∧ result = .ok (map, enomem))

variable {L bits order pos : Nat} {map : Nat → BitVec w} {fuel : Nat}

/-! ## Releasing and allocating a region -/

/-- A release clears exactly the bits of the region. -/
theorem release_spec (hw : w = 2 ^ L) (h : IsRegion bits order pos) :
    ∃ map', bitmapReleaseRegion bits map pos order = .ok map' ∧
      ∀ i, bitAt map' i = if InRegion pos order i then false else bitAt map i := by
  obtain ⟨map', hrun, hbits⟩ := regOp_release map hw h
  refine ⟨map', ?_, hbits⟩
  unfold bitmapReleaseRegion
  rw [hrun]
  rfl

/-- An allocation sets the bits of the region, or fails when one of them is set. -/
theorem allocate_spec (hw : w = 2 ^ L) (h : IsRegion bits order pos) :
    (Free map pos order ∧ ∃ map', bitmapAllocateRegion bits map pos order = .ok (map', 0) ∧
        ∀ i, bitAt map' i = if InRegion pos order i then true else bitAt map i) ∨
      (¬ Free map pos order ∧ bitmapAllocateRegion bits map pos order = .ok (map, ebusy)) := by
  obtain ⟨ret, hfree, hret⟩ := regOp_isFree map hw h
  obtain ⟨map', halloc, hbits⟩ := regOp_alloc map hw h
  unfold bitmapAllocateRegion
  rw [hfree, ok_bind]
  by_cases hzero : ret = 0
  · refine .inr ⟨fun hf => hret.mpr hf hzero, ?_⟩
    exact if_pos hzero
  · refine .inl ⟨hret.mp hzero, map', ?_, hbits⟩
    refine (if_neg hzero).trans ?_
    rw [halloc]
    rfl

/-! ## The search -/

theorem int_natCast {n : Nat} (hn : n < 2 ^ 31) : int (n : Int) = n :=
  int_eq (by omega) (Int.ofNat_lt.mpr hn)

theorem next_eq (horder : 2 ^ order < 2 ^ 31) :
    int ((pos : Int) + int (2 ^ order)) = int ((pos + 2 ^ order : Nat) : Int) := by
  have hcast : (2 : Int) ^ order = ((2 ^ order : Nat) : Int) := (Int.natCast_pow 2 order).symm
  rw [hcast, int_natCast horder, Int.natCast_add]

/-- The end of a region inside the bitmap. -/
theorem IsRegion.next (hbits : bits < 2 ^ 31) (h : IsRegion bits order pos) :
    int ((pos : Int) + int (2 ^ order)) = ((pos + 2 ^ order : Nat) : Int) := by
  have hinside := h.inside
  rw [next_eq (by omega)]
  exact int_natCast (by omega)

theorem loop_busy (hw : w = 2 ^ L) (hbits : bits < 2 ^ 31) (h : IsRegion bits order pos)
    (hbusy : ¬ Free map pos order) :
    findFreeRegionLoop bits order (fuel + 1) map pos =
      findFreeRegionLoop bits order fuel map ((pos + 2 ^ order : Nat) : Int) := by
  obtain ⟨ret, hfree, hret⟩ := regOp_isFree map hw h
  have hzero : ret = 0 := not_not.mp fun hne => hbusy (hret.mp hne)
  rw [findFreeRegionLoop]
  dsimp only
  rw [h.next hbits, if_pos (Int.ofNat_le.mpr h.inside), hfree, ok_bind]
  exact if_pos hzero

theorem loop_free (fuel : Nat) (hw : w = 2 ^ L) (hbits : bits < 2 ^ 31)
    (h : IsRegion bits order pos) (hfree : Free map pos order) :
    ∃ map', findFreeRegionLoop bits order (fuel + 1) map pos = .ok (map', (pos : Int)) ∧
      ∀ i, bitAt map' i = if InRegion pos order i then true else bitAt map i := by
  obtain ⟨ret, hrun, hret⟩ := regOp_isFree map hw h
  obtain ⟨map', halloc, hset⟩ := regOp_alloc map hw h
  refine ⟨map', ?_, hset⟩
  rw [findFreeRegionLoop]
  dsimp only
  rw [h.next hbits, if_pos (Int.ofNat_le.mpr h.inside), hrun, ok_bind]
  refine (if_neg (hret.mpr hfree)).trans ?_
  rw [halloc]
  rfl

/-- The search goes past regions that are not free. -/
theorem loop_reach (hw : w = 2 ^ L) (hbits : bits < 2 ^ 31) (k : Nat)
    (hbusy : ∀ m, m < k → IsRegion bits order (m * 2 ^ order) ∧ ¬ Free map (m * 2 ^ order) order)
    (fuel : Nat) :
    findFreeRegionLoop bits order (fuel + k) map 0 =
      findFreeRegionLoop bits order fuel map ((k * 2 ^ order : Nat) : Int) := by
  induction k generalizing fuel with
  | zero =>
    rw [Nat.zero_mul]
    rfl
  | succ k ih =>
    obtain ⟨hregion, hnot⟩ := hbusy k (Nat.lt_succ_self k)
    have hreach := ih (fun m hm => hbusy m (Nat.lt_succ_of_lt hm)) (fuel + 1)
    rw [show fuel + (k + 1) = fuel + 1 + k by omega, hreach, loop_busy hw hbits hregion hnot,
      Nat.succ_mul]

/-- The positions of the regions are the first multiples of their size. -/
theorem isRegion_mul {m : Nat} : IsRegion bits order (m * 2 ^ order) ↔ m < bits / 2 ^ order := by
  have hpow := Nat.two_pow_pos order
  rw [← Nat.succ_le_iff, Nat.le_div_iff_mul_le hpow, Nat.succ_mul]
  exact ⟨fun h => h.inside, fun h => ⟨Nat.dvd_mul_left _ _, h⟩⟩

/-- When there is a free region, the search finds the first one. -/
theorem find_free (hw : w = 2 ^ L) (hbits : bits < 2 ^ 31)
    (hexists : ∃ p, IsRegion bits order p ∧ Free map p order) :
    ∃ fuel, FindsLeast map bits order (bitmapFindFreeRegion fuel map bits order) := by
  classical
  have hindex : ∃ m, IsRegion bits order (m * 2 ^ order) ∧ Free map (m * 2 ^ order) order := by
    obtain ⟨p, hregion, hfree⟩ := hexists
    obtain ⟨m, rfl⟩ := hregion.aligned
    rw [Nat.mul_comm] at hregion hfree
    exact ⟨m, hregion, hfree⟩
  obtain ⟨hregion, hfree⟩ := Nat.find_spec hindex
  have hleast : ∀ m, m < Nat.find hindex →
      IsRegion bits order (m * 2 ^ order) ∧ ¬ Free map (m * 2 ^ order) order := by
    intro m hm
    have hin : IsRegion bits order (m * 2 ^ order) :=
      isRegion_mul.mpr (Nat.lt_trans hm (isRegion_mul.mp hregion))
    exact ⟨hin, fun hf => Nat.find_min hindex hm ⟨hin, hf⟩⟩
  obtain ⟨map', hrun, hset⟩ := loop_free 0 hw hbits hregion hfree
  refine ⟨0 + 1 + Nat.find hindex, .inl ⟨map', _, ?_, hregion, hfree, fun p hp hf => ?_, hset⟩⟩
  · exact (loop_reach hw hbits _ hleast 1).trans hrun
  · obtain ⟨m, rfl⟩ := hp.aligned
    rw [Nat.mul_comm] at hp hf
    rw [Nat.mul_comm (2 ^ order)]
    exact Nat.mul_le_mul_right _ (Nat.find_min' hindex ⟨hp, hf⟩)

/-- When there is none, all regions are passed. -/
theorem loop_none (hw : w = 2 ^ L) (hbits : bits < 2 ^ 31)
    (hnone : ∀ p, IsRegion bits order p → ¬ Free map p order) (fuel : Nat) :
    findFreeRegionLoop bits order (fuel + bits / 2 ^ order) map 0 =
      findFreeRegionLoop bits order fuel map ((bits / 2 ^ order * 2 ^ order : Nat) : Int) :=
  loop_reach hw hbits _ (fun _ hm => ⟨isRegion_mul.mpr hm, hnone _ (isRegion_mul.mpr hm)⟩) fuel

/-- When there is none and the sums fit, the search says so. -/
theorem find_none (hw : w = 2 ^ L) (hbits : bits + 2 ^ order < 2 ^ 31)
    (hnone : ∀ p, IsRegion bits order p → ¬ Free map p order) :
    bitmapFindFreeRegion (1 + bits / 2 ^ order) map bits order = .ok (map, enomem) := by
  have hpow := Nat.two_pow_pos order
  have hend := Nat.div_add_mod' bits (2 ^ order)
  have hmod := Nat.mod_lt bits hpow
  have hnext : ¬ int (((bits / 2 ^ order * 2 ^ order : Nat) : Int) + int (2 ^ order)) ≤ bits := by
    rw [next_eq (by omega), int_natCast (by omega)]
    omega
  unfold bitmapFindFreeRegion
  rw [loop_none hw (by omega) hnone 1, findFreeRegionLoop]
  dsimp only
  exact if_neg hnext

/-- A position before the bitmap is an access outside of the array. -/
theorem regOp_neg (hw : w = 32 ∨ w = 64) (lim : Nat) :
    regOp lim map (-2 ^ 31) order .isFree = .error .fault := by
  have hpow := Nat.two_pow_pos order
  have hindex : ¬ 0 ≤ (-2 ^ 31 : Int).tdiv w := by
    rcases hw with rfl | rfl
    · decide
    · decide
  obtain ⟨n, hn⟩ : ∃ n, bitsToLongs w (2 ^ order) = n + 1 := by
    refine Nat.exists_eq_succ_of_ne_zero fun hzero => ?_
    have hle := bits_le (show 0 < w by omega) (2 ^ order)
    rw [hzero, Nat.zero_mul] at hle
    omega
  unfold regOp
  dsimp only
  rw [hn, anyBusy, loadWord, if_neg fun h => hindex h.1]
  rfl

/-- The sum that overflows is the one at the end of the bitmap, and it is the first number that is
not an `int`. -/
theorem last_next (hbits : bits < 2 ^ 31) (horder : 2 ^ order ≤ bits)
    (hover : 2 ^ 31 ≤ bits + 2 ^ order) : bits / 2 ^ order * 2 ^ order + 2 ^ order = 2 ^ 31 := by
  have hpow := Nat.two_pow_pos order
  have hend := Nat.div_add_mod' bits (2 ^ order)
  have hmod := Nat.mod_lt bits hpow
  have hlt : order < 31 :=
    (Nat.pow_lt_pow_iff_right (Nat.lt_succ_self 1)).mp (Nat.lt_of_le_of_lt horder hbits)
  -- both ends are multiples of the region size, and closer than one region
  obtain ⟨c, hc⟩ : 2 ^ order ∣ 2 ^ 31 := Nat.pow_dvd_pow 2 (Nat.le_of_lt hlt)
  rw [Nat.mul_comm] at hc
  have hle : bits / 2 ^ order < c := by
    refine Nat.lt_of_mul_lt_mul_right (a := 2 ^ order) ?_
    omega
  have hge : c ≤ bits / 2 ^ order + 1 := by
    by_contra hgt
    have hmul := Nat.mul_le_mul_right (2 ^ order) (show bits / 2 ^ order + 2 ≤ c by omega)
    rw [Nat.add_mul] at hmul
    omega
  rw [← Nat.succ_mul, hc, Nat.le_antisymm hge hle]

/-- After the overflow there is no result. -/
theorem loop_neg (hw : w = 32 ∨ w = 64) (hbits : bits < 2 ^ 31) (horder : 2 ^ order ≤ bits)
    (fuel : Nat) {result : (Nat → BitVec w) × Int} :
    findFreeRegionLoop bits order fuel map (-2 ^ 31) ≠ .ok result := by
  intro hrun
  cases fuel with
  | zero => cases hrun
  | succ fuel =>
    have hnext : int (-2 ^ 31 + int (2 ^ order)) ≤ bits := by
      have hcast : (2 : Int) ^ order = ((2 ^ order : Nat) : Int) :=
        (Int.natCast_pow 2 order).symm
      have hpow := Nat.two_pow_pos order
      rw [hcast, int_natCast (by omega), int_eq (by omega) (by omega)]
      omega
    rw [findFreeRegionLoop] at hrun
    dsimp only at hrun
    rw [if_pos hnext, regOp_neg hw] at hrun
    cases hrun

/-- A result of the round with the overflow is the position after the last region. -/
theorem loop_last (hw : w = 32 ∨ w = 64) (hbits : bits < 2 ^ 31) (horder : 2 ^ order ≤ bits)
    (hover : 2 ^ 31 ≤ bits + 2 ^ order) (fuel : Nat) {map' : Nat → BitVec w} {ret : Int}
    (hrun : findFreeRegionLoop bits order fuel map ((bits / 2 ^ order * 2 ^ order : Nat) : Int) =
      .ok (map', ret)) :
    ret = ((bits / 2 ^ order * 2 ^ order : Nat) : Int) := by
  cases fuel with
  | zero => cases hrun
  | succ fuel =>
    have hwrap : int (((bits / 2 ^ order * 2 ^ order : Nat) : Int) + int (2 ^ order)) =
        -2 ^ 31 := by
      rw [next_eq (by omega), last_next hbits horder hover]
      rfl
    rw [findFreeRegionLoop] at hrun
    dsimp only at hrun
    rw [hwrap, if_pos (by omega)] at hrun
    obtain ⟨⟨map₁, free⟩, -, hrun⟩ := bind_eq_ok hrun
    dsimp only at hrun
    by_cases hfree : free = 0
    · rw [if_pos hfree] at hrun
      exact absurd hrun (loop_neg hw hbits horder fuel)
    · rw [if_neg hfree] at hrun
      obtain ⟨⟨map₂, set⟩, -, hlast⟩ := bind_eq_ok hrun
      cases hlast
      rfl

/-- When there is none and a sum overflows, the search does not stop at the end of the bitmap. -/
theorem find_overflow (hw : w = 32 ∨ w = 64) (hbits : bits < 2 ^ 31) (horder : 2 ^ order ≤ bits)
    (hover : 2 ^ 31 ≤ bits + 2 ^ order)
    (hnone : ∀ p, IsRegion bits order p → ¬ Free map p order) (fuel : Nat) :
    ¬ FindsLeast map bits order (bitmapFindFreeRegion fuel map bits order) := by
  obtain ⟨L, hL⟩ : ∃ L, w = 2 ^ L := by
    rcases hw with rfl | rfl
    · exact ⟨5, rfl⟩
    · exact ⟨6, rfl⟩
  have hlast := last_next hbits horder hover
  rintro (⟨map', pos, -, hregion, hfree, -⟩ | ⟨-, hrun⟩)
  · exact hnone pos hregion hfree
  unfold bitmapFindFreeRegion at hrun
  rcases Nat.le_total (bits / 2 ^ order) fuel with hle | hle
  · rw [← Nat.sub_add_cancel hle, loop_none hL hbits hnone] at hrun
    have hret := loop_last hw hbits horder hover _ hrun
    exact absurd hret (by unfold enomem; omega)
  · -- the fuel is gone before the end
    rw [← Nat.zero_add fuel, loop_reach hL hbits fuel
      (fun m hm => ⟨isRegion_mul.mpr (by omega), hnone _ (isRegion_mul.mpr (by omega))⟩)] at hrun
    cases hrun

/-- On every bitmap, a release clears exactly the region, and an allocation of a region succeeds
exactly when it is free. The search for a free region is right exactly when the sum of the number
of bits and the region size fits an `int`, or there is a free region. -/
theorem region_allocator_iff (hw : w = 32 ∨ w = 64) (hbits : bits < 2 ^ 31)
    (horder : 2 ^ order ≤ bits) (map : Nat → BitVec w) :
    (∀ pos, IsRegion bits order pos →
      (∃ map', bitmapReleaseRegion bits map pos order = .ok map' ∧
        ∀ i, bitAt map' i = if InRegion pos order i then false else bitAt map i) ∧
      ((Free map pos order ∧ ∃ map', bitmapAllocateRegion bits map pos order = .ok (map', 0) ∧
          ∀ i, bitAt map' i = if InRegion pos order i then true else bitAt map i) ∨
        (¬ Free map pos order ∧ bitmapAllocateRegion bits map pos order = .ok (map, ebusy)))) ∧
      ((∃ fuel, FindsLeast map bits order (bitmapFindFreeRegion fuel map bits order)) ↔
        bits + 2 ^ order < 2 ^ 31 ∨ ∃ pos, IsRegion bits order pos ∧ Free map pos order) := by
  obtain ⟨L, hL⟩ : ∃ L, w = 2 ^ L := by
    rcases hw with rfl | rfl
    · exact ⟨5, rfl⟩
    · exact ⟨6, rfl⟩
  refine ⟨fun pos h => ⟨release_spec hL h, allocate_spec hL h⟩, ?_⟩
  by_cases hexists : ∃ pos, IsRegion bits order pos ∧ Free map pos order
  · exact iff_of_true (find_free hL hbits hexists) (.inr hexists)
  have hnone : ∀ p, IsRegion bits order p → ¬ Free map p order :=
    fun p hregion hfree => hexists ⟨p, hregion, hfree⟩
  rw [or_iff_left hexists]
  constructor
  · rintro ⟨fuel, hfinds⟩
    by_contra hover
    exact find_overflow hw hbits horder (Nat.not_lt.mp hover) hnone fuel hfinds
  · intro hfits
    exact ⟨_, .inr ⟨hnone, find_none hL hfits hnone⟩⟩

/-- A region of two words in a bitmap of 100 bits, of which the first is set. -/
theorem region_allocator_iff_hundred :
    (∃ fuel, FindsLeast (fun k => if k = 0 then 1#32 else 0#32) 100 6
      (bitmapFindFreeRegion fuel (fun k => if k = 0 then 1#32 else 0#32) 100 6)) :=
  (region_allocator_iff (Or.inl rfl) (by decide) (by decide)
    fun k => if k = 0 then 1#32 else 0#32).2.mpr (Or.inl (by decide))

theorem not_free_full (hpos : 0 < w) :
    ¬ Free (fun _ => BitVec.allOnes w) pos order := by
  intro hfree
  have hbit := hfree pos ⟨Nat.le_refl pos, Nat.lt_add_of_pos_right (Nat.two_pow_pos order)⟩
  rw [bitAt, BitVec.getLsbD_allOnes, decide_eq_true (Nat.mod_lt pos hpos)] at hbit
  cases hbit

/-- A full bitmap of the greatest size has no free region, and the search goes past its end. -/
theorem region_allocator_overflow :
    ¬ ∀ (map : Nat → BitVec 32) (bits order : Nat), bits < 2 ^ 31 → 2 ^ order ≤ bits →
      ∃ fuel, FindsLeast map bits order (bitmapFindFreeRegion fuel map bits order) := by
  intro hall
  obtain ⟨fuel, hfinds⟩ :=
    hall (fun _ => BitVec.allOnes 32) (2 ^ 31 - 1) 0 (by decide) (by decide)
  exact find_overflow (.inl rfl) (by decide) (by decide) (by decide)
    (fun _ _ => not_free_full (by decide)) fuel hfinds

end AndroidKernel.Bitmaps
