import AndroidKernel.Library.Tilings
import AndroidKernel.Pmem.Model

/-!
# Blocks of the pmem allocator

`Buddies pmem blocks` is the invariant of a bitmap: the blocks tile the region, each at a
multiple of its size, and no entry inside a block is marked allocated. What else stale entries
hold does not matter: the place of a buddy inside the region is always the start of a block.
-/

namespace AndroidKernel.Pmem

open Library

/-- The blocks tile the region, aligned, and only they may be allocated. -/
structure Buddies (pmem : PmemInfo) (blocks : List Nat) : Prop where
  tiles : Tiles (fun block => 2 ^ pmem.order block) 0 pmem.numEntries blocks
  aligned : ∀ block ∈ blocks, 2 ^ pmem.order block ∣ block
  heads : ∀ index, pmem.isFree index = false → index ∈ blocks
  small : pmem.numEntries < 2 ^ 20

/-- The later bitmap of the same region differs in the orders of free blocks only. -/
structure Reordered (pmem after : PmemInfo) : Prop where
  size : after.size = pmem.size
  numEntries : after.numEntries = pmem.numEntries
  noAllocator : after.noAllocator = pmem.noAllocator
  allocated : after.allocated = pmem.allocated
  isFree : ∀ index, after.isFree index = pmem.isFree index
  order : ∀ index, pmem.isFree index = false → after.order index = pmem.order index

variable {pmem after last : PmemInfo} {blocks : List Nat} {index k : Nat}

theorem Reordered.refl (pmem : PmemInfo) : Reordered pmem pmem :=
  ⟨rfl, rfl, rfl, rfl, fun _ => rfl, fun _ _ => rfl⟩

theorem Reordered.trans (h : Reordered pmem after) (h' : Reordered after last) :
    Reordered pmem last where
  size := h'.size.trans h.size
  numEntries := h'.numEntries.trans h.numEntries
  noAllocator := h'.noAllocator.trans h.noAllocator
  allocated := h'.allocated.trans h.allocated
  isFree index := (h'.isFree index).trans (h.isFree index)
  order index hbusy := (h'.order index ((h.isFree index).trans hbusy)).trans (h.order index hbusy)

/-- A read inside the region. -/
theorem bits_eq (h : index < pmem.numEntries) : pmem.bits index = some (pmem.bitmap index) :=
  if_pos h

/-- An assignment to the order of a free entry inside the region. -/
theorem setOrder_spec (h : index < pmem.numEntries) (hk : k < 2 ^ 7)
    (hfree : pmem.isFree index = true) :
    ∃ after, pmem.setOrder index k = some after ∧ Reordered pmem after ∧
      after.order index = k ∧ ∀ other, other ≠ index → after.order other = pmem.order other := by
  have hother : ∀ other, other ≠ index →
      (Function.update pmem.bitmap index
        { pmem.bitmap index with order := k % 2 ^ 7 } other).order = pmem.order other := by
    intro other hne
    simp [PmemInfo.order, hne]
  refine ⟨_, if_pos h, ⟨rfl, rfl, rfl, rfl, fun other => ?_, fun other hbusy => ?_⟩, ?_, hother⟩
  · by_cases heq : other = index
    · simp [PmemInfo.isFree, heq]
    · simp [PmemInfo.isFree, heq]
  · refine hother other ?_
    rintro rfl
    rw [hfree] at hbusy
    exact absurd hbusy (by simp)
  · simpa [PmemInfo.order] using Nat.mod_eq_of_lt hk

/-- A block lies inside the region, so its order is below 20. -/
theorem Buddies.bounds (h : Buddies pmem blocks) (hmem : index ∈ blocks) :
    index + 2 ^ pmem.order index ≤ pmem.numEntries ∧ index < pmem.numEntries ∧
      pmem.order index < 20 := by
  have hbounds := h.tiles.bounds hmem
  have hsmall := h.small
  refine ⟨hbounds.2.2, by omega, ?_⟩
  have hpow : 2 ^ pmem.order index < 2 ^ 20 := by omega
  exact (Nat.pow_lt_pow_iff_right (by omega)).mp hpow

/-- One halving of a free block: both halves are blocks. -/
theorem split_block (h : Buddies pmem blocks) (hmem : index ∈ blocks)
    (hfree : pmem.isFree index = true) (horder : pmem.order index = k + 1) :
    ∃ mid after blocks', pmem.setOrder index k = some mid ∧ index < mid.numEntries ∧
      mid.order index = k ∧ mid.setOrder (index ^^^ 2 ^ k) k = some after ∧
      Reordered pmem after ∧ after.order index = k ∧ Buddies after blocks' ∧ index ∈ blocks' := by
  obtain ⟨hend, hlt, hk⟩ := h.bounds hmem
  have haligned := h.aligned index hmem
  rw [horder] at hend hk haligned
  have hhalf := Nat.two_pow_pos k
  rw [Nat.pow_succ'] at hend
  have hbuddy : index ^^^ 2 ^ k = index + 2 ^ k := xor_two_pow_of_dvd haligned
  -- the upper half starts inside the block: it is no block, hence not allocated
  have hinner : index + 2 ^ k ∉ blocks := by
    intro hin
    have hdisjoint := h.tiles.disjoint hmem hin (by omega)
    simp only [horder, Nat.pow_succ'] at hdisjoint
    omega
  have hbuddyFree : pmem.isFree (index + 2 ^ k) = true := by
    by_contra hbusy
    exact hinner (h.heads _ (by simpa using hbusy))
  obtain ⟨mid, hmid, hsame, hmidOrder, hmidOther⟩ := setOrder_spec (k := k) hlt (by omega) hfree
  obtain ⟨after, hafter, hsame', hafterOrder, hafterOther⟩ :=
    @setOrder_spec mid (index + 2 ^ k) k
      (by rw [hsame.numEntries]; omega) (by omega) ((hsame.isFree _).trans hbuddyFree)
  have hall := hsame.trans hsame'
  have hindex : after.order index = k := (hafterOther index (by omega)).trans hmidOrder
  have hrest : ∀ other ∈ blocks, other ≠ index → after.order other = pmem.order other := by
    intro other hother hne
    have hne' : other ≠ index + 2 ^ k := fun heq => hinner (heq ▸ hother)
    exact (hafterOther other hne').trans (hmidOther other hne)
  obtain ⟨blocks', htiles, hblocks⟩ := @Tiles.split _ (fun block => 2 ^ after.order block) _ _ _
    h.tiles _ hmem (Nat.two_pow_pos _) (Nat.two_pow_pos _)
    (by simp only [hindex, hafterOrder, horder, Nat.pow_succ']; omega)
    (fun other hother hne => by simp only [hrest other hother hne])
  simp only [hindex] at hblocks
  refine ⟨mid, after, blocks', hmid, hsame.numEntries ▸ hlt, hmidOrder, hbuddy ▸ hafter, hall,
    hindex, ⟨hall.numEntries ▸ htiles, fun block hblock => ?_, fun other hbusy => ?_,
      hall.numEntries ▸ h.small⟩, (hblocks index).mpr (.inl hmem)⟩
  · rcases (hblocks block).mp hblock with hold | rfl
    · by_cases heq : block = index
      · rw [heq, hindex]
        exact (pow_dvd_pow 2 (Nat.le_succ k)).trans haligned
      · rw [hrest block hold heq]
        exact h.aligned block hold
    · rw [hafterOrder]
      exact Nat.dvd_add ((pow_dvd_pow 2 (Nat.le_succ k)).trans haligned) dvd_rfl
  · exact (hblocks other).mpr (.inl (h.heads other ((hall.isFree other).symm.trans hbusy)))

/-- The partition of a free block ends with a block of the order asked for. -/
theorem splitLoop_spec {order fuel : Nat} (h : Buddies pmem blocks) (hmem : index ∈ blocks)
    (hfree : pmem.isFree index = true) (hle : order ≤ pmem.order index)
    (hfuel : pmem.order index < order + fuel) :
    ∃ after blocks', splitLoop order index fuel pmem = some after ∧ Reordered pmem after ∧
      after.order index = order ∧ Buddies after blocks' ∧ index ∈ blocks' := by
  induction fuel generalizing pmem blocks with
  | zero => omega
  | succ fuel ih =>
    have hread := bits_eq (h.bounds hmem).2.1
    by_cases hlarge : pmem.order index > order
    · obtain ⟨k, horder⟩ : ∃ k, pmem.order index = k + 1 := ⟨pmem.order index - 1, by omega⟩
      obtain ⟨mid, half, blocks', hmid, hlt, hmidOrder, hhalf, hsame, hindex, hhalves, hmem'⟩ :=
        split_block h hmem hfree horder
      obtain ⟨after, last, hloop, hsame', hrest⟩ :=
        ih hhalves hmem' ((hsame.isFree index).trans hfree) (by omega) (by omega)
      refine ⟨after, last, ?_, hsame.trans hsame', hrest⟩
      have hgt : (pmem.bitmap index).order > order := hlarge
      have hpred : (pmem.bitmap index).order - 1 = k := by
        show pmem.order index - 1 = k
        omega
      have hmidBits : (mid.bitmap index).order = k := hmidOrder
      simp only [splitLoop, hread, Option.bind_eq_bind, Option.bind_some, if_pos hgt, hpred,
        hmid, bits_eq hlt, hmidBits, hhalf, hloop]
    · have heq : pmem.order index = order := by omega
      refine ⟨pmem, blocks, ?_, .refl pmem, heq, h, hmem⟩
      have hgt : ¬ (pmem.bitmap index).order > order := hlarge
      simp only [splitLoop, hread, Option.bind_eq_bind, Option.bind_some, if_neg hgt,
        Option.pure_def]

/-- One merge of a free block with its free buddy of the same order. -/
theorem merge_block (h : Buddies pmem blocks) (hmem : index ∈ blocks)
    (hfree : pmem.isFree index = true) (horder : pmem.order index = k)
    (hlt : index ^^^ 2 ^ k < pmem.numEntries) (hbuddyFree : pmem.isFree (index ^^^ 2 ^ k) = true)
    (hbuddyOrder : pmem.order (index ^^^ 2 ^ k) = k) :
    ∃ mid after blocks', pmem.setOrder (index ^^^ 2 ^ k) (k + 1) = some mid ∧
      index < mid.numEntries ∧ mid.order index = k ∧ mid.setOrder index (k + 1) = some after ∧
      Reordered pmem after ∧ Buddies after blocks' ∧ min (index ^^^ 2 ^ k) index ∈ blocks' ∧
      after.order (min (index ^^^ 2 ^ k) index) = k + 1 ∧
      index < min (index ^^^ 2 ^ k) index + 2 ^ (k + 1) := by
  obtain ⟨-, hindex, hk⟩ := h.bounds hmem
  have haligned := h.aligned index hmem
  rw [horder] at hk haligned
  obtain ⟨pair, hpair, hcases⟩ := buddy_cases haligned
  have hhalf := Nat.two_pow_pos k
  have hdouble : 2 ^ (k + 1) = 2 * 2 ^ k := Nat.pow_succ'
  have hbuddyMem : index ^^^ 2 ^ k ∈ blocks := by
    have hin := h.tiles.buddy_mem h.aligned hmem
    rw [horder] at hin
    exact hin hlt
  obtain ⟨mid, hmid, hsame, hmidOrder, hmidOther⟩ :=
    setOrder_spec (k := k + 1) hlt (by omega) hbuddyFree
  obtain ⟨after, hafter, hsame', hafterOrder, hafterOther⟩ :=
    @setOrder_spec mid index (k + 1) (hsame.numEntries ▸ hindex)
      (by omega) ((hsame.isFree _).trans hfree)
  have hall := hsame.trans hsame'
  have hne : index ^^^ 2 ^ k ≠ index := by omega
  have hbuddyAfter : after.order (index ^^^ 2 ^ k) = k + 1 :=
    (hafterOther _ hne).trans hmidOrder
  have hrest : ∀ other, other ≠ index → other ≠ index ^^^ 2 ^ k →
      after.order other = pmem.order other :=
    fun other hother hother' => (hafterOther other hother).trans (hmidOther other hother')
  generalize hbuddy : index ^^^ 2 ^ k = buddy at *
  -- the lower of the two heads the merged block, the upper is no longer a block
  have hlow : pair = min buddy index ∧ pair + 2 ^ k = max buddy index := by omega
  have hpairMem : pair ∈ blocks ∧ pair + 2 ^ k ∈ blocks ∧ pmem.order pair = k ∧
      pmem.order (pair + 2 ^ k) = k ∧ after.order pair = k + 1 := by
    rcases hcases with ⟨rfl, rfl⟩ | ⟨rfl, rfl⟩
    · exact ⟨hmem, hbuddyMem, horder, hbuddyOrder, hafterOrder⟩
    · exact ⟨hbuddyMem, hmem, hbuddyOrder, horder, hbuddyAfter⟩
  obtain ⟨hpairIn, hupperIn, hpairOrder, hupperOrder, hpairAfter⟩ := hpairMem
  obtain ⟨blocks', htiles, hblocks⟩ :=
    @Tiles.merge _ (fun block => 2 ^ after.order block) _ _ _ h.tiles _ hpairIn
      (by simpa only [hpairOrder] using hupperIn)
      (by simp only [hpairOrder, hupperOrder, hpairAfter]; omega)
      (fun other _ hother hother' => by
        simp only [hpairOrder] at hother'
        simp only [hrest other (by omega) (by omega)])
  simp only [hpairOrder] at hblocks
  refine ⟨mid, after, blocks', hmid, hsame.numEntries ▸ hindex,
    (hmidOther index (Ne.symm hne)).trans horder, hafter, hall,
    ⟨hall.numEntries ▸ htiles, fun block hblock => ?_, fun other hbusy => ?_,
      hall.numEntries ▸ h.small⟩, hlow.1 ▸ (hblocks pair).mpr ⟨hpairIn, by omega⟩,
    hlow.1 ▸ hpairAfter, by omega⟩
  · obtain ⟨hold, hupper⟩ := (hblocks block).mp hblock
    by_cases heq : block = pair
    · rw [heq, hpairAfter]
      exact hpair
    · rw [hrest block (by omega) (by omega)]
      exact h.aligned block hold
  have hother : pmem.isFree other = false := (hall.isFree other).symm.trans hbusy
  refine (hblocks other).mpr ⟨h.heads other hother, ?_⟩
  have hboth : other ≠ index ∧ other ≠ buddy := by
    constructor
    · rintro rfl
      exact absurd (hfree.symm.trans hother) (by simp)
    · rintro rfl
      exact absurd (hbuddyFree.symm.trans hother) (by simp)
  omega

/-- The start of the last of the blocks a region is laid out in: the number of entries with its
lowest set bit cleared. -/
def lastBlock (numEntries : Nat) : Nat := numEntries &&& (numEntries - 1)

/-- The last block is the one whose buddy would lie past the end. -/
theorem lastBlock_eq (h : 2 ^ (k + 1) ∣ index) : lastBlock (index + 2 ^ k) = index := by
  obtain ⟨m, rfl⟩ := h
  have hhalf := Nat.two_pow_pos k
  have hdouble : 2 ^ (k + 1) = 2 * 2 ^ k := Nat.pow_succ'
  have hpred : 2 ^ (k + 1) * m + 2 ^ k - 1 = 2 ^ (k + 1) * m + (2 ^ k - 1) := by omega
  refine Nat.eq_of_testBit_eq fun i => ?_
  have hzero := Nat.testBit_two_pow_mul_add m (show 0 < 2 ^ (k + 1) by omega) i
  rw [lastBlock, hpred, Nat.testBit_and,
    Nat.testBit_two_pow_mul_add m (show 2 ^ k < 2 ^ (k + 1) by omega),
    Nat.testBit_two_pow_mul_add m (show 2 ^ k - 1 < 2 ^ (k + 1) by omega)]
  simp only [Nat.add_zero] at hzero
  rw [hzero]
  by_cases hi : i < k + 1
  · simp only [if_pos hi, Nat.testBit_two_pow, Nat.testBit_two_pow_sub_one, Nat.zero_testBit]
    by_cases heq : k = i
    · simp [heq]
    · simp [heq]
  · simp only [if_neg hi, Bool.and_self]

/-- The merges stay inside the region while they leave out a part of the last block: the block
freed last, or another that is not free, lies at or above it. -/
theorem buddy_lt (h : Buddies pmem blocks) (hmem : index ∈ blocks)
    (hfree : pmem.isFree index = true) {freed : Nat} (hle : index ≤ freed)
    (hstop : freed < lastBlock pmem.numEntries ∨
      ∃ other, lastBlock pmem.numEntries ≤ other ∧ pmem.isFree other = false) :
    index ^^^ 2 ^ pmem.order index < pmem.numEntries := by
  obtain ⟨hend, hlt, -⟩ := h.bounds hmem
  have hhalf := Nat.two_pow_pos (pmem.order index)
  obtain ⟨pair, hpair, ⟨heq, hbuddy⟩ | ⟨heq, hbuddy⟩⟩ := buddy_cases (h.aligned index hmem)
  · by_contra hout
    have hlast : lastBlock pmem.numEntries = index := by
      rw [show pmem.numEntries = index + 2 ^ pmem.order index by omega]
      exact lastBlock_eq (heq ▸ hpair)
    rw [hlast] at hstop
    rcases hstop with hbelow | ⟨other, habove, hbusy⟩
    · omega
    · have hother := h.heads other hbusy
      rcases Nat.lt_or_eq_of_le habove with hgt | rfl
      · have hdisjoint := h.tiles.disjoint hmem hother hgt
        have hbounds := h.bounds hother
        omega
      · exact absurd (hfree.symm.trans hbusy) (by simp)
  · omega

/-- The merge loop leaves a bitmap with fewer, larger free blocks. -/
theorem freeLoop_spec {fuel freed : Nat} (h : Buddies pmem blocks) (hmem : index ∈ blocks)
    (hfree : pmem.isFree index = true) (hle : index ≤ freed)
    (hstop : freed < lastBlock pmem.numEntries ∨
      ∃ other, lastBlock pmem.numEntries ≤ other ∧ pmem.isFree other = false)
    (hfuel : 20 ≤ pmem.order index + fuel) :
    ∃ after blocks', freeLoop fuel index pmem = some after ∧ Reordered pmem after ∧
      Buddies after blocks' := by
  induction fuel generalizing pmem blocks index with
  | zero =>
    have hbounds := h.bounds hmem
    omega
  | succ fuel ih =>
    have hlt := buddy_lt h hmem hfree hle hstop
    have hread := bits_eq (h.bounds hmem).2.1
    have hbuddyRead := bits_eq hlt
    by_cases hmerge : pmem.isFree (index ^^^ 2 ^ pmem.order index) = true ∧
        pmem.order (index ^^^ 2 ^ pmem.order index) = pmem.order index
    · obtain ⟨mid, larger, blocks', hmid, hindex, hmidOrder, hlarger, hsame, hblocks, hmem',
        hminOrder, -⟩ := merge_block h hmem hfree rfl hlt hmerge.1 hmerge.2
      have hminFree : larger.isFree (min (index ^^^ 2 ^ pmem.order index) index) = true := by
        rw [hsame.isFree]
        rcases Nat.le_total (index ^^^ 2 ^ pmem.order index) index with hbelow | hbelow
        · rw [Nat.min_eq_left hbelow]
          exact hmerge.1
        · rw [Nat.min_eq_right hbelow]
          exact hfree
      have hstop' : freed < lastBlock larger.numEntries ∨
          ∃ other, lastBlock larger.numEntries ≤ other ∧ larger.isFree other = false := by
        simpa only [hsame.numEntries, hsame.isFree] using hstop
      obtain ⟨after, last, hloop, hsame', hlast⟩ :=
        ih hblocks hmem' hminFree ((Nat.min_le_right _ _).trans hle) hstop' (by omega)
      refine ⟨after, last, ?_, hsame.trans hsame', hlast⟩
      have hminLt := (hblocks.bounds hmem').2.1
      simp only [PmemInfo.isFree, PmemInfo.order] at hmerge hbuddyRead hmid hmidOrder
      simp only [PmemInfo.order] at hlarger hminLt hloop
      simp only [freeLoop, hread, hbuddyRead, Option.bind_eq_bind, Option.bind_some, hmerge.1,
        hmerge.2, hmid, bits_eq hindex, hmidOrder, hlarger, hloop, beq_self_eq_true,
        Bool.and_self, if_pos hminLt, if_true]
    · refine ⟨pmem, blocks, ?_, .refl pmem, h⟩
      simp only [PmemInfo.isFree, PmemInfo.order] at hmerge hbuddyRead
      simp only [freeLoop, hread, hbuddyRead, Option.bind_eq_bind, Option.bind_some,
        Bool.and_eq_true, beq_iff_eq, if_neg hmerge, Option.pure_def]

end AndroidKernel.Pmem
