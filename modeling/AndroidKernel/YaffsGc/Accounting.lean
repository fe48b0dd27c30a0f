import AndroidKernel.Library.Runs
import AndroidKernel.YaffsGc.Blocks
import Mathlib.Algebra.BigOperators.Ring.Finset
import Mathlib.Order.Interval.Finset.Nat

/-!
# The counters of the blocks

`yaffs_AllocateChunk`, `yaffs_DeleteChunk` and `yaffs_SoftDeleteChunk` in any order, outside garbage
collection. The counters are those of the blocks as long as no chunk that has been deleted softly is
deleted again: `accounting_exact`. The fields of a block are taken to hold its number of chunks.
-/

namespace AndroidKernel.YaffsGc

open Library

variable {α : Type} {cfg : Config} {block page chunk : Nat}

/-! ## Chunks that are deleted softly -/

/-- A device, and which pages of each block have been deleted softly. -/
structure Accounts (α : Type) where
  dev : Device α
  soft : Nat → Nat → Bool

/-- The blocks of the device. -/
def blocksOf (cfg : Config) : Finset Nat :=
  Finset.Icc cfg.internalStartBlock cfg.internalEndBlock

/-- The chunks that a block contributes to the free ones. -/
def freeChunks (cfg : Config) (bi : Block) : Int :=
  if bi.blockState = .dead then 0 else cfg.nChunksPerBlock - bi.pagesInUse + bi.softDeletions

/-- A block that agrees with its counters and with the block to allocate off. -/
structure BlockAccount (cfg : Config) (soft : Nat → Bool) (allocationBlock : Option Nat)
    (allocationPage block : Nat) (bi : Block) : Prop where
  count : bi.pagesInUse = countChunkBits bi.chunkBits cfg.nChunksPerBlock
  softCount : bi.softDeletions = countChunkBits soft cfg.nChunksPerBlock
  softInUse : ∀ page < cfg.nChunksPerBlock, soft page = true → bi.chunkBits page = true
  clear : bi.blockState = .empty ∨ bi.blockState = .dead →
    ∀ page < cfg.nChunksPerBlock, bi.chunkBits page = false
  allocating : bi.blockState = .allocating ↔ allocationBlock = some block
  pages : allocationBlock = some block → allocationPage < cfg.nChunksPerBlock ∧
    ∀ page, allocationPage ≤ page → page < cfg.nChunksPerBlock → bi.chunkBits page = false
  collecting : bi.blockState ≠ .collecting

/-- The counters of the device are those of its blocks. -/
structure Accounted (cfg : Config) (s : Accounts α) : Prop where
  blocks : ∀ block ∈ blocksOf cfg, BlockAccount cfg (s.soft block) s.dev.allocationBlock
    s.dev.allocationPage block (s.dev.blocks block)
  allocation : ∀ block, s.dev.allocationBlock = some block → block ∈ blocksOf cfg
  erased : s.dev.nErasedBlocks =
    ((blocksOf cfg).filter fun block => (s.dev.blocks block).blockState = .empty).card
  free : s.dev.nFreeChunks = ∑ block ∈ blocksOf cfg, freeChunks cfg (s.dev.blocks block)

/-! ## One block -/

/-- A total changes by what the new block contributes less what the old one did. -/
theorem sum_update {range : Finset Nat} {blocks : Nat → Block} (hblock : block ∈ range)
    (bi : Block) (F : Block → Int) :
    ∑ b ∈ range, F (Function.update blocks block bi b) =
      ∑ b ∈ range, F (blocks b) + (F bi - F (blocks block)) := by
  have hrest : ∑ b ∈ range.erase block, F (Function.update blocks block bi b) =
      ∑ b ∈ range.erase block, F (blocks b) := by
    refine Finset.sum_congr rfl fun b hb => ?_
    rw [Function.update_of_ne (Finset.ne_of_mem_erase hb)]
  rw [← Finset.add_sum_erase _ _ hblock, hrest, Function.update_self,
    ← Finset.add_sum_erase range (fun b => F (blocks b)) hblock]
  omega

def isEmpty (bi : Block) : Int :=
  if bi.blockState = .empty then 1 else 0

theorem card_empty (range : Finset Nat) (blocks : Nat → Block) :
    ((range.filter fun b => (blocks b).blockState = .empty).card : Int) =
      ∑ b ∈ range, isEmpty (blocks b) :=
  Finset.natCast_card_filter _ _

variable {s t : Accounts α} {bi : Block} {dev : Device α}

/-- One block is replaced, and the counters follow. -/
theorem Accounted.replace (h : Accounted cfg s) (hblock : block ∈ blocksOf cfg)
    (hblocks : t.dev.blocks = Function.update s.dev.blocks block bi)
    (hbi : BlockAccount cfg (t.soft block) t.dev.allocationBlock t.dev.allocationPage block bi)
    (hothers : ∀ b ∈ blocksOf cfg, b ≠ block → BlockAccount cfg (t.soft b) t.dev.allocationBlock
      t.dev.allocationPage b (s.dev.blocks b))
    (hallocation : ∀ b, t.dev.allocationBlock = some b → b ∈ blocksOf cfg)
    (herased : t.dev.nErasedBlocks =
      s.dev.nErasedBlocks + (isEmpty bi - isEmpty (s.dev.blocks block)))
    (hfree : t.dev.nFreeChunks =
      s.dev.nFreeChunks + (freeChunks cfg bi - freeChunks cfg (s.dev.blocks block))) :
    Accounted cfg t where
  blocks b hb := by
    rw [hblocks]
    by_cases heq : b = block
    · subst heq
      rw [Function.update_self]
      exact hbi
    · rw [Function.update_of_ne heq]
      exact hothers b hb heq
  allocation := hallocation
  erased := by
    rw [card_empty, hblocks, sum_update hblock, ← card_empty, ← h.erased]
    exact herased
  free := by
    rw [hblocks, sum_update hblock, ← h.free]
    exact hfree

/-- Nothing that is counted changes. -/
theorem Accounted.of_same (h : Accounted cfg s) (hsoft : t.soft = s.soft)
    (hblocks : t.dev.blocks = s.dev.blocks)
    (hallocation : t.dev.allocationBlock = s.dev.allocationBlock)
    (hpage : t.dev.allocationPage = s.dev.allocationPage)
    (herased : t.dev.nErasedBlocks = s.dev.nErasedBlocks)
    (hfree : t.dev.nFreeChunks = s.dev.nFreeChunks) : Accounted cfg t where
  blocks b hb := by
    rw [hsoft, hblocks, hallocation, hpage]
    exact h.blocks b hb
  allocation := by
    rw [hallocation]
    exact h.allocation
  erased := by
    rw [herased, hblocks]
    exact h.erased
  free := by
    rw [hfree, hblocks]
    exact h.free

theorem BlockAccount.soft_eq_zero {soft : Nat → Bool} {allocationBlock : Option Nat}
    {allocationPage : Nat} (h : BlockAccount cfg soft allocationBlock allocationPage block bi)
    (hcount : bi.pagesInUse = 0) :
    (∀ page < cfg.nChunksPerBlock, bi.chunkBits page = false) ∧
      countChunkBits soft cfg.nChunksPerBlock = 0 ∧ bi.softDeletions = 0 := by
  have hclear := countChunkBits_eq_zero.mp (Int.natCast_eq_zero.mp (h.count.symm.trans hcount))
  have hsoft : countChunkBits soft cfg.nChunksPerBlock = 0 := by
    refine countChunkBits_eq_zero.mpr fun page hpage => Bool.eq_false_iff.mpr fun hset => ?_
    have hbit := h.softInUse page hpage hset
    rw [hclear page hpage] at hbit
    cases hbit
  refine ⟨hclear, hsoft, ?_⟩
  rw [h.softCount, hsoft]
  rfl

/-! ## Erasing and deleting -/

/-- A block without chunks in use is erased or retired. -/
theorem Accounted.blockBecameDirty (h : Accounted cfg s) (hblock : block ∈ blocksOf cfg)
    (hmanaged : (s.dev.blocks block).blockState.managed = true)
    (hallocating : (s.dev.blocks block).blockState ≠ .allocating)
    (hcount : (s.dev.blocks block).pagesInUse = 0) :
    Accounted cfg { s with dev := YaffsGc.blockBecameDirty cfg s.dev block } := by
  have hok := h.blocks block hblock
  obtain ⟨hclear, hsoft, hzero⟩ := hok.soft_eq_zero hcount
  have hnot : s.dev.allocationBlock ≠ some block := fun heq => hallocating (hok.allocating.mpr heq)
  have hdead : (s.dev.blocks block).blockState ≠ .dead := fun heq => by
    rw [heq] at hmanaged
    cases hmanaged
  have hempty : (s.dev.blocks block).blockState ≠ .empty := fun heq => by
    rw [heq] at hmanaged
    cases hmanaged
  have hold : freeChunks cfg (s.dev.blocks block) = cfg.nChunksPerBlock := by
    rw [freeChunks, if_neg hdead, hcount, hzero, Int.sub_zero, Int.add_zero]
  have hnone : isEmpty (s.dev.blocks block) = 0 := if_neg hempty
  obtain ⟨results, heq | heq⟩ := blockBecameDirty_cases cfg s.dev block
  · rw [heq]
    have hbits : countChunkBits (YaffsGc.erased (s.dev.blocks block)).chunkBits
        cfg.nChunksPerBlock = 0 := countChunkBits_eq_zero.mpr fun _ _ => rfl
    refine h.replace hblock rfl ⟨?_, ?_, ?_, fun _ _ _ => rfl, ?_, fun halloc => absurd halloc hnot,
      nofun⟩ (fun b hb _ => h.blocks b hb) h.allocation ?_ ?_
    · rw [hbits]
      rfl
    · show (0 : Int) = _
      rw [hsoft]
      rfl
    · intro page hpage hset
      rw [countChunkBits_eq_zero.mp hsoft page hpage] at hset
      cases hset
    · exact ⟨nofun, fun halloc => absurd halloc hnot⟩
    · show s.dev.nErasedBlocks + 1 = s.dev.nErasedBlocks + (1 - isEmpty (s.dev.blocks block))
      rw [hnone]
      rfl
    · show s.dev.nFreeChunks =
        s.dev.nFreeChunks + (cfg.nChunksPerBlock - 0 + 0 - freeChunks cfg (s.dev.blocks block))
      rw [hold]
      omega
  rw [heq]
  refine h.replace hblock rfl ⟨hok.count, hok.softCount, hok.softInUse, fun _ => hclear, ?_,
    fun halloc => absurd halloc hnot, nofun⟩ (fun b hb _ => h.blocks b hb) h.allocation ?_ ?_
  · exact ⟨nofun, fun halloc => absurd halloc hnot⟩
  · show s.dev.nErasedBlocks = s.dev.nErasedBlocks + (0 - isEmpty (s.dev.blocks block))
    rw [hnone]
    omega
  · show s.dev.nFreeChunks - cfg.nChunksPerBlock =
      s.dev.nFreeChunks + (0 - freeChunks cfg (s.dev.blocks block))
    rw [hold]
    omega

/-- A chunk of the device that is in use and has not been deleted softly. -/
structure Live (cfg : Config) (s : Accounts α) (chunk : Nat) : Prop where
  block : chunk / cfg.nChunksPerBlock ∈ blocksOf cfg
  inUse : inUse cfg s.dev chunk = true
  soft : s.soft (chunk / cfg.nChunksPerBlock) (chunk % cfg.nChunksPerBlock) = false

theorem Live.ne_zero (h : Live cfg s chunk) : chunk ≠ 0 := by
  rintro rfl
  have hstart := (Finset.mem_Icc.mp h.block).1
  have hpos := cfg.internalStartBlock_pos
  rw [Nat.zero_div] at hstart
  omega

theorem managed_ne {state : BlockState} (h : state.managed = true) :
    state ≠ .empty ∧ state ≠ .dead := by
  constructor
  · rintro rfl
    cases h
  · rintro rfl
    cases h

theorem Accounted.cleared (h : Accounted cfg s) (hlive : Live cfg s chunk)
    (hmanaged : (s.dev.blocks (chunk / cfg.nChunksPerBlock)).blockState.managed = true) :
    Accounted cfg { s with dev := clearedDevice cfg s.dev chunk } := by
  have hok := h.blocks _ hlive.block
  obtain ⟨hempty, hdead⟩ := managed_ne hmanaged
  refine h.replace hlive.block rfl ⟨?_, hok.softCount, fun page hpage hset => ?_, ?_,
    hok.allocating, fun halloc => ?_, hok.collecting⟩ (fun b hb _ => h.blocks b hb) h.allocation
    ?_ ?_
  · exact cleared_count (page_lt cfg chunk) hlive.inUse hok.count
  · have hne : page ≠ chunk % cfg.nChunksPerBlock := by
      rintro rfl
      have hset : s.soft _ _ = true := hset
      rw [hlive.soft] at hset
      cases hset
    rw [cleared_bit_of_ne hne]
    exact hok.softInUse page hpage hset
  · rintro (heq | heq)
    · exact absurd heq hempty
    · exact absurd heq hdead
  · obtain ⟨hpage, hfree⟩ := hok.pages halloc
    refine ⟨hpage, fun page hle hlt => Bool.eq_false_iff.mpr fun hbit => ?_⟩
    have hset := cleared_bit_imp hbit
    rw [hfree page hle hlt] at hset
    cases hset
  · show s.dev.nErasedBlocks = s.dev.nErasedBlocks + (isEmpty (s.dev.blocks _) - _)
    rw [Int.sub_self, Int.add_zero]
  have hnew : freeChunks cfg (YaffsGc.cleared (s.dev.blocks (chunk / cfg.nChunksPerBlock))
      (chunk % cfg.nChunksPerBlock)) =
      freeChunks cfg (s.dev.blocks (chunk / cfg.nChunksPerBlock)) + 1 := by
    rw [freeChunks, freeChunks, if_neg hdead, if_neg (show
      (YaffsGc.cleared (s.dev.blocks (chunk / cfg.nChunksPerBlock)) _).blockState ≠ _ from hdead)]
    simp only [YaffsGc.cleared]
    omega
  show s.dev.nFreeChunks + 1 = s.dev.nFreeChunks + _
  rw [hnew]
  omega

/-- A chunk that has not been deleted softly is deleted. -/
theorem Accounted.deleteChunk (h : Accounted cfg s) (hlive : Live cfg s chunk) :
    Accounted cfg { s with dev := YaffsGc.deleteChunk cfg s.dev chunk } := by
  by_cases hmanaged : (s.dev.blocks (chunk / cfg.nChunksPerBlock)).blockState.managed = true
  · have hcleared := h.cleared hlive hmanaged
    by_cases hdirty : becomesDirty (s.dev.blocks (chunk / cfg.nChunksPerBlock))
    · rw [deleteChunk_of_managed hlive.ne_zero hmanaged hdirty]
      have hblock : (clearedDevice cfg s.dev chunk).blocks (chunk / cfg.nChunksPerBlock) =
          YaffsGc.cleared (s.dev.blocks (chunk / cfg.nChunksPerBlock))
            (chunk % cfg.nChunksPerBlock) := cleared_block
      obtain ⟨hzero, _, hallocating, _⟩ := hdirty
      refine hcleared.blockBecameDirty hlive.block ?_ ?_ ?_
      · rw [hblock]
        exact hmanaged
      · rw [hblock]
        exact hallocating
      · rw [hblock]
        exact hzero
    · rw [deleteChunk_of_not_dirty hlive.ne_zero hmanaged hdirty]
      exact hcleared
  · rw [deleteChunk_of_not_managed hmanaged]
    exact h

/-- The device after a chunk is deleted softly. -/
def softDelete (cfg : Config) (s : Accounts α) (chunk : Nat) : Accounts α where
  dev := softDeleteChunk cfg s.dev chunk
  soft := Function.update s.soft (chunk / cfg.nChunksPerBlock)
    (Function.update (s.soft (chunk / cfg.nChunksPerBlock)) (chunk % cfg.nChunksPerBlock) true)

theorem Accounted.softDelete (h : Accounted cfg s) (hlive : Live cfg s chunk) :
    Accounted cfg (softDelete cfg s chunk) := by
  have hok := h.blocks _ hlive.block
  have hpage := page_lt cfg chunk
  have hsoft : (YaffsGc.softDelete cfg s chunk).soft (chunk / cfg.nChunksPerBlock) =
      Function.update (s.soft (chunk / cfg.nChunksPerBlock)) (chunk % cfg.nChunksPerBlock) true :=
    Function.update_self ..
  have hdead : (s.dev.blocks (chunk / cfg.nChunksPerBlock)).blockState ≠ .dead := by
    intro hdead
    have hbit : (s.dev.blocks _).chunkBits _ = true := hlive.inUse
    rw [hok.clear (.inr hdead) _ hpage] at hbit
    cases hbit
  refine h.replace hlive.block rfl ⟨hok.count, ?_, fun page hlt hset => ?_, hok.clear,
    hok.allocating, hok.pages, hok.collecting⟩ (fun b hb hne => ?_) h.allocation ?_ ?_
  · have hupdate := @countChunkBits_update (s.soft (chunk / cfg.nChunksPerBlock)) _ _ hpage true
    rw [hlive.soft, if_neg Bool.false_ne_true, if_pos rfl] at hupdate
    have hbefore := hok.softCount
    rw [hsoft]
    dsimp only
    omega
  · rw [hsoft] at hset
    by_cases heq : page = chunk % cfg.nChunksPerBlock
    · rw [heq]
      exact hlive.inUse
    · rw [Function.update_of_ne heq] at hset
      exact hok.softInUse page hlt hset
  · have hother : (YaffsGc.softDelete cfg s chunk).soft b = s.soft b := Function.update_of_ne hne ..
    rw [hother]
    exact h.blocks b hb
  · show s.dev.nErasedBlocks = s.dev.nErasedBlocks + (isEmpty (s.dev.blocks _) - _)
    rw [Int.sub_self, Int.add_zero]
  · show s.dev.nFreeChunks + 1 = s.dev.nFreeChunks + _
    rw [freeChunks, freeChunks, if_neg hdead, if_neg hdead]
    dsimp only
    omega

/-! ## Allocating -/

/-- What opening a block to allocate off leaves: no chunk comes into use. -/
structure OpenedAccount (cfg : Config) (s : Accounts α) (dev : Device α) : Prop where
  accounted : Accounted cfg { s with dev := dev }
  bits : ∀ b, (dev.blocks b).chunkBits = (s.dev.blocks b).chunkBits

theorem Accounted.unopened (h : Accounted cfg s) (hnone : s.dev.allocationBlock = none) :
    OpenedAccount cfg s (Device.opened (none, s.dev)) where
  accounted := by
    refine ⟨fun b hb => ?_, nofun, h.erased, h.free⟩
    have hok := h.blocks b hb
    rw [hnone] at hok
    exact ⟨hok.count, hok.softCount, hok.softInUse, hok.clear, hok.allocating, nofun,
      hok.collecting⟩
  bits _ := rfl

theorem Accounted.opened (h : Accounted cfg s) (hnone : s.dev.allocationBlock = none)
    (hblock : block ∈ blocksOf cfg) (hempty : (s.dev.blocks block).blockState = .empty) :
    OpenedAccount cfg s (Device.opened (some block,
      { s.dev.setBlock block { s.dev.blocks block with blockState := .allocating } with
        nErasedBlocks := s.dev.nErasedBlocks - 1 })) where
  accounted := by
    have hok := h.blocks block hblock
    have hclear := hok.clear (.inl hempty)
    refine h.replace hblock rfl ⟨hok.count, hok.softCount, hok.softInUse, ?_, ⟨fun _ => rfl,
      fun _ => rfl⟩, fun _ => ⟨cfg.nChunksPerBlock_pos, fun page _ hlt => hclear page hlt⟩, nofun⟩
      (fun b hb hne => ?_) ?_ ?_ ?_
    · rintro (heq | heq)
      · cases heq
      · cases heq
    · have hother := h.blocks b hb
      have hnot : some block ≠ some b := fun heq => hne (Option.some.inj heq).symm
      rw [hnone] at hother
      exact ⟨hother.count, hother.softCount, hother.softInUse, hother.clear,
        ⟨fun hstate => absurd (hother.allocating.mp hstate) nofun,
          fun halloc => absurd halloc hnot⟩, fun halloc => absurd halloc hnot, hother.collecting⟩
    · intro b halloc
      exact Option.some.inj halloc ▸ hblock
    · have hone : isEmpty (s.dev.blocks block) = 1 := if_pos hempty
      show s.dev.nErasedBlocks - 1 = s.dev.nErasedBlocks + (0 - isEmpty (s.dev.blocks block))
      rw [hone]
      omega
    · show s.dev.nFreeChunks = s.dev.nFreeChunks + (freeChunks cfg _ - _)
      rw [freeChunks, freeChunks, hempty, if_neg nofun, if_neg nofun]
      dsimp only
      omega
  bits b := by
    show ((s.dev.setBlock block _).blocks b).chunkBits = _
    by_cases hb : b = block
    · rw [hb, setBlock_self]
    · rw [setBlock_of_ne _ hb]

theorem Accounted.findEmptyBlock (h : Accounted cfg s) (hnone : s.dev.allocationBlock = none)
    (hrange : cfg.internalStartBlock ≤ cfg.internalEndBlock) (i : Nat) :
    OpenedAccount cfg s (Device.opened (YaffsGc.findEmptyBlock cfg i s.dev)) := by
  induction i generalizing s with
  | zero => exact h.unopened hnone
  | succ i ih =>
    rw [YaffsGc.findEmptyBlock]
    generalize hfinder : (if s.dev.allocationBlockFinder + 1 < cfg.internalStartBlock ∨
      cfg.internalEndBlock < s.dev.allocationBlockFinder + 1 then cfg.internalStartBlock
      else s.dev.allocationBlockFinder + 1) = finder
    have hblock : finder ∈ blocksOf cfg := by
      refine Finset.mem_Icc.mpr ?_
      rw [← hfinder]
      split_ifs <;> omega
    have hmoved : Accounted cfg { s with
        dev := { s.dev with allocationBlockFinder := finder } } :=
      h.of_same rfl rfl rfl rfl rfl rfl
    dsimp only
    by_cases hempty : (s.dev.blocks finder).blockState = .empty
    · rw [if_pos hempty]
      obtain ⟨haccounted, hbits⟩ := hmoved.opened hnone hblock hempty
      exact ⟨haccounted, hbits⟩
    · rw [if_neg hempty]
      obtain ⟨haccounted, hbits⟩ := ih hmoved hnone
      exact ⟨haccounted, hbits⟩

theorem Accounted.openBlock (h : Accounted cfg s) :
    OpenedAccount cfg s (YaffsGc.openBlock cfg s.dev) := by
  unfold YaffsGc.openBlock
  cases hnone : s.dev.allocationBlock with
  | some block => exact ⟨h, fun _ => rfl⟩
  | none =>
    unfold findBlockForAllocation
    by_cases herased : s.dev.nErasedBlocks < 1
    · rw [if_pos herased]
      exact h.unopened hnone
    · rw [if_neg herased]
      by_cases hrange : cfg.internalStartBlock ≤ cfg.internalEndBlock
      · exact h.findEmptyBlock hnone hrange _
      · have hzero : cfg.internalEndBlock + 1 - cfg.internalStartBlock = 0 := by omega
        rw [hzero]
        exact h.unopened hnone

theorem taken_softDeletions (bi : Block) (page : Nat) :
    (taken cfg bi page).softDeletions = bi.softDeletions := by
  unfold taken
  split_ifs <;> rfl

theorem taken_bit {bi : Block} {page page' : Nat} (h : bi.chunkBits page' = true) :
    (taken cfg bi page).chunkBits page' = true := by
  rw [taken_bits]
  by_cases heq : page' = page
  · rw [heq, Function.update_self]
  · rw [Function.update_of_ne heq, h]

/-- The block that is allocated off is full with its last page. -/
theorem taken_account {soft : Nat → Bool}
    (hok : BlockAccount cfg soft (some block) page block bi) :
    BlockAccount cfg soft (if cfg.nChunksPerBlock ≤ page + 1 then none else some block) (page + 1)
      block (taken cfg bi page) := by
  obtain ⟨hpage, hfree⟩ := hok.pages rfl
  have hstate : bi.blockState = .allocating := hok.allocating.mpr rfl
  have hcount : (taken cfg bi page).pagesInUse =
      countChunkBits (taken cfg bi page).chunkBits cfg.nChunksPerBlock := by
    have hupdate := @countChunkBits_update bi.chunkBits _ _ hpage true
    rw [hfree page (Nat.le_refl page) hpage, if_neg Bool.false_ne_true, if_pos rfl] at hupdate
    have hbefore := hok.count
    rw [taken_pages, taken_bits]
    omega
  have hsoft := (@taken_softDeletions cfg bi page).trans hok.softCount
  have hinUse : ∀ p < cfg.nChunksPerBlock, soft p = true →
      (taken cfg bi page).chunkBits p = true :=
    fun p hlt hset => taken_bit (hok.softInUse p hlt hset)
  by_cases hlast : cfg.nChunksPerBlock ≤ page + 1
  · have hfull : (taken cfg bi page).blockState = .full := by
      rw [taken, if_pos hlast]
    rw [if_pos hlast]
    refine ⟨hcount, hsoft, hinUse, ?_, ?_, by rintro ⟨⟩, ?_⟩
    · rw [hfull]
      rintro (heq | heq)
      · cases heq
      · cases heq
    · rw [hfull]
      exact ⟨by rintro ⟨⟩, by rintro ⟨⟩⟩
    · rw [hfull]
      rintro ⟨⟩
  have hsame : (taken cfg bi page).blockState = .allocating := by
    rw [taken, if_neg hlast]
    exact hstate
  rw [if_neg hlast]
  refine ⟨hcount, hsoft, hinUse, ?_, ⟨fun _ => rfl, fun _ => hsame⟩,
    fun _ => ⟨Nat.lt_of_not_le hlast, fun p hle hlt => ?_⟩, ?_⟩
  · rw [hsame]
    rintro (heq | heq)
    · cases heq
    · cases heq
  · rw [taken_bits, Function.update_of_ne (by omega)]
    exact hfree p (by omega) hlt
  · rw [hsame]
    rintro ⟨⟩

/-- A block that is allocated off, or is full, is neither empty nor dead. -/
theorem taken_free (hstate : bi.blockState = .allocating) :
    freeChunks cfg (taken cfg bi page) = freeChunks cfg bi - 1 ∧
      isEmpty (taken cfg bi page) = 0 ∧ isEmpty bi = 0 := by
  have hne : (taken cfg bi page).blockState ≠ .dead ∧ (taken cfg bi page).blockState ≠ .empty := by
    unfold taken
    split_ifs
    · exact ⟨nofun, nofun⟩
    · rw [hstate]
      exact ⟨nofun, nofun⟩
  refine ⟨?_, if_neg hne.2, ?_⟩
  · rw [freeChunks, freeChunks, if_neg hne.1, hstate, if_neg nofun, taken_pages,
      taken_softDeletions]
    omega
  · rw [isEmpty, hstate, if_neg nofun]

/-- The next page of the block at hand is taken. -/
theorem Accounted.takePage (h : Accounted cfg s) (halloc : s.dev.allocationBlock = some block) :
    Accounted cfg { s with dev := YaffsGc.takePage cfg s.dev block } ∧
      inUse cfg s.dev (block * cfg.nChunksPerBlock + s.dev.allocationPage) = false := by
  have hblock := h.allocation block halloc
  have hok := h.blocks block hblock
  rw [halloc] at hok
  obtain ⟨hpage, hfree⟩ := hok.pages rfl
  obtain ⟨hfewer, hnew, hold⟩ := @taken_free cfg s.dev.allocationPage _ (hok.allocating.mpr rfl)
  constructor
  · rw [takePage_eq]
    refine h.replace hblock rfl (taken_account hok) (fun b hb hne => ?_) (fun b heq => ?_) ?_ ?_
    · have hother := h.blocks b hb
      have hbefore : s.dev.allocationBlock ≠ some b := fun heq =>
        hne (Option.some.inj (halloc.symm.trans heq)).symm
      have hnot : (if cfg.nChunksPerBlock ≤ s.dev.allocationPage + 1 then none else some block) ≠
          some b := by
        split_ifs
        · nofun
        · exact fun heq => hne (Option.some.inj heq).symm
      exact ⟨hother.count, hother.softCount, hother.softInUse, hother.clear,
        ⟨fun hs => absurd (hother.allocating.mp hs) hbefore, fun ha => absurd ha hnot⟩,
        fun ha => absurd ha hnot, hother.collecting⟩
    · dsimp only at heq
      split_ifs at heq
      exact Option.some.inj heq ▸ hblock
    · rw [hnew, hold]
      exact (Int.add_zero _).symm
    · rw [hfewer]
      dsimp only
      omega
  · obtain ⟨hdiv, hmod⟩ := chunk_div_mod block hpage
    rw [inUse, hdiv, hmod]
    exact hfree _ (Nat.le_refl _) hpage

/-- `yaffs_AllocateChunk` returns only chunks whose bit was clear. -/
theorem Accounted.allocateChunk (h : Accounted cfg s) (useReserve : Bool) :
    Accounted cfg { s with dev := (YaffsGc.allocateChunk cfg useReserve s.dev).2 } ∧
      ∀ chunk, (YaffsGc.allocateChunk cfg useReserve s.dev).1 = some chunk →
        inUse cfg s.dev chunk = false := by
  obtain ⟨haccounted, hbits⟩ := h.openBlock
  unfold YaffsGc.allocateChunk
  by_cases hspace :
      (!useReserve && !checkSpaceForAllocation cfg (YaffsGc.openBlock cfg s.dev)) = true
  · rw [if_pos hspace]
    exact ⟨haccounted, nofun⟩
  rw [if_neg hspace]
  cases halloc : (YaffsGc.openBlock cfg s.dev).allocationBlock with
  | none => exact ⟨haccounted, nofun⟩
  | some block =>
    obtain ⟨htaken, hclear⟩ := haccounted.takePage halloc
    refine ⟨htaken, fun chunk hchunk => ?_⟩
    rw [← Option.some.inj hchunk, inUse, ← hbits]
    exact hclear

/-! ## Runs -/

/-- What is done outside garbage collection. `setFlags` stands for what other functions do to the
flags of a block: a shrink header is written, or an error is noted. -/
inductive ChunkOp
  | allocateChunk (useReserve : Bool)
  | deleteChunk (chunk : Nat)
  | softDeleteChunk (chunk : Nat)
  | blockBecameDirty (block : Nat)
  | setFlags (block : Nat) (hasShrinkHeader needsRetiring gcPrioritise : Bool)

/-- The flags of a block. -/
def flagged (bi : Block) (hasShrinkHeader needsRetiring gcPrioritise : Bool) : Block :=
  { bi with hasShrinkHeader, needsRetiring, gcPrioritise }

def account (cfg : Config) (s : Accounts α) : ChunkOp → Accounts α
  | .allocateChunk useReserve => { s with dev := (allocateChunk cfg useReserve s.dev).2 }
  | .deleteChunk chunk => { s with dev := deleteChunk cfg s.dev chunk }
  | .softDeleteChunk chunk => softDelete cfg s chunk
  | .blockBecameDirty block => { s with dev := blockBecameDirty cfg s.dev block }
  | .setFlags block shrink retiring prioritise =>
    { s with
      dev := s.dev.setBlock block (flagged (s.dev.blocks block) shrink retiring prioritise) }

def AccountStep (cfg : Config) (s : Accounts α) (op : ChunkOp) (t : Accounts α) : Prop :=
  account cfg s op = t

/-- Chunks are deleted, or deleted softly, that are in use and not yet deleted softly; a block is
erased that is full but has no chunk in use. -/
def LegalOp (cfg : Config) (s : Accounts α) : ChunkOp → Prop
  | .allocateChunk _ => True
  | .deleteChunk chunk => Live cfg s chunk
  | .softDeleteChunk chunk => Live cfg s chunk
  | .blockBecameDirty block => block ∈ blocksOf cfg ∧ (s.dev.blocks block).blockState = .full ∧
      (s.dev.blocks block).pagesInUse = 0
  | .setFlags block _ _ _ => block ∈ blocksOf cfg

theorem Accounted.setFlags (h : Accounted cfg s) (hblock : block ∈ blocksOf cfg)
    (shrink retiring prioritise : Bool) :
    Accounted cfg { s with
      dev := s.dev.setBlock block (flagged (s.dev.blocks block) shrink retiring prioritise) } := by
  have hok := h.blocks block hblock
  refine h.replace hblock rfl ⟨hok.count, hok.softCount, hok.softInUse, hok.clear, hok.allocating,
    hok.pages, hok.collecting⟩ (fun b hb _ => h.blocks b hb) h.allocation ?_ ?_
  · show s.dev.nErasedBlocks = s.dev.nErasedBlocks + (isEmpty (s.dev.blocks block) - _)
    rw [Int.sub_self, Int.add_zero]
  · show s.dev.nFreeChunks = s.dev.nFreeChunks + (freeChunks cfg (s.dev.blocks block) - _)
    rw [Int.sub_self, Int.add_zero]

theorem Accounted.step (h : Accounted cfg s) {op : ChunkOp} (hlegal : LegalOp cfg s op) :
    Accounted cfg (account cfg s op) := by
  cases op with
  | allocateChunk useReserve => exact (h.allocateChunk useReserve).1
  | deleteChunk chunk => exact h.deleteChunk hlegal
  | softDeleteChunk chunk => exact h.softDelete hlegal
  | blockBecameDirty block =>
    obtain ⟨hblock, hfull, hcount⟩ := hlegal
    refine h.blockBecameDirty hblock ?_ ?_ hcount
    · rw [hfull]
      rfl
    · rw [hfull]
      nofun
  | setFlags block shrink retiring prioritise => exact h.setFlags hlegal shrink retiring prioritise

/-- In every run from an accounted device the counters are those of the blocks, the block to
allocate off is the only one in allocation, and a chunk that is allocated was not in use. -/
theorem accounting_exact (hstart : Accounted cfg s)
    (hrun : Reaches (AccountStep cfg) (LegalOp cfg) s t) :
    t.dev.nErasedBlocks =
        ((blocksOf cfg).filter fun block => (t.dev.blocks block).blockState = .empty).card ∧
      (∀ block ∈ blocksOf cfg, (t.dev.blocks block).pagesInUse =
        countChunkBits (t.dev.blocks block).chunkBits cfg.nChunksPerBlock) ∧
      (∀ block ∈ blocksOf cfg, (t.dev.blocks block).blockState = .allocating →
        t.dev.allocationBlock = some block) ∧
      (∀ useReserve chunk, (allocateChunk cfg useReserve t.dev).1 = some chunk →
        inUse cfg t.dev chunk = false) ∧
      t.dev.nFreeChunks = ∑ block ∈ blocksOf cfg,
        if (t.dev.blocks block).blockState = .dead then 0
        else cfg.nChunksPerBlock - (t.dev.blocks block).pagesInUse +
          (t.dev.blocks block).softDeletions := by
  have h : Accounted cfg t := by
    refine hrun.invariant (Accounted cfg) ?_ hstart
    rintro s op _ hs hop rfl
    exact hs.step hop
  exact ⟨h.erased, fun block hblock => (h.blocks block hblock).count,
    fun block hblock => (h.blocks block hblock).allocating.mp,
    fun useReserve => (h.allocateChunk useReserve).2, h.free⟩

/-! ## A device that has been erased -/

/-- A block that has been erased and never written. -/
def freshBlock : Block where
  blockState := .empty
  chunkBits _ := false
  pagesInUse := 0
  softDeletions := 0
  hasShrinkHeader := false
  needsRetiring := false
  gcPrioritise := false
  skipErasedCheck := true
  chunkErrorStrikes := 0

/-- A device all of whose blocks are erased. -/
def freshDevice (cfg : Config) (results : Nat → Bool) : Accounts Unit where
  dev :=
    { blocks := fun _ => freshBlock
      nand := fun _ => none
      nErasedBlocks := (blocksOf cfg).card
      nFreeChunks := (blocksOf cfg).card * cfg.nChunksPerBlock
      checkpointBlockAdjust := 0
      allocationBlock := none
      allocationPage := 0
      allocationBlockFinder := 0
      results := results }
  soft _ _ := false

theorem freshDevice_accounted (cfg : Config) (results : Nat → Bool) :
    Accounted cfg (freshDevice cfg results) where
  blocks b _ := by
    have hzero : countChunkBits (fun _ => false) cfg.nChunksPerBlock = 0 :=
      countChunkBits_eq_zero.mpr fun _ _ => rfl
    refine ⟨?_, ?_, nofun, fun _ _ _ => rfl, ⟨nofun, nofun⟩, nofun, nofun⟩
    · show (0 : Int) = countChunkBits (fun _ => false) cfg.nChunksPerBlock
      rw [hzero]
      rfl
    · show (0 : Int) = countChunkBits (fun _ => false) cfg.nChunksPerBlock
      rw [hzero]
      rfl
  allocation := nofun
  erased := by
    have hall : ((blocksOf cfg).filter fun block =>
        ((freshDevice cfg results).dev.blocks block).blockState = .empty) = blocksOf cfg :=
      Finset.filter_true_of_mem fun _ _ => rfl
    rw [hall]
    rfl
  free := by
    have hblock : freeChunks cfg freshBlock = cfg.nChunksPerBlock := by
      rw [freeChunks, if_neg nofun]
      show (cfg.nChunksPerBlock : Int) - 0 + 0 = _
      rw [Int.sub_zero, Int.add_zero]
    show ((blocksOf cfg).card : Int) * cfg.nChunksPerBlock =
      ∑ _ ∈ blocksOf cfg, freeChunks cfg freshBlock
    rw [Finset.sum_const, nsmul_eq_mul, hblock]

/-- Two blocks of two chunks. -/
def twoBlocks : Config where
  nChunksPerBlock := 2
  internalStartBlock := 1
  internalEndBlock := 2
  nReservedBlocks := 0
  isYaffs2 := true
  nChunksPerBlock_pos := Nat.two_pos
  internalStartBlock_pos := Nat.one_pos

/-- A block is written and both of its chunks are deleted; it is erased. -/
theorem accounting_exact_erased :
    ∃ t, Reaches (AccountStep twoBlocks) (LegalOp twoBlocks)
        (freshDevice twoBlocks fun _ => true) t ∧
      (t.dev.blocks 1).blockState = .empty ∧ t.dev.nFreeChunks = 4 ∧
      t.dev.nErasedBlocks =
        ((blocksOf twoBlocks).filter fun block => (t.dev.blocks block).blockState = .empty).card := by
  have hfirst : Reaches (AccountStep twoBlocks) (LegalOp twoBlocks)
      (freshDevice twoBlocks fun _ => true) _ :=
    (Reaches.refl _).tail (rfl : AccountStep _ _ (.allocateChunk false) _) trivial
  have hsecond := hfirst.tail (rfl : AccountStep _ _ (.allocateChunk false) _) trivial
  have hdeleted := hsecond.tail (rfl : AccountStep _ _ (.deleteChunk 2) _)
    ⟨by decide, rfl, rfl⟩
  have hrun := hdeleted.tail (rfl : AccountStep _ _ (.deleteChunk 3) _) ⟨by decide, rfl, rfl⟩
  obtain ⟨herased, _⟩ := accounting_exact (freshDevice_accounted twoBlocks fun _ => true) hrun
  exact ⟨_, hrun, rfl, rfl, herased⟩

/-- The same with any chunk in use, also one that has been deleted softly. -/
def InUseOp (cfg : Config) (s : Accounts α) : ChunkOp → Prop
  | .allocateChunk _ => True
  | .deleteChunk chunk => chunk / cfg.nChunksPerBlock ∈ blocksOf cfg ∧ inUse cfg s.dev chunk = true
  | .softDeleteChunk chunk =>
    chunk / cfg.nChunksPerBlock ∈ blocksOf cfg ∧ inUse cfg s.dev chunk = true
  | _ => False

/-- A chunk that has been deleted softly is deleted again, and counted twice as a free one when its
block is erased. -/
theorem accounting_deleted_twice :
    ∃ t, Reaches (AccountStep twoBlocks) (InUseOp twoBlocks)
        (freshDevice twoBlocks fun _ => true) t ∧
      t.dev.nFreeChunks = 5 ∧
      ∑ block ∈ blocksOf twoBlocks, freeChunks twoBlocks (t.dev.blocks block) = 4 := by
  have hfirst : Reaches (AccountStep twoBlocks) (InUseOp twoBlocks)
      (freshDevice twoBlocks fun _ => true) _ :=
    (Reaches.refl _).tail (rfl : AccountStep _ _ (.allocateChunk false) _) trivial
  have hsecond := hfirst.tail (rfl : AccountStep _ _ (.allocateChunk false) _) trivial
  have hsoft := hsecond.tail (rfl : AccountStep _ _ (.softDeleteChunk 2) _) ⟨by decide, rfl⟩
  have hagain := hsoft.tail (rfl : AccountStep _ _ (.deleteChunk 2) _) ⟨by decide, rfl⟩
  have hrun := hagain.tail (rfl : AccountStep _ _ (.deleteChunk 3) _) ⟨by decide, rfl⟩
  exact ⟨_, hrun, rfl, rfl⟩

end AndroidKernel.YaffsGc
