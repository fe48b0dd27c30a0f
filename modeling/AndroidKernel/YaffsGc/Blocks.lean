import Mathlib.Tactic.Common

/-!
# Blocks and chunks

A model of the block management of `fs/yaffs2/yaffs_guts.c`: the allocation of chunks and their
deletion. The outcomes of the NAND operations to come are part of the state. The blocks of a
checkpoint, which are taken and given back elsewhere, and the deletion marks of the first version
of the file system, which nothing here reads, are left out.
-/

namespace AndroidKernel.YaffsGc

/-- `yaffs_BlockState`. -/
inductive BlockState
  | unknown
  | scanning
  | needsScanning
  | empty
  | allocating
  | full
  | dirty
  | checkpoint
  | collecting
  | dead
  deriving DecidableEq

/-- `yaffs_BlockInfo`, with the bits of the chunks in use. -/
structure Block where
  blockState : BlockState
  chunkBits : Nat → Bool
  pagesInUse : Int
  softDeletions : Int
  hasShrinkHeader : Bool
  needsRetiring : Bool
  gcPrioritise : Bool
  skipErasedCheck : Bool
  chunkErrorStrikes : Nat

/-- What a chunk holds: its tags and its data. The header of an object is its chunk 0. -/
structure Contents (α : Type) where
  objectId : Nat
  chunkId : Nat
  serialNumber : Nat
  isShrink : Bool
  data : α

/-- `yaffs_Device`. `results` are the outcomes of the NAND operations to come, and
`checkpointBlockAdjust` is the number of blocks that the next checkpoint still needs. -/
structure Device (α : Type) where
  blocks : Nat → Block
  nand : Nat → Option (Contents α)
  nErasedBlocks : Int
  nFreeChunks : Int
  checkpointBlockAdjust : Int
  allocationBlock : Option Nat
  allocationPage : Nat
  allocationBlockFinder : Nat
  results : Nat → Bool

/-- What does not change: the geometry and settings of the device. -/
structure Config where
  nChunksPerBlock : Nat
  internalStartBlock : Nat
  internalEndBlock : Nat
  nReservedBlocks : Int
  isYaffs2 : Bool
  nChunksPerBlock_pos : 0 < nChunksPerBlock
  internalStartBlock_pos : 0 < internalStartBlock

variable {α : Type} (cfg : Config)

/-- The block of a chunk changes. -/
def Device.setBlock (dev : Device α) (block : Nat) (bi : Block) : Device α :=
  { dev with blocks := Function.update dev.blocks block bi }

/-- The device after one more NAND operation. -/
def Device.spent (dev : Device α) : Device α :=
  { dev with results := fun i => dev.results (i + 1) }

/-- The outcome of the next NAND operation. -/
def Device.nextResult (dev : Device α) : Bool × Device α :=
  (dev.results 0, dev.spent)

/-- The chunk is in use. -/
def inUse (dev : Device α) (chunk : Nat) : Bool :=
  (dev.blocks (chunk / cfg.nChunksPerBlock)).chunkBits (chunk % cfg.nChunksPerBlock)

/-! ## Erasing and deleting -/

/-- A block that has been erased. -/
def erased (bi : Block) : Block :=
  { bi with
    blockState := .empty
    chunkBits := fun _ => false
    pagesInUse := 0
    softDeletions := 0
    hasShrinkHeader := false
    skipErasedCheck := true
    gcPrioritise := false }

/-- `yaffs_RetireBlock`. -/
def retired (bi : Block) : Block :=
  { bi with blockState := .dead, gcPrioritise := false, needsRetiring := false }

/-- `yaffs_BlockBecameDirty`: the block is erased, or else retired. -/
def blockBecameDirty (dev : Device α) (block : Nat) : Device α :=
  let bi := dev.blocks block
  let (erasedOk, dev) := if bi.needsRetiring then (false, dev) else dev.nextResult
  if erasedOk then
    { dev.setBlock block (erased bi) with
      nErasedBlocks := dev.nErasedBlocks + 1
      nand := fun chunk => if chunk / cfg.nChunksPerBlock = block then none else dev.nand chunk }
  else
    { dev.setBlock block (retired bi) with nFreeChunks := dev.nFreeChunks - cfg.nChunksPerBlock }

/-- The states in which the chunks of a block are managed. -/
def BlockState.managed : BlockState → Bool
  | allocating | full | needsScanning | collecting => true
  | _ => false

/-- `yaffs_DeleteChunk`. -/
def deleteChunk (dev : Device α) (chunkId : Nat) : Device α :=
  if chunkId = 0 then dev
  else
    let block := chunkId / cfg.nChunksPerBlock
    let page := chunkId % cfg.nChunksPerBlock
    let bi := dev.blocks block
    if bi.blockState.managed then
      let bi := { bi with
        chunkBits := Function.update bi.chunkBits page false
        pagesInUse := bi.pagesInUse - 1 }
      let dev := { dev.setBlock block bi with nFreeChunks := dev.nFreeChunks + 1 }
      if bi.pagesInUse = 0 ∧ !bi.hasShrinkHeader ∧ bi.blockState ≠ .allocating ∧
          bi.blockState ≠ .needsScanning then
        blockBecameDirty cfg dev block
      else dev
    else dev

/-- `yaffs_SoftDeleteChunk`. -/
def softDeleteChunk (dev : Device α) (chunk : Nat) : Device α :=
  let block := chunk / cfg.nChunksPerBlock
  let bi := dev.blocks block
  { dev.setBlock block { bi with softDeletions := bi.softDeletions + 1 } with
    nFreeChunks := dev.nFreeChunks + 1 }

/-! ## Allocation -/

/-- The loop of `yaffs_FindBlockForAllocation`. -/
def findEmptyBlock : Nat → Device α → Option Nat × Device α
  | 0, dev => (none, dev)
  | i + 1, dev =>
    let finder := dev.allocationBlockFinder + 1
    let finder :=
      if finder < cfg.internalStartBlock ∨ cfg.internalEndBlock < finder then cfg.internalStartBlock
      else finder
    let dev := { dev with allocationBlockFinder := finder }
    let bi := dev.blocks finder
    if bi.blockState = .empty then
      (some finder, { dev.setBlock finder { bi with blockState := .allocating } with
        nErasedBlocks := dev.nErasedBlocks - 1 })
    else findEmptyBlock i dev

/-- `yaffs_FindBlockForAllocation`. -/
def findBlockForAllocation (dev : Device α) : Option Nat × Device α :=
  if dev.nErasedBlocks < 1 then (none, dev)
  else findEmptyBlock cfg (cfg.internalEndBlock + 1 - cfg.internalStartBlock) dev

/-- `yaffs_CheckSpaceForAllocation`. -/
def checkSpaceForAllocation (dev : Device α) : Bool :=
  let checkpointBlocks := if cfg.isYaffs2 then max dev.checkpointBlockAdjust 0 else 0
  let reservedChunks := (cfg.nReservedBlocks + checkpointBlocks) * cfg.nChunksPerBlock
  reservedChunks < dev.nFreeChunks

/-- A new block to allocate off, if there is none. -/
def openBlock (dev : Device α) : Device α :=
  match dev.allocationBlock with
  | some _ => dev
  | none =>
    let (block, dev) := findBlockForAllocation cfg dev
    { dev with allocationBlock := block, allocationPage := 0 }

/-- The next page of the block to allocate off. -/
def takePage (dev : Device α) (block : Nat) : Device α :=
  let page := dev.allocationPage
  let bi := dev.blocks block
  let bi := { bi with
    pagesInUse := bi.pagesInUse + 1
    chunkBits := Function.update bi.chunkBits page true }
  let isFull := cfg.nChunksPerBlock ≤ page + 1
  { dev.setBlock block (if isFull then { bi with blockState := .full } else bi) with
    allocationPage := page + 1
    allocationBlock := if isFull then none else some block
    nFreeChunks := dev.nFreeChunks - 1 }

/-- `yaffs_AllocateChunk`. -/
def allocateChunk (useReserve : Bool) (dev : Device α) : Option Nat × Device α :=
  let dev := openBlock cfg dev
  if !useReserve && !checkSpaceForAllocation cfg dev then (none, dev)
  else
    match dev.allocationBlock with
    | none => (none, dev)
    | some block =>
      (some (block * cfg.nChunksPerBlock + dev.allocationPage), takePage cfg dev block)

/-!
## What the block operations do

The chunk bits of a block as numbers, and the device after each operation.
-/

variable {α : Type} {cfg : Config} {dev : Device α} {block chunk : Nat}

/-! ## Chunk bits -/

/-- `yaffs_CountChunkBits`. -/
def countChunkBits (bits : Nat → Bool) : Nat → Nat
  | 0 => 0
  | n + 1 => countChunkBits bits n + if bits n then 1 else 0

variable {bits : Nat → Bool} {n i : Nat}

theorem countChunkBits_congr {bits' : Nat → Bool} (h : ∀ j < n, bits' j = bits j) :
    countChunkBits bits' n = countChunkBits bits n := by
  induction n with
  | zero => rfl
  | succ n ih =>
    rw [countChunkBits, countChunkBits, ih fun j hj => h j (by omega), h n (by omega)]

theorem countChunkBits_eq_zero : countChunkBits bits n = 0 ↔ ∀ j < n, bits j = false := by
  induction n with
  | zero => exact iff_of_true rfl nofun
  | succ n ih =>
    rw [countChunkBits, Nat.add_eq_zero_iff, ih]
    constructor
    · rintro ⟨hlow, hlast⟩ j hj
      rcases Nat.lt_succ_iff_lt_or_eq.mp hj with hlt | rfl
      · exact hlow j hlt
      · exact Bool.eq_false_iff.mpr fun htrue => by rw [if_pos htrue] at hlast; omega
    · intro h
      refine ⟨fun j hj => h j (by omega), ?_⟩
      rw [h n (by omega), if_neg Bool.false_ne_true]

/-- One bit is set, or clear. -/
theorem countChunkBits_update (hi : i < n) (value : Bool) :
    countChunkBits (Function.update bits i value) n + (if bits i then 1 else 0) =
      countChunkBits bits n + if value then 1 else 0 := by
  induction n with
  | zero => exact absurd hi (Nat.not_lt_zero i)
  | succ n ih =>
    rw [countChunkBits, countChunkBits]
    by_cases hlast : i = n
    · subst hlast
      rw [Function.update_self,
        countChunkBits_congr fun j hj => Function.update_of_ne (Nat.ne_of_lt hj) ..]
      omega
    · have hrest := ih (by omega)
      rw [Function.update_of_ne (Ne.symm hlast)]
      omega

theorem page_lt (cfg : Config) (chunk : Nat) :
    chunk % cfg.nChunksPerBlock < cfg.nChunksPerBlock :=
  Nat.mod_lt chunk cfg.nChunksPerBlock_pos

/-! ## Changes of one block -/

theorem setBlock_self (bi : Block) : (dev.setBlock block bi).blocks block = bi :=
  Function.update_self ..

theorem setBlock_of_ne {b : Nat} (bi : Block) (h : b ≠ block) :
    (dev.setBlock block bi).blocks b = dev.blocks b :=
  Function.update_of_ne h ..

/-! ## Erasing -/

/-- The block is erased, or else retired. -/
theorem blockBecameDirty_cases (cfg : Config) (dev : Device α) (block : Nat) :
    ∃ results,
      blockBecameDirty cfg dev block =
        { dev.setBlock block (erased (dev.blocks block)) with
          nErasedBlocks := dev.nErasedBlocks + 1
          nand := fun c => if c / cfg.nChunksPerBlock = block then none else dev.nand c
          results := results } ∨
      blockBecameDirty cfg dev block =
        { dev.setBlock block (retired (dev.blocks block)) with
          nFreeChunks := dev.nFreeChunks - cfg.nChunksPerBlock
          results := results } := by
  by_cases hneeds : (dev.blocks block).needsRetiring = true
  · refine ⟨dev.results, .inr ?_⟩
    simp only [blockBecameDirty, if_pos hneeds, Bool.false_eq_true, if_false]
    rfl
  refine ⟨fun i => dev.results (i + 1), ?_⟩
  by_cases hok : dev.results 0 = true
  · refine .inl ?_
    simp only [blockBecameDirty, if_neg hneeds, Device.nextResult, if_pos hok]
    rfl
  · refine .inr ?_
    simp only [blockBecameDirty, if_neg hneeds, Device.nextResult, if_neg hok]
    rfl

/-! ## Deleting -/

/-- A block without one of its chunks. -/
def cleared (bi : Block) (page : Nat) : Block :=
  { bi with chunkBits := Function.update bi.chunkBits page false, pagesInUse := bi.pagesInUse - 1 }

/-- The device without one of its chunks, before its block may become dirty. -/
def clearedDevice (cfg : Config) (dev : Device α) (chunk : Nat) : Device α :=
  { dev.setBlock (chunk / cfg.nChunksPerBlock)
      (cleared (dev.blocks (chunk / cfg.nChunksPerBlock)) (chunk % cfg.nChunksPerBlock)) with
    nFreeChunks := dev.nFreeChunks + 1 }

theorem cleared_block : (clearedDevice cfg dev chunk).blocks (chunk / cfg.nChunksPerBlock) =
    cleared (dev.blocks (chunk / cfg.nChunksPerBlock)) (chunk % cfg.nChunksPerBlock) :=
  setBlock_self _

theorem cleared_bit (bi : Block) (page : Nat) : (cleared bi page).chunkBits page = false :=
  Function.update_self ..

theorem cleared_bit_of_ne {bi : Block} {page page' : Nat} (h : page' ≠ page) :
    (cleared bi page).chunkBits page' = bi.chunkBits page' :=
  Function.update_of_ne h ..

theorem cleared_bit_imp {bi : Block} {page page' : Nat}
    (h : (cleared bi page).chunkBits page' = true) : bi.chunkBits page' = true := by
  by_cases hsame : page' = page
  · rw [hsame, cleared_bit] at h
    exact absurd h Bool.false_ne_true
  · rwa [cleared_bit_of_ne hsame] at h

theorem cleared_count {bi : Block} {page : Nat} (hpage : page < cfg.nChunksPerBlock)
    (hbit : bi.chunkBits page = true)
    (hcount : bi.pagesInUse = countChunkBits bi.chunkBits cfg.nChunksPerBlock) :
    (cleared bi page).pagesInUse =
      countChunkBits (cleared bi page).chunkBits cfg.nChunksPerBlock := by
  have hupdate := @countChunkBits_update bi.chunkBits _ _ hpage false
  rw [if_pos hbit, if_neg Bool.false_ne_true] at hupdate
  simp only [cleared]
  omega

/-- The block becomes dirty with its last chunk. -/
def becomesDirty (bi : Block) : Prop :=
  bi.pagesInUse - 1 = 0 ∧ !bi.hasShrinkHeader ∧ bi.blockState ≠ .allocating ∧
    bi.blockState ≠ .needsScanning

theorem deleteChunk_of_managed (hpos : chunk ≠ 0)
    (hmanaged : (dev.blocks (chunk / cfg.nChunksPerBlock)).blockState.managed = true)
    (hdirty : becomesDirty (dev.blocks (chunk / cfg.nChunksPerBlock))) :
    deleteChunk cfg dev chunk =
      blockBecameDirty cfg (clearedDevice cfg dev chunk) (chunk / cfg.nChunksPerBlock) := by
  rw [deleteChunk, if_neg hpos]
  simp only [if_pos hmanaged]
  exact if_pos hdirty

theorem deleteChunk_of_not_dirty (hpos : chunk ≠ 0)
    (hmanaged : (dev.blocks (chunk / cfg.nChunksPerBlock)).blockState.managed = true)
    (hdirty : ¬ becomesDirty (dev.blocks (chunk / cfg.nChunksPerBlock))) :
    deleteChunk cfg dev chunk = clearedDevice cfg dev chunk := by
  rw [deleteChunk, if_neg hpos]
  simp only [if_pos hmanaged]
  exact if_neg hdirty

theorem deleteChunk_of_not_managed
    (hmanaged : ¬ (dev.blocks (chunk / cfg.nChunksPerBlock)).blockState.managed = true) :
    deleteChunk cfg dev chunk = dev := by
  rw [deleteChunk]
  simp only [if_neg hmanaged, ite_self]

/-! ## Allocating -/

/-- The device with a block to allocate off. -/
def Device.opened (result : Option Nat × Device α) : Device α :=
  { result.2 with allocationBlock := result.1, allocationPage := 0 }

/-- A block with one more page. -/
def taken (cfg : Config) (bi : Block) (page : Nat) : Block :=
  let bi := { bi with
    pagesInUse := bi.pagesInUse + 1
    chunkBits := Function.update bi.chunkBits page true }
  if cfg.nChunksPerBlock ≤ page + 1 then { bi with blockState := .full } else bi

theorem taken_bits (bi : Block) (page : Nat) :
    (taken cfg bi page).chunkBits = Function.update bi.chunkBits page true := by
  unfold taken
  split_ifs <;> rfl

theorem taken_pages (bi : Block) (page : Nat) :
    (taken cfg bi page).pagesInUse = bi.pagesInUse + 1 := by
  unfold taken
  split_ifs <;> rfl

theorem takePage_eq (dev : Device α) (block : Nat) : takePage cfg dev block =
    { dev.setBlock block (taken cfg (dev.blocks block) dev.allocationPage) with
      allocationPage := dev.allocationPage + 1
      allocationBlock :=
        if cfg.nChunksPerBlock ≤ dev.allocationPage + 1 then none else some block
      nFreeChunks := dev.nFreeChunks - 1 } := by
  rfl

/-- The block and the page of a chunk. -/
theorem chunk_div_mod (block : Nat) {page : Nat} (hpage : page < cfg.nChunksPerBlock) :
    (block * cfg.nChunksPerBlock + page) / cfg.nChunksPerBlock = block ∧
      (block * cfg.nChunksPerBlock + page) % cfg.nChunksPerBlock = page := by
  constructor
  · rw [Nat.mul_comm, Nat.mul_add_div cfg.nChunksPerBlock_pos, Nat.div_eq_of_lt hpage, Nat.add_zero]
  · rw [Nat.mul_comm, Nat.mul_add_mod, Nat.mod_eq_of_lt hpage]

end AndroidKernel.YaffsGc
