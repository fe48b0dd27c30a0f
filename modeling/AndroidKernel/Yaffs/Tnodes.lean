import AndroidKernel.Library.Bitmap

/-!
# Tnode trees

A model of the tree of `fs/yaffs2/yaffs_guts.c` that maps the chunks of a file to chunks in NAND,
on a machine with 32-bit pointers. The levels share one union, so a tnode is a sequence of words,
and each word is a number or the address of a tnode. An operation that would follow a number other
than zero, or read an address as a number, has no result.
-/

namespace AndroidKernel.Yaffs

open Library

/-- The fields of a device that the tree reads. -/
structure Device where
  tnodeWidth : Nat
  tnodeMask : BitVec 32
  chunkGroupBits : Nat
  width_ge : 16 ≤ tnodeWidth
  width_le : tnodeWidth ≤ 32
  mask_eq : tnodeMask = BitVec.ofNat 32 (2 ^ tnodeWidth - 1)

/-! ## Tnodes of level 0 -/

/-- `yaffs_PutLevel0Tnode`. -/
def putLevel0Tnode (dev : Device) (map : Nat → BitVec 32) (pos : Nat) (val : BitVec 32) :
    Nat → BitVec 32 :=
  let pos := pos &&& 0xf
  let val := val >>> dev.chunkGroupBits
  let bitInMap := pos * dev.tnodeWidth
  let wordInMap := bitInMap / 32
  let bitInWord := bitInMap &&& (32 - 1)
  let map := putWord map wordInMap (dev.tnodeMask <<< bitInWord) (val <<< bitInWord)
  if dev.tnodeWidth > 32 - bitInWord then
    let bitInWord := 32 - bitInWord
    putWord map (wordInMap + 1) (dev.tnodeMask >>> bitInWord) (val >>> bitInWord)
  else map

/-- `yaffs_GetChunkGroupBase`. -/
def getChunkGroupBase (dev : Device) (map : Nat → BitVec 32) (pos : Nat) : BitVec 32 :=
  let pos := pos &&& 0xf
  let bitInMap := pos * dev.tnodeWidth
  let wordInMap := bitInMap / 32
  let bitInWord := bitInMap &&& (32 - 1)
  let val := map wordInMap >>> bitInWord
  let val :=
    if dev.tnodeWidth > 32 - bitInWord then val ||| map (wordInMap + 1) <<< (32 - bitInWord)
    else val
  (val &&& dev.tnodeMask) <<< dev.chunkGroupBits

/-! ## The tree -/

/-- A word of a tnode: a number, or the address of a tnode with these words. -/
inductive Cell
  | data (value : BitVec 32)
  | tnode (words : Nat → Cell)

namespace Cell

/-- `NULL`. -/
def null : Cell :=
  data 0

/-- The word as a truth value is false. -/
def isNull : Cell → Bool
  | data value => value == 0
  | tnode _ => false

/-- The word as a number. -/
def toWord : Cell → BitVec 32
  | data value => value
  | tnode _ => 0

/-- The word is a number. -/
def isData : Cell → Bool
  | data _ => true
  | tnode _ => false

/-- `yaffs_GetTnode`: a clean tnode, or none if there is no memory. -/
def getTnode (answer : Bool) : Cell :=
  if answer then tnode fun _ => null else null

/-- The tnode as the map of level 0, if none of its words is an address. -/
def asMap (words : Nat → Cell) : Option (Nat → BitVec 32) :=
  if (List.range 16).all fun i => (words i).isData then some fun i => (words i).toWord else none

end Cell

open Cell

/-- `yaffs_FileStructure`. -/
structure FileStructure where
  top : Cell
  topLevel : Nat

/-- `YAFFS_TNODES_MAX_LEVEL`. -/
def maxLevel : Nat := 6

/-- `YAFFS_MAX_CHUNK_ID`. -/
def maxChunkId : Nat := 0x000FFFFF

/-- The loop that counts the levels above level 0; a word is shifted out in eleven rounds. -/
def tallness : Nat → Nat → Nat
  | 0, _ => 0
  | rounds + 1, i => if i = 0 then 0 else tallness rounds (i >>> 3) + 1

/-- `requiredTallness`. -/
def requiredTallness (chunkId : Nat) : Nat :=
  tallness 32 (chunkId >>> 4)

/-- The index of a child in an internal tnode. -/
def internalIndex (level chunkId : Nat) : Nat :=
  (chunkId >>> (4 + level * 3)) &&& 0x7

/-- The way down to level 0. -/
def find (chunkId : Nat) : Nat → Cell → Option Cell
  | 0, tn => some tn
  | _ + 1, data value => if value = 0 then some null else none
  | level + 1, tnode words => find chunkId level (words (internalIndex level chunkId))

/-- `yaffs_FindLevel0Tnode`. -/
def findLevel0Tnode (fStruct : FileStructure) (chunkId : Nat) : Option Cell :=
  if maxLevel < fStruct.topLevel then some null
  else if maxChunkId < chunkId then some null
  else if fStruct.topLevel < requiredTallness chunkId then some null
  else find chunkId fStruct.topLevel fStruct.top

/-- The entry of a chunk; 0 if it has no tnode. -/
def entry (dev : Device) (chunkId : Nat) : Cell → Option (BitVec 32)
  | data value => if value = 0 then some 0 else none
  | tnode words => (asMap words).map fun map => getChunkGroupBase dev map chunkId

/-- `yaffs_FindLevel0Tnode`, then `yaffs_GetChunkGroupBase`. -/
def chunkOf (dev : Device) (fStruct : FileStructure) (chunkId : Nat) : Option (BitVec 32) :=
  (findLevel0Tnode fStruct chunkId).bind (entry dev chunkId)

/-- New tops for a tree that is not tall enough. A call of `yaffs_GetTnode` that fails is passed
over. -/
def grow (answer : Nat → Bool) : Nat → Nat → Cell → Cell
  | _, 0, top => top
  | call, count + 1, top =>
    grow answer (call + 1) count
      (if answer call then tnode (Function.update (fun _ => null) 0 top) else top)

/-- The way down to level 0 that adds missing tnodes, and what the caller does with the tnode that
it ends in, if any. -/
def descend (answer : Nat → Bool) (chunkId : Nat) (store : (Nat → Cell) → Option (Nat → Cell)) :
    Nat → Nat → Cell → Option (Cell × Bool)
  | 0, _, tnode words => (store words).map fun words => (tnode words, true)
  | _, _, data value => if value = 0 then some (null, false) else none
  | level + 1, call, tnode words =>
    let x := internalIndex level chunkId
    let missing := (words x).isNull
    let child := if missing then getTnode (answer call) else words x
    let call := if missing then call + 1 else call
    (descend answer chunkId store level call child).map fun result =>
      (tnode (Function.update words x result.1), result.2)

/-- `yaffs_AddOrFindLevel0Tnode` without a tnode to plug in, and what the caller does with its
result. `answer` tells which calls of `yaffs_GetTnode` succeed. -/
def addOrFindLevel0Tnode (answer : Nat → Bool) (fStruct : FileStructure) (chunkId : Nat)
    (store : (Nat → Cell) → Option (Nat → Cell)) : Option (FileStructure × Bool) :=
  if maxLevel < fStruct.topLevel then some (fStruct, false)
  else if maxChunkId < chunkId then some (fStruct, false)
  else
    let missing := requiredTallness chunkId - fStruct.topLevel
    let topLevel := fStruct.topLevel + missing
    let top := grow answer 0 missing fStruct.top
    (descend answer chunkId store topLevel missing top).map fun result =>
      ({ top := result.1, topLevel }, result.2)

/-- `yaffs_AddOrFindLevel0Tnode`, then `yaffs_PutLevel0Tnode`. -/
def putChunk (dev : Device) (answer : Nat → Bool) (fStruct : FileStructure) (chunkId : Nat)
    (val : BitVec 32) : Option (FileStructure × Bool) :=
  addOrFindLevel0Tnode answer fStruct chunkId fun words =>
    (asMap words).map fun map i => data (putLevel0Tnode dev map chunkId val i)

/-! ## Pruning -/

/-- One of the words from `first` below `YAFFS_NTNODES_INTERNAL` is not `NULL`. -/
def hasData (first : Nat) (words : Nat → Cell) : Bool :=
  (List.range' first (8 - first)).any fun i => !(words i).isNull

/-- `yaffs_PruneWorker`. -/
def pruneWorker : Nat → Bool → Cell → Option Cell
  | _, _, data value => if value = 0 then some null else none
  | 0, del0, tnode words =>
    if !hasData 0 words && del0 then some null else some (tnode words)
  | level + 1, del0, tnode words =>
    ((List.range 8).foldlM (fun (words : Nat → Cell) (i : Nat) =>
      if (words i).isNull then some words
      else (pruneWorker level (if i = 0 then del0 else true) (words i)).map
        (Function.update words i)) words).map fun words =>
      if !hasData 0 words && del0 then null else tnode words

/-- The loop of `yaffs_PruneFileStructure` that shortens the tree. -/
def shorten : Nat → Cell → Option FileStructure
  | 0, top => some { top, topLevel := 0 }
  | _ + 1, data _ => none
  | topLevel + 1, tnode words =>
    if hasData 1 words then some { top := tnode words, topLevel := topLevel + 1 }
    else shorten topLevel (words 0)

/-- `yaffs_PruneFileStructure`. -/
def pruneFileStructure (fStruct : FileStructure) : Option FileStructure :=
  if fStruct.topLevel = 0 then some fStruct
  else (pruneWorker fStruct.topLevel false fStruct.top).bind (shorten fStruct.topLevel)

/-- The tree of a new file. -/
def newFile : FileStructure where
  top := getTnode true
  topLevel := 0

/-!
## Entries of a tnode of level 0

The entries are fields of `tnodeWidth` bits, one after another; some of them cross a word.
-/

variable (dev : Device) (map : Nat → BitVec 32) (pos : Nat) (val : BitVec 32)

theorem getLsbD_tnodeMask {i : Nat} (hi : i < 32) :
    dev.tnodeMask.getLsbD i = decide (i < dev.tnodeWidth) := by
  rw [dev.mask_eq, BitVec.getLsbD_ofNat, decide_eq_true hi, Bool.true_and,
    Nat.testBit_two_pow_sub_one]

/-- The first bit of an entry. -/
def firstBit : Nat :=
  pos % 16 * dev.tnodeWidth

theorem and_fifteen : pos &&& 0xf = pos % 16 :=
  Nat.and_two_pow_sub_one_eq_mod pos 4

theorem and_thirtyOne : pos &&& (32 - 1) = pos % 32 :=
  Nat.and_two_pow_sub_one_eq_mod pos 5

/-- An entry is stored bit by bit, and no other bit changes. -/
theorem bitAt_putLevel0Tnode (hg : dev.chunkGroupBits = 0) (b : Nat) :
    bitAt (putLevel0Tnode dev map pos val) b =
      if firstBit dev pos ≤ b ∧ b < firstBit dev pos + dev.tnodeWidth then
        val.getLsbD (b - firstBit dev pos)
      else bitAt map b := by
  have hge := dev.width_ge
  have hle := dev.width_le
  have hb : b % 32 < 32 := Nat.mod_lt b (by omega)
  simp only [putLevel0Tnode, hg, BitVec.ushiftRight_zero, and_fifteen, and_thirtyOne]
  rw [show pos % 16 * dev.tnodeWidth = firstBit dev pos from rfl]
  generalize hP : firstBit dev pos = P
  have hr : P % 32 < 32 := Nat.mod_lt P (by omega)
  -- The part of the entry in its first word.
  have hfirst : b / 32 = P / 32 ∧ (dev.tnodeMask <<< (P % 32)).getLsbD (b % 32) = true ↔
      P ≤ b ∧ b < P + dev.tnodeWidth ∧ b / 32 = P / 32 := by
    rw [BitVec.getLsbD_shiftLeft, getLsbD_tnodeMask dev (by omega)]
    simp only [Bool.and_eq_true, Bool.not_eq_true', decide_eq_true_eq, decide_eq_false_iff_not]
    omega
  have hfirstVal : P ≤ b → b / 32 = P / 32 →
      (val <<< (P % 32)).getLsbD (b % 32) = val.getLsbD (b - P) := by
    intro hPb hdiv
    have hsub : b % 32 - P % 32 = b - P := by omega
    rw [BitVec.getLsbD_shiftLeft, hsub]
    have hnot : ¬ b % 32 < P % 32 := by omega
    simp only [hb, hnot, decide_true, decide_false, Bool.not_false, Bool.true_and]
  by_cases hcross : dev.tnodeWidth > 32 - P % 32
  · -- The rest is in the next word.
    have hsecond : b / 32 = P / 32 + 1 ∧
        (dev.tnodeMask >>> (32 - P % 32)).getLsbD (b % 32) = true ↔
          P ≤ b ∧ b < P + dev.tnodeWidth ∧ b / 32 = P / 32 + 1 := by
      rw [BitVec.getLsbD_ushiftRight]
      by_cases hlt : 32 - P % 32 + b % 32 < 32
      · rw [getLsbD_tnodeMask dev hlt]
        simp only [decide_eq_true_eq]
        omega
      · rw [BitVec.getLsbD_of_ge _ _ (by omega)]
        simp only [Bool.false_eq_true, and_false, false_iff]
        omega
    have hsecondVal : P ≤ b → b / 32 = P / 32 + 1 →
        (val >>> (32 - P % 32)).getLsbD (b % 32) = val.getLsbD (b - P) := by
      intro hPb hdiv
      rw [BitVec.getLsbD_ushiftRight]
      congr 1
      omega
    rw [if_pos hcross, bitAt_putWord (by omega), bitAt_putWord (by omega)]
    simp only [hfirst, hsecond]
    by_cases hin : P ≤ b ∧ b < P + dev.tnodeWidth
    · rw [if_pos hin]
      by_cases hdiv : b / 32 = P / 32 + 1
      · rw [if_pos ⟨hin.1, hin.2, hdiv⟩]
        exact hsecondVal hin.1 hdiv
      · rw [if_neg fun h => hdiv h.2.2, if_pos ⟨hin.1, hin.2, by omega⟩]
        exact hfirstVal hin.1 (by omega)
    · rw [if_neg hin, if_neg fun h => hin ⟨h.1, h.2.1⟩, if_neg fun h => hin ⟨h.1, h.2.1⟩]
  · rw [if_neg hcross, bitAt_putWord (by omega)]
    simp only [hfirst]
    by_cases hin : P ≤ b ∧ b < P + dev.tnodeWidth
    · rw [if_pos hin, if_pos ⟨hin.1, hin.2, by omega⟩]
      exact hfirstVal hin.1 (by omega)
    · rw [if_neg hin, if_neg fun h => hin ⟨h.1, h.2.1⟩]

/-- An entry is read bit by bit. -/
theorem getLsbD_getChunkGroupBase (hg : dev.chunkGroupBits = 0) {i : Nat} (hi : i < 32) :
    (getChunkGroupBase dev map pos).getLsbD i =
      (decide (i < dev.tnodeWidth) && bitAt map (firstBit dev pos + i)) := by
  have hle := dev.width_le
  simp only [getChunkGroupBase, hg, BitVec.shiftLeft_zero, and_fifteen, and_thirtyOne, bitAt]
  rw [show pos % 16 * dev.tnodeWidth = firstBit dev pos from rfl, BitVec.getLsbD_and,
    getLsbD_tnodeMask dev hi, Bool.and_comm]
  generalize firstBit dev pos = P
  by_cases hw : i < dev.tnodeWidth
  · simp only [decide_eq_true hw, Bool.true_and]
    by_cases hsame : P % 32 + i < 32
    · have hdiv : (P + i) / 32 = P / 32 := by omega
      have hmod : (P + i) % 32 = P % 32 + i := by omega
      have hshift : (map (P / 32) >>> (P % 32)).getLsbD i = (map (P / 32)).getLsbD (P % 32 + i) :=
        BitVec.getLsbD_ushiftRight ..
      rw [hdiv, hmod]
      split_ifs
      · have hlt : i < 32 - P % 32 := by omega
        rw [BitVec.getLsbD_or, hshift, BitVec.getLsbD_shiftLeft]
        simp only [hlt, decide_true, Bool.not_true, Bool.and_false, Bool.false_and, Bool.or_false]
      · exact hshift
    · have hdiv : (P + i) / 32 = P / 32 + 1 := by omega
      have hmod : (P + i) % 32 = i - (32 - P % 32) := by omega
      have hlt : ¬ i < 32 - P % 32 := by omega
      rw [hdiv, hmod, if_pos (by omega), BitVec.getLsbD_or, BitVec.getLsbD_ushiftRight,
        BitVec.getLsbD_of_ge _ _ (by omega), BitVec.getLsbD_shiftLeft]
      simp only [hi, hlt, decide_true, decide_false, Bool.not_false, Bool.true_and, Bool.false_or]
  · simp only [decide_eq_false hw, Bool.false_and]

theorem getChunkGroupBase_congr {pos pos' : Nat} (h : pos % 16 = pos' % 16) :
    getChunkGroupBase dev map pos = getChunkGroupBase dev map pos' := by
  simp only [getChunkGroupBase, and_fifteen, h]

/-- A stored entry is read back. -/
theorem getChunkGroupBase_put (hg : dev.chunkGroupBits = 0)
    (hval : val.toNat < 2 ^ dev.tnodeWidth) :
    getChunkGroupBase dev (putLevel0Tnode dev map pos val) pos = val := by
  refine BitVec.eq_of_getLsbD_eq fun i hi => ?_
  rw [getLsbD_getChunkGroupBase dev _ pos hg hi]
  by_cases hw : i < dev.tnodeWidth
  · rw [decide_eq_true hw, Bool.true_and, bitAt_putLevel0Tnode dev map pos val hg,
      if_pos ⟨by omega, by omega⟩, Nat.add_sub_cancel_left]
  · rw [decide_eq_false hw, Bool.false_and, BitVec.getLsbD, Nat.testBit_lt_two_pow]
    exact Nat.lt_of_lt_of_le hval (Nat.pow_le_pow_right (by omega) (by omega))

/-- The other entries stay as they are. -/
theorem getChunkGroupBase_put_of_ne (hg : dev.chunkGroupBits = 0) {pos' : Nat}
    (hne : pos' % 16 ≠ pos % 16) :
    getChunkGroupBase dev (putLevel0Tnode dev map pos val) pos' =
      getChunkGroupBase dev map pos' := by
  refine BitVec.eq_of_getLsbD_eq fun i hi => ?_
  rw [getLsbD_getChunkGroupBase dev _ pos' hg hi, getLsbD_getChunkGroupBase dev _ pos' hg hi]
  by_cases hw : i < dev.tnodeWidth
  · have hout : ¬ (firstBit dev pos ≤ firstBit dev pos' + i ∧
        firstBit dev pos' + i < firstBit dev pos + dev.tnodeWidth) := by
      unfold firstBit
      rcases Nat.lt_or_gt_of_ne hne with hlt | hgt
      · have hmul := Nat.mul_le_mul_right dev.tnodeWidth (Nat.succ_le_of_lt hlt)
        rw [Nat.succ_mul] at hmul
        omega
      · have hmul := Nat.mul_le_mul_right dev.tnodeWidth (Nat.succ_le_of_lt hgt)
        rw [Nat.succ_mul] at hmul
        omega
    rw [bitAt_putLevel0Tnode dev map pos val hg, if_neg hout]
  · rw [decide_eq_false hw, Bool.false_and, Bool.false_and]

/-- A map has no bits behind its entries. -/
def Fits : Prop :=
  ∀ b, 16 * dev.tnodeWidth ≤ b → bitAt map b = false

theorem fits_zero : Fits dev fun _ => 0 :=
  fun _ _ => BitVec.getLsbD_zero

theorem fits_putLevel0Tnode (hg : dev.chunkGroupBits = 0) (h : Fits dev map) :
    Fits dev (putLevel0Tnode dev map pos val) := by
  intro b hb
  have hlt : ¬ b < firstBit dev pos + dev.tnodeWidth := by
    have hpos : pos % 16 + 1 ≤ 16 := Nat.mod_lt pos (by omega)
    have hmul := Nat.mul_le_mul_right dev.tnodeWidth hpos
    rw [Nat.succ_mul] at hmul
    unfold firstBit
    omega
  rw [bitAt_putLevel0Tnode dev map pos val hg, if_neg fun hin => hlt hin.2]
  exact h b hb

/-- The entries of zero bits are 0. -/
theorem getChunkGroupBase_zero (hg : dev.chunkGroupBits = 0) (h : ∀ i < 16, map i = 0) :
    getChunkGroupBase dev map pos = 0 := by
  have hle := dev.width_le
  refine BitVec.eq_of_getLsbD_eq fun i hi => ?_
  rw [getLsbD_getChunkGroupBase dev map pos hg hi]
  by_cases hw : i < dev.tnodeWidth
  · have hlt : firstBit dev pos + i < 32 * 16 := by
      have hmul : pos % 16 * dev.tnodeWidth ≤ 15 * 32 := Nat.mul_le_mul (by omega) hle
      unfold firstBit
      omega
    rw [bitAt, h _ (Nat.div_lt_of_lt_mul hlt)]
    simp
  · rw [decide_eq_false hw, Bool.false_and]
    exact BitVec.getLsbD_zero.symm

end AndroidKernel.Yaffs
