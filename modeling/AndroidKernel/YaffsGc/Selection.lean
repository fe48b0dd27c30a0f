import AndroidKernel.Library.Scans
import AndroidKernel.YaffsGc.Blocks

/-!
# What is selected for collection

Read `victim_ok_iff` first: the block that `yaffs_FindBlockForGarbageCollection` returns is the
right one unless the last block of the range is to be preferred, which the first loop leaves out.
-/

/-!
## The block to collect

A model of `yaffs_BlockNotDisqualifiedFromGC` and `yaffs_FindBlockForGarbageCollection`. Both loops
change nothing of the device but `oldestDirtySequence`, which is carried through them as `oldest`.
-/

namespace AndroidKernel.YaffsGc

/-- `yaffs_BlockInfo` with its sequence number. -/
structure DatedBlock extends Block where
  sequenceNumber : Nat

/-- `yaffs_Device`, as far as the selection reads and writes it. `yaffs_GutsInitialise` checks the
geometry. -/
structure Checker where
  isYaffs2 : Bool
  nChunksPerBlock : Nat
  internalStartBlock : Nat
  internalEndBlock : Nat
  blockInfo : Nat → DatedBlock
  sequenceNumber : Nat
  oldestDirtySequence : Nat
  currentDirtyChecker : Nat
  nonAggressiveSkip : Int
  hasPendingPrioritisedGCs : Bool
  nChunksPerBlock_pos : 0 < nChunksPerBlock
  internalStartBlock_pos : 0 < internalStartBlock
  internalStartBlock_le : internalStartBlock ≤ internalEndBlock

/-- `YAFFS_PASSIVE_GC_CHUNKS`. -/
def passiveGcChunks : Nat := 2

/-- The chunks of a block that are in use and not deleted softly. -/
def DatedBlock.chunksUsed (bi : DatedBlock) : Int :=
  bi.pagesInUse - bi.softDeletions

namespace Checker

variable (dev : Checker)

/-- The blocks from `internalStartBlock` on. -/
def blocksFrom (count : Nat) : List Nat :=
  List.range' dev.internalStartBlock count

/-- `internalEndBlock - internalStartBlock + 1`. -/
def nBlocks : Nat :=
  dev.internalEndBlock - dev.internalStartBlock + 1

/-- The loop of `yaffs_BlockNotDisqualifiedFromGC`. -/
def findOldest : Nat :=
  (dev.blocksFrom dev.nBlocks).foldl (fun seq i =>
    let b := dev.blockInfo i
    if b.blockState = .full ∧ b.chunksUsed < dev.nChunksPerBlock ∧ b.sequenceNumber < seq then
      b.sequenceNumber
    else seq) dev.sequenceNumber

/-- `yaffs_BlockNotDisqualifiedFromGC`, with `oldestDirtySequence` before and after it. -/
def blockNotDisqualifiedFromGC (oldest : Nat) (bi : DatedBlock) : Bool × Nat :=
  if !dev.isYaffs2 then (true, oldest)
  else if !bi.hasShrinkHeader then (true, oldest)
  else
    let oldest := if oldest = 0 then dev.findOldest else oldest
    (bi.sequenceNumber ≤ oldest, oldest)

/-- The first loop of `yaffs_FindBlockForGarbageCollection`: the block, whether there is a
prioritised one (`pendingPrioritisedExist`), and `oldestDirtySequence`. -/
def findPrioritised : List Nat → Bool → Nat → Option Nat × Bool × Nat
  | [], exist, oldest => (none, exist, oldest)
  | i :: rest, exist, oldest =>
    let bi := dev.blockInfo i
    if bi.gcPrioritise then
      if bi.blockState = .full then
        let (accepted, oldest) := dev.blockNotDisqualifiedFromGC oldest bi
        if accepted then (some i, true, oldest) else findPrioritised rest true oldest
      else findPrioritised rest true oldest
    else findPrioritised rest exist oldest

/-- The next block that the second loop looks at. -/
def nextBlock (b : Nat) : Nat :=
  if b + 1 < dev.internalStartBlock ∨ dev.internalEndBlock < b + 1 then dev.internalStartBlock
  else b + 1

/-- The second loop, with the rounds that are left: `dirtiest`, `b` and `oldestDirtySequence`. -/
def findDirtiest : Nat → Nat → Option Nat → Int → Nat → Option Nat × Nat × Nat
  | 0, b, dirtiest, _, oldest => (dirtiest, b, oldest)
  | rounds + 1, b, dirtiest, pagesInUse, oldest =>
    if 0 < pagesInUse then
      let b := dev.nextBlock b
      let bi := dev.blockInfo b
      if bi.blockState = .full ∧ bi.chunksUsed < pagesInUse then
        let (accepted, oldest) := dev.blockNotDisqualifiedFromGC oldest bi
        if accepted then findDirtiest rounds b (some b) bi.chunksUsed oldest
        else findDirtiest rounds b dirtiest pagesInUse oldest
      else findDirtiest rounds b dirtiest pagesInUse oldest
    else (dirtiest, b, oldest)

/-- `pagesInUse` in front of the second loop. -/
def chunkLimit (aggressive : Bool) : Nat :=
  if aggressive then dev.nChunksPerBlock else passiveGcChunks + 1

/-- `iterations`. -/
def iterations (aggressive : Bool) : Nat :=
  if aggressive then dev.nBlocks else min (dev.nBlocks / 16) 200

/-- The end of `yaffs_FindBlockForGarbageCollection`. -/
def found (dirtiest : Option Nat) (b : Nat) : Option Nat × Checker :=
  (dirtiest,
    { dev with
      currentDirtyChecker := b
      oldestDirtySequence := 0
      nonAggressiveSkip := if 0 < dirtiest.getD 0 then 4 else dev.nonAggressiveSkip })

/-- `yaffs_FindBlockForGarbageCollection`; `dev'` is the device after the first loop. That loop leaves
`internalEndBlock` out. -/
def findBlockForGarbageCollection (aggressive : Bool) : Option Nat × Checker :=
  let (prioritised, exist, oldest) :=
    if dev.hasPendingPrioritisedGCs then
      dev.findPrioritised (dev.blocksFrom (dev.internalEndBlock - dev.internalStartBlock)) false
        dev.oldestDirtySequence
    else (none, false, dev.oldestDirtySequence)
  let dev' := { dev with
    hasPendingPrioritisedGCs := dev.hasPendingPrioritisedGCs && exist
    oldestDirtySequence := oldest
    nonAggressiveSkip := dev.nonAggressiveSkip - 1 }
  let aggressive := aggressive || prioritised.isSome
  if !aggressive && decide (0 < dev'.nonAggressiveSkip) then (none, dev')
  else
    match prioritised with
    | some block => dev'.found (some block) dev.currentDirtyChecker
    | none =>
      let (dirtiest, b, _) := dev.findDirtiest (dev.iterations aggressive + 1)
        dev.currentDirtyChecker none (dev.chunkLimit aggressive) oldest
      dev'.found dirtiest b

end Checker

open Library

namespace Checker

variable {dev : Checker} {oldest oldest' b c i : Nat} {bi : DatedBlock} {aggressive : Bool}

/-! ## Blocks -/

def InRange (dev : Checker) (b : Nat) : Prop :=
  dev.internalStartBlock ≤ b ∧ b ≤ dev.internalEndBlock

/-- A full block of the range that is not disqualified. -/
structure Acceptable (dev : Checker) (b : Nat) : Prop where
  inRange : dev.InRange b
  full : (dev.blockInfo b).blockState = .full
  accepted : (dev.blockNotDisqualifiedFromGC dev.oldestDirtySequence (dev.blockInfo b)).1 = true

/-- An acceptable block that is prioritised. -/
structure Preferred (dev : Checker) (b : Nat) : Prop where
  acceptable : dev.Acceptable b
  prioritised : (dev.blockInfo b).gcPrioritise = true

/-- An acceptable block with a chunk that is not used. -/
structure Candidate (dev : Checker) (b : Nat) : Prop where
  acceptable : dev.Acceptable b
  unused : (dev.blockInfo b).chunksUsed < dev.nChunksPerBlock

/-- The number of chunks used. -/
def used (dev : Checker) (b : Nat) : Nat :=
  (dev.blockInfo b).chunksUsed.toNat

/-! ## The oldest dirty block -/

/-- The same blocks are disqualified. -/
def SameOldest (dev : Checker) (oldest oldest' : Nat) : Prop :=
  ∀ bi, (dev.blockNotDisqualifiedFromGC oldest' bi).1 =
    (dev.blockNotDisqualifiedFromGC oldest bi).1

theorem SameOldest.refl (dev : Checker) (oldest : Nat) : dev.SameOldest oldest oldest :=
  fun _ => rfl

/-- The sequence number is kept, or computed if it is not known. -/
theorem blockNotDisqualifiedFromGC_oldest (oldest : Nat) (bi : DatedBlock) :
    (dev.blockNotDisqualifiedFromGC oldest bi).2 = oldest ∨
      oldest = 0 ∧ (dev.blockNotDisqualifiedFromGC oldest bi).2 = dev.findOldest := by
  unfold blockNotDisqualifiedFromGC
  split
  · exact .inl rfl
  split
  · exact .inl rfl
  by_cases hzero : oldest = 0
  · exact .inr ⟨hzero, if_pos hzero⟩
  · exact .inl (if_neg hzero)

/-- It makes no difference whether the sequence number has been computed before. -/
theorem sameOldest_findOldest : dev.SameOldest 0 dev.findOldest := by
  intro bi
  have hsame : (if dev.findOldest = 0 then dev.findOldest else dev.findOldest) =
      if 0 = 0 then dev.findOldest else 0 := by
    rw [ite_self, if_pos rfl]
  unfold blockNotDisqualifiedFromGC
  rw [hsame]
  split_ifs <;> rfl

theorem SameOldest.step (h : dev.SameOldest oldest oldest') (bi : DatedBlock) :
    dev.SameOldest oldest (dev.blockNotDisqualifiedFromGC oldest' bi).2 := by
  rcases dev.blockNotDisqualifiedFromGC_oldest oldest' bi with hkept | ⟨rfl, hfound⟩
  · rw [hkept]
    exact h
  · rw [hfound]
    exact fun bi' => (sameOldest_findOldest bi').trans (h bi')

/-! ## Prioritised blocks -/

/-- What the first loop finds among the blocks `l`. -/
structure Prioritised (dev : Checker) (l : List Nat) (exist : Bool)
    (result : Option Nat × Bool × Nat) : Prop where
  same : dev.SameOldest dev.oldestDirtySequence result.2.2
  some : ∀ i, result.1 = some i → i ∈ l ∧ dev.Preferred i ∧ result.2.1 = true
  none : result.1 = none → (∀ i ∈ l, ¬ dev.Preferred i) ∧
    (result.2.1 = true ↔ exist = true ∨ ∃ i ∈ l, (dev.blockInfo i).gcPrioritise = true)

/-- The loop goes past a block that is not preferred. -/
theorem Prioritised.cons {l : List Nat} {exist exist' : Bool} {result : Option Nat × Bool × Nat}
    (h : dev.Prioritised l exist' result) (hnot : ¬ dev.Preferred i)
    (hexist : exist' = true ↔ exist = true ∨ (dev.blockInfo i).gcPrioritise = true) :
    dev.Prioritised (i :: l) exist result where
  same := h.same
  some j hj := by
    obtain ⟨hmem, hrest⟩ := h.some j hj
    exact ⟨List.mem_cons_of_mem _ hmem, hrest⟩
  none hnone := by
    obtain ⟨hnext, hiff⟩ := h.none hnone
    refine ⟨List.forall_mem_cons.mpr ⟨hnot, hnext⟩, ?_⟩
    simp only [hiff, hexist, List.mem_cons, exists_eq_or_imp, or_assoc]

theorem findPrioritised_spec {l : List Nat} (hl : ∀ i ∈ l, dev.InRange i) (exist : Bool)
    (hsame : dev.SameOldest dev.oldestDirtySequence oldest) :
    dev.Prioritised l exist (dev.findPrioritised l exist oldest) := by
  induction l generalizing exist oldest with
  | nil =>
    refine ⟨hsame, nofun, fun _ => ⟨nofun, ?_⟩⟩
    rw [findPrioritised]
    exact ⟨.inl, fun h => h.resolve_right nofun⟩
  | cons i l ih =>
    obtain ⟨hi, hl⟩ := List.forall_mem_cons.mp hl
    rw [findPrioritised]
    by_cases hprioritised : (dev.blockInfo i).gcPrioritise = true
    · rw [if_pos hprioritised]
      have hexist : true = true ↔ exist = true ∨ (dev.blockInfo i).gcPrioritise = true :=
        ⟨fun _ => .inr hprioritised, fun _ => rfl⟩
      by_cases hfull : (dev.blockInfo i).blockState = .full
      · rw [if_pos hfull]
        have haccepted := hsame (dev.blockInfo i)
        have hnext := hsame.step (dev.blockInfo i)
        generalize dev.blockNotDisqualifiedFromGC oldest (dev.blockInfo i) = test at haccepted hnext
        obtain ⟨accepted, oldest'⟩ := test
        dsimp only at haccepted hnext ⊢
        cases accepted with
        | true =>
          rw [if_pos rfl]
          refine ⟨hnext, fun j hj => ?_, nofun⟩
          obtain rfl : i = j := Option.some.inj hj
          exact ⟨List.mem_cons_self .., ⟨⟨hi, hfull, haccepted.symm⟩, hprioritised⟩, rfl⟩
        | false =>
          rw [if_neg Bool.false_ne_true]
          refine (ih hl true hnext).cons (fun hpreferred => ?_) hexist
          rw [hpreferred.acceptable.accepted] at haccepted
          cases haccepted
      · rw [if_neg hfull]
        exact (ih hl true hsame).cons (fun hpreferred => hfull hpreferred.acceptable.full) hexist
    · rw [if_neg hprioritised]
      exact (ih hl exist hsame).cons (fun hpreferred => hprioritised hpreferred.prioritised)
        (or_iff_left hprioritised).symm

/-! ## The least used block -/

/-- The blocks that the second loop looks at, if it does not end early. -/
def scanOrder (dev : Checker) : Nat → Nat → List Nat
  | 0, _ => []
  | rounds + 1, b => dev.nextBlock b :: dev.scanOrder rounds (dev.nextBlock b)

theorem nextBlock_inRange (dev : Checker) (b : Nat) : dev.InRange (dev.nextBlock b) := by
  have hle := dev.internalStartBlock_le
  unfold nextBlock InRange
  split_ifs <;> omega

/-- In the range, the scan reaches each block after as many rounds as it is away. -/
theorem mem_scanOrder {rounds : Nat} (hb : dev.InRange b) (hc : dev.InRange c)
    (hrounds : (if b < c then c - b else c + dev.nBlocks - b) ≤ rounds) :
    c ∈ dev.scanOrder rounds b := by
  unfold InRange at hb hc
  unfold nBlocks at hrounds
  induction rounds generalizing b with
  | zero => split_ifs at hrounds <;> omega
  | succ rounds ih =>
    rw [scanOrder]
    by_cases heq : c = dev.nextBlock b
    · rw [heq]
      exact List.mem_cons_self ..
    · refine List.mem_cons_of_mem _ (ih (dev.nextBlock_inRange b) ?_)
      unfold nextBlock at heq ⊢
      split_ifs at heq hrounds ⊢ <;> omega

/-- One round more than there are blocks reaches each of them from anywhere. -/
theorem mem_scanOrder_all (b : Nat) (hc : dev.InRange c) :
    c ∈ dev.scanOrder (dev.nBlocks + 1) b := by
  have hnext := dev.nextBlock_inRange b
  rw [scanOrder]
  by_cases heq : c = dev.nextBlock b
  · rw [heq]
    exact List.mem_cons_self ..
  · refine List.mem_cons_of_mem _ (mem_scanOrder hnext hc ?_)
    unfold InRange at hnext hc
    unfold nBlocks
    split_ifs <;> omega

theorem findDirtiest_best {rounds limit : Nat} {l : List Nat} {dirtiest : Option Nat}
    {pagesInUse : Int} (hbest : IsBest dev.Acceptable dev.used limit l dirtiest)
    (hpages : pagesInUse.toNat = bestCost dev.used limit dirtiest)
    (hsame : dev.SameOldest dev.oldestDirtySequence oldest) :
    IsBest dev.Acceptable dev.used limit (l ++ dev.scanOrder rounds b)
      (dev.findDirtiest rounds b dirtiest pagesInUse oldest).1 := by
  induction rounds generalizing b l dirtiest pagesInUse oldest with
  | zero =>
    rw [scanOrder, List.append_nil]
    exact hbest
  | succ rounds ih =>
    rw [findDirtiest]
    by_cases hpos : 0 < pagesInUse
    · rw [if_pos hpos, scanOrder, List.append_cons]
      have hi := dev.nextBlock_inRange b
      dsimp only
      generalize dev.nextBlock b = i at hi ⊢
      have hlt : (dev.blockInfo i).chunksUsed < pagesInUse ↔
          dev.used i < bestCost dev.used limit dirtiest := by
        rw [← hpages, used]
        omega
      by_cases htest : (dev.blockInfo i).blockState = .full ∧
          (dev.blockInfo i).chunksUsed < pagesInUse
      · rw [if_pos htest]
        have haccepted := hsame (dev.blockInfo i)
        have hnext := hsame.step (dev.blockInfo i)
        generalize dev.blockNotDisqualifiedFromGC oldest (dev.blockInfo i) = test
          at haccepted hnext
        obtain ⟨accepted, oldest'⟩ := test
        dsimp only at haccepted hnext ⊢
        cases accepted with
        | true =>
          rw [if_pos rfl]
          exact ih (hbest.replace ⟨hi, htest.1, haccepted.symm⟩ (hlt.mp htest.2)) rfl hnext
        | false =>
          rw [if_neg Bool.false_ne_true]
          refine ih (hbest.append fun y hy hacceptable => ?_) hpages hnext
          rw [List.mem_singleton.mp hy] at hacceptable
          rw [hacceptable.accepted] at haccepted
          cases haccepted
      · rw [if_neg htest]
        refine ih (hbest.append fun y hy hacceptable => ?_) hpages hsame
        rw [List.mem_singleton.mp hy] at hacceptable ⊢
        exact Nat.not_lt.mp fun hused => htest ⟨hacceptable.full, hlt.mpr hused⟩
    · rw [if_neg hpos]
      refine hbest.append fun y _ _ => ?_
      rw [← hpages]
      omega

/-! ## The selection -/

/-- The second loop is reached if the first finds no block. -/
def Searches (dev : Checker) (aggressive : Bool) : Prop :=
  aggressive = true ∨ dev.nonAggressiveSkip ≤ 1

/-- The first least used block among those that the second loop looks at. -/
def LeastUsed (dev : Checker) (aggressive : Bool) (best : Option Nat) : Prop :=
  IsBest dev.Acceptable dev.used (dev.chunkLimit aggressive)
    (dev.scanOrder (dev.iterations aggressive + 1) dev.currentDirtyChecker) best

/-- How a block is selected. -/
inductive Selected (dev : Checker) (aggressive : Bool) : Option Nat × Checker → Prop
  | prioritised {i : Nat} {dev' : Checker} (hlt : i < dev.internalEndBlock)
      (hpreferred : dev.Preferred i) (hpending : dev.hasPendingPrioritisedGCs = true)
      (hpending' : dev'.hasPendingPrioritisedGCs = true) : Selected dev aggressive (some i, dev')
  | searched {best : Option Nat} {dev' : Checker}
      (hnone : dev.hasPendingPrioritisedGCs = true →
        ∀ i < dev.internalEndBlock, ¬ dev.Preferred i)
      (hbest : dev.Searches aggressive → dev.LeastUsed aggressive best)
      (hskip : ¬ dev.Searches aggressive → best = none)
      (hpending : dev.hasPendingPrioritisedGCs = true →
        (dev'.hasPendingPrioritisedGCs = true ↔ ∃ i < dev.internalEndBlock,
          dev.InRange i ∧ (dev.blockInfo i).gcPrioritise = true)) :
      Selected dev aggressive (best, dev')

theorem mem_blocksFrom :
    i ∈ dev.blocksFrom (dev.internalEndBlock - dev.internalStartBlock) ↔
      i < dev.internalEndBlock ∧ dev.InRange i := by
  have hle := dev.internalStartBlock_le
  rw [blocksFrom, List.mem_range'_1, InRange]
  omega

theorem findBlockForGarbageCollection_selected (dev : Checker) (aggressive : Bool) :
    Selected dev aggressive (dev.findBlockForGarbageCollection aggressive) := by
  unfold findBlockForGarbageCollection
  have hfirst : dev.Prioritised (if dev.hasPendingPrioritisedGCs then
      dev.blocksFrom (dev.internalEndBlock - dev.internalStartBlock) else []) false
      (if dev.hasPendingPrioritisedGCs then
        dev.findPrioritised (dev.blocksFrom (dev.internalEndBlock - dev.internalStartBlock)) false
          dev.oldestDirtySequence
      else (none, false, dev.oldestDirtySequence)) := by
    have hsame := SameOldest.refl dev dev.oldestDirtySequence
    split_ifs
    · exact findPrioritised_spec (fun i hi => (mem_blocksFrom.mp hi).2) false hsame
    · exact findPrioritised_spec (fun _ hi => absurd hi List.not_mem_nil) false hsame
  generalize (if dev.hasPendingPrioritisedGCs then
      dev.findPrioritised (dev.blocksFrom (dev.internalEndBlock - dev.internalStartBlock)) false
        dev.oldestDirtySequence
    else (none, false, dev.oldestDirtySequence)) = first at hfirst
  obtain ⟨prioritised, exist, oldest⟩ := first
  obtain ⟨hsame, hsome, hnone⟩ := hfirst
  dsimp only at hsame hsome hnone ⊢
  cases prioritised with
  | some i =>
    obtain ⟨hmem, hpreferred, rfl⟩ := hsome i rfl
    rw [Option.isSome_some, Bool.or_true, Bool.not_true, Bool.false_and,
      if_neg Bool.false_ne_true]
    have hpending : dev.hasPendingPrioritisedGCs = true := by
      by_contra hno
      rw [if_neg hno] at hmem
      exact absurd hmem List.not_mem_nil
    rw [if_pos hpending] at hmem
    refine .prioritised (mem_blocksFrom.mp hmem).1 hpreferred hpending ?_
    show (dev.hasPendingPrioritisedGCs && true) = true
    rw [hpending, Bool.and_true]
  | none =>
    obtain ⟨hnot, hexist⟩ := hnone rfl
    have hnone : dev.hasPendingPrioritisedGCs = true →
        ∀ i < dev.internalEndBlock, ¬ dev.Preferred i := by
      intro hpending i hi hpreferred
      rw [if_pos hpending] at hnot
      exact hnot i (mem_blocksFrom.mpr ⟨hi, hpreferred.acceptable.inRange⟩) hpreferred
    have hpending : dev.hasPendingPrioritisedGCs = true →
        ((dev.hasPendingPrioritisedGCs && exist) = true ↔ ∃ i < dev.internalEndBlock,
          dev.InRange i ∧ (dev.blockInfo i).gcPrioritise = true) := by
      intro hpending
      rw [if_pos hpending] at hexist
      rw [hpending, Bool.true_and, hexist, or_iff_right Bool.false_ne_true]
      refine exists_congr fun i => ?_
      rw [mem_blocksFrom, and_assoc]
    rw [Option.isSome_none, Bool.or_false]
    have hskip : (!aggressive && decide (0 < dev.nonAggressiveSkip - 1)) = true ↔
        ¬ dev.Searches aggressive := by
      rw [Searches, Bool.and_eq_true, Bool.not_eq_true', decide_eq_true_iff, not_or,
        Bool.not_eq_true]
      exact and_congr_right fun _ => by omega
    by_cases hsearch : dev.Searches aggressive
    · rw [if_neg fun h => hskip.mp h hsearch]
      refine .searched hnone (fun _ => ?_) (fun hno => absurd hsearch hno) hpending
      exact findDirtiest_best isBest_nil rfl hsame
    · rw [if_pos (hskip.mpr hsearch)]
      exact .searched hnone (fun h => absurd h hsearch) (fun _ => rfl) hpending

/-! ## What is expected -/

/-- What the selection is for: only acceptable blocks; the least used one; a preferred one if there
is one; and no prioritised block is forgotten. -/
structure VictimOk (dev : Checker) (aggressive : Bool) (result : Option Nat × Checker) : Prop where
  accepted : ∀ b, result.1 = some b → dev.Acceptable b
  least : aggressive = true → ¬ (dev.hasPendingPrioritisedGCs = true ∧ ∃ b, dev.Preferred b) →
    (∀ b, result.1 = some b → dev.Candidate b ∧ ∀ c, dev.Candidate c → dev.used b ≤ dev.used c) ∧
      (result.1 = none → ∀ c, ¬ dev.Candidate c)
  preferred : dev.hasPendingPrioritisedGCs = true → (∃ b, dev.Preferred b) →
    ∃ b, result.1 = some b ∧ dev.Preferred b
  cleared : dev.hasPendingPrioritisedGCs = true → result.2.hasPendingPrioritisedGCs = false →
    ∀ b, dev.InRange b → (dev.blockInfo b).gcPrioritise = false

/-- The last block makes no difference to the first loop, or is selected by the second. -/
def LastHarmless (dev : Checker) (aggressive : Bool) : Prop :=
  dev.hasPendingPrioritisedGCs = true →
    (dev.blockInfo dev.internalEndBlock).gcPrioritise = true →
      (∃ b < dev.internalEndBlock, dev.InRange b ∧ (dev.blockInfo b).gcPrioritise = true) ∧
        (dev.Acceptable dev.internalEndBlock →
          (∃ b < dev.internalEndBlock, dev.Preferred b) ∨
            dev.Searches aggressive ∧ dev.LeastUsed aggressive (some dev.internalEndBlock))

theorem inRange_end (dev : Checker) : dev.InRange dev.internalEndBlock :=
  ⟨dev.internalStartBlock_le, Nat.le_refl _⟩

theorem candidate_iff : dev.Candidate b ↔ dev.Acceptable b ∧ dev.used b < dev.nChunksPerBlock := by
  have hpos := dev.nChunksPerBlock_pos
  have hlt : dev.used b < dev.nChunksPerBlock ↔
      (dev.blockInfo b).chunksUsed < dev.nChunksPerBlock := by
    rw [used]
    omega
  rw [hlt]
  exact ⟨fun h => ⟨h.acceptable, h.unused⟩, fun h => ⟨h.1, h.2⟩⟩

/-- An aggressive search looks at all blocks. -/
theorem LeastUsed.least {best : Option Nat} (h : dev.LeastUsed true best) :
    (∀ b, best = some b → dev.Candidate b ∧ ∀ c, dev.Candidate c → dev.used b ≤ dev.used c) ∧
      (best = none → ∀ c, ¬ dev.Candidate c) := by
  have hall : ∀ c, dev.Candidate c →
      bestCost dev.used dev.nChunksPerBlock best ≤ dev.used c := fun c hc =>
    IsBest.le h (mem_scanOrder_all _ hc.acceptable.inRange) hc.acceptable
  constructor
  · rintro b rfl
    obtain ⟨_, hacceptable, hlt⟩ := IsBest.mem h
    exact ⟨candidate_iff.mpr ⟨hacceptable, hlt⟩, hall⟩
  · rintro rfl c hc
    exact Nat.not_le_of_lt (candidate_iff.mp hc).2 (hall c hc)

/-- The only preferred block may be the last one. -/
theorem eq_end_of_preferred (hnone : ∀ i < dev.internalEndBlock, ¬ dev.Preferred i)
    (hb : dev.Preferred b) : b = dev.internalEndBlock := by
  have hle := hb.acceptable.inRange.2
  by_contra hne
  exact hnone b (Nat.lt_of_le_of_ne hle hne) hb

/-- The selection does what is expected if and only if the last block is harmless. -/
theorem victim_ok_iff (dev : Checker) (aggressive : Bool) :
    dev.VictimOk aggressive (dev.findBlockForGarbageCollection aggressive) ↔
      dev.LastHarmless aggressive := by
  have hselected := dev.findBlockForGarbageCollection_selected aggressive
  generalize dev.findBlockForGarbageCollection aggressive = result at hselected
  cases hselected with
  | @prioritised i dev' hlt hpreferred hpending hpending' =>
    constructor
    · intro _ _ _
      exact ⟨⟨i, hlt, hpreferred.acceptable.inRange, hpreferred.prioritised⟩,
        fun _ => .inl ⟨i, hlt, hpreferred⟩⟩
    · intro _
      refine ⟨?_, fun _ hno => absurd ⟨hpending, i, hpreferred⟩ hno,
        fun _ _ => ⟨i, rfl, hpreferred⟩, fun _ hcleared => ?_⟩
      · rintro b ⟨rfl⟩
        exact hpreferred.acceptable
      · rw [hpending'] at hcleared
        cases hcleared
  | @searched best dev' hnone hbest hskip hpending =>
    constructor
    · intro hok hpend hlast
      constructor
      · refine (hpending hpend).mp (Bool.not_eq_false _ |>.mp fun hcleared => ?_)
        have hnot := hok.cleared hpend hcleared _ dev.inRange_end
        rw [hlast] at hnot
        cases hnot
      · intro hacceptable
        obtain ⟨b, rfl, hb⟩ := hok.preferred hpend ⟨_, hacceptable, hlast⟩
        obtain rfl := eq_end_of_preferred (hnone hpend) hb
        by_cases hsearch : dev.Searches aggressive
        · exact .inr ⟨hsearch, hbest hsearch⟩
        · exact absurd (hskip hsearch) nofun
    intro hharmless
    refine ⟨?_, ?_, ?_, ?_⟩
    · rintro b rfl
      by_cases hsearch : dev.Searches aggressive
      · exact (IsBest.mem (hbest hsearch)).2.1
      · exact absurd (hskip hsearch) nofun
    · rintro rfl _
      exact (hbest (.inl rfl)).least
    · rintro hpend ⟨b, hb⟩
      obtain rfl := eq_end_of_preferred (hnone hpend) hb
      rcases (hharmless hpend hb.prioritised).2 hb.acceptable with ⟨i, hlt, hi⟩ | hleast
      · exact absurd hi (hnone hpend i hlt)
      · obtain ⟨hsearch, hleast⟩ := hleast
        exact ⟨_, (hbest hsearch).unique hleast, hb⟩
    intro hpend hcleared b hb
    have hno : ¬ ∃ i < dev.internalEndBlock,
        dev.InRange i ∧ (dev.blockInfo i).gcPrioritise = true := by
      rw [← hpending hpend]
      exact Bool.eq_false_iff.mp hcleared
    by_contra hne
    have hprioritised := (Bool.not_eq_false _).mp hne
    by_cases hlt : b < dev.internalEndBlock
    · exact hno ⟨b, hlt, hb, hprioritised⟩
    · obtain rfl : b = dev.internalEndBlock := Nat.le_antisymm hb.2 (Nat.not_lt.mp hlt)
      exact hno (hharmless hpend hprioritised).1

/-- A full block in use, of a device that has written it. -/
def usedBlock (pagesInUse : Int) (gcPrioritise : Bool) : DatedBlock where
  blockState := .full
  chunkBits _ := true
  pagesInUse := pagesInUse
  softDeletions := 0
  hasShrinkHeader := false
  needsRetiring := false
  gcPrioritise := gcPrioritise
  skipErasedCheck := true
  chunkErrorStrikes := 0
  sequenceNumber := 1

/-- Two full blocks, the last one prioritised. -/
def lastPrioritised : Checker where
  isYaffs2 := true
  nChunksPerBlock := 8
  internalStartBlock := 1
  internalEndBlock := 2
  blockInfo b := if b = 2 then usedBlock 5 true else usedBlock 3 false
  sequenceNumber := 2
  oldestDirtySequence := 0
  currentDirtyChecker := 1
  nonAggressiveSkip := 0
  hasPendingPrioritisedGCs := true
  nChunksPerBlock_pos := Nat.succ_pos 7
  internalStartBlock_pos := Nat.succ_pos 0
  internalStartBlock_le := Nat.le_succ 1

/-- The prioritised block is not selected, and it is forgotten that there is one. -/
theorem victim_last_block_missed :
    lastPrioritised.Preferred 2 ∧
      (lastPrioritised.findBlockForGarbageCollection true).1 = some 1 ∧
      (lastPrioritised.findBlockForGarbageCollection true).2.hasPendingPrioritisedGCs = false ∧
      ¬ lastPrioritised.VictimOk true (lastPrioritised.findBlockForGarbageCollection true) := by
  have hpreferred : lastPrioritised.Preferred 2 := ⟨⟨⟨by decide, by decide⟩, rfl, rfl⟩, rfl⟩
  refine ⟨hpreferred, rfl, rfl, fun hok => ?_⟩
  have hcleared := hok.cleared rfl rfl 2 hpreferred.acceptable.inRange
  rw [hpreferred.prioritised] at hcleared
  cases hcleared

end Checker

end AndroidKernel.YaffsGc
