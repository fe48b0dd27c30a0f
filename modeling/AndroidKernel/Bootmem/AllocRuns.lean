import AndroidKernel.Bootmem.Alloc

/-!
# Runs of the boot memory allocator

Read `alloc_bootmem_run` first. The page that holds the end of the last block is the only one that a
later block may share, and beyond that end no block has a byte of it.
-/

namespace AndroidKernel.Bootmem

open Library

/-- A node with the blocks that are allocated: an address and a size each. -/
structure State where
  bdata : Node
  live : List (Nat × Nat)

/-- The page holds a byte of the block. -/
def Touches (block : Nat × Nat) (pfn : Nat) : Prop :=
  pfn * pageSize < block.1 + block.2 ∧ block.1 < (pfn + 1) * pageSize

/-- The blocks share no byte. -/
def Apart (block block' : Nat × Nat) : Prop :=
  block.1 + block.2 ≤ block'.1 ∨ block'.1 + block'.2 ≤ block.1

instance : Std.Symm Apart :=
  ⟨fun _ _ => Or.symm⟩

/-- The node has its bitmap and ends below the last page of the 32-bit physical space. -/
structure Node.Fits (bdata : Node) : Prop where
  ordered : bdata.nodeMinPfn ≤ bdata.nodeLowPfn
  top : bdata.nodeLowPfn < 2 ^ 20
  map : bdata.nodeBootmemMap.isSome = true

/-- The invariant: blocks lie in the node, share no byte and have their pages marked. The
page with the end of the last block is marked, and no block has a byte of it from there on. -/
structure Kept (s : State) : Prop where
  fits : s.bdata.Fits
  inside : ∀ b ∈ s.live, 0 < b.2 ∧ s.bdata.nodeMinPfn * pageSize ≤ b.1 ∧
    b.1 + b.2 ≤ s.bdata.nodeLowPfn * pageSize
  apart : s.live.Pairwise Apart
  marked : ∀ b ∈ s.live, ∀ pfn, Touches b pfn → s.bdata.marked pfn = true
  lastEnd : s.bdata.lastEndOff ≤ (s.bdata.nodeLowPfn - s.bdata.nodeMinPfn) * pageSize
  tail : s.bdata.lastEndOff % pageSize ≠ 0 →
    s.bdata.bits (s.bdata.lastEndOff / pageSize) = true ∧
      ∀ b ∈ s.live, Touches b (s.bdata.nodeMinPfn + s.bdata.lastEndOff / pageSize) →
        b.1 + b.2 ≤ s.bdata.nodeMinPfn * pageSize + s.bdata.lastEndOff
  hint : s.bdata.hintIdx ≤ s.bdata.nodeLowPfn - s.bdata.nodeMinPfn

variable {s : State} {bdata : Node} {size j q midx : Nat}

theorem Node.Fits.linked (h : bdata.Fits) : bdata.Linked :=
  ⟨h.ordered, h.top.le, h.map⟩

theorem Node.Fits.base (h : bdata.Fits) :
    pfnPhys bdata.nodeMinPfn = bdata.nodeMinPfn * pageSize := by
  have := h.ordered
  have := h.top
  apply Nat.mod_eq_of_lt
  unfold pageSize word
  omega

/-- A page at an index where a block may start is a multiple of the alignment. -/
theorem AlignedAt.dvd (h : AlignedAt bdata (2 ^ (j - 12)) q) :
    2 ^ j ∣ (bdata.nodeMinPfn + q) * pageSize := by
  rcases Nat.le_total 12 j with hle | hle
  · have hsplit : 2 ^ j = 2 ^ (j - 12) * 2 ^ 12 := by
      rw [← pow_add, Nat.sub_add_cancel hle]
    rw [hsplit]
    exact Nat.mul_dvd_mul_right h _
  · exact Nat.dvd_mul_left_of_dvd (pow_dvd_pow 2 hle) _

/-- Where the new block starts: at its first clear page, or in the page before it, which holds
the end of the last block. -/
structure Starts (bdata : Node) (q startOff : Nat) : Prop where
  le : startOff ≤ q * pageSize
  shared : startOff < q * pageSize → bdata.lastEndOff % pageSize ≠ 0 ∧
    bdata.lastEndOff / pageSize + 1 = q ∧ bdata.lastEndOff ≤ startOff

theorem startOff_spec (hfits : bdata.Fits) (hj : j < 32) (hq : q < bdata.nodeLowPfn - bdata.nodeMinPfn)
    (haligned : AlignedAt bdata (2 ^ (j - 12)) q) {startOff : Nat}
    (hstart : startOff =
      if bdata.lastEndOff % pageSize ≠ 0 ∧ pfnDown bdata.lastEndOff + 1 = q then
        alignOff bdata bdata.lastEndOff (2 ^ j)
      else pfnPhys q) :
    Starts bdata q startOff ∧ 2 ^ j ∣ bdata.nodeMinPfn * pageSize + startOff := by
  have hword : word = 2 ^ 32 := rfl
  have htop := hfits.top
  have hdvd := haligned.dvd
  rw [Nat.add_mul] at hdvd
  have hphys : pfnPhys q = q * pageSize := by
    apply Nat.mod_eq_of_lt
    unfold pageSize
    omega
  by_cases hmerge : bdata.lastEndOff % pageSize ≠ 0 ∧ pfnDown bdata.lastEndOff + 1 = q
  · rw [if_pos hmerge, alignOff, hfits.base] at hstart
    have hpage : bdata.lastEndOff < q * pageSize := by
      have := hmerge.2
      unfold pfnDown pageSize at *
      omega
    have hroom := @add_le_of_dvd 32 j (bdata.nodeMinPfn * pageSize + q * pageSize) (by omega) hdvd
      (by unfold pageSize; omega)
    have hsum : wadd (bdata.nodeMinPfn * pageSize) bdata.lastEndOff =
        bdata.nodeMinPfn * pageSize + bdata.lastEndOff := by
      apply wadd_eq
      have := Nat.two_pow_pos j
      omega
    rw [hsum] at hstart
    have hle := @le_align 32 j (bdata.nodeMinPfn * pageSize + bdata.lastEndOff) (by omega) (by omega)
    have hleast := @align_le 32 j (bdata.nodeMinPfn * pageSize + bdata.lastEndOff)
      (bdata.nodeMinPfn * pageSize + q * pageSize) (by omega) hdvd (by omega)
    have hmultiple := @align_dvd 32 j (bdata.nodeMinPfn * pageSize + bdata.lastEndOff) (by omega)
    generalize align 32 (bdata.nodeMinPfn * pageSize + bdata.lastEndOff) (2 ^ j) = start at *
    rw [wsub_eq (by omega) (by unfold pageSize at *; omega)] at hstart
    refine ⟨⟨by omega, fun _ => ⟨hmerge.1, hmerge.2, by omega⟩⟩, ?_⟩
    rw [hstart, Nat.add_sub_cancel' (by omega)]
    exact hmultiple
  · rw [if_neg hmerge, hphys] at hstart
    subst hstart
    exact ⟨⟨Nat.le_refl _, fun h => absurd h (Nat.lt_irrefl _)⟩, hdvd⟩

/-- `PFN_UP` below the last page. -/
theorem pfnUp_eq {x : Nat} (h : x ≤ word - pageSize) : pfnUp x = (x + 4095) / 4096 := by
  unfold pfnUp pageSize
  rw [wadd_eq]
  unfold word pageSize at *
  omega

/-- The block is reserved without a conflict. -/
theorem takeBlock_eq (hfits : bdata.Fits) (hj : j < 32) (hsize : 0 < size)
    (hsmall : size ≤ word - pageSize) (haligned : AlignedAt bdata (2 ^ (j - 12)) q)
    (hend : q + pfnUp size ≤ bdata.nodeLowPfn - bdata.nodeMinPfn)
    (hrun : ClearRun bdata q (pfnUp size)) :
    ∃ startOff, Starts bdata q startOff ∧ 2 ^ j ∣ bdata.nodeMinPfn * pageSize + startOff ∧
      takeBlock bdata size (2 ^ j) q = some ({ bdata with
        lastEndOff := startOff + size
        hintIdx := pfnUp (startOff + size)
        bits := Bitmap.writeBits true q (pfnUp (startOff + size) - q) bdata.bits },
        some (bdata.nodeMinPfn * pageSize + startOff)) := by
  have hword : word = 2 ^ 32 := rfl
  have htop := hfits.top
  have hpages := pfnUp_eq hsmall
  obtain ⟨startOff, hstart⟩ : ∃ startOff, startOff =
      if bdata.lastEndOff % pageSize ≠ 0 ∧ pfnDown bdata.lastEndOff + 1 = q then
        alignOff bdata bdata.lastEndOff (2 ^ j)
      else pfnPhys q := ⟨_, rfl⟩
  obtain ⟨hstarts, hdvd⟩ := startOff_spec hfits hj (by omega) haligned hstart
  obtain ⟨hle, hshared⟩ := hstarts
  have hoff : wadd startOff size = startOff + size := by
    apply wadd_eq
    unfold pageSize at *
    omega
  have hup : pfnUp (startOff + size) = (startOff + size + 4095) / 4096 := by
    apply pfnUp_eq
    unfold pageSize at *
    omega
  have hfirst : pfnDown startOff + (if pfnDown startOff < q then 1 else 0) = q := by
    unfold pfnDown
    by_cases hpage : startOff < q * pageSize
    · obtain ⟨hne, heq, hge⟩ := hshared hpage
      unfold pageSize at *
      rw [if_pos (by omega)]
      omega
    · unfold pageSize at *
      rw [if_neg (by omega)]
      omega
  have hroom := hfits.linked.room
  have hreserve := @reserveLoop_clear
    { bdata with lastEndOff := startOff + size, hintIdx := pfnUp (startOff + size) }
    q q (pfnUp (startOff + size) - q) true
    (by show q + _ ≤ bdata.mapBits; unfold pageSize at *; omega)
    (fun i hlo hhi => hrun i hlo (by unfold pageSize at *; omega))
  have hbase : wadd (bdata.nodeMinPfn * pageSize) startOff = bdata.nodeMinPfn * pageSize + startOff := by
    apply wadd_eq
    unfold pageSize at *
    omega
  refine ⟨startOff, ⟨hle, hshared⟩, hdvd, ?_⟩
  unfold takeBlock
  rw [← hstart]
  dsimp only
  rw [hfirst, hoff, Node.reserve, hreserve]
  dsimp only
  rw [if_pos rfl, hfits.base, hbase]

/-- The invariant after a block has been taken, which shares no byte with the others. -/
theorem Kept.take (h : Kept s) {startOff : Nat} (hstarts : Starts s.bdata q startOff)
    (hsize : 0 < size) (hsmall : size ≤ word - pageSize)
    (hend : q + pfnUp size ≤ s.bdata.nodeLowPfn - s.bdata.nodeMinPfn)
    (hrun : ClearRun s.bdata q (pfnUp size)) :
    (∀ b ∈ s.live, Apart (s.bdata.nodeMinPfn * pageSize + startOff, size) b) ∧
      Kept { bdata := { s.bdata with
               lastEndOff := startOff + size
               hintIdx := pfnUp (startOff + size)
               bits := Bitmap.writeBits true q (pfnUp (startOff + size) - q) s.bdata.bits }
             live := (s.bdata.nodeMinPfn * pageSize + startOff, size) :: s.live } := by
  have hword : word = 2 ^ 32 := rfl
  have htop := h.fits.top
  have hordered := h.fits.ordered
  have hpages := pfnUp_eq hsmall
  have hstart := hstarts.le
  have hshared := hstarts.shared
  have hup : pfnUp (startOff + size) = (startOff + size + 4095) / 4096 := by
    apply pfnUp_eq
    unfold pageSize at *
    omega
  -- a live block touches none of the pages that were clear, and in the page before them
  -- it ends where the last block does or earlier
  have hbelow : ∀ b ∈ s.live, ∀ pfn, Touches b pfn → s.bdata.nodeMinPfn + q ≤ pfn →
      pfn < s.bdata.nodeMinPfn + q + pfnUp size → False := by
    intro b hb pfn htouch hlo hhi
    have hset := h.marked b hb pfn htouch
    rw [Node.marked, hrun _ (by omega) (by omega)] at hset
    cases hset
  have hshare : ∀ b ∈ s.live, startOff < q * pageSize →
      Touches b (s.bdata.nodeMinPfn + s.bdata.lastEndOff / pageSize) →
      b.1 + b.2 ≤ s.bdata.nodeMinPfn * pageSize + startOff := by
    intro b hb hlt htouch
    obtain ⟨hne, -, hge⟩ := hshared hlt
    have := (h.tail hne).2 b hb htouch
    omega
  have hapart : ∀ b ∈ s.live, Apart (s.bdata.nodeMinPfn * pageSize + startOff, size) b := by
    intro b hb
    by_contra hmeet
    have hmeet : b.1 < s.bdata.nodeMinPfn * pageSize + startOff + size ∧
        s.bdata.nodeMinPfn * pageSize + startOff < b.1 + b.2 := by
      unfold Apart at hmeet
      dsimp only at hmeet
      omega
    -- the first byte that both have
    have hbyte : ∃ x, s.bdata.nodeMinPfn * pageSize + startOff ≤ x ∧ b.1 ≤ x ∧ x < b.1 + b.2 ∧
        x < s.bdata.nodeMinPfn * pageSize + startOff + size := by
      have := (h.inside b hb).1
      rcases Nat.le_total b.1 (s.bdata.nodeMinPfn * pageSize + startOff) with hle | hle
      · exact ⟨_, Nat.le_refl _, hle, hmeet.2, by omega⟩
      · exact ⟨_, hle, Nat.le_refl _, by omega, hmeet.1⟩
    obtain ⟨x, hx, hxb, hxend, hxlast⟩ := hbyte
    have htouch : Touches b (x / pageSize) := by
      unfold Touches pageSize
      omega
    rcases Nat.lt_or_ge (x / pageSize) (s.bdata.nodeMinPfn + q) with hpage | hpage
    · have hlt : startOff < q * pageSize := by
        unfold pageSize at *
        omega
      have hlast := hshared hlt
      have heq : x / pageSize = s.bdata.nodeMinPfn + s.bdata.lastEndOff / pageSize := by
        unfold pageSize at *
        omega
      have := hshare b hb hlt (heq ▸ htouch)
      omega
    · exact hbelow b hb _ htouch hpage (by unfold pageSize at *; omega)
  refine ⟨hapart, ⟨?_, ?_, ?_, ?_, ?_, ?_, ?_⟩⟩
  · exact ⟨hordered, htop, h.fits.map⟩
  · intro b hb
    rcases List.mem_cons.mp hb with rfl | hb
    · dsimp only
      refine ⟨hsize, by omega, ?_⟩
      unfold pageSize at *
      omega
    · exact h.inside b hb
  · exact List.Pairwise.cons hapart h.apart
  · intro b hb pfn htouch
    show Bitmap.writeBits true q (pfnUp (startOff + size) - q) s.bdata.bits
      (pfn - s.bdata.nodeMinPfn) = true
    rw [Bitmap.writeBits_apply]
    by_cases hin : q ≤ pfn - s.bdata.nodeMinPfn ∧
      pfn - s.bdata.nodeMinPfn < q + (pfnUp (startOff + size) - q)
    · rw [if_pos hin]
    rw [if_neg hin]
    rcases List.mem_cons.mp hb with rfl | hb
    · -- the only page of the block that is not new is the shared one
      unfold Touches at htouch
      dsimp only at htouch
      rw [hup] at hin
      have hlt : startOff < q * pageSize := by
        unfold pageSize at *
        omega
      have hlast := hshared hlt
      have heq : pfn - s.bdata.nodeMinPfn = s.bdata.lastEndOff / pageSize := by
        unfold pageSize at *
        omega
      rw [heq]
      exact (h.tail hlast.1).1
    · exact h.marked b hb pfn htouch
  · dsimp only
    unfold pageSize at *
    omega
  · intro hne
    dsimp only at hne ⊢
    have hpage : q ≤ (startOff + size) / pageSize ∨ startOff < q * pageSize ∧
        (startOff + size) / pageSize = s.bdata.lastEndOff / pageSize := by
      by_cases hlt : startOff < q * pageSize
      · have hlast := hshared hlt
        unfold pageSize at *
        omega
      · unfold pageSize at *
        omega
    constructor
    · rw [Bitmap.writeBits_apply]
      rcases hpage with hnew | hold
      · rw [if_pos (by rw [hup]; unfold pageSize at *; omega)]
      · by_cases hin : q ≤ (startOff + size) / pageSize ∧
          (startOff + size) / pageSize < q + (pfnUp (startOff + size) - q)
        · rw [if_pos hin]
        · rw [if_neg hin, hold.2]
          exact (h.tail (hshared hold.1).1).1
    intro b hb htouch
    rcases List.mem_cons.mp hb with rfl | hb
    · dsimp only
      omega
    · rcases hpage with hnew | hold
      · exact (hbelow b hb _ htouch (by omega) (by unfold pageSize at *; omega)).elim
      · rw [hold.2] at htouch
        have := hshare b hb hold.1 htouch
        omega
  · dsimp only
    rw [hup]
    unfold pageSize at *
    omega

/-- Freeing a whole block clears the pages that lie in it, and the invariant holds of the rest. -/
theorem Kept.free (h : Kept s) {block : Nat × Nat} (hblock : block ∈ s.live) :
    ∃ bdata, freeBootmemNode s.bdata block.1 block.2 = some (bdata, 0) ∧
      Kept ⟨bdata, s.live.erase block⟩ := by
  have hword : word = 2 ^ 32 := rfl
  have htop := h.fits.top
  have hordered := h.fits.ordered
  have hroom := h.fits.linked.room
  obtain ⟨hsize, hlo, hhi⟩ := h.inside block hblock
  have hstart : pfnUp block.1 = (block.1 + 4095) / 4096 := by
    apply pfnUp_eq
    unfold pageSize at *
    omega
  have hstop : pfnDown (wadd block.1 block.2) = (block.1 + block.2) / 4096 := by
    unfold pfnDown
    rw [wadd_eq (by unfold pageSize at *; omega)]
    rfl
  have hset : ∀ i, pfnUp block.1 - s.bdata.nodeMinPfn ≤ i →
      i < pfnDown (wadd block.1 block.2) - s.bdata.nodeMinPfn → s.bdata.bits i = true := by
    intro i hge hlt
    rw [hstart] at hge
    rw [hstop] at hlt
    have htouch : Touches block (s.bdata.nodeMinPfn + i) := by
      unfold Touches pageSize at *
      omega
    have hbit := h.marked block hblock _ htouch
    rwa [Node.marked, Nat.add_sub_cancel_left] at hbit
  have hguard : ¬ (pfnUp block.1 < s.bdata.nodeMinPfn ∨
      pfnDown (wadd block.1 block.2) > s.bdata.nodeLowPfn) := by
    rw [hstart, hstop]
    unfold pageSize at *
    omega
  have hfree : freeBootmemNode s.bdata block.1 block.2 = some ({ s.bdata with
      hintIdx := if s.bdata.hintIdx > pfnUp block.1 - s.bdata.nodeMinPfn then
        pfnUp block.1 - s.bdata.nodeMinPfn else s.bdata.hintIdx
      bits := Bitmap.writeBits false (pfnUp block.1 - s.bdata.nodeMinPfn)
        (pfnDown (wadd block.1 block.2) - s.bdata.nodeMinPfn -
          (pfnUp block.1 - s.bdata.nodeMinPfn)) s.bdata.bits }, 0) := by
    unfold freeBootmemNode markBootmemNode
    rw [if_neg hguard, wsub_eq (by omega) (by rw [hstart]; unfold pageSize at *; omega),
      wsub_eq (by rw [hstop]; unfold pageSize at *; omega) (by rw [hstop]; unfold pageSize at *; omega)]
    dsimp only
    rw [Node.free_eq (by rw [hstop]; unfold pageSize at *; omega) hset]
    rfl
  refine ⟨_, hfree, ?_⟩
  -- a page that is cleared lies in the block
  have hcleared : ∀ pfn, s.bdata.nodeMinPfn ≤ pfn →
      pfnUp block.1 - s.bdata.nodeMinPfn ≤ pfn - s.bdata.nodeMinPfn ∧
        pfn - s.bdata.nodeMinPfn < pfnUp block.1 - s.bdata.nodeMinPfn +
          (pfnDown (wadd block.1 block.2) - s.bdata.nodeMinPfn -
            (pfnUp block.1 - s.bdata.nodeMinPfn)) →
      block.1 ≤ pfn * pageSize ∧ (pfn + 1) * pageSize ≤ block.1 + block.2 := by
    intro pfn hmin hin
    rw [hstart, hstop] at hin
    unfold pageSize at *
    omega
  have hnodup : s.live.Nodup := by
    refine h.apart.imp_of_mem ?_
    intro b b' hb _ hapart heq
    subst heq
    have := (h.inside b hb).1
    unfold Apart at hapart
    omega
  have hrest : ∀ b ∈ s.live.erase block, b ∈ s.live ∧ Apart b block := by
    intro b hb
    obtain ⟨hne, hb⟩ := hnodup.mem_erase_iff.mp hb
    exact ⟨hb, h.apart.forall hb hblock hne⟩
  refine ⟨⟨hordered, htop, h.fits.map⟩, ?_, h.apart.sublist List.erase_sublist, ?_, h.lastEnd, ?_, ?_⟩
  · intro b hb
    exact h.inside b (hrest b hb).1
  · intro b hb pfn htouch
    obtain ⟨hb, hapart⟩ := hrest b hb
    have hinside := h.inside b hb
    have hmin : s.bdata.nodeMinPfn ≤ pfn := by
      unfold Touches pageSize at *
      omega
    show Bitmap.writeBits false _ _ s.bdata.bits (pfn - s.bdata.nodeMinPfn) = true
    rw [Bitmap.writeBits_apply, if_neg]
    · exact h.marked b hb pfn htouch
    · intro hin
      have := hcleared pfn hmin hin
      unfold Touches Apart at *
      omega
  · intro hne
    obtain ⟨hbit, hends⟩ := h.tail hne
    refine ⟨?_, fun b hb htouch => hends b (hrest b hb).1 htouch⟩
    dsimp only at hne ⊢
    rw [Bitmap.writeBits_apply, if_neg]
    · exact hbit
    intro hin
    have hpage := hcleared (s.bdata.nodeMinPfn + s.bdata.lastEndOff / pageSize) (by omega)
      (by rwa [Nat.add_sub_cancel_left])
    have htouch : Touches block (s.bdata.nodeMinPfn + s.bdata.lastEndOff / pageSize) := by
      unfold Touches pageSize at *
      omega
    have := hends block hblock htouch
    unfold pageSize at *
    omega
  · have := h.hint
    dsimp only
    split
    · omega
    · exact h.hint

/-! ## The call -/

/-- The page from which a call looks for a block: the goal, if it lies in the range. -/
def searchFrom (bdata : Node) (goal max : Nat) : Nat :=
  if goal ≠ 0 ∧ bdata.nodeMinPfn < goal ∧ goal < max then goal else bdata.nodeMinPfn

/-- What a call returns for a request: a block, or nothing as there is no aligned run of clear
pages in its range. -/
inductive Outcome (s : State) (size alignment goal limit : Nat) : State → Option Nat → Prop
  | block {s' : State} {addr : Nat} (aligned : alignment ∣ addr)
      (inside : s.bdata.nodeMinPfn * pageSize ≤ addr ∧
        addr + size ≤ s.bdata.nodeLowPfn * pageSize)
      (below : limit ≠ 0 → addr + size ≤ limit)
      (apart : ∀ b ∈ s.live, Apart (addr, size) b)
      (marked : ∀ pfn, Touches (addr, size) pfn → s'.bdata.marked pfn = true)
      (live : s'.live = (addr, size) :: s.live) :
      Outcome s size alignment goal limit s' (some addr)
  | null (noRun : ∀ p, searchFrom s.bdata (pfnDown goal) (maxPfn s.bdata (pfnDown limit)) ≤ p →
        alignment ∣ p * pageSize → p + pfnUp size ≤ maxPfn s.bdata (pfnDown limit) →
        ∃ pfn, p ≤ pfn ∧ pfn < p + pfnUp size ∧ s.bdata.marked pfn = true) :
      Outcome s size alignment goal limit s none

variable {goal limit sidx : Nat}

/-- The search finds an aligned clear run from `sidx` on, or there is none. -/
theorem searchBlock_spec (hfits : bdata.Fits) (hhint : bdata.hintIdx ≤ 2 ^ 20) (hj : j < 32)
    (hmidx : midx ≤ 2 ^ 20) (hn : 0 < pfnUp size) (hsidx : sidx ≤ 2 ^ 21) :
    (∃ q, searchBlock bdata size (2 ^ j) midx sidx (2 ^ (j - 12)) = takeBlock bdata size (2 ^ j) q ∧
        AlignedAt bdata (2 ^ (j - 12)) q ∧ q + pfnUp size ≤ midx ∧
        ClearRun bdata q (pfnUp size)) ∨
      searchBlock bdata size (2 ^ j) midx sidx (2 ^ (j - 12)) = some (bdata, none) ∧
        ∀ p, sidx ≤ p → AlignedAt bdata (2 ^ (j - 12)) p → p + pfnUp size ≤ midx →
          ¬ ClearRun bdata p (pfnUp size) := by
  have hword : word = 2 ^ 32 := rfl
  have hordered := hfits.ordered
  have htop := hfits.top
  unfold searchBlock
  dsimp only
  generalize hfirst : (if bdata.hintIdx > sidx then alignIdx bdata bdata.hintIdx (2 ^ (j - 12))
    else sidx) = first
  obtain ⟨r, hr, hresult⟩ := @findBlock_spec bdata size midx first (midx + 1) (j - 12) (by omega)
    (by omega) hmidx hn (by omega) (by omega)
  rw [hr]
  cases r with
  | some q => exact .inl ⟨q, rfl, hresult⟩
  | none =>
    dsimp only
    by_cases hhintIdx : bdata.hintIdx > sidx
    · -- the search started from the hint, so it is made again
      have hfallback : wadd sidx 1 = sidx + 1 := wadd_eq (by omega)
      have hback : wsub (sidx + 1) 1 = sidx := by
        rw [wsub_eq (by omega) (by omega), Nat.add_sub_cancel]
      rw [if_pos hhintIdx, hfallback, if_pos (by omega), hback]
      obtain ⟨r, hr, hresult⟩ := @findBlock_spec bdata size midx
        (alignIdx bdata sidx (2 ^ (j - 12))) (midx + 1) (j - 12) (by omega) (by omega) hmidx hn
        (by omega) (by omega)
      rw [hr]
      cases r with
      | some q => exact .inl ⟨q, rfl, hresult⟩
      | none =>
        refine .inr ⟨rfl, ?_⟩
        intro p hp haligned
        have hleast := (@alignIdx_spec bdata sidx (j - 12) (by omega) (by omega)
          (by omega)).2.2.2 p hp haligned
        exact hresult p hleast haligned
    · rw [if_neg hhintIdx] at hfirst ⊢
      subst hfirst
      rw [if_neg (not_not.mpr rfl)]
      exact .inr ⟨rfl, hresult⟩

/-- The start of the search is the first aligned index from the page that it looks from. -/
theorem startPfn_eq (hfits : bdata.Fits) {max step : Nat} (hgoal : goal < word) :
    wsub (startPfn bdata goal max step) bdata.nodeMinPfn =
      alignIdx bdata (searchFrom bdata goal max - bdata.nodeMinPfn) step := by
  have hword : word = 2 ^ 32 := rfl
  have hordered := hfits.ordered
  have htop := hfits.top
  unfold startPfn searchFrom alignIdx
  by_cases hin : goal ≠ 0 ∧ bdata.nodeMinPfn < goal ∧ goal < max
  · rw [if_pos hin, if_pos hin, wadd_eq (by omega), Nat.add_sub_cancel' (by omega)]
  · rw [if_neg hin, if_neg hin, wadd_eq (by omega), Nat.add_sub_cancel' (Nat.le_refl _)]

/-- The step of a power of two. -/
theorem step_eq (j : Nat) : Nat.max (2 ^ j / pageSize) 1 = 2 ^ (j - 12) := by
  rw [show pageSize = 2 ^ 12 from rfl]
  rcases Nat.le_total 12 j with hle | hle
  · rw [Nat.pow_div hle (by decide)]
    exact Nat.max_eq_left (Nat.two_pow_pos _)
  · rw [Nat.sub_eq_zero_of_le hle]
    rcases Nat.eq_or_lt_of_le hle with rfl | hlt
    · rfl
    · rw [Nat.div_eq_of_lt (Nat.pow_lt_pow_right (by decide) hlt)]
      rfl

/-- A block whose pages end in the range ends in it. -/
theorem block_end_le {startOff max : Nat} (hstart : startOff ≤ q * pageSize)
    (hsmall : size ≤ word - pageSize) (hmin : bdata.nodeMinPfn ≤ max)
    (hend : q + pfnUp size ≤ max - bdata.nodeMinPfn) :
    bdata.nodeMinPfn * pageSize + startOff + size ≤ max * pageSize := by
  have hpages := pfnUp_eq hsmall
  unfold pageSize at *
  omega

theorem Kept.alloc (h : Kept s) (hj : j < 32) (hsize : 0 < size) (hsmall : size ≤ word - pageSize)
    (hgoal : goal < word) (hlimit : limit = 0 ∨ pageSize ≤ limit ∧ wadd goal size ≤ limit) :
    ∃ bdata r, allocBootmemCore s.bdata size (2 ^ j) goal limit = some (bdata, r) ∧
      Kept ⟨bdata, (r.map fun addr => (addr, size)).toList ++ s.live⟩ ∧
      Outcome s size (2 ^ j) goal limit
        ⟨bdata, (r.map fun addr => (addr, size)).toList ++ s.live⟩ r := by
  have hword : word = 2 ^ 32 := rfl
  have hordered := h.fits.ordered
  have htop := h.fits.top
  have hpages := pfnUp_eq hsmall
  have hpow : 2 ^ j < word := Nat.pow_lt_pow_right (by decide) hj
  have hguard : ¬ (size = 0 ∨ 2 ^ j &&& (wsub (2 ^ j) 1) ≠ 0 ∨
      (limit ≠ 0 ∧ wadd goal size > limit)) := by
    have hmask : 2 ^ j &&& (wsub (2 ^ j) 1) = 0 := by
      rw [wsub_eq (Nat.two_pow_pos j) hpow, Nat.and_two_pow_sub_one_eq_mod, Nat.mod_self]
    rw [hmask]
    omega
  obtain ⟨map, hmap⟩ := Option.isSome_iff_exists.mp h.fits.map
  have hmax : maxPfn s.bdata (limit / pageSize) ≤ s.bdata.nodeLowPfn ∧
      (limit ≠ 0 → maxPfn s.bdata (limit / pageSize) * pageSize ≤ limit) := by
    unfold maxPfn pageSize at *
    split <;> omega
  have hfrom : s.bdata.nodeMinPfn ≤
      searchFrom s.bdata (pfnDown goal) (maxPfn s.bdata (limit / pageSize)) := by
    unfold searchFrom
    split <;> omega
  -- nothing is found where the alignment of the page is that of the address
  have hnull : (∀ p, searchFrom s.bdata (pfnDown goal) (maxPfn s.bdata (limit / pageSize)) -
        s.bdata.nodeMinPfn ≤ p → AlignedAt s.bdata (2 ^ (j - 12)) p →
        s.bdata.nodeMinPfn + p + pfnUp size ≤ maxPfn s.bdata (limit / pageSize) →
        ¬ ClearRun s.bdata p (pfnUp size)) →
      Outcome s size (2 ^ j) goal limit s none := by
    intro hnone
    refine .null ?_
    intro p hp haligned hend
    have hlow : s.bdata.nodeMinPfn ≤ p := hfrom.trans hp
    have hpaligned : AlignedAt s.bdata (2 ^ (j - 12)) (p - s.bdata.nodeMinPfn) := by
      rw [AlignedAt, Nat.add_sub_cancel' hlow]
      rcases Nat.le_total 12 j with hle | hle
      · rw [← Nat.sub_add_cancel hle, pow_add] at haligned
        exact Nat.dvd_of_mul_dvd_mul_right (by decide) haligned
      · rw [Nat.sub_eq_zero_of_le hle]
        exact Nat.one_dvd _
    have hnot := hnone _ (Nat.sub_le_sub_right hp _) hpaligned
      (by rw [Nat.add_sub_cancel' hlow]; exact hend)
    by_contra hclear
    refine hnot ?_
    intro i hlo hhi
    cases hbit : s.bdata.bits i with
    | false => rfl
    | true =>
      refine absurd ⟨s.bdata.nodeMinPfn + i, by omega, by omega, ?_⟩ hclear
      rw [Node.marked, Nat.add_sub_cancel_left]
      exact hbit
  unfold allocBootmemCore
  rw [if_neg hguard, hmap]
  dsimp only
  by_cases hempty : maxPfn s.bdata (limit / pageSize) ≤ s.bdata.nodeMinPfn
  · rw [if_pos hempty]
    exact ⟨_, _, rfl, h, hnull fun p _ _ hend => by omega⟩
  have hmidx : wsub (maxPfn s.bdata (limit / pageSize)) s.bdata.nodeMinPfn =
      maxPfn s.bdata (limit / pageSize) - s.bdata.nodeMinPfn := wsub_eq (by omega) (by omega)
  have hgoalPfn : pfnDown goal < word := by
    unfold pfnDown pageSize
    omega
  have hbelow : searchFrom s.bdata (pfnDown goal) (maxPfn s.bdata (limit / pageSize)) ≤ 2 ^ 20 := by
    unfold searchFrom
    split <;> omega
  obtain ⟨hle, -, hbound, hleast⟩ := @alignIdx_spec s.bdata
    (searchFrom s.bdata (pfnDown goal) (maxPfn s.bdata (limit / pageSize)) - s.bdata.nodeMinPfn)
    (j - 12) (by omega) (by omega) (by omega)
  have hstep : 2 ^ (j - 12) ≤ 2 ^ 19 := Nat.pow_le_pow_right (by decide) (by omega)
  have hhint := h.hint
  rw [if_neg hempty, hmidx, step_eq, show goal / pageSize = pfnDown goal from rfl,
    startPfn_eq h.fits hgoalPfn]
  rcases @searchBlock_spec s.bdata size j (maxPfn s.bdata (limit / pageSize) - s.bdata.nodeMinPfn)
    (alignIdx s.bdata (searchFrom s.bdata (pfnDown goal) (maxPfn s.bdata (limit / pageSize)) -
      s.bdata.nodeMinPfn) (2 ^ (j - 12))) h.fits (by omega) hj (by omega) (by omega) (by omega)
    with hfound | hfound
  · obtain ⟨q, heq, haligned, hend, hrun⟩ := hfound
    obtain ⟨startOff, hstarts, hdvd, htake⟩ :=
      takeBlock_eq h.fits hj hsize hsmall haligned (by omega) hrun
    obtain ⟨hapart, hkept⟩ := h.take hstarts hsize hsmall (by omega) hrun
    rw [heq, htake]
    refine ⟨_, _, rfl, hkept, .block hdvd ?_ ?_ hapart ?_ rfl⟩
    · exact (hkept.inside _ List.mem_cons_self).2
    · intro hne
      exact (block_end_le hstarts.le hsmall (by omega) hend).trans (hmax.2 hne)
    · exact hkept.marked _ List.mem_cons_self
  · rw [hfound.1]
    refine ⟨_, _, rfl, h, hnull ?_⟩
    intro p hp haligned hend
    exact hfound.2 p (hleast p hp haligned) haligned (by omega)

/-! ## Runs -/

/-- A call of the allocator, with its size, alignment, goal and limit, or the freeing of a whole
block. -/
inductive Op where
  | alloc (size alignment goal limit : Nat)
  | free (block : Nat × Nat)

/-- Requests that pass the `BUG_ON`s and whose size and limit are not rounded to 0 pages by a wrap or
a shift, and blocks that are allocated. -/
def Op.Fits (s : State) : Op → Prop
  | .alloc size alignment goal limit =>
    (0 < size ∧ size ≤ word - pageSize) ∧ (∃ j < 32, alignment = 2 ^ j) ∧ goal < word ∧
      (limit = 0 ∨ pageSize ≤ limit ∧ wadd goal size ≤ limit)
  | .free block => block ∈ s.live

/-- One call, with the address that it returns. -/
def step (s : State) : Op → Option (State × Option Nat)
  | .alloc size alignment goal limit =>
    (allocBootmemCore s.bdata size alignment goal limit).map fun (bdata, r) =>
      (⟨bdata, (r.map fun addr => (addr, size)).toList ++ s.live⟩, r)
  | .free block =>
    (freeBootmemNode s.bdata block.1 block.2).map fun (bdata, _) =>
      (⟨bdata, s.live.erase block⟩, none)

/-- The states that sequences of calls on a node lead to. -/
inductive Reached (bdata : Node) : State → Prop
  | start : Reached bdata ⟨bdata, []⟩
  | call {s s' : State} {op : Op} {r : Option Nat} (h : Reached bdata s) (hop : op.Fits s)
      (hstep : step s op = some (s', r)) : Reached bdata s'

/-- What a call does. -/
def Op.Meets (s s' : State) (r : Option Nat) : Op → Prop
  | .alloc size alignment goal limit => Outcome s size alignment goal limit s' r
  | .free block => s'.live = s.live.erase block

theorem Kept.step (h : Kept s) {op : Op} (hop : op.Fits s) :
    ∃ s' r, step s op = some (s', r) ∧ Kept s' ∧ op.Meets s s' r := by
  cases op with
  | alloc size alignment goal limit =>
    obtain ⟨⟨hsize, hsmall⟩, ⟨j, hj, rfl⟩, hgoal, hlimit⟩ := hop
    obtain ⟨bdata, r, heq, hkept, hout⟩ := h.alloc hj hsize hsmall hgoal hlimit
    refine ⟨_, r, ?_, hkept, hout⟩
    rw [Bootmem.step, heq]
    rfl
  | free block =>
    obtain ⟨bdata, heq, hkept⟩ := h.free hop
    refine ⟨_, none, ?_, hkept, rfl⟩
    rw [Bootmem.step, heq]
    rfl

theorem Reached.kept (hfits : bdata.Fits) (hlast : bdata.lastEndOff = 0)
    (hhint : bdata.hintIdx = 0) (h : Reached bdata s) : Kept s := by
  induction h with
  | start =>
    refine ⟨hfits, nofun, List.Pairwise.nil, nofun, ?_, ?_, ?_⟩
    · rw [hlast]
      exact Nat.zero_le _
    · intro hne
      rw [hlast] at hne
      exact absurd rfl hne
    · rw [hhint]
      exact Nat.zero_le _
  | call _ hop hstep ih =>
    obtain ⟨s', r, heq, hkept, -⟩ := ih.step hop
    rw [hstep] at heq
    cases heq
    exact hkept

/-- For every bitmap and every sequence of calls: no `BUG` is reached; a block that is returned is
aligned, in the node, below the limit, apart from the live blocks and marked; and nothing is
returned only if there is no aligned run from the goal on. All live blocks stay apart and marked. -/
theorem alloc_bootmem_run {bdata : Node} (hfits : bdata.Fits) (hlast : bdata.lastEndOff = 0)
    (hhint : bdata.hintIdx = 0) {s : State} (h : Reached bdata s) :
    (s.live.Pairwise Apart ∧ ∀ b ∈ s.live, ∀ pfn, Touches b pfn → s.bdata.marked pfn = true) ∧
      ∀ op : Op, op.Fits s → ∃ s' r, step s op = some (s', r) ∧ op.Meets s s' r := by
  have hkept := h.kept hfits hlast hhint
  refine ⟨⟨hkept.apart, hkept.marked⟩, ?_⟩
  intro op hop
  obtain ⟨s', r, heq, -, hmeets⟩ := hkept.step hop
  exact ⟨s', r, heq, hmeets⟩

/-- A node of four pages, of which the first is free. -/
def fourPages : Node where
  nodeMinPfn := 0
  nodeLowPfn := 4
  nodeBootmemMap := some 3
  bits i := i != 0
  lastEndOff := 0
  hintIdx := 0

theorem alloc_bootmem_run_fourPages :
    (([] : List (Nat × Nat)).Pairwise Apart ∧
        ∀ b ∈ ([] : List (Nat × Nat)), ∀ pfn, Touches b pfn → fourPages.marked pfn = true) ∧
      ∀ op : Op, op.Fits ⟨fourPages, []⟩ →
        ∃ s' r, step ⟨fourPages, []⟩ op = some (s', r) ∧ op.Meets ⟨fourPages, []⟩ s' r :=
  alloc_bootmem_run ⟨by decide, by decide, rfl⟩ rfl rfl .start

/-- A node with one page that is free. -/
def onePage (low pfn : Nat) : Node where
  nodeMinPfn := 0
  nodeLowPfn := low
  nodeBootmemMap := some 0
  bits i := i != pfn
  lastEndOff := 0
  hintIdx := 0

/-- With the goal in page 2 nothing is returned, though page 0 is clear and aligned. A limit below one
page is none, the largest size is rounded to no page, and the last page of the physical space is
returned without being marked. -/
theorem alloc_bootmem_core_gaps :
    ((allocBootmemCore fourPages 4096 4096 8192 0).map Prod.snd = some none ∧
        fourPages.marked 0 = false) ∧
      (allocBootmemCore (onePage 4 1) 50 1 0 100).map Prod.snd = some (some 4096) ∧
      (allocBootmemCore (onePage 4 1) 0xFFFFFFFF 1 0 0).map Prod.snd = some (some 4096) ∧
      (allocBootmemCore (onePage 0x100000 0xFFFFF) 4096 1 0xFFFFF000 0).map
          (fun out => (out.1.bits 0xFFFFF, out.2)) = some (false, some 0xFFFFF000) := by
  refine ⟨⟨?_, rfl⟩, ?_, ?_, ?_⟩
  · decide
  · decide
  · decide
  · decide

end AndroidKernel.Bootmem
