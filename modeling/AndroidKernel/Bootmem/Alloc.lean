import AndroidKernel.Bootmem.Reserve

/-!
# Allocating boot memory

`alloc_bootmem_core` and its search. Indices and offsets are relative to the node; a step is an
alignment in pages. The search goes on from a conflict to the next index at which a block may
start, so it misses no run.
-/

namespace AndroidKernel.Bootmem

open Library

/-- `PFN_PHYS`. -/
def pfnPhys (pfn : Nat) : Nat := pfn * pageSize % word

/-- `align_idx`. -/
def alignIdx (bdata : Node) (idx step : Nat) : Nat :=
  wsub (align 32 (wadd bdata.nodeMinPfn idx) step) bdata.nodeMinPfn

/-- `align_off`. -/
def alignOff (bdata : Node) (off alignment : Nat) : Nat :=
  wsub (align 32 (wadd (pfnPhys bdata.nodeMinPfn) off) alignment) (pfnPhys bdata.nodeMinPfn)

/-- The search of `alloc_bootmem_core` from `sidx` on, with fuel: the index of the block, if there
is one. -/
def findBlock (bdata : Node) (size step midx : Nat) : Nat → Nat → Option (Option Nat)
  | 0, _ => none
  | fuel + 1, sidx =>
    let sidx := alignIdx bdata (bdata.bits.findNextZeroBit midx sidx) step
    let eidx := wadd sidx (pfnUp size)
    if sidx ≥ midx ∨ eidx > midx then some none
    else
      match (List.range' sidx (eidx - sidx)).find? bdata.bits with
      | none => some (some sidx)
      | some i =>
        let sidx := alignIdx bdata i step
        findBlock bdata size step midx fuel (if sidx = i then wadd sidx step else sidx)

/-- What `alloc_bootmem_core` does with the index that it has found. -/
def takeBlock (bdata : Node) (size alignment sidx : Nat) : Option (Node × Option Nat) :=
  let startOff :=
    if bdata.lastEndOff % pageSize ≠ 0 ∧ pfnDown bdata.lastEndOff + 1 = sidx then
      alignOff bdata bdata.lastEndOff alignment
    else pfnPhys sidx
  let merge := if pfnDown startOff < sidx then 1 else 0
  let endOff := wadd startOff size
  let marked := { bdata with lastEndOff := endOff, hintIdx := pfnUp endOff }
  match marked.reserve (pfnDown startOff + merge) (pfnUp endOff) true with
  | some (bdata, err) =>
    if err = 0 then some (bdata, some (wadd (pfnPhys bdata.nodeMinPfn) startOff)) else none
  | none => none

/-- The search and, if it fails, that from the fallback. -/
def searchBlock (bdata : Node) (size alignment midx sidx step : Nat) :
    Option (Node × Option Nat) :=
  let first := if bdata.hintIdx > sidx then alignIdx bdata bdata.hintIdx step else sidx
  let fallback := if bdata.hintIdx > sidx then wadd sidx 1 else 0
  match findBlock bdata size step midx (midx + 1) first with
  | none => none
  | some (some sidx) => takeBlock bdata size alignment sidx
  | some none =>
    if fallback ≠ 0 then
      match findBlock bdata size step midx (midx + 1)
        (alignIdx bdata (wsub fallback 1) step) with
      | none => none
      | some (some sidx) => takeBlock bdata size alignment sidx
      | some none => some (bdata, none)
    else some (bdata, none)

/-- The first page that `alloc_bootmem_core` tries, with `goal` and `max` as page numbers. -/
def startPfn (bdata : Node) (goal max step : Nat) : Nat :=
  if goal ≠ 0 ∧ bdata.nodeMinPfn < goal ∧ goal < max then align 32 goal step
  else align 32 bdata.nodeMinPfn step

/-- The page that the search ends before, with `limit` as a page number. -/
def maxPfn (bdata : Node) (limit : Nat) : Nat :=
  if limit ≠ 0 ∧ bdata.nodeLowPfn > limit then limit else bdata.nodeLowPfn

/-- `alloc_bootmem_core`. -/
def allocBootmemCore (bdata : Node) (size alignment goal limit : Nat) :
    Option (Node × Option Nat) :=
  if size = 0 ∨ alignment &&& (wsub alignment 1) ≠ 0 ∨
      (limit ≠ 0 ∧ wadd goal size > limit) then none
  else
    match bdata.nodeBootmemMap with
    | none => some (bdata, none)
    | some _ =>
      let max := maxPfn bdata (limit / pageSize)
      if max ≤ bdata.nodeMinPfn then some (bdata, none)
      else
        let step := Nat.max (alignment / pageSize) 1
        let start := startPfn bdata (goal / pageSize) max step
        searchBlock bdata size alignment (wsub max bdata.nodeMinPfn)
          (wsub start bdata.nodeMinPfn) step

/-- `free_bootmem_node`. -/
def freeBootmemNode (bdata : Node) (physaddr size : Nat) : Option (Node × Int) :=
  markBootmemNode .free bdata (pfnUp physaddr) (pfnDown (wadd physaddr size))

/-! ## Aligned indices -/

variable {bdata : Node} {size step midx sidx idx fuel n k p : Nat}

/-- A block may start at the index. -/
def AlignedAt (bdata : Node) (step idx : Nat) : Prop :=
  step ∣ bdata.nodeMinPfn + idx

/-- The bits of `n` pages from an index on are clear. -/
def ClearRun (bdata : Node) (idx n : Nat) : Prop :=
  ∀ i, idx ≤ i → i < idx + n → bdata.bits i = false

/-- What rounding an index up gives, for a node and a step that leave room in a word. -/
theorem alignIdx_spec (hk : k < 20) (hmin : bdata.nodeMinPfn < 2 ^ 20) (hidx : idx ≤ 2 ^ 22) :
    idx ≤ alignIdx bdata idx (2 ^ k) ∧ AlignedAt bdata (2 ^ k) (alignIdx bdata idx (2 ^ k)) ∧
      alignIdx bdata idx (2 ^ k) ≤ idx + 2 ^ k ∧
      ∀ p, idx ≤ p → AlignedAt bdata (2 ^ k) p → alignIdx bdata idx (2 ^ k) ≤ p := by
  have hword : word = 2 ^ 32 := rfl
  have hpow : 2 ^ k ≤ 2 ^ 19 := Nat.pow_le_pow_right (by decide) (by omega)
  have hpos := Nat.two_pow_pos k
  have hsum : wadd bdata.nodeMinPfn idx = bdata.nodeMinPfn + idx := wadd_eq (by omega)
  have hle := @le_align 32 k (bdata.nodeMinPfn + idx) (by omega) (by omega)
  have hdvd := @align_dvd 32 k (bdata.nodeMinPfn + idx) (by omega)
  have hmultiple : align 32 (bdata.nodeMinPfn + idx) (2 ^ k) ≤ bdata.nodeMinPfn + idx + 2 ^ k := by
    have hdiv := Nat.div_add_mod (bdata.nodeMinPfn + idx) (2 ^ k)
    have hmod := Nat.mod_lt (bdata.nodeMinPfn + idx) hpos
    have hnext := @align_le 32 k (bdata.nodeMinPfn + idx)
      (2 ^ k * ((bdata.nodeMinPfn + idx) / 2 ^ k + 1)) (by omega) (Nat.dvd_mul_right _ _)
      (by rw [Nat.mul_add]; omega)
    rw [Nat.mul_add] at hnext
    omega
  have heq : alignIdx bdata idx (2 ^ k) =
      align 32 (bdata.nodeMinPfn + idx) (2 ^ k) - bdata.nodeMinPfn := by
    rw [alignIdx, hsum, wsub_eq (by omega) (by omega)]
  refine ⟨by omega, ?_, by omega, ?_⟩
  · rw [AlignedAt, heq, Nat.add_sub_cancel' (by omega)]
    exact hdvd
  · intro p hp haligned
    have := @align_le 32 k (bdata.nodeMinPfn + idx) (bdata.nodeMinPfn + p) (by omega) haligned
      (by omega)
    omega

/-- The scan stops at the end, also if it starts beyond it. -/
theorem findNextZeroBit_bounds (m : Bitmap) (midx sidx : Nat) :
    m.findNextZeroBit midx sidx ≤ midx ∧ (sidx ≤ m.findNextZeroBit midx sidx ∨
      m.findNextZeroBit midx sidx = midx) := by
  rcases Nat.le_total sidx midx with hle | hle
  · have hspec := Bitmap.findNextZeroBit_spec (m := m) hle
    exact ⟨hspec.2.1, .inl hspec.1⟩
  · have hend : m.findNextZeroBit midx sidx = midx := by
      unfold Bitmap.findNextZeroBit
      rw [Nat.sub_eq_zero_of_le hle]
      rfl
    exact ⟨hend.le, .inr hend⟩

/-- A clear run is not passed by the scan for its start. -/
theorem findNextZeroBit_le_of_clear {m : Bitmap} (hsidx : sidx ≤ p) (hp : p < midx)
    (hclear : m p = false) : m.findNextZeroBit midx sidx ≤ p := by
  by_contra hpassed
  have hset := (Bitmap.findNextZeroBit_spec (m := m) (hsidx.trans hp.le)).2.2.2 p hsidx (by omega)
  rw [hclear] at hset
  cases hset

/-- What the search returns: an aligned clear run, or nothing if there is none from `sidx` on. -/
def SearchResult (bdata : Node) (step midx sidx n : Nat) : Option Nat → Prop
  | some q => AlignedAt bdata step q ∧ q + n ≤ midx ∧ ClearRun bdata q n
  | none => ∀ p, sidx ≤ p → AlignedAt bdata step p → p + n ≤ midx → ¬ ClearRun bdata p n

theorem findBlock_spec (hk : k < 20) (hmin : bdata.nodeMinPfn < 2 ^ 20) (hmidx : midx ≤ 2 ^ 20)
    (hn : 0 < pfnUp size) (hfuel : midx < fuel + sidx) (hpos : 0 < fuel) :
    ∃ r, findBlock bdata size (2 ^ k) midx fuel sidx = some r ∧
      SearchResult bdata (2 ^ k) midx sidx (pfnUp size) r := by
  have hword : word = 2 ^ 32 := rfl
  have hpow : 2 ^ k ≤ 2 ^ 19 := Nat.pow_le_pow_right (by decide) (by omega)
  have hsize : pfnUp size ≤ 2 ^ 20 := by
    have := wadd_lt size (pageSize - 1)
    unfold pfnUp
    unfold pageSize at *
    omega
  induction fuel generalizing sidx with
  | zero => omega
  | succ fuel ih =>
    rw [findBlock]
    obtain ⟨hzero, hscan⟩ := findNextZeroBit_bounds bdata.bits midx sidx
    obtain ⟨hle, haligned, hbound, hleast⟩ := @alignIdx_spec bdata
      (bdata.bits.findNextZeroBit midx sidx) k hk hmin (by omega)
    -- no clear run starts before the aligned index
    have hskip : ∀ p, sidx ≤ p → AlignedAt bdata (2 ^ k) p → p + pfnUp size ≤ midx →
        ClearRun bdata p (pfnUp size) →
        alignIdx bdata (bdata.bits.findNextZeroBit midx sidx) (2 ^ k) ≤ p := by
      intro p hp hpaligned hend hrun
      exact hleast p (findNextZeroBit_le_of_clear hp (by omega)
        (hrun p (Nat.le_refl _) (by omega))) hpaligned
    generalize alignIdx bdata (bdata.bits.findNextZeroBit midx sidx) (2 ^ k) = q at *
    have heidx : wadd q (pfnUp size) = q + pfnUp size := wadd_eq (by omega)
    dsimp only
    rw [heidx]
    by_cases hbreak : q ≥ midx ∨ q + pfnUp size > midx
    · rw [if_pos hbreak]
      refine ⟨none, rfl, ?_⟩
      intro p hp hpaligned hend hrun
      have := hskip p hp hpaligned hend hrun
      omega
    rw [if_neg hbreak, Nat.add_sub_cancel_left]
    cases hfind : (List.range' q (pfnUp size)).find? bdata.bits with
    | none =>
      refine ⟨some q, rfl, haligned, by omega, ?_⟩
      intro i hlo hhi
      have hnot := List.find?_eq_none.mp hfind i (List.mem_range'_1.mpr ⟨hlo, hhi⟩)
      exact Bool.eq_false_of_not_eq_true hnot
    | some i =>
      have hi := List.mem_range'_1.mp (List.mem_of_find?_eq_some hfind)
      have hset := List.find?_some hfind
      obtain ⟨hle', haligned', hbound', hleast'⟩ :=
        @alignIdx_spec bdata i k hk hmin (by omega)
      dsimp only
      generalize hnext : (if alignIdx bdata i (2 ^ k) = i then
        wadd (alignIdx bdata i (2 ^ k)) (2 ^ k) else alignIdx bdata i (2 ^ k)) = next
      have hafter : i < next ∧ ∀ p, i < p → AlignedAt bdata (2 ^ k) p → next ≤ p := by
        rw [← hnext]
        by_cases hat : alignIdx bdata i (2 ^ k) = i
        · rw [if_pos hat, hat, wadd_eq (by omega)]
          have hpos := Nat.two_pow_pos k
          refine ⟨by omega, ?_⟩
          intro p hp hpaligned
          rw [hat] at haligned'
          have hdvd := Nat.dvd_sub hpaligned haligned'
          have := Nat.le_of_dvd (by omega) hdvd
          omega
        · rw [if_neg hat]
          exact ⟨by omega, fun p hp hpaligned => hleast' p hp.le hpaligned⟩
      obtain ⟨r, heq, hr⟩ := @ih next (by omega) (by omega)
      refine ⟨r, heq, ?_⟩
      cases r with
      | some q' => exact hr
      | none =>
        intro p hp hpaligned hend hrun
        have hge := hskip p hp hpaligned hend hrun
        by_cases hpi : p ≤ i
        · rw [hrun i hpi (by omega)] at hset
          cases hset
        · exact hr p (hafter.2 p (by omega) hpaligned) hpaligned hend hrun

end AndroidKernel.Bootmem
