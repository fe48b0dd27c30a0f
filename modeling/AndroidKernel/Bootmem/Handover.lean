import AndroidKernel.Bootmem.Model

/-!
# Handing boot memory over to the page allocator

Read `free_all_bootmem_core_exact` first. The cursor goes through the bitmap a word at a time, and a
word's pages are handed over as one block or one by one; either way they are those with a
clear bit.
-/

namespace AndroidKernel.Bootmem

open Library

/-- `BITS_PER_LONG`. -/
def bitsPerLong : Nat := 32

/-- `bootmem_bootmap_pages`. -/
def bootmemBootmapPages (pages : Nat) : Nat :=
  pageAlign (bootmapBytes pages) / pageSize

/-- The calls of `__free_pages_bootmem`, a page number and an order each, and `count`. -/
structure Freed where
  calls : List (Nat × Nat)
  count : Nat

/-- One call, with what is added to `count` for it. -/
def Freed.give (freed : Freed) (pfn order n : Nat) : Freed :=
  ⟨freed.calls ++ [(pfn, order)], wadd freed.count n⟩

/-- The complement of a word of the bitmap, from bit `base` of the bitmap on. -/
def complement (bits : Bitmap) : Nat → Nat → Nat
  | _, 0 => 0
  | base, n + 1 => (if bits base then 0 else 1) + 2 * complement bits (base + 1) n

/-- The loop over the bits that are left of `vec`, at most `n` of them. -/
def freeBits (start : Nat) : Nat → Nat → Nat → Freed → Freed
  | 0, _, _, freed => freed
  | n + 1, off, vec, freed =>
    if vec = 0 then freed
    else
      let freed := if vec % 2 = 1 then freed.give (start + off) 0 1 else freed
      freeBits start n (off + 1) (vec / 2) freed

/-- The loop of `free_all_bootmem_core` over the words, with fuel. -/
def freeWords (bdata : Node) (aligned : Bool) : Nat → Nat → Freed → Option Freed
  | 0, _, _ => none
  | fuel + 1, start, freed =>
    if start < bdata.nodeLowPfn then
      let idx := wsub start bdata.nodeMinPfn
      let vec := complement bdata.bits (idx / bitsPerLong * bitsPerLong) bitsPerLong
      let freed :=
        if aligned ∧ vec = word - 1 ∧ wadd start bitsPerLong < bdata.nodeLowPfn then
          freed.give start 5 bitsPerLong
        else freeBits start bitsPerLong 0 vec freed
      freeWords bdata aligned fuel (wadd start bitsPerLong) freed
    else some freed

/-- The loop that hands over the bitmap's own pages. -/
def freeMap : Nat → Nat → Freed → Freed
  | 0, _, freed => freed
  | pages + 1, pfn, freed => freeMap pages (pfn + 1) (freed.give pfn 0 0)

/-- `free_all_bootmem_core`. -/
def freeAllBootmemCore (bdata : Node) : Option Freed :=
  match bdata.nodeBootmemMap with
  | none => some ⟨[], 0⟩
  | some map => do
    let aligned : Bool := bdata.nodeMinPfn &&& (bitsPerLong - 1) = 0
    let freed ← freeWords bdata aligned (bdata.nodeLowPfn + 1) bdata.nodeMinPfn ⟨[], 0⟩
    let pages := bootmemBootmapPages (wsub bdata.nodeLowPfn bdata.nodeMinPfn)
    return freeMap pages map { freed with count := wadd freed.count pages }

/-- The pages that the calls hand over. -/
def Freed.pages (freed : Freed) : List Nat :=
  freed.calls.flatMap fun call => List.range' call.1 (2 ^ call.2)

variable {bdata : Node} {bits : Bitmap} {freed : Freed} {start base off n : Nat}

@[simp] theorem pages_give (freed : Freed) (pfn order n : Nat) :
    (freed.give pfn order n).pages = freed.pages ++ List.range' pfn (2 ^ order) := by
  simp [Freed.pages, Freed.give]

/-- The pages of `n` from `lo` on with a clear bit. -/
def clearPages (bdata : Node) (lo n : Nat) : List Nat :=
  (List.range' lo n).filter fun pfn => !bdata.bits (pfn - bdata.nodeMinPfn)

theorem clearPages_append (bdata : Node) (lo n m : Nat) :
    clearPages bdata lo n ++ clearPages bdata (lo + n) m = clearPages bdata lo (n + m) := by
  unfold clearPages
  rw [← List.filter_append, List.range'_append_1]

theorem length_clearPages_le (bdata : Node) (lo n : Nat) : (clearPages bdata lo n).length ≤ n := by
  have h := List.length_filter_le (fun pfn => !bdata.bits (pfn - bdata.nodeMinPfn))
    (List.range' lo n)
  rwa [List.length_range'] at h

theorem mem_clearPages {bdata : Node} {lo n pfn : Nat} : pfn ∈ clearPages bdata lo n ↔
    (lo ≤ pfn ∧ pfn < lo + n) ∧ bdata.bits (pfn - bdata.nodeMinPfn) = false := by
  rw [clearPages, List.mem_filter, List.mem_range'_1, Bool.not_eq_true']

/-! ## One word -/

theorem complement_lt (bits : Bitmap) (base n : Nat) : complement bits base n < 2 ^ n := by
  induction n generalizing base with
  | zero => exact Nat.one_pos
  | succ n ih =>
    have := ih (base + 1)
    rw [complement, Nat.pow_succ]
    split <;> omega

theorem complement_eq_zero (h : complement bits base n = 0) :
    ∀ i, base ≤ i → i < base + n → bits i = true := by
  induction n generalizing base with
  | zero => intro i hlo hhi; omega
  | succ n ih =>
    rw [complement] at h
    intro i hlo hhi
    rcases Nat.eq_or_lt_of_le hlo with rfl | hlt
    · by_contra hclear
      rw [if_neg hclear] at h
      omega
    · have hrest : complement bits (base + 1) n = 0 := by omega
      exact ih hrest i hlt (by omega)

/-- A word of ones has no bit set in the bitmap. -/
theorem complement_eq_ones (h : complement bits base n = 2 ^ n - 1) :
    ∀ i, base ≤ i → i < base + n → bits i = false := by
  induction n generalizing base with
  | zero => intro i hlo hhi; omega
  | succ n ih =>
    have hlt := complement_lt bits (base + 1) n
    have hpos := Nat.two_pow_pos n
    rw [complement, Nat.pow_succ] at h
    have hbase : bits base = false := by
      by_contra hset
      rw [Bool.not_eq_false] at hset
      rw [if_pos hset] at h
      omega
    rw [hbase, if_neg nofun] at h
    intro i hlo hhi
    rcases Nat.eq_or_lt_of_le hlo with rfl | hlt
    · exact hbase
    · have hrest : complement bits (base + 1) n = 2 ^ n - 1 := by omega
      exact ih hrest i hlt (by omega)

/-- The per-bit path hands over the pages with a clear bit. -/
theorem freeBits_spec (hbase : base + bdata.nodeMinPfn = start + off)
    (hcount : freed.count = freed.pages.length) (hroom : freed.pages.length + n < word) :
    (freeBits start n off (complement bdata.bits base n) freed).pages =
        freed.pages ++ clearPages bdata (start + off) n ∧
      (freeBits start n off (complement bdata.bits base n) freed).count =
        (freed.pages ++ clearPages bdata (start + off) n).length := by
  induction n generalizing base off freed with
  | zero => exact ⟨(List.append_nil _).symm, hcount.trans (by rw [clearPages]; simp)⟩
  | succ n ih =>
    rw [freeBits]
    by_cases hzero : complement bdata.bits base (n + 1) = 0
    · -- the loop stops early when no bit is left
      have hnone : clearPages bdata (start + off) (n + 1) = [] := by
        rw [List.eq_nil_iff_forall_not_mem]
        intro pfn hpfn
        obtain ⟨hin, hclear⟩ := mem_clearPages.mp hpfn
        rw [complement_eq_zero hzero _ (by omega) (by omega)] at hclear
        cases hclear
      rw [if_pos hzero, hnone, List.append_nil]
      exact ⟨rfl, hcount⟩
    have hhalf : complement bdata.bits base (n + 1) / 2 =
        complement bdata.bits (base + 1) n := by
      rw [complement]
      split <;> omega
    have hodd : complement bdata.bits base (n + 1) % 2 = 1 ↔ bdata.bits base = false := by
      rw [complement]
      cases bdata.bits base
      · simp
      · simp
    have hpage : start + off - bdata.nodeMinPfn = base := by omega
    have hfirst : clearPages bdata (start + off) (n + 1) =
        clearPages bdata (start + off) 1 ++ clearPages bdata (start + (off + 1)) n := by
      rw [← Nat.add_assoc, clearPages_append, Nat.add_comm 1 n]
    have hone : clearPages bdata (start + off) 1 =
        if bdata.bits base = false then [start + off] else [] := by
      unfold clearPages
      rw [List.range'_one, List.filter_singleton, hpage]
      cases bdata.bits base <;> rfl
    rw [if_neg hzero, hhalf]
    dsimp only
    by_cases hclear : bdata.bits base = false
    · have hgive : (freed.give (start + off) 0 1).count =
          (freed.give (start + off) 0 1).pages.length := by
        show wadd freed.count 1 = _
        rw [pages_give, List.length_append, List.length_range', hcount]
        exact wadd_eq (by omega)
      rw [if_pos (hodd.mpr hclear), hfirst, hone, if_pos hclear, ← List.append_assoc]
      have hrest := ih (show base + 1 + bdata.nodeMinPfn = start + (off + 1) by omega) hgive
        (by rw [pages_give, List.length_append, List.length_range']; omega)
      rw [pages_give, Nat.pow_zero, List.range'_one] at hrest
      exact hrest
    · rw [if_neg (fun h => hclear (hodd.mp h)), hfirst, hone, if_neg hclear, List.nil_append]
      exact ih (by omega) hcount (by omega)

/-! ## All words -/

/-- One turn of the loop over the words, at a start that is `k` words into the bitmap. -/
theorem freeWords_step {k : Nat} {aligned : Bool} {fuel : Nat} (htop : bdata.nodeLowPfn ≤ 2 ^ 20)
    (hlt : bdata.nodeMinPfn + 32 * k < bdata.nodeLowPfn)
    (hpages : freed.pages = clearPages bdata bdata.nodeMinPfn (32 * k))
    (hcount : freed.count = freed.pages.length) :
    ∃ freed', freeWords bdata aligned (fuel + 1) (bdata.nodeMinPfn + 32 * k) freed =
        freeWords bdata aligned fuel (bdata.nodeMinPfn + 32 * (k + 1)) freed' ∧
      freed'.pages = clearPages bdata bdata.nodeMinPfn (32 * (k + 1)) ∧
      freed'.count = freed'.pages.length := by
  have hword : word = 2 ^ 32 := rfl
  have hlength := length_clearPages_le bdata bdata.nodeMinPfn (32 * k)
  rw [← hpages] at hlength
  have hidx : wsub (bdata.nodeMinPfn + 32 * k) bdata.nodeMinPfn = 32 * k := by
    rw [wsub_eq (by omega) (by omega), Nat.add_sub_cancel_left]
  have hbase : 32 * k / bitsPerLong * bitsPerLong = 32 * k := by
    unfold bitsPerLong
    omega
  have hnext : wadd (bdata.nodeMinPfn + 32 * k) bitsPerLong = bdata.nodeMinPfn + 32 * (k + 1) := by
    unfold bitsPerLong
    rw [wadd_eq (by omega)]
    omega
  have hmore : clearPages bdata bdata.nodeMinPfn (32 * (k + 1)) =
      freed.pages ++ clearPages bdata (bdata.nodeMinPfn + 32 * k) 32 := by
    rw [hpages, clearPages_append]
    rfl
  rw [freeWords, if_pos hlt]
  dsimp only
  rw [hidx, hbase, hnext]
  by_cases hfast : aligned ∧ complement bdata.bits (32 * k) bitsPerLong = word - 1 ∧
    bdata.nodeMinPfn + 32 * (k + 1) < bdata.nodeLowPfn
  · have hclear := complement_eq_ones hfast.2.1
    have hall : clearPages bdata (bdata.nodeMinPfn + 32 * k) 32 =
        List.range' (bdata.nodeMinPfn + 32 * k) (2 ^ 5) := by
      refine List.filter_eq_self.mpr ?_
      intro pfn hpfn
      rw [List.mem_range'_1] at hpfn
      rw [Bool.not_eq_true']
      exact hclear _ (by omega) (by unfold bitsPerLong; omega)
    rw [if_pos hfast]
    refine ⟨_, rfl, ?_, ?_⟩
    · rw [pages_give, hmore, hall]
    · show wadd freed.count bitsPerLong = _
      rw [pages_give, List.length_append, List.length_range', hcount]
      exact wadd_eq (by unfold bitsPerLong; omega)
  · have hslow := @freeBits_spec bdata freed (bdata.nodeMinPfn + 32 * k) (32 * k) 0 bitsPerLong
      (by omega) hcount (by unfold bitsPerLong; omega)
    rw [if_neg hfast]
    refine ⟨_, rfl, hslow.1.trans hmore.symm, ?_⟩
    rw [hslow.2, hslow.1]

theorem freeWords_spec {k : Nat} {aligned : Bool} {fuel : Nat}
    (htop : bdata.nodeLowPfn ≤ 2 ^ 20) (hk : 32 * k < bdata.nodeLowPfn - bdata.nodeMinPfn + 32)
    (hfuel : bdata.nodeLowPfn < fuel + (bdata.nodeMinPfn + 32 * k)) (hpos : 0 < fuel)
    (hpages : freed.pages = clearPages bdata bdata.nodeMinPfn (32 * k))
    (hcount : freed.count = freed.pages.length) :
    ∃ freed' m, freeWords bdata aligned fuel (bdata.nodeMinPfn + 32 * k) freed = some freed' ∧
      bdata.nodeLowPfn ≤ bdata.nodeMinPfn + 32 * m ∧
      32 * m < bdata.nodeLowPfn - bdata.nodeMinPfn + 32 ∧
      freed'.pages = clearPages bdata bdata.nodeMinPfn (32 * m) ∧
      freed'.count = freed'.pages.length := by
  induction fuel generalizing k freed with
  | zero => omega
  | succ fuel ih =>
    by_cases hlt : bdata.nodeMinPfn + 32 * k < bdata.nodeLowPfn
    · obtain ⟨freed', heq, hpages', hcount'⟩ :=
        @freeWords_step bdata freed k aligned fuel htop hlt hpages hcount
      rw [heq]
      exact ih (by omega) (by omega) (by omega) hpages' hcount'
    · rw [freeWords, if_neg hlt]
      exact ⟨freed, k, rfl, by omega, hk, hpages, hcount⟩

theorem freeMap_spec (pages pfn : Nat) (hcount : freed.count < word) :
    (freeMap pages pfn freed).pages = freed.pages ++ List.range' pfn pages ∧
      (freeMap pages pfn freed).count = freed.count := by
  induction pages generalizing pfn freed with
  | zero => exact ⟨(List.append_nil _).symm, rfl⟩
  | succ pages ih =>
    have hgive : (freed.give pfn 0 0).count = freed.count := Nat.mod_eq_of_lt hcount
    obtain ⟨hpages, hcount'⟩ := ih (pfn + 1) (hgive.trans_lt hcount)
    rw [freeMap, hpages, hcount', hgive, pages_give, List.append_assoc, List.range'_succ]
    exact ⟨rfl, rfl⟩

/-- For every node whose bitmap has its padding bits set and its own pages reserved: the pages
that are handed over are those with a clear bit and the bitmap's own, none of them twice, and they are
counted. -/
theorem free_all_bootmem_core_exact (bdata : Node) {map : Nat}
    (hmap : bdata.nodeBootmemMap = some map) (hordered : bdata.nodeMinPfn ≤ bdata.nodeLowPfn)
    (htop : bdata.nodeLowPfn ≤ 2 ^ 20)
    (hpadding : ∀ i, bdata.nodeLowPfn - bdata.nodeMinPfn ≤ i → i < bdata.mapBits →
      bdata.bits i = true)
    (hown : ∀ pfn, map ≤ pfn →
      pfn < map + bootmemBootmapPages (bdata.nodeLowPfn - bdata.nodeMinPfn) →
      bdata.nodeMinPfn ≤ pfn → pfn < bdata.nodeLowPfn →
      bdata.bits (pfn - bdata.nodeMinPfn) = true) :
    ∃ freed, freeAllBootmemCore bdata = some freed ∧ freed.pages.Nodup ∧
      freed.count = freed.pages.length ∧
      ∀ pfn, pfn ∈ freed.pages ↔
        (bdata.nodeMinPfn ≤ pfn ∧ pfn < bdata.nodeLowPfn) ∧
            bdata.bits (pfn - bdata.nodeMinPfn) = false ∨
          map ≤ pfn ∧ pfn < map + bootmemBootmapPages (bdata.nodeLowPfn - bdata.nodeMinPfn) := by
  have hword : word = 2 ^ 32 := rfl
  obtain ⟨freed, m, heq, hend, hlast, hpages, hcount⟩ :=
    @freeWords_spec bdata ⟨[], 0⟩ 0 (bdata.nodeMinPfn &&& (bitsPerLong - 1) = 0)
      (bdata.nodeLowPfn + 1) htop (by omega) (by omega) (by omega) rfl rfl
  have hlength := length_clearPages_le bdata bdata.nodeMinPfn (32 * m)
  rw [← hpages, ← hcount] at hlength
  have hroom : 32 * m ≤ bdata.mapBits := by
    unfold Node.mapBits bootmapBytes
    rw [hmap]
    dsimp only
    omega
  -- beyond the end of the node every bit that is read is padding
  have hclear : ∀ pfn, pfn ∈ freed.pages ↔
      (bdata.nodeMinPfn ≤ pfn ∧ pfn < bdata.nodeLowPfn) ∧
        bdata.bits (pfn - bdata.nodeMinPfn) = false := by
    intro pfn
    rw [hpages, mem_clearPages]
    constructor
    · intro h
      refine ⟨⟨h.1.1, ?_⟩, h.2⟩
      by_contra hbeyond
      rw [hpadding _ (by omega) (by omega)] at h
      cases h.2
    · intro h
      exact ⟨by omega, h.2⟩
  have hown' : bootmemBootmapPages (bdata.nodeLowPfn - bdata.nodeMinPfn) ≤ 2 ^ 20 := by
    unfold bootmemBootmapPages pageAlign pageMask wadd bootmapBytes pageSize
    rw [hword]
    omega
  have hwsub : wsub bdata.nodeLowPfn bdata.nodeMinPfn =
      bdata.nodeLowPfn - bdata.nodeMinPfn := wsub_eq hordered (by omega)
  have hadd : wadd freed.count (bootmemBootmapPages (bdata.nodeLowPfn - bdata.nodeMinPfn)) =
      freed.count + bootmemBootmapPages (bdata.nodeLowPfn - bdata.nodeMinPfn) :=
    wadd_eq (by omega)
  obtain ⟨pages, hnumber⟩ : ∃ pages,
    pages = bootmemBootmapPages (bdata.nodeLowPfn - bdata.nodeMinPfn) := ⟨_, rfl⟩
  rw [← hnumber] at hown hadd ⊢
  obtain ⟨hall, htotal⟩ := @freeMap_spec { freed with count := freed.count + pages } pages map
    (show freed.count + pages < word by omega)
  have hsame : Freed.pages { freed with count := freed.count + pages } = freed.pages := rfl
  rw [hsame] at hall
  refine ⟨freeMap pages map { freed with count := freed.count + pages }, ?_, ?_, ?_, ?_⟩
  · have heq : freeWords bdata (decide (bdata.nodeMinPfn &&& (bitsPerLong - 1) = 0))
        (bdata.nodeLowPfn + 1) bdata.nodeMinPfn ⟨[], 0⟩ = some freed := heq
    unfold freeAllBootmemCore
    rw [hmap]
    dsimp only
    rw [heq, hwsub, ← hnumber]
    dsimp only [Option.bind_eq_bind, Option.bind_some]
    rw [hadd]
    rfl
  · rw [hall]
    refine List.Nodup.append ?_ List.nodup_range' ?_
    · rw [hpages]
      exact List.Nodup.filter _ List.nodup_range'
    · intro pfn hpfn hmem
      obtain ⟨hin, hbit⟩ := (hclear pfn).mp hpfn
      rw [List.mem_range'_1] at hmem
      rw [hown pfn hmem.1 hmem.2 hin.1 hin.2] at hbit
      cases hbit
  · rw [hall, htotal, List.length_append, List.length_range', ← hcount]
  · intro pfn
    rw [hall, List.mem_append, List.mem_range'_1, ← hclear pfn]

/-- A node of 33 pages whose bitmap lies in its first page. -/
def paddedNode : Node where
  nodeMinPfn := 0
  nodeLowPfn := 33
  nodeBootmemMap := some 0
  bits i := i == 0 || decide (33 ≤ i)
  lastEndOff := 0
  hintIdx := 0

theorem free_all_bootmem_core_exact_paddedNode :
    ∃ freed, freeAllBootmemCore paddedNode = some freed ∧ freed.pages.Nodup ∧
      freed.count = freed.pages.length ∧
      ∀ pfn, pfn ∈ freed.pages ↔
        (0 ≤ pfn ∧ pfn < 33) ∧ paddedNode.bits (pfn - 0) = false ∨
          0 ≤ pfn ∧ pfn < 0 + bootmemBootmapPages (33 - 0) := by
  refine free_all_bootmem_core_exact paddedNode rfl (by decide) (by decide) ?_ ?_
  · intro i hlo hhi
    have hlo : 33 ≤ i := hlo
    show (i == 0 || decide (33 ≤ i)) = true
    rw [decide_eq_true hlo, Bool.or_true]
  · intro pfn hlo hhi hmin hlow
    have hhi : pfn < 0 + 1 := hhi
    obtain rfl : pfn = 0 := by omega
    rfl

/-- A node of 33 pages with every bit clear, the padding and the bitmap's own page as well: the
first page is handed over twice, and 31 pages beyond the end are. -/
def clearNode : Node where
  nodeMinPfn := 0
  nodeLowPfn := 33
  nodeBootmemMap := some 0
  bits _ := false
  lastEndOff := 0
  hintIdx := 0

theorem free_all_bootmem_core_beyond_end :
    ∃ freed, freeAllBootmemCore clearNode = some freed ∧ ¬ freed.pages.Nodup ∧
      40 ∈ freed.pages ∧ clearNode.nodeLowPfn ≤ 40 ∧ freed.count = 65 := by
  refine ⟨_, rfl, ?_, ?_, ?_, ?_⟩
  · decide
  · decide
  · decide
  · decide

end AndroidKernel.Bootmem
