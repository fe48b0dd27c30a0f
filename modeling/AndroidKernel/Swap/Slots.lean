import AndroidKernel.Swap.Model

/-!
# Slots in use

Read `swap_slots_sound` first. `Sound` is what the calls keep of an area, provided that `pages` is
the number of its usable slots.
-/

namespace AndroidKernel.Swap

open Library

variable {si : SwapInfo} {offset o : Nat}

/-! ## The sets of slots -/

theorem mem_free : o ∈ si.free ↔ o < si.max ∧ si.swapMap o = 0 := by
  rw [SwapInfo.free, Finset.mem_filter, Finset.mem_range]

theorem mem_used : o ∈ si.used ↔ o < si.max ∧ si.swapMap o ≠ 0 ∧ si.swapMap o ≠ swapMapBad := by
  rw [SwapInfo.used, Finset.mem_filter, Finset.mem_range]

theorem mem_usable : o ∈ si.usable ↔ o < si.max ∧ si.swapMap o ≠ swapMapBad := by
  rw [SwapInfo.usable, Finset.mem_filter, Finset.mem_range]

/-- The usable slots are the free ones and those with users. -/
theorem card_usable (si : SwapInfo) : si.usable.card = si.free.card + si.used.card := by
  have hunion : si.usable = si.free ∪ si.used := by
    ext o
    rw [Finset.mem_union, mem_usable, mem_free, mem_used]
    constructor
    · rintro ⟨hlt, hbad⟩
      by_cases hzero : si.swapMap o = 0
      · exact .inl ⟨hlt, hzero⟩
      · exact .inr ⟨hlt, hzero, hbad⟩
    · rintro (⟨hlt, hzero⟩ | ⟨hlt, _, hbad⟩)
      · rw [hzero]
        exact ⟨hlt, nofun⟩
      · exact ⟨hlt, hbad⟩
  rw [hunion]
  refine Finset.card_union_of_disjoint (Finset.disjoint_left.mpr fun o hfree hused => ?_)
  exact (mem_used.mp hused).2.1 (mem_free.mp hfree).2

/-- An area whose bounds and counts fit its map. -/
structure Sound (si : SwapInfo) : Prop where
  header : si.swapMap 0 = swapMapBad
  lowestBit_le : si.lowestBit ≤ si.max
  highestBit_lt : si.highestBit < si.max
  clusterNext_le : si.clusterNext ≤ si.max
  pages : si.pages = si.usable.card
  inuse : si.inusePages = si.used.card
  range : ∀ o ∈ si.free, si.lowestBit ≤ o ∧ o ≤ si.highestBit
  full : si.highestBit = 0 ↔ si.free = ∅

theorem Sound.free_pos (h : Sound si) (hmem : o ∈ si.free) : 0 < o := by
  refine Nat.pos_of_ne_zero ?_
  rintro rfl
  have hzero := (mem_free.mp hmem).2
  rw [h.header] at hzero
  cases hzero

/-! ## Taking a slot -/

theorem take_lowestBit (si : SwapInfo) (offset : Nat) :
    (take si offset).lowestBit = if si.inusePages + 1 = si.pages then si.max
      else if offset = si.lowestBit then si.lowestBit + 1 else si.lowestBit :=
  rfl

theorem take_highestBit (si : SwapInfo) (offset : Nat) :
    (take si offset).highestBit = if si.inusePages + 1 = si.pages then 0
      else if offset = si.highestBit then si.highestBit - 1 else si.highestBit :=
  rfl

theorem free_take (si : SwapInfo) (offset : Nat) :
    (take si offset).free = si.free.erase offset := by
  ext o
  rw [mem_free, Finset.mem_erase, mem_free]
  show o < si.max ∧ Function.update si.swapMap offset 1 o = 0 ↔ _
  by_cases ho : o = offset
  · rw [ho, Function.update_self]
    exact ⟨nofun, fun hc => absurd rfl hc.1⟩
  · rw [Function.update_of_ne ho]
    exact ⟨fun hc => ⟨ho, hc⟩, fun hc => hc.2⟩

theorem used_take (hmem : offset ∈ si.free) : (take si offset).used = insert offset si.used := by
  ext o
  rw [mem_used, Finset.mem_insert, mem_used]
  show o < si.max ∧ Function.update si.swapMap offset 1 o ≠ 0 ∧
    Function.update si.swapMap offset 1 o ≠ swapMapBad ↔ _
  by_cases ho : o = offset
  · rw [ho, Function.update_self]
    exact ⟨fun _ => .inl rfl, fun _ => ⟨(mem_free.mp hmem).1, nofun, nofun⟩⟩
  · rw [Function.update_of_ne ho]
    exact ⟨fun hc => .inr hc, fun hc => hc.resolve_left ho⟩

theorem Sound.take (h : Sound si) (hmem : offset ∈ si.free) : Sound (Swap.take si offset) := by
  obtain ⟨hlt, hzero⟩ := mem_free.mp hmem
  obtain ⟨hlow, hhigh⟩ := h.range offset hmem
  have hpos := h.free_pos hmem
  have hfree := free_take si offset
  have hused := used_take hmem
  have hnot : offset ∉ si.used := fun hc => (mem_used.mp hc).2.1 hzero
  have hcard := Finset.card_erase_of_mem hmem
  have hcardpos := Finset.card_pos.mpr ⟨offset, hmem⟩
  have hpages := h.pages
  rw [card_usable, ← h.inuse] at hpages
  have hfull : si.inusePages + 1 = si.pages ↔ (Swap.take si offset).free = ∅ := by
    rw [hfree, ← Finset.card_eq_zero, hcard]
    omega
  have hlowest := h.lowestBit_le
  have hhighest := h.highestBit_lt
  refine ⟨?_, ?_, ?_, hlt, ?_, ?_, ?_, ?_⟩
  · show Function.update si.swapMap offset 1 0 = swapMapBad
    rw [Function.update_of_ne (Nat.ne_of_lt hpos)]
    exact h.header
  · show (Swap.take si offset).lowestBit ≤ si.max
    rw [take_lowestBit]
    split_ifs <;> omega
  · show (Swap.take si offset).highestBit < si.max
    rw [take_highestBit]
    split_ifs <;> omega
  · show si.pages = (Swap.take si offset).usable.card
    rw [card_usable, hfree, hused, Finset.card_insert_of_notMem hnot, hcard, ← h.inuse]
    omega
  · show si.inusePages + 1 = (Swap.take si offset).used.card
    rw [hused, Finset.card_insert_of_notMem hnot, h.inuse]
  · intro o ho
    have hnonempty : (Swap.take si offset).free ≠ ∅ := Finset.ne_empty_of_mem ho
    rw [hfree, Finset.mem_erase] at ho
    obtain ⟨hlow', hhigh'⟩ := h.range o ho.2
    have hne := ho.1
    rw [take_lowestBit, take_highestBit, if_neg (fun hc => hnonempty (hfull.mp hc)),
      if_neg (fun hc => hnonempty (hfull.mp hc))]
    constructor
    · split_ifs <;> omega
    · split_ifs <;> omega
  rw [take_highestBit]
  by_cases hall : si.inusePages + 1 = si.pages
  · rw [if_pos hall]
    exact ⟨fun _ => hfull.mp hall, fun _ => rfl⟩
  rw [if_neg hall]
  have hnonempty : (Swap.take si offset).free ≠ ∅ := fun hc => hall (hfull.mpr hc)
  obtain ⟨o, ho⟩ := Finset.nonempty_iff_ne_empty.mpr hnonempty
  refine ⟨fun hc => ?_, fun hc => absurd hc hnonempty⟩
  rw [hfree, Finset.mem_erase] at ho
  have hopos := h.free_pos ho.2
  have hohigh := (h.range o ho.2).2
  have hne := ho.1
  split_ifs at hc <;> omega

/-! ## Releasing a slot -/

/-- The count of a slot changes, and stays one of a slot with users. -/
theorem Sound.recount (h : Sound si) {count : Nat} (hmem : offset ∈ si.used) (hzero : count ≠ 0)
    (hbad : count ≠ swapMapBad) :
    Sound { si with swapMap := Function.update si.swapMap offset count } := by
  obtain ⟨hlt, hzero', hbad'⟩ := mem_used.mp hmem
  have hfree : SwapInfo.free { si with swapMap := Function.update si.swapMap offset count } =
      si.free := by
    ext o
    rw [mem_free, mem_free]
    show o < si.max ∧ Function.update si.swapMap offset count o = 0 ↔ _
    by_cases ho : o = offset
    · rw [ho, Function.update_self]
      exact ⟨fun hc => absurd hc.2 hzero, fun hc => absurd hc.2 hzero'⟩
    · rw [Function.update_of_ne ho]
  have hused : SwapInfo.used { si with swapMap := Function.update si.swapMap offset count } =
      si.used := by
    ext o
    rw [mem_used, mem_used]
    show o < si.max ∧ Function.update si.swapMap offset count o ≠ 0 ∧
      Function.update si.swapMap offset count o ≠ swapMapBad ↔ _
    by_cases ho : o = offset
    · rw [ho, Function.update_self]
      exact ⟨fun _ => ⟨hlt, hzero', hbad'⟩, fun _ => ⟨hlt, hzero, hbad⟩⟩
    · rw [Function.update_of_ne ho]
  refine ⟨?_, h.lowestBit_le, h.highestBit_lt, h.clusterNext_le, ?_, ?_, ?_, ?_⟩
  · have hne : 0 ≠ offset := by
      rintro rfl
      exact hbad' h.header
    show Function.update si.swapMap offset count 0 = swapMapBad
    rw [Function.update_of_ne hne]
    exact h.header
  · rw [card_usable, hfree, hused, ← card_usable]
    exact h.pages
  · rw [hused]
    exact h.inuse
  · rw [hfree]
    exact h.range
  · rw [hfree]
    exact h.full

/-- What `swap_entry_free` makes of the area when the last user of a slot is gone. -/
def release (si : SwapInfo) (offset : Nat) : SwapInfo :=
  { si with
    swapMap := Function.update si.swapMap offset 0
    lowestBit := if offset < si.lowestBit then offset else si.lowestBit
    highestBit := if offset > si.highestBit then offset else si.highestBit
    inusePages := si.inusePages - 1 }

theorem release_lowestBit (si : SwapInfo) (offset : Nat) :
    (release si offset).lowestBit = if offset < si.lowestBit then offset else si.lowestBit :=
  rfl

theorem release_highestBit (si : SwapInfo) (offset : Nat) :
    (release si offset).highestBit = if offset > si.highestBit then offset else si.highestBit :=
  rfl

theorem free_release (hlt : offset < si.max) :
    (release si offset).free = insert offset si.free := by
  ext o
  rw [mem_free, Finset.mem_insert, mem_free]
  show o < si.max ∧ Function.update si.swapMap offset 0 o = 0 ↔ _
  by_cases ho : o = offset
  · rw [ho, Function.update_self]
    exact ⟨fun _ => .inl rfl, fun _ => ⟨hlt, rfl⟩⟩
  · rw [Function.update_of_ne ho]
    exact ⟨fun hc => .inr hc, fun hc => hc.resolve_left ho⟩

theorem used_release (si : SwapInfo) (offset : Nat) :
    (release si offset).used = si.used.erase offset := by
  ext o
  rw [mem_used, Finset.mem_erase, mem_used]
  show o < si.max ∧ Function.update si.swapMap offset 0 o ≠ 0 ∧
    Function.update si.swapMap offset 0 o ≠ swapMapBad ↔ _
  by_cases ho : o = offset
  · rw [ho, Function.update_self]
    exact ⟨fun hc => absurd rfl hc.2.1, fun hc => absurd rfl hc.1⟩
  · rw [Function.update_of_ne ho]
    exact ⟨fun hc => ⟨ho, hc⟩, fun hc => hc.2⟩

theorem Sound.release (h : Sound si) (hmem : offset ∈ si.used) :
    Sound (Swap.release si offset) := by
  obtain ⟨hlt, hzero, hbad⟩ := mem_used.mp hmem
  have hne : offset ≠ 0 := by
    rintro rfl
    exact hbad h.header
  have hfree := free_release hlt
  have hused := used_release si offset
  have hnot : offset ∉ si.free := fun hc => hzero (mem_free.mp hc).2
  have hcard := Finset.card_erase_of_mem hmem
  have hcardpos := Finset.card_pos.mpr ⟨offset, hmem⟩
  have hpages := h.pages
  rw [card_usable] at hpages
  have hlowest := h.lowestBit_le
  have hhighest := h.highestBit_lt
  refine ⟨?_, ?_, ?_, h.clusterNext_le, ?_, ?_, ?_, ?_⟩
  · show Function.update si.swapMap offset 0 0 = swapMapBad
    rw [Function.update_of_ne hne.symm]
    exact h.header
  · show (Swap.release si offset).lowestBit ≤ si.max
    rw [release_lowestBit]
    split_ifs <;> omega
  · show (Swap.release si offset).highestBit < si.max
    rw [release_highestBit]
    split_ifs <;> omega
  · show si.pages = (Swap.release si offset).usable.card
    rw [card_usable, hfree, hused, Finset.card_insert_of_notMem hnot, hcard]
    omega
  · show si.inusePages - 1 = (Swap.release si offset).used.card
    rw [hused, hcard, h.inuse]
  · intro o ho
    rw [hfree, Finset.mem_insert] at ho
    rw [release_lowestBit, release_highestBit]
    rcases ho with rfl | ho
    · constructor
      · split_ifs <;> omega
      · split_ifs <;> omega
    · obtain ⟨hlow, hhigh⟩ := h.range o ho
      constructor
      · split_ifs <;> omega
      · split_ifs <;> omega
  · rw [release_highestBit, hfree]
    refine ⟨fun hc => ?_, fun hc => absurd hc (Finset.insert_ne_empty _ _)⟩
    split_ifs at hc <;> omega

theorem Sound.swapFree (h : Sound si) (offset : Nat) : Sound (Swap.swapFree si offset) := by
  rw [Swap.swapFree]
  split_ifs with hge hzero
  · exact h
  · exact h
  rw [swapEntryFree]
  by_cases hcount : si.swapMap offset < swapMapMax
  · have hbad : si.swapMap offset ≠ swapMapBad := by
      rw [swapMapMax] at hcount
      rw [swapMapBad]
      omega
    have hmem : offset ∈ si.used := mem_used.mpr ⟨Nat.lt_of_not_le hge, hzero, hbad⟩
    rw [if_pos hcount]
    by_cases hlast : si.swapMap offset - 1 = 0
    · rw [if_pos hlast, hlast]
      exact h.release hmem
    · rw [if_neg hlast]
      refine h.recount hmem hlast ?_
      rw [swapMapMax] at hcount
      rw [swapMapBad]
      omega
  · rw [if_neg hcount]
    exact h

theorem Sound.swapDuplicate (h : Sound si) (offset : Nat) :
    Sound (Swap.swapDuplicate si offset) := by
  rw [Swap.swapDuplicate]
  split_ifs with husers hcount hmax
  · have hbad : si.swapMap offset ≠ swapMapBad := by
      rw [swapMapMax] at hcount
      rw [swapMapBad]
      omega
    refine h.recount (mem_used.mpr ⟨husers.1, husers.2, hbad⟩) (Nat.succ_ne_zero _) ?_
    rw [swapMapMax] at hcount
    rw [swapMapBad]
    omega
  · have hbad : si.swapMap offset ≠ swapMapBad := by
      rw [swapMapMax] at hmax
      rw [swapMapBad]
      omega
    have hmem : offset ∈ si.used := mem_used.mpr ⟨husers.1, husers.2, hbad⟩
    exact h.recount hmem (by decide) (by decide)
  · exact h
  · exact h

/-! ## The scan -/

theorem findFree_spec {swapMap : Nat → Nat} {bound : Nat}
    (h : findFree swapMap bound offset = some o) : o < bound ∧ swapMap o = 0 := by
  fun_induction findFree swapMap bound offset with
  | case1 offset hlt hzero =>
    cases h
    exact ⟨hlt, hzero⟩
  | case2 offset hlt hzero ih => exact ih h
  | case3 offset hlt => cases h

theorem findCluster_lt {swapMap : Nat → Nat} {bound last : Nat} {hle : offset ≤ last}
    (h : findCluster swapMap bound offset last hle = some o) : o < bound := by
  fun_induction findCluster swapMap bound offset last hle with
  | case1 offset last hle hbound hzero ih => exact ih h
  | case2 last hle hbound hzero =>
    obtain rfl := Option.some.inj h
    omega
  | case3 offset last hle hbound hzero hlast ih => exact ih h
  | case4 offset last hle hbound => cases h

/-- Only the hints for the next cluster differ. -/
theorem Sound.hints (h : Sound si) {next nr : Nat} (hnext : next ≤ si.max) :
    Sound { si with clusterNext := next, clusterNr := nr } :=
  ⟨h.header, h.lowestBit_le, h.highestBit_lt, hnext, h.pages, h.inuse, h.range, h.full⟩

/-- A scan within the area, which has taken nothing yet. -/
structure Scanning (si : SwapInfo) (scan : Scan) : Prop where
  sound : Sound scan.si
  swapMap : scan.si.swapMap = si.swapMap
  max : scan.si.max = si.max
  scanBase_le : scan.scanBase ≤ si.max

theorem Sound.clusterBase_le (h : Sound si) : clusterBase si ≤ si.max := by
  rw [clusterBase]
  split_ifs
  · exact h.clusterNext_le
  · exact h.lowestBit_le

/-- A cluster is searched for within the area. -/
theorem Sound.searchCluster_lt (h : Sound si) (hfound : searchCluster si = some offset) :
    offset < si.max := by
  have hbase := h.clusterBase_le
  have hhighest := h.highestBit_lt
  rcases Option.or_eq_some_iff.mp hfound with hfound | ⟨_, hfound⟩
  · have := findCluster_lt hfound
    omega
  · have := findCluster_lt hfound
    omega

theorem Sound.startScan (h : Sound si) : Scanning si (Swap.startScan si) := by
  rw [Swap.startScan]
  split_ifs with hnr hfew
  · exact ⟨h.hints h.clusterNext_le, rfl, rfl, h.clusterNext_le⟩
  · exact ⟨h.hints h.clusterNext_le, rfl, rfl, h.clusterNext_le⟩
  · rw [newCluster]
    have hbase := h.clusterBase_le
    cases hfound : searchCluster si with
    | none => exact ⟨h.hints h.clusterNext_le, rfl, rfl, hbase⟩
    | some offset =>
      have hlt := h.searchCluster_lt hfound
      exact ⟨h.hints (Nat.le_of_lt hlt), rfl, rfl, hbase⟩

/-- What `scan_swap_map` does to the area: it takes a free slot, or nothing. -/
structure Scanned (si : SwapInfo) (offset : Nat) (si' : SwapInfo) : Prop where
  sound : Sound si'
  taken : offset ≠ 0 → offset < si.max ∧ si.swapMap offset = 0 ∧
    si'.swapMap = Function.update si.swapMap offset 1
  none : offset = 0 → si'.swapMap = si.swapMap

variable {scan : Scan}

theorem Scanning.nothing (h : Scanning si scan) : Scanned si 0 scan.si :=
  ⟨h.sound, fun hc => absurd rfl hc, fun _ => h.swapMap⟩

theorem Scanning.take (h : Scanning si scan) (hmem : offset ∈ scan.si.free) :
    Scanned si offset (Swap.take scan.si offset) := by
  obtain ⟨hlt, hzero⟩ := mem_free.mp hmem
  refine ⟨h.sound.take hmem, fun _ => ?_, ?_⟩
  · rw [← h.max, ← h.swapMap]
    exact ⟨hlt, hzero, rfl⟩
  · rintro rfl
    exact absurd (h.sound.free_pos hmem) (Nat.lt_irrefl 0)

/-- The slot at which the first pass looks is one of the area. -/
theorem Scanning.rewind_lt (h : Scanning si scan) (hhighest : scan.si.highestBit ≠ 0) :
    (rewind scan).offset < scan.si.max := by
  have hlt := h.sound.highestBit_lt
  rw [rewind]
  split_ifs with habove
  · have hsome : scan.si.free ≠ ∅ := fun hc => hhighest (h.sound.full.mpr hc)
    obtain ⟨o, ho⟩ := Finset.nonempty_iff_ne_empty.mpr hsome
    obtain ⟨hlow, hhigh⟩ := h.sound.range o ho
    show scan.si.lowestBit < scan.si.max
    omega
  · omega

theorem rewind_si (scan : Scan) : (rewind scan).si = scan.si := by
  rw [rewind]
  split_ifs <;> rfl

/-- The next slot is one of the free ones. -/
theorem Scanning.nextOffset_mem (h : Scanning si scan)
    (hnext : nextOffset (rewind scan) = some offset) : offset ∈ scan.si.free := by
  have hbase : (rewind scan).scanBase ≤ scan.si.max := by
    rw [rewind]
    split_ifs
    · exact h.sound.lowestBit_le
    · rw [h.max]
      exact h.scanBase_le
  have hlt := h.sound.highestBit_lt
  rw [nextOffset, rewind_si] at hnext
  refine mem_free.mpr ?_
  rcases Option.or_eq_some_iff.mp hnext with hnext | ⟨_, hnext⟩
  · obtain ⟨hbound, hzero⟩ := findFree_spec hnext
    exact ⟨by omega, hzero⟩
  · obtain ⟨hbound, hzero⟩ := findFree_spec hnext
    exact ⟨by omega, hzero⟩

/-- A pass that starts at a free slot takes it. -/
theorem Scanning.checks_free (h : Scanning si scan) (hmem : scan.offset ∈ scan.si.free)
    (hwriteok : scan.si.writeok ≠ false) {passes : Nat} :
    checks (passes + 1) scan = some (scan.offset, Swap.take scan.si scan.offset) := by
  have hhigh := (h.sound.range _ hmem).2
  have hsome : scan.si.highestBit ≠ 0 := by
    rw [Ne, h.sound.full]
    exact Finset.ne_empty_of_mem hmem
  have hrewind : rewind scan = scan := by
    rw [rewind, if_neg (Nat.not_lt.mpr hhigh)]
  rw [checks, if_neg hwriteok, if_neg hsome, hrewind, if_pos (mem_free.mp hmem).2]

/-- The scan goes on at another slot. -/
theorem Scanning.again (h : Scanning si scan) (offset : Nat) :
    Scanning si { rewind scan with offset := offset } := by
  refine ⟨?_, ?_, ?_, ?_⟩
  · show Sound (rewind scan).si
    rw [rewind_si]
    exact h.sound
  · show (rewind scan).si.swapMap = si.swapMap
    rw [rewind_si]
    exact h.swapMap
  · show (rewind scan).si.max = si.max
    rw [rewind_si]
    exact h.max
  · show (rewind scan).scanBase ≤ si.max
    rw [rewind]
    split_ifs
    · rw [← h.max]
      exact h.sound.lowestBit_le
    · exact h.scanBase_le

/-- Two passes are enough. -/
theorem Scanning.checks_spec (h : Scanning si scan) (passes : Nat) :
    ∃ offset si', checks (passes + 2) scan = some (offset, si') ∧ Scanned si offset si' := by
  rw [checks]
  by_cases hwriteok : scan.si.writeok = false
  · rw [if_pos hwriteok]
    exact ⟨_, _, rfl, h.nothing⟩
  by_cases hhighest : scan.si.highestBit = 0
  · rw [if_neg hwriteok, if_pos hhighest]
    exact ⟨_, _, rfl, h.nothing⟩
  rw [if_neg hwriteok, if_neg hhighest]
  by_cases hzero : scan.si.swapMap (rewind scan).offset = 0
  · rw [if_pos hzero]
    exact ⟨_, _, rfl, h.take (mem_free.mpr ⟨h.rewind_lt hhighest, hzero⟩)⟩
  rw [if_neg hzero]
  cases hnext : nextOffset (rewind scan) with
  | none => exact ⟨_, _, rfl, h.nothing⟩
  | some offset =>
    have hmem := h.nextOffset_mem hnext
    have hagain := h.again offset
    have hmem' : offset ∈ (rewind scan).si.free := by
      rw [rewind_si]
      exact hmem
    have hwriteok' : (rewind scan).si.writeok ≠ false := by
      rw [rewind_si]
      exact hwriteok
    exact ⟨_, _, hagain.checks_free hmem' hwriteok', hagain.take hmem'⟩

/-- More passes change nothing. -/
theorem checks_succ {passes : Nat} {result : Nat × SwapInfo}
    (h : checks passes scan = some result) : checks (passes + 1) scan = some result := by
  induction passes generalizing scan with
  | zero => cases h
  | succ passes ih =>
    rw [checks] at h ⊢
    split_ifs at h ⊢
    · exact h
    · exact h
    · exact h
    · cases hnext : nextOffset (rewind scan) with
      | none =>
        rw [hnext] at h
        exact h
      | some offset =>
        rw [hnext] at h
        exact ih h

/-- `scan_swap_map` returns, and takes a free slot or nothing. -/
theorem Sound.scanSwapMap (h : Sound si) :
    ∃ offset si', Swap.scanSwapMap 2 si = some (offset, si') ∧ Scanned si offset si' :=
  h.startScan.checks_spec 0

theorem Sound.scanned (h : Sound si) {passes : Nat} {si' : SwapInfo}
    (hscan : Swap.scanSwapMap passes si = some (offset, si')) : Scanned si offset si' := by
  obtain ⟨_, _, hresult, hspec⟩ := h.startScan.checks_spec passes
  have hsame := hresult.symm.trans (checks_succ (checks_succ hscan))
  cases hsame
  exact hspec

/-! ## Runs -/

theorem Sound.step (h : Sound si) {op : Op} {si' : SwapInfo} (hstep : Step si op si') :
    Sound si' := by
  cases op with
  | scanSwapMap =>
    obtain ⟨passes, offset, hscan⟩ := hstep
    exact (h.scanned hscan).sound
  | swapFree offset =>
    rw [← show Swap.swapFree si offset = si' from hstep]
    exact h.swapFree offset
  | swapDuplicate offset =>
    rw [← show Swap.swapDuplicate si offset = si' from hstep]
    exact h.swapDuplicate offset

/-- A fresh area: slots are free or bad. -/
structure Fresh (si : SwapInfo) : Prop where
  header : si.swapMap 0 = swapMapBad
  unused : ∀ o, si.swapMap o = 0 ∨ si.swapMap o = swapMapBad
  lowestBit : si.lowestBit = 1
  highestBit : si.highestBit = si.max - 1
  clusterNext_le : 2 ≤ si.max → si.clusterNext ≤ si.max
  inuse : si.inusePages = 0
  pages_ne : si.pages ≠ 0

theorem Fresh.sound (h : Fresh si) (hpages : si.pages = si.usable.card) : Sound si := by
  have hused : si.used = ∅ := by
    refine Finset.eq_empty_of_forall_notMem fun o ho => ?_
    obtain ⟨_, hzero, hbad⟩ := mem_used.mp ho
    exact (h.unused o).elim hzero hbad
  have hcard : si.free.card = si.pages := by
    rw [hpages, card_usable, hused, Finset.card_empty]
    rfl
  have hpos : ∀ o ∈ si.free, 0 < o := by
    intro o ho
    refine Nat.pos_of_ne_zero ?_
    rintro rfl
    have hzero := (mem_free.mp ho).2
    rw [h.header] at hzero
    cases hzero
  have hsome : si.free ≠ ∅ := by
    rw [Ne, ← Finset.card_eq_zero, hcard]
    exact h.pages_ne
  obtain ⟨o, ho⟩ := Finset.nonempty_iff_ne_empty.mpr hsome
  have hopos := hpos o ho
  have hlt := (mem_free.mp ho).1
  have hlowest := h.lowestBit
  have hhighest := h.highestBit
  refine ⟨h.header, by omega, by omega, h.clusterNext_le (by omega), hpages, ?_, ?_, ?_⟩
  · rw [hused, h.inuse, Finset.card_empty]
  · intro o ho
    have hopos := hpos o ho
    have hlt := (mem_free.mp ho).1
    omega
  · exact ⟨fun hc => by omega, fun hc => absurd hc hsome⟩

/-- The slots of an area that is enabled are free. -/
theorem fresh_swapon {header : Header} (h : swapon header = some si) : Fresh si := by
  have hmap : header.swapMap 0 = swapMapBad := if_pos (.inl rfl)
  have hunused : ∀ o, header.swapMap o = 0 ∨ header.swapMap o = swapMapBad := by
    intro o
    rw [Header.swapMap]
    split_ifs
    · exact .inr rfl
    · exact .inl rfl
  simp only [swapon, Option.ite_none_left_eq_some, Option.some.injEq] at h
  obtain ⟨_, _, _, _, _, _, hnone, rfl⟩ := h
  rw [Header.setupSwapExtents] at hnone ⊢
  have hnext : ∀ max, 2 ≤ max →
      (if header.solidstate then 1 + header.random % (max - 1) else 1) ≤ max := by
    intro max hle
    split_ifs
    · have := Nat.mod_lt header.random (show 0 < max - 1 by omega)
      omega
    · omega
  cases hpages : header.filePages with
  | none =>
    rw [hpages] at hnone
    exact ⟨hmap, hunused, rfl, rfl, hnext _, rfl, hnone⟩
  | some pageNo =>
    rw [hpages] at hnone
    exact ⟨hmap, hunused, rfl, rfl, hnext _, rfl, hnone⟩

/-- As long as `pages` is right, `scan_swap_map` returns, takes a free slot of the area or nothing,
`inuse_pages` counts the usable slots with users, and `lowest_bit` and `highest_bit` enclose the
free ones. -/
theorem swap_slots_sound {header : Header} {start : SwapInfo} (hstart : swapon header = some start)
    (hpages : start.pages = start.usable.card) (hrun : Reaches Step anyStep start si) :
    (∃ offset si', scanSwapMap 2 si = some (offset, si')) ∧
      (∀ passes offset si', scanSwapMap passes si = some (offset, si') →
        (offset ≠ 0 → 1 ≤ offset ∧ offset < si.max ∧ si.swapMap offset = 0 ∧
          si'.swapMap = Function.update si.swapMap offset 1) ∧
        (offset = 0 → si'.swapMap = si.swapMap)) ∧
      si.inusePages = si.used.card ∧
      (∀ o ∈ si.free, si.lowestBit ≤ o ∧ o ≤ si.highestBit) ∧
      (si.highestBit = 0 ↔ si.free = ∅) := by
  have h : Sound si := by
    refine hrun.invariant Sound ?_ ((fresh_swapon hstart).sound hpages)
    intro s op t hs _ hstep
    exact hs.step hstep
  refine ⟨?_, ?_, h.inuse, h.range, h.full⟩
  · obtain ⟨offset, si', hscan, _⟩ := h.scanSwapMap
    exact ⟨offset, si', hscan⟩
  · intro passes offset si' hscan
    have hspec := h.scanned hscan
    exact ⟨fun hne => ⟨Nat.pos_of_ne_zero hne, hspec.taken hne⟩, hspec.none⟩

/-! ## Areas that are larger than their map

The offset in a swap pte bounds `max`, but `pages` is what the header says. -/

/-- The area after the first `k` slots were taken one after another. -/
structure Filled (max pages k : Nat) (si : SwapInfo) : Prop where
  writeok : si.writeok = true
  solidstate : si.solidstate = false
  swapMap : si.swapMap = fun o => if o = 0 then swapMapBad else if o ≤ k then 1 else 0
  lowestBit : si.lowestBit = k + 1
  highestBit : si.highestBit = if k + 1 = max then max - 2 else max - 1
  clusterNext : si.clusterNext = k + 1
  pages : si.pages = pages
  max : si.max = max
  inuse : si.inusePages = k

/-- A cluster that starts in front of free slots only is found at once, if it fits. -/
theorem findCluster_free {swapMap : Nat → Nat} {bound last : Nat} {hle : offset ≤ last}
    (hfree : ∀ i, offset ≤ i → i < bound → swapMap i = 0) :
    findCluster swapMap bound offset last hle =
      if last < bound then some (last - (swapfileCluster - 1)) else none := by
  fun_induction findCluster swapMap bound offset last hle with
  | case1 offset last hle hbound hzero ih =>
    exact absurd (hfree offset (Nat.le_refl _) (by omega)) hzero
  | case2 last hbound hle hzero => rw [if_pos hbound]
  | case3 offset last hle hbound hzero hlast ih =>
    exact ih fun i hi => hfree i (by omega)
  | case4 offset last hle hbound => rw [if_neg hbound]

variable {max pages k : Nat}

theorem Filled.hints (h : Filled max pages k si) (nr : Nat) :
    Filled max pages k { si with clusterNext := k + 1, clusterNr := nr } :=
  ⟨h.writeok, h.solidstate, h.swapMap, h.lowestBit, h.highestBit, rfl, h.pages, h.max, h.inuse⟩

theorem Filled.swapMap_free (h : Filled max pages k si) {i : Nat} (hi : k < i) :
    si.swapMap i = 0 := by
  rw [h.swapMap]
  dsimp only
  rw [if_neg (by omega), if_neg (by omega)]

/-- The scan starts at the first free slot. -/
theorem Filled.startScan (h : Filled max pages k si) :
    (Swap.startScan si).offset = k + 1 ∧ Filled max pages k (Swap.startScan si).si := by
  have hsame : ∀ nr, Filled max pages k { si with clusterNr := nr } := by
    intro nr
    have hhints := h.hints nr
    rw [← h.clusterNext] at hhints
    exact hhints
  rw [Swap.startScan]
  by_cases hnr : si.clusterNr ≠ 0
  · rw [if_pos hnr]
    exact ⟨h.clusterNext, hsame _⟩
  by_cases hfew : wsub si.pages si.inusePages < swapfileCluster
  · rw [if_neg hnr, if_pos hfew]
    exact ⟨h.clusterNext, hsame _⟩
  rw [if_neg hnr, if_neg hfew, newCluster]
  have hbase : clusterBase si = k + 1 := by
    rw [clusterBase, h.solidstate, if_neg Bool.false_ne_true, h.lowestBit]
  have hfirst : findClusterFrom si (si.highestBit + 1) (k + 1) =
      if k + 1 + swapfileCluster - 1 < si.highestBit + 1 then
        some (k + 1 + swapfileCluster - 1 - (swapfileCluster - 1)) else none :=
    findCluster_free fun i hi _ => h.swapMap_free hi
  have hsecond : findClusterFrom si (k + 1) (k + 1) =
      if k + 1 + swapfileCluster - 1 < k + 1 then
        some (k + 1 + swapfileCluster - 1 - (swapfileCluster - 1)) else none :=
    findCluster_free fun i hi _ => h.swapMap_free hi
  have hstart : k + 1 + swapfileCluster - 1 - (swapfileCluster - 1) = k + 1 := by
    rw [swapfileCluster]
    omega
  have hover : ¬ k + 1 + swapfileCluster - 1 < k + 1 := by
    rw [swapfileCluster]
    omega
  rw [if_neg hover] at hsecond
  rw [hstart] at hfirst
  cases hfound : searchCluster si with
  | none => exact ⟨hbase, hsame _⟩
  | some offset =>
    rw [searchCluster, hbase, h.lowestBit, hsecond, hfirst, Option.or_none] at hfound
    obtain ⟨_, hoffset⟩ := Option.ite_none_right_eq_some.mp hfound
    obtain rfl := Option.some.inj hoffset
    exact ⟨rfl, h.hints _⟩

theorem Filled.step (h : Filled max pages k si) (hmax : k + 1 < max) (hpages : k + 1 ≠ pages) :
    ∃ si', Step si .scanSwapMap si' ∧ Filled max pages (k + 1) si' := by
  obtain ⟨hoffset, hscan⟩ := h.startScan
  have hhighest : (Swap.startScan si).si.highestBit = max - 1 := by
    rw [hscan.highestBit, if_neg (by omega)]
  have hrewind : rewind (Swap.startScan si) = Swap.startScan si := by
    rw [rewind, if_neg]
    rw [hoffset, hhighest]
    omega
  refine ⟨take (Swap.startScan si).si (k + 1), ⟨1, k + 1, ?_⟩, ?_⟩
  · rw [scanSwapMap, checks, hscan.writeok, if_neg nofun, hhighest, if_neg (by omega), hrewind,
      hoffset, if_pos (hscan.swapMap_free (Nat.lt_succ_self k))]
  have hfull : ¬ (Swap.startScan si).si.inusePages + 1 = (Swap.startScan si).si.pages := by
    rw [hscan.inuse, hscan.pages]
    exact hpages
  refine ⟨hscan.writeok, hscan.solidstate, ?_, ?_, ?_, rfl, hscan.pages, hscan.max, ?_⟩
  · show Function.update (Swap.startScan si).si.swapMap (k + 1) 1 = _
    rw [hscan.swapMap]
    funext o
    rw [Function.update_apply]
    split_ifs <;> omega
  · rw [take_lowestBit, if_neg hfull, if_pos hscan.lowestBit.symm, hscan.lowestBit]
  · rw [take_highestBit, if_neg hfull, hhighest]
    split_ifs <;> omega
  · exact congrArg (· + 1) hscan.inuse

theorem Filled.reaches {start : SwapInfo} (h : Filled max pages 0 start) (hmax : k < max)
    (hpages : k < pages) : ∃ si, Reaches Step anyStep start si ∧ Filled max pages k si := by
  induction k with
  | zero => exact ⟨start, .refl start, h⟩
  | succ k ih =>
    obtain ⟨si, hrun, hfilled⟩ := ih (by omega) (by omega)
    obtain ⟨si', hstep, hfilled'⟩ := hfilled.step hmax (by omega)
    exact ⟨si', hrun.tail hstep trivial, hfilled'⟩

/-- The header of a block device without bad pages. -/
def plainHeader (lastPage : Nat) : Header where
  lastPage := lastPage
  badpages := []
  swapfilepages := lastPage
  filePages := none
  solidstate := false
  random := 0

theorem swapon_plainHeader {lastPage : Nat} (hlow : 2 ≤ lastPage) (hword : lastPage < word) :
    ∃ start, swapon (plainHeader lastPage) = some start ∧
      Filled (min maxOffset lastPage) (lastPage - 1) 0 start := by
  have hpages : (plainHeader lastPage).area.pages = lastPage - 1 := by
    show wsub (wsub lastPage 0) 1 = lastPage - 1
    rw [wsub_eq (Nat.zero_le _) hword, Nat.sub_zero, wsub_eq (by omega) hword]
  have hmaxpages : (plainHeader lastPage).maxpages = min maxOffset lastPage := rfl
  have hoffset : 2 ≤ maxOffset := by
    rw [maxOffset]
    omega
  have hshort : ¬ ((plainHeader lastPage).swapfilepages ≠ 0 ∧
      min maxOffset lastPage > (plainHeader lastPage).swapfilepages) := by
    show ¬ (lastPage ≠ 0 ∧ min maxOffset lastPage > lastPage)
    omega
  have hfew : ¬ (plainHeader lastPage).badpages.length > maxSwapBadpages := Nat.not_lt_zero _
  have hgood : ∀ page ∈ (plainHeader lastPage).badpages,
      0 < page ∧ page < 2 ^ 31 ∧ page < (plainHeader lastPage).lastPage := nofun
  refine ⟨(plainHeader lastPage).area, ?_, ?_⟩
  · rw [swapon, hmaxpages, if_neg (by omega), if_neg hshort, if_neg (fun hc => absurd rfl hc.1),
      if_neg hfew, if_neg (not_not.mpr hgood), hpages, if_neg (by omega)]
    show (if (plainHeader lastPage).area.pages = 0 then _ else _) = _
    rw [hpages, if_neg (by omega)]
    rfl
  refine ⟨rfl, rfl, ?_, rfl, ?_, rfl, hpages, rfl, rfl⟩
  · funext o
    show (if o = 0 ∨ o ∈ [] then swapMapBad else 0) = _
    by_cases ho : o = 0
    · rw [if_pos (.inl ho), if_pos ho]
    · rw [if_neg (fun hc => hc.elim ho nofun), if_neg ho, if_neg (by omega)]
  · rw [if_neg (by omega)]
    rfl

theorem Filled.free_eq (h : Filled max pages k si) (hmax : k + 1 = max) : si.free = ∅ := by
  refine Finset.eq_empty_of_forall_notMem fun o ho => ?_
  obtain ⟨hlt, hzero⟩ := mem_free.mp ho
  rw [h.max] at hlt
  rw [h.swapMap] at hzero
  dsimp only at hzero
  split_ifs at hzero with hheader hle
  · cases hzero
  · omega

/-- On a device of `2 ^ 24` pages every slot is taken in the end, and `highest_bit` is not 0. -/
theorem swapon_large_full :
    ∃ start si, swapon (plainHeader (2 ^ 24)) = some start ∧ Reaches Step anyStep start si ∧
      si.free = ∅ ∧ si.highestBit ≠ 0 := by
  have hmax : min maxOffset (2 ^ 24) = 2 ^ 23 - 2 := rfl
  obtain ⟨start, hstart, hfilled⟩ :=
    @swapon_plainHeader (2 ^ 24) (by omega) (by rw [word]; omega)
  rw [hmax] at hfilled
  obtain ⟨si, hrun, hlast⟩ := @Filled.reaches _ _ (2 ^ 23 - 3) _ hfilled (by omega) (by omega)
  refine ⟨start, si, hstart, hrun, hlast.free_eq (by omega), ?_⟩
  rw [hlast.highestBit, if_pos (by omega)]
  omega

/-- A small area, of which one slot is taken. -/
theorem swap_slots_sound_taken :
    ∃ start si, swapon (plainHeader 3) = some start ∧ start.pages = start.usable.card ∧
      Reaches Step anyStep start si ∧ si.used.card = 1 := by
  obtain ⟨start, hstart, hfilled⟩ := @swapon_plainHeader 3 (by omega) (by rw [word]; omega)
  obtain ⟨si, hrun, hlast⟩ := @Filled.reaches _ _ 1 _ hfilled (by decide) (by decide)
  have hpages : start.pages = start.usable.card := by
    rw [hfilled.pages, SwapInfo.usable, hfilled.max, hfilled.swapMap]
    decide
  obtain ⟨_, _, hinuse, _⟩ := swap_slots_sound hstart hpages hrun
  exact ⟨start, si, hstart, hpages, hrun, hinuse.symm.trans hlast.inuse⟩

end AndroidKernel.Swap
