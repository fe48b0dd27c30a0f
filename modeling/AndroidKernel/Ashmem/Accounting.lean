import AndroidKernel.Ashmem.Runs
import Mathlib.Data.List.Nodup

/-!
# The LRU list and its page count

`ashmem_lru_list` and `lru_count` are changed wherever a range is allocated, deleted, shrunk or
purged. `Tracks` says that they agree with the ranges of one area while those of the other areas
stand still; each of the four primitives keeps it, so the walks of pin, unpin and release do.
`World.Accounted` is the same over all areas and holds in every state of every run, with the
count taken modulo the word size. On such states the shrinker consumes the list from its head.
-/

namespace AndroidKernel.Ashmem

open Library

/-- The LRU entries that the ranges of one area should have. -/
def lruEntries (asma : Nat) (ranges : List Range) : List (Nat × Nat) :=
  (ranges.filter rangeOnLru).map fun range => (asma, range.id)

/-- The total size of those ranges. -/
def lruPages (ranges : List Range) : Nat :=
  ((ranges.filter rangeOnLru).map rangeSize).sum

/-- The LRU agrees with the ranges of area `asma`: its entries are those of the area and
`others`, in the order of allocation, and its count is the pages of the area and `base` more.
Addresses are handed out from `floor` upwards. -/
structure Tracks (asma : Nat) (others : List (Nat × Nat)) (base floor : Nat)
    (ranges : List Range) (lru : Lru) : Prop where
  entries : lru.list.Perm (lruEntries asma ranges ++ others)
  ordered : lru.list.Pairwise fun older newer => older.2 < newer.2
  fresh : ∀ entry ∈ lru.list, entry.2 < lru.nextRange
  distinct : (ranges.map Range.id).Nodup
  known : ∀ range ∈ ranges, range.id < lru.nextRange
  count : lru.count = (base + lruPages ranges) % word
  grown : floor ≤ lru.nextRange

section Walks

variable {asma base floor : Nat} {others : List (Nat × Nat)} {ranges : List Range} {lru : Lru}

theorem lruEntries_cons (asma : Nat) (range : Range) (ranges : List Range) :
    lruEntries asma (range :: ranges) =
      (if rangeOnLru range then [(asma, range.id)] else []) ++ lruEntries asma ranges := by
  unfold lruEntries
  by_cases hon : rangeOnLru range <;> simp [hon]

theorem lruPages_cons (range : Range) (ranges : List Range) :
    lruPages (range :: ranges) =
      (if rangeOnLru range then rangeSize range else 0) + lruPages ranges := by
  unfold lruPages
  by_cases hon : rangeOnLru range <;> simp [hon]

/-- The order in which the ranges of an area are listed does not matter. -/
theorem Tracks.perm {ranges' : List Range} (h : Tracks asma others base floor ranges lru)
    (hperm : ranges.Perm ranges') : Tracks asma others base floor ranges' lru where
  entries := h.entries.trans (((hperm.filter _).map _).append_right others)
  ordered := h.ordered
  fresh := h.fresh
  distinct := ((hperm.map _).nodup_iff).mp h.distinct
  known := fun range hmem => h.known range (hperm.mem_iff.mpr hmem)
  count := by
    rw [h.count, lruPages, ((hperm.filter _).map _).sum_nat]
    rfl
  grown := h.grown

/-- The LRU without the entry of a range that is on it. -/
theorem Tracks.lruDel {range : Range} (h : Tracks asma others base floor (range :: ranges) lru)
    (hon : rangeOnLru range = true) :
    (lruDel asma range lru).list.Perm (lruEntries asma ranges ++ others) ∧
      (Ashmem.lruDel asma range lru).count = (base + lruPages ranges) % word := by
  have hentries := h.entries
  have hcount := h.count
  rw [lruEntries_cons, if_pos hon, List.append_assoc] at hentries
  rw [lruPages_cons, if_pos hon] at hcount
  refine ⟨?_, ?_⟩
  · have herase := hentries.erase (asma, range.id)
    rwa [List.singleton_append, List.erase_cons_head] at herase
  · show wsub lru.count (rangeSize range) = _
    simp only [wsub, word, hcount]
    omega

/-- `range_del` takes a range off its area and, if it is there, off the LRU. -/
theorem Tracks.del {range : Range} (h : Tracks asma others base floor (range :: ranges) lru) :
    Tracks asma others base floor ranges (rangeDel asma range lru) := by
  have hdistinct := (List.nodup_cons.mp h.distinct).2
  have hknown := (List.forall_mem_cons.mp h.known).2
  unfold rangeDel
  by_cases hon : rangeOnLru range = true
  · rw [if_pos hon]
    obtain ⟨hentries, hcount⟩ := h.lruDel hon
    exact ⟨hentries, h.ordered.sublist List.erase_sublist,
      fun entry hmem => h.fresh entry (List.mem_of_mem_erase hmem), hdistinct, hknown, hcount,
      h.grown⟩
  · rw [if_neg hon]
    have hentries := h.entries
    have hcount := h.count
    rw [lruEntries_cons, if_neg hon, List.nil_append] at hentries
    rw [lruPages_cons, if_neg hon, Nat.zero_add] at hcount
    exact ⟨hentries, h.ordered, h.fresh, hdistinct, hknown, hcount, h.grown⟩

/-- `range_alloc` adds a range with a new address, at the tail of the LRU unless it is purged. -/
theorem Tracks.alloc {alloc purged : Bool} {start stop : Nat} {range : Range} {lru' : Lru}
    (h : Tracks asma others base floor ranges lru)
    (halloc : rangeAlloc alloc asma purged start stop lru = some (range, lru')) :
    Tracks asma others base floor (range :: ranges) lru' := by
  unfold rangeAlloc at halloc
  split_ifs at halloc with hok
  simp only [Option.some.injEq, Prod.mk.injEq] at halloc
  obtain ⟨rfl, rfl⟩ := halloc
  have hdistinct : (((⟨lru.nextRange, start, stop, purged⟩ : Range) :: ranges).map
      Range.id).Nodup := by
    refine List.nodup_cons.mpr ⟨fun hmem => ?_, h.distinct⟩
    obtain ⟨old, hold, hid⟩ := List.mem_map.mp hmem
    exact absurd (h.known old hold) (by rw [hid]; exact lt_irrefl _)
  have hknown : ∀ range ∈ (⟨lru.nextRange, start, stop, purged⟩ : Range) :: ranges,
      range.id < lru.nextRange + 1 := by
    refine List.forall_mem_cons.mpr ⟨Nat.lt_succ_self _, fun range hmem => ?_⟩
    exact (h.known range hmem).trans (Nat.lt_succ_self _)
  cases purged with
  | true =>
    refine ⟨?_, h.ordered, fun entry hmem => (h.fresh entry hmem).trans (Nat.lt_succ_self _),
      hdistinct, hknown, ?_, h.grown.trans (Nat.le_succ _)⟩
    · rw [lruEntries_cons]
      exact h.entries
    · rw [lruPages_cons]
      simpa [rangeOnLru] using h.count
  | false =>
    refine ⟨?_, ?_, ?_, hdistinct, hknown, ?_, h.grown.trans (Nat.le_succ _)⟩
    · rw [lruEntries_cons]
      exact List.perm_append_singleton _ _ |>.trans (h.entries.cons _)
    · refine List.pairwise_append.mpr ⟨h.ordered, List.pairwise_singleton _ _, ?_⟩
      intro older holder newer hnewer
      obtain rfl := List.mem_singleton.mp hnewer
      exact h.fresh older holder
    · intro entry hmem
      rcases List.mem_append.mp hmem with hmem | hmem
      · exact (h.fresh entry hmem).trans (Nat.lt_succ_self _)
      · obtain rfl := List.mem_singleton.mp hmem
        exact Nat.lt_succ_self _
    · have hcount := h.count
      rw [lruPages_cons]
      simp only [rangeOnLru, lruAdd, wadd, word, Bool.not_false, if_true] at hcount ⊢
      omega

/-- `range_shrink` adjusts the count by the difference of the sizes. -/
theorem Tracks.shrink {range : Range} (start stop : Nat)
    (h : Tracks asma others base floor (range :: ranges) lru) :
    Tracks asma others base floor ((rangeShrink range start stop lru).1 :: ranges)
      (rangeShrink range start stop lru).2 := by
  have hentries := h.entries
  have hcount := h.count
  have hknown := List.forall_mem_cons.mp h.known
  have hpre : rangeSize range < word := wadd_lt _ _
  have hpost : rangeSize (rangeShrink range start stop lru).1 < word := wadd_lt _ _
  have hsame : rangeOnLru (rangeShrink range start stop lru).1 = rangeOnLru range := rfl
  rw [lruEntries_cons] at hentries
  rw [lruPages_cons] at hcount
  by_cases hon : rangeOnLru range = true
  · have hlru : (rangeShrink range start stop lru).2 =
        ⟨lru.list, wsub lru.count
          (wsub (rangeSize range) (rangeSize (rangeShrink range start stop lru).1)),
          lru.nextRange⟩ := if_pos hon
    rw [if_pos hon] at hcount hentries
    rw [hlru]
    refine ⟨?_, h.ordered, h.fresh, h.distinct, List.forall_mem_cons.mpr hknown, ?_,
      h.grown⟩
    · rw [lruEntries_cons, hsame, if_pos hon]
      exact hentries
    · rw [lruPages_cons, hsame, if_pos hon]
      simp only [wsub, word] at hcount hpre hpost ⊢
      omega
  have hlru : (rangeShrink range start stop lru).2 = lru := if_neg hon
  rw [if_neg hon] at hcount hentries
  rw [hlru]
  refine ⟨?_, h.ordered, h.fresh, h.distinct, List.forall_mem_cons.mpr hknown, ?_,
    h.grown⟩
  · rw [lruEntries_cons, hsame, if_neg hon]
    exact hentries
  · rw [lruPages_cons, hsame, if_neg hon]
    exact hcount

/-- Marking a range purged takes it off the LRU. -/
theorem Tracks.purge {range : Range} (h : Tracks asma others base floor (range :: ranges) lru)
    (hon : rangeOnLru range = true) :
    Tracks asma others base floor ({ range with purged := true } :: ranges)
      (Ashmem.lruDel asma range lru) := by
  obtain ⟨hentries, hcount⟩ := h.lruDel hon
  refine ⟨?_, h.ordered.sublist List.erase_sublist,
    fun entry hmem => h.fresh entry (List.mem_of_mem_erase hmem), h.distinct,
    List.forall_mem_cons.mpr (List.forall_mem_cons.mp h.known), ?_, h.grown⟩
  · rw [lruEntries_cons]
    exact hentries
  · rw [lruPages_cons]
    simpa [rangeOnLru] using hcount

/-! ## The walks -/

/-- `ashmem_pin` keeps the LRU in agreement; `done` holds the ranges it has passed. -/
theorem Tracks.pin {alloc : Bool} {pgstart pgend : Nat} (done : List Range)
    (h : Tracks asma others base floor (ranges ++ done) lru) :
    Tracks asma others base floor
      ((ashmemPin alloc asma pgstart pgend lru ranges).1 ++ done)
      (ashmemPin alloc asma pgstart pgend lru ranges).2.1 := by
  induction ranges generalizing lru done with
  | nil => exact h
  | cons range next ih =>
    simp only [ashmemPin]
    split_ifs with hbefore hover hsubsume hstart hend
    · exact h
    · exact ih done h.del
    · have hnext := ih _ ((h.shrink (pgend + 1) range.pgend).perm List.perm_middle.symm)
      exact hnext.perm List.perm_middle
    · have hnext := ih _ ((h.shrink range.pgstart (pgstart - 1)).perm List.perm_middle.symm)
      exact hnext.perm List.perm_middle
    · split
      next upper lru' halloc =>
        have hlower := (h.alloc halloc).perm (.swap ..)
        exact (hlower.shrink range.pgstart (pgstart - 1)).perm (.swap ..)
      next => exact h.shrink range.pgstart (pgstart - 1)
    · exact (ih _ (h.perm List.perm_middle.symm)).perm List.perm_middle

/-- The list a pass was started on, cut at the insertion point. -/
theorem unpin_scan_insertion {pgstart pgend : Nat} {before after : List Range}
    (h : unpinScan pgstart pgend ranges = .insertion before after) : ranges = before ++ after := by
  induction ranges generalizing before with
  | nil =>
    cases h
    rfl
  | cons first rest ih =>
    unfold unpinScan at h
    split_ifs at h
    · cases h
      rfl
    · cases hrest : unpinScan pgstart pgend rest with
      | subsumed | overlap => simp [hrest, UnpinScan.walked] at h
      | insertion inner tail =>
        simp only [hrest, UnpinScan.walked, UnpinScan.insertion.injEq] at h
        obtain ⟨rfl, rfl⟩ := h
        rw [ih hrest]
        rfl

/-- `ashmem_unpin` keeps the LRU in agreement. -/
theorem Tracks.unpin {alloc purged : Bool} {pgstart pgend : Nat}
    (h : Tracks asma others base floor ranges lru) :
    Tracks asma others base floor
      (ashmemUnpin alloc asma pgstart pgend purged lru ranges).1
      (ashmemUnpin alloc asma pgstart pgend purged lru ranges).2.1 := by
  induction hn : ranges.length using Nat.strong_induction_on
    generalizing pgstart pgend purged lru ranges with
  | _ n ih =>
    unfold ashmemUnpin
    split
    next before after hscan =>
      split
      next range lru' halloc =>
        have hranges : ranges = before ++ after := unpin_scan_insertion hscan
        exact (hranges ▸ h.alloc halloc).perm List.perm_middle.symm
      next => exact h
    next => exact h
    next before range after hscan =>
      obtain rfl := unpin_scan_overlap hscan
      exact ih _ (by subst hn; simp) (h.perm List.perm_middle).del rfl

/-- `ashmem_release` takes every range of its area off the LRU. -/
theorem Tracks.release {state : Area}
    (h : Tracks asma others base floor state.unpinnedList lru) :
    Tracks asma others base floor [] (ashmemRelease asma state lru) := by
  unfold ashmemRelease
  generalize state.unpinnedList = ranges at h
  induction ranges generalizing lru with
  | nil => exact h
  | cons range next ih => exact ih h.del

end Walks

/-! ## All areas -/

/-- The unpinned ranges of an area; a closed area has none. -/
def World.rangesOf (world : World) (asma : Nat) : List Range :=
  (world.area asma).elim [] Area.unpinnedList

/-- The size of the range an LRU entry points to. -/
def World.entrySize (world : World) (entry : Nat × Nat) : Nat :=
  (world.range? entry).elim 0 rangeSize

/-- The LRU holds exactly the unpurged ranges of all areas, each once, in the order in which
they were allocated; its count is the sum of their sizes as far as a word can hold it; and an
area has ranges only after its backing file exists. -/
structure World.Accounted (world : World) : Prop where
  exact : ∀ entry, entry ∈ world.lru.list ↔
    ∃ range ∈ world.rangesOf entry.1, range.id = entry.2 ∧ range.purged = false
  ordered : world.lru.list.Pairwise fun older newer => older.2 < newer.2
  fresh : ∀ entry ∈ world.lru.list, entry.2 < world.lru.nextRange
  distinct : ∀ asma, ((world.rangesOf asma).map Range.id).Nodup
  known : ∀ asma, ∀ range ∈ world.rangesOf asma, range.id < world.lru.nextRange
  count : world.lru.count = (world.lru.list.map world.entrySize).sum % word
  mapped : ∀ asma state, world.area asma = some state → state.file = false →
    state.unpinnedList = []

theorem range?_eq (world : World) (entry : Nat × Nat) :
    world.range? entry = (world.rangesOf entry.1).find? fun range => range.id = entry.2 := by
  unfold World.range? World.rangesOf
  cases world.area entry.1 with
  | none => rfl
  | some state => rfl

/-- A list without repeated addresses has one range at each of them. -/
theorem find_by_id {ranges : List Range} {range : Range} (hdistinct : (ranges.map Range.id).Nodup)
    (hmem : range ∈ ranges) : ranges.find? (fun other => other.id = range.id) = some range := by
  induction ranges with
  | nil => cases hmem
  | cons first next ih =>
    obtain ⟨hfirst, hnext⟩ := List.nodup_cons.mp hdistinct
    rcases List.mem_cons.mp hmem with rfl | hmem
    · simp
    · have hne : first.id ≠ range.id := fun heq => hfirst (heq ▸ List.mem_map_of_mem hmem)
      rw [List.find?_cons_of_neg (by simpa using hne)]
      exact ih hnext hmem

theorem entrySize_of_mem {world : World} {asma : Nat} {range : Range}
    (hdistinct : ((world.rangesOf asma).map Range.id).Nodup) (hmem : range ∈ world.rangesOf asma) :
    world.entrySize (asma, range.id) = rangeSize range := by
  rw [World.entrySize, range?_eq, find_by_id hdistinct hmem]
  rfl

/-- Entries of increasing addresses are distinct. -/
theorem nodup_of_ordered {entries : List (Nat × Nat)}
    (h : entries.Pairwise fun older newer => older.2 < newer.2) : entries.Nodup :=
  h.imp fun hlt heq => absurd (heq ▸ hlt) (lt_irrefl _)

theorem mem_lruEntries {asma : Nat} {ranges : List Range} {entry : Nat × Nat} :
    entry ∈ lruEntries asma ranges ↔
      entry.1 = asma ∧ ∃ range ∈ ranges, range.id = entry.2 ∧ range.purged = false := by
  simp only [lruEntries, List.mem_map, List.mem_filter, rangeOnLru, Bool.not_eq_true']
  constructor
  · rintro ⟨range, ⟨hmem, hon⟩, rfl⟩
    exact ⟨rfl, range, hmem, rfl, hon⟩
  · rintro ⟨rfl, range, hmem, hid, hon⟩
    exact ⟨range, ⟨hmem, hon⟩, by rw [hid]⟩

/-- The LRU entries of the other areas. -/
def World.others (world : World) (asma : Nat) : List (Nat × Nat) :=
  world.lru.list.filter fun entry => entry.1 ≠ asma

/-- The total size of the ranges of the other areas. -/
def World.base (world : World) (asma : Nat) : Nat :=
  ((world.others asma).map world.entrySize).sum

theorem mem_others {world : World} {asma : Nat} {entry : Nat × Nat} :
    entry ∈ world.others asma ↔ entry ∈ world.lru.list ∧ entry.1 ≠ asma := by
  simp [World.others]

/-- The sizes of an area's entries sum up to its pages. -/
theorem sum_lruEntries {world : World} {asma : Nat}
    (hdistinct : ((world.rangesOf asma).map Range.id).Nodup) :
    ((lruEntries asma (world.rangesOf asma)).map world.entrySize).sum =
      lruPages (world.rangesOf asma) := by
  rw [lruEntries, lruPages, List.map_map]
  congr 1
  refine List.map_congr_left fun range hmem => ?_
  exact entrySize_of_mem hdistinct (List.mem_filter.mp hmem).1

/-- In an accounted state the LRU agrees with the ranges of each area. -/
theorem World.Accounted.tracks {world : World} (h : world.Accounted) (asma : Nat) :
    Tracks asma (world.others asma) (world.base asma) world.lru.nextRange (world.rangesOf asma)
      world.lru := by
  have hentries : world.lru.list.Perm
      (lruEntries asma (world.rangesOf asma) ++ world.others asma) := by
    refine (List.perm_ext_iff_of_nodup (nodup_of_ordered h.ordered) ?_).mpr fun entry => ?_
    · refine List.nodup_append.mpr ⟨?_, (nodup_of_ordered h.ordered).filter _, ?_⟩
      · have hids : ((world.rangesOf asma).filter rangeOnLru |>.map Range.id).Nodup :=
          (h.distinct asma).sublist (List.filter_sublist.map _)
        refine List.Nodup.of_map Prod.snd ?_
        rwa [lruEntries, List.map_map]
      · rintro entry hown _ hother rfl
        exact (mem_others.mp hother).2 (mem_lruEntries.mp hown).1
    rw [List.mem_append, mem_lruEntries, mem_others, h.exact entry]
    constructor
    · intro hrange
      by_cases heq : entry.1 = asma
      · exact .inl ⟨heq, heq ▸ hrange⟩
      · exact .inr ⟨hrange, heq⟩
    · rintro (⟨heq, hrange⟩ | ⟨hrange, -⟩)
      · exact heq ▸ hrange
      · exact hrange
  refine ⟨hentries, h.ordered, h.fresh, h.distinct asma, h.known asma, ?_, le_rfl⟩
  rw [h.count, (hentries.map _).sum_nat, List.map_append, List.sum_append,
    sum_lruEntries (h.distinct asma), World.base, Nat.add_comm]

/-- Replacing one area and the LRU by ones that agree keeps the state accounted. -/
theorem World.Accounted.update {world : World} {asma : Nat} {new : Option Area} {lru : Lru}
    (h : world.Accounted)
    (htracks : Tracks asma (world.others asma) (world.base asma) world.lru.nextRange
      (new.elim [] Area.unpinnedList) lru)
    (hmapped : ∀ state, new = some state → state.file = false → state.unpinnedList = []) :
    World.Accounted { area := Function.update world.area asma new, lru } := by
  have hself : World.rangesOf { area := Function.update world.area asma new, lru } asma =
      new.elim [] Area.unpinnedList := by
    simp [World.rangesOf]
  have hother : ∀ other, other ≠ asma →
      World.rangesOf { area := Function.update world.area asma new, lru } other =
        world.rangesOf other := by
    intro other hne
    simp [World.rangesOf, Function.update_of_ne hne]
  have hdistinct : ∀ other, ((World.rangesOf
      { area := Function.update world.area asma new, lru } other).map Range.id).Nodup := by
    intro other
    by_cases heq : other = asma
    · rw [heq, hself]
      exact htracks.distinct
    · rw [hother other heq]
      exact h.distinct other
  refine ⟨fun entry => ?_, htracks.ordered, htracks.fresh, hdistinct, fun other => ?_, ?_,
    fun other state hstate => ?_⟩
  · show entry ∈ lru.list ↔ _
    rw [htracks.entries.mem_iff, List.mem_append, mem_lruEntries, mem_others]
    by_cases heq : entry.1 = asma
    · rw [heq, hself]
      simp
    · rw [hother _ heq, h.exact entry]
      simp [heq]
  · by_cases heq : other = asma
    · rw [heq, hself]
      exact htracks.known
    · rw [hother other heq]
      exact fun range hmem => (h.known other range hmem).trans_le htracks.grown
  · -- the other areas keep their sizes, this one has its pages
    show lru.count = _
    have hbase : (world.others asma).map (World.entrySize
        { area := Function.update world.area asma new, lru }) =
        (world.others asma).map world.entrySize := by
      refine List.map_congr_left fun entry hmem => ?_
      rw [World.entrySize, World.entrySize, range?_eq, range?_eq,
        hother _ (mem_others.mp hmem).2]
    have hown := sum_lruEntries (hdistinct asma)
    rw [hself] at hown
    show lru.count = (lru.list.map _).sum % word
    rw [htracks.count, (htracks.entries.map _).sum_nat, List.map_append, List.sum_append, hbase,
      hown, World.base, Nat.add_comm]
  by_cases heq : other = asma
  · subst heq
    replace hstate : Function.update world.area other new other = some state := hstate
    rw [Function.update_self] at hstate
    exact hmapped state hstate
  · replace hstate : Function.update world.area asma new other = some state := hstate
    rw [Function.update_of_ne heq] at hstate
    exact h.mapped other state hstate

/-! ## The shrinker -/

/-- The flag an area's range has after the ranges at the entries `taken` were purged. -/
def Range.takenBy (taken : List (Nat × Nat)) (asma : Nat) (range : Range) : Range :=
  if (asma, range.id) ∈ taken then { range with purged := true } else range

/-- An area after the ranges at the entries `taken` were purged. -/
def Area.takenBy (taken : List (Nat × Nat)) (asma : Nat) (state : Area) : Area :=
  { state with unpinnedList := state.unpinnedList.map (Range.takenBy taken asma) }

/-- What `ashmem_shrink` does: it takes entries from the head of the LRU until `nr` pages are
reached or the list is empty, not one entry more, truncates their ranges in that order and marks
them purged; no other range changes. -/
structure Shrunk (world : World) (nr : Int) (taken : List (Nat × Nat)) (final : World)
    (calls : List Truncation) : Prop where
  accounted : final.Accounted
  consumed : world.lru.list = taken ++ final.lru.list
  enough : final.lru.list = [] ∨ nr ≤ ((taken.map world.entrySize).sum : Nat)
  needed : ∀ k, 0 < k → k < taken.length → (((taken.take k).map world.entrySize).sum : Nat) < nr
  areas : final.area = fun asma => (world.area asma).map (Area.takenBy taken asma)
  truncated : calls = taken.filterMap fun entry =>
    (world.range? entry).map (truncateRange entry.1)

/-- Purging moves no range: every entry still finds its range, possibly with another flag. -/
theorem range?_purge {world : World} {asma : Nat} {state : Area} (range : Range)
    (hstate : world.area asma = some state) (entry : Nat × Nat) :
    (world.purge asma state range).range? entry =
      (world.range? entry).map fun found =>
        if entry.1 = asma then found.setPurged range.id else found := by
  unfold World.range? World.purge World.setRanges
  by_cases heq : entry.1 = asma
  · simp only [heq, Function.update_self, hstate, Option.bind_some, if_true]
    show (setPurged range.id state.unpinnedList).find? _ = _
    rw [setPurged, List.find?_map]
    congr 2
    funext found
    simp only [Function.comp, Range.setPurged]
    split <;> rfl
  · simp only [Function.update_of_ne heq, if_neg heq]
    cases (world.area entry.1).bind fun state =>
      state.unpinnedList.find? fun range => range.id = entry.2 with
    | none => rfl
    | some found => rfl

/-- Neither the size of a range nor its truncation depends on its flag. -/
theorem entrySize_purge {world : World} {asma : Nat} {state : Area} (range : Range)
    (hstate : world.area asma = some state) :
    (world.purge asma state range).entrySize = world.entrySize := by
  funext entry
  rw [World.entrySize, World.entrySize, range?_purge range hstate]
  cases world.range? entry with
  | none => rfl
  | some found =>
    simp only [Option.map_some, Option.elim_some, rangeSize]
    split <;> simp

theorem truncateRange_purge {world : World} {asma : Nat} {state : Area} (range : Range)
    (hstate : world.area asma = some state) (entry : Nat × Nat) :
    ((world.purge asma state range).range? entry).map (truncateRange entry.1) =
      (world.range? entry).map (truncateRange entry.1) := by
  have hmoved : ∀ found : Range, truncateRange entry.1
      (if entry.1 = asma then found.setPurged range.id else found) =
        truncateRange entry.1 found := by
    intro found
    split
    · simp only [truncateRange, set_purged_pgstart, set_purged_pgend]
    · rfl
  rw [range?_purge range hstate, Option.map_map]
  cases world.range? entry with
  | none => rw [Option.map_none, Option.map_none]
  | some found => rw [Option.map_some, Option.map_some, Function.comp_apply, hmoved]

/-- Purging a range that is on the LRU keeps the state accounted. -/
theorem World.Accounted.purge {world : World} {asma : Nat} {state : Area} {range : Range}
    (h : world.Accounted) (hstate : world.area asma = some state)
    (hmem : range ∈ state.unpinnedList) (hon : range.purged = false) :
    (world.purge asma state range).Accounted := by
  have hranges : world.rangesOf asma = state.unpinnedList := by
    rw [World.rangesOf, hstate]
    rfl
  have htracks := h.tracks asma
  have hdistinct := h.distinct asma
  rw [hranges] at htracks hdistinct
  refine h.update ?_ fun new hnew hfile => ?_
  · -- `setPurged` changes the flag of this range only
    obtain ⟨before, after, hsplit⟩ := List.append_of_mem hmem
    have hperm : state.unpinnedList.Perm (range :: (before ++ after)) :=
      hsplit ▸ List.perm_middle
    have hids := ((hperm.map Range.id).nodup_iff).mp hdistinct
    have hsame : setPurged range.id (before ++ after) = before ++ after := by
      refine (List.map_congr_left fun other hother => ?_).trans (List.map_id _)
      have hne : other.id ≠ range.id := fun heq =>
        (List.nodup_cons.mp hids).1 (heq ▸ List.mem_map_of_mem hother)
      exact if_neg hne
    have hfinal : (setPurged range.id state.unpinnedList).Perm
        ({ range with purged := true } :: (before ++ after)) := by
      refine (hperm.map (Range.setPurged range.id)).trans ?_
      rw [List.map_cons, ← setPurged, hsame, Range.setPurged, if_pos rfl]
    exact ((htracks.perm hperm).purge (by simp [rangeOnLru, hon])).perm hfinal.symm
  · cases hnew
    show setPurged range.id state.unpinnedList = []
    rw [h.mapped asma state hstate hfile]
    rfl

/-- Taking no entry changes no area. -/
theorem areas_takenBy_nil (world : World) :
    world.area = fun asma => (world.area asma).map (Area.takenBy [] asma) := by
  funext asma
  cases world.area asma with
  | none => rfl
  | some state =>
    have hid : Range.takenBy [] asma = id := by
      funext range
      simp [Range.takenBy]
    simp [Area.takenBy, hid]

/-- Taking the entry of one range, then others. -/
theorem areas_purge {world : World} {asma : Nat} {state : Area} {range : Range}
    (hstate : world.area asma = some state) (taken : List (Nat × Nat)) :
    (fun other => ((world.purge asma state range).area other).map (Area.takenBy taken other)) =
      fun other => (world.area other).map
        (Area.takenBy ((asma, range.id) :: taken) other) := by
  funext other
  by_cases heq : other = asma
  · subst heq
    simp only [World.purge, World.setRanges, Function.update_self, hstate, Option.map_some,
      Area.takenBy, setPurged, List.map_map]
    congr 3
    funext found
    simp only [Function.comp, Range.setPurged, Range.takenBy, List.mem_cons, Prod.mk.injEq,
      true_and]
    by_cases hid : found.id = range.id
    · simp only [hid, if_true, true_or, ite_self]
    · simp only [hid, if_false, false_or]
  · have hsame : Range.takenBy ((asma, range.id) :: taken) other = Range.takenBy taken other := by
      funext found
      simp only [Range.takenBy, List.mem_cons, Prod.mk.injEq, heq, false_and, false_or]
    simp only [World.purge, World.setRanges, Function.update_of_ne heq]
    cases world.area other with
    | none => rfl
    | some found => simp only [Option.map_some, Area.takenBy, hsame]

/-- The loop of `ashmem_shrink` from an accounted state. -/
theorem shrink_loop_spec {world : World} (nr : Int) {entries : List (Nat × Nat)}
    (h : world.Accounted) (hentries : world.lru.list = entries) :
    ∃ final calls taken, shrinkLoop world nr entries = some (final, calls) ∧
      Shrunk world nr taken final calls := by
  induction entries generalizing world nr with
  | nil =>
    exact ⟨world, [], [], rfl, h, rfl, .inl hentries, by simp, areas_takenBy_nil world, rfl⟩
  | cons entry next ih =>
    have hmem : entry ∈ world.lru.list := hentries ▸ List.mem_cons_self
    obtain ⟨range, hrange, hid, hon⟩ := (h.exact entry).mp hmem
    obtain ⟨asma, id⟩ := entry
    obtain rfl : range.id = id := hid
    obtain ⟨state, hstate⟩ : ∃ state, world.area asma = some state := by
      cases hstate : world.area asma with
      | none => simp [World.rangesOf, hstate] at hrange
      | some state => exact ⟨state, rfl⟩
    have hranges : world.rangesOf asma = state.unpinnedList := by
      rw [World.rangesOf, hstate]
      rfl
    have hfound : world.range? (asma, range.id) = some range := by
      rw [range?_eq]
      exact find_by_id (h.distinct asma) hrange
    have hfile : state.file = true := by
      cases hfile : state.file with
      | true => rfl
      | false =>
        rw [hranges, h.mapped asma state hstate hfile] at hrange
        cases hrange
    have hpurge := h.purge hstate (hranges ▸ hrange) hon
    have hrest : (world.purge asma state range).lru.list = next := by
      show world.lru.list.erase (asma, range.id) = next
      rw [hentries, List.erase_cons_head]
    have hsize : world.entrySize (asma, range.id) = rangeSize range :=
      entrySize_of_mem (h.distinct asma) hrange
    have hareas := @areas_purge world asma state range hstate
    simp only [shrinkLoop, hstate, hfound, hfile, if_true]
    split_ifs with hdone
    · refine ⟨_, _, [(asma, range.id)], rfl, hpurge, ?_, .inr ?_, ?_, ?_, ?_⟩
      · rw [hrest, hentries]
        rfl
      · simp only [List.map_singleton, List.sum_singleton, hsize]
        omega
      · simp
        omega
      · rw [← hareas []]
        exact areas_takenBy_nil _
      · simp [hfound]
    obtain ⟨final, calls, taken, hloop, hspec⟩ :=
      ih (nr - rangeSize range) hpurge hrest
    refine ⟨final, truncateRange asma range :: calls, (asma, range.id) :: taken, ?_,
      hspec.accounted, ?_, ?_, ?_, ?_, ?_⟩
    · rw [hloop]
      rfl
    · rw [hentries, ← hrest, hspec.consumed]
      rfl
    · have henough := hspec.enough
      rw [entrySize_purge range hstate] at henough
      rw [List.map_cons, List.sum_cons, hsize]
      exact henough.imp_right (by omega)
    · intro k hpos hlt
      obtain ⟨k, rfl⟩ := Nat.exists_eq_succ_of_ne_zero hpos.ne'
      rw [List.take_succ_cons, List.map_cons, List.sum_cons, hsize]
      by_cases hzero : k = 0
      · subst hzero
        simp
        omega
      · have hneeded := hspec.needed k (by omega) (by simpa using hlt)
        rw [entrySize_purge range hstate] at hneeded
        omega
    · rw [hspec.areas, hareas taken]
    · rw [hspec.truncated, List.filterMap_cons, hfound]
      simp only [Option.map_some, truncateRange_purge range hstate]

/-! ## Runs -/

/-- The ioctl keeps the LRU in agreement with its area. -/
theorem Tracks.pinUnpin {asma base floor : Nat} {others : List (Nat × Nat)} {state : Area}
    {lru : Lru} {alloc : Bool} {cmd : PinCmd} {arg : Option PinArg}
    (h : Tracks asma others base floor state.unpinnedList lru) :
    Tracks asma others base floor (ashmemPinUnpin alloc asma cmd arg state lru).1
      (ashmemPinUnpin alloc asma cmd arg state lru).2.1 := by
  unfold ashmemPinUnpin
  split
  · exact h
  split
  · exact h
  next arg =>
    split
    · exact h
    next pgstart pgend harg =>
      cases cmd with
      | pin =>
        have hstart : Tracks asma others base floor (state.unpinnedList ++ []) lru := by
          rwa [List.append_nil]
        have hpin := @Tracks.pin asma base floor others _ _ alloc pgstart pgend [] hstart
        rwa [List.append_nil] at hpin
      | unpin => exact h.unpin
      | getPinStatus => exact h

/-- Nothing happens to a list without a backing file. -/
theorem pin_unpin_unmapped {asma : Nat} {state : Area} {lru : Lru} {alloc : Bool} {cmd : PinCmd}
    {arg : Option PinArg} (hfile : state.file = false) :
    (ashmemPinUnpin alloc asma cmd arg state lru).1 = state.unpinnedList := by
  simp [ashmemPinUnpin, hfile]

/-- The step rule: every entry into the driver keeps the LRU accounted. -/
theorem step_accounted {world next : World} {op : Op} (h : world.Accounted)
    (hstep : step world op = some next) : next.Accounted := by
  have hranges : ∀ {asma state}, world.area asma = some state →
      world.rangesOf asma = state.unpinnedList := by
    intro asma state hstate
    rw [World.rangesOf, hstate]
    rfl
  -- operations that leave the ranges and the LRU alone
  have hquiet : ∀ {asma state} (new : Area), world.area asma = some state →
      new.unpinnedList = state.unpinnedList → (new.file = false → state.file = false) →
      (world.setArea asma new).Accounted := by
    intro asma state new hstate hlist hfile
    refine h.update ?_ fun found hfound hnone => ?_
    · show Tracks _ _ _ _ new.unpinnedList _
      rw [hlist, ← hranges hstate]
      exact h.tracks asma
    · cases hfound
      rw [hlist]
      exact h.mapped asma state hstate (hfile hnone)
  cases op with
  | openArea asma =>
    simp only [step] at hstep
    split at hstep
    next hnone =>
      cases hstep
      have htracks := h.tracks asma
      rw [World.rangesOf, hnone] at htracks
      exact h.update htracks fun found hfound _ => by cases hfound; rfl
    next => cases hstep
  | mmap asma vmFlags setup =>
    simp only [step, Option.bind_eq_bind, Option.bind_eq_some_iff] at hstep
    obtain ⟨state, hstate, hnext⟩ := hstep
    cases hnext
    refine hquiet _ hstate ?_ ?_
    · unfold ashmemMmap
      split_ifs <;> rfl
    · unfold ashmemMmap
      split_ifs <;> simp
  | setSize asma size =>
    simp only [step, Option.bind_eq_bind, Option.bind_eq_some_iff] at hstep
    obtain ⟨state, hstate, hnext⟩ := hstep
    cases hnext
    refine hquiet _ hstate ?_ ?_
    · unfold setSize
      split_ifs <;> rfl
    · unfold setSize
      split_ifs <;> exact id
  | setProtMask asma prot readImpliesExec =>
    simp only [step, Option.bind_eq_bind, Option.bind_eq_some_iff] at hstep
    obtain ⟨state, hstate, hnext⟩ := hstep
    cases hnext
    refine hquiet _ hstate ?_ ?_
    · unfold setProtMask
      split_ifs <;> rfl
    · unfold setProtMask
      split_ifs <;> exact id
  | pinUnpin alloc asma cmd arg =>
    simp only [step, Option.bind_eq_bind, Option.bind_eq_some_iff] at hstep
    obtain ⟨state, hstate, hnext⟩ := hstep
    cases hnext
    have htracks := h.tracks asma
    rw [hranges hstate] at htracks
    refine h.update htracks.pinUnpin fun found hfound hfile => ?_
    cases hfound
    have hold : state.file = false := hfile
    show (ashmemPinUnpin alloc asma cmd arg state world.lru).1 = []
    rw [pin_unpin_unmapped hold]
    exact h.mapped asma state hstate hold
  | shrink nrToScan =>
    simp only [step, Option.bind_eq_bind, Option.bind_eq_some_iff] at hstep
    obtain ⟨⟨final, calls⟩, hshrink, hnext⟩ := hstep
    cases hnext
    obtain ⟨other, calls', taken, hloop, hspec⟩ := shrink_loop_spec nrToScan h rfl
    obtain ⟨rfl, -⟩ : other = final ∧ calls' = calls := by
      simpa using hloop.symm.trans hshrink
    exact hspec.accounted
  | release asma =>
    simp only [step, Option.bind_eq_bind, Option.bind_eq_some_iff] at hstep
    obtain ⟨state, hstate, hnext⟩ := hstep
    cases hnext
    have htracks := h.tracks asma
    rw [hranges hstate] at htracks
    exact h.update htracks.release (by rintro _ ⟨⟩)

theorem init_accounted : init.Accounted :=
  ⟨by simp [init, World.rangesOf], .nil, by simp [init], by simp [init, World.rangesOf],
    by simp [init, World.rangesOf], rfl, by simp [init]⟩

/-- A mapped area with its pages up to `last` unpinned. -/
def fullArea (size : UInt32) (last asma : Nat) : Area :=
  { mappedArea size with unpinnedList := [⟨asma, 0, last, false⟩] }

/-- The first `k` areas are open, of one size and completely unpinned. -/
def fullAreas (size : UInt32) (last k : Nat) : World :=
  { area := fun asma => if asma < k then some (fullArea size last asma) else none,
    lru := ⟨(List.range k).map fun asma => (asma, asma), k * (last + 1) % word, k⟩ }

/-- The size of a range that starts at page 0. -/
theorem rangeSize_from_zero (id : Nat) {pgend : Nat} (purged : Bool) (h : pgend + 1 < word) :
    rangeSize ⟨id, 0, pgend, purged⟩ = pgend + 1 := by
  simp only [rangeSize, wadd, wsub, word] at h ⊢
  omega

/-- Unpinning everything of the next area adds its entry to the LRU. -/
theorem full_areas_alloc (size : UInt32) {last : Nat} (hlast : last + 1 < word) (k : Nat) :
    rangeAlloc true k false 0 last (fullAreas size last k).lru =
      some (⟨k, 0, last, false⟩, (fullAreas size last (k + 1)).lru) := by
  have hcount : wadd (k * (last + 1) % word) (last + 1) = (k + 1) * (last + 1) % word := by
    rw [wadd, Nat.mod_add_mod, Nat.succ_mul]
  simp only [rangeAlloc, if_true, rangeOnLru, Bool.not_false, lruAdd, fullAreas,
    List.range_succ, List.map_append, List.map_singleton, rangeSize_from_zero _ _ hlast, hcount]

/-- Unpinning in an area without unpinned ranges. -/
theorem unpin_of_empty {asma start stop : Nat} {purged : Bool} {lru lru' : Lru} {range : Range}
    (halloc : rangeAlloc true asma purged start stop lru = some (range, lru')) :
    ashmemUnpin true asma start stop purged lru [] = ([range], lru', true) := by
  unfold ashmemUnpin
  split
  next before after hscan =>
    cases hscan
    rw [halloc]
    rfl
  next hscan => cases hscan
  next hscan => cases hscan

/-- The ioctl for an accepted unpin request. -/
theorem pin_unpin_unpin {alloc : Bool} {asma pgstart pgend : Nat} {arg : PinArg} {state : Area}
    (lru : Lru) (hfile : state.file = true)
    (hpages : pinPages state.size arg = .ok (pgstart, pgend)) :
    ashmemPinUnpin alloc asma .unpin (some arg) state lru =
      ((ashmemUnpin alloc asma pgstart pgend false lru state.unpinnedList).1,
        (ashmemUnpin alloc asma pgstart pgend false lru state.unpinnedList).2.1,
        if (ashmemUnpin alloc asma pgstart pgend false lru state.unpinnedList).2.2 then 0
        else -12) := by
  simp [ashmemPinUnpin, hfile, hpages]

theorem full_areas_call {size : UInt32} {last : Nat}
    (hpages : pinPages size ⟨0, 0⟩ = .ok (0, last)) (hlast : last + 1 < word) (k : Nat) :
    ashmemPinUnpin true k .unpin (some ⟨0, 0⟩) (mappedArea size) (fullAreas size last k).lru =
      ([⟨k, 0, last, false⟩], (fullAreas size last (k + 1)).lru, 0) := by
  have hunpin : ashmemUnpin true k 0 last false (fullAreas size last k).lru [] =
      ([⟨k, 0, last, false⟩], (fullAreas size last (k + 1)).lru, true) :=
    unpin_of_empty (full_areas_alloc size hlast k)
  have hsize : (mappedArea size).size = size := rfl
  have hlist : (mappedArea size).unpinnedList = [] := rfl
  rw [← hsize] at hpages
  rw [pin_unpin_unpin _ rfl hpages, hlist, hunpin, if_pos rfl]

/-- The state it leads to. -/
theorem full_areas_succ (size : UInt32) (last k : Nat) :
    ((fullAreas size last k).setArea k (mappedArea size)).setRanges k (mappedArea size)
      [⟨k, 0, last, false⟩] (fullAreas size last (k + 1)).lru = fullAreas size last (k + 1) := by
  have harea : Function.update (Function.update (fullAreas size last k).area k
      (some (mappedArea size))) k (some (fullArea size last k)) =
      (fullAreas size last (k + 1)).area := by
    funext asma
    rw [Function.update_idem]
    by_cases heq : asma = k
    · rw [heq, Function.update_self]
      exact (if_pos (Nat.lt_succ_self k)).symm
    · rw [Function.update_of_ne heq]
      simp only [fullAreas, Nat.lt_succ_iff_lt_or_eq, heq, or_false]
  exact congrArg (World.mk · _) harea

/-- Opening, sizing, mapping and unpinning one area after the other leads there. -/
theorem full_areas_reached {size : UInt32} {last : Nat} (hsize : size ≠ 0)
    (hpages : pinPages size ⟨0, 0⟩ = .ok (0, last)) (hlast : last + 1 < word) (k : Nat) :
    Reaches Step anyStep init (fullAreas size last k) := by
  induction k with
  | zero =>
    have hempty : fullAreas size last 0 = init := by
      simp [fullAreas, init]
    exact hempty ▸ .refl _
  | succ k ih =>
    have hclosed : (fullAreas size last k).area k = none := if_neg (lt_irrefl k)
    have hmapped : Reaches Step anyStep init
        ((fullAreas size last k).setArea k (mappedArea size)) :=
      ih.trans (mapped_area_reached hclosed hsize fun _ _ _ => trivial)
    have hstep : Step ((fullAreas size last k).setArea k (mappedArea size))
        (.pinUnpin true k .unpin (some ⟨0, 0⟩)) (fullAreas size last (k + 1)) := by
      have hstate : ((fullAreas size last k).setArea k (mappedArea size)).area k =
          some (mappedArea size) := Function.update_self ..
      have hlru : ((fullAreas size last k).setArea k (mappedArea size)).lru =
          (fullAreas size last k).lru := rfl
      rw [Step, step, hstate, Option.bind_eq_bind, Option.bind_some, hlru,
        full_areas_call hpages hlast]
      exact congrArg some (full_areas_succ size last k)
    exact hmapped.tail hstep trivial

/-- Every entry stands for all pages of its area. -/
theorem full_areas_sizes (size : UInt32) {last : Nat} (hlast : last + 1 < word) (k : Nat) :
    (fullAreas size last k).lru.list.map (fullAreas size last k).entrySize =
      List.replicate k (last + 1) := by
  rw [List.eq_replicate_iff]
  refine ⟨?_, fun found hfound => ?_⟩
  · simp only [fullAreas, List.length_map, List.length_range]
  obtain ⟨entry, hentry, rfl⟩ := List.mem_map.mp hfound
  obtain ⟨asma, hasma, rfl⟩ := List.mem_map.mp hentry
  have harea : (fullAreas size last k).area asma = some (fullArea size last asma) :=
    if_pos (List.mem_range.mp hasma)
  have hranges : (fullAreas size last k).rangesOf asma = [⟨asma, 0, last, false⟩] := by
    rw [World.rangesOf, harea]
    rfl
  have hdistinct : (((fullAreas size last k).rangesOf asma).map Range.id).Nodup := by
    rw [hranges]
    exact List.nodup_singleton _
  have hmem : (⟨asma, 0, last, false⟩ : Range) ∈ (fullAreas size last k).rangesOf asma := by
    rw [hranges]
    exact List.mem_singleton_self _
  exact (entrySize_of_mem hdistinct hmem).trans (rangeSize_from_zero asma false hlast)

/-- Unpinning everything onward from page 0 of an area of the largest size. -/
theorem full_area_pages : pinPages 0xFFFFF000 ⟨0, 0⟩ = .ok (0, 1048574) := by
  have hsize : (0xFFFFF000 : UInt32).toNat = 4294963200 := rfl
  have hzero : (0 : UInt32).toNat = 0 := rfl
  have halign : pageAlign 4294963200 = 4294963200 := rfl
  simp only [pinPages, hsize, hzero, halign, if_true]
  rfl

end AndroidKernel.Ashmem
