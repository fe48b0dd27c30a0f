import AndroidKernel.Ashmem.Ranges
import AndroidKernel.Library.Runs

/-!
# Runs of the ashmem driver

Two results about every run. The unpinned list of each area stays well formed and inside the
area as long as no request to unpin everything from the very end of the area is made: that
request passes the checks of `ashmem_pin_unpin` with an empty page interval, and
`ashmem_unpin` then inserts a range that ends before it starts. Independently of the ioctl,
the list calls refine set operations on pages and no purge is lost.
-/

namespace AndroidKernel.Ashmem

open Library Library.Intervals

/-- The number of pages of an area. -/
def Area.pageCount (state : Area) : Nat :=
  pageAlign state.size.toNat / pageSize

/-- Non-empty ranges inside the area, pairwise disjoint, in strictly decreasing order. -/
def Area.WellFormed (state : Area) : Prop :=
  Sorted state.unpinnedList ∧ ∀ range ∈ state.unpinnedList, range.pgend < state.pageCount

/-- Every open area has a well-formed unpinned list. -/
def World.WellFormed (world : World) : Prop :=
  ∀ asma state, world.area asma = some state → state.WellFormed

/-- The transitions of the driver. -/
def Step (world : World) (op : Op) (next : World) : Prop :=
  step world op = some next

/-- Every `range_alloc` of the operation succeeds. -/
def AllocSucceeds (_ : World) : Op → Prop
  | .pinUnpin alloc _ _ _ => alloc = true
  | _ => True

/-- The request is not an unpin of everything onward from the end of the area. -/
def NotFromEnd (world : World) : Op → Prop
  | .pinUnpin _ asma .unpin (some arg) => ∀ state, world.area asma = some state →
      ¬ (arg.len = 0 ∧ arg.offset.toNat = pageAlign state.size.toNat)
  | _ => True

/-! ## The checks of the ioctl -/

/-- What the checks of `ashmem_pin_unpin` let through: a non-empty interval of pages of the
area, or everything onward from the area's end. -/
theorem pin_pages_ok {size : UInt32} {arg : PinArg} {pgstart pgend : Nat}
    (h : pinPages size arg = .ok (pgstart, pgend)) :
    (arg.len = 0 ∧ arg.offset.toNat = pageAlign size.toNat ∧
        pgstart = pageAlign size.toNat / pageSize) ∨
      (pgstart ≤ pgend ∧ pgend < pageAlign size.toNat / pageSize) := by
  have hoffset : arg.offset.toNat < 2 ^ 32 := arg.offset.toNat_lt
  have hlen : arg.len.toNat < 2 ^ 32 := arg.len.toNat_lt
  have haligned := pageAlign_mod size.toNat
  have hsize := pageAlign_lt size.toNat
  unfold pinPages at h
  generalize pageAlign size.toNat = total at *
  by_cases hzero : arg.len = 0
  · simp only [hzero, if_true] at h
    split_ifs at h with hmod hwrap hbig
    simp only [Except.ok.injEq, Prod.mk.injEq] at h
    obtain ⟨rfl, rfl⟩ := h
    simp only [wsub, wadd, word, pageSize] at *
    by_cases heq : arg.offset.toNat = total
    · exact .inl ⟨hzero, heq, by rw [heq]⟩
    · exact .inr (by omega)
  · have hpos : arg.len.toNat ≠ 0 := fun h0 => hzero (UInt32.toNat_inj.mp (by simpa using h0))
    simp only [hzero, if_false] at h
    split_ifs at h with hmod hwrap hbig
    simp only [Except.ok.injEq, Prod.mk.injEq] at h
    obtain ⟨rfl, rfl⟩ := h
    simp only [wsub, wadd, word, pageSize] at *
    exact .inr (by omega)

/-! ## Every state of a run -/

/-- The bookkeeping invariant of one area: its list is well formed, and empty until the backing
file exists, so that the size can no longer change once ranges exist. -/
structure Area.Ok (state : Area) : Prop where
  wellFormed : state.WellFormed
  unmapped : state.file = false → state.unpinnedList = []

/-- The invariant of the driver. -/
def World.Ok (world : World) : Prop :=
  ∀ asma state, world.area asma = some state → state.Ok

/-- What holds of every area holds after one of them is replaced, or gone. -/
theorem forall_area_update {area : Nat → Option Area} {P : Area → Prop} {asma : Nat}
    {new : Option Area} (h : ∀ asma state, area asma = some state → P state)
    (hnew : ∀ state, new = some state → P state) :
    ∀ other state, Function.update area asma new other = some state → P state := by
  intro other found hfound
  by_cases heq : other = asma
  · subst heq
    rw [Function.update_self] at hfound
    exact hnew found hfound
  · rw [Function.update_of_ne heq] at hfound
    exact h other found hfound

/-- Replacing one area by a sound one keeps the invariant. -/
theorem World.Ok.update {world : World} {asma : Nat} {state : Area} {lru : Lru}
    (hworld : world.Ok) (hstate : state.Ok) :
    World.Ok { area := Function.update world.area asma (some state), lru } :=
  forall_area_update hworld fun _ heq => Option.some.inj heq ▸ hstate

/-- Unpinned pages of a bounded list are pages of the area. -/
theorem Area.WellFormed.page_lt {state : Area} (h : state.WellFormed) {page : Nat}
    (hpage : page ∈ unpinnedPages state.unpinnedList) : page < state.pageCount := by
  obtain ⟨range, hmem, -, -, hhi⟩ := mem_pages_of.mp hpage
  exact hhi.trans_lt (h.2 range hmem)

/-- A well-formed list whose pages all belong to the area stays inside the area. -/
theorem Area.WellFormed.of_pages {state : Area} (hsorted : Sorted state.unpinnedList)
    (hpages : ∀ page ∈ unpinnedPages state.unpinnedList, page < state.pageCount) :
    state.WellFormed := by
  refine ⟨hsorted, fun range hmem => hpages _ ?_⟩
  exact mem_pages_of.mpr ⟨range, hmem, rfl, hsorted.1 range hmem, le_rfl⟩

/-- An accepted pin request keeps the area well formed, the one from the area's end included:
every range lies below it. -/
theorem pin_keeps_well_formed {state : Area} {asma : Nat} {arg : PinArg} {pgstart pgend : Nat}
    {lru : Lru} (h : state.WellFormed) (harg : pinPages state.size arg = .ok (pgstart, pgend)) :
    Area.WellFormed { state with
      unpinnedList := (ashmemPin true asma pgstart pgend lru state.unpinnedList).1 } := by
  rcases pin_pages_ok harg with ⟨-, -, hend⟩ | ⟨hle, -⟩
  · rw [pin_of_below fun range hmem => hend ▸ h.2 range hmem]
    exact h
  · refine .of_pages (pin_sorted h.1 hle) fun page hpage => h.page_lt ?_
    rw [unpinnedPages, pin_pages _ h.1 hle] at hpage
    exact hpage.1

/-- An accepted unpin request that is not the one from the area's end keeps it well formed. -/
theorem unpin_keeps_well_formed {state : Area} {asma : Nat} {arg : PinArg} {pgstart pgend : Nat}
    {lru : Lru} (h : state.WellFormed) (harg : pinPages state.size arg = .ok (pgstart, pgend))
    (hend : ¬ (arg.len = 0 ∧ arg.offset.toNat = pageAlign state.size.toNat)) :
    Area.WellFormed { state with
      unpinnedList := (ashmemUnpin true asma pgstart pgend false lru state.unpinnedList).1 } := by
  obtain ⟨hle, hlt⟩ := (pin_pages_ok harg).resolve_left fun ⟨hzero, heq, _⟩ => hend ⟨hzero, heq⟩
  have hspec : Unpinned pgstart pgend false state.unpinnedList
      (ashmemUnpin true asma pgstart pgend false lru state.unpinnedList).1 :=
    unpin_spec h.1 hle (by simp)
  refine .of_pages hspec.sorted fun page hpage => ?_
  rw [hspec.pages] at hpage
  rcases hpage with hpage | hpage
  · exact h.page_lt hpage
  · exact (Set.mem_Icc.mp hpage).2.trans_lt hlt

/-- The ioctl keeps the invariant of its area. -/
theorem pin_unpin_keeps_ok {world : World} {state : Area} {asma : Nat} {cmd : PinCmd}
    {arg : Option PinArg} {lru : Lru} (h : state.Ok) (hstate : world.area asma = some state)
    (hend : NotFromEnd world (.pinUnpin true asma cmd arg)) :
    Area.Ok { state with
      unpinnedList := (ashmemPinUnpin true asma cmd arg state lru).1 } := by
  unfold ashmemPinUnpin
  split
  · exact h
  next hfile =>
    have hfile : state.file = true := by simpa using hfile
    split
    · exact h
    next arg =>
      split
      · exact h
      next pgstart pgend harg =>
        refine ⟨?_, by simp [hfile]⟩
        cases cmd with
        | pin => exact pin_keeps_well_formed h.wellFormed harg
        | unpin => exact unpin_keeps_well_formed h.wellFormed harg (hend state hstate)
        | getPinStatus => exact h.wellFormed

/-! ## The shrinker -/

@[simp] theorem set_purged_pgstart (id : Nat) (range : Range) :
    (range.setPurged id).pgstart = range.pgstart := by
  unfold Range.setPurged
  split <;> rfl

@[simp] theorem set_purged_pgend (id : Nat) (range : Range) :
    (range.setPurged id).pgend = range.pgend := by
  unfold Range.setPurged
  split <;> rfl

/-- Marking a range purged moves no boundary. -/
theorem sorted_set_purged {id : Nat} {ranges : List Range} (h : Sorted ranges) :
    Sorted (setPurged id ranges) := by
  refine ⟨?_, List.pairwise_map.mpr (h.2.imp fun hlt => by simpa using hlt)⟩
  intro range hmem
  obtain ⟨old, hold, rfl⟩ := List.mem_map.mp hmem
  simpa using h.1 old hold

/-- The pages of each area that have been truncated, after one more call. -/
def discard (truncated : Nat → Set Nat) (call : Truncation) : Nat → Set Nat :=
  Function.update truncated call.asma (truncated call.asma ∪ call.pages)

/-- What holds of a state and its truncated pages, and is kept when a range is purged and its
pages truncated, still holds after `ashmem_shrink`. -/
theorem shrink_invariant (inv : World → (Nat → Set Nat) → Prop)
    (hpurge : ∀ world truncated asma state range, inv world truncated →
      world.area asma = some state → range ∈ state.unpinnedList →
      inv (world.purge asma state range) (discard truncated (truncateRange asma range)))
    {world final : World} (truncated : Nat → Set Nat) {nr : Int} {entries : List (Nat × Nat)}
    {calls : List Truncation} (hinv : inv world truncated)
    (hshrink : shrinkLoop world nr entries = some (final, calls)) :
    inv final (calls.foldl discard truncated) := by
  induction entries generalizing world truncated nr calls with
  | nil =>
    cases hshrink
    exact hinv
  | cons entry next ih =>
    simp only [shrinkLoop] at hshrink
    split at hshrink
    next state range hstate hrange =>
      have hmem : range ∈ state.unpinnedList := by
        simp only [World.range?, hstate, Option.bind_some] at hrange
        exact List.mem_of_find?_eq_some hrange
      have hnext := hpurge world truncated entry.1 state range hinv hstate hmem
      split_ifs at hshrink with hfile hdone
      · cases hshrink
        exact hnext
      · obtain ⟨⟨world', calls'⟩, hrest, hcalls⟩ := Option.map_eq_some_iff.mp hshrink
        cases hcalls
        have hfinal := ih (discard truncated (truncateRange entry.1 range)) hnext hrest
        exact hfinal
    next => cases hshrink

/-- Purging a range keeps the invariant of the driver. -/
theorem World.Ok.purge {world : World} {asma : Nat} {state : Area} {range : Range}
    (h : world.Ok) (hstate : world.area asma = some state) :
    (world.purge asma state range).Ok := by
  have hold := h asma state hstate
  refine h.update ⟨⟨sorted_set_purged hold.wellFormed.1, ?_⟩, fun hfile => ?_⟩
  · intro marked hmem
    obtain ⟨old, hmemOld, rfl⟩ := List.mem_map.mp hmem
    show (old.setPurged range.id).pgend < state.pageCount
    simpa using hold.wellFormed.2 old hmemOld
  · simp [setPurged, hold.unmapped hfile]

/-- The step rule: every entry into the driver keeps the invariant, as long as ranges can be
allocated and nothing is unpinned from the end of the area. -/
theorem step_keeps_ok {world next : World} {op : Op} (h : world.Ok)
    (halloc : AllocSucceeds world op) (hend : NotFromEnd world op)
    (hstep : step world op = some next) : next.Ok := by
  cases op with
  | openArea asma =>
    simp only [step] at hstep
    split at hstep
    · cases hstep
      exact h.update ⟨⟨descending_nil, by simp [ashmemOpen]⟩, fun _ => rfl⟩
    · cases hstep
  | mmap asma vmFlags setup =>
    simp only [step, Option.bind_eq_bind, Option.bind_eq_some_iff] at hstep
    obtain ⟨state, hstate, hnext⟩ := hstep
    cases hnext
    have hold := h asma state hstate
    refine h.update ?_
    unfold ashmemMmap
    split_ifs
    · exact hold
    · exact hold
    · exact hold
    · exact ⟨hold.wellFormed, by simp⟩
    · exact hold
  | setSize asma size =>
    simp only [step, Option.bind_eq_bind, Option.bind_eq_some_iff] at hstep
    obtain ⟨state, hstate, hnext⟩ := hstep
    cases hnext
    have hold := h asma state hstate
    refine h.update ?_
    unfold setSize
    split_ifs with hfile
    · exact hold
    · have hempty := hold.unmapped (by simpa using hfile)
      exact ⟨⟨hempty ▸ descending_nil, by simp [hempty]⟩, fun _ => hempty⟩
  | setProtMask asma prot readImpliesExec =>
    simp only [step, Option.bind_eq_bind, Option.bind_eq_some_iff] at hstep
    obtain ⟨state, hstate, hnext⟩ := hstep
    cases hnext
    have hold := h asma state hstate
    refine h.update ?_
    unfold setProtMask
    split_ifs
    · exact hold
    · exact ⟨hold.wellFormed, hold.unmapped⟩
    · exact ⟨hold.wellFormed, hold.unmapped⟩
  | pinUnpin alloc asma cmd arg =>
    simp only [step, Option.bind_eq_bind, Option.bind_eq_some_iff] at hstep
    obtain ⟨state, hstate, hnext⟩ := hstep
    cases hnext
    have halloc : alloc = true := halloc
    subst halloc
    exact h.update (pin_unpin_keeps_ok (h asma state hstate) hstate hend)
  | shrink nrToScan =>
    simp only [step, Option.bind_eq_bind, Option.bind_eq_some_iff] at hstep
    obtain ⟨⟨final, calls⟩, hshrink, hnext⟩ := hstep
    cases hnext
    exact shrink_invariant (fun world _ => world.Ok)
      (fun _ _ _ _ _ hok hstate _ => hok.purge hstate) (fun _ => ∅) h hshrink
  | release asma =>
    simp only [step, Option.bind_eq_bind, Option.bind_eq_some_iff] at hstep
    obtain ⟨state, hstate, hnext⟩ := hstep
    cases hnext
    exact forall_area_update h fun _ heq => by cases heq

/-- In every run in which ranges can be allocated and no request unpins everything onward from
the end of an area, every unpinned list is well formed and stays inside its area. -/
theorem unpinned_lists_well_formed {world : World}
    (hrun : Reaches Step (fun world op => AllocSucceeds world op ∧ NotFromEnd world op)
      init world) : world.WellFormed := by
  have hinit : init.Ok := by
    intro asma state hstate
    cases hstate
  have hok : world.Ok :=
    hrun.invariant World.Ok
      (fun _ _ _ h hguard hstep => step_keeps_ok h hguard.1 hguard.2 hstep) hinit
  exact fun asma state hstate => (hok asma state hstate).wellFormed

/-- `ashmem_unpin` on an empty list allocates one range for the request. -/
theorem unpin_nil (asma pgstart pgend : Nat) (purged : Bool) (lru : Lru) :
    (ashmemUnpin true asma pgstart pgend purged lru []).1 =
      [⟨lru.nextRange, pgstart, pgend, purged⟩] := by
  simp [ashmemUnpin, unpinScan, rangeAlloc]

/-- A mapped area of the given size without unpinned ranges. -/
def mappedArea (size : UInt32) : Area :=
  { size, file := true, protMask := protBits, unpinnedList := [] }

/-- Opening, sizing and mapping an area leads to it, under every guard on pin requests. -/
theorem mapped_area_reached {ok : World → Op → Prop} {world : World} {asma : Nat} {size : UInt32}
    (hclosed : world.area asma = none) (hsize : size ≠ 0)
    (hok : ∀ world op, (∀ alloc asma cmd arg, op ≠ .pinUnpin alloc asma cmd arg) → ok world op) :
    Reaches Step ok world (world.setArea asma (mappedArea size)) := by
  have hopen : Step world (.openArea asma) (world.setArea asma ashmemOpen) := by
    simp [Step, step, hclosed]
  have hset : Step (world.setArea asma ashmemOpen) (.setSize asma size)
      (world.setArea asma { ashmemOpen with size }) := by
    simp [Step, step, World.setArea, setSize, ashmemOpen]
  have hmap : Step (world.setArea asma { ashmemOpen with size }) (.mmap asma 1 true)
      (world.setArea asma (mappedArea size)) := by
    simp [Step, step, World.setArea, ashmemMmap, ashmemOpen, mappedArea, protBits, hsize]
  exact (((Reaches.refl world).tail hopen (hok _ _ (by simp))).tail hset (hok _ _ (by simp))).tail
    hmap (hok _ _ (by simp))

/-- An area of one page, opened, sized and mapped. -/
def onePage : World :=
  { area := Function.update (fun _ => none) 0
      (some { size := 4096, file := true, protMask := protBits, unpinnedList := [] }),
    lru := ⟨[], 0, 0⟩ }

/-- Opening, sizing and mapping lead to that state under every guard on pin requests. -/
theorem one_page_reached {ok : World → Op → Prop}
    (hok : ∀ world op, (∀ alloc asma cmd arg, op ≠ .pinUnpin alloc asma cmd arg) → ok world op) :
    Reaches Step ok init onePage :=
  mapped_area_reached rfl (by decide) hok

/-- An accepted unpin request on the one-page area leaves one range with its page numbers. -/
theorem one_page_unpin {arg : PinArg} {pgstart pgend : Nat}
    (harg : pinPages 4096 arg = .ok (pgstart, pgend)) :
    ∃ world state, Step onePage (.pinUnpin true 0 .unpin (some arg)) world ∧
      world.area 0 = some state ∧ state.unpinnedList = [⟨0, pgstart, pgend, false⟩] := by
  refine ⟨_, _, rfl, rfl, ?_⟩
  simp only [harg]
  exact unpin_nil 0 pgstart pgend false onePage.lru

theorem unpinned_lists_well_formed_one_page :
    ∃ world state, Reaches Step (fun world op => AllocSucceeds world op ∧ NotFromEnd world op)
        init world ∧ world.area 0 = some state ∧
      state.unpinnedList = [⟨0, 0, 0, false⟩] ∧ world.WellFormed := by
  have hstart : Reaches Step (fun world op => AllocSucceeds world op ∧ NotFromEnd world op)
      init onePage :=
    one_page_reached fun world op hop => by
      cases op with
      | pinUnpin alloc asma cmd arg => exact absurd rfl (hop alloc asma cmd arg)
      | openArea | mmap | setSize | setProtMask | shrink | release => exact ⟨trivial, trivial⟩
  obtain ⟨world, state, hunpin, hstate, hlist⟩ :=
    one_page_unpin (show pinPages 4096 ⟨0, 4096⟩ = .ok (0, 0) by
      simp [pinPages, pageAlign, pageMask, wadd, wsub, word, pageSize])
  have hrun := hstart.tail hunpin ⟨rfl, fun state hstate => by
    simp only [onePage, Function.update_self, Option.some.injEq] at hstate
    subst hstate
    decide⟩
  exact ⟨world, state, hrun, hstate, hlist, unpinned_lists_well_formed hrun⟩

/-- Unpinning everything onward from the end of a one-page area is accepted and inserts the
range from page 1 to page 0. -/
theorem unpin_from_end_breaks_list :
    ¬ ∀ world, Reaches Step AllocSucceeds init world → world.WellFormed := by
  intro h
  have hstart : Reaches Step AllocSucceeds init onePage :=
    one_page_reached fun world op hop => by
      cases op with
      | pinUnpin alloc asma cmd arg => exact absurd rfl (hop alloc asma cmd arg)
      | openArea | mmap | setSize | setProtMask | shrink | release => exact trivial
  obtain ⟨world, state, hunpin, hstate, hlist⟩ :=
    one_page_unpin (show pinPages 4096 ⟨4096, 0⟩ = .ok (1, 0) by
      simp [pinPages, pageAlign, pageMask, wadd, wsub, word, pageSize])
  have hrun : Reaches Step AllocSucceeds init world := hstart.tail hunpin rfl
  have hbad := (h world hrun 0 state hstate).1.1 ⟨0, 1, 0, false⟩ (by simp [hlist])
  exact absurd hbad (by decide)

/-! ## Pages and purges over runs -/

/-- The number of pages a 32-bit size can hold. -/
def maxPages : Nat := word / pageSize

/-- A state together with the pages of each area that `ashmem_shrink` has truncated since they
were last covered by a pin. -/
structure Traced where
  world : World
  truncated : Nat → Set Nat

/-- The calls a run is made of. -/
inductive PageOp where
  | pin (asma pgstart pgend : Nat)
  | unpin (asma pgstart pgend : Nat)
  | shrink (nrToScan : Int)

/-- The request names an interval of pages of an area. -/
def PageOp.InArea (_ : Traced) : PageOp → Prop
  | .pin _ pgstart pgend | .unpin _ pgstart pgend => pgstart ≤ pgend ∧ pgend < maxPages
  | .shrink _ => True

/-- A call to `ashmem_pin`, `ashmem_unpin` or `ashmem_shrink`, with the truncated pages: a pin
settles the pages it covers, a shrink adds the pages it truncates. -/
def PageStep (s : Traced) (op : PageOp) (t : Traced) : Prop :=
  match op with
  | .pin asma pgstart pgend => ∃ state, s.world.area asma = some state ∧
      t = ⟨s.world.setRanges asma state
            (ashmemPin true asma pgstart pgend s.world.lru state.unpinnedList).1
            (ashmemPin true asma pgstart pgend s.world.lru state.unpinnedList).2.1,
          Function.update s.truncated asma (s.truncated asma \ Set.Icc pgstart pgend)⟩
  | .unpin asma pgstart pgend => ∃ state, s.world.area asma = some state ∧
      t = ⟨s.world.setRanges asma state
            (ashmemUnpin true asma pgstart pgend false s.world.lru state.unpinnedList).1
            (ashmemUnpin true asma pgstart pgend false s.world.lru state.unpinnedList).2.1,
          s.truncated⟩
  | .shrink nrToScan => ∃ world calls, ashmemShrink s.world nrToScan = some (world, calls) ∧
      t = ⟨world, calls.foldl discard s.truncated⟩

/-- Each list is well formed, within the pages a size can hold, and marks every truncated page
as purged. -/
structure Area.Marks (state : Area) (truncated : Set Nat) : Prop where
  sorted : Sorted state.unpinnedList
  bounded : ∀ range ∈ state.unpinnedList, range.pgend < maxPages
  marked : truncated ⊆ purgedPages state.unpinnedList

/-- The invariant of a traced run. -/
def Traced.Marks (world : World) (truncated : Nat → Set Nat) : Prop :=
  ∀ asma state, world.area asma = some state → state.Marks (truncated asma)

/-- Replacing the list of one area together with its truncated pages. -/
theorem Traced.Marks.update {world : World} {truncated : Nat → Set Nat} {asma : Nat}
    {state : Area} {ranges : List Range} {lru : Lru} {pages : Set Nat}
    (h : Traced.Marks world truncated)
    (hnew : Area.Marks { state with unpinnedList := ranges } pages) :
    Traced.Marks (world.setRanges asma state ranges lru)
      (Function.update truncated asma pages) := by
  intro other found hfound
  by_cases heq : other = asma
  · subst heq
    simp only [World.setRanges, Function.update_self, Option.some.injEq] at hfound
    rw [Function.update_self, ← hfound]
    exact hnew
  · simp only [World.setRanges, Function.update_of_ne heq] at hfound
    rw [Function.update_of_ne heq]
    exact h other found hfound

/-- A range with pages below `maxPages` is truncated from its first to its last page. -/
theorem truncate_range_pages {asma : Nat} {range : Range} (hlt : range.pgend < maxPages)
    (hle : range.pgstart ≤ range.pgend) :
    (truncateRange asma range).pages = Set.Icc range.pgstart range.pgend := by
  ext page
  simp only [maxPages, word, pageSize] at hlt
  simp only [truncateRange, Truncation.pages, Set.mem_ofPred_eq, Set.mem_Icc, wsub, word, pageSize]
  omega

/-- Purging a range marks the pages that are truncated with it. -/
theorem Traced.Marks.purge {world : World} {truncated : Nat → Set Nat} {asma : Nat}
    {state : Area} {range : Range} (h : Traced.Marks world truncated)
    (hstate : world.area asma = some state) (hmem : range ∈ state.unpinnedList) :
    Traced.Marks (world.purge asma state range)
      (discard truncated (truncateRange asma range)) := by
  have hold := h asma state hstate
  refine h.update ⟨sorted_set_purged hold.sorted, ?_, ?_⟩
  · intro marked hmarked
    obtain ⟨old, hmemOld, rfl⟩ := List.mem_map.mp hmarked
    simpa using hold.bounded old hmemOld
  rw [truncate_range_pages (hold.bounded range hmem) (hold.sorted.1 range hmem)]
  rintro page (hpage | hpage)
  · obtain ⟨old, hmemOld, hpurged, hin⟩ := mem_pages_of.mp (hold.marked hpage)
    refine mem_pages_of.mpr ⟨old.setPurged range.id, List.mem_map_of_mem hmemOld, ?_, by simpa⟩
    unfold Range.setPurged
    split
    · rfl
    · exact hpurged
  · refine mem_pages_of.mpr ⟨range.setPurged range.id, List.mem_map_of_mem hmem, ?_, by simpa⟩
    simp [Range.setPurged]

theorem page_step_marks {s t : Traced} {op : PageOp} (h : Traced.Marks s.world s.truncated)
    (hin : op.InArea s) (hstep : PageStep s op t) : Traced.Marks t.world t.truncated := by
  cases op with
  | pin asma pgstart pgend =>
    obtain ⟨state, hstate, rfl⟩ := hstep
    obtain ⟨hle, -⟩ := hin
    have hold := h asma state hstate
    refine h.update ⟨pin_sorted hold.sorted hle, ?_, ?_⟩
    · intro range hmem
      obtain ⟨old, hmemOld, -, hhi⟩ := pin_within hold.sorted hle hmem
      exact hhi.trans_lt (hold.bounded old hmemOld)
    · rw [purgedPages, pin_pages _ hold.sorted hle]
      exact Set.sdiff_subset_sdiff_left hold.marked
  | unpin asma pgstart pgend =>
    obtain ⟨state, hstate, rfl⟩ := hstep
    obtain ⟨hle, hlt⟩ := hin
    have hold := h asma state hstate
    have hspec : Unpinned pgstart pgend false state.unpinnedList
        (ashmemUnpin true asma pgstart pgend false s.world.lru state.unpinnedList).1 :=
      unpin_spec hold.sorted hle (by simp)
    show Traced.Marks _ s.truncated
    rw [← Function.update_eq_self asma s.truncated]
    refine h.update ⟨hspec.sorted, ?_, hold.marked.trans hspec.keeps⟩
    · intro range hmem
      have hpage : range.pgend ∈ unpinnedPages state.unpinnedList ∪ Set.Icc pgstart pgend := by
        rw [← hspec.pages]
        exact mem_pages_of.mpr ⟨range, hmem, rfl, hspec.sorted.1 range hmem, le_rfl⟩
      rcases hpage with hpage | hpage
      · obtain ⟨old, hmemOld, -, -, hhi⟩ := mem_pages_of.mp hpage
        exact hhi.trans_lt (hold.bounded old hmemOld)
      · exact (Set.mem_Icc.mp hpage).2.trans_lt hlt
  | shrink nrToScan =>
    obtain ⟨world, calls, hshrink, rfl⟩ := hstep
    exact shrink_invariant Traced.Marks (fun _ _ _ _ _ hmarks hstate hmem =>
      hmarks.purge hstate hmem) s.truncated h hshrink

/-- The ashmem list refines a set of pages and loses no purge. On a well-formed list, unpinning
is union with the request, pinning is difference, and the status query tests intersection. In
every run of the three calls, a pin that covers a page truncated since the last pin over it
reports `ASHMEM_WAS_PURGED`. -/
theorem ashmem_refines_page_set :
    (∀ (asma pgstart pgend : Nat) (lru : Lru) (ranges : List Range),
      Sorted ranges → pgstart ≤ pgend →
      unpinnedPages (ashmemUnpin true asma pgstart pgend false lru ranges).1 =
          unpinnedPages ranges ∪ Set.Icc pgstart pgend ∧
        unpinnedPages (ashmemPin true asma pgstart pgend lru ranges).1 =
          unpinnedPages ranges \ Set.Icc pgstart pgend ∧
        (ashmemGetPinStatus pgstart pgend ranges = true ↔
          (unpinnedPages ranges ∩ Set.Icc pgstart pgend).Nonempty)) ∧
      ∀ start current : Traced,
        (∀ asma state, start.world.area asma = some state →
          Sorted state.unpinnedList ∧ ∀ range ∈ state.unpinnedList, range.pgend < maxPages) →
        (∀ asma, start.truncated asma = ∅) →
        Reaches PageStep (fun s op => op.InArea s) start current →
        ∀ asma state page, current.world.area asma = some state →
          page ∈ current.truncated asma →
          ∀ pgstart pgend, pgstart ≤ page → page ≤ pgend →
            (ashmemPin true asma pgstart pgend current.world.lru state.unpinnedList).2.2 = true := by
  refine ⟨?_, ?_⟩
  · intro asma pgstart pgend lru ranges hsorted hle
    have hspec : Unpinned pgstart pgend false ranges
        (ashmemUnpin true asma pgstart pgend false lru ranges).1 :=
      unpin_spec hsorted hle (by simp)
    exact ⟨hspec.pages, pin_pages _ hsorted hle, get_pin_status_iff hsorted hle⟩
  intro start current hstart hnone hrun asma state page hstate hpage pgstart pgend hge hle
  have hinit : Traced.Marks start.world start.truncated := by
    intro asma state hstate
    refine ⟨(hstart asma state hstate).1, (hstart asma state hstate).2, ?_⟩
    rw [hnone]
    exact Set.empty_subset _
  have hmarks : Traced.Marks current.world current.truncated :=
    hrun.invariant (fun s => Traced.Marks s.world s.truncated)
      (fun _ _ _ h hin hstep => page_step_marks h hin hstep) hinit
  have hold := hmarks asma state hstate
  refine (pin_was_purged hold.sorted (hge.trans hle)).mpr ?_
  exact ⟨page, hold.marked hpage, Set.mem_Icc.mpr ⟨hge, hle⟩⟩

/-- A mapped area of four pages, all unpinned and on the LRU. -/
def fourPages : Traced :=
  { world :=
      { area := Function.update (fun _ => none) 0
          (some { size := 16384, file := true, protMask := protBits,
                  unpinnedList := [⟨0, 0, 3, false⟩] }),
        lru := ⟨[(0, 0)], 4, 1⟩ },
    truncated := fun _ => ∅ }

/-- The four pages are cut by a pin, or purged by a shrink and then reported by a pin of page 2. -/
theorem ashmem_refines_page_set_four_pages :
    unpinnedPages (ashmemPin true 0 1 2 ⟨[(0, 0)], 4, 1⟩ [⟨0, 0, 3, false⟩]).1 =
        unpinnedPages [⟨0, 0, 3, false⟩] \ Set.Icc 1 2 ∧
      ∃ current state, PageStep fourPages (.shrink 1) current ∧
        current.world.area 0 = some state ∧ 2 ∈ current.truncated 0 ∧
        (ashmemPin true 0 2 2 current.world.lru state.unpinnedList).2.2 = true := by
  have hsorted : Sorted [⟨0, 0, 3, false⟩] :=
    descending_cons.mpr ⟨by decide, by simp, descending_nil⟩
  refine ⟨(ashmem_refines_page_set.1 0 1 2 _ _ hsorted (by decide)).2.1, ?_⟩
  have hstep : PageStep fourPages (.shrink 1) _ := ⟨_, _, rfl, rfl⟩
  have hpage : (2 : Nat) ∈ discard (fun _ => ∅) (truncateRange 0 ⟨0, 0, 3, false⟩) 0 := by
    rw [discard, truncate_range_pages (by decide) (by decide)]
    simp [truncateRange]
  refine ⟨_, _, hstep, rfl, hpage, ?_⟩
  refine ashmem_refines_page_set.2 fourPages _ ?_ (fun _ => rfl)
    ((Reaches.refl fourPages).tail hstep trivial) 0 _ 2 rfl hpage 2 2 le_rfl le_rfl
  intro asma state hstate
  by_cases heq : asma = 0
  · subst heq
    simp only [fourPages, Function.update_self, Option.some.injEq] at hstate
    subst hstate
    exact ⟨hsorted, by simp [maxPages, word, pageSize]⟩
  · simp [fourPages, Function.update_of_ne heq] at hstate

/-!
## The protection mask of an area

`set_prot_mask` is meant to take bits away only. It compares the argument with the mask first
and adds `PROT_EXEC` for callers with `READ_IMPLIES_EXEC` afterwards, so that one kind of call
adds a bit. Along every run without such a call a removed bit stays removed, and every mapping
that asks for it is refused.
-/

/-- The call is accepted and gives `PROT_EXEC` back to a mask that lacks it: `PROT_READ` is in
its argument and its caller has `READ_IMPLIES_EXEC`. -/
def Widens (state : Area) (prot : BitVec 32) (readImpliesExec : Bool) : Prop :=
  state.protMask &&& prot = prot ∧ prot &&& 1 ≠ 0 ∧ readImpliesExec = true ∧
    state.protMask.getLsbD 2 = false

/-- The operation is no call on this area that widens its mask, nor the area's release. -/
def KeepsNarrow (asma : Nat) (world : World) : Op → Prop
  | .setProtMask other prot readImpliesExec => other = asma →
      ∀ state, world.area asma = some state → ¬ Widens state prot readImpliesExec
  | .release other => other ≠ asma
  | _ => True

/-- `PROT_EXEC` is bit 2. -/
theorem prot_exec_bit (bit : Nat) : (4 : BitVec 32).getLsbD bit = decide (bit = 2) := by
  by_cases hlt : bit < 32
  · have hbits : ∀ bit < 32, (4 : BitVec 32).getLsbD bit = decide (bit = 2) := by decide
    exact hbits bit hlt
  · rw [BitVec.getLsbD_of_ge _ _ (by omega)]
    exact (decide_eq_false (by omega)).symm

theorem prot_bits_bit {bit : Nat} (h : bit < 3) : protBits.getLsbD bit = true := by
  have hbits : ∀ bit < 3, protBits.getLsbD bit = true := by decide
  exact hbits bit h

/-- An argument that passes the check has only bits of the mask. -/
theorem bit_of_accepted {mask prot : BitVec 32} (h : mask &&& prot = prot) {bit : Nat}
    (hbit : prot.getLsbD bit = true) : mask.getLsbD bit = true := by
  rw [← h, BitVec.getLsbD_and, Bool.and_eq_true] at hbit
  exact hbit.1

/-- A call adds a bit to the mask exactly when it widens it. -/
theorem set_prot_mask_adds_iff (state : Area) (prot : BitVec 32) (readImpliesExec : Bool) :
    (∃ bit, state.protMask.getLsbD bit = false ∧
      (setProtMask state prot readImpliesExec).1.protMask.getLsbD bit = true) ↔
      Widens state prot readImpliesExec := by
  unfold setProtMask
  by_cases haccept : state.protMask &&& prot = prot
  · rw [if_neg (not_not.mpr haccept)]
    by_cases hexec : prot &&& 1 ≠ 0 ∧ readImpliesExec = true
    · simp only [if_pos hexec, BitVec.getLsbD_or, prot_exec_bit, Bool.or_eq_true,
        decide_eq_true_eq]
      constructor
      · rintro ⟨bit, hold, hbit | rfl⟩
        · rw [bit_of_accepted haccept hbit] at hold
          cases hold
        · exact ⟨haccept, hexec.1, hexec.2, hold⟩
      · exact fun h => ⟨2, h.2.2.2, .inr rfl⟩
    · simp only [if_neg hexec]
      constructor
      · rintro ⟨bit, hold, hbit⟩
        rw [bit_of_accepted haccept hbit] at hold
        cases hold
      · exact fun h => absurd ⟨h.2.1, h.2.2.1⟩ hexec
  · rw [if_pos haccept]
    constructor
    · rintro ⟨bit, hold, hbit⟩
      rw [hbit] at hold
      cases hold
    · exact fun h => absurd h.1 haccept

/-- A mapping that asks for a bit outside the mask is refused, as long as the size is set. -/
theorem mmap_refused {state : Area} {vmFlags : BitVec 32} {bit : Nat} (setup : Bool)
    (hprot : bit < 3) (hmask : state.protMask.getLsbD bit = false)
    (hask : vmFlags.getLsbD bit = true) :
    ashmemMmap state vmFlags setup = (state, if state.size = 0 then -22 else -1) := by
  have hrefuse : vmFlags &&& ~~~ state.protMask &&& protBits ≠ 0 := by
    intro hzero
    have hbit : (vmFlags &&& ~~~ state.protMask &&& protBits).getLsbD bit = true := by
      rw [BitVec.getLsbD_and, BitVec.getLsbD_and, BitVec.getLsbD_not, hask, hmask,
        prot_bits_bit hprot, decide_eq_true (by omega : bit < 32)]
      rfl
    rw [hzero] at hbit
    simp at hbit
  unfold ashmemMmap
  by_cases hsize : state.size = 0
  · rw [if_pos hsize, if_pos hsize]
  · rw [if_neg hsize, if_pos hrefuse, if_neg hsize]

/-- The area is open and the bit is not in its mask. -/
def LacksBit (asma bit : Nat) (world : World) : Prop :=
  ∃ state, world.area asma = some state ∧ state.protMask.getLsbD bit = false

/-- Replacing an area by one with a mask that lacks the bit if the old mask did. -/
theorem LacksBit.update {asma bit other : Nat} {world : World} {old new : Area} {lru : Lru}
    (h : LacksBit asma bit world) (hold : world.area other = some old)
    (hmask : other = asma → old.protMask.getLsbD bit = false →
      new.protMask.getLsbD bit = false) :
    LacksBit asma bit { area := Function.update world.area other (some new), lru } := by
  obtain ⟨state, hstate, hbit⟩ := h
  by_cases heq : other = asma
  · subst heq
    obtain rfl : old = state := Option.some.inj (hold.symm.trans hstate)
    exact ⟨new, Function.update_self .., hmask rfl hbit⟩
  · refine ⟨state, ?_, hbit⟩
    rw [← hstate]
    exact Function.update_of_ne (fun h => heq h.symm) ..

/-- The step rule: every entry into the driver that does not widen the mask keeps the bit out
of it. -/
theorem step_lacks_bit {asma bit : Nat} {world next : World} {op : Op}
    (h : LacksBit asma bit world) (hok : KeepsNarrow asma world op)
    (hstep : step world op = some next) : LacksBit asma bit next := by
  cases op with
  | openArea other =>
    simp only [step] at hstep
    split at hstep
    next hnone =>
      cases hstep
      obtain ⟨state, hstate, hbit⟩ := h
      have hne : asma ≠ other := by
        rintro rfl
        simp [hstate] at hnone
      exact ⟨state, (Function.update_of_ne hne ..).trans hstate, hbit⟩
    next => cases hstep
  | mmap other vmFlags setup =>
    simp only [step, Option.bind_eq_bind, Option.bind_eq_some_iff] at hstep
    obtain ⟨state, hstate, hnext⟩ := hstep
    cases hnext
    refine h.update hstate fun _ hbit => ?_
    unfold ashmemMmap
    split_ifs <;> exact hbit
  | setSize other size =>
    simp only [step, Option.bind_eq_bind, Option.bind_eq_some_iff] at hstep
    obtain ⟨state, hstate, hnext⟩ := hstep
    cases hnext
    refine h.update hstate fun _ hbit => ?_
    unfold setSize
    split_ifs <;> exact hbit
  | setProtMask other prot readImpliesExec =>
    simp only [step, Option.bind_eq_bind, Option.bind_eq_some_iff] at hstep
    obtain ⟨state, hstate, hnext⟩ := hstep
    cases hnext
    refine h.update hstate fun heq hbit => ?_
    by_contra hadded
    have hwidens : Widens state prot readImpliesExec :=
      (set_prot_mask_adds_iff state prot readImpliesExec).mp
        ⟨bit, hbit, by simpa using hadded⟩
    exact hok heq state (heq ▸ hstate) hwidens
  | pinUnpin alloc other cmd arg =>
    simp only [step, Option.bind_eq_bind, Option.bind_eq_some_iff] at hstep
    obtain ⟨state, hstate, hnext⟩ := hstep
    cases hnext
    exact h.update hstate fun _ hbit => hbit
  | shrink nrToScan =>
    simp only [step, Option.bind_eq_bind, Option.bind_eq_some_iff] at hstep
    obtain ⟨⟨final, calls⟩, hshrink, hnext⟩ := hstep
    cases hnext
    exact shrink_invariant (fun world _ => LacksBit asma bit world)
      (fun _ _ _ _ _ h hstate _ => h.update hstate fun _ hbit => hbit) (fun _ => ∅) h hshrink
  | release other =>
    simp only [step, Option.bind_eq_bind, Option.bind_eq_some_iff] at hstep
    obtain ⟨_, _, hnext⟩ := hstep
    cases hnext
    obtain ⟨state, hstate, hbit⟩ := h
    have hne : other ≠ asma := hok
    exact ⟨state, (Function.update_of_ne hne.symm ..).trans hstate, hbit⟩

/-- Once a bit has been taken out of the mask of an area it stays out, along every run of the
driver in which no call widens that mask: every later mapping that asks for it is refused with
`-EPERM`, or with `-EINVAL` when the size of the area has not been set. -/
theorem removed_protection_stays_removed {asma bit : Nat} {before after world : World}
    {old : Area} {prot : BitVec 32} {readImpliesExec : Bool} (hprot : bit < 3)
    (hold : before.area asma = some old)
    (hremoved : (setProtMask old prot readImpliesExec).1.protMask.getLsbD bit = false)
    (hstep : Step before (.setProtMask asma prot readImpliesExec) after)
    (hrun : Reaches Step (KeepsNarrow asma) after world) :
    ∃ state, world.area asma = some state ∧ state.protMask.getLsbD bit = false ∧
      ∀ (vmFlags : BitVec 32) (setup : Bool), vmFlags.getLsbD bit = true →
        ashmemMmap state vmFlags setup = (state, if state.size = 0 then -22 else -1) := by
  have hafter : LacksBit asma bit after := by
    simp only [Step, step, hold, Option.bind_eq_bind, Option.bind_some, Option.some.injEq] at hstep
    subst hstep
    exact ⟨_, Function.update_self .., hremoved⟩
  obtain ⟨state, hstate, hbit⟩ : LacksBit asma bit world :=
    hrun.invariant (LacksBit asma bit) (fun _ _ _ h hok hstep => step_lacks_bit h hok hstep) hafter
  exact ⟨state, hstate, hbit, fun vmFlags setup hask => mmap_refused setup hprot hbit hask⟩

/-- The one-page area after a caller without `READ_IMPLIES_EXEC` has set `PROT_READ`. -/
def readOnlyPage : World :=
  onePage.setArea 0 { size := 4096, file := true, protMask := 1, unpinnedList := [] }

theorem read_only_page_step : Step onePage (.setProtMask 0 1 false) readOnlyPage := by
  simp [Step, step, onePage, readOnlyPage, World.setArea, setProtMask, protBits]

/-- Mapping the read-only page for reading and execution is refused. -/
theorem removed_protection_stays_removed_exec :
    ∃ state, readOnlyPage.area 0 = some state ∧ ashmemMmap state 5 true = (state, -1) := by
  obtain ⟨state, hstate, -, hmmap⟩ :=
    @removed_protection_stays_removed 0 2 onePage readOnlyPage readOnlyPage _ 1 false
      (by decide) rfl (by decide) read_only_page_step (.refl _)
  obtain rfl := Option.some.inj hstate
  exact ⟨_, hstate, hmmap 5 true (by decide)⟩

/-- A caller with `READ_IMPLIES_EXEC` that sets `PROT_READ` on the read-only page puts the
removed `PROT_EXEC` back. -/
theorem read_implies_exec_restores_exec :
    ¬ ∀ (before after world : World) (old : Area) (prot : BitVec 32) (readImpliesExec : Bool),
      Reaches Step anyStep init before → before.area 0 = some old →
      old.protMask.getLsbD 2 = true → (setProtMask old prot readImpliesExec).2 = 0 →
      Step before (.setProtMask 0 prot readImpliesExec) after → LacksBit 0 2 after →
      Reaches Step (fun _ op => ∃ prot readImpliesExec, op = .setProtMask 0 prot readImpliesExec)
        after world →
      LacksBit 0 2 world := by
  intro h
  have hrestore : Step readOnlyPage (.setProtMask 0 1 true)
      (readOnlyPage.setArea 0
        { size := 4096, file := true, protMask := 5, unpinnedList := [] }) := by
    simp [Step, step, readOnlyPage, World.setArea, setProtMask]
  obtain ⟨state, hstate, hbit⟩ :=
    h onePage readOnlyPage _ _ 1 false (one_page_reached fun _ _ _ => trivial) rfl (by decide)
      (by decide) read_only_page_step ⟨_, rfl, by decide⟩
      ((Reaches.refl readOnlyPage).tail hrestore ⟨1, true, rfl⟩)
  obtain rfl := Option.some.inj hstate
  exact absurd hbit (by decide)

end AndroidKernel.Ashmem
