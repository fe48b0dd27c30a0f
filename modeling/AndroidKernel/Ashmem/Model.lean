import AndroidKernel.Library.Words

/-!
# The anonymous shared memory driver

A model of `mm/ashmem.c`. Each area keeps a list of unpinned page ranges; ranges that have
not been purged also sit on one LRU list shared by all areas, which the shrinker consumes from
its head. `ashmemPin` and `ashmemUnpin` walk an area's list as the source does, and
`ashmemPinUnpin` is the ioctl that validates a request and dispatches to them.

Allocation by `kmem_cache_zalloc`, the user copy and the creation of the backing file are
outside this file; their outcomes are arguments. A list node is identified by a number that is
never reused, and a link to a node that has been freed has no successor state.
-/

namespace AndroidKernel.Ashmem

open Library

/-- `struct ashmem_range`: pages `pgstart` to `pgend`, both inclusive. The field `id` is the
address of the structure; `purged` is `ASHMEM_WAS_PURGED` when true. -/
structure Range where
  id : Nat
  pgstart : Nat
  pgend : Nat
  purged : Bool
  deriving DecidableEq, Repr

/-- The LRU list of unpurged ranges of all areas, oldest first, each with its area; the count
of pages on it; and the address of the next range structure to be allocated. -/
structure Lru where
  list : List (Nat × Nat)
  count : Nat
  nextRange : Nat
  deriving DecidableEq, Repr

/-- `range_size(range)`, computed in `size_t`. -/
def rangeSize (range : Range) : Nat :=
  wadd (wsub range.pgend range.pgstart) 1

/-- `range_on_lru(range)`. -/
def rangeOnLru (range : Range) : Bool :=
  !range.purged

/-- `page_range_subsumes_range(range, start, end)`. -/
def pageRangeSubsumesRange (range : Range) (start stop : Nat) : Bool :=
  decide (range.pgstart ≥ start) && decide (range.pgend ≤ stop)

/-- `page_range_subsumed_by_range(range, start, end)`. -/
def pageRangeSubsumedByRange (range : Range) (start stop : Nat) : Bool :=
  decide (range.pgstart ≤ start) && decide (range.pgend ≥ stop)

/-- `page_in_range(range, page)`. -/
def pageInRange (range : Range) (page : Nat) : Bool :=
  decide (range.pgstart ≤ page) && decide (range.pgend ≥ page)

/-- `page_range_in_range(range, start, end)`. -/
def pageRangeInRange (range : Range) (start stop : Nat) : Bool :=
  pageInRange range start || pageInRange range stop || pageRangeSubsumesRange range start stop

/-- `range_before_page(range, page)`. -/
def rangeBeforePage (range : Range) (page : Nat) : Bool :=
  decide (range.pgend < page)

/-- `lru_add`. -/
def lruAdd (asma : Nat) (range : Range) (lru : Lru) : Lru :=
  { lru with list := lru.list ++ [(asma, range.id)], count := wadd lru.count (rangeSize range) }

/-- `lru_del`. -/
def lruDel (asma : Nat) (range : Range) (lru : Lru) : Lru :=
  { lru with list := lru.list.erase (asma, range.id), count := wsub lru.count (rangeSize range) }

/-- `range_alloc` up to its list insertion: the new range and the LRU with it, or `none` when
`kmem_cache_zalloc` fails. The caller links the range before `prev_range`. -/
def rangeAlloc (alloc : Bool) (asma : Nat) (purged : Bool) (start stop : Nat) (lru : Lru) :
    Option (Range × Lru) :=
  if alloc then
    let range : Range := ⟨lru.nextRange, start, stop, purged⟩
    let lru := { lru with nextRange := lru.nextRange + 1 }
    some (range, if rangeOnLru range then lruAdd asma range lru else lru)
  else none

/-- `range_del` as far as the LRU sees it; the caller unlinks the range from its area. -/
def rangeDel (asma : Nat) (range : Range) (lru : Lru) : Lru :=
  if rangeOnLru range then lruDel asma range lru else lru

/-- `range_shrink`: the resized range and the LRU count adjusted by the difference. -/
def rangeShrink (range : Range) (start stop : Nat) (lru : Lru) : Range × Lru :=
  let shrunk := { range with pgstart := start, pgend := stop }
  (shrunk,
    if rangeOnLru range then
      { lru with count := wsub lru.count (wsub (rangeSize range) (rangeSize shrunk)) }
    else lru)

/-- `ashmem_pin`: the walk over the unpinned list. Returns the new list, the LRU and whether
the result is `ASHMEM_WAS_PURGED`. -/
def ashmemPin (alloc : Bool) (asma pgstart pgend : Nat) :
    Lru → List Range → List Range × Lru × Bool
  | lru, [] => ([], lru, false)
  | lru, range :: next =>
    -- moved past last applicable page; we can short circuit
    if rangeBeforePage range pgstart then (range :: next, lru, false)
    else if pageRangeInRange range pgstart pgend then
      -- case 1: the request subsumes the range
      if pageRangeSubsumesRange range pgstart pgend then
        let (rest, lru, ret) := ashmemPin alloc asma pgstart pgend (rangeDel asma range lru) next
        (rest, lru, ret || range.purged)
      -- case 2: the request overlaps the start, so `pgend < range.pgend`
      else if range.pgstart ≥ pgstart then
        let (range', lru) := rangeShrink range (pgend + 1) range.pgend lru
        let (rest, lru, ret) := ashmemPin alloc asma pgstart pgend lru next
        (range' :: rest, lru, ret || range.purged)
      -- case 3: the request overlaps the rear; `range.pgstart < pgstart` here and below
      else if range.pgend ≤ pgend then
        let (range', lru) := rangeShrink range range.pgstart (pgstart - 1) lru
        let (rest, lru, ret) := ashmemPin alloc asma pgstart pgend lru next
        (range' :: rest, lru, ret || range.purged)
      -- case 4: a hole; the result of `range_alloc` is not looked at
      else
        match rangeAlloc alloc asma range.purged (pgend + 1) range.pgend lru with
        | some (upper, lru) =>
          let (range', lru) := rangeShrink range range.pgstart (pgstart - 1) lru
          (upper :: range' :: next, lru, range.purged)
        | none =>
          let (range', lru) := rangeShrink range range.pgstart (pgstart - 1) lru
          (range' :: next, lru, range.purged)
    else
      let (rest, lru, ret) := ashmemPin alloc asma pgstart pgend lru next
      (range :: rest, lru, ret)

/-- How one pass of the loop in `ashmem_unpin` over the list ends: at the insertion point, at a
range that already holds all of the request, or at a range that overlaps it. -/
inductive UnpinScan where
  | insertion (before after : List Range)
  | subsumed
  | overlap (before : List Range) (range : Range) (after : List Range)

/-- The pass has walked over `range` before it ended. -/
def UnpinScan.walked (range : Range) : UnpinScan → UnpinScan
  | .insertion before after => .insertion (range :: before) after
  | .subsumed => .subsumed
  | .overlap before found after => .overlap (range :: before) found after

/-- One pass of the loop in `ashmem_unpin`, from `restart:` to its exit or the next restart. -/
def unpinScan (pgstart pgend : Nat) : List Range → UnpinScan
  | [] => .insertion [] []
  | range :: next =>
    -- short circuit: this is our insertion point
    if rangeBeforePage range pgstart then .insertion [] (range :: next)
    else if pageRangeSubsumedByRange range pgstart pgend then .subsumed
    else if pageRangeInRange range pgstart pgend then .overlap [] range next
    else (unpinScan pgstart pgend next).walked range

/-- The list a pass was started on, cut where the pass stopped. -/
theorem unpin_scan_overlap {pgstart pgend : Nat} {ranges before after : List Range}
    {range : Range} (h : unpinScan pgstart pgend ranges = .overlap before range after) :
    ranges = before ++ range :: after := by
  induction ranges generalizing before with
  | nil => simp [unpinScan] at h
  | cons first rest ih =>
    unfold unpinScan at h
    split_ifs at h
    · cases h
      rfl
    · cases hrest : unpinScan pgstart pgend rest with
      | insertion | subsumed => simp [hrest, UnpinScan.walked] at h
      | overlap inner found tail =>
        simp only [hrest, UnpinScan.walked, UnpinScan.overlap.injEq] at h
        obtain ⟨rfl, rfl, rfl⟩ := h
        rw [ih hrest]
        rfl

/-- `ashmem_unpin`: the new list, the LRU and whether it returned zero. An overlapping range is
deleted and the pass restarted with the union, so the list gets shorter at every restart. -/
def ashmemUnpin (alloc : Bool) (asma pgstart pgend : Nat) (purged : Bool) (lru : Lru)
    (ranges : List Range) : List Range × Lru × Bool :=
  match _h : unpinScan pgstart pgend ranges with
  | .insertion before after =>
    match rangeAlloc alloc asma purged pgstart pgend lru with
    | some (range, lru) => (before ++ range :: after, lru, true)
    | none => (ranges, lru, false)
  | .subsumed => (ranges, lru, true)
  | .overlap before range after =>
    ashmemUnpin alloc asma (min range.pgstart pgstart) (max range.pgend pgend)
      (purged || range.purged) (rangeDel asma range lru) (before ++ after)
termination_by ranges.length
decreasing_by
  rw [unpin_scan_overlap _h]
  simp

/-- `ashmem_get_pin_status`: true for `ASHMEM_IS_UNPINNED`. -/
def ashmemGetPinStatus (pgstart pgend : Nat) : List Range → Bool
  | [] => false
  | range :: next =>
    if rangeBeforePage range pgstart then false
    else if pageRangeInRange range pgstart pgend then true
    else ashmemGetPinStatus pgstart pgend next

/-- `struct ashmem_area`: the size set by `ASHMEM_SET_SIZE`, whether the backing file exists,
the allowed protection bits and the unpinned ranges. -/
structure Area where
  size : UInt32
  file : Bool
  protMask : BitVec 32
  unpinnedList : List Range
  deriving DecidableEq, Repr

/-- The driver's state: the open areas and the shared LRU. -/
structure World where
  area : Nat → Option Area
  lru : Lru

/-- Replace the unpinned list of one open area and the LRU. -/
def World.setRanges (world : World) (asma : Nat) (state : Area) (ranges : List Range) (lru : Lru) :
    World :=
  { area := Function.update world.area asma (some { state with unpinnedList := ranges }), lru }

/-- The range an LRU entry points to. -/
def World.range? (world : World) (entry : Nat × Nat) : Option Range :=
  (world.area entry.1).bind fun state => state.unpinnedList.find? fun range => range.id = entry.2

/-- `range->purged = ASHMEM_WAS_PURGED` for the range at address `id`. -/
def Range.setPurged (id : Nat) (range : Range) : Range :=
  if range.id = id then { range with purged := true } else range

/-- The effect of that assignment on the list the range is on. -/
def setPurged (id : Nat) (ranges : List Range) : List Range :=
  ranges.map (Range.setPurged id)

/-- A call `vmtruncate_range(inode, start, end)` on the backing file of an area, in bytes. -/
structure Truncation where
  asma : Nat
  start : Nat
  stop : Nat
  deriving DecidableEq, Repr

/-- The pages a truncation discards. -/
def Truncation.pages (call : Truncation) : Set Nat :=
  {page | call.start ≤ page * pageSize ∧ page * pageSize ≤ call.stop}

/-- The call that discards the pages of a range; the byte offsets are computed in `size_t`. -/
def truncateRange (asma : Nat) (range : Range) : Truncation :=
  ⟨asma, range.pgstart * pageSize % word, wsub ((range.pgend + 1) * pageSize) 1⟩

/-- The state after one range has been marked purged and taken off the LRU. -/
def World.purge (world : World) (asma : Nat) (state : Area) (range : Range) : World :=
  world.setRanges asma state (setPurged range.id state.unpinnedList) (lruDel asma range world.lru)

/-- The loop of `ashmem_shrink` over the LRU entries that are left; `nr` is `nr_to_scan`. It
returns the state and the truncations made. A dangling entry or an area without a backing file
has no successor. -/
def shrinkLoop : World → Int → List (Nat × Nat) → Option (World × List Truncation)
  | world, _, [] => some (world, [])
  | world, nr, entry :: next =>
    match world.area entry.1, world.range? entry with
    | some state, some range =>
      if state.file then
        let call := truncateRange entry.1 range
        let world := world.purge entry.1 state range
        let nr := nr - rangeSize range
        if nr ≤ 0 then some (world, [call])
        else (shrinkLoop world nr next).map fun (world, calls) => (world, call :: calls)
      else none
    | _, _ => none

/-- `ashmem_shrink(nr_to_scan, gfp_mask)` past its two early returns. -/
def ashmemShrink (world : World) (nrToScan : Int) : Option (World × List Truncation) :=
  shrinkLoop world nrToScan world.lru.list

/-- The three commands that `ashmem_pin_unpin` serves. -/
inductive PinCmd where
  | pin
  | unpin
  | getPinStatus
  deriving DecidableEq, Repr

/-- `struct ashmem_pin`, two `__u32`. -/
structure PinArg where
  offset : UInt32
  len : UInt32
  deriving DecidableEq, Repr

/-- The page interval of a validated request, or the error the checks return. Zero for `len`
means everything onward. -/
def pinPages (size : UInt32) (arg : PinArg) : Except Int (Nat × Nat) :=
  let offset := arg.offset.toNat
  let len := if arg.len = 0 then wsub (pageAlign size.toNat) offset else arg.len.toNat
  if offset % pageSize ≠ 0 ∨ len % pageSize ≠ 0 then .error (-22)
  else if wsub (word - 1) offset < len then .error (-22)
  else if pageAlign size.toNat < wadd offset len then .error (-22)
  else
    let pgstart := offset / pageSize
    .ok (pgstart, wsub (wadd pgstart (len / pageSize)) 1)

/-- `ashmem_pin_unpin`: validate the request and dispatch. A faulting user copy is `none` for
`arg`; the result is the value the ioctl returns. -/
def ashmemPinUnpin (alloc : Bool) (asma : Nat) (cmd : PinCmd) (arg : Option PinArg)
    (state : Area) (lru : Lru) : List Range × Lru × Int :=
  if !state.file then (state.unpinnedList, lru, -22)
  else match arg with
    | none => (state.unpinnedList, lru, -14)
    | some arg =>
      match pinPages state.size arg with
      | .error code => (state.unpinnedList, lru, code)
      | .ok (pgstart, pgend) =>
        match cmd with
        | .pin =>
          let (ranges, lru, ret) := ashmemPin alloc asma pgstart pgend lru state.unpinnedList
          (ranges, lru, if ret then 1 else 0)
        | .unpin =>
          let (ranges, lru, ok) :=
            ashmemUnpin alloc asma pgstart pgend false lru state.unpinnedList
          (ranges, lru, if ok then 0 else -12)
        | .getPinStatus =>
          let unpinned := ashmemGetPinStatus pgstart pgend state.unpinnedList
          (state.unpinnedList, lru, if unpinned then 0 else 1)

/-- `PROT_MASK`: `PROT_EXEC | PROT_READ | PROT_WRITE`. -/
def protBits : BitVec 32 := 7

/-- `ashmem_open`, given that the area structure was allocated. -/
def ashmemOpen : Area :=
  { size := 0, file := false, protMask := protBits, unpinnedList := [] }

/-- `ashmem_mmap` for a mapping with flags `vmFlags`; `setup` is whether `shmem_file_setup`
succeeds, should it be called. -/
def ashmemMmap (state : Area) (vmFlags : BitVec 32) (setup : Bool) : Area × Int :=
  if state.size = 0 then (state, -22)
  else if vmFlags &&& ~~~ state.protMask &&& protBits ≠ 0 then (state, -1)
  else if state.file then (state, 0)
  else if setup then ({ state with file := true }, 0)
  else (state, -12)

/-- `set_prot_mask`; `readImpliesExec` is the caller's personality bit. -/
def setProtMask (state : Area) (prot : BitVec 32) (readImpliesExec : Bool) : Area × Int :=
  if state.protMask &&& prot ≠ prot then (state, -22)
  else
    let prot := if prot &&& 1 ≠ 0 ∧ readImpliesExec then prot ||| 4 else prot
    ({ state with protMask := prot }, 0)

/-- The `ASHMEM_SET_SIZE` branch of `ashmem_ioctl`. -/
def setSize (state : Area) (size : UInt32) : Area × Int :=
  if state.file then (state, -22) else ({ state with size }, 0)

/-- `ashmem_release` as far as the LRU sees it: `range_del` on every range of the area. -/
def ashmemRelease (asma : Nat) (state : Area) (lru : Lru) : Lru :=
  state.unpinnedList.foldl (fun lru range => rangeDel asma range lru) lru

/-- The entry points of the driver. -/
inductive Op where
  | openArea (asma : Nat)
  | mmap (asma : Nat) (vmFlags : BitVec 32) (setup : Bool)
  | setSize (asma : Nat) (size : UInt32)
  | setProtMask (asma : Nat) (prot : BitVec 32) (readImpliesExec : Bool)
  | pinUnpin (alloc : Bool) (asma : Nat) (cmd : PinCmd) (arg : Option PinArg)
  | shrink (nrToScan : Int)
  | release (asma : Nat)

/-- Replace one area by the result of an operation that leaves the LRU alone. -/
def World.setArea (world : World) (asma : Nat) (state : Area) : World :=
  { world with area := Function.update world.area asma (some state) }

/-- One entry into the driver under `ashmem_mutex`. -/
def step (world : World) : Op → Option World
  | .openArea asma =>
    match world.area asma with
    | none => some (world.setArea asma ashmemOpen)
    | some _ => none
  | .mmap asma vmFlags setup => do
    let state ← world.area asma
    some (world.setArea asma (ashmemMmap state vmFlags setup).1)
  | .setSize asma size => do
    let state ← world.area asma
    some (world.setArea asma (setSize state size).1)
  | .setProtMask asma prot readImpliesExec => do
    let state ← world.area asma
    some (world.setArea asma (setProtMask state prot readImpliesExec).1)
  | .pinUnpin alloc asma cmd arg => do
    let state ← world.area asma
    let (ranges, lru, _) := ashmemPinUnpin alloc asma cmd arg state world.lru
    some (world.setRanges asma state ranges lru)
  | .shrink nrToScan => do
    let (world, _) ← ashmemShrink world nrToScan
    some world
  | .release asma => do
    let state ← world.area asma
    some { area := Function.update world.area asma none,
           lru := ashmemRelease asma state world.lru }

/-- The state after `ashmem_init`: no area, nothing on the LRU. -/
def init : World :=
  { area := fun _ => none, lru := ⟨[], 0, 0⟩ }

end AndroidKernel.Ashmem
