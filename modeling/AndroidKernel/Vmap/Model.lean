import AndroidKernel.Library.Bitmap
import AndroidKernel.Library.Words

/-!
# Vmap blocks

`vb_alloc` and `vb_free` on one `vmap_block`, with the regions of `lib/bitmap.c`, for any
number of processors. A `BUG_ON` that fires is `none`.
-/

namespace AndroidKernel.Vmap

open Library

/-- `BITS_PER_LONG`. -/
def bitsPerLong : Nat := 32

/-- `VMALLOC_PAGES`. -/
def vmallocPages : Nat := 128 * 1024 * 1024 / pageSize

/-- `VMAP_MAX_ALLOC`, in pages. -/
def vmapMaxAlloc : Nat := bitsPerLong

/-- What the configuration fixes: `NR_CPUS` and `VMALLOC_START`. -/
structure Config where
  nrCpus : Nat
  vmallocStart : Nat

/-- `VMAP_BBMAP_BITS`. -/
def Config.bbmapBits (cfg : Config) : Nat :=
  min 1024 (max (vmapMaxAlloc * 2) (vmallocPages / cfg.nrCpus / 16))

/-- `VMAP_BLOCK_SIZE`. -/
def Config.blockSize (cfg : Config) : Nat :=
  cfg.bbmapBits * pageSize

/-- The loop of `get_order`, with enough fuel for a word. -/
def orderLoop : Nat → Nat → Nat
  | 0, _ => 0
  | fuel + 1, size => if size / 2 = 0 then 0 else orderLoop fuel (size / 2) + 1

/-- `get_order`. -/
def getOrder (size : Nat) : Nat :=
  orderLoop 32 (wsub size 1 / 2 ^ 11)

/-! ## Regions of a bitmap -/

/-- The bits of `mask` in `__reg_op`. What is shifted out of the long is lost. -/
def regMask (pos order bit : Nat) : Bool :=
  decide (pos % bitsPerLong ≤ bit ∧ bit < pos % bitsPerLong + min (2 ^ order) bitsPerLong)

/-- `nlongs_reg` of `__reg_op`. -/
def nlongsReg (order : Nat) : Nat :=
  (2 ^ order + bitsPerLong - 1) / bitsPerLong

/-- `__reg_op` for `REG_OP_ISFREE`. -/
def regIsFree (m : Bitmap) (pos order : Nat) : Bool :=
  (List.range (nlongsReg order)).all fun i => (List.range bitsPerLong).all fun bit =>
    !(regMask pos order bit && m ((pos / bitsPerLong + i) * bitsPerLong + bit))

/-- `__reg_op` for `REG_OP_ALLOC`. -/
def regAlloc (m : Bitmap) (pos order : Nat) : Bitmap := fun b =>
  m b || (decide (pos / bitsPerLong ≤ b / bitsPerLong ∧
    b / bitsPerLong < pos / bitsPerLong + nlongsReg order) && regMask pos order (b % bitsPerLong))

/-- `bitmap_find_free_region`: the position found and the bitmap with the region set. The scan
goes through the multiples of the size at which a region ends within the bitmap. -/
def findFreeRegion (m : Bitmap) (bits order : Nat) : Option (Nat × Bitmap) :=
  let starts := (List.range (bits / 2 ^ order)).map fun k => k * 2 ^ order
  (starts.find? fun pos => regIsFree m pos order).map fun pos => (pos, regAlloc m pos order)

/-- `bitmap_allocate_region`, without the `-EBUSY`, which its caller drops. -/
def allocateRegion (m : Bitmap) (pos order : Nat) : Bitmap :=
  if regIsFree m pos order then regAlloc m pos order else m

/-! ## A block -/

/-- `struct vmap_block`: `onFree` and `onDirty` are whether it is linked by `free_list` and
`dirty_list`, `tree` is its place in `vmap_block_tree`, and `freed` is set by
`free_vmap_block`. -/
structure VmapBlock where
  vaStart : Nat
  free : Nat
  dirty : Nat
  allocMap : Bitmap
  dirtyMap : Bitmap
  onFree : Bool
  onDirty : Bool
  tree : Option Nat
  freed : Bool

variable (cfg : Config)

/-- `addr_to_vb_idx`. -/
def addrToVbIdx (addr : Nat) : Nat :=
  wsub addr (cfg.vmallocStart &&& (word - 1 - (cfg.blockSize - 1))) / cfg.blockSize

/-- `new_vmap_block`, with the area that `alloc_vmap_area` has found. -/
def newVmapBlock (vaStart : Nat) : VmapBlock where
  vaStart := vaStart
  free := cfg.bbmapBits
  dirty := 0
  allocMap _ := false
  dirtyMap _ := false
  onFree := true
  onDirty := false
  tree := some (addrToVbIdx cfg vaStart)
  freed := false

/-- `free_vmap_block`. -/
def freeVmapBlock (vb : VmapBlock) : Option VmapBlock :=
  if vb.tree = some (addrToVbIdx cfg vb.vaStart) then
    some { vb with onFree := false, onDirty := false, tree := none, freed := true }
  else none

/-- What `vb_alloc` does to one block: the address, if it finds a region here. -/
def vbAlloc (vb : VmapBlock) (size : Nat) : Option (VmapBlock × Option Nat) :=
  if size % pageSize ≠ 0 ∨ size > pageSize * vmapMaxAlloc then none
  else if vb.onFree then
    match findFreeRegion vb.allocMap cfg.bbmapBits (getOrder size) with
    | some (i, allocMap) =>
      let addr := wadd vb.vaStart (i * pageSize)
      if addrToVbIdx cfg addr ≠ addrToVbIdx cfg vb.vaStart then none
      else
        let free := wsub vb.free (2 ^ getOrder size)
        let onFree := if free = 0 then false else vb.onFree
        some ({ vb with allocMap := allocMap, free := free, onFree := onFree }, some addr)
    | none => some (vb, none)
  else some (vb, none)

/-- `vb_free` when this is the only block in the tree. -/
def vbFree (vb : VmapBlock) (addr size : Nat) : Option VmapBlock :=
  if size % pageSize ≠ 0 ∨ size > pageSize * vmapMaxAlloc then none
  else if vb.tree ≠ some (addrToVbIdx cfg addr) then none
  else
    let order := getOrder size
    let offset := addr &&& (cfg.blockSize - 1)
    let dirtyMap := allocateRegion vb.dirtyMap (offset / pageSize) order
    let onDirty := if vb.dirty = 0 then true else vb.onDirty
    let vb := { vb with dirtyMap := dirtyMap, onDirty := onDirty, dirty := wadd vb.dirty (2 ^ order) }
    if vb.dirty = cfg.bbmapBits then
      if vb.free ≠ 0 ∨ vb.onFree then none else freeVmapBlock cfg vb
    else some vb

/-! ## Runs -/

/-- A block with the ranges that its callers hold: an address and a size each. -/
structure State where
  vb : VmapBlock
  live : List (Nat × Nat)

/-- A call, with its size in pages or the range that it gives back. -/
inductive Op where
  | alloc (pages : Nat)
  | free (range : Nat × Nat)

/-- The sizes that may be asked for, and the ranges that may be given back. -/
def Op.Fits (s : State) : Op → Prop
  | .alloc pages => pages ≤ vmapMaxAlloc
  | .free range => range ∈ s.live

/-- One call. -/
def step (s : State) : Op → Option State
  | .alloc pages =>
    (vbAlloc cfg s.vb (pages * pageSize)).map fun (vb, addr) =>
      { vb, live := (addr.map fun addr => (addr, pages * pageSize)).toList ++ s.live }
  | .free range =>
    (vbFree cfg s.vb range.1 range.2).map fun vb => { vb, live := s.live.erase range }

/-- What a sequence of calls on a new block at `vaStart` can lead to. -/
inductive Reached (vaStart : Nat) : Option State → Prop
  | new : Reached vaStart (some ⟨newVmapBlock cfg vaStart, []⟩)
  | call {s : State} {op : Op} (h : Reached vaStart (some s)) (hop : op.Fits s) :
      Reached vaStart (step cfg s op)

end AndroidKernel.Vmap
