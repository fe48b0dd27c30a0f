import AndroidKernel.Library.Words

/-!
# The buddy allocator of the physical memory driver

`drivers/misc/pmem.c`: one `pmem_bits` entry stands for each page of a region. The entry at the
start of a block holds the block's order and whether it is allocated; the entries inside a block
keep whatever they last held. Region numbers are left out, a region being the argument.

An access to the bitmap outside the region has no result. Indices and shifted ones are below
2^20 and need no wrapping.
-/

namespace AndroidKernel.Pmem

open Library

/-- `struct pmem_bits`: one bit and seven bits. -/
structure PmemBits where
  allocated : Bool
  order : Nat
  deriving DecidableEq

/-- The fields of `struct pmem_info` the allocator works on. -/
structure PmemInfo where
  size : Nat
  numEntries : Nat
  bitmap : Nat → PmemBits
  noAllocator : Bool
  allocated : Bool

/-- `PMEM_MIN_ALLOC`. -/
def pmemMinAlloc : Nat := pageSize

/-- `PMEM_MAX_ORDER`. -/
def pmemMaxOrder : Nat := 128

/-- `PMEM_IS_FREE`, at an index of the bitmap. -/
def PmemInfo.isFree (pmem : PmemInfo) (index : Nat) : Bool := !(pmem.bitmap index).allocated

/-- `PMEM_ORDER`, at an index of the bitmap. -/
def PmemInfo.order (pmem : PmemInfo) (index : Nat) : Nat := (pmem.bitmap index).order

/-- `PMEM_LEN`. -/
def PmemInfo.len (pmem : PmemInfo) (index : Nat) : Nat := 2 ^ pmem.order index * pmemMinAlloc

/-- Read an entry of the bitmap. -/
def PmemInfo.bits (pmem : PmemInfo) (index : Nat) : Option PmemBits :=
  if index < pmem.numEntries then some (pmem.bitmap index) else none

/-- Assign to the `order` field of an entry. -/
def PmemInfo.setOrder (pmem : PmemInfo) (index order : Nat) : Option PmemInfo :=
  if index < pmem.numEntries then
    some { pmem with
      bitmap := Function.update pmem.bitmap index
        { pmem.bitmap index with order := order % 2 ^ 7 } }
  else none

/-- Assign to the `allocated` field of an entry. -/
def PmemInfo.setAllocated (pmem : PmemInfo) (index : Nat) (allocated : Bool) : Option PmemInfo :=
  if index < pmem.numEntries then
    some { pmem with
      bitmap := Function.update pmem.bitmap index
        { pmem.bitmap index with allocated := allocated } }
  else none

/-- The loop of `pmem_setup`: the set bits of the number of entries, from the highest on, are
the orders of the first blocks. -/
def setupLoop (numEntries : Nat) : Nat → Nat → (Nat → PmemBits) → Nat → PmemBits
  | 0, _, bitmap => bitmap
  | i + 1, index, bitmap =>
    if numEntries.testBit i then
      setupLoop numEntries i (index + 2 ^ i)
        (Function.update bitmap index { bitmap index with order := i % 2 ^ 7 })
    else setupLoop numEntries i index bitmap

/-- `pmem_setup`: the region of this size, its bitmap cleared and laid out. -/
def pmemSetup (size : Nat) (noAllocator : Bool) : PmemInfo where
  size := size
  numEntries := size / pmemMinAlloc
  bitmap := setupLoop (size / pmemMinAlloc) 32 0 fun _ => { allocated := false, order := 0 }
  noAllocator := noAllocator
  allocated := false

/-- The pages of a request, less one, as `pmem_order` computes them. -/
def pmemPages (len : Nat) : Nat :=
  wsub (wadd len (pmemMinAlloc - 1) / pmemMinAlloc) 1

/-- `pmem_order`. -/
def pmemOrder (len : Nat) : Nat :=
  ((List.range 32).find? fun i => pmemPages len >>> i == 0).getD 32

/-- The update of `best_fit` at a block that is not of the exact order: the smallest larger free
block met so far. -/
def betterFit (pmem : PmemInfo) (order curr : Nat) (bits : PmemBits) :
    Option Nat → Option (Option Nat)
  | none => if !bits.allocated && bits.order > order then some (some curr) else some none
  | some best =>
    if !bits.allocated && bits.order > order then do
      let bestBits ← pmem.bits best
      return if bits.order < bestBits.order then some curr else some best
    else some (some best)

/-- The search of `pmem_allocate`: the first free block of this order, else the best fit. Each
pass moves `curr` forward, so the number of entries bounds the passes. -/
def searchLoop (pmem : PmemInfo) (order : Nat) : Nat → Nat → Option Nat → Option (Option Nat)
  | 0, _, _ => none
  | fuel + 1, curr, bestFit =>
    if curr < pmem.numEntries then do
      let bits ← pmem.bits curr
      if !bits.allocated && bits.order == order then
        return some curr
      else
        let bestFit ← betterFit pmem order curr bits bestFit
        searchLoop pmem order fuel (curr + 2 ^ bits.order) bestFit
    else some bestFit

/-- The partition of `pmem_allocate`: halve the block until it has the order asked for. -/
def splitLoop (order bestFit : Nat) : Nat → PmemInfo → Option PmemInfo
  | 0, _ => none
  | fuel + 1, pmem => do
    let bits ← pmem.bits bestFit
    if bits.order > order then
      let pmem ← pmem.setOrder bestFit (bits.order - 1)
      let bits ← pmem.bits bestFit
      let buddy := bestFit ^^^ 2 ^ bits.order
      let pmem ← pmem.setOrder buddy bits.order
      splitLoop order bestFit fuel pmem
    else
      return pmem

/-- `pmem_allocate`: the index of the block, or none for the -1 of a request that fails. -/
def pmemAllocate (pmem : PmemInfo) (len : Nat) : Option (PmemInfo × Option Nat) :=
  let order := pmemOrder len
  if pmem.noAllocator then
    if len > pmem.size || pmem.allocated then
      some (pmem, none)
    else
      some ({ pmem with allocated := true }, some len)
  else if order > pmemMaxOrder then
    some (pmem, none)
  else do
    -- the comparisons read the order as an unsigned char
    let bestFit ← searchLoop pmem (order % 2 ^ 8) (pmem.numEntries + 1) 0 none
    match bestFit with
    | none => return (pmem, none)
    | some bestFit =>
      let pmem ← splitLoop (order % 2 ^ 8) bestFit (2 ^ 7) pmem
      let pmem ← pmem.setAllocated bestFit true
      return (pmem, some bestFit)

/-- The merge loop of `pmem_free`. -/
def freeLoop : Nat → Nat → PmemInfo → Option PmemInfo
  | 0, _, _ => none
  | fuel + 1, curr, pmem => do
    let bits ← pmem.bits curr
    let buddy := curr ^^^ 2 ^ bits.order
    let buddyBits ← pmem.bits buddy
    if !buddyBits.allocated && buddyBits.order == bits.order then
      let pmem ← pmem.setOrder buddy (buddyBits.order + 1)
      let bits ← pmem.bits curr
      let pmem ← pmem.setOrder curr (bits.order + 1)
      let curr := min buddy curr
      if curr < pmem.numEntries then
        freeLoop fuel curr pmem
      else
        return pmem
    else
      return pmem

/-- `pmem_free`. An order has seven bits, which bounds the merges. -/
def pmemFree (pmem : PmemInfo) (index : Nat) : Option PmemInfo :=
  if pmem.noAllocator then
    some { pmem with allocated := false }
  else do
    let pmem ← pmem.setAllocated index false
    freeLoop (2 ^ 7) index pmem

/-- The blocks met by following `PMEM_NEXT_INDEX` from an index. -/
def blocksFrom (pmem : PmemInfo) : Nat → Nat → List Nat
  | 0, _ => []
  | fuel + 1, curr =>
    if curr < pmem.numEntries then
      curr :: blocksFrom pmem fuel (curr + 2 ^ pmem.order curr)
    else []

/-- The blocks of a region. -/
def PmemInfo.blocks (pmem : PmemInfo) : List Nat := blocksFrom pmem pmem.numEntries 0

end AndroidKernel.Pmem
