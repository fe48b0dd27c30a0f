import AndroidKernel.Library.Runs
import AndroidKernel.Library.Words
import Mathlib.Data.Finset.Card

/-!
# Swap slots

A model of `scan_swap_map`, `swap_entry_free` and `swap_duplicate` of `mm/swapfile.c` and of the
part of `sys_swapon` that fills in the area, for areas without `SWP_DISCARDABLE`: their
`lowest_alloc` is always 0. The calls run one after another. What chooses between areas and counts
their pages together, and the rescheduling during a scan, are left out.
-/

namespace AndroidKernel.Swap

open Library

/-- `SWAP_MAP_MAX`. -/
def swapMapMax : Nat := 0x7fff

/-- `SWAP_MAP_BAD`. -/
def swapMapBad : Nat := 0x8000

/-- `SWAPFILE_CLUSTER`. -/
def swapfileCluster : Nat := 256

/-- `struct swap_info_struct`, as far as slots are concerned. -/
structure SwapInfo where
  writeok : Bool
  solidstate : Bool
  swapMap : Nat → Nat
  lowestBit : Nat
  highestBit : Nat
  clusterNext : Nat
  clusterNr : Nat
  pages : Nat
  max : Nat
  inusePages : Nat

/-! ## `scan_swap_map` -/

/-- A loop for the first empty cluster. It goes on while `lastInCluster < bound`. -/
def findCluster (swapMap : Nat → Nat) (bound offset lastInCluster : Nat)
    (h : offset ≤ lastInCluster) : Option Nat :=
  if hbound : lastInCluster < bound then
    if swapMap offset ≠ 0 then
      findCluster swapMap bound (offset + 1) (offset + swapfileCluster) (by
        unfold swapfileCluster
        omega)
    else if hlast : offset = lastInCluster then some (offset - (swapfileCluster - 1))
    else findCluster swapMap bound (offset + 1) lastInCluster (by omega)
  else none
  termination_by bound - offset

/-- The first free slot from `offset` on and below `bound`. -/
def findFree (swapMap : Nat → Nat) (bound offset : Nat) : Option Nat :=
  if offset < bound then
    if swapMap offset = 0 then some offset else findFree swapMap bound (offset + 1)
  else none
  termination_by bound - offset

/-- Where the scan stands. -/
structure Scan where
  si : SwapInfo
  offset : Nat
  scanBase : Nat

/-- A loop for an empty cluster that starts at `offset`. -/
def findClusterFrom (si : SwapInfo) (bound offset : Nat) : Option Nat :=
  findCluster si.swapMap bound offset (offset + swapfileCluster - 1) (by
    unfold swapfileCluster
    omega)

/-- If seek is expensive, the search for a new cluster starts from the start of the area. -/
def clusterBase (si : SwapInfo) : Nat :=
  if si.solidstate then si.clusterNext else si.lowestBit

/-- The two loops for an empty cluster. -/
def searchCluster (si : SwapInfo) : Option Nat :=
  (findClusterFrom si (si.highestBit + 1) (clusterBase si)).or
    (findClusterFrom si (clusterBase si) si.lowestBit)

/-- The search for a new cluster. -/
def newCluster (si : SwapInfo) : Scan :=
  match searchCluster si with
  | some offset =>
    ⟨{ si with clusterNext := offset, clusterNr := swapfileCluster - 1 }, offset, clusterBase si⟩
  | none => ⟨{ si with clusterNr := swapfileCluster - 1 }, clusterBase si, clusterBase si⟩

/-- `scan_swap_map` up to the label `checks`. -/
def startScan (si : SwapInfo) : Scan :=
  if si.clusterNr ≠ 0 then
    ⟨{ si with clusterNr := si.clusterNr - 1 }, si.clusterNext, si.clusterNext⟩
  else if wsub si.pages si.inusePages < swapfileCluster then
    ⟨{ si with clusterNr := swapfileCluster - 1 }, si.clusterNext, si.clusterNext⟩
  else newCluster si

/-- The slot is taken. -/
def take (si : SwapInfo) (offset : Nat) : SwapInfo :=
  let full := si.inusePages + 1 = si.pages
  { si with
    lowestBit :=
      if full then si.max else if offset = si.lowestBit then si.lowestBit + 1 else si.lowestBit
    highestBit :=
      if full then 0 else if offset = si.highestBit then si.highestBit - 1 else si.highestBit
    inusePages := si.inusePages + 1
    swapMap := Function.update si.swapMap offset 1
    clusterNext := offset + 1 }

/-- An offset above `highest_bit` starts again from `lowest_bit`. -/
def rewind (scan : Scan) : Scan :=
  if scan.offset > scan.si.highestBit then
    { scan with offset := scan.si.lowestBit, scanBase := scan.si.lowestBit }
  else scan

/-- The loops behind the label `scan`: the slots behind `offset`, then those behind `lowest_bit`. -/
def nextOffset (scan : Scan) : Option Nat :=
  (findFree scan.si.swapMap (scan.si.highestBit + 1) (scan.offset + 1)).or
    (findFree scan.si.swapMap scan.scanBase (scan.si.lowestBit + 1))

/-- `scan_swap_map` from the label `checks` on, for so many passes through it. -/
def checks : Nat → Scan → Option (Nat × SwapInfo)
  | 0, _ => none
  | passes + 1, scan =>
    if scan.si.writeok = false then some (0, scan.si)
    else if scan.si.highestBit = 0 then some (0, scan.si)
    else if scan.si.swapMap (rewind scan).offset = 0 then
      some ((rewind scan).offset, take scan.si (rewind scan).offset)
    else
      match nextOffset (rewind scan) with
      | some offset => checks passes { rewind scan with offset := offset }
      | none => some (0, scan.si)

/-- `scan_swap_map`: the offset, or 0 if there is no page, and the area. -/
def scanSwapMap (passes : Nat) (si : SwapInfo) : Option (Nat × SwapInfo) :=
  checks passes (startScan si)

/-! ## Users of a slot -/

/-- `swap_entry_free`. -/
def swapEntryFree (si : SwapInfo) (offset : Nat) : SwapInfo :=
  let count := si.swapMap offset
  if count < swapMapMax then
    let si := { si with swapMap := Function.update si.swapMap offset (count - 1) }
    if count - 1 = 0 then
      { si with
        lowestBit := if offset < si.lowestBit then offset else si.lowestBit
        highestBit := if offset > si.highestBit then offset else si.highestBit
        inusePages := si.inusePages - 1 }
    else si
  else si

/-- `swap_free`, with the checks that `swap_info_get` makes for every caller of
`swap_entry_free`. -/
def swapFree (si : SwapInfo) (offset : Nat) : SwapInfo :=
  if offset ≥ si.max then si
  else if si.swapMap offset = 0 then si
  else swapEntryFree si offset

/-- `swap_duplicate`. -/
def swapDuplicate (si : SwapInfo) (offset : Nat) : SwapInfo :=
  if offset < si.max ∧ si.swapMap offset ≠ 0 then
    if si.swapMap offset < swapMapMax - 1 then
      { si with swapMap := Function.update si.swapMap offset (si.swapMap offset + 1) }
    else if si.swapMap offset ≤ swapMapMax then
      { si with swapMap := Function.update si.swapMap offset swapMapMax }
    else si
  else si

/-! ## `sys_swapon` -/

/-- The swap header, and what `sys_swapon` learns from the device. -/
structure Header where
  lastPage : Nat
  badpages : List Nat
  /-- `i_size_read(inode) >> PAGE_SHIFT`. -/
  swapfilepages : Nat
  /-- For a regular file, the number of pages for which `setup_swap_extents` finds blocks. -/
  filePages : Option Nat
  solidstate : Bool
  /-- `random32()`. -/
  random : Nat

/-- The largest offset in a swap pte of the architecture, less one. -/
def maxOffset : Nat := 2 ^ 23 - 2

/-- `MAX_SWAP_BADPAGES`, for pages of 4096 bytes. -/
def maxSwapBadpages : Nat := (4096 - 10 - 1536) / 4

/-- `maxpages`. -/
def Header.maxpages (header : Header) : Nat :=
  min maxOffset header.lastPage

/-- The bad block list applied to the swap map, and slot 0, the header. -/
def Header.swapMap (header : Header) (offset : Nat) : Nat :=
  if offset = 0 ∨ offset ∈ header.badpages then swapMapBad else 0

/-- The area before `setup_swap_extents`. -/
def Header.area (header : Header) : SwapInfo where
  writeok := true
  solidstate := false
  swapMap := header.swapMap
  lowestBit := 1
  highestBit := header.maxpages - 1
  clusterNext := 1
  clusterNr := 0
  pages := wsub (wsub header.lastPage header.badpages.length) 1
  max := header.maxpages
  inusePages := 0

/-- `setup_swap_extents`. -/
def Header.setupSwapExtents (header : Header) (si : SwapInfo) : SwapInfo :=
  match header.filePages with
  | none => si
  | some pageNo =>
    let pageNo := if min pageNo si.max = 0 then 1 else min pageNo si.max
    { si with max := pageNo, pages := pageNo - 1, highestBit := pageNo - 1 }

/-- `sys_swapon`, from the header to the enabled area. -/
def swapon (header : Header) : Option SwapInfo :=
  if header.maxpages = 0 then none
  else if header.swapfilepages ≠ 0 ∧ header.maxpages > header.swapfilepages then none
  else if header.badpages ≠ [] ∧ header.filePages.isSome then none
  else if header.badpages.length > maxSwapBadpages then none
  else if ¬ ∀ page ∈ header.badpages, 0 < page ∧ page < 2 ^ 31 ∧ page < header.lastPage then none
  else if header.area.pages = 0 then none
  else
    let si := header.setupSwapExtents header.area
    if si.pages = 0 then none
    else
      some { si with
             solidstate := header.solidstate
             clusterNext := if header.solidstate then 1 + header.random % si.highestBit else 1 }

/-! ## Runs -/

/-- A call. -/
inductive Op where
  | scanSwapMap
  | swapFree (offset : Nat)
  | swapDuplicate (offset : Nat)

/-- A call of `scan_swap_map` is a step if it returns after some number of passes. -/
def Step (si : SwapInfo) : Op → SwapInfo → Prop
  | .scanSwapMap, si' => ∃ passes offset, scanSwapMap passes si = some (offset, si')
  | .swapFree offset, si' => swapFree si offset = si'
  | .swapDuplicate offset, si' => swapDuplicate si offset = si'

/-- The slots that are free. -/
def SwapInfo.free (si : SwapInfo) : Finset Nat :=
  (Finset.range si.max).filter fun offset => si.swapMap offset = 0

/-- The usable slots with users. -/
def SwapInfo.used (si : SwapInfo) : Finset Nat :=
  (Finset.range si.max).filter fun offset =>
    si.swapMap offset ≠ 0 ∧ si.swapMap offset ≠ swapMapBad

/-- The slots that are usable. -/
def SwapInfo.usable (si : SwapInfo) : Finset Nat :=
  (Finset.range si.max).filter fun offset => si.swapMap offset ≠ swapMapBad

end AndroidKernel.Swap
