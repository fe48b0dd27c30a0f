import AndroidKernel.Library.Bitmap
import AndroidKernel.Library.Words

/-!
# Boot memory

The bitmaps of `mm/bootmem.c` and what marks pages in them. A call that runs into `BUG` or that
would leave a node's bitmap has no result.
-/

namespace AndroidKernel.Bootmem

open Library

/-- `bootmem_data_t`. The bitmap lies at the page `nodeBootmemMap`, if there is one, and bit `i` of
it is that of page `nodeMinPfn + i`. -/
structure Node where
  nodeMinPfn : Nat
  nodeLowPfn : Nat
  nodeBootmemMap : Option Nat
  bits : Bitmap
  lastEndOff : Nat
  hintIdx : Nat

/-- `PFN_UP`. -/
def pfnUp (x : Nat) : Nat := wadd x (pageSize - 1) / pageSize

/-- `PFN_DOWN`. -/
def pfnDown (x : Nat) : Nat := x / pageSize

/-- `-EBUSY`. -/
def ebusy : Int := -16

/-- `bootmap_bytes`. -/
def bootmapBytes (pages : Nat) : Nat :=
  ((pages + 7) / 8 + 3) / 4 * 4

/-- The bits that there is room for. -/
def Node.mapBits (bdata : Node) : Nat :=
  match bdata.nodeBootmemMap with
  | none => 0
  | some _ => bootmapBytes (bdata.nodeLowPfn - bdata.nodeMinPfn) * 8

/-- Writes one bit. -/
def Node.write (bdata : Node) (idx : Nat) (value : Bool) : Node :=
  { bdata with bits := Function.update bdata.bits idx value }

/-- The loop of `__free`, for `n` bits. -/
def freeLoop : Nat → Nat → Node → Option Node
  | 0, _, bdata => some bdata
  | n + 1, idx, bdata =>
    if bdata.mapBits ≤ idx then none
    else if bdata.bits idx then freeLoop n (idx + 1) (bdata.write idx false)
    else none

/-- `__free`. -/
def Node.free (bdata : Node) (sidx eidx : Nat) : Option Node :=
  let hint := if bdata.hintIdx > sidx then sidx else bdata.hintIdx
  freeLoop (eidx - sidx) sidx { bdata with hintIdx := hint }

/-- The loop of `__reserve`, for `n` bits. -/
def reserveLoop (exclusive : Bool) (sidx : Nat) : Nat → Nat → Node → Option (Node × Int)
  | 0, _, bdata => some (bdata, 0)
  | n + 1, idx, bdata =>
    if bdata.mapBits ≤ idx then none
    else if bdata.bits idx then
      if exclusive then (bdata.free sidx idx).map fun bdata => (bdata, ebusy)
      else reserveLoop exclusive sidx n (idx + 1) bdata
    else reserveLoop exclusive sidx n (idx + 1) (bdata.write idx true)

/-- `__reserve`. -/
def Node.reserve (bdata : Node) (sidx eidx : Nat) (exclusive : Bool) : Option (Node × Int) :=
  reserveLoop exclusive sidx (eidx - sidx) sidx bdata

/-- What `mark_bootmem` is asked to do. -/
inductive Mark where
  | free
  | reserve (exclusive : Bool)

/-- `mark_bootmem_node`. -/
def markBootmemNode (mark : Mark) (bdata : Node) (start stop : Nat) : Option (Node × Int) :=
  if start < bdata.nodeMinPfn ∨ stop > bdata.nodeLowPfn then none
  else
    let sidx := wsub start bdata.nodeMinPfn
    let eidx := wsub stop bdata.nodeMinPfn
    match mark with
    | .reserve exclusive => bdata.reserve sidx eidx exclusive
    | .free => (bdata.free sidx eidx).map fun bdata => (bdata, 0)

/-- The loop of `mark_bootmem` over the rest of `bdata_list`. It returns the position and the error
if a node fails. -/
def markNodes (mark : Mark) (start stop : Nat) :
    Nat → List Node → Option (List Node × Option (Nat × Int))
  | _, [] => none
  | pos, bdata :: rest =>
    if pos < bdata.nodeMinPfn ∨ pos ≥ bdata.nodeLowPfn then
      if pos ≠ start then none
      else (markNodes mark start stop pos rest).map fun (rest, failed) => (bdata :: rest, failed)
    else
      let max := min bdata.nodeLowPfn stop
      match markBootmemNode mark bdata pos max with
      | none => none
      | some (marked, err) =>
        if err ≠ 0 then some (marked :: rest, some (pos, err))
        else if max = stop then some (marked :: rest, none)
        else (markNodes mark start stop bdata.nodeLowPfn rest).map
          fun (rest, failed) => (marked :: rest, failed)

/-- `mark_bootmem`. -/
def markBootmem (mark : Mark) (start stop : Nat) (nodes : List Node) : Option (List Node × Int) :=
  match markNodes mark start stop start nodes with
  | none => none
  | some (nodes, none) => some (nodes, 0)
  | some (nodes, some (pos, err)) =>
    -- `__free` does not fail, so neither does the call that undoes
    (markNodes .free start pos start nodes).map fun (nodes, _) => (nodes, err)

/-- `reserve_bootmem`. -/
def reserveBootmem (nodes : List Node) (addr size : Nat) (exclusive : Bool) :
    Option (List Node × Int) :=
  markBootmem (.reserve exclusive) (pfnDown addr) (pfnUp (wadd addr size)) nodes

end AndroidKernel.Bootmem
