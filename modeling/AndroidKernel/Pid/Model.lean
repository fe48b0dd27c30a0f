import AndroidKernel.Library.Bitmap
import AndroidKernel.Library.Runs

/-!
# The pid allocator

`free_pidmap` and `alloc_pidmap` over the bitmap pages of a pid namespace, run one after the
other. A page is made on first use; a page that is not there yet is all clear.
-/

namespace AndroidKernel.Pid

open Library

/-- `RESERVED_PIDS`. -/
def reservedPids : Nat := 300

/-- `BITS_PER_PAGE`. -/
def bitsPerPage : Nat := 4096 * 8

/-- `struct pidmap`. -/
structure Pidmap where
  nrFree : Int
  page : Option Bitmap

/-- The part of `struct pid_namespace` that the allocator uses. -/
structure PidNamespace where
  pidmap : Nat → Pidmap
  lastPid : Nat

/-- A namespace as `pidmap_init` and `create_pid_namespace` leave it: pid 0 is taken. -/
def PidNamespace.initial : PidNamespace where
  pidmap i :=
    if i = 0 then ⟨bitsPerPage - 1, some fun off => off == 0⟩ else ⟨bitsPerPage, none⟩
  lastPid := 0

/-- The bits of a map; a page that is not there has none set. -/
def Pidmap.bits (map : Pidmap) : Bitmap :=
  map.page.getD fun _ => false

/-- Whether a pid is in use. -/
def PidNamespace.used (ns : PidNamespace) (pid : Nat) : Bool :=
  (ns.pidmap (pid / bitsPerPage)).bits (pid % bitsPerPage)

/-- Writes one map. -/
def PidNamespace.setMap (ns : PidNamespace) (i : Nat) (map : Pidmap) : PidNamespace :=
  { ns with pidmap := Function.update ns.pidmap i map }

/-- `mk_pid`. -/
def mkPid (map off : Nat) : Nat :=
  map * bitsPerPage + off

/-- `find_next_offset`. -/
def findNextOffset (page : Bitmap) (off : Nat) : Nat :=
  page.findNextZeroBit bitsPerPage off

/-- `free_pidmap`. -/
def freePidmap (nr : Nat) (ns : PidNamespace) : PidNamespace :=
  let map := ns.pidmap (nr / bitsPerPage)
  let offset := nr % bitsPerPage
  ns.setMap (nr / bitsPerPage)
    { nrFree := map.nrFree + 1, page := map.page.map fun page => Function.update page offset false }

/-- The do-while loop over one page: the offset and pid whose bit it sets. `final` is
`i == max_scan`; the offset grows in each round, so `fuel` is never used up. -/
def tryOffsets (pidMax last map : Nat) (final : Bool) (page : Bitmap) :
    Nat → Nat → Nat → Option (Nat × Nat)
  | 0, _, _ => none
  | fuel + 1, offset, pid =>
    if page offset = false then some (offset, pid)
    else
      let offset := findNextOffset page offset
      let pid := mkPid map offset
      if offset < bitsPerPage ∧ pid < pidMax ∧
          (final = false ∨ pid < last ∨ (last + 1) % bitsPerPage = 0) then
        tryOffsets pidMax last map final page fuel offset pid
      else none

/-- The page of a map, made now if it is not there. `memory` tells which allocations succeed. -/
def ensurePage (memory : Nat → Bool) (map : Nat) (ns : PidNamespace) :
    PidNamespace × Option Bitmap :=
  match (ns.pidmap map).page with
  | some page => (ns, some page)
  | none =>
    if memory map then
      let page : Bitmap := fun _ => false
      (ns.setMap map { ns.pidmap map with page := some page }, some page)
    else (ns, none)

/-- Sets the bit, and counts and remembers the pid. -/
def takePid (map offset pid : Nat) (page : Bitmap) (ns : PidNamespace) : PidNamespace :=
  { ns.setMap map
      { nrFree := (ns.pidmap map).nrFree - 1, page := some (Function.update page offset true) } with
    lastPid := pid }

/-- The for loop, with `rounds` rounds left: one map after the other, wrapping from the last map
in use to the first unreserved pid. -/
def scanMaps (memory : Nat → Bool) (pidMax last : Nat) :
    Nat → Nat → Nat → Nat → PidNamespace → PidNamespace × Option Nat
  | 0, _, _, _, ns => (ns, none)
  | rounds + 1, map, offset, pid, ns =>
    match ensurePage memory map ns with
    | (ns, none) => (ns, none)
    | (ns, some page) =>
      let found :=
        if (ns.pidmap map).nrFree ≠ 0 then
          tryOffsets pidMax last map (rounds = 0) page (bitsPerPage + 1) offset pid
        else none
      match found with
      | some (offset, pid) => (takePid map offset pid page ns, some pid)
      | none =>
        if map < (pidMax - 1) / bitsPerPage then
          scanMaps memory pidMax last rounds (map + 1) 0 (mkPid (map + 1) 0) ns
        else if last = reservedPids then (ns, none)
        else scanMaps memory pidMax last rounds 0 reservedPids (mkPid 0 reservedPids) ns

/-- The pid the scan starts from. -/
def firstPid (pidMax last : Nat) : Nat :=
  if last + 1 ≥ pidMax then reservedPids else last + 1

/-- `max_scan`. -/
def maxScan (pidMax offset : Nat) : Nat :=
  (pidMax + bitsPerPage - 1) / bitsPerPage - (if offset = 0 then 1 else 0)

/-- `alloc_pidmap`; `none` is the result -1. -/
def allocPidmap (memory : Nat → Bool) (pidMax : Nat) (ns : PidNamespace) :
    PidNamespace × Option Nat :=
  let pid := firstPid pidMax ns.lastPid
  let offset := pid % bitsPerPage
  scanMaps memory pidMax ns.lastPid (maxScan pidMax offset + 1) (pid / bitsPerPage) offset pid ns

/-- The transitions; `pid_max` may be another one at each allocation. -/
inductive Op
  | alloc (pidMax : Nat)
  | free (nr : Nat)

/-- What a transition does; page allocations succeed. -/
def run (ns : PidNamespace) : Op → PidNamespace
  | .alloc pidMax => (allocPidmap (fun _ => true) pidMax ns).1
  | .free nr => freePidmap nr ns

theorem run_alloc (ns : PidNamespace) (pidMax : Nat) :
    run ns (.alloc pidMax) = (allocPidmap (fun _ => true) pidMax ns).1 := by
  simp only [run]

/-- Whether a transition may happen: `pid_max` is what `pid_max_min` lets through, and only pids
in use are freed, never pid 0. -/
def enabled (ns : PidNamespace) : Op → Prop
  | .alloc pidMax => reservedPids < pidMax
  | .free nr => ns.used nr = true ∧ nr ≠ 0

/-- One transition. -/
def Step (ns : PidNamespace) (op : Op) (ns' : PidNamespace) : Prop :=
  enabled ns op ∧ ns' = run ns op

end AndroidKernel.Pid
