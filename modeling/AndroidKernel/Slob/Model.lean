import AndroidKernel.Library.LinkedLists
import Mathlib.Data.List.Rotate
import Mathlib.Algebra.GroupWithZero.Nat
import Mathlib.Algebra.Group.Int.Defs

/-!
# The SLOB allocator

The pages of `mm/slob.c`, with free lists that are kept in the free memory itself. A pointer is
the number of a unit of two bytes, and the memory is a function of units. A result `none` is a
`BUG_ON`, a write through a null pointer or a walk over a list that does not end.
-/

namespace AndroidKernel.Slob

open Library

/-- `SLOB_UNITS(PAGE_SIZE)`. -/
def pageUnits : Nat := 2048

/-- `SLOB_UNITS`. -/
def slobUnitsOf (size : Nat) : Nat :=
  (size + 2 - 1) / 2

/-- The first unit of the page of a pointer. -/
def base (s : Nat) : Nat :=
  s / pageUnits * pageUnits

/-- A number as a `slobidx_t`. -/
def slobidx (n : Int) : Int :=
  n.bmod (2 ^ 16)

/-- The memory, in units. -/
abbrev Memory := Nat → Int

/-- `set_slob`. -/
def setSlob (mem : Memory) (s : Nat) (size : Int) (next : Nat) : Memory :=
  if 1 < slobidx size then
    Function.update (Function.update mem s (slobidx size)) (s + 1) (slobidx (next - base s))
  else Function.update mem s (slobidx (-slobidx (next - base s)))

/-- `slob_units`. -/
def slobUnits (mem : Memory) (s : Nat) : Int :=
  if 0 < mem s then mem s else 1

/-- `slob_next`. -/
def slobNext (mem : Memory) (s : Nat) : Nat :=
  if mem s < 0 then (base s - mem s).toNat else (base s + mem (s + 1)).toNat

/-- `slob_last`. -/
def slobLast (mem : Memory) (s : Nat) : Bool :=
  decide (slobNext mem s % pageUnits = 0)

/-- `ALIGN`, of the address of a unit. -/
def alignPtr (cur align : Nat) : Nat :=
  (2 * cur + align - 1) % 2 ^ 32 / align * align / 2

/-- `delta` in `slob_page_alloc`. -/
def alignDelta (cur align : Nat) : Int :=
  if align = 0 then 0 else (alignPtr cur align : Int) - cur

/-- The lists of partially free pages. -/
inductive SlobList
  | small
  | medium
  | large
deriving DecidableEq

/-- The fields of `struct slob_page`. -/
structure SlobPage where
  units : Int
  free : Nat

/-- The allocator: the memory, the pages that it uses, and the lists that they are on. A page is
on a list exactly when it has the flag `PG_slob_free`. -/
structure Slob where
  mem : Memory
  page : Nat → Option SlobPage
  lists : LinkedLists SlobList Nat

/-! ## Allocation -/

/-- Lets `prev`, or else the page, point to `next`. -/
def relink (mem : Memory) (free : Nat) (prev : Option Nat) (next : Nat) : Memory × Nat :=
  match prev with
  | some prev => (setSlob mem prev (slobUnits mem prev) next, free)
  | none => (mem, next)

/-- The end of `slob_page_alloc`: takes `units` from the start of the block at `cur`. -/
def carve (mem : Memory) (free : Nat) (prev : Option Nat) (cur units : Nat) : Memory × Nat :=
  if slobUnits mem cur = units then relink mem free prev (slobNext mem cur)
  else
    (setSlob (relink mem free prev (cur + units)).1 (cur + units) (slobUnits mem cur - units)
        (slobNext mem cur),
      (relink mem free prev (cur + units)).2)

/-- Splits the block at `cur` before the unit `aligned`. -/
def splitHead (mem : Memory) (cur aligned : Nat) (delta : Int) : Memory :=
  setSlob (setSlob mem aligned (slobUnits mem cur - delta) (slobNext mem cur)) cur delta aligned

/-- `slob_page_alloc`, once there is room at `cur`. -/
def carveAligned (mem : Memory) (free : Nat) (prev : Option Nat) (cur units align : Nat) :
    Nat × Memory × Nat :=
  if alignDelta cur align ≠ 0 then
    (alignPtr cur align, carve (splitHead mem cur (alignPtr cur align) (alignDelta cur align)) free
      (some cur) (alignPtr cur align) units)
  else (cur, carve mem free prev cur units)

/-- How `slob_page_alloc` ends. -/
inductive PageAlloc
  | found (b : Nat) (mem : Memory) (free : Nat)
  | full
  | running

/-- The loop of `slob_page_alloc`, at most `fuel` times. -/
def pageAllocLoop (mem : Memory) (free units align : Nat) : Nat → Option Nat → Nat → PageAlloc
  | 0, _, _ => .running
  | fuel + 1, prev, cur =>
    if (units : Int) + alignDelta cur align ≤ slobUnits mem cur then
      .found (carveAligned mem free prev cur units align).1
        (carveAligned mem free prev cur units align).2.1
        (carveAligned mem free prev cur units align).2.2
    else if slobLast mem cur then .full
    else pageAllocLoop mem free units align fuel (some cur) (slobNext mem cur)

/-- `slob_page_alloc`, after its loop. -/
def takePage (slob : Slob) (p : Nat) (sp : SlobPage) (units : Nat) :
    PageAlloc → Option (Option (Nat × Slob))
  | .running => none
  | .full => some none
  | .found b mem free =>
    if b = 0 then none
    else
      some (some (b, {
        mem
        page := Function.update slob.page p (some ⟨sp.units - units, free⟩)
        lists := if sp.units - units = 0 then slob.lists.del p else slob.lists }))

/-- `slob_page_alloc`. -/
def slobPageAlloc (slob : Slob) (p : Nat) (sp : SlobPage) (size align : Nat) :
    Option (Option (Nat × Slob)) :=
  takePage slob p sp (slobUnitsOf size)
    (pageAllocLoop slob.mem sp.free (slobUnitsOf size) align (pageUnits + 1) none sp.free)

/-- The list that `slob_alloc` searches. -/
def listFor (size : Nat) : SlobList :=
  if size < 256 then .small else if size < 1024 then .medium else .large

/-- The search over the partially free pages in `slob_alloc`: the page, the block and the state. -/
def tryPages (slob : Slob) (size align : Nat) : List Nat → Option (Option (Nat × Nat × Slob))
  | [] => some none
  | p :: rest =>
    match slob.page p with
    | none => none
    | some sp =>
      if sp.units < slobUnitsOf size then tryPages slob size align rest
      else
        match slobPageAlloc slob p sp size align with
        | none => none
        | some none => tryPages slob size align rest
        | some (some (b, slob)) => some (some (p, b, slob))

/-- Lets the list start behind the pages that had no room. -/
def rotateList (slob : Slob) (q : SlobList) (n : Nat) : Slob :=
  { slob with
    lists := slob.lists.reorder q ((slob.lists.items q).rotate n) (List.rotate_perm _ _) }

/-- A new page `p`, with all of it free. -/
def addPage (slob : Slob) (q : SlobList) (p : Nat) : Slob where
  mem := setSlob slob.mem (p * pageUnits) pageUnits (p * pageUnits + pageUnits)
  page := Function.update slob.page p (some ⟨pageUnits, p * pageUnits⟩)
  lists := slob.lists.addHead q p

/-- `slob_alloc`: the block, or 0. The page allocator returns `newPage` if it is asked. -/
def slobAlloc (slob : Slob) (size align : Nat) (newPage : Option Nat) : Option (Nat × Slob) :=
  match tryPages slob size align (slob.lists.items (listFor size)) with
  | none => none
  | some (some (p, b, slob')) =>
    some (b, rotateList slob' (listFor size) ((slob.lists.items (listFor size)).idxOf p))
  | some none =>
    match newPage with
    | none => some (0, slob)
    | some p =>
      match slobPageAlloc (addPage slob (listFor size) p) p ⟨pageUnits, p * pageUnits⟩ size
          align with
      | some (some result) => some result
      | _ => none

/-! ## Freeing -/

/-- The loop of `slob_free`, at most `fuel` times: the last free block before `b`. -/
def findPrev (mem : Memory) (b : Nat) : Nat → Nat → Option Nat
  | 0, _ => none
  | fuel + 1, prev =>
    if slobNext mem prev < b then findPrev mem b fuel (slobNext mem prev) else some prev

/-- `slob_free` of a block before the first free one. -/
def freeFirst (mem : Memory) (free b units : Nat) : Memory × Nat :=
  if b + units = free then
    (setSlob mem b (units + slobUnits mem free) (slobNext mem free), b)
  else (setSlob mem b units free, b)

/-- `slob_free` of a block after `prev`: the block itself. -/
def freeBlock (mem : Memory) (prev b units : Nat) : Memory :=
  if slobLast mem prev = false ∧ b + units = slobNext mem prev then
    setSlob mem b (units + slobUnits mem (slobNext mem prev)) (slobNext mem (slobNext mem prev))
  else setSlob mem b units (slobNext mem prev)

/-- `slob_free` of a block after `prev`: the block before it. -/
def joinPrev (mem : Memory) (prev b : Nat) : Memory :=
  if (prev : Int) + slobUnits mem prev = b then
    setSlob mem prev (slobUnits mem b + slobUnits mem prev) (slobNext mem b)
  else setSlob mem prev (slobUnits mem prev) b

/-- `slob_free` on a partially free page. -/
def insertFree (mem : Memory) (free b units : Nat) : Option (Memory × Nat) :=
  if b < free then some (freeFirst mem free b units)
  else
    (findPrev mem b (pageUnits + 1) free).map fun prev =>
      (joinPrev (freeBlock mem prev b units) prev b, free)

/-- `slob_free`. -/
def slobFree (slob : Slob) (b size : Nat) : Option Slob :=
  if 2 * b ≤ 16 then some slob
  else if size = 0 then none
  else
    match slob.page (b / pageUnits) with
    | none => none
    | some sp =>
      if sp.units + slobUnitsOf size = pageUnits then
        some { slob with
          page := Function.update slob.page (b / pageUnits) none
          lists := slob.lists.del (b / pageUnits) }
      else if slob.lists.home (b / pageUnits) = none then
        some {
          mem := setSlob slob.mem b (slobUnitsOf size) (base (b + pageUnits))
          page := Function.update slob.page (b / pageUnits) (some ⟨slobUnitsOf size, b⟩)
          lists := slob.lists.addHead .small (b / pageUnits) }
      else
        (insertFree slob.mem sp.free b (slobUnitsOf size)).map fun (mem, free) =>
          { slob with
            mem
            page := Function.update slob.page (b / pageUnits)
              (some ⟨sp.units + slobUnitsOf size, free⟩) }

/-! ## The system -/

/-- An object that was returned by `slob_alloc`. -/
structure Obj where
  b : Nat
  size : Nat
  align : Nat
deriving DecidableEq

/-- The allocator with the objects in use. -/
structure System where
  slob : Slob
  live : List Obj

/-- The calls, and what others do with the memory. -/
inductive Op
  | alloc (size align : Nat) (newPage : Option Nat)
  | free (obj : Obj)
  | write (unit : Nat) (value : Int)

def step (s : System) : Op → Option System
  | .alloc size align newPage =>
    (slobAlloc s.slob size align newPage).map fun (b, slob) =>
      ⟨slob, if b = 0 then s.live else ⟨b, size, align⟩ :: s.live⟩
  | .free obj => (slobFree s.slob obj.b obj.size).map fun slob => ⟨slob, s.live.erase obj⟩
  | .write unit value => some ⟨{ s.slob with mem := Function.update s.slob.mem unit value }, s.live⟩

/-- No page is used. -/
def initial (mem : Memory) : System :=
  ⟨⟨mem, fun _ => none, .empty⟩, []⟩

end AndroidKernel.Slob
