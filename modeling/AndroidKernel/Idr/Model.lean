import AndroidKernel.Library.Bitmap
import AndroidKernel.Library.Digits
import AndroidKernel.Library.Runs

/-!
# The id allocator

`idr_pre_get`, `idr_get_new_above`, `idr_remove` and `idr_find` on a 32-bit machine. A layer is
in one place at a time, so the tree is a value. The array `pa` of layers on the way down is a
path of frames, each a layer without the child below. An `int` id is the number with its 32 bits,
so a negative one is at least `maxIdBit`.
-/

namespace AndroidKernel.Idr

open Library

universe u

/-- `IDR_BITS`. -/
def idrBits : Nat := 5

/-- `IDR_SIZE`. -/
def idrSize : Nat := 2 ^ idrBits

/-- `MAX_ID_BIT`. -/
def maxIdBit : Nat := 2 ^ 31

/-- `MAX_LEVEL`. -/
def maxLevel : Nat := (31 + idrBits - 1) / idrBits

/-- `IDR_FREE_MAX`. -/
def idrFreeMax : Nat := maxLevel + maxLevel

/-- What a pointer of a layer leads to: nothing, what the caller stored, or a
`struct idr_layer`. -/
inductive Ptr (α : Type u)
  | null
  | user (x : α)
  | layer (bitmap : Bitmap) (ary : Nat → Ptr α) (count level : Nat)

variable {α : Type u}

/-- `p == NULL`. -/
def Ptr.isNull : Ptr α → Bool
  | .null => true
  | _ => false

/-- The pointer that a caller passes, which may be null. -/
def Ptr.ofUser : Option α → Ptr α
  | none => .null
  | some x => .user x

/-- `struct idr`; the free list is a list, and `id_free_cnt` its length. -/
structure Idr (α : Type u) where
  top : Ptr α
  layers : Nat
  idFree : List (Ptr α)

/-- `idr_init`. -/
def Idr.initial : Idr α :=
  ⟨.null, 0, []⟩

/-- A layer as `kmem_cache_zalloc` makes it. -/
def zeroLayer : Ptr α :=
  .layer (fun _ => false) (fun _ => .null) 0 0

/-- `p->bitmap == IDR_FULL`. -/
def isFull (bitmap : Bitmap) : Bool :=
  decide (∀ n, n < idrSize → bitmap n = true)

/-- `(id >> (IDR_BITS * l)) & IDR_MASK`. -/
def slot (l id : Nat) : Nat :=
  digit idrBits l id

/-- `get_from_free_list`. -/
def getFromFreeList : List (Ptr α) → Option (Ptr α × List (Ptr α))
  | [] => none
  | .layer bitmap ary count level :: free =>
    some (.layer bitmap (Function.update ary 0 .null) count level, free)
  | p :: free => some (p, free)

/-- Writes `p->layer`. -/
def Ptr.setLevel (p : Ptr α) (level : Nat) : Ptr α :=
  match p with
  | .layer bitmap ary count _ => .layer bitmap ary count level
  | p => p

/-- `idr_pre_get`, where at most `n` allocations succeed. -/
def idrPreGet : Nat → Idr α → Idr α
  | 0, s => s
  | n + 1, s =>
    if s.idFree.length < idrFreeMax then
      idrPreGet n { s with idFree := zeroLayer :: s.idFree }
    else s

/-- A layer on the way down, without the child in `slot`. -/
structure Frame (α : Type u) where
  bitmap : Bitmap
  ary : Nat → Ptr α
  count : Nat
  level : Nat
  slot : Nat

/-- The layer with the child back in its slot. -/
def Frame.plug (f : Frame α) (p : Ptr α) : Ptr α :=
  .layer f.bitmap (Function.update f.ary f.slot p) f.count f.level

/-- The top of the tree with `p` at the end of the path. -/
def plug : List (Frame α) → Ptr α → Ptr α
  | [], p => p
  | f :: path, p => plug path (f.plug p)

/-- How `sub_alloc` ends. -/
inductive SubAlloc (α : Type u)
  | found (p : Ptr α) (path : List (Frame α)) (id : Nat)
  | needToGrow (top : Ptr α) (id : Nat)
  | noMoreSpace (top : Ptr α)
  | noMemory (top : Ptr α)
  | crash
  | endless

/-- The loop of `sub_alloc`, at the layer `p` of level `l`. -/
def subAllocLoop (layers : Nat) :
    Nat → Ptr α → List (Frame α) → Nat → Nat → List (Ptr α) → SubAlloc α × List (Ptr α)
  | fuel + 1, .layer bitmap ary count level, path, l, id, free =>
    let p := Ptr.layer bitmap ary count level
    let n := slot l id
    let m := bitmap.findNextZeroBit idrSize n
    if m = idrSize then
      -- no space here: the next id is in the layer above, or beyond the tree
      let l := l + 1
      let oid := id
      let id := (id / 2 ^ (idrBits * l) + 1) * 2 ^ (idrBits * l) % 2 ^ 32
      match path with
      | [] => (.needToGrow p id, free)
      | f :: path =>
        if oid / 2 ^ (idrBits * (l + 1)) = id / 2 ^ (idrBits * (l + 1)) then
          subAllocLoop layers fuel (f.plug p) path l id free
        else
          subAllocLoop layers fuel (plug path (f.plug p)) [] (layers - 1) id free
    else
      let id := if m ≠ n then (id / 2 ^ (idrBits * l) - n + m) * 2 ^ (idrBits * l) else id
      if maxIdBit ≤ id then (.noMoreSpace (plug path p), free)
      else
        match l with
        | 0 => (.found p path id, free)
        | l + 1 =>
          if (ary m).isNull then
            -- the layer below is missing
            match getFromFreeList free with
            | none => (.noMemory (plug path p), free)
            | some (new, free) =>
              subAllocLoop layers fuel (new.setLevel l)
                (⟨bitmap, ary, count + 1, level, m⟩ :: path) l id free
          else
            subAllocLoop layers fuel (ary m) (⟨bitmap, ary, count, level, m⟩ :: path) l id free
  | _ + 1, _, _, _, _, free => (.crash, free)
  | 0, _, _, _, _, free => (.endless, free)

/-- Puts the layers that were built on top of the tree back on the free list. -/
def tearDown : Nat → Ptr α → List (Ptr α) → List (Ptr α)
  | k + 1, .layer _ ary _ level, free =>
    tearDown k (ary 0)
      (.layer (fun _ => false) (Function.update ary 0 .null) 0 level :: free)
  | _, _, free => free

/-- The loop of `idr_get_empty_slot` that adds layers on top, with how many it has built so far.
It ends without a tree if there was no memory. -/
def growLoop (id : Nat) : Nat → Nat → Ptr α → Nat → List (Ptr α) →
    Option (Ptr α × Nat) × List (Ptr α)
  | fuel + 1, built, .layer bitmap ary count level, layers, free =>
    let p := Ptr.layer bitmap ary count level
    if layers < maxLevel - 1 ∧ 2 ^ (layers * idrBits) ≤ id ∧ id < maxIdBit then
      if count = 0 then
        growLoop id fuel built (.layer bitmap ary count (level + 1)) (layers + 1) free
      else
        match getFromFreeList free with
        | none => (none, tearDown built p free)
        | some (.layer bitmap' ary' _ _, free) =>
          let bitmap' := if isFull bitmap then Function.update bitmap' 0 true else bitmap'
          growLoop id fuel (built + 1) (.layer bitmap' (Function.update ary' 0 p) 1 layers)
            (layers + 1) free
        | some (_, free) => (none, free)
    else (some (p, layers), free)
  | _, _, p, layers, free => (some (p, layers), free)

/-- How an allocation ends: with an id, `-EAGAIN` or `-ENOSPC`. -/
inductive Result
  | id (n : Nat)
  | eagain
  | enospc
  | crash
  | endless
  deriving DecidableEq

/-- `idr_mark_full` above a layer that has its own bit set. -/
def markUp : List (Frame α) → Ptr α → Nat → Ptr α
  | f :: path, .layer bitmap ary count level, id =>
    let p := Ptr.layer bitmap ary count level
    if isFull bitmap then
      let id := id / 2 ^ idrBits
      markUp path
        ({ f with bitmap := Function.update f.bitmap (id % 2 ^ idrBits) true }.plug p) id
    else plug (f :: path) p
  | path, p, _ => plug path p

/-- The end of `idr_get_new_above_int`: the pointer is stored and its bit set, with
`idr_mark_full`. -/
def install (p : Ptr α) (path : List (Frame α)) (id : Nat) (x : Option α) : Ptr α :=
  match p with
  | .layer bitmap ary count level =>
    let n := id % 2 ^ idrBits
    markUp path (.layer (Function.update bitmap n true) (Function.update ary n (.ofUser x))
      (count + 1) level) id
  | p => plug path p

/-- `idr_get_empty_slot` from the label `build_up` on, with the rest of
`idr_get_new_above_int`. -/
def buildUp (x : Option α) : Nat → Idr α → Nat → Idr α × Result
  | 0, s, _ => (s, .endless)
  | fuel + 1, s, id =>
    let start := if s.top.isNull then
        (getFromFreeList s.idFree).map fun (p, free) => (p.setLevel 0, 1, free)
      else some (s.top, s.layers, s.idFree)
    match start with
    | none => (s, .eagain)
    | some (p, layers, free) =>
      match growLoop id maxLevel 0 p layers free with
      | (none, free) => ({ s with idFree := free }, .eagain)
      | (some (top, layers), free) =>
        match subAllocLoop layers fuel top [] (layers - 1) id free with
        | (.found p path id, free) => (⟨install p path id x, layers, free⟩, .id id)
        | (.needToGrow top id, free) => buildUp x fuel ⟨top, layers, free⟩ id
        | (.noMoreSpace top, free) => (⟨top, layers, free⟩, .enospc)
        | (.noMemory top, free) => (⟨top, layers, free⟩, .eagain)
        | (.crash, free) => (⟨top, layers, free⟩, .crash)
        | (.endless, free) => (⟨top, layers, free⟩, .endless)

/-- `idr_get_new_above`. -/
def idrGetNewAbove (fuel : Nat) (s : Idr α) (x : Option α) (startingId : Nat) : Idr α × Result :=
  buildUp x fuel s startingId

/-- What `sub_remove` leaves of a layer: nothing, the layer, or a complaint. -/
inductive Removal (α : Type u)
  | gone
  | kept (p : Ptr α)
  | warning (p : Ptr α)

/-- `sub_remove` from a layer of level `l` down, and back up as far as layers get empty. -/
def subRemove (id : Nat) : Nat → Ptr α → Removal α
  | 0, .layer bitmap ary count level =>
    let n := slot 0 id
    if bitmap n then
      if count - 1 = 0 then .gone
      else
        .kept (.layer (Function.update bitmap n false) (Function.update ary n .null) (count - 1)
          level)
    else .warning (.layer bitmap ary count level)
  | l + 1, .layer bitmap ary count level =>
    let n := slot (l + 1) id
    let bitmap := Function.update bitmap n false
    match subRemove id l (ary n) with
    | .gone =>
      if count - 1 = 0 then .gone
      else .kept (.layer bitmap (Function.update ary n .null) (count - 1) level)
    | .kept p => .kept (.layer bitmap (Function.update ary n p) count level)
    | .warning p => .warning (.layer bitmap (Function.update ary n p) count level)
  | _, p => .warning p

/-- The end of `idr_remove`: a top layer with a single child at the leftmost slot is taken off,
and the free list is cut down. -/
def removeFinish (s : Idr α) : Idr α :=
  let s :=
    match s.top with
    | .layer _ ary count _ =>
      if count = 1 ∧ 1 < s.layers ∧ (ary 0).isNull = false then
        { s with top := ary 0, layers := s.layers - 1 }
      else s
    | _ => s
  { s with idFree := s.idFree.drop (s.idFree.length - (idrFreeMax - 1)) }

/-- `idr_remove`. -/
def idrRemove (s : Idr α) (id : Nat) : Idr α :=
  match subRemove (id % maxIdBit) (s.layers - 1) s.top with
  | .gone => removeFinish { s with top := .null, layers := 0 }
  | .kept top => removeFinish { s with top := top }
  | .warning top => removeFinish { s with top := top }

/-- The loop of `idr_find`; `none` is a `BUG_ON`. -/
def findDown (id : Nat) : Nat → Ptr α → Option (Ptr α)
  | 0, p => some p
  | _ + 1, .null => some .null
  | l + 1, .layer _ ary _ level => if level = l then findDown id l (ary (slot l id)) else none
  | _ + 1, .user _ => none

/-- `idr_find`. -/
def idrFind (s : Idr α) (id : Nat) : Option (Ptr α) :=
  match s.top with
  | .layer bitmap ary count level =>
    let id := id % maxIdBit
    if 2 ^ ((level + 1) * idrBits) ≤ id then some .null
    else findDown id (level + 1) (.layer bitmap ary count level)
  | p => some p

/-- The calls. -/
inductive Op (α : Type u)
  | preGet (n : Nat)
  | getNewAbove (x : Option α) (startingId : Nat)
  | remove (id : Nat)

end AndroidKernel.Idr
