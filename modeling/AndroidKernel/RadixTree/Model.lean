import AndroidKernel.Library.Digits
import AndroidKernel.Library.Runs

/-!
# The radix tree

`radix_tree_insert`, `radix_tree_delete`, the tag operations and lookup, over nodes of
`2 ^ w` slots and indices of `bits` bits (`RADIX_TREE_MAP_SHIFT` and `RADIX_TREE_INDEX_BITS`).
A node is in one slot at a time, so the tree is a value: a loop down the tree with its writes to
the nodes it passes, and a loop back up its `path`, are one recursion over the height.
-/

namespace AndroidKernel.RadixTree

open Library

universe u

/-- What a slot holds: nothing, an item, or a `struct radix_tree_node`. -/
inductive Ptr (α : Type u) (w : Nat)
  | null
  | item (x : α)
  | node (height count : Nat) (slots : Fin (2 ^ w) → Ptr α w) (tags : Fin 2 → Fin (2 ^ w) → Bool)

variable {α : Type u} {w : Nat}

/-- `p == NULL`. -/
def Ptr.isNull : Ptr α w → Bool
  | .null => true
  | _ => false

/-- `struct radix_tree_root`; the tags are those kept in `gfp_mask`. -/
structure RadixTreeRoot (α : Type u) (w : Nat) where
  height : Nat
  tags : Fin 2 → Bool
  rnode : Ptr α w

/-- How an allocation goes: it fails, or it returns a new node or one handed back before. -/
inductive Alloc
  | fail
  | fresh
  | reuse (k : Nat)

/-- The slab: the nodes handed back to it, and how the next allocations go. -/
structure Slab (α : Type u) (w : Nat) where
  free : List (Ptr α w)
  next : List Alloc

/-- What a call returns. `bug` is a `BUG_ON` or a pointer followed that is not one to a node. -/
inductive Result
  | ok
  | enomem
  | eexist
  | bug
  deriving DecidableEq

/-- The first slot. -/
def slot0 : Fin (2 ^ w) := ⟨0, Nat.two_pow_pos w⟩

/-- `(index >> shift) & RADIX_TREE_MAP_MASK`, at the node of height `h + 1`. -/
def offset (w h index : Nat) : Fin (2 ^ w) :=
  ⟨digit w h index, digit_lt w h index⟩

/-- `radix_tree_maxindex`, as `__maxindex` fills its table. -/
def maxindex (w bits height : Nat) : Nat :=
  let width := height * w
  if bits < width then 2 ^ bits - 1
  else if bits ≤ bits - width then 0
  else (2 ^ bits - 1) / 2 ^ (bits - width)

/-- `any_tag_set`. -/
def Ptr.anyTagSet (t : Fin 2) : Ptr α w → Bool
  | .node _ _ _ tags => decide (∃ s, tags t s = true)
  | _ => false

/-- A node as `radix_tree_node_ctor` makes it. -/
def zeroNode : Ptr α w :=
  .node 0 0 (fun _ => .null) fun _ _ => false

/-- `radix_tree_node_alloc`. -/
def nodeAlloc (m : Slab α w) : Option (Ptr α w) × Slab α w :=
  match m.next with
  | [] => (none, m)
  | .fail :: next => (none, { m with next := next })
  | .fresh :: next => (some zeroNode, { m with next := next })
  | .reuse k :: next =>
    match m.free[k]? with
    | some p => (some p, { free := m.free.eraseIdx k, next := next })
    | none => (some zeroNode, { m with next := next })

/-- `radix_tree_node_rcu_free`: what is left in a node that is handed back. -/
def nodeRcuFree : Ptr α w → Ptr α w
  | .node height _ slots tags =>
    .node height 0 (Function.update slots slot0 .null) fun t => Function.update (tags t) slot0 false
  | p => p

/-- `radix_tree_node_free`. -/
def nodeFree (m : Slab α w) (p : Ptr α w) : Slab α w :=
  { m with free := nodeRcuFree p :: m.free }

/-- The height for `index` that `radix_tree_extend` looks for from `height` on. -/
def findHeight (w bits index : Nat) : Nat → Nat → Nat
  | 0, height => height
  | fuel + 1, height =>
    if maxindex w bits height < index then findHeight w bits index fuel (height + 1) else height

/-- The loop of `radix_tree_extend`, for `n` more levels. The result tells whether there was
memory for all of them. -/
def extendLoop : Nat → RadixTreeRoot α w → Slab α w → RadixTreeRoot α w × Slab α w × Bool
  | 0, root, m => (root, m, true)
  | n + 1, root, m =>
    match nodeAlloc m with
    | (some (.node _ _ slots tags), m) =>
      let node := Ptr.node (root.height + 1) 1 (Function.update slots slot0 root.rnode)
        fun t => if root.tags t then Function.update (tags t) slot0 true else tags t
      extendLoop n { root with rnode := node, height := root.height + 1 } m
    | (_, m) => (root, m, false)

/-- `radix_tree_extend`. The search for the height never goes beyond `bits` levels. -/
def extend (bits : Nat) (root : RadixTreeRoot α w) (index : Nat) (m : Slab α w) :
    RadixTreeRoot α w × Slab α w × Bool :=
  let height := findHeight w bits index bits (root.height + 1)
  if root.rnode.isNull then ({ root with height := height }, m, true)
  else extendLoop (height - root.height) root m

/-- A node to go down into: the one in the slot, or a new one of the height. -/
def ensureNode (height : Nat) (slot : Ptr α w) (m : Slab α w) : Option (Ptr α w) × Slab α w :=
  match slot with
  | .null =>
    match nodeAlloc m with
    | (some (.node _ count slots tags), m) => (some (.node height count slots tags), m)
    | (p, m) => (p, m)
  | p => (some p, m)

/-- The loop of `radix_tree_insert` below a slot of the given height, with what it leaves in the
slot. Every node it adds is counted in the node above. -/
def insertDown (index : Nat) (x : α) : Nat → Ptr α w → Slab α w → Ptr α w × Slab α w × Result
  | 0, slot, m => if slot.isNull then (.item x, m, .ok) else (slot, m, .eexist)
  | h + 1, slot, m =>
    match ensureNode (h + 1) slot m with
    | (none, m) => (slot, m, .enomem)
    | (some (.node height count slots tags), m) =>
      let s := offset w h index
      let (child, m, result) := insertDown index x h (slots s) m
      let count := if (slots s).isNull && !child.isNull then count + 1 else count
      let result :=
        if h = 0 ∧ result = .ok ∧ (tags 0 s ∨ tags 1 s) then .bug else result
      (.node height count (Function.update slots s child) tags, m, result)
    | (some _, m) => (slot, m, .bug)

/-- `radix_tree_insert`. -/
def insert (bits : Nat) (root : RadixTreeRoot α w) (index : Nat) (x : α) (m : Slab α w) :
    RadixTreeRoot α w × Slab α w × Result :=
  let (root, m, extended) :=
    if maxindex w bits root.height < index then extend bits root index m else (root, m, true)
  if extended then
    let (rnode, m, result) := insertDown index x root.height root.rnode m
    let result :=
      if root.height = 0 ∧ result = .ok ∧ (root.tags 0 ∨ root.tags 1) then .bug else result
    ({ root with rnode := rnode }, m, result)
  else (root, m, .enomem)

/-- The loop of `radix_tree_lookup`. -/
def lookupDown (index : Nat) : Nat → Ptr α w → Option α
  | 0, .item x => some x
  | h + 1, .node _ _ slots _ => lookupDown index h (slots (offset w h index))
  | _, _ => none

/-- `radix_tree_lookup`. -/
def lookup (bits : Nat) (root : RadixTreeRoot α w) (index : Nat) : Option α :=
  match root.rnode with
  | .null => none
  | .item x => if 0 < index then none else some x
  | .node height count slots tags =>
    if maxindex w bits height < index then none
    else lookupDown index height (.node height count slots tags)

/-- The loop of `radix_tree_tag_set`; `none` is its `BUG_ON` for an item that is not there. -/
def tagSetDown (index : Nat) (t : Fin 2) : Nat → Ptr α w → Option (Ptr α w)
  | 0, slot => if slot.isNull then none else some slot
  | h + 1, .node height count slots tags =>
    let s := offset w h index
    (tagSetDown index t h (slots s)).map fun child =>
      .node height count (Function.update slots s child)
        (Function.update tags t (Function.update (tags t) s true))
  | _ + 1, _ => none

/-- `radix_tree_tag_set`. -/
def tagSet (bits : Nat) (root : RadixTreeRoot α w) (index : Nat) (t : Fin 2) :
    Option (RadixTreeRoot α w) :=
  if maxindex w bits root.height < index then none
  else if root.height = 0 ∧ root.rnode.isNull then some root
  else
    (tagSetDown index t root.height root.rnode).map fun rnode =>
      { root with rnode := rnode, tags := Function.update root.tags t true }

/-- The way back up of `radix_tree_tag_clear`, with whether it goes on above the slot. -/
def tagClearDown (index : Nat) (t : Fin 2) : Nat → Ptr α w → Ptr α w × Bool
  | h + 1, .node height count slots tags =>
    let s := offset w h index
    let (child, up) := tagClearDown index t h (slots s)
    let slots := Function.update slots s child
    if up && tags t s then
      let tags := Function.update tags t (Function.update (tags t) s false)
      let node := Ptr.node height count slots tags
      (node, !node.anyTagSet t)
    else (.node height count slots tags, false)
  | _, slot => (slot, true)

/-- `radix_tree_tag_clear`. -/
def tagClear (bits : Nat) (root : RadixTreeRoot α w) (index : Nat) (t : Fin 2) :
    RadixTreeRoot α w :=
  if maxindex w bits root.height < index then root
  else if (lookupDown index root.height root.rnode).isNone then root
  else
    let (rnode, up) := tagClearDown index t root.height root.rnode
    let tags := if up then Function.update root.tags t false else root.tags
    { root with rnode := rnode, tags := tags }

/-- `radix_tree_shrink`, from the height of the root; `none` is its `BUG_ON`. -/
def shrink : Nat → RadixTreeRoot α w → Slab α w → Option (RadixTreeRoot α w × Slab α w)
  | 0, root, m => some (root, m)
  | height + 1, root, m =>
    match root.rnode with
    | .node h count slots tags =>
      if count ≠ 1 then some (root, m)
      else if (slots slot0).isNull then some (root, m)
      else
        shrink height { root with rnode := slots slot0, height := height }
          (nodeFree m (.node h count slots tags))
    | _ => none

/-- What the climb of `radix_tree_delete` leaves of a slot: a node (or an item) that is no longer
in use, or one that is; and whether the climb ended at it. -/
inductive Removal (α : Type u) (w : Nat)
  | unused (p : Ptr α w)
  | kept (p : Ptr α w) (here : Bool)

/-- The tag test at the bottom of the path of `radix_tree_delete`. -/
def leafTag (index : Nat) (t : Fin 2) : Nat → Ptr α w → Bool
  | 1, .node _ _ _ tags => tags t (offset w 0 index)
  | h + 2, .node _ _ slots _ => leafTag index t (h + 1) (slots (offset w (h + 1) index))
  | _, _ => false

/-- The climb of `radix_tree_delete`. A node is freed once the slot it was in is cleared. -/
def removeUp (index : Nat) : Nat → Ptr α w → Slab α w → Removal α w × Slab α w
  | h + 1, .node height count slots tags, m =>
    let s := offset w h index
    match removeUp index h (slots s) m with
    | (.unused child, m) =>
      let m := if h = 0 then m else nodeFree m child
      let node := Ptr.node height (count - 1) (Function.update slots s .null) tags
      if count - 1 = 0 then (.unused node, m) else (.kept node true, m)
    | (.kept child _, m) =>
      (.kept (.node height count (Function.update slots s child) tags) false, m)
  | _, slot, m => (.unused slot, m)

/-- `radix_tree_delete` from where the item has been found. -/
def deleteFound (bits : Nat) (root : RadixTreeRoot α w) (index : Nat) (m : Slab α w) :
    Option (RadixTreeRoot α w × Slab α w) :=
  let root := if leafTag index 0 root.height root.rnode then tagClear bits root index 0 else root
  let root := if leafTag index 1 root.height root.rnode then tagClear bits root index 1 else root
  match removeUp index root.height root.rnode m with
  | (.unused node, m) => some (⟨0, fun _ => false, .null⟩, nodeFree m node)
  | (.kept node here, m) =>
    let root := { root with rnode := node }
    if here then shrink root.height root m else some (root, m)

/-- `radix_tree_delete`, with the item it returns. -/
def delete (bits : Nat) (root : RadixTreeRoot α w) (index : Nat) (m : Slab α w) :
    Option (RadixTreeRoot α w × Slab α w × Option α) :=
  if maxindex w bits root.height < index then some (root, m, none)
  else
    let found := lookupDown index root.height root.rnode
    if root.height = 0 then
      some ({ root with tags := fun _ => false, rnode := .null }, m, found)
    else if found.isNone then some (root, m, none)
    else (deleteFound bits root index m).map fun (root, m) => (root, m, found)

/-- `radix_tree_tagged`. -/
def tagged (root : RadixTreeRoot α w) (t : Fin 2) : Bool :=
  root.tags t

/-- The calls; an insertion comes with how its allocations go. -/
inductive Op (α : Type u)
  | insert (index : Nat) (x : α) (allocs : List Alloc)
  | delete (index : Nat)
  | tagSet (index : Nat) (t : Fin 2)
  | tagClear (index : Nat) (t : Fin 2)

/-- What a call reports. -/
inductive Outcome (α : Type u)
  | inserted (result : Result)
  | deleted (item : Option α)
  | done

/-- The tree and the nodes handed back. -/
structure State (α : Type u) (w : Nat) where
  root : RadixTreeRoot α w
  free : List (Ptr α w)

/-- An empty tree. -/
def State.initial : State α w :=
  ⟨⟨0, fun _ => false, .null⟩, []⟩

/-- What a call does; `none` is a `BUG_ON`. -/
def run (bits : Nat) (s : State α w) : Op α → Option (State α w × Outcome α)
  | .insert index x allocs =>
    let (root, m, result) := insert bits s.root index x ⟨s.free, allocs⟩
    if result = .bug then none else some (⟨root, m.free⟩, .inserted result)
  | .delete index =>
    (delete bits s.root index ⟨s.free, []⟩).map fun (root, m, item) =>
      (⟨root, m.free⟩, .deleted item)
  | .tagSet index t => (tagSet bits s.root index t).map fun root => (⟨root, s.free⟩, .done)
  | .tagClear index t => some (⟨tagClear bits s.root index t, s.free⟩, .done)

end AndroidKernel.RadixTree
