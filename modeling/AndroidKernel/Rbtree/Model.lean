import AndroidKernel.Library.RedBlack
import AndroidKernel.Library.Runs

/-!
# The red-black tree library

`rb_insert_color`, `rb_erase`, what they call, and the walks, over nodes linked by pointers. A
pointer is an `Option`; following a null pointer is a `Crash`. The two mirrored halves of each
function are one definition with the side as a parameter.
-/

namespace AndroidKernel.Rbtree

open Library

universe u

/-- How a call can fail to return. -/
inductive Crash
  | nullPointer
  | endlessLoop
  deriving DecidableEq

/-- `struct rb_node`, with `rb_parent_color` taken apart. -/
structure RbNode (α : Type u) where
  parent : Option α
  color : Color
  left : Option α
  right : Option α

/-- The child on a side. -/
def RbNode.child {α : Type u} (d : Side) (n : RbNode α) : Option α :=
  match d with
  | .left => n.left
  | .right => n.right

/-- Writes the child on a side. -/
def RbNode.setChild {α : Type u} (d : Side) (child : Option α) (n : RbNode α) : RbNode α :=
  match d with
  | .left => { n with left := child }
  | .right => { n with right := child }

/-- Writes the parent and keeps the colour. -/
def RbNode.setParent {α : Type u} (parent : Option α) (n : RbNode α) : RbNode α :=
  { n with parent := parent }

/-- Writes the colour and keeps the parent. -/
def RbNode.setColor {α : Type u} (c : Color) (n : RbNode α) : RbNode α :=
  { n with color := c }

/-- `struct rb_root`, with the memory its nodes are in. -/
structure RbRoot (α : Type u) where
  nodes : α → RbNode α
  rbNode : Option α

variable {α : Type u}

/-- A pointer that is followed. -/
def deref (p : Option α) : Except Crash α :=
  match p with
  | none => .error .nullPointer
  | some x => .ok x

namespace RbRoot

variable [DecidableEq α]

/-- Changes one node. -/
def modify (h : RbRoot α) (x : α) (f : RbNode α → RbNode α) : RbRoot α :=
  { h with nodes := Function.update h.nodes x (f (h.nodes x)) }

/-- `rb_set_color`, and with it `rb_set_red` and `rb_set_black`. -/
def setColor (h : RbRoot α) (x : α) (c : Color) : RbRoot α :=
  h.modify x (RbNode.setColor c)

/-- `rb_set_parent`. -/
def setParent (h : RbRoot α) (x : α) (parent : Option α) : RbRoot α :=
  h.modify x (RbNode.setParent parent)

/-- Writes a child pointer of a node. -/
def setChild (h : RbRoot α) (d : Side) (x : α) (child : Option α) : RbRoot α :=
  h.modify x (RbNode.setChild d child)

/-- `if (p) rb_set_parent(p, parent)`. -/
def setParentIf (h : RbRoot α) (p : Option α) (parent : Option α) : RbRoot α :=
  match p with
  | none => h
  | some x => h.setParent x parent

/-- `if (p) rb_set_black(p)`. -/
def setBlackIf (h : RbRoot α) (p : Option α) : RbRoot α :=
  match p with
  | none => h
  | some x => h.setColor x .black

/-- `!p || rb_is_black(p)`. -/
def isBlack (h : RbRoot α) (p : Option α) : Bool :=
  match p with
  | none => true
  | some x => (h.nodes x).color = .black

/-- Makes the pointer to `node` in its parent, or in the root, a pointer to `new`. The child of
the parent on side `d` is tested. -/
def replaceChild (h : RbRoot α) (d : Side) (parent : Option α) (node : α) (new : Option α) :
    RbRoot α :=
  match parent with
  | some p =>
    if (h.nodes p).child d = some node then h.setChild d p new else h.setChild d.other p new
  | none => { h with rbNode := new }

/-- A rotation that takes `node` down to side `d`. -/
def rotate (h : RbRoot α) (d : Side) (node : α) : Except Crash (RbRoot α) := do
  let up ← deref ((h.nodes node).child d.other)
  let parent := (h.nodes node).parent
  let inner := (h.nodes up).child d
  let h := h.setChild d.other node inner
  let h := h.setParentIf inner (some node)
  let h := h.setChild d up (some node)
  let h := h.setParent up parent
  let h := h.replaceChild d parent node (some up)
  return h.setParent node (some up)

/-- `__rb_rotate_left`. -/
def rbRotateLeft (h : RbRoot α) (node : α) : Except Crash (RbRoot α) :=
  h.rotate .left node

/-- `__rb_rotate_right`. -/
def rbRotateRight (h : RbRoot α) (node : α) : Except Crash (RbRoot α) :=
  h.rotate .right node

/-- `rb_link_node`, where `rb_link` is the child pointer of `parent` on side `d`, or the root
pointer. -/
def rbLinkNode (h : RbRoot α) (node : α) (parent : Option α) (d : Side) : RbRoot α :=
  let h := h.modify node fun _ => ⟨parent, .red, none, none⟩
  match parent with
  | some p => h.setChild d p (some node)
  | none => { h with rbNode := some node }

/-- A round of `rb_insert_color` with `parent` on side `d` of `gparent`: the node of the next
round. -/
def insertRound (h : RbRoot α) (d : Side) (node parent gparent : α) :
    Except Crash (RbRoot α × α) := do
  let uncle := (h.nodes gparent).child d.other
  if h.isBlack uncle then
    let (h, node, parent) ←
      if (h.nodes parent).child d.other = some node then
        let h ← h.rotate d parent
        pure (h, parent, node)
      else
        pure (h, node, parent)
    let h := h.setColor parent .black
    let h := h.setColor gparent .red
    let h ← h.rotate d.other gparent
    return (h, node)
  else
    let h := h.setBlackIf uncle
    let h := h.setColor parent .black
    let h := h.setColor gparent .red
    return (h, gparent)

/-- The loop of `rb_insert_color`. -/
def insertLoop : Nat → RbRoot α → α → Except Crash (RbRoot α)
  | 0, _, _ => .error .endlessLoop
  | fuel + 1, h, node =>
    match (h.nodes node).parent with
    | none => .ok h
    | some parent =>
      if (h.nodes parent).color = .red then do
        let gparent ← deref (h.nodes parent).parent
        let d := if (h.nodes gparent).left = some parent then Side.left else Side.right
        let (h, node) ← h.insertRound d node parent gparent
        insertLoop fuel h node
      else .ok h

/-- `rb_insert_color`. -/
def rbInsertColor (fuel : Nat) (h : RbRoot α) (node : α) : Except Crash (RbRoot α) := do
  let h ← h.insertLoop fuel node
  let top ← deref h.rbNode
  return h.setColor top .black

/-- The first part of a round of `__rb_erase_color`: a red sibling is rotated away. Returns the
sibling that is there afterwards. -/
def eraseRedSibling (h : RbRoot α) (d : Side) (parent : α) : Except Crash (RbRoot α × α) := do
  let other ← deref ((h.nodes parent).child d.other)
  if (h.nodes other).color = .red then
    let h := h.setColor other .black
    let h := h.setColor parent .red
    let h ← h.rotate d parent
    let other ← deref ((h.nodes parent).child d.other)
    return (h, other)
  else
    return (h, other)

/-- The last part of a round of `__rb_erase_color`, where the sibling has a red child: its outer
child is made red if it is not, and a rotation ends the loop. -/
def eraseRotate (h : RbRoot α) (d : Side) (parent other : α) : Except Crash (RbRoot α) := do
  let (h, other) ←
    if h.isBlack ((h.nodes other).child d.other) then
      let h := h.setBlackIf ((h.nodes other).child d)
      let h := h.setColor other .red
      let h ← h.rotate d.other other
      let other ← deref ((h.nodes parent).child d.other)
      pure (h, other)
    else
      pure (h, other)
  let h := h.setColor other (h.nodes parent).color
  let h := h.setColor parent .black
  let h := h.setBlackIf ((h.nodes other).child d.other)
  h.rotate d parent

/-- A round of `__rb_erase_color` for the child of `parent` on side `d`; it returns whether the
loop goes on, with `parent` as its node. -/
def eraseRound (h : RbRoot α) (d : Side) (parent : α) : Except Crash (RbRoot α × Bool) := do
  let (h, other) ← h.eraseRedSibling d parent
  if h.isBlack (h.nodes other).left && h.isBlack (h.nodes other).right then
    return (h.setColor other .red, true)
  else
    let h ← h.eraseRotate d parent other
    return (h, false)

/-- The loop of `__rb_erase_color`, with the node it ends at. -/
def eraseLoop : Nat → RbRoot α → Option α → Option α → Except Crash (RbRoot α × Option α)
  | 0, _, _, _ => .error .endlessLoop
  | fuel + 1, h, node, parent =>
    if h.isBlack node && node ≠ h.rbNode then do
      let parent ← deref parent
      let d := if (h.nodes parent).left = node then Side.left else Side.right
      let (h, again) ← h.eraseRound d parent
      if again then
        eraseLoop fuel h (some parent) (h.nodes parent).parent
      else
        return (h, h.rbNode)
    else
      .ok (h, node)

/-- `__rb_erase_color`. -/
def rbEraseColor (fuel : Nat) (h : RbRoot α) (node parent : Option α) :
    Except Crash (RbRoot α) := do
  let (h, node) ← h.eraseLoop fuel node parent
  return h.setBlackIf node

/-- The loop of `rb_erase` down the left children. -/
def leftmost : Nat → RbRoot α → α → Except Crash α
  | 0, _, _ => .error .endlessLoop
  | fuel + 1, h, node =>
    match (h.nodes node).left with
    | none => .ok node
    | some left => leftmost fuel h left

/-- The end of `rb_erase` from the label `color` on. -/
def eraseFinish (fuel : Nat) (h : RbRoot α) (color : Color) (child parent : Option α) :
    Except Crash (RbRoot α) :=
  if color = .black then h.rbEraseColor fuel child parent else .ok h

/-- `rb_erase` of a node with at most one child. -/
def eraseSingle (fuel : Nat) (h : RbRoot α) (node : α) (child : Option α) :
    Except Crash (RbRoot α) :=
  let parent := (h.nodes node).parent
  let color := (h.nodes node).color
  let h := h.setParentIf child parent
  let h := h.replaceChild .left parent node child
  eraseFinish fuel h color child parent

/-- `rb_erase` of a node with two children: its successor is cut out and takes its place. -/
def eraseDouble (fuel : Nat) (h : RbRoot α) (old right : α) : Except Crash (RbRoot α) := do
  let node ← h.leftmost fuel right
  let child := (h.nodes node).right
  let parent ← deref (h.nodes node).parent
  let color := (h.nodes node).color
  let h := h.setParentIf child (some parent)
  let (h, parent) :=
    if parent = old then (h.setChild .right parent child, node)
    else (h.setChild .left parent child, parent)
  let h := h.modify node fun _ => h.nodes old
  let h := h.replaceChild .left (h.nodes old).parent old (some node)
  let left ← deref (h.nodes old).left
  let h := h.setParent left (some node)
  let h := h.setParentIf (h.nodes old).right (some node)
  eraseFinish fuel h color child (some parent)

/-- `rb_erase`. -/
def rbErase (fuel : Nat) (h : RbRoot α) (node : α) : Except Crash (RbRoot α) :=
  match (h.nodes node).left, (h.nodes node).right with
  | none, right => eraseSingle fuel h node right
  | some left, none => eraseSingle fuel h node (some left)
  | some _, some right => eraseDouble fuel h node right

/-- A loop down the children on a side. -/
def descend (h : RbRoot α) (d : Side) : Nat → α → Except Crash (Option α)
  | 0, _ => .error .endlessLoop
  | fuel + 1, node =>
    match (h.nodes node).child d with
    | none => .ok node
    | some child => h.descend d fuel child

/-- A loop up from the children on a side. -/
def climb (h : RbRoot α) (d : Side) : Nat → α → Except Crash (Option α)
  | 0, _ => .error .endlessLoop
  | fuel + 1, node =>
    match (h.nodes node).parent with
    | none => .ok none
    | some parent =>
      if (h.nodes parent).child d = some node then h.climb d fuel parent else .ok parent

/-- The last node on a side. -/
def extreme (h : RbRoot α) (d : Side) (fuel : Nat) : Except Crash (Option α) :=
  match h.rbNode with
  | none => .ok none
  | some n => h.descend d fuel n

/-- `rb_first`. -/
def rbFirst (fuel : Nat) (h : RbRoot α) : Except Crash (Option α) :=
  h.extreme .left fuel

/-- `rb_last`. -/
def rbLast (fuel : Nat) (h : RbRoot α) : Except Crash (Option α) :=
  h.extreme .right fuel

/-- The next node towards a side. -/
def neighbour (h : RbRoot α) (d : Side) (fuel : Nat) (node : α) : Except Crash (Option α) :=
  if (h.nodes node).parent = some node then .ok none
  else
    match (h.nodes node).child d with
    | some child => h.descend d.other fuel child
    | none => h.climb d fuel node

/-- `rb_next`. -/
def rbNext (fuel : Nat) (h : RbRoot α) (node : α) : Except Crash (Option α) :=
  h.neighbour .right fuel node

/-- `rb_prev`. -/
def rbPrev (fuel : Nat) (h : RbRoot α) (node : α) : Except Crash (Option α) :=
  h.neighbour .left fuel node

end RbRoot

/-- The nodes that can be reached from the root. -/
inductive InTree (h : RbRoot α) : α → Prop
  | root {x : α} (hroot : h.rbNode = some x) : InTree h x
  | child {x y : α} (d : Side) (hx : InTree h x) (hchild : (h.nodes x).child d = some y) :
      InTree h y

/-- The calls: linking a node and balancing, and erasing a node. -/
inductive Op (α : Type u)
  | insert (node : α) (parent : Option α) (d : Side)
  | erase (node : α)

/-- What a call does, with `fuel` rounds for each loop. -/
def run [DecidableEq α] (fuel : Nat) (h : RbRoot α) : Op α → Except Crash (RbRoot α)
  | .insert node parent d => (h.rbLinkNode node parent d).rbInsertColor fuel node
  | .erase node => h.rbErase fuel node

/-- Whether a call may be made: a node that is not in the tree is linked at an empty place, and
a node that is in the tree is erased. -/
def enabled (h : RbRoot α) : Op α → Prop
  | .insert node none _ => ¬ InTree h node ∧ h.rbNode = none
  | .insert node (some p) d => ¬ InTree h node ∧ InTree h p ∧ (h.nodes p).child d = none
  | .erase node => InTree h node

/-- A call that may be made ends in `h'`, however much fuel it has beyond what it needs. -/
def Step [DecidableEq α] (h : RbRoot α) (op : Op α) (h' : RbRoot α) : Prop :=
  enabled h op ∧ ∃ bound, ∀ fuel, bound ≤ fuel → run fuel h op = .ok h'

end AndroidKernel.Rbtree
