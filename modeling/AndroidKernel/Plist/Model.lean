import AndroidKernel.Library.CircularLists

/-!
# Descending-priority-sorted lists

A `plist` has two circular lists on one head: the nodes in the order of their priorities, and the
first node of each priority, which an insertion goes through. The model keeps the links of both
lists for the head and all nodes, and changes them as `plist.c` does.
-/

namespace AndroidKernel.Plist

open Library

universe u

/-- What a link points to: the list head, or the embedded list entries of a node. -/
inductive Ptr (Node : Type u) where
  | head
  | node (n : Node)
  deriving DecidableEq

/-- The priorities of all nodes, and the links of the head and all nodes in both lists. -/
structure State (Node : Type u) where
  prio : Node → Int
  prioList : Links (Ptr Node)
  nodeList : Links (Ptr Node)

namespace State

variable {Node : Type u} [DecidableEq Node] (s : State Node)

/-- An initialised head, and initialised nodes with some priorities. -/
def init (prio : Node → Int) : State Node where
  prio := prio
  prioList := ⟨id, id⟩
  nodeList := ⟨id, id⟩

/-- `plist_node_init`. -/
def plistNodeInit (n : Node) (prio : Int) : State Node where
  prio := Function.update s.prio n prio
  prioList := s.prioList.initHead (.node n)
  nodeList := s.nodeList.initHead (.node n)

/-- `plist_node_empty`: the node is not on a list. -/
def plistNodeEmpty (n : Node) : Bool :=
  s.nodeList.isEmpty (.node n)

/-- `plist_first`: the entry next to the head. -/
def plistFirst : Ptr Node :=
  s.nodeList.next .head

/-- The loop of `plist_add`, from the entry `iter` of the priority list on: the entry that the new
node goes before, and whether it does so in the priority list, too. -/
def addLoop (prio : Int) : Nat → Ptr Node → Option (Bool × Ptr Node)
  | 0, _ => none
  | _ + 1, .head => some (true, .head)
  | fuel + 1, .node iter =>
    if prio < s.prio iter then
      some (true, .node iter)
    else if prio = s.prio iter then
      some (false, s.prioList.next (.node iter))
    else
      addLoop prio fuel (s.prioList.next (.node iter))

/-- `plist_add`. -/
def plistAdd (fuel : Nat) (n : Node) : Option (State Node) := do
  let (ltPrio, iter) ← s.addLoop (s.prio n) fuel (s.prioList.next .head)
  pure {
    s with
    prioList := if ltPrio then s.prioList.addTail (.node n) iter else s.prioList
    nodeList := s.nodeList.addTail (.node n) iter }

/-- `plist_del`. The entry after the node takes its place in the priority list first. -/
def plistDel (n : Node) : State Node where
  prio := s.prio
  prioList :=
    if s.prioList.isEmpty (.node n) then s.prioList
    else (s.prioList.moveTail (s.nodeList.next (.node n)) (.node n)).delInit (.node n)
  nodeList := s.nodeList.delInit (.node n)

end State

/-- A run on one list: nodes that are not on it are initialised or added, and nodes on it are
deleted. `added` are the nodes on the list in the order in which they were added. -/
inductive Run {Node : Type u} [DecidableEq Node] : State Node → List Node → Prop where
  | init (prio : Node → Int) : Run (State.init prio) []
  | nodeInit {s added} (n : Node) (prio : Int) : Run s added → s.plistNodeEmpty n →
      Run (s.plistNodeInit n prio) added
  | add {s s' added fuel} (n : Node) : Run s added → s.plistNodeEmpty n →
      s.plistAdd fuel n = some s' → Run s' (added ++ [n])
  | del {s added} (n : Node) : Run s added → ¬ s.plistNodeEmpty n →
      Run (s.plistDel n) (added.erase n)

end AndroidKernel.Plist
