import AndroidKernel.Library.LinkedLists
import Mathlib.Data.List.Sort

/-!
# Binder objects, nodes and references

The object graph of the binder driver: processes, threads, nodes, references, death
notifications, transactions and buffers, and the functions that count references. An object
is named by an identifier that is never used again, so a name that no longer resolves is a
pointer to freed memory. Reading through such a pointer, a null pointer or a failing `BUG_ON`
stops the machine: the first one is recorded in `crashed`. Counters are the unbounded
integers that `int` stands for below its overflow.
-/

namespace AndroidKernel.Binder

open Library

/-- The name of an object: its address, never handed out twice. -/
abbrev Id := Nat

/-- Heads of the lists that work items are linked into. -/
inductive ListHead
  | procTodo (p : Id)
  | threadTodo (th : Id)
  | asyncTodo (n : Id)
  | deliveredDeath (p : Id)
  deriving DecidableEq

/-- `struct binder_work`, by the object it is embedded in. -/
inductive Work
  | transaction (t : Id)
  | transactionComplete (c : Id)
  | node (n : Id)
  | death (d : Id)
  deriving DecidableEq

/-- `work.type` of a death notification. -/
inductive DeathType
  | unset
  | deadBinder
  | deadBinderAndClear
  | clearDeathNotification
  deriving DecidableEq

/-- The `BR_*` codes that `thread->return_error` holds. -/
inductive ReturnError
  | ok
  | failedReply
  | deadReply
  | transactionComplete
  | error
  deriving DecidableEq

/-- The assertions of the driver that the model evaluates. -/
inductive Assertion
  | getRefForNode
  | popTransactionStack
  | popTransactionFrom
  | sendFailedReplyOneWay
  | transactionReturnError
  | freeBufferAsync
  | clearDeathType
  | readBuffer
  | freeThread
  | deferredReleaseDeath
  deriving DecidableEq

/-- Why the machine stopped. -/
inductive Crash
  | bug (a : Assertion)
  | freedNode
  | freedRef
  | freedThread
  | freedTransaction
  | freedBuffer
  | freedDeath
  | nullPointer
  | endlessLoop
  deriving DecidableEq

/-- `struct binder_node`; `refs` is its hash list of references. -/
structure Node where
  proc : Option Id
  ptr : Nat
  cookie : Nat
  acceptFds : Bool
  refs : List Id
  internalStrongRefs : Int
  localWeakRefs : Int
  localStrongRefs : Int
  hasStrongRef : Bool
  pendingStrongRef : Bool
  hasWeakRef : Bool
  pendingWeakRef : Bool
  hasAsyncTransaction : Bool
  deriving DecidableEq

/-- `struct binder_ref`. -/
structure Ref where
  proc : Id
  node : Id
  desc : Nat
  strong : Int
  weak : Int
  death : Option Id
  deriving DecidableEq

/-- `struct binder_ref_death`. -/
structure Death where
  cookie : Nat
  type : DeathType
  deriving DecidableEq

/-- `struct binder_transaction`, with the two flag bits the driver reads. -/
structure Transaction where
  sender : Option Id
  fromParent : Option Id
  toProc : Option Id
  toThread : Option Id
  toParent : Option Id
  needReply : Bool
  buffer : Option Id
  oneWay : Bool
  acceptFds : Bool
  deriving DecidableEq

/-- `struct binder_buffer` while allocated: `data` are the 32-bit words of the payload. -/
structure Buffer where
  proc : Id
  allowUserFree : Bool
  asyncTransaction : Bool
  transaction : Option Id
  targetNode : Option Id
  dataSize : Nat
  data : Nat → Nat
  offsets : List Nat

/-- `struct binder_thread`. `looper` is whether it registered or entered as a looper, and
`reading` is `wait_for_proc_work` while the thread is inside `binder_thread_read`. -/
structure Thread where
  proc : Id
  pid : Nat
  looper : Bool
  transactionStack : Option Id
  returnError : ReturnError
  returnError2 : ReturnError
  reading : Option Bool
  deriving DecidableEq

/-- `struct binder_proc`: each tree is the list of its members in the tree's order. -/
structure Proc where
  live : Bool
  threads : List Id
  nodes : List Id
  refsByDesc : List Id
  refsByNode : List Id
  allocatedBuffers : List Id
  deriving DecidableEq

/-- A process structure that is not in use. -/
def Proc.unused : Proc := ⟨false, [], [], [], [], []⟩

/-- What the history of a run records of death notifications. -/
inductive DeathEvent
  | requested (d : Id)
  | queued (d : Id)
  | deadBinder (d : Id)
  | acknowledged (d : Id)
  | cleared (d : Id)
  | clearDone (d : Id)
  deriving DecidableEq

/-- The call that frees a node. -/
inductive FreedBy
  | decNode
  | nodeWork
  | deferredRelease
  deriving DecidableEq

/-- The driver's state. The last three fields are ghosts, newest first: each node as it was
when it was freed, the references without counts on which `binder_inc_ref` failed, and the
death notification events. -/
structure State where
  procs : Id → Proc
  threads : Id → Option Thread
  nodes : Id → Option Node
  refs : Id → Option Ref
  deaths : Id → Option Death
  transactions : Id → Option Transaction
  buffers : Id → Option Buffer
  lists : LinkedLists ListHead Work
  contextMgrNode : Option Id
  contextMgrUid : Option Nat
  lastId : Nat
  crashed : Option Crash
  freedNodes : List (Id × Node × FreedBy)
  refused : List Id
  history : List DeathEvent

/-- The driver as `binder_init` leaves it. -/
def State.initial : State where
  procs _ := Proc.unused
  threads _ := none
  nodes _ := none
  refs _ := none
  deaths _ := none
  transactions _ := none
  buffers _ := none
  lists := LinkedLists.empty
  contextMgrNode := none
  contextMgrUid := none
  lastId := 0
  crashed := none
  freedNodes := []
  refused := []
  history := []

namespace State

/-- Stops the machine; the first reason stays. -/
def crash (s : State) (c : Crash) : State :=
  { s with crashed := s.crashed <|> some c }

/-- Writes a process structure. -/
def setProc (s : State) (p : Id) (x : Proc) : State :=
  { s with procs := Function.update s.procs p x }

/-- Writes or frees a node. -/
def setNode (s : State) (n : Id) (x : Option Node) : State :=
  { s with nodes := Function.update s.nodes n x }

/-- Writes or frees a reference. -/
def setRef (s : State) (r : Id) (x : Option Ref) : State :=
  { s with refs := Function.update s.refs r x }

/-- Writes or frees a death notification. -/
def setDeath (s : State) (d : Id) (x : Option Death) : State :=
  { s with deaths := Function.update s.deaths d x }

/-- Writes or frees a transaction. -/
def setTransaction (s : State) (t : Id) (x : Option Transaction) : State :=
  { s with transactions := Function.update s.transactions t x }

/-- Writes or frees a buffer. -/
def setBuffer (s : State) (b : Id) (x : Option Buffer) : State :=
  { s with buffers := Function.update s.buffers b x }

/-- Writes or frees a thread. -/
def setThread (s : State) (th : Id) (x : Option Thread) : State :=
  { s with threads := Function.update s.threads th x }

/-- `list_add_tail` or `list_move_tail`. -/
def listAddTail (s : State) (q : ListHead) (w : Work) : State :=
  { s with lists := s.lists.addTail q w }

/-- `list_move`. -/
def listMove (s : State) (q : ListHead) (w : Work) : State :=
  { s with lists := s.lists.addHead q w }

/-- `list_del` or `list_del_init`. -/
def listDel (s : State) (w : Work) : State :=
  { s with lists := s.lists.del w }

/-- `list_empty` of a work item's own entry. -/
def unlinked (s : State) (w : Work) : Bool :=
  (s.lists.home w).isNone

/-- Appends to the history. -/
def note (s : State) (e : DeathEvent) : State :=
  { s with history := e :: s.history }

end State

/-! ## Nodes -/

/-- `ptr` of a node, the key of `proc->nodes`. -/
def State.nodePtr (s : State) (n : Id) : Nat :=
  (s.nodes n).elim 0 Node.ptr

/-- Looks a user pointer up in `proc->nodes`. -/
def binderGetNode (s : State) (p : Id) (ptr : Nat) : Option Id :=
  (s.procs p).nodes.find? fun n => (s.nodes n).any fun node => node.ptr = ptr

/-- A node without references or counts. -/
def Node.fresh (p ptr cookie : Nat) (acceptFds : Bool) : Node where
  proc := some p
  ptr := ptr
  cookie := cookie
  acceptFds := acceptFds
  refs := []
  internalStrongRefs := 0
  localWeakRefs := 0
  localStrongRefs := 0
  hasStrongRef := false
  pendingStrongRef := false
  hasWeakRef := false
  pendingWeakRef := false
  hasAsyncTransaction := false

/-- Links a new node into `proc->nodes`. -/
def linkNode (p : Id) (node : Node) (s : State) : State :=
  let n := s.lastId + 1
  let s := { s with lastId := n }.setNode n (some node)
  let proc := s.procs p
  let nodes := proc.nodes.orderedInsert (fun a b => s.nodePtr a ≤ s.nodePtr b) n
  s.setProc p { proc with nodes }

/-- Makes a node for `ptr`; fails on a present key or without memory. `acceptFds` is the flag
its caller sets on it next. -/
def binderNewNode (p : Id) (ptr cookie : Nat) (acceptFds memory : Bool) (s : State) :
    State × Option Id :=
  match binderGetNode s p ptr with
  | some _ => (s, none)
  | none =>
    if memory then (linkNode p (.fresh p ptr cookie acceptFds) s, some (s.lastId + 1))
    else (s, none)

/-- The node with one count more; an internal weak count is the reference itself. -/
def Node.incremented (node : Node) (strong internal : Bool) : Node :=
  if strong then
    if internal then { node with internalStrongRefs := node.internalStrongRefs + 1 }
    else { node with localStrongRefs := node.localStrongRefs + 1 }
  else if internal then node
  else { node with localWeakRefs := node.localWeakRefs + 1 }

/-- Takes one count on a node. The second component is whether the call returned zero; a weak
local count is taken even when it did not. -/
def binderIncNode (n : Id) (strong internal : Bool) (targetList : Option ListHead) (s : State) :
    State × Bool :=
  match s.nodes n with
  | none => (s.crash .freedNode, false)
  | some node =>
    let s' := s.setNode n (some (node.incremented strong internal))
    if strong then
      if internal ∧ targetList = none ∧ node.internalStrongRefs = 0 ∧
          ¬(s.contextMgrNode = some n ∧ node.hasStrongRef) then
        (s, false)
      else
        match targetList with
        | some q => (if node.hasStrongRef then s' else s'.listAddTail q (.node n), true)
        | none => (s', true)
    else if node.hasWeakRef = false ∧ s.unlinked (.node n) then
      match targetList with
      | some q => (s'.listAddTail q (.node n), true)
      | none => (s', false)
    else (s', true)

/-- Frees a node: off its list, out of its process's tree, and recorded. -/
def freeNode (n : Id) (node : Node) (by_ : FreedBy) (s : State) : State :=
  let s := s.listDel (.node n)
  let s :=
    match node.proc with
    | some p => s.setProc p { s.procs p with nodes := (s.procs p).nodes.erase n }
    | none => s
  { s.setNode n none with freedNodes := (n, node, by_) :: s.freedNodes }

/-- The node with one count less, as the first half of `binder_dec_node` writes it. -/
def Node.decremented (node : Node) (strong internal : Bool) : Node :=
  if strong then
    if internal then { node with internalStrongRefs := node.internalStrongRefs - 1 }
    else { node with localStrongRefs := node.localStrongRefs - 1 }
  else if internal then node
  else { node with localWeakRefs := node.localWeakRefs - 1 }

/-- Whether counts of the same strength are left after a decrement. -/
def Node.stillHeld (node : Node) (strong : Bool) : Bool :=
  if strong then node.localStrongRefs ≠ 0 || node.internalStrongRefs ≠ 0
  else node.localWeakRefs ≠ 0 || !node.refs.isEmpty

/-- Drops one count on a node: the process is told, or an unused node is freed. -/
def binderDecNode (n : Id) (strong internal : Bool) (s : State) : State :=
  match s.nodes n with
  | none => s.crash .freedNode
  | some node =>
    let node := node.decremented strong internal
    let s := s.setNode n (some node)
    if node.stillHeld strong then s
    else
      match node.proc, node.hasStrongRef || node.hasWeakRef with
      | some p, true =>
        if s.unlinked (.node n) then s.listAddTail (.procTodo p) (.node n) else s
      | _, _ =>
        if node.refs.isEmpty ∧ node.localStrongRefs = 0 ∧ node.localWeakRefs = 0 then
          freeNode n node .decNode s
        else s

/-! ## References -/

/-- `desc` of a reference, the key of `proc->refs_by_desc`. -/
def State.refDesc (s : State) (r : Id) : Nat :=
  (s.refs r).elim 0 Ref.desc

/-- Looks a handle up in `proc->refs_by_desc`. -/
def binderGetRef (s : State) (p : Id) (desc : Nat) : Option Id :=
  (s.procs p).refsByDesc.find? fun r => (s.refs r).any fun ref => ref.desc = desc

/-- The scan for a free descriptor over the descriptors in ascending order. -/
def scanDesc (start : Nat) : List Nat → Nat
  | [] => start
  | desc :: rest => if desc > start then start else scanDesc (desc + 1) rest

/-- Links a new reference without counts into both trees and its node's list. -/
def linkRef (p n desc : Nat) (node : Node) (s : State) : State :=
  let r := s.lastId + 1
  let proc := s.procs p
  let ref : Ref := { proc := p, node := n, desc, strong := 0, weak := 0, death := none }
  let s := { s with lastId := r }.setRef r (some ref)
  let refsByDesc := proc.refsByDesc.orderedInsert (fun a b => s.refDesc a ≤ s.refDesc b) r
  let s := s.setProc p { proc with refsByDesc, refsByNode := r :: proc.refsByNode }
  s.setNode n (some { node with refs := r :: node.refs })

/-- The process's reference to a node. -/
def findRef (s : State) (p n : Id) : Option Id :=
  (s.procs p).refsByNode.find? fun r => (s.refs r).any fun ref => ref.node = n

/-- Finds the process's reference to a node or makes one. -/
def binderGetRefForNode (p n : Id) (memory : Bool) (s : State) : State × Option Id :=
  match findRef s p n with
  | some r => (s, some r)
  | none =>
    if memory then
      match s.nodes n with
      | none => (s.crash .freedNode, none)
      | some node =>
        let descs := (s.procs p).refsByDesc.map s.refDesc
        let desc := scanDesc (if s.contextMgrNode = some n then 0 else 1) descs
        if desc ∈ descs then (s.crash (.bug .getRefForNode), none)
        else (linkRef p n desc node s, some (s.lastId + 1))
    else (s, none)

/-- Frees the death notification of a reference. -/
def freeDeath (death : Option Id) (s : State) : State :=
  match death with
  | some d => (s.listDel (.death d)).setDeath d none
  | none => s

/-- `hlist_del(&ref->node_entry)`. -/
def unlinkRef (r n : Id) (s : State) : State :=
  match s.nodes n with
  | none => s.crash .freedNode
  | some node => s.setNode n (some { node with refs := node.refs.erase r })

/-- Takes a reference out of both trees and off its node, with its death notification. -/
def binderDeleteRef (r : Id) (s : State) : State :=
  match s.refs r with
  | none => s.crash .freedRef
  | some ref =>
    let proc := s.procs ref.proc
    let s := s.setProc ref.proc
      { proc with refsByDesc := proc.refsByDesc.erase r, refsByNode := proc.refsByNode.erase r }
    let s := if ref.strong ≠ 0 then binderDecNode ref.node true true s else s
    let s := unlinkRef r ref.node s
    let s := binderDecNode ref.node false true s
    (freeDeath ref.death s).setRef r none

/-- The count of one strength. -/
def Ref.count (ref : Ref) (strong : Bool) : Int :=
  if strong then ref.strong else ref.weak

/-- A reference with one count more. -/
def Ref.incremented (ref : Ref) (strong : Bool) : Ref :=
  if strong then { ref with strong := ref.strong + 1 } else { ref with weak := ref.weak + 1 }

/-- A reference with one count less. -/
def Ref.decremented (ref : Ref) (strong : Bool) : Ref :=
  if strong then { ref with strong := ref.strong - 1 } else { ref with weak := ref.weak - 1 }

/-- Records that a reference was left without any count. -/
def State.refuse (s : State) (r : Id) (ref : Ref) : State :=
  if ref.strong = 0 ∧ ref.weak = 0 then { s with refused := r :: s.refused } else s

/-- Takes a count on a reference; the first one of its strength takes one on the node. The
second component is whether the call returned zero. -/
def binderIncRef (r : Id) (strong : Bool) (targetList : Option ListHead) (s : State) :
    State × Bool :=
  match s.refs r with
  | none => (s.crash .freedRef, false)
  | some ref =>
    let (s, ok) :=
      if ref.count strong = 0 then binderIncNode ref.node strong true targetList s else (s, true)
    if ok then (s.setRef r (some (ref.incremented strong)), true)
    else (s.refuse r ref, false)

/-- Drops a count on a reference, and the reference with its last count. -/
def binderDecRef (r : Id) (strong : Bool) (s : State) : State :=
  match s.refs r with
  | none => s.crash .freedRef
  | some ref =>
    if ref.count strong = 0 then s
    else
      let ref := ref.decremented strong
      let s := s.setRef r (some ref)
      let s := if strong ∧ ref.strong = 0 then binderDecNode ref.node true true s else s
      if ref.strong = 0 ∧ ref.weak = 0 then binderDeleteRef r s else s

end AndroidKernel.Binder
