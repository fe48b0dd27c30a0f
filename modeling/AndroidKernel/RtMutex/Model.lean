import Mathlib.Logic.Function.Basic

/-!
# Blocking on a priority inheriting lock

`task_blocks_on_rt_mutex` and the chain walk `rt_mutex_adjust_prio_chain` that it starts. Each
function runs with its locks held, one after the other. A state says for each task what it is
blocked on and which waiters lend it their priority, for each lock its owner and its waiters. A
smaller number is a higher priority.
-/

namespace AndroidKernel.RtMutex

/-- `EDEADLK`. -/
def edeadlk : Int := 35

/-- `max_lock_depth`. -/
def maxLockDepth : Nat := 1024

/-- `struct plist_node` of a waiter on a list. The code writes the priority of a node only while
it is on no list. -/
structure PlistNode where
  prio : Int
  waiter : Nat

/-- `plist_add`: behind the nodes of the same priority. -/
def plistAdd (node : PlistNode) : List PlistNode → List PlistNode
  | [] => [node]
  | iter :: rest =>
    if node.prio < iter.prio then node :: iter :: rest else iter :: plistAdd node rest

/-- `plist_del`; nothing happens if the waiter is not on the list. -/
def plistDel (waiter : Nat) (list : List PlistNode) : List PlistNode :=
  list.filter fun node => node.waiter ≠ waiter

/-- `struct rt_mutex_waiter`, with the priorities of its two list entries. -/
structure Waiter where
  task : Option Nat
  lock : Nat
  listPrio : Int
  piListPrio : Int

/-- The part of `struct task_struct` that the walk uses. -/
structure Task where
  prio : Int
  normalPrio : Int
  piWaiters : List PlistNode
  piBlockedOn : Option Nat

/-- `struct rt_mutex`; the owner is without its flag bits. -/
structure Lock where
  owner : Option Nat
  waitList : List PlistNode

/-- All tasks, waiters and locks. -/
@[ext]
structure System where
  task : Nat → Task
  waiter : Nat → Waiter
  lock : Nat → Lock

/-- `rt_mutex_top_waiter`, as the node in the list of the lock. -/
def Lock.topWaiter (lock : Lock) : Option PlistNode :=
  lock.waitList.head?

/-- `task_top_pi_waiter`; `none` is a task without waiters. -/
def Task.topPiWaiter (task : Task) : Option Nat :=
  task.piWaiters.head?.map (·.waiter)

/-- `rt_mutex_getprio`. -/
def Task.getprio (task : Task) : Int :=
  match task.piWaiters with
  | [] => task.normalPrio
  | top :: _ => min top.prio task.normalPrio

/-- `__rt_mutex_adjust_prio`. -/
def Task.adjustPrio (task : Task) : Task :=
  { task with prio := task.getprio }

/-- Replaces in the list of `task_struct.pi_waiters` one waiter by another and adjusts the
priority. -/
def Task.exchange (task : Task) (old : Nat) (new : PlistNode) : Task :=
  Task.adjustPrio { task with piWaiters := plistAdd new (plistDel old task.piWaiters) }

namespace System

/-- Writes one task. -/
def setTask (s : System) (t : Nat) (task : Task) : System :=
  { s with task := Function.update s.task t task }

/-- Writes one waiter. -/
def setWaiter (s : System) (w : Nat) (waiter : Waiter) : System :=
  { s with waiter := Function.update s.waiter w waiter }

/-- Writes the list of waiters of one lock. -/
def setWaitList (s : System) (l : Nat) (list : List PlistNode) : System :=
  { s with lock := Function.update s.lock l { s.lock l with waitList := list } }

/-- Requeues a waiter on its lock with the priority of its task. -/
def requeue (s : System) (task waiter : Nat) : System :=
  let prio := (s.task task).prio
  let lock := (s.waiter waiter).lock
  (s.setWaiter waiter { s.waiter waiter with listPrio := prio }).setWaitList lock
    (plistAdd ⟨prio, waiter⟩ (plistDel waiter (s.lock lock).waitList))

/-- Gives the owner of the lock the waiter that is now the first one, in place of `topWaiter`.
The list entry of the first waiter lends its priority to the other entry. -/
def lend (s : System) (owner topWaiter : Nat) (first : PlistNode) : System :=
  (s.setWaiter first.waiter { s.waiter first.waiter with piListPrio := first.prio }).setTask owner
    ((s.task owner).exchange topWaiter first)

/-- The owner after the requeue: boosted if the waiter is now the first one, deboosted if it was
the first one before. The flag says that `waiter` is the first waiter at the end: the deboosting
branch sets it anew. -/
def propagate (s : System) (owner waiter topWaiter : Nat) (first : PlistNode) : System × Bool :=
  if waiter = first.waiter then (s.lend owner topWaiter first, true)
  else if topWaiter = waiter then (s.lend owner waiter first, true)
  else (s, false)

/-- `rt_mutex_adjust_prio_chain`, with `depth` rounds left. `none` is a lock with a waiter and
without an owner, or without this waiter on its list. -/
def adjustPrioChain (detect : Bool) (origLock origWaiter : Option Nat) (topTask : Nat) :
    Nat → System → Nat → Option Nat → Option (Int × System)
  | 0, s, _, _ => some (if detect then -edeadlk else 0, s)
  | depth + 1, s, task, topWaiter =>
    match (s.task task).piBlockedOn with
    | none => some (0, s)
    | some waiter =>
      if (s.waiter waiter).task = none ∨ ∃ w ∈ origWaiter, (s.waiter w).task = none then
        some (0, s)
      -- not only without deadlock detection
      else if ∃ top ∈ topWaiter, (s.task task).topPiWaiter ≠ some top then some (0, s)
      else if detect = false ∧ (s.waiter waiter).listPrio = (s.task task).prio then some (0, s)
      else
        let lock := (s.waiter waiter).lock
        if origLock = some lock ∨ (s.lock lock).owner = some topTask then
          some (if detect then -edeadlk else 0, s)
        else do
          let top ← (s.lock lock).topWaiter
          let s := s.requeue task waiter
          let owner ← (s.lock lock).owner
          let first ← (s.lock lock).topWaiter
          let (s, isFirst) := s.propagate owner waiter top.waiter first
          if detect = false ∧ isFirst = false then some (0, s)
          else adjustPrioChain detect origLock origWaiter topTask depth s owner first.waiter

/-- What `task_blocks_on_rt_mutex` writes before it looks at the owner. -/
def enqueue (s : System) (lock waiter current : Nat) : System :=
  let task := (s.task current).adjustPrio
  let s := s.setTask current { task with piBlockedOn := some waiter }
  let s := s.setWaiter waiter ⟨some current, lock, task.prio, task.prio⟩
  s.setWaitList lock (plistAdd ⟨task.prio, waiter⟩ (s.lock lock).waitList)

/-- `task_blocks_on_rt_mutex`. `none` is a lock without an owner, or a crash of the walk. -/
def taskBlocksOnRtMutex (s : System) (lock waiter : Nat) (detect : Bool) (current : Nat) :
    Option (Int × System) := do
  let owner ← (s.lock lock).owner
  let topWaiter := ((s.lock lock).topWaiter.map (·.waiter)).getD waiter
  let s := s.enqueue lock waiter current
  let first ← (s.lock lock).topWaiter
  if first.waiter = waiter then
    let s := s.setTask owner ((s.task owner).exchange topWaiter ⟨(s.waiter waiter).piListPrio, waiter⟩)
    if (s.task owner).piBlockedOn ≠ none then
      s.adjustPrioChain detect (some lock) (some waiter) current maxLockDepth owner waiter
    else some (0, s)
  else if detect then
    s.adjustPrioChain detect (some lock) (some waiter) current maxLockDepth owner waiter
  else some (0, s)

end System

end AndroidKernel.RtMutex
