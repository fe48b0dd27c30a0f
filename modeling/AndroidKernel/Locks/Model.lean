import Mathlib.Algebra.Group.Nat.Defs
import Mathlib.Data.List.Basic
import Mathlib.Algebra.Group.Int.Defs

/-!
# POSIX locks

The lists of locks of inodes and the requests that wait for them, as `fs/locks.c` keeps them. A
lock is a pointer to a structure in memory. The request of a call is such a pointer too, and
`__posix_lock_file` lets it point to a lock of the list on its way.
-/

namespace AndroidKernel.Locks

universe u v

/-- A pointer to a `struct file_lock`. -/
abbrev Ptr := Nat

/-- `F_RDLCK`, `F_WRLCK` and `F_UNLCK`. -/
inductive LockType
  | rdlck
  | wrlck
  | unlck
deriving DecidableEq, Repr

/-- The flags `FL_POSIX`, `FL_FLOCK` and `FL_LEASE`. -/
inductive LockClass
  | posix
  | flock
  | lease
deriving DecidableEq, Repr

/-- The fields of `struct file_lock` that describe a lock. The owner is what `posix_same_owner`
compares. -/
structure FileLock (Owner : Type u) where
  cls : LockClass
  owner : Owner
  type : LockType
  start : Int
  stop : Int
deriving DecidableEq

/-- The flags of a request. -/
structure Flags where
  access : Bool
  sleep : Bool
  exist : Bool
deriving DecidableEq

/-- What `__posix_lock_file` returns. -/
inductive Code
  | ok
  | eagain
  | edeadlk
  | deferred
  | enolck
  | enoent
deriving DecidableEq, Repr

/-- `OFFSET_MAX`. -/
def offsetMax : Int := 2 ^ 63 - 1

/-- `MAX_DEADLK_ITERATIONS`. -/
def maxDeadlkIterations : Nat := 10

/-- The structures, the list of each inode, `blocked_list`, and what a waiting request has as its
`fl_next`. -/
structure Locks (Inode : Type v) (Owner : Type u) where
  heap : Ptr → FileLock Owner
  iFlock : Inode → List Ptr
  blockedList : List Ptr
  next : Ptr → Option Ptr

variable {Inode : Type v} {Owner : Type u} [DecidableEq Inode] [DecidableEq Owner]

/-! ## Conflicts -/

/-- `locks_overlap`. -/
def locksOverlap (fl1 fl2 : FileLock Owner) : Bool :=
  decide (fl1.stop ≥ fl2.start) && decide (fl2.stop ≥ fl1.start)

/-- `posix_same_owner`. -/
def posixSameOwner (fl1 fl2 : FileLock Owner) : Bool :=
  decide (fl1.owner = fl2.owner)

/-- `locks_conflict`. -/
def locksConflict (callerFl sysFl : FileLock Owner) : Bool :=
  if sysFl.type = .wrlck then true else if callerFl.type = .wrlck then true else false

/-- `posix_locks_conflict`. -/
def posixLocksConflict (callerFl sysFl : FileLock Owner) : Bool :=
  if sysFl.cls ≠ .posix ∨ posixSameOwner callerFl sysFl then false
  else if locksOverlap callerFl sysFl = false then false
  else locksConflict callerFl sysFl

/-! ## Waiting -/

/-- `locks_insert_block`. -/
def locksInsertBlock (s : Locks Inode Owner) (blocker waiter : Ptr) : Locks Inode Owner :=
  { s with
    blockedList := waiter :: s.blockedList
    next := Function.update s.next waiter (some blocker) }

/-- `__locks_delete_block`. -/
def locksDeleteBlock (s : Locks Inode Owner) (waiter : Ptr) : Locks Inode Owner :=
  { s with
    blockedList := s.blockedList.erase waiter
    next := Function.update s.next waiter none }

/-- `locks_wake_up_blocks`. -/
def locksWakeUpBlocks (s : Locks Inode Owner) (blocker : Ptr) : Locks Inode Owner :=
  { s with
    blockedList := s.blockedList.filter fun waiter => decide (s.next waiter ≠ some blocker)
    next := fun waiter => if s.next waiter = some blocker then none else s.next waiter }

/-- `what_owner_is_waiting_for`. -/
def whatOwnerIsWaitingFor (s : Locks Inode Owner) (blockFl : Ptr) : Option Ptr :=
  (s.blockedList.find? fun fl => posixSameOwner (s.heap fl) (s.heap blockFl)).bind s.next

/-- The loop of `posix_locks_deadlock`, at most `n` times. -/
def deadlockWalk (s : Locks Inode Owner) (callerFl : Ptr) : Nat → Ptr → Bool
  | 0, _ => false
  | n + 1, blockFl =>
    match whatOwnerIsWaitingFor s blockFl with
    | none => false
    | some blockFl =>
      if posixSameOwner (s.heap callerFl) (s.heap blockFl) then true
      else deadlockWalk s callerFl n blockFl

/-- `posix_locks_deadlock`. -/
def posixLocksDeadlock (s : Locks Inode Owner) (callerFl blockFl : Ptr) : Bool :=
  deadlockWalk s callerFl (maxDeadlkIterations + 1) blockFl

/-! ## The locks of the owner -/

/-- Changes a structure. -/
def modify (s : Locks Inode Owner) (fl : Ptr) (f : FileLock Owner → FileLock Owner) :
    Locks Inode Owner :=
  { s with heap := Function.update s.heap fl (f (s.heap fl)) }

/-- The local variables of `__posix_lock_file` in its second loop. The locks before `*before` are
those in `before`. -/
structure Pass (Inode : Type v) (Owner : Type u) where
  s : Locks Inode Owner
  before : List Ptr
  request : Ptr
  added : Bool
  left : Option Ptr
  right : Option Ptr

namespace Pass

variable (t : Pass Inode Owner) (fl : Ptr)

/-- The request. -/
def req : FileLock Owner :=
  t.s.heap t.request

/-- `next_lock`. -/
def nextLock : Pass Inode Owner :=
  { t with before := t.before ++ [fl] }

/-- One lock from the lower start to the higher end: both structures get them. -/
def merge : Pass Inode Owner :=
  { t with
    s := modify
      (modify t.s fl fun lock =>
        { lock with start := min lock.start t.req.start, stop := max lock.stop t.req.stop })
      t.request fun request =>
        { request with
          start := min (t.s.heap fl).start request.start
          stop := max (t.s.heap fl).stop request.stop } }

/-- `locks_delete_lock`. -/
def locksDeleteLock : Pass Inode Owner :=
  { t with s := locksWakeUpBlocks t.s fl }

/-- The request is the lock `fl` from now on. -/
def adopt : Pass Inode Owner :=
  { t with request := fl, added := true }

/-- The old lock is replaced by the new one. -/
def replace : Pass Inode Owner :=
  { t with
    s := modify (locksWakeUpBlocks t.s fl) fl fun lock =>
      { lock with start := t.req.start, stop := t.req.stop, type := t.req.type } }

/-- A lock of another type meets the request. -/
def touch : Pass Inode Owner :=
  { t with
    added := t.added || decide (t.req.type = .unlck)
    left := if (t.s.heap fl).start < t.req.start then some fl else t.left }

/-- The lock `fl` reaches beyond the request. -/
def setRight : Pass Inode Owner :=
  { t with right := some fl }

end Pass

/-- The second loop of `__posix_lock_file`: the variables after it and the list from `*before` on. -/
def scan : Pass Inode Owner → List Ptr → Pass Inode Owner × List Ptr
  | t, [] => (t, [])
  | t, fl :: rest =>
    if posixSameOwner t.req (t.s.heap fl) = false then (t, fl :: rest)
    else if t.req.type = (t.s.heap fl).type then
      if (t.s.heap fl).stop < t.req.start - 1 then scan (t.nextLock fl) rest
      else if (t.s.heap fl).start - 1 > t.req.stop then (t, fl :: rest)
      else if t.added then scan ((t.merge fl).locksDeleteLock fl) rest
      else scan (((t.merge fl).adopt fl).nextLock fl) rest
    else if (t.s.heap fl).stop < t.req.start then scan (t.nextLock fl) rest
    else if (t.s.heap fl).start > t.req.stop then (t, fl :: rest)
    else if (t.s.heap fl).stop > t.req.stop then
      ((t.touch fl).setRight fl, fl :: rest)
    else if (t.s.heap fl).start ≥ t.req.start then
      if (t.touch fl).added then scan ((t.touch fl).locksDeleteLock fl) rest
      else scan ((((t.touch fl).replace fl).adopt fl).nextLock fl) rest
    else scan ((t.touch fl).nextLock fl) rest

/-! ## After the loop -/

/-- `locks_copy_lock`. -/
def locksCopyLock (s : Locks Inode Owner) (new fl : Ptr) : Locks Inode Owner :=
  modify s new fun _ => s.heap fl

/-- The end of `left` is cut off. -/
def trimLeft (s : Locks Inode Owner) (request : Ptr) : Option Ptr → Locks Inode Owner
  | none => s
  | some left =>
    locksWakeUpBlocks
      (modify s left fun lock => { lock with stop := (s.heap request).start - 1 }) left

/-- The start of `right` is cut off. -/
def trimRight (s : Locks Inode Owner) (request right : Ptr) : Locks Inode Owner :=
  locksWakeUpBlocks
    (modify s right fun lock => { lock with start := (s.heap request).stop + 1 }) right

/-- The end of `__posix_lock_file`: trims the neighbours of the new lock. The locks `mid` stand
between `before` and `rest`. -/
def trim (t : Pass Inode Owner) (newFl2 : Option Ptr) (mid : List Ptr) :
    Locks Inode Owner × List Ptr :=
  match t.right with
  | none => (trimLeft t.s t.request t.left, mid)
  | some right =>
    if t.left = some right then
      match newFl2 with
      | none => (t.s, mid)
      | some left =>
        (trimLeft (trimRight (locksCopyLock t.s left right) t.request right) t.request
          (some left), left :: mid)
    else (trimLeft (trimRight t.s t.request right) t.request t.left, mid)

/-- Puts the list together. -/
def close (i : Inode) (skipped : List Ptr) (t : Pass Inode Owner) (rest : List Ptr) (code : Code)
    (r : Locks Inode Owner × List Ptr) : Code × Locks Inode Owner :=
  (code, { r.1 with
    iFlock := Function.update r.1.iFlock i (skipped ++ t.before ++ r.2 ++ rest) })

/-- `__posix_lock_file` after its second loop. -/
def finish (i : Inode) (skipped : List Ptr) (flags : Flags) (newFl newFl2 : Option Ptr)
    (t : Pass Inode Owner) (rest : List Ptr) : Code × Locks Inode Owner :=
  if t.right.isSome ∧ t.left = t.right ∧ newFl2 = none then close i skipped t rest .enolck (t.s, [])
  else if t.added then close i skipped t rest .ok (trim t newFl2 [])
  else if t.req.type = .unlck then
    close i skipped t rest (if flags.exist then .enoent else .ok) (t.s, [])
  else
    match newFl with
    | none => close i skipped t rest .enolck (t.s, [])
    | some new =>
      close i skipped t rest .ok
        (trim { t with s := locksCopyLock t.s new t.request } newFl2 [new])

/-- The locks that the first loop skips. -/
def otherOwner (s : Locks Inode Owner) (request fl : Ptr) : Bool :=
  decide ((s.heap fl).cls ≠ .posix) || !posixSameOwner (s.heap request) (s.heap fl)

/-- `__posix_lock_file` once there is no conflict. -/
def setLocks (s : Locks Inode Owner) (i : Inode) (request : Ptr) (flags : Flags)
    (newFl newFl2 : Option Ptr) : Code × Locks Inode Owner :=
  finish i ((s.iFlock i).takeWhile (otherOwner s request)) flags newFl newFl2
    (scan ⟨s, [], request, false, none, none⟩ ((s.iFlock i).dropWhile (otherOwner s request))).1
    (scan ⟨s, [], request, false, none, none⟩ ((s.iFlock i).dropWhile (otherOwner s request))).2

/-- Whether `__posix_lock_file` asks for new structures. -/
def needsLocks (request : FileLock Owner) (flags : Flags) : Bool :=
  !flags.access &&
    (decide (request.type ≠ .unlck) || decide (request.start ≠ 0) ||
      decide (request.stop ≠ offsetMax))

/-- The lock that a request has to wait for. -/
def findConflict (s : Locks Inode Owner) (i : Inode) (request : Ptr) : Option Ptr :=
  if (s.heap request).type = .unlck then none
  else (s.iFlock i).find? fun fl => posixLocksConflict (s.heap request) (s.heap fl)

/-- `__posix_lock_file`. The two calls of `locks_alloc_lock` return `newFl` and `newFl2`. -/
def posixLockFile (s : Locks Inode Owner) (i : Inode) (request : Ptr) (flags : Flags)
    (newFl newFl2 : Option Ptr) : Code × Locks Inode Owner :=
  match findConflict s i request with
  | some fl =>
    if flags.sleep = false then (.eagain, s)
    else if posixLocksDeadlock s request fl then (.edeadlk, s)
    else (.deferred, locksInsertBlock s fl request)
  | none =>
    if flags.access then (.ok, s)
    else if needsLocks (s.heap request) flags then setLocks s i request flags newFl newFl2
    else setLocks s i request flags none none

/-! ## The system -/

/-- The calls. The caller of `__posix_lock_file` fills in a structure of its own. A wait that is
cancelled ends with `__locks_delete_block`. -/
inductive Op (Inode : Type v) (Owner : Type u)
  | lock (i : Inode) (request : Ptr) (fl : FileLock Owner) (flags : Flags)
      (newFl newFl2 : Option Ptr)
  | cancel (waiter : Ptr)

def step (s : Locks Inode Owner) : Op Inode Owner → Code × Locks Inode Owner
  | .lock i request fl flags newFl newFl2 =>
    posixLockFile (modify s request fun _ => fl) i request flags newFl newFl2
  | .cancel waiter => (.ok, locksDeleteBlock s waiter)

/-- The locks of an inode. -/
def Locks.locks (s : Locks Inode Owner) (i : Inode) : List (FileLock Owner) :=
  (s.iFlock i).map s.heap

end AndroidKernel.Locks
