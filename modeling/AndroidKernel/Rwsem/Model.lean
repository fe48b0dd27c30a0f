import Mathlib.Algebra.Group.Nat.Defs
import AndroidKernel.Library.Runs
import Mathlib.Data.List.Basic

/-!
# Read/write semaphores

A model of `lib/rwsem-spinlock.c`. Each section under `wait_lock` is one step; a task that has to
wait sleeps in its call until it sees that its `waiter.task` is cleared, which is a step of its
own. `System` adds to the semaphore what the tasks hold and two logs: the requests in the order in
which they came, and the requests in the order in which they were granted.
-/

namespace AndroidKernel.Rwsem

universe u

variable {Task : Type u}

/-- `RWSEM_WAITING_FOR_READ` and `RWSEM_WAITING_FOR_WRITE`. -/
inductive WaitFlag where
  | waitingForRead
  | waitingForWrite
  deriving DecidableEq, Repr

/-- `struct rwsem_waiter`, from when it is queued until `task` is cleared. -/
structure RwsemWaiter (Task : Type u) where
  task : Task
  flags : WaitFlag
  deriving DecidableEq, Repr

/-- `struct rw_semaphore`. `activity` is a `__s32`; it counts holders, of which there are never
`2 ^ 31`. -/
structure RwSemaphore (Task : Type u) where
  activity : Int
  waitList : List (RwsemWaiter Task)
  deriving DecidableEq, Repr

/-- `__init_rwsem`. -/
def initRwsem : RwSemaphore Task where
  activity := 0
  waitList := []

/-! ## Wake-ups

A wake-up returns the semaphore and the waiters that it took from the queue, in order. -/

/-- The `while` loop of `__rwsem_do_wake`: the readers at the front of the queue, and the rest. -/
def wakeReaders : List (RwsemWaiter Task) → List (RwsemWaiter Task) × List (RwsemWaiter Task)
  | [] => ([], [])
  | waiter :: list =>
    match waiter.flags with
    | .waitingForRead => (waiter :: (wakeReaders list).1, (wakeReaders list).2)
    | .waitingForWrite => ([], waiter :: list)

/-- `__rwsem_do_wake`. Its callers have seen that the queue is not empty. -/
def rwsemDoWake (sem : RwSemaphore Task) (wakewrite : Bool) :
    RwSemaphore Task × List (RwsemWaiter Task) :=
  match sem.waitList with
  | [] => (sem, [])
  | waiter :: list =>
    match waiter.flags, wakewrite with
    | .waitingForWrite, false => (sem, [])
    | .waitingForWrite, true => (⟨-1, list⟩, [waiter])
    | .waitingForRead, _ =>
      let woken := (wakeReaders sem.waitList).1
      (⟨sem.activity + woken.length, (wakeReaders sem.waitList).2⟩, woken)

/-- `__rwsem_wake_one_writer`. Its caller has seen that the queue is not empty. -/
def rwsemWakeOneWriter (sem : RwSemaphore Task) : RwSemaphore Task × List (RwsemWaiter Task) :=
  match sem.waitList with
  | [] => (⟨-1, []⟩, [])
  | waiter :: list => (⟨-1, list⟩, [waiter])

/-! ## Calls -/

/-- `__down_read_trylock`, and the section of `__down_read` when it is granted. -/
def downReadTrylock (sem : RwSemaphore Task) : Bool × RwSemaphore Task :=
  if 0 ≤ sem.activity ∧ sem.waitList.isEmpty then
    (true, { sem with activity := sem.activity + 1 })
  else (false, sem)

/-- `__down_write_trylock`. -/
def downWriteTrylock (sem : RwSemaphore Task) : Bool × RwSemaphore Task :=
  if sem.activity = 0 ∧ sem.waitList.isEmpty then (true, { sem with activity := -1 })
  else (false, sem)

/-- `list_add_tail` of a new waiter. -/
def enqueue (sem : RwSemaphore Task) (waiter : RwsemWaiter Task) : RwSemaphore Task :=
  { sem with waitList := sem.waitList ++ [waiter] }

/-- The section of `__down_read`. The task sleeps if it was not granted the lock. -/
def downRead (sem : RwSemaphore Task) (tsk : Task) : Bool × RwSemaphore Task :=
  if 0 ≤ sem.activity ∧ sem.waitList.isEmpty then
    (true, { sem with activity := sem.activity + 1 })
  else (false, enqueue sem ⟨tsk, .waitingForRead⟩)

/-- The section of `__down_write_nested`. -/
def downWrite (sem : RwSemaphore Task) (tsk : Task) : Bool × RwSemaphore Task :=
  if sem.activity = 0 ∧ sem.waitList.isEmpty then (true, { sem with activity := -1 })
  else (false, enqueue sem ⟨tsk, .waitingForWrite⟩)

/-- `__up_read`. -/
def upRead (sem : RwSemaphore Task) : RwSemaphore Task × List (RwsemWaiter Task) :=
  let sem := { sem with activity := sem.activity - 1 }
  if sem.activity = 0 ∧ ¬ sem.waitList.isEmpty then rwsemWakeOneWriter sem else (sem, [])

/-- `__up_write`. -/
def upWrite (sem : RwSemaphore Task) : RwSemaphore Task × List (RwsemWaiter Task) :=
  let sem := { sem with activity := 0 }
  if ¬ sem.waitList.isEmpty then rwsemDoWake sem true else (sem, [])

/-- `__downgrade_write`. -/
def downgradeWrite (sem : RwSemaphore Task) : RwSemaphore Task × List (RwsemWaiter Task) :=
  let sem := { sem with activity := 1 }
  if ¬ sem.waitList.isEmpty then rwsemDoWake sem false else (sem, [])

/-! ## Tasks -/

/-- The semaphore and its users. A task is in `readers` once for each read lock it holds; what it
holds after it was woken is what it asked for. -/
structure System (Task : Type u) where
  sem : RwSemaphore Task
  readers : List Task
  writers : List Task
  asleep : List Task
  requests : List (RwsemWaiter Task)
  grants : List (RwsemWaiter Task)

/-- Nobody has used the semaphore yet. -/
def initial : System Task where
  sem := initRwsem
  readers := []
  writers := []
  asleep := []
  requests := []
  grants := []

/-- A task has a lock of the kind that it asked for. -/
def System.grant (s : System Task) (waiter : RwsemWaiter Task) : System Task :=
  match waiter.flags with
  | .waitingForRead =>
    { s with readers := waiter.task :: s.readers, grants := s.grants ++ [waiter] }
  | .waitingForWrite =>
    { s with writers := waiter.task :: s.writers, grants := s.grants ++ [waiter] }

/-- The semaphore changes, and waiters are woken one after another. -/
def System.wake (s : System Task) (sem : RwSemaphore Task) (woken : List (RwsemWaiter Task)) :
    System Task :=
  woken.foldl System.grant { s with sem := sem }

/-- A request, which is granted at once or queued. -/
def System.request (s : System Task) (waiter : RwsemWaiter Task)
    (result : Bool × RwSemaphore Task) : System Task :=
  let s := { s with sem := result.2, requests := s.requests ++ [waiter] }
  if result.1 then s.grant waiter else { s with asleep := waiter.task :: s.asleep }

/-- A `trylock`, which leaves no trace if it fails. -/
def System.tryRequest (s : System Task) (waiter : RwsemWaiter Task)
    (result : Bool × RwSemaphore Task) : System Task :=
  if result.1 then s.request waiter result else { s with sem := result.2 }

/-- What a task can do next. `resume` is the end of the loop in which it sleeps. -/
inductive Op (Task : Type u) where
  | downRead (tsk : Task)
  | downReadTrylock (tsk : Task)
  | downWrite (tsk : Task)
  | downWriteTrylock (tsk : Task)
  | upRead (tsk : Task)
  | upWrite (tsk : Task)
  | downgradeWrite (tsk : Task)
  | resume (tsk : Task)

variable [DecidableEq Task]

def step (s : System Task) : Op Task → System Task
  | .downRead tsk => s.request ⟨tsk, .waitingForRead⟩ (downRead s.sem tsk)
  | .downReadTrylock tsk => s.tryRequest ⟨tsk, .waitingForRead⟩ (downReadTrylock s.sem)
  | .downWrite tsk => s.request ⟨tsk, .waitingForWrite⟩ (downWrite s.sem tsk)
  | .downWriteTrylock tsk => s.tryRequest ⟨tsk, .waitingForWrite⟩ (downWriteTrylock s.sem)
  | .upRead tsk =>
    let released := { s with readers := s.readers.erase tsk }
    released.wake (upRead s.sem).1 (upRead s.sem).2
  | .upWrite tsk =>
    let released := { s with writers := s.writers.erase tsk }
    released.wake (upWrite s.sem).1 (upWrite s.sem).2
  | .downgradeWrite tsk =>
    let downgraded := { s with writers := s.writers.erase tsk, readers := tsk :: s.readers }
    downgraded.wake (downgradeWrite s.sem).1 (downgradeWrite s.sem).2
  | .resume tsk => { s with asleep := s.asleep.erase tsk }

/-- A task that sleeps makes no calls, it wakes up when its `waiter.task` is cleared, and locks
are released by their holders. -/
def Allowed (s : System Task) : Op Task → Prop
  | .downRead tsk | .downReadTrylock tsk | .downWrite tsk | .downWriteTrylock tsk =>
    tsk ∉ s.asleep
  | .upRead tsk => tsk ∉ s.asleep ∧ tsk ∈ s.readers
  | .upWrite tsk | .downgradeWrite tsk => tsk ∉ s.asleep ∧ tsk ∈ s.writers
  | .resume tsk => tsk ∈ s.asleep ∧ ∀ waiter ∈ s.sem.waitList, waiter.task ≠ tsk

def Step (s : System Task) (op : Op Task) (s' : System Task) : Prop :=
  step s op = s'

end AndroidKernel.Rwsem
