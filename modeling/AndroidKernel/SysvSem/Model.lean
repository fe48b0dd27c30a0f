import Mathlib.Algebra.Ring.Int.Defs

/-!
# System V semaphores

A model of one semaphore array of `ipc/sem.c`. Times, permissions, the failures of allocations and
the removal of the array are left out.
-/

namespace AndroidKernel.SysvSem

/-! ## Atomic operations -/

/-- `struct sembuf`, with the two flags that are read. -/
structure Sembuf where
  semNum : Nat
  semOp : Int16
  semUndo : Bool
  ipcNowait : Bool

/-- `struct sem`. -/
structure Sem where
  semval : Int
  sempid : Int

/-- What the operations change: the semaphores, and the adjustments of each undo structure. -/
structure Values where
  semBase : Nat → Sem
  semadj : Nat → Nat → Int16

/-- `SEMVMX`, which is also `SEMAEM`. -/
def semvmx : Int := 32767

def eintr : Int := 4
def e2big : Int := 7
def eagain : Int := 11
def einval : Int := 22
def efbig : Int := 27
def erange : Int := 34

def Values.semval (v : Values) (n : Nat) : Int := (v.semBase n).semval

/-- `semval` changes by a number. -/
def Values.addSemval (v : Values) (n : Nat) (d : Int) : Values :=
  { v with
    semBase := Function.update v.semBase n { v.semBase n with semval := v.semval n + d } }

/-- `un->semadj[n]`. -/
def Values.adjustment (v : Values) (un : Option Nat) (n : Nat) : Int16 :=
  un.elim 0 fun u => v.semadj u n

/-- The code with which an operation stops the sequence, if it does: the test of one round of the
loop of `try_atomic_semop`. -/
def refuses (sop : Sembuf) (semval : Int) (semadj : Int16) : Option Int :=
  let wouldBlock := if sop.ipcNowait then -eagain else 1
  let result := semval + sop.semOp.toInt
  let undo := semadj.toInt - sop.semOp.toInt
  if sop.semOp = 0 ∧ semval ≠ 0 then some wouldBlock
  else if result < 0 then some wouldBlock
  else if semvmx < result then some (-erange)
  else if sop.semUndo ∧ (undo < -semvmx - 1 ∨ semvmx < undo) then some (-erange)
  else none

/-- The operations that have been done are undone, the last one first. -/
def undoOps : List Sembuf → Values → Values
  | [], v => v
  | sop :: done, v => undoOps done (v.addSemval sop.semNum (-sop.semOp.toInt))

/-- The operations that have been done are recorded, the last one first. -/
def commitOps (un : Option Nat) (pid : Int) : List Sembuf → Values → Values
  | [], v => v
  | sop :: done, v =>
    let n := sop.semNum
    commitOps un pid done
      { semBase := Function.update v.semBase n { v.semBase n with sempid := pid }
        semadj := fun u m =>
          if un = some u ∧ m = n ∧ sop.semUndo then v.semadj u n - sop.semOp else v.semadj u m }

/-- The loop of `try_atomic_semop`, with the operations done, the last one first. -/
def tryLoop (un : Option Nat) (pid : Int) : List Sembuf → List Sembuf → Values → Int × Values
  | done, [], v => (0, commitOps un pid done v)
  | done, sop :: sops, v =>
    match refuses sop (v.semval sop.semNum) (v.adjustment un sop.semNum) with
    | some code => (code, undoOps done v)
    | none => tryLoop un pid (sop :: done) sops (v.addSemval sop.semNum sop.semOp.toInt)

/-- `try_atomic_semop`. -/
def tryAtomicSemop (v : Values) (sops : List Sembuf) (un : Option Nat) (pid : Int) : Int × Values :=
  tryLoop un pid [] sops v

/-! ## The queue -/

/-- The `alter` of `sys_semtimedop`. -/
def alters (sops : List Sembuf) : Bool :=
  sops.any fun sop => sop.semOp != 0

/-- The `undos` of `sys_semtimedop`. -/
def undos (sops : List Sembuf) : Bool :=
  sops.any Sembuf.semUndo

/-- The `max` of `sys_semtimedop`. -/
def maxNum (sops : List Sembuf) : Nat :=
  sops.foldl (fun n sop => max n sop.semNum) 0

/-- `struct sem_queue`; `id` is the number of the call. -/
structure SemQueue where
  id : Nat
  sleeper : Nat
  undo : Option Nat
  pid : Int
  sops : List Sembuf
  alter : Bool
  alter_eq : alter = alters sops

/-- `try_atomic_semop` for an entry of the queue. -/
def SemQueue.try (q : SemQueue) (v : Values) : Int × Values :=
  tryAtomicSemop v q.sops q.undo q.pid

/-- What `update_queue` leaves: the values, the queue, and the tasks it has woken with their
results. -/
structure Updated where
  values : Values
  pending : List SemQueue
  woken : List (SemQueue × Int)

/-- `update_queue`, when it has gone past the entries `before`. -/
def updateQueue (before rest : List SemQueue) (v : Values) : Updated :=
  match rest with
  | [] => ⟨v, before, []⟩
  | q :: rest =>
    let tried := q.try v
    if tried.1 ≤ 0 then
      -- An operation that may have altered the array starts the scan again.
      let updated :=
        if q.alter then updateQueue [] (before ++ rest) tried.2
        else updateQueue before rest tried.2
      { updated with woken := (q, tried.1) :: updated.woken }
    else updateQueue (before ++ [q]) rest tried.2
termination_by (before.length + rest.length, rest.length)
decreasing_by
  all_goals simp_wf
  all_goals rw [Prod.lex_def]
  all_goals simp
  all_goals omega

/-! ## The array -/

/-- What happened to the values. -/
inductive Event
  | applied (q : SemQueue)
  | allocated (u : Nat)
  | setVal (undos : List Nat) (n : Nat) (val : Int) (pid : Int)
  | setAll (undos : List Nat) (vals : List Nat)
  | exited (u nsems : Nat) (pid : Int)

/-- `struct sem_array` and the undo lists of the tasks. `list_id` are the undo structures of the
array, each with the number of its `sem_undo_list`; `calls` are the operations of each call of
`sys_semtimedop`, `finished` the calls that have a result, and `log` what happened to the values. -/
structure System where
  nsems : Nat
  semopm : Nat
  values : Values
  pending : List SemQueue
  listId : List Nat
  undoList : Nat → Option Nat
  refcnt : Nat → Nat
  nextList : Nat
  calls : List (List Sembuf)
  finished : List (Nat × Int)
  log : List Event

/-- `newary`. -/
def newary (nsems semopm : Nat) : System where
  nsems := nsems
  semopm := semopm
  values := ⟨fun _ => ⟨0, 0⟩, fun _ _ => 0⟩
  pending := []
  listId := []
  undoList _ := none
  refcnt _ := 0
  nextList := 0
  calls := []
  finished := []
  log := []

/-- The event of a woken task whose operations are done. -/
def wokenEvent (woken : SemQueue × Int) : Option Event :=
  if woken.2 = 0 then some (.applied woken.1) else none

/-- `update_queue`. -/
def System.updateQueue (s : System) : System :=
  let updated := SysvSem.updateQueue [] s.pending s.values
  { s with
    values := updated.values
    pending := updated.pending
    finished := s.finished ++ updated.woken.map fun woken => (woken.1.id, woken.2)
    log := s.log ++ updated.woken.filterMap wokenEvent }

/-- `get_undo_list`. -/
def System.getUndoList (s : System) (task : Nat) : Nat × System :=
  match s.undoList task with
  | some u => (u, s)
  | none =>
    (s.nextList,
      { s with
        undoList := Function.update s.undoList task (some s.nextList)
        refcnt := Function.update s.refcnt s.nextList 1
        nextList := s.nextList + 1 })

/-- The adjustments of a new undo structure. -/
def Values.allocUndo (v : Values) (u : Nat) : Values :=
  { v with semadj := Function.update v.semadj u fun _ => 0 }

/-- `find_alloc_undo`. -/
def System.findAllocUndo (s : System) (task : Nat) : System :=
  let (u, s) := s.getUndoList task
  if u ∈ s.listId then s
  else
    { s with
      values := s.values.allocUndo u
      listId := u :: s.listId
      log := s.log ++ [.allocated u] }

/-- A call that has a result at once. -/
def System.finish (s : System) (sops : List Sembuf) (error : Int) : System :=
  { s with
    calls := s.calls ++ [sops]
    finished := s.finished ++ [(s.calls.length, error)] }

/-- `sys_semtimedop`, up to where the task goes to sleep. -/
def System.semtimedop (s : System) (task : Nat) (pid : Int) (sops : List Sembuf) : System :=
  if sops.length < 1 then s.finish sops (-einval)
  else if s.semopm < sops.length then s.finish sops (-e2big)
  else
    let s := if undos sops then s.findAllocUndo task else s
    let q : SemQueue :=
      { id := s.calls.length
        sleeper := task
        undo := if undos sops then s.undoList task else none
        pid := pid
        sops := sops
        alter := alters sops
        alter_eq := rfl }
    if s.nsems ≤ maxNum sops then s.finish sops (-efbig)
    else
      let tried := q.try s.values
      if tried.1 ≤ 0 then
        let s := { s.finish sops tried.1 with
          values := tried.2
          log := s.log ++ (wokenEvent (q, tried.1)).toList }
        if q.alter ∧ tried.1 = 0 then s.updateQueue else s
      else
        { s with
          values := tried.2
          calls := s.calls ++ [sops]
          pending := if q.alter then s.pending ++ [q] else q :: s.pending }

/-- The end of `sys_semtimedop` for a task that is woken by a signal or by its timeout: if it is
still in the queue it leaves. -/
def System.interrupted (s : System) (task : Nat) (timedOut : Bool) : System :=
  match s.pending.find? fun q => q.sleeper = task with
  | none => s
  | some q =>
    { s with
      pending := s.pending.eraseP fun q => q.sleeper = task
      finished := s.finished ++ [(q.id, if timedOut then -eagain else -eintr)] }

/-- The values after `SETVAL`. -/
def Values.setVal (v : Values) (listId : List Nat) (n : Nat) (val pid : Int) : Values where
  semBase := Function.update v.semBase n ⟨val, pid⟩
  semadj := fun u m => if u ∈ listId ∧ m = n then 0 else v.semadj u m

/-- `SETVAL`. -/
def System.setVal (s : System) (n : Nat) (val pid : Int) : System :=
  if s.nsems ≤ n then s
  else if semvmx < val ∨ val < 0 then s
  else
    System.updateQueue
      { s with
        values := s.values.setVal s.listId n val pid
        log := s.log ++ [.setVal s.listId n val pid] }

/-- The values after `SETALL`. -/
def Values.setAll (v : Values) (listId : List Nat) (vals : List Nat) : Values where
  semBase := fun n => if h : n < vals.length then ⟨vals[n], (v.semBase n).sempid⟩ else v.semBase n
  semadj := fun u m => if u ∈ listId ∧ m < vals.length then 0 else v.semadj u m

/-- `SETALL`, for as many values as there are semaphores. -/
def System.setAll (s : System) (vals : List Nat) : System :=
  if vals.length ≠ s.nsems then s
  else if ∃ val ∈ vals, semvmx < val then s
  else
    System.updateQueue
      { s with
        values := s.values.setAll s.listId vals
        log := s.log ++ [.setAll s.listId vals] }

/-- A value after the adjustment of `exit_sem`. -/
def adjusted (sem : Sem) (semadj : Int16) (pid : Int) : Sem :=
  if semadj = 0 then sem
  else
    let semval := sem.semval + semadj.toInt
    let semval := if semval < 0 then 0 else semval
    ⟨if semvmx < semval then semvmx else semval, pid⟩

/-- The values after the adjustments of `exit_sem`. -/
def Values.exit (v : Values) (u nsems : Nat) (pid : Int) : Values :=
  { v with
    semBase := fun n =>
      if n < nsems then adjusted (v.semBase n) (v.semadj u n) pid else v.semBase n }

/-- `exit_sem`, for a task whose undo list has at most the undo structure of this array. -/
def System.exitSem (s : System) (task : Nat) (pid : Int) : System :=
  match s.undoList task with
  | none => s
  | some u =>
    let s := { s with
      undoList := Function.update s.undoList task none
      refcnt := Function.update s.refcnt u (s.refcnt u - 1) }
    if s.refcnt u ≠ 0 then s
    else if u ∈ s.listId then
      System.updateQueue
        { s with
          listId := s.listId.erase u
          values := s.values.exit u s.nsems pid
          log := s.log ++ [.exited u s.nsems pid] }
    else s

/-- `copy_semundo` for a child that shares the undo list. -/
def System.copySemundo (s : System) (task child : Nat) : System :=
  let (u, s) := s.getUndoList task
  { s with
    undoList := Function.update s.undoList child (some u)
    refcnt := Function.update s.refcnt u (s.refcnt u + 1) }

end AndroidKernel.SysvSem
