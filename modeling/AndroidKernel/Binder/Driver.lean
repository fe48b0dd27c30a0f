import AndroidKernel.Binder.Transactions
import AndroidKernel.Library.Runs

/-!
# The binder driver as a transition system

The commands of `binder_thread_write`, the work that `binder_thread_read` delivers, thread
exit and process release. `binder_lock` is held throughout each, so each is one transition;
the lock is dropped only while a thread sleeps in `binder_thread_read`, between the latching
of `wait_for_proc_work` and the delivery that uses it.
-/

namespace AndroidKernel.Binder

/-! ## Processes and threads -/

/-- `binder_open`. The structure of a new name is still unused. -/
def binderOpen (s : State) : State :=
  let p := s.lastId + 1
  { s with lastId := p }.setProc p { s.procs p with live := true }

/-- `pid` of a thread, the key of `proc->threads`. -/
def State.threadPid (s : State) (th : Id) : Nat :=
  (s.threads th).elim 0 Thread.pid

/-- `binder_get_thread` for a task that has no thread structure yet. -/
def binderGetThread (p pid : Nat) (s : State) : State :=
  let th := s.lastId + 1
  let thread : Thread :=
    { proc := p, pid, looper := false, transactionStack := none
      returnError := .ok, returnError2 := .ok, reading := none }
  let s := { s with lastId := th }.setThread th (some thread)
  let proc := s.procs p
  let threads := proc.threads.orderedInsert (fun a b => s.threadPid a ≤ s.threadPid b) th
  s.setProc p { proc with threads }

/-- `BINDER_SET_CONTEXT_MGR`. -/
def setContextMgr (p euid : Nat) (memory : Bool) (s : State) : State :=
  if s.contextMgrNode = none ∧ s.contextMgrUid.all (· = euid) then
    let s := { s with contextMgrUid := some euid }
    match binderNewNode p 0 0 false memory s with
    | (s, none) => s
    | (s, some n) =>
      match s.nodes n with
      | none => s.crash .freedNode
      | some node =>
        let node :=
          { node with
            localWeakRefs := node.localWeakRefs + 1
            localStrongRefs := node.localStrongRefs + 1
            hasStrongRef := true, hasWeakRef := true }
        { s.setNode n (some node) with contextMgrNode := some n }
  else s

/-! ## Reference commands -/

/-- `BC_INCREFS`, `BC_ACQUIRE`, `BC_RELEASE` and `BC_DECREFS`. -/
inductive RefCommand
  | increfs
  | acquire
  | release
  | decrefs
  deriving DecidableEq

/-- Whether the command takes a count. -/
def RefCommand.increments : RefCommand → Bool
  | .increfs | .acquire => true
  | .release | .decrefs => false

/-- The reference a command is about: handle 0 makes one to the context manager. -/
def commandRef (p : Id) (cmd : RefCommand) (target : Nat) (memory : Bool) (s : State) :
    State × Option Id :=
  match s.contextMgrNode with
  | some n =>
    if target = 0 ∧ cmd.increments then
      match binderGetRefForNode p n memory s with
      | (s, none) => (s.crash .nullPointer, none)
      | (s, some r) => (s, some r)
    else (s, binderGetRef s p target)
  | none => (s, binderGetRef s p target)

/-- Runs a reference command; the result of `binder_inc_ref` is not looked at. -/
def refCommand (p : Id) (cmd : RefCommand) (target : Nat) (memory : Bool) (s : State) : State :=
  match commandRef p cmd target memory s with
  | (s, none) => s
  | (s, some r) =>
    match cmd with
    | .increfs => (binderIncRef r false none s).1
    | .acquire => (binderIncRef r true none s).1
    | .release => binderDecRef r true s
    | .decrefs => binderDecRef r false s

/-- `pending_strong_ref` or `pending_weak_ref`. -/
def Node.pending (node : Node) (strong : Bool) : Bool :=
  if strong then node.pendingStrongRef else node.pendingWeakRef

/-- The node with that flag cleared. -/
def Node.clearPending (node : Node) (strong : Bool) : Node :=
  if strong then { node with pendingStrongRef := false } else { node with pendingWeakRef := false }

/-- `BC_ACQUIRE_DONE` (strong) and `BC_INCREFS_DONE`. -/
def nodeDone (p : Id) (strong : Bool) (ptr cookie : Nat) (s : State) : State :=
  match binderGetNode s p ptr with
  | none => s
  | some n =>
    match s.nodes n with
    | none => s.crash .freedNode
    | some node =>
      if node.cookie ≠ cookie then s
      else if node.pending strong = false then s
      else binderDecNode n strong false (s.setNode n (some (node.clearPending strong)))

/-! ## Freeing a buffer -/

/-- The next one-way transaction of a node goes to the thread that frees the last one's
buffer, or the node's flag is cleared. -/
def handOverAsync (th : Id) (buffer : Buffer) (s : State) : State :=
  match buffer.asyncTransaction, buffer.targetNode with
  | true, some n =>
    match s.nodes n with
    | none => s.crash .freedNode
    | some node =>
      if node.hasAsyncTransaction = false then s.crash (.bug .freeBufferAsync)
      else
        match s.lists.items (.asyncTodo n) with
        | [] => s.setNode n (some { node with hasAsyncTransaction := false })
        | w :: _ => s.listAddTail (.threadTodo th) w
  | _, _ => s

/-- `buffer->transaction->buffer = NULL; buffer->transaction = NULL`. -/
def detachTransaction (buffer : Buffer) (s : State) : State :=
  match buffer.transaction with
  | none => s
  | some t =>
    match s.transactions t with
    | none => s.crash .freedTransaction
    | some x => s.setTransaction t (some { x with buffer := none })

/-- `BC_FREE_BUFFER` of the process's buffer `b`. -/
def freeBuffer (p th b : Id) (s : State) : State :=
  if b ∈ (s.procs p).allocatedBuffers then
    match s.buffers b with
    | none => s.crash .freedBuffer
    | some buffer =>
      if buffer.allowUserFree = false then s
      else
        let s := detachTransaction buffer s
        let s := s.setBuffer b (some { buffer with transaction := none })
        let s := handOverAsync th buffer s
        let s := binderTransactionBufferRelease p buffer none s
        binderFreeBuf p b s
  else s

/-! ## Death notifications -/

/-- The list that death work for a thread's process is queued on. -/
def deathList (th : Id) (thread : Thread) : ListHead :=
  if thread.looper then .threadTodo th else .procTodo thread.proc

/-- `BC_REQUEST_DEATH_NOTIFICATION`. -/
def requestDeath (th : Id) (thread : Thread) (target cookie : Nat) (memory : Bool) (s : State) :
    State :=
  match binderGetRef s thread.proc target with
  | none => s
  | some r =>
    match s.refs r with
    | none => s.crash .freedRef
    | some ref =>
      if ref.death.isSome then s
      else if memory then
        let d := s.lastId + 1
        let s := { s with lastId := d }.setRef r (some { ref with death := some d })
        let s := s.note (.requested d)
        match s.nodes ref.node with
        | none => s.crash .freedNode
        | some node =>
          if node.proc = none then
            let s := s.setDeath d (some ⟨cookie, .deadBinder⟩)
            (s.listAddTail (deathList th thread) (.death d)).note (.queued d)
          else s.setDeath d (some ⟨cookie, .unset⟩)
      else s.setThread th (some { thread with returnError := .error })

/-- `BC_CLEAR_DEATH_NOTIFICATION`. -/
def clearDeath (th : Id) (thread : Thread) (target cookie : Nat) (s : State) : State :=
  match binderGetRef s thread.proc target with
  | none => s
  | some r =>
    match s.refs r with
    | none => s.crash .freedRef
    | some ref =>
      match ref.death with
      | none => s
      | some d =>
        match s.deaths d with
        | none => s.crash .freedDeath
        | some death =>
          if death.cookie ≠ cookie then s
          else
            let s := (s.setRef r (some { ref with death := none })).note (.cleared d)
            if s.unlinked (.death d) then
              let s := s.setDeath d (some { death with type := .clearDeathNotification })
              s.listAddTail (deathList th thread) (.death d)
            else if death.type ≠ .deadBinder then s.crash (.bug .clearDeathType)
            else s.setDeath d (some { death with type := .deadBinderAndClear })

/-- The first delivered death notification with a cookie. -/
def deliveredDeath (s : State) (p cookie : Nat) : Option Id :=
  (s.lists.items (.deliveredDeath p)).findSome? fun w =>
    match w with
    | .death d => if (s.deaths d).any fun death => death.cookie = cookie then some d else none
    | _ => none

/-- `BC_DEAD_BINDER_DONE`. -/
def deadBinderDone (th : Id) (thread : Thread) (cookie : Nat) (s : State) : State :=
  match deliveredDeath s thread.proc cookie with
  | none => s
  | some d =>
    match s.deaths d with
    | none => s.crash .freedDeath
    | some death =>
      let s := (s.listDel (.death d)).note (.acknowledged d)
      if death.type = .deadBinderAndClear then
        let s := s.setDeath d (some { death with type := .clearDeathNotification })
        s.listAddTail (deathList th thread) (.death d)
      else s

/-! ## Delivery -/

/-- The start of `binder_thread_read`: pending errors are reported, else `wait_for_proc_work`
is latched. `room` is how many error codes fit in the buffer. -/
def enterRead (th : Id) (thread : Thread) (room : Nat) (s : State) : State :=
  if thread.returnError ≠ .ok ∧ 0 < room then
    if thread.returnError2 ≠ .ok ∧ room = 1 then s
    else s.setThread th (some { thread with returnError2 := .ok, returnError := .ok })
  else
    let waitForProcWork :=
      thread.transactionStack = none ∧ (s.lists.items (.threadTodo th)).isEmpty
    s.setThread th (some { thread with reading := some waitForProcWork })

/-- The work item `binder_thread_read` takes next. -/
def nextWork (th : Id) (thread : Thread) (s : State) : Option Work :=
  match s.lists.items (.threadTodo th) with
  | w :: _ => some w
  | [] => if thread.reading = some true then (s.lists.items (.procTodo thread.proc)).head?
      else none

/-- Delivers node work: the owner is told to take or drop its own counts, or the node goes. -/
def deliverNode (n : Id) (s : State) : State :=
  match s.nodes n with
  | none => s.crash .freedNode
  | some node =>
    let strong : Bool := node.internalStrongRefs ≠ 0 || node.localStrongRefs ≠ 0
    let weak : Bool := !node.refs.isEmpty || node.localWeakRefs ≠ 0 || strong
    if weak ∧ node.hasWeakRef = false then
      s.setNode n (some { node with
        hasWeakRef := true, pendingWeakRef := true, localWeakRefs := node.localWeakRefs + 1 })
    else if strong ∧ node.hasStrongRef = false then
      s.setNode n (some { node with
        hasStrongRef := true, pendingStrongRef := true
        localStrongRefs := node.localStrongRefs + 1 })
    else if strong = false ∧ node.hasStrongRef then
      s.setNode n (some { node with hasStrongRef := false })
    else if weak = false ∧ node.hasWeakRef then
      s.setNode n (some { node with hasWeakRef := false })
    else if weak = false ∧ strong = false then freeNode n node .nodeWork s
    else s.listDel (.node n)

/-- Delivers death work; a dead binder ends the read. -/
def deliverDeath (th : Id) (thread : Thread) (d : Id) (s : State) : State :=
  match s.deaths d with
  | none => s.crash .freedDeath
  | some death =>
    if death.type = .clearDeathNotification then
      ((s.listDel (.death d)).setDeath d none).note (.clearDone d)
    else
      let s := s.listMove (.deliveredDeath thread.proc) (.death d)
      (s.setThread th (some { thread with reading := none })).note (.deadBinder d)

/-- Whether the sender named in a delivered transaction can be read. -/
def senderGone (x : Transaction) (s : State) : Bool :=
  x.sender.any fun th => (s.threads th).isNone

/-- Delivers a transaction: a call is pushed on the reader's stack, and a reply or one-way
transaction is finished. -/
def deliverTransaction (th : Id) (thread : Thread) (t : Id) (s : State) : State :=
  match s.transactions t with
  | none => s.crash .freedTransaction
  | some x =>
    match x.buffer with
    | none => s.crash (.bug .readBuffer)
    | some b =>
      match s.buffers b with
      | none => s.crash .freedBuffer
      | some buffer =>
        if buffer.targetNode.any fun n => (s.nodes n).isNone then s.crash .freedNode
        else if senderGone x s then s.crash .freedThread
        else
          let s := s.listDel (.transaction t)
          let thread := { thread with reading := none }
          if buffer.targetNode.isSome ∧ x.oneWay = false then
            let s := s.setBuffer b (some { buffer with allowUserFree := true })
            let x := { x with toParent := thread.transactionStack, toThread := some th }
            (s.setTransaction t (some x)).setThread th
              (some { thread with transactionStack := some t })
          else
            let buffer := { buffer with allowUserFree := true, transaction := none }
            ((s.setBuffer b (some buffer)).setTransaction t none).setThread th (some thread)

/-- Delivers one work item. -/
def deliver (th : Id) (thread : Thread) (s : State) : State :=
  match nextWork th thread s with
  | none => s
  | some (.transaction t) => deliverTransaction th thread t s
  | some (.transactionComplete c) => s.listDel (.transactionComplete c)
  | some (.node n) => deliverNode n s
  | some (.death d) => deliverDeath th thread d s

/-! ## Thread exit and process release -/

/-- One round of `binder_release_work`: a call that was never delivered is answered, and any
other work is dropped. -/
def releaseWorkItem (s : State) (w : Work) : State :=
  let s := s.listDel w
  match w with
  | .transaction t =>
    match s.transactions t with
    | none => s.crash .freedTransaction
    | some x =>
      match x.buffer with
      | none => s.crash .nullPointer
      | some b =>
        match s.buffers b with
        | none => s.crash .freedBuffer
        | some buffer =>
          if buffer.targetNode.isSome ∧ x.oneWay = false then
            binderSendFailedReply t .deadReply s
          else s
  | _ => s

/-- `binder_release_work`. -/
def binderReleaseWork (q : ListHead) (s : State) : State :=
  (s.lists.items q).foldl releaseWorkItem s

/-- The walk of `binder_free_thread` over the thread's stack. -/
def releaseStack (th : Id) : Nat → Option Id → State → State
  | _, none, s => s
  | 0, some _, s => s.crash .endlessLoop
  | fuel + 1, some t, s =>
    match s.transactions t with
    | none => s.crash .freedTransaction
    | some x =>
      if x.toThread = some th then
        let s := detachBuffer x.buffer s
        releaseStack th fuel x.toParent
          (s.setTransaction t (some { x with toProc := none, toThread := none, buffer := none }))
      else if x.sender = some th then
        releaseStack th fuel x.fromParent
          (s.setTransaction t (some { x with sender := none }))
      else s.crash (.bug .freeThread)

/-- The transaction a dying thread still has to answer. -/
def pendingReply (th : Id) (thread : Thread) (s : State) : Option Id :=
  thread.transactionStack.filter fun t => (s.transactions t).any fun x => x.toThread = some th

/-- `binder_free_thread`. -/
def binderFreeThread (s : State) (th : Id) : State :=
  match s.threads th with
  | none => s.crash .freedThread
  | some thread =>
    let proc := s.procs thread.proc
    let sendReply := pendingReply th thread s
    let s := s.setProc thread.proc { proc with threads := proc.threads.erase th }
    -- Each transaction is met at most twice, once through each link.
    let s := releaseStack th (2 * s.lastId + 2) thread.transactionStack s
    let s :=
      match sendReply with
      | some t => binderSendFailedReply t .deadReply s
      | none => s
    (binderReleaseWork (.threadTodo th) s).setThread th none

/-- Queues the death notification of a reference whose node dies. -/
def queueDeath (s : State) (r : Id) : State :=
  match s.refs r with
  | none => s.crash .freedRef
  | some ref =>
    match ref.death with
    | none => s
    | some d =>
      match s.deaths d with
      | none => s.crash .freedDeath
      | some death =>
        if s.unlinked (.death d) then
          let s := s.setDeath d (some { death with type := .deadBinder })
          (s.listAddTail (.procTodo ref.proc) (.death d)).note (.queued d)
        else s.crash (.bug .deferredReleaseDeath)

/-- The node that a released process leaves to the references of others. -/
def Node.orphaned (node : Node) : Node :=
  { node with proc := none, localStrongRefs := 0, localWeakRefs := 0 }

/-- One round of the node loop of `binder_deferred_release`. -/
def releaseNode (p : Id) (s : State) (n : Id) : State :=
  match s.nodes n with
  | none => s.crash .freedNode
  | some node =>
    if node.refs.isEmpty then freeNode n node .deferredRelease s
    else
      let s := s.setProc p { s.procs p with nodes := (s.procs p).nodes.erase n }
      let s := s.listDel (.node n)
      node.refs.foldl queueDeath (s.setNode n (some node.orphaned))

/-- One round of the buffer loop of `binder_deferred_release`. -/
def releaseBuffer (p : Id) (s : State) (b : Id) : State :=
  match s.buffers b with
  | none => s.crash .freedBuffer
  | some buffer => binderFreeBuf p b (detachTransaction buffer s)

/-- Clears the context manager when its process goes. -/
def releaseContextMgr (p : Id) (s : State) : State :=
  match s.contextMgrNode with
  | none => s
  | some n =>
    match s.nodes n with
    | none => s.crash .freedNode
    | some node => if node.proc = some p then { s with contextMgrNode := none } else s

/-- `binder_deferred_release`: threads, nodes, references, work and buffers, in this order; the
structure that is freed last is only marked. -/
def binderDeferredRelease (p : Id) (s : State) : State :=
  let s := releaseContextMgr p s
  let s := (s.procs p).threads.foldl binderFreeThread s
  let s := (s.procs p).nodes.foldl (releaseNode p) s
  let s := (s.procs p).refsByDesc.foldl (fun s r => binderDeleteRef r s) s
  let s := binderReleaseWork (.procTodo p) s
  let s := (s.procs p).allocatedBuffers.foldl (releaseBuffer p) s
  s.setProc p { s.procs p with live := false }

/-! ## Transitions -/

/-- The transitions. `room` and `memory` are answers from outside the driver. -/
inductive Op
  | openDriver
  | newThread (p pid : Nat)
  | setContextMgr (th : Id) (euid : Nat) (memory : Bool)
  | refCommand (th : Id) (cmd : RefCommand) (target : Nat) (memory : Bool)
  | nodeDone (th : Id) (strong : Bool) (ptr cookie : Nat)
  | freeBuffer (th b : Id)
  | transaction (th : Id) (tr : TransactionData) (sup : Supply)
  | reply (th : Id) (tr : TransactionData) (sup : Supply)
  | enterLooper (th : Id)
  | requestDeath (th : Id) (target cookie : Nat) (memory : Bool)
  | clearDeath (th : Id) (target cookie : Nat)
  | deadBinderDone (th : Id) (cookie : Nat)
  | enterRead (th : Id) (room : Nat)
  | deliver (th : Id)
  | leaveRead (th : Id)
  | threadExit (th : Id)
  | release (p : Id)

/-- Runs a command of `binder_thread_write`: the thread is not reading and has no error to
report. -/
def onWrite (s : State) (th : Id) (f : Thread → State → State) : State :=
  match s.threads th with
  | none => s
  | some thread => if thread.reading = none ∧ thread.returnError = .ok then f thread s else s

/-- Runs another request of a thread that is outside `binder_thread_read`. -/
def onIdle (s : State) (th : Id) (f : Thread → State → State) : State :=
  match s.threads th with
  | none => s
  | some thread => if thread.reading = none then f thread s else s

/-- Runs a part of `binder_thread_read` of a thread that is inside it. -/
def onRead (s : State) (th : Id) (f : Thread → State → State) : State :=
  match s.threads th with
  | none => s
  | some thread => if thread.reading.isSome then f thread s else s

/-- Whether no thread of the process is inside the driver, so that its file can be released. -/
def quiescent (s : State) (p : Id) : Bool :=
  (s.procs p).live && (s.procs p).threads.all fun th =>
    (s.threads th).all fun thread => thread.reading = none

/-- `BC_ENTER_LOOPER` or `BC_REGISTER_LOOPER`. -/
def enterLooper (th : Id) (thread : Thread) (s : State) : State :=
  s.setThread th (some { thread with looper := true })

/-- The end of a read that delivers nothing more. -/
def leaveRead (th : Id) (thread : Thread) (s : State) : State :=
  s.setThread th (some { thread with reading := none })

/-- `BINDER_THREAD_EXIT`. -/
def threadExit (th : Id) (s : State) : State :=
  binderFreeThread s th

/-- What each transition does; one that is not enabled does nothing. -/
def run (s : State) : Op → State
  | .openDriver => binderOpen s
  | .newThread p pid => if (s.procs p).live then binderGetThread p pid s else s
  | .setContextMgr th euid memory =>
    onIdle s th fun thread => setContextMgr thread.proc euid memory
  | .refCommand th cmd target memory =>
    onWrite s th fun thread => refCommand thread.proc cmd target memory
  | .nodeDone th strong ptr cookie =>
    onWrite s th fun thread => nodeDone thread.proc strong ptr cookie
  | .freeBuffer th b => onWrite s th fun thread => freeBuffer thread.proc th b
  | .transaction th tr sup => onWrite s th fun _ => binderTransaction th tr false sup
  | .reply th tr sup => onWrite s th fun _ => binderTransaction th tr true sup
  | .enterLooper th => onWrite s th fun thread => enterLooper th thread
  | .requestDeath th target cookie memory =>
    onWrite s th fun thread => requestDeath th thread target cookie memory
  | .clearDeath th target cookie => onWrite s th fun thread => clearDeath th thread target cookie
  | .deadBinderDone th cookie => onWrite s th fun thread => deadBinderDone th thread cookie
  | .enterRead th room => onIdle s th fun thread => enterRead th thread room
  | .deliver th => onRead s th fun thread => deliver th thread
  | .leaveRead th => onRead s th fun thread => leaveRead th thread
  | .threadExit th => onIdle s th fun _ => threadExit th
  | .release p => if quiescent s p then binderDeferredRelease p s else s

/-- One transition of a machine that has not stopped. -/
def Step (s : State) (op : Op) (s' : State) : Prop :=
  s.crashed = none ∧ s' = run s op

end AndroidKernel.Binder
