import AndroidKernel.Binder.Model

/-!
# Binder transactions

`binder_transaction` with its object translation, the release of a transaction buffer, and
the transaction stacks: `binder_pop_transaction`, `binder_send_failed_reply` and the walks
over the two parent links.
-/

namespace AndroidKernel.Binder

/-! ## Flattened objects -/

/-- `BINDER_TYPE_BINDER` or `BINDER_TYPE_WEAK_BINDER`. -/
def binderType (strong : Bool) : Nat :=
  if strong then 0x73622a85 else 0x77622a85

/-- `BINDER_TYPE_HANDLE` or `BINDER_TYPE_WEAK_HANDLE`. -/
def handleType (strong : Bool) : Nat :=
  if strong then 0x73682a85 else 0x77682a85

/-- `BINDER_TYPE_FD`. -/
def fdType : Nat := 0x66642a85

/-- `fp->type`, as the two switch statements distinguish it. -/
inductive ObjectType
  | binder (strong : Bool)
  | handle (strong : Bool)
  | fd
  | other
  deriving DecidableEq

/-- Reads a type word. -/
def objectType (word : Nat) : ObjectType :=
  if word = binderType true then .binder true
  else if word = binderType false then .binder false
  else if word = handleType true then .handle true
  else if word = handleType false then .handle false
  else if word = fdType then .fd
  else .other

/-- `struct flat_binder_object`; `binder` is also the handle. -/
structure FlatObject where
  type : Nat
  flags : Nat
  binder : Nat
  cookie : Nat

/-- Reads the object at a byte offset: four words from the payload. -/
def readObject (data : Nat → Nat) (off : Nat) : FlatObject :=
  ⟨data (off / 4), data (off / 4 + 1), data (off / 4 + 2), data (off / 4 + 3)⟩

/-- Writes an object's words back; the flags word is never written. -/
def writeObject (data : Nat → Nat) (off : Nat) (fp : FlatObject) : Nat → Nat := fun i =>
  if i = off / 4 then fp.type
  else if i = off / 4 + 2 then fp.binder
  else if i = off / 4 + 3 then fp.cookie
  else data i

/-- The offset check of both passes, with a 16 byte object. -/
def badOffset (dataSize off : Nat) : Bool :=
  off > dataSize - 16 || dataSize < 16 || off % 4 ≠ 0

/-- `struct binder_transaction_data`: the flag bits the driver reads, the payload words and the
offset array with its size in bytes. -/
structure TransactionData where
  handle : Nat
  oneWay : Bool
  acceptFds : Bool
  dataSize : Nat
  data : Nat → Nat
  offsetsSize : Nat
  offsetArray : Nat → Nat

/-- The offsets the loop goes over. -/
def TransactionData.offsets (tr : TransactionData) : List Nat :=
  (List.range (tr.offsetsSize / 4)).map tr.offsetArray

/-- What the rest of the kernel answers during one transaction: memory for the transaction,
its completion and its buffer, the copies from user space, memory for the node and the
reference of each object, and files. `garbage` is the value of `return_error` on the path
that never assigns it. -/
structure Supply where
  transaction : Bool
  tcomplete : Bool
  buffer : Bool
  copyData : Bool
  copyOffsets : Bool
  node : Nat → Bool
  ref : Nat → Bool
  fget : Nat → Bool
  unusedFd : Nat → Option Nat
  garbage : ReturnError

/-- Where a transaction goes. -/
structure Target where
  proc : Id
  thread : Option Id
  node : Option Id
  inReplyTo : Option Id

/-! ## Object translation -/

/-- Whether file descriptors may be sent: the flag of the transaction replied to, or of the
target node. -/
def fdsAccepted (target : Target) (s : State) : Bool :=
  match target.inReplyTo with
  | some t => (s.transactions t).any Transaction.acceptFds
  | none => (target.node.bind s.nodes).any Node.acceptFds

/-- The sender's node for a flattened binder, new if it has none. -/
def getOrNewNode (p : Id) (fp : FlatObject) (memory : Bool) (s : State) : State × Option Id :=
  match binderGetNode s p fp.binder with
  | some n => (s, some n)
  | none => binderNewNode p fp.binder fp.cookie (fp.flags.testBit 8) memory s

/-- What one object becomes, or the error that ends the loop. -/
structure Translated where
  state : State
  data : Nat → Nat
  failed : Option ReturnError

/-- Translates a binder of the sender into a handle of the target. -/
def translateBinder (p th : Id) (target : Target) (sup : Supply) (i off : Nat) (strong : Bool)
    (data : Nat → Nat) (s : State) : Translated :=
  let fp := readObject data off
  match getOrNewNode p fp (sup.node i) s with
  | (s, none) => ⟨s, data, some .failedReply⟩
  | (s, some n) =>
    if (s.nodes n).any fun node => node.cookie = fp.cookie then
      match binderGetRefForNode target.proc n (sup.ref i) s with
      | (s, none) => ⟨s, data, some .failedReply⟩
      | (s, some r) =>
        let fp := { fp with type := handleType strong, binder := s.refDesc r }
        ⟨(binderIncRef r strong (some (.threadTodo th)) s).1, writeObject data off fp, none⟩
    else ⟨s, data, some sup.garbage⟩

/-- Translates a handle of the sender into a binder of the target or another handle. -/
def translateHandle (p : Id) (target : Target) (sup : Supply) (i off : Nat) (strong : Bool)
    (data : Nat → Nat) (s : State) : Translated :=
  let fp := readObject data off
  match (binderGetRef s p fp.binder).bind s.refs with
  | none => ⟨s, data, some .failedReply⟩
  | some ref =>
    match s.nodes ref.node with
    | none => ⟨s.crash .freedNode, data, some .failedReply⟩
    | some node =>
      if node.proc = some target.proc then
        let fp :=
          { fp with type := binderType strong, binder := node.ptr, cookie := node.cookie }
        ⟨(binderIncNode ref.node strong false none s).1, writeObject data off fp, none⟩
      else
        match binderGetRefForNode target.proc ref.node (sup.ref i) s with
        | (s, none) => ⟨s, data, some .failedReply⟩
        | (s, some r) =>
          let fp := { fp with binder := s.refDesc r }
          ⟨(binderIncRef r strong none s).1, writeObject data off fp, none⟩

/-- Translates a file descriptor. -/
def translateFd (target : Target) (sup : Supply) (i off : Nat) (data : Nat → Nat) (s : State) :
    Translated :=
  let fp := readObject data off
  if fdsAccepted target s ∧ sup.fget fp.binder then
    match sup.unusedFd i with
    | some fd => ⟨s, writeObject data off { fp with binder := fd }, none⟩
    | none => ⟨s, data, some .failedReply⟩
  else ⟨s, data, some .failedReply⟩

/-- One round of the loop over the offsets. -/
def translateObject (p th : Id) (target : Target) (sup : Supply) (dataSize i off : Nat)
    (data : Nat → Nat) (s : State) : Translated :=
  if badOffset dataSize off then ⟨s, data, some .failedReply⟩
  else
    match objectType (readObject data off).type with
    | .binder strong => translateBinder p th target sup i off strong data s
    | .handle strong => translateHandle p target sup i off strong data s
    | .fd => translateFd target sup i off data s
    | .other => ⟨s, data, some .failedReply⟩

/-- What the loop leaves: on failure, how many objects were translated and the error. -/
structure TranslatedAll where
  state : State
  data : Nat → Nat
  failed : Option (Nat × ReturnError)

/-- The loop over the offsets from the `i`-th on. -/
def translateObjects (p th : Id) (target : Target) (sup : Supply) (dataSize : Nat) :
    Nat → List Nat → (Nat → Nat) → State → TranslatedAll
  | _, [], data, s => ⟨s, data, none⟩
  | i, off :: rest, data, s =>
    let one := translateObject p th target sup dataSize i off data s
    match one.failed with
    | some e => ⟨one.state, one.data, some (i, e)⟩
    | none => translateObjects p th target sup dataSize (i + 1) rest one.data one.state

/-! ## Buffer release -/

/-- Drops the count that the object at one offset holds. -/
def releaseObject (p : Id) (buffer : Buffer) (s : State) (off : Nat) : State :=
  if badOffset buffer.dataSize off then s
  else
    let fp := readObject buffer.data off
    match objectType fp.type with
    | .binder strong =>
      match binderGetNode s p fp.binder with
      | some n => binderDecNode n strong false s
      | none => s
    | .handle strong =>
      match binderGetRef s p fp.binder with
      | some r => binderDecRef r strong s
      | none => s
    | .fd => s
    | .other => s

/-- Drops the count on the target node. -/
def releaseTargetNode (buffer : Buffer) (s : State) : State :=
  match buffer.targetNode with
  | some n => binderDecNode n true false s
  | none => s

/-- Drops every count of a buffer, or those of its first `failedAt` objects. -/
def binderTransactionBufferRelease (p : Id) (buffer : Buffer) (failedAt : Option Nat)
    (s : State) : State :=
  let offsets :=
    match failedAt with
    | some k => buffer.offsets.take k
    | none => buffer.offsets
  offsets.foldl (releaseObject p buffer) (releaseTargetNode buffer s)

/-- `binder_free_buf`, as far as the objects see it. -/
def binderFreeBuf (p b : Id) (s : State) : State :=
  (s.setBuffer b none).setProc p
    { s.procs p with allocatedBuffers := (s.procs p).allocatedBuffers.erase b }

/-! ## Transaction stacks -/

/-- `t->buffer->transaction = NULL`. -/
def detachBuffer (buffer : Option Id) (s : State) : State :=
  match buffer with
  | none => s
  | some b =>
    match s.buffers b with
    | none => s.crash .freedBuffer
    | some x => s.setBuffer b (some { x with transaction := none })

/-- Frees a transaction, popping it from the sender's stack when there is a sender. -/
def binderPopTransaction (targetThread : Option Id) (t : Id) (s : State) : State :=
  match s.transactions t with
  | none => s.crash .freedTransaction
  | some x =>
    match targetThread with
    | none => (detachBuffer x.buffer s).setTransaction t none
    | some th =>
      match s.threads th with
      | none => s.crash .freedThread
      | some thread =>
        if thread.transactionStack ≠ some t then s.crash (.bug .popTransactionStack)
        else if x.sender ≠ some th then s.crash (.bug .popTransactionFrom)
        else
          let s := s.setThread th (some { thread with transactionStack := x.fromParent })
          (detachBuffer x.buffer s).setTransaction t none

/-- The error moved aside before another one is stored. -/
def Thread.shiftError (thread : Thread) : Thread :=
  if thread.returnError ≠ .ok ∧ thread.returnError2 = .ok then
    { thread with returnError2 := thread.returnError, returnError := .ok }
  else thread

/-- The loop of `binder_send_failed_reply`: senders that are gone are skipped, up to the first
live one. -/
def sendFailedReplyLoop : Nat → Id → ReturnError → State → State
  | 0, _, _, s => s.crash .endlessLoop
  | fuel + 1, t, e, s =>
    match s.transactions t with
    | none => s.crash .freedTransaction
    | some x =>
      match x.sender with
      | some th =>
        match s.threads th with
        | none => s.crash .freedThread
        | some thread =>
          let s := s.setThread th (some thread.shiftError)
          if thread.shiftError.returnError = .ok then
            let s := binderPopTransaction (some th) t s
            match s.threads th with
            | none => s.crash .freedThread
            | some thread => s.setThread th (some { thread with returnError := e })
          else s
      | none =>
        let s := binderPopTransaction none t s
        match x.fromParent with
        | none => s
        | some next => sendFailedReplyLoop fuel next e s

/-- Reports a failed transaction to the nearest live sender. -/
def binderSendFailedReply (t : Id) (e : ReturnError) (s : State) : State :=
  match s.transactions t with
  | none => s.crash .freedTransaction
  | some x =>
    if x.oneWay then s.crash (.bug .sendFailedReplyOneWay)
    else sendFailedReplyLoop (s.lastId + 1) t e s

/-! ## Target selection -/

/-- The outcome of target selection. -/
inductive Selected
  | target (target : Target)
  | failed (inReplyTo : Option Id) (e : ReturnError)
  | stopped (c : Crash)

/-- The walk up the call chain: the last sender met that lives in the target process. -/
def findTargetThread (s : State) (targetProc : Id) :
    Nat → Option Id → Option Id → Except Crash (Option Id)
  | _, none, found => .ok found
  | 0, some _, _ => .error .endlessLoop
  | fuel + 1, some t, found =>
    match s.transactions t with
    | none => .error .freedTransaction
    | some x =>
      match x.sender with
      | none => findTargetThread s targetProc fuel x.fromParent found
      | some th =>
        match s.threads th with
        | none => .error .freedThread
        | some thread =>
          findTargetThread s targetProc fuel x.fromParent
            (if thread.proc = targetProc then some th else found)

/-- The node a transaction is sent to. -/
def targetNode (s : State) (p handle : Nat) : Except ReturnError Id :=
  if handle ≠ 0 then
    match (binderGetRef s p handle).bind s.refs with
    | some ref => .ok ref.node
    | none => .error .failedReply
  else
    match s.contextMgrNode with
    | some n => .ok n
    | none => .error .deadReply

/-- Target selection of `BC_TRANSACTION`. -/
def callTarget (s : State) (th : Id) (thread : Thread) (tr : TransactionData) : Selected :=
  match targetNode s thread.proc tr.handle with
  | .error e => .failed none e
  | .ok n =>
    match s.nodes n with
    | none => .stopped .freedNode
    | some node =>
      match node.proc with
      | none => .failed none .deadReply
      | some targetProc =>
        match tr.oneWay, thread.transactionStack with
        | false, some t =>
          match s.transactions t with
          | none => .stopped .freedTransaction
          | some x =>
            if x.toThread ≠ some th then .failed none .failedReply
            else
              match findTargetThread s targetProc (s.lastId + 1) (some t) none with
              | .error c => .stopped c
              | .ok found => .target ⟨targetProc, found, some n, none⟩
        | _, _ => .target ⟨targetProc, none, some n, none⟩

/-- Target selection of `BC_REPLY`, which pops the transaction it answers. -/
def replyTarget (th : Id) (thread : Thread) (s : State) : State × Selected :=
  match thread.transactionStack with
  | none => (s, .failed none .failedReply)
  | some t =>
    match s.transactions t with
    | none => (s, .stopped .freedTransaction)
    | some x =>
      if x.toThread ≠ some th then (s, .failed none .failedReply)
      else
        let s := s.setThread th (some { thread with transactionStack := x.toParent })
        match x.sender with
        | none => (s, .failed (some t) .deadReply)
        | some sender =>
          match s.threads sender with
          | none => (s, .stopped .freedThread)
          | some target =>
            if target.transactionStack ≠ some t then (s, .failed none .failedReply)
            else (s, .target ⟨target.proc, some sender, none, some t⟩)

/-! ## The transaction -/

/-- The common end of every error path. -/
def failTransaction (th : Id) (inReplyTo : Option Id) (e : ReturnError) (s : State) : State :=
  match s.threads th with
  | none => s.crash .freedThread
  | some thread =>
    if thread.returnError ≠ .ok then s.crash (.bug .transactionReturnError)
    else
      match inReplyTo with
      | some t =>
        binderSendFailedReply t e
          (s.setThread th (some { thread with returnError := .transactionComplete }))
      | none => s.setThread th (some { thread with returnError := e })

/-- The list a transaction is queued on; the first one-way transaction of a node takes the
node's flag. -/
def enqueueTransaction (target : Target) (t : Id) (oneWay : Bool) (s : State) : State :=
  let work := Work.transaction t
  match target.thread with
  | some th => s.listAddTail (.threadTodo th) work
  | none =>
    match oneWay, target.node with
    | true, some n =>
      match s.nodes n with
      | none => s.crash .freedNode
      | some node =>
        if node.hasAsyncTransaction then s.listAddTail (.asyncTodo n) work
        else
          (s.setNode n (some { node with hasAsyncTransaction := true })).listAddTail
            (.procTodo target.proc) work
    | _, _ => s.listAddTail (.procTodo target.proc) work

/-- The buffer of a transaction, with its payload translated. -/
def TransactionData.buffer (tr : TransactionData) (target : Target) (reply : Bool) (t : Id)
    (data : Nat → Nat) : Buffer where
  proc := target.proc
  allowUserFree := false
  asyncTransaction := !reply && tr.oneWay
  transaction := some t
  targetNode := target.node
  dataSize := tr.dataSize
  data := data
  offsets := tr.offsets

/-- Pushes a synchronous call on the sender's stack. -/
def pushTransaction (th t : Id) (s : State) : State :=
  match s.threads th with
  | none => s.crash .freedThread
  | some thread => s.setThread th (some { thread with transactionStack := some t })

/-- The transaction as it is queued: a synchronous call remembers its sender and what the
sender was doing. -/
def newTransaction (th : Id) (tr : TransactionData) (reply : Bool) (target : Target)
    (s : State) : Transaction :=
  let sync := !reply && !tr.oneWay
  { sender := if sync then some th else none
    fromParent := if sync then (s.threads th).bind Thread.transactionStack else none
    toProc := some target.proc
    toThread := target.thread
    toParent := none
    needReply := sync
    buffer := some (s.lastId + 2)
    oneWay := tr.oneWay
    acceptFds := tr.acceptFds }

/-- Makes the transaction, its buffer and its completion, named by the next three names. -/
def allocTransaction (th : Id) (tr : TransactionData) (reply : Bool) (target : Target)
    (data : Nat → Nat) (s : State) : State :=
  let t := s.lastId + 1
  let b := s.lastId + 2
  let x := newTransaction th tr reply target s
  let proc := s.procs target.proc
  let s := { s with lastId := s.lastId + 3 }
  let s := s.setProc target.proc { proc with allocatedBuffers := b :: proc.allocatedBuffers }
  (s.setBuffer b (some (tr.buffer target reply t data))).setTransaction t (some x)

/-- The end of a successful transaction: the stacks, the queue and the completion. -/
def completeTransaction (th : Id) (tr : TransactionData) (reply : Bool) (target : Target)
    (data : Nat → Nat) (s : State) : State :=
  let t := s.lastId + 1
  let c := s.lastId + 3
  let s := allocTransaction th tr reply target data s
  let s :=
    match target.inReplyTo with
    | some inReplyTo => binderPopTransaction target.thread inReplyTo s
    | none => if !reply && !tr.oneWay then pushTransaction th t s else s
  let s := enqueueTransaction target t (!reply && tr.oneWay) s
  s.listAddTail (.threadTodo th) (.transactionComplete c)

/-- The buffer's count on the target node. -/
def countTargetNode (target : Target) (s : State) : State :=
  match target.node with
  | some n => (binderIncNode n true false none s).1
  | none => s

/-- The payload is copied in and its objects are translated. -/
def translatePayload (th : Id) (thread : Thread) (tr : TransactionData) (sup : Supply)
    (target : Target) (s : State) : TranslatedAll :=
  let s := countTargetNode target s
  if sup.copyData ∧ sup.copyOffsets ∧ tr.offsetsSize % 4 = 0 then
    translateObjects thread.proc th target sup tr.dataSize 0 tr.offsets tr.data s
  else ⟨s, tr.data, some (0, .failedReply)⟩

/-- The part of `binder_transaction` after the target is known. -/
def sendTransaction (th : Id) (thread : Thread) (tr : TransactionData) (reply : Bool)
    (sup : Supply) (target : Target) (s : State) : State :=
  if sup.transaction ∧ sup.tcomplete ∧ sup.buffer then
    let all := translatePayload th thread tr sup target s
    match all.failed with
    | none => completeTransaction th tr reply target all.data all.state
    | some (k, e) =>
      let buffer := tr.buffer target reply 0 all.data
      failTransaction th target.inReplyTo e
        (binderTransactionBufferRelease target.proc buffer (some k) all.state)
  else failTransaction th target.inReplyTo .failedReply s

/-- `binder_transaction`, for `BC_TRANSACTION` and for `BC_REPLY`. -/
def binderTransaction (th : Id) (tr : TransactionData) (reply : Bool) (sup : Supply) (s : State) :
    State :=
  match s.threads th with
  | none => s.crash .freedThread
  | some thread =>
    let (s, selected) :=
      if reply then replyTarget th thread s else (s, callTarget s th thread tr)
    match selected with
    | .stopped c => s.crash c
    | .failed inReplyTo e => failTransaction th inReplyTo e s
    | .target target => sendTransaction th thread tr reply sup target s

end AndroidKernel.Binder
