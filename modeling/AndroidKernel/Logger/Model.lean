import AndroidKernel.Library.Ring
import Mathlib.Data.List.Basic
import Mathlib.Algebra.GroupWithZero.Nat

/-!
# The log device

A model of `drivers/staging/android/logger.c` for one log. Entries of a 20 byte header and up to
4076 bytes of payload follow one another in a ring of bytes; the header starts with the length of
the payload as a little-endian 16-bit number. Every open file that can read has an offset into
the ring, and `head` is the offset new readers start at.

A copy from user space that faults may have changed any bytes of its destination. A file opened
for writing only has no state.
-/

namespace AndroidKernel.Logger

open Library Library.Ring

/-- `sizeof(struct logger_entry)`. -/
def headerLength : Nat := 20

/-- `LOGGER_ENTRY_MAX_LEN`. -/
def entryMaxLen : Nat := 4 * 1024

/-- `LOGGER_ENTRY_MAX_PAYLOAD`. -/
def entryMaxPayload : Nat := entryMaxLen - headerLength

/-- `struct logger_reader`; `id` stands for the open file. -/
structure Reader where
  id : Nat
  rOff : Nat
  deriving DecidableEq, Repr

/-- `struct logger_log`. -/
structure Log where
  size : Nat
  buffer : Nat → UInt8
  wOff : Nat
  head : Nat
  readers : List Reader

/-- `logger_offset`: the offset `n` steps to, by the modulus of a power of two. -/
def Log.offset (log : Log) (n : Nat) : Nat := n &&& (log.size - 1)

/-- `get_entry_len`: the whole length of the entry at `off`, whose length field may wrap. -/
def getEntryLen (log : Log) (off : Nat) : Nat :=
  let low := (log.buffer off).toNat
  let high := if log.size - off = 1 then (log.buffer 0).toNat else (log.buffer (off + 1)).toNat
  headerLength + (low + 256 * high)

/-! ## Reading -/

/-- The bytes `do_read_log_to_user` copies: up to the end of the array, then from its start. -/
def readBytes (log : Log) (rOff count : Nat) : Chunk UInt8 :=
  let len := min count (log.size - rOff)
  ⟨count, fun i => if i < len then log.buffer (rOff + i) else log.buffer (i - len)⟩

/-- The results of `logger_read`: nothing to read (`-EAGAIN`, `-EINTR` or still waiting),
`-EINVAL`, `-EFAULT`, or the bytes read. -/
inductive ReadResult where
  | empty
  | invalid
  | fault
  | bytes (chunk : Chunk UInt8)

/-- `logger_read` for the reader with this `r_off`, with a buffer of `count` bytes that may fault:
the new `r_off` and the result. -/
def loggerRead (log : Log) (rOff count : Nat) (fault : Bool) : Nat × ReadResult :=
  if log.wOff = rOff then (rOff, .empty)
  else
    let ret := getEntryLen log rOff
    if count < ret then (rOff, .invalid)
    else if fault then (rOff, .fault)
    else (log.offset (rOff + ret), .bytes (readBytes log rOff ret))

/-! ## Writing -/

/-- The loop of `get_next_entry`; every pass adds at least a header to `count`. -/
def nextEntryLoop (log : Log) (len : Nat) : Nat → Nat → Nat → Nat
  | 0, off, _ => off
  | fuel + 1, off, count =>
    let nr := getEntryLen log off
    let off := log.offset (off + nr)
    if count + nr < len then nextEntryLoop log len fuel off (count + nr) else off

/-- `get_next_entry`. -/
def getNextEntry (log : Log) (off len : Nat) : Nat :=
  nextEntryLoop log len (len + 1) off 0

/-- `clock_interval`. -/
def clockInterval (a b c : Nat) : Bool :=
  if b < a then a < c || b ≥ c else a < c && b ≥ c

/-- The part of `fix_up_readers` for one offset. -/
def fixUp (log : Log) (len off : Nat) : Nat :=
  if clockInterval log.wOff (log.offset (log.wOff + len)) off then getNextEntry log off len
  else off

/-- `fix_up_readers`. -/
def fixUpReaders (log : Log) (len : Nat) : Log :=
  { log with
    head := fixUp log len log.head
    readers := log.readers.map fun reader => { reader with rOff := fixUp log len reader.rOff } }

/-- `do_write_log`. -/
def doWriteLog (log : Log) (chunk : Chunk UInt8) : Log :=
  { log with
    buffer := put log.size log.buffer log.wOff chunk
    wOff := log.offset (log.wOff + chunk.length) }

/-- One element of the user's vector. When reading it faults, `fault` says which of the bytes
that it was to replace have changed, and to what. -/
structure Iovec where
  data : Chunk UInt8
  fault : Option (Nat → Option UInt8)

/-- The buffer after a faulting copy of `count` bytes to `off`. -/
def garble (size : Nat) (buffer : Nat → UInt8) (off count : Nat) (bytes : Nat → Option UInt8) :
    Nat → UInt8 :=
  fun i =>
    let index := (i + size - off) % size
    if index < count then (bytes index).getD (buffer i) else buffer i

/-- `do_write_log_from_user`; the flag says whether the copy succeeded. -/
def doWriteLogFromUser (log : Log) (iov : Iovec) (count : Nat) : Log × Bool :=
  match iov.fault with
  | some bytes =>
    if count = 0 then (log, true)
    else ({ log with buffer := garble log.size log.buffer log.wOff count bytes }, false)
  | none => (doWriteLog log (iov.data.take count), true)

/-- The loop of `logger_aio_write` over the vector, with `ret` bytes of the payload written. -/
def writeSegments (payload : Nat) : List Iovec → Log → Nat → Log × Bool
  | [], log, _ => (log, true)
  | iov :: rest, log, ret =>
    let len := min iov.data.length (payload - ret)
    match doWriteLogFromUser log iov len with
    | (log, false) => (log, false)
    | (log, true) => writeSegments payload rest log (ret + len)

/-- The header: the length of the payload, and `stamp` for the padding, ids and time. -/
def entryHeader (payload : Nat) (stamp : Nat → UInt8) : Chunk UInt8 :=
  ⟨headerLength, fun i =>
    if i = 0 then UInt8.ofNat payload
    else if i = 1 then UInt8.ofNat (payload / 256)
    else stamp i⟩

/-- `iocb->ki_left`: the length of the vector. -/
def vectorLength (iovs : List Iovec) : Nat := (iovs.map fun iov => iov.data.length).sum

/-- `header.len`. -/
def payloadLength (iovs : List Iovec) : Nat := min (vectorLength iovs) entryMaxPayload

/-- `logger_aio_write`, with `orig` the value of `log->w_off` when it was entered. The flag says
whether the write succeeded. -/
def loggerAioWrite (log : Log) (orig : Nat) (stamp : Nat → UInt8) (iovs : List Iovec) :
    Log × Bool :=
  let len := payloadLength iovs
  if len = 0 then (log, true)
  else
    let log := fixUpReaders log (headerLength + len)
    let log := doWriteLog log (entryHeader len stamp)
    match writeSegments len iovs log 0 with
    | (log, true) => (log, true)
    | (log, false) => ({ log with wOff := orig }, false)

/-! ## Files -/

/-- `logger_open` for reading. -/
def loggerOpen (log : Log) (id : Nat) : Log :=
  { log with readers := log.readers ++ [⟨id, log.head⟩] }

/-- `logger_release`. -/
def loggerRelease (log : Log) (id : Nat) : Log :=
  { log with readers := log.readers.filter (·.id ≠ id) }

/-- `LOGGER_FLUSH_LOG`. -/
def loggerFlush (log : Log) : Log :=
  { log with
    head := log.wOff
    readers := log.readers.map fun reader => { reader with rOff := log.wOff } }

/-- `logger_poll`: whether the reader finds something to read. -/
def loggerPoll (log : Log) (rOff : Nat) : Bool := log.wOff ≠ rOff

/-- The read of one file. -/
def readFile (log : Log) (id count : Nat) (fault : Bool) : Log :=
  { log with readers := log.readers.map fun reader =>
      if reader.id = id then { reader with rOff := (loggerRead log reader.rOff count fault).1 }
      else reader }

/-- The calls on the files of a log. -/
inductive Op where
  | openRead (id : Nat)
  | release (id : Nat)
  | read (id count : Nat) (fault : Bool)
  | poll (id : Nat)
  | write (stamp : Nat → UInt8) (iovs : List Iovec)
  | flush

/-- One call, executed atomically. A file is opened under an id that no open file has. -/
def step (log : Log) : Op → Option Log
  | .openRead id => if log.readers.any (·.id = id) then none else some (loggerOpen log id)
  | .release id => some (loggerRelease log id)
  | .read id count fault => some (readFile log id count fault)
  | .poll _ => some log
  | .write stamp iovs => some (loggerAioWrite log log.wOff stamp iovs).1
  | .flush => some (loggerFlush log)

/-- A log as `DEFINE_LOGGER_DEVICE` defines it. -/
def emptyLog (size : Nat) : Log := ⟨size, fun _ => 0, 0, 0, []⟩

end AndroidKernel.Logger
