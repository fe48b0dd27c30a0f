import AndroidKernel.Library.Ring
import AndroidKernel.Library.Runs
import AndroidKernel.Library.Words

/-!
# A queue for one producer and one consumer

A model of `__kfifo_put` and `__kfifo_get` in `kernel/kfifo.c`, each cut at its barriers: the
counter of the other side is sampled, the bytes are copied in two pieces, and the own counter is
published. `System` runs one call of each at a time, step by step, and logs what was accepted and
what was returned.
-/

namespace AndroidKernel.Kfifo

open Library Library.Ring

universe u

variable {α : Type u}

/-- `struct kfifo`, without its lock. The counters run freely, modulo `2 ^ 32`. -/
structure Kfifo (α : Type u) where
  buffer : Nat → α
  size : Nat
  inIndex : Nat
  outIndex : Nat

/-- `kfifo_init`, for a buffer of some contents. -/
def kfifoInit (buffer : Nat → α) (size : Nat) : Kfifo α :=
  ⟨buffer, size, 0, 0⟩

/-- `index & (fifo->size - 1)`. -/
def Kfifo.offset (fifo : Kfifo α) (index : Nat) : Nat :=
  index &&& (fifo.size - 1)

/-! ## `__kfifo_put` -/

/-- `fifo->size - fifo->in + fifo->out`. -/
def Kfifo.room (fifo : Kfifo α) : Nat :=
  wadd (wsub fifo.size fifo.inIndex) fifo.outIndex

/-- The length of the first piece. -/
def Kfifo.putPiece (fifo : Kfifo α) (len : Nat) : Nat :=
  min len (fifo.size - fifo.offset fifo.inIndex)

/-- Put the data starting from `fifo->in` to buffer end. -/
def Kfifo.putFirst (fifo : Kfifo α) (data : Chunk α) (l : Nat) : Kfifo α :=
  { fifo with buffer := memcpy fifo.buffer (fifo.offset fifo.inIndex) (data.take l) }

/-- Put the rest at the beginning of the buffer. -/
def Kfifo.putRest (fifo : Kfifo α) (data : Chunk α) (l : Nat) : Kfifo α :=
  { fifo with buffer := memcpy fifo.buffer 0 (data.drop l) }

/-- `fifo->in += len`. -/
def Kfifo.putPublish (fifo : Kfifo α) (len : Nat) : Kfifo α :=
  { fifo with inIndex := wadd fifo.inIndex len }

/-! ## `__kfifo_get` -/

/-- `fifo->in - fifo->out`. -/
def Kfifo.used (fifo : Kfifo α) : Nat :=
  wsub fifo.inIndex fifo.outIndex

/-- The length of the first piece. -/
def Kfifo.getPiece (fifo : Kfifo α) (len : Nat) : Nat :=
  min len (fifo.size - fifo.offset fifo.outIndex)

/-- Get the data from `fifo->out` until the end of the buffer. -/
def Kfifo.getFirst (fifo : Kfifo α) (dest : Nat → α) (l : Nat) : Nat → α :=
  memcpy dest 0 ⟨l, fun i => fifo.buffer (fifo.offset fifo.outIndex + i)⟩

/-- Get the rest from the beginning of the buffer. -/
def Kfifo.getRest (fifo : Kfifo α) (dest : Nat → α) (len l : Nat) : Nat → α :=
  memcpy dest l ⟨len - l, fifo.buffer⟩

/-- `fifo->out += len`. -/
def Kfifo.getPublish (fifo : Kfifo α) (len : Nat) : Kfifo α :=
  { fifo with outIndex := wadd fifo.outIndex len }

/-! ## Interleavings -/

/-- A call: the `len` it was given, the counters it sampled and the `len` it returns. -/
structure Call where
  requested : Nat
  inIndex : Nat
  outIndex : Nat
  len : Nat
  deriving DecidableEq, Repr

/-- How far the producer is: not in a call, before the first piece, between the pieces, and before
the publication. -/
inductive Producer (α : Type u) where
  | idle
  | sampled (call : Call) (data : Chunk α)
  | first (call : Call) (data : Chunk α) (l : Nat)
  | copied (call : Call) (data : Chunk α)

/-- How far the consumer is. `dest` is the memory it copies to. -/
inductive Consumer (α : Type u) where
  | idle
  | sampled (call : Call) (dest : Nat → α)
  | first (call : Call) (dest : Nat → α) (l : Nat)
  | copied (call : Call) (dest : Nat → α)

/-- The queue with its two sides, the calls that have returned, and the bytes that they have
accepted and returned so far. -/
structure System (α : Type u) where
  fifo : Kfifo α
  producer : Producer α
  consumer : Consumer α
  puts : List Call
  gets : List Call
  accepted : List α
  returned : List α

def initial (buffer : Nat → α) (size : Nat) : System α where
  fifo := kfifoInit buffer size
  producer := .idle
  consumer := .idle
  puts := []
  gets := []
  accepted := []
  returned := []

/-- The next step: a call begins, or a side goes on with its call. -/
inductive Op (α : Type u) where
  | put (data : Nat → α) (len : Nat)
  | get (dest : Nat → α) (len : Nat)
  | producer
  | consumer

/-- The first `len` bytes of a memory. -/
def bytes (memory : Nat → α) (len : Nat) : List α :=
  (List.range len).map memory

/-- The producer goes on. -/
def produce (s : System α) : System α :=
  match s.producer with
  | .idle => s
  | .sampled call data =>
    let l := s.fifo.putPiece call.len
    { s with fifo := s.fifo.putFirst data l, producer := .first call data l }
  | .first call data l => { s with fifo := s.fifo.putRest data l, producer := .copied call data }
  | .copied call data =>
    { s with fifo := s.fifo.putPublish call.len, producer := .idle
             puts := s.puts ++ [call], accepted := s.accepted ++ bytes data.get call.len }

/-- The consumer goes on. -/
def consume (s : System α) : System α :=
  match s.consumer with
  | .idle => s
  | .sampled call dest =>
    let l := s.fifo.getPiece call.len
    { s with consumer := .first call (s.fifo.getFirst dest l) l }
  | .first call dest l => { s with consumer := .copied call (s.fifo.getRest dest call.len l) }
  | .copied call dest =>
    { s with fifo := s.fifo.getPublish call.len, consumer := .idle
             gets := s.gets ++ [call], returned := s.returned ++ bytes dest call.len }

def step (s : System α) : Op α → System α
  | .put data len =>
    match s.producer with
    | .idle =>
      let call := ⟨len, s.fifo.inIndex, s.fifo.outIndex, min len s.fifo.room⟩
      { s with producer := .sampled call ⟨call.len, data⟩ }
    | _ => s
  | .get dest len =>
    match s.consumer with
    | .idle =>
      let call := ⟨len, s.fifo.inIndex, s.fifo.outIndex, min len s.fifo.used⟩
      { s with consumer := .sampled call dest }
    | _ => s
  | .producer => produce s
  | .consumer => consume s

def Step (s : System α) (op : Op α) (s' : System α) : Prop :=
  step s op = s'

end AndroidKernel.Kfifo
