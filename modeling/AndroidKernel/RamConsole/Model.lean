import AndroidKernel.Library.Bytes
import AndroidKernel.Library.Words
import AndroidKernel.ReedSolomon.Model

/-!
# The RAM console

The Android RAM console keeps the last of the kernel's messages in a ring in memory that a reboot
leaves alone, with a parity slot for each block and for the header in the build with error
correction. Offsets are from `buffer->data` on: the data, then a slot for each block, then the
slot of the header.
-/

namespace AndroidKernel.RamConsole

open Library ReedSolomon

/-- The error-correction build: the codec and `ECC_BLOCK_SIZE`, a power of two. `ECC_SIZE` is the
codec's number of roots, which is not 0. -/
structure Ecc where
  rs : RsControl
  blockShift : Nat
  roots : 1 ≤ rs.nroots

/-- `ECC_BLOCK_SIZE`. -/
def Ecc.blockSize (ecc : Ecc) : Nat :=
  2 ^ ecc.blockShift

/-- `ECC_SIZE`. -/
def Ecc.eccSize (ecc : Ecc) : Nat :=
  ecc.rs.nroots

/-- `struct ram_console_buffer`, its memory from `data` on, and `ram_console_buffer_size`. -/
structure Console where
  sig : Nat
  start : Nat
  size : Nat
  mem : Nat → UInt8
  bufferSize : Nat

/-- `RAM_CONSOLE_SIG`. -/
def ramConsoleSig : Nat :=
  0x43474244

/-- A word of the header as bytes, the low one first. -/
def leBytes (x : Nat) : List UInt8 :=
  [UInt8.ofNat x, UInt8.ofNat (x / 2 ^ 8), UInt8.ofNat (x / 2 ^ 16), UInt8.ofNat (x / 2 ^ 24)]

/-- A word of the header from its bytes. -/
def ofLeBytes (bytes : List UInt8) : Nat :=
  (bytes.take 4).foldr (fun byte x => byte.toNat + 2 ^ 8 * x) 0

/-- The header as bytes. -/
def Console.header (c : Console) : List UInt8 :=
  leBytes c.sig ++ leBytes c.start ++ leBytes c.size

/-- The header the bytes stand for. -/
def Console.setHeader (c : Console) (bytes : List UInt8) : Console :=
  { c with
    sig := ofLeBytes bytes
    start := ofLeBytes (bytes.drop 4)
    size := ofLeBytes (bytes.drop 8) }

/-- `ram_console_encode_rs8`: the parity symbols as bytes. -/
def ramConsoleEncodeRs8 (ecc : Ecc) (data : List UInt8) : List UInt8 :=
  (ecc.rs.encodeRs8 data (List.replicate ecc.eccSize 0) 0).2.map UInt8.ofNat

/-- `ram_console_decode_rs8`. -/
def ramConsoleDecodeRs8 (ecc : Ecc) (data par : List UInt8) : Option (Int × List UInt8) :=
  ecc.rs.decodeRs8 data (par.map UInt8.toNat) 0

/-- The loop of `ram_console_update` from the block and the slot at these offsets on. `size` keeps
its value from one turn to the next. -/
def encodeBlocks (ecc : Ecc) (bufferSize stop block par size : Nat) (mem : Nat → UInt8) :
    Nat → UInt8 :=
  let size := if bufferSize < block + ecc.blockSize then bufferSize - block else size
  let mem := write mem par (ramConsoleEncodeRs8 ecc (read mem block size))
  if block + ecc.blockSize < stop then
    encodeBlocks ecc bufferSize stop (block + ecc.blockSize) (par + ecc.eccSize) size mem
  else mem
termination_by stop - block
decreasing_by
  have hpos : 0 < ecc.blockSize := Nat.two_pow_pos _
  omega

/-- `ram_console_update`: the bytes of `s`, then the parity of the blocks it meets, which is one
at least. -/
def ramConsoleUpdate (build : Option Ecc) (c : Console) (s : List UInt8) : Console :=
  let mem := write c.mem c.start s
  match build with
  | none => { c with mem := mem }
  | some ecc =>
    { c with
      mem := encodeBlocks ecc c.bufferSize (c.start + s.length)
        (c.start / ecc.blockSize * ecc.blockSize)
        (c.bufferSize + c.start / ecc.blockSize * ecc.eccSize) ecc.blockSize mem }

/-- `DIV_ROUND_UP`. -/
def divRoundUp (n d : Nat) : Nat :=
  (n + d - 1) / d

/-- The offset of the header's slot. -/
def Console.headerPar (c : Console) (ecc : Ecc) : Nat :=
  c.bufferSize + divRoundUp c.bufferSize ecc.blockSize * ecc.eccSize

/-- `ram_console_update_header`. -/
def ramConsoleUpdateHeader (build : Option Ecc) (c : Console) : Console :=
  match build with
  | none => c
  | some ecc =>
    { c with mem := write c.mem (c.headerPar ecc) (ramConsoleEncodeRs8 ecc c.header) }

/-- The part of a write that is kept: the last bytes, as many as the buffer has. -/
def clip (c : Console) (s : List UInt8) : List UInt8 :=
  if c.bufferSize < s.length then s.drop (s.length - c.bufferSize) else s

/-- The first piece of a write that runs over the end, and the return to the start. -/
def wrapStart (build : Option Ecc) (c : Console) (s : List UInt8) : Console :=
  { ramConsoleUpdate build c (s.take (c.bufferSize - c.start)) with start := 0, size := c.bufferSize }

/-- The last piece of a write, which fits before the end. -/
def writePiece (build : Option Ecc) (c : Console) (s : List UInt8) : Console :=
  let c := ramConsoleUpdate build c s
  ramConsoleUpdateHeader build
    { c with
      start := wadd c.start s.length
      size := if c.size < c.bufferSize then wadd c.size s.length else c.size }

/-- `ram_console_write`. -/
def ramConsoleWrite (build : Option Ecc) (c : Console) (s : List UInt8) : Console :=
  let s := clip c s
  let rem := c.bufferSize - c.start
  if rem < s.length then writePiece build (wrapStart build c s) (s.drop rem)
  else writePiece build c s

/-- `ram_console_corrected_bytes` and `ram_console_bad_blocks`. -/
structure Counts where
  corrected : Int
  bad : Nat

/-- What a decoding adds to the counts. -/
def Counts.add (counts : Counts) (numerr : Int) : Counts :=
  if 0 < numerr then { counts with corrected := counts.corrected + numerr }
  else if numerr < 0 then { counts with bad := counts.bad + 1 }
  else counts

/-- The loop of `ram_console_save_old` that decodes the blocks in use. A codec that rejects the
length of a block stops the kernel. -/
def decodeBlocks (ecc : Ecc) (c : Console) (block par : Nat) (counts : Counts)
    (mem : Nat → UInt8) : Option (Counts × (Nat → UInt8)) :=
  if block < c.size then
    let size :=
      if c.bufferSize < block + ecc.blockSize then c.bufferSize - block else ecc.blockSize
    match ramConsoleDecodeRs8 ecc (read mem block size) (read mem par ecc.eccSize) with
    | none => none
    | some (numerr, data) =>
      decodeBlocks ecc c (block + ecc.blockSize) (par + ecc.eccSize) (counts.add numerr)
        (write mem block data)
  else some (counts, mem)
termination_by c.size - block
decreasing_by
  have hpos : 0 < ecc.blockSize := Nat.two_pow_pos _
  omega

/-- The report that `ram_console_save_old` adds in the build with error correction. -/
def strbuf (counts : Counts) : List UInt8 :=
  let text :=
    if counts.corrected ≠ 0 ∨ counts.bad ≠ 0 then
      "\n" ++ toString counts.corrected ++ " Corrected bytes, " ++ toString counts.bad ++
        " unrecoverable blocks\n"
    else "\nNo errors detected\n"
  (text.toList.map fun c => UInt8.ofNat c.toNat).take 79

/-- What a boot finds: the console it goes on with, the log it saved and the counts. -/
structure Saved where
  console : Console
  log : List UInt8
  counts : Counts

/-- `ram_console_save_old` with room for the log. -/
def ramConsoleSaveOld (build : Option Ecc) (c : Console) (counts : Counts) : Option Saved :=
  match build with
  | none => some ⟨c, read c.mem c.start (c.size - c.start) ++ read c.mem 0 c.start, counts⟩
  | some ecc =>
    match decodeBlocks ecc c 0 c.bufferSize counts c.mem with
    | none => none
    | some (counts, mem) =>
      some ⟨{ c with mem := mem },
        read mem c.start (c.size - c.start) ++ read mem 0 c.start ++ strbuf counts, counts⟩

/-- The end of `ram_console_init`: the ring is empty. -/
def Console.reset (c : Console) : Console :=
  { c with sig := ramConsoleSig, start := 0, size := 0 }

/-- `ram_console_init` once the data size is known: the header is decoded, and a valid old log is
saved. -/
def ramConsoleBoot (build : Option Ecc) (c : Console) : Option (Console × Option Saved) :=
  let decoded : Option (Console × Counts) :=
    match build with
    | none => some (c, ⟨0, 0⟩)
    | some ecc =>
      (ramConsoleDecodeRs8 ecc c.header (read c.mem (c.headerPar ecc) ecc.eccSize)).map fun out =>
        (c.setHeader out.2, (Counts.mk 0 0).add out.1)
  match decoded with
  | none => none
  | some (c, counts) =>
    if c.sig = ramConsoleSig ∧ c.size ≤ c.bufferSize ∧ c.start ≤ c.size then
      (ramConsoleSaveOld build c counts).map fun saved => (saved.console.reset, some saved)
    else some (c.reset, none)

/-- The data size that `ram_console_init` finds for a buffer, in words. -/
def dataSize (build : Option Ecc) (bufferSize : Nat) : Option Nat :=
  let size := wsub bufferSize 12
  if bufferSize < size then none
  else
    match build with
    | none => some size
    | some ecc =>
      let size := wsub size ((divRoundUp size ecc.blockSize + 1) * ecc.eccSize)
      if bufferSize < size then none else some size

/-- `ram_console_init` on a buffer of this size, with what its memory holds. A size that leaves no
room registers no console. -/
def ramConsoleInit (build : Option Ecc) (bufferSize : Nat) (c : Console) :
    Option (Option (Console × Option Saved)) :=
  match dataSize build bufferSize with
  | none => some none
  | some size => (ramConsoleBoot build { c with bufferSize := size }).map some

end AndroidKernel.RamConsole
