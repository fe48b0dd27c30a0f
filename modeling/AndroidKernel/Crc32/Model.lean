import AndroidKernel.Library.Digits

/-!
# CRC32

A model of `lib/crc32.c` and of the tables that `lib/gen_crc32table.c` makes for it, with
`CRC_LE_BITS` and `CRC_BE_BITS` equal to 8. Memory is a function from byte addresses, and a pointer
is an address. `cpu` is the byte order of the machine.
-/

namespace AndroidKernel.Crc32

open Library

abbrev U32 := BitVec 32

abbrev Mem := Int → Byte

/-- An array of 256 words. -/
abbrev Table := Vector U32 256

/-- `tab[k]`. -/
def Table.entry (tab : Table) (k : Nat) : U32 :=
  tab.getD k 0#32

/-- `tab[k] = x`. -/
def Table.store (tab : Table) (k : Nat) (x : U32) : Table :=
  tab.setIfInBounds k x

inductive Endian where
  | little
  | big
  deriving DecidableEq

def Endian.other : Endian → Endian
  | little => big
  | big => little

/-- A table with its first entry set. The tables are static, so the other entries are zero. -/
def emptyTable : Table :=
  Table.store (Vector.replicate 256 0#32) 0 0#32

/-! ## Bits at a time -/

def crcpolyLe : U32 := 0xedb88320#32

def crcpolyBe : U32 := 0x04c11db7#32

/-- `(crc >> 1) ^ ((crc & 1) ? CRCPOLY_LE : 0)`. -/
def stepLe (crc : U32) : U32 :=
  (crc >>> 1) ^^^ if crc &&& 1#32 ≠ 0#32 then crcpolyLe else 0#32

/-- `(crc << 1) ^ ((crc & 0x80000000) ? CRCPOLY_BE : 0)`. -/
def stepBe (crc : U32) : U32 :=
  (crc <<< 1) ^^^ if crc &&& 0x80000000#32 ≠ 0#32 then crcpolyBe else 0#32

/-- The loop `while (len--)` whose body is an update of `crc` with `*p++`. -/
def eachByte (body : U32 → Byte → U32) (mem : Mem) : Nat → U32 → Int → U32
  | 0, crc, _ => crc
  | len + 1, crc, p => eachByte body mem len (body crc (mem p)) (p + 1)

/-- The body of the loop of `crc32_le` with `CRC_LE_BITS` equal to 1. -/
def bitsLe (crc : U32) (x : Byte) : U32 :=
  stepLe^[8] (crc ^^^ x.setWidth 32)

/-- The body of the loop of `crc32_be` with `CRC_BE_BITS` equal to 1. -/
def bitsBe (crc : U32) (x : Byte) : U32 :=
  stepBe^[8] (crc ^^^ x.setWidth 32 <<< 24)

/-- `crc32_le` with `CRC_LE_BITS` equal to 1. -/
def crc32LeBits (mem : Mem) (crc : U32) (p : Int) (len : Nat) : U32 :=
  eachByte bitsLe mem len crc p

/-- `crc32_be` with `CRC_BE_BITS` equal to 1. -/
def crc32BeBits (mem : Mem) (crc : U32) (p : Int) (len : Nat) : U32 :=
  eachByte bitsBe mem len crc p

/-! ## The generated tables -/

/-- The inner loop of `crc32init_le`. -/
def fillLe (crc : U32) (i : Nat) (tab : Table) (j : Nat) : Table :=
  if j < 256 ∧ 0 < i then
    fillLe crc i (tab.store (i + j) (crc ^^^ tab.entry j)) (j + 2 * i)
  else
    tab
termination_by 256 - j

/-- The outer loop of `crc32init_le`. -/
def roundsLe (i : Nat) (crc : U32) (tab : Table) : Table :=
  if 0 < i then
    roundsLe (i / 2) (stepLe crc) (fillLe (stepLe crc) i tab 0)
  else
    tab
termination_by i

/-- `crc32init_le`. -/
def crc32initLe : Table :=
  roundsLe 128 1#32 emptyTable

/-- The inner loop of `crc32init_be`. -/
def fillBe (crc : U32) (i : Nat) (tab : Table) (j : Nat) : Table :=
  if j < i then
    fillBe crc i (tab.store (i + j) (crc ^^^ tab.entry j)) (j + 1)
  else
    tab
termination_by i - j

/-- The outer loop of `crc32init_be`, which starts with a positive `i`. -/
def roundsBe (i : Nat) (crc : U32) (tab : Table) : Table :=
  if 0 < i ∧ i < 256 then
    roundsBe (2 * i) (stepBe crc) (fillBe (stepBe crc) i tab 0)
  else
    tab
termination_by 256 - i

/-- `crc32init_be`. -/
def crc32initBe : Table :=
  roundsBe 1 0x80000000#32 emptyTable

/-! ## Byte order -/

/-- The bytes of a word in reverse. -/
def swab32 (x : U32) : U32 :=
  x.extractLsb' 0 8 ++ x.extractLsb' 8 8 ++ x.extractLsb' 16 8 ++ x.extractLsb' 24 8

/-- `cpu_to_le32`, which is also `le32_to_cpu`. -/
def cpuToLe32 : Endian → U32 → U32
  | .little, x => x
  | .big, x => swab32 x

/-- `cpu_to_be32`, which is also `be32_to_cpu`. -/
def cpuToBe32 : Endian → U32 → U32
  | .little, x => swab32 x
  | .big, x => x

/-- The table in `crc32table.h`, every entry through `tole`. -/
def crc32tableLe (cpu : Endian) : Table :=
  crc32initLe.map (cpuToLe32 cpu)

/-- The table in `crc32table.h`, every entry through `tobe`. -/
def crc32tableBe (cpu : Endian) : Table :=
  crc32initBe.map (cpuToBe32 cpu)

/-- The word at an address. -/
def loadWord (cpu : Endian) (mem : Mem) (b : Int) : U32 :=
  match cpu with
  | .little => mem (b + 3) ++ mem (b + 2) ++ mem (b + 1) ++ mem b
  | .big => mem b ++ mem (b + 1) ++ mem (b + 2) ++ mem (b + 3)

/-! ## Bytes and words at a time -/

/-- `DO_CRC`. -/
def doCrc (cpu : Endian) (tab : Table) (crc : U32) (x : Byte) : U32 :=
  match cpu with
  | .little => tab.entry ((crc ^^^ x.setWidth 32) &&& 255#32).toNat ^^^ crc >>> 8
  | .big => tab.entry (((crc >>> 24) ^^^ x.setWidth 32) &&& 255#32).toNat ^^^ crc <<< 8

/-- The variables of `crc32_le` and of `crc32_be`. -/
structure Cursor where
  crc : U32
  b : Int
  len : Nat

section

variable (cpu : Endian) (tab : Table) (mem : Mem)

/-- The loop under `Align it`. It is entered with a positive length only. -/
def alignLoop : Nat → U32 → Int → Cursor
  | 0, crc, b => ⟨crc, b, 0⟩
  | len + 1, crc, b =>
    let crc := doCrc cpu tab crc (mem b)
    if len ≠ 0 ∧ (b + 1) % 4 ≠ 0 then alignLoop len crc (b + 1) else ⟨crc, b + 1, len⟩

/-- The loop over words. The pointer goes up before each word. -/
def wordLoop : Nat → U32 → Int → U32 × Int
  | 0, crc, b => (crc, b)
  | len + 1, crc, b =>
    let b := b + 4
    let crc := crc ^^^ loadWord cpu mem b
    let crc := doCrc cpu tab crc 0
    let crc := doCrc cpu tab crc 0
    let crc := doCrc cpu tab crc 0
    let crc := doCrc cpu tab crc 0
    wordLoop len crc b

/-- What `crc32_le` and `crc32_be` have in common. -/
def crc32Body (crc : U32) (p : Int) (len : Nat) : U32 :=
  let c := if p % 4 ≠ 0 ∧ len ≠ 0 then alignLoop cpu tab mem len crc p else ⟨crc, p, len⟩
  let c :=
    if 4 ≤ c.len then
      -- The pointer is one word back when the loop starts.
      let words := wordLoop cpu tab mem (c.len / 4) c.crc (c.b - 4)
      ⟨words.1, words.2 + 4, c.len % 4⟩
    else
      c
  -- The rest is a `do` loop under `if (len)`.
  eachByte (doCrc cpu tab) mem c.len c.crc c.b

end

/-- `crc32_le`. -/
def crc32Le (cpu : Endian) (mem : Mem) (crc : U32) (p : Int) (len : Nat) : U32 :=
  cpuToLe32 cpu (crc32Body cpu (crc32tableLe cpu) mem (cpuToLe32 cpu crc) p len)

/-- `crc32_be`. -/
def crc32Be (cpu : Endian) (mem : Mem) (crc : U32) (p : Int) (len : Nat) : U32 :=
  cpuToBe32 cpu (crc32Body cpu (crc32tableBe cpu) mem (cpuToBe32 cpu crc) p len)

/-- A buffer in consecutive pieces, each with the result so far as its seed. -/
def inPieces (crc32 : U32 → Int → Nat → U32) : U32 → Int → List Nat → U32
  | crc, _, [] => crc
  | crc, p, len :: lens => inPieces crc32 (crc32 crc p len) (p + len) lens

end AndroidKernel.Crc32
