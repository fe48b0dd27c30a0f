import Mathlib.Algebra.Group.Nat.Defs
import Mathlib.Logic.Function.Basic

/-!
# ECC of YAFFS

A model of `fs/yaffs2/yaffs_ecc.c`. A block is a function from byte addresses. `wrongOrder` stands
for `CONFIG_YAFFS_ECC_WRONG_ORDER`.
-/

namespace AndroidKernel.YaffsEcc

/-- `column_parity_table`: the column parities in bits 7..2, and the parity of the byte in bit 0. -/
def columnParityTable : List Nat :=
   [0x00, 0x55, 0x59, 0x0c, 0x65, 0x30, 0x3c, 0x69, 0x69, 0x3c, 0x30, 0x65, 0x0c, 0x59, 0x55, 0x00,
    0x95, 0xc0, 0xcc, 0x99, 0xf0, 0xa5, 0xa9, 0xfc, 0xfc, 0xa9, 0xa5, 0xf0, 0x99, 0xcc, 0xc0, 0x95,
    0x99, 0xcc, 0xc0, 0x95, 0xfc, 0xa9, 0xa5, 0xf0, 0xf0, 0xa5, 0xa9, 0xfc, 0x95, 0xc0, 0xcc, 0x99,
    0x0c, 0x59, 0x55, 0x00, 0x69, 0x3c, 0x30, 0x65, 0x65, 0x30, 0x3c, 0x69, 0x00, 0x55, 0x59, 0x0c,
    0xa5, 0xf0, 0xfc, 0xa9, 0xc0, 0x95, 0x99, 0xcc, 0xcc, 0x99, 0x95, 0xc0, 0xa9, 0xfc, 0xf0, 0xa5,
    0x30, 0x65, 0x69, 0x3c, 0x55, 0x00, 0x0c, 0x59, 0x59, 0x0c, 0x00, 0x55, 0x3c, 0x69, 0x65, 0x30,
    0x3c, 0x69, 0x65, 0x30, 0x59, 0x0c, 0x00, 0x55, 0x55, 0x00, 0x0c, 0x59, 0x30, 0x65, 0x69, 0x3c,
    0xa9, 0xfc, 0xf0, 0xa5, 0xcc, 0x99, 0x95, 0xc0, 0xc0, 0x95, 0x99, 0xcc, 0xa5, 0xf0, 0xfc, 0xa9,
    0xa9, 0xfc, 0xf0, 0xa5, 0xcc, 0x99, 0x95, 0xc0, 0xc0, 0x95, 0x99, 0xcc, 0xa5, 0xf0, 0xfc, 0xa9,
    0x3c, 0x69, 0x65, 0x30, 0x59, 0x0c, 0x00, 0x55, 0x55, 0x00, 0x0c, 0x59, 0x30, 0x65, 0x69, 0x3c,
    0x30, 0x65, 0x69, 0x3c, 0x55, 0x00, 0x0c, 0x59, 0x59, 0x0c, 0x00, 0x55, 0x3c, 0x69, 0x65, 0x30,
    0xa5, 0xf0, 0xfc, 0xa9, 0xc0, 0x95, 0x99, 0xcc, 0xcc, 0x99, 0x95, 0xc0, 0xa9, 0xfc, 0xf0, 0xa5,
    0x0c, 0x59, 0x55, 0x00, 0x69, 0x3c, 0x30, 0x65, 0x65, 0x30, 0x3c, 0x69, 0x00, 0x55, 0x59, 0x0c,
    0x99, 0xcc, 0xc0, 0x95, 0xfc, 0xa9, 0xa5, 0xf0, 0xf0, 0xa5, 0xa9, 0xfc, 0x95, 0xc0, 0xcc, 0x99,
    0x95, 0xc0, 0xcc, 0x99, 0xf0, 0xa5, 0xa9, 0xfc, 0xfc, 0xa9, 0xa5, 0xf0, 0x99, 0xcc, 0xc0, 0x95,
    0x00, 0x55, 0x59, 0x0c, 0x65, 0x30, 0x3c, 0x69, 0x69, 0x3c, 0x30, 0x65, 0x0c, 0x59, 0x55, 0x00]

/-- The entry of the table for a byte. -/
def columnParity (byte : BitVec 8) : BitVec 8 :=
  BitVec.ofNat 8 (columnParityTable.getD byte.toNat 0)

/-- The body of `while (x)` in `yaffs_CountBits` and `yaffs_CountBits32`, for as many rounds as the
word has bits. -/
def countLoop {w : Nat} : Nat → BitVec w → Nat → Nat
  | 0, _, r => r
  | rounds + 1, x, r =>
    if x = 0 then r else countLoop rounds (x >>> 1) (if x.getLsbD 0 then r + 1 else r)

/-- `yaffs_CountBits`. -/
def countBits (x : BitVec 8) : Nat :=
  countLoop 8 x 0

/-- `yaffs_CountBits32`. -/
def countBits32 (x : BitVec 32) : Nat :=
  countLoop 32 x 0

/-! ## The loop over the data -/

/-- `col_parity`, `line_parity` and `line_parity_prime`, which have eight bits in
`yaffs_ECCCalculate` and 32 in `yaffs_ECCCalculateOther`. -/
structure Sums (w : Nat) where
  colParity : BitVec 8
  lineParity : BitVec w
  lineParityPrime : BitVec w

/-- The body of the loop. -/
def Sums.next {w : Nat} (data : Nat → BitVec 8) (acc : Sums w) (i : Nat) : Sums w :=
  let b := columnParity (data i)
  if b.getLsbD 0 then
    -- odd number of bits in the byte
    ⟨acc.colParity ^^^ b, acc.lineParity ^^^ BitVec.ofNat w i,
      acc.lineParityPrime ^^^ ~~~BitVec.ofNat w i⟩
  else { acc with colParity := acc.colParity ^^^ b }

/-- The loop over the first bytes. -/
def sums (w : Nat) (data : Nat → BitVec 8) : Nat → Sums w
  | 0 => ⟨0, 0, 0⟩
  | i + 1 => (sums w data i).next data i

/-- `data[byte] ^= (1 << bit)`. -/
def flipBit (data : Nat → BitVec 8) (byte bit : Nat) : Nat → BitVec 8 :=
  Function.update data byte (data byte ^^^ (1#8 <<< bit))

/-! ## Blocks of 256 bytes -/

/-- The three bytes of a code. -/
structure Ecc where
  ecc0 : BitVec 8
  ecc1 : BitVec 8
  ecc2 : BitVec 8
  deriving DecidableEq

/-- `t`: four bits of `line_parity`, each above that of `line_parity_prime`. -/
def interleave (line prime m3 m2 m1 m0 : BitVec 8) : BitVec 8 :=
  let t : BitVec 8 := 0
  let t := if line &&& m3 ≠ 0 then t ||| 0x80 else t
  let t := if prime &&& m3 ≠ 0 then t ||| 0x40 else t
  let t := if line &&& m2 ≠ 0 then t ||| 0x20 else t
  let t := if prime &&& m2 ≠ 0 then t ||| 0x10 else t
  let t := if line &&& m1 ≠ 0 then t ||| 0x08 else t
  let t := if prime &&& m1 ≠ 0 then t ||| 0x04 else t
  let t := if line &&& m0 ≠ 0 then t ||| 0x02 else t
  if prime &&& m0 ≠ 0 then t ||| 0x01 else t

/-- `yaffs_ECCCalculate` behind its loop. -/
def packEcc (wrongOrder : Bool) (acc : Sums 8) : Ecc :=
  let ecc2 := ~~~acc.colParity ||| 0x03
  let ecc1 := ~~~interleave acc.lineParity acc.lineParityPrime 0x80 0x40 0x20 0x10
  let ecc0 := ~~~interleave acc.lineParity acc.lineParityPrime 0x08 0x04 0x02 0x01
  if wrongOrder then ⟨ecc1, ecc0, ecc2⟩ else ⟨ecc0, ecc1, ecc2⟩

/-- `yaffs_ECCCalculate`. -/
def eccCalculate (wrongOrder : Bool) (data : Nat → BitVec 8) : Ecc :=
  packEcc wrongOrder (sums 8 data 256)

/-- `byte` of two deltas. -/
def byteOf (d0 d1 : BitVec 8) : BitVec 8 :=
  let byte : BitVec 8 := 0
  let byte := if d1 &&& 0x80 ≠ 0 then byte ||| 0x80 else byte
  let byte := if d1 &&& 0x20 ≠ 0 then byte ||| 0x40 else byte
  let byte := if d1 &&& 0x08 ≠ 0 then byte ||| 0x20 else byte
  let byte := if d1 &&& 0x02 ≠ 0 then byte ||| 0x10 else byte
  let byte := if d0 &&& 0x80 ≠ 0 then byte ||| 0x08 else byte
  let byte := if d0 &&& 0x20 ≠ 0 then byte ||| 0x04 else byte
  let byte := if d0 &&& 0x08 ≠ 0 then byte ||| 0x02 else byte
  if d0 &&& 0x02 ≠ 0 then byte ||| 0x01 else byte

/-- `bit` of a delta with the three given masks. -/
def bitOfDelta (d m2 m1 m0 : BitVec 8) : Nat :=
  let bit := 0
  let bit := if d &&& m2 ≠ 0 then bit ||| 4 else bit
  let bit := if d &&& m1 ≠ 0 then bit ||| 2 else bit
  if d &&& m0 ≠ 0 then bit ||| 1 else bit

/-- `((d ^ (d >> 1)) & mask) == mask`. -/
def pairsSet (mask d : BitVec 8) : Bool :=
  (d ^^^ (d >>> 1)) &&& mask == mask

/-- `yaffs_ECCCorrect`: the result, the data and `read_ecc`. -/
def eccCorrect (wrongOrder : Bool) (data : Nat → BitVec 8) (readEcc testEcc : Ecc) :
    Int × (Nat → BitVec 8) × Ecc :=
  let d0 := readEcc.ecc0 ^^^ testEcc.ecc0
  let d1 := readEcc.ecc1 ^^^ testEcc.ecc1
  let d2 := readEcc.ecc2 ^^^ testEcc.ecc2
  if d0 ||| d1 ||| d2 = 0 then (0, data, readEcc)
  else if pairsSet 0x55 d0 ∧ pairsSet 0x55 d1 ∧ pairsSet 0x54 d2 then
    let byte := if wrongOrder then byteOf d1 d0 else byteOf d0 d1
    (1, flipBit data byte.toNat (bitOfDelta d2 0x80 0x20 0x08), readEcc)
  else if countBits d0 + countBits d1 + countBits d2 = 1 then (1, data, testEcc)
  else (-1, data, readEcc)

/-! ## Blocks of any length -/

/-- `yaffs_ECCOther`. -/
structure EccOther where
  colParity : BitVec 8
  lineParity : BitVec 32
  lineParityPrime : BitVec 32
  deriving DecidableEq

/-- `yaffs_ECCCalculateOther`. -/
def eccCalculateOther (data : Nat → BitVec 8) (nBytes : Nat) : EccOther :=
  let acc := sums 32 data nBytes
  ⟨(acc.colParity >>> 2) &&& 0x3f, acc.lineParity, acc.lineParityPrime⟩

/-- `yaffs_ECCCorrectOther`. -/
def eccCorrectOther (data : Nat → BitVec 8) (nBytes : Nat) (readEcc testEcc : EccOther) :
    Int × (Nat → BitVec 8) × EccOther :=
  let cDelta := readEcc.colParity ^^^ testEcc.colParity
  let lDelta := readEcc.lineParity ^^^ testEcc.lineParity
  let lDeltaPrime := readEcc.lineParityPrime ^^^ testEcc.lineParityPrime
  if cDelta.setWidth 32 ||| lDelta ||| lDeltaPrime = 0 then (0, data, readEcc)
  else if lDelta = ~~~lDeltaPrime ∧ pairsSet 0x15 cDelta then
    if nBytes ≤ lDelta.toNat then (-1, data, readEcc)
    else (1, flipBit data lDelta.toNat (bitOfDelta cDelta 0x20 0x08 0x02), readEcc)
  else if countBits32 lDelta + countBits32 lDeltaPrime + countBits cDelta = 1 then
    (1, data, testEcc)
  else (-1, data, readEcc)

end AndroidKernel.YaffsEcc
