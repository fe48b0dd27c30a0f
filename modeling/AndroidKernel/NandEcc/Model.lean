import Mathlib.Algebra.Group.Nat.Defs
import Mathlib.Logic.Function.Basic

/-!
# ECC for NAND blocks

A model of `nand_calculate_ecc` and `nand_correct_data` of `drivers/mtd/nand/nand_ecc.c` on a little
endian machine. A block is a function from byte addresses. `smc` stands for
`CONFIG_MTD_NAND_ECC_SMC`, and `eccsizeMult` is 1 for blocks of 256 bytes and 2 for those of 512.
-/

namespace AndroidKernel.NandEcc

/-! ## Tables -/

/-- `invparity`: 1 for bytes with an even number of bits. -/
def invparity : List Nat :=
   [1, 0, 0, 1, 0, 1, 1, 0, 0, 1, 1, 0, 1, 0, 0, 1,
    0, 1, 1, 0, 1, 0, 0, 1, 1, 0, 0, 1, 0, 1, 1, 0,
    0, 1, 1, 0, 1, 0, 0, 1, 1, 0, 0, 1, 0, 1, 1, 0,
    1, 0, 0, 1, 0, 1, 1, 0, 0, 1, 1, 0, 1, 0, 0, 1,
    0, 1, 1, 0, 1, 0, 0, 1, 1, 0, 0, 1, 0, 1, 1, 0,
    1, 0, 0, 1, 0, 1, 1, 0, 0, 1, 1, 0, 1, 0, 0, 1,
    1, 0, 0, 1, 0, 1, 1, 0, 0, 1, 1, 0, 1, 0, 0, 1,
    0, 1, 1, 0, 1, 0, 0, 1, 1, 0, 0, 1, 0, 1, 1, 0,
    0, 1, 1, 0, 1, 0, 0, 1, 1, 0, 0, 1, 0, 1, 1, 0,
    1, 0, 0, 1, 0, 1, 1, 0, 0, 1, 1, 0, 1, 0, 0, 1,
    1, 0, 0, 1, 0, 1, 1, 0, 0, 1, 1, 0, 1, 0, 0, 1,
    0, 1, 1, 0, 1, 0, 0, 1, 1, 0, 0, 1, 0, 1, 1, 0,
    1, 0, 0, 1, 0, 1, 1, 0, 0, 1, 1, 0, 1, 0, 0, 1,
    0, 1, 1, 0, 1, 0, 0, 1, 1, 0, 0, 1, 0, 1, 1, 0,
    0, 1, 1, 0, 1, 0, 0, 1, 1, 0, 0, 1, 0, 1, 1, 0,
    1, 0, 0, 1, 0, 1, 1, 0, 0, 1, 1, 0, 1, 0, 0, 1]

/-- `bitsperbyte`. -/
def bitsperbyte : List Nat :=
   [0, 1, 1, 2, 1, 2, 2, 3, 1, 2, 2, 3, 2, 3, 3, 4,
    1, 2, 2, 3, 2, 3, 3, 4, 2, 3, 3, 4, 3, 4, 4, 5,
    1, 2, 2, 3, 2, 3, 3, 4, 2, 3, 3, 4, 3, 4, 4, 5,
    2, 3, 3, 4, 3, 4, 4, 5, 3, 4, 4, 5, 4, 5, 5, 6,
    1, 2, 2, 3, 2, 3, 3, 4, 2, 3, 3, 4, 3, 4, 4, 5,
    2, 3, 3, 4, 3, 4, 4, 5, 3, 4, 4, 5, 4, 5, 5, 6,
    2, 3, 3, 4, 3, 4, 4, 5, 3, 4, 4, 5, 4, 5, 5, 6,
    3, 4, 4, 5, 4, 5, 5, 6, 4, 5, 5, 6, 5, 6, 6, 7,
    1, 2, 2, 3, 2, 3, 3, 4, 2, 3, 3, 4, 3, 4, 4, 5,
    2, 3, 3, 4, 3, 4, 4, 5, 3, 4, 4, 5, 4, 5, 5, 6,
    2, 3, 3, 4, 3, 4, 4, 5, 3, 4, 4, 5, 4, 5, 5, 6,
    3, 4, 4, 5, 4, 5, 5, 6, 4, 5, 5, 6, 5, 6, 6, 7,
    2, 3, 3, 4, 3, 4, 4, 5, 3, 4, 4, 5, 4, 5, 5, 6,
    3, 4, 4, 5, 4, 5, 5, 6, 4, 5, 5, 6, 5, 6, 6, 7,
    3, 4, 4, 5, 4, 5, 5, 6, 4, 5, 5, 6, 5, 6, 6, 7,
    4, 5, 5, 6, 5, 6, 6, 7, 5, 6, 6, 7, 6, 7, 7, 8]

/-- `addressbits`: every second bit of a byte. -/
def addressbits : List Nat :=
   [0, 0, 1, 1, 0, 0, 1, 1, 2, 2, 3, 3, 2, 2, 3, 3,
    0, 0, 1, 1, 0, 0, 1, 1, 2, 2, 3, 3, 2, 2, 3, 3,
    4, 4, 5, 5, 4, 4, 5, 5, 6, 6, 7, 7, 6, 6, 7, 7,
    4, 4, 5, 5, 4, 4, 5, 5, 6, 6, 7, 7, 6, 6, 7, 7,
    0, 0, 1, 1, 0, 0, 1, 1, 2, 2, 3, 3, 2, 2, 3, 3,
    0, 0, 1, 1, 0, 0, 1, 1, 2, 2, 3, 3, 2, 2, 3, 3,
    4, 4, 5, 5, 4, 4, 5, 5, 6, 6, 7, 7, 6, 6, 7, 7,
    4, 4, 5, 5, 4, 4, 5, 5, 6, 6, 7, 7, 6, 6, 7, 7,
    8, 8, 9, 9, 8, 8, 9, 9, 10, 10, 11, 11, 10, 10, 11, 11,
    8, 8, 9, 9, 8, 8, 9, 9, 10, 10, 11, 11, 10, 10, 11, 11,
    12, 12, 13, 13, 12, 12, 13, 13, 14, 14, 15, 15, 14, 14, 15, 15,
    12, 12, 13, 13, 12, 12, 13, 13, 14, 14, 15, 15, 14, 14, 15, 15,
    8, 8, 9, 9, 8, 8, 9, 9, 10, 10, 11, 11, 10, 10, 11, 11,
    8, 8, 9, 9, 8, 8, 9, 9, 10, 10, 11, 11, 10, 10, 11, 11,
    12, 12, 13, 13, 12, 12, 13, 13, 14, 14, 15, 15, 14, 14, 15, 15,
    12, 12, 13, 13, 12, 12, 13, 13, 14, 14, 15, 15, 14, 14, 15, 15]

/-- The entry of a table for a byte. -/
def lookup (table : List Nat) (byte : BitVec 8) : Nat :=
  table.getD byte.toNat 0

/-! ## `nand_calculate_ecc` -/

/-- The little endian word at `bp`. -/
def longword (buf : Nat → BitVec 8) (bp : Nat) : BitVec 32 :=
  buf (4 * bp + 3) ++ buf (4 * bp + 2) ++ buf (4 * bp + 1) ++ buf (4 * bp)

/-- The parities that the loop accumulates. -/
@[ext]
structure Parities where
  rp4 : BitVec 32
  rp6 : BitVec 32
  rp8 : BitVec 32
  rp10 : BitVec 32
  rp12 : BitVec 32
  rp14 : BitVec 32
  rp16 : BitVec 32
  par : BitVec 32

/-- The body of the loop: sixteen words. -/
def iteration (eccsizeMult : Nat) (bp : Nat → BitVec 32) (acc : Parities) (i : Nat) : Parities :=
  let cur := bp (16 * i)
  let tmppar := cur
  let rp4 := acc.rp4 ^^^ cur
  let cur := bp (16 * i + 1)
  let tmppar := tmppar ^^^ cur
  let rp6 := acc.rp6 ^^^ tmppar
  let cur := bp (16 * i + 2)
  let tmppar := tmppar ^^^ cur
  let rp4 := rp4 ^^^ cur
  let cur := bp (16 * i + 3)
  let tmppar := tmppar ^^^ cur
  let rp8 := acc.rp8 ^^^ tmppar
  let cur := bp (16 * i + 4)
  let tmppar := tmppar ^^^ cur
  let rp4 := rp4 ^^^ cur
  let rp6 := rp6 ^^^ cur
  let cur := bp (16 * i + 5)
  let tmppar := tmppar ^^^ cur
  let rp6 := rp6 ^^^ cur
  let cur := bp (16 * i + 6)
  let tmppar := tmppar ^^^ cur
  let rp4 := rp4 ^^^ cur
  let cur := bp (16 * i + 7)
  let tmppar := tmppar ^^^ cur
  let rp10 := acc.rp10 ^^^ tmppar
  let cur := bp (16 * i + 8)
  let tmppar := tmppar ^^^ cur
  let rp4 := rp4 ^^^ cur
  let rp6 := rp6 ^^^ cur
  let rp8 := rp8 ^^^ cur
  let cur := bp (16 * i + 9)
  let tmppar := tmppar ^^^ cur
  let rp6 := rp6 ^^^ cur
  let rp8 := rp8 ^^^ cur
  let cur := bp (16 * i + 10)
  let tmppar := tmppar ^^^ cur
  let rp4 := rp4 ^^^ cur
  let rp8 := rp8 ^^^ cur
  let cur := bp (16 * i + 11)
  let tmppar := tmppar ^^^ cur
  let rp8 := rp8 ^^^ cur
  let cur := bp (16 * i + 12)
  let tmppar := tmppar ^^^ cur
  let rp4 := rp4 ^^^ cur
  let rp6 := rp6 ^^^ cur
  let cur := bp (16 * i + 13)
  let tmppar := tmppar ^^^ cur
  let rp6 := rp6 ^^^ cur
  let cur := bp (16 * i + 14)
  let tmppar := tmppar ^^^ cur
  let rp4 := rp4 ^^^ cur
  let cur := bp (16 * i + 15)
  let tmppar := tmppar ^^^ cur
  { rp4, rp6, rp8, rp10
    rp12 := if i &&& 1 = 0 then acc.rp12 ^^^ tmppar else acc.rp12
    rp14 := if i &&& 2 = 0 then acc.rp14 ^^^ tmppar else acc.rp14
    rp16 := if eccsizeMult = 2 ∧ i &&& 4 = 0 then acc.rp16 ^^^ tmppar else acc.rp16
    par := acc.par ^^^ tmppar }

/-- The loop. -/
def accumulate (eccsizeMult : Nat) (bp : Nat → BitVec 32) : Nat → Parities
  | 0 => ⟨0, 0, 0, 0, 0, 0, 0, 0⟩
  | i + 1 => iteration eccsizeMult bp (accumulate eccsizeMult bp i) i

/-- Bring a parity back to a single byte. -/
def foldByte (rp : BitVec 32) : BitVec 8 :=
  let rp := rp ^^^ (rp >>> 16)
  let rp := rp ^^^ (rp >>> 8)
  rp.setWidth 8

/-- `rp3` of `par`. -/
def parRp3 (par : BitVec 32) : BitVec 8 :=
  let rp3 := par >>> 16
  let rp3 := rp3 ^^^ (rp3 >>> 8)
  rp3.setWidth 8

/-- `rp2` of `par`. -/
def parRp2 (par : BitVec 32) : BitVec 8 :=
  let rp2 := par &&& 0xffff
  let rp2 := rp2 ^^^ (rp2 >>> 8)
  rp2.setWidth 8

/-- `rp1` of `par`. -/
def parRp1 (par : BitVec 32) : BitVec 8 :=
  let par := par ^^^ (par >>> 16)
  (par >>> 8).setWidth 8

/-- `rp0` of `par`. -/
def parRp0 (par : BitVec 32) : BitVec 8 :=
  let par := par ^^^ (par >>> 16)
  par.setWidth 8

/-- `invparity[rp]`, as a byte. -/
def inv (rp : BitVec 8) : BitVec 8 :=
  BitVec.ofNat 8 (lookup invparity rp)

/-- Eight bits, from the highest to the lowest. -/
def pack (b7 b6 b5 b4 b3 b2 b1 b0 : BitVec 8) : BitVec 8 :=
  (b7 <<< 7) ||| (b6 <<< 6) ||| (b5 <<< 5) ||| (b4 <<< 4) ||| (b3 <<< 3) ||| (b2 <<< 2) |||
    (b1 <<< 1) ||| b0

/-- The three bytes of a code. -/
structure Ecc where
  code0 : BitVec 8
  code1 : BitVec 8
  code2 : BitVec 8
  deriving DecidableEq

/-- The bytes `code[0]` and `code[1]`, in the order that the configuration asks for. -/
def order (smc : Bool) (low high code2 : BitVec 8) : Ecc :=
  if smc then ⟨low, high, code2⟩ else ⟨high, low, code2⟩

/-- The parities `rp7` to `rp0`: `code[1]`, or `code[0]` with `CONFIG_MTD_NAND_ECC_SMC`. -/
def lowCode (acc : Parities) : BitVec 8 :=
  let rp4 := foldByte acc.rp4
  let rp6 := foldByte acc.rp6
  let par := foldByte acc.par
  let rp5 := par ^^^ rp4
  let rp7 := par ^^^ rp6
  pack (inv rp7) (inv rp6) (inv rp5) (inv rp4) (inv (parRp3 acc.par)) (inv (parRp2 acc.par))
    (inv (parRp1 acc.par)) (inv (parRp0 acc.par))

/-- The parities `rp15` to `rp8`: `code[0]`, or `code[1]`. -/
def highCode (acc : Parities) : BitVec 8 :=
  let rp8 := foldByte acc.rp8
  let rp10 := foldByte acc.rp10
  let rp12 := foldByte acc.rp12
  let rp14 := foldByte acc.rp14
  let par := foldByte acc.par
  let rp9 := par ^^^ rp8
  let rp11 := par ^^^ rp10
  let rp13 := par ^^^ rp12
  let rp15 := par ^^^ rp14
  pack (inv rp15) (inv rp14) (inv rp13) (inv rp12) (inv rp11) (inv rp10) (inv rp9) (inv rp8)

/-- `code[2]`. -/
def columnCode (eccsizeMult : Nat) (acc : Parities) : BitVec 8 :=
  let rp16 := foldByte acc.rp16
  let par := foldByte acc.par
  let rp17 := par ^^^ rp16
  if eccsizeMult = 1 then
    pack (inv (par &&& 0xf0)) (inv (par &&& 0x0f)) (inv (par &&& 0xcc)) (inv (par &&& 0x33))
      (inv (par &&& 0xaa)) (inv (par &&& 0x55)) 1 1
  else
    pack (inv (par &&& 0xf0)) (inv (par &&& 0x0f)) (inv (par &&& 0xcc)) (inv (par &&& 0x33))
      (inv (par &&& 0xaa)) (inv (par &&& 0x55)) (inv rp17) (inv rp16)

/-- `nand_calculate_ecc` behind its loop. -/
def codeOf (smc : Bool) (eccsizeMult : Nat) (acc : Parities) : Ecc :=
  order smc (lowCode acc) (highCode acc) (columnCode eccsizeMult acc)

/-- `nand_calculate_ecc`. -/
def nandCalculateEcc (smc : Bool) (eccsizeMult : Nat) (buf : Nat → BitVec 8) : Ecc :=
  codeOf smc eccsizeMult (accumulate eccsizeMult (longword buf) (eccsizeMult <<< 2))

/-! ## `nand_correct_data` -/

/-- `b0` of two codes. -/
def diff0 (smc : Bool) (readEcc calcEcc : Ecc) : BitVec 8 :=
  if smc then readEcc.code0 ^^^ calcEcc.code0 else readEcc.code1 ^^^ calcEcc.code1

/-- `b1` of two codes. -/
def diff1 (smc : Bool) (readEcc calcEcc : Ecc) : BitVec 8 :=
  if smc then readEcc.code1 ^^^ calcEcc.code1 else readEcc.code0 ^^^ calcEcc.code0

/-- One bit of each pair that the mask selects is set. -/
def halfSet (mask b : BitVec 8) : Bool :=
  (b ^^^ (b >>> 1)) &&& mask == mask

/-- `byte_addr`, an `unsigned char`. -/
def byteAddr (eccsizeMult : Nat) (b0 b1 b2 : BitVec 8) : BitVec 8 :=
  if eccsizeMult = 1 then BitVec.ofNat 8 (lookup addressbits b1 <<< 4 + lookup addressbits b0)
  else
    BitVec.ofNat 8 (lookup addressbits (b2 &&& 0x3) <<< 8 + lookup addressbits b1 <<< 4 +
      lookup addressbits b0)

/-- `buf[byte_addr] ^= (1 << bit_addr)`. -/
def flipBit (buf : Nat → BitVec 8) (byte bit : Nat) : Nat → BitVec 8 :=
  Function.update buf byte (buf byte ^^^ (1#8 <<< bit))

/-- `nand_correct_data`, once it has compared the codes. -/
def correct (eccsizeMult : Nat) (buf : Nat → BitVec 8) (b0 b1 b2 : BitVec 8) :
    Int × (Nat → BitVec 8) :=
  if b0 ||| b1 ||| b2 = 0 then (0, buf)
  else if halfSet 0x55 b0 ∧ halfSet 0x55 b1 ∧
      (eccsizeMult = 1 ∧ halfSet 0x54 b2 ∨ eccsizeMult = 2 ∧ halfSet 0x55 b2) then
    (1, flipBit buf (byteAddr eccsizeMult b0 b1 b2).toNat (lookup addressbits (b2 >>> 2)))
  else if lookup bitsperbyte b0 + lookup bitsperbyte b1 + lookup bitsperbyte b2 = 1 then (1, buf)
  else (-1, buf)

/-- `nand_correct_data`. -/
def nandCorrectData (smc : Bool) (eccsizeMult : Nat) (buf : Nat → BitVec 8)
    (readEcc calcEcc : Ecc) : Int × (Nat → BitVec 8) :=
  correct eccsizeMult buf (diff0 smc readEcc calcEcc) (diff1 smc readEcc calcEcc)
    (readEcc.code2 ^^^ calcEcc.code2)

end AndroidKernel.NandEcc
