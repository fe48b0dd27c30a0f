import Mathlib.Data.Nat.Size
import AndroidKernel.Bitmaps.ListText

/-!
# Bitmaps as chunks of hex digits

`bitmap_scnprintf` prints a bitmap in chunks of 32 bits, of which the first one can be shorter.
`__bitmap_parse` shifts what it has by a chunk before it puts in the next one. It counts the bits
from the first chunk that is not zero on.
-/

namespace AndroidKernel.Bitmaps

open Library

variable {w : Nat}

def efault : Int := -14

def eoverflow : Int := -75

/-- `CHUNKSZ`. -/
def chunkSize : Nat := 32

/-- `ALIGN(x, CHUNKSZ)`, in an `int`. -/
def alignChunk (x : Nat) : Int :=
  int (x + (chunkSize - 1)) / chunkSize * chunkSize

/-- `val`, for the chunk at bit `i`. -/
def chunkVal (maskp : Nat → BitVec w) (chunksz i : Nat) : BitVec w :=
  let chunkmask := BitVec.ofNat 32 (2 ^ chunksz - 1)
  (maskp (i / w) >>> (i % w)) &&& chunkmask.setWidth w

/-- `%0*lx` of a chunk. -/
def chunkText (maskp : Nat → BitVec w) (chunksz i : Nat) : List Byte :=
  numberText 16 ((chunksz + 3) / 4) (chunkVal maskp chunksz i).toNat

/-- The loop of `bitmap_scnprintf`, for as many chunks as are left. -/
def scnprintfLoop (buflen : Nat) (maskp : Nat → BitVec w) :
    Nat → Nat → List Byte → List Byte → List Byte
  | 0, _, _, buf => buf
  | n + 1, chunksz, sep, buf =>
    let text := sep ++ chunkText maskp chunksz (n * chunkSize)
    let buf := buf ++ scnprintf ((buflen : Int) - buf.length) text
    scnprintfLoop buflen maskp n chunkSize [ch ','] buf

/-- `bitmap_scnprintf`: the text that it writes, for a `buflen` that is not zero. The loop starts
with `i` at the last chunk. -/
def bitmapScnprintf (buflen : Nat) (maskp : Nat → BitVec w) (nmaskbits : Nat) : List Byte :=
  let chunksz := nmaskbits % chunkSize
  let chunksz := if chunksz = 0 then chunkSize else chunksz
  let i := int (alignChunk nmaskbits - chunkSize)
  scnprintfLoop buflen maskp (i / chunkSize + 1).toNat chunksz [] []

def unhex (c : Byte) : Nat :=
  if isdigit c then c.toNat - 48 else (toupper c).toNat - 65 + 10

/-- `nbits_to_hold_value`, which is `fls`. -/
def nbitsToHoldValue (val : BitVec 32) : Nat :=
  Nat.size val.toNat

/-- What the loop over the characters of a chunk ends with, and the rest of the buffer. -/
structure Chunk where
  c : Byte
  value : BitVec 32
  ndigits : Nat
  totaldigits : Nat
  buf : List (Option Byte)

/-- `while (buflen)`: the characters of a chunk, or the error. A character in user space that
`__get_user` cannot read is `none`. -/
def readChunk (c : Byte) (chunk : BitVec 32) (ndigits totaldigits : Nat) :
    List (Option Byte) → Except Int Chunk
  | [] => .ok ⟨c, chunk, ndigits, totaldigits, []⟩
  | none :: _ => .error efault
  | some new :: buf =>
    if isspace new then
      readChunk new chunk ndigits totaldigits buf
    else if totaldigits ≠ 0 ∧ new ≠ 0 ∧ isspace c then
      .error einval
    else if new = 0 ∨ new = ch ',' then
      .ok ⟨new, chunk, ndigits, totaldigits, buf⟩
    else if ¬ isxdigit new then
      .error einval
    else if chunk &&& ~~~(BitVec.ofNat 32 (2 ^ (chunkSize - 4) - 1)) ≠ 0 then
      .error eoverflow
    else
      readChunk new (chunk <<< 4 ||| BitVec.ofNat 32 (unhex new)) (ndigits + 1)
        (totaldigits + 1) buf

/-- What is kept from chunk to chunk. -/
structure Parse (w : Nat) where
  maskp : Nat → BitVec w
  nchunks : Nat
  nbits : Int

/-- A shift by a chunk, and `*maskp |= chunk`. -/
def putChunk (nmaskbits : Nat) (maskp : Nat → BitVec w) (chunk : BitVec 32) : Nat → BitVec w :=
  let maskp := bitmapShiftLeft true maskp maskp chunkSize nmaskbits
  Function.update maskp 0 (maskp 0 ||| chunk.setWidth w)

/-- A chunk goes into the bitmap, if it is not a zero before all others. When there are too many
bits, the bitmap is all that is left. -/
def addChunk (nmaskbits : Nat) (s : Parse w) (chunk : BitVec 32) :
    Except (Nat → BitVec w) (Parse w) :=
  if s.nchunks = 0 ∧ chunk = 0 then
    .ok s
  else
    let maskp := putChunk nmaskbits s.maskp chunk
    let nchunks := s.nchunks + 1
    let nbits := int (s.nbits + if nchunks = 1 then nbitsToHoldValue chunk else chunkSize)
    if nmaskbits < nbits then .error maskp else .ok ⟨maskp, nchunks, nbits⟩

variable {c : Byte} {chunk : BitVec 32} {ndigits totaldigits : Nat} {buf : List (Option Byte)}
  {t : Chunk}

/-- Every digit was a character of the buffer. -/
theorem length_readChunk (h : readChunk c chunk ndigits totaldigits buf = .ok t) :
    t.buf.length + t.ndigits ≤ buf.length + ndigits := by
  induction buf generalizing c chunk ndigits totaldigits with
  | nil =>
    cases h
    exact Nat.le_refl _
  | cons new buf ih =>
    cases new with
    | none => cases h
    | some new =>
      rw [readChunk] at h
      split at h
      · exact Nat.le_trans (ih h) (by rw [List.length_cons]; omega)
      split at h
      · cases h
      split at h
      · cases h
        exact Nat.add_le_add_right (Nat.le_succ _) _
      · split at h
        · cases h
        · split at h
          · cases h
          · exact Nat.le_trans (ih h) (by rw [List.length_cons]; omega)

/-- The loop of `__bitmap_parse` over the chunks: the bitmap, and the result. -/
def parseLoop (nmaskbits : Nat) (c : Byte) (totaldigits : Nat) (s : Parse w)
    (buf : List (Option Byte)) : (Nat → BitVec w) × Int :=
  match h : readChunk c 0 0 totaldigits buf with
  | .error err => (s.maskp, err)
  | .ok t =>
    if hdigits : t.ndigits = 0 then (s.maskp, einval)
    else
      have : t.buf.length < buf.length := by
        have hlength := length_readChunk h
        omega
      match addChunk nmaskbits s t.value with
      | .error maskp => (maskp, eoverflow)
      | .ok s =>
        if t.buf ≠ [] ∧ t.c = ch ',' then parseLoop nmaskbits t.c t.totaldigits s t.buf
        else (s.maskp, 0)
termination_by buf.length

theorem parseLoop_eq {w nmaskbits : Nat} (s : Parse w) :
    parseLoop nmaskbits c totaldigits s buf =
      match readChunk c 0 0 totaldigits buf with
      | .error err => (s.maskp, err)
      | .ok t =>
        if t.ndigits = 0 then (s.maskp, einval)
        else
          match addChunk nmaskbits s t.value with
          | .error maskp => (maskp, eoverflow)
          | .ok s =>
            if t.buf ≠ [] ∧ t.c = ch ',' then parseLoop nmaskbits t.c t.totaldigits s t.buf
            else (s.maskp, 0) := by
  rw [parseLoop]
  split
  · next herror => rw [herror]
  · next hok =>
      dsimp only
      rw [hok, dite_eq_ite]

/-- `bitmap_zero`, on the words of a bitmap. -/
def zeroWords (nmaskbits : Nat) (maskp : Nat → BitVec w) : Nat → BitVec w := fun k =>
  if k < bitsToLongs w nmaskbits then 0 else maskp k

/-- `__bitmap_parse`, of a buffer with `buflen` characters. -/
def bitmapParse (buf : List (Option Byte)) (maskp : Nat → BitVec w) (nmaskbits : Nat) :
    (Nat → BitVec w) × Int :=
  parseLoop nmaskbits 0 0 ⟨zeroWords nmaskbits maskp, 0, 0⟩ buf

/-!
## The hex text of a bitmap

What `bitmap_scnprintf` prints is parsed to the same bitmap. The proof follows the chunks: after
some of them, the parser has the bits of the bitmap from a position on. The main theorem,
`hex_round_trip`, is about the texts that are printed and about all texts that are accepted.
-/

variable {w nmaskbits chunksz i j k v : Nat} {m maskp : Nat → BitVec w} {c : Byte}
  {chunk : BitVec 32} {s s' : Parse w} {ds : List Nat} {tail : List (Option Byte)}

/-! ## The chunks of a bitmap -/

/-- A chunk has the bits of the bitmap at its place. -/
theorem getLsbD_chunkVal (hw : w = 32 ∨ w = 64) (hsz : chunksz ≤ 32) (hi : i % 32 = 0) :
    (chunkVal m chunksz i).getLsbD j = (decide (j < chunksz) && bitAt m (i + j)) := by
  have hmask : ((BitVec.ofNat 32 (2 ^ chunksz - 1)).setWidth w).getLsbD j =
      decide (j < chunksz) := by
    rw [BitVec.getLsbD_setWidth, BitVec.getLsbD_ofNat, Nat.testBit_two_pow_sub_one]
    by_cases hj : j < chunksz
    · rw [decide_eq_true hj, decide_eq_true (show j < w by omega),
        decide_eq_true (show j < 32 by omega)]
      rfl
    · rw [decide_eq_false hj, Bool.and_false, Bool.and_false]
  unfold chunkVal
  dsimp only
  rw [BitVec.getLsbD_and, hmask, BitVec.getLsbD_ushiftRight, Bool.and_comm]
  by_cases hj : j < chunksz
  · have hin : i % w + j < w := by
      rcases hw with rfl | rfl
      · omega
      · omega
    have hplace : i + j = i / w * w + (i % w + j) := by
      rw [← Nat.add_assoc, Nat.div_add_mod']
    rw [hplace, bitAt_mul_add m _ hin]
  · rw [decide_eq_false hj, Bool.false_and, Bool.false_and]

theorem chunkVal_lt (hw : w = 32 ∨ w = 64) (hsz : chunksz ≤ 32) (hi : i % 32 = 0) :
    (chunkVal m chunksz i).toNat < 2 ^ chunksz := by
  refine Nat.lt_pow_two_of_testBit _ fun j hj => ?_
  rw [BitVec.testBit_toNat, getLsbD_chunkVal hw hsz hi, decide_eq_false (Nat.not_lt.mpr hj),
    Bool.false_and]

/-! ## Printing -/

/-- The chunks after another one, each with its comma. -/
def moreHex (m : Nat → BitVec w) : Nat → List Byte
  | 0 => []
  | k + 1 => ch ',' :: (chunkText m chunkSize (k * chunkSize) ++ moreHex m k)

/-- The size of the first chunk. -/
def firstSize (nmaskbits : Nat) : Nat :=
  if nmaskbits % chunkSize = 0 then chunkSize else nmaskbits % chunkSize

/-- The number of the chunks after the first one. -/
def moreChunks (nmaskbits : Nat) : Nat :=
  (nmaskbits - 1) / chunkSize

/-- The text of a bitmap that is not cut. -/
def hexText (m : Nat → BitVec w) (nmaskbits : Nat) : List Byte :=
  chunkText m (firstSize nmaskbits) (moreChunks nmaskbits * chunkSize) ++
    moreHex m (moreChunks nmaskbits)

/-- The number of rounds. For a size close to `2 ^ 31` the sum in `ALIGN` overflows, and the
difference brings it back. -/
theorem rounds_eq (hn : 1 ≤ nmaskbits) (hint : nmaskbits < 2 ^ 31) :
    (int (alignChunk nmaskbits - chunkSize) / chunkSize + 1).toNat = moreChunks nmaskbits + 1 := by
  show (int (int ((nmaskbits : Int) + 31) / 32 * 32 - 32) / 32 + 1).toNat =
    (nmaskbits - 1) / 32 + 1
  have hsum := int_cases ((nmaskbits : Int) + 31)
  have hdiff := int_cases (int ((nmaskbits : Int) + 31) / 32 * 32 - 32)
  omega

theorem firstSize_spec (hn : 1 ≤ nmaskbits) :
    firstSize nmaskbits ≤ 32 ∧ moreChunks nmaskbits * 32 + firstSize nmaskbits = nmaskbits := by
  unfold firstSize moreChunks chunkSize
  split
  · omega
  · omega

theorem scnprintfLoop_eq {buflen : Nat} {buf : List Byte} (haccepted : buflen < 2 ^ 31)
    (hfits : (buf ++ moreHex m k).length < buflen) :
    scnprintfLoop buflen m k chunkSize [ch ','] buf = buf ++ moreHex m k := by
  induction k generalizing buf with
  | zero => exact (List.append_nil buf).symm
  | succ k ih =>
    have hsplit : buf ++ moreHex m (k + 1) =
        buf ++ ([ch ','] ++ chunkText m chunkSize (k * chunkSize)) ++ moreHex m k := by
      rw [List.append_assoc]
      rfl
    rw [hsplit] at hfits ⊢
    have hhead : (buf ++ ([ch ','] ++ chunkText m chunkSize (k * chunkSize))).length < buflen := by
      rw [List.length_append] at hfits
      omega
    rw [List.length_append] at hhead
    rw [scnprintfLoop, scnprintf_eq (by omega) (by omega)]
    exact ih hfits

/-- A buffer that is large enough gets all chunks. -/
theorem bitmapScnprintf_eq (hn : 1 ≤ nmaskbits) (hint : nmaskbits < 2 ^ 31) {buflen : Nat}
    (hbuf : LargeEnough buflen (hexText m nmaskbits)) :
    bitmapScnprintf buflen m nmaskbits = hexText m nmaskbits := by
  have haccepted := hbuf.accepted
  have hfits := hbuf.fits
  have hhead : (chunkText m (firstSize nmaskbits) (moreChunks nmaskbits * chunkSize)).length <
      buflen := by
    rw [hexText, List.length_append] at hfits
    omega
  unfold bitmapScnprintf
  dsimp only
  rw [rounds_eq hn hint, scnprintfLoop, List.nil_append, List.nil_append,
    scnprintf_eq (by simp; omega) (by simp; exact hhead)]
  exact scnprintfLoop_eq haccepted hfits

/-! ## Reading the digits of a chunk -/

theorem digitChar_hex {d : Nat} (hd : d < 16) : isspace (digitChar d) = false ∧
    digitChar d ≠ 0 ∧ digitChar d ≠ ch ',' ∧ isxdigit (digitChar d) = true ∧
    unhex (digitChar d) = d := by
  have hall : ∀ d < 16, isspace (digitChar d) = false ∧ digitChar d ≠ 0 ∧ digitChar d ≠ ch ',' ∧
      isxdigit (digitChar d) = true ∧ unhex (digitChar d) = d := by decide
  exact hall d hd

/-- A chunk of at most 28 bits has room for another digit. -/
theorem chunk_room (hv : v < 2 ^ 28) :
    BitVec.ofNat 32 v &&& ~~~(BitVec.ofNat 32 (2 ^ (chunkSize - 4) - 1)) = 0 := by
  refine BitVec.eq_of_getLsbD_eq fun j hj => ?_
  rw [BitVec.getLsbD_and, BitVec.getLsbD_not, BitVec.getLsbD_ofNat, BitVec.getLsbD_ofNat]
  refine Eq.trans ?_ BitVec.getLsbD_zero.symm
  show (_ && v.testBit j && (_ && !(_ && (2 ^ 28 - 1).testBit j))) = false
  rw [Nat.testBit_two_pow_sub_one]
  by_cases hlow : j < 28
  · rw [decide_eq_true hlow, decide_eq_true hj]
    simp
  · have hbit : v.testBit j = false := by
      refine Nat.testBit_lt_two_pow (Nat.lt_of_lt_of_le hv ?_)
      exact Nat.pow_le_pow_right Nat.two_pos (Nat.not_lt.mp hlow)
    rw [hbit, Bool.and_false, Bool.false_and]

theorem chunk_digit {d : Nat} (hv : v < 2 ^ 28) (hd : d < 16) :
    BitVec.ofNat 32 v <<< 4 ||| BitVec.ofNat 32 d = BitVec.ofNat 32 (v * 16 + d) := by
  refine BitVec.eq_of_toNat_eq ?_
  rw [BitVec.toNat_or, BitVec.toNat_shiftLeft, BitVec.toNat_ofNat, BitVec.toNat_ofNat,
    BitVec.toNat_ofNat, Nat.mod_eq_of_lt (show v < 2 ^ 32 by omega), Nat.shiftLeft_eq,
    Nat.mod_eq_of_lt (show v * 2 ^ 4 < 2 ^ 32 by omega),
    Nat.mod_eq_of_lt (show d < 2 ^ 32 by omega),
    Nat.mod_eq_of_lt (show v * 16 + d < 2 ^ 32 by omega), ← Nat.shiftLeft_eq]
  exact (Nat.shiftLeft_add_eq_or_of_lt hd v).symm

theorem readChunk_digits (hds : ∀ d ∈ ds, d < 16) (hfits : numeralValue 16 v ds < 2 ^ 32)
    (hc : isspace c = false) (ndigits totaldigits : Nat) :
    ∃ c', isspace c' = false ∧ ∀ tail,
      readChunk c (BitVec.ofNat 32 v) ndigits totaldigits ((ds.map digitChar).map some ++ tail) =
        readChunk c' (BitVec.ofNat 32 (numeralValue 16 v ds)) (ndigits + ds.length)
          (totaldigits + ds.length) tail := by
  induction ds generalizing c v ndigits totaldigits with
  | nil => exact ⟨c, hc, fun tail => rfl⟩
  | cons d ds ih =>
    have hd : d < 16 := hds d List.mem_cons_self
    obtain ⟨hspace, hzero, hcomma, hxdigit, hvalue⟩ := digitChar_hex hd
    rw [numeralValue_cons] at hfits
    have hroom : v < 2 ^ 28 := by
      have hle := @le_numeralValue 16 (v * 16 + d) ds (by omega)
      omega
    obtain ⟨c', hc', hrun⟩ := @ih (v * 16 + d) (digitChar d)
      (fun e he => hds e (List.mem_cons_of_mem d he)) hfits hspace (ndigits + 1) (totaldigits + 1)
    refine ⟨c', hc', fun tail => ?_⟩
    rw [List.map_cons, List.map_cons, List.cons_append, readChunk, hspace,
      if_neg Bool.false_ne_true, if_neg (by rintro ⟨-, -, h⟩; rw [hc] at h; cases h),
      if_neg (by rintro (h | h); exacts [hzero h, hcomma h]), if_neg (not_not.mpr hxdigit),
      if_neg (not_not.mpr (chunk_room hroom)), hvalue, chunk_digit hroom hd, hrun, numeralValue_cons,
      List.length_cons, Nat.add_right_comm, Nat.add_right_comm totaldigits]
    rfl

/-- The characters of a chunk that was printed. -/
theorem chunkText_eq (m : Nat → BitVec w) (chunksz i : Nat) :
    ∃ ds, chunkText m chunksz i = ds.map digitChar ∧ ds ≠ [] ∧ (∀ d ∈ ds, d < 16) ∧
      numeralValue 16 0 ds = (chunkVal m chunksz i).toNat := by
  refine ⟨List.replicate ((chunksz + 3) / 4 - (numeral 16 (chunkVal m chunksz i).toNat).length) 0 ++
    numeral 16 (chunkVal m chunksz i).toNat, ?_, ?_, fun d hd => ?_, ?_⟩
  · rw [List.map_append, List.map_replicate]
    rfl
  · exact List.append_ne_nil_of_right_ne_nil _ numeral_ne_nil
  · rcases List.mem_append.mp hd with hd | hd
    · rw [(List.mem_replicate.mp hd).2]
      omega
    · exact lt_of_mem_numeral (by omega) hd
  · rw [numeralValue_replicate, numeralValue_numeral]

/-- The chunk that the parser reads of a chunk that was printed. -/
def readVal (m : Nat → BitVec w) (chunksz i : Nat) : BitVec 32 :=
  BitVec.ofNat 32 (chunkVal m chunksz i).toNat

theorem readChunk_chunkText (hw : w = 32 ∨ w = 64) (hsz : chunksz ≤ 32) (hi : i % 32 = 0)
    (hc : isspace c = false) (totaldigits : Nat) :
    ∃ c' ndigits, isspace c' = false ∧ ndigits ≠ 0 ∧ ∀ tail,
      readChunk c 0 0 totaldigits ((chunkText m chunksz i).map some ++ tail) =
        readChunk c' (readVal m chunksz i) ndigits (totaldigits + ndigits) tail := by
  obtain ⟨ds, htext, hne, hds, hvalue⟩ := chunkText_eq m chunksz i
  have hfits : numeralValue 16 0 ds < 2 ^ 32 := by
    rw [hvalue]
    exact Nat.lt_of_lt_of_le (chunkVal_lt hw hsz hi) (Nat.pow_le_pow_right Nat.two_pos hsz)
  obtain ⟨c', hc', hrun⟩ := readChunk_digits hds hfits hc 0 totaldigits
  refine ⟨c', ds.length, hc', fun hzero => hne (List.length_eq_zero_iff.mp hzero), fun tail => ?_⟩
  rw [htext, readVal, ← hvalue]
  refine (hrun tail).trans ?_
  rw [Nat.zero_add]

theorem getLsbD_readVal (hw : w = 32 ∨ w = 64) (hsz : chunksz ≤ 32) (hi : i % 32 = 0) :
    (readVal m chunksz i).getLsbD j = (decide (j < chunksz) && bitAt m (i + j)) := by
  rw [readVal, BitVec.getLsbD_ofNat, BitVec.testBit_toNat, getLsbD_chunkVal hw hsz hi]
  by_cases hj : j < chunksz
  · rw [decide_eq_true (show j < 32 by omega), Bool.true_and]
  · rw [decide_eq_false hj, Bool.false_and, Bool.and_false]

theorem nbits_readVal_le (hw : w = 32 ∨ w = 64) (hsz : chunksz ≤ 32) (hi : i % 32 = 0) :
    nbitsToHoldValue (readVal m chunksz i) ≤ chunksz := by
  refine Nat.size_le.mpr (Nat.lt_pow_two_of_testBit _ fun j hj => ?_)
  rw [BitVec.testBit_toNat, getLsbD_readVal hw hsz hi, decide_eq_false (Nat.not_lt.mpr hj),
    Bool.false_and]

/-! ## Putting a chunk into the bitmap -/

/-- The bits of the bitmap with a chunk: those that it had, shifted, and the chunk. -/
theorem bitAt_putChunk (hw : w = 32 ∨ w = 64) (hi : i < bitsToLongs w nmaskbits * w) :
    bitAt (putChunk nmaskbits maskp chunk) i =
      (decide (32 ≤ i ∧ i < nmaskbits) && bitAt maskp (i - 32) || chunk.getLsbD i) := by
  have hshift := bitAt_bitmapShiftLeft true maskp maskp chunkSize nmaskbits (by omega) hi
  have hsame : source true maskp maskp = maskp := rfl
  have hmod : i % w < w := Nat.mod_lt i (by omega)
  rw [hsame] at hshift
  refine Eq.trans ?_ (congrArg (· || chunk.getLsbD i) hshift)
  unfold bitAt putChunk
  by_cases hword : i / w = 0
  · have hlt : i < w := (Nat.div_eq_zero_iff.mp hword).resolve_left (by omega)
    rw [hword, Function.update_self, BitVec.getLsbD_or, BitVec.getLsbD_setWidth,
      decide_eq_true hmod, Bool.true_and, Nat.mod_eq_of_lt hlt]
  · have hge : 32 ≤ i := by
      by_contra hsmall
      exact hword (Nat.div_eq_of_lt (by omega))
    rw [Function.update_of_ne hword, BitVec.getLsbD_of_ge chunk i hge, Bool.or_false]

/-- The number of bits that is counted for a chunk. -/
def chunkBits (s : Parse w) (chunk : BitVec 32) : Nat :=
  if s.nchunks = 0 then nbitsToHoldValue chunk else chunkSize

/-- A chunk that goes into the bitmap, unless there are too many bits. -/
theorem addChunk_eq (hchunk : ¬(s.nchunks = 0 ∧ chunk = 0)) :
    addChunk nmaskbits s chunk =
      if nmaskbits < int (s.nbits + chunkBits s chunk) then
        .error (putChunk nmaskbits s.maskp chunk)
      else
        .ok ⟨putChunk nmaskbits s.maskp chunk, s.nchunks + 1,
          int (s.nbits + chunkBits s chunk)⟩ := by
  unfold addChunk chunkBits
  rw [if_neg hchunk]
  dsimp only
  simp only [Nat.add_eq_right]

/-! ## Accepted texts -/

variable {buf : List (Option Byte)} {totaldigits : Nat} {t : Chunk} {maskp' : Nat → BitVec w}

/-- A chunk that is read and put in. -/
theorem parseLoop_chunk (hread : readChunk c 0 0 totaldigits buf = .ok t) (hdigits : t.ndigits ≠ 0)
    (hadd : addChunk nmaskbits s t.value = .ok s') :
    parseLoop nmaskbits c totaldigits s buf =
      if t.buf ≠ [] ∧ t.c = ch ',' then parseLoop nmaskbits t.c t.totaldigits s' t.buf
      else (s'.maskp, 0) := by
  rw [parseLoop_eq, hread]
  dsimp only
  rw [if_neg hdigits, hadd]

/-- The errors of the loop over the characters. -/
theorem readChunk_error {chunk : BitVec 32} {ndigits : Nat} {err : Int}
    (h : readChunk c chunk ndigits totaldigits buf = .error err) : err ≠ 0 := by
  induction buf generalizing c chunk ndigits totaldigits with
  | nil => cases h
  | cons new buf ih =>
    cases new with
    | none =>
      cases h
      decide
    | some new =>
      rw [readChunk] at h
      split at h
      · exact ih h
      split at h
      · cases h
        decide
      split at h
      · cases h
      · split at h
        · cases h
          decide
        · split at h
          · cases h
            decide
          · exact ih h

/-- Whatever is accepted was read and put in chunk by chunk. -/
theorem parseLoop_accepted (h : parseLoop nmaskbits c totaldigits s buf = (maskp', 0)) :
    ∃ t s', readChunk c 0 0 totaldigits buf = .ok t ∧ t.ndigits ≠ 0 ∧
      addChunk nmaskbits s t.value = .ok s' ∧
      (parseLoop nmaskbits t.c t.totaldigits s' t.buf = (maskp', 0) ∨ maskp' = s'.maskp) := by
  rw [parseLoop_eq] at h
  cases hread : readChunk c 0 0 totaldigits buf with
  | error err =>
    rw [hread] at h
    exact absurd (congrArg Prod.snd h) (readChunk_error hread)
  | ok t =>
    rw [hread] at h
    dsimp only at h
    by_cases hdigits : t.ndigits = 0
    · rw [if_pos hdigits] at h
      cases h
    rw [if_neg hdigits] at h
    cases hadd : addChunk nmaskbits s t.value with
    | error maskp =>
      rw [hadd] at h
      cases h
    | ok s' =>
      rw [hadd] at h
      dsimp only at h
      refine ⟨t, s', rfl, hdigits, hadd, ?_⟩
      split at h
      · exact .inl h
      · cases h
        exact .inr rfl

/-- The unused bits are clear. With less than a chunk of bits, there is one chunk at most. -/
structure Tidy (nmaskbits : Nat) (s : Parse w) : Prop where
  clear : ∀ i, nmaskbits ≤ i → i < bitsToLongs w nmaskbits * w → bitAt s.maskp i = false
  none : s.nchunks = 0 → s.nbits = 0
  small : nmaskbits < 32 → 0 ≤ s.nbits ∧ s.nbits ≤ nmaskbits

theorem Tidy.addChunk (hw : w = 32 ∨ w = 64) (hint : nmaskbits < 2 ^ 31) (hs : Tidy nmaskbits s)
    (h : addChunk nmaskbits s chunk = .ok s') : Tidy nmaskbits s' := by
  by_cases hchunk : s.nchunks = 0 ∧ chunk = 0
  · unfold Bitmaps.addChunk at h
    rw [if_pos hchunk] at h
    cases h
    exact hs
  rw [addChunk_eq hchunk] at h
  split at h
  · cases h
  next hfits =>
    cases h
    have hbits := fun i => @bitAt_putChunk w nmaskbits i s.maskp chunk hw
    rcases Nat.lt_or_ge nmaskbits 32 with hsmall | hlarge
    · obtain ⟨hnonneg, hle⟩ := hs.small hsmall
      by_cases hfirst : s.nchunks = 0
      · have hsize : nbitsToHoldValue chunk ≤ 32 := Nat.size_le.mpr chunk.isLt
        have hnbits : int (s.nbits + chunkBits s chunk) = nbitsToHoldValue chunk := by
          rw [hs.none hfirst, chunkBits, if_pos hfirst, Int.zero_add]
          exact int_eq (by omega) (by omega)
        rw [hnbits] at hfits
        refine ⟨fun i hi hlt => ?_, fun hzero => absurd hzero (Nat.succ_ne_zero _), fun _ => ?_⟩
        · have hchunk : chunk.toNat < 2 ^ i := by
            refine Nat.lt_of_lt_of_le (Nat.lt_size_self _)
              (Nat.pow_le_pow_right Nat.two_pos (Nat.le_trans ?_ hi))
            exact Int.ofNat_le.mp (Int.not_lt.mp hfits)
          rw [hbits i hlt, decide_eq_false (by omega), Bool.false_and, Bool.false_or,
            ← BitVec.testBit_toNat, Nat.testBit_lt_two_pow hchunk]
        · show 0 ≤ int _ ∧ int _ ≤ _
          rw [hnbits]
          omega
      · -- a second chunk is too much
        rw [chunkBits, if_neg hfirst, int_eq (by omega) (by unfold chunkSize; omega)] at hfits
        unfold chunkSize at hfits
        omega
    · refine ⟨fun i hi hlt => ?_, fun hzero => absurd hzero (Nat.succ_ne_zero _),
        fun hlt => by omega⟩
      rw [hbits i hlt, decide_eq_false (by omega), Bool.false_and, Bool.false_or,
        BitVec.getLsbD_of_ge chunk i (by omega)]

/-- An accepted text gives a bitmap without bits from its size on. -/
theorem parseLoop_clear (hw : w = 32 ∨ w = 64) (hint : nmaskbits < 2 ^ 31) (hs : Tidy nmaskbits s)
    (h : parseLoop nmaskbits c totaldigits s buf = (maskp', 0)) {i : Nat} (hi : nmaskbits ≤ i)
    (hlt : i < bitsToLongs w nmaskbits * w) : bitAt maskp' i = false := by
  induction hlength : buf.length using Nat.strong_induction_on generalizing c totaldigits s buf with
  | _ length ih =>
    obtain ⟨t, s', hread, hdigits, hadd, hnext⟩ := parseLoop_accepted h
    have hs' := hs.addChunk hw hint hadd
    rcases hnext with hnext | rfl
    · have hshorter := length_readChunk hread
      exact ih t.buf.length (by omega) hs' hnext rfl
    · exact hs'.clear i hi hlt

theorem bitAt_zeroWords (hw : w = 32 ∨ w = 64) (maskp : Nat → BitVec w)
    (hi : i < bitsToLongs w nmaskbits * w) : bitAt (zeroWords nmaskbits maskp) i = false := by
  have hword : i / w < bitsToLongs w nmaskbits := (Nat.div_lt_iff_lt_mul (by omega)).mpr hi
  unfold bitAt zeroWords
  rw [if_pos hword]
  exact BitVec.getLsbD_zero

theorem tidy_zeroWords (hw : w = 32 ∨ w = 64) (maskp : Nat → BitVec w) :
    Tidy nmaskbits ⟨zeroWords nmaskbits maskp, 0, 0⟩ :=
  ⟨fun _ _ hlt => bitAt_zeroWords hw maskp hlt, fun _ => rfl,
    fun _ => ⟨Int.le_refl 0, Int.natCast_nonneg _⟩⟩

/-! ## Printed texts -/

/-- The parser has the bits from `k` chunks on. The bits that it counted and those to come are no
more than the bitmap has. -/
structure Reached (m : Nat → BitVec w) (nmaskbits k : Nat) (s : Parse w) : Prop where
  bits : ∀ i, i < bitsToLongs w nmaskbits * w →
    bitAt s.maskp i = (decide (i + k * 32 < nmaskbits) && bitAt m (i + k * 32))
  none : s.nchunks = 0 → s.nbits = 0 ∧
    ∀ i, i < bitsToLongs w nmaskbits * w → bitAt s.maskp i = false
  count : s.nchunks ≠ 0 → 0 ≤ s.nbits ∧ s.nbits + k * 32 ≤ nmaskbits

/-- The next chunk fits. -/
theorem Reached.addChunk (hw : w = 32 ∨ w = 64) (hint : nmaskbits < 2 ^ 31)
    (hs : Reached m nmaskbits (k + 1) s) (hsz : chunksz ≤ 32)
    (hend : k * 32 + chunksz ≤ nmaskbits) (hfull : chunksz < 32 → k * 32 + chunksz = nmaskbits) :
    ∃ s', addChunk nmaskbits s (readVal m chunksz (k * chunkSize)) = .ok s' ∧
      Reached m nmaskbits k s' := by
  have hplace : k * chunkSize % 32 = 0 := Nat.mul_mod_left k 32
  have hmul : k * chunkSize = k * 32 := rfl
  -- the bits of the shifted bitmap and the chunk
  have hbits : ∀ i, i < bitsToLongs w nmaskbits * w →
      (decide (32 ≤ i ∧ i < nmaskbits) && bitAt s.maskp (i - 32) ||
        (readVal m chunksz (k * chunkSize)).getLsbD i) =
          (decide (i + k * 32 < nmaskbits) && bitAt m (i + k * 32)) := by
    intro i hi
    rw [getLsbD_readVal hw hsz hplace, hmul, Nat.add_comm (k * 32)]
    by_cases hlow : i < 32
    · have hiff : i < chunksz ↔ i + k * 32 < nmaskbits := by omega
      rw [decide_eq_false (by omega), Bool.false_and, Bool.false_or]
      simp only [hiff]
    · have hindex : i - 32 + (k + 1) * 32 = i + k * 32 := by omega
      rw [decide_eq_false (show ¬ i < chunksz by omega), Bool.false_and, Bool.or_false,
        hs.bits (i - 32) (by omega), hindex]
      by_cases hin : i + k * 32 < nmaskbits
      · rw [decide_eq_true (show 32 ≤ i ∧ i < nmaskbits by omega), Bool.true_and]
      · rw [decide_eq_false hin, Bool.false_and, Bool.and_false]
  by_cases hchunk : s.nchunks = 0 ∧ readVal m chunksz (k * chunkSize) = 0
  · -- a zero before all others
    obtain ⟨hnone, hclear⟩ := hs.none hchunk.1
    refine ⟨s, ?_, fun i hi => ?_, hs.none, fun h => absurd hchunk.1 h⟩
    · unfold Bitmaps.addChunk
      rw [if_pos hchunk]
    · have hbit := hbits i hi
      rw [hclear (i - 32) (by omega), hchunk.2, Bool.and_false, Bool.false_or] at hbit
      rw [hclear i hi, ← hbit]
      exact BitVec.getLsbD_zero.symm
  have hnbits : 0 ≤ s.nbits + chunkBits s (readVal m chunksz (k * chunkSize)) ∧
      s.nbits + chunkBits s (readVal m chunksz (k * chunkSize)) + k * 32 ≤ nmaskbits := by
    unfold chunkBits
    by_cases hfirst : s.nchunks = 0
    · have hle := nbits_readVal_le (m := m) hw hsz hplace
      rw [if_pos hfirst, (hs.none hfirst).1]
      omega
    · obtain ⟨hnonneg, hle⟩ := hs.count hfirst
      rw [if_neg hfirst]
      unfold chunkSize
      omega
  refine ⟨_, (addChunk_eq hchunk).trans (if_neg ?_), fun i hi => ?_,
    fun h => absurd h (Nat.succ_ne_zero _), fun _ => ?_⟩
  · rw [int_eq (by omega) (by omega)]
    omega
  · rw [bitAt_putChunk hw hi]
    exact hbits i hi
  · show 0 ≤ int _ ∧ int _ + _ ≤ _
    rw [int_eq (by omega) (by omega)]
    exact hnbits

/-- A `\0` or a comma ends a chunk. -/
theorem readChunk_end {new : Byte} {ndigits : Nat} (hc : isspace c = false)
    (hnew : new = 0 ∨ new = ch ',') :
    readChunk c chunk ndigits totaldigits (some new :: buf) =
      .ok ⟨new, chunk, ndigits, totaldigits, buf⟩ := by
  have hspace : isspace new = false := by
    rcases hnew with rfl | rfl
    · rfl
    · rfl
  rw [readChunk, hspace, if_neg Bool.false_ne_true, if_neg ?_, if_pos hnew]
  rintro ⟨-, -, h⟩
  rw [hc] at h
  cases h

/-- What is after a text in a buffer: nothing, or a `\0` first. -/
def Terminated (tail : List (Option Byte)) : Prop :=
  tail = [] ∨ ∃ more, tail = some 0 :: more

/-- One chunk of a text that was printed, with the end of the text or a comma after it. -/
theorem parseLoop_chunkText (hw : w = 32 ∨ w = 64) (hint : nmaskbits < 2 ^ 31)
    (hs : Reached m nmaskbits (k + 1) s) (hsz : chunksz ≤ 32)
    (hend : k * 32 + chunksz ≤ nmaskbits) (hfull : chunksz < 32 → k * 32 + chunksz = nmaskbits)
    (hc : isspace c = false) (totaldigits : Nat) :
    ∃ s' totaldigits', Reached m nmaskbits k s' ∧
      (∀ tail, Terminated tail → parseLoop nmaskbits c totaldigits s
        ((chunkText m chunksz (k * chunkSize)).map some ++ tail) = (s'.maskp, 0)) ∧
      ∀ rest, rest ≠ [] → parseLoop nmaskbits c totaldigits s
          ((chunkText m chunksz (k * chunkSize)).map some ++ some (ch ',') :: rest) =
        parseLoop nmaskbits (ch ',') totaldigits' s' rest := by
  obtain ⟨c', ndigits, hc', hdigits, hread⟩ := @readChunk_chunkText w chunksz (k * chunkSize) m c
    hw hsz (Nat.mul_mod_left k 32) hc totaldigits
  obtain ⟨s', hadd, hs'⟩ := hs.addChunk hw hint hsz hend hfull
  refine ⟨s', totaldigits + ndigits, hs', fun tail htail => ?_, fun rest hrest => ?_⟩
  · have htext := hread tail
    rcases htail with rfl | ⟨more, rfl⟩
    · rw [readChunk] at htext
      exact (parseLoop_chunk htext hdigits hadd).trans (if_neg fun h => h.1 rfl)
    · rw [readChunk_end hc' (.inl rfl)] at htext
      refine (parseLoop_chunk htext hdigits hadd).trans (if_neg fun h => ?_)
      exact absurd h.2 (show (0 : Byte) ≠ ch ',' by decide)
  · have htext := hread (some (ch ',') :: rest)
    rw [readChunk_end hc' (.inr rfl)] at htext
    exact (parseLoop_chunk htext hdigits hadd).trans (if_pos ⟨hrest, rfl⟩)

/-- The parser has the bits of the bitmap at the end of its text. -/
theorem parseLoop_text (hw : w = 32 ∨ w = 64) (hint : nmaskbits < 2 ^ 31)
    (htail : Terminated tail) (hs : Reached m nmaskbits (k + 1) s) (hsz : chunksz ≤ 32)
    (hend : k * 32 + chunksz ≤ nmaskbits) (hfull : chunksz < 32 → k * 32 + chunksz = nmaskbits)
    (hc : isspace c = false) (totaldigits : Nat) :
    ∃ s', parseLoop nmaskbits c totaldigits s ((chunkText m chunksz (k * chunkSize)).map some ++
        ((moreHex m k).map some ++ tail)) = (s'.maskp, 0) ∧ Reached m nmaskbits 0 s' := by
  induction k generalizing c s chunksz totaldigits with
  | zero =>
    obtain ⟨s', -, hs', hrun, -⟩ := parseLoop_chunkText hw hint hs hsz hend hfull hc totaldigits
    exact ⟨s', hrun tail htail, hs'⟩
  | succ k ih =>
    obtain ⟨s', totaldigits', hs', -, hrun⟩ :=
      parseLoop_chunkText hw hint hs hsz hend hfull hc totaldigits
    obtain ⟨s'', hmore, hs''⟩ := @ih chunkSize (ch ',') s' hs' (Nat.le_refl 32)
      (by unfold chunkSize; omega) (fun h => absurd h (Nat.lt_irrefl 32)) rfl totaldigits'
    refine ⟨s'', ?_, hs''⟩
    rw [moreHex, List.map_cons, List.map_append, List.cons_append, List.append_assoc, hrun]
    · exact hmore
    · obtain ⟨ds, htext, hne, -, -⟩ := chunkText_eq m chunkSize (k * chunkSize)
      rw [htext]
      cases ds with
      | nil => exact absurd rfl hne
      | cons d ds => exact List.cons_ne_nil _ _

/-! ## The round trip -/

theorem reached_zeroWords (hw : w = 32 ∨ w = 64) (hle : nmaskbits ≤ k * 32)
    (m maskp : Nat → BitVec w) : Reached m nmaskbits k ⟨zeroWords nmaskbits maskp, 0, 0⟩ := by
  refine ⟨fun i hi => ?_, fun _ => ⟨rfl, fun i hi => bitAt_zeroWords hw maskp hi⟩,
    fun h => absurd rfl h⟩
  rw [bitAt_zeroWords hw maskp hi, decide_eq_false (by omega), Bool.false_and]

/-- The text of a bitmap is parsed to the bitmap. -/
theorem parse_print (hw : w = 32 ∨ w = 64) (hn : 1 ≤ nmaskbits) (hint : nmaskbits < 2 ^ 31)
    {buflen : Nat} (hbuf : LargeEnough buflen (hexText m nmaskbits)) (htail : Terminated tail)
    (maskp : Nat → BitVec w) :
    ∃ maskp', bitmapParse ((bitmapScnprintf buflen m nmaskbits).map some ++ tail) maskp nmaskbits =
        (maskp', 0) ∧
      ∀ i, i < bitsToLongs w nmaskbits * w →
        bitAt maskp' i = (decide (i < nmaskbits) && bitAt m i) := by
  obtain ⟨hsz, hfirst⟩ := firstSize_spec hn
  have hstart : Reached m nmaskbits (moreChunks nmaskbits + 1)
      ⟨zeroWords nmaskbits maskp, 0, 0⟩ := reached_zeroWords hw (by omega) m maskp
  obtain ⟨s', hrun, hs'⟩ := @parseLoop_text w nmaskbits (firstSize nmaskbits)
    (moreChunks nmaskbits) m 0 _ tail hw hint htail hstart hsz (Nat.le_of_eq hfirst)
    (fun _ => hfirst) rfl 0
  refine ⟨s'.maskp, ?_, fun i hi => ?_⟩
  · rw [bitmapScnprintf_eq hn hint hbuf, hexText, List.map_append, List.append_assoc]
    exact hrun
  · have hbit := hs'.bits i hi
    rwa [Nat.zero_mul, Nat.add_zero] at hbit

/-- The text of a bitmap is parsed without an error, and gives the bits of the bitmap and no
others. Every text that is accepted gives a bitmap without bits from its size on, and it comes
back from its own text. -/
theorem hex_round_trip (hw : w = 32 ∨ w = 64) (hn : 1 ≤ nmaskbits) (hint : nmaskbits < 2 ^ 31) :
    (∀ (m maskp : Nat → BitVec w) (buflen : Nat) (tail : List (Option Byte)),
      LargeEnough buflen (hexText m nmaskbits) → Terminated tail →
      ∃ maskp', bitmapParse ((bitmapScnprintf buflen m nmaskbits).map some ++ tail) maskp
          nmaskbits = (maskp', 0) ∧
        ∀ i, i < bitsToLongs w nmaskbits * w →
          bitAt maskp' i = (decide (i < nmaskbits) && bitAt m i)) ∧
    ∀ (buf : List (Option Byte)) (maskp m : Nat → BitVec w),
      bitmapParse buf maskp nmaskbits = (m, 0) →
      (∀ i, nmaskbits ≤ i → i < bitsToLongs w nmaskbits * w → bitAt m i = false) ∧
      ∀ (maskp : Nat → BitVec w) (buflen : Nat) (tail : List (Option Byte)),
        LargeEnough buflen (hexText m nmaskbits) → Terminated tail →
        ∃ maskp', bitmapParse ((bitmapScnprintf buflen m nmaskbits).map some ++ tail) maskp
            nmaskbits = (maskp', 0) ∧
          ∀ i, i < bitsToLongs w nmaskbits * w → bitAt maskp' i = bitAt m i := by
  refine ⟨fun m maskp buflen tail hbuf htail => parse_print hw hn hint hbuf htail maskp,
    fun buf maskp m haccepted => ?_⟩
  have hclear : ∀ i, nmaskbits ≤ i → i < bitsToLongs w nmaskbits * w → bitAt m i = false :=
    fun i => parseLoop_clear hw hint (tidy_zeroWords hw maskp) haccepted
  refine ⟨hclear, fun maskp buflen tail hbuf htail => ?_⟩
  obtain ⟨maskp', hrun, hbits⟩ := parse_print hw hn hint hbuf htail maskp
  refine ⟨maskp', hrun, fun i hi => ?_⟩
  rw [hbits i hi]
  by_cases hin : i < nmaskbits
  · rw [decide_eq_true hin, Bool.true_and]
  · rw [hclear i (Nat.not_lt.mp hin) hi, Bool.and_false]

/-- A bitmap of 40 bits, with a first chunk of two digits. -/
theorem hex_round_trip_forty :
    ∃ maskp', bitmapParse ((bitmapScnprintf 20 (fun _ => 0x1234#32) 40).map some ++ [some 0])
        (fun _ => 7#32) 40 = (maskp', 0) ∧
      ∀ i, i < bitsToLongs 32 40 * 32 →
        bitAt maskp' i = (decide (i < 40) && bitAt (fun _ => 0x1234#32) i) :=
  (hex_round_trip (Or.inl rfl) (by decide) (by decide)).1 (fun _ => 0x1234#32) (fun _ => 7#32) 20
    [some 0] ⟨by decide, by decide⟩ (Or.inr ⟨[], rfl⟩)

end AndroidKernel.Bitmaps
