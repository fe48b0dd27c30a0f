import AndroidKernel.Bitmaps.Words
import AndroidKernel.Library.Words
import AndroidKernel.Library.Digits

/-!
# Bitmaps as lists of ranges

`bitmap_scnlistprintf` prints the ranges of set bits, and `bitmap_parselist` reads them. The
printer says that its output is compatible with the format that the parser accepts. The main
theorem, `list_round_trip_iff`, says for which bitmaps it is.
-/

/-!
## Texts of the kernel

A text is the list of the characters before a `\0`. The module has what the printing and the
parsing of bitmaps use of `lib/vsprintf.c`.
-/

namespace AndroidKernel.Bitmaps

open Library

def einval : Int := -22

/-- `digits[d] | locase`. -/
def digitChar (d : Nat) : Byte :=
  BitVec.ofNat 8 (if d < 10 then 48 + d else 97 + (d - 10))

/-- What `number` writes of a number in a base, with zeros before it up to a field width. -/
def numberText (base width n : Nat) : List Byte :=
  let digits := numeral base n
  List.replicate (width - digits.length) (ch '0') ++ digits.map digitChar

/-- `%d` of a number that is not negative. -/
def decimal (n : Nat) : List Byte :=
  numberText 10 0 n

/-- What `scnprintf` writes of a text before the `\0`, for a size that is not zero. `vsnprintf`
rejects a size that is not an `int`. -/
def scnprintf (size : Int) (text : List Byte) : List Byte :=
  if int size < 0 then [] else text.take (size.toNat - 1)

/-- `cp[i]`. -/
def charAt (cp : List Byte) (i : Nat) : Byte :=
  cp.getD i 0

@[simp] theorem charAt_cons (c : Byte) (cp : List Byte) : charAt (c :: cp) 0 = c :=
  rfl

def simpleGuessBase (cp : List Byte) : Nat :=
  if charAt cp 0 = ch '0' then
    if lower (charAt cp 1) = ch 'x' ∧ isxdigit (charAt cp 2) then 16 else 8
  else 10

/-- The value of a digit in `simple_strtoul`. -/
def digitValue (c : Byte) : Nat :=
  if isdigit c then c.toNat - 48 else (lower c).toNat - 97 + 10

/-- The loop of `simple_strtoul`: the result, and the text from the end of the number on. -/
def strtoulLoop {w : Nat} (base : Nat) : BitVec w → List Byte → BitVec w × List Byte
  | result, [] => (result, [])
  | result, c :: cp =>
    if isxdigit c ∧ digitValue c < base then
      strtoulLoop base (result * BitVec.ofNat w base + BitVec.ofNat w (digitValue c)) cp
    else
      (result, c :: cp)

/-- `simple_strtoul`. -/
def simpleStrtoul (w : Nat) (cp : List Byte) (base : Nat) : BitVec w × List Byte :=
  let base := if base = 0 then simpleGuessBase cp else base
  let cp := if base = 16 ∧ charAt cp 0 = ch '0' ∧ lower (charAt cp 1) = ch 'x' then cp.drop 2 else cp
  strtoulLoop base 0 cp

variable {w base d n : Nat} {c : Byte} {ds : List Nat} {cp text : List Byte}

/-! ## Digits -/

theorem digitChar_cases (hd : d < 16) : isxdigit (digitChar d) = true ∧
    digitValue (digitChar d) = d ∧ (isdigit (digitChar d) = true ↔ d < 10) := by
  have hall : ∀ d < 16, isxdigit (digitChar d) = true ∧
      digitValue (digitChar d) = d ∧ (isdigit (digitChar d) = true ↔ d < 10) := by decide
  exact hall d hd

/-- Characters that are a digit of the base are read. -/
theorem strtoulLoop_digits (hbase : base ≤ 16) (hds : ∀ d ∈ ds, d < base) (v : Nat) :
    strtoulLoop base (BitVec.ofNat w v) (ds.map digitChar ++ text) =
      strtoulLoop base (BitVec.ofNat w (numeralValue base v ds)) text := by
  induction ds generalizing v with
  | nil => rfl
  | cons d ds ih =>
    have hd : d < base := hds d List.mem_cons_self
    obtain ⟨hxdigit, hvalue, -⟩ := digitChar_cases (Nat.lt_of_lt_of_le hd hbase)
    rw [List.map_cons, List.cons_append, strtoulLoop, hvalue, if_pos ⟨hxdigit, hd⟩,
      ← BitVec.ofNat_mul, ← BitVec.ofNat_add, numeralValue_cons]
    exact ih (fun e he => hds e (List.mem_cons_of_mem d he)) _

/-- A decimal number ends at a character that is not a digit. -/
theorem strtoulLoop_stop (result : BitVec w) (htext : isdigit (charAt text 0) = false) :
    strtoulLoop 10 result text = (result, text) := by
  cases text with
  | nil => rfl
  | cons c cp =>
    have hdigit : isdigit c = false := htext
    have hvalue : ¬ digitValue c < 10 := by
      unfold digitValue
      rw [hdigit]
      exact Nat.not_lt.mpr (Nat.le_add_left 10 _)
    rw [strtoulLoop, if_neg fun h => hvalue h.2]

theorem decimal_eq (n : Nat) : decimal n = (numeral 10 n).map digitChar := by
  unfold decimal numberText
  dsimp only
  rw [Nat.zero_sub, List.replicate_zero, List.nil_append]

/-- A decimal number starts with a digit. -/
theorem isdigit_decimal (n : Nat) (text : List Byte) :
    isdigit (charAt (decimal n ++ text) 0) = true := by
  rw [decimal_eq]
  cases hnum : numeral 10 n with
  | nil => exact absurd hnum numeral_ne_nil
  | cons d ds =>
    have hd : d < 10 := lt_of_mem_numeral (by omega) (hnum ▸ List.mem_cons_self)
    exact (digitChar_cases (by omega)).2.2.mpr hd

/-- A number that was printed is read back. -/
theorem simpleStrtoul_decimal (htext : isdigit (charAt text 0) = false) :
    simpleStrtoul w (decimal n ++ text) 10 = (BitVec.ofNat w n, text) := by
  unfold simpleStrtoul
  dsimp only
  rw [if_neg (by omega), if_neg (by rintro ⟨hbase, -⟩; omega), decimal_eq]
  refine (strtoulLoop_digits (by omega) (fun d => lt_of_mem_numeral (by omega)) 0).trans ?_
  rw [numeralValue_numeral, strtoulLoop_stop _ htext]

/-! ## Printing -/

/-- A buffer with room for a text and its `\0`, and with a size that `vsnprintf` accepts. -/
structure LargeEnough (buflen : Nat) (text : List Byte) : Prop where
  fits : text.length < buflen
  accepted : buflen < 2 ^ 31

/-- A text that fits is written in full. -/
theorem scnprintf_eq {size : Int} (hsize : size < 2 ^ 31) (htext : (text.length : Int) < size) :
    scnprintf size text = text := by
  unfold scnprintf
  rw [int_eq (by omega) hsize, if_neg (by omega), List.take_of_length_le (by omega)]

def erange : Int := -34

/-- `bscnl_emit`, for the text that is in the buffer already. -/
def bscnlEmit (buflen : Int) (rbot rtop : Nat) (buf : List Byte) : List Byte :=
  let buf := if 0 < buf.length then buf ++ scnprintf (buflen - buf.length) [ch ','] else buf
  if rbot = rtop then
    buf ++ scnprintf (buflen - buf.length) (decimal rbot)
  else
    buf ++ scnprintf (buflen - buf.length) (decimal rbot ++ ch '-' :: decimal rtop)

variable {w : Nat} {m maskp : Bitmap} {nmaskbits cur rbot : Nat}

theorem lt_findNextBit (h : cur < nmaskbits) :
    cur < m.findNextBit nmaskbits (cur + 1) :=
  (Bitmap.findNextBit_spec h).1

/-- The loop of `bitmap_scnlistprintf`. -/
def scnlistLoop (buflen : Int) (maskp : Bitmap) (nmaskbits cur rbot : Nat) (buf : List Byte) :
    List Byte :=
  if h : cur < nmaskbits then
    let next := maskp.findNextBit nmaskbits (cur + 1)
    have : cur < next := lt_findNextBit h
    if nmaskbits ≤ next ∨ cur + 1 < next then
      scnlistLoop buflen maskp nmaskbits next next (bscnlEmit buflen rbot cur buf)
    else
      scnlistLoop buflen maskp nmaskbits next rbot buf
  else
    buf
termination_by nmaskbits - cur

/-- `bitmap_scnlistprintf`: the text that it writes. -/
def bitmapScnlistprintf (buflen : Nat) (maskp : Bitmap) (nmaskbits : Nat) : List Byte :=
  if buflen = 0 then []
  else
    let cur := maskp.findNextBit nmaskbits 0
    scnlistLoop (int buflen) maskp nmaskbits cur cur []

/-- `bitmap_zero`, which clears whole words. -/
def bitmapZero (w nmaskbits : Nat) (maskp : Bitmap) : Bitmap :=
  Bitmap.writeBits false 0 (bitsToLongs w nmaskbits * w) maskp

/-- One number or range: its ends, and the text after it. -/
def parseRange (w : Nat) (bp : List Byte) : Option (Nat × Nat × List Byte) :=
  if isdigit (charAt bp 0) then
    let (a, bp) := simpleStrtoul w bp 10
    if charAt bp 0 = ch '-' then
      let bp := bp.drop 1
      if isdigit (charAt bp 0) then
        let (b, bp) := simpleStrtoul w bp 10
        some (a.toNat % 2 ^ 32, b.toNat % 2 ^ 32, bp)
      else
        none
    else
      some (a.toNat % 2 ^ 32, a.toNat % 2 ^ 32, bp)
  else
    none

theorem length_strtoulLoop_le {base : Nat} (result : BitVec w) (cp : List Byte) :
    (strtoulLoop base result cp).2.length ≤ cp.length := by
  induction cp generalizing result with
  | nil => exact Nat.le_refl _
  | cons c cp ih =>
    rw [strtoulLoop]
    split
    · exact Nat.le_succ_of_le (ih _)
    · exact Nat.le_refl _

theorem length_simpleStrtoul_lt {cp : List Byte} (h : isdigit (charAt cp 0) = true) :
    (simpleStrtoul w cp 10).2.length < cp.length := by
  cases cp with
  | nil => exact absurd h Bool.false_ne_true
  | cons c cp =>
    have hdigit : isdigit c = true := h
    have hvalue : digitValue c < 10 := by
      unfold digitValue
      rw [if_pos hdigit]
      have hrange := of_decide_eq_true hdigit
      omega
    have hxdigit : isxdigit c = true := by
      unfold isxdigit
      rw [hdigit, Bool.true_or, Bool.true_or]
    unfold simpleStrtoul
    dsimp only
    rw [if_neg (by omega), if_neg (by rintro ⟨hbase, -⟩; omega), strtoulLoop,
      if_pos ⟨hxdigit, hvalue⟩]
    exact Nat.lt_succ_of_le (length_strtoulLoop_le _ cp)

theorem length_parseRange_lt {bp rest : List Byte} {a b : Nat}
    (h : parseRange w bp = some (a, b, rest)) : rest.length < bp.length := by
  unfold parseRange at h
  split at h
  · next hdigit =>
      have hlt := @length_simpleStrtoul_lt w bp hdigit
      dsimp only at h
      split at h
      · split at h
        · next hdigit' =>
            have hlt' := @length_simpleStrtoul_lt w _ hdigit'
            rw [List.length_drop] at hlt'
            cases h
            omega
        · cases h
      · cases h
        exact hlt
  · cases h

/-- `if (*bp == ',') bp++`. -/
def skipComma (bp : List Byte) : List Byte :=
  if charAt bp 0 = ch ',' then bp.drop 1 else bp

theorem length_skipComma_le (bp : List Byte) : (skipComma bp).length ≤ bp.length := by
  unfold skipComma
  split
  · exact List.length_drop ▸ Nat.sub_le _ _
  · exact Nat.le_refl _

/-- The loop of `bitmap_parselist`: the bitmap, and the result. -/
def parselistLoop (w nmaskbits : Nat) (bp : List Byte) (maskp : Bitmap) : Bitmap × Int :=
  match h : parseRange w bp with
  | none => (maskp, einval)
  | some (a, b, rest) =>
    have : (skipComma rest).length < bp.length :=
      Nat.lt_of_le_of_lt (length_skipComma_le rest) (length_parseRange_lt h)
    if ¬ a ≤ b then (maskp, einval)
    else if nmaskbits ≤ b then (maskp, erange)
    else
      let maskp := Bitmap.writeBits true a (b + 1 - a) maskp
      if charAt (skipComma rest) 0 ≠ 0 ∧ charAt (skipComma rest) 0 ≠ ch '\n' then
        parselistLoop w nmaskbits (skipComma rest) maskp
      else
        (maskp, 0)
termination_by bp.length

/-- `bitmap_parselist`. -/
def bitmapParselist (w : Nat) (bp : List Byte) (maskp : Bitmap) (nmaskbits : Nat) : Bitmap × Int :=
  parselistLoop w nmaskbits bp (bitmapZero w nmaskbits maskp)

/-! ## The ranges of set bits -/

/-- The ranges that the loop prints from `cur` on. -/
def rangesFrom (m : Bitmap) (nmaskbits cur rbot : Nat) : List (Nat × Nat) :=
  if h : cur < nmaskbits then
    let next := m.findNextBit nmaskbits (cur + 1)
    have : cur < next := lt_findNextBit h
    if nmaskbits ≤ next ∨ cur + 1 < next then
      (rbot, cur) :: rangesFrom m nmaskbits next next
    else
      rangesFrom m nmaskbits next rbot
  else
    []
termination_by nmaskbits - cur

/-- The ranges of set bits, from the first set bit on. -/
def ranges (m : Bitmap) (nmaskbits : Nat) : List (Nat × Nat) :=
  let cur := m.findNextBit nmaskbits 0
  rangesFrom m nmaskbits cur cur

/-- Whether a bit is in one of the ranges. -/
def InRanges (rs : List (Nat × Nat)) (i : Nat) : Prop :=
  ∃ r ∈ rs, r.1 ≤ i ∧ i ≤ r.2

variable {i : Nat} {r : Nat × Nat} {rs : List (Nat × Nat)}

theorem inRanges_cons : InRanges (r :: rs) i ↔ r.1 ≤ i ∧ i ≤ r.2 ∨ InRanges rs i := by
  unfold InRanges
  rw [List.exists_mem_cons_iff]

/-- What the loop knows of a range that it has not printed yet. -/
structure Pending (m : Bitmap) (nmaskbits cur rbot : Nat) : Prop where
  inside : cur ≤ nmaskbits
  set : cur < nmaskbits → ∀ i, rbot ≤ i → i ≤ cur → m i = true
  start : rbot ≤ cur
  done : cur = nmaskbits → rbot = cur

/-- The next range starts at the next set bit. -/
theorem pending_next (h : cur ≤ nmaskbits) :
    Pending m nmaskbits (m.findNextBit nmaskbits cur) (m.findNextBit nmaskbits cur) := by
  refine ⟨(Bitmap.findNextBit_spec h).2.1, fun hlt i hge hle => ?_, Nat.le_refl _, fun _ => rfl⟩
  rw [Nat.le_antisymm hle hge]
  exact Bitmap.findNextBit_set h hlt

/-- The ranges have the set bits from the start of the pending one on, and no others. -/
theorem rangesFrom_spec (h : Pending m nmaskbits cur rbot) :
    (∀ r ∈ rangesFrom m nmaskbits cur rbot, r.1 ≤ r.2 ∧ r.2 < nmaskbits) ∧
      ∀ i, InRanges (rangesFrom m nmaskbits cur rbot) i ↔
        rbot ≤ i ∧ i < nmaskbits ∧ m i = true := by
  induction cur, rbot using rangesFrom.induct m nmaskbits with
  | case1 cur rbot hcur next hlt hend ih =>
    obtain ⟨hle, hnext, hclear⟩ := @Bitmap.findNextBit_spec m nmaskbits (cur + 1) hcur
    obtain ⟨hbounds, hbits⟩ := ih (pending_next hcur)
    rw [rangesFrom, dif_pos hcur]
    dsimp only
    rw [if_pos hend]
    refine ⟨fun r hr => ?_, fun i => ?_⟩
    · rcases List.mem_cons.mp hr with rfl | hr
      · exact ⟨h.start, hcur⟩
      · exact hbounds r hr
    rw [inRanges_cons, hbits]
    constructor
    · rintro (⟨hlo, hhi⟩ | ⟨hlo, hin, hbit⟩)
      · exact ⟨hlo, Nat.lt_of_le_of_lt hhi hcur, h.set hcur i hlo hhi⟩
      · exact ⟨Nat.le_trans (Nat.le_trans h.start (Nat.le_of_lt hlt)) hlo, hin, hbit⟩
    rintro ⟨hlo, hin, hbit⟩
    by_cases hi : i ≤ cur
    · exact .inl ⟨hlo, hi⟩
    · refine .inr ⟨?_, hin, hbit⟩
      -- the bits that the scan passes are clear
      by_contra hgap
      have hfalse := hclear i (Nat.not_le.mp hi) (Nat.not_le.mp hgap)
      rw [hbit] at hfalse
      cases hfalse
  | case2 cur rbot hcur next hlt hnot ih =>
    have hsucc : next = cur + 1 ∧ next < nmaskbits := by omega
    have hpending : Pending m nmaskbits next rbot := by
      refine ⟨Nat.le_of_lt hsucc.2, fun _ i hge hle => ?_,
        Nat.le_trans h.start (Nat.le_of_lt hlt), fun hn => absurd hn (Nat.ne_of_lt hsucc.2)⟩
      by_cases hi : i ≤ cur
      · exact h.set hcur i hge hi
      · rw [show i = next by omega]
        exact Bitmap.findNextBit_set hcur hsucc.2
    rw [rangesFrom, dif_pos hcur]
    dsimp only
    rw [if_neg hnot]
    exact ih hpending
  | case3 cur rbot hcur =>
    have hend : cur = nmaskbits := Nat.le_antisymm h.inside (Nat.not_lt.mp hcur)
    have hstart := h.done hend
    rw [rangesFrom, dif_neg hcur]
    refine ⟨fun r hr => absurd hr List.not_mem_nil, fun i => ?_⟩
    refine iff_of_false ?_ (by omega)
    rintro ⟨r, hr, -⟩
    exact List.not_mem_nil hr

/-- The ranges have the set bits. -/
theorem ranges_spec (m : Bitmap) (nmaskbits : Nat) :
    (∀ r ∈ ranges m nmaskbits, r.1 ≤ r.2 ∧ r.2 < nmaskbits) ∧
      ∀ i, InRanges (ranges m nmaskbits) i ↔ i < nmaskbits ∧ m i = true := by
  obtain ⟨hbounds, hbits⟩ := rangesFrom_spec (pending_next (m := m) (Nat.zero_le nmaskbits))
  refine ⟨hbounds, fun i => (hbits i).trans (and_iff_right_of_imp ?_)⟩
  rintro ⟨hin, hbit⟩
  by_contra hlt
  have hfalse := (Bitmap.findNextBit_spec (Nat.zero_le nmaskbits)).2.2 i (Nat.zero_le i)
    (Nat.not_le.mp hlt)
  rw [hbit] at hfalse
  cases hfalse

/-! ## Printing -/

/-- `%d` or `%d-%d`. -/
def rangeText (r : Nat × Nat) : List Byte :=
  if r.1 = r.2 then decimal r.1 else decimal r.1 ++ ch '-' :: decimal r.2

/-- Ranges after another one. -/
def moreText (rs : List (Nat × Nat)) : List Byte :=
  rs.flatMap fun r => ch ',' :: rangeText r

/-- The list of ranges as a text. -/
def listText : List (Nat × Nat) → List Byte
  | [] => []
  | r :: rs => rangeText r ++ moreText rs

variable {buflen : Int} {buf : List Byte}

/-- The loop prints the ranges one after the other. -/
theorem scnlistLoop_eq (buflen : Int) (buf : List Byte) :
    scnlistLoop buflen m nmaskbits cur rbot buf =
      (rangesFrom m nmaskbits cur rbot).foldl (fun buf r => bscnlEmit buflen r.1 r.2 buf) buf := by
  induction cur, rbot using rangesFrom.induct m nmaskbits generalizing buf with
  | case1 cur rbot hcur next hlt hend ih =>
    rw [scnlistLoop, rangesFrom, dif_pos hcur, dif_pos hcur]
    dsimp only
    rw [if_pos hend, if_pos hend]
    exact ih _
  | case2 cur rbot hcur next hlt hnot ih =>
    rw [scnlistLoop, rangesFrom, dif_pos hcur, dif_pos hcur]
    dsimp only
    rw [if_neg hnot, if_neg hnot]
    exact ih _
  | case3 cur rbot hcur =>
    rw [scnlistLoop, rangesFrom, dif_neg hcur, dif_neg hcur]
    rfl

/-- The comma and the range that `bscnl_emit` adds. -/
theorem bscnlEmit_append (buflen : Int) (r : Nat × Nat) (buf : List Byte) :
    bscnlEmit buflen r.1 r.2 buf =
      let buf := if 0 < buf.length then buf ++ scnprintf (buflen - buf.length) [ch ','] else buf
      buf ++ scnprintf (buflen - buf.length) (rangeText r) := by
  unfold bscnlEmit rangeText
  dsimp only
  split
  · rfl
  · rfl

/-- A text that fits is added to the text that is there. -/
theorem append_scnprintf (text : List Byte) (hbuflen : buflen < 2 ^ 31)
    (hfits : ((buf ++ text).length : Int) < buflen) :
    buf ++ scnprintf (buflen - buf.length) text = buf ++ text := by
  rw [List.length_append] at hfits
  rw [scnprintf_eq (by omega) (by omega)]

theorem bscnlEmit_cons (hbuflen : buflen < 2 ^ 31) (hne : 0 < buf.length)
    (hfits : ((buf ++ ch ',' :: rangeText r).length : Int) < buflen) :
    bscnlEmit buflen r.1 r.2 buf = buf ++ ch ',' :: rangeText r := by
  have hsplit : buf ++ ch ',' :: rangeText r = buf ++ [ch ','] ++ rangeText r :=
    (List.append_assoc buf [ch ','] (rangeText r)).symm
  rw [hsplit] at hfits ⊢
  have hcomma : ((buf ++ [ch ',']).length : Int) < buflen := by
    rw [List.length_append] at hfits
    omega
  rw [bscnlEmit_append]
  dsimp only
  rw [if_pos hne, append_scnprintf [ch ','] hbuflen hcomma, append_scnprintf _ hbuflen hfits]

theorem bscnlEmit_nil (hbuflen : buflen < 2 ^ 31) (hfits : ((rangeText r).length : Int) < buflen) :
    bscnlEmit buflen r.1 r.2 [] = rangeText r := by
  rw [bscnlEmit_append]
  dsimp only
  rw [if_neg (show ¬ 0 < ([] : List Byte).length from Nat.lt_irrefl 0)]
  exact append_scnprintf (rangeText r) hbuflen hfits

theorem emit_moreText (hbuflen : buflen < 2 ^ 31) (hne : 0 < buf.length)
    (hfits : ((buf ++ moreText rs).length : Int) < buflen) :
    rs.foldl (fun buf r => bscnlEmit buflen r.1 r.2 buf) buf = buf ++ moreText rs := by
  induction rs generalizing buf with
  | nil => exact (List.append_nil buf).symm
  | cons r rs ih =>
    have hsplit : buf ++ moreText (r :: rs) = buf ++ ch ',' :: rangeText r ++ moreText rs :=
      (List.append_assoc buf (ch ',' :: rangeText r) (moreText rs)).symm
    rw [hsplit] at hfits ⊢
    have hhead : ((buf ++ ch ',' :: rangeText r).length : Int) < buflen := by
      rw [List.length_append] at hfits
      omega
    rw [List.foldl_cons, bscnlEmit_cons hbuflen hne hhead]
    refine ih ?_ hfits
    rw [List.length_append]
    omega

theorem length_rangeText_pos (r : Nat × Nat) : 0 < (rangeText r).length := by
  have hpos : ∀ n, 0 < (decimal n).length := fun n => by
    rw [decimal_eq, List.length_map]
    exact List.length_pos_iff.mpr numeral_ne_nil
  unfold rangeText
  split
  · exact hpos r.1
  · rw [List.length_append]
    exact Nat.add_pos_left (hpos r.1) _

/-- A buffer that is large enough gets the list of ranges. -/
theorem bitmapScnlistprintf_eq {buflen : Nat}
    (hbuf : LargeEnough buflen (listText (ranges m nmaskbits))) :
    bitmapScnlistprintf buflen m nmaskbits = listText (ranges m nmaskbits) := by
  have hfits := hbuf.fits
  have haccepted := hbuf.accepted
  unfold bitmapScnlistprintf
  rw [if_neg (by omega), int_eq (by omega) (by omega)]
  refine (scnlistLoop_eq _ _).trans ?_
  show (ranges m nmaskbits).foldl _ _ = _
  cases hranges : ranges m nmaskbits with
  | nil => rfl
  | cons r rs =>
    rw [hranges, listText] at hfits
    have hhead : ((rangeText r).length : Int) < buflen := by
      rw [List.length_append] at hfits
      omega
    rw [List.foldl_cons, bscnlEmit_nil (by omega) hhead, listText]
    exact emit_moreText (by omega) (length_rangeText_pos r) (Int.ofNat_lt.mpr hfits)

/-! ## Parsing -/

theorem toNat_unsigned (hw : w = 32 ∨ w = 64) {n : Nat} (hn : n < 2 ^ 31) :
    (BitVec.ofNat w n).toNat % 2 ^ 32 = n := by
  rw [BitVec.toNat_ofNat]
  rcases hw with rfl | rfl
  · omega
  · omega

/-- A range that was printed is read back. -/
theorem parseRange_text (text : List Byte) (hw : w = 32 ∨ w = 64) (hle : r.1 ≤ r.2)
    (hb : r.2 < 2 ^ 31) (htext : isdigit (charAt text 0) = false)
    (hdash : charAt text 0 ≠ ch '-') :
    parseRange w (rangeText r ++ text) = some (r.1, r.2, text) := by
  unfold parseRange rangeText
  by_cases heq : r.1 = r.2
  · rw [if_pos heq, if_pos (isdigit_decimal _ _), simpleStrtoul_decimal htext]
    dsimp only
    rw [if_neg hdash, toNat_unsigned hw (by omega), ← heq]
  have hsplit : decimal r.1 ++ ch '-' :: decimal r.2 ++ text =
      decimal r.1 ++ (ch '-' :: (decimal r.2 ++ text)) := List.append_assoc _ _ _
  rw [if_neg heq, hsplit, if_pos (isdigit_decimal _ _), simpleStrtoul_decimal rfl]
  dsimp only
  rw [charAt_cons, if_pos rfl, List.drop_succ_cons, List.drop_zero, if_pos (isdigit_decimal _ _),
    simpleStrtoul_decimal htext]
  dsimp only
  rw [toNat_unsigned hw (by omega), toNat_unsigned hw hb]

/-- A text with a range at its start goes on. -/
theorem rangeText_head (r : Nat × Nat) (text : List Byte) :
    charAt (rangeText r ++ text) 0 ≠ 0 ∧ charAt (rangeText r ++ text) 0 ≠ ch '\n' := by
  have hdigit : isdigit (charAt (rangeText r ++ text) 0) = true := by
    unfold rangeText
    split
    · exact isdigit_decimal _ _
    · rw [List.append_assoc]
      exact isdigit_decimal _ _
  constructor
  · intro hzero
    rw [hzero] at hdigit
    cases hdigit
  · intro hnewline
    rw [hnewline] at hdigit
    cases hdigit

theorem parselistLoop_some {a b : Nat} {bp rest : List Byte}
    (h : parseRange w bp = some (a, b, rest)) (hle : a ≤ b) (hb : b < nmaskbits) :
    parselistLoop w nmaskbits bp maskp =
      if charAt (skipComma rest) 0 ≠ 0 ∧ charAt (skipComma rest) 0 ≠ ch '\n' then
        parselistLoop w nmaskbits (skipComma rest) (Bitmap.writeBits true a (b + 1 - a) maskp)
      else
        (Bitmap.writeBits true a (b + 1 - a) maskp, 0) := by
  rw [parselistLoop]
  split
  · next hnone =>
      rw [h] at hnone
      cases hnone
  · next hsome =>
      rw [h] at hsome
      cases hsome
      dsimp only
      rw [if_neg (not_not.mpr hle), if_neg (Nat.not_le.mpr hb)]

theorem parselistLoop_none {bp : List Byte} (h : parseRange w bp = none) :
    parselistLoop w nmaskbits bp maskp = (maskp, einval) := by
  rw [parselistLoop]
  split
  · rfl
  · next hsome =>
      rw [h] at hsome
      cases hsome

/-- The bits that one range sets. -/
theorem writeBits_range (hle : r.1 ≤ r.2) :
    Bitmap.writeBits true r.1 (r.2 + 1 - r.1) maskp i = true ↔
      r.1 ≤ i ∧ i ≤ r.2 ∨ maskp i = true := by
  rw [Bitmap.writeBits_apply]
  by_cases hin : r.1 ≤ i ∧ i ≤ r.2
  · rw [if_pos (by omega)]
    exact iff_of_true rfl (.inl hin)
  · rw [if_neg (by omega), or_iff_right hin]

/-- The parser sets the bits of the ranges of a text that was printed. -/
theorem parselistLoop_text (maskp : Bitmap) (hw : w = 32 ∨ w = 64) (hint : nmaskbits < 2 ^ 31)
    (hbounds : ∀ q ∈ r :: rs, q.1 ≤ q.2 ∧ q.2 < nmaskbits) :
    ∃ maskp', parselistLoop w nmaskbits (rangeText r ++ moreText rs) maskp = (maskp', 0) ∧
      ∀ i, maskp' i = true ↔ InRanges (r :: rs) i ∨ maskp i = true := by
  obtain ⟨hle, hlt⟩ := hbounds r List.mem_cons_self
  induction rs generalizing r maskp with
  | nil =>
    have hrange := parseRange_text (moreText []) hw hle (by omega) rfl (by decide)
    refine ⟨_, (parselistLoop_some hrange hle hlt).trans (if_neg fun h => h.1 rfl), fun i => ?_⟩
    rw [writeBits_range hle, inRanges_cons]
    have hnone : ¬ InRanges [] i := by
      rintro ⟨q, hq, -⟩
      exact List.not_mem_nil hq
    rw [or_iff_left hnone]
  | cons q rs ih =>
    obtain ⟨hle', hlt'⟩ := hbounds q (List.mem_cons_of_mem r List.mem_cons_self)
    have hrange := parseRange_text (moreText (q :: rs)) hw hle (by omega) rfl
      (show ch ',' ≠ ch '-' by decide)
    have hrest : skipComma (moreText (q :: rs)) = rangeText q ++ moreText rs := rfl
    obtain ⟨maskp', hrun, hbits⟩ := @ih q (Bitmap.writeBits true r.1 (r.2 + 1 - r.1) maskp)
      (fun p hp => hbounds p (List.mem_cons_of_mem r hp)) hle' hlt'
    refine ⟨maskp', ?_, fun i => ?_⟩
    · rw [parselistLoop_some hrange hle hlt, hrest, if_pos (rangeText_head q _)]
      exact hrun
    · rw [hbits, writeBits_range hle, inRanges_cons (r := r), or_assoc, or_left_comm]

/-! ## The round trip -/

/-- The text of a bitmap is parsed without an error, and gives the bitmap again. -/
def ListRoundTrip (w buflen : Nat) (m : Bitmap) (nmaskbits : Nat) (maskp : Bitmap) : Prop :=
  ∃ maskp', bitmapParselist w (bitmapScnlistprintf buflen m nmaskbits) maskp nmaskbits =
    (maskp', 0) ∧ ∀ i, i < nmaskbits → maskp' i = m i

theorem ranges_eq_nil : ranges m nmaskbits = [] ↔ ∀ i, i < nmaskbits → m i = false := by
  have hspec := (ranges_spec m nmaskbits).2
  constructor
  · intro hnil i hi
    by_contra hbit
    obtain ⟨r, hr, -⟩ := (hspec i).mpr ⟨hi, (Bool.not_eq_false _).mp hbit⟩
    rw [hnil] at hr
    exact List.not_mem_nil hr
  · intro hclear
    refine List.eq_nil_iff_forall_not_mem.mpr fun r hr => ?_
    obtain ⟨hle, -⟩ := (ranges_spec m nmaskbits).1 r hr
    obtain ⟨hlt, hbit⟩ := (hspec r.1).mp ⟨r, hr, Nat.le_refl _, hle⟩
    rw [hclear r.1 hlt] at hbit
    cases hbit

/-- An empty text is an error. -/
theorem not_listRoundTrip_empty {buflen : Nat}
    (hbuf : LargeEnough buflen (listText (ranges m nmaskbits)))
    (hclear : ∀ i, i < nmaskbits → m i = false) : ¬ ListRoundTrip w buflen m nmaskbits maskp := by
  rintro ⟨maskp', hrun, -⟩
  rw [bitmapScnlistprintf_eq hbuf, ranges_eq_nil.mpr hclear, listText, bitmapParselist,
    parselistLoop_none rfl] at hrun
  cases hrun

/-- A bitmap survives being printed and parsed exactly when it has a set bit: the text of the empty
bitmap is empty, and that is the one text that the parser rejects. -/
theorem list_round_trip_iff (hw : w = 32 ∨ w = 64) (hint : nmaskbits < 2 ^ 31) {buflen : Nat}
    (hbuf : LargeEnough buflen (listText (ranges m nmaskbits))) (maskp : Bitmap) :
    ListRoundTrip w buflen m nmaskbits maskp ↔ ∃ i, i < nmaskbits ∧ m i = true := by
  obtain ⟨hbounds, hbits⟩ := ranges_spec m nmaskbits
  constructor
  · intro htrip
    by_contra hnone
    refine not_listRoundTrip_empty hbuf (fun i hi => ?_) htrip
    exact (Bool.not_eq_true _).mp fun hbit => hnone ⟨i, hi, hbit⟩
  rintro ⟨i, hi, hbit⟩
  unfold ListRoundTrip
  rw [bitmapScnlistprintf_eq hbuf]
  cases hranges : ranges m nmaskbits with
  | nil =>
    rw [ranges_eq_nil.mp hranges i hi] at hbit
    cases hbit
  | cons r rs =>
    rw [hranges] at hbounds hbits
    obtain ⟨maskp', hrun, hset⟩ :=
      parselistLoop_text (bitmapZero w nmaskbits maskp) hw hint hbounds
    refine ⟨maskp', hrun, fun j hj => Bool.eq_iff_iff.mpr ?_⟩
    have hzero : bitmapZero w nmaskbits maskp j = false := by
      have hle := bits_le (show 0 < w by omega) nmaskbits
      unfold bitmapZero
      rw [Bitmap.writeBits_apply, if_pos (by omega)]
    rw [hset, hbits, hzero, and_iff_right hj]
    exact or_iff_left Bool.false_ne_true

theorem ranges_three : ranges (fun i => decide (i = 3)) 40 = [(3, 3)] := by
  have hfirst : Bitmap.findNextBit (fun i => decide (i = 3)) 40 0 = 3 := rfl
  have hnext : Bitmap.findNextBit (fun i => decide (i = 3)) 40 4 = 40 := rfl
  unfold ranges
  dsimp only
  rw [hfirst, rangesFrom, dif_pos (by omega)]
  dsimp only
  rw [hnext, if_pos (by omega), rangesFrom, dif_neg (Nat.lt_irrefl 40)]

theorem list_round_trip_iff_three :
    ListRoundTrip 32 20 (fun i => decide (i = 3)) 40 (fun _ => true) := by
  have hbuf : LargeEnough 20 (listText (ranges (fun i => decide (i = 3)) 40)) := by
    rw [ranges_three]
    exact ⟨by decide, by decide⟩
  exact (list_round_trip_iff (Or.inl rfl) (by decide) hbuf fun _ => true).mpr
    ⟨3, by decide, rfl⟩

/-- The empty bitmap does not survive. -/
theorem list_round_trip_empty :
    ¬ ∀ (m : Bitmap) (nmaskbits buflen : Nat), 1 ≤ nmaskbits → nmaskbits < 2 ^ 31 →
      LargeEnough buflen (listText (ranges m nmaskbits)) →
      ListRoundTrip 32 buflen m nmaskbits fun _ => false := by
  intro hall
  have hnil : ranges (fun _ => false) 8 = [] := ranges_eq_nil.mpr fun _ _ => rfl
  have hbuf : LargeEnough 16 (listText (ranges (fun _ => false) 8)) := by
    rw [hnil]
    exact ⟨by decide, by decide⟩
  exact not_listRoundTrip_empty hbuf (fun _ _ => rfl)
    (hall (fun _ => false) 8 16 (by decide) (by decide) hbuf)

end AndroidKernel.Bitmaps
