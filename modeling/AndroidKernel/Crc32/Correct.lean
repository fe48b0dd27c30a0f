import AndroidKernel.Crc32.Tables

/-!
# The fast path of CRC32

`crc32_le` and `crc32_be` compute what the loops over bits compute. Four table steps after a whole
word was added are the table steps of its four bytes, so the alignment of the buffer does not
matter, and a machine of the other byte order has the same register with its bytes in reverse.
-/

namespace AndroidKernel.Crc32

open Library

/-! ## Bits of words -/

theorem getLsbD_bytes (b₃ b₂ b₁ b₀ : Byte) (i : Nat) :
    BitVec.getLsbD (b₃ ++ b₂ ++ b₁ ++ b₀ : U32) i =
      if i < 8 then b₀.getLsbD i
      else if i < 16 then b₁.getLsbD (i - 8)
      else if i < 24 then b₂.getLsbD (i - 16)
      else b₃.getLsbD (i - 24) := by
  rw [BitVec.getLsbD_append, BitVec.getLsbD_append, BitVec.getLsbD_append, Nat.sub_sub, Nat.sub_sub]
  split_ifs <;> first | rfl | omega

theorem getLsbD_255 (i : Nat) : (255#32).getLsbD i = decide (i < 8) := by
  have hones : 255#32 = (BitVec.allOnes 8).setWidth 32 := rfl
  rw [hones, BitVec.getLsbD_setWidth, BitVec.getLsbD_allOnes]
  by_cases hi : i < 8
  · rw [decide_eq_true hi, decide_eq_true (Nat.lt_trans hi (by omega)), Bool.true_and]
  · rw [decide_eq_false hi, Bool.and_false]

/-- An index into a table. -/
theorem and_255_lt (x : U32) : (x &&& 255#32).toNat < 256 := by
  rw [BitVec.toNat_and]
  exact Nat.lt_succ_of_le Nat.and_le_right

/-- The mask leaves the low byte. -/
theorem and_255_congr {x y : U32} (h : ∀ i < 8, x.getLsbD i = y.getLsbD i) :
    x &&& 255#32 = y &&& 255#32 := by
  refine BitVec.eq_of_getLsbD_eq fun i _ => ?_
  rw [BitVec.getLsbD_and, BitVec.getLsbD_and, getLsbD_255]
  by_cases hi : i < 8
  · rw [h i hi]
  · rw [decide_eq_false hi, Bool.and_false, Bool.and_false]

theorem getLsbD_setWidth_byte (x : Byte) {i : Nat} (hi : i < 8) :
    (x.setWidth 32).getLsbD i = x.getLsbD i := by
  rw [BitVec.getLsbD_setWidth, decide_eq_true (Nat.lt_trans hi (by omega)), Bool.true_and]

/-! ## Bytes in reverse -/

theorem getLsbD_swab32 (x : U32) {i : Nat} (hi : i < 32) :
    (swab32 x).getLsbD i = x.getLsbD (24 - i / 8 * 8 + i % 8) := by
  have hindex : ∀ {j k}, j < 8 → k + j = 24 - i / 8 * 8 + i % 8 →
      (decide (j < 8) && x.getLsbD (k + j)) = x.getLsbD (24 - i / 8 * 8 + i % 8) := by
    intro j k hj hk
    rw [decide_eq_true hj, Bool.true_and, hk]
  unfold swab32
  rw [getLsbD_bytes]
  simp only [BitVec.getLsbD_extractLsb']
  split_ifs
  · exact hindex (by omega) (by omega)
  · exact hindex (by omega) (by omega)
  · exact hindex (by omega) (by omega)
  · exact hindex (by omega) (by omega)

theorem swab32_xor (x y : U32) : swab32 (x ^^^ y) = swab32 x ^^^ swab32 y := by
  refine BitVec.eq_of_getLsbD_eq fun i hi => ?_
  rw [BitVec.getLsbD_xor, getLsbD_swab32 _ hi, getLsbD_swab32 _ hi, getLsbD_swab32 _ hi,
    BitVec.getLsbD_xor]

theorem swab32_swab32 (x : U32) : swab32 (swab32 x) = x := by
  refine BitVec.eq_of_getLsbD_eq fun i hi => ?_
  rw [getLsbD_swab32 _ hi, getLsbD_swab32 _ (by omega)]
  congr 1
  omega

theorem swab32_ushiftRight (x : U32) : swab32 (x >>> 8) = swab32 x <<< 8 := by
  refine BitVec.eq_of_getLsbD_eq fun i hi => ?_
  rw [getLsbD_swab32 _ hi, BitVec.getLsbD_ushiftRight, BitVec.getLsbD_shiftLeft,
    decide_eq_true hi, Bool.true_and]
  by_cases h : i < 8
  · rw [BitVec.getLsbD_of_ge _ _ (by omega), decide_eq_true h]
    rfl
  · rw [getLsbD_swab32 _ (by omega), decide_eq_false h, Bool.not_false, Bool.true_and]
    congr 1
    omega

theorem swab32_shiftLeft (x : U32) : swab32 (x <<< 8) = swab32 x >>> 8 := by
  rw [← swab32_swab32 (swab32 x >>> 8), swab32_ushiftRight, swab32_swab32]

/-- The byte that goes out is the same one on both machines. -/
theorem swab32_high_byte (crc : U32) (x : Byte) :
    ((swab32 crc >>> 24) ^^^ x.setWidth 32) &&& 255#32 = (crc ^^^ x.setWidth 32) &&& 255#32 := by
  refine and_255_congr fun i hi => ?_
  rw [BitVec.getLsbD_xor, BitVec.getLsbD_xor, BitVec.getLsbD_ushiftRight,
    getLsbD_swab32 _ (by omega)]
  congr 2
  omega

theorem swab32_low_byte (crc : U32) (x : Byte) :
    (swab32 crc ^^^ x.setWidth 32) &&& 255#32 = ((crc >>> 24) ^^^ x.setWidth 32) &&& 255#32 := by
  rw [← swab32_high_byte, swab32_swab32]

/-- A step on a machine of the other byte order. -/
theorem doCrc_other (cpu : Endian) (tab : Table) (crc : U32) (x : Byte) :
    swab32 (doCrc cpu tab crc x) = doCrc cpu.other (tab.map swab32) (swab32 crc) x := by
  cases cpu with
  | little =>
    show swab32 (_ ^^^ _) = Table.entry (tab.map swab32) _ ^^^ _
    rw [swab32_xor, swab32_ushiftRight, swab32_high_byte, entry_map (and_255_lt _)]
  | big =>
    show swab32 (_ ^^^ _) = Table.entry (tab.map swab32) _ ^^^ _
    rw [swab32_xor, swab32_shiftLeft, swab32_low_byte, entry_map (and_255_lt _)]

/-! ## Bytes -/

/-- The bits above the low byte. -/
theorem byte_ushiftRight (x : Byte) : x.setWidth 32 >>> 8 = 0#32 := by
  refine BitVec.eq_of_getLsbD_eq fun i _ => ?_
  rw [BitVec.getLsbD_ushiftRight, BitVec.getLsbD_setWidth, BitVec.getLsbD_of_ge x _ (by omega),
    Bool.and_false, BitVec.getLsbD_zero]

theorem byte_shiftLeft (x : Byte) : x.setWidth 32 <<< 24 <<< 8 = 0#32 := by
  rw [← BitVec.shiftLeft_add]
  exact BitVec.shiftLeft_eq_zero (by omega)

/-- Eight steps shift the high bytes and look up the low one. -/
theorem stepLe_eight (z : U32) :
    stepLe^[8] z = crc32initLe.entry (z &&& 255#32).toNat ^^^ z >>> 8 := by
  have hlow : ∀ i < 8, z.getLsbD i = (z &&& 255#32).getLsbD i := by
    intro i hi
    rw [BitVec.getLsbD_and, getLsbD_255, decide_eq_true hi, Bool.and_true]
  have hout : (z &&& 255#32) >>> 8 = 0 := by
    refine BitVec.eq_of_getLsbD_eq fun i _ => ?_
    rw [BitVec.getLsbD_ushiftRight, BitVec.getLsbD_and, getLsbD_255, decide_eq_false (by omega),
      Bool.and_false]
    exact BitVec.getLsbD_zero.symm
  rw [stepLe_linear.iterate_of_low_eq stepLe_of_even hlow hout, crc32initLe_entry (and_255_lt z),
    valueLe, BitVec.ofNat_toNat, BitVec.setWidth_eq]

/-- Eight steps shift the low bytes and look up the high one. -/
theorem stepBe_eight (z : U32) :
    stepBe^[8] z = crc32initBe.entry (z >>> 24).toNat ^^^ z <<< 8 := by
  have hhigh : ∀ i < 8, z.getMsbD i = (z >>> 24 <<< 24).getMsbD i := by
    intro i hi
    rw [BitVec.getMsbD_shiftLeft, BitVec.getMsbD_ushiftRight, decide_eq_true (by omega),
      decide_eq_false (by omega), Bool.not_false, Bool.true_and, Bool.true_and,
      Nat.add_sub_cancel]
  have hout : z >>> 24 <<< 24 <<< 8 = 0 := by
    rw [← BitVec.shiftLeft_add]
    exact BitVec.shiftLeft_eq_zero (by omega)
  have hindex : (z >>> 24).toNat < 256 := by
    rw [BitVec.toNat_ushiftRight, Nat.shiftRight_eq_div_pow]
    have := z.isLt
    omega
  rw [stepBe_linear.iterate_of_high_eq stepBe_of_low hhigh hout, crc32initBe_entry hindex,
    valueBe, BitVec.ofNat_toNat, BitVec.setWidth_eq]

/-- The little-endian table does the work of the bit loop. -/
theorem doCrc_little (crc : U32) (x : Byte) : doCrc .little crc32initLe crc x = bitsLe crc x := by
  show crc32initLe.entry _ ^^^ _ = stepLe^[8] _
  rw [stepLe_eight, BitVec.ushiftRight_xor_distrib, byte_ushiftRight, BitVec.xor_zero]

/-- The big-endian table does the work of the bit loop. -/
theorem doCrc_big (crc : U32) (x : Byte) : doCrc .big crc32initBe crc x = bitsBe crc x := by
  have hindex : ((crc >>> 24) ^^^ x.setWidth 32) &&& 255#32 =
      (crc ^^^ x.setWidth 32 <<< 24) >>> 24 := by
    refine BitVec.eq_of_getLsbD_eq fun i hi => ?_
    rw [BitVec.getLsbD_and, BitVec.getLsbD_xor, getLsbD_255, BitVec.getLsbD_ushiftRight,
      BitVec.getLsbD_ushiftRight, BitVec.getLsbD_xor, BitVec.getLsbD_shiftLeft,
      Nat.add_sub_cancel_left]
    by_cases h : i < 8
    · simp [h, show 24 + i < 32 by omega]
    · rw [BitVec.getLsbD_of_ge crc _ (by omega), BitVec.getLsbD_setWidth,
        BitVec.getLsbD_of_ge x _ (by omega), decide_eq_false h]
      simp
  show crc32initBe.entry _ ^^^ _ = stepBe^[8] _
  rw [stepBe_eight, BitVec.shiftLeft_xor_distrib, byte_shiftLeft, BitVec.xor_zero, hindex]

/-! ## Words -/

/-- What is in the word beyond the byte that goes out waits. -/
theorem doCrc_xor_little (tab : Table) (crc : U32) {w : U32} {x : Byte}
    (h : ∀ i < 8, w.getLsbD i = x.getLsbD i) :
    doCrc .little tab (crc ^^^ w) 0 = doCrc .little tab crc x ^^^ w >>> 8 := by
  have hindex : (crc ^^^ w) &&& 255#32 = (crc ^^^ x.setWidth 32) &&& 255#32 := by
    refine and_255_congr fun i hi => ?_
    rw [BitVec.getLsbD_xor, BitVec.getLsbD_xor, h i hi, getLsbD_setWidth_byte x hi]
  show tab.entry ((crc ^^^ w ^^^ 0#32) &&& _).toNat ^^^ _ = tab.entry _ ^^^ _ ^^^ _
  rw [BitVec.xor_zero, hindex, BitVec.ushiftRight_xor_distrib, BitVec.xor_assoc]

theorem doCrc_xor_big (tab : Table) (crc : U32) {w : U32} {x : Byte}
    (h : ∀ i < 8, w.getLsbD (24 + i) = x.getLsbD i) :
    doCrc .big tab (crc ^^^ w) 0 = doCrc .big tab crc x ^^^ w <<< 8 := by
  have hindex : ((crc ^^^ w) >>> 24) &&& 255#32 = ((crc >>> 24) ^^^ x.setWidth 32) &&& 255#32 := by
    refine and_255_congr fun i hi => ?_
    rw [BitVec.getLsbD_xor, BitVec.getLsbD_ushiftRight, BitVec.getLsbD_ushiftRight,
      BitVec.getLsbD_xor, h i hi, getLsbD_setWidth_byte x hi]
  show tab.entry (((crc ^^^ w) >>> 24 ^^^ 0#32) &&& _).toNat ^^^ _ = tab.entry _ ^^^ _ ^^^ _
  rw [BitVec.xor_zero, hindex, BitVec.shiftLeft_xor_distrib, BitVec.xor_assoc]

theorem doCrc_word_little (tab : Table) (crc : U32) (x₀ x₁ x₂ x₃ : Byte) :
    doCrc .little tab (doCrc .little tab (doCrc .little tab
      (doCrc .little tab (crc ^^^ (x₃ ++ x₂ ++ x₁ ++ x₀)) 0) 0) 0) 0 =
    doCrc .little tab (doCrc .little tab (doCrc .little tab
      (doCrc .little tab crc x₀) x₁) x₂) x₃ := by
  have hbits := getLsbD_bytes x₃ x₂ x₁ x₀
  generalize (x₃ ++ x₂ ++ x₁ ++ x₀ : U32) = w at hbits ⊢
  have h₀ : ∀ i < 8, w.getLsbD i = x₀.getLsbD i := by
    intro i hi
    rw [hbits, if_pos hi]
  have h₁ : ∀ i < 8, (w >>> 8).getLsbD i = x₁.getLsbD i := by
    intro i hi
    rw [BitVec.getLsbD_ushiftRight, hbits, if_neg (by omega), if_pos (by omega),
      Nat.add_sub_cancel_left]
  have h₂ : ∀ i < 8, (w >>> 16).getLsbD i = x₂.getLsbD i := by
    intro i hi
    rw [BitVec.getLsbD_ushiftRight, hbits, if_neg (by omega), if_neg (by omega), if_pos (by omega),
      Nat.add_sub_cancel_left]
  have h₃ : ∀ i < 8, (w >>> 24).getLsbD i = x₃.getLsbD i := by
    intro i hi
    rw [BitVec.getLsbD_ushiftRight, hbits, if_neg (by omega), if_neg (by omega), if_neg (by omega),
      Nat.add_sub_cancel_left]
  rw [doCrc_xor_little tab _ h₀, doCrc_xor_little tab _ h₁, ← BitVec.shiftRight_add,
    doCrc_xor_little tab _ h₂, ← BitVec.shiftRight_add, doCrc_xor_little tab _ h₃,
    ← BitVec.shiftRight_add, BitVec.ushiftRight_eq_zero (by omega), BitVec.xor_zero]

theorem doCrc_word_big (tab : Table) (crc : U32) (x₀ x₁ x₂ x₃ : Byte) :
    doCrc .big tab (doCrc .big tab (doCrc .big tab
      (doCrc .big tab (crc ^^^ (x₀ ++ x₁ ++ x₂ ++ x₃)) 0) 0) 0) 0 =
    doCrc .big tab (doCrc .big tab (doCrc .big tab (doCrc .big tab crc x₀) x₁) x₂) x₃ := by
  have hbits := getLsbD_bytes x₀ x₁ x₂ x₃
  generalize (x₀ ++ x₁ ++ x₂ ++ x₃ : U32) = w at hbits ⊢
  -- Bit `24 + i` of a word that went up by `n` bits.
  have hup : ∀ n i, n ≤ 24 → i < 8 → (w <<< n).getLsbD (24 + i) = w.getLsbD (24 - n + i) := by
    intro n i hn hi
    rw [BitVec.getLsbD_shiftLeft, decide_eq_true (by omega), decide_eq_false (by omega),
      Bool.not_false, Bool.true_and, Bool.true_and, show 24 + i - n = 24 - n + i by omega]
  have h₀ : ∀ i < 8, w.getLsbD (24 + i) = x₀.getLsbD i := by
    intro i hi
    rw [hbits, if_neg (by omega), if_neg (by omega), if_neg (by omega), Nat.add_sub_cancel_left]
  have h₁ : ∀ i < 8, (w <<< 8).getLsbD (24 + i) = x₁.getLsbD i := by
    intro i hi
    rw [hup 8 i (by omega) hi, hbits, if_neg (by omega), if_neg (by omega), if_pos (by omega),
      Nat.add_sub_cancel_left]
  have h₂ : ∀ i < 8, (w <<< 16).getLsbD (24 + i) = x₂.getLsbD i := by
    intro i hi
    rw [hup 16 i (by omega) hi, hbits, if_neg (by omega), if_pos (by omega),
      Nat.add_sub_cancel_left]
  have h₃ : ∀ i < 8, (w <<< 24).getLsbD (24 + i) = x₃.getLsbD i := by
    intro i hi
    rw [hup 24 i (by omega) hi, hbits, if_pos (by omega), Nat.sub_self, Nat.zero_add]
  rw [doCrc_xor_big tab _ h₀, doCrc_xor_big tab _ h₁, ← BitVec.shiftLeft_add,
    doCrc_xor_big tab _ h₂, ← BitVec.shiftLeft_add, doCrc_xor_big tab _ h₃,
    ← BitVec.shiftLeft_add, BitVec.shiftLeft_eq_zero (by omega), BitVec.xor_zero]

/-- Four steps from a register with a word added are the steps of the word's bytes. -/
theorem doCrc_word (cpu : Endian) (tab : Table) (mem : Mem) (crc : U32) (b : Int) :
    doCrc cpu tab (doCrc cpu tab (doCrc cpu tab
      (doCrc cpu tab (crc ^^^ loadWord cpu mem b) 0) 0) 0) 0 =
    doCrc cpu tab (doCrc cpu tab (doCrc cpu tab
      (doCrc cpu tab crc (mem b)) (mem (b + 1))) (mem (b + 2))) (mem (b + 3)) := by
  cases cpu with
  | little => exact doCrc_word_little tab crc _ _ _ _
  | big => exact doCrc_word_big tab crc _ _ _ _

/-! ## Loops -/

section

variable {body body' : U32 → Byte → U32} {mem : Mem}

theorem eachByte_succ (len : Nat) (crc : U32) (p : Int) :
    eachByte body mem (len + 1) crc p = eachByte body mem len (body crc (mem p)) (p + 1) :=
  rfl

theorem eachByte_four (len : Nat) (crc : U32) (p : Int) :
    eachByte body mem (len + 4) crc p =
      eachByte body mem len (body (body (body (body crc (mem p)) (mem (p + 1))) (mem (p + 2)))
        (mem (p + 3))) (p + 4) := by
  rw [eachByte_succ, eachByte_succ, eachByte_succ, eachByte_succ, Int.add_assoc p 1 1,
    Int.add_assoc p (1 + 1) 1, Int.add_assoc p (1 + 1 + 1) 1]
  rfl

/-- A buffer in two pieces. -/
theorem eachByte_add (m n : Nat) (crc : U32) (p : Int) :
    eachByte body mem (m + n) crc p =
      eachByte body mem n (eachByte body mem m crc p) (p + m) := by
  induction m generalizing crc p with
  | zero =>
    rw [Nat.zero_add, Int.ofNat_zero, Int.add_zero]
    rfl
  | succ m ih =>
    rw [Nat.succ_add, eachByte_succ, eachByte_succ, ih, Int.add_assoc]
    congr 2
    omega

/-- A loop simulates another one if its body does. -/
theorem eachByte_map {g : U32 → U32} (h : ∀ crc x, g (body crc x) = body' (g crc) x) (len : Nat)
    (crc : U32) (p : Int) :
    g (eachByte body mem len crc p) = eachByte body' mem len (g crc) p := by
  induction len generalizing crc p with
  | zero => rfl
  | succ len ih => rw [eachByte_succ, eachByte_succ, ih, h]

end

section

variable (cpu : Endian) (tab : Table) (mem : Mem)

/-- After the loop over single bytes in front, the rest is still to be done. -/
theorem alignLoop_spec (len : Nat) (crc : U32) (b : Int) :
    eachByte (doCrc cpu tab) mem (alignLoop cpu tab mem len crc b).len
      (alignLoop cpu tab mem len crc b).crc (alignLoop cpu tab mem len crc b).b =
    eachByte (doCrc cpu tab) mem len crc b := by
  induction len generalizing crc b with
  | zero => rfl
  | succ len ih =>
    rw [alignLoop, eachByte_succ]
    split
    · exact ih _ _
    · rfl

/-- The loop over words does four bytes at a time. -/
theorem wordLoop_spec (words : Nat) (crc : U32) (b : Int) :
    wordLoop cpu tab mem words crc (b - 4) =
      (eachByte (doCrc cpu tab) mem (4 * words) crc b, b + 4 * words - 4) := by
  induction words generalizing crc b with
  | zero =>
    refine Prod.ext rfl ?_
    show b - 4 = b + 4 * 0 - 4
    omega
  | succ words ih =>
    have hnext := ih (doCrc cpu tab (doCrc cpu tab (doCrc cpu tab
      (doCrc cpu tab crc (mem b)) (mem (b + 1))) (mem (b + 2))) (mem (b + 3))) (b + 4)
    rw [Int.add_sub_cancel] at hnext
    rw [wordLoop, Int.sub_add_cancel, doCrc_word, hnext, Nat.mul_add_one, eachByte_four]
    refine Prod.ext rfl ?_
    show b + 4 + 4 * words - 4 = b + 4 * (words + 1 : Nat) - 4
    omega

/-- The alignment and the words make no difference. -/
theorem crc32Body_eq (crc : U32) (p : Int) (len : Nat) :
    crc32Body cpu tab mem crc p len = eachByte (doCrc cpu tab) mem len crc p := by
  unfold crc32Body
  generalize hc : (if p % 4 ≠ 0 ∧ len ≠ 0 then alignLoop cpu tab mem len crc p
    else (⟨crc, p, len⟩ : Cursor)) = c
  have hfront : eachByte (doCrc cpu tab) mem c.len c.crc c.b =
      eachByte (doCrc cpu tab) mem len crc p := by
    rw [← hc]
    split
    · exact alignLoop_spec cpu tab mem len crc p
    · rfl
  rw [← hfront]
  simp only [wordLoop_spec]
  split
  · -- The words are followed by what they leave over.
    have hlen : 4 * (c.len / 4) + c.len % 4 = c.len := Nat.div_add_mod c.len 4
    have hpointer : c.b + 4 * (c.len / 4 : Nat) - 4 + 4 = c.b + (4 * (c.len / 4) : Nat) := by omega
    conv_rhs => rw [← hlen, eachByte_add]
    rw [hpointer]
  · rfl

end

/-! ## Both functions -/

theorem crc32Le_eq (cpu : Endian) (mem : Mem) (seed : U32) (p : Int) (len : Nat) :
    crc32Le cpu mem seed p len = crc32LeBits mem seed p len := by
  have hbits : eachByte (doCrc .little crc32initLe) mem len seed p = crc32LeBits mem seed p len :=
    eachByte_map (g := id) doCrc_little len seed p
  rw [crc32Le, crc32Body_eq, ← hbits]
  cases cpu with
  | little =>
    show eachByte (doCrc .little (crc32initLe.map fun x => x)) mem len seed p = _
    rw [Vector.map_id_fun']
    rfl
  | big =>
    show swab32 (eachByte (doCrc .big (crc32initLe.map swab32)) mem len (swab32 seed) p) = _
    have hother : swab32 (eachByte (doCrc .little crc32initLe) mem len seed p) =
        eachByte (doCrc .big (crc32initLe.map swab32)) mem len (swab32 seed) p :=
      eachByte_map (doCrc_other .little crc32initLe) len seed p
    exact (congrArg swab32 hother.symm).trans (swab32_swab32 _)

theorem crc32Be_eq (cpu : Endian) (mem : Mem) (seed : U32) (p : Int) (len : Nat) :
    crc32Be cpu mem seed p len = crc32BeBits mem seed p len := by
  have hbits : eachByte (doCrc .big crc32initBe) mem len seed p = crc32BeBits mem seed p len :=
    eachByte_map (g := id) doCrc_big len seed p
  rw [crc32Be, crc32Body_eq, ← hbits]
  cases cpu with
  | little =>
    show swab32 (eachByte (doCrc .little (crc32initBe.map swab32)) mem len (swab32 seed) p) = _
    have hother : swab32 (eachByte (doCrc .big crc32initBe) mem len seed p) =
        eachByte (doCrc .little (crc32initBe.map swab32)) mem len (swab32 seed) p :=
      eachByte_map (doCrc_other .big crc32initBe) len seed p
    exact (congrArg swab32 hother.symm).trans (swab32_swab32 _)
  | big =>
    show eachByte (doCrc .big (crc32initBe.map fun x => x)) mem len seed p = _
    rw [Vector.map_id_fun']
    rfl

/-- The bit loop does not depend on how a buffer is divided. -/
theorem inPieces_eachByte (body : U32 → Byte → U32) (mem : Mem) (seed : U32) (p : Int)
    (lens : List Nat) :
    inPieces (fun crc p len => eachByte body mem len crc p) seed p lens =
      eachByte body mem lens.sum seed p := by
  induction lens generalizing seed p with
  | nil => rfl
  | cons len lens ih => rw [inPieces, ih, List.sum_cons, eachByte_add]

/-- On every machine, for every buffer and every seed, both functions compute what the loops over
bits compute, and a buffer in consecutive pieces has the same result as the whole. -/
theorem crc32_fast_path (cpu : Endian) (mem : Mem) (seed : U32) (p : Int) :
    (∀ len, crc32Le cpu mem seed p len = crc32LeBits mem seed p len ∧
      crc32Be cpu mem seed p len = crc32BeBits mem seed p len) ∧
    ∀ lens : List Nat,
      inPieces (crc32Le cpu mem) seed p lens = crc32Le cpu mem seed p lens.sum ∧
      inPieces (crc32Be cpu mem) seed p lens = crc32Be cpu mem seed p lens.sum := by
  have hle : crc32Le cpu mem = fun crc p len => eachByte bitsLe mem len crc p := by
    funext crc p len
    exact crc32Le_eq cpu mem crc p len
  have hbe : crc32Be cpu mem = fun crc p len => eachByte bitsBe mem len crc p := by
    funext crc p len
    exact crc32Be_eq cpu mem crc p len
  refine ⟨fun len => ⟨crc32Le_eq cpu mem seed p len, crc32Be_eq cpu mem seed p len⟩,
    fun lens => ⟨?_, ?_⟩⟩
  · rw [hle]
    exact inPieces_eachByte bitsLe mem seed p lens
  · rw [hbe]
    exact inPieces_eachByte bitsBe mem seed p lens

end AndroidKernel.Crc32
