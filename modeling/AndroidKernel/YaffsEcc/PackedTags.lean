import AndroidKernel.YaffsEcc.Correct

/-!
# The packed tags of YAFFS2

`fs/yaffs2/yaffs_packedtags2.c` in a build with an ECC of the tags, on a little-endian machine.
-/

namespace AndroidKernel.YaffsEcc

/-- `yaffs_ECCResult`. -/
inductive EccResult
  | unknown
  | noError
  | fixed
  | unfixed
  deriving DecidableEq

/-- `yaffs_ExtendedTags`. -/
structure ExtendedTags where
  validMarker0 : BitVec 32 := 0
  chunkUsed : BitVec 32 := 0
  objectId : BitVec 32 := 0
  chunkId : BitVec 32 := 0
  byteCount : BitVec 32 := 0
  eccResult : EccResult := .unknown
  blockBad : BitVec 32 := 0
  chunkDeleted : BitVec 32 := 0
  serialNumber : BitVec 32 := 0
  sequenceNumber : BitVec 32 := 0
  extraHeaderInfoAvailable : BitVec 32 := 0
  extraParentObjectId : BitVec 32 := 0
  extraIsShrinkHeader : BitVec 32 := 0
  extraShadows : BitVec 32 := 0
  extraObjectType : BitVec 32 := 0
  extraFileLength : BitVec 32 := 0
  extraEquivalentObjectId : BitVec 32 := 0
  validMarker1 : BitVec 32 := 0

/-- `yaffs_PackedTags2TagsPart`. -/
@[ext]
structure TagsPart where
  sequenceNumber : BitVec 32
  objectId : BitVec 32
  chunkId : BitVec 32
  byteCount : BitVec 32
  deriving DecidableEq

/-- `yaffs_PackedTags2`. -/
structure PackedTags2 where
  t : TagsPart
  ecc : EccOther
  deriving DecidableEq

/-- `YAFFS_OBJECT_TYPE_FILE`. -/
def objectTypeFile : BitVec 32 := 1

/-- `YAFFS_OBJECT_TYPE_HARDLINK`. -/
def objectTypeHardlink : BitVec 32 := 4

def extraHeaderInfoFlag : BitVec 32 := 0x80000000

def extraShrinkFlag : BitVec 32 := 0x40000000

def extraShadowsFlag : BitVec 32 := 0x20000000

def allExtraFlags : BitVec 32 := 0xF0000000

def extraObjectTypeMask : BitVec 32 := 0x0F <<< 28

/-- `yaffs_PackTags2TagsPart`. -/
def packTags2TagsPart (t : ExtendedTags) : TagsPart :=
  if t.chunkId = 0 ∧ t.extraHeaderInfoAvailable ≠ 0 then
    let chunkId := extraHeaderInfoFlag ||| t.extraParentObjectId
    let chunkId := if t.extraIsShrinkHeader ≠ 0 then chunkId ||| extraShrinkFlag else chunkId
    let chunkId := if t.extraShadows ≠ 0 then chunkId ||| extraShadowsFlag else chunkId
    { sequenceNumber := t.sequenceNumber
      objectId := (t.objectId &&& ~~~extraObjectTypeMask) ||| t.extraObjectType <<< 28
      chunkId := chunkId
      byteCount :=
        if t.extraObjectType = objectTypeHardlink then t.extraEquivalentObjectId
        else if t.extraObjectType = objectTypeFile then t.extraFileLength
        else 0 }
  else
    { sequenceNumber := t.sequenceNumber
      objectId := t.objectId
      chunkId := t.chunkId
      byteCount := t.byteCount }

/-- `yaffs_UnpackTags2TagsPart`. -/
def unpackTags2TagsPart (ptt : TagsPart) : ExtendedTags :=
  let t : ExtendedTags := { validMarker0 := 0xAAAAAAAA, validMarker1 := 0x55555555 }
  if ptt.sequenceNumber = 0xFFFFFFFF then t
  else
    let t := { t with
      chunkUsed := 1
      objectId := ptt.objectId
      chunkId := ptt.chunkId
      byteCount := ptt.byteCount
      sequenceNumber := ptt.sequenceNumber }
    if ptt.chunkId &&& extraHeaderInfoFlag = 0 then t
    else
      let type := ptt.objectId >>> 28
      { t with
        chunkId := 0
        byteCount := 0
        extraHeaderInfoAvailable := 1
        extraParentObjectId := ptt.chunkId &&& ~~~allExtraFlags
        extraIsShrinkHeader := if ptt.chunkId &&& extraShrinkFlag ≠ 0 then 1 else 0
        extraShadows := if ptt.chunkId &&& extraShadowsFlag ≠ 0 then 1 else 0
        extraObjectType := type
        objectId := ptt.objectId &&& ~~~extraObjectTypeMask
        extraEquivalentObjectId := if type = objectTypeHardlink then ptt.byteCount else 0
        extraFileLength := if type = objectTypeHardlink then 0 else ptt.byteCount }

/-- A byte of a word in memory. -/
def byteAt (x : BitVec 32) (i : Nat) : BitVec 8 :=
  (x >>> (8 * i)).setWidth 8

/-- The word at an address. -/
def wordAt (data : Nat → BitVec 8) (i : Nat) : BitVec 32 :=
  data (i + 3) ++ data (i + 2) ++ data (i + 1) ++ data i

/-- The memory of the tags part: `(unsigned char *)&pt->t`. -/
def TagsPart.bytes (t : TagsPart) (i : Nat) : BitVec 8 :=
  if i < 4 then byteAt t.sequenceNumber i
  else if i < 8 then byteAt t.objectId (i - 4)
  else if i < 12 then byteAt t.chunkId (i - 8)
  else if i < 16 then byteAt t.byteCount (i - 12)
  else 0

/-- The tags part in memory. -/
def TagsPart.ofBytes (data : Nat → BitVec 8) : TagsPart :=
  ⟨wordAt data 0, wordAt data 4, wordAt data 8, wordAt data 12⟩

/-- `yaffs_PackTags2`. -/
def packTags2 (t : ExtendedTags) : PackedTags2 :=
  let part := packTags2TagsPart t
  ⟨part, eccCalculateOther part.bytes 16⟩

/-- The `eccResult` of a result of `yaffs_ECCCorrectOther`. -/
def eccResultOf (result : Int) : EccResult :=
  if result = 0 then .noError
  else if result = 1 then .fixed
  else if result = -1 then .unfixed
  else .unknown

/-- `yaffs_UnpackTags2`: the tags, and `pt` after the correction. -/
def unpackTags2 (pt : PackedTags2) : ExtendedTags × PackedTags2 :=
  if pt.t.sequenceNumber = 0xFFFFFFFF then
    ({ unpackTags2TagsPart pt.t with eccResult := .noError }, pt)
  else
    let ecc := eccCalculateOther pt.t.bytes 16
    let corrected := eccCorrectOther pt.t.bytes 16 pt.ecc ecc
    let part := TagsPart.ofBytes corrected.2.1
    ({ unpackTags2TagsPart part with eccResult := eccResultOf corrected.1 }, ⟨part, corrected.2.2⟩)

/-! ## Tags in memory -/

theorem getLsbD_byteAt (x : BitVec 32) (i j : Nat) :
    (byteAt x i).getLsbD j = (decide (j < 8) && x.getLsbD (8 * i + j)) := by
  rw [byteAt, BitVec.getLsbD_setWidth, BitVec.getLsbD_ushiftRight]

theorem getLsbD_wordAt (data : Nat → BitVec 8) (i j : Nat) (hj : j < 32) :
    (wordAt data i).getLsbD j = (data (i + j / 8)).getLsbD (j % 8) := by
  simp only [wordAt, BitVec.getLsbD_append]
  obtain hq | hq | hq | hq : j / 8 = 0 ∨ j / 8 = 1 ∨ j / 8 = 2 ∨ j / 8 = 3 := by omega
  all_goals
    rw [hq]
    split_ifs <;> first | omega | (congr 1; omega)

theorem wordAt_byteAt (x : BitVec 32) {data : Nat → BitVec 8} {i : Nat}
    (h : ∀ j < 4, data (i + j) = byteAt x j) : wordAt data i = x := by
  refine BitVec.eq_of_getLsbD_eq fun j hj => ?_
  rw [getLsbD_wordAt data i j hj, h (j / 8) (by omega), getLsbD_byteAt,
    decide_eq_true (Nat.mod_lt j (by decide)), Bool.true_and, Nat.div_add_mod]

theorem byteAt_wordAt (data : Nat → BitVec 8) (i : Nat) {j : Nat} (hj : j < 4) :
    byteAt (wordAt data i) j = data (i + j) := by
  refine BitVec.eq_of_getLsbD_eq fun k hk => ?_
  rw [getLsbD_byteAt, decide_eq_true hk, Bool.true_and, getLsbD_wordAt data i _ (by omega),
    show (8 * j + k) / 8 = j by omega, show (8 * j + k) % 8 = k by omega]

theorem ofBytes_bytes (t : TagsPart) : TagsPart.ofBytes t.bytes = t := by
  refine TagsPart.ext ?_ ?_ ?_ ?_
  · refine wordAt_byteAt _ fun j hj => ?_
    rw [TagsPart.bytes, if_pos (by omega), Nat.zero_add]
  · refine wordAt_byteAt _ fun j hj => ?_
    rw [TagsPart.bytes, if_neg (by omega), if_pos (by omega), Nat.add_sub_cancel_left]
  · refine wordAt_byteAt _ fun j hj => ?_
    rw [TagsPart.bytes, if_neg (by omega), if_neg (by omega), if_pos (by omega),
      Nat.add_sub_cancel_left]
  · refine wordAt_byteAt _ fun j hj => ?_
    rw [TagsPart.bytes, if_neg (by omega), if_neg (by omega), if_neg (by omega),
      if_pos (by omega), Nat.add_sub_cancel_left]

theorem bytes_ofBytes {data : Nat → BitVec 8} (h : ∀ i, 16 ≤ i → data i = 0) :
    (TagsPart.ofBytes data).bytes = data := by
  funext i
  unfold TagsPart.bytes TagsPart.ofBytes
  dsimp only
  split_ifs with h4 h8 h12 h16
  · rw [byteAt_wordAt data 0 h4, Nat.zero_add]
  · rw [byteAt_wordAt data 4 (by omega), Nat.add_sub_cancel' (by omega)]
  · rw [byteAt_wordAt data 8 (by omega), Nat.add_sub_cancel' (by omega)]
  · rw [byteAt_wordAt data 12 (by omega), Nat.add_sub_cancel' (by omega)]
  · exact (h i (by omega)).symm

/-! ## The fields -/

/-- The tags whose fields leave room for the extra header information. -/
structure ExtendedTags.Fits (t : ExtendedTags) : Prop where
  objectId : t.objectId.toNat < 2 ^ 28
  extraParentObjectId : t.extraParentObjectId.toNat < 2 ^ 28
  extraObjectType : t.extraObjectType.toNat < 16
  chunkId : t.chunkId.toNat < 2 ^ 31

/-- The tags of an object header with extra information. -/
def ExtendedTags.Extra (t : ExtendedTags) : Prop :=
  t.chunkId = 0 ∧ t.extraHeaderInfoAvailable ≠ 0

/-- The extra information of `t` is in `t'`. -/
structure SameExtra (t t' : ExtendedTags) : Prop where
  available : t'.extraHeaderInfoAvailable = 1
  parent : t'.extraParentObjectId = t.extraParentObjectId
  type : t'.extraObjectType = t.extraObjectType
  shrink : t'.extraIsShrinkHeader ≠ 0 ↔ t.extraIsShrinkHeader ≠ 0
  shadows : t'.extraShadows ≠ 0 ↔ t.extraShadows ≠ 0
  fileLength : t.extraObjectType = objectTypeFile → t'.extraFileLength = t.extraFileLength
  equivalent : t.extraObjectType = objectTypeHardlink →
    t'.extraEquivalentObjectId = t.extraEquivalentObjectId

/-- What `t` says about its chunk is in `t'`. -/
structure Restores (t t' : ExtendedTags) : Prop where
  objectId : t'.objectId = t.objectId
  chunkId : t'.chunkId = t.chunkId
  sequenceNumber : t'.sequenceNumber = t.sequenceNumber
  extra : t.Extra → SameExtra t t'
  byteCount : ¬ t.Extra → t'.byteCount = t.byteCount

/-- A small number is the low part of a word. -/
theorem low_part {n m : Nat} {x : BitVec (n + m)} (h : x.toNat < 2 ^ m) :
    ∃ y : BitVec m, x = 0#n ++ y := by
  refine ⟨x.setWidth m, BitVec.eq_of_toNat_eq ?_⟩
  rw [BitVec.toNat_append, BitVec.toNat_setWidth, Nat.mod_eq_of_lt h]
  simp

/-- The flags in the high bits of a packed `chunkId`. -/
def flagBits (shrink shadows : BitVec 32) : BitVec 4 :=
  8#4 ||| (if shrink ≠ 0 then 4#4 else 0) ||| (if shadows ≠ 0 then 2#4 else 0)

theorem flagBits_spec (shrink shadows : BitVec 32) : flagBits shrink shadows &&& 8#4 ≠ 0 ∧
    (flagBits shrink shadows &&& 4#4 ≠ 0 ↔ shrink ≠ 0) ∧
    (flagBits shrink shadows &&& 2#4 ≠ 0 ↔ shadows ≠ 0) := by
  unfold flagBits
  split_ifs with hs hw hw
  · exact ⟨by decide, iff_of_true (by decide) hs, iff_of_true (by decide) hw⟩
  · exact ⟨by decide, iff_of_true (by decide) hs, iff_of_false (by decide) hw⟩
  · exact ⟨by decide, iff_of_false (by decide) hs, iff_of_true (by decide) hw⟩
  · exact ⟨by decide, iff_of_false (by decide) hs, iff_of_false (by decide) hw⟩

/-- A flag is set in the high bits of a word. -/
theorem or_flag (flag : BitVec 32) (k n : BitVec 4) (p : BitVec 28) :
    (if flag ≠ 0 then (k ++ p : BitVec 32) ||| (n ++ 0#28) else k ++ p) =
      (k ||| if flag ≠ 0 then n else 0) ++ p := by
  split_ifs
  · rw [BitVec.or_append, BitVec.or_zero]
  · rw [show (0 : BitVec 4) = 0#4 from rfl, BitVec.or_zero]

theorem masks_eq : extraHeaderInfoFlag = 8#4 ++ 0#28 ∧ extraShrinkFlag = 4#4 ++ 0#28 ∧
    extraShadowsFlag = 2#4 ++ 0#28 ∧ allExtraFlags = 15#4 ++ 0#28 ∧
    extraObjectTypeMask = 15#4 ++ 0#28 := by
  decide

/-- A test of the high bits of a word. -/
theorem test_append (k n : BitVec 4) (p : BitVec 28) :
    (k ++ p : BitVec 32) &&& (n ++ 0#28) = 0 ↔ k &&& n = 0 := by
  rw [BitVec.and_append, BitVec.and_zero, show (0 : BitVec 32) = 0#4 ++ 0#28 from rfl]
  exact BitVec.append_left_inj (0#28)

/-- The low bits of a word. -/
theorem and_low (k : BitVec 4) (p : BitVec 28) :
    (k ++ p : BitVec 32) &&& ~~~(15#4 ++ 0#28) = 0#4 ++ p := by
  rw [BitVec.not_append, BitVec.and_append, show ~~~15#4 = 0#4 from rfl, BitVec.and_zero,
    show ~~~0#28 = BitVec.allOnes 28 from rfl, BitVec.and_allOnes]

theorem type_shiftLeft : ∀ y : BitVec 4, (0#28 ++ y : BitVec 32) <<< 28 = y ++ 0#28 := by
  decide

theorem type_shiftRight (y : BitVec 4) (o : BitVec 28) :
    (y ++ o : BitVec 32) >>> 28 = 0#28 ++ y := by
  refine BitVec.eq_of_getLsbD_eq fun i hi => ?_
  rw [BitVec.getLsbD_ushiftRight, BitVec.getLsbD_append, BitVec.getLsbD_append,
    if_neg (by omega), Nat.add_sub_cancel_left]
  split_ifs with h4
  · rfl
  · rw [BitVec.getLsbD_zero]
    exact BitVec.getLsbD_of_ge y i (by omega)

/-- Without extra information the packed words are those of the tags. -/
theorem unpack_pack_plain {t : ExtendedTags} (hfits : t.Fits)
    (hseq : t.sequenceNumber ≠ 0xFFFFFFFF) (hextra : ¬ t.Extra) :
    Restores t (unpackTags2TagsPart (packTags2TagsPart t)) := by
  obtain ⟨p, hp⟩ := @low_part 1 31 t.chunkId hfits.chunkId
  have hflag : t.chunkId &&& extraHeaderInfoFlag = 0 := by
    rw [hp, show extraHeaderInfoFlag = 1#1 ++ 0#31 from rfl, BitVec.and_append, BitVec.and_zero]
    rfl
  have hpack : packTags2TagsPart t =
      ⟨t.sequenceNumber, t.objectId, t.chunkId, t.byteCount⟩ := if_neg hextra
  rw [hpack, unpackTags2TagsPart]
  dsimp only
  rw [if_neg hseq, if_pos hflag]
  exact ⟨rfl, rfl, rfl, fun h => absurd h hextra, fun _ => rfl⟩

/-- The words of an object header with extra information. -/
theorem pack_extra {t : ExtendedTags} (hextra : t.Extra) {o p : BitVec 28} {y : BitVec 4}
    (ho : t.objectId = 0#4 ++ o) (hp : t.extraParentObjectId = 0#4 ++ p)
    (hy : t.extraObjectType = 0#28 ++ y) :
    (packTags2TagsPart t).objectId = y ++ o ∧
      (packTags2TagsPart t).chunkId =
        flagBits t.extraIsShrinkHeader t.extraShadows ++ p := by
  obtain ⟨hid, havail⟩ := hextra
  obtain ⟨hinfo, hshrink, hshadows, _, hmask⟩ := masks_eq
  rw [packTags2TagsPart, if_pos ⟨hid, havail⟩]
  dsimp only
  refine ⟨?_, ?_⟩
  · rw [ho, hy, hmask, and_low, type_shiftLeft,
      BitVec.or_append, BitVec.zero_or, BitVec.or_zero]
  · rw [hp, hinfo, hshrink, hshadows, BitVec.or_append, BitVec.or_zero, BitVec.zero_or, or_flag,
      or_flag, flagBits]

theorem pack_byteCount {t : ExtendedTags} (hextra : t.Extra) : (packTags2TagsPart t).byteCount =
    if t.extraObjectType = objectTypeHardlink then t.extraEquivalentObjectId
    else if t.extraObjectType = objectTypeFile then t.extraFileLength else 0 := by
  obtain ⟨hid, havail⟩ := hextra
  rw [packTags2TagsPart, if_pos ⟨hid, havail⟩]

theorem pack_sequenceNumber (t : ExtendedTags) :
    (packTags2TagsPart t).sequenceNumber = t.sequenceNumber := by
  rw [packTags2TagsPart]
  by_cases hextra : t.chunkId = 0 ∧ t.extraHeaderInfoAvailable ≠ 0
  · rw [if_pos hextra]
  · rw [if_neg hextra]

theorem unpack_pack {t : ExtendedTags} (hfits : t.Fits) (hseq : t.sequenceNumber ≠ 0xFFFFFFFF) :
    Restores t (unpackTags2TagsPart (packTags2TagsPart t)) := by
  by_cases hextra : t.Extra
  · obtain ⟨o, ho⟩ := @low_part 4 28 t.objectId hfits.objectId
    obtain ⟨p, hp⟩ := @low_part 4 28 t.extraParentObjectId hfits.extraParentObjectId
    obtain ⟨y, hy⟩ := @low_part 28 4 t.extraObjectType hfits.extraObjectType
    obtain ⟨hobj, hchunk⟩ := pack_extra hextra ho hp hy
    have hbyte := pack_byteCount hextra
    have hpseq := pack_sequenceNumber t
    obtain ⟨havail, hshrink, hshadows⟩ := flagBits_spec t.extraIsShrinkHeader t.extraShadows
    generalize packTags2TagsPart t = part at *
    generalize flagBits t.extraIsShrinkHeader t.extraShadows = k at *
    obtain ⟨hinfo, hshrinkFlag, hshadowsFlag, hall, hmask⟩ := masks_eq
    have hflag : ∀ n : BitVec 4, part.chunkId &&& (n ++ 0#28) = 0 ↔ k &&& n = 0 := by
      intro n
      rw [hchunk]
      exact test_append k n p
    have htype : part.objectId >>> 28 = t.extraObjectType := by
      rw [hobj, type_shiftRight, hy]
    have hset : ¬ part.chunkId &&& extraHeaderInfoFlag = 0 := by
      rw [hinfo, hflag]
      exact havail
    have hbit : ∀ {c : Prop} [Decidable c], (if c then 1#32 else 0) ≠ 0 ↔ c := by
      intro c _
      split_ifs with hc
      · exact iff_of_true (by decide) hc
      · exact iff_of_false (fun h => h rfl) hc
    rw [unpackTags2TagsPart]
    dsimp only
    rw [if_neg (hpseq ▸ hseq), if_neg hset, htype]
    refine ⟨?_, hextra.1.symm, hpseq, fun _ => ⟨rfl, ?_, rfl, ?_, ?_, ?_, ?_⟩,
      fun h => absurd hextra h⟩
    · show part.objectId &&& ~~~extraObjectTypeMask = t.objectId
      rw [hobj, hmask, and_low, ho]
    · show part.chunkId &&& ~~~allExtraFlags = t.extraParentObjectId
      rw [hchunk, hall, and_low, hp]
    · refine hbit.trans ?_
      rw [hshrinkFlag, Ne, hflag]
      exact hshrink
    · refine hbit.trans ?_
      rw [hshadowsFlag, Ne, hflag]
      exact hshadows
    · intro hfile
      show (if t.extraObjectType = objectTypeHardlink then 0 else part.byteCount) = _
      rw [hbyte, hfile, if_neg (by decide), if_neg (by decide), if_pos rfl]
    · intro hlink
      show (if t.extraObjectType = objectTypeHardlink then part.byteCount else 0) = _
      rw [hbyte, hlink, if_pos rfl, if_pos rfl]
  · exact unpack_pack_plain hfits hseq hextra

/-! ## A changed bit -/

/-- The number is not 0xFFFFFFFF, also when one of its bits is flipped. -/
def Distinct (seq : BitVec 32) : Prop :=
  ∃ i j, i < 32 ∧ j < 32 ∧ i ≠ j ∧ seq.getLsbD i = false ∧ seq.getLsbD j = false

/-- What is read back when a bit has changed. -/
def PackedTags2.changed (pt : PackedTags2) (δ : Change OtherBit) : PackedTags2 :=
  ⟨.ofBytes (δ.block pt.t.bytes), δ.readEcc (otherCode 16) pt.ecc⟩

theorem bytes_outside (t : TagsPart) {i : Nat} (h : 16 ≤ i) : t.bytes i = 0 := by
  rw [TagsPart.bytes, if_neg (by omega), if_neg (by omega), if_neg (by omega), if_neg (by omega)]

/-- The only bit that is set by a flip. -/
theorem eq_of_flipBit {data : Nat → BitVec 8} {k j m n : Nat}
    (hset : (flipBit data k j m).getLsbD n = true) (hclear : (data m).getLsbD n = false) :
    m = k ∧ n = j := by
  by_cases hm : m = k
  · subst hm
    refine ⟨rfl, ?_⟩
    rw [flipBit_self, BitVec.getLsbD_xor, hclear, Bool.false_xor, BitVec.getLsbD_shiftLeft,
      BitVec.getLsbD_one] at hset
    simp at hset
    omega
  · rw [flipBit_of_ne hm, hclear] at hset
    cases hset

theorem Distinct.ne {data : Nat → BitVec 8} (h : Distinct (wordAt data 0)) :
    wordAt data 0 ≠ 0xFFFFFFFF ∧ ∀ k j, wordAt (flipBit data k j) 0 ≠ 0xFFFFFFFF := by
  obtain ⟨i, i', hi, hi', hne, hclear, hclear'⟩ := h
  have hones : ∀ n < 32, (0xFFFFFFFF : BitVec 32).getLsbD n = true := by decide
  refine ⟨fun heq => ?_, fun k j heq => ?_⟩
  · rw [heq, hones i hi] at hclear
    cases hclear
  · have hset : ∀ n < 32, (flipBit data k j (0 + n / 8)).getLsbD (n % 8) = true := by
      intro n hn
      rw [← getLsbD_wordAt _ 0 n hn, heq]
      exact hones n hn
    rw [getLsbD_wordAt data 0 i hi] at hclear
    rw [getLsbD_wordAt data 0 i' hi'] at hclear'
    obtain ⟨hk, hj⟩ := eq_of_flipBit (hset i hi) hclear
    obtain ⟨hk', hj'⟩ := eq_of_flipBit (hset i' hi') hclear'
    omega

theorem Restores.withResult {t t' : ExtendedTags} (h : Restores t t') (result : EccResult) :
    Restores t { t' with eccResult := result } where
  objectId := h.objectId
  chunkId := h.chunkId
  sequenceNumber := h.sequenceNumber
  extra hextra := by
    obtain ⟨havail, hparent, htype, hshrink, hshadows, hlength, hlink⟩ := h.extra hextra
    exact ⟨havail, hparent, htype, hshrink, hshadows, hlength, hlink⟩
  byteCount := h.byteCount

/-- The tags of a page whose tags part can be corrected. -/
theorem unpackTags2_of_correct {pt : PackedTags2} {part : TagsPart} {result : Int} {ecc : EccOther}
    (hseq : pt.t.sequenceNumber ≠ 0xFFFFFFFF)
    (h : eccCorrectOther pt.t.bytes 16 pt.ecc (eccCalculateOther pt.t.bytes 16) =
      (result, part.bytes, ecc)) :
    (unpackTags2 pt).1 = { unpackTags2TagsPart part with eccResult := eccResultOf result } := by
  rw [unpackTags2, if_neg hseq]
  dsimp only
  rw [h, ofBytes_bytes]

/-- The tags are read back as they were packed, also when one used bit of what was stored has
changed. -/
theorem packed_tags_survive (t : ExtendedTags) (hfits : t.Fits) (hseq : Distinct t.sequenceNumber) :
    (Restores t (unpackTags2 (packTags2 t)).1 ∧
      (unpackTags2 (packTags2 t)).1.eccResult = .noError) ∧
    ∀ δ : Change OtherBit, δ.Used (otherCode 16) →
      Restores t (unpackTags2 ((packTags2 t).changed δ)).1 ∧
        (unpackTags2 ((packTags2 t).changed δ)).1.eccResult = .fixed := by
  obtain ⟨part, hpart⟩ : ∃ part, part = packTags2TagsPart t := ⟨_, rfl⟩
  have hpack : packTags2 t = ⟨part, eccCalculateOther part.bytes 16⟩ := by
    rw [hpart]
    rfl
  have hword : wordAt part.bytes 0 = t.sequenceNumber := by
    have hseq' := congrArg TagsPart.sequenceNumber (ofBytes_bytes part)
    exact hseq'.trans (hpart ▸ pack_sequenceNumber t)
  have hpartSeq : part.sequenceNumber = t.sequenceNumber := hpart ▸ pack_sequenceNumber t
  obtain ⟨hne, hflip⟩ := (hword.symm ▸ hseq : Distinct (wordAt part.bytes 0)).ne
  have hcorrects : Corrects (otherCode 16) part.bytes :=
    (otherView (by decide)).corrects (by decide) rfl part.bytes
  have hrestores := unpack_pack hfits (hword ▸ hne)
  rw [← hpart] at hrestores
  rw [hpack]
  refine ⟨?_, fun δ hδ => ?_⟩
  · rw [@unpackTags2_of_correct ⟨part, eccCalculateOther part.bytes 16⟩ part 0 _
      (hpartSeq ▸ hword ▸ hne) hcorrects.unchanged]
    exact ⟨hrestores.withResult _, rfl⟩
  · have hbytes : (TagsPart.ofBytes (δ.block part.bytes)).bytes = δ.block part.bytes := by
      refine bytes_ofBytes fun i hi => ?_
      cases δ with
      | data byte bit =>
        have hbyte : byte < 16 := hδ.1
        exact (flipBit_of_ne (by omega)).trans (bytes_outside part hi)
      | code bit => exact bytes_outside part hi
    have hcorrect := hcorrects.single δ hδ
    rw [@unpackTags2_of_correct (PackedTags2.changed ⟨part, eccCalculateOther part.bytes 16⟩ δ) part 1
      (eccCalculateOther part.bytes 16) ?_ ?_]
    · exact ⟨hrestores.withResult _, rfl⟩
    · cases δ with
      | data byte bit => exact hflip byte bit
      | code bit => exact hne
    · rw [PackedTags2.changed, hbytes]
      exact hcorrect

/-- The tags of the header of a file of 700 bytes. -/
def fileHeader : ExtendedTags where
  objectId := 5
  sequenceNumber := 0x1000
  extraHeaderInfoAvailable := 1
  extraParentObjectId := 2
  extraObjectType := objectTypeFile
  extraFileLength := 700

/-- They are read back with a changed bit in the sequence number. -/
theorem packed_tags_survive_header :
    Restores fileHeader (unpackTags2 ((packTags2 fileHeader).changed (.data 3 7))).1 :=
  ((packed_tags_survive fileHeader ⟨by decide, by decide, by decide, by decide⟩
    ⟨0, 1, by decide⟩).2 (.data 3 7) ⟨by decide, by decide⟩).1

end AndroidKernel.YaffsEcc
