import AndroidKernel.RamConsole.Writes
import AndroidKernel.ReedSolomon.Codewords

/-!
# The parity over writes, and the next boot

After a write the slot of every block in use holds the parity of the block, and the header's slot
holds that of the header. So the next boot decodes all of them without a correction, and saves the
log that the ring holds.
-/

namespace AndroidKernel.RamConsole

open Library ReedSolomon

variable {ecc : Ecc} {build : Option Ecc} {c : Console} {s data : List UInt8} {b i : Nat}

/-- Every block that meets the bytes in use has its parity. -/
def BlocksInStep (ecc : Ecc) (c : Console) : Prop :=
  ∀ b, b * ecc.blockSize < c.size → InStep ecc c.bufferSize c.mem b

/-- The header has its parity. -/
def HeaderInStep (ecc : Ecc) (c : Console) : Prop :=
  read c.mem (c.headerPar ecc) ecc.eccSize = ramConsoleEncodeRs8 ecc c.header

/-! ## Writes -/

/-- An update brings the blocks in step up to where it ends. -/
theorem BlocksInStep.update (h : BlocksInStep ecc c) (hstart : c.start ≤ c.size)
    (hfits : c.start + s.length ≤ c.bufferSize)
    (hb : b * ecc.blockSize < max c.size (c.start + s.length)) :
    InStep ecc c.bufferSize (ramConsoleUpdate (some ecc) c s).mem b := by
  refine inStep_ramConsoleUpdate hfits ?_
  by_cases hused : b * ecc.blockSize < c.size
  · exact Or.inl (h b hused)
  · exact Or.inr ⟨by omega, by omega⟩

/-- A block inside the data comes before the header's slot. -/
theorem slot_le_headerPar (hb : b * ecc.blockSize < c.bufferSize) :
    slot ecc c.bufferSize b + ecc.eccSize ≤ c.headerPar ecc := by
  have hpos := ecc.blockSize_pos
  have hlt : b + 1 ≤ divRoundUp c.bufferSize ecc.blockSize := by
    unfold divRoundUp
    rw [Nat.le_div_iff_mul_le hpos, Nat.succ_mul]
    omega
  rw [← slot_succ]
  exact slot_mono ecc c.bufferSize hlt

/-- Writing the header's slot leaves the blocks in step. -/
theorem inStep_ramConsoleUpdateHeader (hb : b * ecc.blockSize < c.bufferSize)
    (h : InStep ecc c.bufferSize c.mem b) :
    InStep ecc c.bufferSize (ramConsoleUpdateHeader (some ecc) c).mem b := by
  have hslot : read (ramConsoleUpdateHeader (some ecc) c).mem (slot ecc c.bufferSize b) ecc.eccSize =
      read c.mem (slot ecc c.bufferSize b) ecc.eccSize :=
    read_write_of_disjoint (Or.inl (slot_le_headerPar hb))
  unfold InStep
  rw [hslot, block_congr fun i hi => ramConsoleUpdateHeader_data (some ecc) hi]
  exact h

/-- A piece that fits keeps the blocks in use in step, and leaves the header in step. -/
theorem BlocksInStep.writePiece (h : BlocksInStep ecc c) (hr : Ring c)
    (hfits : c.start + s.length ≤ c.bufferSize) :
    BlocksInStep ecc (writePiece (some ecc) c s) ∧
      HeaderInStep ecc (writePiece (some ecc) c s) := by
  obtain ⟨-, hsize, hbuffer, -⟩ := hr.writePiece_fields (some ecc) hfits
  have hle := hr.size_le
  constructor
  · intro b hb
    rw [hsize] at hb
    rw [hbuffer]
    have hused : b * ecc.blockSize < max c.size (c.start + s.length) := by
      split_ifs at hb with hfull
      · have := hr.filling hfull
        omega
      · omega
    have hinside : b * ecc.blockSize < c.bufferSize := by omega
    exact inStep_ramConsoleUpdateHeader (c := { ramConsoleUpdate (some ecc) c s with
        start := _, size := _ }) hinside (h.update hr.start_le hfits hused)
  · -- the header is encoded last
    have hlength := length_ramConsoleEncodeRs8 ecc (RamConsole.writePiece (some ecc) c s).header
    unfold HeaderInStep
    rw [← hlength]
    exact read_write _ _ _

/-- The first piece of a write over the end brings all blocks in step. -/
theorem BlocksInStep.wrapStart (h : BlocksInStep ecc c) (hr : Ring c)
    (hover : c.bufferSize - c.start < s.length) : BlocksInStep ecc (wrapStart (some ecc) c s) := by
  have hstart := hr.start_le
  have hsize := hr.size_le
  have hlength : (s.take (c.bufferSize - c.start)).length = c.bufferSize - c.start :=
    List.length_take_of_le hover.le
  intro b hb
  exact h.update hstart (by omega) (by
    have hb : b * ecc.blockSize < c.bufferSize := hb
    omega)

theorem BlocksInStep.write (h : BlocksInStep ecc c) (hr : Ring c) (s : List UInt8) :
    BlocksInStep ecc (ramConsoleWrite (some ecc) c s) ∧
      HeaderInStep ecc (ramConsoleWrite (some ecc) c s) := by
  have hclip : (clip c s).length ≤ c.bufferSize := by
    rw [clip_eq, length_rtake]
    exact min_le_left _ _
  have hstart := hr.start_le
  have hsize := hr.size_le
  unfold ramConsoleWrite
  dsimp only
  split_ifs with hover
  · obtain ⟨hring, -⟩ := hr.wrapStart (some ecc) hover
    refine (h.wrapStart hr hover).writePiece hring ?_
    rw [List.length_drop]
    simp only [RamConsole.wrapStart, ramConsoleUpdate_bufferSize]
    omega
  · exact h.writePiece hr (by omega)

theorem BlocksInStep.writes (h : BlocksInStep ecc c) (hr : Ring c) (writes : List (List UInt8)) :
    BlocksInStep ecc (writes.foldl (ramConsoleWrite (some ecc)) c) := by
  induction writes generalizing c with
  | nil => exact h
  | cons s writes ih => exact ih (h.write hr s).1 (hr.write (some ecc) s).1

/-- No block meets an empty ring. -/
theorem BlocksInStep.reset (ecc : Ecc) (c : Console) : BlocksInStep ecc c.reset :=
  fun _ hb => absurd hb (Nat.not_lt_zero _)

/-! ## The next boot -/

/-- The codec takes the blocks of a buffer and its header: the lengths that `decode_rs8` insists
on. -/
structure Ecc.Fits (ecc : Ecc) (bufferSize : Nat) : Prop where
  valid : ecc.rs.Valid
  blocks : min ecc.blockSize bufferSize + ecc.rs.nroots ≤ ecc.rs.nn
  header : 12 + ecc.rs.nroots ≤ ecc.rs.nn

/-- Data with its parity decodes without a correction. -/
theorem decode_clean (hv : ecc.rs.Valid) (hlen : ecc.rs.Admits data.length) :
    ramConsoleDecodeRs8 ecc data (ramConsoleEncodeRs8 ecc data) = some (0, data) := by
  have hpar := hv.isParity_encodeRs8 hlen 0
  -- parity symbols are bytes
  have hbytes : ((ecc.rs.encodeRs8 data (List.replicate ecc.eccSize 0) 0).2.map
      UInt8.ofNat).map UInt8.toNat =
      (ecc.rs.encodeRs8 data (List.replicate ecc.rs.nroots 0) 0).2 := by
    rw [List.map_map]
    refine (List.map_congr_left fun p hp => ?_).trans (List.map_id _)
    have hlt := hpar.words p hp
    have hpow : 2 ^ ecc.rs.mm ≤ 2 ^ 8 := Nat.pow_le_pow_right (by decide) hv.bits.2
    show (UInt8.ofNat p).toNat = p
    rw [UInt8.toNat_ofNat', Nat.mod_eq_of_lt (by omega)]
  unfold ramConsoleDecodeRs8 ramConsoleEncodeRs8
  rw [hbytes]
  exact hv.decode_encode hlen 0

theorem Counts.add_zero (counts : Counts) : counts.add 0 = counts :=
  rfl

/-- The blocks in use decode without a correction. -/
theorem decodeBlocks_clean (hfits : ecc.Fits c.bufferSize) (h : BlocksInStep ecc c)
    (hsize : c.size ≤ c.bufferSize) (counts : Counts) (b : Nat) :
    decodeBlocks ecc c (b * ecc.blockSize) (slot ecc c.bufferSize b) counts c.mem =
      some (counts, c.mem) := by
  have hpos := ecc.blockSize_pos
  induction hk : c.size - b * ecc.blockSize using Nat.strong_induction_on generalizing b with
  | _ k ih =>
    rw [decodeBlocks]
    by_cases hlt : b * ecc.blockSize < c.size
    · have hcut : (if c.bufferSize < b * ecc.blockSize + ecc.blockSize
          then c.bufferSize - b * ecc.blockSize else ecc.blockSize) =
          min ecc.blockSize (c.bufferSize - b * ecc.blockSize) := by
        split_ifs <;> omega
      have hblocks := hfits.blocks
      have hadmits : ecc.rs.Admits (block ecc c.bufferSize b c.mem).length := by
        rw [block, length_read]
        exact ⟨by omega, by omega⟩
      have hdecode : ramConsoleDecodeRs8 ecc
          (read c.mem (b * ecc.blockSize) (min ecc.blockSize (c.bufferSize - b * ecc.blockSize)))
          (read c.mem (slot ecc c.bufferSize b) ecc.eccSize) =
          some (0, block ecc c.bufferSize b c.mem) := by
        rw [h b hlt]
        exact decode_clean hfits.valid hadmits
      have hsame : write c.mem (b * ecc.blockSize) (block ecc c.bufferSize b c.mem) = c.mem :=
        write_read _ _ _
      have hrest := ih (c.size - (b + 1) * ecc.blockSize) (by
        rw [Nat.succ_mul]
        omega) (b + 1) rfl
      rw [Nat.succ_mul, slot_succ] at hrest
      rw [if_pos hlt, hcut]
      dsimp only
      rw [hdecode]
      dsimp only
      rw [Counts.add_zero, hsame, hrest]
    · exact if_neg hlt

/-- The old log with all blocks in step: what the ring holds, and the report of no errors. -/
theorem ramConsoleSaveOld_clean (hfits : ecc.Fits c.bufferSize) (h : BlocksInStep ecc c)
    (hsize : c.size ≤ c.bufferSize) (counts : Counts) :
    ramConsoleSaveOld (some ecc) c counts = some ⟨c, c.log ++ strbuf counts, counts⟩ := by
  have hdecode := decodeBlocks_clean hfits h hsize counts 0
  rw [Nat.zero_mul, slot, Nat.zero_mul, Nat.add_zero] at hdecode
  unfold ramConsoleSaveOld
  dsimp only
  rw [hdecode]
  rfl

/-- A word is read back from its bytes. -/
theorem ofLeBytes_leBytes {x : Nat} (hx : x < Library.word) (rest : List UInt8) :
    ofLeBytes (leBytes x ++ rest) = x := by
  unfold Library.word at hx
  simp only [ofLeBytes, leBytes, List.cons_append, List.nil_append, List.take_succ_cons,
    List.take_zero, List.foldr_cons, List.foldr_nil, UInt8.toNat_ofNat']
  omega

theorem setHeader_header (hsig : c.sig < Library.word) (hr : Ring c) :
    c.setHeader c.header = c := by
  have hword := hr.word
  have hstart := hr.start_le
  have hsize := hr.size_le
  have hrest := ofLeBytes_leBytes (x := c.start) (by omega) (leBytes c.size)
  have hlast := ofLeBytes_leBytes (x := c.size) (by omega) []
  rw [List.append_nil] at hlast
  unfold Console.setHeader Console.header
  rw [List.append_assoc, ofLeBytes_leBytes hsig]
  change Console.mk c.sig (ofLeBytes (leBytes c.start ++ leBytes c.size))
    (ofLeBytes (leBytes c.size)) c.mem c.bufferSize = c
  rw [hrest, hlast]

/-- The boot after a write finds no error and saves the log of the ring. -/
theorem ramConsoleBoot_clean (hfits : ecc.Fits c.bufferSize) (hr : Ring c)
    (hsig : c.sig = ramConsoleSig) (hblocks : BlocksInStep ecc c) (hheader : HeaderInStep ecc c) :
    ramConsoleBoot (some ecc) c =
      some (c.reset, some ⟨c, c.log ++ strbuf ⟨0, 0⟩, ⟨0, 0⟩⟩) := by
  have hadmits : ecc.rs.Admits c.header.length := ⟨Nat.le_add_left 1 11, hfits.header⟩
  have hdecode : ramConsoleDecodeRs8 ecc c.header (read c.mem (c.headerPar ecc) ecc.eccSize) =
      some (0, c.header) := by
    rw [hheader]
    exact decode_clean hfits.valid hadmits
  have hsame := setHeader_header (hsig ▸ by decide) hr
  unfold ramConsoleBoot
  dsimp only
  rw [hdecode, Option.map_some]
  dsimp only
  rw [hsame, Counts.add_zero, if_pos ⟨hsig, hr.size_le, hr.start_le⟩,
    ramConsoleSaveOld_clean hfits hblocks hr.size_le]
  rfl

/-!
## What survives a reboot

Whatever is written after the console starts, the old log that is saved is the tail of it, as long
as the buffer, and in the build with error correction nothing has to be corrected.
-/

/-- Writes since the console was started. -/
def afterWrites (build : Option Ecc) (c : Console) (writes : List (List UInt8)) : Console :=
  writes.foldl (ramConsoleWrite build) c.reset

/-- What `ram_console_save_old` adds after the log. -/
def report (build : Option Ecc) (counts : Counts) : List UInt8 :=
  match build with
  | none => []
  | some _ => strbuf counts

theorem reset_log (c : Console) : c.reset.log = [] :=
  rfl

/-- The ring keeps the tail of the log, and the saved log is that tail. -/
theorem ram_console_keeps_tail (build : Option Ecc) (c : Console) (writes : List (List UInt8))
    (counts : Counts) (hword : c.bufferSize < word)
    (hcodec : ∀ ecc, build = some ecc → ecc.Fits c.bufferSize) :
    let after := afterWrites build c writes
    after.start ≤ after.size ∧ after.size ≤ c.bufferSize ∧
      (after.size < c.bufferSize → after.start = after.size) ∧
      after.size = min c.bufferSize writes.flatten.length ∧
      ∃ saved, ramConsoleSaveOld build after counts = some saved ∧
        saved.log = writes.flatten.rtake c.bufferSize ++ report build saved.counts := by
  obtain ⟨hring, hlog, hbuffer⟩ := (Ring.reset hword).writes build writes
  rw [reset_log, List.nil_append] at hlog
  change (afterWrites build c writes).bufferSize = c.bufferSize at hbuffer
  have hsize := hring.length_log
  rw [hlog, length_rtake] at hsize
  intro after
  refine ⟨hring.start_le, hbuffer ▸ hring.size_le, fun hlt => hring.filling (hbuffer ▸ hlt),
    hsize.symm, ?_⟩
  cases build with
  | none => exact ⟨_, rfl, hlog.trans (List.append_nil _).symm⟩
  | some ecc =>
    have hblocks := (BlocksInStep.reset ecc c).writes (Ring.reset hword) writes
    have hfits : ecc.Fits after.bufferSize := by
      show ecc.Fits (afterWrites (some ecc) c writes).bufferSize
      rw [hbuffer]
      exact hcodec ecc rfl
    refine ⟨_, ramConsoleSaveOld_clean hfits hblocks hring.size_le counts, ?_⟩
    exact congrArg (· ++ strbuf counts) hlog

/-- After every write each block in use and the header have their parity, and the next boot
corrects nothing, finds no bad block and saves the tail of the log. -/
theorem ram_console_parity (ecc : Ecc) (c : Console) (writes : List (List UInt8))
    (last : List UInt8) (hword : c.bufferSize < word) :
    let after := ramConsoleWrite (some ecc) (afterWrites (some ecc) c writes) last
    BlocksInStep ecc after ∧ HeaderInStep ecc after ∧
      (ecc.Fits c.bufferSize →
        ramConsoleBoot (some ecc) after =
          some (after.reset, some ⟨after,
            (writes.flatten ++ last).rtake c.bufferSize ++ strbuf ⟨0, 0⟩, ⟨0, 0⟩⟩)) := by
  obtain ⟨hring, hlog, hbuffer⟩ := (Ring.reset hword).writes (some ecc) writes
  have hblocks := (BlocksInStep.reset ecc c).writes (Ring.reset hword) writes
  obtain ⟨hring', hlog', hbuffer'⟩ := hring.write (some ecc) last
  obtain ⟨hblocks', hheader⟩ := hblocks.write hring last
  intro after
  refine ⟨hblocks', hheader, fun hfits => ?_⟩
  have hsame : after.bufferSize = c.bufferSize := hbuffer'.trans hbuffer
  have hsig : after.sig = ramConsoleSig := by
    show (ramConsoleWrite (some ecc) (writes.foldl _ c.reset) last).sig = _
    rw [ramConsoleWrite_sig, foldl_ramConsoleWrite_sig]
    rfl
  have hkept : after.log = (writes.flatten ++ last).rtake c.bufferSize := by
    show (ramConsoleWrite (some ecc) (writes.foldl _ c.reset) last).log = _
    rw [hlog', hlog, hbuffer, reset_log, List.nil_append]
    exact rtake_rtake_append _ _ _
  rw [← hkept]
  exact ramConsoleBoot_clean (hsame.symm ▸ hfits) hring' hsig hblocks' hheader

/-! ## A small configuration -/

/-- A codec with 4-bit symbols, the polynomial that the configuration names for them, and 3
roots. -/
def smallRs : RsControl :=
  (rsInit 4 0x19 0 1 3 fun _ data _ => (0, data)).getD ⟨0, 0, [], [], [], 0, 0, 0, 0,
    fun _ data _ => (0, data)⟩

theorem smallRs_valid : smallRs.Valid where
  bits := by decide +kernel
  symbols := by decide +kernel
  roots := by decide +kernel
  alphaZero := by decide +kernel
  alphaSucc := by decide +kernel
  indexZero := by decide +kernel
  index := by decide +kernel
  gen := by decide +kernel
  vanishes := by decide +kernel

/-- Data of a length that the codec admits has a parity, and the decoder finds no error in the data
with it. -/
theorem rs_round_trip {rs : RsControl} (h : rs.Valid) (hlen : rs.Admits data.length)
    (invmsk : Nat) :
    ∃ par, rs.encodeRs8 data (List.replicate rs.nroots 0) invmsk = (0, par) ∧
      par.length = rs.nroots ∧ (∀ p ∈ par, p < 2 ^ rs.mm) ∧
      rs.decodeRs8 data par invmsk = some (0, data) := by
  have hpar := h.isParity_encodeRs8 hlen invmsk
  refine ⟨_, ?_, hpar.length, hpar.words, h.decode_encode hlen invmsk⟩
  rw [RsControl.encodeRs8, if_neg (h.pad_ok hlen)]

theorem rs_round_trip_small : ∃ par,
    smallRs.encodeRs8 [1, 2] (List.replicate smallRs.nroots 0) 0 = (0, par) ∧
      par.length = smallRs.nroots ∧ (∀ p ∈ par, p < 2 ^ smallRs.mm) ∧
      smallRs.decodeRs8 [1, 2] par 0 = some (0, [1, 2]) :=
  rs_round_trip smallRs_valid ⟨by decide +kernel, by decide +kernel⟩ 0

/-- Blocks of 8 bytes. -/
def smallEcc : Ecc where
  rs := smallRs
  blockShift := 3
  roots := smallRs_valid.roots

/-- A buffer of 20 bytes: two whole blocks and half a one. -/
def smallConsole : Console :=
  ⟨0, 0, 0, fun _ => 0, 20⟩

theorem smallEcc_fits : smallEcc.Fits 20 where
  valid := smallRs_valid
  blocks := by decide +kernel
  header := by decide +kernel

/-- The tail of a log of 25 bytes is saved. -/
theorem ram_console_keeps_tail_small :
    ∃ saved, ramConsoleSaveOld (some smallEcc)
        (afterWrites (some smallEcc) smallConsole [List.replicate 25 1]) ⟨0, 0⟩ = some saved ∧
      saved.log = [List.replicate 25 1].flatten.rtake 20 ++
        report (some smallEcc) saved.counts :=
  (ram_console_keeps_tail (some smallEcc) smallConsole [List.replicate 25 1] ⟨0, 0⟩ (by decide)
    fun _ hecc => Option.some.inj hecc ▸ smallEcc_fits).2.2.2.2

/-- The boot after two writes, the second of which runs over the end. -/
theorem ram_console_parity_small :
    let after := ramConsoleWrite (some smallEcc)
      (afterWrites (some smallEcc) smallConsole [List.replicate 13 1]) (List.replicate 12 2)
    BlocksInStep smallEcc after ∧ HeaderInStep smallEcc after ∧
      ramConsoleBoot (some smallEcc) after =
        some (after.reset, some ⟨after, ([List.replicate 13 (1 : UInt8)].flatten ++
          List.replicate 12 (2 : UInt8)).rtake 20 ++ strbuf ⟨0, 0⟩, ⟨0, 0⟩⟩) := by
  obtain ⟨hblocks, hheader, hboot⟩ := ram_console_parity smallEcc smallConsole
    [List.replicate 13 1] (List.replicate 12 2) (by decide)
  exact ⟨hblocks, hheader, hboot smallEcc_fits⟩

end AndroidKernel.RamConsole
