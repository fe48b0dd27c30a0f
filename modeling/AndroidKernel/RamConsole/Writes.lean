import Mathlib.Data.List.DropRight
import AndroidKernel.RamConsole.Model

/-!
# The ring over writes

A write that runs over the end is a piece up to the end and a piece from the start. Each piece
keeps the last bytes of the log, as many as the buffer has, and the parity of every block in use.
-/

/-!
## What one update changes

An update copies its bytes and encodes the blocks they meet. The slots lie above the data, so the
data is only what was copied, and the other slots stay as they were.
-/

namespace AndroidKernel.RamConsole

open Library ReedSolomon

variable {ecc : Ecc} {build : Option Ecc} {c : Console} {mem : Nat → UInt8} {s : List UInt8}
  {n stop b i : Nat}

theorem Ecc.blockSize_pos (ecc : Ecc) : 0 < ecc.blockSize :=
  Nat.two_pow_pos _

/-- The slot of a block, or of the header after the last block. -/
def slot (ecc : Ecc) (bufferSize b : Nat) : Nat :=
  bufferSize + b * ecc.eccSize

/-- The bytes of a block: the last one is cut at the end of the data. -/
def block (ecc : Ecc) (bufferSize b : Nat) (mem : Nat → UInt8) : List UInt8 :=
  read mem (b * ecc.blockSize) (min ecc.blockSize (bufferSize - b * ecc.blockSize))

/-- The parity of a block is what the encoder makes of its bytes. -/
def InStep (ecc : Ecc) (bufferSize : Nat) (mem : Nat → UInt8) (b : Nat) : Prop :=
  read mem (slot ecc bufferSize b) ecc.eccSize = ramConsoleEncodeRs8 ecc (block ecc bufferSize b mem)

theorem length_encodeSymbol {rs : RsControl} (hroots : 1 ≤ rs.nroots) {par : List Nat}
    (hpar : par.length = rs.nroots) (u : Nat) : (rs.encodeSymbol par u).length = rs.nroots := by
  unfold RsControl.encodeSymbol
  dsimp only
  split_ifs
  · simp [hpar]
    omega
  · simp
    omega

/-- The encoder fills a slot. -/
theorem length_ramConsoleEncodeRs8 (ecc : Ecc) (data : List UInt8) :
    (ramConsoleEncodeRs8 ecc data).length = ecc.eccSize := by
  have hfold : ∀ (symbols par : List Nat), par.length = ecc.rs.nroots →
      (symbols.foldl ecc.rs.encodeSymbol par).length = ecc.rs.nroots := by
    intro symbols
    induction symbols with
    | nil => exact fun par hpar => hpar
    | cons u symbols ih => exact fun par hpar => ih _ (length_encodeSymbol ecc.roots hpar u)
  unfold ramConsoleEncodeRs8 RsControl.encodeRs8
  rw [List.length_map]
  split_ifs
  · exact List.length_replicate
  · exact hfold _ _ List.length_replicate

/-- Blocks inside the data are before the slots. -/
theorem block_congr {mem' : Nat → UInt8} (h : ∀ i < n, mem' i = mem i) :
    block ecc n b mem' = block ecc n b mem :=
  read_congr fun i _ hi => h i (by omega)

theorem slot_succ (ecc : Ecc) (n b : Nat) : slot ecc n (b + 1) = slot ecc n b + ecc.eccSize := by
  unfold slot
  rw [Nat.succ_mul, Nat.add_assoc]

theorem slot_mono (ecc : Ecc) (n : Nat) {b b' : Nat} (h : b ≤ b') : slot ecc n b ≤ slot ecc n b' :=
  Nat.add_le_add_left (Nat.mul_le_mul_right _ h) _

/-- The loop leaves the data and the slots below its first one alone, brings the blocks it meets
in step, and leaves the slots above alone. -/
theorem encodeBlocks_spec (ecc : Ecc) (n stop b : Nat) (mem : Nat → UInt8) (hstop : stop ≤ n)
    (hb : b * ecc.blockSize ≤ n) :
    let mem' := encodeBlocks ecc n stop (b * ecc.blockSize) (slot ecc n b) ecc.blockSize mem
    (∀ i < slot ecc n b, mem' i = mem i) ∧
      (∀ b', b ≤ b' → b' = b ∨ b' * ecc.blockSize < stop →
        read mem' (slot ecc n b') ecc.eccSize = ramConsoleEncodeRs8 ecc (block ecc n b' mem)) ∧
      (∀ b', b < b' → stop ≤ b' * ecc.blockSize →
        read mem' (slot ecc n b') ecc.eccSize = read mem (slot ecc n b') ecc.eccSize) := by
  have hpos := ecc.blockSize_pos
  induction hk : stop - b * ecc.blockSize using Nat.strong_induction_on generalizing b mem with
  | _ k ih =>
    intro mem'
    -- the slot of the first block is written
    set mem₁ := write mem (slot ecc n b) (ramConsoleEncodeRs8 ecc (block ecc n b mem)) with hmem₁
    have hlength := length_ramConsoleEncodeRs8 ecc (block ecc n b mem)
    have hbelow : ∀ i < slot ecc n b, mem₁ i = mem i := fun i hi => write_of_not_mem (Or.inl hi)
    have hfirst : read mem₁ (slot ecc n b) ecc.eccSize =
        ramConsoleEncodeRs8 ecc (block ecc n b mem) := by
      rw [← hlength]
      exact read_write _ _ _
    have habove : ∀ b', b < b' →
        read mem₁ (slot ecc n b') ecc.eccSize = read mem (slot ecc n b') ecc.eccSize := by
      intro b' hlt
      refine read_write_of_disjoint (Or.inr ?_)
      rw [hlength, ← slot_succ]
      exact slot_mono ecc n hlt
    have hsize : (if n < b * ecc.blockSize + ecc.blockSize then n - b * ecc.blockSize
        else ecc.blockSize) = min ecc.blockSize (n - b * ecc.blockSize) := by
      split_ifs <;> omega
    have hmem' : mem' = if b * ecc.blockSize + ecc.blockSize < stop then
        encodeBlocks ecc n stop (b * ecc.blockSize + ecc.blockSize)
          (slot ecc n b + ecc.eccSize) (min ecc.blockSize (n - b * ecc.blockSize)) mem₁
        else mem₁ := by
      show encodeBlocks _ _ _ _ _ _ _ = _
      rw [encodeBlocks, hsize]
      rfl
    by_cases hmore : b * ecc.blockSize + ecc.blockSize < stop
    · rw [if_pos hmore, ← Nat.succ_mul, ← slot_succ, min_eq_left (by omega)] at hmem'
      have hmore' : (b + 1) * ecc.blockSize < stop := by
        rw [Nat.succ_mul]
        exact hmore
      obtain ⟨hlow, hmid, hhigh⟩ := ih (stop - (b + 1) * ecc.blockSize) (by
        rw [Nat.succ_mul]
        omega) (b + 1) mem₁ (by omega) rfl
      rw [← hmem'] at hlow hmid hhigh
      have hdata : ∀ i < n, mem₁ i = mem i := fun i hi =>
        hbelow i (hi.trans_le (Nat.le_add_right _ _))
      refine ⟨fun i hi => ?_, fun b' hle hor => ?_, fun b' hlt hle => ?_⟩
      · rw [hlow i (hi.trans_le (slot_mono ecc n (Nat.le_succ b))), hbelow i hi]
      · rcases Nat.eq_or_lt_of_le hle with rfl | hlt
        · -- the later turns leave this slot alone
          rw [← hfirst]
          refine read_congr fun i _ hi => hlow i ?_
          rw [slot_succ]
          exact hi
        · rw [hmid b' hlt (Or.inr (hor.resolve_left (by omega))), block_congr hdata]
      · have hb' : b + 1 < b' := by
          refine Nat.lt_of_le_of_ne hlt fun heq => ?_
          rw [← heq] at hle
          omega
        rw [hhigh b' hb' hle, habove b' hlt]
    rw [if_neg hmore] at hmem'
    rw [hmem']
    refine ⟨hbelow, fun b' hle hor => ?_, fun b' hlt _ => habove b' hlt⟩
    have heq : b' = b := by
      rcases hor with heq | hlt
      · exact heq
      · by_contra hne
        have hmul : (b + 1) * ecc.blockSize ≤ b' * ecc.blockSize :=
          Nat.mul_le_mul_right _ (by omega)
        rw [Nat.succ_mul] at hmul
        omega
    subst heq
    exact hfirst

/-! ## One update -/

@[simp] theorem ramConsoleUpdate_start (build : Option Ecc) (c : Console) (s : List UInt8) :
    (ramConsoleUpdate build c s).start = c.start := by
  cases build <;> rfl

@[simp] theorem ramConsoleUpdate_size (build : Option Ecc) (c : Console) (s : List UInt8) :
    (ramConsoleUpdate build c s).size = c.size := by
  cases build <;> rfl

@[simp] theorem ramConsoleUpdate_bufferSize (build : Option Ecc) (c : Console) (s : List UInt8) :
    (ramConsoleUpdate build c s).bufferSize = c.bufferSize := by
  cases build <;> rfl

@[simp] theorem ramConsoleUpdate_sig (build : Option Ecc) (c : Console) (s : List UInt8) :
    (ramConsoleUpdate build c s).sig = c.sig := by
  cases build <;> rfl

/-- The spec of the loop for an update. -/
theorem ramConsoleUpdate_spec (ecc : Ecc) (c : Console) (s : List UInt8)
    (h : c.start + s.length ≤ c.bufferSize) :
    let mem := write c.mem c.start s
    let mem' := (ramConsoleUpdate (some ecc) c s).mem
    let first := c.start / ecc.blockSize
    (∀ i < slot ecc c.bufferSize first, mem' i = mem i) ∧
      (∀ b, first ≤ b → b = first ∨ b * ecc.blockSize < c.start + s.length →
        read mem' (slot ecc c.bufferSize b) ecc.eccSize =
          ramConsoleEncodeRs8 ecc (block ecc c.bufferSize b mem)) ∧
      (∀ b, first < b → c.start + s.length ≤ b * ecc.blockSize →
        read mem' (slot ecc c.bufferSize b) ecc.eccSize =
          read mem (slot ecc c.bufferSize b) ecc.eccSize) := by
  have hdiv := Nat.div_mul_le_self c.start ecc.blockSize
  exact encodeBlocks_spec ecc c.bufferSize (c.start + s.length) (c.start / ecc.blockSize)
    (write c.mem c.start s) h (by omega)

/-- The data after an update is what was copied. -/
theorem ramConsoleUpdate_data (build : Option Ecc) (h : c.start + s.length ≤ c.bufferSize)
    (hi : i < c.bufferSize) : (ramConsoleUpdate build c s).mem i = write c.mem c.start s i := by
  cases build with
  | none => rfl
  | some ecc =>
    exact (ramConsoleUpdate_spec ecc c s h).1 i (hi.trans_le (Nat.le_add_right _ _))

/-- Blocks that the update meets are in step after it, and the others stay in step. -/
theorem inStep_ramConsoleUpdate (h : c.start + s.length ≤ c.bufferSize)
    (hb : InStep ecc c.bufferSize c.mem b ∨
      c.start ≤ b * ecc.blockSize ∧ b * ecc.blockSize < c.start + s.length) :
    InStep ecc c.bufferSize (ramConsoleUpdate (some ecc) c s).mem b := by
  have hpos := ecc.blockSize_pos
  obtain ⟨hlow, hmid, hhigh⟩ := ramConsoleUpdate_spec ecc c s h
  have hdata : block ecc c.bufferSize b (ramConsoleUpdate (some ecc) c s).mem =
      block ecc c.bufferSize b (write c.mem c.start s) :=
    block_congr fun i hi => ramConsoleUpdate_data (some ecc) h hi
  -- a slot is above the bytes that were copied
  have hslot : read (write c.mem c.start s) (slot ecc c.bufferSize b) ecc.eccSize =
      read c.mem (slot ecc c.bufferSize b) ecc.eccSize := by
    refine read_write_of_disjoint (Or.inr ?_)
    exact h.trans (Nat.le_add_right _ _)
  unfold InStep
  rw [hdata]
  by_cases hmet : c.start / ecc.blockSize ≤ b ∧
      (b = c.start / ecc.blockSize ∨ b * ecc.blockSize < c.start + s.length)
  · exact hmid b hmet.1 hmet.2
  have hold : InStep ecc c.bufferSize c.mem b := by
    refine hb.resolve_right fun hin => hmet ⟨?_, Or.inr hin.2⟩
    exact Nat.div_le_of_le_mul (by rw [Nat.mul_comm]; exact hin.1)
  by_cases hbefore : b < c.start / ecc.blockSize
  · -- the block ends before the first byte
    have hend : (b + 1) * ecc.blockSize ≤ c.start :=
      (Nat.mul_le_mul_right _ hbefore).trans (Nat.div_mul_le_self _ _)
    rw [Nat.succ_mul] at hend
    have hblock : block ecc c.bufferSize b (write c.mem c.start s) =
        block ecc c.bufferSize b c.mem := read_write_of_disjoint (Or.inl (by omega))
    rw [hblock, ← hold, ← hslot]
    refine read_congr fun i _ hi => hlow i (hi.trans_le ?_)
    rw [← slot_succ]
    exact slot_mono ecc c.bufferSize hbefore
  have hle : c.start + s.length ≤ b * ecc.blockSize := by
    by_contra hlt
    exact hmet ⟨by omega, Or.inr (by omega)⟩
  have hfirst : c.start / ecc.blockSize < b :=
    Nat.lt_of_le_of_ne (by omega) fun heq => hmet ⟨by omega, Or.inl heq.symm⟩
  have hblock : block ecc c.bufferSize b (write c.mem c.start s) =
      block ecc c.bufferSize b c.mem := read_write_of_disjoint (Or.inr hle)
  rw [hhigh b hfirst hle, hblock, hslot]
  exact hold

variable {ecc : Ecc} {build : Option Ecc} {c : Console} {s : List UInt8}
  {n i : Nat}

/-! ## The last bytes of a log -/

theorem rtake_of_length_le {α : Type} {l : List α} (h : l.length ≤ n) : l.rtake n = l := by
  rw [List.rtake, Nat.sub_eq_zero_of_le h, List.drop_zero]

theorem length_rtake {α : Type} (l : List α) (n : Nat) : (l.rtake n).length = min n l.length := by
  rw [List.rtake, List.length_drop]
  omega

/-- Enough bytes at the end hide what is before them. -/
theorem rtake_append {α : Type} (first : List α) {second : List α} (h : n ≤ second.length) :
    (first ++ second).rtake n = second.rtake n := by
  rw [List.rtake, List.rtake, List.length_append, List.drop_append, List.drop_eq_nil_of_le (by omega),
    List.nil_append]
  congr 1
  omega

theorem rtake_append_self {α : Type} (first second : List α) :
    (first ++ second).rtake second.length = second := by
  rw [rtake_append first le_rfl, rtake_of_length_le le_rfl]

/-- Only the last bytes matter for what comes after. -/
theorem rtake_rtake_append {α : Type} (l second : List α) (n : Nat) :
    (l.rtake n ++ second).rtake n = (l ++ second).rtake n := by
  by_cases h : l.length ≤ n
  · rw [rtake_of_length_le h]
  · have hsplit : l = l.take (l.length - n) ++ l.rtake n := (List.take_append_drop _ _).symm
    conv_rhs => rw [hsplit, List.append_assoc]
    refine (rtake_append _ ?_).symm
    rw [List.length_append, length_rtake]
    omega

theorem clip_eq (c : Console) (s : List UInt8) : clip c s = s.rtake c.bufferSize := by
  unfold clip
  split_ifs with hlong
  · rfl
  · exact (rtake_of_length_le (by omega)).symm

/-! ## The ring -/

/-- The state of the ring: its start is where the next byte goes, and before the ring is full that
is where the bytes in use end. -/
structure Ring (c : Console) : Prop where
  start_le : c.start ≤ c.size
  size_le : c.size ≤ c.bufferSize
  filling : c.size < c.bufferSize → c.start = c.size
  word : c.bufferSize < word

/-- The log that the ring holds. -/
def Console.log (c : Console) : List UInt8 :=
  read c.mem c.start (c.size - c.start) ++ read c.mem 0 c.start

theorem Ring.length_log (h : Ring c) : c.log.length = c.size := by
  have hle := h.start_le
  simp only [Console.log, List.length_append, length_read]
  omega

/-- What precedes the start is the end of the log. -/
theorem Console.log_eq (c : Console) :
    ∃ before, c.log = before ++ read c.mem 0 c.start :=
  ⟨_, rfl⟩

@[simp] theorem ramConsoleUpdateHeader_start (build : Option Ecc) (c : Console) :
    (ramConsoleUpdateHeader build c).start = c.start := by
  cases build <;> rfl

@[simp] theorem ramConsoleUpdateHeader_size (build : Option Ecc) (c : Console) :
    (ramConsoleUpdateHeader build c).size = c.size := by
  cases build <;> rfl

@[simp] theorem ramConsoleUpdateHeader_bufferSize (build : Option Ecc) (c : Console) :
    (ramConsoleUpdateHeader build c).bufferSize = c.bufferSize := by
  cases build <;> rfl

@[simp] theorem ramConsoleUpdateHeader_sig (build : Option Ecc) (c : Console) :
    (ramConsoleUpdateHeader build c).sig = c.sig := by
  cases build <;> rfl

/-- The header's slot lies above the data. -/
theorem ramConsoleUpdateHeader_data (build : Option Ecc) (hi : i < c.bufferSize) :
    (ramConsoleUpdateHeader build c).mem i = c.mem i := by
  cases build with
  | none => rfl
  | some ecc => exact write_of_not_mem (Or.inl (hi.trans_le (Nat.le_add_right _ _)))

theorem writePiece_data (build : Option Ecc) (h : c.start + s.length ≤ c.bufferSize)
    (hi : i < c.bufferSize) : (writePiece build c s).mem i = write c.mem c.start s i := by
  unfold writePiece
  rw [ramConsoleUpdateHeader_data build (by simpa using hi)]
  exact ramConsoleUpdate_data build h hi

theorem Ring.writePiece_fields (hr : Ring c) (build : Option Ecc)
    (h : c.start + s.length ≤ c.bufferSize) :
    (writePiece build c s).start = c.start + s.length ∧
      (writePiece build c s).size = (if c.size < c.bufferSize then c.size + s.length else c.size) ∧
      (writePiece build c s).bufferSize = c.bufferSize ∧ (writePiece build c s).sig = c.sig := by
  have hword := hr.word
  have hstart : wadd c.start s.length = c.start + s.length := wadd_eq (by omega)
  unfold writePiece
  simp only [ramConsoleUpdateHeader_start, ramConsoleUpdateHeader_size, ramConsoleUpdate_start,
    ramConsoleUpdateHeader_bufferSize, ramConsoleUpdateHeader_sig, ramConsoleUpdate_size,
    ramConsoleUpdate_bufferSize, ramConsoleUpdate_sig, hstart, true_and, and_true]
  split_ifs with hfull
  · have heq := hr.filling hfull
    exact wadd_eq (by omega)
  · rfl

/-- A piece that fits before the end keeps the ring and adds its bytes to the log. -/
theorem Ring.writePiece (hr : Ring c) (build : Option Ecc)
    (h : c.start + s.length ≤ c.bufferSize) :
    Ring (writePiece build c s) ∧
      (writePiece build c s).log = (c.log ++ s).rtake c.bufferSize := by
  obtain ⟨hstart, hsize, hbuffer, -⟩ := hr.writePiece_fields build h
  have hle := hr.start_le
  have hsize' := hr.size_le
  have hring : Ring (RamConsole.writePiece build c s) := by
    refine ⟨?_, ?_, ?_, hbuffer ▸ hr.word⟩
    · rw [hstart, hsize]
      split_ifs with hfull
      · omega
      · omega
    · rw [hsize, hbuffer]
      split_ifs with hfull
      · have := hr.filling hfull
        omega
      · exact hsize'
    · rw [hstart, hsize, hbuffer]
      split_ifs with hfull
      · have := hr.filling hfull
        omega
      · omega
  refine ⟨hring, ?_⟩
  -- the bytes before the new start are the old ones and the piece
  have hlow : read (RamConsole.writePiece build c s).mem 0 (c.start + s.length) =
      read c.mem 0 c.start ++ s := by
    have hdata : read (RamConsole.writePiece build c s).mem 0 (c.start + s.length) =
        read (write c.mem c.start s) 0 (c.start + s.length) :=
      read_congr fun i _ hi => writePiece_data build h (by omega)
    have hold : read (write c.mem c.start s) 0 c.start = read c.mem 0 c.start :=
      read_write_of_disjoint (Or.inl (by omega))
    rw [hdata, read_add, Nat.zero_add, hold, read_write]
  unfold Console.log
  rw [hstart, hsize, hlow]
  split_ifs with hfull
  · have heq := hr.filling hfull
    rw [heq, Nat.sub_self, Nat.sub_self, read_zero, read_zero, List.nil_append, List.nil_append,
      rtake_of_length_le]
    rw [List.length_append, length_read]
    omega
  -- the oldest bytes make room for the piece
  have hkeep : read (RamConsole.writePiece build c s).mem (c.start + s.length)
      (c.size - (c.start + s.length)) =
      read c.mem (c.start + s.length) (c.size - (c.start + s.length)) := by
    have hdata : read (RamConsole.writePiece build c s).mem (c.start + s.length)
        (c.size - (c.start + s.length)) =
        read (write c.mem c.start s) (c.start + s.length) (c.size - (c.start + s.length)) :=
      read_congr fun i _ hi => writePiece_data build h (by omega)
    rw [hdata]
    exact read_write_of_disjoint (Or.inr le_rfl)
  have hsplit : read c.mem c.start (c.size - c.start) =
      read c.mem c.start s.length ++
        read c.mem (c.start + s.length) (c.size - (c.start + s.length)) := by
    rw [← read_add]
    congr 1
    omega
  rw [hkeep, hsplit]
  have hlength : (read c.mem (c.start + s.length) (c.size - (c.start + s.length)) ++
      (read c.mem 0 c.start ++ s)).length = c.bufferSize := by
    simp only [List.length_append, length_read]
    omega
  rw [List.append_assoc, List.append_assoc, ← hlength, rtake_append_self]

/-- The first piece of a write that runs over the end fills the ring. -/
theorem Ring.wrapStart (hr : Ring c) (build : Option Ecc)
    (h : c.bufferSize - c.start < s.length) :
    Ring (wrapStart build c s) ∧ (wrapStart build c s).log =
      read c.mem 0 c.start ++ s.take (c.bufferSize - c.start) := by
  have hle := hr.start_le
  have hsize := hr.size_le
  have hlength : (s.take (c.bufferSize - c.start)).length = c.bufferSize - c.start :=
    List.length_take_of_le h.le
  have hfits : c.start + (s.take (c.bufferSize - c.start)).length ≤ c.bufferSize := by omega
  have hword := hr.word
  refine ⟨⟨?_, ?_, ?_, ?_⟩, ?_⟩
  · exact Nat.zero_le _
  · simp [RamConsole.wrapStart]
  · simp [RamConsole.wrapStart]
  · simpa [RamConsole.wrapStart] using hword
  show read (ramConsoleUpdate build c _).mem 0 (c.bufferSize - 0) ++ [] = _
  rw [List.append_nil, Nat.sub_zero]
  generalize s.take (c.bufferSize - c.start) = piece at hlength hfits ⊢
  have hold : read (write c.mem c.start piece) 0 c.start = read c.mem 0 c.start :=
    read_write_of_disjoint (Or.inl (by omega))
  calc read (ramConsoleUpdate build c piece).mem 0 c.bufferSize
      = read (write c.mem c.start piece) 0 c.bufferSize :=
        read_congr fun i _ hi => ramConsoleUpdate_data build hfits (by omega)
    _ = read (write c.mem c.start piece) 0 (c.start + piece.length) := by
        congr 1
        omega
    _ = read c.mem 0 c.start ++ piece := by rw [read_add, Nat.zero_add, hold, read_write]

/-- One write: the ring holds the last bytes of the log and what was written. -/
theorem Ring.write (hr : Ring c) (build : Option Ecc) (s : List UInt8) :
    Ring (ramConsoleWrite build c s) ∧
      (ramConsoleWrite build c s).log = (c.log ++ s).rtake c.bufferSize ∧
        (ramConsoleWrite build c s).bufferSize = c.bufferSize := by
  have hle := hr.start_le
  have hsize := hr.size_le
  have hclip : (clip c s).length ≤ c.bufferSize := by
    rw [clip_eq, length_rtake]
    exact min_le_left _ _
  have hlog : (c.log ++ s).rtake c.bufferSize = (c.log ++ clip c s).rtake c.bufferSize := by
    by_cases hlong : c.bufferSize < s.length
    · rw [clip_eq, rtake_append _ hlong.le, rtake_append _ (by rw [length_rtake]; omega),
        rtake_of_length_le (by rw [length_rtake]; omega : (s.rtake c.bufferSize).length ≤ _)]
    · rw [clip, if_neg hlong]
  rw [hlog]
  unfold ramConsoleWrite
  dsimp only
  split_ifs with hover
  · obtain ⟨hring, hfirst⟩ := hr.wrapStart build hover
    have hbuffer : (RamConsole.wrapStart build c (clip c s)).bufferSize = c.bufferSize := by
      simp [RamConsole.wrapStart]
    have hfits : (RamConsole.wrapStart build c (clip c s)).start +
        ((clip c s).drop (c.bufferSize - c.start)).length ≤
        (RamConsole.wrapStart build c (clip c s)).bufferSize := by
      rw [hbuffer, List.length_drop]
      show 0 + _ ≤ _
      omega
    obtain ⟨hring', hlast⟩ := hring.writePiece build hfits
    refine ⟨hring', ?_, (hring.writePiece_fields build hfits).2.2.1.trans hbuffer⟩
    obtain ⟨before, hbefore⟩ := c.log_eq
    rw [hlast, hbuffer, hfirst, List.append_assoc, List.take_append_drop, hbefore,
      List.append_assoc before]
    refine (rtake_append before ?_).symm
    rw [List.length_append, length_read]
    omega
  · have hfits : c.start + (clip c s).length ≤ c.bufferSize := by omega
    obtain ⟨hring, hlog⟩ := hr.writePiece build hfits
    exact ⟨hring, hlog, (hr.writePiece_fields build hfits).2.2.1⟩

@[simp] theorem ramConsoleWrite_sig (build : Option Ecc) (c : Console) (s : List UInt8) :
    (ramConsoleWrite build c s).sig = c.sig := by
  unfold ramConsoleWrite
  dsimp only
  split_ifs <;> simp [RamConsole.writePiece, RamConsole.wrapStart]

theorem foldl_ramConsoleWrite_sig (build : Option Ecc) (writes : List (List UInt8)) (c : Console) :
    (writes.foldl (ramConsoleWrite build) c).sig = c.sig := by
  induction writes generalizing c with
  | nil => rfl
  | cons s writes ih => rw [List.foldl_cons, ih, ramConsoleWrite_sig]

theorem Ring.writes (hr : Ring c) (build : Option Ecc) (writes : List (List UInt8)) :
    Ring (writes.foldl (ramConsoleWrite build) c) ∧
      (writes.foldl (ramConsoleWrite build) c).log = (c.log ++ writes.flatten).rtake c.bufferSize ∧
        (writes.foldl (ramConsoleWrite build) c).bufferSize = c.bufferSize := by
  induction writes generalizing c with
  | nil =>
    refine ⟨hr, ?_, rfl⟩
    rw [List.flatten_nil, List.append_nil, rtake_of_length_le]
    · rfl
    · rw [hr.length_log]
      exact hr.size_le
  | cons s writes ih =>
    obtain ⟨hring, hlog, hbuffer⟩ := hr.write build s
    obtain ⟨hring', hlog', hbuffer'⟩ := ih hring
    refine ⟨hring', ?_, hbuffer'.trans hbuffer⟩
    rw [List.foldl_cons, hlog', hbuffer, hlog, rtake_rtake_append, List.flatten_cons,
      List.append_assoc]

theorem Ring.reset (hword : c.bufferSize < Library.word) : Ring c.reset where
  start_le := Nat.le_refl 0
  size_le := Nat.zero_le _
  filling := fun _ => rfl
  word := hword

end AndroidKernel.RamConsole
