import AndroidKernel.Logger.Model

/-!
# Writes

A write touches only the bytes of the entry it is to leave, from the write offset on. If it
succeeds these bytes hold the entry, with the header and as much of the vector as fits; if a copy
faults they hold anything and the write offset goes back to where it was.
-/

/-!
## Entries in the ring

`Laid log off entries` says that the entries lie one after another from `off` up to the write
offset, with their exact bytes. Offsets at which this holds are the entry boundaries. This module
shows that `get_entry_len` and `get_next_entry` walk along them and that `fix_up_readers` leaves
every offset at a boundary that the write to come does not reach.
-/

namespace AndroidKernel.Logger

open Library Library.Ring

/-- The bytes of a complete entry: a header whose length field is right, and some payload. -/
structure Entry extends Chunk UInt8 where
  nonempty : headerLength < length
  bounded : length ≤ entryMaxLen
  field : headerLength + ((get 0).toNat + 256 * (get 1).toNat) = length

/-- The bytes that a list of entries takes up. -/
def total (entries : List Entry) : Nat := (entries.map fun entry => entry.length).sum

@[simp] theorem total_nil : total [] = 0 :=
  rfl

@[simp] theorem total_cons {entry : Entry} {entries : List Entry} :
    total (entry :: entries) = entry.length + total entries := by
  simp [total]

theorem total_append {xs ys : List Entry} : total (xs ++ ys) = total xs + total ys := by
  simp [total]

/-- The entries lie from `off` up to the write offset. -/
def Laid (log : Log) : Nat → List Entry → Prop
  | off, [] => off = log.wOff
  | off, entry :: rest =>
    Holds log.size log.buffer off entry.toChunk ∧ Laid log ((off + entry.length) % log.size) rest

/-- The sizes of ring this driver works with. -/
def RingSize (size : Nat) : Prop := ∃ order, 16 ≤ order ∧ size = 2 ^ order

theorem RingSize.le {size : Nat} (h : RingSize size) : 65536 ≤ size := by
  obtain ⟨order, hle, rfl⟩ := h
  show 2 ^ 16 ≤ 2 ^ order
  exact Nat.pow_le_pow_right (by decide) hle

variable {log : Log} {off len : Nat} {entries : List Entry} {entry : Entry}

/-- `logger_offset` is the remainder. -/
theorem offset_eq_mod (h : RingSize log.size) (n : Nat) : log.offset n = n % log.size := by
  obtain ⟨order, -, hsize⟩ := h
  rw [Log.offset, hsize]
  exact Nat.and_two_pow_sub_one_eq_mod n order

/-- `get_entry_len` reads the length of an entry, also across the end of the array. -/
theorem get_entry_len_eq (hsize : RingSize log.size) (hoff : off < log.size)
    (h : Holds log.size log.buffer off entry.toChunk) : getEntryLen log off = entry.length := by
  have hmin := hsize.le
  have hlen := entry.nonempty
  simp only [headerLength] at hlen
  have hlow := h 0 (by omega)
  have hhigh := h 1 (by omega)
  rw [Nat.add_zero, Nat.mod_eq_of_lt hoff] at hlow
  rw [offset_eq hoff (by omega)] at hhigh
  rw [← entry.field, getEntryLen, hlow]
  split_ifs with hlast
  · rw [if_neg (by omega), show off + 1 - log.size = 0 by omega] at hhigh
    rw [hhigh]
  · rw [if_pos (by omega)] at hhigh
    rw [hhigh]

/-- The last boundary is the write offset. -/
theorem Laid.end_eq (h : Laid log off entries) (hoff : off < log.size) :
    (off + total entries) % log.size = log.wOff := by
  induction entries generalizing off with
  | nil =>
    rw [total_nil, Nat.add_zero, Nat.mod_eq_of_lt hoff]
    exact h
  | cons entry rest ih =>
    have hnext := ih h.2 (Nat.mod_lt _ (by omega))
    rw [offset_add] at hnext
    rw [total_cons]
    exact hnext

/-- Boundaries stay boundaries while the bytes behind them do not change. -/
theorem Laid.congr {log' : Log} (h : Laid log off entries) (hsize : log'.size = log.size)
    (hwOff : log'.wOff = log.wOff)
    (hagree : Agree log.size log.buffer log'.buffer off (total entries)) :
    Laid log' off entries := by
  induction entries generalizing off with
  | nil => exact Eq.trans h hwOff.symm
  | cons entry rest ih =>
    rw [total_cons] at hagree
    rw [Laid, hsize]
    refine ⟨h.1.congr fun i hi => hagree i (by omega), ih h.2 ?_⟩
    exact hagree.sub (Nat.le_refl _)

/-- A boundary stays one when an entry is added at the write offset. -/
theorem Laid.snoc {log' : Log} (h : Laid log off entries) (hsize : log'.size = log.size)
    (hbuffer : log'.buffer = log.buffer)
    (hwOff : log'.wOff = (log.wOff + entry.length) % log.size)
    (hentry : Holds log.size log.buffer log.wOff entry.toChunk) :
    Laid log' off (entries ++ [entry]) := by
  induction entries generalizing off with
  | nil =>
    cases (show off = log.wOff from h)
    rw [List.nil_append, Laid, Laid, hsize, hbuffer]
    exact ⟨hentry, hwOff.symm⟩
  | cons first rest ih =>
    rw [List.cons_append, Laid, hsize, hbuffer]
    exact ⟨h.1, ih h.2⟩

/-! ## Pulling an offset forward -/

/-- The number of entries `get_next_entry` passes over, with `count` bytes behind it. -/
def passedFrom (len : Nat) : Nat → List Entry → Nat
  | _, [] => 0
  | count, entry :: rest =>
    if count + entry.length < len then passedFrom len (count + entry.length) rest + 1 else 1

/-- The loop of `get_next_entry` stops at a boundary. -/
theorem next_entry_loop_laid (hsize : RingSize log.size) {fuel count : Nat}
    (hoff : off < log.size) (h : Laid log off entries) (hcount : count < len)
    (hfuel : len - count ≤ fuel) (htotal : len ≤ count + total entries) :
    Laid log (nextEntryLoop log len fuel off count)
      (entries.drop (passedFrom len count entries)) := by
  induction fuel generalizing off count entries with
  | zero => omega
  | succ fuel ih =>
    cases entries with
    | nil =>
      rw [total_nil] at htotal
      omega
    | cons entry rest =>
      have hlen := entry.nonempty
      simp only [headerLength] at hlen
      rw [total_cons] at htotal
      simp only [nextEntryLoop, passedFrom, get_entry_len_eq hsize hoff h.1,
        offset_eq_mod hsize]
      split_ifs with hmore
      · rw [List.drop_succ_cons]
        exact ih (Nat.mod_lt _ (by omega)) h.2 hmore (by omega) (by omega)
      · exact h.2

theorem next_entry_loop_lt (hsize : RingSize log.size) (fuel count : Nat) :
    nextEntryLoop log len (fuel + 1) off count < log.size := by
  have hpos := hsize.le
  induction fuel generalizing off count with
  | zero =>
    simp only [nextEntryLoop, offset_eq_mod hsize, ite_self]
    exact Nat.mod_lt _ (by omega)
  | succ fuel ih =>
    rw [nextEntryLoop]
    split_ifs
    · exact ih _
    · rw [offset_eq_mod hsize]
      exact Nat.mod_lt _ (by omega)

/-- The entries passed over fill at least `len` bytes. -/
theorem le_total_take_passed {count : Nat} (hcount : count < len)
    (htotal : len ≤ count + total entries) :
    len ≤ count + total (entries.take (passedFrom len count entries)) := by
  induction entries generalizing count with
  | nil =>
    rw [total_nil] at htotal
    omega
  | cons entry rest ih =>
    rw [total_cons] at htotal
    simp only [passedFrom]
    split_ifs with hmore
    · rw [List.take_succ_cons, total_cons]
      have := ih hmore (by omega)
      omega
    · simp only [List.take_succ_cons, List.take_zero, total_cons, total_nil]
      omega

theorem passed_le_length {count : Nat} : passedFrom len count entries ≤ entries.length := by
  induction entries generalizing count with
  | nil => exact Nat.le_refl 0
  | cons entry rest ih =>
    simp only [passedFrom, List.length_cons]
    split_ifs
    · exact Nat.succ_le_succ ih
    · omega

/-- `clock_interval` tells whether a write of `len` bytes reaches the offset of the entries that
end at the write offset. -/
theorem clock_interval_iff {size wOff behind : Nat} (hoff : off < size) (hwOff : wOff < size)
    (hbehind : behind < size) (hend : (off + behind) % size = wOff) (hlen : 0 < len)
    (hsize : len < size) :
    clockInterval wOff ((wOff + len) % size) off = true ↔ size ≤ behind + len := by
  rw [offset_eq hoff (Nat.le_of_lt hbehind)] at hend
  rw [offset_eq hwOff (Nat.le_of_lt hsize)]
  simp only [clockInterval]
  split_ifs at hend ⊢ <;> simp only [Bool.or_eq_true, Bool.and_eq_true, decide_eq_true_eq] <;> omega

/-- An offset is a boundary, with these entries up to the write offset and not around it. -/
structure Boundary (log : Log) (off : Nat) (entries : List Entry) : Prop where
  off_lt : off < log.size
  total_lt : total entries < log.size
  laid : Laid log off entries

/-- The number of entries that `fix_up_readers` passes over at an offset. -/
def pulled (log : Log) (len off : Nat) (entries : List Entry) : Nat :=
  if clockInterval log.wOff (log.offset (log.wOff + len)) off then passedFrom len 0 entries else 0

/-- `fix_up_readers` leaves an offset at a boundary that a write of `len` bytes does not reach. -/
theorem Boundary.fix_up (h : Boundary log off entries) (hsize : RingSize log.size)
    (hwOff : log.wOff < log.size) (hpos : 0 < len) (hlen : len ≤ entryMaxLen) :
    fixUp log len off < log.size ∧
      Laid log (fixUp log len off) (entries.drop (pulled log len off entries)) ∧
        total (entries.drop (pulled log len off entries)) + len < log.size := by
  have hmin := hsize.le
  simp only [entryMaxLen] at hlen
  have hend := h.laid.end_eq h.off_lt
  have hclock := clock_interval_iff h.off_lt hwOff h.total_lt hend hpos
    (show len < log.size by omega)
  rw [← offset_eq_mod hsize] at hclock
  have htotal := h.total_lt
  simp only [fixUp, pulled]
  split_ifs with hlapped
  · have hreach := hclock.mp hlapped
    have hsplit := le_total_take_passed hpos (show len ≤ 0 + total entries by omega)
    have hparts : total (entries.take (passedFrom len 0 entries)) +
        total (entries.drop (passedFrom len 0 entries)) = total entries := by
      rw [← total_append, List.take_append_drop]
    refine ⟨next_entry_loop_lt hsize _ _, ?_, by omega⟩
    exact next_entry_loop_laid hsize h.off_lt h.laid hpos (by omega) (by omega)
  · rw [List.drop_zero]
    refine ⟨h.off_lt, h.laid, ?_⟩
    have hclear : ¬ log.size ≤ total entries + len := fun hreach => hlapped (hclock.mpr hreach)
    omega

/-- The bytes of a vector, one element after another. -/
def vectorBytes : List Iovec → Nat → UInt8
  | [], _ => 0
  | iov :: rest, i =>
    if i < iov.data.length then iov.data.get i else vectorBytes rest (i - iov.data.length)

/-- The first `count` bytes of an entry. -/
def entryPrefix (stamp : Nat → UInt8) (iovs : List Iovec) (count : Nat) : Chunk UInt8 where
  length := count
  get i :=
    if i < headerLength then (entryHeader (payloadLength iovs) stamp).get i
    else vectorBytes iovs (i - headerLength)

/-- An entry takes up much less than the ring. -/
theorem entry_room (iovs : List Iovec) : headerLength + payloadLength iovs ≤ entryMaxLen := by
  have hle : payloadLength iovs ≤ entryMaxPayload := Nat.min_le_right _ _
  simp only [entryMaxPayload, entryMaxLen, headerLength] at *
  omega

theorem entryPrefix_field (stamp : Nat → UInt8) (iovs : List Iovec) :
    headerLength +
        (((entryPrefix stamp iovs (headerLength + payloadLength iovs)).get 0).toNat +
          256 * ((entryPrefix stamp iovs (headerLength + payloadLength iovs)).get 1).toNat) =
      headerLength + payloadLength iovs := by
  have hle : payloadLength iovs ≤ entryMaxPayload := Nat.min_le_right _ _
  simp only [entryPrefix, entryHeader, headerLength, entryMaxLen, entryMaxPayload] at *
  simp [UInt8.toNat_ofNat']
  omega

/-- The entry that a write of this vector leaves. -/
def writtenEntry (stamp : Nat → UInt8) (iovs : List Iovec) (h : payloadLength iovs ≠ 0) :
    Entry where
  toChunk := entryPrefix stamp iovs (headerLength + payloadLength iovs)
  nonempty := Nat.lt_add_of_pos_right (Nat.pos_of_ne_zero h)
  bounded := entry_room iovs
  field := entryPrefix_field stamp iovs

/-- The logs agree but for the bytes of a write of `len` bytes from `orig` on and for the write
offset. -/
structure Outside (log log' : Log) (orig len : Nat) : Prop where
  size : log'.size = log.size
  head : log'.head = log.head
  readers : log'.readers = log.readers
  buffer : Agree log.size log.buffer log'.buffer ((orig + len) % log.size) (log.size - len)

variable {log log' : Log} {orig len ret : Nat} {stamp : Nat → UInt8} {iovs rest : List Iovec}

theorem Outside.trans {log'' : Log} (h : Outside log log' orig len)
    (h' : Outside log' log'' orig len) : Outside log log'' orig len := by
  refine ⟨h'.size.trans h.size, h'.head.trans h.head, h'.readers.trans h.readers, ?_⟩
  have hbuffer := h'.buffer
  rw [h.size] at hbuffer
  exact h.buffer.trans hbuffer

/-- A piece of the write stays inside it. -/
theorem outside_put {done : Nat} {chunk : Chunk UInt8} (hsize : RingSize log.size)
    (hwOff : log.wOff = (orig + done) % log.size) (hfit : done + chunk.length ≤ len)
    (hlen : len ≤ log.size) : Outside log (doWriteLog log chunk) orig len := by
  have hpos := hsize.le
  refine ⟨rfl, rfl, rfl, ?_⟩
  have hlt : log.wOff < log.size := by
    rw [hwOff]
    exact Nat.mod_lt _ (by omega)
  have hagree : Agree log.size log.buffer (put log.size log.buffer log.wOff chunk)
      ((log.wOff + (len - done)) % log.size) (log.size - len) :=
    agree_put hlt (by omega) (by omega)
  rw [hwOff, offset_add, show done + (len - done) = len by omega] at hagree
  simp only [doWriteLog, hwOff]
  exact hagree

/-- A piece that faults stays inside the write. -/
theorem outside_garble {done count : Nat} {bytes : Nat → Option UInt8} (hsize : RingSize log.size)
    (hwOff : log.wOff = (orig + done) % log.size) (hfit : done + count ≤ len)
    (hlen : len ≤ log.size) :
    Outside log { log with buffer := garble log.size log.buffer log.wOff count bytes } orig len := by
  have hpos := hsize.le
  refine ⟨rfl, rfl, rfl, ?_⟩
  intro i hi
  have hlt : log.wOff < log.size := by
    rw [hwOff]
    exact Nat.mod_lt _ (by omega)
  have hcell : ((orig + len) % log.size + i) % log.size =
      (log.wOff + (len - done + i)) % log.size := by
    rw [hwOff, offset_add, offset_add]
    congr 2
    omega
  rw [hcell]
  simp only [garble, distance_eq hlt (show len - done + i < log.size by omega)]
  rw [if_neg (by omega)]

/-- The state of a write that has left the first bytes of the entry. -/
structure Partial (log log' : Log) (orig : Nat) (stamp : Nat → UInt8) (iovs : List Iovec)
    (ret : Nat) : Prop where
  outside : Outside log log' orig (headerLength + payloadLength iovs)
  wOff : log'.wOff = (orig + (headerLength + ret)) % log.size
  holds : Holds log.size log'.buffer orig (entryPrefix stamp iovs (headerLength + ret))

theorem Partial.piece (h : Partial log log' orig stamp iovs ret) (hsize : RingSize log.size)
    (horig : orig < log.size) (chunk : Chunk UInt8)
    (hfit : ret + chunk.length ≤ payloadLength iovs)
    (hchunk : ∀ i, i < chunk.length → chunk.get i = vectorBytes iovs (ret + i)) :
    Partial log (doWriteLog log' chunk) orig stamp iovs (ret + chunk.length) := by
  have hpos := hsize.le
  have hle := entry_room iovs
  simp only [entryMaxLen] at hle
  have heq := h.outside.size
  have hsize' : RingSize log'.size := h.outside.size ▸ hsize
  have hwOff : log'.wOff = (orig + (headerLength + ret)) % log'.size := by
    rw [h.outside.size]
    exact h.wOff
  have hwOff_lt : log'.wOff < log'.size := by
    rw [hwOff]
    exact Nat.mod_lt _ (by omega)
  have hput := outside_put hsize' hwOff
    (show headerLength + ret + chunk.length ≤ headerLength + payloadLength iovs by omega)
    (show headerLength + payloadLength iovs ≤ log'.size by omega)
  refine ⟨h.outside.trans hput, ?_, ?_⟩
  · show log'.offset (log'.wOff + chunk.length) = _
    rw [offset_eq_mod hsize', h.outside.size, h.wOff, offset_add, Nat.add_assoc]
  intro i hi
  simp only [entryPrefix] at hi ⊢
  by_cases hold : i < headerLength + ret
  · -- The bytes before the piece are behind it in the ring.
    have hagree : Agree log'.size log'.buffer
        (put log'.size log'.buffer log'.wOff chunk)
        ((log'.wOff + (log'.size - (headerLength + ret))) % log'.size) (headerLength + ret) :=
      agree_put hwOff_lt (by omega) (by omega)
    have hback : (log'.wOff + (log'.size - (headerLength + ret))) % log'.size = orig := by
      rw [hwOff, offset_add, h.outside.size, show headerLength + ret +
        (log.size - (headerLength + ret)) = log.size by omega, Nat.add_mod_right,
        Nat.mod_eq_of_lt horig]
    rw [hback, h.outside.size] at hagree
    have hcell := hagree i hold
    have hbefore := h.holds i hold
    simp only [doWriteLog, h.outside.size]
    rw [hcell, hbefore]
    rfl
  have hput : Holds log'.size (put log'.size log'.buffer log'.wOff chunk) log'.wOff chunk :=
    holds_put hwOff_lt (by omega)
  have hcell := hput (i - (headerLength + ret)) (by omega)
  rw [hwOff, offset_add, h.outside.size,
    show headerLength + ret + (i - (headerLength + ret)) = i by omega] at hcell
  simp only [doWriteLog, h.outside.size, h.wOff]
  rw [hcell, hchunk _ (by omega), if_neg (by omega)]
  congr 1
  omega

/-- The loop over the vector: it faults inside the bytes of the write, or leaves the bytes of all
that fits. -/
theorem write_segments_spec (hsize : RingSize log.size) (horig : orig < log.size)
    (h : Partial log log' orig stamp iovs ret) (hret : ret ≤ payloadLength iovs)
    (hbytes : ∀ i, ret + i < payloadLength iovs → vectorBytes iovs (ret + i) = vectorBytes rest i) :
    let result := writeSegments (payloadLength iovs) rest log' ret
    Outside log result.1 orig (headerLength + payloadLength iovs) ∧
      (result.2 = true →
        Partial log result.1 orig stamp iovs (min (ret + vectorLength rest) (payloadLength iovs))) := by
  induction rest generalizing log' ret with
  | nil =>
    refine ⟨h.outside, fun _ => ?_⟩
    rw [show min (ret + vectorLength []) (payloadLength iovs) = ret by
      simp only [vectorLength, List.map_nil, List.sum_nil]
      omega]
    exact h
  | cons iov rest ih =>
    obtain ⟨data, fault⟩ := iov
    have hlen : min data.length (payloadLength iovs - ret) ≤ payloadLength iovs - ret :=
      Nat.min_le_right _ _
    have hsum : vectorLength (⟨data, fault⟩ :: rest) = data.length + vectorLength rest := by
      simp [vectorLength]
    -- What is left of the vector after its first element.
    have hrest : ∀ i, ret + min data.length (payloadLength iovs - ret) + i < payloadLength iovs →
        vectorBytes iovs (ret + min data.length (payloadLength iovs - ret) + i) =
          vectorBytes rest i := by
      intro i hi
      have hwhole : min data.length (payloadLength iovs - ret) = data.length := by omega
      rw [hwhole] at hi ⊢
      rw [Nat.add_assoc, hbytes (data.length + i) (by omega), vectorBytes, if_neg (by simp)]
      simp
    simp only [writeSegments, doWriteLogFromUser]
    cases fault with
    | some bytes =>
      simp only
      split_ifs with hzero
      · simp only
        have hnext := ih h hret (by rw [hzero] at hrest; simpa using hrest)
        rw [hzero, Nat.add_zero, hsum]
        refine ⟨hnext.1, fun hok => ?_⟩
        have hdone := hnext.2 hok
        rwa [show min (ret + (data.length + vectorLength rest)) (payloadLength iovs) =
          min (ret + vectorLength rest) (payloadLength iovs) by omega]
      simp only
      have hroom := entry_room iovs
      have hpos := hsize.le
      have heq := h.outside.size
      simp only [entryMaxLen] at hroom
      have hhere : log'.wOff = (orig + (headerLength + ret)) % log'.size := by
        rw [heq]
        exact h.wOff
      exact ⟨h.outside.trans (outside_garble (heq ▸ hsize) hhere (by omega) (by omega)),
        fun hok => absurd hok (by simp)⟩
    | none =>
      simp only
      have hlength : (data.take (min data.length (payloadLength iovs - ret))).length =
          min data.length (payloadLength iovs - ret) := by
        simp only [Chunk.take]
        omega
      have hpiece := h.piece hsize horig
        (data.take (min data.length (payloadLength iovs - ret)))
        (by rw [hlength]; omega) (by
          intro i hi
          rw [hlength] at hi
          rw [hbytes i (by omega), vectorBytes, if_pos (by simp only; omega)]
          rfl)
      rw [hlength] at hpiece
      have hnext := ih hpiece (by omega) hrest
      refine ⟨hnext.1, fun hok => ?_⟩
      have hdone := hnext.2 hok
      rw [hsum]
      rwa [show min (ret + (data.length + vectorLength rest)) (payloadLength iovs) =
        min (ret + min data.length (payloadLength iovs - ret) + vectorLength rest)
          (payloadLength iovs) by omega]

/-- What `logger_aio_write` does, entered at the current write offset: it fixes up the readers,
touches only the bytes of the entry, and either leaves the entry or keeps the write offset. -/
theorem aio_write_spec (hsize : RingSize log.size) (hwOff : log.wOff < log.size)
    (h : payloadLength iovs ≠ 0) (stamp : Nat → UInt8) :
    let fixed := fixUpReaders log (headerLength + payloadLength iovs)
    let result := loggerAioWrite log log.wOff stamp iovs
    Outside fixed result.1 log.wOff (headerLength + payloadLength iovs) ∧
      (result.2 = false → result.1.wOff = log.wOff) ∧
      (result.2 = true →
        result.1.wOff = (log.wOff + (headerLength + payloadLength iovs)) % log.size ∧
          Holds log.size result.1.buffer log.wOff (writtenEntry stamp iovs h).toChunk) := by
  have hroom := entry_room iovs
  have hpos := hsize.le
  simp only [entryMaxLen] at hroom
  have hstart : Partial (fixUpReaders log (headerLength + payloadLength iovs))
      (doWriteLog (fixUpReaders log (headerLength + payloadLength iovs))
        (entryHeader (payloadLength iovs) stamp)) log.wOff stamp iovs 0 := by
    have hhere : log.wOff = (log.wOff + 0) % log.size := (Nat.mod_eq_of_lt hwOff).symm
    refine ⟨outside_put hsize hhere (by simp [entryHeader])
      (show headerLength + payloadLength iovs ≤ log.size by omega), offset_eq_mod hsize _, ?_⟩
    intro i hi
    have hlt : i < headerLength := by simpa [entryPrefix] using hi
    have hput : Holds log.size
        (put log.size log.buffer log.wOff (entryHeader (payloadLength iovs) stamp)) log.wOff
          (entryHeader (payloadLength iovs) stamp) :=
      holds_put hwOff (by simp only [entryHeader]; omega)
    simp only [entryPrefix, if_pos hlt]
    exact hput i hlt
  have hfixed : RingSize (fixUpReaders log (headerLength + payloadLength iovs)).size := hsize
  have hloop := write_segments_spec hfixed hwOff hstart (Nat.zero_le _)
    (show ∀ i, 0 + i < payloadLength iovs → vectorBytes iovs (0 + i) = vectorBytes iovs i from
      fun i _ => by rw [Nat.zero_add])
  rw [Nat.zero_add, show min (vectorLength iovs) (payloadLength iovs) = payloadLength iovs by
    simp only [payloadLength]; omega] at hloop
  obtain ⟨houtside, hdone⟩ := hloop
  simp only [loggerAioWrite, if_neg h]
  split
  · rename_i written hwritten
    rw [hwritten] at houtside hdone
    refine ⟨houtside, fun hfail => Bool.noConfusion hfail, fun _ => ?_⟩
    exact ⟨(hdone rfl).wOff, (hdone rfl).holds⟩
  · rename_i written hwritten
    rw [hwritten] at houtside
    exact ⟨⟨houtside.size, houtside.head, houtside.readers, houtside.buffer⟩, fun _ => rfl,
      fun hok => Bool.noConfusion hok⟩

end AndroidKernel.Logger
