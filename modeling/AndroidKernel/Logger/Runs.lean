import AndroidKernel.Library.Runs
import AndroidKernel.Logger.Writes
import Mathlib.Data.List.Nodup

/-!
# Runs of the log device

Runs are traced with the entries completely written so far and, for `head` and every reader, the
number of the entry its offset stands at. Every offset stays at an entry boundary, a read returns
exactly the next entry, and an entry a reader does not read has been flushed or was passed over
when a write lapped the reader.
-/

namespace AndroidKernel.Logger

open Library Library.Ring

/-- A log with the entries written to it, oldest first. `next` is the number of the entry a
reader stands at and `first` the one it was opened at; `got` are the numbers of the entries it
has read and `lost` of those it was moved past. -/
structure Traced where
  log : Log
  entries : List Entry
  headNext : Nat
  first : Nat → Nat
  next : Nat → Nat
  got : Nat → List Nat
  lost : Nat → List Nat

/-- The offset of the reader with this id. -/
def Log.rOffOf (log : Log) (id : Nat) : Option Nat :=
  (log.readers.find? (·.id = id)).map Reader.rOff

namespace Traced

/-- The entries from number `k` on. -/
def remaining (t : Traced) (k : Nat) : List Entry := t.entries.drop k

/-- The number of entries a write of `len` bytes moves a reader past. -/
def pulledBy (t : Traced) (len id : Nat) : Nat :=
  match t.log.rOffOf id with
  | some off => pulled t.log len off (t.remaining (t.next id))
  | none => 0

/-- A reader gets the next entry. -/
def advance (t : Traced) (id : Nat) (log : Log) : Traced :=
  { t with
    log
    next := Function.update t.next id (t.next id + 1)
    got := Function.update t.got id (t.next id :: t.got id) }

/-- Every reader, and `head`, is moved past some entries. -/
def skip (t : Traced) (log : Log) (entries : List Entry) (headSkip : Nat) (readerSkip : Nat → Nat) :
    Traced :=
  { t with
    log, entries
    headNext := t.headNext + headSkip
    next := fun id => t.next id + readerSkip id
    lost := fun id => List.range' (t.next id) (readerSkip id) ++ t.lost id }

/-- The traced log after a call that leads to `log`. -/
def after (t : Traced) (log : Log) : Op → Traced
  | .openRead id =>
    { t with
      log
      first := Function.update t.first id t.headNext
      next := Function.update t.next id t.headNext
      got := Function.update t.got id []
      lost := Function.update t.lost id [] }
  | .read id count fault =>
    match (t.log.rOffOf id).map fun off => (loggerRead t.log off count fault).2 with
    | some (.bytes _) => t.advance id log
    | _ => { t with log }
  | .write stamp iovs =>
    if h : payloadLength iovs = 0 then { t with log }
    else
      let len := headerLength + payloadLength iovs
      t.skip log
        (if (loggerAioWrite t.log t.log.wOff stamp iovs).2 then
          t.entries ++ [writtenEntry stamp iovs h] else t.entries)
        (pulled t.log len t.log.head (t.remaining t.headNext)) (t.pulledBy len)
  | .flush =>
    t.skip log t.entries (t.entries.length - t.headNext) fun id => t.entries.length - t.next id
  | .release _ | .poll _ => { t with log }

/-- The empty log. -/
def start (size : Nat) : Traced :=
  ⟨emptyLog size, [], 0, fun _ => 0, fun _ => 0, fun _ => [], fun _ => []⟩

/-- The traced log after some calls. -/
def run (t : Traced) : List Op → Option Traced
  | [] => some t
  | op :: ops => (step t.log op).bind fun log => (t.after log op).run ops

end Traced

/-- The transitions of traced runs. -/
def TracedStep (t : Traced) (op : Op) (u : Traced) : Prop :=
  ∃ log, step t.log op = some log ∧ u = t.after log op

/-! ## The invariant -/

variable {t : Traced} {log : Log} {off : Nat} {entries : List Entry}

/-- What holds of one reader. -/
structure Tracked (t : Traced) (reader : Reader) : Prop where
  next_le : t.next reader.id ≤ t.entries.length
  boundary : Boundary t.log reader.rOff (t.remaining (t.next reader.id))
  got_sorted : (t.got reader.id).Pairwise (· > ·)
  got_lt : ∀ i ∈ t.got reader.id, i < t.next reader.id
  covered : ∀ i, t.first reader.id ≤ i → i < t.next reader.id →
    i ∈ t.got reader.id ∨ i ∈ t.lost reader.id

/-- The invariant of traced runs. -/
structure Inv (t : Traced) : Prop where
  size : RingSize t.log.size
  wOff : t.log.wOff < t.log.size
  ids : (t.log.readers.map Reader.id).Nodup
  headNext_le : t.headNext ≤ t.entries.length
  head : Boundary t.log t.log.head (t.remaining t.headNext)
  readers : ∀ reader ∈ t.log.readers, Tracked t reader

theorem Inv.r_off_of_eq (h : Inv t) {reader : Reader} (hmem : reader ∈ t.log.readers) :
    t.log.rOffOf reader.id = some reader.rOff := by
  have hunique : ∀ other ∈ t.log.readers, other.id = reader.id → other = reader :=
    fun other hother heq => List.inj_on_of_nodup_map h.ids hother hmem heq
  rw [Log.rOffOf]
  cases hfind : t.log.readers.find? (·.id = reader.id) with
  | none => exact absurd (List.find?_eq_none.mp hfind reader hmem) (by simp)
  | some found =>
    have heq : found.id = reader.id := by simpa using List.find?_some hfind
    rw [hunique found (List.mem_of_find?_eq_some hfind) heq]
    rfl

/-- A boundary of one log is one of another with the same bytes and write offset. -/
theorem Boundary.same_ring (h : Boundary log off entries) {log' : Log}
    (hsize : log'.size = log.size) (hwOff : log'.wOff = log.wOff)
    (hbuffer : log'.buffer = log.buffer) : Boundary log' off entries :=
  ⟨hsize ▸ h.off_lt, hsize ▸ h.total_lt,
    h.laid.congr hsize hwOff fun i _ => by rw [hbuffer]⟩

/-- The write offset is a boundary with nothing behind it. -/
theorem boundary_w_off (hwOff : log.wOff < log.size) : Boundary log log.wOff [] :=
  ⟨hwOff, Nat.zero_lt_of_lt hwOff, rfl⟩

/-! ## Reads -/

/-- The two chunks have the same bytes. -/
def SameBytes (first second : Chunk UInt8) : Prop :=
  first.length = second.length ∧ ∀ i, i < second.length → first.get i = second.get i

/-- The bytes copied to the user are those of the entry. -/
theorem read_bytes_same (hoff : off < log.size) {entry : Entry} (hlen : entry.length ≤ log.size)
    (h : Holds log.size log.buffer off entry.toChunk) :
    SameBytes (readBytes log off entry.length) entry.toChunk := by
  refine ⟨rfl, ?_⟩
  intro i hi
  have hcell := h i hi
  rw [offset_eq hoff (by omega)] at hcell
  rw [← hcell]
  simp only [readBytes]
  by_cases hwrap : off + i < log.size
  · rw [if_pos (by omega), if_pos hwrap]
  · rw [if_neg (by omega), if_neg hwrap]
    congr 1
    omega

/-- What a read has to do at the boundary with these entries behind: it finds nothing, it leaves
the offset alone, or it returns the next entry whole and moves to the boundary behind it. -/
def ReadsNext (log : Log) (off count : Nat) (fault : Bool) : List Entry → Prop
  | [] => loggerRead log off count fault = (off, .empty)
  | entry :: rest =>
    if count < entry.length then loggerRead log off count fault = (off, .invalid)
    else if fault then loggerRead log off count fault = (off, .fault)
    else ∃ off' chunk, loggerRead log off count fault = (off', .bytes chunk) ∧
      SameBytes chunk entry.toChunk ∧ Boundary log off' rest

theorem Boundary.reads_next (h : Boundary log off entries) (hsize : RingSize log.size)
    (count : Nat) (fault : Bool) : ReadsNext log off count fault entries := by
  cases entries with
  | nil =>
    have hempty : log.wOff = off := (show off = log.wOff from h.laid).symm
    simp only [ReadsNext, loggerRead, if_pos hempty]
  | cons entry rest =>
    have hmin := hsize.le
    have hlen := entry.nonempty
    have hbound := entry.bounded
    simp only [entryMaxLen] at hbound
    have htotal := h.total_lt
    rw [total_cons] at htotal
    have hend := h.laid.end_eq h.off_lt
    rw [total_cons, offset_eq h.off_lt (by omega)] at hend
    have hne : log.wOff ≠ off := by
      intro heq
      rw [heq] at hend
      split_ifs at hend <;> omega
    have hentry := get_entry_len_eq hsize h.off_lt h.laid.1
    simp only [ReadsNext, loggerRead, if_neg hne, hentry]
    split_ifs with hcount hfault
    · rfl
    · rfl
    · refine ⟨_, _, rfl, read_bytes_same h.off_lt (by omega) h.laid.1, ?_⟩
      rw [offset_eq_mod hsize]
      exact ⟨Nat.mod_lt _ (by omega), by omega, h.laid.2⟩

/-! ## Steps -/

variable {op : Op}

/-- A call that changes neither the ring nor the trace, and readers only by dropping some. -/
theorem Inv.shrink (h : Inv t) {log : Log} (hsize : log.size = t.log.size)
    (hwOff : log.wOff = t.log.wOff) (hbuffer : log.buffer = t.log.buffer)
    (hhead : log.head = t.log.head) (hreaders : log.readers.Sublist t.log.readers) :
    Inv { t with log } := by
  refine ⟨hsize ▸ h.size, ?_, h.ids.sublist (hreaders.map _), h.headNext_le, ?_, ?_⟩
  · show log.wOff < log.size
    rw [hsize, hwOff]
    exact h.wOff
  · show Boundary log log.head _
    rw [hhead]
    exact h.head.same_ring hsize hwOff hbuffer
  · intro reader hmem
    obtain ⟨hnext, hboundary, hsorted, hlt, hcovered⟩ := h.readers reader (hreaders.subset hmem)
    exact ⟨hnext, hboundary.same_ring hsize hwOff hbuffer, hsorted, hlt, hcovered⟩

theorem Inv.open_file (h : Inv t) {id : Nat} (hfresh : ∀ reader ∈ t.log.readers, reader.id ≠ id) :
    Inv (t.after (loggerOpen t.log id) (.openRead id)) := by
  have hsame : ∀ reader ∈ t.log.readers, reader.id ≠ id := hfresh
  refine ⟨h.size, h.wOff, ?_, h.headNext_le, h.head.same_ring rfl rfl rfl, ?_⟩
  · simp only [Traced.after, loggerOpen, List.map_append, List.map_cons, List.map_nil]
    refine List.nodup_append.mpr ⟨h.ids, by simp, ?_⟩
    intro a ha b hb
    obtain ⟨reader, hmem, rfl⟩ := List.mem_map.mp ha
    cases List.mem_singleton.mp hb
    exact hfresh reader hmem
  intro reader hmem
  rcases List.mem_append.mp hmem with hmem | hmem
  · obtain ⟨hnext, hboundary, hsorted, hlt, hcovered⟩ := h.readers reader hmem
    have hne := hfresh reader hmem
    refine ⟨?_, ?_, ?_, ?_, ?_⟩ <;>
      simp only [Traced.after, Traced.remaining, Function.update_of_ne hne]
    · exact hnext
    · exact hboundary.same_ring rfl rfl rfl
    · exact hsorted
    · exact hlt
    · exact hcovered
  cases List.mem_singleton.mp hmem
  refine ⟨?_, ?_, ?_, ?_, ?_⟩ <;>
    simp only [Traced.after, Traced.remaining, Function.update_self]
  · exact h.headNext_le
  · exact h.head.same_ring rfl rfl rfl
  · exact List.Pairwise.nil
  · exact fun i hi => absurd hi List.not_mem_nil
  · intro i hlo hhi
    omega

/-- Moving every offset to a boundary further on, with the ring changed to suit. -/
theorem Inv.skip (h : Inv t) (readerOff : Nat → Nat) {entries : List Entry} {headSkip : Nat}
    {readerSkip : Nat → Nat} (hsize : log.size = t.log.size) (hwOff : log.wOff < log.size)
    (hreaders : log.readers =
      t.log.readers.map fun reader => { reader with rOff := readerOff reader.rOff })
    (hheadNext : t.headNext + headSkip ≤ entries.length)
    (hhead : Boundary log log.head (entries.drop (t.headNext + headSkip)))
    (hskip : ∀ reader ∈ t.log.readers,
      t.next reader.id + readerSkip reader.id ≤ entries.length ∧
        Boundary log (readerOff reader.rOff)
          (entries.drop (t.next reader.id + readerSkip reader.id))) :
    Inv (t.skip log entries headSkip readerSkip) := by
  refine ⟨hsize ▸ h.size, hwOff, ?_, hheadNext, hhead, ?_⟩
  · show (log.readers.map Reader.id).Nodup
    rw [hreaders, List.map_map]
    exact h.ids
  intro reader hmem
  change reader ∈ log.readers at hmem
  rw [hreaders] at hmem
  obtain ⟨old, hold, rfl⟩ := List.mem_map.mp hmem
  obtain ⟨-, -, hsorted, hlt, hcovered⟩ := h.readers old hold
  obtain ⟨hnext, hboundary⟩ := hskip old hold
  refine ⟨hnext, hboundary, hsorted, fun i hi => ?_, ?_⟩
  · have := hlt i hi
    show i < t.next old.id + readerSkip old.id
    omega
  · intro i hlo hhi
    change t.first old.id ≤ i at hlo
    change i < t.next old.id + readerSkip old.id at hhi
    by_cases hbefore : i < t.next old.id
    · exact (hcovered i hlo hbefore).imp_right fun hmem => List.mem_append_right _ hmem
    · right
      exact List.mem_append_left _ (List.mem_range'_1.mpr ⟨Nat.le_of_not_lt hbefore, hhi⟩)

theorem Inv.flush (h : Inv t) : Inv (t.after (loggerFlush t.log) .flush) := by
  have hall : ∀ k, k ≤ t.entries.length →
      t.entries.drop (k + (t.entries.length - k)) = [] := by
    intro k hk
    exact List.drop_eq_nil_of_le (by omega)
  have hend : Boundary (loggerFlush t.log) t.log.wOff [] := boundary_w_off h.wOff
  refine h.skip (fun _ => t.log.wOff) rfl h.wOff rfl
    (by have := h.headNext_le; omega) ?_ ?_
  · rw [hall _ h.headNext_le]
    exact hend
  · intro reader hmem
    have hnext := (h.readers reader hmem).next_le
    rw [hall _ hnext]
    exact ⟨by omega, hend⟩

/-- A boundary that a write does not reach is one after the write as well. -/
theorem Laid.after_write {fixed log' : Log} {len : Nat} (h : Laid fixed off entries)
    (hoff : off < fixed.size) (hclear : total entries + len < fixed.size)
    (houtside : Outside fixed log' fixed.wOff len) :
    Agree fixed.size fixed.buffer log'.buffer off (total entries) := by
  have hend := h.end_eq hoff
  have hback : ((fixed.wOff + len) % fixed.size + (fixed.size - len - total entries)) %
      fixed.size = off := by
    rw [← hend, offset_add, offset_add,
      show total entries + (len + (fixed.size - len - total entries)) = fixed.size by omega,
      Nat.add_mod_right, Nat.mod_eq_of_lt hoff]
  have hagree := houtside.buffer.sub
    (show fixed.size - len - total entries + total entries ≤ fixed.size - len by omega)
  rw [hback] at hagree
  exact hagree

/-- After a write the offsets `fix_up_readers` leaves are boundaries, with the new entry behind
them if the write succeeded. -/
theorem Boundary.write {iovs : List Iovec} (h : Boundary log off entries)
    (hsize : RingSize log.size) (hwOff : log.wOff < log.size) (hpayload : payloadLength iovs ≠ 0)
    (stamp : Nat → UInt8) :
    let len := headerLength + payloadLength iovs
    let result := loggerAioWrite log log.wOff stamp iovs
    Boundary result.1 (fixUp log len off)
      (entries.drop (pulled log len off entries) ++
        if result.2 then [writtenEntry stamp iovs hpayload] else []) := by
  obtain ⟨houtside, hfail, hdone⟩ := aio_write_spec hsize hwOff hpayload stamp
  obtain ⟨hlt, hlaid, hclear⟩ := h.fix_up hsize hwOff
    (show 0 < headerLength + payloadLength iovs by omega) (entry_room iovs)
  have hfixed : Laid (fixUpReaders log (headerLength + payloadLength iovs))
      (fixUp log (headerLength + payloadLength iovs) off)
      (entries.drop (pulled log (headerLength + payloadLength iovs) off entries)) :=
    hlaid.congr rfl rfl fun _ _ => rfl
  have hagree := hfixed.after_write hlt hclear houtside
  intro len result
  have hresult : result.1.size = log.size := houtside.size
  -- The log with the bytes of the write but the old write offset.
  have hmiddle : Laid { result.1 with wOff := log.wOff } (fixUp log len off)
      (entries.drop (pulled log len off entries)) := hlaid.congr hresult rfl hagree
  cases hok : result.2 with
  | false =>
    rw [if_neg (by simp), List.append_nil]
    refine ⟨hresult ▸ hlt, ?_, hmiddle.congr rfl (hfail hok) fun _ _ => rfl⟩
    rw [hresult]
    exact Nat.lt_of_le_of_lt (Nat.le_add_right _ _) hclear
  | true =>
    obtain ⟨hnew, hholds⟩ := hdone hok
    rw [if_pos rfl]
    refine ⟨hresult ▸ hlt, ?_, hmiddle.snoc rfl rfl ?_ ?_⟩
    · rw [hresult, total_append, total_cons, total_nil]
      exact hclear
    · show result.1.wOff = (log.wOff + len) % result.1.size
      rw [hresult]
      exact hnew
    · show Holds result.1.size result.1.buffer log.wOff _
      rw [hresult]
      exact hholds

theorem pulled_le {len : Nat} : pulled log len off entries ≤ entries.length := by
  rw [pulled]
  split_ifs
  · exact passed_le_length
  · exact Nat.zero_le _

/-- The numbers of a boundary after a write. -/
theorem drop_after_write {k skipped : Nat} {new : List Entry} (hk : k ≤ entries.length)
    (hskipped : skipped ≤ (entries.drop k).length) :
    k + skipped ≤ (entries ++ new).length ∧
      (entries ++ new).drop (k + skipped) = (entries.drop k).drop skipped ++ new := by
  rw [List.length_drop] at hskipped
  refine ⟨by rw [List.length_append]; omega, ?_⟩
  rw [List.drop_append_of_le_length (by omega), List.drop_drop]

theorem Inv.write (h : Inv t) (stamp : Nat → UInt8) (iovs : List Iovec) :
    Inv (t.after (loggerAioWrite t.log t.log.wOff stamp iovs).1 (.write stamp iovs)) := by
  by_cases hpayload : payloadLength iovs = 0
  · simp only [Traced.after, dif_pos hpayload, loggerAioWrite, if_pos hpayload]
    exact h
  simp only [Traced.after, dif_neg hpayload]
  obtain ⟨houtside, hfail, hdone⟩ := aio_write_spec h.size h.wOff hpayload stamp
  have hnew : ∀ entries : List Entry,
      (if (loggerAioWrite t.log t.log.wOff stamp iovs).2 then
        entries ++ [writtenEntry stamp iovs hpayload] else entries) =
      entries ++ (if (loggerAioWrite t.log t.log.wOff stamp iovs).2 then
        [writtenEntry stamp iovs hpayload] else []) := by
    intro entries
    split_ifs <;> simp
  rw [hnew]
  have hpos := h.size.le
  refine h.skip (fixUp t.log (headerLength + payloadLength iovs)) houtside.size ?_
    houtside.readers ?_ ?_ ?_
  · rw [houtside.size]
    cases hok : (loggerAioWrite t.log t.log.wOff stamp iovs).2 with
    | false =>
      rw [hfail hok]
      exact h.wOff
    | true =>
      rw [(hdone hok).1]
      exact Nat.mod_lt _ (Nat.lt_of_lt_of_le (by decide) hpos)
  · exact (drop_after_write h.headNext_le pulled_le).1
  · rw [houtside.head, Traced.remaining, (drop_after_write h.headNext_le pulled_le).2]
    exact h.head.write h.size h.wOff hpayload stamp
  intro reader hmem
  have hpulled : t.pulledBy (headerLength + payloadLength iovs) reader.id =
      pulled t.log (headerLength + payloadLength iovs) reader.rOff
        (t.remaining (t.next reader.id)) := by
    simp only [Traced.pulledBy, h.r_off_of_eq hmem]
  have hreader := h.readers reader hmem
  rw [hpulled, Traced.remaining, (drop_after_write hreader.next_le pulled_le).2]
  exact ⟨(drop_after_write hreader.next_le pulled_le).1,
    hreader.boundary.write h.size h.wOff hpayload stamp⟩

/-- A read that leaves every offset alone leaves the log alone. -/
theorem read_file_eq {id count : Nat} {fault : Bool}
    (h : ∀ reader ∈ log.readers, reader.id = id →
      (loggerRead log reader.rOff count fault).1 = reader.rOff) :
    readFile log id count fault = log := by
  have hsame : (log.readers.map fun reader =>
      if reader.id = id then { reader with rOff := (loggerRead log reader.rOff count fault).1 }
      else reader) = log.readers := by
    conv_rhs => rw [← List.map_id log.readers]
    refine List.map_congr_left fun reader hmem => ?_
    split_ifs with hid
    · rw [h reader hmem hid]
      rfl
    · rfl
  rw [readFile, hsame]

theorem Inv.advance (h : Inv t) {reader : Reader} (hmem : reader ∈ t.log.readers) {entry : Entry}
    {rest : List Entry} (hnext : t.remaining (t.next reader.id) = entry :: rest) {count : Nat}
    {fault : Bool}
    (hread : Boundary t.log (loggerRead t.log reader.rOff count fault).1 rest) :
    Inv (t.advance reader.id (readFile t.log reader.id count fault)) := by
  have hlength : t.next reader.id < t.entries.length := by
    by_contra hle
    rw [Traced.remaining, List.drop_eq_nil_of_le (by omega)] at hnext
    cases hnext
  have hrest : t.remaining (t.next reader.id + 1) = rest := by
    rw [Traced.remaining, ← List.drop_drop, show t.entries.drop (t.next reader.id) = _ from hnext]
    rfl
  refine ⟨h.size, h.wOff, ?_, h.headNext_le, h.head.same_ring rfl rfl rfl, ?_⟩
  · show ((t.log.readers.map _).map Reader.id).Nodup
    rw [List.map_map]
    have hids : (Reader.id ∘ fun other => if other.id = reader.id then
        { other with rOff := (loggerRead t.log other.rOff count fault).1 } else other) =
          Reader.id := by
      funext other
      simp only [Function.comp]
      split_ifs <;> rfl
    rw [hids]
    exact h.ids
  intro changed hchanged
  obtain ⟨old, hold, rfl⟩ := List.mem_map.mp hchanged
  obtain ⟨hle, hboundary, hsorted, hlt, hcovered⟩ := h.readers old hold
  by_cases hid : old.id = reader.id
  · have heq : old = reader := List.inj_on_of_nodup_map h.ids hold hmem hid
    subst heq
    rw [if_pos rfl]
    refine ⟨?_, ?_, ?_, ?_, ?_⟩ <;>
      simp only [Traced.advance, Traced.remaining, Function.update_self]
    · exact hlength
    · rw [show t.entries.drop (t.next old.id + 1) = rest from hrest]
      exact hread.same_ring rfl rfl rfl
    · exact List.pairwise_cons.mpr ⟨hlt, hsorted⟩
    · intro i hi
      rcases List.mem_cons.mp hi with heq | hi
      · omega
      · have := hlt i hi
        omega
    · intro i hlo hhi
      by_cases heq : i = t.next old.id
      · exact .inl (heq ▸ List.mem_cons_self)
      · exact (hcovered i hlo (by omega)).imp_left (List.mem_cons_of_mem _)
  rw [if_neg hid]
  refine ⟨?_, ?_, ?_, ?_, ?_⟩ <;>
    simp only [Traced.advance, Traced.remaining, Function.update_of_ne hid]
  · exact hle
  · exact hboundary.same_ring rfl rfl rfl
  · exact hsorted
  · exact hlt
  · exact hcovered

theorem Inv.read (h : Inv t) (id count : Nat) (fault : Bool) :
    Inv (t.after (readFile t.log id count fault) (.read id count fault)) := by
  by_cases hopen : ∃ reader ∈ t.log.readers, reader.id = id
  · obtain ⟨reader, hmem, rfl⟩ := hopen
    have hreader := h.readers reader hmem
    have hread := hreader.boundary.reads_next h.size count fault
    have hunchanged : ∀ result, loggerRead t.log reader.rOff count fault = (reader.rOff, result) →
        readFile t.log reader.id count fault = t.log := by
      intro result heq
      refine read_file_eq fun other hother hid => ?_
      rw [List.inj_on_of_nodup_map h.ids hother hmem hid, heq]
    simp only [Traced.after, h.r_off_of_eq hmem, Option.map_some]
    cases hnext : t.remaining (t.next reader.id) with
    | nil =>
      rw [hnext] at hread
      rw [hunchanged _ hread, hread]
      exact h
    | cons entry rest =>
      rw [hnext] at hread
      simp only [ReadsNext] at hread
      split_ifs at hread with hcount hfault
      · rw [hunchanged _ hread, hread]
        exact h
      · rw [hunchanged _ hread, hread]
        exact h
      · obtain ⟨off', chunk, heq, -, hboundary⟩ := hread
        have hnew : Boundary t.log (loggerRead t.log reader.rOff count fault).1 rest := by
          rw [heq]
          exact hboundary
        rw [heq]
        exact h.advance hmem hnext hnew
  have hnone : ∀ reader ∈ t.log.readers, reader.id ≠ id :=
    fun reader hmem heq => hopen ⟨reader, hmem, heq⟩
  have hfind : t.log.rOffOf id = none := by
    rw [Log.rOffOf, List.find?_eq_none.mpr (by simpa using hnone)]
    rfl
  simp only [Traced.after, hfind, Option.map_none]
  rw [read_file_eq fun reader hmem heq => absurd heq (hnone reader hmem)]
  exact h

theorem step_inv (h : Inv t) (hstep : step t.log op = some log) : Inv (t.after log op) := by
  cases op with
  | openRead id =>
    simp only [step] at hstep
    split_ifs at hstep with hused
    cases hstep
    exact h.open_file (by simpa using hused)
  | release id =>
    cases hstep
    exact h.shrink rfl rfl rfl rfl List.filter_sublist
  | read id count fault =>
    cases hstep
    exact h.read id count fault
  | poll id =>
    cases hstep
    exact h
  | write stamp iovs =>
    cases hstep
    exact h.write stamp iovs
  | flush =>
    cases hstep
    exact h.flush

/-- The invariant holds in every state a run reaches. -/
theorem reaches_inv {size : Nat} (hsize : RingSize size)
    (hrun : Reaches TracedStep anyStep (Traced.start size) t) : Inv t := by
  have hpos : 0 < size := Nat.lt_of_lt_of_le (by decide) hsize.le
  refine hrun.invariant Inv ?_ ?_
  · intro s op t hinv _ hstep
    obtain ⟨log, hstep, rfl⟩ := hstep
    exact step_inv hinv hstep
  · exact ⟨hsize, hpos, List.nodup_nil, Nat.le_refl 0, boundary_w_off hpos,
      fun reader hmem => absurd hmem List.not_mem_nil⟩

/-! ## The ring -/

/-- Adding `get_entry_len` again and again from `off` on meets exactly these entries, byte by
byte, and lands on the write offset. -/
def Walk (log : Log) : Nat → List Entry → Prop
  | off, [] => off = log.wOff
  | off, entry :: rest =>
    getEntryLen log off = entry.length ∧
      SameBytes (readBytes log off (getEntryLen log off)) entry.toChunk ∧
        Walk log (log.offset (off + getEntryLen log off)) rest

theorem Boundary.walk (h : Boundary log off entries) (hsize : RingSize log.size) :
    Walk log off entries := by
  have hmin := hsize.le
  induction entries generalizing off with
  | nil => exact h.laid
  | cons entry rest ih =>
    have hbound := entry.bounded
    simp only [entryMaxLen] at hbound
    have htotal := h.total_lt
    rw [total_cons] at htotal
    rw [Walk, get_entry_len_eq hsize h.off_lt h.laid.1, offset_eq_mod hsize]
    exact ⟨rfl, read_bytes_same h.off_lt (by omega) h.laid.1,
      ih ⟨Nat.mod_lt _ (by omega), by omega, h.laid.2⟩⟩

/-- The offset is an entry boundary: the walk from it meets the entries from number `k` on, the
most recent ones, without going around the ring. -/
def AtEntry (t : Traced) (off k : Nat) : Prop :=
  Walk t.log off (t.remaining k) ∧ total (t.remaining k) < t.log.size

/-- The call is a write that laps the reader. -/
def Lapped (t : Traced) (id : Nat) : Op → Prop
  | .write _ iovs => ∃ reader ∈ t.log.readers, reader.id = id ∧
      clockInterval t.log.wOff
        (t.log.offset (t.log.wOff + (headerLength + payloadLength iovs))) reader.rOff = true
  | _ => False

/-- A reader loses entries only to a flush or to a write that laps it. -/
theorem lost_step {u : Traced} (hstep : TracedStep t op u) {id i : Nat} (hlost : i ∈ u.lost id) :
    i ∈ t.lost id ∨ op = .flush ∨ Lapped t id op := by
  obtain ⟨log, -, rfl⟩ := hstep
  cases op with
  | openRead other =>
    simp only [Traced.after] at hlost
    by_cases heq : id = other
    · subst heq
      simp at hlost
    · rw [Function.update_of_ne heq] at hlost
      exact .inl hlost
  | release other => exact .inl hlost
  | read other count fault =>
    simp only [Traced.after] at hlost
    split at hlost <;> exact .inl hlost
  | poll other => exact .inl hlost
  | write stamp iovs =>
    by_cases hpayload : payloadLength iovs = 0
    · rw [Traced.after, dif_pos hpayload] at hlost
      exact .inl hlost
    rw [Traced.after, dif_neg hpayload] at hlost
    rcases List.mem_append.mp hlost with hlost | hlost
    · refine .inr (.inr ?_)
      have hpos : 0 < t.pulledBy (headerLength + payloadLength iovs) id := by
        have := List.mem_range'_1.mp hlost
        omega
      simp only [Traced.pulledBy, Log.rOffOf] at hpos
      cases hfind : t.log.readers.find? (·.id = id) with
      | none => simp [hfind] at hpos
      | some reader =>
        rw [hfind] at hpos
        simp only [Option.map_some, pulled] at hpos
        refine ⟨reader, List.mem_of_find?_eq_some hfind,
          by simpa using List.find?_some hfind, ?_⟩
        by_contra hnot
        rw [if_neg hnot] at hpos
        exact Nat.lt_irrefl 0 hpos
    · exact .inl hlost
  | flush => exact .inr (.inl rfl)

/-- Executing calls is a run. -/
theorem Traced.reaches_of_run (t : Traced) (ops : List Op) {u : Traced}
    (hrun : t.run ops = some u) : Reaches TracedStep anyStep t u := by
  induction ops generalizing t with
  | nil =>
    cases hrun
    exact Reaches.refl _
  | cons op ops ih =>
    obtain ⟨log, hstep, hrest⟩ := Option.bind_eq_some_iff.mp hrun
    exact Relation.ReflTransGen.trans
      ((Reaches.refl t).tail ⟨log, hstep, rfl⟩ trivial) (ih _ hrest)

/-- A write of `count` bytes. -/
def writeBytes (count : Nat) : Op := .write (fun _ => 0) [⟨⟨count, fun _ => 7⟩, none⟩]

/-- The write replaces a byte of entry number `i`, seen from a reader that has it before it. -/
def Overwritten (t : Traced) (id i : Nat) : Op → Prop
  | .write _ iovs => ∃ reader ∈ t.log.readers, reader.id = id ∧
      ∃ entry, t.entries[i]? = some entry ∧ ∃ j m, j < entry.length ∧
        m < headerLength + payloadLength iovs ∧
          (reader.rOff + total ((t.remaining (t.next id)).take (i - t.next id)) + j) % t.log.size =
            (t.log.wOff + m) % t.log.size
  | _ => False

/-- Three entries of 21 bytes and fifteen of 4096 before a reader at offset 0. -/
def fillLog : List Op :=
  [.openRead 0, writeBytes 1, writeBytes 1, writeBytes 1] ++ List.replicate 15 (writeBytes 4076)

end AndroidKernel.Logger
