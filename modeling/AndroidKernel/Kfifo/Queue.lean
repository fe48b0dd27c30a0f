import AndroidKernel.Kfifo.Model

/-!
# Nothing is lost

Read `kfifo_lossless` first. Its invariant is `Consistent`: the bytes between the two counters are
the accepted bytes that have not been returned, and each side is between its own counter and the
place that the other side's counter had when it was sampled.
-/

namespace AndroidKernel.Kfifo

open Library Library.Ring

universe u

variable {α : Type u}

/-! ## Bytes and counters -/

theorem length_bytes (memory : Nat → α) (len : Nat) : (bytes memory len).length = len := by
  rw [bytes, List.length_map, List.length_range]

theorem bytes_congr {memory memory' : Nat → α} {len : Nat}
    (h : ∀ i < len, memory i = memory' i) : bytes memory len = bytes memory' len := by
  refine List.map_congr_left ?_
  intro i hi
  exact h i (List.mem_range.mp hi)

theorem bytes_add (memory : Nat → α) (m n : Nat) :
    bytes memory (m + n) = bytes memory m ++ bytes (fun i => memory (m + i)) n := by
  rw [bytes, List.range_add, List.map_append, List.map_map]
  rfl

variable {fifo : Kfifo α} {s : System α}

/-- The sizes for which the indices may wrap. -/
def PowerOfTwo (size : Nat) : Prop :=
  ∃ k < 32, size = 2 ^ k

theorem PowerOfTwo.pos {size : Nat} (h : PowerOfTwo size) : 0 < size := by
  obtain ⟨k, _, rfl⟩ := h
  exact Nat.two_pow_pos k

theorem PowerOfTwo.le {size : Nat} (h : PowerOfTwo size) : size ≤ 2 ^ 31 := by
  obtain ⟨k, hk, rfl⟩ := h
  exact Nat.pow_le_pow_right (by omega) (by omega)

theorem offset_eq_mod (h : PowerOfTwo fifo.size) (n : Nat) :
    fifo.offset (n % word) = n % fifo.size := by
  obtain ⟨k, hk, hsize⟩ := h
  have hdvd : 2 ^ k ∣ word := Nat.pow_dvd_pow 2 (by omega)
  rw [Kfifo.offset, hsize, Nat.and_two_pow_sub_one_eq_mod, Nat.mod_mod_of_dvd n hdvd]

/-- The byte that the counter value `n` stands for. -/
def Kfifo.cell (fifo : Kfifo α) (n : Nat) : α :=
  fifo.buffer (n % fifo.size)

/-- The counters of a queue that has taken in `a` bytes and given out `r` of them. -/
structure Counts (fifo : Kfifo α) (a r : Nat) : Prop where
  size : PowerOfTwo fifo.size
  inIndex : fifo.inIndex = a % word
  outIndex : fifo.outIndex = r % word
  le : r ≤ a
  fits : a ≤ r + fifo.size

variable {a r : Nat}

theorem Counts.used (h : Counts fifo a r) : fifo.used = a - r := by
  have hsize := h.size.le
  have hle := h.le
  have hfits := h.fits
  rw [Kfifo.used, h.inIndex, h.outIndex]
  simp only [wsub, word] at *
  omega

theorem Counts.room (h : Counts fifo a r) : fifo.room = fifo.size - (a - r) := by
  have hsize := h.size.le
  have hle := h.le
  have hfits := h.fits
  rw [Kfifo.room, h.inIndex, h.outIndex]
  simp only [wadd, wsub, word] at *
  omega

theorem Counts.offset_in (h : Counts fifo a r) : fifo.offset fifo.inIndex = a % fifo.size := by
  rw [h.inIndex, offset_eq_mod h.size]

theorem Counts.offset_out (h : Counts fifo a r) : fifo.offset fifo.outIndex = r % fifo.size := by
  rw [h.outIndex, offset_eq_mod h.size]

theorem Counts.putPublish (h : Counts fifo a r) {len : Nat} (hlen : a + len ≤ r + fifo.size) :
    Counts (fifo.putPublish len) (a + len) r := by
  refine ⟨h.size, ?_, h.outIndex, Nat.le_trans h.le (Nat.le_add_right a len), hlen⟩
  show wadd fifo.inIndex len = _
  rw [wadd, h.inIndex, Nat.mod_add_mod]

theorem Counts.getPublish (h : Counts fifo a r) {len : Nat} (hlen : r + len ≤ a) :
    Counts (fifo.getPublish len) a (r + len) := by
  have hfits := h.fits
  refine ⟨h.size, h.inIndex, ?_, hlen, ?_⟩
  · show wadd fifo.outIndex len = _
    rw [wadd, h.outIndex, Nat.mod_add_mod]
  · show a ≤ r + len + fifo.size
    omega

/-! ## Pieces -/

/-- The cells from `a` on after the first piece is put there. -/
theorem Counts.cell_putFirst (h : Counts fifo a r) (data : Chunk α) {i : Nat}
    (hi : i < fifo.size) :
    (fifo.putFirst data (fifo.putPiece data.length)).cell (a + i) =
      if i < fifo.putPiece data.length then data.get i else fifo.cell (a + i) := by
  have hoff := Nat.mod_lt a h.size.pos
  have hmem := @memcpy_take_apply _ fifo.size (a % fifo.size) fifo.buffer data i hoff hi
  rw [Nat.mod_add_mod] at hmem
  unfold Kfifo.putFirst Kfifo.putPiece Kfifo.cell
  rw [h.offset_in]
  exact hmem

/-- The cells from `a` on after the rest is put there. -/
theorem Counts.cell_putRest (h : Counts fifo a r) {data : Chunk α} (hlen : data.length ≤ fifo.size)
    {i : Nat} (hi : i < fifo.size) :
    (fifo.putRest data (fifo.putPiece data.length)).cell (a + i) =
      if fifo.putPiece data.length ≤ i ∧ i < data.length then data.get i
      else fifo.cell (a + i) := by
  have hoff := Nat.mod_lt a h.size.pos
  have hmem := @memcpy_drop_apply _ fifo.size (a % fifo.size) fifo.buffer data i hoff hlen hi
  rw [Nat.mod_add_mod] at hmem
  unfold Kfifo.putRest Kfifo.putPiece Kfifo.cell
  rw [h.offset_in]
  exact hmem

theorem Counts.getFirst (h : Counts fifo a r) (dest : Nat → α) {len i : Nat}
    (hi : i < fifo.getPiece len) :
    fifo.getFirst dest (fifo.getPiece len) i = fifo.cell (r + i) := by
  have hlt : i < 0 + fifo.getPiece len := by omega
  rw [Kfifo.getFirst, memcpy_of_mem (Nat.zero_le i) hlt]
  rw [Kfifo.getPiece, h.offset_out] at hi
  show fifo.buffer (fifo.offset fifo.outIndex + i) = fifo.buffer ((r + i) % fifo.size)
  rw [h.offset_out, mod_add_eq h.size.pos (by omega), if_pos (by omega)]

theorem Counts.getRest (h : Counts fifo a r) {dest : Nat → α} {len i : Nat}
    (hlen : len ≤ fifo.size) (hi : i < len)
    (hdest : ∀ i < fifo.getPiece len, dest i = fifo.cell (r + i)) :
    fifo.getRest dest len (fifo.getPiece len) i = fifo.cell (r + i) := by
  rw [Kfifo.getRest]
  by_cases hin : i < fifo.getPiece len
  · rw [memcpy_of_not_mem (.inl hin), hdest i hin]
  have hlt : i < fifo.getPiece len + (len - fifo.getPiece len) := by omega
  rw [memcpy_of_mem (Nat.not_lt.mp hin) hlt]
  have hoff := Nat.mod_lt r h.size.pos
  have hpiece : fifo.getPiece len = fifo.size - r % fifo.size := by
    rw [Kfifo.getPiece, h.offset_out] at hin ⊢
    omega
  rw [hpiece] at hin ⊢
  show fifo.buffer (i - (fifo.size - r % fifo.size)) = fifo.buffer ((r + i) % fifo.size)
  rw [mod_add_eq h.size.pos (by omega), if_neg (by omega)]
  refine congrArg fifo.buffer ?_
  omega

/-! ## The invariant -/

/-- A `put` transfers as much as it was asked to, as far as there is room. -/
def PutOk (size : Nat) (call : Call) : Prop :=
  call.len = min call.requested (size - wsub call.inIndex call.outIndex)

/-- A `get` transfers as much as it was asked to, as far as there is data. -/
def GetOk (call : Call) : Prop :=
  call.len = min call.requested (wsub call.inIndex call.outIndex)

/-- What a `put` has done so far. -/
def ProducerOk (fifo : Kfifo α) (a r : Nat) : Producer α → Prop
  | .idle => True
  | .sampled call data =>
    PutOk fifo.size call ∧ data.length = call.len ∧ a + call.len ≤ r + fifo.size
  | .first call data l =>
    PutOk fifo.size call ∧ data.length = call.len ∧ a + call.len ≤ r + fifo.size ∧
      l = fifo.putPiece call.len ∧ ∀ i < l, fifo.cell (a + i) = data.get i
  | .copied call data =>
    PutOk fifo.size call ∧ data.length = call.len ∧ a + call.len ≤ r + fifo.size ∧
      ∀ i < call.len, fifo.cell (a + i) = data.get i

/-- What a `get` has done so far. -/
def ConsumerOk (fifo : Kfifo α) (a r : Nat) : Consumer α → Prop
  | .idle => True
  | .sampled call _ => GetOk call ∧ r + call.len ≤ a
  | .first call dest l =>
    GetOk call ∧ r + call.len ≤ a ∧ l = fifo.getPiece call.len ∧
      ∀ i < l, dest i = fifo.cell (r + i)
  | .copied call dest =>
    GetOk call ∧ r + call.len ≤ a ∧ ∀ i < call.len, dest i = fifo.cell (r + i)

structure Consistent (s : System α) : Prop where
  counts : Counts s.fifo s.accepted.length s.returned.length
  queue : s.accepted = s.returned ++ bytes (fun i => s.fifo.cell (s.returned.length + i))
    (s.accepted.length - s.returned.length)
  producer : ProducerOk s.fifo s.accepted.length s.returned.length s.producer
  consumer : ConsumerOk s.fifo s.accepted.length s.returned.length s.consumer
  puts : ∀ call ∈ s.puts, PutOk s.fifo.size call
  gets : ∀ call ∈ s.gets, GetOk call
  accepted_length : s.accepted.length = (s.puts.map Call.len).sum
  returned_length : s.returned.length = (s.gets.map Call.len).sum

/-! ## The producer -/

/-- The counters are the same, and so are the bytes in the queue. -/
structure SameQueue (fifo fifo' : Kfifo α) (a r : Nat) : Prop where
  size : fifo'.size = fifo.size
  inIndex : fifo'.inIndex = fifo.inIndex
  outIndex : fifo'.outIndex = fifo.outIndex
  cell : ∀ i < a - r, fifo'.cell (r + i) = fifo.cell (r + i)

variable {fifo' : Kfifo α}

theorem SameQueue.counts (h : SameQueue fifo fifo' a r) (hc : Counts fifo a r) :
    Counts fifo' a r := by
  refine ⟨?_, h.inIndex.trans hc.inIndex, h.outIndex.trans hc.outIndex, hc.le, ?_⟩
  · rw [h.size]
    exact hc.size
  · rw [h.size]
    exact hc.fits

theorem SameQueue.getPiece (h : SameQueue fifo fifo' a r) (len : Nat) :
    fifo'.getPiece len = fifo.getPiece len := by
  unfold Kfifo.getPiece Kfifo.offset
  rw [h.size, h.outIndex]

theorem SameQueue.consumer (h : SameQueue fifo fifo' a r) {c : Consumer α}
    (hc : ConsumerOk fifo a r c) : ConsumerOk fifo' a r c := by
  cases c with
  | idle => trivial
  | sampled call dest => exact hc
  | first call dest l =>
    obtain ⟨hok, hlen, hl, hdest⟩ := hc
    refine ⟨hok, hlen, hl.trans (h.getPiece _).symm, ?_⟩
    intro i hi
    have hle : l ≤ call.len := by
      rw [hl]
      exact Nat.min_le_left _ _
    rw [h.cell i (by omega)]
    exact hdest i hi
  | copied call dest =>
    obtain ⟨hok, hlen, hdest⟩ := hc
    refine ⟨hok, hlen, ?_⟩
    intro i hi
    rw [h.cell i (by omega)]
    exact hdest i hi

/-- The queue lies behind what a `put` writes. -/
theorem cell_behind (fifo : Kfifo α) {i : Nat} (hc : Counts fifo a r) (hi : i < a - r) :
    fifo.cell (r + i) = fifo.cell (a + (fifo.size - (a - r) + i)) := by
  have hfits := hc.fits
  have hsum : a + (fifo.size - (a - r) + i) = r + i + fifo.size := by omega
  unfold Kfifo.cell
  rw [hsum, Nat.add_mod_right]

theorem Counts.sameQueue_putFirst (h : Counts fifo a r) {data : Chunk α}
    (hlen : a + data.length ≤ r + fifo.size) :
    SameQueue fifo (fifo.putFirst data (fifo.putPiece data.length)) a r := by
  have hc : Counts (fifo.putFirst data (fifo.putPiece data.length)) a r :=
    ⟨h.size, h.inIndex, h.outIndex, h.le, h.fits⟩
  refine ⟨rfl, rfl, rfl, ?_⟩
  intro i hi
  have hle : fifo.putPiece data.length ≤ data.length := Nat.min_le_left _ _
  rw [cell_behind fifo h hi, cell_behind _ hc hi]
  have hfits := h.fits
  show (fifo.putFirst data (fifo.putPiece data.length)).cell (a + (fifo.size - (a - r) + i)) = _
  rw [h.cell_putFirst data (by omega), if_neg (by omega)]

theorem Counts.sameQueue_putRest (h : Counts fifo a r) {data : Chunk α}
    (hlen : a + data.length ≤ r + fifo.size) :
    SameQueue fifo (fifo.putRest data (fifo.putPiece data.length)) a r := by
  have hc : Counts (fifo.putRest data (fifo.putPiece data.length)) a r :=
    ⟨h.size, h.inIndex, h.outIndex, h.le, h.fits⟩
  have hle := h.le
  refine ⟨rfl, rfl, rfl, ?_⟩
  intro i hi
  rw [cell_behind fifo h hi, cell_behind _ hc hi]
  have hfits := h.fits
  show (fifo.putRest data (fifo.putPiece data.length)).cell (a + (fifo.size - (a - r) + i)) = _
  rw [h.cell_putRest (by omega) (by omega), if_neg (by omega)]

/-- A piece is copied into the queue. -/
theorem Consistent.copied (h : Consistent s) {p : Producer α}
    (hsame : SameQueue s.fifo fifo' s.accepted.length s.returned.length)
    (hp : ProducerOk fifo' s.accepted.length s.returned.length p) :
    Consistent { s with fifo := fifo', producer := p } := by
  refine ⟨hsame.counts h.counts, ?_, hp, hsame.consumer h.consumer, ?_, h.gets, h.accepted_length,
    h.returned_length⟩
  · refine h.queue.trans (congrArg (s.returned ++ ·) (bytes_congr ?_))
    intro i hi
    exact (hsame.cell i hi).symm
  · show ∀ call ∈ s.puts, PutOk fifo'.size call
    rw [hsame.size]
    exact h.puts

/-- More bytes are in the queue. -/
theorem ConsumerOk.putPublish {c : Consumer α} (h : ConsumerOk fifo a r c) (len : Nat) :
    ConsumerOk (fifo.putPublish len) (a + len) r c := by
  cases c with
  | idle => trivial
  | sampled call dest => exact ⟨h.1, Nat.le_trans h.2 (Nat.le_add_right _ _)⟩
  | first call dest l => exact ⟨h.1, Nat.le_trans h.2.1 (Nat.le_add_right _ _), h.2.2⟩
  | copied call dest => exact ⟨h.1, Nat.le_trans h.2.1 (Nat.le_add_right _ _), h.2.2⟩

/-- The bytes that were copied are published. -/
theorem Consistent.publishPut (h : Consistent s) {call : Call} {data : Chunk α}
    (hok : PutOk s.fifo.size call)
    (hroom : s.accepted.length + call.len ≤ s.returned.length + s.fifo.size)
    (hcells : ∀ i < call.len, s.fifo.cell (s.accepted.length + i) = data.get i) :
    Consistent { s with fifo := s.fifo.putPublish call.len, producer := .idle
                        puts := s.puts ++ [call]
                        accepted := s.accepted ++ bytes data.get call.len } := by
  have hlength : (s.accepted ++ bytes data.get call.len).length =
      s.accepted.length + call.len := by
    rw [List.length_append, length_bytes]
  have hle := h.counts.le
  refine ⟨?_, ?_, trivial, ?_, ?_, h.gets, ?_, h.returned_length⟩
  · rw [hlength]
    exact h.counts.putPublish hroom
  · have hsplit : s.accepted.length + call.len - s.returned.length =
        s.accepted.length - s.returned.length + call.len := by omega
    show s.accepted ++ bytes data.get call.len = s.returned ++
      bytes (fun i => s.fifo.cell (s.returned.length + i))
        ((s.accepted ++ bytes data.get call.len).length - s.returned.length)
    rw [hlength, hsplit, bytes_add, ← List.append_assoc, ← h.queue]
    refine congrArg (s.accepted ++ ·) (bytes_congr ?_)
    intro i hi
    rw [← hcells i hi]
    refine congrArg s.fifo.cell ?_
    omega
  · rw [hlength]
    exact h.consumer.putPublish call.len
  · refine List.forall_mem_append.mpr ⟨h.puts, ?_⟩
    exact List.forall_mem_singleton.mpr hok
  · rw [hlength, h.accepted_length, List.map_append, List.sum_append]
    rfl

theorem Consistent.produce (h : Consistent s) : Consistent (Kfifo.produce s) := by
  unfold Kfifo.produce
  have hp := h.producer
  cases hproducer : s.producer with
  | idle => exact h
  | sampled call data =>
    rw [hproducer] at hp
    obtain ⟨hok, hlength, hroom⟩ := hp
    have hle := h.counts.le
    have hdata : s.accepted.length + data.length ≤ s.returned.length + s.fifo.size := by
      rw [hlength]
      exact hroom
    have hsame := h.counts.sameQueue_putFirst hdata
    dsimp only
    rw [← hlength]
    refine h.copied hsame ⟨hok, hlength, hroom, ?_, ?_⟩
    · rw [← hlength]
      rfl
    · intro i hi
      have hpiece : i < data.length := Nat.lt_of_lt_of_le hi (Nat.min_le_left _ _)
      rw [h.counts.cell_putFirst data (by omega), if_pos hi]
  | first call data l =>
    rw [hproducer] at hp
    obtain ⟨hok, hlength, hroom, hl, hcells⟩ := hp
    have hle := h.counts.le
    have hdata : s.accepted.length + data.length ≤ s.returned.length + s.fifo.size := by
      rw [hlength]
      exact hroom
    rw [← hlength] at hl
    subst hl
    have hsame := h.counts.sameQueue_putRest hdata
    refine h.copied hsame ⟨hok, hlength, hroom, ?_⟩
    intro i hi
    rw [h.counts.cell_putRest (by omega) (by omega)]
    split_ifs with hrest
    · rfl
    · exact hcells i (by omega)
  | copied call data =>
    rw [hproducer] at hp
    obtain ⟨hok, _, hroom, hcells⟩ := hp
    exact h.publishPut hok hroom hcells

/-! ## The consumer -/

/-- Fewer bytes are in the queue. -/
theorem ProducerOk.getPublish {p : Producer α} (h : ProducerOk fifo a r p) (len : Nat) :
    ProducerOk (fifo.getPublish len) a (r + len) p := by
  have hroom : ∀ {n : Nat}, a + n ≤ r + fifo.size → a + n ≤ r + len + fifo.size := by
    intro n hn
    omega
  cases p with
  | idle => trivial
  | sampled call data => exact ⟨h.1, h.2.1, hroom h.2.2⟩
  | first call data l => exact ⟨h.1, h.2.1, hroom h.2.2.1, h.2.2.2⟩
  | copied call data => exact ⟨h.1, h.2.1, hroom h.2.2.1, h.2.2.2⟩

/-- The bytes that were copied are given up. -/
theorem Consistent.publishGet (h : Consistent s) {call : Call} {dest : Nat → α}
    (hok : GetOk call) (hlen : s.returned.length + call.len ≤ s.accepted.length)
    (hdest : ∀ i < call.len, dest i = s.fifo.cell (s.returned.length + i)) :
    Consistent { s with fifo := s.fifo.getPublish call.len, consumer := .idle
                        gets := s.gets ++ [call]
                        returned := s.returned ++ bytes dest call.len } := by
  have hlength : (s.returned ++ bytes dest call.len).length = s.returned.length + call.len := by
    rw [List.length_append, length_bytes]
  refine ⟨?_, ?_, ?_, trivial, h.puts, ?_, h.accepted_length, ?_⟩
  · rw [hlength]
    exact h.counts.getPublish hlen
  · have hsplit : s.accepted.length - s.returned.length =
        call.len + (s.accepted.length - (s.returned.length + call.len)) := by omega
    show s.accepted = s.returned ++ bytes dest call.len ++
      bytes (fun i => s.fifo.cell ((s.returned ++ bytes dest call.len).length + i))
        (s.accepted.length - (s.returned ++ bytes dest call.len).length)
    rw [hlength, bytes_congr hdest, List.append_assoc]
    refine h.queue.trans (congrArg (s.returned ++ ·) ?_)
    rw [hsplit, bytes_add]
    refine congrArg (_ ++ ·) (bytes_congr ?_)
    intro i _
    rw [Nat.add_assoc]
  · rw [hlength]
    exact h.producer.getPublish call.len
  · refine List.forall_mem_append.mpr ⟨h.gets, ?_⟩
    exact List.forall_mem_singleton.mpr hok
  · rw [hlength, h.returned_length, List.map_append, List.sum_append]
    rfl

theorem Consistent.consume (h : Consistent s) : Consistent (Kfifo.consume s) := by
  unfold Kfifo.consume
  have hc := h.consumer
  have hfits := h.counts.fits
  cases hconsumer : s.consumer with
  | idle => exact h
  | sampled call dest =>
    rw [hconsumer] at hc
    obtain ⟨hok, hlen⟩ := hc
    refine ⟨h.counts, h.queue, h.producer, ⟨hok, hlen, rfl, ?_⟩, h.puts, h.gets,
      h.accepted_length, h.returned_length⟩
    intro i hi
    exact h.counts.getFirst dest hi
  | first call dest l =>
    rw [hconsumer] at hc
    obtain ⟨hok, hlen, rfl, hdest⟩ := hc
    refine ⟨h.counts, h.queue, h.producer, ⟨hok, hlen, ?_⟩, h.puts, h.gets,
      h.accepted_length, h.returned_length⟩
    intro i hi
    exact h.counts.getRest (by omega) hi hdest
  | copied call dest =>
    rw [hconsumer] at hc
    obtain ⟨hok, hlen, hdest⟩ := hc
    exact h.publishGet hok hlen hdest

/-! ## Runs -/

theorem Consistent.step (h : Consistent s) (op : Op α) : Consistent (Kfifo.step s op) := by
  have hle := h.counts.le
  have hfits := h.counts.fits
  cases op with
  | put data len =>
    unfold Kfifo.step
    cases hproducer : s.producer with
    | idle =>
      have hroom := h.counts.room
      have hused := h.counts.used
      refine ⟨h.counts, h.queue, ⟨?_, rfl, ?_⟩, h.consumer, h.puts, h.gets,
        h.accepted_length, h.returned_length⟩
      · show min len s.fifo.room = min len (s.fifo.size - s.fifo.used)
        rw [hroom, hused]
      · show s.accepted.length + min len s.fifo.room ≤ s.returned.length + s.fifo.size
        omega
    | sampled call data => exact h
    | first call data l => exact h
    | copied call data => exact h
  | get dest len =>
    unfold Kfifo.step
    cases hconsumer : s.consumer with
    | idle =>
      have hused := h.counts.used
      refine ⟨h.counts, h.queue, h.producer, ⟨rfl, ?_⟩, h.puts, h.gets,
        h.accepted_length, h.returned_length⟩
      show s.returned.length + min len s.fifo.used ≤ s.accepted.length
      omega
    | sampled call dest => exact h
    | first call dest l => exact h
    | copied call dest => exact h
  | producer => exact h.produce
  | consumer => exact h.consume

theorem consistent_initial (buffer : Nat → α) {size : Nat} (hsize : PowerOfTwo size) :
    Consistent (initial buffer size) :=
  ⟨⟨hsize, rfl, rfl, Nat.le_refl 0, Nat.zero_le _⟩, rfl, trivial, trivial, nofun, nofun, rfl, rfl⟩

/-- The size is never written. -/
theorem step_size (s : System α) (op : Op α) : (Kfifo.step s op).fifo.size = s.fifo.size := by
  cases op with
  | put data len =>
    unfold Kfifo.step
    cases s.producer <;> rfl
  | get dest len =>
    unfold Kfifo.step
    cases s.consumer <;> rfl
  | producer =>
    show (Kfifo.produce s).fifo.size = s.fifo.size
    unfold Kfifo.produce
    cases s.producer <;> rfl
  | consumer =>
    show (Kfifo.consume s).fifo.size = s.fifo.size
    unfold Kfifo.consume
    cases s.consumer <;> rfl

/-- In every state that the two sides can reach, the counters are at most `size` apart, the bytes
between them are those that were accepted and not returned, in order, and each call transfers what
its sampled counters allow. -/
theorem kfifo_lossless {buffer : Nat → α} {size : Nat} (hsize : PowerOfTwo size)
    (hrun : Reaches Step anyStep (initial buffer size) s) :
    s.fifo.used ≤ size ∧
      s.accepted = s.returned ++ bytes (fun i => s.fifo.cell (s.returned.length + i)) s.fifo.used ∧
      (∀ call ∈ s.puts,
        call.len = min call.requested (size - wsub call.inIndex call.outIndex)) ∧
      (∀ call ∈ s.gets, call.len = min call.requested (wsub call.inIndex call.outIndex)) ∧
      s.accepted.length = (s.puts.map Call.len).sum ∧
      s.returned.length = (s.gets.map Call.len).sum := by
  have h : Consistent s ∧ s.fifo.size = size := by
    refine hrun.invariant (fun s => Consistent s ∧ s.fifo.size = size) ?_
      ⟨consistent_initial buffer hsize, rfl⟩
    rintro s op _ ⟨hs, hsame⟩ _ rfl
    exact ⟨hs.step op, (step_size s op).trans hsame⟩
  obtain ⟨h, rfl⟩ := h
  have hfits := h.counts.fits
  rw [h.counts.used]
  refine ⟨?_, h.queue, h.puts, h.gets, h.accepted_length, h.returned_length⟩
  omega

/-- A queue of two bytes takes in a third one, round the end of the buffer, while the second is
got. -/
def overlap : System Nat :=
  [.put (fun i => 7 + i) 2, .producer, .producer, .producer, .get (fun _ => 0) 1, .consumer,
    .consumer, .consumer, .put (fun _ => 9) 1, .get (fun _ => 0) 2, .producer, .consumer,
    .producer, .consumer, .producer, .consumer].foldl step (initial (fun _ => 0) 2)

theorem kfifo_lossless_overlap :
    Reaches Step anyStep (initial (fun _ => 0) 2) overlap ∧ overlap.returned = [7, 8] ∧
      overlap.accepted = [7, 8, 9] ∧ overlap.fifo.used ≤ 2 := by
  have hsize : PowerOfTwo 2 := ⟨1, by omega, rfl⟩
  have hrun : Reaches Step anyStep (initial (fun _ => 0) 2) overlap := reaches_foldl step _ _
  exact ⟨hrun, by decide +kernel, by decide +kernel, (kfifo_lossless hsize hrun).1⟩

end AndroidKernel.Kfifo
