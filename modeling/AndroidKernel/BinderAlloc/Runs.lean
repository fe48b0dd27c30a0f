import AndroidKernel.BinderAlloc.Operations
import AndroidKernel.Library.Runs

/-!
# Runs of the allocator

`binder_alloc_buf` keeps the invariant whether its pages are backed or not, so together with
`binder_free_buf` it keeps it over every run from the state `binder_mmap` builds, and no run
reaches a `BUG_ON`.
-/

namespace AndroidKernel.BinderAlloc

open Library

variable {p : Proc} {front back : List Buffer} {buffer : Buffer}

/-! ## Taking a buffer -/

/-- The order of the buffers depends on their addresses only. -/
theorem Sorted.replace {changed : Buffer} (h : Sorted (front ++ buffer :: back))
    (haddr : changed.addr = buffer.addr) : Sorted (front ++ changed :: back) := by
  have hkeys : ∀ xs : List Buffer,
      Sorted xs ↔ (xs.map Buffer.addr).Pairwise (· < ·) := fun xs => List.pairwise_map.symm
  rw [hkeys] at h ⊢
  simpa [haddr] using h

/-- A tree depends on the addresses and flags of the buffers only. -/
theorem Holds.replace {tree : List Nat} {free : Bool} {changed : Buffer}
    (h : Holds tree free (front ++ buffer :: back)) (haddr : changed.addr = buffer.addr)
    (hfree : changed.free = buffer.free) : Holds tree free (front ++ changed :: back) := by
  refine ⟨h.nodup, ?_⟩
  intro addr
  rw [h.mem]
  simp only [List.mem_append, List.mem_cons, or_and_right, exists_or, exists_eq_left, haddr, hfree]

/-- The free buffer behind an allocated one. -/
def remainder (buffer : Buffer) (size : Nat) : Buffer := ⟨buffer.data + size, true, false, 0, 0⟩

/-- The buffers behind the one taken: the rest of it, if it was split, and those after it. -/
def afterTaken (buffer : Buffer) (size taken : Nat) (back : List Buffer) : List Buffer :=
  if taken ≠ size then remainder buffer size :: back else back

/-- Moving a buffer from one tree to the other. -/
theorem mark_allocated_eq (hsorted : Sorted p.buffers)
    (hlist : p.buffers = front ++ buffer :: back) (hfree : buffer.free = true)
    (hfreeTree : Holds p.freeBuffers true p.buffers)
    (hallocTree : Holds p.allocatedBuffers false p.buffers) :
    ∃ freeTree allocTree,
      markAllocated p buffer.addr =
        some { p with
          buffers := front ++ { buffer with free := false } :: back
          freeBuffers := freeTree
          allocatedBuffers := allocTree } ∧
      Holds freeTree true (front ++ { buffer with free := false } :: back) ∧
      Holds allocTree false (front ++ { buffer with free := false } :: back) := by
  have hbefore : Sorted (front ++ buffer :: back) := hlist ▸ hsorted
  have hsorted' : Sorted (front ++ { buffer with free := false } :: back) := hbefore.replace rfl
  have herased : Holds (p.freeBuffers.filter (· ≠ buffer.addr)) true (front ++ back) :=
    (hlist ▸ hfreeTree : Holds p.freeBuffers true _).erase hbefore
  have halloc : Holds p.allocatedBuffers false (front ++ back) :=
    (holds_skip (by simp [hfree])).mp (hlist ▸ hallocTree)
  obtain ⟨allocTree, hinsert, hholds⟩ := insert_allocated_buffer_eq
    (p := { p with
      buffers := front ++ { buffer with free := false } :: back
      freeBuffers := p.freeBuffers.filter (· ≠ buffer.addr) }) hsorted' rfl rfl halloc
  refine ⟨_, allocTree, ?_, (holds_skip (by simp)).mpr herased, hholds⟩
  rw [markAllocated,
    modify_buffer_eq (p := { p with freeBuffers := p.freeBuffers.filter (· ≠ buffer.addr) })
      hsorted hlist]
  exact hinsert

theorem split_buffer_eq (buffer : Buffer) (size : Nat)
    (hlist : p.buffers = front ++ buffer :: back) (hfreeTree : Holds p.freeBuffers true p.buffers)
    (hsorted : Sorted (front ++ buffer :: remainder buffer size :: back)) :
    ∃ freeTree,
      splitBuffer p buffer.addr size =
        some { p with
          buffers := front ++ buffer :: remainder buffer size :: back
          freeBuffers := freeTree } ∧
      Holds freeTree true (front ++ buffer :: remainder buffer size :: back) := by
  have hlist' : front ++ buffer :: remainder buffer size :: back =
      (front ++ [buffer]) ++ remainder buffer size :: back := by simp
  have hbefore : Sorted p.buffers := by
    rw [hlist'] at hsorted
    rw [hlist]
    simpa using hsorted.remove
  have htree : Holds p.freeBuffers true ((front ++ [buffer]) ++ back) := by
    rw [List.append_assoc]
    exact hlist ▸ hfreeTree
  obtain ⟨freeTree, hinsert, hholds⟩ := insert_free_buffer_eq
    (p := { p with buffers := front ++ buffer :: remainder buffer size :: back })
    hsorted hlist' rfl htree
  refine ⟨freeTree, ?_, hlist' ▸ hholds⟩
  rw [splitBuffer, link_after_eq hbefore hlist]
  exact hinsert

/-- Writing the request into the header. -/
theorem record_request_eq (buffer : Buffer) (hsorted : Sorted p.buffers)
    (hlist : p.buffers = front ++ buffer :: back) (size dataSize offsetsSize : Nat)
    (isAsync : Bool) :
    recordRequest p buffer.addr size dataSize offsetsSize isAsync =
      { p with
        buffers := front ++
          { buffer with dataSize, offsetsSize, asyncTransaction := isAsync } :: back
        freeAsyncSpace :=
          if isAsync then wsub p.freeAsyncSpace (wadd size headerSize) else p.freeAsyncSpace } := by
  rw [recordRequest, modify_buffer_eq hsorted hlist]

/-- The part of `binder_alloc_buf` after its pages are backed succeeds. -/
theorem take_buffer_eq (hsorted : Sorted p.buffers) (hlist : p.buffers = front ++ buffer :: back)
    (hfree : buffer.free = true) (hfreeTree : Holds p.freeBuffers true p.buffers)
    (hallocTree : Holds p.allocatedBuffers false p.buffers) {size taken : Nat}
    (hsplit : taken ≠ size → Sorted (front ++ buffer :: remainder buffer size :: back))
    (dataSize offsetsSize : Nat) (isAsync : Bool) :
    ∃ q, takeBuffer p buffer.addr size taken dataSize offsetsSize isAsync = some q ∧
      q.area = p.area ∧ q.pages = p.pages ∧
      q.buffers = front ++
        { buffer with free := false, dataSize, offsetsSize, asyncTransaction := isAsync } ::
          afterTaken buffer size taken back ∧
      (q.freeAsyncSpace =
        if isAsync then wsub p.freeAsyncSpace (wadd size headerSize) else p.freeAsyncSpace) ∧
      Holds q.freeBuffers true q.buffers ∧ Holds q.allocatedBuffers false q.buffers := by
  obtain ⟨freeTree, allocTree, hmark, hfreeTree, hallocTree⟩ :=
    mark_allocated_eq hsorted hlist hfree hfreeTree hallocTree
  have hbefore : Sorted (front ++ buffer :: back) := hlist ▸ hsorted
  have hsorted' : Sorted (front ++ { buffer with free := false } :: back) := hbefore.replace rfl
  simp only [takeBuffer, hmark, Option.bind_eq_bind, Option.bind_some, afterTaken]
  by_cases htaken : taken ≠ size
  · simp only [if_pos htaken]
    have hsorted'' : Sorted
        (front ++ { buffer with free := false } :: remainder buffer size :: back) :=
      (hsplit htaken).replace rfl
    obtain ⟨freeTree, hsplitEq, hfreeTree⟩ :=
      split_buffer_eq
        (p := { p with
          buffers := front ++ { buffer with free := false } :: back
          freeBuffers := freeTree
          allocatedBuffers := allocTree })
        { buffer with free := false } size rfl hfreeTree hsorted''
    have hallocTree' : Holds allocTree false
        (front ++ { buffer with free := false } :: remainder buffer size :: back) := by
      have hskip : Holds allocTree false
          ((front ++ [{ buffer with free := false }]) ++ remainder buffer size :: back) := by
        refine (holds_skip (by simp [remainder])).mpr ?_
        rw [List.append_assoc]
        exact hallocTree
      simpa using hskip
    have hrecord := record_request_eq
      (p := { p with
        buffers := front ++ { buffer with free := false } :: remainder buffer size :: back
        freeBuffers := freeTree
        allocatedBuffers := allocTree })
      { buffer with free := false } hsorted'' rfl size dataSize offsetsSize isAsync
    refine ⟨_, Option.bind_eq_some_iff.mpr ⟨_, hsplitEq, congrArg some hrecord⟩, ?_⟩
    exact ⟨rfl, rfl, rfl, rfl, hfreeTree.replace rfl rfl, hallocTree'.replace rfl rfl⟩
  simp only [if_neg htaken]
  have hrecord := record_request_eq
    (p := { p with
      buffers := front ++ { buffer with free := false } :: back
      freeBuffers := freeTree
      allocatedBuffers := allocTree })
    { buffer with free := false } hsorted' rfl size dataSize offsetsSize isAsync
  refine ⟨_, congrArg some hrecord, ?_⟩
  exact ⟨rfl, rfl, rfl, rfl, hfreeTree.replace rfl rfl, hallocTree.replace rfl rfl⟩

/-! ## Allocating -/

/-- The search returns a free buffer that is large enough. -/
theorem best_fit_spec {size tie addr : Nat} {exactFit : Bool}
    (h : bestFit p size tie = some (addr, exactFit)) :
    addr ∈ p.freeBuffers ∧
      if exactFit then binderBufferSize p addr = size else size < binderBufferSize p addr := by
  simp only [bestFit] at h
  split at h
  · cases h
    have hmem := List.mem_of_getElem? ‹_›
    exact ⟨List.mem_of_mem_filter hmem, by simpa using (List.mem_filter.mp hmem).2⟩
  · obtain ⟨found, hfound, hpair⟩ := Option.map_eq_some_iff.mp h
    cases hpair
    exact ⟨List.mem_of_find?_eq_some hfound, by simpa using List.find?_some hfound⟩

/-- What is taken from a buffer of `bufferSize` bytes: all of it, up to a header and a word more
than asked for, or what was asked for and a header, with more than a word left. -/
theorem taken_size_cases {size bufferSize : Nat} {exactFit : Bool}
    (hfits : if exactFit then bufferSize = size else size < bufferSize)
    (hword : bufferSize + headerSize + 4 < word) :
    (takenSize size bufferSize exactFit = size ∧ size ≤ bufferSize ∧
        bufferSize ≤ size + headerSize + 4) ∨
      (takenSize size bufferSize exactFit = size + headerSize ∧
        size + headerSize + 4 < bufferSize) := by
  cases exactFit with
  | true =>
    simp only [if_true] at hfits
    exact .inl ⟨by simp [takenSize, hfits], by omega, by omega⟩
  | false =>
    simp only [Bool.false_eq_true, if_false] at hfits
    have hsum : wadd size headerSize = size + headerSize := wadd_eq (by omega)
    have hsum' : wadd (size + headerSize) 4 = size + headerSize + 4 := wadd_eq (by omega)
    simp only [takenSize, Bool.false_eq_true, if_false, hsum, hsum']
    split_ifs with hslack
    · exact .inl ⟨rfl, by omega, hslack⟩
    · exact .inr ⟨rfl, by omega⟩

/-- The request fits the buffer: it takes all of it, or a part with room for a header behind. -/
def Takes (buffer : Buffer) (next size taken : Nat) : Prop :=
  (taken = size ∧ buffer.data + size ≤ next ∧ next ≤ buffer.data + size + headerSize + 4) ∨
    (taken = size + headerSize ∧ buffer.data + size + headerSize + 4 < next)

/-- The buffers that tile the area after an allocation. -/
theorem Laid.take_segments (h : Laid p) (hlist : p.buffers = front ++ buffer :: back)
    {dataSize offsetsSize taken : Nat} (isAsync : Bool)
    (htaken : Takes buffer (endOf p.area.stop back) (bufferSpace dataSize offsetsSize) taken) :
    let buffers := front ++
      { buffer with free := false, dataSize, offsetsSize, asyncTransaction := isAsync } ::
        afterTaken buffer (bufferSpace dataSize offsetsSize) taken back
    endOf p.area.stop buffers = p.area.base ∧ Segments HasRoom p.area.stop buffers ∧
      Segments Fits p.area.stop buffers := by
  have hstart := h.start
  have hroom := h.room
  have hfits := h.fits
  rw [hlist] at hstart hroom hfits
  obtain ⟨hfront, -, hback⟩ := segments_append.mp hroom
  obtain ⟨hfront', -, hback'⟩ := segments_append.mp hfits
  rw [end_of_append] at hstart
  rcases htaken with ⟨heq, hle, hslack⟩ | ⟨heq, hlt⟩
  · simp only [afterTaken, heq, ne_eq, not_true_eq_false, if_false]
    refine ⟨by rw [end_of_append]; exact hstart,
      segments_append.mpr ⟨hfront, ?_, hback⟩, segments_append.mpr ⟨hfront', ?_, hback'⟩⟩
    · show buffer.data ≤ endOf p.area.stop back
      omega
    · exact fun _ => ⟨hle, hslack⟩
  have hne : taken ≠ bufferSpace dataSize offsetsSize := by
    simp only [headerSize] at heq
    omega
  simp only [afterTaken, if_pos hne]
  refine ⟨by rw [end_of_append]; exact hstart,
    segments_append.mpr ⟨hfront, ?_, ?_, hback⟩, segments_append.mpr ⟨hfront', ?_, ?_, hback'⟩⟩
  · show buffer.data ≤ buffer.data + bufferSpace dataSize offsetsSize
    omega
  · show buffer.data + bufferSpace dataSize offsetsSize + headerSize ≤ endOf p.area.stop back
    omega
  · intro _
    show buffer.data + bufferSpace dataSize offsetsSize ≤
        buffer.data + bufferSpace dataSize offsetsSize ∧
      buffer.data + bufferSpace dataSize offsetsSize ≤
        buffer.data + bufferSpace dataSize offsetsSize + headerSize + 4
    omega
  · exact fun hnot => Bool.noConfusion hnot

/-- The pages that are backed after an allocation. -/
theorem Laid.take_backed (h : Laid p) (hlist : p.buffers = front ++ buffer :: back)
    (hfree : buffer.free = true) {dataSize offsetsSize taken : Nat} {isAsync : Bool}
    (htaken : Takes buffer (endOf p.area.stop back) (bufferSpace dataSize offsetsSize) taken)
    (page : Nat) :
    Backed page p.area.stop (front ++
        { buffer with free := false, dataSize, offsetsSize, asyncTransaction := isAsync } ::
          afterTaken buffer (bufferSpace dataSize offsetsSize) taken back) ↔
      Backed page p.area.stop (front ++ buffer :: back) ∨
        ((buffer.data + 4095) / 4096 ≤ page ∧ page <
          min ((buffer.data + taken + 4095) / 4096) (endOf p.area.stop back / pageSize)) := by
  have hslot := h.slot hlist
  rcases htaken with ⟨heq, hle, hslack⟩ | ⟨heq, hlt⟩
  · simp only [afterTaken, heq, ne_eq, not_true_eq_false, if_false]
    refine (hslot.backed_toggle
      { buffer with free := false, dataSize, offsetsSize, asyncTransaction := isAsync }
      hfree rfl rfl).trans ?_
    refine or_congr_right (and_congr_right fun _ => ?_)
    -- A page never holds spare bytes only, so rounding up reaches the page of the next header.
    simp only [headerSize, pageSize] at *
    omega
  have hne : taken ≠ bufferSpace dataSize offsetsSize := by
    simp only [headerSize] at heq
    omega
  simp only [afterTaken, if_pos hne]
  have hroom : (remainder buffer (bufferSpace dataSize offsetsSize)).addr + headerSize <
      endOf p.area.stop back := by
    simp only [remainder]
    omega
  rw [heq]
  exact hslot.backed_split hfree rfl rfl rfl (Nat.le_add_right _ _) hroom

/-- The allocation of a free buffer that is large enough keeps the invariant. -/
theorem WellFormed.take (h : WellFormed p) (hlist : p.buffers = front ++ buffer :: back)
    (hfree : buffer.free = true) {dataSize offsetsSize taken : Nat} (isAsync : Bool)
    (htaken : Takes buffer (endOf p.area.stop back) (bufferSpace dataSize offsetsSize) taken)
    {pages : Nat → Bool}
    (hpages : ∀ page, pages page = true ↔ p.pages page = true ∨
      ((buffer.data + 4095) / 4096 ≤ p.area.base / pageSize + page ∧
        p.area.base / pageSize + page <
          min ((buffer.data + taken + 4095) / 4096) (endOf p.area.stop back / pageSize))) :
    ∃ q, takeBuffer { p with pages } buffer.addr (bufferSpace dataSize offsetsSize) taken dataSize
        offsetsSize isAsync = some q ∧ q.area = p.area ∧ WellFormed q ∧
      q.buffers = front ++
        { buffer with free := false, dataSize, offsetsSize, asyncTransaction := isAsync } ::
          afterTaken buffer (bufferSpace dataSize offsetsSize) taken back ∧
      q.freeAsyncSpace = if isAsync then wsub p.freeAsyncSpace
        (wadd (bufferSpace dataSize offsetsSize) headerSize) else p.freeAsyncSpace := by
  obtain ⟨hstart, hroom, hfits⟩ := h.laid.take_segments hlist isAsync htaken
  have hsplit : taken ≠ bufferSpace dataSize offsetsSize →
      Sorted (front ++ buffer :: remainder buffer (bufferSpace dataSize offsetsSize) :: back) := by
    intro hne
    have hsorted := hroom.sorted
    simp only [afterTaken, if_pos hne] at hsorted
    exact Sorted.replace hsorted rfl
  obtain ⟨q, htake, harea, hqpages, hbuffers, hspace, hfreeTree, hallocTree⟩ :=
    take_buffer_eq (p := { p with pages }) h.laid.sorted hlist hfree h.freeTree h.allocatedTree
      hsplit dataSize offsetsSize isAsync
  have hlaid : Laid q := by
    refine ⟨?_, ?_, ?_, ?_⟩
    · rw [harea, hbuffers]
      exact hstart
    · rw [harea, hbuffers]
      exact hroom
    · rw [harea, hbuffers]
      exact hfits
    · intro page
      rw [harea, hbuffers, hqpages, hpages, h.laid.take_backed hlist hfree htaken, h.laid.backed,
        hlist]
  refine ⟨q, htake, harea, ⟨hlaid, hfreeTree, hallocTree, ?_⟩, hbuffers, hspace⟩
  have hchain := h.merged
  rw [hlist] at hchain
  obtain ⟨hfrontChain, hbackChain, hlast⟩ := List.isChain_append.mp hchain
  obtain ⟨hhead, hrest⟩ := List.isChain_cons.mp hbackChain
  rw [hbuffers]
  refine List.isChain_append.mpr ⟨hfrontChain, List.isChain_cons.mpr ⟨?_, ?_⟩, ?_⟩
  · exact fun _ _ => not_both_free_left rfl
  · simp only [afterTaken]
    split_ifs
    · refine List.isChain_cons.mpr ⟨?_, hrest⟩
      intro next hmem hboth
      exact hhead next hmem ⟨hfree, hboth.2⟩
    · exact hrest
  · intro prev _ taken hmem
    cases hmem
    exact not_both_free_right rfl

/-- A call of `binder_alloc_buf` that takes a buffer: the size passes the checks, and the buffer
becomes an allocated one, charged for its size if it is asynchronous. -/
structure Taken (p q : Proc) (dataSize offsetsSize : Nat) (isAsync : Bool) : Prop where
  valid : ¬ (bufferSpace dataSize offsetsSize < dataSize ∨
    bufferSpace dataSize offsetsSize < offsetsSize)
  affordable : isAsync = true →
    wadd (bufferSpace dataSize offsetsSize) headerSize ≤ p.freeAsyncSpace
  small : bufferSpace dataSize offsetsSize + headerSize < word
  space : q.freeAsyncSpace = if isAsync then wsub p.freeAsyncSpace
    (wadd (bufferSpace dataSize offsetsSize) headerSize) else p.freeAsyncSpace
  buffers : ∃ front buffer back taken, p.buffers = front ++ buffer :: back ∧
    buffer.free = true ∧ q.buffers = front ++
      { buffer with free := false, dataSize, offsetsSize, asyncTransaction := isAsync } ::
        afterTaken buffer (bufferSpace dataSize offsetsSize) taken back

/-- `binder_alloc_buf` succeeds or fails without reaching a `BUG_ON`, and keeps the invariant. -/
theorem alloc_buf_eq (h : WellFormed p) (dataSize offsetsSize : Nat) (isAsync : Bool) (tie : Nat)
    (backing : Backing) :
    ∃ q result, binderAllocBuf p dataSize offsetsSize isAsync tie backing = some (q, result) ∧
      q.area = p.area ∧ WellFormed q ∧ (q = p ∨ Taken p q dataSize offsetsSize isAsync) := by
  have hall : p.freeBuffers.all p.isFree = true := by
    rw [List.all_eq_true]
    intro addr hmem
    obtain ⟨buffer, hin, haddr, hfree⟩ := (h.freeTree.mem addr).mp hmem
    rw [← haddr, h.laid.sorted.is_free_eq hin, hfree]
  simp only [binderAllocBuf, hall, Bool.not_true, Bool.false_eq_true, if_false]
  split_ifs with hvma hinvalid hspent
  · exact ⟨p, none, rfl, rfl, h, .inl rfl⟩
  · exact ⟨p, none, rfl, rfl, h, .inl rfl⟩
  · exact ⟨p, none, rfl, rfl, h, .inl rfl⟩
  split
  · exact ⟨p, none, rfl, rfl, h, .inl rfl⟩
  rename_i addr exactFit hfit
  obtain ⟨hmem, hsize⟩ := best_fit_spec hfit
  obtain ⟨buffer, hin, haddr, hfree⟩ := (h.freeTree.mem addr).mp hmem
  obtain ⟨front, back, hlist⟩ := List.append_of_mem hin
  subst haddr
  obtain ⟨hdata, hbase, hnext⟩ := h.laid.inner_pages hlist
  obtain ⟨-, hroom, hend, hword⟩ := h.laid.bounds hlist
  have hbufferSize := h.laid.buffer_size_eq hlist
  have htaken : Takes buffer (endOf p.area.stop back) (bufferSpace dataSize offsetsSize)
      (takenSize (bufferSpace dataSize offsetsSize) (binderBufferSize p buffer.addr) exactFit) := by
    rcases taken_size_cases hsize (by
        rw [hbufferSize]
        simp only [Buffer.data, headerSize, pageSize] at *
        omega) with ⟨heq, hle, hslack⟩ | ⟨heq, hlt⟩
    · refine .inl ⟨heq, ?_, ?_⟩
      · simp only [Buffer.data] at *
        omega
      · simp only [Buffer.data] at *
        omega
    · refine .inr ⟨heq, ?_⟩
      simp only [Buffer.data] at *
      omega
  generalize takenSize (bufferSpace dataSize offsetsSize) (binderBufferSize p buffer.addr) exactFit
    = taken at *
  have hstop : min (pageAlign (wadd (buffer.addr + headerSize) taken))
      (pageMask (wadd (buffer.addr + headerSize) (binderBufferSize p buffer.addr))) =
        min ((buffer.data + taken + 4095) / 4096) (endOf p.area.stop back / pageSize) *
          pageSize := by
    have htop : buffer.data + taken ≤ p.area.stop := by
      rcases htaken with ⟨heq, hle, -⟩ | ⟨heq, hlt⟩ <;> omega
    have hsum : wadd (buffer.addr + headerSize) taken = buffer.data + taken :=
      wadd_eq (by simp only [Buffer.data, pageSize] at *; omega)
    rw [hsum, page_align_eq (by omega)]
    show min _ (pageMask (wadd buffer.data (binderBufferSize p buffer.addr))) = _
    rw [hnext, pageMask, Nat.mul_min_mul_right]
  have hfresh : ∀ page, (buffer.data + 4095) / 4096 ≤ p.area.base / pageSize + page →
      p.area.base / pageSize + page <
        min ((buffer.data + taken + 4095) / 4096) (endOf p.area.stop back / pageSize) →
          p.pages page = false := by
    intro page hlo hhi
    by_contra hthere
    have hbacked := (h.laid.backed page).mp (by simpa using hthere)
    rw [hlist] at hbacked
    exact (h.laid.slot hlist).not_backed hfree hbacked hlo (by omega)
  obtain ⟨ok, hback⟩ := back_page_range_eq backing hbase hfresh
  rw [hstop, show pageAlign (buffer.addr + headerSize) = _ from hdata, hback]
  cases ok with
  | false => exact ⟨p, none, rfl, rfl, h, .inl rfl⟩
  | true =>
    obtain ⟨q, htake, harea, hwell, hbuffers, hspace⟩ := h.take hlist hfree isAsync htaken
      fun page => add_pages_iff hbase
    simp only [Option.bind_eq_bind, Option.bind_some, if_true, htake]
    refine ⟨q, some buffer.addr, rfl, harea, hwell, .inr ⟨hinvalid, ?_, ?_, hspace,
      front, buffer, back, taken, hlist, hfree, hbuffers⟩⟩
    · exact fun hasync => Nat.le_of_not_lt fun hlt => hspent ⟨hasync, hlt⟩
    · rcases htaken with ⟨-, hle, -⟩ | ⟨-, hlt⟩
      · simp only [Buffer.data, pageSize] at *
        omega
      · simp only [Buffer.data, pageSize] at *
        omega

/-! ## Runs -/

/-- The state `binder_mmap` builds is well formed. -/
theorem binder_mmap_well_formed (area : Area) : WellFormed (binderMmap area) := by
  have hbase := area.base_aligned
  have hsize := area.size_aligned
  have hpos := area.size_pos
  refine ⟨⟨rfl, ⟨?_, trivial⟩, ⟨fun hnot => Bool.noConfusion hnot, trivial⟩, ?_⟩, ?_, ?_,
    List.isChain_singleton _⟩
  · show area.base + headerSize ≤ area.base + area.size
    simp only [headerSize, pageSize] at *
    omega
  · intro page
    show decide (page = 0) = true ↔
      MeetsPage (area.base / pageSize + page) area.base (area.base + headerSize) ∨ False
    rw [or_false, decide_eq_true_eq, meetsPage_iff (by simp [headerSize])]
    simp only [headerSize, pageSize] at *
    omega
  · refine ⟨by simp [binderMmap], ?_⟩
    intro addr
    simp only [binderMmap, List.mem_singleton, exists_eq_left, and_true]
    exact eq_comm
  · exact ⟨List.nodup_nil, by simp [binderMmap]⟩

/-- Every call succeeds in a well-formed state and leaves a well-formed state. -/
theorem step_well_formed (h : WellFormed p) (op : Op) :
    ∃ q, step p op = some q ∧ q.area = p.area ∧ WellFormed q := by
  cases op with
  | alloc dataSize offsetsSize isAsync tie backing =>
    obtain ⟨q, result, halloc, harea, hwell, -⟩ :=
      alloc_buf_eq h dataSize offsetsSize isAsync tie backing
    refine ⟨q, ?_, harea, hwell⟩
    rw [step, halloc]
    rfl
  | free addr =>
    simp only [step]
    split_ifs with hmem
    · obtain ⟨q, hfree, harea, hwell, -⟩ := free_buf_eq h hmem
      exact ⟨q, hfree, harea, hwell⟩
    · exact ⟨p, rfl, rfl, h⟩
  | vmaClose =>
    exact ⟨_, rfl, rfl, ⟨⟨h.laid.start, h.laid.room, h.laid.fits, h.laid.backed⟩, h.freeTree,
      h.allocatedTree, h.merged⟩⟩

/-- One call as a transition. -/
def Step (p : Proc) (op : Op) (q : Proc) : Prop := step p op = some q

/-- Every state a run reaches is well formed. -/
theorem reaches_well_formed {area : Area} (hrun : Reaches Step anyStep (binderMmap area) p) :
    p.area = area ∧ WellFormed p := by
  refine hrun.invariant (fun p => p.area = area ∧ WellFormed p) ?_
    ⟨rfl, binder_mmap_well_formed area⟩
  intro s op t hinv _ hstep
  obtain ⟨q, hq, harea, hwell⟩ := step_well_formed hinv.2 op
  cases hq.symm.trans hstep
  exact ⟨harea.trans hinv.1, hwell⟩

/-- What the driver relies on: the buffers are sorted by address and tile the area, the trees hold
exactly the free and the allocated ones, no two neighbours are both free, and a page is there
exactly when it holds a byte of a header or of an allocated buffer's data. -/
structure Consistent (p : Proc) : Prop where
  sorted : p.buffers.Pairwise fun first second => first.addr < second.addr
  inside : ∀ buffer ∈ p.buffers, p.area.base ≤ buffer.addr ∧
    buffer.data + binderBufferSize p buffer.addr ≤ p.area.stop
  tiled : ∀ byte, p.area.base ≤ byte → byte < p.area.stop →
    ∃! buffer, buffer ∈ p.buffers ∧ buffer.addr ≤ byte ∧
      byte < buffer.data + binderBufferSize p buffer.addr
  freeTree : p.freeBuffers.Nodup ∧
    ∀ addr, addr ∈ p.freeBuffers ↔ ∃ buffer ∈ p.buffers, buffer.addr = addr ∧ buffer.free = true
  allocatedTree : p.allocatedBuffers.Nodup ∧ ∀ addr, addr ∈ p.allocatedBuffers ↔
    ∃ buffer ∈ p.buffers, buffer.addr = addr ∧ buffer.free = false
  merged : p.buffers.IsChain fun first second => ¬ (first.free = true ∧ second.free = true)
  paged : ∀ page, p.pages page = true ↔
    ∃ buffer ∈ p.buffers, buffer.OnPage (p.area.base / pageSize + page)

/-- A byte belongs to one buffer only. -/
theorem Laid.unique_buffer (h : Laid p) {first second : Buffer} {byte : Nat}
    (hfirst : first ∈ p.buffers) (hsecond : second ∈ p.buffers)
    (hlo : first.addr ≤ byte) (hhi : byte < first.data + binderBufferSize p first.addr)
    (hlo' : second.addr ≤ byte) (hhi' : byte < second.data + binderBufferSize p second.addr) :
    first = second := by
  by_contra hne
  have hafter : ∀ (front : List Buffer) (a : Buffer) (back : List Buffer) (b : Buffer),
      p.buffers = front ++ a :: back → b ∈ back → b.addr ≤ byte →
        byte < a.data + binderBufferSize p a.addr → False := by
    intro front a back b hlist hmem hle hlt
    obtain ⟨-, hroom, -, -⟩ := h.bounds hlist
    have hend := ((h.slot hlist).back.bounds hmem).1
    rw [h.buffer_size_eq hlist] at hlt
    simp only [Buffer.data] at *
    omega
  obtain ⟨front, back, hlist⟩ := List.append_of_mem hfirst
  rw [hlist] at hsecond
  rcases List.mem_append.mp hsecond with hsecond | hsecond
  · obtain ⟨front', back', hfront⟩ := List.append_of_mem hsecond
    refine hafter front' second (back' ++ first :: back) first ?_ (by simp) hlo hhi'
    rw [hlist, hfront]
    simp
  · rcases List.mem_cons.mp hsecond with heq | hsecond
    · exact hne heq.symm
    · exact hafter front first back second hlist hsecond hlo' hhi

/-- A well-formed state is what the driver relies on. -/
theorem WellFormed.consistent (h : WellFormed p) : Consistent p := by
  have haligned : p.area.stop % pageSize = 0 := by
    have hbase := p.area.base_aligned
    have hsize := p.area.size_aligned
    simp only [Area.stop, pageSize] at *
    omega
  refine ⟨h.laid.sorted, ?_, ?_, ⟨h.freeTree.nodup, h.freeTree.mem⟩,
    ⟨h.allocatedTree.nodup, h.allocatedTree.mem⟩, h.merged, ?_⟩
  · intro buffer hmem
    obtain ⟨front, back, hlist⟩ := List.append_of_mem hmem
    obtain ⟨hbase, hroom, hend, -⟩ := h.laid.bounds hlist
    rw [h.laid.buffer_size_eq hlist]
    simp only [Buffer.data] at *
    omega
  · intro byte hlo hhi
    obtain ⟨front, buffer, back, hlist, haddr, hbyte⟩ :=
      h.laid.room.covers (by rw [h.laid.start]; exact hlo) hhi
    have hmem : buffer ∈ p.buffers := by rw [hlist]; simp
    have hinside : byte < buffer.data + binderBufferSize p buffer.addr := by
      obtain ⟨-, hroom, -, -⟩ := h.laid.bounds hlist
      rw [h.laid.buffer_size_eq hlist]
      simp only [Buffer.data] at *
      omega
    refine ⟨buffer, ⟨hmem, haddr, hinside⟩, ?_⟩
    intro other hother
    exact h.laid.unique_buffer hother.1 hmem hother.2.1 hother.2.2 haddr hinside
  · intro page
    rw [h.laid.backed]
    exact backed_iff_on_page h.laid.room h.laid.fits haligned

/-- In every state that any calls lead to from what `binder_mmap` builds, with page allocation
failing at any page, the buffers, the trees and the pages are consistent, and no further call
reaches a `BUG_ON` or frees a page that is not there. -/
theorem allocator_consistent {area : Area} (hrun : Reaches Step anyStep (binderMmap area) p) :
    p.area = area ∧ Consistent p ∧ ∀ op, ∃ q, step p op = some q := by
  obtain ⟨harea, hwell⟩ := reaches_well_formed hrun
  refine ⟨harea, hwell.consistent, ?_⟩
  intro op
  obtain ⟨q, hstep, -⟩ := step_well_formed hwell op
  exact ⟨q, hstep⟩

/-- An area of two pages. -/
def twoPages : Area := ⟨pageSize, 2 * pageSize, rfl, rfl, by decide, by decide, by decide⟩

/-- Allocating 5000 bytes and freeing them, in an area of two pages. -/
theorem allocator_consistent_two_pages :
    ∃ p q, step (binderMmap twoPages) (.alloc 5000 0 false 0 .ok) = some p ∧
      p.allocatedBuffers = [pageSize] ∧ Consistent p ∧
      step p (.free pageSize) = some q ∧ Consistent q := by
  have hrun : Reaches Step anyStep (binderMmap twoPages) _ :=
    (Reaches.refl _).tail (show Step _ (.alloc 5000 0 false 0 .ok) _ from rfl) trivial
  obtain ⟨-, hconsistent, hnext⟩ := allocator_consistent hrun
  obtain ⟨q, hq⟩ := hnext (.free pageSize)
  exact ⟨_, q, rfl, rfl, hconsistent, hq, (allocator_consistent (hrun.tail hq trivial)).2.1⟩

/-!
## The asynchronous space of a process

Half of the area may be taken by buffers of asynchronous transactions. `binder_alloc_buf`
subtracts the size of such a buffer from `free_async_space` and `binder_free_buf` adds what it
computes from the fields of the buffer. The sizes are 32-bit sums of numbers that the sender
chooses; the check that follows them lets no wrapped one through, so the two always agree.
-/

variable {p q : Proc}

/-- The two comparisons of `binder_alloc_buf` accept exactly the sizes whose sum does not wrap. -/
theorem size_accepted_iff {dataSize offsetsSize : Nat} (hdata : dataSize < word)
    (hoffsets : offsetsSize < word) :
    ¬ (bufferSpace dataSize offsetsSize < dataSize ∨
        bufferSpace dataSize offsetsSize < offsetsSize) ↔
      roundUp dataSize + roundUp offsetsSize < word := by
  simp only [bufferSpace, alignPointer, wadd, roundUp, word] at *
  omega

/-- The sum is then the space for the data and the offsets. -/
theorem buffer_space_eq {dataSize offsetsSize : Nat}
    (h : roundUp dataSize + roundUp offsetsSize < word) :
    bufferSpace dataSize offsetsSize = roundUp dataSize + roundUp offsetsSize := by
  simp only [bufferSpace, alignPointer, wadd, roundUp, word] at *
  omega

/-- The free asynchronous space and what the allocated asynchronous buffers occupy make up half
of the area, and no allocated buffer has a size that wraps with its header. -/
structure Balanced (p : Proc) : Prop where
  balance : p.freeAsyncSpace + charged p.buffers = p.area.size / 2
  sound : ∀ buffer ∈ p.buffers, buffer.free = false →
    roundUp buffer.dataSize + roundUp buffer.offsetsSize + headerSize < word

/-- What an asynchronous buffer is charged. -/
theorem Buffer.charge_of_allocated {buffer : Buffer} (hallocated : buffer.free = false) :
    buffer.charge = if buffer.asyncTransaction then
      roundUp buffer.dataSize + roundUp buffer.offsetsSize + headerSize else 0 := by
  simp [Buffer.charge, hallocated]

/-- A buffer behind the one taken is free or was there before. -/
theorem charged_after_taken (buffer : Buffer) (size taken : Nat) (back : List Buffer) :
    charged (afterTaken buffer size taken back) = charged back := by
  unfold afterTaken
  split
  · rw [charged_cons, Buffer.charge_of_free rfl, Nat.zero_add]
  · rfl

theorem Balanced.taken {dataSize offsetsSize : Nat} {isAsync : Bool} (h : Balanced p)
    (harea : q.area = p.area) (hdata : dataSize < word) (hoffsets : offsetsSize < word)
    (htaken : Taken p q dataSize offsetsSize isAsync) : Balanced q := by
  have hfits := (size_accepted_iff hdata hoffsets).mp htaken.valid
  have hsize := buffer_space_eq hfits
  have hsmall := htaken.small
  have hspace := htaken.space
  have hpaid := htaken.affordable
  obtain ⟨front, buffer, back, taken, hlist, hfree, hbuffers⟩ := htaken.buffers
  have hbalance := h.balance
  rw [hlist, charged_append, charged_cons, Buffer.charge_of_free hfree] at hbalance
  rw [hsize] at hsmall
  rw [hsize, wadd_eq hsmall] at hspace hpaid
  refine ⟨?_, ?_⟩
  · rw [hbuffers, charged_append, charged_cons, charged_after_taken, harea, hspace,
      Buffer.charge_of_allocated rfl]
    cases isAsync with
    | false =>
      simp only [Bool.false_eq_true, if_false]
      omega
    | true =>
      have hword : p.freeAsyncSpace < word := by
        have hle := p.area.size_le
        simp only [word]
        omega
      have hexact := wsub_eq (hpaid rfl) hword
      have hpaid := hpaid rfl
      simp only [if_true]
      omega
  intro other hmem hallocated
  have hold : other ∈ p.buffers → roundUp other.dataSize + roundUp other.offsetsSize +
      headerSize < word := fun hmem => h.sound other hmem hallocated
  rw [hlist] at hold
  rw [hbuffers] at hmem
  rcases List.mem_append.mp hmem with hmem | hmem
  · exact hold (List.mem_append_left _ hmem)
  rcases List.mem_cons.mp hmem with rfl | hmem
  · exact hsmall
  have hback : other ∈ back := by
    unfold afterTaken at hmem
    split at hmem
    · rcases List.mem_cons.mp hmem with rfl | hmem
      · exact Bool.noConfusion hallocated
      · exact hmem
    · exact hmem
  exact hold (List.mem_append_right _ (List.mem_cons_of_mem _ hback))

/-- Releasing an allocated buffer keeps the balance: its fields give the size it was charged. -/
theorem Balanced.released {buffer : Buffer} (h : Balanced p) (harea : q.area = p.area)
    (hmem : buffer ∈ p.buffers) (hallocated : buffer.free = false)
    (hcharged : charged q.buffers + buffer.charge = charged p.buffers)
    (hspace : q.freeAsyncSpace = if buffer.asyncTransaction then wadd p.freeAsyncSpace
      (wadd (bufferSpace buffer.dataSize buffer.offsetsSize) headerSize) else p.freeAsyncSpace)
    (hkept : ∀ other ∈ q.buffers, other.free = false → other ∈ p.buffers) : Balanced q := by
  have hsmall := h.sound buffer hmem hallocated
  have hbalance := h.balance
  have hsize := p.area.size_le
  refine ⟨?_, fun other hother hfree => h.sound other (hkept other hother hfree) hfree⟩
  rw [buffer_space_eq (by omega), wadd_eq hsmall] at hspace
  rw [buffer.charge_of_allocated hallocated] at hcharged
  rw [harea, hspace]
  cases hasync : buffer.asyncTransaction with
  | false =>
    simp only [hasync, Bool.false_eq_true, if_false] at hcharged ⊢
    omega
  | true =>
    simp only [hasync, if_true] at hcharged ⊢
    rw [wadd_eq]
    · omega
    · simp only [word]
      omega

/-- The step rule: every call keeps the balance. -/
theorem step_balanced (h : WellFormed p) (hbalanced : Balanced p) {op : Op}
    (hstep : step p op = some q) : Balanced q := by
  cases op with
  | alloc dataSize offsetsSize isAsync tie backing =>
    obtain ⟨r, result, halloc, harea, -, hsame | htaken⟩ :=
      alloc_buf_eq h dataSize offsetsSize isAsync tie backing
    · rw [step, halloc, Option.map_some, Option.some.injEq] at hstep
      rw [← hstep, hsame]
      exact hbalanced
    · rw [step, halloc, Option.map_some, Option.some.injEq] at hstep
      rw [← hstep]
      exact hbalanced.taken harea dataSize.isLt offsetsSize.isLt htaken
  | free addr =>
    simp only [step] at hstep
    split_ifs at hstep with hmem
    · obtain ⟨r, hfree, harea, -, buffer, hin, hallocated, hcharged, hspace, hkept⟩ :=
        free_buf_eq h hmem
      obtain rfl : r = q := Option.some.inj (hfree.symm.trans hstep)
      exact hbalanced.released harea hin hallocated hcharged hspace hkept
    · obtain rfl : p = q := Option.some.inj hstep
      exact hbalanced
  | vmaClose =>
    obtain rfl : { p with vma := false } = q := Option.some.inj hstep
    exact ⟨hbalanced.balance, hbalanced.sound⟩

/-- In every state that any calls lead to from what `binder_mmap` builds, the free asynchronous
space and what the allocated asynchronous buffers take of it, each its two aligned sizes and a
header, add up to half of the area; and the sizes that `binder_alloc_buf` accepts are exactly
those whose aligned sum does not wrap. -/
theorem async_space_balanced {area : Area} (hrun : Reaches Step anyStep (binderMmap area) p) :
    p.freeAsyncSpace + charged p.buffers = area.size / 2 ∧ p.freeAsyncSpace ≤ area.size / 2 ∧
      ∀ dataSize offsetsSize : Fin (2 ^ 32),
        ¬ (bufferSpace dataSize offsetsSize < dataSize ∨
          bufferSpace dataSize offsetsSize < offsetsSize) ↔
        roundUp dataSize + roundUp offsetsSize < word := by
  have hinit : (binderMmap area).area = area ∧ WellFormed (binderMmap area) ∧
      Balanced (binderMmap area) := by
    refine ⟨rfl, binder_mmap_well_formed area, by simp [binderMmap, charged, Buffer.charge], ?_⟩
    intro buffer hmem hallocated
    obtain rfl := List.mem_singleton.mp hmem
    exact Bool.noConfusion hallocated
  obtain ⟨harea, -, hbalanced⟩ :=
    hrun.invariant (fun p => p.area = area ∧ WellFormed p ∧ Balanced p)
      (fun s op t hinv _ hstep => by
        obtain ⟨q, hq, hqarea, hwell⟩ := step_well_formed hinv.2.1 op
        obtain rfl : q = t := Option.some.inj (hq.symm.trans hstep)
        exact ⟨hqarea.trans hinv.1, hwell, step_balanced hinv.2.1 hinv.2.2 hstep⟩) hinit
  have hbalance := hbalanced.balance
  rw [harea] at hbalance
  exact ⟨hbalance, by omega, fun dataSize offsetsSize =>
    size_accepted_iff dataSize.isLt offsetsSize.isLt⟩

/-- An asynchronous buffer of 101 bytes of data and 8 of offsets in an area of two pages takes
152 of the 4096 bytes. -/
theorem async_space_balanced_two_pages :
    ∃ p, step (binderMmap twoPages) (.alloc 101 8 true 0 .ok) = some p ∧
      p.freeAsyncSpace + charged p.buffers = twoPages.size / 2 ∧ p.freeAsyncSpace = 3944 := by
  have hrun : Reaches Step anyStep (binderMmap twoPages) _ :=
    (Reaches.refl _).tail (show Step _ (.alloc 101 8 true 0 .ok) _ from rfl) trivial
  exact ⟨_, rfl, (async_space_balanced hrun).1, rfl⟩

end AndroidKernel.BinderAlloc
