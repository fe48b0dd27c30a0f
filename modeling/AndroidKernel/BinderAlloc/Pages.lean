import AndroidKernel.BinderAlloc.Model

/-!
# The pages of the area

The page loops of `binder_update_page_range` add or remove a range of pages, and a change to the
list of buffers changes the backed pages by the range that `binder_alloc_buf`,
`binder_free_buf` or `binder_delete_free_buffer` computes for it.
-/

namespace AndroidKernel.BinderAlloc

open Library

/-! ## The page loops -/

/-- All of `pages` and the pages from `first` up to `last`. -/
def addPages (pages : Nat → Bool) (first last : Nat) : Nat → Bool :=
  fun page => pages page || (decide (first ≤ page) && decide (page < last))

/-- All of `pages` but the pages from `first` up to `last`. -/
def removePages (pages : Nat → Bool) (first last : Nat) : Nat → Bool :=
  fun page => pages page && !(decide (first ≤ page) && decide (page < last))

theorem add_pages_empty {pages : Nat → Bool} {first last : Nat} (h : last ≤ first) :
    addPages pages first last = pages := by
  funext page
  have : ¬ (first ≤ page ∧ page < last) := by omega
  simp only [addPages, ← Bool.decide_and, this, decide_false, Bool.or_false]

theorem remove_pages_empty {pages : Nat → Bool} {first last : Nat} (h : last ≤ first) :
    removePages pages first last = pages := by
  funext page
  have : ¬ (first ≤ page ∧ page < last) := by omega
  simp only [removePages, ← Bool.decide_and, this, decide_false, Bool.not_false, Bool.and_true]

/-- Adding pages, with the range given by numbers from `base` on. -/
theorem add_pages_iff {pages : Nat → Bool} {base first last page : Nat} (h : base ≤ first) :
    addPages pages (first - base) (last - base) page = true ↔
      pages page = true ∨ (first ≤ base + page ∧ base + page < last) := by
  have : (first - base ≤ page ∧ page < last - base) ↔ (first ≤ base + page ∧ base + page < last) := by
    omega
  simp only [addPages, ← Bool.decide_and, this, Bool.or_eq_true, decide_eq_true_eq]

/-- Removing pages, with the range given by numbers from `base` on. -/
theorem remove_pages_iff {pages : Nat → Bool} {base first last page : Nat} (h : base ≤ first) :
    removePages pages (first - base) (last - base) page = true ↔
      pages page = true ∧ ¬ (first ≤ base + page ∧ base + page < last) := by
  have : (first - base ≤ page ∧ page < last - base) ↔ (first ≤ base + page ∧ base + page < last) := by
    omega
  simp only [removePages, ← Bool.decide_and, this, Bool.and_eq_true, Bool.not_eq_true',
    decide_eq_false_iff_not]

/-- Freeing pages that are all there. -/
theorem free_range_eq {first count : Nat} {pages : Nat → Bool}
    (h : ∀ page, first ≤ page → page < first + count → pages page = true) :
    freeRange first count pages = some (removePages pages first (first + count)) := by
  induction count generalizing pages with
  | zero => rw [freeRange, Nat.add_zero, remove_pages_empty (Nat.le_refl _)]
  | succ count ih =>
    rw [freeRange, if_pos (h _ (by omega) (by omega)), ih]
    · congr 1
      funext page
      by_cases heq : page = first + count
      · subst heq
        simp [removePages]
      · simp only [removePages, Function.update_of_ne heq]
        congr 3
        exact decide_eq_decide.mpr (by omega)
    · intro page hlo hhi
      rw [Function.update_of_ne (by omega)]
      exact h page hlo (by omega)

/-- The pages a failed call has backed are freed again. -/
theorem remove_add_pages {first last : Nat} {pages : Nat → Bool}
    (h : ∀ page, first ≤ page → page < last → pages page = false) :
    removePages (addPages pages first last) first last = pages := by
  funext page
  by_cases hin : first ≤ page ∧ page < last
  · simp [removePages, addPages, hin, h page hin.1 hin.2]
  · simp only [removePages, addPages, ← Bool.decide_and, hin, decide_false, Bool.or_false,
      Bool.not_false, Bool.and_true]

/-- Backing pages that are not there backs them all or leaves everything as it was. -/
theorem back_range_eq (backing : Backing) {first page : Nat} {pages : Nat → Bool} (count : Nat)
    (hpage : first ≤ page)
    (h : ∀ other, first ≤ other → other < page + count → pages other = false) :
    ∃ ok, backRange first backing count page (addPages pages first page) =
      some (if ok then addPages pages first (page + count) else pages, ok) := by
  induction count generalizing page with
  | zero => exact ⟨true, rfl⟩
  | succ count ih =>
    have hnot : addPages pages first page page = false := by
      simp [addPages, h page hpage (by omega)]
    simp only [backRange, hnot, Bool.false_eq_true, if_false]
    split_ifs with hfail
    · refine ⟨false, ?_⟩
      have hthere : ∀ other, first ≤ other → other < first + (page - first) →
          addPages pages first page other = true := by
        intro other hlo hhi
        have : other < page := by omega
        simp [addPages, hlo, this]
      rw [free_range_eq hthere, show first + (page - first) = page by omega,
        remove_add_pages fun other hlo hhi => h other hlo (by omega)]
      rfl
    have hnext : Function.update (addPages pages first page) page true =
        addPages pages first (page + 1) := by
      funext other
      by_cases heq : other = page
      · subst heq
        simp [addPages, hpage]
      · simp only [Function.update_of_ne heq, addPages]
        congr 2
        exact decide_eq_decide.mpr (by omega)
    rw [hnext, show page + (count + 1) = page + 1 + count by omega]
    exact ih (by omega) fun other hlo hhi => h other hlo (by omega)

/-- `binder_update_page_range` backs a range of pages that are not there, or changes nothing. -/
theorem back_page_range_eq {p : Proc} {first last : Nat} (backing : Backing)
    (hbase : p.area.base / pageSize ≤ first)
    (h : ∀ page, first ≤ p.area.base / pageSize + page →
      p.area.base / pageSize + page < last → p.pages page = false) :
    ∃ ok, backPageRange p (first * pageSize) (last * pageSize) backing =
      some ({ p with
        pages :=
          if ok then
            addPages p.pages (first - p.area.base / pageSize) (last - p.area.base / pageSize)
          else p.pages }, ok) := by
  have haligned := p.area.base_aligned
  simp only [backPageRange]
  split_ifs with hempty hvma
  · refine ⟨true, ?_⟩
    have : last ≤ first := Nat.le_of_mul_le_mul_right hempty (by decide)
    rw [if_pos rfl, add_pages_empty (by omega)]
  · exact ⟨false, rfl⟩
  have hfirst : (first * pageSize - p.area.base) / pageSize =
      first - p.area.base / pageSize := by
    simp only [pageSize] at *
    omega
  have hlast : first - p.area.base / pageSize +
      (last * pageSize - first * pageSize + (pageSize - 1)) / pageSize =
        last - p.area.base / pageSize := by
    simp only [pageSize] at *
    omega
  obtain ⟨ok, hok⟩ := back_range_eq backing
    ((last * pageSize - first * pageSize + (pageSize - 1)) / pageSize)
    (Nat.le_refl (first - p.area.base / pageSize))
    fun page hlo hhi => h page (by omega) (by omega)
  rw [add_pages_empty (Nat.le_refl _)] at hok
  refine ⟨ok, ?_⟩
  rw [hfirst, hok, hlast]
  rfl

/-- `binder_update_page_range` frees a range of pages that are all there. -/
theorem free_page_range_eq {p : Proc} {first last : Nat} (hbase : p.area.base / pageSize ≤ first)
    (h : ∀ page, first ≤ p.area.base / pageSize + page →
      p.area.base / pageSize + page < last → p.pages page = true) :
    freePageRange p (first * pageSize) (last * pageSize) =
      some { p with
        pages :=
          removePages p.pages (first - p.area.base / pageSize)
            (last - p.area.base / pageSize) } := by
  have haligned := p.area.base_aligned
  simp only [freePageRange]
  split_ifs with hempty
  · have : last ≤ first := Nat.le_of_mul_le_mul_right hempty (by decide)
    rw [remove_pages_empty (by omega)]
  have hfirst : (last * pageSize - p.area.base) / pageSize -
      (last * pageSize - first * pageSize) / pageSize = first - p.area.base / pageSize := by
    simp only [pageSize] at *
    omega
  have hlast : first - p.area.base / pageSize +
      (last * pageSize - first * pageSize) / pageSize = last - p.area.base / pageSize := by
    simp only [pageSize] at *
    omega
  rw [hfirst, free_range_eq fun page hlo hhi => h page (by omega) (by omega), hlast]
  rfl

/-! ## The backed pages of a changed list -/

/-- A buffer with segments before and after it, in an area that ends at a page boundary. -/
structure Slot (stop : Nat) (front : List Buffer) (buffer : Buffer) (back : List Buffer) :
    Prop where
  front : Segments HasRoom buffer.addr front
  room : buffer.addr + headerSize ≤ endOf stop back
  back : Segments HasRoom stop back
  aligned : stop % pageSize = 0

variable {stop page : Nat} {front back : List Buffer} {buffer prev : Buffer}

theorem Slot.of_segments (h : Segments HasRoom stop (front ++ buffer :: back))
    (haligned : stop % pageSize = 0) : Slot stop front buffer back := by
  obtain ⟨hfront, hroom, hback⟩ := segments_append.mp h
  exact ⟨hfront, hroom, hback, haligned⟩

/-- The pages backed by what lies before a buffer start before it. -/
theorem Slot.front_backed (h : Slot stop front buffer back) (hback : Backed page buffer.addr front) :
    page * pageSize < buffer.addr :=
  (hback.bounds h.front).2

/-- The pages backed by what lies after a buffer end after it. -/
theorem Slot.back_backed (h : Slot stop front buffer back) (hback : Backed page stop back) :
    endOf stop back / pageSize ≤ page :=
  (hback.bounds h.back).1

/-- The page a buffer ends on is backed by the next header, unless the buffer ends with it. -/
theorem Slot.next_backed (h : Slot stop front buffer back)
    (hinside : endOf stop back % pageSize ≠ 0) (hpage : page = endOf stop back / pageSize) :
    Backed page stop back := by
  cases back with
  | nil => exact absurd h.aligned hinside
  | cons next rest =>
    rw [hpage]
    exact backed_first h.back

/-- The backed pages, around one free buffer. -/
theorem Slot.backed_free (hfree : buffer.free = true) :
    Backed page stop (front ++ buffer :: back) ↔
      Backed page buffer.addr front ∨
        (buffer.addr / pageSize ≤ page ∧ page * pageSize < buffer.addr + headerSize) ∨
          Backed page stop back := by
  rw [backed_append, Backed, if_pos hfree, end_of_cons,
    meetsPage_iff (by simp [Buffer.data, headerSize])]
  rfl

/-- The backed pages, around one allocated buffer. -/
theorem Slot.backed_allocated (h : Slot stop front buffer back) (hfree : buffer.free = false) :
    Backed page stop (front ++ buffer :: back) ↔
      Backed page buffer.addr front ∨
        (buffer.addr / pageSize ≤ page ∧ page * pageSize < endOf stop back) ∨
          Backed page stop back := by
  have hroom := h.room
  simp only [headerSize] at hroom
  rw [backed_append, Backed, if_neg (by simp [hfree]), end_of_cons,
    meetsPage_iff (by omega)]

/-- `PAGE_ALIGN` below the last page. -/
theorem page_align_eq {addr : Nat} (h : addr + pageSize ≤ word) :
    pageAlign addr = (addr + 4095) / 4096 * pageSize := by
  simp only [pageAlign, pageMask, wadd, pageSize, word] at *
  rw [Nat.mod_eq_of_lt (by omega)]

/-- What becomes backed when a whole free buffer is allocated, and is given back when it is
freed: the pages between the one its header ends on and the one the next header starts on. -/
theorem Slot.backed_toggle (h : Slot stop front buffer back) (taken : Buffer)
    (hfree : buffer.free = true) (htaken : taken.free = false) (haddr : taken.addr = buffer.addr) :
    Backed page stop (front ++ taken :: back) ↔
      Backed page stop (front ++ buffer :: back) ∨
        ((buffer.data + 4095) / 4096 ≤ page ∧ page < endOf stop back / pageSize) := by
  have htakenSlot : Slot stop front taken back :=
    ⟨haddr ▸ h.front, haddr ▸ h.room, h.back, h.aligned⟩
  rw [htakenSlot.backed_allocated htaken, Slot.backed_free hfree, haddr]
  have hroom := h.room
  have hnext : endOf stop back % pageSize ≠ 0 → page = endOf stop back / pageSize →
      Backed page stop back := h.next_backed
  simp only [Buffer.data, headerSize, pageSize] at *
  constructor
  · intro hbacked
    rcases hbacked with hfront | hself | hback
    · exact .inl (.inl hfront)
    · by_cases hlast : endOf stop back % 4096 ≠ 0 ∧ page = endOf stop back / 4096
      · exact .inl (.inr (.inr (hnext hlast.1 hlast.2)))
      · omega
    · exact .inl (.inr (.inr hback))
  · intro hbacked
    rcases hbacked with (hfront | hself | hback) | hrange
    · exact .inl hfront
    · omega
    · exact .inr (.inr hback)
    · omega

/-- None of these pages is backed while the buffer is free. -/
theorem Slot.not_backed (h : Slot stop front buffer back) (hfree : buffer.free = true)
    (hbacked : Backed page stop (front ++ buffer :: back))
    (hlo : (buffer.data + 4095) / 4096 ≤ page) (hhi : page < endOf stop back / pageSize) :
    False := by
  rw [Slot.backed_free hfree] at hbacked
  rcases hbacked with hfront | hself | hback
  · have := h.front_backed hfront
    simp only [Buffer.data, headerSize, pageSize] at *
    omega
  · simp only [Buffer.data, headerSize, pageSize] at *
    omega
  · have := h.back_backed hback
    omega

/-- What becomes backed when the first part of a free buffer is allocated and a header is put
behind it. -/
theorem Slot.backed_split (h : Slot stop front buffer back) {taken new : Buffer}
    (hfree : buffer.free = true) (htaken : taken.free = false) (haddr : taken.addr = buffer.addr)
    (hnew : new.free = true) (hlo : buffer.data ≤ new.addr)
    (hhi : new.addr + headerSize < endOf stop back) :
    Backed page stop (front ++ taken :: new :: back) ↔
      Backed page stop (front ++ buffer :: back) ∨
        ((buffer.data + 4095) / 4096 ≤ page ∧
          page < min ((new.addr + headerSize + 4095) / 4096) (endOf stop back / pageSize)) := by
  have htakenSlot : Slot stop front taken (new :: back) :=
    ⟨haddr ▸ h.front, by rw [haddr]; exact hlo, ⟨Nat.le_of_lt hhi, h.back⟩, h.aligned⟩
  have hself : Backed page stop (new :: back) ↔
      (new.addr / pageSize ≤ page ∧ page * pageSize < new.addr + headerSize) ∨
        Backed page stop back := by
    have hself : Backed page stop ([] ++ new :: back) ↔ _ := Slot.backed_free hnew
    simpa [Backed] using hself
  rw [htakenSlot.backed_allocated htaken, Slot.backed_free hfree, haddr, hself, end_of_cons]
  have hnext : endOf stop back % pageSize ≠ 0 → page = endOf stop back / pageSize →
      Backed page stop back := h.next_backed
  simp only [Buffer.data, headerSize, pageSize] at *
  constructor
  · intro hbacked
    rcases hbacked with hfront | hself | hself | hback
    · exact .inl (.inl hfront)
    · by_cases hlast : endOf stop back % 4096 ≠ 0 ∧ page = endOf stop back / 4096
      · exact .inl (.inr (.inr (hnext hlast.1 hlast.2)))
      · omega
    · by_cases hlast : endOf stop back % 4096 ≠ 0 ∧ page = endOf stop back / 4096
      · exact .inl (.inr (.inr (hnext hlast.1 hlast.2)))
      · omega
    · exact .inl (.inr (.inr hback))
  · intro hbacked
    rcases hbacked with (hfront | hself | hback) | hrange
    · exact .inl hfront
    · omega
    · exact .inr (.inr (.inr hback))
    · omega

/-- `free_page_start`: neither neighbour has a header on the page the header starts on. -/
theorem free_page_start_iff (prev buffer : Buffer) (next : Option Buffer) :
    (freedPages prev buffer next).1 = true ↔
      bufferEndPage prev ≠ bufferStartPage buffer ∧
        ∀ other ∈ next, ¬ (bufferStartPage other = bufferEndPage buffer ∧
          bufferStartPage other = bufferStartPage buffer) := by
  cases next with
  | none => simp [freedPages, apply_ite Prod.fst]
  | some other =>
    by_cases hshare : bufferEndPage prev = bufferStartPage buffer <;>
      by_cases hend : bufferStartPage other = bufferEndPage buffer <;>
        simp [freedPages, hshare, hend]

/-- `free_page_end`: neither neighbour has a header on the page the header ends on. -/
theorem free_page_end_iff (prev buffer : Buffer) (next : Option Buffer) :
    (freedPages prev buffer next).2 = true ↔
      ¬ (bufferEndPage prev = bufferStartPage buffer ∧
          bufferEndPage prev = bufferEndPage buffer) ∧
        ∀ other ∈ next, bufferStartPage other ≠ bufferEndPage buffer := by
  cases next with
  | none =>
    by_cases hshare : bufferEndPage prev = bufferStartPage buffer <;>
      simp [freedPages, hshare]
  | some other =>
    by_cases hshare : bufferEndPage prev = bufferStartPage buffer <;>
      by_cases hend : bufferStartPage other = bufferEndPage buffer <;>
        simp [freedPages, hshare, hend]

/-- The first page `binder_delete_free_buffer` frees, if any. -/
def firstFreed (prev buffer : Buffer) (next : Option Buffer) : Nat :=
  if (freedPages prev buffer next).1 then buffer.addr / pageSize
  else (buffer.addr + headerSize - 1) / pageSize

/-- The end of the pages `binder_delete_free_buffer` frees. -/
def lastFreed (prev buffer : Buffer) (next : Option Buffer) : Nat :=
  (if (freedPages prev buffer next).2 then (buffer.addr + headerSize - 1) / pageSize
    else buffer.addr / pageSize) + 1

/-- The pages `binder_delete_free_buffer` frees. -/
def Freed (prev buffer : Buffer) (next : Option Buffer) (page : Nat) : Prop :=
  ((freedPages prev buffer next).1 || (freedPages prev buffer next).2) = true ∧
    firstFreed prev buffer next ≤ page ∧ page < lastFreed prev buffer next

/-- They are the pages of the header that hold neither the end of the header before it nor the
start of the one after it. -/
theorem freed_iff {next : Option Buffer} (horder : prev.addr + headerSize ≤ buffer.addr)
    (hnext : ∀ other ∈ next, buffer.addr + headerSize ≤ other.addr) :
    Freed prev buffer next page ↔
      (buffer.addr / pageSize ≤ page ∧ page * pageSize < buffer.addr + headerSize) ∧
        prev.addr + headerSize ≤ page * pageSize ∧
          ∀ other ∈ next, page < other.addr / pageSize := by
  have hstart := free_page_start_iff prev buffer next
  have hend := free_page_end_iff prev buffer next
  rw [Freed, firstFreed, lastFreed]
  generalize (freedPages prev buffer next).1 = freeStart at *
  generalize (freedPages prev buffer next).2 = freeEnd at *
  cases next with
  | none =>
    simp only [Option.not_mem_none, false_implies, implies_true, and_true, bufferStartPage,
      bufferEndPage, pageMask, headerSize, pageSize] at *
    cases freeStart <;> cases freeEnd <;> simp at hstart hend ⊢ <;> omega
  | some other =>
    simp only [Option.mem_def, Option.some.injEq, forall_eq', bufferStartPage,
      bufferEndPage, pageMask, headerSize, pageSize] at *
    cases freeStart <;> cases freeEnd <;> simp at hstart hend ⊢ <;> omega

theorem le_head {addr : Nat} (h : addr ≤ endOf stop back) :
    ∀ other ∈ back.head?, addr ≤ other.addr := by
  intro other hmem
  cases back with
  | nil => cases hmem
  | cons next rest =>
    cases hmem
    exact h

/-- What is given back when the header of a free buffer behind another one is deleted. -/
theorem Slot.backed_delete (h : Slot stop front prev (buffer :: back)) (hprev : prev.free = true)
    (hfree : buffer.free = true) :
    Backed page stop (front ++ prev :: buffer :: back) ↔
      Backed page stop (front ++ prev :: back) ∨ Freed prev buffer back.head? page := by
  have horder : prev.addr + headerSize ≤ buffer.addr := h.room
  have hroom : buffer.addr + headerSize ≤ endOf stop back := h.back.1
  have hself : Backed page stop ([] ++ buffer :: back) ↔ _ := Slot.backed_free hfree
  simp only [List.nil_append, Backed, false_or] at hself
  rw [Slot.backed_free hprev, Slot.backed_free hprev, Backed, hself, freed_iff horder (le_head h.back.1)]
  constructor
  · intro hbacked
    rcases hbacked with hfront | hheader | hheader | hback
    · exact .inl (.inl hfront)
    · exact .inl (.inr (.inl hheader))
    · by_cases hshared : page * pageSize < prev.addr + headerSize
      · refine .inl (.inr (.inl ⟨?_, hshared⟩))
        simp only [headerSize, pageSize] at *
        omega
      by_cases hnext : ∀ other ∈ back.head?, page < other.addr / pageSize
      · exact .inr ⟨hheader, by omega, hnext⟩
      refine .inl (.inr (.inr ?_))
      cases back with
      | nil => simp at hnext
      | cons next rest =>
        have hpage : page = next.addr / pageSize := by
          simp only [List.head?_cons, Option.mem_def, Option.some.injEq, forall_eq',
            end_of_cons, headerSize, pageSize] at *
          omega
        rw [hpage]
        exact backed_first h.back.2
    · exact .inl (.inr (.inr hback))
  · intro hbacked
    rcases hbacked with (hfront | hheader | hback) | hfreed
    · exact .inl hfront
    · exact .inr (.inl hheader)
    · exact .inr (.inr (.inr hback))
    · exact .inr (.inr (.inl hfreed.1))

/-- None of these pages is backed without the header. -/
theorem Slot.not_freed (h : Slot stop front prev (buffer :: back)) (hprev : prev.free = true)
    (hbacked : Backed page stop (front ++ prev :: back)) :
    ¬ Freed prev buffer back.head? page := by
  have horder : prev.addr + headerSize ≤ buffer.addr := h.room
  rw [freed_iff horder (le_head h.back.1)]
  intro hfreed
  obtain ⟨hheader, hapart, hnext⟩ := hfreed
  rw [Slot.backed_free hprev] at hbacked
  rcases hbacked with hfront | hshared | hback
  · have := h.front_backed hfront
    simp only [headerSize] at *
    omega
  · omega
  · have hpage := (hback.bounds h.back.2).1
    cases back with
    | nil => exact hback
    | cons next rest =>
      have := hnext next rfl
      simp only [end_of_cons] at hpage
      omega

end AndroidKernel.BinderAlloc
