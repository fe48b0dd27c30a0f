import Mathlib.Data.List.Basic
import AndroidKernel.Library.Words

/-!
# The buffer allocator of the binder driver

A model of `binder_alloc_buf`, `binder_free_buf` and the functions they call in
`drivers/staging/android/binder.c`, on a machine with 32-bit pointers and pages of 4096 bytes.
Buffer headers lie in the managed area itself, each in front of its data, and the pages of the
area are allocated and freed as headers and data need them.

A red-black tree is the list of its nodes in order. Where the search of `binder_alloc_buf` meets
several buffers of exactly the size asked for, the one it stops at depends on the shape of the
tree and is an argument here. A function returns `none` where the code hits a `BUG_ON`, `BUG` or
frees a page that is not there.
-/

namespace AndroidKernel.BinderAlloc

open Library

/-- `sizeof(struct binder_buffer)`: two list links, an `rb_node` of three words, the flags, two
pointers and two sizes. -/
def headerSize : Nat := 40

/-- `struct binder_buffer` at the address `addr`. -/
structure Buffer where
  addr : Nat
  free : Bool
  asyncTransaction : Bool
  dataSize : Nat
  offsetsSize : Nat
  deriving DecidableEq, Repr

/-- `buffer->data`. -/
def Buffer.data (buffer : Buffer) : Nat := buffer.addr + headerSize

/-- The area `binder_mmap` gets from `get_vm_area`: whole pages, at most `SZ_4M`, and below the
last page of the address space. -/
structure Area where
  base : Nat
  size : Nat
  base_aligned : base % pageSize = 0
  size_aligned : size % pageSize = 0
  size_pos : 0 < size
  size_le : size ≤ 4 * 2 ^ 20
  end_lt : base + size + pageSize ≤ word

/-- The end of the area. -/
def Area.stop (area : Area) : Nat := area.base + area.size

/-- The allocator's fields of `struct binder_proc`. `pages i` says whether `pages[i]` is
non-NULL. -/
structure Proc where
  area : Area
  vma : Bool
  buffers : List Buffer
  freeBuffers : List Nat
  allocatedBuffers : List Nat
  freeAsyncSpace : Nat
  pages : Nat → Bool

/-! ## Buffers -/

/-- The part of the list before a buffer, the buffer, and the part after it. -/
def locate (addr : Nat) : List Buffer → Option (List Buffer × Buffer × List Buffer)
  | [] => none
  | buffer :: rest =>
    if buffer.addr = addr then some ([], buffer, rest)
    else (locate addr rest).map fun (front, found, back) => (buffer :: front, found, back)

/-- Where a buffer ends that has this list after it, in an area that ends at `stop`. -/
def endOf (stop : Nat) : List Buffer → Nat
  | [] => stop
  | next :: _ => next.addr

/-- `buffer->free`. -/
def Proc.isFree (p : Proc) (addr : Nat) : Bool :=
  match locate addr p.buffers with
  | some (_, buffer, _) => buffer.free
  | none => false

/-- `binder_buffer_size`. -/
def binderBufferSize (p : Proc) (addr : Nat) : Nat :=
  match locate addr p.buffers with
  | some (_, buffer, back) => wsub (endOf p.area.stop back) buffer.data
  | none => 0

/-- Write the fields of one buffer. -/
def Proc.modifyBuffer (p : Proc) (addr : Nat) (f : Buffer → Buffer) : Proc :=
  { p with buffers := p.buffers.map fun buffer => if buffer.addr = addr then f buffer else buffer }

/-- `list_add(&new_buffer->entry, &buffer->entry)`: link a buffer behind the one at `addr`. -/
def Proc.linkAfter (p : Proc) (addr : Nat) (new : Buffer) : Proc :=
  { p with buffers := p.buffers.flatMap fun buffer =>
      if buffer.addr = addr then [buffer, new] else [buffer] }

/-- `list_del(&buffer->entry)`. -/
def Proc.unlink (p : Proc) (addr : Nat) : Proc :=
  { p with buffers := p.buffers.filter (·.addr ≠ addr) }

/-- The place of a new node in a tree: before the first node with a greater key. -/
def insertByKey (key : Nat → Nat) (new : Nat) : List Nat → List Nat
  | [] => [new]
  | node :: rest =>
    if key new < key node then new :: node :: rest else node :: insertByKey key new rest

/-- `binder_insert_free_buffer`. -/
def binderInsertFreeBuffer (p : Proc) (addr : Nat) : Option Proc :=
  if p.isFree addr && p.freeBuffers.all p.isFree then
    some { p with freeBuffers := insertByKey (binderBufferSize p) addr p.freeBuffers }
  else none

/-- `binder_insert_allocated_buffer`. -/
def binderInsertAllocatedBuffer (p : Proc) (addr : Nat) : Option Proc :=
  if !p.isFree addr && p.allocatedBuffers.all (fun node => !p.isFree node && node ≠ addr) then
    some { p with allocatedBuffers := insertByKey id addr p.allocatedBuffers }
  else none

/-! ## Pages -/

/-- How `binder_update_page_range` fares: it backs every page, it finds no `vma`, or one of
`alloc_page`, `map_vm_area` and `vm_insert_page` fails at the page with this index. -/
inductive Backing where
  | ok
  | noVma
  | failsAt (page : Nat)
  deriving DecidableEq, Repr

/-- The loop at `free_range`, which frees `count` pages from the last one down to `first`. -/
def freeRange (first : Nat) : Nat → (Nat → Bool) → Option (Nat → Bool)
  | 0, pages => some pages
  | count + 1, pages =>
    if pages (first + count) then
      freeRange first count (Function.update pages (first + count) false)
    else none

/-- The allocating loop, with `count` pages left to back from `page` on. A failure frees the
pages from `first` on that this call has backed. The flag says whether all were backed. -/
def backRange (first : Nat) (backing : Backing) :
    Nat → Nat → (Nat → Bool) → Option ((Nat → Bool) × Bool)
  | 0, _, pages => some (pages, true)
  | count + 1, page, pages =>
    if pages page then none
    else if backing = .failsAt page then
      (freeRange first (page - first) pages).map fun pages => (pages, false)
    else backRange first backing count (page + 1) (Function.update pages page true)

/-- `binder_update_page_range` with `allocate` set. The flag says whether it returned 0. -/
def backPageRange (p : Proc) (start stop : Nat) (backing : Backing) : Option (Proc × Bool) :=
  if stop ≤ start then some (p, true)
  else if backing = .noVma then some (p, false)
  else
    let first := (start - p.area.base) / pageSize
    let count := (stop - start + (pageSize - 1)) / pageSize
    (backRange first backing count first p.pages).map fun (pages, ok) => ({ p with pages }, ok)

/-- `binder_update_page_range` with `allocate` zero. -/
def freePageRange (p : Proc) (start stop : Nat) : Option Proc :=
  if stop ≤ start then some p
  else
    let count := (stop - start) / pageSize
    let first := (stop - p.area.base) / pageSize - count
    (freeRange first count p.pages).map fun pages => { p with pages }

/-! ## Allocation -/

/-- `ALIGN(size, sizeof(void *))`. -/
def alignPointer (size : Nat) : Nat := wadd size 3 / 4 * 4

/-- The space for `data_size` bytes of data and `offsets_size` bytes of offsets. -/
def bufferSpace (dataSize offsetsSize : Nat) : Nat :=
  wadd (alignPointer dataSize) (alignPointer offsetsSize)

/-- The search for the best fit: a free buffer of this size, `tie` choosing among several, or
else the smallest larger one. The flag says whether the size is met exactly (`n != NULL`). -/
def bestFit (p : Proc) (size tie : Nat) : Option (Nat × Bool) :=
  let exactFits := p.freeBuffers.filter fun node => binderBufferSize p node = size
  match exactFits[tie % exactFits.length]? with
  | some addr => some (addr, true)
  | none => (p.freeBuffers.find? fun node => size < binderBufferSize p node).map (·, false)

/-- What `binder_alloc_buf` takes from the buffer it found: `size`, with the header of a new
buffer behind it if there is room for one. -/
def takenSize (size bufferSize : Nat) (exactFit : Bool) : Nat :=
  if exactFit then bufferSize
  else if wadd (wadd size headerSize) 4 ≥ bufferSize then size
  else wadd size headerSize

/-- Move the buffer from the tree of free buffers to the tree of allocated ones. -/
def markAllocated (p : Proc) (addr : Nat) : Option Proc :=
  let p := { p with freeBuffers := p.freeBuffers.filter (· ≠ addr) }
  binderInsertAllocatedBuffer (p.modifyBuffer addr fun buffer => { buffer with free := false })
    addr

/-- Put the header of a new free buffer behind the `size` bytes of the one at `addr`. -/
def splitBuffer (p : Proc) (addr size : Nat) : Option Proc :=
  let new := addr + headerSize + size
  binderInsertFreeBuffer (p.linkAfter addr ⟨new, true, false, 0, 0⟩) new

/-- Write what was asked for into the header and charge asynchronous space. -/
def recordRequest (p : Proc) (addr size dataSize offsetsSize : Nat) (isAsync : Bool) : Proc :=
  let p := p.modifyBuffer addr fun buffer =>
    { buffer with dataSize, offsetsSize, asyncTransaction := isAsync }
  { p with freeAsyncSpace :=
      if isAsync then wsub p.freeAsyncSpace (wadd size headerSize) else p.freeAsyncSpace }

/-- The part of `binder_alloc_buf` after its pages are backed. -/
def takeBuffer (p : Proc) (addr size taken dataSize offsetsSize : Nat) (isAsync : Bool) :
    Option Proc := do
  let p ← markAllocated p addr
  let p ← if taken ≠ size then splitBuffer p addr size else some p
  some (recordRequest p addr size dataSize offsetsSize isAsync)

/-- `binder_alloc_buf`: the buffer it returns, or `none` for NULL. -/
def binderAllocBuf (p : Proc) (dataSize offsetsSize : Nat) (isAsync : Bool) (tie : Nat)
    (backing : Backing) : Option (Proc × Option Nat) :=
  let size := bufferSpace dataSize offsetsSize
  if !p.vma then some (p, none)
  else if size < dataSize ∨ size < offsetsSize then some (p, none)
  else if isAsync ∧ p.freeAsyncSpace < wadd size headerSize then some (p, none)
  else if !p.freeBuffers.all p.isFree then none
  else
    match bestFit p size tie with
    | none => some (p, none)
    | some (addr, exactFit) => do
      let data := addr + headerSize
      let bufferSize := binderBufferSize p addr
      let hasPageAddr := pageMask (wadd data bufferSize)
      let taken := takenSize size bufferSize exactFit
      let endPageAddr := min (pageAlign (wadd data taken)) hasPageAddr
      let (p, ok) ← backPageRange p (pageAlign data) endPageAddr backing
      if ok then
        let p ← takeBuffer p addr size taken dataSize offsetsSize isAsync
        some (p, some addr)
      else some (p, none)

/-! ## Release -/

/-- `buffer_start_page`. -/
def bufferStartPage (buffer : Buffer) : Nat := pageMask buffer.addr

/-- `buffer_end_page`. -/
def bufferEndPage (buffer : Buffer) : Nat := pageMask (buffer.addr + headerSize - 1)

/-- The pages of its header that a deleted free buffer gives back: `free_page_start` and
`free_page_end`. -/
def freedPages (prev buffer : Buffer) (next : Option Buffer) : Bool × Bool :=
  let (freeStart, freeEnd) :=
    if bufferEndPage prev = bufferStartPage buffer then
      (false, bufferEndPage prev != bufferEndPage buffer)
    else (true, true)
  match next with
  | some next =>
    if bufferStartPage next = bufferEndPage buffer then
      (freeStart && bufferStartPage next != bufferStartPage buffer, false)
    else (freeStart, freeEnd)
  | none => (freeStart, freeEnd)

/-- `binder_delete_free_buffer`. -/
def binderDeleteFreeBuffer (p : Proc) (addr : Nat) : Option Proc := do
  let (front, buffer, back) ← locate addr p.buffers
  let prev ← front.getLast?
  if !prev.free then none
  else
    let (freeStart, freeEnd) := freedPages prev buffer back.head?
    let p := p.unlink addr
    if freeStart || freeEnd then
      freePageRange p
        (if freeStart then bufferStartPage buffer else bufferEndPage buffer)
        ((if freeEnd then bufferEndPage buffer else bufferStartPage buffer) + pageSize)
    else some p

/-- The part of `binder_free_buf` that merges a free buffer behind the one at `addr` into it. -/
def mergeNext (p : Proc) (addr : Nat) : Option Proc := do
  let (_, _, back) ← locate addr p.buffers
  match back.head? with
  | some next =>
    if next.free then
      binderDeleteFreeBuffer { p with freeBuffers := p.freeBuffers.filter (· ≠ next.addr) }
        next.addr
    else some p
  | none => some p

/-- The last part of `binder_free_buf`: merge the buffer at `addr` into a free one before it, and
put the result into the tree of free buffers. -/
def mergePrev (p : Proc) (addr : Nat) : Option Proc := do
  let (front, _, _) ← locate addr p.buffers
  match front.getLast? with
  | some prev =>
    if prev.free then do
      let p ← binderDeleteFreeBuffer p addr
      binderInsertFreeBuffer { p with freeBuffers := p.freeBuffers.filter (· ≠ prev.addr) }
        prev.addr
    else binderInsertFreeBuffer p addr
  | none => binderInsertFreeBuffer p addr

/-- `binder_free_buf`. Its callers have cleared `buffer->transaction`. -/
def binderFreeBuf (p : Proc) (addr : Nat) : Option Proc := do
  let (_, buffer, _) ← locate addr p.buffers
  let bufferSize := binderBufferSize p addr
  let size := bufferSpace buffer.dataSize buffer.offsetsSize
  if buffer.free ∨ size > bufferSize ∨ addr < p.area.base ∨ addr > p.area.stop then none
  else
    let p := if buffer.asyncTransaction then
        { p with freeAsyncSpace := wadd p.freeAsyncSpace (wadd size headerSize) }
      else p
    let p ← freePageRange p (pageAlign buffer.data) (pageMask (wadd buffer.data bufferSize))
    let p := { p with allocatedBuffers := p.allocatedBuffers.filter (· ≠ addr) }
    let p ← mergeNext (p.modifyBuffer addr fun buffer => { buffer with free := true }) addr
    mergePrev p addr

/-! ## Runs -/

/-- The state `binder_mmap` builds over an area. -/
def binderMmap (area : Area) : Proc where
  area
  vma := true
  buffers := [⟨area.base, true, false, 0, 0⟩]
  freeBuffers := [area.base]
  allocatedBuffers := []
  freeAsyncSpace := area.size / 2
  pages := fun page => page = 0

/-- The calls on the allocator of a process. -/
inductive Op where
  | alloc (dataSize offsetsSize : Fin (2 ^ 32)) (isAsync : Bool) (tie : Nat) (backing : Backing)
  | free (addr : Nat)
  | vmaClose

/-- One call. A buffer is freed only if `binder_buffer_lookup` finds it among the allocated
ones. -/
def step (p : Proc) : Op → Option Proc
  | .alloc dataSize offsetsSize isAsync tie backing =>
    (binderAllocBuf p dataSize offsetsSize isAsync tie backing).map Prod.fst
  | .free addr => if addr ∈ p.allocatedBuffers then binderFreeBuf p addr else some p
  | .vmaClose => some { p with vma := false }

/-!
## The layout of the buffers

A list of buffers cuts the area into consecutive segments, each from the address of a buffer to
the address of the next one. `Segments` states a property of every segment and `Backed` says
which pages the headers and the allocated data lie on. Both split over concatenation, which is
how a change to one buffer is read off the list.
-/

/-- Every buffer and the address it ends at are related. -/
def Segments (related : Buffer → Nat → Prop) (stop : Nat) : List Buffer → Prop
  | [] => True
  | buffer :: rest => related buffer (endOf stop rest) ∧ Segments related stop rest

/-- The page contains a byte of a header or of an allocated buffer. -/
def Backed (page stop : Nat) : List Buffer → Prop
  | [] => False
  | buffer :: rest =>
    MeetsPage page buffer.addr (if buffer.free then buffer.data else endOf stop rest) ∨
      Backed page stop rest

/-- A segment has room for its header. -/
def HasRoom (buffer : Buffer) (next : Nat) : Prop := buffer.data ≤ next

/-- The segment of an allocated buffer is what was asked for, with less space to spare than a
header and a word. -/
def Fits (buffer : Buffer) (next : Nat) : Prop :=
  buffer.free = false →
    buffer.data + bufferSpace buffer.dataSize buffer.offsetsSize ≤ next ∧
      next ≤ buffer.data + bufferSpace buffer.dataSize buffer.offsetsSize + headerSize + 4

variable {related : Buffer → Nat → Prop} {stop page : Nat} {buffer : Buffer}
  {front back xs ys : List Buffer}

@[simp] theorem end_of_cons : endOf stop (buffer :: back) = buffer.addr :=
  rfl

@[simp] theorem end_of_nil : endOf stop [] = stop :=
  rfl

theorem end_of_append : endOf stop (xs ++ ys) = endOf (endOf stop ys) xs := by
  cases xs <;> rfl

theorem segments_append :
    Segments related stop (xs ++ ys) ↔
      Segments related (endOf stop ys) xs ∧ Segments related stop ys := by
  induction xs with
  | nil => simp [Segments]
  | cons buffer rest ih =>
    simp only [List.cons_append, Segments, ih, end_of_append]
    exact and_assoc.symm

theorem backed_append :
    Backed page stop (xs ++ ys) ↔ Backed page (endOf stop ys) xs ∨ Backed page stop ys := by
  induction xs with
  | nil => simp [Backed]
  | cons buffer rest ih =>
    simp only [List.cons_append, Backed, ih, end_of_append]
    exact or_assoc.symm

/-- Segments with room for their headers follow one another up to the end. -/
theorem Segments.end_le (h : Segments HasRoom stop xs) : endOf stop xs ≤ stop := by
  induction xs with
  | nil => exact Nat.le_refl _
  | cons buffer rest ih =>
    have hroom : buffer.addr + headerSize ≤ endOf stop rest := h.1
    have := ih h.2
    simp only [end_of_cons]
    omega

/-- Every buffer lies between the start of the first one and the end. -/
theorem Segments.bounds (h : Segments HasRoom stop xs) (hmem : buffer ∈ xs) :
    endOf stop xs ≤ buffer.addr ∧ buffer.data ≤ stop := by
  induction xs with
  | nil => exact absurd hmem List.not_mem_nil
  | cons first rest ih =>
    have hroom : first.addr + headerSize ≤ endOf stop rest := h.1
    have hend := h.2.end_le
    rcases List.mem_cons.mp hmem with heq | hmem
    · subst heq
      exact ⟨Nat.le_refl _, Nat.le_trans h.1 hend⟩
    · obtain ⟨hlo, hhi⟩ := ih h.2 hmem
      simp only [end_of_cons]
      exact ⟨by omega, hhi⟩

/-- The buffers are sorted by address. -/
theorem Segments.sorted (h : Segments HasRoom stop xs) :
    xs.Pairwise fun first second => first.addr < second.addr := by
  induction xs with
  | nil => exact List.Pairwise.nil
  | cons first rest ih =>
    have hroom : first.addr + headerSize ≤ endOf stop rest := h.1
    refine List.Pairwise.cons ?_ (ih h.2)
    intro second hmem
    have := (h.2.bounds hmem).1
    simp only [headerSize] at hroom
    omega

/-- The backed pages lie between the start of the first buffer and the end. -/
theorem Backed.bounds (h : Backed page stop xs) (hroom : Segments HasRoom stop xs) :
    endOf stop xs / pageSize ≤ page ∧ page * pageSize < stop := by
  induction xs with
  | nil => exact absurd h id
  | cons first rest ih =>
    have hfirst : first.addr + headerSize ≤ endOf stop rest := hroom.1
    have hend := hroom.2.end_le
    simp only [end_of_cons, headerSize] at *
    rcases h with h | h
    · obtain ⟨byte, hlo, hhi, hpage⟩ := h
      have hbyte : byte < stop := by
        split_ifs at hhi
        · simp only [Buffer.data, headerSize] at hhi
          omega
        · omega
      simp only [pageSize] at *
      omega
    · obtain ⟨hlo, hhi⟩ := ih h hroom.2
      simp only [pageSize] at *
      omega

/-- The page of the first header is backed. -/
theorem backed_first (hroom : Segments HasRoom stop (buffer :: xs)) :
    Backed (buffer.addr / pageSize) stop (buffer :: xs) := by
  have hfirst : buffer.addr + headerSize ≤ endOf stop xs := hroom.1
  refine .inl ⟨buffer.addr, Nat.le_refl _, ?_, rfl⟩
  split_ifs
  · simp [Buffer.data, headerSize]
  · simp only [headerSize] at hfirst
    omega

/-- Every byte from the first buffer to the end lies in the segment of a buffer. -/
theorem Segments.covers (h : Segments HasRoom stop xs) {byte : Nat} (hlo : endOf stop xs ≤ byte)
    (hhi : byte < stop) :
    ∃ front buffer back, xs = front ++ buffer :: back ∧ buffer.addr ≤ byte ∧
      byte < endOf stop back := by
  induction xs with
  | nil => exact absurd hlo (by simpa using hhi)
  | cons first rest ih =>
    by_cases hfirst : byte < endOf stop rest
    · exact ⟨[], first, rest, rfl, hlo, hfirst⟩
    · obtain ⟨front, buffer, back, hlist, hbyte⟩ := ih h.2 (by omega)
      exact ⟨first :: front, buffer, back, by rw [hlist]; rfl, hbyte⟩

/-- The page holds a byte of the header, or of the data the buffer was allocated for. -/
def Buffer.OnPage (buffer : Buffer) (page : Nat) : Prop :=
  MeetsPage page buffer.addr buffer.data ∨
    (buffer.free = false ∧ MeetsPage page buffer.data
      (buffer.data + bufferSpace buffer.dataSize buffer.offsetsSize))

/-- No page is backed for the spare bytes behind an allocated buffer only: such a page also holds
the byte before them or the next header. -/
theorem backed_iff_on_page (hroom : Segments HasRoom stop xs) (hfits : Segments Fits stop xs)
    (haligned : stop % pageSize = 0) :
    Backed page stop xs ↔ ∃ buffer ∈ xs, buffer.OnPage page := by
  induction xs with
  | nil => simp [Backed]
  | cons first rest ih =>
    have ih := ih hroom.2 hfits.2
    have hfirst : first.addr + headerSize ≤ endOf stop rest := hroom.1
    simp only [Backed, List.exists_mem_cons_iff, ← ih]
    by_cases hfree : first.free = true
    · simp [Buffer.OnPage, hfree]
    have hallocated : first.free = false := by simpa using hfree
    obtain ⟨hle, hslack⟩ := hfits.1 hallocated
    rw [if_neg hfree]
    constructor
    · intro hbacked
      rcases hbacked with hself | hrest
      · obtain ⟨byte, hlo, hhi, hpage⟩ := hself
        by_cases hheader : byte < first.data
        · exact .inl (.inl ⟨byte, hlo, hheader, hpage⟩)
        by_cases hdata : byte < first.data + bufferSpace first.dataSize first.offsetsSize
        · exact .inl (.inr ⟨hallocated, byte, by omega, hdata, hpage⟩)
        -- A spare byte: go to the byte before the spare ones, or to the next header.
        by_cases hbefore :
            page * pageSize < first.data + bufferSpace first.dataSize first.offsetsSize
        · left
          by_cases hspace : bufferSpace first.dataSize first.offsetsSize = 0
          · refine .inl ⟨first.data - 1, ?_, ?_, ?_⟩ <;>
              simp only [Buffer.data, headerSize, pageSize] at * <;> omega
          · refine .inr ⟨hallocated, first.data +
              bufferSpace first.dataSize first.offsetsSize - 1, ?_, ?_, ?_⟩ <;>
                simp only [Buffer.data, headerSize, pageSize] at * <;> omega
        right
        cases rest with
        | nil =>
          simp only [end_of_nil, headerSize, pageSize] at *
          omega
        | cons next rest =>
          have hnext : page = next.addr / pageSize := by
            simp only [end_of_cons, headerSize, pageSize] at *
            omega
          rw [hnext]
          exact backed_first hroom.2
      · exact .inr hrest
    · intro hbacked
      rcases hbacked with hself | hrest
      · left
        rcases hself with ⟨byte, hlo, hhi, hpage⟩ | ⟨-, byte, hlo, hhi, hpage⟩
        · exact ⟨byte, hlo, by simp only [Buffer.data] at *; omega, hpage⟩
        · exact ⟨byte, by simp only [Buffer.data] at *; omega, by omega, hpage⟩
      · exact .inr hrest

/-! ## Finding a buffer -/

theorem locate_eq_some {addr : Nat} :
    locate addr xs = some (front, buffer, back) ↔
      xs = front ++ buffer :: back ∧ buffer.addr = addr ∧ ∀ other ∈ front, other.addr ≠ addr := by
  induction xs generalizing front with
  | nil => simp [locate]
  | cons first rest ih =>
    simp only [locate]
    split_ifs with heq
    · constructor
      · intro h
        cases h
        exact ⟨rfl, heq, by simp⟩
      intro h
      obtain ⟨hlist, -, hfront⟩ := h
      cases front with
      | nil =>
        cases hlist
        rfl
      | cons head front =>
        cases hlist
        exact absurd heq (hfront first List.mem_cons_self)
    constructor
    · intro h
      obtain ⟨⟨front', found, back'⟩, hfound, hsplit⟩ := Option.map_eq_some_iff.mp h
      cases hsplit
      obtain ⟨hlist, haddr, hfront⟩ := ih.mp hfound
      refine ⟨by rw [hlist]; rfl, haddr, ?_⟩
      intro other hmem
      rcases List.mem_cons.mp hmem with hhead | hmem
      · exact hhead ▸ heq
      · exact hfront other hmem
    intro h
    obtain ⟨hlist, haddr, hfront⟩ := h
    cases front with
    | nil =>
      cases hlist
      exact absurd haddr heq
    | cons head front =>
      cases hlist
      rw [ih.mpr ⟨rfl, haddr, fun other hmem => hfront other (List.mem_cons_of_mem _ hmem)⟩]
      rfl

end AndroidKernel.BinderAlloc
