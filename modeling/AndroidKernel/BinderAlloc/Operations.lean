import AndroidKernel.BinderAlloc.Pages
import Mathlib.Data.List.Chain

/-!
# Allocating and freeing buffers

`WellFormed` is the allocator's invariant. Each function of the model is shown to succeed in a
well-formed state, with the list of buffers, the trees and the pages it leaves.
-/

namespace AndroidKernel.BinderAlloc

open Library

/-! ## The invariant -/

/-- The buffers tile the area and the pages are exactly the backed ones. -/
structure Laid (p : Proc) : Prop where
  start : endOf p.area.stop p.buffers = p.area.base
  room : Segments HasRoom p.area.stop p.buffers
  fits : Segments Fits p.area.stop p.buffers
  backed : ∀ page, p.pages page = true ↔
    Backed (p.area.base / pageSize + page) p.area.stop p.buffers

/-- The buffers are in the order of their addresses. -/
def Sorted (buffers : List Buffer) : Prop :=
  buffers.Pairwise fun first second => first.addr < second.addr

/-- A tree holds exactly the buffers with this `free` flag. -/
structure Holds (tree : List Nat) (free : Bool) (buffers : List Buffer) : Prop where
  nodup : tree.Nodup
  mem : ∀ addr, addr ∈ tree ↔ ∃ buffer ∈ buffers, buffer.addr = addr ∧ buffer.free = free

/-- Two neighbours are not both free. -/
def NotBothFree (first second : Buffer) : Prop := ¬ (first.free = true ∧ second.free = true)

/-- The invariant of the allocator. -/
structure WellFormed (p : Proc) : Prop where
  laid : Laid p
  freeTree : Holds p.freeBuffers true p.buffers
  allocatedTree : Holds p.allocatedBuffers false p.buffers
  merged : p.buffers.IsChain NotBothFree

variable {p : Proc} {addr : Nat} {front back : List Buffer} {buffer : Buffer}

/-! ## The list of buffers -/

/-- The addresses around one buffer differ from its own. -/
theorem Sorted.apart (h : Sorted (front ++ buffer :: back)) :
    (∀ other ∈ front, other.addr ≠ buffer.addr) ∧ ∀ other ∈ back, other.addr ≠ buffer.addr := by
  obtain ⟨-, hback, hfront⟩ := List.pairwise_append.mp h
  constructor
  · intro other hmem
    have := hfront other hmem buffer List.mem_cons_self
    omega
  · intro other hmem
    have := (List.pairwise_cons.mp hback).1 other hmem
    omega

theorem Sorted.locate_eq (h : Sorted (front ++ buffer :: back)) :
    locate buffer.addr (front ++ buffer :: back) = some (front, buffer, back) :=
  locate_eq_some.mpr ⟨rfl, rfl, h.apart.1⟩

theorem Sorted.is_free_eq (h : Sorted p.buffers) (hmem : buffer ∈ p.buffers) :
    p.isFree buffer.addr = buffer.free := by
  obtain ⟨front, back, hlist⟩ := List.append_of_mem hmem
  rw [hlist] at h
  rw [Proc.isFree, hlist, h.locate_eq]

theorem Laid.sorted (h : Laid p) : Sorted p.buffers :=
  h.room.sorted

theorem Laid.slot (h : Laid p) (hlist : p.buffers = front ++ buffer :: back) :
    Slot p.area.stop front buffer back := by
  refine Slot.of_segments (hlist ▸ h.room) ?_
  have hbase := p.area.base_aligned
  have hsize := p.area.size_aligned
  simp only [Area.stop, pageSize] at *
  omega

/-- Where the buffer at `addr` lies. -/
theorem Laid.bounds (h : Laid p) (hlist : p.buffers = front ++ buffer :: back) :
    p.area.base ≤ buffer.addr ∧ buffer.addr + headerSize ≤ endOf p.area.stop back ∧
      endOf p.area.stop back ≤ p.area.stop ∧ p.area.stop + pageSize ≤ word := by
  have hslot := h.slot hlist
  have hmem : buffer ∈ p.buffers := by rw [hlist]; simp
  have hlo := (h.room.bounds hmem).1
  rw [h.start] at hlo
  exact ⟨hlo, hslot.room, hslot.back.end_le, p.area.end_lt⟩

theorem Laid.buffer_size_eq (h : Laid p) (hlist : p.buffers = front ++ buffer :: back) :
    binderBufferSize p buffer.addr = endOf p.area.stop back - buffer.data := by
  obtain ⟨-, hroom, hend, hword⟩ := h.bounds hlist
  have hsorted := h.sorted
  rw [hlist] at hsorted
  rw [binderBufferSize, hlist, hsorted.locate_eq]
  refine wsub_eq hroom ?_
  simp only [pageSize] at hword
  omega

theorem map_eq_of_not_mem {f : Buffer → Buffer} {xs : List Buffer}
    (h : ∀ other ∈ xs, other.addr ≠ addr) :
    xs.map (fun other => if other.addr = addr then f other else other) = xs := by
  conv_rhs => rw [← List.map_id xs]
  exact List.map_congr_left fun other hmem => if_neg (h other hmem)

theorem modify_buffer_eq (h : Sorted p.buffers) (hlist : p.buffers = front ++ buffer :: back)
    (f : Buffer → Buffer) :
    p.modifyBuffer buffer.addr f = { p with buffers := front ++ f buffer :: back } := by
  rw [hlist] at h
  obtain ⟨hfront, hback⟩ := h.apart
  simp only [Proc.modifyBuffer, hlist, List.map_append, List.map_cons, if_true,
    map_eq_of_not_mem hfront, map_eq_of_not_mem hback]

theorem flat_map_eq_of_not_mem {f : Buffer → List Buffer} {xs : List Buffer}
    (h : ∀ other ∈ xs, other.addr ≠ addr) :
    xs.flatMap (fun other => if other.addr = addr then f other else [other]) = xs := by
  induction xs with
  | nil => rfl
  | cons first rest ih =>
    rw [List.flatMap_cons, if_neg (h first List.mem_cons_self),
      ih fun other hmem => h other (List.mem_cons_of_mem _ hmem)]
    rfl

theorem link_after_eq (h : Sorted p.buffers) (hlist : p.buffers = front ++ buffer :: back)
    (new : Buffer) :
    p.linkAfter buffer.addr new = { p with buffers := front ++ buffer :: new :: back } := by
  rw [hlist] at h
  obtain ⟨hfront, hback⟩ := h.apart
  simp only [Proc.linkAfter, hlist, List.flatMap_append, List.flatMap_cons, if_true,
    flat_map_eq_of_not_mem hfront, flat_map_eq_of_not_mem hback]
  rfl

theorem filter_eq_of_not_mem {xs : List Buffer} (h : ∀ other ∈ xs, other.addr ≠ addr) :
    xs.filter (·.addr ≠ addr) = xs :=
  List.filter_eq_self.mpr fun other hmem => by simpa using h other hmem

theorem unlink_eq (h : Sorted p.buffers) (hlist : p.buffers = front ++ buffer :: back) :
    p.unlink buffer.addr = { p with buffers := front ++ back } := by
  rw [hlist] at h
  obtain ⟨hfront, hback⟩ := h.apart
  simp only [Proc.unlink, hlist, List.filter_append, filter_eq_of_not_mem hfront]
  rw [List.filter_cons_of_neg (by simp), filter_eq_of_not_mem hback]

/-! ## The trees -/

theorem mem_insert_by_key {key : Nat → Nat} {new other : Nat} {tree : List Nat} :
    other ∈ insertByKey key new tree ↔ other = new ∨ other ∈ tree := by
  induction tree with
  | nil => simp [insertByKey]
  | cons node rest ih =>
    simp only [insertByKey]
    split_ifs
    · simp
    · simp only [List.mem_cons, ih]
      exact or_left_comm

theorem nodup_insert_by_key {key : Nat → Nat} {new : Nat} {tree : List Nat} (h : tree.Nodup)
    (hnew : new ∉ tree) : (insertByKey key new tree).Nodup := by
  induction tree with
  | nil => simp [insertByKey]
  | cons node rest ih =>
    rw [List.nodup_cons] at h
    rw [List.mem_cons, not_or] at hnew
    simp only [insertByKey]
    split_ifs
    · simp [h, hnew]
    · rw [List.nodup_cons, mem_insert_by_key]
      exact ⟨fun hmem => hmem.elim (fun heq => hnew.1 heq.symm) h.1, ih h.2 hnew.2⟩

variable {tree : List Nat} {free : Bool}

/-- Taking a buffer out of the tree and out of the list. -/
theorem Holds.erase (h : Holds tree free (front ++ buffer :: back))
    (hsorted : Sorted (front ++ buffer :: back)) :
    Holds (tree.filter (· ≠ buffer.addr)) free (front ++ back) := by
  obtain ⟨hfront, hback⟩ := hsorted.apart
  refine ⟨h.nodup.filter _, ?_⟩
  intro addr
  rw [List.mem_filter, h.mem]
  constructor
  · intro hmem
    obtain ⟨⟨other, hin, haddr, hfree⟩, hne⟩ := hmem
    have hother : other ≠ buffer := fun heq => by simp [← haddr, heq] at hne
    exact ⟨other, by simpa [hother] using hin, haddr, hfree⟩
  intro hmem
  obtain ⟨other, hin, haddr, hfree⟩ := hmem
  have hne : other.addr ≠ buffer.addr := by
    rcases List.mem_append.mp hin with hin | hin
    · exact hfront other hin
    · exact hback other hin
  refine ⟨⟨other, ?_, haddr, hfree⟩, by simpa [← haddr] using hne⟩
  rcases List.mem_append.mp hin with hin | hin <;> simp [hin]

/-- Putting a buffer into the tree and into the list. -/
theorem Holds.insert (h : Holds tree free (front ++ back)) (hfree : buffer.free = free)
    (hsorted : Sorted (front ++ buffer :: back)) (key : Nat → Nat) :
    Holds (insertByKey key buffer.addr tree) free (front ++ buffer :: back) := by
  obtain ⟨hfront, hback⟩ := hsorted.apart
  have hnew : buffer.addr ∉ tree := by
    intro hmem
    obtain ⟨other, hin, haddr, -⟩ := (h.mem _).mp hmem
    rcases List.mem_append.mp hin with hin | hin
    · exact hfront other hin haddr
    · exact hback other hin haddr
  refine ⟨nodup_insert_by_key h.nodup hnew, ?_⟩
  intro addr
  rw [mem_insert_by_key, h.mem]
  simp only [List.mem_append, List.mem_cons]
  constructor
  · intro hmem
    rcases hmem with heq | ⟨other, hin, hother⟩
    · exact ⟨buffer, .inr (.inl rfl), heq.symm, hfree⟩
    · exact ⟨other, hin.imp_right .inr, hother⟩
  · intro hmem
    obtain ⟨other, hin, haddr, hother⟩ := hmem
    rcases hin with hin | heq | hin
    · exact .inr ⟨other, .inl hin, haddr, hother⟩
    · exact .inl (heq ▸ haddr.symm)
    · exact .inr ⟨other, .inr hin, haddr, hother⟩

/-- A buffer with the other flag does not matter to a tree. -/
theorem holds_skip (hfree : buffer.free ≠ free) :
    Holds tree free (front ++ buffer :: back) ↔ Holds tree free (front ++ back) := by
  have hsame : ∀ addr, (∃ other ∈ front ++ buffer :: back, other.addr = addr ∧ other.free = free) ↔
      ∃ other ∈ front ++ back, other.addr = addr ∧ other.free = free := by
    intro addr
    simp only [List.mem_append, List.mem_cons]
    constructor
    · intro hmem
      obtain ⟨other, hin, haddr, hother⟩ := hmem
      rcases hin with hin | heq | hin
      · exact ⟨other, .inl hin, haddr, hother⟩
      · exact absurd (heq ▸ hother) hfree
      · exact ⟨other, .inr hin, haddr, hother⟩
    · intro hmem
      obtain ⟨other, hin, hother⟩ := hmem
      exact ⟨other, hin.imp_right .inr, hother⟩
  constructor
  · intro h
    exact ⟨h.nodup, fun addr => (h.mem addr).trans (hsame addr)⟩
  · intro h
    exact ⟨h.nodup, fun addr => (h.mem addr).trans (hsame addr).symm⟩

/-- `binder_insert_free_buffer` puts a free buffer into the tree. -/
theorem insert_free_buffer_eq (hsorted : Sorted p.buffers)
    (hlist : p.buffers = front ++ buffer :: back) (hfree : buffer.free = true)
    (htree : Holds p.freeBuffers true (front ++ back)) :
    ∃ tree, binderInsertFreeBuffer p buffer.addr = some { p with freeBuffers := tree } ∧
      Holds tree true (front ++ buffer :: back) := by
  refine ⟨_, if_pos ?_, htree.insert hfree (hlist ▸ hsorted) _⟩
  rw [Bool.and_eq_true, hsorted.is_free_eq (by rw [hlist]; simp), List.all_eq_true]
  refine ⟨hfree, ?_⟩
  intro addr hmem
  obtain ⟨other, hin, haddr, hother⟩ := (htree.mem addr).mp hmem
  rw [← haddr, hsorted.is_free_eq, hother]
  rw [hlist]
  rcases List.mem_append.mp hin with hin | hin <;> simp [hin]

/-- `binder_insert_allocated_buffer` puts an allocated buffer into the tree. -/
theorem insert_allocated_buffer_eq (hsorted : Sorted p.buffers)
    (hlist : p.buffers = front ++ buffer :: back) (hfree : buffer.free = false)
    (htree : Holds p.allocatedBuffers false (front ++ back)) :
    ∃ tree, binderInsertAllocatedBuffer p buffer.addr =
        some { p with allocatedBuffers := tree } ∧
      Holds tree false (front ++ buffer :: back) := by
  refine ⟨_, if_pos ?_, htree.insert hfree (hlist ▸ hsorted) _⟩
  rw [Bool.and_eq_true, hsorted.is_free_eq (by rw [hlist]; simp), List.all_eq_true]
  refine ⟨by simp [hfree], ?_⟩
  intro addr hmem
  obtain ⟨other, hin, haddr, hother⟩ := (htree.mem addr).mp hmem
  have hmem : other ∈ p.buffers := by
    rw [hlist]
    rcases List.mem_append.mp hin with hin | hin <;> simp [hin]
  have hne : other.addr ≠ buffer.addr := by
    obtain ⟨hfront, hback⟩ := (hlist ▸ hsorted : Sorted (front ++ buffer :: back)).apart
    rcases List.mem_append.mp hin with hin | hin
    · exact hfront other hin
    · exact hback other hin
  rw [← haddr, hsorted.is_free_eq hmem, hother]
  simpa using hne

/-! ## Merging free buffers -/

variable {prev : Buffer}

/-- A list without one header still tiles the area. -/
theorem Laid.delete_segments (h : Laid p) (hlist : p.buffers = front ++ prev :: buffer :: back)
    (hprev : prev.free = true) :
    endOf p.area.stop (front ++ prev :: back) = p.area.base ∧
      Segments HasRoom p.area.stop (front ++ prev :: back) ∧
        Segments Fits p.area.stop (front ++ prev :: back) := by
  have hstart := h.start
  have hroom := h.room
  have hfits := h.fits
  rw [hlist] at hstart hroom hfits
  obtain ⟨hfront, hself, hbuffer, hback⟩ := segments_append.mp hroom
  obtain ⟨hfront', -, -, hback'⟩ := segments_append.mp hfits
  have hself : prev.addr + headerSize ≤ buffer.addr := hself
  have hbuffer : buffer.addr + headerSize ≤ endOf p.area.stop back := hbuffer
  refine ⟨?_, segments_append.mpr ⟨hfront, ?_, hback⟩, segments_append.mpr ⟨hfront', ?_, hback'⟩⟩
  · rw [end_of_append] at hstart ⊢
    exact hstart
  · show prev.addr + headerSize ≤ endOf p.area.stop back
    omega
  · exact fun hnot => absurd (hprev.symm.trans hnot) (by decide)

/-- `binder_delete_free_buffer` takes a free buffer behind another free one off the list. -/
theorem delete_free_buffer_eq (h : Laid p) (hlist : p.buffers = front ++ prev :: buffer :: back)
    (hprev : prev.free = true) (hfree : buffer.free = true) :
    ∃ pages, binderDeleteFreeBuffer p buffer.addr =
        some { p with buffers := front ++ prev :: back, pages } ∧
      Laid { p with buffers := front ++ prev :: back, pages } := by
  have hlist' : p.buffers = (front ++ [prev]) ++ buffer :: back := by simp [hlist]
  have hslot := h.slot hlist
  obtain ⟨hbase, hroom, -, -⟩ := h.bounds hlist'
  obtain ⟨hstart, hsegments, hfits⟩ := h.delete_segments hlist hprev
  have hbacked : ∀ page, p.pages page = true ↔
      Backed (p.area.base / pageSize + page) p.area.stop (front ++ prev :: back) ∨
        Freed prev buffer back.head? (p.area.base / pageSize + page) := by
    intro page
    rw [h.backed, hlist, hslot.backed_delete hprev hfree]
  have hlocate : locate buffer.addr p.buffers = some (front ++ [prev], buffer, back) := by
    rw [hlist']
    exact (hlist' ▸ h.sorted : Sorted _).locate_eq
  have hunlink : p.unlink buffer.addr = { p with buffers := front ++ prev :: back } := by
    rw [unlink_eq h.sorted hlist', List.append_assoc]
    rfl
  have hlast : (front ++ [prev]).getLast? = some prev := by simp
  simp only [binderDeleteFreeBuffer, hlocate, Option.bind_eq_bind, Option.bind_some, hlast, hprev,
    Bool.not_true, Bool.false_eq_true, if_false, hunlink]
  by_cases hany :
      ((freedPages prev buffer back.head?).1 || (freedPages prev buffer back.head?).2) = true
  · have hfirst : p.area.base / pageSize ≤ firstFreed prev buffer back.head? := by
      simp only [firstFreed, headerSize, pageSize]
      split_ifs <;> omega
    have hfrom : (if (freedPages prev buffer back.head?).1 then bufferStartPage buffer
        else bufferEndPage buffer) = firstFreed prev buffer back.head? * pageSize := by
      simp only [firstFreed]
      split_ifs <;> rfl
    have hto : (if (freedPages prev buffer back.head?).2 then bufferEndPage buffer
        else bufferStartPage buffer) + pageSize =
          lastFreed prev buffer back.head? * pageSize := by
      simp only [lastFreed, Nat.succ_mul]
      split_ifs <;> rfl
    rw [if_pos hany, hfrom, hto,
      free_page_range_eq (p := { p with buffers := front ++ prev :: back }) hfirst]
    · refine ⟨_, rfl, hstart, hsegments, hfits, ?_⟩
      intro page
      rw [remove_pages_iff hfirst, hbacked]
      constructor
      · intro hkept
        exact hkept.1.resolve_right fun hfreed => hkept.2 hfreed.2
      · intro hkept
        exact ⟨.inl hkept, fun hfreed => hslot.not_freed hprev hkept ⟨hany, hfreed⟩⟩
    · intro page hlo hhi
      exact (hbacked page).mpr (.inr ⟨hany, hlo, hhi⟩)
  · rw [if_neg hany]
    refine ⟨p.pages, rfl, hstart, hsegments, hfits, ?_⟩
    intro page
    rw [hbacked]
    exact or_iff_left fun hfreed => hany hfreed.1

/-- `ALIGN(size, 4)` without wrapping. -/
def roundUp (size : Nat) : Nat := (size + 3) / 4 * 4

/-- The asynchronous space that a buffer occupies: that of its data, its offsets and its header,
while it is allocated to an asynchronous transaction. -/
def Buffer.charge (buffer : Buffer) : Nat :=
  if !buffer.free && buffer.asyncTransaction then
    roundUp buffer.dataSize + roundUp buffer.offsetsSize + headerSize
  else 0

/-- The asynchronous space that all buffers occupy. -/
def charged (buffers : List Buffer) : Nat := (buffers.map Buffer.charge).sum

theorem charged_append : charged (front ++ back) = charged front + charged back := by
  simp [charged]

theorem charged_cons : charged (buffer :: back) = buffer.charge + charged back := by
  simp [charged]

theorem Buffer.charge_of_free (h : buffer.free = true) : buffer.charge = 0 := by
  simp [Buffer.charge, h]

/-- What the list operations on free buffers leave alone: the area, the asynchronous space, what
the buffers occupy of it, and the allocated buffers. -/
structure Frame (p q : Proc) : Prop where
  area : q.area = p.area
  space : q.freeAsyncSpace = p.freeAsyncSpace
  charged : BinderAlloc.charged q.buffers = BinderAlloc.charged p.buffers
  allocated : ∀ buffer ∈ q.buffers, buffer.free = false → buffer ∈ p.buffers

theorem Frame.refl (p : Proc) : Frame p p :=
  ⟨rfl, rfl, rfl, fun _ hmem _ => hmem⟩

theorem Frame.trans {p q r : Proc} (first : Frame p q) (second : Frame q r) : Frame p r :=
  ⟨second.area.trans first.area, second.space.trans first.space,
    second.charged.trans first.charged, fun buffer hmem hallocated =>
      first.allocated buffer (second.allocated buffer hmem hallocated) hallocated⟩

/-- Taking a free buffer off the list. -/
theorem Frame.of_unlink (hlist : p.buffers = front ++ buffer :: back) (hfree : buffer.free = true)
    (tree : List Nat) (pages : Nat → Bool) :
    Frame p { p with buffers := front ++ back, freeBuffers := tree, pages } := by
  refine ⟨rfl, rfl, ?_, fun other hmem _ => ?_⟩
  · rw [hlist]
    simp only [charged_append, charged_cons, Buffer.charge_of_free hfree, Nat.zero_add]
  · rw [hlist]
    rcases List.mem_append.mp hmem with hmem | hmem
    · exact List.mem_append_left _ hmem
    · exact List.mem_append_right _ (List.mem_cons_of_mem _ hmem)

/-- A free buffer on the list that has not been merged with its neighbours and is not yet in the
tree. -/
structure Merging (p : Proc) (front : List Buffer) (buffer : Buffer) (back : List Buffer) :
    Prop where
  laid : Laid p
  list : p.buffers = front ++ buffer :: back
  free : buffer.free = true
  freeTree : Holds p.freeBuffers true (front ++ back)
  allocatedTree : Holds p.allocatedBuffers false (front ++ back)
  frontMerged : front.IsChain NotBothFree
  backMerged : back.IsChain NotBothFree

theorem Merging.sorted (h : Merging p front buffer back) : Sorted (front ++ buffer :: back) :=
  h.list ▸ h.laid.sorted

theorem not_both_free_left {first second : Buffer} (h : first.free = false) :
    NotBothFree first second :=
  fun hboth => absurd (h.symm.trans hboth.1) (by decide)

theorem not_both_free_right {first second : Buffer} (h : second.free = false) :
    NotBothFree first second :=
  fun hboth => absurd (h.symm.trans hboth.2) (by decide)

/-- Leaving one buffer out of a sorted list. -/
theorem Sorted.remove (h : Sorted (front ++ buffer :: back)) : Sorted (front ++ back) :=
  h.sublist (List.append_sublist_append_left front |>.mpr (List.sublist_cons_self _ _))

/-- Merging with the next buffer leaves an allocated one behind the buffer, or none. -/
theorem merge_next_eq (h : Merging p front buffer back) :
    ∃ q back', mergeNext p buffer.addr = some q ∧ Frame p q ∧
      Merging q front buffer back' ∧ ∀ next ∈ back'.head?, next.free = false := by
  have hlocate : locate buffer.addr p.buffers = some (front, buffer, back) := by
    rw [h.list]
    exact h.sorted.locate_eq
  simp only [mergeNext, hlocate, Option.bind_eq_bind, Option.bind_some]
  cases back with
  | nil => exact ⟨p, [], rfl, .refl p, h, by simp⟩
  | cons next rest =>
    simp only [List.head?_cons]
    split_ifs with hnext
    · have hlaid : Laid { p with freeBuffers := p.freeBuffers.filter (· ≠ next.addr) } :=
        ⟨h.laid.start, h.laid.room, h.laid.fits, h.laid.backed⟩
      obtain ⟨pages, hdelete, hlaid'⟩ := delete_free_buffer_eq hlaid h.list h.free hnext
      obtain ⟨hhead, hrest⟩ := List.isChain_cons.mp h.backMerged
      have hapart : Sorted (front ++ next :: rest) := h.sorted.remove
      have halloc : Holds p.allocatedBuffers false (front ++ rest) :=
        (holds_skip (by simp [hnext])).mp h.allocatedTree
      have hlist : p.buffers = (front ++ [buffer]) ++ next :: rest := by simp [h.list]
      have hframe := Frame.of_unlink hlist hnext
        (p.freeBuffers.filter (· ≠ next.addr)) pages
      rw [List.append_assoc] at hframe
      refine ⟨_, rest, hdelete, hframe,
        ⟨hlaid', rfl, h.free, h.freeTree.erase hapart, halloc, h.frontMerged, hrest⟩, ?_⟩
      intro other hmem
      by_contra hother
      exact hhead other hmem ⟨hnext, by simpa using hother⟩
    · refine ⟨p, next :: rest, rfl, .refl p, h, ?_⟩
      intro other hmem
      cases hmem
      simpa using hnext

/-- The trees and the chain around a merged free buffer make a well-formed state. -/
theorem Merging.well_formed (h : Merging p front buffer back)
    (hfront : ∀ prev ∈ front.getLast?, prev.free = false)
    (hback : ∀ next ∈ back.head?, next.free = false) :
    ∃ q, binderInsertFreeBuffer p buffer.addr = some q ∧ Frame p q ∧ WellFormed q := by
  obtain ⟨tree, hinsert, htree⟩ :=
    insert_free_buffer_eq h.laid.sorted h.list h.free h.freeTree
  have hchain : (front ++ buffer :: back).IsChain NotBothFree := by
    refine List.isChain_append.mpr ⟨h.frontMerged, List.isChain_cons.mpr ⟨?_, h.backMerged⟩, ?_⟩
    · intro next hmem
      exact not_both_free_right (hback next hmem)
    · intro prev hmem _ _
      exact not_both_free_left (hfront prev hmem)
  refine ⟨_, hinsert, ⟨rfl, rfl, rfl, fun _ hmem _ => hmem⟩,
    ⟨⟨h.laid.start, h.laid.room, h.laid.fits, h.laid.backed⟩, ?_, ?_, ?_⟩⟩
  · show Holds tree true p.buffers
    rw [h.list]
    exact htree
  · show Holds p.allocatedBuffers false p.buffers
    rw [h.list]
    exact (holds_skip (by simp [h.free])).mpr h.allocatedTree
  · show p.buffers.IsChain NotBothFree
    rw [h.list]
    exact hchain

/-- Merging with the previous buffer completes the release. -/
theorem merge_prev_eq (h : Merging p front buffer back)
    (hback : ∀ next ∈ back.head?, next.free = false) :
    ∃ q, mergePrev p buffer.addr = some q ∧ Frame p q ∧ WellFormed q := by
  have hlocate : locate buffer.addr p.buffers = some (front, buffer, back) := by
    rw [h.list]
    exact h.sorted.locate_eq
  simp only [mergePrev, hlocate, Option.bind_eq_bind, Option.bind_some]
  rcases List.eq_nil_or_concat front with hnil | ⟨front', prev, hconcat⟩
  · subst hnil
    exact h.well_formed (by simp) hback
  rw [List.concat_eq_append] at hconcat
  subst hconcat
  simp only [List.getLast?_append, List.getLast?_singleton, Option.some_or]
  split_ifs with hprev
  · have hlist : p.buffers = front' ++ prev :: buffer :: back := by simp [h.list]
    obtain ⟨pages, hdelete, hlaid⟩ := delete_free_buffer_eq h.laid hlist hprev h.free
    obtain ⟨hchain, -, hlast⟩ := List.isChain_append.mp h.frontMerged
    have hsorted : Sorted (front' ++ prev :: back) := by
      have := h.sorted.remove
      simpa using this
    have htree : Holds p.freeBuffers true (front' ++ prev :: back) := by
      simpa using h.freeTree
    have halloc : Holds p.allocatedBuffers false (front' ++ prev :: back) := by
      simpa using h.allocatedTree
    rw [hdelete, Option.bind_some]
    have hmerging : Merging
        { p with
          buffers := front' ++ prev :: back
          freeBuffers := p.freeBuffers.filter (· ≠ prev.addr)
          pages } front' prev back :=
      ⟨⟨hlaid.start, hlaid.room, hlaid.fits, hlaid.backed⟩, rfl, hprev, htree.erase hsorted,
        (holds_skip (by simp [hprev])).mp halloc, hchain, h.backMerged⟩
    have hprevLast : ∀ other ∈ front'.getLast?, other.free = false := by
      intro other hmem
      by_contra hother
      exact hlast other hmem prev rfl ⟨by simpa using hother, hprev⟩
    obtain ⟨q, hinsert, hframe, hwell⟩ := hmerging.well_formed hprevLast hback
    have hlist' : p.buffers = (front' ++ [prev]) ++ buffer :: back := by simp [h.list]
    have hdeleted := Frame.of_unlink hlist' h.free
      (p.freeBuffers.filter (· ≠ prev.addr)) pages
    rw [List.append_assoc] at hdeleted
    exact ⟨q, hinsert, hdeleted.trans hframe, hwell⟩
  · refine h.well_formed ?_ hback
    intro other hmem
    have heq : other = prev := by simpa using hmem.symm
    subst heq
    simpa using hprev

/-! ## Releasing a buffer -/

/-- Segments depend on the address of a buffer and on what is claimed of it. -/
theorem segments_replace {related : Buffer → Nat → Prop} {stop : Nat} {changed : Buffer}
    (h : Segments related stop (front ++ buffer :: back)) (haddr : changed.addr = buffer.addr)
    (hrelated : related changed (endOf stop back)) :
    Segments related stop (front ++ changed :: back) := by
  obtain ⟨hfront, -, hback⟩ := segments_append.mp h
  refine segments_append.mpr ⟨?_, hrelated, hback⟩
  rw [end_of_cons, haddr]
  exact hfront

/-- The pages between the end of a header and the next header. -/
theorem Laid.inner_pages (h : Laid p) (hlist : p.buffers = front ++ buffer :: back) :
    pageAlign buffer.data = (buffer.data + 4095) / 4096 * pageSize ∧
      p.area.base / pageSize ≤ (buffer.data + 4095) / 4096 ∧
        wadd buffer.data (binderBufferSize p buffer.addr) = endOf p.area.stop back := by
  obtain ⟨hbase, hroom, hend, hword⟩ := h.bounds hlist
  refine ⟨page_align_eq ?_, ?_, ?_⟩
  · simp only [Buffer.data] at *
    omega
  · simp only [Buffer.data, headerSize, pageSize] at *
    omega
  · rw [h.buffer_size_eq hlist, wadd_eq]
    · simp only [Buffer.data] at *
      omega
    · simp only [Buffer.data, pageSize] at *
      omega

/-- Giving back the pages of an allocated buffer and marking it free. -/
theorem Laid.release (h : Laid p) (hlist : p.buffers = front ++ buffer :: back)
    (hallocated : buffer.free = false) (space : Nat) (tree : List Nat) :
    ∃ pages,
      freePageRange { p with freeAsyncSpace := space }
          (pageAlign buffer.data) (pageMask (endOf p.area.stop back)) =
        some { p with freeAsyncSpace := space, pages } ∧
      Laid { p with
        buffers := front ++ { buffer with free := true } :: back
        allocatedBuffers := tree
        freeAsyncSpace := space
        pages } := by
  have hslot := h.slot hlist
  have hrooms : Segments HasRoom p.area.stop (front ++ buffer :: back) := hlist ▸ h.room
  have hfits : Segments Fits p.area.stop (front ++ buffer :: back) := hlist ▸ h.fits
  obtain ⟨hdata, hbase, -⟩ := h.inner_pages hlist
  have hreleased : Slot p.area.stop front { buffer with free := true } back :=
    ⟨hslot.front, hslot.room, hslot.back, hslot.aligned⟩
  have hbacked : ∀ page, p.pages page = true ↔
      Backed (p.area.base / pageSize + page) p.area.stop
          (front ++ { buffer with free := true } :: back) ∨
        ((buffer.data + 4095) / 4096 ≤ p.area.base / pageSize + page ∧
          p.area.base / pageSize + page < endOf p.area.stop back / pageSize) := by
    intro page
    rw [h.backed, hlist]
    exact hreleased.backed_toggle buffer rfl hallocated rfl
  rw [hdata, pageMask, free_page_range_eq (p := { p with freeAsyncSpace := space }) hbase]
  · refine ⟨_, rfl, ?_, ?_, ?_, ?_⟩
    · have hstart := h.start
      rw [hlist, end_of_append] at hstart
      rw [end_of_append]
      exact hstart
    · exact segments_replace hrooms rfl hslot.room
    · exact segments_replace hfits rfl fun hnot => Bool.noConfusion hnot
    · intro page
      rw [remove_pages_iff hbase, hbacked]
      constructor
      · intro hkept
        exact hkept.1.resolve_right hkept.2
      · intro hkept
        exact ⟨.inl hkept, fun hin => hreleased.not_backed rfl hkept hin.1 hin.2⟩
  · intro page hlo hhi
    exact (hbacked page).mpr (.inr ⟨hlo, hhi⟩)

/-- `binder_free_buf` succeeds on an allocated buffer and gives its asynchronous space back. -/
theorem free_buf_eq (h : WellFormed p) (hmem : addr ∈ p.allocatedBuffers) :
    ∃ q, binderFreeBuf p addr = some q ∧ q.area = p.area ∧ WellFormed q ∧
      ∃ buffer ∈ p.buffers, buffer.free = false ∧
        charged q.buffers + buffer.charge = charged p.buffers ∧
        (q.freeAsyncSpace = if buffer.asyncTransaction then wadd p.freeAsyncSpace
          (wadd (bufferSpace buffer.dataSize buffer.offsetsSize) headerSize)
          else p.freeAsyncSpace) ∧
        ∀ other ∈ q.buffers, other.free = false → other ∈ p.buffers := by
  obtain ⟨buffer, hin, haddr, hallocated⟩ := (h.allocatedTree.mem addr).mp hmem
  obtain ⟨front, back, hlist⟩ := List.append_of_mem hin
  subst haddr
  have hsorted : Sorted (front ++ buffer :: back) := hlist ▸ h.laid.sorted
  obtain ⟨hbase, hroom, hend, -⟩ := h.laid.bounds hlist
  obtain ⟨-, -, hnext⟩ := h.laid.inner_pages hlist
  have hlocate : locate buffer.addr p.buffers = some (front, buffer, back) := by
    rw [hlist]
    exact hsorted.locate_eq
  have hchecks : ¬ (buffer.free = true ∨
      bufferSpace buffer.dataSize buffer.offsetsSize > binderBufferSize p buffer.addr ∨
        buffer.addr < p.area.base ∨ buffer.addr > p.area.stop) := by
    obtain ⟨-, hfit, -⟩ := segments_append.mp (hlist ▸ h.laid.fits)
    obtain ⟨hfit, -⟩ := hfit hallocated
    rw [h.laid.buffer_size_eq hlist]
    simp only [Buffer.data, headerSize] at *
    simp only [hallocated, Bool.false_eq_true, false_or]
    omega
  have hasync : ∀ space : Nat,
      (if buffer.asyncTransaction = true then { p with freeAsyncSpace := space } else p) =
        { p with freeAsyncSpace :=
            if buffer.asyncTransaction then space else p.freeAsyncSpace } := by
    intro space
    split_ifs <;> rfl
  simp only [binderFreeBuf, hlocate, Option.bind_eq_bind, Option.bind_some, if_neg hchecks,
    hnext, hasync]
  obtain ⟨pages, hfree, hlaid⟩ := h.laid.release hlist hallocated
    (if buffer.asyncTransaction then wadd p.freeAsyncSpace
      (wadd (bufferSpace buffer.dataSize buffer.offsetsSize) headerSize) else p.freeAsyncSpace)
    (p.allocatedBuffers.filter (· ≠ buffer.addr))
  rw [hfree, Option.bind_some, modify_buffer_eq (by exact h.laid.sorted) (by exact hlist)]
  have hchain := h.merged
  rw [hlist] at hchain
  obtain ⟨hfrontChain, hbackChain, -⟩ := List.isChain_append.mp hchain
  have hmerging : Merging _ front { buffer with free := true } back :=
    ⟨hlaid, rfl, rfl, (holds_skip (by simp [hallocated])).mp (hlist ▸ h.freeTree),
      (hlist ▸ h.allocatedTree : Holds p.allocatedBuffers false _).erase hsorted,
      hfrontChain, hbackChain.tail⟩
  obtain ⟨q, back', hmergeNext, hframe, hmerging, hhead⟩ := merge_next_eq hmerging
  obtain ⟨r, hmergePrev, hframe', hwell⟩ := merge_prev_eq hmerging hhead
  have hframes := hframe.trans hframe'
  refine ⟨r, Option.bind_eq_some_iff.mpr ⟨q, hmergeNext, hmergePrev⟩, hframes.area, hwell, buffer,
    hin, hallocated, ?_, hframes.space, fun other hmem hother => ?_⟩
  · have hfreed : ({ buffer with free := true } : Buffer).charge = 0 := Buffer.charge_of_free rfl
    rw [hframes.charged, hlist]
    simp only [charged_append, charged_cons, hfreed]
    omega
  · have hold := hframes.allocated other hmem hother
    rw [hlist]
    rcases List.mem_append.mp hold with hold | hold
    · exact List.mem_append_left _ hold
    · rcases List.mem_cons.mp hold with rfl | hold
      · exact Bool.noConfusion hother
      · exact List.mem_append_right _ (List.mem_cons_of_mem _ hold)

end AndroidKernel.BinderAlloc
