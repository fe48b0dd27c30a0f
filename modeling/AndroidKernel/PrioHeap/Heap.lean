import AndroidKernel.Library.Heaps

/-!
# The static-sized priority heap

The heap of `prio_heap.c` has room for `max` pointers and only ever gets insertions. Below
capacity an insertion sifts the new pointer up. At capacity it drops the new pointer, or the root
that it replaces, and sifts the new pointer down. The main theorem,
`PtrHeap.insertAll_keeps_least`, is about every sequence of insertions into an empty heap.
-/

namespace AndroidKernel.PrioHeap

open Library Library.Heaps

universe u

/-- A static-sized priority heap: the data area, the number of pointers that it can store, the
current number of valid ones and the comparison operator. The area comes from `kmalloc`, so twice
a place of it fits an `int`. -/
structure PtrHeap (α : Type u) where
  ptrs : Nat → α
  max : Nat
  size : Nat
  gt : α → α → Bool

variable {α : Type u}

/-- The loop of the insertion below capacity: parents that `p` is greater than move down, and `p`
is stored where the loop stops. -/
def siftUp (gt : α → α → Bool) (p : α) (ptrs : Nat → α) (pos : Nat) : Nat → α :=
  if 0 < pos ∧ gt p (ptrs ((pos - 1) / 2)) then
    siftUp gt p (Function.update ptrs pos (ptrs ((pos - 1) / 2))) ((pos - 1) / 2)
  else
    Function.update ptrs pos p
termination_by pos
decreasing_by omega

/-- The place among `pos` and its children that the loop at capacity goes on with. -/
def largest (gt : α → α → Bool) (size : Nat) (p : α) (ptrs : Nat → α) (pos : Nat) : Nat :=
  let left := 2 * pos + 1
  let right := 2 * pos + 2
  let largest := if left < size ∧ gt (ptrs left) p then left else pos
  if right < size ∧ gt (ptrs right) (ptrs largest) then right else largest

/-- The loop goes on with a child in the heap, if at all. -/
theorem largest_cases (gt : α → α → Bool) (size : Nat) (p : α) (ptrs : Nat → α) (pos : Nat) :
    largest gt size p ptrs pos = pos ∨
      IsChild (largest gt size p ptrs pos) pos ∧ largest gt size p ptrs pos < size := by
  have hleft : ∀ l, l = (if 2 * pos + 1 < size ∧ gt (ptrs (2 * pos + 1)) p then 2 * pos + 1
      else pos) → l = pos ∨ IsChild l pos ∧ l < size := by
    intro l hl
    split at hl
    · next hgt => exact .inr ⟨.inl hl, hl ▸ hgt.1⟩
    · exact .inl hl
  unfold largest
  dsimp only
  specialize hleft _ rfl
  generalize (if 2 * pos + 1 < size ∧ gt (ptrs (2 * pos + 1)) p then 2 * pos + 1 else pos) = l
    at hleft ⊢
  by_cases hright : 2 * pos + 2 < size ∧ gt (ptrs (2 * pos + 2)) (ptrs l)
  · rw [if_pos hright]
    exact .inr ⟨.inr rfl, hright.1⟩
  · rw [if_neg hright]
    exact hleft

/-- The loop at capacity: `p` is pushed down the heap one level and the largest child bumped up,
until `p` is the largest. -/
def siftDown (gt : α → α → Bool) (size : Nat) (p : α) (ptrs : Nat → α) (pos : Nat) : Nat → α :=
  if largest gt size p ptrs pos = pos then
    ptrs
  else
    siftDown gt size p
      (Function.update (Function.update ptrs pos (ptrs (largest gt size p ptrs pos)))
        (largest gt size p ptrs pos) p)
      (largest gt size p ptrs pos)
termination_by size - pos
decreasing_by
  obtain ⟨hchild, hlt⟩ := (largest_cases gt size p ptrs pos).resolve_left ‹_›
  have := hchild.lt
  omega

namespace PtrHeap

/-- An empty heap on a data area with room for `max` pointers, as `heap_init` sets it up. -/
def heapInit (ptrs : Nat → α) (max : Nat) (gt : α → α → Bool) : PtrHeap α where
  ptrs := ptrs
  max := max
  size := 0
  gt := gt

/-- Insert a pointer into the heap, and return the one that overflowed, if any. -/
def heapInsert (heap : PtrHeap α) (p : α) : PtrHeap α × Option α :=
  if heap.size < heap.max then
    -- heap insertion
    ({ heap with ptrs := siftUp heap.gt p heap.ptrs heap.size, size := heap.size + 1 }, none)
  else if heap.gt p (heap.ptrs 0) then
    -- the new pointer is greater than the current max: drop it
    (heap, some p)
  else
    -- replace the current max and heapify
    ({ heap with ptrs := siftDown heap.gt heap.size p (Function.update heap.ptrs 0 p) 0 },
      some (heap.ptrs 0))

/-- A sequence of insertions: the final heap and the pointers returned on the way, in order. -/
def insertAll (heap : PtrHeap α) : List α → PtrHeap α × List α
  | [] => (heap, [])
  | p :: ps =>
    let rest := insertAll (heap.heapInsert p).1 ps
    (rest.1, (heap.heapInsert p).2.toList ++ rest.2)

/-- The pointers that the heap stores. -/
def stored (heap : PtrHeap α) : List α :=
  (List.range heap.size).map heap.ptrs

end PtrHeap

/-- The comparison operator implements "greater than" in a total preorder. On elements of the same
rank it may answer either way. -/
structure Implements (le : α → α → Prop) (gt : α → α → Bool) : Prop where
  trans : ∀ a b c, le a b → le b c → le a c
  of_gt : ∀ a b, gt a b → le b a
  of_not_gt : ∀ a b, gt a b = false → le a b

namespace Implements

variable {le : α → α → Prop} {gt : α → α → Bool}

theorem refl (h : Implements le gt) (a : α) : le a a := by
  cases hgt : gt a a with
  | true => exact h.of_gt a a hgt
  | false => exact h.of_not_gt a a hgt

end Implements

variable {le : α → α → Prop} {gt : α → α → Bool} {ptrs : Nat → α} {p : α} {n pos size : Nat}

/-- Storing `p` one level up is a swap, when `p` is thought of as already stored. -/
theorem update_swap {i j : Nat} (hij : i ≠ j) (f : Nat → α) (p : α) :
    Function.update (Function.update f i (f j)) j p = Function.update f i p ∘ Equiv.swap i j := by
  funext k
  simp only [Function.comp_apply]
  by_cases hj : k = j
  · rw [hj, Function.update_self, Equiv.swap_apply_right, Function.update_self]
  · rw [Function.update_of_ne hj]
    by_cases hi : k = i
    · rw [hi, Function.update_self, Equiv.swap_apply_left, Function.update_of_ne (Ne.symm hij)]
    · rw [Equiv.swap_apply_of_ne_of_ne hi hj, Function.update_of_ne hi, Function.update_of_ne hi]

/-- Sifting up ends in heap order, with the pointers it started from and `p`. -/
theorem siftUp_spec (h : Implements le gt) (hpos : pos < n)
    (hole : UpHole le (Function.update ptrs pos p) n pos) :
    HeapFrom le (siftUp gt p ptrs pos) 0 n ∧
      Rearranges n (Function.update ptrs pos p) (siftUp gt p ptrs pos) := by
  induction pos using Nat.strongRecOn generalizing ptrs with
  | ind pos ih =>
    rw [siftUp]
    by_cases hgo : 0 < pos ∧ gt p (ptrs ((pos - 1) / 2))
    · rw [if_pos hgo]
      have hlt : (pos - 1) / 2 < pos := parent_lt hgo.1
      have hle : le (Function.update ptrs pos p ((pos - 1) / 2))
          (Function.update ptrs pos p pos) := by
        rw [Function.update_self, Function.update_of_ne (Nat.ne_of_lt hlt)]
        exact h.of_gt _ _ hgo.2
      have hnext := hole.swap h.trans hgo.1 hpos hle
      have hswap := Rearranges.swap (Function.update ptrs pos p) hpos (Nat.lt_trans hlt hpos)
      unfold parent at hnext
      rw [← update_swap (Nat.ne_of_gt hlt)] at hnext hswap
      obtain ⟨hheap, hsame⟩ := ih _ hlt (Nat.lt_trans hlt hpos) hnext
      exact ⟨hheap, hswap.trans hsame⟩
    · rw [if_neg hgo]
      refine ⟨hole.stop fun hp => ?_, Rearranges.refl n _⟩
      have hlt : parent pos < pos := parent_lt hp
      rw [Function.update_self, Function.update_of_ne (Nat.ne_of_lt hlt)]
      exact h.of_not_gt _ _ (Bool.eq_false_iff.mpr fun hgt => hgo ⟨hp, hgt⟩)

/-- The place chosen is not below `p`, and no child is above it. -/
theorem largest_spec (size : Nat) (h : Implements le gt) (hp : ptrs pos = p) :
    le p (ptrs (largest gt size p ptrs pos)) ∧
      ∀ c, IsChild c pos → c < size → le (ptrs c) (ptrs (largest gt size p ptrs pos)) := by
  -- the first comparison
  have hleft : ∀ l, l = (if 2 * pos + 1 < size ∧ gt (ptrs (2 * pos + 1)) p then 2 * pos + 1
      else pos) → le p (ptrs l) ∧ (2 * pos + 1 < size → le (ptrs (2 * pos + 1)) (ptrs l)) := by
    intro l hl
    split at hl
    · next hgt =>
        rw [hl]
        exact ⟨h.of_gt _ _ hgt.2, fun _ => h.refl _⟩
    · next hgt =>
        rw [hl, hp]
        refine ⟨h.refl _, fun hsize => h.of_not_gt _ _ (Bool.eq_false_iff.mpr fun hg => ?_)⟩
        exact hgt ⟨hsize, hg⟩
  unfold largest
  dsimp only
  obtain ⟨hpl, hcl⟩ := hleft _ rfl
  generalize (if 2 * pos + 1 < size ∧ gt (ptrs (2 * pos + 1)) p then 2 * pos + 1 else pos) = l
    at hpl hcl ⊢
  -- the second one, with the winner of the first
  by_cases hgt : 2 * pos + 2 < size ∧ gt (ptrs (2 * pos + 2)) (ptrs l)
  · rw [if_pos hgt]
    have hup := h.of_gt _ _ hgt.2
    refine ⟨h.trans _ _ _ hpl hup, ?_⟩
    rintro c (rfl | rfl) hc
    · exact h.trans _ _ _ (hcl hc) hup
    · exact h.refl _
  · rw [if_neg hgt]
    refine ⟨hpl, ?_⟩
    rintro c (rfl | rfl) hc
    · exact hcl hc
    · exact h.of_not_gt _ _ (Bool.eq_false_iff.mpr fun hg => hgt ⟨hc, hg⟩)

/-- Sifting down ends in heap order, with the pointers it started from. -/
theorem siftDown_spec (h : Implements le gt) (hpos : pos < size) (hp : ptrs pos = p)
    (hole : DownHole le ptrs 0 size pos) :
    HeapFrom le (siftDown gt size p ptrs pos) 0 size ∧
      Rearranges size ptrs (siftDown gt size p ptrs pos) := by
  induction hk : size - pos using Nat.strongRecOn generalizing ptrs pos with
  | ind k ih =>
    subst hk
    obtain ⟨hple, hchildren⟩ := largest_spec size h hp
    rw [siftDown]
    by_cases hstop : largest gt size p ptrs pos = pos
    · rw [if_pos hstop]
      rw [hstop] at hchildren
      exact ⟨hole.stop hchildren, Rearranges.refl size ptrs⟩
    rw [if_neg hstop]
    obtain ⟨hchild, hlt⟩ := (largest_cases gt size p ptrs pos).resolve_left hstop
    generalize largest gt size p ptrs pos = c at *
    have hnext := hole.swap (Nat.zero_le _) hchild hlt (hp ▸ hple) hchildren
    have hswap := Rearranges.swap ptrs hpos hlt
    have hself : Function.update ptrs pos p = ptrs := hp ▸ Function.update_eq_self pos ptrs
    have hpush := update_swap (Nat.ne_of_lt hchild.lt) ptrs p
    rw [hself] at hpush
    rw [← hpush] at hnext hswap
    have hmeasure : size - c < size - pos := by
      have := hchild.lt
      omega
    obtain ⟨hheap, hsame⟩ := ih _ hmeasure hlt (Function.update_self ..) hnext rfl
    exact ⟨hheap, hswap.trans hsame⟩

/-!
## A full priority heap keeps the least elements

`Kept` is the invariant of a sequence of insertions: the heap is in heap order, stored and
returned pointers together are the inserted ones, a pointer is returned only when the heap is
full, and no returned pointer is below a stored one.
-/

variable {α : Type u} {le : α → α → Prop} {heap : PtrHeap α} {ps dropped : List α} {p : α}

namespace PtrHeap

/-- The state of a heap after the insertions `ps`, of which `dropped` were returned. -/
structure Kept (le : α → α → Prop) (heap : PtrHeap α) (ps dropped : List α) : Prop where
  size_le : heap.size ≤ heap.max
  order : HeapFrom le heap.ptrs 0 heap.size
  same : (heap.stored ++ dropped).Perm ps
  full : dropped ≠ [] → heap.size = heap.max
  least : ∀ s ∈ heap.stored, ∀ d ∈ dropped, le s d

theorem mem_stored {s : α} : s ∈ heap.stored ↔ ∃ k < heap.size, heap.ptrs k = s := by
  simp only [stored, List.mem_map, List.mem_range]

theorem stored_length : heap.stored.length = heap.size := by
  rw [stored, List.length_map, List.length_range]

/-- Insertion below capacity stores the new pointer. -/
theorem heapInsert_room (h : Implements le heap.gt) (hroom : heap.size < heap.max)
    (horder : HeapFrom le heap.ptrs 0 heap.size) :
    (heap.heapInsert p).2 = none ∧ (heap.heapInsert p).1.size = heap.size + 1 ∧
      HeapFrom le (heap.heapInsert p).1.ptrs 0 (heap.size + 1) ∧
      (heap.heapInsert p).1.stored.Perm (heap.stored ++ [p]) := by
  have hold : ∀ k, k < heap.size → Function.update heap.ptrs heap.size p k = heap.ptrs k :=
    fun k hk => Function.update_of_ne (Nat.ne_of_lt hk) ..
  obtain ⟨hheap, hsame⟩ := siftUp_spec h (Nat.lt_succ_self _) (horder.upHole hold)
  rw [heapInsert, if_pos hroom]
  refine ⟨rfl, rfl, hheap, ?_⟩
  refine hsame.perm.trans (List.Perm.of_eq ?_)
  rw [List.range_succ, List.map_append, List.map_singleton, Function.update_self]
  refine congrArg (· ++ [p]) (List.map_congr_left fun k hk => ?_)
  exact hold k (List.mem_range.mp hk)

/-- Insertion at capacity returns a pointer that is not below any of those it stores, and stores
all others. -/
theorem heapInsert_full (h : Implements le heap.gt) (hfull : ¬ heap.size < heap.max)
    (hsize : 0 < heap.size) (horder : HeapFrom le heap.ptrs 0 heap.size) :
    ∃ d, (heap.heapInsert p).2 = some d ∧ (heap.heapInsert p).1.size = heap.size ∧
      HeapFrom le (heap.heapInsert p).1.ptrs 0 heap.size ∧
      ((heap.heapInsert p).1.stored ++ [d]).Perm (heap.stored ++ [p]) ∧
      (∀ s ∈ (heap.heapInsert p).1.stored, le s (heap.ptrs 0)) ∧ le (heap.ptrs 0) d := by
  have hroot : ∀ s ∈ heap.stored, le s (heap.ptrs 0) := by
    intro s hs
    obtain ⟨k, hk, rfl⟩ := mem_stored.mp hs
    exact horder.le_root h.refl h.trans hk
  rw [heapInsert, if_neg hfull]
  by_cases hgt : heap.gt p (heap.ptrs 0)
  · rw [if_pos hgt]
    exact ⟨p, rfl, rfl, horder, List.Perm.refl _, hroot, h.of_gt _ _ hgt⟩
  rw [if_neg hgt]
  have hp := h.of_not_gt _ _ (Bool.eq_false_iff.mpr hgt)
  have hold : ∀ k, 0 < k → k < heap.size → Function.update heap.ptrs 0 p k = heap.ptrs k :=
    fun k hk _ => Function.update_of_ne (Nat.ne_of_gt hk) ..
  obtain ⟨hheap, hsame⟩ :=
    siftDown_spec h hsize (Function.update_self ..) (horder.downHole_root hold)
  refine ⟨heap.ptrs 0, rfl, rfl, hheap, ?_, ?_, h.refl _⟩
  · -- the root and the new pointer change places, the others are as before
    refine (hsame.perm.append_right _).trans ?_
    obtain ⟨n, hn⟩ := Nat.exists_eq_succ_of_ne_zero (Nat.ne_of_gt hsize)
    have hrest : (List.range n).map (Function.update heap.ptrs 0 p ∘ Nat.succ) =
        (List.range n).map (heap.ptrs ∘ Nat.succ) :=
      List.map_congr_left fun k _ => Function.update_of_ne (Nat.succ_ne_zero k) ..
    rw [stored, hn, List.range_succ_eq_map, List.map_cons, List.map_cons, List.map_map,
      List.map_map, Function.update_self, hrest, List.cons_append, List.cons_append]
    refine ((List.perm_append_singleton _ _).cons p).trans ?_
    refine (List.Perm.swap _ _ _).trans ?_
    exact (List.perm_append_singleton _ _).symm.cons (heap.ptrs 0)
  intro s hs
  obtain ⟨k, hk, rfl⟩ := mem_stored.mp hs
  obtain ⟨j, hj, hkj⟩ := hsame.exists_lt hk
  show le (siftDown heap.gt heap.size p (Function.update heap.ptrs 0 p) 0 k) (heap.ptrs 0)
  rw [hkj]
  rcases Nat.eq_zero_or_pos j with rfl | hpos
  · rw [Function.update_self]
    exact hp
  · rw [hold j hpos hj]
    exact hroot _ (mem_stored.mpr ⟨j, hj, rfl⟩)

theorem heapInsert_fields (heap : PtrHeap α) (p : α) : (heap.heapInsert p).1.max = heap.max ∧
    (heap.heapInsert p).1.gt = heap.gt := by
  unfold heapInsert
  split
  · exact ⟨rfl, rfl⟩
  · split
    · exact ⟨rfl, rfl⟩
    · exact ⟨rfl, rfl⟩

theorem Kept.insert (hkept : Kept le heap ps dropped) (h : Implements le heap.gt)
    (hmax : 1 ≤ heap.max) :
    Kept le (heap.heapInsert p).1 (ps ++ [p]) (dropped ++ (heap.heapInsert p).2.toList) := by
  by_cases hroom : heap.size < heap.max
  · obtain ⟨hnone, hsize, horder, hperm⟩ := heapInsert_room (p := p) h hroom hkept.order
    have hdropped : dropped = [] := by
      by_contra hne
      exact absurd (hkept.full hne) (Nat.ne_of_lt hroom)
    have hsame := hkept.same
    rw [hdropped, List.append_nil] at hsame
    rw [hnone, hdropped]
    constructor
    · rw [hsize, (heapInsert_fields heap p).1]
      exact hroom
    · rw [hsize]
      exact horder
    · exact (List.Perm.of_eq (List.append_nil _)).trans (hperm.trans (hsame.append_right _))
    · exact fun hne => absurd rfl hne
    · exact fun _ _ d hd => absurd hd List.not_mem_nil
  have hsizemax : heap.size = heap.max := Nat.le_antisymm hkept.size_le (Nat.not_lt.mp hroom)
  obtain ⟨d, hd, hsize, horder, hperm, hroot, hrootd⟩ :=
    heapInsert_full (p := p) h hroom (hsizemax ▸ hmax) hkept.order
  have hmem : heap.ptrs 0 ∈ heap.stored := mem_stored.mpr ⟨0, hsizemax ▸ hmax, rfl⟩
  rw [hd, Option.toList_some]
  constructor
  · rw [hsize, (heapInsert_fields heap p).1]
    exact hkept.size_le
  · rw [hsize]
    exact horder
  · calc
      ((heap.heapInsert p).1.stored ++ (dropped ++ [d])).Perm
          (((heap.heapInsert p).1.stored ++ [d]) ++ dropped) := by
        rw [List.append_assoc]
        exact List.perm_append_comm.append_left _
      List.Perm _ ((heap.stored ++ [p]) ++ dropped) := hperm.append_right dropped
      List.Perm _ ((heap.stored ++ dropped) ++ [p]) := by
        rw [List.append_assoc, List.append_assoc]
        exact List.perm_append_comm.append_left _
      List.Perm _ (ps ++ [p]) := hkept.same.append_right [p]
  · intro _
    rw [hsize, (heapInsert_fields heap p).1]
    exact hsizemax
  · intro s hs e he
    rcases List.mem_append.mp he with he | he
    · exact h.trans _ _ _ (hroot s hs) (hkept.least _ hmem e he)
    · rw [List.mem_singleton.mp he]
      exact h.trans _ _ _ (hroot s hs) hrootd

theorem insertAll_fields (heap : PtrHeap α) (ps : List α) : (heap.insertAll ps).1.max = heap.max ∧
    (heap.insertAll ps).1.gt = heap.gt := by
  induction ps generalizing heap with
  | nil => exact ⟨rfl, rfl⟩
  | cons p ps ih =>
    obtain ⟨hmax, hgt⟩ := ih (heap.heapInsert p).1
    exact ⟨hmax.trans (heapInsert_fields heap p).1, hgt.trans (heapInsert_fields heap p).2⟩

/-- A sequence of insertions keeps the invariant. -/
theorem Kept.insertAll (hkept : Kept le heap ps dropped) (h : Implements le heap.gt)
    (hmax : 1 ≤ heap.max) (qs : List α) :
    Kept le (heap.insertAll qs).1 (ps ++ qs) (dropped ++ (heap.insertAll qs).2) := by
  induction qs generalizing heap ps dropped with
  | nil =>
    rw [List.append_nil, PtrHeap.insertAll, List.append_nil]
    exact hkept
  | cons q qs ih =>
    have hfields := heapInsert_fields heap q
    have hnext := ih (hkept.insert (p := q) h hmax) (hfields.2 ▸ h) (hfields.1 ▸ hmax)
    rw [List.append_assoc, List.append_assoc] at hnext
    exact hnext

/-- An empty heap has the invariant. -/
theorem kept_heapInit (ptrs : Nat → α) (max : Nat) (gt : α → α → Bool) :
    Kept le (heapInit ptrs max gt) [] [] where
  size_le := Nat.zero_le _
  order := heapFrom_of_half (Nat.zero_le _)
  same := List.Perm.refl _
  full hne := absurd rfl hne
  least _ hs := absurd hs List.not_mem_nil

/-- After any sequence of insertions into an empty heap with room for at least one pointer, the
heap is in heap order, what it stores and what it returned are the inserted pointers, it stores as
many of them as it has room for, and each is at most every one that it returned. -/
theorem insertAll_keeps_least (ptrs : Nat → α) (max : Nat) (gt : α → α → Bool)
    (h : Implements le gt) (hmax : 1 ≤ max) (ps : List α) :
    let heap := ((heapInit ptrs max gt).insertAll ps).1
    let returned := ((heapInit ptrs max gt).insertAll ps).2
    (∀ k, 0 < k → k < heap.size → le (heap.ptrs k) (heap.ptrs ((k - 1) / 2))) ∧
      (heap.stored ++ returned).Perm ps ∧ heap.stored.length = min max ps.length ∧
      ∀ s ∈ heap.stored, ∀ d ∈ returned, le s d := by
  intro heap returned
  have hkept : Kept le heap ps returned := (kept_heapInit ptrs max gt).insertAll h hmax ps
  have hcap : heap.max = max := (insertAll_fields _ ps).1
  refine ⟨fun k hk hlt => hkept.order k hk hlt (Nat.zero_le _), hkept.same, ?_, hkept.least⟩
  have hlength := hkept.same.length_eq
  rw [List.length_append, stored_length] at hlength
  have hle := hkept.size_le
  rw [stored_length]
  rcases List.eq_nil_or_concat returned with hnil | ⟨_, _, hne⟩
  · rw [hnil, List.length_nil] at hlength
    omega
  · have hfull := hkept.full (by simp [hne])
    omega

/-- Of four numbers inserted into a heap with room for three, the greatest is returned. -/
theorem insertAll_keeps_least_three :
    (((heapInit (fun _ => 0) 3 fun a b : Nat => decide (b < a)).insertAll [5, 9, 9, 2]).1.stored ++
      ((heapInit (fun _ => 0) 3 fun a b : Nat => decide (b < a)).insertAll [5, 9, 9, 2]).2).Perm
        [5, 9, 9, 2] :=
  (@insertAll_keeps_least Nat (fun a b => a ≤ b) (fun _ => 0) 3 _
    ⟨fun _ _ _ => Nat.le_trans, fun _ _ h => Nat.le_of_lt (of_decide_eq_true h),
      fun _ _ h => Nat.not_lt.mp (of_decide_eq_false h)⟩ (Nat.succ_pos 2) [5, 9, 9, 2]).2.1

end PtrHeap

end AndroidKernel.PrioHeap
