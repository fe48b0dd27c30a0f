import Mathlib.Data.List.Nodup

/-!
# Circular doubly linked lists

Every entry has a link to the next entry and one to the previous one, as `struct list_head` has.
A `Path` leads from one entry to another through a list of entries, along links that agree in both
directions, and a `Ring` is a path back to where it starts. Any entry of a ring can be taken for
its start (`ring_rotate`).
-/

namespace AndroidKernel.Library

universe u

/-- The links of all entries. -/
structure Links (P : Type u) where
  next : P → P
  prev : P → P

namespace Links

variable {P : Type u}

section Operations

variable [DecidableEq P]

/-- `__list_add`: put an entry between two known consecutive entries. -/
def listAdd (l : Links P) (new prev next : P) : Links P :=
  let l := { l with prev := Function.update l.prev next new }
  let l := { l with next := Function.update l.next new next }
  let l := { l with prev := Function.update l.prev new prev }
  { l with next := Function.update l.next prev new }

/-- `list_add_tail`: put an entry before another one. -/
def addTail (l : Links P) (new head : P) : Links P :=
  l.listAdd new (l.prev head) head

/-- `__list_del`: make two entries each other's neighbours. -/
def listDel (l : Links P) (prev next : P) : Links P :=
  let l := { l with prev := Function.update l.prev next prev }
  { l with next := Function.update l.next prev next }

/-- `INIT_LIST_HEAD`: an entry by itself. -/
def initHead (l : Links P) (entry : P) : Links P where
  next := Function.update l.next entry entry
  prev := Function.update l.prev entry entry

/-- `list_del_init`: take an entry out and leave it by itself. -/
def delInit (l : Links P) (entry : P) : Links P :=
  (l.listDel (l.prev entry) (l.next entry)).initHead entry

/-- `list_move_tail`: take an entry out and put it before another one. -/
def moveTail (l : Links P) (entry head : P) : Links P :=
  (l.listDel (l.prev entry) (l.next entry)).addTail entry head

/-- `list_empty`: the entry is by itself. -/
def isEmpty (l : Links P) (head : P) : Bool :=
  decide (l.next head = head)

end Operations

/-- The links lead from `a` through `xs` to `b`, and back. -/
def Path (l : Links P) : P → List P → P → Prop
  | a, [], b => l.next a = b ∧ l.prev b = a
  | a, x :: xs, b => (l.next a = x ∧ l.prev x = a) ∧ Path l x xs b

/-- The circular list of `h` and `xs`, in this order. -/
def Ring (l : Links P) (h : P) (xs : List P) : Prop :=
  l.Path h xs h

variable {l l' : Links P} {a b h x y : P} {xs ys : List P}

theorem path_append : l.Path a (xs ++ x :: ys) b ↔ l.Path a xs x ∧ l.Path x ys b := by
  induction xs generalizing a with
  | nil => exact Iff.rfl
  | cons z xs ih =>
    show (_ ∧ l.Path z (xs ++ x :: ys) b) ↔ (_ ∧ l.Path z xs x) ∧ _
    rw [ih]
    exact and_assoc.symm

theorem path_concat : l.Path a (xs ++ [x]) b ↔ l.Path a xs x ∧ l.next x = b ∧ l.prev b = x :=
  path_append

/-- A path depends on the forward links of all of its entries but the end, and on the backward
links of all but the start. -/
theorem Path.congr (hp : l.Path a xs b) (hnext : ∀ z ∈ a :: xs, l'.next z = l.next z)
    (hprev : ∀ z ∈ xs ++ [b], l'.prev z = l.prev z) : l'.Path a xs b := by
  induction xs generalizing a with
  | nil =>
    exact ⟨(hnext a List.mem_cons_self).trans hp.1,
      (hprev b (List.mem_append_right _ List.mem_cons_self)).trans hp.2⟩
  | cons x xs ih =>
    refine ⟨⟨(hnext a List.mem_cons_self).trans hp.1.1,
      (hprev x List.mem_cons_self).trans hp.1.2⟩, ih hp.2 ?_ ?_⟩
    · exact fun z hz => hnext z (List.mem_cons_of_mem _ hz)
    · exact fun z hz => hprev z (List.mem_cons_of_mem _ hz)

/-- Any entry of a ring can be taken for its start. -/
theorem ring_rotate : l.Ring h (xs ++ x :: ys) ↔ l.Ring x (ys ++ h :: xs) := by
  unfold Ring
  rw [path_append, path_append]
  exact and_comm

/-- A ring depends on the links of its own entries. -/
theorem Ring.congr (hr : l.Ring h xs) (hnext : ∀ z ∈ h :: xs, l'.next z = l.next z)
    (hprev : ∀ z ∈ h :: xs, l'.prev z = l.prev z) : l'.Ring h xs := by
  refine Path.congr hr hnext fun z hz => hprev z ?_
  rcases List.mem_append.mp hz with hz | hz
  · exact List.mem_cons_of_mem _ hz
  · exact List.mem_cons.mpr (.inl (List.mem_singleton.mp hz))

/-- The neighbours of an entry of a ring are on the ring. -/
theorem Ring.prev_mem (hr : l.Ring h xs) : l.prev h ∈ h :: xs := by
  rcases List.eq_nil_or_concat xs with rfl | ⟨ys, y, rfl⟩
  · exact List.mem_cons.mpr (.inl hr.2)
  · rw [List.concat_eq_append] at hr ⊢
    rw [(path_concat.mp hr).2.2]
    exact List.mem_cons_of_mem _ (List.mem_append_right _ List.mem_cons_self)

theorem nodup_rotate : (h :: (xs ++ x :: ys)).Nodup ↔ (x :: (ys ++ h :: xs)).Nodup := by
  refine List.Perm.nodup_iff ?_
  rw [← List.cons_append, ← List.cons_append]
  exact List.perm_append_comm

/-- A ring that is left by its first entry, seen from another one. -/
theorem ring_of_cons {zs : List P} (hcut : x :: xs = ys ++ h :: zs) (hr : l.Ring x xs) :
    l.Ring h (zs ++ ys) := by
  cases ys with
  | nil =>
    obtain ⟨rfl, rfl⟩ := List.cons.inj hcut
    rw [List.append_nil]
    exact hr
  | cons y ys =>
    obtain ⟨rfl, rfl⟩ := List.cons.inj hcut
    exact ring_rotate.mp hr

/-- In a ring, an entry with others is not by itself. -/
theorem Ring.next_ne (hr : l.Ring h (xs ++ x :: ys)) (hnodup : (h :: (xs ++ x :: ys)).Nodup) :
    l.next x ≠ x := by
  have hr' := ring_rotate.mp hr
  have hx := (List.nodup_cons.mp (nodup_rotate.mp hnodup)).1
  obtain ⟨y, zs, hy⟩ := List.exists_cons_of_ne_nil (l := ys ++ h :: xs) (by simp)
  rw [hy] at hr' hx
  rw [hr'.1.1]
  exact fun heq => hx (heq ▸ List.mem_cons_self)

variable [DecidableEq P] {new : P}

/-! ## Putting an entry in -/

theorem addTail_next (l : Links P) (new head z : P) :
    (l.addTail new head).next z =
      if z = l.prev head then new else if z = new then head else l.next z := by
  show Function.update (Function.update l.next new head) (l.prev head) new z = _
  rw [Function.update_apply, Function.update_apply]

theorem addTail_prev (l : Links P) (new head z : P) :
    (l.addTail new head).prev z =
      if z = new then l.prev head else if z = head then new else l.prev z := by
  show Function.update (Function.update l.prev head new) new (l.prev head) z = _
  rw [Function.update_apply, Function.update_apply]

/-- A new entry put before the start of a ring is its last one. -/
theorem Ring.addTail (hr : l.Ring h xs) (hnodup : (h :: xs).Nodup) (hnew : new ∉ h :: xs) :
    (l.addTail new h).Ring h (xs ++ [new]) := by
  have hne : new ≠ h := fun heq => hnew (heq ▸ List.mem_cons_self)
  have hnp : new ≠ l.prev h := fun heq => hnew (heq ▸ hr.prev_mem)
  have hback : (l.addTail new h).next new = h ∧ (l.addTail new h).prev h = new := by
    rw [addTail_next, addTail_prev, if_neg hnp, if_pos rfl, if_neg (Ne.symm hne), if_pos rfl]
    exact ⟨rfl, rfl⟩
  refine path_concat.mpr ⟨?_, hback⟩
  rcases List.eq_nil_or_concat xs with rfl | ⟨ys, y, rfl⟩
  · refine ⟨?_, ?_⟩
    · rw [addTail_next, if_pos hr.2.symm]
    · rw [addTail_prev, if_pos rfl]
      exact hr.2
  rw [List.concat_eq_append] at *
  obtain ⟨hpath, hnext, hprev⟩ := path_concat.mp hr
  refine path_concat.mpr ⟨hpath.congr (fun z hz => ?_) (fun z hz => ?_), ?_, ?_⟩
  · have hzy : z ≠ y := by
      rintro rfl
      rw [← List.cons_append, List.nodup_append] at hnodup
      exact hnodup.2.2 z hz z List.mem_cons_self rfl
    have hzn : z ≠ new := by
      rintro rfl
      rw [← List.cons_append] at hnew
      exact hnew (List.mem_append_left _ hz)
    rw [addTail_next, hprev, if_neg hzy, if_neg hzn]
  · have hzn : z ≠ new := fun heq => hnew (heq ▸ List.mem_cons_of_mem _ hz)
    have hzh : z ≠ h := fun heq => (List.nodup_cons.mp hnodup).1 (heq ▸ hz)
    rw [addTail_prev, if_neg hzn, if_neg hzh]
  · rw [addTail_next, if_pos hprev.symm]
  · rw [addTail_prev, if_pos rfl]
    exact hprev

/-- Rings that neither the new entry nor the other one is on stay. -/
theorem Ring.addTail_other {k : P} {zs : List P} (hk : l.Ring k zs) (hr : l.Ring h xs)
    (hdisjoint : ∀ z ∈ h :: xs, z ∉ k :: zs) (hnew : new ∉ k :: zs) :
    (l.addTail new h).Ring k zs := by
  refine hk.congr (fun z hz => ?_) (fun z hz => ?_)
  · rw [addTail_next, if_neg, if_neg]
    · exact fun heq => hnew (heq ▸ hz)
    · exact fun heq => hdisjoint _ hr.prev_mem (heq ▸ hz)
  · rw [addTail_prev, if_neg, if_neg]
    · exact fun heq => hdisjoint h List.mem_cons_self (heq ▸ hz)
    · exact fun heq => hnew (heq ▸ hz)

/-! ## Taking an entry out -/

theorem listDel_next (l : Links P) (p n z : P) :
    (l.listDel p n).next z = if z = p then n else l.next z :=
  Function.update_apply ..

theorem listDel_prev (l : Links P) (p n z : P) :
    (l.listDel p n).prev z = if z = n then p else l.prev z :=
  Function.update_apply ..

/-- The rest of a ring is a ring. -/
theorem Ring.listDel (hr : l.Ring h (x :: xs)) (hnodup : (h :: x :: xs).Nodup) :
    (l.listDel (l.prev h) (l.next h)).Ring x xs := by
  obtain ⟨⟨hnext, hxh⟩, hpath⟩ := hr
  rw [hnext]
  have hx := (List.nodup_cons.mp (List.nodup_cons.mp hnodup).2)
  rcases List.eq_nil_or_concat xs with rfl | ⟨ys, y, rfl⟩
  · refine ⟨?_, ?_⟩
    · rw [listDel_next, if_pos hpath.2.symm]
    · rw [listDel_prev, if_pos rfl]
      exact hpath.2
  rw [List.concat_eq_append] at *
  obtain ⟨hpath, -, hprev⟩ := path_concat.mp hpath
  rw [hprev]
  refine path_concat.mpr ⟨hpath.congr (fun z hz => ?_) (fun z hz => ?_), ?_, ?_⟩
  · have hzy : z ≠ y := by
      rintro rfl
      have hrest := (List.nodup_cons.mp hnodup).2
      rw [← List.cons_append, List.nodup_append] at hrest
      exact hrest.2.2 z hz z List.mem_cons_self rfl
    rw [listDel_next, if_neg hzy]
  · have hzx : z ≠ x := fun heq => hx.1 (heq ▸ hz)
    rw [listDel_prev, if_neg hzx]
  · rw [listDel_next, if_pos rfl]
  · rw [listDel_prev, if_pos rfl]

/-- Nothing changes when an entry by itself is taken out. -/
theorem listDel_alone (hr : l.Ring h []) : l.listDel (l.prev h) (l.next h) = l := by
  obtain ⟨hnext, hprev⟩ := hr
  have hn : Function.update l.next h h = l.next := by
    rw [Function.update_eq_self_iff]
    exact hnext.symm
  have hp : Function.update l.prev h h = l.prev := by
    rw [Function.update_eq_self_iff]
    exact hprev.symm
  rw [hnext, hprev]
  show Links.mk (Function.update l.next h h) (Function.update l.prev h h) = l
  rw [hn, hp]

/-- Rings that the entry is not on stay. -/
theorem Ring.listDel_other {k : P} {zs : List P} (hk : l.Ring k zs) (hr : l.Ring h xs)
    (hdisjoint : ∀ z ∈ h :: xs, z ∉ k :: zs) :
    (l.listDel (l.prev h) (l.next h)).Ring k zs := by
  have hnext : l.next h ∈ h :: xs := by
    cases xs with
    | nil => exact List.mem_cons.mpr (.inl hr.1)
    | cons x xs => exact List.mem_cons_of_mem _ (hr.1.1 ▸ List.mem_cons_self)
  refine hk.congr (fun z hz => ?_) (fun z hz => ?_)
  · rw [listDel_next, if_neg]
    exact fun heq => hdisjoint _ hr.prev_mem (heq ▸ hz)
  · rw [listDel_prev, if_neg]
    exact fun heq => hdisjoint _ hnext (heq ▸ hz)

theorem ring_initHead (l : Links P) (h : P) : (l.initHead h).Ring h [] :=
  ⟨Function.update_self .., Function.update_self ..⟩

theorem Ring.initHead_other {k : P} {zs : List P} (hk : l.Ring k zs) (h : P)
    (hh : h ∉ k :: zs) : (l.initHead h).Ring k zs :=
  hk.congr (fun _ hz => Function.update_of_ne (ne_of_mem_of_not_mem hz hh) ..)
    (fun _ hz => Function.update_of_ne (ne_of_mem_of_not_mem hz hh) ..)

theorem Ring.delInit (hr : l.Ring h (x :: xs)) (hnodup : (h :: x :: xs).Nodup) :
    (l.delInit h).Ring x xs :=
  (hr.listDel hnodup).initHead_other h (List.nodup_cons.mp hnodup).1

theorem ring_delInit (l : Links P) (h : P) : (l.delInit h).Ring h [] :=
  ring_initHead _ h

theorem Ring.delInit_other {k : P} {zs : List P} (hk : l.Ring k zs) (hr : l.Ring h xs)
    (hdisjoint : ∀ z ∈ h :: xs, z ∉ k :: zs) : (l.delInit h).Ring k zs :=
  (hk.listDel_other hr hdisjoint).initHead_other h (hdisjoint h List.mem_cons_self)

/-! ## From the start of the ring -/

/-- A new entry put before one of a ring. -/
theorem Ring.insert (hr : l.Ring h (xs ++ x :: ys)) (hnodup : (h :: (xs ++ x :: ys)).Nodup)
    (hnew : new ∉ h :: (xs ++ x :: ys)) : (l.addTail new x).Ring h (xs ++ new :: x :: ys) := by
  have hnew' : new ∉ x :: (ys ++ h :: xs) := by
    simp only [List.mem_cons, List.mem_append] at hnew ⊢
    tauto
  have hadded := (ring_rotate.mp hr).addTail (nodup_rotate.mp hnodup) hnew'
  rw [List.append_assoc, List.cons_append] at hadded
  have hback := ring_rotate.mpr hadded
  rw [List.append_assoc] at hback
  exact hback

/-- An entry of a ring taken out. -/
theorem Ring.remove (hr : l.Ring h (xs ++ x :: ys)) (hnodup : (h :: (xs ++ x :: ys)).Nodup) :
    (l.delInit x).Ring h (xs ++ ys) := by
  have hr' := ring_rotate.mp hr
  have hnodup' := nodup_rotate.mp hnodup
  obtain ⟨y, zs, hy⟩ := List.exists_cons_of_ne_nil (l := ys ++ h :: xs) (by simp)
  rw [hy] at hr' hnodup'
  exact ring_of_cons hy.symm (hr'.delInit hnodup')

/-- The entry that follows `h` unlinked. -/
theorem Ring.listDel_next (hr : l.Ring h (x :: xs)) (hnodup : (h :: x :: xs).Nodup) :
    l.Ring x (xs ++ [h]) ∧ (l.listDel (l.prev x) (l.next x)).Ring h xs := by
  have hx : l.Ring x (xs ++ [h]) := ring_rotate.mp (show l.Ring h ([] ++ x :: xs) from hr)
  have hnodup' : (x :: (xs ++ [h])).Nodup :=
    nodup_rotate.mp (show (h :: ([] ++ x :: xs)).Nodup from hnodup)
  refine ⟨hx, ?_⟩
  cases xs with
  | nil => exact hx.listDel hnodup'
  | cons y ys =>
    have hy := hx.listDel hnodup'
    exact ring_rotate.mp hy

/-- Moving the entry that follows `h` before `h` turns the ring. -/
theorem Ring.moveTail (hr : l.Ring h (x :: xs)) (hnodup : (h :: x :: xs).Nodup) :
    (l.moveTail x h).Ring h (xs ++ [x]) := by
  refine (hr.listDel_next hnodup).2.addTail ?_ ?_
  · exact hnodup.sublist ((List.sublist_cons_self x xs).cons_cons h)
  · have hcons := List.nodup_cons.mp hnodup
    have hcons' := List.nodup_cons.mp hcons.2
    rintro (_ | ⟨_, hmem⟩)
    · exact hcons.1 List.mem_cons_self
    · exact hcons'.1 hmem

/-- Taking out an entry after the one that follows it was moved before it. -/
theorem Ring.moveTail_remove (hr : l.Ring h (xs ++ x :: ys))
    (hnodup : (h :: (xs ++ x :: ys)).Nodup) :
    ((l.moveTail (l.next x) x).delInit x).Ring h (xs ++ ys) := by
  have hr' := ring_rotate.mp hr
  have hnodup' := nodup_rotate.mp hnodup
  obtain ⟨y, zs, hy⟩ := List.exists_cons_of_ne_nil (l := ys ++ h :: xs) (by simp)
  rw [hy] at hr' hnodup'
  rw [hr'.1.1]
  have hmoved := hr'.moveTail hnodup'
  have hturned : (x :: (zs ++ [y])).Nodup := by
    refine (List.Perm.nodup_iff (List.Perm.cons x ?_)).mp hnodup'
    exact (List.perm_append_singleton y zs).symm
  cases zs with
  | nil => exact ring_of_cons hy.symm (hmoved.delInit hturned)
  | cons z zs =>
    have hleft := hmoved.delInit hturned
    exact ring_of_cons hy.symm (ring_rotate.mp hleft)

/-- Moving an entry by itself is adding it. -/
theorem moveTail_alone (hr : l.Ring x []) (h : P) : l.moveTail x h = l.addTail x h := by
  unfold Links.moveTail
  rw [listDel_alone hr]

theorem Ring.moveTail_other {k : P} {zs : List P} (hk : l.Ring k zs) (hr : l.Ring h (x :: xs))
    (hnodup : (h :: x :: xs).Nodup) (hdisjoint : ∀ z ∈ h :: x :: xs, z ∉ k :: zs) :
    (l.moveTail x h).Ring k zs := by
  obtain ⟨hx, hrest⟩ := hr.listDel_next hnodup
  refine (hk.listDel_other hx fun z hz => hdisjoint z ?_).addTail_other hrest
    (fun z hz => hdisjoint z ?_) (hdisjoint x (List.mem_cons_of_mem _ List.mem_cons_self))
  · simp only [List.mem_cons, List.mem_append, List.not_mem_nil, or_false] at hz ⊢
    tauto
  · simp only [List.mem_cons] at hz ⊢
    tauto

/-- The move before a removal does not touch other rings either. -/
theorem Ring.moveTail_remove_other {k : P} {zs : List P} (hk : l.Ring k zs)
    (hr : l.Ring h (xs ++ x :: ys)) (hnodup : (h :: (xs ++ x :: ys)).Nodup)
    (hdisjoint : ∀ z ∈ h :: (xs ++ x :: ys), z ∉ k :: zs) :
    ((l.moveTail (l.next x) x).delInit x).Ring k zs := by
  have hr' := ring_rotate.mp hr
  have hnodup' := nodup_rotate.mp hnodup
  have hdisjoint' : ∀ z ∈ x :: (ys ++ h :: xs), z ∉ k :: zs := by
    intro z hz
    refine hdisjoint z ?_
    simp only [List.mem_cons, List.mem_append] at hz ⊢
    tauto
  obtain ⟨y, vs, hy⟩ := List.exists_cons_of_ne_nil (l := ys ++ h :: xs) (by simp)
  rw [hy] at hr' hnodup' hdisjoint'
  rw [hr'.1.1]
  refine (hk.moveTail_other hr' hnodup' hdisjoint').delInit_other (hr'.moveTail hnodup') ?_
  intro z hz
  refine hdisjoint' z ?_
  simp only [List.mem_cons, List.mem_append, List.not_mem_nil, or_false] at hz ⊢
  tauto

end Links

end AndroidKernel.Library
