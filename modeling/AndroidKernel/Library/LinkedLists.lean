import Mathlib.Data.List.Nodup

/-!
# Intrusive linked lists

A family of lists whose members carry their own link, as `struct list_head` does: an entry
is on at most one list, and it can be taken off without knowing which one. `home` is what a
test for an unlinked entry reads.
-/

namespace AndroidKernel.Library

universe u v

/-- Lists `items q` for every list head `q`, with the list each entry is linked into. -/
structure LinkedLists (Head : Type u) (Entry : Type v) where
  items : Head → List Entry
  home : Entry → Option Head
  mem_items : ∀ q w, w ∈ items q ↔ home w = some q
  nodup_items : ∀ q, (items q).Nodup

namespace LinkedLists

variable {Head : Type u} {Entry : Type v}

/-- Every list is empty and every entry unlinked. -/
def empty : LinkedLists Head Entry where
  items _ := []
  home _ := none
  mem_items _ _ := by simp
  nodup_items _ := List.nodup_nil

variable [DecidableEq Entry]

/-- Takes an entry off the list it is on, if any. -/
def del (l : LinkedLists Head Entry) (w : Entry) : LinkedLists Head Entry where
  items q := (l.items q).erase w
  home := Function.update l.home w none
  mem_items q v := by
    rw [(l.nodup_items q).mem_erase_iff, l.mem_items]
    by_cases hv : v = w
    · simp [hv]
    · simp [hv]
  nodup_items q := (l.nodup_items q).erase w

@[simp]
theorem items_del (l : LinkedLists Head Entry) (q : Head) (w : Entry) :
    (l.del w).items q = (l.items q).erase w := rfl

@[simp]
theorem home_del (l : LinkedLists Head Entry) (w : Entry) :
    (l.del w).home = Function.update l.home w none := rfl

/-- The entry is on no list after `del`. -/
theorem not_mem_erase (l : LinkedLists Head Entry) (q : Head) (w : Entry) :
    w ∉ (l.items q).erase w := by
  rw [← items_del, (l.del w).mem_items]
  simp

variable [DecidableEq Head]

/-- Replaces list `q` by `ws`, which holds its entries and `w`. -/
def relink (l : LinkedLists Head Entry) (q : Head) (w : Entry) (ws : List Entry)
    (hmem : ∀ v, v ∈ ws ↔ v = w ∨ v ∈ (l.items q).erase w) (hnodup : ws.Nodup) :
    LinkedLists Head Entry where
  items := Function.update (l.del w).items q ws
  home := Function.update l.home w (some q)
  mem_items r v := by
    have hother := (l.del w).mem_items r v
    by_cases hr : r = q
    · subst hr
      by_cases hv : v = w
      · simp [hmem, hv]
      · simpa [hmem, hv] using hother
    · by_cases hv : v = w
      · subst hv
        simpa [hr, Ne.symm hr] using l.not_mem_erase r v
      · simpa [hr, hv] using hother
  nodup_items r := by
    by_cases hr : r = q
    · subst hr
      simpa using hnodup
    · simpa [hr] using (l.del w).nodup_items r

/-- Links an entry at the end of a list, taking it off the one it was on. -/
def addTail (l : LinkedLists Head Entry) (q : Head) (w : Entry) : LinkedLists Head Entry :=
  l.relink q w ((l.items q).erase w ++ [w])
    (by simp [or_comm])
    (by
      rw [List.nodup_append]
      refine ⟨(l.nodup_items q).erase w, List.nodup_singleton w, ?_⟩
      rintro v hv u hu rfl
      exact l.not_mem_erase q w (List.mem_singleton.1 hu ▸ hv))

/-- Links an entry at the front of a list, taking it off the one it was on. -/
def addHead (l : LinkedLists Head Entry) (q : Head) (w : Entry) : LinkedLists Head Entry :=
  l.relink q w (w :: (l.items q).erase w) (by simp)
    (List.nodup_cons.2 ⟨l.not_mem_erase q w, (l.nodup_items q).erase w⟩)

/-- Puts the entries of a list into another order. -/
def reorder (l : LinkedLists Head Entry) (q : Head) (ws : List Entry)
    (h : ws.Perm (l.items q)) : LinkedLists Head Entry where
  items := Function.update l.items q ws
  home := l.home
  mem_items r v := by
    by_cases hr : r = q
    · subst hr
      rw [Function.update_self, h.mem_iff, l.mem_items]
    · rw [Function.update_of_ne hr, l.mem_items]
  nodup_items r := by
    by_cases hr : r = q
    · subst hr
      rw [Function.update_self]
      exact h.nodup_iff.mpr (l.nodup_items r)
    · rw [Function.update_of_ne hr]
      exact l.nodup_items r

@[simp]
theorem home_addTail (l : LinkedLists Head Entry) (q : Head) (w : Entry) :
    (l.addTail q w).home = Function.update l.home w (some q) := rfl

@[simp]
theorem home_addHead (l : LinkedLists Head Entry) (q : Head) (w : Entry) :
    (l.addHead q w).home = Function.update l.home w (some q) := rfl

theorem items_addTail (l : LinkedLists Head Entry) (q r : Head) (w : Entry) :
    (l.addTail q w).items r =
      if r = q then (l.items q).erase w ++ [w] else (l.items r).erase w := by
  by_cases hr : r = q
  · simp [addTail, relink, hr]
  · simp [addTail, relink, hr]

end LinkedLists

end AndroidKernel.Library
