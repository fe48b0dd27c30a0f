import AndroidKernel.RadixTree.Model

/-!
# Trees of nodes

What a tree of nodes of a given height holds (`lookupDown`, `tagAt`), when its counts and tag
bits are right (`WellFormed`), and what the recursion of each operation does to it.
-/

namespace AndroidKernel.RadixTree

open Library

universe u

variable {α : Type u} {w : Nat}

/-- The tag of the item at an index, in a slot of height `h` whose own tag bit is `bit`. -/
def tagAt (t : Fin 2) (index : Nat) : Nat → Ptr α w → Bool → Bool
  | 0, _, bit => bit
  | h + 1, .node _ _ slots tags, _ =>
    tagAt t index h (slots (offset w h index)) (tags t (offset w h index))
  | _ + 1, _, _ => false

/-- The tag bit kept for a slot of height `h` is right: an empty slot has none, and above the
items it tells whether the node in the slot has the tag at all. -/
def TagOk (t : Fin 2) : Nat → Ptr α w → Bool → Prop
  | 0, p, bit => bit = true → p.isNull = false
  | _ + 1, p, bit => bit = p.anyTagSet t

/-- The number of slots in use. -/
def inUse (slots : Fin (2 ^ w) → Ptr α w) : Nat :=
  (Finset.univ.filter fun s => (slots s).isNull = false).card

/-- A slot of height `h` holds nothing, an item if `h` is 0, or else a node with the right
height, count and tags. -/
def WellFormed : Nat → Ptr α w → Prop
  | _, .null => True
  | h, .item _ => h = 0
  | 0, .node .. => False
  | h + 1, .node height count slots tags =>
    height = h + 1 ∧ count = inUse slots ∧ (∀ s, WellFormed h (slots s)) ∧
      ∀ t s, TagOk t h (slots s) (tags t s)

/-- A node with all slots, tags and its count zero. -/
def Zeroed (p : Ptr α w) : Prop :=
  ∃ height, p = .node height 0 (fun _ => .null) fun _ _ => false

/-! ## Slots in use -/

theorem isNull_iff {p : Ptr α w} : p.isNull = true ↔ p = .null := by
  cases p <;> simp [Ptr.isNull]

theorem filter_update (slots : Fin (2 ^ w) → Ptr α w) (s : Fin (2 ^ w)) (p : Ptr α w) :
    (Finset.univ.filter fun r => (Function.update slots s p r).isNull = false) =
      if p.isNull then (Finset.univ.filter fun r => (slots r).isNull = false).erase s
      else Insert.insert s (Finset.univ.filter fun r => (slots r).isNull = false) := by
  ext r
  by_cases hr : r = s
  · subst hr
    cases hp : p.isNull <;> simp [hp]
  · cases hp : p.isNull <;> simp [hr]

/-- Writing a slot keeps the count if it was and is in use, or was not and is not. -/
theorem inUse_update_same {slots : Fin (2 ^ w) → Ptr α w} {s : Fin (2 ^ w)} {p : Ptr α w}
    (h : p.isNull = (slots s).isNull) : inUse (Function.update slots s p) = inUse slots := by
  unfold inUse
  rw [filter_update, h]
  cases hs : (slots s).isNull with
  | true => rw [if_pos rfl, Finset.erase_eq_of_notMem (by simp [hs])]
  | false => rw [if_neg Bool.false_ne_true, Finset.insert_eq_of_mem (by simp [hs])]

theorem inUse_update_set {slots : Fin (2 ^ w) → Ptr α w} {s : Fin (2 ^ w)} {p : Ptr α w}
    (hs : (slots s).isNull = true) (hp : p.isNull = false) :
    inUse (Function.update slots s p) = inUse slots + 1 := by
  unfold inUse
  rw [filter_update, hp, if_neg Bool.false_ne_true, Finset.card_insert_of_notMem (by simp [hs])]

theorem inUse_update_null {slots : Fin (2 ^ w) → Ptr α w} {s : Fin (2 ^ w)}
    (hs : (slots s).isNull = false) :
    inUse (Function.update slots s .null) + 1 = inUse slots := by
  unfold inUse
  rw [filter_update, show (Ptr.null : Ptr α w).isNull = true from rfl, if_pos rfl]
  exact Finset.card_erase_add_one (by simp [hs])

theorem inUse_eq_zero {slots : Fin (2 ^ w) → Ptr α w} (h : inUse slots = 0) :
    slots = fun _ => .null := by
  unfold inUse at h
  rw [Finset.card_eq_zero, Finset.filter_eq_empty_iff] at h
  funext s
  have hs := h (Finset.mem_univ s)
  rw [Bool.not_eq_false] at hs
  exact isNull_iff.1 hs

@[simp] theorem inUse_null : inUse (fun _ => .null : Fin (2 ^ w) → Ptr α w) = 0 := by
  unfold inUse
  rw [Finset.card_eq_zero, Finset.filter_eq_empty_iff]
  intro s _
  simp [Ptr.isNull]

/-! ## Reading -/

@[simp] theorem lookupDown_null (i h : Nat) : lookupDown i h (.null : Ptr α w) = none := by
  cases h <;> rfl

@[simp] theorem lookupDown_node (i h height count : Nat) (slots : Fin (2 ^ w) → Ptr α w)
    (tags : Fin 2 → Fin (2 ^ w) → Bool) :
    lookupDown i (h + 1) (.node height count slots tags) =
      lookupDown i h (slots (offset w h i)) := rfl

@[simp] theorem tagAt_node (t : Fin 2) (i h height count : Nat) (slots : Fin (2 ^ w) → Ptr α w)
    (tags : Fin 2 → Fin (2 ^ w) → Bool) (bit : Bool) :
    tagAt t i (h + 1) (.node height count slots tags) bit =
      tagAt t i h (slots (offset w h i)) (tags t (offset w h i)) := rfl

@[simp] theorem tagAt_null (t : Fin 2) (i h : Nat) (bit : Bool) :
    tagAt t i (h + 1) (.null : Ptr α w) bit = false := rfl

theorem offset_inj {h i j : Nat} : offset w h i = offset w h j ↔ digit w h i = digit w h j := by
  simp [offset, Fin.ext_iff]

/-- Two indices that share their `h + 1` low digits go through the same slot. -/
theorem mod_iff {h i j : Nat} : j % 2 ^ (w * (h + 1)) = i % 2 ^ (w * (h + 1)) ↔
    offset w h j = offset w h i ∧ j % 2 ^ (w * h) = i % 2 ^ (w * h) := by
  rw [mod_succ_inj, offset_inj]

theorem lookupDown_congr {h i j : Nat} (hmod : i % 2 ^ (w * h) = j % 2 ^ (w * h)) (p : Ptr α w) :
    lookupDown i h p = lookupDown j h p := by
  induction h generalizing p with
  | zero => cases p <;> rfl
  | succ h ih =>
    obtain ⟨hoff, hlow⟩ := mod_iff.1 hmod
    cases p with
    | null => rfl
    | item x => rfl
    | node height count slots tags =>
      rw [lookupDown_node, lookupDown_node, hoff]
      exact ih hlow _

theorem tagAt_congr {h i j : Nat} (hmod : i % 2 ^ (w * h) = j % 2 ^ (w * h)) (t : Fin 2)
    (p : Ptr α w) (bit : Bool) : tagAt t i h p bit = tagAt t j h p bit := by
  induction h generalizing p bit with
  | zero => rfl
  | succ h ih =>
    obtain ⟨hoff, hlow⟩ := mod_iff.1 hmod
    cases p with
    | null => rfl
    | item x => rfl
    | node height count slots tags =>
      rw [tagAt_node, tagAt_node, hoff]
      exact ih hlow _ _

/-- Lookup below a slot that has been written. -/
theorem lookupDown_update {h i j : Nat} (height count : Nat) (slots : Fin (2 ^ w) → Ptr α w)
    (tags : Fin 2 → Fin (2 ^ w) → Bool) (p : Ptr α w) :
    lookupDown j (h + 1) (.node height count (Function.update slots (offset w h i) p) tags) =
      if offset w h j = offset w h i then lookupDown j h p
      else lookupDown j h (slots (offset w h j)) := by
  rw [lookupDown_node]
  split
  · rename_i heq
    rw [heq, Function.update_self]
  · rename_i hne
    rw [Function.update_of_ne hne]

theorem tagAt_update {h i j : Nat} (height count : Nat) (slots : Fin (2 ^ w) → Ptr α w)
    (tags : Fin 2 → Fin (2 ^ w) → Bool) (p : Ptr α w) (t : Fin 2) (bit : Bool) :
    tagAt t j (h + 1) (.node height count (Function.update slots (offset w h i) p) tags) bit =
      if offset w h j = offset w h i then tagAt t j h p (tags t (offset w h i))
      else tagAt t j h (slots (offset w h j)) (tags t (offset w h j)) := by
  rw [tagAt_node]
  split
  · rename_i heq
    rw [heq, Function.update_self]
  · rename_i hne
    rw [Function.update_of_ne hne]

/-- An item that is found has no tag bit but its own; where none is found there is none. -/
theorem tagAt_eq_false {h i : Nat} {p : Ptr α w} {t : Fin 2} {bit : Bool} (hwf : WellFormed h p)
    (hbit : TagOk t h p bit) (hnone : lookupDown i h p = none) : tagAt t i h p bit = false := by
  induction h generalizing p bit with
  | zero =>
    cases p with
    | null =>
      cases bit with
      | false => rfl
      | true => cases hbit rfl
    | item x => cases hnone
    | node => exact hwf.elim
  | succ h ih =>
    cases p with
    | null => rfl
    | item x => rfl
    | node height count slots tags =>
      obtain ⟨-, -, hslots, htags⟩ := hwf
      exact ih (hslots _) (htags t _) hnone

/-- A node with one slot and its tag bits written. -/
theorem WellFormed.write {h height count count' : Nat} {slots : Fin (2 ^ w) → Ptr α w}
    {tags tags' : Fin 2 → Fin (2 ^ w) → Bool} {s : Fin (2 ^ w)} {child : Ptr α w}
    (hwf : WellFormed (h + 1) (.node height count slots tags))
    (hcount : count' = inUse (Function.update slots s child)) (hchild : WellFormed h child)
    (hs : ∀ t, TagOk t h child (tags' t s)) (hrest : ∀ t r, r ≠ s → tags' t r = tags t r) :
    WellFormed (h + 1) (.node height count' (Function.update slots s child) tags') := by
  obtain ⟨hheight, -, hslots, htags⟩ := hwf
  refine ⟨hheight, hcount, fun r => ?_, fun t r => ?_⟩
  · by_cases hr : r = s
    · rw [hr, Function.update_self]
      exact hchild
    · rw [Function.update_of_ne hr]
      exact hslots r
  · by_cases hr : r = s
    · rw [hr, Function.update_self]
      exact hs t
    · rw [Function.update_of_ne hr, hrest t r hr]
      exact htags t r

/-! ## Insertion -/

/-- Everything handed back to the slab is zeroed. -/
def Slab.Clean (m : Slab α w) : Prop :=
  ∀ p ∈ m.free, Zeroed p

theorem nodeAlloc_spec {m : Slab α w} (hm : m.Clean) :
    (∀ p, (nodeAlloc m).1 = some p → Zeroed p) ∧ (nodeAlloc m).2.Clean := by
  obtain ⟨free, next⟩ := m
  unfold nodeAlloc
  cases next with
  | nil => exact ⟨nofun, hm⟩
  | cons a next =>
    cases a with
    | fail => exact ⟨nofun, hm⟩
    | fresh => exact ⟨fun p hp => ⟨0, (Option.some.inj hp).symm⟩, hm⟩
    | reuse k =>
      dsimp only
      split
      · rename_i q hq
        refine ⟨fun p hp => ?_, fun p hp => hm p (List.mem_of_mem_eraseIdx hp)⟩
        obtain rfl := Option.some.inj hp
        exact hm q (List.mem_of_getElem? hq)
      · exact ⟨fun p hp => ⟨0, (Option.some.inj hp).symm⟩, hm⟩

/-- An empty node is as good as none. -/
theorem wellFormed_zero (h : Nat) :
    WellFormed (h + 1) (.node (h + 1) 0 (fun _ => .null) fun _ _ => false : Ptr α w) := by
  refine ⟨rfl, by simp, fun s => by cases h <;> trivial, fun t s => ?_⟩
  cases h with
  | zero => exact nofun
  | succ h => rfl

/-- The node that an insertion goes into holds what the slot held. -/
theorem ensureNode_spec {h : Nat} {slot : Ptr α w} {m : Slab α w} (hwf : WellFormed (h + 1) slot)
    (hm : m.Clean) : (ensureNode (h + 1) slot m).2.Clean ∧
      ∀ q, (ensureNode (h + 1) slot m).1 = some q →
        (∃ count slots tags, q = .node (h + 1) count slots tags) ∧ WellFormed (h + 1) q ∧
        (∀ j, lookupDown j (h + 1) q = lookupDown j (h + 1) slot) ∧
        (∀ t j bit, tagAt t j (h + 1) q bit = tagAt t j (h + 1) slot bit) ∧
        ∀ t, q.anyTagSet t = slot.anyTagSet t := by
  cases slot with
  | item x => cases hwf
  | node height count slots tags =>
    refine ⟨hm, fun q hq => ?_⟩
    obtain rfl := Option.some.inj hq
    obtain ⟨rfl, hrest⟩ := hwf
    exact ⟨⟨count, slots, tags, rfl⟩, ⟨rfl, hrest⟩, fun _ => rfl, fun _ _ _ => rfl, fun _ => rfl⟩
  | null =>
    obtain ⟨hzero, hclean⟩ := nodeAlloc_spec hm
    unfold ensureNode
    dsimp only
    generalize nodeAlloc m = r at hzero hclean
    obtain ⟨p, m'⟩ := r
    cases p with
    | none => exact ⟨hclean, nofun⟩
    | some p =>
      obtain ⟨height, rfl⟩ := hzero p rfl
      refine ⟨hclean, fun q hq => ?_⟩
      obtain rfl := Option.some.inj hq
      refine ⟨⟨_, _, _, rfl⟩, wellFormed_zero h, fun j => ?_, fun t j bit => ?_, fun t => ?_⟩
      · rw [lookupDown_node, lookupDown_null, lookupDown_null]
      · cases h <;> rfl
      · simp [Ptr.anyTagSet]

/-- What an insertion leaves in a slot of height `h`. -/
structure Inserted (h i : Nat) (x : α) (p p' : Ptr α w) (result : Result) : Prop where
  wf : WellFormed h p'
  noBug : result ≠ .bug
  absent : result = .ok → lookupDown i h p = none
  present : result = .eexist → lookupDown i h p ≠ none
  lookup : ∀ j, lookupDown j h p' =
    if result = .ok ∧ j % 2 ^ (w * h) = i % 2 ^ (w * h) then some x else lookupDown j h p
  tag : ∀ t j bit, tagAt t j h p' bit = tagAt t j h p bit
  tagOk : ∀ t bit, TagOk t h p bit → TagOk t h p' bit
  inUse : p.isNull = false → p'.isNull = false

theorem insertDown_spec {h i : Nat} {x : α} {p : Ptr α w} {m : Slab α w} (hwf : WellFormed h p)
    (hm : m.Clean) : (insertDown i x h p m).2.1.Clean ∧
      Inserted h i x p (insertDown i x h p m).1 (insertDown i x h p m).2.2 := by
  induction h generalizing p m with
  | zero =>
    cases p with
    | node => exact hwf.elim
    | null =>
      refine ⟨hm, rfl, nofun, fun _ => rfl, nofun, fun j => ?_, fun _ _ _ => rfl, ?_, nofun⟩
      · simp [insertDown, Ptr.isNull, lookupDown, Nat.mod_one]
      · exact fun t bit _ _ => rfl
    | item y =>
      refine ⟨hm, rfl, nofun, nofun, fun _ => nofun, fun j => ?_, fun _ _ _ => rfl,
        fun _ _ hbit => hbit, fun hnull => hnull⟩
      simp [insertDown, Ptr.isNull]
  | succ h ih =>
    obtain ⟨hclean, hnode⟩ := ensureNode_spec hwf hm
    unfold insertDown
    generalize ensureNode (h + 1) p m = r at hclean hnode
    obtain ⟨q, m₁⟩ := r
    cases q with
    | none =>
      exact ⟨hclean, hwf, nofun, nofun, nofun, fun j => (if_neg nofun).symm,
        fun _ _ _ => rfl, fun _ _ hbit => hbit, fun hnull => hnull⟩
    | some q =>
      obtain ⟨⟨count, slots, tags, rfl⟩, ⟨-, hcount, hslots, htags⟩, hlookup, htag, hany⟩ :=
        hnode q rfl
      obtain ⟨hclean', hins⟩ := ih (hslots (offset w h i)) hclean
      dsimp only
      generalize insertDown i x h (slots (offset w h i)) m₁ = r at hclean' hins
      obtain ⟨child, m₂, result⟩ := r
      dsimp only at hclean' hins ⊢
      -- an empty slot has no tag, so the test after the write never fires
      have hnoBug : ¬ (h = 0 ∧ result = .ok ∧
          (tags 0 (offset w h i) ∨ tags 1 (offset w h i))) := by
        rintro ⟨rfl, hok, hset⟩
        have hclear (t : Fin 2) : tags t (offset w 0 i) = false :=
          tagAt_eq_false (hslots _) (htags t _) (hins.absent hok)
        simp [hclear] at hset
      rw [if_neg hnoBug]
      have hcount' : (if (slots (offset w h i)).isNull && !child.isNull then count + 1
          else count) = inUse (Function.update slots (offset w h i) child) := by
        cases hs : (slots (offset w h i)).isNull with
        | false => simpa [inUse_update_same ((hins.inUse hs).trans hs.symm)] using hcount
        | true =>
          cases hc : child.isNull with
          | false => simp [inUse_update_set hs hc, hcount]
          | true => simpa [inUse_update_same (hc.trans hs.symm)] using hcount
      refine ⟨hclean', ?_, hins.noBug, fun hok => ?_, fun hex => ?_, fun j => ?_,
        fun t j bit => ?_, fun t bit hbit => ?_, fun _ => rfl⟩
      · exact WellFormed.write ⟨rfl, hcount, hslots, htags⟩ hcount' hins.wf
          (fun t => hins.tagOk t _ (htags t _)) fun _ _ _ => rfl
      · rw [← hlookup, lookupDown_node]
        exact hins.absent hok
      · rw [← hlookup, lookupDown_node]
        exact hins.present hex
      · rw [lookupDown_update, ← hlookup, lookupDown_node]
        by_cases hoff : offset w h j = offset w h i
        · simp [mod_iff, hoff, hins.lookup j]
        · simp [mod_iff, hoff]
      · rw [tagAt_update, ← htag, tagAt_node]
        by_cases hoff : offset w h j = offset w h i
        · simp [hoff, hins.tag]
        · simp [hoff]
      · exact Eq.trans hbit (hany t).symm

/-! ## Tags -/

/-- One tag bit of a node written. -/
theorem tags_update (tags : Fin 2 → Fin (2 ^ w) → Bool) (t t' : Fin 2) (s r : Fin (2 ^ w))
    (v : Bool) : Function.update tags t (Function.update (tags t) s v) t' r =
      if t' = t ∧ r = s then v else tags t' r := by
  by_cases ht : t' = t
  · subst ht
    by_cases hr : r = s
    · simp [hr]
    · simp [hr]
  · simp [ht]

/-- What `radix_tree_tag_set` leaves in a slot, whose own tag bit it sets too. -/
structure TagAdded (h i : Nat) (t : Fin 2) (p p' : Ptr α w) : Prop where
  wf : WellFormed h p'
  isNull : p'.isNull = p.isNull
  lookup : ∀ j, lookupDown j h p' = lookupDown j h p
  tag : ∀ t' j bit, tagAt t' j h p' (if t' = t then true else bit) =
    if t' = t ∧ j % 2 ^ (w * h) = i % 2 ^ (w * h) then true else tagAt t' j h p bit
  tagOk : ∀ t' bit, TagOk t' h p bit → TagOk t' h p' (if t' = t then true else bit)

theorem tagSetDown_spec {h i : Nat} {t : Fin 2} {p : Ptr α w} (hwf : WellFormed h p)
    (hfound : lookupDown i h p ≠ none) :
    ∃ p', tagSetDown i t h p = some p' ∧ TagAdded h i t p p' := by
  induction h generalizing p with
  | zero =>
    cases p with
    | null => exact absurd rfl hfound
    | node => exact hwf.elim
    | item x =>
      refine ⟨.item x, rfl, hwf, rfl, fun _ => rfl, fun t' j bit => ?_, fun _ _ _ _ => rfl⟩
      simp [tagAt, Nat.mod_one]
  | succ h ih =>
    cases p with
    | null => exact absurd rfl hfound
    | item x => exact absurd rfl hfound
    | node height count slots tags =>
      have ⟨_, hcount, hslots, htags⟩ := hwf
      obtain ⟨child, hset, hadd⟩ := ih (hslots (offset w h i)) hfound
      have hstep : tagSetDown i t (h + 1) (.node height count slots tags) =
          some (.node height count (Function.update slots (offset w h i) child)
            (Function.update tags t (Function.update (tags t) (offset w h i) true))) := by
        simp [tagSetDown, hset]
      refine ⟨_, hstep, ?_, rfl, fun j => ?_, fun t' j bit => ?_, fun t' bit hbit => ?_⟩
      · refine hwf.write ?_ hadd.wf (fun t' => ?_) fun t' r hr => ?_
        · rw [inUse_update_same hadd.isNull]
          exact hcount
        · have hok := hadd.tagOk t' _ (htags t' (offset w h i))
          rw [tags_update]
          by_cases ht : t' = t <;> simpa [ht] using hok
        · rw [tags_update, if_neg fun hand => hr hand.2]
      · rw [lookupDown_update, lookupDown_node]
        split
        · rename_i heq
          rw [hadd.lookup, heq]
        · rfl
      · rw [tagAt_update, tagAt_node, tags_update, tags_update]
        by_cases hoff : offset w h j = offset w h i
        · have hchild := hadd.tag t' j (tags t' (offset w h i))
          simpa [mod_iff, hoff] using hchild
        · simp [mod_iff, hoff]
      change _ = decide _
      change bit = decide _ at hbit
      by_cases ht : t' = t
      · rw [if_pos ht, eq_comm, decide_eq_true_iff]
        exact ⟨offset w h i, by rw [tags_update, if_pos ⟨ht, rfl⟩]⟩
      · rw [if_neg ht, hbit]
        refine decide_eq_decide.2 (exists_congr fun r => ?_)
        rw [tags_update, if_neg fun hand => ht hand.1]

/-- What `radix_tree_tag_clear` leaves in a slot; it clears the tag bit of the slot if it goes
on `up`. -/
structure TagRemoved (h i : Nat) (t : Fin 2) (p p' : Ptr α w) (up : Bool) : Prop where
  wf : WellFormed h p'
  isNull : p'.isNull = p.isNull
  lookup : ∀ j, lookupDown j h p' = lookupDown j h p
  tag : ∀ t' j bit, tagAt t' j h p' (if t' = t ∧ up then false else bit) =
    if t' = t ∧ j % 2 ^ (w * h) = i % 2 ^ (w * h) then false else tagAt t' j h p bit
  tagOk : ∀ t' bit, TagOk t' h p bit → TagOk t' h p' (if t' = t ∧ up then false else bit)

theorem tagClearDown_spec {h i : Nat} {t : Fin 2} {p : Ptr α w} (hwf : WellFormed h p)
    (hfound : lookupDown i h p ≠ none) :
    TagRemoved h i t p (tagClearDown i t h p).1 (tagClearDown i t h p).2 := by
  induction h generalizing p with
  | zero =>
    cases p with
    | null => exact absurd rfl hfound
    | node => exact hwf.elim
    | item x =>
      refine ⟨hwf, rfl, fun _ => rfl, fun t' j bit => ?_, fun _ _ _ _ => rfl⟩
      simp [tagAt, tagClearDown, Nat.mod_one]
  | succ h ih =>
    cases p with
    | null => exact absurd rfl hfound
    | item x => exact absurd rfl hfound
    | node height count slots tags =>
      have ⟨_, hcount, hslots, htags⟩ := hwf
      have hrem := ih (hslots (offset w h i)) hfound
      unfold tagClearDown
      dsimp only
      generalize tagClearDown i t h (slots (offset w h i)) = r at hrem ⊢
      obtain ⟨child, up⟩ := r
      dsimp only at hrem ⊢
      have hlookup (tags' : Fin 2 → Fin (2 ^ w) → Bool) (j : Nat) :
          lookupDown j (h + 1) (.node height count
            (Function.update slots (offset w h i) child) tags') =
            lookupDown j (h + 1) (.node height count slots tags) := by
        rw [lookupDown_update, lookupDown_node]
        split
        · rename_i heq
          rw [hrem.lookup, heq]
        · rfl
      have hcount' : count = inUse (Function.update slots (offset w h i) child) := by
        rw [inUse_update_same hrem.isNull]
        exact hcount
      by_cases hup : up = true ∧ tags t (offset w h i) = true
      · -- the bit of the slot is cleared; the climb goes on if it was the last one
        rw [if_pos (by simpa using hup)]
        obtain ⟨rfl, hbit⟩ := hup
        refine ⟨hwf.write hcount' hrem.wf (fun t' => ?_) fun t' r hr => ?_, rfl, hlookup _,
          fun t' j bit => ?_, fun t' bit hok => ?_⟩
        · have hok := hrem.tagOk t' _ (htags t' (offset w h i))
          rw [tags_update]
          simpa using hok
        · rw [tags_update, if_neg fun hand => hr hand.2]
        · rw [tagAt_update, tagAt_node, tags_update, tags_update]
          by_cases hoff : offset w h j = offset w h i
          · have hchild := hrem.tag t' j (tags t' (offset w h i))
            simpa [mod_iff, hoff] using hchild
          · simp [mod_iff, hoff]
        change bit = decide _ at hok
        generalize hq : Ptr.node height count (Function.update slots (offset w h i) child)
          (Function.update tags t (Function.update (tags t) (offset w h i) false)) = q
        change (if t' = t ∧ (!q.anyTagSet t) = true then false else bit) = q.anyTagSet t'
        by_cases ht : t' = t
        · subst ht
          have hset : bit = true := by
            rw [hok, decide_eq_true_iff]
            exact ⟨_, hbit⟩
          cases hany : q.anyTagSet t' <;> simp [hset]
        · rw [if_neg fun hand => ht hand.1, hok, ← hq]
          refine decide_eq_decide.2 (exists_congr fun r => ?_)
          rw [tags_update, if_neg fun hand => ht hand.1]
      rw [if_neg (by simpa using hup)]
      have hsame (t' : Fin 2) : (if t' = t ∧ up then false else tags t' (offset w h i)) =
          tags t' (offset w h i) := by
        split
        · rename_i hand
          obtain ⟨rfl, hand⟩ := hand
          have hclear := not_and.1 hup hand
          simpa using hclear
        · rfl
      refine ⟨hwf.write hcount' hrem.wf (fun t' => ?_) fun _ _ _ => rfl, rfl, hlookup _,
        fun t' j bit => ?_, fun t' bit hok => ?_⟩
      · have hok := hrem.tagOk t' _ (htags t' (offset w h i))
        rwa [hsame] at hok
      · rw [tagAt_update, tagAt_node]
        by_cases hoff : offset w h j = offset w h i
        · have hchild := hrem.tag t' j (tags t' (offset w h i))
          rw [hsame] at hchild
          simpa [mod_iff, hoff] using hchild
        · simp [mod_iff, hoff]
      · simpa [TagOk, Ptr.anyTagSet] using hok

/-! ## Deletion -/

theorem tagOk_null {h : Nat} {t : Fin 2} {bit : Bool} :
    TagOk t h (.null : Ptr α w) bit ↔ bit = false := by
  cases h with
  | zero => cases bit <;> simp [TagOk, Ptr.isNull]
  | succ h => rfl

theorem wellFormed_null (h : Nat) : WellFormed h (.null : Ptr α w) := by
  cases h <;> trivial

/-- A zeroed node stays so when it is handed back. -/
theorem Zeroed.nodeRcuFree {p : Ptr α w} (h : Zeroed p) : Zeroed (nodeRcuFree p) := by
  obtain ⟨height, rfl⟩ := h
  refine ⟨height, ?_⟩
  unfold RadixTree.nodeRcuFree
  simp only [Ptr.node.injEq, true_and]
  refine ⟨Function.update_eq_self slot0 _, ?_⟩
  funext t
  exact Function.update_eq_self slot0 _

theorem Slab.Clean.nodeFree {m : Slab α w} (hm : m.Clean) {p : Ptr α w}
    (hp : Zeroed (nodeRcuFree p)) : (nodeFree m p).Clean := by
  intro q hq
  rcases List.mem_cons.1 hq with rfl | hq
  · exact hp
  · exact hm q hq

/-- What the climb of a deletion leaves in a slot that is no longer in use. -/
structure Unused (h i : Nat) (p q : Ptr α w) (bit : Fin 2 → Bool) : Prop where
  zeroed : 0 < h → Zeroed q
  clear : ∀ t, bit t = false
  others : ∀ j, j % 2 ^ (w * h) ≠ i % 2 ^ (w * h) → lookupDown j h p = none

/-- What it leaves in a slot that is. -/
structure Kept (h i : Nat) (p q : Ptr α w) : Prop where
  wf : WellFormed h q
  inUse : q.isNull = false
  lookup : ∀ j, lookupDown j h q =
    if j % 2 ^ (w * h) = i % 2 ^ (w * h) then none else lookupDown j h p
  tag : ∀ t j bit, tagAt t j h q bit = tagAt t j h p bit
  tagOk : ∀ t bit, TagOk t h p bit → TagOk t h q bit

theorem removeUp_spec {h i : Nat} {p : Ptr α w} {m : Slab α w} {bit : Fin 2 → Bool}
    (hwf : WellFormed h p) (hfound : lookupDown i h p ≠ none) (hm : m.Clean)
    (hok : ∀ t, TagOk t h p (bit t)) (hclear : ∀ t, tagAt t i h p (bit t) = false) :
    (removeUp i h p m).2.Clean ∧
      match (removeUp i h p m).1 with
      | .unused q => Unused h i p q bit
      | .kept q _ => Kept h i p q := by
  induction h generalizing p m bit with
  | zero =>
    have hall (j : Nat) : j % 2 ^ (w * 0) = i % 2 ^ (w * 0) := by simp [Nat.mod_one]
    cases p with
    | null => exact absurd rfl hfound
    | node => exact hwf.elim
    | item x => exact ⟨hm, nofun, hclear, fun j hj => absurd (hall j) hj⟩
  | succ h ih =>
    cases p with
    | null => exact absurd rfl hfound
    | item x => exact absurd rfl hfound
    | node height count slots tags =>
      have ⟨_, hcount, hslots, htags⟩ := hwf
      rw [lookupDown_node] at hfound
      obtain ⟨hclean, hchild⟩ := ih (hslots (offset w h i)) hfound hm
        (fun t => htags t (offset w h i)) hclear
      have hin : (slots (offset w h i)).isNull = false := by
        cases hnull : (slots (offset w h i)).isNull with
        | false => rfl
        | true =>
          rw [isNull_iff] at hnull
          rw [hnull, lookupDown_null] at hfound
          exact absurd rfl hfound
      unfold removeUp
      dsimp only
      generalize removeUp i h (slots (offset w h i)) m = r at hclean hchild ⊢
      obtain ⟨removal, m₁⟩ := r
      cases removal with
      | kept child here =>
        dsimp only at hclean hchild ⊢
        refine ⟨hclean, ?_, rfl, fun j => ?_, fun t j b => ?_, fun t b hb => hb⟩
        · refine hwf.write ?_ hchild.wf (fun t => hchild.tagOk t _ (htags t _))
            fun _ _ _ => rfl
          rw [inUse_update_same (hchild.inUse.trans hin.symm)]
          exact hcount
        · rw [lookupDown_update, lookupDown_node]
          by_cases hoff : offset w h j = offset w h i
          · simp [mod_iff, hoff, hchild.lookup j]
          · simp [mod_iff, hoff]
        · rw [tagAt_update, tagAt_node]
          split
          · rename_i heq
            rw [hchild.tag, heq]
          · rfl
      | unused child =>
        dsimp only at hclean hchild ⊢
        have hcount' : count - 1 = inUse (Function.update slots (offset w h i) .null) := by
          have := inUse_update_null hin
          omega
        have hwf' : WellFormed (h + 1) (.node height (count - 1)
            (Function.update slots (offset w h i) .null) tags) :=
          hwf.write hcount' (wellFormed_null h) (fun t => tagOk_null.2 (hchild.clear t))
            fun _ _ _ => rfl
        have hclean' : (if h = 0 then m₁ else nodeFree m₁ child).Clean := by
          split
          · exact hclean
          · exact hclean.nodeFree (hchild.zeroed (by omega)).nodeRcuFree
        have hlookup (j : Nat) : lookupDown j (h + 1) (.node height (count - 1)
            (Function.update slots (offset w h i) .null) tags) =
            if j % 2 ^ (w * (h + 1)) = i % 2 ^ (w * (h + 1)) then none
            else lookupDown j (h + 1) (.node height count slots tags) := by
          rw [lookupDown_update, lookupDown_node]
          by_cases hoff : offset w h j = offset w h i
          · by_cases hj : j % 2 ^ (w * h) = i % 2 ^ (w * h)
            · simp [mod_iff, hoff, hj]
            · simp [mod_iff, hoff, hj, hchild.others j hj]
          · simp [mod_iff, hoff]
        by_cases hzero : count - 1 = 0
        · rw [if_pos hzero]
          have hnull := inUse_eq_zero (hcount'.symm.trans hzero)
          have hfalse (t : Fin 2) (r : Fin (2 ^ w)) : tags t r = false := by
            have htag := hwf'.2.2.2 t r
            rw [hnull] at htag
            exact tagOk_null.1 htag
          refine ⟨hclean', fun _ => ⟨height, ?_⟩, fun t => ?_, fun j hj => ?_⟩
          · rw [hnull, hzero]
            congr
            funext t r
            exact hfalse t r
          · have hbit : bit t = decide (∃ r, tags t r = true) := hok t
            rw [hbit, decide_eq_false_iff_not]
            rintro ⟨r, hr⟩
            rw [hfalse] at hr
            cases hr
          · have hj' := hlookup j
            rw [if_neg hj, hnull, lookupDown_node, lookupDown_null] at hj'
            exact hj'.symm
        rw [if_neg hzero]
        refine ⟨hclean', hwf', rfl, hlookup, fun t j b => ?_, fun t b hb => hb⟩
        rw [tagAt_update, tagAt_node]
        split
        · rename_i heq
          -- there was no tag below the slot
          have hleft : tagAt t j h (.null : Ptr α w) (tags t (offset w h i)) = false := by
            rw [hchild.clear t]
            cases h <;> rfl
          rw [hleft, heq]
          by_cases hj : j % 2 ^ (w * h) = i % 2 ^ (w * h)
          · rw [tagAt_congr hj]
            exact (hclear t).symm
          · exact (tagAt_eq_false (hslots _) (htags t _) (hchild.others j hj)).symm
        · rfl

end AndroidKernel.RadixTree
