import AndroidKernel.Idr.Model

/-!
# Trees of layers

Which ids are in use in a tree of layers (`used`), what is stored for them (`value`), and when
its counts and its bits for full layers are right (`WellFormed`). A place in a tree is a path
that follows the digits of an id (`Shape`); what is seen and changed there is seen and changed
for the ids that share these digits.
-/

namespace AndroidKernel.Idr

open Library

universe u

variable {α : Type u}

/-- Whether an id is in use below a layer of level `l`. -/
def used : Nat → Ptr α → Nat → Bool
  | 0, .layer bitmap _ _ _, id => bitmap (slot 0 id)
  | l + 1, .layer _ ary _ _, id => used l (ary (slot (l + 1) id)) id
  | _, _, _ => false

/-- What is stored for an id below a layer of level `l`. -/
def value : Nat → Ptr α → Nat → Ptr α
  | 0, .layer _ ary _ _, id => ary (slot 0 id)
  | l + 1, .layer _ ary _ _, id => value l (ary (slot (l + 1) id)) id
  | _, _, _ => .null

/-- A layer whose bits are all set. -/
def Ptr.full : Ptr α → Bool
  | .layer bitmap _ _ _ => isFull bitmap
  | _ => false

/-- The number of bits set. -/
def setBits (bitmap : Bitmap) : Nat :=
  ((Finset.range idrSize).filter fun n => bitmap n = true).card

/-- The number of children. -/
def children (ary : Nat → Ptr α) : Nat :=
  ((Finset.range idrSize).filter fun n => (ary n).isNull = false).card

/-- A layer of level `l`: its count is right, a leaf holds pointers of callers where its bits are
set, and above the leaves a bit is set exactly where the layer below is full. -/
def WellFormed : Nat → Ptr α → Prop
  | 0, .layer bitmap ary count level =>
    level = 0 ∧ count = setBits bitmap ∧
      ∀ n, n < idrSize → (bitmap n = false → ary n = .null) ∧ ∃ x, ary n = .ofUser x
  | l + 1, .layer bitmap ary count level =>
    level = l + 1 ∧ count = children ary ∧
      ∀ n, n < idrSize → (ary n = .null ∨ WellFormed l (ary n)) ∧ bitmap n = (ary n).full
  | _, _ => False

theorem slot_lt (l id : Nat) : slot l id < idrSize :=
  digit_lt idrBits l id

theorem isNull_iff {p : Ptr α} : p.isNull = true ↔ p = .null := by
  cases p <;> simp [Ptr.isNull]

@[simp] theorem used_null (l id : Nat) : used l (.null : Ptr α) id = false := by
  cases l <;> rfl

@[simp] theorem value_null (l id : Nat) : value l (.null : Ptr α) id = .null := by
  cases l <;> rfl

theorem used_layer (l count level : Nat) (bitmap : Bitmap) (ary : Nat → Ptr α) (j : Nat) :
    used (l + 1) (.layer bitmap ary count level) j = used l (ary (slot (l + 1) j)) j := rfl

theorem value_layer (l count level : Nat) (bitmap : Bitmap) (ary : Nat → Ptr α) (j : Nat) :
    value (l + 1) (.layer bitmap ary count level) j = value l (ary (slot (l + 1) j)) j := rfl

/-- A well-formed tree has a layer at its top. -/
theorem WellFormed.exists_layer {l : Nat} {p : Ptr α} (h : WellFormed l p) :
    ∃ bitmap ary count, p = .layer bitmap ary count l := by
  cases l with
  | zero =>
    cases p with
    | null => exact h.elim
    | user x => exact h.elim
    | layer bitmap ary count level =>
      obtain ⟨rfl, -⟩ := h
      exact ⟨bitmap, ary, count, rfl⟩
  | succ l =>
    cases p with
    | null => exact h.elim
    | user x => exact h.elim
    | layer bitmap ary count level =>
      obtain ⟨rfl, -⟩ := h
      exact ⟨bitmap, ary, count, rfl⟩

/-- What is seen of an id below level `l` depends on its low digits only. -/
theorem used_congr {l i j : Nat} (h : i % 2 ^ (idrBits * (l + 1)) = j % 2 ^ (idrBits * (l + 1)))
    (p : Ptr α) : used l p i = used l p j ∧ value l p i = value l p j := by
  induction l generalizing p with
  | zero =>
    obtain ⟨hdigit, -⟩ := mod_succ_inj.1 h
    cases p with
    | null => exact ⟨rfl, rfl⟩
    | user x => exact ⟨rfl, rfl⟩
    | layer bitmap ary count level =>
      unfold used value slot
      rw [hdigit]
      exact ⟨rfl, rfl⟩
  | succ l ih =>
    obtain ⟨hdigit, hlow⟩ := mod_succ_inj.1 h
    cases p with
    | null => exact ⟨rfl, rfl⟩
    | user x => exact ⟨rfl, rfl⟩
    | layer bitmap ary count level =>
      have hslot : slot (l + 1) i = slot (l + 1) j := hdigit
      change used l (ary (slot (l + 1) i)) i = used l (ary (slot (l + 1) j)) j ∧
        value l (ary (slot (l + 1) i)) i = value l (ary (slot (l + 1) j)) j
      rw [hslot]
      exact ih hlow _

/-- Every id below a full layer is in use. -/
theorem WellFormed.used_of_full {l : Nat} {p : Ptr α} (h : WellFormed l p) (hfull : p.full = true)
    (id : Nat) : used l p id = true := by
  induction l generalizing p with
  | zero =>
    obtain ⟨bitmap, ary, count, rfl⟩ := h.exists_layer
    simp only [Ptr.full, isFull, decide_eq_true_iff] at hfull
    exact hfull _ (slot_lt 0 id)
  | succ l ih =>
    obtain ⟨bitmap, ary, count, rfl⟩ := h.exists_layer
    simp only [Ptr.full, isFull, decide_eq_true_iff] at hfull
    obtain ⟨-, -, hchildren⟩ := h
    obtain ⟨hchild, hbit⟩ := hchildren _ (slot_lt (l + 1) id)
    rw [hfull _ (slot_lt (l + 1) id)] at hbit
    rcases hchild with hnull | hchild
    · rw [hnull] at hbit
      cases hbit
    · exact ih hchild hbit.symm

/-- What is not in use has nothing stored. -/
theorem WellFormed.value_of_not_used {l id : Nat} {p : Ptr α} (h : WellFormed l p)
    (hused : used l p id = false) : value l p id = .null := by
  induction l generalizing p with
  | zero =>
    obtain ⟨bitmap, ary, count, rfl⟩ := h.exists_layer
    exact (h.2.2 _ (slot_lt 0 id)).1 hused
  | succ l ih =>
    obtain ⟨bitmap, ary, count, rfl⟩ := h.exists_layer
    rcases (h.2.2 _ (slot_lt (l + 1) id)).1 with hnull | hchild
    · change value l (ary (slot (l + 1) id)) id = .null
      rw [hnull, value_null]
    · exact ih hchild hused

/-- `idr_find` reads the stored pointer. -/
theorem WellFormed.findDown {l : Nat} {p : Ptr α} (h : WellFormed l p) (id : Nat) :
    findDown id (l + 1) p = some (value l p id) := by
  induction l generalizing p with
  | zero =>
    obtain ⟨bitmap, ary, count, rfl⟩ := h.exists_layer
    simp [Idr.findDown, value]
  | succ l ih =>
    obtain ⟨bitmap, ary, count, rfl⟩ := h.exists_layer
    unfold Idr.findDown
    rw [if_pos rfl]
    rcases (h.2.2 _ (slot_lt (l + 1) id)).1 with hnull | hchild
    · change Idr.findDown id (l + 1) (ary (slot (l + 1) id)) =
        some (value l (ary (slot (l + 1) id)) id)
      rw [hnull, value_null]
      rfl
    · exact ih hchild

/-! ## Places in a tree -/

/-- The path leads from a layer of level `l` up to one of level `L` as the digits of `id` say. -/
def Shape (id L : Nat) : Nat → List (Frame α) → Prop
  | l, [] => l = L
  | l, f :: path => f.slot = slot (l + 1) id ∧ Shape id L (l + 1) path

theorem Shape.le {id L l : Nat} {path : List (Frame α)} (h : Shape id L l path) : l ≤ L := by
  induction path generalizing l with
  | nil => exact Nat.le_of_eq h
  | cons f path ih =>
    have := ih h.2
    omega

/-- A path does not see the digits below it. -/
theorem Shape.congr {i j L l : Nat} {path : List (Frame α)} (h : Shape i L l path)
    (heq : j / 2 ^ (idrBits * (l + 1)) = i / 2 ^ (idrBits * (l + 1))) : Shape j L l path := by
  induction path generalizing l with
  | nil => exact h
  | cons f path ih =>
    obtain ⟨hslot, hpath⟩ := h
    obtain ⟨hhigh, hdigit⟩ := div_eq_iff.1 heq
    exact ⟨hslot.trans hdigit.symm, ih hpath hhigh⟩

/-- At the end of a path, the ids with its digits are seen in the layer there. -/
theorem Shape.used_plug {id L l j : Nat} {path : List (Frame α)} (h : Shape id L l path)
    (p : Ptr α) (heq : j / 2 ^ (idrBits * (l + 1)) = id / 2 ^ (idrBits * (l + 1))) :
    used L (plug path p) j = used l p j ∧ value L (plug path p) j = value l p j := by
  induction path generalizing l p with
  | nil =>
    obtain rfl : l = L := h
    exact ⟨rfl, rfl⟩
  | cons f path ih =>
    obtain ⟨hslot, hpath⟩ := h
    obtain ⟨hhigh, hdigit⟩ := div_eq_iff.1 heq
    have hsame : Function.update f.ary f.slot p (slot (l + 1) j) = p := by
      rw [hslot, slot, slot, hdigit, Function.update_self]
    obtain ⟨hused, hvalue⟩ := ih hpath (f.plug p) hhigh
    refine ⟨hused.trans ?_, hvalue.trans ?_⟩
    · change used l (Function.update f.ary f.slot p (slot (l + 1) j)) j = used l p j
      rw [hsame]
    · change value l (Function.update f.ary f.slot p (slot (l + 1) j)) j = value l p j
      rw [hsame]

/-- Other ids are not. -/
theorem Shape.used_plug_of_ne {id L l j : Nat} {path : List (Frame α)} (h : Shape id L l path)
    (p q : Ptr α) (hL : j / 2 ^ (idrBits * (L + 1)) = id / 2 ^ (idrBits * (L + 1)))
    (hne : j / 2 ^ (idrBits * (l + 1)) ≠ id / 2 ^ (idrBits * (l + 1))) :
    used L (plug path p) j = used L (plug path q) j ∧
      value L (plug path p) j = value L (plug path q) j := by
  induction path generalizing l p q with
  | nil =>
    obtain rfl : l = L := h
    exact absurd hL hne
  | cons f path ih =>
    obtain ⟨hslot, hpath⟩ := h
    by_cases hhigh : j / 2 ^ (idrBits * (l + 1 + 1)) = id / 2 ^ (idrBits * (l + 1 + 1))
    · have hdigit : slot (l + 1) j ≠ f.slot := fun heq =>
        hne (div_eq_iff.2 ⟨hhigh, heq.trans hslot⟩)
      have hsame (r : Ptr α) : Function.update f.ary f.slot r (slot (l + 1) j) =
          f.ary (slot (l + 1) j) := Function.update_of_ne hdigit _ _
      have hp := hpath.used_plug (f.plug p) hhigh
      have hq := hpath.used_plug (f.plug q) hhigh
      refine ⟨hp.1.trans (Eq.trans ?_ hq.1.symm), hp.2.trans (Eq.trans ?_ hq.2.symm)⟩
      · change used l (Function.update f.ary f.slot p (slot (l + 1) j)) j =
          used l (Function.update f.ary f.slot q (slot (l + 1) j)) j
        rw [hsame, hsame]
      · change value l (Function.update f.ary f.slot p (slot (l + 1) j)) j =
          value l (Function.update f.ary f.slot q (slot (l + 1) j)) j
        rw [hsame, hsame]
    · exact ih hpath (f.plug p) (f.plug q) hhigh

/-! ## Counts -/

theorem filter_children_update (ary : Nat → Ptr α) {n : Nat} (hn : n < idrSize) (p : Ptr α) :
    ((Finset.range idrSize).filter fun k => (Function.update ary n p k).isNull = false) =
      if p.isNull then ((Finset.range idrSize).filter fun k => (ary k).isNull = false).erase n
      else insert n ((Finset.range idrSize).filter fun k => (ary k).isNull = false) := by
  ext k
  by_cases hk : k = n
  · subst hk
    cases hp : p.isNull <;> simp [hp, hn]
  · cases hp : p.isNull <;> simp [hk]

theorem children_update_same {ary : Nat → Ptr α} {n : Nat} (hn : n < idrSize) {p : Ptr α}
    (h : p.isNull = (ary n).isNull) : children (Function.update ary n p) = children ary := by
  unfold children
  rw [filter_children_update ary hn, h]
  cases hs : (ary n).isNull with
  | true => rw [if_pos rfl, Finset.erase_eq_of_notMem (by simp [hs])]
  | false => rw [if_neg Bool.false_ne_true, Finset.insert_eq_of_mem (by simp [hs, hn])]

theorem children_update_set {ary : Nat → Ptr α} {n : Nat} (hn : n < idrSize) {p : Ptr α}
    (hs : (ary n).isNull = true) (hp : p.isNull = false) :
    children (Function.update ary n p) = children ary + 1 := by
  unfold children
  rw [filter_children_update ary hn, hp, if_neg Bool.false_ne_true,
    Finset.card_insert_of_notMem (by simp [hs])]

theorem children_update_null {ary : Nat → Ptr α} {n : Nat} (hn : n < idrSize)
    (hs : (ary n).isNull = false) : children (Function.update ary n .null) + 1 = children ary := by
  unfold children
  rw [filter_children_update ary hn, show (Ptr.null : Ptr α).isNull = true from rfl, if_pos rfl]
  exact Finset.card_erase_add_one (by simp [hs, hn])

theorem children_eq_zero {ary : Nat → Ptr α} (h : children ary = 0) {n : Nat} (hn : n < idrSize) :
    ary n = .null := by
  unfold children at h
  rw [Finset.card_eq_zero, Finset.filter_eq_empty_iff] at h
  have hs := h (Finset.mem_range.2 hn)
  rw [Bool.not_eq_false] at hs
  exact isNull_iff.1 hs

theorem setBits_set {bitmap : Bitmap} {n : Nat} (hn : n < idrSize) (hclear : bitmap n = false) :
    setBits (Function.update bitmap n true) = setBits bitmap + 1 := by
  unfold setBits
  have heq : ((Finset.range idrSize).filter fun k => Function.update bitmap n true k = true) =
      insert n ((Finset.range idrSize).filter fun k => bitmap k = true) := by
    ext k
    by_cases hk : k = n
    · simp [hk, hn]
    · simp [hk]
  rw [heq, Finset.card_insert_of_notMem (by simp [hclear])]

theorem setBits_clear {bitmap : Bitmap} {n : Nat} (hn : n < idrSize) (hset : bitmap n = true) :
    setBits (Function.update bitmap n false) + 1 = setBits bitmap := by
  unfold setBits
  have heq : ((Finset.range idrSize).filter fun k => Function.update bitmap n false k = true) =
      ((Finset.range idrSize).filter fun k => bitmap k = true).erase n := by
    ext k
    by_cases hk : k = n
    · simp [hk]
    · simp [hk]
  rw [heq]
  exact Finset.card_erase_add_one (by simp [hset, hn])

theorem setBits_eq_zero {bitmap : Bitmap} (h : setBits bitmap = 0) {n : Nat} (hn : n < idrSize) :
    bitmap n = false := by
  unfold setBits at h
  rw [Finset.card_eq_zero, Finset.filter_eq_empty_iff] at h
  simpa using h (Finset.mem_range.2 hn)

/-! ## Changes at a place -/

/-- A layer above the leaves with one child and its bit written. -/
theorem WellFormed.write {l n count count' level : Nat} {bitmap bitmap' : Bitmap}
    {ary : Nat → Ptr α} {p : Ptr α} (h : WellFormed (l + 1) (.layer bitmap ary count level))
    (hcount : count' = children (Function.update ary n p)) (hp : p = .null ∨ WellFormed l p)
    (hbit : bitmap' n = p.full) (hrest : ∀ k, k ≠ n → bitmap' k = bitmap k) :
    WellFormed (l + 1) (.layer bitmap' (Function.update ary n p) count' level) := by
  obtain ⟨hlevel, -, hchildren⟩ := h
  refine ⟨hlevel, hcount, fun k hk => ?_⟩
  by_cases heq : k = n
  · subst heq
    rw [Function.update_self]
    exact ⟨hp, hbit⟩
  · rw [Function.update_of_ne heq, hrest k heq]
    exact hchildren k hk

theorem WellFormed.isNull {l : Nat} {p : Ptr α} (h : WellFormed l p) : p.isNull = false := by
  obtain ⟨bitmap, ary, count, rfl⟩ := h.exists_layer
  rfl

/-- The layer at the end of a path. -/
theorem Shape.wellFormed {id L l : Nat} {path : List (Frame α)} {p : Ptr α}
    (h : Shape id L l path) (hwf : WellFormed L (plug path p)) (hp : p.isNull = false) :
    WellFormed l p := by
  induction path generalizing l p with
  | nil =>
    obtain rfl : l = L := h
    exact hwf
  | cons f path ih =>
    obtain ⟨hslot, hpath⟩ := h
    have hparent : WellFormed (l + 1) (f.plug p) := ih hpath hwf rfl
    obtain ⟨-, -, hchildren⟩ := hparent
    have hlt : f.slot < idrSize := hslot ▸ slot_lt (l + 1) id
    have hchild := (hchildren f.slot hlt).1
    rw [Function.update_self] at hchild
    rcases hchild with rfl | hchild
    · cases hp
    · exact hchild

/-- Another layer at the end of a path, full if the old one was. -/
theorem Shape.replace {id L l : Nat} {path : List (Frame α)} {p q : Ptr α}
    (h : Shape id L l path) (hwf : WellFormed L (plug path p)) (hp : p.isNull = false)
    (hq : WellFormed l q) (hfull : q.full = p.full) : WellFormed L (plug path q) := by
  induction path generalizing l p q with
  | nil =>
    obtain rfl : l = L := h
    exact hq
  | cons f path ih =>
    obtain ⟨hslot, hpath⟩ := h
    have hlt : f.slot < idrSize := hslot ▸ slot_lt (l + 1) id
    have hparent : WellFormed (l + 1) (f.plug p) := hpath.wellFormed hwf rfl
    refine ih hpath hwf rfl ?_ rfl
    have hbit := (hparent.2.2 f.slot hlt).2
    rw [Function.update_self] at hbit
    have hcount : f.count =
        children (Function.update (Function.update f.ary f.slot p) f.slot q) := by
      refine hparent.2.1.trans (children_update_same hlt ?_).symm
      rw [Function.update_self, hq.isNull, hp]
    have hwrite : WellFormed (l + 1) (.layer f.bitmap
        (Function.update (Function.update f.ary f.slot p) f.slot q) f.count f.level) :=
      hparent.write hcount (.inr hq) (hbit.trans hfull.symm) fun _ _ => rfl
    rwa [Function.update_idem] at hwrite

end AndroidKernel.Idr
