import AndroidKernel.RadixTree.Nodes

/-!
# The tree and the map it stands for

`Represents bits root M`: the tree under `root` is well formed and holds the items and tags of
`M`. Each operation on the root is one on the map.
-/

namespace AndroidKernel.RadixTree

open Library

universe u

variable {α : Type u} {w bits : Nat}

/-- A map from indices to items that carry tags. -/
structure TaggedMap (α : Type u) where
  item : Nat → Option α
  tag : Fin 2 → Nat → Bool

/-- `RADIX_TREE_MAX_PATH`. -/
def maxPath (w bits : Nat) : Nat :=
  (bits + w - 1) / w

/-- The tree holds the items and tags of `M`. -/
structure Represents (bits : Nat) (root : RadixTreeRoot α w) (M : TaggedMap α) : Prop where
  wf : WellFormed root.height root.rnode
  tagOk : ∀ t, TagOk t root.height root.rnode (root.tags t)
  height : root.height ≤ maxPath w bits
  item : ∀ i, M.item i =
    if i < 2 ^ (w * root.height) then lookupDown i root.height root.rnode else none
  tag : ∀ t i, M.tag t i =
    if i < 2 ^ (w * root.height) then tagAt t i root.height root.rnode (root.tags t) else false

/-! ## Heights -/

theorem maxindex_lt_iff {height index : Nat} (hi : index < 2 ^ bits) :
    maxindex w bits height < index ↔ 2 ^ (w * height) ≤ index := by
  unfold maxindex
  dsimp only
  rw [Nat.mul_comm height w]
  split
  · rename_i hlt
    have hpow : 2 ^ bits ≤ 2 ^ (w * height) := Nat.pow_le_pow_right (by omega) (by omega)
    constructor <;> intro <;> omega
  rename_i hle
  split
  · rename_i hzero
    have hw : w * height = 0 ∨ bits = 0 := by omega
    rcases hw with hw | hb
    · rw [hw]
      omega
    · subst hb
      have hpow := Nat.two_pow_pos (w * height)
      omega
  have hsplit : 2 ^ bits = 2 ^ (bits - w * height) * 2 ^ (w * height) := by
    rw [← Nat.pow_add]
    congr 1
    omega
  have hdiv : (2 ^ bits - 1) / 2 ^ (bits - w * height) = 2 ^ (w * height) - 1 := by
    have hpos := Nat.two_pow_pos (bits - w * height)
    have hpos' := Nat.two_pow_pos (w * height)
    have hsub := Nat.mul_sub_div 0 (2 ^ (bits - w * height)) (2 ^ (w * height))
      (Nat.mul_pos hpos hpos')
    rwa [Nat.zero_div, Nat.zero_add, ← hsplit] at hsub
  rw [hdiv]
  have hpos' := Nat.two_pow_pos (w * height)
  omega

/-- The height that `radix_tree_extend` looks for is the least that is enough. -/
theorem findHeight_spec {index : Nat} (fuel height : Nat) (hw : 0 < w) (hi : index < 2 ^ bits)
    (hfuel : bits ≤ fuel + height) (hlow : 2 ^ (w * (height - 1)) ≤ index) (hpos : 0 < height) :
    height ≤ findHeight w bits index fuel height ∧
      index < 2 ^ (w * findHeight w bits index fuel height) ∧
      findHeight w bits index fuel height ≤ maxPath w bits := by
  have hmax {n : Nat} (hn : 0 < n) (hle : 2 ^ (w * (n - 1)) ≤ index) : n ≤ maxPath w bits := by
    have hlt : w * (n - 1) < bits :=
      (Nat.pow_lt_pow_iff_right (by omega)).1 (Nat.lt_of_le_of_lt hle hi)
    unfold maxPath
    rw [Nat.le_div_iff_mul_le hw]
    obtain ⟨k, rfl⟩ := Nat.exists_eq_succ_of_ne_zero (Nat.ne_of_gt hn)
    rw [Nat.succ_eq_add_one, Nat.add_sub_cancel] at hlt
    rw [Nat.succ_mul, Nat.mul_comm]
    omega
  induction fuel generalizing height with
  | zero =>
    refine ⟨Nat.le_refl _, Nat.lt_of_lt_of_le hi (Nat.pow_le_pow_right (by omega) ?_), hmax hpos hlow⟩
    exact Nat.le_trans (by omega) (Nat.le_mul_of_pos_left height hw)
  | succ fuel ih =>
    unfold findHeight
    split
    · rename_i hlt
      rw [maxindex_lt_iff hi] at hlt
      obtain ⟨hge, hrest⟩ := ih (height + 1) (by omega) (by simpa using hlt) (by omega)
      exact ⟨by omega, hrest⟩
    · rename_i hle
      rw [maxindex_lt_iff hi] at hle
      exact ⟨Nat.le_refl _, by omega, hmax hpos hlow⟩

/-! ## Growing -/

theorem offset_zero (h : Nat) : offset w h 0 = slot0 := by
  simp [offset, slot0, digit]

/-- The indices that go through the first slot of a node are those of the level below. -/
theorem offset_eq_slot0_iff {h i : Nat} (hi : i < 2 ^ (w * (h + 1))) :
    offset w h i = offset w h 0 ↔ i < 2 ^ (w * h) := by
  rw [offset_inj, digit_eq_zero (Nat.two_pow_pos _)]
  exact ⟨lt_of_digit_eq_zero hi, digit_eq_zero⟩

theorem pow_lt_succ {h i : Nat} (hi : i < 2 ^ (w * h)) : i < 2 ^ (w * (h + 1)) :=
  Nat.lt_of_lt_of_le hi (Nat.pow_le_pow_right (by omega) (Nat.mul_le_mul_left w (by omega)))

/-- A tree and its first slot, where the other slots are empty, hold the same. -/
theorem first_slot_iff (h count : Nat) (p : Ptr α w) (bit : Fin 2 → Bool)
    (slots : Fin (2 ^ w) → Ptr α w) (tags : Fin 2 → Fin (2 ^ w) → Bool)
    (hslots : ∀ s, s ≠ slot0 → slots s = .null) (hbit : ∀ t s, s ≠ slot0 → tags t s = false)
    (hp : slots slot0 = p) (hbits : ∀ t, tags t slot0 = bit t) (i : Nat) :
    (if i < 2 ^ (w * (h + 1)) then lookupDown i (h + 1) (.node (h + 1) count slots tags) else none) =
        (if i < 2 ^ (w * h) then lookupDown i h p else none) ∧
      ∀ t, (if i < 2 ^ (w * (h + 1)) then
          tagAt t i (h + 1) (.node (h + 1) count slots tags) (bit t) else false) =
        if i < 2 ^ (w * h) then tagAt t i h p (bit t) else false := by
  by_cases hlow : i < 2 ^ (w * h)
  · have hoff := (offset_eq_slot0_iff (pow_lt_succ hlow)).2 hlow
    rw [offset_zero] at hoff
    refine ⟨?_, fun t => ?_⟩
    · rw [if_pos (pow_lt_succ hlow), if_pos hlow, lookupDown_node, hoff, hp]
    · rw [if_pos (pow_lt_succ hlow), if_pos hlow, tagAt_node, hoff, hp, hbits]
  refine ⟨?_, fun t => ?_⟩
  · rw [if_neg hlow]
    split
    · rename_i hi
      rw [lookupDown_node, hslots, lookupDown_null]
      rw [← offset_zero h]
      exact fun hoff => hlow ((offset_eq_slot0_iff hi).1 hoff)
    · rfl
  rw [if_neg hlow]
  split
  · rename_i hi
    have hne : offset w h i ≠ slot0 := by
      rw [← offset_zero h]
      exact fun hoff => hlow ((offset_eq_slot0_iff hi).1 hoff)
    rw [tagAt_node, hslots _ hne, hbit t _ hne]
    cases h <;> rfl
  · rfl

/-- A level above the root: a node with the old tree in its first slot. -/
theorem Represents.raise {root : RadixTreeRoot α w} {M : TaggedMap α}
    (h : Represents bits root M) (hnull : root.rnode.isNull = false)
    (hmax : root.height + 1 ≤ maxPath w bits) :
    Represents bits { root with
      rnode := .node (root.height + 1) 1 (Function.update (fun _ => .null) slot0 root.rnode)
        fun t => if root.tags t then Function.update (fun _ => false) slot0 true else fun _ => false
      height := root.height + 1 } M := by
  have htag (t : Fin 2) (s : Fin (2 ^ w)) : (if root.tags t then
      Function.update (fun _ => false) slot0 true else fun _ => false) s =
        (decide (s = slot0) && root.tags t) := by
    by_cases hs : s = slot0
    · cases ht : root.tags t <;> simp [hs]
    · cases ht : root.tags t <;> simp [hs]
  have hiff := first_slot_iff root.height 1 root.rnode root.tags
    (Function.update (fun _ => .null) slot0 root.rnode)
    (fun t => if root.tags t then Function.update (fun _ => false) slot0 true else fun _ => false)
    (fun s hs => by simp [hs]) (fun t s hs => by rw [htag]; simp [hs]) (by simp)
    fun t => by rw [htag]; simp
  refine ⟨?_, fun t => ?_, hmax, fun i => ?_, fun t i => ?_⟩
  · refine (wellFormed_zero root.height).write ?_ h.wf (fun t => ?_) fun t s hs => ?_
    · rw [inUse_update_set rfl hnull, inUse_null]
    · rw [htag, decide_eq_true rfl, Bool.true_and]
      exact h.tagOk t
    · rw [htag]
      simp [hs]
  · change root.tags t = decide _
    cases ht : root.tags t with
    | false => simp [ht]
    | true =>
      rw [eq_comm, decide_eq_true_iff]
      exact ⟨slot0, (htag t slot0).trans (by simp [ht])⟩
  · rw [(hiff i).1]
    exact h.item i
  · rw [(hiff i).2 t]
    exact h.tag t i

theorem extendLoop_spec {n : Nat} {root : RadixTreeRoot α w} {M : TaggedMap α} {m : Slab α w}
    (h : Represents bits root M) (hnull : root.rnode.isNull = false) (hm : m.Clean)
    (hmax : root.height + n ≤ maxPath w bits) :
    Represents bits (extendLoop n root m).1 M ∧ (extendLoop n root m).2.1.Clean ∧
      ((extendLoop n root m).2.2 = true → (extendLoop n root m).1.height = root.height + n) := by
  induction n generalizing root m with
  | zero => exact ⟨h, hm, fun _ => rfl⟩
  | succ n ih =>
    obtain ⟨hzero, hclean⟩ := nodeAlloc_spec hm
    unfold extendLoop
    generalize nodeAlloc m = r at hzero hclean ⊢
    obtain ⟨p, m'⟩ := r
    cases p with
    | none => exact ⟨h, hclean, nofun⟩
    | some p =>
      obtain ⟨height, rfl⟩ := hzero p rfl
      obtain ⟨hrep, hclean', hheight⟩ :=
        ih (h.raise hnull (by omega)) rfl hclean (by dsimp only; omega)
      refine ⟨hrep, hclean', fun hok => (hheight hok).trans ?_⟩
      dsimp only
      omega

/-- `radix_tree_extend` keeps the map, also where memory runs out. -/
theorem extend_spec {index : Nat} {root : RadixTreeRoot α w} {M : TaggedMap α} {m : Slab α w}
    (hw : 0 < w) (hi : index < 2 ^ bits) (h : Represents bits root M) (hm : m.Clean)
    (hgrow : 2 ^ (w * root.height) ≤ index) :
    Represents bits (extend bits root index m).1 M ∧ (extend bits root index m).2.1.Clean ∧
      ((extend bits root index m).2.2 = true →
        index < 2 ^ (w * (extend bits root index m).1.height)) := by
  obtain ⟨hge, hlt, hmax⟩ := findHeight_spec bits (root.height + 1) hw hi (by omega)
    (by simpa using hgrow) (by omega)
  unfold extend
  dsimp only
  generalize findHeight w bits index bits (root.height + 1) = height at hge hlt hmax ⊢
  cases hnull : root.rnode.isNull with
  | false =>
    rw [if_neg Bool.false_ne_true]
    obtain ⟨hrep, hclean, hheight⟩ := extendLoop_spec (n := height - root.height) h hnull hm
      (by omega)
    refine ⟨hrep, hclean, fun hok => ?_⟩
    rw [hheight hok, show root.height + (height - root.height) = height by omega]
    exact hlt
  | true =>
    rw [if_pos rfl]
    rw [isNull_iff] at hnull
    have hclear (t : Fin 2) : root.tags t = false := by
      have hok := h.tagOk t
      rw [hnull] at hok
      exact tagOk_null.1 hok
    obtain ⟨k, rfl⟩ : ∃ k, height = k + 1 := ⟨height - 1, by omega⟩
    refine ⟨⟨?_, fun t => ?_, hmax, fun i => ?_, fun t i => ?_⟩, hm, fun _ => hlt⟩
    · rw [hnull]
      trivial
    · rw [hnull, hclear]
      rfl
    · rw [h.item i, hnull, lookupDown_null, lookupDown_null]
      simp
    · rw [h.tag t i, hnull, hclear]
      have hfalse : tagAt t i root.height (.null : Ptr α w) false = false := by
        cases root.height <;> rfl
      rw [hfalse, tagAt_null]
      simp

/-- The map with an item put at an index, without tags. -/
def TaggedMap.put (M : TaggedMap α) (i : Nat) (item : Option α) : TaggedMap α where
  item := Function.update M.item i item
  tag t := Function.update (M.tag t) i false

/-- Within the range of the tree, indices are told apart. -/
theorem mod_eq_iff {h i j : Nat} (hi : i < 2 ^ (w * h)) (hj : j < 2 ^ (w * h)) :
    j % 2 ^ (w * h) = i % 2 ^ (w * h) ↔ j = i := by
  rw [Nat.mod_eq_of_lt hi, Nat.mod_eq_of_lt hj]

/-- What `radix_tree_insert` reports and leaves: the item is put where there was none, or nothing
changes. -/
structure InsertOk (bits : Nat) (M : TaggedMap α) (index : Nat) (x : α)
    (r : RadixTreeRoot α w × Slab α w × Result) : Prop where
  clean : r.2.1.Clean
  noBug : r.2.2 ≠ .bug
  absent : r.2.2 = .ok → M.item index = none
  present : r.2.2 = .eexist → M.item index ≠ none
  ok : r.2.2 = .ok → Represents bits r.1 (M.put index (some x))
  failed : r.2.2 ≠ .ok → Represents bits r.1 M

theorem insert_spec {index : Nat} {x : α} {root : RadixTreeRoot α w} {M : TaggedMap α}
    {m : Slab α w} (hw : 0 < w) (hi : index < 2 ^ bits) (h : Represents bits root M)
    (hm : m.Clean) : InsertOk bits M index x (insert bits root index x m) := by
  obtain ⟨hrep, hclean, hin⟩ : Represents bits (if maxindex w bits root.height < index then
        extend bits root index m else (root, m, true)).1 M ∧
      (if maxindex w bits root.height < index then extend bits root index m
        else (root, m, true)).2.1.Clean ∧
      ((if maxindex w bits root.height < index then extend bits root index m
        else (root, m, true)).2.2 = true → index < 2 ^ (w * (if maxindex w bits root.height < index
          then extend bits root index m else (root, m, true)).1.height)) := by
    split
    · rename_i hgrow
      exact extend_spec hw hi h hm ((maxindex_lt_iff hi).1 hgrow)
    · rename_i hfit
      exact ⟨h, hm, fun _ => by simpa [maxindex_lt_iff hi] using hfit⟩
  unfold insert
  generalize (if maxindex w bits root.height < index then extend bits root index m
    else (root, m, true)) = r at hrep hclean hin ⊢
  obtain ⟨root, m, extended⟩ := r
  cases extended with
  | false => exact ⟨hclean, nofun, nofun, nofun, nofun, fun _ => hrep⟩
  | true =>
    have hin := hin rfl
    dsimp only at hrep hclean hin ⊢
    obtain ⟨hclean', hins⟩ := insertDown_spec (x := x) (i := index) hrep.wf hclean
    rw [if_pos rfl]
    generalize insertDown index x root.height root.rnode m = r at hclean' hins ⊢
    obtain ⟨rnode, m', result⟩ := r
    dsimp only at hclean' hins ⊢
    have hitem : M.item index = lookupDown index root.height root.rnode := by
      rw [hrep.item, if_pos hin]
    have hnoBug : ¬ (root.height = 0 ∧ result = .ok ∧ (root.tags 0 ∨ root.tags 1)) := by
      rintro ⟨hzero, hok, hset⟩
      have hclear (t : Fin 2) : root.tags t = false := by
        have hfalse := tagAt_eq_false hrep.wf (hrep.tagOk t) (hins.absent hok)
        rw [hzero] at hfalse
        exact hfalse
      simp [hclear] at hset
    rw [if_neg hnoBug]
    refine ⟨hclean', hins.noBug, fun hok => hitem.trans (hins.absent hok),
      fun hex => hitem ▸ hins.present hex, fun hok => ?_, fun hne => ?_⟩
    · refine ⟨hins.wf, fun t => hins.tagOk t _ (hrep.tagOk t), hrep.height, fun i => ?_,
        fun t i => ?_⟩
      · dsimp only [TaggedMap.put] at hok ⊢
        by_cases heq : i = index
        · rw [heq, Function.update_self, if_pos hin, hins.lookup, if_pos ⟨hok, rfl⟩]
        · rw [Function.update_of_ne heq, hrep.item i]
          refine ite_congr rfl (fun hlt => ?_) fun _ => rfl
          rw [hins.lookup, if_neg fun hand => heq ((mod_eq_iff hin hlt).1 hand.2)]
      · dsimp only [TaggedMap.put] at hok ⊢
        rw [hins.tag]
        by_cases heq : i = index
        · rw [heq, Function.update_self, if_pos hin]
          exact (tagAt_eq_false hrep.wf (hrep.tagOk t) (hins.absent hok)).symm
        · rw [Function.update_of_ne heq, hrep.tag t i]
    refine ⟨hins.wf, fun t => hins.tagOk t _ (hrep.tagOk t), hrep.height, fun i => ?_,
      fun t i => ?_⟩
    · dsimp only at hne ⊢
      rw [hrep.item i]
      refine ite_congr rfl (fun _ => ?_) fun _ => rfl
      rw [hins.lookup, if_neg fun hand => hne hand.1]
    · dsimp only
      rw [hrep.tag t i, hins.tag]

/-! ## Tags -/

/-- The map with a tag bit written. -/
def TaggedMap.setTag (M : TaggedMap α) (t : Fin 2) (i : Nat) (v : Bool) : TaggedMap α :=
  { M with tag := Function.update M.tag t (Function.update (M.tag t) i v) }

theorem TaggedMap.setTag_tag (M : TaggedMap α) (t t' : Fin 2) (i j : Nat) (v : Bool) :
    (M.setTag t i v).tag t' j = if t' = t ∧ j = i then v else M.tag t' j := by
  unfold setTag
  by_cases ht : t' = t
  · subst ht
    by_cases hj : j = i
    · simp [hj]
    · simp [hj]
  · simp [ht]

theorem Represents.found {root : RadixTreeRoot α w} {M : TaggedMap α} {index : Nat}
    (h : Represents bits root M) (hitem : M.item index ≠ none) :
    index < 2 ^ (w * root.height) ∧ lookupDown index root.height root.rnode ≠ none := by
  rw [h.item] at hitem
  split at hitem
  · rename_i hlt
    exact ⟨hlt, hitem⟩
  · exact absurd rfl hitem

/-- `radix_tree_tag_set` of an item that is there. -/
theorem tagSet_spec {index : Nat} {t : Fin 2} {root : RadixTreeRoot α w} {M : TaggedMap α}
    (hi : index < 2 ^ bits) (h : Represents bits root M) (hitem : M.item index ≠ none) :
    ∃ root', tagSet bits root index t = some root' ∧
      Represents bits root' (M.setTag t index true) := by
  obtain ⟨hlt, hfound⟩ := h.found hitem
  obtain ⟨p, hset, hadd⟩ := tagSetDown_spec (t := t) h.wf hfound
  have hfit : ¬ maxindex w bits root.height < index := by
    rw [maxindex_lt_iff hi]
    omega
  have hnull : ¬ (root.height = 0 ∧ root.rnode.isNull) := by
    rintro ⟨-, hnull⟩
    rw [isNull_iff.1 hnull, lookupDown_null] at hfound
    exact hfound rfl
  have hbit (t' : Fin 2) :
      Function.update root.tags t true t' = if t' = t then true else root.tags t' := by
    by_cases ht : t' = t <;> simp [ht]
  have hroot : tagSet bits root index t = some
      { root with rnode := p, tags := Function.update root.tags t true } := by
    rw [tagSet, if_neg hfit, if_neg hnull, hset]
    rfl
  refine ⟨_, hroot, hadd.wf, fun t' => ?_, h.height, fun i => ?_, fun t' i => ?_⟩
  · dsimp only
    rw [hbit]
    exact hadd.tagOk t' _ (h.tagOk t')
  · dsimp only [TaggedMap.setTag]
    rw [h.item i, hadd.lookup]
  · dsimp only
    rw [TaggedMap.setTag_tag, hbit, hadd.tag, h.tag t' i]
    by_cases hin : i < 2 ^ (w * root.height)
    · simp [hin, mod_eq_iff hlt hin]
    · have hne : i ≠ index := fun heq => hin (heq ▸ hlt)
      simp [hin, hne]

theorem TaggedMap.setTag_eq_self {M : TaggedMap α} {t : Fin 2} {i : Nat} {v : Bool}
    (h : M.tag t i = v) : M.setTag t i v = M := by
  obtain ⟨item, tag⟩ := M
  unfold setTag
  congr
  rw [Function.update_eq_self_iff]
  exact Function.update_eq_self_iff.2 h.symm

/-- `radix_tree_tag_clear`, whether the item is there or not. -/
theorem tagClear_spec {index : Nat} {t : Fin 2} {root : RadixTreeRoot α w} {M : TaggedMap α}
    (hi : index < 2 ^ bits) (h : Represents bits root M) :
    Represents bits (tagClear bits root index t) (M.setTag t index false) := by
  by_cases hitem : M.item index = none
  · -- what is not there has no tags
    have hclear : M.tag t index = false := by
      rw [h.tag]
      split
      · rename_i hlt
        rw [h.item, if_pos hlt] at hitem
        exact tagAt_eq_false h.wf (h.tagOk t) hitem
      · rfl
    have hroot : tagClear bits root index t = root := by
      unfold tagClear
      split
      · rfl
      · rename_i hfit
        rw [maxindex_lt_iff hi, Nat.not_le] at hfit
        rw [h.item, if_pos hfit] at hitem
        simp [hitem]
    rw [TaggedMap.setTag_eq_self hclear, hroot]
    exact h
  obtain ⟨hlt, hfound⟩ := h.found hitem
  have hrem := tagClearDown_spec (t := t) h.wf hfound
  have hfit : ¬ maxindex w bits root.height < index := by
    rw [maxindex_lt_iff hi]
    omega
  unfold tagClear
  rw [if_neg hfit, if_neg (by simpa using hfound)]
  generalize tagClearDown index t root.height root.rnode = r at hrem ⊢
  obtain ⟨p, up⟩ := r
  dsimp only at hrem ⊢
  have hbit (t' : Fin 2) : (if up then Function.update root.tags t false else root.tags) t' =
      if t' = t ∧ up then false else root.tags t' := by
    by_cases ht : t' = t <;> cases up <;> simp [ht]
  refine ⟨hrem.wf, fun t' => ?_, h.height, fun i => ?_, fun t' i => ?_⟩
  · dsimp only
    rw [hbit]
    exact hrem.tagOk t' _ (h.tagOk t')
  · dsimp only [TaggedMap.setTag]
    rw [h.item i, hrem.lookup]
  · dsimp only
    rw [TaggedMap.setTag_tag, hbit, hrem.tag, h.tag t' i]
    by_cases hin : i < 2 ^ (w * root.height)
    · simp [hin, mod_eq_iff hlt hin]
    · have hne : i ≠ index := fun heq => hin (heq ▸ hlt)
      simp [hin, hne]

/-! ## Deletion -/

theorem leafTag_eq {h i : Nat} {t : Fin 2} (p : Ptr α w) (bit : Bool) :
    leafTag i t (h + 1) p = tagAt t i (h + 1) p bit := by
  induction h generalizing p bit with
  | zero => cases p <;> rfl
  | succ h ih =>
    cases p with
    | null => rfl
    | item x => rfl
    | node height count slots tags => exact ih _ _

/-- The tag of an item that is about to be deleted is cleared if it is set. -/
theorem clearLeafTag_spec {index : Nat} {t : Fin 2} {root : RadixTreeRoot α w} {M : TaggedMap α}
    (hi : index < 2 ^ bits) (h : Represents bits root M) (hitem : M.item index ≠ none)
    (hheight : root.height ≠ 0) :
    Represents bits (if leafTag index t root.height root.rnode then tagClear bits root index t
      else root) (M.setTag t index false) := by
  split
  · exact tagClear_spec hi h
  rename_i hleaf
  have hclear : M.tag t index = false := by
    obtain ⟨hlt, -⟩ := h.found hitem
    obtain ⟨k, hk⟩ := Nat.exists_eq_succ_of_ne_zero hheight
    rw [h.tag, if_pos hlt]
    rw [hk, Nat.succ_eq_add_one, leafTag_eq _ (root.tags t)] at hleaf
    rw [hk]
    simpa using hleaf
  rw [TaggedMap.setTag_eq_self hclear]
  exact h

theorem tagClear_height (root : RadixTreeRoot α w) (index : Nat) (t : Fin 2) :
    (tagClear bits root index t).height = root.height := by
  unfold tagClear
  split
  · rfl
  · split
    · rfl
    · rfl

theorem shrink_spec {n : Nat} {root : RadixTreeRoot α w} {M : TaggedMap α} {m : Slab α w}
    (h : Represents bits root M) (hn : root.height = n) (hnull : root.rnode.isNull = false)
    (hm : m.Clean) :
    ∃ root' m', shrink n root m = some (root', m') ∧ Represents bits root' M ∧ m'.Clean := by
  induction n generalizing root m with
  | zero => exact ⟨root, m, rfl, h, hm⟩
  | succ n ih =>
    obtain ⟨height, rtags, rnode⟩ := root
    obtain rfl : height = n + 1 := hn
    have hwf := h.wf
    dsimp only at hwf hnull
    cases rnode with
    | null => cases hnull
    | item x => cases hwf
    | node height count slots tags =>
      obtain ⟨rfl, hcount, hslots, htags⟩ := hwf
      unfold shrink
      dsimp only
      by_cases hone : count = 1
      · by_cases hfirst : (slots slot0).isNull = true
        · exact ⟨_, m, by simp [hone, hfirst], h, hm⟩
        rw [Bool.not_eq_true] at hfirst
        -- the first slot is the only one in use
        have hrest : Function.update slots slot0 .null = fun _ => .null := by
          have := inUse_update_null hfirst
          exact inUse_eq_zero (by omega)
        have hslots' (s : Fin (2 ^ w)) (hs : s ≠ slot0) : slots s = .null := by
          have := congrFun hrest s
          rwa [Function.update_of_ne hs] at this
        have htags' (t : Fin 2) (s : Fin (2 ^ w)) (hs : s ≠ slot0) : tags t s = false := by
          have hok := htags t s
          rw [hslots' s hs] at hok
          exact tagOk_null.1 hok
        have hbit (t : Fin 2) : tags t slot0 = rtags t := by
          have hok : rtags t = decide (∃ s, tags t s = true) := h.tagOk t
          rw [hok]
          cases hset : tags t slot0 with
          | true =>
            rw [eq_comm, decide_eq_true_iff]
            exact ⟨slot0, hset⟩
          | false =>
            rw [eq_comm, decide_eq_false_iff_not]
            rintro ⟨s, hs⟩
            by_cases heq : s = slot0
            · rw [heq, hset] at hs
              cases hs
            · rw [htags' t s heq] at hs
              cases hs
        have hiff := first_slot_iff n count (slots slot0) rtags slots tags hslots' htags' rfl
          hbit
        have hrep : Represents bits ⟨n, rtags, slots slot0⟩ M := by
          refine ⟨hslots slot0, fun t => ?_, Nat.le_trans (by simp) h.height, fun i => ?_,
            fun t i => ?_⟩
          · have hok := htags t slot0
            rwa [hbit] at hok
          · exact (h.item i).trans (hiff i).1
          · exact (h.tag t i).trans ((hiff i).2 t)
        have hzero : Zeroed (nodeRcuFree (.node (n + 1) count slots tags)) := by
          refine ⟨n + 1, ?_⟩
          unfold nodeRcuFree
          dsimp only
          rw [hrest]
          congr
          funext t s
          by_cases hs : s = slot0
          · simp [hs]
          · simp [hs, htags' t s hs]
        obtain ⟨root', m', hshrink, hrep', hclean⟩ := ih hrep rfl hfirst (hm.nodeFree hzero)
        refine ⟨root', m', ?_, hrep', hclean⟩
        simpa [hone, hfirst] using hshrink
      · exact ⟨_, m, by simp [hone], h, hm⟩

/-- `radix_tree_delete` of an item that is there, in a tree with nodes. -/
theorem deleteFound_spec {index : Nat} {root : RadixTreeRoot α w} {M : TaggedMap α} {m : Slab α w}
    (hi : index < 2 ^ bits) (h : Represents bits root M) (hitem : M.item index ≠ none)
    (hheight : root.height ≠ 0) (hm : m.Clean) :
    ∃ root' m', deleteFound bits root index m = some (root', m') ∧
      Represents bits root' (M.put index none) ∧ m'.Clean := by
  have h₁ := clearLeafTag_spec (t := 0) hi h hitem hheight
  have hheight₁ : (if leafTag index 0 root.height root.rnode then tagClear bits root index 0
      else root).height = root.height := by
    split
    · exact tagClear_height root index 0
    · rfl
  unfold deleteFound
  dsimp only
  generalize (if leafTag index 0 root.height root.rnode then tagClear bits root index 0
    else root) = root₁ at h₁ hheight₁ ⊢
  have h₂ := clearLeafTag_spec (t := 1) hi h₁ hitem (hheight₁ ▸ hheight)
  have hheight₂ : (if leafTag index 1 root₁.height root₁.rnode then tagClear bits root₁ index 1
      else root₁).height = root.height := by
    split
    · exact (tagClear_height root₁ index 1).trans hheight₁
    · exact hheight₁
  generalize (if leafTag index 1 root₁.height root₁.rnode then tagClear bits root₁ index 1
    else root₁) = root₂ at h₂ hheight₂ ⊢
  -- without its tags the item is as good as gone for the tag bits above it
  have htag (t : Fin 2) (j : Nat) : ((M.setTag 0 index false).setTag 1 index false).tag t j =
      (M.put index none).tag t j := by
    rw [TaggedMap.setTag_tag, TaggedMap.setTag_tag]
    by_cases hj : j = index
    · subst hj
      have : t = 0 ∨ t = 1 := by omega
      rcases this with rfl | rfl <;> simp [TaggedMap.put]
    · simp [TaggedMap.put, hj]
  obtain ⟨hlt, hfound⟩ := h₂.found hitem
  have hclear (t : Fin 2) : tagAt t index root₂.height root₂.rnode (root₂.tags t) = false := by
    have := h₂.tag t index
    rw [if_pos hlt, htag] at this
    rw [← this]
    simp [TaggedMap.put]
  obtain ⟨hclean, hremoval⟩ := removeUp_spec h₂.wf hfound hm h₂.tagOk hclear
  generalize removeUp index root₂.height root₂.rnode m = r at hclean hremoval ⊢
  obtain ⟨removal, m'⟩ := r
  cases removal with
  | unused q =>
    dsimp only at hclean hremoval ⊢
    refine ⟨_, _, rfl, ?_, hclean.nodeFree (hremoval.zeroed (by omega)).nodeRcuFree⟩
    have hnone (j : Nat) : (M.put index none).item j = none := by
      by_cases hj : j = index
      · simp [TaggedMap.put, hj]
      have hitem := h₂.item j
      have hput : (M.put index none).item j = M.item j := by simp [TaggedMap.put, hj]
      rw [hput]
      refine hitem.trans ?_
      split
      · rename_i hjlt
        exact hremoval.others j fun hmod => hj ((mod_eq_iff hlt hjlt).1 hmod)
      · rfl
    refine ⟨trivial, fun t => nofun, Nat.zero_le _, fun j => ?_, fun t j => ?_⟩
    · rw [hnone, lookupDown_null]
      simp
    rw [← htag, h₂.tag t j]
    have hright : tagAt t j 0 (.null : Ptr α w) false = false := rfl
    rw [hright, ite_self]
    split
    · by_cases hj : j = index
      · rw [hj]
        exact hclear t
      · refine tagAt_eq_false h₂.wf (h₂.tagOk t) (hremoval.others j fun hmod => hj ?_)
        exact (mod_eq_iff hlt (by assumption)).1 hmod
    · rfl
  | kept q here =>
    dsimp only at hclean hremoval ⊢
    have hrep : Represents bits { root₂ with rnode := q } (M.put index none) := by
      refine ⟨hremoval.wf, fun t => hremoval.tagOk t _ (h₂.tagOk t), h₂.height, fun j => ?_,
        fun t j => ?_⟩
      · dsimp only
        rw [hremoval.lookup]
        by_cases hj : j = index
        · simp [TaggedMap.put, hj]
        · have hput : (M.put index none).item j = M.item j := by simp [TaggedMap.put, hj]
          rw [hput]
          refine (h₂.item j).trans (ite_congr rfl (fun hjlt => ?_) fun _ => rfl)
          rw [if_neg fun hmod => hj ((mod_eq_iff hlt hjlt).1 hmod)]
      · dsimp only
        rw [← htag, h₂.tag t j, hremoval.tag]
    cases here with
    | true => exact shrink_spec hrep rfl hremoval.inUse hclean
    | false => exact ⟨_, m', rfl, hrep, hclean⟩

/-- `radix_tree_delete` returns the item of the map and takes it out. -/
theorem delete_spec {index : Nat} {root : RadixTreeRoot α w} {M : TaggedMap α} {m : Slab α w}
    (hi : index < 2 ^ bits) (h : Represents bits root M) (hm : m.Clean) :
    ∃ root' m', delete bits root index m = some (root', m', M.item index) ∧
      Represents bits root' (M.put index none) ∧ m'.Clean := by
  have habsent (hnone : M.item index = none) : M.put index none = M := by
    have hclear (t : Fin 2) : M.tag t index = false := by
      rw [h.tag]
      split
      · rename_i hlt
        rw [h.item, if_pos hlt] at hnone
        exact tagAt_eq_false h.wf (h.tagOk t) hnone
      · rfl
    obtain ⟨item, tag⟩ := M
    unfold TaggedMap.put
    congr
    · exact Function.update_eq_self_iff.2 hnone.symm
    · funext t
      exact Function.update_eq_self_iff.2 (hclear t).symm
  unfold delete
  by_cases hgrow : maxindex w bits root.height < index
  · have hnone : M.item index = none := by
      rw [maxindex_lt_iff hi] at hgrow
      rw [h.item, if_neg (by omega)]
    rw [if_pos hgrow, hnone, habsent hnone]
    exact ⟨root, m, rfl, h, hm⟩
  rw [if_neg hgrow]
  rw [maxindex_lt_iff hi, Nat.not_le] at hgrow
  have hitem : lookupDown index root.height root.rnode = M.item index := by
    rw [h.item, if_pos hgrow]
  rw [hitem]
  by_cases hzero : root.height = 0
  · refine ⟨_, m, if_pos hzero, ?_, hm⟩
    rw [hzero, Nat.mul_zero, Nat.pow_zero, Nat.lt_one_iff] at hgrow
    subst hgrow
    refine ⟨?_, fun t => ?_, h.height, fun i => ?_, fun t i => ?_⟩
    · exact wellFormed_null _
    · exact tagOk_null.2 rfl
    · dsimp only [TaggedMap.put]
      rw [lookupDown_null, ite_self]
      by_cases hi0 : i = 0
      · simp [hi0]
      · rw [Function.update_of_ne hi0, h.item, hzero, if_neg (by simpa using hi0)]
    · dsimp only [TaggedMap.put]
      rw [hzero]
      have hright : tagAt t i 0 (.null : Ptr α w) false = false := rfl
      rw [hright, ite_self]
      by_cases hi0 : i = 0
      · simp [hi0]
      · rw [Function.update_of_ne hi0, h.tag, hzero, if_neg (by simpa using hi0)]
  rw [if_neg hzero]
  by_cases hnone : M.item index = none
  · rw [hnone, habsent hnone]
    exact ⟨root, m, rfl, h, hm⟩
  · obtain ⟨root', m', hdel, hrep, hclean⟩ := deleteFound_spec hi h hnone hzero hm
    refine ⟨root', m', ?_, hrep, hclean⟩
    rw [if_neg (by simpa using hnone), hdel]
    rfl

/-- `radix_tree_lookup` finds what the map has. -/
theorem lookup_spec {index : Nat} {root : RadixTreeRoot α w} {M : TaggedMap α}
    (hi : index < 2 ^ bits) (h : Represents bits root M) :
    lookup bits root index = M.item index := by
  obtain ⟨rheight, rtags, rnode⟩ := root
  have hitem := h.item index
  have hwf := h.wf
  dsimp only at hitem hwf
  unfold lookup
  cases rnode with
  | null =>
    rw [hitem, lookupDown_null, ite_self]
  | item x =>
    obtain rfl : rheight = 0 := by
      cases rheight with
      | zero => rfl
      | succ n => exact hwf
    rw [hitem]
    by_cases hpos : 0 < index
    · simp [hpos, Nat.ne_of_gt hpos]
    · have hzero : index = 0 := by omega
      simp [hzero, lookupDown]
  | node height count slots tags =>
    cases rheight with
    | zero => exact hwf.elim
    | succ n =>
      obtain ⟨rfl, -⟩ := hwf
      dsimp only
      rw [hitem]
      by_cases hgrow : 2 ^ (w * (n + 1)) ≤ index
      · rw [if_pos ((maxindex_lt_iff hi).2 hgrow), if_neg (by omega)]
      · rw [if_neg (by rwa [maxindex_lt_iff hi]), if_pos (by omega)]

/-! ## Tag bits -/

/-- A tag bit that is set is so for an item below, and the bits above an item with a tag are
set. -/
theorem TagOk.iff_exists {h : Nat} {t : Fin 2} {p : Ptr α w} {bit : Bool} (hwf : WellFormed h p)
    (hok : TagOk t h p bit) : bit = true ↔
      ∃ i, i < 2 ^ (w * h) ∧ lookupDown i h p ≠ none ∧ tagAt t i h p bit = true := by
  induction h generalizing p bit with
  | zero =>
    refine ⟨fun hbit => ⟨0, by simp, ?_, hbit⟩, fun ⟨i, _, _, hbit⟩ => hbit⟩
    cases p with
    | null => cases hok hbit
    | item x => exact nofun
    | node => exact hwf.elim
  | succ h ih =>
    cases p with
    | null =>
      obtain rfl := tagOk_null.1 hok
      exact ⟨nofun, fun ⟨_, _, hne, _⟩ => absurd rfl hne⟩
    | item x => cases hwf
    | node height count slots tags =>
      obtain ⟨-, -, hslots, htags⟩ := hwf
      have hbit : bit = decide (∃ s, tags t s = true) := hok
      rw [hbit, decide_eq_true_iff]
      constructor
      · rintro ⟨s, hs⟩
        obtain ⟨i, hlt, hfound, htag⟩ := (ih (hslots s) (htags t s)).1 hs
        have hdigit := digit_add hlt s.isLt
        have hoff : offset w h (i + 2 ^ (w * h) * s) = s := Fin.ext hdigit
        have hmod : (i + 2 ^ (w * h) * s) % 2 ^ (w * h) = i % 2 ^ (w * h) := by simp
        refine ⟨i + 2 ^ (w * h) * s, ?_, ?_, ?_⟩
        · rw [Nat.mul_succ, Nat.pow_add]
          have hs1 : (s : Nat) + 1 ≤ 2 ^ w := s.isLt
          have := Nat.mul_le_mul_left (2 ^ (w * h)) hs1
          rw [Nat.mul_succ] at this
          omega
        · rw [lookupDown_node, hoff, lookupDown_congr hmod]
          exact hfound
        · rw [tagAt_node, hoff, tagAt_congr hmod]
          exact htag
      · rintro ⟨i, -, hfound, htag⟩
        refine ⟨offset w h i, (ih (hslots _) (htags t _)).2 ⟨i % 2 ^ (w * h), ?_, ?_, ?_⟩⟩
        · exact Nat.mod_lt _ (Nat.two_pow_pos _)
        · rw [lookupDown_congr (Nat.mod_mod _ _)]
          exact hfound
        · rw [tagAt_congr (Nat.mod_mod _ _)]
          exact htag

/-- `radix_tree_tagged` tells whether some item has the tag. -/
theorem tagged_spec {root : RadixTreeRoot α w} {M : TaggedMap α} (h : Represents bits root M)
    (t : Fin 2) : tagged root t = true ↔ ∃ i, M.item i ≠ none ∧ M.tag t i = true := by
  unfold tagged
  rw [TagOk.iff_exists h.wf (h.tagOk t)]
  constructor
  · rintro ⟨i, hlt, hfound, htag⟩
    exact ⟨i, by rwa [h.item, if_pos hlt], by rwa [h.tag, if_pos hlt]⟩
  · rintro ⟨i, hitem, htag⟩
    obtain ⟨hlt, hfound⟩ := h.found hitem
    rw [h.tag, if_pos hlt] at htag
    exact ⟨i, hlt, hfound, htag⟩

end AndroidKernel.RadixTree
