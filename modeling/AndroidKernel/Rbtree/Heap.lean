import AndroidKernel.Rbtree.Model

/-!
# Trees in memory

`Focus h path t`: the nodes of `h` are linked as the tree that has `t` at the end of `path`, with
all parent pointers right. Each pointer operation of the library is described once, as a change
of the tree at a focus.
-/

namespace AndroidKernel.Rbtree

open Library

universe u

variable {α : Type u}

@[simp] theorem ok_bind {β γ : Type u} (x : β) (f : β → Except Crash γ) :
    (Except.ok x >>= f) = f x := rfl

@[simp] theorem deref_some (x : α) : deref (some x) = .ok x := rfl

namespace RbNode

/-- A node by the children on side `d` and on the other side. -/
def ofSides (d : Side) (parent : Option α) (c : Color) (near far : Option α) : RbNode α :=
  match d with
  | .left => ⟨parent, c, near, far⟩
  | .right => ⟨parent, c, far, near⟩

variable (d : Side) (p : Option α) (c : Color) (near far : Option α)

@[simp] theorem parent_ofSides : (ofSides d p c near far).parent = p := by cases d <;> rfl

@[simp] theorem color_ofSides : (ofSides d p c near far).color = c := by cases d <;> rfl

@[simp] theorem child_ofSides : (ofSides d p c near far).child d = near := by cases d <;> rfl

@[simp] theorem child_other_ofSides : (ofSides d p c near far).child d.other = far := by
  cases d <;> rfl

theorem ofSides_other : ofSides d.other p c near far = ofSides d p c far near := by
  cases d <;> rfl

@[simp] theorem setChild_ofSides (q : Option α) :
    (ofSides d p c near far).setChild d q = ofSides d p c q far := by
  cases d <;> rfl

@[simp] theorem setChild_other_ofSides (q : Option α) :
    (ofSides d p c near far).setChild d.other q = ofSides d p c near q := by
  cases d <;> rfl

/-- Testing the left child for the near one finds the side. -/
theorem side_ofSides [DecidableEq α] (hne : near ≠ far) :
    (if (ofSides d p c near far).left = near then Side.left else Side.right) = d := by
  cases d with
  | left => exact if_pos rfl
  | right => exact if_neg hne.symm

@[simp] theorem setParent_ofSides (q : Option α) :
    (ofSides d p c near far).setParent q = ofSides d q c near far := by
  cases d <;> rfl

@[simp] theorem setColor_ofSides (e : Color) :
    (ofSides d p c near far).setColor e = ofSides d p e near far := by
  cases d <;> rfl

end RbNode

/-- The nodes of a tree are linked as the tree is, under the parent `p`. -/
def Rep (nodes : α → RbNode α) : Option α → ColorTree α → Prop
  | _, .nil => True
  | p, .node c l x r =>
    nodes x = ⟨p, c, l.root, r.root⟩ ∧ Rep nodes (some x) l ∧ Rep nodes (some x) r

/-- The nodes of a path are linked as the path is, with `top` at its end. -/
def Context (h : RbRoot α) : Path α → Option α → Prop
  | [], top => h.rbNode = top
  | f :: path, top =>
    h.nodes f.key = .ofSides f.side (Path.parent path) f.color top f.sibling.root ∧
      Rep h.nodes (some f.key) f.sibling ∧ Context h path (some f.key)

/-- The memory holds the tree that has `t` at the end of `path`. -/
structure Focus (h : RbRoot α) (path : Path α) (t : ColorTree α) : Prop where
  tree : Rep h.nodes path.parent t
  above : Context h path t.root
  nodup : (t.inorder ++ path.keys).Nodup

/-- The memory holds the tree. -/
def Represents (h : RbRoot α) (t : ColorTree α) : Prop :=
  Focus h [] t

theorem rep_join {nodes : α → RbNode α} {p : Option α} {d : Side} {c : Color} {x : α}
    {a b : ColorTree α} : Rep nodes p (.join d c x a b) ↔
      nodes x = .ofSides d p c a.root b.root ∧ Rep nodes (some x) a ∧ Rep nodes (some x) b := by
  cases d with
  | left => rfl
  | right => exact and_congr_right fun _ => and_comm

theorem Rep.congr {nodes nodes' : α → RbNode α} {p : Option α} {t : ColorTree α}
    (h : Rep nodes p t) (heq : ∀ x ∈ t.inorder, nodes' x = nodes x) : Rep nodes' p t := by
  induction t generalizing p with
  | nil => trivial
  | node c l x r ihl ihr =>
    obtain ⟨hx, hl, hr⟩ := h
    refine ⟨(heq x (by simp [ColorTree.inorder])).trans hx, ihl hl fun y hy => ?_,
      ihr hr fun y hy => ?_⟩
    · exact heq y (List.mem_append_left _ hy)
    · exact heq y (List.mem_append_right _ (List.mem_cons_of_mem _ hy))

/-- A tree below another parent: only its root changes. -/
theorem Rep.reparent {nodes nodes' : α → RbNode α} {p q : Option α} {t : ColorTree α}
    (h : Rep nodes p t) (hnodup : t.inorder.Nodup)
    (hroot : ∀ x, t.root = some x → nodes' x = (nodes x).setParent q)
    (heq : ∀ x ∈ t.inorder, t.root ≠ some x → nodes' x = nodes x) : Rep nodes' q t := by
  cases t with
  | nil => trivial
  | node c l x r =>
    obtain ⟨hx, hl, hr⟩ := h
    have hxl : x ∉ l.inorder := by
      simp only [ColorTree.inorder, List.nodup_append, List.mem_cons] at hnodup
      exact fun hmem => hnodup.2.2 x hmem x (.inl rfl) rfl
    have hxr : x ∉ r.inorder := by
      simp only [ColorTree.inorder, List.nodup_append, List.nodup_cons] at hnodup
      exact hnodup.2.1.1
    refine ⟨by rw [hroot x rfl, hx, RbNode.setParent], hl.congr fun y hy => heq y ?_ ?_,
      hr.congr fun y hy => heq y ?_ ?_⟩
    · exact List.mem_append_left _ hy
    · rintro ⟨⟩
      exact hxl hy
    · exact List.mem_append_right _ (List.mem_cons_of_mem _ hy)
    · rintro ⟨⟩
      exact hxr hy

theorem Context.congr {h h' : RbRoot α} {path : Path α} {top : Option α}
    (hctx : Context h path top) (hroot : h'.rbNode = h.rbNode)
    (heq : ∀ x ∈ path.keys, h'.nodes x = h.nodes x) : Context h' path top := by
  induction path generalizing top with
  | nil => exact hroot.trans hctx
  | cons f path ih =>
    obtain ⟨hf, hsib, hpath⟩ := hctx
    simp only [Path.keys_cons, List.mem_append, List.mem_cons] at heq
    refine ⟨(heq _ (.inl (.inl rfl))).trans hf, hsib.congr fun x hx => ?_, ih hpath ?_⟩
    · exact heq x (.inl (.inr hx))
    · exact fun x hx => heq x (.inr hx)

/-- The root of a tree that is not at the focus is above it. -/
theorem Context.root_mem {h : RbRoot α} {path : Path α} {top : Option α} (hne : path ≠ [])
    (hctx : Context h path top) : ∃ x ∈ path.keys, h.rbNode = some x := by
  induction path generalizing top with
  | nil => exact absurd rfl hne
  | cons f path ih =>
    obtain ⟨-, -, hpath⟩ := hctx
    cases path with
    | nil => exact ⟨f.key, by simp [Path.keys_cons], hpath⟩
    | cons g path =>
      obtain ⟨x, hx, heq⟩ := ih (List.cons_ne_nil _ _) hpath
      exact ⟨x, by rw [Path.keys_cons]; exact List.mem_append_right _ hx, heq⟩

/-- The keys of a join. -/
theorem inorder_join_perm (d : Side) (c : Color) (x : α) (a b : ColorTree α) :
    (ColorTree.join d c x a b).inorder.Perm (a.inorder ++ x :: b.inorder) := by
  cases d with
  | left => rfl
  | right =>
    refine List.perm_middle.trans (List.Perm.trans ?_ List.perm_middle.symm)
    exact List.perm_append_comm.cons x

/-- A focus can be moved along its path. -/
theorem focus_cons {h : RbRoot α} {f : Frame α} {path : Path α} {t : ColorTree α} :
    Focus h (f :: path) t ↔ Focus h path (.join f.side f.color f.key t f.sibling) := by
  have hperm : (t.inorder ++ Path.keys (f :: path)).Perm
      ((ColorTree.join f.side f.color f.key t f.sibling).inorder ++ path.keys) := by
    rw [Path.keys_cons, ← List.append_assoc]
    exact ((inorder_join_perm _ _ _ _ _).append_right _).symm
  constructor
  · rintro ⟨htree, ⟨hf, hsib, hpath⟩, hnodup⟩
    exact ⟨rep_join.2 ⟨hf, htree, hsib⟩, by rwa [ColorTree.root_join], hperm.nodup_iff.1 hnodup⟩
  · rintro ⟨htree, hpath, hnodup⟩
    obtain ⟨hf, ht, hsib⟩ := rep_join.1 htree
    rw [ColorTree.root_join] at hpath
    exact ⟨ht, ⟨hf, hsib, hpath⟩, hperm.nodup_iff.2 hnodup⟩

/-- A focus down to either child of a node. -/
theorem focus_near {h : RbRoot α} {path : Path α} {d : Side} {c : Color} {x : α} {a b : ColorTree α} :
    Focus h path (.join d c x a b) ↔ Focus h (⟨d, c, x, b⟩ :: path) a :=
  (focus_cons (f := ⟨d, c, x, b⟩)).symm

theorem focus_far {h : RbRoot α} {path : Path α} {d : Side} {c : Color} {x : α} {a b : ColorTree α} :
    Focus h path (.join d c x a b) ↔ Focus h (⟨d.other, c, x, a⟩ :: path) b := by
  rw [focus_cons, ColorTree.join_other]

theorem focus_append {h : RbRoot α} {first second : Path α} {t : ColorTree α} :
    Focus h (first ++ second) t ↔ Focus h second (first.plug t) := by
  induction first generalizing t with
  | nil => rfl
  | cons f first ih => rw [List.cons_append, focus_cons, ih, Path.plug_cons]

theorem focus_iff_represents {h : RbRoot α} {path : Path α} {t : ColorTree α} :
    Focus h path t ↔ Represents h (path.plug t) := by
  rw [← List.append_nil path, focus_append, List.append_nil, Represents]

theorem parent_ne_of_not_mem {path : Path α} {y : α} (hy : y ∉ path.keys) : path.parent ≠ some y := by
  cases path with
  | nil => exact nofun
  | cons f path =>
    rintro ⟨⟩
    exact hy (by simp [Path.keys_cons])

namespace Focus

variable {h : RbRoot α} {path : Path α} {d : Side} {c : Color} {x : α} {a b : ColorTree α}

theorem node (hf : Focus h path (.join d c x a b)) :
    h.nodes x = .ofSides d path.parent c a.root b.root :=
  (rep_join.1 hf.tree).1

/-- What is read above the focus. -/
theorem frame {f : Frame α} {t : ColorTree α} (hf : Focus h (f :: path) t) :
    h.nodes f.key = .ofSides f.side path.parent f.color t.root f.sibling.root :=
  hf.above.1

theorem disjoint {t : ColorTree α} (hf : Focus h path t) {y z : α} (hy : y ∈ t.inorder)
    (hz : z ∈ path.keys) : y ≠ z :=
  (List.nodup_append.1 hf.nodup).2.2 y hy z hz

theorem nodup_tree {t : ColorTree α} (hf : Focus h path t) : t.inorder.Nodup :=
  (List.nodup_append.1 hf.nodup).1

theorem nodup_join (hf : Focus h path (.join d c x a b)) :
    a.inorder.Nodup ∧ b.inorder.Nodup ∧ x ∉ a.inorder ∧ x ∉ b.inorder ∧
      ∀ y ∈ a.inorder, ∀ z ∈ b.inorder, y ≠ z := by
  have hperm := (inorder_join_perm d c x a b).nodup_iff.1 hf.nodup_tree
  obtain ⟨ha, hb, hab⟩ := List.nodup_append.1 hperm
  obtain ⟨hxb, hb⟩ := List.nodup_cons.1 hb
  refine ⟨ha, hb, fun hxa => hab x hxa x List.mem_cons_self rfl, hxb, fun y hy z hz => ?_⟩
  exact hab y hy z (List.mem_cons_of_mem _ hz)

theorem not_mem_keys (hf : Focus h path (.join d c x a b)) :
    x ∉ path.keys ∧ (∀ y ∈ a.inorder, y ∉ path.keys) ∧ ∀ y ∈ b.inorder, y ∉ path.keys := by
  have hmem {y : α} (hy : y ∈ a.inorder ++ x :: b.inorder) : y ∉ path.keys := fun hkey =>
    hf.disjoint ((inorder_join_perm d c x a b).mem_iff.2 hy) hkey rfl
  exact ⟨hmem (by simp), fun y hy => hmem (by simp [hy]), fun y hy => hmem (by simp [hy])⟩

theorem isBlack_root [DecidableEq α] {p : Option α} {t : ColorTree α} (ht : Rep h.nodes p t) :
    h.isBlack t.root = decide (t.color = .black) := by
  cases t with
  | nil => rfl
  | node c l x r =>
    change decide ((h.nodes x).color = .black) = decide (c = .black)
    rw [ht.1]

/-- A null pointer or a black node, at the focus. -/
theorem isBlack [DecidableEq α] {t : ColorTree α} (hf : Focus h path t) :
    h.isBlack t.root = decide (t.color = .black) :=
  isBlack_root hf.tree

end Focus

/-! ## Writes -/

section Writes

variable [DecidableEq α] {h : RbRoot α} {path : Path α}

namespace RbRoot

@[simp] theorem modify_rbNode (h : RbRoot α) (x : α) (f : RbNode α → RbNode α) :
    (h.modify x f).rbNode = h.rbNode := rfl

@[simp] theorem modify_nodes_self (h : RbRoot α) (x : α) (f : RbNode α → RbNode α) :
    (h.modify x f).nodes x = f (h.nodes x) := by simp [modify]

theorem modify_nodes_of_ne (h : RbRoot α) {x y : α} (f : RbNode α → RbNode α) (hne : y ≠ x) :
    (h.modify x f).nodes y = h.nodes y := by simp [modify, hne]

@[simp] theorem setParentIf_rbNode (h : RbRoot α) (p q : Option α) :
    (h.setParentIf p q).rbNode = h.rbNode := by cases p <;> rfl

theorem setParentIf_nodes_of_ne (h : RbRoot α) {p : Option α} {y : α} (q : Option α)
    (hne : p ≠ some y) : (h.setParentIf p q).nodes y = h.nodes y := by
  cases p with
  | none => rfl
  | some x => exact modify_nodes_of_ne h (.setParent q) fun heq => hne (congrArg some heq.symm)

end RbRoot

/-- `if (p) rb_set_parent(p, q)` on the root of a tree. -/
theorem Rep.setParentIf {p : Option α} {t : ColorTree α} (ht : Rep h.nodes p t)
    (hnodup : t.inorder.Nodup) (q : Option α) : Rep (h.setParentIf t.root q).nodes q t := by
  refine ht.reparent hnodup (fun x hx => ?_) fun x _ hx => h.setParentIf_nodes_of_ne q hx
  rw [hx]
  exact RbRoot.modify_nodes_self h x (.setParent q)

/-- The pointer to `x` above a place becomes a pointer to `new`. -/
theorem Context.replaceChild {x : α} (hctx : Context h path (some x)) (hx : x ∉ path.keys)
    (hnodup : path.keys.Nodup) (d : Side) (new : Option α) :
    Context (h.replaceChild d path.parent x new) path new := by
  cases path with
  | nil => rfl
  | cons f path =>
    obtain ⟨hf, hsib, hpath⟩ := hctx
    obtain ⟨e, c, y, sib⟩ := f
    simp only [Path.keys_cons, List.cons_append, List.nodup_cons, List.mem_append, not_or,
      List.mem_cons] at hx hnodup
    dsimp only at hf hsib hpath
    -- the child on side `d` is `x` exactly when the place is on side `d`
    have hwrite : h.replaceChild d (some y) x new = h.setChild e y new := by
      rcases Side.eq_or_eq_other d e with rfl | rfl
      · simp [RbRoot.replaceChild, hf]
      · have hne : sib.root ≠ some x := fun hroot => hx.2.1 (ColorTree.root_mem hroot)
        have hchild : (h.nodes y).child d ≠ some x := by
          rwa [hf, RbNode.ofSides_other, RbNode.child_ofSides]
        simp [RbRoot.replaceChild, hchild]
    rw [Path.parent_cons, hwrite]
    refine ⟨?_, hsib.congr fun z hz => ?_, hpath.congr rfl fun z hz => ?_⟩
    · simp [RbRoot.setChild, hf]
    · exact h.modify_nodes_of_ne _ fun heq => hnodup.1.1 (heq ▸ hz)
    · exact h.modify_nodes_of_ne _ fun heq => hnodup.1.2 (heq ▸ hz)

theorem RbRoot.replaceChild_nodes_of_ne (h : RbRoot α) (d : Side) {p : Option α} (x : α)
    (new : Option α) {y : α} (hne : p ≠ some y) :
    (h.replaceChild d p x new).nodes y = h.nodes y := by
  cases p with
  | none => rfl
  | some p =>
    have hyp : y ≠ p := fun heq => hne (congrArg some heq.symm)
    unfold replaceChild
    dsimp only
    split
    · exact h.modify_nodes_of_ne _ hyp
    · exact h.modify_nodes_of_ne _ hyp

namespace Focus

variable {d : Side} {c : Color} {x : α} {a b : ColorTree α}

/-- A write to the node at the focus, which keeps its children. -/
theorem modify (hf : Focus h path (.join d c x a b)) {e : Color} {g : RbNode α → RbNode α}
    (hg : g (h.nodes x) = .ofSides d path.parent e a.root b.root) :
    Focus (h.modify x g) path (.join d e x a b) := by
  obtain ⟨-, -, hxa, hxb, -⟩ := hf.nodup_join
  obtain ⟨hxp, -, -⟩ := hf.not_mem_keys
  obtain ⟨-, ha, hb⟩ := rep_join.1 hf.tree
  refine ⟨rep_join.2 ⟨by simp [hg], ha.congr fun y hy => ?_, hb.congr fun y hy => ?_⟩, ?_, ?_⟩
  · exact h.modify_nodes_of_ne g fun heq => hxa (heq ▸ hy)
  · exact h.modify_nodes_of_ne g fun heq => hxb (heq ▸ hy)
  · have habove := hf.above
    rw [ColorTree.root_join] at habove ⊢
    exact habove.congr rfl fun y hy => h.modify_nodes_of_ne g fun heq => hxp (heq ▸ hy)
  · have hperm := (inorder_join_perm d c x a b).trans (inorder_join_perm d e x a b).symm
    exact (hperm.append_right _).nodup_iff.1 hf.nodup

theorem setColor (hf : Focus h path (.join d c x a b)) (e : Color) :
    Focus (h.setColor x e) path (.join d e x a b) :=
  hf.modify (by rw [hf.node]; simp)

/-- `if (p) rb_set_black(p)` at the focus. -/
theorem setBlackIf {t : ColorTree α} (hf : Focus h path t) :
    Focus (h.setBlackIf t.root) path (t.paint .black) := by
  cases t with
  | nil => exact hf
  | node c l x r => exact setColor (d := .left) hf .black

/-- The pointer writes of a rotation below the focus. -/
def rotateBelow (h : RbRoot α) (d : Side) (x y : α) (parent inner : Option α) : RbRoot α :=
  let h := h.setChild d.other x inner
  let h := h.setParentIf inner (some x)
  let h := h.setChild d y (some x)
  h.setParent y parent

theorem rotate_eq {c' : Color} {y : α} {t : ColorTree α}
    (hf : Focus h path (.join d c x a (.join d c' y b t))) :
    h.rotate d x = .ok (((rotateBelow h d x y path.parent b.root).replaceChild d path.parent x
      (some y)).setParent x (some y)) := by
  have hx := hf.node
  have hy := (focus_far.1 hf).node
  rw [ColorTree.root_join] at hx
  unfold RbRoot.rotate rotateBelow
  simp only [hx, hy, RbNode.child_ofSides, RbNode.child_other_ofSides, RbNode.parent_ofSides,
    deref_some, ok_bind]
  rfl

theorem rotateBelow_nodes_of_ne {y z : α} {parent inner : Option α} (hx : z ≠ x) (hy : z ≠ y)
    (hinner : inner ≠ some z) : (rotateBelow h d x y parent inner).nodes z = h.nodes z := by
  unfold rotateBelow RbRoot.setParent RbRoot.setChild
  dsimp only
  rw [RbRoot.modify_nodes_of_ne _ _ hy, RbRoot.modify_nodes_of_ne _ _ hy,
    RbRoot.setParentIf_nodes_of_ne _ _ hinner, RbRoot.modify_nodes_of_ne _ _ hx]

theorem rotate {c' : Color} {y : α} {t : ColorTree α}
    (hf : Focus h path (.join d c x a (.join d c' y b t))) :
    ∃ h', h.rotate d x = .ok h' ∧ Focus h' path (.join d c' y (.join d c x a b) t) := by
  have hmem {z : α} : z ∈ (ColorTree.join d c' y b t).inorder ↔ z ∈ b.inorder ∨ z = y ∨ z ∈ t.inorder :=
    (inorder_join_perm d c' y b t).mem_iff.trans (by simp)
  obtain ⟨-, -, hxa, hxy, hay⟩ := hf.nodup_join
  obtain ⟨hbn, -, hyb, hyt, hbt⟩ := (focus_far.1 hf).nodup_join
  obtain ⟨hxp, hap, hbp⟩ := hf.not_mem_keys
  simp only [hmem, not_or] at hxy hay hbp
  obtain ⟨hxb, hxy, hxt⟩ := hxy
  obtain ⟨hxn, ha, hr⟩ := rep_join.1 hf.tree
  obtain ⟨hyn, hb, ht⟩ := rep_join.1 hr
  rw [ColorTree.root_join] at hxn
  refine ⟨_, rotate_eq hf, ?_⟩
  -- below the focus, only `x`, `y` and the root of the subtree that changes sides are written
  have hbroot {z : α} (hz : z ∉ b.inorder) : b.root ≠ some z := fun h => hz (ColorTree.root_mem h)
  have hx4 : (rotateBelow h d x y path.parent b.root).nodes x =
      .ofSides d path.parent c a.root b.root := by
    unfold rotateBelow RbRoot.setParent RbRoot.setChild
    dsimp only
    rw [RbRoot.modify_nodes_of_ne _ _ hxy, RbRoot.modify_nodes_of_ne _ _ hxy,
      RbRoot.setParentIf_nodes_of_ne _ _ (hbroot hxb), RbRoot.modify_nodes_self, hxn,
      RbNode.setChild_other_ofSides]
  have hy4 : (rotateBelow h d x y path.parent b.root).nodes y =
      .ofSides d path.parent c' (some x) t.root := by
    unfold rotateBelow RbRoot.setParent RbRoot.setChild
    dsimp only
    rw [RbRoot.modify_nodes_self, RbRoot.modify_nodes_self,
      RbRoot.setParentIf_nodes_of_ne _ _ (hbroot hyb),
      RbRoot.modify_nodes_of_ne _ _ (Ne.symm hxy), hyn, RbNode.setChild_ofSides,
      RbNode.setParent_ofSides]
  have hb4 : Rep (rotateBelow h d x y path.parent b.root).nodes (some x) b := by
    have hb1 : Rep (h.setChild d.other x b.root).nodes (some y) b :=
      hb.congr fun z hz => h.modify_nodes_of_ne _ fun heq => hxb (heq ▸ hz)
    refine (hb1.setParentIf hbn (some x)).congr fun z hz => ?_
    have hzy : z ≠ y := fun heq => hyb (heq ▸ hz)
    unfold rotateBelow RbRoot.setParent
    exact (RbRoot.modify_nodes_of_ne _ _ hzy).trans (RbRoot.modify_nodes_of_ne _ _ hzy)
  have ha4 : Rep (rotateBelow h d x y path.parent b.root).nodes (some x) a :=
    ha.congr fun z hz => rotateBelow_nodes_of_ne (fun heq => hxa (heq ▸ hz))
      (hay z hz y (.inr (.inl rfl))) (hbroot fun hzb => hay z hz z (.inl hzb) rfl)
  have ht4 : Rep (rotateBelow h d x y path.parent b.root).nodes (some y) t :=
    ht.congr fun z hz => rotateBelow_nodes_of_ne (fun heq => hxt (heq ▸ hz))
      (fun heq => hyt (heq ▸ hz)) (hbroot fun hzb => hbt z hzb z hz rfl)
  have hctx : Context (rotateBelow h d x y path.parent b.root) path (some x) := by
    have habove := hf.above
    rw [ColorTree.root_join] at habove
    refine habove.congr (by simp [rotateBelow, RbRoot.setParent, RbRoot.setChild])
      fun z hz => rotateBelow_nodes_of_ne (fun heq => hxp (heq ▸ hz)) (fun heq => ?_)
        (hbroot fun hzb => hbp z (.inl hzb) hz)
    exact hbp z (.inr (.inl heq)) hz
  -- above it, one pointer
  have hkeep {z : α} (hzp : z ∉ path.keys) (hzx : z ≠ x) :
      (((rotateBelow h d x y path.parent b.root).replaceChild d path.parent x
        (some y)).setParent x (some y)).nodes z =
        (rotateBelow h d x y path.parent b.root).nodes z :=
    (RbRoot.modify_nodes_of_ne _ _ hzx).trans
      (RbRoot.replaceChild_nodes_of_ne _ _ _ _ (parent_ne_of_not_mem hzp))
  have hnodup := (List.nodup_append.1 hf.nodup).2.1
  refine ⟨rep_join.2 ⟨?_, rep_join.2 ⟨?_, ha4.congr fun z hz => ?_, hb4.congr fun z hz => ?_⟩,
    ht4.congr fun z hz => ?_⟩, ?_, ?_⟩
  · rw [hkeep (hbp y (.inr (.inl rfl))) (Ne.symm hxy), hy4, ColorTree.root_join]
  · unfold RbRoot.setParent
    rw [RbRoot.modify_nodes_self,
      RbRoot.replaceChild_nodes_of_ne _ _ _ _ (parent_ne_of_not_mem hxp), hx4,
      RbNode.setParent_ofSides]
  · exact hkeep (hap z hz) fun heq => hxa (heq ▸ hz)
  · exact hkeep (hbp z (.inl hz)) fun heq => hxb (heq ▸ hz)
  · exact hkeep (hbp z (.inr (.inr hz))) fun heq => hxt (heq ▸ hz)
  · rw [ColorTree.root_join]
    exact (hctx.replaceChild hxp hnodup d (some y)).congr rfl fun z hz =>
      RbRoot.modify_nodes_of_ne _ _ fun heq => hxp (heq ▸ hz)
  · rw [ColorTree.inorder_rotate d c' c c c']
    exact hf.nodup

end Focus

end Writes

/-!
## Insertion

`rb_insert_color` makes a red-black tree of a tree whose only fault is the red node just linked,
which may be below a red node or be the root.
-/

variable {α : Type u}

theorem inorder_insertOuter (d : Side) (p g : α) (sib uncle t : ColorTree α) :
    (ColorTree.join d .black p t (.join d.other .red g uncle sib)).inorder =
      (ColorTree.join d .black g (.join d .red p t sib) uncle).inorder := by
  cases d <;> simp [ColorTree.join, ColorTree.inorder, Side.other]

theorem inorder_insertInner (d : Side) (p g x : α) (sib uncle a b : ColorTree α) :
    (ColorTree.join d .black x (.join d .red p sib a) (.join d.other .red g uncle b)).inorder =
      (ColorTree.join d .black g (.join d.other .red p (.join d .red x a b) sib) uncle).inorder := by
  cases d <;> simp [ColorTree.join, ColorTree.inorder, Side.other]

variable [DecidableEq α] {h : RbRoot α} {path : Path α}

/-- `rb_link_node` puts a red node at an empty place. -/
theorem Focus.link {x : α} {d : Side} (hf : Focus h path .nil) (hx : x ∉ path.keys)
    (hside : ∀ f ∈ path.head?, f.side = d) :
    Focus (h.rbLinkNode x path.parent d) path (.node .red .nil x .nil) := by
  have hnodup : (ColorTree.inorder (.node .red .nil x .nil) ++ path.keys).Nodup :=
    List.nodup_cons.2 ⟨hx, hf.nodup⟩
  cases path with
  | nil =>
    have hx : (h.rbLinkNode x none d).nodes x = ⟨none, .red, none, none⟩ := by
      simp [RbRoot.rbLinkNode, RbRoot.modify]
    exact ⟨⟨hx, trivial, trivial⟩, rfl, hnodup⟩
  | cons f path =>
    obtain ⟨e, c, p, sib⟩ := f
    obtain rfl : e = d := hside _ rfl
    obtain ⟨hp, hsib, hpath⟩ := hf.above
    dsimp only at hp hsib hpath
    have hkeys := (List.nodup_append.1 hf.nodup).2.1
    simp only [Path.keys_cons, List.cons_append, List.nodup_cons, List.mem_append, not_or,
      List.mem_cons] at hx hkeys
    have hkeep {z : α} (hzx : z ≠ x) (hzp : z ≠ p) :
        (h.rbLinkNode x (some p) e).nodes z = h.nodes z :=
      (RbRoot.modify_nodes_of_ne _ _ hzp).trans (RbRoot.modify_nodes_of_ne _ _ hzx)
    refine ⟨⟨?_, trivial, trivial⟩, ⟨?_, hsib.congr fun z hz => ?_, hpath.congr rfl
      fun z hz => ?_⟩, hnodup⟩
    · exact (RbRoot.modify_nodes_of_ne _ _ hx.1).trans (RbRoot.modify_nodes_self ..)
    · refine (RbRoot.modify_nodes_self ..).trans ?_
      rw [RbRoot.modify_nodes_of_ne _ _ (Ne.symm hx.1), hp]
      exact RbNode.setChild_ofSides ..
    · exact hkeep (fun heq => hx.2.1 (heq ▸ hz)) fun heq => hkeys.1.1 (heq ▸ hz)
    · exact hkeep (fun heq => hx.2.2 (heq ▸ hz)) fun heq => hkeys.1.2 (heq ▸ hz)

/-- The state of the loop of `rb_insert_color`: the red node `x` at the end of `path` is the root
of a red-black tree of the height that belongs there. -/
structure Inserting (h : RbRoot α) (path : Path α) (t : ColorTree α) (x : α) : Prop where
  focus : Focus h path t
  root : t.root = some x
  balance : ∃ n pc, RedBlack t .red n ∧ Expects path pc n

/-- The last steps of a round, with the node on the outer side of its parent. -/
theorem Focus.insertOuter {d : Side} {p g : α} {sib uncle t : ColorTree α} {cp cg : Color}
    (hf : Focus h (⟨d, cp, p, sib⟩ :: ⟨d, cg, g, uncle⟩ :: path) t) :
    ∃ h', ((h.setColor p .black).setColor g .red).rotate d.other g = .ok h' ∧
      Focus h' (⟨d, .black, p, .join d.other .red g uncle sib⟩ :: path) t := by
  have hp := (focus_near.2 hf).setColor .black
  have hg := (focus_near.2 hp).setColor .red
  rw [← ColorTree.join_other d .red, ← ColorTree.join_other d .black] at hg
  obtain ⟨h', hrotate, hf'⟩ := hg.rotate
  refine ⟨h', hrotate, ?_⟩
  rw [focus_far, Side.other_other] at hf'
  exact hf'

/-- A round of `rb_insert_color`: the node of the next round is higher up. -/
theorem Inserting.insertRound {d e : Side} {p g x : α} {sib uncle t : ColorTree α}
    (hins : Inserting h (⟨e, .red, p, sib⟩ :: ⟨d, .black, g, uncle⟩ :: path) t x) :
    ∃ h' x' path' t', h.insertRound d x p g = .ok (h', x') ∧ Inserting h' path' t' x' ∧
      (path'.plug t').inorder = (Path.plug (⟨e, .red, p, sib⟩ :: ⟨d, .black, g, uncle⟩ :: path)
        t).inorder ∧ path'.length < path.length + 2 := by
  obtain ⟨hf, hroot, n, pc, hred, hexp⟩ := hins
  cases hexp with
  | red hsib hexp hne =>
  cases hexp with
  | @black _ _ _ _ _ cu _ huncle hpath =>
  have hg := (focus_near.2 hf).frame
  have hp := hf.frame
  have hu : h.isBlack uncle.root = decide (uncle.color = .black) :=
    Focus.isBlack_root (focus_near.2 hf).above.2.1
  dsimp only at hg hp
  unfold RbRoot.insertRound
  simp only [hg, RbNode.child_other_ofSides, hu, huncle.color_eq]
  cases cu with
  | red =>
    -- the uncle is painted with the parent, and the fault moves up two nodes
    have hu := (focus_far.1 (focus_near.2 (focus_near.2 hf))).setBlackIf
    have hp := (focus_near.1 (focus_far.2 hu)).setColor .black
    have hg := (focus_near.2 hp).setColor .red
    refine ⟨_, g, path, _, rfl, ⟨hg, ColorTree.root_join .., n + 1, _, ?_, hpath⟩, ?_, by omega⟩
    · exact .join_red (.join_black hred hsib) huncle.paint_black
    · refine Path.inorder_plug_congr (ColorTree.inorder_join_congr d .red .black g ?_ ?_)
      · exact ColorTree.inorder_join_congr e .black .red p rfl rfl
      · exact ColorTree.inorder_paint ..
  | black =>
    simp only [decide_true, if_true]
    rcases Side.eq_or_eq_other d e with rfl | rfl
    · -- the node is an outer grandchild
      have hchild : (h.nodes p).child e.other ≠ some x := by
        rw [hp, RbNode.child_other_ofSides]
        intro hsx
        exact (focus_near.2 hf).nodup_join.2.2.2.2 x (ColorTree.root_mem hroot) x
          (ColorTree.root_mem hsx) rfl
      obtain ⟨h', hrotate, hf'⟩ := hf.insertOuter
      have hside : RedBlack (.join e.other .red g uncle sib) .red n := .join_red huncle hsib
      refine ⟨h', x, _, t, ?_, ⟨hf', hroot, n, _, hred, .black hside hpath⟩, ?_, by simp⟩
      · rw [if_neg hchild]
        simp only [pure_bind, hrotate, ok_bind]
        rfl
      · exact Path.inorder_plug_congr (inorder_insertOuter e p g sib uncle t)
    -- an inner grandchild is rotated to the outside first
    obtain ⟨y, a, b, rfl, ha, hb⟩ := hred.exists_red_root d
    obtain rfl : y = x := by simpa using hroot
    have hchild : (h.nodes p).child d.other = some y := by
      rw [hp, RbNode.child_ofSides, ColorTree.root_join]
    have hinner := focus_near.2 hf
    rw [ColorTree.join_other] at hinner
    obtain ⟨h₁, hrotate₁, hf₁⟩ := hinner.rotate
    obtain ⟨h', hrotate, hf'⟩ := (focus_near.1 hf₁).insertOuter
    have hside : RedBlack (.join d.other .red g uncle b) .red n := .join_red huncle hb
    refine ⟨h', p, _, _, ?_, ⟨hf', ColorTree.root_join .., n, _, .join_red hsib ha,
      .black hside hpath⟩, ?_, by simp⟩
    · rw [if_pos hchild]
      simp only [hrotate₁, ok_bind, pure_bind, hrotate]
      rfl
    · exact Path.inorder_plug_congr (inorder_insertInner d p g y sib uncle a b)

/-- The loop of `rb_insert_color` leaves at most the root red. -/
theorem Inserting.insertLoop {t : ColorTree α} {x : α} (hins : Inserting h path t x) :
    ∃ h' t', (∀ fuel, path.length < fuel → h.insertLoop fuel x = .ok h') ∧ Represents h' t' ∧
      t'.inorder = (path.plug t).inorder ∧ ∃ m, RedBlack (t'.paint .black) .black m := by
  -- the path gets shorter in each round
  induction hlen : path.length using Nat.strongRecOn generalizing h path t x with
  | _ len ih =>
    obtain ⟨hf, hroot, n, pc, hred, hexp⟩ := hins
    obtain ⟨y, a, b, rfl, -⟩ := hred.exists_red_root .left
    obtain rfl : y = x := by simpa using hroot
    cases hexp with
    | root n =>
      refine ⟨h, _, fun fuel hfuel => ?_, hf, rfl, n + 1, hred.paint_black⟩
      obtain ⟨fuel, rfl⟩ := Nat.exists_eq_succ_of_ne_zero (Nat.ne_zero_of_lt hfuel)
      simp [RbRoot.insertLoop, hf.node]
    | @black d z sib path _ cs _ hsib hpath =>
      have hz := hf.frame
      dsimp only at hz
      have hexp : Expects (⟨d, .black, z, sib⟩ :: path) .black n := .black hsib hpath
      obtain ⟨m, hm⟩ := hexp.plug hred fun _ => ⟨rfl, List.cons_ne_nil _ _⟩
      refine ⟨h, _, fun fuel hfuel => ?_, focus_iff_represents.1 hf, rfl, m, hm.paint_self⟩
      obtain ⟨fuel, rfl⟩ := Nat.exists_eq_succ_of_ne_zero (Nat.ne_zero_of_lt hfuel)
      simp [RbRoot.insertLoop, hf.node, hz]
    | @red e p sib path _ hsib hpath hne =>
      cases hpath with
      | root => exact absurd rfl hne
      | @black d g uncle path _ cu pc huncle hpath =>
        have hp := hf.frame
        have hg := (focus_near.2 hf).frame
        dsimp only at hp hg
        have hside : (if (h.nodes g).left = some p then Side.left else Side.right) = d := by
          rw [hg, ColorTree.root_join]
          refine RbNode.side_ofSides _ _ _ _ _ fun heq => ?_
          exact (focus_near.2 (focus_near.2 hf)).nodup_join.2.2.2.2 p
            (ColorTree.root_mem (ColorTree.root_join ..)) p (ColorTree.root_mem heq.symm) rfl
        have hins : Inserting h (⟨e, .red, p, sib⟩ :: ⟨d, .black, g, uncle⟩ :: path)
            (.join .left .red y a b) y :=
          ⟨hf, hroot, n, _, hred, .red hsib (.black huncle hpath) hne⟩
        obtain ⟨h₁, x₁, path₁, t₁, hround, hins₁, horder₁, hlen₁⟩ := hins.insertRound
        simp only [List.length_cons] at hlen
        obtain ⟨h', t', hloop, hrep, horder, hm⟩ := ih _ (by omega) hins₁ rfl
        refine ⟨h', t', fun fuel hfuel => ?_, hrep, horder.trans horder₁, hm⟩
        obtain ⟨fuel, rfl⟩ := Nat.exists_eq_succ_of_ne_zero (Nat.ne_zero_of_lt hfuel)
        unfold RbRoot.insertLoop
        simp only [hf.node, RbNode.parent_ofSides, Path.parent_cons, hp,
          RbNode.color_ofSides, if_true, deref_some, ok_bind, hside, hround]
        exact hloop fuel (by omega)

/-- `rb_insert_color` makes a red-black tree. -/
theorem Inserting.rbInsertColor {t : ColorTree α} {x : α} (hins : Inserting h path t x) :
    ∃ h' t', (∀ fuel, path.length < fuel → h.rbInsertColor fuel x = .ok h') ∧ Represents h' t' ∧
      t'.inorder = (path.plug t).inorder ∧ ∃ m, RedBlack t' .black m := by
  obtain ⟨h₁, t₁, hloop, hrep, horder, m, hm⟩ := hins.insertLoop
  have hne : t₁ ≠ .nil := by
    rintro rfl
    have hmem := ((path.inorder_plug_perm t).mem_iff (a := x)).2
      (List.mem_append_left _ (ColorTree.root_mem hins.root))
    rw [← horder] at hmem
    cases hmem
  cases t₁ with
  | nil => exact absurd rfl hne
  | node c l y r =>
    have htop : h₁.rbNode = some y := hrep.above
    refine ⟨_, _, fun fuel hfuel => ?_, Focus.setColor (d := .left) hrep .black, ?_, m, hm⟩
    · unfold RbRoot.rbInsertColor
      rw [hloop fuel hfuel, ok_bind, htop, deref_some, ok_bind]
      rfl
    · exact horder

end AndroidKernel.Rbtree
