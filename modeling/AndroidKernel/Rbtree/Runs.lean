import AndroidKernel.Rbtree.Erase

/-!
# Sequences of insertions and erasures

Read `red_black_tree` first: after any sequence of calls the memory holds a red-black tree, and
every call that may be made returns and changes the order of the tree by its own node only.
-/

namespace AndroidKernel.Rbtree

open Library

universe u

variable {α : Type u} {h : RbRoot α}

/-- Memory holds one tree at most. -/
theorem Rep.unique {nodes : α → RbNode α} {p : Option α} {t t' : ColorTree α} (ht : Rep nodes p t)
    (ht' : Rep nodes p t') (hroot : t.root = t'.root) : t = t' := by
  induction t generalizing p t' with
  | nil => exact (ColorTree.root_eq_none hroot.symm).symm
  | node c l x r ihl ihr =>
    obtain ⟨c', l', r', rfl⟩ := ColorTree.root_eq_some hroot.symm
    obtain ⟨hx, hl, hr⟩ := ht
    obtain ⟨hx', hl', hr'⟩ := ht'
    rw [hx] at hx'
    simp only [RbNode.mk.injEq, true_and] at hx'
    obtain ⟨rfl, hlroot, hrroot⟩ := hx'
    rw [ihl hl hl' hlroot, ihr hr hr' hrroot]

theorem Represents.unique {t t' : ColorTree α} (ht : Represents h t) (ht' : Represents h t') :
    t' = t := by
  have hroot : t'.root = t.root := ht'.above.symm.trans ht.above
  exact ht'.tree.unique ht.tree hroot

/-- The nodes in the tree are those that can be reached. -/
theorem Represents.inTree_iff {t : ColorTree α} (hrep : Represents h t) (x : α) :
    InTree h x ↔ x ∈ t.inorder := by
  constructor
  · intro hx
    induction hx with
    | root hroot => exact ColorTree.root_mem (hrep.above.symm.trans hroot)
    | @child x y d _ hchild ih =>
      obtain ⟨path, c, l, r, rfl⟩ := Path.exists_plug ih
      have hf : Focus h path (.node c l x r) := focus_iff_represents.2 hrep
      rw [(path.inorder_plug_perm _).mem_iff, List.mem_append, ColorTree.inorder, List.mem_append,
        List.mem_cons]
      rw [hf.tree.1] at hchild
      cases d with
      | left => exact .inl (.inl (ColorTree.root_mem hchild))
      | right => exact .inl (.inr (.inr (ColorTree.root_mem hchild)))
  -- every subtree whose root is reached is reached
  have hsub (s : ColorTree α) {p : Option α} (hs : Rep h.nodes p s)
      (hroot : ∀ y, s.root = some y → InTree h y) : ∀ y ∈ s.inorder, InTree h y := by
    induction s generalizing p with
    | nil => exact fun y hy => absurd hy List.not_mem_nil
    | node c l z r ihl ihr =>
      obtain ⟨hz, hl, hr⟩ := hs
      have hzt := hroot z rfl
      intro y hy
      rcases List.mem_append.1 hy with hy | hy
      · exact ihl hl (fun w hw => hzt.child .left (by rw [hz]; exact hw)) y hy
      · rcases List.mem_cons.1 hy with rfl | hy
        · exact hzt
        · exact ihr hr (fun w hw => hzt.child .right (by rw [hz]; exact hw)) y hy
  exact hsub t hrep.tree (fun y hy => .root (Eq.trans hrep.above hy)) x

variable [DecidableEq α]

/-- The list with `x` next to `p`: before it on the left, behind it on the right. -/
def insertBeside (d : Side) (p x : α) : List α → List α
  | [] => []
  | y :: ys =>
    if y = p then
      match d with
      | .left => x :: y :: ys
      | .right => y :: x :: ys
    else y :: insertBeside d p x ys

/-- What a call does to the order. -/
def Op.order (op : Op α) (xs : List α) : List α :=
  match op with
  | .insert x none _ => x :: xs
  | .insert x (some p) d => insertBeside d p x xs
  | .erase x => xs.erase x

/-- The memory holds a red-black tree. -/
def Balanced (h : RbRoot α) : Prop :=
  ∃ t n, Represents h t ∧ RedBlack t .black n

theorem insertBeside_append {d : Side} {p x : α} {before after : List α} (hp : p ∉ before) :
    insertBeside d p x (before ++ p :: after) =
      before ++ (match d with | .left => [x, p] | .right => [p, x]) ++ after := by
  induction before with
  | nil => cases d <;> simp [insertBeside]
  | cons y before ih =>
    simp only [List.mem_cons, not_or] at hp
    have hcons (ys : List α) : insertBeside d p x (y :: ys) = y :: insertBeside d p x ys := by
      simp [insertBeside, Ne.symm hp.1]
    rw [List.cons_append, hcons, ih hp.2]
    rfl

/-- The order with a node linked below `p`. -/
theorem inorder_link {path : Path α} {d : Side} {c : Color} {p x : α} {b : ColorTree α}
    (hnodup : (path.plug (.join d c p .nil b)).inorder.Nodup) :
    (path.plug (.join d c p (.node .red .nil x .nil) b)).inorder =
      insertBeside d p x (path.plug (.join d c p .nil b)).inorder := by
  obtain ⟨before, after, hplug, -⟩ := path.inorder_plug
  rw [hplug, hplug]
  rw [hplug] at hnodup
  cases d with
  | left =>
    have hsplit : before ++ ColorTree.inorder (.join .left c p .nil b) ++ after =
        before ++ p :: (b.inorder ++ after) := by simp [ColorTree.join, ColorTree.inorder]
    rw [hsplit] at hnodup ⊢
    have hp : p ∉ before := fun hmem =>
      (List.nodup_append.1 hnodup).2.2 p hmem p List.mem_cons_self rfl
    rw [insertBeside_append hp]
    simp [ColorTree.join, ColorTree.inorder]
  | right =>
    have hsplit : before ++ ColorTree.inorder (.join .right c p .nil b) ++ after =
        (before ++ b.inorder) ++ p :: after := by simp [ColorTree.join, ColorTree.inorder]
    rw [hsplit] at hnodup ⊢
    have hp : p ∉ before ++ b.inorder := fun hmem =>
      (List.nodup_append.1 hnodup).2.2 p hmem p List.mem_cons_self rfl
    rw [insertBeside_append hp]
    simp [ColorTree.join, ColorTree.inorder]

/-- A node linked at an empty place, and the tree balanced. -/
theorem Focus.insert {path : Path α} {x : α} {d : Side} {n : Nat} (hf : Focus h path .nil)
    (hx : x ∉ path.keys) (hside : ∀ f ∈ path.head?, f.side = d)
    (hrb : RedBlack (path.plug .nil) .black n) :
    ∃ h' t', (∀ fuel, (path.plug .nil).inorder.length < fuel →
        run fuel h (.insert x path.parent d) = .ok h') ∧ Represents h' t' ∧
      t'.inorder = (path.plug (.node .red .nil x .nil)).inorder ∧ ∃ m, RedBlack t' .black m := by
  obtain ⟨pc, m, hexp, hnil, -⟩ := Expects.of_plug hrb
  cases hnil
  have hins : Inserting (h.rbLinkNode x path.parent d) path (.node .red .nil x .nil) x :=
    ⟨hf.link hx hside, rfl, 0, pc, .red .nil .nil, hexp⟩
  obtain ⟨h', t', hrun, hrep, horder, hm⟩ := hins.rbInsertColor
  refine ⟨h', t', fun fuel hfuel => hrun fuel (Nat.lt_of_le_of_lt ?_ hfuel), hrep, horder, hm⟩
  rw [(Path.inorder_plug_perm _ _).length_eq]
  exact Path.length_le_keys path

/-- A call that may be made returns, with the tree balanced and the order as it should be. -/
theorem Represents.run {t : ColorTree α} {n : Nat} (hrep : Represents h t)
    (hrb : RedBlack t .black n) {op : Op α} (hen : enabled h op) :
    ∃ h' t', (∀ fuel, t.inorder.length < fuel → run fuel h op = .ok h') ∧ Represents h' t' ∧
      t'.inorder = op.order t.inorder ∧ ∃ m, RedBlack t' .black m := by
  cases op with
  | erase x => exact hrep.rbErase hrb ((hrep.inTree_iff x).1 hen)
  | insert x parent d =>
    cases parent with
    | none =>
      obtain ⟨-, hempty⟩ := hen
      obtain rfl := ColorTree.root_eq_none (hrep.above.symm.trans hempty)
      have hfocus : Focus h ([] : Path α) .nil := hrep
      exact hfocus.insert nofun nofun hrb
    | some p =>
      obtain ⟨hx, hp, hchild⟩ := hen
      rw [hrep.inTree_iff] at hx hp
      obtain ⟨path, c, l, r, rfl⟩ := Path.exists_plug hp
      obtain ⟨a, b, hjoin⟩ := ColorTree.exists_join d c l p r
      rw [hjoin] at hrep hrb hx ⊢
      have hf : Focus h path (.join d c p a b) := focus_iff_represents.2 hrep
      rw [hf.node, RbNode.child_ofSides] at hchild
      obtain rfl := ColorTree.root_eq_none hchild
      have hfn := focus_near.1 hf
      have hxk : x ∉ Path.keys (⟨d, c, p, b⟩ :: path) := fun hmem => hx <| by
        have hperm := Path.inorder_plug_perm (⟨d, c, p, b⟩ :: path) .nil
        exact hperm.mem_iff.2 (List.mem_append_right _ hmem)
      obtain ⟨h', t', hrun, hrep', horder, hm⟩ := hfn.insert (d := d) hxk (by simp) hrb
      exact ⟨h', t', hrun, hrep', horder.trans (inorder_link hf.nodup_plug), hm⟩

theorem Balanced.step {h' : RbRoot α} {op : Op α} (hb : Balanced h) (hstep : Step h op h') :
    Balanced h' := by
  obtain ⟨t, n, hrep, hrb⟩ := hb
  obtain ⟨hen, bound, hbound⟩ := hstep
  obtain ⟨h₁, t₁, hrun, hrep₁, -, m, hm⟩ := hrep.run hrb hen
  have hsame := (hbound (bound + t.inorder.length + 1) (by omega)).symm.trans
    (hrun (bound + t.inorder.length + 1) (by omega))
  obtain rfl : h' = h₁ := Except.ok.inj hsame
  exact ⟨t₁, m, hrep₁, hm⟩

/-- After any sequence of calls that starts with an empty tree, the memory holds one tree, whose
nodes are those that can be reached from the root and which is a red-black tree with a black
root. Every call that may be made then returns, whatever was in memory at first; the tree it
leaves has the old order with the new node beside its parent, or without the erased node. -/
theorem red_black_tree (nodes : α → RbNode α) {h : RbRoot α}
    (hrun : Reaches Step anyStep ⟨nodes, none⟩ h) :
    ∃ t, (Represents h t ∧ ∀ t', Represents h t' → t' = t) ∧ (∀ x, InTree h x ↔ x ∈ t.inorder) ∧
      (∃ n, RedBlack t .black n) ∧
      ∀ op, enabled h op → ∃ h' t', Step h op h' ∧ Represents h' t' ∧
        t'.inorder = op.order t.inorder ∧ ∃ n, RedBlack t' .black n := by
  have hinit : Balanced (⟨nodes, none⟩ : RbRoot α) :=
    ⟨.nil, 0, ⟨trivial, rfl, List.nodup_nil⟩, .nil⟩
  obtain ⟨t, n, hrep, hrb⟩ := hrun.invariant Balanced (fun s op t hs _ => hs.step) hinit
  refine ⟨t, ⟨hrep, fun t' => hrep.unique⟩, hrep.inTree_iff, ⟨n, hrb⟩, fun op hen => ?_⟩
  obtain ⟨h', t', hrun, hrest⟩ := hrep.run hrb hen
  exact ⟨h', t', ⟨hen, t.inorder.length + 1, fun fuel hfuel => hrun fuel hfuel⟩, hrest⟩

/-- Memory with no tree in it. -/
def emptyRoot : RbRoot Nat :=
  ⟨fun _ => ⟨none, .red, none, none⟩, none⟩

/-- One node with another on its right. -/
def twoNodes : RbRoot Nat :=
  (emptyRoot.rbLinkNode 3 none .left).setColor 3 .black |>.rbLinkNode 5 (some 3) .right

theorem reaches_twoNodes : Reaches Step anyStep emptyRoot (twoNodes.setColor 3 .black) := by
  have hfirst : Step emptyRoot (.insert 3 none .left)
      ((emptyRoot.rbLinkNode 3 none .left).setColor 3 .black) := by
    refine ⟨⟨fun hin => ?_, rfl⟩, 1, fun fuel hfuel => ?_⟩
    · cases hin with
      | root hroot => cases hroot
      | child d hx hchild => cases d <;> cases hchild
    · obtain ⟨fuel, rfl⟩ := Nat.exists_eq_succ_of_ne_zero (Nat.ne_of_gt hfuel)
      rfl
  have hsecond : Step ((emptyRoot.rbLinkNode 3 none .left).setColor 3 .black)
      (.insert 5 (some 3) .right) (twoNodes.setColor 3 .black) := by
    refine ⟨⟨fun hin => ?_, .root rfl, rfl⟩, 1, fun fuel hfuel => ?_⟩
    · have hkeys {x : Nat} (hx : InTree
          ((emptyRoot.rbLinkNode 3 none .left).setColor 3 .black) x) : x = 3 := by
        induction hx with
        | root hroot => exact (Option.some.inj hroot).symm
        | child d _ hchild ih =>
          subst ih
          cases d <;> cases hchild
      exact absurd (hkeys hin) (by decide)
    · obtain ⟨fuel, rfl⟩ := Nat.exists_eq_succ_of_ne_zero (Nat.ne_of_gt hfuel)
      rfl
  exact ((Reaches.refl emptyRoot).tail hfirst trivial).tail hsecond trivial

theorem red_black_tree_twoNodes :
    ∃ t, (Represents (twoNodes.setColor 3 .black) t ∧
        ∀ t', Represents (twoNodes.setColor 3 .black) t' → t' = t) ∧
      (∀ x, InTree (twoNodes.setColor 3 .black) x ↔ x ∈ t.inorder) ∧
      (∃ n, RedBlack t .black n) ∧
      ∀ op, enabled (twoNodes.setColor 3 .black) op →
        ∃ h' t', Step (twoNodes.setColor 3 .black) op h' ∧ Represents h' t' ∧
          t'.inorder = op.order t.inorder ∧ ∃ n, RedBlack t' .black n :=
  red_black_tree emptyRoot.nodes reaches_twoNodes

/-! ## Walks -/

variable {path : Path α} {t : ColorTree α} {x : α} {fuel : Nat} {d : Side}

/-- The loop down finds where a subtree begins. -/
theorem Rep.descend {p : Option α} (ht : Rep h.nodes p t) (hroot : t.root = some x)
    (hfuel : t.height ≤ fuel) (after : List α) :
    h.descend d.other fuel x = .ok (t.towards d ++ after).head? := by
  obtain ⟨c, l, r, rfl⟩ := ColorTree.root_eq_some hroot
  cases hroot
  induction fuel generalizing p c l x r after with
  | zero => cases hfuel
  | succ fuel ih =>
    obtain ⟨a, b, hjoin⟩ := ColorTree.exists_join d c l x r
    rw [hjoin] at ht hfuel ⊢
    obtain ⟨hx, -, hb⟩ := rep_join.1 ht
    rw [ColorTree.height_join] at hfuel
    rw [RbRoot.descend, hx, RbNode.child_other_ofSides, ColorTree.towards_join, List.append_assoc]
    cases b with
    | nil => cases d <;> rfl
    | node => exact ih _ _ _ _ hb (by omega)

/-- The loop up finds what comes after a subtree. -/
theorem Focus.climb {e : Side} {c : Color} {a b : ColorTree α} (d : Side)
    (hf : Focus h path (.join e c x a b)) (hfuel : path.length < fuel) :
    ∃ before after, (path.plug (.join e c x a b)).towards d =
      before ++ ColorTree.towards (.join e c x a b) d ++ after ∧
      h.climb d fuel x = .ok after.head? := by
  induction fuel generalizing path e c x a b with
  | zero => exact absurd hfuel (Nat.not_lt_zero _)
  | succ fuel ih =>
    rw [RbRoot.climb, hf.node, RbNode.parent_ofSides]
    cases path with
    | nil => exact ⟨[], [], by simp, rfl⟩
    | cons f path =>
      have hup := focus_near.2 hf
      obtain ⟨before, after, hseq, hclimb⟩ := ih hup (Nat.lt_of_succ_lt_succ hfuel)
      have hnode := hf.frame
      obtain ⟨d', c', y, sib⟩ := f
      dsimp only [Path.parent_cons] at *
      rw [Path.plug_cons, hseq, hnode, ColorTree.root_join]
      rcases Side.eq_or_eq_other d d' with rfl | rfl
      · refine ⟨before ++ sib.towards d' ++ [y], after, by simp [ColorTree.towards_join], ?_⟩
        rw [RbNode.child_ofSides, if_pos rfl]
        exact hclimb
      · refine ⟨before, y :: (sib.towards d ++ after), ?_, ?_⟩
        · simp [ColorTree.join_other d, ColorTree.towards_join]
        · rw [RbNode.ofSides_other, RbNode.child_ofSides, if_neg fun hsib =>
            hup.nodup_join.2.2.2.2 x (ColorTree.root_mem (ColorTree.root_join ..)) x
              (ColorTree.root_mem hsib) rfl]
          rfl

theorem Focus.neighbour {c : Color} {a b : ColorTree α} (hf : Focus h path (.join d c x a b))
    (hfuel : (path.plug (.join d c x a b)).height ≤ fuel) :
    ∃ before after, (path.plug (.join d c x a b)).towards d = before ++ x :: after ∧
      h.neighbour d fuel x = .ok after.head? := by
  have hlen := path.length_add_height_le (.join d c x a b)
  rw [ColorTree.height_join] at hlen
  obtain ⟨before, after, hseq, hclimb⟩ := hf.climb d (show path.length < fuel by omega)
  refine ⟨before ++ b.towards d, a.towards d ++ after, by simp [hseq, ColorTree.towards_join], ?_⟩
  rw [RbRoot.neighbour, hf.node, RbNode.parent_ofSides, RbNode.child_ofSides,
    if_neg (parent_ne_of_not_mem hf.not_mem_keys.1)]
  cases a with
  | nil => cases d <;> exact hclimb
  | node => exact (rep_join.1 hf.tree).2.1.descend rfl (by omega) after

/-- After any sequence of calls that starts with an empty tree, the walks follow the order of the
tree, each in a number of rounds that is logarithmic in its size. -/
theorem rb_walk (nodes : α → RbNode α) {h : RbRoot α}
    (hrun : Reaches Step anyStep ⟨nodes, none⟩ h) :
    ∃ t, Represents h t ∧ (∀ x, InTree h x ↔ x ∈ t.inorder) ∧
      ∀ fuel, 2 * Nat.log2 (t.inorder.length + 1) ≤ fuel →
        h.rbFirst fuel = .ok t.inorder.head? ∧ h.rbLast fuel = .ok t.inorder.getLast? ∧
        ∀ before x after, t.inorder = before ++ x :: after →
          h.rbNext fuel x = .ok after.head? ∧ h.rbPrev fuel x = .ok before.getLast? := by
  have hinit : Balanced (⟨nodes, none⟩ : RbRoot α) :=
    ⟨.nil, 0, ⟨trivial, rfl, List.nodup_nil⟩, .nil⟩
  obtain ⟨t, n, hrep, hrb⟩ := hrun.invariant Balanced (fun s op t hs _ => hs.step) hinit
  refine ⟨t, hrep, hrep.inTree_iff, fun fuel hfuel => ?_⟩
  obtain ⟨hfull, hheight⟩ := hrb.height_le
  have hn : n ≤ Nat.log2 (t.inorder.length + 1) := (Nat.le_log2 (Nat.succ_ne_zero _)).mpr hfull
  have hle : t.height ≤ fuel := Nat.le_trans hheight (by simp; omega)
  have hend (d : Side) : h.extreme d.other fuel = .ok (t.towards d).head? := by
    rw [RbRoot.extreme, hrep.above]
    cases t with
    | nil => cases d <;> rfl
    | node =>
      rw [← List.append_nil (ColorTree.towards _ d)]
      exact hrep.tree.descend rfl hle []
  have hnext (d : Side) {before after : List α} {x : α}
      (hsplit : t.towards d = before ++ x :: after) : h.neighbour d fuel x = .ok after.head? := by
    have hperm : (t.towards d).Perm t.inorder := by cases d <;> simp [ColorTree.towards]
    have hnodup := hperm.nodup_iff.mpr hrep.nodup_tree
    rw [hsplit] at hperm hnodup
    have hx := (List.nodup_cons.mp (List.nodup_middle.mp hnodup)).1
    obtain ⟨path, c, l, r, rfl⟩ := Path.exists_plug (hperm.mem_iff.mp List.mem_append_cons_self)
    obtain ⟨a, b, hjoin⟩ := ColorTree.exists_join d c l x r
    rw [hjoin] at hrep hle hsplit
    obtain ⟨before', after', hsplit', hnext⟩ := (focus_iff_represents.2 hrep).neighbour hle
    obtain ⟨-, -, rfl⟩ := (List.append_cons_inj_of_notMem
      (fun h => hx (List.mem_append_left _ h)) fun h => hx (List.mem_append_right _ h)).mp
        (hsplit.symm.trans hsplit')
    exact hnext
  refine ⟨hend .right, ?_, fun before x after hsplit => ⟨hnext .right hsplit, ?_⟩⟩
  · rw [← List.head?_reverse]
    exact hend .left
  · have hflip : t.towards .left = after.reverse ++ x :: before.reverse := by
      simp [ColorTree.towards, hsplit]
    rw [← List.head?_reverse]
    exact hnext .left hflip

theorem rb_walk_twoNodes : ∃ t, Represents (twoNodes.setColor 3 .black) t ∧
    ∀ fuel, 2 * Nat.log2 (t.inorder.length + 1) ≤ fuel →
      (twoNodes.setColor 3 .black).rbFirst fuel = .ok t.inorder.head? := by
  obtain ⟨t, hrep, -, hwalk⟩ := rb_walk emptyRoot.nodes reaches_twoNodes
  exact ⟨t, hrep, fun fuel hfuel => (hwalk fuel hfuel).1⟩

end AndroidKernel.Rbtree
