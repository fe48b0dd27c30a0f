import AndroidKernel.Rbtree.Heap

/-!
# Erasure

`rb_erase` cuts a node out, or its successor if it has two children, and `__rb_erase_color`
makes up for the black node that a path has lost.
-/

namespace AndroidKernel.Rbtree

open Library

universe u

variable {α : Type u} {h : RbRoot α} {path : Path α}

theorem Focus.nodup_plug {t : ColorTree α} (hf : Focus h path t) : (path.plug t).inorder.Nodup :=
  (path.inorder_plug_perm t).nodup_iff.2 hf.nodup

variable [DecidableEq α]

/-- The black tree at the end of `path` lacks one black node. -/
structure Short (h : RbRoot α) (path : Path α) (t : ColorTree α) : Prop where
  focus : Focus h path t
  balance : ∃ n pc, RedBlack t .black n ∧ Expects path pc (n + 1)

/-- The red node at the end of `path` has to be black. -/
structure Blackens (h : RbRoot α) (path : Path α) (t : ColorTree α) : Prop where
  focus : Focus h path t
  red : t.color = .red
  balance : ∃ n pc, RedBlack (t.paint .black) .black n ∧ Expects path pc n

/-- A red sibling is rotated above the parent, which becomes red. -/
theorem Focus.eraseRedSibling {d : Side} {c pc : Color} {p : α} {sib t : ColorTree α} {n : Nat}
    (hf : Focus h (⟨d, c, p, sib⟩ :: path) t)
    (hexp : Expects (⟨d, c, p, sib⟩ :: path) pc (n + 1)) :
    ∃ h' s c' u v path' pc', h.eraseRedSibling d p = .ok (h', s) ∧
      Focus h' (⟨d, c', p, .join d .black s u v⟩ :: path') t ∧
      Expects (⟨d, c', p, .join d .black s u v⟩ :: path') pc' (n + 1) ∧
      (Path.plug path' (.join d c' p t (.join d .black s u v))).inorder =
        (path.plug (.join d c p t sib)).inorder ∧ (c' = .black → path' = path) := by
  have hp := hf.frame
  have hsibf := focus_far.1 (focus_near.2 hf)
  have hblack {s : α} {u v : ColorTree α} (hsib : sib = .join d .black s u v) :
      h.eraseRedSibling d p = .ok (h, s) := by
    subst hsib
    unfold RbRoot.eraseRedSibling
    simp [hp, hsibf.node]
    rfl
  cases hexp with
  | red hsib hpath hne =>
    obtain ⟨s, u, v, rfl⟩ := hsib.exists_root d
    exact ⟨h, s, .red, u, v, path, _, hblack rfl, hf, .red hsib hpath hne, rfl, nofun⟩
  | @black _ _ _ _ _ cs _ hsib hpath =>
    obtain ⟨s, u, v, rfl⟩ := hsib.exists_root d
    cases cs with
    | black =>
      exact ⟨h, s, .black, u, v, path, _, hblack rfl, hf, .black hsib hpath, rfl,
        fun _ => rfl⟩
    | red =>
      obtain ⟨-, hu, hv⟩ := hsib.of_join_red
      obtain ⟨s', u', v', rfl⟩ := hu.exists_root d
      have hs := (focus_far.2 (hsibf.setColor .black))
      have hps := hs.setColor .red
      obtain ⟨h', hrotate, hf'⟩ := hps.rotate
      have hf'' := focus_near.1 (focus_near.1 hf')
      refine ⟨h', s', .red, u', v', _, _, ?_, hf'', .red hu (.black hv hpath)
        (List.cons_ne_nil _ _), ?_, nofun⟩
      · have hp' := hf''.frame
        unfold RbRoot.eraseRedSibling
        simp [hp, hsibf.node, hrotate, hp']
      · exact Path.inorder_plug_congr (ColorTree.inorder_rotate ..)

/-- The rotation that ends the loop. -/
theorem Focus.eraseOuter {d : Side} {c cs : Color} {p s : α} {u v t : ColorTree α}
    (hf : Focus h (⟨d, c, p, .join d cs s u v⟩ :: path) t) :
    ∃ h', (((h.setColor s (h.nodes p).color).setColor p .black).setBlackIf
        ((((h.setColor s (h.nodes p).color).setColor p .black).nodes s).child d.other)).rotate d p =
          .ok h' ∧ Focus h' path (.join d c s (.join d .black p t u) (v.paint .black)) := by
  have hc : (h.nodes p).color = c := by
    rw [hf.frame, RbNode.color_ofSides]
  have hs := (focus_far.1 (focus_near.2 hf)).setColor c
  have hp := (focus_far.2 hs).setColor .black
  have hv := (focus_far.1 (focus_far.1 hp)).setBlackIf
  rw [hc, (focus_far.1 hp).node, RbNode.child_other_ofSides]
  exact (focus_far.2 (focus_far.2 hv)).rotate

/-- The last part of a round: a sibling with a red child is rotated above the parent. -/
theorem Focus.eraseRotate {d : Side} {c pc : Color} {p s : α} {u v t : ColorTree α} {n : Nat}
    (hf : Focus h (⟨d, c, p, .join d .black s u v⟩ :: path) t) (ht : RedBlack t .black n)
    (hexp : Expects (⟨d, c, p, .join d .black s u v⟩ :: path) pc (n + 1))
    (hred : ¬ (u.color = .black ∧ v.color = .black)) :
    ∃ h' t', h.eraseRotate d p s = .ok h' ∧ Focus h' path t' ∧
      t'.inorder = (ColorTree.join d c p t (.join d .black s u v)).inorder ∧
      ∃ m, RedBlack (path.plug t') .black m := by
  have hjoin {x : α} {a b : ColorTree α} (ha : RedBlack a .black (n + 1))
      (hb : RedBlack b .black (n + 1)) : ∃ m, RedBlack (path.plug (.join d c x a b)) .black m := by
    cases hexp with
    | red hsib hpath hne => exact hpath.plug (.join_red ha hb) fun _ => ⟨rfl, hne⟩
    | black hsib hpath => exact hpath.plug (.join_black ha hb) nofun
  obtain ⟨hu, hv⟩ : RedBlack u u.color n ∧ RedBlack v v.color n := by
    obtain ⟨cs, hsib⟩ := hexp.sibling
    obtain ⟨-, m, hm, huv⟩ := hsib.of_join_black
    obtain rfl : n = m := by omega
    exact huv
  have hsf := focus_far.1 (focus_near.2 hf)
  have hvb := (focus_far.1 hsf).isBlack
  unfold RbRoot.eraseRotate
  simp only [hsf.node, RbNode.child_other_ofSides, RbNode.child_ofSides, hvb]
  cases hcv : v.color with
  | red =>
    obtain ⟨h', hrotate, hf'⟩ := hf.eraseOuter
    refine ⟨h', _, ?_, hf', ?_, hjoin (.join_black ht hu) (hcv ▸ hv).paint_black⟩
    · simpa using hrotate
    · rw [ColorTree.inorder_rotate d c .black c .black]
      exact ColorTree.inorder_join_congr d _ _ _ rfl
        (ColorTree.inorder_join_congr d _ _ _ rfl (ColorTree.inorder_paint ..))
  | black =>
    -- the red child is the inner one; it becomes the sibling, with the old one outside
    have hcu : u.color = .red := by
      cases hcu : u.color with
      | red => rfl
      | black => exact absurd ⟨hcu, hcv⟩ hred
    obtain ⟨w, a, b, rfl, ha, hb⟩ := (hcu ▸ hu).exists_red_root d
    have hw := focus_near.2 (focus_near.1 hsf).setBlackIf
    have hs := hw.setColor .red
    rw [ColorTree.paint_join, ← ColorTree.join_other d .red s, ← ColorTree.join_other d .black w] at hs
    obtain ⟨h₁, hrotate₁, hf₁⟩ := hs.rotate
    rw [ColorTree.join_other, ← focus_far, focus_near] at hf₁
    have hp₁ := hf₁.frame
    obtain ⟨h', hrotate, hf'⟩ := hf₁.eraseOuter
    have hfar : RedBlack ((ColorTree.join d.other .red s v b).paint .black) .black (n + 1) := by
      rw [ColorTree.paint_join]
      exact .join_black hv hb
    refine ⟨h', _, ?_, hf', ?_, hjoin (.join_black ht ha) hfar⟩
    · rw [ColorTree.root_join] at hrotate₁
      simpa [hrotate₁, hp₁] using hrotate
    · cases d <;> simp [ColorTree.join, ColorTree.inorder, ColorTree.paint, Side.other]

/-- A round of `__rb_erase_color`: the loop ends with a red-black tree, or it goes on at the
parent, which lacks a black node in its turn or is red. -/
theorem Short.eraseRound {d : Side} {c : Color} {p : α} {sib t : ColorTree α}
    (hshort : Short h (⟨d, c, p, sib⟩ :: path) t) :
    ∃ h' again path' t', h.eraseRound d p = .ok (h', again) ∧
      (Path.plug path' t').inorder = (path.plug (.join d c p t sib)).inorder ∧
      ((again = true ∧ t'.root = some p ∧
        (Blackens h' path' t' ∨ Short h' path' t' ∧ path' = path)) ∨
      (again = false ∧ Represents h' t' ∧ path' = [] ∧ ∃ m, RedBlack t' .black m)) := by
  obtain ⟨hf, n, pc, ht, hexp⟩ := hshort
  obtain ⟨h₁, s, c₁, u, v, path₁, pc₁, hsib, hf₁, hexp₁, horder, hsame⟩ := hf.eraseRedSibling hexp
  have hsf := focus_far.1 (focus_near.2 hf₁)
  have hu := (focus_near.1 hsf).isBlack
  have hv := (focus_far.1 hsf).isBlack
  have htest : (h₁.isBlack (h₁.nodes s).left && h₁.isBlack (h₁.nodes s).right) =
      decide (u.color = .black ∧ v.color = .black) := by
    rw [hsf.node, Bool.decide_and, ← hu, ← hv]
    cases d with
    | left => rfl
    | right => exact Bool.and_comm ..
  unfold RbRoot.eraseRound
  rw [hsib]
  simp only [ok_bind, htest]
  by_cases hblack : u.color = .black ∧ v.color = .black
  · have hred := focus_far.2 (hsf.setColor .red)
    obtain ⟨cs, hsib⟩ := hexp₁.sibling
    obtain ⟨-, m, hm, hur, hvr⟩ := hsib.of_join_black
    obtain rfl : n = m := by omega
    rw [hblack.1] at hur
    rw [hblack.2] at hvr
    have hkeep : (Path.plug path₁ (.join d c₁ p t (.join d .red s u v))).inorder =
        (path.plug (.join d c p t sib)).inorder :=
      (Path.inorder_plug_congr (ColorTree.inorder_join_congr d c₁ c₁ p rfl
        (ColorTree.inorder_join_congr d .red .black s rfl rfl))).trans horder
    refine ⟨_, true, path₁, _, by simp [hblack]; rfl, hkeep, .inl ⟨rfl, ColorTree.root_join .., ?_⟩⟩
    cases hexp₁ with
    | red _ hpath hne =>
      refine .inl ⟨hred, ColorTree.color_join .., n + 1, _, ?_, hpath⟩
      rw [ColorTree.paint_join]
      exact .join_black ht (.join_red hur hvr)
    | black _ hpath =>
      refine .inr ⟨⟨hred, n + 1, _, ?_, hpath⟩, hsame rfl⟩
      exact .join_black ht (.join_red hur hvr)
  · obtain ⟨h', t', hrotate, hf', horder', m, hm⟩ := hf₁.eraseRotate ht hexp₁ hblack
    refine ⟨h', false, [], _, ?_, ?_, .inr ⟨rfl, focus_iff_represents.1 hf', rfl, m, hm⟩⟩
    · simp [hblack, hrotate]
    · exact (Path.inorder_plug_congr horder').trans horder

/-- At a red node the loop ends. -/
theorem Blackens.eraseLoop {t : ColorTree α} (hb : Blackens h path t) (parent : Option α) {fuel : Nat}
    (hfuel : 0 < fuel) : h.eraseLoop fuel t.root parent = .ok (h, t.root) := by
  obtain ⟨fuel, rfl⟩ := Nat.exists_eq_succ_of_ne_zero (Nat.ne_of_gt hfuel)
  have hblack := hb.focus.isBlack
  rw [hb.red] at hblack
  simp [RbRoot.eraseLoop, hblack]

/-- What the loop of `__rb_erase_color` leaves: painting the node it ends at is all that is
missing. -/
theorem Short.eraseLoop {t : ColorTree α} (hshort : Short h path t) :
    ∃ h' path' t', (∀ fuel, path.length < fuel →
        h.eraseLoop fuel t.root path.parent = .ok (h', t'.root)) ∧ Focus h' path' t' ∧
      (Path.plug path' t').inorder = (path.plug t).inorder ∧
      ∃ m, RedBlack (Path.plug path' (t'.paint .black)) .black m := by
  induction hlen : path.length using Nat.strongRecOn generalizing h path t with
  | _ len ih =>
    have hblack := hshort.focus.isBlack
    obtain ⟨n, pc, ht, hexp⟩ := hshort.balance
    rw [ht.color_eq] at hblack
    cases path with
    | nil =>
      have htop : h.rbNode = t.root := hshort.focus.above
      refine ⟨h, [], t, fun fuel hfuel => ?_, hshort.focus, rfl, n, ht.paint_self⟩
      obtain ⟨fuel, rfl⟩ := Nat.exists_eq_succ_of_ne_zero (Nat.ne_zero_of_lt hfuel)
      simp [RbRoot.eraseLoop, htop]
    | cons f path =>
      obtain ⟨d, c, p, sib⟩ := f
      have hp := hshort.focus.frame
      have htop : t.root ≠ h.rbNode := by
        obtain ⟨x, hx, heq⟩ := hshort.focus.above.root_mem (List.cons_ne_nil _ _)
        rw [heq]
        exact fun hroot => hshort.focus.disjoint (ColorTree.root_mem hroot) hx rfl
      have hside : (if (h.nodes p).left = t.root then Side.left else Side.right) = d := by
        rw [hp]
        obtain ⟨cs, hsib⟩ := hexp.sibling
        obtain ⟨s, u, v, rfl⟩ := hsib.exists_root d
        refine RbNode.side_ofSides _ _ _ _ _ fun heq => ?_
        rw [ColorTree.root_join] at heq
        exact (focus_near.2 hshort.focus).nodup_join.2.2.2.2 s (ColorTree.root_mem heq) s
          (ColorTree.root_mem (ColorTree.root_join ..)) rfl
      obtain ⟨h₁, again, path₁, t₁, hround, horder, hnext⟩ := hshort.eraseRound
      have hstep (fuel : Nat) : h.eraseLoop (fuel + 1) t.root
          (Path.parent (⟨d, c, p, sib⟩ :: path)) =
          if again then h₁.eraseLoop fuel (some p) (h₁.nodes p).parent
          else .ok (h₁, h₁.rbNode) := by
        rw [RbRoot.eraseLoop]
        simp only [hblack, Path.parent_cons, deref_some, ok_bind, hside, hround]
        simp only [ne_eq, htop, not_false_eq_true, decide_true, Bool.and_self, if_true]
        cases again <;> rfl
      rcases hnext with ⟨rfl, hroot, hb | ⟨hshort₁, rfl⟩⟩ | ⟨rfl, hrep, rfl, m, hm⟩
      · obtain ⟨m, pc₁, ht₁, hexp₁⟩ := hb.balance
        refine ⟨h₁, path₁, t₁, fun fuel hfuel => ?_, hb.focus, horder,
          hexp₁.plug ht₁ nofun⟩
        obtain ⟨fuel, rfl⟩ := Nat.exists_eq_succ_of_ne_zero (Nat.ne_zero_of_lt hfuel)
        simp only [List.length_cons] at hlen
        rw [Nat.succ_eq_add_one, hstep, if_pos rfl, ← hroot]
        exact hb.eraseLoop _ (by omega)
      · have hparent : (h₁.nodes p).parent = Path.parent path₁ := by
          obtain ⟨c₁, l, r, rfl⟩ := ColorTree.root_eq_some hroot
          rw [hshort₁.focus.tree.1]
        simp only [List.length_cons] at hlen
        obtain ⟨h', path', t', hloop, hf', horder', hm⟩ := ih path₁.length (by omega) hshort₁ rfl
        refine ⟨h', path', t', fun fuel hfuel => ?_, hf', horder'.trans horder, hm⟩
        obtain ⟨fuel, rfl⟩ := Nat.exists_eq_succ_of_ne_zero (Nat.ne_zero_of_lt hfuel)
        rw [Nat.succ_eq_add_one, hstep, if_pos rfl, hparent, ← hroot]
        exact hloop fuel (by omega)
      · have htop₁ : h₁.rbNode = t₁.root := hrep.above
        refine ⟨h₁, [], t₁, fun fuel hfuel => ?_, hrep, horder, m, hm.paint_self⟩
        obtain ⟨fuel, rfl⟩ := Nat.exists_eq_succ_of_ne_zero (Nat.ne_zero_of_lt hfuel)
        rw [Nat.succ_eq_add_one, hstep, if_neg Bool.false_ne_true, htop₁]

/-- `__rb_erase_color` makes a red-black tree of one that lacks a black node. -/
theorem Focus.rbEraseColor {t : ColorTree α} {n : Nat} {pc : Color} (hf : Focus h path t)
    (ht : RedBlack t t.color n) (hexp : Expects path pc (n + 1)) :
    ∃ h' t', (∀ fuel, path.length < fuel →
        h.rbEraseColor fuel t.root path.parent = .ok h') ∧ Represents h' t' ∧
      t'.inorder = (path.plug t).inorder ∧ ∃ m, RedBlack t' .black m := by
  obtain ⟨h₁, path₁, t₁, hloop, hf₁, horder, m, hm⟩ : ∃ h₁ path₁ t₁, (∀ fuel,
      path.length < fuel → h.eraseLoop fuel t.root path.parent = .ok (h₁, t₁.root)) ∧
      Focus h₁ path₁ t₁ ∧ (Path.plug path₁ t₁).inorder = (path.plug t).inorder ∧
      ∃ m, RedBlack (Path.plug path₁ (t₁.paint .black)) .black m := by
    cases hc : t.color with
    | black => exact Short.eraseLoop ⟨hf, n, pc, hc ▸ ht, hexp⟩
    | red =>
      rw [hc] at ht
      refine ⟨h, path, t, fun fuel hfuel => ?_, hf, rfl, hexp.plug ht.paint_black nofun⟩
      exact Blackens.eraseLoop ⟨hf, hc, n + 1, pc, ht.paint_black, hexp⟩ _
        (Nat.lt_of_le_of_lt (Nat.zero_le _) hfuel)
  refine ⟨_, _, fun fuel hfuel => ?_, focus_iff_represents.1 hf₁.setBlackIf, ?_, m, hm⟩
  · unfold RbRoot.rbEraseColor
    rw [hloop fuel hfuel, ok_bind]
    rfl
  · exact (Path.inorder_plug_congr (ColorTree.inorder_paint ..)).trans horder

/-- The end of `rb_erase`, after a node of colour `c` has been cut out. -/
theorem Focus.eraseFinish {x : α} {d : Side} {c pc : Color} {t : ColorTree α} {n : Nat}
    (hf : Focus h path t) (ht : RedBlack (.join d c x t .nil) c n) (hexp : Expects path pc n) :
    ∃ h' t', (∀ fuel, path.length < fuel →
        h.eraseFinish fuel c t.root path.parent = .ok h') ∧ Represents h' t' ∧
      t'.inorder = (path.plug t).inorder ∧ ∃ m, RedBlack t' .black m := by
  cases c with
  | red =>
    obtain ⟨-, ht, -⟩ := ht.of_join_red
    exact ⟨h, _, fun fuel hfuel => rfl, focus_iff_represents.1 hf, rfl, hexp.plug ht nofun⟩
  | black =>
    obtain ⟨-, n, rfl, ht, -⟩ := ht.of_join_black
    exact hf.rbEraseColor ht hexp

/-- Cutting out a node that has one child at most. -/
theorem Focus.splice {d : Side} {c : Color} {x : α} {t : ColorTree α}
    (hf : Focus h path (.join d c x t .nil)) :
    Focus ((h.setParentIf t.root path.parent).replaceChild .left path.parent x t.root) path t := by
  obtain ⟨hxp, htp, -⟩ := hf.not_mem_keys
  obtain ⟨-, ht, -⟩ := rep_join.1 hf.tree
  have habove := hf.above
  rw [ColorTree.root_join] at habove
  have hnodup := (List.nodup_append.1 hf.nodup).2.1
  have htn := hf.nodup_join.1
  have hctx : Context (h.setParentIf t.root path.parent) path (some x) :=
    habove.congr (by simp) fun y hy =>
      h.setParentIf_nodes_of_ne _ fun hroot => htp y (ColorTree.root_mem hroot) hy
  refine ⟨?_, hctx.replaceChild hxp hnodup .left t.root, ?_⟩
  · exact (ht.setParentIf htn path.parent).congr fun y hy =>
      RbRoot.replaceChild_nodes_of_ne _ _ _ _ (parent_ne_of_not_mem (htp y hy))
  · exact List.nodup_append.2 ⟨htn, hnodup, fun y hy z hz heq => htp y hy (heq ▸ hz)⟩

/-- Another node in place of the one at the focus, with the same subtrees. -/
theorem Focus.replaceKey {c : Color} {x y : α} {l r : ColorTree α}
    (hf : Focus h path (.node c l x r)) (hy : y ∉ (path.plug (.node c l x r)).inorder) :
    Focus ((((h.modify y fun _ => h.nodes x).replaceChild .left path.parent x
      (some y)).setParentIf l.root (some y)).setParentIf r.root (some y)) path
        (.node c l y r) := by
  have hjoin : Focus h path (.join .left c x l r) := hf
  obtain ⟨hln, hrn, hxl, hxr, hlr⟩ := hjoin.nodup_join
  obtain ⟨hxp, hlp, hrp⟩ := hjoin.not_mem_keys
  obtain ⟨hx, hl, hr⟩ := hf.tree
  have hnodup := (List.nodup_append.1 hf.nodup).2.1
  have hperm := (path.inorder_plug_perm (.node c l x r)).mem_iff (a := y)
  rw [hperm] at hy
  simp only [ColorTree.inorder, List.mem_append, List.mem_cons, not_or] at hy
  obtain ⟨⟨hyl, hyx, hyr⟩, hyp⟩ := hy
  -- the writes in turn, and the nodes each of them leaves alone
  have hkeep₁ {z : α} (hzy : z ≠ y) : (h.modify y fun _ => h.nodes x).nodes z = h.nodes z :=
    h.modify_nodes_of_ne _ hzy
  generalize hh₁ : h.modify y (fun _ => h.nodes x) = h₁ at hkeep₁ ⊢
  have hctx : Context h₁ path (some x) := by
    refine hf.above.congr (by rw [← hh₁]; rfl) fun z hz => hkeep₁ fun heq => hyp (heq ▸ hz)
  have hnode₁ : h₁.nodes y = ⟨path.parent, c, l.root, r.root⟩ := by
    rw [← hh₁, RbRoot.modify_nodes_self, hx]
  have hkeep₂ {z : α} (hzp : z ∉ path.keys) :
      (h₁.replaceChild .left path.parent x (some y)).nodes z = h₁.nodes z :=
    h₁.replaceChild_nodes_of_ne _ _ _ (parent_ne_of_not_mem hzp)
  have hctx₂ := hctx.replaceChild hxp hnodup .left (some y)
  generalize h₁.replaceChild .left path.parent x (some y) = h₂ at hkeep₂ hctx₂ ⊢
  have hl₂ : Rep h₂.nodes (some x) l := hl.congr fun z hz =>
    (hkeep₂ (hlp z hz)).trans (hkeep₁ fun heq => hyl (heq ▸ hz))
  have hr₂ : Rep h₂.nodes (some x) r := hr.congr fun z hz =>
    (hkeep₂ (hrp z hz)).trans (hkeep₁ fun heq => hyr (heq ▸ hz))
  have hl₃ := hl₂.setParentIf hln (some y)
  have hkeep₃ {z : α} (hzl : z ∉ l.inorder) :
      (h₂.setParentIf l.root (some y)).nodes z = h₂.nodes z :=
    h₂.setParentIf_nodes_of_ne _ fun hroot => hzl (ColorTree.root_mem hroot)
  have hr₃ : Rep (h₂.setParentIf l.root (some y)).nodes (some x) r := hr₂.congr fun z hz =>
    hkeep₃ fun hzl => hlr z hzl z hz rfl
  have hr₄ := hr₃.setParentIf hrn (some y)
  have hkeep₄ {z : α} (hzr : z ∉ r.inorder) :
      ((h₂.setParentIf l.root (some y)).setParentIf r.root (some y)).nodes z =
        (h₂.setParentIf l.root (some y)).nodes z :=
    RbRoot.setParentIf_nodes_of_ne _ _ fun hroot => hzr (ColorTree.root_mem hroot)
  refine ⟨⟨?_, hl₃.congr fun z hz => hkeep₄ fun hzr => hlr z hz z hzr rfl, hr₄⟩, ?_, ?_⟩
  · rw [hkeep₄ hyr, hkeep₃ hyl, hkeep₂ hyp, hnode₁]
  · exact hctx₂.congr (by simp) fun z hz =>
      (hkeep₄ fun hzr => hrp z hzr hz).trans (hkeep₃ fun hzl => hlp z hzl hz)
  · have hmid (z : α) : (l.inorder ++ z :: r.inorder ++ path.keys).Perm
        (z :: (l.inorder ++ r.inorder ++ path.keys)) := List.perm_middle.append_right _
    refine (hmid y).nodup_iff.2 (List.nodup_cons.2 ⟨by simp [hyl, hyr, hyp], ?_⟩)
    exact (List.nodup_cons.1 ((hmid x).nodup_iff.1 hf.nodup)).2

/-- The loop down the left children finds the leftmost node. -/
theorem Rep.leftmost {p : Option α} {t : ColorTree α} {x : α} (ht : Rep h.nodes p t)
    (hroot : t.root = some x) : ∃ lefts c y r, (∀ f ∈ lefts, f.side = .left) ∧
      t = Path.plug lefts (.node c .nil y r) ∧
      ∀ fuel, lefts.length < fuel → h.leftmost fuel x = .ok y := by
  induction t generalizing p x with
  | nil => cases hroot
  | node c l z r ihl =>
    obtain rfl : z = x := Option.some.inj hroot
    obtain ⟨hx, hl, -⟩ := ht
    cases l with
    | nil =>
      refine ⟨[], c, z, r, nofun, rfl, fun fuel hfuel => ?_⟩
      obtain ⟨fuel, rfl⟩ := Nat.exists_eq_succ_of_ne_zero (Nat.ne_zero_of_lt hfuel)
      simp [RbRoot.leftmost, hx, ColorTree.root]
    | node cl ll xl rl =>
      obtain ⟨lefts, cy, y, ry, hleft, heq, hloop⟩ := ihl hl rfl
      refine ⟨lefts ++ [⟨.left, c, z, r⟩], cy, y, ry, fun f hf => ?_, ?_, fun fuel hfuel => ?_⟩
      · rcases List.mem_append.1 hf with hf | hf
        · exact hleft f hf
        · rw [List.mem_singleton.1 hf]
      · rw [Path.plug_append, ← heq]
        rfl
      · obtain ⟨fuel, rfl⟩ := Nat.exists_eq_succ_of_ne_zero (Nat.ne_zero_of_lt hfuel)
        rw [List.length_append, List.length_singleton] at hfuel
        unfold RbRoot.leftmost
        simp only [hx, ColorTree.root]
        exact hloop fuel (by omega)

/-- The successor is cut out as its parent's left child, or as the right child of the node
itself; `rb_erase` then goes on from its parent, which may be the successor in its new place. -/
theorem Focus.cutSuccessor {lefts : Path α} {c cy : Color} {x y q : α} {l ry : ColorTree α}
    (hleft : ∀ f ∈ lefts, f.side = .left)
    (hf : Focus h (lefts ++ ⟨.right, c, x, l⟩ :: path) (.node cy .nil y ry))
    (hq : Path.parent (lefts ++ ⟨.right, c, x, l⟩ :: path) = some q) :
    ∃ q', (if q = x then ((h.setParentIf ry.root (some q)).setChild .right q ry.root, y)
      else ((h.setParentIf ry.root (some q)).setChild .left q ry.root, q)) =
        ((h.setParentIf ry.root (some q)).replaceChild .left (some q) y ry.root, q') ∧
      Path.parent (lefts ++ ⟨.right, c, y, l⟩ :: path) = some q' := by
  have hry {z : α} (hz : z ∈ Path.keys (lefts ++ ⟨.right, c, x, l⟩ :: path)) :
      (h.setParentIf ry.root (some q)).nodes z = h.nodes z := by
    refine h.setParentIf_nodes_of_ne _ fun hroot => hf.disjoint ?_ hz rfl
    simp [ColorTree.inorder, ColorTree.root_mem hroot]
  cases lefts with
  | nil =>
    obtain rfl : x = q := Option.some.inj hq
    have hx : (h.nodes x).left = l.root := by rw [hf.frame]; rfl
    have hne : l.root ≠ some y := fun hroot => hf.disjoint (y := y) (z := y)
      (by simp [ColorTree.inorder]) (by simp [Path.keys_cons, ColorTree.root_mem hroot]) rfl
    refine ⟨y, ?_, rfl⟩
    rw [if_pos rfl, RbRoot.replaceChild, RbNode.child, hry (by simp [Path.keys_cons]), hx,
      if_neg hne]
    rfl
  | cons f lefts =>
    obtain ⟨d, cf, z, sib⟩ := f
    obtain rfl : d = .left := hleft _ List.mem_cons_self
    obtain rfl : z = q := Option.some.inj hq
    have hz : (h.nodes z).left = some y := by rw [hf.frame]; rfl
    have hne : z ≠ x := by
      have hnodup := (List.nodup_append.1 hf.nodup).2.1
      rw [List.cons_append, Path.keys_cons, List.cons_append, List.nodup_cons] at hnodup
      rintro rfl
      exact hnodup.1 (by simp [Path.keys])
    refine ⟨z, ?_, rfl⟩
    rw [if_neg hne, RbRoot.replaceChild, RbNode.child, hry (by simp [Path.keys_cons]), hz,
      if_pos rfl]

/-- The order after a node has been cut out. -/
theorem inorder_erase {c : Color} {x : α} {l r t : ColorTree α}
    (hnodup : (path.plug (.node c l x r)).inorder.Nodup)
    (ht : t.inorder = l.inorder ++ r.inorder) :
    (path.plug t).inorder = (path.plug (.node c l x r)).inorder.erase x := by
  obtain ⟨before, after, hplug, -⟩ := path.inorder_plug
  rw [hplug, hplug, ht]
  rw [hplug] at hnodup
  have hsplit : before ++ ColorTree.inorder (.node c l x r) ++ after =
      (before ++ l.inorder) ++ x :: (r.inorder ++ after) := by simp [ColorTree.inorder]
  rw [hsplit] at hnodup ⊢
  have hx : x ∉ before ++ l.inorder := fun hmem =>
    (List.nodup_append.1 hnodup).2.2 x hmem x List.mem_cons_self rfl
  rw [List.erase_append_right _ hx, List.erase_cons_head]
  simp

/-- The successor takes the place of a node. -/
theorem Focus.moveSuccessor {lefts : Path α} {c cy : Color} {x y : α} {l ry : ColorTree α}
    (hf : Focus h path (.node c l x (Path.plug lefts (.node cy .nil y ry))))
    {h₂ : RbRoot α} (hf₂ : Focus h₂ (lefts ++ ⟨.right, c, x, l⟩ :: path) ry) :
    Focus ((((h₂.modify y fun _ => h₂.nodes x).replaceChild .left path.parent x
      (some y)).setParentIf l.root (some y)).setParentIf (Path.plug lefts ry).root (some y))
        (lefts ++ ⟨.right, c, y, l⟩ :: path) ry := by
  have hx₂ : Focus h₂ path (.node c l x (Path.plug lefts ry)) :=
    focus_cons.1 (focus_append.1 hf₂)
  refine focus_append.2 (focus_cons.2 (hx₂.replaceKey fun hy => ?_))
  -- the successor is at one place only
  have hfy : Focus h (lefts ++ ⟨.right, c, x, l⟩ :: path) (.node cy .nil y ry) :=
    focus_append.2 (focus_cons.2 hf)
  have hplug : path.plug (.node c l x (Path.plug lefts ry)) =
      Path.plug (lefts ++ ⟨.right, c, x, l⟩ :: path) ry := by
    rw [Path.plug_append]
    rfl
  rw [hplug, (Path.inorder_plug_perm _ _).mem_iff, List.mem_append] at hy
  rcases hy with hy | hy
  · exact (List.nodup_cons.1 hfy.nodup_tree).1 hy
  · exact hfy.disjoint (by simp [ColorTree.inorder]) hy rfl

/-- `rb_erase` of a node with two children. -/
theorem Focus.eraseDouble {c : Color} {x z : α} {l r : ColorTree α} {n : Nat}
    (hf : Focus h path (.node c l x r)) (hl : l.root ≠ none) (hr : r.root = some z)
    (hrb : RedBlack (path.plug (.node c l x r)) .black n) :
    ∃ h' t', (∀ fuel, (path.plug (.node c l x r)).inorder.length < fuel →
        h.eraseDouble fuel x z = .ok h') ∧ Represents h' t' ∧
      t'.inorder = (path.plug (.node c l x r)).inorder.erase x ∧ ∃ m, RedBlack t' .black m := by
  obtain ⟨-, -, hrep⟩ := hf.tree
  obtain ⟨lefts, cy, y, ry, hleft, rfl, hloop⟩ := hrep.leftmost hr
  have hplug (t : ColorTree α) : path.plug (.node c l x (Path.plug lefts t)) =
      Path.plug (lefts ++ ⟨.right, c, x, l⟩ :: path) t := by
    rw [Path.plug_append]
    rfl
  have hfy : Focus h (lefts ++ ⟨.right, c, x, l⟩ :: path) (.join .right cy y ry .nil) :=
    focus_append.2 (focus_cons.2 hf)
  have hlen : (lefts ++ (⟨.right, c, x, l⟩ : Frame α) :: path).length <
      (path.plug (.node c l x (Path.plug lefts (.node cy .nil y ry)))).inorder.length := by
    rw [hplug, (Path.inorder_plug_perm _ _).length_eq]
    refine Nat.lt_of_le_of_lt (Path.length_le_keys _) ?_
    simp only [ColorTree.inorder, List.nil_append, List.cons_append, List.length_cons,
      List.length_append]
    exact Nat.lt_succ_of_le (Nat.le_add_left _ _)
  rw [hplug] at hrb
  obtain ⟨pc, m, hexp, hry, -⟩ := Expects.of_plug hrb
  obtain ⟨q, hq⟩ : ∃ q, Path.parent (lefts ++ ⟨.right, c, x, l⟩ :: path) = some q := by
    cases lefts <;> exact ⟨_, rfl⟩
  obtain ⟨q', hcut, hq'⟩ := hfy.cutSuccessor hleft hq
  have hf₂ := hfy.splice
  rw [hq] at hf₂
  generalize (h.setParentIf ry.root (some q)).replaceChild .left (some q) y ry.root = h₂
    at hcut hf₂
  have hf' := hf.moveSuccessor hf₂
  obtain ⟨h', t', hfinish, hrep', horder, hm⟩ := hf'.eraseFinish (d := .right) hry (hexp.rekey y)
  refine ⟨h', t', fun fuel hfuel => ?_, hrep', ?_, hm⟩
  · have hy : h.nodes y = ⟨some q, cy, none, ry.root⟩ := by
      rw [← hq]
      exact hfy.node
    have hxy : x ≠ y := fun heq => hfy.disjoint (y := y) (z := x) (by simp [ColorTree.join, ColorTree.inorder])
      (by simp [Path.keys]) heq.symm
    have hfx : Focus h₂ path (.join .left c x l (Path.plug lefts ry)) :=
      focus_cons.1 (focus_append.1 hf₂)
    obtain ⟨hxp, -, -⟩ := hfx.not_mem_keys
    have hxl := hfx.nodup_join.2.2.1
    obtain ⟨left, hleft⟩ := Option.ne_none_iff_exists'.1 hl
    -- `old` is read while its fields are being copied, but it is not written
    have hx₃ : (h₂.modify y fun _ => h₂.nodes x).nodes x =
        ⟨path.parent, c, some left, (Path.plug lefts ry).root⟩ := by
      rw [h₂.modify_nodes_of_ne _ hxy, hfx.node, hleft]
      rfl
    have hx₄ : ((h₂.modify y fun _ => h₂.nodes x).replaceChild .left path.parent x
        (some y)).nodes x = ⟨path.parent, c, some left, (Path.plug lefts ry).root⟩ := by
      rw [RbRoot.replaceChild_nodes_of_ne _ _ _ _ (parent_ne_of_not_mem hxp), hx₃]
    have hx₅ : (((h₂.modify y fun _ => h₂.nodes x).replaceChild .left path.parent x
        (some y)).setParent left (some y)).nodes x =
          ⟨path.parent, c, some left, (Path.plug lefts ry).root⟩ := by
      refine (RbRoot.modify_nodes_of_ne _ _ fun heq => hxl ?_).trans hx₄
      exact heq ▸ ColorTree.root_mem hleft
    unfold RbRoot.eraseDouble
    rw [hloop fuel (by rw [List.length_append] at hlen; omega)]
    simp only [ok_bind, hy, deref_some, hcut, hx₃, hx₄, hx₅]
    have hfinish := hfinish fuel (by rw [List.length_append] at hlen ⊢; exact Nat.lt_trans hlen hfuel)
    rw [hq', hleft] at hfinish
    exact hfinish
  · rw [horder, ← inorder_erase hf.nodup_plug (t := .node c l y (Path.plug lefts ry)),
      Path.plug_append]
    · rfl
    · obtain ⟨after, hafter⟩ := Path.inorder_plug_left hleft
      simp [ColorTree.inorder, hafter]

/-- `rb_erase` of a node with one child at most. -/
theorem Focus.eraseSingle {d : Side} {c : Color} {x : α} {t : ColorTree α} {n : Nat}
    (hf : Focus h path (.join d c x t .nil))
    (hrb : RedBlack (path.plug (.join d c x t .nil)) .black n) :
    ∃ h' t', (∀ fuel, (path.plug (.join d c x t .nil)).inorder.length < fuel →
        h.eraseSingle fuel x t.root = .ok h') ∧ Represents h' t' ∧
      t'.inorder = (path.plug t).inorder ∧ ∃ m, RedBlack t' .black m := by
  obtain ⟨pc, m, hexp, ht, -⟩ := Expects.of_plug hrb
  rw [ColorTree.color_join] at ht
  obtain ⟨h', t', hfinish, hrep, horder, hm⟩ := hf.splice.eraseFinish ht hexp
  refine ⟨h', t', fun fuel hfuel => ?_, hrep, horder, hm⟩
  unfold RbRoot.eraseSingle
  simp only [hf.node, RbNode.parent_ofSides, RbNode.color_ofSides]
  refine hfinish fuel (Nat.lt_of_le_of_lt ?_ hfuel)
  rw [(Path.inorder_plug_perm _ _).length_eq, List.length_append]
  exact Nat.le_trans (Path.length_le_keys path) (Nat.le_add_left _ _)

/-- `rb_erase` takes the node out of the order and makes a red-black tree. -/
theorem Represents.rbErase {t : ColorTree α} {x : α} {n : Nat} (hrep : Represents h t)
    (hrb : RedBlack t .black n) (hx : x ∈ t.inorder) :
    ∃ h' t', (∀ fuel, t.inorder.length < fuel → h.rbErase fuel x = .ok h') ∧
      Represents h' t' ∧ t'.inorder = t.inorder.erase x ∧ ∃ m, RedBlack t' .black m := by
  obtain ⟨path, c, l, r, rfl⟩ := Path.exists_plug hx
  have hf : Focus h path (.node c l x r) := focus_iff_represents.2 hrep
  have hnode := hf.tree.1
  unfold RbRoot.rbErase
  rw [hnode]
  cases hl : l.root with
  | none =>
    obtain rfl := ColorTree.root_eq_none hl
    obtain ⟨h', t', herase, hrep', horder, hm⟩ := Focus.eraseSingle (d := .right) hf hrb
    exact ⟨h', t', herase, hrep', horder.trans (inorder_erase hf.nodup_plug rfl), hm⟩
  | some y =>
    cases hr : r.root with
    | none =>
      obtain rfl := ColorTree.root_eq_none hr
      obtain ⟨h', t', herase, hrep', horder, hm⟩ := Focus.eraseSingle (d := .left) hf hrb
      rw [hl] at herase
      refine ⟨h', t', herase, hrep', horder.trans (inorder_erase hf.nodup_plug ?_), hm⟩
      exact (List.append_nil _).symm
    | some z => exact hf.eraseDouble (by simp [hl]) hr hrb

end AndroidKernel.Rbtree
