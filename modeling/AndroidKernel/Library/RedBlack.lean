import Mathlib.Algebra.Group.Nat.Defs
import Mathlib.Data.List.Nodup

/-!
# Red-black trees

Binary trees with coloured nodes, the paths down to a place in them, and the balance of a
red-black tree split at such a place: the tree below, and what the path above expects of it.
Left and right are two values of one type, so that each mirrored pair of arguments is one.
-/

namespace AndroidKernel.Library

universe u

/-- The two sides of a node. -/
inductive Side
  | left
  | right
  deriving DecidableEq

/-- The other side. -/
def Side.other : Side → Side
  | .left => .right
  | .right => .left

@[simp] theorem Side.other_other (d : Side) : d.other.other = d := by cases d <;> rfl

theorem Side.eq_or_eq_other (d e : Side) : e = d ∨ e = d.other := by
  cases d <;> cases e <;> simp [Side.other]

/-- The colour of a node. -/
inductive Color
  | red
  | black
  deriving DecidableEq

/-- Trees with coloured nodes. -/
inductive ColorTree (α : Type u)
  | nil
  | node (color : Color) (left : ColorTree α) (key : α) (right : ColorTree α)

namespace ColorTree

variable {α : Type u}

/-- The keys in order. -/
def inorder : ColorTree α → List α
  | nil => []
  | node _ l x r => l.inorder ++ x :: r.inorder

/-- The key of the root. -/
def root : ColorTree α → Option α
  | nil => none
  | node _ _ x _ => some x

/-- The colour of the root; an empty tree is black. -/
def color : ColorTree α → Color
  | nil => .black
  | node c _ _ _ => c

/-- The tree with its root painted. -/
def paint (c : Color) : ColorTree α → ColorTree α
  | nil => nil
  | node _ l x r => node c l x r

/-- A node whose subtree on side `d` is `a` and on the other side `b`. -/
def join (d : Side) (c : Color) (x : α) (a b : ColorTree α) : ColorTree α :=
  match d with
  | .left => node c a x b
  | .right => node c b x a

/-- Every node is a join, seen from either side. -/
theorem exists_join (d : Side) (c : Color) (l : ColorTree α) (x : α) (r : ColorTree α) :
    ∃ a b, node c l x r = join d c x a b := by
  cases d with
  | left => exact ⟨l, r, rfl⟩
  | right => exact ⟨r, l, rfl⟩

@[simp] theorem root_join (d : Side) (c : Color) (x : α) (a b : ColorTree α) :
    (join d c x a b).root = some x := by cases d <;> rfl

@[simp] theorem color_join (d : Side) (c : Color) (x : α) (a b : ColorTree α) :
    (join d c x a b).color = c := by cases d <;> rfl

@[simp] theorem paint_join (d : Side) (c e : Color) (x : α) (a b : ColorTree α) :
    (join d c x a b).paint e = join d e x a b := by cases d <;> rfl

theorem join_other (d : Side) (c : Color) (x : α) (a b : ColorTree α) :
    join d.other c x a b = join d c x b a := by cases d <;> rfl

@[simp] theorem inorder_paint (c : Color) (t : ColorTree α) : (t.paint c).inorder = t.inorder := by
  cases t <;> rfl

/-- The order does not depend on colours. -/
theorem inorder_join_congr {a a' b b' : ColorTree α} (d : Side) (c c' : Color) (x : α)
    (ha : a.inorder = a'.inorder) (hb : b.inorder = b'.inorder) :
    (join d c x a b).inorder = (join d c' x a' b').inorder := by
  cases d <;> simp [join, inorder, ha, hb]

/-- A rotation keeps the order, whatever is painted with it. -/
theorem inorder_rotate (d : Side) (c₁ c₂ c₃ c₄ : Color) (x y : α) (a b t : ColorTree α) :
    (join d c₁ y (join d c₂ x a b) t).inorder = (join d c₃ x a (join d c₄ y b t)).inorder := by
  cases d <;> simp [join, inorder]

theorem root_eq_none {t : ColorTree α} (h : t.root = none) : t = nil := by
  cases t with
  | nil => rfl
  | node => cases h

theorem root_eq_some {t : ColorTree α} {x : α} (h : t.root = some x) :
    ∃ c l r, t = node c l x r := by
  cases t with
  | nil => cases h
  | node c l y r =>
    cases h
    exact ⟨c, l, r, rfl⟩

theorem root_mem {t : ColorTree α} {x : α} (h : t.root = some x) : x ∈ t.inorder := by
  obtain ⟨c, l, r, rfl⟩ := root_eq_some h
  simp [inorder]

/-- The keys in the order towards a side. -/
def towards (t : ColorTree α) : Side → List α
  | .left => t.inorder.reverse
  | .right => t.inorder

theorem towards_join (d : Side) (c : Color) (x : α) (a b : ColorTree α) :
    (join d c x a b).towards d = b.towards d ++ x :: a.towards d := by
  cases d <;> simp [towards, join, inorder]

/-- The number of nodes on the longest way down. -/
def height : ColorTree α → Nat
  | nil => 0
  | node _ l _ r => max l.height r.height + 1

theorem height_join (d : Side) (c : Color) (x : α) (a b : ColorTree α) :
    (join d c x a b).height = max a.height b.height + 1 := by
  cases d <;> simp [join, height, Nat.max_comm]

end ColorTree

/-- A step up from a subtree: the side it is on, and the node above with the sibling. -/
structure Frame (α : Type u) where
  side : Side
  color : Color
  key : α
  sibling : ColorTree α

/-- The path above a place in a tree, from the place up. -/
abbrev Path (α : Type u) := List (Frame α)

namespace Path

variable {α : Type u}

/-- The tree with `t` at the place. -/
def plug : Path α → ColorTree α → ColorTree α
  | [], t => t
  | f :: path, t => plug path (ColorTree.join f.side f.color f.key t f.sibling)

/-- The key above the place. -/
def parent (path : Path α) : Option α :=
  path.head?.map Frame.key

/-- The keys on the path and in its siblings. -/
def keys (path : Path α) : List α :=
  path.flatMap fun f => f.key :: f.sibling.inorder

@[simp] theorem plug_nil (t : ColorTree α) : plug [] t = t := rfl

@[simp] theorem plug_cons (f : Frame α) (path : Path α) (t : ColorTree α) :
    plug (f :: path) t = plug path (ColorTree.join f.side f.color f.key t f.sibling) := rfl

@[simp] theorem parent_nil : parent ([] : Path α) = none := rfl

@[simp] theorem parent_cons (f : Frame α) (path : Path α) :
    parent (f :: path) = some f.key := rfl

@[simp] theorem keys_nil : keys ([] : Path α) = [] := rfl

theorem keys_cons (f : Frame α) (path : Path α) :
    keys (f :: path) = f.key :: f.sibling.inorder ++ keys path := rfl

theorem plug_append (first second : Path α) (t : ColorTree α) :
    plug (first ++ second) t = plug second (plug first t) := by
  induction first generalizing t with
  | nil => rfl
  | cons f first ih => exact ih _

/-- What is left and what is right of the place, in order. -/
theorem inorder_plug (path : Path α) :
    ∃ before after, (∀ t, (plug path t).inorder = before ++ t.inorder ++ after) ∧
      (before ++ after).Perm path.keys := by
  induction path with
  | nil => exact ⟨[], [], fun t => by simp, by simp⟩
  | cons f path ih =>
    obtain ⟨before, after, hplug, hperm⟩ := ih
    obtain ⟨d, c, x, sib⟩ := f
    cases d with
    | left =>
      refine ⟨before, x :: sib.inorder ++ after, fun t => ?_, ?_⟩
      · simp [hplug, ColorTree.join, ColorTree.inorder]
      · rw [keys_cons]
        refine List.Perm.trans ?_ (hperm.append_left (x :: sib.inorder))
        rw [← List.append_assoc, ← List.append_assoc]
        exact List.perm_append_comm.append_right _
    | right =>
      refine ⟨before ++ sib.inorder ++ [x], after, fun t => ?_, ?_⟩
      · simp [hplug, ColorTree.join, ColorTree.inorder]
      rw [keys_cons]
      refine List.Perm.trans ?_ (hperm.append_left (x :: sib.inorder))
      rw [List.append_assoc, List.append_assoc, ← List.append_assoc (x :: sib.inorder)]
      refine List.Perm.trans ?_ (List.perm_append_comm.append_right after)
      rw [List.append_assoc]
      refine List.Perm.append_left before ?_
      rw [← List.append_assoc]
      have hswap : (sib.inorder ++ [x]).Perm ([x] ++ sib.inorder) := List.perm_append_comm
      exact hswap.append_right after

theorem inorder_plug_congr {path : Path α} {t t' : ColorTree α} (h : t.inorder = t'.inorder) :
    (plug path t).inorder = (plug path t').inorder := by
  obtain ⟨before, after, hplug, -⟩ := inorder_plug path
  rw [hplug, hplug, h]

/-- The keys of a whole tree are those of the path and those at the place. -/
theorem inorder_plug_perm (path : Path α) (t : ColorTree α) :
    (plug path t).inorder.Perm (t.inorder ++ path.keys) := by
  obtain ⟨before, after, hplug, hperm⟩ := inorder_plug path
  rw [hplug, List.append_assoc]
  refine (List.perm_append_comm_assoc before t.inorder after).trans ?_
  exact hperm.append_left _

theorem length_le_keys (path : Path α) : path.length ≤ path.keys.length := by
  induction path with
  | nil => exact Nat.le_refl _
  | cons f path ih =>
    rw [keys_cons, List.length_append, List.length_cons, List.length_cons]
    omega

/-- A place that is left of everything on its path. -/
theorem inorder_plug_left {path : Path α} (hleft : ∀ f ∈ path, f.side = .left) :
    ∃ after, ∀ t, (plug path t).inorder = t.inorder ++ after := by
  induction path with
  | nil => exact ⟨[], fun t => (List.append_nil _).symm⟩
  | cons f path ih =>
    obtain ⟨d, c, x, sib⟩ := f
    obtain rfl : d = .left := hleft _ List.mem_cons_self
    obtain ⟨after, hafter⟩ := ih fun g hg => hleft g (List.mem_cons_of_mem _ hg)
    refine ⟨x :: sib.inorder ++ after, fun t => ?_⟩
    simp [hafter, ColorTree.join, ColorTree.inorder]

theorem length_add_height_le (path : Path α) (t : ColorTree α) :
    path.length + t.height ≤ (plug path t).height := by
  induction path generalizing t with
  | nil => simp
  | cons f path ih =>
    have hle := ih (.join f.side f.color f.key t f.sibling)
    rw [ColorTree.height_join] at hle
    rw [plug_cons, List.length_cons]
    omega

/-- Every key of a tree is at some place in it. -/
theorem exists_plug {t : ColorTree α} {x : α} (h : x ∈ t.inorder) :
    ∃ path c l r, t = plug path (.node c l x r) := by
  induction t with
  | nil => cases h
  | node c l y r ihl ihr =>
    rcases List.mem_append.1 h with hl | hr
    · obtain ⟨path, c', l', r', rfl⟩ := ihl hl
      exact ⟨path ++ [⟨.left, c, y, r⟩], c', l', r', by rw [plug_append]; rfl⟩
    · rcases List.mem_cons.1 hr with rfl | hr
      · exact ⟨[], c, l, r, rfl⟩
      · obtain ⟨path, c', l', r', rfl⟩ := ihr hr
        exact ⟨path ++ [⟨.right, c, y, l⟩], c', l', r', by rw [plug_append]; rfl⟩

end Path

/-! ## Balance -/

variable {α : Type u}

/-- A red-black tree with its root's colour and its black height: no red node has a red child,
and every way down meets equally many black nodes. -/
inductive RedBlack : ColorTree α → Color → Nat → Prop
  | nil : RedBlack .nil .black 0
  | red {l r : ColorTree α} {x : α} {n : Nat} (hl : RedBlack l .black n) (hr : RedBlack r .black n) :
      RedBlack (.node .red l x r) .red n
  | black {l r : ColorTree α} {x : α} {n : Nat} {c c' : Color} (hl : RedBlack l c n)
      (hr : RedBlack r c' n) : RedBlack (.node .black l x r) .black (n + 1)

namespace RedBlack

theorem color_eq {t : ColorTree α} {c : Color} {n : Nat} (h : RedBlack t c n) : t.color = c := by
  cases h <;> rfl

theorem join_red {d : Side} {x : α} {a b : ColorTree α} {n : Nat} (ha : RedBlack a .black n)
    (hb : RedBlack b .black n) : RedBlack (.join d .red x a b) .red n := by
  cases d with
  | left => exact .red ha hb
  | right => exact .red hb ha

theorem join_black {d : Side} {x : α} {a b : ColorTree α} {n : Nat} {c c' : Color}
    (ha : RedBlack a c n) (hb : RedBlack b c' n) :
    RedBlack (.join d .black x a b) .black (n + 1) := by
  cases d with
  | left => exact .black ha hb
  | right => exact .black hb ha

theorem of_join_red {d : Side} {x : α} {a b : ColorTree α} {c : Color} {n : Nat}
    (h : RedBlack (.join d .red x a b) c n) :
    c = .red ∧ RedBlack a .black n ∧ RedBlack b .black n := by
  cases d with
  | left =>
    cases h with
    | red hl hr => exact ⟨rfl, hl, hr⟩
  | right =>
    cases h with
    | red hl hr => exact ⟨rfl, hr, hl⟩

theorem of_join_black {d : Side} {x : α} {a b : ColorTree α} {c : Color} {n : Nat}
    (h : RedBlack (.join d .black x a b) c n) :
    c = .black ∧ ∃ m, n = m + 1 ∧ RedBlack a a.color m ∧ RedBlack b b.color m := by
  cases d with
  | left =>
    cases h with
    | black hl hr => exact ⟨rfl, _, rfl, hl.color_eq ▸ hl, hr.color_eq ▸ hr⟩
  | right =>
    cases h with
    | black hl hr => exact ⟨rfl, _, rfl, hr.color_eq ▸ hr, hl.color_eq ▸ hl⟩

/-- A way down has at most twice as many nodes as black ones. -/
theorem height_le {t : ColorTree α} {c : Color} {n : Nat} (h : RedBlack t c n) :
    2 ^ n ≤ t.inorder.length + 1 ∧ t.height ≤ 2 * n + if c = .red then 1 else 0 := by
  induction h with
  | nil => exact ⟨Nat.le_refl 1, Nat.le_refl 0⟩
  | red hl hr ihl ihr =>
    simp [ColorTree.inorder, ColorTree.height] at *
    omega
  | @black l r x n c c' hl hr ihl ihr =>
    simp [ColorTree.inorder, ColorTree.height, Nat.pow_succ] at *
    cases c <;> cases c' <;> simp at * <;> omega

/-- A tree that is not of height zero has a root. -/
theorem exists_root {t : ColorTree α} {c : Color} {n : Nat} (h : RedBlack t c (n + 1)) (d : Side) :
    ∃ x a b, t = .join d c x a b := by
  cases h with
  | red hl hr =>
    obtain ⟨a, b, heq⟩ := ColorTree.exists_join d .red _ _ _
    exact ⟨_, a, b, heq⟩
  | black hl hr =>
    obtain ⟨a, b, heq⟩ := ColorTree.exists_join d .black _ _ _
    exact ⟨_, a, b, heq⟩

/-- A red tree has a root. -/
theorem exists_red_root {t : ColorTree α} {n : Nat} (h : RedBlack t .red n) (d : Side) :
    ∃ x a b, t = .join d .red x a b ∧ RedBlack a .black n ∧ RedBlack b .black n := by
  cases h with
  | @red l r x n hl hr =>
    obtain ⟨a, b, heq⟩ := ColorTree.exists_join d .red l x r
    have hjoin : RedBlack (.join d .red x a b) .red n := heq ▸ .red hl hr
    exact ⟨x, a, b, heq, hjoin.of_join_red.2⟩

/-- Painting a red root black adds to the height. -/
theorem paint_black {t : ColorTree α} {n : Nat} (h : RedBlack t .red n) :
    RedBlack (t.paint .black) .black (n + 1) := by
  cases h with
  | red hl hr => exact .black hl hr

theorem paint_self {t : ColorTree α} {n : Nat} (h : RedBlack t .black n) :
    RedBlack (t.paint .black) .black n := by
  cases h with
  | nil => exact .nil
  | black hl hr => exact .black hl hr

end RedBlack

/-- What a path expects at its place: the colour above (black at the root), and the black
height of the tree that belongs there. A red node is never the root. -/
inductive Expects : Path α → Color → Nat → Prop
  | root (n : Nat) : Expects [] .black n
  | black {d : Side} {x : α} {sib : ColorTree α} {path : Path α} {n : Nat} {c c' : Color}
      (hsib : RedBlack sib c n) (hpath : Expects path c' (n + 1)) :
      Expects (⟨d, .black, x, sib⟩ :: path) .black n
  | red {d : Side} {x : α} {sib : ColorTree α} {path : Path α} {n : Nat}
      (hsib : RedBlack sib .black n) (hpath : Expects path .black n) (hne : path ≠ []) :
      Expects (⟨d, .red, x, sib⟩ :: path) .red n

namespace Expects

/-- A tree of the right height completes a path, if it is black where it has to be. -/
theorem plug {path : Path α} {t : ColorTree α} {pc c : Color} {n : Nat} (h : Expects path pc n)
    (ht : RedBlack t c n) (hc : c = .red → pc = .black ∧ path ≠ []) :
    ∃ m, RedBlack (path.plug t) .black m := by
  induction h generalizing t c with
  | root n =>
    cases c with
    | red => exact absurd rfl (hc rfl).2
    | black => exact ⟨n, ht⟩
  | black hsib hpath ih => exact ih (.join_black ht hsib) nofun
  | red hsib hpath hne ih =>
    have hblack : c = .black := by
      cases c with
      | red => exact absurd (hc rfl).1 nofun
      | black => rfl
    exact ih (.join_red (hblack ▸ ht) hsib) fun _ => ⟨rfl, hne⟩

/-- The sibling of the place has the height that is expected there. -/
theorem sibling {f : Frame α} {path : Path α} {pc : Color} {n : Nat}
    (h : Expects (f :: path) pc n) : ∃ c, RedBlack f.sibling c n := by
  cases h with
  | red hsib hpath hne => exact ⟨_, hsib⟩
  | black hsib hpath => exact ⟨_, hsib⟩

/-- Keys do not matter for balance. -/
theorem rekey {first path : Path α} {d : Side} {c pc : Color} {x : α} {sib : ColorTree α} {n : Nat}
    (h : Expects (first ++ ⟨d, c, x, sib⟩ :: path) pc n) (y : α) :
    Expects (first ++ ⟨d, c, y, sib⟩ :: path) pc n := by
  induction first generalizing pc n with
  | nil =>
    cases h with
    | red hsib hpath hne => exact .red hsib hpath hne
    | black hsib hpath => exact .black hsib hpath
  | cons f first ih =>
    cases h with
    | red hsib hpath hne => exact .red hsib (ih hpath) (by simp)
    | black hsib hpath => exact .black hsib (ih hpath)

/-- A red-black tree cut at a place. -/
theorem of_plug {path : Path α} {t : ColorTree α} {n : Nat} (h : RedBlack (path.plug t) .black n) :
    ∃ pc m, Expects path pc m ∧ RedBlack t t.color m ∧
      (t.color = .red → pc = .black ∧ path ≠ []) := by
  induction path generalizing t with
  | nil => exact ⟨.black, n, .root n, h.color_eq ▸ h, fun hred => by
    rw [Path.plug_nil] at h
    rw [h.color_eq] at hred
    cases hred⟩
  | cons f path ih =>
    obtain ⟨pc, m, hpath, hjoin, hcol⟩ := ih h
    obtain ⟨d, c, x, sib⟩ := f
    cases c with
    | red =>
      obtain ⟨-, ht, hsib⟩ := hjoin.of_join_red
      obtain ⟨rfl, hne⟩ := hcol (ColorTree.color_join ..)
      refine ⟨.red, m, .red hsib hpath hne, ht.color_eq ▸ ht, fun hred => ?_⟩
      rw [ht.color_eq] at hred
      cases hred
    | black =>
      obtain ⟨-, k, rfl, ht, hsib⟩ := hjoin.of_join_black
      exact ⟨.black, k, .black hsib hpath, ht, fun _ => ⟨rfl, List.cons_ne_nil _ _⟩⟩

end Expects

end AndroidKernel.Library
