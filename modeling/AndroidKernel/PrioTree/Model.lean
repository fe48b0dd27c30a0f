import Mathlib.Data.Nat.Bitwise
import AndroidKernel.Library.Runs

/-!
# The priority search tree

`prio_tree_insert`, `prio_tree_remove` and the iterator of `prio_tree_next`, on a 32-bit machine.
A child pointer that leads back to its node is an empty tree; parent pointers are kept by the
iterator as the frames above its place. A node is anything with the two indices that `get_index`
reads, so the model covers both kinds of nodes.
-/

namespace AndroidKernel.PrioTree

universe u

/-- `BITS_PER_LONG`. -/
def bitsPerLong : Nat := 32

/-- `ULONG_MAX`. -/
def ulongMax : Nat := 2 ^ bitsPerLong - 1

/-- `get_index`: the first and the last index of the interval of a node. -/
structure Indices (α : Type u) where
  radix : α → Nat
  heap : α → Nat
  radix_le : ∀ x, radix x ≤ heap x
  heap_lt : ∀ x, heap x < 2 ^ bitsPerLong

/-- A tree of nodes. -/
inductive Tree (α : Type u)
  | nil
  | node (left : Tree α) (x : α) (right : Tree α)

/-- `struct prio_tree_root`. -/
structure Root (α : Type u) where
  prioTreeNode : Tree α
  indexBits : Nat

/-- `INIT_PRIO_TREE_ROOT`. -/
def Root.initial {α : Type u} : Root α :=
  ⟨.nil, 1⟩

/-- `prio_tree_maxindex`. -/
def prioTreeMaxindex (bits : Nat) : Nat :=
  2 ^ bits - 1

variable {α : Type u} (ix : Indices α)

/-- `prio_tree_remove` from a node down: the child with the larger heap index takes its place,
and so on down to a leaf. -/
def pullUp : Tree α → Tree α
  | .nil => .nil
  | .node .nil _ .nil => .nil
  | .node .nil _ (.node l y r) => .node .nil y (pullUp (.node l y r))
  | .node (.node l y r) _ .nil => .node (pullUp (.node l y r)) y .nil
  | .node (.node l y r) _ (.node l' z r') =>
    if ix.heap z ≤ ix.heap y then .node (pullUp (.node l y r)) y (.node l' z r')
    else .node (.node l y r) z (pullUp (.node l' z r'))

/-- The tree without the node `x`. -/
def removeNode [DecidableEq α] (x : α) : Tree α → Tree α
  | .nil => .nil
  | .node l y r =>
    if y = x then pullUp ix (.node l y r) else .node (removeNode x l) y (removeNode x r)

/-- A root with a tree that a node was taken from; the last one takes the index bits with it. -/
def Root.after (bits : Nat) : Tree α → Root α
  | .nil => .initial
  | .node l x r => ⟨.node l x r, bits⟩

/-- `prio_tree_remove`. -/
def prioTreeRemove [DecidableEq α] (root : Root α) (x : α) : Root α :=
  .after root.indexBits (removeNode ix x root.prioTreeNode)

/-- The loop of `prio_tree_expand`, with the roots taken off so far. -/
def expandLoop (maxHeapIndex : Nat) : Nat → Root α → List α → Root α × List α
  | fuel + 1, root, chain =>
    if prioTreeMaxindex root.indexBits < maxHeapIndex then
      match root.prioTreeNode with
      | .nil => expandLoop maxHeapIndex fuel ⟨.nil, root.indexBits + 1⟩ chain
      | .node l y r =>
        expandLoop maxHeapIndex fuel (.after (root.indexBits + 1) (pullUp ix (.node l y r)))
          (chain ++ [y])
    else (root, chain)
  | 0, root, chain => (root, chain)

/-- Nodes chained by their left pointers above a tree. -/
def chainLeft : List α → Tree α → Tree α
  | [], t => t
  | x :: chain, t => .node (chainLeft chain t) x .nil

/-- `prio_tree_expand`. -/
def prioTreeExpand (root : Root α) (x : α) : Root α :=
  let bits := if prioTreeMaxindex root.indexBits < ix.heap x then root.indexBits + 1
    else root.indexBits
  let (root, chain) := expandLoop ix (ix.heap x) (2 * bitsPerLong) ⟨root.prioTreeNode, bits⟩ []
  ⟨chainLeft (x :: chain) root.prioTreeNode, root.indexBits⟩

/-- How an insertion ends: with the new node in the tree, with the node that was there, or at
the `BUG()`. -/
inductive Inserted (α : Type u)
  | new
  | existing (x : α)
  | bug

/-- The loop of `prio_tree_insert`, at the root of a tree. -/
def insertLoop : Tree α → α → Nat → Bool → Tree α × Inserted α
  | .nil, _, _, _ => (.nil, .bug)
  | .node l cur r, node, mask, sizeFlag =>
    if mask = 0 then (.node l cur r, .bug)
    else if ix.radix cur = ix.radix node ∧ ix.heap cur = ix.heap node then
      (.node l cur r, .existing cur)
    else
      -- the new node may take the place of this one, which then moves on
      let swap := decide (ix.heap cur < ix.heap node ∨
        ix.heap cur = ix.heap node ∧ ix.radix node < ix.radix cur)
      let (cur, node) := if swap then (node, cur) else (cur, node)
      let index := if sizeFlag then ix.heap node - ix.radix node else ix.radix node
      let right := decide (index &&& mask ≠ 0)
      let sizeFlag := sizeFlag || decide (mask / 2 = 0)
      let mask := if mask / 2 = 0 then 2 ^ (bitsPerLong - 1) else mask / 2
      if right then
        match r with
        | .nil => (.node l cur (.node .nil node .nil), .new)
        | .node l' y r' =>
          let (t, result) := insertLoop (.node l' y r') node mask sizeFlag
          (.node l cur t, result)
      else
        match l with
        | .nil => (.node (.node .nil node .nil) cur r, .new)
        | .node l' y r' =>
          let (t, result) := insertLoop (.node l' y r') node mask sizeFlag
          (.node t cur r, result)

/-- `prio_tree_insert`. -/
def prioTreeInsert (root : Root α) (x : α) : Root α × Inserted α :=
  match root.prioTreeNode with
  | .nil => (prioTreeExpand ix root x, .new)
  | .node l y r =>
    if prioTreeMaxindex root.indexBits < ix.heap x then (prioTreeExpand ix root x, .new)
    else
      let (t, result) := insertLoop ix (.node l y r) x (2 ^ (root.indexBits - 1)) false
      (⟨t, root.indexBits⟩, result)

/-! ## The iterator -/

/-- A node above the place of an iterator, without the child that leads there. -/
inductive Frame (α : Type u)
  | left (x : α) (right : Tree α)
  | right (left : Tree α) (x : α)

/-- `struct prio_tree_iter` at a node. -/
structure Iter (α : Type u) where
  left : Tree α
  cur : α
  right : Tree α
  path : List (Frame α)
  mask : Nat
  value : Nat
  sizeLevel : Nat

/-- The interval that an iterator looks for. -/
structure Query where
  rIndex : Nat
  hIndex : Nat

/-- `overlap`. -/
def overlap (q : Query) (x : α) : Bool :=
  decide (ix.radix x ≤ q.hIndex ∧ q.rIndex ≤ ix.heap x)

/-- What `prio_tree_left` and `prio_tree_right` do: nothing, a step down, or a `BUG_ON`. -/
inductive Move (α : Type u)
  | stay
  | down (it : Iter α)
  | bug

/-- The mask and the level among the size bits one step down, at a node with the given children;
`none` is a `BUG_ON`. -/
def descend (mask sizeLevel : Nat) (l r : Tree α) : Option (Nat × Nat) :=
  if mask / 2 ≠ 0 then some (mask / 2, if sizeLevel ≠ 0 then sizeLevel + 1 else 0)
  else if sizeLevel ≠ 0 then
    match l, r with
    | .nil, .nil => some (ulongMax, sizeLevel + 1)
    | _, _ => none
  else some (2 ^ (bitsPerLong - 1), 1)

/-- `prio_tree_left`. -/
def prioTreeLeft (q : Query) (it : Iter α) : Move α :=
  match it.left with
  | .nil => .stay
  | .node l x r =>
    if q.rIndex ≤ ix.heap x then
      match descend it.mask it.sizeLevel l r with
      | some (mask, sizeLevel) =>
        .down ⟨l, x, r, .left it.cur it.right :: it.path, mask, it.value, sizeLevel⟩
      | none => .bug
    else .stay

/-- `prio_tree_right`. -/
def prioTreeRight (q : Query) (it : Iter α) : Move α :=
  match it.right with
  | .nil => .stay
  | .node l x r =>
    let value := if it.sizeLevel ≠ 0 then it.value else it.value ||| it.mask
    if q.hIndex < value then .stay
    else if q.rIndex ≤ ix.heap x then
      match descend it.mask it.sizeLevel l r with
      | some (mask, sizeLevel) =>
        .down ⟨l, x, r, .right it.left it.cur :: it.path, mask, value, sizeLevel⟩
      | none => .bug
    else .stay

/-- `prio_tree_parent`, from the node below the frame `f`. -/
def prioTreeParent (it : Iter α) (f : Frame α) (path : List (Frame α)) : Iter α :=
  let mask := if it.mask = ulongMax then 1 else if it.sizeLevel = 1 then 1
    else it.mask * 2 % 2 ^ bitsPerLong
  let sizeLevel := if it.sizeLevel ≠ 0 then it.sizeLevel - 1 else 0
  let value := if sizeLevel = 0 ∧ it.value &&& mask ≠ 0 then it.value ^^^ mask else it.value
  let t := Tree.node it.left it.cur it.right
  match f with
  | .left x right => ⟨t, x, right, path, mask, value, sizeLevel⟩
  | .right left x => ⟨left, x, t, path, mask, value, sizeLevel⟩

/-- How a call to `prio_tree_next` ends: with a node, with `NULL`, or otherwise. -/
inductive Next (α : Type u)
  | found (it : Iter α)
  | null
  | bug
  | endless

/-- The loop of `prio_tree_first`. -/
def firstLoop (q : Query) : Nat → Iter α → Next α
  | 0, _ => .endless
  | fuel + 1, it =>
    if overlap ix q it.cur then .found it
    else
      match prioTreeLeft ix q it with
      | .down it => firstLoop q fuel it
      | .bug => .bug
      | .stay =>
        match prioTreeRight ix q it with
        | .down it => firstLoop q fuel it
        | .bug => .bug
        | .stay => .null

/-- `prio_tree_first`. -/
def prioTreeFirst (q : Query) (fuel : Nat) (root : Root α) : Next α :=
  match root.prioTreeNode with
  | .nil => .null
  | .node l x r =>
    if ix.heap x < q.rIndex then .null
    else firstLoop ix q fuel ⟨l, x, r, [], 2 ^ (root.indexBits - 1), 0, 0⟩

/-- The places in `prio_tree_next`: before the loop over the left children, before the test of
the right child, and on the way up. -/
inductive Place
  | goLeft
  | goRight
  | climb

/-- The loops of `prio_tree_next`. -/
def nextLoop (q : Query) : Nat → Place → Iter α → Next α
  | 0, _, _ => .endless
  | fuel + 1, .goLeft, it =>
    match prioTreeLeft ix q it with
    | .down it => if overlap ix q it.cur then .found it else nextLoop q fuel .goLeft it
    | .bug => .bug
    | .stay => nextLoop q fuel .goRight it
  | fuel + 1, .goRight, it =>
    match prioTreeRight ix q it with
    | .down it => if overlap ix q it.cur then .found it else nextLoop q fuel .goLeft it
    | .bug => .bug
    | .stay => nextLoop q fuel .climb it
  | fuel + 1, .climb, it =>
    match it.path with
    | [] => .null
    | .right l x :: path => nextLoop q fuel .climb (prioTreeParent it (.right l x) path)
    | .left x r :: path => nextLoop q fuel .goRight (prioTreeParent it (.left x r) path)

/-- `prio_tree_next`; an iterator that has not been used is `none`. -/
def prioTreeNext (q : Query) (fuel : Nat) (root : Root α) : Option (Iter α) → Next α
  | none => prioTreeFirst ix q fuel root
  | some it => nextLoop ix q fuel .goLeft it

/-- Calls `prio_tree_next` until it returns `NULL`; the nodes it returned, if that happens. -/
def iterate (q : Query) (root : Root α) : Nat → Option (Iter α) → Option (List α)
  | 0, _ => none
  | fuel + 1, it =>
    match prioTreeNext ix q fuel root it with
    | .found it => (iterate q root fuel (some it)).map (it.cur :: ·)
    | .null => some []
    | .bug => none
    | .endless => none

/-- The calls that change the tree. -/
inductive Op (α : Type u)
  | insert (x : α)
  | remove (x : α)

/-!
## The order of the tree

A node is above all nodes below it (`Above`: a larger heap index, or a smaller radix index with
the same one). At depth `d` the way down is decided by one bit (`branch`): first by the index bits
of the radix index from the highest on, then by the bits of the size. Insertion, removal and
expansion keep this order.
-/

variable {α : Type u}

/-- The nodes of a tree, a node before its children. -/
def Tree.toList : Tree α → List α
  | .nil => []
  | .node l x r => x :: (l.toList ++ r.toList)

@[simp] theorem mem_nil (x : α) : x ∈ (Tree.nil : Tree α).toList ↔ False := by
  simp [Tree.toList]

@[simp] theorem mem_node (x y : α) (l r : Tree α) :
    x ∈ (Tree.node l y r).toList ↔ x = y ∨ x ∈ l.toList ∨ x ∈ r.toList := by
  simp [Tree.toList]

variable (ix : Indices α)

/-- The order from the root down. -/
def Above (x y : α) : Prop :=
  ix.heap y < ix.heap x ∨ ix.heap y = ix.heap x ∧ ix.radix x < ix.radix y

/-- The same interval. -/
def Same (x y : α) : Prop :=
  ix.radix x = ix.radix y ∧ ix.heap x = ix.heap y

/-- The bit that decides the way of a node at depth `d`, in a tree with `b` index bits. -/
def branch (b d : Nat) (x : α) : Bool :=
  if d < b then (ix.radix x).testBit (b - 1 - d)
  else (ix.heap x - ix.radix x).testBit (bitsPerLong - 1 - (d - b))

/-- The order at depth `d`: all nodes below are on the side that their bit says. -/
def Ordered (b : Nat) : Nat → Tree α → Prop
  | _, .nil => True
  | d, .node l x r =>
    (∀ y ∈ l.toList, Above ix x y ∧ branch ix b d y = false) ∧
    (∀ y ∈ r.toList, Above ix x y ∧ branch ix b d y = true) ∧
    Ordered b (d + 1) l ∧ Ordered b (d + 1) r

/-- Two nodes went the same way down to depth `d`. -/
def AgreeTo (b d : Nat) (x y : α) : Prop :=
  ∀ e, e < d → branch ix b e x = branch ix b e y

/-- A tree at depth `d`. -/
structure Fits (b d : Nat) (t : Tree α) : Prop where
  ordered : Ordered ix b d t
  agree : ∀ x ∈ t.toList, ∀ y ∈ t.toList, AgreeTo ix b d x y
  bound : ∀ x ∈ t.toList, ix.heap x < 2 ^ b

variable {ix}

theorem Above.trans {x y z : α} (h : Above ix x y) (h' : Above ix y z) : Above ix x z := by
  unfold Above at *
  omega

theorem Above.not_same {x y : α} (h : Above ix x y) : ¬ Same ix y x := by
  unfold Above Same at *
  omega

theorem Above.ne {x y : α} (h : Above ix x y) : y ≠ x := by
  rintro rfl
  exact h.not_same ⟨rfl, rfl⟩

theorem Above.heap_le {x y : α} (h : Above ix x y) : ix.heap y ≤ ix.heap x := by
  unfold Above at h
  omega

/-- Of two nodes one is above the other, or they have the same interval. -/
theorem above_of_not {x y : α} (hsame : ¬ Same ix x y)
    (h : ¬ (ix.heap x < ix.heap y ∨ ix.heap x = ix.heap y ∧ ix.radix y < ix.radix x)) :
    Above ix x y := by
  unfold Above Same at *
  omega

theorem Same.branch {x y : α} (h : Same ix x y) (b d : Nat) : branch ix b d x = branch ix b d y := by
  unfold PrioTree.branch
  rw [h.1, h.2]

/-! ## Bits -/

/-- A bit of the radix index, for nodes that agree in it if it is an index bit. -/
theorem radix_testBit_eq {b k : Nat} {x y : α} (hx : ix.heap x < 2 ^ b) (hy : ix.heap y < 2 ^ b)
    (h : k < b → branch ix b (b - 1 - k) x = branch ix b (b - 1 - k) y) :
    (ix.radix x).testBit k = (ix.radix y).testBit k := by
  by_cases hk : k < b
  · have hbit := h hk
    unfold branch at hbit
    rw [if_pos (by omega), if_pos (by omega), show b - 1 - (b - 1 - k) = k by omega] at hbit
    exact hbit
  · have hpow : 2 ^ b ≤ 2 ^ k := Nat.pow_le_pow_right (by omega) (by omega)
    have hxk := ix.radix_le x
    have hyk := ix.radix_le y
    rw [Nat.testBit_lt_two_pow (by omega), Nat.testBit_lt_two_pow (by omega)]

/-- Nodes that agree in the index bits have the same radix index. -/
theorem radix_eq {b d : Nat} {x y : α} (hd : b ≤ d) (hx : ix.heap x < 2 ^ b)
    (hy : ix.heap y < 2 ^ b) (h : AgreeTo ix b d x y) : ix.radix x = ix.radix y := by
  exact Nat.eq_of_testBit_eq fun k => radix_testBit_eq hx hy fun _ => h _ (by omega)

/-- Nodes that agree in all bits have the same interval. -/
theorem same_of_agreeTo {b d : Nat} {x y : α} (hd : b + bitsPerLong ≤ d) (hx : ix.heap x < 2 ^ b)
    (hy : ix.heap y < 2 ^ b) (h : AgreeTo ix b d x y) : Same ix x y := by
  have hradix := radix_eq (by omega) hx hy h
  have hsize : ix.heap x - ix.radix x = ix.heap y - ix.radix y := by
    refine Nat.eq_of_testBit_eq fun k => ?_
    by_cases hk : k < bitsPerLong
    · have hbit := h (b + (bitsPerLong - 1 - k)) (by omega)
      unfold branch at hbit
      rw [if_neg (by omega), if_neg (by omega),
        show bitsPerLong - 1 - (b + (bitsPerLong - 1 - k) - b) = k by omega] at hbit
      exact hbit
    · have hpow : 2 ^ bitsPerLong ≤ 2 ^ k := Nat.pow_le_pow_right (by omega) (by omega)
      have hxk := ix.heap_lt x
      have hyk := ix.heap_lt y
      rw [Nat.testBit_lt_two_pow (by omega), Nat.testBit_lt_two_pow (by omega)]
  have hxle := ix.radix_le x
  have hyle := ix.radix_le y
  exact ⟨hradix, by omega⟩

/-- What went left where another went right does not have the larger radix index. -/
theorem radix_le_of_branch {b d : Nat} {x y : α} (hx : ix.heap x < 2 ^ b) (hy : ix.heap y < 2 ^ b)
    (h : AgreeTo ix b d x y) (hxd : branch ix b d x = false) (hyd : branch ix b d y = true) :
    ix.radix x ≤ ix.radix y := by
  by_cases hd : d < b
  · unfold branch at hxd hyd
    rw [if_pos hd] at hxd hyd
    refine Nat.le_of_lt (Nat.lt_of_testBit (b - 1 - d) hxd hyd fun k hk => ?_)
    exact radix_testBit_eq hx hy fun _ => h _ (by omega)
  · exact Nat.le_of_eq (radix_eq (by omega) hx hy h)

/-- The bits above those of a small radix index are clear. -/
theorem branch_eq_false {b b' d : Nat} {x : α} (hx : ix.heap x < 2 ^ b') (hd : d + b' < b) :
    branch ix b d x = false := by
  unfold branch
  rw [if_pos (by omega)]
  refine Nat.testBit_lt_two_pow ?_
  have hpow : 2 ^ b' ≤ 2 ^ (b - 1 - d) := Nat.pow_le_pow_right (by omega) (by omega)
  have := ix.radix_le x
  omega

/-- With more index bits, the same bits decide further down. -/
theorem branch_add (b j d : Nat) (x : α) : branch ix (b + j) (d + j) x = branch ix b d x := by
  unfold branch
  by_cases hd : d < b
  · rw [if_pos hd, if_pos (by omega), show b + j - 1 - (d + j) = b - 1 - d by omega]
  · rw [if_neg hd, if_neg (by omega), show d + j - (b + j) = d - b by omega]

/-! ## Going down -/

theorem fits_nil (b d : Nat) : Fits ix b d (.nil : Tree α) :=
  ⟨trivial, by simp, by simp⟩

variable {b d : Nat} {l r : Tree α} {x : α}

theorem Fits.left (h : Fits ix b d (.node l x r)) : Fits ix b (d + 1) l := by
  obtain ⟨hl, -, hleft, -⟩ := h.ordered
  refine ⟨hleft, fun y hy z hz e he => ?_, fun y hy => h.bound y (by simp [hy])⟩
  by_cases hed : e < d
  · exact h.agree y (by simp [hy]) z (by simp [hz]) e hed
  · obtain rfl : e = d := by omega
    rw [(hl y hy).2, (hl z hz).2]

theorem Fits.right (h : Fits ix b d (.node l x r)) : Fits ix b (d + 1) r := by
  obtain ⟨-, hr, -, hright⟩ := h.ordered
  refine ⟨hright, fun y hy z hz e he => ?_, fun y hy => h.bound y (by simp [hy])⟩
  by_cases hed : e < d
  · exact h.agree y (by simp [hy]) z (by simp [hz]) e hed
  · obtain rfl : e = d := by omega
    rw [(hr y hy).2, (hr z hz).2]

/-- A node with both subtrees ordered. -/
theorem Fits.node (hl : Fits ix b (d + 1) l) (hr : Fits ix b (d + 1) r) (hx : ix.heap x < 2 ^ b)
    (habove : ∀ y, y ∈ l.toList ∨ y ∈ r.toList → Above ix x y ∧ AgreeTo ix b d x y)
    (hlbit : ∀ y ∈ l.toList, branch ix b d y = false)
    (hrbit : ∀ y ∈ r.toList, branch ix b d y = true) : Fits ix b d (.node l x r) := by
  have hagree (y : α) (hy : y ∈ (Tree.node l x r).toList) : AgreeTo ix b d x y := by
    rcases (mem_node y x l r).1 hy with rfl | hy
    · exact fun _ _ => rfl
    · exact (habove y hy).2
  refine ⟨⟨fun y hy => ⟨(habove y (.inl hy)).1, hlbit y hy⟩,
    fun y hy => ⟨(habove y (.inr hy)).1, hrbit y hy⟩, hl.ordered, hr.ordered⟩, ?_, ?_⟩
  · intro y hy z hz e he
    exact ((hagree y hy e he).symm).trans (hagree z hz e he)
  · intro y hy
    rcases (mem_node y x l r).1 hy with rfl | hy | hy
    · exact hx
    · exact hl.bound y hy
    · exact hr.bound y hy

theorem Fits.above (h : Fits ix b d (.node l x r)) {y : α} (hy : y ∈ l.toList ∨ y ∈ r.toList) :
    Above ix x y := by
  obtain ⟨hl, hr, -, -⟩ := h.ordered
  rcases hy with hy | hy
  · exact (hl y hy).1
  · exact (hr y hy).1

/-- A tree below all bits has no children. -/
theorem Fits.leaf (h : Fits ix b d (.node l x r)) (hd : b + bitsPerLong ≤ d) :
    l = .nil ∧ r = .nil := by
  have hno (y : α) (hy : y ∈ l.toList ∨ y ∈ r.toList) : False := by
    have hmem : y ∈ (Tree.node l x r).toList := by simp [hy]
    have hself : x ∈ (Tree.node l x r).toList := by simp
    exact (h.above hy).not_same (same_of_agreeTo hd (h.bound y hmem) (h.bound x hself)
      (h.agree y hmem x hself))
  constructor
  · cases l with
    | nil => rfl
    | node l' y r' => exact (hno y (by simp)).elim
  · cases r with
    | nil => rfl
    | node l' y r' => exact (hno y (by simp)).elim

/-- Left of a node, radix indices are not larger than on its right. -/
theorem Fits.radix_le (h : Fits ix b d (.node l x r)) {y z : α} (hy : y ∈ l.toList)
    (hz : z ∈ r.toList) : ix.radix y ≤ ix.radix z := by
  obtain ⟨hl, hr, -, -⟩ := h.ordered
  have hymem : y ∈ (Tree.node l x r).toList := by simp [hy]
  have hzmem : z ∈ (Tree.node l x r).toList := by simp [hz]
  exact radix_le_of_branch (h.bound y hymem) (h.bound z hzmem) (h.agree y hymem z hzmem)
    (hl y hy).2 (hr z hz).2

/-- With the same heap index, what is left of a node is above what is right of it. -/
theorem Fits.above_of_heap_le (h : Fits ix b d (.node l x r)) {y z : α} (hy : y ∈ l.toList)
    (hz : z ∈ r.toList) (hheap : ix.heap z ≤ ix.heap y) : Above ix y z := by
  have hle := h.radix_le hy hz
  obtain ⟨hl, hr, -, -⟩ := h.ordered
  have hnot : ¬ Same ix y z := by
    intro hsame
    have hbit := hsame.branch b d
    rw [(hl y hy).2, (hr z hz).2] at hbit
    cases hbit
  unfold Above Same at *
  omega

theorem Fits.nodup {t : Tree α} (h : Fits ix b d t) : t.toList.Nodup := by
  induction t generalizing d with
  | nil => exact List.nodup_nil
  | node l x r ihl ihr =>
    have hl := h.ordered.1
    have hr := h.ordered.2.1
    refine List.nodup_cons.2 ⟨fun hmem => ?_, List.nodup_append.2 ⟨ihl h.left, ihr h.right, ?_⟩⟩
    · exact (h.above (List.mem_append.1 hmem)).ne rfl
    · rintro y hy z hz rfl
      have hbit := (hl y hy).2
      rw [(hr y hz).2] at hbit
      cases hbit

end AndroidKernel.PrioTree
