import AndroidKernel.PrioTree.Changes

/-!
# The search

Where the iterator is, its mask and its size level are those of its depth, and its value is made
of the bits of the way to the right (`AtPlace`). What it has still to return (`todo`) are the
nodes that overlap, in the part of the tree after its place. A subtree that is left out has none
of them.
-/

namespace AndroidKernel.PrioTree

universe u

variable {α : Type u}

/-- The tree around a place. -/
def plug : List (Frame α) → Tree α → Tree α
  | [], t => t
  | .left x r :: path, t => plug path (.node t x r)
  | .right l x :: path, t => plug path (.node l x t)

/-- The bits of the way to the right, as far as index bits decide. -/
def valueAt (b : Nat) : List (Frame α) → Nat
  | [] => 0
  | .left _ _ :: path => valueAt b path
  | .right _ _ :: path =>
    if path.length < b then valueAt b path ||| 2 ^ (b - 1 - path.length) else valueAt b path

/-- The mask of an iterator at depth `d`. -/
def iterMaskAt (b d : Nat) : Nat :=
  if d < b + bitsPerLong then maskAt b d else ulongMax

/-- The size level of an iterator at depth `d`. -/
def sizeLevelAt (b d : Nat) : Nat :=
  if d < b then 0 else d - b + 1

variable (ix : Indices α)

/-- The iterator is at a node of the tree `T`. -/
structure AtPlace (b : Nat) (T : Tree α) (it : Iter α) : Prop where
  tree : plug it.path (.node it.left it.cur it.right) = T
  mask : it.mask = iterMaskAt b it.path.length
  value : it.value = valueAt b it.path
  sizeLevel : it.sizeLevel = sizeLevelAt b it.path.length

variable {ix}

theorem Fits.plug {b : Nat} {path : List (Frame α)} {t : Tree α} (h : Fits ix b 0 (plug path t)) :
    Fits ix b path.length t := by
  induction path generalizing t with
  | nil => exact h
  | cons f path ih =>
    cases f with
    | left x r => exact (ih h).left
    | right l x => exact (ih h).right

/-! ## Masks and values -/

theorem maskAt_of_lt {b d : Nat} (hd : d < b) : maskAt b d = 2 ^ (b - 1 - d) :=
  if_pos hd

theorem maskAt_of_le {b d : Nat} (hd : b ≤ d) : maskAt b d = 2 ^ (bitsPerLong - 1 - (d - b)) :=
  if_neg (Nat.not_lt_of_le hd)

/-- One step down from depth `d` to a node with the given children. -/
theorem descend_eq {b d : Nat} {l r : Tree α} {x : α} (hd : d < b + bitsPerLong)
    (h : Fits ix b (d + 1) (.node l x r)) :
    descend (iterMaskAt b d) (sizeLevelAt b d) l r =
      some (iterMaskAt b (d + 1), sizeLevelAt b (d + 1)) := by
  have hw : 1 < bitsPerLong := by decide
  have hpos (k : Nat) : 2 ^ k ≠ 0 := Nat.ne_of_gt (Nat.two_pow_pos k)
  unfold descend iterMaskAt sizeLevelAt
  rw [if_pos hd]
  by_cases hlast : d + 1 = b + bitsPerLong
  · -- below the last size bit there are no children
    obtain ⟨rfl, rfl⟩ := h.leaf (by omega)
    rw [maskAt_of_le (by omega), show bitsPerLong - 1 - (d - b) = 0 by omega,
      if_neg (show ¬ d < b by omega), if_neg (show ¬ d + 1 < b + bitsPerLong by omega),
      if_neg (show ¬ d + 1 < b by omega), show d + 1 - b = d - b + 1 by omega]
    rfl
  rw [if_pos (show d + 1 < b + bitsPerLong by omega)]
  by_cases hsize : b ≤ d
  · rw [maskAt_of_le hsize, maskAt_of_le (by omega), two_pow_div_two,
      if_neg (show ¬ bitsPerLong - 1 - (d - b) = 0 by omega), if_pos (hpos _),
      if_neg (show ¬ d < b by omega), if_neg (show ¬ d + 1 < b by omega),
      if_pos (Nat.succ_ne_zero _), show d + 1 - b = d - b + 1 by omega,
      show bitsPerLong - 1 - (d - b) - 1 = bitsPerLong - 1 - (d - b + 1) by omega]
  rw [maskAt_of_lt (by omega), two_pow_div_two, if_pos (show d < b by omega)]
  by_cases hbit : d + 1 = b
  · rw [if_pos (show b - 1 - d = 0 by omega), maskAt_of_le (by omega),
      if_neg (show ¬ d + 1 < b by omega), show d + 1 - b = 0 by omega]
    rfl
  · rw [if_neg (show ¬ b - 1 - d = 0 by omega), if_pos (hpos _), maskAt_of_lt (by omega),
      if_pos (show d + 1 < b by omega), show b - 1 - d - 1 = b - 1 - (d + 1) by omega]
    rfl

/-- Only bits above the depth are set in the value. -/
theorem testBit_valueAt {b k : Nat} {path : List (Frame α)}
    (h : (valueAt b path).testBit k = true) : k < b ∧ b - 1 - k < path.length := by
  induction path with
  | nil =>
    unfold valueAt at h
    simp at h
  | cons f path ih =>
    cases f with
    | left x r =>
      obtain ⟨hk, hlt⟩ := ih h
      exact ⟨hk, Nat.lt_succ_of_lt hlt⟩
    | right l x =>
      unfold valueAt at h
      rw [List.length_cons]
      split at h
      · rename_i hlen
        rw [Nat.testBit_or, Bool.or_eq_true, Nat.testBit_two_pow, decide_eq_true_iff] at h
        rcases h with h | h
        · obtain ⟨hk, hlt⟩ := ih h
          omega
        · omega
      · obtain ⟨hk, hlt⟩ := ih h
        omega

/-- The bit of the current depth is clear in the value. -/
theorem valueAt_testBit_length {b : Nat} {path : List (Frame α)} (hlen : path.length < b) :
    (valueAt b path).testBit (b - 1 - path.length) = false := by
  by_contra hcon
  have := testBit_valueAt (by simpa using hcon)
  omega

theorem sizeLevelAt_eq_zero {b d : Nat} : sizeLevelAt b d = 0 ↔ d < b := by
  unfold sizeLevelAt
  split <;> omega

/-- The size level one step up. -/
theorem sizeLevelAt_pred (b d : Nat) :
    (if sizeLevelAt b (d + 1) ≠ 0 then sizeLevelAt b (d + 1) - 1 else 0) = sizeLevelAt b d := by
  unfold sizeLevelAt
  by_cases hd : d + 1 < b
  · rw [if_pos hd, if_pos (show d < b by omega)]
    rfl
  · rw [if_neg hd, if_pos (Nat.succ_ne_zero _)]
    split <;> omega

theorem two_pow_ne_ulongMax {k : Nat} (hk : k < bitsPerLong) : 2 ^ k ≠ ulongMax := by
  have hpow : 2 ^ k ≤ 2 ^ (bitsPerLong - 1) := Nat.pow_le_pow_right (by omega) (by omega)
  unfold ulongMax bitsPerLong at *
  omega

theorem two_pow_mul_two_mod {k : Nat} (hk : k + 1 < bitsPerLong) :
    2 ^ k * 2 % 2 ^ bitsPerLong = 2 ^ (k + 1) := by
  rw [← Nat.pow_succ]
  exact Nat.mod_eq_of_lt (Nat.pow_lt_pow_right (by omega) hk)

/-- The mask one step up. -/
theorem iterMaskAt_pred {b d : Nat} (hb : 1 ≤ b) (hb' : b ≤ bitsPerLong)
    (hd : d < b + bitsPerLong) :
    (if iterMaskAt b (d + 1) = ulongMax then 1 else if sizeLevelAt b (d + 1) = 1 then 1
      else iterMaskAt b (d + 1) * 2 % 2 ^ bitsPerLong) = iterMaskAt b d := by
  unfold iterMaskAt
  rw [if_pos hd]
  by_cases hlast : d + 1 = b + bitsPerLong
  · rw [if_neg (show ¬ d + 1 < b + bitsPerLong by omega), if_pos rfl, maskAt_of_le (by omega),
      show bitsPerLong - 1 - (d - b) = 0 by omega, Nat.pow_zero]
  rw [if_pos (show d + 1 < b + bitsPerLong by omega)]
  unfold sizeLevelAt
  by_cases hsize : b ≤ d + 1
  · rw [maskAt_of_le hsize, if_neg (two_pow_ne_ulongMax (by omega)),
      if_neg (show ¬ d + 1 < b by omega)]
    by_cases hfirst : d + 1 = b
    · rw [if_pos (show d + 1 - b + 1 = 1 by omega), maskAt_of_lt (by omega),
        show b - 1 - d = 0 by omega, Nat.pow_zero]
    · rw [if_neg (show ¬ d + 1 - b + 1 = 1 by omega), two_pow_mul_two_mod (by omega),
        maskAt_of_le (by omega),
        show bitsPerLong - 1 - (d + 1 - b) + 1 = bitsPerLong - 1 - (d - b) by omega]
  · rw [maskAt_of_lt (by omega), if_neg (two_pow_ne_ulongMax (by omega)),
      if_pos (show d + 1 < b by omega), if_neg (Nat.zero_ne_one), two_pow_mul_two_mod (by omega),
      maskAt_of_lt (by omega), show b - 1 - (d + 1) + 1 = b - 1 - d by omega]

/-- The value one step up. -/
theorem valueAt_pred {b : Nat} (f : Frame α) (path : List (Frame α))
    (hd : path.length < b + bitsPerLong) :
    (if sizeLevelAt b path.length = 0 ∧ valueAt b (f :: path) &&& iterMaskAt b path.length ≠ 0 then
      valueAt b (f :: path) ^^^ iterMaskAt b path.length else valueAt b (f :: path)) =
      valueAt b path := by
  have hmask : iterMaskAt b path.length = maskAt b path.length := if_pos hd
  rw [hmask]
  by_cases hlen : path.length < b
  · rw [maskAt_of_lt hlen]
    have hclear := valueAt_testBit_length hlen
    cases f with
    | left x r =>
      have hvalue : valueAt b (.left x r :: path) = valueAt b path := rfl
      rw [hvalue, if_neg]
      rw [Nat.and_two_pow, hclear]
      simp
    | right l x =>
      have hvalue : valueAt b (.right l x :: path) =
          valueAt b path ||| 2 ^ (b - 1 - path.length) := if_pos hlen
      rw [hvalue, if_pos]
      · refine Nat.eq_of_testBit_eq fun k => ?_
        rw [Nat.testBit_xor, Nat.testBit_or, Nat.testBit_two_pow]
        by_cases hk : b - 1 - path.length = k
        · rw [← hk, hclear]
          simp
        · simp [hk]
      · refine ⟨sizeLevelAt_eq_zero.2 hlen, ?_⟩
        rw [Nat.and_two_pow, Nat.testBit_or, Nat.testBit_two_pow_self, Bool.or_true]
        simp
  · rw [if_neg fun h => hlen (sizeLevelAt_eq_zero.1 h.1)]
    cases f with
    | left x r => rfl
    | right l x => exact if_neg hlen

/-- One step up from the node below the frame `f`. -/
theorem AtPlace.parent {b : Nat} {T : Tree α} {it : Iter α} {f : Frame α} {path : List (Frame α)}
    (hb : 1 ≤ b) (hb' : b ≤ bitsPerLong) (h : AtPlace b T it) (hpath : it.path = f :: path)
    (hdepth : path.length < b + bitsPerLong) : AtPlace b T (prioTreeParent it f path) := by
  have htree := h.tree
  have hmask := h.mask
  have hvalue := h.value
  have hsize := h.sizeLevel
  rw [hpath] at htree hmask hvalue hsize
  rw [List.length_cons] at hmask hsize
  have hmask' := iterMaskAt_pred hb hb' hdepth
  have hsize' := sizeLevelAt_pred b path.length
  have hvalue' := valueAt_pred f path hdepth
  cases f with
  | left x r =>
    unfold prioTreeParent
    dsimp only
    rw [hmask, hsize, hvalue, hmask', hsize', hvalue']
    exact ⟨htree, rfl, rfl, rfl⟩
  | right l x =>
    unfold prioTreeParent
    dsimp only
    rw [hmask, hsize, hvalue, hmask', hsize', hvalue']
    exact ⟨htree, rfl, rfl, rfl⟩

/-! ## What is left out -/

/-- The nodes of a tree that overlap. -/
def overlapping (ix : Indices α) (q : Query) (t : Tree α) : List α :=
  t.toList.filter fun x => overlap ix q x

/-- The nodes that overlap to the right of a place. -/
def pathTodo (ix : Indices α) (q : Query) : List (Frame α) → List α
  | [] => []
  | .left _ r :: path => overlapping ix q r ++ pathTodo ix q path
  | .right _ _ :: path => pathTodo ix q path

theorem overlapping_eq_nil {q : Query} {t : Tree α} (h : ∀ x ∈ t.toList, overlap ix q x = false) :
    overlapping ix q t = [] := by
  unfold overlapping
  rw [List.filter_eq_nil_iff]
  intro x hx
  rw [h x hx]
  nofun

theorem overlapping_node (q : Query) (l : Tree α) (x : α) (r : Tree α) :
    overlapping ix q (.node l x r) =
      if overlap ix q x then x :: (overlapping ix q l ++ overlapping ix q r)
      else overlapping ix q l ++ overlapping ix q r := by
  unfold overlapping
  rw [Tree.toList, List.filter_cons, List.filter_append]

/-- Below a node whose heap index is too small nothing overlaps. -/
theorem overlapping_of_heap_lt {b d : Nat} {q : Query} {l r : Tree α} {x : α}
    (h : Fits ix b d (.node l x r)) (hlt : ix.heap x < q.rIndex) :
    overlapping ix q (.node l x r) = [] := by
  refine overlapping_eq_nil fun y hy => decide_eq_false fun hcon => ?_
  rcases (mem_node _ _ _ _).1 hy with rfl | hy
  · omega
  · have := (h.above hy).heap_le
    omega

/-- The radix indices below a place are at least its value. -/
theorem valueAt_le {b : Nat} {path : List (Frame α)} {t : Tree α} (h : Fits ix b 0 (plug path t))
    {y : α} (hy : y ∈ t.toList) : valueAt b path ≤ ix.radix y := by
  have hbits (k : Nat) (hk : (valueAt b path).testBit k = true) : (ix.radix y).testBit k = true := by
    induction path generalizing t with
    | nil =>
      unfold valueAt at hk
      simp at hk
    | cons f path ih =>
      cases f with
      | left x r => exact ih h (by simp [hy]) hk
      | right l x =>
        unfold valueAt at hk
        split at hk
        · rename_i hlen
          rw [Nat.testBit_or, Bool.or_eq_true, Nat.testBit_two_pow, decide_eq_true_iff] at hk
          rcases hk with hk | rfl
          · exact ih h (by simp [hy]) hk
          · have hparent : Fits ix b 0 (PrioTree.plug path (.node l x t)) := h
            have hbit := (hparent.plug.ordered.2.1 y hy).2
            unfold branch at hbit
            rwa [if_pos hlen] at hbit
        · exact ih h (by simp [hy]) hk
  have hand : valueAt b path = valueAt b path &&& ix.radix y := by
    refine Nat.eq_of_testBit_eq fun k => ?_
    rw [Nat.testBit_and]
    cases hk : (valueAt b path).testBit k with
    | false => rfl
    | true => rw [hbits k hk, Bool.and_true]
  rw [hand]
  exact Nat.and_le_right

/-- To the right of a node that starts after the interval, all nodes do. -/
theorem pathTodo_eq_nil {b : Nat} {q : Query} {path : List (Frame α)} {t : Tree α}
    (h : Fits ix b 0 (plug path t)) {y : α} (hy : y ∈ t.toList) (hlt : q.hIndex < ix.radix y) :
    pathTodo ix q path = [] := by
  induction path generalizing t with
  | nil => rfl
  | cons f path ih =>
    cases f with
    | left x r =>
      have hparent : Fits ix b 0 (PrioTree.plug path (.node t x r)) := h
      have hrest := ih hparent (by simp [hy])
      unfold pathTodo
      rw [hrest, List.append_nil]
      refine overlapping_eq_nil fun z hz => decide_eq_false fun hcon => ?_
      have := hparent.plug.radix_le hy hz
      omega
    | right l x => exact ih h (by simp [hy])

/-! ## Moves -/

section Moves

variable {b : Nat} {T : Tree α} {q : Query} {it : Iter α}

theorem AtPlace.fits (h : AtPlace b T it) (hT : Fits ix b 0 T) :
    Fits ix b it.path.length (.node it.left it.cur it.right) := by
  rw [← h.tree] at hT
  exact hT.plug

/-- A step down to the left, or nothing there overlaps. -/
theorem AtPlace.left (h : AtPlace b T it) (hT : Fits ix b 0 T) :
    (prioTreeLeft ix q it = .stay ∧ overlapping ix q it.left = []) ∨
      ∃ it', prioTreeLeft ix q it = .down it' ∧ AtPlace b T it' ∧ q.rIndex ≤ ix.heap it'.cur ∧
        it.left = .node it'.left it'.cur it'.right ∧
        it'.path = .left it.cur it.right :: it.path := by
  have hfits := h.fits hT
  have htree := h.tree
  unfold prioTreeLeft
  cases hl : it.left with
  | nil => exact .inl ⟨rfl, rfl⟩
  | node l x r =>
    rw [hl] at hfits htree
    by_cases hheap : q.rIndex ≤ ix.heap x
    · have hd : it.path.length < b + bitsPerLong := by
        by_contra hcon
        cases (hfits.leaf (Nat.le_of_not_lt hcon)).1
      refine .inr ⟨⟨l, x, r, .left it.cur it.right :: it.path,
        iterMaskAt b (it.path.length + 1), it.value, sizeLevelAt b (it.path.length + 1)⟩, ?_,
        ⟨htree, rfl, h.value, rfl⟩, hheap, rfl, rfl⟩
      dsimp only
      rw [if_pos hheap, h.mask, h.sizeLevel, descend_eq hd hfits.left]
    · refine .inl ⟨?_, overlapping_of_heap_lt hfits.left (Nat.lt_of_not_le hheap)⟩
      dsimp only
      rw [if_neg hheap]

/-- A step down to the right, or nothing there overlaps. -/
theorem AtPlace.right (h : AtPlace b T it) (hT : Fits ix b 0 T) :
    (prioTreeRight ix q it = .stay ∧ overlapping ix q it.right = []) ∨
      ∃ it', prioTreeRight ix q it = .down it' ∧ AtPlace b T it' ∧ q.rIndex ≤ ix.heap it'.cur ∧
        it.right = .node it'.left it'.cur it'.right ∧
        it'.path = .right it.left it.cur :: it.path := by
  have hfits := h.fits hT
  have htree := h.tree
  unfold prioTreeRight
  cases hr : it.right with
  | nil => exact .inl ⟨rfl, rfl⟩
  | node l x r =>
    rw [hr] at hfits htree
    have hd : it.path.length < b + bitsPerLong := by
      by_contra hcon
      cases (hfits.leaf (Nat.le_of_not_lt hcon)).2
    have hvalue : (if it.sizeLevel ≠ 0 then it.value else it.value ||| it.mask) =
        valueAt b (.right it.left it.cur :: it.path) := by
      have hmask : iterMaskAt b it.path.length = maskAt b it.path.length := if_pos hd
      rw [h.value, h.mask, hmask, h.sizeLevel, valueAt]
      by_cases hlen : it.path.length < b
      · rw [if_pos hlen, if_neg (fun hne => hne (sizeLevelAt_eq_zero.2 hlen)), maskAt_of_lt hlen]
      · rw [if_neg hlen, if_pos (fun heq => hlen (sizeLevelAt_eq_zero.1 heq))]
    dsimp only
    rw [hvalue]
    by_cases hlarge : q.hIndex < valueAt b (.right it.left it.cur :: it.path)
    · rw [if_pos hlarge]
      refine .inl ⟨rfl, overlapping_eq_nil fun y hy => decide_eq_false fun hcon => ?_⟩
      rw [← htree] at hT
      have := valueAt_le (show Fits ix b 0 (plug (.right it.left it.cur :: it.path) _) from hT) hy
      omega
    rw [if_neg hlarge]
    by_cases hheap : q.rIndex ≤ ix.heap x
    · refine .inr ⟨⟨l, x, r, .right it.left it.cur :: it.path,
        iterMaskAt b (it.path.length + 1), valueAt b (.right it.left it.cur :: it.path),
        sizeLevelAt b (it.path.length + 1)⟩, ?_, ⟨htree, rfl, rfl, rfl⟩, hheap, rfl, rfl⟩
      rw [if_pos hheap, h.mask, h.sizeLevel, descend_eq hd hfits.right]
    · refine .inl ⟨?_, overlapping_of_heap_lt hfits.right (Nat.lt_of_not_le hheap)⟩
      rw [if_neg hheap]

end Moves

/-! ## The loops -/

/-- The nodes that an iterator has still to return. -/
def todo (ix : Indices α) (q : Query) (it : Iter α) : Place → List α
  | .goLeft => overlapping ix q it.left ++ (overlapping ix q it.right ++ pathTodo ix q it.path)
  | .goRight => overlapping ix q it.right ++ pathTodo ix q it.path
  | .climb => pathTodo ix q it.path

/-- The number of nodes. -/
def Tree.size : Tree α → Nat
  | .nil => 0
  | .node l _ r => l.size + r.size + 1

/-- The number of nodes to the right of a place. -/
def pathSize : List (Frame α) → Nat
  | [] => 0
  | .left _ r :: path => r.size + pathSize path
  | .right _ _ :: path => pathSize path

/-- How many rounds the loops may take. -/
def measure (it : Iter α) : Place → Nat
  | .goLeft => 6 * (it.left.size + it.right.size + pathSize it.path) + 3 * it.path.length + 2
  | .goRight => 6 * (it.right.size + pathSize it.path) + 3 * it.path.length + 1
  | .climb => 6 * pathSize it.path + 3 * it.path.length

/-- What a call returns, given the nodes that are left. -/
def Yields (ix : Indices α) (q : Query) (b : Nat) (T : Tree α) (xs : List α) : Next α → Prop
  | .found it => AtPlace b T it ∧ xs = it.cur :: todo ix q it .goLeft
  | .null => xs = []
  | _ => False

variable {b : Nat} {T : Tree α} {q : Query}

/-- What is left after a step down to the left. -/
theorem todo_left {it it' : Iter α} (hleft : it.left = .node it'.left it'.cur it'.right)
    (hpath : it'.path = .left it.cur it.right :: it.path) :
    todo ix q it .goLeft = if overlap ix q it'.cur then it'.cur :: todo ix q it' .goLeft
      else todo ix q it' .goLeft := by
  simp only [todo]
  rw [hleft, hpath, overlapping_node, pathTodo]
  split
  · rw [List.cons_append, List.append_assoc]
  · rw [List.append_assoc]

theorem measure_left {it it' : Iter α} (hleft : it.left = .node it'.left it'.cur it'.right)
    (hpath : it'.path = .left it.cur it.right :: it.path) :
    measure it' .goLeft < measure it .goLeft := by
  simp only [measure]
  rw [hleft, hpath, pathSize, List.length_cons, Tree.size]
  omega

/-- What is left after a step down to the right. -/
theorem todo_right {it it' : Iter α} (hright : it.right = .node it'.left it'.cur it'.right)
    (hpath : it'.path = .right it.left it.cur :: it.path) :
    todo ix q it .goRight = if overlap ix q it'.cur then it'.cur :: todo ix q it' .goLeft
      else todo ix q it' .goLeft := by
  simp only [todo]
  rw [hright, hpath, overlapping_node, pathTodo]
  split
  · rw [List.cons_append, List.append_assoc]
  · rw [List.append_assoc]

theorem measure_right {it it' : Iter α} (hright : it.right = .node it'.left it'.cur it'.right)
    (hpath : it'.path = .right it.left it.cur :: it.path) :
    measure it' .goLeft < measure it .goRight := by
  simp only [measure]
  rw [hright, hpath, pathSize, List.length_cons, Tree.size]
  omega

/-- The loops of `prio_tree_next` come to the first node that is left. -/
theorem nextLoop_spec {fuel : Nat} {place : Place} {it : Iter α} (hb : 1 ≤ b)
    (hb' : b ≤ bitsPerLong) (hT : Fits ix b 0 T) (h : AtPlace b T it)
    (hfuel : measure it place < fuel) :
    Yields ix q b T (todo ix q it place) (nextLoop ix q fuel place it) := by
  induction fuel generalizing place it with
  | zero => omega
  | succ fuel ih =>
    cases place with
    | goLeft =>
      unfold nextLoop
      rcases h.left (q := q) hT with ⟨hstay, hnone⟩ | ⟨it', hdown, h', -, hleft, hpath⟩
      · have htodo : todo ix q it .goLeft = todo ix q it .goRight := by
          simp only [todo]
          rw [hnone, List.nil_append]
        rw [hstay, htodo]
        refine ih h ?_
        simp only [measure] at hfuel ⊢
        omega
      rw [hdown, todo_left hleft hpath]
      have := measure_left hleft hpath
      cases hover : overlap ix q it'.cur with
      | true =>
        simp only [hover, if_true]
        exact ⟨h', rfl⟩
      | false =>
        simp only [hover, Bool.false_eq_true, if_false]
        exact ih h' (by omega)
    | goRight =>
      unfold nextLoop
      rcases h.right (q := q) hT with ⟨hstay, hnone⟩ | ⟨it', hdown, h', -, hright, hpath⟩
      · have htodo : todo ix q it .goRight = todo ix q it .climb := by
          simp only [todo]
          rw [hnone, List.nil_append]
        rw [hstay, htodo]
        refine ih h ?_
        simp only [measure] at hfuel ⊢
        omega
      rw [hdown, todo_right hright hpath]
      have := measure_right hright hpath
      cases hover : overlap ix q it'.cur with
      | true =>
        simp only [hover, if_true]
        exact ⟨h', rfl⟩
      | false =>
        simp only [hover, Bool.false_eq_true, if_false]
        exact ih h' (by omega)
    | climb =>
      unfold nextLoop
      cases hpath : it.path with
      | nil =>
        change pathTodo ix q it.path = []
        rw [hpath]
        rfl
      | cons f path =>
        have hdepth : path.length < b + bitsPerLong := by
          by_contra hcon
          have hfits := hT
          rw [← h.tree, hpath] at hfits
          cases f with
          | left x r =>
            have hparent : Fits ix b 0 (plug path (.node (.node _ _ _) x r)) := hfits
            cases (hparent.plug.leaf (Nat.le_of_not_lt hcon)).1
          | right l x =>
            have hparent : Fits ix b 0 (plug path (.node l x (.node _ _ _))) := hfits
            cases (hparent.plug.leaf (Nat.le_of_not_lt hcon)).2
        have h' := h.parent hb hb' hpath hdepth
        have htodo : todo ix q it .climb = pathTodo ix q (f :: path) := by
          simp only [todo]
          rw [hpath]
        have hfuel' : 6 * pathSize (f :: path) + 3 * (path.length + 1) < fuel + 1 := by
          simp only [measure] at hfuel
          rwa [hpath] at hfuel
        rw [htodo]
        cases f with
        | left x r =>
          rw [pathSize] at hfuel'
          refine @ih .goRight _ h' ?_
          change 6 * (r.size + pathSize path) + 3 * path.length + 1 < fuel
          omega
        | right l x =>
          rw [pathSize] at hfuel'
          refine @ih .climb _ h' ?_
          change 6 * pathSize path + 3 * path.length < fuel
          omega

/-- `prio_tree_first` comes to the first node that overlaps, without going back: a node that does
not overlap starts after the interval, and so do all nodes to its right. -/
theorem firstLoop_spec {fuel : Nat} {it : Iter α} (hT : Fits ix b 0 T)
    (h : AtPlace b T it) (hheap : q.rIndex ≤ ix.heap it.cur) (hfuel : measure it .goLeft < fuel) :
    Yields ix q b T (if overlap ix q it.cur then it.cur :: todo ix q it .goLeft
      else todo ix q it .goLeft) (firstLoop ix q fuel it) := by
  induction fuel generalizing it with
  | zero => omega
  | succ fuel ih =>
    unfold firstLoop
    cases hover : overlap ix q it.cur with
    | true =>
      simp only [if_true]
      exact ⟨h, rfl⟩
    | false =>
      simp only [Bool.false_eq_true, if_false]
      rcases h.left (q := q) hT with ⟨hstay, hnone⟩ | ⟨it', hdown, h', hheap', hleft, hpath⟩
      · have htodo : todo ix q it .goLeft = todo ix q it .goRight := by
          simp only [todo]
          rw [hnone, List.nil_append]
        rw [hstay, htodo]
        rcases h.right (q := q) hT with
          ⟨hstay', hnone'⟩ | ⟨it', hdown, h', hheap', hright, hpath⟩
        · dsimp only
          rw [hstay']
          have hlt : q.hIndex < ix.radix it.cur := by
            have hnot := of_decide_eq_false hover
            omega
          have hplug := hT
          rw [← h.tree] at hplug
          change todo ix q it .goRight = []
          simp only [todo]
          rw [hnone', List.nil_append]
          exact pathTodo_eq_nil hplug (by simp) hlt
        · dsimp only
          rw [hdown, todo_right hright hpath]
          have := measure_right hright hpath
          refine ih h' hheap' ?_
          simp only [measure] at *
          omega
      · rw [hdown, todo_left hleft hpath]
        have := measure_left hleft hpath
        exact ih h' hheap' (by omega)

/-!
## Sequences of insertions and removals

Read `prio_tree_stabbing` first: whatever was inserted and removed, an iterator returns the
stored nodes that overlap, each once.
-/

open Library

variable {α : Type u} {ix : Indices α}

theorem size_plug (path : List (Frame α)) (t : Tree α) :
    t.size + pathSize path + path.length ≤ (plug path t).size := by
  induction path generalizing t with
  | nil => exact Nat.le_refl _
  | cons f path ih =>
    cases f with
    | left x r =>
      have := ih (.node t x r)
      rw [Tree.size] at this
      rw [plug, pathSize, List.length_cons]
      omega
    | right l x =>
      have := ih (.node l x t)
      rw [Tree.size] at this
      rw [plug, pathSize, List.length_cons]
      omega

theorem AtPlace.measure_lt {b : Nat} {T : Tree α} {it : Iter α} (h : AtPlace b T it) :
    measure it .goLeft < 6 * T.size + 3 := by
  have hsize := size_plug it.path (.node it.left it.cur it.right)
  rw [h.tree, Tree.size] at hsize
  simp only [measure]
  omega

/-- A call to `prio_tree_next` with an iterator in use. -/
theorem AtPlace.next {root : Root α} {it : Iter α} {fuel : Nat} (h : RootOk ix root)
    (hit : AtPlace root.indexBits root.prioTreeNode it)
    (hfuel : 6 * root.prioTreeNode.size + 3 ≤ fuel) (q : Query) :
    Yields ix q root.indexBits root.prioTreeNode (todo ix q it .goLeft)
      (nextLoop ix q fuel .goLeft it) :=
  nextLoop_spec h.pos h.le h.fits hit (Nat.lt_of_lt_of_le hit.measure_lt hfuel)

/-- Calls from a place on return what is left. -/
theorem iterate_some {root : Root α} {q : Query} {it : Iter α} {xs : List α} {fuel : Nat}
    (h : RootOk ix root) (hit : AtPlace root.indexBits root.prioTreeNode it)
    (htodo : todo ix q it .goLeft = xs) (hfuel : 6 * root.prioTreeNode.size + 3 + xs.length < fuel) :
    iterate ix q root fuel (some it) = some xs := by
  induction xs generalizing it fuel with
  | nil =>
    obtain ⟨k, rfl⟩ : ∃ k, fuel = k + 1 := ⟨fuel - 1, by omega⟩
    have hnext := hit.next h (Nat.le_of_lt_succ hfuel) q
    rw [htodo] at hnext
    unfold iterate prioTreeNext
    dsimp only
    generalize nextLoop ix q k .goLeft it = r at hnext ⊢
    cases r with
    | found it' => cases hnext.2
    | null => rfl
    | bug => exact hnext.elim
    | endless => exact hnext.elim
  | cons x xs ih =>
    obtain ⟨k, rfl⟩ : ∃ k, fuel = k + 1 := ⟨fuel - 1, by omega⟩
    rw [List.length_cons] at hfuel
    have hnext := hit.next h (show 6 * root.prioTreeNode.size + 3 ≤ k by omega) q
    rw [htodo] at hnext
    unfold iterate prioTreeNext
    dsimp only
    generalize nextLoop ix q k .goLeft it = r at hnext ⊢
    cases r with
    | found it' =>
      obtain ⟨hit', heq⟩ := hnext
      obtain ⟨rfl, rfl⟩ := List.cons.inj heq
      dsimp only
      rw [ih hit' rfl (by omega)]
      rfl
    | null => cases hnext
    | bug => exact hnext.elim
    | endless => exact hnext.elim

/-- The first call returns the first node that overlaps. -/
theorem prioTreeFirst_spec {root : Root α} {fuel : Nat} (h : RootOk ix root) (q : Query)
    (hfuel : 6 * root.prioTreeNode.size + 3 ≤ fuel) :
    Yields ix q root.indexBits root.prioTreeNode (overlapping ix q root.prioTreeNode)
      (prioTreeFirst ix q fuel root) := by
  obtain ⟨tree, b⟩ := root
  unfold prioTreeFirst
  cases tree with
  | nil => rfl
  | node l x r =>
    have hfits : Fits ix b 0 (.node l x r) := h.fits
    have hb : 1 ≤ b := h.pos
    dsimp only
    by_cases hheap : ix.heap x < q.rIndex
    · rw [if_pos hheap]
      exact overlapping_of_heap_lt hfits hheap
    rw [if_neg hheap]
    have hit : AtPlace b (.node l x r) ⟨l, x, r, [], 2 ^ (b - 1), 0, 0⟩ := by
      refine ⟨rfl, ?_, rfl, (if_pos hb).symm⟩
      change 2 ^ (b - 1) = iterMaskAt b 0
      unfold iterMaskAt
      rw [if_pos (by omega), maskAt_of_lt hb, Nat.sub_zero]
    have hfirst := firstLoop_spec hfits hit (Nat.le_of_not_lt hheap)
      (Nat.lt_of_lt_of_le hit.measure_lt hfuel)
    rw [overlapping_node]
    simp only [todo, pathTodo, List.append_nil] at hfirst
    exact hfirst

/-- Calls with a fresh iterator return all nodes that overlap. -/
theorem iterate_none {root : Root α} (h : RootOk ix root) (q : Query) {fuel : Nat}
    (hfuel : 6 * root.prioTreeNode.size + 4 +
      (overlapping ix q root.prioTreeNode).length < fuel) :
    iterate ix q root fuel none = some (overlapping ix q root.prioTreeNode) := by
  obtain ⟨k, rfl⟩ : ∃ k, fuel = k + 1 := ⟨fuel - 1, by omega⟩
  have hfirst := prioTreeFirst_spec h q (show 6 * root.prioTreeNode.size + 3 ≤ k by omega)
  unfold iterate prioTreeNext
  dsimp only
  generalize prioTreeFirst ix q k root = r at hfirst ⊢
  cases r with
  | found it =>
    obtain ⟨hit, heq⟩ := hfirst
    rw [heq, List.length_cons] at hfuel
    rw [heq]
    dsimp only
    rw [iterate_some h hit rfl (by omega)]
    rfl
  | null =>
    have hnil : overlapping ix q root.prioTreeNode = [] := hfirst
    rw [hnil]
  | bug => exact hfirst.elim
  | endless => exact hfirst.elim

/-- One call, with the nodes that are stored. -/
def Step [DecidableEq α] (ix : Indices α) (s : Root α × (α → Prop)) (op : Op α)
    (s' : Root α × (α → Prop)) : Prop :=
  match op with
  | .insert x => ∃ result, prioTreeInsert ix s.1 x = (s'.1, result) ∧
      s'.2 = match result with
        | .new => fun y => y = x ∨ s.2 y
        | _ => s.2
  | .remove x => s.2 x ∧ s'.1 = prioTreeRemove ix s.1 x ∧ s'.2 = fun y => s.2 y ∧ y ≠ x

/-- The tree is in order and has the stored nodes. -/
def Stores (ix : Indices α) (s : Root α × (α → Prop)) : Prop :=
  RootOk ix s.1 ∧ ∀ x, x ∈ s.1.prioTreeNode.toList ↔ s.2 x

theorem Stores.step [DecidableEq α] {s s' : Root α × (α → Prop)} {op : Op α} (h : Stores ix s)
    (hstep : Step ix s op s') : Stores ix s' := by
  obtain ⟨hok, hmem⟩ := h
  obtain ⟨root', S'⟩ := s'
  cases op with
  | insert x =>
    obtain ⟨result, hins, hS⟩ := hstep
    have hspec := prioTreeInsert_spec hok x
    dsimp only at hins hS
    rw [hins] at hspec
    cases result with
    | new =>
      obtain ⟨-, hok', hmem'⟩ := hspec
      refine ⟨hok', fun y => ?_⟩
      rw [hS, hmem', hmem]
    | existing y =>
      obtain ⟨rfl, -, -⟩ := hspec
      rw [hS]
      exact ⟨hok, hmem⟩
    | bug => exact hspec.elim
  | remove x =>
    obtain ⟨-, hroot, hS⟩ := hstep
    dsimp only at hroot hS
    obtain ⟨hok', hmem'⟩ := prioTreeRemove_spec hok x
    rw [hroot, hS]
    refine ⟨hok', fun y => ?_⟩
    rw [hmem', hmem]

theorem stores_initial : Stores ix (Root.initial, fun _ => False) :=
  ⟨⟨Nat.le_refl 1, (by decide : 1 ≤ bitsPerLong), fits_nil 1 0, fun _ => rfl⟩,
    fun x => mem_nil x⟩

/-- Whatever nodes were inserted and removed: an iterator returns the stored nodes that overlap
its interval, each once, and then `NULL`; and an insertion returns another node exactly if one
with the same interval is stored, and never gets to the `BUG()`. -/
theorem prio_tree_stabbing [DecidableEq α] {root : Root α} {S : α → Prop}
    (hrun : Reaches (Step ix) anyStep (Root.initial, fun _ => False) (root, S)) :
    (∀ q : Query, ∃ xs bound, (∀ fuel, bound < fuel → iterate ix q root fuel none = some xs) ∧
      xs.Nodup ∧ ∀ x, x ∈ xs ↔ S x ∧ ix.radix x ≤ q.hIndex ∧ q.rIndex ≤ ix.heap x) ∧
    ∀ x, (prioTreeInsert ix root x).2 ≠ .bug ∧
      ((∃ y, S y ∧ Same ix y x) ↔ ∃ y, (prioTreeInsert ix root x).2 = .existing y) ∧
      ∀ y, (prioTreeInsert ix root x).2 = .existing y → S y ∧ Same ix y x := by
  obtain ⟨hok, hmem⟩ : Stores ix (root, S) :=
    hrun.invariant (Stores ix) (fun _ _ _ hs _ hstep => hs.step hstep) stores_initial
  refine ⟨fun q => ?_, fun x => ?_⟩
  · refine ⟨overlapping ix q root.prioTreeNode, _, fun fuel hfuel => iterate_none hok q hfuel,
      hok.fits.nodup.filter _, fun x => ?_⟩
    rw [overlapping, List.mem_filter, hmem, overlap, decide_eq_true_iff]
  have hspec := prioTreeInsert_spec hok x
  generalize prioTreeInsert ix root x = result at hspec
  obtain ⟨root', inserted⟩ := result
  cases inserted with
  | new =>
    obtain ⟨hnone, -, -⟩ := hspec
    refine ⟨nofun, ⟨fun ⟨y, hy, hsame⟩ => ?_, nofun⟩, nofun⟩
    exact (hnone y ((hmem y).2 hy) hsame).elim
  | existing y =>
    obtain ⟨-, hy, hsame⟩ := hspec
    refine ⟨nofun, ⟨fun _ => ⟨y, rfl⟩, fun _ => ⟨y, (hmem y).1 hy, hsame⟩⟩, fun z hz => ?_⟩
    cases hz
    exact ⟨(hmem y).1 hy, hsame⟩
  | bug => exact hspec.elim

/-- The intervals `[1, 3]` and `[2, 9]`. -/
def twoIntervals : Indices Bool where
  radix x := cond x 2 1
  heap x := cond x 9 3
  radix_le x := by cases x <;> decide
  heap_lt x := by cases x <;> decide

theorem reaches_inserted : Reaches (Step twoIntervals) anyStep (Root.initial, fun _ => False)
    ((prioTreeInsert twoIntervals .initial true).1, fun y => y = true ∨ False) := by
  have hstep : Step twoIntervals (Root.initial, fun _ => False) (.insert true)
      ((prioTreeInsert twoIntervals .initial true).1, fun y => y = true ∨ False) :=
    ⟨.new, rfl, rfl⟩
  exact (Reaches.refl _).tail hstep trivial

theorem prio_tree_stabbing_inserted :
    ∃ xs bound, (∀ fuel, bound < fuel → iterate twoIntervals ⟨5, 7⟩
        (prioTreeInsert twoIntervals .initial true).1 fuel none = some xs) ∧
      xs.Nodup ∧ ∀ x, x ∈ xs ↔
        (x = true ∨ False) ∧ twoIntervals.radix x ≤ 7 ∧ 5 ≤ twoIntervals.heap x :=
  (prio_tree_stabbing reaches_inserted).1 ⟨5, 7⟩

end AndroidKernel.PrioTree
