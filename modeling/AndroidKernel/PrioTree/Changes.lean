import AndroidKernel.PrioTree.Model

/-!
# Insertion, removal and expansion

Each keeps the order of the tree, and has exactly the nodes it should have afterwards. An
insertion finds a node with the same interval if there is one: on the way to it no node is
replaced.
-/

namespace AndroidKernel.PrioTree

universe u

variable {α : Type u} {ix : Indices α}

/-! ## Removal -/

/-- The root is taken off a tree. -/
theorem Fits.pullUp {b d : Nat} {t : Tree α} (h : Fits ix b d t) :
    Fits ix b d (pullUp ix t) ∧
      ∀ l x r, t = .node l x r → ∀ y, y ∈ (pullUp ix t).toList ↔ y ∈ l.toList ∨ y ∈ r.toList := by
  induction t using pullUp.induct ix generalizing d with
  | case1 => exact ⟨h, nofun⟩
  | case2 x =>
    refine ⟨fits_nil b d, fun l y r heq => ?_⟩
    cases heq
    simp [PrioTree.pullUp]
  | case3 x l y r ih =>
    obtain ⟨hfits, hmem⟩ := ih h.right
    have hmem := hmem l y r rfl
    unfold PrioTree.pullUp
    refine ⟨(fits_nil b (d + 1)).node hfits ?_ ?_ (by simp) ?_, fun l' x' r' heq z => ?_⟩
    · exact h.bound y (by simp)
    · intro z hz
      simp only [mem_nil, false_or, hmem] at hz
      exact ⟨h.right.above hz, h.agree y (by simp) z (by simp [hz])⟩
    · intro z hz
      exact (h.ordered.2.1 z (by simp [(hmem z).1 hz])).2
    · cases heq
      simp [hmem]
  | case4 l y r x ih =>
    obtain ⟨hfits, hmem⟩ := ih h.left
    have hmem := hmem l y r rfl
    unfold PrioTree.pullUp
    refine ⟨hfits.node (fits_nil b (d + 1)) ?_ ?_ ?_ (by simp), fun l' x' r' heq z => ?_⟩
    · exact h.bound y (by simp)
    · intro z hz
      simp only [mem_nil, or_false, hmem] at hz
      exact ⟨h.left.above hz, h.agree y (by simp) z (by simp [hz])⟩
    · intro z hz
      exact (h.ordered.1 z (by simp [(hmem z).1 hz])).2
    · cases heq
      simp [hmem]
  | case5 l y r x l' z r' hle ih =>
    obtain ⟨hfits, hmem⟩ := ih h.left
    have hmem := hmem l y r rfl
    unfold PrioTree.pullUp
    rw [if_pos hle]
    have hyz : Above ix y z := h.above_of_heap_le (by simp) (by simp) hle
    refine ⟨hfits.node h.right ?_ ?_ ?_ ?_, fun l₁ x₁ r₁ heq w => ?_⟩
    · exact h.bound y (by simp)
    · intro w hw
      rw [hmem] at hw
      refine ⟨?_, h.agree y (by simp) w (by rcases hw with hw | hw <;> simp [hw])⟩
      rcases hw with hw | hw
      · exact h.left.above hw
      · rcases (mem_node w z l' r').1 hw with rfl | hw
        · exact hyz
        · exact hyz.trans (h.right.above hw)
    · intro w hw
      exact (h.ordered.1 w (by simp [(hmem w).1 hw])).2
    · intro w hw
      exact (h.ordered.2.1 w hw).2
    · cases heq
      simp only [mem_node, hmem]
      tauto
  | case6 l y r x l' z r' hlt ih =>
    obtain ⟨hfits, hmem⟩ := ih h.right
    have hmem := hmem l' z r' rfl
    unfold PrioTree.pullUp
    rw [if_neg hlt]
    have hzy : Above ix z y := .inl (by omega)
    refine ⟨h.left.node hfits ?_ ?_ ?_ ?_, fun l₁ x₁ r₁ heq w => ?_⟩
    · exact h.bound z (by simp)
    · intro w hw
      rw [hmem] at hw
      refine ⟨?_, h.agree z (by simp) w (by rcases hw with hw | hw <;> simp [hw])⟩
      rcases hw with hw | hw
      · rcases (mem_node w y l r).1 hw with rfl | hw
        · exact hzy
        · exact hzy.trans (h.left.above hw)
      · exact h.right.above hw
    · intro w hw
      exact (h.ordered.1 w hw).2
    · intro w hw
      exact (h.ordered.2.1 w (by simp [(hmem w).1 hw])).2
    · cases heq
      simp only [mem_node, hmem]
      tauto

theorem Fits.removeNode [DecidableEq α] {b d : Nat} {t : Tree α} (h : Fits ix b d t) (x : α) :
    Fits ix b d (removeNode ix x t) ∧
      ∀ y, y ∈ (removeNode ix x t).toList ↔ y ∈ t.toList ∧ y ≠ x := by
  induction t generalizing d with
  | nil => exact ⟨h, fun y => by simp [PrioTree.removeNode]⟩
  | node l y r ihl ihr =>
    unfold PrioTree.removeNode
    by_cases hyx : y = x
    · subst hyx
      rw [if_pos rfl]
      refine ⟨h.pullUp.1, fun z => ?_⟩
      rw [h.pullUp.2 l y r rfl z, mem_node]
      constructor
      · exact fun hz => ⟨.inr hz, (h.above hz).ne⟩
      · exact fun ⟨hz, hne⟩ => hz.resolve_left hne
    rw [if_neg hyx]
    obtain ⟨hl, hlmem⟩ := ihl h.left
    obtain ⟨hr, hrmem⟩ := ihr h.right
    refine ⟨hl.node hr (h.bound y (by simp)) ?_ ?_ ?_, fun z => ?_⟩
    · intro z hz
      rw [hlmem, hrmem] at hz
      have hz' : z ∈ l.toList ∨ z ∈ r.toList := hz.imp And.left And.left
      exact ⟨h.above hz', h.agree y (by simp) z (by simp [hz'])⟩
    · exact fun z hz => (h.ordered.1 z ((hlmem z).1 hz).1).2
    · exact fun z hz => (h.ordered.2.1 z ((hrmem z).1 hz).1).2
    rw [mem_node, mem_node, hlmem, hrmem]
    constructor
    · rintro (rfl | ⟨hz, hne⟩ | ⟨hz, hne⟩)
      · exact ⟨.inl rfl, hyx⟩
      · exact ⟨.inr (.inl hz), hne⟩
      · exact ⟨.inr (.inr hz), hne⟩
    · rintro ⟨rfl | hz | hz, hne⟩
      · exact .inl rfl
      · exact .inr (.inl ⟨hz, hne⟩)
      · exact .inr (.inr ⟨hz, hne⟩)

/-! ## Insertion -/

/-- The mask at depth `d`. -/
def maskAt (b d : Nat) : Nat :=
  if d < b then 2 ^ (b - 1 - d) else 2 ^ (bitsPerLong - 1 - (d - b))

/-- The mask picks the bit that decides. -/
theorem and_maskAt (b d : Nat) (x : α) :
    decide ((if decide (b ≤ d) then ix.heap x - ix.radix x else ix.radix x) &&& maskAt b d ≠ 0) =
      branch ix b d x := by
  have hbit (n k : Nat) : decide (n &&& 2 ^ k ≠ 0) = n.testBit k := by
    rw [Nat.and_two_pow]
    cases n.testBit k with
    | false => simp
    | true => simp
  unfold maskAt branch
  by_cases hd : d < b
  · rw [if_pos hd, if_pos hd, if_neg (by simpa using hd)]
    exact hbit _ _
  · rw [if_neg hd, if_neg hd, if_pos (by simpa using hd)]
    exact hbit _ _

theorem maskAt_ne_zero (b d : Nat) : maskAt b d ≠ 0 := by
  unfold maskAt
  split
  · exact Nat.ne_of_gt (Nat.two_pow_pos _)
  · exact Nat.ne_of_gt (Nat.two_pow_pos _)

theorem two_pow_div_two (k : Nat) : 2 ^ k / 2 = if k = 0 then 0 else 2 ^ (k - 1) := by
  cases k with
  | zero => rfl
  | succ k =>
    rw [Nat.pow_succ, Nat.mul_div_cancel _ (by omega), if_neg (by omega), Nat.add_sub_cancel]

/-- The mask one step down. -/
theorem maskAt_succ {b d : Nat} (hd : d + 1 < b + bitsPerLong) :
    (if maskAt b d / 2 = 0 then 2 ^ (bitsPerLong - 1) else maskAt b d / 2) = maskAt b (d + 1) ∧
      (decide (b ≤ d) || decide (maskAt b d / 2 = 0)) = decide (b ≤ d + 1) := by
  have hpos (k : Nat) : 2 ^ k ≠ 0 := Nat.ne_of_gt (Nat.two_pow_pos k)
  unfold maskAt
  by_cases hlt : d < b
  · rw [if_pos hlt, two_pow_div_two]
    by_cases hlast : d + 1 = b
    · rw [if_pos (show b - 1 - d = 0 by omega), if_pos rfl, if_neg (by omega),
        show d + 1 - b = 0 by omega]
      simp [show b ≤ d + 1 by omega]
    · rw [if_neg (show ¬ b - 1 - d = 0 by omega), if_neg (hpos _), if_pos (by omega),
        show b - 1 - d - 1 = b - 1 - (d + 1) by omega]
      simp [show ¬ b ≤ d by omega, show ¬ b ≤ d + 1 by omega]
  · rw [if_neg hlt, two_pow_div_two, if_neg (show ¬ bitsPerLong - 1 - (d - b) = 0 by omega),
      if_neg (hpos _), if_neg (show ¬ d + 1 < b by omega),
      show bitsPerLong - 1 - (d - b) - 1 = bitsPerLong - 1 - (d + 1 - b) by omega]
    simp [show b ≤ d by omega, show b ≤ d + 1 by omega]

/-- What an insertion into a tree at depth `d` does. -/
def Inserts (ix : Indices α) (b d : Nat) (t : Tree α) (x : α) : Tree α × Inserted α → Prop
  | (t', .existing y) => t' = t ∧ y ∈ t.toList ∧ Same ix y x
  | (t', .new) => (∀ y ∈ t.toList, ¬ Same ix y x) ∧ Fits ix b d t' ∧
      ∀ y, y ∈ t'.toList ↔ y = x ∨ y ∈ t.toList
  | (_, .bug) => False

theorem fits_leaf {b d : Nat} {x : α} (hx : ix.heap x < 2 ^ b) :
    Fits ix b d (.node .nil x .nil) :=
  (fits_nil b (d + 1)).node (fits_nil b (d + 1)) hx (by simp) (by simp) (by simp)

/-- The insertion goes on below a node: `x` is left there, and `y` goes down. -/
def insertBelow (ix : Indices α) (l : Tree α) (x : α) (r : Tree α) (y : α) (mask : Nat)
    (sizeFlag right : Bool) : Tree α × Inserted α :=
  if right then
    match r with
    | .nil => (.node l x (.node .nil y .nil), .new)
    | .node l' z r' =>
      let (t, result) := insertLoop ix (.node l' z r') y mask sizeFlag
      (.node l x t, result)
  else
    match l with
    | .nil => (.node (.node .nil y .nil) x r, .new)
    | .node l' z r' =>
      let (t, result) := insertLoop ix (.node l' z r') y mask sizeFlag
      (.node t x r, result)

theorem insertLoop_node {l r : Tree α} {x y : α} {mask : Nat} {sizeFlag : Bool}
    (hmask : mask ≠ 0) (hnot : ¬ Same ix x y) :
    insertLoop ix (.node l x r) y mask sizeFlag =
      if ix.heap x < ix.heap y ∨ ix.heap x = ix.heap y ∧ ix.radix y < ix.radix x then
        insertBelow ix l y r x (if mask / 2 = 0 then 2 ^ (bitsPerLong - 1) else mask / 2)
          (sizeFlag || decide (mask / 2 = 0))
          (decide ((if sizeFlag then ix.heap x - ix.radix x else ix.radix x) &&& mask ≠ 0))
      else
        insertBelow ix l x r y (if mask / 2 = 0 then 2 ^ (bitsPerLong - 1) else mask / 2)
          (sizeFlag || decide (mask / 2 = 0))
          (decide ((if sizeFlag then ix.heap y - ix.radix y else ix.radix y) &&& mask ≠ 0)) := by
  have hnot' : ¬ (ix.radix x = ix.radix y ∧ ix.heap x = ix.heap y) := hnot
  rw [insertLoop, if_neg hmask, if_neg hnot']
  by_cases hswap : ix.heap x < ix.heap y ∨ ix.heap x = ix.heap y ∧ ix.radix y < ix.radix x
  · rw [if_pos hswap]
    simp only [decide_eq_true hswap, if_true]
    rfl
  · rw [if_neg hswap]
    simp only [decide_eq_false hswap, Bool.false_eq_true, if_false]
    rfl

/-- An insertion below the node `x`, given what it does in the subtree that `y` belongs to. -/
theorem insertBelow_spec {b d mask : Nat} {l r : Tree α} {x y : α} {sizeFlag : Bool}
    (h : Fits ix b d (.node l x r)) (hy : ix.heap y < 2 ^ b) (habove : Above ix x y)
    (hagree : AgreeTo ix b d x y)
    (hrec : ∀ t, t ≠ .nil → (t = l ∧ branch ix b d y = false ∨ t = r ∧ branch ix b d y = true) →
      Inserts ix b (d + 1) t y (insertLoop ix t y mask sizeFlag)) :
    Inserts ix b d (.node l x r) y
      (insertBelow ix l x r y mask sizeFlag (branch ix b d y)) := by
  obtain ⟨hl, hr, -, -⟩ := h.ordered
  have hx : ix.heap x < 2 ^ b := h.bound x (by simp)
  -- a node on the other side has another bit
  have hother {z : α} {bit : Bool} (hz : branch ix b d z = bit) (hne : branch ix b d y ≠ bit) :
      ¬ Same ix z y := fun hsame => hne ((hsame.branch b d).symm.trans hz)
  have hbelow (z : α) (hz : z = y ∨ z ∈ l.toList ∨ z ∈ r.toList) :
      Above ix x z ∧ AgreeTo ix b d x z := by
    rcases hz with rfl | hz
    · exact ⟨habove, hagree⟩
    · exact ⟨h.above hz, h.agree x (by simp) z (by simp [hz])⟩
  unfold insertBelow
  cases hbit : branch ix b d y with
  | true =>
    rw [if_pos rfl]
    cases r with
    | nil =>
      refine ⟨fun z hz => ?_, h.left.node (fits_leaf hy) hx ?_ (fun z hz => (hl z hz).2) ?_, ?_⟩
      · simp only [mem_node, mem_nil, or_false] at hz
        rcases hz with rfl | hz
        · exact fun hsame => habove.not_same ⟨hsame.1.symm, hsame.2.symm⟩
        · exact hother (hl z hz).2 (by simp [hbit])
      · intro z hz
        simp only [mem_node, mem_nil, or_false] at hz
        exact hbelow z (by tauto)
      · intro z hz
        simp only [mem_node, mem_nil, or_false] at hz
        rw [hz, hbit]
      · intro z
        simp only [mem_node, mem_nil, or_false]
        tauto
    | node l' w r' =>
      have hsub := hrec (.node l' w r') (by rintro ⟨⟩) (.inr ⟨rfl, hbit⟩)
      dsimp only
      generalize insertLoop ix (.node l' w r') y mask sizeFlag = result at hsub ⊢
      obtain ⟨t, inserted⟩ := result
      cases inserted with
      | existing z =>
        obtain ⟨rfl, hz, hsame⟩ := hsub
        exact ⟨rfl, (mem_node _ _ _ _).2 (.inr (.inr hz)), hsame⟩
      | bug => exact hsub
      | new =>
        obtain ⟨hnone, hfits, hmem⟩ := hsub
        refine ⟨fun z hz => ?_, h.left.node hfits hx ?_ (fun z hz => (hl z hz).2) ?_, ?_⟩
        · rcases (mem_node _ _ _ _).1 hz with rfl | hz | hz
          · exact fun hsame => habove.not_same ⟨hsame.1.symm, hsame.2.symm⟩
          · exact hother (hl z hz).2 (by simp [hbit])
          · exact hnone z hz
        · intro z hz
          rw [hmem] at hz
          exact hbelow z (by tauto)
        · intro z hz
          rcases (hmem z).1 hz with rfl | hz
          · exact hbit
          · exact (hr z hz).2
        · intro z
          rw [mem_node, mem_node, hmem]
          tauto
  | false =>
    rw [if_neg Bool.false_ne_true]
    cases l with
    | nil =>
      refine ⟨fun z hz => ?_, (fits_leaf hy).node h.right hx ?_ ?_ (fun z hz => (hr z hz).2), ?_⟩
      · simp only [mem_node, mem_nil, false_or] at hz
        rcases hz with rfl | hz
        · exact fun hsame => habove.not_same ⟨hsame.1.symm, hsame.2.symm⟩
        · exact hother (hr z hz).2 (by simp [hbit])
      · intro z hz
        simp only [mem_node, mem_nil, or_false] at hz
        exact hbelow z (by tauto)
      · intro z hz
        simp only [mem_node, mem_nil, or_false] at hz
        rw [hz, hbit]
      · intro z
        simp only [mem_node, mem_nil, or_false, false_or]
        tauto
    | node l' w r' =>
      have hsub := hrec (.node l' w r') (by rintro ⟨⟩) (.inl ⟨rfl, hbit⟩)
      dsimp only
      generalize insertLoop ix (.node l' w r') y mask sizeFlag = result at hsub ⊢
      obtain ⟨t, inserted⟩ := result
      cases inserted with
      | existing z =>
        obtain ⟨rfl, hz, hsame⟩ := hsub
        exact ⟨rfl, (mem_node _ _ _ _).2 (.inr (.inl hz)), hsame⟩
      | bug => exact hsub
      | new =>
        obtain ⟨hnone, hfits, hmem⟩ := hsub
        refine ⟨fun z hz => ?_, hfits.node h.right hx ?_ ?_ (fun z hz => (hr z hz).2), ?_⟩
        · rcases (mem_node _ _ _ _).1 hz with rfl | hz | hz
          · exact fun hsame => habove.not_same ⟨hsame.1.symm, hsame.2.symm⟩
          · exact hnone z hz
          · exact hother (hr z hz).2 (by simp [hbit])
        · intro z hz
          rw [hmem] at hz
          exact hbelow z (by tauto)
        · intro z hz
          rcases (hmem z).1 hz with rfl | hz
          · exact hbit
          · exact (hl z hz).2
        · intro z
          rw [mem_node, mem_node, hmem]
          tauto

/-- An insertion finds the node with the interval, or puts the new one in; the `BUG()` is not
reached. -/
theorem insertLoop_spec {b d mask : Nat} {t : Tree α} {y : α} {sizeFlag : Bool}
    (h : Fits ix b d t) (ht : t ≠ .nil) (hy : ix.heap y < 2 ^ b)
    (hagree : ∀ z ∈ t.toList, AgreeTo ix b d y z) (hmask : mask ≠ 0)
    (hlevel : d < b + bitsPerLong → mask = maskAt b d ∧ sizeFlag = decide (b ≤ d)) :
    Inserts ix b d t y (insertLoop ix t y mask sizeFlag) := by
  induction t generalizing d mask y sizeFlag with
  | nil => exact absurd rfl ht
  | node l x r ihl ihr =>
    by_cases hsame : Same ix x y
    · have heq : insertLoop ix (.node l x r) y mask sizeFlag = (.node l x r, .existing x) := by
        have hsame' : ix.radix x = ix.radix y ∧ ix.heap x = ix.heap y := hsame
        rw [insertLoop, if_neg hmask, if_pos hsame']
      rw [heq]
      exact ⟨rfl, by simp, hsame⟩
    have hx : ix.heap x < 2 ^ b := h.bound x (by simp)
    have hd : d < b + bitsPerLong := by
      by_contra hcon
      have := same_of_agreeTo (Nat.le_of_not_lt hcon) hy hx (hagree x (by simp))
      exact hsame ⟨this.1.symm, this.2.symm⟩
    obtain ⟨rfl, rfl⟩ := hlevel hd
    rw [insertLoop_node hmask hsame, and_maskAt, and_maskAt]
    have hmask' : (if maskAt b d / 2 = 0 then 2 ^ (bitsPerLong - 1) else maskAt b d / 2) ≠ 0 := by
      split
      · exact Nat.ne_of_gt (Nat.two_pow_pos _)
      · assumption
    -- in the subtree that a node belongs to, the loop goes on as it should
    have hrec {w : α} (hw : ix.heap w < 2 ^ b)
        (hwagree : ∀ z ∈ (Tree.node l x r).toList, AgreeTo ix b d w z) (t : Tree α)
        (hne : t ≠ .nil)
        (hside : t = l ∧ branch ix b d w = false ∨ t = r ∧ branch ix b d w = true) :
        Inserts ix b (d + 1) t w (insertLoop ix t w
          (if maskAt b d / 2 = 0 then 2 ^ (bitsPerLong - 1) else maskAt b d / 2)
          (decide (b ≤ d) || decide (maskAt b d / 2 = 0))) := by
      have hdown {z : α} (hz : z ∈ (Tree.node l x r).toList)
          (hbit : branch ix b d w = branch ix b d z) : AgreeTo ix b (d + 1) w z := by
        intro e he
        by_cases hed : e < d
        · exact hwagree z hz e hed
        · obtain rfl : e = d := by omega
          exact hbit
      rcases hside with ⟨rfl, hbit⟩ | ⟨rfl, hbit⟩
      · refine ihl h.left hne hw (fun z hz => hdown (by simp [hz]) ?_) hmask' maskAt_succ
        rw [hbit, (h.ordered.1 z hz).2]
      · refine ihr h.right hne hw (fun z hz => hdown (by simp [hz]) ?_) hmask' maskAt_succ
        rw [hbit, (h.ordered.2.1 z hz).2]
    by_cases hswap : ix.heap x < ix.heap y ∨ ix.heap x = ix.heap y ∧ ix.radix y < ix.radix x
    · rw [if_pos hswap]
      -- `y` takes the place of `x`
      have hyx : Above ix y x := hswap.imp id fun ⟨h₁, h₂⟩ => ⟨h₁, h₂⟩
      have hfits : Fits ix b d (.node l y r) := by
        refine h.left.node h.right hy (fun z hz => ?_) (fun z hz => (h.ordered.1 z hz).2)
          fun z hz => (h.ordered.2.1 z hz).2
        exact ⟨hyx.trans (h.above hz), hagree z (by simp [hz])⟩
      have hins := insertBelow_spec hfits hx hyx (hagree x (by simp))
        (hrec hx fun z hz => h.agree x (by simp) z hz)
      generalize insertBelow ix l y r x _ _ _ = result at hins ⊢
      obtain ⟨t, inserted⟩ := result
      cases inserted with
      | existing z =>
        obtain ⟨-, hz, hzx⟩ := hins
        rcases (mem_node _ _ _ _).1 hz with rfl | hz
        · exact (hsame ⟨hzx.1.symm, hzx.2.symm⟩).elim
        · exact ((h.above hz).not_same hzx).elim
      | bug => exact hins
      | new =>
        obtain ⟨-, hfits', hmem⟩ := hins
        refine ⟨fun z hz => ?_, hfits', fun z => ?_⟩
        · rcases (mem_node _ _ _ _).1 hz with rfl | hz
          · exact hsame
          · exact (hyx.trans (h.above hz)).not_same
        · rw [hmem, mem_node, mem_node]
          tauto
    · rw [if_neg hswap]
      refine insertBelow_spec h hy (above_of_not hsame hswap) ?_ (hrec hy hagree)
      exact fun e he => (hagree x (by simp) e he).symm

/-! ## Expansion -/

theorem mem_chainLeft {x : α} {chain : List α} {t : Tree α} :
    x ∈ (chainLeft chain t).toList ↔ x ∈ chain ∨ x ∈ t.toList := by
  induction chain with
  | nil => simp [chainLeft]
  | cons c chain ih => simp [chainLeft, ih, or_assoc]

theorem Ordered.add {b d : Nat} {t : Tree α} (h : Ordered ix b d t) (j : Nat) :
    Ordered ix (b + j) (d + j) t := by
  induction t generalizing d with
  | nil => trivial
  | node l x r ihl ihr =>
    obtain ⟨hl, hr, hleft, hright⟩ := h
    refine ⟨fun y hy => ?_, fun y hy => ?_, ?_, ?_⟩
    · rw [branch_add]
      exact hl y hy
    · rw [branch_add]
      exact hr y hy
    · rw [show d + j + 1 = d + 1 + j by omega]
      exact ihl hleft
    · rw [show d + j + 1 = d + 1 + j by omega]
      exact ihr hright

/-- Nodes chained above a tree, where the bits for them are clear. -/
theorem ordered_chainLeft {b b' d : Nat} {chain : List α} {t : Tree α}
    (hchain : chain.Pairwise (Above ix)) (habove : ∀ x ∈ chain, ∀ y ∈ t.toList, Above ix x y)
    (hbound : ∀ x ∈ (chainLeft chain t).toList, ix.heap x < 2 ^ b')
    (hlen : chain ≠ [] → d + chain.length + b' ≤ b) (ht : Ordered ix b (d + chain.length) t) :
    Ordered ix b d (chainLeft chain t) := by
  induction chain generalizing d with
  | nil => exact ht
  | cons c chain ih =>
    obtain ⟨hc, hchain⟩ := List.pairwise_cons.1 hchain
    have hlen := hlen (List.cons_ne_nil _ _)
    rw [List.length_cons] at hlen ht
    have hbound' (x : α) (hx : x ∈ (chainLeft chain t).toList) : ix.heap x < 2 ^ b' :=
      hbound x (by simp [chainLeft, hx])
    refine ⟨fun y hy => ⟨?_, branch_eq_false (hbound' y hy) (by omega)⟩, by simp, ?_, trivial⟩
    · rcases mem_chainLeft.1 hy with hy | hy
      · exact hc y hy
      · exact habove c (by simp) y hy
    · refine ih hchain (fun x hx => habove x (by simp [hx])) hbound' (fun _ => by omega) ?_
      rwa [show d + 1 + chain.length = d + (chain.length + 1) by omega]

/-- The root of a tree: the number of index bits is enough for all nodes. -/
structure RootOk (ix : Indices α) (root : Root α) : Prop where
  pos : 1 ≤ root.indexBits
  le : root.indexBits ≤ bitsPerLong
  fits : Fits ix root.indexBits 0 root.prioTreeNode
  empty : root.prioTreeNode = .nil → root.indexBits = 1

/-- Where the loop of `prio_tree_expand` is: the tree was made for `b` index bits, and one more
bit was added for every root taken off, as long as there is one. -/
structure Expanding (ix : Indices α) (b hx : Nat) (root : Root α) (chain : List α) : Prop where
  fits : Fits ix b 0 root.prioTreeNode
  sorted : chain.Pairwise (Above ix)
  above : ∀ x ∈ chain, ∀ y ∈ root.prioTreeNode.toList, Above ix x y
  bound : ∀ x ∈ chain, ix.heap x < 2 ^ b
  pos : 1 ≤ root.indexBits
  le : root.indexBits ≤ bitsPerLong
  large : chain ≠ [] ∨ root.prioTreeNode ≠ .nil → 2 ^ (b + chain.length) ≤ hx
  bits : root.prioTreeNode ≠ .nil → root.indexBits = b + 1 + chain.length

/-- How many rounds the loop may still take. -/
def rounds (root : Root α) : Nat :=
  match root.prioTreeNode with
  | .nil => bitsPerLong - root.indexBits
  | .node .. => 2 * bitsPerLong - root.indexBits

theorem lt_of_maxindex_lt {bits hx : Nat} (h : prioTreeMaxindex bits < hx) : 2 ^ bits ≤ hx := by
  unfold prioTreeMaxindex at h
  omega

theorem expandLoop_spec {b hx fuel : Nat} {root : Root α} {chain : List α}
    (h : Expanding ix b hx root chain) (hhx : hx < 2 ^ bitsPerLong) (hfuel : rounds root ≤ fuel) :
    let result := expandLoop ix hx fuel root chain
    Expanding ix b hx result.1 result.2 ∧ hx < 2 ^ result.1.indexBits ∧
      ∀ x, x ∈ result.2 ∨ x ∈ result.1.prioTreeNode.toList ↔
        x ∈ chain ∨ x ∈ root.prioTreeNode.toList := by
  -- while the loop goes on, there are index bits left
  have hroom {bits : Nat} (hlt : prioTreeMaxindex bits < hx) (hle : bits ≤ bitsPerLong) :
      bits < bitsPerLong := by
    refine Nat.lt_of_le_of_ne hle fun heq => ?_
    subst heq
    exact absurd (lt_of_maxindex_lt hlt) (by omega)
  have hdone {bits : Nat} (hnot : ¬ prioTreeMaxindex bits < hx) : hx < 2 ^ bits := by
    have := Nat.two_pow_pos bits
    unfold prioTreeMaxindex at hnot
    omega
  induction fuel generalizing root chain with
  | zero =>
    unfold expandLoop
    have hle := h.le
    refine ⟨h, ?_, fun x => Iff.rfl⟩
    unfold rounds at hfuel
    split at hfuel
    · rwa [show root.indexBits = bitsPerLong by omega]
    · have : 0 < bitsPerLong := by decide
      omega
  | succ fuel ih =>
    unfold expandLoop
    by_cases hmore : prioTreeMaxindex root.indexBits < hx
    · simp only [if_pos hmore]
      have hlt := hroom hmore h.le
      obtain ⟨tree, bits⟩ := root
      dsimp only at hmore hlt ⊢
      cases tree with
      | nil =>
        refine ih ⟨h.fits, h.sorted, h.above, h.bound, Nat.le_add_left _ _, hlt, h.large,
          fun hne => absurd rfl hne⟩ ?_
        have hfuel' : bitsPerLong - bits ≤ fuel + 1 := hfuel
        change bitsPerLong - (bits + 1) ≤ fuel
        omega
      | node l y r =>
        have hbits := h.bits (by rintro ⟨⟩)
        dsimp only at hbits
        obtain ⟨hfits, hmem⟩ := h.fits.pullUp
        have hmem := hmem l y r rfl
        have hfuel' : 2 * bitsPerLong - bits ≤ fuel + 1 := hfuel
        have hsorted : (chain ++ [y]).Pairwise (Above ix) := by
          refine List.pairwise_append.2 ⟨h.sorted, List.pairwise_singleton _ _, fun x hx z hz => ?_⟩
          rw [List.mem_singleton] at hz
          subst hz
          exact h.above x hx z (by simp)
        have habove (x : α) (hx : x ∈ chain ++ [y]) (z : α)
            (hz : z ∈ (PrioTree.pullUp ix (.node l y r)).toList) : Above ix x z := by
          rw [hmem] at hz
          rcases List.mem_append.1 hx with hx | hx
          · exact h.above x hx z (by simp [hz])
          · rw [List.mem_singleton] at hx
            subst hx
            exact h.fits.above hz
        have hbound (x : α) (hx : x ∈ chain ++ [y]) : ix.heap x < 2 ^ b := by
          rcases List.mem_append.1 hx with hx | hx
          · exact h.bound x hx
          · rw [List.mem_singleton] at hx
            subst hx
            exact h.fits.bound x (by simp)
        have hlarge : 2 ^ (b + (chain ++ [y]).length) ≤ hx := by
          rw [List.length_append, List.length_singleton,
            show b + (chain.length + 1) = bits by omega]
          exact lt_of_maxindex_lt hmore
        have hsame (x : α) : x ∈ chain ++ [y] ∨
            x ∈ (PrioTree.pullUp ix (.node l y r)).toList ↔
              x ∈ chain ∨ x ∈ (Tree.node l y r).toList := by
          rw [hmem, List.mem_append, List.mem_singleton, mem_node]
          tauto
        simp only [← hsame]
        cases ht : PrioTree.pullUp ix (.node l y r) with
        | nil =>
          rw [ht] at hfits habove
          have hnext : Expanding ix b hx (.after (bits + 1) .nil) (chain ++ [y]) :=
            ⟨hfits, hsorted, habove, hbound, Nat.le_refl 1, (by decide : 1 ≤ bitsPerLong),
              fun _ => hlarge, fun hne => absurd rfl hne⟩
          refine ih hnext ?_
          change bitsPerLong - 1 ≤ fuel
          omega
        | node l' z r' =>
          rw [ht] at hfits habove
          have hnext : Expanding ix b hx (.after (bits + 1) (.node l' z r'))
              (chain ++ [y]) := by
            refine ⟨hfits, hsorted, habove, hbound, Nat.le_add_left 1 bits, hlt,
              fun _ => hlarge, fun _ => ?_⟩
            rw [List.length_append, List.length_singleton]
            change bits + 1 = _
            omega
          refine ih hnext ?_
          change 2 * bitsPerLong - (bits + 1) ≤ fuel
          omega
    · simp only [if_neg hmore]
      exact ⟨h, hdone hmore, fun _ => trivial⟩

/-- A tree is expanded for a new node that becomes its root. -/
theorem prioTreeExpand_spec {root : Root α} {x : α} (h : RootOk ix root)
    (hlarge : root.prioTreeNode ≠ .nil → prioTreeMaxindex root.indexBits < ix.heap x) :
    RootOk ix (prioTreeExpand ix root x) ∧
      ∀ y, y ∈ (prioTreeExpand ix root x).prioTreeNode.toList ↔
        y = x ∨ y ∈ root.prioTreeNode.toList := by
  have hhx := ix.heap_lt x
  -- the state at the start of the loop
  have hstart : ∃ b bits, Expanding ix b (ix.heap x) ⟨root.prioTreeNode, bits⟩ [] ∧
      (if prioTreeMaxindex root.indexBits < ix.heap x then root.indexBits + 1
        else root.indexBits) = bits := by
    refine ⟨root.indexBits, _, ?_, rfl⟩
    have hpos := h.pos
    have hle := h.le
    refine ⟨h.fits, .nil, nofun, nofun, ?_, ?_, fun hne => ?_, fun hne => ?_⟩
    · dsimp only
      split <;> omega
    · dsimp only
      split
      · rename_i hlt
        refine Nat.lt_of_le_of_ne hle fun heq => ?_
        have := lt_of_maxindex_lt hlt
        rw [heq] at this
        omega
      · exact hle
    · exact lt_of_maxindex_lt (hlarge (hne.resolve_left fun hne => hne rfl))
    · rw [if_pos (hlarge hne)]
      rfl
  obtain ⟨b, bits, hstart, hbits⟩ := hstart
  have hrounds : rounds ⟨root.prioTreeNode, bits⟩ ≤ 2 * bitsPerLong := by
    unfold rounds
    split <;> omega
  obtain ⟨hloop, hroom, hmem⟩ := expandLoop_spec hstart hhx hrounds
  unfold prioTreeExpand
  rw [hbits]
  dsimp only
  obtain ⟨⟨⟨t, bits'⟩, chain⟩, hresult⟩ : ∃ result,
      expandLoop ix (ix.heap x) (2 * bitsPerLong) ⟨root.prioTreeNode, bits⟩ [] = result := ⟨_, rfl⟩
  rw [hresult] at hloop hroom hmem ⊢
  dsimp only at hloop hroom hmem ⊢
  have hall (y : α) (hy : y ∈ chain ∨ y ∈ t.toList) :
      ix.heap y < 2 ^ b ∧ b + chain.length < bits' ∧ 2 ^ b ≤ ix.heap x := by
    have hne : chain ≠ [] ∨ t ≠ .nil := by
      rcases hy with hy | hy
      · exact .inl (List.ne_nil_of_mem hy)
      · refine .inr fun heq => ?_
        simp [heq] at hy
    have hpow := hloop.large hne
    refine ⟨hy.elim (hloop.bound y) (hloop.fits.bound y), ?_, ?_⟩
    · exact (Nat.pow_lt_pow_iff_right (by omega)).1 (Nat.lt_of_le_of_lt hpow hroom)
    · exact Nat.le_trans (Nat.pow_le_pow_right (by omega) (Nat.le_add_right _ _)) hpow
  have hchain : Ordered ix bits' 1 (chainLeft chain t) := by
    refine ordered_chainLeft hloop.sorted hloop.above
      (fun y hy => (hall y (mem_chainLeft.1 hy)).1) ?_ ?_
    · intro hne
      obtain ⟨y, hy⟩ := List.exists_mem_of_ne_nil chain hne
      have := (hall y (.inl hy)).2.1
      omega
    cases ht : t with
    | nil => trivial
    | node l y r =>
      have hsame := hloop.bits (by rw [ht]; nofun)
      have hord := hloop.fits.ordered.add (1 + chain.length)
      dsimp only at hsame hord
      rw [ht] at hord
      rwa [Nat.zero_add, ← Nat.add_assoc, ← hsame] at hord
  refine ⟨⟨hloop.pos, hloop.le, ⟨⟨?_, by simp, hchain, trivial⟩, ?_, ?_⟩, nofun⟩, fun y => ?_⟩
  · intro y hy
    obtain ⟨hy, hlen, hxl⟩ := hall y (mem_chainLeft.1 hy)
    exact ⟨.inl (by omega), branch_eq_false hy (show 0 + b < bits' by omega)⟩
  · exact fun y _ z _ e he => absurd he (Nat.not_lt_zero e)
  · intro y hy
    rcases (mem_node _ _ _ _).1 hy with rfl | hy | hy
    · exact hroom
    · obtain ⟨hy, hlen, hxl⟩ := hall y (mem_chainLeft.1 hy)
      dsimp only
      omega
    · simp at hy
  · rw [chainLeft, mem_node, mem_chainLeft, hmem]
    simp

/-! ## The calls -/

/-- What `prio_tree_insert` does. -/
def RootInserts (ix : Indices α) (root : Root α) (x : α) : Root α × Inserted α → Prop
  | (root', .existing y) => root' = root ∧ y ∈ root.prioTreeNode.toList ∧ Same ix y x
  | (root', .new) => (∀ y ∈ root.prioTreeNode.toList, ¬ Same ix y x) ∧ RootOk ix root' ∧
      ∀ y, y ∈ root'.prioTreeNode.toList ↔ y = x ∨ y ∈ root.prioTreeNode.toList
  | (_, .bug) => False

theorem prioTreeInsert_spec {root : Root α} (h : RootOk ix root) (x : α) :
    RootInserts ix root x (prioTreeInsert ix root x) := by
  obtain ⟨tree, bits⟩ := root
  unfold prioTreeInsert
  cases tree with
  | nil =>
    obtain ⟨hok, hmem⟩ := prioTreeExpand_spec h fun hne => absurd rfl hne
    exact ⟨by simp, hok, hmem⟩
  | node l y r =>
    dsimp only
    by_cases hlarge : prioTreeMaxindex bits < ix.heap x
    · rw [if_pos hlarge]
      obtain ⟨hok, hmem⟩ := prioTreeExpand_spec h fun _ => hlarge
      refine ⟨fun z hz hsame => ?_, hok, hmem⟩
      have hz := h.fits.bound z hz
      have hx := lt_of_maxindex_lt hlarge
      have hheap := hsame.2
      dsimp only at hz
      omega
    rw [if_neg hlarge]
    have hx : ix.heap x < 2 ^ bits := by
      have := Nat.two_pow_pos bits
      unfold prioTreeMaxindex at hlarge
      omega
    have hpos : 1 ≤ bits := h.pos
    have hins := insertLoop_spec h.fits nofun hx
      (fun z _ e he => absurd he (Nat.not_lt_zero e)) (maskAt_ne_zero bits 0)
      (fun _ => ⟨rfl, rfl⟩)
    have hmask : maskAt bits 0 = 2 ^ (bits - 1) := by
      unfold maskAt
      rw [if_pos (show 0 < bits from hpos), Nat.sub_zero]
    rw [hmask, decide_eq_false (show ¬ bits ≤ 0 by omega)] at hins
    dsimp only at hins
    generalize insertLoop ix (.node l y r) x (2 ^ (bits - 1)) false = result at hins ⊢
    obtain ⟨t, inserted⟩ := result
    cases inserted with
    | existing z =>
      obtain ⟨rfl, hz, hsame⟩ := hins
      exact ⟨rfl, hz, hsame⟩
    | bug => exact hins
    | new =>
      obtain ⟨hnone, hfits, hmem⟩ := hins
      refine ⟨hnone, ⟨hpos, h.le, hfits, fun heq => ?_⟩, hmem⟩
      have hxmem := (hmem x).2 (.inl rfl)
      have heq : t = .nil := heq
      simp [heq] at hxmem

theorem prioTreeRemove_spec [DecidableEq α] {root : Root α} (h : RootOk ix root) (x : α) :
    RootOk ix (prioTreeRemove ix root x) ∧
      ∀ y, y ∈ (prioTreeRemove ix root x).prioTreeNode.toList ↔
        y ∈ root.prioTreeNode.toList ∧ y ≠ x := by
  obtain ⟨hfits, hmem⟩ := h.fits.removeNode x
  unfold prioTreeRemove
  cases ht : removeNode ix x root.prioTreeNode with
  | nil =>
    rw [ht] at hmem
    exact ⟨⟨Nat.le_refl 1, (by decide : 1 ≤ bitsPerLong), fits_nil 1 0, fun _ => rfl⟩, hmem⟩
  | node l y r =>
    rw [ht] at hfits hmem
    exact ⟨⟨h.pos, h.le, hfits, nofun⟩, hmem⟩

end AndroidKernel.PrioTree
