import Mathlib.Data.Nat.Size
import AndroidKernel.Idr.Runs

/-!
# Removing any id

`idr_remove` follows the low digits of its argument, as many as the tree has layers. For an id
that is not allocated, and whose low digits are not those of an allocated one, it only clears bits
that are clear. An id beyond the tree whose low digits are those of an allocated id removes that
one.
-/

namespace AndroidKernel.Idr

open Library

universe u

variable {α : Type u}

/-- An unused id is not removed, and the tree stays as it is. -/
theorem subRemove_unused {id l : Nat} {p : Ptr α} (h : WellFormed l p)
    (hunused : used l p id = false) : subRemove id l p = .warning p := by
  induction l generalizing p with
  | zero =>
    obtain ⟨bitmap, ary, count, rfl⟩ := h.exists_layer
    have hbit : bitmap (slot 0 id) = false := hunused
    unfold subRemove
    dsimp only
    rw [if_neg (by rw [hbit]; exact Bool.false_ne_true)]
  | succ l ih =>
    obtain ⟨bitmap, ary, count, rfl⟩ := h.exists_layer
    rw [used_layer] at hunused
    obtain ⟨hchild, hbit⟩ := h.2.2 _ (slot_lt (l + 1) id)
    -- below a layer with an unused id, the bit is clear already
    have hclear : bitmap (slot (l + 1) id) = false := by
      rw [hbit]
      rcases hchild with hnull | hchild
      · rw [hnull]
        rfl
      · by_contra hfull
        rw [hchild.used_of_full (by simpa using hfull) id] at hunused
        cases hunused
    have hsub : subRemove id l (ary (slot (l + 1) id)) = .warning (ary (slot (l + 1) id)) := by
      rcases hchild with hnull | hchild
      · rw [hnull]
        cases l <;> rfl
      · exact ih hchild hunused
    unfold subRemove
    dsimp only
    rw [hsub]
    dsimp only
    rw [Function.update_eq_self, ← hclear, Function.update_eq_self]

/-- `sub_remove` sees only the low digits. -/
theorem subRemove_congr {i j l : Nat} (h : i % 2 ^ (idrBits * (l + 1)) = j % 2 ^ (idrBits * (l + 1)))
    (p : Ptr α) : subRemove i l p = subRemove j l p := by
  induction l generalizing p with
  | zero =>
    have hslot : slot 0 i = slot 0 j := (mod_succ_inj.1 h).1
    cases p with
    | null => rfl
    | user x => rfl
    | layer bitmap ary count level =>
      unfold subRemove
      dsimp only
      rw [hslot]
  | succ l ih =>
    obtain ⟨hdigit, hlow⟩ := mod_succ_inj.1 h
    have hslot : slot (l + 1) i = slot (l + 1) j := hdigit
    cases p with
    | null => rfl
    | user x => rfl
    | layer bitmap ary count level =>
      unfold subRemove
      dsimp only
      rw [hslot, ih hlow]

/-- The id in the range of the tree that has the same low digits. -/
def Idr.fold (s : Idr α) (id : Nat) : Nat :=
  id % 2 ^ (idrBits * s.layers)

/-- Removing an id whose low digits are those of no allocated id. -/
theorem Represents.idrRemove_unused {s : Idr α} {M : IdMap α} {id : Nat} (h : Represents s M)
    (hid : id < maxIdBit) (hunused : M (s.fold id) = none) : Represents (idrRemove s id) M := by
  unfold Idr.idrRemove
  rw [Nat.mod_eq_of_lt hid]
  rcases h.tree with ⟨hlayers, htop, hM⟩ | ⟨L, hL, hT⟩
  · have hsub : subRemove id (s.layers - 1) s.top = .warning s.top := by
      rw [hlayers, htop]
      rfl
    rw [hsub]
    exact removeFinish_spec h
  have hfold : s.fold id < 2 ^ (idrBits * (L + 1)) := by
    unfold Idr.fold
    rw [hL]
    exact Nat.mod_lt _ (Nat.two_pow_pos _)
  have hused : used L s.top id = false := by
    have hcongr := (@used_congr _ L (s.fold id) id (by
      unfold Idr.fold
      rw [hL, Nat.mod_mod]) s.top).1
    rw [← hcongr]
    by_contra hcon
    exact (hT.isSome_iff_used hfold).2 (by simpa using hcon) hunused
  have hsub : subRemove id (s.layers - 1) s.top = .warning s.top := by
    rw [hL, Nat.add_sub_cancel]
    exact subRemove_unused hT.wellFormed hused
  rw [hsub]
  exact removeFinish_spec h

/-- Removing an id beyond the tree removes the one with the same low digits. -/
theorem idrRemove_fold {s : Idr α} {M : IdMap α} {id : Nat} (h : Represents s M)
    (hid : id < maxIdBit) (hused : M (s.fold id) ≠ none) :
    idrRemove s id = idrRemove s (s.fold id) := by
  have hle : s.fold id ≤ id := Nat.mod_le _ _
  unfold Idr.idrRemove
  rw [Nat.mod_eq_of_lt hid, Nat.mod_eq_of_lt (by omega : s.fold id < maxIdBit)]
  rcases h.tree with ⟨-, -, hM⟩ | ⟨L, hL, -⟩
  · exact absurd (hM _) hused
  · have hcongr := @subRemove_congr _ id (s.fold id) L (by
      unfold Idr.fold
      rw [hL, Nat.mod_mod]) s.top
    rw [hL, Nat.add_sub_cancel, hcongr]

/-- An idr holds one map as far as the ids in use go. -/
theorem Represents.isSome_eq {s : Idr α} {M M' : IdMap α} (h : Represents s M)
    (h' : Represents s M') (j : Nat) : (M j).isSome = (M' j).isSome := by
  rcases h.tree with ⟨hlayers, -, hM⟩ | ⟨L, hL, hT⟩
  · rcases h'.tree with ⟨-, -, hM'⟩ | ⟨L, hL, -⟩
    · rw [hM, hM']
    · omega
  · rcases h'.tree with ⟨hlayers, -, -⟩ | ⟨L', hL', hT'⟩
    · omega
    · obtain rfl : L = L' := by omega
      rw [Bool.eq_iff_iff, hT.used, hT'.used]

/-- What is promised of `idr_remove`: the id is gone, `idr_find` of every other id is as before,
and the layers, their counts and their bits for full layers describe the ids that are left. -/
structure RemovesOnly (s : Idr α) (M : IdMap α) (id : Nat) : Prop where
  gone : idrFind (idrRemove s id) id = some .null
  others : ∀ j < maxIdBit, j ≠ id → idrFind (idrRemove s id) j = idrFind s j
  describes : Represents (idrRemove s id) (Function.update M id none)

/-- The id is in the range of the tree, or no allocated id has its low digits. -/
def RemoveInRange (s : Idr α) (M : IdMap α) (id : Nat) : Prop :=
  id < 2 ^ (idrBits * s.layers) ∨ M (s.fold id) = none

theorem Represents.none_of_beyond {s : Idr α} {M : IdMap α} {id : Nat} (h : Represents s M)
    (hid : 2 ^ (idrBits * s.layers) ≤ id) : M id = none := by
  rcases h.tree with ⟨-, -, hM⟩ | ⟨L, hL, hT⟩
  · exact hM id
  · by_contra hused
    have hlt := ((hT.used id).1 (Option.isSome_iff_ne_none.2 hused)).1
    rw [hL] at hid
    omega

/-- The ids left after a removal in range. -/
theorem Represents.idrRemove {s : Idr α} {M : IdMap α} {id : Nat} (h : Represents s M)
    (hid : id < maxIdBit) (hrange : RemoveInRange s M id) :
    Represents (idrRemove s id) (Function.update M id none) := by
  by_cases hused : M id = none
  · have hfold : M (s.fold id) = none := by
      rcases hrange with hlt | hfold
      · rw [Idr.fold, Nat.mod_eq_of_lt hlt]
        exact hused
      · exact hfold
    rw [← hused, Function.update_eq_self]
    exact h.idrRemove_unused hid hfold
  · exact idrRemove_spec h hid hused

/-- A removal does what is promised exactly when it is in range. -/
theorem Represents.removesOnly_iff {s : Idr α} {M : IdMap α} {id : Nat} (h : Represents s M)
    (hid : id < maxIdBit) : RemovesOnly s M id ↔ RemoveInRange s M id := by
  constructor
  · intro hremoves
    by_contra hrange
    obtain ⟨hbeyond, hused⟩ := not_or.1 hrange
    -- the id with the same low digits is gone, although it should be left
    have hfold : s.fold id < 2 ^ (idrBits * s.layers) := Nat.mod_lt _ (Nat.two_pow_pos _)
    have hne : s.fold id ≠ id := by omega
    have hspec := idrRemove_spec h (by omega : s.fold id < maxIdBit) hused
    rw [← idrRemove_fold h hid hused] at hspec
    have hsome := hspec.isSome_eq hremoves.describes (s.fold id)
    rw [Function.update_self, Function.update_of_ne hne] at hsome
    exact hused (Option.isSome_eq_false_iff.1 hsome.symm |> Option.isNone_iff_eq_none.1)
  · intro hrange
    have hspec := h.idrRemove hid hrange
    refine ⟨?_, fun j hj hne => ?_, hspec⟩
    · rw [hspec.idrFind hid, Function.update_self]
      rfl
    · rw [hspec.idrFind hj, h.idrFind hj, Function.update_of_ne hne]

/-! ## Runs with any removal -/

/-- One call, where any id may be removed, with the map of the ids handed out. -/
def CallStep (s : Idr α × IdMap α) (op : Op α) (s' : Idr α × IdMap α) : Prop :=
  match op with
  | .remove id => id < maxIdBit ∧ s'.1 = idrRemove s.1 id ∧ s'.2 = Function.update s.2 id none
  | op => Step s op s'

/-- Allocations start within reach, and removals are in range. -/
def callsInRange (s : Idr α × IdMap α) : Op α → Prop
  | .getNewAbove _ start => CanReach s.1 s.2 start
  | .remove id => RemoveInRange s.1 s.2 id
  | .preGet _ => True

theorem Represents.callStep {s s' : Idr α × IdMap α} {op : Op α} (h : Represents s.1 s.2)
    (hok : callsInRange s op) (hstep : CallStep s op s') : Represents s'.1 s'.2 := by
  cases op with
  | preGet n => exact @Represents.step _ s s' (.preGet n) h trivial hstep
  | getNewAbove x start => exact @Represents.step _ s s' (.getNewAbove x start) h hok hstep
  | remove id =>
    obtain ⟨hid, h₁, h₂⟩ := hstep
    rw [h₁, h₂]
    exact h.idrRemove hid hok

theorem represents_of_reaches {s : Idr α} {M : IdMap α}
    (hrun : Reaches CallStep callsInRange (Idr.initial, fun _ => none) (s, M)) : Represents s M :=
  hrun.invariant (fun s => Represents s.1 s.2) (fun _ _ _ h hok hstep => h.callStep hok hstep)
    represents_initial

/-- Whatever calls were made, with allocations that start within reach and removals in range: a
removal touches only its id exactly when it is in range. -/
theorem idr_remove_touches_only_iff {s : Idr α} {M : IdMap α} {id : Nat}
    (hrun : Reaches CallStep callsInRange (Idr.initial, fun _ => none) (s, M))
    (hid : id < maxIdBit) : RemovesOnly s M id ↔ RemoveInRange s M id :=
  (represents_of_reaches hrun).removesOnly_iff hid

/-- An idr with one pointer, which got id 0. -/
def single : Idr Nat :=
  (idrGetNewAbove 2 preloaded (some 7) 0).1

theorem reaches_single :
    Reaches CallStep callsInRange (Idr.initial, fun _ => none)
      (single, Function.update (fun _ => none) 0 (some (some 7))) := by
  have hpre : CallStep ((Idr.initial : Idr Nat), fun _ => none) (.preGet idrFreeMax)
      (preloaded, fun _ => none) := ⟨rfl, rfl⟩
  have hgets : Gets preloaded (some 7) 0 single (.id 0) := by
    refine ⟨2, fun fuel hle => ?_⟩
    obtain ⟨k, rfl⟩ : ∃ k, fuel = k + 2 := ⟨fuel - 2, by omega⟩
    rfl
  have hreach : CanReach preloaded (fun _ => none) 0 := ⟨by decide, fun h _ => by
    refine ⟨by decide, fun j hj hlt => absurd hlt (Nat.not_lt_zero j)⟩⟩
  have hget : CallStep (preloaded, fun _ => none) (.getNewAbove (some 7) 0)
      (single, Function.update (fun _ => none) 0 (some (some 7))) :=
    ⟨by decide, .id 0, hgets, rfl⟩
  exact ((Reaches.refl _).tail hpre trivial).tail hget hreach

/-- Id 32 was never allocated, and removing it removes id 0. -/
theorem remove_folds :
    ¬∀ (s : Idr Nat) (M : IdMap Nat) (id : Nat),
      Reaches CallStep callsInRange (Idr.initial, fun _ => none) (s, M) → id < maxIdBit →
        RemovesOnly s M id := by
  intro h
  have hothers := (h _ _ 32 reaches_single (by decide)).others 0 (by decide) (by decide)
  have hbefore : idrFind single 0 = some (.user 7) := rfl
  have hafter : idrFind (idrRemove single 32) 0 = some .null := rfl
  rw [hbefore, hafter] at hothers
  cases hothers

theorem idr_remove_touches_only_iff_single :
    RemovesOnly single (Function.update (fun _ => none) 0 (some (some 7))) 0 ↔
      RemoveInRange single (Function.update (fun _ => none) 0 (some (some 7))) 0 :=
  idr_remove_touches_only_iff reaches_single (by decide)

/-!
## Walks over an idr

`idr_for_each` and `idr_remove_all` walk down and up with an explicit stack `pa` of layers. They
differ in how far down they go, what they do at the bottom and what they do with a layer they
leave, so they are one loop with these as parameters. A pointer on the stack is followed with its
place in the tree.
-/

variable {α : Type u} {σ : Type}

/-- A pointer with its place: what it leads to covers the ids that are `place` without the digits
below `level`. -/
structure Ref (α : Type u) where
  level : Nat
  place : Nat
  ptr : Ptr α

/-- `p->ary[n]`. -/
def Ref.child (r : Ref α) (n : Nat) : Option (Ref α) :=
  match r.ptr with
  | .layer _ ary _ _ => some ⟨r.level - 1, r.place * idrSize + n, ary n⟩
  | _ => none

/-- `fls`. -/
def fls (id : Nat) : Nat :=
  Nat.size id

/-- The first inner loop, which pushes layers, down to the level `bottom` or a null pointer. The
last component is the largest number of layers that were on the stack. -/
def goDown (bottom id : Nat) :
    Nat → Ref α → List (Ref α) → Nat → Nat × Ref α × List (Ref α) × Nat
  | 0, r, stack, high => (0, r, stack, high)
  | l + 1, r, stack, high =>
    if bottom ≤ l then
      match r.child (slot l id) with
      | some c => goDown bottom id l c (r :: stack) (max high (stack.length + 1))
      | none => (l + 1, r, stack, high)
    else (l + 1, r, stack, high)

/-- The second inner loop, which pops layers. Below the first element of `pa` it finds `junk`, and
`low` is set. -/
def goUp (leave : σ → Ref α → σ) (junk : Ref α) (id l : Nat) (r : Ref α) (stack : List (Ref α))
    (st : σ) (low : Bool) : Nat × Ref α × List (Ref α) × σ × Bool :=
  if idrBits * l < fls id then
    match stack with
    | q :: stack => goUp leave junk id (l + 1) q stack (leave st r) low
    | [] => goUp leave junk id (l + 1) junk [] (leave st r) true
  else (l, r, stack, st, low)
termination_by fls id - idrBits * l
decreasing_by all_goals (unfold idrBits at *; omega)

/-- How a walk ends: the state, whether a pop went below the first element of `pa`, and the
largest number of layers on the stack. -/
structure Walked (σ : Type) where
  st : σ
  low : Bool
  high : Nat

/-- The outer loop. `visit` says whether to break. -/
def walk (bottom : Nat) (visit : σ → Nat → Ptr α → σ × Bool) (leave : σ → Ref α → σ)
    (junk : Ref α) (max : Nat) (id l : Nat) (r : Ref α) (stack : List (Ref α)) (st : σ)
    (low : Bool) (high : Nat) : Walked σ :=
  if id < max then
    match goDown bottom id l r stack high with
    | (l, r, stack, high) =>
      match visit st id r.ptr with
      | (st, true) => ⟨st, low, high⟩
      | (st, false) =>
        match goUp leave junk (id + 2 ^ (idrBits * l)) l r stack st low with
        | (l', r, stack, st, low) =>
          walk bottom visit leave junk max (id + 2 ^ (idrBits * l)) l' r stack st low high
  else ⟨st, low, high⟩
termination_by max - id
decreasing_by
  have hpos := Nat.two_pow_pos (idrBits * l)
  omega

/-- `idr_for_each`. The callback has a state, and its result stops the walk unless it is 0. -/
def idrForEach (s : Idr α) (fn : σ → Nat → α → σ × Int) (junk : Ref α) (st : σ) :
    Walked (σ × Int) :=
  walk 0
    (fun st id p =>
      match p with
      | .user x => (fn st.1 id x, (fn st.1 id x).2 != 0)
      | _ => (st, false))
    (fun st _ => st) junk (2 ^ (idrBits * s.layers)) 0 s.layers ⟨s.layers, 0, s.top⟩ [] (st, 0) false
    0

/-- `free_layer` of a layer, unless the pointer is null: its level and place are recorded. -/
def freeLayer (freed : List (Nat × Nat)) (r : Ref α) : List (Nat × Nat) :=
  if r.ptr.isNull then freed else freed ++ [(r.level, r.place)]

/-- `idr_remove_all`: the layers it frees, in order. -/
def idrRemoveAll (s : Idr α) (junk : Ref α) : Walked (List (Nat × Nat)) :=
  walk 1 (fun st _ _ => (st, false)) freeLayer junk (2 ^ (idrBits * s.layers)) 0 s.layers
    ⟨s.layers, 0, s.top⟩ [] [] false 0

/-! ## Places on the way down -/

/-- `p->ary[n]`, null below anything but a layer. -/
def Ptr.child (p : Ptr α) (n : Nat) : Ptr α :=
  match p with
  | .layer _ ary _ _ => ary n
  | _ => .null

/-- The pointer `d` levels below the top of `L` levels, as the digits of an id lead to it. -/
def nodeBelow (L : Nat) (top : Ptr α) (id : Nat) : Nat → Ptr α
  | 0 => top
  | d + 1 => (nodeBelow L top id d).child (slot (L - (d + 1)) id)

/-- The pointer at level `k`. -/
def node (L : Nat) (top : Ptr α) (id k : Nat) : Ptr α :=
  nodeBelow L top id (L - k)

/-- The pointer at level `k` with its place. -/
def ref (L : Nat) (top : Ptr α) (id k : Nat) : Ref α :=
  ⟨k, id / 2 ^ (idrBits * k), node L top id k⟩

/-- The layers above level `k`, the lowest first. -/
def path (L : Nat) (top : Ptr α) (id k : Nat) : List (Ref α) :=
  (List.range' (k + 1) (L - k)).map (ref L top id)

variable {L k id j : Nat} {top : Ptr α}

theorem node_top (L : Nat) (top : Ptr α) (id : Nat) : node L top id L = top := by
  rw [node, Nat.sub_self]
  rfl

theorem node_child (top : Ptr α) (id : Nat) (hk : k < L) :
    node L top id k = (node L top id (k + 1)).child (slot k id) := by
  obtain ⟨d, hd⟩ : ∃ d, L - k = d + 1 := ⟨L - k - 1, by omega⟩
  unfold node
  rw [hd, show L - (k + 1) = d by omega, nodeBelow, show L - (d + 1) = k by omega]

/-- Ids with the same digits from level `k` on have the same pointers there. -/
theorem node_congr (top : Ptr α) (hk : k ≤ L)
    (h : j / 2 ^ (idrBits * k) = id / 2 ^ (idrBits * k)) : node L top j k = node L top id k := by
  induction hd : L - k generalizing k with
  | zero =>
    obtain rfl : k = L := by omega
    rw [node_top, node_top]
  | succ d ih =>
    obtain ⟨hhigh, hdigit⟩ := div_eq_iff.1 h
    have hslot : slot k j = slot k id := hdigit
    rw [node_child top j (by omega), node_child top id (by omega), hslot,
      ih (by omega) hhigh (by omega)]

theorem ref_congr (top : Ptr α) (hk : k ≤ L)
    (h : j / 2 ^ (idrBits * k) = id / 2 ^ (idrBits * k)) : ref L top j k = ref L top id k := by
  rw [ref, ref, h, node_congr top hk h]

theorem path_congr (top : Ptr α) (h : j / 2 ^ (idrBits * k) = id / 2 ^ (idrBits * k)) :
    path L top j k = path L top id k := by
  refine List.map_congr_left fun m hm => ?_
  obtain ⟨hlow, hhigh⟩ := List.mem_range'_1.1 hm
  exact ref_congr top (by omega) (div_eq_of_div_eq (by omega) h)

theorem path_top (L : Nat) (top : Ptr α) (id : Nat) : path L top id L = [] := by
  simp [path]

theorem path_succ (top : Ptr α) (id : Nat) (hk : k < L) :
    path L top id k = ref L top id (k + 1) :: path L top id (k + 1) := by
  obtain ⟨d, hd⟩ : ∃ d, L - k = d + 1 := ⟨L - k - 1, by omega⟩
  unfold path
  rw [hd, List.range'_succ, List.map_cons, show L - (k + 1) = d by omega]

theorem length_path (L : Nat) (top : Ptr α) (id k : Nat) : (path L top id k).length = L - k := by
  simp [path]

/-- The child of a layer on the way down. -/
theorem child_ref (top : Ptr α) (id : Nat) (hk : k < L) {c : Ref α}
    (h : (ref L top id (k + 1)).child (slot k id) = some c) : c = ref L top id k := by
  have hnode := node_child top id hk
  unfold Ref.child ref at h
  unfold ref
  cases hp : node L top id (k + 1) with
  | null => rw [hp] at h; cases h
  | user x => rw [hp] at h; cases h
  | layer bitmap ary count level =>
    rw [hp] at h hnode
    obtain rfl := Option.some.inj h
    have hplace := div_eq_add_digit idrBits k id
    have hdigit : slot k id = digit idrBits k id := rfl
    simp only [Nat.add_sub_cancel, Ref.mk.injEq, true_and]
    refine ⟨?_, hnode.symm⟩
    rw [hplace, ← hdigit]
    rfl

end AndroidKernel.Idr
