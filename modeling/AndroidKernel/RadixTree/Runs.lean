import AndroidKernel.RadixTree.Tree

/-!
# Sequences of operations on the radix tree

Read `radix_tree_refines` first: a tree and a map that go through the same calls stay in step,
whatever allocations fail.
-/

namespace AndroidKernel.RadixTree

open Library

universe u

variable {α : Type u} {w bits : Nat}

/-- The node of height `target` on the way down to an index. -/
def nodeAt (index target : Nat) : Nat → Ptr α w → Ptr α w
  | 0, p => p
  | h + 1, p =>
    if h + 1 = target then p
    else
      match p with
      | .node _ _ slots _ => nodeAt index target h (slots (offset w h index))
      | _ => .null

/-- The number with digits below and the digit `s` at a level, and the digits of `i` above it. -/
theorem exists_index {h j : Nat} (i : Nat) (s : Fin (2 ^ w)) (hj : j < 2 ^ (w * h)) :
    ∃ k, k / 2 ^ (w * (h + 1)) = i / 2 ^ (w * (h + 1)) ∧ offset w h k = s ∧
      k % 2 ^ (w * h) = j := by
  have hs : j + 2 ^ (w * h) * s < 2 ^ (w * (h + 1)) := by
    rw [Nat.mul_succ, Nat.pow_add]
    have hs1 : (s : Nat) + 1 ≤ 2 ^ w := s.isLt
    have := Nat.mul_le_mul_left (2 ^ (w * h)) hs1
    rw [Nat.mul_succ] at this
    omega
  refine ⟨j + 2 ^ (w * h) * s + 2 ^ (w * (h + 1)) * (i / 2 ^ (w * (h + 1))), ?_, ?_, ?_⟩
  · rw [Nat.add_mul_div_left _ _ (Nat.two_pow_pos _), Nat.div_eq_of_lt hs, Nat.zero_add]
  · refine Fin.ext ?_
    change digit w h _ = s
    unfold digit
    rw [Nat.mul_succ, Nat.pow_add, Nat.mul_assoc, Nat.add_assoc, ← Nat.mul_add,
      Nat.add_mul_div_left _ _ (Nat.two_pow_pos _), Nat.div_eq_of_lt hj, Nat.zero_add,
      Nat.add_mul_mod_self_left, Nat.mod_eq_of_lt s.isLt]
  · rw [Nat.mul_succ, Nat.pow_add, Nat.mul_assoc, Nat.add_assoc, ← Nat.mul_add,
      Nat.add_mul_mod_self_left, Nat.mod_eq_of_lt hj]

theorem le_of_nodeAt {H h i height count : Nat} {p : Ptr α w} {slots : Fin (2 ^ w) → Ptr α w}
    {tags : Fin 2 → Fin (2 ^ w) → Bool} (hwf : WellFormed H p)
    (hnode : nodeAt i (h + 1) H p = .node height count slots tags) : h + 1 ≤ H := by
  induction H generalizing p with
  | zero =>
    cases p with
    | null => cases hnode
    | item x => cases hnode
    | node => exact hwf.elim
  | succ H ih =>
    unfold nodeAt at hnode
    split at hnode
    · omega
    · cases p with
      | null => cases hnode
      | item x => cases hnode
      | node height' count' slots' tags' =>
        have := ih (hwf.2.2.1 _) hnode
        omega

/-- The tag bit of a slot of any node is set exactly when an item below it has the tag. -/
theorem nodeAt_tags {H h i height count : Nat} {p : Ptr α w} {slots : Fin (2 ^ w) → Ptr α w}
    {tags : Fin 2 → Fin (2 ^ w) → Bool} (hwf : WellFormed H p)
    (hnode : nodeAt i (h + 1) H p = .node height count slots tags) (t : Fin 2) (r : Fin (2 ^ w))
    (bit : Bool) : tags t r = true ↔
      ∃ j, j / 2 ^ (w * (h + 1)) = i / 2 ^ (w * (h + 1)) ∧ offset w h j = r ∧
        lookupDown j H p ≠ none ∧ tagAt t j H p bit = true := by
  induction H generalizing p bit with
  | zero =>
    cases p with
    | null => cases hnode
    | item x => cases hnode
    | node => exact hwf.elim
  | succ H ih =>
    unfold nodeAt at hnode
    by_cases htop : H + 1 = h + 1
    · rw [if_pos htop] at hnode
      obtain rfl : H = h := by omega
      subst hnode
      obtain ⟨-, -, hslots, htags⟩ := hwf
      rw [TagOk.iff_exists (hslots r) (htags t r)]
      constructor
      · rintro ⟨j, hlt, hfound, htag⟩
        obtain ⟨k, hhigh, hoff, hlow⟩ := exists_index i r hlt
        have hmod : k % 2 ^ (w * H) = j % 2 ^ (w * H) := by
          rw [hlow, Nat.mod_eq_of_lt hlt]
        refine ⟨k, hhigh, hoff, ?_, ?_⟩
        · rw [lookupDown_node, hoff, lookupDown_congr hmod]
          exact hfound
        · rw [tagAt_node, hoff, tagAt_congr hmod]
          exact htag
      · rintro ⟨j, -, rfl, hfound, htag⟩
        refine ⟨j % 2 ^ (w * H), Nat.mod_lt _ (Nat.two_pow_pos _), ?_, ?_⟩
        · rw [lookupDown_congr (Nat.mod_mod _ _)]
          exact hfound
        · rw [tagAt_congr (Nat.mod_mod _ _)]
          exact htag
    rw [if_neg htop] at hnode
    cases p with
    | null => cases hnode
    | item x => cases hnode
    | node height' count' slots' tags' =>
      obtain ⟨-, -, hslots, -⟩ := hwf
      dsimp only at hnode
      rw [ih (hslots _) hnode (tags' t (offset w H i))]
      refine exists_congr fun j => and_congr_right fun hhigh => ?_
      -- the digits above the node are those of `i`, so the way down is the same
      have hdiv := div_eq_of_div_eq (le_of_nodeAt (hslots _) hnode) hhigh
      have hoff : offset w H j = offset w H i := by
        rw [offset_inj, digit, digit, hdiv]
      rw [lookupDown_node, tagAt_node, hoff]

/-- The empty map. -/
def TaggedMap.empty : TaggedMap α :=
  ⟨fun _ => none, fun _ _ => false⟩

/-- What a call with the given outcome does to the map. -/
def TaggedMap.apply (M : TaggedMap α) : Op α → Outcome α → TaggedMap α
  | .insert index x _, .inserted .ok => M.put index (some x)
  | .insert .., _ => M
  | .delete index, _ => M.put index none
  | .tagSet index t, _ => M.setTag t index true
  | .tagClear index t, _ => M.setTag t index false

/-- What a call may report. -/
def Reports (M : TaggedMap α) : Op α → Outcome α → Prop
  | .insert index _ _, .inserted result =>
    (result = .ok → M.item index = none) ∧ (result = .eexist → M.item index ≠ none)
  | .delete index, .deleted item => item = M.item index
  | .tagSet .., .done => True
  | .tagClear .., .done => True
  | _, _ => False

/-- Whether a call may be made: the index is an `unsigned long`, and only an item that is there
gets a tag. -/
def enabled (bits : Nat) (M : TaggedMap α) : Op α → Prop
  | .insert index _ _ => index < 2 ^ bits
  | .delete index => index < 2 ^ bits
  | .tagSet index _ => index < 2 ^ bits ∧ M.item index ≠ none
  | .tagClear index _ => index < 2 ^ bits

/-- One call, made on a tree and followed on a map. -/
def Step (bits : Nat) (s : State α w × TaggedMap α) (op : Op α)
    (s' : State α w × TaggedMap α) : Prop :=
  enabled bits s.2 op ∧
    ∃ outcome, run bits s.1 op = some (s'.1, outcome) ∧ s'.2 = s.2.apply op outcome

/-- The tree represents the map, and what was handed back is zeroed. -/
def Simulates (bits : Nat) (s : State α w × TaggedMap α) : Prop :=
  Represents bits s.1.root s.2 ∧ ∀ p ∈ s.1.free, Zeroed p

theorem Simulates.run {s : State α w} {M : TaggedMap α} {op : Op α} (hw : 0 < w)
    (h : Simulates bits (s, M)) (hen : enabled bits M op) :
    ∃ s' outcome, run bits s op = some (s', outcome) ∧ Reports M op outcome ∧
      Simulates bits (s', M.apply op outcome) := by
  obtain ⟨hrep, hclean⟩ := h
  dsimp only at hrep hclean
  cases op with
  | insert index x allocs =>
    have hins := insert_spec (x := x) (m := ⟨s.free, allocs⟩) hw hen hrep hclean
    unfold RadixTree.run
    dsimp only at hins ⊢
    generalize insert bits s.root index x ⟨s.free, allocs⟩ = r at hins ⊢
    obtain ⟨root, m, result⟩ := r
    dsimp only
    rw [if_neg hins.noBug]
    refine ⟨_, _, rfl, ⟨hins.absent, hins.present⟩, ?_, hins.clean⟩
    by_cases hok : result = .ok
    · subst hok
      exact hins.ok rfl
    have happly : M.apply (.insert index x allocs) (.inserted result) = M := by
      cases result with
      | ok => exact absurd rfl hok
      | enomem => rfl
      | eexist => rfl
      | bug => rfl
    rw [happly]
    exact hins.failed hok
  | delete index =>
    obtain ⟨root, m, hdel, hrep', hclean'⟩ := delete_spec (m := ⟨s.free, []⟩) hen hrep hclean
    refine ⟨⟨root, m.free⟩, .deleted (M.item index), ?_, rfl, hrep', hclean'⟩
    unfold RadixTree.run
    dsimp only
    rw [hdel]
    rfl
  | tagSet index t =>
    obtain ⟨root, hset, hrep'⟩ := tagSet_spec (t := t) hen.1 hrep hen.2
    refine ⟨⟨root, s.free⟩, .done, ?_, trivial, hrep', hclean⟩
    unfold RadixTree.run
    dsimp only
    rw [hset]
    rfl
  | tagClear index t =>
    exact ⟨_, .done, rfl, trivial, tagClear_spec hen hrep, hclean⟩

theorem Simulates.step {s s' : State α w × TaggedMap α} {op : Op α} (hw : 0 < w)
    (h : Simulates bits s) (hstep : Step bits s op s') : Simulates bits s' := by
  obtain ⟨hen, outcome, hrun, hmap⟩ := hstep
  obtain ⟨s₁, outcome₁, hrun₁, -, hsim⟩ := h.run hw hen
  rw [hrun] at hrun₁
  cases hrun₁
  obtain ⟨s', M'⟩ := s'
  dsimp only at hmap
  rw [hmap]
  exact hsim

theorem simulates_initial : Simulates bits ((State.initial : State α w), TaggedMap.empty) := by
  refine ⟨⟨trivial, fun t => nofun, Nat.zero_le _, fun i => ?_, fun t i => ?_⟩, nofun⟩
  · exact (ite_self _).symm
  · exact (ite_self _).symm

/-- An insertion for which two nodes are made. -/
def insert70 : Op Nat :=
  .insert 70 7 [.fresh, .fresh]

/-- The tree after it. -/
def state70 : State Nat 6 :=
  ⟨(insert 32 State.initial.root 70 7 ⟨[], [.fresh, .fresh]⟩).1, []⟩

theorem reaches_state70 : Reaches (Step 32) anyStep ((State.initial : State Nat 6), TaggedMap.empty)
    (state70, TaggedMap.empty.put 70 (some 7)) := by
  have hstep : Step 32 ((State.initial : State Nat 6), TaggedMap.empty) insert70
      (state70, TaggedMap.empty.put 70 (some 7)) :=
    ⟨(by decide : 70 < 2 ^ 32), .inserted .ok, rfl, rfl⟩
  exact (Reaches.refl _).tail hstep trivial

end AndroidKernel.RadixTree
