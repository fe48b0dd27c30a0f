import AndroidKernel.Plist.Model

/-!
# The two lists of a plist

The node list of a plist goes through all groups of nodes, and its priority list through the first
nodes of the groups. `Inv` says so for groups `gs`. The lemmas tell what the changes of the links
in `plist.c` do to a list of nodes and to the nodes that are by themselves.
-/

/-!
## Nodes in groups of equal priority

The nodes of a plist come in groups of equal priority. `Grouped` says that the priorities of the
groups ascend; it decides the order of all nodes and which of them are the first of their
priorities.
-/

namespace AndroidKernel.Plist

universe u

variable {Node : Type u}

/-- The nodes of a list of groups. A group is its first node and the others. -/
def nodes (gs : List (Node × List Node)) : List Node :=
  gs.flatMap fun g => g.1 :: g.2

/-- The first nodes of the groups. -/
def firsts (gs : List (Node × List Node)) : List Node :=
  gs.map Prod.fst

@[simp] theorem nodes_cons (g : Node × List Node) (gs : List (Node × List Node)) :
    nodes (g :: gs) = g.1 :: (g.2 ++ nodes gs) :=
  rfl

@[simp] theorem nodes_append (gs hs : List (Node × List Node)) :
    nodes (gs ++ hs) = nodes gs ++ nodes hs :=
  List.flatMap_append

@[simp] theorem firsts_cons (g : Node × List Node) (gs : List (Node × List Node)) :
    firsts (g :: gs) = g.1 :: firsts gs :=
  rfl

@[simp] theorem firsts_append (gs hs : List (Node × List Node)) :
    firsts (gs ++ hs) = firsts gs ++ firsts hs :=
  List.map_append

/-- The groups of a list: their nodes have the priority of the first one, and the priorities of
the groups ascend. -/
structure Grouped (prio : Node → Int) (gs : List (Node × List Node)) : Prop where
  same : ∀ g ∈ gs, ∀ m ∈ g.2, prio m = prio g.1
  ascending : gs.Pairwise fun g h => prio g.1 < prio h.1
  nodup : (nodes gs).Nodup

variable {gs ds hs : List (Node × List Node)} {g : Node × List Node} {n m : Node}
  {xs ys : List Node}

theorem firsts_sublist (gs : List (Node × List Node)) : (firsts gs).Sublist (nodes gs) := by
  induction gs with
  | nil => exact List.Sublist.refl []
  | cons g gs ih => exact (ih.trans (List.sublist_append_right g.2 (nodes gs))).cons_cons g.1

theorem mem_firsts_of_not_mem (h : n ∉ nodes gs) : n ∉ firsts gs :=
  fun hmem => h ((firsts_sublist gs).subset hmem)

/-- Groups do not depend on the priorities of other nodes. -/
theorem Grouped.congr {prio prio' : Node → Int} (h : Grouped prio gs)
    (hprio : ∀ m ∈ nodes gs, prio' m = prio m) : Grouped prio' gs := by
  have hmem : ∀ g ∈ gs, ∀ m ∈ g.1 :: g.2, m ∈ nodes gs := fun g hg m hm =>
    List.mem_flatMap.mpr ⟨g, hg, hm⟩
  refine ⟨fun g hg m hm => ?_, ?_, h.nodup⟩
  · rw [hprio m (hmem g hg m (List.mem_cons_of_mem _ hm)),
      hprio g.1 (hmem g hg g.1 List.mem_cons_self)]
    exact h.same g hg m hm
  · refine h.ascending.imp_of_mem fun {g k} hg hk hlt => ?_
    rw [hprio g.1 (hmem g hg g.1 List.mem_cons_self),
      hprio k.1 (hmem k hk k.1 List.mem_cons_self)]
    exact hlt

/-- All nodes of groups of greater priority have a greater priority. -/
theorem Grouped.above {prio : Node → Int} (h : Grouped prio (ds ++ hs)) {p : Int}
    (habove : ∀ g ∈ hs, p < prio g.1) : ∀ m ∈ nodes hs, p < prio m := by
  intro m hm
  obtain ⟨g, hg, hm⟩ := List.mem_flatMap.mp hm
  rcases List.mem_cons.mp hm with rfl | hm
  · exact habove g hg
  · rw [h.same g (List.mem_append_right _ hg) m hm]
    exact habove g hg

/-- A new group between those of lower and of greater priority. -/
theorem Grouped.insert {prio : Node → Int} (h : Grouped prio (ds ++ hs))
    (hbelow : ∀ g ∈ ds, prio g.1 < prio n) (habove : ∀ g ∈ hs, prio n < prio g.1)
    (hnodup : (nodes (ds ++ (n, []) :: hs)).Nodup) : Grouped prio (ds ++ (n, []) :: hs) := by
  obtain ⟨hds, hhs, hcross⟩ := List.pairwise_append.mp h.ascending
  refine ⟨fun g hg m hm => ?_, ?_, hnodup⟩
  · rcases List.mem_append.mp hg with hg | hg
    · exact h.same g (List.mem_append_left _ hg) m hm
    · rcases List.mem_cons.mp hg with rfl | hg
      · exact absurd hm List.not_mem_nil
      · exact h.same g (List.mem_append_right _ hg) m hm
  · refine List.pairwise_append.mpr ⟨hds, List.pairwise_cons.mpr ⟨habove, hhs⟩, ?_⟩
    intro g hg k hk
    rcases List.mem_cons.mp hk with rfl | hk
    · exact hbelow g hg
    · exact hcross g hg k hk

/-- Other nodes of the same priority behind, or in the place of, the first node of a group. -/
theorem Grouped.replace {prio : Node → Int} (h : Grouped prio (ds ++ g :: hs)) {k : Node × List Node}
    (hk : prio k.1 = prio g.1) (hsame : ∀ m ∈ k.2, prio m = prio k.1)
    (hnodup : (nodes (ds ++ k :: hs)).Nodup) : Grouped prio (ds ++ k :: hs) := by
  obtain ⟨hds, hhs, hcross⟩ := List.pairwise_append.mp h.ascending
  obtain ⟨hfirst, hhs⟩ := List.pairwise_cons.mp hhs
  refine ⟨fun e he m hm => ?_, ?_, hnodup⟩
  · rcases List.mem_append.mp he with he | he
    · exact h.same e (List.mem_append_left _ he) m hm
    · rcases List.mem_cons.mp he with rfl | he
      · exact hsame m hm
      · exact h.same e (List.mem_append_right _ (List.mem_cons_of_mem _ he)) m hm
  refine List.pairwise_append.mpr ⟨hds, List.pairwise_cons.mpr ⟨fun e he => ?_, hhs⟩, ?_⟩
  · rw [hk]
    exact hfirst e he
  · intro d hd e he
    rcases List.mem_cons.mp he with rfl | he
    · rw [hk]
      exact hcross d hd g List.mem_cons_self
    · exact hcross d hd e (List.mem_cons_of_mem _ he)

theorem Grouped.sublist {prio : Node → Int} (h : Grouped prio gs) (hsub : hs.Sublist gs)
    (hnodup : (nodes hs).Nodup) : Grouped prio hs where
  same g hg := h.same g (hsub.subset hg)
  ascending := h.ascending.sublist hsub
  nodup := hnodup

/-- The nodes of the groups are in the order of their priorities. -/
theorem Grouped.sorted {prio : Node → Int} (h : Grouped prio gs) :
    (nodes gs).Pairwise fun m n => prio m ≤ prio n := by
  induction gs with
  | nil => exact List.Pairwise.nil
  | cons g gs ih =>
    have hrest : Grouped prio gs :=
      h.sublist (List.sublist_cons_self g gs) (List.nodup_append.mp (List.nodup_cons.mp
        (nodes_cons g gs ▸ h.nodup)).2).2.1
    have hsame : ∀ m ∈ g.1 :: g.2, prio m = prio g.1 := by
      intro m hm
      rcases List.mem_cons.mp hm with rfl | hm
      · rfl
      · exact h.same g List.mem_cons_self m hm
    have habove : ∀ m ∈ nodes gs, prio g.1 < prio m :=
      @Grouped.above _ [g] gs prio h _ (List.pairwise_cons.mp h.ascending).1
    show ((g.1 :: g.2) ++ nodes gs).Pairwise _
    refine List.pairwise_append.mpr ⟨?_, ih hrest, fun m hm k hk => ?_⟩
    · refine List.pairwise_of_forall_mem_list fun m hm k hk => ?_
      have heq : prio m = prio k := (hsame m hm).trans (hsame k hk).symm
      exact Int.le_of_eq heq
    · rw [hsame m hm]
      exact Int.le_of_lt (habove k hk)

/-- The first nodes of the groups are the first ones of their priorities. -/
theorem Grouped.mem_firsts_iff {prio : Node → Int} (h : Grouped prio gs) :
    n ∈ firsts gs ↔ ∃ before after, nodes gs = before ++ n :: after ∧
      ∀ m ∈ before, prio m ≠ prio n := by
  constructor
  · intro hn
    obtain ⟨g, hg, rfl⟩ := List.mem_map.mp hn
    obtain ⟨ds, hs, rfl⟩ := List.append_of_mem hg
    refine ⟨nodes ds, g.2 ++ nodes hs, nodes_append ds _, fun m hm => ?_⟩
    obtain ⟨d, hd, hmd⟩ := List.mem_flatMap.mp hm
    have hlt := (List.pairwise_append.mp h.ascending).2.2 d hd g List.mem_cons_self
    rcases List.mem_cons.mp hmd with rfl | hmd
    · exact Int.ne_of_lt hlt
    · rw [h.same d (List.mem_append_left _ hd) m hmd]
      exact Int.ne_of_lt hlt
  rintro ⟨before, after, hsplit, hbefore⟩
  have hn : n ∈ nodes gs := hsplit ▸ List.mem_append_right _ List.mem_cons_self
  obtain ⟨⟨f, ms⟩, hg, hng⟩ := List.mem_flatMap.mp hn
  rcases List.mem_cons.mp hng with rfl | hlater
  · exact List.mem_map.mpr ⟨_, hg, rfl⟩
  -- the first node of the group would come before, with the same priority
  have hsame := h.same _ hg n hlater
  obtain ⟨ds, hs, rfl⟩ := List.append_of_mem hg
  obtain ⟨us, vs, rfl⟩ := List.append_of_mem hlater
  have hnodes : nodes (ds ++ (f, us ++ n :: vs) :: hs) =
      (nodes ds ++ f :: us) ++ n :: (vs ++ nodes hs) := by
    rw [nodes_append, nodes_cons, List.append_assoc, List.append_assoc]
    rfl
  have hnodup := h.nodup
  rw [hnodes] at hnodup hsplit
  have hmiddle := List.nodup_cons.mp (List.nodup_middle.mp hnodup)
  have hnot := fun hmem => hmiddle.1 (List.mem_append_left _ hmem)
  have hnot' := fun hmem => hmiddle.1 (List.mem_append_right _ hmem)
  obtain ⟨rfl, -, -⟩ := (List.append_cons_inj_of_notMem hnot hnot').mp hsplit
  exact absurd hsame.symm (hbefore f (List.mem_append_right _ List.mem_cons_self))

/-- Nodes put behind all of no greater priority come last among those of the same one. -/
theorem filter_insert {prio : Node → Int} (p : Int) (h : ∀ m ∈ ys, prio n < prio m) :
    (xs ++ n :: ys).filter (fun m => decide (prio m = p)) =
      (xs ++ ys).filter (fun m => decide (prio m = p)) ++
        [n].filter fun m => decide (prio m = p) := by
  rw [List.filter_append, List.filter_append, List.filter_cons, List.append_assoc]
  refine congrArg _ ?_
  by_cases hp : prio n = p
  · have hnone : ys.filter (fun m => decide (prio m = p)) = [] := by
      refine List.filter_eq_nil_iff.mpr fun m hm => ?_
      have := h m hm
      rw [decide_eq_true_iff]
      omega
    rw [hnone]
    simp [hp]
  · simp [hp]

open Library Links

variable {Node : Type u}

/-- The state of a plist with groups `gs`, after its nodes were added in the order `added`. -/
structure Inv [DecidableEq Node] (s : State Node) (gs : List (Node × List Node))
    (added : List Node) : Prop where
  grouped : Grouped s.prio gs
  nodeRing : s.nodeList.Ring .head ((nodes gs).map .node)
  prioRing : s.prioList.Ring .head ((firsts gs).map .node)
  unlinked : ∀ n, n ∉ nodes gs → s.nodeList.Ring (.node n) []
  alone : ∀ n, n ∉ firsts gs → s.prioList.Ring (.node n) []
  perm : (nodes gs).Perm added
  stable : ∀ p, (nodes gs).filter (fun m => decide (s.prio m = p)) =
    added.filter fun m => decide (s.prio m = p)

variable {gs : List (Node × List Node)} {n m : Node} {xs ys : List Node}

theorem Ptr.node_injective : Function.Injective (Ptr.node : Node → Ptr Node) :=
  fun _ _ h => Ptr.node.inj h

theorem node_mem_map : Ptr.node n ∈ xs.map Ptr.node ↔ n ∈ xs :=
  List.mem_map_of_injective Ptr.node_injective

theorem head_not_mem_map : Ptr.head ∉ xs.map Ptr.node := by
  rw [List.mem_map]
  rintro ⟨_, _, ⟨⟩⟩

/-- The entries of a ring through the head are different when the nodes are. -/
theorem nodup_ring (h : xs.Nodup) : ((Ptr.head : Ptr Node) :: xs.map Ptr.node).Nodup :=
  List.nodup_cons.mpr ⟨head_not_mem_map, h.map Ptr.node_injective⟩

theorem not_mem_ring (h : n ∉ xs) : Ptr.node n ∉ (Ptr.head : Ptr Node) :: xs.map Ptr.node := by
  rw [List.mem_cons, node_mem_map]
  rintro (⟨⟨⟩⟩ | hmem)
  exact h hmem

/-- A node by itself is on no ring through the head. -/
theorem ring_disjoint (h : n ∉ xs) :
    ∀ z ∈ (Ptr.head : Ptr Node) :: xs.map Ptr.node, z ∉ [Ptr.node n] := by
  intro z hz hzn
  rw [List.mem_singleton.mp hzn] at hz
  exact not_mem_ring h hz

/-- The entry that a list of nodes starts with, or the head after the last node. -/
def entry : List Node → Ptr Node
  | [] => .head
  | n :: _ => .node n

theorem next_head {l : Links (Ptr Node)} (hring : l.Ring .head (xs.map .node)) : l.next .head = entry xs := by
  cases xs with
  | nil => exact hring.1
  | cons x xs => exact hring.1.1

theorem next_node {l : Links (Ptr Node)} (hring : l.Ring .head ((xs ++ n :: ys).map .node)) :
    l.next (.node n) = entry ys := by
  rw [List.map_append, List.map_cons] at hring
  have hturned := ring_rotate.mp hring
  cases ys with
  | nil => exact hturned.1.1
  | cons y ys => exact hturned.1.1

theorem entry_firsts (gs : List (Node × List Node)) : entry (firsts gs) = entry (nodes gs) := by
  cases gs with
  | nil => rfl
  | cons g gs => rfl

/-! ## The links -/

variable [DecidableEq Node] {l : Links (Ptr Node)}

/-- A node is by itself exactly when it is not on the ring. -/
theorem isEmpty_iff (hring : l.Ring .head (xs.map .node)) (hnodup : xs.Nodup)
    (halone : ∀ n, n ∉ xs → l.Ring (.node n) []) : l.isEmpty (.node n) ↔ n ∉ xs := by
  unfold Links.isEmpty
  rw [decide_eq_true_iff]
  constructor
  · intro hself hmem
    obtain ⟨as, bs, rfl⟩ := List.append_of_mem hmem
    have hnodup' := nodup_ring hnodup
    rw [List.map_append, List.map_cons] at hring hnodup'
    exact hring.next_ne hnodup' hself
  · exact fun hmem => (halone n hmem).1

/-- A node linked in before the entry that `ys` starts with. -/
theorem addTail_entry (hring : l.Ring .head ((xs ++ ys).map .node)) (hnodup : (xs ++ ys).Nodup)
    (hn : n ∉ xs ++ ys) :
    (l.addTail (.node n) (entry ys)).Ring .head ((xs ++ n :: ys).map .node) ∧
      ∀ k, k ∉ xs ++ n :: ys → l.Ring (.node k) [] →
        (l.addTail (.node n) (entry ys)).Ring (.node k) [] := by
  have hnodup' := nodup_ring hnodup
  have hnew := not_mem_ring hn
  have hother : ∀ k, k ∉ xs ++ n :: ys → k ∉ xs ++ ys ∧ Ptr.node n ∉ [Ptr.node k] := by
    intro k hk
    simp only [List.mem_append, List.mem_cons, List.not_mem_nil, Ptr.node.injEq] at hk ⊢
    tauto
  cases ys with
  | nil =>
    rw [List.append_nil] at *
    rw [List.map_append]
    refine ⟨hring.addTail hnodup' hnew, fun k hk halone => ?_⟩
    have hkn := hother k hk
    exact halone.addTail_other hring (ring_disjoint hkn.1) hkn.2
  | cons y ys =>
    rw [List.map_append, List.map_cons] at *
    refine ⟨hring.insert hnodup' hnew, fun k hk halone => ?_⟩
    have hkn := hother k hk
    refine halone.addTail_other (ring_rotate.mp hring) (fun z hz => ?_) hkn.2
    refine ring_disjoint hkn.1 z ?_
    simp only [List.mem_cons, List.mem_append, List.map_append, List.map_cons] at hz ⊢
    tauto

/-- What is left of the ring and of the nodes by themselves, when a node `n` is taken out. -/
structure TakenOut (l l' : Links (Ptr Node)) (xs ys : List Node) (n : Node) : Prop where
  ring : l'.Ring .head ((xs ++ ys).map .node)
  alone : l'.Ring (.node n) []
  other : ∀ k, k ∉ xs ++ n :: ys → l.Ring (.node k) [] → l'.Ring (.node k) []

theorem delInit_takenOut (hring : l.Ring .head ((xs ++ n :: ys).map .node))
    (hnodup : (xs ++ n :: ys).Nodup) : TakenOut l (l.delInit (.node n)) xs ys n := by
  have hnodup' := nodup_ring hnodup
  rw [List.map_append, List.map_cons] at hring hnodup'
  refine ⟨?_, ring_delInit _ _, fun k hk halone => ?_⟩
  · rw [List.map_append]
    exact hring.remove hnodup'
  · refine halone.delInit_other (ring_rotate.mp hring) fun z hz => ring_disjoint hk z ?_
    simp only [List.mem_cons, List.mem_append, List.map_append, List.map_cons] at hz ⊢
    tauto

/-- The next entry of the ring moved before a node that is taken out then. -/
theorem moveTail_takenOut (hring : l.Ring .head ((xs ++ n :: ys).map .node))
    (hnodup : (xs ++ n :: ys).Nodup) :
    TakenOut l ((l.moveTail (entry ys) (.node n)).delInit (.node n)) xs ys n := by
  have hnodup' := nodup_ring hnodup
  have hnext := next_node hring
  rw [List.map_append, List.map_cons] at hring hnodup'
  rw [← hnext]
  refine ⟨?_, ring_delInit _ _, fun k hk halone => ?_⟩
  · rw [List.map_append]
    exact hring.moveTail_remove hnodup'
  · refine halone.moveTail_remove_other hring hnodup' fun z hz => ring_disjoint hk z ?_
    rw [List.map_append, List.map_cons]
    exact hz

/-- A node by itself moved to the place of a node that is taken out then. -/
theorem moveTail_replaces (hring : l.Ring .head ((xs ++ n :: ys).map .node))
    (hnodup : (xs ++ n :: ys).Nodup) (hm : m ∉ xs ++ n :: ys) (halone : l.Ring (.node m) []) :
    TakenOut l ((l.moveTail (.node m) (.node n)).delInit (.node n)) (xs ++ [m]) ys n := by
  rw [moveTail_alone halone]
  obtain ⟨hadded, hothers⟩ := addTail_entry hring hnodup hm
  have hnodup' : (xs ++ m :: n :: ys).Nodup :=
    List.nodup_middle.mpr (List.nodup_cons.mpr ⟨hm, hnodup⟩)
  rw [List.append_cons] at hadded hnodup'
  obtain ⟨hleft, hself, hkeep⟩ := delInit_takenOut hadded hnodup'
  refine ⟨hleft, hself, fun k hk hk' => hkeep k hk (hothers k ?_ hk')⟩
  rw [List.append_cons]
  exact hk

end AndroidKernel.Plist
