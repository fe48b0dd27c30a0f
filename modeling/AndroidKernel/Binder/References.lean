import AndroidKernel.Binder.RefGraph
import AndroidKernel.Binder.Driver

/-!
# Reference counting refines the reference graph

`State.graph` reads the abstract graph off the driver's state. Every function of the
reference layer is one of the graph operations, or leaves the graph as it is, so the graph
stays consistent.
-/

namespace AndroidKernel.Binder

open Library

attribute [simp] State.setProc State.setNode State.setRef State.setDeath State.setTransaction
  State.setBuffer State.setThread State.listAddTail State.listMove State.listDel State.note
  State.crash

/-- The edge that a reference is. -/
def Ref.edge (ref : Ref) : Edge := ⟨ref.proc, ref.node, ref.desc, ref.strong, ref.weak⟩

/-- The reference graph of a state. -/
def State.graph (s : State) : RefGraph where
  edge r := (s.refs r).map Ref.edge
  incoming n := (s.nodes n).elim [] Node.refs
  internalStrong n := (s.nodes n).elim 0 Node.internalStrongRefs
  byDesc p := (s.procs p).refsByDesc
  byNode p := (s.procs p).refsByNode

/-- A node that was freed had no references; outside process release it had no local counts
either. -/
def FreedUnused (x : Id × Node × FreedBy) : Prop :=
  x.2.1.refs = [] ∧
    (x.2.2 ≠ .deferredRelease → x.2.1.localStrongRefs = 0 ∧ x.2.1.localWeakRefs = 0)

/-- What the tree of nodes of a process is built on: its owner and its key. -/
def Node.key (node : Node) : Option Id × Nat := (node.proc, node.ptr)

/-- `proc->nodes` holds exactly the nodes of each process, ordered by their distinct keys. -/
structure NodeTree (s : State) : Prop where
  mem_nodes : ∀ p n, n ∈ (s.procs p).nodes ↔ ∃ node, s.nodes n = some node ∧ node.proc = some p
  sorted : ∀ p, (s.procs p).nodes.Pairwise fun a b => s.nodePtr a < s.nodePtr b

/-- Nothing that the trees of nodes depend on changes. -/
theorem NodeTree.congr {s s' : State} (h : NodeTree s)
    (hnodes : ∀ n, (s'.nodes n).map Node.key = (s.nodes n).map Node.key)
    (hprocs : ∀ p, (s'.procs p).nodes = (s.procs p).nodes) : NodeTree s' := by
  have hproc : ∀ n, (s'.nodes n).bind Node.proc = (s.nodes n).bind Node.proc := by
    intro n
    have := congrArg (fun x => x.bind Prod.fst) (hnodes n)
    simpa [Option.bind_map, Function.comp_def, Node.key] using this
  have hptr : s'.nodePtr = s.nodePtr := by
    funext n
    have := congrArg (fun x => x.elim 0 Prod.snd) (hnodes n)
    simpa [State.nodePtr, Option.elim_map, Function.comp_def, Node.key] using this
  refine ⟨fun p n => ?_, fun p => ?_⟩
  · rw [hprocs, h.mem_nodes, ← Option.bind_eq_some_iff, ← Option.bind_eq_some_iff, hproc]
  · rw [hprocs, hptr]
    exact h.sorted p

/-- What every operation does to names: new objects have new names, nodes are freed only when
unused, and the trees of nodes stay in order. -/
structure Evolves (s s' : State) : Prop where
  lastId_le : s.lastId ≤ s'.lastId
  nodes_new : ∀ i, s'.lastId < i → s.nodes i = none → s'.nodes i = none
  refs_new : ∀ i, s'.lastId < i → s.refs i = none → s'.refs i = none
  freed : ∀ x ∈ s'.freedNodes, x ∈ s.freedNodes ∨ FreedUnused x
  refused : s.refused ⊆ s'.refused
  tree : (∀ i, s.lastId < i → s.nodes i = none) → NodeTree s → NodeTree s'

/-- The bookkeeping invariant of the reference layer. -/
structure RefInv (s : State) : Prop where
  consistent : s.graph.Consistent
  nodes_fresh : ∀ i, s.lastId < i → s.nodes i = none
  refs_fresh : ∀ i, s.lastId < i → s.refs i = none
  freed : ∀ x ∈ s.freedNodes, FreedUnused x
  tree : NodeTree s

theorem refInv_initial : RefInv State.initial where
  consistent := RefGraph.empty_consistent
  nodes_fresh _ _ := rfl
  refs_fresh _ _ := rfl
  freed _ h := by simp [State.initial] at h
  tree := ⟨fun p n => by simp [State.initial, Proc.unused], fun p => by
    simp [State.initial, Proc.unused]⟩

theorem Evolves.refl (s : State) : Evolves s s :=
  ⟨Nat.le_refl _, fun _ _ h => h, fun _ _ h => h, fun _ h => .inl h, List.Subset.refl _,
    fun _ h => h⟩

theorem Evolves.trans {s t u : State} (h : Evolves s t) (h' : Evolves t u) : Evolves s u where
  lastId_le := Nat.le_trans h.lastId_le h'.lastId_le
  nodes_new i hi hs :=
    h'.nodes_new i hi (h.nodes_new i (Nat.lt_of_le_of_lt h'.lastId_le hi) hs)
  refs_new i hi hs := h'.refs_new i hi (h.refs_new i (Nat.lt_of_le_of_lt h'.lastId_le hi) hs)
  freed x hx := by
    rcases h'.freed x hx with hx | hx
    · exact h.freed x hx
    · exact .inr hx
  refused := List.Subset.trans h.refused h'.refused
  tree hfresh htree := h'.tree
    (fun i hi => h.nodes_new i hi (hfresh i (Nat.lt_of_le_of_lt h.lastId_le hi)))
    (h.tree hfresh htree)

theorem RefInv.evolve {s s' : State} (h : RefInv s) (hgraph : s'.graph.Consistent)
    (hev : Evolves s s') : RefInv s' where
  consistent := hgraph
  nodes_fresh i hi :=
    hev.nodes_new i hi (h.nodes_fresh i (Nat.lt_of_le_of_lt hev.lastId_le hi))
  refs_fresh i hi := hev.refs_new i hi (h.refs_fresh i (Nat.lt_of_le_of_lt hev.lastId_le hi))
  freed x hx := by
    rcases hev.freed x hx with hx | hx
    · exact h.freed x hx
    · exact hx
  tree := hev.tree h.nodes_fresh h.tree

/-! ## Operations that leave the graph alone -/

/-- The graph is the same and names evolve. -/
structure Keeps (s s' : State) : Prop where
  graph : s'.graph = s.graph
  evolves : Evolves s s'

theorem Keeps.refl (s : State) : Keeps s s := ⟨rfl, .refl s⟩

theorem Keeps.trans {s t u : State} (h : Keeps s t) (h' : Keeps t u) : Keeps s u :=
  ⟨h'.graph.trans h.graph, h.evolves.trans h'.evolves⟩

theorem RefInv.keep {s s' : State} (h : RefInv s) (hk : Keeps s s') : RefInv s' :=
  h.evolve (hk.graph ▸ h.consistent) hk.evolves

/-- Nothing that the graph is read from changes. -/
theorem Keeps.of_eq {s s' : State} (hnodes : s'.nodes = s.nodes) (hrefs : s'.refs = s.refs)
    (hprocs : s'.procs = s.procs) (hlast : s.lastId ≤ s'.lastId)
    (hfreed : s'.freedNodes = s.freedNodes) (hrefused : s.refused ⊆ s'.refused) : Keeps s s' where
  graph := by simp [State.graph, hnodes, hrefs, hprocs]
  evolves := ⟨hlast, fun _ _ h => hnodes ▸ h, fun _ _ h => hrefs ▸ h,
    fun _ h => .inl (hfreed ▸ h), hrefused,
    fun _ h => h.congr (fun n => by rw [hnodes]) (fun p => by rw [hprocs])⟩

/-- Only other parts of the state change. -/
theorem Keeps.elsewhere {s s' : State}
    (h : (s'.nodes, s'.refs, s'.procs, s'.lastId, s'.freedNodes, s'.refused) =
      (s.nodes, s.refs, s.procs, s.lastId, s.freedNodes, s.refused)) : Keeps s s' := by
  simp only [Prod.mk.injEq] at h
  exact .of_eq h.1 h.2.1 h.2.2.1 (Nat.le_of_eq h.2.2.2.1.symm) h.2.2.2.2.1
    (by rw [h.2.2.2.2.2]; exact List.Subset.refl _)

theorem Keeps.crash (s : State) (c : Crash) : Keeps s (s.crash c) :=
  .elsewhere rfl

theorem Keeps.lists (s : State) (l : LinkedLists ListHead Work) : Keeps s { s with lists := l } :=
  .elsewhere rfl

theorem Keeps.setThread (s : State) (th : Id) (x : Option Thread) : Keeps s (s.setThread th x) :=
  .elsewhere rfl

theorem Keeps.note (s : State) (e : DeathEvent) : Keeps s (s.note e) :=
  .elsewhere rfl

theorem Keeps.refuse (s : State) (r : Id) (ref : Ref) : Keeps s (s.refuse r ref) := by
  unfold State.refuse
  split
  · exact .of_eq rfl rfl rfl (Nat.le_refl _) rfl (List.subset_cons_self _ _)
  · exact .refl s

theorem setNode_key {s : State} {n : Id} {node node' : Node} (hn : s.nodes n = some node)
    (hkey : node'.key = node.key) (m : Id) :
    ((s.setNode n (some node')).nodes m).map Node.key = (s.nodes m).map Node.key := by
  by_cases hm : m = n
  · simp [hm, hn, hkey]
  · simp [hm]

/-- A node is written with the same references, strong count and key. -/
theorem Keeps.setNode {s : State} {n : Id} {node node' : Node} (hn : s.nodes n = some node)
    (hrefs : node'.refs = node.refs)
    (hstrong : node'.internalStrongRefs = node.internalStrongRefs) (hkey : node'.key = node.key) :
    Keeps s (s.setNode n (some node')) where
  graph := by
    have hin : (fun m => (Function.update s.nodes n (some node') m).elim [] Node.refs) =
        fun m => (s.nodes m).elim [] Node.refs := by
      funext m
      by_cases hm : m = n
      · simp [hm, hn, hrefs]
      · simp [hm]
    have hint : (fun m => (Function.update s.nodes n (some node') m).elim 0
        Node.internalStrongRefs) = fun m => (s.nodes m).elim 0 Node.internalStrongRefs := by
      funext m
      by_cases hm : m = n
      · simp [hm, hn, hstrong]
      · simp [hm]
    simp only [State.graph, State.setNode, hin, hint]
  evolves :=
    ⟨Nat.le_refl _, fun i _ hi => by
      have hne : i ≠ n := fun heq => by rw [heq, hn] at hi; cases hi
      simpa [hne] using hi, fun _ _ h => h, fun _ h => .inl h, List.Subset.refl _,
      fun _ h => h.congr (fun m => setNode_key hn hkey m) fun _ => rfl⟩

/-- A process structure is written with the same trees. -/
theorem Keeps.setProc {s : State} {p : Id} {x : Proc}
    (hdesc : x.refsByDesc = (s.procs p).refsByDesc)
    (hnode : x.refsByNode = (s.procs p).refsByNode) (hnodes : x.nodes = (s.procs p).nodes) :
    Keeps s (s.setProc p x) where
  graph := by
    have hd : (fun q => (Function.update s.procs p x q).refsByDesc) =
        fun q => (s.procs q).refsByDesc := by
      funext q
      by_cases hq : q = p
      · simp [hq, hdesc]
      · simp [hq]
    have hb : (fun q => (Function.update s.procs p x q).refsByNode) =
        fun q => (s.procs q).refsByNode := by
      funext q
      by_cases hq : q = p
      · simp [hq, hnode]
      · simp [hq]
    simp only [State.graph, State.setProc, hd, hb]
  evolves := ⟨Nat.le_refl _, fun _ _ h => h, fun _ _ h => h, fun _ h => .inl h, List.Subset.refl _,
    fun _ h => h.congr (fun _ => rfl) fun q => by
      by_cases hq : q = p
      · simp [hq, hnodes]
      · simp [hq]⟩

/-- A reference is written with the same edge. -/
theorem Keeps.setRef {s : State} {r : Id} {ref : Ref} (hr : s.refs r = some ref) (ref' : Ref)
    (hedge : ref'.edge = ref.edge) : Keeps s (s.setRef r (some ref')) where
  graph := by
    have he : (fun a => (Function.update s.refs r (some ref') a).map Ref.edge) =
        fun a => (s.refs a).map Ref.edge := by
      funext a
      by_cases ha : a = r
      · simp [ha, hr, hedge]
      · simp [ha]
    simp only [State.graph, State.setRef, he]
  evolves :=
    ⟨Nat.le_refl _, fun _ _ h => h, fun i _ hi => by
      have hne : i ≠ r := fun heq => by rw [heq, hr] at hi; cases hi
      simpa [hne] using hi, fun _ h => .inl h, List.Subset.refl _,
      fun _ h => h.congr (fun _ => rfl) fun _ => rfl⟩

/-- What freeing a node leaves: the node is gone, from its process's tree as well. -/
theorem freeNode_nodes (n : Id) (node : Node) (by_ : FreedBy) (s : State) :
    (freeNode n node by_ s).nodes = Function.update s.nodes n none ∧
      (freeNode n node by_ s).refs = s.refs ∧ (freeNode n node by_ s).lastId = s.lastId ∧
      (freeNode n node by_ s).refused = s.refused ∧
      (freeNode n node by_ s).freedNodes = (n, node, by_) :: s.freedNodes ∧
      ∀ p, ((freeNode n node by_ s).procs p).refsByDesc = (s.procs p).refsByDesc ∧
        ((freeNode n node by_ s).procs p).refsByNode = (s.procs p).refsByNode ∧
        ((freeNode n node by_ s).procs p).nodes =
          if node.proc = some p then (s.procs p).nodes.erase n else (s.procs p).nodes := by
  unfold freeNode
  cases hproc : node.proc with
  | none => simp
  | some q =>
    refine ⟨rfl, rfl, rfl, rfl, rfl, fun p => ?_⟩
    by_cases hp : p = q
    · subst hp
      simp
    · simp [hp, Ne.symm hp]

/-- The tree of nodes loses a freed node. -/
theorem NodeTree.freeNode {s : State} (h : NodeTree s) {n : Id} {node : Node}
    (hn : s.nodes n = some node) (by_ : FreedBy) : NodeTree (freeNode n node by_ s) := by
  obtain ⟨hnodes, -, -, -, -, hprocs⟩ := freeNode_nodes n node by_ s
  have hnodup : ∀ p, (s.procs p).nodes.Nodup := fun p =>
    (h.sorted p).imp fun hlt heq => by simp [heq] at hlt
  have hmem : ∀ p m, m ∈ ((Binder.freeNode n node by_ s).procs p).nodes ↔
      m ≠ n ∧ m ∈ (s.procs p).nodes := by
    intro p m
    rw [(hprocs p).2.2]
    by_cases hp : node.proc = some p
    · rw [if_pos hp, (hnodup p).mem_erase_iff]
    · rw [if_neg hp]
      refine ⟨fun hm => ⟨?_, hm⟩, fun hm => hm.2⟩
      rintro rfl
      obtain ⟨node', hn', hp'⟩ := (h.mem_nodes p m).1 hm
      rw [hn] at hn'
      cases hn'
      exact hp hp'
  refine ⟨fun p m => ?_, fun p => ?_⟩
  · rw [hmem, h.mem_nodes, hnodes]
    by_cases hm : m = n
    · simp [hm]
    · simp [hm]
  have hsub : ((Binder.freeNode n node by_ s).procs p).nodes.Sublist (s.procs p).nodes := by
    rw [(hprocs p).2.2]
    split
    · exact List.erase_sublist
    · exact List.Sublist.refl _
  refine ((h.sorted p).sublist hsub).imp_of_mem fun {a b} ha hb hlt => ?_
  have hane := ((hmem p a).1 ha).1
  have hbne := ((hmem p b).1 hb).1
  simpa [State.nodePtr, hnodes, hane, hbne] using hlt

/-- Freeing a node that no reference uses. -/
theorem Keeps.freeNode {s : State} {n : Id} {node : Node} {by_ : FreedBy}
    (hn : s.nodes n = some node) (hstrong : node.internalStrongRefs = 0)
    (hfreed : FreedUnused (n, node, by_)) : Keeps s (freeNode n node by_ s) := by
  obtain ⟨hnodes, hrefs, hlast, hrefused, hlog, hprocs⟩ := freeNode_nodes n node by_ s
  have hempty : node.refs = [] := hfreed.1
  have hin : ∀ m, (Function.update s.nodes n none m).elim [] Node.refs =
      (s.nodes m).elim [] Node.refs := by
    intro m
    by_cases hm : m = n
    · simp [hm, hn, hempty]
    · simp [hm]
  have hint : ∀ m, (Function.update s.nodes n none m).elim 0 Node.internalStrongRefs =
      (s.nodes m).elim 0 Node.internalStrongRefs := by
    intro m
    by_cases hm : m = n
    · simp [hm, hn, hstrong]
    · simp [hm]
  refine ⟨?_, Nat.le_of_eq hlast.symm, fun i _ hi => ?_, fun i _ hi => hrefs ▸ hi, fun x hx => ?_,
    by rw [hrefused]; exact List.Subset.refl _, fun _ h => h.freeNode hn by_⟩
  · simp only [State.graph, hnodes, hrefs, hin, hint, (hprocs _).1, (hprocs _).2.1]
  · rw [hnodes]
    by_cases hin : i = n
    · simp [hin]
    · simpa [hin] using hi
  · rw [hlog] at hx
    rcases List.mem_cons.1 hx with rfl | hx
    · exact .inr hfreed
    · exact .inl hx

/-! ## Counts on nodes -/

@[simp]
theorem decremented_refs (node : Node) (strong internal : Bool) :
    (node.decremented strong internal).refs = node.refs := by
  cases strong <;> cases internal <;> rfl

@[simp]
theorem decremented_key (node : Node) (strong internal : Bool) :
    (node.decremented strong internal).key = node.key := by
  cases strong <;> cases internal <;> rfl

@[simp]
theorem decremented_proc (node : Node) (strong internal : Bool) :
    (node.decremented strong internal).proc = node.proc := by
  cases strong <;> cases internal <;> rfl

theorem decremented_internal (node : Node) (strong internal : Bool) :
    (node.decremented strong internal).internalStrongRefs =
      if strong && internal then node.internalStrongRefs - 1 else node.internalStrongRefs := by
  cases strong <;> cases internal <;> rfl

@[simp]
theorem incremented_refs (node : Node) (strong internal : Bool) :
    (node.incremented strong internal).refs = node.refs := by
  cases strong <;> cases internal <;> rfl

@[simp]
theorem incremented_key (node : Node) (strong internal : Bool) :
    (node.incremented strong internal).key = node.key := by
  cases strong <;> cases internal <;> rfl

theorem incremented_internal (node : Node) (strong internal : Bool) :
    (node.incremented strong internal).internalStrongRefs =
      if strong && internal then node.internalStrongRefs + 1 else node.internalStrongRefs := by
  cases strong <;> cases internal <;> rfl

/-- Everything that a decrement can do to a state. -/
theorem binderDecNode_cases {s : State} {n : Id} {node : Node} (hn : s.nodes n = some node)
    (strong internal : Bool) :
    binderDecNode n strong internal s =
        s.setNode n (some (node.decremented strong internal)) ∨
      (∃ p, node.proc = some p ∧
        binderDecNode n strong internal s =
          (s.setNode n (some (node.decremented strong internal))).listAddTail (.procTodo p)
            (.node n)) ∨
      ((node.decremented strong internal).refs = [] ∧
        (node.decremented strong internal).localStrongRefs = 0 ∧
        (node.decremented strong internal).localWeakRefs = 0 ∧
        binderDecNode n strong internal s =
          freeNode n (node.decremented strong internal) .decNode
            (s.setNode n (some (node.decremented strong internal)))) := by
  unfold binderDecNode
  simp only [hn]
  split
  · exact .inl rfl
  split
  · rename_i p hproc _
    rw [decremented_proc] at hproc
    split
    · exact .inr (.inl ⟨p, hproc, rfl⟩)
    · exact .inl rfl
  · split
    · rename_i hfree
      exact .inr (.inr ⟨List.isEmpty_iff.1 hfree.1, hfree.2.1, hfree.2.2, rfl⟩)
    · exact .inl rfl

/-- In a consistent graph a node without references has no strong ones. -/
theorem RefInv.internal_eq_zero {s : State} (h : RefInv s) {n : Id} {node : Node}
    (hn : s.nodes n = some node) (hrefs : node.refs = []) : node.internalStrongRefs = 0 := by
  simpa [State.graph, hn, hrefs] using h.consistent.strong_count n

/-- Dropping a local or a weak count leaves the graph alone. -/
theorem keeps_binderDecNode {s : State} (n : Id) {strong internal : Bool}
    (hkind : (strong && internal) = false)
    (hzero : ∀ node, s.nodes n = some node → node.refs = [] → node.internalStrongRefs = 0) :
    Keeps s (binderDecNode n strong internal s) := by
  cases hn : s.nodes n with
  | none =>
    have : binderDecNode n strong internal s = s.crash .freedNode := by
      simp only [binderDecNode, hn]
    rw [this]
    exact .crash s _
  | some node =>
    have hset : Keeps s (s.setNode n (some (node.decremented strong internal))) :=
      .setNode hn (decremented_refs ..) (by simp [decremented_internal, hkind]) (decremented_key ..)
    rcases binderDecNode_cases hn strong internal with
      heq | ⟨p, -, heq⟩ | ⟨hrefs, hls, hlw, heq⟩
    · rw [heq]
      exact hset
    · rw [heq]
      exact hset.trans (.lists _ _)
    · rw [heq]
      rw [decremented_refs] at hrefs
      have hint := hzero node hn hrefs
      refine hset.trans (.freeNode (by simp) (by simp [decremented_internal, hkind, hint])
        ⟨by simpa using hrefs, fun _ => ⟨hls, hlw⟩⟩)

theorem RefInv.decNode {s : State} (h : RefInv s) (n : Id) {strong internal : Bool}
    (hkind : (strong && internal) = false) : Keeps s (binderDecNode n strong internal s) :=
  keeps_binderDecNode n hkind fun _ hn => h.internal_eq_zero hn

/-- Everything that an increment can do to a state. Only an internal count without a list to
queue on is refused; a local weak count is taken also then. -/
theorem binderIncNode_cases {s : State} {n : Id} {node : Node} (hn : s.nodes n = some node)
    (strong internal : Bool) (target : Option ListHead) :
    (binderIncNode n strong internal target s = (s, false) ∧ internal = true ∧ target = none) ∨
      (binderIncNode n strong internal target s =
        (s.setNode n (some (node.incremented strong internal)), true)) ∨
      (internal = false ∧ binderIncNode n strong internal target s =
        (s.setNode n (some (node.incremented strong internal)), false)) ∨
      (∃ q, target = some q ∧ binderIncNode n strong internal target s =
        ((s.setNode n (some (node.incremented strong internal))).listAddTail q (.node n),
          true)) := by
  have hself : s.setNode n (some node) = s := by
    simp [← hn]
  unfold binderIncNode
  simp only [hn]
  cases strong with
  | true =>
    simp only [if_true]
    split
    · rename_i hfail
      exact .inl ⟨rfl, hfail.1, hfail.2.1⟩
    · cases target with
      | none => exact .inr (.inl rfl)
      | some q =>
        simp only
        split
        · exact .inr (.inl rfl)
        · exact .inr (.inr (.inr ⟨q, rfl, rfl⟩))
  | false =>
    simp only [Bool.false_eq_true, if_false]
    split
    · cases target with
      | none =>
        cases internal with
        | true => exact .inl ⟨congrArg (·, false) hself, rfl, rfl⟩
        | false => exact .inr (.inr (.inl ⟨rfl, rfl⟩))
      | some q => exact .inr (.inr (.inr ⟨q, rfl, rfl⟩))
    · exact .inr (.inl rfl)

/-- Taking a local or a weak count leaves the graph alone. -/
theorem keeps_binderIncNode (s : State) (n : Id) {strong internal : Bool}
    (hkind : (strong && internal) = false) (target : Option ListHead) :
    Keeps s (binderIncNode n strong internal target s).1 := by
  cases hn : s.nodes n with
  | none =>
    have : (binderIncNode n strong internal target s).1 = s.crash .freedNode := by
      simp only [binderIncNode, hn]
    rw [this]
    exact .crash s _
  | some node =>
    have hset : Keeps s (s.setNode n (some (node.incremented strong internal))) :=
      .setNode hn (incremented_refs ..) (by simp [incremented_internal, hkind]) (incremented_key ..)
    rcases binderIncNode_cases hn strong internal target with
      ⟨heq, -⟩ | heq | ⟨-, heq⟩ | ⟨q, -, heq⟩
    · rw [heq]
      exact .refl s
    · rw [heq]
      exact hset
    · rw [heq]
      exact hset
    · rw [heq]
      exact hset.trans (.lists _ _)

/-! ## References -/

/-- The descriptor the scan ends with is not below the one it starts with, when no descriptor
is. -/
theorem le_scanDesc (start : Nat) (descs : List Nat) (hsorted : descs.Pairwise (· < ·))
    (hstart : ∀ d ∈ descs, start ≤ d) : start ≤ scanDesc start descs := by
  induction descs generalizing start with
  | nil => exact Nat.le_refl _
  | cons d rest ih =>
    rw [List.pairwise_cons] at hsorted
    have hd := hstart d (by simp)
    unfold scanDesc
    split
    · exact Nat.le_refl _
    · exact Nat.le_trans (Nat.le_succ_of_le hd) (ih (d + 1) hsorted.2 hsorted.1)

/-- The scan over ascending descriptors ends with a free one. -/
theorem scanDesc_not_mem (start : Nat) (descs : List Nat) (hsorted : descs.Pairwise (· < ·)) :
    scanDesc start descs ∉ descs := by
  induction descs generalizing start with
  | nil => simp
  | cons d rest ih =>
    rw [List.pairwise_cons] at hsorted
    unfold scanDesc
    split
    · rename_i hlt
      intro hmem
      rcases List.mem_cons.1 hmem with heq | hmem
      · omega
      · exact absurd (hsorted.1 start hmem) (by omega)
    · have hle := le_scanDesc (d + 1) rest hsorted.2 hsorted.1
      intro hmem
      rcases List.mem_cons.1 hmem with heq | hmem
      · omega
      · exact ih (d + 1) hsorted.2 hmem

/-- A reference and its edge. -/
theorem graph_edge {s : State} {r : Id} {ref : Ref} (hr : s.refs r = some ref) :
    s.graph.edge r = some ref.edge := by
  simp [State.graph, hr]

theorem graph_edge_some {s : State} {r : Id} {e : Edge} (h : s.graph.edge r = some e) :
    ∃ ref, s.refs r = some ref ∧ ref.edge = e := by
  simpa [State.graph] using h

theorem graph_desc (s : State) : s.graph.desc = s.refDesc := by
  funext r
  unfold RefGraph.desc State.refDesc
  cases hr : s.refs r with
  | none => simp [State.graph, hr]
  | some ref => simp [State.graph, hr, Ref.edge]

/-- A reference's node exists and lists it. -/
theorem RefInv.node_of_ref {s : State} (h : RefInv s) {r : Id} {ref : Ref}
    (hr : s.refs r = some ref) : ∃ node, s.nodes ref.node = some node ∧ r ∈ node.refs := by
  have hin := (h.consistent.mem_incoming ref.node r).2 ⟨_, graph_edge hr, rfl⟩
  cases hn : s.nodes ref.node with
  | none => simp [State.graph, hn] at hin
  | some node => exact ⟨node, rfl, by simpa [State.graph, hn] using hin⟩

/-- A descriptor resolves to a reference of the process. -/
theorem RefInv.getRef {s : State} (h : RefInv s) {p desc r : Nat}
    (hget : binderGetRef s p desc = some r) :
    ∃ ref, s.refs r = some ref ∧ ref.proc = p ∧ ref.desc = desc := by
  have hmem := List.mem_of_find?_eq_some hget
  have hany := List.find?_some hget
  obtain ⟨e, he, hp⟩ := (h.consistent.mem_byDesc p r).1 hmem
  obtain ⟨ref, hr, rfl⟩ := graph_edge_some he
  exact ⟨ref, hr, hp, by simpa [hr] using hany⟩

/-- What `binder_get_ref_for_node` can do in a consistent state. -/
theorem RefInv.getRefForNode_cases {s : State} (h : RefInv s) (p n : Id) (memory : Bool) :
    (∃ r ref, s.refs r = some ref ∧ ref.proc = p ∧ ref.node = n ∧
        binderGetRefForNode p n memory s = (s, some r)) ∨
      binderGetRefForNode p n memory s = (s, none) ∨
      binderGetRefForNode p n memory s = (s.crash .freedNode, none) ∨
      ∃ node desc, s.nodes n = some node ∧ desc ∉ (s.graph.byDesc p).map s.graph.desc ∧
        (∀ r ref, s.refs r = some ref → ref.proc = p → ref.node ≠ n) ∧
        binderGetRefForNode p n memory s = (linkRef p n desc node s, some (s.lastId + 1)) := by
  unfold binderGetRefForNode
  cases hfind : findRef s p n with
  | some r =>
    have hmem := List.mem_of_find?_eq_some hfind
    have hany := List.find?_some hfind
    obtain ⟨e, he, hp⟩ := (h.consistent.mem_byNode p r).1 hmem
    obtain ⟨ref, hr, rfl⟩ := graph_edge_some he
    exact .inl ⟨r, ref, hr, hp, by simpa [hr] using hany, rfl⟩
  | none =>
    have hnone : ∀ r ref, s.refs r = some ref → ref.proc = p → ref.node ≠ n := by
      intro r ref hr hp hnode
      have hmem := (h.consistent.mem_byNode p r).2 ⟨_, graph_edge hr, hp⟩
      have := List.find?_eq_none.1 hfind r hmem
      simp [hr, hnode] at this
    cases memory with
    | false => exact .inr (.inl rfl)
    | true =>
      cases hn : s.nodes n with
      | none => exact .inr (.inr (.inl rfl))
      | some node =>
        have hsorted : ((s.procs p).refsByDesc.map s.refDesc).Pairwise (· < ·) := by
          have := h.consistent.byDesc_sorted p
          rw [graph_desc] at this
          exact List.pairwise_map.2 this
        have hfree := scanDesc_not_mem
          (if s.contextMgrNode = some n then 0 else 1) _ hsorted
        refine .inr (.inr (.inr ⟨node, scanDesc
          (if s.contextMgrNode = some n then 0 else 1)
          ((s.procs p).refsByDesc.map s.refDesc), rfl, ?_, hnone, ?_⟩))
        · rw [graph_desc]
          exact hfree
        · simp only [if_true, if_neg hfree]

/-- Linking a reference inserts an edge. -/
theorem graph_linkRef {s : State} {n : Id} {node : Node} (hn : s.nodes n = some node)
    (p desc : Nat) : (linkRef p n desc node s).graph = s.graph.insert (s.lastId + 1) p n desc := by
  have hdesc : ({ s with
      lastId := s.lastId + 1
      refs := Function.update s.refs (s.lastId + 1) (some ⟨p, n, desc, 0, 0, none⟩) } : State).refDesc
      = Function.update s.graph.desc (s.lastId + 1) desc := by
    rw [graph_desc]
    funext a
    by_cases ha : a = s.lastId + 1
    · simp [State.refDesc, ha]
    · simp [State.refDesc, ha]
  unfold linkRef RefGraph.insert State.graph
  simp only [State.setRef, State.setProc, State.setNode, hdesc, RefGraph.mk.injEq]
  refine ⟨?_, ?_, ?_, ?_, ?_⟩
  · funext a
    by_cases ha : a = s.lastId + 1
    · simp [ha, Ref.edge]
    · simp [ha]
  · funext m
    by_cases hm : m = n
    · simp [hm, hn]
    · simp [hm]
  · funext m
    by_cases hm : m = n
    · simp [hm, hn]
    · simp [hm]
  · funext q
    by_cases hq : q = p
    · simp only [hq, Function.update_self, State.graph]
      congr
    · simp [hq]
  · funext q
    by_cases hq : q = p
    · simp [hq]
    · simp [hq]

theorem evolves_linkRef {s : State} {n : Id} {node : Node} (hn : s.nodes n = some node)
    (p desc : Nat) : Evolves s (linkRef p n desc node s) := by
  refine ⟨Nat.le_succ _, fun i _ hi => ?_, fun i hi hr => ?_, fun _ h => .inl h,
    List.Subset.refl _, fun _ h => h.congr (fun m => ?_) fun q => ?_⟩
  · have hne : i ≠ n := fun heq => by rw [heq, hn] at hi; cases hi
    simpa [linkRef, hne] using hi
  · have hne : i ≠ s.lastId + 1 := fun heq => by simp [linkRef, heq] at hi
    simpa [linkRef, hne] using hr
  · by_cases hm : m = n
    · simp [linkRef, hm, hn, Node.key]
    · simp [linkRef, hm]
  · by_cases hq : q = p
    · simp [linkRef, hq]
    · simp [linkRef, hq]

/-- `binder_get_ref_for_node` keeps the invariant and returns a reference to the node. -/
theorem RefInv.getRefForNode {s : State} (h : RefInv s) (p n : Id) (memory : Bool) :
    RefInv (binderGetRefForNode p n memory s).1 ∧
      ∀ r, (binderGetRefForNode p n memory s).2 = some r →
        ∃ ref, (binderGetRefForNode p n memory s).1.refs r = some ref ∧ ref.node = n ∧
          ref.proc = p := by
  rcases h.getRefForNode_cases p n memory with
    ⟨r, ref, hr, hp, hnode, heq⟩ | heq | heq | ⟨node, desc, hn, hdesc, hnone, heq⟩
  · rw [heq]
    exact ⟨h, fun r' hr' => ⟨ref, by cases hr'; exact hr, hnode, hp⟩⟩
  · rw [heq]
    exact ⟨h, fun r' hr' => by cases hr'⟩
  · rw [heq]
    exact ⟨h.keep (.crash s _), fun r' hr' => by cases hr'⟩
  rw [heq]
  refine ⟨h.evolve ?_ (evolves_linkRef hn p desc), fun r' hr' => ?_⟩
  · rw [graph_linkRef hn]
    refine h.consistent.insert ?_ ?_ hdesc
    · simp [State.graph, h.refs_fresh (s.lastId + 1) (Nat.lt_succ_self _)]
    · intro r e he hp
      obtain ⟨ref, hr, rfl⟩ := graph_edge_some he
      exact hnone r ref hr hp
  · cases hr'
    exact ⟨⟨p, n, desc, 0, 0, none⟩, by simp [linkRef], rfl, rfl⟩

/-- A reference and its node are rewritten together: the counts of an edge change. -/
theorem RefInv.setCounts {s s' : State} (h : RefInv s) {r : Id} {ref ref' : Ref} {node : Node}
    (hr : s.refs r = some ref) (hn : s.nodes ref.node = some node) (node' : Node)
    (hrefs : s'.refs = Function.update s.refs r (some ref'))
    (hnodes : s'.nodes = Function.update s.nodes ref.node (some node'))
    (hprocs : s'.procs = s.procs) (hlast : s'.lastId = s.lastId)
    (hfreed : s'.freedNodes = s.freedNodes) (hrefused : s'.refused = s.refused)
    (hedge : ref'.proc = ref.proc ∧ ref'.node = ref.node ∧ ref'.desc = ref.desc)
    (hnonneg : 0 ≤ ref'.strong ∧ 0 ≤ ref'.weak) (hkey : node'.key = node.key)
    (hin : node'.refs = node.refs)
    (hint : node'.internalStrongRefs = node.internalStrongRefs + (if 0 < ref'.strong then 1 else 0) -
      (if 0 < ref.strong then 1 else 0)) : RefInv s' := by
  have hgraph : s'.graph = s.graph.setCounts r ref.edge ref'.strong ref'.weak := by
    unfold State.graph RefGraph.setCounts
    simp only [hrefs, hnodes, hprocs, RefGraph.mk.injEq, and_true]
    refine ⟨?_, ?_, ?_⟩
    · funext a
      by_cases ha : a = r
      · simp [ha, Ref.edge, hedge]
      · simp [ha]
    · funext m
      by_cases hm : m = ref.node
      · simp [hm, hn, hin]
      · simp [hm]
    · funext m
      by_cases hm : m = ref.node
      · simp [hm, hn, hint, Ref.edge]
        rfl
      · have hm' : m ≠ ref.edge.node := hm
        simp [hm, hm']
  refine h.evolve ?_ ⟨Nat.le_of_eq hlast.symm, fun i _ hi => ?_, fun i _ hi => ?_, fun x hx => ?_,
    by rw [hrefused]; exact List.Subset.refl _, fun _ h => h.congr (fun m => ?_) fun _ => by
      rw [hprocs]⟩
  · rw [hgraph]
    exact h.consistent.setCounts (graph_edge hr) hnonneg.1 hnonneg.2
  · have hne : i ≠ ref.node := fun heq => by rw [heq, hn] at hi; cases hi
    simpa [hnodes, hne] using hi
  · have hne : i ≠ r := fun heq => by rw [heq, hr] at hi; cases hi
    simpa [hrefs, hne] using hi
  · exact .inl (hfreed ▸ hx)
  · rw [hnodes]
    exact setNode_key hn hkey m

/-- Everything that an increment of a reference can do: it is refused for want of a list to
queue on, it counts on the reference alone, or it also counts on the node. -/
theorem binderIncRef_cases {s : State} {r : Id} {ref : Ref} {node : Node}
    (hr : s.refs r = some ref) (hn : s.nodes ref.node = some node) (strong : Bool)
    (target : Option ListHead) :
    (binderIncRef r strong target s = (s.refuse r ref, false) ∧ target = none ∧
        ref.count strong = 0) ∨
      (ref.count strong ≠ 0 ∧
        binderIncRef r strong target s = (s.setRef r (some (ref.incremented strong)), true)) ∨
      (ref.count strong = 0 ∧
        ∃ l, binderIncRef r strong target s =
          (({ s with lists := l }.setNode ref.node (some (node.incremented strong true))).setRef r
            (some (ref.incremented strong)), true) ∧
          (l = s.lists ∨ ∃ q, target = some q ∧ l = s.lists.addTail q (.node ref.node))) := by
  unfold binderIncRef
  simp only [hr]
  by_cases hfirst : ref.count strong = 0
  · simp only [hfirst, if_true]
    rcases binderIncNode_cases hn strong true target with
      ⟨heq, -, htarget⟩ | heq | ⟨hfalse, -⟩ | ⟨q, hq, heq⟩
    · rw [heq]
      exact .inl ⟨rfl, htarget, trivial⟩
    · rw [heq]
      exact .inr (.inr ⟨trivial, s.lists, rfl, .inl rfl⟩)
    · cases hfalse
    · rw [heq]
      exact .inr (.inr ⟨trivial, s.lists.addTail q (.node ref.node), rfl, .inr ⟨q, hq, rfl⟩⟩)
  · simp only [hfirst, if_false]
    exact .inr (.inl ⟨hfirst, rfl⟩)

/-- Counting on a reference keeps the invariant. -/
theorem RefInv.incRef {s : State} (h : RefInv s) (r : Id) (strong : Bool)
    (target : Option ListHead) : RefInv (binderIncRef r strong target s).1 := by
  cases hr : s.refs r with
  | none =>
    have : (binderIncRef r strong target s).1 = s.crash .freedRef := by
      simp only [binderIncRef, hr]
    rw [this]
    exact h.keep (.crash s _)
  | some ref =>
    obtain ⟨node, hn, -⟩ := h.node_of_ref hr
    obtain ⟨hs, hw⟩ := h.consistent.nonneg r _ (graph_edge hr)
    simp only [Ref.edge] at hs hw
    have hnonneg : 0 ≤ (ref.incremented strong).strong ∧ 0 ≤ (ref.incremented strong).weak := by
      cases strong <;> simp [Ref.incremented] <;> omega
    rcases binderIncRef_cases hr hn strong target with
      ⟨heq, -⟩ | ⟨hmore, heq⟩ | ⟨hfirst, l, heq, -⟩
    · rw [heq]
      exact h.keep (.refuse s r ref)
    · rw [heq]
      refine h.setCounts hr hn node rfl (by simp [← hn]) rfl rfl rfl rfl
        (by cases strong <;> exact ⟨rfl, rfl, rfl⟩) hnonneg rfl rfl ?_
      cases strong with
      | true =>
        have hmore : ref.strong ≠ 0 := hmore
        rw [if_pos (show 0 < (ref.incremented true).strong by simp [Ref.incremented]; omega),
          if_pos (show 0 < ref.strong by omega)]
        omega
      | false =>
        have : (ref.incremented false).strong = ref.strong := rfl
        rw [this]
        omega
    rw [heq]
    refine h.setCounts hr hn (node.incremented strong true) rfl rfl rfl rfl rfl rfl
      (by cases strong <;> exact ⟨rfl, rfl, rfl⟩) hnonneg (incremented_key ..)
      (incremented_refs ..) ?_
    cases strong with
    | true =>
      have hfirst : ref.strong = 0 := hfirst
      simp [Ref.incremented, hfirst, incremented_internal]
    | false =>
      have : (ref.incremented false).strong = ref.strong := rfl
      rw [this, incremented_internal]
      simp

/-- The node that a deleted reference leaves behind. -/
def Node.withoutRef (node : Node) (r : Id) (strong : Bool) : Node :=
  { (if strong then node.decremented true true else node) with refs := node.refs.erase r }

theorem withoutRef_key (node : Node) (r : Id) (strong : Bool) :
    (node.withoutRef r strong).key = node.key := by
  cases strong <;> rfl

/-- Deleting a reference first drops its strong count, which does not free the node since the
node still lists the reference, and then unlinks it. -/
theorem unlinkRef_decNode {s : State} {r n : Id} {node : Node} (hn : s.nodes n = some node)
    (hmem : r ∈ node.refs) (strong : Bool) :
    ∃ l, unlinkRef r n (if strong then binderDecNode n true true s else s) =
        { s with lists := l }.setNode n (some (node.withoutRef r strong)) ∧
      (l = s.lists ∨ ∃ p, node.proc = some p ∧ l = s.lists.addTail (.procTodo p) (.node n)) := by
  cases strong with
  | false => exact ⟨s.lists, by simp [unlinkRef, hn, Node.withoutRef], .inl rfl⟩
  | true =>
    rw [if_pos rfl]
    rcases binderDecNode_cases hn true true with heq | ⟨p, hp, heq⟩ | ⟨hempty, -⟩
    · exact ⟨s.lists, by rw [heq]; simp [unlinkRef, Node.withoutRef], .inl rfl⟩
    · exact ⟨s.lists.addTail (.procTodo p) (.node n),
        by rw [heq]; simp [unlinkRef, Node.withoutRef], .inr ⟨p, hp, rfl⟩⟩
    · rw [decremented_refs] at hempty
      simp [hempty] at hmem

/-- Before its name is freed, a deleted reference is out of every index of the graph. -/
theorem RefInv.graph_unlinked {s : State} (h : RefInv s) {r : Id} {ref : Ref} {node : Node}
    (hr : s.refs r = some ref) (hn : s.nodes ref.node = some node)
    (l : LinkedLists ListHead Work) :
    (({ s with lists := l }.setProc ref.proc
      { s.procs ref.proc with
        refsByDesc := (s.procs ref.proc).refsByDesc.erase r
        refsByNode := (s.procs ref.proc).refsByNode.erase r }).setNode ref.node
          (some (node.withoutRef r (ref.strong ≠ 0)))).graph =
      { s.graph.remove r ref.edge with edge := s.graph.edge } := by
  have hnonneg := (h.consistent.nonneg r _ (graph_edge hr)).1
  simp only [Ref.edge] at hnonneg
  unfold State.graph RefGraph.remove
  simp only [State.setProc, State.setNode, RefGraph.mk.injEq, true_and]
  refine ⟨?_, ?_, ?_, ?_⟩
  · funext m
    by_cases hm : m = ref.node
    · simp [hm, hn, Ref.edge, Node.withoutRef]
    · simp [hm, Ref.edge]
  · funext m
    by_cases hm : m = ref.node
    · by_cases hzero : ref.strong = 0
      · simp [hm, hn, Ref.edge, Node.withoutRef, hzero]
      · have hpos : 0 < ref.strong := by omega
        simp [hm, hn, Ref.edge, Node.withoutRef, hzero, hpos, decremented_internal]
    · simp [hm, Ref.edge]
  · funext q
    by_cases hq : q = ref.proc
    · simp [hq, Ref.edge]
    · simp [hq, Ref.edge]
  · funext q
    by_cases hq : q = ref.proc
    · simp [hq, Ref.edge]
    · simp [hq, Ref.edge]

theorem keeps_freeDeath (death : Option Id) (s : State) : Keeps s (freeDeath death s) := by
  cases death with
  | none => exact .refl _
  | some d => exact .elsewhere rfl

/-- Freeing the name of a reference removes its edge and nothing else. -/
theorem graph_setRef_none (s : State) (r : Id) :
    (s.setRef r none).graph = { s.graph with edge := Function.update s.graph.edge r none } := by
  unfold State.graph
  simp only [State.setRef, RefGraph.mk.injEq, and_true]
  funext a
  by_cases ha : a = r
  · simp [ha]
  · simp [ha]

/-- Deleting a reference removes its edge. -/
theorem RefInv.deleteRef {s : State} (h : RefInv s) (r : Id) : RefInv (binderDeleteRef r s) := by
  cases hr : s.refs r with
  | none =>
    have : binderDeleteRef r s = s.crash .freedRef := by simp only [binderDeleteRef, hr]
    rw [this]
    exact h.keep (.crash s _)
  | some ref =>
    obtain ⟨node, hn, hmem⟩ := h.node_of_ref hr
    have hremoved := h.consistent.remove (graph_edge hr)
    generalize hs1 : s.setProc ref.proc
      { s.procs ref.proc with
        refsByDesc := (s.procs ref.proc).refsByDesc.erase r
        refsByNode := (s.procs ref.proc).refsByNode.erase r } = s1
    have hn1 : s1.nodes ref.node = some node := by rw [← hs1]; exact hn
    obtain ⟨l, hunlink, -⟩ := unlinkRef_decNode hn1 hmem (decide (ref.strong ≠ 0))
    generalize hs2 : ({ s1 with lists := l }.setNode ref.node
      (some (node.withoutRef r (ref.strong ≠ 0)))) = s2 at hunlink
    have hdelete : binderDeleteRef r s =
        (freeDeath ref.death (binderDecNode ref.node false true s2)).setRef r none := by
      rw [← hunlink, ← hs1]
      simp only [binderDeleteRef, hr, decide_eq_true_eq]
    have hgraph2 : s2.graph = { s.graph.remove r ref.edge with edge := s.graph.edge } := by
      rw [← hs2, ← hs1]
      exact h.graph_unlinked hr hn l
    have hev2 : Evolves s s2 := by
      rw [← hs2, ← hs1]
      refine ⟨Nat.le_refl _, fun i _ hi => ?_, fun _ _ hi => hi, fun _ hx => .inl hx,
        List.Subset.refl _, fun _ h => h.congr (fun m => ?_) fun q => ?_⟩
      · have hne : i ≠ ref.node := fun heq => by rw [heq, hn] at hi; cases hi
        simpa [hne] using hi
      · by_cases hm : m = ref.node
        · simp [hm, hn, withoutRef_key]
        · simp [hm]
      · by_cases hq : q = ref.proc
        · simp [hq]
        · simp [hq]
    have hdec : Keeps s2 (binderDecNode ref.node false true s2) := by
      refine keeps_binderDecNode ref.node rfl fun node2 hnode2 hempty => ?_
      have hcount := hremoved.strong_count ref.node
      have hint : s2.graph.internalStrong ref.node = node2.internalStrongRefs := by
        simp [State.graph, hnode2]
      have hin : s2.graph.incoming ref.node = [] := by
        simp [State.graph, hnode2, hempty]
      rw [hgraph2] at hint hin
      rw [← hint, hcount, hin]
      rfl
    have hkeep := hdec.trans (keeps_freeDeath ref.death _)
    rw [hdelete]
    generalize freeDeath ref.death (binderDecNode ref.node false true s2) = s3 at hkeep
    have hgraph3 : (s3.setRef r none).graph = s.graph.remove r ref.edge := by
      rw [graph_setRef_none, hkeep.graph, hgraph2]
      rfl
    refine h.evolve (hgraph3 ▸ hremoved) ((hev2.trans hkeep.evolves).trans ?_)
    refine ⟨Nat.le_refl _, fun _ _ hi => hi, fun i _ hi => ?_, fun _ hx => .inl hx,
      List.Subset.refl _, fun _ h => h.congr (fun _ => rfl) fun _ => rfl⟩
    by_cases hir : i = r
    · simp [hir]
    · simpa [hir] using hi

/-- The first half of `binder_dec_ref`: the reference is written and its node told. -/
def lowerRef (r : Id) (ref : Ref) (strong : Bool) (s : State) : State :=
  let s := s.setRef r (some (ref.decremented strong))
  if strong ∧ (ref.decremented strong).strong = 0 then binderDecNode ref.node true true s else s

/-- A decrement is refused at zero; else it counts, and the last count deletes the reference. -/
theorem binderDecRef_eq {s : State} {r : Id} {ref : Ref} (hr : s.refs r = some ref)
    (strong : Bool) :
    binderDecRef r strong s =
      if ref.count strong = 0 then s
      else if (ref.decremented strong).strong = 0 ∧ (ref.decremented strong).weak = 0 then
        binderDeleteRef r (lowerRef r ref strong s)
      else lowerRef r ref strong s := by
  unfold binderDecRef
  simp only [hr]
  cases strong <;> rfl

/-- Counting down a reference changes its node at most by a strong count. -/
theorem lowerRef_cases {s : State} {r : Id} {ref : Ref} {node : Node}
    (hn : s.nodes ref.node = some node) (hmem : r ∈ node.refs) (strong : Bool) :
    (¬(strong = true ∧ (ref.decremented strong).strong = 0) ∧
        lowerRef r ref strong s = s.setRef r (some (ref.decremented strong))) ∨
      (strong = true ∧ (ref.decremented strong).strong = 0 ∧
        ∃ l, lowerRef r ref strong s =
          ({ s with lists := l }.setRef r (some (ref.decremented strong))).setNode ref.node
            (some (node.decremented true true)) ∧
          (l = s.lists ∨
            ∃ p, node.proc = some p ∧ l = s.lists.addTail (.procTodo p) (.node ref.node))) := by
  unfold lowerRef
  by_cases hlast : strong = true ∧ (ref.decremented strong).strong = 0
  · refine .inr ⟨hlast.1, hlast.2, ?_⟩
    simp only [if_pos hlast]
    have hn' : (s.setRef r (some (ref.decremented strong))).nodes ref.node = some node := hn
    rcases binderDecNode_cases hn' true true with heq | ⟨p, hp, heq⟩ | ⟨hempty, -⟩
    · exact ⟨s.lists, heq, .inl rfl⟩
    · exact ⟨s.lists.addTail (.procTodo p) (.node ref.node), heq, .inr ⟨p, hp, rfl⟩⟩
    · rw [decremented_refs] at hempty
      simp [hempty] at hmem
  · exact .inl ⟨hlast, by simp only [if_neg hlast]⟩

theorem RefInv.lowerRef {s : State} (h : RefInv s) {r : Id} {ref : Ref}
    (hr : s.refs r = some ref) {strong : Bool}
    (hcount : ref.count strong ≠ 0) :
    RefInv (lowerRef r ref strong s) := by
  obtain ⟨node, hn, hmem⟩ := h.node_of_ref hr
  obtain ⟨hs, hw⟩ := h.consistent.nonneg r _ (graph_edge hr)
  simp only [Ref.edge] at hs hw
  have hsame : (ref.decremented strong).proc = ref.proc ∧
      (ref.decremented strong).node = ref.node ∧ (ref.decremented strong).desc = ref.desc := by
    cases strong <;> exact ⟨rfl, rfl, rfl⟩
  have hnonneg :
      0 ≤ (ref.decremented strong).strong ∧ 0 ≤ (ref.decremented strong).weak := by
    cases strong <;> simp [Ref.decremented, Ref.count] at hcount ⊢ <;> omega
  rcases lowerRef_cases hn hmem strong with ⟨hmore, heq⟩ | ⟨rfl, hzero, l, heq, -⟩
  · rw [heq]
    refine h.setCounts hr hn node rfl (by simp [← hn]) rfl rfl rfl rfl hsame hnonneg rfl rfl ?_
    cases strong with
    | false =>
      have : (ref.decremented false).strong = ref.strong := rfl
      rw [this]
      omega
    | true =>
      simp only [true_and] at hmore
      have hcount : ref.strong ≠ 0 := hcount
      rw [if_pos (show 0 < (ref.decremented true).strong by omega),
        if_pos (show 0 < ref.strong by omega)]
      omega
  · rw [heq]
    refine h.setCounts hr hn (node.decremented true true) rfl rfl rfl rfl rfl rfl hsame hnonneg
      (decremented_key ..) (decremented_refs ..) ?_
    have hcount : ref.strong ≠ 0 := hcount
    rw [if_neg (show ¬0 < (ref.decremented true).strong by omega),
      if_pos (show 0 < ref.strong by omega), decremented_internal]
    simp

/-- Counting down a reference keeps the invariant. -/
theorem RefInv.decRef {s : State} (h : RefInv s) (r : Id) (strong : Bool) :
    RefInv (binderDecRef r strong s) := by
  cases hr : s.refs r with
  | none =>
    have : binderDecRef r strong s = s.crash .freedRef := by simp only [binderDecRef, hr]
    rw [this]
    exact h.keep (.crash s _)
  | some ref =>
    rw [binderDecRef_eq hr]
    split
    · exact h
    · rename_i hcount
      split
      · exact (h.lowerRef hr hcount).deleteRef r
      · exact h.lowerRef hr hcount

end AndroidKernel.Binder
