import AndroidKernel.Binder.Frames

/-!
# Reference bookkeeping over whole runs

The invariant of the reference layer is kept by every transition of the driver: the
transaction loops use the reference operations, and everything else leaves the graph alone.
-/

namespace AndroidKernel.Binder

open Library

/-! ## The reference layer -/

/-- The tree of nodes gains a new node under a new key. -/
theorem NodeTree.linkNode {s : State} (h : NodeTree s) {p ptr cookie : Nat} {acceptFds : Bool}
    (hfresh : s.nodes (s.lastId + 1) = none) (hkey : binderGetNode s p ptr = none) :
    NodeTree (linkNode p (.fresh p ptr cookie acceptFds) s) := by
  have hnodes : (Binder.linkNode p (.fresh p ptr cookie acceptFds) s).nodes =
      Function.update s.nodes (s.lastId + 1) (some (.fresh p ptr cookie acceptFds)) := rfl
  have hptr : (Binder.linkNode p (.fresh p ptr cookie acceptFds) s).nodePtr =
      Function.update s.nodePtr (s.lastId + 1) ptr := by
    funext m
    by_cases hm : m = s.lastId + 1
    · rw [State.nodePtr, hnodes, hm, Function.update_self, Function.update_self]
      rfl
    · simp [State.nodePtr, hnodes, hm]
  have hprocs : ∀ q, ((Binder.linkNode p (.fresh p ptr cookie acceptFds) s).procs q).nodes =
      if q = p then (s.procs p).nodes.orderedInsert (fun a b =>
        Function.update s.nodePtr (s.lastId + 1) ptr a ≤
          Function.update s.nodePtr (s.lastId + 1) ptr b) (s.lastId + 1)
      else (s.procs q).nodes := by
    intro q
    rw [← hptr]
    by_cases hq : q = p
    · subst hq
      simp only [Binder.linkNode, State.setProc, State.setNode, Function.update_self, if_true]
      congr
    · simp [Binder.linkNode, hq]
  have hnew : ∀ q, s.lastId + 1 ∉ (s.procs q).nodes := fun q hmem => by
    obtain ⟨node, hn, -⟩ := (h.mem_nodes q _).1 hmem
    simp [hfresh] at hn
  refine ⟨fun q m => ?_, fun q => ?_⟩
  · rw [hprocs, hnodes]
    by_cases hm : m = s.lastId + 1
    · subst hm
      by_cases hq : q = p
      · simp [hq, Node.fresh]
      · simpa [hq, Node.fresh, Ne.symm hq] using hnew q
    · by_cases hq : q = p
      · simpa [hq, hm] using h.mem_nodes p m
      · simpa [hq, hm] using h.mem_nodes q m
  rw [hprocs, hptr]
  have hsorted : (s.procs q).nodes.Pairwise fun a b =>
      Function.update s.nodePtr (s.lastId + 1) ptr a <
        Function.update s.nodePtr (s.lastId + 1) ptr b :=
    (h.sorted q).imp_of_mem fun {a b} ha hb hlt => by
      have hane : a ≠ s.lastId + 1 := fun heq => hnew q (heq ▸ ha)
      have hbne : b ≠ s.lastId + 1 := fun heq => hnew q (heq ▸ hb)
      simpa [hane, hbne] using hlt
  by_cases hq : q = p
  · subst hq
    rw [if_pos rfl]
    refine RefGraph.pairwise_orderedInsert _ (s.lastId + 1) _ hsorted fun a ha => ?_
    have hane : a ≠ s.lastId + 1 := fun heq => hnew q (heq ▸ ha)
    obtain ⟨node, hn, -⟩ := (h.mem_nodes q a).1 ha
    have hother := List.find?_eq_none.1 hkey a ha
    simp only [Function.update_of_ne hane, Function.update_self, State.nodePtr, hn,
      Option.elim_some]
    simpa [hn] using hother
  · rw [if_neg hq]
    exact hsorted

/-- A new node has no references, so the graph does not change. -/
theorem RefInv.newNode {s : State} (h : RefInv s) (p ptr cookie : Nat) (acceptFds memory : Bool) :
    Keeps s (binderNewNode p ptr cookie acceptFds memory s).1 := by
  unfold binderNewNode
  cases hkey : binderGetNode s p ptr with
  | some n => exact .refl s
  | none =>
    cases memory with
    | false => exact .refl s
    | true =>
      have hfresh := h.nodes_fresh (s.lastId + 1) (Nat.lt_succ_self _)
      have hin : ∀ m, (Function.update s.nodes (s.lastId + 1)
          (some (Node.fresh p ptr cookie acceptFds)) m).elim [] Node.refs =
          (s.nodes m).elim [] Node.refs := by
        intro m
        by_cases hm : m = s.lastId + 1
        · simp [hm, hfresh, Node.fresh]
        · simp [hm]
      have hint : ∀ m, (Function.update s.nodes (s.lastId + 1)
          (some (Node.fresh p ptr cookie acceptFds)) m).elim 0 Node.internalStrongRefs =
          (s.nodes m).elim 0 Node.internalStrongRefs := by
        intro m
        by_cases hm : m = s.lastId + 1
        · simp [hm, hfresh, Node.fresh]
        · simp [hm]
      have htrees : ∀ q, ((linkNode p (.fresh p ptr cookie acceptFds) s).procs q).refsByDesc =
          (s.procs q).refsByDesc ∧
          ((linkNode p (.fresh p ptr cookie acceptFds) s).procs q).refsByNode =
          (s.procs q).refsByNode := by
        intro q
        by_cases hq : q = p
        · subst hq
          simp [linkNode]
        · simp [linkNode, hq]
      refine ⟨?_, Nat.le_succ _, fun i hi hn => ?_, fun _ _ hi => hi, fun _ hx => .inl hx,
        List.Subset.refl _, fun _ htree => htree.linkNode hfresh hkey⟩
      · have hgraph : (linkNode p (.fresh p ptr cookie acceptFds) s).graph = s.graph := by
          simp only [State.graph, (htrees _).1, (htrees _).2]
          simp only [linkNode, State.setProc, State.setNode, hin, hint]
        exact hgraph
      · have hne : i ≠ s.lastId + 1 := fun heq => by simp [linkNode, heq] at hi
        simpa [linkNode, hne] using hn

/-- Every reference has a count, unless a count on it was refused. -/
def Counted (s : State) : Prop :=
  ∀ r ref, s.refs r = some ref → 0 < ref.strong ∨ 0 < ref.weak ∨ r ∈ s.refused

/-- The bookkeeping invariant at a command boundary. -/
structure BookInv (s : State) : Prop where
  refInv : RefInv s
  counted : Counted s

theorem BookInv.keep {s s' : State} (h : BookInv s) (hk : Keeps s s') : BookInv s' where
  refInv := h.refInv.keep hk
  counted r ref hr := by
    have hedge : s.graph.edge r = some ref.edge := hk.graph ▸ graph_edge hr
    obtain ⟨ref', hr', heq⟩ := graph_edge_some hedge
    have hs : ref'.strong = ref.strong := congrArg Edge.strong heq
    have hw : ref'.weak = ref.weak := congrArg Edge.weak heq
    have := h.counted r ref' hr'
    rw [hs, hw] at this
    exact this.imp_right (Or.imp_right fun hmem => hk.evolves.refused hmem)

/-- A state in which every reference but one, with non-negative counts, is counted. -/
theorem BookInv.incRef {s : State} (h : RefInv s) {r : Id}
    (hothers : ∀ r' ref, r' ≠ r → s.refs r' = some ref →
      0 < ref.strong ∨ 0 < ref.weak ∨ r' ∈ s.refused)
    (strong : Bool) (target : Option ListHead) : BookInv (binderIncRef r strong target s).1 := by
  refine ⟨h.incRef r strong target, ?_⟩
  cases hr : s.refs r with
  | none =>
    have : (binderIncRef r strong target s).1 = s.crash .freedRef := by
      simp only [binderIncRef, hr]
    rw [this]
    intro r' ref hr'
    have hne : r' ≠ r := fun heq => by
      have hr' : s.refs r' = some ref := hr'
      rw [heq, hr] at hr'
      cases hr'
    exact hothers r' ref hne hr'
  | some ref =>
    obtain ⟨node, hn, -⟩ := h.node_of_ref hr
    obtain ⟨hs, hw⟩ := h.consistent.nonneg r _ (graph_edge hr)
    simp only [Ref.edge] at hs hw
    have hpos : 0 < (ref.incremented strong).strong ∨ 0 < (ref.incremented strong).weak := by
      cases strong <;> simp [Ref.incremented] <;> omega
    have hset : ∀ s' : State, s'.refs = Function.update s.refs r (some (ref.incremented strong)) →
        s'.refused = s.refused → Counted s' := by
      intro s' hrefs hrefused r' ref' hr'
      by_cases heq : r' = r
      · rw [hrefs, heq, Function.update_self] at hr'
        cases hr'
        exact hpos.imp_right Or.inl
      · rw [hrefs, Function.update_of_ne heq] at hr'
        rw [hrefused]
        exact hothers r' ref' heq hr'
    rcases binderIncRef_cases hr hn strong target with
      ⟨heq, -⟩ | ⟨-, heq⟩ | ⟨-, l, heq, -⟩
    · rw [heq]
      have hrefs : (s.refuse r ref).refs = s.refs := by
        unfold State.refuse
        split
        · rfl
        · rfl
      intro r' ref' hr'
      rw [hrefs] at hr'
      by_cases hrr : r' = r
      · rw [hrr, hr] at hr'
        cases hr'
        by_cases hzero : ref.strong = 0 ∧ ref.weak = 0
        · exact .inr (.inr (by simp [State.refuse, hzero, hrr]))
        · rcases Int.lt_or_eq_of_le hs with hpos | hs0
          · exact .inl hpos
          · exact .inr (.inl (by omega))
      · exact (hothers r' ref' hrr hr').imp_right (Or.imp_right fun hmem =>
          (Keeps.refuse s r ref).evolves.refused hmem)
    · rw [heq]
      exact hset _ rfl rfl
    · rw [heq]
      exact hset _ rfl rfl

/-- A reference is made and counted on in one go. -/
theorem BookInv.takeRef {s : State} (h : BookInv s) (p n : Id) (memory strong : Bool)
    (target : Option ListHead) : BookInv (takeRef p n memory strong target s) := by
  unfold Binder.takeRef
  have href := (h.refInv.getRefForNode p n memory).1
  rcases h.refInv.getRefForNode_cases p n memory with
    ⟨r, ref, hr, -, -, heq⟩ | heq | heq | ⟨node, desc, hn, -, -, heq⟩
  · rw [heq]
    exact BookInv.incRef h.refInv (fun r' ref' _ hr' => h.counted r' ref' hr') strong target
  · rw [heq]
    exact h
  · rw [heq]
    exact h.keep (.crash s _)
  · rw [heq] at href ⊢
    refine BookInv.incRef href (fun r' ref' hne hr' => ?_) strong target
    have hold : s.refs r' = some ref' := by
      simpa [linkRef, hne] using hr'
    exact h.counted r' ref' hold

theorem binderDecNode_refs (n : Id) (strong internal : Bool) (s : State) :
    (binderDecNode n strong internal s).refs = s.refs ∧
      (binderDecNode n strong internal s).refused = s.refused := by
  cases hn : s.nodes n with
  | none =>
    have : binderDecNode n strong internal s = s.crash .freedNode := by
      simp only [binderDecNode, hn]
    rw [this]
    exact ⟨rfl, rfl⟩
  | some node =>
    rcases binderDecNode_cases hn strong internal with heq | ⟨p, -, heq⟩ | ⟨-, -, -, heq⟩
    · rw [heq]
      exact ⟨rfl, rfl⟩
    · rw [heq]
      exact ⟨rfl, rfl⟩
    · rw [heq]
      unfold freeNode
      rw [decremented_proc]
      cases node.proc with
      | none => exact ⟨rfl, rfl⟩
      | some p => exact ⟨rfl, rfl⟩

/-- Deleting a reference frees its name and no other reference. -/
theorem binderDeleteRef_refs (r : Id) (s : State) :
    (binderDeleteRef r s).refs = Function.update s.refs r none ∧
      (binderDeleteRef r s).refused = s.refused := by
  cases hr : s.refs r with
  | none =>
    have : binderDeleteRef r s = s.crash .freedRef := by simp only [binderDeleteRef, hr]
    rw [this]
    exact ⟨by simp [← hr], rfl⟩
  | some ref =>
    unfold binderDeleteRef
    simp only [hr]
    generalize hs1 : s.setProc ref.proc
      { s.procs ref.proc with
        refsByDesc := (s.procs ref.proc).refsByDesc.erase r
        refsByNode := (s.procs ref.proc).refsByNode.erase r } = s1
    have h1 : s1.refs = s.refs ∧ s1.refused = s.refused := by
      rw [← hs1]
      exact ⟨rfl, rfl⟩
    have h2 : ∀ s2, s2 = (if ref.strong ≠ 0 then binderDecNode ref.node true true s1 else s1) →
        s2.refs = s.refs ∧ s2.refused = s.refused := by
      rintro s2 rfl
      split
      · have := binderDecNode_refs ref.node true true s1
        exact ⟨this.1.trans h1.1, this.2.trans h1.2⟩
      · exact h1
    have h3 : ∀ s2 : State, (unlinkRef r ref.node s2).refs = s2.refs ∧
        (unlinkRef r ref.node s2).refused = s2.refused := by
      intro s2
      unfold unlinkRef
      split
      · exact ⟨rfl, rfl⟩
      · exact ⟨rfl, rfl⟩
    have h4 : ∀ s3 : State, (freeDeath ref.death s3).refs = s3.refs ∧
        (freeDeath ref.death s3).refused = s3.refused := by
      intro s3
      cases ref.death with
      | none => exact ⟨rfl, rfl⟩
      | some d => exact ⟨rfl, rfl⟩
    have h2 := h2 _ rfl
    generalize (if ref.strong ≠ 0 then binderDecNode ref.node true true s1 else s1) = s2 at h2 ⊢
    have h5 := binderDecNode_refs ref.node false true (unlinkRef r ref.node s2)
    refine ⟨?_, ?_⟩
    · simp only [State.setRef]
      rw [(h4 _).1, h5.1, (h3 s2).1, h2.1]
    · simp only [State.setRef]
      rw [(h4 _).2, h5.2, (h3 s2).2, h2.2]

theorem BookInv.deleteRef {s : State} (h : RefInv s) {r : Id}
    (hothers : ∀ r' ref, r' ≠ r → s.refs r' = some ref →
      0 < ref.strong ∨ 0 < ref.weak ∨ r' ∈ s.refused) : BookInv (binderDeleteRef r s) := by
  refine ⟨h.deleteRef r, fun r' ref hr' => ?_⟩
  obtain ⟨hrefs, hrefused⟩ := binderDeleteRef_refs r s
  rw [hrefs] at hr'
  rw [hrefused]
  by_cases heq : r' = r
  · simp [heq] at hr'
  · rw [Function.update_of_ne heq] at hr'
    exact hothers r' ref heq hr'

theorem BookInv.decRef {s : State} (h : BookInv s) (r : Id) (strong : Bool) :
    BookInv (binderDecRef r strong s) := by
  cases hr : s.refs r with
  | none =>
    have : binderDecRef r strong s = s.crash .freedRef := by simp only [binderDecRef, hr]
    rw [this]
    exact h.keep (.crash s _)
  | some ref =>
    obtain ⟨node, hn, hmem⟩ := h.refInv.node_of_ref hr
    rw [binderDecRef_eq hr]
    split
    · exact h
    rename_i hcount
    have hlow := h.refInv.lowerRef hr hcount
    have hrefs : (Binder.lowerRef r ref strong s).refs =
        Function.update s.refs r (some (ref.decremented strong)) ∧
        (Binder.lowerRef r ref strong s).refused = s.refused := by
      rcases lowerRef_cases hn hmem strong with ⟨-, heq⟩ | ⟨-, -, l, heq, -⟩
      · rw [heq]
        exact ⟨rfl, rfl⟩
      · rw [heq]
        exact ⟨rfl, rfl⟩
    have hothers : ∀ r' ref', r' ≠ r → (Binder.lowerRef r ref strong s).refs r' = some ref' →
        0 < ref'.strong ∨ 0 < ref'.weak ∨ r' ∈ (Binder.lowerRef r ref strong s).refused := by
      intro r' ref' hne hr'
      rw [hrefs.1, Function.update_of_ne hne] at hr'
      rw [hrefs.2]
      exact h.counted r' ref' hr'
    split
    · exact BookInv.deleteRef hlow hothers
    rename_i hzero
    refine ⟨hlow, fun r' ref' hr' => ?_⟩
    by_cases heq : r' = r
    · have hself : (Binder.lowerRef r ref strong s).refs r = some (ref.decremented strong) := by
        rw [hrefs.1, Function.update_self]
      obtain ⟨hs, hw⟩ := hlow.consistent.nonneg r _ (graph_edge hself)
      simp only [Ref.edge] at hs hw
      rw [heq, hself] at hr'
      cases hr'
      rcases Int.lt_or_eq_of_le hs with hpos | hs0
      · exact .inl hpos
      · rcases Int.lt_or_eq_of_le hw with hpos | hw0
        · exact .inr (.inl hpos)
        · exact absurd ⟨hs0.symm, hw0.symm⟩ hzero
    · exact hothers r' ref' heq hr'

/-- Every call of the reference layer keeps the invariant. -/
theorem refClosed_bookInv : RefClosed BookInv where
  crash s h := h.keep (.crash s _)
  newNode _ _ _ _ _ _ h := h.keep (h.refInv.newNode ..)
  takeRef _ _ _ _ _ _ h := h.takeRef ..
  incNode n _ s h := h.keep (keeps_binderIncNode s n (by simp) none)
  decNode n _ _ h := h.keep (h.refInv.decNode n (by simp))
  decRef _ _ _ h := h.decRef ..

/-! ## The call layer -/

/-- A call-layer function leaves the graph alone. -/
theorem CallFrame.keeps {s s' : State} (h : CallFrame s s') : Keeps s s' := by
  have hnode : ∀ n, (s'.nodes n).elim [] Node.refs = (s.nodes n).elim [] Node.refs ∧
      (s'.nodes n).elim 0 Node.internalStrongRefs =
        (s.nodes n).elim 0 Node.internalStrongRefs ∧ (s.nodes n = none → s'.nodes n = none) := by
    intro n
    have := h.nodes n
    cases hs : s.nodes n with
    | none =>
      rw [hs, Option.map_none, Option.map_eq_none_iff] at this
      simp [this]
    | some node =>
      rw [hs, Option.map_some, Option.map_eq_some_iff] at this
      obtain ⟨node', hn', heq⟩ := this
      have hrefs : node'.withoutAsync.refs = node.withoutAsync.refs := by rw [heq]
      have hint : node'.withoutAsync.internalStrongRefs = node.withoutAsync.internalStrongRefs := by
        rw [heq]
      simp only [hn', Option.elim_some]
      exact ⟨hrefs, hint, by simp⟩
  have hkey : ∀ n, (s'.nodes n).map Node.key = (s.nodes n).map Node.key := by
    intro n
    have := congrArg (Option.map Node.key) (h.nodes n)
    rw [Option.map_map, Option.map_map] at this
    exact this
  have htrees : ∀ p, (s'.procs p).refsByDesc = (s.procs p).refsByDesc ∧
      (s'.procs p).refsByNode = (s.procs p).refsByNode ∧
      (s'.procs p).nodes = (s.procs p).nodes := by
    intro p
    have hdesc := congrArg Proc.refsByDesc (h.procs p)
    have hnode := congrArg Proc.refsByNode (h.procs p)
    have hnodes := congrArg Proc.nodes (h.procs p)
    exact ⟨hdesc, hnode, hnodes⟩
  refine ⟨?_, h.lastId_le, fun n _ => (hnode n).2.2, fun _ _ hr => h.refs ▸ hr, fun x hx =>
    .inl (h.freedNodes ▸ hx), by rw [h.refused]; exact List.Subset.refl _, fun _ htree =>
    htree.congr hkey fun p => (htrees p).2.2⟩
  simp only [State.graph, h.refs, (hnode _).1, (hnode _).2.1, (htrees _).1, (htrees _).2.1]

theorem keeps_handOverAsync (th : Id) (buffer : Buffer) (s : State) :
    Keeps s (handOverAsync th buffer s) := by
  unfold handOverAsync
  split
  · split
    · exact .crash s _
    · rename_i node hn
      split
      · exact .crash s _
      · split
        · exact .setNode hn rfl rfl rfl
        · exact .lists s _
  · exact .refl s

/-- Dropping work changes no reference. -/
theorem keeps_binderReleaseWork (q : ListHead) (s : State) : Keeps s (binderReleaseWork q s) := by
  have hone : ∀ (w : Work) (s : State), Keeps s (releaseWorkItem s w) := by
    intro w s
    cases w with
    | transaction t => exact (callFrame_releaseTransaction t s).keeps
    | transactionComplete c => exact .lists s _
    | node n => exact .lists s _
    | death d => exact .lists s _
  have hloop : ∀ (ws : List Work) (s : State), Keeps s (ws.foldl releaseWorkItem s) := by
    intro ws
    induction ws with
    | nil => exact fun s => .refl s
    | cons w rest ih => exact fun s => (hone w s).trans (ih _)
  exact hloop _ s

theorem keeps_binderFreeThread (s : State) (th : Id) : Keeps s (binderFreeThread s th) := by
  unfold binderFreeThread
  split
  · exact .crash s _
  rename_i thread _
  simp only
  refine Keeps.trans ?_ (.setThread _ th none)
  refine Keeps.trans ?_ (keeps_binderReleaseWork _ _)
  have hproc : Keeps s (s.setProc thread.proc
      { s.procs thread.proc with threads := (s.procs thread.proc).threads.erase th }) :=
    .setProc rfl rfl rfl
  have hwalk := hproc.trans
    (callFrame_releaseStack th (2 * s.lastId + 2) thread.transactionStack _).keeps
  split
  · exact hwalk.trans (callFrame_binderSendFailedReply ..).keeps
  · exact hwalk

/-! ## Transactions -/

theorem BookInv.transaction {s : State} (h : BookInv s) (th : Id) (tr : TransactionData)
    (reply : Bool) (sup : Supply) : BookInv (binderTransaction th tr reply sup s) :=
  refClosed_bookInv.transaction (fun _ _ hf h => h.keep hf.keeps) h th tr reply sup

/-! ## The other commands -/

theorem BookInv.setContextMgr {s : State} (h : BookInv s) (p euid : Nat) (memory : Bool) :
    BookInv (setContextMgr p euid memory s) := by
  unfold Binder.setContextMgr
  split
  · have huid : BookInv { s with contextMgrUid := some euid } :=
      h.keep (.elsewhere rfl)
    have hnew := huid.keep (huid.refInv.newNode p 0 0 false memory)
    simp only
    generalize binderNewNode p 0 0 false memory { s with contextMgrUid := some euid } = out at hnew
    obtain ⟨s1, found⟩ := out
    cases found with
    | none => exact hnew
    | some n =>
      simp only
      split
      · exact hnew.keep (.crash _ _)
      · rename_i node hn
        refine (hnew.keep (.setNode hn ?_ ?_ ?_)).keep (.elsewhere rfl)
        · rfl
        · rfl
        · rfl
  · exact h

/-- A command on a reference that exists, if there is one. -/
theorem BookInv.existing {s : State} (h : BookInv s) (cmd : RefCommand) (found : Option Id) :
    BookInv (match (s, found) with
      | (s, none) => s
      | (s, some r) =>
        match cmd with
        | .increfs => (binderIncRef r false none s).1
        | .acquire => (binderIncRef r true none s).1
        | .release => binderDecRef r true s
        | .decrefs => binderDecRef r false s) := by
  have hinc : ∀ r strong, BookInv (binderIncRef r strong none s).1 := fun r strong =>
    BookInv.incRef h.refInv (fun r' ref _ hr' => h.counted r' ref hr') strong none
  cases found with
  | none => exact h
  | some r =>
    cases cmd with
    | increfs => exact hinc r false
    | acquire => exact hinc r true
    | release => exact h.decRef r true
    | decrefs => exact h.decRef r false

/-- A command on handle 0 makes its reference and counts on it at once; any other command works
on a reference that exists. -/
theorem BookInv.refCommand {s : State} (h : BookInv s) (p : Id) (cmd : RefCommand) (target : Nat)
    (memory : Bool) : BookInv (refCommand p cmd target memory s) := by
  have hexisting := h.existing cmd
  unfold Binder.refCommand commandRef
  cases hctx : s.contextMgrNode with
  | none => exact hexisting _
  | some n =>
    by_cases hzero : target = 0 ∧ cmd.increments = true
    · have htake := fun strong => h.takeRef p n memory strong none
      unfold Binder.takeRef at htake
      simp only [if_pos hzero]
      generalize binderGetRefForNode p n memory s = out at htake
      obtain ⟨s1, found⟩ := out
      cases found with
      | none => exact (htake true).keep (.crash s1 _)
      | some r =>
        cases cmd with
        | increfs => exact htake false
        | acquire => exact htake true
        | release => simp [RefCommand.increments] at hzero
        | decrefs => simp [RefCommand.increments] at hzero
    · simp only [if_neg hzero]
      exact hexisting _

theorem BookInv.nodeDone {s : State} (h : BookInv s) (p : Id) (strong : Bool) (ptr cookie : Nat) :
    BookInv (nodeDone p strong ptr cookie s) := by
  unfold Binder.nodeDone
  split
  · exact h
  rename_i n _
  split
  · exact h.keep (.crash s _)
  rename_i node hn
  split
  · exact h
  · split
    · exact h
    · have hset : BookInv (s.setNode n (some (node.clearPending strong))) :=
        h.keep (.setNode hn (by cases strong <;> rfl) (by cases strong <;> rfl)
          (by cases strong <;> rfl))
      exact hset.keep (hset.refInv.decNode n (by simp))

theorem BookInv.freeBuffer {s : State} (h : BookInv s) (p th b : Id) :
    BookInv (freeBuffer p th b s) := by
  unfold Binder.freeBuffer
  split
  · split
    · exact h.keep (.crash s _)
    rename_i buffer _
    split
    · exact h
    · have hdetach := h.keep ((callFrame_detachTransaction buffer s).trans
        (.setBuffer _ b (some { buffer with transaction := none }))).keeps
      have hhand := hdetach.keep (keeps_handOverAsync th buffer _)
      exact (refClosed_bookInv.bufferRelease p buffer none hhand).keep
        (callFrame_binderFreeBuf ..).keeps
  · exact h

/-- The death commands change no count. -/
theorem BookInv.requestDeath {s : State} (h : BookInv s) (th : Id) (thread : Thread)
    (target cookie : Nat) (memory : Bool) :
    BookInv (requestDeath th thread target cookie memory s) := by
  unfold Binder.requestDeath
  split
  · exact h
  rename_i r _
  split
  · exact h.keep (.crash s _)
  rename_i ref hr
  split
  · exact h
  split
  · have halloc : Keeps s { s with lastId := s.lastId + 1 } :=
      .of_eq rfl rfl rfl (Nat.le_succ _) rfl (List.Subset.refl _)
    have hr' : ({ s with lastId := s.lastId + 1 } : State).refs r = some ref := hr
    have hnew := halloc.trans
      ((Keeps.setRef hr' { ref with death := some (s.lastId + 1) } rfl).trans
        (.note _ (.requested (s.lastId + 1))))
    simp only
    split
    · exact h.keep (hnew.trans (.crash _ _))
    · split
      · exact h.keep (hnew.trans
          (.elsewhere rfl))
      · exact h.keep (hnew.trans
          (.elsewhere rfl))
  · exact h.keep (.setThread s _ _)

theorem BookInv.clearDeath {s : State} (h : BookInv s) (th : Id) (thread : Thread)
    (target cookie : Nat) : BookInv (clearDeath th thread target cookie s) := by
  unfold Binder.clearDeath
  split
  · exact h
  rename_i r _
  split
  · exact h.keep (.crash s _)
  rename_i ref hr
  split
  · exact h
  rename_i d _
  split
  · exact h.keep (.crash s _)
  split
  · exact h
  have hclear : Keeps s ((s.setRef r (some { ref with death := none })).note
      (.cleared d)) :=
    (Keeps.setRef hr { ref with death := none } rfl).trans (.note _ _)
  simp only
  split
  · exact h.keep (hclear.trans
      (.elsewhere rfl))
  · split
    · exact h.keep (hclear.trans (.crash _ _))
    · exact h.keep (hclear.trans
        (.elsewhere rfl))

theorem keeps_deadBinderDone (th : Id) (thread : Thread) (cookie : Nat) (s : State) :
    Keeps s (deadBinderDone th thread cookie s) := by
  unfold deadBinderDone
  split
  · exact .refl s
  · split
    · exact .crash s _
    · simp only
      split
      · exact .elsewhere rfl
      · exact .elsewhere rfl

/-- Node work changes local counts and flags, or frees a node without references. -/
theorem keeps_deliverNode (n : Id) (s : State) : Keeps s (deliverNode n s) := by
  unfold deliverNode
  split
  · exact .crash s _
  rename_i node hn
  simp only
  split
  · exact .setNode hn rfl rfl rfl
  split
  · exact .setNode hn rfl rfl rfl
  split
  · exact .setNode hn rfl rfl rfl
  split
  · exact .setNode hn rfl rfl rfl
  · split
    · rename_i hfree
      simp only [Bool.or_eq_false_iff, Bool.not_eq_eq_eq_not, Bool.not_false,
        decide_eq_false_iff_not, Decidable.not_not] at hfree
      obtain ⟨⟨⟨hrefs, hlw⟩, hint, hls⟩, -⟩ := hfree
      exact .freeNode hn hint ⟨List.isEmpty_iff.1 hrefs, fun _ => ⟨hls, hlw⟩⟩
    · exact .lists s _

theorem keeps_deliverDeath (th : Id) (thread : Thread) (d : Id) (s : State) :
    Keeps s (deliverDeath th thread d s) := by
  unfold deliverDeath
  split
  · exact .crash s _
  · split
    · exact .elsewhere rfl
    · exact .elsewhere rfl

theorem keeps_deliver {s : State} {th : Id} {thread : Thread}
    (hth : s.threads th = some thread) : Keeps s (deliver th thread s) := by
  unfold deliver
  split
  · exact .refl s
  · exact (callFrame_deliverTransaction hth _).keeps
  · exact .lists s _
  · exact keeps_deliverNode ..
  · exact keeps_deliverDeath ..

/-! ## Process release -/

theorem keeps_queueDeath (s : State) (r : Id) : Keeps s (queueDeath s r) := by
  unfold queueDeath
  split
  · exact .crash s _
  · split
    · exact .refl s
    · split
      · exact .crash s _
      · split
        · exact .elsewhere rfl
        · exact .crash s _

/-- A fold of steps that each keep the graph. -/
theorem Keeps.foldl {α : Type} {f : State → α → State} (hf : ∀ s a, Keeps s (f s a)) :
    ∀ (l : List α) (s : State), Keeps s (l.foldl f s)
  | [], s => .refl s
  | a :: rest, s => (hf s a).trans (Keeps.foldl hf rest (f s a))

/-- A fold of steps that each keep an invariant. -/
theorem foldl_invariant {α : Type} {P : State → Prop} {f : State → α → State}
    (hf : ∀ s a, P s → P (f s a)) : ∀ (l : List α) {s : State}, P s → P (l.foldl f s)
  | [], _, h => h
  | a :: rest, s, h => foldl_invariant hf rest (hf s a h)

/-- A node leaves the tree of its process and keeps its references. -/
theorem Keeps.orphan {s : State} {n p : Id} {node : Node} (hn : s.nodes n = some node)
    (hp : node.proc = some p) :
    Keeps s (((s.setProc p { s.procs p with nodes := (s.procs p).nodes.erase n }).listDel
      (.node n)).setNode n (some node.orphaned)) := by
  have hset : Keeps s (s.setNode n (some { node.orphaned with proc := node.proc })) :=
    .setNode hn rfl rfl rfl
  refine ⟨?_, hset.evolves.lastId_le, fun i hi hs => ?_, fun _ _ hr => hr, fun _ hx => .inl hx,
    List.Subset.refl _, fun _ htree => ?_⟩
  · rw [← hset.graph]
    unfold State.graph
    simp only [State.setProc, State.setNode, State.listDel, RefGraph.mk.injEq, true_and]
    refine ⟨?_, ?_, ?_, ?_⟩
    · funext m
      by_cases hm : m = n
      · simp [hm]
      · simp [hm]
    · funext m
      by_cases hm : m = n
      · simp [hm]
      · simp [hm]
    · funext q
      by_cases hq : q = p
      · simp [hq]
      · simp [hq]
    · funext q
      by_cases hq : q = p
      · simp [hq]
      · simp [hq]
  · have hne : i ≠ n := fun heq => by rw [heq, hn] at hs; cases hs
    simpa [hne] using hs
  -- The tree is the one that freeing the node leaves; the node has no owner any more.
  have hfree := htree.freeNode hn .deferredRelease
  obtain ⟨hnodes, -, -, -, -, hprocs⟩ := freeNode_nodes n node .deferredRelease s
  have hlist : ∀ q, ((Function.update s.procs p
      { s.procs p with nodes := (s.procs p).nodes.erase n }) q).nodes =
      ((Binder.freeNode n node .deferredRelease s).procs q).nodes := by
    intro q
    rw [(hprocs q).2.2, hp]
    by_cases hq : q = p
    · simp [hq]
    · simp [hq, Ne.symm hq]
  refine ⟨fun q m => ?_, fun q => ?_⟩
  · simp only [State.setProc, State.setNode, State.listDel, hlist, hfree.mem_nodes, hnodes]
    by_cases hm : m = n
    · simp [hm, Node.orphaned]
    · simp [hm]
  · simp only [State.setProc, State.setNode, State.listDel, hlist]
    refine (hfree.sorted q).imp_of_mem fun {a b} ha hb hlt => ?_
    have hlive : ∀ c, c ∈ ((Binder.freeNode n node .deferredRelease s).procs q).nodes → c ≠ n := by
      rintro c hc rfl
      obtain ⟨x, hx, -⟩ := (hfree.mem_nodes q c).1 hc
      simp [hnodes] at hx
    simpa [State.nodePtr, hnodes, hlive a ha, hlive b hb] using hlt

theorem queueDeath_nodes (s : State) (r : Id) : (queueDeath s r).nodes = s.nodes := by
  unfold queueDeath
  split
  · rfl
  · split
    · rfl
    · split
      · rfl
      · split
        · rfl
        · rfl

/-- Releasing one node touches no other node. -/
theorem releaseNode_nodes (p : Id) (s : State) {n m : Id} (hm : m ≠ n) :
    (releaseNode p s n).nodes m = s.nodes m := by
  unfold releaseNode
  split
  · rfl
  rename_i node _
  split
  · rw [(freeNode_nodes ..).1, Function.update_of_ne hm]
  have hloop : ∀ (l : List Id) (s : State), (l.foldl queueDeath s).nodes = s.nodes := by
    intro l
    induction l with
    | nil => exact fun _ => rfl
    | cons r rest ih => exact fun s => (ih _).trans (queueDeath_nodes s r)
  simp only
  rw [hloop]
  simp [hm]

theorem BookInv.releaseNode {s : State} (h : BookInv s) {p n : Id}
    (howner : ∀ node, s.nodes n = some node → node.proc = some p) :
    BookInv (releaseNode p s n) := by
  unfold Binder.releaseNode
  split
  · exact h.keep (.crash s _)
  · rename_i node hn
    split
    · rename_i hempty
      have hrefs := List.isEmpty_iff.1 hempty
      exact h.keep (.freeNode hn (h.refInv.internal_eq_zero hn hrefs) ⟨hrefs, fun hne =>
        absurd rfl hne⟩)
    · exact (h.keep (.orphan hn (howner node hn))).keep (Keeps.foldl keeps_queueDeath node.refs _)

/-- The loop over the nodes of a released process keeps what each round keeps. -/
theorem foldl_releaseNode {P : State → Prop} {p : Id}
    (hstep : ∀ s n, P s → (∀ node, s.nodes n = some node → node.proc = some p) →
      P (releaseNode p s n)) :
    ∀ (l : List Id) (s : State), l.Nodup → P s →
      (∀ n ∈ l, ∀ node, s.nodes n = some node → node.proc = some p) →
      P (l.foldl (releaseNode p) s)
  | [], _, _, h, _ => h
  | n :: rest, s, hnodup, h, howner => by
    rw [List.nodup_cons] at hnodup
    refine foldl_releaseNode hstep rest _ hnodup.2 (hstep s n h (howner n (by simp))) ?_
    intro m hm node hnode
    have hne : m ≠ n := fun heq => hnodup.1 (heq ▸ hm)
    rw [releaseNode_nodes p s hne] at hnode
    exact howner m (by simp [hm]) node hnode

theorem NodeTree.nodup {s : State} (h : NodeTree s) (p : Id) : (s.procs p).nodes.Nodup :=
  (h.sorted p).imp fun hlt heq => by simp [heq] at hlt

theorem NodeTree.owner {s : State} (h : NodeTree s) {p n : Id} (hmem : n ∈ (s.procs p).nodes) :
    ∀ node, s.nodes n = some node → node.proc = some p := by
  intro node hn
  obtain ⟨node', hn', hp⟩ := (h.mem_nodes p n).1 hmem
  rw [hn] at hn'
  cases hn'
  exact hp

/-- Deleting references one after the other leaves exactly the others. -/
theorem foldl_deleteRef_refs (l : List Id) (s : State) (r : Id) :
    (l.foldl (fun s r => binderDeleteRef r s) s).refs r = if r ∈ l then none else s.refs r := by
  induction l generalizing s with
  | nil => simp
  | cons a rest ih =>
    rw [List.foldl_cons, ih, (binderDeleteRef_refs a s).1]
    by_cases hrest : r ∈ rest
    · simp [hrest]
    · by_cases ha : r = a
      · simp [ha]
      · simp [ha, hrest]

theorem BookInv.deferredRelease {s : State} (h : BookInv s) (p : Id) :
    BookInv (binderDeferredRelease p s) := by
  unfold binderDeferredRelease
  have hctx : BookInv (releaseContextMgr p s) := by
    unfold releaseContextMgr
    split
    · exact h
    · split
      · exact h.keep (.crash s _)
      · split
        · exact h.keep (.elsewhere rfl)
        · exact h
  generalize releaseContextMgr p s = s1 at hctx
  have hthreads := hctx.keep (Keeps.foldl keeps_binderFreeThread (s1.procs p).threads s1)
  simp only
  generalize (s1.procs p).threads.foldl binderFreeThread s1 = s2 at hthreads ⊢
  have htree := hthreads.refInv.tree
  have hnodes : BookInv ((s2.procs p).nodes.foldl (Binder.releaseNode p) s2) :=
    foldl_releaseNode (fun _ _ h howner => h.releaseNode howner) _ s2 (htree.nodup p) hthreads
      fun n hn => htree.owner hn
  generalize (s2.procs p).nodes.foldl (Binder.releaseNode p) s2 = s3 at hnodes ⊢
  have hrefs : BookInv ((s3.procs p).refsByDesc.foldl (fun s r => binderDeleteRef r s) s3) :=
    foldl_invariant (P := BookInv) (f := fun s r => binderDeleteRef r s) (fun _ _ h =>
      BookInv.deleteRef h.refInv fun r' ref _ hr' => h.counted r' ref hr') _ hnodes
  generalize (s3.procs p).refsByDesc.foldl (fun s r => binderDeleteRef r s) s3 = s4 at hrefs ⊢
  have hwork := hrefs.keep (keeps_binderReleaseWork (.procTodo p) s4)
  generalize binderReleaseWork (.procTodo p) s4 = s5 at hwork ⊢
  have hbuffers := hwork.keep (Keeps.foldl (fun s b => (callFrame_releaseBuffer p s b).keeps)
    (s5.procs p).allocatedBuffers s5)
  exact hbuffers.keep (.setProc rfl rfl rfl)

/-! ## Runs -/

/-- Every transition keeps the bookkeeping invariant. -/
theorem BookInv.run {s : State} (h : BookInv s) (op : Op) : BookInv (run s op) := by
  cases op with
  | openDriver =>
    have halloc : Keeps s { s with lastId := s.lastId + 1 } :=
      .of_eq rfl rfl rfl (Nat.le_succ _) rfl (List.Subset.refl _)
    exact h.keep (halloc.trans (.setProc rfl rfl rfl))
  | newThread p pid =>
    have halloc : Keeps s { s with lastId := s.lastId + 1 } :=
      .of_eq rfl rfl rfl (Nat.le_succ _) rfl (List.Subset.refl _)
    unfold Binder.run
    simp only
    split
    · exact h.keep (halloc.trans (Keeps.trans (.setThread _ _ _) (.setProc rfl rfl rfl)))
    · exact h
  | setContextMgr th euid memory => exact onIdle_keeps h fun _ _ _ => h.setContextMgr ..
  | refCommand th cmd target memory => exact onWrite_keeps h fun _ _ _ _ => h.refCommand ..
  | nodeDone th strong ptr cookie => exact onWrite_keeps h fun _ _ _ _ => h.nodeDone ..
  | freeBuffer th b => exact onWrite_keeps h fun _ _ _ _ => h.freeBuffer ..
  | transaction th tr sup => exact onWrite_keeps h fun _ _ _ _ => h.transaction ..
  | reply th tr sup => exact onWrite_keeps h fun _ _ _ _ => h.transaction ..
  | enterLooper th => exact onWrite_keeps h fun _ _ _ _ => h.keep (.setThread s _ _)
  | requestDeath th target cookie memory =>
    exact onWrite_keeps h fun _ _ _ _ => h.requestDeath ..
  | clearDeath th target cookie => exact onWrite_keeps h fun _ _ _ _ => h.clearDeath ..
  | deadBinderDone th cookie =>
    exact onWrite_keeps h fun _ _ _ _ => h.keep (keeps_deadBinderDone ..)
  | enterRead th room =>
    exact onIdle_keeps h fun _ hth _ => h.keep (callFrame_enterRead hth room).keeps
  | deliver th => exact onRead_keeps h fun _ hth _ => h.keep (keeps_deliver hth)
  | leaveRead th => exact onRead_keeps h fun _ _ _ => h.keep (.setThread s _ _)
  | threadExit th => exact onIdle_keeps h fun _ _ _ => h.keep (keeps_binderFreeThread s th)
  | release p =>
    unfold Binder.run
    simp only
    split
    · exact h.deferredRelease p
    · exact h

/-- Every reachable state keeps the bookkeeping invariant. -/
theorem bookInv_of_reaches {ok : State → Op → Prop} {s : State}
    (hrun : Reaches Step ok State.initial s) : BookInv s :=
  hrun.invariant BookInv
    (fun _ op _ h _ hstep => by
      rw [hstep.2]
      exact h.run op)
    ⟨refInv_initial, fun _ _ hr => by cases hr⟩

/-- The node's number of strong references is the number of its references with a strong count. -/
def StrongRefsCounted (s : State) : Prop :=
  ∀ n node, s.nodes n = some node →
    node.refs.Nodup ∧ (∀ r, r ∈ node.refs ↔ ∃ ref, s.refs r = some ref ∧ ref.node = n) ∧
    node.internalStrongRefs =
      ((node.refs.filter fun r => (s.refs r).any fun ref => 0 < ref.strong).length : Int)

/-- The two trees of a process hold the same references, under distinct descriptors and to
distinct nodes. -/
def TreesAgree (s : State) : Prop :=
  ∀ p, (s.procs p).refsByDesc.Perm (s.procs p).refsByNode ∧
    (∀ r, r ∈ (s.procs p).refsByDesc ↔ ∃ ref, s.refs r = some ref ∧ ref.proc = p) ∧
    ((s.procs p).refsByDesc.map s.refDesc).Nodup ∧
    ((s.procs p).refsByNode.map fun r => (s.refs r).map Ref.node).Nodup

theorem RefInv.strongRefsCounted {s : State} (h : RefInv s) : StrongRefsCounted s := by
  intro n node hn
  have hin : s.graph.incoming n = node.refs := by simp [State.graph, hn]
  refine ⟨hin ▸ h.consistent.incoming_nodup n, fun r => ?_, ?_⟩
  · rw [← hin, h.consistent.mem_incoming]
    constructor
    · rintro ⟨e, he, hnode⟩
      obtain ⟨ref, hr, rfl⟩ := graph_edge_some he
      exact ⟨ref, hr, hnode⟩
    · rintro ⟨ref, hr, hnode⟩
      exact ⟨_, graph_edge hr, hnode⟩
  have hcount := h.consistent.strong_count n
  rw [hin, List.countP_eq_length_filter] at hcount
  have hstrong : s.graph.isStrong = fun r => (s.refs r).any fun ref => 0 < ref.strong := by
    funext r
    cases hr : s.refs r with
    | none => simp [RefGraph.isStrong, State.graph, hr]
    | some ref => simp [RefGraph.isStrong, State.graph, hr, Ref.edge]
  rw [hstrong] at hcount
  simpa [State.graph, hn] using hcount

theorem RefInv.treesAgree {s : State} (h : RefInv s) : TreesAgree s := by
  intro p
  have hmem : ∀ r, r ∈ (s.procs p).refsByDesc ↔ ∃ ref, s.refs r = some ref ∧ ref.proc = p := by
    intro r
    refine (h.consistent.mem_byDesc p r).trans ⟨?_, ?_⟩
    · rintro ⟨e, he, hp⟩
      obtain ⟨ref, hr, rfl⟩ := graph_edge_some he
      exact ⟨ref, hr, hp⟩
    · rintro ⟨ref, hr, hp⟩
      exact ⟨_, graph_edge hr, hp⟩
  have hsame : ∀ r, r ∈ (s.procs p).refsByDesc ↔ r ∈ (s.procs p).refsByNode := fun r =>
    (h.consistent.mem_byDesc p r).trans (h.consistent.mem_byNode p r).symm
  refine ⟨(List.perm_ext_iff_of_nodup (h.consistent.byDesc_nodup p)
    (h.consistent.byNode_nodup p)).2 hsame, hmem, ?_, ?_⟩
  · have hsorted := h.consistent.byDesc_sorted p
    rw [graph_desc] at hsorted
    exact List.pairwise_map.2 (hsorted.imp fun hlt => Nat.ne_of_lt hlt)
  · refine (h.consistent.byNode_nodup p).map_on ?_
    intro r hr r' hr' heq
    obtain ⟨ref, href, hp⟩ := (hmem r).1 ((hsame r).2 hr)
    obtain ⟨ref', href', hp'⟩ := (hmem r').1 ((hsame r').2 hr')
    rw [href, href', Option.map_some, Option.map_some, Option.some.injEq] at heq
    exact h.consistent.node_inj r r' _ _ (graph_edge href) (graph_edge href')
      (hp.trans hp'.symm) heq

/-- In every reachable state: each node's strong count is the number of its strong references;
both trees of each process hold the same references, with distinct descriptors and distinct
nodes; each reference has a count unless `binder_inc_ref` was refused when it had none; and a
node was freed only without references, and without local counts unless its process was released. -/
theorem reference_bookkeeping {s : State} (hrun : Reaches Step anyStep State.initial s) :
    StrongRefsCounted s ∧ TreesAgree s ∧
      (∀ r ref, s.refs r = some ref → r ∉ s.refused → 0 < ref.strong ∨ 0 < ref.weak) ∧
      ∀ n node by_, (n, node, by_) ∈ s.freedNodes → node.refs = [] ∧
        (by_ ≠ .deferredRelease → node.localStrongRefs = 0 ∧ node.localWeakRefs = 0) := by
  have h := bookInv_of_reaches hrun
  refine ⟨h.refInv.strongRefsCounted, h.refInv.treesAgree, fun r ref hr hnot => ?_,
    fun n node by_ hmem => h.refInv.freed _ hmem⟩
  rcases h.counted r ref hr with hs | hw | hrefused
  · exact .inl hs
  · exact .inr hw
  · exact absurd hrefused hnot

/-- One process becomes the context manager and another takes a strong reference to it. -/
def acquireRun : List Op :=
  [.openDriver, .openDriver, .newThread 1 0, .newThread 2 0, .setContextMgr 3 0 true,
    .refCommand 4 .acquire 0 true]

theorem reference_bookkeeping_acquire :
    (acquireRun.foldl run State.initial).refs 6 = some ⟨2, 5, 0, 1, 0, none⟩ ∧
      StrongRefsCounted (acquireRun.foldl run State.initial) ∧
      TreesAgree (acquireRun.foldl run State.initial) :=
  have hrun : Reaches Step anyStep State.initial (acquireRun.foldl run State.initial) :=
    reaches_runAll (by decide +kernel)
  ⟨by decide +kernel, (reference_bookkeeping hrun).1, (reference_bookkeeping hrun).2.1⟩

/-- Two processes send the context manager weak binders, and it sends the first one on to the
second process as a strong handle. -/
def refusedRun : List Op :=
  [.openDriver, .openDriver, .openDriver, .newThread 1 0, .newThread 2 0, .newThread 3 0,
    .setContextMgr 4 0 true,
    .transaction 5 (.ofWords 0 true [binderType false, 0, 100, 0] [0]) .plenty,
    .transaction 6 (.ofWords 0 true [binderType false, 0, 200, 0] [0]) .plenty,
    .transaction 4 (.ofWords 2 true [handleType true, 0, 1, 0] [0]) .plenty]

/-- The context manager's process is released. -/
def releaseRun : List Op :=
  [.openDriver, .newThread 1 0, .setContextMgr 2 0 true, .release 1]

/-- A reference without counts stays in the trees when `binder_inc_ref` is refused right after
it was made, and process release frees a node that still has local counts. -/
theorem zero_count_ref_and_released_node :
    (∃ s r ref, Reaches Step anyStep State.initial s ∧ s.refs r = some ref ∧
        r ∈ (s.procs ref.proc).refsByDesc ∧ ref.strong = 0 ∧ ref.weak = 0) ∧
      ∃ s n node by_, Reaches Step anyStep State.initial s ∧ (n, node, by_) ∈ s.freedNodes ∧
        node.localStrongRefs ≠ 0 ∧ node.localWeakRefs ≠ 0 := by
  refine ⟨⟨refusedRun.foldl run State.initial, 18, ⟨3, 8, 1, 0, 0, none⟩, ?_, ?_, ?_, rfl, rfl⟩,
    releaseRun.foldl run State.initial, 3,
    ⟨some 1, 0, 0, false, [], 0, 1, 1, true, false, true, false, false⟩, .deferredRelease,
    ?_, ?_, ?_, ?_⟩
  · exact reaches_runAll (by decide +kernel)
  · decide +kernel
  · decide +kernel
  · exact reaches_runAll (by decide +kernel)
  · decide +kernel
  · decide
  · decide

end AndroidKernel.Binder
