import Mathlib.Data.List.Sort

/-!
# Reference graphs

What references are for: an edge from a process to a node, named by a descriptor that is
unique in the process, with a strong and a weak count. A node keeps the list of its edges
and the number of those that are strong. Three operations change a graph: an edge with no
counts is inserted, the counts of an edge change, and an edge is removed.
-/

namespace AndroidKernel.Binder

/-- A reference of process `proc` to `node` under the descriptor `desc`. -/
structure Edge where
  proc : Nat
  node : Nat
  desc : Nat
  strong : Int
  weak : Int

/-- The edges with the indexes kept over them. -/
structure RefGraph where
  edge : Nat → Option Edge
  incoming : Nat → List Nat
  internalStrong : Nat → Int
  byDesc : Nat → List Nat
  byNode : Nat → List Nat

namespace RefGraph

/-- Whether an edge has a strong count. -/
def isStrong (g : RefGraph) (r : Nat) : Bool :=
  (g.edge r).any fun e => 0 < e.strong

/-- The descriptor of an edge. -/
def desc (g : RefGraph) (r : Nat) : Nat :=
  (g.edge r).elim 0 Edge.desc

/-- The indexes agree with the edges. -/
structure Consistent (g : RefGraph) : Prop where
  incoming_nodup : ∀ n, (g.incoming n).Nodup
  mem_incoming : ∀ n r, r ∈ g.incoming n ↔ ∃ e, g.edge r = some e ∧ e.node = n
  strong_count : ∀ n, g.internalStrong n = (g.incoming n).countP g.isStrong
  mem_byDesc : ∀ p r, r ∈ g.byDesc p ↔ ∃ e, g.edge r = some e ∧ e.proc = p
  byDesc_sorted : ∀ p, (g.byDesc p).Pairwise fun a b => g.desc a < g.desc b
  mem_byNode : ∀ p r, r ∈ g.byNode p ↔ ∃ e, g.edge r = some e ∧ e.proc = p
  byNode_nodup : ∀ p, (g.byNode p).Nodup
  node_inj : ∀ r r' e e', g.edge r = some e → g.edge r' = some e' →
    e.proc = e'.proc → e.node = e'.node → r = r'
  nonneg : ∀ r e, g.edge r = some e → 0 ≤ e.strong ∧ 0 ≤ e.weak

/-- The graph without edges. -/
def empty : RefGraph where
  edge _ := none
  incoming _ := []
  internalStrong _ := 0
  byDesc _ := []
  byNode _ := []

theorem empty_consistent : empty.Consistent where
  incoming_nodup _ := List.nodup_nil
  mem_incoming _ _ := by simp [empty]
  strong_count _ := by simp [empty]
  mem_byDesc _ _ := by simp [empty]
  byDesc_sorted _ := by simp [empty]
  mem_byNode _ _ := by simp [empty]
  byNode_nodup _ := List.nodup_nil
  node_inj _ _ _ _ h := by simp [empty] at h
  nonneg _ _ h := by simp [empty] at h

/-! ## Inserting an edge -/

/-- Inserts an edge without counts. -/
def insert (g : RefGraph) (r p n desc : Nat) : RefGraph where
  edge := Function.update g.edge r (some ⟨p, n, desc, 0, 0⟩)
  incoming := Function.update g.incoming n (r :: g.incoming n)
  internalStrong := g.internalStrong
  byDesc := Function.update g.byDesc p
    ((g.byDesc p).orderedInsert
      (fun a b => Function.update g.desc r desc a ≤ Function.update g.desc r desc b) r)
  byNode := Function.update g.byNode p (r :: g.byNode p)

theorem desc_insert (g : RefGraph) (r p n desc : Nat) :
    (g.insert r p n desc).desc = Function.update g.desc r desc := by
  funext a
  by_cases ha : a = r
  · simp [RefGraph.desc, insert, ha]
  · simp [RefGraph.desc, insert, ha]

/-- A list that a key sorts strictly stays so when an element with a new key is inserted. -/
theorem pairwise_orderedInsert {α : Type} (key : α → Nat) (x : α) (l : List α)
    (hsorted : l.Pairwise fun a b => key a < key b) (hnew : ∀ a ∈ l, key a ≠ key x) :
    (l.orderedInsert (fun a b => key a ≤ key b) x).Pairwise fun a b => key a < key b := by
  induction l with
  | nil => simp
  | cons a rest ih =>
    rw [List.pairwise_cons] at hsorted
    have hax := hnew a (by simp)
    rw [List.orderedInsert_cons]
    split
    · rename_i hle
      have hlt : key x < key a := by omega
      refine List.pairwise_cons.2 ⟨?_, List.pairwise_cons.2 hsorted⟩
      intro b hb
      rcases List.mem_cons.1 hb with rfl | hb
      · exact hlt
      · exact Nat.lt_trans hlt (hsorted.1 b hb)
    · rename_i hle
      refine List.pairwise_cons.2 ⟨?_, ih hsorted.2 fun b hb => hnew b (by simp [hb])⟩
      intro b hb
      rcases (List.mem_orderedInsert _).1 hb with rfl | hb
      · omega
      · exact hsorted.1 b hb

/-- Inserting an edge under a new name, to a node the process does not have yet and under a
descriptor it does not use, keeps the graph consistent. -/
theorem Consistent.insert {g : RefGraph} (h : g.Consistent) {r p n desc : Nat}
    (hr : g.edge r = none)
    (hnode : ∀ r' e, g.edge r' = some e → e.proc = p → e.node ≠ n)
    (hdesc : desc ∉ (g.byDesc p).map g.desc) : (g.insert r p n desc).Consistent := by
  have hout : ∀ q, r ∉ g.byDesc q := fun q hq => by
    obtain ⟨e, he, -⟩ := (h.mem_byDesc q r).1 hq
    simp [hr] at he
  have hin : ∀ q, r ∉ g.incoming q := fun q hq => by
    obtain ⟨e, he, -⟩ := (h.mem_incoming q r).1 hq
    simp [hr] at he
  have hbyNode : ∀ q, r ∉ g.byNode q := fun q hq => by
    obtain ⟨e, he, -⟩ := (h.mem_byNode q r).1 hq
    simp [hr] at he
  have hedge : ∀ a, a ≠ r → (g.insert r p n desc).edge a = g.edge a := fun a ha => by
    simp [RefGraph.insert, ha]
  have hself : (g.insert r p n desc).edge r = some ⟨p, n, desc, 0, 0⟩ := by
    simp [RefGraph.insert]
  have hstrong : ∀ a, a ≠ r → (g.insert r p n desc).isStrong a = g.isStrong a := fun a ha => by
    simp [isStrong, hedge a ha]
  refine ⟨?_, ?_, ?_, ?_, ?_, ?_, ?_, ?_, ?_⟩
  · intro q
    by_cases hq : q = n
    · subst hq
      simpa [RefGraph.insert] using And.intro (hin q) (h.incoming_nodup q)
    · simpa [RefGraph.insert, hq] using h.incoming_nodup q
  · intro q a
    by_cases ha : a = r
    · subst ha
      by_cases hq : q = n
      · simp [RefGraph.insert, hq]
      · simpa [RefGraph.insert, hq, Ne.symm hq] using hin q
    · by_cases hq : q = n
      · simpa [RefGraph.insert, hq, ha] using h.mem_incoming n a
      · simpa [RefGraph.insert, hq, ha] using h.mem_incoming q a
  · intro q
    have hcount : (g.incoming q).countP (g.insert r p n desc).isStrong =
        (g.incoming q).countP g.isStrong :=
      List.countP_congr fun a ha => by rw [hstrong a fun heq => hin q (heq ▸ ha)]
    by_cases hq : q = n
    · subst hq
      have hweak : (g.insert r p q desc).isStrong r = false := by simp [isStrong, hself]
      simp only [RefGraph.insert, Function.update_self] at hcount hweak ⊢
      rw [List.countP_cons_of_neg (by simp [hweak]), hcount, h.strong_count]
    · simp only [RefGraph.insert, Function.update_of_ne hq] at hcount ⊢
      rw [hcount, h.strong_count]
  · intro q a
    by_cases ha : a = r
    · subst ha
      by_cases hq : q = p
      · simp [RefGraph.insert, hq]
      · simpa [RefGraph.insert, hq, Ne.symm hq] using hout q
    · by_cases hq : q = p
      · simpa [RefGraph.insert, hq, ha] using h.mem_byDesc p a
      · simpa [RefGraph.insert, hq, ha] using h.mem_byDesc q a
  · intro q
    rw [desc_insert]
    have hsorted : (g.byDesc q).Pairwise fun a b =>
        Function.update g.desc r desc a < Function.update g.desc r desc b :=
      (h.byDesc_sorted q).imp_of_mem fun {a b} ha hb hlt => by
        have hane : a ≠ r := fun heq => hout q (heq ▸ ha)
        have hbne : b ≠ r := fun heq => hout q (heq ▸ hb)
        simpa [hane, hbne] using hlt
    by_cases hq : q = p
    · subst hq
      simp only [RefGraph.insert, Function.update_self]
      refine pairwise_orderedInsert _ r _ hsorted fun a ha => ?_
      have hane : a ≠ r := fun heq => hout q (heq ▸ ha)
      simp only [Function.update_of_ne hane, Function.update_self]
      exact fun heq => hdesc (heq ▸ List.mem_map_of_mem ha)
    · simpa [RefGraph.insert, hq] using hsorted
  · intro q a
    by_cases ha : a = r
    · subst ha
      by_cases hq : q = p
      · simp [RefGraph.insert, hq]
      · simpa [RefGraph.insert, hq, Ne.symm hq] using hbyNode q
    · by_cases hq : q = p
      · simpa [RefGraph.insert, hq, ha] using h.mem_byNode p a
      · simpa [RefGraph.insert, hq, ha] using h.mem_byNode q a
  · intro q
    by_cases hq : q = p
    · subst hq
      simpa [RefGraph.insert] using And.intro (hbyNode q) (h.byNode_nodup q)
    · simpa [RefGraph.insert, hq] using h.byNode_nodup q
  · intro a b e e' ha hb hproc hsame
    by_cases har : a = r
    · by_cases hbr : b = r
      · rw [har, hbr]
      · rw [har, hself] at ha
        rw [hedge b hbr] at hb
        cases ha
        exact absurd hsame.symm (hnode b e' hb hproc.symm)
    · rw [hedge a har] at ha
      by_cases hbr : b = r
      · rw [hbr, hself] at hb
        cases hb
        exact absurd hsame (hnode a e ha hproc)
      · rw [hedge b hbr] at hb
        exact h.node_inj a b e e' ha hb hproc hsame
  · intro a e ha
    by_cases har : a = r
    · rw [har, hself] at ha
      cases ha
      simp
    · rw [hedge a har] at ha
      exact h.nonneg a e ha

/-! ## Changing the counts of an edge -/

/-- Stores new counts on an edge; the node's number of strong edges follows. -/
def setCounts (g : RefGraph) (r : Nat) (e : Edge) (strong weak : Int) : RefGraph where
  edge := Function.update g.edge r (some { e with strong, weak })
  incoming := g.incoming
  internalStrong := Function.update g.internalStrong e.node
    (g.internalStrong e.node + (if 0 < strong then 1 else 0) - (if 0 < e.strong then 1 else 0))
  byDesc := g.byDesc
  byNode := g.byNode

/-- Counting with a predicate that changed at one element of a list without repetitions. -/
theorem countP_update {l : List Nat} (hl : l.Nodup) {r : Nat} (hr : r ∈ l)
    {P Q : Nat → Bool} (hsame : ∀ a, a ≠ r → P a = Q a) :
    (l.countP P : Int) = l.countP Q + (if P r then 1 else 0) - (if Q r then 1 else 0) := by
  induction l with
  | nil => simp at hr
  | cons a rest ih =>
    rw [List.nodup_cons] at hl
    rcases List.mem_cons.1 hr with rfl | hr
    · have hrest : rest.countP P = rest.countP Q :=
        List.countP_congr fun b hb => by rw [hsame b fun heq => hl.1 (heq ▸ hb)]
      simp only [List.countP_cons, hrest]
      push_cast
      split <;> split <;> omega
    · have ha : a ≠ r := fun heq => hl.1 (heq ▸ hr)
      simp only [List.countP_cons, hsame a ha]
      have := ih hl.2 hr
      push_cast
      omega

/-- New counts that are not negative keep the graph consistent. -/
theorem Consistent.setCounts {g : RefGraph} (h : g.Consistent) {r : Nat} {e : Edge}
    (hr : g.edge r = some e) {strong weak : Int} (hstrong : 0 ≤ strong) (hweak : 0 ≤ weak) :
    (g.setCounts r e strong weak).Consistent := by
  have hdesc : (g.setCounts r e strong weak).desc = g.desc := by
    funext a
    by_cases ha : a = r
    · simp [desc, RefGraph.setCounts, ha, hr]
    · simp [desc, RefGraph.setCounts, ha]
  have hmem : ∀ (P : Edge → Prop), (∀ e : Edge, ∀ s w, P { e with strong := s, weak := w } ↔ P e) →
      ∀ a, (∃ e', (g.setCounts r e strong weak).edge a = some e' ∧ P e') ↔
        ∃ e', g.edge a = some e' ∧ P e' := by
    intro P hP a
    by_cases ha : a = r
    · subst ha
      simp [RefGraph.setCounts, hr, hP e strong weak]
    · simp [RefGraph.setCounts, ha]
  refine ⟨h.incoming_nodup, ?_, ?_, ?_, ?_, ?_, h.byNode_nodup, ?_, ?_⟩
  · exact fun n a => (h.mem_incoming n a).trans (hmem (fun e => e.node = n) (by simp) a).symm
  · intro n
    have hother : ∀ a, a ≠ r → (g.setCounts r e strong weak).isStrong a = g.isStrong a := by
      intro a ha
      simp [isStrong, RefGraph.setCounts, ha]
    by_cases hn : n = e.node
    · subst hn
      have hin : r ∈ g.incoming e.node := (h.mem_incoming _ _).2 ⟨e, hr, rfl⟩
      have hcount := countP_update (h.incoming_nodup e.node) hin hother
      have hnew : (g.setCounts r e strong weak).isStrong r = decide (0 < strong) := by
        simp [isStrong, RefGraph.setCounts]
      have hold : g.isStrong r = decide (0 < e.strong) := by simp [isStrong, hr]
      have hsum : (g.setCounts r e strong weak).internalStrong e.node =
          g.internalStrong e.node + (if 0 < strong then 1 else 0) -
            (if 0 < e.strong then 1 else 0) := by
        simp [RefGraph.setCounts]
      simp only [hnew, hold, decide_eq_true_eq] at hcount
      rw [hsum, h.strong_count]
      exact hcount.symm
    have hout : r ∉ g.incoming n := fun hin => by
      obtain ⟨e', he', hn'⟩ := (h.mem_incoming n r).1 hin
      rw [hr] at he'
      cases he'
      exact hn hn'.symm
    have hcount : (g.incoming n).countP (g.setCounts r e strong weak).isStrong =
        (g.incoming n).countP g.isStrong :=
      List.countP_congr fun a ha => by rw [hother a fun heq => hout (heq ▸ ha)]
    simpa [RefGraph.setCounts, hn, hcount] using
      (h.strong_count n).trans (congrArg _ hcount.symm)
  · exact fun p a => (h.mem_byDesc p a).trans (hmem (fun e => e.proc = p) (by simp) a).symm
  · intro p
    rw [hdesc]
    exact h.byDesc_sorted p
  · exact fun p a => (h.mem_byNode p a).trans (hmem (fun e => e.proc = p) (by simp) a).symm
  · intro a b x y ha hb hproc hnode
    have hback : ∀ c z, (g.setCounts r e strong weak).edge c = some z →
        ∃ z', g.edge c = some z' ∧ z'.proc = z.proc ∧ z'.node = z.node := by
      intro c z hc
      by_cases hcr : c = r
      · subst hcr
        simp only [RefGraph.setCounts, Function.update_self, Option.some.injEq] at hc
        exact ⟨e, hr, by rw [← hc], by rw [← hc]⟩
      · simp only [RefGraph.setCounts, Function.update_of_ne hcr] at hc
        exact ⟨z, hc, rfl, rfl⟩
    obtain ⟨x', hx, hxp, hxn⟩ := hback a x ha
    obtain ⟨y', hy, hyp, hyn⟩ := hback b y hb
    exact h.node_inj a b x' y' hx hy (by rw [hxp, hproc, hyp]) (by rw [hxn, hnode, hyn])
  intro a x ha
  by_cases har : a = r
  · subst har
    simp only [RefGraph.setCounts, Function.update_self, Option.some.injEq] at ha
    rw [← ha]
    exact ⟨hstrong, hweak⟩
  · simp only [RefGraph.setCounts, Function.update_of_ne har] at ha
    exact h.nonneg a x ha

/-! ## Removing an edge -/

/-- Removes an edge from every index. -/
def remove (g : RefGraph) (r : Nat) (e : Edge) : RefGraph where
  edge := Function.update g.edge r none
  incoming := Function.update g.incoming e.node ((g.incoming e.node).erase r)
  internalStrong := Function.update g.internalStrong e.node
    (g.internalStrong e.node - (if 0 < e.strong then 1 else 0))
  byDesc := Function.update g.byDesc e.proc ((g.byDesc e.proc).erase r)
  byNode := Function.update g.byNode e.proc ((g.byNode e.proc).erase r)

theorem Consistent.byDesc_nodup {g : RefGraph} (h : g.Consistent) (p : Nat) :
    (g.byDesc p).Nodup :=
  (h.byDesc_sorted p).imp fun hlt heq => by simp [heq] at hlt

/-- Removing an edge keeps the graph consistent. -/
theorem Consistent.remove {g : RefGraph} (h : g.Consistent) {r : Nat} {e : Edge}
    (hr : g.edge r = some e) : (g.remove r e).Consistent := by
  have hedge : ∀ a, a ≠ r → (g.remove r e).edge a = g.edge a := fun a ha => by
    simp [RefGraph.remove, ha]
  have hself : (g.remove r e).edge r = none := by simp [RefGraph.remove]
  -- Each index loses exactly `r`.
  have hindex : ∀ (l : Nat → List Nat) (key : Edge → Nat) (k : Nat),
      (∀ k, (l k).Nodup) → (∀ k a, a ∈ l k ↔ ∃ e', g.edge a = some e' ∧ key e' = k) →
      ∀ a, a ∈ Function.update l (key e) ((l (key e)).erase r) k ↔
        ∃ e', (g.remove r e).edge a = some e' ∧ key e' = k := by
    intro l key k hnodup hl a
    by_cases ha : a = r
    · subst ha
      by_cases hk : k = key e
      · subst hk
        simp [hself, (hnodup (key e)).mem_erase_iff]
      · simp only [Function.update_of_ne hk, hself, hl]
        simp [hr, Ne.symm hk]
    · by_cases hk : k = key e
      · subst hk
        simp [(hnodup (key e)).mem_erase_iff, ha, hedge a ha, hl]
      · simp [Function.update_of_ne hk, hedge a ha, hl]
  refine ⟨?_, ?_, ?_, ?_, ?_, ?_, ?_, ?_, ?_⟩
  · intro n
    by_cases hn : n = e.node
    · subst hn
      simpa [RefGraph.remove] using (h.incoming_nodup e.node).erase r
    · simpa [RefGraph.remove, hn] using h.incoming_nodup n
  · exact fun n a => hindex g.incoming Edge.node n h.incoming_nodup h.mem_incoming a
  · intro n
    have hsame : ∀ l : List Nat, r ∉ l → l.countP (g.remove r e).isStrong = l.countP g.isStrong :=
      fun l hl => List.countP_congr fun a ha => by
        simp [isStrong, hedge a fun heq => hl (heq ▸ ha)]
    by_cases hn : n = e.node
    · subst hn
      have hin : r ∈ g.incoming e.node := (h.mem_incoming _ _).2 ⟨e, hr, rfl⟩
      have hperm := List.perm_cons_erase hin
      have hcount := hperm.countP_eq g.isStrong
      have hgone : r ∉ (g.incoming e.node).erase r := (h.incoming_nodup _).not_mem_erase
      have hstrong : g.isStrong r = decide (0 < e.strong) := by simp [isStrong, hr]
      have hsum := h.strong_count e.node
      rw [hcount, List.countP_cons, hstrong] at hsum
      simp only [RefGraph.remove, Function.update_self] at hsame ⊢
      rw [hsame _ hgone, hsum]
      push_cast
      by_cases hpos : 0 < e.strong
      · simp [hpos]
      · simp [hpos]
    have hout : r ∉ g.incoming n := fun hin => by
      obtain ⟨e', he', hn'⟩ := (h.mem_incoming n r).1 hin
      rw [hr] at he'
      cases he'
      exact hn hn'.symm
    have := hsame _ hout
    simp only [RefGraph.remove, Function.update_of_ne hn] at this ⊢
    rw [this, h.strong_count]
  · exact fun p a => hindex g.byDesc Edge.proc p h.byDesc_nodup h.mem_byDesc a
  · intro p
    have hsub : ((g.remove r e).byDesc p).Sublist (g.byDesc p) := by
      by_cases hp : p = e.proc
      · subst hp
        simpa [RefGraph.remove] using List.erase_sublist
      · simp [RefGraph.remove, hp]
    refine ((h.byDesc_sorted p).sublist hsub).imp_of_mem fun {a b} ha hb hlt => ?_
    have hlive : ∀ c, c ∈ (g.remove r e).byDesc p → c ≠ r := by
      rintro c hc rfl
      obtain ⟨e', he', -⟩ :=
        (hindex g.byDesc Edge.proc p h.byDesc_nodup h.mem_byDesc c).1 hc
      simp [hself] at he'
    simpa [desc, hedge a (hlive a ha), hedge b (hlive b hb)] using hlt
  · exact fun p a => hindex g.byNode Edge.proc p h.byNode_nodup h.mem_byNode a
  · intro p
    by_cases hp : p = e.proc
    · subst hp
      simpa [RefGraph.remove] using (h.byNode_nodup e.proc).erase r
    · simpa [RefGraph.remove, hp] using h.byNode_nodup p
  · intro a b x y ha hb
    have hlive : ∀ c z, (g.remove r e).edge c = some z → g.edge c = some z := by
      intro c z hc
      by_cases hcr : c = r
      · simp [hcr, hself] at hc
      · rwa [hedge c hcr] at hc
    exact h.node_inj a b x y (hlive a x ha) (hlive b y hb)
  · intro a x ha
    by_cases har : a = r
    · simp [har, hself] at ha
    · rw [hedge a har] at ha
      exact h.nonneg a x ha

end RefGraph

end AndroidKernel.Binder
