import AndroidKernel.Plist.Invariant

/-!
# Every run keeps the two lists in step

Each operation keeps the invariant: an addition makes a new group or a group longer, a deletion
takes a node out of its group, and a group whose first node goes is led by the next one. The main
theorem is `plist_spec`.
-/

namespace AndroidKernel.Plist

open Library Links

universe u

variable {Node : Type u} {s s' : State Node} {added : List Node}
  {gs ds hs : List (Node × List Node)} {g : Node × List Node} {n m : Node} {xs ys : List Node}

/-! ## The loop of an addition -/

/-- Where the loop of `plist_add` stops: the groups of lower priority are over, and the next one
has a greater priority, or there is none, or it has the same one. -/
theorem addLoop_spec {p : Int} {fuel : Nat} {r : Bool × Ptr Node}
    (hring : s.prioList.Ring .head ((firsts (ds ++ hs)).map .node))
    (hbelow : ∀ g ∈ ds, s.prio g.1 < p) (hascending : hs.Pairwise fun g h => s.prio g.1 < s.prio h.1)
    (hloop : s.addLoop p fuel (entry (firsts hs)) = some r) :
    ∃ ds' hs', ds ++ hs = ds' ++ hs' ∧ (∀ g ∈ ds', s.prio g.1 < p) ∧
      (r = (true, entry (firsts hs')) ∧ (∀ g ∈ hs', p < s.prio g.1) ∨
        ∃ g hs'', hs' = g :: hs'' ∧ s.prio g.1 = p ∧ r = (false, entry (firsts hs'')) ∧
          ∀ g ∈ hs'', p < s.prio g.1) := by
  induction hs generalizing ds fuel with
  | nil =>
    refine ⟨ds, [], rfl, hbelow, .inl ⟨?_, fun g hg => absurd hg List.not_mem_nil⟩⟩
    cases fuel with
    | zero => cases hloop
    | succ fuel => exact (Option.some.inj hloop).symm
  | cons g hs ih =>
    obtain ⟨hfirst, hrest⟩ := List.pairwise_cons.mp hascending
    have hnext : s.prioList.next (.node g.1) = entry (firsts hs) := by
      rw [firsts_append, firsts_cons] at hring
      exact next_node hring
    cases fuel with
    | zero => cases hloop
    | succ fuel =>
      change (if p < s.prio g.1 then some (true, Ptr.node g.1) else if p = s.prio g.1 then
        some (false, s.prioList.next (.node g.1)) else
        s.addLoop p fuel (s.prioList.next (.node g.1))) = some r at hloop
      rw [hnext] at hloop
      by_cases hlt : p < s.prio g.1
      · rw [if_pos hlt] at hloop
        refine ⟨ds, g :: hs, rfl, hbelow, .inl ⟨(Option.some.inj hloop).symm, ?_⟩⟩
        intro k hk
        rcases List.mem_cons.mp hk with rfl | hk
        · exact hlt
        · exact Int.lt_trans hlt (hfirst k hk)
      rw [if_neg hlt] at hloop
      by_cases heq : p = s.prio g.1
      · rw [if_pos heq] at hloop
        refine ⟨ds, g :: hs, rfl, hbelow, .inr ⟨g, hs, rfl, heq.symm,
          (Option.some.inj hloop).symm, fun k hk => ?_⟩⟩
        rw [heq]
        exact hfirst k hk
      · rw [if_neg heq] at hloop
        rw [List.append_cons] at hring ⊢
        refine ih hring (fun k hk => ?_) hrest hloop
        rcases List.mem_append.mp hk with hk | hk
        · exact hbelow k hk
        · rw [List.mem_singleton.mp hk]
          omega

/-- The loop ends within one round for each group and one for the head. -/
theorem addLoop_total (p : Int) {fuel : Nat}
    (hring : s.prioList.Ring .head ((firsts (ds ++ hs)).map .node)) (hfuel : hs.length < fuel) :
    ∃ r, s.addLoop p fuel (entry (firsts hs)) = some r := by
  induction hs generalizing ds fuel with
  | nil =>
    obtain ⟨fuel, rfl⟩ := Nat.exists_eq_succ_of_ne_zero (Nat.ne_of_gt hfuel)
    exact ⟨_, rfl⟩
  | cons g hs ih =>
    obtain ⟨fuel, rfl⟩ := Nat.exists_eq_succ_of_ne_zero (n := fuel) (by omega)
    have hnext : s.prioList.next (.node g.1) = entry (firsts hs) := by
      rw [firsts_append, firsts_cons] at hring
      exact next_node hring
    rw [List.append_cons] at hring
    rw [List.length_cons] at hfuel
    obtain ⟨r, hr⟩ := ih hring (Nat.lt_of_succ_lt_succ hfuel)
    show ∃ r, (if p < s.prio g.1 then some (true, Ptr.node g.1) else if p = s.prio g.1 then
      some (false, s.prioList.next (.node g.1)) else
      s.addLoop p fuel (s.prioList.next (.node g.1))) = some r
    rw [hnext, hr]
    split
    · exact ⟨_, rfl⟩
    · split
      · exact ⟨_, rfl⟩
      · exact ⟨_, rfl⟩

variable [DecidableEq Node]

/-! ## Runs -/

/-- On the invariant, a node is off the list exactly when it is in no group. -/
theorem Inv.empty_iff (h : Inv s gs added) : s.plistNodeEmpty n ↔ n ∉ nodes gs :=
  isEmpty_iff h.nodeRing h.grouped.nodup h.unlinked

theorem Inv.prio_empty_iff (h : Inv s gs added) : s.prioList.isEmpty (.node n) ↔ n ∉ firsts gs :=
  isEmpty_iff h.prioRing (h.grouped.nodup.sublist (firsts_sublist gs)) h.alone

theorem Inv.added_nodup (h : Inv s gs added) : added.Nodup :=
  h.perm.nodup_iff.mp h.grouped.nodup

/-! ## The start, and initialising a node -/

theorem inv_init (prio : Node → Int) : Inv (State.init prio) [] [] where
  grouped := ⟨fun _ h => absurd h List.not_mem_nil, List.Pairwise.nil, List.nodup_nil⟩
  nodeRing := ⟨rfl, rfl⟩
  prioRing := ⟨rfl, rfl⟩
  unlinked _ _ := ⟨rfl, rfl⟩
  alone _ _ := ⟨rfl, rfl⟩
  perm := List.Perm.refl _
  stable _ := rfl

theorem Inv.nodeInit (h : Inv s gs added) (hn : n ∉ nodes gs) (prio : Int) :
    Inv (s.plistNodeInit n prio) gs added := by
  have hprio : ∀ m ∈ nodes gs, Function.update s.prio n prio m = s.prio m := fun m hm =>
    Function.update_of_ne (ne_of_mem_of_not_mem hm hn) ..
  have halone : ∀ (l : Links (Ptr Node)) k, l.Ring (.node k) [] →
      (l.initHead (.node n)).Ring (.node k) [] := by
    intro l k hk
    by_cases hkn : k = n
    · rw [hkn]
      exact ring_initHead l _
    · refine hk.initHead_other _ ?_
      rw [List.mem_singleton, Ptr.node.injEq]
      exact Ne.symm hkn
  refine ⟨h.grouped.congr hprio, h.nodeRing.initHead_other _ (not_mem_ring hn),
    h.prioRing.initHead_other _ (not_mem_ring (mem_firsts_of_not_mem hn)),
    fun k hk => halone _ k (h.unlinked k hk), fun k hk => halone _ k (h.alone k hk), h.perm, ?_⟩
  intro p
  have hfilter : ∀ xs : List Node, (∀ m ∈ xs, m ∈ nodes gs) →
      xs.filter (fun m => decide (Function.update s.prio n prio m = p)) =
        xs.filter fun m => decide (s.prio m = p) := fun xs hxs =>
    List.filter_congr fun m hm => by rw [hprio m (hxs m hm)]
  show (nodes gs).filter (fun m => decide (Function.update s.prio n prio m = p)) =
    added.filter fun m => decide (Function.update s.prio n prio m = p)
  rw [hfilter _ fun _ hm => hm, hfilter _ fun m hm => h.perm.mem_iff.mpr hm]
  exact h.stable p

/-! ## Adding a node -/

theorem Inv.add_nodes (h : Inv s gs added) (hn : n ∉ nodes gs) (hsplit : nodes gs = xs ++ ys)
    (hbelow : ∀ m ∈ ys, s.prio n < s.prio m) :
    (s.nodeList.addTail (.node n) (entry ys)).Ring .head ((xs ++ n :: ys).map .node) ∧
      (∀ k, k ∉ xs ++ n :: ys → (s.nodeList.addTail (.node n) (entry ys)).Ring (.node k) []) ∧
      (xs ++ n :: ys).Nodup ∧ (xs ++ n :: ys).Perm (added ++ [n]) ∧
      ∀ p, (xs ++ n :: ys).filter (fun m => decide (s.prio m = p)) =
        (added ++ [n]).filter fun m => decide (s.prio m = p) := by
  have hring := h.nodeRing
  have hnodup := h.grouped.nodup
  have hperm := h.perm
  have hstable := h.stable
  rw [hsplit] at hring hnodup hn hperm hstable
  obtain ⟨hadded, hother⟩ := addTail_entry hring hnodup hn
  refine ⟨hadded, fun k hk => hother k hk (h.unlinked k ?_), ?_, ?_, fun p => ?_⟩
  · rw [hsplit]
    simp only [List.mem_append, List.mem_cons] at hk ⊢
    tauto
  · exact List.nodup_middle.mpr (List.nodup_cons.mpr ⟨hn, hnodup⟩)
  · refine List.perm_middle.trans ?_
    exact (hperm.cons n).trans (List.perm_append_singleton n added).symm
  · rw [filter_insert p hbelow, hstable p, List.filter_append]

/-- An addition keeps the invariant, with the node last of its priority. -/
theorem Inv.add (h : Inv s gs added) (hn : n ∉ nodes gs) {fuel : Nat}
    (hadd : s.plistAdd fuel n = some s') : ∃ gs', Inv s' gs' (added ++ [n]) := by
  have hfirst := next_head h.prioRing
  unfold State.plistAdd at hadd
  rw [hfirst] at hadd
  obtain ⟨⟨lt, iter⟩, hloop, hs'⟩ := Option.bind_eq_some_iff.mp hadd
  cases hs'
  obtain ⟨ds, hs, hsplit, hbelow, hstop⟩ := @addLoop_spec _ s [] gs _ _ _ h.prioRing
    (fun _ hg => absurd hg List.not_mem_nil) h.grouped.ascending hloop
  rw [List.nil_append] at hsplit
  subst hsplit
  rcases hstop with ⟨hr, habove⟩ | ⟨g, hs, rfl, hsame, hr, habove⟩
  · -- a new group, before the first one of a greater priority
    obtain ⟨rfl, rfl⟩ := Prod.mk.inj hr
    obtain ⟨hring, hother, hnodup, hperm, hstable⟩ :=
      h.add_nodes hn (nodes_append ds hs) (h.grouped.above habove)
    have hprio := h.prioRing
    have hfirsts := h.grouped.nodup.sublist (firsts_sublist _)
    have hnfirsts := mem_firsts_of_not_mem hn
    rw [firsts_append] at hprio hfirsts hnfirsts
    obtain ⟨hpring, hpother⟩ := addTail_entry hprio hfirsts hnfirsts
    have hnodes : nodes (ds ++ (n, []) :: hs) = nodes ds ++ n :: nodes hs := nodes_append ds _
    rw [← hnodes] at hring hother hnodup hperm hstable
    refine ⟨ds ++ (n, []) :: hs, h.grouped.insert hbelow habove hnodup, ?_, ?_, ?_, ?_, hperm,
      hstable⟩
    · rw [entry_firsts]
      exact hring
    · rw [firsts_append]
      exact hpring
    · rw [entry_firsts]
      exact hother
    · intro k hk
      rw [firsts_append] at hk
      refine hpother k hk (h.alone k fun hmem => hk ?_)
      rw [firsts_append] at hmem
      simp only [firsts_cons, List.mem_append, List.mem_cons] at hmem ⊢
      tauto
  -- a group of the same priority gets longer
  obtain ⟨rfl, rfl⟩ := Prod.mk.inj hr
  have hsplit : nodes (ds ++ g :: hs) = (nodes ds ++ g.1 :: g.2) ++ nodes hs := by
    rw [nodes_append, nodes_cons, List.append_assoc, List.cons_append]
  have hlater : ∀ m ∈ nodes hs, s.prio n < s.prio m := by
    have hgroups := h.grouped
    rw [List.append_cons] at hgroups
    exact hgroups.above habove
  obtain ⟨hring, hother, hnodup, hperm, hstable⟩ := h.add_nodes hn hsplit hlater
  have hnodes : nodes (ds ++ (g.1, g.2 ++ [n]) :: hs) =
      (nodes ds ++ g.1 :: g.2) ++ n :: nodes hs := by
    rw [nodes_append, nodes_cons, List.append_assoc, List.append_assoc, List.cons_append]
    rfl
  have hfirsts : firsts (ds ++ (g.1, g.2 ++ [n]) :: hs) = firsts (ds ++ g :: hs) := by
    rw [firsts_append, firsts_append, firsts_cons, firsts_cons]
  rw [← hnodes] at hring hother hnodup hperm hstable
  refine ⟨ds ++ (g.1, g.2 ++ [n]) :: hs, h.grouped.replace rfl (fun m hm => ?_) hnodup, ?_, ?_,
    ?_, ?_, hperm, hstable⟩
  · rcases List.mem_append.mp hm with hm | hm
    · exact h.grouped.same g (List.mem_append_right _ List.mem_cons_self) m hm
    · rw [List.mem_singleton.mp hm]
      exact hsame.symm
  · rw [entry_firsts]
    exact hring
  · rw [hfirsts]
    exact h.prioRing
  · rw [entry_firsts]
    exact hother
  · rw [hfirsts]
    exact h.alone

theorem Inv.add_total (h : Inv s gs added) (n : Node) : ∃ fuel s', s.plistAdd fuel n = some s' := by
  obtain ⟨r, hr⟩ := @addLoop_total _ s [] gs (s.prio n) (gs.length + 1) h.prioRing
    (Nat.lt_succ_self _)
  refine ⟨gs.length + 1, ?_⟩
  unfold State.plistAdd
  rw [next_head h.prioRing, hr]
  exact ⟨_, rfl⟩

/-! ## Deleting a node -/

/-- A node taken out of the node list leaves the others in order. -/
theorem Inv.removed (h : Inv s gs added) (hsplit : nodes gs = xs ++ n :: ys)
    (hnodes : nodes hs = xs ++ ys)
    (hgroups : (nodes hs).Nodup → Grouped s.prio hs)
    (hprio : (s.plistDel n).prioList.Ring .head ((firsts hs).map .node))
    (halone : ∀ k, k ∉ firsts hs → (s.plistDel n).prioList.Ring (.node k) []) :
    Inv (s.plistDel n) hs (added.erase n) := by
  have hring := h.nodeRing
  have hnodup := h.grouped.nodup
  have haddedNodup := h.added_nodup
  rw [hsplit] at hring hnodup
  obtain ⟨hleft, hself, hother⟩ := delInit_takenOut hring hnodup
  have hn : n ∉ xs := fun hmem =>
    (List.nodup_append.mp hnodup).2.2 n hmem n List.mem_cons_self rfl
  have herase : (nodes gs).erase n = nodes hs := by
    rw [hsplit, hnodes, List.erase_append_right _ hn, List.erase_cons_head]
  rw [← hnodes] at hleft
  refine ⟨hgroups ?_, hleft, hprio, fun k hk => ?_, halone, ?_, fun p => ?_⟩
  · rw [← herase]
    exact h.grouped.nodup.erase n
  · by_cases hkn : k = n
    · rw [hkn]
      exact hself
    · have hk' : k ∉ xs ++ n :: ys := by
        rw [hnodes] at hk
        simp only [List.mem_append, List.mem_cons] at hk ⊢
        tauto
      exact hother k hk' (h.unlinked k (hsplit ▸ hk'))
  · rw [← herase]
    exact h.perm.erase n
  · show (nodes hs).filter (fun m => decide (s.prio m = p)) = _
    rw [← herase, h.grouped.nodup.erase_eq_filter, haddedNodup.erase_eq_filter, List.filter_comm,
      h.stable p, List.filter_comm]
    rfl

/-- The priority list after the deletion of a node that was on it. -/
theorem Inv.plistDel_prioList (h : Inv s gs added) (hn : n ∈ firsts gs)
    (hsplit : nodes gs = xs ++ n :: ys) :
    (s.plistDel n).prioList = (s.prioList.moveTail (entry ys) (.node n)).delInit (.node n) := by
  have hring := h.nodeRing
  rw [hsplit] at hring
  rw [← next_node hring]
  exact if_neg fun hempty => h.prio_empty_iff.mp hempty hn

/-- The nodes by themselves in the priority list, after the deletion of one that was on it. -/
theorem Inv.alone_takenOut (h : Inv s gs added) {l : Links (Ptr Node)}
    (htaken : TakenOut s.prioList l xs ys n)
    (hfirsts : ∀ k, k ∉ xs ++ ys → k ≠ n → k ∉ firsts gs) (k : Node) (hk : k ∉ xs ++ ys) :
    l.Ring (.node k) [] := by
  by_cases hkn : k = n
  · rw [hkn]
    exact htaken.alone
  · refine htaken.other k ?_ (h.alone k (hfirsts k hk hkn))
    simp only [List.mem_append, List.mem_cons] at hk ⊢
    tauto

/-- The first node of a group is deleted, and the next node of the group leads it. -/
theorem Inv.del_first {ms : List Node} (h : Inv s (ds ++ (n, m :: ms) :: hs) added) :
    Inv (s.plistDel n) (ds ++ (m, ms) :: hs) (added.erase n) := by
  have hsplit : nodes (ds ++ (n, m :: ms) :: hs) = nodes ds ++ n :: m :: (ms ++ nodes hs) :=
    nodes_append ds _
  have hnodes : nodes (ds ++ (m, ms) :: hs) = nodes ds ++ m :: (ms ++ nodes hs) :=
    nodes_append ds _
  have hold : firsts (ds ++ (n, m :: ms) :: hs) = firsts ds ++ n :: firsts hs := firsts_append ds _
  have hnew : firsts (ds ++ (m, ms) :: hs) = (firsts ds ++ [m]) ++ firsts hs := by
    rw [firsts_append, firsts_cons, List.append_assoc]
    rfl
  have hnodup := h.grouped.nodup
  have hfnodup := h.grouped.nodup.sublist (firsts_sublist _)
  have hprio := h.prioRing
  have hsame := h.grouped.same _ (List.mem_append_right _ List.mem_cons_self)
  have hm : m ∉ firsts ds ++ n :: firsts hs := by
    rw [hsplit, List.append_cons] at hnodup
    obtain ⟨hleft, hright, hcross⟩ := List.nodup_append.mp hnodup
    have hmem := (List.nodup_cons.mp hright).1
    simp only [List.mem_append, List.mem_cons] at hmem ⊢
    rintro (hds | rfl | hhs)
    · exact hcross m (List.mem_append_left _ ((firsts_sublist ds).subset hds)) m
        List.mem_cons_self rfl
    · exact hcross m (List.mem_append_right _ List.mem_cons_self) m List.mem_cons_self rfl
    · exact hmem (.inr ((firsts_sublist hs).subset hhs))
  have halone := h.alone m (hold ▸ hm)
  rw [hold] at hprio hfnodup
  have htaken := moveTail_replaces hprio hfnodup hm halone
  have hdel := h.plistDel_prioList
    (hold ▸ List.mem_append_right _ List.mem_cons_self) hsplit
  refine h.removed hsplit hnodes (fun hnodup' => ?_) ?_ ?_
  · refine h.grouped.replace (hsame m List.mem_cons_self) (fun k hk => ?_) hnodup'
    exact (hsame k (List.mem_cons_of_mem _ hk)).trans (hsame m List.mem_cons_self).symm
  · rw [hdel, hnew]
    exact htaken.ring
  · rw [hdel, hnew]
    refine h.alone_takenOut htaken fun k hk hkn => ?_
    rw [hold]
    simp only [List.mem_append, List.mem_cons, List.not_mem_nil] at hk ⊢
    tauto

/-- The only node of a group is deleted. -/
theorem Inv.del_group (h : Inv s (ds ++ (n, []) :: hs) added) :
    Inv (s.plistDel n) (ds ++ hs) (added.erase n) := by
  have hsplit : nodes (ds ++ (n, []) :: hs) = nodes ds ++ n :: nodes hs := nodes_append ds _
  have hold : firsts (ds ++ (n, []) :: hs) = firsts ds ++ n :: firsts hs := firsts_append ds _
  have hfnodup := h.grouped.nodup.sublist (firsts_sublist _)
  have hprio := h.prioRing
  rw [hold] at hprio hfnodup
  have htaken := moveTail_takenOut hprio hfnodup
  have hdel := h.plistDel_prioList
    (hold ▸ List.mem_append_right _ List.mem_cons_self) hsplit
  rw [← entry_firsts] at hdel
  refine h.removed hsplit (nodes_append ds hs) (fun hnodup' => ?_) ?_ ?_
  · exact h.grouped.sublist ((List.sublist_cons_self _ hs).append_left ds) hnodup'
  · rw [hdel, firsts_append]
    exact htaken.ring
  · rw [hdel, firsts_append]
    refine h.alone_takenOut htaken fun k hk hkn => ?_
    rw [hold]
    simp only [List.mem_append, List.mem_cons] at hk ⊢
    tauto

/-- A later node of a group is deleted, which is not in the priority list. -/
theorem Inv.del_later {f : Node} {us vs : List Node}
    (h : Inv s (ds ++ (f, us ++ n :: vs) :: hs) added) :
    Inv (s.plistDel n) (ds ++ (f, us ++ vs) :: hs) (added.erase n) := by
  have hsplit : nodes (ds ++ (f, us ++ n :: vs) :: hs) =
      (nodes ds ++ f :: us) ++ n :: (vs ++ nodes hs) := by
    rw [nodes_append, nodes_cons, List.append_assoc, List.append_assoc]
    rfl
  have hnodes : nodes (ds ++ (f, us ++ vs) :: hs) = (nodes ds ++ f :: us) ++ (vs ++ nodes hs) := by
    rw [nodes_append, nodes_cons, List.append_assoc, List.append_assoc]
    rfl
  have hfirsts : firsts (ds ++ (f, us ++ vs) :: hs) = firsts (ds ++ (f, us ++ n :: vs) :: hs) := by
    rw [firsts_append, firsts_append, firsts_cons, firsts_cons]
  have hnodup := h.grouped.nodup
  have hsame := h.grouped.same _ (List.mem_append_right _ List.mem_cons_self)
  have hn : n ∉ firsts (ds ++ (f, us ++ n :: vs) :: hs) := by
    rw [hsplit] at hnodup
    obtain ⟨-, hright, hcross⟩ := List.nodup_append.mp hnodup
    have hmem := (List.nodup_cons.mp hright).1
    rw [firsts_append, firsts_cons]
    simp only [List.mem_append, List.mem_cons] at hmem ⊢
    rintro (hds | rfl | hhs)
    · exact hcross n (List.mem_append_left _ ((firsts_sublist ds).subset hds)) n
        List.mem_cons_self rfl
    · exact hcross n (List.mem_append_right _ List.mem_cons_self) n List.mem_cons_self rfl
    · exact hmem (.inr ((firsts_sublist hs).subset hhs))
  have hdel : (s.plistDel n).prioList = s.prioList := if_pos (h.prio_empty_iff.mpr hn)
  refine h.removed hsplit hnodes (fun hnodup' => ?_) ?_ ?_
  · refine h.grouped.replace rfl (fun k hk => hsame k ?_) hnodup'
    simp only [List.mem_append, List.mem_cons] at hk ⊢
    tauto
  · rw [hdel, hfirsts]
    exact h.prioRing
  · rw [hdel, hfirsts]
    exact h.alone

theorem Inv.del (h : Inv s gs added) (hn : n ∈ nodes gs) :
    ∃ gs', Inv (s.plistDel n) gs' (added.erase n) := by
  obtain ⟨⟨f, ms⟩, hg, hng⟩ := List.mem_flatMap.mp hn
  obtain ⟨ds, hs, rfl⟩ := List.append_of_mem hg
  rcases List.mem_cons.mp hng with rfl | hlater
  · cases ms with
    | nil => exact ⟨_, h.del_group⟩
    | cons m ms => exact ⟨_, h.del_first⟩
  · obtain ⟨us, vs, rfl⟩ := List.append_of_mem hlater
    exact ⟨_, h.del_later⟩

/-! ## Every run -/

theorem Run.inv (h : Run s added) : ∃ gs, Inv s gs added := by
  induction h with
  | init prio => exact ⟨[], inv_init prio⟩
  | nodeInit n prio _ hempty ih =>
    obtain ⟨gs, hinv⟩ := ih
    exact ⟨gs, hinv.nodeInit (hinv.empty_iff.mp hempty) prio⟩
  | add n _ hempty hadd ih =>
    obtain ⟨gs, hinv⟩ := ih
    exact hinv.add (hinv.empty_iff.mp hempty) hadd
  | del n _ hlinked ih =>
    obtain ⟨gs, hinv⟩ := ih
    exact hinv.del (not_not.mp fun hn => hlinked (hinv.empty_iff.mpr hn))

/-- The first node of the node list is the earliest one added of the least priority. -/
theorem Inv.first_least (h : Inv s gs added) (hadded : added ≠ []) :
    ∃ before n after, s.plistFirst = .node n ∧ added = before ++ n :: after ∧
      (∀ m ∈ before, s.prio n < s.prio m) ∧ ∀ m ∈ after, s.prio n ≤ s.prio m := by
  cases hgs : nodes gs with
  | nil => exact absurd (List.nil_perm.mp (hgs ▸ h.perm)) hadded
  | cons n rest =>
    have hfirst : s.plistFirst = entry (nodes gs) := next_head h.nodeRing
    have hsorted := h.grouped.sorted
    have hstable := h.stable (s.prio n)
    have hperm := h.perm
    rw [hgs] at hsorted hstable hperm hfirst
    obtain ⟨before, after, rfl⟩ := List.append_of_mem (hperm.mem_iff.mp List.mem_cons_self)
    have hle : ∀ m ∈ before ++ n :: after, s.prio n ≤ s.prio m := by
      intro m hm
      rcases List.mem_cons.mp (hperm.mem_iff.mpr hm) with rfl | hm
      · exact Int.le_refl _
      · exact (List.pairwise_cons.mp hsorted).1 m hm
    refine ⟨before, n, after, hfirst, rfl, fun m hm => ?_, fun m hm => ?_⟩
    · -- a node of the same priority added before would be the first of its priority
      refine Int.lt_iff_le_and_ne.mpr ⟨hle m (List.mem_append_left _ hm), fun heq => ?_⟩
      have hn : n ∉ before := fun hmem =>
        (List.nodup_append.mp h.added_nodup).2.2 n hmem n List.mem_cons_self rfl
      rw [List.filter_cons, if_pos (decide_eq_true rfl), List.filter_append] at hstable
      have hmem : m ∈ before.filter fun m => decide (s.prio m = s.prio n) :=
        List.mem_filter.mpr ⟨hm, decide_eq_true heq.symm⟩
      obtain ⟨k, ks, hks⟩ := List.exists_cons_of_ne_nil (List.ne_nil_of_mem hmem)
      rw [hks] at hstable
      have hk : k ∈ before := (List.mem_filter.mp (hks ▸ List.mem_cons_self)).1
      exact hn ((List.cons.inj hstable).1 ▸ hk)
    · exact hle m (List.mem_append_right _ (List.mem_cons_of_mem _ hm))

/-- In every run, the node list has the added nodes in the order of their priorities, those of the
same priority in the order of their additions. The priority list has the first node of each
priority in ascending order, and the entries of the other nodes in it are empty. So `plistFirst`
is the earliest node added of the least priority. An addition has a result. -/
theorem plist_spec (h : Run s added) :
    (∃ nodeOrder prioOrder : List Node,
      s.nodeList.Ring .head (nodeOrder.map .node) ∧ s.prioList.Ring .head (prioOrder.map .node) ∧
      nodeOrder.Perm added ∧ (nodeOrder.Pairwise fun m n => s.prio m ≤ s.prio n) ∧
      (∀ p, nodeOrder.filter (fun m => decide (s.prio m = p)) =
        added.filter fun m => decide (s.prio m = p)) ∧
      (prioOrder.Pairwise fun m n => s.prio m < s.prio n) ∧
      (∀ n, n ∈ prioOrder ↔ ∃ before after, nodeOrder = before ++ n :: after ∧
        ∀ m ∈ before, s.prio m ≠ s.prio n) ∧
      ∀ n, n ∉ prioOrder → s.prioList.isEmpty (.node n)) ∧
    (∀ n, s.plistNodeEmpty n ↔ n ∉ added) ∧
    (added ≠ [] → ∃ before n after, s.plistFirst = .node n ∧ added = before ++ n :: after ∧
      (∀ m ∈ before, s.prio n < s.prio m) ∧ ∀ m ∈ after, s.prio n ≤ s.prio m) ∧
    ∀ n, ∃ fuel s', s.plistAdd fuel n = some s' := by
  obtain ⟨gs, hinv⟩ := h.inv
  refine ⟨⟨nodes gs, firsts gs, hinv.nodeRing, hinv.prioRing, hinv.perm, hinv.grouped.sorted,
    hinv.stable, List.pairwise_map.mpr hinv.grouped.ascending,
    fun _ => hinv.grouped.mem_firsts_iff, fun _ => hinv.prio_empty_iff.mpr⟩, fun n => ?_,
    hinv.first_least, hinv.add_total⟩
  rw [hinv.empty_iff, hinv.perm.mem_iff]

/-- A run of two additions. -/
theorem plist_spec_two : ∃ s : State Nat, Run s [0, 1] ∧
    ∃ before n after, s.plistFirst = .node n ∧ [0, 1] = before ++ n :: after ∧
      (∀ m ∈ before, s.prio n < s.prio m) ∧ ∀ m ∈ after, s.prio n ≤ s.prio m := by
  have hinit : Run (State.init fun n : Nat => 5 - (n : Int)) [] := .init _
  obtain ⟨_, s₁, hadd₁⟩ := (plist_spec hinit).2.2.2 0
  have hrun₁ := Run.add 0 hinit (((plist_spec hinit).2.1 0).mpr List.not_mem_nil) hadd₁
  obtain ⟨_, s₂, hadd₂⟩ := (plist_spec hrun₁).2.2.2 1
  have hrun₂ := Run.add 1 hrun₁ (((plist_spec hrun₁).2.1 1).mpr (by decide)) hadd₂
  exact ⟨s₂, hrun₂, (plist_spec hrun₂).2.2.1 (List.cons_ne_nil 0 [1])⟩

end AndroidKernel.Plist
