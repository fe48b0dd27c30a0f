import AndroidKernel.Slob.PageAlloc

/-!
# Freeing within a page

`slob_free` puts a range of units back into the list, joined to the free blocks that it touches.
-/

namespace AndroidKernel.Slob

open Library.Ranges

/-! ## Joining blocks -/

/-- A block in front of a list, joined to the first one of the list if they touch. -/
def join (f : Free) : List Free → List Free
  | [] => [f]
  | g :: rest => if f.stop = g.start then ⟨f.start, f.units + g.units⟩ :: rest else f :: g :: rest

section Join

variable {f : Free} {post : List Free}

/-- The first block of a joined list. -/
theorem join_cons (f : Free) (post : List Free) :
    ∃ n rest, join f post = ⟨f.start, n⟩ :: rest ∧ f.units ≤ n := by
  cases post with
  | nil => exact ⟨f.units, [], rfl, Nat.le_refl _⟩
  | cons g rest =>
    rw [join]
    split_ifs with htouch
    · exact ⟨_, _, rfl, Nat.le_add_right _ _⟩
    · exact ⟨_, _, rfl, Nat.le_refl _⟩

theorem total_join : total (join f post) = f.units + total post := by
  cases post with
  | nil => rfl
  | cons g rest =>
    rw [join]
    split_ifs with htouch
    · rw [total_cons, total_cons, Nat.add_assoc]
    · rw [total_cons]

theorem freeUnits_join : freeUnits (join f post) = Set.Ico f.start f.stop ∪ freeUnits post := by
  unfold freeUnits
  cases post with
  | nil => exact covers_cons _ _
  | cons g rest =>
    rw [join]
    split_ifs with htouch
    · rw [covers_cons, covers_cons, ← Set.union_assoc]
      congr 1
      ext a
      simp only [Free.stop, Set.mem_union, Set.mem_Ico] at htouch ⊢
      omega
    · exact covers_cons _ _

theorem separated_join (hf : 0 < f.units) (h : Separated Free.start Free.stop post)
    (hafter : ∀ g ∈ post, f.stop ≤ g.start) : Separated Free.start Free.stop (join f post) := by
  have hstop : f.stop = f.start + f.units := rfl
  cases post with
  | nil => exact separated_cons.mpr ⟨by omega, nofun, separated_nil⟩
  | cons g rest =>
    have hg := hafter g List.mem_cons_self
    obtain ⟨hlt, hlater, hrest⟩ := separated_cons.mp h
    rw [join]
    split_ifs with htouch
    · have hgstop : Free.stop ⟨f.start, f.units + g.units⟩ = g.stop := by
        show f.start + (f.units + g.units) = g.start + g.units
        omega
      refine separated_cons.mpr ⟨?_, ?_, hrest⟩
      · rw [hgstop]
        show f.start < g.stop
        omega
      · rw [hgstop]
        exact hlater
    · refine separated_cons.mpr ⟨by omega, ?_, h⟩
      intro k hk
      rcases List.mem_cons.mp hk with rfl | hk
      · omega
      · have := hlater k hk
        omega

theorem mem_join {g : Free} (h : g ∈ join f post) :
    g ∈ post ∨ g = f ∨ ∃ k ∈ post, f.stop = k.start ∧ g = ⟨f.start, f.units + k.units⟩ := by
  cases post with
  | nil => exact .inr (.inl (List.mem_singleton.mp h))
  | cons k rest =>
    rw [join] at h
    split_ifs at h with htouch
    · rcases List.mem_cons.mp h with rfl | h
      · exact .inr (.inr ⟨k, List.mem_cons_self, htouch, rfl⟩)
      · exact .inl (List.mem_cons_of_mem _ h)
    · rcases List.mem_cons.mp h with rfl | h
      · exact .inr (.inl rfl)
      · exact .inl h

theorem start_le_of_mem_join {g : Free} (h : g ∈ join f post)
    (hafter : ∀ k ∈ post, f.stop ≤ k.start) : f.start ≤ g.start := by
  have hstop : f.stop = f.start + f.units := rfl
  rcases mem_join h with h | rfl | ⟨k, _, _, rfl⟩
  · have := hafter g h
    omega
  · exact Nat.le_refl _
  · exact Nat.le_refl _

theorem inPage_join {p : Nat} (hf : InPage p [f]) (hpost : InPage p post) :
    InPage p (join f post) := by
  obtain ⟨hlo, hhi, hpos⟩ := hf f List.mem_cons_self
  intro g hg
  rcases mem_join hg with hg | rfl | ⟨k, hk, htouch, rfl⟩
  · exact hpost g hg
  · exact ⟨hlo, hhi, hpos⟩
  · obtain ⟨_, hkhi, _⟩ := hpost k hk
    refine ⟨hlo, ?_, ?_⟩
    · show f.start + (f.units + k.units) ≤ _
      unfold Free.stop at hkhi htouch
      omega
    · show 0 < f.units + k.units
      omega

end Join

/-! ## The memory -/

variable {mem : Memory} {p free b units : Nat}

/-- A block that is written in front of a chain, joined to its first block if they touch. -/
theorem join_chain {f : Free} {next : Nat} {post : List Free} (hf : InPage p [f])
    (hpost : Chain mem (p * pageUnits + pageUnits) next post) (hpage : InPage p post)
    (hsep : Separated Free.start Free.stop post) (hafter : ∀ g ∈ post, f.stop ≤ g.start)
    {mem' : Memory}
    (htouch : ∀ g ∈ post.head?, f.stop = g.start →
      mem' = setSlob mem f.start (f.units + g.units : Nat) (slobNext mem g.start))
    (hapart : (∀ g ∈ post.head?, f.stop ≠ g.start) → mem' = setSlob mem f.start f.units next) :
    Chain mem' (p * pageUnits + pageUnits) f.start (join f post) ∧
      SameOutside (f :: post) mem mem' := by
  obtain ⟨hlo, hhi, hpos⟩ := hf f List.mem_cons_self
  have hstop : f.stop = f.start + f.units := rfl
  have hmax : f.units ≤ pageUnits := by omega
  cases hpost with
  | nil =>
    rw [hapart nofun]
    refine ⟨.cons (setSlob_cell mem hpos hmax
      (ahead_of hlo (by omega) (by omega) (Nat.le_refl _))) .nil, ?_⟩
    intro a ha
    exact setSlob_of_ne mem hmax (ha f List.mem_cons_self) hpos
  | @cons _ n next' rest hcell hrest =>
    have hg := hafter ⟨next, n⟩ List.mem_cons_self
    obtain ⟨_, hghi, _⟩ := hpage ⟨next, n⟩ List.mem_cons_self
    have hgstop : Free.stop ⟨next, n⟩ = next + n := rfl
    have hgstart : Free.start ⟨next, n⟩ = next := rfl
    have hgunits : Free.units ⟨next, n⟩ = n := rfl
    rw [hgstop] at hghi
    rw [hgstart] at hg
    obtain ⟨_, hlater, _⟩ := separated_cons.mp hsep
    rw [join]
    split_ifs with ht
    · have hnext' : next + n ≤ next' ∧ next' ≤ p * pageUnits + pageUnits := by
        cases hrest with
        | nil => exact ⟨hghi, Nat.le_refl _⟩
        | @cons _ m _ _ _ _ =>
          have hlt := hlater ⟨next', m⟩ List.mem_cons_self
          obtain ⟨_, hkhi, _⟩ := hpage ⟨next', m⟩ (List.mem_cons_of_mem _ List.mem_cons_self)
          have hk : Free.stop ⟨next', m⟩ = next' + m := rfl
          have hlt : next + n < next' := hlt
          omega
      have ht' : f.stop = next := ht
      rw [htouch ⟨next, n⟩ rfl ht, hcell.slobNext_eq]
      have hle : f.units + n ≤ pageUnits := by omega
      refine ⟨.cons (setSlob_cell mem (by omega) hle
        (ahead_of hlo (by omega) (by omega) hnext'.2)) (hrest.congr ?_), ?_⟩
      · intro k hk a ha _
        have hlt : next + n < k.start := hlater k hk
        exact setSlob_of_ne mem hle (.inr (by omega)) (by omega)
      intro a ha
      have hfa := ha f List.mem_cons_self
      have hga := ha ⟨next, n⟩ (List.mem_cons_of_mem _ List.mem_cons_self)
      rw [hgstop] at hga
      have hga : a < next ∨ next + n ≤ a := hga
      refine setSlob_of_ne mem hle ?_ (by omega)
      dsimp only
      omega
    have hne : ∀ g ∈ (⟨next, n⟩ :: rest).head?, f.stop ≠ g.start := by
      intro g hg'
      cases hg'
      exact ht
    rw [hapart hne]
    refine ⟨.cons (setSlob_cell mem hpos hmax
      (ahead_of hlo (by omega) (by omega) (by omega)))
        (.cons (hcell.congr ?_) (hrest.congr ?_)), ?_⟩
    · intro a ha _
      exact setSlob_of_ne mem hmax (.inr (by omega)) hpos
    · intro k hk a ha _
      have hlt : next + n < k.start := hlater k hk
      exact setSlob_of_ne mem hmax (.inr (by omega)) hpos
    · intro a ha
      exact setSlob_of_ne mem hmax (ha f List.mem_cons_self) hpos

/-- The search for the block before `b`. -/
theorem findPrev_spec {stop fuel cur : Nat} {pre post : List Free} {f : Free}
    (hpost : Chain mem stop cur (f :: post)) (hlt : f.start < b) (hstop : b ≤ stop)
    (hsep : Separated Free.start Free.stop (pre ++ f :: post)) (hfuel : post.length < fuel) :
    ∃ pre' f' post', pre ++ f :: post = pre' ++ f' :: post' ∧
      findPrev mem b fuel cur = some f'.start ∧ f'.start < b ∧ ∀ g ∈ post', b ≤ g.start := by
  induction fuel generalizing pre post cur f with
  | zero => omega
  | succ fuel ih =>
    cases hpost with
    | @cons _ n next _ hcell hrest =>
      rw [findPrev, hcell.slobNext_eq]
      split_ifs with hnext
      · cases post with
        | nil =>
          have := hrest.eq_of_nil
          omega
        | cons g rest =>
          have hg := hrest.eq_of_cons
          have happend : pre ++ ⟨cur, n⟩ :: g :: rest = (pre ++ [⟨cur, n⟩]) ++ g :: rest := by
            rw [List.append_assoc]
            rfl
          rw [happend] at hsep ⊢
          rw [List.length_cons] at hfuel
          exact ih hrest (by omega) hsep (by omega)
      refine ⟨pre, _, post, rfl, rfl, hlt, ?_⟩
      intro g hg
      cases hrest with
      | nil => cases hg
      | @cons _ m _ rest _ _ =>
        rcases List.mem_cons.mp hg with rfl | hg
        · exact Nat.le_of_not_lt hnext
        · have hsep' := (separated_cons.mp (separated_append.mp hsep).2.1).2.2
          have hlt' := (separated_cons.mp hsep').2.1 g hg
          have hpos' := (separated_cons.mp hsep').1
          have hs : Free.start ⟨next, m⟩ = next := rfl
          omega

/-- The list after `slob_free`: the units are in it. -/
structure Freed (p : Nat) (mem : Memory) (blocks : List Free) (b units : Nat) (mem' : Memory)
    (free' : Nat) : Prop where
  list : ∃ blocks', FreeList p mem' free' blocks' ∧
    freeUnits blocks' = freeUnits blocks ∪ Set.Ico b (b + units) ∧
    total blocks' = total blocks + units
  same : SameOutside (⟨b, units⟩ :: blocks) mem mem'

/-- The memory after the freed block was written behind `prev`. -/
theorem freeBlock_spec {f : Free} {pre post : List Free} (hb : InPage p [⟨b, units⟩])
    (h : FreeList p mem free (pre ++ f :: post)) (hafter : ∀ g ∈ post, b + units ≤ g.start) :
    ∃ next, Cell mem f.start f.units next ∧
      Chain (freeBlock mem f.start b units) (p * pageUnits + pageUnits) b (join ⟨b, units⟩ post) ∧
      SameOutside (⟨b, units⟩ :: post) mem (freeBlock mem f.start b units) := by
  obtain ⟨q, _, hchain⟩ := h.chain.split
  have hpagepost : InPage p post := fun g hg =>
    h.inPage g (List.mem_append_right _ (List.mem_cons_of_mem _ hg))
  have hseprest := (separated_append.mp h.separated).2.1
  obtain ⟨hflt, hlater, hsep⟩ := separated_cons.mp hseprest
  obtain ⟨hflo, _, _⟩ := h.inPage f (List.mem_append_right _ List.mem_cons_self)
  cases hchain with
  | @cons _ n next _ hcell hrest =>
    refine ⟨next, hcell, ?_⟩
    have hstop : Free.stop ⟨b, units⟩ = b + units := rfl
    refine join_chain (f := ⟨b, units⟩) hb hrest hpagepost hsep hafter ?_ ?_
    · intro g hg htouch
      cases post with
      | nil => cases hg
      | cons k rest =>
        cases hg
        have hnext := hrest.eq_of_cons
        obtain ⟨_, hghi, hgpos⟩ := hpagepost g List.mem_cons_self
        have hgstop : g.stop = g.start + g.units := rfl
        have hflo : p * pageUnits ≤ q := hflo
        have hgt := hlater g List.mem_cons_self
        have hfs : q ≤ Free.stop ⟨q, n⟩ := Nat.le_add_right _ _
        have hlast : slobLast mem q = false := by
          unfold slobLast
          rw [hcell.slobNext_eq, hnext]
          refine decide_eq_false ?_
          unfold pageUnits at hghi hflo ⊢
          omega
        cases hrest with
        | @cons _ m _ _ hcell' _ =>
          unfold freeBlock
          dsimp only
          rw [if_pos ⟨hlast, by rw [hcell.slobNext_eq]; omega⟩, hcell.slobNext_eq,
            hcell'.slobUnits_eq]
          rfl
    intro hne
    unfold freeBlock
    dsimp only
    rw [if_neg, hcell.slobNext_eq]
    rintro ⟨hlast, htouch⟩
    rw [hcell.slobNext_eq] at htouch
    cases hrest with
    | nil =>
      unfold slobLast at hlast
      rw [hcell.slobNext_eq] at hlast
      refine of_decide_eq_false hlast ?_
      unfold pageUnits
      omega
    | cons hcell' _ => exact hne _ rfl htouch

/-- The memory after the block before the freed one was written. -/
theorem joinPrev_spec {f : Free} {next : Nat} {rest : List Free} (hf : InPage p [f])
    (hcell : Cell mem f.start f.units next)
    (hrest : Chain mem (p * pageUnits + pageUnits) b rest) (hne : rest ≠ [])
    (hpage : InPage p rest) (hsep : Separated Free.start Free.stop rest)
    (hafter : ∀ g ∈ rest, f.stop ≤ g.start) :
    Chain (joinPrev mem f.start b) (p * pageUnits + pageUnits) f.start (join f rest) ∧
      SameOutside (f :: rest) mem (joinPrev mem f.start b) := by
  have hstop : f.stop = f.start + f.units := rfl
  cases hrest with
  | nil => exact absurd rfl hne
  | @cons _ n after tail hcell' htail =>
    refine join_chain hf (.cons hcell' htail) hpage hsep hafter ?_ ?_
    · intro g hg htouch
      cases hg
      have htouch : f.stop = b := htouch
      unfold joinPrev
      rw [hcell.slobUnits_eq, hcell'.slobUnits_eq, if_pos (by omega)]
      congr 1
      push_cast
      exact Int.add_comm _ _
    · intro hne'
      have hne' : f.stop ≠ b := hne' ⟨b, n⟩ rfl
      unfold joinPrev
      rw [hcell.slobUnits_eq, if_neg (by omega)]

/-- The freed block comes before all others. -/
theorem freeFirst_spec {f : Free} {rest : List Free} (h : FreeList p mem free (f :: rest))
    (hb : InPage p [⟨b, units⟩]) (hafter : ∀ g ∈ f :: rest, b + units ≤ g.start) :
    Freed p mem (f :: rest) b units (freeFirst mem free b units).1
      (freeFirst mem free b units).2 := by
  have hfirst : (freeFirst mem free b units).2 = b := by
    unfold freeFirst
    split_ifs with htouch
    · rfl
    · rfl
  obtain ⟨_, _, hpos⟩ := hb ⟨b, units⟩ List.mem_cons_self
  have hfree := h.chain.eq_of_cons
  obtain ⟨hchain, hsame⟩ := @join_chain mem p ⟨b, units⟩ free (f :: rest) hb h.chain h.inPage
    h.separated hafter (freeFirst mem free b units).1
    (by
      intro g hg htouch
      cases hg
      have htouch : b + units = f.start := htouch
      have hchain := h.chain
      cases hchain with
      | cons hcell _ =>
        unfold freeFirst
        rw [if_pos htouch, hcell.slobUnits_eq, Int.natCast_add])
    (by
      intro hne
      have hne : b + units ≠ f.start := hne f rfl
      unfold freeFirst
      rw [if_neg (by omega)])
  rw [hfirst]
  refine ⟨⟨_, ⟨hchain, separated_join hpos h.separated hafter, inPage_join hb h.inPage⟩, ?_, ?_⟩,
    hsame⟩
  · rw [freeUnits_join, Set.union_comm]
    rfl
  · rw [total_join, Nat.add_comm]

/-- The freed block comes after `f`. -/
theorem freeAfter_spec {f : Free} {pre post : List Free}
    (h : FreeList p mem free (pre ++ f :: post)) (hb : InPage p [⟨b, units⟩])
    (hbefore : f.stop ≤ b) (hafter : ∀ g ∈ post, b + units ≤ g.start) :
    Freed p mem (pre ++ f :: post) b units
      (joinPrev (freeBlock mem f.start b units) f.start b) free := by
  obtain ⟨_, _, hpos⟩ := hb ⟨b, units⟩ List.mem_cons_self
  have hpos : 0 < units := hpos
  obtain ⟨next, hcell, hchain, hsame⟩ := freeBlock_spec hb h hafter
  obtain ⟨hsepl, hsepr, hboth⟩ := separated_append.mp h.separated
  obtain ⟨hflt, hlater, hseppost⟩ := separated_cons.mp hsepr
  have hf : f ∈ pre ++ f :: post := List.mem_append_right _ List.mem_cons_self
  have hfpage : InPage p [f] := by
    intro g hg
    rw [List.mem_singleton.mp hg]
    exact h.inPage f hf
  have hpostpage : InPage p post := fun g hg =>
    h.inPage g (List.mem_append_right _ (List.mem_cons_of_mem _ hg))
  have hfstop : f.stop = f.start + f.units := rfl
  have hpre : ∀ g ∈ pre, g.stop < f.start := fun g hg => hboth g hg f List.mem_cons_self
  -- neither the blocks before nor `f` itself are written
  have hkeep : ∀ a, a < f.stop → freeBlock mem f.start b units a = mem a := by
    intro a ha
    refine hsame a ?_
    intro g hg
    rcases List.mem_cons.mp hg with rfl | hg
    · show a < b ∨ _
      omega
    · have := hafter g hg
      omega
  have hjoin : ∀ g ∈ join ⟨b, units⟩ post, b ≤ g.start := fun g hg => start_le_of_mem_join hg hafter
  obtain ⟨n, rest, hcons, _⟩ := join_cons ⟨b, units⟩ post
  obtain ⟨hchain', hsame'⟩ := @joinPrev_spec (freeBlock mem f.start b units) p b f next
    (join ⟨b, units⟩ post) hfpage (hcell.congr fun a _ ha => hkeep a ha) hchain
    (by rw [hcons]; exact List.cons_ne_nil _ _) (inPage_join hb hpostpage)
    (separated_join hpos hseppost hafter)
    (fun g hg => by have := hjoin g hg; omega)
  obtain ⟨q, hprechain, hrestchain⟩ := h.chain.split
  have hq := hrestchain.eq_of_cons
  rw [hq] at hprechain
  have hsepjoin : Separated Free.start Free.stop (join f (join ⟨b, units⟩ post)) := by
    refine separated_join (by omega) (separated_join hpos hseppost hafter) ?_
    intro g hg
    have := hjoin g hg
    omega
  have hstart : ∀ g ∈ join f (join ⟨b, units⟩ post), f.start ≤ g.start := by
    intro g hg
    refine start_le_of_mem_join hg ?_
    intro k hk
    have := hjoin k hk
    omega
  refine ⟨⟨pre ++ join f (join ⟨b, units⟩ post), ⟨?_, ?_, ?_⟩, ?_, ?_⟩, ?_⟩
  · refine (hprechain.congr ?_).append hchain'
    intro g hg a _ ha
    have := hpre g hg
    rw [hsame' a, hkeep a (by omega)]
    intro k hk
    rcases List.mem_cons.mp hk with rfl | hk
    · exact .inl (by omega)
    · have := hjoin k hk
      exact .inl (by omega)
  · refine separated_append.mpr ⟨hsepl, hsepjoin, ?_⟩
    intro a ha g hg
    have := hpre a ha
    have := hstart g hg
    omega
  · intro g hg
    rcases List.mem_append.mp hg with hg | hg
    · exact h.inPage g (List.mem_append_left _ hg)
    · exact inPage_join hfpage (inPage_join hb hpostpage) g hg
  · have happend : freeUnits (pre ++ join f (join ⟨b, units⟩ post)) =
        freeUnits pre ∪ freeUnits (join f (join ⟨b, units⟩ post)) := covers_append _ _
    have happend' : freeUnits (pre ++ f :: post) =
        freeUnits pre ∪ (Set.Ico f.start f.stop ∪ freeUnits post) := by
      unfold freeUnits
      rw [covers_append, covers_cons]
    rw [happend, freeUnits_join, freeUnits_join, happend']
    show freeUnits pre ∪ (Set.Ico f.start f.stop ∪ (Set.Ico b (b + units) ∪ freeUnits post)) = _
    rw [Set.union_comm (Set.Ico b (b + units)), ← Set.union_assoc, ← Set.union_assoc,
      ← Set.union_assoc]
  · rw [total_append, total_join, total_join, total_append, total_cons]
    dsimp only
    omega
  intro a ha
  rw [List.forall_mem_cons, List.forall_mem_append, List.forall_mem_cons] at ha
  obtain ⟨hab, hapre, haf, hapost⟩ := ha
  have hab : a < b ∨ b + units ≤ a := hab
  rw [hsame' a, hsame a]
  · rw [List.forall_mem_cons]
    exact ⟨hab, hapost⟩
  rw [List.forall_mem_cons]
  refine ⟨haf, ?_⟩
  intro g hg
  rcases mem_join hg with hg | rfl | ⟨k, hk, htouch, rfl⟩
  · exact hapost g hg
  · exact hab
  have hak := hapost k hk
  have htouch : b + units = k.start := htouch
  have hkstop : k.stop = k.start + k.units := rfl
  have hg : Free.stop ⟨b, units + k.units⟩ = k.stop := by
    show b + (units + k.units) = _
    omega
  rw [hg]
  show a < b ∨ _
  omega

theorem insertFree_spec {blocks : List Free} (h : FreeList p mem free blocks) (hne : blocks ≠ [])
    (hb : InPage p [⟨b, units⟩]) (hclear : ∀ f ∈ blocks, f.stop ≤ b ∨ b + units ≤ f.start) :
    ∃ mem' free', insertFree mem free b units = some (mem', free') ∧
      Freed p mem blocks b units mem' free' := by
  obtain ⟨hblo, hbhi, hpos⟩ := hb ⟨b, units⟩ List.mem_cons_self
  have hbhi : b + units ≤ p * pageUnits + pageUnits := hbhi
  have hpos : 0 < units := hpos
  cases blocks with
  | nil => exact absurd rfl hne
  | cons f0 rest0 =>
    have hfree := h.chain.eq_of_cons
    have hlen := h.length_le
    rw [List.length_cons] at hlen
    obtain ⟨_, hlater, _⟩ := separated_cons.mp h.separated
    have hstops : ∀ f : Free, f.start ≤ f.stop := fun f => Nat.le_add_right _ _
    unfold insertFree
    split_ifs with hlt
    · refine ⟨_, _, rfl, freeFirst_spec h hb ?_⟩
      intro g hg
      have hg' := hclear g hg
      have hle : f0.start ≤ g.start := by
        rcases List.mem_cons.mp hg with rfl | hg
        · exact Nat.le_refl _
        · have := hlater g hg
          have := hstops f0
          omega
      have := hstops g
      omega
    have hf0 := hclear f0 List.mem_cons_self
    obtain ⟨_, _, hf0pos⟩ := h.inPage f0 List.mem_cons_self
    have hf0stop : f0.stop = f0.start + f0.units := rfl
    obtain ⟨pre, f, post, hsplit, hfind, hfb, hpost⟩ := @findPrev_spec mem b
      (p * pageUnits + pageUnits) (pageUnits + 1) free [] rest0 f0 h.chain (by omega) (by omega)
      h.separated (by omega)
    rw [List.nil_append] at hsplit
    rw [hfind]
    rw [hsplit] at h hclear ⊢
    refine ⟨_, _, rfl, freeAfter_spec h hb ?_ ?_⟩
    · have := hclear f (List.mem_append_right _ List.mem_cons_self)
      omega
    · intro g hg
      have hg' := hclear g (List.mem_append_right _ (List.mem_cons_of_mem _ hg))
      have := hpost g hg
      obtain ⟨_, _, hgpos⟩ := h.inPage g (List.mem_append_right _ (List.mem_cons_of_mem _ hg))
      have hgstop : g.stop = g.start + g.units := rfl
      omega

end AndroidKernel.Slob
