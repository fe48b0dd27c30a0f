import AndroidKernel.Slob.PageFree
import AndroidKernel.Library.Runs
import Mathlib.Algebra.BigOperators.Group.List.Basic

/-!
# Sequences of allocations and frees

Read `slob_pages_tiled` first: as long as new pages are aligned as requests ask for, the free
blocks and the objects of each page tile it, whatever the objects are used for.
-/

namespace AndroidKernel.Slob

open Library Library.Ranges

/-! ## Objects -/

/-- The page of an object. -/
def Obj.page (o : Obj) : Nat :=
  o.b / pageUnits

def Obj.units (o : Obj) : Nat :=
  slobUnitsOf o.size

/-- The units of an object. -/
def Obj.range (o : Obj) : Set Nat :=
  Set.Ico o.b (o.b + o.units)

/-- The objects in a page. -/
def onPage (p : Nat) (live : List Obj) : List Obj :=
  live.filter fun o => decide (o.page = p)

def usedUnits (objs : List Obj) : Nat :=
  (objs.map Obj.units).sum

/-- The units of a page. -/
def pageRange (p : Nat) : Set Nat :=
  Set.Ico (p * pageUnits) (p * pageUnits + pageUnits)

theorem mem_pageRange {p a : Nat} : a ∈ pageRange p ↔ a / pageUnits = p := by
  unfold pageRange pageUnits
  rw [Set.mem_Ico]
  omega

/-- The free list and the objects of a page, with the list that the page is on. -/
structure Tiled (mem : Memory) (home : Option SlobList) (objs : List Obj) (p : Nat) (sp : SlobPage)
    (blocks : List Free) : Prop where
  list : FreeList p mem sp.free blocks
  units : sp.units = total blocks
  home : home = none ↔ total blocks = 0
  cover : freeUnits blocks ∪ {a | ∃ o ∈ objs, a ∈ o.range} = pageRange p
  sum : total blocks + usedUnits objs = pageUnits
  apart : ∀ o ∈ objs, Disjoint (freeUnits blocks) o.range

/-- The address of an object is a multiple of its alignment. -/
def Obj.Aligned (o : Obj) : Prop :=
  o.align ≠ 0 → o.align ∣ 2 * o.b

/-- Every page is tiled. -/
structure PagesOk (s : System) : Prop where
  page : ∀ p sp, s.slob.page p = some sp →
    ∃ blocks, Tiled s.slob.mem (s.slob.lists.home p) (onPage p s.live) p sp blocks
  page_pos : ∀ p sp, s.slob.page p = some sp → 0 < p ∧ 2 * (p * pageUnits + pageUnits) < 2 ^ 32
  home : ∀ p, s.slob.page p = none → s.slob.lists.home p = none
  obj : ∀ o ∈ s.live, s.slob.page o.page ≠ none ∧ 0 < o.size ∧ o.Aligned
  apart : s.live.Pairwise fun o o' => Disjoint o.range o'.range

/-- A sound state: also, every page has an object. -/
structure SlobOk (s : System) : Prop extends PagesOk s where
  used : ∀ p, s.slob.page p ≠ none → ∃ o ∈ s.live, o.page = p

theorem slobUnitsOf_pos {size : Nat} (h : 0 < size) : 0 < slobUnitsOf size := by
  unfold slobUnitsOf
  omega

theorem usedUnits_cons (o : Obj) (objs : List Obj) :
    usedUnits (o :: objs) = o.units + usedUnits objs := by
  unfold usedUnits
  rw [List.map_cons, List.sum_cons]

theorem usedUnits_perm {xs ys : List Obj} (h : xs.Perm ys) : usedUnits xs = usedUnits ys :=
  (h.map Obj.units).sum_eq

/-- The order of the objects does not matter, nor the memory outside of the free blocks. -/
theorem Tiled.congr {mem mem' : Memory} {home : Option SlobList} {objs objs' : List Obj} {p : Nat}
    {sp : SlobPage} {blocks : List Free} (h : Tiled mem home objs p sp blocks)
    (hmem : ∀ a ∈ freeUnits blocks, mem' a = mem a) (hobjs : objs.Perm objs') :
    Tiled mem' home objs' p sp blocks := by
  refine ⟨⟨h.list.chain.congr ?_, h.list.separated, h.list.inPage⟩, h.units, h.home, ?_, ?_, ?_⟩
  · intro f hf a hlo hhi
    exact hmem a ⟨f, hf, hlo, hhi⟩
  · rw [← h.cover]
    simp only [hobjs.mem_iff]
  · rw [← h.sum, usedUnits_perm hobjs]
  · intro o ho
    exact h.apart o (hobjs.mem_iff.mpr ho)

/-- The free units of a page are in it. -/
theorem Tiled.free_subset {mem : Memory} {home : Option SlobList} {objs : List Obj} {p : Nat}
    {sp : SlobPage} {blocks : List Free} (h : Tiled mem home objs p sp blocks) :
    freeUnits blocks ⊆ pageRange p := by
  rw [← h.cover]
  exact Set.subset_union_left

theorem Tiled.obj_subset {mem : Memory} {home : Option SlobList} {objs : List Obj} {p : Nat}
    {sp : SlobPage} {blocks : List Free} (h : Tiled mem home objs p sp blocks) {o : Obj}
    (ho : o ∈ objs) : o.range ⊆ pageRange p := by
  rw [← h.cover]
  intro a ha
  exact .inr ⟨o, ho, ha⟩

theorem mem_onPage {p : Nat} {live : List Obj} {o : Obj} :
    o ∈ onPage p live ↔ o ∈ live ∧ o.page = p := by
  unfold onPage
  rw [List.mem_filter, decide_eq_true_eq]

theorem disjoint_pageRange {p q : Nat} (h : p ≠ q) : Disjoint (pageRange p) (pageRange q) := by
  refine Set.disjoint_left.mpr ?_
  intro a ha hb
  rw [mem_pageRange] at ha hb
  exact h (ha.symm.trans hb)

/-- An object of a sound state is in its page. -/
theorem PagesOk.range_subset {s : System} (h : PagesOk s) {o : Obj} (ho : o ∈ s.live) :
    o.range ⊆ pageRange o.page := by
  obtain ⟨hpage, _⟩ := h.obj o ho
  obtain ⟨sp, hsp⟩ := Option.ne_none_iff_exists'.mp hpage
  obtain ⟨blocks, ht⟩ := h.page _ sp hsp
  exact ht.obj_subset (mem_onPage.mpr ⟨ho, rfl⟩)

/-- What a page has does not depend on the memory of another one. -/
theorem PagesOk.other {s : System} (h : PagesOk s) {p q : Nat} {sp : SlobPage} {mem : Memory}
    {live : List Obj} (hq : q ≠ p) (hsp : s.slob.page q = some sp)
    (hmem : ∀ a, a ∉ pageRange p → mem a = s.slob.mem a)
    (hlive : (onPage q s.live).Perm (onPage q live)) :
    ∃ blocks, Tiled mem (s.slob.lists.home q) (onPage q live) q sp blocks := by
  obtain ⟨blocks, ht⟩ := h.page q sp hsp
  refine ⟨blocks, ht.congr ?_ hlive⟩
  intro a ha
  exact hmem a (Set.disjoint_left.mp (disjoint_pageRange hq) (ht.free_subset ha))

/-- Writes to blocks of a page are writes to the page. -/
theorem SameOutside.page {p : Nat} {blocks : List Free} {mem mem' : Memory}
    (h : SameOutside blocks mem mem') (hpage : InPage p blocks) {a : Nat} (ha : a ∉ pageRange p) :
    mem' a = mem a := by
  refine h a ?_
  intro f hf
  obtain ⟨hlo, hhi, _⟩ := hpage f hf
  unfold pageRange at ha
  rw [Set.mem_Ico] at ha
  omega

theorem PagesOk.change {s s' : System} (h : PagesOk s) (p : Nat)
    (hpage : ∀ q ≠ p, s'.slob.page q = s.slob.page q)
    (hhome : ∀ q ≠ p, s'.slob.lists.home q = s.slob.lists.home q)
    (hmem : ∀ a, a ∉ pageRange p → s'.slob.mem a = s.slob.mem a)
    (hlive : ∀ q ≠ p, (onPage q s.live).Perm (onPage q s'.live))
    (hself : ∀ sp, s'.slob.page p = some sp →
      (0 < p ∧ 2 * (p * pageUnits + pageUnits) < 2 ^ 32) ∧
        ∃ blocks, Tiled s'.slob.mem (s'.slob.lists.home p) (onPage p s'.live) p sp blocks)
    (hnone : s'.slob.page p = none → s'.slob.lists.home p = none)
    (hobj : ∀ o ∈ s'.live, o.page = p → s'.slob.page p ≠ none ∧ 0 < o.size ∧ o.Aligned)
    (hapart : s'.live.Pairwise fun o o' => Disjoint o.range o'.range) : PagesOk s' := by
  refine ⟨?_, ?_, ?_, ?_, hapart⟩
  · intro q sp hq
    by_cases hqp : q = p
    · subst hqp
      exact (hself sp hq).2
    · rw [hpage q hqp] at hq
      rw [hhome q hqp]
      exact h.other hqp hq hmem (hlive q hqp)
  · intro q sp hq
    by_cases hqp : q = p
    · subst hqp
      exact (hself sp hq).1
    · rw [hpage q hqp] at hq
      exact h.page_pos q sp hq
  · intro q hq
    by_cases hqp : q = p
    · subst hqp
      exact hnone hq
    · rw [hpage q hqp] at hq
      rw [hhome q hqp]
      exact h.home q hq
  · intro o ho
    by_cases hop : o.page = p
    · rw [hop]
      exact hobj o ho hop
    · rw [hpage _ hop]
      have hmem := (hlive _ hop).mem_iff.mpr (mem_onPage.mpr ⟨ho, rfl⟩)
      exact h.obj o (mem_onPage.mp hmem).1

theorem onPage_cons_self {p : Nat} {o : Obj} {live : List Obj} (h : o.page = p) :
    onPage p (o :: live) = o :: onPage p live :=
  List.filter_cons_of_pos (decide_eq_true h)

theorem onPage_cons_of_ne {p : Nat} {o : Obj} {live : List Obj} (h : o.page ≠ p) :
    onPage p (o :: live) = onPage p live := by
  refine List.filter_cons_of_neg ?_
  rw [decide_eq_true_eq]
  exact h

/-! ## Allocation -/

/-- The object is where its alignment asks for. -/
theorem aligned_of_alignDelta {cur align b : Nat} (h : alignDelta cur align = (b : Int) - cur)
    (hpow : align ≠ 0 → ∃ k, align = 2 ^ k) (hne : align ≠ 0) : align ∣ 2 * b := by
  obtain ⟨k, rfl⟩ := hpow hne
  unfold alignDelta alignPtr at h
  rw [if_neg hne] at h
  cases k with
  | zero => exact Nat.one_dvd _
  | succ k =>
    generalize (2 * cur + 2 ^ (k + 1) - 1) % 2 ^ 32 / 2 ^ (k + 1) = n at h
    rw [pow_succ, ← Nat.mul_assoc, Nat.mul_div_cancel _ Nat.two_pos] at h
    refine ⟨n, ?_⟩
    rw [pow_succ, Nat.mul_right_comm, Nat.mul_comm (2 ^ k)]
    omega

theorem slobPageAlloc_spec {slob : Slob} {p size align : Nat} {sp : SlobPage} {blocks : List Free}
    (h : FreeList p slob.mem sp.free blocks) (hne : blocks ≠ []) (hp : 0 < p) (hsize : 0 < size)
    (hwrap : NoWrap p align) :
    slobPageAlloc slob p sp size align = some none ∨
      ∃ b mem free, Took p slob.mem blocks (slobUnitsOf size) align b mem free ∧ b ≠ 0 ∧
        slobPageAlloc slob p sp size align = some (some (b, {
          mem
          page := Function.update slob.page p (some ⟨sp.units - slobUnitsOf size, free⟩)
          lists := if sp.units - slobUnitsOf size = 0 then slob.lists.del p else slob.lists })) := by
  have hlen := h.length_le
  unfold slobPageAlloc
  rcases @pageAllocLoop_spec slob.mem p sp.free sp.free none [] blocks (slobUnitsOf size) align
    (pageUnits + 1) .nil h.chain hne (ordered_of_separated h.separated) h.inPage rfl
    (slobUnitsOf_pos hsize) hwrap (by omega) with hfull | ⟨b, mem, free, hfound, ht⟩
  · rw [hfull]
    exact .inl rfl
  have hb : b ≠ 0 := by
    obtain ⟨⟨pre, f, post, hsplit, hlo, _⟩, _⟩ := ht
    rw [List.nil_append] at hsplit
    have hf := h.inPage f (hsplit ▸ List.mem_append_right _ List.mem_cons_self)
    unfold pageUnits at hf
    omega
  rw [hfound]
  refine .inr ⟨b, mem, free, ht, hb, ?_⟩
  rw [takePage, if_neg hb]

/-- The state after `slob_page_alloc` took a block. -/
def taken (s : System) (p : Nat) (sp : SlobPage) (o : Obj) (mem : Memory) (free : Nat) : System where
  slob := {
    mem
    page := Function.update s.slob.page p (some ⟨sp.units - o.units, free⟩)
    lists := if sp.units - o.units = 0 then s.slob.lists.del p else s.slob.lists }
  live := o :: s.live

section Take

variable {s : System} {p free : Nat} {sp : SlobPage} {blocks : List Free} {o : Obj} {mem : Memory}

/-- The page that a block was taken from. -/
theorem Tiled.take (h : Tiled s.slob.mem (s.slob.lists.home p) (onPage p s.live) p sp blocks)
    (ht : Took p s.slob.mem blocks o.units o.align o.b mem free) (hsize : 0 < o.size)
    (ho : o.page = p) :
    ∃ blocks', Tiled mem ((taken s p sp o mem free).slob.lists.home p) (onPage p (o :: s.live)) p
      ⟨sp.units - o.units, free⟩ blocks' := by
  have hpos : 0 < o.units := slobUnitsOf_pos hsize
  obtain ⟨blocks', hlist, hfree, htotal, hsub⟩ := ht.freeList h.list hpos
  have hsub : o.range ⊆ freeUnits blocks := hsub
  have hfree : freeUnits blocks' = freeUnits blocks \ o.range := hfree
  have hunits := h.units
  have hhome := h.home
  have hsum := h.sum
  refine ⟨blocks', hlist, ?_, ?_, ?_, ?_, ?_⟩
  · show sp.units - o.units = _
    omega
  · unfold taken
    dsimp only
    split_ifs with hzero
    · rw [LinkedLists.home_del, Function.update_self]
      exact ⟨fun _ => by omega, fun _ => rfl⟩
    · rw [hhome]
      omega
  · rw [onPage_cons_self ho, hfree, ← h.cover]
    ext a
    simp only [Set.mem_union, Set.mem_sdiff, Set.mem_ofPred_eq, List.mem_cons,
      exists_eq_or_imp]
    have := @hsub a
    tauto
  · rw [onPage_cons_self ho, usedUnits_cons]
    omega
  · rw [onPage_cons_self ho, hfree, List.forall_mem_cons]
    exact ⟨Set.disjoint_sdiff_left, fun o' ho' => (h.apart o' ho').mono_left Set.sdiff_subset⟩

theorem PagesOk.take (h : PagesOk s) (hsp : s.slob.page p = some sp)
    (htiled : Tiled s.slob.mem (s.slob.lists.home p) (onPage p s.live) p sp blocks)
    (ht : Took p s.slob.mem blocks o.units o.align o.b mem free) (hsize : 0 < o.size)
    (hpow : o.align ≠ 0 → ∃ k, o.align = 2 ^ k) :
    o.page = p ∧ PagesOk (taken s p sp o mem free) := by
  have hpos : 0 < o.units := slobUnitsOf_pos hsize
  obtain ⟨_, _, _, _, hsub⟩ := ht.freeList htiled.list hpos
  have hsub : o.range ⊆ freeUnits blocks := hsub
  have hin : o.range ⊆ pageRange p := hsub.trans htiled.free_subset
  have ho : o.page = p := mem_pageRange.mp (hin ⟨Nat.le_refl _, by omega⟩)
  have hself : (taken s p sp o mem free).slob.page p = some ⟨sp.units - o.units, free⟩ :=
    Function.update_self _ _ _
  refine ⟨ho, h.change p ?_ ?_ ?_ ?_ ?_ ?_ ?_ ?_⟩
  · exact fun q hq => Function.update_of_ne hq _ _
  · intro q hq
    unfold taken
    dsimp only
    split_ifs with hzero
    · exact Function.update_of_ne hq _ _
    · rfl
  · intro a ha
    exact ht.same.page htiled.list.inPage ha
  · intro q hq
    show (onPage q s.live).Perm (onPage q (o :: s.live))
    rw [onPage_cons_of_ne (by rw [ho]; exact Ne.symm hq)]
  · intro spp hspp
    rw [hself] at hspp
    cases hspp
    exact ⟨h.page_pos p sp hsp, htiled.take ht hsize ho⟩
  · intro hnone
    rw [hself] at hnone
    cases hnone
  · rw [hself]
    refine List.forall_mem_cons.mpr ⟨fun _ => ⟨Option.some_ne_none _, hsize, ?_⟩, ?_⟩
    · obtain ⟨⟨_, f, _, _, _, _, hdelta, _⟩, _⟩ := ht
      exact aligned_of_alignDelta hdelta hpow
    · intro o' ho' _
      exact ⟨Option.some_ne_none _, (h.obj o' ho').2⟩
  · refine List.pairwise_cons.mpr ⟨?_, h.apart⟩
    intro o' ho'
    by_cases hqp : o'.page = p
    · exact (htiled.apart o' (mem_onPage.mpr ⟨ho', hqp⟩)).mono_left hsub
    · exact (disjoint_pageRange (Ne.symm hqp)).mono hin (h.range_subset ho')

end Take

/-- `o` was allocated, on a page that was there or on one of `pages`. -/
structure Allocated (s : System) (pages : Set Nat) (o : Obj) (slob : Slob) : Prop where
  ok : PagesOk ⟨slob, o :: s.live⟩
  pos : o.b ≠ 0
  page : ∀ q, slob.page q ≠ none → s.slob.page q ≠ none ∨ q ∈ pages
  mem_pages : ∀ q ∈ pages, q = o.page

/-- `slob_page_alloc` keeps the pages tiled. -/
theorem PagesOk.slobPageAlloc {s : System} (h : PagesOk s) {p size align : Nat} {sp : SlobPage}
    (hsp : s.slob.page p = some sp) (hhome : s.slob.lists.home p ≠ none) (hsize : 0 < size)
    (hpow : align ≠ 0 → ∃ k, align = 2 ^ k) (hwrap : NoWrap p align) :
    slobPageAlloc s.slob p sp size align = some none ∨
      ∃ b slob, slobPageAlloc s.slob p sp size align = some (some (b, slob)) ∧
        Allocated s ∅ ⟨b, size, align⟩ slob ∧ Obj.page ⟨b, size, align⟩ = p := by
  obtain ⟨blocks, ht⟩ := h.page p sp hsp
  have hne : blocks ≠ [] := by
    rintro rfl
    exact hhome (ht.home.mpr rfl)
  rcases slobPageAlloc_spec ht.list hne (h.page_pos p sp hsp).1 hsize hwrap with
    hnone | ⟨b, mem, free, htook, hb, hsome⟩
  · exact .inl hnone
  obtain ⟨hpage, hok⟩ := h.take (o := ⟨b, size, align⟩) hsp ht htook hsize hpow
  refine .inr ⟨b, _, hsome, ⟨hok, hb, ?_, nofun⟩, hpage⟩
  intro q hq
  by_cases hqp : q = p
  · rw [hqp, hsp]
    exact .inl (Option.some_ne_none _)
  · have hother := Function.update_of_ne hqp (some ⟨sp.units - slobUnitsOf size, free⟩)
      s.slob.page
    rw [← hother]
    exact .inl hq

/-- The search over the partially free pages. -/
theorem PagesOk.tryPages {s : System} (h : PagesOk s) {size align : Nat} {pages : List Nat}
    (hpages : ∀ p ∈ pages, s.slob.lists.home p ≠ none) (hsize : 0 < size)
    (hpow : align ≠ 0 → ∃ k, align = 2 ^ k)
    (hwrap : ∀ p, s.slob.page p ≠ none → NoWrap p align) :
    tryPages s.slob size align pages = some none ∨
      ∃ p b slob, tryPages s.slob size align pages = some (some (p, b, slob)) ∧
        Allocated s ∅ ⟨b, size, align⟩ slob := by
  induction pages with
  | nil => exact .inl rfl
  | cons p rest ih =>
    obtain ⟨hp, hrest⟩ := List.forall_mem_cons.mp hpages
    have hpage : s.slob.page p ≠ none := fun hnone => hp (h.home p hnone)
    obtain ⟨sp, hsp⟩ := Option.ne_none_iff_exists'.mp hpage
    rw [Slob.tryPages, hsp]
    dsimp only
    split_ifs with hfew
    · exact ih hrest
    · rcases h.slobPageAlloc hsp hp hsize hpow (hwrap p hpage) with
        hnone | ⟨b, slob, hsome, hok, _⟩
      · rw [hnone]
        exact ih hrest
      · rw [hsome]
        exact .inr ⟨p, b, slob, rfl, hok⟩

theorem addPage_cell (slob : Slob) (q : SlobList) (p : Nat) :
    Cell (addPage slob q p).mem (p * pageUnits) pageUnits (p * pageUnits + pageUnits) := by
  have hunits : 0 < pageUnits := by decide
  have hahead : Ahead (p * pageUnits) (p * pageUnits + pageUnits) :=
    ahead_of (Nat.le_refl _) (by omega) (by omega) (Nat.le_refl _)
  have hcell := setSlob_cell slob.mem hunits (Nat.le_refl pageUnits) hahead
  exact hcell

/-- A new page keeps the pages tiled. -/
theorem PagesOk.addPage {s : System} (h : PagesOk s) {p : Nat} (q : SlobList)
    (hnew : s.slob.page p = none) (hp : 0 < p ∧ 2 * (p * pageUnits + pageUnits) < 2 ^ 32) :
    PagesOk ⟨Slob.addPage s.slob q p, s.live⟩ := by
  have hempty : onPage p s.live = [] := by
    refine List.filter_eq_nil_iff.mpr ?_
    intro o ho hpage
    have := (h.obj o ho).1
    rw [of_decide_eq_true hpage] at this
    exact this hnew
  have hunits : 0 < pageUnits := by decide
  have hself : (Slob.addPage s.slob q p).page p = some ⟨pageUnits, p * pageUnits⟩ :=
    Function.update_self _ _ _
  refine h.change p ?_ ?_ ?_ ?_ ?_ ?_ ?_ h.apart
  · exact fun r hr => Function.update_of_ne hr _ _
  · exact fun r hr => Function.update_of_ne hr _ _
  · intro a ha
    unfold pageRange at ha
    rw [Set.mem_Ico] at ha
    have hout : a < p * pageUnits ∨ p * pageUnits + pageUnits ≤ a := by omega
    have hmem := @setSlob_of_ne s.slob.mem _ _ (p * pageUnits + pageUnits) a
      (Nat.le_refl pageUnits) hout hunits
    exact hmem
  · exact fun r _ => List.Perm.refl _
  · intro sp hsp
    rw [hself] at hsp
    cases hsp
    refine ⟨hp, [⟨p * pageUnits, pageUnits⟩], ⟨.cons (addPage_cell s.slob q p) .nil, ?_, ?_⟩,
      rfl, ?_, ?_, ?_, ?_⟩
    · refine separated_cons.mpr ⟨Nat.lt_add_of_pos_right hunits, ?_, separated_nil⟩
      exact fun f hf => absurd hf List.not_mem_nil
    · intro f hf
      rw [List.mem_singleton.mp hf]
      exact ⟨Nat.le_refl _, Nat.le_refl _, hunits⟩
    · have hhome : (Slob.addPage s.slob q p).lists.home p = some q := Function.update_self _ _ _
      rw [hhome]
      rw [total_cons]
      exact ⟨by rintro ⟨⟩, fun hzero => absurd hzero (Nat.ne_of_gt (Nat.add_pos_left hunits _))⟩
    · rw [hempty, freeUnits, covers_cons, covers_nil]
      ext a
      simp [pageRange, Free.stop]
    · rw [hempty]
      rfl
    · rw [hempty]
      exact fun o ho => absurd ho List.not_mem_nil
  · intro hnone
    rw [hself] at hnone
    cases hnone
  · intro o ho hop
    have hmem := mem_onPage.mpr ⟨ho, hop⟩
    rw [hempty] at hmem
    cases hmem

theorem alignDelta_of_dvd {cur align : Nat} (h : align ∣ 2 * cur)
    (hwrap : 2 * cur + align ≤ 2 ^ 32) : alignDelta cur align = 0 := by
  unfold alignDelta
  split_ifs with hzero
  · rfl
  · obtain ⟨k, hk⟩ := h
    have hpos := Nat.pos_of_ne_zero hzero
    unfold alignPtr
    have hdiv : (align - 1) / align = 0 := Nat.div_eq_of_lt (by omega)
    rw [Nat.mod_eq_of_lt (by omega), hk, Nat.add_sub_assoc (by omega), Nat.mul_add_div hpos, hdiv,
      Nat.add_zero, Nat.mul_comm k, ← hk]
    omega

theorem pageAllocLoop_of_room {mem : Memory} {free units align cur n : Nat} {prev : Option Nat}
    (h : (units : Int) + alignDelta cur align ≤ slobUnits mem cur) :
    pageAllocLoop mem free units align (n + 1) prev cur =
      .found (carveAligned mem free prev cur units align).1
        (carveAligned mem free prev cur units align).2.1
        (carveAligned mem free prev cur units align).2.2 := by
  rw [pageAllocLoop, if_pos h]

theorem slobPageAlloc_new {slob : Slob} {p size align : Nat} (q : SlobList) (hlt : size < 4096)
    (hdvd : align ≠ 0 → align ∣ 2 * (p * pageUnits)) (hwrap : NoWrap p align) :
    slobPageAlloc (addPage slob q p) p ⟨pageUnits, p * pageUnits⟩ size align ≠ some none := by
  have hcell := addPage_cell slob q p
  have hdelta : alignDelta (p * pageUnits) align = 0 := by
    by_cases hzero : align = 0
    · rw [alignDelta, if_pos hzero]
    · unfold NoWrap at hwrap
      exact alignDelta_of_dvd (hdvd hzero) (by omega)
  have hroom : (slobUnitsOf size : Int) + alignDelta (p * pageUnits) align ≤
      slobUnits (addPage slob q p).mem (p * pageUnits) := by
    rw [hcell.slobUnits_eq, hdelta]
    unfold slobUnitsOf pageUnits
    omega
  unfold slobPageAlloc
  rw [pageAllocLoop_of_room hroom, takePage]
  by_cases hb : (carveAligned (addPage slob q p).mem (p * pageUnits) none (p * pageUnits)
      (slobUnitsOf size) align).1 = 0
  · rw [if_pos hb]
    exact nofun
  · rw [if_neg hb]
    exact nofun

/-! ## Calls -/

def Step (s : System) (op : Op) (s' : System) : Prop :=
  step s op = some s'

/-- The calls: sizes below a page and alignments that are powers of two, or none, and new pages
that are not in use; objects that are in use; and writes to objects and to other pages. -/
def Admissible (s : System) : Op → Prop
  | .alloc size align newPage => 0 < size ∧ size < 4096 ∧ (align ≠ 0 → ∃ k, align = 2 ^ k) ∧
      ∀ p, newPage = some p →
        s.slob.page p = none ∧ 0 < p ∧ 2 * (p * pageUnits + pageUnits) < 2 ^ 32
  | .free obj => obj ∈ s.live
  | .write unit _ => (∃ o ∈ s.live, unit ∈ o.range) ∨ s.slob.page (unit / pageUnits) = none

/-- The condition on a call: no address wraps when it is aligned, and a new page is aligned. -/
def Guard (s : System) : Op → Prop
  | .alloc _ align newPage => (∀ p, s.slob.page p ≠ none → NoWrap p align) ∧
      ∀ p, newPage = some p → NoWrap p align ∧ (align ≠ 0 → align ∣ 2 * (p * pageUnits))
  | .free _ => True
  | .write _ _ => True

theorem SlobOk.allocated {s : System} (h : SlobOk s) {pages : Set Nat} {o : Obj} {slob : Slob}
    (ha : Allocated s pages o slob) : SlobOk ⟨slob, o :: s.live⟩ := by
  refine ⟨ha.ok, ?_⟩
  intro q hq
  rcases ha.page q hq with hq | hq
  · obtain ⟨o', ho', hpage⟩ := h.used q hq
    exact ⟨o', List.mem_cons_of_mem _ ho', hpage⟩
  · exact ⟨o, List.mem_cons_self, (ha.mem_pages q hq).symm⟩

/-- The order of the lists does not matter. -/
theorem SlobOk.rotateList {slob : Slob} {live : List Obj} (h : SlobOk ⟨slob, live⟩)
    (q : SlobList) (n : Nat) : SlobOk ⟨Slob.rotateList slob q n, live⟩ :=
  ⟨⟨h.page, h.page_pos, h.home, h.obj, h.apart⟩, h.used⟩

theorem SlobOk.allocNew {s : System} (h : SlobOk s) {size align p : Nat} (hsize : 0 < size)
    (hlt : size < 4096) (hpow : align ≠ 0 → ∃ k, align = 2 ^ k)
    (hnew : s.slob.page p = none ∧ 0 < p ∧ 2 * (p * pageUnits + pageUnits) < 2 ^ 32)
    (hwrap : NoWrap p align) (hdvd : align ≠ 0 → align ∣ 2 * (p * pageUnits)) :
    ∃ b slob, slobPageAlloc (addPage s.slob (listFor size) p) p ⟨pageUnits, p * pageUnits⟩ size
        align = some (some (b, slob)) ∧ b ≠ 0 ∧ SlobOk ⟨slob, ⟨b, size, align⟩ :: s.live⟩ := by
  have hadd := h.toPagesOk.addPage (listFor size) hnew.1 hnew.2
  have hself : (addPage s.slob (listFor size) p).page p = some ⟨pageUnits, p * pageUnits⟩ :=
    Function.update_self _ _ _
  have hhome : (addPage s.slob (listFor size) p).lists.home p ≠ none := by
    have hhome : (addPage s.slob (listFor size) p).lists.home p = some (listFor size) :=
      Function.update_self _ _ _
    rw [hhome]
    exact Option.some_ne_none _
  rcases hadd.slobPageAlloc hself hhome hsize hpow hwrap with
    hnone | ⟨b, slob, hsome, ha, hpage⟩
  · exact absurd hnone (slobPageAlloc_new (listFor size) hlt hdvd hwrap)
  refine ⟨b, slob, hsome, ha.pos, @SlobOk.allocated s h {p} _ _ ⟨ha.ok, ha.pos, ?_, ?_⟩⟩
  · intro q hq
    by_cases hqp : q = p
    · exact .inr hqp
    · rcases ha.page q hq with hq | hq
      · have hother : (addPage s.slob (listFor size) p).page q = s.slob.page q :=
          Function.update_of_ne hqp _ _
        rw [← hother]
        exact .inl hq
      · exact absurd hq (Set.notMem_empty q)
  · intro q hq
    exact hq.trans hpage.symm

theorem SlobOk.alloc {s : System} (h : SlobOk s) {size align : Nat} {newPage : Option Nat}
    (hop : Admissible s (.alloc size align newPage)) (hguard : Guard s (.alloc size align newPage)) :
    ∃ s', step s (.alloc size align newPage) = some s' ∧ SlobOk s' := by
  obtain ⟨hsize, hlt, hpow, hnew⟩ := hop
  obtain ⟨hwrap, hfit⟩ := hguard
  have hitems : ∀ p ∈ s.slob.lists.items (listFor size), s.slob.lists.home p ≠ none := by
    intro p hp
    rw [(s.slob.lists.mem_items _ p).mp hp]
    exact Option.some_ne_none _
  rw [step, slobAlloc.eq_def]
  rcases h.toPagesOk.tryPages hitems hsize hpow hwrap with hnone | ⟨p, b, slob, hsome, ha⟩
  · rw [hnone]
    cases newPage with
    | none => exact ⟨_, rfl, h⟩
    | some p =>
      obtain ⟨hwrap', hdvd⟩ := hfit p rfl
      obtain ⟨b, slob, hsome, hb, hok⟩ := h.allocNew hsize hlt hpow (hnew p rfl) hwrap' hdvd
      dsimp only
      rw [hsome]
      refine ⟨_, rfl, ?_⟩
      dsimp only
      rw [if_neg hb]
      exact hok
  · rw [hsome]
    refine ⟨_, rfl, ?_⟩
    dsimp only
    rw [if_neg ha.pos]
    exact (h.allocated ha).rotateList _ _

section Release

variable {s : System} {o : Obj}

/-- The objects on the page of an object, apart from it. -/
theorem onPage_erase_self (ho : o ∈ s.live) :
    (onPage o.page s.live).Perm (o :: onPage o.page (s.live.erase o)) := by
  have hperm : (onPage o.page s.live).Perm (onPage o.page (o :: s.live.erase o)) :=
    (List.perm_cons_erase ho).filter _
  rwa [onPage_cons_self rfl] at hperm

theorem onPage_erase_of_ne (ho : o ∈ s.live) {q : Nat} (hq : q ≠ o.page) :
    (onPage q s.live).Perm (onPage q (s.live.erase o)) := by
  have hperm : (onPage q s.live).Perm (onPage q (o :: s.live.erase o)) :=
    (List.perm_cons_erase ho).filter _
  rwa [onPage_cons_of_ne (Ne.symm hq)] at hperm

/-- An object is apart from all others. -/
theorem PagesOk.apart_erase (h : PagesOk s) (ho : o ∈ s.live) :
    ∀ o' ∈ s.live.erase o, Disjoint o.range o'.range := by
  have hsymm : ∀ {a b : Obj}, Disjoint a.range b.range → Disjoint b.range a.range :=
    fun h => h.symm
  have hpair := ((List.perm_cons_erase ho).pairwise_iff hsymm).mp h.apart
  exact (List.pairwise_cons.mp hpair).1

theorem total_eq_zero {p : Nat} {blocks : List Free} (hpage : InPage p blocks)
    (h : total blocks = 0) : blocks = [] := by
  cases blocks with
  | nil => rfl
  | cons f rest =>
    have hpos := (hpage f List.mem_cons_self).2.2
    rw [total_cons] at h
    omega

theorem usedUnits_eq_zero {objs : List Obj} (hobjs : ∀ o ∈ objs, 0 < o.size)
    (h : usedUnits objs = 0) : objs = [] := by
  cases objs with
  | nil => rfl
  | cons o rest =>
    have hpos : 0 < o.units := slobUnitsOf_pos (hobjs o List.mem_cons_self)
    rw [usedUnits_cons] at h
    omega

/-- The units of an object are free blocks again. -/
theorem Tiled.freed {mem mem' : Memory} {home home' : Option SlobList} {objs : List Obj} {p : Nat}
    {sp : SlobPage} {free' : Nat} {blocks blocks' : List Free}
    (h : Tiled mem home (o :: objs) p sp blocks) (hlist : FreeList p mem' free' blocks')
    (hfree : freeUnits blocks' = freeUnits blocks ∪ o.range)
    (htotal : total blocks' = total blocks + o.units) (hhome : home' ≠ none) (hsize : 0 < o.size)
    (hapart : ∀ o' ∈ objs, Disjoint o.range o'.range) :
    Tiled mem' home' objs p ⟨sp.units + o.units, free'⟩ blocks' := by
  have hpos : 0 < o.units := slobUnitsOf_pos hsize
  have hunits := h.units
  have hsum := h.sum
  refine ⟨hlist, ?_, ?_, ?_, ?_, ?_⟩
  · show sp.units + o.units = _
    omega
  · exact ⟨fun hnone => absurd hnone hhome, fun hzero => by omega⟩
  · rw [← h.cover, hfree]
    ext a
    simp only [Set.mem_union, Set.mem_ofPred_eq, List.mem_cons, exists_eq_or_imp]
    exact or_assoc
  · rw [usedUnits_cons] at hsum
    omega
  · intro o' ho'
    rw [hfree]
    exact Set.disjoint_union_left.mpr ⟨h.apart o' (List.mem_cons_of_mem _ ho'), hapart o' ho'⟩

/-- The range of an object lies between the free blocks. -/
theorem Tiled.clear {mem : Memory} {home : Option SlobList} {objs : List Obj} {p : Nat}
    {sp : SlobPage} {blocks : List Free} (h : Tiled mem home objs p sp blocks) (ho : o ∈ objs)
    (hsize : 0 < o.size) : ∀ f ∈ blocks, f.stop ≤ o.b ∨ o.b + o.units ≤ f.start := by
  intro f hf
  have hpos : 0 < o.units := slobUnitsOf_pos hsize
  obtain ⟨_, _, hfpos⟩ := h.list.inPage f hf
  have hstop : f.stop = f.start + f.units := rfl
  have hdis := Set.disjoint_left.mp (h.apart o ho)
  by_contra hmeet
  have hmax : max f.start o.b ∈ freeUnits blocks := ⟨f, hf, by omega, by omega⟩
  refine hdis hmax ⟨by omega, by omega⟩

/-- The page of an object after `slob_free`, if it is not given back. -/
theorem SlobOk.freePage (h : SlobOk s) (ho : o ∈ s.live) {s' : System} {sp : SlobPage}
    (hlive : s'.live = s.live.erase o)
    (hpage : s'.slob.page = Function.update s.slob.page o.page (some sp))
    (hhome : ∀ q ≠ o.page, s'.slob.lists.home q = s.slob.lists.home q)
    (hmem : ∀ a, a ∉ pageRange o.page → s'.slob.mem a = s.slob.mem a)
    (htiled : ∃ blocks, Tiled s'.slob.mem (s'.slob.lists.home o.page)
      (onPage o.page (s.live.erase o)) o.page sp blocks)
    (hne : onPage o.page (s.live.erase o) ≠ []) : SlobOk s' := by
  have hself : s'.slob.page o.page = some sp := by
    rw [hpage, Function.update_self]
  obtain ⟨sp₀, hsp₀⟩ := Option.ne_none_iff_exists'.mp (h.obj o ho).1
  refine ⟨h.toPagesOk.change o.page ?_ hhome hmem ?_ ?_ ?_ ?_ ?_, ?_⟩
  · intro q hq
    rw [hpage, Function.update_of_ne hq]
  · intro q hq
    rw [hlive]
    exact onPage_erase_of_ne ho hq
  · intro sp' hsp'
    rw [hself] at hsp'
    cases hsp'
    rw [hlive]
    exact ⟨h.page_pos _ sp₀ hsp₀, htiled⟩
  · intro hnone
    rw [hself] at hnone
    cases hnone
  · intro o' ho' _
    rw [hlive] at ho'
    rw [hself]
    exact ⟨Option.some_ne_none _, (h.obj o' (List.mem_of_mem_erase ho')).2⟩
  · rw [hlive]
    exact h.apart.sublist List.erase_sublist
  intro q hq
  rw [hlive]
  by_cases hqp : q = o.page
  · obtain ⟨o', ho'⟩ := List.exists_mem_of_ne_nil _ hne
    obtain ⟨hmem', hpage'⟩ := mem_onPage.mp ho'
    exact ⟨o', hmem', hpage'.trans hqp.symm⟩
  · rw [hpage, Function.update_of_ne hqp] at hq
    obtain ⟨o', ho', hpage'⟩ := h.used q hq
    have hmem' := (onPage_erase_of_ne ho hqp).mem_iff.mp (mem_onPage.mpr ⟨ho', hpage'⟩)
    exact ⟨o', mem_onPage.mp hmem'⟩

/-- The page of the last object is given back. -/
theorem SlobOk.freeLast (h : SlobOk s) (ho : o ∈ s.live)
    (hnil : onPage o.page (s.live.erase o) = []) :
    SlobOk ⟨⟨s.slob.mem, Function.update s.slob.page o.page none, s.slob.lists.del o.page⟩,
      s.live.erase o⟩ := by
  have hself : Function.update s.slob.page o.page none o.page = none := Function.update_self _ _ _
  refine ⟨h.toPagesOk.change o.page ?_ ?_ ?_ ?_ ?_ ?_ ?_ ?_, ?_⟩
  · exact fun q hq => Function.update_of_ne hq _ _
  · exact fun q hq => Function.update_of_ne hq _ _
  · exact fun a _ => rfl
  · exact fun q hq => onPage_erase_of_ne ho hq
  · intro sp hsp
    exact absurd (hsp.symm.trans hself) (Option.some_ne_none sp)
  · exact fun _ => Function.update_self _ _ _
  · intro o' ho' hpage
    have hmem := mem_onPage.mpr ⟨ho', hpage⟩
    rw [hnil] at hmem
    cases hmem
  · exact h.apart.sublist List.erase_sublist
  intro q hq
  have hqp : q ≠ o.page := by
    rintro rfl
    exact hq hself
  have hother : Function.update s.slob.page o.page none q = s.slob.page q :=
    Function.update_of_ne hqp _ _
  have hq : s.slob.page q ≠ none := hother ▸ hq
  obtain ⟨o', ho', hpage'⟩ := h.used q hq
  have hmem' := (onPage_erase_of_ne ho hqp).mem_iff.mp (mem_onPage.mpr ⟨ho', hpage'⟩)
  exact ⟨o', mem_onPage.mp hmem'⟩

/-- An object is a block of its page. -/
theorem PagesOk.inPage (h : PagesOk s) (ho : o ∈ s.live) : InPage o.page [⟨o.b, o.units⟩] := by
  have hpos : 0 < o.units := slobUnitsOf_pos (h.obj o ho).2.1
  have hrange := h.range_subset ho
  have hlo : o.page * pageUnits ≤ o.b := (hrange ⟨Nat.le_refl _, by omega⟩).1
  have hlast : o.b + o.units - 1 ∈ o.range := ⟨by omega, by omega⟩
  have hhi : o.b + o.units - 1 < o.page * pageUnits + pageUnits := (hrange hlast).2
  intro f hf
  rw [List.mem_singleton.mp hf]
  refine ⟨hlo, ?_, hpos⟩
  show o.b + o.units ≤ _
  omega

/-- `slob_free` of an object whose page has no free block. -/
theorem SlobOk.freeFull (h : SlobOk s) (ho : o ∈ s.live) {sp : SlobPage}
    (ht : Tiled s.slob.mem (s.slob.lists.home o.page) (o :: onPage o.page (s.live.erase o)) o.page
      sp [])
    (hrest : onPage o.page (s.live.erase o) ≠ []) :
    SlobOk ⟨⟨setSlob s.slob.mem o.b o.units (o.page * pageUnits + pageUnits),
      Function.update s.slob.page o.page (some ⟨o.units, o.b⟩),
      s.slob.lists.addHead .small o.page⟩, s.live.erase o⟩ := by
  have hsize := (h.obj o ho).2.1
  have hpos : 0 < o.units := slobUnitsOf_pos hsize
  have hin := h.inPage ho
  obtain ⟨hlo, hhi, _⟩ := hin ⟨o.b, o.units⟩ List.mem_cons_self
  have hlo : o.page * pageUnits ≤ o.b := hlo
  have hhi : o.b + o.units ≤ o.page * pageUnits + pageUnits := hhi
  have hahead : Ahead o.b (o.page * pageUnits + pageUnits) :=
    ahead_of hlo (by omega) (by omega) (Nat.le_refl _)
  have hle : o.units ≤ pageUnits := by omega
  have hcell := setSlob_cell s.slob.mem hpos hle hahead
  have hlist : FreeList o.page (setSlob s.slob.mem o.b o.units (o.page * pageUnits + pageUnits))
      o.b [⟨o.b, o.units⟩] :=
    ⟨.cons hcell .nil, separated_cons.mpr ⟨Nat.lt_add_of_pos_right hpos, nofun, separated_nil⟩,
      hin⟩
  have hfree : freeUnits [⟨o.b, o.units⟩] = freeUnits [] ∪ o.range := by
    rw [freeUnits, covers_cons, Set.union_comm]
    rfl
  have htotal : total [⟨o.b, o.units⟩] = total [] + o.units := by
    rw [total_cons, Nat.add_comm]
  have hhome : (s.slob.lists.addHead .small o.page).home o.page ≠ none := by
    rw [LinkedLists.home_addHead, Function.update_self]
    exact Option.some_ne_none _
  have hfreed := ht.freed hlist hfree htotal hhome hsize
    fun o' ho' => h.apart_erase ho o' (mem_onPage.mp ho').1
  have hunits : sp.units + o.units = o.units := by
    have hzero : sp.units = (0 : Nat) := ht.units
    omega
  rw [hunits] at hfreed
  have hmem : ∀ a, a ∉ pageRange o.page →
      setSlob s.slob.mem o.b o.units (o.page * pageUnits + pageUnits) a = s.slob.mem a := by
    intro a ha
    unfold pageRange at ha
    rw [Set.mem_Ico] at ha
    have hout : a < o.b ∨ o.b + o.units ≤ a := by omega
    exact setSlob_of_ne s.slob.mem hle hout hpos
  generalize setSlob s.slob.mem o.b o.units (o.page * pageUnits + pageUnits) = mem at hfreed hmem ⊢
  exact h.freePage ho rfl rfl (fun q hq => Function.update_of_ne hq _ _) hmem ⟨_, hfreed⟩ hrest

/-- `slob_free` of an object whose page has free blocks. -/
theorem SlobOk.freePartial (h : SlobOk s) (ho : o ∈ s.live) {sp : SlobPage} {blocks : List Free}
    (ht : Tiled s.slob.mem (s.slob.lists.home o.page) (o :: onPage o.page (s.live.erase o)) o.page
      sp blocks)
    (hhome : s.slob.lists.home o.page ≠ none) (hrest : onPage o.page (s.live.erase o) ≠ []) :
    ∃ mem free, insertFree s.slob.mem sp.free o.b o.units = some (mem, free) ∧
      SlobOk ⟨⟨mem, Function.update s.slob.page o.page (some ⟨sp.units + o.units, free⟩),
        s.slob.lists⟩, s.live.erase o⟩ := by
  have hsize := (h.obj o ho).2.1
  have hin := h.inPage ho
  have hne : blocks ≠ [] := by
    rintro rfl
    exact hhome (ht.home.mpr rfl)
  obtain ⟨mem, free, hinsert, hfreed⟩ := insertFree_spec ht.list hne hin
    (ht.clear List.mem_cons_self hsize)
  obtain ⟨⟨blocks', hlist, hfree, htotal⟩, hsame⟩ := hfreed
  have htiled := ht.freed hlist hfree htotal hhome hsize
    fun o' ho' => h.apart_erase ho o' (mem_onPage.mp ho').1
  refine ⟨mem, free, hinsert, h.freePage ho rfl rfl (fun _ _ => rfl) ?_ ⟨_, htiled⟩ hrest⟩
  intro a ha
  refine hsame.page ?_ ha
  intro f hf
  rcases List.mem_cons.mp hf with rfl | hf
  · exact hin _ List.mem_cons_self
  · exact ht.list.inPage f hf

/-- A page has no other object exactly when all of it is free once an object is freed. -/
theorem SlobOk.last_iff (h : SlobOk s) {sp : SlobPage} {blocks : List Free}
    (ht : Tiled s.slob.mem (s.slob.lists.home o.page) (o :: onPage o.page (s.live.erase o)) o.page
      sp blocks) :
    onPage o.page (s.live.erase o) = [] ↔ sp.units + o.units = pageUnits := by
  have hsum := ht.sum
  have hunits := ht.units
  rw [usedUnits_cons] at hsum
  constructor
  · intro hnil
    rw [hnil] at hsum
    have hzero : usedUnits [] = 0 := rfl
    omega
  · intro hlast
    refine usedUnits_eq_zero ?_ (by omega)
    intro o' ho'
    exact (h.obj o' (List.mem_of_mem_erase (mem_onPage.mp ho').1)).2.1

theorem SlobOk.free (h : SlobOk s) (ho : o ∈ s.live) :
    ∃ s', step s (.free o) = some s' ∧ SlobOk s' := by
  obtain ⟨hpage, hsize, _⟩ := h.obj o ho
  obtain ⟨sp, hsp⟩ := Option.ne_none_iff_exists'.mp hpage
  obtain ⟨blocks, ht⟩ := h.page _ sp hsp
  have ht := ht.congr (fun _ _ => rfl) (onPage_erase_self ho)
  obtain ⟨hlo, hhi, _⟩ := h.inPage ho ⟨o.b, o.units⟩ List.mem_cons_self
  have hlo : o.page * pageUnits ≤ o.b := hlo
  have hbig : ¬ 2 * o.b ≤ 16 := by
    have hp := (h.page_pos _ sp hsp).1
    unfold pageUnits at hlo
    omega
  have hsp' : s.slob.page (o.b / pageUnits) = some sp := hsp
  have hunits : slobUnitsOf o.size = o.units := rfl
  rw [step, slobFree, if_neg hbig, if_neg (Nat.ne_of_gt hsize), hsp', hunits]
  dsimp only
  by_cases hlast : sp.units + o.units = pageUnits
  · rw [if_pos hlast]
    exact ⟨_, rfl, h.freeLast ho ((h.last_iff ht).mpr hlast)⟩
  rw [if_neg hlast]
  have hrest : onPage o.page (s.live.erase o) ≠ [] := fun hnil => hlast ((h.last_iff ht).mp hnil)
  by_cases hhome : s.slob.lists.home (o.b / pageUnits) = none
  · have hnil := total_eq_zero ht.list.inPage (ht.home.mp hhome)
    subst hnil
    have hbase : base (o.b + pageUnits) = o.page * pageUnits + pageUnits := by
      unfold base Obj.page pageUnits
      omega
    rw [if_pos hhome, hbase]
    exact ⟨_, rfl, h.freeFull ho ht hrest⟩
  · rw [if_neg hhome]
    obtain ⟨mem, free, hinsert, hok⟩ := h.freePartial ho ht hhome hrest
    rw [hinsert]
    exact ⟨_, rfl, hok⟩

end Release

theorem SlobOk.write {s : System} (h : SlobOk s) {unit : Nat} {value : Int}
    (hop : Admissible s (.write unit value)) :
    ∃ s', step s (.write unit value) = some s' ∧ SlobOk s' := by
  refine ⟨_, rfl, ⟨⟨?_, h.page_pos, h.home, h.obj, h.apart⟩, h.used⟩⟩
  intro p sp hsp
  obtain ⟨blocks, ht⟩ := h.page p sp hsp
  refine ⟨blocks, ht.congr ?_ (List.Perm.refl _)⟩
  intro a ha
  refine Function.update_of_ne ?_ _ _
  rintro rfl
  have hap := mem_pageRange.mp (ht.free_subset ha)
  rcases hop with ⟨o, ho, hunit⟩ | hnone
  · have hop := mem_pageRange.mp (h.range_subset ho hunit)
    exact Set.disjoint_left.mp (ht.apart o (mem_onPage.mpr ⟨ho, hop.symm.trans hap⟩)) ha hunit
  · rw [hap] at hnone
    rw [hnone] at hsp
    cases hsp

theorem SlobOk.step {s : System} (h : SlobOk s) {op : Op} (hop : Admissible s op)
    (hguard : Guard s op) : ∃ s', Slob.step s op = some s' ∧ SlobOk s' := by
  cases op with
  | alloc size align newPage => exact h.alloc hop hguard
  | free obj => exact h.free hop
  | write unit value => exact h.write hop

theorem slobOk_initial (mem : Memory) : SlobOk (initial mem) :=
  ⟨⟨nofun, nofun, fun _ _ => rfl, nofun, .nil⟩, fun _ h => absurd rfl h⟩

/-- Alignments up to a page always meet the condition. -/
theorem SlobOk.guard_of_align_le {s : System} (h : SlobOk s) {size align : Nat}
    {newPage : Option Nat} (hop : Admissible s (.alloc size align newPage)) (hle : align ≤ 4096) :
    Guard s (.alloc size align newPage) := by
  have hwrap : ∀ p, 2 * (p * pageUnits + pageUnits) < 2 ^ 32 → NoWrap p align := by
    intro p hp
    unfold NoWrap pageUnits at *
    omega
  obtain ⟨_, _, hpow, hnew⟩ := hop
  constructor
  · intro p hp
    obtain ⟨sp, hsp⟩ := Option.ne_none_iff_exists'.mp hp
    exact hwrap p (h.page_pos p sp hsp).2
  intro p hp
  refine ⟨hwrap p (hnew p hp).2.2, ?_⟩
  intro hne
  obtain ⟨k, rfl⟩ := hpow hne
  have hk : 2 ^ k ∣ 2 ^ 12 := Nat.pow_dvd_pow 2 ((Nat.pow_le_pow_iff_right (by decide)).mp hle)
  refine hk.trans ⟨p, ?_⟩
  unfold pageUnits
  omega

end AndroidKernel.Slob
