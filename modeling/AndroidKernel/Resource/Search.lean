import AndroidKernel.Resource.Model

/-!
# The search for a gap

`find_resource` takes the first gap between the children whose candidate passes its test. A gap
is given by the address after the child before it, which is past the last word when that child
ends there.
-/

namespace AndroidKernel.Resource

/-- A gap between children: its first address, not wrapped, and its last one. -/
structure Gap where
  start : Nat
  stop : Nat

/-- The gaps from an address on, between and after the siblings that are left. -/
def gapsFrom (last : Nat) : Nat → List Resource → List Gap
  | start, [] => [⟨start, last⟩]
  | start, this :: rest => ⟨start, this.start - 1⟩ :: gapsFrom last (this.stop + 1) rest

/-- The gaps of a resource. There is none before a child that starts at 0. -/
def gaps (root : Resource) : List Gap :=
  match root.children with
  | this :: rest =>
    if this.start = 0 then gapsFrom root.stop (this.stop + 1) rest
    else gapsFrom root.stop root.start (this :: rest)
  | [] => gapsFrom root.stop root.start []

variable {width last start s n : Nat} {root this : Resource} {rest : List Resource}
  {req : Request} {gap : Gap}

/-- The start of the candidate in a gap. -/
def Request.candidate (req : Request) (width : Nat) (gap : Gap) : Nat :=
  req.alignedStart width (gap.start % 2 ^ width)

/-- The candidate in a gap passes the test. -/
def Request.Accepts (req : Request) (width : Nat) (gap : Gap) : Prop :=
  req.Fits (req.candidate width gap) (req.clippedStop gap.stop)

instance (req : Request) (width : Nat) (gap : Gap) : Decidable (req.Accepts width gap) :=
  inferInstanceAs (Decidable (req.Fits _ _))

/-! ## The first accepted gap -/

/-- The loop ends in the first accepted gap, or it fails. -/
theorem findLoop_eq (h : ∀ g ∈ gapsFrom root.stop start rest, ¬req.Accepts width g) :
    (findLoop width root req (start % 2 ^ width) rest).1 = ebusy := by
  induction rest generalizing start with
  | nil =>
    have hgap : ¬req.Fits _ _ := h ⟨start, root.stop⟩ (List.mem_singleton_self _)
    simp only [Request.candidate] at hgap
    simp only [findLoop, if_neg hgap]
  | cons this rest ih =>
    have hgap : ¬req.Fits _ _ := h ⟨start, this.start - 1⟩ List.mem_cons_self
    simp only [Request.candidate] at hgap
    simp only [findLoop, if_neg hgap]
    exact ih fun g hg => h g (List.mem_cons_of_mem _ hg)

theorem findLoop_of_accepts {pre post : List Gap}
    (hgaps : gapsFrom root.stop start rest = pre ++ gap :: post)
    (hpre : ∀ g ∈ pre, ¬req.Accepts width g) (hgap : req.Accepts width gap) :
    findLoop width root req (start % 2 ^ width) rest =
      (0, req.candidate width gap, req.candidate width gap + req.size - 1) := by
  induction rest generalizing start pre with
  | nil =>
    cases pre with
    | nil =>
      obtain ⟨rfl, -⟩ := List.cons.inj hgaps
      exact if_pos hgap
    | cons first pre => simp [gapsFrom] at hgaps
  | cons this rest ih =>
    cases pre with
    | nil =>
      obtain ⟨rfl, -⟩ := List.cons.inj hgaps
      exact if_pos hgap
    | cons first pre =>
      obtain ⟨rfl, hrest⟩ := List.cons.inj hgaps
      have hfirst : ¬req.Fits _ _ := hpre ⟨start, this.start - 1⟩ List.mem_cons_self
      simp only [Request.candidate] at hfirst
      simp only [findLoop, if_neg hfirst]
      exact ih hrest fun g hg => hpre g (List.mem_cons_of_mem _ hg)

/-- The search runs the loop over the gaps. -/
theorem WellFormed.findResource_eq (h : WellFormed width root) (req : Request) :
    ∃ start rest, gaps root = gapsFrom root.stop start rest ∧
      findResource width root req = findLoop width root req (start % 2 ^ width) rest := by
  have hstart : root.start % 2 ^ width = root.start :=
    Nat.mod_eq_of_lt (h.le.trans_lt h.word)
  unfold gaps findResource
  cases hchildren : root.children with
  | nil => exact ⟨root.start, [], rfl, by rw [hstart]⟩
  | cons this rest =>
    dsimp only
    split_ifs with hzero
    · exact ⟨this.stop + 1, rest, rfl, rfl⟩
    · exact ⟨root.start, this :: rest, rfl, by rw [hstart]⟩

/-! ## Where the gaps are -/

/-- The siblings that are left begin at an address or after it, are in order, and end in the
parent. -/
structure Siblings (last start : Nat) (rest : List Resource) : Prop where
  above : ∀ c ∈ rest, start ≤ c.start
  pos : ∀ c ∈ rest, 0 < c.start
  le : ∀ c ∈ rest, c.start ≤ c.stop
  inside : ∀ c ∈ rest, c.stop ≤ last
  ordered : rest.Pairwise fun first second => first.stop < second.start

theorem Siblings.tail (h : Siblings last start (this :: rest)) :
    Siblings last (this.stop + 1) rest where
  above := fun c hc => (List.pairwise_cons.mp h.ordered).1 c hc
  pos := fun c hc => h.pos c (List.mem_cons_of_mem _ hc)
  le := fun c hc => h.le c (List.mem_cons_of_mem _ hc)
  inside := fun c hc => h.inside c (List.mem_cons_of_mem _ hc)
  ordered := (List.pairwise_cons.mp h.ordered).2

/-- A gap lies at or after the start, in the parent, and meets none of the siblings. -/
theorem Siblings.gap_apart (h : Siblings last start rest) (hgap : gap ∈ gapsFrom last start rest) :
    start ≤ gap.start ∧ gap.stop ≤ last ∧ ∀ c ∈ rest, c.stop < gap.start ∨ gap.stop < c.start := by
  induction rest generalizing start with
  | nil =>
    obtain rfl := List.mem_singleton.mp hgap
    exact ⟨le_rfl, le_rfl, fun c hc => absurd hc List.not_mem_nil⟩
  | cons this rest ih =>
    have hpos := h.pos this List.mem_cons_self
    have hle := h.le this List.mem_cons_self
    have hlast := h.inside this List.mem_cons_self
    have habove := h.above this List.mem_cons_self
    rcases List.mem_cons.mp hgap with rfl | hgap
    · refine ⟨le_rfl, by show this.start - 1 ≤ last; omega, fun c hc => Or.inr ?_⟩
      show this.start - 1 < c.start
      rcases List.mem_cons.mp hc with rfl | hc
      · omega
      · have := h.tail.above c hc
        omega
    · obtain ⟨hstart, hstop, hapart⟩ := ih h.tail hgap
      refine ⟨by omega, hstop, fun c hc => ?_⟩
      rcases List.mem_cons.mp hc with rfl | hc
      · exact Or.inl (by omega)
      · exact hapart c hc

/-- A range clear of the siblings lies in a gap. -/
theorem Siblings.exists_gap (h : Siblings last start rest) (hn : 1 ≤ n) (hstart : start ≤ s)
    (hlast : s + n ≤ last + 1) (hapart : ∀ c ∈ rest, c.stop < s ∨ s + n ≤ c.start) :
    ∃ gap ∈ gapsFrom last start rest, gap.start ≤ s ∧ s + n ≤ gap.stop + 1 := by
  induction rest generalizing start with
  | nil => exact ⟨⟨start, last⟩, List.mem_singleton_self _, hstart, hlast⟩
  | cons this rest ih =>
    rcases hapart this List.mem_cons_self with hbefore | hafter
    · obtain ⟨gap, hgap, hfits⟩ :=
        ih h.tail hbefore fun c hc => hapart c (List.mem_cons_of_mem _ hc)
      exact ⟨gap, List.mem_cons_of_mem _ hgap, hfits⟩
    · refine ⟨⟨start, this.start - 1⟩, List.mem_cons_self, hstart, ?_⟩
      show s + n ≤ this.start - 1 + 1
      omega

/-- The gaps are in the order of their starts. -/
theorem Siblings.gaps_ordered (h : Siblings last start rest) :
    (gapsFrom last start rest).Pairwise fun first second => first.start < second.start := by
  induction rest generalizing start with
  | nil => exact List.pairwise_singleton _ _
  | cons this rest ih =>
    refine List.pairwise_cons.mpr ⟨fun gap hgap => ?_, ih h.tail⟩
    have hafter := (h.tail.gap_apart hgap).1
    have habove := h.above this List.mem_cons_self
    have hle := h.le this List.mem_cons_self
    show start < gap.start
    omega

/-- The last gap ends the parent. -/
theorem last_gap (last start : Nat) (rest : List Resource) :
    ∃ gap ∈ gapsFrom last start rest, gap.stop = last := by
  induction rest generalizing start with
  | nil => exact ⟨_, List.mem_singleton_self _, rfl⟩
  | cons this rest ih =>
    obtain ⟨gap, hgap, hstop⟩ := ih (this.stop + 1)
    exact ⟨gap, List.mem_cons_of_mem _ hgap, hstop⟩

/-- Every gap begins at the start or after a sibling. -/
theorem gap_start (hgap : gap ∈ gapsFrom last start rest) :
    gap.start = start ∨ ∃ c ∈ rest, gap.start = c.stop + 1 := by
  induction rest generalizing start with
  | nil =>
    obtain rfl := List.mem_singleton.mp hgap
    exact Or.inl rfl
  | cons this rest ih =>
    rcases List.mem_cons.mp hgap with rfl | hgap
    · exact Or.inl rfl
    · rcases ih hgap with heq | ⟨c, hc, heq⟩
      · exact Or.inr ⟨this, List.mem_cons_self, heq⟩
      · exact Or.inr ⟨c, List.mem_cons_of_mem _ hc, heq⟩

/-! ## The gaps of a resource -/

theorem WellFormed.child_le (h : WellFormed width root) (hthis : this ∈ root.children) :
    this.start ≤ this.stop :=
  (h.child hthis).le

/-- The gaps of a well-formed resource run over all its children but one that starts at 0. -/
theorem WellFormed.gaps_eq (h : WellFormed width root) :
    ∃ start rest, gaps root = gapsFrom root.stop start rest ∧ Siblings root.stop start rest ∧
      (start = root.start ∧ rest = root.children ∨
        ∃ c, c.start = 0 ∧ root.start = 0 ∧ root.children = c :: rest ∧ start = c.stop + 1) := by
  have hordered := h.ordered
  have hle : ∀ c ∈ root.children, c.start ≤ c.stop := fun c hc => h.child_le hc
  have hinside : ∀ c ∈ root.children, root.start ≤ c.start ∧ c.stop ≤ root.stop := fun c hc =>
    h.inside hc
  unfold gaps
  cases hchildren : root.children with
  | nil =>
    exact ⟨root.start, [], rfl, ⟨by simp, by simp, by simp, by simp, List.Pairwise.nil⟩,
      Or.inl ⟨rfl, rfl⟩⟩
  | cons this rest =>
    rw [hchildren] at hordered hle hinside
    obtain ⟨hfirst, hrest⟩ := List.pairwise_cons.mp hordered
    have hthis := hinside this List.mem_cons_self
    dsimp only
    split_ifs with hzero
    · refine ⟨this.stop + 1, rest, rfl, ⟨hfirst, fun c hc => ?_, fun c hc => ?_, fun c hc => ?_,
        hrest⟩, Or.inr ⟨this, hzero, by omega, rfl, rfl⟩⟩
      · exact (Nat.zero_le _).trans_lt (hfirst c hc)
      · exact hle c (List.mem_cons_of_mem _ hc)
      · exact (hinside c (List.mem_cons_of_mem _ hc)).2
    · refine ⟨root.start, this :: rest, rfl, ⟨fun c hc => (hinside c hc).1, fun c hc => ?_, hle,
        fun c hc => (hinside c hc).2, hordered⟩, Or.inl ⟨rfl, rfl⟩⟩
      rcases List.mem_cons.mp hc with rfl | hc
      · omega
      · exact (Nat.zero_le _).trans_lt (hfirst c hc)

theorem WellFormed.gap_apart (h : WellFormed width root) (hgap : gap ∈ gaps root) :
    root.start ≤ gap.start ∧ gap.stop ≤ root.stop ∧
      ∀ c ∈ root.children, c.stop < gap.start ∨ gap.stop < c.start := by
  obtain ⟨start, rest, heq, hsiblings, hcase⟩ := h.gaps_eq
  rw [heq] at hgap
  obtain ⟨hstart, hstop, hapart⟩ := hsiblings.gap_apart hgap
  rcases hcase with ⟨rfl, rfl⟩ | ⟨first, -, hzero, hchildren, rfl⟩
  · exact ⟨hstart, hstop, hapart⟩
  · refine ⟨by omega, hstop, fun c hc => ?_⟩
    rw [hchildren] at hc
    rcases List.mem_cons.mp hc with rfl | hc
    · exact Or.inl (by omega)
    · exact hapart c hc

theorem WellFormed.exists_gap (h : WellFormed width root) (hn : 1 ≤ n) (hstart : root.start ≤ s)
    (hlast : s + n ≤ root.stop + 1)
    (hapart : ∀ c ∈ root.children, c.stop < s ∨ s + n ≤ c.start) :
    ∃ gap ∈ gaps root, gap.start ≤ s ∧ s + n ≤ gap.stop + 1 := by
  obtain ⟨start, rest, heq, hsiblings, hcase⟩ := h.gaps_eq
  rw [heq]
  rcases hcase with ⟨rfl, rfl⟩ | ⟨first, hcover, hzero, hchildren, rfl⟩
  · exact hsiblings.exists_gap hn hstart hlast hapart
  · rw [hchildren] at hapart
    refine hsiblings.exists_gap hn ?_ hlast fun c hc => hapart c (List.mem_cons_of_mem _ hc)
    -- the child passed over covers the addresses from 0 on
    rcases hapart first List.mem_cons_self with hbefore | hafter <;> omega

theorem WellFormed.gaps_ordered (h : WellFormed width root) :
    (gaps root).Pairwise fun first second => first.start < second.start := by
  obtain ⟨start, rest, heq, hsiblings, -⟩ := h.gaps_eq
  rw [heq]
  exact hsiblings.gaps_ordered

theorem WellFormed.last_gap (h : WellFormed width root) :
    ∃ gap ∈ gaps root, gap.stop = root.stop := by
  obtain ⟨start, rest, heq, -, -⟩ := h.gaps_eq
  rw [heq]
  exact Resource.last_gap _ _ _

theorem WellFormed.gap_start (h : WellFormed width root) (hgap : gap ∈ gaps root) :
    gap.start = root.start ∨ ∃ c ∈ root.children, gap.start = c.stop + 1 := by
  obtain ⟨start, rest, heq, hsiblings, hcase⟩ := h.gaps_eq
  rw [heq] at hgap
  rcases hcase with ⟨rfl, rfl⟩ | ⟨first, -, hzero, hchildren, rfl⟩
  · exact Resource.gap_start hgap
  · rw [hchildren]
    rcases Resource.gap_start hgap with hstart | ⟨c, hc, hstart⟩
    · exact Or.inr ⟨first, List.mem_cons_self, hstart⟩
    · exact Or.inr ⟨c, List.mem_cons_of_mem _ hc, hstart⟩

end AndroidKernel.Resource
