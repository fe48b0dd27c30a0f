import AndroidKernel.Resource.Search

/-!
# When allocation is right

`allocate_resource` returns a range that fits whenever one of two addresses or more fits. It
misses a request for one address where every gap has room for only one, and it returns a range
below the lower bound when aligning the start of a gap wraps to 0.
-/

namespace AndroidKernel.Resource

open Library

/-- A range of `n` addresses from `s` on answers the request: it is aligned, inside the bounds and
the resource, and clear of its children. -/
structure Free (root : Resource) (req : Request) (s n : Nat) : Prop where
  aligned : req.align ∣ s
  low : req.min ≤ s
  high : s + n ≤ req.max + 1
  above : root.start ≤ s
  below : s + n ≤ root.stop + 1
  apart : ∀ c ∈ root.children, c.stop < s ∨ s + n ≤ c.start

/-- What a caller is promised: a range as asked for, or that there is none. -/
structure Answers (width : Nat) (root new : Resource) (req : Request) : Prop where
  sound : (allocateResource width root new req).err = 0 →
    Free root req (allocateResource width root new req).new.start req.size ∧
      (allocateResource width root new req).new.stop + 1 =
        (allocateResource width root new req).new.start + req.size
  complete : (allocateResource width root new req).err = ebusy → ¬∃ s, Free root req s req.size

/-- There is room for the request, and for two addresses at least. -/
def Roomy (root : Resource) (req : Request) : Prop :=
  ∃ s, Free root req s (max req.size 2)

/-- A gap begins, or the lower bound lies, above the last multiple of the alignment, and the gap
ends high enough that a range from 0 on seems to fit before its end. -/
def Wraps (width : Nat) (root : Resource) (req : Request) : Prop :=
  ∃ gap ∈ gaps root, 2 ^ width < max (gap.start % 2 ^ width) req.min + req.align ∧
    max 1 (req.size - 1) ≤ min gap.stop req.max

/-- The resource begins at 0, and as many addresses as asked for are free there. -/
def LowFree (root : Resource) (req : Request) : Prop :=
  root.start = 0 ∧ req.size ≤ root.stop + 1 ∧ ∀ c ∈ root.children, req.size ≤ c.start

/-- A child ends with the last word, and the least multiple from the lower bound on is free and
below the upper bound. -/
def FreeAtBound (width : Nat) (root : Resource) (req : Request) : Prop :=
  (∃ c ∈ root.children, c.stop + 1 = 2 ^ width) ∧
    align width req.min req.align < req.max ∧
      Free root req (align width req.min req.align) req.size

variable {width s n : Nat} {root new : Resource} {rest : List Resource} {req : Request} {gap : Gap}

/-! ## Linking the new resource -/

/-- The siblings let the new range in when none of them meets it. -/
theorem linkNew_ok_iff (new : Resource)
    (hrest : rest.Pairwise fun first second => first.stop < second.start)
    (hle : ∀ c ∈ rest, c.start ≤ c.stop) :
    (∃ children, linkNew new rest = .ok children) ↔
      ∀ c ∈ rest, c.stop < new.start ∨ new.stop < c.start := by
  induction rest with
  | nil => exact ⟨fun _ c hc => absurd hc List.not_mem_nil, fun _ => ⟨[new], rfl⟩⟩
  | cons tmp rest ih =>
    obtain ⟨hfirst, hrest⟩ := List.pairwise_cons.mp hrest
    have htmp := hle tmp List.mem_cons_self
    have ih := ih hrest fun c hc => hle c (List.mem_cons_of_mem _ hc)
    rw [List.forall_mem_cons, ← ih, linkNew]
    split_ifs with hafter hbefore
    · refine ⟨fun _ => ⟨Or.inr hafter, ?_⟩, fun _ => ⟨_, rfl⟩⟩
      rw [ih]
      intro c hc
      have := hfirst c hc
      exact Or.inr (by omega)
    · constructor
      · rintro ⟨children, hlink⟩
        cases hok : linkNew new rest with
        | ok linked => exact ⟨Or.inl hbefore, linked, rfl⟩
        | error other => simp [hok, Except.map] at hlink
      · rintro ⟨-, linked, hok⟩
        exact ⟨tmp :: linked, by rw [hok]; rfl⟩
    · constructor
      · rintro ⟨children, hlink⟩
        cases hlink
      · rintro ⟨hor, -⟩
        omega

/-- A request succeeds for a range inside the resource that is clear of its children. -/
theorem requestResource_linked_iff (new : Resource) (h : WellFormed width root) :
    (∃ linked, requestResource root new = .linked linked) ↔
      new.start ≤ new.stop ∧ root.start ≤ new.start ∧ new.stop ≤ root.stop ∧
        ∀ c ∈ root.children, c.stop < new.start ∨ new.stop < c.start := by
  unfold requestResource
  split_ifs with hempty hbelow habove
  · exact ⟨fun ⟨_, hl⟩ => (nomatch hl), fun hnew => by omega⟩
  · exact ⟨fun ⟨_, hl⟩ => (nomatch hl), fun hnew => by omega⟩
  · exact ⟨fun ⟨_, hl⟩ => (nomatch hl), fun hnew => by omega⟩
  have hlink := linkNew_ok_iff new h.ordered fun c hc => h.child_le hc
  cases hresult : linkNew new root.children with
  | ok children =>
    refine ⟨fun _ => ⟨by omega, by omega, by omega, hlink.mp ⟨children, hresult⟩⟩, fun _ => ?_⟩
    exact ⟨_, rfl⟩
  | error tmp =>
    refine ⟨fun ⟨_, hl⟩ => (nomatch hl), fun hnew => ?_⟩
    obtain ⟨children, hok⟩ := hlink.mpr hnew.2.2.2
    rw [hresult] at hok
    cases hok

/-! ## Candidates -/

theorem candidate_eq (req : Request) (width : Nat) (gap : Gap) :
    req.candidate width gap = align width (max (gap.start % 2 ^ width) req.min) req.align := by
  unfold Request.candidate Request.alignedStart
  split_ifs with hlow
  · rw [max_eq_right hlow.le]
  · rw [max_eq_left (by omega)]

theorem clippedStop_eq (req : Request) (stop : Nat) : req.clippedStop stop = min stop req.max := by
  unfold Request.clippedStop
  split_ifs with hhigh
  · rw [min_eq_right hhigh.le]
  · rw [min_eq_left (by omega)]

theorem accepts_iff : req.Accepts width gap ↔
    req.candidate width gap < min gap.stop req.max ∧
      req.candidate width gap + req.size ≤ min gap.stop req.max + 1 := by
  unfold Request.Accepts Request.Fits
  rw [clippedStop_eq]
  omega

theorem candidate_dvd (hv : req.Valid width) : req.align ∣ req.candidate width gap := by
  obtain ⟨k, hk, hpow⟩ := hv.align
  rw [candidate_eq, hpow]
  exact align_dvd hk.le

/-- The part of a gap inside the bounds from a multiple on is free. -/
theorem WellFormed.free_in_gap (h : WellFormed width root) (hgap : gap ∈ gaps root)
    (hdvd : req.align ∣ s) (hlow : req.min ≤ s) (hstart : gap.start ≤ s)
    (hstop : s + n ≤ min gap.stop req.max + 1) : Free root req s n := by
  obtain ⟨habove, hbelow, hapart⟩ := h.gap_apart hgap
  refine ⟨hdvd, hlow, by omega, by omega, by omega, fun c hc => ?_⟩
  rcases hapart c hc with hbefore | hafter <;> omega

/-- Where aligning does not wrap, the candidate is the least multiple in the gap and the bounds. -/
theorem candidate_ge (hv : req.Valid width)
    (hwrap : max (gap.start % 2 ^ width) req.min + req.align ≤ 2 ^ width) :
    gap.start % 2 ^ width ≤ req.candidate width gap ∧ req.min ≤ req.candidate width gap := by
  obtain ⟨k, hk, hpow⟩ := hv.align
  rw [hpow] at hwrap
  have hle := le_align hk.le hwrap
  rw [candidate_eq, hpow]
  omega

theorem candidate_le (hv : req.Valid width) (hdvd : req.align ∣ s) (hlow : req.min ≤ s)
    (hstart : gap.start ≤ s) : req.candidate width gap ≤ s := by
  obtain ⟨k, hk, hpow⟩ := hv.align
  rw [candidate_eq, hpow]
  rw [hpow] at hdvd
  have hmod : gap.start % 2 ^ width ≤ gap.start := Nat.mod_le _ _
  exact align_le hk.le hdvd (by omega)

theorem candidate_eq_zero (hv : req.Valid width)
    (hwrap : 2 ^ width < max (gap.start % 2 ^ width) req.min + req.align) :
    req.candidate width gap = 0 := by
  obtain ⟨k, hk, hpow⟩ := hv.align
  have hmin := hv.bounds.trans_lt hv.maxWord
  have hmod : gap.start % 2 ^ width < 2 ^ width := Nat.mod_lt _ (Nat.two_pow_pos width)
  rw [candidate_eq, hpow]
  rw [hpow] at hwrap
  exact align_eq_zero hk.le (by omega) hwrap

/-- An accepted gap that begins at a word and where aligning does not wrap gives room. -/
theorem WellFormed.roomy_of_accepts (h : WellFormed width root) (hv : req.Valid width)
    (hgap : gap ∈ gaps root) (haccepts : req.Accepts width gap) (hword : gap.start < 2 ^ width)
    (hwrap : max (gap.start % 2 ^ width) req.min + req.align ≤ 2 ^ width) : Roomy root req := by
  obtain ⟨hstart, hlow⟩ := candidate_ge hv hwrap
  obtain ⟨hlt, hsize⟩ := accepts_iff.mp haccepts
  rw [Nat.mod_eq_of_lt hword] at hstart
  exact ⟨_, h.free_in_gap hgap (candidate_dvd hv) hlow hstart (by omega)⟩

/-- Room for the request in a gap makes the gap accepted. -/
theorem accepts_of_free (hv : req.Valid width) (hfree : Free root req s n)
    (hn : max req.size 2 ≤ n) (hstart : gap.start ≤ s) (hstop : s + n ≤ gap.stop + 1) :
    req.Accepts width gap := by
  have hle := candidate_le hv hfree.aligned hfree.low hstart
  have hhigh := hfree.high
  exact accepts_iff.mpr ⟨by omega, by omega⟩

/-! ## The first accepted gap -/

/-- Some gap is the first accepted one, and every accepted gap lies after it. -/
theorem WellFormed.exists_first (h : WellFormed width root) (hgap : gap ∈ gaps root)
    (haccepts : req.Accepts width gap) :
    ∃ pre first post, gaps root = pre ++ first :: post ∧ (∀ g ∈ pre, ¬req.Accepts width g) ∧
      req.Accepts width first ∧ first.start ≤ gap.start := by
  cases hfind : (gaps root).find? (req.Accepts width ·) with
  | none =>
    have hnone := List.find?_eq_none.mp hfind gap hgap
    exact absurd (decide_eq_true haccepts) hnone
  | some first =>
    obtain ⟨hfirst, pre, post, heq, hpre⟩ := List.find?_eq_some_iff_append.mp hfind
    have hpre : ∀ g ∈ pre, ¬req.Accepts width g := fun g hg => by simpa using hpre g hg
    refine ⟨pre, first, post, heq, hpre, of_decide_eq_true hfirst, ?_⟩
    have hordered := h.gaps_ordered
    rw [heq] at hgap hordered
    rcases List.mem_append.mp hgap with hbefore | hafter
    · exact absurd haccepts (hpre gap hbefore)
    · rcases List.mem_cons.mp hafter with rfl | hafter
      · exact le_rfl
      · exact ((List.pairwise_cons.mp (List.pairwise_append.mp hordered).2.1).1 gap hafter).le

/-- Without an accepted gap the search fails. -/
theorem WellFormed.allocate_of_none (h : WellFormed width root)
    (hnone : ∀ g ∈ gaps root, ¬req.Accepts width g) :
    (allocateResource width root new req).err = ebusy := by
  obtain ⟨start, rest, hgaps, hfind⟩ := h.findResource_eq req
  rw [hgaps] at hnone
  have herr := findLoop_eq hnone
  rw [← hfind] at herr
  unfold allocateResource
  rw [if_neg (by rw [herr]; decide)]
  exact herr

/-- The addresses from `s` on that the request asks for are in the resource and clear of its
children. -/
def Clear (root : Resource) (req : Request) (s : Nat) : Prop :=
  root.start ≤ s ∧ s + req.size ≤ root.stop + 1 ∧
    ∀ c ∈ root.children, c.stop < s ∨ s + req.size ≤ c.start

/-- With a first accepted gap the result is its candidate, if the tree lets it in. -/
theorem WellFormed.allocate_of_accepts (h : WellFormed width root) (new : Resource) (hv : req.Valid width)
    {pre post : List Gap} (hgaps : gaps root = pre ++ gap :: post)
    (hpre : ∀ g ∈ pre, ¬req.Accepts width g) (haccepts : req.Accepts width gap) :
    (Clear root req (req.candidate width gap) →
      (allocateResource width root new req).err = 0 ∧
        (allocateResource width root new req).new.start = req.candidate width gap ∧
        (allocateResource width root new req).new.stop + 1 =
          req.candidate width gap + req.size) ∧
    (¬Clear root req (req.candidate width gap) →
      (allocateResource width root new req).err = ebusy) := by
  obtain ⟨start, rest, hfrom, hfind⟩ := h.findResource_eq req
  rw [hfrom] at hgaps
  rw [findLoop_of_accepts hgaps hpre haccepts] at hfind
  have hsize := hv.size
  have hlinked := requestResource_linked_iff (.mk (req.candidate width gap)
    (req.candidate width gap + req.size - 1) new.children) h
  unfold allocateResource
  simp only [hfind]
  simp only [Resource.start, Resource.stop] at hlinked
  cases hrequest : requestResource root (.mk (req.candidate width gap)
      (req.candidate width gap + req.size - 1) new.children) with
  | linked root' =>
    obtain ⟨-, habove, hbelow, hapart⟩ := hlinked.mp ⟨root', hrequest⟩
    refine ⟨fun _ => ⟨rfl, rfl, ?_⟩, fun hnot => absurd ⟨habove, ?_, fun c hc => ?_⟩ hnot⟩
    · show req.candidate width gap + req.size - 1 + 1 = _
      omega
    · unfold Resource.stop
      omega
    · rcases hapart c hc with hbefore | hafter
      · exact Or.inl hbefore
      · exact Or.inr (by show _ ≤ c.start; unfold Resource.start; omega)
  | conflict other =>
    refine ⟨fun ⟨habove, hbelow, hapart⟩ => ?_, fun _ => rfl⟩
    have hnone : ¬∃ linked, requestResource root (.mk (req.candidate width gap)
        (req.candidate width gap + req.size - 1) new.children) = .linked linked := by
      rintro ⟨linked, hl⟩
      rw [hrequest] at hl
      cases hl
    exact absurd (hlinked.mpr ⟨by omega, habove, by change _ ≤ root.stop; omega, fun c hc => by
      rcases hapart c hc with hbefore | hafter
      · exact Or.inl hbefore
      · exact Or.inr (by change _ < c.start; omega)⟩) hnone

/-- A first accepted candidate that the tree lets in is right when it is not below the lower
bound. -/
theorem WellFormed.answers_of_clear (h : WellFormed width root) (hv : req.Valid width)
    {pre post : List Gap} (hgaps : gaps root = pre ++ gap :: post)
    (hpre : ∀ g ∈ pre, ¬req.Accepts width g) (haccepts : req.Accepts width gap)
    (hclear : Clear root req (req.candidate width gap)) :
    Answers width root new req ↔ req.min ≤ req.candidate width gap := by
  obtain ⟨herr, hstart, hstop⟩ := (h.allocate_of_accepts new hv hgaps hpre haccepts).1
    hclear
  constructor
  · intro hanswers
    have hfree := (hanswers.sound herr).1
    rw [hstart] at hfree
    exact hfree.low
  · intro hlow
    refine ⟨fun _ => ⟨?_, by rw [hstart]; exact hstop⟩, fun hbusy => ?_⟩
    · rw [hstart]
      have hfits := (accepts_iff.mp haccepts).2
      exact ⟨candidate_dvd hv, hlow, by omega, hclear.1, hclear.2.1, hclear.2.2⟩
    · rw [herr] at hbusy
      cases hbusy

/-- A failing call is right when nothing fits. -/
theorem answers_of_busy (hbusy : (allocateResource width root new req).err = ebusy) :
    Answers width root new req ↔ ¬∃ s, Free root req s req.size := by
  refine ⟨fun hanswers => hanswers.complete hbusy, fun hnone => ⟨fun herr => ?_, fun _ => hnone⟩⟩
  rw [hbusy] at herr
  cases herr

/-! ## The exact condition -/

/-- Room for the request makes the answer right. -/
theorem WellFormed.answers_of_roomy (h : WellFormed width root) (hv : req.Valid width)
    (hroomy : Roomy root req) : Answers width root new req := by
  obtain ⟨s, hfree⟩ := hroomy
  have hroot := h.word
  obtain ⟨g, hg, hstart, hstop⟩ :=
    h.exists_gap (by omega) hfree.above hfree.below hfree.apart
  obtain ⟨pre, first, post, hgaps, hpre, haccepts, hle⟩ :=
    h.exists_first hg (accepts_of_free hv hfree le_rfl hstart hstop)
  have hbelow := hfree.below
  have hword : first.start < 2 ^ width := by omega
  -- the free range is a multiple above the gap's start, so aligning does not wrap
  have hwrap : max (first.start % 2 ^ width) req.min + req.align ≤ 2 ^ width := by
    obtain ⟨k, hk, hpow⟩ := hv.align
    have hdvd := hfree.aligned
    have hlow := hfree.low
    rw [hpow] at hdvd ⊢
    have hroom := add_le_of_dvd hk.le hdvd (by omega)
    rw [Nat.mod_eq_of_lt hword]
    omega
  obtain ⟨hfrom, hlow⟩ := candidate_ge hv hwrap
  have hfits := (accepts_iff.mp haccepts).2
  have hmem : first ∈ gaps root := by
    rw [hgaps]
    exact List.mem_append_right _ List.mem_cons_self
  rw [Nat.mod_eq_of_lt hword] at hfrom
  have hfree' : Free root req (req.candidate width first) req.size :=
    h.free_in_gap hmem (candidate_dvd hv) hlow hfrom hfits
  exact (h.answers_of_clear hv hgaps hpre haccepts ⟨hfree'.above, hfree'.below, hfree'.apart⟩).mpr
    hlow

/-- No gap begins after the address past the last word. -/
theorem WellFormed.gap_start_le (h : WellFormed width root) (hgap : gap ∈ gaps root) :
    gap.start ≤ 2 ^ width := by
  have hroot := h.word
  have hle := h.le
  rcases h.gap_start hgap with heq | ⟨c, hc, heq⟩
  · omega
  · have hinside := (h.inside hc).2
    omega

/-- Without room, an accepted gap wraps or begins past the last word. -/
theorem WellFormed.accepts_cases (h : WellFormed width root) (hv : req.Valid width)
    (hroomy : ¬Roomy root req) (hgap : gap ∈ gaps root) (haccepts : req.Accepts width gap) :
    2 ^ width < max (gap.start % 2 ^ width) req.min + req.align ∨ gap.start = 2 ^ width := by
  by_contra hneither
  obtain ⟨hwrap, hstart⟩ := not_or.mp hneither
  have hword := h.gap_start_le hgap
  exact hroomy (h.roomy_of_accepts hv hgap haccepts (by omega) (by omega))

/-- The candidate of a gap past the last word is the aligned lower bound. -/
theorem candidate_past (hstart : gap.start = 2 ^ width) :
    req.candidate width gap = align width req.min req.align := by
  rw [candidate_eq, hstart, Nat.mod_self, Nat.zero_max]

/-- Without room and with a gap that wraps, the result is the range from 0 on or a failure. -/
theorem WellFormed.answers_of_wraps (h : WellFormed width root) (new : Resource) (hv : req.Valid width)
    (hroomy : ¬Roomy root req) (hwraps : Wraps width root req) :
    (LowFree root req → (Answers width root new req ↔ req.min = 0)) ∧
      (¬LowFree root req → (Answers width root new req ↔ ¬∃ s, Free root req s req.size)) := by
  obtain ⟨g, hg, hwrap, hfits⟩ := hwraps
  have hsize := hv.size
  have hzero := candidate_eq_zero hv hwrap
  have hg' : req.Accepts width g := by
    rw [accepts_iff, hzero]
    omega
  obtain ⟨pre, first, post, hgaps, hpre, haccepts, hle⟩ := h.exists_first hg hg'
  have hmem : first ∈ gaps root := by
    rw [hgaps]
    exact List.mem_append_right _ List.mem_cons_self
  -- the first accepted gap wraps as well
  have hfirst : req.candidate width first = 0 := by
    rcases h.accepts_cases hv hroomy hmem haccepts with hwrap' | hpast
    · exact candidate_eq_zero hv hwrap'
    · have hg : g.start = 2 ^ width := le_antisymm (h.gap_start_le hg) (hpast ▸ hle)
      rw [candidate_past hpast, ← candidate_past hg, hzero]
  have hclear : Clear root req 0 ↔ LowFree root req := by
    simp only [Clear, LowFree, Nat.zero_add, Nat.le_zero, Nat.not_lt_zero, false_or]
  have hallocate := h.allocate_of_accepts new hv hgaps hpre haccepts
  rw [hfirst, hclear] at hallocate
  refine ⟨fun hlow => ?_, fun hnot => answers_of_busy (hallocate.2 hnot)⟩
  rw [h.answers_of_clear hv hgaps hpre haccepts (by rw [hfirst, hclear]; exact hlow), hfirst,
    Nat.le_zero]

/-- Without room and without a gap that wraps, only a gap past the last word can help. -/
theorem WellFormed.answers_of_not_wraps (h : WellFormed width root) (hv : req.Valid width)
    (hroomy : ¬Roomy root req) (hwraps : ¬Wraps width root req) :
    Answers width root new req ↔
      FreeAtBound width root req ∨ ¬∃ s, Free root req s req.size := by
  have hsize := hv.size
  -- an accepted gap begins past the last word
  have hpast : ∀ g ∈ gaps root, req.Accepts width g → g.start = 2 ^ width := by
    intro g hg hg'
    rcases h.accepts_cases hv hroomy hg hg' with hwrap | hpast
    · obtain ⟨hlt, hfits⟩ := accepts_iff.mp hg'
      have hzero := candidate_eq_zero hv hwrap
      exact absurd ⟨g, hg, hwrap, by omega⟩ hwraps
    · exact hpast
  by_cases hany : ∃ g ∈ gaps root, req.Accepts width g
  · obtain ⟨g, hg, hg'⟩ := hany
    obtain ⟨pre, first, post, hgaps, hpre, haccepts, -⟩ := h.exists_first hg hg'
    have hmem : first ∈ gaps root := by
      rw [hgaps]
      exact List.mem_append_right _ List.mem_cons_self
    have hstart := hpast first hmem haccepts
    have hcandidate : req.candidate width first = align width req.min req.align :=
      candidate_past hstart
    obtain ⟨hlt, hfits⟩ := accepts_iff.mp haccepts
    by_cases hclear : Clear root req (req.candidate width first)
    · rw [h.answers_of_clear hv hgaps hpre haccepts hclear]
      have hwrap : max (first.start % 2 ^ width) req.min + req.align ≤ 2 ^ width := by
        by_contra hwrap
        have hzero := candidate_eq_zero hv (not_le.mp hwrap)
        exact hwraps ⟨first, hmem, not_le.mp hwrap, by omega⟩
      have hlow := (candidate_ge hv hwrap).2
      refine iff_of_true hlow (Or.inl ⟨?_, ?_, ?_⟩)
      · rcases h.gap_start hmem with heq | ⟨c, hc, heq⟩
        · have hroot := h.word
          have hroot' := h.le
          omega
        · exact ⟨c, hc, by omega⟩
      · omega
      · rw [← hcandidate]
        exact ⟨candidate_dvd hv, hlow, by omega, hclear.1, hclear.2.1, hclear.2.2⟩
    · rw [answers_of_busy ((h.allocate_of_accepts new hv hgaps hpre haccepts).2 hclear)]
      refine ⟨Or.inr, fun hor => hor.resolve_left fun ⟨_, _, hfree⟩ => hclear ?_⟩
      rw [hcandidate]
      exact ⟨hfree.above, hfree.below, hfree.apart⟩
  have hnone : ∀ g ∈ gaps root, ¬req.Accepts width g := fun g hg hg' => hany ⟨g, hg, hg'⟩
  rw [answers_of_busy (h.allocate_of_none hnone)]
  refine ⟨Or.inr, fun hor => hor.resolve_left fun ⟨⟨c, hc, hlast⟩, hlt, hfree⟩ => hany ?_⟩
  obtain ⟨g, hg, hstop⟩ := h.last_gap
  have hroot := h.word
  have hinside := (h.inside hc).2
  have hc' := h.child_le hc
  have hstart : g.start = 2 ^ width := by
    rcases (h.gap_apart hg).2.2 c hc with hbefore | hafter
    · have hle := h.gap_start_le hg
      omega
    · omega
  refine ⟨g, hg, accepts_iff.mpr ?_⟩
  rw [candidate_past hstart, hstop]
  have hhigh := hfree.high
  have hbelow := hfree.below
  rcases hfree.apart c hc with hbefore | hafter <;> omega

/-- A call is right exactly when there is room for it and for two addresses at least, or no range
fits and no candidate from 0 on is let in, or a wrapped candidate happens to be right. -/
theorem allocate_resource_answers_iff (width : Nat) (root new : Resource) (req : Request)
    (h : WellFormed width root) (hv : req.Valid width) :
    Answers width root new req ↔
      Roomy root req ∨
        (¬(Wraps width root req ∧ LowFree root req) ∧ ¬∃ s, Free root req s req.size) ∨
        (Wraps width root req ∧ LowFree root req ∧ req.min = 0) ∨
        (¬Wraps width root req ∧ FreeAtBound width root req) := by
  by_cases hroomy : Roomy root req
  · exact iff_of_true (h.answers_of_roomy hv hroomy) (Or.inl hroomy)
  by_cases hwraps : Wraps width root req
  · obtain ⟨hlow, hnot⟩ := h.answers_of_wraps new hv hroomy hwraps
    by_cases hfree : LowFree root req
    · simp only [hlow hfree, hroomy, hwraps, hfree, and_self, not_true_eq_false, false_and,
        true_and, false_or, or_false]
    · simp only [hnot hfree, hroomy, hwraps, hfree, and_false, not_false_eq_true, true_and,
        false_and, not_true_eq_false, false_or, or_false]
  · rw [h.answers_of_not_wraps hv hroomy hwraps]
    simp only [hroomy, hwraps, false_and, not_false_eq_true, true_and, false_or]
    exact or_comm

/-! ## Failing inputs -/

/-- Ports with two devices and one free address between them. -/
def twoDevices : Resource :=
  .mk 0 0xFFFF [.mk 0 0x1F [], .mk 0x21 0xFFFF []]

/-- A request for one port. -/
def onePort : Request := ⟨1, 0, 0xFFFF, 1⟩

theorem twoDevices_wellFormed : WellFormed 32 twoDevices := by
  refine .mk (by decide) (by decide) ?_ ?_ ?_
  · decide
  · decide
  · intro child hchild
    simp only [List.mem_cons, List.not_mem_nil, or_false] at hchild
    rcases hchild with rfl | rfl
    · exact .mk (by decide) (by decide) (by simp) List.Pairwise.nil (by simp)
    · exact .mk (by decide) (by decide) (by simp) List.Pairwise.nil (by simp)

theorem onePort_valid : onePort.Valid 32 where
  size := by decide
  sizeWord := by decide
  bounds := by decide
  maxWord := by decide
  align := ⟨0, by decide, rfl⟩

/-- The free port is not found. -/
theorem one_port_missed :
    ¬∀ (width : Nat) (root new : Resource) (req : Request), WellFormed width root →
      req.Valid width → Answers width root new req := by
  intro hall
  have hanswers := hall 32 twoDevices (.mk 0 0 []) onePort twoDevices_wellFormed onePort_valid
  refine hanswers.complete (by decide) ⟨0x20, ?_⟩
  exact ⟨by decide, by decide, by decide, by decide, by decide, by decide⟩

/-- The condition on one request that finds room. -/
theorem allocate_resource_answers_iff_ports :
    Answers 32 twoDevices (.mk 0 0 []) onePort ↔
      Roomy twoDevices onePort ∨
        (¬(Wraps 32 twoDevices onePort ∧ LowFree twoDevices onePort) ∧
          ¬∃ s, Free twoDevices onePort s onePort.size) ∨
        (Wraps 32 twoDevices onePort ∧ LowFree twoDevices onePort ∧ onePort.min = 0) ∨
        (¬Wraps 32 twoDevices onePort ∧ FreeAtBound 32 twoDevices onePort) :=
  allocate_resource_answers_iff 32 twoDevices (.mk 0 0 []) onePort twoDevices_wellFormed
    onePort_valid

end AndroidKernel.Resource
