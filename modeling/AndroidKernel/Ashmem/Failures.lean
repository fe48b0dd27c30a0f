import AndroidKernel.Ashmem.Runs

/-!
# When a range cannot be allocated

`ashmem_unpin` deletes the ranges it merges before it allocates their union, and `ashmem_pin`
does not look at whether the upper half of a split range was allocated. This file settles, for
every state that any run reaches, which requests survive a failed `range_alloc` without losing
pages. The lists of such states need not be well formed: they may hold empty ranges behind the
end of the area. What every run keeps is that the ranges are `Ordered`.
-/

namespace AndroidKernel.Ashmem

open Library

variable {asma pgstart pgend : Nat}

/-- Ranges in decreasing order, some of them possibly empty. -/
def Ordered (ranges : List Range) : Prop :=
  (∀ range ∈ ranges, range.pgstart ≤ range.pgend + 1) ∧
    ranges.Pairwise (fun above below => below.pgend < above.pgstart)

theorem ordered_nil : Ordered [] :=
  ⟨by simp, .nil⟩

theorem ordered_cons {range : Range} {ranges : List Range} :
    Ordered (range :: ranges) ↔ range.pgstart ≤ range.pgend + 1 ∧
      (∀ below ∈ ranges, below.pgend < range.pgstart) ∧ Ordered ranges := by
  simp only [Ordered, List.forall_mem_cons, List.pairwise_cons]
  tauto

theorem ordered_append {first second : List Range} :
    Ordered (first ++ second) ↔ Ordered first ∧ Ordered second ∧
      ∀ above ∈ first, ∀ below ∈ second, below.pgend < above.pgstart := by
  simp only [Ordered, List.forall_mem_append, List.pairwise_append]
  tauto

theorem Ordered.sublist {ranges rest : List Range} (h : Ordered ranges)
    (hsub : rest.Sublist ranges) : Ordered rest :=
  ⟨fun range hmem => h.1 range (hsub.subset hmem), h.2.sublist hsub⟩

/-- The pages of a shorter list are pages of the list. -/
theorem pages_of_sublist {keep : Bool → Bool} {ranges rest : List Range}
    (hsub : rest.Sublist ranges) : pagesOf keep rest ⊆ pagesOf keep ranges := by
  intro page hpage
  obtain ⟨range, hmem, hin⟩ := mem_pages_of.mp hpage
  exact mem_pages_of.mpr ⟨range, hsub.subset hmem, hin⟩

/-! ## Pinning -/

/-- One iteration of `ashmem_pin` puts pieces of the range in its place and goes on or stops.
Unless the range holds the request strictly, the pieces keep its pages outside the request. -/
theorem pin_iteration (alloc : Bool) (asma : Nat) (lru : Lru) {range : Range} (next : List Range)
    (hloose : pgstart ≤ pgend + 1) (hrange : range.pgstart ≤ range.pgend + 1) :
    ∃ lru' pieces rest,
      (ashmemPin alloc asma pgstart pgend lru (range :: next)).1 = pieces ++ rest ∧
      (rest = next ∨ rest = (ashmemPin alloc asma pgstart pgend lru' next).1) ∧
      Ordered pieces ∧
      (∀ piece ∈ pieces, range.pgstart ≤ piece.pgstart ∧ piece.pgend ≤ range.pgend ∧
        piece.purged = range.purged) ∧
      (¬ (range.pgstart < pgstart ∧ pgend < range.pgend) → ∀ page ∉ Set.Icc pgstart pgend,
        (range.pgstart ≤ page ∧ page ≤ range.pgend) →
          ∃ piece ∈ pieces, piece.pgstart ≤ page ∧ page ≤ piece.pgend) := by
  have hself : Ordered [range] := ordered_cons.mpr ⟨hrange, by simp, ordered_nil⟩
  simp only [ashmemPin, rangeBeforePage, pageRangeInRange, pageInRange, pageRangeSubsumesRange,
    Bool.or_eq_true, Bool.and_eq_true, decide_eq_true_eq, Set.mem_Icc]
  split_ifs with hbefore hover hsubsume hstart hend
  · exact ⟨lru, [range], next, rfl, .inl rfl, hself, by simp, by simp⟩
  · exact ⟨_, [], _, rfl, .inr rfl, ordered_nil, by simp, by simp; omega⟩
  · refine ⟨_, [(rangeShrink range (pgend + 1) range.pgend lru).1], _, rfl, .inr rfl, ?_, ?_, ?_⟩
    · exact ordered_cons.mpr ⟨by simp [rangeShrink]; omega, by simp, ordered_nil⟩
    · simp [rangeShrink]; omega
    · simp [rangeShrink]; omega
  · refine ⟨_, [(rangeShrink range range.pgstart (pgstart - 1) lru).1], _, rfl, .inr rfl,
      ?_, ?_, ?_⟩
    · exact ordered_cons.mpr ⟨by simp [rangeShrink]; omega, by simp, ordered_nil⟩
    · simp [rangeShrink]; omega
    · simp [rangeShrink]; omega
  · have hlower : Ordered [(rangeShrink range range.pgstart (pgstart - 1) lru).1] :=
      ordered_cons.mpr ⟨by simp [rangeShrink]; omega, by simp, ordered_nil⟩
    cases alloc with
    | true =>
      refine ⟨lru, [⟨lru.nextRange, pgend + 1, range.pgend, range.purged⟩,
        (rangeShrink range range.pgstart (pgstart - 1) lru).1], next, rfl, .inl rfl, ?_, ?_, ?_⟩
      · exact ordered_cons.mpr ⟨by simp; omega, by simp [rangeShrink]; omega, hlower⟩
      · simp [rangeShrink]; omega
      · omega
    | false =>
      refine ⟨lru, [(rangeShrink range range.pgstart (pgstart - 1) lru).1], next, rfl, .inl rfl,
        hlower, ?_, ?_⟩
      · simp [rangeShrink]; omega
      · omega
  · exact ⟨lru, [range], _, rfl, .inr rfl, hself, by simp, by simp⟩

/-- Every range that a pin leaves lies inside one that was there, with the same flag. -/
theorem pin_inside {alloc : Bool} {lru : Lru} {ranges : List Range} {range : Range}
    (hloose : pgstart ≤ pgend + 1) (hranges : Ordered ranges)
    (hmem : range ∈ (ashmemPin alloc asma pgstart pgend lru ranges).1) :
    ∃ old ∈ ranges, old.pgstart ≤ range.pgstart ∧ range.pgend ≤ old.pgend ∧
      range.purged = old.purged := by
  induction ranges generalizing lru with
  | nil => simp [ashmemPin] at hmem
  | cons first next ih =>
    obtain ⟨hfirst, -, hnext⟩ := ordered_cons.mp hranges
    obtain ⟨lru', pieces, rest, hlist, hrest, -, hwithin, -⟩ :=
      pin_iteration alloc asma lru next hloose hfirst
    rw [hlist, List.mem_append] at hmem
    rcases hmem with hmem | hmem
    · exact ⟨first, by simp, hwithin range hmem⟩
    · rcases hrest with rfl | rfl
      · exact ⟨range, List.mem_cons_of_mem _ hmem, le_rfl, le_rfl, rfl⟩
      · obtain ⟨old, hold, hin⟩ := ih hnext hmem
        exact ⟨old, List.mem_cons_of_mem _ hold, hin⟩

/-- Pinning keeps the ranges ordered, whether or not a range can be allocated. -/
theorem pin_ordered {alloc : Bool} {lru : Lru} {ranges : List Range}
    (hloose : pgstart ≤ pgend + 1) (hranges : Ordered ranges) :
    Ordered (ashmemPin alloc asma pgstart pgend lru ranges).1 := by
  induction ranges generalizing lru with
  | nil => exact ordered_nil
  | cons first next ih =>
    obtain ⟨hfirst, hbelow, hnext⟩ := ordered_cons.mp hranges
    obtain ⟨lru', pieces, rest, hlist, hrest, hpieces, hwithin, -⟩ :=
      pin_iteration alloc asma lru next hloose hfirst
    have hold : ∀ range ∈ rest, ∃ old ∈ next, range.pgend ≤ old.pgend := by
      intro range hmem
      rcases hrest with rfl | rfl
      · exact ⟨range, hmem, le_rfl⟩
      · obtain ⟨old, hold, -, hhi, -⟩ := pin_inside hloose hnext hmem
        exact ⟨old, hold, hhi⟩
    rw [hlist]
    refine ordered_append.mpr ⟨hpieces, ?_, fun piece hpiece range hmem => ?_⟩
    · rcases hrest with rfl | rfl
      · exact hnext
      · exact ih hnext
    · obtain ⟨old, hmemOld, hhi⟩ := hold range hmem
      exact hhi.trans_lt ((hbelow old hmemOld).trans_le (hwithin piece hpiece).1)

/-- A pin that splits no range keeps every page outside its request. -/
theorem pin_keeps_outside {alloc : Bool} {lru : Lru} {ranges : List Range} (keep : Bool → Bool)
    (hloose : pgstart ≤ pgend + 1) (hranges : Ordered ranges)
    (hsplit : ∀ range ∈ ranges, ¬ (range.pgstart < pgstart ∧ pgend < range.pgend))
    {page : Nat} (hpage : page ∉ Set.Icc pgstart pgend) :
    page ∈ pagesOf keep (ashmemPin alloc asma pgstart pgend lru ranges).1 ↔
      page ∈ pagesOf keep ranges := by
  constructor
  · intro hmem
    obtain ⟨range, hrange, hkeep, hlo, hhi⟩ := mem_pages_of.mp hmem
    obtain ⟨old, hold, hlo', hhi', hpurged⟩ := pin_inside hloose hranges hrange
    exact mem_pages_of.mpr ⟨old, hold, hpurged ▸ hkeep, hlo'.trans hlo, hhi.trans hhi'⟩
  induction ranges generalizing lru with
  | nil => simp
  | cons first next ih =>
    obtain ⟨hfirst, -, hnext⟩ := ordered_cons.mp hranges
    obtain ⟨hsplitFirst, hsplitNext⟩ := List.forall_mem_cons.mp hsplit
    obtain ⟨lru', pieces, rest, hlist, hrest, -, hwithin, hpieces⟩ :=
      pin_iteration alloc asma lru next hloose hfirst
    intro hmem
    rw [hlist]
    rcases mem_pages_of_cons.mp hmem with ⟨hkeep, hin⟩ | hmem
    · obtain ⟨piece, hpiece, hinPiece⟩ := hpieces hsplitFirst page hpage hin
      exact mem_pages_of_append.mpr (.inl (mem_pages_of.mpr
        ⟨piece, hpiece, (hwithin piece hpiece).2.2 ▸ hkeep, hinPiece⟩))
    · refine mem_pages_of_append.mpr (.inr ?_)
      rcases hrest with rfl | rfl
      · exact hmem
      · exact ih hnext hsplitNext hmem

/-- A pin that has to split a range and cannot allocate loses the page behind its request. -/
theorem pin_loses_upper_half {lru : Lru} {ranges : List Range} {range : Range}
    (hloose : pgstart ≤ pgend + 1) (hranges : Ordered ranges) (hmem : range ∈ ranges)
    (hlo : range.pgstart < pgstart) (hhi : pgend < range.pgend) :
    pgend + 1 ∉ unpinnedPages (ashmemPin false asma pgstart pgend lru ranges).1 := by
  induction ranges generalizing lru with
  | nil => simp at hmem
  | cons first next ih =>
    obtain ⟨hfirst, hbelow, hnext⟩ := ordered_cons.mp hranges
    simp only [ashmemPin, rangeBeforePage, pageRangeInRange, pageInRange, pageRangeSubsumesRange,
      Bool.or_eq_true, Bool.and_eq_true, decide_eq_true_eq, rangeAlloc]
    rcases List.mem_cons.mp hmem with rfl | hmem
    · -- the walk is at the range: it takes case 4
      rw [if_neg (by omega), if_pos (by omega), if_neg (by omega), if_neg (by omega),
        if_neg (by omega)]
      intro hpage
      rcases mem_pages_of_cons.mp hpage with ⟨-, hin⟩ | hpage
      · simp only [rangeShrink] at hin
        omega
      · obtain ⟨below, hmemBelow, -, -, hge⟩ := mem_pages_of.mp hpage
        have := hbelow below hmemBelow
        omega
    · -- the first range lies above it and is left alone
      have habove := hbelow range hmem
      rw [if_neg (by omega), if_neg (by omega)]
      intro hpage
      rcases mem_pages_of_cons.mp hpage with ⟨-, hin⟩ | hpage
      · omega
      · exact ih hnext hmem hpage

/-! ## Unpinning -/

/-- How a pass of `ashmem_unpin` cuts an ordered list. -/
theorem unpin_scan_ordered {ranges : List Range} (hloose : pgstart ≤ pgend + 1)
    (hranges : Ordered ranges) :
    match unpinScan pgstart pgend ranges with
    | .insertion before after => ranges = before ++ after ∧
        (∀ range ∈ before, pgend < range.pgstart) ∧ ∀ range ∈ after, range.pgend < pgstart
    | .subsumed => ∃ range ∈ ranges, range.pgstart ≤ pgstart ∧ pgend ≤ range.pgend
    | .overlap before range after => ranges = before ++ range :: after ∧
        ¬ (range.pgstart ≤ pgstart ∧ pgend ≤ range.pgend) ∧
        (range.pgstart ≤ pgend ∧ pgstart ≤ range.pgend ∧ pgstart ≤ pgend ∨
          pgstart ≤ range.pgstart ∧ range.pgend ≤ pgend) := by
  induction ranges with
  | nil => exact ⟨rfl, by simp, by simp⟩
  | cons first next ih =>
    obtain ⟨hfirst, hbelow, hnext⟩ := ordered_cons.mp hranges
    simp only [unpinScan, rangeBeforePage, pageRangeSubsumedByRange, pageRangeInRange,
      pageInRange, pageRangeSubsumesRange, Bool.or_eq_true, Bool.and_eq_true,
      decide_eq_true_eq]
    by_cases hbefore : first.pgend < pgstart
    · rw [if_pos hbefore]
      refine ⟨rfl, by simp, List.forall_mem_cons.mpr ⟨hbefore, fun below hmem => ?_⟩⟩
      have := hbelow below hmem
      omega
    rw [if_neg hbefore]
    by_cases hsubsumed : first.pgstart ≤ pgstart ∧ first.pgend ≥ pgend
    · rw [if_pos hsubsumed]
      exact ⟨first, by simp, hsubsumed⟩
    rw [if_neg hsubsumed]
    by_cases hover : (first.pgstart ≤ pgstart ∧ first.pgend ≥ pgstart ∨
        first.pgstart ≤ pgend ∧ first.pgend ≥ pgend) ∨
        first.pgstart ≥ pgstart ∧ first.pgend ≤ pgend
    · rw [if_pos hover]
      exact ⟨rfl, hsubsumed, by omega⟩
    rw [if_neg hover]
    have hrest := ih hnext
    -- the pass walks over `first`, which lies above the request
    cases hscan : unpinScan pgstart pgend next with
    | insertion before after =>
      rw [hscan] at hrest
      obtain ⟨rfl, hbefore', hafter⟩ := hrest
      exact ⟨rfl, List.forall_mem_cons.mpr ⟨by omega, hbefore'⟩, hafter⟩
    | subsumed =>
      rw [hscan] at hrest
      obtain ⟨range, hmem, hin⟩ := hrest
      exact ⟨range, List.mem_cons_of_mem _ hmem, hin⟩
    | overlap before range after =>
      rw [hscan] at hrest
      obtain ⟨rfl, hin⟩ := hrest
      exact ⟨rfl, hin⟩

/-- Unpinning keeps the ranges ordered, whether or not a range can be allocated. -/
theorem unpin_ordered {alloc purged : Bool} {lru : Lru} {ranges : List Range}
    (hloose : pgstart ≤ pgend + 1) (hranges : Ordered ranges) :
    Ordered (ashmemUnpin alloc asma pgstart pgend purged lru ranges).1 := by
  induction hn : ranges.length using Nat.strong_induction_on
    generalizing pgstart pgend purged lru ranges with
  | _ n ih =>
    have hcut := unpin_scan_ordered hloose hranges
    unfold ashmemUnpin
    split
    next before after hscan =>
      rw [hscan] at hcut
      obtain ⟨rfl, hbefore, hafter⟩ := hcut
      obtain ⟨hfirst, hsecond, hcross⟩ := ordered_append.mp hranges
      cases alloc with
      | true =>
        refine ordered_append.mpr ⟨hfirst, ordered_cons.mpr ⟨hloose, hafter, hsecond⟩, ?_⟩
        intro above habove below hbelow
        rcases List.mem_cons.mp hbelow with rfl | hbelow
        · exact hbefore above habove
        · exact hcross above habove below hbelow
      | false => exact hranges
    next => exact hranges
    next before range after hscan =>
      rw [hscan] at hcut
      obtain ⟨rfl, -, -⟩ := hcut
      have hrange := hranges.1 range (by simp)
      exact ih _ (by subst hn; simp) (by omega)
        (hranges.sublist ((List.sublist_cons_self range after).append_left before)) rfl

/-- A failing unpin leaves some of the ranges it found. -/
theorem unpin_failing_sublist {purged : Bool} {lru : Lru} {ranges : List Range} :
    (ashmemUnpin false asma pgstart pgend purged lru ranges).1.Sublist ranges := by
  induction hn : ranges.length using Nat.strong_induction_on
    generalizing pgstart pgend purged lru ranges with
  | _ n ih =>
    unfold ashmemUnpin
    split
    next => exact List.Sublist.refl _
    next => exact List.Sublist.refl _
    next before range after hscan =>
      obtain rfl := unpin_scan_overlap hscan
      exact (ih _ (by subst hn; simp) rfl).trans
        ((List.sublist_cons_self range after).append_left before)

/-- A pass that ends early has found a range holding the request. -/
theorem unpin_scan_subsumed {ranges : List Range}
    (h : unpinScan pgstart pgend ranges = .subsumed) :
    ∃ range ∈ ranges, range.pgstart ≤ pgstart ∧ pgend ≤ range.pgend := by
  induction ranges with
  | nil => simp [unpinScan] at h
  | cons first next ih =>
    unfold unpinScan at h
    split_ifs at h with hbefore hsubsumed hover
    · exact ⟨first, by simp, by simpa [pageRangeSubsumedByRange] using hsubsumed⟩
    · cases hscan : unpinScan pgstart pgend next with
      | insertion | overlap => simp [hscan, UnpinScan.walked] at h
      | subsumed =>
        obtain ⟨range, hmem, hin⟩ := ih hscan
        exact ⟨range, List.mem_cons_of_mem _ hmem, hin⟩

/-- A request with a page that is not unpinned needs an allocation. -/
theorem unpin_failing_of_pinned {purged : Bool} {lru : Lru} {ranges : List Range} {page : Nat}
    (hpage : page ∈ Set.Icc pgstart pgend) (hpinned : page ∉ unpinnedPages ranges) :
    (ashmemUnpin false asma pgstart pgend purged lru ranges).2.2 = false := by
  induction hn : ranges.length using Nat.strong_induction_on
    generalizing pgstart pgend purged lru ranges with
  | _ n ih =>
    unfold ashmemUnpin
    split
    next => rfl
    next hscan =>
      exfalso
      obtain ⟨range, hmem, hlo, hhi⟩ := unpin_scan_subsumed hscan
      obtain ⟨hge, hle⟩ := Set.mem_Icc.mp hpage
      exact hpinned (mem_pages_of.mpr ⟨range, hmem, rfl, hlo.trans hge, hle.trans hhi⟩)
    next before range after hscan =>
      obtain rfl := unpin_scan_overlap hscan
      obtain ⟨hge, hle⟩ := Set.mem_Icc.mp hpage
      refine ih _ (by subst hn; simp) (Set.mem_Icc.mpr (by omega)) (fun hmem => hpinned ?_) rfl
      exact pages_of_sublist ((List.sublist_cons_self range after).append_left before) hmem

/-! ## What a failed allocation leaves -/

/-- Every page outside the request is unpinned, and marked purged, as before. -/
def OutsideKept (pgstart pgend : Nat) (ranges result : List Range) : Prop :=
  ∀ page ∉ Set.Icc pgstart pgend,
    (page ∈ unpinnedPages result ↔ page ∈ unpinnedPages ranges) ∧
    (page ∈ purgedPages result ↔ page ∈ purgedPages ranges)

/-- What is asked of a call of `ashmem_unpin` whose allocation fails: the pages outside the
request are as before, and if the call fails, so are all pages. -/
def UnpinAtomic (pgstart pgend : Nat) (ranges : List Range) (result : List Range × Lru × Bool) :
    Prop :=
  OutsideKept pgstart pgend ranges result.1 ∧
    (result.2.2 = false → unpinnedPages result.1 = unpinnedPages ranges ∧
      purgedPages result.1 = purgedPages ranges)

/-- One range holds the whole request, or no page of the request is unpinned. -/
def NothingToMerge (pgstart pgend : Nat) (ranges : List Range) : Prop :=
  (∃ range ∈ ranges, range.pgstart ≤ pgstart ∧ pgend ≤ range.pgend) ∨
    ∀ page ∈ Set.Icc pgstart pgend, page ∉ unpinnedPages ranges

/-- No range reaches over both ends of the request. -/
def NothingToSplit (pgstart pgend : Nat) (ranges : List Range) : Prop :=
  ∀ range ∈ ranges, ¬ (range.pgstart < pgstart ∧ pgend < range.pgend)

theorem UnpinAtomic.of_unchanged {ranges : List Range} {result : List Range × Lru × Bool}
    (hpages : ∀ keep, pagesOf keep result.1 = pagesOf keep ranges) :
    UnpinAtomic pgstart pgend ranges result := by
  refine ⟨fun page _ => ?_, fun _ => ⟨hpages _, hpages _⟩⟩
  rw [unpinnedPages, purgedPages, hpages, hpages]
  exact ⟨Iff.rfl, Iff.rfl⟩

/-- An empty range adds no pages to a list. -/
theorem pages_of_drop_empty {keep : Bool → Bool} {before after : List Range} {range : Range}
    (hempty : range.pgend < range.pgstart) :
    pagesOf keep (before ++ range :: after) = pagesOf keep (before ++ after) := by
  ext page
  simp only [mem_pages_of_append, mem_pages_of_cons]
  have hout : ¬ (range.pgstart ≤ page ∧ page ≤ range.pgend) := by omega
  tauto

/-- No two ranges of an ordered list share a page. -/
theorem Ordered.not_shared {before after : List Range} {range : Range} {page : Nat}
    (h : Ordered (before ++ range :: after)) (hlo : range.pgstart ≤ page)
    (hhi : page ≤ range.pgend) : page ∉ unpinnedPages (before ++ after) := by
  intro hmem
  obtain ⟨-, hsecond, hcross⟩ := ordered_append.mp h
  obtain ⟨-, hbelow, -⟩ := ordered_cons.mp hsecond
  rcases mem_pages_of_append.mp hmem with hmem | hmem
  · obtain ⟨other, hother, -, hge, -⟩ := mem_pages_of.mp hmem
    have := hcross other hother range (by simp)
    omega
  · obtain ⟨other, hother, -, -, hle⟩ := mem_pages_of.mp hmem
    have := hbelow other hother
    omega

/-- On an ordered list, `ashmem_unpin` survives a failed allocation exactly when it has nothing
to merge. -/
theorem unpin_atomic_iff {purged : Bool} {lru : Lru} {ranges : List Range}
    (hloose : pgstart ≤ pgend + 1) (hranges : Ordered ranges) :
    UnpinAtomic pgstart pgend ranges (ashmemUnpin false asma pgstart pgend purged lru ranges) ↔
      NothingToMerge pgstart pgend ranges := by
  induction hn : ranges.length using Nat.strong_induction_on
    generalizing purged lru ranges with
  | _ n ih =>
    have hcut := unpin_scan_ordered hloose hranges
    unfold ashmemUnpin
    split
    next before after hscan =>
      rw [hscan] at hcut
      obtain ⟨rfl, hbefore, hafter⟩ := hcut
      refine iff_of_true (.of_unchanged fun _ => rfl) (.inr fun page hpage hmem => ?_)
      obtain ⟨range, hrange, -, hlo, hhi⟩ := mem_pages_of.mp hmem
      obtain ⟨hge, hle⟩ := Set.mem_Icc.mp hpage
      rcases List.mem_append.mp hrange with hrange | hrange
      · have := hbefore range hrange
        omega
      · have := hafter range hrange
        omega
    next hscan =>
      exact iff_of_true (.of_unchanged fun _ => rfl) (.inl (unpin_scan_subsumed hscan))
    next before range after hscan =>
      rw [hscan] at hcut
      obtain ⟨rfl, hnot, hover⟩ := hcut
      have hrest : Ordered (before ++ after) :=
        hranges.sublist ((List.sublist_cons_self range after).append_left before)
      have hmem : range ∈ before ++ range :: after := by simp
      by_cases hempty : range.pgend < range.pgstart
      · -- an empty range neither widens the request nor holds pages
        have hlo : min range.pgstart pgstart = pgstart := by omega
        have hhi : max range.pgend pgend = pgend := by omega
        have hnext := @ih _ (by subst hn; simp) (purged || range.purged)
          (rangeDel asma range lru) (before ++ after) hrest rfl
        rw [hlo, hhi]
        simp only [UnpinAtomic, OutsideKept, NothingToMerge, unpinnedPages, purgedPages,
          pages_of_drop_empty hempty] at hnext ⊢
        rw [hnext]
        refine or_congr_left ⟨?_, ?_⟩
        · rintro ⟨other, hother, hin⟩
          refine ⟨other, ?_, hin⟩
          simp only [List.mem_append, List.mem_cons] at hother ⊢
          tauto
        · rintro ⟨other, hother, hin⟩
          refine ⟨other, ?_, hin⟩
          simp only [List.mem_append, List.mem_cons] at hother ⊢
          rcases hother with hother | rfl | hother
          · exact .inl hother
          · exact absurd hin hnot
          · exact .inr hother
      -- a page of the request that the range held is lost for good
      obtain ⟨page, hin, hlo, hhi⟩ : ∃ page, page ∈ Set.Icc pgstart pgend ∧
          range.pgstart ≤ page ∧ page ≤ range.pgend :=
        ⟨max range.pgstart pgstart, Set.mem_Icc.mpr (by omega), by omega, by omega⟩
      have hunpinned : page ∈ unpinnedPages (before ++ range :: after) :=
        mem_pages_of.mpr ⟨range, hmem, rfl, hlo, hhi⟩
      have hgone : page ∉ unpinnedPages (before ++ after) := hranges.not_shared hlo hhi
      obtain ⟨hge, hle⟩ := Set.mem_Icc.mp hin
      refine iff_of_false (fun hatomic => ?_) ?_
      · have hfails : (ashmemUnpin false asma (min range.pgstart pgstart)
            (max range.pgend pgend) (purged || range.purged) (rangeDel asma range lru)
            (before ++ after)).2.2 = false :=
          unpin_failing_of_pinned (Set.mem_Icc.mpr (by omega)) hgone
        have hsame := (hatomic.2 hfails).1
        rw [← hsame] at hunpinned
        exact hgone (pages_of_sublist unpin_failing_sublist hunpinned)
      rintro (⟨other, hother, hlo', hhi'⟩ | hnone)
      · have hother : other ∈ before ++ after := by
          simp only [List.mem_append, List.mem_cons] at hother ⊢
          rcases hother with hother | rfl | hother
          · exact .inl hother
          · exact absurd ⟨hlo', hhi'⟩ hnot
          · exact .inr hother
        exact hgone (mem_pages_of.mpr ⟨other, hother, rfl, by omega, by omega⟩)
      · exact hnone page hin hunpinned

/-- On an ordered list, `ashmem_pin` survives a failed allocation exactly when it has nothing to
split. -/
theorem pin_atomic_iff {lru : Lru} {ranges : List Range} (hloose : pgstart ≤ pgend + 1)
    (hranges : Ordered ranges) :
    OutsideKept pgstart pgend ranges (ashmemPin false asma pgstart pgend lru ranges).1 ↔
      NothingToSplit pgstart pgend ranges := by
  constructor
  · intro hkept range hmem hstrict
    have hpage : pgend + 1 ∈ unpinnedPages ranges :=
      mem_pages_of.mpr ⟨range, hmem, rfl, by omega, by omega⟩
    have hout : pgend + 1 ∉ Set.Icc pgstart pgend := by
      rw [Set.mem_Icc]
      omega
    exact pin_loses_upper_half hloose hranges hmem hstrict.1 hstrict.2
      ((hkept _ hout).1.mpr hpage)
  · intro hsplit page hpage
    exact ⟨pin_keeps_outside _ hloose hranges hsplit hpage,
      pin_keeps_outside _ hloose hranges hsplit hpage⟩

/-! ## The states of a run -/

/-- An accepted request is an interval, possibly an empty one. -/
theorem pin_pages_loose {size : UInt32} {arg : PinArg}
    (h : pinPages size arg = .ok (pgstart, pgend)) : pgstart ≤ pgend + 1 := by
  have hoffset : arg.offset.toNat < 2 ^ 32 := arg.offset.toNat_lt
  have hlen : arg.len.toNat < 2 ^ 32 := arg.len.toNat_lt
  unfold pinPages at h
  by_cases hzero : arg.len = 0
  all_goals
    simp only [hzero, if_true, if_false] at h
    split_ifs at h with hmod hwrap hbig
    simp only [Except.ok.injEq, Prod.mk.injEq] at h
    obtain ⟨rfl, rfl⟩ := h
    simp only [wsub, wadd, word, pageSize] at *
    omega

/-- Every open area has ordered ranges. -/
def World.Ordered (world : World) : Prop :=
  ∀ asma state, world.area asma = some state → Ashmem.Ordered state.unpinnedList

/-- Replacing one area by one with ordered ranges. -/
theorem World.Ordered.update {world : World} {asma : Nat} {state : Area} {lru : Lru}
    (h : world.Ordered) (hstate : Ashmem.Ordered state.unpinnedList) :
    World.Ordered { area := Function.update world.area asma (some state), lru } :=
  forall_area_update h fun _ heq => Option.some.inj heq ▸ hstate

/-- The ioctl keeps the ranges of its area ordered. -/
theorem pin_unpin_ordered {state : Area} {asma : Nat} {alloc : Bool} {cmd : PinCmd}
    {arg : Option PinArg} {lru : Lru} (h : Ordered state.unpinnedList) :
    Ordered (ashmemPinUnpin alloc asma cmd arg state lru).1 := by
  unfold ashmemPinUnpin
  split
  · exact h
  split
  · exact h
  next arg =>
    split
    · exact h
    next pgstart pgend harg =>
      cases cmd with
      | pin => exact pin_ordered (pin_pages_loose harg) h
      | unpin => exact unpin_ordered (pin_pages_loose harg) h
      | getPinStatus => exact h

/-- Marking a range purged keeps the ranges ordered. -/
theorem ordered_set_purged {id : Nat} {ranges : List Range} (h : Ordered ranges) :
    Ordered (setPurged id ranges) := by
  refine ⟨?_, List.pairwise_map.mpr (h.2.imp fun hlt => by simpa using hlt)⟩
  intro range hmem
  obtain ⟨old, hold, rfl⟩ := List.mem_map.mp hmem
  simpa using h.1 old hold

/-- The step rule: every entry into the driver keeps all ranges ordered. -/
theorem step_ordered {world next : World} {op : Op} (h : world.Ordered)
    (hstep : step world op = some next) : next.Ordered := by
  cases op with
  | openArea asma =>
    simp only [step] at hstep
    split at hstep
    · cases hstep
      exact h.update ordered_nil
    · cases hstep
  | mmap asma vmFlags setup =>
    simp only [step, Option.bind_eq_bind, Option.bind_eq_some_iff] at hstep
    obtain ⟨state, hstate, hnext⟩ := hstep
    cases hnext
    refine h.update ?_
    unfold ashmemMmap
    split_ifs <;> exact h asma state hstate
  | setSize asma size =>
    simp only [step, Option.bind_eq_bind, Option.bind_eq_some_iff] at hstep
    obtain ⟨state, hstate, hnext⟩ := hstep
    cases hnext
    refine h.update ?_
    unfold setSize
    split_ifs <;> exact h asma state hstate
  | setProtMask asma prot readImpliesExec =>
    simp only [step, Option.bind_eq_bind, Option.bind_eq_some_iff] at hstep
    obtain ⟨state, hstate, hnext⟩ := hstep
    cases hnext
    refine h.update ?_
    unfold setProtMask
    split_ifs <;> exact h asma state hstate
  | pinUnpin alloc asma cmd arg =>
    simp only [step, Option.bind_eq_bind, Option.bind_eq_some_iff] at hstep
    obtain ⟨state, hstate, hnext⟩ := hstep
    cases hnext
    exact h.update (pin_unpin_ordered (h asma state hstate))
  | shrink nrToScan =>
    simp only [step, Option.bind_eq_bind, Option.bind_eq_some_iff] at hstep
    obtain ⟨⟨final, calls⟩, hshrink, hnext⟩ := hstep
    cases hnext
    exact shrink_invariant (fun world _ => world.Ordered)
      (fun _ _ asma state _ hordered hstate _ =>
        hordered.update (ordered_set_purged (hordered asma state hstate)))
      (fun _ => ∅) h hshrink
  | release asma =>
    simp only [step, Option.bind_eq_bind, Option.bind_eq_some_iff] at hstep
    obtain ⟨state, hstate, hnext⟩ := hstep
    cases hnext
    exact forall_area_update h fun _ heq => by cases heq

/-- In every state of every run, for every area and every request that the checks accept, an
allocation that fails leaves the unpinned pages and purge flags outside the request, and all of
them when `-ENOMEM` is returned, exactly when the request has nothing to merge (unpinning) or
nothing to split (pinning). -/
theorem alloc_failure_atomic_iff {world : World} {asma pgstart pgend : Nat} {state : Area}
    {arg : PinArg} (hrun : Reaches Step anyStep init world)
    (hstate : world.area asma = some state)
    (harg : pinPages state.size arg = .ok (pgstart, pgend)) :
    (UnpinAtomic pgstart pgend state.unpinnedList
        (ashmemUnpin false asma pgstart pgend false world.lru state.unpinnedList) ↔
      NothingToMerge pgstart pgend state.unpinnedList) ∧
    (OutsideKept pgstart pgend state.unpinnedList
        (ashmemPin false asma pgstart pgend world.lru state.unpinnedList).1 ↔
      NothingToSplit pgstart pgend state.unpinnedList) := by
  have hinit : init.Ordered := by
    intro asma state hstate
    cases hstate
  have hworld : world.Ordered :=
    hrun.invariant World.Ordered (fun _ _ _ h _ hstep => step_ordered h hstep) hinit
  have hranges := hworld asma state hstate
  exact ⟨unpin_atomic_iff (pin_pages_loose harg) hranges,
    pin_atomic_iff (pin_pages_loose harg) hranges⟩

/-- A mapped area of four pages with some of them unpinned. -/
def fourPageArea (ranges : List Range) : Area :=
  { size := 16384, file := true, protMask := protBits, unpinnedList := ranges }

/-- Such an area with its last three pages unpinned is the only open one. -/
def threeUnpinned : World :=
  { area := Function.update (fun _ => none) 0 (some (fourPageArea [⟨0, 1, 3, false⟩])),
    lru := ⟨[(0, 0)], 3, 1⟩ }

/-- An accepted unpin of the last three of four pages. -/
theorem unpin_last_three :
    ashmemPinUnpin true 0 .unpin (some ⟨4096, 12288⟩) (fourPageArea []) ⟨[], 0, 0⟩ =
      ([⟨0, 1, 3, false⟩], ⟨[(0, 0)], 3, 1⟩, 0) := by
  have harg : pinPages 16384 ⟨4096, 12288⟩ = .ok (1, 3) := by
    simp [pinPages, pageAlign, pageMask, wadd, wsub, word, pageSize]
  have hunpin : ashmemUnpin true 0 1 3 false ⟨[], 0, 0⟩ [] =
      ([⟨0, 1, 3, false⟩], ⟨[(0, 0)], 3, 1⟩, true) := by
    rw [ashmemUnpin]
    rfl
  simp only [ashmemPinUnpin, fourPageArea, harg, hunpin]
  rfl

/-- Opening, sizing, mapping and one unpin lead to that state. -/
theorem three_unpinned_reached : Reaches Step anyStep init threeUnpinned := by
  have hunpin : Step (init.setArea 0 (fourPageArea []))
      (.pinUnpin true 0 .unpin (some ⟨4096, 12288⟩)) threeUnpinned := by
    have hcall := unpin_last_three
    simp only [Step, step, World.setArea, init, Function.update_self, Option.bind_eq_bind,
      Option.bind_some, hcall, World.setRanges, Function.update_idem]
    rfl
  have hmapped : Reaches Step anyStep init (init.setArea 0 (fourPageArea [])) :=
    mapped_area_reached rfl (by decide) fun _ _ _ => trivial
  exact hmapped.tail hunpin trivial

/-- Unpinning the pinned page alone has nothing to merge. -/
theorem alloc_failure_atomic_three :
    UnpinAtomic 0 0 [⟨0, 1, 3, false⟩]
      (ashmemUnpin false 0 0 0 false threeUnpinned.lru [⟨0, 1, 3, false⟩]) := by
  have hstate : threeUnpinned.area 0 = some (fourPageArea [⟨0, 1, 3, false⟩]) := rfl
  have harg : pinPages 16384 ⟨0, 4096⟩ = .ok (0, 0) := by
    simp [pinPages, pageAlign, pageMask, wadd, wsub, word, pageSize]
  refine (alloc_failure_atomic_iff three_unpinned_reached hstate harg).1.mpr (.inr ?_)
  intro page hpage hmem
  obtain ⟨range, hrange, -, hlo, -⟩ := mem_pages_of.mp hmem
  obtain rfl : range = ⟨0, 1, 3, false⟩ := List.mem_singleton.mp hrange
  have hzero : page ≤ 0 := (Set.mem_Icc.mp hpage).2
  exact absurd (hlo.trans hzero) (by decide)

/-- Unpinning the first two pages without memory loses all three unpinned pages, and pinning the
third page without memory loses the fourth. -/
theorem alloc_failure_loses_pages :
    (¬ ∀ (world : World) (asma pgstart pgend : Nat) (state : Area) (arg : PinArg),
      Reaches Step anyStep init world → world.area asma = some state →
      pinPages state.size arg = .ok (pgstart, pgend) →
      UnpinAtomic pgstart pgend state.unpinnedList
        (ashmemUnpin false asma pgstart pgend false world.lru state.unpinnedList)) ∧
    ¬ ∀ (world : World) (asma pgstart pgend : Nat) (state : Area) (arg : PinArg),
      Reaches Step anyStep init world → world.area asma = some state →
      pinPages state.size arg = .ok (pgstart, pgend) →
      OutsideKept pgstart pgend state.unpinnedList
        (ashmemPin false asma pgstart pgend world.lru state.unpinnedList).1 := by
  have hranges : Ordered [⟨0, 1, 3, false⟩] :=
    ordered_cons.mpr ⟨by decide, by simp, ordered_nil⟩
  have hstate : threeUnpinned.area 0 = some (fourPageArea [⟨0, 1, 3, false⟩]) := rfl
  refine ⟨fun h => ?_, fun h => ?_⟩
  · have harg : pinPages 16384 ⟨0, 8192⟩ = .ok (0, 1) := by
      simp [pinPages, pageAlign, pageMask, wadd, wsub, word, pageSize]
    have hatomic := h threeUnpinned 0 0 1 _ _ three_unpinned_reached hstate harg
    rcases (unpin_atomic_iff (by decide) hranges).mp hatomic with ⟨range, hmem, hlo, -⟩ | hnone
    · obtain rfl := List.mem_singleton.mp hmem
      exact absurd hlo (by decide)
    · exact hnone 1 (Set.mem_Icc.mpr (by decide))
        (mem_pages_of.mpr ⟨_, List.mem_singleton_self _, rfl, by decide, by decide⟩)
  · have harg : pinPages 16384 ⟨8192, 4096⟩ = .ok (2, 2) := by
      simp [pinPages, pageAlign, pageMask, wadd, wsub, word, pageSize]
    exact (pin_atomic_iff (by decide) hranges).mp
      (h threeUnpinned 0 2 2 _ _ three_unpinned_reached hstate harg) _ (List.mem_singleton_self _)
      (by decide)

end AndroidKernel.Ashmem
