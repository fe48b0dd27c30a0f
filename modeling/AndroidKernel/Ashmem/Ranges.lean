import AndroidKernel.Ashmem.Model
import AndroidKernel.Library.Ranges

/-!
# The unpinned list as a set of pages

What the walks of `ashmem_pin`, `ashmem_unpin` and `ashmem_get_pin_status` do to an unpinned
list, read as a set of pages. On a well-formed list the short circuits lose nothing: pinning
removes the requested interval, unpinning adds it, and the purge flags follow the pages they
were set on.
-/

namespace AndroidKernel.Ashmem

open Library Library.Intervals

/-- A well-formed unpinned list: non-empty ranges, pairwise disjoint, in strictly decreasing
page order. -/
def Sorted (ranges : List Range) : Prop :=
  Descending Range.pgstart Range.pgend ranges

/-- The pages of the ranges whose purge flag satisfies `keep`. -/
def pagesOf (keep : Bool → Bool) (ranges : List Range) : Set Nat :=
  cover Range.pgstart Range.pgend (ranges.filter fun range => keep range.purged)

/-- The unpinned pages. -/
def unpinnedPages (ranges : List Range) : Set Nat := pagesOf (fun _ => true) ranges

/-- The pages whose range is marked `ASHMEM_WAS_PURGED`. -/
def purgedPages (ranges : List Range) : Set Nat := pagesOf id ranges

theorem mem_pages_of {keep : Bool → Bool} {ranges : List Range} {page : Nat} :
    page ∈ pagesOf keep ranges ↔
      ∃ range ∈ ranges, keep range.purged = true ∧ range.pgstart ≤ page ∧ page ≤ range.pgend := by
  simp only [pagesOf, mem_cover, List.mem_filter]
  constructor
  · rintro ⟨range, ⟨hmem, hkeep⟩, hpage⟩
    exact ⟨range, hmem, hkeep, hpage⟩
  · rintro ⟨range, hmem, hkeep, hpage⟩
    exact ⟨range, ⟨hmem, hkeep⟩, hpage⟩

@[simp] theorem pages_of_nil (keep : Bool → Bool) : pagesOf keep [] = ∅ := by
  simp [pagesOf]

theorem mem_pages_of_cons {keep : Bool → Bool} {range : Range} {ranges : List Range} {page : Nat} :
    page ∈ pagesOf keep (range :: ranges) ↔
      (keep range.purged = true ∧ range.pgstart ≤ page ∧ page ≤ range.pgend) ∨
        page ∈ pagesOf keep ranges := by
  simp only [mem_pages_of, List.mem_cons, exists_eq_or_imp]

theorem mem_pages_of_append {keep : Bool → Bool} {first second : List Range} {page : Nat} :
    page ∈ pagesOf keep (first ++ second) ↔
      page ∈ pagesOf keep first ∨ page ∈ pagesOf keep second := by
  simp only [mem_pages_of, List.mem_append, or_and_right, exists_or]

/-- The pages after the first range of a well-formed list lie below it. -/
theorem Sorted.below {keep : Bool → Bool} {range : Range} {next : List Range} {page : Nat}
    (h : Sorted (range :: next)) (hpage : page ∈ pagesOf keep next) : page < range.pgstart := by
  obtain ⟨other, hmem, -, -, hhi⟩ := mem_pages_of.mp hpage
  exact hhi.trans_lt ((descending_cons.mp h).2.1 other hmem)

/-! ## Pinning -/

variable {asma pgstart pgend : Nat}

/-- What a pin of `pgstart..pgend` leaves of one range: pieces of it, still in order and with
its purge flag, that together hold exactly its pages outside the request. -/
structure Remains (pgstart pgend : Nat) (range : Range) (pieces : List Range) : Prop where
  sorted : Sorted pieces
  within : ∀ piece ∈ pieces,
    range.pgstart ≤ piece.pgstart ∧ piece.pgend ≤ range.pgend ∧ piece.purged = range.purged
  pages : ∀ page, (∃ piece ∈ pieces, piece.pgstart ≤ page ∧ page ≤ piece.pgend) ↔
    (range.pgstart ≤ page ∧ page ≤ range.pgend) ∧ ¬ (pgstart ≤ page ∧ page ≤ pgend)

/-- The short circuit: below the request the walk changes nothing. -/
theorem pin_of_below {lru : Lru} {ranges : List Range}
    (hbelow : ∀ range ∈ ranges, range.pgend < pgstart) :
    ashmemPin true asma pgstart pgend lru ranges = (ranges, lru, false) := by
  cases ranges with
  | nil => rfl
  | cons range next =>
    have hbefore : rangeBeforePage range pgstart = true := by
      simpa [rangeBeforePage] using hbelow range (by simp)
    simp [ashmemPin, hbefore]

/-- The purge flag that a request takes up from one range. -/
def purgeMet (pgstart pgend : Nat) (range : Range) : Bool :=
  decide (range.pgstart ≤ pgend ∧ pgstart ≤ range.pgend) && range.purged

theorem purge_met_of_overlap {range : Range}
    (h : range.pgstart ≤ pgend ∧ pgstart ≤ range.pgend) :
    purgeMet pgstart pgend range = range.purged := by
  simp [purgeMet, h]

theorem purge_met_of_apart {range : Range}
    (h : ¬ (range.pgstart ≤ pgend ∧ pgstart ≤ range.pgend)) :
    purgeMet pgstart pgend range = false := by
  simp only [purgeMet, h, decide_false, Bool.false_and]

theorem range_alloc_true (asma : Nat) (purged : Bool) (start stop : Nat) (lru : Lru) :
    ∃ lru', rangeAlloc true asma purged start stop lru =
      some (⟨lru.nextRange, start, stop, purged⟩, lru') :=
  ⟨_, rfl⟩

/-- One iteration of `ashmem_pin` replaces a range by what remains of it, takes up its purge
flag if it overlaps, and goes on with the rest of the list. Leaving the loop early is the same
as going on, since everything below is out of the request's reach. -/
theorem pin_cons (asma : Nat) (lru : Lru) {range : Range} {next : List Range}
    (hsorted : Sorted (range :: next)) (hle : pgstart ≤ pgend) :
    ∃ lru' pieces, Remains pgstart pgend range pieces ∧
      (ashmemPin true asma pgstart pgend lru (range :: next)).1 =
        pieces ++ (ashmemPin true asma pgstart pgend lru' next).1 ∧
      (ashmemPin true asma pgstart pgend lru (range :: next)).2.2 =
        ((ashmemPin true asma pgstart pgend lru' next).2.2 || purgeMet pgstart pgend range) := by
  obtain ⟨hne, hbelow, -⟩ := descending_cons.mp hsorted
  have hstop : ∀ lru, range.pgstart < pgstart →
      ashmemPin true asma pgstart pgend lru next = (next, lru, false) :=
    fun lru hlt => pin_of_below fun below hmem => (hbelow below hmem).trans hlt
  obtain ⟨upperLru, halloc⟩ :=
    range_alloc_true asma range.purged (pgend + 1) range.pgend lru
  simp only [ashmemPin, rangeBeforePage, pageRangeInRange, pageInRange, pageRangeSubsumesRange,
    Bool.or_eq_true, Bool.and_eq_true, decide_eq_true_eq, halloc]
  split_ifs with hbefore hover hsubsume hstart hend
  · refine ⟨lru, [range], ⟨?_, by simp, by simp; omega⟩, ?_, ?_⟩
    · exact descending_cons.mpr ⟨hne, by simp, descending_nil⟩
    · rw [hstop lru (by omega)]; rfl
    · rw [hstop lru (by omega), purge_met_of_apart (by omega)]; rfl
  · refine ⟨_, [], ⟨descending_nil, by simp, by simp; omega⟩, rfl, ?_⟩
    rw [purge_met_of_overlap (by omega)]
  · refine ⟨_, [(rangeShrink range (pgend + 1) range.pgend lru).1],
      ⟨?_, ?_, ?_⟩, rfl, ?_⟩
    · exact descending_cons.mpr ⟨by simp [rangeShrink]; omega, by simp, descending_nil⟩
    · simp [rangeShrink]; omega
    · simp [rangeShrink]; omega
    · rw [purge_met_of_overlap (by omega)]
  · refine ⟨_, [(rangeShrink range range.pgstart (pgstart - 1) lru).1],
      ⟨?_, ?_, ?_⟩, rfl, ?_⟩
    · exact descending_cons.mpr ⟨by simp [rangeShrink]; omega, by simp, descending_nil⟩
    · simp [rangeShrink]; omega
    · simp [rangeShrink]; omega
    · rw [purge_met_of_overlap (by omega)]
  · refine ⟨lru, [⟨lru.nextRange, pgend + 1, range.pgend, range.purged⟩,
      (rangeShrink range range.pgstart (pgstart - 1) lru).1], ⟨?_, ?_, ?_⟩, ?_, ?_⟩
    · refine descending_cons.mpr ⟨by simp; omega, by simp [rangeShrink]; omega, ?_⟩
      exact descending_cons.mpr ⟨by simp [rangeShrink]; omega, by simp, descending_nil⟩
    · simp [rangeShrink]; omega
    · simp [rangeShrink]; omega
    · rw [hstop lru (by omega)]; rfl
    · rw [hstop lru (by omega), purge_met_of_overlap (by omega)]; rfl
  · refine ⟨lru, [range], ⟨?_, by simp, by simp; omega⟩, rfl, ?_⟩
    · exact descending_cons.mpr ⟨hne, by simp, descending_nil⟩
    · rw [purge_met_of_apart (by omega), Bool.or_false]

/-- Every range that `ashmem_pin` leaves lies inside a range that was there before. -/
theorem pin_within {lru : Lru} {ranges : List Range} {range : Range} (hsorted : Sorted ranges)
    (hle : pgstart ≤ pgend)
    (hmem : range ∈ (ashmemPin true asma pgstart pgend lru ranges).1) :
    ∃ old ∈ ranges, old.pgstart ≤ range.pgstart ∧ range.pgend ≤ old.pgend := by
  induction ranges generalizing lru with
  | nil => exact nomatch hmem
  | cons first next ih =>
    obtain ⟨lru', pieces, hrem, hlist, -⟩ := pin_cons asma lru hsorted hle
    rw [hlist, List.mem_append] at hmem
    rcases hmem with hmem | hmem
    · exact ⟨first, by simp, (hrem.within range hmem).1, (hrem.within range hmem).2.1⟩
    · obtain ⟨old, hold, hin⟩ := ih (descending_cons.mp hsorted).2.2 hmem
      exact ⟨old, List.mem_cons_of_mem _ hold, hin⟩

/-- Pinning keeps the list well formed. -/
theorem pin_sorted {lru : Lru} {ranges : List Range} (hsorted : Sorted ranges)
    (hle : pgstart ≤ pgend) : Sorted (ashmemPin true asma pgstart pgend lru ranges).1 := by
  induction ranges generalizing lru with
  | nil => exact descending_nil
  | cons first next ih =>
    obtain ⟨hne, hbelow, hnext⟩ := descending_cons.mp hsorted
    obtain ⟨lru', pieces, hrem, hlist, -⟩ := pin_cons asma lru hsorted hle
    rw [hlist]
    refine descending_append.mpr ⟨hrem.sorted, ih hnext, ?_⟩
    intro piece hpiece below hmem
    obtain ⟨old, hold, -, hhi⟩ := pin_within hnext hle hmem
    exact hhi.trans_lt ((hbelow old hold).trans_le (hrem.within piece hpiece).1)

/-- Pinning removes the requested interval, whatever the flags that are looked at. -/
theorem pin_pages (keep : Bool → Bool) {lru : Lru} {ranges : List Range}
    (hsorted : Sorted ranges) (hle : pgstart ≤ pgend) :
    pagesOf keep (ashmemPin true asma pgstart pgend lru ranges).1 =
      pagesOf keep ranges \ Set.Icc pgstart pgend := by
  induction ranges generalizing lru with
  | nil =>
    show pagesOf keep [] = pagesOf keep [] \ Set.Icc pgstart pgend
    simp
  | cons first next ih =>
    obtain ⟨lru', pieces, hrem, hlist, -⟩ := pin_cons asma lru hsorted hle
    have hpieces : ∀ page, page ∈ pagesOf keep pieces ↔ keep first.purged = true ∧
        (first.pgstart ≤ page ∧ page ≤ first.pgend) ∧ ¬ (pgstart ≤ page ∧ page ≤ pgend) := by
      intro page
      rw [mem_pages_of, ← hrem.pages]
      constructor
      · rintro ⟨piece, hmem, hkeep, hpage⟩
        exact ⟨(hrem.within piece hmem).2.2 ▸ hkeep, piece, hmem, hpage⟩
      · rintro ⟨hkeep, piece, hmem, hpage⟩
        exact ⟨piece, hmem, (hrem.within piece hmem).2.2 ▸ hkeep, hpage⟩
    ext page
    rw [hlist, mem_pages_of_append, hpieces, ih (descending_cons.mp hsorted).2.2,
      Set.mem_sdiff, Set.mem_sdiff, mem_pages_of_cons, Set.mem_Icc]
    tauto

/-- `ashmem_pin` returns `ASHMEM_WAS_PURGED` exactly when the request meets a purged range. -/
theorem pin_was_purged {lru : Lru} {ranges : List Range} (hsorted : Sorted ranges)
    (hle : pgstart ≤ pgend) :
    (ashmemPin true asma pgstart pgend lru ranges).2.2 = true ↔
      (purgedPages ranges ∩ Set.Icc pgstart pgend).Nonempty := by
  induction ranges generalizing lru with
  | nil =>
    show false = true ↔ _
    simp [purgedPages]
  | cons first next ih =>
    obtain ⟨hne, -, hnext⟩ := descending_cons.mp hsorted
    obtain ⟨lru', pieces, -, -, hret⟩ := pin_cons asma lru hsorted hle
    rw [hret, Bool.or_eq_true, ih hnext]
    constructor
    · rintro (⟨page, hpage, hin⟩ | hpurged)
      · exact ⟨page, mem_pages_of_cons.mpr (.inr hpage), hin⟩
      · simp only [purgeMet, Bool.and_eq_true, decide_eq_true_eq] at hpurged
        obtain ⟨hover, hpurged⟩ := hpurged
        refine ⟨max first.pgstart pgstart, mem_pages_of_cons.mpr (.inl ⟨hpurged, ?_⟩), ?_⟩
        · omega
        · exact Set.mem_Icc.mpr (by omega)
    · rintro ⟨page, hpage, hin⟩
      rcases mem_pages_of_cons.mp hpage with ⟨hpurged, hlo, hhi⟩ | hpage
      · obtain ⟨hge, hle'⟩ := Set.mem_Icc.mp hin
        exact .inr (by rw [purge_met_of_overlap (by omega)]; exact hpurged)
      · exact .inl ⟨page, hpage, hin⟩

/-! ## Querying -/

/-- `ashmem_get_pin_status` reports `ASHMEM_IS_UNPINNED` exactly when the request meets an
unpinned page. -/
theorem get_pin_status_iff {ranges : List Range} (hsorted : Sorted ranges)
    (hle : pgstart ≤ pgend) :
    ashmemGetPinStatus pgstart pgend ranges = true ↔
      (unpinnedPages ranges ∩ Set.Icc pgstart pgend).Nonempty := by
  induction ranges with
  | nil =>
    show false = true ↔ _
    simp [unpinnedPages]
  | cons first next ih =>
    obtain ⟨hne, hbelow, hnext⟩ := descending_cons.mp hsorted
    have hcons : (unpinnedPages (first :: next) ∩ Set.Icc pgstart pgend).Nonempty ↔
        (first.pgstart ≤ pgend ∧ pgstart ≤ first.pgend) ∨
          (unpinnedPages next ∩ Set.Icc pgstart pgend).Nonempty := by
      constructor
      · rintro ⟨page, hpage, hin⟩
        obtain ⟨hge, hle'⟩ := Set.mem_Icc.mp hin
        rcases mem_pages_of_cons.mp hpage with ⟨-, hlo, hhi⟩ | hpage
        · exact .inl (by omega)
        · exact .inr ⟨page, hpage, hin⟩
      · rintro (hover | ⟨page, hpage, hin⟩)
        · refine ⟨max first.pgstart pgstart, mem_pages_of_cons.mpr (.inl ⟨rfl, ?_⟩), ?_⟩
          · omega
          · exact Set.mem_Icc.mpr (by omega)
        · exact ⟨page, mem_pages_of_cons.mpr (.inr hpage), hin⟩
    rw [hcons, ← ih hnext]
    simp only [ashmemGetPinStatus, rangeBeforePage, pageRangeInRange, pageInRange,
      pageRangeSubsumesRange, Bool.or_eq_true, Bool.and_eq_true, decide_eq_true_eq]
    split_ifs with hbefore hover
    · -- the walk stops: the rest lies below the request too
      simp only [false_iff, not_or]
      refine ⟨by omega, ?_⟩
      rw [ih hnext]
      rintro ⟨page, hpage, hin⟩
      have := hsorted.below hpage
      obtain ⟨hge, -⟩ := Set.mem_Icc.mp hin
      omega
    · exact ⟨fun _ => .inl (by omega), fun _ => rfl⟩
    · exact ⟨.inr, fun h => h.resolve_left (by omega)⟩

/-! ## Unpinning -/

/-- How a pass of `ashmem_unpin` cuts a well-formed list. -/
def UnpinScan.Cuts (pgstart pgend : Nat) (ranges : List Range) : UnpinScan → Prop
  | .insertion before after => ranges = before ++ after ∧
      (∀ range ∈ before, pgend < range.pgstart) ∧ ∀ range ∈ after, range.pgend < pgstart
  | .subsumed => ∃ range ∈ ranges, range.pgstart ≤ pgstart ∧ pgend ≤ range.pgend
  | .overlap before range after => ranges = before ++ range :: after ∧
      range.pgstart ≤ pgend ∧ pgstart ≤ range.pgend

/-- Walking over a range that lies above the request extends the cut. -/
theorem UnpinScan.Cuts.walked {range : Range} {next : List Range} {scan : UnpinScan}
    (h : scan.Cuts pgstart pgend next) (habove : pgend < range.pgstart) :
    (scan.walked range).Cuts pgstart pgend (range :: next) := by
  cases scan with
  | insertion before after =>
    obtain ⟨rfl, hbefore, hafter⟩ := h
    exact ⟨rfl, List.forall_mem_cons.mpr ⟨habove, hbefore⟩, hafter⟩
  | subsumed =>
    obtain ⟨found, hmem, hin⟩ := h
    exact ⟨found, List.mem_cons_of_mem _ hmem, hin⟩
  | overlap before found after =>
    obtain ⟨rfl, hover⟩ := h
    exact ⟨rfl, hover⟩

/-- Each pass ends at the insertion point, at a range holding the request, or at an overlap. -/
theorem unpin_scan_cuts {ranges : List Range} (hsorted : Sorted ranges) (hle : pgstart ≤ pgend) :
    (unpinScan pgstart pgend ranges).Cuts pgstart pgend ranges := by
  induction ranges with
  | nil => exact ⟨rfl, by simp, by simp⟩
  | cons first next ih =>
    obtain ⟨hne, hbelow, hnext⟩ := descending_cons.mp hsorted
    simp only [unpinScan, rangeBeforePage, pageRangeSubsumedByRange, pageRangeInRange,
      pageInRange, pageRangeSubsumesRange, Bool.or_eq_true, Bool.and_eq_true,
      decide_eq_true_eq]
    split_ifs with hbefore hsubsumed hover
    · refine ⟨rfl, by simp, List.forall_mem_cons.mpr ⟨hbefore, fun below hmem => ?_⟩⟩
      exact ((hbelow below hmem).trans_le hne).trans hbefore
    · exact ⟨first, by simp, hsubsumed⟩
    · exact ⟨rfl, by omega⟩
    · exact (ih hnext).walked (by omega)

/-- Putting a range between those above it and those below it. -/
theorem sorted_insert {before after : List Range} {range : Range}
    (hsorted : Sorted (before ++ after)) (hne : range.pgstart ≤ range.pgend)
    (hbefore : ∀ above ∈ before, range.pgend < above.pgstart)
    (hafter : ∀ below ∈ after, below.pgend < range.pgstart) :
    Sorted (before ++ range :: after) := by
  obtain ⟨hfirst, hsecond, hcross⟩ := descending_append.mp hsorted
  refine descending_append.mpr ⟨hfirst, descending_cons.mpr ⟨hne, hafter, hsecond⟩, ?_⟩
  intro above habove below hbelow
  rcases List.mem_cons.mp hbelow with rfl | hbelow
  · exact hbefore above habove
  · exact hcross above habove below hbelow

/-- No other range of a well-formed list holds an interval around one of its ranges. -/
theorem sorted_not_subsumed {before after : List Range} {range other : Range}
    (hsorted : Sorted (before ++ range :: after)) (hmem : other ∈ before ++ after)
    (hlo : other.pgstart ≤ range.pgstart) (hhi : range.pgend ≤ other.pgend) : False := by
  obtain ⟨-, hsecond, hcross⟩ := descending_append.mp hsorted
  obtain ⟨hne, hbelow, -⟩ := descending_cons.mp hsecond
  rcases List.mem_append.mp hmem with hmem | hmem
  · have := hcross other hmem range (by simp)
    omega
  · have := hbelow other hmem
    omega

/-- What `ashmem_unpin` does to a well-formed list. The flag it has collected so far may be set
only when no range holds the widened request, which is why returning early loses no flag. -/
structure Unpinned (pgstart pgend : Nat) (purged : Bool) (ranges result : List Range) : Prop where
  sorted : Sorted result
  pages : unpinnedPages result = unpinnedPages ranges ∪ Set.Icc pgstart pgend
  keeps : purgedPages ranges ⊆ purgedPages result
  marks : purged = true → Set.Icc pgstart pgend ⊆ purgedPages result

theorem unpin_spec {lru : Lru} {purged : Bool} {ranges : List Range} (hsorted : Sorted ranges)
    (hle : pgstart ≤ pgend)
    (hflag : purged = true → ∀ range ∈ ranges, ¬ (range.pgstart ≤ pgstart ∧ pgend ≤ range.pgend)) :
    Unpinned pgstart pgend purged ranges
      (ashmemUnpin true asma pgstart pgend purged lru ranges).1 := by
  induction hn : ranges.length using Nat.strong_induction_on
    generalizing pgstart pgend purged lru ranges with
  | _ n ih =>
    have hcut := unpin_scan_cuts hsorted hle
    unfold ashmemUnpin
    split
    next before after hscan =>
      rw [hscan] at hcut
      obtain ⟨rfl, hbefore, hafter⟩ := hcut
      obtain ⟨lru', halloc⟩ := range_alloc_true asma purged pgstart pgend lru
      simp only [halloc]
      refine ⟨sorted_insert hsorted hle hbefore hafter, ?_, ?_, ?_⟩
      · ext page
        simp only [unpinnedPages, mem_pages_of_append, mem_pages_of_cons, Set.mem_union,
          Set.mem_Icc, true_and]
        tauto
      · intro page
        simp only [purgedPages, mem_pages_of_append, mem_pages_of_cons]
        tauto
      · intro hpurged page hpage
        exact mem_pages_of_append.mpr (.inr (mem_pages_of_cons.mpr (.inl ⟨hpurged, hpage⟩)))
    next hscan =>
      rw [hscan] at hcut
      obtain ⟨range, hmem, hlo, hhi⟩ := hcut
      refine ⟨hsorted, ?_, subset_rfl, fun hpurged => ?_⟩
      · refine (Set.union_eq_left.mpr fun page hpage => ?_).symm
        obtain ⟨hge, hle'⟩ := Set.mem_Icc.mp hpage
        exact mem_pages_of.mpr ⟨range, hmem, rfl, by omega, by omega⟩
      · exact absurd ⟨hlo, hhi⟩ (hflag hpurged range hmem)
    next before range after hscan =>
      rw [hscan] at hcut
      obtain ⟨rfl, hlo, hhi⟩ := hcut
      have hrange : range.pgstart ≤ range.pgend :=
        hsorted.1 range (by simp)
      have hrest : Sorted (before ++ after) :=
        hsorted.sublist ((List.sublist_cons_self range after).append_left before)
      -- the widened request holds `range`, which is disjoint from all the others
      have hnext : Unpinned (min range.pgstart pgstart) (max range.pgend pgend)
          (purged || range.purged) (before ++ after)
          (ashmemUnpin true asma (min range.pgstart pgstart) (max range.pgend pgend)
            (purged || range.purged) (rangeDel asma range lru) (before ++ after)).1 :=
        ih _ (by subst hn; simp) hrest (by omega)
          (fun _ other hmem hin => sorted_not_subsumed hsorted hmem (by omega) (by omega)) rfl
      have hwide : ∀ page, page ∈ Set.Icc (min range.pgstart pgstart) (max range.pgend pgend) ↔
          page ∈ Set.Icc pgstart pgend ∨ (range.pgstart ≤ page ∧ page ≤ range.pgend) := by
        intro page
        simp only [Set.mem_Icc]
        omega
      refine ⟨hnext.sorted, ?_, ?_, ?_⟩
      · ext page
        rw [hnext.pages, Set.mem_union, Set.mem_union, hwide]
        simp only [unpinnedPages, mem_pages_of_append, mem_pages_of_cons, true_and]
        tauto
      · intro page hpage
        rcases mem_pages_of_append.mp hpage with hpage | hpage
        · exact hnext.keeps (mem_pages_of_append.mpr (.inl hpage))
        · rcases mem_pages_of_cons.mp hpage with ⟨hpurged, hin⟩ | hpage
          · exact hnext.marks (by simp [show range.purged = true from hpurged])
              ((hwide page).mpr (.inr hin))
          · exact hnext.keeps (mem_pages_of_append.mpr (.inr hpage))
      · intro hpurged page hpage
        exact hnext.marks (by simp [hpurged]) ((hwide page).mpr (.inl hpage))

end AndroidKernel.Ashmem
