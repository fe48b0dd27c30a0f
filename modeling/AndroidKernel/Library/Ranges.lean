import Mathlib.Data.Set.Lattice
import Mathlib.Order.CompletePartialOrder

/-!
# Ascending lists of half-open ranges

A list of items, each spanning the points from `lo` up to but not including `hi`, is `Separated`
when every range is non-empty and there is a gap between each range and all later ones. `covers`
is the set of points that the list spans. Both decompose along `cons` and `++`.
-/

/-!
## Descending lists of disjoint closed intervals

A list of items, each spanning the closed interval from `lo` to `hi`, is `Descending` when
every interval is non-empty and each lies strictly above all later ones. `cover` is the set of
points the list spans. The rules below decompose both along `cons` and `++`, which is how a
walk over such a list meets them.
-/

namespace AndroidKernel.Library.Intervals

universe u v

variable {Item : Type u} {Point : Type v} [LinearOrder Point] (lo hi : Item → Point)

/-- Every interval is non-empty and lies strictly above all later intervals of the list. -/
def Descending (items : List Item) : Prop :=
  (∀ item ∈ items, lo item ≤ hi item) ∧ items.Pairwise (fun above below => hi below < lo above)

/-- The points that some interval of the list contains. -/
def cover (items : List Item) : Set Point :=
  {point | ∃ item ∈ items, lo item ≤ point ∧ point ≤ hi item}

variable {lo hi}

theorem descending_nil : Descending lo hi [] :=
  ⟨by simp, .nil⟩

theorem descending_cons {item : Item} {items : List Item} :
    Descending lo hi (item :: items) ↔
      lo item ≤ hi item ∧ (∀ below ∈ items, hi below < lo item) ∧ Descending lo hi items := by
  simp only [Descending, List.forall_mem_cons, List.pairwise_cons]
  tauto

theorem descending_append {first second : List Item} :
    Descending lo hi (first ++ second) ↔
      Descending lo hi first ∧ Descending lo hi second ∧
        ∀ above ∈ first, ∀ below ∈ second, hi below < lo above := by
  simp only [Descending, List.forall_mem_append, List.pairwise_append]
  tauto

/-- Removing items keeps a list descending. -/
theorem Descending.sublist {items rest : List Item} (h : Descending lo hi items)
    (hsub : rest.Sublist items) : Descending lo hi rest :=
  ⟨fun item hitem => h.1 item (hsub.subset hitem), h.2.sublist hsub⟩

@[simp] theorem cover_nil : cover lo hi [] = ∅ := by
  simp [cover]

theorem mem_cover {point : Point} {items : List Item} :
    point ∈ cover lo hi items ↔ ∃ item ∈ items, lo item ≤ point ∧ point ≤ hi item :=
  Iff.rfl

end AndroidKernel.Library.Intervals

namespace AndroidKernel.Library.Ranges

universe u v

variable {Item : Type u} {Point : Type v} [LinearOrder Point] (lo hi : Item → Point)

/-- Every range is non-empty and ends before all later ranges, with a gap between them. -/
def Separated (items : List Item) : Prop :=
  (∀ item ∈ items, lo item < hi item) ∧ items.Pairwise fun first second => hi first < lo second

/-- The points that some range of the list contains. -/
def covers (items : List Item) : Set Point :=
  {point | ∃ item ∈ items, lo item ≤ point ∧ point < hi item}

variable {lo hi}

theorem separated_nil : Separated lo hi [] :=
  ⟨nofun, .nil⟩

theorem separated_cons {item : Item} {items : List Item} :
    Separated lo hi (item :: items) ↔
      lo item < hi item ∧ (∀ later ∈ items, hi item < lo later) ∧ Separated lo hi items := by
  simp only [Separated, List.forall_mem_cons, List.pairwise_cons]
  tauto

theorem separated_append {first second : List Item} :
    Separated lo hi (first ++ second) ↔
      Separated lo hi first ∧ Separated lo hi second ∧
        ∀ a ∈ first, ∀ b ∈ second, hi a < lo b := by
  simp only [Separated, List.forall_mem_append, List.pairwise_append]
  tauto

theorem separated_middle {left right : List Item} {item : Item} :
    Separated lo hi (left ++ item :: right) ↔
      Separated lo hi (left ++ right) ∧ lo item < hi item ∧ (∀ a ∈ left, hi a < lo item) ∧
        ∀ b ∈ right, hi item < lo b := by
  simp only [separated_append, separated_cons, List.forall_mem_cons]
  constructor
  · rintro ⟨hleft, ⟨hitem, hlater, hright⟩, hboth⟩
    exact ⟨⟨hleft, hright, fun a ha => (hboth a ha).2⟩, hitem, fun a ha => (hboth a ha).1, hlater⟩
  · rintro ⟨⟨hleft, hright, hboth⟩, hitem, hbefore, hlater⟩
    exact ⟨hleft, ⟨hitem, hlater, hright⟩, fun a ha => ⟨hbefore a ha, hboth a ha⟩⟩

/-- A range is replaced by parts of it. -/
theorem Separated.replace {left middle right : List Item} {item : Item}
    (h : Separated lo hi (left ++ item :: right)) (hmiddle : Separated lo hi middle)
    (hparts : ∀ m ∈ middle, lo item ≤ lo m ∧ hi m ≤ hi item) :
    Separated lo hi (left ++ middle ++ right) := by
  obtain ⟨hleft, hrest, hboth⟩ := separated_append.mp h
  obtain ⟨_, hlater, hright⟩ := separated_cons.mp hrest
  refine separated_append.mpr ⟨separated_append.mpr ⟨hleft, hmiddle, ?_⟩, hright, ?_⟩
  · intro a ha m hm
    exact (hboth a ha item List.mem_cons_self).trans_le (hparts m hm).1
  · intro a ha b hb
    rcases List.mem_append.mp ha with ha | ha
    · exact hboth a ha b (List.mem_cons_of_mem _ hb)
    · exact (hparts a ha).2.trans_lt (hlater b hb)

@[simp] theorem covers_nil : covers lo hi [] = ∅ := by
  simp [covers]

@[simp] theorem covers_cons (item : Item) (items : List Item) :
    covers lo hi (item :: items) = Set.Ico (lo item) (hi item) ∪ covers lo hi items := by
  ext point
  simp [covers]

@[simp] theorem covers_append (first second : List Item) :
    covers lo hi (first ++ second) = covers lo hi first ∪ covers lo hi second := by
  ext point
  simp only [covers, List.mem_append, Set.mem_union, Set.mem_ofPred_eq, or_and_right, exists_or]

theorem covers_middle (left right : List Item) (item : Item) :
    covers lo hi (left ++ item :: right) =
      Set.Ico (lo item) (hi item) ∪ covers lo hi (left ++ right) := by
  simp only [covers_append, covers_cons]
  exact Set.union_left_comm _ _ _

/-- A range that is joined to one of the list. -/
theorem covers_joined {left right : List Item} {item joined : Item} {s : Set Point}
    (h : Set.Ico (lo joined) (hi joined) = Set.Ico (lo item) (hi item) ∪ s) :
    covers lo hi (left ++ joined :: right) = covers lo hi (left ++ item :: right) ∪ s := by
  rw [covers_middle, covers_middle, h, Set.union_right_comm]

theorem Ico_subset_covers {items : List Item} {item : Item} (h : item ∈ items) :
    Set.Ico (lo item) (hi item) ⊆ covers lo hi items :=
  fun _ hpoint => ⟨item, h, hpoint⟩

/-- The ranges of a separated list do not meet. -/
theorem Separated.disjoint {left right : List Item} {item : Item}
    (h : Separated lo hi (left ++ item :: right)) :
    Disjoint (Set.Ico (lo item) (hi item)) (covers lo hi (left ++ right)) := by
  obtain ⟨_, _, hbefore, hlater⟩ := separated_middle.mp h
  refine Set.disjoint_left.mpr ?_
  rintro point ⟨hlo, hhi⟩ ⟨other, hother, hlo', hhi'⟩
  rcases List.mem_append.mp hother with hother | hother
  · exact absurd (hhi'.trans (hbefore other hother)) (not_lt.mpr hlo)
  · exact absurd (hhi.trans (hlater other hother)) (not_lt.mpr hlo')

/-- Taking away a part of one range leaves the other ranges alone. -/
theorem Separated.covers_diff {left right : List Item} {item : Item} {s : Set Point}
    (h : Separated lo hi (left ++ item :: right)) (hs : s ⊆ Set.Ico (lo item) (hi item)) :
    covers lo hi (left ++ item :: right) \ s =
      Set.Ico (lo item) (hi item) \ s ∪ covers lo hi (left ++ right) := by
  rw [covers_middle, Set.union_sdiff_distrib, (h.disjoint.mono_left hs).sdiff_eq_right]

end AndroidKernel.Library.Ranges
