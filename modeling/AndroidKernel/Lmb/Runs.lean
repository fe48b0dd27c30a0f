import AndroidKernel.Lmb.Model
import Mathlib.Order.Interval.Set.LinearOrder
import AndroidKernel.Library.Runs

/-!
# Changes of a table

What `lmb_add_region` and `lmb_remove` do to a sound table, and to the addresses it covers.
-/

namespace AndroidKernel.Lmb

open Library Library.Ranges

/-- The entries of a table. -/
def LmbRegion.live (rgn : LmbRegion) : List LmbProperty :=
  stretch rgn.region 0 rgn.cnt

/-- The addresses that a table covers. -/
def LmbRegion.covered (rgn : LmbRegion) : Set Nat :=
  covers LmbProperty.base LmbProperty.stop rgn.live

/-- The dummy entry of `lmb_init`. -/
def LmbRegion.Dummy (rgn : LmbRegion) : Prop :=
  rgn.cnt = 1 ∧ (rgn.region 0).size = 0

/-- A sound table. -/
structure TableOk (rgn : LmbRegion) : Prop where
  cnt_le : rgn.cnt ≤ maxLmbRegions
  stop_lt : ∀ r ∈ rgn.live, r.stop < 2 ^ 64
  regions : rgn.Dummy ∨ Separated LmbProperty.base LmbProperty.stop rgn.live

theorem cntPred_of_pos {rgn : LmbRegion} (hpos : 0 < rgn.cnt) (hle : rgn.cnt ≤ maxLmbRegions) :
    rgn.cntPred = rgn.cnt - 1 := by
  have : maxLmbRegions = 128 := rfl
  unfold LmbRegion.cntPred
  omega

theorem add64_of_lt {a b : Nat} (h : a + b < 2 ^ 64) : add64 a b = a + b :=
  Nat.mod_eq_of_lt h

theorem sub64_of_le {a b : Nat} (hle : b ≤ a) (h : a < 2 ^ 64) : sub64 a b = a - b := by
  unfold sub64
  omega

theorem add64_eq_stop {r : LmbProperty} (h : r.stop < 2 ^ 64) : add64 r.base r.size = r.stop :=
  add64_of_lt h

/-- A table written as its entries before, at and after `i`. -/
theorem live_split {rgn : LmbRegion} {i : Nat} (h : i < rgn.cnt) :
    rgn.live = stretch rgn.region 0 i ++
      rgn.region i :: stretch rgn.region (i + 1) (rgn.cnt - i - 1) :=
  stretch_split h

theorem lmbRemoveRegion_spec {rgn : LmbRegion} {i : Nat} (hle : rgn.cnt ≤ maxLmbRegions)
    (h : i < rgn.cnt) :
    ∃ rgn', lmbRemoveRegion rgn i = some rgn' ∧ rgn'.cnt = rgn.cnt - 1 ∧
      rgn'.live = stretch rgn.region 0 i ++ stretch rgn.region (i + 1) (rgn.cnt - i - 1) := by
  have hpred := cntPred_of_pos (by omega) hle
  have hrun : lmbRemoveRegion rgn i =
      some ⟨rgn.cntPred, shiftDown rgn.region i (rgn.cntPred - i)⟩ := by
    rw [lmbRemoveRegion, if_neg (by omega)]
  refine ⟨_, hrun, hpred, ?_⟩
  unfold LmbRegion.live
  rw [show rgn.cntPred - i = rgn.cnt - i - 1 by omega,
    show rgn.cntPred = i + (rgn.cnt - i - 1) by omega, stretch_shiftDown]

theorem LmbRegion.Dummy.covered_eq {rgn : LmbRegion} (h : rgn.Dummy) : rgn.covered = ∅ := by
  have hlive : rgn.live = [rgn.region 0] := by
    rw [LmbRegion.live, h.1]
    rfl
  have hstop : (rgn.region 0).stop = (rgn.region 0).base := by
    rw [LmbProperty.stop, h.2, Nat.add_zero]
  rw [LmbRegion.covered, hlive, covers_cons, covers_nil, hstop, Set.Ico_self, Set.union_empty]

/-! ## Adding a range -/

/-- The ranges of a list do not meet a range. -/
def ClearOf (base stop : Nat) (regions : List LmbProperty) : Prop :=
  Disjoint (covers LmbProperty.base LmbProperty.stop regions) (Set.Ico base stop)

theorem ClearOf.of_mem {base stop : Nat} {regions : List LmbProperty} {r : LmbProperty}
    (h : ClearOf base stop regions) (hmem : r ∈ regions) (hr : r.base < r.stop)
    (hlt : base < stop) : r.stop ≤ base ∨ stop ≤ r.base := by
  by_contra hcon
  have hin : max base r.base ∈ Set.Ico r.base r.stop := ⟨by omega, by omega⟩
  exact Set.disjoint_left.mp h (Ico_subset_covers hmem hin) ⟨by omega, by omega⟩

/-- Two ranges that are not adjacent do not touch. -/
theorem not_touching {base size : Nat} {r : LmbProperty} (hend : base + size < 2 ^ 64)
    (hr : r.stop < 2 ^ 64) (h : lmbAddrsAdjacent base size r.base r.size = 0) :
    r.base ≠ base + size ∧ r.stop ≠ base := by
  unfold lmbAddrsAdjacent at h
  rw [add64_of_lt hend, add64_eq_stop hr] at h
  split_ifs at h with hafter hbefore
  · cases h
  · exact ⟨hafter, Ne.symm hbefore⟩

/-- A region grows downwards. -/
theorem separated_extend_down {left right : List LmbProperty} {r : LmbProperty} {base size : Nat}
    (h : Separated LmbProperty.base LmbProperty.stop (left ++ r :: right)) (hsize : 0 < size)
    (hr : r.base = base + size) (hclear : ClearOf base (base + size) (left ++ r :: right))
    (hleft : ∀ x ∈ left, x.stop ≠ base) :
    Separated LmbProperty.base LmbProperty.stop (left ++ ⟨base, r.size + size⟩ :: right) := by
  obtain ⟨hrest, hitem, hbefore, hlater⟩ := separated_middle.mp h
  have hstop : LmbProperty.stop ⟨base, r.size + size⟩ = r.stop := by
    show base + (r.size + size) = r.base + r.size
    omega
  refine separated_middle.mpr ⟨hrest, ?_, ?_, ?_⟩
  · rw [hstop]
    show base < r.stop
    omega
  · intro x hx
    have hne := hleft x hx
    have hxr := hbefore x hx
    have hxs := (separated_append.mp h).1.1 x hx
    have := hclear.of_mem (List.mem_append_left _ hx) hxs (by omega)
    show x.stop < base
    omega
  · rw [hstop]
    exact hlater

/-- A region grows upwards, up to `stop`, which is before the next one. -/
theorem separated_extend_up {left right : List LmbProperty} {r : LmbProperty} {size : Nat}
    (h : Separated LmbProperty.base LmbProperty.stop (left ++ r :: right))
    (hright : ∀ x ∈ right, r.stop + size < x.base) :
    Separated LmbProperty.base LmbProperty.stop (left ++ ⟨r.base, r.size + size⟩ :: right) := by
  obtain ⟨hrest, hitem, hbefore, hlater⟩ := separated_middle.mp h
  have hstop : LmbProperty.stop ⟨r.base, r.size + size⟩ = r.stop + size :=
    (Nat.add_assoc _ _ _).symm
  refine separated_middle.mpr ⟨hrest, ?_, hbefore, ?_⟩
  · rw [hstop]
    show r.base < _
    omega
  · rw [hstop]
    exact hright

/-- What adding a range to a table should do. -/
structure Added (rgn : LmbRegion) (base size : Nat) (ret : Int) (rgn' : LmbRegion) : Prop where
  ok : TableOk rgn'
  covered : 0 ≤ ret → rgn'.covered = rgn.covered ∪ Set.Ico base (base + size)
  failed : ret < 0 → rgn' = rgn
  success : rgn.cnt < maxLmbRegions → 0 ≤ ret

/-- The range was added: what has to be shown is about the list of the entries. -/
theorem Added.of_live {rgn rgn' : LmbRegion} {base size : Nat} {ret : Int}
    {regions : List LmbProperty} (hlive : rgn'.live = regions) (hret : 0 ≤ ret)
    (hcnt : rgn'.cnt ≤ maxLmbRegions) (hstop : ∀ r ∈ regions, r.stop < 2 ^ 64)
    (hsep : Separated LmbProperty.base LmbProperty.stop regions)
    (hcovers : covers LmbProperty.base LmbProperty.stop regions =
      rgn.covered ∪ Set.Ico base (base + size)) : Added rgn base size ret rgn' := by
  subst hlive
  exact ⟨⟨hcnt, hstop, .inr hsep⟩, fun _ => hcovers, fun hneg => absurd hneg (by omega),
    fun _ => hret⟩

/-- A table whose region at `i` was replaced. -/
theorem live_update {rgn : LmbRegion} {i : Nat} {r : LmbProperty} (h : i < rgn.cnt) :
    LmbRegion.live ⟨rgn.cnt, Function.update rgn.region i r⟩ =
      stretch rgn.region 0 i ++ r :: stretch rgn.region (i + 1) (rgn.cnt - i - 1) :=
  stretch_update h

section Add

variable {rgn : LmbRegion} {base size i : Nat}

/-- The range was joined to the region at `i`, and nothing else happens. -/
theorem finishAdd_joined {r : LmbProperty} (hi : i < rgn.cnt) (hle : rgn.cnt ≤ maxLmbRegions)
    (hstop : r.stop < 2 ^ 64)
    (hnext : ∀ x ∈ stretch rgn.region (i + 1) (rgn.cnt - i - 1), x.stop < 2 ^ 64 ∧ r.stop < x.base) :
    finishAdd ⟨rgn.cnt, Function.update rgn.region i r⟩ base size i 1 =
      some (1, ⟨rgn.cnt, Function.update rgn.region i r⟩) := by
  have hpred : LmbRegion.cntPred ⟨rgn.cnt, Function.update rgn.region i r⟩ = rgn.cnt - 1 :=
    cntPred_of_pos (by dsimp only; omega) hle
  rw [finishAdd, if_neg, if_pos (by decide)]
  rintro ⟨hlt, hadj⟩
  rw [hpred] at hlt
  obtain ⟨hx, hgap⟩ := hnext (rgn.region (i + 1))
    (mem_stretch.mpr ⟨i + 1, Nat.le_refl _, by omega, rfl⟩)
  apply hadj
  unfold lmbRegionsAdjacent
  dsimp only
  rw [Function.update_self, Function.update_of_ne (show i + 1 ≠ i by omega)]
  unfold lmbAddrsAdjacent
  rw [add64_eq_stop hstop, add64_eq_stop hx, if_neg (by omega), if_neg]
  have : r.base ≤ r.stop := Nat.le_add_right _ _
  have : (rgn.region (i + 1)).base ≤ (rgn.region (i + 1)).stop := Nat.le_add_right _ _
  omega

/-- The range was joined to the region at `i`, which now touches the next one. -/
theorem finishAdd_touching {r : LmbProperty} (hi : i + 1 < rgn.cnt) (hle : rgn.cnt ≤ maxLmbRegions)
    (hnext : (rgn.region (i + 1)).base = r.stop) (hstop : (rgn.region (i + 1)).stop < 2 ^ 64) :
    ∃ rgn', finishAdd ⟨rgn.cnt, Function.update rgn.region i r⟩ base size i 1 = some (2, rgn') ∧
      rgn'.cnt = rgn.cnt - 1 ∧ rgn'.live = stretch rgn.region 0 i ++
        ⟨r.base, r.size + (rgn.region (i + 1)).size⟩ ::
          stretch rgn.region (i + 2) (rgn.cnt - i - 2) := by
  have hpred : LmbRegion.cntPred ⟨rgn.cnt, Function.update rgn.region i r⟩ = rgn.cnt - 1 :=
    cntPred_of_pos (by dsimp only; omega) hle
  have hrstop : r.stop = r.base + r.size := rfl
  have hnstop : (rgn.region (i + 1)).stop =
    (rgn.region (i + 1)).base + (rgn.region (i + 1)).size := rfl
  have hadj : lmbRegionsAdjacent ⟨rgn.cnt, Function.update rgn.region i r⟩ i (i + 1) ≠ 0 := by
    unfold lmbRegionsAdjacent
    dsimp only
    rw [Function.update_self, Function.update_of_ne (show i + 1 ≠ i by omega), lmbAddrsAdjacent,
      add64_eq_stop (by omega), if_pos hnext]
    decide
  have hcoalesce : lmbCoalesceRegions ⟨rgn.cnt, Function.update rgn.region i r⟩ i (i + 1) =
      lmbRemoveRegion ⟨rgn.cnt, Function.update rgn.region i
        ⟨r.base, r.size + (rgn.region (i + 1)).size⟩⟩ (i + 1) := by
    unfold lmbCoalesceRegions
    dsimp only
    rw [Function.update_self, Function.update_of_ne (show i + 1 ≠ i by omega),
      Function.update_idem, add64_of_lt (by omega)]
  obtain ⟨rgn', hremove, hcnt, hlive⟩ := @lmbRemoveRegion_spec ⟨rgn.cnt, Function.update rgn.region i
    ⟨r.base, r.size + (rgn.region (i + 1)).size⟩⟩ (i + 1) hle hi
  refine ⟨rgn', ?_, hcnt, ?_⟩
  · rw [finishAdd, if_pos ⟨by omega, hadj⟩, hcoalesce, hremove]
    rfl
  · rw [hlive]
    dsimp only
    rw [stretch_update (Nat.lt_succ_self i), stretch_update_of_lt (by omega),
      show i + 1 - i - 1 = 0 by omega, show rgn.cnt - (i + 1) - 1 = rgn.cnt - i - 2 by omega,
      List.append_assoc]
    rfl

variable (h : TableOk rgn) (hsep : Separated LmbProperty.base LmbProperty.stop rgn.live)
  (hsize : 0 < size) (hend : base + size < 2 ^ 64) (hclear : ClearOf base (base + size) rgn.live)

include h hsep hsize hend hclear

/-- The range ends where a region starts. -/
theorem finishAdd_after (hi : i < rgn.cnt)
    (hbefore : ∀ r ∈ stretch rgn.region 0 i, lmbAddrsAdjacent base size r.base r.size = 0)
    (hhere : (rgn.region i).base = add64 base size) :
    ∃ ret rgn', finishAdd ⟨rgn.cnt, Function.update rgn.region i
        ⟨sub64 (rgn.region i).base size, add64 (rgn.region i).size size⟩⟩ base size i 1 =
          some (ret, rgn') ∧ Added rgn base size ret rgn' := by
  rw [add64_of_lt hend] at hhere
  have hstops := h.stop_lt
  have hlive := live_split hi
  have hlive' := @live_update rgn i ⟨base, (rgn.region i).size + size⟩ hi
  rw [hlive] at hsep hclear hstops
  simp only [List.forall_mem_append, List.forall_mem_cons] at hstops
  obtain ⟨hleft, hr, hright⟩ := hstops
  obtain ⟨_, hitem, _, hlater⟩ := separated_middle.mp hsep
  have hrstop : (rgn.region i).stop = (rgn.region i).base + (rgn.region i).size := rfl
  have hstop : LmbProperty.stop ⟨base, (rgn.region i).size + size⟩ = (rgn.region i).stop := by
    show base + ((rgn.region i).size + size) = _
    omega
  rw [sub64_of_le (by omega) (by omega), add64_of_lt (by omega),
    show (rgn.region i).base - size = base by omega]
  refine ⟨1, _, finishAdd_joined hi h.cnt_le (by rw [hstop]; exact hr) ?_,
    .of_live hlive' (by decide) h.cnt_le ?_ ?_ ?_⟩
  · intro x hx
    rw [hstop]
    exact ⟨hright x hx, hlater x hx⟩
  · simp only [List.forall_mem_append, List.forall_mem_cons, hstop]
    exact ⟨hleft, hr, hright⟩
  · exact separated_extend_down hsep hsize hhere hclear
      fun x hx => (not_touching hend (hleft x hx) (hbefore x hx)).2
  · rw [LmbRegion.covered, hlive]
    refine covers_joined ?_
    rw [hstop, Set.union_comm, hhere]
    exact (Set.Ico_union_Ico_eq_Ico (show base ≤ base + size by omega)
      (show base + size ≤ (rgn.region i).stop by omega)).symm

/-- The range starts where a region ends. -/
theorem finishAdd_before (hi : i < rgn.cnt)
    (hhere : base = add64 (rgn.region i).base (rgn.region i).size) :
    ∃ ret rgn', finishAdd ⟨rgn.cnt, Function.update rgn.region i
        ⟨(rgn.region i).base, add64 (rgn.region i).size size⟩⟩ base size i 1 =
          some (ret, rgn') ∧ Added rgn base size ret rgn' := by
  have hstops := h.stop_lt
  have hlive := live_split hi
  have hlive' := @live_update rgn i ⟨(rgn.region i).base, (rgn.region i).size + size⟩ hi
  rw [hlive] at hsep hclear hstops
  simp only [List.forall_mem_append, List.forall_mem_cons] at hstops
  obtain ⟨hleft, hr, hright⟩ := hstops
  rw [add64_eq_stop hr] at hhere
  obtain ⟨_, hitem, _, hlater⟩ := separated_middle.mp hsep
  have hrstop : (rgn.region i).stop = (rgn.region i).base + (rgn.region i).size := rfl
  have hstop : LmbProperty.stop ⟨(rgn.region i).base, (rgn.region i).size + size⟩ =
      base + size := by
    show (rgn.region i).base + ((rgn.region i).size + size) = _
    omega
  rw [add64_of_lt (by omega)]
  -- the regions behind the range do not start before its end
  have hbehind : ∀ x ∈ stretch rgn.region (i + 1) (rgn.cnt - i - 1), base + size ≤ x.base := by
    intro x hx
    have := hlater x hx
    have hxs := (separated_cons.mp (separated_append.mp hsep).2.1).2.2.1 x hx
    have := hclear.of_mem (List.mem_append_right _ (List.mem_cons_of_mem _ hx)) hxs (by omega)
    omega
  by_cases hnext : ∃ x ∈ stretch rgn.region (i + 1) (rgn.cnt - i - 1), x.base = base + size
  · obtain ⟨x, hx, hxbase⟩ := hnext
    have hcnt : i + 1 < rgn.cnt := by
      obtain ⟨j, hij, hj, _⟩ := mem_stretch.mp hx
      omega
    have hsplit : stretch rgn.region (i + 1) (rgn.cnt - i - 1) =
        rgn.region (i + 1) :: stretch rgn.region (i + 2) (rgn.cnt - i - 2) := by
      rw [show rgn.cnt - i - 1 = rgn.cnt - i - 2 + 1 by omega, stretch_succ]
    rw [hsplit] at hsep hright hbehind hx hlive
    rw [List.forall_mem_cons] at hright hbehind
    obtain ⟨hrest, hnitem, hnbefore, hnlater⟩ := separated_middle.mp
      (show Separated LmbProperty.base LmbProperty.stop
        ((stretch rgn.region 0 i ++ [rgn.region i]) ++ rgn.region (i + 1) :: _) by
          rw [List.append_assoc]; exact hsep)
    -- only the first of the regions behind can start at the end of the range
    have hnext : (rgn.region (i + 1)).base = base + size := by
      rcases List.mem_cons.mp hx with rfl | hx
      · exact hxbase
      · have := hnlater x hx
        have := hbehind.1
        omega
    rw [List.append_assoc] at hrest
    have hnstop : (rgn.region (i + 1)).stop =
      (rgn.region (i + 1)).base + (rgn.region (i + 1)).size := rfl
    have hjoined : LmbProperty.stop ⟨(rgn.region i).base,
        (rgn.region i).size + (size + (rgn.region (i + 1)).size)⟩ = (rgn.region (i + 1)).stop := by
      show (rgn.region i).base + ((rgn.region i).size + (size + (rgn.region (i + 1)).size)) = _
      omega
    obtain ⟨rgn', hrun, hcnt', hlive''⟩ := @finishAdd_touching rgn base size i
      ⟨(rgn.region i).base, (rgn.region i).size + size⟩ hcnt h.cnt_le (by rw [hstop, hnext])
      hright.1
    dsimp only at hlive''
    rw [Nat.add_assoc] at hlive''
    refine ⟨2, rgn', hrun, .of_live hlive'' (by decide) (by have := h.cnt_le; omega) ?_ ?_ ?_⟩
    · simp only [List.forall_mem_append, List.forall_mem_cons, hjoined]
      exact ⟨hleft, hright.1, hright.2⟩
    · refine separated_extend_up hrest ?_
      intro y hy
      have := hnlater y hy
      omega
    rw [LmbRegion.covered, hlive, covers_middle, covers_middle, covers_middle, hjoined]
    ext p
    simp only [Set.mem_union, Set.mem_Ico]
    by_cases hp : p ∈ covers LmbProperty.base LmbProperty.stop
        (stretch rgn.region 0 i ++ stretch rgn.region (i + 2) (rgn.cnt - i - 2))
    · simp only [hp, or_true, true_or]
    · simp only [hp, or_false]
      omega
  have hgap : ∀ x ∈ stretch rgn.region (i + 1) (rgn.cnt - i - 1), base + size < x.base :=
    fun x hx => Nat.lt_of_le_of_ne (hbehind x hx) fun heq => hnext ⟨x, hx, heq.symm⟩
  refine ⟨1, _, finishAdd_joined hi h.cnt_le (by rw [hstop]; exact hend) ?_,
    .of_live hlive' (by decide) h.cnt_le ?_ ?_ ?_⟩
  · intro x hx
    rw [hstop]
    exact ⟨hright x hx, hgap x hx⟩
  · simp only [List.forall_mem_append, List.forall_mem_cons, hstop]
    exact ⟨hleft, hend, hright⟩
  · exact separated_extend_up hsep (by rw [← hhere]; exact hgap)
  · rw [LmbRegion.covered, hlive]
    refine covers_joined ?_
    rw [hstop, ← hhere]
    exact (Set.Ico_union_Ico_eq_Ico (show (rgn.region i).base ≤ base by omega)
      (show base ≤ base + size by omega)).symm

/-- The range touches no region, and the table has room. -/
theorem insertRegion_added (hcnt : rgn.cnt < maxLmbRegions)
    (hempty : rgn.cnt = 0 → base < (rgn.region 0).base)
    (hall : ∀ r ∈ rgn.live, lmbAddrsAdjacent base size r.base r.size = 0) :
    Added rgn base size 0 (insertRegion rgn base size) := by
  obtain ⟨left, right, hsplit, hright, hcases⟩ := insertLoop_spec rgn.region base size rgn.cnt
  have hsplit : rgn.live = left ++ right := hsplit
  have hstops := h.stop_lt
  rw [hsplit] at hsep hclear hstops hall
  have hapart : ∀ r ∈ left ++ right, r.stop < base ∨ base + size < r.base := by
    intro r hr
    have hne := not_touching hend (hstops r hr) (hall r hr)
    have := hclear.of_mem hr (hsep.1 r hr) (by omega)
    omega
  -- the entries that were not moved are before the range
  have hleft : ∀ x ∈ left, x.stop < base := by
    intro x hx
    rcases hcases with ⟨rfl, _⟩ | ⟨⟨before, r, rfl, hr⟩, _⟩
    · cases hx
    have hxr : x = r ∨ x.stop < r.base := by
      rcases List.mem_append.mp hx with hx | hx
      · exact .inr ((separated_append.mp (separated_append.mp hsep).1).2.2 x hx r (by simp))
      · exact .inl (List.mem_singleton.mp hx)
    rcases hxr with rfl | hlt
    · have := hapart x (List.mem_append_left _ hx)
      omega
    · omega
  have hlive : (insertRegion rgn base size).live = left ++ ⟨base, size⟩ :: right := by
    unfold insertRegion
    dsimp only
    rcases hcases with ⟨rfl, hmoved, hfirst⟩ | ⟨⟨before, r, hlast, hr⟩, hfirst, hmoved⟩
    · have hlt : base < (rgn.region 0).base := by
        by_cases hzero : rgn.cnt = 0
        · exact hempty hzero
        · refine hright _ ?_
          rw [← List.nil_append right, ← hsplit]
          exact mem_stretch.mpr ⟨0, Nat.le_refl 0, by omega, rfl⟩
      rw [hfirst, if_pos hlt]
      unfold LmbRegion.live
      dsimp only
      rw [stretch_succ, Function.update_self, stretch_update_of_lt Nat.one_pos, hmoved]
      rfl
    have hmem : rgn.region 0 ∈ left := by
      cases left with
      | nil => exact absurd hlast (by simp)
      | cons x left =>
        cases hn : rgn.cnt with
        | zero =>
          rw [LmbRegion.live, hn] at hsplit
          cases hsplit
        | succ n =>
          rw [LmbRegion.live, hn, stretch_succ, List.cons_append] at hsplit
          rw [(List.cons.inj hsplit).1]
          exact List.mem_cons_self
    have hle : (rgn.region 0).base ≤ (rgn.region 0).stop := Nat.le_add_right _ _
    have := hleft _ hmem
    rw [hfirst, if_neg (by omega)]
    exact hmoved
  refine .of_live hlive (Int.le_refl 0) ?_ ?_ ?_ ?_
  · unfold insertRegion
    dsimp only
    split_ifs <;> exact hcnt
  · simp only [List.forall_mem_append, List.forall_mem_cons] at hstops ⊢
    exact ⟨hstops.1, hend, hstops.2⟩
  · refine separated_middle.mpr ⟨hsep, ?_, hleft, ?_⟩
    · show base < base + size
      omega
    · intro r hr
      have := hright r hr
      have := hsep.1 r (List.mem_append_right _ hr)
      have := hapart r (List.mem_append_right _ hr)
      show base + size < r.base
      omega
  · rw [LmbRegion.covered, hsplit, covers_middle, Set.union_comm]
    rfl

end Add

/-- The condition on a call that adds to an empty table: the entry that a removal left behind is
above the range, and does not touch the one after it. -/
def AddGuard (rgn : LmbRegion) (base : Nat) : Prop :=
  rgn.cnt = 0 → base < (rgn.region 0).base ∧ lmbRegionsAdjacent rgn 0 1 = 0

theorem lmbAddRegion_added {rgn : LmbRegion} {base size : Nat} (h : TableOk rgn) (hsize : 0 < size)
    (hend : base + size < 2 ^ 64) (hclear : ClearOf base (base + size) rgn.live)
    (hguard : AddGuard rgn base) :
    ∃ ret rgn', lmbAddRegion rgn base size = some (ret, rgn') ∧ Added rgn base size ret rgn' := by
  unfold lmbAddRegion
  split_ifs with hdummy
  · have hlive : LmbRegion.live ⟨rgn.cnt, Function.update rgn.region 0 ⟨base, size⟩⟩ =
        [⟨base, size⟩] := by
      rw [LmbRegion.live, hdummy.1]
      rfl
    refine ⟨0, _, rfl, .of_live hlive (Int.le_refl 0) h.cnt_le ?_ ?_ ?_⟩
    · rw [List.forall_mem_singleton]
      exact hend
    · refine separated_cons.mpr ⟨?_, nofun, separated_nil⟩
      show base < base + size
      omega
    · rw [LmbRegion.Dummy.covered_eq hdummy, covers_cons, covers_nil, Set.union_comm]
      rfl
  have hsep := h.regions.resolve_left hdummy
  have hstops := coalesceLoop_stops rgn.region base size 0 rgn.cnt
  generalize coalesceLoop rgn.region base size 0 rgn.cnt = found at hstops ⊢
  cases hstops with
  | already hmem hbase hrsize =>
    have := hclear.of_mem hmem (hsep.1 _ hmem) (by omega)
    have := hsep.1 _ hmem
    omega
  | after hle hlt hbefore hhere =>
    exact finishAdd_after h hsep hsize hend hclear (by omega) hbefore hhere
  | before hle hlt hbefore hhere =>
    exact finishAdd_before h hsep hsize hend hclear (by omega) hhere
  | apart hall =>
    have hnot : ¬ (rgn.cnt < rgn.cntPred ∧ lmbRegionsAdjacent rgn rgn.cnt (rgn.cnt + 1) ≠ 0) := by
      rintro ⟨hlt, hadj⟩
      by_cases hzero : rgn.cnt = 0
      · rw [hzero] at hadj
        exact hadj (hguard hzero).2
      · rw [cntPred_of_pos (Nat.pos_of_ne_zero hzero) h.cnt_le] at hlt
        omega
    show ∃ ret rgn', finishAdd rgn base size (0 + rgn.cnt) 0 = some (ret, rgn') ∧ _
    rw [Nat.zero_add, finishAdd, if_neg hnot, if_neg (not_not.mpr rfl)]
    split_ifs with hfull
    · refine ⟨-1, rgn, rfl, h, fun hret => absurd hret (by decide), fun _ => rfl, ?_⟩
      intro hlt
      omega
    · exact ⟨0, _, rfl, insertRegion_added h hsep hsize hend hclear (by omega)
        (fun hzero => (hguard hzero).1) hall⟩

/-! ## Removing a range -/

/-- What removing a range from a table should do. -/
structure Removed (rgn : LmbRegion) (base size : Nat) (ret : Int) (rgn' : LmbRegion) : Prop where
  ok : TableOk rgn'
  covered : 0 ≤ ret → rgn'.covered = rgn.covered \ Set.Ico base (base + size)
  failed : ret < 0 → rgn' = rgn

/-- The range lies within one region of the table. -/
def Contained (rgn : LmbRegion) (base size : Nat) : Prop :=
  ∃ r ∈ rgn.live, r.base ≤ base ∧ base + size ≤ r.stop

/-- The condition on a removal: a full table has no room for the two parts of a region. -/
def RemoveGuard (rgn : LmbRegion) (base size : Nat) : Prop :=
  maxLmbRegions ≤ rgn.cnt → ∀ r ∈ rgn.live, ¬ (r.base < base ∧ base + size < r.stop)

theorem Removed.of_live {rgn rgn' : LmbRegion} {base size : Nat} {regions : List LmbProperty}
    (hlive : rgn'.live = regions) (hcnt : rgn'.cnt ≤ maxLmbRegions)
    (hstop : ∀ r ∈ regions, r.stop < 2 ^ 64)
    (hsep : Separated LmbProperty.base LmbProperty.stop regions)
    (hcovers : covers LmbProperty.base LmbProperty.stop regions =
      rgn.covered \ Set.Ico base (base + size)) : Removed rgn base size 0 rgn' := by
  subst hlive
  exact ⟨⟨hcnt, hstop, .inr hsep⟩, fun _ => hcovers, fun hneg => absurd hneg (by decide)⟩

theorem shrink_region {rgn : LmbRegion} {i : Nat} {r : LmbProperty} (h : TableOk rgn)
    (hsep : Separated LmbProperty.base LmbProperty.stop rgn.live) (hi : i < rgn.cnt)
    (hbase : (rgn.region i).base ≤ r.base) (hlt : r.base < r.stop)
    (hstop : r.stop ≤ (rgn.region i).stop) :
    TableOk ⟨rgn.cnt, Function.update rgn.region i r⟩ ∧
      LmbRegion.covered ⟨rgn.cnt, Function.update rgn.region i r⟩ = Set.Ico r.base r.stop ∪
        covers LmbProperty.base LmbProperty.stop
          (stretch rgn.region 0 i ++ stretch rgn.region (i + 1) (rgn.cnt - i - 1)) := by
  have hstops := h.stop_lt
  have hlive' := @live_update rgn i r hi
  rw [live_split hi] at hsep hstops
  simp only [List.forall_mem_append, List.forall_mem_cons] at hstops
  obtain ⟨hleft, hr, hright⟩ := hstops
  obtain ⟨hrest, _, hbefore, hlater⟩ := separated_middle.mp hsep
  refine ⟨⟨h.cnt_le, ?_, .inr ?_⟩, ?_⟩
  · rw [hlive']
    simp only [List.forall_mem_append, List.forall_mem_cons]
    exact ⟨hleft, hstop.trans_lt hr, hright⟩
  · rw [hlive']
    exact separated_middle.mpr ⟨hrest, hlt, fun a ha => (hbefore a ha).trans_le hbase,
      fun b hb => hstop.trans_lt (hlater b hb)⟩
  · rw [LmbRegion.covered, hlive', covers_middle]

theorem lmbRemoveFrom_removed {rgn : LmbRegion} {base size : Nat} (h : TableOk rgn)
    (hsize : 0 < size) (hin : Contained rgn base size) (hguard : RemoveGuard rgn base size) :
    ∃ ret rgn', lmbRemoveFrom rgn base size = some (ret, rgn') ∧
      Removed rgn base size ret rgn' := by
  have hsep : Separated LmbProperty.base LmbProperty.stop rgn.live := by
    refine h.regions.resolve_left ?_
    intro hdummy
    obtain ⟨r, hr, hbase, hstop⟩ := hin
    have hmem : base ∈ rgn.covered := ⟨r, hr, hbase, by omega⟩
    rw [hdummy.covered_eq] at hmem
    exact hmem
  have hend : base + size < 2 ^ 64 := by
    obtain ⟨r, hr, _, hstop⟩ := hin
    have := h.stop_lt r hr
    omega
  obtain ⟨i, hfind, _, hi, hbase, hstop⟩ := @findRegion_spec rgn.region base (base + size) 0 rgn.cnt
    (by
      obtain ⟨r, hr, hb, hs⟩ := hin
      obtain ⟨j, hj0, hj, rfl⟩ := mem_stretch.mp hr
      exact ⟨j, hj0, hj, hb, by rw [add64_eq_stop (h.stop_lt _ hr)]; exact hs⟩)
  rw [Nat.zero_add] at hi
  have hlive := live_split hi
  have hr := h.stop_lt (rgn.region i) (mem_stretch.mpr ⟨i, Nat.zero_le i, by omega, rfl⟩)
  rw [add64_eq_stop hr] at hstop
  have hrstop : (rgn.region i).stop = (rgn.region i).base + (rgn.region i).size := rfl
  have hmiddle := hsep
  rw [hlive] at hmiddle
  have hcovered : rgn.covered \ Set.Ico base (base + size) =
      Set.Ico (rgn.region i).base (rgn.region i).stop \ Set.Ico base (base + size) ∪
        covers LmbProperty.base LmbProperty.stop
          (stretch rgn.region 0 i ++ stretch rgn.region (i + 1) (rgn.cnt - i - 1)) := by
    rw [LmbRegion.covered, hlive]
    exact hmiddle.covers_diff (Set.Ico_subset_Ico hbase hstop)
  unfold lmbRemoveFrom
  dsimp only
  rw [add64_of_lt hend, hfind]
  dsimp only
  rw [add64_eq_stop hr]
  split_ifs with hwhole hfront hback
  · obtain ⟨rgn', hrun, hcnt, hlive'⟩ := lmbRemoveRegion_spec h.cnt_le hi
    refine ⟨0, rgn', by rw [hrun]; rfl, .of_live hlive' ?_ ?_ (separated_middle.mp hmiddle).1 ?_⟩
    · have := h.cnt_le
      omega
    · intro x hx
      refine h.stop_lt x ?_
      rw [hlive]
      rcases List.mem_append.mp hx with hx | hx
      · exact List.mem_append_left _ hx
      · exact List.mem_append_right _ (List.mem_cons_of_mem _ hx)
    · rw [hcovered, hwhole.1, hwhole.2, Set.sdiff_self, Set.empty_union]
  · rw [sub64_of_le (by omega) (by omega)]
    obtain ⟨hok, hcov⟩ := @shrink_region rgn i ⟨base + size, (rgn.region i).size - size⟩ h hsep hi
      (show _ ≤ base + size by omega) (show base + size < base + size + (_ - size) by omega)
      (show base + size + (_ - size) ≤ _ by omega)
    refine ⟨0, _, rfl, hok, fun _ => ?_, fun hneg => absurd hneg (by decide)⟩
    rw [hcov, hcovered]
    congr 1
    ext p
    simp only [LmbProperty.stop, Set.mem_Ico, Set.mem_sdiff]
    omega
  · rw [sub64_of_le (by omega) (by omega)]
    obtain ⟨hok, hcov⟩ := @shrink_region rgn i ⟨(rgn.region i).base, (rgn.region i).size - size⟩ h
      hsep hi (Nat.le_refl _) (show (rgn.region i).base < (rgn.region i).base + (_ - size) by omega)
      (show (rgn.region i).base + (_ - size) ≤ _ by omega)
    refine ⟨0, _, rfl, hok, fun _ => ?_, fun hneg => absurd hneg (by decide)⟩
    rw [hcov, hcovered]
    congr 1
    ext p
    simp only [LmbProperty.stop, Set.mem_Ico, Set.mem_sdiff]
    omega
  rw [sub64_of_le hbase (by omega), sub64_of_le hstop hr]
  obtain ⟨hok, hcov⟩ := @shrink_region rgn i ⟨(rgn.region i).base, base - (rgn.region i).base⟩ h
    hsep hi (Nat.le_refl _) (show (rgn.region i).base < (rgn.region i).base + (_ - _) by omega)
    (show (rgn.region i).base + (_ - _) ≤ _ by omega)
  have hfirst : LmbProperty.stop ⟨(rgn.region i).base, base - (rgn.region i).base⟩ = base :=
    Nat.add_sub_of_le hbase
  rw [hfirst] at hcov
  have hclear : Disjoint (LmbRegion.covered ⟨rgn.cnt, Function.update rgn.region i
      ⟨(rgn.region i).base, base - (rgn.region i).base⟩⟩)
      (Set.Ico (base + size) (base + size + ((rgn.region i).stop - (base + size)))) := by
    rw [hcov, Nat.add_sub_of_le hstop]
    refine Set.disjoint_union_left.mpr ⟨?_, ?_⟩
    · refine Set.disjoint_left.mpr ?_
      rintro p ⟨_, hp⟩ ⟨hp', _⟩
      omega
    · exact (hmiddle.disjoint.mono_left (Set.Ico_subset_Ico (by omega) (Nat.le_refl _))).symm
  obtain ⟨ret, rgn', hrun, hadded⟩ := lmbAddRegion_added hok (by omega) (by omega) hclear
    (fun hzero => absurd hzero (by dsimp only; omega))
  have hret : 0 ≤ ret := by
    refine hadded.success (Nat.lt_of_not_le fun hfull => ?_)
    exact hguard hfull (rgn.region i) (mem_stretch.mpr ⟨i, Nat.zero_le i, by omega, rfl⟩)
      ⟨by omega, by omega⟩
  refine ⟨ret, rgn', hrun, hadded.ok, fun _ => ?_, fun hneg => absurd hneg (by omega)⟩
  rw [hadded.covered hret, hcov, hcovered, Nat.add_sub_of_le hstop, Set.union_right_comm]
  congr 1
  ext p
  simp only [Set.mem_union, Set.mem_Ico, Set.mem_sdiff]
  omega

/-!
## Sequences of calls

Read `lmb_refines_address_sets` first: in every run whose calls meet the condition, the tables
are sorted lists of separated regions, and each call changes the covered addresses as it should.
-/

/-- A call and its result. -/
def Step (lmb : Lmb) (op : Op) (lmb' : Lmb) : Prop :=
  ∃ ret, step lmb op = some (ret, lmb')

/-- The calls with a range of addresses that is not in the table yet, or within a region. -/
def Admissible (lmb : Lmb) : Op → Prop
  | .add base size => 0 < size ∧ base + size ≤ 2 ^ 64 ∧
      Disjoint lmb.memory.covered (Set.Ico base (base + size))
  | .reserve base size => 0 < size ∧ base + size ≤ 2 ^ 64 ∧
      Disjoint lmb.reserved.covered (Set.Ico base (base + size))
  | .remove base size => 0 < size ∧ Contained lmb.memory base size

/-- The condition on a call. -/
def Guard (lmb : Lmb) : Op → Prop
  | .add base size => base + size < 2 ^ 64 ∧ AddGuard lmb.memory base
  | .reserve base size => base + size < 2 ^ 64
  | .remove base size => RemoveGuard lmb.memory base size

/-- The first `cnt` entries are sorted, with a gap after each one. -/
def LmbRegion.Sorted (rgn : LmbRegion) : Prop :=
  ∀ i j, i < j → j < rgn.cnt → (rgn.region i).base + (rgn.region i).size < (rgn.region j).base

/-- What a call should do to the covered addresses. -/
def Effect (lmb : Lmb) (ret : Int) (lmb' : Lmb) : Op → Prop
  | .add base size =>
    lmb'.reserved.covered = lmb.reserved.covered ∧
      (0 ≤ ret → lmb'.memory.covered = lmb.memory.covered ∪ Set.Ico base (base + size)) ∧
      (ret < 0 → lmb'.memory.covered = lmb.memory.covered)
  | .reserve base size =>
    lmb'.memory.covered = lmb.memory.covered ∧
      (0 ≤ ret → lmb'.reserved.covered = lmb.reserved.covered ∪ Set.Ico base (base + size)) ∧
      (ret < 0 → lmb'.reserved.covered = lmb.reserved.covered)
  | .remove base size =>
    lmb'.reserved.covered = lmb.reserved.covered ∧
      (0 ≤ ret → lmb'.memory.covered = lmb.memory.covered \ Set.Ico base (base + size)) ∧
      (ret < 0 → lmb'.memory.covered = lmb.memory.covered)

/-- Two sound tables; nothing is ever removed from the second one. -/
structure LmbOk (lmb : Lmb) : Prop where
  memory : TableOk lmb.memory
  reserved : TableOk lmb.reserved
  cnt_pos : 0 < lmb.reserved.cnt

theorem TableOk.sorted {rgn : LmbRegion} (h : TableOk rgn) : rgn.Sorted := by
  intro i j hij hj
  rcases h.regions with hdummy | hsep
  · have := hdummy.1
    omega
  · rw [live_split hj] at hsep
    obtain ⟨_, _, hbefore, _⟩ := separated_middle.mp hsep
    exact hbefore _ (mem_stretch.mpr ⟨i, Nat.zero_le i, by omega, rfl⟩)

theorem cnt_pos_of_mem_covered {rgn : LmbRegion} {a : Nat} (h : a ∈ rgn.covered) :
    0 < rgn.cnt := by
  obtain ⟨r, hr, _⟩ := h
  obtain ⟨i, _, hi, _⟩ := mem_stretch.mp hr
  omega

theorem LmbOk.step {lmb : Lmb} (h : LmbOk lmb) {op : Op} (hop : Admissible lmb op)
    (hguard : Guard lmb op) :
    ∃ ret lmb', step lmb op = some (ret, lmb') ∧ Effect lmb ret lmb' op ∧ LmbOk lmb' := by
  cases op with
  | add base size =>
    obtain ⟨hsize, _, hclear⟩ := hop
    obtain ⟨ret, rgn', hrun, hadded⟩ := lmbAddRegion_added h.memory hsize hguard.1 hclear hguard.2
    refine ⟨ret, ⟨if base = 0 then size else lmb.rmoSize, rgn', lmb.reserved⟩,
      by rw [Lmb.step, lmbAdd, hrun]; rfl, ⟨rfl, hadded.covered, ?_⟩,
      hadded.ok, h.reserved, h.cnt_pos⟩
    intro hret
    rw [hadded.failed hret]
  | reserve base size =>
    obtain ⟨hsize, _, hclear⟩ := hop
    obtain ⟨ret, rgn', hrun, hadded⟩ := lmbAddRegion_added h.reserved hsize hguard hclear
      (fun hzero => absurd hzero (Nat.ne_of_gt h.cnt_pos))
    refine ⟨ret, ⟨lmb.rmoSize, lmb.memory, rgn'⟩,
      by rw [Lmb.step, lmbReserve, if_neg (Nat.ne_of_gt hsize), hrun]; rfl, ⟨rfl, hadded.covered, ?_⟩, h.memory, hadded.ok, ?_⟩
    · intro hret
      rw [hadded.failed hret]
    · by_cases hret : 0 ≤ ret
      · refine @cnt_pos_of_mem_covered rgn' base ?_
        rw [hadded.covered hret]
        exact .inr ⟨Nat.le_refl _, by omega⟩
      · rw [hadded.failed (by omega)]
        exact h.cnt_pos
  | remove base size =>
    obtain ⟨ret, rgn', hrun, hremoved⟩ := lmbRemoveFrom_removed h.memory hop.1 hop.2 hguard
    refine ⟨ret, ⟨lmb.rmoSize, rgn', lmb.reserved⟩,
      by rw [Lmb.step, lmbRemove, hrun]; rfl, ⟨rfl, hremoved.covered, ?_⟩,
      hremoved.ok, h.reserved, h.cnt_pos⟩
    intro hret
    rw [hremoved.failed hret]

theorem tableOk_initialRegion : TableOk initialRegion := by
  refine ⟨by decide, ?_, .inl ⟨rfl, rfl⟩⟩
  intro r hr
  obtain ⟨_, _, _, rfl⟩ := mem_stretch.mp hr
  show 0 + 0 < 2 ^ 64
  decide

/-- In every run whose calls meet the condition, both tables are sorted, and each further call
that meets it adds or removes its range, or fails and changes no covered address. -/
theorem lmb_refines_address_sets {lmb : Lmb}
    (hrun : Reaches Step (fun lmb op => Admissible lmb op ∧ Guard lmb op) lmbInit lmb) :
    lmb.memory.Sorted ∧ lmb.reserved.Sorted ∧ ∀ op, Admissible lmb op → Guard lmb op →
      ∃ ret lmb', step lmb op = some (ret, lmb') ∧ Effect lmb ret lmb' op := by
  have hok : LmbOk lmb := by
    refine hrun.invariant LmbOk ?_ ⟨tableOk_initialRegion, tableOk_initialRegion, Nat.one_pos⟩
    rintro s op t hs ⟨hop, hguard⟩ ⟨ret, hstep⟩
    obtain ⟨ret', t', hstep', _, ht⟩ := hs.step hop hguard
    rw [hstep] at hstep'
    cases hstep'
    exact ht
  refine ⟨hok.memory.sorted, hok.reserved.sorted, ?_⟩
  intro op hop hguard
  obtain ⟨ret, lmb', hstep, heffect, _⟩ := hok.step hop hguard
  exact ⟨ret, lmb', hstep, heffect⟩

theorem initialRegion_covered : initialRegion.covered = ∅ :=
  LmbRegion.Dummy.covered_eq ⟨rfl, rfl⟩

/-- The range can be added to the empty table. -/
theorem admissible_first (base size : Nat) (hsize : 0 < size) (hend : base + size ≤ 2 ^ 64) :
    Admissible lmbInit (.add base size) := by
  refine ⟨hsize, hend, ?_⟩
  show Disjoint initialRegion.covered _
  rw [initialRegion_covered]
  exact Set.empty_disjoint _

/-- The state after the range from 4096 to 8192 was added. -/
def oneRange : Lmb :=
  ⟨0, ⟨1, Function.update (fun _ => ⟨0, 0⟩) 0 ⟨4096, 4096⟩⟩, initialRegion⟩

theorem step_oneRange : step lmbInit (.add 4096 4096) = some (0, oneRange) :=
  rfl

theorem lmb_refines_address_sets_remove :
    ∃ ret lmb', step oneRange (.remove 5000 100) = some (ret, lmb') ∧
      Effect oneRange ret lmb' (.remove 5000 100) := by
  have hrun : Reaches Step (fun lmb op => Admissible lmb op ∧ Guard lmb op) lmbInit oneRange :=
    (Reaches.refl lmbInit).tail ⟨0, step_oneRange⟩
      ⟨admissible_first 4096 4096 (by decide) (by decide), by decide, nofun⟩
  exact (lmb_refines_address_sets hrun).2.2 (.remove 5000 100)
    ⟨by decide, ⟨4096, 4096⟩, List.mem_singleton.mpr rfl, by decide, by decide⟩
    (fun hfull => absurd hfull (by decide))

/-- The state after the range was removed again: the entry is still in the array. -/
def emptied : Lmb :=
  ⟨0, ⟨0, Function.update (fun _ => ⟨0, 0⟩) 0 ⟨4096, 4096⟩⟩, initialRegion⟩

/-- A range that is added to an emptied table is lost, and what was removed is back. -/
theorem lmb_add_after_emptied :
    Reaches Step Admissible lmbInit emptied ∧ Admissible emptied (.add 12288 4096) ∧
      ¬ ∃ ret lmb', step emptied (.add 12288 4096) = some (ret, lmb') ∧
        Effect emptied ret lmb' (.add 12288 4096) := by
  have hone : Reaches Step Admissible lmbInit oneRange :=
    (Reaches.refl lmbInit).tail ⟨0, step_oneRange⟩
      (admissible_first 4096 4096 (by decide) (by decide))
  have hempty : emptied.memory.covered = ∅ := covers_nil
  have hremove : Step oneRange (.remove 4096 4096) emptied := ⟨0, rfl⟩
  refine ⟨hone.tail hremove ?_, ?_, ?_⟩
  · exact ⟨by decide, ⟨4096, 4096⟩, List.mem_singleton.mpr rfl, by decide, by decide⟩
  · refine ⟨by decide, by decide, ?_⟩
    rw [hempty]
    exact Set.empty_disjoint _
  rintro ⟨ret, lmb', hstep, _, hcovered, _⟩
  have hresult : step emptied (.add 12288 4096) = some (0, oneRange) := rfl
  rw [hresult] at hstep
  cases hstep
  have hmem : 12288 ∈ oneRange.memory.covered := by
    rw [hcovered (Int.le_refl 0)]
    exact .inr ⟨by decide, by decide⟩
  obtain ⟨r, hr, _, hlt⟩ := hmem
  rw [List.mem_singleton.mp hr] at hlt
  exact absurd hlt (by decide)

end AndroidKernel.Lmb
