import Mathlib.Algebra.Group.Nat.Defs
import Mathlib.Data.List.Basic
import AndroidKernel.Library.Ranges

/-!
# Logical memory blocks

The tables of `lib/lmb.c`. Addresses and sizes are 64-bit and wrap; `cnt` is an `unsigned long` of
32 bits. The entries from `cnt` on keep what was last written to them, since `lmb_add_region` may
look at them. A result `none` is a `BUG_ON` or a loop that leaves the array.
-/

namespace AndroidKernel.Lmb

/-- `MAX_LMB_REGIONS`. -/
def maxLmbRegions : Nat := 128

/-- `struct lmb_property`. -/
structure LmbProperty where
  base : Nat
  size : Nat
deriving DecidableEq

/-- `struct lmb_region`. -/
structure LmbRegion where
  cnt : Nat
  region : Nat → LmbProperty

/-- The sum of two `u64`. -/
def add64 (a b : Nat) : Nat :=
  (a + b) % 2 ^ 64

/-- The difference of two `u64`. -/
def sub64 (a b : Nat) : Nat :=
  (a + 2 ^ 64 - b) % 2 ^ 64

/-- `rgn->cnt - 1`. -/
def LmbRegion.cntPred (rgn : LmbRegion) : Nat :=
  (rgn.cnt + 2 ^ 32 - 1) % 2 ^ 32

/-- `lmb_addrs_adjacent`. -/
def lmbAddrsAdjacent (base1 size1 base2 size2 : Nat) : Int :=
  if base2 = add64 base1 size1 then 1
  else if base1 = add64 base2 size2 then -1
  else 0

/-- `lmb_regions_adjacent`. -/
def lmbRegionsAdjacent (rgn : LmbRegion) (r1 r2 : Nat) : Int :=
  lmbAddrsAdjacent (rgn.region r1).base (rgn.region r1).size (rgn.region r2).base
    (rgn.region r2).size

/-- The loop of `lmb_remove_region`, `n` times from `i` on. -/
def shiftDown (region : Nat → LmbProperty) : Nat → Nat → Nat → LmbProperty
  | _, 0 => region
  | i, n + 1 => shiftDown (Function.update region i (region (i + 1))) (i + 1) n

/-- `lmb_remove_region`. -/
def lmbRemoveRegion (rgn : LmbRegion) (r : Nat) : Option LmbRegion :=
  if maxLmbRegions < rgn.cntPred then none
  else some ⟨rgn.cntPred, shiftDown rgn.region r (rgn.cntPred - r)⟩

/-- `lmb_coalesce_regions`. -/
def lmbCoalesceRegions (rgn : LmbRegion) (r1 r2 : Nat) : Option LmbRegion :=
  lmbRemoveRegion { rgn with
    region := Function.update rgn.region r1
      { rgn.region r1 with size := add64 (rgn.region r1).size (rgn.region r2).size } } r2

/-- How the first loop of `lmb_add_region` ends: at an entry that is the region, or at `i` after
`coalesced` changes. -/
inductive Search
  | already
  | stopped (i : Nat) (coalesced : Int) (region : Nat → LmbProperty)

/-- The first loop of `lmb_add_region`, `n` times from `i` on. -/
def coalesceLoop (region : Nat → LmbProperty) (base size : Nat) : Nat → Nat → Search
  | i, 0 => .stopped i 0 region
  | i, n + 1 =>
    let r := region i
    if r.base = base ∧ r.size = size then .already
    else if 0 < lmbAddrsAdjacent base size r.base r.size then
      .stopped i 1 (Function.update region i ⟨sub64 r.base size, add64 r.size size⟩)
    else if lmbAddrsAdjacent base size r.base r.size < 0 then
      .stopped i 1 (Function.update region i ⟨r.base, add64 r.size size⟩)
    else coalesceLoop region base size (i + 1) n

/-- The second loop of `lmb_add_region`, from `i - 1` down. -/
def insertLoop (region : Nat → LmbProperty) (base size : Nat) : Nat → Nat → LmbProperty
  | 0 => region
  | i + 1 =>
    if base < (region i).base then
      insertLoop (Function.update region (i + 1) (region i)) base size i
    else Function.update region (i + 1) ⟨base, size⟩

/-- The end of `lmb_add_region`. -/
def insertRegion (rgn : LmbRegion) (base size : Nat) : LmbRegion :=
  let region := insertLoop rgn.region base size rgn.cnt
  if base < (region 0).base then ⟨rgn.cnt + 1, Function.update region 0 ⟨base, size⟩⟩
  else ⟨rgn.cnt + 1, region⟩

/-- `lmb_add_region`, after its first loop. -/
def finishAdd (rgn : LmbRegion) (base size i : Nat) (coalesced : Int) : Option (Int × LmbRegion) :=
  if i < rgn.cntPred ∧ lmbRegionsAdjacent rgn i (i + 1) ≠ 0 then
    (lmbCoalesceRegions rgn i (i + 1)).map fun rgn => (coalesced + 1, rgn)
  else if coalesced ≠ 0 then some (coalesced, rgn)
  else if maxLmbRegions ≤ rgn.cnt then some (-1, rgn)
  else some (0, insertRegion rgn base size)

/-- `lmb_add_region`. -/
def lmbAddRegion (rgn : LmbRegion) (base size : Nat) : Option (Int × LmbRegion) :=
  if rgn.cnt = 1 ∧ (rgn.region 0).size = 0 then
    some (0, { rgn with region := Function.update rgn.region 0 ⟨base, size⟩ })
  else
    match coalesceLoop rgn.region base size 0 rgn.cnt with
    | .already => some (0, rgn)
    | .stopped i coalesced region => finishAdd { rgn with region } base size i coalesced

/-- The loop of `lmb_remove`, `n` times from `i` on. -/
def findRegion (region : Nat → LmbProperty) (base stop : Nat) : Nat → Nat → Option Nat
  | _, 0 => none
  | i, n + 1 =>
    if (region i).base ≤ base ∧ stop ≤ add64 (region i).base (region i).size then some i
    else findRegion region base stop (i + 1) n

/-- `lmb_remove`, on its table. -/
def lmbRemoveFrom (rgn : LmbRegion) (base size : Nat) : Option (Int × LmbRegion) :=
  let stop := add64 base size
  match findRegion rgn.region base stop 0 rgn.cnt with
  | none => some (-1, rgn)
  | some i =>
    let r := rgn.region i
    let rgnend := add64 r.base r.size
    if r.base = base ∧ rgnend = stop then (lmbRemoveRegion rgn i).map fun rgn => (0, rgn)
    else if r.base = base then
      some (0, { rgn with region := Function.update rgn.region i ⟨stop, sub64 r.size size⟩ })
    else if rgnend = stop then
      some (0, { rgn with region := Function.update rgn.region i ⟨r.base, sub64 r.size size⟩ })
    else
      lmbAddRegion
        { rgn with region := Function.update rgn.region i ⟨r.base, sub64 base r.base⟩ }
        stop (sub64 rgnend stop)

/-- `struct lmb`. -/
structure Lmb where
  rmoSize : Nat
  memory : LmbRegion
  reserved : LmbRegion

/-- A table with a dummy entry. -/
def initialRegion : LmbRegion :=
  ⟨1, fun _ => ⟨0, 0⟩⟩

/-- `lmb_init`. -/
def lmbInit : Lmb :=
  ⟨0, initialRegion, initialRegion⟩

/-- `lmb_add`. -/
def lmbAdd (lmb : Lmb) (base size : Nat) : Option (Int × Lmb) :=
  (lmbAddRegion lmb.memory base size).map fun (ret, memory) =>
    (ret, { lmb with rmoSize := if base = 0 then size else lmb.rmoSize, memory })

/-- `lmb_remove`. -/
def lmbRemove (lmb : Lmb) (base size : Nat) : Option (Int × Lmb) :=
  (lmbRemoveFrom lmb.memory base size).map fun (ret, memory) => (ret, { lmb with memory })

/-- `lmb_reserve`. -/
def lmbReserve (lmb : Lmb) (base size : Nat) : Option (Int × Lmb) :=
  if size = 0 then none
  else (lmbAddRegion lmb.reserved base size).map fun (ret, reserved) =>
    (ret, { lmb with reserved })

/-- The calls. -/
inductive Op
  | add (base size : Nat)
  | reserve (base size : Nat)
  | remove (base size : Nat)

/-- A call, with what it returns. -/
def step (lmb : Lmb) : Op → Option (Int × Lmb)
  | .add base size => lmbAdd lmb base size
  | .reserve base size => lmbReserve lmb base size
  | .remove base size => lmbRemove lmb base size

/-!
## The tables as lists of ranges

Each loop over a table is an operation on the list of its entries.
-/

open Library.Ranges

/-- The address behind a region. -/
def LmbProperty.stop (r : LmbProperty) : Nat :=
  r.base + r.size

/-! ## Stretches of an array -/

/-- The `n` entries from `i` on. -/
def stretch (region : Nat → LmbProperty) (i n : Nat) : List LmbProperty :=
  (List.range' i n).map region

theorem stretch_succ (region : Nat → LmbProperty) (i n : Nat) :
    stretch region i (n + 1) = region i :: stretch region (i + 1) n :=
  rfl

theorem stretch_append (region : Nat → LmbProperty) (i m n : Nat) :
    stretch region i (m + n) = stretch region i m ++ stretch region (i + m) n := by
  unfold stretch
  rw [← List.map_append, List.range'_append_1]

theorem stretch_congr {f g : Nat → LmbProperty} {i n : Nat} (h : ∀ j, i ≤ j → j < i + n → f j = g j) :
    stretch f i n = stretch g i n := by
  refine List.map_congr_left ?_
  intro j hj
  rw [List.mem_range'_1] at hj
  exact h j hj.1 hj.2

theorem stretch_update_of_lt {region : Nat → LmbProperty} {i j n : Nat} {r : LmbProperty}
    (h : j < i) : stretch (Function.update region j r) i n = stretch region i n :=
  stretch_congr fun k hk _ => Function.update_of_ne (by omega) _ _

theorem stretch_update_of_le {region : Nat → LmbProperty} {i j n : Nat} {r : LmbProperty}
    (h : i + n ≤ j) : stretch (Function.update region j r) i n = stretch region i n :=
  stretch_congr fun k _ hk => Function.update_of_ne (by omega) _ _

/-- The entries around the one at `i`. -/
theorem stretch_split {region : Nat → LmbProperty} {i n : Nat} (h : i < n) :
    stretch region 0 n = stretch region 0 i ++ region i :: stretch region (i + 1) (n - i - 1) := by
  have hn : n = i + (n - i - 1 + 1) := by omega
  conv_lhs => rw [hn, stretch_append, stretch_succ]
  rw [Nat.zero_add]

theorem stretch_update {region : Nat → LmbProperty} {i n : Nat} {r : LmbProperty} (h : i < n) :
    stretch (Function.update region i r) 0 n =
      stretch region 0 i ++ r :: stretch region (i + 1) (n - i - 1) := by
  rw [stretch_split h, stretch_update_of_le (Nat.zero_add i).le, Function.update_self,
    stretch_update_of_lt (Nat.lt_succ_self i)]

theorem mem_stretch {region : Nat → LmbProperty} {i n : Nat} {r : LmbProperty} :
    r ∈ stretch region i n ↔ ∃ j, i ≤ j ∧ j < i + n ∧ region j = r := by
  unfold stretch
  simp only [List.mem_map, List.mem_range'_1, and_assoc]

/-! ## The loops -/

/-- The loop of `lmb_remove_region` takes out an entry. -/
theorem stretch_shiftDown (region : Nat → LmbProperty) (i n : Nat) :
    stretch (shiftDown region i n) 0 (i + n) =
      stretch region 0 i ++ stretch region (i + 1) n := by
  induction n generalizing region i with
  | zero => simp [shiftDown, stretch]
  | succ n ih =>
    rw [shiftDown, show i + (n + 1) = i + 1 + n by omega, ih, stretch_update (Nat.lt_succ_self i),
      stretch_update_of_lt (by omega), stretch_succ region (i + 1)]
    simp [stretch]

/-- The second loop of `lmb_add_region` does not write behind the entry after its first. -/
theorem insertLoop_of_lt {region : Nat → LmbProperty} {base size n j : Nat} (h : n < j) :
    insertLoop region base size n j = region j := by
  induction n generalizing region with
  | zero => rfl
  | succ n ih =>
    rw [insertLoop]
    split_ifs with hlt
    · rw [ih (by omega), Function.update_of_ne (by omega)]
    · rw [Function.update_of_ne (by omega)]

/-- Where the second loop of `lmb_add_region` stops. -/
theorem insertLoop_spec (region : Nat → LmbProperty) (base size n : Nat) :
    ∃ left right, stretch region 0 n = left ++ right ∧ (∀ r ∈ right, base < r.base) ∧
      ((left = [] ∧ stretch (insertLoop region base size n) 1 n = right ∧
          insertLoop region base size n 0 = region 0) ∨
        (∃ before r, left = before ++ [r] ∧ r.base ≤ base) ∧
          insertLoop region base size n 0 = region 0 ∧
          stretch (insertLoop region base size n) 0 (n + 1) = left ++ ⟨base, size⟩ :: right) := by
  induction n generalizing region with
  | zero => exact ⟨[], [], rfl, nofun, .inl ⟨rfl, rfl, rfl⟩⟩
  | succ n ih =>
    have hsplit : stretch region 0 (n + 1) = stretch region 0 n ++ [region n] := by
      rw [stretch_append, Nat.zero_add]
      rfl
    rw [insertLoop]
    split_ifs with hlt
    · obtain ⟨left, right, heq, hright, hcases⟩ := ih (Function.update region (n + 1) (region n))
      rw [stretch_update_of_le (by omega)] at heq
      refine ⟨left, right ++ [region n], ?_, ?_, ?_⟩
      · rw [hsplit, heq, List.append_assoc]
      · intro r hr
        rcases List.mem_append.mp hr with hr | hr
        · exact hright r hr
        · rw [List.mem_singleton.mp hr]
          exact hlt
      have hlast : insertLoop (Function.update region (n + 1) (region n)) base size n (n + 1) =
          region n := by
        rw [insertLoop_of_lt (Nat.lt_succ_self n), Function.update_self]
      have hzero : Function.update region (n + 1) (region n) 0 = region 0 :=
        Function.update_of_ne (Nat.succ_ne_zero n).symm _ _
      rw [hzero] at hcases
      rcases hcases with ⟨hleft, hstretch, hfirst⟩ | ⟨hleft, hfirst, hstretch⟩
      · refine .inl ⟨hleft, ?_, hfirst⟩
        rw [stretch_append, hstretch, Nat.add_comm 1 n]
        show right ++ [insertLoop _ base size n (n + 1)] = _
        rw [hlast]
      · refine .inr ⟨hleft, hfirst, ?_⟩
        rw [stretch_append, hstretch, Nat.zero_add]
        show _ ++ [insertLoop _ base size n (n + 1)] = _
        rw [hlast, List.append_assoc, List.cons_append]
    · refine ⟨stretch region 0 (n + 1), [], (List.append_nil _).symm, nofun, .inr ⟨?_, ?_, ?_⟩⟩
      · exact ⟨stretch region 0 n, region n, hsplit, Nat.le_of_not_lt hlt⟩
      · exact Function.update_of_ne (Nat.succ_ne_zero n).symm _ _
      · rw [stretch_update (Nat.lt_succ_self _)]
        simp [stretch]

/-- How the first loop of `lmb_add_region` may end. -/
inductive Stops (region : Nat → LmbProperty) (base size i n : Nat) : Search → Prop
  | already {r : LmbProperty} (hmem : r ∈ stretch region i n) (hbase : r.base = base)
      (hsize : r.size = size) : Stops region base size i n .already
  | after {j : Nat} (hle : i ≤ j) (hlt : j < i + n)
      (hbefore : ∀ r ∈ stretch region i (j - i), lmbAddrsAdjacent base size r.base r.size = 0)
      (hhere : (region j).base = add64 base size) :
      Stops region base size i n (.stopped j 1 (Function.update region j
        ⟨sub64 (region j).base size, add64 (region j).size size⟩))
  | before {j : Nat} (hle : i ≤ j) (hlt : j < i + n)
      (hbefore : ∀ r ∈ stretch region i (j - i), lmbAddrsAdjacent base size r.base r.size = 0)
      (hhere : base = add64 (region j).base (region j).size) :
      Stops region base size i n (.stopped j 1 (Function.update region j
        ⟨(region j).base, add64 (region j).size size⟩))
  | apart (hall : ∀ r ∈ stretch region i n, lmbAddrsAdjacent base size r.base r.size = 0) :
      Stops region base size i n (.stopped (i + n) 0 region)

theorem adjacent_pos {base size : Nat} {r : LmbProperty}
    (h : 0 < lmbAddrsAdjacent base size r.base r.size) : r.base = add64 base size := by
  unfold lmbAddrsAdjacent at h
  split_ifs at h with hafter hbefore
  · exact hafter
  · cases h
  · cases h

theorem adjacent_neg {base size : Nat} {r : LmbProperty}
    (h : lmbAddrsAdjacent base size r.base r.size < 0) : base = add64 r.base r.size := by
  unfold lmbAddrsAdjacent at h
  split_ifs at h with hafter hbefore
  · cases h
  · exact hbefore
  · cases h

theorem coalesceLoop_stops (region : Nat → LmbProperty) (base size i n : Nat) :
    Stops region base size i n (coalesceLoop region base size i n) := by
  induction n generalizing i with
  | zero => exact .apart nofun
  | succ n ih =>
    have hnone : ∀ r ∈ stretch region i (i - i), lmbAddrsAdjacent base size r.base r.size = 0 := by
      rw [Nat.sub_self]
      exact nofun
    rw [coalesceLoop]
    split_ifs with hsame hpos hneg
    · exact .already List.mem_cons_self hsame.1 hsame.2
    · exact .after (Nat.le_refl i) (by omega) hnone (adjacent_pos hpos)
    · exact .before (Nat.le_refl i) (by omega) hnone (adjacent_neg hneg)
    have hzero : lmbAddrsAdjacent base size (region i).base (region i).size = 0 := by omega
    -- the entry at `i` joins those that were passed
    have hpassed : ∀ {j}, i + 1 ≤ j →
        (∀ r ∈ stretch region (i + 1) (j - (i + 1)),
          lmbAddrsAdjacent base size r.base r.size = 0) →
        ∀ r ∈ stretch region i (j - i), lmbAddrsAdjacent base size r.base r.size = 0 := by
      intro j hj hrest
      rw [show j - i = j - (i + 1) + 1 by omega, stretch_succ, List.forall_mem_cons]
      exact ⟨hzero, hrest⟩
    have h := ih (i + 1)
    generalize coalesceLoop region base size (i + 1) n = found at h ⊢
    cases h with
    | already hmem hbase hsize => exact .already (List.mem_cons_of_mem _ hmem) hbase hsize
    | after hle hlt hbefore hhere =>
      exact .after (by omega) (by omega) (hpassed hle hbefore) hhere
    | before hle hlt hbefore hhere =>
      exact .before (by omega) (by omega) (hpassed hle hbefore) hhere
    | apart hall =>
      rw [show i + 1 + n = i + (n + 1) by omega]
      refine .apart ?_
      rw [stretch_succ, List.forall_mem_cons]
      exact ⟨hzero, hall⟩

/-- The loop of `lmb_remove` finds the first region that contains the range. -/
theorem findRegion_spec {region : Nat → LmbProperty} {base stop i n : Nat}
    (h : ∃ j, i ≤ j ∧ j < i + n ∧ (region j).base ≤ base ∧
      stop ≤ add64 (region j).base (region j).size) :
    ∃ j, findRegion region base stop i n = some j ∧ i ≤ j ∧ j < i + n ∧ (region j).base ≤ base ∧
      stop ≤ add64 (region j).base (region j).size := by
  induction n generalizing i with
  | zero =>
    obtain ⟨j, hle, hlt, _⟩ := h
    omega
  | succ n ih =>
    rw [findRegion]
    split_ifs with hhere
    · exact ⟨i, rfl, Nat.le_refl i, by omega, hhere⟩
    · obtain ⟨j, hle, hlt, hj⟩ := h
      have hne : j ≠ i := by
        rintro rfl
        exact hhere hj
      obtain ⟨k, hk, hkle, hklt, hkin⟩ := ih (i := i + 1) ⟨j, by omega, by omega, hj⟩
      exact ⟨k, hk, by omega, by omega, hkin⟩

end AndroidKernel.Lmb
