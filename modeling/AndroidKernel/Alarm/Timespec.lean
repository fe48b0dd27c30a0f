import Mathlib.Algebra.Group.Int.Defs
import Mathlib.Algebra.Group.Nat.Defs
import Mathlib.Tactic.Common

/-!
# Times in seconds and nanoseconds

`struct timespec` with its operations in `include/linux/time.h` and `kernel/time.c`, for a `long`
of 32 bits. A normalized time shows a number of nanoseconds up to multiples of `2 ^ 32` seconds,
and only one normalized time shows it.
-/

namespace AndroidKernel.Alarm

/-- Conversion to a `long`. -/
def long (x : Int) : Int :=
  x.bmod (2 ^ 32)

/-- `struct timespec`. -/
structure Timespec where
  tvSec : Int
  tvNsec : Int
  deriving DecidableEq

/-- A `struct timespec` of any two longs, as user space hands it over. -/
def Timespec.ofLongs (sec nsec : Int) : Timespec :=
  ⟨long sec, long nsec⟩

/-- The first loop of `set_normalized_timespec`. -/
def Timespec.carry : Nat → Timespec → Timespec
  | 0, ts => ts
  | fuel + 1, ts =>
    if ts.tvNsec ≥ 1000000000 then
      carry fuel ⟨long (ts.tvSec + 1), ts.tvNsec - 1000000000⟩
    else ts

/-- The second loop of `set_normalized_timespec`. -/
def Timespec.borrow : Nat → Timespec → Timespec
  | 0, ts => ts
  | fuel + 1, ts =>
    if ts.tvNsec < 0 then
      borrow fuel ⟨long (ts.tvSec - 1), ts.tvNsec + 1000000000⟩
    else ts

/-- `set_normalized_timespec`. A `long` of nanoseconds is less than three seconds, so that no loop
takes more than three rounds. -/
def setNormalizedTimespec (sec nsec : Int) : Timespec :=
  ((Timespec.ofLongs sec nsec).carry 3).borrow 3

/-- `timespec_sub`. -/
def timespecSub (lhs rhs : Timespec) : Timespec :=
  setNormalizedTimespec (lhs.tvSec - rhs.tvSec) (lhs.tvNsec - rhs.tvNsec)

/-- The normalized sum of two times. -/
def timespecAdd (lhs rhs : Timespec) : Timespec :=
  setNormalizedTimespec (lhs.tvSec + rhs.tvSec) (lhs.tvNsec + rhs.tvNsec)

/-- `timespec_add_ns`. -/
def timespecAddNs (ts : Timespec) (ns : Nat) : Timespec :=
  ⟨long (ts.tvSec + (ts.tvNsec + ns) / 1000000000), (ts.tvNsec + ns) % 1000000000⟩

/-- `timespec_compare`. -/
def timespecCompare (lhs rhs : Timespec) : Int :=
  if lhs.tvSec < rhs.tvSec then -1
  else if lhs.tvSec > rhs.tvSec then 1
  else long (lhs.tvNsec - rhs.tvNsec)

/-- `timespec_to_ktime`, which passes the nanoseconds as an `unsigned long`. -/
def timespecToKtime (ts : Timespec) : Int :=
  ts.tvSec * 1000000000 + ts.tvNsec % 2 ^ 32

/-- The nanoseconds of a time. -/
def Timespec.ns (ts : Timespec) : Int :=
  ts.tvSec * 1000000000 + ts.tvNsec

/-- A time in the normalized storage format. -/
structure Timespec.Normal (ts : Timespec) : Prop where
  secLo : -2 ^ 31 ≤ ts.tvSec
  secHi : ts.tvSec < 2 ^ 31
  nsecLo : 0 ≤ ts.tvNsec
  nsecHi : ts.tvNsec < 1000000000

/-- The normalized time of a number of nanoseconds, as far as 32 bits of seconds can tell. -/
structure Timespec.Shows (ts : Timespec) (ns : Int) : Prop where
  normal : ts.Normal
  wraps : ∃ turns : Int, ts.ns = ns + 2 ^ 32 * 1000000000 * turns

variable {ts lhs rhs : Timespec} {x y : Int}

theorem long_range (x : Int) : -2 ^ 31 ≤ long x ∧ long x < 2 ^ 31 := by
  have hlo := @Int.le_bmod x (2 ^ 32) (by decide)
  have hhi := @Int.bmod_lt x (2 ^ 32) (by decide)
  unfold long
  omega

theorem long_eq (hlo : -2 ^ 31 ≤ x) (hhi : x < 2 ^ 31) : long x = x := by
  refine Int.bmod_eq_of_le ?_ ?_
  · omega
  · omega

theorem long_wraps (x : Int) : ∃ turns : Int, long x = x + 2 ^ 32 * turns := by
  obtain ⟨turns, hturns⟩ : (2 ^ 32 : Int) ∣ long x - x := Int.dvd_bmod_sub_self
  exact ⟨turns, by omega⟩

theorem Timespec.Normal.shows (h : ts.Normal) : ts.Shows ts.ns :=
  ⟨h, 0, by omega⟩

/-- Only one normalized time shows a number of nanoseconds. -/
theorem Timespec.Shows.eq_iff (hleft : lhs.Shows x) (hright : rhs.Shows y) :
    lhs = rhs ↔ ∃ turns : Int, x - y = 2 ^ 32 * 1000000000 * turns := by
  obtain ⟨⟨_, _, _, _⟩, left, hx⟩ := hleft
  obtain ⟨⟨_, _, _, _⟩, right, hy⟩ := hright
  constructor
  · rintro rfl
    exact ⟨right - left, by omega⟩
  · rintro ⟨turns, h⟩
    unfold Timespec.ns at hx hy
    have hsec : lhs.tvSec = rhs.tvSec := by omega
    have hnsec : lhs.tvNsec = rhs.tvNsec := by omega
    cases lhs
    cases rhs
    cases hsec
    cases hnsec
    rfl

/-- The loops carry whole seconds over and keep the nanoseconds. -/
theorem carry_spec (fuel : Nat) (hlo : -2 ^ 31 ≤ ts.tvSec) (hhi : ts.tvSec < 2 ^ 31)
    (hnsec : ts.tvNsec < 1000000000 * (fuel + 1)) :
    let left := ts.carry fuel
    left.tvSec < 2 ^ 31 ∧ -2 ^ 31 ≤ left.tvSec ∧ left.tvNsec < 1000000000 ∧
      (0 ≤ left.tvNsec ∨ left.tvNsec = ts.tvNsec) ∧
      ∃ turns : Int, left.ns = ts.ns + 2 ^ 32 * 1000000000 * turns := by
  induction fuel generalizing ts with
  | zero =>
    refine ⟨hhi, hlo, ?_, .inr rfl, 0, ?_⟩
    · show ts.tvNsec < 1000000000
      omega
    · show ts.ns = _
      omega
  | succ fuel ih =>
    rw [Timespec.carry]
    by_cases hcarry : ts.tvNsec ≥ 1000000000
    · rw [if_pos hcarry]
      obtain ⟨hlo', hhi'⟩ := long_range (ts.tvSec + 1)
      obtain ⟨first, hfirst⟩ := long_wraps (ts.tvSec + 1)
      obtain ⟨hh, hl, hn, hpos, turns, hturns⟩ :=
        @ih ⟨long (ts.tvSec + 1), ts.tvNsec - 1000000000⟩ hlo' hhi' (by
          show ts.tvNsec - 1000000000 < _
          omega)
      refine ⟨hh, hl, hn, .inl ?_, turns + first, ?_⟩
      · rcases hpos with hpos | hpos
        · exact hpos
        · rw [hpos]
          show 0 ≤ ts.tvNsec - 1000000000
          omega
      · rw [hturns]
        unfold Timespec.ns
        dsimp only
        omega
    · rw [if_neg hcarry]
      exact ⟨hhi, hlo, Int.not_le.mp hcarry, .inr rfl, 0, by omega⟩

theorem borrow_spec (fuel : Nat) (hlo : -2 ^ 31 ≤ ts.tvSec) (hhi : ts.tvSec < 2 ^ 31)
    (hneg : -(1000000000 * fuel) ≤ ts.tvNsec) (hnsec : ts.tvNsec < 1000000000) :
    (ts.borrow fuel).Shows ts.ns := by
  induction fuel generalizing ts with
  | zero =>
    have hpos : 0 ≤ ts.tvNsec := by omega
    exact Timespec.Normal.shows ⟨hlo, hhi, hpos, hnsec⟩
  | succ fuel ih =>
    rw [Timespec.borrow]
    by_cases hborrow : ts.tvNsec < 0
    · rw [if_pos hborrow]
      obtain ⟨hlo', hhi'⟩ := long_range (ts.tvSec - 1)
      obtain ⟨first, hfirst⟩ := long_wraps (ts.tvSec - 1)
      obtain ⟨hnormal, turns, hturns⟩ :=
        @ih ⟨long (ts.tvSec - 1), ts.tvNsec + 1000000000⟩ hlo' hhi' (by
          show _ ≤ ts.tvNsec + 1000000000
          omega) (by
          show ts.tvNsec + 1000000000 < 1000000000
          omega)
      refine ⟨hnormal, turns + first, ?_⟩
      rw [hturns]
      unfold Timespec.ns
      dsimp only
      omega
    · rw [if_neg hborrow]
      exact Timespec.Normal.shows ⟨hlo, hhi, Int.not_lt.mp hborrow, hnsec⟩

/-- `set_normalized_timespec` makes a normalized time of any two longs. -/
theorem setNormalizedTimespec_shows (sec nsec : Int) :
    (setNormalizedTimespec sec nsec).Shows (sec * 1000000000 + long nsec) := by
  obtain ⟨hlo, hhi⟩ := long_range sec
  obtain ⟨hnlo, hnhi⟩ := long_range nsec
  obtain ⟨first, hfirst⟩ := long_wraps sec
  obtain ⟨hh, hl, hn, hpos, turns, hturns⟩ :=
    @carry_spec (Timespec.ofLongs sec nsec) 3 hlo hhi (by
      show long nsec < _
      omega)
  obtain ⟨hnormal, more, hmore⟩ := borrow_spec 3 hl hh (by
    rcases hpos with hpos | hpos
    · omega
    · rw [hpos]
      show _ ≤ long nsec
      omega) hn
  refine ⟨hnormal, more + turns + first, ?_⟩
  have hns : (Timespec.ofLongs sec nsec).ns = long sec * 1000000000 + long nsec := rfl
  unfold setNormalizedTimespec
  rw [hmore, hturns, hns]
  omega

/-- The difference of two normalized times. -/
theorem timespecSub_shows (hleft : lhs.Shows x) (hright : rhs.Shows y) :
    (timespecSub lhs rhs).Shows (x - y) := by
  obtain ⟨⟨_, _, _, _⟩, left, hx⟩ := hleft
  obtain ⟨⟨_, _, _, _⟩, right, hy⟩ := hright
  obtain ⟨hnormal, turns, hturns⟩ :=
    setNormalizedTimespec_shows (lhs.tvSec - rhs.tvSec) (lhs.tvNsec - rhs.tvNsec)
  refine ⟨hnormal, turns + left - right, ?_⟩
  rw [long_eq (by omega) (by omega)] at hturns
  unfold Timespec.ns at hx hy
  unfold timespecSub
  omega

theorem timespecAddNs_normal (ts : Timespec) (ns : Nat) : (timespecAddNs ts ns).Normal := by
  obtain ⟨hlo, hhi⟩ := long_range (ts.tvSec + (ts.tvNsec + ns) / 1000000000)
  refine ⟨hlo, hhi, ?_, ?_⟩
  · exact Int.emod_nonneg _ (by omega)
  · exact Int.emod_lt_of_pos _ (by omega)

end AndroidKernel.Alarm
