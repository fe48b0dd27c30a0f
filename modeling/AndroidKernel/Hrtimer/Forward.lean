import Mathlib.Algebra.Group.Int.Defs
import Mathlib.Algebra.Group.Nat.Defs
import Mathlib.Tactic.Common

/-!
# Forwarding a timer past a time

`hrtimer_forward` for a 32-bit `long` and the scalar form of `ktime_t`. Its quotient comes from
a divisor that has been cut down to 32 bits. Within 64 bits that makes it too large by one at
most, so that it is the number of intervals past `now` or the one before.
-/

namespace AndroidKernel.Hrtimer

/-- Conversion to an `s64`. -/
def s64 (x : Int) : Int :=
  x.bmod (2 ^ 64)

/-- Conversion to a `u64`. -/
def u64 (x : Int) : Nat :=
  (x % 2 ^ 64).toNat

/-- A `struct hrtimer` with the resolution of its base. -/
structure Timer where
  expires : Int
  softexpires : Int
  resolution : Int
  deriving DecidableEq

/-- `KTIME_SEC_MAX` seconds. -/
def ktimeSecMax : Int :=
  (2 ^ 31 - 1) * 1000000000

/-- `ktime_add_safe`. -/
def ktimeAddSafe (lhs rhs : Int) : Int :=
  let res := s64 (lhs + rhs)
  if res < 0 ∨ res < lhs ∨ res < rhs then ktimeSecMax else res

/-- `hrtimer_add_expires`. -/
def Timer.addExpires (timer : Timer) (time : Int) : Timer :=
  { timer with
    expires := ktimeAddSafe timer.expires time
    softexpires := ktimeAddSafe timer.softexpires time }

/-- `hrtimer_add_expires_ns`. -/
def Timer.addExpiresNs (timer : Timer) (ns : Nat) : Timer :=
  { timer with
    expires := s64 (timer.expires + ns)
    softexpires := s64 (timer.softexpires + ns) }

/-- The loop of `ktime_divns`, from `sft` and `div` on. For a negative `div` it does not end. -/
def narrow : Nat → Nat → Int → Option (Nat × Int)
  | 0, _, _ => none
  | fuel + 1, sft, div =>
    if div / 2 ^ 32 = 0 then some (sft, div) else narrow fuel (sft + 1) (div / 2)

/-- `ktime_divns`. A divisor has 64 bits, so that the loop ends in 64 rounds or never. -/
def ktimeDivns (kt div : Int) : Option Nat :=
  (narrow 64 0 div).map fun narrowed => u64 kt / 2 ^ narrowed.1 / narrowed.2.toNat

/-- `hrtimer_forward`. -/
def hrtimerForward (timer : Timer) (now interval : Int) : Option (Timer × Nat) :=
  let delta := s64 (now - timer.expires)
  if delta < 0 then some (timer, 0)
  else
    let interval := if interval < timer.resolution then timer.resolution else interval
    if delta ≥ interval then
      (ktimeDivns delta interval).map fun (orun : Nat) =>
        let timer := timer.addExpiresNs (u64 (interval * orun))
        if timer.expires > now then (timer, orun)
        else (timer.addExpires interval, u64 (orun + 1))
    else some (timer.addExpires interval, 1)

/-! ## The quotient -/

theorem s64_eq {x : Int} (hlo : -2 ^ 63 ≤ x) (hhi : x < 2 ^ 63) : s64 x = x := by
  refine Int.bmod_eq_of_le ?_ ?_
  · omega
  · omega

theorem u64_eq {n : Nat} (h : n < 2 ^ 64) : u64 n = n := by
  rw [u64]
  omega

/-- A sum in 64 bits with a number that was cut down to a `u64`. -/
theorem s64_add_u64 (x y : Int) : s64 (x + u64 y) = s64 (x + y) := by
  have hpos : 0 ≤ y % 2 ^ 64 := Int.emod_nonneg y (by omega)
  rw [s64, u64, Int.toNat_of_nonneg hpos, s64]
  rw [Int.add_comm x, Int.add_comm x]
  exact Int.add_bmod_eq_add_bmod_right x (Int.emod_bmod y (2 ^ 64))

theorem narrow_small {fuel sft div : Nat} (h : div < 2 ^ 32) :
    narrow (fuel + 1) sft div = some (sft, (div : Int)) := by
  rw [narrow, if_pos]
  omega

/-- What the loop leaves of a divisor. -/
theorem narrow_spec (fuel sft div : Nat) (hpos : 0 < div) (hlt : div < 2 ^ (32 + fuel)) :
    ∃ s e : Nat, narrow (fuel + 1) sft div = some (sft + s, (e : Int)) ∧ e * 2 ^ s ≤ div ∧
      div < (e + 1) * 2 ^ s ∧ 0 < e ∧ (s = 0 ∨ 2 ^ 31 ≤ e) := by
  induction fuel generalizing sft div with
  | zero => exact ⟨0, div, narrow_small hlt, by omega, by omega, hpos, .inl rfl⟩
  | succ fuel ih =>
    by_cases hsmall : div < 2 ^ 32
    · exact ⟨0, div, narrow_small hsmall, by omega, by omega, hpos, .inl rfl⟩
    · obtain ⟨s, e, hrun, hle, hgt, he, hbig⟩ := ih (sft + 1) (div / 2) (by omega)
        (by rw [← Nat.add_assoc, Nat.pow_succ] at hlt; omega)
      refine ⟨s + 1, e, ?_, ?_, ?_, he, .inr ?_⟩
      · rw [narrow, if_neg (by omega), ← Nat.add_assoc, Nat.add_right_comm]
        exact hrun
      · rw [Nat.pow_succ, ← Nat.mul_assoc]
        omega
      · rw [Nat.pow_succ, ← Nat.mul_assoc]
        omega
      · rcases hbig with rfl | hbig
        · rw [Nat.pow_zero] at hgt
          omega
        · exact hbig

/-- The quotient by a divisor without its low bits. -/
theorem quotient_bounds {D n s e : Nat} (hD : D < 2 ^ 63) (hle : e * 2 ^ s ≤ n)
    (hgt : n < (e + 1) * 2 ^ s) (he : 0 < e) (hbig : s = 0 ∨ 2 ^ 31 ≤ e) :
    D / n ≤ D / 2 ^ s / e ∧ D / 2 ^ s / e ≤ D / n + 1 := by
  have hpow : 0 < 2 ^ s := Nat.two_pow_pos s
  have hdiv : D / 2 ^ s / e = D / (e * 2 ^ s) := by
    rw [Nat.div_div_eq_div_mul, Nat.mul_comm]
  have hM : 0 < e * 2 ^ s := Nat.mul_pos he hpow
  rw [hdiv]
  refine ⟨Nat.div_le_div_left hle hM, ?_⟩
  generalize hq : D / (e * 2 ^ s) = q
  have hqM : q * (e * 2 ^ s) ≤ D := hq ▸ Nat.div_mul_le_self D _
  have hn : 0 < n := Nat.lt_of_lt_of_le hM hle
  refine Nat.sub_le_iff_le_add.mp ((Nat.le_div_iff_mul_le hn).mpr ?_)
  rcases Nat.eq_zero_or_pos s with rfl | hs
  · have hexact : n = e * 2 ^ 0 := by omega
    exact Nat.le_trans (Nat.mul_le_mul_right n (Nat.sub_le q 1)) (hexact ▸ hqM)
  -- the quotient has less than 32 bits, so that it is not above the divisor
  have hqe : q ≤ e := by
    have hbig' : 2 ^ 31 ≤ e := hbig.resolve_left (by omega)
    have hpow' : 2 ^ 1 ≤ 2 ^ s := Nat.pow_le_pow_right (by omega) hs
    have hM' : 2 ^ 31 * 2 ^ 1 ≤ e * 2 ^ s := Nat.mul_le_mul hbig' hpow'
    have hq' : q * (2 ^ 31 * 2 ^ 1) ≤ D := Nat.le_trans (Nat.mul_le_mul_left q hM') hqM
    omega
  cases q with
  | zero => omega
  | succ r =>
    calc r * n ≤ r * (e * 2 ^ s) + r * 2 ^ s := by
          rw [← Nat.mul_add, ← Nat.succ_mul]
          exact Nat.mul_le_mul_left _ (Nat.le_of_lt hgt)
      _ ≤ r * (e * 2 ^ s) + e * 2 ^ s :=
          Nat.add_le_add_left (Nat.mul_le_mul_right _ (Nat.le_of_succ_le hqe)) _
      _ = (r + 1) * (e * 2 ^ s) := (Nat.succ_mul r _).symm
      _ ≤ D := hqM

/-- The quotient `ktime_divns` returns. -/
theorem ktimeDivns_spec {D n : Nat} (hD : D < 2 ^ 63) (hpos : 0 < n) (hn : n < 2 ^ 63) :
    ktimeDivns D n = some (D / n) ∨ ktimeDivns D n = some (D / n + 1) := by
  obtain ⟨s, e, hrun, hle, hgt, he, hbig⟩ := narrow_spec 63 0 n hpos (by omega)
  obtain ⟨hlo, hhi⟩ := quotient_bounds hD hle hgt he hbig
  have hres : ktimeDivns D n = some (D / 2 ^ s / e) := by
    rw [ktimeDivns, hrun, Option.map_some, u64_eq (by omega), Nat.zero_add, Int.toNat_natCast]
  rw [hres]
  rcases Nat.lt_or_ge (D / n) (D / 2 ^ s / e) with h | h
  · exact .inr (congrArg some (by omega))
  · exact .inl (congrArg some (by omega))

/-! ## The forwarded timer -/

/-- The numbers of an `s64`. -/
def S64 (x : Int) : Prop :=
  -2 ^ 63 ≤ x ∧ x < 2 ^ 63

/-- The interval, raised to the resolution of the base. -/
def Timer.raised (timer : Timer) (interval : Int) : Int :=
  max interval timer.resolution

/-- The least number of intervals after which the timer expires later than `now`. -/
structure Timer.Overruns (timer : Timer) (now interval : Int) (k : Nat) : Prop where
  later : now < timer.expires + k * interval
  least : ∀ j : Nat, j < k → timer.expires + j * interval ≤ now

/-- What forwarding is for: the timer moves by whole intervals, just past `now`. -/
def Timer.Forwarded (timer : Timer) (now interval : Int) (r : Option (Timer × Nat)) : Prop :=
  (timer.expires ≤ now → ∀ k : Nat, timer.Overruns now (timer.raised interval) k →
    S64 (timer.expires + k * timer.raised interval) →
    ∃ t, r = some (t, k) ∧ t.expires = timer.expires + k * timer.raised interval) ∧
  (now < timer.expires → r = some (timer, 0))

/-- The interval of the last addition meets a time that is not negative, or there is no last
addition, as the quotient was one too large. -/
def Timer.Safe (timer : Timer) (now interval : Int) (k : Nat) : Prop :=
  0 ≤ timer.expires + (k - 1) * interval ∨
    interval ≤ now - timer.expires ∧ ktimeDivns (now - timer.expires) interval = some k

variable {timer : Timer} {now interval : Int} {k : Nat}

/-- The number of intervals is the quotient, rounded up to the next one. -/
theorem Timer.Overruns.eq_quotient {D n : Nat} (h : timer.Overruns now n k) (hn : 0 < n)
    (hD : now = timer.expires + D) : k = D / n + 1 := by
  have hlater := h.later
  refine Nat.le_antisymm ?_ ?_
  · by_contra hgt
    have hleast := h.least (D / n + 1) (by omega)
    have hmul := Nat.lt_mul_div_succ D hn
    rw [Nat.mul_comm] at hmul
    have : (((D / n + 1 : Nat) : Int)) * n ≤ D := by omega
    omega
  · have hlt : D < k * n := by
      have : (D : Int) < ((k * n : Nat) : Int) := by
        rw [Int.natCast_mul]
        omega
      omega
    exact Nat.succ_le_of_lt ((Nat.div_lt_iff_lt_mul hn).mpr hlt)

/-- The last addition: a time that is negative counts as an overflow. -/
theorem ktimeAddSafe_cases {x y : Int} {p : Prop} (hx : S64 x) (hy : 0 < y) (hfit : S64 (x + y))
    (hp : ¬ p) : (0 ≤ x ∨ p → ktimeAddSafe x y = x + y) ∧
      (¬ (0 ≤ x ∨ p) → ktimeAddSafe x y = ktimeSecMax) := by
  obtain ⟨hxlo, hxhi⟩ := hx
  obtain ⟨hlo, hhi⟩ := hfit
  simp only [ktimeAddSafe, s64_eq hlo hhi]
  refine ⟨fun h => if_neg ?_, fun h => if_pos ?_⟩
  · have := h.resolve_right hp
    omega
  · have : ¬ 0 ≤ x := fun hle => h (.inl hle)
    omega

/-- The difference of the times does not fit: nothing changes. -/
theorem hrtimerForward_far (hnow : S64 now) (hexp : S64 timer.expires)
    (hfar : 2 ^ 63 ≤ now - timer.expires) : hrtimerForward timer now interval = some (timer, 0) := by
  obtain ⟨hlo, hhi⟩ := hnow
  obtain ⟨hlo', hhi'⟩ := hexp
  simp only [hrtimerForward]
  rw [if_pos]
  rw [s64, Int.bmod_def]
  split
  · omega
  · omega

/-- A timer that expires later than `now` is left alone. -/
theorem hrtimerForward_later (hlo : -2 ^ 63 ≤ now - timer.expires) (h : now < timer.expires) :
    hrtimerForward timer now interval = some (timer, 0) := by
  simp only [hrtimerForward, s64_eq hlo (by omega)]
  rw [if_pos (by omega)]

theorem hrtimerForward_moves (hexp : S64 timer.expires) (hival : S64 interval)
    (hres : 1 ≤ timer.resolution) (hres' : S64 timer.resolution) (hle : timer.expires ≤ now)
    (hnear : now - timer.expires < 2 ^ 63) (hk : timer.Overruns now (timer.raised interval) k)
    (hfit : S64 (timer.expires + k * timer.raised interval)) :
    ∃ t, hrtimerForward timer now interval = some (t, k) ∧
      (timer.Safe now (timer.raised interval) k →
        t.expires = timer.expires + k * timer.raised interval) ∧
      (¬ timer.Safe now (timer.raised interval) k → t.expires = ktimeSecMax) := by
  obtain ⟨D, hD⟩ := Int.eq_ofNat_of_zero_le (show 0 ≤ now - timer.expires by omega)
  obtain ⟨n, hn⟩ := Int.eq_ofNat_of_zero_le (show 0 ≤ timer.raised interval by
    rw [Timer.raised]
    omega)
  obtain ⟨hxlo, hxhi⟩ := hexp
  obtain ⟨hilo, hihi⟩ := hival
  obtain ⟨hrlo, hrhi⟩ := hres'
  have hmax : (if interval < timer.resolution then timer.resolution else interval) = (n : Int) := by
    rw [← hn, Timer.raised]
    split_ifs
    · omega
    · omega
  have hnpos : 0 < n := by
    rw [Timer.raised] at hn
    omega
  have hnlt : n < 2 ^ 63 := by
    rw [Timer.raised] at hn
    omega
  have hDlt : D < 2 ^ 63 := by omega
  rw [hn] at hk hfit ⊢
  have hnow' : now = timer.expires + D := by omega
  have hkq := hk.eq_quotient hnpos hnow'
  have hqD : (D / n : Nat) * (n : Int) ≤ D := by
    have := Nat.div_mul_le_self D n
    omega
  simp only [hrtimerForward, Timer.Safe, hD, hmax, s64_eq (show -2 ^ 63 ≤ (D : Int) by omega)
    (show (D : Int) < 2 ^ 63 by omega)]
  rw [if_neg (show ¬ (D : Int) < 0 by omega)]
  obtain ⟨q, hq⟩ : ∃ q, q = D / n := ⟨_, rfl⟩
  rw [← hq] at hkq hqD
  subst hkq
  have hcast : ((q + 1 : Nat) : Int) - 1 = q := by omega
  have hnext : ((q + 1 : Nat) : Int) * n = q * n + n := by
    rw [Int.natCast_add, Int.natCast_one, Int.add_mul, Int.one_mul]
  rw [hnext] at hfit ⊢
  rw [hcast]
  obtain ⟨hflo, hfhi⟩ := hfit
  have hqpos : 0 ≤ (q : Int) * n := Int.mul_nonneg (by omega) (by omega)
  have hlater := hk.later
  rw [hnext] at hlater
  by_cases hge : (n : Int) ≤ D
  · rw [if_pos hge]
    have hns : ∀ m : Nat, (m : Int) * n = (q : Int) * n ∨ (m : Int) * n = q * n + n →
        (timer.addExpiresNs (u64 (n * m))).expires = timer.expires + m * n := by
      intro m hm
      show s64 (timer.expires + u64 (n * m)) = _
      rw [s64_add_u64, Int.mul_comm]
      exact s64_eq (by omega) (by omega)
    rcases ktimeDivns_spec hDlt hnpos hnlt with hdiv | hdiv
    · have hq64 : q + 1 < 2 ^ 64 := by
        have : D / n ≤ D := Nat.div_le_self D n
        omega
      rw [hdiv, ← hq, Option.map_some, hns q (.inl rfl), if_neg (by omega)]
      refine ⟨_, by rw [← Int.natCast_add_one, u64_eq hq64], ?_⟩
      rw [← Int.add_assoc, ← hns q (.inl rfl)]
      refine ktimeAddSafe_cases ?_ (by omega) ?_ ?_
      · rw [hns q (.inl rfl)]
        exact ⟨by omega, by omega⟩
      · rw [hns q (.inl rfl)]
        exact ⟨by omega, by omega⟩
      · rintro ⟨_, h⟩
        exact absurd (Option.some.inj h) (by omega)
    · rw [hdiv, ← hq, Option.map_some, hns (q + 1) (.inr hnext), hnext, if_pos (by omega)]
      refine ⟨_, rfl, fun _ => ?_, fun h => ?_⟩
      · rw [hns (q + 1) (.inr hnext), hnext]
      · exact absurd (.inr ⟨hge, rfl⟩) h
  · have hzero : q = 0 := by
      rw [hq]
      exact Nat.div_eq_of_lt (by omega)
    subst hzero
    rw [if_neg hge, Int.natCast_zero, Int.zero_mul, Int.zero_add, Int.add_zero]
    exact ⟨_, rfl, ktimeAddSafe_cases ⟨hxlo, hxhi⟩ (by omega) ⟨by omega, by omega⟩
      fun h => hge h.1⟩

/-- `hrtimer_forward` moves a timer by the least number of intervals that takes it past `now`,
where the difference of the times fits in 64 bits and the last addition is not taken for an
overflow. -/
theorem hrtimer_forward_exact (timer : Timer) (now interval : Int) (hnow : S64 now)
    (hexp : S64 timer.expires) (hival : S64 interval) (hres : 1 ≤ timer.resolution)
    (hres' : S64 timer.resolution) :
    (timer.expires ≤ now → now - timer.expires < 2 ^ 63 →
      ∀ k : Nat, timer.Overruns now (timer.raised interval) k →
        S64 (timer.expires + k * timer.raised interval) →
        ∃ t, hrtimerForward timer now interval = some (t, k) ∧
          (timer.Safe now (timer.raised interval) k →
            t.expires = timer.expires + k * timer.raised interval) ∧
          (¬ timer.Safe now (timer.raised interval) k → t.expires = ktimeSecMax)) ∧
      (2 ^ 63 ≤ now - timer.expires → hrtimerForward timer now interval = some (timer, 0)) ∧
      (now < timer.expires → -2 ^ 63 ≤ now - timer.expires →
        hrtimerForward timer now interval = some (timer, 0)) :=
  ⟨fun hle hnear _ hk hfit => hrtimerForward_moves hexp hival hres hres' hle hnear hk hfit,
    hrtimerForward_far hnow hexp, fun h hlo => hrtimerForward_later hlo h⟩

/-- A quotient that is one too large: the divisor of 2^32 + 1 ns loses its last bit. -/
theorem hrtimer_forward_exact_overshoot :
    ∃ t, hrtimerForward ⟨0, 0, 1⟩ (2 ^ 33) (2 ^ 32 + 1) = some (t, 2) ∧
      t.expires = 2 * (2 ^ 32 + 1) := by
  obtain ⟨t, hrun, hsafe, _⟩ := (hrtimer_forward_exact ⟨0, 0, 1⟩ (2 ^ 33) (2 ^ 32 + 1)
    ⟨by decide, by decide⟩ ⟨by decide, by decide⟩ ⟨by decide, by decide⟩ (by decide)
    ⟨by decide, by decide⟩).1 (by decide) (by decide) 2
    ⟨by decide, by
      intro j hj
      have hone : (j : Int) * (2 ^ 32 + 1) ≤ 1 * (2 ^ 32 + 1) :=
        Int.mul_le_mul_of_nonneg_right (by omega) (by decide)
      show 0 + (j : Int) * (2 ^ 32 + 1) ≤ 2 ^ 33
      omega⟩ ⟨by decide, by decide⟩
  exact ⟨t, hrun, hsafe (.inl (by decide))⟩

/-- A timer before time 0 does not move by its interval, but to the end of time. -/
theorem negative_expiry_clamped : ¬ ∀ (timer : Timer) (now interval : Int), S64 now →
    S64 timer.expires → S64 interval → 1 ≤ timer.resolution → S64 timer.resolution →
    timer.Forwarded now interval (hrtimerForward timer now interval) := by
  intro h
  have hmoved := (h ⟨-10, -10, 1⟩ (-5) 20 ⟨by decide, by decide⟩ ⟨by decide, by decide⟩
    ⟨by decide, by decide⟩ (by decide) ⟨by decide, by decide⟩).1 (by decide) 1
    ⟨by decide, by decide⟩ ⟨by decide, by decide⟩
  obtain ⟨t, hrun, hexp⟩ := hmoved
  have hclamped : hrtimerForward ⟨-10, -10, 1⟩ (-5) 20 = some (⟨ktimeSecMax, ktimeSecMax, 1⟩, 1) := by
    decide
  rw [hclamped] at hrun
  cases hrun
  exact absurd hexp (by decide)

end AndroidKernel.Hrtimer
