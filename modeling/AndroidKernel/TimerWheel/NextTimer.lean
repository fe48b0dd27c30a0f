import AndroidKernel.TimerWheel.Cascades

/-!
# The next timer interrupt

The scan takes the lists of a level in the order of their rows, from the next row on, and stops
where all lists that it has not looked at begin later than what it has found. Positions in time
are natural numbers, one range of words ahead, so that those before the current jiffy are there.
-/

/-!
## The loops of `__next_timer_interrupt`

What the loops over the lists of a level come to, and the round-up of `timer_jiffies` to the next
cascade.
-/

namespace AndroidKernel.TimerWheel

open Library

variable {small found : Bool} {T k j index x n e E lo tj : Nat} {t : Timer} {base : TvecBase}

/-! ## Looking for a list -/

/-- What `searchTv1` returns from slot `x` on. -/
inductive FoundTv1 (small : Bool) (base : TvecBase) (n x : Nat) : Option (Nat × Nat) → Prop
  | here (j : Nat) (t : Timer) (hj : j < n) (hmem : t ∈ base.vec 0 ((x + j) % 2 ^ tvrBits small))
      (ht : t.deferrable = false)
      (hskip : ∀ i, i < j → ∀ t ∈ base.vec 0 ((x + i) % 2 ^ tvrBits small), t.deferrable = true) :
      FoundTv1 small base n x (some ((x + j) % 2 ^ tvrBits small, t.expires))
  | nowhere (hskip : ∀ i, i < n → ∀ t ∈ base.vec 0 ((x + i) % 2 ^ tvrBits small),
      t.deferrable = true) : FoundTv1 small base n x none

theorem searchTv1_spec (small : Bool) (base : TvecBase) (n x : Nat) :
    FoundTv1 small base n x (searchTv1 small base n (x % 2 ^ tvrBits small)) := by
  induction n generalizing x with
  | zero => exact .nowhere nofun
  | succ n ih =>
    unfold searchTv1
    cases hfind : (base.vec 0 (x % 2 ^ tvrBits small)).find? fun timer => !timer.deferrable with
    | some t =>
      have ht : t.deferrable = false := by simpa using List.find?_some hfind
      exact @FoundTv1.here small base (n + 1) x 0 t (Nat.succ_pos n) (List.mem_of_find?_eq_some hfind) ht
        nofun
    | none =>
      have hnone (t : Timer) (hmem : t ∈ base.vec 0 (x % 2 ^ tvrBits small)) :
          t.deferrable = true := by
        simpa using List.find?_eq_none.mp hfind t hmem
      have hrest := ih (x + 1)
      dsimp only
      rw [Nat.mod_add_mod]
      have hskip (m : Nat)
          (hlater : ∀ i, i < m → ∀ t ∈ base.vec 0 ((x + 1 + i) % 2 ^ tvrBits small),
            t.deferrable = true)
          (i : Nat) (hi : i < m + 1) (t : Timer)
          (hmem : t ∈ base.vec 0 ((x + i) % 2 ^ tvrBits small)) : t.deferrable = true := by
        cases i with
        | zero => exact hnone t hmem
        | succ i =>
          refine hlater i (by omega) t ?_
          rwa [Nat.add_right_comm]
      generalize searchTv1 small base n ((x + 1) % 2 ^ tvrBits small) = r at hrest
      cases hrest with
      | here j t hj hmem ht hlater =>
        rw [Nat.add_right_comm] at hmem ⊢
        exact .here (j + 1) t (by omega) hmem ht (hskip j hlater)
      | nowhere hlater => exact .nowhere (hskip n hlater)

/-- What `searchLevel` returns from slot `x` on. -/
inductive FoundLevel (small : Bool) (base : TvecBase) (k : Nat) (found : Bool) (n x e : Nat) :
    Option Nat × Nat → Prop
  | here (j : Nat) (hj : j < n) (hfirst : found = true → j = 0)
      (hne : found = false → base.vec k ((x + j) % 2 ^ tvnBits small) ≠ [])
      (hskip : ∀ i, i < j → base.vec k ((x + i) % 2 ^ tvnBits small) = []) :
      FoundLevel small base k found n x e
        (some ((x + j) % 2 ^ tvnBits small), earlier (base.vec k ((x + j) % 2 ^ tvnBits small)) e)
  | nowhere (hfound : found = false)
      (hskip : ∀ i, i < n → base.vec k ((x + i) % 2 ^ tvnBits small) = []) :
      FoundLevel small base k found n x e (none, e)

theorem searchLevel_spec (small : Bool) (base : TvecBase) (k x e : Nat)
    (hn : found = true → 0 < n) :
    FoundLevel small base k found n x e
      (searchLevel small base k found n (x % 2 ^ tvnBits small) e) := by
  induction n generalizing x e with
  | zero =>
    cases found with
    | true => exact absurd (hn rfl) (Nat.lt_irrefl 0)
    | false => exact .nowhere rfl nofun
  | succ n ih =>
    unfold searchLevel
    dsimp only
    split
    · rename_i hstop
      refine @FoundLevel.here small base k found (n + 1) x e 0 (Nat.succ_pos n) (fun _ => rfl)
        (fun hfound => ?_) nofun
      rw [hfound, Bool.false_or, Bool.not_eq_true', List.isEmpty_eq_false_iff] at hstop
      exact hstop
    rename_i hgo
    rw [Bool.not_eq_true, Bool.or_eq_false_iff, Bool.not_eq_false', List.isEmpty_iff] at hgo
    obtain ⟨hfound, hempty⟩ := hgo
    have hrest := ih (x + 1) e fun h => absurd (hfound.symm.trans h) Bool.false_ne_true
    rw [Nat.mod_add_mod, hempty]
    show FoundLevel small base k found (n + 1) x e
      (searchLevel small base k found n ((x + 1) % 2 ^ tvnBits small) e)
    have hskip (m : Nat)
        (hlater : ∀ i, i < m → base.vec k ((x + 1 + i) % 2 ^ tvnBits small) = []) (i : Nat)
        (hi : i < m + 1) : base.vec k ((x + i) % 2 ^ tvnBits small) = [] := by
      cases i with
      | zero => exact hempty
      | succ i =>
        rw [← Nat.add_assoc, Nat.add_right_comm]
        exact hlater i (by omega)
    generalize searchLevel small base k found n ((x + 1) % 2 ^ tvnBits small) e = r at hrest
    cases hrest with
    | here j hj hfirst hne hlater =>
      have hassoc : x + 1 + j = x + (j + 1) := by omega
      rw [hassoc] at hne ⊢
      refine .here (j + 1) (by omega) (fun h => ?_) hne (hskip j hlater)
      exact absurd (hfound.symm.trans h) Bool.false_ne_true
    | nowhere _ hlater => exact .nowhere hfound (hskip n hlater)

/-! ## The earliest expiry of a list -/

/-- Among expiries within half the range of words, `earlier` finds the least. -/
theorem earlier_spec (place : Timer → Nat) (timers : List Timer)
    (hplace : ∀ t ∈ timers, place t % word = t.expires ∧ lo ≤ place t ∧ place t < lo + 2 ^ 31)
    (hge : lo ≤ E) (hlt : E < lo + 2 ^ 31) :
    ∃ E', earlier timers (E % word) = E' % word ∧ lo ≤ E' ∧ E' ≤ E ∧
      (∀ t ∈ timers, E' ≤ place t) ∧ (E' = E ∨ ∃ t ∈ timers, E' = place t) := by
  induction timers generalizing E with
  | nil => exact ⟨E, rfl, hge, le_rfl, nofun, Or.inl rfl⟩
  | cons t timers ih =>
    obtain ⟨hmod, hlo, hhi⟩ := hplace t List.mem_cons_self
    have hrest (t' : Timer) (ht' : t' ∈ timers) := hplace t' (List.mem_cons_of_mem t ht')
    have hdiff : signedDiff t.expires (E % word) = (place t : Int) - E := by
      rw [← hmod]
      exact signedDiff_eq (by omega) (by omega)
    have hstep : earlier (t :: timers) (E % word) =
        earlier timers (if timeBefore t.expires (E % word) then t.expires else E % word) := rfl
    rw [hstep]
    unfold timeBefore
    rw [hdiff]
    by_cases hbefore : place t < E
    · rw [if_pos (decide_eq_true (by omega)), ← hmod]
      obtain ⟨E', heq, hE', hle, hall, hsource⟩ := ih hrest hlo hhi
      refine ⟨E', heq, hE', by omega, List.forall_mem_cons.mpr ⟨hle, hall⟩, Or.inr ?_⟩
      rcases hsource with rfl | ⟨t', ht', rfl⟩
      · exact ⟨t, List.mem_cons_self, rfl⟩
      · exact ⟨t', List.mem_cons_of_mem t ht', rfl⟩
    · rw [if_neg (by rw [decide_eq_true_iff]; omega)]
      obtain ⟨E', heq, hE', hle, hall, hsource⟩ := ih hrest hge hlt
      refine ⟨E', heq, hE', hle, List.forall_mem_cons.mpr ⟨by omega, hall⟩, ?_⟩
      rcases hsource with rfl | ⟨t', ht', rfl⟩
      · exact Or.inl rfl
      · exact Or.inr ⟨t', List.mem_cons_of_mem t ht', rfl⟩

/-! ## The next cascade -/

/-- `timer_jiffies` at a level: the next row that begins, or 0 if that is the first one after the
range of words. -/
def AtRow (small : Bool) (T k tj : Nat) : Prop :=
  tj = nextRow (shift small k) T ∨
    tj = 0 ∧ nextRow (shift small k) T * 2 ^ shift small k = word

theorem nextRow_mul_le (hk : k ≤ 5) (hT : T < word) :
    nextRow (shift small k) T * 2 ^ shift small k ≤ word := by
  obtain ⟨c, hc⟩ := pow_shift_dvd_word small hk
  have hle : nextRow (shift small k) T ≤ c := by
    rw [nextRow_le_iff, Nat.mul_comm, ← hc]
    exact hT.le
  rw [hc, Nat.mul_comm]
  exact Nat.mul_le_mul_left _ hle

theorem nextRow_shift_succ (small : Bool) (k T : Nat) : nextRow (shift small (k + 1)) T =
    nextRow (levelBits small k) (nextRow (shift small k) T) := by
  rw [shift_succ, nextRow_add]

/-- Where the range of words ends, a row of the next level begins. -/
theorem nextRow_last {q : Nat} (hk : k ≤ 4) (hword : q * 2 ^ shift small k = word) :
    2 ^ levelBits small k ∣ q ∧ nextRow (levelBits small k) q * 2 ^ shift small (k + 1) = word := by
  obtain ⟨c, hc⟩ := pow_shift_dvd_word small (by omega : k + 1 ≤ 5)
  have hq : q = 2 ^ levelBits small k * c := by
    refine Nat.eq_of_mul_eq_mul_right (Nat.two_pow_pos (shift small k)) ?_
    rw [hword, hc, shift_succ, Nat.pow_add, Nat.mul_assoc, Nat.mul_comm]
  have hdvd : 2 ^ levelBits small k ∣ q := ⟨c, hq⟩
  refine ⟨hdvd, ?_⟩
  rw [nextRow_of_dvd hdvd, hq, Nat.mul_div_cancel_left _ (Nat.two_pow_pos _), hc, Nat.mul_comm]

theorem AtRow.mod_eq (h : AtRow small T k tj) (hk : k ≤ 4) :
    tj % 2 ^ levelBits small k = nextRow (shift small k) T % 2 ^ levelBits small k := by
  rcases h with rfl | ⟨rfl, hword⟩
  · rfl
  · rw [Nat.mod_eq_zero_of_dvd (nextRow_last hk hword).1, Nat.zero_mod]

theorem AtRow.next (h : AtRow small T k tj) (hk : k ≤ 4) (hT : T < word) :
    AtRow small T (k + 1) (nextCascade small k tj) := by
  have hpos := Nat.two_pow_pos (levelBits small k)
  have hbound := @nextRow_mul_le small T (k + 1) (by omega) hT
  unfold AtRow nextCascade
  dsimp only
  rw [nextRow_shift_succ] at *
  rcases h with rfl | ⟨rfl, hword⟩
  · have heq := nextRow_eq (levelBits small k) (nextRow (shift small k) T)
    generalize nextRow (shift small k) T = q at *
    by_cases hzero : q % 2 ^ levelBits small k = 0
    · rw [if_neg (not_not.mpr hzero)] at *
      exact Or.inl heq.symm
    rw [if_pos hzero] at *
    by_cases hwrap : q + (2 ^ levelBits small k - q % 2 ^ levelBits small k) < word
    · rw [wadd_eq hwrap]
      exact Or.inl heq.symm
    -- the sum reaches the end of the range, where the next row begins
    have hsum := nextRow_mul hzero
    rw [shift_succ, Nat.pow_add, Nat.mul_comm (2 ^ shift small k), ← Nat.mul_assoc, hsum] at hbound ⊢
    have hle := Nat.le_mul_of_pos_right
      (q + (2 ^ levelBits small k - q % 2 ^ levelBits small k))
      (Nat.two_pow_pos (shift small k))
    have hend : q + (2 ^ levelBits small k - q % 2 ^ levelBits small k) = word := by omega
    refine Or.inr ⟨?_, by omega⟩
    rw [wadd, hend, Nat.mod_self, Nat.zero_div]
  · obtain ⟨hdvd, hlast⟩ := nextRow_last hk hword
    rw [Nat.zero_mod, if_neg (not_not.mpr rfl), Nat.zero_div]
    exact Or.inr ⟨rfl, hlast⟩

variable {small found : Bool} {T k j index tj E : Nat} {t : Timer} {base : TvecBase}

/-- The position of the expiry of a timer. -/
def place (T : Nat) (t : Timer) : Nat :=
  if 2 ^ 31 ≤ wsub t.expires T then due T t else due T t + word

theorem place_mod (T : Nat) (ht : t.expires < word) : place T t % word = t.expires := by
  unfold place
  split
  · exact due_mod T ht
  · rw [Nat.add_mod_right, due_mod T ht]

theorem place_eq (h : wsub t.expires T < 2 ^ 31) : place T t = due T t + word :=
  if_neg (by omega)

/-- What has been found, as a position, when the lists of the levels below `k` have been looked
at. -/
structure Bounds (small : Bool) (base : TvecBase) (k E : Nat) : Prop where
  ge : base.timerJiffies + word ≤ E + 2 ^ 30
  le : E ≤ base.timerJiffies + word + nextTimerMaxDelta
  below : ∀ j index t, j < k → t ∈ base.vec j index → t.deferrable = false →
    wsub t.expires base.timerJiffies < 2 ^ 31 → E ≤ due base.timerJiffies t + word
  source : E = base.timerJiffies + word + nextTimerMaxDelta ∨ ∃ j index t, t ∈ base.vec j index ∧
    E % word = t.expires ∧ (j = 0 → t.deferrable = false)

/-- What has been found at the levels below `k` is before the end of the next row of level `k`. -/
def BeforeRow (small : Bool) (T k E : Nat) : Prop :=
  E < (nextRow (shift small k) T + 1) * 2 ^ shift small k + word

theorem Scannable.slotted (h : Scannable small base) (ht : t ∈ base.vec k index) (hk : k ≠ 0) :
    Slotted small base.timerJiffies k index (due base.timerJiffies t) :=
  (h.wellPlaced.placed k index t ht).slotted hk

theorem Slotted.wsub_lt (hs : Slotted small T k index (due T t)) : wsub t.expires T < 2 ^ 31 := by
  have := hs.ahead
  unfold due at this
  omega

/-- The row of a timer is one of the next turn of its level. -/
theorem Scannable.row (h : Scannable small base) (ht : t ∈ base.vec k index)
    (hs : Slotted small base.timerJiffies k index (due base.timerJiffies t)) :
    nextRow (shift small k) base.timerJiffies ≤ due base.timerJiffies t / 2 ^ shift small k ∧
      due base.timerJiffies t / 2 ^ shift small k <
        nextRow (shift small k) base.timerJiffies + 2 ^ levelBits small k := by
  refine ⟨nextRow_le_iff.mpr hs.le, lt_nextRow_add ?_⟩
  rw [← shift_succ]
  have hk := (h.wellPlaced.placed k index t ht).1
  by_cases hlast : k < 4
  · exact hs.lt hlast
  · obtain rfl : k = 4 := by omega
    exact (h.timely 4 index t ht).turn hs.wsub_lt

/-- The row of a timer in the list of a slot. -/
theorem Scannable.row_eq (h : Scannable small base)
    (ht : t ∈ base.vec k ((nextRow (shift small k) base.timerJiffies + j) % 2 ^ levelBits small k))
    (hs : Slotted small base.timerJiffies k
      ((nextRow (shift small k) base.timerJiffies + j) % 2 ^ levelBits small k)
      (due base.timerJiffies t)) (hj : j < 2 ^ levelBits small k) :
    due base.timerJiffies t / 2 ^ shift small k = nextRow (shift small k) base.timerJiffies + j := by
  obtain ⟨hge, hlt⟩ := h.row ht hs
  exact eq_of_mod_eq hge hlt hj hs.index_eq

/-- A timer of a level is in the list of a row of the next turn. -/
theorem Scannable.exists_row (h : Scannable small base) (ht : t ∈ base.vec k index)
    (hs : Slotted small base.timerJiffies k index (due base.timerJiffies t)) :
    ∃ j, j < 2 ^ levelBits small k ∧
      index = (nextRow (shift small k) base.timerJiffies + j) % 2 ^ levelBits small k ∧
      due base.timerJiffies t / 2 ^ shift small k =
        nextRow (shift small k) base.timerJiffies + j := by
  obtain ⟨hge, hlt⟩ := h.row ht hs
  obtain ⟨j, hj⟩ := Nat.exists_eq_add_of_le hge
  refine ⟨j, by omega, ?_, hj⟩
  rw [← hj]
  exact hs.index_eq.symm

/-- The next rows of higher levels begin later. -/
theorem nextRow_mul_mono (small : Bool) (T : Nat) {k j : Nat} (hle : k ≤ j) :
    nextRow (shift small k) T * 2 ^ shift small k ≤
      nextRow (shift small j) T * 2 ^ shift small j := by
  obtain ⟨d, hd⟩ := Nat.exists_eq_add_of_le (shift_mono small hle)
  have hrow : nextRow (shift small k) T ≤ nextRow (shift small j) T * 2 ^ d := by
    rw [nextRow_le_iff, Nat.mul_assoc, ← Nat.pow_add, Nat.add_comm d, ← hd]
    exact le_nextRow_mul _ T
  calc nextRow (shift small k) T * 2 ^ shift small k
      ≤ nextRow (shift small j) T * 2 ^ d * 2 ^ shift small k := Nat.mul_le_mul_right _ hrow
    _ = nextRow (shift small j) T * 2 ^ shift small j := by
      rw [Nat.mul_assoc, ← Nat.pow_add, Nat.add_comm d, ← hd]

/-- What is before the next row of the level above is before all timers from there on. -/
theorem Bounds.all (h : Scannable small base) (hb : Bounds small base (k + 1) E)
    (hend : E ≤ nextRow (shift small (k + 1)) base.timerJiffies * 2 ^ shift small (k + 1) + word) :
    Bounds small base 5 E := by
  refine ⟨hb.ge, hb.le, fun j index t hj ht hdef hahead => ?_, hb.source⟩
  by_cases hlow : j < k + 1
  · exact hb.below j index t hlow ht hdef hahead
  · have hs := h.slotted ht (by omega)
    have hrow := (h.row ht hs).1
    have hmono := nextRow_mul_mono small base.timerJiffies (by omega : k + 1 ≤ j)
    have hmul := Nat.mul_le_mul_right (2 ^ shift small j) hrow
    have hdiv := Nat.div_mul_le_self (due base.timerJiffies t) (2 ^ shift small j)
    omega

/-! ## One level -/

theorem levelBits_of_ne_zero (small : Bool) (hk : k ≠ 0) : levelBits small k = tvnBits small := by
  obtain ⟨j, rfl⟩ := Nat.exists_eq_succ_of_ne_zero hk
  rfl

theorem pow_shift_le (small : Bool) (hk : k ≤ 4) : 2 ^ shift small k ≤ 2 ^ 26 := by
  refine Nat.pow_le_pow_right (by decide) ((shift_mono small hk).trans ?_)
  cases small <;> decide

theorem nextRow_mul_lt (small : Bool) (k T : Nat) :
    nextRow (shift small k) T * 2 ^ shift small k < T + 2 ^ shift small k := by
  by_contra hge
  have hprev : nextRow (shift small k) T ≤ nextRow (shift small k) T - 1 := by
    rw [nextRow_le_iff, Nat.sub_one_mul]
    omega
  have hpos : 0 < nextRow (shift small k) T := by
    by_contra hzero
    rw [Nat.eq_zero_of_not_pos hzero, Nat.zero_mul] at hge
    have := Nat.two_pow_pos (shift small k)
    omega
  omega

/-- What is found in the list of a row: it is before the end of the row, and not after the timers
of the level. -/
theorem Bounds.list (h : Scannable small base) (hb : Bounds small base k E) (hpos : k ≠ 0)
    (hk : k ≤ 4) (hfound : found = true → BeforeRow small base.timerJiffies k E)
    (hunfound : found = false → base.timerJiffies + word ≤ E) (hj : j < 2 ^ levelBits small k)
    (hfirst : found = true → j = 0)
    (hne : found = false → base.vec k
      ((nextRow (shift small k) base.timerJiffies + j) % 2 ^ levelBits small k) ≠ [])
    (hskip : ∀ i, i < j → base.vec k
      ((nextRow (shift small k) base.timerJiffies + i) % 2 ^ levelBits small k) = []) :
    ∃ E', earlier (base.vec k
        ((nextRow (shift small k) base.timerJiffies + j) % 2 ^ levelBits small k)) (E % word) =
        E' % word ∧ Bounds small base (k + 1) E' ∧
      E' < (nextRow (shift small k) base.timerJiffies + j + 1) * 2 ^ shift small k + word := by
  have hlist (t : Timer) (ht : t ∈ base.vec k
      ((nextRow (shift small k) base.timerJiffies + j) % 2 ^ levelBits small k)) :
      wsub t.expires base.timerJiffies < 2 ^ 31 ∧ due base.timerJiffies t <
        (nextRow (shift small k) base.timerJiffies + j + 1) * 2 ^ shift small k := by
    have hs := h.slotted ht hpos
    have hrow := lt_row_add (due base.timerJiffies t) (shift small k)
    rw [h.row_eq ht hs hj, ← Nat.succ_mul] at hrow
    exact ⟨hs.wsub_lt, hrow⟩
  have hshort := pow_shift_le small hk
  have hnext := nextRow_mul_lt small k base.timerJiffies
  have hge := hb.ge
  have hle := hb.le
  -- all positions are within half the range of words
  obtain ⟨lo, hlo, hloE, hhiE, hlate⟩ : ∃ lo, (∀ t ∈ base.vec k
      ((nextRow (shift small k) base.timerJiffies + j) % 2 ^ levelBits small k),
      place base.timerJiffies t % word = t.expires ∧ lo ≤ place base.timerJiffies t ∧
        place base.timerJiffies t < lo + 2 ^ 31) ∧ lo ≤ E ∧ E < lo + 2 ^ 31 ∧
      base.timerJiffies + word ≤ lo + 2 ^ 30 := by
    have hexpires (t : Timer) (ht : t ∈ base.vec k
        ((nextRow (shift small k) base.timerJiffies + j) % 2 ^ levelBits small k)) :
        place base.timerJiffies t % word = t.expires :=
      place_mod _ (h.wellPlaced.placed _ _ t ht).2.1
    cases hf : found with
    | true =>
      -- only the list of the next row is looked at
      obtain rfl := hfirst hf
      refine ⟨base.timerJiffies + word - 2 ^ 30, fun t ht => ⟨hexpires t ht, ?_⟩, ?_⟩
      · obtain ⟨hahead, hrow⟩ := hlist t ht
        rw [Nat.add_zero, Nat.succ_mul] at hrow
        rw [place_eq hahead]
        unfold due word at *
        omega
      · unfold nextTimerMaxDelta word at *
        omega
    | false =>
      refine ⟨base.timerJiffies + word, fun t ht => ⟨hexpires t ht, ?_⟩, hunfound hf, ?_⟩
      · obtain ⟨hahead, -⟩ := hlist t ht
        rw [place_eq hahead]
        unfold due
        omega
      · unfold nextTimerMaxDelta at *
        omega
  obtain ⟨E', heq, hE', hlt, hall, hsource⟩ := earlier_spec (place base.timerJiffies) _ hlo hloE hhiE
  have hbefore : E' <
      (nextRow (shift small k) base.timerJiffies + j + 1) * 2 ^ shift small k + word := by
    cases hf : found with
    | true =>
      have hE := hfound hf
      rw [hfirst hf, Nat.add_zero]
      exact hlt.trans_lt hE
    | false =>
      obtain ⟨t, ht⟩ := List.exists_mem_of_ne_nil _ (hne hf)
      obtain ⟨hahead, hrow⟩ := hlist t ht
      have hplace := hall t ht
      rw [place_eq hahead] at hplace
      omega
  refine ⟨E', heq, ⟨by omega, by omega, fun i index t hi ht hdef hahead => ?_, ?_⟩, hbefore⟩
  · by_cases hbelow : i < k
    · exact hlt.trans (hb.below i index t hbelow ht hdef hahead)
    obtain rfl : i = k := by omega
    obtain ⟨j', hj', rfl, hrow⟩ := h.exists_row ht (h.slotted ht hpos)
    rcases lt_trichotomy j' j with hless | rfl | hmore
    · rw [hskip j' hless] at ht
      cases ht
    · rw [← place_eq hahead]
      exact hall t ht
    · -- a later row
      have hdiv := Nat.div_mul_le_self (due base.timerJiffies t) (2 ^ shift small i)
      rw [hrow] at hdiv
      have hmul := Nat.mul_le_mul_right (2 ^ shift small i)
        (by omega : nextRow (shift small i) base.timerJiffies + j + 1 ≤
          nextRow (shift small i) base.timerJiffies + j')
      omega
  · rcases hsource with rfl | ⟨t, ht, rfl⟩
    · exact hb.source
    · exact Or.inr ⟨k, _, t, ht, place_mod _ (h.wellPlaced.placed _ _ t ht).2.1,
        fun hzero => absurd hzero hpos⟩

/-- A level without timers. -/
theorem Bounds.empty (h : Scannable small base) (hb : Bounds small base k E) (hpos : k ≠ 0)
    (hskip : ∀ i, i < 2 ^ levelBits small k → base.vec k
      ((nextRow (shift small k) base.timerJiffies + i) % 2 ^ levelBits small k) = []) :
    Bounds small base (k + 1) E := by
  refine ⟨hb.ge, hb.le, fun i index t hi ht hdef hahead => ?_, hb.source⟩
  by_cases hbelow : i < k
  · exact hb.below i index t hbelow ht hdef hahead
  · obtain rfl : i = k := by omega
    obtain ⟨j, hj, rfl, -⟩ := h.exists_row ht (h.slotted ht hpos)
    rw [hskip j hj] at ht
    cases ht

/-- From any level on, with what was found below it. -/
theorem searchLevels_spec {n : Nat} (h : Scannable small base) (hn : n + k = 5) (hpos : k ≠ 0)
    (hb : Bounds small base k E) (hrow : AtRow small base.timerJiffies k tj)
    (hfound : found = true → BeforeRow small base.timerJiffies k E)
    (hunfound : found = false → base.timerJiffies + word ≤ E) :
    ∃ E', searchLevels small base n k tj found (E % word) = E' % word ∧ Bounds small base 5 E' := by
  induction n generalizing k tj found E with
  | zero =>
    obtain rfl : k = 5 := by omega
    exact ⟨E, rfl, hb⟩
  | succ n ih =>
    have hk : k ≤ 4 := by omega
    have hbits := levelBits_of_ne_zero small hpos
    have hmod := hrow.mod_eq hk
    have hnext := hrow.next hk h.wellPlaced.lt
    have hsearch := @searchLevel_spec found (2 ^ tvnBits small) small base k
      (nextRow (shift small k) base.timerJiffies) (E % word) fun _ => Nat.two_pow_pos _
    have hsucc := nextRow_shift_succ small k base.timerJiffies
    rw [hbits] at hmod
    unfold searchLevels
    dsimp only
    rw [hmod]
    generalize searchLevel small base k found (2 ^ tvnBits small)
      (nextRow (shift small k) base.timerJiffies % 2 ^ tvnBits small) (E % word) = r at hsearch
    cases hsearch with
    | here j hj hfirst hne hskip =>
      rw [← hbits] at hj hne hskip ⊢
      obtain ⟨E', heq, hb', hbefore⟩ :=
        hb.list h hpos hk hfound hunfound hj hfirst hne hskip
      dsimp only
      rw [heq]
      by_cases hgo : nextRow (shift small k) base.timerJiffies % 2 ^ levelBits small k = 0 ∨
          (nextRow (shift small k) base.timerJiffies + j) % 2 ^ levelBits small k <
            nextRow (shift small k) base.timerJiffies % 2 ^ levelBits small k
      · rw [if_pos hgo]
        refine ih (by omega) (Nat.succ_ne_zero k) hb' hnext (fun _ => ?_) nofun
        -- the list is not beyond the first row of the next level
        have hle := le_nextRow_mul (levelBits small k)
          (nextRow (shift small k) base.timerJiffies)
        have hmul := Nat.mul_le_mul_right (2 ^ shift small k)
          (by rw [Nat.succ_mul]; omega : nextRow (shift small k) base.timerJiffies + j + 1 ≤
            (nextRow (levelBits small k) (nextRow (shift small k) base.timerJiffies) + 1) *
              2 ^ levelBits small k)
        unfold BeforeRow
        rw [hsucc, shift_succ, Nat.pow_add, Nat.mul_comm (2 ^ shift small k), ← Nat.mul_assoc]
        omega
      · rw [if_neg hgo]
        obtain ⟨hzero, hslot⟩ := not_or.mp hgo
        refine ⟨E', rfl, hb'.all h ?_⟩
        have hlt := add_lt_nextRow hj (not_lt.mp hslot) hzero
        have hmul := Nat.mul_le_mul_right (2 ^ shift small k) (Nat.succ_le_of_lt hlt)
        rw [hsucc, shift_succ, Nat.pow_add, Nat.mul_comm (2 ^ shift small k), ← Nat.mul_assoc]
        exact hbefore.le.trans (Nat.add_le_add_right hmul _)
    | nowhere hnone hskip =>
      rw [← hbits] at hskip
      exact ih (by omega) (Nat.succ_ne_zero k) (hb.empty h hpos hskip) hnext
        (fun hf => absurd (hnone.symm.trans hf) Bool.false_ne_true) hunfound

/-! ## The whole scan -/

theorem levelBits_zero (small : Bool) : levelBits small 0 = tvrBits small :=
  rfl

theorem shift_one (small : Bool) : shift small 1 = tvrBits small := by
  rw [shift_succ, shift_zero, Nat.zero_add, levelBits_zero]

/-- A timer of the first level that is not late is in the list of its jiffy. -/
theorem Scannable.tv1 (h : Scannable small base) (ht : t ∈ base.vec 0 index)
    (hahead : wsub t.expires base.timerJiffies < 2 ^ 31) :
    ∃ j, j < 2 ^ tvrBits small ∧ index = (base.timerJiffies + j) % 2 ^ tvrBits small ∧
      due base.timerJiffies t = base.timerJiffies + j := by
  obtain ⟨-, -, hslot | hlate⟩ := h.wellPlaced.placed 0 index t ht
  · obtain ⟨j, hj, hindex, hrow⟩ := h.exists_row ht hslot
    rw [shift_zero, nextRow_zero] at hindex hrow
    rw [Nat.pow_zero, Nat.div_one] at hrow
    exact ⟨j, hj, hindex, hrow⟩
  · have := hlate.2.2
    omega

/-- The jiffy of the first list of `tv1` with a timer that counts bounds the position of its
timers. -/
theorem Scannable.place_le (h : Scannable small base) (hj : j < 2 ^ tvrBits small)
    (ht : t ∈ base.vec 0 ((base.timerJiffies + j) % 2 ^ tvrBits small))
    (hdef : t.deferrable = false) :
    place base.timerJiffies t ≤ base.timerJiffies + j + word ∧
      base.timerJiffies + word ≤ place base.timerJiffies t + 2 ^ 30 := by
  by_cases hahead : wsub t.expires base.timerJiffies < 2 ^ 31
  · obtain ⟨j', hj', hindex, hdue⟩ := h.tv1 ht hahead
    have hsame := eq_of_mod_eq (Nat.le_add_right base.timerJiffies j') (by omega) hj hindex.symm
    rw [place_eq hahead, hdue, hsame]
    omega
  · have hlate := (h.timely 0 _ t ht).late hdef (by omega)
    have hlt := @wsub_lt t.expires base.timerJiffies
    unfold place due
    rw [if_pos (by omega)]
    unfold word at *
    omega

theorem nextTimerInterrupt_spec (h : Scannable small base) :
    ∃ E, nextTimerInterrupt small base = E % word ∧ Bounds small base 5 E := by
  have hstart : AtRow small base.timerJiffies 0 base.timerJiffies :=
    Or.inl (nextRow_zero base.timerJiffies).symm
  have hrow := hstart.next (Nat.zero_le 4) h.wellPlaced.lt
  have hsearch := searchTv1_spec small base (2 ^ tvrBits small) base.timerJiffies
  unfold nextTimerInterrupt
  dsimp only
  generalize searchTv1 small base (2 ^ tvrBits small) (base.timerJiffies % 2 ^ tvrBits small) = r
    at hsearch
  cases hsearch with
  | nowhere hskip =>
    have hb : Bounds small base 1 (base.timerJiffies + word + nextTimerMaxDelta) := by
      refine ⟨by omega, le_rfl, fun k index t hk ht hdef hahead => ?_, Or.inl rfl⟩
      obtain rfl : k = 0 := by omega
      obtain ⟨j, hj, rfl, -⟩ := h.tv1 ht hahead
      exact absurd (hdef.symm.trans (hskip j hj t ht)) Bool.false_ne_true
    have hwadd : wadd base.timerJiffies nextTimerMaxDelta =
        (base.timerJiffies + word + nextTimerMaxDelta) % word := by
      rw [Nat.add_right_comm, Nat.add_mod_right]
      rfl
    rw [hwadd]
    exact searchLevels_spec h rfl Nat.one_ne_zero hb hrow nofun fun _ => by omega
  | here j t hj hmem hdef hskip =>
    have hexpires := (h.wellPlaced.placed _ _ t hmem).2.1
    obtain ⟨hle, hge⟩ := h.place_le hj hmem hdef
    have hshort := pow_shift_le small (by decide : 1 ≤ 4)
    rw [shift_one] at hshort
    have hb : Bounds small base 1 (place base.timerJiffies t) := by
      refine ⟨hge, by unfold nextTimerMaxDelta; omega, fun k index t' hk ht' hdef' hahead => ?_,
        Or.inr ⟨0, _, t, hmem, place_mod _ hexpires, fun _ => hdef⟩⟩
      obtain rfl : k = 0 := by omega
      obtain ⟨j', hj', rfl, hdue⟩ := h.tv1 ht' hahead
      have hjj : j ≤ j' := by
        by_contra hless
        exact Bool.false_ne_true (hdef'.symm.trans (hskip j' (by omega) t' ht'))
      omega
    rw [← place_mod base.timerJiffies hexpires]
    dsimp only
    by_cases hgo : base.timerJiffies % 2 ^ tvrBits small = 0 ∨
        (base.timerJiffies + j) % 2 ^ tvrBits small < base.timerJiffies % 2 ^ tvrBits small
    · rw [if_pos hgo]
      refine searchLevels_spec h rfl Nat.one_ne_zero hb hrow (fun _ => ?_) nofun
      have hnext := le_nextRow_mul (tvrBits small) base.timerJiffies
      unfold BeforeRow
      rw [shift_one, Nat.succ_mul]
      omega
    · rw [if_neg hgo]
      obtain ⟨hzero, hslot⟩ := not_or.mp hgo
      have hlt := add_lt_nextRow hj (not_lt.mp hslot) hzero
      refine ⟨_, rfl, hb.all h ?_⟩
      rw [Nat.zero_add, shift_one]
      omega

/-! ## The bound -/

/-- A timer that the next timer interrupt must not miss. -/
def Awaited (T : Nat) (t : Timer) : Prop :=
  t.deferrable = false ∧ wsub t.expires T ≤ nextTimerMaxDelta

theorem Awaited.due_le (h : Awaited T t) : due T t ≤ T + nextTimerMaxDelta :=
  Nat.add_le_add_left h.2 T

theorem Awaited.wsub_lt (h : Awaited T t) : wsub t.expires T < 2 ^ 31 :=
  h.2.trans_lt (by decide)

theorem Bounds.le_of_awaited (hb : Bounds small base 5 E) (h : Scannable small base)
    (ht : t ∈ base.vec k index) (hawaited : Awaited base.timerJiffies t) :
    E ≤ due base.timerJiffies t + word :=
  hb.below k index t (Nat.lt_succ_of_le (h.wellPlaced.placed k index t ht).1) ht hawaited.1
    hawaited.wsub_lt

theorem Scannable.not_before (h : Scannable small base) (ht : t ∈ base.vec k index)
    (hawaited : Awaited base.timerJiffies t) :
    timeBefore t.expires (nextTimerInterrupt small base) = false := by
  obtain ⟨E, heq, hb⟩ := nextTimerInterrupt_spec h
  have hle := hb.le_of_awaited h ht hawaited
  have hge := hb.ge
  have hdue := hawaited.due_le
  have hmod : (due base.timerJiffies t + word) % word = t.expires := by
    rw [Nat.add_mod_right, due_mod _ (h.wellPlaced.placed k index t ht).2.1]
  unfold timeBefore
  rw [heq, ← hmod, signedDiff_eq (by unfold nextTimerMaxDelta at hdue; omega) (by omega)]
  exact decide_eq_false (by omega)

/-- What has been found is the expiry of an awaited timer, unless that timer is late or a deferrable
one above the first level. -/
theorem Scannable.exists_expires (h : Scannable small base) (ht : t ∈ base.vec k index)
    (hawaited : Awaited base.timerJiffies t) :
    ∃ j index' t', t' ∈ base.vec j index' ∧ nextTimerInterrupt small base = t'.expires ∧
      (Awaited base.timerJiffies t' ∨ 2 ^ 31 ≤ wsub t'.expires base.timerJiffies ∨
        t'.deferrable = true ∧ j ≠ 0) := by
  obtain ⟨E, heq, hb⟩ := nextTimerInterrupt_spec h
  have hle := hb.le_of_awaited h ht hawaited
  have hdue := hawaited.due_le
  rw [heq]
  rcases hb.source with hmax | ⟨j, index', t', ht', hexpires, hdef⟩
  · -- the timer itself is due at the end of what is looked at
    have hsame : E = due base.timerJiffies t + word := by omega
    refine ⟨k, index, t, ht, ?_, Or.inl hawaited⟩
    rw [hsame, Nat.add_mod_right, due_mod _ (h.wellPlaced.placed k index t ht).2.1]
  refine ⟨j, index', t', ht', hexpires, ?_⟩
  by_cases hlate : 2 ^ 31 ≤ wsub t'.expires base.timerJiffies
  · exact Or.inr (Or.inl hlate)
  cases hdefer : t'.deferrable with
  | true =>
    refine Or.inr (Or.inr ⟨rfl, fun hj => ?_⟩)
    exact Bool.false_ne_true ((hdef hj).symm.trans hdefer)
  | false =>
    refine Or.inl ⟨hdefer, ?_⟩
    have hge := hb.ge
    have hmod := due_mod base.timerJiffies (h.wellPlaced.placed j index' t' ht').2.1
    unfold due nextTimerMaxDelta at *
    unfold word at *
    omega

theorem signedDiff_self (a : Nat) : signedDiff a a = 0 := by
  unfold signedDiff wsub word
  split <;> omega

/-- A time that is after another one is not before it, after up to half of that has passed. -/
theorem timeBefore_wadd {now expires delta : Nat} (hdelta : 0 < delta) (hle : delta < 2 ^ 31)
    (hafter : ¬0 ≤ signedDiff now expires)
    (hbefore : delta = 1 ∨ timeBefore (wadd now delta) expires = true) :
    timeBefore expires (wadd now delta) = false := by
  unfold timeBefore at *
  rw [decide_eq_true_iff] at hbefore
  refine decide_eq_false ?_
  unfold signedDiff wsub wadd word at *
  split_ifs at * <;> omega

theorem clamp_bounds (delta : Nat) :
    0 < (if (if nextTimerMaxDelta < delta then nextTimerMaxDelta else delta) < 1 then 1
      else if nextTimerMaxDelta < delta then nextTimerMaxDelta else delta) ∧
    (if (if nextTimerMaxDelta < delta then nextTimerMaxDelta else delta) < 1 then 1
      else if nextTimerMaxDelta < delta then nextTimerMaxDelta else delta) < 2 ^ 31 := by
  unfold nextTimerMaxDelta
  split_ifs <;> omega

/-- Other sources of an interrupt never make it later. -/
theorem getNextTimerInterrupt_le (small : Bool) (base : TvecBase) (hrDelta : HrDelta) (now : Nat) :
    getNextTimerInterrupt small base hrDelta now = now ∨
      timeBefore (nextTimerInterrupt small base)
        (getNextTimerInterrupt small base hrDelta now) = false := by
  unfold getNextTimerInterrupt
  dsimp only
  generalize nextTimerInterrupt small base = expires
  have hself : timeBefore expires expires = false := by
    unfold timeBefore
    rw [signedDiff_self]
    rfl
  by_cases hafter : 0 ≤ signedDiff now expires
  · rw [if_pos hafter]
    exact Or.inl rfl
  rw [if_neg hafter]
  refine Or.inr ?_
  cases hrDelta with
  | none => exact hself
  | expired => exact timeBefore_wadd Nat.one_pos (by decide) hafter (Or.inl rfl)
  | jiffies delta =>
    unfold cmpNextHrtimerEvent
    dsimp only
    obtain ⟨hpos, hle⟩ := clamp_bounds delta
    generalize (if (if nextTimerMaxDelta < delta then nextTimerMaxDelta else delta) < 1 then 1
      else if nextTimerMaxDelta < delta then nextTimerMaxDelta else delta) = clamped at *
    cases hbefore : timeBefore (wadd now clamped) expires with
    | true =>
      rw [if_pos rfl]
      exact timeBefore_wadd hpos hle hafter (Or.inr hbefore)
    | false =>
      rw [if_neg Bool.false_ne_true]
      exact hself

/-- In runs that add only timers which are less than one turn of the last level ahead and, if they
are not deferrable, not more than `2 ^ 30` jiffies late: the next timer interrupt is not after any
timer that is awaited. If there is one it is the expiry of an awaited timer, or one that is earlier:
of a late timer, or of a deferrable one that waits for a cascade. The whole lookup returns the
current jiffy or is not later. -/
theorem next_timer_interrupt_bound {jiffies : Nat} (hjiffies : jiffies < word) {s : State}
    (hrun : Reaches (Step small) (addsTimely small) (State.initial jiffies) s) :
    (∀ k index t, t ∈ s.base.vec k index → Awaited s.base.timerJiffies t →
      timeBefore t.expires (nextTimerInterrupt small s.base) = false ∧
      ∃ j index' t', t' ∈ s.base.vec j index' ∧
        nextTimerInterrupt small s.base = t'.expires ∧
        (Awaited s.base.timerJiffies t' ∨ 2 ^ 31 ≤ wsub t'.expires s.base.timerJiffies ∨
          t'.deferrable = true ∧ j ≠ 0)) ∧
    ∀ hrDelta now, getNextTimerInterrupt small s.base hrDelta now = now ∨
      timeBefore (nextTimerInterrupt small s.base)
        (getNextTimerInterrupt small s.base hrDelta now) = false := by
  have h : Scannable small s.base :=
    hrun.invariant (fun s => Scannable small s.base) (fun _ _ _ hs hok hstep => hs.step hok hstep)
      ⟨wellPlaced_initial hjiffies, nofun⟩
  exact ⟨fun k index t ht hawaited => ⟨h.not_before ht hawaited, h.exists_expires ht hawaited⟩,
    fun hrDelta now => getNextTimerInterrupt_le small s.base hrDelta now⟩

/-- A wheel with one timer. -/
def oneTimer : State :=
  modTimer false (State.initial 0) ⟨1, 1000, false⟩

theorem next_timer_interrupt_bound_oneTimer :
    nextTimerInterrupt false oneTimer.base = 1000 ∧
    timeBefore 1000 (nextTimerInterrupt false oneTimer.base) = false := by
  have hstep : Step false (State.initial 0) (.modTimer ⟨1, 1000, false⟩) oneTimer :=
    .modTimer _ (by decide)
  have hrun : Reaches (Step false) (addsTimely false) (State.initial 0) oneTimer :=
    (Reaches.refl _).tail hstep ⟨fun _ => by decide, fun _ hlate => absurd hlate (by decide)⟩
  have h := next_timer_interrupt_bound (by decide) hrun
  exact ⟨by decide +kernel, (h.1 1 3 ⟨1, 1000, false⟩ (by decide) ⟨rfl, by decide⟩).1⟩

/-! ## Where it oversleeps -/

/-- An awaited timer of the wheel is due before the next timer interrupt. -/
def Oversleeps (small : Bool) (base : TvecBase) : Prop :=
  ∃ k index t, t ∈ base.vec k index ∧ Awaited base.timerJiffies t ∧
    timeBefore t.expires (nextTimerInterrupt small base) = true

/-- With `CONFIG_BASE_SMALL`, a timer of the second row and one of the first row a turn later. -/
def laterTurn : State :=
  modTimer true (modTimer true (State.initial 1) ⟨1, 17 * 2 ^ 18, false⟩) ⟨2, 2 * 2 ^ 18, false⟩

/-- A timer that waits for the cascade at jiffy 256. -/
def beforeCascade : State :=
  modTimer false (State.initial 255) ⟨1, 511, false⟩

/-- The wheel at that jiffy. -/
def atCascade : State :=
  { beforeCascade with base := (runTimersIteration false beforeCascade.base).2 }

/-- The same, with a timer that is almost `2 ^ 31` jiffies late and one that is due soon. -/
def longLate : State :=
  modTimer false (modTimer false atCascade ⟨2, 2 ^ 31 + 266, false⟩) ⟨3, 259, false⟩

theorem oversleeps_laterTurn : Oversleeps true laterTurn.base :=
  ⟨4, 2, ⟨2, 2 * 2 ^ 18, false⟩, by decide, ⟨rfl, by decide⟩, by decide +kernel⟩

theorem oversleeps_longLate : Oversleeps false longLate.base :=
  ⟨0, 3, ⟨3, 259, false⟩, by decide +kernel, ⟨rfl, by decide +kernel⟩, by decide +kernel⟩

theorem next_timer_interrupt_oversleeps :
    (Reaches (Step true) anyStep (State.initial 1) laterTurn ∧ Oversleeps true laterTurn.base) ∧
    (Reaches (Step false) anyStep (State.initial 255) longLate ∧ Oversleeps false longLate.base) := by
  refine ⟨⟨?_, oversleeps_laterTurn⟩, ?_, oversleeps_longLate⟩
  · exact ((Reaches.refl _).tail (.modTimer _ (by decide)) trivial).tail (.modTimer _ (by decide)) trivial
  · have hiteration : Step false beforeCascade .iteration atCascade :=
      .iteration rfl (by decide)
    exact ((((Reaches.refl _).tail (.modTimer _ (by decide)) trivial).tail hiteration trivial).tail
      (.modTimer _ (by decide)) trivial).tail (.modTimer _ (by decide)) trivial

end AndroidKernel.TimerWheel
