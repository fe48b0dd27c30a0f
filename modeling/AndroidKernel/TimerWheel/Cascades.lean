import AndroidKernel.Library.Rows
import AndroidKernel.TimerWheel.Model

/-!
# An iteration of `__run_timers`

The levels are cascaded as long as a turn of the level below begins, which is when the row of the
list begins at the current jiffy. After that all rows in use begin later, and the list that is
taken off the first level has what is due now or late.
-/

/-!
## Where timers wait

At a level a row of expiries shares a list. A timer that is not late waits at a level where its
row has not begun, within one turn of the level except at the last one. An iteration cascades the
rows that begin and takes what is due now, so that all rows in use begin later.
-/

namespace AndroidKernel.TimerWheel

open Library

variable {small : Bool} {T k index u x y n : Nat} {t timer : Timer} {base : TvecBase}

/-! ## Levels -/

theorem shift_succ (small : Bool) (k : Nat) :
    shift small (k + 1) = shift small k + levelBits small k := by
  cases k with
  | zero => simp [shift, levelBits]
  | succ k =>
    show tvrBits small + (k + 1) * tvnBits small = tvrBits small + k * tvnBits small + _
    rw [Nat.succ_mul, ← Nat.add_assoc]
    rfl

theorem shift_mono (small : Bool) : Monotone (shift small) :=
  monotone_nat_of_le_succ fun k => by rw [shift_succ]; exact Nat.le_add_right _ _

theorem shift_le (hk : k ≤ 5) : shift small k ≤ 32 := by
  refine (shift_mono small hk).trans ?_
  cases small <;> decide

theorem pow_shift_dvd_word (small : Bool) (hk : k ≤ 5) : 2 ^ shift small k ∣ word :=
  Nat.pow_dvd_pow 2 (shift_le hk)

theorem bucket_eq (small : Bool) (k x : Nat) :
    bucket small k x = x % 2 ^ shift small (k + 1) / 2 ^ shift small k := by
  unfold bucket
  rw [shift_succ, Nat.pow_add, Nat.mod_mul_right_div_self]

/-- The list at a level depends on the value as a word only. -/
theorem bucket_congr (hk : k ≤ 4) (h : x % word = y % word) :
    bucket small k x = bucket small k y := by
  have hdvd : 2 ^ shift small (k + 1) ∣ word := pow_shift_dvd_word small (by omega)
  rw [bucket_eq, bucket_eq, ← Nat.mod_mod_of_dvd x hdvd, h, Nat.mod_mod_of_dvd y hdvd]

/-! ## Expiries -/

/-- The expiry of a timer as a number that does not wrap, if it is not before `T`. -/
def due (T : Nat) (t : Timer) : Nat :=
  T + wsub t.expires T

theorem due_mod (T : Nat) (ht : t.expires < word) : due T t % word = t.expires := by
  unfold due wsub
  unfold word at *
  omega

/-- The list at a level is that of the expiry. -/
theorem bucket_due (hk : k ≤ 4) (T : Nat) (ht : t.expires < word) :
    bucket small k (due T t) = bucket small k t.expires := by
  refine bucket_congr hk ?_
  rw [due_mod T ht, Nat.mod_eq_of_lt ht]

/-- When a timer that is due at `u` may wait in a list of level `k`. -/
structure Slotted (small : Bool) (T k index u : Nat) : Prop where
  index_eq : bucket small k u = index
  le : T ≤ u / 2 ^ shift small k * 2 ^ shift small k
  lt : k < 4 → u / 2 ^ shift small k * 2 ^ shift small k < T + 2 ^ shift small (k + 1)
  ahead : u < T + 2 ^ 31

/-- A timer that went off in the past waits in the list that is next. -/
def Late (small : Bool) (T k index : Nat) (t : Timer) : Prop :=
  k = 0 ∧ index = bucket small 0 T ∧ 2 ^ 31 ≤ wsub t.expires T

/-- Whether a timer may wait in a list. -/
def Placed (small : Bool) (T k index : Nat) (t : Timer) : Prop :=
  k ≤ 4 ∧ t.expires < word ∧ (Slotted small T k index (due T t) ∨ Late small T k index t)

/-- The row of the timer begins after `T`; at the first level it is due at `T` or later. -/
def Settled (small : Bool) (T k : Nat) (t : Timer) : Prop :=
  k ≠ 0 → T < due T t / 2 ^ shift small k * 2 ^ shift small k

/-- All timers of the wheel may wait where they are. -/
structure WellPlaced (small : Bool) (base : TvecBase) : Prop where
  lt : base.timerJiffies < word
  placed : ∀ k index t, t ∈ base.vec k index → Placed small base.timerJiffies k index t

theorem shift_zero (small : Bool) : shift small 0 = 0 :=
  rfl

/-- A row begins less than its length before its members. -/
theorem lt_row_add (u s : Nat) : u < u / 2 ^ s * 2 ^ s + 2 ^ s := by
  have hpos := Nat.two_pow_pos s
  have hsplit := Nat.div_add_mod u (2 ^ s)
  have hmod := Nat.mod_lt u hpos
  rw [Nat.mul_comm]
  omega

/-- A timer at a distance between the lengths of a row and of a turn of a level. -/
theorem slotted_of_wsub (ht : t.expires < word) (hk : k ≤ 4)
    (hge : k ≠ 0 → 2 ^ shift small k ≤ wsub t.expires T)
    (hlt : k < 4 → wsub t.expires T < 2 ^ shift small (k + 1)) (hahead : wsub t.expires T < 2 ^ 31) :
    Slotted small T k (bucket small k t.expires) (due T t) ∧ Settled small T k t := by
  have hrow := lt_row_add (due T t) (shift small k)
  have hle := Nat.div_mul_le_self (due T t) (2 ^ shift small k)
  have hdue : due T t = T + wsub t.expires T := rfl
  have hsettled : Settled small T k t := by
    intro hpos
    have := hge hpos
    omega
  refine ⟨⟨bucket_due hk T ht, ?_, fun h => ?_, by omega⟩, hsettled⟩
  · by_cases hpos : k = 0
    · subst hpos
      rw [shift_zero, Nat.pow_zero, Nat.div_one, Nat.mul_one]
      omega
    · exact (hsettled hpos).le
  · have := hlt h
    omega

theorem vecOf_spec (small : Bool) (T : Nat) (ht : t.expires < word) :
    Placed small T (vecOf small T t.expires).1 (vecOf small T t.expires).2 t ∧
      Settled small T (vecOf small T t.expires).1 t := by
  have hshift : shift small 4 ≤ 31 := by cases small <;> decide
  have hpow : 2 ^ shift small 4 ≤ 2 ^ 31 := Nat.pow_le_pow_right (by decide) hshift
  have h12 : 2 ^ shift small 1 ≤ 2 ^ shift small 2 :=
    Nat.pow_le_pow_right (by decide) (shift_mono small (by decide))
  have h23 : 2 ^ shift small 2 ≤ 2 ^ shift small 3 :=
    Nat.pow_le_pow_right (by decide) (shift_mono small (by decide))
  have h34 : 2 ^ shift small 3 ≤ 2 ^ shift small 4 :=
    Nat.pow_le_pow_right (by decide) (shift_mono small (by decide))
  have hidx : wsub t.expires T < word := wsub_lt _ _
  have hin (k : Nat) (hk : k ≤ 4) (hge : k ≠ 0 → 2 ^ shift small k ≤ wsub t.expires T)
      (hlt : k < 4 → wsub t.expires T < 2 ^ shift small (k + 1))
      (hahead : wsub t.expires T < 2 ^ 31) :
      Placed small T k (bucket small k t.expires) t ∧ Settled small T k t := by
    obtain ⟨hslot, hsettled⟩ := slotted_of_wsub ht hk hge hlt hahead
    exact ⟨⟨hk, ht, Or.inl hslot⟩, hsettled⟩
  unfold vecOf
  dsimp only
  split_ifs with h1 h2 h3 h4 hlate hclip
  · exact hin 0 (by decide) (fun h => absurd rfl h) (fun _ => h1) (by omega)
  · exact hin 1 (by decide) (fun _ => by omega) (fun _ => h2) (by omega)
  · exact hin 2 (by decide) (fun _ => by omega) (fun _ => h3) (by omega)
  · exact hin 3 (by decide) (fun _ => by omega) (fun _ => h4) (by omega)
  · exact ⟨⟨Nat.zero_le _, ht, Or.inr ⟨rfl, rfl, hlate⟩⟩, fun h => absurd rfl h⟩
  · -- the difference of two words is not above `0xffffffff`
    unfold word at hidx
    omega
  · exact hin 4 le_rfl (fun _ => by omega) (fun h => absurd h (Nat.lt_irrefl 4)) (by omega)

variable {small : Bool} {T k j index i u n : Nat} {t timer : Timer} {base : TvecBase}

theorem update_update (vec : Nat → Nat → List Timer) (timers : List Timer) :
    Function.update vec j (Function.update (vec j) i timers) k index =
      if (k, index) = (j, i) then timers else vec k index := by
  by_cases hk : k = j
  · subst hk
    rw [Function.update_self]
    by_cases hindex : index = i
    · rw [hindex, Function.update_self, if_pos rfl]
    · rw [Function.update_of_ne hindex, if_neg fun heq => hindex (Prod.mk.inj heq).2]
  · rw [Function.update_of_ne hk, if_neg fun heq => hk (Prod.mk.inj heq).1]

theorem vec_internalAddTimer : (internalAddTimer small base timer).vec k index =
    if vecOf small base.timerJiffies timer.expires = (k, index) then base.vec k index ++ [timer]
    else base.vec k index := by
  unfold internalAddTimer
  dsimp only
  rw [update_update]
  by_cases hplace : vecOf small base.timerJiffies timer.expires = (k, index)
  · rw [if_pos hplace, hplace, if_pos rfl]
  · rw [if_neg hplace, if_neg fun heq => hplace heq.symm]

theorem vec_replaceInit : (replaceInit base j i).2.vec k index =
    if (k, index) = (j, i) then [] else base.vec k index :=
  update_update ..

theorem mem_internalAddTimer : t ∈ (internalAddTimer small base timer).vec k index ↔
    t ∈ base.vec k index ∨
      t = timer ∧ vecOf small base.timerJiffies timer.expires = (k, index) := by
  rw [vec_internalAddTimer]
  split
  · rename_i hplace
    rw [List.mem_append, List.mem_singleton, and_iff_left hplace]
  · rename_i hplace
    exact ⟨Or.inl, fun h => h.resolve_right fun hr => hplace hr.2⟩

theorem mem_replaceInit : t ∈ (replaceInit base j i).2.vec k index ↔
    t ∈ base.vec k index ∧ (k, index) ≠ (j, i) := by
  rw [vec_replaceInit]
  split
  · rename_i hlist
    exact ⟨nofun, fun h => absurd hlist h.2⟩
  · rename_i hlist
    exact (and_iff_left hlist).symm

theorem timerJiffies_foldl (timers : List Timer) :
    (timers.foldl (internalAddTimer small) base).timerJiffies = base.timerJiffies := by
  induction timers generalizing base with
  | nil => rfl
  | cons timer timers ih => exact ih

theorem mem_foldl (timers : List Timer) :
    t ∈ (timers.foldl (internalAddTimer small) base).vec k index ↔
      t ∈ base.vec k index ∨
        t ∈ timers ∧ vecOf small base.timerJiffies t.expires = (k, index) := by
  induction timers generalizing base with
  | nil => simp
  | cons timer timers ih =>
    rw [List.foldl_cons, ih, mem_internalAddTimer, List.mem_cons, or_assoc]
    refine or_congr_right ?_
    show _ ∨ t ∈ timers ∧ vecOf small base.timerJiffies t.expires = (k, index) ↔ _
    rw [or_and_right]
    refine or_congr_left (and_congr_right fun heq => ?_)
    rw [heq]

theorem timerJiffies_cascade (small : Bool) (base : TvecBase) (k index : Nat) :
    (cascade small base k index).timerJiffies = base.timerJiffies :=
  timerJiffies_foldl _

theorem mem_cascade : t ∈ (cascade small base j i).vec k index ↔
    t ∈ base.vec k index ∧ (k, index) ≠ (j, i) ∨
      t ∈ base.vec j i ∧ vecOf small base.timerJiffies t.expires = (k, index) := by
  unfold cascade
  rw [mem_foldl, mem_replaceInit]
  rfl

/-- Every timer that is cascaded is put somewhere, and no others are there. -/
theorem exists_mem_cascade :
    (∃ k index, t ∈ (cascade small base j i).vec k index) ↔ ∃ k index, t ∈ base.vec k index := by
  constructor
  · intro ⟨k, index, hmem⟩
    rcases mem_cascade.mp hmem with ⟨hold, -⟩ | ⟨hold, -⟩
    · exact ⟨k, index, hold⟩
    · exact ⟨j, i, hold⟩
  · intro ⟨k, index, hmem⟩
    by_cases hlist : (k, index) = (j, i)
    · obtain ⟨rfl, rfl⟩ := Prod.mk.inj hlist
      exact ⟨_, _, mem_cascade.mpr (Or.inr ⟨hmem, rfl⟩)⟩
    · exact ⟨k, index, mem_cascade.mpr (Or.inl ⟨hmem, hlist⟩)⟩

theorem WellPlaced.cascade (h : WellPlaced small base) (j i : Nat) :
    WellPlaced small (cascade small base j i) := by
  have htime := timerJiffies_cascade small base j i
  refine ⟨by rw [htime]; exact h.lt, fun k index t hmem => ?_⟩
  rw [htime]
  rcases mem_cascade.mp hmem with ⟨hold, -⟩ | ⟨hold, hplace⟩
  · exact h.placed k index t hold
  · have hspec := (vecOf_spec small base.timerJiffies (h.placed j i t hold).2.1).1
    rw [hplace] at hspec
    exact hspec

/-- A row that begins now is in the list that is cascaded now. -/
theorem Slotted.settled (hs : Slotted small T k index (due T t))
    (hindex : index ≠ bucket small k T) : Settled small T k t := by
  intro _
  refine lt_of_le_of_ne hs.le fun heq => hindex ?_
  rw [← hs.index_eq]
  unfold bucket
  conv_rhs => rw [heq]
  rw [Nat.mul_div_cancel _ (Nat.two_pow_pos _)]

/-- Where no turn of a level begins now, no row of the levels above begins now. -/
theorem Slotted.settled_above (hs : Slotted small T j index (due T t)) (hlt : k < j)
    (hturn : bucket small k T ≠ 0) : Settled small T j t := by
  intro _
  refine lt_of_le_of_ne hs.le fun heq => hturn ?_
  have hdvd : 2 ^ shift small (k + 1) ∣ T := by
    rw [heq]
    exact (Nat.pow_dvd_pow 2 (shift_mono small hlt)).trans (Nat.dvd_mul_left _ _)
  rw [bucket_eq, Nat.mod_eq_zero_of_dvd hdvd, Nat.zero_div]

theorem Placed.slotted (hp : Placed small T k index t) (hk : k ≠ 0) :
    Slotted small T k index (due T t) :=
  hp.2.2.resolve_right fun hlate => hk hlate.1

/-- What the cascades leave: the same timers, and rows that begin later. -/
structure Cascaded (small : Bool) (base base' : TvecBase) : Prop where
  timerJiffies : base'.timerJiffies = base.timerJiffies
  wellPlaced : WellPlaced small base'
  settled : ∀ k index t, t ∈ base'.vec k index → Settled small base.timerJiffies k t
  mem : ∀ t, (∃ k index, t ∈ base'.vec k index) ↔ ∃ k index, t ∈ base.vec k index

theorem cascades_spec (h : WellPlaced small base) (hn : k + n = 5)
    (hbelow : ∀ j index t, t ∈ base.vec j index → j < k → Settled small base.timerJiffies j t) :
    Cascaded small base (cascades small base k n) := by
  induction n generalizing k base with
  | zero =>
    exact ⟨rfl, h, fun j index t hmem => hbelow j index t hmem
      ((h.placed j index t hmem).1.trans_lt (by omega)), fun t => Iff.rfl⟩
  | succ n ih =>
    unfold cascades
    dsimp only
    have h' := h.cascade k (bucket small k base.timerJiffies)
    have htime := timerJiffies_cascade small base k (bucket small k base.timerJiffies)
    have hmem' (t : Timer) : (∃ j index, t ∈
        (cascade small base k (bucket small k base.timerJiffies)).vec j index) ↔ _ :=
      exists_mem_cascade
    have hcase (j index : Nat) (t : Timer)
        (hmem : t ∈ (cascade small base k (bucket small k base.timerJiffies)).vec j index)
        (hj : j ≤ k) : Settled small base.timerJiffies j t := by
      rcases mem_cascade.mp hmem with ⟨hold, hlist⟩ | ⟨hold, hplace⟩
      · by_cases hjk : j < k
        · exact hbelow j index t hold hjk
        · obtain rfl : j = k := by omega
          by_cases hzero : j = 0
          · exact fun hpos => absurd hzero hpos
          · exact ((h.placed j index t hold).slotted hzero).settled fun heq => hlist (by rw [heq])
      · have hspec := (vecOf_spec small base.timerJiffies (h.placed _ _ t hold).2.1).2
        rw [hplace] at hspec
        exact hspec
    split
    · have hbelow' (j index : Nat) (t : Timer)
          (hmem : t ∈ (cascade small base k (bucket small k base.timerJiffies)).vec j index)
          (hj : j < k + 1) : Settled small
            (cascade small base k (bucket small k base.timerJiffies)).timerJiffies j t := by
        rw [htime]
        exact hcase j index t hmem (by omega)
      obtain ⟨htime', hplaced, hsettled, hmem⟩ := ih h' (by omega) hbelow'
      rw [htime] at htime' hsettled
      exact ⟨htime', hplaced, hsettled, fun t => (hmem t).trans (hmem' t)⟩
    · rename_i hturn
      refine ⟨htime, h', fun j index t hmem => ?_, hmem'⟩
      by_cases hjk : j ≤ k
      · exact hcase j index t hmem hjk
      · have hplaced := h'.placed j index t hmem
        rw [htime] at hplaced
        exact (hplaced.slotted (by omega)).settled_above (by omega) hturn

/-! ## The next jiffy -/

/-- Positions count from any multiple of the range of words. -/
theorem Slotted.sub_word (hs : Slotted small (T + word) k index (u + word)) (hk : k ≤ 4) :
    Slotted small T k index u := by
  obtain ⟨hindex, hle, hlt, hahead⟩ := hs
  obtain ⟨c, hc⟩ := pow_shift_dvd_word small (by omega : k ≤ 5)
  have hrow : (u + word) / 2 ^ shift small k * 2 ^ shift small k =
      u / 2 ^ shift small k * 2 ^ shift small k + word := by
    rw [hc, Nat.add_mul_div_left _ _ (Nat.two_pow_pos _), Nat.add_mul, Nat.mul_comm c]
  rw [hrow] at hle hlt
  refine ⟨?_, by omega, fun h => ?_, by omega⟩
  · rw [← hindex]
    exact bucket_congr hk (Nat.add_mod_right u word).symm
  · have := hlt h
    omega

/-- At the next jiffy a timer that was due later is due at the same time, or at the beginning of
the next range of words. -/
theorem due_next (hT : T < word) (hlater : T < due T t) :
    T + 1 < word ∧ wadd T 1 = T + 1 ∧ due (T + 1) t = due T t ∨
      T + 1 = word ∧ wadd T 1 = 0 ∧ due 0 t + word = due T t := by
  unfold due wsub wadd at *
  unfold word at *
  omega

theorem Slotted.next (hs : Slotted small T k index (due T t)) (hk : k ≤ 4) (hT : T < word)
    (hlater : T < due T t / 2 ^ shift small k * 2 ^ shift small k) :
    Slotted small (wadd T 1) k index (due (wadd T 1) t) := by
  have hpos : T < due T t := hlater.trans_le (Nat.div_mul_le_self _ _)
  have hstep : Slotted small (T + 1) k index (due T t) := by
    refine ⟨hs.index_eq, hlater, fun h => ?_, ?_⟩
    · have := hs.lt h
      omega
    · have := hs.ahead
      omega
  rcases due_next hT hpos with ⟨-, hnext, hdue⟩ | ⟨hwrap, hnext, hdue⟩
  · rw [hnext, hdue]
    exact hstep
  · rw [hnext]
    refine Slotted.sub_word ?_ hk
    rw [hdue, Nat.zero_add, ← hwrap]
    exact hstep

/-- What an iteration leaves on the wheel and takes off it. -/
structure Iterated (small : Bool) (base : TvecBase) (timers : List Timer) (base' : TvecBase) :
    Prop where
  timerJiffies : base'.timerJiffies = wadd base.timerJiffies 1
  wellPlaced : WellPlaced small base'
  due : ∀ t ∈ timers, t.expires = base.timerJiffies ∨ 2 ^ 31 ≤ wsub t.expires base.timerJiffies
  later : ∀ k index t, t ∈ base'.vec k index →
    t.expires ≠ base.timerJiffies ∧ wsub t.expires base.timerJiffies < 2 ^ 31
  mem : ∀ t, (t ∈ timers ∨ ∃ k index, t ∈ base'.vec k index) ↔ ∃ k index, t ∈ base.vec k index

/-- With and without cascades, at the first level only what is due now or late is in the list that
is next. -/
theorem Cascaded.iterated {base' : TvecBase} (h : Cascaded small base base') :
    Iterated small base (base'.vec 0 (bucket small 0 base.timerJiffies))
      (replaceInit { base' with timerJiffies := wadd base.timerJiffies 1 } 0
        (bucket small 0 base.timerJiffies)).2 := by
  obtain ⟨htime, hplaced, hsettled, hmem⟩ := h
  have hT := hplaced.lt
  have hin := hplaced.placed
  rw [htime] at hT hin
  have hrow (k index : Nat) (t : Timer) (hold : t ∈ base'.vec k index)
      (hlist : (k, index) ≠ (0, bucket small 0 base.timerJiffies)) :
      Slotted small base.timerJiffies k index (due base.timerJiffies t) ∧ base.timerJiffies <
        due base.timerJiffies t / 2 ^ shift small k * 2 ^ shift small k := by
    obtain ⟨-, -, hslot | hlate⟩ := hin k index t hold
    · refine ⟨hslot, ?_⟩
      by_cases hk : k = 0
      · subst hk
        have hle := hslot.le
        refine lt_of_le_of_ne hle fun heq => hlist ?_
        rw [shift_zero, Nat.pow_zero, Nat.div_one, Nat.mul_one] at heq
        rw [← hslot.index_eq, ← heq]
      · exact hsettled k index t hold hk
    · exact absurd (by rw [hlate.1, hlate.2.1]) hlist
  refine ⟨rfl, ⟨wadd_lt _ _, fun k index t hleft => ?_⟩, fun t ht => ?_, fun k index t hleft => ?_,
    fun t => ?_⟩
  · obtain ⟨hold, hlist⟩ := mem_replaceInit.mp hleft
    obtain ⟨hk, hexpires, -⟩ := hin k index t hold
    obtain ⟨hslot, hlater⟩ := hrow k index t hold hlist
    exact ⟨hk, hexpires, Or.inl (hslot.next hk hT hlater)⟩
  · obtain ⟨-, hexpires, hslot | hlate⟩ := hin 0 _ t ht
    · refine Or.inl ?_
      -- two jiffies of one turn in the same list
      obtain ⟨hindex, hle, hlt, -⟩ := hslot
      have hturn := hlt (by decide)
      rw [shift_zero, Nat.pow_zero, Nat.div_one, Nat.mul_one] at hle hturn
      rw [shift_succ, shift_zero, Nat.zero_add] at hturn
      unfold bucket at hindex
      rw [shift_zero, Nat.pow_zero, Nat.div_one, Nat.div_one] at hindex
      have hnow := eq_of_mod_eq hle hturn (Nat.two_pow_pos _) (by rw [Nat.add_zero]; exact hindex)
      rw [← Nat.mod_eq_of_lt hT, ← due_mod base.timerJiffies hexpires, hnow, Nat.add_zero]
    · exact Or.inr hlate.2.2
  · obtain ⟨hold, hlist⟩ := mem_replaceInit.mp hleft
    obtain ⟨hslot, hlater⟩ := hrow k index t hold hlist
    have hahead := hslot.ahead
    have hpos := hlater.trans_le (Nat.div_mul_le_self _ _)
    unfold TimerWheel.due at hpos hahead
    constructor
    · intro heq
      have hzero : wsub base.timerJiffies base.timerJiffies = 0 := by
        rw [wsub_eq le_rfl hT, Nat.sub_self]
      rw [heq, hzero] at hpos
      omega
    · omega
  rw [← hmem]
  constructor
  · intro hor
    rcases hor with ht | ⟨k, index, hleft⟩
    · exact ⟨0, _, ht⟩
    · exact ⟨k, index, (mem_replaceInit.mp hleft).1⟩
  · intro ⟨k, index, hold⟩
    by_cases hlist : (k, index) = (0, bucket small 0 base.timerJiffies)
    · obtain ⟨rfl, rfl⟩ := Prod.mk.inj hlist
      exact Or.inl hold
    · exact Or.inr ⟨k, index, mem_replaceInit.mpr ⟨hold, hlist⟩⟩

theorem runTimersIteration_spec (h : WellPlaced small base) :
    Iterated small base (runTimersIteration small base).1 (runTimersIteration small base).2 := by
  have hcascaded : Cascaded small base
      (if bucket small 0 base.timerJiffies = 0 then cascades small base 1 4 else base) := by
    split
    · refine cascades_spec h rfl fun j index t _ hj => ?_
      obtain rfl : j = 0 := by omega
      exact fun hpos => absurd rfl hpos
    · rename_i hturn
      refine ⟨rfl, h, fun k index t hmem hk => ?_, fun t => Iff.rfl⟩
      exact ((h.placed k index t hmem).slotted hk).settled_above (Nat.pos_of_ne_zero hk) hturn hk
  have htime := hcascaded.timerJiffies
  have hspec := hcascaded.iterated
  unfold runTimersIteration
  dsimp only
  rw [htime]
  exact hspec

/-! ## Runs of the timer wheel -/

variable {small : Bool} {T k index : Nat} {t timer : Timer} {base : TvecBase} {s s' : State} {op : Op}

theorem mem_detachTimer {id : Nat} :
    t ∈ (detachTimer base id).vec k index ↔ t ∈ base.vec k index ∧ t.id ≠ id := by
  show t ∈ (base.vec k index).filter _ ↔ _
  rw [List.mem_filter, decide_eq_true_iff]

theorem WellPlaced.detachTimer (h : WellPlaced small base) (id : Nat) :
    WellPlaced small (detachTimer base id) :=
  ⟨h.lt, fun k index t hmem => h.placed k index t (mem_detachTimer.mp hmem).1⟩

theorem WellPlaced.internalAddTimer (h : WellPlaced small base) (hexpires : timer.expires < word) :
    WellPlaced small (internalAddTimer small base timer) := by
  refine ⟨h.lt, fun k index t hmem => ?_⟩
  rcases mem_internalAddTimer.mp hmem with hold | ⟨rfl, hplace⟩
  · exact h.placed k index t hold
  · have hspec := (vecOf_spec small base.timerJiffies hexpires).1
    rw [hplace] at hspec
    exact hspec

theorem wellPlaced_initial {jiffies : Nat} (h : jiffies < word) :
    WellPlaced small (State.initial jiffies).base :=
  ⟨h, nofun⟩

theorem WellPlaced.step (h : WellPlaced small s.base) (hstep : Step small s op s') :
    WellPlaced small s'.base := by
  cases hstep with
  | modTimer timer hexpires => exact (h.detachTimer timer.id).internalAddTimer hexpires
  | delTimer id => exact h.detachTimer id
  | tick => exact h
  | iteration hidle hdue => exact (runTimersIteration_spec h).wellPlaced
  | run timer rest hnext => exact h

/-! ## Timers that the scan can tell apart -/

/-- The row of a timer at the last level is less than one turn ahead, and a timer that is not
deferrable is not more than `2 ^ 30` jiffies late. -/
structure Timely (small : Bool) (T : Nat) (t : Timer) : Prop where
  turn : wsub t.expires T < 2 ^ 31 →
    due T t / 2 ^ shift small 4 * 2 ^ shift small 4 < T + 2 ^ shift small 5
  late : t.deferrable = false → 2 ^ 31 ≤ wsub t.expires T → 2 ^ 32 - 2 ^ 30 ≤ wsub t.expires T

/-- Whether a step adds no other timers. -/
def addsTimely (small : Bool) (s : State) : Op → Prop
  | .modTimer timer => Timely small s.base.timerJiffies timer
  | _ => True

theorem Timely.next (h : Timely small T t) (hT : T < word) (hnow : t.expires ≠ T)
    (ht : t.expires < word) (hahead : wsub t.expires T < 2 ^ 31) : Timely small (wadd T 1) t := by
  have hpos : T < due T t := by
    unfold due wsub
    unfold word at *
    omega
  have hturn := h.turn hahead
  have hpred : wsub t.expires (wadd T 1) < 2 ^ 31 := by
    unfold wsub wadd at *
    unfold word at *
    omega
  refine ⟨fun _ => ?_, fun _ hlate => by omega⟩
  rcases due_next hT hpos with ⟨-, hnext, hdue⟩ | ⟨hwrap, hnext, hdue⟩
  · rw [hnext, hdue]
    omega
  · obtain ⟨c, hc⟩ := pow_shift_dvd_word small (by decide : 4 ≤ 5)
    have hrow : due T t / 2 ^ shift small 4 * 2 ^ shift small 4 =
        due 0 t / 2 ^ shift small 4 * 2 ^ shift small 4 + word := by
      rw [← hdue, hc, Nat.add_mul_div_left _ _ (Nat.two_pow_pos _), Nat.add_mul, Nat.mul_comm c]
    rw [hnext]
    omega

/-- The wheel in runs that add timely timers only. -/
structure Scannable (small : Bool) (base : TvecBase) : Prop where
  wellPlaced : WellPlaced small base
  timely : ∀ k index t, t ∈ base.vec k index → Timely small base.timerJiffies t

theorem Scannable.step (h : Scannable small s.base) (hok : addsTimely small s op)
    (hstep : Step small s op s') : Scannable small s'.base := by
  obtain ⟨hplaced, htimely⟩ := h
  refine ⟨hplaced.step hstep, ?_⟩
  cases hstep with
  | modTimer timer hexpires =>
    intro k index t hmem
    rcases mem_internalAddTimer.mp hmem with hold | ⟨rfl, -⟩
    · exact htimely k index t (mem_detachTimer.mp hold).1
    · exact hok
  | delTimer id => exact fun k index t hmem => htimely k index t (mem_detachTimer.mp hmem).1
  | tick => exact htimely
  | iteration hidle hdue =>
    have hspec := runTimersIteration_spec hplaced
    intro k index t hmem
    obtain ⟨k', index', hold⟩ := (hspec.mem t).mp (Or.inr ⟨k, index, hmem⟩)
    obtain ⟨hnow, hahead⟩ := hspec.later k index t hmem
    show Timely small (runTimersIteration small s.base).2.timerJiffies t
    rw [hspec.timerJiffies]
    exact (htimely k' index' t hold).next hplaced.lt hnow (hplaced.placed k' index' t hold).2.1 hahead
  | run timer rest hnext => exact htimely

end AndroidKernel.TimerWheel
