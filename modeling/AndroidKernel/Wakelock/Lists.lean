import AndroidKernel.Library.Runs
import AndroidKernel.Wakelock.Model

/-!
# The lists of wake locks

Every initialised lock is on the list that its flags name. Locks that do not expire are added at
the head of an active list and expiring ones at its tail, so a scan meets the former first: it
stops before it has changed anything, or it comes through the whole list.
-/

namespace AndroidKernel.Wakelock

open Library

/-- `wake_lock_destroy` on an initialised lock. -/
def wakeLockDestroy (s : State) (lock : Nat) : Option State :=
  let old := s.lock lock
  if old.initialized then
    some ((s.setLock lock { old with initialized := false }).unlink lock)
  else none

/-- The calls of the file, its timer, and time. A timeout is a `long`, taken as a word. -/
inductive ListOp where
  | init (lock : Nat) (type : LockType)
  | destroy (lock : Nat)
  | lock (lock : Nat)
  | lockTimeout (lock timeout : Nat)
  | unlock (lock : Nat)
  | hasWakeLock (type : LockType)
  | expire
  | advance (ticks : Nat)

/-- One call. A lock is initialised while it is on no list, and used while it is initialised. -/
def listStep (s : State) : ListOp → Option State
  | .init lock type =>
    if (s.lock lock).initialized then none else some (wakeLockInit s lock type)
  | .destroy lock => wakeLockDestroy s lock
  | .lock lock => wakeLock s lock
  | .lockTimeout lock timeout => wakeLockTimeout s lock timeout
  | .unlock lock => wakeUnlock s lock
  | .hasWakeLock type => some (hasWakeLockLocked s type).1
  | .expire => some (expireWakeLocks s)
  | .advance ticks => some { s with now := s.now + ticks }

/-- A call leads from one state to the next. -/
def ListStep (s : State) (op : ListOp) (t : State) : Prop := listStep s op = some t

/-- Each initialised lock is once on the list its flags name, and in each active list the locks
that do not expire come first. -/
structure Listed (s : State) : Prop where
  inactive : ∀ lock, lock ∈ s.inactiveLocks ↔
    (s.lock lock).initialized = true ∧ (s.lock lock).active = false
  active : ∀ type lock, lock ∈ s.activeWakeLocks type ↔
    (s.lock lock).initialized = true ∧ (s.lock lock).active = true ∧ (s.lock lock).type = type
  nodupInactive : s.inactiveLocks.Nodup
  nodupActive : ∀ type, (s.activeWakeLocks type).Nodup
  autoActive : ∀ lock, (s.lock lock).initialized = true → (s.lock lock).autoExpire = true →
    (s.lock lock).active = true
  ordered : ∀ type, (s.activeWakeLocks type).Pairwise fun first second =>
    (s.lock first).autoExpire = true → (s.lock second).autoExpire = true

variable {s t : State} {lock : Nat} {value : WakeLock} {type : LockType} {locks : List Nat}

/-- The timer, the queue and the time do not matter. -/
theorem Listed.congr (h : Listed s) (hlock : t.lock = s.lock)
    (hinactive : t.inactiveLocks = s.inactiveLocks)
    (hactive : t.activeWakeLocks = s.activeWakeLocks) : Listed t where
  inactive := by
    rw [hlock, hinactive]
    exact h.inactive
  active := by
    rw [hlock, hactive]
    exact h.active
  nodupInactive := hinactive ▸ h.nodupInactive
  nodupActive := hactive ▸ h.nodupActive
  autoActive := by
    rw [hlock]
    exact h.autoActive
  ordered := by
    rw [hlock, hactive]
    exact h.ordered

theorem Listed.distinct (h : Listed s) : Distinct s where
  nodup := h.nodupActive
  apart first second hne lock hfirst hsecond :=
    hne (((h.active first lock).mp hfirst).2.2.symm.trans ((h.active second lock).mp hsecond).2.2)

/-- Membership after an entry was taken out. -/
theorem mem_filter_ne {other : Nat} : other ∈ locks.filter (· ≠ lock) ↔ other ∈ locks ∧ other ≠ lock := by
  simp only [List.mem_filter, decide_eq_true_eq]

/-- A list that names the locks of an old one but for one lock, and that lock where the new
flags say so. -/
theorem mem_relist (lock : Nat) {old new : List Nat} {p q : Nat → Prop} (hold : ∀ other, other ∈ old ↔ p other)
    (hnew : ∀ other, other ∈ new ↔ other ∈ old ∧ other ≠ lock ∨ other = lock ∧ q lock)
    (hsame : ∀ other, other ≠ lock → (q other ↔ p other)) (other : Nat) :
    other ∈ new ↔ q other := by
  rw [hnew other]
  by_cases heq : other = lock
  · subst heq
    simp
  · simp only [heq, ne_eq, not_false_eq_true, and_true, false_and, or_false]
    rw [hold other, hsame other heq]

/-- A change to one lock that puts it where its new flags say. -/
theorem Listed.relist (h : Listed s) (lock : Nat) (value : WakeLock)
    (hlock : t.lock = Function.update s.lock lock value)
    (hinactive : ∀ other, other ∈ t.inactiveLocks ↔
      other ∈ s.inactiveLocks ∧ other ≠ lock ∨
        other = lock ∧ value.initialized = true ∧ value.active = false)
    (hactive : ∀ type other, other ∈ t.activeWakeLocks type ↔
      other ∈ s.activeWakeLocks type ∧ other ≠ lock ∨
        other = lock ∧ value.initialized = true ∧ value.active = true ∧ value.type = type)
    (hnodup : t.inactiveLocks.Nodup) (hnodup' : ∀ type, (t.activeWakeLocks type).Nodup)
    (hauto : value.initialized = true → value.autoExpire = true → value.active = true)
    (hordered : ∀ type, (t.activeWakeLocks type).Pairwise fun first second =>
      (t.lock first).autoExpire = true → (t.lock second).autoExpire = true) : Listed t := by
  have hself : t.lock lock = value := by rw [hlock, Function.update_self]
  have hother : ∀ other, other ≠ lock → t.lock other = s.lock other := fun other hne => by
    rw [hlock, Function.update_of_ne hne]
  refine ⟨mem_relist lock h.inactive ?_ fun other hne => ?_, fun type => mem_relist lock (h.active type) ?_
    fun other hne => ?_, hnodup, hnodup', fun other hinit hexpires => ?_, hordered⟩
  · rw [hself]
    exact hinactive
  · rw [hother other hne]
  · rw [hself]
    exact hactive type
  · rw [hother other hne]
  · by_cases heq : other = lock
    · subst heq
      rw [hself] at hinit hexpires ⊢
      exact hauto hinit hexpires
    · rw [hother other heq] at hinit hexpires ⊢
      exact h.autoActive other hinit hexpires

/-- Taking out the changed lock leaves the order of the others. -/
theorem Listed.ordered_filter (h : Listed s) (lock : Nat) (value : WakeLock)
    (hlock : t.lock = Function.update s.lock lock value) (type : LockType) : ((s.activeWakeLocks type).filter (· ≠ lock)).Pairwise fun first second =>
      (t.lock first).autoExpire = true → (t.lock second).autoExpire = true := by
  refine ((h.ordered type).filter _).imp_of_mem fun {first second} hfirst hsecond himp => ?_
  rw [hlock, Function.update_of_ne (mem_filter_ne.mp hfirst).2,
    Function.update_of_ne (mem_filter_ne.mp hsecond).2]
  exact himp

/-- Moving a lock to the inactive list. -/
theorem Listed.deactivate (h : Listed s) (hinit : (s.lock lock).initialized = true) :
    Listed ((((s.setLock lock { s.lock lock with active := false, autoExpire := false }).unlink
      lock)).addInactive lock) := by
  refine h.relist lock { s.lock lock with active := false, autoExpire := false } rfl
    (fun other => ?_) (fun type other => ?_) ?_ (fun type => (h.nodupActive type).filter _)
    (fun _ => nofun) (h.ordered_filter lock _ rfl)
  · show other ∈ lock :: s.inactiveLocks.filter (· ≠ lock) ↔ _
    rw [List.mem_cons, mem_filter_ne]
    simp only [hinit, and_true, or_comm]
  · show other ∈ (s.activeWakeLocks type).filter (· ≠ lock) ↔ _
    rw [mem_filter_ne]
    simp
  · exact List.nodup_cons.mpr
      ⟨fun hmem => (mem_filter_ne.mp hmem).2 rfl, h.nodupInactive.filter _⟩

theorem Listed.expire (h : Listed s) (hinit : (s.lock lock).initialized = true) :
    Listed (expireWakeLock s lock) := h.deactivate hinit

/-- Initialising a lock that is on no list. -/
theorem Listed.init (h : Listed s) (hfree : (s.lock lock).initialized = false) :
    Listed (wakeLockInit s lock type) := by
  have hinactive : lock ∉ s.inactiveLocks := fun hmem => by
    simp [((h.inactive lock).mp hmem).1] at hfree
  have hactive : ∀ type, lock ∉ s.activeWakeLocks type := fun type hmem => by
    simp [((h.active type lock).mp hmem).1] at hfree
  have hne : ∀ type other, other ∈ s.activeWakeLocks type → other ≠ lock := fun type other hmem heq =>
    hactive type (heq ▸ hmem)
  have hordered := h.ordered_filter (t := wakeLockInit s lock type) lock
    ⟨type, true, false, false, (s.lock lock).expires⟩ rfl
  refine h.relist lock ⟨type, true, false, false, (s.lock lock).expires⟩ rfl
    (fun other => ?_) (fun type other => ?_) (List.nodup_cons.mpr ⟨hinactive, h.nodupInactive⟩)
    h.nodupActive (fun _ => nofun) (fun type => ?_)
  · show other ∈ lock :: s.inactiveLocks ↔ _
    rw [List.mem_cons]
    have hother : other ∈ s.inactiveLocks → other ≠ lock := fun hmem heq => hinactive (heq ▸ hmem)
    simp only [and_true, or_comm, and_iff_left_of_imp hother]
  · show other ∈ s.activeWakeLocks type ↔ _
    simp only [Bool.false_eq_true, false_and, and_false, or_false]
    exact ⟨fun hmem => ⟨hmem, hne type other hmem⟩, And.left⟩
  · have hall := hordered type
    rwa [filter_ne_of_not_mem (hactive type)] at hall

/-- Destroying a lock takes it off its list. -/
theorem Listed.destroy (h : Listed s) :
    Listed ((s.setLock lock { s.lock lock with initialized := false }).unlink lock) := by
  refine h.relist lock { s.lock lock with initialized := false } rfl (fun other => ?_)
    (fun type other => ?_) (h.nodupInactive.filter _)
    (fun type => (h.nodupActive type).filter _) nofun (h.ordered_filter lock _ rfl)
  · show other ∈ s.inactiveLocks.filter (· ≠ lock) ↔ _
    rw [mem_filter_ne]
    simp
  · show other ∈ (s.activeWakeLocks type).filter (· ≠ lock) ↔ _
    rw [mem_filter_ne]
    simp

/-- The list of one type after a lock was added to it. -/
theorem update_list (lists : LockType → List Nat) (new : List Nat) (other : LockType) :
    Function.update lists type new other = if other = type then new else lists other := by
  by_cases heq : other = type
  · rw [heq, Function.update_self, if_pos rfl]
  · rw [Function.update_of_ne heq, if_neg heq]

/-- A lock that goes to the active list of its type. -/
theorem Listed.relistActive (h : Listed s) (value : WakeLock)
    (hvalue : value.initialized = true ∧ value.active = true ∧ value.type = (s.lock lock).type)
    (hlock : t.lock = Function.update s.lock lock value)
    (hinactive : t.inactiveLocks = s.inactiveLocks.filter (· ≠ lock)) (new : List Nat)
    (hactive : t.activeWakeLocks = Function.update
      (fun type => (s.activeWakeLocks type).filter (· ≠ lock)) (s.lock lock).type new)
    (hmem : ∀ other, other ∈ new ↔
      other ∈ (s.activeWakeLocks (s.lock lock).type).filter (· ≠ lock) ∨ other = lock)
    (hnodup : new.Nodup)
    (hordered : new.Pairwise fun first second =>
      (t.lock first).autoExpire = true → (t.lock second).autoExpire = true) : Listed t := by
  obtain ⟨hinit, hon, htype⟩ := hvalue
  have hlists : ∀ type, t.activeWakeLocks type =
      if type = (s.lock lock).type then new else (s.activeWakeLocks type).filter (· ≠ lock) :=
    fun type => hactive ▸ update_list _ _ type
  refine h.relist lock value hlock (fun other => ?_) (fun type other => ?_)
    (hinactive ▸ h.nodupInactive.filter _) (fun type => ?_) (fun _ _ => hon) (fun type => ?_)
  · rw [hinactive, mem_filter_ne]
    simp [hon]
  · rw [hlists type]
    by_cases heq : type = (s.lock lock).type
    · rw [if_pos heq, hmem, mem_filter_ne, heq]
      simp only [hinit, hon, htype, and_true]
    · rw [if_neg heq, mem_filter_ne]
      simp only [htype, Ne.symm heq, and_false, or_false]
  · rw [hlists type]
    split_ifs
    · exact hnodup
    · exact (h.nodupActive type).filter _
  · rw [hlists type]
    split_ifs
    · exact hordered
    · exact h.ordered_filter lock value hlock type

/-- Locking for good puts the lock at the head of its active list, locking for a time at the
tail. -/
theorem Listed.activate (h : Listed s) (hinit : (s.lock lock).initialized = true)
    (timeout : Option Nat) : Listed (activate s lock timeout) := by
  have hfilter := (h.nodupActive (s.lock lock).type).filter (· ≠ lock)
  cases timeout with
  | none =>
    let value := { s.lock lock with active := true, autoExpire := false, expires := 2 ^ 31 - 1 }
    have hself : ((Wakelock.activate s lock none).lock lock).autoExpire = false := by
      show (Function.update s.lock lock value lock).autoExpire = false
      rw [Function.update_self]
    refine h.relistActive value ⟨hinit, rfl, rfl⟩ rfl rfl
      (lock :: (s.activeWakeLocks (s.lock lock).type).filter (· ≠ lock)) rfl
      (fun other => ?_) (List.nodup_cons.mpr ⟨by simp, hfilter⟩)
      (List.pairwise_cons.mpr ⟨fun other _ hauto => ?_, h.ordered_filter lock value rfl _⟩)
    · rw [List.mem_cons, or_comm]
    · cases hself.symm.trans hauto
  | some timeout =>
    let value := { s.lock lock with
      active := true, autoExpire := true, expires := wadd s.jiffies timeout }
    have hself : ((Wakelock.activate s lock (some timeout)).lock lock).autoExpire = true := by
      show (Function.update s.lock lock value lock).autoExpire = true
      rw [Function.update_self]
    refine h.relistActive value ⟨hinit, rfl, rfl⟩ rfl rfl
      ((s.activeWakeLocks (s.lock lock).type).filter (· ≠ lock) ++ [lock]) rfl
      (fun other => ?_) (List.nodup_append.mpr ⟨hfilter, List.nodup_singleton _, ?_⟩)
      (List.pairwise_append.mpr
        ⟨h.ordered_filter lock value rfl _, List.pairwise_singleton _ _, ?_⟩)
    · rw [List.mem_append, List.mem_singleton]
    · intro other hother lock' hlock'
      rw [List.mem_singleton.mp hlock']
      exact (mem_filter_ne.mp hother).2
    · intro other _ lock' hlock' _
      rw [List.mem_singleton.mp hlock']
      exact hself

/-- The scan moves initialised locks to the inactive list. -/
theorem Listed.scan {maxTimeout : Int} (h : Listed s)
    (hinit : ∀ lock ∈ locks, (s.lock lock).initialized = true) :
    Listed (scanActive locks s maxTimeout).1 := by
  induction locks generalizing s maxTimeout with
  | nil => exact h
  | cons lock locks ih =>
    have hrest : ∀ other ∈ locks, (s.lock other).initialized = true := fun other hmem =>
      hinit other (List.mem_cons_of_mem _ hmem)
    have hself := hinit lock List.mem_cons_self
    simp only [scanActive]
    split_ifs with hauto hdue hmax
    · refine ih (h.expire hself) fun other hmem => ?_
      by_cases heq : other = lock
      · rw [heq, expire_wake_lock_self]
        exact hself
      · rw [expire_wake_lock_other heq]
        exact hrest other hmem
    · exact ih h hrest
    · exact ih h hrest
    · exact h

theorem Listed.hasWakeLock (h : Listed s) (type : LockType) :
    Listed (hasWakeLockLocked s type).1 :=
  h.scan fun lock hmem => ((h.active type lock).mp hmem).1

/-- Where some lock does not expire, the first one does not: the scan stops at once. -/
theorem Listed.scan_stops (h : Listed s) (hmem : lock ∈ s.activeWakeLocks type)
    (hauto : (s.lock lock).autoExpire = false) : hasWakeLockLocked s type = (s, -1) := by
  have hordered := h.ordered type
  rw [hasWakeLockLocked]
  cases hlist : s.activeWakeLocks type with
  | nil =>
    rw [hlist] at hmem
    exact absurd hmem List.not_mem_nil
  | cons first rest =>
    rw [hlist] at hmem hordered
    have hfirst : ¬ (s.lock first).autoExpire = true := by
      intro hexpires
      rcases List.mem_cons.mp hmem with rfl | hrest
      · exact absurd (hexpires.symm.trans hauto) (by simp)
      · exact absurd (((List.pairwise_cons.mp hordered).1 lock hrest hexpires).symm.trans hauto)
          (by simp)
    rw [scanActive, if_neg hfirst]

/-- `has_wake_lock` says -1 when some active lock of the type does not expire, and changes
nothing then; else the largest time left, moving the expired locks to the inactive list. -/
structure Reports (s : State) (type : LockType) (t : State) (ret : Int) : Prop where
  open_iff : ret = -1 ↔ ∃ lock ∈ s.activeWakeLocks type, (s.lock lock).autoExpire = false
  unchanged : ret = -1 → t = s
  largest : ret ≠ -1 → (∀ lock ∈ s.activeWakeLocks type, s.timeout lock ≤ ret) ∧ 0 ≤ ret ∧
    (0 < ret → ∃ lock ∈ s.activeWakeLocks type, s.timeout lock = ret)
  kept : ret ≠ -1 → ∀ lock, lock ∈ t.activeWakeLocks type ↔
    lock ∈ s.activeWakeLocks type ∧ 0 < s.timeout lock
  others : ∀ other, other ≠ type → t.activeWakeLocks other = s.activeWakeLocks other
  expired : ret ≠ -1 → ∀ lock, lock ∈ t.inactiveLocks ↔ lock ∈ s.inactiveLocks ∨
    lock ∈ s.activeWakeLocks type ∧ s.timeout lock ≤ 0
  flags : ∀ lock, t.lock lock = s.lock lock ∨ lock ∈ s.activeWakeLocks type ∧
    s.timeout lock ≤ 0 ∧ t.lock lock = { s.lock lock with active := false, autoExpire := false }

/-- What `has_wake_lock` returns and does. -/
theorem Listed.reports (h : Listed s) (type : LockType) :
    Reports s type (hasWakeLockLocked s type).1 (hasWakeLockLocked s type).2 := by
  by_cases hopen : ∃ lock ∈ s.activeWakeLocks type, (s.lock lock).autoExpire = false
  · obtain ⟨lock, hmem, hauto⟩ := hopen
    rw [h.scan_stops hmem hauto]
    exact ⟨⟨fun _ => ⟨lock, hmem, hauto⟩, fun _ => rfl⟩, fun _ => rfl, fun hne => absurd rfl hne,
      fun hne => absurd rfl hne, fun _ _ => rfl, fun hne => absurd rfl hne, fun _ => .inl rfl⟩
  have hscanned := has_wake_lock_scanned type h.distinct
  have hlisted := h.hasWakeLock type
  generalize (hasWakeLockLocked s type).1 = t at hscanned hlisted ⊢
  generalize (hasWakeLockLocked s type).2 = ret at hscanned ⊢
  have hsame : ∀ lock ∈ t.activeWakeLocks type, t.lock lock = s.lock lock := fun lock hmem =>
    (hscanned.locks lock).resolve_right fun hgone => hgone.2.1 hmem
  have hret : ret ≠ -1 := by
    intro heq
    obtain ⟨lock, hmem, hauto⟩ := hscanned.stopped heq
    exact hopen ⟨lock, hscanned.sublist.subset hmem, hsame lock hmem ▸ hauto⟩
  obtain ⟨hnonneg, -, hleft, hattained⟩ := hscanned.through hret
  have htimeout : ∀ lock ∈ t.activeWakeLocks type, t.timeout lock = s.timeout lock :=
    fun lock hmem => timeout_congr (hsame lock hmem) hscanned.now
  have hkept : ∀ lock, lock ∈ t.activeWakeLocks type ↔
      lock ∈ s.activeWakeLocks type ∧ 0 < s.timeout lock := by
    intro lock
    refine ⟨fun hmem => ⟨hscanned.sublist.subset hmem, ?_⟩, fun ⟨hmem, hpos⟩ => ?_⟩
    · exact htimeout lock hmem ▸ (hleft lock hmem).2.1
    · by_contra hgone
      have hdue := (hscanned.overdue lock hmem hgone).2
      omega
  have hmoved : ∀ lock, t.lock lock = s.lock lock ∨ lock ∈ s.activeWakeLocks type ∧
      s.timeout lock ≤ 0 ∧
      t.lock lock = { s.lock lock with active := false, autoExpire := false } := by
    intro lock
    rcases hscanned.locks lock with hlock | ⟨hin, hout, hlock⟩
    · exact .inl hlock
    · exact .inr ⟨hin, (hscanned.overdue lock hin hout).2, hlock⟩
  refine ⟨⟨fun heq => absurd heq hret, fun hex => absurd hex hopen⟩, fun heq => absurd heq hret,
    fun _ => ⟨fun lock hmem => ?_, hnonneg, fun hpos => ?_⟩, fun _ => hkept, hscanned.others,
    fun _ lock => ?_, hmoved⟩
  · by_cases hpos : 0 < s.timeout lock
    · have hin := (hkept lock).mpr ⟨hmem, hpos⟩
      exact htimeout lock hin ▸ (hleft lock hin).2.2
    · omega
  · obtain ⟨lock, hmem, heq⟩ := hattained hpos
    exact ⟨lock, hscanned.sublist.subset hmem, htimeout lock hmem ▸ heq⟩
  rw [hlisted.inactive lock]
  rcases hscanned.locks lock with hlock | ⟨hin, hout, hlock⟩
  · rw [hlock, ← h.inactive lock]
    refine ⟨.inl, fun hor => hor.resolve_right fun ⟨hin, hdue⟩ => ?_⟩
    -- a lock that is still flagged active is still on the list
    have hmem : lock ∈ t.activeWakeLocks type := (hlisted.active type lock).mpr
      (hlock ▸ (h.active type lock).mp hin)
    have hpos := ((hkept lock).mp hmem).2
    omega
  · rw [hlock]
    exact ⟨fun _ => .inr ⟨hin, (hscanned.overdue lock hin hout).2⟩,
      fun _ => ⟨((h.active type lock).mp hin).1, rfl⟩⟩

/-- Updating the timer touches no list. -/
theorem Listed.updateTimer (h : Listed s) (expireIn : Int) : Listed (updateTimer s expireIn) := by
  rw [Wakelock.updateTimer]
  split_ifs with hpos hzero
  · exact h.congr rfl rfl rfl
  · exact h.congr rfl rfl rfl
  · exact h.congr rfl rfl rfl

theorem Listed.step {op : ListOp} (h : Listed s) (hstep : listStep s op = some t) : Listed t := by
  have hlock : ∀ lock timeout, wakeLockInternal s lock timeout = some t → Listed t := by
    intro lock timeout hcall
    by_cases hinit : (s.lock lock).initialized = true
    · have hactive := h.activate hinit timeout
      simp only [wakeLockInternal, if_pos hinit] at hcall
      by_cases hsuspend : (s.lock lock).type = .suspend
      · rw [if_pos hsuspend] at hcall
        cases timeout with
        | none =>
          obtain rfl := Option.some.inj hcall
          exact hactive.updateTimer _
        | some timeout =>
          obtain rfl := Option.some.inj hcall
          exact (hactive.hasWakeLock .suspend).updateTimer _
      · rw [if_neg hsuspend] at hcall
        obtain rfl := Option.some.inj hcall
        exact hactive
    · simp only [wakeLockInternal, if_neg hinit] at hcall
      exact absurd hcall (by simp)
  cases op with
  | init lock type =>
    by_cases hinit : (s.lock lock).initialized = true
    · rw [listStep, if_pos hinit] at hstep
      exact absurd hstep (by simp)
    · rw [listStep, if_neg hinit] at hstep
      obtain rfl := Option.some.inj hstep
      exact h.init (by simpa using hinit)
  | destroy lock =>
    by_cases hinit : (s.lock lock).initialized = true
    · simp only [listStep, wakeLockDestroy, if_pos hinit] at hstep
      obtain rfl := Option.some.inj hstep
      exact h.destroy
    · simp only [listStep, wakeLockDestroy, if_neg hinit] at hstep
      exact absurd hstep (by simp)
  | lock lock => exact hlock lock none hstep
  | lockTimeout lock timeout => exact hlock lock (some timeout) hstep
  | unlock lock =>
    by_cases hinit : (s.lock lock).initialized = true
    · have hidle := h.deactivate hinit
      simp only [listStep, wakeUnlock, if_pos hinit] at hstep
      by_cases hsuspend : (s.lock lock).type = .suspend
      · rw [if_pos hsuspend] at hstep
        obtain rfl := Option.some.inj hstep
        exact (hidle.hasWakeLock .suspend).updateTimer _
      · rw [if_neg hsuspend] at hstep
        obtain rfl := Option.some.inj hstep
        exact hidle
    · simp only [listStep, wakeUnlock, if_neg hinit] at hstep
      exact absurd hstep (by simp)
  | hasWakeLock type =>
    obtain rfl := Option.some.inj hstep
    exact h.hasWakeLock type
  | expire =>
    obtain rfl := Option.some.inj hstep
    have hscan := h.hasWakeLock .suspend
    show Listed (if (hasWakeLockLocked s .suspend).2 = 0 then
      (hasWakeLockLocked s .suspend).1.queueWork else (hasWakeLockLocked s .suspend).1)
    split_ifs with hzero
    · exact hscan.congr rfl rfl rfl
    · exact hscan
  | advance ticks =>
    obtain rfl := Option.some.inj hstep
    exact h.congr rfl rfl rfl

/-- The lists `wakelocks_init` builds. -/
theorem listed_init (now : Nat) : Listed (init now) where
  inactive lock := by
    by_cases hzero : lock = 0
    · simp [init, hzero]
    · by_cases hone : lock = 1 <;> simp [init, hzero, hone]
  active type lock := by
    by_cases hzero : lock = 0
    · cases type <;> simp [init, hzero]
    · by_cases hone : lock = 1 <;> cases type <;> simp [init, hzero, hone]
  nodupInactive := List.nodup_singleton 1
  nodupActive type := by cases type <;> simp [init]
  autoActive lock _ hauto := by
    by_cases hzero : lock = 0
    · simp [init, hzero]
    · by_cases hone : lock = 1 <;> simp [init, hzero, hone] at hauto
  ordered type := by cases type <;> simp [init]

/-- After any sequence of calls each initialised lock is on the list its flags name, no expiring
lock precedes one that does not expire, and `has_wake_lock` reports what it should. -/
theorem wake_lock_lists {now : Nat} (hrun : Reaches ListStep anyStep (init now) s) :
    Listed s ∧
      ∀ type, Reports s type (hasWakeLockLocked s type).1 (hasWakeLockLocked s type).2 := by
  have h : Listed s := hrun.invariant Listed (fun s op t hlisted _ hstep => hlisted.step hstep)
    (listed_init now)
  exact ⟨h, h.reports⟩

/-- The main lock is released, lock 1 taken for ten ticks, lock 2 initialised and taken for
good and destroyed: seven ticks are left after three. -/
theorem wake_lock_lists_three_left :
    ∃ s, [ListOp.unlock 0, .lockTimeout 1 10, .init 2 .suspend, .lock 2, .destroy 2,
        .advance 3].foldlM listStep (init 0) = some s ∧
      (hasWakeLockLocked s .suspend).2 = 7 ∧
      Reports s .suspend (hasWakeLockLocked s .suspend).1 (hasWakeLockLocked s .suspend).2 := by
  have hret : ([ListOp.unlock 0, .lockTimeout 1 10, .init 2 .suspend, .lock 2, .destroy 2,
      .advance 3].foldlM listStep (init 0)).map (fun s => (hasWakeLockLocked s .suspend).2) =
        some 7 := by decide
  obtain ⟨s, hs, hseven⟩ := Option.map_eq_some_iff.mp hret
  exact ⟨s, hs, hseven, (wake_lock_lists (reaches_foldlM listStep hs)).2 .suspend⟩

end AndroidKernel.Wakelock
