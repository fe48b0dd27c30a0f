import Mathlib.Data.List.Nodup
import AndroidKernel.Library.Words

/-!
# Wake locks

A model of `kernel/power/wakelock.c` without its statistics and its event counter. Every initialised lock is linked
on the inactive list or on the active list of its type. Activating, releasing and expiring
suspend locks arms or stops one timer, whose handler `expireWakeLocks` queues the suspend work
once nothing holds the system awake.

Time is `now`, the 64-bit jiffies counter; the code reads its low word as `jiffies` and
compares instants by signed 32-bit differences. The timer core is outside this file: it fires
a pending timer at or after the instant it was armed for.
-/

namespace AndroidKernel.Wakelock

open Library

/-- `WAKE_LOCK_SUSPEND` and `WAKE_LOCK_IDLE`. -/
inductive LockType where
  | suspend
  | idle
  deriving DecidableEq, Repr

/-- `struct wake_lock`: the type and the flag bits of `flags`, and `expires` as a word. -/
structure WakeLock where
  type : LockType
  initialized : Bool
  active : Bool
  autoExpire : Bool
  expires : Nat
  deriving DecidableEq, Repr

/-- A pending timer: the word passed to `mod_timer` and the instant it stands for. -/
structure Timer where
  expires : Nat
  due : Nat
  deriving DecidableEq, Repr

/-- The variables of the file. `suspendWork` says whether `suspend_work` is pending and
`queueCalls` counts the calls to `queue_work`. -/
structure State where
  lock : Nat → WakeLock
  inactiveLocks : List Nat
  activeWakeLocks : LockType → List Nat
  expireTimer : Option Timer
  suspendWork : Bool
  queueCalls : Nat
  now : Nat

namespace State

/-- `jiffies`, the low word of the time. -/
def jiffies (s : State) : Nat := s.now % word

/-- `(long)(lock->expires - jiffies)`. -/
def timeout (s : State) (lock : Nat) : Int :=
  signedDiff (s.lock lock).expires s.jiffies

/-- Overwrite one lock structure. -/
def setLock (s : State) (lock : Nat) (value : WakeLock) : State :=
  { s with lock := Function.update s.lock lock value }

/-- `list_del(&lock->link)`, from whichever list the lock is on. -/
def unlink (s : State) (lock : Nat) : State :=
  { s with
    inactiveLocks := s.inactiveLocks.filter (· ≠ lock)
    activeWakeLocks := fun type => (s.activeWakeLocks type).filter (· ≠ lock) }

/-- `list_add(&lock->link, &inactive_locks)`. -/
def addInactive (s : State) (lock : Nat) : State :=
  { s with inactiveLocks := lock :: s.inactiveLocks }

/-- `list_add(&lock->link, &active_wake_locks[type])`. -/
def addActive (s : State) (type : LockType) (lock : Nat) : State :=
  { s with activeWakeLocks :=
      Function.update s.activeWakeLocks type (lock :: s.activeWakeLocks type) }

/-- `list_add_tail(&lock->link, &active_wake_locks[type])`. -/
def addActiveTail (s : State) (type : LockType) (lock : Nat) : State :=
  { s with activeWakeLocks :=
      Function.update s.activeWakeLocks type (s.activeWakeLocks type ++ [lock]) }

/-- `mod_timer(&expire_timer, jiffies + delta)`. -/
def modTimer (s : State) (delta : Int) : State :=
  { s with expireTimer := some ⟨wadd s.jiffies delta.toNat, s.now + delta.toNat⟩ }

/-- `del_timer(&expire_timer)`. -/
def delTimer (s : State) : State :=
  { s with expireTimer := none }

/-- `queue_work(suspend_work_queue, &suspend_work)`. -/
def queueWork (s : State) : State :=
  { s with suspendWork := true, queueCalls := s.queueCalls + 1 }

end State

/-- `expire_wake_lock`. -/
def expireWakeLock (s : State) (lock : Nat) : State :=
  let s := s.setLock lock { s.lock lock with active := false, autoExpire := false }
  (s.unlink lock).addInactive lock

/-- The loop of `has_wake_lock_locked` over the entries that are left, with `max_timeout`. -/
def scanActive : List Nat → State → Int → State × Int
  | [], s, maxTimeout => (s, maxTimeout)
  | lock :: rest, s, maxTimeout =>
    if (s.lock lock).autoExpire then
      let timeout := s.timeout lock
      if timeout ≤ 0 then scanActive rest (expireWakeLock s lock) maxTimeout
      else if timeout > maxTimeout then scanActive rest s timeout
      else scanActive rest s maxTimeout
    else (s, -1)

/-- `has_wake_lock_locked`: expires overdue locks up to the first one that does not expire.
Returns -1 at such a lock, else the largest time left, which is 0 when no lock is left. -/
def hasWakeLockLocked (s : State) (type : LockType) : State × Int :=
  scanActive (s.activeWakeLocks type) s 0

/-- `expire_wake_locks`, the handler of `expire_timer`. -/
def expireWakeLocks (s : State) : State :=
  let (s, hasLock) := hasWakeLockLocked s .suspend
  if hasLock = 0 then s.queueWork else s

/-- `wake_lock_init` on a lock that is on no list. -/
def wakeLockInit (s : State) (lock : Nat) (type : LockType) : State :=
  (s.setLock lock ⟨type, true, false, false, (s.lock lock).expires⟩).addInactive lock

/-- The last part of `wake_lock_internal` and of `wake_unlock`: start the timer for the time
left, or stop it and, when no lock is left, queue the suspend work. -/
def updateTimer (s : State) (expireIn : Int) : State :=
  if expireIn > 0 then s.modTimer expireIn
  else
    let s := s.delTimer
    if expireIn = 0 then s.queueWork else s

/-- The first part of `wake_lock_internal`: the new flags, expiry and list of the lock. -/
def activate (s : State) (lock : Nat) (timeout : Option Nat) : State :=
  let old := s.lock lock
  let s := s.unlink lock
  match timeout with
  | some timeout =>
    (s.setLock lock { old with
      active := true, autoExpire := true,
      expires := wadd s.jiffies timeout }).addActiveTail old.type lock
  | none =>
    (s.setLock lock { old with
      active := true, autoExpire := false, expires := 2 ^ 31 - 1 }).addActive old.type lock

/-- `wake_lock_internal`; `timeout` is `none` when `has_timeout` is zero. `none` is the
`BUG_ON` on a lock that is not initialised. -/
def wakeLockInternal (s : State) (lock : Nat) (timeout : Option Nat) : Option State :=
  let old := s.lock lock
  if old.initialized then
    let s := activate s lock timeout
    if old.type = .suspend then
      match timeout with
      | some _ =>
        let (s, expireIn) := hasWakeLockLocked s .suspend
        some (updateTimer s expireIn)
      | none => some (updateTimer s (-1))
    else some s
  else none

/-- `wake_lock`. -/
def wakeLock (s : State) (lock : Nat) : Option State :=
  wakeLockInternal s lock none

/-- `wake_lock_timeout`. -/
def wakeLockTimeout (s : State) (lock timeout : Nat) : Option State :=
  wakeLockInternal s lock (some timeout)

/-- `wake_unlock` on an initialised lock. -/
def wakeUnlock (s : State) (lock : Nat) : Option State :=
  let old := s.lock lock
  if old.initialized then
    let s := s.setLock lock { old with active := false, autoExpire := false }
    let s := (s.unlink lock).addInactive lock
    if old.type = .suspend then
      let (s, hasLock) := hasWakeLockLocked s .suspend
      some (updateTimer s hasLock)
    else some s
  else none

/-- The work function `suspend` up to its decision: true when it goes on to `pm_suspend`. -/
def suspend (s : State) : State × Bool :=
  let s := { s with suspendWork := false }
  let (s, hasLock) := hasWakeLockLocked s .suspend
  (s, decide (hasLock = 0))

/-- What can happen to the module. A timeout is a non-negative `long`. -/
inductive Op where
  | init (lock : Nat) (type : LockType)
  | lock (lock : Nat)
  | lockTimeout (lock : Nat) (timeout : Fin (2 ^ 31))
  | unlock (lock : Nat)
  | hasWakeLock (type : LockType)
  | fire
  | suspend
  | advance (ticks : Nat)

/-- One event, with `list_lock` held where the code holds it. A lock is initialised once, and
the timer fires only when it is pending and due. -/
def step (s : State) : Op → Option State
  | .init lock type =>
    if (s.lock lock).initialized then none else some (wakeLockInit s lock type)
  | .lock lock => wakeLock s lock
  | .lockTimeout lock timeout => wakeLockTimeout s lock timeout
  | .unlock lock => wakeUnlock s lock
  | .hasWakeLock type => some (hasWakeLockLocked s type).1
  | .fire =>
    match s.expireTimer with
    | some timer =>
      if timer.due ≤ s.now then some (expireWakeLocks s.delTimer) else none
    | none => none
  | .suspend => if s.suspendWork then some (suspend s).1 else none
  | .advance ticks => some { s with now := s.now + ticks }

/-- The state `wakelocks_init` builds at time `now`: lock 0 is `main_wake_lock`, held, and lock
1 is `unknown_wakeup`. -/
def init (now : Nat) : State :=
  { lock := fun lock =>
      if lock = 0 then ⟨.suspend, true, true, false, 2 ^ 31 - 1⟩
      else if lock = 1 then ⟨.suspend, true, false, false, 0⟩
      else ⟨.suspend, false, false, false, 0⟩
    inactiveLocks := [1]
    activeWakeLocks := fun type => if type = .suspend then [0] else []
    expireTimer := none
    suspendWork := false
    queueCalls := 0
    now }

/-!
## The scan of the active locks

`has_wake_lock_locked` changes the list it walks over and stops at the first lock that does not
expire. `Scanned` says what it leaves behind and what its result means; every result about the
timer rests on it.
-/

/-- What a scan of the active locks of one type does: it removes overdue locks only, it leaves
the timer, the queue and the time alone, and its result is -1 if some lock does not expire, else
the largest time left. -/
structure Scanned (type : LockType) (s t : State) (ret : Int) : Prop where
  timer : t.expireTimer = s.expireTimer
  calls : t.queueCalls = s.queueCalls
  now : t.now = s.now
  others : ∀ other, other ≠ type → t.activeWakeLocks other = s.activeWakeLocks other
  sublist : (t.activeWakeLocks type).Sublist (s.activeWakeLocks type)
  locks : ∀ lock, t.lock lock = s.lock lock ∨
    lock ∈ s.activeWakeLocks type ∧ lock ∉ t.activeWakeLocks type ∧
      t.lock lock = { s.lock lock with active := false, autoExpire := false }
  overdue : ∀ lock ∈ s.activeWakeLocks type, lock ∉ t.activeWakeLocks type →
    (s.lock lock).autoExpire = true ∧ s.timeout lock ≤ 0
  stopped : ret = -1 → ∃ lock ∈ t.activeWakeLocks type, (t.lock lock).autoExpire = false
  through : ret ≠ -1 → 0 ≤ ret ∧ (ret = 0 → t.activeWakeLocks type = []) ∧
    (∀ lock ∈ t.activeWakeLocks type, (t.lock lock).autoExpire = true ∧
      0 < t.timeout lock ∧ t.timeout lock ≤ ret) ∧
    (0 < ret → ∃ lock ∈ t.activeWakeLocks type, t.timeout lock = ret)

variable {s : State} {lock : Nat}

@[simp] theorem expire_wake_lock_active (type : LockType) :
    (expireWakeLock s lock).activeWakeLocks type =
      (s.activeWakeLocks type).filter (· ≠ lock) :=
  rfl

theorem expire_wake_lock_other {other : Nat} (h : other ≠ lock) :
    (expireWakeLock s lock).lock other = s.lock other :=
  Function.update_of_ne h _ _

theorem expire_wake_lock_self :
    (expireWakeLock s lock).lock lock =
      { s.lock lock with active := false, autoExpire := false } :=
  Function.update_self _ _ _

/-- The time left of a lock depends on its structure and on the time only. -/
theorem timeout_congr {s t : State} {lock : Nat} (hlock : t.lock lock = s.lock lock)
    (hnow : t.now = s.now) : t.timeout lock = s.timeout lock := by
  simp only [State.timeout, State.jiffies, hlock, hnow]

/-- The entries a scan has passed: none overdue, with `maxTimeout` the largest time left. -/
structure Passed (s : State) (passed : List Nat) (maxTimeout : Int) : Prop where
  nonneg : 0 ≤ maxTimeout
  empty : maxTimeout = 0 → passed = []
  bound : ∀ lock ∈ passed, (s.lock lock).autoExpire = true ∧ 0 < s.timeout lock ∧
    s.timeout lock ≤ maxTimeout
  attained : 0 < maxTimeout → ∃ lock ∈ passed, s.timeout lock = maxTimeout

/-- Passing a lock that is not overdue. -/
theorem Passed.snoc {passed : List Nat} {maxTimeout : Int} (h : Passed s passed maxTimeout)
    (hauto : (s.lock lock).autoExpire = true) (hpos : 0 < s.timeout lock) :
    Passed s (passed ++ [lock]) (max maxTimeout (s.timeout lock)) := by
  refine ⟨by have := h.nonneg; omega, by omega, ?_, ?_⟩
  · intro other hmem
    rcases List.mem_append.mp hmem with hmem | hmem
    · obtain ⟨hauto, hpos, hle⟩ := h.bound other hmem
      exact ⟨hauto, hpos, by omega⟩
    · cases List.mem_singleton.mp hmem
      exact ⟨hauto, hpos, by omega⟩
  · intro _
    by_cases hle : maxTimeout ≤ s.timeout lock
    · exact ⟨lock, by simp, by omega⟩
    · obtain ⟨other, hmem, heq⟩ := h.attained (by omega)
      exact ⟨other, by simp [hmem], by omega⟩

/-- Expiring another lock does not change what has been passed. -/
theorem Passed.expire {passed : List Nat} {maxTimeout : Int} (h : Passed s passed maxTimeout)
    (hnot : lock ∉ passed) : Passed (expireWakeLock s lock) passed maxTimeout := by
  have hsame : ∀ other ∈ passed, (expireWakeLock s lock).lock other = s.lock other :=
    fun other hmem => expire_wake_lock_other fun heq => hnot (heq ▸ hmem)
  have htime : ∀ other ∈ passed, (expireWakeLock s lock).timeout other = s.timeout other :=
    fun other hmem => timeout_congr (hsame other hmem) rfl
  refine ⟨h.nonneg, h.empty, ?_, ?_⟩
  · intro other hmem
    rw [hsame other hmem, htime other hmem]
    exact h.bound other hmem
  · intro hpos
    obtain ⟨other, hmem, heq⟩ := h.attained hpos
    exact ⟨other, hmem, by rw [htime other hmem, heq]⟩

/-- Taking out an element that is not there. -/
theorem filter_ne_of_not_mem {locks : List Nat} (h : lock ∉ locks) :
    locks.filter (· ≠ lock) = locks :=
  List.filter_eq_self.mpr fun other hmem => by
    simpa using fun heq : other = lock => h (heq ▸ hmem)

/-- The lists are duplicate free and no lock is active under two types. -/
structure Distinct (s : State) : Prop where
  nodup : ∀ type, (s.activeWakeLocks type).Nodup
  apart : ∀ first second, first ≠ second →
    ∀ lock ∈ s.activeWakeLocks first, lock ∉ s.activeWakeLocks second

theorem Distinct.expire (h : Distinct s) : Distinct (expireWakeLock s lock) :=
  ⟨fun type => (h.nodup type).filter _,
    fun first second hne other hmem hmem' =>
      h.apart first second hne other (List.mem_of_mem_filter hmem) (List.mem_of_mem_filter hmem')⟩

/-- A scan that first expires an overdue lock and then behaves as `Scanned`. -/
theorem Scanned.of_expire {type : LockType} {t : State} {ret : Int} (hdistinct : Distinct s)
    (hmem : lock ∈ s.activeWakeLocks type) (hauto : (s.lock lock).autoExpire = true)
    (hdue : s.timeout lock ≤ 0) (h : Scanned type (expireWakeLock s lock) t ret) :
    Scanned type s t ret := by
  have hgone : lock ∉ t.activeWakeLocks type := fun hin => by
    simpa using h.sublist.subset hin
  refine ⟨h.timer, h.calls, h.now, ?_, ?_, ?_, ?_, h.stopped, h.through⟩
  · intro other hne
    rw [h.others other hne, expire_wake_lock_active]
    exact filter_ne_of_not_mem (hdistinct.apart type other hne.symm lock hmem)
  · exact h.sublist.trans List.filter_sublist
  · intro other
    by_cases heq : other = lock
    · subst heq
      rcases h.locks other with hsame | ⟨hin, -, -⟩
      · exact .inr ⟨hmem, hgone, hsame.trans expire_wake_lock_self⟩
      · simp at hin
    · rcases h.locks other with hsame | ⟨hin, hnot, hlock⟩
      · exact .inl (hsame.trans (expire_wake_lock_other heq))
      · rw [expire_wake_lock_other heq] at hlock
        exact .inr ⟨List.mem_of_mem_filter hin, hnot, hlock⟩
  · intro other hin hnot
    by_cases heq : other = lock
    · subst heq
      exact ⟨hauto, hdue⟩
    · have := h.overdue other (List.mem_filter.mpr ⟨hin, by simpa using heq⟩) hnot
      rwa [expire_wake_lock_other heq,
        timeout_congr (expire_wake_lock_other heq) rfl] at this

/-- The loop, started with `passed` behind it and `rest` ahead. -/
theorem scan_active_scanned {type : LockType} {rest passed : List Nat} {s : State}
    {maxTimeout : Int} (hlist : s.activeWakeLocks type = passed ++ rest)
    (hdistinct : Distinct s) (hpassed : Passed s passed maxTimeout) :
    Scanned type s (scanActive rest s maxTimeout).1 (scanActive rest s maxTimeout).2 := by
  induction rest generalizing passed s maxTimeout with
  | nil =>
    rw [List.append_nil] at hlist
    refine ⟨rfl, rfl, rfl, fun _ _ => rfl, List.Sublist.refl _, fun _ => .inl rfl,
      fun _ hmem hnot => absurd hmem hnot, ?_, ?_⟩
    · intro hstop
      have := hpassed.nonneg
      simp only [scanActive] at hstop
      omega
    · intro _
      simp only [scanActive, hlist]
      exact ⟨hpassed.nonneg, hpassed.empty, hpassed.bound, hpassed.attained⟩
  | cons lock rest ih =>
    have hmem : lock ∈ s.activeWakeLocks type := by rw [hlist]; simp
    have hsnoc : s.activeWakeLocks type = (passed ++ [lock]) ++ rest := by rw [hlist]; simp
    simp only [scanActive]
    split_ifs with hauto hdue hmax
    · have hnodup := hdistinct.nodup type
      rw [hlist, List.nodup_middle, List.nodup_cons] at hnodup
      have hnot : lock ∉ passed ∧ lock ∉ rest := by simpa using hnodup.1
      have hnext : (expireWakeLock s lock).activeWakeLocks type = passed ++ rest := by
        rw [expire_wake_lock_active, hlist, List.filter_append,
          List.filter_cons_of_neg (by simp), filter_ne_of_not_mem hnot.1,
          filter_ne_of_not_mem hnot.2]
      exact .of_expire hdistinct hmem hauto hdue
        (ih hnext hdistinct.expire (hpassed.expire hnot.1))
    · have hpass := hpassed.snoc hauto (by omega)
      rw [show max maxTimeout (s.timeout lock) = s.timeout lock by omega] at hpass
      exact ih hsnoc hdistinct hpass
    · have hpass := hpassed.snoc hauto (by omega)
      rw [show max maxTimeout (s.timeout lock) = maxTimeout by omega] at hpass
      exact ih hsnoc hdistinct hpass
    · exact ⟨rfl, rfl, rfl, fun _ _ => rfl, List.Sublist.refl _, fun _ => .inl rfl,
        fun _ hin hout => absurd hin hout,
        fun _ => ⟨lock, hmem, by simpa using hauto⟩, fun hne => absurd rfl hne⟩

/-- The specification of `has_wake_lock_locked`. -/
theorem has_wake_lock_scanned (type : LockType) (hdistinct : Distinct s) :
    Scanned type s (hasWakeLockLocked s type).1 (hasWakeLockLocked s type).2 :=
  scan_active_scanned (show s.activeWakeLocks type = [] ++ s.activeWakeLocks type from rfl)
    hdistinct ⟨Int.le_refl 0, fun _ => rfl, by simp, fun h => absurd h (Int.lt_irrefl 0)⟩

theorem Scanned.distinct {type : LockType} {t : State} {ret : Int} (h : Scanned type s t ret)
    (hdistinct : Distinct s) : Distinct t := by
  have hsub : ∀ other, (t.activeWakeLocks other).Sublist (s.activeWakeLocks other) := by
    intro other
    by_cases heq : other = type
    · exact heq ▸ h.sublist
    · rw [h.others other heq]
  exact ⟨fun other => (hdistinct.nodup other).sublist (hsub other),
    fun first second hne lock hmem hmem' => hdistinct.apart first second hne lock
      ((hsub first).subset hmem) ((hsub second).subset hmem')⟩

end AndroidKernel.Wakelock
