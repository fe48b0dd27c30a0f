import AndroidKernel.Library.Runs
import AndroidKernel.Wakelock.Model

/-!
# The expiry protocol of suspend locks

Runs are traced with the instant each lock expires at, so that "expired" means what it says
even where the 32-bit comparison of the code cannot tell. No run leaves the timer pending while
a lock that does not expire is held, and no run suspends while an unexpired lock is held. As
long as no expiring lock stays on the active list for 2^31 jiffies after its expiry, the signed
differences are exact, the timer is pending for the latest expiry and suspend is never
forgotten. A lock left behind for longer than that, which happens while another lock is held
for good, looks unexpired again.
-/

namespace AndroidKernel.Wakelock

open Library

/-- A state with the instant at which each expiring lock expires, and whether `suspend_work`
has been queued since an unexpired suspend lock was last held. -/
structure Timed where
  state : State
  deadline : Nat → Nat
  settled : Prop

/-- Some active suspend lock has not expired. -/
def Held (s : State) (deadline : Nat → Nat) : Prop :=
  ∃ lock ∈ s.activeWakeLocks .suspend, (s.lock lock).autoExpire = false ∨
    s.now < deadline lock

/-- The expiry instants after an event. -/
def Timed.nextDeadline (t : Timed) : Op → Nat → Nat
  | .lockTimeout lock timeout => Function.update t.deadline lock (t.state.now + timeout)
  | _ => t.deadline

/-- The traced state after an event that leads to `s`. -/
def Timed.next (t : Timed) (op : Op) (s : State) : Timed where
  state := s
  deadline := t.nextDeadline op
  settled := ¬ Held s (t.nextDeadline op) ∧ (t.state.queueCalls < s.queueCalls ∨ t.settled)

/-- The traced state that `wakelocks_init` builds. -/
def Timed.start (now : Nat) : Timed := ⟨init now, fun _ => 0, False⟩

/-- The transitions of traced runs. -/
def TimedStep (t : Timed) (op : Op) (u : Timed) : Prop :=
  ∃ s, step t.state op = some s ∧ u = t.next op s

/-- Time does not advance so far that an expiring suspend lock is still active 2^31 jiffies
after its expiry. -/
def Prompt (t : Timed) : Op → Prop
  | .advance ticks => ∀ lock ∈ t.state.activeWakeLocks .suspend,
      (t.state.lock lock).autoExpire = true →
        t.state.now + ticks < t.deadline lock + 2 ^ 31
  | _ => True

/-- The event locks or unlocks a suspend lock, or is the timer firing. -/
def OnSuspendLock (t : Timed) : Op → Prop
  | .lock lock | .lockTimeout lock _ | .unlock lock => (t.state.lock lock).type = .suspend
  | .fire => True
  | _ => False

/-! ## The invariants -/

/-- The lists are consistent and each expiring lock holds the low word of its expiry, which is
less than 2^31 jiffies away. -/
structure Linked (s : State) (deadline : Nat → Nat) : Prop where
  distinct : Distinct s
  typed : ∀ type, ∀ lock ∈ s.activeWakeLocks type,
    (s.lock lock).type = type ∧ (s.lock lock).initialized = true
  expires : ∀ type, ∀ lock ∈ s.activeWakeLocks type, (s.lock lock).autoExpire = true →
    (s.lock lock).expires = deadline lock % word ∧ deadline lock < s.now + 2 ^ 31

/-- While a suspend lock that does not expire is active, the timer is not pending. -/
def Stopped (s : State) : Prop :=
  (∃ lock ∈ s.activeWakeLocks .suspend, (s.lock lock).autoExpire = false) →
    s.expireTimer = none

/-- No active suspend lock expired 2^31 jiffies ago or more. -/
def Fresh (s : State) (deadline : Nat → Nat) : Prop :=
  ∀ lock ∈ s.activeWakeLocks .suspend, (s.lock lock).autoExpire = true →
    s.now < deadline lock + 2 ^ 31

/-- When all active suspend locks expire, the timer is pending for the latest expiry. -/
def Armed (s : State) (deadline : Nat → Nat) : Prop :=
  s.activeWakeLocks .suspend ≠ [] →
    (∀ lock ∈ s.activeWakeLocks .suspend, (s.lock lock).autoExpire = true) →
      ∃ lock ∈ s.activeWakeLocks .suspend,
        (∀ other ∈ s.activeWakeLocks .suspend, deadline other ≤ deadline lock) ∧
          s.expireTimer = some ⟨(s.lock lock).expires, deadline lock⟩

variable {s m u : State} {deadline : Nat → Nat} {lock : Nat}

/-- The time left of a lock, read exactly. -/
theorem Linked.timeout_eq (h : Linked s deadline) (hfresh : Fresh s deadline)
    (hmem : lock ∈ s.activeWakeLocks .suspend) (hauto : (s.lock lock).autoExpire = true) :
    s.timeout lock = (deadline lock : Int) - s.now := by
  obtain ⟨hexpires, hfuture⟩ := h.expires .suspend lock hmem hauto
  rw [State.timeout, hexpires, State.jiffies]
  exact signedDiff_eq hfuture (hfresh lock hmem hauto)

/-- A lock the code takes for expired has expired, however long ago. -/
theorem Linked.expired_of_timeout {type : LockType} (h : Linked s deadline)
    (hmem : lock ∈ s.activeWakeLocks type) (hauto : (s.lock lock).autoExpire = true)
    (hdue : s.timeout lock ≤ 0) : deadline lock ≤ s.now := by
  obtain ⟨hexpires, hfuture⟩ := h.expires type lock hmem hauto
  by_contra hlater
  rw [State.timeout, hexpires, State.jiffies,
    signedDiff_eq hfuture (show s.now < deadline lock + 2 ^ 31 by omega)] at hdue
  omega

/-! ## Scans -/

variable {type : LockType} {ret : Int}

/-- A lock that a scan leaves on its list is unchanged. -/
theorem Scanned.lock_eq (h : Scanned type s m ret) (hmem : lock ∈ m.activeWakeLocks type) :
    m.lock lock = s.lock lock :=
  (h.locks lock).resolve_right fun hgone => hgone.2.1 hmem

/-- A lock on the list of another type is unchanged. -/
theorem Scanned.lock_eq_of_other (h : Scanned type s m ret) (hdistinct : Distinct s)
    {other : LockType} (hne : other ≠ type) (hmem : lock ∈ s.activeWakeLocks other) :
    m.lock lock = s.lock lock :=
  (h.locks lock).resolve_right fun hgone =>
    hdistinct.apart other type hne lock hmem hgone.1

theorem Scanned.linked (h : Scanned type s m ret) (hlinked : Linked s deadline) :
    Linked m deadline := by
  have hkept : ∀ other, ∀ lock ∈ m.activeWakeLocks other,
      lock ∈ s.activeWakeLocks other ∧ m.lock lock = s.lock lock := by
    intro other lock hmem
    by_cases heq : other = type
    · subst heq
      exact ⟨h.sublist.subset hmem, h.lock_eq hmem⟩
    · rw [h.others other heq] at hmem
      exact ⟨hmem, h.lock_eq_of_other hlinked.distinct heq hmem⟩
  refine ⟨h.distinct hlinked.distinct, ?_, ?_⟩
  · intro other lock hmem
    obtain ⟨hin, hsame⟩ := hkept other lock hmem
    rw [hsame]
    exact hlinked.typed other lock hin
  · intro other lock hmem
    obtain ⟨hin, hsame⟩ := hkept other lock hmem
    rw [hsame, h.now]
    exact hlinked.expires other lock hin

/-- A scan leaves no lock that has been overdue for long. -/
theorem Scanned.fresh (h : Scanned .suspend s m ret) (hfresh : Fresh s deadline) :
    Fresh m deadline := by
  intro lock hmem hauto
  rw [h.lock_eq hmem] at hauto
  rw [h.now]
  exact hfresh lock (h.sublist.subset hmem) hauto

/-- A scan that reports 0 has found no unexpired lock. -/
theorem Scanned.not_held_of_zero (h : Scanned .suspend s m 0) (hlinked : Linked s deadline) :
    ¬ Held s deadline := by
  intro hheld
  obtain ⟨lock, hmem, hopen⟩ := hheld
  obtain ⟨-, hempty, -⟩ := h.through (by decide)
  have hgone : lock ∉ m.activeWakeLocks .suspend := by
    rw [hempty rfl]
    exact List.not_mem_nil
  obtain ⟨hauto, hdue⟩ := h.overdue lock hmem hgone
  have := hlinked.expired_of_timeout hmem hauto hdue
  rcases hopen with hopen | hopen
  · simp [hopen] at hauto
  · omega

/-- A scan that is not followed by an update of the timer keeps it stopped. -/
theorem Scanned.stays_stopped (h : Scanned .suspend s m ret) (hstopped : Stopped s) :
    Stopped m := by
  intro hopen
  obtain ⟨lock, hmem, hauto⟩ := hopen
  rw [h.lock_eq hmem] at hauto
  rw [h.timer]
  exact hstopped ⟨lock, h.sublist.subset hmem, hauto⟩

/-- When every lock that a scan leaves expires, every lock expired before it. -/
theorem Scanned.all_auto (h : Scanned .suspend s m ret)
    (hall : ∀ lock ∈ m.activeWakeLocks .suspend, (m.lock lock).autoExpire = true) :
    ∀ lock ∈ s.activeWakeLocks .suspend, (s.lock lock).autoExpire = true := by
  intro lock hmem
  by_cases hin : lock ∈ m.activeWakeLocks .suspend
  · rw [← h.lock_eq hin]
    exact hall lock hin
  · exact (h.overdue lock hmem hin).1

/-- A scan that is not followed by an update of the timer keeps it armed: the lock that expires
last is taken off only together with all others. -/
theorem Scanned.stays_armed (h : Scanned .suspend s m ret) (hlinked : Linked s deadline)
    (hfresh : Fresh s deadline) (harmed : Armed s deadline) : Armed m deadline := by
  intro hne hall
  have hall' := h.all_auto hall
  obtain ⟨first, hfirst⟩ := List.exists_mem_of_ne_nil _ hne
  have hne' : s.activeWakeLocks .suspend ≠ [] :=
    List.ne_nil_of_mem (h.sublist.subset hfirst)
  obtain ⟨last, hlast, hmax, htimer⟩ := harmed hne' hall'
  have hret : ret ≠ -1 := by
    intro heq
    obtain ⟨other, hmem, hauto⟩ := h.stopped heq
    simp [hall other hmem] at hauto
  have hin : last ∈ m.activeWakeLocks .suspend := by
    by_contra hnot
    obtain ⟨hauto, hdue⟩ := h.overdue last hlast hnot
    have hexpired := hlinked.expired_of_timeout hlast hauto hdue
    obtain ⟨-, -, hbound, -⟩ := h.through hret
    obtain ⟨-, hpos, -⟩ := hbound first hfirst
    have hfirst' := h.sublist.subset hfirst
    rw [timeout_congr (h.lock_eq hfirst) h.now,
      hlinked.timeout_eq hfresh hfirst' (hall' first hfirst')] at hpos
    have := hmax first hfirst'
    omega
  refine ⟨last, hin, fun other hmem => hmax other (h.sublist.subset hmem), ?_⟩
  rw [h.timer, h.lock_eq hin]
  exact htimer

/-! ## Scans followed by an update of the timer -/

@[simp] theorem update_timer_active (expireIn : Int) :
    (updateTimer s expireIn).activeWakeLocks = s.activeWakeLocks := by
  simp only [updateTimer]
  split_ifs <;> rfl

@[simp] theorem update_timer_lock (expireIn : Int) :
    (updateTimer s expireIn).lock = s.lock := by
  simp only [updateTimer]
  split_ifs <;> rfl

@[simp] theorem update_timer_now (expireIn : Int) : (updateTimer s expireIn).now = s.now := by
  simp only [updateTimer]
  split_ifs <;> rfl

/-- The timer is not part of what `Linked` speaks about. -/
theorem Linked.congr (h : Linked s deadline) (hactive : u.activeWakeLocks = s.activeWakeLocks)
    (hlock : u.lock = s.lock) (hnow : u.now = s.now) : Linked u deadline := by
  refine ⟨⟨?_, ?_⟩, ?_, ?_⟩
  · rw [hactive]
    exact h.distinct.nodup
  · rw [hactive]
    exact h.distinct.apart
  · rw [hactive, hlock]
    exact h.typed
  · rw [hactive, hlock, hnow]
    exact h.expires

/-- After a scan and an update, the timer is stopped if it has to be. -/
theorem Scanned.stopped_update (h : Scanned .suspend s m ret) : Stopped (updateTimer m ret) := by
  intro hopen
  simp only [update_timer_active, update_timer_lock] at hopen
  obtain ⟨lock, hmem, hauto⟩ := hopen
  have hret : ret = -1 := by
    by_contra hne
    obtain ⟨-, -, hbound, -⟩ := h.through hne
    simp [(hbound lock hmem).1] at hauto
  subst hret
  rfl

/-- After a scan and an update, the timer is armed if it has to be. -/
theorem Scanned.armed_update (h : Scanned .suspend s m ret) (hlinked : Linked s deadline)
    (hfresh : Fresh s deadline) : Armed (updateTimer m ret) deadline := by
  intro hne hall
  simp only [update_timer_active, update_timer_lock] at hne hall ⊢
  have hret : ret ≠ -1 := by
    intro heq
    obtain ⟨other, hmem, hauto⟩ := h.stopped heq
    simp [hall other hmem] at hauto
  obtain ⟨hnonneg, hempty, hbound, hattained⟩ := h.through hret
  have hpos : 0 < ret := by
    rcases Int.lt_or_eq_of_le hnonneg with hpos | hzero
    · exact hpos
    · exact absurd (hempty hzero.symm) hne
  have hexact : ∀ other ∈ m.activeWakeLocks .suspend,
      m.timeout other = (deadline other : Int) - m.now := fun other hmem =>
    (h.linked hlinked).timeout_eq (h.fresh hfresh) hmem (hall other hmem)
  obtain ⟨last, hlast, heq⟩ := hattained hpos
  rw [hexact last hlast] at heq
  refine ⟨last, hlast, ?_, ?_⟩
  · intro other hmem
    have hle := (hbound other hmem).2.2
    rw [hexact other hmem] at hle
    omega
  · have hdue : deadline last = m.now + ret.toNat := by omega
    rw [((h.linked hlinked).expires .suspend last hlast (hall last hlast)).1, hdue]
    simp [updateTimer, hpos, State.modTimer, State.jiffies, wadd]

/-- After a scan and an update that leave no unexpired lock, the work has been queued. -/
theorem Scanned.queued_update (h : Scanned .suspend s m ret) (hlinked : Linked s deadline)
    (hfresh : Fresh s deadline) (hfree : ¬ Held (updateTimer m ret) deadline) :
    (updateTimer m ret).queueCalls = s.queueCalls + 1 := by
  simp only [Held, update_timer_active, update_timer_lock, update_timer_now] at hfree
  have hret : ret ≠ -1 := by
    intro heq
    obtain ⟨lock, hmem, hauto⟩ := h.stopped heq
    exact hfree ⟨lock, hmem, .inl hauto⟩
  obtain ⟨hnonneg, -, hbound, hattained⟩ := h.through hret
  have hzero : ret = 0 := by
    by_contra hne
    obtain ⟨lock, hmem, heq⟩ := hattained (by omega)
    rw [(h.linked hlinked).timeout_eq (h.fresh hfresh) hmem (hbound lock hmem).1] at heq
    exact hfree ⟨lock, hmem, .inr (by omega)⟩
  subst hzero
  show m.queueCalls + 1 = s.queueCalls + 1
  rw [h.calls]

end AndroidKernel.Wakelock
