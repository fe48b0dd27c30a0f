import AndroidKernel.Wakelock.Protocol

/-!
# Runs of the wake lock protocol

`Effect` says what one event can do to the suspend locks; the invariants follow from it case by
case, and the results about runs from the invariants.
-/

namespace AndroidKernel.Wakelock

open Library

variable {s m u : State} {deadline later : Nat → Nat} {lock : Nat}

/-! ## The effect of one event -/

/-- What an event does to the suspend locks: nothing, let time pass, scan them, scan them and
update the timer, hold one that does not expire, or handle the timer. -/
inductive Effect (t : Timed) (u : State) : Op → Prop where
  | unrelated (op : Op) (hlinked : Linked u (t.nextDeadline op))
      (hactive : u.activeWakeLocks .suspend = t.state.activeWakeLocks .suspend)
      (hlock : ∀ lock ∈ t.state.activeWakeLocks .suspend,
        u.lock lock = t.state.lock lock ∧ t.nextDeadline op lock = t.deadline lock)
      (htimer : u.expireTimer = t.state.expireTimer) (hnow : u.now = t.state.now)
      (hop : ¬ OnSuspendLock t op) : Effect t u op
  | advance (ticks : Nat) (hstate : u = { t.state with now := t.state.now + ticks }) :
      Effect t u (.advance ticks)
  | scan (op : Op) (ret : Int) (hscan : Scanned .suspend t.state u ret)
      (hlater : t.nextDeadline op = t.deadline) (hop : ¬ OnSuspendLock t op) : Effect t u op
  | rescan (op : Op) (m v : State) (ret : Int) (hlinked : Linked m (t.nextDeadline op))
      (hfresh : Fresh t.state t.deadline → Fresh m (t.nextDeadline op))
      (hcalls : m.queueCalls = t.state.queueCalls)
      (hscan : Scanned .suspend m v ret) (hstate : u = updateTimer v ret) : Effect t u op
  | hold (op : Op) (lock : Nat) (hlinked : Linked u (t.nextDeadline op))
      (hfresh : Fresh t.state t.deadline → Fresh u (t.nextDeadline op))
      (hmem : lock ∈ u.activeWakeLocks .suspend) (hauto : (u.lock lock).autoExpire = false)
      (htimer : u.expireTimer = none) : Effect t u op
  | fire (timer : Timer) (v : State) (ret : Int) (htimer : t.state.expireTimer = some timer)
      (hdue : timer.due ≤ t.state.now) (hscan : Scanned .suspend t.state.delTimer v ret)
      (hstate : u = if ret = 0 then v.queueWork else v) : Effect t u .fire

/-- Rewriting one lock and moving it to the list of its type, or off all lists. -/
theorem Linked.place (h : Linked s deadline) (lock : Nat) (value : WakeLock)
    (hinit : value.initialized = true) (hnow : m.now = s.now)
    (hlock : m.lock = Function.update s.lock lock value)
    (hnodup : ∀ type, (m.activeWakeLocks type).Nodup)
    (hothers : ∀ type, ∀ other ∈ m.activeWakeLocks type, other ≠ lock →
      other ∈ s.activeWakeLocks type)
    (hself : ∀ type, lock ∈ m.activeWakeLocks type → type = value.type)
    (hlater : ∀ other, other ≠ lock → later other = deadline other)
    (hexpires : value.autoExpire = true →
      value.expires = later lock % word ∧ later lock < s.now + 2 ^ 31) :
    Linked m later := by
  refine ⟨⟨hnodup, ?_⟩, ?_, ?_⟩
  · intro first second hne other hmem hmem'
    by_cases heq : other = lock
    · subst heq
      exact hne ((hself first hmem).trans (hself second hmem').symm)
    · exact h.distinct.apart first second hne other (hothers first other hmem heq)
        (hothers second other hmem' heq)
  · intro type other hmem
    by_cases heq : other = lock
    · subst heq
      rw [hlock, Function.update_self]
      exact ⟨(hself type hmem).symm, hinit⟩
    · rw [hlock, Function.update_of_ne heq]
      exact h.typed type other (hothers type other hmem heq)
  intro type other hmem
  rw [hnow]
  by_cases heq : other = lock
  · subst heq
    rw [hlock, Function.update_self]
    exact hexpires
  · rw [hlock, Function.update_of_ne heq, hlater other heq]
    exact h.expires type other (hothers type other hmem heq)

/-- A lock that is not initialised, or is of another type, is not on a list. -/
theorem Linked.not_mem {type : LockType} (h : Linked s deadline)
    (hnot : (s.lock lock).initialized = false ∨ (s.lock lock).type ≠ type) :
    lock ∉ s.activeWakeLocks type := by
  intro hmem
  obtain ⟨htype, hinit⟩ := h.typed type lock hmem
  rcases hnot with hnot | hnot
  · simp [hinit] at hnot
  · exact hnot htype

/-- Releasing a lock, as `wake_unlock` and `expire_wake_lock` do. -/
theorem Linked.expire (h : Linked s deadline) (hinit : (s.lock lock).initialized = true) :
    Linked (expireWakeLock s lock) deadline :=
  h.place lock { s.lock lock with active := false, autoExpire := false } hinit rfl rfl
    (fun type => (h.distinct.nodup type).filter _)
    (fun _ _ hmem _ => List.mem_of_mem_filter hmem) (fun _ hmem => by simp at hmem)
    (fun _ _ => rfl) (fun hauto => by simp at hauto)

/-- Where `activate` puts the lock and what it leaves in place. -/
theorem mem_activate {timeout : Option Nat} {type : LockType} {other : Nat} :
    other ∈ (activate s lock timeout).activeWakeLocks type ↔
      (other = lock ∧ type = (s.lock lock).type) ∨
        (other ∈ s.activeWakeLocks type ∧ other ≠ lock) := by
  cases timeout with
  | none =>
    by_cases heq : type = (s.lock lock).type
    · subst heq
      simp [activate, State.addActive, State.setLock, State.unlink]
    · simp [activate, State.addActive, State.setLock, State.unlink, heq]
  | some timeout =>
    by_cases heq : type = (s.lock lock).type
    · subst heq
      simp [activate, State.addActiveTail, State.setLock, State.unlink, or_comm]
    · simp [activate, State.addActiveTail, State.setLock, State.unlink, heq]

theorem nodup_activate {timeout : Option Nat} {type : LockType}
    (h : (s.activeWakeLocks type).Nodup) :
    ((activate s lock timeout).activeWakeLocks type).Nodup := by
  have hrest : ((s.activeWakeLocks type).filter (· ≠ lock)).Nodup := h.filter _
  cases timeout with
  | none =>
    by_cases heq : type = (s.lock lock).type
    · subst heq
      simpa [activate, State.addActive, State.setLock, State.unlink] using hrest
    · simpa [activate, State.addActive, State.setLock, State.unlink, heq] using hrest
  | some timeout =>
    by_cases heq : type = (s.lock lock).type
    · subst heq
      simpa [activate, State.addActiveTail, State.setLock, State.unlink,
        List.nodup_append_comm] using hrest
    · simpa [activate, State.addActiveTail, State.setLock, State.unlink, heq] using hrest

@[simp] theorem activate_now (timeout : Option Nat) :
    (activate s lock timeout).now = s.now := by
  cases timeout <;> rfl

@[simp] theorem activate_timer (timeout : Option Nat) :
    (activate s lock timeout).expireTimer = s.expireTimer := by
  cases timeout <;> rfl

@[simp] theorem activate_calls (timeout : Option Nat) :
    (activate s lock timeout).queueCalls = s.queueCalls := by
  cases timeout <;> rfl

theorem activate_other {timeout : Option Nat} {other : Nat} (h : other ≠ lock) :
    (activate s lock timeout).lock other = s.lock other := by
  cases timeout <;> exact Function.update_of_ne h _ _

/-- Activating a lock keeps the lists consistent. -/
theorem Linked.activate_none (h : Linked s deadline)
    (hinit : (s.lock lock).initialized = true) : Linked (activate s lock none) deadline := by
  refine h.place lock
    { s.lock lock with active := true, autoExpire := false, expires := 2 ^ 31 - 1 } hinit rfl rfl
    (fun type => nodup_activate (h.distinct.nodup type)) ?_ ?_ (fun _ _ => rfl)
    (fun hauto => by simp at hauto)
  · intro type other hmem hne
    exact ((mem_activate.mp hmem).resolve_left fun heq => hne heq.1).1
  · intro type hmem
    exact ((mem_activate.mp hmem).resolve_right fun hrest => hrest.2 rfl).2

/-- Activating a lock with a timeout keeps the lists consistent, with the new deadline. -/
theorem Linked.activate_some (h : Linked s deadline)
    (hinit : (s.lock lock).initialized = true) (timeout : Fin (2 ^ 31)) :
    Linked (activate s lock (some timeout))
      (Function.update deadline lock (s.now + timeout)) := by
  refine h.place lock
    { s.lock lock with
      active := true, autoExpire := true, expires := wadd s.jiffies timeout } hinit rfl rfl
    (fun type => nodup_activate (h.distinct.nodup type)) ?_ ?_
    (fun other hne => Function.update_of_ne hne _ _) ?_
  · intro type other hmem hne
    exact ((mem_activate.mp hmem).resolve_left fun heq => hne heq.1).1
  · intro type hmem
    exact ((mem_activate.mp hmem).resolve_right fun hrest => hrest.2 rfl).2
  · intro _
    rw [Function.update_self]
    exact ⟨by simp [wadd, State.jiffies], by omega⟩

/-- A list without the lock is not changed by taking it out. -/
theorem Linked.filter_active (h : Linked s deadline) (hidle : (s.lock lock).type ≠ .suspend) :
    (s.activeWakeLocks .suspend).filter (· ≠ lock) = s.activeWakeLocks .suspend :=
  filter_ne_of_not_mem (h.not_mem (.inr hidle))

/-- Activating a lock of another type does not touch the list of the suspend locks. -/
theorem Linked.activate_active (h : Linked s deadline) (hidle : (s.lock lock).type ≠ .suspend)
    (timeout : Option Nat) :
    (activate s lock timeout).activeWakeLocks .suspend = s.activeWakeLocks .suspend := by
  have hfilter := h.filter_active hidle
  cases timeout with
  | none => simpa [activate, State.addActive, State.setLock, State.unlink, hidle.symm] using hfilter
  | some timeout =>
    simpa [activate, State.addActiveTail, State.setLock, State.unlink, hidle.symm] using hfilter

variable {t : Timed} {op : Op}

/-- `wake_lock` holds the lock and stops the timer. -/
theorem lock_effect (h : Linked t.state t.deadline)
    (hstep : wakeLock t.state lock = some u) : Effect t u (.lock lock) := by
  simp only [wakeLock, wakeLockInternal] at hstep
  split_ifs at hstep with hinit htype
  · cases hstep
    have hmem : lock ∈ (activate t.state lock none).activeWakeLocks .suspend :=
      mem_activate.mpr (.inl ⟨rfl, htype.symm⟩)
    have hauto : ((activate t.state lock none).lock lock).autoExpire = false := by
      simp [activate, State.addActive, State.setLock]
    refine .hold _ lock ((h.activate_none hinit).congr rfl rfl rfl) ?_ hmem hauto rfl
    intro hfresh other hin hother
    change other ∈ (activate t.state lock none).activeWakeLocks .suspend at hin
    change ((activate t.state lock none).lock other).autoExpire = true at hother
    rcases mem_activate.mp hin with heq | hrest
    · rw [heq.1] at hother
      exact absurd (hauto.symm.trans hother) (by decide)
    · exact hfresh other hrest.1 (by rwa [← activate_other hrest.2])
  · cases hstep
    refine .unrelated _ (h.activate_none hinit) (h.activate_active htype none) ?_ rfl rfl htype
    intro other hmem
    exact ⟨activate_other fun heq => h.not_mem (.inr htype) (heq ▸ hmem), rfl⟩

/-- `wake_lock_timeout` activates the lock, scans and updates the timer. -/
theorem lock_timeout_effect (h : Linked t.state t.deadline) {timeout : Fin (2 ^ 31)}
    (hstep : wakeLockTimeout t.state lock timeout = some u) :
    Effect t u (.lockTimeout lock timeout) := by
  simp only [wakeLockTimeout, wakeLockInternal] at hstep
  split_ifs at hstep with hinit htype
  · cases hstep
    have hlinked := h.activate_some hinit timeout
    refine .rescan _ _ _ _ hlinked ?_ (activate_calls _)
      (has_wake_lock_scanned .suspend hlinked.distinct) rfl
    intro hfresh other hin hother
    show t.state.now < Function.update t.deadline lock (t.state.now + timeout) other + 2 ^ 31
    by_cases heq : other = lock
    · subst heq
      rw [Function.update_self]
      omega
    · rcases mem_activate.mp hin with hself | hrest
      · exact absurd hself.1 heq
      · rw [Function.update_of_ne heq]
        refine hfresh other hrest.1 ?_
        rw [← activate_other heq]
        exact hother
  · cases hstep
    refine .unrelated _ (h.activate_some hinit timeout) (h.activate_active htype _) ?_
      (activate_timer _) (activate_now _) htype
    intro other hmem
    have hne : other ≠ lock := fun heq => h.not_mem (.inr htype) (heq ▸ hmem)
    exact ⟨activate_other hne, Function.update_of_ne hne _ _⟩

/-- `wake_unlock` releases the lock, scans and updates the timer. -/
theorem unlock_effect (h : Linked t.state t.deadline)
    (hstep : wakeUnlock t.state lock = some u) : Effect t u (.unlock lock) := by
  simp only [wakeUnlock] at hstep
  split_ifs at hstep with hinit htype
  · cases hstep
    have hlinked := h.expire hinit
    refine .rescan _ (expireWakeLock t.state lock) _ _ hlinked ?_ rfl
      (has_wake_lock_scanned .suspend hlinked.distinct) rfl
    intro hfresh other hin hother
    have hmem : other ∈ t.state.activeWakeLocks .suspend ∧ other ≠ lock := by simpa using hin
    rw [expire_wake_lock_other hmem.2] at hother
    exact hfresh other hmem.1 hother
  · cases hstep
    refine .unrelated _ (h.expire hinit) (h.filter_active htype) ?_ rfl rfl htype
    intro other hmem
    exact ⟨expire_wake_lock_other fun heq => h.not_mem (.inr htype) (heq ▸ hmem), rfl⟩

theorem step_effect (h : Linked t.state t.deadline) (hstep : step t.state op = some u) :
    Effect t u op := by
  cases op with
  | init lock type =>
    simp only [step] at hstep
    split_ifs at hstep with hinit
    cases hstep
    have hfree : ∀ type, lock ∉ t.state.activeWakeLocks type :=
      fun type => h.not_mem (.inl (by simpa using hinit))
    refine .unrelated _ ?_ rfl ?_ rfl rfl (fun hop => hop)
    · exact h.place lock ⟨type, true, false, false, (t.state.lock lock).expires⟩ rfl rfl rfl
        h.distinct.nodup (fun _ _ hmem _ => hmem) (fun type hmem => absurd hmem (hfree type))
        (fun _ _ => rfl) (fun hauto => by simp at hauto)
    · intro other hmem
      have hne : other ≠ lock := fun heq => hfree .suspend (heq ▸ hmem)
      exact ⟨Function.update_of_ne hne _ _, rfl⟩
  | lock lock => exact lock_effect h hstep
  | lockTimeout lock timeout => exact lock_timeout_effect h hstep
  | unlock lock => exact unlock_effect h hstep
  | hasWakeLock type =>
    cases hstep
    have hscan := has_wake_lock_scanned type h.distinct
    cases type with
    | suspend => exact .scan _ _ hscan rfl (fun hop => hop)
    | idle =>
      refine .unrelated _ (hscan.linked h) (hscan.others _ (by decide)) ?_ hscan.timer
        hscan.now (fun hop => hop)
      intro other hmem
      exact ⟨hscan.lock_eq_of_other h.distinct (by decide) hmem, rfl⟩
  | fire =>
    simp only [step] at hstep
    split at hstep
    · split_ifs at hstep with hdue
      cases hstep
      have hlinked : Linked t.state.delTimer t.deadline := h.congr rfl rfl rfl
      exact .fire _ _ _ ‹_› hdue (has_wake_lock_scanned .suspend hlinked.distinct) rfl
    · simp at hstep
  | suspend =>
    simp only [step] at hstep
    split_ifs at hstep
    cases hstep
    have hlinked : Linked { t.state with suspendWork := false } t.deadline :=
      h.congr rfl rfl rfl
    obtain ⟨htimer, hcalls, hnow, hothers, hsub, hlocks, hover, hstop, hthrough⟩ :=
      has_wake_lock_scanned .suspend hlinked.distinct
    exact .scan _ _ ⟨htimer, hcalls, hnow, hothers, hsub, hlocks, hover, hstop, hthrough⟩ rfl
      (fun hop => hop)
  | advance ticks =>
    cases hstep
    exact .advance ticks rfl

/-! ## What holds in every run -/

/-- Every event keeps the lists consistent. -/
theorem Effect.linked (heffect : Effect t u op) (h : Linked t.state t.deadline) :
    Linked u (t.nextDeadline op) := by
  cases heffect with
  | unrelated _ hlinked => exact hlinked
  | advance ticks hstate =>
    subst hstate
    refine ⟨⟨h.distinct.nodup, h.distinct.apart⟩, h.typed, ?_⟩
    intro type lock hmem hauto
    obtain ⟨hexpires, hfuture⟩ := h.expires type lock hmem hauto
    exact ⟨hexpires, by simp only [Timed.nextDeadline]; omega⟩
  | scan _ _ hscan hlater =>
    rw [hlater]
    exact hscan.linked h
  | rescan _ m v ret hlinked _ _ hscan hstate =>
    subst hstate
    exact (hscan.linked hlinked).congr (update_timer_active ret) (update_timer_lock ret)
      (update_timer_now ret)
  | hold _ _ hlinked => exact hlinked
  | fire timer v ret _ _ hscan hstate =>
    have hlinked : Linked v t.deadline := hscan.linked (h.congr rfl rfl rfl)
    subst hstate
    split_ifs
    · exact hlinked.congr rfl rfl rfl
    · exact hlinked

/-- Every event stops the timer when it leaves a lock that does not expire. -/
theorem Effect.stopped (heffect : Effect t u op) (h : Stopped t.state) : Stopped u := by
  cases heffect with
  | unrelated _ _ hactive hlock htimer =>
    intro hopen
    obtain ⟨lock, hmem, hauto⟩ := hopen
    rw [hactive] at hmem
    rw [(hlock lock hmem).1] at hauto
    rw [htimer]
    exact h ⟨lock, hmem, hauto⟩
  | advance ticks hstate =>
    subst hstate
    exact h
  | scan _ _ hscan => exact hscan.stays_stopped h
  | rescan _ m v ret _ _ _ hscan hstate =>
    subst hstate
    exact hscan.stopped_update
  | hold _ _ _ _ _ _ htimer => exact fun _ => htimer
  | fire timer v ret _ _ hscan hstate =>
    subst hstate
    intro _
    split_ifs
    · exact hscan.timer
    · exact hscan.timer

/-- The lists are consistent and the timer is stopped in every state a run reaches. -/
theorem reaches_linked {now : Nat} (hrun : Reaches TimedStep anyStep (Timed.start now) t) :
    Linked t.state t.deadline ∧ Stopped t.state := by
  refine hrun.invariant (fun t => Linked t.state t.deadline ∧ Stopped t.state) ?_ ?_
  · intro s op t hinv _ hstep
    obtain ⟨u, hstep, rfl⟩ := hstep
    have heffect := step_effect hinv.1 hstep
    exact ⟨heffect.linked hinv.1, heffect.stopped hinv.2⟩
  refine ⟨⟨⟨?_, ?_⟩, ?_, ?_⟩, fun _ => rfl⟩
  · intro type
    cases type <;> simp [Timed.start, init]
  · intro first second hne
    cases first <;> cases second <;> simp_all [Timed.start, init]
  · intro type
    cases type <;> simp [Timed.start, init]
  · intro type
    cases type <;> simp [Timed.start, init]

/-! ## What holds while expired locks are swept in time -/

/-- The timer covers the expiring locks, and once no lock is left either the work was queued or
the timer is still to come. -/
structure Punctual (t : Timed) : Prop where
  fresh : Fresh t.state t.deadline
  armed : Armed t.state t.deadline
  remembered : t.state.activeWakeLocks .suspend = [] →
    t.settled ∨ t.state.expireTimer ≠ none

theorem not_held_of_empty (h : s.activeWakeLocks .suspend = []) : ¬ Held s deadline := by
  intro hheld
  obtain ⟨lock, hmem, -⟩ := hheld
  rw [h] at hmem
  exact List.not_mem_nil hmem

/-- The handler of the timer finds every lock expired and queues the work. -/
theorem fire_empties {timer : Timer} {v : State} {ret : Int} (hlinked : Linked s deadline)
    (hstopped : Stopped s) (hfresh : Fresh s deadline) (harmed : Armed s deadline)
    (htimer : s.expireTimer = some timer) (hdue : timer.due ≤ s.now)
    (hscan : Scanned .suspend s.delTimer v ret) :
    ret = 0 ∧ v.activeWakeLocks .suspend = [] := by
  have hauto : ∀ lock ∈ s.activeWakeLocks .suspend, (s.lock lock).autoExpire = true := by
    intro lock hmem
    by_contra hnot
    have hnone := hstopped ⟨lock, hmem, by simpa using hnot⟩
    rw [htimer] at hnone
    cases hnone
  have hexpired : ∀ lock ∈ s.activeWakeLocks .suspend, deadline lock ≤ s.now := by
    intro lock hmem
    obtain ⟨last, -, hmax, harm⟩ := harmed (List.ne_nil_of_mem hmem) hauto
    rw [htimer] at harm
    cases harm
    exact Nat.le_trans (hmax lock hmem) hdue
  have hgone : v.activeWakeLocks .suspend = [] := by
    by_contra hne
    obtain ⟨lock, hmem⟩ := List.exists_mem_of_ne_nil _ hne
    have hin : lock ∈ s.activeWakeLocks .suspend := hscan.sublist.subset hmem
    have hret : ret ≠ -1 := by
      intro heq
      obtain ⟨other, hother, hopen⟩ := hscan.stopped heq
      rw [hscan.lock_eq hother] at hopen
      exact absurd ((hauto other (hscan.sublist.subset hother)).symm.trans hopen) (by decide)
    obtain ⟨-, -, hbound, -⟩ := hscan.through hret
    have hpos := (hbound lock hmem).2.1
    have hexact : v.timeout lock = s.timeout lock :=
      timeout_congr (hscan.lock_eq hmem) hscan.now
    rw [hexact, hlinked.timeout_eq hfresh hin (hauto lock hin)] at hpos
    have := hexpired lock hin
    omega
  refine ⟨?_, hgone⟩
  have hret : ret ≠ -1 := by
    intro heq
    obtain ⟨other, hother, -⟩ := hscan.stopped heq
    rw [hgone] at hother
    exact List.not_mem_nil hother
  obtain ⟨hnonneg, -, -, hattained⟩ := hscan.through hret
  by_contra hne
  obtain ⟨lock, hmem, -⟩ := hattained (by omega)
  rw [hgone] at hmem
  exact List.not_mem_nil hmem

/-- A lock, unlock or timer event that leaves no unexpired lock queues the work. -/
theorem Effect.queued (heffect : Effect t u op) (hlinked : Linked t.state t.deadline)
    (hstopped : Stopped t.state) (h : Punctual t) (hop : OnSuspendLock t op)
    (hfree : ¬ Held u (t.nextDeadline op)) : u.queueCalls = t.state.queueCalls + 1 := by
  cases heffect with
  | unrelated _ _ _ _ _ _ hnot => exact absurd hop hnot
  | advance ticks => exact absurd hop id
  | scan _ _ _ _ hnot => exact absurd hop hnot
  | rescan _ m v ret hmid hfresh hcalls hscan hstate =>
    subst hstate
    rw [hscan.queued_update hmid (hfresh h.fresh) hfree, hcalls]
  | hold _ lock _ _ hmem hauto => exact absurd ⟨lock, hmem, .inl hauto⟩ hfree
  | fire timer v ret htimer hdue hscan hstate =>
    obtain ⟨hret, -⟩ := fire_empties hlinked hstopped h.fresh h.armed htimer hdue hscan
    rw [hstate, if_pos hret]
    show v.queueCalls + 1 = t.state.queueCalls + 1
    rw [hscan.calls]
    rfl

/-- Every prompt event keeps the timer covering the expiring locks. -/
theorem Effect.punctual (heffect : Effect t u op) (hprompt : Prompt t op)
    (hlinked : Linked t.state t.deadline) (hstopped : Stopped t.state) (h : Punctual t) :
    Punctual (t.next op u) := by
  cases heffect with
  | unrelated _ _ hactive hlock htimer hnow =>
    refine ⟨?_, ?_, ?_⟩
    · intro lock hmem hauto
      change lock ∈ u.activeWakeLocks .suspend at hmem
      change (u.lock lock).autoExpire = true at hauto
      rw [hactive] at hmem
      rw [(hlock lock hmem).1] at hauto
      show u.now < t.nextDeadline op lock + 2 ^ 31
      rw [hnow, (hlock lock hmem).2]
      exact h.fresh lock hmem hauto
    · intro hne hall
      change u.activeWakeLocks .suspend ≠ [] at hne
      change ∀ lock ∈ u.activeWakeLocks .suspend, (u.lock lock).autoExpire = true at hall
      show ∃ lock ∈ u.activeWakeLocks .suspend,
        (∀ other ∈ u.activeWakeLocks .suspend, t.nextDeadline op other ≤ t.nextDeadline op lock) ∧
          u.expireTimer = some ⟨(u.lock lock).expires, t.nextDeadline op lock⟩
      rw [hactive] at hne hall ⊢
      obtain ⟨last, hlast, hmax, hset⟩ := h.armed hne fun lock hmem => by
        rw [← (hlock lock hmem).1]
        exact hall lock hmem
      refine ⟨last, hlast, ?_, ?_⟩
      · intro other hmem
        rw [(hlock other hmem).2, (hlock last hlast).2]
        exact hmax other hmem
      · rw [htimer, (hlock last hlast).1, (hlock last hlast).2]
        exact hset
    · intro hempty
      change u.activeWakeLocks .suspend = [] at hempty
      rcases h.remembered (hactive ▸ hempty) with hsettled | hpending
      · exact .inl ⟨not_held_of_empty hempty, .inr hsettled⟩
      · exact .inr (by show u.expireTimer ≠ none; rwa [htimer])
  | advance ticks hstate =>
    subst hstate
    refine ⟨hprompt, h.armed, ?_⟩
    intro hempty
    exact (h.remembered hempty).imp_left fun hsettled =>
      ⟨not_held_of_empty hempty, .inr hsettled⟩
  | scan _ ret hscan hlater =>
    have harmed := hscan.stays_armed hlinked h.fresh h.armed
    have hfresh := hscan.fresh h.fresh
    rw [← hlater] at harmed hfresh
    refine ⟨hfresh, harmed, ?_⟩
    intro hempty
    change u.activeWakeLocks .suspend = [] at hempty
    show _ ∨ u.expireTimer ≠ none
    rw [hscan.timer]
    by_cases hbefore : t.state.activeWakeLocks .suspend = []
    · exact (h.remembered hbefore).imp_left fun hsettled =>
        ⟨not_held_of_empty hempty, .inr hsettled⟩
    · obtain ⟨last, -, -, hset⟩ := h.armed hbefore (hscan.all_auto (by simp [hempty]))
      exact .inr (by simp [hset])
  | rescan _ m v ret hmid hfresh hcalls hscan hstate =>
    subst hstate
    refine ⟨?_, hscan.armed_update hmid (hfresh h.fresh), ?_⟩
    · intro lock
      show lock ∈ (updateTimer v ret).activeWakeLocks .suspend →
        ((updateTimer v ret).lock lock).autoExpire = true →
          (updateTimer v ret).now < t.nextDeadline op lock + 2 ^ 31
      rw [update_timer_active, update_timer_lock, update_timer_now]
      exact hscan.fresh (hfresh h.fresh) lock
    · intro hempty
      have hfree : ¬ Held (updateTimer v ret) (t.nextDeadline op) := not_held_of_empty hempty
      refine .inl ⟨hfree, .inl ?_⟩
      rw [hscan.queued_update hmid (hfresh h.fresh) hfree, hcalls]
      exact Nat.lt_succ_self _
  | hold _ lock _ hfresh hmem hauto =>
    refine ⟨hfresh h.fresh, ?_, ?_⟩
    · intro _ hall
      exact absurd (hauto.symm.trans (hall lock hmem)) (by decide)
    · intro hempty
      exact absurd hempty (List.ne_nil_of_mem hmem)
  | fire timer v ret htimer hdue hscan hstate =>
    obtain ⟨hret, hempty⟩ :=
      fire_empties hlinked hstopped h.fresh h.armed htimer hdue hscan
    rw [if_pos hret] at hstate
    subst hstate
    have hempty' : v.queueWork.activeWakeLocks .suspend = [] := hempty
    refine ⟨?_, fun hne => absurd hempty' hne, fun _ => .inl ⟨not_held_of_empty hempty', .inl ?_⟩⟩
    · intro lock hmem
      change lock ∈ v.activeWakeLocks .suspend at hmem
      rw [hempty] at hmem
      exact absurd hmem List.not_mem_nil
    · show t.state.queueCalls < v.queueCalls + 1
      rw [hscan.calls]
      exact Nat.lt_succ_self _

/-- The timer covers the expiring locks in every state a prompt run reaches. -/
theorem reaches_punctual {now : Nat} (hrun : Reaches TimedStep Prompt (Timed.start now) t) :
    (Linked t.state t.deadline ∧ Stopped t.state) ∧ Punctual t := by
  have hstart : Linked (Timed.start now).state (Timed.start now).deadline ∧
      Stopped (Timed.start now).state := reaches_linked (Reaches.refl _)
  refine hrun.invariant
    (fun t => (Linked t.state t.deadline ∧ Stopped t.state) ∧ Punctual t) ?_ ⟨hstart, ?_⟩
  · intro s op t hinv hprompt hstep
    obtain ⟨u, hstep, rfl⟩ := hstep
    obtain ⟨⟨hlinked, hstopped⟩, hpunctual⟩ := hinv
    have heffect := step_effect hlinked hstep
    exact ⟨⟨heffect.linked hlinked, heffect.stopped hstopped⟩,
      heffect.punctual hprompt hlinked hstopped hpunctual⟩
  · refine ⟨?_, ?_, ?_⟩
    · simp [Fresh, Timed.start, init]
    · simp [Armed, Timed.start, init]
    · simp [Timed.start, init]

/-! ## The protocol -/

/-- The traced state after a list of events. -/
def Timed.run (t : Timed) : List Op → Option Timed
  | [] => some t
  | op :: ops => (step t.state op).bind fun s => (t.next op s).run ops

/-- Executing events that all meet a guard is a run. -/
theorem Timed.reaches_of_run (ok : Timed → Op → Prop) (t : Timed) (ops : List Op) {u : Timed}
    (hok : ∀ t, ∀ op ∈ ops, ok t op) (hrun : t.run ops = some u) :
    Reaches TimedStep ok t u := by
  induction ops generalizing t with
  | nil =>
    cases hrun
    exact Reaches.refl _
  | cons op ops ih =>
    obtain ⟨s, hstep, hrest⟩ := Option.bind_eq_some_iff.mp hrun
    have hfirst : Reaches TimedStep ok t (t.next op s) :=
      (Reaches.refl t).tail ⟨s, hstep, rfl⟩ (hok t op List.mem_cons_self)
    exact Relation.ReflTransGen.trans hfirst
      (ih _ (fun t op hmem => hok t op (List.mem_cons_of_mem _ hmem)) hrest)

/-- In every run, the timer is not pending while a suspend lock that does not expire is active,
and suspend is not entered while an unexpired one is held. In every run that leaves no expired
suspend lock active for 2^31 jiffies, the timer is pending for the latest expiry when all active
suspend locks expire, an event that leaves no unexpired lock queues the suspend work, and while
none is held the work has been queued or the timer is pending. -/
theorem suspend_neither_early_nor_forgotten {now : Nat}
    (hrun : Reaches TimedStep anyStep (Timed.start now) t) :
    ((∃ lock ∈ t.state.activeWakeLocks .suspend, (t.state.lock lock).autoExpire = false) →
        t.state.expireTimer = none) ∧
      ((suspend t.state).2 = true → ¬ Held t.state t.deadline) ∧
      (Reaches TimedStep Prompt (Timed.start now) t →
        (t.state.activeWakeLocks .suspend ≠ [] →
          (∀ lock ∈ t.state.activeWakeLocks .suspend, (t.state.lock lock).autoExpire = true) →
            ∃ lock ∈ t.state.activeWakeLocks .suspend,
              (∀ other ∈ t.state.activeWakeLocks .suspend,
                t.deadline other ≤ t.deadline lock) ∧
              t.state.expireTimer = some ⟨(t.state.lock lock).expires, t.deadline lock⟩) ∧
        (∀ op u, OnSuspendLock t op → TimedStep t op u → ¬ Held u.state u.deadline →
          u.state.queueCalls = t.state.queueCalls + 1) ∧
        (¬ Held t.state t.deadline → t.settled ∨ t.state.expireTimer ≠ none)) := by
  obtain ⟨hlinked, hstopped⟩ := reaches_linked hrun
  refine ⟨hstopped, ?_, ?_⟩
  · intro hsuspend
    have hmid : Linked { t.state with suspendWork := false } t.deadline :=
      hlinked.congr rfl rfl rfl
    have hscan := has_wake_lock_scanned .suspend hmid.distinct
    have hzero : (hasWakeLockLocked { t.state with suspendWork := false } .suspend).2 = 0 := by
      simpa [suspend] using hsuspend
    rw [hzero] at hscan
    exact hscan.not_held_of_zero hmid
  intro hprompt
  obtain ⟨-, hpunctual⟩ := reaches_punctual hprompt
  refine ⟨hpunctual.armed, ?_, ?_⟩
  · intro op u hop hstep hfree
    obtain ⟨s, hstep, rfl⟩ := hstep
    exact (step_effect hlinked hstep).queued hlinked hstopped hpunctual hop hfree
  intro hfree
  by_cases hempty : t.state.activeWakeLocks .suspend = []
  · exact hpunctual.remembered hempty
  · have hall : ∀ lock ∈ t.state.activeWakeLocks .suspend,
        (t.state.lock lock).autoExpire = true := by
      intro lock hmem
      by_contra hnot
      exact hfree ⟨lock, hmem, .inl (by simpa using hnot)⟩
    obtain ⟨last, -, -, hset⟩ := hpunctual.armed hempty hall
    exact .inr (by simp [hset])

/-- A prompt run that leaves one expiring lock active: the timer is pending for it. -/
theorem suspend_neither_early_nor_forgotten_one_lock :
    ∃ t : Timed,
      (Timed.start 0).run [.init 2 .suspend, .lockTimeout 2 10, .unlock 0] = some t ∧
        t.state.activeWakeLocks .suspend = [2] ∧ t.state.expireTimer = some ⟨10, 10⟩ := by
  refine ⟨_, rfl, rfl, ?_⟩
  have hprompt := Timed.reaches_of_run Prompt (Timed.start 0)
    [.init 2 .suspend, .lockTimeout 2 10, .unlock 0] (by simp [Prompt]) rfl
  have hany := Timed.reaches_of_run anyStep (Timed.start 0)
    [.init 2 .suspend, .lockTimeout 2 10, .unlock 0] (by simp [anyStep]) rfl
  obtain ⟨-, -, h⟩ := suspend_neither_early_nor_forgotten hany
  obtain ⟨lock, hmem, -, htimer⟩ := (h hprompt).1 (by decide) (by decide)
  cases List.mem_singleton.mp hmem
  exact htimer

/-- An expired lock that stayed active behind `main_wake_lock` for 2^31 jiffies looks unexpired
when the latter is released, and the suspend work is not queued. -/
theorem stale_lock_postpones_suspend :
    ¬ ∀ t op u, Reaches TimedStep anyStep (Timed.start 0) t → OnSuspendLock t op →
      TimedStep t op u → ¬ Held u.state u.deadline →
        u.state.queueCalls = t.state.queueCalls + 1 := by
  intro h
  have hrun := Timed.reaches_of_run anyStep (Timed.start 0)
    [.init 2 .suspend, .lockTimeout 2 10, .advance (2 ^ 31 + 20)] (by simp [anyStep]) rfl
  have hcalls := h _ (.unlock 0) _ hrun rfl ⟨_, rfl, rfl⟩ (by
    intro hheld
    obtain ⟨lock, hmem, hopen⟩ := hheld
    cases List.mem_singleton.mp hmem
    revert hopen
    decide)
  revert hcalls
  decide

end AndroidKernel.Wakelock
