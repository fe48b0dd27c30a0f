import AndroidKernel.Alarm.Timers
import AndroidKernel.Library.Runs

/-!
# Runs of the alarm driver

An enabled alarm always has its timer queued or its handler running, and a bit that is added to
`alarm_pending` is returned once. An alarm may however go off early: a handler that waits for the
lock while a set of its type passes finds the new alarm enabled, and takes it for its own. In runs
without such sets no alarm goes off before its time.
-/

namespace AndroidKernel.Alarm

open Library

variable {watched next : Watched} {driver : Driver} {op : AlarmOp} {type : AlarmType}

/-- One step of a watched driver, as a relation. -/
def AlarmStep (watched : Watched) (op : AlarmOp) (next : Watched) : Prop :=
  watched.step op = some next

/-- A set meets no running handler of its type, or asks for a time that has been reached; and it
is not made in elapsed realtime while the clock is being set. -/
def Watched.Settled (watched : Watched) (op : AlarmOp) : Prop :=
  ∀ type time, op = .set type time →
    ((watched.driver.timer type).running = true →
      time ≤ watched.driver.reading watched.readDelta type) ∧
    (type.isElapsed = true → watched.driver.setRtc.isBegun = false)

/-- An enabled alarm has its timer queued or its handler running, but where its timer is
cancelled for a change of the clock. -/
def Driver.Armed (driver : Driver) : Prop :=
  ∀ type, driver.enabled type = true → (driver.timer type).queued ≠ none ∨
    (driver.timer type).running = true ∨ type ≠ .systemtime ∧ driver.setRtc.isStopped = true

/-- Every bit added to `alarm_pending` is still there, or was returned or dropped once. -/
def Watched.Balanced (watched : Watched) : Prop :=
  ∀ type, watched.added type = watched.returned type + watched.dropped type +
    if watched.driver.pending (.alarm type) then 1 else 0

/-- A handler that finds its alarm enabled comes at or after its time; a queued timer of an
enabled alarm expires at its time. -/
structure Watched.Timely (watched : Watched) : Prop where
  due : ∀ type, (watched.driver.timer type).running = true →
    watched.driver.enabled type = true → watched.reached type = true
  queued : ∀ type expires, watched.driver.enabled type = true →
    (watched.driver.timer type).queued = some expires →
    (watched.driver.timer type).running = false →
    expires = watched.driver.hrAlarmTime type ∧
      (type.isElapsed = true → watched.driver.setRtc.isBegun = false)
  delta : watched.driver.setRtc.isBegun = false →
    watched.readDelta = watched.driver.elapsedRtcDelta

theorem armed_step (hcancel : driver.CancelsDisabled) {after : Driver} (h : driver.Armed)
    (hstep : driver.step op = some after) : after.Armed := by
  intro type henabled
  cases step_effect hcancel hstep type with
  | same hsame htime htimer hexpiry hbegun hstopped =>
    rw [htimer]
    rcases h type (hsame ▸ henabled) with hqueued | hrunning | ⟨htype, hstop⟩
    · exact .inl hqueued
    · exact .inr (.inl hrunning)
    · exact .inr (.inr ⟨htype, hstopped htype hstop⟩)
  | expired expires hqueued hdue hidle hnext =>
    subst hnext
    simp
  | off hoff => exact absurd (hoff.symm.trans henabled) (by simp)
  | set time hop hnext =>
    subst hnext
    simp [Driver.set, Driver.startHrtimer]
  | cancelled hsame htimer htype hstopped => exact .inr (.inr ⟨htype, hstopped⟩)
  | restarted hsame htimer =>
    rw [htimer, Driver.startHrtimer, if_pos (hsame ▸ henabled)]
    exact .inl (by simp)

/-- A type that has reached its time keeps that until it is set again. -/
theorem reached_next {after : Driver} (hreached : watched.reached type = true)
    (hsets : op.sets type = false) : (watched.next op after).reached type = true := by
  simp [Watched.next, hreached, hsets]

/-- A type whose clock shows its time has reached it. -/
theorem reached_of_reading {after : Driver}
    (h : after.alarmTime type ≤ after.reading (watched.next op after).readDelta type) :
    (watched.next op after).reached type = true := by
  show ((watched.reached type && !op.sets type) || decide _) = true
  rw [Bool.or_eq_true, decide_eq_true_eq]
  exact .inr h

/-- The recorded offset is the old one or the present one. -/
theorem next_readDelta (after : Driver) :
    (watched.next op after).readDelta = after.elapsedRtcDelta ∨
      (watched.next op after).readDelta = watched.readDelta := by
  cases op with
  | setRtcTime => exact .inl rfl
  | _ => exact .inr rfl

/-- While the clock is not being set, the recorded offset goes with it. -/
theorem readDelta_step {after : Driver} (h : watched.Timely)
    (hstep : watched.driver.step op = some after) (hbegun : after.setRtc.isBegun = false) :
    (watched.next op after).readDelta = after.elapsedRtcDelta := by
  rcases next_readDelta after with hnow | hold
  · exact hnow
  · rcases (step_sections hstep).2 with ⟨done, rfl⟩ | htrue | ⟨hsame, hbefore⟩
    · rfl
    · exact absurd (htrue.symm.trans hbegun) (by simp)
    · rw [hold, hsame]
      exact h.delta (hbefore ▸ hbegun)

/-- A timer that has expired at the time of its alarm: the clock shows that time. -/
theorem reading_of_expired {readDelta : Int} (hdue : driver.hrAlarmTime type ≤ driver.clock type)
    (hdelta : type.isElapsed = true → readDelta = driver.elapsedRtcDelta) :
    driver.alarmTime type ≤ driver.reading readDelta type := by
  unfold Driver.hrAlarmTime at hdue
  unfold Driver.reading
  by_cases helapsed : type.isElapsed = true
  · have hclock : driver.clock type = driver.now := by
      unfold Driver.clock
      rw [if_neg]
      rintro rfl
      cases helapsed
    rw [if_pos helapsed, hclock] at hdue
    rw [if_pos helapsed, hdelta helapsed]
    omega
  · rw [if_neg helapsed] at hdue ⊢
    exact hdue

/-- A set that meets a running handler asks for a time that has been reached. -/
theorem due_of_set {after : Driver} {time : Int} (hok : watched.Settled (.set type time))
    (hstep : watched.driver.step (.set type time) = some after)
    (hrunning : (after.timer type).running = true) :
    (watched.next (.set type time) after).reached type = true := by
  have hset : after = watched.driver.set type time := by
    simp only [Driver.step, if_pos (set_opened hstep)] at hstep
    exact (Option.some.inj hstep).symm
  subst hset
  have hbefore : (watched.driver.timer type).running = true := by
    simpa [Driver.set, Driver.startHrtimer] using hrunning
  apply reached_of_reading
  show Function.update watched.driver.alarmTime type time type ≤ _
  rw [Function.update_self]
  exact (hok type time rfl).1 hbefore

theorem timely_step (hcancel : watched.driver.CancelsDisabled) {after : Driver}
    (h : watched.Timely) (hok : watched.Settled op) (hstep : watched.driver.step op = some after) :
    (watched.next op after).Timely where
  due := by
    intro type hrunning henabled
    change (after.timer type).running = true at hrunning
    change after.enabled type = true at henabled
    by_cases hsets : op.sets type = true
    · cases op with
      | set other time =>
        obtain rfl : other = type := by simpa [AlarmOp.sets] using hsets
        exact due_of_set hok hstep hrunning
      | _ => cases hsets
    have hkeep : op.sets type = false := by simpa using hsets
    cases step_effect hcancel hstep type with
    | same hsame htime htimer =>
      exact reached_next (h.due type (htimer ▸ hrunning) (hsame ▸ henabled)) hkeep
    | expired expires hqueued hdue hidle hnext =>
      subst hnext
      obtain ⟨rfl, hbegun⟩ := h.queued type expires henabled hqueued hidle
      exact reached_of_reading (reading_of_expired hdue fun helapsed =>
        readDelta_step h hstep (hbegun helapsed))
    | off hoff => exact absurd (hoff.symm.trans henabled) (by simp)
    | set time hop => exact absurd (by simp [hop, AlarmOp.sets]) hsets
    | cancelled hsame htimer =>
      rw [htimer, (tryToCancel_spec _).1] at hrunning
      exact reached_next (h.due type hrunning (hsame ▸ henabled)) hkeep
    | restarted hsame htimer =>
      rw [htimer, Driver.startHrtimer, if_pos (hsame ▸ henabled)] at hrunning
      exact reached_next (h.due type hrunning (hsame ▸ henabled)) hkeep
  queued := by
    intro type expires henabled hqueued hidle
    change after.enabled type = true at henabled
    change (after.timer type).queued = some expires at hqueued
    change (after.timer type).running = false at hidle
    show expires = after.hrAlarmTime type ∧ (type.isElapsed = true → after.setRtc.isBegun = false)
    cases step_effect hcancel hstep type with
    | same hsame htime htimer hexpiry hbegun =>
      rw [htimer] at hqueued hidle
      obtain ⟨htime', hnot⟩ := h.queued type expires (hsame ▸ henabled) hqueued hidle
      refine ⟨htime'.trans hexpiry.symm, fun helapsed => ?_⟩
      by_contra htrue
      have hbefore := hbegun helapsed (by simpa using htrue)
      exact absurd (hbefore.symm.trans (hnot helapsed)) (by simp)
    | expired expires' hqueued' hdue hidle' hnext =>
      subst hnext
      simp at hqueued
    | off hoff => exact absurd (hoff.symm.trans henabled) (by simp)
    | set time hop hnext =>
      subst hnext
      refine ⟨?_, fun helapsed => (hok type time hop).2 helapsed⟩
      simp only [Driver.set, Driver.startHrtimer, Function.update_self, if_true,
        Option.some.injEq] at hqueued
      exact hqueued.symm
    | cancelled hsame htimer =>
      rw [htimer, (tryToCancel_spec _).1] at hidle
      rw [htimer, (tryToCancel_spec _).2 hidle] at hqueued
      cases hqueued
    | restarted hsame htimer hexpiry hbegun =>
      rw [htimer, Driver.startHrtimer, if_pos (hsame ▸ henabled)] at hqueued
      exact ⟨(Option.some.inj hqueued).symm.trans hexpiry.symm, fun _ => hbegun⟩
  delta := readDelta_step h hstep

theorem balanced_step {after : Driver} (h : watched.Balanced)
    (hstep : watched.driver.step op = some after) : (watched.next op after).Balanced := by
  intro type
  have hbefore := h type
  have hafter := step_pending hstep type
  simp only [Watched.next]
  by_cases htake : op = .waitTake
  · subst htake
    simp only [AlarmOp.drops, true_or, if_true] at hafter
    by_cases hbit : watched.driver.pending (.alarm type) = true
    · simp [hafter, hbit, AlarmOp.drops] at hbefore ⊢
      omega
    · simp [hafter, hbit, AlarmOp.drops] at hbefore ⊢
      omega
  by_cases hdrop : op.drops type = true
  · simp only [hdrop, or_true, if_true] at hafter
    by_cases hbit : watched.driver.pending (.alarm type) = true
    · simp [hafter, hbit, hdrop, htake] at hbefore ⊢
      omega
    · simp [hafter, hbit, htake] at hbefore ⊢
      omega
  by_cases hadd : op = .handle type ∧ watched.driver.enabled type = true
  · obtain ⟨rfl, henabled⟩ := hadd
    simp only [AlarmOp.drops, henabled, reduceCtorEq, Bool.false_eq_true, or_self, if_false,
      and_self, if_true] at hafter
    by_cases hbit : watched.driver.pending (.alarm type) = true
    · simp [hafter, hbit, AlarmOp.drops] at hbefore ⊢
      omega
    · simp [hafter, hbit, AlarmOp.drops] at hbefore ⊢
      omega
  · rw [if_neg (by simp [htake, hdrop]), if_neg hadd] at hafter
    by_cases hbit : watched.driver.pending (.alarm type) = true
    · simp [hafter, hbit, hdrop, htake] at hbefore ⊢
      omega
    · simp [hafter, hbit, htake] at hbefore ⊢
      omega

/-- In every run an enabled alarm has its timer queued or its handler running, outside the section
that sets the clock, and every bit added to `alarm_pending` is returned or dropped once. -/
theorem armed_and_balanced {now monotonic : Int}
    (hrun : Reaches AlarmStep anyStep (Watched.opened now monotonic) watched) :
    watched.driver.CancelsDisabled ∧ watched.driver.Armed ∧ watched.Balanced := by
  refine hrun.invariant (fun watched =>
    watched.driver.CancelsDisabled ∧ watched.driver.Armed ∧ watched.Balanced)
    (fun watched op next h _ hstep => ?_) ⟨nofun, nofun, fun type => rfl⟩
  obtain ⟨hcancel, harmed, hbalanced⟩ := h
  obtain ⟨driver, hdriver, rfl⟩ := Option.map_eq_some_iff.mp hstep
  exact ⟨cancelsDisabled_step hcancel hdriver, armed_step hcancel harmed hdriver,
    balanced_step hbalanced hdriver⟩

end AndroidKernel.Alarm
