import AndroidKernel.Alarm.Model

/-!
# Alarms watched over a run

A driver with a record of its run: the offset of elapsed realtime that goes with the clock,
which types have reached the time of their latest set, and how often each pending bit was added,
returned and dropped. One step changes an alarm in few ways; what each does to an enabled alarm
and its timer is stated here.
-/

namespace AndroidKernel.Alarm

/-- A driver and the record of its run. -/
structure Watched where
  driver : Driver
  readDelta : Int
  reached : AlarmType → Bool
  added : AlarmType → Nat
  returned : AlarmType → Nat
  dropped : AlarmType → Nat

/-- The clock has been set, or is not being set: `elapsed_rtc_delta` goes with it. -/
def SetRtc.isBegun : SetRtc → Bool
  | .begun _ => true
  | _ => false

/-- The timers of the realtime clock are cancelled, and not yet restarted. -/
def SetRtc.isStopped : SetRtc → Bool
  | .begun _ | .timed _ => true
  | _ => false

/-- The clock of an alarm type, as `ANDROID_ALARM_GET_TIME` reads it outside the section that
sets the clock. -/
def Driver.reading (driver : Driver) (readDelta : Int) (type : AlarmType) : Int :=
  if type.isElapsed then driver.now - readDelta else driver.clock type

/-- The step sets an alarm of this type. -/
def AlarmOp.sets (op : AlarmOp) (type : AlarmType) : Bool :=
  match op with
  | .set other _ => other == type
  | _ => false

/-- The step drops the pending bit of this type. -/
def AlarmOp.drops (op : AlarmOp) (type : AlarmType) : Bool :=
  match op with
  | .clear other => other == type
  | .releaseEnd => true
  | _ => false

/-- The record after a step that leads to this driver. -/
def Watched.next (watched : Watched) (op : AlarmOp) (driver : Driver) : Watched :=
  let readDelta :=
    match op with
    | .setRtcTime _ => driver.elapsedRtcDelta
    | _ => watched.readDelta
  let before := fun type => watched.driver.pending (.alarm type)
  { driver := driver
    readDelta := readDelta
    reached := fun type => (watched.reached type && !op.sets type) ||
      decide (driver.alarmTime type ≤ driver.reading readDelta type)
    added := fun type => watched.added type +
      if op = .handle type ∧ before type = false ∧ driver.pending (.alarm type) then 1 else 0
    returned := fun type => watched.returned type +
      if op = .waitTake ∧ before type then 1 else 0
    dropped := fun type => watched.dropped type +
      if op.drops type ∧ before type then 1 else 0 }

/-- One step of a watched driver. -/
def Watched.step (watched : Watched) (op : AlarmOp) : Option Watched :=
  (watched.driver.step op).map (watched.next op)

/-- The file has just been opened. -/
def Watched.opened (now monotonic : Int) : Watched where
  driver := .opened now monotonic
  readDelta := now - monotonic
  reached := fun _ => false
  added := fun _ => 0
  returned := fun _ => 0
  dropped := fun _ => 0

variable {driver next : Driver} {op : AlarmOp} {type : AlarmType}

/-- A cancelled timer is not queued unless its handler is running, which it leaves running. -/
theorem tryToCancel_spec (timer : Hrtimer) : timer.tryToCancel.running = timer.running ∧
    (timer.running = false → timer.tryToCancel.queued = none) := by
  unfold Hrtimer.tryToCancel
  split_ifs with hrunning
  · exact ⟨rfl, fun hidle => absurd (hidle.symm.trans hrunning) (by simp)⟩
  · exact ⟨rfl, fun _ => rfl⟩

theorem expire_spec (h : driver.expire type = some next) :
    ∃ expires, (driver.timer type).queued = some expires ∧ expires ≤ driver.clock type ∧
      (driver.timer type).running = false ∧
      next = { driver with
        timer := Function.update driver.timer type { queued := none, running := true } } := by
  unfold Driver.expire at h
  cases hqueued : (driver.timer type).queued with
  | none => simp [hqueued] at h
  | some expires =>
    simp only [hqueued] at h
    split_ifs at h with hready
    exact ⟨expires, rfl, hready.1, hready.2, (Option.some.inj h).symm⟩

/-- What the section of a handler does: the type is not enabled afterwards, and only if it was
is its bit added. -/
theorem handle_spec (h : driver.handle type = some next) :
    (driver.timer type).running = true ∧
      next = { driver with
        timer := Function.update driver.timer type { driver.timer type with running := false }
        enabled := Function.update driver.enabled type false
        pending := if driver.enabled type then
          Function.update driver.pending (.alarm type) true else driver.pending } := by
  unfold Driver.handle at h
  by_cases hrunning : (driver.timer type).running = true
  · rw [if_pos hrunning] at h
    refine ⟨hrunning, ?_⟩
    by_cases henabled : driver.enabled type = true
    · simp only [henabled, if_true] at h ⊢
      exact (Option.some.inj h).symm
    · have hsame : Function.update driver.enabled type false = driver.enabled := by
        rw [Function.update_eq_self_iff]
        simpa using henabled
      simp only [henabled, if_false, Bool.false_eq_true, hsame] at h ⊢
      exact (Option.some.inj h).symm
  · rw [if_neg hrunning] at h
    cases h

/-- The ways one step changes the alarm of one type. -/
inductive Effect (driver next : Driver) (op : AlarmOp) (type : AlarmType) : Prop where
  /-- The alarm and its timer stay as they are. -/
  | same (henabled : next.enabled type = driver.enabled type)
      (htime : next.alarmTime type = driver.alarmTime type)
      (htimer : next.timer type = driver.timer type)
      (hexpiry : next.hrAlarmTime type = driver.hrAlarmTime type)
      (hbegun : type.isElapsed = true → next.setRtc.isBegun = true → driver.setRtc.isBegun = true)
      (hstopped : type ≠ .systemtime → driver.setRtc.isStopped = true →
        next.setRtc.isStopped = true)
  /-- The timer expires. -/
  | expired (expires : Int) (hqueued : (driver.timer type).queued = some expires)
      (hdue : expires ≤ driver.clock type) (hidle : (driver.timer type).running = false)
      (hnext : next = { driver with
        timer := Function.update driver.timer type { queued := none, running := true } })
  /-- The alarm is not enabled any more. -/
  | off (hoff : next.enabled type = false)
  /-- The alarm is set. -/
  | set (time : Int) (hop : op = .set type time) (hnext : next = driver.set type time)
  /-- The timer is cancelled for a change of the clock. -/
  | cancelled (henabled : next.enabled type = driver.enabled type)
      (htimer : next.timer type = (driver.timer type).tryToCancel)
      (htype : type ≠ .systemtime) (hstopped : next.setRtc.isStopped = true)
  /-- The timer is restarted after a change of the clock. -/
  | restarted (henabled : next.enabled type = driver.enabled type)
      (htimer : next.timer type = driver.startHrtimer type)
      (hexpiry : next.hrAlarmTime type = driver.hrAlarmTime type)
      (hbegun : next.setRtc.isBegun = false)

/-- `alarm_release` cancels the timer of a type it has disabled. -/
def Driver.CancelsDisabled (driver : Driver) : Prop :=
  ∀ type rest, driver.release = .cancel type rest → driver.enabled type = false

/-- What one step does to the alarm of a type. -/
theorem step_effect (hcancel : driver.CancelsDisabled) (h : driver.step op = some next)
    (type : AlarmType) : Effect driver next op type := by
  -- the steps that leave the alarms alone
  have hsame : next.enabled = driver.enabled → next.alarmTime = driver.alarmTime →
      next.timer = driver.timer → next.elapsedRtcDelta = driver.elapsedRtcDelta →
      (next.setRtc.isBegun = true → driver.setRtc.isBegun = true) →
      (driver.setRtc.isStopped = true → next.setRtc.isStopped = true) →
      Effect driver next op type := by
    intro henabled htime htimer hdelta hbegun hstopped
    exact .same (congrFun henabled _) (congrFun htime _) (congrFun htimer _)
      (by simp only [Driver.hrAlarmTime, htime, hdelta]) (fun _ => hbegun) (fun _ => hstopped)
  cases op with
  | tick elapsed =>
    obtain rfl := Option.some.inj h
    exact hsame rfl rfl rfl rfl id id
  | expire other =>
    obtain ⟨expires, hqueued, hdue, hidle, rfl⟩ := expire_spec h
    by_cases heq : type = other
    · subst heq
      exact .expired expires hqueued hdue hidle rfl
    · exact .same rfl rfl (Function.update_of_ne heq _ _) rfl (fun _ => id) (fun _ => id)
  | handle other =>
    obtain ⟨-, rfl⟩ := handle_spec h
    by_cases heq : type = other
    · subst heq
      exact .off (Function.update_self _ _ _)
    · exact .same (Function.update_of_ne heq _ _) rfl (Function.update_of_ne heq _ _) rfl
        (fun _ => id) (fun _ => id)
  | clear other =>
    simp only [Driver.step] at h
    split_ifs at h
    obtain rfl := Option.some.inj h
    by_cases heq : type = other
    · subst heq
      exact .off (Function.update_self _ _ _)
    · exact .same (Function.update_of_ne heq _ _) rfl (Function.update_of_ne heq _ _) rfl
        (fun _ => id) (fun _ => id)
  | set other time =>
    simp only [Driver.step] at h
    split_ifs at h
    obtain rfl := Option.some.inj h
    by_cases heq : type = other
    · subst heq
      exact .set time rfl rfl
    · have htime : (driver.set other time).alarmTime type = driver.alarmTime type :=
        Function.update_of_ne heq _ _
      refine .same (Function.update_of_ne heq _ _) htime (Function.update_of_ne heq _ _) ?_
        (fun _ => id) (fun _ => id)
      simp only [Driver.hrAlarmTime, htime]
      rfl
  | waitBegin =>
    simp only [Driver.step] at h
    split_ifs at h
    obtain rfl := Option.some.inj h
    exact hsame rfl rfl rfl rfl id id
  | waitSignal =>
    simp only [Driver.step] at h
    split_ifs at h
    obtain rfl := Option.some.inj h
    exact hsame rfl rfl rfl rfl id id
  | waitWake =>
    simp only [Driver.step] at h
    split_ifs at h
    obtain rfl := Option.some.inj h
    exact hsame rfl rfl rfl rfl id id
  | waitTake =>
    simp only [Driver.step] at h
    split_ifs at h
    obtain rfl := Option.some.inj h
    exact hsame rfl rfl rfl rfl id id
  | setRtcBegin newRtcTime =>
    cases hrtc : driver.setRtc with
    | free =>
      simp only [Driver.step, hrtc] at h
      split_ifs at h
      obtain rfl := Option.some.inj h
      by_cases htype : type = .systemtime
      · subst htype
        exact .same rfl rfl rfl rfl nofun (fun hne => absurd rfl hne)
      · exact .cancelled rfl (if_neg htype) htype rfl
    | begun | timed | restarted => simp [Driver.step, hrtc] at h
  | setRtcTime done =>
    cases hrtc : driver.setRtc with
    | begun newRtcTime =>
      simp only [Driver.step, hrtc] at h
      obtain rfl := Option.some.inj h
      exact hsame rfl rfl rfl rfl nofun (fun _ => rfl)
    | free | timed | restarted => simp [Driver.step, hrtc] at h
  | setRtcRestart =>
    cases hrtc : driver.setRtc with
    | timed done =>
      simp only [Driver.step, hrtc] at h
      obtain rfl := Option.some.inj h
      by_cases htype : type = .systemtime
      · subst htype
        exact .same rfl rfl rfl rfl nofun (fun hne => absurd rfl hne)
      · exact .restarted rfl (if_neg htype) rfl rfl
    | free | begun | restarted => simp [Driver.step, hrtc] at h
  | setRtcFinish =>
    cases hrtc : driver.setRtc with
    | restarted done =>
      simp only [Driver.step, hrtc] at h
      obtain rfl := Option.some.inj h
      exact hsame rfl rfl rfl rfl nofun (by simp [hrtc, SetRtc.isStopped])
    | free | begun | timed => simp [Driver.step, hrtc] at h
  | releaseBegin =>
    cases hrtc : driver.setRtc with
    | free =>
      simp only [Driver.step, hrtc] at h
      split_ifs at h
      obtain rfl := Option.some.inj h
      exact hsame rfl rfl rfl rfl nofun (by simp [hrtc, SetRtc.isStopped])
    | begun | timed | restarted => simp [Driver.step, hrtc] at h
  | releaseClear =>
    simp only [Driver.step] at h
    split at h
    · rename_i other rest hrelease
      obtain rfl := Option.some.inj h
      by_cases heq : type = other
      · subst heq
        exact .off (Function.update_self _ _ _)
      · exact .same (Function.update_of_ne heq _ _) rfl rfl rfl (fun _ => id) (fun _ => id)
    · cases h
  | releaseCancel =>
    simp only [Driver.step] at h
    split at h
    · rename_i other rest hrelease
      split_ifs at h
      obtain rfl := Option.some.inj h
      by_cases heq : type = other
      · subst heq
        exact .off (hcancel type rest hrelease)
      · exact .same rfl rfl (Function.update_of_ne heq _ _) rfl (fun _ => id) (fun _ => id)
    · cases h
  | releaseEnd =>
    simp only [Driver.step] at h
    split at h
    · obtain rfl := Option.some.inj h
      exact hsame rfl rfl rfl rfl id id
    · cases h

/-- How one step moves the release of the file. -/
def ReleaseStep (driver next : Driver) : Prop :=
  next.release = driver.release ∨
    (∃ type rest, next.release = .cancel type rest ∧ next.enabled type = false) ∨
    ∀ type rest, next.release ≠ .cancel type rest

/-- How one step moves the offset of elapsed realtime. -/
def DeltaStep (driver next : Driver) (op : AlarmOp) : Prop :=
  (∃ done, op = .setRtcTime done) ∨ next.setRtc.isBegun = true ∨
    next.elapsedRtcDelta = driver.elapsedRtcDelta ∧
      next.setRtc.isBegun = driver.setRtc.isBegun

theorem step_sections (h : driver.step op = some next) :
    ReleaseStep driver next ∧ DeltaStep driver next op := by
  cases op with
  | tick elapsed =>
    cases h
    exact ⟨.inl rfl, .inr (.inr ⟨rfl, rfl⟩)⟩
  | expire other =>
    obtain ⟨expires, -, -, -, rfl⟩ := expire_spec h
    exact ⟨.inl rfl, .inr (.inr ⟨rfl, rfl⟩)⟩
  | handle other =>
    obtain ⟨-, rfl⟩ := handle_spec h
    exact ⟨.inl rfl, .inr (.inr ⟨rfl, rfl⟩)⟩
  | clear | set | waitBegin | waitSignal | waitWake | waitTake =>
    simp only [Driver.step] at h
    split_ifs at h
    cases h
    exact ⟨.inl rfl, .inr (.inr ⟨rfl, rfl⟩)⟩
  | setRtcBegin =>
    simp only [Driver.step] at h
    split at h
    · split_ifs at h
      cases h
      exact ⟨.inl rfl, .inr (.inl rfl)⟩
    · cases h
  | setRtcTime done =>
    simp only [Driver.step] at h
    split at h
    · cases h
      exact ⟨.inl rfl, .inl ⟨done, rfl⟩⟩
    · cases h
  | setRtcRestart | setRtcFinish =>
    simp only [Driver.step] at h
    split at h
    · rename_i hrtc
      cases h
      exact ⟨.inl rfl, .inr (.inr ⟨rfl, by rw [hrtc]; rfl⟩)⟩
    · cases h
  | releaseBegin =>
    simp only [Driver.step] at h
    split at h
    · rename_i hrtc
      split_ifs at h
      cases h
      exact ⟨.inr (.inr nofun), .inr (.inr ⟨rfl, by rw [hrtc]⟩)⟩
    · cases h
  | releaseClear =>
    simp only [Driver.step] at h
    split at h
    · cases h
      exact ⟨.inr (.inl ⟨_, _, rfl, Function.update_self _ _ _⟩), .inr (.inr ⟨rfl, rfl⟩)⟩
    · cases h
  | releaseCancel =>
    simp only [Driver.step] at h
    split at h
    · split_ifs at h
      cases h
      exact ⟨.inr (.inr nofun), .inr (.inr ⟨rfl, rfl⟩)⟩
    · cases h
  | releaseEnd =>
    simp only [Driver.step] at h
    split at h
    · cases h
      exact ⟨.inr (.inr nofun), .inr (.inr ⟨rfl, rfl⟩)⟩
    · cases h

/-- Setting an alarm needs the file. -/
theorem set_opened {time : Int} (h : driver.step (.set type time) = some next) :
    driver.release = .opened := by
  simp only [Driver.step] at h
  split_ifs at h with hopened
  exact hopened

/-- An alarm is enabled by a set only. -/
theorem enabled_before (hcancel : driver.CancelsDisabled) (h : driver.step op = some next)
    (hreleased : driver.release ≠ .opened) (henabled : next.enabled type = true) :
    driver.enabled type = true := by
  cases step_effect hcancel h type with
  | same hsame | cancelled hsame | restarted hsame => exact hsame ▸ henabled
  | expired expires hqueued hdue hidle hnext =>
    subst hnext
    exact henabled
  | off hoff => exact absurd (hoff.symm.trans henabled) (by simp)
  | set time hop => exact absurd (set_opened (hop ▸ h)) hreleased

/-- Every step keeps disabled what is being cancelled. -/
theorem cancelsDisabled_step (hcancel : driver.CancelsDisabled) (h : driver.step op = some next) :
    next.CancelsDisabled := by
  intro type rest hrelease
  rcases (step_sections h).1 with hsame | ⟨type', rest', hrelease', hoff⟩ | hnot
  · rw [hsame] at hrelease
    by_contra henabled
    have hbefore := enabled_before hcancel h (by simp [hrelease]) (by simpa using henabled)
    exact absurd ((hcancel type rest hrelease).symm.trans hbefore) (by simp)
  · rw [hrelease'] at hrelease
    cases hrelease
    exact hoff
  · exact absurd hrelease (hnot type rest)

/-- How one step changes a bit of `alarm_pending`: the handler adds it, a completed wait, a clear
and the release take it. -/
theorem step_pending (h : driver.step op = some next) (type : AlarmType) :
    next.pending (.alarm type) =
      if op = .waitTake ∨ op.drops type = true then false
      else if op = .handle type ∧ driver.enabled type = true then true
      else driver.pending (.alarm type) := by
  cases op with
  | tick elapsed =>
    cases h
    simp [AlarmOp.drops]
  | expire other =>
    obtain ⟨expires, -, -, -, rfl⟩ := expire_spec h
    simp [AlarmOp.drops]
  | handle other =>
    obtain ⟨-, rfl⟩ := handle_spec h
    by_cases heq : other = type
    · subst heq
      by_cases henabled : driver.enabled other = true
      · simp [AlarmOp.drops, henabled]
      · simp [AlarmOp.drops, henabled]
    · have hne : AlarmBit.alarm type ≠ .alarm other := fun hbit => heq (by cases hbit; rfl)
      simp only [AlarmOp.drops, AlarmOp.handle.injEq, heq, reduceCtorEq, Bool.false_eq_true,
        or_self, false_and, if_false]
      split_ifs
      · exact Function.update_of_ne hne _ _
      · rfl
  | clear other =>
    simp only [Driver.step] at h
    split_ifs at h
    cases h
    by_cases heq : other = type
    · subst heq
      simp [AlarmOp.drops, Driver.clear]
    · have hne : AlarmBit.alarm type ≠ .alarm other := fun hbit => heq (by cases hbit; rfl)
      simp [AlarmOp.drops, heq, Driver.clear, hne]
  | set | waitBegin | waitSignal | waitWake | waitTake =>
    simp only [Driver.step] at h
    split_ifs at h
    cases h
    simp [AlarmOp.drops, Driver.set]
  | setRtcBegin | releaseBegin | releaseCancel =>
    simp only [Driver.step] at h
    split at h
    · split_ifs at h
      cases h
      simp [AlarmOp.drops, Driver.setRtcBegin]
    · cases h
  | setRtcTime | setRtcRestart | releaseClear | releaseEnd =>
    simp only [Driver.step] at h
    split at h
    · cases h
      simp [AlarmOp.drops, Driver.setRtcRestart]
    · cases h
  | setRtcFinish =>
    simp only [Driver.step] at h
    split at h
    · rename_i done hrtc
      cases h
      cases done with
      | true => simp [AlarmOp.drops]
      | false => simp [AlarmOp.drops]
    · cases h

end AndroidKernel.Alarm
