import AndroidKernel.Alarm.SetRtc

/-!
# Suspending with wakeup alarms

`alarm_suspend` and `alarm_resume`, between which no timer fires. The RTC wakes the system at a
whole second that is kept in an `unsigned long`: an alarm due before the first second of the RTC
becomes one far in the future. The RTC counts seconds; its calendar form, to which and from which
every number of 32 bits converts, is left out.
-/

namespace AndroidKernel.Alarm

/-- What `alarm_suspend` finds: whether `alarm_wake_lock` is active, the RTC at its two reads, and
`xtime`. -/
structure Suspending where
  wakeLockActive : Bool
  rtcTime : Nat
  rtcTimeAgain : Nat
  xtime : Timespec
  rtcTime_lt : rtcTime < 2 ^ 32
  rtcTimeAgain_lt : rtcTimeAgain < 2 ^ 32
  xtime_normal : xtime.Normal

/-- `EBUSY`. -/
def ebusy : Int := 16

/-- The types in `ANDROID_ALARM_WAKEUP_MASK`. -/
def AlarmType.isWakeup : AlarmType → Bool
  | .rtcWakeup | .elapsedRealtimeWakeup => true
  | _ => false

/-- `alarm_pending` is not zero. -/
def Alarms.anyPending (alarms : Alarms) : Bool :=
  alarms.pending .timeChange || AlarmType.all.any fun type => alarms.pending (.alarm type)

/-- `alarm_enabled & ANDROID_ALARM_WAKEUP_MASK`. -/
def Alarms.anyWakeup (alarms : Alarms) : Bool :=
  alarms.enabled .rtcWakeup || alarms.enabled .elapsedRealtimeWakeup

/-- `hrtimer_cancel` of the timer of an enabled alarm. -/
def Alarms.cancelEnabled (alarms : Alarms) (type : AlarmType) : Alarms :=
  if alarms.enabled type then
    { alarms with
      timer := Function.update alarms.timer type { alarms.timer type with queued := none } }
  else alarms

/-- `alarm_start_hrtimer`. -/
def Alarms.start (alarms : Alarms) (type : AlarmType) : Alarms :=
  { alarms with timer := Function.update alarms.timer type (alarms.startHrtimer type) }

/-- `rtc_set_alarm`. Where all of the argument is zero there is no date in it, and
`rtc_valid_tm` rejects it. -/
def Alarms.rtcSetAlarm (alarms : Alarms) (time : Option Nat) : Alarms :=
  match time with
  | none => alarms
  | some time => { alarms with rtcAlarm := some time }

/-- `save_time_delta` with the first read of the RTC, stored in a `time_t`. -/
def Suspending.rtcDelta (call : Suspending) : Timespec :=
  setNormalizedTimespec (call.xtime.tvSec - long call.rtcTime) (call.xtime.tvNsec - 0)

/-- The alarm of the two that `alarm_suspend` programs the RTC for. -/
def Alarms.rtcAlarmTimespec (alarms : Alarms) : Timespec :=
  let elapsedRealtimeAlarmTime :=
    timespecAdd (alarms.alarmTime .elapsedRealtimeWakeup) alarms.elapsedRtcDelta
  if alarms.enabled .rtcWakeup && (!alarms.enabled .elapsedRealtimeWakeup ||
      timespecCompare (alarms.alarmTime .rtcWakeup) elapsedRealtimeAlarmTime < 0) then
    alarms.alarmTime .rtcWakeup
  else elapsedRealtimeAlarmTime

/-- `alarm_suspend`. -/
def Alarms.suspend (alarms : Alarms) (call : Suspending) : Alarms × Int :=
  if alarms.anyPending && !call.wakeLockActive then (alarms, -ebusy)
  else if alarms.anyWakeup then
    let alarms := (alarms.cancelEnabled .rtcWakeup).cancelEnabled .elapsedRealtimeWakeup
    let rtcAlarmTime :=
      ((timespecSub alarms.rtcAlarmTimespec call.rtcDelta).tvSec % 2 ^ 32).toNat
    let alarms := alarms.rtcSetAlarm (some rtcAlarmTime)
    if (call.rtcTimeAgain + 1) % 2 ^ 32 ≥ rtcAlarmTime then
      let alarms := alarms.rtcSetAlarm none
      ((alarms.start .rtcWakeup).start .elapsedRealtimeWakeup, -ebusy)
    else (alarms, 0)
  else (alarms, 0)

/-- `alarm_resume`. -/
def Alarms.resume (alarms : Alarms) : Alarms :=
  if alarms.anyWakeup then
    ((alarms.rtcSetAlarm none).start .rtcWakeup).start .elapsedRealtimeWakeup
  else alarms

/-- When an alarm is due by the RTC, in nanoseconds: as long after the first read as the time of
its timer is after `xtime`. -/
def Alarms.dueInRtc (alarms : Alarms) (call : Suspending) (type : AlarmType) : Int :=
  (alarms.hrAlarmTime type).ns - (call.xtime.ns - call.rtcTime * 1000000000)

/-- The timers of the enabled wakeup alarms are armed. -/
def Alarms.WakeupArmed (alarms : Alarms) : Prop :=
  ∀ type, type.isWakeup = true → alarms.enabled type = true →
    (alarms.timer type).queued = some (timespecToKtime (alarms.hrAlarmTime type))

/-- The RTC is programmed for its future, and not for later than an enabled wakeup alarm. -/
def Alarms.WakesInTime (alarms : Alarms) (call : Suspending) : Prop :=
  ∃ time, alarms.rtcAlarm = some time ∧ call.rtcTimeAgain < time ∧
    ∀ type, type.isWakeup = true → alarms.enabled type = true →
      (time : Int) * 1000000000 ≤ alarms.dueInRtc call type

variable {alarms : Alarms} {call : Suspending} {lhs rhs ts : Timespec} {x y : Int}

theorem Timespec.Shows.congr (h : ts.Shows x) (turns : Int)
    (heq : x = y + 2 ^ 32 * 1000000000 * turns) : ts.Shows y := by
  obtain ⟨hnormal, more, hmore⟩ := h
  exact ⟨hnormal, more + turns, by omega⟩

theorem rtcDelta_shows (call : Suspending) :
    call.rtcDelta.Shows (call.xtime.ns - call.rtcTime * 1000000000) := by
  obtain ⟨hseclo, hsechi, hlo, hhi⟩ := call.xtime_normal
  obtain ⟨turns, hturns⟩ := long_wraps call.rtcTime
  have hnsec : long call.xtime.tvNsec = call.xtime.tvNsec := long_eq (by omega) (by omega)
  refine (setNormalizedTimespec_shows _ _).congr (-turns) ?_
  rw [Int.sub_zero, hnsec]
  unfold Timespec.ns
  omega

/-- The seconds of a time that is not before zero, as an `unsigned long`, are not after it. -/
theorem ulong_sec_le (h : ts.Shows x) (hpos : 0 ≤ x) :
    ((ts.tvSec % 2 ^ 32).toNat : Int) * 1000000000 ≤ x := by
  obtain ⟨⟨_, _, hlo, hhi⟩, turns, hturns⟩ := h
  unfold Timespec.ns at hturns
  omega

/-- The comparison of normalized times. -/
theorem timespecCompare_neg (hleft : lhs.Normal) (hright : rhs.Normal) :
    timespecCompare lhs rhs < 0 ↔ lhs.ns < rhs.ns := by
  obtain ⟨_, _, _, _⟩ := hleft
  obtain ⟨_, _, _, _⟩ := hright
  unfold timespecCompare Timespec.ns
  split_ifs
  · omega
  · omega
  · rw [long_eq (by omega) (by omega)]
    omega

/-- The RTC is programmed for the earlier alarm. -/
theorem rtcAlarmTimespec_earliest
    (hnormal : alarms.enabled .rtcWakeup = true → (alarms.alarmTime .rtcWakeup).Normal)
    (hwakeup : alarms.anyWakeup = true) :
    alarms.rtcAlarmTimespec.Normal ∧
      (∃ type, type.isWakeup = true ∧ alarms.enabled type = true ∧
        alarms.rtcAlarmTimespec = alarms.hrAlarmTime type) ∧
      ∀ type, type.isWakeup = true → alarms.enabled type = true →
        alarms.rtcAlarmTimespec.ns ≤ (alarms.hrAlarmTime type).ns := by
  have helapsed : (alarms.hrAlarmTime .elapsedRealtimeWakeup).Normal :=
    (setNormalizedTimespec_shows _ _).normal
  have hpick : alarms.rtcAlarmTimespec =
      if alarms.enabled .rtcWakeup && (!alarms.enabled .elapsedRealtimeWakeup ||
        timespecCompare (alarms.hrAlarmTime .rtcWakeup)
          (alarms.hrAlarmTime .elapsedRealtimeWakeup) < 0) then
        alarms.hrAlarmTime .rtcWakeup
      else alarms.hrAlarmTime .elapsedRealtimeWakeup := rfl
  have hrtc : alarms.enabled .rtcWakeup = true → (alarms.hrAlarmTime .rtcWakeup).Normal := hnormal
  rw [hpick]
  unfold Alarms.anyWakeup at hwakeup
  cases hfirst : alarms.enabled .rtcWakeup with
  | false =>
    rw [hfirst, Bool.false_or] at hwakeup
    simp only [Bool.false_and, Bool.false_eq_true, if_false]
    refine ⟨helapsed, ⟨_, rfl, hwakeup, rfl⟩, fun type htype henabled => ?_⟩
    cases type with
    | rtcWakeup => cases hfirst.symm.trans henabled
    | elapsedRealtimeWakeup => exact Int.le_refl _
    | _ => cases htype
  | true =>
    have hcompare := timespecCompare_neg (hrtc hfirst) helapsed
    cases hsecond : alarms.enabled .elapsedRealtimeWakeup with
    | false =>
      simp only [Bool.true_and, Bool.not_false, Bool.true_or, if_true]
      refine ⟨hrtc hfirst, ⟨_, rfl, hfirst, rfl⟩, fun type htype henabled => ?_⟩
      cases type with
      | rtcWakeup => exact Int.le_refl _
      | elapsedRealtimeWakeup => cases hsecond.symm.trans henabled
      | _ => cases htype
    | true =>
      simp only [Bool.true_and, Bool.not_true, Bool.false_or, decide_eq_true_eq, hcompare]
      split_ifs with hless
      · refine ⟨hrtc hfirst, ⟨_, rfl, hfirst, rfl⟩, fun type htype _ => ?_⟩
        cases type with
        | rtcWakeup => exact Int.le_refl _
        | elapsedRealtimeWakeup => exact Int.le_of_lt hless
        | _ => cases htype
      · refine ⟨helapsed, ⟨_, rfl, hsecond, rfl⟩, fun type htype _ => ?_⟩
        cases type with
        | rtcWakeup => exact Int.not_lt.mp hless
        | elapsedRealtimeWakeup => exact Int.le_refl _
        | _ => cases htype

/-- Starting the two timers arms the enabled ones. -/
theorem start_armed : ((alarms.start .rtcWakeup).start .elapsedRealtimeWakeup).WakeupArmed := by
  intro type htype henabled
  have henabled : alarms.enabled type = true := henabled
  cases type with
  | rtcWakeup =>
    show (Alarms.startHrtimer alarms .rtcWakeup).queued = _
    rw [Alarms.startHrtimer, if_pos henabled]
    rfl
  | elapsedRealtimeWakeup =>
    show (Alarms.startHrtimer (alarms.start .rtcWakeup) .elapsedRealtimeWakeup).queued = _
    have hstarted : (alarms.start .rtcWakeup).enabled .elapsedRealtimeWakeup = true := henabled
    rw [Alarms.startHrtimer, if_pos hstarted]
    rfl
  | _ => cases htype

/-- What cancelling and programming leave of the alarms. -/
structure Alarms.SameAlarms (before after : Alarms) : Prop where
  enabled : after.enabled = before.enabled
  alarmTime : after.alarmTime = before.alarmTime
  delta : after.elapsedRtcDelta = before.elapsedRtcDelta

theorem cancelEnabled_same (alarms : Alarms) (type : AlarmType) :
    alarms.SameAlarms (alarms.cancelEnabled type) := by
  unfold Alarms.cancelEnabled
  split_ifs
  · exact ⟨rfl, rfl, rfl⟩
  · exact ⟨rfl, rfl, rfl⟩

theorem Alarms.SameAlarms.hrAlarmTime {after : Alarms} (h : alarms.SameAlarms after) :
    after.hrAlarmTime = alarms.hrAlarmTime := by
  funext type
  unfold Alarms.hrAlarmTime
  rw [h.alarmTime, h.delta]

theorem Alarms.SameAlarms.rtcAlarmTimespec {after : Alarms} (h : alarms.SameAlarms after) :
    after.rtcAlarmTimespec = alarms.rtcAlarmTimespec := by
  unfold Alarms.rtcAlarmTimespec
  rw [h.enabled, h.alarmTime, h.delta]

/-- A suspend with an enabled wakeup alarm: the RTC is programmed, and it goes on if and only if
that is not the next second of the RTC or an earlier one; otherwise the timers are started
again. -/
theorem suspend_wakeup (hwakeup : alarms.anyWakeup = true)
    (hpending : ¬ (alarms.anyPending && !call.wakeLockActive) = true) :
    ∃ programmed : Alarms, alarms.SameAlarms programmed ∧
      programmed.rtcAlarm =
        some ((timespecSub alarms.rtcAlarmTimespec call.rtcDelta).tvSec % 2 ^ 32).toNat ∧
      alarms.suspend call =
        if (call.rtcTimeAgain + 1) % 2 ^ 32 ≥
            ((timespecSub alarms.rtcAlarmTimespec call.rtcDelta).tvSec % 2 ^ 32).toNat then
          ((programmed.start .rtcWakeup).start .elapsedRealtimeWakeup, -ebusy)
        else (programmed, 0) := by
  have hfirst := cancelEnabled_same alarms .rtcWakeup
  have hsecond := cancelEnabled_same (alarms.cancelEnabled .rtcWakeup) .elapsedRealtimeWakeup
  have hsame : alarms.SameAlarms
      ((alarms.cancelEnabled .rtcWakeup).cancelEnabled .elapsedRealtimeWakeup) :=
    ⟨hsecond.enabled.trans hfirst.enabled, hsecond.alarmTime.trans hfirst.alarmTime,
      hsecond.delta.trans hfirst.delta⟩
  refine ⟨((alarms.cancelEnabled .rtcWakeup).cancelEnabled .elapsedRealtimeWakeup).rtcSetAlarm
    (some ((timespecSub alarms.rtcAlarmTimespec call.rtcDelta).tvSec % 2 ^ 32).toNat),
    ⟨hsame.enabled, hsame.alarmTime, hsame.delta⟩, rfl, ?_⟩
  unfold Alarms.suspend
  rw [if_neg hpending, if_pos hwakeup]
  dsimp only
  rw [hsame.rtcAlarmTimespec]
  rfl

/-- No enabled wakeup alarm is due before the first second of the RTC, and the RTC is not in its
last one. -/
def Alarms.WithinRtc (alarms : Alarms) (call : Suspending) : Prop :=
  call.rtcTimeAgain + 1 < 2 ^ 32 ∧
    ∀ type, type.isWakeup = true → alarms.enabled type = true → 0 ≤ alarms.dueInRtc call type

/-- The comparison goes by normalized times, or the second it picks is not after any enabled
wakeup alarm all the same. -/
def Alarms.PicksEarliest (alarms : Alarms) (call : Suspending) : Prop :=
  (alarms.enabled .rtcWakeup = true → (alarms.alarmTime .rtcWakeup).Normal) ∨
    ∀ type, type.isWakeup = true → alarms.enabled type = true →
      (timespecSub alarms.rtcAlarmTimespec call.rtcDelta).tvSec % 2 ^ 32 * 1000000000 ≤
        alarms.dueInRtc call type

/-- A suspend that goes on with an enabled wakeup alarm wakes in time if and only if the alarms are
within the range of the RTC and the earliest is picked. -/
theorem suspend_wakesInTime (hzero : (alarms.suspend call).2 = 0)
    (hwakeup : alarms.anyWakeup = true) :
    (alarms.suspend call).1.WakesInTime call ↔
      alarms.WithinRtc call ∧ alarms.PicksEarliest call := by
  have hpending : ¬ (alarms.anyPending && !call.wakeLockActive) = true := fun hpending => by
    unfold Alarms.suspend at hzero
    rw [if_pos hpending] at hzero
    cases hzero
  obtain ⟨programmed, hsame, hrtc, hsuspend⟩ := suspend_wakeup hwakeup hpending
  have hlt := call.rtcTimeAgain_lt
  have hdueSame (type : AlarmType) : programmed.dueInRtc call type = alarms.dueInRtc call type := by
    unfold Alarms.dueInRtc
    rw [hsame.hrAlarmTime]
  rw [hsuspend] at hzero ⊢
  generalize hwake : timespecSub alarms.rtcAlarmTimespec call.rtcDelta = wake at hrtc hzero ⊢
  by_cases hsoon : (call.rtcTimeAgain + 1) % 2 ^ 32 ≥ (wake.tvSec % 2 ^ 32).toNat
  · rw [if_pos hsoon] at hzero
    cases hzero
  rw [if_neg hsoon]
  have hsec : ((wake.tvSec % 2 ^ 32).toNat : Int) = wake.tvSec % 2 ^ 32 :=
    Int.toNat_of_nonneg (Int.emod_nonneg _ (by omega))
  constructor
  · rintro ⟨time, htime, hlater, hdue⟩
    obtain rfl : (wake.tvSec % 2 ^ 32).toNat = time := Option.some.inj (hrtc.symm.trans htime)
    have hbefore {type : AlarmType} (htype : type.isWakeup = true)
        (henabled : alarms.enabled type = true) :
        wake.tvSec % 2 ^ 32 * 1000000000 ≤ alarms.dueInRtc call type := by
      rw [← hdueSame, ← hsec]
      exact hdue type htype (hsame.enabled ▸ henabled)
    refine ⟨⟨by omega, fun type htype henabled => ?_⟩, .inr fun type htype henabled => ?_⟩
    · have hle := hbefore htype henabled
      omega
    · rw [hwake]
      exact hbefore htype henabled
  · rintro ⟨⟨hlast, hdues⟩, hpicks⟩
    refine ⟨_, hrtc, by omega, fun type htype henabled => ?_⟩
    have henabled : alarms.enabled type = true := hsame.enabled ▸ henabled
    rw [hdueSame]
    rcases hpicks with hnormal | hpicks
    · obtain ⟨hpicked, ⟨picked, hpickedWakeup, hpickedEnabled, hpickedTime⟩, hearliest⟩ :=
        rtcAlarmTimespec_earliest hnormal hwakeup
      have hpickedDue := hdues picked hpickedWakeup hpickedEnabled
      rw [Alarms.dueInRtc, ← hpickedTime] at hpickedDue
      have hshows := timespecSub_shows hpicked.shows (rtcDelta_shows call)
      rw [hwake] at hshows
      have hbefore := ulong_sec_le hshows hpickedDue
      have hfirst := hearliest type htype henabled
      rw [Alarms.dueInRtc]
      omega
    · rw [hsec, ← hwake]
      exact hpicks type htype henabled

/-- A suspend a thousand seconds after the first second of the RTC. -/
def suspending : Suspending where
  wakeLockActive := false
  rtcTime := 1000
  rtcTimeAgain := 1000
  xtime := ⟨1000, 500000000⟩
  rtcTime_lt := by decide
  rtcTimeAgain_lt := by decide
  xtime_normal := ⟨by decide, by decide, by decide, by decide⟩

end AndroidKernel.Alarm
