import AndroidKernel.Alarm.Model
import AndroidKernel.Alarm.Timespec

/-!
# Elapsed realtime over changes of the clock

`ANDROID_ALARM_SET_RTC` and `ANDROID_ALARM_GET_TIME` of `drivers/rtc/alarm.c` in the arithmetic of
`struct timespec`. The offset of elapsed realtime moves before `do_settimeofday` has looked at the
new time, and it stays moved when that fails.
-/

namespace AndroidKernel.Alarm

/-- The variables of the driver, the clocks it reads, and the alarm its RTC was programmed with in
seconds. `queued` of a timer is the expiry it was started with. -/
structure Alarms where
  enabled : AlarmType → Bool
  pending : AlarmBit → Bool
  alarmTime : AlarmType → Timespec
  timer : AlarmType → Hrtimer
  elapsedRtcDelta : Timespec
  wall : Timespec
  monotonic : Timespec
  rtcAlarm : Option Nat

/-- `EINVAL`. -/
def einval : Int := 22

/-- `alarm_late_init`. -/
def Alarms.lateInit (wall monotonic : Timespec) : Alarms where
  enabled := fun _ => false
  pending := fun _ => false
  alarmTime := fun _ => ⟨0, 0⟩
  timer := fun _ => { queued := none, running := false }
  elapsedRtcDelta := timespecSub wall monotonic
  wall := wall
  monotonic := monotonic
  rtcAlarm := none

/-- The time `alarm_start_hrtimer` starts a timer for. -/
def Alarms.hrAlarmTime (alarms : Alarms) (type : AlarmType) : Timespec :=
  if type.isElapsed then timespecAdd (alarms.alarmTime type) alarms.elapsedRtcDelta
  else alarms.alarmTime type

/-- `alarm_start_hrtimer`, as it changes one timer. -/
def Alarms.startHrtimer (alarms : Alarms) (type : AlarmType) : Hrtimer :=
  if alarms.enabled type then
    { alarms.timer type with queued := some (timespecToKtime (alarms.hrAlarmTime type)) }
  else alarms.timer type

/-- `do_settimeofday`. -/
def doSettimeofday (wall tv : Timespec) : Timespec × Int :=
  if tv.tvNsec % 2 ^ 32 ≥ 1000000000 then (wall, -einval) else (tv, 0)

/-- The loop of `ANDROID_ALARM_SET_RTC` that cancels the timers of the realtime clock. -/
def Alarms.cancelTimers (alarms : Alarms) : Alarms :=
  { alarms with
    timer := fun type =>
      if type = .systemtime then alarms.timer type else (alarms.timer type).tryToCancel }

/-- Its loop that starts them again. -/
def Alarms.startTimers (alarms : Alarms) : Alarms :=
  { alarms with
    timer := fun type =>
      if type = .systemtime then alarms.timer type else alarms.startHrtimer type }

/-- `ANDROID_ALARM_SET_RTC` of a time that could be read; `rtcSetTime` is what `rtc_set_time`
returns. -/
def Alarms.setRtc (alarms : Alarms) (newRtcTime : Timespec) (rtcSetTime : Int) : Alarms × Int :=
  let alarms := alarms.cancelTimers
  let elapsedRtcDelta :=
    timespecSub alarms.elapsedRtcDelta (timespecSub alarms.wall newRtcTime)
  let (wall, rv) := doSettimeofday alarms.wall newRtcTime
  let alarms := { alarms with elapsedRtcDelta := elapsedRtcDelta, wall := wall }.startTimers
  if rv < 0 then (alarms, rv)
  else ({ alarms with pending := Function.update alarms.pending .timeChange true }, rtcSetTime)

/-- `ANDROID_ALARM_GET_TIME`. -/
def Alarms.getTime (alarms : Alarms) (type : AlarmType) : Timespec :=
  if type = .systemtime then alarms.monotonic
  else if type.isElapsed then timespecSub alarms.wall alarms.elapsedRtcDelta
  else alarms.wall

/-- What happens to the driver: time flows, an alarm is set or cleared or fires, the clock is
set. -/
inductive AlarmsOp where
  | flow (ns : Nat)
  | set (type : AlarmType) (sec nsec : Int)
  | clear (type : AlarmType)
  | fire (type : AlarmType)
  | setRtc (sec nsec rtcSetTime : Int)

/-- One of these. -/
def Alarms.step (alarms : Alarms) : AlarmsOp → Alarms
  | .flow ns =>
    { alarms with
      wall := timespecAddNs alarms.wall ns
      monotonic := timespecAddNs alarms.monotonic ns }
  | .set type sec nsec =>
    let alarms := { alarms with
      alarmTime := Function.update alarms.alarmTime type (.ofLongs sec nsec)
      enabled := Function.update alarms.enabled type true }
    { alarms with timer := Function.update alarms.timer type (alarms.startHrtimer type) }
  | .clear type =>
    { alarms with
      timer := Function.update alarms.timer type (alarms.timer type).tryToCancel
      pending := Function.update alarms.pending (.alarm type) false
      enabled := Function.update alarms.enabled type false }
  | .fire type =>
    let alarms := { alarms with
      timer := Function.update alarms.timer type { queued := none, running := false } }
    if alarms.enabled type then
      { alarms with
        enabled := Function.update alarms.enabled type false
        pending := Function.update alarms.pending (.alarm type) true }
    else alarms
  | .setRtc sec nsec rtcSetTime => (alarms.setRtc (.ofLongs sec nsec) rtcSetTime).1

/-- The driver after a sequence of them. -/
def Alarms.run (alarms : Alarms) (ops : List AlarmsOp) : Alarms :=
  ops.foldl Alarms.step alarms

/-- When the timer of an alarm is to expire: at the time of the alarm, or for one in elapsed
realtime as much later as the wall clock is ahead of elapsed realtime. -/
def Alarms.due (alarms : Alarms) (type : AlarmType) : Timespec :=
  if type.isElapsed then
    timespecAdd (alarms.alarmTime type)
      (timespecSub (alarms.getTime .rtc) (alarms.getTime .elapsedRealtime))
  else alarms.alarmTime type

/-- Both clocks of elapsed realtime are normalized. -/
structure Alarms.Normal (alarms : Alarms) : Prop where
  wall : alarms.wall.Normal
  delta : alarms.elapsedRtcDelta.Normal

variable {alarms : Alarms} {newRtcTime : Timespec} {rtcSetTime : Int}

theorem timespecSub_normal (lhs rhs : Timespec) : (timespecSub lhs rhs).Normal :=
  (setNormalizedTimespec_shows _ _).normal

/-- The new time that `do_settimeofday` takes is normalized. -/
theorem doSettimeofday_normal {wall : Timespec} (sec nsec : Int) (h : wall.Normal) :
    (doSettimeofday wall (.ofLongs sec nsec)).1.Normal := by
  unfold doSettimeofday
  split_ifs with hbad
  · exact h
  · obtain ⟨hlo, hhi⟩ := long_range sec
    obtain ⟨hnlo, hnhi⟩ := long_range nsec
    have hgood : ¬ long nsec % 2 ^ 32 ≥ 1000000000 := hbad
    refine ⟨hlo, hhi, ?_, ?_⟩
    · show 0 ≤ long nsec
      omega
    · show long nsec < 1000000000
      omega

theorem setRtc_wall : (alarms.setRtc newRtcTime rtcSetTime).1.wall =
    (doSettimeofday alarms.wall newRtcTime).1 := by
  unfold Alarms.setRtc
  dsimp only
  split_ifs <;> rfl

theorem setRtc_delta : (alarms.setRtc newRtcTime rtcSetTime).1.elapsedRtcDelta =
    timespecSub alarms.elapsedRtcDelta (timespecSub alarms.wall newRtcTime) := by
  unfold Alarms.setRtc
  dsimp only
  split_ifs <;> rfl

theorem Alarms.Normal.step (h : alarms.Normal) (op : AlarmsOp) : (alarms.step op).Normal := by
  cases op with
  | flow ns => exact ⟨timespecAddNs_normal _ _, h.delta⟩
  | set type sec nsec => exact ⟨h.wall, h.delta⟩
  | clear type => exact ⟨h.wall, h.delta⟩
  | fire type =>
    unfold Alarms.step
    dsimp only
    split_ifs
    · exact ⟨h.wall, h.delta⟩
    · exact ⟨h.wall, h.delta⟩
  | setRtc sec nsec rtcSetTime =>
    refine ⟨?_, ?_⟩
    · show (alarms.setRtc _ _).1.wall.Normal
      rw [setRtc_wall]
      exact doSettimeofday_normal sec nsec h.wall
    · show (alarms.setRtc _ _).1.elapsedRtcDelta.Normal
      rw [setRtc_delta]
      exact timespecSub_normal _ _

theorem Alarms.Normal.run (h : alarms.Normal) (ops : List AlarmsOp) : (alarms.run ops).Normal := by
  induction ops generalizing alarms with
  | nil => exact h
  | cons op ops ih => exact ih (h.step op)

/-- The wall clock less elapsed realtime is the offset. -/
theorem sub_getTime (h : alarms.Normal) :
    timespecSub (alarms.getTime .rtc) (alarms.getTime .elapsedRealtime) =
      alarms.elapsedRtcDelta := by
  have hwall := h.wall.shows
  have hdelta := h.delta.shows
  have helapsed := timespecSub_shows hwall hdelta
  refine ((timespecSub_shows hwall helapsed).eq_iff hdelta).mpr ⟨0, ?_⟩
  omega

theorem startTimers_timer {type : AlarmType} (htype : type ≠ .systemtime)
    (henabled : alarms.enabled type = true) :
    (alarms.startTimers.timer type).queued =
      some (timespecToKtime (alarms.hrAlarmTime type)) := by
  unfold Alarms.startTimers
  dsimp only
  rw [if_neg htype, Alarms.startHrtimer, if_pos henabled]

/-- Every enabled alarm of the realtime clock is restarted. -/
theorem setRtc_timer {type : AlarmType} (htype : type ≠ .systemtime)
    (henabled : (alarms.setRtc newRtcTime rtcSetTime).1.enabled type = true) :
    ((alarms.setRtc newRtcTime rtcSetTime).1.timer type).queued =
      some (timespecToKtime ((alarms.setRtc newRtcTime rtcSetTime).1.hrAlarmTime type)) := by
  unfold Alarms.setRtc at henabled ⊢
  dsimp only at henabled ⊢
  split_ifs at henabled ⊢
  · exact startTimers_timer htype henabled
  · exact startTimers_timer htype henabled

/-- Elapsed realtime survives a call if and only if the clock takes the new time, or the new time
is the current one in another form. -/
theorem getTime_setRtc (h : alarms.Normal) (sec nsec : Int) :
    timespecSub (alarms.setRtc (.ofLongs sec nsec) rtcSetTime).1.wall
        (alarms.setRtc (.ofLongs sec nsec) rtcSetTime).1.elapsedRtcDelta =
      timespecSub alarms.wall alarms.elapsedRtcDelta ↔
      (0 ≤ long nsec ∧ long nsec < 1000000000) ∨
        timespecSub alarms.wall (.ofLongs sec nsec) = ⟨0, 0⟩ := by
  obtain ⟨hnlo, hnhi⟩ := long_range nsec
  have hwall := h.wall.shows
  have hdelta := h.delta.shows
  have hbefore := timespecSub_shows hwall hdelta
  rw [setRtc_wall, setRtc_delta]
  have hnormal := doSettimeofday_normal sec nsec h.wall
  unfold doSettimeofday at hnormal ⊢
  by_cases hbad : (Timespec.ofLongs sec nsec).tvNsec % 2 ^ 32 ≥ 1000000000
  · rw [if_pos hbad]
    have hno : ¬ (0 ≤ long nsec ∧ long nsec < 1000000000) := by
      have hbad' : long nsec % 2 ^ 32 ≥ 1000000000 := hbad
      omega
    have hmove := (timespecSub_normal alarms.wall (.ofLongs sec nsec)).shows
    have hzero : (⟨0, 0⟩ : Timespec).Shows 0 :=
      ⟨⟨by decide, by decide, by decide, by decide⟩, 0, by decide⟩
    rw [(timespecSub_shows hwall (timespecSub_shows hdelta hmove)).eq_iff hbefore,
      hmove.eq_iff hzero]
    constructor
    · rintro ⟨turns, hturns⟩
      exact .inr ⟨turns, by omega⟩
    · rintro (hgood | ⟨turns, hturns⟩)
      · exact absurd hgood hno
      · exact ⟨turns, by omega⟩
  · rw [if_neg hbad] at hnormal ⊢
    have hnew := hnormal.shows
    have hgood : ¬ long nsec % 2 ^ 32 ≥ 1000000000 := hbad
    have hafter := timespecSub_shows hnew (timespecSub_shows hdelta (timespecSub_shows hwall hnew))
    exact ⟨fun _ => .inl (by omega), fun _ => (hafter.eq_iff hbefore).mpr ⟨0, by omega⟩⟩

end AndroidKernel.Alarm
