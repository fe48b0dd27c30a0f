import Mathlib.Tactic.Common

/-!
# The alarm driver

`drivers/rtc/driver.c` on one open file. Each section under `alarm_slock` is one step, and so is
what happens between two of them: the passing of time, the expiry of a timer (the timer core
dequeues it and calls the handler, which then waits for the lock), the change of the clock in
the middle of `ANDROID_ALARM_SET_RTC`, the check of the wait condition, the end of
`hrtimer_cancel`. A timer whose handler is running is not started a second time.

Times are in nanoseconds. Wake locks, which the driver only takes and gives back, and suspend are
left out.
-/

namespace AndroidKernel.Alarm

/-- `enum android_alarm_type`. -/
inductive AlarmType where
  | rtcWakeup
  | rtc
  | elapsedRealtimeWakeup
  | elapsedRealtime
  | systemtime
  deriving DecidableEq

/-- The alarm types in the order of their numbers. -/
def AlarmType.all : List AlarmType :=
  [.rtcWakeup, .rtc, .elapsedRealtimeWakeup, .elapsedRealtime, .systemtime]

/-- The types set in elapsed realtime. -/
def AlarmType.isElapsed : AlarmType → Bool
  | .elapsedRealtimeWakeup | .elapsedRealtime => true
  | _ => false

/-- The bits of `alarm_pending`. -/
inductive AlarmBit where
  | alarm (type : AlarmType)
  | timeChange
  deriving DecidableEq

/-- An `hrtimer`: when it expires if it is queued, and whether its handler is running. -/
structure Hrtimer where
  queued : Option Int
  running : Bool

/-- The progress of `ANDROID_ALARM_SET_RTC` while it holds `alarm_setrtc_mutex`: the timers are
cancelled, the clock has been set or not, the timers are restarted. -/
inductive SetRtc where
  | free
  | begun (newRtcTime : Int)
  | timed (done : Bool)
  | restarted (done : Bool)

/-- The progress of `alarm_release` over the types. -/
inductive Release where
  | opened
  | clear (rest : List AlarmType)
  | cancel (type : AlarmType) (rest : List AlarmType)
  | closed
  deriving DecidableEq

/-- The variables of the driver, the realtime and the monotonic clock, and the threads in
`ANDROID_ALARM_WAIT`: `waiting` of them sleep, `woken` have seen `alarm_pending` set. -/
structure Driver where
  enabled : AlarmType → Bool
  pending : AlarmBit → Bool
  alarmTime : AlarmType → Int
  timer : AlarmType → Hrtimer
  elapsedRtcDelta : Int
  now : Int
  monotonic : Int
  waiting : Nat
  woken : Nat
  setRtc : SetRtc
  release : Release

/-- The steps. `ANDROID_ALARM_SET_AND_WAIT` is `set` and then `waitBegin`. -/
inductive AlarmOp where
  | tick (elapsed : Nat)
  | expire (type : AlarmType)
  | handle (type : AlarmType)
  | clear (type : AlarmType)
  | set (type : AlarmType) (time : Int)
  | waitBegin
  | waitSignal
  | waitWake
  | waitTake
  | setRtcBegin (newRtcTime : Int)
  | setRtcTime (done : Bool)
  | setRtcRestart
  | setRtcFinish
  | releaseBegin
  | releaseClear
  | releaseCancel
  | releaseEnd
  deriving DecidableEq

/-- The driver with no alarm set, its file opened for the first time. -/
def Driver.opened (now monotonic : Int) : Driver where
  enabled := fun _ => false
  pending := fun _ => false
  alarmTime := fun _ => 0
  timer := fun _ => { queued := none, running := false }
  elapsedRtcDelta := now - monotonic
  now := now
  monotonic := monotonic
  waiting := 0
  woken := 0
  setRtc := .free
  release := .opened

/-- The clock of a timer. -/
def Driver.clock (driver : Driver) (type : AlarmType) : Int :=
  if type = .systemtime then driver.monotonic else driver.now

/-- The expiry `alarm_start_hrtimer` computes for an alarm. -/
def Driver.hrAlarmTime (driver : Driver) (type : AlarmType) : Int :=
  if type.isElapsed then driver.alarmTime type + driver.elapsedRtcDelta else driver.alarmTime type

/-- `hrtimer_try_to_cancel`: without effect while the handler is running. -/
def Hrtimer.tryToCancel (timer : Hrtimer) : Hrtimer :=
  if timer.running then timer else { timer with queued := none }

/-- `alarm_start_hrtimer`, as it changes one timer. -/
def Driver.startHrtimer (driver : Driver) (type : AlarmType) : Hrtimer :=
  if driver.enabled type then { driver.timer type with queued := some (driver.hrAlarmTime type) }
  else driver.timer type

/-- `alarm_pending` is not zero. -/
def Driver.anyPending (driver : Driver) : Bool :=
  driver.pending .timeChange || AlarmType.all.any fun type => driver.pending (.alarm type)

/-- The timer core dequeues an expired timer and calls its handler. -/
def Driver.expire (driver : Driver) (type : AlarmType) : Option Driver :=
  match (driver.timer type).queued with
  | none => none
  | some expires =>
    if expires ≤ driver.clock type ∧ (driver.timer type).running = false then
      some { driver with
        timer := Function.update driver.timer type { queued := none, running := true } }
    else none

/-- The section of `alarm_timer_triggered`. -/
def Driver.handle (driver : Driver) (type : AlarmType) : Option Driver :=
  if (driver.timer type).running then
    let driver := { driver with
      timer := Function.update driver.timer type { driver.timer type with running := false } }
    if driver.enabled type then
      some { driver with
        enabled := Function.update driver.enabled type false
        pending := Function.update driver.pending (.alarm type) true }
    else some driver
  else none

/-- `ANDROID_ALARM_CLEAR`. -/
def Driver.clear (driver : Driver) (type : AlarmType) : Driver :=
  { driver with
    timer := Function.update driver.timer type (driver.timer type).tryToCancel
    pending := Function.update driver.pending (.alarm type) false
    enabled := Function.update driver.enabled type false }

/-- `ANDROID_ALARM_SET`. -/
def Driver.set (driver : Driver) (type : AlarmType) (time : Int) : Driver :=
  let driver := { driver with
    alarmTime := Function.update driver.alarmTime type time
    enabled := Function.update driver.enabled type true }
  { driver with timer := Function.update driver.timer type (driver.startHrtimer type) }

/-- The first section of `ANDROID_ALARM_SET_RTC`: cancel the timers of the realtime clock and
move the offset of elapsed realtime by as much as the clock will move. -/
def Driver.setRtcBegin (driver : Driver) (newRtcTime : Int) : Driver :=
  { driver with
    timer := fun type =>
      if type = .systemtime then driver.timer type else (driver.timer type).tryToCancel
    elapsedRtcDelta := driver.elapsedRtcDelta - (driver.now - newRtcTime)
    setRtc := .begun newRtcTime }

/-- Its second section: restart the timers. -/
def Driver.setRtcRestart (driver : Driver) (done : Bool) : Driver :=
  { driver with
    timer := fun type =>
      if type = .systemtime then driver.timer type else driver.startHrtimer type
    setRtc := .restarted done }

/-- One step; none where it cannot be taken. -/
def Driver.step (driver : Driver) : AlarmOp → Option Driver
  | .tick elapsed =>
    some { driver with now := driver.now + elapsed, monotonic := driver.monotonic + elapsed }
  | .expire type => driver.expire type
  | .handle type => driver.handle type
  | .clear type => if driver.release = .opened then some (driver.clear type) else none
  | .set type time => if driver.release = .opened then some (driver.set type time) else none
  | .waitBegin =>
    if driver.release = .opened then some { driver with waiting := driver.waiting + 1 } else none
  | .waitSignal =>
    -- a signal ends the wait with -ERESTARTSYS
    if 0 < driver.waiting then some { driver with waiting := driver.waiting - 1 } else none
  | .waitWake =>
    if 0 < driver.waiting ∧ driver.anyPending then
      some { driver with waiting := driver.waiting - 1, woken := driver.woken + 1 }
    else none
  | .waitTake =>
    if 0 < driver.woken then
      some { driver with woken := driver.woken - 1, pending := fun _ => false }
    else none
  | .setRtcBegin newRtcTime =>
    match driver.setRtc with
    | .free =>
      if driver.release = .opened then some (driver.setRtcBegin newRtcTime) else none
    | _ => none
  | .setRtcTime done =>
    match driver.setRtc with
    | .begun newRtcTime =>
      some { driver with now := if done then newRtcTime else driver.now, setRtc := .timed done }
    | _ => none
  | .setRtcRestart =>
    match driver.setRtc with
    | .timed done => some (driver.setRtcRestart done)
    | _ => none
  | .setRtcFinish =>
    match driver.setRtc with
    | .restarted done =>
      some { driver with
        pending := if done then Function.update driver.pending .timeChange true
          else driver.pending
        setRtc := .free }
    | _ => none
  | .releaseBegin =>
    -- the last reference to the file is gone: no thread is in an ioctl
    match driver.setRtc with
    | .free =>
      if driver.release = .opened ∧ driver.waiting = 0 ∧ driver.woken = 0 then
        some { driver with release := .clear AlarmType.all }
      else none
    | _ => none
  | .releaseClear =>
    match driver.release with
    | .clear (type :: rest) =>
      some { driver with
        enabled := Function.update driver.enabled type false
        release := .cancel type rest }
    | _ => none
  | .releaseCancel =>
    match driver.release with
    | .cancel type rest =>
      if (driver.timer type).running then none
      else
        some { driver with
          timer := Function.update driver.timer type { driver.timer type with queued := none }
          release := .clear rest }
    | _ => none
  | .releaseEnd =>
    match driver.release with
    | .clear [] => some { driver with pending := fun _ => false, release := .closed }
    | _ => none

end AndroidKernel.Alarm
