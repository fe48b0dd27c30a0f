import AndroidKernel.Library.Runs
import AndroidKernel.Library.Words

/-!
# The timer wheel

`internal_add_timer`, `__mod_timer`, `del_timer`, `cascade` and `__run_timers` on the wheel of one
CPU, and `__next_timer_interrupt`. `unsigned long` has 32 bits, and `small` is
`CONFIG_BASE_SMALL`. Level 0 stands for `tv1`, and levels 1 to 4 for `tv2` to `tv5`.
-/

namespace AndroidKernel.TimerWheel

open Library

/-- `struct timer_list`; the flag is the low bit of its `base`. -/
structure Timer where
  id : Nat
  expires : Nat
  deferrable : Bool
  deriving DecidableEq

/-- `TVR_BITS`. -/
def tvrBits (small : Bool) : Nat :=
  if small then 6 else 8

/-- `TVN_BITS`. -/
def tvnBits (small : Bool) : Nat :=
  if small then 4 else 6

/-- How far an expiry is shifted to get the bucket of a level. -/
def shift (small : Bool) : Nat → Nat
  | 0 => 0
  | k + 1 => tvrBits small + k * tvnBits small

/-- The number of bits that tell the buckets of a level apart. -/
def levelBits (small : Bool) : Nat → Nat
  | 0 => tvrBits small
  | _ + 1 => tvnBits small

/-- `(x >> shift) & mask`, at a level. -/
def bucket (small : Bool) (k x : Nat) : Nat :=
  x / 2 ^ shift small k % 2 ^ levelBits small k

/-- `struct tvec_base`: `vec k` are the lists of level `k`. -/
structure TvecBase where
  timerJiffies : Nat
  vec : Nat → Nat → List Timer

/-- The list to which `internal_add_timer` adds a timer. -/
def vecOf (small : Bool) (timerJiffies expires : Nat) : Nat × Nat :=
  let idx := wsub expires timerJiffies
  if idx < 2 ^ shift small 1 then (0, bucket small 0 expires)
  else if idx < 2 ^ shift small 2 then (1, bucket small 1 expires)
  else if idx < 2 ^ shift small 3 then (2, bucket small 2 expires)
  else if idx < 2 ^ shift small 4 then (3, bucket small 3 expires)
  -- the timer is to go off in the past
  else if 2 ^ 31 ≤ idx then (0, bucket small 0 timerJiffies)
  else
    let expires := if 0xffffffff < idx then wadd 0xffffffff timerJiffies else expires
    (4, bucket small 4 expires)

/-- `internal_add_timer`. -/
def internalAddTimer (small : Bool) (base : TvecBase) (timer : Timer) : TvecBase :=
  let place := vecOf small base.timerJiffies timer.expires
  { base with
    vec := Function.update base.vec place.1
      (Function.update (base.vec place.1) place.2 (base.vec place.1 place.2 ++ [timer])) }

/-- `list_replace_init` on a list of the wheel. -/
def replaceInit (base : TvecBase) (k index : Nat) : List Timer × TvecBase :=
  (base.vec k index,
    { base with vec := Function.update base.vec k (Function.update (base.vec k) index []) })

/-- `cascade`. -/
def cascade (small : Bool) (base : TvecBase) (k index : Nat) : TvecBase :=
  let (tvList, base) := replaceInit base k index
  tvList.foldl (internalAddTimer small) base

/-- The cascades of an iteration of `__run_timers`, from level `k` on for `n` levels at most. The
next level is cascaded if the index at this one was 0. -/
def cascades (small : Bool) (base : TvecBase) : Nat → Nat → TvecBase
  | _, 0 => base
  | k, n + 1 =>
    let index := bucket small k base.timerJiffies
    let base := cascade small base k index
    if index = 0 then cascades small base (k + 1) n else base

/-- An iteration of the loop of `__run_timers` until the handlers run, with the list of the timers
to be run. -/
def runTimersIteration (small : Bool) (base : TvecBase) : List Timer × TvecBase :=
  let index := bucket small 0 base.timerJiffies
  let base := if index = 0 then cascades small base 1 4 else base
  replaceInit { base with timerJiffies := wadd base.timerJiffies 1 } 0 index

/-- `detach_timer` for a pending timer: it leaves the list it is in. -/
def detachTimer (base : TvecBase) (id : Nat) : TvecBase :=
  { base with vec := fun k index => (base.vec k index).filter fun timer => timer.id ≠ id }

/-- The wheel, `jiffies`, and the `work_list` of a running `__run_timers`. -/
structure State where
  base : TvecBase
  jiffies : Nat
  workList : List Timer

/-- What can happen. A handler runs while the rest of the work list waits, and what it does are
steps of their own. -/
inductive Op
  | modTimer (timer : Timer)
  | delTimer (id : Nat)
  | tick
  | iteration
  | run (timer : Timer)

/-- `del_timer`. -/
def delTimer (s : State) (id : Nat) : State :=
  { s with
    base := detachTimer s.base id
    workList := s.workList.filter fun timer => timer.id ≠ id }

/-- `__mod_timer`, with the timer as it is to be. -/
def modTimer (small : Bool) (s : State) (timer : Timer) : State :=
  let s := delTimer s timer.id
  { s with base := internalAddTimer small s.base timer }

/-- One step. -/
inductive Step (small : Bool) (s : State) : Op → State → Prop
  | modTimer (timer : Timer) (hexpires : timer.expires < word) :
      Step small s (.modTimer timer) (modTimer small s timer)
  | delTimer (id : Nat) : Step small s (.delTimer id) (delTimer s id)
  | tick : Step small s .tick { s with jiffies := wadd s.jiffies 1 }
  | iteration (hidle : s.workList = [])
      (hdue : 0 ≤ signedDiff s.jiffies s.base.timerJiffies) :
      Step small s .iteration
        { s with
          base := (runTimersIteration small s.base).2
          workList := (runTimersIteration small s.base).1 }
  | run (timer : Timer) (rest : List Timer) (hnext : s.workList = timer :: rest) :
      Step small s (.run timer) { s with workList := rest }

/-- `init_timers_cpu`: an empty wheel. -/
def State.initial (jiffies : Nat) : State where
  base := ⟨jiffies, fun _ _ => []⟩
  jiffies := jiffies
  workList := []

/-! ## The next timer interrupt -/

/-- `NEXT_TIMER_MAX_DELTA`. -/
def nextTimerMaxDelta : Nat :=
  2 ^ 30 - 1

/-- `time_before`. -/
def timeBefore (a b : Nat) : Bool :=
  decide (signedDiff a b < 0)

/-- The loop over the lists of `tv1` from `slot` on, for `n` lists: the list and the expiry of the
first timer that is not deferrable. -/
def searchTv1 (small : Bool) (base : TvecBase) : Nat → Nat → Option (Nat × Nat)
  | 0, _ => none
  | n + 1, slot =>
    match (base.vec 0 slot).find? fun timer => !timer.deferrable with
    | some timer => some (slot, timer.expires)
    | none => searchTv1 small base n ((slot + 1) % 2 ^ tvrBits small)

/-- The loop over a list of `tv2` to `tv5`. -/
def earlier (timers : List Timer) (expires : Nat) : Nat :=
  timers.foldl (fun expires timer =>
    if timeBefore timer.expires expires then timer.expires else expires) expires

/-- The loop over the lists of a level from `slot` on, for `n` lists: the list at which something
has been found, and `expires`. -/
def searchLevel (small : Bool) (base : TvecBase) (k : Nat) (found : Bool) :
    Nat → Nat → Nat → Option Nat × Nat
  | 0, _, expires => (none, expires)
  | n + 1, slot, expires =>
    let expires := earlier (base.vec k slot) expires
    if found || !(base.vec k slot).isEmpty then (some slot, expires)
    else searchLevel small base k found n ((slot + 1) % 2 ^ tvnBits small) expires

/-- `timer_jiffies` at the next level, rounded up to the next cascade of a level. -/
def nextCascade (small : Bool) (k timerJiffies : Nat) : Nat :=
  let index := timerJiffies % 2 ^ levelBits small k
  (if index ≠ 0 then wadd timerJiffies (2 ^ levelBits small k - index) else timerJiffies) /
    2 ^ levelBits small k

/-- The loop over the levels from `k` on, for `n` levels. -/
def searchLevels (small : Bool) (base : TvecBase) : Nat → Nat → Nat → Bool → Nat → Nat
  | 0, _, _, _, expires => expires
  | n + 1, k, timerJiffies, found, expires =>
    let index := timerJiffies % 2 ^ tvnBits small
    match searchLevel small base k found (2 ^ tvnBits small) index expires with
    | (some slot, expires) =>
      if index = 0 ∨ slot < index then
        searchLevels small base n (k + 1) (nextCascade small k timerJiffies) true expires
      else expires
    | (none, expires) =>
      searchLevels small base n (k + 1) (nextCascade small k timerJiffies) found expires

/-- `__next_timer_interrupt`. -/
def nextTimerInterrupt (small : Bool) (base : TvecBase) : Nat :=
  let index := base.timerJiffies % 2 ^ tvrBits small
  let timerJiffies := nextCascade small 0 base.timerJiffies
  match searchTv1 small base (2 ^ tvrBits small) index with
  | some (slot, expires) =>
    if index = 0 ∨ slot < index then searchLevels small base 4 1 timerJiffies true expires
    else expires
  | none =>
    searchLevels small base 4 1 timerJiffies false (wadd base.timerJiffies nextTimerMaxDelta)

/-- What `hrtimer_get_next_event` says: no event, one that is due, or one in so many jiffies. -/
inductive HrDelta
  | none
  | expired
  | jiffies (delta : Nat)

/-- `cmp_next_hrtimer_event`. -/
def cmpNextHrtimerEvent (hrDelta : HrDelta) (now expires : Nat) : Nat :=
  match hrDelta with
  | .none => expires
  | .expired => wadd now 1
  | .jiffies delta =>
    let delta := if nextTimerMaxDelta < delta then nextTimerMaxDelta else delta
    let delta := if delta < 1 then 1 else delta
    let now := wadd now delta
    if timeBefore now expires then now else expires

/-- `get_next_timer_interrupt`. -/
def getNextTimerInterrupt (small : Bool) (base : TvecBase) (hrDelta : HrDelta) (now : Nat) : Nat :=
  let expires := nextTimerInterrupt small base
  if 0 ≤ signedDiff now expires then now else cmpNextHrtimerEvent hrDelta now expires

end AndroidKernel.TimerWheel
