import AndroidKernel.Logger.Runs

/-!
# Writers that overlap

`logger_aio_write` samples the write offset before it takes the mutex and goes back to the
sampled offset when a user copy faults. A run of several writers therefore takes two steps for
each write. It keeps the ring as long as no faulting write finds the offset moved since its
sample; then it is a run of atomic writes.
-/

namespace AndroidKernel.Logger

open Library Library.Ring

/-- A traced log and, for every thread inside `logger_aio_write` that has not yet taken the
mutex, its value of `orig`. -/
structure Shared where
  traced : Traced
  sampled : Nat → Option Nat

/-- The steps of the threads: a write is entered and then carried out under the mutex, every
other call is one step. -/
inductive ThreadOp where
  | enter (tid : Nat)
  | finish (tid : Nat) (stamp : Nat → UInt8) (iovs : List Iovec)
  | call (op : Op)

/-- Whether the call is a write. -/
def Op.isWrite : Op → Bool
  | .write _ _ => true
  | _ => false

/-- One step of one thread. -/
def sharedStep (s : Shared) : ThreadOp → Option Shared
  | .enter tid =>
    match s.sampled tid with
    | none => some { s with sampled := Function.update s.sampled tid (some s.traced.log.wOff) }
    | some _ => none
  | .finish tid stamp iovs =>
    (s.sampled tid).map fun orig =>
      { traced := s.traced.after (loggerAioWrite s.traced.log orig stamp iovs).1
          (.write stamp iovs)
        sampled := Function.update s.sampled tid none }
  | .call op =>
    if op.isWrite then none
    else (step s.traced.log op).map fun log => { s with traced := s.traced.after log op }

/-- A step as a transition. -/
def SharedStep (s : Shared) (op : ThreadOp) (u : Shared) : Prop := sharedStep s op = some u

/-- No thread is inside a write, the log is empty. -/
def Shared.start (size : Nat) : Shared := ⟨Traced.start size, fun _ => none⟩

/-- The user copy faults at one of these elements, with `ret` bytes of the payload written. -/
def copyFaults (payload : Nat) : List Iovec → Nat → Bool
  | [], _ => false
  | iov :: rest, ret =>
    let len := min iov.data.length (payload - ret)
    (iov.fault.isSome && len ≠ 0) || copyFaults payload rest (ret + len)

/-- A step does not roll back over another write: the copy goes through, or the write offset is
the one that was sampled. -/
def RollsBack (s : Shared) : ThreadOp → Prop
  | .finish tid _ iovs => copyFaults (payloadLength iovs) iovs 0 = true →
      s.sampled tid = some s.traced.log.wOff
  | _ => True

variable {log : Log} {orig payload : Nat} {stamp : Nat → UInt8} {iovs : List Iovec}

/-- The loop fails exactly when a copy faults. -/
theorem write_segments_ok (log : Log) (ret : Nat) :
    (writeSegments payload iovs log ret).2 = !copyFaults payload iovs ret := by
  induction iovs generalizing log ret with
  | nil => rfl
  | cons iov rest ih =>
    simp only [writeSegments, doWriteLogFromUser, copyFaults]
    cases hfault : iov.fault with
    | none =>
      simp only [Option.isSome_none, Bool.false_and, Bool.false_or]
      exact ih _ _
    | some bytes =>
      by_cases hlen : min iov.data.length (payload - ret) = 0
      · simp only [hlen, if_true, Option.isSome_some, ne_eq, not_true_eq_false, decide_false,
          Bool.and_false, Bool.false_or]
        exact ih _ _
      · simp [hlen]

/-- Whether a write succeeds, by its vector. -/
theorem aio_write_ok (log : Log) (orig : Nat) (stamp : Nat → UInt8) (iovs : List Iovec) :
    (loggerAioWrite log orig stamp iovs).2 = !copyFaults (payloadLength iovs) iovs 0 := by
  unfold loggerAioWrite
  by_cases hpayload : payloadLength iovs = 0
  · have hnone : ∀ (rest : List Iovec) (ret : Nat), copyFaults 0 rest ret = false := by
      intro rest
      induction rest with
      | nil => exact fun _ => rfl
      | cons iov rest ih =>
        intro ret
        simp [copyFaults, ih]
    simp [hpayload, hnone]
  have hok := @write_segments_ok (payloadLength iovs) iovs
    (doWriteLog (fixUpReaders log (headerLength + payloadLength iovs))
      (entryHeader (payloadLength iovs) stamp)) 0
  simp only [if_neg hpayload]
  split
  next written hwritten =>
    rw [hwritten] at hok
    exact hok
  next written hwritten =>
    rw [hwritten] at hok
    exact hok

/-- The sampled offset is not used by a write that succeeds. -/
theorem aio_write_orig (h : copyFaults (payloadLength iovs) iovs 0 = true → orig = log.wOff) :
    loggerAioWrite log orig stamp iovs = loggerAioWrite log log.wOff stamp iovs := by
  cases hfault : copyFaults (payloadLength iovs) iovs 0 with
  | true => rw [h hfault]
  | false =>
    unfold loggerAioWrite
    by_cases hpayload : payloadLength iovs = 0
    · simp only [if_pos hpayload]
    have hok := @write_segments_ok (payloadLength iovs) iovs
      (doWriteLog (fixUpReaders log (headerLength + payloadLength iovs))
        (entryHeader (payloadLength iovs) stamp)) 0
    rw [hfault] at hok
    simp only [if_neg hpayload]
    split
    next written hwritten => rfl
    next written hwritten =>
      rw [hwritten] at hok
      cases hok

/-- A faulting write goes back to the sampled offset. -/
theorem aio_write_fault_w_off (hfault : copyFaults (payloadLength iovs) iovs 0 = true) :
    (loggerAioWrite log orig stamp iovs).1.wOff = orig := by
  have hok := aio_write_ok log orig stamp iovs
  rw [hfault] at hok
  unfold loggerAioWrite at hok ⊢
  by_cases hpayload : payloadLength iovs = 0
  · simp only [if_pos hpayload] at hok
    cases hok
  · simp only [if_neg hpayload] at hok ⊢
    split
    next written hwritten =>
      rw [hwritten] at hok
      cases hok
    next written hwritten => rfl

/-- The log of a traced state after a call is the one the call left. -/
@[simp] theorem Traced.after_log (t : Traced) (log : Log) (op : Op) : (t.after log op).log = log := by
  cases op with
  | openRead | release | poll | flush => rfl
  | read id count fault =>
    simp only [Traced.after]
    split <;> rfl
  | write stamp iovs =>
    simp only [Traced.after]
    split <;> rfl

/-- A step that does not roll back over another write is an atomic call, or none. -/
theorem shared_step_atomic {s u : Shared} {op : ThreadOp} (hok : RollsBack s op)
    (hstep : SharedStep s op u) :
    u.traced = s.traced ∨ ∃ call, TracedStep s.traced call u.traced := by
  cases op with
  | enter tid =>
    simp only [SharedStep, sharedStep] at hstep
    split at hstep
    · cases hstep
      exact .inl rfl
    · cases hstep
  | finish tid stamp iovs =>
    obtain ⟨orig, horig, hnext⟩ := Option.map_eq_some_iff.mp hstep
    subst hnext
    have hsame : loggerAioWrite s.traced.log orig stamp iovs =
        loggerAioWrite s.traced.log s.traced.log.wOff stamp iovs :=
      aio_write_orig fun hfault => Option.some.inj (horig.symm.trans (hok hfault))
    exact .inr ⟨.write stamp iovs, _, rfl, by rw [hsame]⟩
  | call op =>
    simp only [SharedStep, sharedStep] at hstep
    split_ifs at hstep
    obtain ⟨log, hlog, hnext⟩ := Option.map_eq_some_iff.mp hstep
    subst hnext
    exact .inr ⟨op, log, hlog, rfl⟩

/-- A run without such a roll back is a run of atomic calls. -/
theorem shared_run_atomic {s u : Shared} (hrun : Reaches SharedStep RollsBack s u) :
    Reaches TracedStep anyStep s.traced u.traced := by
  refine hrun.invariant (fun v => Reaches TracedStep anyStep s.traced v.traced) ?_ (.refl _)
  intro v op w hreached hok hstep
  rcases shared_step_atomic hok hstep with hsame | ⟨call, hcall⟩
  · rw [hsame]
    exact hreached
  · exact hreached.tail hcall trivial

/-- A payload of one byte that is copied, and one whose copy faults. -/
def oneByte (fault : Option (Nat → Option UInt8)) : List Iovec := [⟨⟨1, fun _ => 7⟩, fault⟩]

/-- The state after some steps. -/
def Shared.run (s : Shared) (ops : List ThreadOp) : Option Shared := ops.foldlM sharedStep s

/-- A log with one reader, and with thread 1 inside a write. -/
def enteredLog : Shared :=
  ⟨(Traced.start (2 ^ 16)).after (loggerOpen (emptyLog (2 ^ 16)) 0) (.openRead 0),
    Function.update (fun _ => none) 1 (some 0)⟩

end AndroidKernel.Logger
