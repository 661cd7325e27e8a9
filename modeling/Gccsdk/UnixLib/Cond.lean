import Gccsdk.UnixLib.Lock

/-!
# Condition variables

`pthread/cond.c`. `pthread_cond_timedwait` is cut at its `pthread_yield`: `condTimedwait` ends in that
call, `condTimedOut` and a call of `pthread_mutex_lock` follow it. `pthread_cond_wait` is the call
without a time.
-/

namespace UnixLib

open LinkedQueue

structure Timespec where
  tv_sec : ℤ
  tv_nsec : ℤ
  deriving DecidableEq, Repr

/-- How a call of `pthread_cond_timedwait` goes on. -/
inductive CondOutcome
  | returns (code : Code) (w : World)
  /-- It is in its `pthread_yield`; `__pthread_lock_unlock` has returned `unlocked`. -/
  | yields (unlocked : Code) (w : World)
  /-- `__pthread_fatal_error`. -/
  | fatal (msg : String)

/-- The state and the timeout a thread waits with; `time` and `clock` are the times of the calls of
these functions. -/
def condTimeout (abstime : Option Timespec) (time clock : ℤ) : State × ℤ :=
  match abstime with
  | none => (.condWait, 0)
  | some ts =>
    -- A bit crude, but...
    (.condTimedWait, clock + (100 * (ts.tv_sec - time) + ts.tv_nsec.tdiv 10000000))

/-- The running thread notes that it waits for the condition variable, and goes to the end of its
list. -/
def condPark (fuel : ℕ) (w : World) (c : Addr) (timeout : State × ℤ) : Option World :=
  appendWaiting fuel
    (w.modify w.runningThread fun t =>
      { t with cond := some c, nextwait := none, state := timeout.1, condtimeout := timeout.2 })
    (.cond c)

/-- `pthread_cond_timedwait`, up to its `pthread_yield`. -/
def condTimedwait (fuel : ℕ) (w : World) (c m : Option Addr) (abstime : Option Timespec)
    (time clock : ℤ) : Option CondOutcome :=
  match c, m with
  | some c, some m =>
    if (w.lock m).owner ≠ some w.runningThread then some (.returns (some .EINVAL) w)
    else
      -- This call will not return an error unless mutex is NULL, which we've already checked for
      (lockUnlock fuel w (some m)).bind fun
        | .returns code w => (condPark fuel w c (condTimeout abstime time clock)).map (.yields code)
        | .yields w => some (.returns none w)
        | .fatal msg => some (.fatal msg)
  | _, _ => some (.returns (some .EINVAL) w)

/-- The check of `pthread_cond_timedwait` behind its `pthread_yield`: the timeout has passed. -/
def condTimedOut (w : World) (timed : Bool) (clock : ℤ) : Bool :=
  timed && decide (clock > (w.thread w.runningThread).condtimeout)

/-- `pthread_cond_signal`: signal the specified condition var. -/
def condSignal (w : World) (c : Option Addr) : Code × World :=
  match c with
  | none => (some .EINVAL, w)
  | some c =>
    match (w.cond c).waiting with
    | none => (none, w)
    | some t =>
      (none, (w.modify t fun v => { v with state := .running }).setWaiting (.cond c)
        (w.nextwait t))

/-- `pthread_cond_broadcast`: signal all threads waiting on this condition var. -/
def condBroadcast (fuel : ℕ) (w : World) (c : Option Addr) : Option (Code × World) :=
  match c with
  | none => some (some .EINVAL, w)
  | some c => (wakeAll fuel w (w.cond c).waiting).map fun w => (none, w.setWaiting (.cond c) none)

end UnixLib
