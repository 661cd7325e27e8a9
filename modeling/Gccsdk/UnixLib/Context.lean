import Gccsdk.Lib.LinkedQueue
import Gccsdk.UnixLib.Pthread

/-!
# The scheduler

`pthread/context.c`: the round robin scheduler, which on its way round the list of threads also frees
threads that have exited and ends waits on condition variables whose time is over. It runs under a
callback, with the other threads stopped.

Not modelled are what it does with the saved registers, `errno` and the stack of a thread.
-/

namespace UnixLib

open LinkedQueue

/-- Why the scheduler does not come to an end. -/
inductive Stop
  /-- `__pthread_fatal_error`. -/
  | fatal (msg : String)
  | nullPointer
  deriving DecidableEq, Repr

/-- Giving the block of a node to `free_unlocked`. -/
def World.free (w : World) (t : Addr) : World :=
  { w with freed := Function.update w.freed t (w.freed t + 1) }

/-- `__pthread_cleanup_idle`: de-allocates an idle node from the list. If it is not detached, then we
cannot do anything until another thread joins with it. -/
def cleanupIdle (w : World) (node : Option Addr) : Except Stop World :=
  match node with
  | none => .ok w
  | some t =>
    if (w.thread t).state ≠ .idle then
      .error (.fatal "-- __pthread_cleanup_idle: Not an idle thread!")
    else if (w.thread t).detached then
      .ok ((w.modify t fun v => { v with state := .unalloced, magic := 0 }).free t)
    else .ok (w.modify t fun v => { v with state := .unalloced })

/-- The thread the loop looks at next, with its count of passes over the end of the list. -/
def switchTo (w : World) (next : Option Addr) (iter : ℕ) : Except Stop (World × ℕ) :=
  match next with
  | some t => .ok (w.on t, iter)
  | none =>
    if iter > 1 then
      .error (.fatal "-- __pthread_context_switch: Deadlocked (no runnable threads to schedule)")
    else
      match w.threadList with
      | none => .error .nullPointer
      | some t => .ok (w.on t, iter + 1)

/-- Free up any idle threads that are found: the one behind the running thread, or the first one when
that is the last. -/
def freeIdle (w : World) : Except Stop World :=
  match (w.thread w.runningThread).next with
  | none =>
    match w.threadList with
    | none => .error .nullPointer
    | some head =>
      if (w.thread head).state = .idle then
        cleanupIdle { w with threadList := (w.thread head).next } (some head)
      else .ok w
  | some next =>
    if (w.thread next).state = .idle then
      cleanupIdle (w.modify w.runningThread fun v => { v with next := (w.thread next).next })
        (some next)
    else .ok w

/-- Remove the running thread from the list of threads waiting on its condition variable. -/
def unlinkCond (fuel : ℕ) (w : World) : Option (Except Stop World) :=
  match (w.thread w.runningThread).cond with
  | none => some (.error .nullPointer)
  | some c =>
    match (w.cond c).waiting with
    | none => some (.error .nullPointer)
    | some head =>
      if head = w.runningThread then
        some (.ok (w.setWaiting (.cond c) (w.nextwait w.runningThread)))
      else
        (seek w.nextwait w.runningThread fuel head).map fun t =>
          match w.nextwait t with
          | none => .ok w
          | some next => .ok (w.modify t fun v => { v with nextwait := w.nextwait next })

def timeOut (fuel : ℕ) (clock : ℤ) (w : World) : Option (Except Stop World) :=
  if (w.thread w.runningThread).state = .condTimedWait ∧
      clock > (w.thread w.runningThread).condtimeout then
    unlinkCond fuel (w.modify w.runningThread fun v => { v with state := .running })
  else some (.ok w)

/-- The count of passes is set back while there is a thread with a timeout. -/
def resetIter (w : World) (iter : ℕ) : ℕ :=
  if (w.thread w.runningThread).state = .condTimedWait then 0 else iter

/-- One pass of the loop of `__pthread_context_switch`. -/
def switchPass (fuel : ℕ) (clock : ℤ) (w : World) (next : Option Addr) (iter : ℕ) :
    Option (Except Stop (World × ℕ)) :=
  match switchTo w next iter with
  | .error e => some (.error e)
  | .ok (w, iter) =>
    match freeIdle w with
    | .error e => some (.error e)
    | .ok w => (timeOut fuel clock w).map fun
        | .error e => .error e
        | .ok w' => .ok (w', resetIter w iter)

/-- The loop around the list, looking for a thread that is running. The clock is read in each pass. -/
def switchLoop (bound : ℕ) (clock : ℕ → ℤ) : ℕ → World → Option Addr → ℕ →
    Option (Except Stop World)
  | 0, _, _, _ => none
  | fuel + 1, w, next, iter =>
    (switchPass bound (clock fuel) w next iter).bind fun
      | .error e => some (.error e)
      | .ok (w, iter) =>
        if (w.thread w.runningThread).state.runnable then some (.ok w)
        else switchLoop bound clock fuel w (w.thread w.runningThread).next iter

/-- `__pthread_context_switch`. -/
def contextSwitch (bound : ℕ) (clock : ℕ → ℤ) (fuel : ℕ) (w : World) :
    Option (Except Stop World) :=
  switchLoop bound clock fuel w (w.thread w.runningThread).next 0

end UnixLib
