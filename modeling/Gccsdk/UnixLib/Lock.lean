import Gccsdk.Lib.LinkedQueue
import Gccsdk.UnixLib.Pthread

/-!
# Mutexes and rwlocks

`pthread/lock.c`, with the calls of `mutex.c` and `rwlock.c` that lead to it. Everything between
`__pthread_disable_ints` and `__pthread_enable_ints` is one function here, run by the thread
`runningThread`: no context switch takes place inside. Only `__pthread_lock_block` enables interrupts in
the middle, for a `pthread_yield`; it is cut there into `lockBlock`, which ends in that call, and
`lockRetry`, which goes on from it.

The functions that run over a waiting list take a bound on its length (`fuel`) and give `none` when that
is not enough; on a list that has an end, some bound always is.
-/

namespace UnixLib

open LinkedQueue

inductive Outcome
  | returns (code : Code) (w : World)
  /-- It is in the `pthread_yield` of `__pthread_lock_block`. -/
  | yields (w : World)
  /-- `__pthread_fatal_error`, which aborts the program. -/
  | fatal (msg : String)

/-- `pthread_mutex_init`, -/
def pthreadMutexInit (attr : Option AttrType) : Lock where
  count := 0
  owner := none
  type := .mutex
  waiting := none
  attr := attr.getD .default

/-- and `pthread_rwlock_init`. -/
def pthreadRwlockInit (attr : Option AttrType) : Lock where
  count := 0
  owner := none
  type := .read
  waiting := none
  attr := attr.getD .default

/-! ### Acquiring -/

/-- `__pthread_lock_acquire`: mark a mutex/rwlock as owned by the current thread. -/
def lockAcquire (w : World) (m : Addr) (type : LockType) : World :=
  w.modifyLock m fun l =>
    { l with owner := some w.runningThread, count := l.count + 1, type := type }

/-- Add the running thread to the end of a list of waiting threads; the same lines stand in
`__pthread_lock_block` and in `pthread_cond_timedwait`. -/
def appendWaiting (fuel : ℕ) (w : World) (k : Queue) : Option World :=
  match w.waiting k with
  | none => some (w.setWaiting k (some w.runningThread))
  | some list => (last w.nextwait fuel list).map fun tail =>
      w.modify tail fun t => { t with nextwait := some w.runningThread }

/-- `__pthread_lock_block`, up to its `pthread_yield`. -/
def lockBlock (fuel : ℕ) (w : World) (m : Addr) (type : LockType) : Option World :=
  (appendWaiting fuel
    (w.modify w.runningThread fun t =>
      { t with mutex := some m, mutextype := type, nextwait := none }) (.lock m)).map
    fun w => w.modify w.runningThread fun t => { t with state := .mutexWait }

/-- The lock is free, or it is held for reading and wanted for reading: many read locks can be held at
once, by different threads. -/
def Lock.grants (l : Lock) (type : LockType) : Bool :=
  l.owner.isNone || (l.type == .read && type == .read)

/-- The end of `__pthread_lock_block`, behind the removal from the list. -/
def lockTake (w : World) (m : Addr) (type : LockType) : World :=
  (lockAcquire w m type).modify w.runningThread fun t => { t with mutex := none, nextwait := none }

/-- `__pthread_lock_block`, from the return of its `pthread_yield` on. -/
def lockRetry (fuel : ℕ) (w : World) (m : Addr) (type : LockType) : Option Outcome :=
  if (w.lock m).grants type then
    if (w.lock m).waiting = some w.runningThread then
      some (.returns none
        (lockTake (w.setWaiting (.lock m) (w.nextwait w.runningThread)) m type))
    else
      (before w.nextwait w.runningThread fuel (w.lock m).waiting).map fun
        | none => .fatal "-- __pthread_lock_block: Mutex does not have a thread waiting on it, but it should have"
        | some list => .returns none
            (lockTake
              (w.modify list fun t => { t with nextwait := w.nextwait w.runningThread }) m type)
  else
    -- Lock is still not available, wait for the next time
    some (.yields (w.modify w.runningThread fun t => { t with state := .mutexWait }))

/-- `__pthread_lock_lock`: main routine for locking a mutex/rwlock. -/
def lockLock (fuel : ℕ) (w : World) (m : Addr) (type : LockType) (trylock : Bool) :
    Option Outcome :=
  if (w.lock m).grants type then
    if type = .read then
      -- Check there aren't any writers waiting on the lock
      (find w.nextwait (fun t => (w.thread t).mutextype == .write) fuel (w.lock m).waiting).bind fun
        | some _ =>
          if trylock then some (.returns (some .EBUSY) w)
          else (lockBlock fuel w m type).map .yields
        | none => some (.returns none (lockAcquire w m type))
    else some (.returns none (lockAcquire w m type))
  else if (w.lock m).owner = some w.runningThread ∧ (w.lock m).attr ≠ .normal then
    if (w.lock m).attr = .errorcheck then
      some (.returns (some (if trylock then .EBUSY else .EDEADLK)) w)
    else if (w.lock m).count = UINT_MAX then some (.returns (some .EAGAIN) w)
    else some (.returns none (lockAcquire w m type))
  else if trylock then some (.returns (some .EBUSY) w)
  else (lockBlock fuel w m type).map .yields

/-! ### Giving up -/

/-- The search of `__pthread_lock_unlock` for the first blocked writer. -/
def firstWriter (w : World) (m : Addr) : ℕ → Option Addr → Option (Except String (Option Addr))
  | _, none => some (.ok none)
  | 0, some _ => none
  | fuel + 1, some t =>
    if t = w.runningThread then
      some (.error
        "-- __pthread_lock_unlock: Unlocking mutex that current thread is already blocked on")
    else if (w.thread t).mutex ≠ some m then
      some (.error "-- __pthread_lock_unlock: Blocking thread in wrong mutex list")
    else if (w.thread t).mutextype = .write ∨ (w.thread t).mutextype = .mutex then
      some (.ok (some t))
    else firstWriter w m fuel (w.nextwait t)

def wakeAll : ℕ → World → Option Addr → Option World
  | _, w, none => some w
  | 0, _, some _ => none
  | fuel + 1, w, some t =>
    wakeAll fuel (w.modify t fun t => { t with state := .running }) (w.nextwait t)

/-- `__pthread_lock_unlock`, when the count has become 0. -/
def lockHandOver (fuel : ℕ) (w : World) (m : Addr) : Option Outcome :=
  (firstWriter w m fuel (w.lock m).waiting).bind fun
    | .error msg => some (.fatal msg)
    | .ok (some t) =>
      -- A writer was found, so give it a chance to run
      some (.returns none (w.modify t fun t => { t with state := .running }))
    | .ok none =>
      -- No writers are waiting for this lock, so all must be readers, so let them all run
      (wakeAll fuel w (w.lock m).waiting).map (.returns none)

/-- `__pthread_lock_unlock`: main routine for unlocking a mutex/rwlock. The `pthread_yield` at its end,
with interrupts enabled, is one more place for a context switch. -/
def lockUnlock (fuel : ℕ) (w : World) (m : Option Addr) : Option Outcome :=
  match m with
  | none => some (.returns (some .EINVAL) w)
  | some m =>
    if ((w.lock m).type ≠ .read ∧ (w.lock m).owner ≠ some w.runningThread) ∨
        (w.lock m).count = 0 then
      some (.returns (some .EPERM) w)
    else if (w.lock m).count - 1 = 0 then
      lockHandOver fuel (w.modifyLock m fun l => { l with count := l.count - 1, owner := none }) m
    else some (.returns none (w.modifyLock m fun l => { l with count := l.count - 1 }))

/-! ### The calls -/

/-- The calls that lock check the kind of the lock and leave the rest to `__pthread_lock_lock`. -/
def lockCall (kind : LockType → Bool) (type : LockType) (trylock : Bool) (fuel : ℕ) (w : World)
    (m : Option Addr) : Option Outcome :=
  match m with
  | none => some (.returns (some .EINVAL) w)
  | some m =>
    if kind (w.lock m).type then lockLock fuel w m type trylock
    else some (.returns (some .EINVAL) w)

/-- The lock is a mutex, -/
def LockType.isMutex : LockType → Bool
  | .mutex => true
  | _ => false

/-- or a rwlock. -/
def LockType.isRwlock : LockType → Bool
  | .read | .write => true
  | _ => false

def pthreadMutexTrylock := lockCall LockType.isMutex .mutex true
def pthreadMutexLock := lockCall LockType.isMutex .mutex false
def pthreadRwlockRdlock := lockCall LockType.isRwlock .read false
def pthreadRwlockWrlock := lockCall LockType.isRwlock .write false
def pthreadRwlockTryrdlock := lockCall LockType.isRwlock .read true
def pthreadRwlockTrywrlock := lockCall LockType.isRwlock .write true

inductive LockFn
  | mutexTrylock
  | mutexLock
  | rwlockRdlock
  | rwlockWrlock
  | rwlockTryrdlock
  | rwlockTrywrlock
  deriving DecidableEq, Repr

namespace LockFn

/-- The kinds of lock a call is for, -/
def kind : LockFn → LockType → Bool
  | mutexTrylock | mutexLock => LockType.isMutex
  | _ => LockType.isRwlock

/-- the type of lock it asks for, -/
def type : LockFn → LockType
  | mutexTrylock | mutexLock => .mutex
  | rwlockRdlock | rwlockTryrdlock => .read
  | rwlockWrlock | rwlockTrywrlock => .write

/-- and whether it only tries. -/
def trylock : LockFn → Bool
  | mutexTrylock | rwlockTryrdlock | rwlockTrywrlock => true
  | _ => false

def run : LockFn → ℕ → World → Option Addr → Option Outcome
  | mutexTrylock => pthreadMutexTrylock
  | mutexLock => pthreadMutexLock
  | rwlockRdlock => pthreadRwlockRdlock
  | rwlockWrlock => pthreadRwlockWrlock
  | rwlockTryrdlock => pthreadRwlockTryrdlock
  | rwlockTrywrlock => pthreadRwlockTrywrlock

theorem run_eq (fn : LockFn) : fn.run = lockCall fn.kind fn.type fn.trylock := by
  cases fn <;> rfl

end LockFn

end UnixLib
