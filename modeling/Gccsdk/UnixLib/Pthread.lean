import Mathlib.Data.Int.Notation
import Mathlib.Data.Nat.Notation
import Mathlib.Logic.Function.Basic

/-!
# The data of the thread library

The structures of `include/pthread.h` and `incl-local/pthread.h`: threads, locks and condition
variables, and the variables of the thread system. Objects are named by their addresses, `NULL` being
`none`. A `World` is the contents of memory as far as the thread library uses it.

Calls return `0` or an error number; `Code` is `none` for the former.
-/

namespace UnixLib

abbrev Addr := ℕ

/-- The error numbers the thread functions return, -/
inductive Errno
  | EPERM
  | ESRCH
  | EAGAIN
  | EBUSY
  | EINVAL
  | EDEADLK
  | ETIMEDOUT
  deriving DecidableEq, Repr

/-- and the value of a call: `none` is 0. -/
abbrev Code := Option Errno

/-- `enum __pthread_state`, in its order. -/
inductive State
  | idle
  | mutexWait
  | condWait
  | condTimedWait
  | join
  | unalloced
  | blocked
  | running
  | cleanup
  deriving DecidableEq, Repr

/-- The state is `STATE_RUNNING` or above: the thread may be switched in by the scheduler. -/
def State.runnable : State → Bool
  | .running | .cleanup => true
  | _ => false

def State.condWaiting : State → Bool
  | .condWait | .condTimedWait => true
  | _ => false

/-- `enum __pthread_locktype`. -/
inductive LockType
  | invalid
  | read
  | write
  | mutex
  deriving DecidableEq, Repr

/-- `PTHREAD_MUTEX_NORMAL`, `_ERRORCHECK` and `_RECURSIVE`. -/
inductive AttrType
  | normal
  | errorcheck
  | recursive
  deriving DecidableEq, Repr

/-- `PTHREAD_MUTEX_DEFAULT`. -/
def AttrType.default : AttrType := .errorcheck

def UINT_MAX : BitVec 32 := 0xFFFFFFFF

/-- `struct __pthread_lock`, a mutex or a rwlock; of the attributes, the type. -/
structure Lock where
  count : BitVec 32
  type : LockType
  owner : Option Addr
  waiting : Option Addr
  attr : AttrType
  deriving DecidableEq, Repr

/-- `struct __pthread_cond`. -/
structure Cond where
  waiting : Option Addr
  deriving DecidableEq, Repr

def PTHREAD_MAGIC : BitVec 32 := 0x52485450

/-- `struct __pthread_thread`. -/
structure Thread where
  magic : BitVec 32
  next : Option Addr
  state : State
  ret : ℕ
  joined : Option Addr
  mutex : Option Addr
  mutextype : LockType
  cond : Option Addr
  condtimeout : ℤ
  nextwait : Option Addr
  /-- `PTHREAD_CREATE_DETACHED`. -/
  detached : Bool
  deriving DecidableEq, Repr

/-- The contents of memory, and the variables of the thread system. -/
structure World where
  thread : Addr → Thread
  lock : Addr → Lock
  cond : Addr → Cond
  /-- `__pthread_thread_list`. -/
  threadList : Option Addr
  /-- `__pthread_running_thread`. -/
  runningThread : Addr
  /-- `pthread_system_running`. -/
  systemRunning : Bool
  /-- `pthread_num_running_threads`. -/
  numRunningThreads : ℤ
  /-- How often the block of a node has been given to `free_unlocked` since it was allocated. -/
  freed : Addr → ℕ

/-! ### Writing to memory -/

namespace World

/-- Writing to fields of a thread, -/
def modify (w : World) (t : Addr) (f : Thread → Thread) : World :=
  { w with thread := Function.update w.thread t (f (w.thread t)) }

/-- of a lock, -/
def modifyLock (w : World) (m : Addr) (f : Lock → Lock) : World :=
  { w with lock := Function.update w.lock m (f (w.lock m)) }

/-- and of a condition variable. -/
def modifyCond (w : World) (c : Addr) (f : Cond → Cond) : World :=
  { w with cond := Function.update w.cond c (f (w.cond c)) }

/-- The thread `t` has been switched in. -/
def on (w : World) (t : Addr) : World := { w with runningThread := t }

variable (w : World) (t t' m m' c c' : Addr)

@[simp] theorem modify_thread (f : Thread → Thread) :
    (w.modify t f).thread = Function.update w.thread t (f (w.thread t)) := rfl
@[simp] theorem modify_lock (f : Thread → Thread) : (w.modify t f).lock = w.lock := rfl
@[simp] theorem modify_cond (f : Thread → Thread) : (w.modify t f).cond = w.cond := rfl
@[simp] theorem modify_runningThread (f : Thread → Thread) :
    (w.modify t f).runningThread = w.runningThread := rfl
@[simp] theorem modify_systemRunning (f : Thread → Thread) :
    (w.modify t f).systemRunning = w.systemRunning := rfl

@[simp] theorem modifyLock_lock (f : Lock → Lock) :
    (w.modifyLock m f).lock = Function.update w.lock m (f (w.lock m)) := rfl
@[simp] theorem modifyLock_thread (f : Lock → Lock) : (w.modifyLock m f).thread = w.thread := rfl
@[simp] theorem modifyLock_cond (f : Lock → Lock) : (w.modifyLock m f).cond = w.cond := rfl
@[simp] theorem modifyLock_runningThread (f : Lock → Lock) :
    (w.modifyLock m f).runningThread = w.runningThread := rfl
@[simp] theorem modifyLock_systemRunning (f : Lock → Lock) :
    (w.modifyLock m f).systemRunning = w.systemRunning := rfl

@[simp] theorem modifyCond_cond (f : Cond → Cond) :
    (w.modifyCond c f).cond = Function.update w.cond c (f (w.cond c)) := rfl
@[simp] theorem modifyCond_thread (f : Cond → Cond) : (w.modifyCond c f).thread = w.thread := rfl
@[simp] theorem modifyCond_lock (f : Cond → Cond) : (w.modifyCond c f).lock = w.lock := rfl
@[simp] theorem modifyCond_runningThread (f : Cond → Cond) :
    (w.modifyCond c f).runningThread = w.runningThread := rfl
@[simp] theorem modifyCond_systemRunning (f : Cond → Cond) :
    (w.modifyCond c f).systemRunning = w.systemRunning := rfl

@[simp] theorem on_thread : (w.on t).thread = w.thread := rfl
@[simp] theorem on_lock : (w.on t).lock = w.lock := rfl
@[simp] theorem on_cond : (w.on t).cond = w.cond := rfl
@[simp] theorem on_runningThread : (w.on t).runningThread = t := rfl
@[simp] theorem on_systemRunning : (w.on t).systemRunning = w.systemRunning := rfl

end World

/-! ### The waiting lists -/

/-- What a thread can wait for on a list of threads. -/
inductive Queue
  | lock (m : Addr)
  | cond (c : Addr)
  deriving DecidableEq, Repr

namespace World

def nextwait (w : World) (t : Addr) : Option Addr := (w.thread t).nextwait

def waiting (w : World) : Queue → Option Addr
  | .lock m => (w.lock m).waiting
  | .cond c => (w.cond c).waiting

theorem nextwait_modify (w : World) (t : Addr) (f : Thread → Thread) :
    (w.modify t f).nextwait = Function.update w.nextwait t (f (w.thread t)).nextwait := by
  funext u
  by_cases hu : u = t
  · subst hu
    simp [nextwait]
  · simp [nextwait, hu]

theorem nextwait_modify_of_eq (w : World) (t : Addr) {f : Thread → Thread}
    (hf : (f (w.thread t)).nextwait = (w.thread t).nextwait) :
    (w.modify t f).nextwait = w.nextwait := by
  rw [nextwait_modify, hf]
  exact Function.update_eq_self t w.nextwait

@[simp] theorem nextwait_modifyLock (w : World) (m : Addr) (f : Lock → Lock) :
    (w.modifyLock m f).nextwait = w.nextwait := rfl

@[simp] theorem nextwait_modifyCond (w : World) (c : Addr) (f : Cond → Cond) :
    (w.modifyCond c f).nextwait = w.nextwait := rfl

@[simp] theorem nextwait_on (w : World) (t : Addr) : (w.on t).nextwait = w.nextwait := rfl

@[simp] theorem waiting_modify (w : World) (t : Addr) (f : Thread → Thread) :
    (w.modify t f).waiting = w.waiting := rfl

@[simp] theorem waiting_on (w : World) (t : Addr) : (w.on t).waiting = w.waiting := rfl

def setWaiting (w : World) : Queue → Option Addr → World
  | .lock m, x => w.modifyLock m fun l => { l with waiting := x }
  | .cond c, x => w.modifyCond c fun v => { v with waiting := x }

variable (w : World) (k : Queue) (x : Option Addr)

@[simp] theorem setWaiting_thread : (w.setWaiting k x).thread = w.thread := by cases k <;> rfl
@[simp] theorem setWaiting_runningThread : (w.setWaiting k x).runningThread = w.runningThread := by
  cases k <;> rfl
@[simp] theorem setWaiting_systemRunning : (w.setWaiting k x).systemRunning = w.systemRunning := by
  cases k <;> rfl
@[simp] theorem nextwait_setWaiting : (w.setWaiting k x).nextwait = w.nextwait := by
  cases k <;> rfl

@[simp] theorem waiting_setWaiting : (w.setWaiting k x).waiting = Function.update w.waiting k x := by
  funext k'
  by_cases hk : k' = k
  · subst hk
    cases k' <;> simp [waiting, setWaiting]
  · rw [Function.update_of_ne hk]
    cases k with
    | lock m =>
      cases k' with
      | lock m' =>
        have hm : m' ≠ m := fun h => hk (h ▸ rfl)
        simp [waiting, setWaiting, hm]
      | cond c => rfl
    | cond c =>
      cases k' with
      | lock m => rfl
      | cond c' =>
        have hc : c' ≠ c := fun h => hk (h ▸ rfl)
        simp [waiting, setWaiting, hc]

theorem waiting_modifyLock_of_eq (m : Addr) {f : Lock → Lock}
    (hf : (f (w.lock m)).waiting = (w.lock m).waiting) :
    (w.modifyLock m f).waiting = w.waiting := by
  funext k'
  cases k' with
  | lock m' =>
    by_cases hm : m' = m
    · subst hm
      simp [waiting, hf]
    · simp [waiting, hm]
  | cond c => rfl

end World

end UnixLib
