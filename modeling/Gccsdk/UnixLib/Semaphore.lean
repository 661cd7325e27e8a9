import Gccsdk.UnixLib.Pthread

/-!
# Semaphores

`pthread/sem.c`: a semaphore is a count with a queue of waiting threads, both guarded by a rwlock, the
interlock. `Semaphores` is what memory holds of one semaphore and of the threads that use it. A function of
the source is cut here where a context switch is possible between two of its parts: at the calls that
acquire or give up the interlock, and where interrupts are enabled again.

The interlock is a rwlock with the default attributes, which keeps its users apart (`lockRun_exclusive`). Here
it is the threads that hold it. Not modelled are a failure of `malloc` in `sem_wait` (its result is used
unchecked) and the identifier of the semaphore, which nothing reads.
-/

namespace UnixLib

def USEM_MAGIC : BitVec 32 := 0x09fa4012

def SEM_VALUE_MAX : BitVec 32 := 0xFFFFFFFF

/-- `struct pthread_queue_t`. -/
structure QueueEntry where
  thread : Option Addr
  next : Option Addr
  deriving DecidableEq, Repr

/-- `sem_t`. -/
structure Sem where
  usem_magic : BitVec 32
  usem_waiters : Option Addr
  usem_count : BitVec 32
  deriving DecidableEq, Repr

structure Interlock where
  readers : List Addr
  writer : Option Addr
  deriving DecidableEq, Repr

/-- What memory holds of a semaphore and of the threads that use it. -/
structure Semaphores where
  sem : Sem
  interlock : Interlock
  entry : Addr → QueueEntry
  /-- The field `state` of the threads, -/
  state : Addr → State
  /-- and `cancelpending`. -/
  cancelpending : Addr → Bool

namespace Semaphores

/-- Giving up the interlock: `pthread_rwlock_unlock`. -/
def unlock (w : Semaphores) (t : Addr) : Semaphores :=
  { w with
    interlock := ⟨w.interlock.readers.erase t, if w.interlock.writer = some t then none
      else w.interlock.writer⟩ }

/-- `pthread_rwlock_wrlock` is successful; `none` as long as somebody else has the interlock. -/
def wrlock (w : Semaphores) (t : Addr) : Option Semaphores :=
  if w.interlock.readers = [] ∧ w.interlock.writer = none then
    some { w with interlock := ⟨[], some t⟩ }
  else none

/-- `pthread_rwlock_rdlock` is successful; `none` as long as a writer has the interlock. -/
def rdlock (w : Semaphores) (t : Addr) : Option Semaphores :=
  if w.interlock.writer = none then
    some { w with interlock := ⟨t :: w.interlock.readers, none⟩ }
  else none

end Semaphores

/-- `sem_init`, for a semaphore that is not shared between processes; `none` is `EINVAL`. -/
def semInit (value : BitVec 32) : Option Sem :=
  if value > SEM_VALUE_MAX then none
  else some ⟨USEM_MAGIC, none, value⟩

def semCheckValidity (sem : Sem) : Bool := sem.usem_magic = USEM_MAGIC

/-! ### Waiting -/

/-- The queue element that `sem_wait` begins with, in the block `queue_entry` from `malloc`. -/
def semWaitEntry (w : Semaphores) (self queue_entry : Addr) : Semaphores :=
  { w with entry := Function.update w.entry queue_entry ⟨some self, none⟩ }

/-- `for (tmp = sem->usem_waiters; tmp->next && tmp != queue_entry; tmp = tmp->next)`: the element the loop
stops at. `none`: it does not within `fuel` steps. -/
def queueTail (entry : Addr → QueueEntry) (queue_entry : Addr) : ℕ → Addr → Option Addr
  | 0, _ => none
  | fuel + 1, tmp =>
    match (entry tmp).next with
    | none => some tmp
    | some next => if tmp = queue_entry then some tmp else queueTail entry queue_entry fuel next

/-- What a pass of the loop of `sem_wait` comes to. -/
inductive WaitPass
  | cancelled
  | positive
  | zero
  deriving DecidableEq, Repr

def semWaitPass (w : Semaphores) (self queue_entry : Addr) (fuel : ℕ) : Option (Semaphores × WaitPass) :=
  if w.cancelpending self then some (w, .cancelled)
  else if w.sem.usem_count > 0 then some (w, .positive)
  else
    match w.sem.usem_waiters with
    | none => some (w, .zero)
    | some waiters => do
      let tmp ← queueTail w.entry queue_entry fuel waiters
      let entry := if tmp ≠ queue_entry then
        Function.update w.entry tmp { w.entry tmp with next := some queue_entry } else w.entry
      return ({ w with entry := entry, state := Function.update w.state self .blocked }, .zero)

/-- `sem->usem_count--`. -/
def semTake (w : Semaphores) : Semaphores :=
  { w with sem := { w.sem with usem_count := w.sem.usem_count - 1 } }

/-! ### Posting -/

/-- The part of `sem_post` up to `free`: counting, and taking the head off the queue. With it comes the
thread that is to be given another try, and the block that is free. -/
def semPost (w : Semaphores) : Semaphores × Option Addr × Option Addr :=
  let w := { w with sem := { w.sem with usem_count := w.sem.usem_count + 1 } }
  match w.sem.usem_waiters with
  | none => (w, none, none)
  | some tmp =>
    match (w.entry tmp).thread with
    | none => (w, none, none)
    | some blocked =>
      ({ w with
          sem := { w.sem with usem_waiters := (w.entry tmp).next }
          entry := Function.update w.entry tmp { w.entry tmp with thread := none } },
        some blocked, some tmp)

def semWake (w : Semaphores) (blocked : Addr) : Semaphores :=
  { w with state := Function.update w.state blocked .running }

/-! ### Destroying -/

/-- The test of `sem_destroy`: `true` is `EBUSY`. -/
def semBusy (w : Semaphores) : Bool := w.sem.usem_waiters ≠ none

def semFree (w : Semaphores) : Semaphores :=
  { w with sem := { w.sem with usem_magic := 0 } }

end UnixLib
