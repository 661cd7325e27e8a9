import Gccsdk.UnixLib.Context

/-!
# Creating, ending, joining and detaching threads

`pthread/create.c`, `newnode.c`, `exit.c`, `join.c` and `detach.c`. Each function is cut where it enables
interrupts, since a context switch may take place there: what stands between `__pthread_disable_ints`
and `__pthread_enable_ints` is one definition.

The node of a thread is a block of `malloc_unlocked`. Who gives it back to `free_unlocked` depends on
who comes last: the scheduler (`cleanupIdle`), `pthread_join` or `pthread_detach`.

Not modelled are the fields of a node that only the thread itself uses (its stack, the saved registers,
cleanup handlers, keys, signals and cancellation), and null pointers for `threadin` or
`start_routine`.
-/

namespace UnixLib

def World.next (w : World) (t : Addr) : Option Addr := (w.thread t).next

theorem World.next_modify (w : World) (t : Addr) (f : Thread → Thread) :
    (w.modify t f).next = Function.update w.next t (f (w.thread t)).next := by
  funext u
  by_cases h : u = t
  · subst h
    simp [World.next]
  · simp [World.next, h]

theorem World.next_modify_of_eq (w : World) (t : Addr) {f : Thread → Thread}
    (h : (f (w.thread t)).next = (w.thread t).next) : (w.modify t f).next = w.next := by
  rw [World.next_modify, h]
  exact Function.update_eq_self t w.next

def pthreadInvalid (w : World) : Option Addr → Bool
  | none => true
  | some t => (w.thread t).magic != PTHREAD_MAGIC

/-- `malloc_unlocked` gives the block `t`. -/
def World.malloc (w : World) (t : Addr) : World :=
  { w with freed := Function.update w.freed t 0 }

namespace World

variable (w : World) (t u : Addr) (f : Thread → Thread)

theorem modify_thread_apply :
    (w.modify t f).thread u = if u = t then f (w.thread u) else w.thread u := by
  by_cases h : u = t
  · subst h
    simp
  · simp [h]

@[simp] theorem modify_threadList : (w.modify t f).threadList = w.threadList := rfl

@[simp] theorem modify_freed : (w.modify t f).freed u = w.freed u := rfl

@[simp] theorem free_thread : (w.free t).thread u = w.thread u := rfl

@[simp] theorem free_threadList : (w.free t).threadList = w.threadList := rfl

@[simp] theorem free_systemRunning : (w.free t).systemRunning = w.systemRunning := rfl

@[simp] theorem free_runningThread : (w.free t).runningThread = w.runningThread := rfl

theorem malloc_freed : (w.malloc t).freed u = if u = t then 0 else w.freed u :=
  Function.update_apply ..

@[simp] theorem malloc_thread : (w.malloc t).thread u = w.thread u := rfl

@[simp] theorem malloc_threadList : (w.malloc t).threadList = w.threadList := rfl

@[simp] theorem malloc_systemRunning : (w.malloc t).systemRunning = w.systemRunning := rfl

theorem free_freed : (w.free t).freed u = if u = t then w.freed u + 1 else w.freed u := by
  by_cases h : u = t
  · subst h
    simp [free]
  · simp [free, h]

end World

theorem zero_ne_magic : (0 : BitVec 32) ≠ PTHREAD_MAGIC := by decide

/-! ### `pthread_create` -/

/-- What `malloc_unlocked` and `__pthread_new_stack` have for a new thread. -/
inductive NodeMemory
  /-- There is no memory for the node, -/
  | noNode
  /-- none for its save area -/
  | noSaveArea (t : Addr)
  /-- or none for its stack. -/
  | noStack (t : Addr)
  | node (t : Addr)
  deriving DecidableEq, Repr

def NodeMemory.block : NodeMemory → Option Addr
  | .noNode => none
  | .noSaveArea t | .noStack t | .node t => some t

/-- `__pthread_new_node`: ensure the magic number is invalid until the thread is ready to run. -/
def newNode (w : World) (t : Addr) : World :=
  w.modify t fun v =>
    { v with magic := 0, next := none, state := .running, detached := false, joined := none,
             ret := 0, mutex := none, cond := none, nextwait := none }

/-- The end of `pthread_create`: the thread is initialised, and inserted at the start of the list. -/
def insertNode (w : World) (t : Addr) (detachstate : Bool) : World :=
  { w.modify t fun v =>
      { v with detached := detachstate, magic := PTHREAD_MAGIC, next := w.threadList } with
    threadList := some t
    numRunningThreads := w.numRunningThreads + 1 }

/-- `pthread_create`; `attr` is the `detachstate` of the attributes. -/
def pthreadCreate (w : World) (mem : NodeMemory) (attr : Option Bool) : Code × World :=
  let w := { w with systemRunning := true }
  match mem with
  | .noNode => (some .EAGAIN, w)
  | .noSaveArea t => (some .EAGAIN, (w.malloc t).free t)
  | .noStack t => (some .EAGAIN, (newNode (w.malloc t) t).free t)
  | .node t => (none, insertNode (newNode (w.malloc t) t) t (attr.getD false))

/-! ### `pthread_exit` -/

/-- `pthread_exit`, up to the cleanup handlers. There is nothing behind it, when the thread system is not
running: it then calls `exit`. -/
def exitCleanup (w : World) : Option World :=
  if w.systemRunning then
    some (w.modify w.runningThread fun v => { v with state := .cleanup })
  else none

/-- `pthread_exit`, behind the cleanup handlers: save the return value and sort out the joined
thread. -/
def exitHandOver (w : World) (status : ℕ) : World :=
  let w := w.modify w.runningThread fun v => { v with ret := status }
  match (w.thread w.runningThread).joined with
  | none => w
  | some thread =>
    -- We have joined, so treat the thread as detached.
    (w.modify thread fun v => { v with ret := status, state := .running }).modify w.runningThread
      fun v => { v with joined := none, detached := true }

/-- `pthread_exit`, behind `__pthread_exit`; the last thread calls `exit`. -/
def exitIdle (w : World) : Option World :=
  let w := { w with numRunningThreads := w.numRunningThreads - 1 }
  if w.numRunningThreads > 0 then
    some (w.modify w.runningThread fun v => { v with state := .idle })
  else none

/-! ### `pthread_join` and `pthread_detach` -/

/-- How a call of `pthread_join` goes on. -/
inductive JoinOutcome
  | returns (code : Code) (status : Option ℕ) (w : World)
  | yields (w : World)

/-- `pthread_join`, up to its `pthread_yield`. -/
def pthreadJoin (w : World) (tojoin : Option Addr) : JoinOutcome :=
  if tojoin = some w.runningThread then .returns (some .EDEADLK) none w
  else
    match tojoin with
    | none => .returns (some .ESRCH) none w
    | some t =>
      if pthreadInvalid w (some t) then .returns (some .ESRCH) none w
      else if (w.thread t).joined ≠ none ∨ (w.thread t).detached = true then
        .returns (some .EINVAL) none w
      else
        match (w.thread t).state with
        | .unalloced =>
          .returns none (some (w.thread t).ret) ((w.modify t fun v => { v with magic := 0 }).free t)
        | .idle => .returns none (some (w.thread t).ret) w
        | _ =>
          -- Suspend the running thread and mark it as joined to another
          .yields ((w.modify w.runningThread fun v => { v with state := .join }).modify t
            fun v => { v with joined := some w.runningThread })

/-- The status `pthread_join` delivers behind its `pthread_yield`. -/
def joinStatus (w : World) : ℕ := (w.thread w.runningThread).ret

/-- `pthread_detach`, behind its check of the argument. -/
def pthreadDetach (w : World) (t : Addr) : World :=
  let w := w.modify t fun v => { v with detached := true }
  -- If the thread has already terminated then free any remaining storage
  if (w.thread t).state = .unalloced then (w.modify t fun v => { v with magic := 0 }).free t
  else w

end UnixLib
