import Gccsdk.UnixLib.ThreadLife
import Mathlib.Logic.Relation

/-!
# The life of threads

Threads that create, join and detach each other, and exit, with the scheduler between any two of their
critical sections (`LifeStep`). A node of the memory is reused for other threads, so a thread is a node
with the number of times it has been allocated: `Record` is what has become of it.

`LifeAction.Sound` is the condition under which the calls keep their promises (`LifeCycle`). Three
things are missing from the code.

* `pthread_join` with an idle thread leaves no mark that it has been joined. It can be joined again, and
  the scheduler will keep its node for ever (`lifeCycle_not_idleJoin`).
* `pthread_exit` enables interrupts after it has looked for a thread to wake, and before it is idle. A
  thread that begins to wait for it at this point is never woken.
* `pthread_detach` checks its argument before it disables interrupts, and the node may have been freed
  when it goes on: it is then freed again.
-/

namespace UnixLib

inductive Phase
  | gone
  | running
  /-- It is in the cleanup handlers of `pthread_exit`. -/
  | exiting (status : ℕ)
  | exited (status : ℕ)
  deriving DecidableEq, Repr

def Phase.inCode : Phase → Bool
  | .running | .exiting _ => true
  | _ => false

/-- The call a thread is in, between two of its critical sections. -/
inductive LifeCall
  | none
  /-- It waits in `pthread_join` for the thread with this node and number. -/
  | joining (t : Addr) (gen : ℕ)
  /-- It has checked the argument of `pthread_detach`. -/
  | detaching (t : Addr)
  deriving DecidableEq, Repr

structure Record where
  exit : Option ℕ
  /-- The values the successful calls of `pthread_join` on it have delivered. -/
  delivered : List ℕ
  /-- It has been created as detached, or `pthread_detach` has returned 0. -/
  detached : Bool
  deriving DecidableEq, Repr

def Record.blank : Record := ⟨none, [], false⟩

structure LifeSys where
  world : World
  phase : Addr → Phase
  call : Addr → LifeCall
  gen : Addr → ℕ
  record : Addr → ℕ → Record

namespace LifeSys

variable (s : LifeSys)

def Live (t : Addr) : Prop := s.gen t ≠ 0 ∧ s.world.freed t = 0

instance (t : Addr) : Decidable (s.Live t) := by unfold Live; infer_instance

def Calls : Prop :=
  (s.phase s.world.runningThread).inCode = true ∧ s.call s.world.runningThread = .none

instance : Decidable s.Calls := by unfold Calls; infer_instance

/-- The running thread changes memory to `w`, and is then at `phase` and in `call`. -/
def goTo (w : World) (phase : Phase) (call : LifeCall) : LifeSys :=
  { s with
    world := w
    phase := Function.update s.phase s.world.runningThread phase
    call := Function.update s.call s.world.runningThread call }

/-- Noting something about the thread with the node `t` and number `g`. -/
def note (t : Addr) (g : ℕ) (f : Record → Record) : LifeSys :=
  { s with record := Function.update s.record t (Function.update (s.record t) g
      (f (s.record t g))) }

/-- A successful call of `pthread_join`. -/
def deliver (t : Addr) (g : ℕ) (status : ℕ) : LifeSys :=
  s.note t g fun x => { x with delivered := status :: x.delivered }

/-- A block has been allocated, for a thread that is then at `phase`. -/
def allocate (t : Addr) (phase : Phase) (detached : Bool) : LifeSys :=
  { s with
    phase := Function.update s.phase t phase
    call := Function.update s.call t .none
    gen := Function.update s.gen t (s.gen t + 1) }.note t (s.gen t + 1)
      fun x => { x with detached := detached }

/-- At the start the main thread runs alone; other nodes have not been allocated. -/
structure Initial (main : Addr) : Prop where
  running : s.world.runningThread = main
  list : s.world.threadList = some main
  next : (s.world.thread main).next = none
  state : (s.world.thread main).state = .running
  joined : (s.world.thread main).joined = none
  magic : ∀ t, (s.world.thread t).magic = PTHREAD_MAGIC ↔ t = main
  freed : ∀ t, s.world.freed t = 0
  phase : ∀ t, s.phase t = if t = main then .running else .gone
  call : ∀ t, s.call t = .none
  gen : ∀ t, s.gen t = if t = main then 1 else 0
  record : ∀ t g, s.record t g = .blank

end LifeSys

/-! ### Steps -/

/-- What a thread can do about threads, and what the scheduler does. -/
inductive LifeAction
  /-- It calls `pthread_create`, -/
  | create (mem : NodeMemory) (attr : Option Bool)
  /-- or `pthread_exit`, -/
  | exit (status : ℕ)
  /-- which goes on behind the cleanup handlers -/
  | handOver
  /-- and behind `__pthread_exit`. -/
  | goIdle
  /-- It calls `pthread_join`, -/
  | join (tojoin : Option Addr)
  /-- and returns from the `pthread_yield` in it. -/
  | joinReturns
  /-- It calls `pthread_detach`, -/
  | detach (thread : Option Addr)
  /-- and goes on behind the check of the argument. -/
  | detachRest
  /-- `__pthread_context_switch`. -/
  | switch (bound : ℕ) (clock : ℕ → ℤ) (fuel : ℕ)

/-- The state behind an action of the running thread or the scheduler, when it is possible. -/
def LifeSys.perform (s : LifeSys) : LifeAction → Option LifeSys
  | .create mem attr =>
    if s.Calls ∧ ∀ t ∈ mem.block, ¬ s.Live t then
      let s' := { s with world := (pthreadCreate s.world mem attr).2 }
      match mem with
      | .noNode => some s'
      | .noSaveArea t | .noStack t => some (s'.allocate t .gone false)
      | .node t => some (s'.allocate t .running (attr.getD false))
    else none
  | .exit status =>
    if s.Calls then
      (exitCleanup s.world).map fun w => s.goTo w (.exiting status) .none
    else none
  | .handOver =>
    match s.phase s.world.runningThread with
    | .exiting status =>
      if s.call s.world.runningThread = .none then
        some ((s.goTo (exitHandOver s.world status) (.exited status) .none).note
          s.world.runningThread (s.gen s.world.runningThread)
          fun x => { x with exit := some status })
      else none
    | _ => none
  | .goIdle =>
    match s.phase s.world.runningThread with
    | .exited _ => (exitIdle s.world).map fun w => s.goTo w .gone .none
    | _ => none
  | .join tojoin =>
    if s.Calls then
      match pthreadJoin s.world tojoin, tojoin with
      | .returns none (some status) w, some t =>
        some ({ s with world := w }.deliver t (s.gen t) status)
      | .returns _ _ w, _ => some { s with world := w }
      | .yields w, some t =>
        some (s.goTo w (s.phase s.world.runningThread) (.joining t (s.gen t)))
      | .yields _, none => none
    else none
  | .joinReturns =>
    match s.call s.world.runningThread with
    | .joining t g =>
      -- `pthread_yield` returns when the thread is switched in, or at once without a thread system
      if (s.world.thread s.world.runningThread).state.runnable = true ∨
          s.world.systemRunning = false then
        some ((s.goTo s.world (s.phase s.world.runningThread) .none).deliver t g
          (joinStatus s.world))
      else none
    | _ => none
  | .detach thread =>
    if s.Calls then
      match thread with
      | none => some s
      | some t =>
        if pthreadInvalid s.world (some t) then some s
        else some (s.goTo s.world (s.phase s.world.runningThread) (.detaching t))
    else none
  | .detachRest =>
    match s.call s.world.runningThread with
    | .detaching t =>
      some ((s.goTo (pthreadDetach s.world t) (s.phase s.world.runningThread) .none).note t
        (s.gen t) fun x => { x with detached := true })
    | _ => none
  | .switch bound clock fuel =>
    match contextSwitch bound clock fuel s.world with
    | some (.ok w) => some { s with world := w }
    | _ => none

/-- The states between which the other functions of the library may move a thread. -/
def State.busy : State → Bool
  | .idle | .join | .unalloced => false
  | _ => true

/-- What the other functions of the library may do: threads begin and end to wait for locks,
condition variables and semaphores. -/
structure Elsewhere (w w' : World) : Prop where
  magic : ∀ t, (w'.thread t).magic = (w.thread t).magic
  next : ∀ t, (w'.thread t).next = (w.thread t).next
  ret : ∀ t, (w'.thread t).ret = (w.thread t).ret
  joined : ∀ t, (w'.thread t).joined = (w.thread t).joined
  detached : ∀ t, (w'.thread t).detached = (w.thread t).detached
  state : ∀ t, (w'.thread t).state = (w.thread t).state ∨
    (w.thread t).state.busy = true ∧ (w'.thread t).state.busy = true
  threadList : w'.threadList = w.threadList
  systemRunning : w'.systemRunning = w.systemRunning
  freed : w'.freed = w.freed

/-- **A step of a thread or of the scheduler.** -/
inductive LifeStep (s : LifeSys) : Option LifeAction → LifeSys → Prop
  | act {a : LifeAction} {s' : LifeSys} : s.perform a = some s' → LifeStep s (some a) s'
  | elsewhere {w : World} : Elsewhere s.world w → w.runningThread = s.world.runningThread →
      LifeStep s none { s with world := w }

/-- `pthread_join` will not return an error. -/
def World.Joinable (w : World) (t : Addr) : Prop :=
  t ≠ w.runningThread ∧ pthreadInvalid w (some t) = false ∧ (w.thread t).joined = none ∧
    (w.thread t).detached = false

/-- A thread that is joined has not got past the point where `pthread_exit` looks for the thread to wake,
unless the scheduler has removed it; a detached one is still there when `pthread_detach` goes on behind its
check. -/
def LifeAction.Sound (s : LifeSys) : LifeAction → Prop
  | .join (some t) => s.world.Joinable t → (s.phase t).inCode = true ∨
      (s.world.thread t).state = .unalloced
  | .detachRest =>
    match s.call s.world.runningThread with
    | .detaching t => pthreadInvalid s.world (some t) = false
    | _ => True
  | _ => True

/-- A run of threads and scheduler, -/
def LifeRun : LifeSys → LifeSys → Prop := Relation.ReflTransGen fun s s' => ∃ a, LifeStep s a s'

/-- and one in which the condition is met at each call. -/
def SoundLifeRun : LifeSys → LifeSys → Prop :=
  Relation.ReflTransGen fun s s' => ∃ a : Option LifeAction,
    (∀ b ∈ a, b.Sound s) ∧ LifeStep s a s'

/-! ### What is promised -/

/-- **The life of threads**, in a state of a run. -/
structure LifeCycle (s : LifeSys) : Prop where
  /-- No node is freed twice, -/
  freedOnce : ∀ t, s.world.freed t ≤ 1
  /-- none while it is on the list of threads, -/
  listed : ∃ l, LinkedQueue.Chain s.world.next s.world.threadList l ∧
    ∀ t ∈ l, s.world.freed t = 0
  /-- and none while a thread waits for it, which will be woken when it exits. -/
  waiting : ∀ j t g, s.call j = .joining t g → (s.world.thread j).state = .join →
    g = s.gen t ∧ s.world.freed t = 0 ∧ (s.world.thread t).joined = some j ∧
      (s.record t g).exit = none
  /-- At most one call of `pthread_join` on a thread succeeds, -/
  joinedOnce : ∀ t g, (s.record t g).delivered.length ≤ 1
  /-- and delivers its exit value. -/
  value : ∀ t g, ∀ status ∈ (s.record t g).delivered, (s.record t g).exit = some status
  /-- The node of a thread that has exited, has been removed from the list and been joined or detached
  is freed. -/
  reclaimed : ∀ t, s.gen t ≠ 0 → (s.world.thread t).state = .unalloced →
    (s.record t (s.gen t)).delivered ≠ [] ∨ (s.record t (s.gen t)).detached = true →
    s.world.freed t = 1

end UnixLib
