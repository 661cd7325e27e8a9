import Gccsdk.UnixLib.LockQueue
import Mathlib.Logic.Relation

/-!
# Threads that use locks

Any number of threads, each of which may at any time lock or unlock any lock (`LockStep`). A step is
what a thread does between two places where a context switch is possible: one call, or the part of a
blocked one from the return of its `pthread_yield` to the next. Nothing is assumed about the order in
which the scheduler lets runnable threads run.

The state (`Sys`) keeps, besides memory, where in the code each thread is, which acquisitions of a lock
are outstanding, and who waits for what in the order of arrival. The code reads none of these three.

`QueueInv` is the invariant of the waiting lists, kept by every step (`QueueInv.lockStep`). With it go
`WakeInv`: a free lock with a waiting list has a thread on the list that can run, and the results
about the runs of locks alone.
-/

namespace UnixLib

open LinkedQueue

inductive Ctl
  | user
  /-- In the `pthread_yield` of `__pthread_lock_block`. -/
  | lockBlock (m : Addr) (type : LockType)
  /-- In the `pthread_yield` of `pthread_cond_timedwait`. -/
  | condWait (c m : Addr) (timed : Bool)
  /-- In `pthread_cond_timedwait`, on the way from there to locking the mutex again. -/
  | condLock (m : Addr) (timedOut : Bool)
  deriving DecidableEq, Repr

def Ctl.blockedOn : Ctl → Option Addr
  | .lockBlock m _ => some m
  | _ => none

/-- The thread is in no `pthread_yield` of the library. -/
def Ctl.active : Ctl → Bool
  | .user | .condLock .. => true
  | _ => false

/-- The thread waits: it is blocked on the lock, or its state is a wait for the condition variable. -/
def waitsFor (w : World) (ctl : Addr → Ctl) : Queue → Addr → Bool
  | .lock m, t => (ctl t).blockedOn == some m
  | .cond c, t => (w.thread t).state.condWaiting && (w.thread t).cond == some c

structure Sys where
  world : World
  ctl : Addr → Ctl
  held : Addr → List (Addr × LockType)
  arrivals : Queue → List Addr

namespace Sys

/-- Who waits behind a step of the thread `t`: those who still do, and then `t` if it has begun to. -/
def arrivalsAfter (s : Sys) (t : Addr) (w : World) (ctl : Addr → Ctl) (k : Queue) : List Addr :=
  (s.arrivals k).filter (waitsFor w ctl k) ++
    if waitsFor w ctl k t ∧ t ∉ s.arrivals k then [t] else []

/-- The thread `t` has changed memory to `w` and is now at `pc`. -/
def goTo (s : Sys) (t : Addr) (w : World) (pc : Ctl) : Sys where
  world := w
  ctl := Function.update s.ctl t pc
  held := s.held
  arrivals := s.arrivalsAfter t w (Function.update s.ctl t pc)

/-- The thread `t` has acquired the lock `m`, -/
def hold (s : Sys) (m t : Addr) (type : LockType) : Sys :=
  { s with held := Function.update s.held m ((t, type) :: s.held m) }

/-- or given up its latest acquisition. -/
def release (s : Sys) (m t : Addr) : Sys :=
  { s with held := Function.update s.held m ((s.held m).eraseP fun x => x.1 == t) }

def Holds (s : Sys) (t m : Addr) : Prop := ∃ type, (t, type) ∈ s.held m

def Ready (s : Sys) (t : Addr) : Prop :=
  s.world.runningThread = t ∨ (s.world.thread t).state.runnable = true

/-- `pthread_yield` returns: the thread has been switched in, or there is no thread system yet and it
returns at once. -/
def Resumes (s : Sys) (t : Addr) : Prop :=
  (s.world.thread t).state.runnable = true ∨
    (s.world.systemRunning = false ∧ s.world.runningThread = t)

def afterLock (s : Sys) (t m : Addr) (type : LockType) : Outcome → Option Sys
  | .returns none w => some ((s.goTo t w .user).hold m t type)
  | .returns (some _) w => some (s.goTo t w .user)
  | .yields w => some (s.goTo t w (.lockBlock m type))
  | .fatal _ => none

def afterUnlock (s : Sys) (t m : Addr) : Outcome → Option Sys
  | .returns none w => some ((s.goTo t w .user).release m t)
  | .returns (some _) w => some (s.goTo t w .user)
  | _ => none

/-- At the start all locks have been initialised and nobody has used them yet. -/
structure Initial (s : Sys) : Prop where
  lock : ∀ m, ∃ attr, s.world.lock m = pthreadMutexInit attr ∨ s.world.lock m = pthreadRwlockInit attr
  cond : ∀ c, (s.world.cond c).waiting = none
  state : ∀ t, (s.world.thread t).state.condWaiting = false
  ctl : ∀ t, s.ctl t = .user
  held : ∀ m, s.held m = []
  arrivals : ∀ k, s.arrivals k = []

/-- A thread as `__pthread_new_node` sets it up. -/
def newThread : Thread where
  magic := PTHREAD_MAGIC
  next := none
  state := .running
  ret := 0
  joined := none
  mutex := none
  mutextype := .invalid
  cond := none
  condtimeout := 0
  nextwait := none
  detached := false

def fresh (l : Lock) : Sys where
  world :=
    { thread := fun _ => newThread
      lock := fun _ => l
      cond := fun _ => ⟨none⟩
      threadList := none
      runningThread := 0
      systemRunning := true
      numRunningThreads := 1
      freed := fun _ => 0 }
  ctl := fun _ => .user
  held := fun _ => []
  arrivals := fun _ => []

theorem initial_fresh {l : Lock} (attr : Option AttrType)
    (h : l = pthreadMutexInit attr ∨ l = pthreadRwlockInit attr) : (fresh l).Initial where
  lock _ := ⟨attr, h⟩
  cond _ := rfl
  state _ := rfl
  ctl _ := rfl
  held _ := rfl
  arrivals _ := rfl

end Sys

inductive LockAction
  | call (t : Addr) (fn : LockFn) (m : Addr)
  | resume (t : Addr)
  /-- It calls `pthread_mutex_unlock` or `pthread_rwlock_unlock`. -/
  | unlock (t m : Addr)
  deriving DecidableEq, Repr

/-- **A step of a thread.** -/
inductive LockStep (s : Sys) : LockAction → Sys → Prop
  | call {s' : Sys} {t m : Addr} {fn : LockFn} {fuel : ℕ} {o : Outcome} :
      s.ctl t = .user → s.Ready t → fn.run fuel (s.world.on t) (some m) = some o →
      s.afterLock t m fn.type o = some s' → LockStep s (.call t fn m) s'
  | resume {s' : Sys} {t m : Addr} {type : LockType} {fuel : ℕ} {o : Outcome} :
      s.ctl t = .lockBlock m type → s.Resumes t →
      lockRetry fuel (s.world.on t) m type = some o →
      s.afterLock t m type o = some s' → LockStep s (.resume t) s'
  | unlock {s' : Sys} {t m : Addr} {fuel : ℕ} {o : Outcome} :
      s.ctl t = .user → s.Ready t → lockUnlock fuel (s.world.on t) (some m) = some o →
      s.afterUnlock t m o = some s' → LockStep s (.unlock t m) s'

def LockRun : Sys → Sys → Prop := Relation.ReflTransGen fun s s' => ∃ a, LockStep s a s'

/-! ### Running an example -/

instance (s : Sys) (t : Addr) : Decidable (s.Ready t) := by unfold Sys.Ready; infer_instance

instance (s : Sys) (t : Addr) : Decidable (s.Resumes t) := by unfold Sys.Resumes; infer_instance

def Sys.perform (fuel : ℕ) (s : Sys) : LockAction → Option Sys
  | .call t fn m =>
    if s.ctl t = .user ∧ s.Ready t then
      (fn.run fuel (s.world.on t) (some m)).bind (s.afterLock t m fn.type)
    else none
  | .resume t =>
    match s.ctl t with
    | .lockBlock m type =>
      if s.Resumes t then (lockRetry fuel (s.world.on t) m type).bind (s.afterLock t m type)
      else none
    | _ => none
  | .unlock t m =>
    if s.ctl t = .user ∧ s.Ready t then
      (lockUnlock fuel (s.world.on t) (some m)).bind (s.afterUnlock t m)
    else none

theorem Sys.perform_step {fuel : ℕ} {s s' : Sys} {a : LockAction}
    (h : s.perform fuel a = some s') : LockStep s a s' := by
  cases a with
  | call t fn m =>
    simp only [Sys.perform, Option.ite_none_right_eq_some] at h
    obtain ⟨⟨hctl, hready⟩, h⟩ := h
    obtain ⟨o, hrun, hafter⟩ := Option.bind_eq_some_iff.mp h
    exact .call hctl hready hrun hafter
  | resume t =>
    simp only [Sys.perform] at h
    split at h
    · rename_i m type hctl
      rw [Option.ite_none_right_eq_some] at h
      obtain ⟨o, hretry, hafter⟩ := Option.bind_eq_some_iff.mp h.2
      exact .resume hctl h.1 hretry hafter
    · exact absurd h (by simp)
  | unlock t m =>
    simp only [Sys.perform, Option.ite_none_right_eq_some] at h
    obtain ⟨⟨hctl, hready⟩, h⟩ := h
    obtain ⟨o, hunlock, hafter⟩ := Option.bind_eq_some_iff.mp h
    exact .unlock hctl hready hunlock hafter

def Sys.performAll (fuel : ℕ) (s : Sys) (as : List LockAction) : Option Sys :=
  as.foldlM (Sys.perform fuel) s

theorem Sys.performAll_run {fuel : ℕ} {s' : Sys} : ∀ {as : List LockAction} {s : Sys},
    s.performAll fuel as = some s' → LockRun s s'
  | [], s, h => by
    obtain rfl := Option.some.inj h
    exact .refl
  | a :: as, s, h => by
    rw [Sys.performAll, List.foldlM_cons] at h
    obtain ⟨s₁, hstep, hrest⟩ := Option.bind_eq_some_iff.mp h
    exact (Sys.performAll_run hrest).head ⟨a, Sys.perform_step hstep⟩

/-! ### Who waits -/

section Waits

variable {w w' : World} {ctl ctl' : Addr → Ctl} {s : Sys} {t u m : Addr} {k : Queue} {pc : Ctl}

@[simp] theorem waitsFor_lock : waitsFor w ctl (.lock m) t = ((ctl t).blockedOn == some m) := rfl

@[simp] theorem waitsFor_cond {c : Addr} : waitsFor w ctl (.cond c) t =
    ((w.thread t).state.condWaiting && (w.thread t).cond == some c) := rfl

theorem waitsFor_congr (hctl : (ctl' u).blockedOn = (ctl u).blockedOn)
    (hstate : (w'.thread u).state.condWaiting = (w.thread u).state.condWaiting)
    (hcond : (w'.thread u).cond = (w.thread u).cond) :
    waitsFor w' ctl' k u = waitsFor w ctl k u := by
  cases k with
  | lock m => rw [waitsFor_lock, waitsFor_lock, hctl]
  | cond c => rw [waitsFor_cond, waitsFor_cond, hstate, hcond]

/-- A thread that is in no `pthread_yield` and not in a wait on a condition variable waits for
nothing. -/
theorem waitsFor_eq_false (hctl : (ctl t).blockedOn = none)
    (hstate : (w.thread t).state.condWaiting = false) : waitsFor w ctl k t = false := by
  cases k with
  | lock m => simp [hctl]
  | cond c => simp [hstate]

end Waits

def Sys.Logged (s : Sys) : Prop := ∀ k t, t ∈ s.arrivals k ↔ waitsFor s.world s.ctl k t = true

section Arrivals

variable {s : Sys} {t : Addr} {w : World} {ctl : Addr → Ctl} {k₀ : Queue}

theorem Sys.arrivalsAfter_filter (hlog : s.Logged) (keep : Queue → Addr → Bool)
    (hkeep : ∀ k u, waitsFor w ctl k u = (waitsFor s.world s.ctl k u && keep k u)) (k : Queue) :
    s.arrivalsAfter t w ctl k = (s.arrivals k).filter (keep k) := by
  unfold Sys.arrivalsAfter
  rw [if_neg, List.append_nil]
  · refine List.filter_congr fun u hu => ?_
    rw [hkeep, (hlog k u).mp hu, Bool.true_and]
  · rintro ⟨ht, hmem⟩
    rw [hkeep, Bool.and_eq_true] at ht
    exact hmem ((hlog k t).mpr ht.1)

theorem Sys.arrivalsAfter_same (hlog : s.Logged)
    (hsame : ∀ k u, waitsFor w ctl k u = waitsFor s.world s.ctl k u) :
    s.arrivalsAfter t w ctl = s.arrivals := by
  funext k
  rw [Sys.arrivalsAfter_filter hlog (fun _ _ => true) (by simpa using hsame)]
  exact List.filter_eq_self.mpr fun _ _ => rfl

theorem Sys.arrivalsAfter_push (hlog : s.Logged) (ht : ∀ k, waitsFor s.world s.ctl k t = false)
    (hself : ∀ k, waitsFor w ctl k t = decide (k = k₀))
    (hother : ∀ k u, u ≠ t → waitsFor w ctl k u = waitsFor s.world s.ctl k u) :
    s.arrivalsAfter t w ctl = Function.update s.arrivals k₀ (s.arrivals k₀ ++ [t]) := by
  funext k
  have hnot : t ∉ s.arrivals k := by
    rw [hlog, ht k]
    simp
  have hkeep : (s.arrivals k).filter (waitsFor w ctl k) = s.arrivals k := by
    refine List.filter_eq_self.mpr fun u hu => ?_
    have hne : u ≠ t := fun h => hnot (h ▸ hu)
    rw [hother k u hne]
    exact (hlog k u).mp hu
  unfold Sys.arrivalsAfter
  rw [hkeep]
  by_cases hk : k = k₀
  · subst hk
    rw [if_pos ⟨by simp [hself], hnot⟩, Function.update_self]
  · rw [if_neg (fun h => by simp [hself, hk] at h), Function.update_of_ne hk, List.append_nil]

theorem Sys.arrivalsAfter_remove (hlog : s.Logged) {v : Addr}
    (hrem : ∀ k u, waitsFor w ctl k u = (waitsFor s.world s.ctl k u && !(decide (k = k₀ ∧ u = v)))) :
    s.arrivalsAfter t w ctl = Function.update s.arrivals k₀
      ((s.arrivals k₀).filter fun u => decide (u ≠ v)) := by
  funext k
  rw [Sys.arrivalsAfter_filter hlog _ hrem]
  by_cases hk : k = k₀
  · subst hk
    rw [Function.update_self]
    refine List.filter_congr fun u _ => ?_
    simp
  · rw [Function.update_of_ne hk]
    refine List.filter_eq_self.mpr fun u _ => ?_
    simp [hk]

end Arrivals

/-! ### The invariant of the waiting lists -/

/-- **The waiting lists are the threads that wait.** -/
structure QueueInv (s : Sys) : Prop where
  /-- Each list leads through the threads that wait, in the order of arrival. -/
  queues : Queues s.world.nextwait s.world.waiting s.arrivals
  logged : s.Logged
  /-- A blocked thread has noted what it waits for; it sleeps or has been woken. -/
  blocked : ∀ {t m type}, s.ctl t = .lockBlock m type →
    (s.world.thread t).mutex = some m ∧ (s.world.thread t).mutextype = type ∧
      ((s.world.thread t).state = .mutexWait ∨ (s.world.thread t).state = .running)
  /-- A thread that is in no `pthread_yield` is in no wait. -/
  active : ∀ {t}, (s.ctl t).active = true → (s.world.thread t).state.condWaiting = false

namespace QueueInv

variable {s s' : Sys} {t m u : Addr} {type : LockType} {w w' : World}

theorem initial (h : s.Initial) : QueueInv s where
  queues :=
    { chain := fun k => by
        rw [h.arrivals k]
        cases k with
        | lock m =>
          obtain ⟨attr, hlock | hlock⟩ := h.lock m <;>
            · change (s.world.lock m).waiting = none
              rw [hlock]
              rfl
        | cond c => exact h.cond c
      disjoint := fun ha => by simp [h.arrivals] at ha }
  logged k t := by
    rw [h.arrivals k, waitsFor_eq_false (by rw [h.ctl]; rfl) (h.state t)]
    simp
  blocked hctl := by simp [h.ctl] at hctl
  active _ := h.state _

theorem condWaiting_of_blocked (hI : QueueInv s) (h : s.ctl t = .lockBlock m type) :
    (s.world.thread t).state.condWaiting = false := by
  rcases (hI.blocked h).2.2 with hstate | hstate <;>
    · rw [hstate]
      rfl

theorem mem_lock (hI : QueueInv s) :
    t ∈ s.arrivals (.lock m) ↔ ∃ type, s.ctl t = .lockBlock m type := by
  rw [hI.logged, waitsFor_lock, beq_iff_eq]
  cases hctl : s.ctl t <;> simp [Ctl.blockedOn]

theorem waits_of_active (hI : QueueInv s) (h : (s.ctl t).active = true) (k : Queue) :
    waitsFor s.world s.ctl k t = false := by
  refine waitsFor_eq_false ?_ (hI.active h)
  cases hctl : s.ctl t <;> simp_all [Ctl.active, Ctl.blockedOn]

theorem not_mem_of_active (hI : QueueInv s) (h : (s.ctl t).active = true) (k : Queue) :
    t ∉ s.arrivals k := by
  rw [hI.logged, hI.waits_of_active h k]
  simp

theorem chain (hI : QueueInv s) (m : Addr) :
    Chain s.world.nextwait (s.world.lock m).waiting (s.arrivals (.lock m)) :=
  hI.queues.chain (.lock m)

theorem mutex_of_mem (hI : QueueInv s) (h : u ∈ s.arrivals (.lock m)) :
    (s.world.thread u).mutex = some m := by
  obtain ⟨type, hctl⟩ := hI.mem_lock.mp h
  exact (hI.blocked hctl).1

/-- **Nobody begins or stops waiting.** Links and waiting lists stay; the state of a thread changes at
most between states that are no waits on a condition variable. -/
theorem same (hI : QueueInv s) {w : World} (ctl : Addr → Ctl)
    (held : Addr → List (Addr × LockType))
    (hctl : ∀ u, (ctl u).blockedOn = (s.ctl u).blockedOn)
    (hblocked : ∀ u m type, ctl u = .lockBlock m type → s.ctl u = .lockBlock m type)
    (hactive : ∀ u, (ctl u).active = true → (s.world.thread u).state.condWaiting = false)
    (hnext : w.nextwait = s.world.nextwait) (hwait : w.waiting = s.world.waiting)
    (hmutex : ∀ u, (w.thread u).mutex = (s.world.thread u).mutex)
    (htype : ∀ u, (w.thread u).mutextype = (s.world.thread u).mutextype)
    (hcond : ∀ u, (w.thread u).cond = (s.world.thread u).cond)
    (hstate : ∀ u, (w.thread u).state = (s.world.thread u).state ∨
      (s.world.thread u).state.condWaiting = false ∧ (w.thread u).state.condWaiting = false ∧
        (∀ m type, s.ctl u = .lockBlock m type →
          (w.thread u).state = .mutexWait ∨ (w.thread u).state = .running)) :
    QueueInv ⟨w, ctl, held, s.arrivals⟩ ∧ ∀ k u, waitsFor w ctl k u = waitsFor s.world s.ctl k u := by
  have hcw : ∀ u, (w.thread u).state.condWaiting = (s.world.thread u).state.condWaiting := by
    intro u
    rcases hstate u with h | ⟨h, h', -⟩
    · rw [h]
    · rw [h, h']
  have hwaits : ∀ k u, waitsFor w ctl k u = waitsFor s.world s.ctl k u :=
    fun k u => waitsFor_congr (hctl u) (hcw u) (hcond u)
  refine ⟨⟨?_, ?_, ?_, ?_⟩, hwaits⟩
  · change Queues w.nextwait w.waiting s.arrivals
    rw [hnext, hwait]
    exact hI.queues
  · intro k u
    change u ∈ s.arrivals k ↔ waitsFor w ctl k u = true
    rw [hwaits]
    exact hI.logged k u
  · intro u m type hu
    have hold := hblocked u m type hu
    obtain ⟨h₁, h₂, h₃⟩ := hI.blocked hold
    refine ⟨(hmutex u).trans h₁, (htype u).trans h₂, ?_⟩
    change (w.thread u).state = _ ∨ (w.thread u).state = _
    rcases hstate u with h | ⟨-, -, h⟩
    · rwa [h]
    · exact h m type hold
  · intro u hu
    change (w.thread u).state.condWaiting = false
    rw [hcw]
    exact hactive u hu

/-- **One thread begins to wait**, and nothing is written to the others but links. -/
theorem push (hI : QueueInv s) {w : World} {k₀ : Queue} (ctl : Addr → Ctl)
    (held : Addr → List (Addr × LockType))
    (hqueues : Queues w.nextwait w.waiting
      (Function.update s.arrivals k₀ (s.arrivals k₀ ++ [t])))
    (hself : ∀ k, waitsFor w ctl k t = decide (k = k₀))
    (hblocked : ∀ m type, ctl t = .lockBlock m type →
      (w.thread t).mutex = some m ∧ (w.thread t).mutextype = type ∧ (w.thread t).state = .mutexWait)
    (hactive : (ctl t).active = false) (hctl : ∀ u, u ≠ t → ctl u = s.ctl u)
    (hother : ∀ u, u ≠ t → w.thread u =
      { s.world.thread u with nextwait := (w.thread u).nextwait }) :
    QueueInv ⟨w, ctl, held, Function.update s.arrivals k₀ (s.arrivals k₀ ++ [t])⟩ ∧
      ∀ k u, u ≠ t → waitsFor w ctl k u = waitsFor s.world s.ctl k u := by
  have hwaits : ∀ k u, u ≠ t → waitsFor w ctl k u = waitsFor s.world s.ctl k u := by
    intro k u hu
    refine waitsFor_congr (by rw [hctl u hu]) ?_ ?_
    · rw [hother u hu]
    · rw [hother u hu]
  have hnot : ∀ k, k ≠ k₀ → t ∉ s.arrivals k := by
    intro k hk hmem
    have hmem' : t ∈ Function.update s.arrivals k₀ (s.arrivals k₀ ++ [t]) k := by
      rwa [Function.update_of_ne hk]
    exact hk (hqueues.disjoint hmem' (by simp))
  refine ⟨⟨hqueues, ?_, ?_, ?_⟩, hwaits⟩
  · intro k u
    change u ∈ Function.update s.arrivals k₀ (s.arrivals k₀ ++ [t]) k ↔ waitsFor w ctl k u = true
    by_cases hu : u = t
    · subst hu
      rw [hself, decide_eq_true_eq]
      by_cases hk : k = k₀
      · subst hk
        simp
      · rw [Function.update_of_ne hk]
        exact iff_of_false (hnot k hk) hk
    · rw [hwaits k u hu, ← hI.logged k u]
      by_cases hk : k = k₀
      · subst hk
        simp [hu]
      · rw [Function.update_of_ne hk]
  · intro u m type hu
    change ctl u = _ at hu
    change (w.thread u).mutex = _ ∧ (w.thread u).mutextype = _ ∧
      ((w.thread u).state = _ ∨ (w.thread u).state = _)
    by_cases hut : u = t
    · subst hut
      obtain ⟨h₁, h₂, h₃⟩ := hblocked m type hu
      exact ⟨h₁, h₂, Or.inl h₃⟩
    · rw [hctl u hut] at hu
      rw [hother u hut]
      exact hI.blocked hu
  · intro u hu
    change (ctl u).active = true at hu
    change (w.thread u).state.condWaiting = false
    by_cases hut : u = t
    · subst hut
      rw [hactive] at hu
      exact absurd hu (by simp)
    · rw [hctl u hut] at hu
      rw [hother u hut]
      exact hI.active hu

/-- **One thread stops waiting**, and nothing is written to the others but links. -/
theorem remove (hI : QueueInv s) {w : World} {k₀ : Queue} {v : Addr} (ctl : Addr → Ctl)
    (held : Addr → List (Addr × LockType)) (hmem : v ∈ s.arrivals k₀)
    (hqueues : Queues w.nextwait w.waiting (Function.update s.arrivals k₀
      ((s.arrivals k₀).filter fun u => decide (u ≠ v))))
    (hblocked : (ctl v).blockedOn = none) (hstate : (w.thread v).state.condWaiting = false)
    (hctl : ∀ u, u ≠ v → ctl u = s.ctl u)
    (hother : ∀ u, u ≠ v → w.thread u =
      { s.world.thread u with nextwait := (w.thread u).nextwait }) :
    QueueInv ⟨w, ctl, held, Function.update s.arrivals k₀
        ((s.arrivals k₀).filter fun u => decide (u ≠ v))⟩ ∧
      ∀ k u, waitsFor w ctl k u =
        (waitsFor s.world s.ctl k u && !(decide (k = k₀ ∧ u = v))) := by
  have hwaits : ∀ k u, waitsFor w ctl k u =
      (waitsFor s.world s.ctl k u && !(decide (k = k₀ ∧ u = v))) := by
    intro k u
    by_cases hu : u = v
    · subst hu
      -- it has been on one list only
      rw [waitsFor_eq_false hblocked hstate]
      by_cases hk : k = k₀
      · simp [hk]
      · have hnot : waitsFor s.world s.ctl k u = false := by
          by_contra hne
          rw [Bool.not_eq_false] at hne
          exact hk (hI.queues.disjoint ((hI.logged k u).mpr hne) hmem)
        simp [hnot]
    · have hsame : waitsFor w ctl k u = waitsFor s.world s.ctl k u :=
        waitsFor_congr (by rw [hctl u hu]) (by rw [hother u hu]) (by rw [hother u hu])
      simp [hsame, hu]
  refine ⟨⟨hqueues, ?_, ?_, ?_⟩, hwaits⟩
  · intro k u
    change u ∈ Function.update s.arrivals k₀ _ k ↔ waitsFor w ctl k u = true
    rw [hwaits, Bool.and_eq_true, ← hI.logged k u]
    by_cases hk : k = k₀
    · subst hk
      simp
    · simp [hk]
  · intro u m type hu
    change ctl u = _ at hu
    change (w.thread u).mutex = _ ∧ (w.thread u).mutextype = _ ∧
      ((w.thread u).state = _ ∨ (w.thread u).state = _)
    by_cases hut : u = v
    · subst hut
      rw [hu] at hblocked
      exact absurd hblocked (by simp [Ctl.blockedOn])
    · rw [hctl u hut] at hu
      rw [hother u hut]
      exact hI.blocked hu
  · intro u hu
    change (ctl u).active = true at hu
    change (w.thread u).state.condWaiting = false
    by_cases hut : u = v
    · subst hut
      exact hstate
    · rw [hctl u hut] at hu
      rw [hother u hut]
      exact hI.active hu

theorem hold (hI : QueueInv s) (m t : Addr) (type : LockType) : QueueInv (s.hold m t type) :=
  ⟨hI.queues, hI.logged, hI.blocked, hI.active⟩

theorem release (hI : QueueInv s) (m t : Addr) : QueueInv (s.release m t) :=
  ⟨hI.queues, hI.logged, hI.blocked, hI.active⟩

theorem goTo_same (hI : QueueInv s) (w : World) (pc : Ctl)
    (hblocked : pc.blockedOn = (s.ctl t).blockedOn)
    (hpc : ∀ m type, pc = .lockBlock m type → s.ctl t = .lockBlock m type)
    (hactive : pc.active = true → (s.world.thread t).state.condWaiting = false)
    (hnext : w.nextwait = s.world.nextwait) (hwait : w.waiting = s.world.waiting)
    (hmutex : ∀ u, (w.thread u).mutex = (s.world.thread u).mutex)
    (htype : ∀ u, (w.thread u).mutextype = (s.world.thread u).mutextype)
    (hcond : ∀ u, (w.thread u).cond = (s.world.thread u).cond)
    (hstate : ∀ u, (w.thread u).state = (s.world.thread u).state ∨
      (s.world.thread u).state.condWaiting = false ∧ (w.thread u).state.condWaiting = false ∧
        (∀ m type, s.ctl u = .lockBlock m type →
          (w.thread u).state = .mutexWait ∨ (w.thread u).state = .running)) :
    QueueInv (s.goTo t w pc) ∧
      s.goTo t w pc = ⟨w, Function.update s.ctl t pc, s.held, s.arrivals⟩ := by
  obtain ⟨hI', hwaits⟩ := hI.same (Function.update s.ctl t pc) s.held
    (fun u => by
      by_cases hu : u = t
      · subst hu
        rw [Function.update_self, hblocked]
      · rw [Function.update_of_ne hu])
    (fun u m type hu => by
      by_cases hut : u = t
      · subst hut
        rw [Function.update_self] at hu
        exact hpc m type hu
      · rwa [Function.update_of_ne hut] at hu)
    (fun u hu => by
      by_cases hut : u = t
      · subst hut
        rw [Function.update_self] at hu
        exact hactive hu
      · rw [Function.update_of_ne hut] at hu
        exact hI.active hu)
    hnext hwait hmutex htype hcond hstate
  have heq : s.goTo t w pc = ⟨w, Function.update s.ctl t pc, s.held, s.arrivals⟩ := by
    unfold Sys.goTo
    rw [Sys.arrivalsAfter_same hI.logged hwaits]
  exact ⟨heq ▸ hI', heq⟩

theorem goTo_user (hI : QueueInv s) (w : World) (hctl : (s.ctl t).active = true)
    (hthread : w.thread = s.world.thread) (hwait : w.waiting = s.world.waiting) :
    QueueInv (s.goTo t w .user) ∧
      s.goTo t w .user = ⟨w, Function.update s.ctl t .user, s.held, s.arrivals⟩ := by
  refine hI.goTo_same w .user ?_ (by simp) (fun _ => hI.active hctl) ?_ hwait ?_ ?_ ?_ ?_
  · cases h : s.ctl t <;> simp_all [Ctl.active, Ctl.blockedOn]
  · unfold World.nextwait
    rw [hthread]
  all_goals simp [hthread]

theorem goTo_blocked (hI : QueueInv s) (hctl : (s.ctl t).active = true) {fuel : ℕ}
    (h : lockBlock fuel (s.world.on t) m type = some w) :
    QueueInv (s.goTo t w (.lockBlock m type)) ∧
      (s.goTo t w (.lockBlock m type)).arrivals =
        Function.update s.arrivals (.lock m) (s.arrivals (.lock m) ++ [t]) ∧
      Blocked (s.world.on t) w m type := by
  obtain ⟨hqueues, hblocked⟩ := lockBlock_spec (w := s.world.on t) hI.queues
    (hI.not_mem_of_active hctl) h
  have hstate : (w.thread t).state = .mutexWait := hblocked.state
  have hself : ∀ k, waitsFor w (Function.update s.ctl t (.lockBlock m type)) k t =
      decide (k = .lock m) := by
    intro k
    rw [Bool.eq_iff_iff]
    cases k with
    | lock m' =>
      simp only [waitsFor_lock, Function.update_self, Ctl.blockedOn, beq_iff_eq,
        Option.some.injEq, decide_eq_true_eq, Queue.lock.injEq]
      exact eq_comm
    | cond c => simp [hstate, State.condWaiting]
  obtain ⟨hI', hwaits⟩ := hI.push (t := t)
    (Function.update s.ctl t (.lockBlock m type)) s.held hqueues hself
    (fun m' type' hpc => by
      rw [Function.update_self] at hpc
      obtain ⟨rfl, rfl⟩ := Ctl.lockBlock.inj hpc
      exact ⟨hblocked.mutex, hblocked.mutextype, hstate⟩)
    (by rw [Function.update_self]; rfl) (fun u hu => Function.update_of_ne hu _ _) hblocked.other
  have harr := Sys.arrivalsAfter_push hI.logged (hI.waits_of_active hctl) hself hwaits
  refine ⟨?_, harr, hblocked⟩
  unfold Sys.goTo
  rw [harr]
  exact hI'

theorem goTo_took (hI : QueueInv s) (hctl : s.ctl t = .lockBlock m type)
    (hqueues : Queues w.nextwait w.waiting (Function.update s.arrivals (.lock m)
      ((s.arrivals (.lock m)).filter (fun u => decide (u ≠ t)))))
    (htook : Took (s.world.on t) w m type) :
    QueueInv (s.goTo t w .user) ∧
      (s.goTo t w .user).arrivals = Function.update s.arrivals (.lock m)
        ((s.arrivals (.lock m)).filter fun u => decide (u ≠ t)) := by
  have hstate : (w.thread t).state = (s.world.thread t).state := htook.state
  obtain ⟨hI', hwaits⟩ := hI.remove (Function.update s.ctl t .user) s.held
    (hI.mem_lock.mpr ⟨type, hctl⟩) hqueues (by rw [Function.update_self]; rfl)
    (by rw [hstate]; exact hI.condWaiting_of_blocked hctl)
    (fun u hu => Function.update_of_ne hu _ _) htook.other
  have harr := Sys.arrivalsAfter_remove (t := t) hI.logged hwaits
  refine ⟨?_, harr⟩
  unfold Sys.goTo
  rw [harr]
  exact hI'

end QueueInv

end UnixLib
