import Gccsdk.UnixLib.Cond
import Gccsdk.UnixLib.Context
import Gccsdk.UnixLib.LockWakeup

/-!
# Threads that wait on condition variables

The steps of `LockSystem` and with them the calls of `cond.c` and the passes of the scheduler
(`CondStep`). The lists of the condition variables run through the same links as those of the locks, a
woken thread keeps its old link, and the scheduler takes threads off the lists on its own: what holds
is still `QueueInv`.

It holds as long as `pthread_yield` does not return to a thread that is still waiting. That is what
`pthread_cond_timedwait` relies on ("pthread_yield won't return until either the condition var has been
signalled, or a timeout occured"), but before the first `pthread_create` there is no thread system, and
`pthread_yield` returns at once. The thread then stays on the list; when it waits again, it becomes its
own successor (`condOrder_not_unstarted`). `CondAction.Sound` asks that the thread system runs when a
thread begins to wait; `condRun_condOrder` is what holds then.
-/

namespace UnixLib

open LinkedQueue

/-- What a thread can do with locks and condition variables, and what the scheduler does. -/
inductive CondAction
  | lock (a : LockAction)
  /-- A thread calls `pthread_cond_wait` or `pthread_cond_timedwait`, -/
  | wait (t c m : Addr) (abstime : Option Timespec) (time clock : ℤ)
  /-- returns from its `pthread_yield` -/
  | wakes (t : Addr) (clock : ℤ)
  /-- and locks the mutex again. -/
  | relock (t : Addr)
  | signal (t c : Addr)
  | broadcast (t c : Addr)
  /-- `__pthread_context_switch`. -/
  | switch (bound : ℕ) (clock : ℕ → ℤ) (fuel : ℕ)
  /-- The first `pthread_create` starts the thread system. -/
  | start

/-- Giving up a lock when `__pthread_lock_unlock` has returned 0. -/
def Sys.releaseOn (s : Sys) (code : Code) (m t : Addr) : Sys :=
  if code = none then s.release m t else s

/-- **A step of a thread or of the scheduler.** -/
inductive CondStep (s : Sys) : CondAction → Sys → Prop
  | lock {a : LockAction} {s' : Sys} : LockStep s a s' → CondStep s (.lock a) s'
  | wait {t c m : Addr} {abstime : Option Timespec} {time clock : ℤ} {fuel : ℕ} {code : Code}
      {w : World} : s.ctl t = .user → s.Ready t →
      condTimedwait fuel (s.world.on t) (some c) (some m) abstime time clock =
        some (.yields code w) →
      CondStep s (.wait t c m abstime time clock)
        ((s.goTo t w (.condWait c m abstime.isSome)).releaseOn code m t)
  | waitFails {t c m : Addr} {abstime : Option Timespec} {time clock : ℤ} {fuel : ℕ} {code : Code}
      {w : World} : s.ctl t = .user → s.Ready t →
      condTimedwait fuel (s.world.on t) (some c) (some m) abstime time clock =
        some (.returns code w) →
      CondStep s (.wait t c m abstime time clock) (s.goTo t w .user)
  | wakes {t c m : Addr} {timed : Bool} {clock : ℤ} : s.ctl t = .condWait c m timed →
      s.Resumes t → CondStep s (.wakes t clock) (s.goTo t (s.world.on t)
        (.condLock m (condTimedOut (s.world.on t) timed clock)))
  | relock {t m : Addr} {timedOut : Bool} {fuel : ℕ} {o : Outcome} {s' : Sys} :
      s.ctl t = .condLock m timedOut → s.Ready t →
      pthreadMutexLock fuel (s.world.on t) (some m) = some o →
      s.afterLock t m .mutex o = some s' → CondStep s (.relock t) s'
  | signal {t c : Addr} : s.ctl t = .user → s.Ready t →
      CondStep s (.signal t c) (s.goTo t (condSignal (s.world.on t) (some c)).2 .user)
  | broadcast {t c : Addr} {fuel : ℕ} {code : Code} {w : World} : s.ctl t = .user → s.Ready t →
      condBroadcast fuel (s.world.on t) (some c) = some (code, w) →
      CondStep s (.broadcast t c) (s.goTo t w .user)
  | switch {bound : ℕ} {clock : ℕ → ℤ} {fuel : ℕ} {w : World} :
      contextSwitch bound clock fuel s.world = some (.ok w) →
      CondStep s (.switch bound clock fuel) (s.goTo w.runningThread w (s.ctl w.runningThread))
  | start : CondStep s .start { s with world := { s.world with systemRunning := true } }

def CondAction.Sound (s : Sys) : CondAction → Prop
  | .wait .. => s.world.systemRunning = true
  | _ => True

/-- A run of threads and scheduler, -/
def CondRun : Sys → Sys → Prop := Relation.ReflTransGen fun s s' => ∃ a, CondStep s a s'

/-- and one in which the thread system runs whenever a thread begins to wait. -/
def SoundCondRun : Sys → Sys → Prop :=
  Relation.ReflTransGen fun s s' => ∃ a : CondAction, a.Sound s ∧ CondStep s a s'

/-! ### Beginning to wait -/

section Park

variable {w w' : World} {q : Queue → List Addr} {c m : Addr} {fuel : ℕ}

/-- What `condPark` has done apart from the waiting lists. -/
structure Parked (w w' : World) (c : Addr) (timeout : State × ℤ) : Prop where
  other : ∀ u, u ≠ w.runningThread →
    w'.thread u = { w.thread u with nextwait := (w'.thread u).nextwait }
  state : (w'.thread w.runningThread).state = timeout.1
  cond : (w'.thread w.runningThread).cond = some c
  systemRunning : w'.systemRunning = w.systemRunning

theorem condPark_spec {timeout : State × ℤ} (hq : Queues w.nextwait w.waiting q)
    (ht : ∀ k, w.runningThread ∉ q k) (h : condPark fuel w c timeout = some w') :
    Queues w'.nextwait w'.waiting
        (Function.update q (.cond c) (q (.cond c) ++ [w.runningThread])) ∧
      Parked w w' c timeout := by
  have hq₁ : Queues (w.modify w.runningThread fun t =>
      { t with cond := some c, nextwait := none, state := timeout.1,
               condtimeout := timeout.2 }).nextwait w.waiting q := by
    rw [World.nextwait_modify]
    exact hq.frame_update ht none
  obtain ⟨hq₂, hlinks⟩ := appendWaiting_spec hq₁ ht (by simp [World.nextwait]) h
  have hself := hlinks.thread w.runningThread
  refine ⟨hq₂, fun u hu => ?_, ?_, ?_, hlinks.systemRunning⟩
  · have hother := hlinks.thread u
    simp only [World.modify_thread, Function.update_of_ne hu] at hother
    exact hother
  · rw [hself]
    simp
  · rw [hself]
    simp

theorem condTimeout_waiting (abstime : Option Timespec) (time clock : ℤ) :
    (condTimeout abstime time clock).1.condWaiting = true := by
  cases abstime <;> rfl

end Park

/-! ### The scheduler -/

section Switch

variable {w w' : World}

/-- What freeing idle threads leaves alone: all that waiting threads use. -/
structure IdleOnly (w w' : World) : Prop where
  nextwait : w'.nextwait = w.nextwait
  waiting : w'.waiting = w.waiting
  mutex : ∀ u, (w'.thread u).mutex = (w.thread u).mutex
  mutextype : ∀ u, (w'.thread u).mutextype = (w.thread u).mutextype
  cond : ∀ u, (w'.thread u).cond = (w.thread u).cond
  state : ∀ u, (w'.thread u).state = (w.thread u).state ∨
    ((w.thread u).state = .idle ∧ (w'.thread u).state = .unalloced)
  systemRunning : w'.systemRunning = w.systemRunning

theorem IdleOnly.refl (w : World) : IdleOnly w w :=
  ⟨rfl, rfl, fun _ => rfl, fun _ => rfl, fun _ => rfl, fun _ => Or.inl rfl, rfl⟩

theorem IdleOnly.trans {w₁ w₂ w₃ : World} (h : IdleOnly w₁ w₂) (h' : IdleOnly w₂ w₃) :
    IdleOnly w₁ w₃ where
  nextwait := h'.nextwait.trans h.nextwait
  waiting := h'.waiting.trans h.waiting
  mutex u := (h'.mutex u).trans (h.mutex u)
  mutextype u := (h'.mutextype u).trans (h.mutextype u)
  cond u := (h'.cond u).trans (h.cond u)
  state u := by
    rcases h.state u with hs | ⟨hs, hs'⟩ <;> rcases h'.state u with ht | ⟨ht, ht'⟩
    · exact Or.inl (ht.trans hs)
    · exact Or.inr ⟨hs ▸ ht, ht'⟩
    · exact Or.inr ⟨hs, ht.trans hs'⟩
    · rw [hs'] at ht
      cases ht
  systemRunning := h'.systemRunning.trans h.systemRunning

theorem IdleOnly.modify (w : World) (t : Addr) {f : Thread → Thread}
    (hnext : (f (w.thread t)).nextwait = (w.thread t).nextwait)
    (hmutex : (f (w.thread t)).mutex = (w.thread t).mutex)
    (htype : (f (w.thread t)).mutextype = (w.thread t).mutextype)
    (hcond : (f (w.thread t)).cond = (w.thread t).cond)
    (hstate : (f (w.thread t)).state = (w.thread t).state ∨
      ((w.thread t).state = .idle ∧ (f (w.thread t)).state = .unalloced)) :
    IdleOnly w (w.modify t f) where
  nextwait := World.nextwait_modify_of_eq w t hnext
  waiting := rfl
  mutex u := by
    by_cases hu : u = t
    · subst hu
      simpa using hmutex
    · simp [hu]
  mutextype u := by
    by_cases hu : u = t
    · subst hu
      simpa using htype
    · simp [hu]
  cond u := by
    by_cases hu : u = t
    · subst hu
      simpa using hcond
    · simp [hu]
  state u := by
    by_cases hu : u = t
    · subst hu
      simpa using hstate
    · simp [hu]
  systemRunning := rfl

theorem cleanupIdle_spec {node : Option Addr} (h : cleanupIdle w node = .ok w') :
    IdleOnly w w' := by
  unfold cleanupIdle at h
  split at h
  · obtain rfl := Except.ok.inj h
    exact IdleOnly.refl w
  · rename_i t
    split at h
    · cases h
    · rename_i hidle
      have hidle : (w.thread t).state = .idle := not_not.mp hidle
      split at h
      · obtain rfl := Except.ok.inj h
        have hmod := IdleOnly.modify w t
          (f := fun v => { v with state := .unalloced, magic := 0 }) rfl rfl rfl rfl
          (Or.inr ⟨hidle, rfl⟩)
        exact ⟨hmod.nextwait, hmod.waiting, hmod.mutex, hmod.mutextype, hmod.cond, hmod.state,
          hmod.systemRunning⟩
      · obtain rfl := Except.ok.inj h
        exact IdleOnly.modify w t rfl rfl rfl rfl (Or.inr ⟨hidle, rfl⟩)

theorem freeIdle_spec (h : freeIdle w = .ok w') : IdleOnly w w' := by
  unfold freeIdle at h
  split at h
  · split at h
    · cases h
    · split at h
      · have hclean := cleanupIdle_spec h
        exact ⟨hclean.nextwait, hclean.waiting, hclean.mutex, hclean.mutextype, hclean.cond,
          hclean.state, hclean.systemRunning⟩
      · obtain rfl := Except.ok.inj h
        exact IdleOnly.refl w
  · split at h
    · exact (IdleOnly.modify w _ rfl rfl rfl rfl (Or.inl rfl)).trans (cleanupIdle_spec h)
    · obtain rfl := Except.ok.inj h
      exact IdleOnly.refl w

theorem switchTo_spec {next : Option Addr} {iter iter' : ℕ}
    (h : switchTo w next iter = .ok (w', iter')) : ∃ t, w' = w.on t := by
  unfold switchTo at h
  split at h
  · exact ⟨_, (Prod.mk.inj (Except.ok.inj h)).1.symm⟩
  · split at h
    · cases h
    · split at h
      · cases h
      · exact ⟨_, (Prod.mk.inj (Except.ok.inj h)).1.symm⟩

theorem unlinkCond_spec {q : Queue → List Addr} {c : Addr} {bound : ℕ}
    (hq : Queues w.nextwait w.waiting q) (hmem : w.runningThread ∈ q (.cond c))
    (hcond : (w.thread w.runningThread).cond = some c)
    (h : unlinkCond bound w = some (.ok w')) :
    Queues w'.nextwait w'.waiting (Function.update q (.cond c)
        ((q (.cond c)).filter fun u => decide (u ≠ w.runningThread))) ∧ LinksOnly w w' := by
  have hchain := hq.chain (.cond c)
  have hnodup := hchain.nodup
  obtain ⟨l₁, l₂, hsplit⟩ := List.append_of_mem hmem
  rw [hsplit, filter_ne_middle (hsplit ▸ hnodup)]
  rw [hsplit] at hchain hnodup
  unfold unlinkCond at h
  rw [hcond] at h
  dsimp only at h
  cases l₁ with
  | nil =>
    -- it is the first one of the list
    have hfirst : w.waiting (.cond c) = some w.runningThread := hchain.1
    rw [show (w.cond c).waiting = some w.runningThread from hfirst] at h
    dsimp only at h
    rw [if_pos rfl] at h
    obtain rfl := Except.ok.inj (Option.some.inj h)
    refine ⟨?_, LinksOnly.setWaiting w (.cond c) _⟩
    rw [World.nextwait_setWaiting, World.waiting_setWaiting]
    exact hq.pop hsplit
  | cons a l =>
    -- the loop stops at the thread before it
    have hfirst : w.waiting (.cond c) = some a := hchain.1
    rw [hfirst] at hchain
    rw [show (w.cond c).waiting = some a from hfirst] at h
    have hne : a ≠ w.runningThread := by
      rintro rfl
      simp at hnodup
    dsimp only at h
    rw [if_neg hne] at h
    obtain ⟨b, hseek, hb⟩ := Option.map_eq_some_iff.mp h
    obtain ⟨l', b', hlast⟩ : ∃ l' b', a :: l = l' ++ [b'] :=
      ⟨_, _, (List.dropLast_append_getLast (List.cons_ne_nil a l)).symm⟩
    have hsplit' : q (.cond c) = l' ++ b' :: w.runningThread :: l₂ := by
      rw [hsplit, hlast]
      simp
    have hchain' : Chain w.nextwait (some a) (l' ++ b' :: w.runningThread :: l₂) := by
      rw [hlast] at hchain
      simpa using hchain
    have hbb : b = b' := by
      rw [hchain'.seek_eq] at hseek
      split at hseek
      · exact (Option.some.inj hseek).symm
      · exact absurd hseek (by simp)
    subst hbb
    have hlink : w.nextwait b = some w.runningThread := hchain'.drop.1
    rw [hlink] at hb
    obtain rfl := Except.ok.inj hb
    refine ⟨?_, LinksOnly.setLink w b _⟩
    rw [World.nextwait_modify, World.waiting_modify, hlast]
    simpa using hq.unlink hsplit'

end Switch

/-! ### The waiting lists -/

section Steps

variable {s s' : Sys} {t c m : Addr}

theorem QueueInv.blockedOn_of_mem_cond (hI : QueueInv s) (h : t ∈ s.arrivals (.cond c)) :
    (s.ctl t).blockedOn = none := by
  cases hctl : (s.ctl t).blockedOn with
  | none => rfl
  | some m =>
    have hmem : t ∈ s.arrivals (.lock m) := by
      rw [hI.logged, waitsFor_lock, hctl]
      simp
    exact absurd (hI.queues.disjoint h hmem) (by simp)

/-- **A thread begins to wait on a condition variable**, starting from a state in which it has given up
the mutex. -/
theorem QueueInv.goTo_parked (hI : QueueInv s) (hctl : (s.ctl t).active = true)
    (hself : s.world.runningThread = t) {timeout : State × ℤ}
    (htimeout : timeout.1.condWaiting = true) (m : Addr) (timed : Bool) {fuel : ℕ}
    (h : condPark fuel s.world c timeout = some w) :
    QueueInv (s.goTo t w (.condWait c m timed)) := by
  subst hself
  obtain ⟨hqueues, hparked⟩ := condPark_spec hI.queues (hI.not_mem_of_active hctl) h
  have hwaits : ∀ k, waitsFor w (Function.update s.ctl s.world.runningThread
      (.condWait c m timed)) k s.world.runningThread = decide (k = .cond c) := by
    intro k
    rw [Bool.eq_iff_iff]
    cases k with
    | lock m' => simp [Ctl.blockedOn]
    | cond c' =>
      simp only [waitsFor_cond, hparked.state, htimeout, hparked.cond, Bool.true_and, beq_iff_eq,
        Option.some.injEq, decide_eq_true_eq, Queue.cond.injEq]
      exact eq_comm
  obtain ⟨hI', hother⟩ := hI.push (t := s.world.runningThread)
    (Function.update s.ctl s.world.runningThread (.condWait c m timed)) s.held hqueues hwaits
    (fun m' type' hpc => by simp at hpc) (by rw [Function.update_self]; rfl)
    (fun u hu => Function.update_of_ne hu _ _) hparked.other
  have harr := Sys.arrivalsAfter_push hI.logged (hI.waits_of_active hctl) hwaits hother
  unfold Sys.goTo
  rw [harr]
  exact hI'

/-- **Signalling.** The thread that waits longest is woken, and no other one. -/
theorem QueueInv.goTo_signalled (hI : QueueInv s) {u : Addr} {rest : List Addr}
    (hlist : s.arrivals (.cond c) = u :: rest) (ctl : Addr → Ctl) (hctl : ctl = s.ctl)
    (held : Addr → List (Addr × LockType))
    (hnext : w.nextwait = s.world.nextwait)
    (hwait : w.waiting = Function.update s.world.waiting (.cond c) (s.world.nextwait u))
    (hstate : (w.thread u).state = .running)
    (hother : ∀ v, v ≠ u → w.thread v = s.world.thread v) :
    QueueInv ⟨w, ctl, held, Function.update s.arrivals (.cond c) rest⟩ ∧
      ∀ k v, waitsFor w ctl k v =
        (waitsFor s.world s.ctl k v && !(decide (k = .cond c ∧ v = u))) := by
  subst hctl
  have hnodup := (hI.queues.chain (.cond c)).nodup
  have hfilter : (s.arrivals (.cond c)).filter (fun v => decide (v ≠ u)) = rest := by
    rw [hlist] at hnodup ⊢
    exact filter_ne_middle (t := u) (show ([] ++ u :: rest).Nodup from hnodup)
  have hmem : u ∈ s.arrivals (.cond c) := by simp [hlist]
  have hrem := hI.remove (w := w) s.ctl held hmem
    (by
      rw [hfilter, hnext, hwait]
      exact hI.queues.pop hlist)
    (hI.blockedOn_of_mem_cond hmem) (by rw [hstate]; rfl) (fun _ _ => rfl)
    (fun v hv => by rw [hother v hv])
  rw [hfilter] at hrem
  exact hrem

theorem QueueInv.goTo_broadcast (hI : QueueInv s) (ctl : Addr → Ctl) (hctl : ctl = s.ctl)
    (held : Addr → List (Addr × LockType)) (c : Addr) (t : Addr) :
    QueueInv ⟨((s.world.on t).wake (s.arrivals (.cond c))).setWaiting (.cond c) none, ctl, held,
        Function.update s.arrivals (.cond c) []⟩ ∧
      ∀ k u, waitsFor (((s.world.on t).wake (s.arrivals (.cond c))).setWaiting (.cond c) none)
        ctl k u = (waitsFor s.world s.ctl k u && !(decide (k = .cond c))) := by
  subst hctl
  have hwaits : ∀ k u, waitsFor (((s.world.on t).wake (s.arrivals (.cond c))).setWaiting
      (.cond c) none) s.ctl k u =
        (waitsFor s.world s.ctl k u && !(decide (k = .cond c))) := by
    intro k u
    by_cases hu : u ∈ s.arrivals (.cond c)
    · have hfalse : waitsFor (((s.world.on t).wake (s.arrivals (.cond c))).setWaiting
          (.cond c) none) s.ctl k u = false := by
        refine waitsFor_eq_false (hI.blockedOn_of_mem_cond hu) ?_
        rw [World.setWaiting_thread, World.wake_thread_of_mem hu]
        rfl
      rw [hfalse]
      by_cases hk : k = .cond c
      · simp [hk]
      · have hnot := hI.queues.not_mem_of_ne hu hk
        rw [hI.logged, Bool.not_eq_true] at hnot
        simp [hnot]
    · have hsame : waitsFor (((s.world.on t).wake (s.arrivals (.cond c))).setWaiting
          (.cond c) none) s.ctl k u = waitsFor s.world s.ctl k u :=
        waitsFor_congr rfl
          (by rw [World.setWaiting_thread, World.wake_thread_of_not_mem hu]; rfl)
          (by rw [World.setWaiting_thread, World.wake_thread_of_not_mem hu]; rfl)
      rw [hsame]
      by_cases hk : k = .cond c
      · subst hk
        have hnot := hu
        rw [hI.logged, Bool.not_eq_true] at hnot
        simp [hnot]
      · simp [hk]
  refine ⟨⟨?_, ?_, ?_, ?_⟩, hwaits⟩
  · change Queues _ _ (Function.update s.arrivals (.cond c) [])
    rw [World.nextwait_setWaiting, World.nextwait_wake, World.waiting_setWaiting,
      World.waiting_wake]
    exact hI.queues.clear
  · intro k u
    change u ∈ Function.update s.arrivals (.cond c) [] k ↔ waitsFor _ s.ctl k u = true
    rw [hwaits, Bool.and_eq_true, ← hI.logged k u]
    by_cases hk : k = .cond c
    · simp [hk]
    · simp [hk]
  · intro u m type hu
    change s.ctl u = _ at hu
    -- a blocked thread is not among those woken
    have hnot : u ∉ s.arrivals (.cond c) := fun hmem => by
      have hnone := hI.blockedOn_of_mem_cond hmem
      rw [hu] at hnone
      exact absurd hnone (by simp [Ctl.blockedOn])
    simp only [World.setWaiting_thread, World.wake_thread_of_not_mem hnot]
    exact hI.blocked hu
  · intro u hu
    simp only [World.setWaiting_thread]
    by_cases hmem : u ∈ s.arrivals (.cond c)
    · rw [World.wake_thread_of_mem hmem]
      rfl
    · rw [World.wake_thread_of_not_mem hmem]
      exact hI.active hu

theorem QueueInv.timeOut (hI : QueueInv s) {bound : ℕ} {clock : ℤ}
    (h : timeOut bound clock s.world = some (.ok w)) :
    ∃ arrivals, QueueInv ⟨w, s.ctl, s.held, arrivals⟩ ∧
      (∀ k u, waitsFor w s.ctl k u = true → waitsFor s.world s.ctl k u = true) ∧
      (∀ k, arrivals k = (s.arrivals k).filter (waitsFor w s.ctl k)) ∧
      w.systemRunning = s.world.systemRunning := by
  unfold UnixLib.timeOut at h
  split at h
  · rename_i htime
    obtain ⟨hstate, -⟩ := htime
    cases hc : (s.world.thread s.world.runningThread).cond with
    | none =>
      -- a waiting thread has a condition variable
      unfold unlinkCond at h
      simp [hc] at h
    | some c =>
      have hmem : s.world.runningThread ∈ s.arrivals (.cond c) := by
        rw [hI.logged, waitsFor_cond, hstate, hc]
        simp [State.condWaiting]
      have hnext := World.nextwait_modify_of_eq s.world s.world.runningThread
        (f := fun v => { v with state := .running }) rfl
      obtain ⟨hqueues, hlinks⟩ := unlinkCond_spec (w := s.world.modify s.world.runningThread _)
        (by rw [hnext]; exact hI.queues) hmem (by simpa using hc) h
      have hself := hlinks.thread s.world.runningThread
      obtain ⟨hI', hwaits⟩ := hI.remove s.ctl s.held hmem hqueues
        (hI.blockedOn_of_mem_cond hmem)
        (by
          rw [hself]
          simp [State.condWaiting])
        (fun _ _ => rfl)
        (fun u hu => by
          have hu' := hlinks.thread u
          simp only [World.modify_thread, Function.update_of_ne hu] at hu'
          exact hu')
      refine ⟨_, hI', fun k u hu => ?_, fun k => ?_, hlinks.systemRunning⟩
      · rw [hwaits, Bool.and_eq_true] at hu
        exact hu.1
      · have harr := Sys.arrivalsAfter_remove (t := s.world.runningThread) hI.logged hwaits
        have hfilter := Sys.arrivalsAfter_filter (t := s.world.runningThread) hI.logged _ hwaits k
        rw [harr] at hfilter
        rw [hfilter]
        refine List.filter_congr fun u hu => ?_
        rw [hwaits, (hI.logged k u).mp hu, Bool.true_and]
  · obtain rfl := Except.ok.inj (Option.some.inj h)
    refine ⟨s.arrivals, hI, fun _ _ h => h, fun k => ?_, rfl⟩
    exact (List.filter_eq_self.mpr fun u hu => (hI.logged k u).mp hu).symm

/-- In the course of a pass of the scheduler from the state `s`: some threads do not wait any more. -/
structure Settled (s : Sys) (w : World) : Prop where
  queue : QueueInv ⟨w, s.ctl, s.held, fun k => (s.arrivals k).filter (waitsFor w s.ctl k)⟩
  fewer : ∀ {k u}, waitsFor w s.ctl k u = true → waitsFor s.world s.ctl k u = true
  systemRunning : w.systemRunning = s.world.systemRunning

namespace Settled

theorem refl (hI : QueueInv s) : Settled s s.world := by
  have harr : (fun k => (s.arrivals k).filter (waitsFor s.world s.ctl k)) = s.arrivals := by
    funext k
    exact List.filter_eq_self.mpr fun u hu => (hI.logged k u).mp hu
  refine ⟨?_, fun h => h, rfl⟩
  rw [harr]
  exact hI

theorem step {w' : World} (h : Settled s w) {arrivals : Queue → List Addr}
    (hI : QueueInv ⟨w', s.ctl, s.held, arrivals⟩)
    (hfewer : ∀ k u, waitsFor w' s.ctl k u = true → waitsFor w s.ctl k u = true)
    (harr : ∀ k, arrivals k =
      ((s.arrivals k).filter (waitsFor w s.ctl k)).filter (waitsFor w' s.ctl k))
    (hsys : w'.systemRunning = w.systemRunning) : Settled s w' := by
  have heq : arrivals = fun k => (s.arrivals k).filter (waitsFor w' s.ctl k) := by
    funext k
    rw [harr, List.filter_filter]
    refine List.filter_congr fun u _ => ?_
    cases hu : waitsFor w' s.ctl k u with
    | false => rfl
    | true => rw [hfewer k u hu, Bool.and_self]
  exact ⟨heq ▸ hI, fun hu => h.fewer (hfewer _ _ hu), hsys.trans h.systemRunning⟩

theorem on (h : Settled s w) (t : Addr) : Settled s (w.on t) :=
  ⟨⟨h.queue.queues, h.queue.logged, h.queue.blocked, h.queue.active⟩, h.fewer, h.systemRunning⟩

theorem idle {w' : World} (h : Settled s w) (hidle : IdleOnly w w') : Settled s w' := by
  obtain ⟨hI, hwaits⟩ := h.queue.same (w := w') s.ctl s.held (fun _ => rfl) (fun _ _ _ h => h)
    (fun u hu => h.queue.active hu) hidle.nextwait hidle.waiting hidle.mutex hidle.mutextype
    hidle.cond (fun u => by
      rcases hidle.state u with hs | ⟨hs, hs'⟩
      · exact Or.inl hs
      · refine Or.inr ⟨?_, ?_, fun m type hctl => ?_⟩
        · change (w.thread u).state.condWaiting = false
          rw [hs]
          rfl
        · rw [hs']
          rfl
        · -- an idle thread is not blocked
          have hstate := (h.queue.blocked hctl).2.2
          change (w.thread u).state = _ ∨ (w.thread u).state = _ at hstate
          rw [hs] at hstate
          rcases hstate with hstate | hstate <;> cases hstate)
  refine h.step hI (fun k u hu => ?_) (fun k => ?_) hidle.systemRunning
  · rwa [hwaits] at hu
  · refine (List.filter_eq_self.mpr fun u hu => ?_).symm
    rw [hwaits]
    exact (h.queue.logged k u).mp hu

theorem timeOut {w' : World} (h : Settled s w) {bound : ℕ} {clock : ℤ}
    (htime : timeOut bound clock w = some (.ok w')) : Settled s w' := by
  obtain ⟨arrivals, hI, hfewer, harr, hsys⟩ := h.queue.timeOut htime
  exact h.step hI hfewer harr hsys

/-- One pass of the loop, -/
theorem pass {w' : World} (h : Settled s w) {bound : ℕ} {clock : ℤ} {next : Option Addr}
    {iter iter' : ℕ} (hpass : switchPass bound clock w next iter = some (.ok (w', iter'))) :
    Settled s w' := by
  unfold switchPass at hpass
  cases hto : switchTo w next iter with
  | error e =>
    rw [hto] at hpass
    cases hpass
  | ok x =>
    obtain ⟨w₁, iter₁⟩ := x
    obtain ⟨t, rfl⟩ := switchTo_spec hto
    rw [hto] at hpass
    dsimp only at hpass
    cases hfree : freeIdle (w.on t) with
    | error e =>
      rw [hfree] at hpass
      cases hpass
    | ok w₂ =>
      rw [hfree] at hpass
      obtain ⟨r, htime, hr⟩ := Option.map_eq_some_iff.mp hpass
      cases r with
      | error e => cases hr
      | ok w₃ =>
        obtain ⟨rfl, -⟩ := Prod.mk.inj (Except.ok.inj hr)
        exact ((h.on t).idle (freeIdle_spec hfree)).timeOut htime

theorem loop {w' : World} {bound : ℕ} {clock : ℕ → ℤ} : ∀ {fuel : ℕ} {w : World}
    {next : Option Addr} {iter : ℕ}, Settled s w →
    switchLoop bound clock fuel w next iter = some (.ok w') → Settled s w'
  | 0, _, _, _, _, h => by cases h
  | fuel + 1, w, next, iter, hs, h => by
    rw [switchLoop] at h
    obtain ⟨r, hpass, h⟩ := Option.bind_eq_some_iff.mp h
    cases r with
    | error e => cases h
    | ok x =>
      obtain ⟨w₁, iter₁⟩ := x
      have hs₁ := hs.pass hpass
      dsimp only at h
      split at h
      · obtain rfl := Except.ok.inj (Option.some.inj h)
        exact hs₁
      · exact hs₁.loop h

theorem goTo (h : Settled s w) (hI : QueueInv s) (t : Addr) :
    s.goTo t w (s.ctl t) =
      ⟨w, s.ctl, s.held, fun k => (s.arrivals k).filter (waitsFor w s.ctl k)⟩ := by
  unfold Sys.goTo
  rw [Function.update_eq_self]
  congr 1
  funext k
  unfold Sys.arrivalsAfter
  rw [if_neg, List.append_nil]
  rintro ⟨ht, hmem⟩
  exact hmem ((hI.logged k t).mpr (h.fewer ht))

end Settled

end Steps

/-! ### The invariant of the system -/

/-- **The waiting lists are the threads that wait, and no thread waits before there is a thread
system.** -/
structure CondInv (s : Sys) : Prop where
  queue : QueueInv s
  started : ∀ {t c m timed}, s.ctl t = .condWait c m timed → s.world.systemRunning = true

namespace CondInv

variable {s s' : Sys} {t c m : Addr} {a : CondAction}

private theorem condWait_of_update {ctl : Addr → Ctl} {pc : Ctl} {u : Addr} {timed : Bool}
    (hpc : ∀ c m timed, pc ≠ .condWait c m timed)
    (h : Function.update ctl t pc u = .condWait c m timed) : ctl u = .condWait c m timed := by
  by_cases hu : u = t
  · subst hu
    rw [Function.update_self] at h
    exact absurd h (hpc c m timed)
  · rwa [Function.update_of_ne hu] at h

theorem effect (hI : CondInv s) {b : LockAction} (h : LockEffect s b s') : CondInv s' := by
  refine ⟨hI.queue.effect h, fun {u c m timed} hu => ?_⟩
  cases h with
  | acquired => exact hI.started (condWait_of_update (by simp) hu)
  | failed => exact hI.started (condWait_of_update (by simp) hu)
  | blocked _ _ hblocked _ =>
    exact hblocked.systemRunning.trans (hI.started (condWait_of_update (by simp) hu))
  | waits => exact hI.started (condWait_of_update (by simp) hu)
  | took _ _ htook _ =>
    exact htook.systemRunning.trans (hI.started (condWait_of_update (by simp) hu))
  | released => exact hI.started (condWait_of_update (by simp) hu)

private theorem unlocked (hI : QueueInv s) (hctl : s.ctl t = .user) {fuel : ℕ} {code : Code}
    {w : World} (h : lockUnlock fuel (s.world.on t) (some m) = some (.returns code w)) :
    QueueInv ⟨w, s.ctl, s.held, s.arrivals⟩ ∧ w.runningThread = t ∧
      w.systemRunning = s.world.systemRunning := by
  have hactive := Ctl.active_of_user hctl
  have hupdate : Function.update s.ctl t .user = s.ctl := by
    rw [← hctl, Function.update_eq_self]
  rcases lockUnlock_cases (w := s.world.on t) (hI.chain m) (hI.members hactive) h with
    ⟨-, ho⟩ | ⟨-, woken, hsub, -, ho⟩
  · obtain ⟨-, rfl⟩ : code = some .EPERM ∧ w = s.world.on t := by
      cases ho
      exact ⟨rfl, rfl⟩
    obtain ⟨hI', heq⟩ := hI.goTo_failed hactive
    rw [heq, hupdate] at hI'
    exact ⟨hI', rfl, rfl⟩
  · obtain rfl : w = ((s.world.on t).modifyLock m Lock.released).wake woken := by
      cases ho
      rfl
    obtain ⟨hI', heq⟩ := hI.goTo_released (t := t) (m := m) (f := Lock.released) hactive rfl hsub
    rw [heq, hupdate] at hI'
    exact ⟨hI', rfl, rfl⟩

theorem wait (hI : CondInv s) (hctl : s.ctl t = .user) (hsys : s.world.systemRunning = true)
    {abstime : Option Timespec} {time clock : ℤ} {fuel : ℕ} {code : Code} {w : World}
    (h : condTimedwait fuel (s.world.on t) (some c) (some m) abstime time clock =
      some (.yields code w)) : CondInv (s.goTo t w (.condWait c m abstime.isSome)) := by
  unfold condTimedwait at h
  dsimp only at h
  split at h
  · cases h
  · obtain ⟨o, hunlock, h⟩ := Option.bind_eq_some_iff.mp h
    cases o with
    | returns code' w₁ =>
      obtain ⟨w₂, hpark, hw⟩ := Option.map_eq_some_iff.mp h
      obtain ⟨-, rfl⟩ : code' = code ∧ w₂ = w := by
        cases hw
        exact ⟨rfl, rfl⟩
      obtain ⟨hI₁, hrun, hsys₁⟩ := unlocked hI.queue hctl hunlock
      have hI₂ := hI₁.goTo_parked (t := t) (Ctl.active_of_user hctl) hrun
        (condTimeout_waiting abstime time clock) m abstime.isSome hpark
      refine ⟨hI₂, fun _ => ?_⟩
      obtain ⟨-, hparked⟩ := condPark_spec hI₁.queues
        (by rw [hrun]; exact hI₁.not_mem_of_active (Ctl.active_of_user hctl)) hpark
      exact hparked.systemRunning.trans (hsys₁.trans hsys)
    | yields w₁ => cases h
    | fatal msg => cases h

private theorem waitFails (hI : QueueInv s) (hctl : s.ctl t = .user)
    {abstime : Option Timespec} {time clock : ℤ} {fuel : ℕ} {code : Code} {w : World}
    (h : condTimedwait fuel (s.world.on t) (some c) (some m) abstime time clock =
      some (.returns code w)) : w = s.world.on t := by
  unfold condTimedwait at h
  dsimp only at h
  split at h
  · cases h
    rfl
  · obtain ⟨o, hunlock, h⟩ := Option.bind_eq_some_iff.mp h
    cases o with
    | returns code' w₁ =>
      obtain ⟨w₂, -, hw⟩ := Option.map_eq_some_iff.mp h
      cases hw
    | yields w₁ =>
      -- unlocking never blocks
      rcases lockUnlock_cases (w := s.world.on t) (hI.chain m)
          (hI.members (Ctl.active_of_user hctl)) hunlock with ⟨-, ho⟩ | ⟨-, woken, -, -, ho⟩
      · cases ho
      · cases ho
    | fatal msg => cases h

theorem wakes (hI : CondInv s) {timed b : Bool} (hctl : s.ctl t = .condWait c m timed)
    (hres : s.Resumes t) : CondInv (s.goTo t (s.world.on t) (.condLock m b)) := by
  have hstate : (s.world.thread t).state.condWaiting = false := by
    rcases hres with hrunnable | ⟨hsys, -⟩
    · cases hs : (s.world.thread t).state <;> simp_all [State.runnable, State.condWaiting]
    · rw [hI.started hctl] at hsys
      cases hsys
  obtain ⟨hI', -⟩ := hI.queue.goTo_same (t := t) (s.world.on t) (.condLock m b)
    (by rw [hctl]; rfl) (by simp) (fun _ => hstate) rfl rfl (fun _ => rfl) (fun _ => rfl)
    (fun _ => rfl) (fun _ => Or.inl rfl)
  exact ⟨hI', fun hu => hI.started (condWait_of_update (by simp) hu)⟩

theorem signal (hI : CondInv s) (hctl : s.ctl t = .user) :
    CondInv (s.goTo t (condSignal (s.world.on t) (some c)).2 .user) := by
  have hactive := Ctl.active_of_user hctl
  have hupdate : Function.update s.ctl t .user = s.ctl := by
    rw [← hctl, Function.update_eq_self]
  have hchain := hI.queue.queues.chain (.cond c)
  cases hlist : s.arrivals (.cond c) with
  | nil =>
    have hempty : (s.world.cond c).waiting = none := hchain.eq_nil_iff.mp hlist
    have hworld : (condSignal (s.world.on t) (some c)).2 = s.world.on t := by
      simp [condSignal, hempty]
    rw [hworld]
    exact effect hI (b := .unlock t t) (.failed hactive)
  | cons u rest =>
    rw [hlist] at hchain
    have hhead : (s.world.cond c).waiting = some u := hchain.1
    have hworld : (condSignal (s.world.on t) (some c)).2 =
        ((s.world.on t).modify u fun v => { v with state := .running }).setWaiting (.cond c)
          (s.world.nextwait u) := by
      simp [condSignal, hhead]
    rw [hworld]
    obtain ⟨hI', hwaits⟩ := hI.queue.goTo_signalled
      (w := ((s.world.on t).modify u fun v => { v with state := .running }).setWaiting (.cond c)
        (s.world.nextwait u)) hlist _ hupdate s.held
      (by rw [World.nextwait_setWaiting]; exact World.nextwait_modify_of_eq _ _ rfl)
      (by rw [World.waiting_setWaiting]; rfl) (by simp) (fun v hv => by simp [hv])
    have harr := Sys.arrivalsAfter_remove (t := t) hI.queue.logged hwaits
    have hnodup : ([] ++ u :: rest).Nodup := hchain.nodup
    rw [hlist, show (u :: rest).filter (fun v => decide (v ≠ u)) = rest from
      filter_ne_middle hnodup] at harr
    refine ⟨?_, fun hu => ?_⟩
    · unfold Sys.goTo
      rw [harr]
      exact hI'
    · have hsys : s.world.systemRunning = true := hI.started (condWait_of_update (by simp) hu)
      change World.systemRunning (World.setWaiting _ _ _) = true
      rw [World.setWaiting_systemRunning]
      exact hsys

theorem broadcast (hI : CondInv s) (hctl : s.ctl t = .user) {fuel : ℕ} {code : Code} {w : World}
    (h : condBroadcast fuel (s.world.on t) (some c) = some (code, w)) :
    CondInv (s.goTo t w .user) := by
  have hupdate : Function.update s.ctl t .user = s.ctl := by
    rw [← hctl, Function.update_eq_self]
  obtain ⟨w₁, hwake, hw⟩ := Option.map_eq_some_iff.mp h
  obtain ⟨-, rfl⟩ := Prod.mk.inj hw
  obtain rfl := wakeAll_eq (w := s.world.on t) (hI.queue.queues.chain (.cond c)) hwake
  obtain ⟨hI', hwaits⟩ := hI.queue.goTo_broadcast _ hupdate s.held c t
  have harr : s.arrivalsAfter t
      (((s.world.on t).wake (s.arrivals (.cond c))).setWaiting (.cond c) none)
      (Function.update s.ctl t .user) = Function.update s.arrivals (.cond c) [] := by
    funext k
    rw [Sys.arrivalsAfter_filter hI.queue.logged _ hwaits]
    by_cases hk : k = .cond c
    · subst hk
      rw [Function.update_self]
      exact List.filter_eq_nil_iff.mpr fun u _ => by simp
    · rw [Function.update_of_ne hk]
      exact List.filter_eq_self.mpr fun u _ => by simp [hk]
  refine ⟨?_, fun hu => ?_⟩
  · unfold Sys.goTo
    rw [harr]
    exact hI'
  · have hsys : s.world.systemRunning = true := hI.started (condWait_of_update (by simp) hu)
    change World.systemRunning (World.setWaiting _ _ _) = true
    rw [World.setWaiting_systemRunning, World.wake_systemRunning]
    exact hsys

/-- **Step lemma.** -/
theorem step (hI : CondInv s) (hsound : a.Sound s) (h : CondStep s a s') : CondInv s' := by
  cases h with
  | lock hstep => exact hI.effect (hstep.effect hI.queue)
  | @wait t c m abstime time clock fuel code w hctl _ hwait =>
    have hI' := hI.wait hctl hsound hwait
    unfold Sys.releaseOn
    split
    · exact ⟨hI'.queue.release m t, hI'.started⟩
    · exact hI'
  | waitFails hctl _ hwait =>
    obtain rfl := waitFails hI.queue hctl hwait
    exact hI.effect (b := .unlock 0 0) (.failed (Ctl.active_of_user hctl))
  | wakes hctl hres => exact hI.wakes hctl hres
  | @relock t m timedOut fuel o _ hctl _ hrun hafter =>
    have hlock : LockFn.mutexLock.run fuel (s.world.on t) (some m) = some o := hrun
    exact hI.effect (hI.queue.callEffect (by rw [hctl]; rfl) hlock hafter)
  | signal hctl _ => exact hI.signal hctl
  | broadcast hctl _ hcast => exact hI.broadcast hctl hcast
  | @switch bound clock fuel w hswitch =>
    have hsettled := (Settled.refl hI.queue).loop hswitch
    rw [hsettled.goTo hI.queue]
    exact ⟨hsettled.queue, fun hu => hsettled.systemRunning.trans (hI.started hu)⟩
  | start =>
    exact ⟨⟨hI.queue.queues, hI.queue.logged, hI.queue.blocked, hI.queue.active⟩, fun _ => rfl⟩

theorem initial (h : s.Initial) : CondInv s :=
  ⟨QueueInv.initial h, fun hctl => by simp [h.ctl] at hctl⟩

/-- **Run lemma.** -/
theorem run {s₀ : Sys} (hinit : s₀.Initial) (h : SoundCondRun s₀ s) : CondInv s := by
  induction h with
  | refl => exact initial hinit
  | tail _ hstep ih =>
    obtain ⟨a, hsound, hstep⟩ := hstep
    exact ih.step hsound hstep

end CondInv

/-! ### The order of a condition variable -/

/-- **What a condition variable does**, in a state of a run. -/
structure CondOrder (s : Sys) (c : Addr) : Prop where
  /-- Its list leads, and ends, through the threads that wait in the order of arrival, each once; -/
  list : Chain s.world.nextwait (s.world.cond c).waiting (s.arrivals (.cond c))
  nodup : (s.arrivals (.cond c)).Nodup
  /-- these are the threads whose state is a wait on it. -/
  waiting : ∀ t, t ∈ s.arrivals (.cond c) ↔
    (s.world.thread t).state.condWaiting = true ∧ (s.world.thread t).cond = some c
  /-- A signal makes the thread runnable that has been waiting longest, and no other one, -/
  signal : ∀ {u rest w}, s.arrivals (.cond c) = u :: rest → ∀ t,
    condSignal (s.world.on t) (some c) = (none, w) →
    (w.thread u).state = .running ∧ (∀ v, v ≠ u → (w.thread v).state = (s.world.thread v).state) ∧
      Chain w.nextwait (w.cond c).waiting rest
  /-- and a broadcast ends and makes all of them runnable. -/
  broadcast : ∀ t, ∃ fuel w, condBroadcast fuel (s.world.on t) (some c) = some (none, w) ∧
    (∀ u ∈ s.arrivals (.cond c), (w.thread u).state = .running) ∧
    (∀ v, v ∉ s.arrivals (.cond c) → (w.thread v).state = (s.world.thread v).state) ∧
    (w.cond c).waiting = none

theorem wakeAll_isSome : ∀ {l : List Addr} {w : World} {h : Option Addr},
    Chain w.nextwait h l → wakeAll l.length w h = some (w.wake l)
  | [], w, h, hl => by
    rw [chain_nil.mp hl, World.wake_nil]
    rfl
  | a :: l, w, h, hl => by
    obtain ⟨rfl, hrest⟩ := hl
    have hnext : (w.modify a fun v => { v with state := .running }).nextwait = w.nextwait :=
      World.nextwait_modify_of_eq _ _ rfl
    rw [World.wake_cons]
    change wakeAll l.length (w.modify a fun v => { v with state := .running }) (w.nextwait a) = _
    exact wakeAll_isSome (by rwa [hnext])

/-- **Condition variables.** -/
theorem condRun_condOrder {s₀ s : Sys} (hinit : s₀.Initial) (hrun : SoundCondRun s₀ s) (c : Addr) :
    CondOrder s c := by
  have hI := (CondInv.run hinit hrun).queue
  have hchain := hI.queues.chain (.cond c)
  refine ⟨hchain, hchain.nodup, fun t => ?_, ?_, fun t => ?_⟩
  · rw [hI.logged, waitsFor_cond, Bool.and_eq_true, beq_iff_eq]
  · intro u rest w hlist t hsignal
    rw [hlist] at hchain
    have hhead : (s.world.cond c).waiting = some u := hchain.1
    simp only [condSignal, World.on_cond, hhead, Prod.mk.injEq, true_and] at hsignal
    subst hsignal
    refine ⟨by simp, fun v hv => by simp [hv], ?_⟩
    rw [World.nextwait_setWaiting, World.nextwait_modify_of_eq _ _ rfl]
    change Chain _ (World.waiting _ (.cond c)) rest
    rw [World.waiting_setWaiting, Function.update_self]
    exact hchain.2
  · refine ⟨(s.arrivals (.cond c)).length,
      ((s.world.on t).wake (s.arrivals (.cond c))).setWaiting (.cond c) none, ?_, ?_, ?_, ?_⟩
    · have hwake : wakeAll (s.arrivals (.cond c)).length (s.world.on t)
          ((s.world.on t).cond c).waiting = some ((s.world.on t).wake (s.arrivals (.cond c))) :=
        wakeAll_isSome hchain
      unfold condBroadcast
      dsimp only
      rw [hwake]
      rfl
    · intro u hu
      rw [World.setWaiting_thread, World.wake_thread_of_mem hu]
    · intro v hv
      rw [World.setWaiting_thread, World.wake_thread_of_not_mem hv]
      rfl
    · change World.waiting _ (.cond c) = none
      rw [World.waiting_setWaiting, Function.update_self]

/-! ### A wait before the thread system runs -/

def Sys.condPerform (fuel : ℕ) (s : Sys) : CondAction → Option Sys
  | .lock a => s.perform fuel a
  | .wait t c m abstime time clock =>
    if s.ctl t = .user ∧ s.Ready t then
      (condTimedwait fuel (s.world.on t) (some c) (some m) abstime time clock).bind fun
        | .yields code w => some ((s.goTo t w (.condWait c m abstime.isSome)).releaseOn code m t)
        | .returns _ w => some (s.goTo t w .user)
        | .fatal _ => none
    else none
  | .wakes t clock =>
    match s.ctl t with
    | .condWait _ m timed =>
      if s.Resumes t then
        some (s.goTo t (s.world.on t) (.condLock m (condTimedOut (s.world.on t) timed clock)))
      else none
    | _ => none
  | .relock t =>
    match s.ctl t with
    | .condLock m _ =>
      if s.Ready t then
        (pthreadMutexLock fuel (s.world.on t) (some m)).bind (s.afterLock t m .mutex)
      else none
    | _ => none
  | .start => some { s with world := { s.world with systemRunning := true } }
  | _ => none

theorem Sys.condPerform_step {fuel : ℕ} {s s' : Sys} {a : CondAction}
    (h : s.condPerform fuel a = some s') : CondStep s a s' := by
  cases a with
  | lock a => exact .lock (Sys.perform_step h)
  | wait t c m abstime time clock =>
    simp only [Sys.condPerform, Option.ite_none_right_eq_some] at h
    obtain ⟨⟨hctl, hready⟩, h⟩ := h
    obtain ⟨o, hwait, h⟩ := Option.bind_eq_some_iff.mp h
    cases o with
    | yields code w =>
      obtain rfl := Option.some.inj h
      exact .wait hctl hready hwait
    | returns code w =>
      obtain rfl := Option.some.inj h
      exact .waitFails hctl hready hwait
    | fatal msg => cases h
  | wakes t clock =>
    simp only [Sys.condPerform] at h
    split at h
    · rename_i c m timed hctl
      obtain ⟨hres, hs⟩ := (Option.ite_none_right_eq_some ..).mp h
      obtain rfl := Option.some.inj hs
      exact .wakes hctl hres
    · exact absurd h (by simp)
  | relock t =>
    simp only [Sys.condPerform] at h
    split at h
    · rename_i m timedOut hctl
      obtain ⟨hready, hs⟩ := (Option.ite_none_right_eq_some ..).mp h
      obtain ⟨o, hlock, hafter⟩ := Option.bind_eq_some_iff.mp hs
      exact .relock hctl hready hlock hafter
    · exact absurd h (by simp)
  | start =>
    obtain rfl := Option.some.inj h
    exact .start
  | _ => cases h

theorem Sys.condPerform_run {fuel : ℕ} {s' : Sys} : ∀ {as : List CondAction} {s : Sys},
    as.foldlM (Sys.condPerform fuel) s = some s' → CondRun s s'
  | [], s, h => by
    obtain rfl := Option.some.inj h
    exact .refl
  | a :: as, s, h => by
    rw [List.foldlM_cons] at h
    obtain ⟨s₁, hstep, hrest⟩ := Option.bind_eq_some_iff.mp h
    exact (Sys.condPerform_run hrest).head ⟨a, Sys.condPerform_step hstep⟩

theorem condRun_condOrder_wait : ∃ s, SoundCondRun (Sys.fresh (pthreadMutexInit none)) s ∧
    s.arrivals (.cond 0) = [0] ∧ CondOrder s 0 := by
  obtain ⟨s₁, hlock, hs₁⟩ := Option.map_eq_some_iff.mp
    (show ((Sys.fresh (pthreadMutexInit none)).condPerform 1 (.lock (.call 0 .mutexLock 0))).map
      (fun s => (s.world.systemRunning, (s.condPerform 1 (.wait 0 0 0 none 0 0)).map
        fun s => s.arrivals (.cond 0))) = some (true, some [0]) from rfl)
  obtain ⟨hsys, hwait⟩ := Prod.mk.inj hs₁
  obtain ⟨s, hstep, hlist⟩ := Option.map_eq_some_iff.mp hwait
  have hrun : SoundCondRun (Sys.fresh (pthreadMutexInit none)) s :=
    (Relation.ReflTransGen.single ⟨.lock _, trivial, Sys.condPerform_step hlock⟩).tail
      ⟨.wait .., hsys, Sys.condPerform_step hstep⟩
  exact ⟨s, hrun, hlist, condRun_condOrder (Sys.initial_fresh none (Or.inl rfl)) hrun 0⟩

/-- A thread alone waits twice, and each time `pthread_yield` returns at once: it has then become the
successor of itself. -/
theorem condOrder_not_unstarted : ¬ ∀ s₀ s : Sys, s₀.Initial → CondRun s₀ s →
    ∀ c, CondOrder s c := by
  intro hall
  obtain ⟨s₀, hs₀⟩ : ∃ s₀ : Sys, s₀ = { Sys.fresh (pthreadMutexInit none) with
    world := { (Sys.fresh (pthreadMutexInit none)).world with systemRunning := false } } := ⟨_, rfl⟩
  have hinit : s₀.Initial := by
    subst hs₀
    exact ⟨fun _ => ⟨none, Or.inl rfl⟩, fun _ => rfl, fun _ => rfl, fun _ => rfl, fun _ => rfl,
      fun _ => rfl⟩
  obtain ⟨s, hperform, hs⟩ : ∃ s, [CondAction.lock (.call 0 .mutexLock 0), .wait 0 0 0 none 0 0,
        .wakes 0 0, .relock 0, .wait 0 0 0 none 0 0].foldlM (Sys.condPerform 2) s₀ = some s ∧
      (s.world.nextwait 0, s.world.waiting (.cond 0)) = (some 0, some 0) := by
    subst hs₀
    exact Option.map_eq_some_iff.mp rfl
  obtain ⟨hself, hhead⟩ := Prod.mk.inj hs
  have horder := hall s₀ s hinit (Sys.condPerform_run hperform) 0
  -- The list has a first element, and that one again behind it.
  have hlist := horder.list
  have hnodup := horder.nodup
  change Chain s.world.nextwait (s.world.waiting (.cond 0)) _ at hlist
  rw [hhead] at hlist
  cases harr : s.arrivals (.cond 0) with
  | nil =>
    rw [harr] at hlist
    exact absurd (chain_nil.mp hlist) (by simp)
  | cons u rest =>
    rw [harr] at hlist hnodup
    obtain rfl : 0 = u := Option.some.inj hlist.1
    have hrest := hlist.2
    rw [hself] at hrest
    cases rest with
    | nil => exact absurd (chain_nil.mp hrest) (by simp)
    | cons v rest =>
      obtain rfl : 0 = v := Option.some.inj hrest.1
      exact absurd (List.mem_cons_self ..) (List.nodup_cons.mp hnodup).1

end UnixLib
