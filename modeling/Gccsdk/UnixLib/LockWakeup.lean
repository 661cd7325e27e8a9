import Gccsdk.UnixLib.LockSystem

/-!
# No wake-up of a lock is lost

`LockEffect` says what a step of a thread that uses locks can be, `LockStep.effect` that every step is
one of these; later proofs go through its cases. `QueueInv.lockStep` is the step lemma of the waiting
lists.

When a lock is given up, only one thread waiting for it is woken, or all of them if none wants it for
writing. That the others are not forgotten rests on `WakeInv`: a lock that is free and waited for has a
woken thread on its list. The woken thread may come too late, but then somebody else has the lock, and
will wake a thread in its turn.
-/

namespace UnixLib

open LinkedQueue

/-- **What a step does**: the lock is acquired at once, the call fails, the thread blocks, a blocked
thread goes on waiting or gets the lock, or the lock is given up. -/
inductive LockEffect (s : Sys) : LockAction → Sys → Prop
  | acquired {t m : Addr} {fn : LockFn} : (s.ctl t).active = true →
      fn.kind (s.world.lock m).type = true →
      (((s.world.lock m).grants fn.type = true ∧
          (fn.type = .read → ∀ u ∈ s.arrivals (.lock m), s.world.wantsWrite u = false)) ∨
        ((s.world.lock m).grants fn.type = false ∧ (s.world.lock m).owner = some t ∧
          (s.world.lock m).attr = .recursive ∧ (s.world.lock m).count ≠ UINT_MAX)) →
      LockEffect s (.call t fn m)
        ((s.goTo t (lockAcquire (s.world.on t) m fn.type) .user).hold m t fn.type)
  | failed {t : Addr} {a : LockAction} : (s.ctl t).active = true →
      LockEffect s a (s.goTo t (s.world.on t) .user)
  | blocked {t m : Addr} {fn : LockFn} {fuel : ℕ} {w : World} : (s.ctl t).active = true →
      lockBlock fuel (s.world.on t) m fn.type = some w → Blocked (s.world.on t) w m fn.type →
      ((s.world.lock m).owner = none → s.arrivals (.lock m) ≠ []) →
      LockEffect s (.call t fn m) (s.goTo t w (.lockBlock m fn.type))
  | waits {t m : Addr} {type : LockType} : s.ctl t = .lockBlock m type →
      (s.world.lock m).grants type = false →
      LockEffect s (.resume t) (s.goTo t
        ((s.world.on t).modify t fun v => { v with state := .mutexWait }) (.lockBlock m type))
  | took {t m : Addr} {type : LockType} {w : World} : s.ctl t = .lockBlock m type →
      (s.world.lock m).grants type = true → Took (s.world.on t) w m type →
      Queues w.nextwait w.waiting (Function.update s.arrivals (.lock m)
        ((s.arrivals (.lock m)).filter fun u => decide (u ≠ t))) →
      LockEffect s (.resume t) ((s.goTo t w .user).hold m t type)
  | released {t m : Addr} {woken : List Addr} : (s.ctl t).active = true →
      ¬ (s.world.lock m).refuses t → (∀ u ∈ woken, u ∈ s.arrivals (.lock m)) →
      ((s.world.lock m).released.owner = none → (s.world.lock m).owner ≠ none →
        s.arrivals (.lock m) ≠ [] → woken ≠ []) →
      LockEffect s (.unlock t m)
        ((s.goTo t (((s.world.on t).modifyLock m Lock.released).wake woken) .user).release m t)

section Effect

variable {s s' : Sys} {a : LockAction} {t m : Addr}

theorem QueueInv.members (hI : QueueInv s) (hctl : (s.ctl t).active = true) :
    ∀ u ∈ s.arrivals (.lock m), u ≠ t ∧ (s.world.thread u).mutex = some m := by
  intro u hu
  refine ⟨?_, hI.mutex_of_mem hu⟩
  rintro rfl
  exact hI.not_mem_of_active hctl _ hu

theorem Ctl.active_of_user {pc : Ctl} (h : pc = .user) : pc.active = true := by
  rw [h]
  rfl

theorem QueueInv.callEffect (hI : QueueInv s) (hctl : (s.ctl t).active = true) {fn : LockFn}
    {fuel : ℕ} {o : Outcome} (hrun : fn.run fuel (s.world.on t) (some m) = some o)
    (hafter : s.afterLock t m fn.type o = some s') : LockEffect s (.call t fn m) s' := by
  rcases LockFn.run_cases hrun with ⟨hkind, hlock⟩ | ⟨-, rfl⟩
  · rcases lockLock_cases (w := s.world.on t) (hI.chain m) hlock with
      ⟨rfl, hwhy⟩ | ⟨e, rfl, -⟩ | ⟨w, rfl, hblock, hwhy⟩
    · obtain rfl := Option.some.inj hafter
      exact .acquired hctl hkind hwhy
    · obtain rfl := Option.some.inj hafter
      exact .failed hctl
    · obtain rfl := Option.some.inj hafter
      exact .blocked hctl hblock (hI.goTo_blocked hctl hblock).2.2 hwhy
  · obtain rfl := Option.some.inj hafter
    exact .failed hctl

/-- **Every step is one of these.** -/
theorem LockStep.effect (hI : QueueInv s) (h : LockStep s a s') : LockEffect s a s' := by
  cases h with
  | call hctl _ hrun hafter => exact hI.callEffect (Ctl.active_of_user hctl) hrun hafter
  | @resume _ t m type fuel o hctl _ hretry hafter =>
    have hmem : t ∈ s.arrivals (.lock m) := hI.mem_lock.mpr ⟨type, hctl⟩
    rcases lockRetry_spec (w := s.world.on t) hI.queues hmem hretry with
      ⟨hgrants, rfl⟩ | ⟨hgrants, w, rfl, htook, hqueues⟩
    · obtain rfl := Option.some.inj hafter
      exact .waits hctl hgrants
    · obtain rfl := Option.some.inj hafter
      exact .took hctl hgrants htook hqueues
  | @unlock _ t m fuel o hctl _ hunlock hafter =>
    have hactive := Ctl.active_of_user hctl
    rcases lockUnlock_cases (w := s.world.on t) (hI.chain m) (hI.members hactive) hunlock with
      ⟨-, rfl⟩ | ⟨hrefuse, woken, hsub, hwake, rfl⟩
    · obtain rfl := Option.some.inj hafter
      exact .failed hactive
    · obtain rfl := Option.some.inj hafter
      exact .released hactive hrefuse hsub hwake

theorem QueueInv.goTo_released (hI : QueueInv s) (hctl : (s.ctl t).active = true)
    {f : Lock → Lock} (hf : (f (s.world.lock m)).waiting = (s.world.lock m).waiting)
    {woken : List Addr} (hsub : ∀ u ∈ woken, u ∈ s.arrivals (.lock m)) :
    QueueInv (s.goTo t (((s.world.on t).modifyLock m f).wake woken) .user) ∧
      s.goTo t (((s.world.on t).modifyLock m f).wake woken) .user =
        ⟨((s.world.on t).modifyLock m f).wake woken, Function.update s.ctl t .user, s.held,
          s.arrivals⟩ := by
  -- a woken thread was blocked, and its state is the only field written
  have hthread : ∀ u, ((((s.world.on t).modifyLock m f).wake woken).thread u) =
      { s.world.thread u with
        state := ((((s.world.on t).modifyLock m f).wake woken).thread u).state } := by
    intro u
    by_cases hu : u ∈ woken
    · rw [World.wake_thread_of_mem hu]
      rfl
    · rw [World.wake_thread_of_not_mem hu]
      rfl
  refine hI.goTo_same _ .user ?_ (by simp) (fun _ => hI.active hctl) ?_ ?_ ?_ ?_ ?_ ?_
  · cases h : s.ctl t <;> simp_all [Ctl.active, Ctl.blockedOn]
  · rw [World.nextwait_wake]
    rfl
  · rw [World.waiting_wake]
    exact World.waiting_modifyLock_of_eq (s.world.on t) m hf
  · intro u
    rw [hthread u]
  · intro u
    rw [hthread u]
  · intro u
    rw [hthread u]
  · intro u
    by_cases hu : u ∈ woken
    · obtain ⟨type, hblocked⟩ := hI.mem_lock.mp (hsub u hu)
      rw [World.wake_thread_of_mem hu]
      exact Or.inr ⟨hI.condWaiting_of_blocked hblocked, rfl, fun _ _ _ => Or.inr rfl⟩
    · rw [World.wake_thread_of_not_mem hu]
      exact Or.inl rfl

theorem QueueInv.goTo_acquired (hI : QueueInv s) (hctl : (s.ctl t).active = true) (m : Addr)
    (type : LockType) :
    QueueInv (s.goTo t (lockAcquire (s.world.on t) m type) .user) ∧
      s.goTo t (lockAcquire (s.world.on t) m type) .user =
        ⟨lockAcquire (s.world.on t) m type, Function.update s.ctl t .user, s.held, s.arrivals⟩ :=
  hI.goTo_user _ hctl rfl (World.waiting_modifyLock_of_eq (s.world.on t) m rfl)

theorem QueueInv.goTo_failed (hI : QueueInv s) (hctl : (s.ctl t).active = true) :
    QueueInv (s.goTo t (s.world.on t) .user) ∧
      s.goTo t (s.world.on t) .user =
        ⟨s.world.on t, Function.update s.ctl t .user, s.held, s.arrivals⟩ :=
  hI.goTo_user _ hctl rfl rfl

theorem QueueInv.goTo_waits (hI : QueueInv s) {type : LockType}
    (hctl : s.ctl t = .lockBlock m type) :
    QueueInv (s.goTo t ((s.world.on t).modify t fun v => { v with state := .mutexWait })
        (.lockBlock m type)) ∧
      s.goTo t ((s.world.on t).modify t fun v => { v with state := .mutexWait })
          (.lockBlock m type) =
        ⟨(s.world.on t).modify t fun v => { v with state := .mutexWait },
          Function.update s.ctl t (.lockBlock m type), s.held, s.arrivals⟩ := by
  refine hI.goTo_same _ _ (by rw [hctl]) ?_ (by simp [Ctl.active]) ?_ rfl ?_ ?_ ?_ ?_
  · intro m' type' heq
    rw [hctl, heq]
  · exact World.nextwait_modify_of_eq _ _ rfl
  on_goal 4 =>
    intro u
    by_cases hu : u = t
    · subst hu
      exact Or.inr ⟨hI.condWaiting_of_blocked hctl, by simp [State.condWaiting], by simp⟩
    · exact Or.inl (by simp [hu])
  all_goals
    intro u
    by_cases hu : u = t
    · subst hu
      simp
    · simp [hu]

theorem QueueInv.effect (hI : QueueInv s) (h : LockEffect s a s') : QueueInv s' := by
  cases h with
  | acquired hctl _ _ => exact (hI.goTo_acquired hctl _ _).1.hold _ _ _
  | failed hctl => exact (hI.goTo_failed hctl).1
  | blocked hctl hblock _ _ => exact (hI.goTo_blocked hctl hblock).1
  | waits hctl _ => exact (hI.goTo_waits hctl).1
  | took hctl _ htook hqueues => exact (hI.goTo_took hctl hqueues htook).1.hold _ _ _
  | released hctl _ hsub _ => exact (hI.goTo_released hctl rfl hsub).1.release _ _

theorem QueueInv.lockStep (hI : QueueInv s) (h : LockStep s a s') : QueueInv s' :=
  hI.effect (h.effect hI)

theorem QueueInv.lockRun {s₀ s : Sys} (hI : QueueInv s₀) (h : LockRun s₀ s) : QueueInv s := by
  induction h with
  | refl => exact hI
  | tail _ hstep ih =>
    obtain ⟨a, hstep⟩ := hstep
    exact ih.lockStep hstep

end Effect

/-! ### Woken threads -/

/-- **A free lock that is waited for has a woken thread on its list.** -/
def WakeInv (s : Sys) : Prop :=
  ∀ m, (s.world.lock m).owner = none → s.arrivals (.lock m) ≠ [] →
    ∃ t ∈ s.arrivals (.lock m), (s.world.thread t).state = .running

namespace WakeInv

variable {s s' : Sys} {a : LockAction} {t m : Addr}

theorem initial (h : s.Initial) : WakeInv s := by
  intro m _ hne
  exact absurd (h.arrivals (.lock m)) hne

private theorem frame (hW : WakeInv s) (s' : Sys) {m : Addr}
    (howner : (s'.world.lock m).owner = none → (s.world.lock m).owner = none)
    (harr : s'.arrivals (.lock m) = s.arrivals (.lock m))
    (hstate : ∀ u ∈ s.arrivals (.lock m), (s.world.thread u).state = .running →
      (s'.world.thread u).state = .running)
    (hfree : (s'.world.lock m).owner = none) (hne : s'.arrivals (.lock m) ≠ []) :
    ∃ t ∈ s'.arrivals (.lock m), (s'.world.thread t).state = .running := by
  rw [harr] at hne ⊢
  obtain ⟨u, hu, hrunning⟩ := hW m (howner hfree) hne
  exact ⟨u, hu, hstate u hu hrunning⟩

/-- **Step lemma.** -/
theorem effect (hI : QueueInv s) (hW : WakeInv s) (h : LockEffect s a s') : WakeInv s' := by
  intro m' hfree hne
  cases h with
  | @acquired t m fn hctl _ _ =>
    have harr : ((s.goTo t (lockAcquire (s.world.on t) m fn.type) .user).hold m t fn.type).arrivals
        (.lock m') = s.arrivals (.lock m') := by
      change (s.goTo t (lockAcquire (s.world.on t) m fn.type) .user).arrivals _ = _
      rw [(hI.goTo_acquired hctl m fn.type).2]
    refine frame hW _ (fun h => ?_) harr (fun _ _ h => h) hfree hne
    -- the lock that has been acquired is not free
    change ((lockAcquire (s.world.on t) m fn.type).lock m').owner = none at h
    by_cases hm : m' = m
    · subst hm
      simp [lockAcquire] at h
    · simpa [lockAcquire, hm] using h
  | @failed t a hctl =>
    rw [(hI.goTo_failed hctl).2] at hfree hne ⊢
    exact frame hW _ (fun h => h) rfl (fun _ _ h => h) hfree hne
  | @blocked t m fn fuel w hctl hblock hblocked hwhy =>
    obtain ⟨-, harr, -⟩ := hI.goTo_blocked hctl hblock
    have howner : (s.world.lock m').owner = none := by
      change (w.lock m').owner = none at hfree
      rw [hblocked.lock m'] at hfree
      exact hfree
    -- somebody who was woken waits in front of the new arrival
    have hsome : s.arrivals (.lock m') ≠ [] := by
      by_cases hm : m' = m
      · subst hm
        exact hwhy howner
      · intro hnil
        rw [harr, Function.update_of_ne (fun h => hm (Queue.lock.inj h)), hnil] at hne
        exact hne rfl
    obtain ⟨u, hu, hrunning⟩ := hW m' howner hsome
    refine ⟨u, ?_, ?_⟩
    · rw [harr]
      by_cases hm : m' = m
      · subst hm
        rw [Function.update_self]
        exact List.mem_append_left _ hu
      · rwa [Function.update_of_ne (fun h => hm (Queue.lock.inj h))]
    · have hut : u ≠ t := by
        rintro rfl
        exact hI.not_mem_of_active hctl _ hu
      change (w.thread u).state = _
      rw [hblocked.other u hut]
      exact hrunning
  | @waits t m type hctl hgrants =>
    rw [(hI.goTo_waits hctl).2] at hfree hne ⊢
    refine frame hW _ (fun h => h) rfl (fun u hu hrunning => ?_) hfree hne
    -- the lock the thread goes on waiting for is not free
    have hut : u ≠ t := by
      rintro rfl
      have hm : m' = m := by
        obtain ⟨type', hctl'⟩ := hI.mem_lock.mp hu
        rw [hctl] at hctl'
        exact (Ctl.lockBlock.inj hctl').1.symm
      subst hm
      have hnone : (s.world.lock m').owner = none := hfree
      simp [Lock.grants, hnone] at hgrants
    change (((s.world.on t).modify t fun v => { v with state := .mutexWait }).thread u).state = _
    simpa [hut] using hrunning
  | @took t m type w hctl _ htook hqueues =>
    obtain ⟨-, harr⟩ := hI.goTo_took hctl hqueues htook
    have hlock := htook.lock m'
    -- another lock: the one that has been taken is not free
    have hm : m' ≠ m := by
      rintro rfl
      change (w.lock m').owner = none at hfree
      rw [hlock] at hfree
      simp [lockAcquire] at hfree
    have harr' : (s.goTo t w .user).arrivals (.lock m') = s.arrivals (.lock m') := by
      rw [harr, Function.update_of_ne (fun h => hm (Queue.lock.inj h))]
    refine frame hW ((s.goTo t w .user).hold m t type) (fun h => ?_) harr'
      (fun u hu hrunning => ?_) hfree hne
    · change (w.lock m').owner = none at h
      rw [hlock] at h
      simpa [lockAcquire, hm] using h
    · have hut : u ≠ t := by
        rintro rfl
        obtain ⟨type', hctl'⟩ := hI.mem_lock.mp hu
        rw [hctl] at hctl'
        exact hm (Ctl.lockBlock.inj hctl').1.symm
      change (w.thread u).state = _
      rw [htook.other u hut]
      exact hrunning
  | @released t m woken hctl hrefuse hsub hwake =>
    have harr : (s.goTo t (((s.world.on t).modifyLock m Lock.released).wake woken)
        .user).arrivals (.lock m') = s.arrivals (.lock m') := by
      rw [(hI.goTo_released hctl rfl hsub).2]
    by_cases hfreed : m' = m ∧ (s.world.lock m').owner ≠ none
    · -- the lock has just become free: somebody has been woken
      obtain ⟨rfl, howned⟩ := hfreed
      have hnone : (s.world.lock m').released.owner = none := by
        change ((((s.world.on t).modifyLock m' Lock.released).wake woken).lock m').owner = _
          at hfree
        simpa using hfree
      have hsome : s.arrivals (.lock m') ≠ [] := fun hnil => hne (harr.trans hnil)
      obtain ⟨u, hu⟩ := List.exists_mem_of_ne_nil _ (hwake hnone howned hsome)
      refine ⟨u, ?_, ?_⟩
      · change u ∈ (s.goTo t _ .user).arrivals _
        rw [harr]
        exact hsub u hu
      · change ((((s.world.on t).modifyLock m' Lock.released).wake woken).thread u).state = _
        rw [World.wake_thread_of_mem hu]
    · refine frame hW _ (fun h => ?_) harr (fun u _ hrunning => ?_) hfree hne
      · change ((((s.world.on t).modifyLock m Lock.released).wake woken).lock m').owner = _ at h
        by_cases hm : m' = m
        · subst hm
          by_contra howned
          exact hfreed ⟨rfl, howned⟩
        · simpa [hm] using h
      · change ((((s.world.on t).modifyLock m Lock.released).wake woken).thread u).state = _
        by_cases hu : u ∈ woken
        · rw [World.wake_thread_of_mem hu]
        · rw [World.wake_thread_of_not_mem hu]
          exact hrunning

theorem lockRun {s₀ s : Sys} (hI : QueueInv s₀) (hW : WakeInv s₀) (h : LockRun s₀ s) :
    WakeInv s := by
  induction h with
  | refl => exact hW
  | tail hrun hstep ih =>
    obtain ⟨a, hstep⟩ := hstep
    have hI' : QueueInv _ := hI.lockRun hrun
    exact effect hI' ih (hstep.effect hI')

end WakeInv

/-- **What a sleeping thread may rely on.** -/
structure NoLostWakeup (s : Sys) (m : Addr) : Prop where
  /-- While the lock is free and threads wait for it, one of them can run. -/
  wake : (s.world.lock m).owner = none → (s.world.lock m).waiting ≠ none →
    ∃ t ∈ s.arrivals (.lock m), (s.world.thread t).state.runnable = true
  /-- The waiting list leads through the threads that wait, in the order of arrival, -/
  list : Chain s.world.nextwait (s.world.lock m).waiting (s.arrivals (.lock m))
  /-- each once; -/
  nodup : (s.arrivals (.lock m)).Nodup
  /-- they are the threads blocked on the lock. -/
  blocked : ∀ t, t ∈ s.arrivals (.lock m) ↔ ∃ type, s.ctl t = .lockBlock m type

/-- **No lost wake-up.** -/
theorem lockRun_noLostWakeup {s₀ s : Sys} (hinit : s₀.Initial) (hrun : LockRun s₀ s) (m : Addr) :
    NoLostWakeup s m := by
  have hI := (QueueInv.initial hinit).lockRun hrun
  have hW := WakeInv.lockRun (QueueInv.initial hinit) (WakeInv.initial hinit) hrun
  refine ⟨fun hfree hwaiting => ?_, hI.chain m, (hI.chain m).nodup, fun t => hI.mem_lock⟩
  have hne : s.arrivals (.lock m) ≠ [] := fun hnil =>
    hwaiting ((hI.chain m).eq_nil_iff.mp hnil)
  obtain ⟨t, ht, hrunning⟩ := hW m hfree hne
  refine ⟨t, ht, ?_⟩
  rw [hrunning]
  rfl

theorem lockRun_noLostWakeup_handOver : ∃ s, LockRun (Sys.fresh (pthreadMutexInit none)) s ∧
    (s.world.lock 0).owner = none ∧ (s.world.lock 0).waiting = some 1 ∧ NoLostWakeup s 0 := by
  obtain ⟨s, hperform, hs⟩ := Option.map_eq_some_iff.mp
    (show ((Sys.fresh (pthreadMutexInit none)).performAll 2
        [.call 0 .mutexLock 0, .call 1 .mutexLock 0, .unlock 0 0]).map
        (fun s => ((s.world.lock 0).owner, (s.world.lock 0).waiting)) = some (none, some 1) from rfl)
  obtain ⟨hfree, hwaiting⟩ := Prod.mk.inj hs
  exact ⟨s, Sys.performAll_run hperform, hfree, hwaiting, lockRun_noLostWakeup
    (Sys.initial_fresh none (Or.inl rfl)) (Sys.performAll_run hperform) 0⟩

end UnixLib
