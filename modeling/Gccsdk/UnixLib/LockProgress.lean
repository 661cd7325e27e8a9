import Gccsdk.UnixLib.CondSystem

/-!
# Threads that use locks go on

The loops of `pthread/lock.c` follow the waiting lists, and three of its checks end the program with
`__pthread_fatal_error`. In a run of threads that use locks the lists have an end and lead through the threads
that wait for the lock, so that each call ends, and none comes to a fatal error (`lockRun_ends`). With `WakeInv`
a free lock goes on to a thread that waits for it: one of them can be resumed, and then has the lock
(`lockRun_handOver`).
-/

namespace UnixLib

open LinkedQueue

/-! ### The loops end -/

section Loops

variable {w : World} {q : Queue → List Addr} {m : Addr} {type : LockType} {l : List Addr} {h : Option Addr}

theorem lockBlock_isSome (hq : Queues w.nextwait w.waiting q) (ht : ∀ k, w.runningThread ∉ q k) :
    (lockBlock (q (.lock m)).length w m type).isSome := by
  have hchain := (hq.frame_update ht none).chain (.lock m)
  unfold lockBlock appendWaiting
  rw [Option.isSome_map, World.waiting_modify]
  cases hhead : w.waiting (.lock m) with
  | none => rfl
  | some list =>
    rw [hhead] at hchain
    have hne : q (.lock m) ≠ [] := fun hnil => by simp [hnil] at hchain
    obtain ⟨l, b, hlast⟩ : ∃ l b, q (.lock m) = l ++ [b] :=
      ⟨_, _, (List.dropLast_append_getLast hne).symm⟩
    rw [hlast] at hchain
    dsimp only
    rw [World.nextwait_modify, hlast, hchain.last_eq, if_pos (by simp)]
    rfl

theorem lockLock_isSome (hq : Queues w.nextwait w.waiting q) (ht : ∀ k, w.runningThread ∉ q k)
    (trylock : Bool) : (lockLock (q (.lock m)).length w m type trylock).isSome := by
  have hblock : (lockBlock (q (.lock m)).length w m type).isSome := lockBlock_isSome hq ht
  unfold lockLock
  split
  · split
    · obtain ⟨r, hr⟩ := Option.isSome_iff_exists.mp
        ((hq.chain (.lock m)).find_isSome (p := fun t => (w.thread t).mutextype == .write))
      change find _ _ _ (w.lock m).waiting = _ at hr
      rw [hr]
      cases r with
      | none => rfl
      | some u =>
        dsimp only [Option.bind_some]
        split
        · rfl
        · rwa [Option.isSome_map]
    · rfl
  · split
    · split
      · rfl
      · split <;> rfl
    · split
      · rfl
      · rwa [Option.isSome_map]

theorem lockRetry_isSome (hq : Queues w.nextwait w.waiting q) (ht : w.runningThread ∈ q (.lock m)) :
    (lockRetry (q (.lock m)).length w m type).isSome := by
  have hchain := hq.chain (.lock m)
  obtain ⟨l₁, l₂, hsplit⟩ := List.append_of_mem ht
  unfold lockRetry
  split
  · split
    · rfl
    · rename_i hhead
      -- there is a thread before it
      have hl₁ : l₁ ≠ [] := by
        rintro rfl
        rw [hsplit] at hchain
        exact hhead hchain.1
      obtain ⟨l, b, rfl⟩ : ∃ l b, l₁ = l ++ [b] :=
        ⟨_, _, (List.dropLast_append_getLast hl₁).symm⟩
      rw [hsplit, List.append_assoc] at hchain
      have hbefore := hchain.before_eq (q (.lock m)).length
      rw [if_pos (by simp [hsplit])] at hbefore
      change before _ _ _ (w.lock m).waiting = _ at hbefore
      rw [hbefore]
      rfl
  · rfl

theorem firstWriter_isSome : ∀ {h : Option Addr} {l : List Addr}, Chain w.nextwait h l →
    (firstWriter w m l.length h).isSome
  | _, [], hl => by
    rw [chain_nil.mp hl]
    rfl
  | _, a :: l, hl => by
    obtain ⟨rfl, hrest⟩ := hl
    rw [List.length_cons, firstWriter]
    split
    · rfl
    · split
      · rfl
      · split
        · rfl
        · exact firstWriter_isSome hrest

theorem lockUnlock_isSome (hl : Chain w.nextwait (w.lock m).waiting l) :
    (lockUnlock l.length w (some m)).isSome := by
  unfold lockUnlock
  dsimp only
  split
  · rfl
  · split
    · unfold lockHandOver
      rw [show ((w.modifyLock m _).lock m).waiting = (w.lock m).waiting by simp]
      obtain ⟨r, hr⟩ := Option.isSome_iff_exists.mp (firstWriter_isSome (w := w.modifyLock m _) (m := m) hl)
      rw [hr]
      match r with
      | .error msg => rfl
      | .ok (some u) => rfl
      | .ok none =>
        dsimp only [Option.bind_some]
        rw [wakeAll_isSome (w := w.modifyLock m _) hl]
        rfl
    · rfl

end Loops

/-! ### Runs -/

/-- **The call ends**, and not with a fatal error. -/
def EndsWell (call : ℕ → Option Outcome) : Prop :=
  (∃ fuel, (call fuel).isSome) ∧ ∀ fuel msg, call fuel ≠ some (.fatal msg)

/-- What a thread does with locks ends, wherever it is. -/
structure CallsEnd (s : Sys) (t : Addr) : Prop where
  lock : s.ctl t = .user → ∀ fn m, EndsWell fun fuel => LockFn.run fn fuel (s.world.on t) (some m)
  unlock : s.ctl t = .user → ∀ m, EndsWell fun fuel => lockUnlock fuel (s.world.on t) (some m)
  retry : ∀ m type, s.ctl t = .lockBlock m type → EndsWell fun fuel => lockRetry fuel (s.world.on t) m type

section Runs

variable {s₀ s s' : Sys} {t m : Addr} {type : LockType} {fn : LockFn}

theorem QueueInv.lockRetry_endsWell (hI : QueueInv s) (hctl : s.ctl t = .lockBlock m type) :
    EndsWell fun fuel => lockRetry fuel (s.world.on t) m type := by
  have hmem : t ∈ s.arrivals (.lock m) := hI.mem_lock.mpr ⟨type, hctl⟩
  refine ⟨⟨_, lockRetry_isSome (w := s.world.on t) hI.queues hmem⟩, fun fuel msg hfatal => ?_⟩
  rcases lockRetry_spec (w := s.world.on t) hI.queues hmem hfatal with ⟨-, h⟩ | ⟨-, w, h, -⟩ <;>
    exact nomatch h

/-- **No call goes on for ever or ends the program**, in any run of threads that use locks. -/
theorem lockRun_ends (hinit : s₀.Initial) (hrun : LockRun s₀ s) (t : Addr) : CallsEnd s t := by
  have hI := (QueueInv.initial hinit).lockRun hrun
  refine ⟨fun hctl fn m => ?_, fun hctl m => ?_, fun m type hctl => hI.lockRetry_endsWell hctl⟩
  · have hnot := hI.not_mem_of_active (Ctl.active_of_user hctl)
    refine ⟨⟨(s.arrivals (.lock m)).length, ?_⟩, fun fuel msg hfatal => ?_⟩
    · rw [fn.run_eq]
      unfold lockCall
      dsimp only
      split
      · exact lockLock_isSome (w := s.world.on t) hI.queues hnot fn.trylock
      · rfl
    · rcases LockFn.run_cases hfatal with ⟨-, hlock⟩ | ⟨-, h⟩
      · rcases lockLock_cases (w := s.world.on t) (hI.chain m) hlock with
          ⟨h, -⟩ | ⟨e, h, -⟩ | ⟨w, h, -⟩ <;> exact nomatch h
      · exact nomatch h
  · refine ⟨⟨_, lockUnlock_isSome (w := s.world.on t) (hI.chain m)⟩, fun fuel msg hfatal => ?_⟩
    rcases lockUnlock_cases (w := s.world.on t) (hI.chain m) (hI.members (Ctl.active_of_user hctl))
      hfatal with ⟨-, h⟩ | ⟨-, woken, -, -, h⟩ <;> exact nomatch h

theorem lockRun_ends_waiting : ∃ s, LockRun (Sys.fresh (pthreadMutexInit none)) s ∧
    (s.world.lock 0).waiting = some 1 ∧ CallsEnd s 1 := by
  obtain ⟨s, hperform, hwaiting⟩ := Option.map_eq_some_iff.mp
    (show ((Sys.fresh (pthreadMutexInit none)).performAll 2 [.call 0 .mutexLock 0, .call 1 .mutexLock 0]).map
        (fun s => (s.world.lock 0).waiting) = some (some 1) from rfl)
  exact ⟨s, Sys.performAll_run hperform, hwaiting, lockRun_ends
    (Sys.initial_fresh none (Or.inl rfl)) (Sys.performAll_run hperform) 1⟩

/-- **A free lock is handed over.** Where threads wait for a lock that is free, one of them can be resumed, and
has the lock then. -/
theorem lockRun_handOver (hinit : s₀.Initial) (hrun : LockRun s₀ s)
    (hfree : (s.world.lock m).owner = none) (hwaits : (s.world.lock m).waiting ≠ none) :
    ∃ t s', LockStep s (.resume t) s' ∧ s'.Holds t m ∧ t ∉ s'.arrivals (.lock m) := by
  have hI := (QueueInv.initial hinit).lockRun hrun
  have hW := WakeInv.lockRun (QueueInv.initial hinit) (WakeInv.initial hinit) hrun
  obtain ⟨t, ht, hrunning⟩ := hW m hfree fun hnil => hwaits ((hI.chain m).eq_nil_iff.mp hnil)
  obtain ⟨type, hctl⟩ := hI.mem_lock.mp ht
  obtain ⟨⟨fuel, hsome⟩, -⟩ := hI.lockRetry_endsWell hctl
  obtain ⟨o, ho⟩ := Option.isSome_iff_exists.mp hsome
  have hresumes : s.Resumes t := by
    refine Or.inl ?_
    rw [hrunning]
    rfl
  rcases lockRetry_spec (w := s.world.on t) hI.queues ht ho with ⟨hgrants, -⟩ | ⟨-, w, rfl, htook, hqueues⟩
  · -- a free lock is for everybody
    change (s.world.lock m).grants type = false at hgrants
    simp [Lock.grants, hfree] at hgrants
  · refine ⟨t, _, .resume hctl hresumes ho rfl, ⟨type, ?_⟩, ?_⟩
    · change (t, type) ∈ Function.update s.held m ((t, type) :: s.held m) m
      rw [Function.update_self]
      exact List.mem_cons_self ..
    · change t ∉ (s.goTo t w .user).arrivals (.lock m)
      rw [(hI.goTo_took hctl hqueues htook).2, Function.update_self]
      simp

theorem lockRun_handOver_unlocked : ∃ s t s', LockRun (Sys.fresh (pthreadMutexInit none)) s ∧
    LockStep s (.resume t) s' ∧ s'.Holds t 0 := by
  obtain ⟨s, hperform, hs⟩ := Option.map_eq_some_iff.mp
    (show ((Sys.fresh (pthreadMutexInit none)).performAll 2
        [.call 0 .mutexLock 0, .call 1 .mutexLock 0, .unlock 0 0]).map
        (fun s => ((s.world.lock 0).owner, (s.world.lock 0).waiting)) = some (none, some 1) from rfl)
  obtain ⟨hfree, hwaiting⟩ := Prod.mk.inj hs
  obtain ⟨t, s', hstep, hholds, -⟩ := lockRun_handOver (Sys.initial_fresh none (Or.inl rfl))
    (Sys.performAll_run hperform) hfree fun hnone => nomatch hwaiting.symm.trans hnone
  exact ⟨s, t, s', Sys.performAll_run hperform, hstep, hholds⟩

end Runs

end UnixLib
