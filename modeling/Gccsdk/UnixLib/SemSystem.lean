import Gccsdk.UnixLib.Semaphore

/-!
# Threads that use a semaphore

Any number of threads, each of which may at any time call `sem_wait`, `sem_trywait`, `sem_post` or
`sem_destroy` on one semaphore, and may be cancelled. A step is what a thread does between two places where a
context switch is possible, and nothing is assumed about the order of the steps (`SemRun`).

`semRun_semSound`: the successful waits are covered by the initial count and the posts, in every
run; and the waiting threads are in the queue, as long as none has to wait. For `sem_wait` puts a
thread behind the others in the queue, but never a first one into it: in every state of every run the
queue is empty (`semRun_waiters`), and a thread that waits is not in it (`semRun_not_recorded`).
-/

namespace UnixLib

inductive SemCtl
  | user
  /-- `sem_wait`, with its queue element: before it acquires the interlock, -/
  | waitLock (queue_entry : Addr)
  /-- before a pass, -/
  | waitPass (queue_entry : Addr)
  /-- before `usem_count--`, -/
  | waitTake
  /-- before it returns 0, -/
  | waitReturn
  /-- before `pthread_exit`, -/
  | waitExit
  /-- behind a pass that has found the count zero, -/
  | waitUnlock (queue_entry : Addr)
  /-- and in `pthread_yield`. -/
  | waitYield (queue_entry : Addr)
  /-- `sem_trywait`: before it acquires the interlock, -/
  | tryLock
  /-- before its test of the count, -/
  | tryTest
  /-- and before it gives up the interlock. -/
  | tryUnlock
  /-- `sem_post`: before it acquires the interlock, -/
  | postLock
  /-- before it counts, -/
  | postCount
  /-- before it wakes a thread, -/
  | postWake (blocked : Addr)
  /-- and before it gives up the interlock. -/
  | postUnlock
  /-- `sem_destroy`: before it acquires the interlock, -/
  | destroyLock
  /-- before its test of the queue, -/
  | destroyTest
  /-- before it gives up the interlock, -/
  | destroyUnlock (busy : Bool)
  /-- and before `sem_free`. -/
  | destroyFree
  /-- Behind `pthread_exit`. -/
  | exited
  deriving DecidableEq, Repr

/-- The thread holds the interlock as a writer, -/
def SemCtl.writes : SemCtl → Bool
  | .waitPass _ | .waitTake | .waitReturn | .waitExit | .waitUnlock _ | .tryTest | .tryUnlock
  | .postCount | .postWake _ | .postUnlock => true
  | _ => false

/-- or as a reader. -/
def SemCtl.reads : SemCtl → Bool
  | .destroyTest | .destroyUnlock _ => true
  | _ => false

structure SemSys where
  world : Semaphores
  ctl : Addr → SemCtl
  allocated : List Addr
  /-- The number of successful calls of `sem_wait` and `sem_trywait`, each counted where it takes its share
  of the count. -/
  waits : ℕ
  /-- The number of calls of `sem_post`, each counted where it adds to the count. -/
  posts : ℕ

namespace SemSys

/-- The thread `t` has changed memory to `w` and is now at `pc`. -/
def goTo (s : SemSys) (t : Addr) (w : Semaphores) (pc : SemCtl) : SemSys :=
  { s with world := w, ctl := Function.update s.ctl t pc }

end SemSys

inductive SemCall
  | wait
  | trywait
  | post
  | destroy
  deriving DecidableEq, Repr

/-- What the thread `t` does next. In `sem_wait` the block `queue_entry` is what `malloc` has returned. -/
inductive SemStep (s : SemSys) (t : Addr) : SemSys → Prop
  | invalid : s.ctl t = .user → semCheckValidity s.world.sem = false → SemStep s t s
  | callWait (queue_entry : Addr) : s.ctl t = .user → semCheckValidity s.world.sem = true →
      queue_entry ∉ s.allocated →
      SemStep s t { s.goTo t (semWaitEntry s.world t queue_entry) (.waitLock queue_entry) with
        allocated := queue_entry :: s.allocated }
  | callTry : s.ctl t = .user → semCheckValidity s.world.sem = true → SemStep s t (s.goTo t s.world .tryLock)
  | callPost : s.ctl t = .user → semCheckValidity s.world.sem = true →
      SemStep s t (s.goTo t s.world .postLock)
  | callDestroy : s.ctl t = .user → semCheckValidity s.world.sem = true →
      SemStep s t (s.goTo t s.world .destroyLock)
  | waitLock {e w} : s.ctl t = .waitLock e → s.world.wrlock t = some w →
      SemStep s t (s.goTo t w (.waitPass e))
  | waitPass {e w pass} (fuel : ℕ) : s.ctl t = .waitPass e →
      semWaitPass s.world t e fuel = some (w, pass) →
      SemStep s t (s.goTo t w (match pass with
        | .cancelled => .waitExit
        | .positive => .waitTake
        | .zero => .waitUnlock e))
  | waitTake : s.ctl t = .waitTake →
      SemStep s t { s.goTo t (semTake s.world) .waitReturn with waits := s.waits + 1 }
  | waitReturn : s.ctl t = .waitReturn → SemStep s t (s.goTo t (s.world.unlock t) .user)
  | waitExit : s.ctl t = .waitExit → SemStep s t (s.goTo t (s.world.unlock t) .exited)
  | waitUnlock {e} : s.ctl t = .waitUnlock e → SemStep s t (s.goTo t (s.world.unlock t) (.waitYield e))
  | waitYield {e} : s.ctl t = .waitYield e → (s.world.state t).runnable = true →
      SemStep s t (s.goTo t s.world (.waitLock e))
  | tryLock {w} : s.ctl t = .tryLock → s.world.wrlock t = some w → SemStep s t (s.goTo t w .tryTest)
  /-- `EAGAIN`. -/
  | tryFails : s.ctl t = .tryTest → s.world.sem.usem_count = 0 →
      SemStep s t (s.goTo t s.world .tryUnlock)
  | tryTakes : s.ctl t = .tryTest → s.world.sem.usem_count ≠ 0 →
      SemStep s t { s.goTo t (semTake s.world) .tryUnlock with waits := s.waits + 1 }
  | tryUnlock : s.ctl t = .tryUnlock → SemStep s t (s.goTo t (s.world.unlock t) .user)
  | postLock {w} : s.ctl t = .postLock → s.world.wrlock t = some w → SemStep s t (s.goTo t w .postCount)
  | postCount {w blocked freed} : s.ctl t = .postCount → semPost s.world = (w, blocked, freed) →
      SemStep s t { s.goTo t w (match blocked with
          | none => .postUnlock
          | some blocked => .postWake blocked) with
        posts := s.posts + 1
        allocated := s.allocated.filter fun e => some e ≠ freed }
  | postWake {blocked} : s.ctl t = .postWake blocked →
      SemStep s t (s.goTo t (semWake s.world blocked) .postUnlock)
  | postUnlock : s.ctl t = .postUnlock → SemStep s t (s.goTo t (s.world.unlock t) .user)
  | destroyLock {w} : s.ctl t = .destroyLock → s.world.rdlock t = some w →
      SemStep s t (s.goTo t w .destroyTest)
  | destroyTest : s.ctl t = .destroyTest →
      SemStep s t (s.goTo t s.world (.destroyUnlock (semBusy s.world)))
  | destroyUnlock {busy} : s.ctl t = .destroyUnlock busy →
      SemStep s t (s.goTo t (s.world.unlock t) (if busy then .user else .destroyFree))
  | destroyFree : s.ctl t = .destroyFree → SemStep s t (s.goTo t (semFree s.world) .user)

/-- A thread is cancelled by another one: `pthread_cancel`. -/
def SemSys.cancel (s : SemSys) (t : Addr) : SemSys :=
  { s with world := { s.world with
      cancelpending := Function.update s.world.cancelpending t true } }

/-- A semaphore behind `sem_init`, which no thread uses yet. -/
structure SemInitial (value : BitVec 32) (s : SemSys) : Prop where
  sem : semInit value = some s.world.sem
  interlock : s.world.interlock = ⟨[], none⟩
  ctl : ∀ t, s.ctl t = .user
  waits : s.waits = 0
  posts : s.posts = 0

/-- The states of a semaphore that has been initialised with `value`. -/
inductive SemRun (value : BitVec 32) : SemSys → Prop
  | initial {s} : SemInitial value s → SemRun value s
  | step {s s'} (t : Addr) : SemRun value s → SemStep s t s' → SemRun value s'
  | cancel {s} (t : Addr) : SemRun value s → SemRun value (s.cancel t)

/-! ### What is expected -/

/-- The thread waits in `sem_wait` for the count to become positive: it has found it zero. -/
def Waiting (s : SemSys) (t : Addr) : Prop := ∃ e, s.ctl t = .waitUnlock e ∨ s.ctl t = .waitYield e

/-- The elements of the queue from `e` on, up to the first `n`. -/
def queueElements (entry : Addr → QueueEntry) : ℕ → Option Addr → List Addr
  | 0, _ => []
  | _, none => []
  | n + 1, some e => e :: queueElements entry n (entry e).next

def Recorded (s : SemSys) (t : Addr) : Prop :=
  ∃ n, ∃ e ∈ queueElements s.world.entry n s.world.sem.usem_waiters, (s.world.entry e).thread = some t

/-- **Semaphores.** -/
structure SemSound (value : BitVec 32) (s : SemSys) : Prop where
  /-- The successful waits are covered by the initial value and the posts. -/
  waits_le : s.waits ≤ value.toNat + s.posts
  recorded : ∀ t, Waiting s t → Recorded s t
  /-- So `sem_destroy` finds the semaphore busy. -/
  busy : (∃ t, Waiting s t) → semBusy s.world = true

/-! ### The invariant -/

structure SemInv (value : BitVec 32) (s : SemSys) : Prop where
  /-- The queue is empty, -/
  waiters : s.world.sem.usem_waiters = none
  /-- a thread in the code for writers holds the interlock, -/
  writer : ∀ t, (s.ctl t).writes = true → s.world.interlock.writer = some t
  /-- as does one in the code for readers, -/
  reader : ∀ t, (s.ctl t).reads = true → t ∈ s.world.interlock.readers
  /-- not both at a time; -/
  apart : s.world.interlock.readers = [] ∨ s.world.interlock.writer = none
  /-- what a thread is about to take from the count is there, -/
  positive : ∀ t, s.ctl t = .waitTake → s.world.sem.usem_count ≠ 0
  /-- and what is left of the count is covered as well as what has been taken. -/
  count_le : s.waits + s.world.sem.usem_count.toNat ≤ value.toNat + s.posts

theorem update_ctl {P : SemCtl → Prop} {ctl : Addr → SemCtl} {t u : Addr} {pc : SemCtl}
    (h : P (Function.update ctl t pc u)) : (u = t ∧ P pc) ∨ (u ≠ t ∧ P (ctl u)) := by
  by_cases htu : u = t
  · rw [htu, Function.update_self] at h
    exact Or.inl ⟨htu, h⟩
  · rw [Function.update_of_ne htu] at h
    exact Or.inr ⟨htu, h⟩

theorem semTake_toNat {w : Semaphores} (h : w.sem.usem_count ≠ 0) :
    (semTake w).sem.usem_count.toNat + 1 = w.sem.usem_count.toNat := by
  have hne : w.sem.usem_count.toNat ≠ 0 := fun hzero => h (BitVec.eq_of_toNat_eq hzero)
  change (w.sem.usem_count - 1).toNat + 1 = _
  bv_omega

namespace SemInv

variable {value : BitVec 32} {s : SemSys} {t : Addr} {w : Semaphores} {pc : SemCtl}

theorem move (inv : SemInv value s) (allocated : List Addr)
    (hq : w.sem.usem_waiters = s.world.sem.usem_waiters)
    (hc : w.sem.usem_count = s.world.sem.usem_count) (hlock : w.interlock = s.world.interlock)
    (hw : pc.writes = true → (s.ctl t).writes = true) (hr : pc.reads = true → (s.ctl t).reads = true)
    (hpos : pc = .waitTake → s.world.sem.usem_count ≠ 0) :
    SemInv value { s.goTo t w pc with allocated := allocated } where
  waiters := hq.trans inv.waiters
  writer u hu := by
    have hheld : s.world.interlock.writer = some u := by
      rcases update_ctl (P := fun c => c.writes = true) hu with ⟨rfl, hpc⟩ | ⟨-, hu⟩
      · exact inv.writer u (hw hpc)
      · exact inv.writer u hu
    rw [← hlock] at hheld
    exact hheld
  reader u hu := by
    have hheld : u ∈ s.world.interlock.readers := by
      rcases update_ctl (P := fun c => c.reads = true) hu with ⟨rfl, hpc⟩ | ⟨-, hu⟩
      · exact inv.reader u (hr hpc)
      · exact inv.reader u hu
    rw [← hlock] at hheld
    exact hheld
  apart := by
    have hapart := inv.apart
    rw [← hlock] at hapart
    exact hapart
  positive u hu := by
    have hcount : s.world.sem.usem_count ≠ 0 := by
      rcases update_ctl (P := fun c => c = .waitTake) hu with ⟨-, hu⟩ | ⟨-, hu⟩
      · exact hpos hu
      · exact inv.positive u hu
    rw [← hc] at hcount
    exact hcount
  count_le := by
    have hle := inv.count_le
    rw [← hc] at hle
    exact hle

theorem writes_unique (inv : SemInv value s) {u : Addr} (ht : (s.ctl t).writes = true)
    (hu : (s.ctl u).writes = true) : u = t := by
  have h := (inv.writer u hu).symm.trans (inv.writer t ht)
  exact Option.some.inj h

theorem wrlock (inv : SemInv value s) (h : s.world.wrlock t = some w) (hpc : pc.reads = false)
    (hpos : pc ≠ .waitTake) : SemInv value (s.goTo t w pc) := by
  unfold Semaphores.wrlock at h
  split at h
  · rename_i hfree
    obtain rfl := Option.some.inj h
    refine ⟨inv.waiters, fun u hu => ?_, fun u hu => ?_, Or.inl rfl, fun u hu => ?_, inv.count_le⟩
    · rcases update_ctl (P := fun c => c.writes = true) hu with ⟨rfl, -⟩ | ⟨-, hu⟩
      · rfl
      · have hwriter := inv.writer u hu
        rw [hfree.2] at hwriter
        cases hwriter
    · rcases update_ctl (P := fun c => c.reads = true) hu with ⟨-, hu⟩ | ⟨-, hu⟩
      · rw [hpc] at hu
        cases hu
      · have hreader := inv.reader u hu
        rw [hfree.1] at hreader
        cases hreader
    · rcases update_ctl (P := fun c => c = .waitTake) hu with ⟨-, hu⟩ | ⟨-, hu⟩
      · exact absurd hu hpos
      · exact inv.positive u hu
  · cases h

theorem rdlock (inv : SemInv value s) (h : s.world.rdlock t = some w) (hpc : pc.writes = false)
    (hpos : pc ≠ .waitTake) : SemInv value (s.goTo t w pc) := by
  unfold Semaphores.rdlock at h
  split at h
  · rename_i hfree
    obtain rfl := Option.some.inj h
    refine ⟨inv.waiters, fun u hu => ?_, fun u hu => ?_, Or.inr rfl, fun u hu => ?_, inv.count_le⟩
    · rcases update_ctl (P := fun c => c.writes = true) hu with ⟨-, hu⟩ | ⟨-, hu⟩
      · rw [hpc] at hu
        cases hu
      · have hwriter := inv.writer u hu
        rw [hfree] at hwriter
        cases hwriter
    · rcases update_ctl (P := fun c => c.reads = true) hu with ⟨rfl, -⟩ | ⟨-, hu⟩
      · exact List.mem_cons_self
      · exact List.mem_cons_of_mem _ (inv.reader u hu)
    · rcases update_ctl (P := fun c => c = .waitTake) hu with ⟨-, hu⟩ | ⟨-, hu⟩
      · exact absurd hu hpos
      · exact inv.positive u hu
  · cases h

theorem unlock (inv : SemInv value s) (hw : pc.writes = false) (hr : pc.reads = false) :
    SemInv value (s.goTo t (s.world.unlock t) pc) := by
  refine ⟨inv.waiters, fun u hu => ?_, fun u hu => ?_, ?_, fun u hu => ?_, inv.count_le⟩
  · rcases update_ctl (P := fun c => c.writes = true) hu with ⟨-, hu⟩ | ⟨htu, hu⟩
    · rw [hw] at hu
      cases hu
    · have hwriter := inv.writer u hu
      change (if s.world.interlock.writer = some t then none else s.world.interlock.writer) = some u
      rw [hwriter, if_neg fun h => htu (Option.some.inj h)]
  · rcases update_ctl (P := fun c => c.reads = true) hu with ⟨-, hu⟩ | ⟨htu, hu⟩
    · rw [hr] at hu
      cases hu
    · exact (List.mem_erase_of_ne htu).mpr (inv.reader u hu)
  · change s.world.interlock.readers.erase t = [] ∨
      (if s.world.interlock.writer = some t then none else s.world.interlock.writer) = none
    rcases inv.apart with h | h
    · rw [h]
      exact Or.inl rfl
    · rw [h]
      exact Or.inr (ite_self _)
  · rcases update_ctl (P := fun c => c = .waitTake) hu with ⟨-, rfl⟩ | ⟨-, hu⟩
    · cases hw
    · exact inv.positive u hu

theorem count (inv : SemInv value s) {count : BitVec 32} {waits posts : ℕ} (allocated : List Addr)
    (hq : w.sem.usem_waiters = s.world.sem.usem_waiters) (hc : w.sem.usem_count = count)
    (hlock : w.interlock = s.world.interlock) (ht : (s.ctl t).writes = true)
    (hr : pc.reads = false) (hpos : pc ≠ .waitTake)
    (hle : waits + count.toNat ≤ value.toNat + posts) :
    SemInv value { s.goTo t w pc with allocated := allocated, waits := waits, posts := posts } where
  waiters := hq.trans inv.waiters
  writer u hu := by
    have hheld : s.world.interlock.writer = some u := by
      rcases update_ctl (P := fun c => c.writes = true) hu with ⟨rfl, -⟩ | ⟨-, hu⟩
      · exact inv.writer u ht
      · exact inv.writer u hu
    rw [← hlock] at hheld
    exact hheld
  reader u hu := by
    have hheld : u ∈ s.world.interlock.readers := by
      rcases update_ctl (P := fun c => c.reads = true) hu with ⟨-, hu⟩ | ⟨-, hu⟩
      · rw [hr] at hu
        cases hu
      · exact inv.reader u hu
    rw [← hlock] at hheld
    exact hheld
  apart := by
    have hapart := inv.apart
    rw [← hlock] at hapart
    exact hapart
  positive u hu := by
    rcases update_ctl (P := fun c => c = .waitTake) hu with ⟨-, hu⟩ | ⟨htu, hu⟩
    · exact absurd hu hpos
    · -- Another thread at this place would be a second writer.
      exact absurd (inv.writes_unique ht (by rw [hu]; rfl)) htu
  count_le := by
    rw [← hc] at hle
    exact hle

theorem waitPass (inv : SemInv value s) {e : Addr} {fuel : ℕ} {pass : WaitPass}
    (h : semWaitPass s.world t e fuel = some (w, pass)) :
    w = s.world ∧ (pass = .positive → s.world.sem.usem_count ≠ 0) := by
  unfold semWaitPass at h
  rw [inv.waiters] at h
  split at h
  · cases h
    exact ⟨rfl, fun h => by cases h⟩
  · split at h
    · rename_i hcount
      cases h
      refine ⟨rfl, fun _ hzero => ?_⟩
      rw [hzero] at hcount
      exact absurd hcount (by decide)
    · cases h
      exact ⟨rfl, fun h => by cases h⟩

/-- **A step keeps the invariant.** -/
theorem step (inv : SemInv value s) {s' : SemSys} (h : SemStep s t s') : SemInv value s' := by
  cases h with
  | invalid => exact inv
  | callWait e hctl => exact inv.move _ rfl rfl rfl (fun h => by cases h) (fun h => by cases h) nofun
  | callTry hctl => exact inv.move _ rfl rfl rfl (fun h => by cases h) (fun h => by cases h) nofun
  | callPost hctl => exact inv.move _ rfl rfl rfl (fun h => by cases h) (fun h => by cases h) nofun
  | callDestroy hctl => exact inv.move _ rfl rfl rfl (fun h => by cases h) (fun h => by cases h) nofun
  | waitLock hctl hlock => exact inv.wrlock hlock rfl nofun
  | waitPass fuel hctl hpass =>
    obtain ⟨rfl, hpos⟩ := inv.waitPass hpass
    refine inv.move _ rfl rfl rfl (fun _ => by rw [hctl]; rfl) (fun h => ?_) fun h => ?_
    · split at h <;> cases h
    · split at h
      · cases h
      · exact hpos rfl
      · cases h
  | waitTake hctl =>
    refine inv.count s.allocated rfl rfl rfl (by rw [hctl]; rfl) rfl nofun ?_
    have htake := semTake_toNat (inv.positive t hctl)
    have hle := inv.count_le
    change s.waits + 1 + (semTake s.world).sem.usem_count.toNat ≤ value.toNat + s.posts
    omega
  | waitReturn hctl => exact inv.unlock rfl rfl
  | waitExit hctl => exact inv.unlock rfl rfl
  | waitUnlock hctl => exact inv.unlock rfl rfl
  | waitYield hctl => exact inv.move _ rfl rfl rfl (fun h => by cases h) (fun h => by cases h) nofun
  | tryLock hctl hlock => exact inv.wrlock hlock rfl nofun
  | tryFails hctl => exact inv.move _ rfl rfl rfl (fun _ => by rw [hctl]; rfl) (fun h => by cases h) nofun
  | tryTakes hctl hpos =>
    refine inv.count s.allocated rfl rfl rfl (by rw [hctl]; rfl) rfl nofun ?_
    have htake := semTake_toNat hpos
    have hle := inv.count_le
    change s.waits + 1 + (semTake s.world).sem.usem_count.toNat ≤ value.toNat + s.posts
    omega
  | tryUnlock hctl => exact inv.unlock rfl rfl
  | postLock hctl hlock => exact inv.wrlock hlock rfl nofun
  | postCount hctl hpost =>
    have hempty : semPost s.world = ({ s.world with sem := { s.world.sem with
        usem_count := s.world.sem.usem_count + 1 } }, none, none) := by
      unfold semPost
      dsimp only
      rw [inv.waiters]
    rw [hempty] at hpost
    cases hpost
    refine inv.count _ rfl rfl rfl (by rw [hctl]; rfl) rfl nofun ?_
    -- The count may also wrap, but then there is less of it.
    have hle := inv.count_le
    have hadd : (s.world.sem.usem_count + 1).toNat ≤ s.world.sem.usem_count.toNat + 1 := by
      rw [BitVec.toNat_add]
      exact Nat.mod_le _ _
    change s.waits + (s.world.sem.usem_count + 1).toNat ≤ value.toNat + (s.posts + 1)
    omega
  | postWake hctl => exact inv.move _ rfl rfl rfl (fun _ => by rw [hctl]; rfl) (fun h => by cases h) nofun
  | postUnlock hctl => exact inv.unlock rfl rfl
  | destroyLock hctl hlock => exact inv.rdlock hlock rfl nofun
  | destroyTest hctl => exact inv.move _ rfl rfl rfl (fun h => by cases h) (fun _ => by rw [hctl]; rfl) nofun
  | destroyUnlock hctl =>
    refine inv.unlock ?_ ?_
    · split <;> rfl
    · split <;> rfl
  | destroyFree hctl => exact inv.move _ rfl rfl rfl (fun h => by cases h) (fun h => by cases h) nofun

end SemInv

/-! ### Runs -/

section Runs

variable {value : BitVec 32} {s : SemSys}

theorem SemInv.initial (h : SemInitial value s) : SemInv value s where
  waiters := by
    have hsem := h.sem
    unfold semInit at hsem
    split at hsem
    · cases hsem
    · rw [← Option.some.inj hsem]
  writer t ht := by
    rw [h.ctl t] at ht
    cases ht
  reader t ht := by
    rw [h.ctl t] at ht
    cases ht
  apart := by
    rw [h.interlock]
    exact Or.inl rfl
  positive t ht := by
    rw [h.ctl t] at ht
    cases ht
  count_le := by
    have hsem := h.sem
    unfold semInit at hsem
    split at hsem
    · cases hsem
    · rw [← Option.some.inj hsem, h.waits, h.posts]
      exact Nat.le_of_eq (Nat.zero_add _)

theorem SemInv.run (h : SemRun value s) : SemInv value s := by
  induction h with
  | initial h => exact SemInv.initial h
  | step t _ hstep ih => exact ih.step hstep
  | cancel t _ ih => exact ⟨ih.waiters, ih.writer, ih.reader, ih.apart, ih.positive, ih.count_le⟩

theorem semRun_waiters (h : SemRun value s) : s.world.sem.usem_waiters = none := (SemInv.run h).waiters

/-- A thread that waits is not in the queue, and `sem_destroy` destroys the semaphore. -/
theorem semRun_not_recorded (h : SemRun value s) (t : Addr) : ¬Recorded s t ∧ semBusy s.world = false := by
  constructor
  · rintro ⟨n, e, he, -⟩
    rw [semRun_waiters h] at he
    cases n <;> cases he
  · unfold semBusy
    rw [semRun_waiters h]
    rfl

end Runs

/-! ### Runs without waiting -/

/-- No thread has to wait: a thread that comes to test the count in `sem_wait` finds it positive, or has been
cancelled. -/
def NoWait (s : SemSys) (t : Addr) : Prop :=
  ∀ e, s.ctl t = .waitPass e → s.world.cancelpending t = true ∨ s.world.sem.usem_count ≠ 0

/-- The states of a semaphore in whose run no thread has had to wait. -/
inductive NoWaitRun (value : BitVec 32) : SemSys → Prop
  | initial {s} : SemInitial value s → NoWaitRun value s
  | step {s s'} (t : Addr) : NoWaitRun value s → NoWait s t → SemStep s t s' → NoWaitRun value s'
  | cancel {s} (t : Addr) : NoWaitRun value s → NoWaitRun value (s.cancel t)

section NoWaitRuns

variable {value : BitVec 32} {s : SemSys}

theorem NoWaitRun.semRun (h : NoWaitRun value s) : SemRun value s := by
  induction h with
  | initial h => exact .initial h
  | step t _ _ hstep ih => exact .step t ih hstep
  | cancel t _ ih => exact .cancel t ih

theorem waitPass_ne_zero {w : Semaphores} {t e : Addr} {fuel : ℕ} {pass : WaitPass}
    (hno : s.world.cancelpending t = true ∨ s.world.sem.usem_count ≠ 0)
    (h : semWaitPass s.world t e fuel = some (w, pass)) : pass ≠ .zero := by
  unfold semWaitPass at h
  split at h
  · cases h
    nofun
  · rename_i hcancel
    have hpos := hno.resolve_left hcancel
    have hne : s.world.sem.usem_count.toNat ≠ 0 := fun hzero => hpos (BitVec.eq_of_toNat_eq hzero)
    rw [if_pos (by change 0 < _; bv_omega)] at h
    cases h
    nofun

def SemCtl.waits : SemCtl → Prop
  | .waitUnlock _ | .waitYield _ => True
  | _ => False

theorem waiting_iff {t : Addr} : Waiting s t ↔ (s.ctl t).waits := by
  constructor
  · rintro ⟨e, h | h⟩
    · rw [h]
      trivial
    · rw [h]
      trivial
  · intro h
    cases hctl : s.ctl t with
    | waitUnlock e => exact ⟨e, Or.inl hctl⟩
    | waitYield e => exact ⟨e, Or.inr hctl⟩
    | _ =>
      rw [hctl] at h
      cases h

theorem SemStep.waiting {s' : SemSys} {t u : Addr} (h : SemStep s t s') (hno : NoWait s t)
    (hu : Waiting s' u) : Waiting s u := by
  rw [waiting_iff] at hu ⊢
  cases h with
  | invalid => exact hu
  | waitPass fuel hctl hpass =>
    rcases update_ctl (P := SemCtl.waits) hu with ⟨rfl, hpc⟩ | ⟨-, hu⟩
    · have hne := waitPass_ne_zero (hno _ hctl) hpass
      split at hpc
      · cases hpc
      · cases hpc
      · exact absurd rfl hne
    · exact hu
  | waitUnlock hctl =>
    rcases update_ctl (P := SemCtl.waits) hu with ⟨rfl, -⟩ | ⟨-, hu⟩
    · rw [hctl]
      trivial
    · exact hu
  | postCount =>
    rcases update_ctl (P := SemCtl.waits) hu with ⟨-, hpc⟩ | ⟨-, hu⟩
    · split at hpc <;> cases hpc
    · exact hu
  | destroyUnlock =>
    rcases update_ctl (P := SemCtl.waits) hu with ⟨-, hpc⟩ | ⟨-, hu⟩
    · split at hpc <;> cases hpc
    · exact hu
  | _ =>
    rcases update_ctl (P := SemCtl.waits) hu with ⟨-, hu⟩ | ⟨-, hu⟩
    · cases hu
    · exact hu

theorem NoWaitRun.not_waiting (h : NoWaitRun value s) : ∀ t, ¬Waiting s t := by
  induction h with
  | initial h =>
    intro t ht
    rw [waiting_iff, h.ctl t] at ht
    cases ht
  | step t _ hno hstep ih => exact fun u hu => ih u (hstep.waiting hno hu)
  | cancel t _ ih => exact ih

/-- **Semaphores.** The successful waits are covered in every run. As long as no thread has had to wait the
rest holds as well, and it holds in no state in which a thread does wait. -/
theorem semRun_semSound (h : SemRun value s) :
    s.waits ≤ value.toNat + s.posts ∧ (NoWaitRun value s → SemSound value s) ∧
      (SemSound value s ↔ ∀ t, ¬Waiting s t) := by
  have hle : s.waits ≤ value.toNat + s.posts := by
    have hcount := (SemInv.run h).count_le
    omega
  have hsound : (∀ t, ¬Waiting s t) → SemSound value s := fun hnone =>
    ⟨hle, fun t ht => absurd ht (hnone t), fun ⟨t, ht⟩ => absurd ht (hnone t)⟩
  refine ⟨hle, fun hno => hsound hno.not_waiting, fun hs t ht => ?_, hsound⟩
  exact (semRun_not_recorded h t).1 (hs.recorded t ht)

/-! ### One thread -/

/-- A semaphore behind `sem_init` with `value`. -/
def semStart (value : BitVec 32) : SemSys where
  world :=
    { sem := ⟨USEM_MAGIC, none, value⟩
      interlock := ⟨[], none⟩
      entry := fun _ => ⟨none, none⟩
      state := fun _ => .running
      cancelpending := fun _ => false }
  ctl := fun _ => .user
  allocated := []
  waits := 0
  posts := 0

theorem semStart_initial (value : BitVec 32) : SemInitial value (semStart value) where
  sem := by
    have hle : ¬value > SEM_VALUE_MAX := by
      change ¬(4294967295 : BitVec 32).toNat < value.toNat
      have hlt := value.isLt
      change ¬4294967295 < value.toNat
      omega
    exact if_neg hle
  interlock := rfl
  ctl _ := rfl
  waits := rfl
  posts := rfl

/-- The thread 1 calls `sem_wait`, with its queue element at 2, -/
def semCalled (value : BitVec 32) : SemSys :=
  { (semStart value).goTo 1 (semWaitEntry (semStart value).world 1 2) (.waitLock 2) with allocated := [2] }

/-- acquires the interlock, -/
def semLocked (value : BitVec 32) : SemSys :=
  (semCalled value).goTo 1 { (semCalled value).world with interlock := ⟨[], some 1⟩ } (.waitPass 2)

/-- and finds the count as it is. -/
def semTested (value : BitVec 32) (pc : SemCtl) : SemSys :=
  (semLocked value).goTo 1 (semLocked value).world pc

theorem semLocked_run (value : BitVec 32) : NoWaitRun value (semLocked value) := by
  have hcalled : NoWaitRun value (semCalled value) :=
    .step 1 (.initial (semStart_initial value)) nofun (.callWait 2 rfl rfl List.not_mem_nil)
  exact .step 1 hcalled nofun (.waitLock rfl rfl)

theorem semRun_semSound_one : SemSound 1 (semTested 1 .waitTake) := by
  have hrun : NoWaitRun 1 (semTested 1 .waitTake) :=
    .step 1 (semLocked_run 1) (fun _ _ => Or.inr (by decide)) (@SemStep.waitPass _ _ 2 _ .positive 1 rfl rfl)
  exact (semRun_semSound hrun.semRun).2.1 hrun

theorem semWait_not_queued : ¬∀ value s, SemRun value s → SemSound value s := by
  intro hall
  have hrun : SemRun 0 (semTested 0 (.waitUnlock 2)) :=
    .step 1 (semLocked_run 0).semRun (@SemStep.waitPass _ _ 2 _ .zero 1 rfl rfl)
  have hwaits : Waiting (semTested 0 (.waitUnlock 2)) 1 := ⟨2, Or.inl rfl⟩
  exact (semRun_not_recorded hrun 1).1 ((hall _ _ hrun).recorded 1 hwaits)

end NoWaitRuns

end UnixLib
