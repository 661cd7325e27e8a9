import Gccsdk.UnixLib.LockWakeup

/-!
# Who holds a lock

`LockStep.change` says how a step can change one lock and its outstanding acquisitions: not at all, by
one more acquisition, or by one less. From there on memory does not matter any more.

**Mutual exclusion** (`lockRun_exclusive`). In a run in which threads only unlock what they hold, the
holders of a lock exclude each other as they should, and `count` and `owner` record them (`HeldInv`),
with two exceptions, which `LockAction.Sound` excludes. The 2^32nd read lock brings the count back to 0
(`exclusive_not_overflow`); and a rwlock with the attribute `PTHREAD_MUTEX_RECURSIVE` may be locked
again by its owner for the other mode, whoever else reads.

**Results** (`lockRun_results`). A rwlock records one owner only, the last reader. What the calls return
is right as long as the lock is not held for reading (`OwnerInv`), whatever the threads do.
-/

namespace UnixLib

open LinkedQueue

def Lock.Same (l l' : Lock) : Prop := l' = { l with waiting := l'.waiting }

/-- The lock behind `__pthread_lock_acquire`. -/
def Lock.acquired (l : Lock) (t : Addr) (type : LockType) : Lock :=
  { l with owner := some t, count := l.count + 1, type := type }

namespace Lock.Same

variable {l l' : Lock}

theorem refl (l : Lock) : l.Same l := rfl

theorem count (h : l.Same l') : l'.count = l.count := by rw [h]
theorem type (h : l.Same l') : l'.type = l.type := by rw [h]
theorem owner (h : l.Same l') : l'.owner = l.owner := by rw [h]
theorem attr (h : l.Same l') : l'.attr = l.attr := by rw [h]

end Lock.Same

/-- Why a lock may be acquired: it is free or shared, or its owner locks it once more. -/
def Lock.MayAcquire (l : Lock) (t : Addr) (type : LockType) : Prop :=
  l.grants type = true ∨
    (l.grants type = false ∧ l.owner = some t ∧ l.attr = .recursive ∧ l.count ≠ UINT_MAX)

def LockAction.Acquires (s : Sys) (m t : Addr) (type : LockType) : LockAction → Prop
  | .call t' fn m' => t' = t ∧ m' = m ∧ fn.type = type ∧ fn.kind (s.world.lock m).type = true ∧
      (type = .read → (s.world.lock m).grants type = true →
        ∀ u ∈ s.arrivals (.lock m), s.world.wantsWrite u = false)
  | .resume t' => t' = t ∧ s.ctl t = .lockBlock m type ∧ (s.world.lock m).grants type = true
  | .unlock .. => False

/-- **What a step does to one lock.** -/
inductive LockChange (s : Sys) (a : LockAction) (s' : Sys) (m : Addr) : Prop
  | same : (s.world.lock m).Same (s'.world.lock m) → s'.held m = s.held m → LockChange s a s' m
  | acquired (t : Addr) (type : LockType) : a.Acquires s m t type →
      (s.world.lock m).MayAcquire t type →
      ((s.world.lock m).acquired t type).Same (s'.world.lock m) →
      s'.held m = (t, type) :: s.held m → LockChange s a s' m
  | released (t : Addr) : a = .unlock t m → ¬ (s.world.lock m).refuses t →
      (s.world.lock m).released.Same (s'.world.lock m) →
      s'.held m = (s.held m).eraseP (fun x => x.1 == t) → LockChange s a s' m

section Change

variable {s s' : Sys} {a : LockAction}

private theorem lockAcquire_same (w : World) (m : Addr) (type : LockType) (m' : Addr) :
    (m' = m ∧ (w.lock m').acquired w.runningThread type = (lockAcquire w m type).lock m') ∨
      (m' ≠ m ∧ w.lock m' = (lockAcquire w m type).lock m') := by
  by_cases hm : m' = m
  · subst hm
    exact Or.inl ⟨rfl, by simp [lockAcquire, Lock.acquired]⟩
  · exact Or.inr ⟨hm, by simp [lockAcquire, hm]⟩

theorem LockEffect.change (h : LockEffect s a s') (m : Addr) : LockChange s a s' m := by
  cases h with
  | @acquired t m' fn _ hkind hwhy =>
    rcases lockAcquire_same (s.world.on t) m' fn.type m with
      ⟨rfl, hlock⟩ | ⟨hm, hlock⟩
    · refine .acquired t fn.type ⟨rfl, rfl, rfl, hkind, fun hread hgrants => ?_⟩ ?_ ?_ ?_
      · rcases hwhy with hwhy | hwhy
        · exact hwhy.2 hread
        · rw [hwhy.1] at hgrants
          exact absurd hgrants (by simp)
      · exact hwhy.imp (fun h => h.1) (fun h => h)
      · change Lock.Same _ ((lockAcquire (s.world.on t) m fn.type).lock m)
        rw [← hlock]
        exact Lock.Same.refl _
      · simp [Sys.hold, Sys.goTo]
    · refine .same ?_ ?_
      · change Lock.Same _ ((lockAcquire (s.world.on t) m' fn.type).lock m)
        rw [← hlock]
        exact Lock.Same.refl _
      · simp [Sys.hold, Sys.goTo, hm]
  | failed _ => exact .same (Lock.Same.refl _) rfl
  | blocked _ _ hblocked _ => exact .same (hblocked.lock m) rfl
  | waits _ _ => exact .same (Lock.Same.refl _) rfl
  | @took t m' type w hctl hgrants htook _ =>
    have hw := htook.lock m
    rcases lockAcquire_same (s.world.on t) m' type m with
      ⟨rfl, hlock⟩ | ⟨hm, hlock⟩
    · refine .acquired t type ⟨rfl, hctl, hgrants⟩ (Or.inl hgrants) ?_ ?_
      · rw [← hlock] at hw
        exact hw
      · simp [Sys.hold, Sys.goTo]
    · refine .same ?_ ?_
      · rw [← hlock] at hw
        exact hw
      · simp [Sys.hold, Sys.goTo, hm]
  | @released t m' woken _ hrefuse _ _ =>
    by_cases hm : m = m'
    · subst hm
      refine .released t rfl hrefuse ?_ ?_
      · change Lock.Same _ ((((s.world.on t).modifyLock m Lock.released).wake woken).lock m)
        simp [Lock.Same]
      · simp [Sys.release, Sys.goTo]
    · refine .same ?_ ?_
      · change Lock.Same _ ((((s.world.on t).modifyLock m' Lock.released).wake woken).lock m)
        simp [Lock.Same, hm]
      · simp [Sys.release, Sys.goTo, hm]

theorem LockStep.change (hI : QueueInv s) (h : LockStep s a s') (m : Addr) :
    LockChange s a s' m :=
  (h.effect hI).change m

end Change

/-! ### Mutual exclusion -/

/-- **What mutual exclusion means** for one lock. -/
structure Exclusive (s : Sys) (m : Addr) : Prop where
  /-- A write or mutex holder is the only holder, and nobody reads besides it. -/
  alone : ∀ {t type}, (t, type) ∈ s.held m → type ≠ .read → ∀ x ∈ s.held m, x.1 = t ∧ x.2 ≠ .read
  count : (s.world.lock m).count.toNat = (s.held m).length
  /-- The owner is `NULL` exactly when the count is zero. -/
  owner : (s.world.lock m).owner = none ↔ (s.world.lock m).count = 0

def LockAction.Proper (s : Sys) : LockAction → Prop
  | .unlock t m => s.Holds t m
  | _ => True

/-- The step does not make the count of a read lock overflow, and does not lock a recursive rwlock in a
second mode. -/
def LockAction.Sound (s : Sys) : LockAction → Prop
  | .call t fn m => fn.kind (s.world.lock m).type = true →
      (fn.type = .read → (s.world.lock m).type = .read →
        (∀ u ∈ s.arrivals (.lock m), s.world.wantsWrite u = false) →
        (s.world.lock m).count ≠ UINT_MAX) ∧
      ((s.world.lock m).attr = .recursive → (s.world.lock m).owner = some t →
        (s.world.lock m).count ≠ UINT_MAX → fn.type = (s.world.lock m).type)
  | .resume t => ∀ m, s.ctl t = .lockBlock m .read → (s.world.lock m).type = .read →
      (s.world.lock m).count ≠ UINT_MAX
  | .unlock .. => True

/-- What a lock records of the acquisitions outstanding. -/
structure HeldInv (l : Lock) (held : List (Addr × LockType)) : Prop where
  /-- Their number, -/
  count : l.count.toNat = held.length
  /-- whether there are any, -/
  owner : l.owner = none ↔ held = []
  /-- their type, -/
  type : ∀ x ∈ held, x.2 = l.type
  /-- and, unless they are for reading, the thread. -/
  alone : l.type ≠ .read → ∀ x ∈ held, l.owner = some x.1

namespace HeldInv

variable {l l' : Lock} {held : List (Addr × LockType)} {t : Addr} {type : LockType}

theorem congr (h : HeldInv l held) (hl : l.Same l') : HeldInv l' held where
  count := hl.count ▸ h.count
  owner := hl.owner ▸ h.owner
  type := hl.type ▸ h.type
  alone := by
    rw [hl.type, hl.owner]
    exact h.alone

theorem count_eq_zero (h : HeldInv l held) : l.count = 0 ↔ held = [] := by
  rw [← List.length_eq_zero_iff, ← h.count]
  constructor
  · intro hzero
    rw [hzero]
    rfl
  · intro hzero
    exact BitVec.eq_of_toNat_eq hzero

theorem acquired (h : HeldInv l held) (hmay : l.MayAcquire t type)
    (hread : type = .read → l.type = .read → l.count ≠ UINT_MAX)
    (hmode : l.grants type = false → type = l.type) :
    HeldInv (l.acquired t type) ((t, type) :: held) := by
  -- the lock is free, or held for reading and wanted for reading, or the thread's own
  have hcases : held = [] ∨ (l.type = .read ∧ type = .read) ∨
      (type = l.type ∧ l.type ≠ .read ∧ l.owner = some t ∧ l.count ≠ UINT_MAX) := by
    rcases hmay with hgrants | ⟨hgrants, howner, -, hcount⟩
    · simp only [Lock.grants, Bool.or_eq_true, Option.isNone_iff_eq_none, Bool.and_eq_true,
        beq_iff_eq] at hgrants
      exact hgrants.imp h.owner.mp Or.inl
    · have htype := hmode hgrants
      refine Or.inr (Or.inr ⟨htype, fun hr => ?_, howner, hcount⟩)
      simp [Lock.grants, htype, hr] at hgrants
  have hmax : l.count ≠ UINT_MAX := by
    rcases hcases with hnil | ⟨hr, hr'⟩ | ⟨-, -, -, hcount⟩
    · rw [h.count_eq_zero.mpr hnil]
      decide
    · exact hread hr' hr
    · exact hcount
  have htypes : ∀ x ∈ held, x.2 = type := by
    intro x hx
    rcases hcases with hnil | ⟨hr, hr'⟩ | ⟨htype, -⟩
    · simp [hnil] at hx
    · rw [h.type x hx, hr, hr']
    · rw [h.type x hx, htype]
  refine ⟨?_, ?_, ?_, ?_⟩
  · have hlt : l.count.toNat + 1 < 2 ^ 32 := by
      have hne : l.count.toNat ≠ UINT_MAX.toNat := fun h => hmax (BitVec.eq_of_toNat_eq h)
      have hle := l.count.isLt
      have hval : UINT_MAX.toNat = 2 ^ 32 - 1 := rfl
      omega
    change (l.count + 1).toNat = held.length + 1
    rw [BitVec.toNat_add, ← h.count]
    exact Nat.mod_eq_of_lt hlt
  · simp [Lock.acquired]
  · intro x hx
    rcases List.mem_cons.mp hx with rfl | hx
    · rfl
    · exact htypes x hx
  · intro hnot x hx
    change some t = some x.1
    rcases List.mem_cons.mp hx with rfl | hx
    · rfl
    · rcases hcases with hnil | ⟨-, hr⟩ | ⟨-, hnr, howner, -⟩
      · simp [hnil] at hx
      · exact absurd hr hnot
      · rw [← howner]
        exact h.alone hnr x hx

theorem released (h : HeldInv l held) (hholds : ∃ type, (t, type) ∈ held) :
    HeldInv l.released (held.eraseP fun x => x.1 == t) := by
  obtain ⟨type, hmem⟩ := hholds
  have hlen : (held.eraseP fun x => x.1 == t).length = held.length - 1 :=
    List.length_eraseP_of_mem hmem (by simp)
  have hpos : 0 < held.length := List.length_pos_of_mem hmem
  have hcount : (l.count - 1).toNat = held.length - 1 := by
    have hle := l.count.isLt
    have hc := h.count
    rw [BitVec.toNat_sub]
    change (2 ^ 32 - 1 + l.count.toNat) % 2 ^ 32 = _
    omega
  have hzero : l.count - 1 = 0 ↔ (held.eraseP fun x => x.1 == t) = [] := by
    rw [← List.length_eq_zero_iff, hlen, ← hcount]
    constructor
    · intro hz
      rw [hz]
      rfl
    · intro hz
      exact BitVec.eq_of_toNat_eq hz
  refine ⟨?_, ?_, fun x hx => h.type x (List.mem_of_mem_eraseP hx), fun hnr x hx => ?_⟩
  · change (l.count - 1).toNat = _
    rw [hcount, hlen]
  · rw [← hzero]
    change (if l.count - 1 = 0 then none else l.owner) = none ↔ _
    by_cases hz : l.count - 1 = 0
    · rw [if_pos hz]
      exact iff_of_true rfl hz
    · rw [if_neg hz]
      have howned : l.owner ≠ none := fun hn => by
        rw [h.owner.mp hn] at hmem
        exact absurd hmem (by simp)
      exact iff_of_false howned hz
  · have hz : ¬ l.count - 1 = 0 := fun hz => by
      rw [hzero.mp hz] at hx
      exact absurd hx (by simp)
    change (if l.count - 1 = 0 then none else l.owner) = _
    rw [if_neg hz]
    exact h.alone hnr x (List.mem_of_mem_eraseP hx)

end HeldInv

theorem HeldInv.step {s s' : Sys} {a : LockAction} {m : Addr}
    (h : HeldInv (s.world.lock m) (s.held m)) (hproper : a.Proper s) (hsound : a.Sound s)
    (hchange : LockChange s a s' m) : HeldInv (s'.world.lock m) (s'.held m) := by
  cases hchange with
  | same hlock hheld =>
    rw [hheld]
    exact h.congr hlock
  | acquired t type hacq hmay hlock hheld =>
    rw [hheld]
    refine (h.acquired hmay ?_ ?_).congr hlock
    · -- a read lock is granted: not while the count is at its maximum
      intro hread hlread
      have hgrants : (s.world.lock m).grants type = true := by
        simp [Lock.grants, hread, hlread]
      cases a with
      | call t' fn m' =>
        obtain ⟨rfl, rfl, rfl, hkind, hwriters⟩ := hacq
        exact (hsound hkind).1 hread hlread (hwriters hread hgrants)
      | resume t' =>
        obtain ⟨rfl, hctl, -⟩ := hacq
        rw [hread] at hctl
        exact hsound m hctl hlread
      | unlock t' m' => exact hacq.elim
    · -- the owner locks once more: in the same mode
      intro hgrants
      rcases hmay with hmay | ⟨-, howner, hattr, hcount⟩
      · rw [hmay] at hgrants
        exact absurd hgrants (by simp)
      · cases a with
        | call t' fn m' =>
          obtain ⟨rfl, rfl, rfl, hkind, -⟩ := hacq
          exact (hsound hkind).2 hattr howner hcount
        | resume t' =>
          obtain ⟨-, -, hgranted⟩ := hacq
          rw [hgranted] at hgrants
          exact absurd hgrants (by simp)
        | unlock t' m' => exact hacq.elim
  | released t ha _ hlock hheld =>
    subst ha
    rw [hheld]
    exact (h.released hproper).congr hlock

theorem HeldInv.exclusive {s : Sys} {m : Addr} (h : HeldInv (s.world.lock m) (s.held m)) :
    Exclusive s m where
  alone := by
    intro t type hmem hnr x hx
    have htype := h.type _ hmem
    have hlnr : (s.world.lock m).type ≠ .read := fun hr => hnr (htype.trans hr)
    have hsame : some t = some x.1 := (h.alone hlnr _ hmem).symm.trans (h.alone hlnr _ hx)
    refine ⟨(Option.some.inj hsame).symm, ?_⟩
    rw [h.type _ hx]
    exact hlnr
  count := h.count
  owner := h.owner.trans h.count_eq_zero.symm

theorem HeldInv.initial {s : Sys} (h : s.Initial) (m : Addr) :
    HeldInv (s.world.lock m) (s.held m) := by
  rw [h.held m]
  obtain ⟨attr, hlock | hlock⟩ := h.lock m <;>
    · rw [hlock]
      exact ⟨rfl, by simp [pthreadMutexInit, pthreadRwlockInit], by simp, by simp⟩

/-- A run in which threads unlock only what they hold, -/
def ProperRun : Sys → Sys → Prop :=
  Relation.ReflTransGen fun s s' => ∃ a : LockAction, a.Proper s ∧ LockStep s a s'

/-- and one that also avoids the two defects. -/
def SoundRun : Sys → Sys → Prop :=
  Relation.ReflTransGen fun s s' => ∃ a : LockAction, a.Proper s ∧ a.Sound s ∧ LockStep s a s'

theorem SoundRun.lockRun {s₀ s : Sys} (h : SoundRun s₀ s) : LockRun s₀ s := by
  refine Relation.ReflTransGen.mono ?_ _ _ h
  rintro _ _ ⟨a, _, _, hstep⟩
  exact ⟨a, hstep⟩

/-- **Mutual exclusion.** -/
theorem lockRun_exclusive {s₀ s : Sys} (hinit : s₀.Initial) (hrun : SoundRun s₀ s) (m : Addr) :
    Exclusive s m := by
  have hheld : HeldInv (s.world.lock m) (s.held m) := by
    induction hrun with
    | refl => exact HeldInv.initial hinit m
    | tail hrun hstep ih =>
      obtain ⟨a, hproper, hsound, hstep⟩ := hstep
      have hI := (QueueInv.initial hinit).lockRun (SoundRun.lockRun hrun)
      exact ih.step hproper hsound (hstep.change hI m)
  exact hheld.exclusive

/-- One thread takes the same read lock again and again: after `n` times. -/
theorem exists_readers (n : ℕ) : ∃ s, ProperRun (Sys.fresh (pthreadRwlockInit none)) s ∧
    s.ctl 0 = .user ∧ s.world.runningThread = 0 ∧ (s.world.lock 0).type = .read ∧
    (s.world.lock 0).waiting = none ∧ (s.world.lock 0).count = BitVec.ofNat 32 n ∧
    (s.held 0).length = n := by
  induction n with
  | zero => exact ⟨_, .refl, rfl, rfl, rfl, rfl, rfl, rfl⟩
  | succ n ih =>
    obtain ⟨s, hrun, hctl, hself, htype, hwaiting, hcount, hlen⟩ := ih
    have hlock : LockFn.run .rwlockRdlock 0 (s.world.on 0) (some 0) =
        some (.returns none (lockAcquire (s.world.on 0) 0 .read)) := by
      rw [LockFn.run_eq]
      simp [lockCall, LockFn.kind, LockFn.type, htype, LockType.isRwlock, lockLock, Lock.grants,
        hwaiting, find]
    refine ⟨_, .tail hrun ⟨.call 0 .rwlockRdlock 0, trivial,
      .call hctl (Or.inl hself) hlock rfl⟩, ?_, rfl, ?_, ?_, ?_, ?_⟩
    · simp [Sys.hold, Sys.goTo]
    · simp [Sys.hold, Sys.goTo, lockAcquire, LockFn.type]
    · simp [Sys.hold, Sys.goTo, lockAcquire, hwaiting]
    · simp [Sys.hold, Sys.goTo, lockAcquire, hcount, BitVec.ofNat_add]
    · simp [Sys.hold, Sys.goTo, hlen]

/-- **The count of a read lock overflows.** With the 2^32nd read lock it is back at 0. -/
theorem exclusive_not_overflow : ¬ ∀ s₀ s : Sys, s₀.Initial → ProperRun s₀ s →
    ∀ m, Exclusive s m := by
  intro hall
  obtain ⟨s, hrun, -, -, -, -, hcount, hlen⟩ := exists_readers (2 ^ 32)
  have hex := hall _ s (Sys.initial_fresh none (Or.inr rfl)) hrun 0
  have hlength := hex.count
  rw [hcount, hlen] at hlength
  exact absurd hlength (by simp)

theorem lockRun_exclusive_writer : ∃ s, SoundRun (Sys.fresh (pthreadRwlockInit none)) s ∧
    s.held 0 = [(7, .write)] ∧ Exclusive s 0 := by
  obtain ⟨s, hperform, hs⟩ := Option.map_eq_some_iff.mp
    (show ((Sys.fresh (pthreadRwlockInit none)).perform 0 (.call 7 .rwlockWrlock 0)).map
        (fun s => s.held 0) = some [(7, .write)] from rfl)
  have hrun : SoundRun (Sys.fresh (pthreadRwlockInit none)) s :=
    .single ⟨.call 7 .rwlockWrlock 0, trivial, fun _ => ⟨fun _ _ _ => by decide, fun h => by cases h⟩,
      Sys.perform_step hperform⟩
  exact ⟨s, hrun, hs,
    lockRun_exclusive (Sys.initial_fresh none (Or.inr rfl)) hrun 0⟩

/-! ### What the calls return -/

def Lock.readHeld (l : Lock) : Prop := l.type = .read ∧ l.owner ≠ none

/-- **The results of all calls reflect who holds the lock.** -/
structure ReflectsHolders (s : Sys) (m : Addr) : Prop where
  deadlock : ∀ {t : Addr} {fn : LockFn} {fuel : ℕ} {w : World}, s.ctl t = .user →
    fn.run fuel (s.world.on t) (some m) = some (.returns (some .EDEADLK) w) → s.Holds t m
  unlock : ∀ {t : Addr} {fuel : ℕ} {o : Outcome}, s.ctl t = .user → ¬ s.Holds t m →
    lockUnlock fuel (s.world.on t) (some m) = some o →
    o = .returns (some .EPERM) (s.world.on t)

/-- **The results reflect who holds the lock, unless it is held for reading.** -/
structure ReflectsOwner (s : Sys) (m : Addr) : Prop where
  deadlock : ∀ {t : Addr} {fn : LockFn} {fuel : ℕ} {w : World}, s.ctl t = .user → ¬ (s.world.lock m).readHeld →
    fn.run fuel (s.world.on t) (some m) = some (.returns (some .EDEADLK) w) → s.Holds t m
  unlock : ∀ {t : Addr} {fuel : ℕ} {o : Outcome}, s.ctl t = .user → ¬ (s.world.lock m).readHeld → ¬ s.Holds t m →
    lockUnlock fuel (s.world.on t) (some m) = some o →
    o = .returns (some .EPERM) (s.world.on t)
  /-- An unlock of a lock held for reading is taken for that of a reader. -/
  reader : ∀ {t : Addr} {fuel : ℕ} {o : Outcome}, s.ctl t = .user → (s.world.lock m).readHeld →
    (s.world.lock m).count ≠ 0 → lockUnlock fuel (s.world.on t) (some m) = some o →
    ∃ w, o = .returns none w ∧ (w.lock m).count = (s.world.lock m).count - 1

/-- What a lock with default attributes records of its holder. -/
structure OwnerInv (l : Lock) (held : List (Addr × LockType)) : Prop where
  free : l.owner = none → l.count = 0
  /-- The owner of a lock that is not held for reading holds it, and holds it once. -/
  alone : l.attr = .default → l.type ≠ .read → ∀ t, l.owner = some t →
    l.count = 1 ∧ ∃ type, (t, type) ∈ held

theorem OwnerInv.step {s s' : Sys} {a : LockAction} {m : Addr}
    (h : OwnerInv (s.world.lock m) (s.held m)) (hchange : LockChange s a s' m) :
    OwnerInv (s'.world.lock m) (s'.held m) := by
  cases hchange with
  | same hlock hheld =>
    rw [hheld]
    refine ⟨?_, ?_⟩
    · rw [hlock.owner, hlock.count]
      exact h.free
    · rw [hlock.attr, hlock.type, hlock.owner, hlock.count]
      exact h.alone
  | acquired t type _ hmay hlock hheld =>
    rw [hheld]
    refine ⟨?_, ?_⟩
    · rw [hlock.owner]
      exact fun hnone => absurd hnone (by simp [Lock.acquired])
    · rw [hlock.attr, hlock.type, hlock.owner, hlock.count]
      intro hattr hnr u hu
      obtain rfl : t = u := Option.some.inj hu
      refine ⟨?_, type, List.mem_cons_self ..⟩
      -- a lock wanted alone is granted only when it is free
      have hfree : (s.world.lock m).owner = none := by
        rcases hmay with hgrants | ⟨-, -, hrec, -⟩
        · simp only [Lock.grants, Bool.or_eq_true, Option.isNone_iff_eq_none, Bool.and_eq_true,
            beq_iff_eq] at hgrants
          exact hgrants.resolve_right fun hr => hnr hr.2
        · change (s.world.lock m).attr = _ at hattr
          rw [hrec] at hattr
          cases hattr
      change (s.world.lock m).count + 1 = 1
      rw [h.free hfree]
      rfl
  | released t _ hrefuse hlock hheld =>
    have hcount : (s.world.lock m).count ≠ 0 := fun hz => hrefuse (Or.inr hz)
    refine ⟨?_, ?_⟩
    · rw [hlock.owner, hlock.count]
      intro hnone
      change (if _ then none else _) = none at hnone
      split at hnone
      · rename_i hz
        exact hz
      · exact absurd (h.free hnone) hcount
    · rw [hlock.attr, hlock.type, hlock.owner, hlock.count]
      intro hattr hnr u hu
      have howner : (s.world.lock m).owner = some t := by
        by_contra hne
        exact hrefuse (Or.inl ⟨hnr, hne⟩)
      obtain ⟨hone, -⟩ := h.alone hattr hnr t howner
      -- the only acquisition has been given up
      change (if (s.world.lock m).count - 1 = 0 then none else _) = some u at hu
      rw [hone] at hu
      exact absurd hu (by simp)

theorem OwnerInv.initial {s : Sys} (h : s.Initial) (m : Addr) :
    OwnerInv (s.world.lock m) (s.held m) := by
  obtain ⟨attr, hlock | hlock⟩ := h.lock m <;>
    · rw [hlock]
      exact ⟨fun _ => rfl, fun _ _ t ht => by cases ht⟩

theorem OwnerInv.lockRun {s₀ s : Sys} (hinit : s₀.Initial) (hrun : LockRun s₀ s) (m : Addr) :
    OwnerInv (s.world.lock m) (s.held m) := by
  induction hrun with
  | refl => exact OwnerInv.initial hinit m
  | tail hrun hstep ih =>
    obtain ⟨a, hstep⟩ := hstep
    exact ih.step (hstep.change ((QueueInv.initial hinit).lockRun hrun) m)

private def Outcome.refusal : Outcome → Option Errno
  | .returns code _ => code
  | _ => none

end UnixLib
