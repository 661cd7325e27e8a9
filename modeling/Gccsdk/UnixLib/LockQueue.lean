import Gccsdk.UnixLib.Lock

/-!
# What the lock functions do

One lemma for each function of `pthread/lock.c`, saying what it has done when it ends: to the lock, to
the threads, and to the waiting lists, of which all that is assumed is that they are
`LinkedQueue.Queues`. The later modules use these lemmas only.
-/

namespace UnixLib

open LinkedQueue

variable {w w' : World} {q : Queue → List Addr} {m t u : Addr} {type : LockType} {fuel : ℕ}
  {l : List Addr} {h : Option Addr} {o : Outcome}

/-! ### Links -/

/-- Only links between waiting threads and heads of waiting lists differ. -/
structure LinksOnly (w w' : World) : Prop where
  thread : ∀ u, w'.thread u = { w.thread u with nextwait := (w'.thread u).nextwait }
  lock : ∀ m, w'.lock m = { w.lock m with waiting := (w'.lock m).waiting }
  runningThread : w'.runningThread = w.runningThread
  systemRunning : w'.systemRunning = w.systemRunning

theorem LinksOnly.setWaiting (w : World) (k : Queue) (x : Option Addr) :
    LinksOnly w (w.setWaiting k x) where
  thread u := by simp
  lock m := by
    cases k with
    | lock m' =>
      by_cases hm : m = m'
      · subst hm
        simp [World.setWaiting]
      · simp [World.setWaiting, hm]
    | cond c => rfl
  runningThread := by simp
  systemRunning := by simp

theorem LinksOnly.setLink (w : World) (t : Addr) (x : Option Addr) :
    LinksOnly w (w.modify t fun v => { v with nextwait := x }) where
  thread u := by
    by_cases hu : u = t
    · subst hu
      simp
    · simp [hu]
  lock m := rfl
  runningThread := rfl
  systemRunning := rfl

/-- **Appending to a list.** The running thread, which is on no list, is the last one of the list
afterwards. -/
theorem appendWaiting_spec {k : Queue} (hq : Queues w.nextwait w.waiting q)
    (ht : ∀ k, w.runningThread ∉ q k) (hnull : w.nextwait w.runningThread = none)
    (h : appendWaiting fuel w k = some w') :
    Queues w'.nextwait w'.waiting (Function.update q k (q k ++ [w.runningThread])) ∧
      LinksOnly w w' := by
  unfold appendWaiting at h
  split at h
  · rename_i hhead
    obtain rfl := Option.some.inj h
    have hempty : q k = [] := (hq.chain k).eq_nil_iff.mpr hhead
    refine ⟨?_, LinksOnly.setWaiting w k _⟩
    rw [World.nextwait_setWaiting, World.waiting_setWaiting, hempty]
    exact hq.push_nil ht hnull
  · rename_i list hhead
    obtain ⟨tail, htail, rfl⟩ := Option.map_eq_some_iff.mp h
    have hchain := hq.chain k
    rw [hhead] at hchain
    -- the list is not empty, and the loop has stopped at its last thread
    have hne : q k ≠ [] := fun hnil => by simp [hnil] at hchain
    obtain ⟨l, b, hlast⟩ : ∃ l b, q k = l ++ [b] :=
      ⟨_, _, (List.dropLast_append_getLast hne).symm⟩
    rw [hlast] at hchain
    have hb : tail = b := by
      rw [hchain.last_eq] at htail
      split at htail
      · exact (Option.some.inj htail).symm
      · exact absurd htail (by simp)
    subst hb
    refine ⟨?_, LinksOnly.setLink w tail _⟩
    rw [World.nextwait_modify, World.waiting_modify]
    exact hq.push_last ht hnull hlast

/-! ### Blocking -/

/-- What `lockBlock` has done apart from the waiting lists: the running thread has noted what it waits
for and sleeps. -/
structure Blocked (w w' : World) (m : Addr) (type : LockType) : Prop where
  lock : ∀ m, w'.lock m = { w.lock m with waiting := (w'.lock m).waiting }
  other : ∀ u, u ≠ w.runningThread →
    w'.thread u = { w.thread u with nextwait := (w'.thread u).nextwait }
  state : (w'.thread w.runningThread).state = .mutexWait
  mutex : (w'.thread w.runningThread).mutex = some m
  mutextype : (w'.thread w.runningThread).mutextype = type
  runningThread : w'.runningThread = w.runningThread
  systemRunning : w'.systemRunning = w.systemRunning

theorem lockBlock_spec (hq : Queues w.nextwait w.waiting q) (ht : ∀ k, w.runningThread ∉ q k)
    (h : lockBlock fuel w m type = some w') :
    Queues w'.nextwait w'.waiting
        (Function.update q (.lock m) (q (.lock m) ++ [w.runningThread])) ∧
      Blocked w w' m type := by
  obtain ⟨w₂, happend, rfl⟩ := Option.map_eq_some_iff.mp h
  -- the thread's own link is cleared first; it is on no list
  have hq₁ : Queues
      (w.modify w.runningThread fun t =>
        { t with mutex := some m, mutextype := type, nextwait := none }).nextwait w.waiting q := by
    rw [World.nextwait_modify]
    exact hq.frame_update ht none
  obtain ⟨hq₂, hlinks⟩ := appendWaiting_spec hq₁ ht (by simp [World.nextwait]) happend
  have hrun : w₂.runningThread = w.runningThread := hlinks.runningThread
  refine ⟨?_, ?_⟩
  · rw [World.nextwait_modify_of_eq _ _ rfl, World.waiting_modify]
    exact hq₂
  · have hself := hlinks.thread w.runningThread
    refine
      { lock := hlinks.lock
        other := fun u hu => ?_
        state := ?_
        mutex := ?_
        mutextype := ?_
        runningThread := hrun
        systemRunning := hlinks.systemRunning }
    · have hother := hlinks.thread u
      simp only [World.modify_thread, Function.update_of_ne hu] at hother
      simp only [World.modify_thread, hrun, Function.update_of_ne hu]
      exact hother
    · simp [hrun]
    · simp only [World.modify_thread, hrun, Function.update_self]
      rw [hself]
      simp
    · simp only [World.modify_thread, hrun, Function.update_self]
      rw [hself]
      simp

/-! ### The retry of a blocked thread -/

/-- What `lockRetry` has done, apart from the waiting lists, when it got the lock. -/
structure Took (w w' : World) (m : Addr) (type : LockType) : Prop where
  lock : ∀ m', w'.lock m' =
    { (lockAcquire w m type).lock m' with waiting := (w'.lock m').waiting }
  other : ∀ u, u ≠ w.runningThread →
    w'.thread u = { w.thread u with nextwait := (w'.thread u).nextwait }
  state : (w'.thread w.runningThread).state = (w.thread w.runningThread).state
  cond : (w'.thread w.runningThread).cond = (w.thread w.runningThread).cond
  runningThread : w'.runningThread = w.runningThread
  systemRunning : w'.systemRunning = w.systemRunning

theorem LinksOnly.took (h : LinksOnly w w') (m : Addr) (type : LockType) :
    Took w (lockTake w' m type) m type where
  lock m' := by
    have hlock := h.lock m'
    by_cases hm : m' = m
    · subst hm
      simp only [lockTake, lockAcquire, World.modify_lock, World.modifyLock_lock,
        Function.update_self, h.runningThread]
      rw [hlock]
    · simp only [lockTake, lockAcquire, World.modify_lock, World.modifyLock_lock,
        Function.update_of_ne hm]
      exact hlock
  other u hu := by
    have hu' : u ≠ w'.runningThread := h.runningThread ▸ hu
    simp only [lockTake, lockAcquire, World.modify_thread, World.modifyLock_thread,
      Function.update_of_ne hu']
    exact h.thread u
  state := by
    simp only [lockTake, lockAcquire, World.modify_thread, World.modifyLock_thread,
      h.runningThread, Function.update_self]
    rw [h.thread w.runningThread]
  cond := by
    simp only [lockTake, lockAcquire, World.modify_thread, World.modifyLock_thread,
      h.runningThread, Function.update_self]
    rw [h.thread w.runningThread]
  runningThread := h.runningThread
  systemRunning := h.systemRunning

theorem Queues.lockTake {q' : Queue → List Addr} (hq : Queues w.nextwait w.waiting q')
    (ht : ∀ k, w.runningThread ∉ q' k) (m : Addr) (type : LockType) :
    Queues (lockTake w m type).nextwait (lockTake w m type).waiting q' := by
  unfold UnixLib.lockTake lockAcquire
  rw [World.nextwait_modify, World.nextwait_modifyLock, World.waiting_modify,
    World.waiting_modifyLock_of_eq _ _ rfl]
  exact hq.frame_update ht none

theorem filter_ne_middle {l₁ l₂ : List Addr} (hnodup : (l₁ ++ t :: l₂).Nodup) :
    (l₁ ++ t :: l₂).filter (fun u => decide (u ≠ t)) = l₁ ++ l₂ := by
  have h₁ : t ∉ l₁ := by
    intro hmem
    simp [List.nodup_append] at hnodup
    exact hnodup.2.2 t hmem |>.1 rfl
  have h₂ : t ∉ l₂ := by
    intro hmem
    simp [List.nodup_append, hmem] at hnodup
  have keep : ∀ l : List Addr, t ∉ l → l.filter (fun u => decide (u ≠ t)) = l := by
    intro l hl
    refine List.filter_eq_self.mpr fun u hu => ?_
    simp only [ne_eq, decide_not, Bool.not_eq_eq_eq_not, Bool.not_true, decide_eq_false_iff_not]
    rintro rfl
    exact hl hu
  rw [List.filter_append, keep l₁ h₁, List.filter_cons_of_neg (by simp), keep l₂ h₂]

/-- **The retry.** A blocked thread goes on waiting when the lock is not for it; otherwise it leaves the
waiting list and has the lock. -/
theorem lockRetry_spec (hq : Queues w.nextwait w.waiting q)
    (ht : w.runningThread ∈ q (.lock m)) (h : lockRetry fuel w m type = some o) :
    ((w.lock m).grants type = false ∧
      o = .yields (w.modify w.runningThread fun t => { t with state := .mutexWait })) ∨
    ((w.lock m).grants type = true ∧ ∃ w', o = .returns none w' ∧ Took w w' m type ∧
      Queues w'.nextwait w'.waiting
        (Function.update q (.lock m)
          ((q (.lock m)).filter (fun u => decide (u ≠ w.runningThread))))) := by
  have hchain := hq.chain (.lock m)
  obtain ⟨l₁, l₂, hsplit⟩ := List.append_of_mem ht
  have hnodup := hchain.nodup
  -- afterwards the thread is on no list
  have hgone : ∀ k, w.runningThread ∉ Function.update q (.lock m) (l₁ ++ l₂) k := by
    intro k hk
    by_cases hkm : k = .lock m
    · subst hkm
      rw [Function.update_self] at hk
      rw [hsplit] at hnodup
      simp only [List.nodup_append, List.nodup_cons, List.mem_cons, ne_eq] at hnodup
      rcases List.mem_append.mp hk with h₁ | h₂
      · exact hnodup.2.2 _ h₁ _ (Or.inl rfl) rfl
      · exact hnodup.2.1.1 h₂
    · rw [Function.update_of_ne hkm] at hk
      exact hq.not_mem_of_ne ht hkm hk
  unfold lockRetry at h
  split at h
  · rename_i hgrants
    refine Or.inr ⟨hgrants, ?_⟩
    rw [hsplit, filter_ne_middle (hsplit ▸ hnodup)]
    split at h
    · rename_i hhead
      obtain rfl := Option.some.inj h
      -- the thread is the first one of the list
      have hl₁ : l₁ = [] := by
        cases l₁ with
        | nil => rfl
        | cons a l₁ =>
          rw [hsplit] at hchain hnodup
          have ha : w.runningThread = a := Option.some.inj (hhead.symm.trans hchain.1)
          simp [ha] at hnodup
      subst hl₁
      refine ⟨_, rfl, (LinksOnly.setWaiting w (.lock m) _).took m type, ?_⟩
      refine Queues.lockTake ?_ (by simpa using hgone) m type
      rw [World.nextwait_setWaiting, World.waiting_setWaiting]
      exact hq.pop hsplit
    · rename_i hhead
      -- there is a thread before it
      have hl₁ : l₁ ≠ [] := by
        rintro rfl
        rw [hsplit] at hchain
        exact hhead hchain.1
      obtain ⟨l, b, rfl⟩ : ∃ l b, l₁ = l ++ [b] :=
        ⟨_, _, (List.dropLast_append_getLast hl₁).symm⟩
      have hsplit' : q (.lock m) = l ++ b :: w.runningThread :: l₂ := by simpa using hsplit
      rw [hsplit'] at hchain
      obtain ⟨r, hr, rfl⟩ := Option.map_eq_some_iff.mp h
      have hr' : r = some b := by
        have hbefore := hchain.before_eq fuel
        change before w.nextwait w.runningThread fuel (w.lock m).waiting = _ at hbefore
        rw [hbefore] at hr
        split at hr
        · exact (Option.some.inj hr).symm
        · exact absurd hr (by simp)
      subst hr'
      refine ⟨_, rfl, (LinksOnly.setLink w b _).took m type, ?_⟩
      refine Queues.lockTake ?_ (by simpa using hgone) m type
      rw [World.nextwait_modify, World.waiting_modify]
      simpa using hq.unlink hsplit'
  · rename_i hgrants
    exact Or.inl ⟨by simpa using hgrants, (Option.some.inj h).symm⟩

/-! ### Locking -/

def World.wantsWrite (w : World) (t : Addr) : Bool := (w.thread t).mutextype == .write

/-- **Locking.** The call gets the lock, or it fails and has changed nothing, or it blocks. -/
theorem lockLock_cases {trylock : Bool} (hl : Chain w.nextwait (w.lock m).waiting l)
    (h : lockLock fuel w m type trylock = some o) :
    (o = .returns none (lockAcquire w m type) ∧
      (((w.lock m).grants type = true ∧ (type = .read → ∀ u ∈ l, w.wantsWrite u = false)) ∨
        ((w.lock m).grants type = false ∧ (w.lock m).owner = some w.runningThread ∧
          (w.lock m).attr = .recursive ∧ (w.lock m).count ≠ UINT_MAX))) ∨
    (∃ e, o = .returns (some e) w ∧
      (e = .EDEADLK → (w.lock m).grants type = false ∧
        (w.lock m).owner = some w.runningThread)) ∨
    (∃ w', o = .yields w' ∧ lockBlock fuel w m type = some w' ∧
      ((w.lock m).owner = none → l ≠ [])) := by
  -- blocking when the lock is not granted: it has an owner
  have howned : (w.lock m).grants type = false → (w.lock m).owner ≠ none := by
    intro hgrants hnone
    simp [Lock.grants, hnone] at hgrants
  unfold lockLock at h
  split at h
  · rename_i hgrants
    split at h
    · -- reading: the waiting list is searched for a writer
      rename_i hread
      obtain ⟨r, hfind, h⟩ := Option.bind_eq_some_iff.mp h
      have hr := hl.find_eq hfind
      cases r with
      | none =>
        have hnone := List.find?_eq_none.mp hr.symm
        refine Or.inl ⟨(Option.some.inj h).symm, Or.inl ⟨hgrants, fun _ u hu => ?_⟩⟩
        simpa [World.wantsWrite] using hnone u hu
      | some u =>
        have hmem := List.mem_of_find?_eq_some hr.symm
        dsimp only at h
        split at h
        · exact Or.inr (Or.inl ⟨_, (Option.some.inj h).symm, by simp⟩)
        · obtain ⟨w', hblock, rfl⟩ := Option.map_eq_some_iff.mp h
          exact Or.inr (Or.inr ⟨w', rfl, hblock, fun _ => List.ne_nil_of_mem hmem⟩)
    · rename_i hread
      exact Or.inl ⟨(Option.some.inj h).symm, Or.inl ⟨hgrants, fun hr => absurd hr hread⟩⟩
  · rename_i hgrants
    have hgrants : (w.lock m).grants type = false := by simpa using hgrants
    split at h
    · rename_i howner
      split at h
      · refine Or.inr (Or.inl ⟨_, (Option.some.inj h).symm, fun _ => ⟨hgrants, howner.1⟩⟩)
      · rename_i hcheck
        split at h
        · exact Or.inr (Or.inl ⟨_, (Option.some.inj h).symm, by simp⟩)
        · rename_i hcount
          refine Or.inl ⟨(Option.some.inj h).symm, Or.inr ⟨hgrants, howner.1, ?_, hcount⟩⟩
          cases hattr : (w.lock m).attr with
          | normal => exact absurd hattr howner.2
          | errorcheck => exact absurd hattr hcheck
          | recursive => rfl
    · split at h
      · exact Or.inr (Or.inl ⟨_, (Option.some.inj h).symm, by simp⟩)
      · obtain ⟨w', hblock, rfl⟩ := Option.map_eq_some_iff.mp h
        exact Or.inr (Or.inr ⟨w', rfl, hblock, fun hnone => absurd hnone (howned hgrants)⟩)

theorem LockFn.run_cases {fn : LockFn} (h : fn.run fuel w (some m) = some o) :
    (fn.kind (w.lock m).type = true ∧ lockLock fuel w m fn.type fn.trylock = some o) ∨
      (fn.kind (w.lock m).type = false ∧ o = .returns (some .EINVAL) w) := by
  rw [fn.run_eq] at h
  unfold lockCall at h
  dsimp only at h
  split at h
  · rename_i hkind
    exact Or.inl ⟨hkind, h⟩
  · rename_i hkind
    exact Or.inr ⟨by simpa using hkind, (Option.some.inj h).symm⟩

/-! ### Unlocking -/

def World.wake (w : World) (l : List Addr) : World :=
  { w with thread := fun u =>
      if u ∈ l then { w.thread u with state := .running } else w.thread u }

@[simp] theorem World.wake_lock (w : World) (l : List Addr) : (w.wake l).lock = w.lock := rfl
@[simp] theorem World.wake_cond (w : World) (l : List Addr) : (w.wake l).cond = w.cond := rfl
@[simp] theorem World.wake_runningThread (w : World) (l : List Addr) :
    (w.wake l).runningThread = w.runningThread := rfl
@[simp] theorem World.wake_systemRunning (w : World) (l : List Addr) :
    (w.wake l).systemRunning = w.systemRunning := rfl
@[simp] theorem World.waiting_wake (w : World) (l : List Addr) :
    (w.wake l).waiting = w.waiting := rfl

@[simp] theorem World.nextwait_wake (w : World) (l : List Addr) :
    (w.wake l).nextwait = w.nextwait := by
  funext u
  simp only [World.nextwait, World.wake]
  split <;> rfl

theorem World.wake_thread_of_mem (hu : u ∈ l) :
    (w.wake l).thread u = { w.thread u with state := .running } := if_pos hu

theorem World.wake_thread_of_not_mem (hu : u ∉ l) : (w.wake l).thread u = w.thread u := if_neg hu

theorem World.wake_nil (w : World) : w.wake [] = w := by
  unfold World.wake
  simp

theorem World.wake_cons (w : World) (t : Addr) (l : List Addr) :
    w.wake (t :: l) = (w.modify t fun v => { v with state := .running }).wake l := by
  unfold World.wake World.modify
  congr 1
  funext u
  by_cases hut : u = t
  · subst hut
    by_cases hul : u ∈ l <;> simp [hul]
  · simp [hut]

theorem wakeAll_eq : ∀ {fuel : ℕ} {w : World} {h : Option Addr} {l : List Addr},
    Chain w.nextwait h l → wakeAll fuel w h = some w' → w' = w.wake l
  | fuel, w, h, [], hl, hw => by
    rw [chain_nil.mp hl] at hw
    rw [World.wake_nil]
    cases fuel <;> exact (Option.some.inj hw).symm
  | 0, w, h, a :: l, hl, hw => by
    rw [hl.1] at hw
    exact absurd hw (by simp [wakeAll])
  | fuel + 1, w, h, a :: l, hl, hw => by
    obtain ⟨rfl, hrest⟩ := hl
    rw [World.wake_cons]
    refine wakeAll_eq ?_ hw
    rwa [World.nextwait_modify_of_eq _ _ rfl]

/-- A waiting thread that `__pthread_lock_unlock` takes for a writer. -/
def World.wantsAlone (w : World) (t : Addr) : Bool :=
  (w.thread t).mutextype == .write || (w.thread t).mutextype == .mutex

/-- **The search for a writer**, on a list whose threads all wait for this lock. -/
theorem firstWriter_eq : ∀ {fuel : ℕ} {h : Option Addr} {l : List Addr}
    {r : Except String (Option Addr)}, Chain w.nextwait h l →
    (∀ u ∈ l, u ≠ w.runningThread ∧ (w.thread u).mutex = some m) →
    firstWriter w m fuel h = some r → r = .ok (l.find? w.wantsAlone)
  | fuel, h, [], r, hl, _, hr => by
    rw [chain_nil.mp hl] at hr
    cases fuel <;> exact (Option.some.inj hr).symm
  | 0, h, a :: l, r, hl, _, hr => by
    rw [hl.1] at hr
    exact absurd hr (by simp [firstWriter])
  | fuel + 1, h, a :: l, r, hl, hmem, hr => by
    obtain ⟨rfl, hrest⟩ := hl
    obtain ⟨hself, hmutex⟩ := hmem a (List.mem_cons_self ..)
    rw [firstWriter, if_neg hself, if_neg (not_not.mpr hmutex)] at hr
    split at hr
    · rename_i hwriter
      have ha : w.wantsAlone a = true := by simpa [World.wantsAlone] using hwriter
      rw [List.find?_cons_of_pos ha]
      exact (Option.some.inj hr).symm
    · rename_i hwriter
      have ha : ¬ w.wantsAlone a = true := by simpa [World.wantsAlone] using hwriter
      rw [List.find?_cons_of_neg ha]
      exact firstWriter_eq hrest (fun u hu => hmem u (List.mem_cons_of_mem a hu)) hr

/-- The lock behind an unlock: the count is one less, and at 0 the lock has no owner. -/
def Lock.released (l : Lock) : Lock :=
  { l with
    count := l.count - 1
    owner := if l.count - 1 = 0 then none else l.owner }

theorem Lock.released_of_zero {l : Lock} (h : l.count - 1 = 0) :
    l.released = { l with count := l.count - 1, owner := none } := by
  unfold Lock.released
  rw [if_pos h]

theorem Lock.released_of_ne {l : Lock} (h : ¬ l.count - 1 = 0) :
    l.released = { l with count := l.count - 1 } := by
  unfold Lock.released
  rw [if_neg h]

theorem World.modifyLock_congr {f g : Lock → Lock} (h : f (w.lock m) = g (w.lock m)) :
    w.modifyLock m f = w.modifyLock m g := by
  unfold World.modifyLock
  rw [h]

/-- The calling thread may not unlock: it does not own the lock, or nobody does. -/
def Lock.refuses (l : Lock) (t : Addr) : Prop := (l.type ≠ .read ∧ l.owner ≠ some t) ∨ l.count = 0

/-- **Unlocking.** The call is refused and changes nothing; or the lock is given up, and when that frees
it, threads waiting for it are woken, at least one if there is one. -/
theorem lockUnlock_cases (hl : Chain w.nextwait (w.lock m).waiting l)
    (hmem : ∀ u ∈ l, u ≠ w.runningThread ∧ (w.thread u).mutex = some m)
    (h : lockUnlock fuel w (some m) = some o) :
    ((w.lock m).refuses w.runningThread ∧ o = .returns (some .EPERM) w) ∨
    (¬ (w.lock m).refuses w.runningThread ∧ ∃ woken : List Addr, (∀ u ∈ woken, u ∈ l) ∧
      ((w.lock m).released.owner = none → (w.lock m).owner ≠ none → l ≠ [] → woken ≠ []) ∧
      o = .returns none ((w.modifyLock m Lock.released).wake woken)) := by
  unfold lockUnlock at h
  dsimp only at h
  split at h
  · rename_i hrefuse
    exact Or.inl ⟨hrefuse, (Option.some.inj h).symm⟩
  · rename_i hrefuse
    refine Or.inr ⟨hrefuse, ?_⟩
    split at h
    · rename_i hzero
      rw [World.modifyLock_congr (g := Lock.released) (Lock.released_of_zero hzero).symm] at h
      unfold lockHandOver at h
      obtain ⟨r, hr, h⟩ := Option.bind_eq_some_iff.mp h
      -- the lists are those of before: the lock's waiting list has not been touched
      have hhead : ((w.modifyLock m Lock.released).lock m).waiting = (w.lock m).waiting := by
        simp [Lock.released]
      rw [hhead] at hr h
      have hfound := firstWriter_eq (w := w.modifyLock m Lock.released) hl hmem hr
      cases hfind : l.find? (w.modifyLock m Lock.released).wantsAlone with
      | some u =>
        rw [hfound, hfind] at h
        refine ⟨[u], ?_, by simp, ?_⟩
        · intro v hv
          rw [List.mem_singleton.mp hv]
          exact List.mem_of_find?_eq_some hfind
        · rw [World.wake_cons, World.wake_nil]
          exact (Option.some.inj h).symm
      | none =>
        rw [hfound, hfind] at h
        obtain ⟨w', hwake, rfl⟩ := Option.map_eq_some_iff.mp h
        refine ⟨l, fun _ hu => hu, fun _ _ hne => hne, ?_⟩
        have hall := wakeAll_eq (w := w.modifyLock m Lock.released) hl hwake
        rw [hall]
    · rename_i hcount
      refine ⟨[], by simp, ?_, ?_⟩
      · intro hfreed howned
        simp only [Lock.released, if_neg hcount] at hfreed
        exact absurd hfreed howned
      · rw [World.wake_nil]
        rw [World.modifyLock_congr (g := Lock.released) (Lock.released_of_ne hcount).symm] at h
        exact (Option.some.inj h).symm

end UnixLib
