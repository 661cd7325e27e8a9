import Gccsdk.UnixLib.LifeSystem

/-!
# What the calls on threads keep

The node of a thread and the record of what has become of it go together (`ThreadInv`): the exit value is
unknown until the thread has handed it over, and stands in its node afterwards; a node that has been
joined or detached is marked as detached, and the scheduler frees it when it removes it from the list, so
that it only keeps nodes nobody has asked for. A thread in `pthread_join` (`JoinInv`) either waits, and is
then entered in the node of the other thread, which has not yet looked for whom to wake; or it has been
woken, and has been given the exit value.

Each function has a lemma that says what it writes, and one that it keeps the invariant `LifeInv`.
-/

namespace UnixLib

open LinkedQueue

/-! ### The invariant -/

/-- The number `g` is that of the thread the node `t` is allocated for. -/
def LifeSys.Now (s : LifeSys) (t : Addr) (g : ℕ) : Prop := g = s.gen t ∧ s.Live t

/-- The thread `j` waits for another one to exit; -/
def LifeSys.Waits (s : LifeSys) (j t : Addr) (g : ℕ) : Prop :=
  (s.world.thread j).state = .join ∧ s.Now t g ∧ (s.world.thread t).joined = some j

/-- or that one has exited, and woken it. -/
def LifeSys.Woken (s : LifeSys) (j t : Addr) (g : ℕ) : Prop :=
  (s.world.thread j).state ≠ .join ∧ (s.record t g).exit = some (s.world.thread j).ret ∧
    (s.Now t g → (s.world.thread t).detached = true)

/-- What the node and the record of a thread say of each other. -/
structure ThreadInv (s : LifeSys) (t : Addr) : Prop where
  magic : (s.world.thread t).magic = PTHREAD_MAGIC ↔ s.Live t
  once : s.world.freed t ≤ 1
  phase : s.phase t ≠ .gone ↔ s.Live t ∧ (s.world.thread t).state ≠ .unalloced ∧
    (s.world.thread t).state ≠ .idle
  /-- The exit value is not known before the thread has handed it over, -/
  notYet : s.Live t → (s.phase t).inCode = true → (s.record t (s.gen t)).exit = none
  /-- and stands in its node from then on. -/
  value : s.Live t → (s.phase t).inCode = false →
    (s.record t (s.gen t)).exit = some (s.world.thread t).ret
  /-- The node of a thread that has been joined or detached is marked as detached; -/
  marked : s.Live t → (s.record t (s.gen t)).delivered ≠ [] ∨
    (s.record t (s.gen t)).detached = true → (s.world.thread t).detached = true
  /-- the scheduler does not keep those. -/
  kept : s.Live t → (s.world.thread t).state = .unalloced →
    (s.world.thread t).detached = false

/-- What a thread in `pthread_join` relies on. -/
structure JoinInv (s : LifeSys) (j t : Addr) (g : ℕ) : Prop where
  other : j ≠ t
  known : g ≤ s.gen t
  first : (s.record t g).delivered = []
  waits : s.Waits j t g ∨ s.Woken j t g

/-- What has been delivered is the exit value, and only once. -/
structure RecordInv (x : Record) : Prop where
  once : x.delivered.length ≤ 1
  value : ∀ v ∈ x.delivered, x.exit = some v

/-- **The invariant.** -/
structure LifeInv (s : LifeSys) : Prop where
  /-- The list of threads has the nodes that are allocated and that the scheduler has not removed. -/
  list : ∃ l, Chain s.world.next s.world.threadList l ∧
    ∀ t, t ∈ l ↔ s.Live t ∧ (s.world.thread t).state ≠ .unalloced
  /-- There is only the main thread as long as the thread system does not run. -/
  lone : s.world.systemRunning = false → ∀ t u, s.Live t → s.Live u → t = u
  thread : ∀ t, ThreadInv s t
  record : ∀ t g, RecordInv (s.record t g)
  future : ∀ t g, s.gen t < g → s.record t g = .blank
  call : ∀ t, s.call t ≠ .none → (s.phase t).inCode = true
  /-- A thread that another one waits for has not yet looked for whom to wake. -/
  joined : ∀ t j, s.Live t → (s.world.thread t).joined = some j →
    s.call j = .joining t (s.gen t) ∧ (s.world.thread j).state = .join ∧
      (s.phase t).inCode = true
  joining : ∀ j t g, s.call j = .joining t g → JoinInv s j t g
  unique : ∀ j j' t g, s.call j = .joining t g → s.call j' = .joining t g → j = j'

/-! ### Fields of a state -/

namespace LifeSys

variable {s : LifeSys} {w : World} {p : Phase} {c : LifeCall} {t u : Addr} {g i : ℕ}
  {f : Record → Record}

@[simp] theorem goTo_world : (s.goTo w p c).world = w := rfl

@[simp] theorem goTo_gen : (s.goTo w p c).gen t = s.gen t := rfl

@[simp] theorem goTo_record : (s.goTo w p c).record t g = s.record t g := rfl

theorem goTo_phase : (s.goTo w p c).phase t =
    if t = s.world.runningThread then p else s.phase t := Function.update_apply ..

theorem goTo_call : (s.goTo w p c).call t =
    if t = s.world.runningThread then c else s.call t := Function.update_apply ..

@[simp] theorem note_world : (s.note t g f).world = s.world := rfl

@[simp] theorem note_gen : (s.note t g f).gen u = s.gen u := rfl

@[simp] theorem note_phase : (s.note t g f).phase u = s.phase u := rfl

@[simp] theorem note_call : (s.note t g f).call u = s.call u := rfl

theorem note_record : (s.note t g f).record u i =
    if u = t ∧ i = g then f (s.record u i) else s.record u i := by
  unfold note
  by_cases hu : u = t
  · subst hu
    by_cases hi : i = g
    · subst hi
      simp
    · simp [hi]
  · simp [hu]

variable {d : Bool}

@[simp] theorem allocate_world : (s.allocate t p d).world = s.world := rfl

theorem allocate_phase : (s.allocate t p d).phase u = if u = t then p else s.phase u :=
  Function.update_apply ..

theorem allocate_call : (s.allocate t p d).call u = if u = t then .none else s.call u :=
  Function.update_apply ..

theorem allocate_gen : (s.allocate t p d).gen u = if u = t then s.gen u + 1 else s.gen u := by
  change Function.update s.gen t (s.gen t + 1) u = _
  rw [Function.update_apply]
  split
  · rename_i hu
    rw [hu]
  · rfl

theorem allocate_record : (s.allocate t p d).record u i =
    if u = t ∧ i = s.gen t + 1 then { s.record u i with detached := d } else s.record u i :=
  note_record

end LifeSys

/-! ### What the functions write -/

theorem exitHandOver_thread (w : World) (status : ℕ) (t : Addr) :
    (exitHandOver w status).thread t =
      { w.thread t with
        ret := if t = w.runningThread ∨ (w.thread w.runningThread).joined = some t then status
          else (w.thread t).ret
        state := if (w.thread w.runningThread).joined = some t then .running
          else (w.thread t).state
        joined := if t = w.runningThread then none else (w.thread t).joined
        detached := if t = w.runningThread then (w.thread t).detached || (w.thread t).joined.isSome
          else (w.thread t).detached } := by
  unfold exitHandOver
  dsimp only
  cases hj : (w.thread w.runningThread).joined with
  | none =>
    simp only [World.modify_thread, hj]
    by_cases ht : t = w.runningThread
    · subst ht
      simp [hj]
    · simp [ht]
  | some j =>
    simp only [World.modify_thread, hj]
    by_cases ht : t = w.runningThread
    · subst ht
      by_cases hjt : j = w.runningThread
      · simp [hjt, hj]
      · simp [hj, hjt, Ne.symm hjt]
    · by_cases hjt : j = t
      · subst hjt
        simp [ht]
      · simp [ht, hjt, Ne.symm hjt]

theorem exitHandOver_other (w : World) (status : ℕ) :
    (exitHandOver w status).freed = w.freed ∧ (exitHandOver w status).next = w.next ∧
      (exitHandOver w status).threadList = w.threadList ∧
      (exitHandOver w status).systemRunning = w.systemRunning ∧
      (exitHandOver w status).runningThread = w.runningThread := by
  refine ⟨?_, funext fun t => ?_, ?_, ?_, ?_⟩
  · unfold exitHandOver
    dsimp only
    split <;> rfl
  · rw [World.next, exitHandOver_thread]
    rfl
  all_goals
    unfold exitHandOver
    dsimp only
    split <;> rfl

/-- What `pthread_create` writes when it succeeds. -/
structure Created (w w' : World) (t : Addr) (d : Bool) : Prop where
  other : ∀ u, u ≠ t → w'.thread u = w.thread u
  magic : (w'.thread t).magic = PTHREAD_MAGIC
  state : (w'.thread t).state = .running
  joined : (w'.thread t).joined = none
  detached : (w'.thread t).detached = d
  freed : ∀ u, w'.freed u = if u = t then 0 else w.freed u
  next : w'.next = Function.update w.next t w.threadList
  threadList : w'.threadList = some t
  systemRunning : w'.systemRunning = true

theorem pthreadCreate_node (w : World) (t : Addr) (attr : Option Bool) :
    Created w (pthreadCreate w (.node t) attr).2 t (attr.getD false) := by
  refine ⟨fun u hu => ?_, ?_, ?_, ?_, ?_, fun u => ?_, ?_, rfl, rfl⟩
  · simp [pthreadCreate, insertNode, newNode, World.malloc, hu]
  · simp [pthreadCreate, insertNode, newNode]
  · simp [pthreadCreate, insertNode, newNode]
  · simp [pthreadCreate, insertNode, newNode]
  · simp [pthreadCreate, insertNode, newNode]
  · exact World.malloc_freed ..
  · funext u
    by_cases hu : u = t
    · subst hu
      simp [pthreadCreate, insertNode, newNode, World.next, World.malloc]
    · simp [pthreadCreate, insertNode, newNode, World.next, World.malloc, hu]

/-- What a `pthread_create` that runs out of memory leaves alone. -/
structure NotCreated (w w' : World) (t : Addr) : Prop where
  other : ∀ u, u ≠ t → w'.thread u = w.thread u
  magic : (w'.thread t).magic = (w.thread t).magic ∨ (w'.thread t).magic = 0
  freed : ∀ u, w'.freed u = if u = t then 1 else w.freed u
  threadList : w'.threadList = w.threadList
  systemRunning : w'.systemRunning = true

theorem pthreadCreate_noSaveArea (w : World) (t : Addr) (attr : Option Bool) :
    NotCreated w (pthreadCreate w (.noSaveArea t) attr).2 t := by
  refine ⟨fun u _ => rfl, Or.inl rfl, fun u => ?_, rfl, rfl⟩
  change ((World.malloc _ t).free t).freed u = _
  rw [World.free_freed, World.malloc_freed]
  split <;> rfl

theorem pthreadCreate_noStack (w : World) (t : Addr) (attr : Option Bool) :
    NotCreated w (pthreadCreate w (.noStack t) attr).2 t := by
  refine ⟨fun u hu => ?_, Or.inr ?_, fun u => ?_, rfl, rfl⟩
  · change ((newNode _ t).free t).thread u = _
    rw [World.free_thread, newNode, World.modify_thread_apply, if_neg hu]
    rfl
  · change (((newNode _ t).free t).thread t).magic = 0
    rw [World.free_thread, newNode, World.modify_thread_apply, if_pos rfl]
  · change ((newNode _ t).free t).freed u = _
    rw [World.free_freed, newNode, World.modify_freed, World.malloc_freed]
    split <;> rfl

theorem pthreadDetach_thread (w : World) (t u : Addr) : (pthreadDetach w t).thread u =
    { w.thread u with
      magic := if u = t ∧ (w.thread u).state = .unalloced then 0 else (w.thread u).magic
      detached := if u = t then true else (w.thread u).detached } := by
  unfold pthreadDetach
  by_cases hu : u = t
  · subst hu
    by_cases hstate : (w.thread u).state = .unalloced <;> simp [hstate]
  · by_cases hstate : (w.thread t).state = .unalloced <;> simp [hstate, hu]

theorem pthreadDetach_freed (w : World) (t u : Addr) : (pthreadDetach w t).freed u =
    if u = t ∧ (w.thread u).state = .unalloced then w.freed u + 1 else w.freed u := by
  unfold pthreadDetach
  by_cases hu : u = t
  · subst hu
    by_cases hstate : (w.thread u).state = .unalloced <;> simp [hstate, World.free_freed]
  · by_cases hstate : (w.thread t).state = .unalloced <;> simp [hstate, hu, World.free_freed]

theorem pthreadDetach_other (w : World) (t : Addr) : (pthreadDetach w t).next = w.next ∧
    (pthreadDetach w t).threadList = w.threadList ∧
    (pthreadDetach w t).systemRunning = w.systemRunning ∧
    (pthreadDetach w t).runningThread = w.runningThread := by
  refine ⟨funext fun u => ?_, ?_, ?_, ?_⟩
  · rw [World.next, pthreadDetach_thread]
    rfl
  all_goals
    unfold pthreadDetach
    dsimp only
    split <;> rfl

structure Cleaned (w w' : World) (n : Addr) : Prop where
  thread : ∀ u, w'.thread u = if u = n then
    { w.thread u with
      state := .unalloced
      magic := if (w.thread u).detached = true then 0 else (w.thread u).magic }
    else w.thread u
  freed : ∀ u, w'.freed u =
    if u = n ∧ (w.thread u).detached = true then w.freed u + 1 else w.freed u
  threadList : w'.threadList = w.threadList
  runningThread : w'.runningThread = w.runningThread
  systemRunning : w'.systemRunning = w.systemRunning

theorem cleanupIdle_cleaned {w w' : World} {n : Addr} (h : cleanupIdle w (some n) = .ok w') :
    Cleaned w w' n := by
  simp only [cleanupIdle] at h
  split at h
  · cases h
  · split at h
    · rename_i hdetached
      cases h
      refine ⟨fun u => ?_, fun u => ?_, rfl, rfl, rfl⟩
      · rw [World.free_thread, World.modify_thread_apply]
        split
        · rename_i hu
          rw [hu, if_pos hdetached]
        · rfl
      · rw [World.free_freed, World.modify_freed]
        by_cases hu : u = n
        · rw [if_pos hu, if_pos ⟨hu, hu ▸ hdetached⟩]
        · rw [if_neg hu, if_neg fun h => hu h.1]
    · rename_i hdetached
      cases h
      refine ⟨fun u => ?_, fun u => ?_, rfl, rfl, rfl⟩
      · rw [World.modify_thread_apply]
        split
        · rename_i hu
          rw [hu, if_neg hdetached]
        · rfl
      · rw [World.modify_freed, if_neg]
        rintro ⟨rfl, hu⟩
        exact hdetached hu

/-! ### What a step leaves alone -/

theorem State.eq_iff_of_busy {x y z : State} (h : y = x ∨ x.busy = true ∧ y.busy = true)
    (hz : z.busy = false) : y = z ↔ x = z := by
  rcases h with rfl | ⟨hx, hy⟩
  · exact Iff.rfl
  · constructor
    · rintro rfl
      rw [hz] at hy
      cases hy
    · rintro rfl
      rw [hz] at hx
      cases hx

/-- What a thread that waits for `t` relies on is the same in `s'`; -/
structure SameTarget (s s' : LifeSys) (t : Addr) : Prop where
  joined : (s'.world.thread t).joined = (s.world.thread t).joined
  detached : (s'.world.thread t).detached = (s.world.thread t).detached
  freed : s'.world.freed t = s.world.freed t
  gen : s'.gen t = s.gen t
  record : s'.record t = s.record t

/-- and so is all that the invariant says of it. -/
structure SameThread (s s' : LifeSys) (t : Addr) : Prop extends SameTarget s s' t where
  magic : (s'.world.thread t).magic = (s.world.thread t).magic
  ret : (s'.world.thread t).ret = (s.world.thread t).ret
  state : (s'.world.thread t).state = (s.world.thread t).state ∨
    (s.world.thread t).state.busy = true ∧ (s'.world.thread t).state.busy = true
  phase : s'.phase t = s.phase t

section Same

variable {s s' : LifeSys} {t j : Addr} {g : ℕ}

theorem SameTarget.live (h : SameTarget s s' t) : s'.Live t ↔ s.Live t := by
  unfold LifeSys.Live
  rw [h.gen, h.freed]

theorem SameTarget.now (h : SameTarget s s' t) : s'.Now t g ↔ s.Now t g := by
  unfold LifeSys.Now
  rw [h.gen, h.live]

theorem SameThread.state_eq_iff (h : SameThread s s' t) {x : State} (hx : x.busy = false) :
    (s'.world.thread t).state = x ↔ (s.world.thread t).state = x := State.eq_iff_of_busy h.state hx

theorem SameThread.threadInv (h : SameThread s s' t) (hI : ThreadInv s t) : ThreadInv s' t := by
  constructor
  · rw [h.magic, h.live]
    exact hI.magic
  · rw [h.freed]
    exact hI.once
  · rw [h.phase, h.live, ne_eq (s'.world.thread t).state, ne_eq (s'.world.thread t).state,
      h.state_eq_iff rfl, h.state_eq_iff rfl]
    exact hI.phase
  · rw [h.live, h.phase, h.record, h.gen]
    exact hI.notYet
  · rw [h.live, h.phase, h.record, h.gen, h.ret]
    exact hI.value
  · rw [h.live, h.record, h.gen, h.detached]
    exact hI.marked
  · rw [h.live, h.state_eq_iff rfl, h.detached]
    exact hI.kept

theorem JoinInv.of_same (hI : JoinInv s j t g) (ht : SameTarget s s' t) (hj : SameThread s s' j) :
    JoinInv s' j t g := by
  refine ⟨hI.other, ?_, ?_, hI.waits.imp ?_ ?_⟩
  · rw [ht.gen]
    exact hI.known
  · rw [ht.record]
    exact hI.first
  · rintro ⟨hstate, hnow, hjoined⟩
    exact ⟨(hj.state_eq_iff rfl).mpr hstate, ht.now.mpr hnow, ht.joined.trans hjoined⟩
  · rintro ⟨hstate, hexit, hdetached⟩
    refine ⟨fun h => hstate ((hj.state_eq_iff rfl).mp h), ?_, fun hnow => ?_⟩
    · rw [ht.record, hj.ret]
      exact hexit
    · rw [ht.detached]
      exact hdetached (ht.now.mp hnow)

end Same

namespace LifeInv

variable {s s' : LifeSys} {w : World} {t : Addr}

theorem live_of_inCode (hI : LifeInv s) (h : (s.phase t).inCode = true) :
    s.Live t ∧ (s.world.thread t).state ≠ .unalloced ∧ (s.world.thread t).state ≠ .idle := by
  refine (hI.thread t).phase.mp ?_
  intro hgone
  rw [hgone] at h
  cases h

theorem joined_eq_none (hI : LifeInv s) (hlive : s.Live t) (h : (s.phase t).inCode = false) :
    (s.world.thread t).joined = none := by
  cases hj : (s.world.thread t).joined with
  | none => rfl
  | some j => exact absurd (hI.joined t j hlive hj).2.2 (by simp [h])

theorem of_same (hI : LifeInv s) (h : ∀ t, SameThread s s' t) (hnext : s'.world.next = s.world.next)
    (hlist : s'.world.threadList = s.world.threadList)
    (hsys : s'.world.systemRunning = false → s.world.systemRunning = false)
    (hcall : ∀ t, s'.call t ≠ .none → (s.phase t).inCode = true)
    (hjoining : ∀ j t g, s'.call j = .joining t g ↔ s.call j = .joining t g) : LifeInv s' := by
  constructor
  · obtain ⟨l, hl, hmem⟩ := hI.list
    refine ⟨l, by rwa [hnext, hlist], fun t => ?_⟩
    rw [hmem, (h t).live, ne_eq, ne_eq, (h t).state_eq_iff rfl]
  · intro hrun t u ht hu
    exact hI.lone (hsys hrun) t u ((h t).live.mp ht) ((h u).live.mp hu)
  · exact fun t => (h t).threadInv (hI.thread t)
  · intro t g
    rw [(h t).record]
    exact hI.record t g
  · intro t g hg
    rw [(h t).record]
    exact hI.future t g ((h t).gen ▸ hg)
  · intro t ht
    rw [(h t).phase]
    exact hcall t ht
  · intro t j ht hj
    obtain ⟨hcallj, hstate, hcode⟩ := hI.joined t j ((h t).live.mp ht) ((h t).joined ▸ hj)
    rw [(h t).gen, (h t).phase, hjoining]
    exact ⟨hcallj, ((h j).state_eq_iff rfl).mpr hstate, hcode⟩
  · intro j t g hcallj
    exact (hI.joining j t g ((hjoining j t g).mp hcallj)).of_same (h t).toSameTarget (h j)
  · intro j j' t g hcallj hcallj'
    exact hI.unique j j' t g ((hjoining j t g).mp hcallj) ((hjoining j' t g).mp hcallj')

theorem elsewhere (hI : LifeInv s) (hw : Elsewhere s.world w) : LifeInv { s with world := w } := by
  refine hI.of_same (fun t => ?_) (funext hw.next) hw.threadList (fun h => hw.systemRunning ▸ h)
    hI.call fun _ _ _ => Iff.rfl
  exact ⟨⟨hw.joined t, hw.detached t, congrFun hw.freed t, rfl, rfl⟩, hw.magic t, hw.ret t,
    hw.state t, rfl⟩

theorem ne_of_joining {s : LifeSys} {j r t : Addr} {g : ℕ} (hr : s.call r = .none)
    (hj : s.call j = .joining t g) : j ≠ r := by
  rintro rfl
  rw [hr] at hj
  cases hj

attribute [local grind =] LifeSys.goTo_world LifeSys.goTo_gen LifeSys.goTo_record
  LifeSys.goTo_phase LifeSys.goTo_call LifeSys.note_world LifeSys.note_gen LifeSys.note_phase
  LifeSys.note_call LifeSys.note_record LifeSys.Live Phase.inCode World.modify_thread_apply
  World.modify_threadList World.modify_systemRunning World.modify_freed World.free_thread
  World.free_threadList World.free_systemRunning World.free_freed World.malloc_thread
  World.malloc_threadList World.malloc_systemRunning World.malloc_freed LifeSys.allocate_world
  LifeSys.allocate_phase LifeSys.allocate_call LifeSys.allocate_gen LifeSys.allocate_record

/-- **`pthread_exit`** begins. -/
theorem exit (hI : LifeInv s) (hcalls : s.Calls) (status : ℕ) (hw : exitCleanup s.world = some w) :
    LifeInv (s.goTo w (.exiting status) .none) := by
  obtain ⟨hcode, hcall⟩ := hcalls
  obtain ⟨-, hw'⟩ := (Option.ite_none_right_eq_some ..).mp hw
  obtain rfl := Option.some.inj hw'
  obtain ⟨hlive, hunalloced, hidle⟩ := hI.live_of_inCode hcode
  clear hw hw'
  constructor
  · obtain ⟨l, hl, hmem⟩ := hI.list
    refine ⟨l, ?_, fun t => ?_⟩
    · rw [LifeSys.goTo_world, World.next_modify_of_eq _ _ rfl]
      exact hl
    · have := hmem t
      grind
  · exact fun hsys t u ht hu => hI.lone hsys t u ht hu
  · intro t
    have := hI.thread t
    constructor <;> grind [ThreadInv]
  · exact hI.record
  · exact hI.future
  · intro t ht
    have := hI.call t
    grind
  · intro t j ht hj
    have := hI.joined t j ht
    grind
  · intro j t g hj
    have := hI.joining j t g
    constructor <;> grind [JoinInv, LifeSys.Waits, LifeSys.Woken, LifeSys.Now]
  · intro j j' t g hj hj'
    have := hI.unique j j' t g
    grind

/-- **`pthread_exit`** hands its value over, and wakes the thread that waits for it. -/
theorem handOver (hI : LifeInv s) {status : ℕ}
    (hphase : s.phase s.world.runningThread = .exiting status)
    (hcall : s.call s.world.runningThread = .none) :
    LifeInv ((s.goTo (exitHandOver s.world status) (.exited status) .none).note
      s.world.runningThread (s.gen s.world.runningThread)
      fun x => { x with exit := some status }) := by
  obtain ⟨hfreed, hnext, hlist, hsys, -⟩ := exitHandOver_other s.world status
  have hthread := exitHandOver_thread s.world status
  obtain ⟨hlive, hunalloced, hidle⟩ := hI.live_of_inCode (t := s.world.runningThread)
    (by rw [hphase]; rfl)
  have hrun := hI.thread s.world.runningThread
  have hnone := hrun.notYet hlive (by rw [hphase]; rfl)
  -- the thread that is woken waits for this one only
  have hwoken : ∀ j, (s.world.thread s.world.runningThread).joined = some j →
      s.call j = .joining s.world.runningThread (s.gen s.world.runningThread) ∧
        (s.world.thread j).state = .join ∧ (s.phase j).inCode = true ∧
        j ≠ s.world.runningThread := by
    intro j hj
    obtain ⟨hcallj, hstate, -⟩ := hI.joined s.world.runningThread j hlive hj
    have hcode := hI.call j (by rw [hcallj]; exact fun h => by cases h)
    exact ⟨hcallj, hstate, hcode, ne_of_joining hcall hcallj⟩
  generalize exitHandOver s.world status = w at *
  constructor
  · obtain ⟨l, hl, hmem⟩ := hI.list
    refine ⟨l, ?_, fun t => ?_⟩
    · rw [LifeSys.note_world, LifeSys.goTo_world, hnext, hlist]
      exact hl
    · have := hmem t
      grind
  · intro hrunning t u ht hu
    refine hI.lone (hsys ▸ hrunning) t u ?_ ?_ <;> grind
  · intro t
    have := hI.thread t
    have := hwoken t
    constructor <;> grind [ThreadInv]
  · intro t g
    have := hI.record t g
    constructor <;> grind [RecordInv]
  · intro t g hg
    have := hI.future t g hg
    grind
  · intro t ht
    have := hI.call t
    grind
  · intro t j ht hj
    have := hI.joined t j
    grind
  · intro j t g hj
    have := hI.joining j t g
    have := hwoken j
    constructor <;> grind [JoinInv, LifeSys.Waits, LifeSys.Woken, LifeSys.Now]
  · intro j j' t g hj hj'
    have := hI.unique j j' t g
    grind

theorem goIdle (hI : LifeInv s) {status : ℕ}
    (hphase : s.phase s.world.runningThread = .exited status)
    (hw : exitIdle s.world = some w) : LifeInv (s.goTo w .gone .none) := by
  obtain ⟨-, hw'⟩ := (Option.ite_none_right_eq_some ..).mp hw
  obtain rfl := Option.some.inj hw'
  clear hw hw'
  have hcode : (s.phase s.world.runningThread).inCode = false := by rw [hphase]; rfl
  obtain ⟨hlive, hunalloced, hidle⟩ := (hI.thread s.world.runningThread).phase.mp
    (by rw [hphase]; exact fun h => by cases h)
  have hjoined := hI.joined_eq_none hlive hcode
  have hcall := hI.call s.world.runningThread
  constructor
  · obtain ⟨l, hl, hmem⟩ := hI.list
    refine ⟨l, ?_, fun t => ?_⟩
    · rw [LifeSys.goTo_world, World.next_modify_of_eq _ _ rfl]
      exact hl
    · have := hmem t
      grind
  · exact fun hsys t u ht hu => hI.lone hsys t u ht hu
  · intro t
    have := hI.thread t
    constructor <;> grind [ThreadInv]
  · exact hI.record
  · exact hI.future
  · intro t ht
    have := hI.call t
    grind
  · intro t j ht hj
    have := hI.joined t j ht
    grind
  · intro j t g hj
    have := hI.joining j t g
    constructor <;> grind [JoinInv, LifeSys.Waits, LifeSys.Woken, LifeSys.Now]
  · intro j j' t g hj hj'
    have := hI.unique j j' t g
    grind

theorem notJoined (hI : LifeInv s) (hlive : s.Live t) (hnobody : (s.world.thread t).joined = none)
    (hdetached : (s.world.thread t).detached = false) :
    (s.record t (s.gen t)).delivered = [] ∧ ∀ j, s.call j ≠ .joining t (s.gen t) := by
  refine ⟨?_, fun j hj => ?_⟩
  · by_contra hne
    exact absurd ((hI.thread t).marked hlive (Or.inl hne)) (by simp [hdetached])
  · rcases (hI.joining j t _ hj).waits with ⟨-, -, hwaits⟩ | ⟨-, -, hwoken⟩
    · rw [hnobody] at hwaits
      cases hwaits
    · rw [hwoken ⟨rfl, hlive⟩] at hdetached
      cases hdetached

/-- **`pthread_join`** with a thread that the scheduler has removed. -/
theorem joinRemoved (hI : LifeInv s) (hjoinable : s.world.Joinable t)
    (hstate : (s.world.thread t).state = .unalloced) :
    LifeInv (LifeSys.deliver
      { s with world := (s.world.modify t fun v => { v with magic := 0 }).free t } t (s.gen t)
      (s.world.thread t).ret) := by
  obtain ⟨-, hvalid, hnobody, hdetached⟩ := hjoinable
  have ht := hI.thread t
  have hlive : s.Live t := ht.magic.mp (by simpa [pthreadInvalid] using hvalid)
  have hphase : s.phase t = .gone := by
    by_contra hne
    exact (ht.phase.mp hne).2.1 hstate
  have hexit := ht.value hlive (by rw [hphase]; rfl)
  obtain ⟨hfirst, hfree⟩ := hI.notJoined hlive hnobody hdetached
  unfold LifeSys.deliver
  constructor
  · obtain ⟨l, hl, hmem⟩ := hI.list
    refine ⟨l, ?_, fun u => ?_⟩
    · rw [LifeSys.note_world]
      change Chain (s.world.modify t fun v => { v with magic := 0 }).next _ _
      rw [World.next_modify_of_eq _ _ rfl]
      exact hl
    · have := hmem u
      grind
  · intro hrunning u v hu hv
    refine hI.lone hrunning u v ?_ ?_ <;> grind
  · intro u
    have := hI.thread u
    have := zero_ne_magic
    constructor <;> grind [ThreadInv]
  · intro u g
    have := hI.record u g
    constructor <;> grind [RecordInv]
  · intro u g hg
    have := hI.future u g hg
    grind
  · intro u hu
    have := hI.call u
    grind
  · intro u j hu hj
    have := hI.joined u j
    grind
  · intro j u g hj
    have := hI.joining j u g
    have := hfree j
    constructor <;> grind [JoinInv, LifeSys.Waits, LifeSys.Woken, LifeSys.Now]
  · intro j j' u g hj hj'
    have := hI.unique j j' u g
    grind

theorem joinWaits (hI : LifeInv s) (hcalls : s.Calls) (hjoinable : s.world.Joinable t)
    (hcode : (s.phase t).inCode = true) :
    LifeInv (s.goTo ((s.world.modify s.world.runningThread fun v =>
        { v with state := .join }).modify t fun v => { v with joined := some s.world.runningThread })
      (s.phase s.world.runningThread) (.joining t (s.gen t))) := by
  obtain ⟨hcode', hcall⟩ := hcalls
  obtain ⟨hlive', hunalloced, hidle⟩ := hI.live_of_inCode hcode'
  obtain ⟨hne, hvalid, hnobody, hdetached⟩ := hjoinable
  have ht := hI.thread t
  have hlive : s.Live t := ht.magic.mp (by simpa [pthreadInvalid] using hvalid)
  obtain ⟨hfirst, hfree⟩ := hI.notJoined hlive hnobody hdetached
  constructor
  · obtain ⟨l, hl, hmem⟩ := hI.list
    refine ⟨l, ?_, fun u => ?_⟩
    · rw [LifeSys.goTo_world, World.next_modify_of_eq _ _ rfl, World.next_modify_of_eq _ _ rfl]
      exact hl
    · have := hmem u
      grind
  · exact fun hrunning u v hu hv => hI.lone hrunning u v hu hv
  · intro u
    have := hI.thread u
    constructor <;> grind [ThreadInv]
  · exact hI.record
  · exact hI.future
  · intro u hu
    have := hI.call u
    grind
  · intro u j hu hj
    have := hI.joined u j hu
    grind
  · intro j u g hj
    have := hI.joining j u g
    constructor <;> grind [JoinInv, LifeSys.Waits, LifeSys.Woken, LifeSys.Now]
  · intro j j' u g hj hj'
    have := hI.unique j j' u g
    have := hfree j
    have := hfree j'
    grind

theorem joinReturns (hI : LifeInv s) {g : ℕ} (hcall : s.call s.world.runningThread = .joining t g)
    (hres : (s.world.thread s.world.runningThread).state.runnable = true ∨
      s.world.systemRunning = false) :
    LifeInv ((s.goTo s.world (s.phase s.world.runningThread) .none).deliver t g
      (joinStatus s.world)) := by
  have hjoin := hI.joining _ _ _ hcall
  obtain ⟨hlive, -, -⟩ := hI.live_of_inCode
    (hI.call s.world.runningThread (by rw [hcall]; exact fun h => by cases h))
  have hwoken : s.Woken s.world.runningThread t g := by
    refine hjoin.waits.resolve_left ?_
    rintro ⟨hstate, hnow, -⟩
    rcases hres with hrunnable | hsys
    · rw [hstate] at hrunnable
      cases hrunnable
    · exact hjoin.other (hI.lone hsys _ _ hlive hnow.2)
  obtain ⟨hstate, hexit, hdetached⟩ := hwoken
  have hfirst := hjoin.first
  unfold LifeSys.deliver joinStatus
  constructor
  · exact hI.list
  · exact fun hrunning u v hu hv => hI.lone hrunning u v hu hv
  · intro u
    have := hI.thread u
    constructor <;> grind [ThreadInv, LifeSys.Now]
  · intro u i
    have := hI.record u i
    constructor <;> grind [RecordInv]
  · intro u i hi
    have := hI.future u i hi
    have := hjoin.known
    grind
  · intro u hu
    have := hI.call u
    grind
  · intro u j hu hj
    have := hI.joined u j hu
    grind
  · intro j u i hj
    have := hI.joining j u i
    have := hI.unique j s.world.runningThread u i
    constructor <;> grind [JoinInv, LifeSys.Waits, LifeSys.Woken, LifeSys.Now]
  · intro j j' u i hj hj'
    have := hI.unique j j' u i
    grind

/-- **`pthread_detach`** checks its argument. -/
theorem detach (hI : LifeInv s) (hcalls : s.Calls) :
    LifeInv (s.goTo s.world (s.phase s.world.runningThread) (.detaching t)) := by
  obtain ⟨hcode, hcall⟩ := hcalls
  refine hI.of_same (fun u => ⟨⟨rfl, rfl, rfl, rfl, rfl⟩, rfl, rfl, Or.inl rfl, ?_⟩) rfl rfl id
    (fun u hu => ?_) fun j u g => ?_
  · rw [LifeSys.goTo_phase]
    split
    · rename_i hu
      rw [hu]
    · rfl
  · have := hI.call u
    grind
  · grind

theorem detachRest (hI : LifeInv s) (hcall : s.call s.world.runningThread = .detaching t)
    (hvalid : pthreadInvalid s.world (some t) = false) :
    LifeInv ((s.goTo (pthreadDetach s.world t) (s.phase s.world.runningThread) .none).note t
      (s.gen t) fun x => { x with detached := true }) := by
  have ht := hI.thread t
  have hlive : s.Live t := ht.magic.mp (by simpa [pthreadInvalid] using hvalid)
  obtain ⟨hlive', hunalloced, -⟩ := hI.live_of_inCode
    (hI.call s.world.runningThread (by rw [hcall]; exact fun h => by cases h))
  have hnobody : (s.world.thread t).state = .unalloced → (s.world.thread t).joined = none := by
    intro hstate
    refine hI.joined_eq_none hlive ?_
    cases hcode : (s.phase t).inCode with
    | false => rfl
    | true => exact absurd hstate (hI.live_of_inCode hcode).2.1
  have hthread := pthreadDetach_thread s.world t
  have hfreed := pthreadDetach_freed s.world t
  obtain ⟨hnext, hlist, hsys, -⟩ := pthreadDetach_other s.world t
  generalize pthreadDetach s.world t = w at *
  constructor
  · obtain ⟨l, hl, hmem⟩ := hI.list
    refine ⟨l, ?_, fun u => ?_⟩
    · rw [LifeSys.note_world, LifeSys.goTo_world, hnext, hlist]
      exact hl
    · have := hmem u
      grind
  · intro hrunning u v hu hv
    refine hI.lone (hsys ▸ hrunning) u v ?_ ?_ <;> grind
  · intro u
    have := hI.thread u
    have := zero_ne_magic
    constructor <;> grind [ThreadInv]
  · intro u g
    have := hI.record u g
    constructor <;> grind [RecordInv]
  · intro u g hg
    have := hI.future u g hg
    grind
  · intro u hu
    have := hI.call u
    grind
  · intro u j hu hj
    have := hI.joined u j
    grind
  · intro j u g hj
    have hcallj : s.call j = .joining u g := by grind
    have hold := hI.joining j u g hcallj
    refine ⟨hold.other, hold.known, by grind [hold.first], hold.waits.imp ?_ ?_⟩
    · -- a thread that is waited for has not been removed
      rintro ⟨hstate, hnow, hjoined⟩
      have hremoved : ¬ (u = t ∧ (s.world.thread u).state = .unalloced) := by
        rintro ⟨rfl, hun⟩
        rw [hnobody hun] at hjoined
        cases hjoined
      refine ⟨?_, ⟨hnow.1, ?_⟩, ?_⟩
      · grind
      · have := hnow.2
        grind
      · grind
    · rintro ⟨hstate, hexit, hdet⟩
      refine ⟨by grind, by grind, fun hnow => ?_⟩
      have hlive : s.Live u := by grind [LifeSys.Now]
      have := hdet ⟨hnow.1, hlive⟩
      grind
  · intro j j' u g hj hj'
    have := hI.unique j j' u g
    grind

theorem gone_of_not_live (hI : LifeInv s) (ht : ¬ s.Live t) :
    s.phase t = .gone ∧ s.call t = .none := by
  have hgone : s.phase t = .gone := by
    by_contra hne
    exact ht ((hI.thread t).phase.mp hne).1
  refine ⟨hgone, ?_⟩
  by_contra hne
  have hcode := hI.call t hne
  rw [hgone] at hcode
  cases hcode

theorem allocate_joinInv (hI : LifeInv s) (ht : ¬ s.Live t)
    (hother : ∀ u, u ≠ t → w.thread u = s.world.thread u)
    (hfreed : ∀ u, u ≠ t → w.freed u = s.world.freed u) {j u : Addr} {g : ℕ} {p : Phase} {d : Bool}
    (hj : s.call j = .joining u g) (hne : j ≠ t) :
    JoinInv (LifeSys.allocate { s with world := w } t p d) j u g := by
  have hold := hI.joining j u g hj
  have hknown := hold.known
  refine ⟨hold.other, by grind, by grind [hold.first], hold.waits.imp ?_ ?_⟩
  · rintro ⟨hwait, hnow, hself⟩
    have hut : u ≠ t := fun h => ht (h ▸ hnow.2)
    refine ⟨by grind, ⟨?_, ?_⟩, by grind⟩
    · have := hnow.1
      grind
    · have := hnow.2
      grind
  · -- a thread that has exited may have left its node to the new one
    rintro ⟨hwoken, hexit, hdet⟩
    refine ⟨by grind, by grind, fun hnow => ?_⟩
    have hut : u ≠ t := by
      rintro rfl
      have := hnow.1
      grind
    have hlive : s.Live u := by grind [LifeSys.Now]
    have := hdet ⟨by have := hnow.1; grind, hlive⟩
    grind

theorem create (hI : LifeInv s) (ht : ¬ s.Live t) {d : Bool} (hw : Created s.world w t d) :
    LifeInv (LifeSys.allocate { s with world := w } t .running d) := by
  obtain ⟨hother, hmagic, hstate, hjoined, hdetached, hfreed, hnext, hlist, hsys⟩ := hw
  obtain ⟨hgone, hcall⟩ := hI.gone_of_not_live ht
  have hblank := hI.future t (s.gen t + 1) (Nat.lt_succ_self _)
  constructor
  · obtain ⟨l, hl, hmem⟩ := hI.list
    have hnot : t ∉ l := fun h => ht ((hmem t).mp h).1
    refine ⟨t :: l, ?_, fun u => ?_⟩
    · change Chain w.next w.threadList (t :: l)
      rw [hnext, hlist]
      exact hl.push hnot
    · have := hmem u
      rw [List.mem_cons]
      by_cases hu : u = t
      · subst hu
        grind
      · have := hother u hu
        grind
  · intro hrunning
    exact absurd (hsys.symm.trans hrunning) (by simp)
  · intro u
    have := hI.thread u
    constructor <;> grind [ThreadInv, Record.blank]
  · intro u g
    have := hI.record u g
    constructor <;> grind [RecordInv]
  · intro u g hg
    have := hI.future u g
    grind
  · intro u hu
    have := hI.call u
    grind
  · intro u j hu hj
    have := hI.joined u j
    grind
  · intro j u g hj
    exact hI.allocate_joinInv ht hother (fun v hv => by rw [hfreed, if_neg hv]) (by grind) (by grind)
  · intro j j' u g hj hj'
    have := hI.unique j j' u g
    grind

theorem notCreated (hI : LifeInv s) (ht : ¬ s.Live t) (hw : NotCreated s.world w t) :
    LifeInv (LifeSys.allocate { s with world := w } t .gone false) := by
  obtain ⟨hother, hmagic, hfreed, hlist, hsys⟩ := hw
  obtain ⟨hgone, hcall⟩ := hI.gone_of_not_live ht
  have hblank := hI.future t (s.gen t + 1) (Nat.lt_succ_self _)
  constructor
  · obtain ⟨l, hl, hmem⟩ := hI.list
    refine ⟨l, ?_, fun u => ?_⟩
    · change Chain w.next w.threadList l
      rw [hlist]
      refine hl.congr fun u hu => ?_
      rw [World.next, hother u fun h => ht (h ▸ ((hmem u).mp hu).1)]
      rfl
    · have := hmem u
      by_cases hu : u = t
      · subst hu
        grind
      · have := hother u hu
        grind
  · intro hrunning
    exact absurd (hsys.symm.trans hrunning) (by simp)
  · intro u
    have := hI.thread u
    have := zero_ne_magic
    constructor <;> grind [ThreadInv, Record.blank]
  · intro u g
    have := hI.record u g
    constructor <;> grind [RecordInv]
  · intro u g hg
    have := hI.future u g
    grind [Record.blank]
  · intro u hu
    have := hI.call u
    grind
  · intro u j hu hj
    have := hI.joined u j
    grind
  · intro j u g hj
    exact hI.allocate_joinInv ht hother (fun v hv => by rw [hfreed, if_neg hv]) (by grind) (by grind)
  · intro j j' u g hj hj'
    have := hI.unique j j' u g
    grind

/-! ### The scheduler -/

/-- **The scheduler** removes a thread that has exited, and frees its node if nobody may ask for the
exit value any more. -/
theorem reap (hI : LifeInv s) {n : Addr} {w w' : World} (h : Cleaned w w' n) (hn : s.Live n)
    (hidle : (s.world.thread n).state = .idle)
    (hsame : ∀ u, ∃ x, w.thread u = { s.world.thread u with next := x })
    (hfreed : w.freed = s.world.freed) (hsys : w.systemRunning = s.world.systemRunning)
    (hlist : ∃ l, Chain w.next w.threadList l ∧
      ∀ u, u ∈ l ↔ u ≠ n ∧ s.Live u ∧ (s.world.thread u).state ≠ .unalloced) :
    LifeInv { s with world := w' } := by
  have hnext : w'.next = w.next := by
    funext u
    rw [World.next, World.next, h.thread]
    split <;> rfl
  have hphase : s.phase n = .gone := by
    by_contra hne
    exact ((hI.thread n).phase.mp hne).2.2 hidle
  have hnobody := hI.joined_eq_none hn (by rw [hphase]; rfl)
  -- what the two writes together do
  have hthread : ∀ u, ∃ x, w'.thread u = if u = n then
      { s.world.thread u with
        next := x
        state := .unalloced
        magic := if (s.world.thread u).detached = true then 0 else (s.world.thread u).magic }
      else { s.world.thread u with next := x } := by
    intro u
    obtain ⟨x, hx⟩ := hsame u
    refine ⟨x, ?_⟩
    rw [h.thread, hx]
  have hfreed' : ∀ u, w'.freed u = if u = n ∧ (s.world.thread u).detached = true then
      s.world.freed u + 1 else s.world.freed u := by
    intro u
    obtain ⟨x, hx⟩ := hsame u
    rw [h.freed, hx, hfreed]
  have hsys' : w'.systemRunning = s.world.systemRunning := h.systemRunning.trans hsys
  have hlist' := h.threadList
  clear h hsame hfreed hsys
  constructor
  · obtain ⟨l, hl, hmem⟩ := hlist
    refine ⟨l, ?_, fun u => ?_⟩
    · change Chain w'.next w'.threadList l
      rw [hnext, hlist']
      exact hl
    · have := hmem u
      have := hthread u
      grind
  · intro hrunning u v hu hv
    refine hI.lone (hsys' ▸ hrunning) u v ?_ ?_ <;> grind
  · intro u
    have := hI.thread u
    have := hthread u
    have := zero_ne_magic
    constructor <;> grind [ThreadInv]
  · exact hI.record
  · exact hI.future
  · exact hI.call
  · intro u j hu hj
    have := hI.joined u j
    have := hthread u
    have := hthread j
    grind
  · intro j u g hj
    have hold := hI.joining j u g hj
    have hu := hthread u
    have hjj := hthread j
    refine ⟨hold.other, hold.known, hold.first, hold.waits.imp ?_ ?_⟩
    · rintro ⟨hwait, hnow, hself⟩
      have hun : u ≠ n := by
        rintro rfl
        rw [hnobody] at hself
        cases hself
      have hlive := hnow.2
      refine ⟨by grind, ⟨hnow.1, by grind⟩, by grind⟩
    · rintro ⟨hwoken, hexit, hdet⟩
      refine ⟨by grind, by grind, fun hnow => ?_⟩
      have hlive : s.Live u := by
        have := hnow.2
        grind
      have := hdet ⟨hnow.1, hlive⟩
      grind
  · exact hI.unique

end LifeInv

end UnixLib
