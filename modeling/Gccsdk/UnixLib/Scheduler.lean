import Gccsdk.UnixLib.LifeInv
import Mathlib.Algebra.Order.Group.Unbundled.Int
import Mathlib.Order.Monotone.Defs
import Mathlib.Data.Int.ConditionallyCompleteOrder
import Mathlib.Order.ConditionallyCompleteLattice.Basic

/-!
# Which thread is next

A pass of the scheduler over the list of threads: `__pthread_context_switch` goes from the running
thread on, begins again at the first one at the end of the list, and takes idle threads off the list
on its way. It stops at the first thread that may run, or that has waited for long enough
(`contextSwitch_next`).

The threads that it has still to look at are best seen as a ring: those behind the one it looks at,
then those from the first one on, and this one last. A turn takes the first of the ring to its end,
and an idle thread behind it is dropped, whether it is the next one of the list or, at the end of the
list, the first one (`Walk.freeIdle`).

When all threads are idle, the scheduler goes on from a null pointer (`loneIdle_nullPointer`).
-/

namespace UnixLib

open LinkedQueue

/-! ### What the scheduler is to do -/

/-- **The thread is on the waiting list of its condition variable**, which is not longer than `bound`. -/
def Waits (bound : ℕ) (w : World) (t : Addr) : Prop :=
  ∃ c q, (w.thread t).cond = some c ∧ Chain w.nextwait (w.cond c).waiting q ∧ t ∈ q ∧ q.length ≤ bound

def Timed (w : World) (t : Addr) : Prop := (w.thread t).state = .condTimedWait

instance (w : World) (t : Addr) : Decidable (Timed w t) := inferInstanceAs (Decidable (_ = _))

def Runnable (w : World) (t : Addr) : Prop := (w.thread t).state.runnable = true

def Resting (w : World) (now : ℤ) (t : Addr) : Prop :=
  ¬Runnable w t ∧ (Timed w t → now ≤ (w.thread t).condtimeout)

/-- The readings of the clock, in a switch of at most `fuel` passes. -/
def readings (time : ℕ → ℤ) (fuel left : ℕ) : ℤ := time (fuel - 1 - left)

/-- **The threads that a switch may be asked to choose from.** -/
structure Switchable (bound : ℕ) (w : World) (before after : List Addr) : Prop where
  chain : Chain w.next w.threadList (before ++ w.runningThread :: after)
  alive : ∃ t ∈ before ++ w.runningThread :: after, (w.thread t).state ≠ .idle
  waits : ∀ t ∈ before ++ w.runningThread :: after, Timed w t → Waits bound w t

/-- **What a switch does**, from `w` to `w'`, with the threads `order` behind the running one and the
readings `time` of the clock. -/
structure Switched (time : ℕ → ℤ) (w w' : World) (list order : List Addr) : Prop where
  runnable : Runnable w' w'.runningThread
  first : ∃ passed rest, order = passed ++ w'.runningThread :: rest ∧
    (∀ t ∈ passed, Resting w (time 0) t) ∧
    (Runnable w w'.runningThread ∨
      Timed w w'.runningThread ∧ ∃ n, (w.thread w'.runningThread).condtimeout < time n)
  /-- The list is in order, with every thread that is not idle, and with none that is freed. -/
  list : ∃ list', Chain w'.next w'.threadList list' ∧ list'.Sublist list ∧
    w'.runningThread ∈ list' ∧ (∀ t ∈ list, (w.thread t).state ≠ .idle → t ∈ list') ∧
    ∀ t ∈ list', w'.freed t = w.freed t ∧
      (t ≠ w'.runningThread → (w'.thread t).state = (w.thread t).state)

/-! ### The list, on the way -/

/-- **The list on the way**: a part of it, without some of the idle threads; the rest is as it was. -/
structure Walk (w₀ w : World) (list₀ list : List Addr) : Prop where
  chain : Chain w.next w.threadList list
  sublist : list.Sublist list₀
  removed : ∀ t ∈ list₀, t ∉ list → (w₀.thread t).state = .idle
  state : ∀ t ∈ list, (w.thread t).state = (w₀.thread t).state
  freed : ∀ t ∈ list, w.freed t = w₀.freed t
  wait : ∀ t, (w.thread t).cond = (w₀.thread t).cond ∧ (w.thread t).condtimeout = (w₀.thread t).condtimeout
  nextwait : w.nextwait = w₀.nextwait
  cond : w.cond = w₀.cond

variable {w₀ w w' : World} {list₀ list pre post : List Addr} {cur t : Addr} {bound iter : ℕ}

theorem Walk.refl (h : Chain w.next w.threadList list) : Walk w w list list :=
  ⟨h, .refl list, fun _ hmem hno => absurd hmem hno, fun _ _ => rfl, fun _ _ => rfl, fun _ => ⟨rfl, rfl⟩, rfl, rfl⟩

theorem Walk.on (h : Walk w₀ w list₀ list) (t : Addr) : Walk w₀ (w.on t) list₀ list :=
  ⟨h.chain, h.sublist, h.removed, h.state, h.freed, h.wait, h.nextwait, h.cond⟩

theorem Walk.mem (h : Walk w₀ w list₀ list) (hmem : t ∈ list₀) (hbusy : (w₀.thread t).state ≠ .idle) : t ∈ list := by
  by_contra hno
  exact hbusy (h.removed t hmem hno)

theorem Walk.nodup (h : Walk w₀ w list₀ list) : list.Nodup := h.chain.nodup

theorem Walk.timed_iff (h : Walk w₀ w list₀ list) (hmem : t ∈ list) : Timed w t ↔ Timed w₀ t := by
  rw [Timed, Timed, h.state t hmem]

theorem Walk.runnable_iff (h : Walk w₀ w list₀ list) (hmem : t ∈ list) : Runnable w t ↔ Runnable w₀ t := by
  rw [Runnable, Runnable, h.state t hmem]

theorem Walk.waits (h : Walk w₀ w list₀ list) (hwaits : Waits bound w₀ t) : Waits bound w t := by
  obtain ⟨c, q, hcond, hchain, hmem, hbound⟩ := hwaits
  refine ⟨c, q, (h.wait t).1.trans hcond, ?_, hmem, hbound⟩
  rw [h.nextwait, h.cond]
  exact hchain

variable {n : Addr}

theorem cleanupIdle_walk (hidle : (w.thread n).state = .idle) :
    ∃ w', cleanupIdle w (some n) = .ok w' ∧ Cleaned w w' n ∧ w'.next = w.next ∧ w'.nextwait = w.nextwait ∧
      w'.cond = w.cond := by
  obtain ⟨w', hrun⟩ : ∃ w', cleanupIdle w (some n) = .ok w' := by
    rw [cleanupIdle]
    rw [if_neg (not_not.mpr hidle)]
    split
    · exact ⟨_, rfl⟩
    · exact ⟨_, rfl⟩
  have hclean := cleanupIdle_cleaned hrun
  refine ⟨w', hrun, hclean, ?_, ?_, ?_⟩
  · funext u
    rw [World.next, World.next, hclean.thread]
    split
    · rfl
    · rfl
  · funext u
    rw [World.nextwait, World.nextwait, hclean.thread]
    split
    · rfl
    · rfl
  · rw [cleanupIdle, if_neg (not_not.mpr hidle)] at hrun
    split at hrun
    · cases hrun
      rfl
    · cases hrun
      rfl

theorem Walk.cleaned {list' : List Addr} (h : Walk w₀ w list₀ list) (hidle : (w.thread n).state = .idle)
    (hn : n ∈ list) (hsub : list'.Sublist list) (hrest : ∀ t ∈ list, t ∉ list' → t = n) (hno : n ∉ list')
    {v : World} (hthread : ∀ u, ∃ next, v.thread u = { w.thread u with next })
    (hv : Chain v.next v.threadList list') (hfreed : v.freed = w.freed) (hcond : v.cond = w.cond) :
    ∃ w', cleanupIdle v (some n) = .ok w' ∧ Walk w₀ w' list₀ list' ∧ w'.runningThread = v.runningThread := by
  have hstate : (v.thread n).state = .idle := by
    obtain ⟨next, hnext⟩ := hthread n
    rw [hnext]
    exact hidle
  obtain ⟨w', hrun, hclean, hnext, hnextwait, hconds⟩ := cleanupIdle_walk hstate
  have hother : ∀ u ∈ list', u ≠ n := by
    rintro u hu rfl
    exact hno hu
  refine ⟨w', hrun, ⟨?_, hsub.trans h.sublist, ?_, ?_, ?_, ?_, ?_, ?_⟩, hclean.runningThread⟩
  · rw [hnext, hclean.threadList]
    exact hv
  · intro u hu hgone
    by_cases hmem : u ∈ list
    · rw [hrest u hmem hgone, ← h.state n hn]
      exact hidle
    · exact h.removed u hu hmem
  · intro u hu
    obtain ⟨next, hsame⟩ := hthread u
    rw [hclean.thread, if_neg (hother u hu), hsame]
    exact h.state u (hsub.subset hu)
  · intro u hu
    rw [hclean.freed, if_neg fun hboth => hother u hu hboth.1, hfreed]
    exact h.freed u (hsub.subset hu)
  · intro u
    obtain ⟨next, hsame⟩ := hthread u
    have hu := h.wait u
    rw [hclean.thread, hsame]
    split
    · exact hu
    · exact hu
  · rw [hnextwait, ← h.nextwait]
    funext u
    obtain ⟨next, hsame⟩ := hthread u
    rw [World.nextwait, hsame]
    rfl
  · rw [hconds, hcond]
    exact h.cond

/-- **An idle thread is dropped**: it is the next of the ring, and the running thread is not. -/
theorem Walk.freeIdle (h : Walk w₀ w list₀ (pre ++ w.runningThread :: post))
    (hlone : pre ++ post = [] → (w.thread w.runningThread).state ≠ .idle) :
    ∃ w' pre' post', freeIdle w = .ok w' ∧ Walk w₀ w' list₀ (pre' ++ w.runningThread :: post') ∧
      w'.runningThread = w.runningThread ∧ pre' ⊆ pre ∧ post'.length ≤ post.length ∧
      (post' ++ pre' = post ++ pre ∨
        ∃ n, (w₀.thread n).state = .idle ∧ post ++ pre = n :: (post' ++ pre')) := by
  have hchain := h.chain
  have hnodup := h.nodup
  rw [UnixLib.freeIdle]
  cases post with
  | cons n post =>
    have hlink : (w.thread w.runningThread).next = some n := hchain.drop.1
    rw [hlink]
    dsimp only
    by_cases hidle : (w.thread n).state = .idle
    · -- the thread behind it is taken off the list
      rw [if_pos hidle]
      have hn : n ∈ pre ++ w.runningThread :: n :: post := List.mem_append_right _ (by simp)
      have hsub : (pre ++ w.runningThread :: post).Sublist (pre ++ w.runningThread :: n :: post) :=
        ((List.sublist_cons_self n post).cons_cons w.runningThread).append_left pre
      have hno : n ∉ pre ++ w.runningThread :: post := by
        have hperm : (n :: (pre ++ w.runningThread :: post)).Nodup := by
          have hmoved : (pre ++ w.runningThread :: n :: post).Perm (n :: (pre ++ w.runningThread :: post)) := by
            have hfront := @List.perm_middle _ n (pre ++ [w.runningThread]) post
            rw [List.append_assoc, List.append_assoc] at hfront
            exact hfront
          exact hmoved.nodup_iff.mp hnodup
        exact (List.nodup_cons.mp hperm).1
      have hrest : ∀ t ∈ pre ++ w.runningThread :: n :: post, t ∉ pre ++ w.runningThread :: post → t = n := by
        intro t ht hgone
        simp only [List.mem_append, List.mem_cons] at ht hgone
        tauto
      have hthread : ∀ u, ∃ next, (w.modify w.runningThread fun v => { v with next := (w.thread n).next }).thread u =
          { w.thread u with next } := by
        intro u
        by_cases hu : u = w.runningThread
        · rw [hu]
          exact ⟨_, Function.update_self ..⟩
        · exact ⟨(w.thread u).next, Function.update_of_ne hu _ _⟩
      have hlinks : Chain (w.modify w.runningThread fun v => { v with next := (w.thread n).next }).next w.threadList
          (pre ++ w.runningThread :: post) := by
        rw [World.next_modify]
        exact hchain.unlink
      obtain ⟨w', hrun, hwalk, hrunning⟩ := h.cleaned hidle hn hsub hrest hno hthread hlinks rfl rfl
      refine ⟨w', pre, post, hrun, hwalk, hrunning, List.Subset.refl pre, Nat.le_succ _, .inr ⟨n, ?_, rfl⟩⟩
      rw [← h.state n hn]
      exact hidle
    · rw [if_neg hidle]
      exact ⟨w, pre, n :: post, rfl, h, rfl, List.Subset.refl pre, Nat.le_refl _, .inl rfl⟩
  | nil =>
    have hlink : (w.thread w.runningThread).next = none := hchain.drop
    rw [hlink]
    dsimp only
    cases pre with
    | nil =>
      have hhead : w.threadList = some w.runningThread := hchain.1
      rw [hhead]
      dsimp only
      rw [if_neg (hlone rfl)]
      exact ⟨w, [], [], rfl, h, rfl, List.Subset.refl [], Nat.le_refl _, .inl rfl⟩
    | cons n pre =>
      have hhead : w.threadList = some n := hchain.1
      rw [hhead]
      dsimp only
      by_cases hidle : (w.thread n).state = .idle
      · -- the first thread of the list is taken off
        rw [if_pos hidle]
        have hn : n ∈ n :: pre ++ [w.runningThread] := List.mem_cons_self
        obtain ⟨hno, -⟩ := List.nodup_cons.mp hnodup
        have hrest : ∀ t ∈ n :: pre ++ [w.runningThread], t ∉ pre ++ [w.runningThread] → t = n := by
          intro t ht hgone
          exact (List.mem_cons.mp ht).resolve_right hgone
        obtain ⟨w', hrun, hwalk, hrunning⟩ := h.cleaned hidle hn (List.sublist_cons_self n (pre ++ [w.runningThread])) hrest hno
          (v := { w with threadList := (w.thread n).next }) (fun u => ⟨(w.thread u).next, rfl⟩) hchain.2 rfl rfl
        refine ⟨w', pre, [], hrun, hwalk, hrunning, List.subset_cons_self n pre, Nat.le_refl _, .inr ⟨n, ?_, rfl⟩⟩
        rw [← h.state n hn]
        exact hidle
      · rw [if_neg hidle]
        exact ⟨w, n :: pre, [], rfl, h, rfl, List.Subset.refl _, Nat.le_refl _, .inl rfl⟩

/-- **A wait whose time is over**: the thread is taken off the waiting list. -/
theorem unlinkCond_waits (hwaits : Waits bound w w.runningThread) :
    ∃ w', unlinkCond bound w = some (.ok w') ∧ w'.next = w.next ∧ w'.threadList = w.threadList ∧
      w'.runningThread = w.runningThread ∧ w'.freed = w.freed ∧
      ∀ t, (w'.thread t).state = (w.thread t).state := by
  obtain ⟨c, q, hcond, hchain, hmem, hbound⟩ := hwaits
  obtain ⟨l₁, l₂, rfl⟩ := List.append_of_mem hmem
  rw [unlinkCond, hcond]
  dsimp only
  cases l₁ with
  | nil =>
    have hfirst : (w.cond c).waiting = some w.runningThread := hchain.1
    rw [hfirst]
    dsimp only
    rw [if_pos rfl]
    exact ⟨_, rfl, rfl, rfl, rfl, rfl, fun _ => rfl⟩
  | cons a l =>
    have hfirst : (w.cond c).waiting = some a := hchain.1
    have hne : a ≠ w.runningThread := by
      rintro rfl
      have hnodup := hchain.nodup
      simp at hnodup
    rw [hfirst]
    dsimp only
    rw [if_neg hne]
    obtain ⟨l', b, hlast⟩ : ∃ l' b, a :: l = l' ++ [b] :=
      ⟨_, _, (List.dropLast_append_getLast (List.cons_ne_nil a l)).symm⟩
    have hsplit : Chain w.nextwait (some a) (l' ++ b :: w.runningThread :: l₂) := by
      rw [hfirst, hlast, List.append_assoc] at hchain
      exact hchain
    have hshort : l'.length < bound := by
      have hlength := congrArg List.length hlast
      rw [List.length_append, List.length_singleton] at hlength
      rw [List.length_append, hlength] at hbound
      omega
    have hlink : w.nextwait b = some w.runningThread := hsplit.drop.1
    rw [hsplit.seek_eq, if_pos hshort, Option.map_some, hlink]
    refine ⟨_, rfl, World.next_modify_of_eq w b rfl, rfl, rfl, rfl, fun t => ?_⟩
    by_cases ht : t = b
    · subst ht
      rw [World.modify_thread, Function.update_self]
    · rw [World.modify_thread, Function.update_of_ne ht]

/-! ### One pass -/

def deadlocked : Stop := .fatal "-- __pthread_context_switch: Deadlocked (no runnable threads to schedule)"

/-- The ring of the threads that are still to be looked at, behind `cur`. -/
def ring (pre : List Addr) (cur : Addr) (post : List Addr) : List Addr := post ++ (pre ++ [cur])

theorem mem_ring_iff : t ∈ ring pre cur post ↔ t ∈ pre ++ cur :: post := by
  rw [ring]
  simp only [List.mem_append, List.mem_cons, List.not_mem_nil, or_false]
  tauto

/-- **The thread has been chosen**: it may run, and the list is in order. -/
structure Chosen (w₀ w : World) (list₀ list : List Addr) : Prop where
  chain : Chain w.next w.threadList list
  sublist : list.Sublist list₀
  removed : ∀ t ∈ list₀, t ∉ list → (w₀.thread t).state = .idle
  freed : ∀ t ∈ list, w.freed t = w₀.freed t
  state : ∀ t ∈ list, t ≠ w.runningThread → (w.thread t).state = (w₀.thread t).state
  running : w.runningThread ∈ list
  runnable : Runnable w w.runningThread

theorem Walk.chosen (h : Walk w₀ w list₀ list) (hmem : w.runningThread ∈ list) (hrun : Runnable w w.runningThread) :
    Chosen w₀ w list₀ list :=
  ⟨h.chain, h.sublist, h.removed, h.freed, fun t ht _ => h.state t ht, hmem, hrun⟩

theorem Walk.switchTo (h : Walk w₀ w list₀ (pre ++ cur :: post)) :
    (post = [] ∧ iter > 1 ∧ switchTo w (w.next cur) iter = .error deadlocked) ∨
      ∃ n pre' post', switchTo w (w.next cur) iter = .ok (w.on n, if post = [] then iter + 1 else iter) ∧
        pre' ++ n :: post' = pre ++ cur :: post ∧ ring pre cur post = n :: (post' ++ pre') ∧
        (post ≠ [] → pre' = pre ++ [cur] ∧ post'.length < post.length) ∧
        (post = [] → pre' = [] ∧ iter ≤ 1) := by
  have hchain := h.chain
  cases post with
  | cons n post =>
    have hlink : w.next cur = some n := hchain.drop.1
    refine .inr ⟨n, pre ++ [cur], post, ?_, ?_, rfl, fun _ => ⟨rfl, Nat.lt_succ_self _⟩, nofun⟩
    · rw [hlink, UnixLib.switchTo, if_neg (List.cons_ne_nil n post)]
    · rw [List.append_assoc]
      rfl
  | nil =>
    have hlink : w.next cur = none := hchain.drop
    rw [hlink, UnixLib.switchTo]
    by_cases hmany : iter > 1
    · rw [if_pos hmany]
      exact .inl ⟨rfl, hmany, rfl⟩
    · rw [if_neg hmany]
      right
      cases pre with
      | nil =>
        have hhead : w.threadList = some cur := hchain.1
        rw [hhead]
        exact ⟨cur, [], [], rfl, rfl, rfl, fun hne => absurd rfl hne, fun _ => ⟨rfl, Nat.le_of_not_lt hmany⟩⟩
      | cons n pre =>
        have hhead : w.threadList = some n := hchain.1
        rw [hhead]
        refine ⟨n, [], pre ++ [cur], rfl, rfl, ?_, fun hne => absurd rfl hne,
          fun _ => ⟨rfl, Nat.le_of_not_lt hmany⟩⟩
        rw [ring, List.append_nil]
        rfl

theorem Walk.timeOut (h : Walk w₀ w list₀ list) (clock : ℤ) (hmem : w.runningThread ∈ list)
    (hwaits : Timed w₀ w.runningThread → Waits bound w₀ w.runningThread) :
    (Timed w₀ w.runningThread ∧ (w₀.thread w.runningThread).condtimeout < clock ∧
      ∃ w', timeOut bound clock w = some (.ok w') ∧ w'.runningThread = w.runningThread ∧ Chosen w₀ w' list₀ list) ∨
    (¬(Timed w₀ w.runningThread ∧ (w₀.thread w.runningThread).condtimeout < clock) ∧
      timeOut bound clock w = some (.ok w)) := by
  have htime := (h.wait w.runningThread).2
  have htimed := h.timed_iff hmem
  rw [UnixLib.timeOut]
  by_cases hover : Timed w₀ w.runningThread ∧ (w₀.thread w.runningThread).condtimeout < clock
  · obtain ⟨hstate, hpast⟩ := hover
    refine .inl ⟨hstate, hpast, ?_⟩
    rw [if_pos ⟨htimed.mpr hstate, by rw [htime]; exact hpast⟩]
    -- the thread is made to run, and is still on the waiting list
    have hready : Waits bound (w.modify w.runningThread fun v => { v with state := .running }) w.runningThread := by
      obtain ⟨c, q, hcond, hchain, hq, hbound⟩ := h.waits (hwaits hstate)
      refine ⟨c, q, ?_, ?_, hq, hbound⟩
      · rw [World.modify_thread, Function.update_self]
        exact hcond
      · rw [World.nextwait_modify_of_eq _ _ rfl]
        exact hchain
    obtain ⟨w', hrun, hnext, hlist, hrunning, hfreed, hsame⟩ := unlinkCond_waits hready
    have hrunning' : w'.runningThread = w.runningThread := hrunning
    refine ⟨w', hrun, hrunning, ?_, h.sublist, h.removed, ?_, ?_, ?_, ?_⟩
    · rw [hnext, hlist, World.next_modify_of_eq _ _ rfl]
      exact h.chain
    · intro t ht
      rw [hfreed]
      exact h.freed t ht
    · intro t ht hne
      rw [hrunning'] at hne
      rw [hsame, World.modify_thread, Function.update_of_ne hne]
      exact h.state t ht
    · rw [hrunning']
      exact hmem
    · rw [Runnable, hrunning', hsame, World.modify_thread, Function.update_self]
      rfl
  · refine .inr ⟨hover, ?_⟩
    rw [if_neg]
    rintro ⟨hstate, hpast⟩
    rw [htime] at hpast
    exact hover ⟨htimed.mp hstate, hpast⟩

/-- **What one pass does**, unless it reports an error: it takes the first of the ring to its end, and
drops an idle thread behind it. -/
structure Pass (w₀ w' : World) (list₀ : List Addr) (clock : ℤ) (pre : List Addr) (cur : Addr)
    (post pre' : List Addr) (n : Addr) (post' : List Addr) : Prop where
  running : w'.runningThread = n
  mem : n ∈ pre ++ cur :: post
  ring : ∃ rest, ring pre cur post = n :: rest ∧
    (post' ++ pre' = rest ∨ ∃ m, (w₀.thread m).state = .idle ∧ rest = m :: (post' ++ pre'))
  onward : post ≠ [] → pre' ⊆ pre ++ [cur] ∧ post'.length < post.length
  again : post = [] → pre' = []
  result : (Timed w₀ n ∧ (w₀.thread n).condtimeout < clock ∧ Chosen w₀ w' list₀ (pre' ++ n :: post')) ∨
    (¬(Timed w₀ n ∧ (w₀.thread n).condtimeout < clock) ∧ Walk w₀ w' list₀ (pre' ++ n :: post'))

def nextIter (w₀ : World) (post : List Addr) (n : Addr) (iter : ℕ) : ℕ :=
  if Timed w₀ n then 0 else if post = [] then iter + 1 else iter

theorem Walk.pass (h : Walk w₀ w list₀ (pre ++ cur :: post)) (clock : ℤ)
    (halive : ∃ t ∈ list₀, (w₀.thread t).state ≠ .idle) (hwaits : ∀ t ∈ list₀, Timed w₀ t → Waits bound w₀ t) :
    (post = [] ∧ iter > 1 ∧ switchPass bound clock w (w.next cur) iter = some (.error deadlocked)) ∨
      ∃ w' pre' n post', switchPass bound clock w (w.next cur) iter = some (.ok (w', nextIter w₀ post n iter)) ∧
        Pass w₀ w' list₀ clock pre cur post pre' n post' ∧ (post = [] → iter ≤ 1) := by
  rcases h.switchTo with ⟨hend, hmany, hto⟩ | ⟨n, pre₁, post₁, hto, hlist, hring, honward, hagain⟩
  · refine .inl ⟨hend, hmany, ?_⟩
    rw [switchPass, hto]
  right
  have hn : n ∈ pre₁ ++ n :: post₁ := List.mem_append_right _ List.mem_cons_self
  have hwalk : Walk w₀ (w.on n) list₀ (pre₁ ++ (w.on n).runningThread :: post₁) := by
    rw [World.on_runningThread, hlist]
    exact h.on n
  have hlone : pre₁ ++ post₁ = [] → ((w.on n).thread (w.on n).runningThread).state ≠ .idle := by
    intro hnil
    obtain ⟨hpre, hpost⟩ := List.append_eq_nil_iff.mp hnil
    obtain ⟨t, ht, hbusy⟩ := halive
    have hmem := hwalk.mem ht hbusy
    rw [hpre, hpost] at hmem
    rw [hwalk.state _ (List.mem_append_right _ List.mem_cons_self), ← List.mem_singleton.mp hmem]
    exact hbusy
  obtain ⟨w₁, pre', post', hfree, hwalk', hrunning, hpre, hpost, hrest⟩ := hwalk.freeIdle hlone
  rw [World.on_runningThread] at hwalk' hrunning
  have hmem' : w₁.runningThread ∈ pre' ++ n :: post' := by
    rw [hrunning]
    exact List.mem_append_right _ List.mem_cons_self
  have hmem₀ : n ∈ list₀ := hwalk'.sublist.subset (List.mem_append_right _ List.mem_cons_self)
  have hreset : resetIter w₁ (if post = [] then iter + 1 else iter) = nextIter w₀ post n iter := by
    have htimed := hwalk'.timed_iff hmem'
    rw [hrunning] at htimed
    rw [resetIter, hrunning, nextIter]
    exact if_congr htimed rfl rfl
  have honward' : post ≠ [] → pre' ⊆ pre ++ [cur] ∧ post'.length < post.length := by
    intro hne
    obtain ⟨heq, hlt⟩ := honward hne
    exact ⟨heq ▸ hpre, Nat.lt_of_le_of_lt hpost hlt⟩
  have hagain' : post = [] → pre' = [] := by
    intro hnil
    rw [(hagain hnil).1] at hpre
    exact List.subset_nil.mp hpre
  rcases hwalk'.timeOut clock hmem' (by rw [hrunning]; exact hwaits n hmem₀) with
    ⟨htimed, hover, w', htime, hrunning', hchosen⟩ | ⟨hnot, htime⟩
  · refine ⟨w', pre', n, post', ?_,
      ⟨hrunning'.trans hrunning, hlist ▸ hn, ⟨post₁ ++ pre₁, hring, hrest⟩, honward', hagain', .inl ?_⟩,
      fun hnil => (hagain hnil).2⟩
    · rw [switchPass, hto]
      dsimp only
      rw [hfree]
      dsimp only
      rw [htime, Option.map_some, hreset]
    · rw [hrunning] at htimed hover
      exact ⟨htimed, hover, hchosen⟩
  · refine ⟨w₁, pre', n, post', ?_,
      ⟨hrunning, hlist ▸ hn, ⟨post₁ ++ pre₁, hring, hrest⟩, honward', hagain', .inr ?_⟩,
      fun hnil => (hagain hnil).2⟩
    · rw [switchPass, hto]
      dsimp only
      rw [hfree]
      dsimp only
      rw [htime, Option.map_some, hreset]
    · rw [hrunning] at hnot
      exact ⟨hnot, hwalk'⟩

/-! ### The first lap -/

/-- **The order in which threads are looked at**: some have been passed, and nothing was to be done for
them; the ring begins with the others. -/
structure Lap (w₀ : World) (first : ℤ) (order ring : List Addr) : Prop where
  split : ∃ passed todo tail, order = passed ++ todo ∧ ring = todo ++ tail ∧ ∀ t ∈ passed, Resting w₀ first t

theorem resting_of_idle (first : ℤ) (h : (w.thread t).state = .idle) : Resting w first t := by
  refine ⟨?_, ?_⟩
  · rw [Runnable, h]
    exact Bool.false_ne_true
  · rw [Timed, h]
    exact nofun

theorem Lap.next {first : ℤ} {order rest : List Addr} (h : Lap w₀ first order (n :: rest)) (hn : n ∈ order) :
    ∃ passed todo, order = passed ++ n :: todo ∧ ∀ t ∈ passed, Resting w₀ first t := by
  obtain ⟨passed, todo, tail, rfl, hring, hpassed⟩ := h.split
  cases todo with
  | nil =>
    rw [List.append_nil] at hn ⊢
    obtain ⟨l₁, l₂, rfl⟩ := List.append_of_mem hn
    exact ⟨l₁, l₂, rfl, fun t ht => hpassed t (List.mem_append_left _ ht)⟩
  | cons m todo =>
    obtain rfl := (List.cons.inj hring).1
    exact ⟨passed, todo, rfl, hpassed⟩

theorem Lap.turn {first : ℤ} {order rest rest' : List Addr} (h : Lap w₀ first order (n :: rest))
    (hn : Resting w₀ first n) (hrest : rest' = rest ∨ ∃ m, (w₀.thread m).state = .idle ∧ rest = m :: rest') :
    Lap w₀ first order (rest' ++ [n]) := by
  obtain ⟨passed, todo, tail, rfl, hring, hpassed⟩ := h.split
  have hmore : ∀ t ∈ passed ++ [n], Resting w₀ first t := by
    intro t ht
    rcases List.mem_append.mp ht with ht | ht
    · exact hpassed t ht
    · rw [List.mem_singleton.mp ht]
      exact hn
  cases todo with
  | nil => exact ⟨passed, [], rest' ++ [n], rfl, rfl, hpassed⟩
  | cons m todo =>
    obtain ⟨rfl, rfl⟩ := List.cons.inj hring
    rcases hrest with rfl | ⟨m, hidle, hdrop⟩
    · refine ⟨passed ++ [n], todo, tail ++ [n], ?_, List.append_assoc todo tail [n], hmore⟩
      rw [List.append_assoc]
      rfl
    · cases todo with
      | nil => exact ⟨passed ++ [n], [], rest' ++ [n], (List.append_nil _).symm, rfl, hmore⟩
      | cons d todo =>
        obtain ⟨rfl, rfl⟩ := List.cons.inj hdrop
        refine ⟨passed ++ [n] ++ [d], todo, tail ++ [n], ?_, List.append_assoc todo tail [n], ?_⟩
        · rw [List.append_assoc, List.append_assoc]
          rfl
        · intro t ht
          rcases List.mem_append.mp ht with ht | ht
          · exact hmore t ht
          · rw [List.mem_singleton.mp ht]
            exact resting_of_idle first hidle

/-! ### Beginning again -/

def Dead (w : World) (t : Addr) : Prop := ¬Runnable w t ∧ ¬Timed w t

/-- **What the number of times tells**: after the first time, nothing can be done for the threads up to
this one; after the second time, for any. -/
def Begun (w₀ : World) (iter : ℕ) (pre : List Addr) (cur : Addr) (post : List Addr) : Prop :=
  iter = 0 ∨ (iter = 1 ∧ ∀ t ∈ pre ++ [cur], Dead w₀ t) ∨ ∀ t ∈ pre ++ cur :: post, Dead w₀ t

variable {pre' post' : List Addr}

theorem Pass.subset {clock : ℤ}
    (h : Pass w₀ w' list₀ clock pre cur post pre' n post') (ht : t ∈ pre' ++ n :: post') : t ∈ pre ++ cur :: post := by
  obtain ⟨rest, hring, hrest⟩ := h.ring
  have hmem : t = n ∨ t ∈ post' ++ pre' := by
    simp only [List.mem_append, List.mem_cons] at ht ⊢
    tauto
  rw [← mem_ring_iff, hring]
  rcases hmem with rfl | hmem
  · exact List.mem_cons_self
  · apply List.mem_cons_of_mem
    rcases hrest with rfl | ⟨m, -, rfl⟩
    · exact hmem
    · exact List.mem_cons_of_mem m hmem

theorem Pass.begun {clock : ℤ}
    (h : Pass w₀ w' list₀ clock pre cur post pre' n post') (hbegun : Begun w₀ iter pre cur post)
    (hn : ¬Runnable w₀ n) : Begun w₀ (nextIter w₀ post n iter) pre' n post' := by
  rw [nextIter]
  by_cases htimed : Timed w₀ n
  · rw [if_pos htimed]
    exact .inl rfl
  have hdead : Dead w₀ n := ⟨hn, htimed⟩
  rw [if_neg htimed]
  rcases hbegun with hzero | ⟨hone, hseen⟩ | hall
  · by_cases hend : post = []
    · -- this is the first one of the list
      rw [if_pos hend, hzero, h.again hend]
      refine .inr (.inl ⟨rfl, fun t ht => ?_⟩)
      rw [List.mem_singleton.mp ht]
      exact hdead
    · rw [if_neg hend]
      exact .inl hzero
  · by_cases hend : post = []
    · -- the whole list has been seen
      refine .inr (.inr fun t ht => ?_)
      have hmem := h.subset ht
      rw [hend] at hmem
      exact hseen t hmem
    · rw [if_neg hend]
      refine .inr (.inl ⟨hone, fun t ht => ?_⟩)
      rcases List.mem_append.mp ht with ht | ht
      · exact hseen t ((h.onward hend).1 ht)
      · rw [List.mem_singleton.mp ht]
        exact hdead
  · exact .inr (.inr fun t ht => hall t (h.subset ht))

/-! ### The whole switch -/

variable {time : ℕ → ℤ} {order : List Addr} {total : ℕ}

theorem Pass.ring_eq {clock : ℤ}
    (_ : Pass w₀ w' list₀ clock pre cur post pre' n post') : UnixLib.ring pre' n post' = post' ++ pre' ++ [n] :=
  (List.append_assoc _ _ _).symm

def SwitchOutcome (time : ℕ → ℤ) (w₀ : World) (list₀ order : List Addr) : Except Stop World → Prop
  | .ok w' => Switched time w₀ w' list₀ order
  | .error e => e = deadlocked ∧ ∀ t ∈ list₀, Dead w₀ t

theorem Pass.switched {clock : ℤ} {pre' post' list' : List Addr}
    (h : Pass w₀ w' list₀ clock pre cur post pre' n post') (hlap : Lap w₀ (time 0) order (UnixLib.ring pre cur post))
    (horder : ∀ t, t ∈ order ↔ t ∈ list₀) (hchosen : Chosen w₀ w' list₀ list')
    (hready : Runnable w₀ n ∨ Timed w₀ n ∧ ∃ k, (w₀.thread n).condtimeout < time k) : Switched time w₀ w' list₀ order := by
  obtain ⟨rest, hring, -⟩ := h.ring
  rw [hring] at hlap
  have hn : n ∈ order := by
    rw [horder, ← h.running]
    exact hchosen.sublist.subset hchosen.running
  obtain ⟨passed, todo, hsplit, hpassed⟩ := hlap.next hn
  refine ⟨hchosen.runnable, ⟨passed, todo, ?_, hpassed, ?_⟩,
    ⟨list', hchosen.chain, hchosen.sublist, hchosen.running, ?_, ?_⟩⟩
  · rw [h.running]
    exact hsplit
  · rw [h.running]
    exact hready
  · intro t ht hbusy
    by_contra hno
    exact hbusy (hchosen.removed t ht hno)
  · intro t ht
    exact ⟨hchosen.freed t ht, hchosen.state t ht⟩

theorem Walk.loop {fuel j : ℕ} {r : Except Stop World} (h : Walk w₀ w list₀ (pre ++ cur :: post))
    (halive : ∃ t ∈ list₀, (w₀.thread t).state ≠ .idle) (hwaits : ∀ t ∈ list₀, Timed w₀ t → Waits bound w₀ t)
    (hmono : Monotone time)
    (horder : ∀ t, t ∈ order ↔ t ∈ list₀) (hlap : Lap w₀ (time 0) order (ring pre cur post))
    (hbegun : Begun w₀ iter pre cur post) (htotal : fuel + j = total)
    (hrun : switchLoop bound (readings time total) fuel w (w.next cur) iter = some r) :
    SwitchOutcome time w₀ list₀ order r := by
  induction fuel generalizing w pre cur post iter j with
  | zero => cases hrun
  | succ fuel ih =>
    have hreading : readings time total fuel = time j := by
      rw [readings]
      congr 1
      omega
    rw [switchLoop, hreading] at hrun
    rcases h.pass (time j) halive hwaits with ⟨hend, hmany, hpass⟩ | ⟨w', pre', n, post', hpass, hdone, -⟩
    · -- the list has been gone through twice
      rw [hpass] at hrun
      obtain rfl := Option.some.inj hrun
      refine ⟨rfl, fun t ht => ?_⟩
      by_cases hmem : t ∈ pre ++ cur :: post
      · rcases hbegun with hzero | ⟨hone, -⟩ | hall
        · omega
        · omega
        · exact hall t hmem
      · have hidle := h.removed t ht hmem
        obtain ⟨hnot, -⟩ := resting_of_idle 0 hidle
        refine ⟨hnot, ?_⟩
        rw [Timed, hidle]
        exact nofun
    rw [hpass] at hrun
    change (if (w'.thread w'.runningThread).state.runnable = true then some (.ok w') else
      switchLoop bound (readings time total) fuel w' (w'.next w'.runningThread) (nextIter w₀ post n iter)) = _ at hrun
    rcases hdone.result with ⟨htimed, hover, hchosen⟩ | ⟨hnot, hwalk⟩
    · have hyes : (w'.thread w'.runningThread).state.runnable = true := hchosen.runnable
      rw [if_pos hyes] at hrun
      obtain rfl := Option.some.inj hrun
      exact hdone.switched hlap horder hchosen (.inr ⟨htimed, j, hover⟩)
    have hn : w'.runningThread ∈ pre' ++ n :: post' := by
      rw [hdone.running]
      exact List.mem_append_right _ List.mem_cons_self
    have hsame := hwalk.runnable_iff hn
    by_cases hready : (w'.thread w'.runningThread).state.runnable = true
    · rw [if_pos hready] at hrun
      obtain rfl := Option.some.inj hrun
      refine hdone.switched hlap horder (hwalk.chosen hn hready) (.inl ?_)
      rw [← hdone.running]
      exact hsame.mp hready
    · rw [if_neg hready] at hrun
      have hrest : ¬Runnable w₀ n := by
        rw [← hdone.running]
        exact fun h => hready (hsame.mpr h)
      have hresting : Resting w₀ (time 0) n := by
        refine ⟨hrest, fun htimed => ?_⟩
        have hearly : time j ≤ (w₀.thread n).condtimeout := Int.not_lt.mp fun hover => hnot ⟨htimed, hover⟩
        exact le_trans (hmono (Nat.zero_le j)) hearly
      obtain ⟨rest, hring, hdrop⟩ := hdone.ring
      rw [hring] at hlap
      have hlap' := hlap.turn hresting hdrop
      rw [← hdone.ring_eq] at hlap'
      rw [hdone.running] at hrun
      exact ih hwalk hlap' (hdone.begun hbegun hrest) (j := j + 1) (by omega) hrun

/-! ### The switch comes to its end -/

def Ends (bound : ℕ) (time : ℕ → ℤ) (j : ℕ) (w : World) (cur : Addr) (iter : ℕ) : Prop :=
  ∃ fuel, (switchLoop bound (readings time (j + fuel)) fuel w (w.next cur) iter).isSome = true

theorem Walk.ends_of_pass {j : ℕ} (h : Walk w₀ w list₀ (pre ++ cur :: post))
    (halive : ∃ t ∈ list₀, (w₀.thread t).state ≠ .idle) (hwaits : ∀ t ∈ list₀, Timed w₀ t → Waits bound w₀ t)
    (hnext : ∀ w' pre' n post', Pass w₀ w' list₀ (time j) pre cur post pre' n post' → (post = [] → iter ≤ 1) →
      Walk w₀ w' list₀ (pre' ++ n :: post') → ¬Runnable w₀ n →
      ¬(Timed w₀ n ∧ (w₀.thread n).condtimeout < time j) → Ends bound time (j + 1) w' n (nextIter w₀ post n iter)) :
    Ends bound time j w cur iter := by
  have hreading : ∀ fuel, readings time (j + (fuel + 1)) fuel = time j := by
    intro fuel
    rw [readings]
    congr 1
    omega
  rcases h.pass (time j) halive hwaits with ⟨-, -, hpass⟩ | ⟨w', pre', n, post', hpass, hdone, hiter⟩
  · refine ⟨1, ?_⟩
    rw [switchLoop, hreading 0, hpass]
    rfl
  by_cases hready : (w'.thread w'.runningThread).state.runnable = true
  · refine ⟨1, ?_⟩
    rw [switchLoop, hreading 0, hpass]
    change (if (w'.thread w'.runningThread).state.runnable = true then some (Except.ok w') else _).isSome = true
    rw [if_pos hready]
    rfl
  · obtain ⟨hnot, hwalk⟩ := hdone.result.resolve_left fun h => hready h.2.2.runnable
    have hn : w'.runningThread ∈ pre' ++ n :: post' := by
      rw [hdone.running]
      exact List.mem_append_right _ List.mem_cons_self
    have hrest : ¬Runnable w₀ n := by
      intro hrun
      rw [← hdone.running] at hrun
      exact hready ((hwalk.runnable_iff hn).mpr hrun)
    obtain ⟨fuel, hends⟩ := hnext w' pre' n post' hdone hiter hwalk hrest hnot
    refine ⟨fuel + 1, ?_⟩
    have htotal : j + 1 + fuel = j + (fuel + 1) := by omega
    rw [htotal] at hends
    rw [switchLoop, hreading fuel, hpass]
    change (if (w'.thread w'.runningThread).state.runnable = true then some (.ok w') else
      switchLoop bound (readings time (j + (fuel + 1))) fuel w' (w'.next w'.runningThread)
        (nextIter w₀ post n iter)).isSome = true
    rw [if_neg hready, hdone.running]
    exact hends

/-- **A thread that may run** is come to: each pass brings it nearer to the front of the ring. -/
theorem Walk.ends_ready {j : ℕ} {front back : List Addr} (h : Walk w₀ w list₀ (pre ++ cur :: post))
    (halive : ∃ t ∈ list₀, (w₀.thread t).state ≠ .idle) (hwaits : ∀ t ∈ list₀, Timed w₀ t → Waits bound w₀ t)
    (hbusy : (w₀.thread t).state ≠ .idle)
    (hready : Runnable w₀ t ∨ Timed w₀ t ∧ ∀ k ≥ j, (w₀.thread t).condtimeout < time k)
    (hring : ring pre cur post = front ++ t :: back) : Ends bound time j w cur iter := by
  induction hlength : front.length using Nat.strong_induction_on
    generalizing w pre cur post iter j front back with
  | _ length ih =>
    apply h.ends_of_pass halive hwaits
    intro w' pre' n post' hdone _ hwalk hrest hnot
    obtain ⟨rest, hfirst, hdrop⟩ := hdone.ring
    have hlater : Runnable w₀ t ∨ Timed w₀ t ∧ ∀ k ≥ j + 1, (w₀.thread t).condtimeout < time k :=
      hready.imp_right fun ⟨htimed, hover⟩ => ⟨htimed, fun k hk => hover k (Nat.le_of_succ_le hk)⟩
    rw [hring] at hfirst
    cases front with
    | nil =>
      -- it is the thread that has been looked at
      obtain ⟨rfl, -⟩ := List.cons.inj hfirst
      rcases hready with hrun | ⟨htimed, hover⟩
      · exact absurd hrun hrest
      · exact absurd ⟨htimed, hover j (Nat.le_refl j)⟩ hnot
    | cons m front =>
      obtain ⟨rfl, rfl⟩ := List.cons.inj hfirst
      rw [List.length_cons] at hlength
      rcases hdrop with hsame | ⟨d, hidle, hdrop⟩
      · have hring' : ring pre' m post' = front ++ t :: (back ++ [m]) := by
          rw [hdone.ring_eq, hsame]
          exact List.append_assoc front (t :: back) [m]
        exact ih front.length (by omega) hwalk hlater hring' rfl
      · cases front with
        | nil =>
          obtain ⟨rfl, -⟩ := List.cons.inj hdrop
          exact absurd hidle hbusy
        | cons e front =>
          obtain ⟨rfl, hback⟩ := List.cons.inj hdrop
          rw [List.length_cons] at hlength
          have hring' : ring pre' m post' = front ++ t :: (back ++ [m]) := by
            rw [hdone.ring_eq, ← hback]
            exact List.append_assoc front (t :: back) [m]
          exact ih front.length (by omega) hwalk hlater hring' rfl

theorem Walk.ends_timed {j N : ℕ} (h : Walk w₀ w list₀ (pre ++ cur :: post))
    (halive : ∃ t ∈ list₀, (w₀.thread t).state ≠ .idle) (hwaits : ∀ t ∈ list₀, Timed w₀ t → Waits bound w₀ t)
    (ht : t ∈ list₀) (htimed : Timed w₀ t) (hover : ∀ k ≥ N, (w₀.thread t).condtimeout < time k) :
    Ends bound time j w cur iter := by
  have hbusy : (w₀.thread t).state ≠ .idle := by
    intro hidle
    rw [Timed, hidle] at htimed
    cases htimed
  induction hleft : N - j generalizing w pre cur post iter j with
  | zero =>
    obtain ⟨front, back, hring⟩ := List.append_of_mem (mem_ring_iff.mpr (h.mem ht hbusy))
    apply h.ends_ready halive hwaits hbusy (.inr ⟨htimed, fun k hk => hover k ?_⟩) hring
    omega
  | succ left ih =>
    apply h.ends_of_pass halive hwaits
    intro w' pre' n post' hdone _ hwalk _ _
    exact ih hwalk (by omega)

/-- **With no thread that anything can be done for** the list is gone through twice. -/
theorem Walk.ends_dead {j : ℕ} (h : Walk w₀ w list₀ (pre ++ cur :: post))
    (halive : ∃ t ∈ list₀, (w₀.thread t).state ≠ .idle) (hdead : ∀ t ∈ list₀, Dead w₀ t) :
    Ends bound time j w cur iter := by
  have hwaits : ∀ t ∈ list₀, Timed w₀ t → Waits bound w₀ t := fun t ht htimed => absurd htimed (hdead t ht).2
  induction hleft : (2 - iter) * (list₀.length + 1) + post.length using Nat.strong_induction_on
    generalizing w pre cur post iter j with
  | _ left ih =>
    apply h.ends_of_pass halive hwaits
    intro w' pre' n post' hdone hiter hwalk hrest _
    have hn : n ∈ list₀ := hwalk.sublist.subset (List.mem_append_right _ List.mem_cons_self)
    have hshort : post'.length ≤ list₀.length := by
      have hlength := hwalk.sublist.length_le
      rw [List.length_append, List.length_cons] at hlength
      omega
    refine ih _ ?_ hwalk rfl
    rw [nextIter, if_neg (hdead n hn).2]
    by_cases hend : post = []
    · have hfew := hiter hend
      have hmore : 2 - iter = (2 - (iter + 1)) + 1 := by omega
      rw [if_pos hend, ← hleft, hmore, Nat.succ_mul]
      omega
    · have hless := (hdone.onward hend).2
      rw [if_neg hend, ← hleft]
      exact Nat.add_lt_add_left hless _

/-- **A switch chooses the next thread**, the first one behind the running one that may run or has waited
for long enough; the list keeps its order and every thread that is not idle, and no thread on it is freed.
Only if no thread may run or waits with a timeout does it report that none can be chosen. -/
theorem contextSwitch_next (bound : ℕ) (time : ℕ → ℤ) (w : World) (before after : List Addr)
    (h : Switchable bound w before after) (hmono : Monotone time)
    (hpast : ∀ t ∈ before ++ w.runningThread :: after, Timed w t → ∃ n, (w.thread t).condtimeout < time n) :
    (∃ fuel r, contextSwitch bound (readings time fuel) fuel w = some r) ∧
      ∀ fuel r, contextSwitch bound (readings time fuel) fuel w = some r →
        SwitchOutcome time w (before ++ w.runningThread :: after) (ring before w.runningThread after) r := by
  have hwalk : Walk w w (before ++ w.runningThread :: after) (before ++ w.runningThread :: after) := .refl h.chain
  refine ⟨?_, ?_⟩
  · have hends : Ends bound time 0 w w.runningThread 0 := by
      by_cases hrun : ∃ t ∈ before ++ w.runningThread :: after, Runnable w t
      · obtain ⟨t, ht, hrun⟩ := hrun
        have hbusy : (w.thread t).state ≠ .idle := fun hidle => (resting_of_idle 0 hidle).1 hrun
        obtain ⟨front, back, hring⟩ := List.append_of_mem (mem_ring_iff.mpr ht)
        exact hwalk.ends_ready h.alive h.waits hbusy (.inl hrun) hring
      · by_cases htimed : ∃ t ∈ before ++ w.runningThread :: after, Timed w t
        · obtain ⟨t, ht, htimed⟩ := htimed
          obtain ⟨N, hN⟩ := hpast t ht htimed
          exact hwalk.ends_timed h.alive h.waits ht htimed fun k hk => lt_of_lt_of_le hN (hmono hk)
        · exact hwalk.ends_dead h.alive fun t ht => ⟨fun hr => hrun ⟨t, ht, hr⟩, fun ht' => htimed ⟨t, ht, ht'⟩⟩
    obtain ⟨fuel, hsome⟩ := hends
    obtain ⟨r, hr⟩ := Option.isSome_iff_exists.mp hsome
    refine ⟨fuel, r, ?_⟩
    rw [Nat.zero_add] at hr
    exact hr
  · intro fuel r hrun
    have hlap : Lap w (time 0) (ring before w.runningThread after) (ring before w.runningThread after) :=
      ⟨[], _, [], rfl, (List.append_nil _).symm, nofun⟩
    exact hwalk.loop h.alive h.waits hmono (fun _ => mem_ring_iff) hlap (.inl rfl) (Nat.add_zero fuel) hrun

/-! ### Two threads, and one -/

def listNode (state : State) (next : Option Addr) : Thread where
  magic := PTHREAD_MAGIC
  next := next
  state := state
  ret := 0
  joined := none
  mutex := none
  mutextype := .invalid
  cond := none
  condtimeout := 0
  nextwait := none
  detached := true

def threadsOf (thread : Addr → Thread) : World where
  thread := thread
  lock _ := ⟨0, .invalid, none, none, .normal⟩
  cond _ := ⟨none⟩
  threadList := some 1
  runningThread := 1
  systemRunning := true
  numRunningThreads := 1
  freed _ := 0

def joinAndRun : World := threadsOf fun t => if t = 1 then listNode .join (some 2) else listNode .running none

theorem contextSwitch_next_joinAndRun :
    ∃ fuel r, contextSwitch 0 (readings (fun _ => 0) fuel) fuel joinAndRun = some r ∧
      SwitchOutcome (fun _ => 0) joinAndRun [1, 2] [2, 1] r := by
  have hswitch : Switchable 0 joinAndRun [] [2] := by
    refine ⟨⟨rfl, rfl, rfl⟩, ⟨1, List.mem_cons_self, nofun⟩, ?_⟩
    intro t ht htimed
    revert htimed
    rcases List.mem_cons.mp ht with rfl | ht
    · exact nofun
    · rw [List.mem_singleton.mp ht]
      exact nofun
  have hpast : ∀ t ∈ [] ++ joinAndRun.runningThread :: [2], Timed joinAndRun t →
      ∃ n : ℕ, (joinAndRun.thread t).condtimeout < (fun _ : ℕ => (0 : ℤ)) n := by
    intro t ht htimed
    revert htimed
    rcases List.mem_cons.mp ht with rfl | ht
    · exact nofun
    · rw [List.mem_singleton.mp ht]
      exact nofun
  obtain ⟨⟨fuel, r, hrun⟩, hout⟩ := contextSwitch_next 0 (fun _ => 0) joinAndRun [] [2] hswitch
    (fun _ _ _ => le_refl 0) hpast
  exact ⟨fuel, r, hrun, hout fuel r hrun⟩

def loneIdle : World := threadsOf fun _ => listNode .idle none

theorem loneIdle_nullPointer :
    Chain loneIdle.next loneIdle.threadList [1] ∧ loneIdle.runningThread = 1 ∧
      contextSwitch 0 (readings (fun _ => 0) 2) 2 loneIdle = some (.error .nullPointer) :=
  ⟨⟨rfl, rfl⟩, rfl, rfl⟩

end UnixLib
