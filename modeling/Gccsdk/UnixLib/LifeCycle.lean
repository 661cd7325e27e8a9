import Gccsdk.UnixLib.LifeInv

/-!
# Nodes are freed once, threads are joined once

The scheduler's loop, the step lemma (`Fine.perform`) and the run lemma (`Fine.run`) of `LifeInv`; and
with them `lifeRun_lifeCycle`, what a program sees of the life of its threads.
-/

namespace UnixLib

open LinkedQueue

/-- The thread the scheduler looks at is on the list, -/
def OnList (s : LifeSys) : Prop :=
  s.Live s.world.runningThread ∧ (s.world.thread s.world.runningThread).state ≠ .unalloced

/-- or was the last one on it, and has been removed. -/
def Removed (s : LifeSys) : Prop :=
  s.world.threadList = none ∧ s.world.next s.world.runningThread = none ∧
    (s.world.thread s.world.runningThread).state = .unalloced

theorem switchTo_onList {s : LifeSys} (hI : LifeInv s) (hon : OnList s ∨ Removed s) {iter iter' : ℕ}
    {w : World} (h : switchTo s.world (s.world.next s.world.runningThread) iter = .ok (w, iter')) :
    ∃ t, w = s.world.on t ∧ s.Live t ∧ (s.world.thread t).state ≠ .unalloced := by
  obtain ⟨l, hl, hmem⟩ := hI.list
  cases hnext : s.world.next s.world.runningThread with
  | some t =>
    rw [hnext] at h
    cases h
    have hlist : s.world.runningThread ∈ l := by
      rcases hon with hon | hremoved
      · exact (hmem _).mpr hon
      · rw [hremoved.2.1] at hnext
        cases hnext
    obtain ⟨l₁, l₂, rfl⟩ := hl.split_next hlist hnext
    exact ⟨t, rfl, (hmem t).mp (by simp)⟩
  | none =>
    rw [hnext] at h
    simp only [switchTo] at h
    split at h
    · cases h
    · cases hhead : s.world.threadList with
      | none =>
        rw [hhead] at h
        cases h
      | some t =>
        rw [hhead] at h hl
        cases h
        refine ⟨t, rfl, (hmem t).mp ?_⟩
        cases l with
        | nil => cases hl
        | cons u l =>
          obtain rfl := Option.some.inj hl.1
          exact List.mem_cons_self ..

theorem LifeInv.on {s : LifeSys} (hI : LifeInv s) (t : Addr) :
    LifeInv { s with world := s.world.on t } :=
  hI.elsewhere ⟨fun _ => rfl, fun _ => rfl, fun _ => rfl, fun _ => rfl, fun _ => rfl,
    fun _ => Or.inl rfl, rfl, rfl, rfl⟩

theorem Elsewhere.modify (w : World) (t : Addr) {f : Thread → Thread}
    (h : ∀ v, f v = { v with state := (f v).state, nextwait := (f v).nextwait })
    (hstate : (f (w.thread t)).state = (w.thread t).state ∨
      (w.thread t).state.busy = true ∧ (f (w.thread t)).state.busy = true) :
    Elsewhere w (w.modify t f) := by
  refine ⟨fun u => ?_, fun u => ?_, fun u => ?_, fun u => ?_, fun u => ?_, fun u => ?_, rfl, rfl, rfl⟩
  all_goals
    rw [World.modify_thread_apply]
    split
  · rw [h]
  · rfl
  · rw [h]
  · rfl
  · rw [h]
  · rfl
  · rw [h]
  · rfl
  · rw [h]
  · rfl
  · rename_i hu
    rw [hu]
    exact hstate
  · exact Or.inl rfl

theorem Elsewhere.trans {w w₁ w₂ : World} (h : Elsewhere w w₁) (h' : Elsewhere w₁ w₂) :
    Elsewhere w w₂ where
  magic t := (h'.magic t).trans (h.magic t)
  next t := (h'.next t).trans (h.next t)
  ret t := (h'.ret t).trans (h.ret t)
  joined t := (h'.joined t).trans (h.joined t)
  detached t := (h'.detached t).trans (h.detached t)
  state t := by
    rcases h.state t with heq | ⟨hbusy, hbusy'⟩
    · rw [← heq]
      exact h'.state t
    · rcases h'.state t with heq' | ⟨-, hbusy''⟩
      · exact Or.inr ⟨hbusy, heq' ▸ hbusy'⟩
      · exact Or.inr ⟨hbusy, hbusy''⟩
  threadList := h'.threadList.trans h.threadList
  systemRunning := h'.systemRunning.trans h.systemRunning
  freed := h'.freed.trans h.freed

theorem Elsewhere.refl (w : World) : Elsewhere w w :=
  ⟨fun _ => rfl, fun _ => rfl, fun _ => rfl, fun _ => rfl, fun _ => rfl, fun _ => Or.inl rfl, rfl, rfl,
    rfl⟩

theorem unlinkCond_elsewhere {fuel : ℕ} {w w' : World} (h : unlinkCond fuel w = some (.ok w')) :
    Elsewhere w w' ∧ w'.runningThread = w.runningThread := by
  unfold unlinkCond at h
  split at h
  · cases h
  · split at h
    · cases h
    · split at h
      · cases h
        exact ⟨⟨fun _ => rfl, fun _ => rfl, fun _ => rfl, fun _ => rfl, fun _ => rfl,
          fun _ => Or.inl rfl, rfl, rfl, rfl⟩, rfl⟩
      · obtain ⟨t, -, hw⟩ := Option.map_eq_some_iff.mp h
        split at hw
        · cases hw
          exact ⟨Elsewhere.refl w, rfl⟩
        · cases hw
          exact ⟨Elsewhere.modify w t (fun _ => rfl) (Or.inl rfl), rfl⟩

theorem timeOut_elsewhere {fuel : ℕ} {clock : ℤ} {w w' : World}
    (h : timeOut fuel clock w = some (.ok w')) :
    Elsewhere w w' ∧ w'.runningThread = w.runningThread := by
  unfold timeOut at h
  split at h
  · rename_i htimed
    obtain ⟨helse, hrun⟩ := unlinkCond_elsewhere h
    refine ⟨(Elsewhere.modify w w.runningThread (fun _ => rfl) (Or.inr ⟨?_, rfl⟩)).trans helse, hrun⟩
    rw [htimed.1]
    rfl
  · cases h
    exact ⟨Elsewhere.refl w, rfl⟩

private theorem mem_erase_middle {α : Type} {l₁ l₂ : List α} {a u : α}
    (h : (l₁ ++ a :: l₂).Nodup) : u ∈ l₁ ++ l₂ ↔ u ≠ a ∧ u ∈ l₁ ++ a :: l₂ := by
  have hperm := List.nodup_middle.mp h
  rw [List.nodup_cons] at hperm
  simp only [List.mem_append, List.mem_cons] at hperm ⊢
  constructor
  · intro hu
    refine ⟨?_, by tauto⟩
    rintro rfl
    exact hperm.1 hu
  · rintro ⟨hne, hu⟩
    tauto

theorem onList_cleaned {s : LifeSys} (hon : OnList s) {w w' : World} {n : Addr}
    (hne : s.world.runningThread ≠ n) (hclean : Cleaned w w' n)
    (hrun : w.runningThread = s.world.runningThread) (hfreed : w.freed = s.world.freed)
    (hstate : (w.thread s.world.runningThread).state = (s.world.thread s.world.runningThread).state) :
    OnList { s with world := w' } := by
  refine ⟨⟨?_, ?_⟩, ?_⟩
  · change s.gen w'.runningThread ≠ 0
    rw [hclean.runningThread, hrun]
    exact hon.1.1
  · change w'.freed w'.runningThread = 0
    rw [hclean.runningThread, hrun, hclean.freed, if_neg fun h => hne h.1, hfreed]
    exact hon.1.2
  · change (w'.thread w'.runningThread).state ≠ .unalloced
    rw [hclean.runningThread, hrun, hclean.thread, if_neg hne, hstate]
    exact hon.2

theorem LifeInv.freeIdle {s : LifeSys} (hI : LifeInv s) (hon : OnList s) {w : World}
    (h : freeIdle s.world = .ok w) :
    LifeInv { s with world := w } ∧ w.runningThread = s.world.runningThread ∧
      (OnList { s with world := w } ∨ Removed { s with world := w }) := by
  obtain ⟨l, hl, hmem⟩ := hI.list
  have hnodup := hl.nodup
  have hself : s.world.runningThread ∈ l := (hmem _).mpr hon
  unfold UnixLib.freeIdle at h
  cases hnext : s.world.next s.world.runningThread with
  | some n =>
    rw [show (s.world.thread s.world.runningThread).next = some n from hnext] at h
    dsimp only at h
    split at h
    · rename_i hidle
      have hclean := cleanupIdle_cleaned h
      obtain ⟨l₁, l₂, rfl⟩ := hl.split_next hself hnext
      have hne : s.world.runningThread ≠ n := by
        rintro heq
        rw [List.nodup_append] at hnodup
        simp [heq] at hnodup
      have hrest : ∀ u, u ∈ l₁ ++ s.world.runningThread :: l₂ ↔
          u ≠ n ∧ s.Live u ∧ (s.world.thread u).state ≠ .unalloced := by
        intro u
        have herase := @mem_erase_middle _ (l₁ ++ [s.world.runningThread]) l₂ n u (by simpa using hnodup)
        rw [← hmem u]
        simpa using herase
      refine ⟨hI.reap hclean ((hmem n).mp (by simp)).1 hidle (fun u => ?_) rfl rfl
        ⟨_, ?_, hrest⟩, hclean.runningThread, Or.inl ?_⟩
      · rw [World.modify_thread_apply]
        split
        · exact ⟨_, rfl⟩
        · exact ⟨_, rfl⟩
      · rw [World.next_modify]
        exact hl.unlink
      · exact onList_cleaned hon hne hclean rfl rfl (by simp)
    · cases h
      exact ⟨hI, rfl, Or.inl hon⟩
  | none =>
    rw [show (s.world.thread s.world.runningThread).next = none from hnext] at h
    dsimp only at h
    cases l with
    | nil => cases hself
    | cons head l =>
      rw [hl.1] at h
      dsimp only at h
      split at h
      · rename_i hidle
        have hclean := cleanupIdle_cleaned h
        have hrest : ∀ u, u ∈ l ↔ u ≠ head ∧ s.Live u ∧
            (s.world.thread u).state ≠ .unalloced := by
          intro u
          rw [← hmem u]
          exact @mem_erase_middle _ [] l head u hnodup
        refine ⟨hI.reap hclean ((hmem head).mp (by simp)).1 hidle (fun u => ⟨_, rfl⟩) rfl rfl
          ⟨l, hl.2, hrest⟩, hclean.runningThread, ?_⟩
        by_cases hne : s.world.runningThread = head
        · -- the list had one thread
          refine Or.inr ⟨?_, ?_, ?_⟩
          · change w.threadList = none
            rw [hclean.threadList, ← hne]
            exact hnext
          · change w.next w.runningThread = none
            rw [hclean.runningThread, World.next, hclean.thread]
            split
            · exact hnext
            · exact hnext
          · change (w.thread w.runningThread).state = .unalloced
            rw [hclean.runningThread, hclean.thread, if_pos hne]
        · exact Or.inl (onList_cleaned hon hne hclean rfl rfl rfl)
      · cases h
        exact ⟨hI, rfl, Or.inl hon⟩

theorem LifeInv.switchPass {s : LifeSys} (hI : LifeInv s) (hon : OnList s ∨ Removed s)
    {bound : ℕ} {clock : ℤ} {iter iter' : ℕ} {w : World}
    (h : switchPass bound clock s.world (s.world.next s.world.runningThread) iter =
      some (.ok (w, iter'))) :
    LifeInv { s with world := w } ∧ (OnList { s with world := w } ∨ Removed { s with world := w }) := by
  unfold UnixLib.switchPass at h
  split at h
  · cases h
  · rename_i w₁ iter₁ hto
    obtain ⟨t, rfl, hlive, hstate⟩ := switchTo_onList hI hon hto
    split at h
    · cases h
    · rename_i w₂ hfree
      obtain ⟨hI₂, -, hon₂⟩ := (hI.on t).freeIdle ⟨hlive, hstate⟩ hfree
      obtain ⟨r, htime, hr⟩ := Option.map_eq_some_iff.mp h
      cases r with
      | error e => cases hr
      | ok w₃ =>
        cases hr
        obtain ⟨helse, hrun⟩ := timeOut_elsewhere htime
        have hI₃ := hI₂.elsewhere helse
        have hunalloced : (w.thread w₂.runningThread).state = .unalloced ↔
            (w₂.thread w₂.runningThread).state = .unalloced :=
          State.eq_iff_of_busy (helse.state w₂.runningThread) rfl
        refine ⟨hI₃, hon₂.imp ?_ ?_⟩
        · rintro ⟨hlive₂, hstate₂⟩
          refine ⟨⟨?_, ?_⟩, ?_⟩
          · change s.gen w.runningThread ≠ 0
            rw [hrun]
            exact hlive₂.1
          · change w.freed w.runningThread = 0
            rw [hrun, helse.freed]
            exact hlive₂.2
          · change (w.thread w.runningThread).state ≠ .unalloced
            rw [hrun]
            exact fun h => hstate₂ (hunalloced.mp h)
        · rintro ⟨hlist₂, hnext₂, hstate₂⟩
          refine ⟨helse.threadList.trans hlist₂, ?_, ?_⟩
          · change (w.thread w.runningThread).next = none
            rw [hrun, helse.next]
            exact hnext₂
          · change (w.thread w.runningThread).state = .unalloced
            rw [hrun]
            exact hunalloced.mpr hstate₂

/-- **The scheduler** keeps the invariant, and ends at a thread on the list. -/
theorem LifeInv.switchLoop {bound : ℕ} {clock : ℕ → ℤ} {w' : World} :
    ∀ {fuel : ℕ} {s : LifeSys} {iter : ℕ}, LifeInv s → OnList s ∨ Removed s →
    switchLoop bound clock fuel s.world (s.world.next s.world.runningThread) iter =
      some (.ok w') →
    LifeInv { s with world := w' } ∧ OnList { s with world := w' }
  | 0, s, iter, _, _, h => by cases h
  | fuel + 1, s, iter, hI, hon, h => by
    rw [UnixLib.switchLoop] at h
    obtain ⟨r, hpass, h⟩ := Option.bind_eq_some_iff.mp h
    cases r with
    | error e => cases h
    | ok r =>
      obtain ⟨w, iter'⟩ := r
      obtain ⟨hI', hon'⟩ := hI.switchPass hon hpass
      dsimp only at h
      split at h
      · -- a removed thread cannot run
        rename_i hrunnable
        cases h
        refine ⟨hI', hon'.resolve_right ?_⟩
        rintro ⟨-, -, hstate⟩
        rw [show (w'.thread w'.runningThread).state = .unalloced from hstate] at hrunnable
        cases hrunnable
      · exact @LifeInv.switchLoop _ _ _ fuel { s with world := w } _ hI' hon' h

/-! ### Steps and runs -/

theorem pthreadJoin_cases (w : World) (t : Addr) :
    (¬ w.Joinable t ∧ ∃ e, pthreadJoin w (some t) = .returns (some e) none w) ∨
    (w.Joinable t ∧ (w.thread t).state = .unalloced ∧ pthreadJoin w (some t) =
      .returns none (some (w.thread t).ret) ((w.modify t fun v => { v with magic := 0 }).free t)) ∨
    (w.Joinable t ∧ (w.thread t).state = .idle ∧
      pthreadJoin w (some t) = .returns none (some (w.thread t).ret) w) ∨
    (w.Joinable t ∧ (w.thread t).state ≠ .unalloced ∧ pthreadJoin w (some t) =
      .yields ((w.modify w.runningThread fun v => { v with state := .join }).modify t
        fun v => { v with joined := some w.runningThread })) := by
  unfold pthreadJoin World.Joinable
  by_cases hself : t = w.runningThread
  · exact Or.inl ⟨fun h => h.1 hself, _, if_pos (congrArg some hself)⟩
  rw [if_neg fun h => hself (Option.some.inj h)]
  dsimp only
  cases hinvalid : pthreadInvalid w (some t) with
  | true => exact Or.inl ⟨by simp, _, if_pos rfl⟩
  | false =>
    rw [if_neg (by simp)]
    by_cases hjoined : (w.thread t).joined ≠ none ∨ (w.thread t).detached = true
    · rw [if_pos hjoined]
      refine Or.inl ⟨?_, _, rfl⟩
      rintro ⟨-, -, hnobody, hdetached⟩
      rw [hnobody, hdetached] at hjoined
      simp at hjoined
    · rw [if_neg hjoined]
      have hjoinable : t ≠ w.runningThread ∧ false = false ∧ (w.thread t).joined = none ∧
          (w.thread t).detached = false := by
        refine ⟨hself, rfl, ?_, ?_⟩
        · by_contra hne
          exact hjoined (Or.inl hne)
        · by_contra hne
          exact hjoined (Or.inr (by simpa using hne))
      refine Or.inr ?_
      cases hstate : (w.thread t).state with
      | unalloced => exact Or.inl ⟨hjoinable, rfl, rfl⟩
      | idle => exact Or.inr (Or.inl ⟨hjoinable, rfl, rfl⟩)
      | _ => exact Or.inr (Or.inr ⟨hjoinable, by simp, rfl⟩)

variable {s s' : LifeSys}

theorem OnList.of_same (hon : OnList s)
    (hrun : s'.world.runningThread = s.world.runningThread)
    (hgen : s'.gen s.world.runningThread ≠ 0)
    (hfreed : s'.world.freed s.world.runningThread = s.world.freed s.world.runningThread)
    (hstate : (s'.world.thread s.world.runningThread).state ≠ .unalloced) : OnList s' := by
  unfold OnList LifeSys.Live
  rw [hrun, hfreed]
  exact ⟨⟨hgen, hon.1.2⟩, hstate⟩

def Fine (s : LifeSys) : Prop := LifeInv s ∧ OnList s

theorem fine_notCreated {w : World} {t : Addr} (h : Fine s) (ht : ¬ s.Live t)
    (hw : NotCreated s.world w t) (hrun : w.runningThread = s.world.runningThread) :
    Fine (LifeSys.allocate { s with world := w } t .gone false) := by
  obtain ⟨hI, hon⟩ := h
  have hne : s.world.runningThread ≠ t := fun h => ht (h ▸ hon.1)
  refine ⟨hI.notCreated ht hw, hon.of_same hrun ?_ ?_ ?_⟩
  · rw [LifeSys.allocate_gen, if_neg hne]
    exact hon.1.1
  · rw [LifeSys.allocate_world, hw.freed, if_neg hne]
  · rw [LifeSys.allocate_world, hw.other _ hne]
    exact hon.2

theorem Fine.create (h : Fine s) {mem : NodeMemory} {attr : Option Bool}
    (hs : s.perform (.create mem attr) = some s') : Fine s' := by
  obtain ⟨hI, hon⟩ := h
  simp only [LifeSys.perform, Option.ite_none_right_eq_some] at hs
  obtain ⟨⟨-, hfree⟩, hs⟩ := hs
  cases mem with
  | noNode =>
    cases hs
    refine ⟨hI.of_same (fun t => ?_) rfl rfl (fun h => by cases h) hI.call fun _ _ _ => Iff.rfl, hon⟩
    exact ⟨⟨rfl, rfl, rfl, rfl, rfl⟩, rfl, rfl, Or.inl rfl, rfl⟩
  | noSaveArea t =>
    cases hs
    exact fine_notCreated ⟨hI, hon⟩ (hfree t rfl) (pthreadCreate_noSaveArea s.world t attr) rfl
  | noStack t =>
    cases hs
    exact fine_notCreated ⟨hI, hon⟩ (hfree t rfl) (pthreadCreate_noStack s.world t attr) rfl
  | node t =>
    cases hs
    have ht : ¬ s.Live t := hfree t rfl
    have hw := pthreadCreate_node s.world t attr
    have hne : s.world.runningThread ≠ t := fun h => ht (h ▸ hon.1)
    refine ⟨hI.create ht hw, hon.of_same rfl ?_ ?_ ?_⟩
    · rw [LifeSys.allocate_gen, if_neg hne]
      exact hon.1.1
    · rw [LifeSys.allocate_world, hw.freed, if_neg hne]
    · rw [LifeSys.allocate_world, hw.other _ hne]
      exact hon.2

theorem Fine.join (h : Fine s) {tojoin : Option Addr}
    (hsound : LifeAction.Sound s (.join tojoin)) (hs : s.perform (.join tojoin) = some s') :
    Fine s' := by
  obtain ⟨hI, hon⟩ := h
  simp only [LifeSys.perform, Option.ite_none_right_eq_some] at hs
  obtain ⟨hcalls, hs⟩ := hs
  cases tojoin with
  | none =>
    cases hs
    exact ⟨hI, hon⟩
  | some t =>
    rcases pthreadJoin_cases s.world t with ⟨-, e, ho⟩ | ⟨hjoinable, hstate, ho⟩ |
      ⟨hjoinable, hstate, ho⟩ | ⟨hjoinable, hstate, ho⟩
    · rw [ho] at hs
      cases hs
      exact ⟨hI, hon⟩
    · rw [ho] at hs
      cases hs
      refine ⟨hI.joinRemoved hjoinable hstate, hon.of_same rfl hon.1.1 ?_ ?_⟩
      · change ((s.world.modify t _).free t).freed _ = _
        rw [World.free_freed, if_neg (Ne.symm hjoinable.1)]
        rfl
      · change (((s.world.modify t _).free t).thread _).state ≠ _
        rw [World.free_thread, World.modify_thread_apply, if_neg (Ne.symm hjoinable.1)]
        exact hon.2
    · -- the condition excludes an idle thread
      rcases hsound hjoinable with hcode | hremoved
      · exact absurd hstate (hI.live_of_inCode hcode).2.2
      · rw [hstate] at hremoved
        cases hremoved
    · rw [ho] at hs
      cases hs
      refine ⟨hI.joinWaits hcalls hjoinable ((hsound hjoinable).resolve_right hstate),
        hon.of_same rfl hon.1.1 rfl ?_⟩
      rw [LifeSys.goTo_world, World.modify_thread_apply, if_neg (Ne.symm hjoinable.1),
        World.modify_thread_apply, if_pos rfl]
      exact fun h => by cases h

/-- **Step lemma.** -/
theorem Fine.perform (h : Fine s) {a : LifeAction} (hsound : a.Sound s)
    (hs : s.perform a = some s') : Fine s' := by
  cases a with
  | create mem attr => exact h.create hs
  | exit status =>
    obtain ⟨hI, hon⟩ := h
    simp only [LifeSys.perform, Option.ite_none_right_eq_some] at hs
    obtain ⟨hcalls, hs⟩ := hs
    obtain ⟨w, hw, rfl⟩ := Option.map_eq_some_iff.mp hs
    refine ⟨hI.exit hcalls status hw, ?_⟩
    obtain ⟨-, hw'⟩ := (Option.ite_none_right_eq_some ..).mp hw
    obtain rfl := Option.some.inj hw'
    refine hon.of_same rfl hon.1.1 rfl ?_
    rw [LifeSys.goTo_world, World.modify_thread_apply, if_pos rfl]
    exact fun h => by cases h
  | handOver =>
    obtain ⟨hI, hon⟩ := h
    simp only [LifeSys.perform] at hs
    split at hs
    · rename_i status hphase
      obtain ⟨hcall, hs⟩ := (Option.ite_none_right_eq_some ..).mp hs
      obtain rfl := Option.some.inj hs
      obtain ⟨hfreed, -, -, -, hrun⟩ := exitHandOver_other s.world status
      refine ⟨hI.handOver hphase hcall, hon.of_same hrun hon.1.1 (congrFun hfreed _) ?_⟩
      rw [LifeSys.note_world, LifeSys.goTo_world, exitHandOver_thread]
      dsimp only
      split
      · exact fun h => by cases h
      · exact hon.2
    · cases hs
  | goIdle =>
    obtain ⟨hI, hon⟩ := h
    simp only [LifeSys.perform] at hs
    split at hs
    · rename_i status hphase
      obtain ⟨w, hw, rfl⟩ := Option.map_eq_some_iff.mp hs
      refine ⟨hI.goIdle hphase hw, ?_⟩
      obtain ⟨-, hw'⟩ := (Option.ite_none_right_eq_some ..).mp hw
      obtain rfl := Option.some.inj hw'
      refine hon.of_same rfl hon.1.1 rfl ?_
      rw [LifeSys.goTo_world, World.modify_thread_apply, if_pos rfl]
      exact fun h => by cases h
    · cases hs
  | join tojoin => exact h.join hsound hs
  | joinReturns =>
    obtain ⟨hI, hon⟩ := h
    simp only [LifeSys.perform] at hs
    split at hs
    · rename_i t g hcall
      obtain ⟨hres, hs⟩ := (Option.ite_none_right_eq_some ..).mp hs
      obtain rfl := Option.some.inj hs
      exact ⟨hI.joinReturns hcall hres, hon⟩
    · cases hs
  | detach thread =>
    obtain ⟨hI, hon⟩ := h
    simp only [LifeSys.perform, Option.ite_none_right_eq_some] at hs
    obtain ⟨hcalls, hs⟩ := hs
    cases thread with
    | none =>
      cases hs
      exact ⟨hI, hon⟩
    | some t =>
      dsimp only at hs
      split at hs
      · cases hs
        exact ⟨hI, hon⟩
      · cases hs
        exact ⟨hI.detach hcalls, hon⟩
  | detachRest =>
    obtain ⟨hI, hon⟩ := h
    simp only [LifeSys.perform] at hs
    simp only [LifeAction.Sound] at hsound
    split at hs
    · rename_i t hcall
      rw [hcall] at hsound
      obtain rfl := Option.some.inj hs
      obtain ⟨-, -, -, hrun⟩ := pthreadDetach_other s.world t
      refine ⟨hI.detachRest hcall hsound, hon.of_same hrun hon.1.1 ?_ ?_⟩
      · -- the running thread has not been removed
        rw [LifeSys.note_world, LifeSys.goTo_world, pthreadDetach_freed, if_neg]
        exact fun h => hon.2 h.2
      · rw [LifeSys.note_world, LifeSys.goTo_world, pthreadDetach_thread]
        exact hon.2
    · cases hs
  | switch bound clock fuel =>
    obtain ⟨hI, hon⟩ := h
    simp only [LifeSys.perform] at hs
    split at hs
    · rename_i w hw
      obtain rfl := Option.some.inj hs
      exact hI.switchLoop (Or.inl hon) hw
    · cases hs

theorem Fine.step (h : Fine s) {a : Option LifeAction} (hsound : ∀ b ∈ a, b.Sound s)
    (hs : LifeStep s a s') : Fine s' := by
  cases hs with
  | act hperform => exact h.perform (hsound _ rfl) hperform
  | elsewhere helse hrun =>
    obtain ⟨hI, hon⟩ := h
    refine ⟨hI.elsewhere helse, hon.of_same hrun hon.1.1 (congrFun helse.freed _) fun hstate => ?_⟩
    exact hon.2 ((State.eq_iff_of_busy (helse.state _) rfl).mp hstate)

theorem Fine.initial {main : Addr} (h : s.Initial main) : Fine s := by
  have hlive : ∀ t, s.Live t ↔ t = main := by
    intro t
    unfold LifeSys.Live
    rw [h.gen, h.freed]
    by_cases ht : t = main <;> simp [ht]
  refine ⟨?_, ?_⟩
  · constructor
    · refine ⟨[main], ?_, fun t => ?_⟩
      · rw [h.list]
        exact ⟨rfl, h.next⟩
      · rw [List.mem_singleton, hlive]
        refine ⟨fun ht => ⟨ht, ?_⟩, fun ht => ht.1⟩
        rw [ht, h.state]
        exact fun h => by cases h
    · intro _ t u ht hu
      rw [(hlive t).mp ht, (hlive u).mp hu]
    · intro t
      have hblank := h.record t (s.gen t)
      have hstate := h.state
      constructor
      · rw [h.magic, hlive]
      · rw [h.freed]
        exact Nat.zero_le 1
      · rw [h.phase, hlive]
        by_cases ht : t = main <;> simp [ht, hstate]
      · intro _ _
        rw [hblank]
        rfl
      · intro ht hcode
        rw [h.phase, if_pos ((hlive t).mp ht)] at hcode
        cases hcode
      · intro _ hmark
        rw [hblank] at hmark
        simp [Record.blank] at hmark
      · intro ht hun
        rw [(hlive t).mp ht, hstate] at hun
        cases hun
    · intro t g
      rw [h.record]
      exact ⟨Nat.zero_le 1, fun v hv => by cases hv⟩
    · intro t g _
      exact h.record t g
    · intro t ht
      exact absurd (h.call t) ht
    · intro t j ht hj
      rw [(hlive t).mp ht, h.joined] at hj
      cases hj
    · intro j t g hj
      rw [h.call] at hj
      cases hj
    · intro j j' t g hj
      rw [h.call] at hj
      cases hj
  · unfold OnList
    rw [hlive, h.running]
    refine ⟨rfl, ?_⟩
    rw [h.state]
    exact fun h => by cases h

/-- **Run lemma.** -/
theorem Fine.run {s₀ : LifeSys} {main : Addr} (hinit : s₀.Initial main)
    (hrun : SoundLifeRun s₀ s) : Fine s := by
  induction hrun with
  | refl => exact Fine.initial hinit
  | tail _ hstep ih =>
    obtain ⟨a, hsound, hstep⟩ := hstep
    exact ih.step hsound hstep

/-- **The life of threads.** In each run in which no thread joins one that is just exiting, and none is
freed while another is in `pthread_detach` with it. -/
theorem lifeRun_lifeCycle {s₀ s : LifeSys} {main : Addr} (hinit : s₀.Initial main)
    (hrun : SoundLifeRun s₀ s) : LifeCycle s := by
  obtain ⟨hI, -⟩ := Fine.run hinit hrun
  refine ⟨fun t => (hI.thread t).once, ?_, ?_, fun t g => (hI.record t g).once,
    fun t g => (hI.record t g).value, ?_⟩
  · obtain ⟨l, hl, hmem⟩ := hI.list
    exact ⟨l, hl, fun t ht => ((hmem t).mp ht).1.2⟩
  · intro j t g hcall hstate
    rcases (hI.joining j t g hcall).waits with ⟨-, hnow, hjoined⟩ | ⟨hwoken, -⟩
    · refine ⟨hnow.1, hnow.2.2, hjoined, ?_⟩
      rw [hnow.1]
      exact (hI.thread t).notYet hnow.2 (hI.joined t j hnow.2 hjoined).2.2
    · exact absurd hstate hwoken
  · intro t hgen hstate hmark
    have ht := hI.thread t
    by_contra hfreed
    have hlive : s.Live t := ⟨hgen, by have := ht.once; omega⟩
    have hdetached := ht.marked hlive hmark
    rw [ht.kept hlive hstate] at hdetached
    cases hdetached

/-! ### Two runs -/

namespace LifeSys

def performAll (s : LifeSys) (as : List LifeAction) : Option LifeSys := as.foldlM LifeSys.perform s

theorem performAll_run : ∀ {as : List LifeAction} {s s' : LifeSys},
    s.performAll as = some s' → LifeRun s s'
  | [], s, s', h => by
    obtain rfl := Option.some.inj h
    exact .refl
  | a :: as, s, s', h => by
    rw [performAll, List.foldlM_cons] at h
    obtain ⟨s₁, hstep, hrest⟩ := Option.bind_eq_some_iff.mp h
    exact (performAll_run hrest).head ⟨some a, .act hstep⟩

/-- The main thread at node 0, before the first call of `pthread_create`. -/
def start : LifeSys where
  world :=
    { thread := fun t =>
        { magic := if t = 0 then PTHREAD_MAGIC else 0
          next := none
          state := .running
          ret := 0
          joined := none
          mutex := none
          mutextype := .invalid
          cond := none
          condtimeout := 0
          nextwait := none
          detached := false }
      lock := fun _ => ⟨0, .invalid, none, none, .default⟩
      cond := fun _ => ⟨none⟩
      threadList := some 0
      runningThread := 0
      systemRunning := false
      numRunningThreads := 1
      freed := fun _ => 0 }
  phase := fun t => if t = 0 then .running else .gone
  call := fun _ => .none
  gen := fun t => if t = 0 then 1 else 0
  record := fun _ _ => .blank

theorem start_initial : start.Initial 0 where
  running := rfl
  list := rfl
  next := rfl
  state := rfl
  joined := rfl
  magic t := by
    change (if t = 0 then PTHREAD_MAGIC else 0) = PTHREAD_MAGIC ↔ t = 0
    split
    · rename_i ht
      exact ⟨fun _ => ht, fun _ => rfl⟩
    · rename_i ht
      exact ⟨fun h => absurd h zero_ne_magic, fun h => absurd h ht⟩
  freed _ := rfl
  phase _ := rfl
  call _ := rfl
  gen _ := rfl
  record _ _ := rfl

end LifeSys

/-- Actions that are no call of `pthread_join` or `pthread_detach`. -/
theorem soundLifeRun_of_performAll : ∀ {as : List LifeAction} {s s' : LifeSys},
    (∀ a ∈ as, ∀ s, a.Sound s) → s.performAll as = some s' → SoundLifeRun s s'
  | [], s, s', _, h => by
    obtain rfl := Option.some.inj h
    exact .refl
  | a :: as, s, s', hsound, h => by
    rw [LifeSys.performAll, List.foldlM_cons] at h
    obtain ⟨s₁, hstep, hrest⟩ := Option.bind_eq_some_iff.mp h
    refine (soundLifeRun_of_performAll (fun b hb => hsound b (List.mem_cons_of_mem a hb))
      hrest).head ⟨some a, fun b hb => ?_, .act hstep⟩
    obtain rfl := Option.some.inj hb
    exact hsound _ (List.mem_cons_self ..) s

theorem lifeRun_lifeCycle_join : ∃ s, SoundLifeRun LifeSys.start s ∧
    (s.record 1 1).delivered = [7] ∧ s.world.freed 1 = 1 ∧ LifeCycle s := by
  obtain ⟨s₁, hcreate, hs₁⟩ := Option.map_eq_some_iff.mp
    (show (LifeSys.start.performAll [.create (.node 1) none]).map (fun s =>
        (s.phase 1, (s.perform (.join (some 1))).bind fun s =>
          (s.performAll [.switch 0 (fun _ => 0) 2, .exit 7, .handOver, .goIdle,
            .switch 0 (fun _ => 0) 2, .joinReturns]).map
            fun s => ((s.record 1 1).delivered, s.world.freed 1))) =
      some (.running, some ([7], 1)) from rfl)
  obtain ⟨hphase, hrest⟩ := Prod.mk.inj hs₁
  obtain ⟨s₂, hjoin, hrest⟩ := Option.bind_eq_some_iff.mp hrest
  obtain ⟨s, hperform, hs⟩ := Option.map_eq_some_iff.mp hrest
  obtain ⟨hdelivered, hfreed⟩ := Prod.mk.inj hs
  have hsound : ∀ b ∈ some (LifeAction.join (some 1)), b.Sound s₁ := by
    intro b hb
    obtain rfl := Option.some.inj hb
    intro _
    rw [hphase]
    exact Or.inl rfl
  have hrun : SoundLifeRun LifeSys.start s := by
    refine ((soundLifeRun_of_performAll ?_ hcreate).tail ⟨_, hsound, .act hjoin⟩).trans
      (soundLifeRun_of_performAll ?_ hperform)
    · simp [LifeAction.Sound]
    · simp [LifeAction.Sound]
  exact ⟨s, hrun, hdelivered, hfreed, lifeRun_lifeCycle LifeSys.start_initial hrun⟩

/-- Two calls of `pthread_join` with a thread that is idle: both return 0. -/
theorem lifeCycle_not_idleJoin : ¬ ∀ (s₀ s : LifeSys) (main : Addr), s₀.Initial main →
    LifeRun s₀ s → LifeCycle s := by
  intro hall
  obtain ⟨s, hperform, hs⟩ := Option.map_eq_some_iff.mp
    (show (LifeSys.start.performAll [.create (.node 1) none, .create (.node 2) none,
        .switch 0 (fun _ => 0) 1, .switch 0 (fun _ => 0) 1, .exit 7, .handOver, .goIdle,
        .switch 0 (fun _ => 0) 1, .join (some 1), .join (some 1)]).map
        (fun s => (s.record 1 1).delivered) = some [7, 7] from rfl)
  have honce := (hall _ s 0 LifeSys.start_initial (LifeSys.performAll_run hperform)).joinedOnce 1 1
  rw [hs] at honce
  simp at honce

end UnixLib
