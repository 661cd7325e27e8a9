import Gccsdk.GdbServer.Session
import Mathlib.Data.List.Pairwise

/-!
# Breakpoints

Runs of one session: the debugger's requests to set and clear breakpoints, to step and to continue, its
interrupts, the polls of the program, breaks, and the program running in between (`DebugRun`). The program does
not write to its code. `BreakpointsSound` is what is expected.

A request to set a breakpoint where a one-shot one is already is acknowledged, but the record stays one-shot and
goes at the next break there. So `debugRun_sound` is for runs in which none is set where a one-shot one is, and
in which the addresses are multiples of 4 (`Keeps`): the lowest bit of an address would be taken for the mark of
a one-shot breakpoint. In the invariant, `BkptInv`, an acknowledged address has a record that is not one-shot.
-/

namespace GdbServer

/-- What happens in a session. -/
inductive DebugOp
  | set (address : BitVec 32)
  | clear (address : BitVec 32)
  | step
  | continue
  | interrupt
  | prePoll
  | postPoll
  | hit
  /-- The program runs, up to a new state of the registers and of the return address of its last SWI. -/
  | program (regs : CpuRegisters) (cur_pc : BitVec 32)

/-- A session, with the addresses of the breakpoints that the debugger has set and not cleared. -/
structure DebugSystem where
  s : Debuggee
  acked : List (BitVec 32)

abbrev bare (address : BitVec 32) : BitVec 32 := address &&& ~~~BKPT_ONE_SHOT

def DebugSystem.perform (y : DebugSystem) : DebugOp → DebugSystem
  | .set address =>
    let (s, ok) := sessionSetBkptCb y.s address
    ⟨s, if ok then address :: y.acked else y.acked⟩
  | .clear address =>
    ⟨(sessionClearBkptCb y.s address).1, y.acked.filter fun a => bare a ≠ bare address⟩
  | .step => ⟨(sessionStepCb y.s).1, y.acked⟩
  | .continue => ⟨sessionContinueCb y.s, y.acked⟩
  | .interrupt => ⟨(sessionBreakCb y.s).1, y.acked⟩
  | .prePoll => ⟨sessionPrePollHandler y.s, y.acked⟩
  | .postPoll => ⟨sessionPostPollHandler y.s, y.acked⟩
  | .hit => ⟨sessionHandleBreak y.s, y.acked⟩
  | .program regs cur_pc => ⟨{ y.s with regs, cur_pc }, y.acked⟩

/-- The states in runs on a program all of whose steps are as `P` says. -/
inductive DebugRun (P : Debuggee → DebugOp → Prop) (orig : Mem) : DebugSystem → Prop
  | initial {s : Debuggee} : s.bkpts = [] → s.mem = orig → DebugRun P orig ⟨s, []⟩
  | step {y : DebugSystem} (op : DebugOp) : DebugRun P orig y → P y.s op → DebugRun P orig (y.perform op)

/-- **What is expected** of the memory and of the list. -/
structure BreakpointsSound (orig : Mem) (y : DebugSystem) : Prop where
  /-- A listed address holds the breakpoint, and its record what was there. -/
  listed : ∀ b ∈ y.s.bkpts, y.s.mem.load (bare b.address) = BKPT ∧
    b.instruction = orig.load (bare b.address)
  others : ∀ a, (∀ b ∈ y.s.bkpts, bare b.address ≠ a) → y.s.mem a = orig a
  nodup : y.s.bkpts.Pairwise fun b c => bare b.address ≠ bare c.address
  restored : y.s.bkpts = [] → y.s.mem = orig
  kept : ∀ a ∈ y.acked, ∃ b ∈ y.s.bkpts, bare b.address = bare a

def Keeps (s : Debuggee) : DebugOp → Prop
  | .set address => Aligned address ∧
    ∀ b, sessionFindBkpt s address = some b → b.address &&& BKPT_ONE_SHOT = 0
  | .step => Aligned s.next
  | .interrupt => s.current = true → Aligned s.cur_pc
  | .postPoll => s.brk = true → Aligned s.cur_pc
  | _ => True

/-! ### Words at multiples of 4 -/

variable {a b : BitVec 32} {mem orig : Mem}

theorem Aligned.unmarked (h : Aligned a) : a &&& BKPT_ONE_SHOT = 0 := by
  have hand : a &&& BKPT_ONE_SHOT = a &&& 3 &&& BKPT_ONE_SHOT := by
    rw [BitVec.and_assoc]
    rfl
  rw [hand, h]
  rfl

theorem bare_of_unmarked (h : a &&& BKPT_ONE_SHOT = 0) : bare a = a :=
  Address.and_not_of_and_eq_zero h

theorem bare_mark (a : BitVec 32) : bare (a ||| BKPT_ONE_SHOT) = bare a := by
  unfold bare
  rw [BitVec.and_comm, BitVec.and_or_distrib_left]
  have hnone : ~~~BKPT_ONE_SHOT &&& BKPT_ONE_SHOT = 0 := by decide
  rw [hnone, BitVec.and_comm]
  exact BitVec.or_zero

theorem Aligned.bare_mark (h : Aligned a) : bare (a ||| BKPT_ONE_SHOT) = a :=
  (GdbServer.bare_mark a).trans (bare_of_unmarked h.unmarked)

/-! ### The list of records -/

variable {s : Debuggee} {y : DebugSystem} {r : SessionBkpt}

theorem isAt_iff : r.isAt a = true ↔ bare r.address = bare a := by
  unfold SessionBkpt.isAt
  exact decide_eq_true_iff

theorem sessionFindBkpt_eq_some (h : sessionFindBkpt s a = some r) :
    r ∈ s.bkpts ∧ bare r.address = bare a :=
  ⟨List.mem_of_find?_eq_some h, isAt_iff.mp (@List.find?_some _ (SessionBkpt.isAt · a) _ _ h)⟩

theorem sessionFindBkpt_eq_none (h : sessionFindBkpt s a = none) :
    ∀ r ∈ s.bkpts, bare r.address ≠ bare a := by
  intro r hr heq
  exact List.find?_eq_none.mp h r hr (isAt_iff.mpr heq)

theorem mem_eraseP_iff {l : List SessionBkpt}
    (hnodup : l.Pairwise fun b c => bare b.address ≠ bare c.address) (a : BitVec 32) (r : SessionBkpt) :
    r ∈ l.eraseP (fun b => b.isAt a) ↔ r ∈ l ∧ bare r.address ≠ bare a := by
  induction l with
  | nil => exact ⟨nofun, nofun⟩
  | cons c rest ih =>
    obtain ⟨hc, hrest⟩ := List.pairwise_cons.mp hnodup
    cases hat : c.isAt a with
    | true =>
      have hca := isAt_iff.mp hat
      rw [List.eraseP_cons, hat, cond_true]
      constructor
      · intro hr
        exact ⟨List.mem_cons_of_mem _ hr, fun heq => hc r hr (hca.trans heq.symm)⟩
      · intro ⟨hr, hne⟩
        rcases List.mem_cons.mp hr with rfl | hr
        · exact absurd hca hne
        · exact hr
    | false =>
      have hca : bare c.address ≠ bare a := fun heq => by
        rw [isAt_iff.mpr heq] at hat
        cases hat
      rw [List.eraseP_cons, hat, cond_false, List.mem_cons, List.mem_cons, ih hrest]
      constructor
      · rintro (rfl | ⟨hr, hne⟩)
        · exact ⟨Or.inl rfl, hca⟩
        · exact ⟨Or.inr hr, hne⟩
      · rintro ⟨rfl | hr, hne⟩
        · exact Or.inl rfl
        · exact Or.inr ⟨hr, hne⟩

theorem eq_of_bare_eq {l : List SessionBkpt} (hnodup : l.Pairwise fun b c => bare b.address ≠ bare c.address)
    {b c : SessionBkpt} (hb : b ∈ l) (hc : c ∈ l) (hbare : bare b.address = bare c.address) : b = c := by
  have : Std.Symm fun b c : SessionBkpt => bare b.address ≠ bare c.address := ⟨fun _ _ h => h.symm⟩
  by_contra hne
  exact hnodup.forall hb hc hne hbare

/-! ### The invariant -/

/-- The records and the memory agree, and what was acknowledged has a record that stays. -/
structure BkptInv (orig : Mem) (y : DebugSystem) : Prop where
  aligned : ∀ b ∈ y.s.bkpts, Aligned (bare b.address)
  listed : ∀ b ∈ y.s.bkpts, y.s.mem (bare b.address) = BKPT ∧ b.instruction = orig (bare b.address)
  others : ∀ a, (∀ b ∈ y.s.bkpts, bare b.address ≠ a) → y.s.mem a = orig a
  nodup : y.s.bkpts.Pairwise fun b c => bare b.address ≠ bare c.address
  kept : ∀ a ∈ y.acked, ∃ b ∈ y.s.bkpts, b.address = a ∧ a &&& BKPT_ONE_SHOT = 0

namespace BkptInv

theorem sound (h : BkptInv orig y) : BreakpointsSound orig y := by
  refine ⟨fun b hb => ?_, h.others, h.nodup, fun hnil => ?_, fun a ha => ?_⟩
  · rw [(h.aligned b hb).load, (h.aligned b hb).load]
    exact h.listed b hb
  · funext a
    refine h.others a fun b hb => ?_
    rw [hnil] at hb
    cases hb
  · obtain ⟨b, hb, rfl, -⟩ := h.kept a ha
    exact ⟨b, hb, rfl⟩

theorem congr (h : BkptInv orig y) {y' : DebugSystem} (hbkpts : y'.s.bkpts = y.s.bkpts)
    (hmem : y'.s.mem = y.s.mem) (hacked : y'.acked = y.acked) : BkptInv orig y' := by
  refine ⟨?_, ?_, ?_, ?_, ?_⟩
  · rw [hbkpts]
    exact h.aligned
  · rw [hbkpts, hmem]
    exact h.listed
  · rw [hbkpts, hmem]
    exact h.others
  · rw [hbkpts]
    exact h.nodup
  · rw [hbkpts, hacked]
    exact h.kept

theorem insert (h : BkptInv orig y) {address : BitVec 32} (ha : Aligned (bare address))
    (hnew : ∀ b ∈ y.s.bkpts, bare b.address ≠ bare address) :
    BkptInv orig ⟨insertBkpt y.s address, y.acked⟩ := by
  have hword := h.others (bare address) hnew
  unfold insertBkpt
  rw [ha.store, ha.load]
  refine ⟨?_, ?_, fun a hother => ?_, List.pairwise_cons.mpr ⟨fun b hb heq => hnew b hb heq.symm, h.nodup⟩,
    fun a hacked => ?_⟩
  · rintro b (_ | ⟨_, hb⟩)
    · exact ha
    · exact h.aligned b hb
  · rintro b (_ | ⟨_, hb⟩)
    · exact ⟨Function.update_self _ _ _, hword⟩
    · dsimp only
      rw [Function.update_of_ne (hnew b hb)]
      exact h.listed b hb
  · dsimp only
    rw [Function.update_of_ne (hother _ List.mem_cons_self).symm]
    exact h.others a fun b hb => hother b (List.mem_cons_of_mem _ hb)
  · obtain ⟨b, hb, hkept⟩ := h.kept a hacked
    exact ⟨b, List.mem_cons_of_mem _ hb, hkept⟩

/-- **Setting a breakpoint**: afterwards there is a record, the one that was there or a new one. -/
theorem setBkpt (h : BkptInv orig y) {address : BitVec 32} (ha : Aligned (bare address)) :
    BkptInv orig ⟨(sessionSetBkptCb y.s address).1, y.acked⟩ ∧
      ((sessionSetBkptCb y.s address).2 = true →
        (∃ b, sessionFindBkpt y.s address = some b ∧ b ∈ (sessionSetBkptCb y.s address).1.bkpts) ∨
        ∃ b ∈ (sessionSetBkptCb y.s address).1.bkpts, b.address = address) := by
  unfold sessionSetBkptCb
  cases hfind : sessionFindBkpt y.s address with
  | some b =>
    rw [Option.isSome_some, if_pos rfl]
    exact ⟨h, fun _ => Or.inl ⟨b, rfl, (sessionFindBkpt_eq_some hfind).1⟩⟩
  | none =>
    have hnew := sessionFindBkpt_eq_none hfind
    rw [Option.isSome_none, if_neg Bool.false_ne_true]
    cases hfree : y.s.free_bkpts with
    | cons c free =>
      have hfreed : BkptInv orig ⟨{ y.s with free_bkpts := free }, y.acked⟩ := h.congr rfl rfl rfl
      exact ⟨hfreed.insert ha hnew, fun _ => Or.inr ⟨_, List.mem_cons_self, rfl⟩⟩
    | nil =>
      have hasked : BkptInv orig
          ⟨{ y.s with free_bkpts := [], malloc := fun n => y.s.malloc (n + 1) }, y.acked⟩ :=
        h.congr rfl rfl rfl
      dsimp only
      cases y.s.malloc 0 with
      | true => exact ⟨hasked.insert ha hnew, fun _ => Or.inr ⟨_, List.mem_cons_self, rfl⟩⟩
      | false => exact ⟨hasked, nofun⟩

theorem oneShot (h : BkptInv orig y) (ha : Aligned a) :
    BkptInv orig ⟨(sessionSetBkptCb y.s (a ||| BKPT_ONE_SHOT)).1, y.acked⟩ := by
  refine (h.setBkpt ?_).1
  rw [ha.bare_mark]
  exact ha

theorem clearBkpt (h : BkptInv orig y) (address : BitVec 32) {acked : List (BitVec 32)}
    (hacked : ∀ a ∈ acked, a ∈ y.acked ∧ ∀ b, sessionFindBkpt y.s address = some b → b.address ≠ a) :
    BkptInv orig ⟨(sessionClearBkptCb y.s address).1, acked⟩ := by
  unfold sessionClearBkptCb
  cases hfind : sessionFindBkpt y.s address with
  | none =>
    refine ⟨h.aligned, h.listed, h.others, h.nodup, fun a ha => h.kept a (hacked a ha).1⟩
  | some bkpt =>
    obtain ⟨hmem, hat⟩ := sessionFindBkpt_eq_some hfind
    have hword : Aligned (bare address) := hat ▸ h.aligned bkpt hmem
    have hiff := mem_eraseP_iff h.nodup address
    dsimp only
    change BkptInv orig ⟨{ y.s with
      bkpts := y.s.bkpts.eraseP fun b => b.isAt address
      free_bkpts := bkpt :: y.s.free_bkpts
      mem := y.s.mem.store (bare address) bkpt.instruction }, acked⟩
    rw [hword.store]
    refine ⟨fun b hb => h.aligned b ((hiff b).mp hb).1, fun b hb => ?_, fun a hother => ?_,
      h.nodup.sublist List.eraseP_sublist, fun a ha => ?_⟩
    · obtain ⟨hb, hne⟩ := (hiff b).mp hb
      dsimp only
      rw [Function.update_of_ne hne]
      exact h.listed b hb
    · dsimp only
      by_cases heq : a = bare address
      · rw [heq, Function.update_self, (h.listed bkpt hmem).2, hat]
      · rw [Function.update_of_ne heq]
        refine h.others a fun b hb hba => ?_
        -- a record for another address is still in the list
        exact hother b ((hiff b).mpr ⟨hb, fun hbare => heq (hba.symm.trans hbare)⟩) hba
    · obtain ⟨hold, hother⟩ := hacked a ha
      obtain ⟨b, hb, rfl, hunmarked⟩ := h.kept a hold
      refine ⟨b, (hiff b).mpr ⟨hb, fun hbare => hother bkpt hfind ?_⟩, rfl, hunmarked⟩
      exact congrArg SessionBkpt.address (eq_of_bare_eq h.nodup hmem hb (hat.trans hbare.symm))

theorem perform (h : BkptInv orig y) {op : DebugOp} (hkeeps : Keeps y.s op) : BkptInv orig (y.perform op) := by
  cases op with
  | set address =>
    obtain ⟨ha, hone⟩ := hkeeps
    have hbare := bare_of_unmarked ha.unmarked
    obtain ⟨hset, hrecord⟩ := h.setBkpt (hbare.symm ▸ ha)
    unfold DebugSystem.perform
    dsimp only
    cases hok : (sessionSetBkptCb y.s address).2 with
    | false => exact hset
    | true =>
      refine ⟨hset.aligned, hset.listed, hset.others, hset.nodup, fun a hacked => ?_⟩
      rcases List.mem_cons.mp hacked with rfl | hacked
      · rcases hrecord hok with ⟨b, hfind, hb⟩ | ⟨b, hb, heq⟩
        · -- the record that was there stays, as it is not one-shot
          have heq : bare b.address = bare a := (sessionFindBkpt_eq_some hfind).2
          rw [bare_of_unmarked (hone b hfind), hbare] at heq
          exact ⟨b, hb, heq, ha.unmarked⟩
        · exact ⟨b, hb, heq, ha.unmarked⟩
      · exact hset.kept a hacked
  | clear address =>
    refine h.clearBkpt address fun a hacked => ?_
    obtain ⟨hold, hne⟩ := List.mem_filter.mp hacked
    refine ⟨hold, fun b hfind heq => of_decide_eq_true hne ?_⟩
    rw [← heq]
    exact (sessionFindBkpt_eq_some hfind).2
  | step =>
    have hset := h.oneShot hkeeps
    unfold DebugSystem.perform sessionStepCb
    rcases hres : sessionSetBkptCb y.s (y.s.next ||| BKPT_ONE_SHOT) with ⟨s, ok⟩
    rw [hres] at hset
    cases ok with
    | false => exact hset
    | true => exact hset.congr rfl rfl rfl
  | «continue» => exact h.congr rfl rfl rfl
  | interrupt =>
    unfold DebugSystem.perform sessionBreakCb
    cases y.s.brk with
    | true => exact h
    | false =>
      cases hcurrent : y.s.current with
      | false => exact h.congr rfl rfl rfl
      | true =>
        have hset := h.oneShot (hkeeps hcurrent)
        rcases hres : sessionSetBkptCb y.s (y.s.cur_pc ||| BKPT_ONE_SHOT) with ⟨s, ok⟩
        rw [hres] at hset
        cases ok with
        | false => exact hset
        | true => exact hset.congr rfl rfl rfl
  | prePoll => exact h.congr rfl rfl rfl
  | postPoll =>
    have hcurrent : BkptInv orig ⟨{ y.s with current := true }, y.acked⟩ := h.congr rfl rfl rfl
    unfold DebugSystem.perform sessionPostPollHandler
    dsimp only
    split
    · next hbrk => exact hcurrent.oneShot (hkeeps hbrk)
    · exact hcurrent
  | hit =>
    unfold DebugSystem.perform sessionHandleBreak
    dsimp only
    split
    · exact h.congr rfl rfl rfl
    · cases hfind : sessionFindBkpt y.s y.s.regs.pc with
      | none => exact h.congr rfl rfl rfl
      | some bkpt =>
        dsimp only
        split
        · next hmarked =>
          -- what was acknowledged has no mark, so it is not the record that goes
          have hclear : BkptInv orig ⟨(sessionClearBkptCb y.s y.s.regs.pc).1, y.acked⟩ :=
            h.clearBkpt _ fun a hacked => ⟨hacked, fun b hb heq => by
              obtain ⟨-, -, -, hunmarked⟩ := h.kept a hacked
              obtain rfl := Option.some.inj (hfind.symm.trans hb)
              exact hmarked (heq ▸ hunmarked)⟩
          exact hclear.congr rfl rfl rfl
        · exact h.congr rfl rfl rfl
  | program regs cur_pc => exact h.congr rfl rfl rfl

theorem run (h : DebugRun Keeps orig y) : BkptInv orig y := by
  induction h with
  | initial hnil hmem =>
    refine ⟨?_, ?_, fun a _ => congrFun hmem a, ?_, nofun⟩
    · rw [hnil]
      exact nofun
    · rw [hnil]
      exact nofun
    · rw [hnil]
      exact List.Pairwise.nil
  | step op _ hkeeps ih => exact ih.perform hkeeps

end BkptInv

/-- **Breakpoints stay.** In a run in which no breakpoint is set where a one-shot one is, and with addresses that
are multiples of 4, the memory and the list are as expected. -/
theorem debugRun_sound (h : DebugRun Keeps orig y) : BreakpointsSound orig y := (BkptInv.run h).sound

abbrev toSecond : DebugOp := .program (fun n => if n = 15 then 0x8004 else 0) 0

theorem debugRun_sound_step :
    BreakpointsSound stopped.mem
      ([.set 0x8008, .step, toSecond, .hit, .clear 0x8008].foldl DebugSystem.perform ⟨stopped, []⟩) := by
  refine debugRun_sound (.step (.clear 0x8008) (.step .hit (.step toSecond (.step .step
    (.step (.set 0x8008) (.initial (s := stopped) rfl rfl) ?_) ?_) trivial) trivial) trivial)
  · exact ⟨by decide, fun _ hfind => absurd hfind nofun⟩
  · unfold Keeps
    decide

theorem set_oneShot_hit :
    ¬∀ (orig : Mem) (y : DebugSystem), DebugRun (fun _ _ => True) orig y → BreakpointsSound orig y := by
  intro h
  have hrun := DebugRun.step .hit (.step toSecond (.step .continue (.step (.set 0x8004) (.step .step
    (DebugRun.initial (s := stopped) (P := fun _ _ => True) rfl rfl) trivial) trivial) trivial) trivial) trivial
  obtain ⟨b, hb, -⟩ := (h _ _ hrun).kept 0x8004 (by decide)
  exact absurd (List.ne_nil_of_mem hb) (by decide)

end GdbServer
