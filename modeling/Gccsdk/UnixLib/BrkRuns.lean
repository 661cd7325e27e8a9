import Gccsdk.UnixLib.Brk

/-!
# Runs of the memory break

Runs of `brk`, `sbrk`, `__internal_sbrk` and `__stackalloc_incr_wimpslot` with any arguments and any answers of
the operating system. `BrkSystem` keeps, with the bounds, the regions that `__internal_sbrk` has handed out and
those of the stack. A region is given back when `brk` or `sbrk` moves the break below its end: the library
honours such a request, so the memory is handed out again.

The bounds are right in every run (`BreakSound`). A call that fails leaves them, and the regions do not overlap
(`brkRun_sound`), where no increment runs past the top of the address space (`InRange`): the sums are not
checked for overflow, and the end of what is asked for would come out below its start.
-/

namespace UnixLib

open Address (Span)

inductive BrkCall
  | brk (addr : BitVec 32)
  | sbrk (delta : BitVec 32)
  | internalSbrk (incr : BitVec 32)
  | incrWimpslot (incr : BitVec 32)
  deriving DecidableEq, Repr

/-- What a call does, and its result; `none` is -1, or 0 from `__stackalloc_incr_wimpslot`. -/
def BrkCall.run (os : MemOs) (s : BrkState) : BrkCall → BrkState × Option (BitVec 32)
  | .brk addr => UnixLib.brk os addr s
  | .sbrk delta => UnixLib.sbrk os delta s
  | .internalSbrk incr => UnixLib.internalSbrk os incr s
  | .incrWimpslot incr =>
    let (s, himem) := UnixLib.incrWimpslot os incr s
    (s, if himem = 0 then none else some himem)

def BrkState.theBreak (s : BrkState) : BitVec 32 :=
  if s.dynamic_num = -1 then s.mem.rwbreak else s.mem.dabreak

/-- The region is not given back: it is above the stack, or below the break. -/
def Keeps (s : BrkState) (r : Span) : Prop :=
  (s.dynamic_num = -1 ∧ s.mem.stack.toNat ≤ r.start) ∨ r.stop ≤ s.theBreak.toNat

instance (s : BrkState) (r : Span) : Decidable (Keeps s r) := inferInstanceAs (Decidable (_ ∨ _))

structure BrkSystem where
  state : BrkState
  /-- What `__internal_sbrk` returned for positive increments, and was not given back since. -/
  held : List Span
  chunks : List Span

def BrkSystem.call (os : MemOs) (c : BrkCall) (y : BrkSystem) : BrkSystem :=
  let (s, result) := c.run os y.state
  match c, result with
  | .internalSbrk incr, some start =>
    { y with state := s,
             held := if incr = 0 then y.held else ⟨start.toNat, start.toNat + incr.toNat⟩ :: y.held }
  | .incrWimpslot incr, some _ =>
    let himem := y.state.mem.appspace_himem.toNat
    { y with state := s, chunks := ⟨himem, himem + incr.toNat⟩ :: y.chunks }
  | .brk _, some _ => { y with state := s, held := y.held.filter (Keeps s) }
  | .sbrk _, some _ => { y with state := s, held := y.held.filter (Keeps s) }
  | _, none => { y with state := s }

/-- The bounds at the start of a program: nothing is allocated, the stack is word-aligned, and a dynamic area is
above the application space. -/
structure BrkInitial (s : BrkState) : Prop where
  rwbreak : s.mem.rwbreak = s.mem.rwlomem
  stack_limit : s.mem.stack_limit = s.mem.rwlomem
  rwlomem_le : s.mem.rwlomem ≤ s.mem.stack
  stack_aligned : s.mem.stack.toNat % 4 = 0
  stack_le : s.mem.stack ≤ s.mem.appspace_himem
  himem_le : s.mem.appspace_himem ≤ s.mem.appspace_limit
  overstack : s.overstack = false
  limit_le : s.dynamic_num ≠ -1 → s.mem.appspace_limit ≤ s.mem.dalomem ∧ 0x8000 ≤ s.mem.dalomem
  dabreak : s.dynamic_num ≠ -1 → s.mem.dalomem ≤ s.mem.dabreak ∧ s.mem.dabreak = s.mem.dalimit
  areaEnd : s.dynamic_num ≠ -1 → s.mem.dalimit = s.areaEnd

/-- Runs all of whose calls are as `P` says. -/
inductive BrkRun (P : BrkState → BrkCall → Prop) : BrkSystem → Prop
  | initial {s : BrkState} : BrkInitial s →
    BrkRun P ⟨s, [], [⟨s.mem.stack.toNat, s.mem.appspace_himem.toNat⟩]⟩
  | call {y : BrkSystem} (os : MemOs) (c : BrkCall) : BrkRun P y → P y.state c → BrkRun P (y.call os c)

/-! ### What is expected -/

/-- **The bounds.** -/
structure BreakSound (s : BrkState) : Prop where
  rwlomem_le : s.mem.rwlomem ≤ s.mem.stack_limit
  stack_limit_le : s.mem.stack_limit ≤ s.mem.stack
  himem_le : s.mem.appspace_himem ≤ s.mem.appspace_limit
  dalomem_le : s.dynamic_num ≠ -1 → s.mem.dalomem ≤ s.mem.dabreak
  dabreak_le : s.dynamic_num ≠ -1 → s.mem.dabreak ≤ s.mem.dalimit
  areaEnd : s.dynamic_num ≠ -1 → s.mem.dalimit = s.areaEnd

/-- The increment does not run past the top of the address space, nor does its end when it is rounded up. -/
def InRange (s : BrkState) : BrkCall → Prop
  | .internalSbrk incr => (s.internalBase incr).toNat + incr.toNat + 3 < 2 ^ 32
  | .incrWimpslot incr => s.mem.appspace_himem.toNat + incr.toNat < 2 ^ 32
  | _ => True

/-! ### What each call can do -/

variable {os : MemOs} {s s' : BrkState} {y : BrkSystem} {addr incr : BitVec 32}
  {r : Option (BitVec 32)}

theorem incrWimpslot_cases (os : MemOs) (incr : BitVec 32) (s : BrkState) :
    incrWimpslot os incr s = (s, 0) ∨
      ∃ limit, incrWimpslot os incr s =
          ({ s with mem.appspace_himem := s.mem.appspace_himem + incr,
                    mem.appspace_limit := limit }, s.mem.appspace_himem + incr) ∧
        s.mem.appspace_himem + incr ≤ limit ∧
        (limit = s.mem.appspace_limit ∨ s.mem.appspace_limit < s.mem.appspace_himem + incr ∧
          (s.dynamic_num = -1 ∨ limit ≤ s.mem.dalomem)) := by
  unfold incrWimpslot
  split
  · rename_i hle
    exact Or.inr ⟨s.mem.appspace_limit, rfl, hle, Or.inl rfl⟩
  · rename_i hgt
    unfold sulWimpslot
    cases os.slot with
    | failed => exact Or.inl rfl
    | unchanged =>
      have hlt : s.mem.appspace_limit < s.mem.appspace_himem + incr := BitVec.not_le.mp hgt
      dsimp only
      by_cases hzero : s.mem.appspace_limit = 0
      · rw [if_pos hzero]
        exact Or.inl rfl
      · rw [if_neg hzero, if_pos hlt]
        exact Or.inl rfl
    | granted =>
      dsimp only
      by_cases hroom : s.dynamic_num ≠ -1 ∧
          s.mem.dalomem < align32K (s.mem.appspace_himem + incr)
      · rw [if_pos hroom]
        exact Or.inl rfl
      · rw [if_neg hroom]
        by_cases hzero : align32K (s.mem.appspace_himem + incr) = 0
        · rw [if_pos hzero]
          exact Or.inl rfl
        · -- rounded up to something, it is not less than it was
          have hround : s.mem.appspace_himem + incr ≤ align32K (s.mem.appspace_himem + incr) := by
            have hnat := toNat_align32K (s.mem.appspace_himem + incr)
            have hne : (align32K (s.mem.appspace_himem + incr)).toNat ≠ 0 := fun h =>
              hzero (BitVec.eq_of_toNat_eq h)
            rw [BitVec.le_def]
            omega
          rw [if_neg hzero, if_neg (BitVec.not_lt.mpr hround)]
          refine Or.inr ⟨_, rfl, hround, Or.inr ⟨BitVec.not_le.mp hgt, ?_⟩⟩
          by_cases hdyn : s.dynamic_num = -1
          · exact Or.inl hdyn
          · exact Or.inr (BitVec.not_lt.mp fun hlt => hroom ⟨hdyn, hlt⟩)

theorem brkRw_cases (os : MemOs) (addr : BitVec 32) (internal : Bool) (s : BrkState) :
    (∃ e, brkRw os addr internal s = setErrno e s) ∨
      (brkRw os addr internal s =
          ({ s with mem.stack_limit := align addr, mem.rwbreak := align addr }, some 0) ∧
        s.mem.rwlomem ≤ align addr ∧ align addr ≤ s.mem.stack) ∨
      (internal = true ∧ s.mem.stack < align addr ∧
        ∃ limit, brkRw os addr internal s =
            ({ s with mem.appspace_himem := align addr, mem.appspace_limit := limit,
                      mem.rwbreak := align addr }, some 0) ∧
          align addr ≤ limit ∧
          (limit = s.mem.appspace_limit ∨ s.dynamic_num = -1 ∨ limit ≤ s.mem.dalomem)) := by
  unfold brkRw
  dsimp only
  generalize align addr = a
  by_cases hlow : a < s.mem.rwlomem
  · rw [if_pos hlow]
    exact Or.inl ⟨_, rfl⟩
  · rw [if_neg hlow]
    by_cases hover : s.mem.stack < a
    · rw [if_pos hover]
      cases internal with
      | false => exact Or.inl ⟨_, rfl⟩
      | true =>
        rw [if_neg (not_not.mpr rfl)]
        have hsum : s.mem.appspace_himem + (a - s.mem.appspace_himem) = a := by
          rw [BitVec.add_comm, BitVec.sub_add_cancel]
        rcases incrWimpslot_cases os (a - s.mem.appspace_himem) s with h | ⟨limit, h, hle, hlimit⟩
        · rw [h]
          exact Or.inl ⟨.ENOMEM, rfl⟩
        · rw [hsum] at h hle
          -- it is above the stack, so it is not 0
          have hne : a ≠ 0 := by
            rintro rfl
            exact absurd hover (by rw [BitVec.lt_def]; exact Nat.not_lt_zero _)
          rw [h]
          dsimp only
          rw [if_neg hne]
          exact Or.inr (Or.inr ⟨rfl, hover, limit, rfl, hle, hlimit.imp_right And.right⟩)
    · rw [if_neg hover]
      exact Or.inr (Or.inl ⟨rfl, BitVec.not_lt.mp hlow, BitVec.not_lt.mp hover⟩)

theorem slt_zero_iff (x : BitVec 32) : x.slt 0 = true ↔ 2 ^ 31 ≤ x.toNat := by
  change x.slt 0#32 = true ↔ _
  rw [BitVec.slt_zero_iff_msb_cond, BitVec.msb_eq_decide, decide_eq_true_iff]

theorem of_zero_slt {x : BitVec 32} (h : (0 : BitVec 32).slt x = true) :
    0 < x.toNat ∧ x.toNat < 2 ^ 31 := by
  change (0#32).slt x = true at h
  rw [BitVec.slt_eq_decide, decide_eq_true_iff, BitVec.toInt_zero, BitVec.toInt_eq_toNat_cond] at h
  split at h <;> omega

theorem osChangeDynamicArea_grow (os : MemOs) {a : BitVec 32} (ha : a.toNat + 4 ≤ 2 ^ 32)
    (hbase : 0x8000 ≤ s.mem.dalomem) (hle : s.mem.dalomem ≤ s.mem.dalimit)
    (hend : s.mem.dalimit = s.areaEnd) (hlt : s.mem.dalimit < a) :
    osChangeDynamicArea os (align32K (a - s.mem.dalimit)) s = (s, true, 0) ∨
      ∃ moved, osChangeDynamicArea os (align32K (a - s.mem.dalimit)) s =
          ({ s with areaEnd := s.mem.dalimit + moved }, false, moved) ∧
        a ≤ s.mem.dalimit + moved := by
  have hround := toNat_align32K (a - s.mem.dalimit)
  generalize align32K (a - s.mem.dalimit) = amount at hround ⊢
  rw [BitVec.le_def] at hbase hle
  rw [BitVec.lt_def] at hlt
  rw [BitVec.toNat_sub_of_le (BitVec.le_def.mpr (Nat.le_of_lt hlt))] at hround
  have hlow : (0x8000 : BitVec 32).toNat = 0x8000 := rfl
  have hmax := a.isLt
  -- there is room for the rounding, since the area is not at the bottom of memory
  rw [Nat.mod_eq_of_lt (by omega)] at hround
  unfold osChangeDynamicArea
  by_cases hgrant : os.areaGranted ∧ s.AreaFits amount
  · rw [if_pos hgrant]
    have hpos : amount.slt 0 = false := by
      rw [Bool.eq_false_iff]
      intro hneg
      -- a shrink by so much is more than the area is
      have hfit := hgrant.2.1 hneg
      have hbig := (slt_zero_iff amount).mp hneg
      rw [← hend, BitVec.le_def, BitVec.toNat_sub_of_le (BitVec.le_def.mpr hle), BitVec.toNat_neg,
        Nat.mod_eq_of_lt (by omega)] at hfit
      omega
    have hfit := hgrant.2.2 hpos
    rw [hpos, if_neg Bool.false_ne_true, ← hend]
    refine Or.inr ⟨amount, rfl, ?_⟩
    rw [← hend] at hfit
    rw [BitVec.le_def, BitVec.toNat_add, Nat.mod_eq_of_lt hfit]
    omega
  · rw [if_neg hgrant]
    exact Or.inl rfl

theorem brkDaMove_eq (os : MemOs) {a : BitVec 32} (hle : a ≤ s.mem.dalimit)
    (hend : s.mem.dalimit = s.areaEnd) :
    ∃ limit, brkDaMove os a s =
        { s with mem.dabreak := a, mem.dalimit := limit, areaEnd := limit } ∧ a ≤ limit := by
  have hsame : { s with mem.dabreak := a } =
      { s with mem.dabreak := a, mem.dalimit := s.mem.dalimit, areaEnd := s.mem.dalimit } :=
    congrArg (fun e => { s with mem.dabreak := a, areaEnd := e }) hend.symm
  unfold brkDaMove
  split
  · exact ⟨s.mem.dalimit, hsame, hle⟩
  · dsimp only
    have hdown := toNat_down32K (s.mem.dalimit - a)
    rw [BitVec.toNat_sub_of_le hle] at hdown
    generalize (s.mem.dalimit - a) &&& ~~~DA_WIMPSLOT_ALIGNMENT = amount at hdown ⊢
    rw [BitVec.le_def] at hle
    by_cases hpos : (0 : BitVec 32).slt amount = true
    · rw [if_pos hpos]
      unfold osChangeDynamicArea
      split
      · -- the area is made smaller by less than what is above the break
        have hneg : (-amount).slt 0 = true := by
          rw [slt_zero_iff, BitVec.toNat_neg]
          have hsmall := of_zero_slt hpos
          omega
        rw [if_pos hneg, BitVec.neg_neg]
        refine ⟨s.mem.dalimit - amount, ?_, ?_⟩
        · rw [hend, ← BitVec.sub_eq_add_neg]
        · rw [BitVec.le_def, BitVec.toNat_sub_of_le (BitVec.le_def.mpr (by omega))]
          omega
      · refine ⟨s.mem.dalimit, ?_, BitVec.le_def.mpr hle⟩
        have hzero : s.mem.dalimit - (0 : BitVec 32) = s.mem.dalimit := BitVec.sub_zero _
        dsimp only
        rw [hzero]
        exact hsame
    · rw [if_neg hpos]
      exact ⟨s.mem.dalimit, hsame, BitVec.le_def.mpr hle⟩

theorem brkDa_cases (os : MemOs) (addr : BitVec 32) (hbase : 0x8000 ≤ s.mem.dalomem)
    (hle : s.mem.dalomem ≤ s.mem.dabreak) (hlimit : s.mem.dabreak ≤ s.mem.dalimit)
    (hend : s.mem.dalimit = s.areaEnd) :
    (∃ e, brkDa os addr s = setErrno e s) ∨
      ∃ limit, brkDa os addr s =
          ({ s with mem.dabreak := align addr, mem.dalimit := limit, areaEnd := limit }, some 0) ∧
        s.mem.dalomem ≤ align addr ∧ align addr ≤ limit := by
  have ha : (align addr).toNat + 4 ≤ 2 ^ 32 := by
    have hnat := toNat_align addr
    have hmax := (align addr).isLt
    omega
  unfold brkDa
  dsimp only
  generalize align addr = a at ha ⊢
  by_cases hlow : a < s.mem.dalomem
  · rw [if_pos hlow]
    exact Or.inl ⟨_, rfl⟩
  · rw [if_neg hlow]
    by_cases hgrow : s.mem.dalimit < a
    · rw [if_pos hgrow]
      rcases osChangeDynamicArea_grow os ha hbase (BitVec.le_trans hle hlimit) hend hgrow with
        h | ⟨moved, h, hroom⟩
      · rw [h]
        exact Or.inl ⟨.ENOMEM, rfl⟩
      · rw [h]
        dsimp only
        obtain ⟨limit, hmove, habove⟩ := @brkDaMove_eq
          { s with mem.dalimit := s.mem.dalimit + moved, areaEnd := s.mem.dalimit + moved } os a hroom rfl
        rw [hmove]
        exact Or.inr ⟨limit, rfl, BitVec.not_lt.mp hlow, habove⟩
    · rw [if_neg hgrow]
      obtain ⟨limit, hmove, habove⟩ := @brkDaMove_eq s os a (BitVec.not_lt.mp hgrow) hend
      rw [hmove]
      exact Or.inr ⟨limit, rfl, BitVec.not_lt.mp hlow, habove⟩

theorem sbrk_eq (os : MemOs) (delta : BitVec 32) (s : BrkState) :
    (delta = 0 ∧ (sbrk os delta s).1 = s ∧ (sbrk os delta s).2 ≠ none) ∨
      ((sbrk os delta s).1 = (brk os (s.theBreak + delta) s).1 ∧
        ((sbrk os delta s).2 = none ↔ (brk os (s.theBreak + delta) s).2 = none)) := by
  unfold sbrk brk BrkState.theBreak
  by_cases hdyn : s.dynamic_num = -1
  · rw [if_pos hdyn, if_pos hdyn, if_pos hdyn]
    dsimp only
    by_cases hzero : delta = 0
    · rw [if_neg (not_not.mpr hzero)]
      exact Or.inl ⟨hzero, rfl, nofun⟩
    · rw [if_pos hzero]
      rcases brkRw os (s.mem.rwbreak + delta) false s with ⟨s', _ | r⟩
      · exact Or.inr ⟨rfl, Iff.rfl⟩
      · exact Or.inr ⟨rfl, ⟨nofun, nofun⟩⟩
  · rw [if_neg hdyn, if_neg hdyn, if_neg hdyn]
    dsimp only
    by_cases hzero : delta = 0
    · rw [if_neg (not_not.mpr hzero)]
      exact Or.inl ⟨hzero, rfl, nofun⟩
    · rw [if_pos hzero]
      rcases brkDa os (s.mem.dabreak + delta) s with ⟨s', _ | r⟩
      · exact Or.inr ⟨rfl, Iff.rfl⟩
      · exact Or.inr ⟨rfl, ⟨nofun, nofun⟩⟩

/-! ### The bounds, in any run -/

/-- The bounds are right, and a dynamic area is not at the bottom of memory. -/
structure BreakInv (s : BrkState) : Prop extends BreakSound s where
  base_le : s.dynamic_num ≠ -1 → 0x8000 ≤ s.mem.dalomem

namespace BreakInv

theorem initial (h : BrkInitial s) : BreakInv s := by
  refine ⟨⟨?_, ?_, h.himem_le, fun hdyn => (h.dabreak hdyn).1, fun hdyn => ?_, h.areaEnd⟩,
    fun hdyn => (h.limit_le hdyn).2⟩
  · rw [h.stack_limit]
    exact BitVec.le_refl _
  · rw [h.stack_limit]
    exact h.rwlomem_le
  · rw [(h.dabreak hdyn).2]
    exact BitVec.le_refl _

theorem errno (h : BreakInv s) (e : Option BrkErrno) : BreakInv { s with errno := e } :=
  ⟨⟨h.rwlomem_le, h.stack_limit_le, h.himem_le, h.dalomem_le, h.dabreak_le, h.areaEnd⟩, h.base_le⟩

theorem overstack (h : BreakInv s) (b : Bool) : BreakInv { s with overstack := b } :=
  ⟨⟨h.rwlomem_le, h.stack_limit_le, h.himem_le, h.dalomem_le, h.dabreak_le, h.areaEnd⟩, h.base_le⟩

theorem incrWimpslot (h : BreakInv s) (os : MemOs) (incr : BitVec 32) :
    BreakInv (incrWimpslot os incr s).1 := by
  rcases incrWimpslot_cases os incr s with hcall | ⟨limit, hcall, hle, -⟩
  · rw [hcall]
    exact h
  · rw [hcall]
    exact ⟨⟨h.rwlomem_le, h.stack_limit_le, hle, h.dalomem_le, h.dabreak_le, h.areaEnd⟩, h.base_le⟩

theorem brkRw (h : BreakInv s) (os : MemOs) (addr : BitVec 32) (internal : Bool) :
    BreakInv (brkRw os addr internal s).1 := by
  rcases brkRw_cases os addr internal s with ⟨e, hcall⟩ | ⟨hcall, hlow, hhigh⟩ |
    ⟨-, -, limit, hcall, hle, -⟩
  · rw [hcall]
    exact h.errno (some e)
  · rw [hcall]
    exact ⟨⟨hlow, hhigh, h.himem_le, h.dalomem_le, h.dabreak_le, h.areaEnd⟩, h.base_le⟩
  · rw [hcall]
    exact ⟨⟨h.rwlomem_le, h.stack_limit_le, hle, h.dalomem_le, h.dabreak_le, h.areaEnd⟩, h.base_le⟩

theorem brkDa_cases (h : BreakInv s) (hdyn : s.dynamic_num ≠ -1) (os : MemOs) (addr : BitVec 32) :
    (∃ e, UnixLib.brkDa os addr s = setErrno e s) ∨
      ∃ limit, UnixLib.brkDa os addr s =
          ({ s with mem.dabreak := align addr, mem.dalimit := limit, areaEnd := limit }, some 0) ∧
        s.mem.dalomem ≤ align addr ∧ align addr ≤ limit :=
  UnixLib.brkDa_cases os addr (h.base_le hdyn) (h.dalomem_le hdyn) (h.dabreak_le hdyn)
    (h.areaEnd hdyn)

theorem brkDa (h : BreakInv s) (hdyn : s.dynamic_num ≠ -1) (os : MemOs) (addr : BitVec 32) :
    BreakInv (brkDa os addr s).1 := by
  rcases h.brkDa_cases hdyn os addr with ⟨e, hcall⟩ | ⟨limit, hcall, hlow, hhigh⟩
  · rw [hcall]
    exact h.errno (some e)
  · rw [hcall]
    exact ⟨⟨h.rwlomem_le, h.stack_limit_le, h.himem_le, fun _ => hlow, fun _ => hhigh, fun _ => rfl⟩,
      h.base_le⟩

theorem brk (h : BreakInv s) (os : MemOs) (addr : BitVec 32) : BreakInv (brk os addr s).1 := by
  unfold UnixLib.brk
  by_cases hdyn : s.dynamic_num = -1
  · rw [if_pos hdyn]
    exact h.brkRw os addr false
  · rw [if_neg hdyn]
    exact h.brkDa hdyn os addr

theorem sbrk (h : BreakInv s) (os : MemOs) (delta : BitVec 32) : BreakInv (sbrk os delta s).1 := by
  rcases sbrk_eq os delta s with ⟨-, hsame, -⟩ | ⟨hbrk, -⟩
  · rw [hsame]
    exact h
  · rw [hbrk]
    exact h.brk os _

end BreakInv

/-- What `__internal_sbrk` can do. -/
inductive InternalStep (os : MemOs) (incr : BitVec 32) (s : BrkState) :
    BrkState × Option (BitVec 32) → Prop
  | negative : incr.slt 0 = true → InternalStep os incr s (s, none)
  | nothing (b : Bool) : incr = 0 → (b = false → s.overstack = false) →
    InternalStep os incr s ({ s with overstack := b }, some (s.internalBase incr))
  | rwFails (b : Bool) (s' : BrkState) : s.dynamic_num = -1 → (b = true ↔ s.Over incr) →
    brkRw os (s.internalBase incr + incr) true { s with overstack := b } = (s', none) →
    InternalStep os incr s (s', none)
  | rw (b : Bool) (s' : BrkState) (v : BitVec 32) : s.dynamic_num = -1 → incr ≠ 0 →
    (b = true ↔ s.Over incr) →
    brkRw os (s.internalBase incr + incr) true { s with overstack := b } = (s', some v) →
    InternalStep os incr s (s', some (s.internalBase incr))
  | daFails (s' : BrkState) : s.dynamic_num ≠ -1 →
    brkDa os (s.internalBase incr + incr) s = (s', none) → InternalStep os incr s (s', none)
  | da (s' : BrkState) (v : BitVec 32) : s.dynamic_num ≠ -1 → incr ≠ 0 →
    brkDa os (s.internalBase incr + incr) s = (s', some v) →
    InternalStep os incr s (s', some (s.internalBase incr))

theorem internalSbrk_step (os : MemOs) (incr : BitVec 32) (s : BrkState) :
    InternalStep os incr s (internalSbrk os incr s) := by
  unfold internalSbrk
  dsimp only
  by_cases hneg : incr.slt 0 = true
  · rw [if_pos hneg]
    exact .negative hneg
  · rw [if_neg hneg]
    by_cases hdyn : s.dynamic_num = -1
    · rw [if_pos hdyn]
      obtain ⟨b, hb, hover, hstay⟩ : ∃ b, (if s.Over incr then { s with overstack := true } else s) =
          { s with overstack := b } ∧ (b = true ↔ s.Over incr) ∧
          (b = false → s.overstack = false) := by
        by_cases hover : s.Over incr
        · exact ⟨true, if_pos hover, iff_of_true rfl hover, nofun⟩
        · exact ⟨s.overstack, if_neg hover, iff_of_false (fun h => hover (Or.inl h)) hover, id⟩
      rw [hb]
      by_cases hzero : incr = 0
      · rw [if_neg (not_not.mpr hzero)]
        exact .nothing b hzero hstay
      · rw [if_pos hzero]
        rcases hcall : brkRw os (s.internalBase incr + incr) true { s with overstack := b } with
          ⟨s', _ | v⟩
        · exact .rwFails b s' hdyn hover hcall
        · exact .rw b s' v hdyn hzero hover hcall
    · rw [if_neg hdyn]
      by_cases hzero : incr = 0
      · rw [if_neg (not_not.mpr hzero)]
        exact .nothing s.overstack hzero id
      · rw [if_pos hzero]
        rcases hcall : brkDa os (s.internalBase incr + incr) s with ⟨s', _ | v⟩
        · exact .daFails s' hdyn hcall
        · exact .da s' v hdyn hzero hcall

namespace BreakInv

theorem internalSbrk (h : BreakInv s) (os : MemOs) (incr : BitVec 32) :
    BreakInv (internalSbrk os incr s).1 := by
  have hstep := internalSbrk_step os incr s
  generalize UnixLib.internalSbrk os incr s = z at hstep
  cases hstep with
  | negative => exact h
  | nothing b => exact h.overstack b
  | rwFails b s' hdyn hover hcall =>
    have hinv := (h.overstack b).brkRw os (s.internalBase incr + incr) true
    rw [hcall] at hinv
    exact hinv
  | rw b s' v hdyn hzero hover hcall =>
    have hinv := (h.overstack b).brkRw os (s.internalBase incr + incr) true
    rw [hcall] at hinv
    exact hinv
  | daFails s' hdyn hcall =>
    have hinv := h.brkDa hdyn os (s.internalBase incr + incr)
    rw [hcall] at hinv
    exact hinv
  | da s' v hdyn hzero hcall =>
    have hinv := h.brkDa hdyn os (s.internalBase incr + incr)
    rw [hcall] at hinv
    exact hinv

theorem call (h : BreakInv s) (os : MemOs) (c : BrkCall) : BreakInv (c.run os s).1 := by
  cases c with
  | brk addr => exact h.brk os addr
  | sbrk delta => exact h.sbrk os delta
  | internalSbrk incr => exact h.internalSbrk os incr
  | incrWimpslot incr => exact h.incrWimpslot os incr

end BreakInv

theorem BrkSystem.call_state (os : MemOs) (c : BrkCall) (y : BrkSystem) :
    (y.call os c).state = (c.run os y.state).1 := by
  unfold BrkSystem.call
  dsimp only
  split <;> rfl

theorem BreakInv.run {P : BrkState → BrkCall → Prop} (h : BrkRun P y) : BreakInv y.state := by
  induction h with
  | initial h => exact initial h
  | call os c _ _ ih =>
    rw [BrkSystem.call_state]
    exact ih.call os c

/-! ### A call that fails -/

structure SameBounds (s s' : BrkState) : Prop where
  mem : s'.mem = s.mem
  areaEnd : s'.areaEnd = s.areaEnd

theorem brkRw_fails {internal : Bool} (h : (brkRw os addr internal s).2 = none) :
    SameBounds s (brkRw os addr internal s).1 := by
  rcases brkRw_cases os addr internal s with ⟨e, hcall⟩ | ⟨hcall, -, -⟩ | ⟨-, -, limit, hcall, -, -⟩
  · rw [hcall]
    exact ⟨rfl, rfl⟩
  · rw [hcall] at h
    cases h
  · rw [hcall] at h
    cases h

theorem brkDa_fails (hinv : BreakInv s) (hdyn : s.dynamic_num ≠ -1)
    (h : (brkDa os addr s).2 = none) : SameBounds s (brkDa os addr s).1 := by
  rcases hinv.brkDa_cases hdyn os addr with ⟨e, hcall⟩ | ⟨limit, hcall, -, -⟩
  · rw [hcall]
    exact ⟨rfl, rfl⟩
  · rw [hcall] at h
    cases h

theorem brk_fails (hinv : BreakInv s) (h : (brk os addr s).2 = none) :
    SameBounds s (brk os addr s).1 := by
  unfold brk at h ⊢
  by_cases hdyn : s.dynamic_num = -1
  · rw [if_pos hdyn] at h ⊢
    exact brkRw_fails h
  · rw [if_neg hdyn] at h ⊢
    exact brkDa_fails hinv hdyn h

theorem incrWimpslot_fails (hrange : InRange s (.incrWimpslot incr))
    (h : (BrkCall.run os s (.incrWimpslot incr)).2 = none) :
    SameBounds s (BrkCall.run os s (.incrWimpslot incr)).1 := by
  change (if (incrWimpslot os incr s).2 = 0 then none else some (incrWimpslot os incr s).2) = none at h
  change SameBounds s (incrWimpslot os incr s).1
  rcases incrWimpslot_cases os incr s with hcall | ⟨limit, hcall, hle, hlimit⟩
  · rw [hcall]
    exact ⟨rfl, rfl⟩
  · rw [hcall] at h
    by_cases hsum : s.mem.appspace_himem + incr = 0
    · -- the sum is 0 only where both are, and then nothing is extended
      have hnat := congrArg BitVec.toNat hsum
      rw [BitVec.toNat_add, Nat.mod_eq_of_lt hrange] at hnat
      have hhimem : s.mem.appspace_himem = 0 :=
        BitVec.eq_of_toNat_eq (Nat.eq_zero_of_add_eq_zero hnat).1
      have hsame : limit = s.mem.appspace_limit :=
        hlimit.resolve_right fun hlt => absurd hlt.1 (by rw [hsum]; exact Nat.not_lt_zero _)
      rw [hcall]
      refine ⟨?_, rfl⟩
      dsimp only
      rw [hsum, ← hhimem, hsame]
    · rw [if_neg hsum] at h
      cases h

theorem internalSbrk_fails (hinv : BreakInv s) (h : (internalSbrk os incr s).2 = none) :
    SameBounds s (internalSbrk os incr s).1 := by
  have hstep := internalSbrk_step os incr s
  generalize internalSbrk os incr s = z at hstep h
  cases hstep with
  | negative => exact ⟨rfl, rfl⟩
  | nothing => cases h
  | rwFails b s' _ _ hcall =>
    -- only the mark that it went above the stack stays
    obtain ⟨hmem, hend⟩ := brkRw_fails (congrArg Prod.snd hcall)
    rw [hcall] at hmem hend
    exact ⟨hmem, hend⟩
  | rw => cases h
  | daFails s' hdyn hcall =>
    have hsame := brkDa_fails hinv hdyn (congrArg Prod.snd hcall)
    rw [hcall] at hsame
    exact hsame
  | da => cases h

theorem call_fails (hinv : BreakInv s) {c : BrkCall} (hrange : InRange s c)
    (h : (c.run os s).2 = none) : SameBounds s (c.run os s).1 := by
  cases c with
  | brk addr => exact brk_fails hinv h
  | sbrk delta =>
    change (sbrk os delta s).2 = none at h
    change SameBounds s (sbrk os delta s).1
    rcases sbrk_eq os delta s with ⟨-, -, hsome⟩ | ⟨hbrk, hnone⟩
    · exact absurd h hsome
    · rw [hbrk]
      exact brk_fails hinv (hnone.mp h)
  | internalSbrk incr => exact internalSbrk_fails hinv h
  | incrWimpslot incr => exact incrWimpslot_fails hrange h

/-! ### The regions -/

/-- The regions in use are where they should be, and do not overlap. -/
structure RegionInv (y : BrkSystem) : Prop where
  inv : BreakInv y.state
  stack_aligned : y.state.mem.stack.toNat % 4 = 0
  stack_le : y.state.mem.stack ≤ y.state.mem.appspace_himem
  limit_le : y.state.dynamic_num ≠ -1 → y.state.mem.appspace_limit ≤ y.state.mem.dalomem
  /-- As long as nothing was above the stack, the stack may come down to the break. -/
  break_eq : y.state.overstack = false → y.state.mem.rwbreak = y.state.mem.stack_limit
  nonempty : ∀ r ∈ y.held, r.start < r.stop
  /-- A region in application space is below the stack or above it. -/
  held : y.state.dynamic_num = -1 → ∀ r ∈ y.held, r.stop ≤ y.state.mem.stack_limit.toNat ∨
    (y.state.mem.stack.toNat ≤ r.start ∧ r.stop ≤ y.state.mem.appspace_himem.toNat)
  heldDa : y.state.dynamic_num ≠ -1 → ∀ r ∈ y.held,
    y.state.mem.dalomem.toNat ≤ r.start ∧ r.stop ≤ y.state.mem.dabreak.toNat
  chunks : ∀ r ∈ y.chunks, y.state.mem.stack.toNat ≤ r.start ∧
    r.stop ≤ y.state.mem.appspace_himem.toNat
  apart : (y.held ++ y.chunks).Pairwise Span.Apart

namespace RegionInv

theorem initial (h : BrkInitial s) :
    RegionInv ⟨s, [], [⟨s.mem.stack.toNat, s.mem.appspace_himem.toNat⟩]⟩ := by
  refine ⟨BreakInv.initial h, h.stack_aligned, h.stack_le, fun hdyn => (h.limit_le hdyn).1,
    fun _ => h.rwbreak.trans h.stack_limit.symm, nofun, fun _ => nofun, fun _ => nofun, ?_,
    List.pairwise_singleton _ _⟩
  intro r hr
  obtain rfl := List.mem_singleton.mp hr
  exact ⟨le_refl _, le_refl _⟩

theorem same (h : RegionInv y) (hinv : BreakInv s') (hsame : SameBounds y.state s')
    (hdyn : s'.dynamic_num = y.state.dynamic_num)
    (hover : s'.overstack = false → y.state.overstack = false) :
    RegionInv { y with state := s' } := by
  obtain ⟨hmem, -⟩ := hsame
  refine ⟨hinv, ?_, ?_, ?_, ?_, h.nonempty, ?_, ?_, ?_, h.apart⟩
  all_goals dsimp only; rw [hmem]
  · exact h.stack_aligned
  · exact h.stack_le
  · rw [hdyn]
    exact h.limit_le
  · exact fun hb => h.break_eq (hover hb)
  · rw [hdyn]
    exact h.held
  · rw [hdyn]
    exact h.heldDa
  · exact h.chunks

theorem filter (h : RegionInv y) (p : Span → Bool) :
    RegionInv { y with held := y.held.filter p } := by
  refine ⟨h.inv, h.stack_aligned, h.stack_le, h.limit_le, h.break_eq, fun r hr => ?_,
    fun hdyn r hr => ?_, fun hdyn r hr => ?_, h.chunks, ?_⟩
  · exact h.nonempty r (List.mem_filter.mp hr).1
  · exact h.held hdyn r (List.mem_filter.mp hr).1
  · exact h.heldDa hdyn r (List.mem_filter.mp hr).1
  · exact h.apart.sublist (List.Sublist.append_right List.filter_sublist _)

theorem moved (h : RegionInv y) (hdyn : y.state.dynamic_num = -1) {a : BitVec 32}
    (hinv : BreakInv { y.state with mem.stack_limit := a, mem.rwbreak := a }) :
    RegionInv { y with
      state := { y.state with mem.stack_limit := a, mem.rwbreak := a }
      held := y.held.filter (Keeps { y.state with mem.stack_limit := a, mem.rwbreak := a }) } := by
  have hfilter := h.filter fun r => Keeps { y.state with mem.stack_limit := a, mem.rwbreak := a } r
  refine ⟨hinv, h.stack_aligned, h.stack_le, h.limit_le, fun _ => rfl, hfilter.nonempty,
    fun _ r hr => ?_, fun hda => absurd hdyn hda, h.chunks, hfilter.apart⟩
  have hkeeps := of_decide_eq_true (List.mem_filter.mp hr).2
  unfold Keeps BrkState.theBreak at hkeeps
  rw [if_pos hdyn] at hkeeps
  rcases hkeeps with ⟨-, habove⟩ | hbelow
  · -- a region above the stack was there before
    rcases h.held hdyn r (List.mem_filter.mp hr).1 with hlow | hhigh
    · have hne := h.nonempty r (List.mem_filter.mp hr).1
      have hlimit := BitVec.le_def.mp h.inv.stack_limit_le
      dsimp only at habove
      omega
    · exact Or.inr hhigh
  · exact Or.inl hbelow

theorem movedDa (h : RegionInv y) (hdyn : y.state.dynamic_num ≠ -1) {a limit : BitVec 32}
    (hinv : BreakInv { y.state with mem.dabreak := a, mem.dalimit := limit, areaEnd := limit }) :
    RegionInv { y with
      state := { y.state with mem.dabreak := a, mem.dalimit := limit, areaEnd := limit }
      held := y.held.filter
        (Keeps { y.state with mem.dabreak := a, mem.dalimit := limit, areaEnd := limit }) } := by
  have hfilter := h.filter fun r =>
    Keeps { y.state with mem.dabreak := a, mem.dalimit := limit, areaEnd := limit } r
  refine ⟨hinv, h.stack_aligned, h.stack_le, h.limit_le, h.break_eq, hfilter.nonempty,
    fun hrw => absurd hrw hdyn, fun _ r hr => ?_, h.chunks, hfilter.apart⟩
  have hkeeps := of_decide_eq_true (List.mem_filter.mp hr).2
  unfold Keeps BrkState.theBreak at hkeeps
  rw [if_neg hdyn] at hkeeps
  rcases hkeeps with ⟨hrw, -⟩ | hbelow
  · exact absurd hrw hdyn
  · exact ⟨(h.heldDa hdyn r (List.mem_filter.mp hr).1).1, hbelow⟩

end RegionInv

/-- What the result of `brk` means for the regions. -/
def BrkSystem.afterBreak (y : BrkSystem) (z : BrkState × Option (BitVec 32)) : BrkSystem :=
  match z with
  | (s, none) => { y with state := s }
  | (s, some _) => { y with state := s, held := y.held.filter (Keeps s) }

theorem call_brk (os : MemOs) (addr : BitVec 32) (y : BrkSystem) :
    y.call os (.brk addr) = y.afterBreak (brk os addr y.state) := by
  unfold BrkSystem.call BrkCall.run
  dsimp only
  rcases brk os addr y.state with ⟨s', _ | v⟩ <;> rfl

theorem call_sbrk (os : MemOs) (delta : BitVec 32) (y : BrkSystem) :
    y.call os (.sbrk delta) = y.afterBreak (sbrk os delta y.state) := by
  unfold BrkSystem.call BrkCall.run
  dsimp only
  rcases sbrk os delta y.state with ⟨s', _ | v⟩ <;> rfl

theorem afterBreak_congr {z z' : BrkState × Option (BitVec 32)} (hstate : z.1 = z'.1)
    (hnone : z.2 = none ↔ z'.2 = none) : y.afterBreak z = y.afterBreak z' := by
  obtain ⟨s, r⟩ := z
  obtain ⟨s', r'⟩ := z'
  obtain rfl : s = s' := hstate
  cases r with
  | none =>
    obtain rfl : r' = none := hnone.mp rfl
    rfl
  | some v =>
    cases r' with
    | none => cases hnone.mpr rfl
    | some v' => rfl

namespace RegionInv

theorem errno (h : RegionInv y) (e : BrkErrno) :
    RegionInv { y with state := { y.state with errno := some e } } :=
  h.same (h.inv.errno _) ⟨rfl, rfl⟩ rfl id

theorem afterBreak (h : RegionInv y) (os : MemOs) (addr : BitVec 32) :
    RegionInv (y.afterBreak (brk os addr y.state)) := by
  have hinv := h.inv.brk os addr
  unfold brk at hinv ⊢
  by_cases hdyn : y.state.dynamic_num = -1
  · rw [if_pos hdyn] at hinv ⊢
    rcases brkRw_cases os addr false y.state with ⟨e, hcall⟩ | ⟨hcall, -⟩ | ⟨hfalse, -⟩
    · rw [hcall]
      exact h.errno e
    · rw [hcall] at hinv ⊢
      exact h.moved hdyn hinv
    · cases hfalse
  · rw [if_neg hdyn] at hinv ⊢
    rcases h.inv.brkDa_cases hdyn os addr with ⟨e, hcall⟩ | ⟨limit, hcall, -⟩
    · rw [hcall]
      exact h.errno e
    · rw [hcall] at hinv ⊢
      exact h.movedDa hdyn hinv

theorem sbrk (h : RegionInv y) (os : MemOs) (delta : BitVec 32) :
    RegionInv (y.afterBreak (sbrk os delta y.state)) := by
  rcases sbrk_eq os delta y.state with ⟨-, hsame, hsome⟩ | ⟨hbrk, hnone⟩
  · rcases hcall : UnixLib.sbrk os delta y.state with ⟨s', _ | v⟩
    · rw [hcall] at hsome
      exact absurd rfl hsome
    · rw [hcall] at hsame
      obtain rfl : s' = y.state := hsame
      exact h.filter _
  · rw [afterBreak_congr hbrk hnone]
    exact h.afterBreak os _

end RegionInv

/-- What the result of `__internal_sbrk` means for the regions. -/
def BrkSystem.afterInternal (y : BrkSystem) (incr : BitVec 32)
    (z : BrkState × Option (BitVec 32)) : BrkSystem :=
  match z with
  | (s, none) => { y with state := s }
  | (s, some start) =>
    { y with state := s,
             held := if incr = 0 then y.held else ⟨start.toNat, start.toNat + incr.toNat⟩ :: y.held }

theorem call_internalSbrk (os : MemOs) (incr : BitVec 32) (y : BrkSystem) :
    y.call os (.internalSbrk incr) = y.afterInternal incr (internalSbrk os incr y.state) := by
  unfold BrkSystem.call BrkCall.run
  dsimp only
  rcases internalSbrk os incr y.state with ⟨s', _ | v⟩ <;> rfl

namespace RegionInv

theorem newBelow (h : RegionInv y) (hdyn : y.state.dynamic_num = -1) (hbelow : ¬y.state.Over incr)
    {a : BitVec 32} (hzero : incr ≠ 0) (ha : y.state.mem.rwbreak.toNat + incr.toNat ≤ a.toNat)
    (hinv : BreakInv { y.state with overstack := false, mem.stack_limit := a, mem.rwbreak := a }) :
    RegionInv { y with
      state := { y.state with overstack := false, mem.stack_limit := a, mem.rwbreak := a }
      held := ⟨y.state.mem.rwbreak.toNat, y.state.mem.rwbreak.toNat + incr.toNat⟩ :: y.held } := by
  have hpos : 0 < incr.toNat := Nat.pos_of_ne_zero fun hnat => hzero (BitVec.eq_of_toNat_eq hnat)
  have hover : y.state.overstack = false := Bool.eq_false_iff.mpr fun ht => hbelow (Or.inl ht)
  have hstart := congrArg BitVec.toNat (h.break_eq hover)
  have hlimit := BitVec.le_def.mp h.inv.stack_limit_le
  have hlimit' := BitVec.le_def.mp hinv.stack_limit_le
  dsimp only at hlimit'
  refine ⟨hinv, h.stack_aligned, h.stack_le, h.limit_le, fun _ => rfl, ?_, fun _ => ?_,
    fun hda => absurd hdyn hda, h.chunks, ?_⟩
  · rintro r (_ | ⟨_, hr⟩)
    · exact Nat.lt_add_of_pos_right hpos
    · exact h.nonempty r hr
  · rintro r (_ | ⟨_, hr⟩)
    · exact Or.inl ha
    · refine (h.held hdyn r hr).imp_left fun hlow => ?_
      dsimp only
      omega
  · refine List.pairwise_cons.mpr ⟨fun r hr => ?_, h.apart⟩
    unfold Span.Apart
    rcases List.mem_append.mp hr with hr | hr
    · rcases h.held hdyn r hr with hlow | ⟨hhigh, -⟩
      · exact Or.inr (by dsimp only; omega)
      · exact Or.inl (by dsimp only; omega)
    · have hchunk := h.chunks r hr
      exact Or.inl (by dsimp only; omega)

theorem newAbove (h : RegionInv y) (hdyn : y.state.dynamic_num = -1) {a limit : BitVec 32}
    (hzero : incr ≠ 0) (ha : y.state.mem.appspace_himem.toNat + incr.toNat ≤ a.toNat)
    (hinv : BreakInv { y.state with
      overstack := true, mem.appspace_himem := a, mem.appspace_limit := limit, mem.rwbreak := a }) :
    RegionInv { y with
      state := { y.state with
        overstack := true, mem.appspace_himem := a, mem.appspace_limit := limit, mem.rwbreak := a }
      held := ⟨y.state.mem.appspace_himem.toNat, y.state.mem.appspace_himem.toNat + incr.toNat⟩ ::
        y.held } := by
  have hpos : 0 < incr.toNat := Nat.pos_of_ne_zero fun hnat => hzero (BitVec.eq_of_toNat_eq hnat)
  have hstack := BitVec.le_def.mp h.stack_le
  have hlimit := BitVec.le_def.mp h.inv.stack_limit_le
  refine ⟨hinv, h.stack_aligned, ?_, fun hda => absurd hdyn hda, nofun, ?_, fun _ => ?_,
    fun hda => absurd hdyn hda, fun r hr => ?_, ?_⟩
  · rw [BitVec.le_def]
    dsimp only
    omega
  · rintro r (_ | ⟨_, hr⟩)
    · exact Nat.lt_add_of_pos_right hpos
    · exact h.nonempty r hr
  · rintro r (_ | ⟨_, hr⟩)
    · exact Or.inr ⟨hstack, ha⟩
    · refine (h.held hdyn r hr).imp_right fun hhigh => ⟨hhigh.1, ?_⟩
      dsimp only
      omega
  · have hchunk := h.chunks r hr
    refine ⟨hchunk.1, ?_⟩
    dsimp only
    omega
  · refine List.pairwise_cons.mpr ⟨fun r hr => Or.inr ?_, h.apart⟩
    dsimp only
    -- everything else is below the top
    rcases List.mem_append.mp hr with hr | hr
    · rcases h.held hdyn r hr with hlow | ⟨-, hhigh⟩
      · omega
      · exact hhigh
    · exact (h.chunks r hr).2

theorem newDa (h : RegionInv y) (hdyn : y.state.dynamic_num ≠ -1) {a limit : BitVec 32}
    (hzero : incr ≠ 0) (ha : y.state.mem.dabreak.toNat + incr.toNat ≤ a.toNat)
    (hinv : BreakInv { y.state with mem.dabreak := a, mem.dalimit := limit, areaEnd := limit }) :
    RegionInv { y with
      state := { y.state with mem.dabreak := a, mem.dalimit := limit, areaEnd := limit }
      held := ⟨y.state.mem.dabreak.toNat, y.state.mem.dabreak.toNat + incr.toNat⟩ :: y.held } := by
  have hpos : 0 < incr.toNat := Nat.pos_of_ne_zero fun hnat => hzero (BitVec.eq_of_toNat_eq hnat)
  have hbase := BitVec.le_def.mp (h.inv.dalomem_le hdyn)
  have hspace := BitVec.le_def.mp (h.limit_le hdyn)
  have hhimem := BitVec.le_def.mp h.inv.himem_le
  refine ⟨hinv, h.stack_aligned, h.stack_le, h.limit_le, h.break_eq, ?_,
    fun hrw => absurd hrw hdyn, fun _ => ?_, h.chunks, ?_⟩
  · rintro r (_ | ⟨_, hr⟩)
    · exact Nat.lt_add_of_pos_right hpos
    · exact h.nonempty r hr
  · rintro r (_ | ⟨_, hr⟩)
    · exact ⟨hbase, ha⟩
    · obtain ⟨hlow, hhigh⟩ := h.heldDa hdyn r hr
      refine ⟨hlow, ?_⟩
      dsimp only
      omega
  · refine List.pairwise_cons.mpr ⟨fun r hr => Or.inr ?_, h.apart⟩
    dsimp only
    rcases List.mem_append.mp hr with hr | hr
    · exact (h.heldDa hdyn r hr).2
    · -- the stack is in application space, below the area
      have hchunk := (h.chunks r hr).2
      omega

end RegionInv

theorem le_align {base : BitVec 32} (h : base.toNat + incr.toNat + 3 < 2 ^ 32) :
    base.toNat + incr.toNat ≤ (align (base + incr)).toNat := by
  have hnat := toNat_align (base + incr)
  have hsum : (base + incr).toNat = base.toNat + incr.toNat := by
    rw [BitVec.toNat_add, Nat.mod_eq_of_lt (by omega)]
  rw [hsum, Nat.mod_eq_of_lt h] at hnat
  omega

theorem align_le {a stack : BitVec 32} (hstack : stack.toNat % 4 = 0) (h : a < stack) :
    align a ≤ stack := by
  have hnat := toNat_align a
  have hmax := stack.isLt
  rw [BitVec.lt_def] at h
  rw [Nat.mod_eq_of_lt (by omega)] at hnat
  rw [BitVec.le_def]
  omega

namespace RegionInv

theorem internalRw (h : RegionInv y) (hdyn : y.state.dynamic_num = -1) {b : Bool} {v : BitVec 32}
    (hzero : incr ≠ 0) (hb : b = true ↔ y.state.Over incr)
    (hrange : InRange y.state (.internalSbrk incr))
    (hcall : brkRw os (y.state.internalBase incr + incr) true { y.state with overstack := b } =
      (s', some v)) :
    RegionInv { y with
      state := s'
      held := ⟨(y.state.internalBase incr).toNat, (y.state.internalBase incr).toNat + incr.toNat⟩ ::
        y.held } := by
  have hinv := (h.inv.overstack b).brkRw os (y.state.internalBase incr + incr) true
  have hend := le_align hrange
  have hstack := BitVec.le_def.mp h.stack_le
  have hpos : 0 < incr.toNat := Nat.pos_of_ne_zero fun hnat => hzero (BitVec.eq_of_toNat_eq hnat)
  have hbase : y.state.internalBase incr =
      if y.state.Over incr then y.state.mem.appspace_himem else y.state.mem.rwbreak := if_pos hdyn
  generalize y.state.internalBase incr = base at hcall hinv hend hbase ⊢
  rw [hcall] at hinv
  rcases brkRw_cases os (base + incr) true { y.state with overstack := b } with ⟨e, hmove⟩ |
    ⟨hmove, -, hbelow⟩ | ⟨-, habove, limit, hmove, -⟩
  · rw [hmove] at hcall
    cases hcall
  · rw [hmove] at hcall
    cases hcall
    by_cases hover : y.state.Over incr
    · -- from the top of the application space there is no way to below the stack
      rw [if_pos hover] at hbase
      subst hbase
      have hnat := BitVec.le_def.mp hbelow
      dsimp only at hnat
      omega
    · rw [if_neg hover] at hbase
      subst hbase
      obtain rfl : b = false := Bool.eq_false_iff.mpr fun ht => hover (hb.mp ht)
      exact h.newBelow hdyn hover hzero hend hinv
  · rw [hmove] at hcall
    cases hcall
    by_cases hover : y.state.Over incr
    · rw [if_pos hover] at hbase
      subst hbase
      obtain rfl : b = true := hb.mpr hover
      exact h.newAbove hdyn hzero hend hinv
    · -- what ends below the stack is not rounded up to above it
      rw [if_neg hover] at hbase
      subst hbase
      have hlt := BitVec.not_le.mp fun hle => hover (Or.inr hle)
      exact absurd (align_le h.stack_aligned hlt) (BitVec.not_le.mpr habove)

theorem internalSbrk (h : RegionInv y) (os : MemOs) (hrange : InRange y.state (.internalSbrk incr)) :
    RegionInv (y.afterInternal incr (internalSbrk os incr y.state)) := by
  have hinv := h.inv.internalSbrk os incr
  have hfails := @internalSbrk_fails os y.state incr h.inv
  have hstep := internalSbrk_step os incr y.state
  generalize UnixLib.internalSbrk os incr y.state = z at hstep hinv hfails
  cases hstep with
  | negative => exact h
  | nothing b hzero hover =>
    change RegionInv { y with state := _, held := if incr = 0 then y.held else _ }
    rw [if_pos hzero]
    exact h.same hinv ⟨rfl, rfl⟩ rfl hover
  | rwFails b s' hdyn hb hcall =>
    rcases brkRw_cases os (y.state.internalBase incr + incr) true { y.state with overstack := b } with
      ⟨e, hmove⟩ | ⟨hmove, -⟩ | ⟨-, -, limit, hmove, -⟩
    · rw [hmove] at hcall
      cases hcall
      exact h.same hinv (hfails rfl) rfl fun hfalse => Bool.eq_false_iff.mpr fun hover => by
        rw [hb.mpr (Or.inl hover)] at hfalse
        cases hfalse
    · rw [hmove] at hcall
      cases hcall
    · rw [hmove] at hcall
      cases hcall
  | rw b s' v hdyn hzero hb hcall =>
    change RegionInv { y with state := s', held := if incr = 0 then y.held else _ }
    rw [if_neg hzero]
    exact h.internalRw hdyn hzero hb hrange hcall
  | daFails s' hdyn hcall =>
    rcases h.inv.brkDa_cases hdyn os (y.state.internalBase incr + incr) with ⟨e, hmove⟩ |
      ⟨limit, hmove, -⟩
    · rw [hmove] at hcall
      cases hcall
      exact h.errno e
    · rw [hmove] at hcall
      cases hcall
  | da s' v hdyn hzero hcall =>
    change RegionInv { y with state := s', held := if incr = 0 then y.held else _ }
    rw [if_neg hzero]
    have hend := le_align hrange
    have hbase : y.state.internalBase incr = y.state.mem.dabreak := if_neg hdyn
    rcases h.inv.brkDa_cases hdyn os (y.state.internalBase incr + incr) with ⟨e, hmove⟩ |
      ⟨limit, hmove, -⟩
    · rw [hmove] at hcall
      cases hcall
    · rw [hmove] at hcall
      cases hcall
      rw [hbase] at hinv hend ⊢
      exact h.newDa hdyn hzero hend hinv

theorem incrWimpslot (h : RegionInv y) (os : MemOs) (hrange : InRange y.state (.incrWimpslot incr)) :
    RegionInv (y.call os (.incrWimpslot incr)) := by
  have hinv := h.inv.incrWimpslot os incr
  have hstack := BitVec.le_def.mp h.stack_le
  have hsum : (y.state.mem.appspace_himem + incr).toNat =
      y.state.mem.appspace_himem.toNat + incr.toNat := by
    rw [BitVec.toNat_add, Nat.mod_eq_of_lt hrange]
  unfold BrkSystem.call BrkCall.run
  dsimp only
  rcases incrWimpslot_cases os incr y.state with hcall | ⟨limit, hcall, hle, hlimit⟩
  · rw [hcall]
    exact h
  · rw [hcall] at hinv ⊢
    have hgrown : RegionInv { y with state := { y.state with
        mem.appspace_himem := y.state.mem.appspace_himem + incr, mem.appspace_limit := limit } } := by
      refine ⟨hinv, h.stack_aligned, ?_, fun hdyn => ?_, h.break_eq, h.nonempty,
        fun hdyn r hr => (h.held hdyn r hr).imp_right fun hhigh => ⟨hhigh.1, ?_⟩, h.heldDa,
        fun r hr => ⟨(h.chunks r hr).1, ?_⟩, h.apart⟩
      · rw [BitVec.le_def]
        dsimp only
        omega
      · rcases hlimit with rfl | ⟨-, hdyn' | hbelow⟩
        · exact h.limit_le hdyn
        · exact absurd hdyn' hdyn
        · exact hbelow
      · dsimp only
        omega
      · have hchunk := (h.chunks r hr).2
        dsimp only
        omega
    dsimp only
    by_cases hzero : y.state.mem.appspace_himem + incr = 0
    · rw [if_pos hzero]
      exact hgrown
    · rw [if_neg hzero]
      refine ⟨hgrown.inv, hgrown.stack_aligned, hgrown.stack_le, hgrown.limit_le, hgrown.break_eq,
        hgrown.nonempty, hgrown.held, hgrown.heldDa, ?_, ?_⟩
      · rintro r (_ | ⟨_, hr⟩)
        · exact ⟨hstack, Nat.le_of_eq hsum.symm⟩
        · exact hgrown.chunks r hr
      · refine (List.perm_middle.pairwise_iff fun hapart => Span.Apart.symm hapart).mpr
          (List.pairwise_cons.mpr ⟨fun r hr => ?_, h.apart⟩)
        unfold Span.Apart
        dsimp only
        -- everything else in application space is below, the dynamic area above
        rcases List.mem_append.mp hr with hr | hr
        · by_cases hdyn : y.state.dynamic_num = -1
          · have hlow := BitVec.le_def.mp h.inv.stack_limit_le
            rcases h.held hdyn r hr with hheld | ⟨-, hheld⟩ <;> omega
          · have hheld := (h.heldDa hdyn r hr).1
            have hbelow := BitVec.le_def.mp (hgrown.limit_le hdyn)
            have hhimem := BitVec.le_def.mp hle
            dsimp only at hbelow
            omega
        · have hchunk := (h.chunks r hr).2
          omega

theorem call (h : RegionInv y) (os : MemOs) {c : BrkCall} (hrange : InRange y.state c) :
    RegionInv (y.call os c) := by
  cases c with
  | brk addr =>
    rw [call_brk]
    exact h.afterBreak os addr
  | sbrk delta =>
    rw [call_sbrk]
    exact h.sbrk os delta
  | internalSbrk incr =>
    rw [call_internalSbrk]
    exact h.internalSbrk os hrange
  | incrWimpslot incr => exact h.incrWimpslot os hrange

theorem run (h : BrkRun InRange y) : RegionInv y := by
  induction h with
  | initial h => exact initial h
  | call os c _ hrange ih => exact ih.call os hrange

end RegionInv

/-- **The memory break.** In every run the bounds are right, and a call that fails leaves them, unless its
increment runs past the top of the address space. Else what `__internal_sbrk` has handed out and not got
back does not overlap, with itself or with the stack. -/
theorem brkRun_sound (y : BrkSystem) :
    (BrkRun (fun _ _ => True) y → BreakSound y.state ∧ ∀ os c, InRange y.state c →
      (c.run os y.state).2 = none → SameBounds y.state (c.run os y.state).1) ∧
    (BrkRun InRange y → (y.held ++ y.chunks).Pairwise Span.Apart) := by
  refine ⟨fun h => ?_, fun h => (RegionInv.run h).apart⟩
  have hinv := BreakInv.run h
  exact ⟨hinv.toBreakSound, fun os c hrange hnone => call_fails hinv hrange hnone⟩

/-! ### A region that is given back -/

/-- Application space from 0x8000 to 0x28000 with its stack from 0x20000 on. -/
def brkStart : BrkState where
  mem := {
    appspace_himem := 0x28000
    stack := 0x20000
    rwlomem := 0x9000
    rwbreak := 0x9000
    stack_limit := 0x9000
    dalomem := 0
    dabreak := 0
    dalimit := 0
    appspace_limit := 0x28000 }
  dynamic_num := -1
  overstack := false
  errno := none
  areaEnd := 0

theorem brkStart_initial : BrkInitial brkStart := by
  refine ⟨rfl, rfl, ?_, rfl, ?_, ?_, rfl, ?_, ?_, ?_⟩ <;> decide

def grantOs : MemOs := ⟨true, .granted⟩

def pageThenOver : BrkSystem :=
  ((⟨brkStart, [], [⟨0x20000, 0x28000⟩]⟩ : BrkSystem).call grantOs (.internalSbrk 4096)).call grantOs
    (.internalSbrk 0x20000)

theorem brkRun_sound_pageThenOver :
    BreakSound pageThenOver.state ∧ (pageThenOver.held ++ pageThenOver.chunks).Pairwise Span.Apart := by
  have hpage : InRange brkStart (.internalSbrk 4096) := by
    change (brkStart.internalBase 4096).toNat + _ + 3 < _
    decide
  have hover : InRange ((⟨brkStart, [], [⟨0x20000, 0x28000⟩]⟩ : BrkSystem).call grantOs
      (.internalSbrk 4096)).state (.internalSbrk 0x20000) := by
    change (BrkState.internalBase _ 0x20000).toNat + _ + 3 < _
    decide
  have hall : BrkRun (fun _ _ => True) pageThenOver :=
    .call _ _ (.call _ _ (.initial brkStart_initial) trivial) trivial
  have hrun : BrkRun InRange pageThenOver :=
    .call _ _ (.call _ _ (.initial brkStart_initial) hpage) hover
  obtain ⟨hsound, hregions⟩ := brkRun_sound pageThenOver
  exact ⟨(hsound hall).1, hregions hrun⟩

/-- Regions that were returned one after the other, with an `sbrk` between them, may overlap. -/
theorem internalSbrk_again :
    ¬∀ s, BrkInitial s → ∀ os (incr delta : BitVec 32) p q, 0 < incr.toNat →
      (internalSbrk os incr s).2 = some p →
      (internalSbrk os incr (sbrk os delta (internalSbrk os incr s).1).1).2 = some q →
      (⟨p.toNat, p.toNat + incr.toNat⟩ : Span).Apart ⟨q.toNat, q.toNat + incr.toNat⟩ := by
  intro hall
  -- a page that is given back is handed out once more
  have hapart := hall brkStart brkStart_initial grantOs 4096 (-4096) 0x9000 0x9000 (by decide)
    (by decide) (by decide)
  exact absurd hapart (by decide)

end UnixLib
