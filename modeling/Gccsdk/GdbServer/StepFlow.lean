import Gccsdk.GdbServer.Step
import Gccsdk.Lib.ArmFlow
import Mathlib.Tactic.IntervalCases

/-!
# Single stepping and the architecture

`stepInstruction` against the architecture's own account of where an instruction goes (`Arm.State.next`). It is
right (`stepInstruction_eq_next`) but for some kinds of instructions (`Mistaken`) and a condition that is computed
wrongly when the flags N and V are both set (`ConditionRight`).
-/

namespace GdbServer

open Arm (field bit)

def armState (mem : Mem) (regs : CpuRegisters) : Arm.State where
  r i := regs ⟨i.val, by omega⟩
  n := bit regs.cpsr 31
  z := bit regs.cpsr 30
  c := bit regs.cpsr 29
  v := bit regs.cpsr 28
  load := mem

/-- Conditions that compare N and V: N and V set are taken for different ones. -/
def ConditionRight (s : Arm.State) (cond : ℕ) : Prop :=
  ¬(10 ≤ cond ∧ cond ≤ 13 ∧ s.n ∧ s.v ∧ (12 ≤ cond → ¬s.z))

/-- The kinds of instructions that are taken for others, or computed wrongly. -/
inductive Mistaken (s : Arm.State) (w : BitVec 32) : Prop
  | borrow : field w 26 2 = 0 → bit w 25 ∨ ¬bit w 4 → field w 12 4 = 15 →
      field w 21 4 = 6 ∨ field w 21 4 = 7 → Mistaken s w
  /-- LSR and ASR by a constant, to the PC: the amount is one more. -/
  | shift : field w 25 3 = 0 → field w 23 2 ≠ 2 → ¬bit w 4 → field w 12 4 = 15 →
      field w 5 2 = 1 ∨ field w 5 2 = 2 → Mistaken s w
  | branchExchange : field w 20 8 = 0x12 → field w 4 4 = 3 → Mistaken s w
  | status : field w 20 8 = 0x32 → field w 4 4 = 1 ∨ field w 4 4 = 2 → Mistaken s w
  /-- LDR with a register offset before the access, which is taken for LDM. -/
  | preIndexed : field w 24 4 = 7 → bit w 20 → bit w 15 → Mistaken s w
  /-- LDM and STM with the access behind the change of the address, which are taken for branches. -/
  | before : field w 24 4 = 9 → Mistaken s w
  /-- LDR of the PC, to a Thumb instruction in the second half of a word. -/
  | thumb : field w 26 2 = 1 → bit w 20 → field w 12 4 = 15 → s.load (s.loadAddress w) &&& 3 = 3 → Mistaken s w
  | base : field w 25 3 = 4 → bit w 20 → bit w 15 → s.r (Arm.regField w 16) &&& 3 ≠ 0 → Mistaken s w

/-! ### Conditions -/

private theorem executes_eq_nibble (cond cpsr : BitVec 32) :
    executes cond cpsr = executes cond (BitVec.ofNat 32 (field cpsr 28 4) <<< 28) := by
  have hshift : (BitVec.ofNat 32 (field cpsr 28 4) <<< 28) >>> 28 = cpsr >>> 28 := by
    apply BitVec.eq_of_toNat_eq
    have := cpsr.isLt
    rw [BitVec.toNat_ushiftRight, BitVec.toNat_shiftLeft, BitVec.toNat_ofNat, BitVec.toNat_ushiftRight,
      Nat.shiftLeft_eq, Nat.shiftRight_eq_div_pow, Nat.shiftRight_eq_div_pow]
    unfold field
    omega
  unfold executes
  rw [hshift]

private theorem executes_table : ∀ cond f : Fin 16,
    executes (BitVec.ofNat 32 cond.val) (BitVec.ofNat 32 f.val <<< 28) =
      Arm.State.holds ⟨fun _ => 0, f.val.testBit 3, f.val.testBit 2, f.val.testBit 1, f.val.testBit 0, id⟩
        cond.val ↔
    ¬(10 ≤ cond.val ∧ cond.val ≤ 13 ∧ f.val.testBit 3 ∧ f.val.testBit 0 ∧ (12 ≤ cond.val → ¬f.val.testBit 2)) := by
  decide +kernel

/-- **The conditions** are computed as they should, but for those four. -/
theorem executes_eq_holds_iff {mem : Mem} {regs : CpuRegisters} {cond : ℕ} (hcond : cond < 16) :
    executes (BitVec.ofNat 32 cond) regs.cpsr = (armState mem regs).holds cond ↔
      ConditionRight (armState mem regs) cond := by
  have hflag (i : ℕ) (hi : i < 4) : (field regs.cpsr 28 4).testBit i = bit regs.cpsr (28 + i) := by
    unfold field bit
    rw [Nat.testBit_mod_two_pow, Nat.testBit_div_two_pow, decide_eq_true hi, Bool.true_and, Nat.add_comm]
    rfl
  have htable := executes_table ⟨cond, hcond⟩ ⟨field regs.cpsr 28 4, Arm.field_lt _ _ _⟩
  dsimp only at htable
  rw [hflag 3 (by omega), hflag 2 (by omega), hflag 1 (by omega), hflag 0 (by omega)] at htable
  rw [executes_eq_nibble]
  exact htable

/-! ### Fields of the code -/

private theorem bit_eq_false_iff (w : BitVec 32) (i : ℕ) : bit w i = false ↔ field w i 1 = 0 := by
  have hlt := Arm.field_lt w i 1
  rw [← Bool.not_eq_true, Arm.bit_iff]
  omega

section
variable (w : BitVec 32) (lo : ℕ)

private theorem toNat_and_1 : (w >>> lo &&& 0x1).toNat = field w lo 1 := Arm.toNat_shift_and w lo (n := 1) (by omega)
private theorem toNat_and_3 : (w >>> lo &&& 0x3).toNat = field w lo 2 := Arm.toNat_shift_and w lo (n := 2) (by omega)
private theorem toNat_and_7 : (w >>> lo &&& 0x7).toNat = field w lo 3 := Arm.toNat_shift_and w lo (n := 3) (by omega)
private theorem toNat_and_f : (w >>> lo &&& 0xf).toNat = field w lo 4 := Arm.toNat_shift_and w lo (n := 4) (by omega)
private theorem toNat_and_1f : (w >>> lo &&& 0x1f).toNat = field w lo 5 :=
  Arm.toNat_shift_and w lo (n := 5) (by omega)

private theorem eq_ofNat_iff {x : BitVec 32} {n k : ℕ} (hx : x.toNat = n) (hk : k < 2 ^ 32) :
    x = BitVec.ofNat 32 k ↔ n = k := by
  constructor
  · rintro rfl
    rw [← hx, BitVec.toNat_ofNat, Nat.mod_eq_of_lt hk]
  · rintro rfl
    rw [← hx, BitVec.ofNat_toNat, BitVec.setWidth_eq]

private theorem and_f_eq_iff {k : ℕ} (hk : k < 2 ^ 32) : w >>> lo &&& 0xf = BitVec.ofNat 32 k ↔ field w lo 4 = k :=
  eq_ofNat_iff (toNat_and_f w lo) hk

variable (mem : Mem) (regs : CpuRegisters)

private theorem r_and_f : regs.r (w >>> lo &&& 0xf) = (armState mem regs).r (Arm.regField w lo) := by
  unfold CpuRegisters.r armState Arm.regField
  refine congrArg regs (Fin.ext ?_)
  change (w >>> lo &&& 0xf).toNat % 16 = field w lo 4 % 16
  rw [toNat_and_f]

private theorem operand_and_f :
    (if w >>> lo &&& 0xf = 15 then regs.r (w >>> lo &&& 0xf) + 8 else regs.r (w >>> lo &&& 0xf)) =
      (armState mem regs).operand (Arm.regField w lo) := by
  have hiff : w >>> lo &&& 0xf = 15 ↔ Arm.regField w lo = 15 := by
    refine (and_f_eq_iff w lo (k := 15) (by decide)).trans ?_
    have := Arm.field_lt w lo 4
    unfold Arm.regField
    rw [Fin.ext_iff]
    change _ ↔ field w lo 4 % 16 = 15
    omega
  unfold Arm.State.operand
  rw [r_and_f w lo mem regs]
  by_cases h : Arm.regField w lo = 15
  · rw [if_pos (hiff.mpr h), if_pos h, h]
  · rw [if_neg (mt hiff.mp h), if_neg h]

end

/-! ### Masks of the code -/

section
variable (w : BitVec 32)

private theorem misc_iff :
    w &&& 0x01900000 = 0x01000000 ↔ bit w 24 = true ∧ bit w 23 = false ∧ bit w 20 = false := by
  rw [Arm.and_eq_iff]
  constructor
  · intro h
    exact ⟨by simpa using h 24, by simpa using h 23, by simpa using h 20⟩
  · rintro ⟨h24, h23, h20⟩ i hi
    interval_cases i <;> simp_all

private theorem mul_iff : w &&& 0x02000090 = 0x90 ↔ bit w 25 = false ∧ bit w 7 = true ∧ bit w 4 = true := by
  rw [Arm.and_eq_iff]
  constructor
  · intro h
    exact ⟨by simpa using h 25, by simpa using h 7, by simpa using h 4⟩
  · rintro ⟨h25, h7, h4⟩ i hi
    interval_cases i <;> simp_all

private theorem undefined_iff : w &&& 0x02000010 = 0x02000010 ↔ bit w 25 = true ∧ bit w 4 = true := by
  rw [Arm.and_eq_iff]
  constructor
  · intro h
    exact ⟨by simpa using h 25, by simpa using h 4⟩
  · rintro ⟨h25, h4⟩ i hi
    interval_cases i <;> simp_all

private theorem loadWord_iff : w &&& 0x00500000 = 0x00100000 ↔ bit w 22 = false ∧ bit w 20 = true := by
  rw [Arm.and_eq_iff]
  constructor
  · intro h
    exact ⟨by simpa using h 22, by simpa using h 20⟩
  · rintro ⟨h22, h20⟩ i hi
    interval_cases i <;> simp_all

private theorem user_iff : w &&& 0x01200000 = 0x00200000 ↔ bit w 24 = false ∧ bit w 21 = true := by
  rw [Arm.and_eq_iff]
  constructor
  · intro h
    exact ⟨by simpa using h 24, by simpa using h 21⟩
  · rintro ⟨h24, h21⟩ i hi
    interval_cases i <;> simp_all

private theorem constant_iff : w >>> 24 &&& 0x2 = 0 ↔ bit w 25 = false := by
  rw [Arm.and_eq_iff]
  constructor
  · intro h
    simpa [bit] using h 1
  · intro h25 i hi
    interval_cases i <;> simp_all [bit]

private theorem byRegister_iff : w &&& 0x10 = 0 ↔ bit w 4 = false := by
  rw [Arm.and_eq_iff]
  constructor
  · intro h
    simpa using h 4
  · intro h4 i hi
    interval_cases i <;> simp_all

end

/-! ### Going to a value -/

private theorem toNat_and_not_1 (v : BitVec 32) : (v &&& ~~~1).toNat = v.toNat / 2 * 2 :=
  Address.toNat_roundDown v 1

private theorem toNat_and_not_3 (v : BitVec 32) : (v &&& ~~~3).toNat = v.toNat / 4 * 4 :=
  Address.toNat_roundDown v 2

private theorem toNat_low (v : BitVec 32) : (v &&& 3).toNat = v.toNat % 4 := by
  rw [BitVec.toNat_and]
  exact Nat.and_two_pow_sub_one_eq_mod v.toNat 2

private theorem bit_zero_iff (v : BitVec 32) : bit v 0 = true ↔ v.toNat % 2 = 1 := by
  rw [Arm.bit_iff]
  unfold field
  rw [pow_zero, Nat.div_one, pow_one]

theorem eq_of_target {v a : BitVec 32} (h : Arm.State.target v = some a) : v &&& ~~~1 = a := by
  unfold Arm.State.target at h
  split_ifs at h with h0
  · exact Option.some.inj h
  · obtain rfl := Option.some.inj h
    apply BitVec.eq_of_toNat_eq
    rw [bit_zero_iff] at h0
    rw [toNat_and_not_1]
    omega

theorem eq_of_target_of_ne {v a : BitVec 32} (h : Arm.State.target v = some a) (hne : v &&& 3 ≠ 3) :
    v &&& ~~~3 = a := by
  have hlow : v.toNat % 4 ≠ 3 := fun heq => hne (BitVec.eq_of_toNat_eq ((toNat_low v).trans heq))
  have htarget := eq_of_target h
  have h0 := bit_zero_iff v
  have h1 := Arm.bit_iff v 1
  unfold field at h1
  rw [pow_one] at h1
  unfold Arm.State.target at h
  apply BitVec.eq_of_toNat_eq
  rw [← htarget, toNat_and_not_1, toNat_and_not_3]
  split_ifs at h with hb0 hb1
  · have := h0.mp hb0
    omega
  · have hb0 := mt h0.mpr hb0
    have hb1 := mt h1.mpr hb1
    omega

/-! ### Data processing -/

section
variable (mem : Mem) (regs : CpuRegisters) {w a : BitVec 32}

private theorem carry_eq : regs.cpsr >>> 29 &&& 0x1 = (BitVec.ofBool (armState mem regs).c).setWidth 32 := by
  apply BitVec.eq_of_toNat_eq
  rw [toNat_and_1]
  unfold armState
  dsimp only
  cases hc : bit regs.cpsr 29 with
  | true => exact (Arm.bit_iff _ _).mp hc
  | false =>
    have hne : field regs.cpsr 29 1 ≠ 1 := fun h => Bool.false_ne_true (hc ▸ (Arm.bit_iff _ _).mpr h)
    have := Arm.field_lt regs.cpsr 29 1
    change field regs.cpsr 29 1 = 0
    omega

theorem shiftValue_eq (x : BitVec 32) (htype : field w 5 2 = 0 ∨ field w 5 2 = 3) :
    shiftValue x (w >>> 5 &&& 0x3) (w >>> 7 &&& 0x1f) (regs.cpsr >>> 29 &&& 0x1) 0 =
      (armState mem regs).shifted (field w 5 2) (field w 7 5) x := by
  have hamount := toNat_and_1f w 7
  have hlt := Arm.field_lt w 7 5
  have htypeNat := toNat_and_3 w 5
  unfold shiftValue Arm.State.shifted
  rcases htype with h0 | h3
  · rw [h0] at htypeNat ⊢
    have hzero : w >>> 5 &&& 0x3 = 0 := BitVec.eq_of_toNat_eq htypeNat
    change _ = x <<< field w 7 5
    rw [if_pos hzero, if_pos (by rw [BitVec.lt_def, hamount]; exact hlt), BitVec.shiftLeft_eq', hamount]
  · rw [h3] at htypeNat ⊢
    have hthree : w >>> 5 &&& 0x3 = 3 := BitVec.eq_of_toNat_eq htypeNat
    have hclamp : w >>> 7 &&& (0x1f : BitVec 32) &&& (0x1f : BitVec 32) = w >>> 7 &&& 0x1f := by
      rw [BitVec.and_assoc, BitVec.and_self]
    rw [hthree, if_neg (by decide), if_neg (by decide), if_neg (by decide), hclamp]
    change _ = if field w 7 5 = 0 then _ else _
    dsimp only
    by_cases hzero : field w 7 5 = 0
    · rw [if_pos ⟨rfl, BitVec.eq_of_toNat_eq (hamount.trans hzero)⟩, if_pos hzero, carry_eq mem]
    · have hne : w >>> 7 &&& 0x1f ≠ 0 := fun heq => hzero (by rw [← hamount, heq]; rfl)
      have hsub : ((32 : BitVec 32) - (w >>> 7 &&& 0x1f)).toNat = 32 - field w 7 5 := by
        rw [BitVec.toNat_sub, hamount]
        change (2 ^ 32 - field w 7 5 + 32) % 2 ^ 32 = _
        omega
      rw [if_neg (fun h => hne h.2), if_neg hzero]
      unfold ror
      rw [BitVec.ushiftRight_eq', BitVec.shiftLeft_eq', hamount, hsub]
      have hmod : field w 7 5 % 32 = field w 7 5 := Nat.mod_eq_of_lt hlt
      unfold BitVec.rotateRight BitVec.rotateRightAux
      rw [hmod]

private theorem and_low_eq (n : ℕ) (hn : n ≤ 32) :
    w &&& BitVec.ofNat 32 (2 ^ n - 1) = BitVec.ofNat 32 (field w 0 n) := by
  have hlow := Arm.toNat_shift_and w 0 hn
  rw [BitVec.ushiftRight_zero] at hlow
  rw [← hlow, BitVec.ofNat_toNat, BitVec.setWidth_eq]

private theorem ror_immediate :
    ror (w &&& 0xff) ((2 : BitVec 32) * (w >>> 8 &&& 0xf)) =
      (BitVec.ofNat 32 (field w 0 8)).rotateRight (2 * field w 8 4) := by
  have hconst : w &&& 0xff = BitVec.ofNat 32 (field w 0 8) := and_low_eq 8 (by omega)
  have hlt := Arm.field_lt w 8 4
  have hrot : ((2 : BitVec 32) * (w >>> 8 &&& 0xf)).toNat = 2 * field w 8 4 := by
    rw [BitVec.toNat_mul, toNat_and_f]
    change 2 * field w 8 4 % 2 ^ 32 = _
    omega
  have hsub : ((32 : BitVec 32) - (2 : BitVec 32) * (w >>> 8 &&& 0xf)).toNat = 32 - 2 * field w 8 4 := by
    rw [BitVec.toNat_sub, hrot]
    change (2 ^ 32 - 2 * field w 8 4 + 32) % 2 ^ 32 = _
    omega
  unfold ror
  rw [hconst, BitVec.ushiftRight_eq', BitVec.shiftLeft_eq', hrot, hsub]
  unfold BitVec.rotateRight BitVec.rotateRightAux
  rw [Nat.mod_eq_of_lt (show 2 * field w 8 4 < 32 by omega)]

/-- **The second operand** is right, but for LSR and ASR by a constant. -/
theorem dpOperand_eq (hregister : bit w 25 = true ∨ bit w 4 = false)
    (hshift : bit w 25 = false → field w 5 2 = 0 ∨ field w 5 2 = 3) :
    dpOperand w regs = if bit w 25 then (BitVec.ofNat 32 (field w 0 8)).rotateRight (2 * field w 8 4)
      else (armState mem regs).shifted (field w 5 2) (field w 7 5)
        ((armState mem regs).operand (Arm.regField w 0)) := by
  unfold dpOperand
  dsimp only
  cases h25 : bit w 25 with
  | true =>
    have hconst : w >>> 24 &&& 0x2 ≠ 0 := fun h => Bool.false_ne_true (((constant_iff w).mp h).symm.trans h25)
    rw [if_pos hconst, if_pos rfl]
    exact ror_immediate
  | false =>
    have h4 : bit w 4 = false := hregister.resolve_left (by rw [h25]; exact Bool.false_ne_true)
    have hop := operand_and_f w 0 mem regs
    rw [BitVec.ushiftRight_zero] at hop
    rw [if_neg (not_not.mpr ((constant_iff w).mpr h25)), (byRegister_iff w).mpr h4, if_neg (not_not.mpr rfl),
      if_neg Bool.false_ne_true, hop]
    exact shiftValue_eq mem regs _ (hshift h25)

theorem stepMiscNonDp_eq (hclass : field w 26 2 = 0) (hmisc : field w 23 2 = 2) (h20 : field w 20 1 = 0)
    (h : (armState mem regs).miscellaneous w = some a) (hok : ¬Mistaken (armState mem regs) w) :
    stepMiscNonDp w regs = a := by
  have hcond : ((w >>> 4 &&& 0xf = 0x1 ∨ w >>> 4 &&& 0xf = 0x2) ∧ w >>> 20 &&& 0xf = 0x2) ↔
      (field w 4 4 = 1 ∨ field w 4 4 = 2) ∧ field w 21 2 = 1 := by
    have hregister : field w 20 4 = 2 ↔ field w 21 2 = 1 := by
      unfold field at *
      omega
    rw [← hregister]
    exact and_congr (or_congr (and_f_eq_iff w 4 (k := 1) (by decide)) (and_f_eq_iff w 4 (k := 2) (by decide)))
      (and_f_eq_iff w 20 (k := 2) (by decide))
  have hop := operand_and_f w 0 mem regs
  rw [BitVec.ushiftRight_zero] at hop
  unfold stepMiscNonDp
  dsimp only
  rw [hop]
  unfold Arm.State.miscellaneous at h
  by_cases hexchange : (field w 4 4 = 1 ∨ field w 4 4 = 2) ∧ field w 21 2 = 1
  · rw [if_pos (hcond.mpr hexchange)]
    obtain ⟨htype, hop⟩ := hexchange
    cases h25 : bit w 25 with
    | true =>
      -- a constant for the flags
      refine absurd (.status ?_ htype) hok
      have h25 := (Arm.bit_iff _ _).mp h25
      unfold field at *
      omega
    | false =>
      rw [h25, if_neg Bool.false_ne_true, hop] at h
      rcases htype with h1 | h2
      · rw [h1] at h
        exact eq_of_target h
      · rw [h2] at h
        exact eq_of_target h
  · rw [if_neg (mt hcond.mp hexchange)]
    cases h25 : bit w 25 with
    | true =>
      rw [h25, if_pos rfl] at h
      split at h
      · exact Option.some.inj h
      · cases h
    | false =>
      rw [h25, if_neg Bool.false_ne_true] at h
      split at h
      · exact Option.some.inj h
      · next h1 hop => exact absurd ⟨Or.inl h1, hop⟩ hexchange
      · next h2 hop => exact absurd ⟨Or.inr h2, hop⟩ hexchange
      · exact Option.some.inj h
      · next h3 hop =>
        -- BLX with a register
        refine absurd (.branchExchange ?_ h3) hok
        have h25 : field w 25 1 ≠ 1 := fun h => Bool.false_ne_true (h25.symm.trans ((Arm.bit_iff _ _).mpr h))
        unfold field at *
        omega
      all_goals first
        | exact Option.some.inj h
        | cases h

private theorem alu_eq (x : BitVec 32) (htest : field w 23 2 ≠ 2) (hborrow : ¬(field w 21 4 = 6 ∨ field w 21 4 = 7)) :
    (let op := w >>> 21 &&& 0xf
      if op = 13 then x
      else if op = 15 then ~~~x
      else
        let rn := regs.r (w >>> 16 &&& 0xf)
        let carry := regs.cpsr >>> 29 &&& 0x1
        let rn := if w >>> 16 &&& 0xf = 15 then rn + 8 else rn
        if op = 0 then rn &&& x
        else if op = 1 then rn ^^^ x
        else if op = 2 then rn - x
        else if op = 3 then x - rn
        else if op = 4 then rn + x
        else if op = 5 then rn + x + carry
        else if op = 6 then rn - x - ~~~carry
        else if op = 7 then x - rn - ~~~carry
        else if op = 12 then rn ||| x
        else if op = 14 then rn &&& ~~~x
        else x) =
      (armState mem regs).alu (field w 21 4) ((armState mem regs).operand (Arm.regField w 16)) x := by
  have hlt := Arm.field_lt w 21 4
  have hsplit : field w 23 2 = field w 21 4 / 4 := by
    unfold field
    omega
  have hcases : field w 21 4 = 0 ∨ field w 21 4 = 1 ∨ field w 21 4 = 2 ∨ field w 21 4 = 3 ∨ field w 21 4 = 4 ∨
      field w 21 4 = 5 ∨ field w 21 4 = 12 ∨ field w 21 4 = 13 ∨ field w 21 4 = 14 ∨ field w 21 4 = 15 := by
    omega
  dsimp only
  rw [operand_and_f w 16 mem regs, carry_eq mem]
  rcases hcases with h | h | h | h | h | h | h | h | h | h
  all_goals
    rw [h, (and_f_eq_iff w 21 (by decide)).mpr h]
    rfl

theorem stepDataProcessing_eq (hclass : field w 26 2 = 0) (h : (armState mem regs).executed w = some a)
    (hok : ¬Mistaken (armState mem regs) w) : stepDataProcessing w regs = a := by
  have hmisc : w &&& 0x01900000 = 0x01000000 ↔ field w 23 2 = 2 ∧ field w 20 1 = 0 := by
    rw [misc_iff, Arm.bit_iff, bit_eq_false_iff, bit_eq_false_iff]
    unfold field
    omega
  have hmul : w &&& 0x02000090 = 0x90 ↔ field w 25 3 = 0 ∧ bit w 7 = true ∧ bit w 4 = true := by
    rw [mul_iff, bit_eq_false_iff]
    refine and_congr_left fun _ => ?_
    unfold field at *
    omega
  -- the class, without multiplications
  have hexecuted : ¬w &&& 0x02000090 = 0x90 → (if field w 23 2 = 2 ∧ ¬bit w 20 then
      (armState mem regs).miscellaneous w else (armState mem regs).dataProcessing w) = some a := by
    intro hno
    unfold Arm.State.executed at h
    have hcases : field w 25 3 = 0 ∨ field w 25 3 = 1 := by
      unfold field at *
      omega
    rcases hcases with h0 | h1
    · rw [h0] at h
      exact (if_neg fun hbits => hno (hmul.mpr ⟨h0, hbits⟩)).symm.trans h
    · rw [h1] at h
      exact h
  have hnext : w &&& 0x02000090 = 0x90 → regs.pc + 4 = a := by
    intro hyes
    obtain ⟨h0, hbits⟩ := hmul.mp hyes
    unfold Arm.State.executed at h
    rw [h0] at h
    exact Option.some.inj ((if_pos hbits).symm.trans h)
  unfold stepDataProcessing
  by_cases hm : w &&& 0x01900000 = 0x01000000
  · rw [if_pos hm]
    obtain ⟨h23, h20⟩ := hmisc.mp hm
    by_cases hml : w &&& 0x02000090 = 0x90
    · -- SWP and others, which are not taken for BX
      obtain ⟨-, h7, h4⟩ := hmul.mp hml
      rw [Arm.bit_iff] at h7 h4
      have hother : ¬((w >>> 4 &&& 0xf = 0x1 ∨ w >>> 4 &&& 0xf = 0x2) ∧ w >>> 20 &&& 0xf = 0x2) := by
        rintro ⟨htype, -⟩
        have htype := htype.imp (and_f_eq_iff w 4 (k := 1) (by decide)).mp
          (and_f_eq_iff w 4 (k := 2) (by decide)).mp
        unfold field at *
        omega
      unfold stepMiscNonDp
      exact (if_neg hother).trans (hnext hml)
    · refine stepMiscNonDp_eq mem regs hclass h23 h20 ?_ hok
      have hmiscellaneous := hexecuted hml
      rwa [if_pos ⟨h23, (bit_eq_false_iff _ _).mpr h20 ▸ Bool.false_ne_true⟩] at hmiscellaneous
  · rw [if_neg hm]
    by_cases hml : w &&& 0x02000090 = 0x90
    · rw [if_pos hml]
      exact hnext hml
    · rw [if_neg hml]
      have hprocessing := hexecuted hml
      rw [if_neg fun hboth => hm (hmisc.mpr ⟨hboth.1, (bit_eq_false_iff _ _).mp (Bool.eq_false_iff.mpr hboth.2)⟩)]
        at hprocessing
      unfold Arm.State.dataProcessing at hprocessing
      have hrd : w >>> 12 &&& 0xf = 15 ↔ field w 12 4 = 15 := and_f_eq_iff w 12 (by decide)
      dsimp only
      by_cases htest : field w 23 2 = 2 ∧ field w 12 4 ≠ 0
      · rw [if_pos htest] at hprocessing
        cases hprocessing
      rw [if_neg htest] at hprocessing
      by_cases hrd15 : field w 12 4 = 15
      · rw [if_neg (not_not.mpr hrd15)] at hprocessing
        by_cases hregister : ¬bit w 25 = true ∧ bit w 4 = true
        · rw [if_pos hregister] at hprocessing
          cases hprocessing
        rw [if_neg hregister] at hprocessing
        have htest : field w 23 2 ≠ 2 := fun h => htest ⟨h, by rw [hrd15]; decide⟩
        have hconstant : bit w 25 = true ∨ ¬bit w 4 = true := by
          by_cases h25 : bit w 25 = true
          · exact Or.inl h25
          · exact Or.inr fun h4 => hregister ⟨h25, h4⟩
        have hborrow : ¬(field w 21 4 = 6 ∨ field w 21 4 = 7) := fun h => hok (.borrow hclass hconstant hrd15 h)
        have hshift : bit w 25 = false → field w 5 2 = 0 ∨ field w 5 2 = 3 := by
          intro h25
          have h4 := hconstant.resolve_left (Bool.eq_false_iff.mp h25)
          have h25 := (bit_eq_false_iff _ _).mp h25
          have hlt := Arm.field_lt w 5 2
          have hnot : ¬(field w 5 2 = 1 ∨ field w 5 2 = 2) := by
            refine fun h => hok (.shift ?_ htest h4 hrd15 h)
            unfold field at *
            omega
          omega
        rw [if_neg (not_not.mpr (hrd.mpr hrd15)), dpOperand_eq mem regs (hconstant.imp_right Bool.eq_false_iff.mpr) hshift]
        refine (alu_eq mem regs _ htest hborrow).trans ?_
        exact Option.some.inj (Option.ite_none_right_eq_some.mp hprocessing).2
      · -- the PC is not written
        rw [if_pos hrd15] at hprocessing
        rw [if_pos (mt hrd.mp hrd15)]
        exact Option.some.inj hprocessing

/-! ### Loading and storing -/

private theorem and_1_eq_zero_iff (lo : ℕ) : w >>> lo &&& 0x1 = 0 ↔ bit w lo = false :=
  (eq_ofNat_iff (toNat_and_1 w lo) (k := 0) (by decide)).trans (bit_eq_false_iff w lo).symm

/-- **LDR and STR**, but for a register offset before the access. -/
theorem stepLdrStr_eq (hclass : field w 26 2 = 1) (htype : field w 24 4 ≠ 7)
    (h : (armState mem regs).executed w = some a) (hok : ¬Mistaken (armState mem regs) w) :
    stepLdrStr mem w regs = a := by
  have hload : (armState mem regs).loadStore w = some a := by
    have hcases : field w 25 3 = 2 ∨ field w 25 3 = 3 := by
      unfold field at *
      omega
    unfold Arm.State.executed at h
    rcases hcases with h2 | h3
    · rw [h2] at h
      exact h
    · rw [h3] at h
      exact h
  have hrd : w >>> 12 &&& 0xf = 15 ↔ field w 12 4 = 15 := and_f_eq_iff w 12 (by decide)
  unfold Arm.State.loadStore at hload
  unfold stepLdrStr
  dsimp only
  by_cases hundefined : bit w 25 = true ∧ bit w 4 = true
  · rw [if_pos hundefined] at hload
    cases hload
  rw [if_neg hundefined] at hload
  rw [if_neg (mt (undefined_iff w).mp hundefined)]
  by_cases hother : ¬bit w 20 = true ∨ field w 12 4 ≠ 15
  · -- the PC is not written
    rw [if_pos hother] at hload
    have hpc : regs.pc + 4 = a := Option.some.inj hload
    by_cases hmask : w &&& 0x00500000 ≠ 0x00100000 ∨ w &&& 0x01200000 = 0x00200000
    · rw [if_pos hmask]
      exact hpc
    · rw [if_neg hmask]
      push Not at hmask
      have h20 := ((loadWord_iff w).mp hmask.1).2
      rw [if_pos (mt hrd.mp (hother.resolve_left (not_not.mpr h20)))]
      exact hpc
  rw [if_neg hother] at hload
  push Not at hother
  obtain ⟨h20, h15⟩ := hother
  by_cases h22 : bit w 22 = true
  · rw [if_pos h22] at hload
    cases hload
  rw [if_neg h22] at hload
  by_cases huser : ¬bit w 24 = true ∧ bit w 21 = true
  · rw [if_pos huser] at hload
    cases hload
  rw [if_neg huser] at hload
  have hmask : ¬(w &&& 0x00500000 ≠ 0x00100000 ∨ w &&& 0x01200000 = 0x00200000) := by
    rw [ne_eq, loadWord_iff, user_iff]
    rintro (h | ⟨h24, h21⟩)
    · exact h ⟨Bool.eq_false_iff.mpr h22, h20⟩
    · exact huser ⟨Bool.eq_false_iff.mp h24, h21⟩
  rw [if_neg hmask, if_neg (not_not.mpr (hrd.mpr h15)), operand_and_f w 16 mem regs]
  have hread := (Option.ite_none_left_eq_some.mp (Option.ite_none_left_eq_some.mp hload).2).2
  obtain ⟨haligned, htarget⟩ := Option.ite_none_right_eq_some.mp hread
  -- before the access only a constant is added
  have haddress : (armState mem regs).loadAddress w = if w >>> 24 &&& 0x1 ≠ 0 then
      if w >>> 23 &&& 0x1 ≠ 0 then (armState mem regs).operand (Arm.regField w 16) + (w &&& 0xfff)
      else (armState mem regs).operand (Arm.regField w 16) - (w &&& 0xfff)
      else (armState mem regs).operand (Arm.regField w 16) := by
    unfold Arm.State.loadAddress
    dsimp only
    cases h24 : bit w 24 with
    | false => rw [if_neg (not_not.mpr ((and_1_eq_zero_iff 24).mpr h24)), if_pos Bool.false_ne_true]
    | true =>
      have h25 : bit w 25 = false := by
        rw [bit_eq_false_iff]
        rw [Arm.bit_iff] at h24
        unfold field at *
        omega
      have hp : w >>> 24 &&& 0x1 ≠ 0 := fun h0 =>
        Bool.false_ne_true (((and_1_eq_zero_iff 24).mp h0).symm.trans h24)
      rw [if_pos hp, if_neg (not_not.mpr rfl), h25, if_neg Bool.false_ne_true,
        show w &&& 0xfff = BitVec.ofNat 32 (field w 0 12) from and_low_eq 12 (by omega)]
      cases h23 : bit w 23 with
      | false => rw [if_neg (not_not.mpr ((and_1_eq_zero_iff 23).mpr h23)), if_neg Bool.false_ne_true]
      | true =>
        have hu : w >>> 23 &&& 0x1 ≠ 0 := fun h0 =>
          Bool.false_ne_true (((and_1_eq_zero_iff 23).mp h0).symm.trans h23)
        rw [if_pos hu, if_pos rfl]
  have hvalue : mem ((armState mem regs).loadAddress w) &&& ~~~3 = a :=
    eq_of_target_of_ne htarget fun h3 => hok (.thumb hclass h20 h15 h3)
  rw [← Aligned.load haligned mem, haddress] at hvalue
  refine Eq.trans ?_ hvalue
  by_cases hp : w >>> 24 &&& 0x1 ≠ 0
  · rw [if_pos hp, if_pos hp]
    have h25 : w >>> 24 &&& 0x2 = 0 := by
      rw [constant_iff, bit_eq_false_iff]
      rw [ne_eq, and_1_eq_zero_iff, Bool.not_eq_false, Arm.bit_iff] at hp
      unfold field at *
      omega
    rw [if_neg (not_not.mpr h25)]
  · rw [if_neg hp, if_neg hp]

theorem countRegs_eq (fuel : ℕ) : ∀ rbits n : BitVec 32, rbits.toNat < 2 ^ fuel →
    countRegs fuel rbits n = n + BitVec.ofNat 32 ((List.range fuel).countP rbits.getLsbD) := by
  induction fuel with
  | zero =>
    intro rbits n _
    exact (BitVec.add_zero n).symm
  | succ fuel ih =>
    intro rbits n hlt
    unfold countRegs
    by_cases hpos : 0 < rbits
    · rw [if_pos hpos]
      have hhalf : (rbits >>> 1).toNat < 2 ^ fuel := by
        rw [BitVec.toNat_ushiftRight, Nat.shiftRight_eq_div_pow]
        omega
      have hrest : (rbits >>> 1).getLsbD = rbits.getLsbD ∘ Nat.succ := by
        funext i
        rw [BitVec.getLsbD_ushiftRight, Nat.add_comm]
        rfl
      have hlow : rbits &&& 0x1 ≠ 0 ↔ rbits.getLsbD 0 = true := by
        have h0 := and_1_eq_zero_iff (w := rbits) 0
        rw [BitVec.ushiftRight_zero] at h0
        rw [ne_eq, h0, Bool.not_eq_false]
        rfl
      rw [ih _ _ hhalf, List.range_succ_eq_map, List.countP_cons, List.countP_map, hrest]
      by_cases h0 : rbits.getLsbD 0 = true
      · rw [if_pos (hlow.mpr h0), if_pos h0, BitVec.ofNat_add, BitVec.add_assoc, BitVec.add_comm 1]
        rfl
      · rw [if_neg (mt hlow.mp h0), if_neg h0, Nat.add_zero]
    · have hzero : rbits = 0 := by
        rw [BitVec.lt_def] at hpos
        exact BitVec.eq_of_toNat_eq (Nat.eq_zero_of_not_pos hpos)
      have hnone : (List.range (fuel + 1)).countP rbits.getLsbD = 0 := by
        rw [List.countP_eq_zero, hzero]
        intro i _
        exact Bool.eq_false_iff.mp BitVec.getLsbD_zero
      rw [if_neg hpos, hnone]
      exact (BitVec.add_zero n).symm

private theorem countRegs_list :
    countRegs 17 (w &&& 0xffff) 0 = BitVec.ofNat 32 ((List.range 16).countP (bit w)) := by
  have hlist : w &&& 0xffff = BitVec.ofNat 32 (field w 0 16) := and_low_eq 16 (by omega)
  have hlt := Arm.field_lt w 0 16
  have hbound : (w &&& 0xffff).toNat < 2 ^ 17 := by
    rw [hlist, BitVec.toNat_ofNat]
    omega
  have hbits (i : ℕ) : (w &&& 0xffff).getLsbD i = (bit w i && decide (i < 16)) := by
    rw [BitVec.getLsbD_and]
    congr 1
    change Nat.testBit (2 ^ 16 - 1) i = _
    exact Nat.testBit_two_pow_sub_one 16 i
  rw [countRegs_eq 17 _ _ hbound, List.range_succ, List.countP_append]
  have hlast : [16].countP (w &&& 0xffff).getLsbD = 0 := by
    rw [List.countP_eq_zero]
    intro i hi
    rw [List.mem_singleton.mp hi, hbits, decide_eq_false (by decide), Bool.and_false]
    exact Bool.false_ne_true
  rw [hlast, Nat.add_zero]
  refine (BitVec.zero_add _).trans (congrArg (BitVec.ofNat 32) ?_)
  apply List.countP_congr
  intro i hi
  rw [hbits, decide_eq_true (List.mem_range.mp hi), Bool.and_true]

/-- **LDM and STM**, but for an access behind the change of the address; and what is taken for them. -/
theorem stepLdmStm_eq (htype : field w 24 4 = 7 ∨ field w 24 4 = 8)
    (h : (armState mem regs).executed w = some a) (hok : ¬Mistaken (armState mem regs) w) :
    stepLdmStm mem w regs = a := by
  have hpc : (w >>> 20 &&& 0x1 = 0 ∨ w >>> 15 &&& 0x1 = 0) ↔ (¬bit w 20 = true ∨ ¬bit w 15 = true) := by
    rw [and_1_eq_zero_iff, and_1_eq_zero_iff, Bool.not_eq_true, Bool.not_eq_true]
  unfold stepLdmStm
  dsimp only
  unfold Arm.State.executed at h
  rcases htype with h7 | h8
  · -- LDR and STR with a register offset
    have h3 : field w 25 3 = 3 := by
      unfold field at *
      omega
    have hno : ¬bit w 20 = true ∨ ¬bit w 15 = true := by
      by_cases h20 : bit w 20 = true
      · exact Or.inr fun h15 => hok (.preIndexed h7 h20 h15)
      · exact Or.inl h20
    have hother : ¬bit w 20 = true ∨ field w 12 4 ≠ 15 := by
      refine hno.imp_right fun h15 heq => h15 ?_
      rw [Arm.bit_iff]
      unfold field at *
      omega
    rw [h3] at h
    rw [if_pos (hpc.mpr hno)]
    have h := (Option.ite_none_left_eq_some.mp h).2
    rw [if_pos hother] at h
    exact Option.some.inj h
  · have h4 : field w 25 3 = 4 := by
      unfold field at *
      omega
    have h24 : bit w 24 = false := by
      rw [bit_eq_false_iff]
      unfold field at *
      omega
    rw [h4] at h
    change (armState mem regs).loadStoreMultiple w = some a at h
    unfold Arm.State.loadStoreMultiple at h
    by_cases hno : ¬bit w 20 = true ∨ ¬bit w 15 = true
    · rw [if_pos hno] at h
      rw [if_pos (hpc.mpr hno)]
      exact Option.some.inj h
    rw [if_neg hno] at h
    rw [if_neg (mt hpc.mp hno)]
    push Not at hno
    replace h := (Option.ite_none_left_eq_some.mp h).2
    have hbase : Aligned ((armState mem regs).r (Arm.regField w 16)) := by
      by_contra hbase
      exact hok (.base h4 hno.1 hno.2 hbase)
    have haligned (k : BitVec 32) : Aligned ((armState mem regs).r (Arm.regField w 16) + 4 * k - 4) := by
      apply BitVec.eq_of_toNat_eq
      have hb := congrArg BitVec.toNat hbase
      rw [toNat_low] at hb ⊢
      rw [BitVec.toNat_sub, BitVec.toNat_add, BitVec.toNat_mul]
      change (2 ^ 32 - 4 + (_ + 4 * k.toNat % 2 ^ 32) % 2 ^ 32) % 2 ^ 32 % 4 = 0
      change _ = 0 at hb
      omega
    -- IA or DA
    have haddress : ∃ address, Aligned address ∧
        (if w >>> 23 &&& 0x3 = 1 then
            (armState mem regs).r (Arm.regField w 16) +
              4 * BitVec.ofNat 32 ((List.range 16).countP (bit w)) - 4
          else if w >>> 23 &&& 0x3 = 3 then
            (armState mem regs).r (Arm.regField w 16) + 4 * BitVec.ofNat 32 ((List.range 16).countP (bit w))
          else if w >>> 23 &&& 0x3 = 0 then (armState mem regs).r (Arm.regField w 16)
          else (armState mem regs).r (Arm.regField w 16) - 4) = address ∧
        (if bit w 23 = true then
            if bit w 24 = true then
              (armState mem regs).r (Arm.regField w 16) + 4 * BitVec.ofNat 32 ((List.range 16).countP (bit w))
            else (armState mem regs).r (Arm.regField w 16) +
              4 * BitVec.ofNat 32 ((List.range 16).countP (bit w)) - 4
          else if bit w 24 = true then (armState mem regs).r (Arm.regField w 16) - 4
          else (armState mem regs).r (Arm.regField w 16)) = address := by
      have hfield : field w 23 2 = field w 23 1 := by
        rw [bit_eq_false_iff] at h24
        unfold field at *
        omega
      cases h23 : bit w 23 with
      | true =>
        have hpu : w >>> 23 &&& 0x3 = 1 :=
          (eq_ofNat_iff (toNat_and_3 w 23) (k := 1) (by decide)).mpr (hfield.trans ((Arm.bit_iff _ _).mp h23))
        refine ⟨_, haligned _, if_pos hpu, ?_⟩
        rw [if_pos rfl, h24, if_neg Bool.false_ne_true]
      | false =>
        have hpu : w >>> 23 &&& 0x3 = 0 :=
          (eq_ofNat_iff (toNat_and_3 w 23) (k := 0) (by decide)).mpr
            (hfield.trans ((bit_eq_false_iff _ _).mp h23))
        refine ⟨_, hbase, ?_, ?_⟩
        · rw [hpu, if_neg (by decide), if_neg (by decide), if_pos rfl]
        · rw [if_neg Bool.false_ne_true, h24, if_neg Bool.false_ne_true]
    obtain ⟨address, haligned, hcode, hspec⟩ := haddress
    dsimp only at h
    rw [hspec, haligned.word] at h
    rw [r_and_f w 16 mem regs, countRegs_list, hcode, haligned.load mem]
    cases h22 : bit w 22 with
    | true =>
      rw [h22, if_pos rfl] at h
      obtain ⟨hvalue, heq⟩ := Option.ite_none_right_eq_some.mp h
      -- a return from an exception goes to ARM state
      have hword : mem address &&& ~~~1 = mem address := by
        apply BitVec.eq_of_toNat_eq
        have hv := congrArg BitVec.toNat (show mem address &&& 3 = 0 from hvalue)
        rw [toNat_low] at hv
        change _ = 0 at hv
        rw [toNat_and_not_1]
        omega
      exact hword.trans (Option.some.inj heq)
    | false =>
      rw [h22, if_neg Bool.false_ne_true] at h
      exact eq_of_target h

/-! ### Branches -/

private theorem offset_eq :
    ((w &&& ~~~0xff000000) <<< 8).sshiftRight (8 - 2) = Arm.State.branchOffset w := by
  unfold Arm.State.branchOffset
  apply BitVec.eq_of_getLsbD_eq
  intro i hi
  rw [BitVec.getLsbD_sshiftRight, BitVec.getLsbD_shiftLeft]
  interval_cases i <;> simp [BitVec.getLsbD_signExtend, BitVec.getElem_signExtend, BitVec.msb_eq_getLsbD_last]

theorem stepBranch_eq (hclass : field w 25 3 = 5) (h : (armState mem regs).executed w = some a) :
    stepBranch w regs = a := by
  unfold Arm.State.executed at h
  rw [hclass] at h
  unfold stepBranch
  dsimp only
  rw [offset_eq]
  exact Option.some.inj h

theorem stepNv_eq (h : (armState mem regs).unconditional w = some a) : stepNv w regs = a := by
  have htype : w >>> 25 &&& 0x7 = 5 ↔ field w 25 3 = 5 := eq_ofNat_iff (toNat_and_7 w 25) (by decide)
  unfold Arm.State.unconditional at h
  unfold stepNv
  dsimp only
  by_cases h5 : field w 25 3 = 5
  · rw [if_pos (htype.mpr h5), offset_eq]
    rw [h5] at h
    refine Eq.trans ?_ (Option.some.inj h)
    -- the two lowest bits of the offset are clear
    have hor : Arm.State.branchOffset w ||| (w >>> 23 &&& 0x2) =
        Arm.State.branchOffset w + if bit w 24 = true then 2 else 0 := by
      have hhalf : w >>> 23 &&& 0x2 = if bit w 24 = true then 2 else 0 := by
        rw [Arm.and_eq_iff]
        intro i hi
        unfold bit
        interval_cases i <;> cases h24 : w.getLsbD 24 <;> simp_all
      rw [hhalf]
      refine (BitVec.add_eq_or_of_and_eq_zero _ _ ?_).symm
      rw [Arm.and_eq_iff]
      unfold Arm.State.branchOffset bit
      intro i hi
      interval_cases i <;> cases h24 : w.getLsbD 24 <;> simp
    rw [hor, ← BitVec.add_assoc]
    rfl
  · rw [if_neg (mt htype.mp h5)]
    split at h
    · exact Option.some.inj (Option.ite_none_right_eq_some.mp h).2
    · exact Option.some.inj (Option.ite_none_right_eq_some.mp h).2
    · next h5' => exact absurd h5' h5
    · exact Option.some.inj h
    · exact Option.some.inj (Option.ite_none_left_eq_some.mp h).2
    · cases h

/-- **Single stepping** goes where the instruction goes: for every instruction whose behaviour is defined, and whose
condition is computed rightly, that is not of one of the kinds of `Mistaken`. -/
theorem stepInstruction_eq_next (hcond : ConditionRight (armState mem regs) (field w 28 4))
    (hok : field w 28 4 ≠ 15 → (armState mem regs).holds (field w 28 4) → ¬Mistaken (armState mem regs) w)
    (h : (armState mem regs).next w = some a) : stepInstruction mem w regs = a := by
  have hlt := Arm.field_lt w 28 4
  have hnibble : w >>> 28 = BitVec.ofNat 32 (field w 28 4) := by
    apply BitVec.eq_of_toNat_eq
    have := w.isLt
    rw [BitVec.toNat_ushiftRight, BitVec.toNat_ofNat, Nat.shiftRight_eq_div_pow]
    unfold field
    omega
  have hnv : w >>> 28 = 15 ↔ field w 28 4 = 15 := by
    rw [hnibble]
    constructor
    · intro heq
      have heq := congrArg BitVec.toNat heq
      rw [BitVec.toNat_ofNat] at heq
      change _ = 15 at heq
      omega
    · intro heq
      rw [heq]
      rfl
  have htype := toNat_and_f w 24
  have hbelow (k : ℕ) (hk : k < 2 ^ 32) : w >>> 24 &&& 0xf < BitVec.ofNat 32 k ↔ field w 24 4 < k := by
    rw [BitVec.lt_def, htype, BitVec.toNat_ofNat, Nat.mod_eq_of_lt hk]
  unfold stepInstruction
  dsimp only
  unfold Arm.State.next at h
  rw [hnibble, (executes_eq_holds_iff hlt).mpr hcond, ← hnibble]
  by_cases h15 : field w 28 4 = 15
  · rw [if_pos h15] at h
    rw [h15, if_pos (show (armState mem regs).holds 15 = true from rfl), if_pos (hnv.mpr h15)]
    exact stepNv_eq mem regs h
  rw [if_neg h15] at h
  by_cases hholds : (armState mem regs).holds (field w 28 4) = true
  · rw [if_pos hholds] at h
    have hok := hok h15 hholds
    rw [if_pos hholds, if_neg (mt hnv.mp h15)]
    have hparts : field w 24 4 = field w 24 1 + 2 * field w 25 3 ∧ field w 25 3 = field w 25 1 + 2 * field w 26 2 := by
      unfold field
      omega
    have h1 := Arm.field_lt w 24 1
    have h2 := Arm.field_lt w 25 1
    by_cases h4 : field w 24 4 < 4
    · rw [if_pos (show w >>> 24 &&& 0xf < 4 from (hbelow 4 (by decide)).mpr h4)]
      exact stepDataProcessing_eq mem regs (by omega) h hok
    rw [if_neg (show ¬w >>> 24 &&& 0xf < 4 from mt (hbelow 4 (by decide)).mp h4)]
    by_cases h7 : field w 24 4 < 7
    · rw [if_pos (show w >>> 24 &&& 0xf < 7 from (hbelow 7 (by decide)).mpr h7)]
      exact stepLdrStr_eq mem regs (by omega) (by omega) h hok
    rw [if_neg (show ¬w >>> 24 &&& 0xf < 7 from mt (hbelow 7 (by decide)).mp h7)]
    by_cases h9 : field w 24 4 < 9
    · rw [if_pos (show w >>> 24 &&& 0xf < 9 from (hbelow 9 (by decide)).mpr h9)]
      exact stepLdmStm_eq mem regs (by omega) h hok
    rw [if_neg (show ¬w >>> 24 &&& 0xf < 9 from mt (hbelow 9 (by decide)).mp h9)]
    by_cases hc : field w 24 4 < 12
    · rw [if_pos (show w >>> 24 &&& 0xf < 12 from (hbelow 12 (by decide)).mpr hc)]
      have hnot : field w 24 4 ≠ 9 := fun h => hok (.before h)
      exact stepBranch_eq mem regs (by omega) h
    rw [if_neg (show ¬w >>> 24 &&& 0xf < 12 from mt (hbelow 12 (by decide)).mp hc)]
    -- the coprocessors and SWI
    have hpc : regs.pc + 4 = a := by
      have hfield := Arm.field_lt w 25 3
      have hcases : field w 25 3 = 6 ∨ field w 25 3 = 7 := by omega
      unfold Arm.State.executed at h
      rcases hcases with h6 | h7
      · rw [h6] at h
        exact Option.some.inj h
      · rw [h7] at h
        exact Option.some.inj h
    unfold stepCoprocessor
    rw [ite_self]
    exact hpc
  · rw [if_neg hholds] at h
    rw [if_neg hholds]
    exact Option.some.inj h

end

/-- A return: r11 and r13 point to the stack, where two registers are saved. -/
def atReturn : CpuRegisters := fun i =>
  if i = 11 then 0x1008 else if i = 13 then 0x1000 else if i = 15 then 0x8000 else 0

def saved : Mem := fun address => if address = 0x1004 then 0x8040 else 0

theorem stepInstruction_return : stepInstruction saved 0xe8bd8010 atReturn = 0x8040 := by
  refine stepInstruction_eq_next saved atReturn ?_ ?_ (by decide +kernel)
  · rintro ⟨-, hle, -⟩
    exact absurd hle (by decide)
  · rintro - - hmistaken
    cases hmistaken with
    | borrow h => exact absurd h (by decide)
    | shift h => exact absurd h (by decide)
    | branchExchange h => exact absurd h (by decide)
    | status h => exact absurd h (by decide)
    | preIndexed h => exact absurd h (by decide)
    | before h => exact absurd h (by decide)
    | thumb h => exact absurd h (by decide)
    | base _ _ _ h => exact h (by decide)

theorem return_branches :
    (armState saved atReturn).next 0xe91ba800 = some 0x8040 ∧
      stepInstruction saved 0xe91ba800 atReturn = 0x6f2008 := by
  decide +kernel

end GdbServer
