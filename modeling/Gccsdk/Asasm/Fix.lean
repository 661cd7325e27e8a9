import Gccsdk.Lib.ArmData

/-!
# Immediate operands of data processing

`HelpCPU_Imm8s4` of `help_cpu.c` looks for a rotation by which a value fits into an instruction, and `Fix_Imm8s4` of
`fix.c` puts it there; where there is none, it tries the complementary opcode with the negative or the inverted value.

`fixImm8s4_keeps_iff`: the instruction that comes out does what was asked for, but for ADC and SBC with the negative
value. There the complement has to be the inverted value: `ADC Rd, Rn, #x` adds `x` and the carry, and `SBC` takes its
operand and the inverted carry away.
-/

namespace Asasm

open Arm

def UINT32_MAX : Word := 0xFFFFFFFF

/-- The masks of `HelpCPU_Imm8s4`. -/
def imm8s4Mask : List Word := [
  0x000000ff, 0xc000003f, 0xf000000f, 0xfc000003,
  0xff000000, 0x3fc00000, 0x0ff00000, 0x03fc0000,
  0x00ff0000, 0x003fc000, 0x000ff000, 0x0003fc00,
  0x0000ff00, 0x00003fc0, 0x00000ff0, 0x000003fc]

/-- The loop of `HelpCPU_Imm8s4`. For `i = 0` the value is shifted by 32, which C leaves open: there is 0 or the
value itself, and the result is the same. -/
def imm8s4Loop (value : Word) : ℕ → List Word → Word
  | _, [] => UINT32_MAX
  | i, mask :: masks =>
    if value &&& mask = value then
      value >>> ((16 - i) * 2) ||| value <<< (i * 2) ||| BitVec.ofNat 32 (i * 256)
    else imm8s4Loop value (i + 1) masks

def helpCPUImm8s4 (value : Word) : Word := imm8s4Loop value 0 imm8s4Mask

/-! ### `Fix_Imm8s4` -/

/-- `M_MNEM`, and the mnemonics -/
def M_MNEM : Word := 0x01e00000
def M_ADC : Word := 0x00a00000
def M_ADD : Word := 0x00800000
def M_AND : Word := 0x00000000
def M_BIC : Word := 0x01c00000
def M_SBC : Word := 0x00c00000
def M_SUB : Word := 0x00400000
def M_CMN : Word := 0x01600000
def M_CMP : Word := 0x01400000
def M_MOV : Word := 0x01a00000
def M_MVN : Word := 0x01e00000

def otherImm (mnemonic im : Word) : Word :=
  if mnemonic = M_ADD ∨ mnemonic = M_SUB ∨ mnemonic = M_ADC ∨ mnemonic = M_SBC ∨ mnemonic = M_CMP ∨
      mnemonic = M_CMN then -im
  else if mnemonic = M_MOV ∨ mnemonic = M_MVN ∨ mnemonic = M_AND ∨ mnemonic = M_BIC then ~~~im
  else im

/-- The opcode that is tried; for the others the program asserts that it does not come here. -/
def otherMnem (mnemonic : Word) : Word :=
  if mnemonic = M_ADD then M_SUB
  else if mnemonic = M_SUB then M_ADD
  else if mnemonic = M_ADC then M_SBC
  else if mnemonic = M_SBC then M_ADC
  else if mnemonic = M_CMP then M_CMN
  else if mnemonic = M_CMN then M_CMP
  else if mnemonic = M_MOV then M_MVN
  else if mnemonic = M_MVN then M_MOV
  else if mnemonic = M_AND then M_BIC
  else if mnemonic = M_BIC then M_AND
  else mnemonic

/-- The errors of `Fix_Imm8s4`: `Illegal immediate constant`. -/
inductive FixError
  | illegalImmediate (im : Word)
  deriving DecidableEq

/-- **`Fix_Imm8s4`**, but for what is said about a change of the opcode. -/
def fixImm8s4 (ir im : Word) : Except FixError Word :=
  let i8s4 := helpCPUImm8s4 im
  if i8s4 ≠ UINT32_MAX then .ok (ir ||| i8s4)
  else
    let mnemonic := ir &&& M_MNEM
    let i8s4 := helpCPUImm8s4 (otherImm mnemonic im)
    if i8s4 = UINT32_MAX then .error (.illegalImmediate im)
    else .ok (ir &&& ~~~M_MNEM ||| otherMnem mnemonic ||| i8s4)

/-! ### What the instruction does -/

def opcodeOf (ir : Word) : Opcode := Opcode.ofCode (field ir 21 4)

/-- **The instruction does what was asked for**: the other fields of `ir` stay, for every value of the
source register and all flags the destination gets the same value, and where an arithmetic operation has the
S bit, the flags are the same. -/
structure Keeps (ir im ir' : Word) : Prop where
  fields : ir' &&& ~~~(M_MNEM ||| 0xfff) = ir &&& ~~~(M_MNEM ||| 0xfff)
  dest : ∀ a f, (executeImmediate ir' a f).dest = ((opcodeOf ir).effect (bit ir 20) a im f.c f).dest
  flags : (opcodeOf ir).arithmetic = true → bit ir 20 = true →
    ∀ a f, (executeImmediate ir' a f).flags = ((opcodeOf ir).effect (bit ir 20) a im f.c f).flags

def NegatesCarry (ir im : Word) : Prop :=
  (opcodeOf ir = .adc ∨ opcodeOf ir = .sbc) ∧ helpCPUImm8s4 im = UINT32_MAX ∧ helpCPUImm8s4 (-im) ≠ UINT32_MAX

/-! ### The operand -/

theorem imm8s4Mask_rotate : ∀ i, (h : i < imm8s4Mask.length) → (imm8s4Mask[i]).rotateLeft (2 * i) = 0xff := by
  decide

theorem rotated_of_mask {value : Word} {i : ℕ} (hi : i < imm8s4Mask.length) (h : value &&& imm8s4Mask[i] = value) :
    value >>> ((16 - i) * 2) ||| value <<< (i * 2) = value.rotateLeft (2 * i) ∧
      (value.rotateLeft (2 * i)).toNat < 2 ^ 8 := by
  have hlen : i < 16 := hi
  constructor
  · rw [BitVec.rotateLeft_def, Nat.mod_eq_of_lt (by omega), BitVec.or_comm, Nat.mul_comm i 2]
    congr 2
    omega
  · rw [← h, rotateLeft_and _ _ (by omega), imm8s4Mask_rotate i hi, BitVec.toNat_and]
    exact Nat.lt_succ_of_le Nat.and_le_right

theorem imm8s4Loop_sound {value : Word} {i : ℕ} (hi : i ≤ 16)
    (h : imm8s4Loop value i (imm8s4Mask.drop i) ≠ UINT32_MAX) :
    (imm8s4Loop value i (imm8s4Mask.drop i)).toNat < 2 ^ 12 ∧
      ∀ ir, field ir 0 12 = 0 → immediate (ir ||| imm8s4Loop value i (imm8s4Mask.drop i)) = value := by
  induction hi using Nat.decreasingInduction with
  | self => exact absurd rfl h
  | of_succ i hi ih =>
    have hdrop : imm8s4Mask.drop i = imm8s4Mask[i] :: imm8s4Mask.drop (i + 1) := List.drop_eq_getElem_cons hi
    rw [hdrop, imm8s4Loop] at h ⊢
    by_cases hmask : value &&& imm8s4Mask[i] = value
    · obtain ⟨hrotate, hless⟩ := rotated_of_mask hi hmask
      rw [if_pos hmask, hrotate]
      refine ⟨(immediate_encoded 0 value hi rfl hless).1, ?_⟩
      intro ir hir
      exact (immediate_encoded ir value hi hir hless).2
    · rw [if_neg hmask] at h ⊢
      exact ih h

theorem helpCPUImm8s4_sound {value : Word} (h : helpCPUImm8s4 value ≠ UINT32_MAX) :
    (helpCPUImm8s4 value).toNat < 2 ^ 12 ∧
      ∀ ir, field ir 0 12 = 0 → immediate (ir ||| helpCPUImm8s4 value) = value :=
  imm8s4Loop_sound (Nat.zero_le 16) h

theorem ne_of_not_encoded {im : Word} (h : helpCPUImm8s4 im = UINT32_MAX) : im ≠ 0 ∧ im ≠ BitVec.intMin 32 := by
  constructor
  all_goals
    rintro rfl
    exact absurd h (by decide)

/-! ### The instruction that comes out -/

section Instruction
variable {ir im e m : Word}

theorem field_or_operand (hir : field ir 0 12 = 0) (he : e.toNat < 2 ^ 12) {lo : ℕ} (hlo : 12 ≤ lo) (n : ℕ) :
    field (ir ||| e) lo n = field ir lo n := by
  have hfront : (ir ||| e).toNat / 2 ^ 12 = ir.toNat / 2 ^ 12 := by
    rw [toNat_or_operand ir e hir he]
    rw [field] at hir
    omega
  obtain ⟨k, rfl⟩ := Nat.exists_eq_add_of_le hlo
  rw [field, field, Nat.pow_add, ← Nat.div_div_eq_div_mul, ← Nat.div_div_eq_div_mul, hfront]

theorem bit_congr {w w' : Word} {i : ℕ} (h : field w i 1 = field w' i 1) : bit w i = bit w' i := by
  rw [Bool.eq_iff_iff, bit_iff, bit_iff, h]

abbrev KEPT : Word := ~~~(M_MNEM ||| 0xfff)

theorem kept_or_operand (he : e.toNat < 2 ^ 12) : (ir ||| e) &&& KEPT = ir &&& KEPT := by
  have hkept : ∀ i < 32, bit KEPT i = true → 12 ≤ i := by decide
  apply eq_of_bit_eq
  intro i hi
  rw [bit_and, bit_and, bit_or]
  cases hmask : bit KEPT i with
  | false => rw [Bool.and_false, Bool.and_false]
  | true =>
    have hnone : bit e i = false :=
      Nat.testBit_lt_two_pow (he.trans_le (Nat.pow_le_pow_right Nat.two_pos (hkept i hi hmask)))
    rw [hnone, Bool.or_false]

/-- **With an operand that is `im'`**, an instruction does what its opcode does with `im'`. -/
theorem executeImmediate_or {im' : Word} (hir : field ir 0 12 = 0) (he : e.toNat < 2 ^ 12)
    (him : immediate (ir ||| e) = im') (a : Word) (f : Flags) :
    ∃ shifterCarry, executeImmediate (ir ||| e) a f =
      (opcodeOf ir).effect (bit ir 20) a im' shifterCarry f := by
  refine ⟨immediateCarry (ir ||| e) f, ?_⟩
  rw [executeImmediate, him, field_or_operand hir he (by omega), opcodeOf,
    bit_congr (field_or_operand hir he (by omega) 1)]

theorem keeps_same (hir : field ir 0 12 = 0) (h : helpCPUImm8s4 im ≠ UINT32_MAX) :
    Keeps ir im (ir ||| helpCPUImm8s4 im) := by
  obtain ⟨hless, himm⟩ := helpCPUImm8s4_sound h
  refine ⟨kept_or_operand hless, ?_, ?_⟩
  · intro a f
    obtain ⟨_, heq⟩ := executeImmediate_or hir hless (himm ir hir) a f
    rw [heq]
    rfl
  · intro harith _ a f
    obtain ⟨_, heq⟩ := executeImmediate_or hir hless (himm ir hir) a f
    rw [heq, Opcode.effect_of_sum rfl (Opcode.isSome_sum harith a im f.c) rfl]

def mnemOf (op : Opcode) : Word := BitVec.ofNat 32 (op.code * 2 ^ 21)

theorem bit_mnem : (∀ i < 32, bit M_MNEM i = decide (21 ≤ i ∧ i < 21 + 4)) ∧
    (∀ op, field (mnemOf op) 21 4 = op.code) ∧ ∀ op, ∀ i < 32, ¬(21 ≤ i ∧ i < 21 + 4) → bit (mnemOf op) i = false := by
  refine ⟨by decide, ?_, ?_⟩
  · rintro (_ | _) <;> decide
  · rintro (_ | _) <;> decide

theorem and_mnem (ir : Word) : ir &&& M_MNEM = mnemOf (opcodeOf ir) := by
  obtain ⟨hmnem, hfield, hout⟩ := bit_mnem
  have hcode : field (mnemOf (opcodeOf ir)) 21 4 = field ir 21 4 := by
    rw [hfield, opcodeOf, Opcode.code_ofCode (field_lt ir 21 4)]
  apply eq_of_bit_eq
  intro i hi
  rw [bit_and, hmnem i hi]
  by_cases hin : 21 ≤ i ∧ i < 21 + 4
  · have hbit := congrArg (Nat.testBit · (i - 21)) hcode
    rw [testBit_field, testBit_field, Nat.add_sub_cancel' hin.1, decide_eq_true (by omega), Bool.true_and,
      Bool.true_and] at hbit
    rw [decide_eq_true hin, Bool.and_true, hbit]
  · rw [decide_eq_false hin, Bool.and_false, hout _ i hi hin]

theorem field_other (ir : Word) (op : Opcode) :
    field (ir &&& ~~~M_MNEM ||| mnemOf op) 0 12 = field ir 0 12 ∧
      opcodeOf (ir &&& ~~~M_MNEM ||| mnemOf op) = op ∧
      bit (ir &&& ~~~M_MNEM ||| mnemOf op) 20 = bit ir 20 ∧
      (ir &&& ~~~M_MNEM ||| mnemOf op) &&& KEPT = ir &&& KEPT := by
  obtain ⟨hmnem, hfield, hout⟩ := bit_mnem
  have hsame : ∀ i < 32, ¬(21 ≤ i ∧ i < 21 + 4) → bit (ir &&& ~~~M_MNEM ||| mnemOf op) i = bit ir i := by
    intro i hi hin
    rw [bit_or, bit_and, bit_not _ hi, hmnem i hi, hout op i hi hin, decide_eq_false hin, Bool.not_false,
      Bool.and_true, Bool.or_false]
  have hother : ∀ i, 21 ≤ i → i < 21 + 4 → bit (ir &&& ~~~M_MNEM ||| mnemOf op) i = bit (mnemOf op) i := by
    intro i hlo hhi
    rw [bit_or, bit_and, bit_not _ (by omega), hmnem i (by omega), decide_eq_true ⟨hlo, hhi⟩, Bool.not_true,
      Bool.and_false, Bool.false_or]
  refine ⟨?_, ?_, hsame 20 (by omega) (by omega), ?_⟩
  · exact field_congr fun i _ hi => hsame i (by omega) (by omega)
  · rw [opcodeOf, field_congr hother, hfield, Opcode.ofCode_code]
  · have hkept : ∀ i < 32, bit KEPT i = true → ¬(21 ≤ i ∧ i < 21 + 4) := by decide
    apply eq_of_bit_eq
    intro i hi
    rw [bit_and, bit_and]
    cases hmask : bit KEPT i with
    | false => rw [Bool.and_false, Bool.and_false]
    | true => rw [hsame i hi (hkept i hi hmask)]

theorem other_cases (op : Opcode) (im : Word) :
    (∃ op', otherMnem (mnemOf op) = mnemOf op' ∧ op.negated = some op' ∧ otherImm (mnemOf op) im = -im) ∨
    (∃ op', otherMnem (mnemOf op) = mnemOf op' ∧ op.inverted = some op' ∧ otherImm (mnemOf op) im = ~~~im) ∨
    (op = .adc ∧ otherMnem (mnemOf op) = mnemOf .sbc ∧ otherImm (mnemOf op) im = -im) ∨
    (op = .sbc ∧ otherMnem (mnemOf op) = mnemOf .adc ∧ otherImm (mnemOf op) im = -im) ∨
    (op ≠ .adc ∧ op ≠ .sbc ∧ otherImm (mnemOf op) im = im) := by
  cases op with
  | add => exact Or.inl ⟨.sub, rfl, rfl, rfl⟩
  | sub => exact Or.inl ⟨.add, rfl, rfl, rfl⟩
  | cmp => exact Or.inl ⟨.cmn, rfl, rfl, rfl⟩
  | cmn => exact Or.inl ⟨.cmp, rfl, rfl, rfl⟩
  | mov => exact Or.inr (Or.inl ⟨.mvn, rfl, rfl, rfl⟩)
  | mvn => exact Or.inr (Or.inl ⟨.mov, rfl, rfl, rfl⟩)
  | and => exact Or.inr (Or.inl ⟨.bic, rfl, rfl, rfl⟩)
  | bic => exact Or.inr (Or.inl ⟨.and, rfl, rfl, rfl⟩)
  | adc => exact Or.inr (Or.inr (Or.inl ⟨rfl, rfl, rfl⟩))
  | sbc => exact Or.inr (Or.inr (Or.inr (Or.inl ⟨rfl, rfl, rfl⟩)))
  | _ => exact Or.inr (Or.inr (Or.inr (Or.inr ⟨nofun, nofun, rfl⟩)))

theorem executeImmediate_other (op : Opcode) {im' : Word} (hir : field ir 0 12 = 0)
    (h : helpCPUImm8s4 im' ≠ UINT32_MAX) :
    (ir &&& ~~~M_MNEM ||| mnemOf op ||| helpCPUImm8s4 im') &&& KEPT = ir &&& KEPT ∧
      ∀ a f, ∃ shifterCarry, executeImmediate (ir &&& ~~~M_MNEM ||| mnemOf op ||| helpCPUImm8s4 im') a f =
        op.effect (bit ir 20) a im' shifterCarry f := by
  obtain ⟨hless, himm⟩ := helpCPUImm8s4_sound h
  obtain ⟨hempty, hop, hbit, hkept⟩ := field_other ir op
  rw [hir] at hempty
  refine ⟨(kept_or_operand hless).trans hkept, ?_⟩
  intro a f
  obtain ⟨shifterCarry, heq⟩ := executeImmediate_or hempty hless (himm _ hempty) a f
  rw [hop, hbit] at heq
  exact ⟨shifterCarry, heq⟩

def clearFlags : Flags := ⟨false, false, false, false⟩

/-- **The instruction that is returned for another value**: wrong for ADC and SBC, and right for the others. -/
theorem keeps_other {ir' : Word} (hir : field ir 0 12 = 0) (hnot : helpCPUImm8s4 im = UINT32_MAX)
    (h : fixImm8s4 ir im = .ok ir') : Keeps ir im ir' ↔ opcodeOf ir ≠ .adc ∧ opcodeOf ir ≠ .sbc := by
  rw [fixImm8s4, if_neg (not_not.mpr hnot), and_mnem] at h
  dsimp only at h
  split at h
  · cases h
  · rename_i hencoded
    obtain rfl := Except.ok.inj h
    rcases other_cases (opcodeOf ir) im with ⟨op', hmnem, hop, him⟩ | ⟨op', hmnem, hop, him⟩ | ⟨hop, hmnem, him⟩ |
      ⟨hop, hmnem, him⟩ | ⟨-, -, him⟩
    · -- The negative operand.
      rw [him] at hencoded ⊢
      obtain ⟨hkept, heffect⟩ := executeImmediate_other op' hir hencoded
      obtain ⟨hzero, hmin⟩ := ne_of_not_encoded hnot
      have hsame : ∀ a f, executeImmediate (ir &&& ~~~M_MNEM ||| mnemOf op' ||| helpCPUImm8s4 (-im)) a f =
          (opcodeOf ir).effect (bit ir 20) a im f.c f := by
        intro a f
        obtain ⟨_, heq⟩ := heffect a f
        rw [heq, Opcode.effect_negated hop hzero hmin]
      rw [hmnem]
      refine iff_of_true ⟨hkept, fun a f => by rw [hsame], fun _ _ a f => by rw [hsame]⟩ ?_
      constructor
      all_goals
        intro heq
        rw [heq] at hop
        cases hop
    · -- The inverted operand.
      rw [him] at hencoded ⊢
      obtain ⟨hkept, heffect⟩ := executeImmediate_other op' hir hencoded
      have hlogic : (opcodeOf ir).arithmetic = false ∧ opcodeOf ir ≠ .adc ∧ opcodeOf ir ≠ .sbc := by
        generalize opcodeOf ir = op at hop
        cases op with
        | mov | mvn | and | bic => exact ⟨rfl, nofun, nofun⟩
        | _ => cases hop
      rw [hmnem]
      refine iff_of_true ⟨hkept, ?_, ?_⟩ hlogic.2
      · intro a f
        obtain ⟨_, heq⟩ := heffect a f
        rw [heq, Opcode.dest_inverted hop]
      · intro harith
        rw [hlogic.1] at harith
        cases harith
    · -- ADC with the negative operand.
      rw [him] at hencoded ⊢
      rw [hmnem]
      refine iff_of_false ?_ fun hboth => hboth.1 hop
      intro hkeeps
      obtain ⟨-, heffect⟩ := executeImmediate_other .sbc hir hencoded
      obtain ⟨_, heq⟩ := heffect 0 clearFlags
      have hdest := hkeeps.dest 0 clearFlags
      rw [heq, hop] at hdest
      exact Opcode.dest_sbc_neg hdest
    · -- SBC with the negative operand.
      rw [him] at hencoded ⊢
      rw [hmnem]
      refine iff_of_false ?_ fun hboth => hboth.2 hop
      intro hkeeps
      obtain ⟨-, heffect⟩ := executeImmediate_other .adc hir hencoded
      obtain ⟨_, heq⟩ := heffect 0 clearFlags
      have hdest := hkeeps.dest 0 clearFlags
      rw [heq, hop] at hdest
      exact Opcode.dest_adc_neg hdest
    · rw [him] at hencoded
      exact absurd hnot hencoded

theorem fixImm8s4_carry (hnot : helpCPUImm8s4 im = UINT32_MAX) (hop : opcodeOf ir = .adc ∨ opcodeOf ir = .sbc) :
    (∃ ir', fixImm8s4 ir im = .ok ir') ↔ helpCPUImm8s4 (-im) ≠ UINT32_MAX := by
  have him : otherImm (mnemOf (opcodeOf ir)) im = -im := by
    rcases hop with hop | hop
    all_goals
      rw [hop]
      rfl
  rw [fixImm8s4, if_neg (not_not.mpr hnot), and_mnem]
  dsimp only
  rw [him]
  by_cases hencoded : helpCPUImm8s4 (-im) = UINT32_MAX
  · rw [if_pos hencoded]
    exact iff_of_false nofun fun h => h hencoded
  · rw [if_neg hencoded]
    exact iff_of_true ⟨_, rfl⟩ hencoded

/-- **What `Fix_Imm8s4` returns does what was asked for**, if and only if the negative value is not taken with the
carry. -/
theorem fixImm8s4_keeps_iff (ir im : Word) (hir : field ir 0 12 = 0) :
    (∀ ir', fixImm8s4 ir im = .ok ir' → Keeps ir im ir') ↔ ¬NegatesCarry ir im := by
  by_cases hsame : helpCPUImm8s4 im = UINT32_MAX
  · constructor
    · rintro hall ⟨hop, -, hencoded⟩
      obtain ⟨ir', h⟩ := (fixImm8s4_carry hsame hop).mpr hencoded
      have hnot := (keeps_other hir hsame h).mp (hall ir' h)
      exact hop.elim hnot.1 hnot.2
    · intro hnot ir' h
      rw [keeps_other hir hsame h, ← not_or]
      exact fun hop => hnot ⟨hop, hsame, (fixImm8s4_carry hsame hop).mp ⟨ir', h⟩⟩
  · refine iff_of_true ?_ fun hcarry => hsame hcarry.2.1
    intro ir' h
    rw [fixImm8s4, if_pos hsame] at h
    obtain rfl := Except.ok.inj h
    exact keeps_same hir hsame

theorem fixImm8s4_keeps_iff_adcMinusOne :
    (∀ ir', fixImm8s4 0xe2a01000 (-1) = .ok ir' → Keeps 0xe2a01000 (-1) ir') ↔ ¬NegatesCarry 0xe2a01000 (-1) :=
  fixImm8s4_keeps_iff 0xe2a01000 (-1) (by decide)

/-- `ADC R1, R0, #-1` becomes `SBC R1, R0, #1`. -/
theorem adcMinusOne_not_kept : ¬∀ ir im, field ir 0 12 = 0 → ∀ ir', fixImm8s4 ir im = .ok ir' → Keeps ir im ir' := by
  intro hall
  have hkeeps := hall 0xe2a01000 (-1) (by decide) 0xe2c01001 (by decide)
  have hdest := hkeeps.dest 0 clearFlags
  exact absurd hdest (by decide)

end Instruction

end Asasm
