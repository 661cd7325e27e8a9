import Gccsdk.Lib.Address
import Mathlib.Data.List.Basic
import Mathlib.Logic.Function.Basic

/-!
# Single stepping

`step.c`: `step_instruction` predicts the address of the instruction that is executed after the one at the PC.
The registers are those of `cpu_registers`, and the memory is one of words.

A word that is read at an address that is not a multiple of 4 comes rotated, and is written at the multiple of
4 below, as processors before ARMv6 do it.
-/

namespace GdbServer

/-- `cpu_registers`, as its array `raw`: r0 to r15, the registers of the FPA, and the CPSR at the end. -/
abbrev CpuRegisters := Fin 42 → BitVec 32

def CpuRegisters.r (regs : CpuRegisters) (n : BitVec 32) : BitVec 32 :=
  regs ⟨n.toNat % 16, by omega⟩

instance neZero_registers : NeZero 42 := ⟨by decide⟩

def CpuRegisters.cpsr (regs : CpuRegisters) : BitVec 32 := regs 41

abbrev CpuRegisters.pc (regs : CpuRegisters) : BitVec 32 := regs 15

/-! ### Memory -/

abbrev Mem := BitVec 32 → BitVec 32

def Mem.load (mem : Mem) (address : BitVec 32) : BitVec 32 :=
  (mem (address &&& ~~~3)).rotateRight (8 * (address &&& 3).toNat)

def Mem.store (mem : Mem) (address value : BitVec 32) : Mem :=
  Function.update mem (address &&& ~~~3) value

abbrev Aligned (address : BitVec 32) : Prop := address &&& 3 = 0

theorem Aligned.word {a : BitVec 32} (h : Aligned a) : a &&& ~~~3 = a := Address.and_not_of_and_eq_zero h

theorem Aligned.load {a : BitVec 32} (h : Aligned a) (mem : Mem) : mem.load a = mem a := by
  unfold Mem.load
  rw [h, h.word]
  simp [BitVec.rotateRight, BitVec.rotateRightAux]

theorem Aligned.store {a : BitVec 32} (h : Aligned a) (mem : Mem) (value : BitVec 32) :
    mem.store a value = Function.update mem a value := by
  unfold Mem.store
  rw [h.word]

/-! ### The code -/

def ror (x n : BitVec 32) : BitVec 32 := x >>> n ||| x <<< (32 - n)

def shiftValue (value type amount carry reg : BitVec 32) : BitVec 32 :=
  if type = 0 then if amount < 32 then value <<< amount else 0
  else if type = 1 then
    let amount := if reg = 0 then amount + 1 else amount
    if amount < 32 then value >>> amount else 0
  else if type = 2 then
    let amount := if reg = 0 then amount + 1 else amount
    if amount < 32 then value.sshiftRight amount.toNat
    else if value &&& 0x80000000 ≠ 0 then -1 else 0
  else
    let amount := amount &&& 0x1f
    if reg = 0 ∧ amount = 0 then carry <<< 31 ||| value >>> 1 else ror value amount

def stepNv (instruction : BitVec 32) (regs : CpuRegisters) : BitVec 32 :=
  let type := instruction >>> 25 &&& 0x7
  if type = 5 then
    let imm := instruction &&& ~~~0xff000000
    let imm := (imm <<< 8).sshiftRight (8 - 2)
    let imm := imm ||| (instruction >>> 23 &&& 0x2)
    regs.pc + 8 + imm
  else regs.pc + 4

def stepMiscNonDp (instruction : BitVec 32) (regs : CpuRegisters) : BitVec 32 :=
  let type := instruction >>> 4 &&& 0xf
  if (type = 0x1 ∨ type = 0x2) ∧ instruction >>> 20 &&& 0xf = 0x2 then
    let rm := regs.r (instruction &&& 0xf)
    let rm := if instruction &&& 0xf = 15 then rm + 8 else rm
    rm &&& ~~~0x1
  else regs.pc + 4

def stepMulLdSt (_instruction : BitVec 32) (regs : CpuRegisters) : BitVec 32 := regs.pc + 4

/-- The second operand, in `step_data_processing`. -/
def dpOperand (instruction : BitVec 32) (regs : CpuRegisters) : BitVec 32 :=
  let imm := instruction >>> 24 &&& 0x2
  if imm ≠ 0 then
    let immediate := instruction &&& 0xff
    let rot := instruction >>> 8 &&& 0xf
    ror immediate (2 * rot)
  else
    let rm := instruction &&& 0xf
    let rs := instruction >>> 8 &&& 0xf
    let type := instruction >>> 5 &&& 0x3
    let reg := instruction &&& 0x10
    let carry := regs.cpsr >>> 29 &&& 0x1
    let amount := if reg ≠ 0 then regs.r rs &&& 0xff else instruction >>> 7 &&& 0x1f
    let opcode2 := regs.r rm
    let opcode2 := if rm = 15 then opcode2 + 8 else opcode2
    shiftValue opcode2 type amount carry reg

def stepDataProcessing (instruction : BitVec 32) (regs : CpuRegisters) : BitVec 32 :=
  if instruction &&& 0x01900000 = 0x01000000 then stepMiscNonDp instruction regs
  else if instruction &&& 0x02000090 = 0x90 then stepMulLdSt instruction regs
  else
    let rd := instruction >>> 12 &&& 0xf
    let op := instruction >>> 21 &&& 0xf
    if rd ≠ 15 then regs.pc + 4
    else
      let opcode2 := dpOperand instruction regs
      -- MOV and MVN
      if op = 13 then opcode2
      else if op = 15 then ~~~opcode2
      else
        let rn := regs.r (instruction >>> 16 &&& 0xf)
        let carry := regs.cpsr >>> 29 &&& 0x1
        let rn := if instruction >>> 16 &&& 0xf = 15 then rn + 8 else rn
        -- AND, EOR, SUB, RSB, ADD, ADC, SBC, RSC, ORR and BIC
        if op = 0 then rn &&& opcode2
        else if op = 1 then rn ^^^ opcode2
        else if op = 2 then rn - opcode2
        else if op = 3 then opcode2 - rn
        else if op = 4 then rn + opcode2
        else if op = 5 then rn + opcode2 + carry
        else if op = 6 then rn - opcode2 - ~~~carry
        else if op = 7 then opcode2 - rn - ~~~carry
        else if op = 12 then rn ||| opcode2
        else if op = 14 then rn &&& ~~~opcode2
        else opcode2

def stepLdrStr (mem : Mem) (instruction : BitVec 32) (regs : CpuRegisters) : BitVec 32 :=
  if instruction &&& 0x02000010 = 0x02000010 then regs.pc + 4
  else if instruction &&& 0x00500000 ≠ 0x00100000 ∨ instruction &&& 0x01200000 = 0x00200000 then
    regs.pc + 4
  else
    let rd := instruction >>> 12 &&& 0xf
    if rd ≠ 15 then regs.pc + 4
    else
      let reg := instruction >>> 24 &&& 0x2
      let rn := regs.r (instruction >>> 16 &&& 0xf)
      let rn := if instruction >>> 16 &&& 0xf = 15 then rn + 8 else rn
      let offset :=
        if reg ≠ 0 then
          let amount := instruction >>> 7 &&& 0x1f
          let type := instruction >>> 5 &&& 0x3
          let rm := regs.r (instruction &&& 0xf)
          if amount ≠ 0 then shiftValue rm type amount (regs.cpsr >>> 29 &&& 0x1) 0 else rm
        else instruction &&& 0xfff
      let p := instruction >>> 24 &&& 0x1
      let address :=
        if p ≠ 0 then
          let u := instruction >>> 23 &&& 0x1
          if u ≠ 0 then rn + offset else rn - offset
        else rn
      mem.load address &&& ~~~0x3

/-- The loop of `step_ldm_stm` that counts the registers. -/
def countRegs : ℕ → BitVec 32 → BitVec 32 → BitVec 32
  | 0, _, n_regs => n_regs
  | fuel + 1, rbits, n_regs =>
    if 0 < rbits then
      countRegs fuel (rbits >>> 1) (if rbits &&& 0x1 ≠ 0 then n_regs + 1 else n_regs)
    else n_regs

/-- `step_ldm_stm`; there are sixteen bits to count. -/
def stepLdmStm (mem : Mem) (instruction : BitVec 32) (regs : CpuRegisters) : BitVec 32 :=
  if instruction >>> 20 &&& 0x1 = 0 ∨ instruction >>> 15 &&& 0x1 = 0 then regs.pc + 4
  else
    let rn := regs.r (instruction >>> 16 &&& 0xf)
    let pu := instruction >>> 23 &&& 0x3
    let n_regs := countRegs 17 (instruction &&& 0xffff) 0
    let address :=
      -- IA, IB, DA and DB
      if pu = 1 then rn + 4 * n_regs - 4
      else if pu = 3 then rn + 4 * n_regs
      else if pu = 0 then rn
      else rn - 4
    mem.load address &&& ~~~0x1

def stepBranch (instruction : BitVec 32) (regs : CpuRegisters) : BitVec 32 :=
  let imm := instruction &&& ~~~0xff000000
  let imm := (imm <<< 8).sshiftRight (8 - 2)
  regs.pc + 8 + imm

def stepCoprocessor (_instruction : BitVec 32) (regs : CpuRegisters) : BitVec 32 := regs.pc + 4

def condMasks : List (BitVec 32) :=
  [0x4, 0x4, 0x2, 0x2, 0x8, 0x8, 0x1, 0x1, 0x6, 0x6, 0x9, 0x9, 0xd, 0xd, 0x0, 0x0]

def condVals : List (BitVec 32) := [0x4, 0x0, 0x2, 0x0, 0x8, 0x0, 0x1, 0x0]

/-- The variable `execute` of `step_instruction`. -/
def executes (cond : BitVec 32) (cpsr : BitVec 32) : Bool :=
  let flags := cpsr >>> 28 &&& condMasks.getD cond.toNat 0
  if cond < 8 then flags = condVals.getD cond.toNat 0
  else if cond < 10 then if cond = 8 then flags = 0x2 else flags ≠ 0x2
  else if cond < 12 then
    let nv := flags ^^^ flags >>> 3
    if cond = 10 then nv = 0 else nv ≠ 0
  else if cond < 14 then
    let z := flags &&& 0x4
    let nv := (flags &&& ~~~(0x4 : BitVec 32)) ^^^ (flags &&& ~~~(0x4 : BitVec 32)) >>> 3
    if cond = 12 then z = 0 ∧ nv = 0 else z ≠ 0 ∨ nv ≠ 0
  else true

def stepInstruction (mem : Mem) (instruction : BitVec 32) (regs : CpuRegisters) : BitVec 32 :=
  let cond := instruction >>> 28
  if executes cond regs.cpsr then
    let type := instruction >>> 24 &&& 0xf
    if cond = 15 then stepNv instruction regs
    else if type < 0x4 then stepDataProcessing instruction regs
    else if type < 0x7 then stepLdrStr mem instruction regs
    else if type < 0x9 then stepLdmStm mem instruction regs
    else if type < 0xc then stepBranch instruction regs
    else if type < 0xf then stepCoprocessor instruction regs
    else regs.pc + 4
  else regs.pc + 4

end GdbServer
