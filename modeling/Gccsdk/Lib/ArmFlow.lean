import Mathlib.Data.Fin.Basic
import Mathlib.Data.List.Basic
import Mathlib.Algebra.GroupWithZero.Nat

/-!
# Where an ARM instruction goes

The address of the instruction that a processor executes after one in ARM state (`next`), as the architecture has
it in its version 5TE: from the word of the instruction, the registers, the flags and the memory. It is given
without the Thumb bit.

There is none where the behaviour is unpredictable, or the instruction undefined or a breakpoint. So an
instruction that loads or computes the PC has one only if the value is the address of an instruction. A SWI
returns to the instruction behind it.
-/

namespace Arm

abbrev Word := BitVec 32

/-- What decides where an instruction goes. The address of the instruction is in `r 15`. -/
structure State where
  r : Fin 16 → Word
  n : Bool
  z : Bool
  c : Bool
  v : Bool
  load : Word → Word

/-- Bits of an instruction, from `lo` on. -/
def field (w : Word) (lo width : ℕ) : ℕ := w.toNat / 2 ^ lo % 2 ^ width

def bit (w : Word) (i : ℕ) : Bool := w.getLsbD i

instance neZero_registers : NeZero 16 := ⟨by decide⟩

/-- The register whose number begins at `lo`. -/
def regField (w : Word) (lo : ℕ) : Fin 16 := Fin.ofNat 16 (field w lo 4)

/-! ### Fields and masks -/

theorem toNat_shift_and (w : Word) (lo : ℕ) {n : ℕ} (hn : n ≤ 32) :
    (w >>> lo &&& BitVec.ofNat 32 (2 ^ n - 1)).toNat = field w lo n := by
  have hmask : (2 ^ n - 1) % 2 ^ 32 = 2 ^ n - 1 :=
    Nat.mod_eq_of_lt (Nat.sub_one_lt_of_le (Nat.two_pow_pos n) (Nat.pow_le_pow_right (by omega) hn))
  rw [BitVec.toNat_and, BitVec.toNat_ushiftRight, BitVec.toNat_ofNat, hmask, Nat.and_two_pow_sub_one_eq_mod,
    Nat.shiftRight_eq_div_pow]
  rfl

theorem field_lt (w : Word) (lo n : ℕ) : field w lo n < 2 ^ n := Nat.mod_lt _ (Nat.two_pow_pos n)

theorem bit_iff (w : Word) (i : ℕ) : bit w i = true ↔ field w i 1 = 1 := by
  unfold bit field
  rw [BitVec.getLsbD, Nat.testBit_eq_decide_div_mod_eq]
  exact decide_eq_true_iff

theorem and_eq_iff (w m k : Word) :
    w &&& m = k ↔ ∀ i < 32, (bit w i && m.getLsbD i) = k.getLsbD i := by
  constructor
  · rintro rfl i _
    exact BitVec.getLsbD_and.symm
  · intro h
    apply BitVec.eq_of_getLsbD_eq
    intro i hi
    rw [BitVec.getLsbD_and]
    exact h i hi

/-! ### The instructions -/

namespace State
variable (s : State)

abbrev pc : Word := s.r 15

def operand (i : Fin 16) : Word := if i = 15 then s.pc + 8 else s.r i

def holds (cond : ℕ) : Bool :=
  match cond with
  | 0 => s.z
  | 1 => !s.z
  | 2 => s.c
  | 3 => !s.c
  | 4 => s.n
  | 5 => !s.n
  | 6 => s.v
  | 7 => !s.v
  | 8 => s.c && !s.z
  | 9 => !s.c || s.z
  | 10 => s.n == s.v
  | 11 => s.n != s.v
  | 12 => !s.z && s.n == s.v
  | 13 => s.z || s.n != s.v
  | _ => true

def target (v : Word) : Option Word :=
  if bit v 0 then some (v &&& ~~~1) else if bit v 1 then none else some v

def shifted (type amount : ℕ) (x : Word) : Word :=
  match type with
  | 0 => x <<< amount
  | 1 => if amount = 0 then 0 else x >>> amount
  | 2 => x.sshiftRight (if amount = 0 then 32 else amount)
  | _ => if amount = 0 then (BitVec.ofBool s.c).setWidth 32 <<< 31 ||| x >>> 1 else x.rotateRight amount

def alu (op : ℕ) (a b : Word) : Word :=
  let c := (BitVec.ofBool s.c).setWidth 32
  match op with
  | 0 => a &&& b
  | 1 => a ^^^ b
  | 2 => a - b
  | 3 => b - a
  | 4 => a + b
  | 5 => a + b + c
  | 6 => a - b - (1 - c)
  | 7 => b - a - (1 - c)
  | 12 => a ||| b
  | 13 => b
  | 14 => a &&& ~~~b
  | _ => ~~~b

def dataProcessing (w : Word) : Option Word :=
  if field w 23 2 = 2 ∧ field w 12 4 ≠ 0 then none
  else if field w 12 4 ≠ 15 then some (s.pc + 4)
  else if ¬bit w 25 ∧ bit w 4 then none
  else
    let b :=
      if bit w 25 then (BitVec.ofNat 32 (field w 0 8)).rotateRight (2 * field w 8 4)
      else s.shifted (field w 5 2) (field w 7 5) (s.operand (regField w 0))
    let result := s.alu (field w 21 4) (s.operand (regField w 16)) b
    if result &&& 3 = 0 then some result else none

/-- The miscellaneous instructions, which lie where tests would not set the flags. -/
def miscellaneous (w : Word) : Option Word :=
  if bit w 25 then if bit w 21 then some (s.pc + 4) else none
  else
    match field w 4 4, field w 21 2 with
    | 0, _ => some (s.pc + 4)
    -- BX and BXJ
    | 1, 1 => target (s.operand (regField w 0))
    | 2, 1 => target (s.operand (regField w 0))
    -- CLZ
    | 1, 3 => some (s.pc + 4)
    -- BLX
    | 3, 1 => if regField w 0 = 15 then none else target (s.r (regField w 0))
    | 5, _ => some (s.pc + 4)
    | 8, _ => some (s.pc + 4)
    | 10, _ => some (s.pc + 4)
    | 12, _ => some (s.pc + 4)
    | 14, _ => some (s.pc + 4)
    | _, _ => none

def loadAddress (w : Word) : Word :=
  let offset :=
    if bit w 25 then s.shifted (field w 5 2) (field w 7 5) (s.r (regField w 0))
    else BitVec.ofNat 32 (field w 0 12)
  let base := s.operand (regField w 16)
  if ¬bit w 24 then base else if bit w 23 then base + offset else base - offset

def loadStore (w : Word) : Option Word :=
  if bit w 25 ∧ bit w 4 then none
  else if ¬bit w 20 ∨ field w 12 4 ≠ 15 then some (s.pc + 4)
  else if bit w 22 then none
  else if ¬bit w 24 ∧ bit w 21 then none
  else if (¬bit w 24 ∨ bit w 21) ∧ field w 16 4 = 15 then none
  else if bit w 25 ∧ field w 0 4 = 15 then none
  else if s.loadAddress w &&& 3 = 0 then target (s.load (s.loadAddress w)) else none

/-- Loading and storing several registers. The PC comes from the highest address. -/
def loadStoreMultiple (w : Word) : Option Word :=
  if ¬bit w 20 ∨ ¬bit w 15 then some (s.pc + 4)
  else if field w 16 4 = 15 then none
  else
    let base := s.r (regField w 16)
    let n := BitVec.ofNat 32 ((List.range 16).countP (bit w))
    let address :=
      if bit w 23 then if bit w 24 then base + 4 * n else base + 4 * n - 4
      else if bit w 24 then base - 4 else base
    let v := s.load (address &&& ~~~3)
    -- a return from an exception
    if bit w 22 then if v &&& 3 = 0 then some v else none else target v

def branchOffset (w : Word) : Word := ((w.setWidth 24).signExtend 32) <<< 2

def executed (w : Word) : Option Word :=
  match field w 25 3 with
  | 0 =>
    if bit w 7 ∧ bit w 4 then some (s.pc + 4)
    else if field w 23 2 = 2 ∧ ¬bit w 20 then s.miscellaneous w
    else s.dataProcessing w
  | 1 => if field w 23 2 = 2 ∧ ¬bit w 20 then s.miscellaneous w else s.dataProcessing w
  | 2 => s.loadStore w
  | 3 => s.loadStore w
  | 4 => s.loadStoreMultiple w
  | 5 => some (s.pc + 8 + branchOffset w)
  | _ => some (s.pc + 4)

def unconditional (w : Word) : Option Word :=
  match field w 25 3 with
  -- PLD
  | 2 => if bit w 24 ∧ field w 20 3 = 5 then some (s.pc + 4) else none
  | 3 => if bit w 24 ∧ field w 20 3 = 5 ∧ ¬bit w 4 then some (s.pc + 4) else none
  -- BLX, to Thumb state
  | 5 => some (s.pc + 8 + branchOffset w + if bit w 24 then 2 else 0)
  | 6 => some (s.pc + 4)
  | 7 => if bit w 24 then none else some (s.pc + 4)
  | _ => none

/-- **The address of the next instruction.** -/
def next (w : Word) : Option Word :=
  if field w 28 4 = 15 then s.unconditional w
  else if s.holds (field w 28 4) then s.executed w
  else some (s.pc + 4)

end State

end Arm
