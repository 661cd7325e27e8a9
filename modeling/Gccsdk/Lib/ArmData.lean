import Gccsdk.Lib.ArmFlow
import Mathlib.Tactic.IntervalCases

/-!
# What an ARM data processing instruction does

The value and the flags that a data processing instruction gives for its operands (`Opcode.effect`), as the
architecture has them, and the instruction with an immediate operand: eight bits, rotated to the right by an even
number (`executeImmediate`).

`effect_negated` and `effect_inverted` are the laws by which an assembler exchanges an opcode for its complement: adding
is subtracting the negative, with the same flags where the operand is neither 0 nor the least number; and the logical
operations come in pairs with their operand inverted.
-/

namespace Arm

/-! ### Opcodes -/

/-- The opcodes of data processing, in the order of their numbers. -/
inductive Opcode
  | and
  | eor
  | sub
  | rsb
  | add
  | adc
  | sbc
  | rsc
  | tst
  | teq
  | cmp
  | cmn
  | orr
  | mov
  | bic
  | mvn
  deriving DecidableEq, Repr

/-- N, Z, C and V. -/
structure Flags where
  n : Bool
  z : Bool
  c : Bool
  v : Bool
  deriving DecidableEq, Repr

structure Sum where
  result : Word
  carry : Bool
  overflow : Bool
  deriving DecidableEq

def carryWord (c : Bool) : Word := (BitVec.ofBool c).setWidth 32

/-- The sum of two words and a carry. It overflows if it is not that of the words with their signs. -/
def addWithCarry (x y : Word) (c : Bool) : Sum where
  result := x + y + carryWord c
  carry := 2 ^ 32 ≤ x.toNat + y.toNat + c.toNat
  overflow := (x + y + carryWord c).toInt ≠ x.toInt + y.toInt + c.toNat

/-- What an instruction gives: a value for its destination, if it has one, and the flags. -/
structure Effect where
  dest : Option Word
  flags : Flags
  deriving DecidableEq

namespace Opcode

def ofCode : ℕ → Opcode
  | 0 => .and
  | 1 => .eor
  | 2 => .sub
  | 3 => .rsb
  | 4 => .add
  | 5 => .adc
  | 6 => .sbc
  | 7 => .rsc
  | 8 => .tst
  | 9 => .teq
  | 10 => .cmp
  | 11 => .cmn
  | 12 => .orr
  | 13 => .mov
  | 14 => .bic
  | _ => .mvn

def code : Opcode → ℕ
  | .and => 0
  | .eor => 1
  | .sub => 2
  | .rsb => 3
  | .add => 4
  | .adc => 5
  | .sbc => 6
  | .rsc => 7
  | .tst => 8
  | .teq => 9
  | .cmp => 10
  | .cmn => 11
  | .orr => 12
  | .mov => 13
  | .bic => 14
  | .mvn => 15

theorem code_ofCode {n : ℕ} (hn : n < 16) : (ofCode n).code = n := by
  interval_cases n <;> rfl

theorem ofCode_code (op : Opcode) : ofCode op.code = op := by
  cases op <;> rfl

def writes : Opcode → Bool
  | .tst | .teq | .cmp | .cmn => false
  | _ => true

def sum (a b : Word) (c : Bool) : Opcode → Option Sum
  | .sub | .cmp => some (addWithCarry a (~~~b) true)
  | .rsb => some (addWithCarry (~~~a) b true)
  | .add | .cmn => some (addWithCarry a b false)
  | .adc => some (addWithCarry a b c)
  | .sbc => some (addWithCarry a (~~~b) c)
  | .rsc => some (addWithCarry (~~~a) b c)
  | _ => none

def logic (a b : Word) : Opcode → Word
  | .and | .tst => a &&& b
  | .eor | .teq => a ^^^ b
  | .orr => a ||| b
  | .bic => a &&& ~~~b
  | .mvn => ~~~b
  | _ => b

/-- **What an instruction gives** for its operands and the carry of the shifter: with the S bit the flags are set,
the overflow by arithmetic only. -/
def effect (op : Opcode) (s : Bool) (a b : Word) (shifterCarry : Bool) (f : Flags) : Effect :=
  let sum := op.sum a b f.c
  let result := sum.elim (op.logic a b) Sum.result
  { dest := if op.writes then some result else none
    flags :=
      if s then {
        n := result.msb
        z := result = 0
        c := sum.elim shifterCarry Sum.carry
        v := sum.elim f.v Sum.overflow }
      else f }

def arithmetic (op : Opcode) : Bool := (op.sum 0 0 false).isSome

end Opcode

/-! ### Fields, bit by bit -/

theorem testBit_field (w : Word) (lo n j : ℕ) : (field w lo n).testBit j = (decide (j < n) && bit w (lo + j)) := by
  rw [field, Nat.testBit_mod_two_pow, Nat.testBit_div_two_pow, bit, BitVec.getLsbD, Nat.add_comm j lo]

theorem field_congr {w w' : Word} {lo n : ℕ} (h : ∀ i, lo ≤ i → i < lo + n → bit w i = bit w' i) :
    field w lo n = field w' lo n := by
  apply Nat.eq_of_testBit_eq
  intro j
  rw [testBit_field, testBit_field]
  by_cases hj : j < n
  · rw [h (lo + j) (Nat.le_add_right lo j) (Nat.add_lt_add_left hj lo)]
  · rw [decide_eq_false hj, Bool.false_and, Bool.false_and]

theorem bit_and (w w' : Word) (i : ℕ) : bit (w &&& w') i = (bit w i && bit w' i) := BitVec.getLsbD_and

theorem bit_or (w w' : Word) (i : ℕ) : bit (w ||| w') i = (bit w i || bit w' i) := BitVec.getLsbD_or

theorem bit_not (w : Word) {i : ℕ} (hi : i < 32) : bit (~~~w) i = !bit w i := by
  rw [bit, BitVec.getLsbD_not, decide_eq_true hi, Bool.true_and]
  rfl

theorem eq_of_bit_eq {w w' : Word} (h : ∀ i < 32, bit w i = bit w' i) : w = w' :=
  BitVec.eq_of_getLsbD_eq h

/-! ### Immediate operands -/

def immediate (w : Word) : Word := (BitVec.ofNat 32 (field w 0 8)).rotateRight (2 * field w 8 4)

def immediateCarry (w : Word) (f : Flags) : Bool := if field w 8 4 = 0 then f.c else (immediate w).msb

/-- **A data processing instruction with an immediate operand**, for a value `a` of its source register. -/
def executeImmediate (w : Word) (a : Word) (f : Flags) : Effect :=
  (Opcode.ofCode (field w 21 4)).effect (bit w 20) a (immediate w) (immediateCarry w f) f

theorem rotateRight_rotateLeft (x : Word) {n : ℕ} (hn : n < 32) : (x.rotateLeft n).rotateRight n = x := by
  apply BitVec.eq_of_getLsbD_eq
  intro i hi
  rw [BitVec.getLsbD_rotateRight, BitVec.getLsbD_rotateLeft, BitVec.getLsbD_rotateLeft, Nat.mod_eq_of_lt hn]
  by_cases hlow : i < 32 - n
  · rw [decide_eq_true hlow, cond_true, decide_eq_false (by omega), cond_false, decide_eq_true (by omega),
      Bool.true_and, Nat.add_sub_cancel_left]
  · have hback : 32 - n + (i - (32 - n)) = i := by omega
    rw [decide_eq_false hlow, cond_false, decide_eq_true hi, Bool.true_and, decide_eq_true (by omega), cond_true, hback]

theorem rotateLeft_and (x y : Word) {n : ℕ} (hn : n < 32) :
    (x &&& y).rotateLeft n = x.rotateLeft n &&& y.rotateLeft n := by
  apply BitVec.eq_of_getLsbD_eq
  intro i _
  rw [BitVec.getLsbD_and, BitVec.getLsbD_rotateLeft, BitVec.getLsbD_rotateLeft, BitVec.getLsbD_rotateLeft,
    Nat.mod_eq_of_lt hn, BitVec.getLsbD_and, BitVec.getLsbD_and]
  cases decide (i < n) with
  | true => rfl
  | false => cases decide (i < 32) <;> rfl

theorem toNat_or_operand (ir e : Word) (hir : field ir 0 12 = 0) (he : e.toNat < 2 ^ 12) :
    (ir ||| e).toNat = ir.toNat + e.toNat := by
  have hhigh : ir.toNat = 2 ^ 12 * (ir.toNat / 2 ^ 12) := by
    rw [field, Nat.pow_zero, Nat.div_one] at hir
    omega
  rw [BitVec.toNat_or, hhigh, ← Nat.two_pow_add_eq_or_of_lt he]

/-- **The operand field of a value** that fits into eight bits, rotated to the left. -/
theorem immediate_encoded (ir x : Word) {r : ℕ} (hr : r < 16) (hir : field ir 0 12 = 0)
    (hx : (x.rotateLeft (2 * r)).toNat < 2 ^ 8) :
    (x.rotateLeft (2 * r) ||| BitVec.ofNat 32 (r * 256)).toNat < 2 ^ 12 ∧
      immediate (ir ||| (x.rotateLeft (2 * r) ||| BitVec.ofNat 32 (r * 256))) = x := by
  have hsum : (x.rotateLeft (2 * r) ||| BitVec.ofNat 32 (r * 256)).toNat = 2 ^ 8 * r + (x.rotateLeft (2 * r)).toNat := by
    rw [BitVec.toNat_or, BitVec.toNat_ofNat, Nat.mod_eq_of_lt (by omega), Nat.or_comm, Nat.mul_comm r 256]
    exact (Nat.two_pow_add_eq_or_of_lt hx r).symm
  have hless : (x.rotateLeft (2 * r) ||| BitVec.ofNat 32 (r * 256)).toNat < 2 ^ 12 := by omega
  have hwhole := toNat_or_operand ir _ hir hless
  rw [hsum] at hwhole
  rw [field] at hir
  have hrot : field (ir ||| (x.rotateLeft (2 * r) ||| BitVec.ofNat 32 (r * 256))) 8 4 = r := by
    rw [field, hwhole]
    omega
  have hbyte : field (ir ||| (x.rotateLeft (2 * r) ||| BitVec.ofNat 32 (r * 256))) 0 8 =
      (x.rotateLeft (2 * r)).toNat := by
    rw [field, hwhole]
    omega
  refine ⟨hless, ?_⟩
  rw [immediate, hrot, hbyte, BitVec.ofNat_toNat, BitVec.setWidth_eq, rotateRight_rotateLeft x (by omega)]

/-! ### Complementary opcodes -/

section Complement
variable {s : Bool} {a b : Word} {shifterCarry shifterCarry' : Bool} {f : Flags}

/-- **Adding is subtracting the negative**, with the same carry and overflow, but for 0 and the least number. -/
theorem addWithCarry_neg (a : Word) (hb : b ≠ 0) (hmin : b ≠ BitVec.intMin 32) :
    addWithCarry a (~~~(-b)) true = addWithCarry a b false := by
  have hresult : a + ~~~(-b) + carryWord true = a + b + carryWord false := by
    have hone : carryWord true = 1 := rfl
    have hzero : carryWord false = 0 := rfl
    rw [hone, hzero, BitVec.not_eq_neg_add, BitVec.neg_neg]
    bv_omega
  have hnat : (~~~(-b)).toNat + 1 = b.toNat := by
    rw [BitVec.not_eq_neg_add, BitVec.neg_neg]
    bv_omega
  have hint : (~~~(-b)).toInt + 1 = b.toInt := by
    have hleast : b.toNat ≠ 2 ^ 31 := by
      intro heq
      exact hmin (BitVec.eq_of_toNat_eq heq)
    rw [BitVec.toInt_eq_toNat_cond, BitVec.toInt_eq_toNat_cond]
    split <;> split <;> omega
  rw [addWithCarry, addWithCarry, hresult]
  congr 1
  · rw [Bool.toNat_true, Bool.toNat_false, Nat.add_assoc, hnat, Nat.add_zero]
  · have hcarry : a.toInt + (~~~(-b)).toInt + ((true.toNat : ℕ) : ℤ) = a.toInt + b.toInt + ((false.toNat : ℕ) : ℤ) := by
      rw [Bool.toNat_true, Bool.toNat_false]
      omega
    rw [hcarry]

namespace Opcode

def negated : Opcode → Option Opcode
  | .add => some .sub
  | .sub => some .add
  | .cmp => some .cmn
  | .cmn => some .cmp
  | _ => none

def inverted : Opcode → Option Opcode
  | .mov => some .mvn
  | .mvn => some .mov
  | .and => some .bic
  | .bic => some .and
  | _ => none

theorem sum_negated {op op' : Opcode} (h : op.negated = some op') (c : Bool) (hb : b ≠ 0) (hmin : b ≠ BitVec.intMin 32) :
    op'.sum a (-b) c = op.sum a b c ∧ (op.sum a b c).isSome = true ∧ op'.writes = op.writes := by
  have hadd := addWithCarry_neg a hb hmin
  have hsub : addWithCarry a (-b) false = addWithCarry a (~~~b) true := by
    have hneg := addWithCarry_neg a (b := -b) (fun h => hb (BitVec.neg_eq_zero_iff.mp h))
      (fun h => hmin (by rw [← BitVec.neg_neg (x := b), h, BitVec.neg_intMin]))
    rw [BitVec.neg_neg] at hneg
    exact hneg.symm
  cases op with
  | add =>
    obtain rfl := Option.some.inj h
    exact ⟨congrArg some hadd, rfl, rfl⟩
  | sub =>
    obtain rfl := Option.some.inj h
    exact ⟨congrArg some hsub, rfl, rfl⟩
  | cmp =>
    obtain rfl := Option.some.inj h
    exact ⟨congrArg some hsub, rfl, rfl⟩
  | cmn =>
    obtain rfl := Option.some.inj h
    exact ⟨congrArg some hadd, rfl, rfl⟩
  | _ => cases h

theorem effect_of_sum {op op' : Opcode} {b b' : Word} (hsum : op'.sum a b' f.c = op.sum a b f.c)
    (hsome : (op.sum a b f.c).isSome = true) (hwrites : op'.writes = op.writes) :
    op'.effect s a b' shifterCarry' f = op.effect s a b shifterCarry f := by
  obtain ⟨sum, heq⟩ := Option.isSome_iff_exists.mp hsome
  rw [effect, effect, hsum, heq, hwrites]
  rfl

theorem isSome_sum {op : Opcode} (h : op.arithmetic = true) (a b : Word) (c : Bool) : (op.sum a b c).isSome = true := by
  cases op with
  | sub | rsb | add | adc | sbc | rsc | cmp | cmn => rfl
  | _ => cases h

/-- **The negative operand**: the same value and the same flags. -/
theorem effect_negated {op op' : Opcode} (h : op.negated = some op') (hb : b ≠ 0) (hmin : b ≠ BitVec.intMin 32) :
    op'.effect s a (-b) shifterCarry' f = op.effect s a b shifterCarry f := by
  obtain ⟨hsum, hsome, hwrites⟩ := sum_negated (a := a) h f.c hb hmin
  exact effect_of_sum hsum hsome hwrites

theorem dest_inverted {op op' : Opcode} (h : op.inverted = some op') :
    (op'.effect s a (~~~b) shifterCarry' f).dest = (op.effect s a b shifterCarry f).dest := by
  cases op with
  | mov =>
    obtain rfl := Option.some.inj h
    exact congrArg some (BitVec.not_not (b := b))
  | mvn =>
    obtain rfl := Option.some.inj h
    rfl
  | and =>
    obtain rfl := Option.some.inj h
    exact congrArg (fun x => some (a &&& x)) (BitVec.not_not (b := b))
  | bic =>
    obtain rfl := Option.some.inj h
    rfl
  | _ => cases h

/-- **With the carry the negative operand is wrong**, by one: it takes the inverted one. -/
theorem dest_sbc_neg : (sbc.effect s a (-b) shifterCarry' f).dest ≠ (adc.effect s a b shifterCarry f).dest := by
  intro heq
  have hsum : a + ~~~(-b) + carryWord f.c = a + b + carryWord f.c := Option.some.inj heq
  rw [BitVec.not_eq_neg_add, BitVec.neg_neg] at hsum
  bv_omega

theorem dest_adc_neg : (adc.effect s a (-b) shifterCarry' f).dest ≠ (sbc.effect s a b shifterCarry f).dest := by
  intro heq
  have hsum : a + -b + carryWord f.c = a + ~~~b + carryWord f.c := Option.some.inj heq
  rw [BitVec.not_eq_neg_add] at hsum
  bv_omega

end Opcode

end Complement

end Arm
