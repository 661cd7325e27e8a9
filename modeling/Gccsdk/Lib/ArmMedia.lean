import Gccsdk.Lib.ArmData

/-!
# Bit-field and packing instructions

The layouts of BFC, BFI, SBFX, UBFX, PKHBT and PKHTB as the architecture has them: which bits of an ARM word
and of the two halfwords of a Thumb instruction hold which operand (`decodeArmMedia`, `decodeThumbMedia`). In ARM
code a bit number is one field of five bits, in Thumb code it is in two parts, `imm3` and `imm2`.

An encoder puts operands together with `|` and `<<`. What a decoder reads back from such a word is found one
operand at a time: `field_or` takes the word apart, `field_shiftLeft_self`, `field_shiftLeft_below` and
`field_shiftLeft_above` say what a field has of one operand.
-/

namespace Arm

variable {w w' v : Word} {lo n k : ℕ}

/-! ### Fields of a word that is put together -/

theorem field_or (w w' : Word) (lo n : ℕ) : field (w ||| w') lo n = field w lo n ||| field w' lo n := by
  apply Nat.eq_of_testBit_eq
  intro j
  rw [Nat.testBit_or, testBit_field, testBit_field, testBit_field, bit_or, Bool.and_or_distrib_left]

theorem field_shiftLeft_self (hv : v.toNat < 2 ^ n) (hfit : k + n ≤ 32) : field (v <<< k) k n = v.toNat := by
  have hlt : v.toNat * 2 ^ k < 2 ^ 32 := by
    calc v.toNat * 2 ^ k < 2 ^ n * 2 ^ k := Nat.mul_lt_mul_of_pos_right hv (Nat.two_pow_pos k)
      _ = 2 ^ (k + n) := by rw [← Nat.pow_add, Nat.add_comm]
      _ ≤ 2 ^ 32 := Nat.pow_le_pow_right (by decide) hfit
  unfold field
  rw [BitVec.toNat_shiftLeft, Nat.shiftLeft_eq, Nat.mod_eq_of_lt hlt, Nat.mul_div_cancel _ (Nat.two_pow_pos k),
    Nat.mod_eq_of_lt hv]

theorem field_shiftLeft_below (h : lo + n ≤ k) : field (v <<< k) lo n = 0 := by
  apply Nat.eq_of_testBit_eq
  intro j
  rw [testBit_field, Nat.zero_testBit, bit, BitVec.getLsbD_shiftLeft]
  by_cases hj : j < n
  · rw [decide_eq_true (show lo + j < k by omega), Bool.not_true, Bool.and_false, Bool.false_and, Bool.and_false]
  · rw [decide_eq_false hj, Bool.false_and]

theorem field_above (h : v.toNat < 2 ^ lo) : field v lo n = 0 := by
  unfold field
  rw [Nat.div_eq_of_lt h, Nat.zero_mod]

theorem field_shiftLeft_above (h : v.toNat * 2 ^ k < 2 ^ lo) : field (v <<< k) lo n = 0 := by
  refine field_above (Nat.lt_of_le_of_lt ?_ h)
  rw [BitVec.toNat_shiftLeft, Nat.shiftLeft_eq]
  exact Nat.mod_le _ _

theorem field_zero (hv : v.toNat < 2 ^ n) : field v 0 n = v.toNat := by
  unfold field
  rw [Nat.pow_zero, Nat.div_one, Nat.mod_eq_of_lt hv]

/-! ### The instructions -/

/-- A bit-field or packing instruction with its operands. A field is given by its least bit and its width, and
the number of an arithmetic shift is 1 to 32. -/
inductive MediaOp
  | bfc (rd : Fin 16) (lsb width : ℕ)
  | bfi (rd rn : Fin 16) (lsb width : ℕ)
  | sbfx (rd rn : Fin 16) (lsb width : ℕ)
  | ubfx (rd rn : Fin 16) (lsb width : ℕ)
  | pkhbt (rd rn rm : Fin 16) (lsl : ℕ)
  | pkhtb (rd rn rm : Fin 16) (asr : ℕ)
  deriving DecidableEq, Repr

/-- BFC and BFI are given the most significant bit; BFC is BFI of register 15. -/
def insertOp (rd rn : Fin 16) (lsb msb : ℕ) : Option MediaOp :=
  if msb < lsb then none
  else if rn = 15 then some (.bfc rd lsb (msb - lsb + 1))
  else some (.bfi rd rn lsb (msb - lsb + 1))

def packOp (tb : Bool) (rd rn rm : Fin 16) (imm : ℕ) : MediaOp :=
  if tb then .pkhtb rd rn rm (if imm = 0 then 32 else imm) else .pkhbt rd rn rm imm

/-- **The layout in ARM code.** -/
def decodeArmMedia (w : Word) : Option MediaOp :=
  let rd := regField w 12
  if field w 21 7 = 0x3E ∧ field w 4 3 = 1 then insertOp rd (regField w 0) (field w 7 5) (field w 16 5)
  else if field w 21 7 = 0x3D ∧ field w 4 3 = 5 then some (.sbfx rd (regField w 0) (field w 7 5) (field w 16 5 + 1))
  else if field w 21 7 = 0x3F ∧ field w 4 3 = 5 then some (.ubfx rd (regField w 0) (field w 7 5) (field w 16 5 + 1))
  else if field w 20 8 = 0x68 ∧ field w 4 2 = 1 then
    some (packOp (bit w 6) rd (regField w 16) (regField w 0) (field w 7 5))
  else none

/-- The bit number of a Thumb instruction, `imm3:imm2`. -/
def splitField (w : Word) : ℕ := 4 * field w 12 3 + field w 6 2

/-- **The layout in Thumb code**, the first halfword above the second one. -/
def decodeThumbMedia (w : Word) : Option MediaOp :=
  let rd := regField w 8
  if field w 15 1 ≠ 0 then none
  else if field w 20 12 = 0xF36 ∧ field w 5 1 = 0 then insertOp rd (regField w 16) (splitField w) (field w 0 5)
  else if field w 20 12 = 0xF34 ∧ field w 5 1 = 0 then
    some (.sbfx rd (regField w 16) (splitField w) (field w 0 5 + 1))
  else if field w 20 12 = 0xF3C ∧ field w 5 1 = 0 then
    some (.ubfx rd (regField w 16) (splitField w) (field w 0 5 + 1))
  else if field w 20 12 = 0xEAC ∧ field w 4 1 = 0 then
    some (packOp (bit w 5) rd (regField w 16) (regField w 0) (splitField w))
  else none

def decodeMedia (isThumb : Bool) (w : Word) : Option MediaOp :=
  if isThumb then decodeThumbMedia w else decodeArmMedia w

def MediaOp.lsb : MediaOp → Option ℕ
  | .bfc _ lsb _ | .bfi _ _ lsb _ | .sbfx _ _ lsb _ | .ubfx _ _ lsb _ => some lsb
  | .pkhbt .. | .pkhtb .. => none

theorem lsb_of_insertOp {rd rn : Fin 16} {lsb msb : ℕ} {op : MediaOp} (h : insertOp rd rn lsb msb = some op) :
    op.lsb = some lsb := by
  unfold insertOp at h
  split at h
  · exact nomatch h
  · split at h
    all_goals
      obtain rfl := Option.some.inj h
      rfl

/-- **A Thumb bit field begins at `imm3:imm2`**, whichever instruction it is. -/
theorem splitField_of_decode {w : Word} {op : MediaOp} {lsb : ℕ} (h : decodeThumbMedia w = some op)
    (hlsb : op.lsb = some lsb) : splitField w = lsb := by
  unfold decodeThumbMedia at h
  split_ifs at h with h15 hins hsbfx hubfx hpkh
  · exact Option.some.inj ((lsb_of_insertOp h).symm.trans hlsb)
  · obtain rfl := Option.some.inj h
    exact Option.some.inj hlsb
  · obtain rfl := Option.some.inj h
    exact Option.some.inj hlsb
  · -- a packing instruction has no bit field
    obtain rfl := Option.some.inj h
    unfold packOp at hlsb
    split at hlsb <;> exact nomatch hlsb

end Arm
