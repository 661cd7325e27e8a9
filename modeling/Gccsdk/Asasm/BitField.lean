import Gccsdk.Asasm.Global
import Gccsdk.Lib.ArmMedia

/-!
# Bit-field and packing instructions

`core_bitfield_instr`, behind BFC, BFI, SBFX and UBFX, and `m_pkh`, behind PKHBT and PKHTB, from their operands on:
the range checks and messages, and the words that are put in ARM and in Thumb code. What these words are by the
architecture is said by `decodeMedia`.

`MediaSource` is an instruction as it is written, `Legal` what its operands may be and `op` what it stands for.
`assemble_decodes_iff` says where the encodings decode to what is written: always in ARM code, and in Thumb code
for a bit field that begins below bit 4, since `imm3` is put two bits too far; apart from this PKHTB without a
shift and without its first register takes that register from the exchanged ones.
-/

namespace Asasm

open Arm

/-! ### BFC, BFI, SBFX and UBFX -/

/-- `BitFieldType_e`. -/
inductive BitFieldType
  | bfc
  | bfi
  | sbfx
  | ubfx
  deriving DecidableEq, Repr

/-- A register number as an `unsigned`. -/
def regWord (r : Fin 16) : Word := BitVec.ofNat 32 r

def plainError (text : String) : Diag := ⟨.error, text, []⟩

def plainWarning (text : String) : Diag := ⟨.warning, text, []⟩

def diagIf (c : Bool) (d : Diag) : List Diag := if c then [d] else []

def immediateConstant (value : Option Word) (default : Word) : List Diag × Word :=
  match value with
  | none => ([plainError "Failed to evaluate immediate constant"], default)
  | some v => ([], v)

/-- The range checks on `lsb` and `width`. -/
def checkBitField (lsb width : Word) : List Diag × Word × Word :=
  let lsbOut := decide (lsb > 32)
  let lsb := if lsbOut then 0 else lsb
  let widthOut := decide (width < 1 ∨ width > 32 - lsb)
  (diagIf lsbOut (plainError "lsb value needs be in range 0 to 31 (incl)")
      ++ diagIf widthOut (plainError "width value needs to be in range 1 to 32 - lsb (incl)"),
    lsb, if widthOut then 1 else width)

def bitFieldBase (isThumb : Bool) : BitFieldType → Word
  | .bfc | .bfi => if isThumb then 0xF3600000 else 0x07C00010
  | .sbfx => if isThumb then 0xF3400000 else 0x07A00050
  | .ubfx => if isThumb then 0xF3C00000 else 0x07E00050

/-- The number in the last field: the most significant bit, or the width less 1. -/
def widthInd (type : BitFieldType) (lsb width : Word) : Word :=
  match type with
  | .bfc | .bfi => lsb + width - 1
  | .sbfx | .ubfx => width - 1

def bitFieldWarnings (isThumb : Bool) (type : BitFieldType) (rd rn : Fin 16) : List Diag :=
  match type with
  | .bfc | .bfi =>
    if isThumb then
      diagIf (rd = 13 ∨ rd = 15 ∨ rn = 13) (plainWarning "Use of R13 or PC is UNPREDICTABLE")
    else
      diagIf (rd = 15) (plainWarning "Use of PC is UNPREDICTABLE")
        ++ diagIf (rd = 13 ∨ rn = 13) (plainWarning "Use of R13 as Rd or Rn is DEPRECATED")
  | .sbfx | .ubfx =>
    if isThumb then
      diagIf (rd = 13 ∨ rd = 15 ∨ rn = 13 ∨ rn = 15) (plainWarning "Use of R13 or PC is UNPREDICTABLE")
    else
      diagIf (rd = 15 ∨ rn = 15) (plainWarning "Use of PC in UNPREDICTABLE")
        ++ diagIf (rd = 13 ∨ rn = 13) (plainWarning "Use of R13 as Rd or Rn is DEPRECATED")

def bitFieldWord (isThumb : Bool) (cc : Word) (type : BitFieldType) (rd rn : Fin 16) (lsb width : Word) : Word :=
  let base := bitFieldBase isThumb type
  if isThumb then
    base ||| (regWord rn <<< 16) ||| ((lsb &&& 0x1C) <<< 12) ||| (regWord rd <<< 8) ||| ((lsb &&& 3) <<< 6)
      ||| widthInd type lsb width
  else
    base ||| cc ||| (widthInd type lsb width <<< 16) ||| (regWord rd <<< 12) ||| (lsb <<< 7) ||| regWord rn

/-- **`core_bitfield_instr`** from its operands on, with the messages and the word for `Put_Ins`. BFC has no
second register in the source. -/
def coreBitfieldInstr (isThumb : Bool) (cc : Word) (type : BitFieldType) (rd rn : Fin 16)
    (lsbValue widthValue : Option Word) : List Diag × Word :=
  let rn := if type = .bfc then 15 else rn
  let (lsbDiags, lsb) := immediateConstant lsbValue 0
  let (widthDiags, width) := immediateConstant widthValue 1
  let (rangeDiags, lsb, width) := checkBitField lsb width
  (diagIf (type ≠ .bfc ∧ rn = 15) (plainWarning "Use of PC for Rn makes BFI behave like BFC")
      ++ lsbDiags ++ widthDiags ++ rangeDiags ++ bitFieldWarnings isThumb type rd rn,
    bitFieldWord isThumb cc type rd rn lsb width)

/-! ### PKHBT and PKHTB -/

inductive ShiftArg
  | absent
  | unexpected
  | noNumber
  | number (value : Option Word)

def pkhShift (isTB : Bool) (arg : ShiftArg) : List Diag × Word :=
  let shiftType := cstr (if isTB then "ASR" else "LSL")
  match arg with
  | .absent => ([], 0)
  | .unexpected => ([⟨.error, "%s expected", [.str shiftType]⟩], 0)
  | .noNumber => ([⟨.error, "%s #<value> expected", [.str shiftType]⟩], 0)
  | .number none => ([⟨.error, "Wrong %s #<value>", [.str shiftType]⟩], 0)
  | .number (some i) =>
    if isTB ∧ (i.toInt < 1 ∨ 32 < i.toInt) ∨ ¬isTB ∧ (i.toInt < 0 ∨ 31 < i.toInt) then
      ([⟨.error, "Wrong %s #<value>", [.str shiftType]⟩], 0)
    else ([], i)

def pkhWord (isThumb isTB : Bool) (cc : Word) (rd rn rm : Fin 16) (shift : Word) : Word :=
  if isThumb then
    (0xEAC00000 : Word) ||| (regWord rn <<< 16) ||| ((shift &&& 0x1C) <<< 10) ||| (regWord rd <<< 8)
      ||| ((shift &&& 3) <<< 6) ||| (if isTB then (1 : Word) <<< 5 else 0) ||| regWord rm
  else
    (0x06800010 : Word) ||| cc ||| (regWord rn <<< 16) ||| (regWord rd <<< 12) ||| (shift <<< 7)
      ||| (if isTB then (1 : Word) <<< 6 else 0) ||| regWord rm

def pkhWarnings (isThumb : Bool) (rd rn rm : Fin 16) : List Diag :=
  if isThumb then
    diagIf (rd = 15 ∨ rd = 13 ∨ rn = 15 ∨ rn = 13 ∨ rm = 15 ∨ rm = 13)
      (plainWarning "Use of R13 or PC for Rd, Rn or Rm is UNPREDICTABLE")
  else
    diagIf (rd = 15 ∨ rn = 15 ∨ rm = 15) (plainWarning "Use of PC for Rd, Rn or Rm is UNPREDICTABLE")

/-- `m_pkh` from its registers and the number of its shift on. -/
def pkhRegs (isThumb isTB : Bool) (cc : Word) (regs : List (Fin 16)) (shift : Word) : List Diag × Word :=
  let regIndex := regs.length
  -- without a shift PKHTB becomes PKHBT with its two registers exchanged
  let swapped := isTB && shift == 0
  let rm := regs.getD (if swapped then regIndex - 2 else regIndex - 1) 0
  let rn := regs.getD (if swapped then regIndex - 1 else regIndex - 2) 0
  let rd := if regIndex - 2 = 0 then rn else regs.getD (regIndex - 2 - 1) 0
  let isTBout := isTB && shift != 0
  let shiftOut := if isTB && shift == 32 then 0 else shift
  (pkhWarnings isThumb rd rn rm, pkhWord isThumb isTBout cc rd rn rm shiftOut)

/-- **`m_pkh`** from its operands on: the registers that have been read, at most three, and what follows
them. -/
def mPkh (isThumb isTB : Bool) (cc : Word) (regs : List (Fin 16)) (arg : ShiftArg) : List Diag × Word :=
  let enough := decide (2 ≤ regs.length)
  let (shiftDiags, shift) := if enough then pkhShift isTB arg
    else ([plainError "Not enough registers specified"], 0)
  let regs := if enough then regs else regs ++ List.replicate (3 - regs.length) 0
  let (diags, word) := pkhRegs isThumb isTB cc regs shift
  (shiftDiags ++ diags, word)

/-! ### What is written in the source -/

/-- A bit-field or packing instruction of the source. PKHBT and PKHTB may be written without their first
register, and without a shift. -/
inductive MediaSource
  | bfc (rd : Fin 16) (lsb width : ℕ)
  | bfi (rd rn : Fin 16) (lsb width : ℕ)
  | sbfx (rd rn : Fin 16) (lsb width : ℕ)
  | ubfx (rd rn : Fin 16) (lsb width : ℕ)
  | pkhbt (rd : Option (Fin 16)) (rn rm : Fin 16) (lsl : Option ℕ)
  | pkhtb (rd : Option (Fin 16)) (rn rm : Fin 16) (asr : Option ℕ)

def LegalReg (isThumb : Bool) (r : Fin 16) : Prop := r ≠ 15 ∧ (isThumb = true → r ≠ 13)

def LegalField (lsb width : ℕ) : Prop := 1 ≤ width ∧ lsb + width ≤ 32

namespace MediaSource

/-- **Operands that are legal.** -/
def Legal (isThumb : Bool) : MediaSource → Prop
  | .bfc rd lsb width => LegalReg isThumb rd ∧ LegalField lsb width
  | .bfi rd rn lsb width | .sbfx rd rn lsb width | .ubfx rd rn lsb width =>
    LegalReg isThumb rd ∧ LegalReg isThumb rn ∧ LegalField lsb width
  | .pkhbt rd rn rm lsl => (∀ r, rd = some r → LegalReg isThumb r) ∧ LegalReg isThumb rn ∧ LegalReg isThumb rm ∧
      ∀ s, lsl = some s → s ≤ 31
  | .pkhtb rd rn rm asr => (∀ r, rd = some r → LegalReg isThumb r) ∧ LegalReg isThumb rn ∧ LegalReg isThumb rm ∧
      ∀ s, asr = some s → 1 ≤ s ∧ s ≤ 32

/-- **The operands that are written.** A register that is left out is the one after it. Without a shift PKHTB
stands for PKHBT with its registers exchanged. -/
def op : MediaSource → MediaOp
  | .bfc rd lsb width => .bfc rd lsb width
  | .bfi rd rn lsb width => .bfi rd rn lsb width
  | .sbfx rd rn lsb width => .sbfx rd rn lsb width
  | .ubfx rd rn lsb width => .ubfx rd rn lsb width
  | .pkhbt rd rn rm lsl => .pkhbt (rd.getD rn) rn rm (lsl.getD 0)
  | .pkhtb rd rn rm (some s) => .pkhtb (rd.getD rn) rn rm s
  | .pkhtb rd rn rm none => .pkhbt (rd.getD rn) rm rn 0

def bitField (isThumb : Bool) (cond : Fin 15) (type : BitFieldType) (rd rn : Fin 16) (lsb width : ℕ) :
    List Diag × Word :=
  coreBitfieldInstr isThumb (BitVec.ofNat 32 cond <<< 28) type rd rn (some (BitVec.ofNat 32 lsb))
    (some (BitVec.ofNat 32 width))

def pkh (isThumb : Bool) (cond : Fin 15) (isTB : Bool) (rd : Option (Fin 16)) (rn rm : Fin 16)
    (shift : Option ℕ) : List Diag × Word :=
  mPkh isThumb isTB (BitVec.ofNat 32 cond <<< 28) (rd.toList ++ [rn, rm])
    (shift.elim .absent fun s => .number (some (BitVec.ofNat 32 s)))

/-- What the assembler makes of it, in ARM or Thumb code: `m_bfc`, `m_bfi`, `m_sbfx`, `m_ubfx` and `m_pkh`. -/
def assemble (isThumb : Bool) (cond : Fin 15) : MediaSource → List Diag × Word
  | .bfc rd lsb width => bitField isThumb cond .bfc rd 15 lsb width
  | .bfi rd rn lsb width => bitField isThumb cond .bfi rd rn lsb width
  | .sbfx rd rn lsb width => bitField isThumb cond .sbfx rd rn lsb width
  | .ubfx rd rn lsb width => bitField isThumb cond .ubfx rd rn lsb width
  | .pkhbt rd rn rm lsl => pkh isThumb cond false rd rn rm lsl
  | .pkhtb rd rn rm asr => pkh isThumb cond true rd rn rm asr

/-- **Where the assembler is right**: in Thumb code a bit field that begins below bit 4; PKHTB without a shift
with its first register, or with two equal ones. -/
def Right (isThumb : Bool) : MediaSource → Prop
  | .bfc _ lsb _ | .bfi _ _ lsb _ | .sbfx _ _ lsb _ | .ubfx _ _ lsb _ => isThumb = true → lsb < 4
  | .pkhbt .. => True
  | .pkhtb rd rn rm asr => rd = none → asr = none → rn = rm

end MediaSource

/-! ### Reading the operands back -/

theorem toNat_regWord (r : Fin 16) : (regWord r).toNat = r := by
  unfold regWord
  rw [BitVec.toNat_ofNat]
  omega

theorem toNat_regWord_lt (r : Fin 16) : (regWord r).toNat < 16 := by
  rw [toNat_regWord]
  exact r.isLt

theorem regField_eq {w : Word} {lo : ℕ} {r : Fin 16} (h : field w lo 4 = (regWord r).toNat) : regField w lo = r := by
  unfold regField
  rw [h, toNat_regWord]
  exact Fin.ofNat_val_eq_self r

theorem bit_eq {w : Word} {i : ℕ} {b : Bool} (h : field w i 1 = b.toNat) : bit w i = b := by
  rw [Bool.eq_iff_iff, bit_iff, h]
  cases b <;> decide

theorem toNat_cond (cond : Fin 15) : (BitVec.ofNat 32 cond).toNat = cond := by
  rw [BitVec.toNat_ofNat]
  omega

theorem toNat_number {k : ℕ} (h : k ≤ 32) : (BitVec.ofNat 32 k).toNat = k := by
  rw [BitVec.toNat_ofNat]
  omega

section Words

variable {base c x y t : Word} (rd rn rm : Fin 16)

theorem fields_armBitField (hc : c.toNat < 16) (hx : x.toNat < 32) (hy : y.toNat < 32)
    (hbase : field base 0 4 = 0 ∧ field base 7 5 = 0 ∧ field base 12 4 = 0 ∧ field base 16 5 = 0 ∧
      field base 28 4 = 0) :
    let w : Word := base ||| (c <<< 28) ||| (x <<< 16) ||| (regWord rd <<< 12) ||| (y <<< 7) ||| regWord rn
    field w 21 7 = field base 21 7 ∧ field w 4 3 = field base 4 3 ∧ field w 0 4 = (regWord rn).toNat ∧
      field w 7 5 = y.toNat ∧ field w 12 4 = (regWord rd).toNat ∧ field w 16 5 = x.toNat ∧
      field w 28 4 = c.toNat := by
  obtain ⟨h0, h7, h12, h16, h28⟩ := hbase
  have hrd := toNat_regWord_lt rd
  have hrn := toNat_regWord_lt rn
  simp (disch := omega) only [field_or, field_shiftLeft_self, field_shiftLeft_below, field_shiftLeft_above,
    field_above, field_zero, h0, h7, h12, h16, h28, Nat.or_zero, Nat.zero_or, and_true]

theorem fields_thumbBitField (hx : x.toNat < 32) (hy : y.toNat < 4)
    (hbase : field base 0 5 = 0 ∧ field base 5 1 = 0 ∧ field base 6 2 = 0 ∧ field base 8 4 = 0 ∧
      field base 12 3 = 0 ∧ field base 15 1 = 0 ∧ field base 16 4 = 0) :
    let w : Word := base ||| (regWord rn <<< 16) ||| ((0 : Word) <<< 12) ||| (regWord rd <<< 8) ||| (y <<< 6) ||| x
    field w 20 12 = field base 20 12 ∧ field w 15 1 = 0 ∧ field w 5 1 = 0 ∧ field w 16 4 = (regWord rn).toNat ∧
      field w 12 3 = 0 ∧ field w 6 2 = y.toNat ∧ field w 8 4 = (regWord rd).toNat ∧ field w 0 5 = x.toNat := by
  obtain ⟨h0, h5, h6, h8, h12, h15, h16⟩ := hbase
  have hrd := toNat_regWord_lt rd
  have hrn := toNat_regWord_lt rn
  have hzero : (0 : Word) <<< 12 = 0 := BitVec.zero_shiftLeft 12
  have hnone : ∀ lo n, field 0 lo n = 0 := fun lo n => by simp [field]
  simp (disch := omega) only [field_or, field_shiftLeft_self, field_shiftLeft_below, field_shiftLeft_above,
    field_above, field_zero, hzero, hnone, h0, h5, h6, h8, h12, h15, h16, Nat.or_zero, Nat.zero_or, and_true]

/-- The bit number that is read back from a Thumb bit-field instruction: the shift by 12 puts the high part of
the number two bits too far. -/
theorem splitField_thumbBitField (hx : x.toNat < 32) (hbase : field base 12 3 = 0 ∧ field base 6 2 = 0) :
    splitField (base ||| (regWord rn <<< 16) ||| ((y &&& 0x1C) <<< 12) ||| (regWord rd <<< 8) ||| ((y &&& 3) <<< 6)
      ||| x) = 4 * field ((y &&& 0x1C) <<< 12) 12 3 + (y &&& 3).toNat := by
  obtain ⟨h12, h6⟩ := hbase
  have hrd := toNat_regWord_lt rd
  have hthree : (y &&& 3).toNat < 4 := by
    rw [BitVec.toNat_and]
    exact Nat.lt_of_le_of_lt Nat.and_le_right (by decide)
  unfold splitField
  simp (disch := omega) only [field_or, field_shiftLeft_self, field_shiftLeft_below, field_shiftLeft_above,
    field_above, h12, h6, Nat.or_zero, Nat.zero_or]

theorem fields_armPack (hc : c.toNat < 16) (hy : y.toNat < 32) (ht : t.toNat < 2) :
    let w : Word := (0x06800010 : Word) ||| (c <<< 28) ||| (regWord rn <<< 16) ||| (regWord rd <<< 12) ||| (y <<< 7)
      ||| (t <<< 6) ||| regWord rm
    field w 21 7 = 0x34 ∧ field w 20 8 = 0x68 ∧ field w 4 2 = 1 ∧ field w 0 4 = (regWord rm).toNat ∧
      field w 6 1 = t.toNat ∧ field w 7 5 = y.toNat ∧ field w 12 4 = (regWord rd).toNat ∧
      field w 16 4 = (regWord rn).toNat ∧ field w 28 4 = c.toNat := by
  have hrd := toNat_regWord_lt rd
  have hrn := toNat_regWord_lt rn
  have hrm := toNat_regWord_lt rm
  have hbase : let base : Word := 0x06800010
      field base 21 7 = 0x34 ∧ field base 20 8 = 0x68 ∧ field base 4 2 = 1 ∧ field base 0 4 = 0 ∧
        field base 6 1 = 0 ∧ field base 7 5 = 0 ∧ field base 12 4 = 0 ∧ field base 16 4 = 0 ∧
        field base 28 4 = 0 := by
    decide
  obtain ⟨h21, h20, h4, h0, h6, h7, h12, h16, h28⟩ := hbase
  simp (disch := omega) only [field_or, field_shiftLeft_self, field_shiftLeft_below, field_shiftLeft_above,
    field_above, field_zero, h21, h20, h4, h0, h6, h7, h12, h16, h28, Nat.or_zero, Nat.zero_or, and_true]

theorem fields_thumbPack {hi lo : Word} (hhi : hi.toNat < 8) (hlo : lo.toNat < 4) (ht : t.toNat < 2) :
    let w : Word := (0xEAC00000 : Word) ||| (regWord rn <<< 16) ||| (hi <<< 12) ||| (regWord rd <<< 8) ||| (lo <<< 6)
      ||| (t <<< 5) ||| regWord rm
    field w 20 12 = 0xEAC ∧ field w 15 1 = 0 ∧ field w 4 1 = 0 ∧ field w 0 4 = (regWord rm).toNat ∧
      field w 5 1 = t.toNat ∧ field w 6 2 = lo.toNat ∧ field w 8 4 = (regWord rd).toNat ∧
      field w 12 3 = hi.toNat ∧ field w 16 4 = (regWord rn).toNat := by
  have hrd := toNat_regWord_lt rd
  have hrn := toNat_regWord_lt rn
  have hrm := toNat_regWord_lt rm
  have hbase : let base : Word := 0xEAC00000
      field base 20 12 = 0xEAC ∧ field base 15 1 = 0 ∧ field base 4 1 = 0 ∧ field base 0 4 = 0 ∧
        field base 5 1 = 0 ∧ field base 6 2 = 0 ∧ field base 8 4 = 0 ∧ field base 12 3 = 0 ∧
        field base 16 4 = 0 := by
    decide
  obtain ⟨h20, h15, h4, h0, h5, h6, h8, h12, h16⟩ := hbase
  simp (disch := omega) only [field_or, field_shiftLeft_self, field_shiftLeft_below, field_shiftLeft_above,
    field_above, field_zero, h20, h15, h4, h0, h5, h6, h8, h12, h16, Nat.or_zero, Nat.zero_or, and_true]

end Words

/-! ### The bit-field instructions -/

def BitFieldType.op (type : BitFieldType) (rd rn : Fin 16) (lsb width : ℕ) : MediaOp :=
  match type with
  | .bfc => .bfc rd lsb width
  | .bfi => .bfi rd rn lsb width
  | .sbfx => .sbfx rd rn lsb width
  | .ubfx => .ubfx rd rn lsb width

def BitFieldType.second (type : BitFieldType) (rn : Fin 16) : Fin 16 := if type = .bfc then 15 else rn

variable {lsb width : ℕ}

theorem toNat_widthInd (type : BitFieldType) (h : LegalField lsb width) :
    (widthInd type (BitVec.ofNat 32 lsb) (BitVec.ofNat 32 width)).toNat =
      match type with
      | .bfc | .bfi => lsb + width - 1
      | .sbfx | .ubfx => width - 1 := by
  obtain ⟨hpos, hle⟩ := h
  have hl := toNat_number (show lsb ≤ 32 by omega)
  have hw := toNat_number (show width ≤ 32 by omega)
  have hone : (1 : Word).toNat = 1 := rfl
  cases type
  all_goals
    unfold widthInd
    simp only [BitVec.toNat_sub, BitVec.toNat_add, hl, hw, hone]
    omega

theorem widthInd_lt (type : BitFieldType) (h : LegalField lsb width) :
    (widthInd type (BitVec.ofNat 32 lsb) (BitVec.ofNat 32 width)).toNat < 32 := by
  rw [toNat_widthInd type h]
  have := h.2
  cases type
  all_goals
    dsimp only
    omega

theorem insertOp_of_legal {rd rn : Fin 16} (h : LegalField lsb width) :
    insertOp rd rn lsb (lsb + width - 1) = some (if rn = 15 then .bfc rd lsb width else .bfi rd rn lsb width) := by
  obtain ⟨hpos, hle⟩ := h
  have hwidth : lsb + width - 1 - lsb + 1 = width := by omega
  unfold insertOp
  rw [if_neg (by omega), hwidth]
  split <;> rfl

theorem fields_armBase (type : BitFieldType) :
    let base := bitFieldBase false type
    field base 0 4 = 0 ∧ field base 7 5 = 0 ∧ field base 12 4 = 0 ∧ field base 16 5 = 0 ∧ field base 28 4 = 0 := by
  cases type <;> decide

theorem fields_thumbBase (type : BitFieldType) :
    let base := bitFieldBase true type
    field base 0 5 = 0 ∧ field base 5 1 = 0 ∧ field base 6 2 = 0 ∧ field base 8 4 = 0 ∧ field base 12 3 = 0 ∧
      field base 15 1 = 0 ∧ field base 16 4 = 0 := by
  cases type <;> decide

/-- **In ARM code** every bit field is read back, with the condition. -/
theorem decode_armBitField (cond : Fin 15) {type : BitFieldType} (rd : Fin 16) {rn : Fin 16}
    (hrn : type = .bfi → rn ≠ 15) (h : LegalField lsb width) :
    let w := bitFieldWord false (BitVec.ofNat 32 cond <<< 28) type rd (type.second rn) (BitVec.ofNat 32 lsb)
      (BitVec.ofNat 32 width)
    decodeArmMedia w = some (type.op rd rn lsb width) ∧ field w 28 4 = cond := by
  have hind := toNat_widthInd type h
  have hl := toNat_number (show lsb ≤ 32 by have := h.2; omega)
  have hc := toNat_cond cond
  have hlsb : lsb < 32 := by have := h.1; have := h.2; omega
  have hindlt := widthInd_lt type h
  obtain ⟨hop, hsub, hn, hlo, hd, hx, h28⟩ := fields_armBitField rd (type.second rn)
    (by rw [hc]; omega) hindlt (by rw [hl]; exact hlsb) (fields_armBase type)
  intro w
  refine ⟨?_, h28.trans hc⟩
  change field w 21 7 = _ at hop
  change field w 4 3 = _ at hsub
  change field w 7 5 = _ at hlo
  change field w 16 5 = _ at hx
  have hrd : regField w 12 = rd := regField_eq hd
  have hrn' : regField w 0 = type.second rn := regField_eq hn
  unfold decodeArmMedia
  rw [hop, hsub, hlo, hx, hrd, hrn', hind, hl]
  cases type with
  | bfc => exact insertOp_of_legal h
  | bfi =>
    refine (insertOp_of_legal h).trans ?_
    rw [if_neg (show BitFieldType.second .bfi rn ≠ 15 from hrn rfl)]
    rfl
  | sbfx =>
    change some (MediaOp.sbfx rd rn lsb (width - 1 + 1)) = _
    rw [Nat.sub_add_cancel h.1]
    rfl
  | ubfx =>
    change some (MediaOp.ubfx rd rn lsb (width - 1 + 1)) = _
    rw [Nat.sub_add_cancel h.1]
    rfl

/-- **In Thumb code** a bit field is read back if it begins below bit 4. -/
theorem decode_thumbBitField (cc : Word) {type : BitFieldType} {rd rn : Fin 16}
    (hrn : type = .bfi → rn ≠ 15) (h : LegalField lsb width) (hlsb : lsb < 4) :
    decodeThumbMedia (bitFieldWord true cc type rd (type.second rn) (BitVec.ofNat 32 lsb) (BitVec.ofNat 32 width)) =
      some (type.op rd rn lsb width) := by
  have hind := toNat_widthInd type h
  have hl := toNat_number (show lsb ≤ 32 by omega)
  have hindlt := widthInd_lt type h
  -- the whole number is in the low part
  have hparts : ∀ k < 4, (BitVec.ofNat 32 k &&& 0x1C : Word) = 0 ∧
      (BitVec.ofNat 32 k &&& 3 : Word) = BitVec.ofNat 32 k := by
    decide
  obtain ⟨hhigh, hlow⟩ := hparts lsb hlsb
  obtain ⟨hop, h15, h5, hn, h12, h6, hd, hx⟩ := fields_thumbBitField rd (type.second rn) hindlt
    (show (BitVec.ofNat 32 lsb).toNat < 4 by rw [hl]; exact hlsb) (fields_thumbBase type)
  rw [hl] at h6
  rw [hind] at hx
  unfold bitFieldWord
  simp only [if_true, hhigh, hlow]
  generalize bitFieldBase true type ||| _ ||| _ ||| _ ||| _ ||| _ = w at *
  have hrd : regField w 8 = rd := regField_eq hd
  have hrn' : regField w 16 = type.second rn := regField_eq hn
  have hsplit : splitField w = lsb := by
    unfold splitField
    rw [h12, h6, Nat.mul_zero, Nat.zero_add]
  unfold decodeThumbMedia
  rw [hop, h15, h5, hx, hrd, hrn', hsplit]
  cases type with
  | bfc => exact insertOp_of_legal h
  | bfi =>
    refine (insertOp_of_legal h).trans ?_
    rw [if_neg (show BitFieldType.second .bfi rn ≠ 15 from hrn rfl)]
    rfl
  | sbfx =>
    change some (MediaOp.sbfx rd rn lsb (width - 1 + 1)) = _
    rw [Nat.sub_add_cancel h.1]
    rfl
  | ubfx =>
    change some (MediaOp.ubfx rd rn lsb (width - 1 + 1)) = _
    rw [Nat.sub_add_cancel h.1]
    rfl

theorem lsb_lt_of_decode_thumbBitField {cc : Word} {type : BitFieldType} {rd rn rn' : Fin 16}
    (h : LegalField lsb width)
    (hdec : decodeThumbMedia (bitFieldWord true cc type rd rn' (BitVec.ofNat 32 lsb) (BitVec.ofNat 32 width)) =
      some (type.op rd rn lsb width)) : lsb < 4 := by
  have hindlt := widthInd_lt type h
  obtain ⟨_, _, h6, _, h12, _, _⟩ := fields_thumbBase type
  have hop : (type.op rd rn lsb width).lsb = some lsb := by cases type <;> rfl
  have hsplit := (splitField_thumbBitField rd rn' hindlt ⟨h12, h6⟩).symm.trans
    (splitField_of_decode hdec hop)
  -- the number that is read back, for each number
  have hback : ∀ k < 32,
      4 * field ((BitVec.ofNat 32 k &&& 0x1C) <<< 12) 12 3 + (BitVec.ofNat 32 k &&& 3 : Word).toNat = k → k < 4 := by
    decide
  exact hback lsb (by have := h.1; have := h.2; omega) hsplit

/-! ### The packing instructions -/

theorem tbBit_eq (isTB : Bool) (k : ℕ) :
    (if isTB then (1 : Word) <<< k else 0) = (BitVec.ofNat 32 isTB.toNat) <<< k := by
  cases isTB with
  | true => rfl
  | false => exact (BitVec.zero_shiftLeft k).symm

theorem toNat_tbBit (isTB : Bool) : (BitVec.ofNat 32 isTB.toNat).toNat = isTB.toNat := by
  cases isTB <;> rfl

/-- **A packing instruction is read back**, in ARM code with the condition. -/
theorem decode_pkhWord (isThumb isTB : Bool) (cond : Fin 15) (rd rn rm : Fin 16) {s : ℕ} (hs : s < 32) :
    let w := pkhWord isThumb isTB (BitVec.ofNat 32 cond <<< 28) rd rn rm (BitVec.ofNat 32 s)
    decodeMedia isThumb w = some (packOp isTB rd rn rm s) ∧ (isThumb = false → field w 28 4 = cond) := by
  have hshift := toNat_number (show s ≤ 32 by omega)
  have htb := toNat_tbBit isTB
  have htblt : (BitVec.ofNat 32 isTB.toNat).toNat < 2 := by
    rw [htb]
    exact Bool.toNat_lt isTB
  cases isThumb with
  | false =>
    have hc := toNat_cond cond
    obtain ⟨hother, hop, hsub, hm, ht, hlo, hd, hn, h28⟩ := fields_armPack rd rn rm
      (show (BitVec.ofNat 32 (cond : ℕ)).toNat < 16 by rw [hc]; omega)
      (show (BitVec.ofNat 32 s).toNat < 32 by rw [hshift]; exact hs) htblt
    unfold pkhWord
    rw [if_neg Bool.false_ne_true, tbBit_eq]
    generalize (0x06800010 : Word) ||| _ ||| _ ||| _ ||| _ ||| _ ||| _ = w at *
    rw [hshift] at hlo
    rw [htb] at ht
    have hrd : regField w 12 = rd := regField_eq hd
    have hrn : regField w 16 = rn := regField_eq hn
    have hrm : regField w 0 = rm := regField_eq hm
    refine ⟨?_, fun _ => h28.trans hc⟩
    change decodeArmMedia w = _
    unfold decodeArmMedia
    rw [hother, hop, hsub, hlo, hrd, hrn, hrm, bit_eq ht]
    rfl
  | true =>
    -- the number of the shift is in two parts
    have hparts : ∀ k < 32, (BitVec.ofNat 32 k &&& 0x1C : Word) <<< 10 = BitVec.ofNat 32 (k / 4) <<< 12 ∧
        (BitVec.ofNat 32 k &&& 3 : Word) = BitVec.ofNat 32 (k % 4) := by
      decide
    obtain ⟨hhigh, hlow⟩ := hparts s hs
    have hdiv := toNat_number (show s / 4 ≤ 32 by omega)
    have hmod := toNat_number (show s % 4 ≤ 32 by omega)
    obtain ⟨hop, h15, hsub, hm, ht, hlo, hd, hhi, hn⟩ := fields_thumbPack rd rn rm
      (show (BitVec.ofNat 32 (s / 4)).toNat < 8 by rw [hdiv]; omega)
      (show (BitVec.ofNat 32 (s % 4)).toNat < 4 by rw [hmod]; omega) htblt
    unfold pkhWord
    rw [if_pos rfl, tbBit_eq, hhigh, hlow]
    generalize (0xEAC00000 : Word) ||| _ ||| _ ||| _ ||| _ ||| _ ||| _ = w at *
    rw [hmod] at hlo
    rw [hdiv] at hhi
    rw [htb] at ht
    have hrd : regField w 8 = rd := regField_eq hd
    have hrn : regField w 16 = rn := regField_eq hn
    have hrm : regField w 0 = rm := regField_eq hm
    have hsplit : splitField w = s := by
      unfold splitField
      rw [hhi, hlo]
      exact Nat.div_add_mod s 4
    refine ⟨?_, nofun⟩
    change decodeThumbMedia w = _
    unfold decodeThumbMedia
    rw [hop, h15, hsub, hrd, hrn, hrm, hsplit, bit_eq ht]
    rfl

/-! ### Messages -/

def NoError (diags : List Diag) : Prop := ∀ d ∈ diags, d.tag ≠ .error

theorem noError_append {l l' : List Diag} (h : NoError l) (h' : NoError l') : NoError (l ++ l') := by
  intro d hd
  rcases List.mem_append.mp hd with hd | hd
  · exact h d hd
  · exact h' d hd

theorem noError_warningIf (c : Bool) (text : String) : NoError (diagIf c (plainWarning text)) := by
  intro d hd
  unfold diagIf at hd
  split at hd
  · obtain rfl := List.mem_singleton.mp hd
    exact nofun
  · exact nomatch hd

theorem noError_bitFieldWarnings (isThumb : Bool) (type : BitFieldType) (rd rn : Fin 16) :
    NoError (bitFieldWarnings isThumb type rd rn) := by
  unfold bitFieldWarnings
  cases type
  all_goals
    dsimp only
    split
    · exact noError_warningIf _ _
    · exact noError_append (noError_warningIf _ _) (noError_warningIf _ _)

theorem noError_pkhWarnings (isThumb : Bool) (rd rn rm : Fin 16) : NoError (pkhWarnings isThumb rd rn rm) := by
  unfold pkhWarnings
  split
  all_goals exact noError_warningIf _ _

/-! ### The instructions of the source -/

theorem coreBitfieldInstr_legal (isThumb : Bool) (cc : Word) (type : BitFieldType) (rd rn : Fin 16)
    (h : LegalField lsb width) :
    let r := coreBitfieldInstr isThumb cc type rd rn (some (BitVec.ofNat 32 lsb)) (some (BitVec.ofNat 32 width))
    NoError r.1 ∧
      r.2 = bitFieldWord isThumb cc type rd (type.second rn) (BitVec.ofNat 32 lsb) (BitVec.ofNat 32 width) := by
  obtain ⟨hpos, hle⟩ := h
  have hl := toNat_number (show lsb ≤ 32 by omega)
  have hw := toNat_number (show width ≤ 32 by omega)
  have hcheck : checkBitField (BitVec.ofNat 32 lsb) (BitVec.ofNat 32 width) =
      ([], BitVec.ofNat 32 lsb, BitVec.ofNat 32 width) := by
    have hlsb : ¬ BitVec.ofNat 32 lsb > 32 := by
      change ¬ 32 < (BitVec.ofNat 32 lsb).toNat
      rw [hl]
      omega
    have hthirtyTwo : ((32 : Word) - BitVec.ofNat 32 lsb).toNat = 32 - lsb := by
      rw [BitVec.toNat_sub, hl]
      change (2 ^ 32 - lsb + 32) % 2 ^ 32 = 32 - lsb
      omega
    have hwidth : ¬ (BitVec.ofNat 32 width < 1 ∨ BitVec.ofNat 32 width > 32 - BitVec.ofNat 32 lsb) := by
      rintro (hlt | hgt)
      · change (BitVec.ofNat 32 width).toNat < 1 at hlt
        omega
      · change ((32 : Word) - BitVec.ofNat 32 lsb).toNat < (BitVec.ofNat 32 width).toNat at hgt
        omega
    unfold checkBitField
    simp only [decide_eq_false hlsb, Bool.false_eq_true, if_false, decide_eq_false hwidth]
    rfl
  unfold coreBitfieldInstr
  simp only [immediateConstant, hcheck, List.append_nil]
  exact ⟨noError_append (noError_warningIf _ _) (noError_bitFieldWarnings isThumb type rd _), rfl⟩

theorem pkhShift_legal (isTB : Bool) {s : ℕ} (h : if isTB then 1 ≤ s ∧ s ≤ 32 else s ≤ 31) :
    pkhShift isTB (.number (some (BitVec.ofNat 32 s))) = ([], BitVec.ofNat 32 s) := by
  have hs : s ≤ 32 := by split at h <;> omega
  have hint : (BitVec.ofNat 32 s).toInt = s := by
    rw [BitVec.toInt_eq_toNat_of_lt (by rw [toNat_number hs]; omega), toNat_number hs]
  unfold pkhShift
  dsimp only
  rw [hint, if_neg]
  cases isTB with
  | true =>
    rw [if_pos rfl] at h
    rintro (⟨_, hlt | hgt⟩ | ⟨hn, _⟩)
    · omega
    · omega
    · exact hn rfl
  | false =>
    rw [if_neg Bool.false_ne_true] at h
    rintro (⟨ht, _⟩ | ⟨_, hlt | hgt⟩)
    · exact Bool.false_ne_true ht
    · omega
    · omega

theorem mPkh_regs (isThumb isTB : Bool) (cc : Word) (rd : Option (Fin 16)) (rn rm : Fin 16) (arg : ShiftArg) :
    mPkh isThumb isTB cc (rd.toList ++ [rn, rm]) arg =
      ((pkhShift isTB arg).1 ++ (pkhRegs isThumb isTB cc (rd.toList ++ [rn, rm]) (pkhShift isTB arg).2).1,
        (pkhRegs isThumb isTB cc (rd.toList ++ [rn, rm]) (pkhShift isTB arg).2).2) := by
  have henough : 2 ≤ (rd.toList ++ [rn, rm]).length := by
    rw [List.length_append]
    exact Nat.le_add_left _ _
  unfold mPkh
  simp only [decide_eq_true henough, if_true]

/-- **The registers in their places.** PKHTB without a shift exchanges its registers, and takes the one that is
left out from the exchanged ones. -/
theorem pkhRegs_swapped (isThumb : Bool) (cc : Word) (rd : Option (Fin 16)) (rn rm : Fin 16) :
    pkhRegs isThumb true cc (rd.toList ++ [rn, rm]) 0 =
      (pkhWarnings isThumb (rd.getD rm) rm rn, pkhWord isThumb false cc (rd.getD rm) rm rn 0) := by
  cases rd <;> rfl

theorem pkhRegs_kept (isThumb isTB : Bool) (cc : Word) (rd : Option (Fin 16)) (rn rm : Fin 16) {shift : Word}
    (h : isTB = true → shift ≠ 0) :
    pkhRegs isThumb isTB cc (rd.toList ++ [rn, rm]) shift =
      (pkhWarnings isThumb (rd.getD rn) rn rm,
        pkhWord isThumb isTB cc (rd.getD rn) rn rm (if isTB && shift == 32 then 0 else shift)) := by
  have hswap : (isTB && shift == 0) = false := by
    cases isTB with
    | false => rfl
    | true => exact beq_eq_false_iff_ne.mpr (h rfl)
  have hout : (isTB && shift != 0) = isTB := by
    cases isTB with
    | false => rfl
    | true => exact bne_iff_ne.mpr (h rfl)
  unfold pkhRegs
  simp only [hswap, hout]
  cases rd <;> rfl

namespace MediaSource

/-- **A bit-field instruction with legal operands** gives no error; it is read back in ARM code, and in Thumb code
if it begins below bit 4. -/
theorem bitField_legal (isThumb : Bool) (cond : Fin 15) (type : BitFieldType) {rd rn : Fin 16} {lsb width : ℕ}
    (hrn : type = .bfi → rn ≠ 15) (h : LegalField lsb width) :
    let r := bitField isThumb cond type rd rn lsb width
    (NoError r.1 ∧ decodeMedia isThumb r.2 = some (type.op rd rn lsb width) ∧
      (isThumb = false → field r.2 28 4 = cond)) ↔ (isThumb = true → lsb < 4) := by
  obtain ⟨hno, hword⟩ := coreBitfieldInstr_legal isThumb (BitVec.ofNat 32 cond <<< 28) type rd rn h
  intro r
  change NoError r.1 at hno
  change r.2 = _ at hword
  rw [hword]
  cases isThumb with
  | false =>
    obtain ⟨hdec, hcond⟩ := decode_armBitField cond rd hrn h
    exact iff_of_true ⟨hno, hdec, fun _ => hcond⟩ nofun
  | true =>
    constructor
    · rintro ⟨_, hdec, _⟩ _
      exact lsb_lt_of_decode_thumbBitField h hdec
    · intro hlsb
      exact ⟨hno, decode_thumbBitField _ hrn h (hlsb rfl), nofun⟩

theorem pkhbt_legal (isThumb : Bool) (cond : Fin 15) (rd : Option (Fin 16)) (rn rm : Fin 16) {lsl : Option ℕ}
    (h : ∀ s, lsl = some s → s ≤ 31) :
    let r := pkh isThumb cond false rd rn rm lsl
    NoError r.1 ∧ decodeMedia isThumb r.2 = some (.pkhbt (rd.getD rn) rn rm (lsl.getD 0)) ∧
      (isThumb = false → field r.2 28 4 = cond) := by
  -- the shift that is left out is the one by 0
  have hshift : pkhShift false (lsl.elim .absent fun s => .number (some (BitVec.ofNat 32 s))) =
      ([], BitVec.ofNat 32 (lsl.getD 0)) := by
    cases lsl with
    | none => rfl
    | some s => exact pkhShift_legal false (h s rfl)
  have hlt : lsl.getD 0 < 32 := by
    cases lsl with
    | none => exact Nat.succ_pos 31
    | some s => exact Nat.lt_succ_of_le (h s rfl)
  have hdec := decode_pkhWord isThumb false cond (rd.getD rn) rn rm hlt
  unfold pkh
  rw [mPkh_regs, hshift, pkhRegs_kept isThumb false _ rd rn rm nofun]
  exact ⟨noError_pkhWarnings _ _ _ _, hdec⟩

theorem pkhtb_legal (isThumb : Bool) (cond : Fin 15) (rd : Option (Fin 16)) (rn rm : Fin 16) {s : ℕ}
    (h : 1 ≤ s ∧ s ≤ 32) :
    let r := pkh isThumb cond true rd rn rm (some s)
    NoError r.1 ∧ decodeMedia isThumb r.2 = some (.pkhtb (rd.getD rn) rn rm s) ∧
      (isThumb = false → field r.2 28 4 = cond) := by
  have hs := toNat_number h.2
  have hne : BitVec.ofNat 32 s ≠ 0 := by
    intro h0
    rw [h0] at hs
    change 0 = s at hs
    omega
  have hout : (if true && BitVec.ofNat 32 s == 32 then 0 else BitVec.ofNat 32 s) =
      BitVec.ofNat 32 (if s = 32 then 0 else s) := by
    by_cases h32 : s = 32
    · subst h32
      rfl
    · have hne32 : (BitVec.ofNat 32 s == (32 : Word)) = false := by
        refine beq_eq_false_iff_ne.mpr fun heq => h32 ?_
        rw [heq] at hs
        exact hs.symm
      rw [Bool.true_and, hne32, if_neg h32]
      rfl
  have hlt : (if s = 32 then 0 else s) < 32 := by split <;> omega
  have hdec := decode_pkhWord isThumb true cond (rd.getD rn) rn rm hlt
  -- the shift by 32 is encoded as 0 and read back as 32
  have hback : packOp true (rd.getD rn) rn rm (if s = 32 then 0 else s) = .pkhtb (rd.getD rn) rn rm s := by
    unfold packOp
    by_cases h32 : s = 32
    · subst h32
      rfl
    · rw [if_pos rfl, if_neg h32, if_neg (by omega)]
  rw [hback] at hdec
  unfold pkh
  rw [mPkh_regs, Option.elim_some, pkhShift_legal true h, pkhRegs_kept isThumb true _ rd rn rm fun _ => hne, hout]
  exact ⟨noError_pkhWarnings _ _ _ _, hdec⟩

theorem pkhtb_absent (isThumb : Bool) (cond : Fin 15) (rd : Option (Fin 16)) (rn rm : Fin 16) :
    let r := pkh isThumb cond true rd rn rm none
    NoError r.1 ∧ decodeMedia isThumb r.2 = some (.pkhbt (rd.getD rm) rm rn 0) ∧
      (isThumb = false → field r.2 28 4 = cond) := by
  have hdec := decode_pkhWord isThumb false cond (rd.getD rm) rm rn (show 0 < 32 by decide)
  have hshift : pkhShift true .absent = ([], 0) := rfl
  unfold pkh
  rw [mPkh_regs, Option.elim_none, hshift, pkhRegs_swapped]
  exact ⟨noError_pkhWarnings _ _ _ _, hdec⟩

end MediaSource

/-- **The encodings decode to what is written** exactly where the assembler is right: for all legal operands of
the six instructions, in both instruction sets, without an error and in ARM code with the condition. -/
theorem assemble_decodes_iff (isThumb : Bool) (cond : Fin 15) (i : MediaSource) (h : i.Legal isThumb) :
    (NoError (i.assemble isThumb cond).1 ∧ decodeMedia isThumb (i.assemble isThumb cond).2 = some i.op ∧
      (isThumb = false → field (i.assemble isThumb cond).2 28 4 = cond)) ↔ i.Right isThumb := by
  cases i with
  | bfc rd lsb width => exact MediaSource.bitField_legal isThumb cond .bfc nofun h.2
  | bfi rd rn lsb width => exact MediaSource.bitField_legal isThumb cond .bfi (fun _ => h.2.1.1) h.2.2
  | sbfx rd rn lsb width => exact MediaSource.bitField_legal isThumb cond .sbfx nofun h.2.2
  | ubfx rd rn lsb width => exact MediaSource.bitField_legal isThumb cond .ubfx nofun h.2.2
  | pkhbt rd rn rm lsl => exact iff_of_true (MediaSource.pkhbt_legal isThumb cond rd rn rm h.2.2.2) trivial
  | pkhtb rd rn rm asr =>
    cases asr with
    | some s => exact iff_of_true (MediaSource.pkhtb_legal isThumb cond rd rn rm (h.2.2.2 s rfl)) fun _ => nofun
    | none =>
      obtain ⟨hno, hdec, hcond⟩ := MediaSource.pkhtb_absent isThumb cond rd rn rm
      constructor
      · rintro ⟨_, hback, _⟩ rfl _
        have hop : MediaOp.pkhbt (Option.getD none rm) rm rn 0 = MediaOp.pkhbt (Option.getD none rn) rm rn 0 :=
          Option.some.inj (hdec.symm.trans hback)
        injection hop with hrd
        exact hrd.symm
      · intro hright
        have hrd : rd.getD rm = rd.getD rn := by
          cases rd with
          | none => exact (hright rfl rfl).symm
          | some r => rfl
        rw [hrd] at hdec
        exact ⟨hno, hdec, hcond⟩

theorem assemble_decodes_sbfx :
    NoError (MediaSource.assemble true 14 (.sbfx 0 1 3 8)).1 ∧
      decodeMedia true (MediaSource.assemble true 14 (.sbfx 0 1 3 8)).2 = some (.sbfx 0 1 3 8) ∧
      (true = false → field (MediaSource.assemble true 14 (.sbfx 0 1 3 8)).2 28 4 = (14 : Fin 15)) :=
  (assemble_decodes_iff true 14 (.sbfx 0 1 3 8)
    ⟨⟨by decide, by decide⟩, ⟨by decide, by decide⟩, by decide, by decide⟩).mpr fun _ => by decide

theorem not_assemble_decodes :
    ¬ ∀ (isThumb : Bool) (cond : Fin 15) (i : MediaSource), i.Legal isThumb →
      decodeMedia isThumb (i.assemble isThumb cond).2 = some i.op := by
  intro h
  have hubfx := h true 14 (.ubfx 0 1 4 8) ⟨⟨by decide, by decide⟩, ⟨by decide, by decide⟩, by decide, by decide⟩
  exact absurd hubfx (by decide)

example : decodeMedia true (MediaSource.assemble true 14 (.ubfx 0 1 4 8)).2 = some (.ubfx 0 1 16 8) := by decide

/-- `PKHTB R1, R2` in ARM code is encoded with R2 for the register to write. -/
example : decodeMedia false (MediaSource.assemble false 14 (.pkhtb none 1 2 none)).2 = some (.pkhbt 2 2 1 0) := by
  decide

end Asasm
