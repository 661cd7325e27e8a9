import Gccsdk.Asasm.Global

/-!
# Values, operators and postfix code

The data types of `value.h`, `lex.h` and `code.h`. A `Value` is what an expression evaluates to; a
piece of postfix `Code` is an operator or a value to push, and an expression that cannot be
evaluated yet is itself a value, `Value.code`.

Machine words are `BitVec`: an `int` or `uint32_t` is a `BitVec 32` (the code relies on wrapping
two's complement for both), an `ARMFloat` its 64-bit pattern. A `Symbol *` is a `SymId`.
-/

namespace Asasm

/-- A pointer to a `Symbol`; two pointers are equal when their numbers are. -/
abbrev SymId := Nat

/-- The bit pattern of an `ARMFloat` (`double`). -/
abbrev ARMFloat := BitVec 64

/-- `IntType_e`: what a `ValueInt` counts. -/
inductive IntType
  | pureInt
  | cpuRList
  | cpu
  | fpu
  | neonQuadReg
  | neonOrVFPDoubleReg
  | vfpSingleReg
  | coProReg
  | coProNum
  deriving DecidableEq, Repr

/-- `Operator_e`, in the order of the source. -/
inductive Operator
  | fLoad | fExec | fSize | fAttr
  | lNot | not | neg | pos
  | base | index | len | str | chr
  | size
  | lowerCase | upperCase | revCC
  | ccEnc | rConst
  | mul | div | mod
  | left | right | concat
  | asr | shr | shl | ror | rol
  | add | sub | and | or | xor
  | le | ge | lt | gt | eq | ne
  | lAnd | lOr | lEOr
  deriving DecidableEq, Repr

/-- `Lex_IsUnop`: `op <= eOp_RConst`. -/
def Operator.isUnop (op : Operator) : Bool := op.ctorIdx ≤ Operator.rConst.ctorIdx

mutual

inductive Value
  | illegal
  | int (i : BitVec 32) (type : IntType)
  | int64 (i : BitVec 64)
  | float (f : ARMFloat)
  | string (s : Name)
  | bool (b : Bool)
  | code (c : List Code)
  | addr (r : Fin 16) (i : BitVec 32)
  | symbol (symbol : SymId) (factor offset : BitVec 32)

/-- `Code`: an operator, or a value to push. -/
inductive Code
  | operator (op : Operator)
  | value (v : Value)

end

instance : Inhabited Value := ⟨.illegal⟩
instance : Inhabited Code := ⟨.value .illegal⟩

/-- A set of `ValueTag` bits. -/
abbrev ValueTag := BitVec 8

namespace ValueTag

def illegal : ValueTag := 0
def int : ValueTag := 1
def int64 : ValueTag := 2
def float : ValueTag := 4
def string : ValueTag := 8
def bool : ValueTag := 16
def code : ValueTag := 32
def addr : ValueTag := 64
def symbol : ValueTag := 128
def all : ValueTag := 255

end ValueTag

/-- The `Tag` of a value. -/
def Value.tag : Value → ValueTag
  | .illegal => ValueTag.illegal
  | .int .. => ValueTag.int
  | .int64 _ => ValueTag.int64
  | .float _ => ValueTag.float
  | .string _ => ValueTag.string
  | .bool _ => ValueTag.bool
  | .code _ => ValueTag.code
  | .addr .. => ValueTag.addr
  | .symbol .. => ValueTag.symbol

end Asasm
