import Gccsdk.Asasm.Value
import Gccsdk.Asasm.Input

/-!
# Lexical elements of expressions

The lexical elements `lex.c` cuts an expression into (`Lex`), and `Lex_GetBinop`, which reads a binary
operator with its priority. All its operators have the priority of the table in `lex.h`
(`lexGetBinop_priority`).
-/

namespace Asasm

/-- `Lex`. Ownership of strings is left out. -/
inductive Lex
  | id (str : Name)
  | localLabel (str : Name)
  | string (str : Name)
  | int (value : BitVec 32)
  | int64 (value : BitVec 64)
  | float (value : ARMFloat)
  | operator (op : Operator) (pri : Nat)
  | position
  | storage
  | delim (delim : UInt8)
  | bool (value : Bool)
  | none
  deriving DecidableEq, Repr

def kPrioOpUnary : Nat := 7
def kPrioOpMultiplicative : Nat := 6
def kPrioOpString : Nat := 5
def kPrioOpShift : Nat := 4
def kPrioOpAddAndLogical : Nat := 3
def kPrioOpRelational : Nat := 2
def kPrioOpBoolean : Nat := 1
def kPrioOpMax : Nat := 7
def kPrioOpMin : Nat := 1

/-- The priority the table of `Operator_e` in `lex.h` gives. -/
def Operator.priority : Operator → Nat
  | .mul | .div | .mod => kPrioOpMultiplicative
  | .left | .right | .concat => kPrioOpString
  | .asr | .shr | .shl | .ror | .rol => kPrioOpShift
  | .add | .sub | .and | .or | .xor => kPrioOpAddAndLogical
  | .le | .ge | .lt | .gt | .eq | .ne => kPrioOpRelational
  | .lAnd | .lOr | .lEOr => kPrioOpBoolean
  | _ => kPrioOpUnary

/-- What `Lex_GetBinaryOp` accepts after a colon. -/
def binaryOps : List (Name × Operator × Nat) :=
  [(cstr "AND:", .and, kPrioOpAddAndLogical), (cstr "ASR:", .asr, kPrioOpShift),
    (cstr "CC:", .concat, kPrioOpString), (cstr "EOR:", .xor, kPrioOpAddAndLogical),
    (cstr "LAND:", .lAnd, kPrioOpBoolean), (cstr "LEFT:", .left, kPrioOpString),
    (cstr "LEOR:", .lEOr, kPrioOpBoolean), (cstr "LOR:", .lOr, kPrioOpBoolean),
    (cstr "MOD:", .mod, kPrioOpMultiplicative), (cstr "OR:", .or, kPrioOpAddAndLogical),
    (cstr "RIGHT:", .right, kPrioOpString), (cstr "ROL:", .rol, kPrioOpShift),
    (cstr "ROR:", .ror, kPrioOpShift), (cstr "SHL:", .shl, kPrioOpShift),
    (cstr "SHR:", .shr, kPrioOpShift)]

/-- `Lex_GetBinaryOp`, after the colon. No name is the beginning of another one. -/
def lexGetBinaryOp (text : Text) : Option (Operator × Nat × Text) :=
  (binaryOps.find? fun entry => entry.1.isPrefixOf text).map fun entry =>
    (entry.2.1, entry.2.2, text.drop entry.1.length)

/-- A binary operator of one sign, given whether a second sign makes another one of it. -/
def signOr (second : UInt8) (double single : Operator × Nat) (text : Text) : Lex × Text :=
  match inputMatch second text with
  | some rest => (.operator double.1 double.2, rest)
  | Option.none => (.operator single.1 single.2, text)

/-- `Input_IsEolOrCommentStart`, within a line. -/
def inputIsEolOrCommentStart : Text → Bool
  | [] => true
  | c :: _ => c = 0x3B

/-- **`Lex_GetBinop`.** What is no binary operator stays in the text. -/
def lexGetBinop (text : Text) : Lex × Text :=
  match inputSkipWS text with
  | 0x2A :: rest => (.operator .mul kPrioOpMultiplicative, rest)
  | 0x2F :: rest => signOr 0x3D (.ne, kPrioOpRelational) (.div, kPrioOpMultiplicative) rest
  | 0x25 :: rest => (.operator .mod kPrioOpMultiplicative, rest)
  | 0x2B :: rest => (.operator .add kPrioOpAddAndLogical, rest)
  | 0x2D :: rest => (.operator .sub kPrioOpAddAndLogical, rest)
  | 0x3E :: 0x3E :: rest => signOr 0x3E (.asr, kPrioOpShift) (.shr, kPrioOpShift) rest
  | 0x3E :: 0x3D :: rest => (.operator .ge kPrioOpRelational, rest)
  | 0x3E :: rest => (.operator .gt kPrioOpRelational, rest)
  | 0x3C :: 0x3C :: rest => (.operator .shl kPrioOpShift, rest)
  | 0x3C :: 0x3D :: rest => (.operator .le kPrioOpRelational, rest)
  | 0x3C :: 0x3E :: rest => (.operator .ne kPrioOpRelational, rest)
  | 0x3C :: rest => (.operator .lt kPrioOpRelational, rest)
  | 0x3D :: rest => signOr 0x3D (.eq, kPrioOpRelational) (.eq, kPrioOpRelational) rest
  | 0x21 :: 0x3D :: rest => (.operator .ne kPrioOpRelational, rest)
  | 0x7C :: rest => signOr 0x7C (.lOr, kPrioOpBoolean) (.or, kPrioOpAddAndLogical) rest
  | 0x26 :: rest => signOr 0x26 (.lAnd, kPrioOpBoolean) (.and, kPrioOpAddAndLogical) rest
  | 0x3A :: rest =>
    match lexGetBinaryOp rest with
    | some (op, pri, rest) => (.operator op pri, rest)
    | Option.none => (.none, 0x3A :: rest)
  | 0x5E :: rest =>
    -- at the end of a line it might be the one of a register list
    if inputIsEolOrCommentStart (inputSkipWS rest) then (.none, 0x5E :: rest)
    else (.operator .xor kPrioOpAddAndLogical, rest)
  | text => (.none, text)

def Lex.HasTablePriority : Lex → Prop
  | .operator op pri => pri = op.priority ∧ op.isUnop = false
  | _ => True

private theorem signOr_priority {second : UInt8} {double single : Operator × Nat} {text : Text}
    (hd : (Lex.operator double.1 double.2).HasTablePriority)
    (hs : (Lex.operator single.1 single.2).HasTablePriority) :
    (signOr second double single text).1.HasTablePriority := by
  unfold signOr
  split
  · exact hd
  · exact hs

/-- **Priorities.** `Lex_GetBinop` gives every operator the priority of the table. -/
theorem lexGetBinop_priority (text : Text) : (lexGetBinop text).1.HasTablePriority := by
  have hnames : ∀ entry ∈ binaryOps, (Lex.operator entry.2.1 entry.2.2).HasTablePriority := by
    unfold Lex.HasTablePriority
    decide
  unfold lexGetBinop
  split
  case h_17 rest _ =>
    unfold lexGetBinaryOp
    cases hfind : binaryOps.find? fun entry => entry.1.isPrefixOf rest with
    | none => trivial
    | some entry => exact hnames entry (List.mem_of_find?_eq_some hfind)
  case h_18 =>
    split
    · trivial
    · exact ⟨rfl, rfl⟩
  all_goals first
    | exact signOr_priority ⟨rfl, rfl⟩ ⟨rfl, rfl⟩
    | exact ⟨rfl, rfl⟩
    | trivial

end Asasm
