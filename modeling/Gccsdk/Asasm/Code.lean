import Gccsdk.Asasm.SymbolTable
import Mathlib.Logic.Function.Basic

/-!
# Building postfix code

The first half of `code.c`: the two global arrays `Program` and `Stack`, and the functions that append
to `Program`. An overflow ends the assembler (`Error_Abort`): the model returns `none`. Who frees the
memory a `Value` points to is left out.
-/

namespace Asasm

def codeSizeCode : Nat := 1024

/-- **The state of `code.c`.** -/
structure CodeState where
  /-- `Program[]`; entries from `firstFreeIns` on are left from earlier expressions. -/
  program : Nat → Code
  firstFreeIns : Nat
  /-- `Stack[]`, the values. -/
  stack : Nat → Value

def CodeState.code (c : CodeState) : List Code := (List.range c.firstFreeIns).map c.program

def codeInit (c : CodeState) : CodeState := { c with firstFreeIns := 0 }

def codePush (c : CodeState) (code : Code) : Option CodeState :=
  if c.firstFreeIns < codeSizeCode then
    some { c with
      program := Function.update c.program c.firstFreeIns code
      firstFreeIns := c.firstFreeIns + 1 }
  else none

def codeOperator (c : CodeState) (op : Operator) : Option CodeState := codePush c (.operator op)

def codeSymbol (c : CodeState) (symbol : SymId) (offset : BitVec 32) : Option CodeState :=
  codePush c (.value (.symbol symbol 1 offset))

def codeString (c : CodeState) (str : Name) : Option CodeState := codePush c (.value (.string str))

def codeInt (c : CodeState) (value : BitVec 32) : Option CodeState :=
  codePush c (.value (.int value .pureInt))

def codeFloat (c : CodeState) (value : ARMFloat) : Option CodeState :=
  codePush c (.value (.float value))

def codeBool (c : CodeState) (value : Bool) : Option CodeState := codePush c (.value (.bool value))

def codeValue (c : CodeState) (value : Value) (expCode : Bool) : Option CodeState :=
  match expCode, value with
  | true, .code codes =>
    if codes.length + c.firstFreeIns < codeSizeCode then
      some { c with
        program := fun i =>
          if c.firstFreeIns ≤ i then codes.getD (i - c.firstFreeIns) (c.program i)
          else c.program i
        firstFreeIns := c.firstFreeIns + codes.length }
    else none
  | _, value => codePush c (.value value)

theorem codePush_eq_some {c c' : CodeState} {code : Code} :
    codePush c code = some c' ↔ c.firstFreeIns < codeSizeCode
      ∧ c' = { c with
        program := Function.update c.program c.firstFreeIns code
        firstFreeIns := c.firstFreeIns + 1 } := by
  unfold codePush
  split
  next h => simp [h, eq_comm]
  next h => simp [h]

theorem codePush_code {c c' : CodeState} {code : Code} (h : codePush c code = some c') :
    c'.code = c.code ++ [code] ∧ c'.firstFreeIns = c.firstFreeIns + 1 := by
  obtain ⟨-, rfl⟩ := codePush_eq_some.mp h
  refine ⟨?_, rfl⟩
  simp only [CodeState.code, List.range_succ, List.map_append, List.map_singleton,
    Function.update_self]
  congr 1
  refine List.map_congr_left fun i hi => ?_
  exact Function.update_of_ne (Nat.ne_of_lt (List.mem_range.mp hi)) _ _

end Asasm
