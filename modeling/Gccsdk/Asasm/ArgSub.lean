import Gccsdk.Asasm.DecodeLookup
import Gccsdk.Asasm.LexNumber
import Gccsdk.Asasm.SymbolTable
import Gccsdk.Lib.CText
import Gccsdk.Lib.TurnLoop

/-!
# The substitution of variables in an input line

`Input_ArgSub` of `input.c` with `Input_VarSub`: the line in `workBuff` is copied to `input_buff`, and
each `$name` of an assembler variable is replaced by the value of the variable. Outside of a string
constant the value goes back in front of the rest of the line and is read again, so it may hold further
names.

The state of the loop is an `ArgSub`: the rest of the line, up to its NUL, and the front of `input_buff`
that has been written, whose length is `outOffset`. All writes are checked against the size of the
buffer: one that does not fit leaves it (`Stop.outside`). Lengths are of type `size_t`, whose
differences wrap (`sizeSub`).
-/

namespace Asasm

open CheckedRun TurnLoop StateTransition

def maxLine : ℕ := 4096

/-- `sizeof (input_buff)`. -/
def inputBuffSize : ℕ := maxLine + 256

/-- `sizeof (workBuff)`. -/
def workBuffSize : ℕ := maxLine + 1

def maxErr : ℕ := 30

/-- A difference of two `size_t`. -/
def sizeSub (n m : ℕ) : ℕ := if m ≤ n then n - m else 2 ^ 64 + n - m

/-- **A line in `workBuff`**: it fits with its NUL. -/
structure WorkBuff where
  text : Text
  fits : text.length < workBuffSize
  noNul : 0 ∉ text

/-- What the substitution reads and does not change: the symbols, the phase, the options `-nowarn` and
`-pedantic`, and the argument `warnOnVarSubFail`. -/
structure SubstEnv where
  table : SymbolTable
  phase : Phase
  optionNowarn : Bool
  optionPedantic : Bool
  warnOnVarSubFail : Bool

/-- **The state of the substitution.** -/
structure ArgSub where
  /-- The rest of the line, from `inP` on. -/
  rest : Text
  /-- The front of `input_buff`, up to `outOffset`. -/
  out : Text
  /-- `oNumErrors`. -/
  numErrors : ℕ
  diags : List Diag

/-! ### Messages -/

def errorSuppressMsg (env : SubstEnv) (tag : ErrorTag) : Bool :=
  (env.phase = .passOne || env.optionNowarn) && (tag = .info || tag = .warning)

/-- `Error`. It does not return from an abort, nor behind too many errors. -/
def errorReport (env : SubstEnv) (d : Diag) (s : ArgSub) : Run ArgSub :=
  if errorSuppressMsg env d.tag then pure s
  else
    let numErrors := if d.tag = .error ∨ d.tag = .abort then s.numErrors + 1 else s.numErrors
    if d.tag = .abort ∨ maxErr < numErrors then throw .message
    else pure { s with numErrors := numErrors, diags := s.diags ++ [d] }

def errorReport? (env : SubstEnv) : Option Diag → ArgSub → Run ArgSub
  | none, s => pure s
  | some d, s => errorReport env d s

def lineOverflow : Diag := ⟨.abort, "Line expansion resulted in overflow - line ignored", []⟩

/-! ### Reading a symbol -/

def inputSymbolNoBar : Text → Option Name
  | [] => none
  | c :: text =>
    if isalpha c || c = 0x5F then
      some (c :: text.takeWhile fun c => isalpha c || isdigit c || c = 0x5F)
    else none

def untilBar (isDbl : Bool) : Text → Option Name
  | [] => none
  | c :: text =>
    if c = 0x7C ∧ (isDbl = false ∨ text.head? = some 0x7C) then some []
    else (untilBar isDbl text).map (c :: ·)

def inputSymbolBars (isDbl : Bool) (text : Text) : Option Name × Option Diag :=
  match untilBar isDbl text with
  | none => (none, some ⟨.error, "Failed to read symbol (forgot second '%s' ?)",
      [.str (if isDbl then cstr "||" else cstr "|")]⟩)
  | some [] => (none, none)
  | some name => (some name, none)

def inputSymbol (text : Text) : Option Name × Option Diag :=
  if text.head? ≠ some 0x7C then (inputSymbolNoBar text, none)
  else if (text.drop 1).head? = some 0x7C then inputSymbolBars true (text.drop 2)
  else inputSymbolBars false (text.drop 1)

def lexGetIDNoError (text : Text) : Lex × Option Diag :=
  match inputSymbol (inputSkipWS text) with
  | (some name, diag) => (.id name, diag)
  | (none, diag) => (.none, diag)

/-! ### The value of a variable -/

def variableOf (table : SymbolTable) : Lex → Option (Name × Value)
  | .id name =>
    match table.find name with
    | some id => if isSet (table.sym id).type symbolRW then some (name, (table.sym id).value) else none
    | none => none
  | _ => none

/-- A digit of `%X`. -/
def hexDigit (d : ℕ) : UInt8 := if d < 10 then UInt8.ofNat (0x30 + d) else UInt8.ofNat (0x37 + d)

/-- The text of a value: `toCopy` and `toCopyLen`. Variables have no other values. -/
def toCopy : Value → Option Text
  | .int i _ => some ((List.range 8).reverse.map fun k => hexDigit (i.toNat / 16 ^ k % 16))
  | .string s => some s
  | .bool b => some (if b then cstr "T" else cstr "F")
  | _ => none

/-! ### Writing to `input_buff` -/

/-- `memcpy (input_buff + outOffset, source, len)` -/
def copyOut (out source : Text) (len : ℕ) : Run Text :=
  if out.length + len ≤ inputBuffSize then pure (out ++ source.take len) else throw .outside

/-- `input_buff[outOffset++] = c` -/
def putOut (out : Text) (c : UInt8) : Run Text := copyOut out [c] 1

/-! ### `Input_VarSub` -/

def varSubFail (env : SubstEnv) (inString : Bool) (label : Lex) : Option Diag :=
  if !env.warnOnVarSubFail then none
  else
    match label with
    | .id name =>
      if !inString then
        some ⟨.warning, "Unknown variable '%.*s' for $ expansion, you want to use vertical bars ?",
          [.str name]⟩
      else if env.optionPedantic then
        some ⟨.warning,
          "No $ expansion as variable '%.*s' is not defined, you want to use double $ ?", [.str name]⟩
      else none
    | _ =>
      if !inString then some ⟨.warning, "Non-ID in $ expansion", []⟩
      else if env.optionPedantic then
        some ⟨.warning, "No $ expansion - did you perhaps mean $$", []⟩
      else none

/-- A `$` is written, if there is room; the line goes on with `rest`. -/
def writeDollar (rest : Text) (s : ArgSub) : ArgSub :=
  { s with rest := rest, out := if s.out.length < inputBuffSize then s.out ++ [0x24] else s.out }

/-- What is left behind a name. Its bars do not count; a `.` that ends it is skipped. -/
def behindName (name : Name) (text : Text) : Text :=
  if (text.drop name.length).head? = some 0x2E then text.drop (name.length + 1)
  else text.drop name.length

/-- The value of a variable is written, as far as `MAX_LINE`. -/
def copyVariable (name : Name) (value : Value) (text : Text) (s : ArgSub) : Run ArgSub :=
  match toCopy value with
  | none => throw .message -- assert (0)
  | some source => do
    let toCopyLen :=
      if maxLine ≤ s.out.length + source.length then sizeSub maxLine s.out.length else source.length
    let out ← copyOut s.out source toCopyLen
    pure { s with rest := behindName name text, out := out }

/-- `Input_VarSub`, in front of a `$`. -/
def inputVarSub (env : SubstEnv) (inString : Bool) (s : ArgSub) : Run (Bool × ArgSub) :=
  match s.rest with
  | [] => throw .message -- assert (*inP == '$')
  | _ :: text =>
    if text.head? = some 0x24 then pure (true, writeDollar (text.drop 1) s)
    else do
      let label := lexGetIDNoError text
      let s ← errorReport? env label.2 s
      match variableOf env.table label.1 with
      | some v =>
        let s ← copyVariable v.1 v.2 text s
        pure (false, s)
      | none =>
        let s ← errorReport? env (varSubFail env inString label.1) s
        pure (true, writeDollar text s)

/-! ### `Input_ArgSub` -/

def commentTurn (s : ArgSub) : Run ArgSub := do
  let len :=
    if maxLine ≤ s.out.length + s.rest.length then sizeSub (sizeSub maxLine s.out.length) s.rest.length
    else s.rest.length
  let out ← copyOut s.out s.rest len
  pure { s with rest := s.rest.drop len, out := out }

/-- The rest of `|xxx|`, with its closing bar. -/
def copyBars : Text → Text → Run (Text × Text)
  | [], out => pure ([], out)
  | c :: rest, out =>
    if out.length < inputBuffSize then do
      let out ← putOut out c
      if c = 0x7C then pure (rest, out) else copyBars rest out
    else pure (c :: rest, out)

/-- `|xxx|` is copied as it is. -/
def barTurn (c : UInt8) (rest : Text) (s : ArgSub) : Run ArgSub := do
  let out ← putOut s.out c
  let r ← copyBars rest out
  pure { s with rest := r.1, out := r.2 }

structure InString where
  sub : ArgSub
  disableVarSubst : Bool
  closed : Bool

def stringTurn (env : SubstEnv) (quote : UInt8) (t : InString) : Run InString :=
  match t.sub.rest with
  | [] => pure t
  | c :: rest =>
    if c = 0x24 ∧ t.disableVarSubst = false then do
      let r ← inputVarSub env true t.sub
      pure { t with sub := r.2 }
    else do
      let out ← putOut t.sub.out c
      pure { sub := { t.sub with rest := rest, out := out }
             disableVarSubst := if c = 0x7C then !t.disableVarSubst else t.disableVarSubst
             closed := c = quote }

def stringLoop (env : SubstEnv) (quote : UInt8) : Loop InString where
  more t := !t.closed && t.sub.out.length < inputBuffSize && !t.sub.rest.isEmpty
  turn := stringTurn env quote

def quoteTurn (env : SubstEnv) (quote : UInt8) (rest : Text) (s : ArgSub) : Run ArgSub := do
  let out ← putOut s.out quote
  let t ← (stringLoop env quote).run (rest.length + 1)
    ⟨{ s with rest := rest, out := out }, false, false⟩
  pure t.sub

/-- A `$`: the value of a variable is read again, if `workBuff` has room for it. -/
def dollarTurn (env : SubstEnv) (s : ArgSub) : Run ArgSub := do
  let r ← inputVarSub env false s
  let expansion := r.2.out.drop s.out.length
  if expansion ≠ [] ∧ r.1 = false then
    if expansion.length + (r.2.rest.length + 1) ≤ workBuffSize then
      pure { r.2 with rest := CText.cstr (expansion ++ r.2.rest), out := s.out }
    else errorReport env lineOverflow r.2
  else pure r.2

def argSubTurn (env : SubstEnv) (s : ArgSub) : Run ArgSub :=
  match s.rest with
  | [] => pure s
  | c :: rest =>
    if c = 0x3B then commentTurn s
    else if c = 0x7C then barTurn c rest s
    else if c = 0x27 ∨ c = 0x22 then quoteTurn env c rest s
    else if c = 0x24 then dollarTurn env s
    else do
      let out ← putOut s.out c
      pure { s with rest := rest, out := out }

/-- The loop of `Input_ArgSub`. -/
def argSubLoop (env : SubstEnv) : Loop ArgSub where
  more s := !s.rest.isEmpty && s.out.length < inputBuffSize
  turn := argSubTurn env

def argSubEnd (env : SubstEnv) (s : ArgSub) : Run ArgSub :=
  if s.rest ≠ [] then errorReport env lineOverflow s
  else if s.out.length < inputBuffSize then do
    let out ← putOut s.out 0
    pure { s with out := out }
  else pure s

def argSubStart (numErrors : ℕ) (workBuff : WorkBuff) : ArgSub := ⟨workBuff.text, [], numErrors, []⟩

/-- **`Input_ArgSub`**, with a number of looks at the condition of its loop. -/
def inputArgSub (env : SubstEnv) (turns numErrors : ℕ) (workBuff : WorkBuff) : Run ArgSub := do
  let s ← (argSubLoop env).run turns (argSubStart numErrors workBuff)
  argSubEnd env s

end Asasm
