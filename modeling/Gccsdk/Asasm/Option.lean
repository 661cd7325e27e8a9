import Gccsdk.Asasm.Input

/-!
# Condition codes and width qualifiers

The part of `option.c` that reads condition codes and instruction width qualifiers, with the state
it depends on: the syntax and instruction set of `state.c` and the target of `targetcpu.c`.
-/

namespace Asasm

abbrev ARMWord := BitVec 32

/-- `Syntax_e`. -/
inductive Syntax
  | preUALOnly
  | ualOnly
  | both
  deriving DecidableEq, Repr

/-- `InstrType_e`. -/
inductive InstrType
  | arm
  | thumb
  | thumbEE
  deriving DecidableEq, Repr

/-- What was selected as target, as far as messages name it. -/
inductive TargetName
  | device (device core arch : Name)
  | architecture (arch : Name)
  | core (core arch : Name)
  deriving DecidableEq, Repr

/-- The state of the assembler that reading an instruction depends on. -/
structure AsmState where
  /-- `State_GetSyntax`. -/
  syn : Syntax
  /-- `State_GetInstrType`. -/
  instrType : InstrType
  /-- `Target_GetCPUFeatures`. -/
  cpuFeatures : BitVec 64
  targetName : TargetName
  deriving DecidableEq, Repr

def kCPUExtV4 : BitVec 64 := 0x20
def kCPUExtV5 : BitVec 64 := 0x80
def kCPUExtV6T2 : BitVec 64 := 0x4000

/-- `Target_CheckCPUFeature`: whether all features are there, and the warning when they are not. -/
def targetCheckCPUFeature (s : AsmState) (features : BitVec 64) (warn : Bool) : Bool × List Diag :=
  if s.cpuFeatures &&& features = features then (true, [])
  else if !warn then (false, [])
  else (false, [match s.targetName with
    | .device device core arch =>
      ⟨.warning, "%s is not supported on selected device %s (core %s, architecture %s)",
        [.str (cstr "Instruction"), .str device, .str core, .str arch]⟩
    | .architecture arch =>
      ⟨.warning, "%s is not supported on selected architecture %s",
        [.str (cstr "Instruction"), .str arch]⟩
    | .core core arch =>
      ⟨.warning, "%s is not supported on selected core %s (architecture %s)",
        [.str (cstr "Instruction"), .str core, .str arch]⟩])

def ccAL : ARMWord := 14 <<< 28
def ccNV : ARMWord := 15 <<< 28

/-- The condition codes by name, but for `nv`. -/
def ccodes : List (Name × ARMWord) :=
  [(cstr "eq", 0 <<< 28), (cstr "ne", 1 <<< 28), (cstr "cs", 2 <<< 28), (cstr "hs", 2 <<< 28),
    (cstr "cc", 3 <<< 28), (cstr "lo", 3 <<< 28), (cstr "mi", 4 <<< 28), (cstr "pl", 5 <<< 28),
    (cstr "vs", 6 <<< 28), (cstr "vc", 7 <<< 28), (cstr "hi", 8 <<< 28), (cstr "ls", 9 <<< 28),
    (cstr "ge", 10 <<< 28), (cstr "lt", 11 <<< 28), (cstr "gt", 12 <<< 28), (cstr "le", 13 <<< 28),
    (cstr "al", ccAL)]

/-- A character as `GetCCodeIfThere` compares it: upper case becomes lower case unless lower case is
asked for. -/
def ccodeChar (doLowerCase : Bool) (c : UInt8) : UInt8 := c ^^^ if doLowerCase then 0 else 32

/-- `GetCCodeIfThere`, on the text after the characters to skip. `none` stands for
`kOption_NotRecognized`. -/
def getCCodeIfThere (s : AsmState) (doLowerCase : Bool) : Text → Option ARMWord × List Diag
  | c₁ :: c₂ :: _ =>
    let name := [ccodeChar doLowerCase c₁, ccodeChar doLowerCase c₂]
    if name = cstr "nv" then
      if (targetCheckCPUFeature s kCPUExtV5 false).1 then (none, [])
      else if (targetCheckCPUFeature s kCPUExtV4 false).1 then
        (some ccNV, [⟨.warning, "For ARMv4, use of NV condition code is UNPREDICTABLE", []⟩])
      else (some ccNV, [])
    else (ccodes.lookup name, [])
  | _ => (none, [])

/-- `Option_GetCCodeIfThere`: the condition code and what follows it. -/
def optionGetCCodeIfThere (s : AsmState) (doLowerCase : Bool) (text : Text) :
    Option (ARMWord × Text) × List Diag :=
  let (cc, diags) := getCCodeIfThere s doLowerCase text
  (cc.map fun cc => (cc, text.drop 2), diags)

/-- `InstrWidth_e`. -/
inductive InstrWidth
  | unrecognized
  | notSpecified
  | enforce16bit
  | enforce32bit
  deriving DecidableEq, Repr

/-- `Option_GetInstrWidth`: the qualifier and what follows it. -/
def optionGetInstrWidth (s : AsmState) (doLowerCase : Bool) (text : Text) :
    InstrWidth × Text × List Diag :=
  let none' :=
    (if inputIsEndOfKeywordN text 0 then InstrWidth.notSpecified else .unrecognized, text, [])
  if s.syn = .preUALOnly then none'
  else match inputMatchKeyword (cstr (if doLowerCase then ".w" else ".W")) text with
    | some rest => (.enforce32bit, rest, [])
    | none =>
      match inputMatchKeyword (cstr (if doLowerCase then ".n" else ".N")) text with
      | some rest =>
        if s.instrType = .arm then
          (.notSpecified, rest,
            [⟨.error, "Narrow instruction qualifier is not possible in ARM mode", []⟩])
        else (.enforce16bit, rest, [])
      | none => none'

end Asasm
