import Gccsdk.Asasm.Put

/-!
# IT instructions

`it.c`: the `IT` mnemonic (`m_it`) and the condition check made for every instruction
(`IT_ApplyCond`), which generates an `IT` instruction when a Thumb instruction is conditional outside
of an explicit block, or extends the one it generated last. The state is kept for each area.
-/

namespace Asasm

/-- `IT_State_t`, with the bounds its comments give. -/
structure ITState where
  /-- Then/else states, of the indices below `maxIdx`. -/
  isThen : Nat → Bool := fun _ => false
  maxIdx : Nat := 0
  /-- When this is `maxIdx`, there is no pending block. -/
  curIdx : Nat := 0
  /-- There was an implicit `IT` instruction. -/
  implicitIT : Bool := false
  cc : ARMWord := ccAL
  /-- `Area::curIdx` at the moment the `IT` instruction was emitted. -/
  areaCurIdx : Nat := 0
  curIdx_le : curIdx ≤ maxIdx := by decide
  maxIdx_le : maxIdx ≤ 4 := by decide

/-- An area with its `IT` state. -/
structure ITArea where
  code : AreaCode := {}
  it : ITState := {}

/-- `IT_InitializeState`. -/
def itInitialState : ITState := {}

def itCondBit (cc : ARMWord) (isThen : Bool) : ARMWord :=
  if xor (cc &&& 0x10 = 0) isThen then 1 else 0

/-- The loop of `IT_EmitIT`, from `cond` down. -/
def itMask (cc : ARMWord) (isThen : Nat → Bool) : Nat → ARMWord → ARMWord
  | cond + 2, mask =>
    itMask cc isThen (cond + 1) ((itCondBit cc (isThen (cond + 1)) <<< 3) ||| (mask >>> 1))
  | _, mask => mask

def itEmitIT (s : AsmState) (area : ITArea) (isThumb : Bool) : Option (ITArea × List Diag) := do
  if !isThumb then pure (area, [])
  else
    let (_, featureDiags) := targetCheckCPUFeature s kCPUExtV6T2 true
    assert (area.it.isThen 0)
    let cc := area.it.cc >>> (28 - 4)
    let mask := itMask cc area.it.isThen area.it.maxIdx 8
    let (code, putDiags) := putInsWithOffset s area.code area.it.areaCurIdx 2 (0xBF00 ||| cc ||| mask)
    pure ({ area with code }, featureDiags ++ putDiags)

def itStartImplicitIT (areaCurIdx : Nat) (cc : ARMWord) : ITState where
  isThen i := i = 0
  maxIdx := 1
  curIdx := 1
  implicitIT := true
  cc
  areaCurIdx

def ITState.addCase (it : ITState) (isThen : Bool) (h : it.maxIdx < 4) : ITState :=
  { it with
    isThen := Function.update it.isThen it.curIdx isThen
    curIdx := it.curIdx + 1
    maxIdx := it.maxIdx + 1
    curIdx_le := Nat.succ_le_succ it.curIdx_le
    maxIdx_le := h }

/-- Finish an implicit block prematurely when the instruction has to be its last. -/
def ITState.finishIf (it : ITState) (enforceLast : Bool) : ITState :=
  if enforceLast then
    { it with
      implicitIT := false
      curIdx := 4
      maxIdx := 4
      curIdx_le := Nat.le_refl 4
      maxIdx_le := Nat.le_refl 4 }
  else it

def ITState.advance (it : ITState) (h : it.curIdx < it.maxIdx) : ITState :=
  { it with curIdx := it.curIdx + 1, curIdx_le := h }

/-- The state of an implicit block which still can be extended, after a conditional instruction. -/
def ITState.extend (it : ITState) (areaCurIdx : Nat) (cc : ARMWord) (h : it.maxIdx < 4) : ITState :=
  if cc = it.cc then it.addCase true h
  else if cc = it.cc ^^^ (1 <<< 28) then it.addCase false h
  else itStartImplicitIT areaCurIdx cc

def ITState.expectedCC (it : ITState) : ARMWord :=
  it.cc ^^^ ((if it.isThen it.curIdx then 0 else 1) <<< 28)

/-- The messages of `IT_ApplyCond` for an instruction in a pending explicit block. -/
def itPendingDiags (it : ITState) (cc : ARMWord) (enforceLast isThumb : Bool) : List Diag :=
  if isThumb && enforceLast && it.curIdx + 1 != it.maxIdx then
    [⟨.error, "Not having this instruction as last in pending IT block is UNPREDICTABLE", []⟩,
      ⟨.error, "note: Pending IT block started here", []⟩]
  else if cc ≠ it.expectedCC then
    [⟨.error, "Condition code does not match with pending IT block", []⟩,
      ⟨.error, "note: Pending IT block started here", []⟩]
  else []

/-- Emit the `IT` instruction of an implicit block, and finish the block when asked for. -/
def itEmitImplicit (s : AsmState) (area : ITArea) (it : ITState) (enforceLast : Bool) :
    Option (ITArea × List Diag) := do
  let (area, diags) ← itEmitIT s { area with it } true
  pure ({ area with it := area.it.finishIf enforceLast }, diags)

/-- **`IT_ApplyCond`.** -/
def itApplyCond (s : AsmState) (area : ITArea) (cc : ARMWord) (enforceLast isThumb : Bool) :
    Option (ITArea × List Diag) :=
  let cc := cc &&& ccNV
  if hpending : area.it.curIdx < area.it.maxIdx then do
    assert (!area.it.implicitIT)
    pure ({ area with it := area.it.advance hpending },
      itPendingDiags area.it cc enforceLast isThumb)
  else if hextend : area.it.implicitIT = true ∧ area.it.maxIdx < 4 then
    if !isThumb || cc = ccAL then some ({ area with it := itInitialState }, [])
    else itEmitImplicit s area (area.it.extend area.code.curIdx cc hextend.2) enforceLast
  else if isThumb && cc ≠ ccAL then
    itEmitImplicit s area (itStartImplicitIT area.code.curIdx cc) enforceLast
  else some (area, [])

/-! ### The IT mnemonic -/

/-- The T and E after `IT`: the loop of `m_it`, with the room left. -/
def itCases (doLowerCase : Bool) : Nat → Text → List Bool × Text
  | 0, text => ([], text)
  | room + 1, text =>
    match inputMatch (if doLowerCase then 0x74 else 0x54) text with
    | some rest => ((itCases doLowerCase room rest).map (true :: ·) id)
    | none =>
      match inputMatch (if doLowerCase then 0x65 else 0x45) text with
      | some rest => ((itCases doLowerCase room rest).map (false :: ·) id)
      | none => ([], text)

theorem length_itCases (doLowerCase : Bool) (room : Nat) (text : Text) :
    (itCases doLowerCase room text).1.length ≤ room := by
  induction room generalizing text with
  | zero => exact Nat.le_refl 0
  | succ room ih =>
    unfold itCases
    split
    · exact Nat.succ_le_succ (ih _)
    · split
      · exact Nat.succ_le_succ (ih _)
      · exact Nat.zero_le _

def itExplicit (areaCurIdx : Nat) (thens : List Bool) (cc : ARMWord) (h : thens.length ≤ 3) :
    ITState where
  isThen i := (true :: thens).getD i false
  maxIdx := thens.length + 1
  curIdx := 0
  implicitIT := false
  cc
  areaCurIdx
  curIdx_le := Nat.zero_le _
  maxIdx_le := Nat.succ_le_succ h

/-- What `m_it` returns: whether the text is no `IT` instruction after all, the area and the
messages. -/
abbrev ITResult := Bool × ITArea × List Diag

/-- **`m_it`**, on the text that follows `IT`. -/
def mIt (s : AsmState) (area : ITArea) (doLowerCase : Bool) (text : Text) : Option ITResult :=
  let (thens, text') := itCases doLowerCase 3 text
  let (instrWidth, text', widthDiags) := optionGetInstrWidth s doLowerCase text'
  if instrWidth = .unrecognized then some (true, area, widthDiags)
  else
    let wideDiags := if instrWidth = .enforce32bit then
        [⟨.warning, "Wide instruction qualifier for Thumb is not possible", []⟩]
      else []
    match optionGetCCodeIfThere s false (inputSkipWS text') with
    | (none, ccDiags) =>
      some (false, area, widthDiags ++ wideDiags ++ ccDiags
        ++ [⟨.error, "Unrecognized or missing condition code", []⟩])
    | (some (cc, _), ccDiags) => do
      let pendingDiags := if area.it.curIdx ≠ area.it.maxIdx then
          [⟨.error, "There is a pending IT block", []⟩,
            ⟨.error, "note: Pending IT block started here", []⟩]
        else []
      let alDiags := if cc = ccAL && !thens.isEmpty then
          [⟨.warning, "Use of AL condition with one or more Then/Else arguments is UNPREDICTABLE",
            []⟩]
        else []
      let it := itExplicit area.code.curIdx (itCases doLowerCase 3 text).1 cc
        (length_itCases doLowerCase 3 text)
      let (area, emitDiags) ← itEmitIT s { area with it } (s.instrType ≠ .arm)
      pure (false, area, widthDiags ++ wideDiags ++ ccDiags ++ pendingDiags ++ alDiags ++ emitDiags)

end Asasm
