import Gccsdk.Asasm.Resolve

/-!
# Symbol tables without circles

How symbols are given values: `Symbol_Define` (`symbolDefine`), the labels of `ASM_DefineLabel`
(`asmDefineLabel`), and the directives of `directive_symbol.c` that evaluate an expression for it
(`define`). `AREA` and `ORG` make the symbols that labels refer to.

Nothing in `Symbol_Define` keeps definitions from running in a circle. Labels refer to the symbol of
their area, which is never defined (`Sound`), and registers are numbers; an `EQU` closes a circle just
when its value is a multiple of a symbol whose definitions lead back to the one that is assigned
(`perform_ends_iff`). In runs without such an assignment every resolution ends
(`resolveSymbol_ends_of_run`).
-/

namespace Asasm

open Chase StateTransition

/-! ### Evaluating a program -/

/-- What the evaluation of an expression computes with. All results hold whatever these do. -/
structure Evaluator where
  ops : DoubleOps
  /-- `Eval_Unop`, illegal when it failed. -/
  unop : SymHeap → Operator → Value → Value
  /-- `Eval_Binop`. -/
  binop : SymHeap → Operator → Value → Value → Value
  /-- `Value_Equal`. -/
  equal : SymHeap → Value → Value → Bool

def sizeIsNext : List Code → Bool
  | .operator .size :: _ => true
  | _ => false

/-- How `Code_EvalLowest` ends. -/
inductive Evaluated
  | failed
  | done (stack : List Value)

section Evaluate

variable (E : Evaluator) (heap : SymHeap) (turns : Nat)

/-- **`Code_EvalLowest`**; none for a failed assertion, and when a symbol has not been resolved after so
many turns. -/
def codeEvalLowest (resolveAbsArea : Bool) : List Code → List Value → Option Evaluated
  | [], stack => some (.done stack)
  | .operator op :: program, stack =>
    if op.isUnop then
      match stack with
      | a :: stack =>
        match E.unop heap op a with
        | .illegal => some .failed
        | result => codeEvalLowest resolveAbsArea program (result :: stack)
      | [] => none
    else
      match stack with
      | b :: a :: stack =>
        match E.binop heap op a b with
        | .illegal => some .failed
        | result => codeEvalLowest resolveAbsArea program (result :: stack)
      | _ => none
  | .value v :: program, stack =>
    if sizeIsNext program then codeEvalLowest resolveAbsArea program (v :: stack)
    else
      match resolveSymbol E.ops heap resolveAbsArea turns v with
      | some (.done false v) => codeEvalLowest resolveAbsArea program (v :: stack)
      | some (.done true _) => some .failed
      | _ => none

/-- Integers as a `double` and strings as integers, where these are wanted. -/
def convertedResult (legal : ValueTag) : Value → Value
  | .int i type =>
    if legal &&& (ValueTag.int ||| ValueTag.float) = ValueTag.float then .float (E.ops.ofInt i)
    else .int i type
  | .string [c] =>
    if legal &&& (ValueTag.string ||| ValueTag.int) = ValueTag.int then
      .int (c.toBitVec.setWidth 32) .pureInt
    else .string [c]
  | v => v

/-- The end of `Code_Eval`: nothing that is not legal. -/
def legalResult (legal : ValueTag) (v : Value) : Value :=
  if (convertedResult E legal v).tag &&& legal = 0 then .illegal else convertedResult E legal v

/-- **`Code_Eval`**. -/
def codeEval (legal : ValueTag) (program : List Code) : Option Value :=
  let resolveAbsArea := decide (legal &&& (ValueTag.int ||| ValueTag.symbol) = ValueTag.int)
  match (if program.isEmpty then some .failed
    else codeEvalLowest E heap turns resolveAbsArea program []) with
  | some .failed =>
    some (legalResult E legal (if legal &&& ValueTag.code ≠ 0 then .code program else .illegal))
  | some (.done [v]) => some (legalResult E legal v)
  | _ => none

/-- `Expr_BuildAndEval` with the program that has been built, if it could be built. -/
def exprBuildAndEval (legal : ValueTag) : (program : Option (List Code)) → Option Value
  | none => some .illegal
  | some program => codeEval E heap turns legal program

end Evaluate

/-! ### Defining symbols -/

def symbolConstant : BitVec 32 := 0x10000000

def symbolDatum : BitVec 32 := 0x0100

def SymHeap.defineAs (heap : SymHeap) (s : SymId) (newSymbolType : BitVec 32) (v : Value) : SymHeap :=
  heap.modify s fun sym => { sym with type := sym.type ||| (newSymbolType ||| symbolDefined), value := v }

section Define

variable (E : Evaluator) (heap : SymHeap) (turns : Nat)

/-- What `Symbol_Define` accepts: no area, and for a symbol that is defined the same value again. -/
def canDefine (s : SymId) (newValue : Value) : Bool :=
  !(heap.sym s).isArea
    && (!(heap.sym s).isDefined || (heap.sym s).value.tag == ValueTag.illegal
      || E.equal heap (heap.sym s).value newValue)

/-- **`Symbol_Define`**, with its result. -/
def symbolDefine (s : SymId) (newSymbolType : BitVec 32) (newValue : Value) : Bool × SymHeap :=
  if canDefine E heap s newValue then (false, heap.defineAs s newSymbolType newValue) else (true, heap)

/-- `ASM_DefineLabel` for a symbol, in the area `area`. `datum` says that there is data where the label
is. -/
def asmDefineLabel (area label : SymId) (offset : BitVec 32) (isMapping isLocalLabel datum : Bool) :
    SymHeap :=
  let type := (heap.sym area).area.type
  let symbolType :=
    (if !isMapping && isSet type areaAbs then symbolAbsolute else 0)
      ||| (if isSet type areaCode && datum then symbolDatum else 0)
      ||| (if isLocalLabel then symbolNoExport else 0)
  (symbolDefine E heap label symbolType (.symbol area 1 offset)).2

def withIntType (legal : ValueTag) (intType : IntType) : Value → Option Value
  | .int i type =>
    if legal = ValueTag.int then
      if type = .pureInt then some (.int i intType)
      else if type = intType then some (.int i type)
      else none
    else some (.int i type)
  | v => some v

/-- The value that `Define` gives a symbol: `some none` when there is an error. -/
def definition (legal : ValueTag) (intType : IntType) (program : Option (List Code)) :
    Option (Option Value) :=
  match exprBuildAndEval E heap turns legal program with
  | none => none
  | some .illegal => some none
  | some v => some (withIntType legal intType v)

def definedType : Value → BitVec 32
  | .int _ .pureInt => symbolConstant ||| symbolAbsolute
  | _ => symbolConstant ||| symbolAbsolute ||| symbolNoExport

/-- **`Define`** of `directive_symbol.c`, with its result. -/
def define (symP : Option SymId) (legal : ValueTag) (intType : IntType) (program : Option (List Code)) :
    Option (Bool × SymHeap) :=
  match symP with
  | none => some (true, heap)
  | some s =>
    match definition E heap turns legal intType program with
    | none => none
    | some none => some (true, heap)
    | some (some v) => some (symbolDefine E heap s (definedType v) v)

def c_equ (symP : Option SymId) (program : Option (List Code)) : Option SymHeap :=
  (define E heap turns symP ValueTag.all .pureInt program).map Prod.snd

def inRegisterRange (max : Int) : Value → Value
  | .int i type => if i.toInt < 0 ∨ max < i.toInt then .int 0 type else .int i type
  | v => v

def defineRegister (intType : IntType) (max : Int) (symP : Option SymId)
    (program : Option (List Code)) : Option SymHeap :=
  match define E heap turns symP ValueTag.int intType program, symP with
  | some (false, heap), some s =>
    some (heap.modify s fun sym => { sym with value := inRegisterRange max sym.value })
  | some (_, heap), _ => some heap
  | none, _ => none

def c_cn (symP : Option SymId) (program : Option (List Code)) : Option SymHeap :=
  defineRegister E heap turns .coProReg 15 symP program

def c_cp (symP : Option SymId) (program : Option (List Code)) : Option SymHeap :=
  defineRegister E heap turns .coProNum 15 symP program

def c_fn (symP : Option SymId) (program : Option (List Code)) : Option SymHeap :=
  defineRegister E heap turns .fpu 7 symP program

def c_rn (symP : Option SymId) (program : Option (List Code)) : Option SymHeap :=
  defineRegister E heap turns .cpu 15 symP program

/-- `c_rlist` with the registers of its list. -/
def c_rlist (symP : Option SymId) (registers : BitVec 32) : SymHeap :=
  match symP with
  | none => heap
  | some s =>
    (symbolDefine E heap s (symbolConstant ||| symbolAbsolute ||| symbolNoExport)
      (.int registers .cpuRList)).2

end Define

/-! ### Areas -/

/-- **The symbols with the area that is being assembled.** -/
structure SymState where
  heap : SymHeap
  /-- `areaCurrentSymbol`. -/
  areaCurrentSymbol : SymId

/-- What `AREA` makes of a symbol. -/
def Symbol.asArea (sym : Symbol) (attributes : BitVec 32) (pendingOrg : Option (BitVec 32)) : Symbol :=
  let attributes := if pendingOrg.isSome then attributes ||| areaAbs else attributes
  let sym :=
    if sym.isArea then sym
    else { sym with type := symbolArea, value := .int 0 .pureInt, area := { type := attributes } }
  let sym :=
    match pendingOrg with
    | some base => { sym with value := .int base .pureInt }
    | none => sym
  { sym with type := sym.type ||| (if isSet attributes areaAbs then symbolAbsolute else 0) }

/-- `c_area`, for a symbol, the attributes read and a base address of an `ORG` before it. -/
def c_area (st : SymState) (s : SymId) (attributes : BitVec 32) (pendingOrg : Option (BitVec 32)) :
    SymState :=
  if (st.heap.sym s).kind ≠ 0 then st
  else
    { heap := st.heap.modify s fun sym => sym.asArea attributes pendingOrg, areaCurrentSymbol := s }

/-- `c_org` for a base address, in an area that has a name: in another one the address waits for the next
`AREA`. -/
def c_org (st : SymState) (base : BitVec 32) : SymState :=
  if (st.heap.sym st.areaCurrentSymbol).area.curIdx ≠ 0 then st
  else
    { st with
      heap := st.heap.modify st.areaCurrentSymbol fun sym =>
        { sym with
          type := sym.type ||| symbolAbsolute
          value := .int base .pureInt
          area := { sym.area with type := sym.area.type ||| areaAbs } } }

/-! ### Definitions as references -/

theorem isSet_or (x y mask : BitVec 32) : isSet (x ||| y) mask = (isSet x mask || isSet y mask) := by
  have hzero : x &&& mask ||| y &&& mask = 0 ↔ x &&& mask = 0 ∧ y &&& mask = 0 := BitVec.or_eq_zero_iff
  unfold isSet
  rw [BitVec.and_or_distrib_right, Bool.eq_iff_iff]
  simp only [bne_iff_ne, Bool.or_eq_true, ne_eq, hzero]
  tauto

section References

variable {heap : SymHeap} {s : SymId} {v : Value} {type : BitVec 32}

theorem refersTo_of_undefined (h : (heap.sym s).isDefined = false) : heap.refersTo s = none := by
  rw [SymHeap.refersTo, h]
  rfl

theorem refersTo_modify (f : Symbol → Symbol)
    (hdef : (f (heap.sym s)).isDefined = (heap.sym s).isDefined)
    (hvalue : (f (heap.sym s)).isDefined = true →
      (f (heap.sym s)).value.symbol? = (heap.sym s).value.symbol?) :
    (heap.modify s f).refersTo = heap.refersTo := by
  ext1 a
  by_cases ha : a = s
  · subst ha
    unfold SymHeap.refersTo
    rw [SymHeap.modify_sym_self]
    by_cases h : (f (heap.sym a)).isDefined = true
    · rw [if_pos h, if_pos (hdef ▸ h), hvalue h]
    · rw [if_neg h, if_neg (hdef ▸ h)]
  · unfold SymHeap.refersTo
    rw [SymHeap.modify_sym_of_ne _ _ _ ha]

/-- **A definition** makes the symbol refer to that of the value. -/
theorem refersTo_defineAs :
    (heap.defineAs s type v).refersTo = Function.update heap.refersTo s v.symbol? := by
  ext1 a
  by_cases ha : a = s
  · subst ha
    rw [Function.update_self, SymHeap.refersTo, SymHeap.defineAs, SymHeap.modify_sym_self, if_pos]
    change isSet (_ ||| (type ||| symbolDefined)) symbolDefined = true
    rw [isSet_or, isSet_or]
    simp [isSet, symbolDefined]
  · rw [Function.update_of_ne ha, SymHeap.refersTo, SymHeap.defineAs, SymHeap.modify_sym_of_ne _ _ _ ha]
    rfl

end References

/-! ### Areas stay apart -/

/-- **The symbols of areas are not defined**, which is what `Symbol_Define` and `AREA` see to. -/
def AreasApart (heap : SymHeap) : Prop := ∀ s, (heap.sym s).isArea = true → (heap.sym s).isDefined = false

/-- The areas after a call: apart, and there are still those of before. -/
structure AreaSymsKept (heap heap' : SymHeap) : Prop where
  apart : AreasApart heap'
  kept : ∀ s, (heap.sym s).isArea = true → (heap'.sym s).isArea = true

section Areas

variable {E : Evaluator} {heap heap' : SymHeap} {s : SymId} {v : Value} {type : BitVec 32}

theorem AreaSymsKept.refl (h : AreasApart heap) : AreaSymsKept heap heap := ⟨h, fun _ hs => hs⟩

theorem areaSymsKept_modify (h : AreasApart heap) (f : Symbol → Symbol)
    (hapart : (f (heap.sym s)).isArea = true → (f (heap.sym s)).isDefined = false)
    (hkept : (heap.sym s).isArea = true → (f (heap.sym s)).isArea = true) :
    AreaSymsKept heap (heap.modify s f) := by
  refine ⟨fun a => ?_, fun a => ?_⟩
  · by_cases ha : a = s
    · subst ha
      rw [SymHeap.modify_sym_self]
      exact hapart
    · rw [SymHeap.modify_sym_of_ne _ _ _ ha]
      exact h a
  · by_cases ha : a = s
    · subst ha
      rw [SymHeap.modify_sym_self]
      exact hkept
    · rw [SymHeap.modify_sym_of_ne _ _ _ ha]
      exact id

/-- **`Symbol_Define`** changes nothing, or makes the symbol refer to that of the value. -/
theorem symbolDefine_effect (h : AreasApart heap) (s : SymId) (v : Value)
    (htype : isSet type symbolArea = false) :
    AreaSymsKept heap (symbolDefine E heap s type v).2
      ∧ (canDefine E heap s v = false ∧ (symbolDefine E heap s type v).2 = heap
        ∨ canDefine E heap s v = true ∧ (symbolDefine E heap s type v).2 = heap.defineAs s type v) := by
  rw [symbolDefine]
  cases hcan : canDefine E heap s v with
  | false => exact ⟨.refl h, Or.inl ⟨rfl, rfl⟩⟩
  | true =>
    refine ⟨?_, Or.inr ⟨rfl, rfl⟩⟩
    have harea : (heap.sym s).isArea = false := by
      rw [canDefine, Bool.and_eq_true] at hcan
      simpa using hcan.1
    change AreaSymsKept heap (heap.defineAs s type v)
    refine areaSymsKept_modify h _ (fun hset => ?_) (fun hset => ?_)
    · -- no flag that is added is that of an area
      change isSet ((heap.sym s).type ||| (type ||| symbolDefined)) symbolArea = true at hset
      rw [isSet_or, isSet_or, htype] at hset
      change ((heap.sym s).isArea || (false || false)) = true at hset
      rw [harea] at hset
      cases hset
    · rw [harea] at hset
      cases hset

end Areas

/-! ### Runs -/

inductive SymCall
  | label (s : SymId) (offset : BitVec 32) (isMapping isLocalLabel datum : Bool)
  | equ (symP : Option SymId) (program : Option (List Code))
  | cn (symP : Option SymId) (program : Option (List Code))
  | cp (symP : Option SymId) (program : Option (List Code))
  | fn (symP : Option SymId) (program : Option (List Code))
  | rn (symP : Option SymId) (program : Option (List Code))
  | rlist (symP : Option SymId) (registers : BitVec 32)
  | area (s : SymId) (attributes : BitVec 32) (pendingOrg : Option (BitVec 32))
  | org (base : BitVec 32)

/-- **One call**; none when an evaluation does not end. -/
def perform (E : Evaluator) (turns : Nat) (st : SymState) : SymCall → Option SymState
  | .label s offset isMapping isLocalLabel datum =>
    some { st with
      heap := asmDefineLabel E st.heap st.areaCurrentSymbol s offset isMapping isLocalLabel datum }
  | .equ symP program => (c_equ E st.heap turns symP program).map fun heap => { st with heap := heap }
  | .cn symP program => (c_cn E st.heap turns symP program).map fun heap => { st with heap := heap }
  | .cp symP program => (c_cp E st.heap turns symP program).map fun heap => { st with heap := heap }
  | .fn symP program => (c_fn E st.heap turns symP program).map fun heap => { st with heap := heap }
  | .rn symP program => (c_rn E st.heap turns symP program).map fun heap => { st with heap := heap }
  | .rlist symP registers => some { st with heap := c_rlist E st.heap symP registers }
  | .area s attributes pendingOrg => some (c_area st s attributes pendingOrg)
  | .org base => some (c_org st base)

/-- **No circle is closed**: a value that an `EQU` gives a symbol is no multiple of a symbol whose
definitions lead back to it. -/
def NoCircle (E : Evaluator) (turns : Nat) (st : SymState) : SymCall → Prop
  | .equ (some s) program => ∀ v t,
      definition E st.heap turns ValueTag.all .pureInt program = some (some v) →
      v.symbol? = some t → canDefine E st.heap s v = true → ¬ Reaches st.heap.refersTo t s
  | _ => True

/-- Before the first line: an area, and no symbol defined. -/
structure SymState.Fresh (st : SymState) : Prop where
  undefined : ∀ s, (st.heap.sym s).isDefined = false
  current : (st.heap.sym st.areaCurrentSymbol).isArea = true

/-- **The states reached** by calls that close no circle. Operators and comparison may be other ones in
every call. -/
inductive SymRun : SymState → Prop
  | start {st : SymState} (h : st.Fresh) : SymRun st
  | call {st st' : SymState} (E : Evaluator) (turns : Nat) (c : SymCall) (h : SymRun st)
    (hfree : NoCircle E turns st c) (hst : perform E turns st c = some st') : SymRun st'

/-! ### What a call does -/

/-- The references after a call that makes one symbol refer to another one, or to none. -/
def refersAfter (heap : SymHeap) : Option (SymId × Option SymId) → SymId → Option SymId
  | none => heap.refersTo
  | some (s, r) => Function.update heap.refersTo s r

def StaysFree (heap : SymHeap) (change : Option (SymId × Option SymId)) : Prop :=
  ∀ s t, change = some (s, some t) → ¬ Reaches heap.refersTo t s

theorem ends_refersAfter_iff {heap : SymHeap} (h : heap.Acyclic) (change : Option (SymId × Option SymId)) :
    (∀ s, Ends (refersAfter heap change) s) ↔ StaysFree heap change := by
  obtain _ | ⟨s, _ | t⟩ := change
  · exact iff_of_true h nofun
  · exact iff_of_true (fun a => ends_update_none h s a) nofun
  · refine (ends_update_iff h s t).trans ⟨fun hfree s' t' heq => ?_, fun hfree => hfree s t rfl⟩
    cases heq
    exact hfree

/-- What a call does to the areas and the references. -/
structure Effect (heap heap' : SymHeap) (change : Option (SymId × Option SymId)) : Prop where
  areas : AreaSymsKept heap heap'
  refers : heap'.refersTo = refersAfter heap change

section Effects

variable {E : Evaluator} {heap heap' : SymHeap} {turns : Nat} {s : SymId} {v : Value}
  {type : BitVec 32} {legal : ValueTag} {intType : IntType} {program : Option (List Code)}

theorem Effect.refl (h : AreasApart heap) : Effect heap heap none := ⟨.refl h, rfl⟩

theorem effect_of_symbolDefine (h : AreasApart heap) (s : SymId) (v : Value)
    (htype : isSet type symbolArea = false) :
    (canDefine E heap s v = false ∧ Effect heap (symbolDefine E heap s type v).2 none)
      ∨ (canDefine E heap s v = true
        ∧ Effect heap (symbolDefine E heap s type v).2 (some (s, v.symbol?))) := by
  obtain ⟨hareas, ⟨hcan, heq⟩ | ⟨hcan, heq⟩⟩ := symbolDefine_effect (E := E) h s v htype
  · refine Or.inl ⟨hcan, hareas, ?_⟩
    rw [heq]
    rfl
  · refine Or.inr ⟨hcan, hareas, ?_⟩
    rw [heq]
    exact refersTo_defineAs

theorem effect_of_no_symbol (h : AreasApart heap) (s : SymId) (hv : v.symbol? = none)
    (htype : isSet type symbolArea = false) :
    ∃ change, Effect heap (symbolDefine E heap s type v).2 change ∧ StaysFree heap change := by
  obtain ⟨-, heffect⟩ | ⟨-, heffect⟩ := effect_of_symbolDefine (E := E) h s v htype
  · exact ⟨none, heffect, nofun⟩
  · rw [hv] at heffect
    exact ⟨_, heffect, nofun⟩

theorem effect_asmDefineLabel (h : AreasApart heap) {area : SymId}
    (harea : (heap.sym area).isArea = true) (label : SymId) (offset : BitVec 32)
    (isMapping isLocalLabel datum : Bool) :
    ∃ change, Effect heap (asmDefineLabel E heap area label offset isMapping isLocalLabel datum) change
      ∧ StaysFree heap change := by
  have htype : isSet
      ((if !isMapping && isSet (heap.sym area).area.type areaAbs then symbolAbsolute else 0)
        ||| (if isSet (heap.sym area).area.type areaCode && datum then symbolDatum else 0)
        ||| (if isLocalLabel then symbolNoExport else 0)) symbolArea = false := by
    rw [isSet_or, isSet_or]
    split <;> split <;> split <;> rfl
  obtain ⟨-, heffect⟩ | ⟨hcan, heffect⟩ :=
    effect_of_symbolDefine (E := E) h label (.symbol area 1 offset) htype
  · exact ⟨none, heffect, nofun⟩
  · refine ⟨_, heffect, fun s t heq hback => ?_⟩
    cases heq
    -- the area leads nowhere, and the label is no area
    obtain heq | ⟨b, hb, -⟩ := Relation.ReflTransGen.cases_head hback
    · rw [canDefine, ← heq, harea] at hcan
      cases hcan
    · rw [Option.mem_def, refersTo_of_undefined (h area harea)] at hb
      cases hb

theorem definedType_no_area (v : Value) : isSet (definedType v) symbolArea = false := by
  unfold definedType
  split <;> rfl

theorem symbol?_of_withIntType {v' : Value} (h : withIntType legal intType v = some v') :
    v'.symbol? = v.symbol? := by
  cases v with
  | int i type =>
    rw [withIntType] at h
    split at h
    · split at h
      · cases h
        rfl
      · split at h
        · cases h
          rfl
        · cases h
    · cases h
      rfl
  | _ =>
    cases h
    rfl

theorem symbol?_legalResult (v : Value) : (legalResult E ValueTag.int v).symbol? = none := by
  unfold legalResult
  generalize convertedResult E ValueTag.int v = w
  split
  · rfl
  · next htag =>
    cases w with
    | symbol s factor offset => exact (htag (by change ValueTag.symbol &&& ValueTag.int = 0; decide)).elim
    | _ => rfl

theorem symbol?_of_definition {v : Value}
    (h : definition E heap turns ValueTag.int intType program = some (some v)) : v.symbol? = none := by
  -- every result of `Code_Eval` has gone through the last test
  have hresult : ∀ w, exprBuildAndEval E heap turns ValueTag.int program = some w → w.symbol? = none := by
    intro w hw
    cases program with
    | none =>
      cases hw
      rfl
    | some program =>
      rw [exprBuildAndEval, codeEval] at hw
      split at hw
      · cases hw
        exact symbol?_legalResult _
      · cases hw
        exact symbol?_legalResult _
      · cases hw
  unfold definition at h
  split at h
  · cases h
  · cases h
  · next w _ hw =>
    rw [symbol?_of_withIntType (Option.some.inj h)]
    exact hresult w hw

/-- **`Define`** defines the symbol to be the value, if there is one. -/
theorem define_cases {symP : Option SymId} {failed : Bool}
    (h : define E heap turns symP legal intType program = some (failed, heap')) :
    (heap' = heap
        ∧ ∀ s v, symP = some s → definition E heap turns legal intType program ≠ some (some v))
      ∨ ∃ s v, symP = some s ∧ definition E heap turns legal intType program = some (some v)
        ∧ heap' = (symbolDefine E heap s (definedType v) v).2 := by
  unfold define at h
  split at h
  · cases h
    exact Or.inl ⟨rfl, nofun⟩
  · next s =>
    split at h
    · cases h
    · next hnone =>
      cases h
      refine Or.inl ⟨rfl, fun _ v _ hv => ?_⟩
      rw [hnone] at hv
      cases hv
    · next v hv =>
      exact Or.inr ⟨s, v, rfl, hv, (congrArg Prod.snd (Option.some.inj h)).symm⟩

theorem Effect.inRange {change : Option (SymId × Option SymId)} (h : Effect heap heap' change)
    (s : SymId) (max : Int) :
    Effect heap (heap'.modify s fun sym => { sym with value := inRegisterRange max sym.value }) change := by
  have hvalue : ∀ v, (inRegisterRange max v).symbol? = v.symbol? := by
    intro v
    cases v with
    | int i type =>
      rw [inRegisterRange]
      split <;> rfl
    | _ => rfl
  obtain ⟨hapart, hkept⟩ := areaSymsKept_modify h.areas.apart (s := s)
    (fun sym => { sym with value := inRegisterRange max sym.value }) (h.areas.apart s) id
  refine ⟨⟨hapart, fun a ha => hkept a (h.areas.kept a ha)⟩, ?_⟩
  rw [← h.refers]
  exact refersTo_modify _ rfl fun _ => hvalue _

theorem effect_defineRegister (h : AreasApart heap) {max : Int} {symP : Option SymId}
    (hrun : defineRegister E heap turns intType max symP program = some heap') :
    ∃ change, Effect heap heap' change ∧ StaysFree heap change := by
  have hdefine : ∀ {failed heap'},
      define E heap turns symP ValueTag.int intType program = some (failed, heap') →
        ∃ change, Effect heap heap' change ∧ StaysFree heap change := by
    intro failed heap' hdef
    obtain ⟨rfl, -⟩ | ⟨s, v, -, hv, rfl⟩ := define_cases hdef
    · exact ⟨none, .refl h, nofun⟩
    · exact effect_of_no_symbol h s (symbol?_of_definition hv) (definedType_no_area v)
  unfold defineRegister at hrun
  split at hrun
  · next hdef =>
    cases hrun
    obtain ⟨change, heffect, hfree⟩ := hdefine hdef
    exact ⟨change, heffect.inRange _ max, hfree⟩
  · next hdef =>
    cases hrun
    exact hdefine hdef
  · cases hrun

/-- **An `EQU`** refers to the symbol of its value, if it is accepted. -/
theorem effect_c_equ (h : AreasApart heap) {symP : Option SymId}
    (hrun : c_equ E heap turns symP program = some heap') :
    (Effect heap heap' none ∧ ∀ s v, symP = some s →
        definition E heap turns ValueTag.all .pureInt program = some (some v) →
        canDefine E heap s v = false)
      ∨ ∃ s v, symP = some s ∧ definition E heap turns ValueTag.all .pureInt program = some (some v)
        ∧ canDefine E heap s v = true ∧ Effect heap heap' (some (s, v.symbol?)) := by
  obtain ⟨⟨failed, heap₁⟩, hdef, rfl⟩ := Option.map_eq_some_iff.mp hrun
  obtain ⟨rfl, hnone⟩ | ⟨s, v, rfl, hv, rfl⟩ := define_cases hdef
  · exact Or.inl ⟨.refl h, fun s v hs hv => absurd hv (hnone s v hs)⟩
  · obtain ⟨hcan, heffect⟩ | ⟨hcan, heffect⟩ :=
      effect_of_symbolDefine (E := E) h s v (definedType_no_area v)
    · refine Or.inl ⟨heffect, fun s' v' hs' hv' => ?_⟩
      rw [hv] at hv'
      cases hs'
      cases hv'
      exact hcan
    · exact Or.inr ⟨s, v, rfl, hv, hcan, heffect⟩

end Effects

theorem isDefined_of_kind {sym : Symbol} (h : sym.kind = 0) : sym.isDefined = false := by
  have hbit : sym.type &&& symbolDefined = sym.kind &&& symbolDefined := by
    rw [Symbol.kind, symbolKind, BitVec.and_assoc]
    rfl
  rw [Symbol.isDefined, isSet, hbit, h]
  rfl

theorem asArea_type (sym : Symbol) (attributes : BitVec 32) (pendingOrg : Option (BitVec 32)) :
    ∃ absolute, isSet absolute symbolArea = false ∧ isSet absolute symbolDefined = false
      ∧ (sym.asArea attributes pendingOrg).type
        = (if sym.isArea then sym.type else symbolArea) ||| absolute := by
  generalize hset : isSet (if pendingOrg.isSome then attributes ||| areaAbs else attributes) areaAbs
    = set
  refine ⟨if set then symbolAbsolute else 0, ?_, ?_, ?_⟩
  · cases set <;> rfl
  · cases set <;> rfl
  · cases pendingOrg with
    | none =>
      unfold Symbol.asArea
      by_cases h : sym.isArea = true
      · simp only [if_pos h, hset]
      · simp only [if_neg h, hset]
    | some base =>
      unfold Symbol.asArea
      by_cases h : sym.isArea = true
      · simp only [if_pos h, hset]
      · simp only [if_neg h, hset]

theorem asArea_isArea {sym : Symbol} (h : sym.kind = 0) (attributes : BitVec 32)
    (pendingOrg : Option (BitVec 32)) :
    (sym.asArea attributes pendingOrg).isArea = true
      ∧ (sym.asArea attributes pendingOrg).isDefined = false := by
  obtain ⟨absolute, harea, hdef, htype⟩ := asArea_type sym attributes pendingOrg
  rw [Symbol.isArea, Symbol.isDefined, htype, isSet_or, isSet_or, harea, hdef, Bool.or_false,
    Bool.or_false]
  by_cases hset : sym.isArea = true
  · rw [if_pos hset]
    exact ⟨hset, isDefined_of_kind h⟩
  · rw [if_neg hset]
    exact ⟨rfl, rfl⟩

theorem effect_c_area {st : SymState} (h : AreasApart st.heap)
    (hcurrent : (st.heap.sym st.areaCurrentSymbol).isArea = true) (s : SymId) (attributes : BitVec 32)
    (pendingOrg : Option (BitVec 32)) :
    Effect st.heap (c_area st s attributes pendingOrg).heap none
      ∧ ((c_area st s attributes pendingOrg).heap.sym
        (c_area st s attributes pendingOrg).areaCurrentSymbol).isArea = true := by
  unfold c_area
  split
  · exact ⟨.refl h, hcurrent⟩
  next hkind =>
    rw [not_ne_iff] at hkind
    obtain ⟨harea, hdef⟩ := asArea_isArea hkind attributes pendingOrg
    have hkept : AreaSymsKept st.heap (st.heap.modify s fun sym => sym.asArea attributes pendingOrg) :=
      areaSymsKept_modify h (fun sym => sym.asArea attributes pendingOrg) (fun _ => hdef) fun _ => harea
    have hrefers : (st.heap.modify s fun sym => sym.asArea attributes pendingOrg).refersTo
        = st.heap.refersTo := by
      refine refersTo_modify (fun sym => sym.asArea attributes pendingOrg)
        (hdef.trans (isDefined_of_kind hkind).symm) fun hset => ?_
      rw [hdef] at hset
      cases hset
    have hself := SymHeap.modify_sym_self st.heap s fun sym => sym.asArea attributes pendingOrg
    exact ⟨⟨hkept, hrefers⟩, (congrArg Symbol.isArea hself).trans harea⟩

theorem effect_c_org {st : SymState} (h : AreasApart st.heap)
    (hcurrent : (st.heap.sym st.areaCurrentSymbol).isArea = true) (base : BitVec 32) :
    Effect st.heap (c_org st base).heap none
      ∧ ((c_org st base).heap.sym (c_org st base).areaCurrentSymbol).isArea = true := by
  have hflag : ∀ mask, isSet symbolAbsolute mask = false →
      isSet ((st.heap.sym st.areaCurrentSymbol).type ||| symbolAbsolute) mask
        = isSet (st.heap.sym st.areaCurrentSymbol).type mask := by
    intro mask hmask
    rw [isSet_or, hmask, Bool.or_false]
  have hdef := h _ hcurrent
  have harea' := (hflag symbolArea rfl).trans hcurrent
  have hdef' := (hflag symbolDefined rfl).trans hdef
  let placed := fun sym : Symbol =>
    { sym with
      type := sym.type ||| symbolAbsolute
      value := .int base .pureInt
      area := { sym.area with type := sym.area.type ||| areaAbs } }
  have hkept : AreaSymsKept st.heap (st.heap.modify st.areaCurrentSymbol placed) :=
    areaSymsKept_modify h placed (fun _ => hdef') fun _ => harea'
  have hrefers : (st.heap.modify st.areaCurrentSymbol placed).refersTo = st.heap.refersTo := by
    refine refersTo_modify placed (hdef'.trans hdef.symm) fun hset => ?_
    rw [show (placed (st.heap.sym st.areaCurrentSymbol)).isDefined = false from hdef'] at hset
    cases hset
  unfold c_org
  split
  · exact ⟨.refl h, hcurrent⟩
  · exact ⟨⟨hkept, hrefers⟩, hkept.kept _ hcurrent⟩

/-! ### Runs end all resolutions -/

/-- **The invariant.** -/
structure SymState.Sound (st : SymState) : Prop where
  acyclic : st.heap.Acyclic
  apart : AreasApart st.heap
  current : (st.heap.sym st.areaCurrentSymbol).isArea = true

theorem SymState.Fresh.sound {st : SymState} (h : st.Fresh) : st.Sound :=
  ⟨fun s => .stop (refersTo_of_undefined (h.undefined s)), fun s _ => h.undefined s, h.current⟩

/-- **What one call does**: it changes one reference at most, and closes a circle just if `NoCircle`
fails. -/
theorem perform_effect {E : Evaluator} {turns : Nat} {st st' : SymState} {c : SymCall}
    (h : AreasApart st.heap) (hcurrent : (st.heap.sym st.areaCurrentSymbol).isArea = true)
    (hst : perform E turns st c = some st') :
    ∃ change, Effect st.heap st'.heap change
      ∧ (st'.heap.sym st'.areaCurrentSymbol).isArea = true
      ∧ (StaysFree st.heap change ↔ NoCircle E turns st c) := by
  -- calls that never close a circle and leave the current area
  have hfree : ∀ {heap'}, NoCircle E turns st c →
      (∃ change, Effect st.heap heap' change ∧ StaysFree st.heap change) →
      ∃ change, Effect st.heap heap' change
        ∧ (heap'.sym st.areaCurrentSymbol).isArea = true
        ∧ (StaysFree st.heap change ↔ NoCircle E turns st c) := by
    rintro heap' hcircle ⟨change, heffect, hstays⟩
    exact ⟨change, heffect, heffect.areas.kept _ hcurrent, iff_of_true hstays hcircle⟩
  have hregister : ∀ {intType max symP program} {heap' : SymHeap}, NoCircle E turns st c →
      defineRegister E st.heap turns intType max symP program = some heap' →
      ∃ change, Effect st.heap heap' change
        ∧ (heap'.sym st.areaCurrentSymbol).isArea = true
        ∧ (StaysFree st.heap change ↔ NoCircle E turns st c) :=
    fun hcircle hrun => hfree hcircle (effect_defineRegister h hrun)
  cases c with
  | label s offset isMapping isLocalLabel datum =>
    cases hst
    exact hfree trivial (effect_asmDefineLabel h hcurrent s offset isMapping isLocalLabel datum)
  | equ symP program =>
    obtain ⟨heap', hrun, rfl⟩ := Option.map_eq_some_iff.mp hst
    obtain ⟨heffect, hrefused⟩ | ⟨s, v, rfl, hv, hcan, heffect⟩ := effect_c_equ h hrun
    · refine ⟨none, heffect, heffect.areas.kept _ hcurrent, iff_of_true nofun ?_⟩
      cases symP with
      | none => trivial
      | some s =>
        intro v t hv _ hcan
        rw [hrefused s v rfl hv] at hcan
        cases hcan
    · refine ⟨_, heffect, heffect.areas.kept _ hcurrent, ⟨fun hstays v' t hv' ht _ => ?_, ?_⟩⟩
      · rw [hv] at hv'
        cases hv'
        exact hstays s t (by rw [ht])
      · intro hcircle s' t heq
        obtain ⟨rfl, ht⟩ := Prod.mk.inj (Option.some.inj heq)
        exact hcircle v t hv ht hcan
  | cn symP program =>
    obtain ⟨heap', hrun, rfl⟩ := Option.map_eq_some_iff.mp hst
    exact hregister trivial hrun
  | cp symP program =>
    obtain ⟨heap', hrun, rfl⟩ := Option.map_eq_some_iff.mp hst
    exact hregister trivial hrun
  | fn symP program =>
    obtain ⟨heap', hrun, rfl⟩ := Option.map_eq_some_iff.mp hst
    exact hregister trivial hrun
  | rn symP program =>
    obtain ⟨heap', hrun, rfl⟩ := Option.map_eq_some_iff.mp hst
    exact hregister trivial hrun
  | rlist symP registers =>
    cases hst
    cases symP with
    | none => exact hfree trivial ⟨none, .refl h, nofun⟩
    | some s => exact hfree trivial (effect_of_no_symbol h s rfl rfl)
  | area s attributes pendingOrg =>
    cases hst
    obtain ⟨heffect, hcurrent'⟩ := effect_c_area h hcurrent s attributes pendingOrg
    exact ⟨none, heffect, hcurrent', iff_of_true nofun trivial⟩
  | org base =>
    cases hst
    obtain ⟨heffect, hcurrent'⟩ := effect_c_org h hcurrent base
    exact ⟨none, heffect, hcurrent', iff_of_true nofun trivial⟩

theorem SymState.Sound.perform {E : Evaluator} {turns : Nat} {st st' : SymState} {c : SymCall}
    (h : st.Sound) (hfree : NoCircle E turns st c) (hst : perform E turns st c = some st') :
    st'.Sound := by
  obtain ⟨change, heffect, hcurrent, hiff⟩ := perform_effect h.apart h.current hst
  refine ⟨?_, heffect.areas.apart, hcurrent⟩
  rw [SymHeap.Acyclic, heffect.refers]
  exact (ends_refersAfter_iff h.acyclic change).mpr (hiff.mpr hfree)

theorem SymRun.sound {st : SymState} (h : SymRun st) : st.Sound := by
  induction h with
  | start hfresh => exact hfresh.sound
  | call E turns c _ hfree hst ih => exact ih.perform hfree hst

def plainEvaluator : Evaluator :=
  ⟨zeroOps, fun _ _ _ => .illegal, fun _ _ _ _ => .illegal, fun _ _ _ => false⟩

/-- The start, with an area and the names `a` and `b`. -/
def startState : SymState :=
  ⟨.ofList [{ str := implicitAreaName, type := symbolArea, value := .int 0 .pureInt },
    { str := cstr "a" }, { str := cstr "b" }], 0⟩

theorem startState_fresh : startState.Fresh := by
  refine ⟨fun s => ?_, rfl⟩
  match s with
  | 0 => rfl
  | 1 => rfl
  | 2 => rfl
  | s + 3 =>
    have hfresh : startState.heap.sym (s + 3) = {} := by simp [startState, SymHeap.ofList]
    rw [hfresh]
    rfl

end Asasm
