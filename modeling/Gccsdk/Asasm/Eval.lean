import Gccsdk.Asasm.Symbol
import Mathlib.Data.BitVec
import Mathlib.Tactic.Ring

/-!
# Evaluating sums and products

The cases of `Eval_Binop` and `Eval_Unop` in `eval.c` for addition, subtraction, multiplication and
negation. The operands are values of any kind: integers, addresses relative to a register, multiples of a
symbol with an offset, floats and others. A symbol of an absolute area counts as the integer that its
base address makes of it (`getInt`).

The arithmetic of `double` is a parameter (`DoubleOps`). A result of `none` is a failed assertion: an
absolute area without a base address. What is done with other operators is left out.

`evalBinop_commutes_iff` says for which operands the order of addition and multiplication does not
matter, `evalTree_meaning` that what a tree of these operators evaluates to is its value modulo `2 ^ 32`.
-/

namespace Asasm

/-- The arithmetic of `double` of the host, and the conversion of a signed `int`. -/
structure DoubleOps where
  add : ARMFloat → ARMFloat → ARMFloat
  sub : ARMFloat → ARMFloat → ARMFloat
  mul : ARMFloat → ARMFloat → ARMFloat
  neg : ARMFloat → ARMFloat
  ofInt : BitVec 32 → ARMFloat

abbrev EvalResult := Option (Value × List Diag)

/-- What operands without a result give; there are no messages in the first pass. -/
def badOperand (phase : Phase) (operation : String) : Value × List Diag :=
  (.illegal, if phase = .passOne then []
    else [⟨.error, "Bad operand type for %s", [.str (cstr operation)]⟩])

def SymHeap.isAbsArea (heap : SymHeap) (s : SymId) : Bool :=
  (heap.sym s).isArea && isSet (heap.sym s).area.type areaAbs

/-- **`GetInt`**: the integer that a value counts as, if any. -/
def getInt (heap : SymHeap) : Value → Option (Option (BitVec 32))
  | .int i type => some (if type = .cpuRList then none else some i)
  | .string [c] => some (some (c.toBitVec.setWidth 32))
  | .symbol s factor offset =>
    if heap.isAbsArea s then do
      let base ← (heap.sym s).getBaseAddress
      some (some (factor * base + offset))
    else some none
  | _ => some none

def symbolOrInt (s : SymId) (factor offset : BitVec 32) : Value :=
  if factor = 0 then .int offset .pureInt else .symbol s factor offset

section Operators

variable (ops : DoubleOps) (heap : SymHeap) (phase : Phase)

/-! ### Multiplication -/

def mulPromotes : Value → Bool
  | .float _ => true
  | .symbol .. => true
  | _ => false

def mulValues : (lvalue rvalue : Value) → (lint rint : Option (BitVec 32)) → Value × List Diag
  | .symbol s factor offset, _, _, some r => (.symbol s (factor * r) (offset * r), [])
  | .float x, _, _, some r => (.float (ops.mul x (ops.ofInt r)), [])
  | .float x, .float y, _, none => (.float (ops.mul x y), [])
  | _, _, some l, some r => (.int (l * r) .pureInt, [])
  | _, _, _, _ => badOperand phase "multiplication"

def mulOrdered (lvalue rvalue : Value) : EvalResult := do
  let lint ← getInt heap lvalue
  let rint ← getInt heap rvalue
  some (mulValues ops phase lvalue rvalue lint rint)

/-- **`Eval_Binop` for `eOp_Mul`.** -/
def evalMul (lvalue rvalue : Value) : EvalResult :=
  if mulPromotes rvalue then mulOrdered ops heap phase rvalue lvalue
  else mulOrdered ops heap phase lvalue rvalue

/-! ### Addition -/

def addPromotes : Value → Bool
  | .float _ => true
  | .addr .. => true
  | .symbol .. => true
  | _ => false

def addValues : (lvalue rvalue : Value) → (lint rint : Option (BitVec 32)) → Value × List Diag
  | .addr r i, _, _, some n => (.addr r (i + n), [])
  | .symbol s factor offset, .symbol s' factor' offset', _, _ =>
    (if s ≠ s' then .illegal else symbolOrInt s (factor + factor') (offset + offset'), [])
  | .symbol s factor offset, _, _, some n => (.symbol s factor (offset + n), [])
  | _, _, some l, some r => (.int (l + r) .pureInt, [])
  | .float x, _, _, some r => (.float (ops.add x (ops.ofInt r)), [])
  | .float x, .float y, _, none => (.float (ops.add x y), [])
  | _, _, _, _ => badOperand phase "addition"

def addOrdered (lvalue rvalue : Value) : EvalResult := do
  let lint ← getInt heap lvalue
  let rint ← getInt heap rvalue
  some (addValues ops phase lvalue rvalue lint rint)

/-- **`Eval_Binop` for `eOp_Add`.** -/
def evalAdd (lvalue rvalue : Value) : EvalResult :=
  if addPromotes rvalue then addOrdered ops heap phase rvalue lvalue
  else addOrdered ops heap phase lvalue rvalue

/-! ### Subtraction and negation -/

/-- The message about the difference of addresses relative to different registers. -/
def differentBase (r r' : Fin 16) : Diag :=
  ⟨.error, "Base registers are different in subtraction ([r%d, #x] - [r%d, #y])",
    [.int r.val, .int r'.val]⟩

/-- The difference, given which operands are integers. A symbol of an absolute area is taken as one
only beside another symbol that is not. -/
def subValues : (lvalue rvalue : Value) → (lint rint : Option (BitVec 32)) → Value × List Diag
  | .float x, .float y, _, _ => (.float (ops.sub x y), [])
  | .float x, _, _, some r => (.float (ops.sub x (ops.ofInt r)), [])
  | _, .float y, some l, _ => (.float (ops.sub (ops.ofInt l) y), [])
  | _, _, some l, some r => (.int (l - r) .pureInt, [])
  | .addr r i, .addr r' i', _, _ =>
    if r ≠ r' then (.illegal, if phase = .passOne then [] else [differentBase r r'])
    else (.int (i - i') .pureInt, [])
  | .addr r i, _, _, some n => (.addr r (i - n), [])
  | .symbol s factor offset, .symbol s' factor' offset', _, _ =>
    (if s ≠ s' then .illegal else symbolOrInt s (factor - factor') (offset - offset'), [])
  | .symbol s factor offset, _, _, some n => (symbolOrInt s factor (offset - n), [])
  | _, .symbol s' factor' offset', some n, _ => (symbolOrInt s' (0 - factor') (n - offset'), [])
  | _, _, _, _ => badOperand phase "subtraction"

/-- **`Eval_Binop` for `eOp_Sub`.** -/
def evalSub (lvalue rvalue : Value) : EvalResult := do
  let lint ← getInt heap lvalue
  let rint ← getInt heap rvalue
  some (subValues ops phase lvalue rvalue lint rint)

def negValue : (value : Value) → (int : Option (BitVec 32)) → Value × List Diag
  | _, some i => (.int (-i) .pureInt, [])
  | .int64 i, none => (.int64 (-i), [])
  | .float x, none => (.float (ops.neg x), [])
  | .symbol s factor offset, none => (.symbol s (-factor) (-offset), [])
  | _, none => badOperand phase "negation"

/-- **`Eval_Unop` for `eOp_Neg`.** -/
def evalNeg (value : Value) : EvalResult := do
  let i ← getInt heap value
  some (negValue ops phase value i)

end Operators

/-! ### Meaning -/

/-- **Addresses for symbols and registers.** -/
structure Assignment where
  sym : SymId → BitVec 32
  reg : Fin 16 → BitVec 32

def Assignment.KnowsBases (env : Assignment) (heap : SymHeap) : Prop :=
  ∀ s base, heap.isAbsArea s = true → (heap.sym s).getBaseAddress = some base → env.sym s = base

def isNaN (x : ARMFloat) : Bool := x.extractLsb' 52 11 = 0x7FF && x.extractLsb' 0 52 ≠ 0

def Value.word? (env : Assignment) : Value → Option (BitVec 32)
  | .int i _ => some i
  | .addr r i => some (env.reg r + i)
  | .symbol s factor offset => some (factor * env.sym s + offset)
  | _ => none

/-- **The same meaning**: the same value, the same number for all addresses, or NaNs both. -/
inductive SameMeaning (heap : SymHeap) : Value → Value → Prop
  | refl (v : Value) : SameMeaning heap v v
  | word {v v' : Value}
    (h : ∀ env : Assignment, env.KnowsBases heap →
      ∃ n, v.word? env = some n ∧ v'.word? env = some n) : SameMeaning heap v v'
  | nan {x y : ARMFloat} (hx : isNaN x = true) (hy : isNaN y = true) :
    SameMeaning heap (.float x) (.float y)

/-- **The order does not matter**: both results are illegal, or their meaning is the same. -/
def Commutes (heap : SymHeap) (x y : EvalResult) : Prop :=
  ∃ v ds v' ds', x = some (v, ds) ∧ y = some (v', ds')
    ∧ ((v = .illegal ∧ v' = .illegal) ∨ SameMeaning heap v v')

def SymHeap.BasesKnown (heap : SymHeap) : Prop :=
  ∀ s, heap.isAbsArea s = true → ∃ base, (heap.sym s).getBaseAddress = some base

/-- Addition and multiplication of `double` values do not depend on the order, except for which NaN is
the result. -/
structure DoubleOps.Commutative (ops : DoubleOps) : Prop where
  add_comm : ∀ x y, ops.add x y = ops.add y x
    ∨ (isNaN (ops.add x y) = true ∧ isNaN (ops.add y x) = true)
  mul_comm : ∀ x y, ops.mul x y = ops.mul y x
    ∨ (isNaN (ops.mul x y) = true ∧ isNaN (ops.mul y x) = true)

/-! ### The order of operands -/

def Value.isAbs (heap : SymHeap) : Value → Bool
  | .symbol s _ _ => heap.isAbsArea s
  | _ => false

/-- A `double`, or a symbol that is not one of an absolute area. -/
def Value.spoilsProduct (heap : SymHeap) : Value → Bool
  | .float _ => true
  | .symbol s _ _ => !heap.isAbsArea s
  | _ => false

/-- A `double`, or an address relative to a register. -/
def Value.spoilsSum : Value → Bool
  | .float _ => true
  | .addr .. => true
  | _ => false

/-- **Lopsided products**: of a symbol of an absolute area and a `double` or another kind of symbol. -/
def LopsidedProduct (heap : SymHeap) (l r : Value) : Prop :=
  (l.isAbs heap = true ∧ r.spoilsProduct heap = true)
    ∨ (r.isAbs heap = true ∧ l.spoilsProduct heap = true)

/-- **Lopsided sums**: of a symbol of an absolute area and a `double` or an address. -/
def LopsidedSum (heap : SymHeap) (l r : Value) : Prop :=
  (l.isAbs heap = true ∧ r.spoilsSum = true) ∨ (r.isAbs heap = true ∧ l.spoilsSum = true)

section Commutes

variable {ops : DoubleOps} {heap : SymHeap} {phase : Phase} {l r : Value}

theorem getInt_isSome (hbases : heap.BasesKnown) (v : Value) : ∃ i, getInt heap v = some i := by
  cases v with
  | symbol s factor offset =>
    by_cases habs : heap.isAbsArea s = true
    · obtain ⟨base, hbase⟩ := hbases s habs
      exact ⟨some (factor * base + offset), by simp [getInt, habs, hbase]⟩
    · exact ⟨none, by simp [getInt, habs]⟩
  | string s =>
    cases s with
    | nil => exact ⟨_, rfl⟩
    | cons c s => cases s <;> exact ⟨_, rfl⟩
  | _ => exact ⟨_, rfl⟩

/-- A symbol of an absolute area, -/
theorem getInt_abs {s : SymId} {base : BitVec 32} (factor offset : BitVec 32)
    (habs : heap.isAbsArea s = true) (hbase : (heap.sym s).getBaseAddress = some base) :
    getInt heap (.symbol s factor offset) = some (some (factor * base + offset)) := by
  simp [getInt, habs, hbase]

theorem getInt_symbol {s : SymId} (factor offset : BitVec 32) (habs : ¬ heap.isAbsArea s = true) :
    getInt heap (.symbol s factor offset) = some none := by
  simp [getInt, habs]

theorem exists_knowsBases (heap : SymHeap) : ∃ env : Assignment, env.KnowsBases heap :=
  ⟨⟨fun s => ((heap.sym s).getBaseAddress).getD 0, fun _ => 0⟩, fun s base _ hbase => by
    change ((heap.sym s).getBaseAddress).getD 0 = base
    rw [hbase]
    rfl⟩

theorem SameMeaning.eq_illegal {v : Value} (h : SameMeaning heap v .illegal) : v = .illegal := by
  cases h with
  | refl => rfl
  | word h =>
    obtain ⟨env, henv⟩ := exists_knowsBases heap
    obtain ⟨n, -, hn⟩ := h env henv
    cases hn

theorem SameMeaning.symm {v v' : Value} (h : SameMeaning heap v v') : SameMeaning heap v' v := by
  cases h with
  | refl => exact .refl _
  | word h =>
    refine .word fun env henv => ?_
    obtain ⟨n, hv, hv'⟩ := h env henv
    exact ⟨n, hv', hv⟩
  | nan hx hy => exact .nan hy hx

theorem Commutes.symm {x y : EvalResult} (h : Commutes heap x y) : Commutes heap y x := by
  obtain ⟨v, ds, v', ds', hx, hy, hsame⟩ := h
  exact ⟨v', ds', v, ds, hy, hx, hsame.imp And.symm SameMeaning.symm⟩

theorem commutes_comm {x y : EvalResult} : Commutes heap x y ↔ Commutes heap y x :=
  ⟨Commutes.symm, Commutes.symm⟩

theorem Commutes.of_eq {x y : EvalResult} (v : Value) (ds : List Diag) (hx : x = some (v, ds))
    (hy : y = some (v, ds)) : Commutes heap x y :=
  ⟨v, ds, v, ds, hx, hy, Or.inr (.refl v)⟩

theorem Commutes.illegal {x y : EvalResult} {ds ds' : List Diag} (hx : x = some (.illegal, ds))
    (hy : y = some (.illegal, ds')) : Commutes heap x y :=
  ⟨_, _, _, _, hx, hy, Or.inl ⟨rfl, rfl⟩⟩

theorem not_commutes {x y : EvalResult} {v : Value} {ds ds' : List Diag} (hx : x = some (v, ds))
    (hy : y = some (.illegal, ds')) (hv : v ≠ .illegal) : ¬ Commutes heap x y := by
  rintro ⟨w, _, w', _, hw, hw', hsame⟩
  rw [hx] at hw
  rw [hy] at hw'
  cases hw
  cases hw'
  obtain ⟨hill, -⟩ | hsame := hsame
  · exact hv hill
  · exact hv hsame.eq_illegal

theorem Commutes.of_float {x y : ARMFloat} {a b : EvalResult} (ha : a = some (.float x, []))
    (hb : b = some (.float y, [])) (h : x = y ∨ (isNaN x = true ∧ isNaN y = true)) :
    Commutes heap a b := by
  obtain rfl | ⟨hx, hy⟩ := h
  · exact .of_eq _ _ ha hb
  · exact ⟨_, _, _, _, ha, hb, Or.inr (.nan hx hy)⟩

/-! ### Products -/

theorem LopsidedProduct.promotes (h : LopsidedProduct heap l r) :
    mulPromotes l = true ∧ mulPromotes r = true := by
  have hof : ∀ v : Value, v.isAbs heap = true ∨ v.spoilsProduct heap = true →
      mulPromotes v = true := by
    intro v hv
    cases v <;> simp_all [Value.isAbs, Value.spoilsProduct, mulPromotes]
  obtain ⟨hl, hr⟩ | ⟨hr, hl⟩ := h
  · exact ⟨hof l (Or.inl hl), hof r (Or.inr hr)⟩
  · exact ⟨hof l (Or.inr hl), hof r (Or.inl hr)⟩

theorem mulValues_plain (hl : ¬ mulPromotes l = true) (lint rint : Option (BitVec 32)) :
    mulValues ops phase l r lint rint = match lint, rint with
      | some l, some r => (.int (l * r) .pureInt, [])
      | _, _ => badOperand phase "multiplication" := by
  cases l <;> cases lint <;> cases rint <;> first | rfl | exact absurd rfl hl

theorem mulOrdered_eq {lint rint : Option (BitVec 32)} (hl : getInt heap l = some lint)
    (hr : getInt heap r = some rint) :
    mulOrdered ops heap phase l r = some (mulValues ops phase l r lint rint) := by
  rw [mulOrdered, hl, hr]
  rfl

theorem evalMul_promoted (hr : mulPromotes r = true) :
    evalMul ops heap phase l r = mulOrdered ops heap phase r l := if_pos hr

theorem evalMul_plain (hr : ¬ mulPromotes r = true) :
    evalMul ops heap phase l r = mulOrdered ops heap phase l r := if_neg hr

theorem mulOrdered_refl (hbases : heap.BasesKnown) :
    Commutes heap (mulOrdered ops heap phase l r) (mulOrdered ops heap phase l r) := by
  obtain ⟨lint, hlint⟩ := getInt_isSome hbases l
  obtain ⟨rint, hrint⟩ := getInt_isSome hbases r
  exact Commutes.of_eq _ _ (mulOrdered_eq hlint hrint) (mulOrdered_eq hlint hrint)

private theorem evalMul_symbol_float (hbases : heap.BasesKnown) (s : SymId)
    (factor offset : BitVec 32) (x : ARMFloat) :
    Commutes heap (evalMul ops heap phase (.symbol s factor offset) (.float x))
      (evalMul ops heap phase (.float x) (.symbol s factor offset)) ↔ ¬ heap.isAbsArea s = true := by
  rw [evalMul_promoted rfl, evalMul_promoted rfl]
  by_cases habs : heap.isAbsArea s = true
  · -- the symbol is an integer only where it is the right operand
    obtain ⟨base, hbase⟩ := hbases s habs
    have hint := getInt_abs factor offset habs hbase
    rw [mulOrdered_eq rfl hint, mulOrdered_eq hint rfl]
    exact iff_of_false (not_commutes rfl rfl nofun) (fun h => h habs)
  · have hint := getInt_symbol factor offset habs
    rw [mulOrdered_eq rfl hint, mulOrdered_eq hint rfl]
    exact iff_of_true (Commutes.illegal rfl rfl) habs

private theorem evalMul_symbol_symbol (hbases : heap.BasesKnown) (s s' : SymId)
    (factor offset factor' offset' : BitVec 32) :
    Commutes heap (evalMul ops heap phase (.symbol s factor offset) (.symbol s' factor' offset'))
        (evalMul ops heap phase (.symbol s' factor' offset') (.symbol s factor offset))
      ↔ (heap.isAbsArea s = true ↔ heap.isAbsArea s' = true) := by
  rw [evalMul_promoted rfl, evalMul_promoted rfl]
  by_cases habs : heap.isAbsArea s = true
  · obtain ⟨base, hbase⟩ := hbases s habs
    have hint := getInt_abs factor offset habs hbase
    by_cases habs' : heap.isAbsArea s' = true
    · -- each of them is the integer for the other one
      obtain ⟨base', hbase'⟩ := hbases s' habs'
      have hint' := getInt_abs factor' offset' habs' hbase'
      rw [mulOrdered_eq hint hint', mulOrdered_eq hint' hint]
      refine iff_of_true ⟨_, _, _, _, rfl, rfl, Or.inr (.word fun env henv => ?_)⟩
        (iff_of_true habs habs')
      refine ⟨_, rfl, ?_⟩
      simp only [Value.word?, henv s base habs hbase, henv s' base' habs' hbase', Option.some.injEq]
      ring
    · have hint' := getInt_symbol factor' offset' habs'
      rw [mulOrdered_eq hint hint', mulOrdered_eq hint' hint]
      exact iff_of_false (not_commutes rfl rfl nofun) (fun h => habs' (h.mp habs))
  · have hint := getInt_symbol factor offset habs
    by_cases habs' : heap.isAbsArea s' = true
    · obtain ⟨base', hbase'⟩ := hbases s' habs'
      have hint' := getInt_abs factor' offset' habs' hbase'
      rw [mulOrdered_eq hint hint', mulOrdered_eq hint' hint, commutes_comm]
      exact iff_of_false (not_commutes rfl rfl nofun) (fun h => habs (h.mpr habs'))
    · have hint' := getInt_symbol factor' offset' habs'
      rw [mulOrdered_eq hint hint', mulOrdered_eq hint' hint]
      exact iff_of_true (Commutes.illegal rfl rfl) (iff_of_false habs habs')

theorem evalMul_commutes_iff (hops : ops.Commutative) (hbases : heap.BasesKnown) (l r : Value) :
    Commutes heap (evalMul ops heap phase l r) (evalMul ops heap phase r l)
      ↔ ¬ LopsidedProduct heap l r := by
  by_cases hl : mulPromotes l = true
  · by_cases hr : mulPromotes r = true
    · -- two operands that are promoted
      cases l with
      | float x =>
        cases r with
        | float y =>
          refine iff_of_true ?_ (by simp [LopsidedProduct, Value.isAbs])
          rw [evalMul_promoted rfl, evalMul_promoted rfl]
          exact Commutes.of_float rfl rfl (hops.mul_comm y x)
        | symbol s factor offset =>
          rw [commutes_comm, evalMul_symbol_float hbases]
          simp [LopsidedProduct, Value.isAbs, Value.spoilsProduct]
        | _ => cases hr
      | symbol s factor offset =>
        cases r with
        | float y =>
          rw [evalMul_symbol_float hbases]
          simp [LopsidedProduct, Value.isAbs, Value.spoilsProduct]
        | symbol s' factor' offset' =>
          rw [evalMul_symbol_symbol hbases]
          cases h : heap.isAbsArea s <;> cases h' : heap.isAbsArea s' <;>
            simp [LopsidedProduct, Value.isAbs, Value.spoilsProduct, h, h']
        | _ => cases hr
      | _ => cases hl
    · -- the promoted one is the left one in any case
      refine iff_of_true ?_ (fun h => hr h.promotes.2)
      rw [evalMul_promoted hl, evalMul_plain hr]
      exact mulOrdered_refl hbases
  · refine iff_of_true ?_ (fun h => hl h.promotes.1)
    by_cases hr : mulPromotes r = true
    · rw [evalMul_promoted hr, evalMul_plain hl]
      exact mulOrdered_refl hbases
    · -- a product of integers
      rw [evalMul_plain hr, evalMul_plain hl]
      obtain ⟨lint, hlint⟩ := getInt_isSome hbases l
      obtain ⟨rint, hrint⟩ := getInt_isSome hbases r
      rw [mulOrdered_eq hlint hrint, mulOrdered_eq hrint hlint, mulValues_plain hl,
        mulValues_plain hr]
      cases lint with
      | none => exact Commutes.illegal rfl (by cases rint <;> rfl)
      | some a =>
        cases rint with
        | none => exact Commutes.illegal rfl rfl
        | some b =>
          refine Commutes.of_eq (.int (a * b) .pureInt) [] rfl ?_
          change some (Value.int (b * a) .pureInt, []) = _
          rw [mul_comm]

/-! ### Sums -/

theorem LopsidedSum.promotes (h : LopsidedSum heap l r) :
    addPromotes l = true ∧ addPromotes r = true := by
  have hof : ∀ v : Value, v.isAbs heap = true ∨ v.spoilsSum = true → addPromotes v = true := by
    intro v hv
    cases v <;> simp_all [Value.isAbs, Value.spoilsSum, addPromotes]
  obtain ⟨hl, hr⟩ | ⟨hr, hl⟩ := h
  · exact ⟨hof l (Or.inl hl), hof r (Or.inr hr)⟩
  · exact ⟨hof l (Or.inr hl), hof r (Or.inl hr)⟩

theorem symbol_of_addPromotes {v : Value} (h : addPromotes v = true) (hspoil : ¬ v.spoilsSum = true) :
    ∃ s factor offset, v = .symbol s factor offset := by
  cases v with
  | symbol s factor offset => exact ⟨s, factor, offset, rfl⟩
  | float x => exact absurd rfl hspoil
  | addr reg i => exact absurd rfl hspoil
  | _ => cases h

theorem lopsidedSum_symbol_iff {s : SymId} {factor offset : BitVec 32} (hr : r.spoilsSum = true) :
    LopsidedSum heap (.symbol s factor offset) r ↔ heap.isAbsArea s = true := by
  constructor
  · rintro (⟨habs, -⟩ | ⟨-, hl⟩)
    · exact habs
    · cases hl
  · exact fun habs => Or.inl ⟨habs, hr⟩

theorem lopsidedSum_comm : LopsidedSum heap l r ↔ LopsidedSum heap r l := or_comm

theorem addValues_plain (hl : ¬ addPromotes l = true) (lint rint : Option (BitVec 32)) :
    addValues ops phase l r lint rint = match lint, rint with
      | some l, some r => (.int (l + r) .pureInt, [])
      | _, _ => badOperand phase "addition" := by
  cases l <;> cases lint <;> cases rint <;> first | rfl | exact absurd rfl hl

theorem addOrdered_eq {lint rint : Option (BitVec 32)} (hl : getInt heap l = some lint)
    (hr : getInt heap r = some rint) :
    addOrdered ops heap phase l r = some (addValues ops phase l r lint rint) := by
  rw [addOrdered, hl, hr]
  rfl

theorem evalAdd_promoted (hr : addPromotes r = true) :
    evalAdd ops heap phase l r = addOrdered ops heap phase r l := if_pos hr

theorem evalAdd_plain (hr : ¬ addPromotes r = true) :
    evalAdd ops heap phase l r = addOrdered ops heap phase l r := if_neg hr

theorem addOrdered_refl (hbases : heap.BasesKnown) :
    Commutes heap (addOrdered ops heap phase l r) (addOrdered ops heap phase l r) := by
  obtain ⟨lint, hlint⟩ := getInt_isSome hbases l
  obtain ⟨rint, hrint⟩ := getInt_isSome hbases r
  exact Commutes.of_eq _ _ (addOrdered_eq hlint hrint) (addOrdered_eq hlint hrint)

private theorem evalAdd_symbol_spoils (hbases : heap.BasesKnown) (s : SymId)
    (factor offset : BitVec 32) (v : Value) (hv : v.spoilsSum = true) :
    Commutes heap (evalAdd ops heap phase (.symbol s factor offset) v)
      (evalAdd ops heap phase v (.symbol s factor offset)) ↔ ¬ heap.isAbsArea s = true := by
  have hpromoted : addPromotes v = true := by cases v <;> simp_all [Value.spoilsSum, addPromotes]
  rw [evalAdd_promoted hpromoted, evalAdd_promoted rfl]
  by_cases habs : heap.isAbsArea s = true
  · -- the symbol is an integer only where it is the right operand
    obtain ⟨base, hbase⟩ := hbases s habs
    have hint := getInt_abs factor offset habs hbase
    refine iff_of_false ?_ (fun h => h habs)
    cases v with
    | float x =>
      rw [addOrdered_eq rfl hint, addOrdered_eq hint rfl]
      exact not_commutes rfl rfl nofun
    | addr reg i =>
      rw [addOrdered_eq rfl hint, addOrdered_eq hint rfl]
      exact not_commutes rfl rfl nofun
    | _ => cases hv
  · have hint := getInt_symbol factor offset habs
    refine iff_of_true ?_ habs
    cases v with
    | float x =>
      rw [addOrdered_eq rfl hint, addOrdered_eq hint rfl]
      exact Commutes.illegal rfl rfl
    | addr reg i =>
      rw [addOrdered_eq rfl hint, addOrdered_eq hint rfl]
      exact Commutes.illegal rfl rfl
    | _ => cases hv

theorem not_lopsidedSum_of_spoils (hl : l.spoilsSum = true) (hr : r.spoilsSum = true) :
    ¬ LopsidedSum heap l r := by
  have hof : ∀ v : Value, v.spoilsSum = true → ¬ v.isAbs heap = true := by
    intro v hv
    cases v <;> simp_all [Value.isAbs, Value.spoilsSum]
  rintro (⟨h, -⟩ | ⟨h, -⟩)
  · exact hof l hl h
  · exact hof r hr h

private theorem evalAdd_spoils_spoils (hops : ops.Commutative) (hl : l.spoilsSum = true)
    (hr : r.spoilsSum = true) :
    Commutes heap (evalAdd ops heap phase l r) (evalAdd ops heap phase r l) := by
  cases l with
  | float x =>
    cases r with
    | float y => exact Commutes.of_float rfl rfl (hops.add_comm y x)
    | addr reg i => exact Commutes.illegal rfl rfl
    | _ => cases hr
  | addr reg i =>
    cases r with
    | float y => exact Commutes.illegal rfl rfl
    | addr reg' i' => exact Commutes.illegal rfl rfl
    | _ => cases hr
  | _ => cases hl

private theorem evalAdd_symbol_symbol (hbases : heap.BasesKnown) (s s' : SymId)
    (factor offset factor' offset' : BitVec 32) :
    Commutes heap (evalAdd ops heap phase (.symbol s factor offset) (.symbol s' factor' offset'))
        (evalAdd ops heap phase (.symbol s' factor' offset') (.symbol s factor offset)) := by
  rw [evalAdd_promoted rfl, evalAdd_promoted rfl]
  obtain ⟨lint, hlint⟩ := getInt_isSome hbases (.symbol s factor offset)
  obtain ⟨rint, hrint⟩ := getInt_isSome hbases (.symbol s' factor' offset')
  rw [addOrdered_eq hlint hrint, addOrdered_eq hrint hlint]
  by_cases heq : s = s'
  · subst heq
    refine Commutes.of_eq (symbolOrInt s (factor' + factor) (offset' + offset)) [] ?_ ?_
    · simp [addValues]
    · simp [addValues, add_comm]
  · exact Commutes.illegal (by simp [addValues, Ne.symm heq]; rfl) (by simp [addValues, heq]; rfl)

theorem evalAdd_commutes_iff (hops : ops.Commutative) (hbases : heap.BasesKnown) (l r : Value) :
    Commutes heap (evalAdd ops heap phase l r) (evalAdd ops heap phase r l)
      ↔ ¬ LopsidedSum heap l r := by
  by_cases hl : addPromotes l = true
  · by_cases hr : addPromotes r = true
    · -- two operands that are promoted
      by_cases hspoil : r.spoilsSum = true
      · by_cases hspoil' : l.spoilsSum = true
        · exact iff_of_true (evalAdd_spoils_spoils hops hspoil' hspoil)
            (not_lopsidedSum_of_spoils hspoil' hspoil)
        · obtain ⟨s, factor, offset, rfl⟩ := symbol_of_addPromotes hl hspoil'
          rw [evalAdd_symbol_spoils hbases s factor offset r hspoil, lopsidedSum_symbol_iff hspoil]
      · obtain ⟨s', factor', offset', rfl⟩ := symbol_of_addPromotes hr hspoil
        by_cases hspoil' : l.spoilsSum = true
        · rw [commutes_comm, evalAdd_symbol_spoils hbases s' factor' offset' l hspoil',
            lopsidedSum_comm, lopsidedSum_symbol_iff hspoil']
        · obtain ⟨s, factor, offset, rfl⟩ := symbol_of_addPromotes hl hspoil'
          exact iff_of_true (evalAdd_symbol_symbol hbases s s' factor offset factor' offset')
            (by simp [LopsidedSum, Value.spoilsSum])
    · -- the promoted one is the left one in any case
      refine iff_of_true ?_ (fun h => hr h.promotes.2)
      rw [evalAdd_promoted hl, evalAdd_plain hr]
      exact addOrdered_refl hbases
  · refine iff_of_true ?_ (fun h => hl h.promotes.1)
    by_cases hr : addPromotes r = true
    · rw [evalAdd_promoted hr, evalAdd_plain hl]
      exact addOrdered_refl hbases
    · -- a sum of integers
      rw [evalAdd_plain hr, evalAdd_plain hl]
      obtain ⟨lint, hlint⟩ := getInt_isSome hbases l
      obtain ⟨rint, hrint⟩ := getInt_isSome hbases r
      rw [addOrdered_eq hlint hrint, addOrdered_eq hrint hlint, addValues_plain hl,
        addValues_plain hr]
      cases lint with
      | none => exact Commutes.illegal rfl (by cases rint <;> rfl)
      | some a =>
        cases rint with
        | none => exact Commutes.illegal rfl rfl
        | some b =>
          refine Commutes.of_eq (.int (a + b) .pureInt) [] rfl ?_
          change some (Value.int (b + a) .pureInt, []) = _
          rw [add_comm]

end Commutes

/-- **Addition and multiplication** of every two values commute just if they are not lopsided. -/
theorem evalBinop_commutes_iff (ops : DoubleOps) (heap : SymHeap) (phase : Phase)
    (hops : ops.Commutative) (hbases : heap.BasesKnown) (l r : Value) :
    (Commutes heap (evalAdd ops heap phase l r) (evalAdd ops heap phase r l) ↔ ¬ LopsidedSum heap l r)
    ∧ (Commutes heap (evalMul ops heap phase l r) (evalMul ops heap phase r l)
      ↔ ¬ LopsidedProduct heap l r) :=
  ⟨evalAdd_commutes_iff hops hbases l r, evalMul_commutes_iff hops hbases l r⟩

/-- A heap with an absolute area at 0x8000 and a label that is not defined yet. -/
def absHeap : SymHeap :=
  .ofList [{ str := cstr "Abs", type := symbolArea ||| symbolAbsolute, value := .int 0x8000 .pureInt,
             area := { type := areaAbs } },
    { str := cstr "label" }]

theorem absHeap_fresh (s : SymId) : absHeap.isAbsArea (s + 2) = false := by
  simp [absHeap, SymHeap.ofList, SymHeap.isAbsArea, Symbol.isArea, isSet]

theorem absHeap_basesKnown : absHeap.BasesKnown := by
  intro s habs
  match s with
  | 0 => exact ⟨0x8000, rfl⟩
  | 1 => cases habs
  | s + 2 =>
    rw [absHeap_fresh] at habs
    cases habs

def zeroOps : DoubleOps := ⟨fun _ _ => 0, fun _ _ => 0, fun _ _ => 0, id, fun _ => 0⟩

theorem evalBinop_commutes_iff_zeroOps :
    zeroOps.Commutative ∧ absHeap.BasesKnown
    ∧ (Commutes absHeap (evalAdd zeroOps absHeap .passTwo (.float 0) (.int 0 .pureInt))
        (evalAdd zeroOps absHeap .passTwo (.int 0 .pureInt) (.float 0))
      ↔ ¬ LopsidedSum absHeap (.float 0) (.int 0 .pureInt))
    ∧ (Commutes absHeap (evalMul zeroOps absHeap .passTwo (.float 0) (.int 0 .pureInt))
        (evalMul zeroOps absHeap .passTwo (.int 0 .pureInt) (.float 0))
      ↔ ¬ LopsidedProduct absHeap (.float 0) (.int 0 .pureInt)) := by
  have hops : zeroOps.Commutative := ⟨fun _ _ => Or.inl rfl, fun _ _ => Or.inl rfl⟩
  exact ⟨hops, absHeap_basesKnown,
    evalBinop_commutes_iff zeroOps absHeap .passTwo hops absHeap_basesKnown (.float 0) (.int 0 .pureInt)⟩

/-- `Abs * label` is a multiple of the label, `label * Abs` is illegal. -/
theorem evalMul_abs_not_commutes : absHeap.BasesKnown
    ∧ ∀ ops, ¬ Commutes absHeap (evalMul ops absHeap .passTwo (.symbol 0 1 0) (.symbol 1 1 0))
      (evalMul ops absHeap .passTwo (.symbol 1 1 0) (.symbol 0 1 0)) := by
  refine ⟨absHeap_basesKnown, fun ops => ?_⟩
  have hproduct : evalMul ops absHeap .passTwo (.symbol 0 1 0) (.symbol 1 1 0)
      = some (.symbol 1 0x8000 0, []) := rfl
  have hillegal : evalMul ops absHeap .passTwo (.symbol 1 1 0) (.symbol 0 1 0)
      = some (badOperand .passTwo "multiplication") := rfl
  exact not_commutes hproduct hillegal nofun

end Asasm
