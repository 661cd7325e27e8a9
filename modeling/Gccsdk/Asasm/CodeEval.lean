import Gccsdk.Asasm.EvalTree
import Gccsdk.Asasm.ExprBuild
import Gccsdk.Asasm.SymbolRuns

/-!
# From tokens to a value

`Expr_Build` leaves the postfix traversal of an expression, and `Code_Eval` runs it on a stack. Together
they evaluate the tree of the expression from the leaves on (`exprBuild_codeEval`): what the machine does
with the program of a tree, whatever follows it, is `codeEvalLowest_postorder`. The operand of `eOp_Size`
is not resolved: the machine looks at the next element, the tree knows the operator above.

With the operators of `eval.c`, an expression of sums, differences, products and negations stands for the
number that arithmetic makes of its operands (`exprBuild_word`).
-/

namespace Asasm

open PrecGrammar

/-! ### Trees of values -/

/-- The tree of an expression, with the values of its operands. -/
abbrev ValueTree := Tree Value Operator Binop

def operandValue (env : ExprEnv) (table : SymbolTable) (a : Operand) : Value :=
  match (operandCode env table a.1).2 with
  | .value v => v
  | .operator _ => .illegal

/-- **The values of the operands**, and the table with the names that are new in it. -/
def valueTree (env : ExprEnv) : SymbolTable → ExprTree → SymbolTable × ValueTree
  | table, .operand a => ((operandCode env table a.1).1, .operand (operandValue env table a))
  | table, .unary u t => ((valueTree env table t).1, .unary u (valueTree env table t).2)
  | table, .binary b x y =>
    ((valueTree env (valueTree env table x).1 y).1,
      .binary b (valueTree env table x).2 (valueTree env (valueTree env table x).1 y).2)
  | table, .paren t => ((valueTree env table t).1, .paren (valueTree env table t).2)

def postfixCode : Item Value Operator Binop → Code
  | .operand v => .value v
  | .unary op => .operator op
  | .binary b => .operator b.1

def ValueTree.program (t : ValueTree) : List Code := t.postorder.map postfixCode

/-- The prefix operators are such. -/
def ValueTree.Unops : ValueTree → Prop
  | .operand _ => True
  | .unary u t => u.isUnop = true ∧ Unops t
  | .binary _ x y => Unops x ∧ Unops y
  | .paren t => Unops t

section Program

variable {env : ExprEnv} {table : SymbolTable}

theorem itemsCode_append (is js : List (Item Operand Operator Binop)) :
    itemsCode env table (is ++ js) = ((itemsCode env (itemsCode env table is).1 js).1,
      (itemsCode env table is).2 ++ (itemsCode env (itemsCode env table is).1 js).2) := by
  induction is generalizing table with
  | nil => rfl
  | cons i is ih =>
    rw [List.cons_append, itemsCode]
    dsimp only
    rw [ih]
    rfl

theorem itemsCode_postorder (t : ExprTree) : itemsCode env table t.postorder
    = ((valueTree env table t).1, ValueTree.program (valueTree env table t).2) := by
  induction t generalizing table with
  | operand a =>
    obtain ⟨lex, h⟩ := a
    cases lex <;> rfl
  | unary u t ih =>
    rw [Tree.postorder, itemsCode_append, ih, valueTree, ValueTree.program, ValueTree.program,
      Tree.postorder.eq_2, List.map_append]
    rfl
  | binary b x y ihx ihy =>
    rw [Tree.postorder, itemsCode_append, itemsCode_append, ihx, ihy, valueTree, ValueTree.program,
      ValueTree.program, ValueTree.program, Tree.postorder.eq_3, List.map_append, List.map_append]
    rfl
  | paren t ih => exact ih

theorem valueTree_unops {l : ℕ} {t : ExprTree} {ts : List ExprToken} (h : Parses exprGrammar l t ts) :
    (valueTree env table t).2.Unops := by
  induction h generalizing table with
  | operand h => trivial
  | @unary tok u t ts h ht ih =>
    refine ⟨?_, ih⟩
    cases tok <;> cases h <;> first | rfl | assumption
  | paren hl hr ht ih => exact ih
  | up hl hle ht ih => exact ih
  | binary h hx hy ihx ihy => exact ⟨ihx, ihy⟩

/-- A program begins with an operand. -/
theorem sizeIsNext_program (t : ValueTree) (program : List Code) :
    sizeIsNext (t.program ++ program) = false := by
  induction t generalizing program with
  | operand v => rfl
  | unary u t ih =>
    rw [ValueTree.program, Tree.postorder, List.map_append, List.append_assoc]
    exact ih _
  | binary b x y ihx ihy =>
    rw [ValueTree.program, Tree.postorder, List.map_append, List.append_assoc]
    exact ihx _
  | paren t ih => exact ih program

end Program

/-! ### Evaluation -/

/-- **What evaluation comes to**: none as for `codeEvalLowest`, and `some none` when it failed. -/
abbrev Tried := Option (Option Value)

def Tried.elim {β : Type} (r : Tried) (failed : β) (k : Value → Option β) : Option β :=
  match r with
  | none => none
  | some none => some failed
  | some (some v) => k v

theorem Tried.elim_elim {β : Type} (r : Tried) (f : Value → Tried) (failed : β) (k : Value → Option β) :
    Tried.elim (r.elim none f) failed k = r.elim failed fun v => (f v).elim failed k := by
  rcases r with _ | _ | v <;> rfl

def legalOnly : Value → Tried
  | .illegal => some none
  | v => some (some v)

section Evaluation

variable (E : Evaluator) (heap : SymHeap) (turns : Nat)

def resolvedOperand (resolveAbsArea : Bool) (v : Value) : Tried :=
  match resolveSymbol E.ops heap resolveAbsArea turns v with
  | some (.done false v) => some (some v)
  | some (.done true _) => some none
  | _ => none

/-- **The value of a tree.** An operand that is taken as it is (`raw`) is not resolved. -/
def treeValue (resolveAbsArea : Bool) (raw : Bool) : ValueTree → Tried
  | .operand v => if raw then some (some v) else resolvedOperand E heap turns resolveAbsArea v
  | .unary u t =>
    (treeValue resolveAbsArea (decide (u = .size)) t).elim none fun a => legalOnly (E.unop heap u a)
  | .binary b x y =>
    (treeValue resolveAbsArea false x).elim none fun a =>
      (treeValue resolveAbsArea false y).elim none fun c => legalOnly (E.binop heap b.1 a c)
  | .paren t => treeValue resolveAbsArea raw t

variable {E heap turns} {resolveAbsArea : Bool}

/-- **The program of a tree leaves its value** on the stack, whatever follows it. -/
theorem codeEvalLowest_postorder {t : ValueTree} (ht : t.Unops) (program : List Code) (stack : List Value) :
    codeEvalLowest E heap turns resolveAbsArea (t.program ++ program) stack
      = (treeValue E heap turns resolveAbsArea (sizeIsNext program) t).elim .failed fun v =>
          codeEvalLowest E heap turns resolveAbsArea program (v :: stack) := by
  induction t generalizing program stack with
  | operand v =>
    change codeEvalLowest E heap turns resolveAbsArea (.value v :: program) stack = _
    rw [codeEvalLowest, treeValue]
    by_cases hraw : sizeIsNext program = true
    · rw [if_pos hraw, if_pos hraw]
      rfl
    · rw [if_neg hraw, if_neg hraw, resolvedOperand]
      generalize resolveSymbol E.ops heap resolveAbsArea turns v = r
      match r with
      | none => rfl
      | some .aborted => rfl
      | some (.done false v) => rfl
      | some (.done true v) => rfl
  | unary u t ih =>
    have hsize : sizeIsNext (.operator u :: program) = decide (u = .size) := by
      cases u <;> rfl
    rw [ValueTree.program, Tree.postorder, List.map_append, List.append_assoc]
    refine (ih ht.2 (.operator u :: program) stack).trans ?_
    rw [treeValue, Tried.elim_elim, hsize]
    congr 1
    funext a
    rw [codeEvalLowest, if_pos ht.1]
    cases E.unop heap u a <;> rfl
  | binary b x y ihx ihy =>
    rw [ValueTree.program, Tree.postorder, List.map_append, List.append_assoc, List.map_append,
      List.append_assoc]
    have hrun := ihx ht.1 (ValueTree.program y ++ (.operator b.1 :: program)) stack
    rw [sizeIsNext_program] at hrun
    refine hrun.trans ?_
    rw [treeValue, Tried.elim_elim]
    congr 1
    funext a
    have hsize : sizeIsNext (.operator b.1 :: program) = false := by
      obtain ⟨op, hop⟩ := b
      cases op <;> first | rfl | cases hop
    refine (ihy ht.2 (.operator b.1 :: program) (a :: stack)).trans ?_
    rw [Tried.elim_elim, hsize]
    congr 1
    funext c
    rw [codeEvalLowest, if_neg (Bool.eq_false_iff.mp b.2)]
    dsimp only
    cases E.binop heap b.1 a c <;> rfl
  | paren t ih => exact ih ht program stack

/-- Whether the symbols of areas are to be resolved. -/
def resolvesAreas (legal : ValueTag) : Bool :=
  decide (legal &&& (ValueTag.int ||| ValueTag.symbol) = ValueTag.int)

/-- **`Code_Eval` of the program of a tree**: its value, else the program itself where that is allowed. -/
theorem codeEval_program {t : ValueTree} (ht : t.Unops) (legal : ValueTag) :
    codeEval E heap turns legal t.program
      = (treeValue E heap turns (resolvesAreas legal) false t).map
          fun r => legalResult E legal
            (r.getD (if legal &&& ValueTag.code ≠ 0 then .code t.program else .illegal)) := by
  have hne : t.program.isEmpty = false := by
    have hpos := t.postorder_length_pos
    rw [← List.length_map (f := postfixCode)] at hpos
    exact List.isEmpty_eq_false_iff.mpr (List.ne_nil_of_length_pos hpos)
  have hrun : codeEvalLowest E heap turns (resolvesAreas legal) (t.program ++ []) [] = _ :=
    codeEvalLowest_postorder ht [] []
  rw [List.append_nil] at hrun
  unfold codeEval
  dsimp only
  rw [hne, if_neg Bool.false_ne_true, show codeEvalLowest E heap turns (decide _) _ _ = _ from hrun,
    show sizeIsNext [] = false from rfl]
  match treeValue E heap turns (resolvesAreas legal) false t with
  | none => rfl
  | some none => rfl
  | some (some v) => rfl

end Evaluation

/-- The operators of arithmetic, on numbers and in `eval.c`. -/
def Operator.arith : Operator → Option (BitVec 32 → BitVec 32 → BitVec 32)
  | .add => some (· + ·)
  | .sub => some (· - ·)
  | .mul => some (· * ·)
  | _ => none

def evalArith (ops : DoubleOps) (heap : SymHeap) (phase : Phase) : Operator → Value → Value → EvalResult
  | .add => evalAdd ops heap phase
  | .sub => evalSub ops heap phase
  | .mul => evalMul ops heap phase
  | _ => fun _ _ => none

private theorem isOperand_one : Lex.isOperand (.int 1) = true := rfl

/-- `-1` -/
def minusOne : List ExprToken := [.minus, .operand (.int 1) isOperand_one]

theorem minusOne_expression : ExpressionAt (.unary .neg (.operand ⟨.int 1, rfl⟩)) minusOne [] :=
  ⟨_, (List.append_nil _).symm,
    Parses.of_le (.unary rfl (.operand rfl)) (by decide) (by decide) (by decide), nofun⟩

/-- Arithmetic in the first pass, and no other operators. -/
def arithmeticOnly : Evaluator where
  ops := zeroOps
  unop heap op v := if op = .neg then (evalNeg zeroOps heap .passOne v).legal.getD .illegal else .illegal
  binop heap op l r := (evalArith zeroOps heap .passOne op l r).legal.getD .illegal
  equal _ _ _ := false

/-- **From tokens to a value.** Where an expression is at the front of the tokens, and its program fits,
`Expr_Build` reads it, and what `Code_Eval` makes of the program is the value of its tree. A tree without
a value gives the program itself, or an illegal value where programs are not allowed. -/
theorem exprBuild_codeEval (env : ExprEnv) (E : Evaluator) (heap : SymHeap) (turns : ℕ) (legal : ValueTag)
    {ts rest : List ExprToken} {t : ExprTree} (table : SymbolTable) (code : CodeState)
    (ht : ExpressionAt t ts rest) (hfits : t.postorder.length ≤ codeSizeCode) :
    ∃ code', Gives (exprBuild tokenLexer env · ts table code)
        (.ok ⟨rest, (valueTree env table t).1, code'⟩ .none)
      ∧ codeEval E heap turns legal code'.code
        = (treeValue E heap turns (resolvesAreas legal) false
            (valueTree env table t).2).map
          fun r => legalResult E legal
            (r.getD (if legal &&& ValueTag.code ≠ 0 then .code code'.code else .illegal)) := by
  obtain ⟨code', hgives, hcode⟩ := exprBuild_of_expressionAt env table code ht hfits
  rw [itemsCode_postorder] at hgives hcode
  obtain ⟨p, -, hparse, -⟩ := ht
  refine ⟨code', hgives, ?_⟩
  rw [hcode]
  exact codeEval_program (valueTree_unops hparse) legal

theorem exprBuild_codeEval_minusOne : ∃ code',
    Gives (exprBuild tokenLexer emptyEnv · minusOne default emptyCode) (.ok ⟨[], default, code'⟩ .none)
      ∧ codeEval arithmeticOnly absHeap 1 ValueTag.int code'.code = some (.int (-1) .pureInt) := by
  obtain ⟨code', hgives, heval⟩ := exprBuild_codeEval emptyEnv arithmeticOnly absHeap 1 ValueTag.int default
    emptyCode minusOne_expression (by decide)
  refine ⟨code', hgives, heval.trans ?_⟩
  change some (legalResult arithmeticOnly ValueTag.int (.int (-1) .pureInt)) = _
  rw [legalResult, convertedResult, if_neg (by decide), if_neg (by decide)]

/-! ### Arithmetic -/

section Arithmetic

/-- What arithmetic results in is what `eval.c` makes of it. -/
structure Evaluator.Arithmetic (E : Evaluator) (phase : Phase) : Prop where
  neg : ∀ {heap v}, E.unop heap .neg v ≠ .illegal →
    ∃ ds, evalNeg E.ops heap phase v = some (E.unop heap .neg v, ds)
  binop : ∀ {heap op l r}, op.arith.isSome → E.binop heap op l r ≠ .illegal →
    ∃ ds, evalArith E.ops heap phase op l r = some (E.binop heap op l r, ds)

/-- **The number of an expression** of sums, differences, products and negations. -/
def ValueTree.number (operand : Value → Option (BitVec 32)) : ValueTree → Option (BitVec 32)
  | .operand v => operand v
  | .unary u t => if u = .neg then (number operand t).map (- ·) else none
  | .binary b x y => do
    let f ← b.1.arith
    let a ← number operand x
    let c ← number operand y
    some (f a c)
  | .paren t => number operand t

/-- The number of an operand, when it is resolved. -/
def resolvedNumber (E : Evaluator) (heap : SymHeap) (turns : ℕ) (resolveAbsArea : Bool) (addr : Assignment)
    (v : Value) : Option (BitVec 32) :=
  match resolvedOperand E heap turns resolveAbsArea v with
  | some (some w) => w.word? addr
  | _ => none

variable {E : Evaluator} {heap : SymHeap} {addr : Assignment} {turns : ℕ} {resolveAbsArea : Bool}
  {phase : Phase} {v w : Value} {a : BitVec 32}

theorem evalArith_word {op : Operator} {f : BitVec 32 → BitVec 32 → BitVec 32} {l r : Value} {b : BitVec 32}
    {ds : List Diag} (haddr : addr.KnowsBases heap) (hf : op.arith = some f) (hl : l.word? addr = some a)
    (hr : r.word? addr = some b) (hrun : evalArith E.ops heap phase op l r = some (v, ds))
    (hlegal : v ≠ .illegal) : v.word? addr = some (f a b) := by
  cases op with
  | add =>
    cases hf
    exact evalAdd_word haddr hl hr hrun hlegal
  | sub =>
    cases hf
    exact evalSub_word haddr hl hr hrun hlegal
  | mul =>
    cases hf
    exact evalMul_word haddr hl hr hrun hlegal
  | _ => cases hf

theorem legalOnly_eq_some (h : legalOnly v = some (some w)) : v = w ∧ w ≠ .illegal := by
  cases v <;> cases h <;> exact ⟨rfl, fun h => nomatch h⟩

theorem Tried.elim_eq_some {r : Tried} {f : Value → Tried} (h : r.elim none f = some (some v)) :
    ∃ u, r = some (some u) ∧ f u = some (some v) := by
  match r, h with
  | some (some u), h => exact ⟨u, rfl, h⟩

/-- **The value of a tree stands for its number.** -/
theorem treeValue_word (hE : E.Arithmetic phase) (haddr : addr.KnowsBases heap) {t : ValueTree}
    (ht : t.number (resolvedNumber E heap turns resolveAbsArea addr) = some a)
    (h : treeValue E heap turns resolveAbsArea false t = some (some v)) : v.word? addr = some a := by
  induction t generalizing a v with
  | operand u =>
    rw [treeValue, if_neg Bool.false_ne_true] at h
    rw [ValueTree.number, resolvedNumber, h] at ht
    exact ht
  | unary u t ih =>
    rw [ValueTree.number] at ht
    split at ht
    case isFalse => cases ht
    case isTrue hneg =>
      subst hneg
      obtain ⟨c, hc, rfl⟩ := Option.map_eq_some_iff.mp ht
      obtain ⟨w, hw, h⟩ := Tried.elim_eq_some h
      obtain ⟨rfl, hlegal⟩ := legalOnly_eq_some h
      obtain ⟨ds, hrun⟩ := hE.neg hlegal
      exact evalNeg_word haddr (ih hc hw) hrun hlegal
  | binary b x y ihx ihy =>
    obtain ⟨f, hf, ht⟩ := Option.bind_eq_some_iff.mp ht
    obtain ⟨c, hc, ht⟩ := Option.bind_eq_some_iff.mp ht
    obtain ⟨d, hd, ht⟩ := Option.bind_eq_some_iff.mp ht
    cases ht
    obtain ⟨l, hl, h⟩ := Tried.elim_eq_some h
    obtain ⟨r, hr, h⟩ := Tried.elim_eq_some h
    obtain ⟨rfl, hlegal⟩ := legalOnly_eq_some h
    obtain ⟨ds, hrun⟩ := hE.binop (hf ▸ rfl) hlegal
    exact evalArith_word haddr hf (ihx hc hl) (ihy hd hr) hrun hlegal
  | paren t ih => exact ih ht h

/-- A value that stands for a number is not converted. -/
theorem convertedResult_word {legal : ValueTag}
    (hint : legal &&& (ValueTag.int ||| ValueTag.float) ≠ ValueTag.float) (hv : v.word? addr = some a) :
    convertedResult E legal v = v := by
  cases v with
  | int i type => rw [convertedResult, if_neg hint]
  | addr r i => rfl
  | symbol s factor offset => rfl
  | _ => cases hv

theorem legalResult_cases {legal : ValueTag} (h : convertedResult E legal v = v) :
    legalResult E legal v = .illegal ∨ legalResult E legal v = v := by
  unfold legalResult
  rw [h]
  split
  · exact Or.inl rfl
  · exact Or.inr rfl

end Arithmetic

/-- **Expressions compute modulo `2 ^ 32`.** Where an expression of sums, differences, products and
negations is at the front of the tokens, what `Expr_Build` and `Code_Eval` make of it stands for the number
of its tree, unless it is illegal or left as the program. -/
theorem exprBuild_word (env : ExprEnv) {E : Evaluator} {phase : Phase} (hE : E.Arithmetic phase)
    {heap : SymHeap} {addr : Assignment} (haddr : addr.KnowsBases heap) (turns : ℕ) {legal : ValueTag}
    (hlegal : legal &&& (ValueTag.int ||| ValueTag.float) ≠ ValueTag.float) {ts rest : List ExprToken}
    {t : ExprTree} (table : SymbolTable) (code : CodeState) (ht : ExpressionAt t ts rest)
    (hfits : t.postorder.length ≤ codeSizeCode) {a : BitVec 32}
    (ha : (valueTree env table t).2.number (resolvedNumber E heap turns (resolvesAreas legal) addr) = some a) :
    ∃ st, Gives (exprBuild tokenLexer env · ts table code) (.ok st .none)
      ∧ ∀ v, codeEval E heap turns legal st.code.code = some v →
        v = .illegal ∨ v = .code st.code.code ∨ v.word? addr = some a := by
  obtain ⟨code', hgives, hcode⟩ := exprBuild_of_expressionAt env table code ht hfits
  rw [itemsCode_postorder] at hcode
  obtain ⟨p, -, hparse, -⟩ := ht
  refine ⟨_, hgives, fun v hv => ?_⟩
  change v = .illegal ∨ v = .code code'.code ∨ v.word? addr = some a
  change codeEval E heap turns legal code'.code = some v at hv
  rw [hcode] at hv ⊢
  rw [codeEval_program (valueTree_unops hparse)] at hv
  obtain ⟨r, hr, rfl⟩ := Option.map_eq_some_iff.mp hv
  cases r with
  | some u =>
    have hu := treeValue_word hE haddr ha hr
    rcases legalResult_cases (convertedResult_word (E := E) hlegal hu) with h | h
    · exact Or.inl h
    · exact Or.inr (Or.inr (h.symm ▸ hu))
  | none =>
    rw [Option.getD_none]
    split
    · exact (legalResult_cases rfl).imp_right Or.inl
    · exact Or.inl (or_self_iff.mp (legalResult_cases rfl))

theorem arithmeticOnly_arithmetic : arithmeticOnly.Arithmetic .passOne := by
  have hlegal : ∀ {x : EvalResult}, x.legal.getD .illegal ≠ .illegal →
      ∃ ds, x = some (x.legal.getD .illegal, ds) := by
    intro x hx
    cases hl : x.legal with
    | none =>
      rw [hl] at hx
      exact absurd rfl hx
    | some v =>
      obtain ⟨ds, hrun, -⟩ := legal_eq_some hl
      exact ⟨ds, hrun⟩
  exact ⟨hlegal, fun _ => hlegal⟩

theorem exprBuild_word_minusOne : ∃ st,
    Gives (exprBuild tokenLexer emptyEnv · minusOne default emptyCode) (.ok st .none)
      ∧ ∀ v, codeEval arithmeticOnly absHeap 1 ValueTag.int st.code.code = some v →
        v = .illegal ∨ v = .code st.code.code ∨ v.word? (absEnv 0x8000) = some (-1) :=
  exprBuild_word emptyEnv arithmeticOnly_arithmetic absEnv_knowsBases 1 (by decide) default emptyCode
    minusOne_expression (by decide) rfl

end Asasm
