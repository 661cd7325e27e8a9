import Gccsdk.Asasm.Code
import Gccsdk.Asasm.Lex

/-!
# Building expressions

`expr.c`: the parser that turns an expression into a postfix program. It asks the lexer for a primary
(`Lex_GetPrim`) where it expects an operand and for a binary operator (`Lex_GetBinop`) after one, with
one operator read ahead in `opP`. The lexer is a parameter, `Lexer`; its state is what is left to
read.

The C functions call each other without bound. The model counts the depth of calls down and returns
`none` when it is used up.
-/

namespace Asasm

/-- **The two functions of the lexer**, on a state `σ` of what is left to read. -/
structure Lexer (σ : Type) where
  /-- `Lex_GetPrim`. -/
  getPrim : σ → Lex × σ
  /-- `Lex_GetBinop`. -/
  getBinop : σ → Lex × σ

/-- What operands stand for, besides the symbol table. -/
structure ExprEnv where
  /-- `areaCurrentSymbol`. -/
  areaCurrentSymbol : SymId
  /-- Its `curIdx`. -/
  curIdx : BitVec 32
  /-- `StorageMap_Value`. -/
  storageMapValue : Value
  /-- What `StorageMap_Value` asserts. -/
  storage_tag : storageMapValue.tag = ValueTag.int ∨ storageMapValue.tag = ValueTag.addr
    ∨ storageMapValue.tag = ValueTag.symbol

structure ExprState (σ : Type) where
  lex : σ
  table : SymbolTable
  code : CodeState

inductive ExprResult (σ : Type)
  | ok (st : ExprState σ) (opP : Lex)
  | failed (diag : Diag)
  /-- A failed assertion or `Error_Abort`. -/
  | aborted

abbrev ExprRun (σ : Type) := Option (ExprResult σ)

variable {σ : Type}

def ExprRun.andThen (r : ExprRun σ) (f : ExprState σ → Lex → ExprRun σ) : ExprRun σ :=
  match r with
  | some (.ok st opP) => f st opP
  | r => r

def ExprState.withCode (st : ExprState σ) (code : Option CodeState) (opP : Lex) : ExprRun σ :=
  match code with
  | some code => some (.ok { st with code } opP)
  | none => some .aborted

def Lex.isOperand : Lex → Bool
  | .id _ | .string _ | .int _ | .int64 _ | .float _ | .position | .storage | .bool _ => true
  | _ => false

/-- What `Expr_GetPrim` does with an operand: the table after it, and the element it adds. -/
def operandCode (env : ExprEnv) (table : SymbolTable) : Lex → SymbolTable × Code
  | .id str => ((table.get str).1, .value (.symbol (table.get str).2 1 0))
  | .string str => (table, .value (.string str))
  | .int value => (table, .value (.int value .pureInt))
  | .int64 value => (table, .value (.int64 value))
  | .float value => (table, .value (.float value))
  | .position => (table, .value (.symbol env.areaCurrentSymbol 1 env.curIdx))
  | .storage => (table, .value env.storageMapValue)
  | .bool value => (table, .value (.bool value))
  | _ => (table, .value .illegal)

/-- The operand cases of `Expr_GetPrim`. -/
def exprOperand (env : ExprEnv) (st : ExprState σ) (lex : Lex) : ExprRun σ :=
  match lex with
  | .id str =>
    { st with table := (st.table.get str).1 }.withCode (codeSymbol st.code (st.table.get str).2 0)
      .none
  | .string str => st.withCode (codeString st.code str) .none
  | .int value => st.withCode (codeInt st.code value) .none
  | .int64 value => st.withCode (codeValue st.code (.int64 value) false) .none
  | .float value => st.withCode (codeFloat st.code value) .none
  | .position => st.withCode (codeSymbol st.code env.areaCurrentSymbol env.curIdx) .none
  | .storage => st.withCode (codeValue st.code env.storageMapValue true) .none
  | .bool value => st.withCode (codeBool st.code value) .none
  | _ => some .aborted

def illegalOperator : Diag := ⟨.error, "Illegal operator", []⟩
def missingParen : Diag := ⟨.error, "Missing ')'", []⟩
def unexpectedParen : Diag := ⟨.error, "')' unexpected", []⟩
def incompleteExpression : Diag := ⟨.error, "Incomplete expression", []⟩

def exprCloseParen (lexer : Lexer σ) (st : ExprState σ) : ExprRun σ :=
  match lexer.getPrim st.lex with
  | (.delim 0x29, lex) => some (.ok { st with lex } .none)
  | _ => some (.failed missingParen)

/-- The operator read ahead, or else the next one, and what is left to read. -/
def readAhead (lexer : Lexer σ) (st : ExprState σ) : Lex → Lex × σ
  | .operator op pri => (.operator op pri, st.lex)
  | _ => lexer.getBinop st.lex

mutual

def exprGetPrim (lexer : Lexer σ) (env : ExprEnv) : Nat → ExprState σ → ExprRun σ
  | 0, _ => none
  | depth + 1, st =>
    let (lex, rest) := lexer.getPrim st.lex
    let st := { st with lex := rest }
    match lex with
    | .operator op _ =>
      if !op.isUnop then some (.failed illegalOperator)
      else (exprGetPrim lexer env depth st).andThen fun st _ =>
        st.withCode (codeOperator st.code op) .none
    | .delim 0x28 =>
      (exprGetInt lexer env depth st kPrioOpMin).andThen fun st _ => exprCloseParen lexer st
    | .delim 0x29 => some (.failed unexpectedParen)
    | .none => some (.failed incompleteExpression)
    | lex => exprOperand env st lex

/-- `Expr_GetInt`, called with an empty `opP`: a primary or an expression of the next priority, then
the loop. -/
def exprGetInt (lexer : Lexer σ) (env : ExprEnv) : Nat → ExprState σ → Nat → ExprRun σ
  | 0, _, _ => none
  | depth + 1, st, maxPri =>
    (if maxPri ≠ kPrioOpMax then exprGetInt lexer env depth st (maxPri + 1)
      else exprGetPrim lexer env depth st).andThen fun st opP =>
        exprLoop lexer env depth st opP maxPri

/-- The loop of `Expr_GetInt`. -/
def exprLoop (lexer : Lexer σ) (env : ExprEnv) : Nat → ExprState σ → Lex → Nat → ExprRun σ
  | 0, _, _, _ => none
  | depth + 1, st, opP, maxPri =>
    let (opP, rest) := readAhead lexer st opP
    let st := { st with lex := rest }
    match opP with
    | .operator op pri =>
      if pri ≠ maxPri then some (.ok st (.operator op pri))
      else
        (if maxPri ≠ kPrioOpMax then exprGetInt lexer env depth st (maxPri + 1)
          else exprGetPrim lexer env depth st).andThen fun st opP =>
            (st.withCode (codeOperator st.code op) opP).andThen fun st opP =>
              exprLoop lexer env depth st opP maxPri
    | opP => some (.ok st opP)

end

def exprGet (lexer : Lexer σ) (env : ExprEnv) (depth : Nat) (st : ExprState σ) : ExprRun σ :=
  exprGetInt lexer env depth st kPrioOpMin

/-- **`Expr_Build`**, on the input `lex`. -/
def exprBuild (lexer : Lexer σ) (env : ExprEnv) (depth : Nat) (lex : σ) (table : SymbolTable)
    (code : CodeState) : ExprRun σ :=
  exprGet lexer env depth ⟨lex, table, codeInit code⟩

theorem ExprRun.andThen_eq_ok {r : ExprRun σ} {f : ExprState σ → Lex → ExprRun σ}
    {st : ExprState σ} {opP : Lex} (h : r.andThen f = some (.ok st opP)) :
    ∃ st' opP', r = some (.ok st' opP') ∧ f st' opP' = some (.ok st opP) := by
  cases r with
  | none => cases h
  | some x =>
    cases x with
    | ok st' opP' => exact ⟨st', opP', rfl, h⟩
    | failed | aborted => cases h

theorem ExprState.withCode_eq_ok {st st' : ExprState σ} {code : Option CodeState} {opP opP' : Lex}
    (h : st.withCode code opP = some (.ok st' opP')) : opP' = opP := by
  cases code with
  | none => cases h
  | some code =>
    cases h
    rfl

/-! ### More depth -/

theorem ExprRun.andThen_mono {r r' : ExprRun σ} {f f' : ExprState σ → Lex → ExprRun σ}
    (hr : ∀ x, r = some x → r' = some x)
    (hf : ∀ st opP x, f st opP = some x → f' st opP = some x) {x : ExprResult σ}
    (h : r.andThen f = some x) : r'.andThen f' = some x := by
  cases r with
  | none => cases h
  | some y =>
    rw [hr y rfl]
    cases y with
    | ok st opP => exact hf st opP x h
    | failed diag => exact h
    | aborted => exact h

/-- **Depth is only a bound**: a result stays the same with more of it. -/
theorem expr_mono (lexer : Lexer σ) (env : ExprEnv) (depth : Nat) :
    (∀ st x, exprGetPrim lexer env depth st = some x →
      exprGetPrim lexer env (depth + 1) st = some x)
    ∧ (∀ st maxPri x, exprGetInt lexer env depth st maxPri = some x →
      exprGetInt lexer env (depth + 1) st maxPri = some x)
    ∧ ∀ st opP maxPri x, exprLoop lexer env depth st opP maxPri = some x →
      exprLoop lexer env (depth + 1) st opP maxPri = some x := by
  induction depth with
  | zero =>
    refine ⟨fun st x h => ?_, fun st maxPri x h => ?_, fun st opP maxPri x h => ?_⟩
    · simp only [exprGetPrim, reduceCtorEq] at h
    · simp only [exprGetInt, reduceCtorEq] at h
    · simp only [exprLoop, reduceCtorEq] at h
  | succ depth ih =>
    obtain ⟨ihPrim, ihInt, ihLoop⟩ := ih
    -- both calls for an operand of priority `maxPri`
    have ihNext : ∀ (st : ExprState σ) (maxPri : Nat) (x : ExprResult σ),
        (if maxPri ≠ kPrioOpMax then exprGetInt lexer env depth st (maxPri + 1)
          else exprGetPrim lexer env depth st) = some x →
        (if maxPri ≠ kPrioOpMax then exprGetInt lexer env (depth + 1) st (maxPri + 1)
          else exprGetPrim lexer env (depth + 1) st) = some x := by
      intro st maxPri x h
      split
      next hne => exact ihInt st _ x (by rwa [if_pos hne] at h)
      next hne => exact ihPrim st x (by rwa [if_neg hne] at h)
    refine ⟨fun st x h => ?_, fun st maxPri x h => ?_, fun st opP maxPri x h => ?_⟩
    · rw [exprGetPrim] at h ⊢
      dsimp only at h ⊢
      split at h
      · split at h
        next hun => rwa [if_pos hun]
        next hun =>
          rw [if_neg hun]
          exact ExprRun.andThen_mono (ihPrim _) (fun _ _ _ h => h) h
      · exact ExprRun.andThen_mono (ihInt _ _) (fun _ _ _ h => h) h
      · exact h
      · exact h
      · exact h
    · rw [exprGetInt] at h ⊢
      exact ExprRun.andThen_mono (ihNext st maxPri) (fun st opP => ihLoop st opP maxPri) h
    · rw [exprLoop] at h ⊢
      dsimp only at h ⊢
      split at h
      · split at h
        next hne => rwa [if_pos hne]
        next hne =>
          rw [if_neg hne]
          exact ExprRun.andThen_mono (ihNext _ maxPri)
            (fun _ _ _ => ExprRun.andThen_mono (fun _ h => h)
              fun st opP => ihLoop st opP maxPri) h
      · exact h

def Gives (f : Nat → ExprRun σ) (x : ExprResult σ) : Prop := ∃ n, ∀ depth, n ≤ depth → f depth = some x

theorem Gives.of_succ {f g : Nat → ExprRun σ} {x : ExprResult σ} (h : Gives g x)
    (hf : ∀ depth, f (depth + 1) = g depth) : Gives f x := by
  obtain ⟨n, hn⟩ := h
  refine ⟨n + 1, fun depth hdepth => ?_⟩
  obtain ⟨depth, rfl⟩ : ∃ d, depth = d + 1 := ⟨depth - 1, by omega⟩
  rw [hf]
  exact hn depth (by omega)

theorem Gives.andThen {f : Nat → ExprRun σ} {st : ExprState σ} {opP : Lex} {x : ExprResult σ}
    (hf : Gives f (.ok st opP)) (g : Nat → ExprState σ → Lex → ExprRun σ)
    (hg : Gives (g · st opP) x) : Gives (fun depth => (f depth).andThen (g depth)) x := by
  obtain ⟨n, hn⟩ := hf
  obtain ⟨m, hm⟩ := hg
  refine ⟨max n m, fun depth hdepth => ?_⟩
  dsimp only
  rw [hn depth (by omega)]
  exact hm depth (by omega)

theorem Gives.const {r : ExprRun σ} {x : ExprResult σ} (h : r = some x) :
    Gives (fun _ => r) x := ⟨0, fun _ _ => h⟩

/-- What `Expr_Build` gives at one depth and what it gives from some depth on are the same. -/
theorem Gives.eq_of_exprGet {lexer : Lexer σ} {env : ExprEnv} {st : ExprState σ}
    {x y : ExprResult σ} (h : Gives (fun depth => exprGet lexer env depth st) x) {depth : Nat}
    (hy : exprGet lexer env depth st = some y) : y = x := by
  obtain ⟨n, hn⟩ := h
  have hmono : ∀ k, exprGet lexer env (depth + k) st = some y := by
    intro k
    induction k with
    | zero => exact hy
    | succ k ih => exact (expr_mono lexer env (depth + k)).2.1 st _ y ih
  have := hn (depth + n) (by omega)
  dsimp only at this
  rw [hmono n] at this
  exact Option.some.inj this

end Asasm
