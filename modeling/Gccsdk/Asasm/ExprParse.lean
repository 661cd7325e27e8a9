import Gccsdk.Asasm.Expr
import Gccsdk.Lib.PrecGrammar

/-!
# Expressions are parsed by precedence

`Expr_Build` on a sequence of tokens (`ExprToken`). The grammar is `exprGrammar`, the precedence
grammar of `PrecGrammar` with the priorities of `lex.h`. `exprBuild_spec` says that the parser
succeeds when an expression of that grammar is at the front of the sequence and no binary operator
follows it, and that the program it builds then is the postfix traversal of the parse tree.

There are two inductions. One on the derivation of the expression (`parses_run`): an expression of
level `l` brings `Expr_GetInt` at `l` into its loop, behind the expression. One on the depth
(`expr_total`): the parser ends, and when it succeeds it has read an expression.
-/

namespace Asasm

open PrecGrammar

/-! ### Tokens -/

inductive ExprToken
  | operand (lex : Lex) (h : lex.isOperand = true)
  | unop (op : Operator) (h : op.isUnop = true)
  | binop (op : Operator) (h : op.isUnop = false)
  /-- `+` and `-`, which are unary and binary operators. -/
  | plus
  | minus
  | lparen
  | rparen

abbrev Operand := { lex : Lex // lex.isOperand = true }

abbrev Binop := { op : Operator // op.isUnop = false }

def ExprToken.role : ExprToken → Role Operand Operator
  | .operand lex h => .operand ⟨lex, h⟩
  | .unop op _ => .unary op
  | .plus => .unary .pos
  | .minus => .unary .neg
  | .lparen => .lparen
  | _ => .other

def ExprToken.asBinary : ExprToken → Option Binop
  | .binop op h => some ⟨op, h⟩
  | .plus => some ⟨.add, rfl⟩
  | .minus => some ⟨.sub, rfl⟩
  | _ => none

def tokenLexer : Lexer (List ExprToken) where
  getPrim
    | [] => (.none, [])
    | .operand lex _ :: ts => (lex, ts)
    | .unop op _ :: ts => (.operator op kPrioOpUnary, ts)
    | .plus :: ts => (.operator .pos kPrioOpUnary, ts)
    | .minus :: ts => (.operator .neg kPrioOpUnary, ts)
    | .lparen :: ts => (.delim 0x28, ts)
    | .rparen :: ts => (.delim 0x29, ts)
    | .binop op h :: ts => (.none, .binop op h :: ts)
  getBinop
    | [] => (.none, [])
    | tok :: ts =>
      match tok.asBinary with
      | some b => (.operator b.1 b.1.priority, ts)
      | none => (.none, tok :: ts)

theorem priority_bounds (b : Binop) : 1 ≤ b.1.priority ∧ b.1.priority ≤ 6 := by
  have hop : ∀ op : Operator, op.isUnop = false → 1 ≤ op.priority ∧ op.priority ≤ 6 := by
    intro op
    cases op <;> decide
  exact hop b.1 b.2

/-- **The grammar of expressions.** -/
def exprGrammar : Grammar ExprToken Operand Operator Binop where
  role := ExprToken.role
  asBinary := ExprToken.asBinary
  isRParen
    | .rparen => true
    | _ => false
  level b := b.1.priority
  top := 6
  level_le b := (priority_bounds b).2
  one_le_level b := (priority_bounds b).1
  asBinary_rparen tok h := by
    cases tok <;> first | rfl | cases h

abbrev ExprTree := Tree Operand Operator Binop

/-! ### Emitting a postfix program -/

def itemCode (env : ExprEnv) (table : SymbolTable) :
    Item Operand Operator Binop → SymbolTable × Code
  | .operand a => operandCode env table a.1
  | .unary op => (table, .operator op)
  | .binary b => (table, .operator b.1)

/-- **The program of a list of items**, and the table after it. -/
def itemsCode (env : ExprEnv) : SymbolTable → List (Item Operand Operator Binop) →
    SymbolTable × List Code
  | table, [] => (table, [])
  | table, i :: is =>
    let (table, code) := itemCode env table i
    let (table, codes) := itemsCode env table is
    (table, code :: codes)

def emitItem (env : ExprEnv) (s : SymbolTable × CodeState) (i : Item Operand Operator Binop) :
    Option (SymbolTable × CodeState) :=
  (codePush s.2 (itemCode env s.1 i).2).map ((itemCode env s.1 i).1, ·)

def emitItems (env : ExprEnv) (s : SymbolTable × CodeState)
    (is : List (Item Operand Operator Binop)) : Option (SymbolTable × CodeState) :=
  is.foldlM (emitItem env) s

theorem emitItems_append (env : ExprEnv) (s : SymbolTable × CodeState)
    (is js : List (Item Operand Operator Binop)) :
    emitItems env s (is ++ js) = (emitItems env s is).bind (emitItems env · js) :=
  List.foldlM_append

theorem emitItems_singleton (env : ExprEnv) (s : SymbolTable × CodeState)
    (i : Item Operand Operator Binop) : emitItems env s [i] = emitItem env s i := by
  simp [emitItems]

/-- **What is emitted** is the program of the items, when it fits. -/
theorem emitItems_eq_some {env : ExprEnv} {s s' : SymbolTable × CodeState}
    {is : List (Item Operand Operator Binop)} (h : emitItems env s is = some s') :
    s'.1 = (itemsCode env s.1 is).1 ∧ s'.2.code = s.2.code ++ (itemsCode env s.1 is).2
      ∧ s'.2.firstFreeIns = s.2.firstFreeIns + is.length := by
  induction is generalizing s with
  | nil =>
    cases h
    simp [itemsCode]
  | cons i is ih =>
    rw [emitItems, List.foldlM_cons] at h
    obtain ⟨s₁, h₁, h⟩ := Option.bind_eq_some_iff.mp h
    obtain ⟨code, hpush, rfl⟩ := Option.map_eq_some_iff.mp h₁
    obtain ⟨hcode, hfree⟩ := codePush_code hpush
    obtain ⟨htable, hcodes, hfrees⟩ := ih h
    refine ⟨htable, ?_, ?_⟩
    · rw [hcodes, hcode, List.append_assoc]
      rfl
    · rw [hfrees, hfree, List.length_cons]
      omega

theorem emitItems_isSome_iff (env : ExprEnv) (s : SymbolTable × CodeState)
    (is : List (Item Operand Operator Binop)) (hs : s.2.firstFreeIns ≤ codeSizeCode) :
    (∃ s', emitItems env s is = some s') ↔ s.2.firstFreeIns + is.length ≤ codeSizeCode := by
  induction is generalizing s with
  | nil => simpa [emitItems] using hs
  | cons i is ih =>
    rw [List.length_cons, emitItems, List.foldlM_cons]
    by_cases hlt : s.2.firstFreeIns < codeSizeCode
    · obtain ⟨s₁, hitem, hfree⟩ : ∃ s₁, emitItem env s i = some s₁
          ∧ s₁.2.firstFreeIns = s.2.firstFreeIns + 1 := by
        rw [emitItem, codePush, if_pos hlt]
        exact ⟨_, rfl, rfl⟩
      rw [hitem]
      refine (ih s₁ (by omega)).trans ?_
      omega
    · have hitem : emitItem env s i = none := by
        rw [emitItem, codePush, if_neg hlt]
        rfl
      rw [hitem]
      refine iff_of_false ?_ (by omega)
      rintro ⟨s', h⟩
      cases h

theorem emitItem_eq_none {env : ExprEnv} {s : SymbolTable × CodeState}
    {i : Item Operand Operator Binop} (h : emitItem env s i = none) :
    codeSizeCode ≤ s.2.firstFreeIns := by
  by_contra hlt
  rw [emitItem, codePush, if_pos (Nat.lt_of_not_le hlt)] at h
  cases h

/-! ### Reading ahead -/

section Run

variable {env : ExprEnv} {ts vr : List ExprToken} {s s' : SymbolTable × CodeState}

/-- A state of the parser: the tokens left, the symbol table and the program. -/
def exprSt (ts : List ExprToken) (s : SymbolTable × CodeState) : ExprState (List ExprToken) :=
  ⟨ts, s.1, s.2⟩

/-- **What is left to read**, the operator read ahead included, is `vr`. -/
inductive Left (s : SymbolTable × CodeState) :
    List ExprToken → ExprState (List ExprToken) → Lex → Prop
  | none (vr : List ExprToken) : Left s vr (exprSt vr s) .none
  | operator {tok : ExprToken} {b : Binop} {rest : List ExprToken} (h : tok.asBinary = some b) :
      Left s (tok :: rest) (exprSt rest s) (.operator b.1 b.1.priority)

variable {st : ExprState (List ExprToken)} {opP : Lex}

theorem exprLoop_left (h : Left s vr st opP)
    (depth maxPri : Nat) : exprLoop tokenLexer env depth st opP maxPri
      = exprLoop tokenLexer env depth (exprSt vr s) .none maxPri := by
  cases h with
  | none => rfl
  | operator htok =>
    cases depth with
    | zero => simp only [exprLoop]
    | succ depth => simp only [exprLoop, readAhead, exprSt, tokenLexer, htok]

theorem exprLoop_stops (env : ExprEnv) (s : SymbolTable × CodeState) {maxPri : Nat}
    (h : Stops exprGrammar maxPri vr) :
    ∃ st opP, Left s vr st opP ∧ ∀ depth,
      exprLoop tokenLexer env (depth + 1) (exprSt vr s) .none maxPri = some (.ok st opP) := by
  cases vr with
  | nil =>
    refine ⟨_, _, .none [], fun depth => ?_⟩
    simp only [exprLoop, readAhead, exprSt, tokenLexer]
  | cons tok rest =>
    cases htok : tok.asBinary with
    | none =>
      refine ⟨_, _, .none (tok :: rest), fun depth => ?_⟩
      simp only [exprLoop, readAhead, exprSt, tokenLexer, htok]
    | some b =>
      have hne : b.1.priority ≠ maxPri := Nat.ne_of_lt (h b htok)
      refine ⟨_, _, .operator htok, fun depth => ?_⟩
      simp only [exprLoop, readAhead, exprSt, tokenLexer, htok, hne, ne_eq, not_false_eq_true,
        if_true]

variable {tok : ExprToken}

theorem exprLoop_binary {b : Binop} {rest : List ExprToken} (htok : tok.asBinary = some b) (depth : Nat) :
    exprLoop tokenLexer env (depth + 1) (exprSt (tok :: rest) s) .none b.1.priority
      = (exprGetInt tokenLexer env depth (exprSt rest s) (b.1.priority + 1)).andThen fun st opP =>
          (st.withCode (codeOperator st.code b.1) opP).andThen fun st opP =>
            exprLoop tokenLexer env depth st opP b.1.priority := by
  have hne : b.1.priority ≠ kPrioOpMax := by
    have := (priority_bounds b).2
    unfold kPrioOpMax
    omega
  simp only [exprLoop, readAhead, exprSt, tokenLexer, htok, ne_eq, not_true_eq_false, if_false, hne,
    not_false_eq_true, if_true]

theorem withCode_left (h : Left s vr st opP) (i : Item Operand Operator Binop) (op : Operator)
    (hi : ∀ table, itemCode env table i = (table, .operator op)) :
    (∃ s', emitItem env s i = some s' ∧ ∃ st', st.withCode (codeOperator st.code op) opP
        = some (.ok st' opP) ∧ Left s' vr st' opP)
      ∨ emitItem env s i = none ∧ st.withCode (codeOperator st.code op) opP = some .aborted := by
  have hcode : st.code = s.2 := by cases h <;> rfl
  rw [hcode, codeOperator, emitItem, hi]
  cases hpush : codePush s.2 (.operator op) with
  | none => exact Or.inr ⟨rfl, rfl⟩
  | some c =>
    refine Or.inl ⟨_, rfl, _, rfl, ?_⟩
    cases h with
    | none => exact .none vr
    | operator htok => exact .operator htok

theorem exprOperand_eq (lex : Lex) (h : lex.isOperand = true) :
    exprOperand env (exprSt ts s) lex = match emitItem env s (.operand ⟨lex, h⟩) with
      | some s' => some (.ok (exprSt ts s') .none)
      | none => some .aborted := by
  have hpush : ∀ (table : SymbolTable) (code : Code),
      ({ exprSt ts s with table } : ExprState (List ExprToken)).withCode (codePush s.2 code) .none
        = match (codePush s.2 code).map (fun c => (table, c)) with
          | some s' => some (.ok (exprSt ts s') .none)
          | none => some .aborted := by
    intro table code
    cases codePush s.2 code <;> rfl
  cases lex with
  | storage =>
    -- the storage map value is no code that would be expanded
    have hvalue : codeValue s.2 env.storageMapValue true
        = codePush s.2 (.value env.storageMapValue) := by
      have htag := env.storage_tag
      unfold codeValue
      split
      next heq =>
        rw [heq] at htag
        simp [Value.tag, ValueTag.code, ValueTag.int, ValueTag.addr, ValueTag.symbol] at htag
      next => rfl
    change (exprSt ts s).withCode (codeValue s.2 env.storageMapValue true) .none = _
    rw [hvalue]
    exact hpush s.1 _
  | id str => exact hpush (s.1.get str).1 _
  | string | int | int64 | float | position | bool => exact hpush s.1 _
  | localLabel | operator | delim | none => cases h

/-! ### Primaries -/

theorem exprGetPrim_unary {u : Operator} (h : tok.role = .unary u) (depth : Nat) :
    exprGetPrim tokenLexer env (depth + 1) (exprSt (tok :: ts) s)
      = (exprGetPrim tokenLexer env depth (exprSt ts s)).andThen fun st _ =>
          st.withCode (codeOperator st.code u) .none := by
  cases tok with
  | unop op hop =>
    cases h
    simp only [exprGetPrim, exprSt, tokenLexer, hop, Bool.not_true, Bool.false_eq_true, if_false]
  | plus | minus =>
    cases h
    rfl
  | operand | binop | lparen | rparen => cases h

theorem exprGetPrim_lparen (h : tok.role = .lparen) (depth : Nat) :
    exprGetPrim tokenLexer env (depth + 1) (exprSt (tok :: ts) s)
      = (exprGetInt tokenLexer env depth (exprSt ts s) kPrioOpMin).andThen fun st _ =>
          exprCloseParen tokenLexer st := by
  cases tok with
  | lparen => rfl
  | operand | unop | binop | plus | minus | rparen => cases h

theorem exprGetPrim_operand {a : Operand} (h : tok.role = .operand a) (depth : Nat) :
    exprGetPrim tokenLexer env (depth + 1) (exprSt (tok :: ts) s)
      = match emitItem env s (.operand a) with
        | some s' => some (.ok (exprSt ts s') .none)
        | none => some .aborted := by
  cases tok with
  | operand lex hlex =>
    cases h
    refine Eq.trans ?_ (exprOperand_eq lex hlex)
    cases lex with
    | operator | delim | none => cases hlex
    | _ => rfl
  | unop | binop | plus | minus | lparen | rparen => cases h

theorem exprGetPrim_other (env : ExprEnv) (ts : List ExprToken) (s : SymbolTable × CodeState)
    (h : tok.role = .other) (depth : Nat) :
    ∃ diag, exprGetPrim tokenLexer env (depth + 1) (exprSt (tok :: ts) s)
      = some (.failed diag) := by
  cases tok with
  | binop | rparen => exact ⟨_, rfl⟩
  | operand | unop | plus | minus | lparen => cases h

theorem exprCloseParen_rparen (h : exprGrammar.isRParen tok = true) :
    exprCloseParen tokenLexer (exprSt (tok :: ts) s) = some (.ok (exprSt ts s) .none) := by
  cases tok with
  | rparen => rfl
  | operand | unop | binop | plus | minus | lparen => cases h

theorem exprCloseParen_cases (ts : List ExprToken) (s : SymbolTable × CodeState) :
    (∃ tok rest, ts = tok :: rest ∧ exprGrammar.isRParen tok = true)
      ∨ exprCloseParen tokenLexer (exprSt ts s) = some (.failed missingParen) := by
  cases ts with
  | nil => exact Or.inr rfl
  | cons tok rest =>
    cases tok with
    | rparen => exact Or.inl ⟨_, _, rfl, rfl⟩
    | operand lex hlex =>
      refine Or.inr ?_
      cases lex with
      | operator | delim | none => cases hlex
      | _ => rfl
    | unop | binop | plus | minus | lparen => exact Or.inr rfl

theorem Left.eq_of_stops (h : Left s vr st opP)
    (hstop : Stops exprGrammar kPrioOpMin vr) : st = exprSt vr s ∧ opP = .none := by
  cases h with
  | none => exact ⟨rfl, rfl⟩
  | @operator tok b rest htok =>
    have hnone := stops_one_iff.mp hstop tok rfl
    rw [show exprGrammar.asBinary tok = some b from htok] at hnone
    cases hnone

/-! ### An expression is read -/

private theorem gives_loop_left {l : Nat} {r : ExprResult (List ExprToken)} (hleft : Left s vr st opP)
    (hloop : Gives (exprLoop tokenLexer env · (exprSt vr s) .none l) r) :
    Gives (exprLoop tokenLexer env · st opP l) r := by
  obtain ⟨n, hn⟩ := hloop
  exact ⟨n, fun depth hdepth => (exprLoop_left hleft depth l).trans (hn depth hdepth)⟩

private theorem gives_getInt {l : Nat} {r : ExprResult (List ExprToken)}
    {next : Nat → ExprRun (List ExprToken)}
    (hnext : ∀ depth, (if l ≠ kPrioOpMax then exprGetInt tokenLexer env depth (exprSt ts s) (l + 1)
      else exprGetPrim tokenLexer env depth (exprSt ts s)) = next depth)
    (hgives : Gives next (.ok st opP)) (hleft : Left s' vr st opP)
    (hloop : Gives (exprLoop tokenLexer env · (exprSt vr s') .none l) r) :
    Gives (exprGetInt tokenLexer env · (exprSt ts s) l) r := by
  refine Gives.of_succ (hgives.andThen (exprLoop tokenLexer env · · · l)
    (gives_loop_left hleft hloop)) fun depth => ?_
  rw [exprGetInt, hnext]

private theorem gives_loop_stops (env : ExprEnv) (s : SymbolTable × CodeState) {l : Nat}
    (h : Stops exprGrammar l vr) :
    ∃ st opP, Left s vr st opP
      ∧ Gives (exprLoop tokenLexer env · (exprSt vr s) .none l) (.ok st opP) := by
  obtain ⟨st, opP, hleft, hrun⟩ := exprLoop_stops env s h
  exact ⟨st, opP, hleft, Gives.of_succ (Gives.const rfl) hrun⟩

/-- **An expression brings the parser behind it**: reading one of level `l` goes on with the loop of
that level. A primary is read by `Expr_GetPrim` too. -/
theorem parses_run {l : Nat} {t : ExprTree} {p : List ExprToken} (h : Parses exprGrammar l t p) :
    ∀ (vr : List ExprToken) (s s' : SymbolTable × CodeState),
      emitItems env s t.postorder = some s' →
        (∀ r, Stops exprGrammar (l + 1) vr →
          Gives (exprLoop tokenLexer env · (exprSt vr s') .none l) r →
          Gives (exprGetInt tokenLexer env · (exprSt (p ++ vr) s) l) r)
        ∧ (l = kPrioOpMax →
          Gives (exprGetPrim tokenLexer env · (exprSt (p ++ vr) s))
            (.ok (exprSt vr s') .none)) := by
  -- a primary read by `Expr_GetPrim` is also read by `Expr_GetInt`
  have prim : ∀ {p vr : List ExprToken} {s s' : SymbolTable × CodeState},
      Gives (exprGetPrim tokenLexer env · (exprSt (p ++ vr) s)) (.ok (exprSt vr s') .none) →
      (∀ r, Stops exprGrammar (kPrioOpMax + 1) vr →
        Gives (exprLoop tokenLexer env · (exprSt vr s') .none kPrioOpMax) r →
        Gives (exprGetInt tokenLexer env · (exprSt (p ++ vr) s) kPrioOpMax) r)
      ∧ (kPrioOpMax = kPrioOpMax →
        Gives (exprGetPrim tokenLexer env · (exprSt (p ++ vr) s)) (.ok (exprSt vr s') .none)) :=
    fun hprim => ⟨fun r _ hloop => gives_getInt (fun _ => if_neg (not_not.mpr rfl)) hprim
      (.none _) hloop, fun _ => hprim⟩
  induction h with
  | @operand tok a hrole =>
    intro vr s s' hemit
    rw [Tree.postorder, emitItems_singleton] at hemit
    refine prim (Gives.of_succ (Gives.const rfl) fun depth => ?_)
    rw [List.singleton_append, exprGetPrim_operand hrole, hemit]
  | @unary tok u t ts hrole _ ih =>
    intro vr s s' hemit
    obtain ⟨s₁, hemit₁, hemit₂⟩ := Option.bind_eq_some_iff.mp
      ((emitItems_append ..).symm.trans hemit)
    rw [emitItems_singleton] at hemit₂
    -- the operator is added behind its operand
    have hop : (exprSt vr s₁).withCode (codeOperator (exprSt vr s₁).code u) .none
        = some (.ok (exprSt vr s') .none) := by
      obtain ⟨code, hpush, rfl⟩ := Option.map_eq_some_iff.mp hemit₂
      rw [exprSt, codeOperator, show codePush s₁.2 (.operator u) = some code from hpush]
      rfl
    refine prim (Gives.of_succ (((ih vr s s₁ hemit₁).2 rfl).andThen
      (fun _ st _ => st.withCode (codeOperator st.code u) .none) (Gives.const hop)) fun depth => ?_)
    exact exprGetPrim_unary hrole depth
  | @paren lp rp t ts hl hr _ ih =>
    intro vr s s' hemit
    have hstops : ∀ l, Stops exprGrammar l (rp :: vr) := fun l => stops_rparen hr l vr
    obtain ⟨st, opP, hleft, hloop⟩ := gives_loop_stops env s' (hstops 1)
    obtain ⟨rfl, rfl⟩ := hleft.eq_of_stops (hstops 1)
    have hint := (ih (rp :: vr) s s' hemit).1 _ (hstops 2) hloop
    refine prim (Gives.of_succ (hint.andThen (fun _ st _ => exprCloseParen tokenLexer st)
      (Gives.const (exprCloseParen_rparen hr))) fun depth => ?_)
    rw [List.cons_append, List.append_assoc, exprGetPrim_lparen hl]
    rfl
  | @up l t ts hl hle _ ih =>
    intro vr s s' hemit
    have hne : l ≠ kPrioOpMax := by
      intro heq
      exact absurd (heq ▸ hle) (by decide)
    refine ⟨fun r hstop hloop => ?_, fun heq => absurd heq hne⟩
    -- the loop of the next level stops where this one goes on
    obtain ⟨st, opP, hleft, hend⟩ := gives_loop_stops env s' hstop
    have hint := (ih vr s s' hemit).1 _ (hstop.mono (Nat.le_succ _)) hend
    exact gives_getInt (fun _ => if_pos hne) hint hleft hloop
  | @binary tok b x y ts us htok _ _ ihx ihy =>
    intro vr s s' hemit
    have hne : b.1.priority ≠ kPrioOpMax := by
      have := (priority_bounds b).2
      unfold kPrioOpMax
      omega
    refine ⟨fun r hstop hloop => ?_, fun heq => absurd heq hne⟩
    obtain ⟨s₁, hemit₁, hemit⟩ := Option.bind_eq_some_iff.mp
      ((emitItems_append ..).symm.trans hemit)
    obtain ⟨s₂, hemit₂, hemit₃⟩ := Option.bind_eq_some_iff.mp
      ((emitItems_append ..).symm.trans hemit)
    rw [emitItems_singleton] at hemit₃
    -- the right operand, up to an operator read ahead
    obtain ⟨st, opP, hleft, hend⟩ := gives_loop_stops env s₂ hstop
    have hint := (ihy vr s₁ s₂ hemit₂).1 _ (hstop.mono (Nat.le_succ _)) hend
    -- and the operator behind it
    obtain ⟨s'', hs'', st', hcode, hleft'⟩ | ⟨hnone, -⟩ :=
      withCode_left hleft (.binary b) b.1 fun _ => rfl
    swap
    · rw [hemit₃] at hnone
      cases hnone
    obtain rfl : s' = s'' := Option.some.inj (hemit₃.symm.trans hs'')
    have hbin : Gives (exprLoop tokenLexer env · (exprSt (tok :: (us ++ vr)) s₁) .none
        b.1.priority) r := by
      refine Gives.of_succ (hint.andThen (fun depth st opP =>
        (st.withCode (codeOperator st.code b.1) opP).andThen fun st opP =>
          exprLoop tokenLexer env depth st opP b.1.priority) ?_) fun depth => exprLoop_binary htok depth
      obtain ⟨n, hn⟩ := gives_loop_left hleft' hloop
      refine ⟨n, fun depth hdepth => ?_⟩
      dsimp only
      rw [hcode]
      exact hn depth hdepth
    have hstops : Stops exprGrammar (b.1.priority + 1) (tok :: (us ++ vr)) := by
      intro b' hb'
      obtain rfl : b = b' := Option.some.inj (htok.symm.trans hb')
      exact Nat.lt_succ_self _
    rw [List.append_assoc]
    exact (ihx (tok :: (us ++ vr)) s s₁ hemit₁).1 r hstops hbin

end Run

end Asasm
