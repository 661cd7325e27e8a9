import Gccsdk.Asasm.ExprParse

/-!
# `Expr_Build`

What `Expr_Build` does with any sequence of tokens. `expr_outcome` is the induction over the calls: with
enough depth they end, and when they succeed, they have read an expression (`Outcome`). Together with
`parses_run` it gives `exprBuild_spec`: the program is the postfix traversal of the expression at the
front of the input, and the parser fails when there is none.
-/

namespace Asasm

open PrecGrammar

variable {env : ExprEnv} {ts vr : List ExprToken} {s s' : SymbolTable × CodeState}

/-- **What a result says about the tokens**: the parser succeeds behind an expression of its level,
with its program added, and it aborts only for want of space. -/
def Outcome (env : ExprEnv) (s : SymbolTable × CodeState) (ts : List ExprToken) (l : Nat) :
    ExprResult (List ExprToken) → Prop
  | .ok st opP => ∃ (t : ExprTree) (p vr : List ExprToken) (s' : SymbolTable × CodeState),
      ts = p ++ vr ∧ Parses exprGrammar l t p ∧ emitItems env s t.postorder = some s'
        ∧ Stops exprGrammar l vr ∧ Left s' vr st opP
  | .failed _ => True
  | .aborted => codeSizeCode < s.2.firstFreeIns + ts.length

def Ends (env : ExprEnv) (s : SymbolTable × CodeState) (ts : List ExprToken) (l : Nat)
    (r : ExprRun (List ExprToken)) : Prop :=
  ∃ x, r = some x ∧ Outcome env s ts l x

theorem Ends.failed {l : Nat} {diag : Diag} : Ends env s ts l (some (.failed diag)) :=
  ⟨_, rfl, trivial⟩

theorem Ends.andThen {l l' : Nat} {r : ExprRun (List ExprToken)}
    {f : ExprState (List ExprToken) → Lex → ExprRun (List ExprToken)} {s₀ : SymbolTable × CodeState}
    {ts₀ : List ExprToken} (h : Ends env s ts l r)
    (hroom : s.2.firstFreeIns + ts.length ≤ s₀.2.firstFreeIns + ts₀.length)
    (hf : ∀ (t : ExprTree) (p vr : List ExprToken) (s' : SymbolTable × CodeState)
      (st : ExprState (List ExprToken)) (opP : Lex), r = some (.ok st opP) → ts = p ++ vr →
      Parses exprGrammar l t p → emitItems env s t.postorder = some s' →
      Stops exprGrammar l vr → Left s' vr st opP →
      s'.2.firstFreeIns + vr.length ≤ s.2.firstFreeIns + ts.length → vr.length < ts.length →
      Ends env s₀ ts₀ l' (f st opP)) :
    Ends env s₀ ts₀ l' (r.andThen f) := by
  obtain ⟨x, rfl, hx⟩ := h
  cases x with
  | ok st opP =>
    obtain ⟨t, p, vr, s', rfl, hparse, hemit, hstop, hleft⟩ := hx
    have hfree := (emitItems_eq_some hemit).2.2
    have hle := hparse.length_postorder_le
    have hpos := t.postorder_length_pos
    refine hf t p vr s' st opP rfl rfl hparse hemit hstop hleft ?_ ?_
    · rw [List.length_append]
      omega
    · rw [List.length_append]
      omega
  | failed diag => exact Ends.failed
  | aborted => exact ⟨_, rfl, Nat.lt_of_lt_of_le hx hroom⟩

theorem exprGetPrim_none {depth : Nat} {st : ExprState (List ExprToken)} {opP : Lex}
    (h : exprGetPrim tokenLexer env depth (exprSt ts s) = some (.ok st opP)) : opP = .none := by
  cases depth with
  | zero =>
    rw [exprGetPrim] at h
    cases h
  | succ depth =>
    cases ts with
    | nil => cases h
    | cons tok rest =>
      cases hrole : tok.role with
      | operand a =>
        rw [exprGetPrim_operand hrole] at h
        split at h
        · cases h
          rfl
        · cases h
      | unary u =>
        rw [exprGetPrim_unary hrole] at h
        obtain ⟨st', opP', -, hcode⟩ := ExprRun.andThen_eq_ok h
        exact ExprState.withCode_eq_ok hcode
      | lparen =>
        rw [exprGetPrim_lparen hrole] at h
        obtain ⟨st', opP', -, hclose⟩ := ExprRun.andThen_eq_ok h
        unfold exprCloseParen at hclose
        split at hclose
        · cases hclose
          rfl
        · cases hclose
      | other =>
        obtain ⟨diag, hfail⟩ := exprGetPrim_other env rest s hrole depth
        rw [hfail] at h
        cases h

/-! ### The induction over the calls -/

private theorem ends_unary {tok : ExprToken} {u : Operator} (hrole : tok.role = .unary u)
    {t : ExprTree} {p : List ExprToken} (hts : ts = p ++ vr) (hparse : Parses exprGrammar 7 t p)
    (hemit : emitItems env s t.postorder = some s')
    (hroom : s'.2.firstFreeIns + vr.length ≤ s.2.firstFreeIns + ts.length) :
    Ends env s (tok :: ts) 7
      ((exprSt vr s').withCode (codeOperator (exprSt vr s').code u) .none) := by
  obtain ⟨s'', hitem, st', hcode, hleft⟩ | ⟨hnone, habort⟩ :=
    withCode_left (.none (s := s') vr) (.unary u) u fun _ => rfl
  · refine ⟨_, hcode, .unary u t, tok :: p, vr, s'', by rw [hts]; rfl, .unary hrole hparse, ?_,
      stops_top _ _, hleft⟩
    rw [Tree.postorder, emitItems_append, hemit]
    exact (emitItems_singleton ..).trans hitem
  · refine ⟨_, habort, ?_⟩
    have hfull := emitItem_eq_none hnone
    change codeSizeCode < s.2.firstFreeIns + (ts.length + 1)
    omega

private theorem ends_binary {tok : ExprToken} {b : Binop} (htok : tok.asBinary = some b)
    {depth : Nat} {s₀ s₁ : SymbolTable × CodeState} {x y : ExprTree}
    {tsx p : List ExprToken} (hx : Parses exprGrammar b.1.priority x tsx)
    (hemitx : emitItems env s₀ x.postorder = some s)
    (hy : Parses exprGrammar (b.1.priority + 1) y p)
    (hemity : emitItems env s y.postorder = some s₁) {st : ExprState (List ExprToken)} {opP : Lex}
    (hleft : Left s₁ vr st opP)
    (hroom : s₁.2.firstFreeIns + vr.length ≤ s.2.firstFreeIns + (p ++ vr).length)
    (ihLoop : ∀ (t : ExprTree) (q : List ExprToken) (s₂ : SymbolTable × CodeState),
      Parses exprGrammar b.1.priority t q → emitItems env s₀ t.postorder = some s₂ →
      Ends env s₀ (q ++ vr) b.1.priority
        (exprLoop tokenLexer env depth (exprSt vr s₂) .none b.1.priority)) :
    Ends env s₀ (tsx ++ tok :: (p ++ vr)) b.1.priority
      ((st.withCode (codeOperator st.code b.1) opP).andThen fun st opP =>
        exprLoop tokenLexer env depth st opP b.1.priority) := by
  obtain ⟨s₂, hitem, st', hcode, hleft'⟩ | ⟨hnone, habort⟩ :=
    withCode_left hleft (.binary b) b.1 fun _ => rfl
  · have hemit : emitItems env s₀ (Tree.binary b x y).postorder = some s₂ := by
      rw [Tree.postorder, emitItems_append, hemitx, Option.bind_some, emitItems_append, hemity]
      exact (emitItems_singleton ..).trans hitem
    rw [hcode]
    change Ends env s₀ _ _ (exprLoop tokenLexer env depth st' opP b.1.priority)
    rw [exprLoop_left hleft', ← List.cons_append, ← List.append_assoc]
    exact ihLoop _ _ s₂ (.binary htok hx hy) hemit
  · rw [habort]
    refine ⟨_, rfl, ?_⟩
    have hfull := emitItem_eq_none hnone
    have hfree := (emitItems_eq_some hemitx).2.2
    have hle := hx.length_postorder_le
    change codeSizeCode < s₀.2.firstFreeIns + (tsx ++ tok :: (p ++ vr)).length
    rw [List.length_append, List.length_cons]
    omega

/-- **The calls end**, and when they succeed they have read an expression. The depth needed is nine
calls for each token, and those down to the level of the primaries. -/
theorem expr_outcome (env : ExprEnv) (depth : Nat) :
    (∀ ts s, 9 * ts.length + 1 ≤ depth →
      Ends env s ts 7 (exprGetPrim tokenLexer env depth (exprSt ts s)))
    ∧ (∀ l ts s, 1 ≤ l → l ≤ 7 → 9 * ts.length + 1 + (8 - l) ≤ depth →
      Ends env s ts l (exprGetInt tokenLexer env depth (exprSt ts s) l))
    ∧ ∀ l x tsx vr s₀ s, 1 ≤ l → l ≤ 7 → Parses exprGrammar l x tsx →
      emitItems env s₀ x.postorder = some s → Stops exprGrammar (l + 1) vr →
      9 * vr.length + 1 ≤ depth →
      Ends env s₀ (tsx ++ vr) l (exprLoop tokenLexer env depth (exprSt vr s) .none l) := by
  induction depth with
  | zero =>
    refine ⟨fun ts s h => ?_, fun l ts s _ _ h => ?_, fun l x tsx vr s₀ s _ _ _ _ _ h => ?_⟩
    all_goals omega
  | succ depth ih =>
    obtain ⟨ihPrim, ihInt, ihLoop⟩ := ih
    refine ⟨fun ts s hdepth => ?_, fun l ts s hl hl7 hdepth => ?_,
      fun l x tsx vr s₀ s hl hl7 hx hemitx hstop hdepth => ?_⟩
    · cases ts with
      | nil => exact Ends.failed
      | cons tok ts =>
        rw [List.length_cons] at hdepth
        have hroom : s.2.firstFreeIns + ts.length ≤ s.2.firstFreeIns + (tok :: ts).length :=
          Nat.le_succ _
        cases hrole : tok.role with
        | operand a =>
          rw [exprGetPrim_operand hrole]
          cases hitem : emitItem env s (.operand a) with
          | some s' =>
            refine ⟨_, rfl, .operand a, [tok], ts, s', rfl, .operand hrole, ?_, stops_top _ _,
              .none ts⟩
            exact (emitItems_singleton ..).trans hitem
          | none =>
            have hfull := emitItem_eq_none hitem
            refine ⟨_, rfl, ?_⟩
            change codeSizeCode < s.2.firstFreeIns + (ts.length + 1)
            omega
        | unary u =>
          rw [exprGetPrim_unary hrole]
          refine (ihPrim ts s (by omega)).andThen hroom ?_
          intro t p vr s' st opP hr hts hparse hemit hstop hleft hroom' _
          -- nothing is read ahead
          cases exprGetPrim_none hr
          cases hleft
          exact ends_unary hrole hts hparse hemit hroom'
        | lparen =>
          rw [exprGetPrim_lparen hrole]
          refine (ihInt 1 ts s (Nat.le_refl 1) (by decide) (by omega)).andThen hroom ?_
          intro t p vr s' st opP _ hts hparse hemit hstop hleft _ _
          obtain ⟨rfl, rfl⟩ := hleft.eq_of_stops hstop
          obtain ⟨rp, rest, rfl, hr⟩ | hfail := exprCloseParen_cases vr s'
          · refine ⟨_, exprCloseParen_rparen hr, .paren t, tok :: (p ++ [rp]), rest, s', ?_,
              .paren hrole hr hparse, hemit, stops_top _ _, .none rest⟩
            rw [hts, List.cons_append, List.append_assoc]
            rfl
          · rw [hfail]
            exact Ends.failed
        | other =>
          obtain ⟨diag, hfail⟩ := exprGetPrim_other env ts s hrole depth
          rw [hfail]
          exact Ends.failed
    · -- the operand of the level is the expression read so far by the loop
      have hloop : ∀ (t : ExprTree) (p vr : List ExprToken) (s' : SymbolTable × CodeState)
          (st : ExprState (List ExprToken)) (opP : Lex), ts = p ++ vr →
          Parses exprGrammar l t p → emitItems env s t.postorder = some s' →
          Stops exprGrammar (l + 1) vr → Left s' vr st opP → vr.length < ts.length →
          Ends env s ts l (exprLoop tokenLexer env depth st opP l) := by
        intro t p vr s' st opP hts hparse hemit hstop hleft hlt
        rw [exprLoop_left hleft, hts]
        exact ihLoop l t p vr s s' hl hl7 hparse hemit hstop (by omega)
      rw [exprGetInt]
      by_cases hmax : l = kPrioOpMax
      · subst hmax
        rw [if_neg (not_not.mpr rfl)]
        refine (ihPrim ts s (by omega)).andThen (Nat.le_refl _) ?_
        intro t p vr s' st opP _ hts hparse hemit hstop hleft _ hlt
        exact hloop t p vr s' st opP hts hparse hemit (hstop.mono (Nat.le_succ _)) hleft hlt
      · have hle : l ≤ 6 := by
          unfold kPrioOpMax at hmax
          omega
        rw [if_pos hmax]
        refine (ihInt (l + 1) ts s (by omega) (by omega) (by omega)).andThen (Nat.le_refl _) ?_
        intro t p vr s' st opP _ hts hparse hemit hstop hleft _ hlt
        exact hloop t p vr s' st opP hts (.up hl hle hparse) hemit hstop hleft hlt
    · obtain hend | ⟨tok, rest, b, rfl, htok, rfl⟩ := hstop.of_succ
      · obtain ⟨st, opP, hleft, hrun⟩ := exprLoop_stops env s hend
        exact ⟨_, hrun depth, x, tsx, vr, s, rfl, hx, hemitx, hend, hleft⟩
      · change Parses exprGrammar b.1.priority x tsx at hx
        change Ends env s₀ (tsx ++ tok :: rest) b.1.priority
          (exprLoop tokenLexer env (depth + 1) (exprSt (tok :: rest) s) .none b.1.priority)
        have hfree := (emitItems_eq_some hemitx).2.2
        have hlen := hx.length_postorder_le
        rw [List.length_cons] at hdepth
        rw [exprLoop_binary htok]
        have hle := (priority_bounds b).2
        refine (ihInt (b.1.priority + 1) rest s (by omega) (by omega) (by omega)).andThen ?_ ?_
        · rw [List.length_append, List.length_cons]
          omega
        · intro y p vr s₁ st opP _ hrest hy hemity hstop' hleft hroom hlt
          subst hrest
          refine ends_binary htok hx hemitx hy hemity hleft hroom fun t q s₂ ht hemit => ?_
          exact ihLoop b.1.priority t q vr s₀ s₂ hl hl7 ht hemit hstop' (by omega)

/-! ### The whole parser -/

/-- **An expression at the front** of the tokens, up to `rest`, which does not go on with a binary
operator. -/
def ExpressionAt (t : ExprTree) (ts rest : List ExprToken) : Prop :=
  ∃ p, ts = p ++ rest ∧ Parses exprGrammar kPrioOpMin t p
    ∧ ∀ tok ∈ rest.head?, tok.asBinary = none

def exprDepth (ts : List ExprToken) : Nat := 9 * ts.length + 8

theorem exprBuild_ends (env : ExprEnv) (ts : List ExprToken) (table : SymbolTable)
    (code : CodeState) {depth : Nat} (h : exprDepth ts ≤ depth) :
    Ends env (table, codeInit code) ts kPrioOpMin
      (exprBuild tokenLexer env depth ts table code) := by
  refine (expr_outcome env depth).2.1 kPrioOpMin ts _ (Nat.le_refl 1) (by decide) ?_
  unfold exprDepth at h
  unfold kPrioOpMin
  omega

theorem exprBuild_of_expressionAt (env : ExprEnv) {ts rest : List ExprToken} {t : ExprTree}
    (table : SymbolTable) (code : CodeState) (ht : ExpressionAt t ts rest)
    (hfits : t.postorder.length ≤ codeSizeCode) :
    ∃ code', Gives (exprBuild tokenLexer env · ts table code)
        (.ok ⟨rest, (itemsCode env table t.postorder).1, code'⟩ .none)
      ∧ code'.code = (itemsCode env table t.postorder).2 := by
  obtain ⟨p, rfl, hparse, hrest⟩ := ht
  have hstop : Stops exprGrammar kPrioOpMin rest := stops_one_iff.mpr hrest
  -- the program fits
  obtain ⟨⟨table', code'⟩, hemit⟩ : ∃ s', emitItems env (table, codeInit code) t.postorder = some s' := by
    refine (emitItems_isSome_iff env (table, codeInit code) _ (Nat.zero_le _)).mpr ?_
    rwa [show (codeInit code).firstFreeIns = 0 from rfl, Nat.zero_add]
  obtain ⟨htable, hcode, -⟩ := emitItems_eq_some hemit
  -- and the loop ends behind the expression
  obtain ⟨st, opP, hleft, hrun⟩ := exprLoop_stops env (table', code') hstop
  obtain ⟨rfl, rfl⟩ := hleft.eq_of_stops hstop
  have hloop := Gives.of_succ (f := fun depth => exprLoop tokenLexer env depth _ .none _)
    (Gives.const rfl) hrun
  refine ⟨code', ?_, hcode⟩
  have hgives := (parses_run hparse rest _ _ hemit).1 _ (hstop.mono (Nat.le_succ _)) hloop
  rw [← show table' = _ from htable]
  exact hgives

/-- **`Expr_Build` parses by precedence.** On every sequence of tokens the parser ends. It succeeds exactly
when an expression whose program fits is at the front and no binary operator follows; it leaves what
follows, and the program is the postfix traversal. Else it gives an error, unless there are more tokens than
a program has room for. The binary operators have the priorities of the grammar. -/
theorem exprBuild_spec (env : ExprEnv) (ts : List ExprToken) (table : SymbolTable)
    (code : CodeState) (depth : Nat) (hdepth : exprDepth ts ≤ depth) :
    (∃ r, exprBuild tokenLexer env depth ts table code = some r
      ∧ (∀ t rest, ExpressionAt t ts rest → t.postorder.length ≤ codeSizeCode →
        ∃ code', r = .ok ⟨rest, (itemsCode env table t.postorder).1, code'⟩ .none
          ∧ code'.code = (itemsCode env table t.postorder).2)
      ∧ ((∃ st opP, r = .ok st opP) ↔
        ∃ t rest, ExpressionAt t ts rest ∧ t.postorder.length ≤ codeSizeCode)
      ∧ (r = .aborted → codeSizeCode < ts.length))
    ∧ ∀ text, (lexGetBinop text).1.HasTablePriority := by
  refine ⟨?_, lexGetBinop_priority⟩
  obtain ⟨r, hr, hout⟩ := exprBuild_ends env ts table code hdepth
  have hreads : ∀ t rest, ExpressionAt t ts rest → t.postorder.length ≤ codeSizeCode →
      ∃ code', r = .ok ⟨rest, (itemsCode env table t.postorder).1, code'⟩ .none
        ∧ code'.code = (itemsCode env table t.postorder).2 := by
    intro t rest ht hfits
    obtain ⟨code', hgives, hcode⟩ := exprBuild_of_expressionAt env table code ht hfits
    exact ⟨code', Gives.eq_of_exprGet hgives hr, hcode⟩
  refine ⟨r, hr, hreads, ⟨?_, ?_⟩, ?_⟩
  · rintro ⟨st, opP, rfl⟩
    obtain ⟨t, p, vr, s', hts, hparse, hemit, hstop, -⟩ := hout
    refine ⟨t, vr, ⟨p, hts, hparse, stops_one_iff.mp hstop⟩, ?_⟩
    have hfits := (emitItems_isSome_iff env (table, codeInit code) _ (Nat.zero_le _)).mp ⟨s', hemit⟩
    rwa [show (codeInit code).firstFreeIns = 0 from rfl, Nat.zero_add] at hfits
  · rintro ⟨t, rest, ht, hfits⟩
    obtain ⟨code', rfl, -⟩ := hreads t rest ht hfits
    exact ⟨_, _, rfl⟩
  · rintro rfl
    have hlt : codeSizeCode < 0 + ts.length := hout
    rwa [Nat.zero_add] at hlt

def emptyEnv : ExprEnv where
  areaCurrentSymbol := 0
  curIdx := 0
  storageMapValue := .int 0 .pureInt
  storage_tag := Or.inl rfl

def emptyCode : CodeState := ⟨fun _ => default, 0, fun _ => default⟩

/-- `-1+2*3` -/
def negOnePlus : List ExprToken :=
  [.minus, .operand (.int 1) rfl, .plus, .operand (.int 2) rfl, .binop .mul rfl,
    .operand (.int 3) rfl]

theorem exprBuild_negOnePlus :
    ∃ code', exprBuild tokenLexer emptyEnv 62 negOnePlus default emptyCode
        = some (.ok ⟨[], default, code'⟩ .none)
      ∧ code'.code = [.value (.int 1 .pureInt), .operator .neg, .value (.int 2 .pureInt),
          .value (.int 3 .pureInt), .operator .mul, .operator .add] := by
  have hint : ∀ (l : Nat) (i : BitVec 32), 1 ≤ l → l ≤ 7 →
      Parses exprGrammar l (.operand ⟨.int i, rfl⟩) [.operand (.int i) rfl] :=
    fun l i hl hle => Parses.of_le (.operand rfl) hl hle (Nat.le_refl 7)
  -- `-1` is an operand of the sum,
  have hneg : Parses exprGrammar 3 (.unary .neg (.operand ⟨.int 1, rfl⟩))
      [.minus, .operand (.int 1) rfl] :=
    Parses.of_le (.unary rfl (hint 7 1 (by decide) (by decide))) (by decide) (by decide)
      (Nat.le_refl 7)
  -- and so is `2*3`
  have hmul : Parses exprGrammar 6
      (.binary ⟨.mul, rfl⟩ (.operand ⟨.int 2, rfl⟩) (.operand ⟨.int 3, rfl⟩))
      ([.operand (.int 2) rfl] ++ .binop .mul rfl :: [.operand (.int 3) rfl]) :=
    Parses.binary_of_level rfl rfl (hint 6 2 (by decide) (by decide))
      (hint 7 3 (by decide) (by decide))
  have hsum : Parses exprGrammar 3
      (.binary ⟨.add, rfl⟩ (.unary .neg (.operand ⟨.int 1, rfl⟩)) _)
      ([.minus, .operand (.int 1) rfl] ++ .plus :: ([.operand (.int 2) rfl]
        ++ .binop .mul rfl :: [.operand (.int 3) rfl])) :=
    Parses.binary_of_level rfl rfl hneg
      (Parses.of_le hmul (by decide) (by decide) (by decide))
  have hexpr : Parses exprGrammar kPrioOpMin _ negOnePlus :=
    Parses.of_le hsum (by decide) (by decide) (by decide)
  obtain ⟨⟨r, hr, hreads, -⟩, -⟩ :=
    exprBuild_spec emptyEnv negOnePlus default emptyCode 62 (by decide)
  obtain ⟨code', rfl, hcode⟩ :=
    hreads _ [] ⟨negOnePlus, (List.append_nil _).symm, hexpr, fun _ h => nomatch h⟩ (by decide)
  exact ⟨code', hr, hcode⟩

/-- **What follows an expression is left to the caller**: `1)` has no parse, and the parser reads
`1`. -/
theorem exprBuild_not_wholeSequence :
    (∃ st opP, exprBuild tokenLexer emptyEnv 26 [.operand (.int 1) rfl, .rparen] default emptyCode
      = some (.ok st opP))
    ∧ ¬ ∃ t, Parses exprGrammar kPrioOpMin t [.operand (.int 1) rfl, .rparen] := by
  have hrun : ∃ code, exprBuild tokenLexer emptyEnv 26 [.operand (.int 1) rfl, .rparen] default
      emptyCode = some (.ok ⟨[.rparen], default, code⟩ .none) := ⟨_, rfl⟩
  obtain ⟨code, hrun⟩ := hrun
  refine ⟨⟨_, _, hrun⟩, ?_⟩
  rintro ⟨t, hparse⟩
  -- with a parse, nothing would be left
  obtain ⟨code', hgives, -⟩ := exprBuild_of_expressionAt emptyEnv default emptyCode
    (show ExpressionAt t _ [] from ⟨_, (List.append_nil _).symm, hparse, fun _ h => nomatch h⟩)
    (Nat.le_trans hparse.length_postorder_le (by decide))
  cases Gives.eq_of_exprGet hgives hrun

end Asasm
