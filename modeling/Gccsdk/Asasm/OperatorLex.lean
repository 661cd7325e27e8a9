import Gccsdk.Lib.CharSwitch
import Gccsdk.Asasm.Variables
import Gccsdk.Asasm.Lex

/-!
# The names of operators

`Lex_GetUnaryOp`, `Lex_GetBinaryOp` and `Lex_GetBinop` of `lex.c`, character by character, with the place in
the line. The names stand between colons, and they are read by nested switches.

The binary operators are as they should be (`binopRight`). Among the unary ones a `break` is missing, so
that `:LOOT:` is read as `:LNOT:`, and behind a bad operand of `:DEF:` the wrong character is put back.
Elsewhere the names that are accepted are the operators, and the place is kept where none comes
(`operatorsRight_iff`).
-/

namespace Asasm

open CheckedRun CharSwitch

/-! ### The code -/

abbrev InputPos := Cursor UInt8

def finishStr (string : String) (op : Operator) (pri : ℕ) :
    Body UInt8 Lex := finish (cstr string) (.operator op pri)

def finishChr (op : Operator) (pri : ℕ) : Body UInt8 Lex := finish [0x3A] (.operator op pri)

/-- The value of `:DEF:`: whether a symbol is there and no local variable of a macro. -/
def definedValue (m : SymbolMap) (name : Name) : Bool :=
  match m.entries name with
  | some id => !isSet (m.heap.sym id).type symbolMacroLocal
  | none => false

/-- The case of `:DEF:`. It goes on behind the error for a bad operand. -/
def defOperand (m : SymbolMap) (getPrim : InputPos → Run (Lex × InputPos)) : Body UInt8 Lex := fun p =>
  match matchString (cstr "EF:") p with
  | none => pure (.broke p)
  | some p => do
    match ← getPrim p with
    | (.id name, p) => pure (.returned (.bool (definedValue m name)) p)
    | (_, p) => pure (.broke p) -- "Bad operand for :DEF:"

/-- The cases of `Lex_GetUnaryOp`. -/
def unaryCases (m : SymbolMap) (getPrim : InputPos → Run (Lex × InputPos)) : List (UInt8 × Body UInt8 Lex) :=
  [(0x42, finishStr "ASE:" .base kPrioOpUnary),
    (0x43, switch
      [(0x43, finishStr "_ENCODING:" .ccEnc kPrioOpUnary),
        (0x48, finishStr "R:" .chr kPrioOpUnary)]),
    (0x44, defOperand m getPrim),
    (0x46, switch
      [(0x41, finishStr "TTR:" .fAttr kPrioOpUnary),
        (0x45, finishStr "XEC:" .fExec kPrioOpUnary),
        (0x4C, finishStr "OAD:" .fLoad kPrioOpUnary),
        (0x53, finishStr "IZE:" .fSize kPrioOpUnary)]),
    (0x49, finishStr "NDEX:" .index kPrioOpUnary),
    (0x4C, switch
      [(0x45, finishStr "N:" .len kPrioOpUnary),
        -- no `break` here
        (0x4F, andThen (finishStr "WERCASE:" .lowerCase kPrioOpUnary) (finishStr "OT:" .lNot kPrioOpUnary)),
        (0x4E, finishStr "OT:" .lNot kPrioOpUnary)]),
    (0x4E, finishStr "OT:" .not kPrioOpUnary),
    (0x52, switch
      [(0x43, finishStr "ONST:" .rConst kPrioOpUnary),
        (0x45, finishStr "VERSE_CC:" .revCC kPrioOpUnary)]),
    (0x53, finishStr "TR:" .str kPrioOpUnary),
    (0x55, finishStr "PPERCASE:" .upperCase kPrioOpUnary)]

/-- **`Lex_GetUnaryOp`**, behind the colon, given how `Lex_GetPrim` reads the operand of `:DEF:`. -/
def lexGetUnaryOp (m : SymbolMap) (getPrim : InputPos → Run (Lex × InputPos)) (p : InputPos) :
    Run (Lex × InputPos) := do
  match ← switch (unaryCases m getPrim) p with
  | .returned lex p => pure (lex, p)
  | .broke p => pure (.none, p)

/-- The cases of `Lex_GetBinaryOp`. -/
def binaryCases : List (UInt8 × Body UInt8 Lex) :=
  [(0x41, switch
      [(0x4E, finishStr "D:" .and kPrioOpAddAndLogical),
        (0x53, finishStr "R:" .asr kPrioOpShift)]),
    (0x43, finishStr "C:" .concat kPrioOpString),
    (0x45, finishStr "OR:" .xor kPrioOpAddAndLogical),
    (0x4C, switch
      [(0x41, finishStr "ND:" .lAnd kPrioOpBoolean),
        (0x45, switch
          [(0x46, finishStr "T:" .left kPrioOpString),
            (0x4F, finishStr "R:" .lEOr kPrioOpBoolean)]),
        (0x4F, finishStr "R:" .lOr kPrioOpBoolean)]),
    (0x4D, finishStr "OD:" .mod kPrioOpMultiplicative),
    (0x4F, finishStr "R:" .or kPrioOpAddAndLogical),
    (0x52, switch
      [(0x49, finishStr "GHT:" .right kPrioOpString),
        (0x4F, switch
          [(0x4C, finishChr .rol kPrioOpShift),
            (0x52, finishChr .ror kPrioOpShift)])]),
    (0x53, switch
      [(0x48, switch
        [(0x4C, finishChr .shl kPrioOpShift),
          (0x52, finishChr .shr kPrioOpShift)])])]

/-- **`Lex_GetBinaryOp`**, behind the colon. -/
def lexGetBinaryOpAt (p : InputPos) : Run (Lex × InputPos) := do
  match ← switch binaryCases p with
  | .returned lex p => pure (lex, p)
  | .broke p => pure (.none, p)

/-- `Input_SkipWS` -/
def skipWSAt (p : InputPos) : InputPos := p.advance (p.rest.takeWhile isspace).length

/-- One sign or two, after `Input_Match`. -/
def signOrAt (second : UInt8) (double single : Operator × ℕ) (p : InputPos) : Run (Lex × InputPos) :=
  match matchString [second] p with
  | some p => pure (.operator double.1 double.2, p)
  | none => pure (.operator single.1 single.2, p)

/-- What follows `>`. -/
def greaterAt (p : InputPos) : Run (Lex × InputPos) :=
  match p.rest.head? with
  | some 0x3E => signOrAt 0x3E (.asr, kPrioOpShift) (.shr, kPrioOpShift) (p.advance 1)
  | some 0x3D => pure (.operator .ge kPrioOpRelational, p.advance 1)
  | _ => pure (.operator .gt kPrioOpRelational, p)

/-- What follows `<`. -/
def lessAt (p : InputPos) : Run (Lex × InputPos) :=
  match p.rest.head? with
  | some 0x3C => pure (.operator .shl kPrioOpShift, p.advance 1)
  | some 0x3D => pure (.operator .le kPrioOpRelational, p.advance 1)
  | some 0x3E => pure (.operator .ne kPrioOpRelational, p.advance 1)
  | _ => pure (.operator .lt kPrioOpRelational, p)

def noBinop (c : Option UInt8) (p : InputPos) : Run (Lex × InputPos) := do
  let p ← unGetC c p
  pure (.none, p)

/-- **`Lex_GetBinop`** -/
def lexGetBinopAt (p : InputPos) : Run (Lex × InputPos) :=
  let (c, p) := getC (skipWSAt p)
  match c with
  | some 0x2A => pure (.operator .mul kPrioOpMultiplicative, p)
  | some 0x2F => signOrAt 0x3D (.ne, kPrioOpRelational) (.div, kPrioOpMultiplicative) p
  | some 0x25 => pure (.operator .mod kPrioOpMultiplicative, p)
  | some 0x2B => pure (.operator .add kPrioOpAddAndLogical, p)
  | some 0x2D => pure (.operator .sub kPrioOpAddAndLogical, p)
  | some 0x3E => greaterAt p
  | some 0x3C => lessAt p
  | some 0x3D => signOrAt 0x3D (.eq, kPrioOpRelational) (.eq, kPrioOpRelational) p
  | some 0x21 =>
    match matchString [0x3D] p with
    | some p => pure (.operator .ne kPrioOpRelational, p)
    | none => noBinop c p
  | some 0x7C => signOrAt 0x7C (.lOr, kPrioOpBoolean) (.or, kPrioOpAddAndLogical) p
  | some 0x26 => signOrAt 0x26 (.lAnd, kPrioOpBoolean) (.and, kPrioOpAddAndLogical) p
  | some 0x3A => do
    match ← lexGetBinaryOpAt p with
    | (.none, p) => noBinop (some 0x3A) p
    | r => pure r
  | some 0x5E =>
    -- at the end of a line it might be the one of a register list
    if inputIsEolOrCommentStart (inputSkipWS p.rest) then noBinop c p
    else pure (.operator .xor kPrioOpAddAndLogical, p)
  | _ => noBinop c p

/-! ### The operators -/

/-- **The names of the unary operators**, with the colon behind them. There is also DEF. -/
def unaryNames : List (Name × Lex) :=
  [(cstr "BASE:", .operator .base kPrioOpUnary), (cstr "CC_ENCODING:", .operator .ccEnc kPrioOpUnary),
    (cstr "CHR:", .operator .chr kPrioOpUnary), (cstr "FATTR:", .operator .fAttr kPrioOpUnary),
    (cstr "FEXEC:", .operator .fExec kPrioOpUnary), (cstr "FLOAD:", .operator .fLoad kPrioOpUnary),
    (cstr "FSIZE:", .operator .fSize kPrioOpUnary), (cstr "INDEX:", .operator .index kPrioOpUnary),
    (cstr "LEN:", .operator .len kPrioOpUnary), (cstr "LOWERCASE:", .operator .lowerCase kPrioOpUnary),
    (cstr "LNOT:", .operator .lNot kPrioOpUnary), (cstr "NOT:", .operator .not kPrioOpUnary),
    (cstr "RCONST:", .operator .rConst kPrioOpUnary), (cstr "REVERSE_CC:", .operator .revCC kPrioOpUnary),
    (cstr "STR:", .operator .str kPrioOpUnary), (cstr "UPPERCASE:", .operator .upperCase kPrioOpUnary)]

/-- **The names of the binary operators**, with the colon behind them. -/
def binaryNames : List (Name × Lex) := binaryOps.map fun e => (e.1, .operator e.2.1 e.2.2)

/-- What reading a name is to give: the operator and the place behind it, or none and the same place. -/
def readName (names : List (Name × Lex)) (p : InputPos) : Lex × InputPos :=
  match wordAt names p.rest with
  | some w => (w.2, p.advance w.1.length)
  | none => (.none, p)

/-- What reading a unary operator is to give. `:DEF:` needs a symbol behind it. -/
def expectedUnary (m : SymbolMap) (getPrim : InputPos → Run (Lex × InputPos)) (p : InputPos) :
    Lex × InputPos :=
  if cstr "DEF:" <+: p.rest then
    match getPrim (p.advance 4) with
    | .ok (.id name, q) => (.bool (definedValue m name), q)
    | _ => (.none, p)
  else readName unaryNames p

/-- **The unary operators are right** at a place. -/
def UnaryRight (m : SymbolMap) (getPrim : InputPos → Run (Lex × InputPos)) (p : InputPos) : Prop :=
  lexGetUnaryOp m getPrim p = .ok (expectedUnary m getPrim p)

/-- What reading a binary operator is to give at a place: a name between colons is read just if it is one of
theirs, and where there is no operator the place is kept. -/
def BinopResult (p : InputPos) (run : Run (Lex × InputPos)) : Prop :=
  ∃ lex q, run = .ok (lex, q) ∧ (lex = .none → q = p) ∧
    ∀ rest, p.rest = 0x3A :: rest →
      (lex, q) = match wordAt binaryNames rest with
        | some w => (w.2, p.advance (w.1.length + 1))
        | none => (.none, p)

/-- **The binary operators are right** at a place, behind the blanks that are skipped. -/
def BinopRight (p : InputPos) : Prop := BinopResult (skipWSAt p) (lexGetBinopAt p)

/-! ### What the switches accept -/

variable {m : SymbolMap} {getPrim : InputPos → Run (Lex × InputPos)} {P : Text → Prop}

theorem reads_finishStr (string : String) (op : Operator) (pri : ℕ) :
    Reads P (finishStr string op pri) [(cstr string, .operator op pri)] := reads_finish _ _

theorem reads_finishChr (op : Operator) (pri : ℕ) :
    Reads P (finishChr op pri) [([0x3A], .operator op pri)] := reads_finish _ _

theorem reads_defOperand : Reads (fun rest => ¬cstr "EF:" <+: rest) (defOperand m getPrim) [] := by
  intro p hp
  unfold defOperand matchString
  rw [if_neg hp]
  rfl

/-- What `Lex_GetUnaryOp` accepts, without DEF. -/
def acceptedUnary : List (Name × Lex) :=
  unaryNames.take 10 ++ (cstr "LOOT:", .operator .lNot kPrioOpUnary) :: unaryNames.drop 10

theorem reads_unaryCases :
    Reads (fun text => ¬cstr "DEF:" <+: text) (switch (unaryCases m getPrim)) acceptedUnary := by
  have hswitch : Reads _ (switch (unaryCases m getPrim)) _ :=
    Reads.switch (Q := fun c rest => c = 0x44 → ¬cstr "EF:" <+: rest)
    (.cons (reads_finishStr "ASE:" .base kPrioOpUnary) <|
      .cons (.switch_all (.cons (reads_finishStr "_ENCODING:" .ccEnc kPrioOpUnary) <|
        .cons (reads_finishStr "R:" .chr kPrioOpUnary) .nil) (by decide)) <|
      .cons (reads_defOperand.mono fun _ h => h rfl) <|
      .cons (.switch_all (.cons (reads_finishStr "TTR:" .fAttr kPrioOpUnary) <|
        .cons (reads_finishStr "XEC:" .fExec kPrioOpUnary) <|
        .cons (reads_finishStr "OAD:" .fLoad kPrioOpUnary) <|
        .cons (reads_finishStr "IZE:" .fSize kPrioOpUnary) .nil) (by decide)) <|
      .cons (reads_finishStr "NDEX:" .index kPrioOpUnary) <|
      .cons (.switch_all (.cons (reads_finishStr "N:" .len kPrioOpUnary) <|
        .cons ((reads_finishStr "WERCASE:" .lowerCase kPrioOpUnary).andThen
          (reads_finishStr "OT:" .lNot kPrioOpUnary)) <|
        .cons (reads_finishStr "OT:" .lNot kPrioOpUnary) .nil) (by decide)) <|
      .cons (reads_finishStr "OT:" .not kPrioOpUnary) <|
      .cons (.switch_all (.cons (reads_finishStr "ONST:" .rConst kPrioOpUnary) <|
        .cons (reads_finishStr "VERSE_CC:" .revCC kPrioOpUnary) .nil) (by decide)) <|
      .cons (reads_finishStr "TR:" .str kPrioOpUnary) <|
      .cons (reads_finishStr "PPERCASE:" .upperCase kPrioOpUnary) .nil)
    (show ([0x42, 0x43, 0x44, 0x46, 0x49, 0x4C, 0x4E, 0x52, 0x53, 0x55] : List UInt8).Nodup by decide)
  convert hswitch.mono ?_ using 1
  · decide
  · rintro text htext c rest rfl rfl hrest
    exact htext (List.prefix_cons_inj 0x44 |>.mpr hrest)

theorem reads_binaryCases : Reads (fun _ => True) (switch binaryCases) binaryNames := by
  have hswitch : Reads (fun _ => True) (switch binaryCases) _ := Reads.switch_all
    (.cons (.switch_all (.cons (reads_finishStr "D:" .and kPrioOpAddAndLogical) <|
        .cons (reads_finishStr "R:" .asr kPrioOpShift) .nil) (by decide)) <|
      .cons (reads_finishStr "C:" .concat kPrioOpString) <|
      .cons (reads_finishStr "OR:" .xor kPrioOpAddAndLogical) <|
      .cons (.switch_all (.cons (reads_finishStr "ND:" .lAnd kPrioOpBoolean) <|
        .cons (.switch_all (.cons (reads_finishStr "T:" .left kPrioOpString) <|
          .cons (reads_finishStr "R:" .lEOr kPrioOpBoolean) .nil) (by decide)) <|
        .cons (reads_finishStr "R:" .lOr kPrioOpBoolean) .nil) (by decide)) <|
      .cons (reads_finishStr "OD:" .mod kPrioOpMultiplicative) <|
      .cons (reads_finishStr "R:" .or kPrioOpAddAndLogical) <|
      .cons (.switch_all (.cons (reads_finishStr "GHT:" .right kPrioOpString) <|
        .cons (.switch_all (.cons (reads_finishChr .rol kPrioOpShift) <|
          .cons (reads_finishChr .ror kPrioOpShift) .nil) (by decide)) .nil) (by decide)) <|
      .cons (.switch_all (.cons (.switch_all (.cons (reads_finishChr .shl kPrioOpShift) <|
        .cons (reads_finishChr .shr kPrioOpShift) .nil) (by decide)) .nil) (by decide)) .nil)
    (by decide)
  convert hswitch using 1
  decide

/-! ### Unary operators -/

theorem lexGetUnaryOp_of_not_def {p : InputPos} (hdef : ¬cstr "DEF:" <+: p.rest) :
    lexGetUnaryOp m getPrim p = .ok (readName acceptedUnary p) := by
  unfold lexGetUnaryOp readName
  rw [reads_unaryCases p hdef, ok_bind]
  unfold outcome
  cases wordAt acceptedUnary p.rest with
  | some w => rfl
  | none => rfl

theorem wordAt_unaryNames_loot {text : Text} (h : cstr "LOOT:" <+: text) {names : List (Name × Lex)}
    (hnames : names ⊆ unaryNames) : wordAt names text = none := by
  have hapart : ∀ w ∈ unaryNames, ¬w.1 <+: cstr "LOOT:" ∧ ¬cstr "LOOT:" <+: w.1 := by decide
  refine List.find?_eq_none.mpr fun w hw hfront => ?_
  obtain ⟨hnot, hnot'⟩ := hapart w (hnames hw)
  rcases List.prefix_or_prefix_of_prefix (of_decide_eq_true hfront) h with hle | hle
  · exact hnot hle
  · exact hnot' hle

theorem readName_acceptedUnary_iff {p : InputPos} :
    readName acceptedUnary p = readName unaryNames p ↔ ¬cstr "LOOT:" <+: p.rest := by
  have haccepted : wordAt acceptedUnary p.rest = (wordAt (unaryNames.take 10) p.rest).or
      (wordAt ((cstr "LOOT:", .operator .lNot kPrioOpUnary) :: unaryNames.drop 10) p.rest) := wordAt_append ..
  have hnames : wordAt unaryNames p.rest =
      (wordAt (unaryNames.take 10) p.rest).or (wordAt (unaryNames.drop 10) p.rest) := by
    rw [← wordAt_append, List.take_append_drop]
  by_cases hloot : cstr "LOOT:" <+: p.rest
  · refine iff_of_false (fun hsame => ?_) (not_not.mpr hloot)
    have hword : wordAt acceptedUnary p.rest = some (cstr "LOOT:", .operator .lNot kPrioOpUnary) := by
      rw [haccepted, wordAt_unaryNames_loot hloot (List.take_subset 10 unaryNames), Option.none_or]
      unfold wordAt
      rw [List.find?_cons_of_pos]
      exact decide_eq_true hloot
    unfold readName at hsame
    rw [hword, wordAt_unaryNames_loot hloot (List.Subset.refl _)] at hsame
    exact nomatch (Prod.mk.inj hsame).1
  · refine iff_of_true ?_ hloot
    have hskip : wordAt ((cstr "LOOT:", .operator .lNot kPrioOpUnary) :: unaryNames.drop 10) p.rest =
        wordAt (unaryNames.drop 10) p.rest :=
      List.find?_cons_of_neg fun h => hloot (of_decide_eq_true h)
    unfold readName
    rw [haccepted, hskip, ← hnames]

theorem lexGetUnaryOp_def {p : InputPos} (hdef : cstr "DEF:" <+: p.rest) :
    lexGetUnaryOp m getPrim p = (do
      match ← getPrim (p.advance 4) with
      | (.id name, q) => pure (.bool (definedValue m name), q)
      | (_, q) => do
        let q ← unGetC (some 0x44) q
        pure (.none, q)) := by
  obtain ⟨before, rest⟩ := p
  obtain ⟨text, rfl⟩ : ∃ text, rest = 0x44 :: 0x45 :: 0x46 :: 0x3A :: text := by
    obtain ⟨text, htext⟩ := hdef
    exact ⟨text, htext.symm⟩
  have hcase : caseOf (unaryCases m getPrim) (some 0x44) = defOperand m getPrim := rfl
  have hmatch : matchString (cstr "EF:") (Cursor.mk (0x44 :: before) (0x45 :: 0x46 :: 0x3A :: text)) =
      some ((Cursor.mk before (0x44 :: 0x45 :: 0x46 :: 0x3A :: text)).advance 4) := by
    refine if_pos ⟨text, rfl⟩
  unfold lexGetUnaryOp switch
  have hget : getC (Cursor.mk before (0x44 :: 0x45 :: 0x46 :: 0x3A :: text)) =
      (some 0x44, ⟨0x44 :: before, 0x45 :: 0x46 :: 0x3A :: text⟩) := rfl
  rw [hget]
  dsimp only
  rw [hcase]
  unfold defOperand
  rw [hmatch]
  dsimp only
  cases getPrim ((Cursor.mk before (0x44 :: 0x45 :: 0x46 :: 0x3A :: text)).advance 4) with
  | error stop => rfl
  | ok r =>
    obtain ⟨lex, q⟩ := r
    cases lex with
    | id name => rfl
    | _ =>
      change (unGetC (some 0x44) q >>= _ >>= _) = (unGetC (some 0x44) q >>= _)
      cases unGetC (some 0x44) q with
      | error stop => rfl
      | ok q => rfl

/-- The primary behind `:DEF:` is a symbol. -/
def DefOperandOk (getPrim : InputPos → Run (Lex × InputPos)) (p : InputPos) : Prop :=
  cstr "DEF:" <+: p.rest → ∃ name q, getPrim (p.advance 4) = .ok (.id name, q)

/-- **With DEF it is the operand that counts**: where it is no symbol, the place is lost. -/
theorem unaryRight_def_iff (hforward : ∀ p lex q, getPrim p = .ok (lex, q) →
    p.before.length ≤ q.before.length)
    {p : InputPos} (hdef : cstr "DEF:" <+: p.rest) : UnaryRight m getPrim p ↔ DefOperandOk getPrim p := by
  unfold UnaryRight expectedUnary
  rw [lexGetUnaryOp_def hdef, if_pos hdef]
  have hlength : p.before.length + 4 ≤ (p.advance 4).before.length := by
    have hle : 4 ≤ p.rest.length := hdef.length_le
    unfold Cursor.advance
    dsimp only
    rw [List.length_append, List.length_reverse, List.length_take, Nat.min_eq_left hle, Nat.add_comm]
  cases hprim : getPrim (p.advance 4) with
  | error stop =>
    refine iff_of_false nofun fun hok => ?_
    obtain ⟨name, q, hq⟩ := hok hdef
    rw [hprim] at hq
    exact nomatch hq
  | ok r =>
    obtain ⟨lex, q⟩ := r
    have hq := hforward _ _ _ hprim
    by_cases hid : ∃ name, lex = .id name
    · obtain ⟨name, rfl⟩ := hid
      exact iff_of_true rfl fun _ => ⟨name, q, hprim⟩
    · refine iff_of_false (fun hright => ?_) fun hok => ?_
      · -- the reader is at least three characters too far
        have hback : (unGetC (some 0x44) q >>= fun q => pure (Lex.none, q) : Run (Lex × InputPos)) =
          .ok (.none, p) := by
          cases lex with
          | id name => exact absurd ⟨name, rfl⟩ hid
          | _ => exact hright
        obtain ⟨q', hunget, hpure⟩ := bind_eq_ok.mp hback
        obtain ⟨-, rfl⟩ := Prod.mk.inj (Except.ok.inj hpure)
        have hle := length_le_of_unGetC hunget
        omega
      · obtain ⟨name, q', hq'⟩ := hok hdef
        rw [hprim] at hq'
        exact hid ⟨name, (Prod.mk.inj (Except.ok.inj hq')).1⟩

/-- **The unary operators are right** but for LOOT and bad operands of DEF. -/
theorem unaryRight_iff (hforward : ∀ p lex q, getPrim p = .ok (lex, q) → p.before.length ≤ q.before.length)
    (p : InputPos) : UnaryRight m getPrim p ↔ ¬cstr "LOOT:" <+: p.rest ∧ DefOperandOk getPrim p := by
  by_cases hdef : cstr "DEF:" <+: p.rest
  · rw [unaryRight_def_iff hforward hdef]
    refine (and_iff_right fun hloot => ?_).symm
    rcases List.prefix_or_prefix_of_prefix hdef hloot with hle | hle
    · exact absurd hle (by decide)
    · exact absurd hle (by decide)
  · have hok : DefOperandOk getPrim p := fun h => absurd h hdef
    rw [and_iff_left hok, ← readName_acceptedUnary_iff]
    unfold UnaryRight expectedUnary
    rw [lexGetUnaryOp_of_not_def hdef, if_neg hdef]
    exact ⟨Except.ok.inj, congrArg Except.ok⟩

/-! ### Binary operators -/

theorem binaryNames_ne_none : ∀ w ∈ binaryNames, w.2 ≠ .none := by
  intro w hw
  obtain ⟨e, -, rfl⟩ := List.mem_map.mp hw
  exact nofun

theorem signOrAt_ok (second : UInt8) (double single : Operator × ℕ) (p : InputPos) :
    ∃ op pri q, signOrAt second double single p = .ok (.operator op pri, q) := by
  unfold signOrAt
  split
  · exact ⟨_, _, _, rfl⟩
  · exact ⟨_, _, _, rfl⟩

theorem greaterAt_ok (p : InputPos) : ∃ op pri q, greaterAt p = .ok (.operator op pri, q) := by
  unfold greaterAt
  split
  · exact signOrAt_ok ..
  · exact ⟨_, _, _, rfl⟩
  · exact ⟨_, _, _, rfl⟩

theorem lessAt_ok (p : InputPos) : ∃ op pri q, lessAt p = .ok (.operator op pri, q) := by
  unfold lessAt
  split <;> exact ⟨_, _, _, rfl⟩

theorem lexGetBinaryOpAt_eq (p : InputPos) : lexGetBinaryOpAt p = .ok (readName binaryNames p) := by
  unfold lexGetBinaryOpAt readName
  rw [reads_binaryCases p trivial, ok_bind]
  unfold outcome
  cases wordAt binaryNames p.rest with
  | some w => rfl
  | none => rfl

/-- **The binary operators are right** everywhere. -/
theorem binopRight (p : InputPos) : BinopRight p := by
  unfold BinopRight lexGetBinopAt
  generalize skipWSAt p = p₀
  obtain ⟨before, rest⟩ := p₀
  have hnone : noBinop (getC ⟨before, rest⟩).1 (getC ⟨before, rest⟩).2 = .ok (.none, ⟨before, rest⟩) := by
    unfold noBinop
    rw [unGetC_getC]
    rfl
  cases rest with
  | nil => exact ⟨.none, ⟨before, []⟩, hnone, fun _ => rfl, nofun⟩
  | cons c rest =>
    have hget : getC (Cursor.mk before (c :: rest)) = (some c, ⟨c :: before, rest⟩) := rfl
    rw [hget] at hnone ⊢
    dsimp only at hnone ⊢
    by_cases hcolon : c = 0x3A
    · subst hcolon
      change BinopResult _ (lexGetBinaryOpAt _ >>= _)
      rw [lexGetBinaryOpAt_eq, ok_bind]
      unfold readName
      dsimp only
      cases hword : wordAt binaryNames rest with
      | none =>
        refine ⟨.none, ⟨before, 0x3A :: rest⟩, hnone, fun _ => rfl, fun rest' hrest => ?_⟩
        obtain rfl := (List.cons.inj hrest).2
        rw [hword]
      | some w =>
        have hw := binaryNames_ne_none w (List.mem_of_find?_eq_some hword)
        refine ⟨w.2, (Cursor.mk (0x3A :: before) rest).advance w.1.length, ?_, fun h => absurd h hw,
          fun rest' hrest => ?_⟩
        · obtain ⟨name, lex⟩ := w
          cases lex with
          | none => exact absurd rfl hw
          | _ => rfl
        · obtain rfl := (List.cons.inj hrest).2
          rw [hword]
          dsimp only
          rw [Cursor.advance_succ]
    · -- the other signs are operators, or they are put back
      have hoperator : ∀ {run : Run (Lex × InputPos)}, (∃ op pri q, run = .ok (.operator op pri, q)) →
          BinopResult ⟨before, c :: rest⟩ run := by
        rintro _ ⟨op, pri, q, rfl⟩
        exact ⟨_, q, rfl, nofun, fun rest' hrest => absurd (List.cons.inj hrest).1 hcolon⟩
      have hback : BinopResult ⟨before, c :: rest⟩ (noBinop (some c) ⟨c :: before, rest⟩) :=
        ⟨.none, _, hnone, fun _ => rfl, fun rest' hrest => absurd (List.cons.inj hrest).1 hcolon⟩
      split
      case h_1 | h_3 | h_4 | h_5 => exact hoperator ⟨_, _, _, rfl⟩
      case h_2 | h_8 | h_10 | h_11 => exact hoperator (signOrAt_ok ..)
      case h_6 => exact hoperator (greaterAt_ok _)
      case h_7 => exact hoperator (lessAt_ok _)
      case h_9 h =>
        split
        · exact hoperator ⟨_, _, _, rfl⟩
        · exact hback
      case h_12 h => exact absurd (Option.some.inj h) hcolon
      case h_13 h =>
        split
        · exact hback
        · exact hoperator ⟨_, _, _, rfl⟩
      case h_14 => exact hback

/-- **The operators are right just without the two slips**: `:LOOT:` does not come, and behind `:DEF:` comes
a symbol. Nothing else is asked of `Lex_GetPrim` than that it does not go back. -/
theorem operatorsRight_iff (m : SymbolMap) (getPrim : InputPos → Run (Lex × InputPos))
    (hforward : ∀ p lex q, getPrim p = .ok (lex, q) → p.before.length ≤ q.before.length) (p : InputPos) :
    (UnaryRight m getPrim p ∧ BinopRight p) ↔ ¬cstr "LOOT:" <+: p.rest ∧ DefOperandOk getPrim p := by
  rw [and_iff_left (binopRight p)]
  exact unaryRight_iff hforward p

def getSymbol (p : InputPos) : Run (Lex × InputPos) :=
  match inputSymbolNoBar p.rest with
  | some name => pure (.id name, p.advance name.length)
  | none => pure (.none, p)

theorem getSymbol_forward (p : InputPos) (lex : Lex) (q : InputPos) (h : getSymbol p = .ok (lex, q)) :
    p.before.length ≤ q.before.length := by
  unfold getSymbol at h
  split at h
  · rw [← (Prod.mk.inj (Except.ok.inj h)).2]
    unfold Cursor.advance
    rw [List.length_append]
    exact Nat.le_add_left _ _
  · rw [← (Prod.mk.inj (Except.ok.inj h)).2]

/-- `:LNOT:` and a symbol. -/
theorem operatorsRight_lnot :
    UnaryRight .empty getSymbol ⟨[0x3A], cstr "LNOT:x"⟩ ∧ BinopRight ⟨[0x3A], cstr "LNOT:x"⟩ :=
  (operatorsRight_iff .empty getSymbol getSymbol_forward _).mpr
    ⟨by decide, fun h => absurd h (by decide)⟩

/-- **`:LOOT:` is read as an operator.** -/
theorem not_operatorsRight : ¬(UnaryRight .empty getSymbol ⟨[0x3A], cstr "LOOT:x"⟩ ∧ BinopRight ⟨[0x3A],
    cstr "LOOT:x"⟩) := by
  rintro ⟨hunary, -⟩
  exact ((unaryRight_iff getSymbol_forward _).mp hunary).1 (by decide)

end Asasm
