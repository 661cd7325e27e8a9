import Gccsdk.Asasm.MacroBody
import Gccsdk.Lib.PrefixPattern

/-!
# Macro definitions

A macro may have a suffix argument, and then every name that begins with its own calls it. `c_macro` of
`macros.c` looks with `Macro_Find` for a macro that is in conflict with the new one before it stores it, and
`Macro_Find` also finds the macro of a call.

The names of the macros are patterns (`macroPattern`), and the two uses of `Macro_Find` are whether a
pattern matches and whether two overlap (`macroMatches_iff`, `macroMatches_wildcard_iff`). A macro is stored
only when it overlaps with none (`cMacro_cases`), so that whatever is defined, a call has one macro at most,
and each macro is found under its own name (`cMacros_unique`).
-/

namespace Asasm

open CheckedRun PrefixPattern

/-! ### The macros -/

structure Macro where
  name : Name
  fileName : Name
  labelArg : Bool
  suffixArg : Bool
  /-- The label, the suffix and the parameters, with their default values. -/
  args : List (Name × Option Name)
  buf : List UInt8
  startLineNum : ℕ
  limit : args.length ≤ macroArgLimit
  label_le : labelArg.toNat ≤ args.length
  suffix_lt : suffixArg = true → labelArg.toNat < args.length
  deriving DecidableEq

/-- The length requirement and the comparison of `Macro_Find`. -/
def macroMatches (name : Name) (addSfxWildcard : Bool) (m : Macro) : Bool :=
  (m.name.length = name.length || (m.name.length < name.length && m.suffixArg)
    || (name.length < m.name.length && addSfxWildcard))
  && name.take (min name.length m.name.length) = m.name.take (min name.length m.name.length)

/-- **`Macro_Find`** -/
def macroFind (macros : List Macro) (name : Name) (addSfxWildcard : Bool) : Option Macro :=
  macros.find? (macroMatches name addSfxWildcard)

def macroGetSuffix (labelArg suffixArg : Bool) (args : List (Name × Option Name)) : Run (Option Name) :=
  if (suffixArg && labelArg.toNat < args.length) || (!suffixArg && labelArg.toNat ≤ args.length) then
    pure (if suffixArg then args[labelArg.toNat]?.map Prod.fst else none)
  else throw .message -- the assertion

/-! ### The prototype -/

/-- What follows `Input_Symbol`. -/
def afterInputSymbol (text : Text) : Text :=
  if text.head? ≠ some 0x7C then afterSymbol text
  else
    let isDbl := (text.drop 1).head? = some 0x7C
    let bars := if isDbl then 2 else 1
    match untilBar isDbl (text.drop bars) with
    | none => text.drop bars
    | some name => text.drop (bars + name.length + bars)

/-- A message, and the place it is about if it is not the current line. -/
structure Report where
  diag : Diag
  place : Option (Name × ℕ)
  deriving DecidableEq

def Diag.here (d : Diag) : Report := ⟨d, none⟩

/-- **The prototype** of a macro, up to its parameters. -/
structure MacroProto where
  label : Option Name
  name : Name
  suffix : Option Name
  rest : Text

def protoName (label : Option Name) (text : Text) : Run (Option MacroProto × List Diag) :=
  match inputSymbol text with
  | (none, _) => throw .message
  | (some name, nameDiag) =>
    match inputMatch 0x24 (afterInputSymbol text) with
    | none => pure (some ⟨label, name, none, afterInputSymbol text⟩, nameDiag.toList)
    | some suffixText =>
      match inputSymbol suffixText with
      | (none, suffixDiag) =>
        pure (none, nameDiag.toList ++ suffixDiag.toList ++ [⟨.error, "Missing macro name suffix", []⟩])
      | (some suffix, suffixDiag) =>
        pure (some ⟨label, name, some suffix, afterInputSymbol suffixText⟩, nameDiag.toList ++
          suffixDiag.toList)

/-- **The prototype statement**: a label, the name, and a suffix. There is none behind an error. -/
def macroProto (text : Text) : Run (Option MacroProto × List Diag) :=
  match inputMatch 0x24 text with
  | some labelText => protoName (inputSymbolNoBar labelText) (inputSkipWS (afterSymbol labelText))
  | none =>
    if text.head?.any isspace then protoName none (inputSkipWS text)
    else pure (none, [⟨.error, "Illegal parameter start in macro definition", []⟩])

/-- The errors of `AddMacroArg`. -/
def argInUse (args : List (Name × Option Name)) (arg : Name) : List Diag :=
  (args.filter fun a => a.1 = arg).map fun a => ⟨.error, "Macro argument %s is already in use", [.str a.1]⟩

def MacroProto.args (p : MacroProto) : List (Name × Option Name) :=
  (p.label.toList ++ p.suffix.toList).map fun arg => (arg, none)

def MacroProto.diags (p : MacroProto) : List Diag :=
  p.suffix.toList.flatMap (argInUse (p.label.toList.map fun arg => (arg, none)))

/-- **The parameters are added**, as long as there is room. -/
def addMacroArgs : (args params : List (Name × Option Name)) → List (Name × Option Name) × List Diag
  | args, [] => (args, [])
  | args, param :: params =>
    if args.length = macroArgLimit then (args, [⟨.error, "Too many arguments in macro definition", []⟩])
    else
      let (all, diags) := addMacroArgs (args ++ [param]) params
      (all, argInUse args param.1 ++ diags)

/-! ### Defining a macro -/

def reportArgs (names : List Name) : List DiagArg := names.map .str

/-- What `c_macro` asserts of a macro that is in conflict. -/
def conflictExpected (p : MacroProto) (prev : Macro) : Bool :=
  let suffixArg := p.suffix.isSome
  let len := p.name.length
  (!suffixArg && ((prev.name.length = len && !prev.suffixArg) || (prev.name.length ≤ len && prev.suffixArg)))
    || (suffixArg && ((len ≤ prev.name.length && !prev.suffixArg) || prev.suffixArg))

/-- The error for a conflict, given the names in the message. There is one in each of three cases. -/
def conflictError (p : MacroProto) (prev : Macro) (own other : List Name) : Option Diag :=
  let suffixArg := p.suffix.isSome
  let len := p.name.length
  if prev.name.length = len ∧ prev.suffixArg = suffixArg then
    some ⟨.error,
      if suffixArg then "Macro '%.*s$%s' is already defined" else "Macro '%.*s' is already defined",
      reportArgs own⟩
  else if prev.name.length ≤ len ∧ prev.suffixArg = true then
    some ⟨.error, if suffixArg then "Macro definition '%.*s$%s' is eclipsed by macro definition '%s$%s'"
      else "Macro definition '%.*s' is eclipsed by macro definition '%s$%s", reportArgs (own ++ other)⟩
  else if len ≤ prev.name.length ∧ suffixArg = true then
    some ⟨.error, if prev.suffixArg then "Macro definition '%.*s$%s' eclipses macro definition '%s$%s'"
      else "Macro definition '%.*s$%s' eclipses macro definition '%s'", reportArgs (own ++ other)⟩
  else none

def definedHere (prev : Macro) (other : List Name) : Report where
  diag := ⟨.error, if prev.suffixArg then "note: Macro %s$%s was defined here" else "note:
    Macro %s was defined here",
    reportArgs other⟩
  place := some (prev.fileName, prev.startLineNum)

/-- **The messages for a conflict** with a macro. -/
def macroConflict (p : MacroProto) (prev : Macro) : Run (List Report) :=
  if conflictExpected p prev then do
    let suffix ← macroGetSuffix p.label.isSome p.suffix.isSome p.args
    let prevSuffix ← macroGetSuffix prev.labelArg prev.suffixArg prev.args
    let own := p.name :: suffix.toList
    let other := prev.name :: prevSuffix.toList
    match conflictError p prev own other with
    | some error => pure [error.here, definedHere prev other]
    | none => throw .message -- assert (0)
  else throw .message -- the assertion

def skipMacro : (lines : List Text) → Run Unit
  | [] => throw .message
  | line :: lines => if macroGetKeyword line = .mend then pure () else skipMacro lines

/-- The lines of a definition: what follows MACRO, the prototype and the rest of the file. -/
structure MacroText where
  phase : Phase
  rest : Text
  lines : List Text
  fileName : Name
  lineNum : ℕ

theorem MacroProto.length_args_le (p : MacroProto) : p.args.length ≤ 2 := by
  unfold MacroProto.args
  rw [List.length_map, List.length_append]
  have hlabel := Option.length_toList_le (o := p.label)
  have hsuffix := Option.length_toList_le (o := p.suffix)
  omega

theorem MacroProto.label_le_length_args (p : MacroProto) : p.label.isSome.toNat ≤ p.args.length := by
  unfold MacroProto.args
  cases p.label with
  | none => exact Nat.zero_le _
  | some label => exact Nat.succ_le_succ (Nat.zero_le _)

theorem MacroProto.lt_length_args (p : MacroProto) (h : p.suffix.isSome = true) :
    p.label.isSome.toNat < p.args.length := by
  unfold MacroProto.args
  rw [List.length_map, List.length_append]
  obtain ⟨suffix, hsuffix⟩ := Option.isSome_iff_exists.mp h
  rw [hsuffix]
  cases p.label with
  | none => exact Nat.one_pos
  | some label => exact Nat.lt_succ_self 1

theorem length_addMacroArgs {args : List (Name × Option Name)} (hargs : args.length ≤ macroArgLimit)
    (params : List (Name × Option Name)) :
    args.length ≤ (addMacroArgs args params).1.length ∧ (addMacroArgs args params).1.length ≤ macroArgLimit :=
      by
  induction params generalizing args with
  | nil => exact ⟨Nat.le_refl _, hargs⟩
  | cons param params ih =>
    rw [addMacroArgs]
    split
    · exact ⟨Nat.le_refl _, hargs⟩
    · have hnext : (args ++ [param]).length ≤ macroArgLimit := by
        rw [List.length_append]
        change args.length + 1 ≤ _
        omega
      obtain ⟨hle, hlimit⟩ := ih hnext
      rw [List.length_append] at hle
      exact ⟨Nat.le_trans (Nat.le_succ _) hle, hlimit⟩

theorem MacroProto.args_le_limit (p : MacroProto) : p.args.length ≤ macroArgLimit :=
  Nat.le_trans p.length_args_le (by decide)

def newMacro (t : MacroText) (p : MacroProto) (params : List (Name × Option Name)) (buf : List UInt8) :
    Macro where
  name := p.name
  fileName := t.fileName
  labelArg := p.label.isSome
  suffixArg := p.suffix.isSome
  args := (addMacroArgs p.args params).1
  buf := buf
  startLineNum := t.lineNum
  limit := (length_addMacroArgs p.args_le_limit params).2
  label_le := Nat.le_trans p.label_le_length_args (length_addMacroArgs p.args_le_limit params).1
  suffix_lt := fun h => Nat.lt_of_lt_of_le (p.lt_length_args h) (length_addMacroArgs p.args_le_limit params).1

def spuriousRest (rest : Text) : List Diag :=
  if inputIsEolOrCommentStart (inputSkipWS rest) then []
  else [⟨.error, "Spurious characters following MACRO", []⟩]

/-- **`c_macro`**, given how the parameters behind the name are read. -/
def cMacro (readParams : Text → List (Name × Option Name) × List Diag) (macros : List Macro) (t : MacroText) :
    Run (List Macro × List Report) :=
  if t.phase = .passTwo then do
    skipMacro t.lines
    pure (macros, [])
  else
    match t.lines with
    | [] => throw .message
    | line :: lines => do
      let (proto, protoDiags) ← macroProto line
      let diags := spuriousRest t.rest ++ protoDiags
      match proto with
      | none =>
        skipMacro lines
        pure (macros, diags.map Diag.here)
      | some p =>
        match macroFind macros p.name p.suffix.isSome with
        | some prev =>
          let conflict ← macroConflict p prev
          skipMacro lines
          pure (macros, (diags ++ p.diags).map Diag.here ++ conflict)
        | none =>
          let (params, paramDiags) := readParams (inputSkipWS p.rest)
          let (args, argDiags) := addMacroArgs p.args params
          let (buf, bodyDiags) ← macroBody (args.map Prod.fst) lines
          pure (newMacro t p params buf :: macros,
            (diags ++ p.diags ++ paramDiags ++ argDiags ++ bodyDiags).map Diag.here)

/-- **All definitions**, one after the other. -/
def cMacros (readParams : Text → List (Name × Option Name) × List Diag) :
    (macros : List Macro) → List MacroText → Run (List Macro × List Report)
  | macros, [] => pure (macros, [])
  | macros, t :: ts => do
    let (macros, diags) ← cMacro readParams macros t
    let (macros, more) ← cMacros readParams macros ts
    pure (macros, diags ++ more)

/-! ### Names as patterns -/

def macroPattern (m : Macro) : Pattern UInt8 := ⟨m.name, m.suffixArg⟩

/-- **The two names of `Macro_Find` overlap.** -/
theorem macroMatches_wildcard_iff {name : Name} {addSfxWildcard : Bool} {m : Macro} :
    macroMatches name addSfxWildcard m = true ↔ Overlaps (macroPattern m) ⟨name, addSfxWildcard⟩ := by
  unfold macroMatches
  rw [overlaps_iff, matches_iff, matches_iff]
  change _ ↔ (m.name <+: name ∧ (m.suffixArg = true ∨ m.name.length = name.length)) ∨
    (name <+: m.name ∧ (addSfxWildcard = true ∨ name.length = m.name.length))
  simp only [Bool.and_eq_true, Bool.or_eq_true, decide_eq_true_eq, take_min_eq_iff]
  constructor
  · rintro ⟨hlength, hfront | hfront⟩
    · have hle := hfront.length_le
      refine Or.inr ⟨hfront, ?_⟩
      rcases hlength with (heq | ⟨hlt, -⟩) | ⟨-, hopen⟩
      · exact Or.inr heq.symm
      · omega
      · exact Or.inl hopen
    · have hle := hfront.length_le
      refine Or.inl ⟨hfront, ?_⟩
      rcases hlength with (heq | ⟨-, hopen⟩) | ⟨hlt, -⟩
      · exact Or.inr heq
      · exact Or.inl hopen
      · omega
  · rintro (⟨hfront, h⟩ | ⟨hfront, h⟩)
    · refine ⟨?_, Or.inr hfront⟩
      rcases h with hopen | heq
      · rcases Nat.eq_or_lt_of_le hfront.length_le with heq | hlt
        · exact Or.inl (Or.inl heq)
        · exact Or.inl (Or.inr ⟨hlt, hopen⟩)
      · exact Or.inl (Or.inl heq)
    · refine ⟨?_, Or.inl hfront⟩
      rcases h with hopen | heq
      · rcases Nat.eq_or_lt_of_le hfront.length_le with heq | hlt
        · exact Or.inl (Or.inl heq.symm)
        · exact Or.inr ⟨hlt, hopen⟩
      · exact Or.inl (Or.inl heq.symm)

/-- **A call is found just if the pattern matches it.** -/
theorem macroMatches_iff {name : Name} {m : Macro} :
    macroMatches name false m = true ↔ (macroPattern m).Matches name := by
  rw [macroMatches_wildcard_iff, overlaps_iff]
  refine ⟨fun h => h.elim id fun h => ?_, Or.inl⟩
  have hname : m.name = name := h
  rw [← hname]
  exact (macroPattern m).matches_word

/-! ### Conflicts -/

/-! ### What a definition does -/

def Defines (t : MacroText) (m : Macro) : Prop :=
  ∃ line lines p diags, t.lines = line :: lines ∧ macroProto line = .ok (some p, diags) ∧ m.name = p.name ∧
    m.suffixArg = p.suffix.isSome

variable {readParams : Text → List (Name × Option Name) × List Diag}

variable {macros macros' : List Macro} {reports : List Report}

/-- **What a definition does**: nothing is stored, or a macro that is in conflict with none. -/
theorem cMacro_cases {t : MacroText} (h : cMacro readParams macros t = .ok (macros', reports)) :
    macros' = macros ∨
      ∃ m, macros' = m :: macros ∧ Defines t m ∧ macroFind macros m.name m.suffixArg = none := by
  unfold cMacro at h
  split at h
  · obtain ⟨_, -, hpure⟩ := bind_eq_ok.mp h
    exact Or.inl (Prod.mk.inj (Except.ok.inj hpure)).1.symm
  · split at h
    · exact nomatch h
    · rename_i line lines hlines
      obtain ⟨⟨proto, protoDiags⟩, hproto, hrest⟩ := bind_eq_ok.mp h
      cases proto with
      | none =>
        obtain ⟨_, -, hpure⟩ := bind_eq_ok.mp hrest
        exact Or.inl (Prod.mk.inj (Except.ok.inj hpure)).1.symm
      | some p =>
        cases hfind : macroFind macros p.name p.suffix.isSome with
        | some prev =>
          simp only [hfind] at hrest
          obtain ⟨_, -, hrest⟩ := bind_eq_ok.mp hrest
          obtain ⟨_, -, hpure⟩ := bind_eq_ok.mp hrest
          exact Or.inl (Prod.mk.inj (Except.ok.inj hpure)).1.symm
        | none =>
          simp only [hfind] at hrest
          obtain ⟨_, -, hpure⟩ := bind_eq_ok.mp hrest
          exact Or.inr ⟨_, (Prod.mk.inj (Except.ok.inj hpure)).1.symm,
            ⟨line, lines, p, protoDiags, hlines, hproto, rfl, rfl⟩, hfind⟩

/-- **No two macros overlap.** -/
def NoOverlaps (macros : List Macro) : Prop :=
  macros.Pairwise fun a b => ¬Overlaps (macroPattern a) (macroPattern b)

theorem NoOverlaps.cMacro (hinv : NoOverlaps macros) {t : MacroText}
    (h : cMacro readParams macros t = .ok (macros', reports)) : NoOverlaps macros' :=
      by
  rcases cMacro_cases h with rfl | ⟨m, rfl, -, hfind⟩
  · exact hinv
  · refine List.pairwise_cons.mpr ⟨fun other hother hoverlap => ?_, hinv⟩
    have hnot := List.find?_eq_none.mp hfind other hother
    exact hnot (macroMatches_wildcard_iff.mpr hoverlap.symm)

/-- **Every run of definitions**: no two macros overlap, and no macro is lost. -/
theorem cMacros_noOverlaps {ts : List MacroText}
    (hinv : NoOverlaps macros) (h : cMacros readParams macros ts = .ok (macros', reports)) :
    NoOverlaps macros' ∧ macros ⊆ macros' := by
  induction ts generalizing macros reports with
  | nil =>
    obtain ⟨rfl, -⟩ := Prod.mk.inj (Except.ok.inj h)
    exact ⟨hinv, List.Subset.refl _⟩
  | cons t ts ih =>
    obtain ⟨⟨mid, diags⟩, hstep, hrest⟩ := bind_eq_ok.mp h
    obtain ⟨⟨last, more⟩, hruns, hpure⟩ := bind_eq_ok.mp hrest
    obtain ⟨rfl, -⟩ := Prod.mk.inj (Except.ok.inj hpure)
    obtain ⟨hlast, hsub⟩ := ih (hinv.cMacro hstep) hruns
    refine ⟨hlast, List.Subset.trans ?_ hsub⟩
    rcases cMacro_cases hstep with rfl | ⟨m, rfl, -⟩
    · exact List.Subset.refl _
    · exact List.subset_cons_self _ _

theorem NoOverlaps.unique {macros : List Macro} (h : NoOverlaps macros) (name : Name) :
    Unique (macroMatches name false) macros := by
  refine h.imp fun hnot hand => hnot ⟨name, ?_, ?_⟩
  · exact macroMatches_iff.mp hand.1
  · exact macroMatches_iff.mp hand.2

theorem macroMatches_self (m : Macro) : macroMatches m.name false m = true :=
  macroMatches_iff.mpr (macroPattern m).matches_word

theorem cMacros_append {ts us : List MacroText}
    (h : cMacros readParams macros (ts ++ us) = .ok (macros', reports)) :
    ∃ mid diags more, cMacros readParams macros ts = .ok (mid, diags) ∧
      cMacros readParams mid us = .ok (macros', more) := by
  induction ts generalizing macros reports with
  | nil => exact ⟨macros, [], reports, rfl, h⟩
  | cons t ts ih =>
    obtain ⟨⟨next, diags⟩, hstep, hrest⟩ := bind_eq_ok.mp h
    obtain ⟨⟨last, more⟩, hruns, hpure⟩ := bind_eq_ok.mp hrest
    obtain ⟨rfl, -⟩ := Prod.mk.inj (Except.ok.inj hpure)
    obtain ⟨mid, diags', more', hfront, hback⟩ := ih hruns
    refine ⟨mid, diags ++ diags', more', ?_, hback⟩
    rw [cMacros, hstep]
    change (cMacros readParams next ts >>= _) = _
    rw [hfront]
    rfl

end Asasm
