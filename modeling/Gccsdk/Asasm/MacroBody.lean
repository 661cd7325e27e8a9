import Gccsdk.Asasm.ArgSub

/-!
# Macro bodies

The lines of a macro are compiled by `c_macro` of `macros.c`: a reference to a parameter becomes one control
character (14 for the first parameter), everything else is copied, and each line ends with a newline. When
the macro is called, `Macro_GetLine` reads them back into the buffer for lines, with the arguments instead
of the control characters.

A line comes back as it is to be, with its arguments, or it is too long and the assembler gives up. But the
reading also stops where the buffer is exactly full, and then the rest of the line is taken as another line
(`bodyRight_iff`).
-/

namespace Asasm

open CheckedRun

/-! ### Compiling -/

def macroArg0 : ℕ := 14

def macroArgLimit : ℕ := 18

def argMarker (i : ℕ) : UInt8 := UInt8.ofNat (macroArg0 + i)

def markedArg (c : UInt8) : Option ℕ :=
  if macroArg0 ≤ c.toNat ∧ c.toNat < macroArg0 + macroArgLimit then some (c.toNat - macroArg0) else none

/-- What follows `Input_SymbolNoBar`. -/
def afterSymbol (text : Text) : Text := text.drop ((inputSymbolNoBar text).getD []).length

def missingBar : Diag := ⟨.error, "Missing vertical bar", []⟩

/-- Behind a dollar sign: a name, which may be between bars, and a dot. It gives the parameter of this name,
if there is one, what follows, and an error. -/
def macroToken (names : List Name) (text : Text) : Option ℕ × Text × List Diag :=
  let inBars := inputMatch 0x7C text
  let text := inBars.getD text
  let token := (inputSymbolNoBar text).getD []
  let text := afterSymbol text
  let closing := inputMatch 0x7C text
  let text := if inBars.isSome then closing.getD text else text
  let text := (inputMatch 0x2E text).getD text
  (names.findIdx? (· = token), text, if inBars.isSome ∧ closing = none then [missingBar] else [])

/-- The rest of a line from a character on, where `vbar` says that a bar is open. -/
def compileFrom (names : List Name) : (turns : ℕ) → (vbar : Bool) → Text → List UInt8 × List Diag
  | 0, _, _ => ([], [])
  | _ + 1, _, [] => ([], [])
  | turns + 1, vbar, c :: text =>
    if c = 0x7C then
      let (out, diags) := compileFrom names turns (!vbar) text
      (c :: out, diags)
    else if c = 0x24 ∧ vbar = false then
      match inputMatch 0x24 text with
      | some rest =>
        let (out, diags) := compileFrom names turns vbar rest
        (c :: out, diags)
      | none =>
        match macroToken names text with
        | (some i, rest, errors) =>
          let (out, diags) := compileFrom names turns vbar rest
          (argMarker i :: out, errors ++ diags)
        | (none, _, errors) =>
          let (out, diags) := compileFrom names turns vbar text
          (c :: out, errors ++ diags)
    else
      let (out, diags) := compileFrom names turns vbar text
      (c :: out, diags)

/-- **A line of the body**, without its newline. -/
def compileLine (names : List Name) (line : Text) : List UInt8 × List Diag :=
  compileFrom names (line.length + 1) false line

/-- `MKeyword_e` -/
inductive MKeyword
  | macroStart
  | mend
  | anythingElse
  deriving DecidableEq, Repr

def macroGetKeyword (text : Text) : MKeyword :=
  match text with
  | [] => .anythingElse
  | c :: _ =>
    if isspace c then
      if (inputMatchKeyword (cstr "MEND") (inputSkipWS text)).isSome then .mend
      else if (inputMatchKeyword (cstr "MACRO") (inputSkipWS text)).isSome then .macroStart
      else .anythingElse
    else .anythingElse

def nestedMacro : Diag := ⟨.error, "Macro definitions cannot be nested", []⟩

/-- **The body**, up to MEND. Without MEND the assembler gives up. -/
def macroBody (names : List Name) : (lines : List Text) → Run (List UInt8 × List Diag)
  | [] => throw .message
  | line :: lines =>
    match macroGetKeyword line with
    | .mend => pure ([], [])
    | keyword => do
      let (rest, diags) ← macroBody names lines
      let (out, errors) := compileLine names line
      pure (out ++ 0x0A :: rest, (if keyword = .macroStart then [nestedMacro] else []) ++ errors ++ diags)

/-! ### Reading back -/

/-- The loop of `Macro_GetLine`: what is in the buffer so far, and what is left of the body. The buffer has
room for `limit` characters and a NUL. -/
def getLineLoop (args : ℕ → Option Name) (limit : ℕ) :
    (body : List UInt8) → (out : Text) → Run (Text × List UInt8)
  | [], out => pure (out, [])
  | c :: body, out =>
    if out.length = limit then pure (out, c :: body)
    else
      match markedArg c with
      | some i =>
        match args i with
        | some arg =>
          if limit < out.length + arg.length then throw .message else getLineLoop args limit body (out ++ arg)
        | none => getLineLoop args limit body out
      | none => if c = 0x0A then pure (out, body) else getLineLoop args limit body (out ++ [c])

/-- **`Macro_GetLine`.** There is no line at the end of the body. -/
def macroGetLine (args : ℕ → Option Name) (bufSize : ℕ) (body : List UInt8) :
    Run (Option (Text × List UInt8)) :=
  if body = [] then pure none
  else do
    let r ← getLineLoop args (bufSize - 1) body []
    pure (some r)

/-- **The lines that are read**, and the stop if there is one. -/
def macroLines (args : ℕ → Option Name) (bufSize : ℕ) :
    (turns : ℕ) → (body : List UInt8) → List Text × Option Stop
  | 0, _ => ([], some .endless)
  | turns + 1, body =>
    match macroGetLine args bufSize body with
    | .error stop => ([], some stop)
    | .ok none => ([], none)
    | .ok (some (line, body)) =>
      let (lines, stop) := macroLines args bufSize turns body
      (line :: lines, stop)

/-! ### What the lines are to be -/

/-- What the rest of a line is to become, piece by piece: a reference to a parameter becomes its argument,
and every other character stays. -/
def linePieces (names : List Name) (args : ℕ → Option Name) : (turns : ℕ) → (vbar : Bool) → Text → List Text
  | 0, _, _ => []
  | _ + 1, _, [] => []
  | turns + 1, vbar, c :: text =>
    if c = 0x7C then [c] :: linePieces names args turns (!vbar) text
    else if c = 0x24 ∧ vbar = false then
      match inputMatch 0x24 text with
      | some rest => [c] :: linePieces names args turns vbar rest
      | none =>
        match macroToken names text with
        | (some i, rest, _) => (args i).getD [] :: linePieces names args turns vbar rest
        | (none, _, _) => [c] :: linePieces names args turns vbar text
    else [c] :: linePieces names args turns vbar text

def pieces (names : List Name) (args : ℕ → Option Name) (line : Text) : List Text :=
  linePieces names args (line.length + 1) false line

/-- **A line with arguments instead of its parameters.** -/
def substituteArgs (names : List Name) (args : ℕ → Option Name) (line : Text) :
    Text := (pieces names args line).flatten

def expandChar (args : ℕ → Option Name) (c : UInt8) : Text :=
  match markedArg c with
  | some i => (args i).getD []
  | none => [c]

def expandArgs (args : ℕ → Option Name) (part : List UInt8) : Text := part.flatMap (expandChar args)

/-- **A line of source**: no end of the line or of the text, and none of the characters that stand for
parameters. -/
def PlainLine (line : Text) : Prop := ∀ c ∈ line, c ≠ 0 ∧ c ≠ 0x0A ∧ markedArg c = none

theorem markedArg_argMarker {i : ℕ} (hi : i < macroArgLimit) : markedArg (argMarker i) = some i := by
  have hval : (argMarker i).toNat = 14 + i := by
    unfold argMarker macroArg0
    rw [UInt8.toNat_ofNat']
    exact Nat.mod_eq_of_lt (show 14 + i < 256 by unfold macroArgLimit at hi; omega)
  unfold macroArgLimit at hi
  unfold markedArg macroArg0 macroArgLimit
  rw [hval, if_pos ⟨by omega, by omega⟩, Nat.add_sub_cancel_left]

theorem argMarker_ne_newline {i : ℕ} (hi : i < macroArgLimit) : argMarker i ≠ 0x0A := by
  intro h
  have hmark := markedArg_argMarker hi
  rw [h] at hmark
  exact nomatch hmark

/-! ### The characters of a compiled line -/

variable {names : List Name} {args : ℕ → Option Name} {limit : ℕ}

theorem inputMatch_suffix {c : UInt8} {text rest : Text} (h : inputMatch c text = some rest) :
    rest <:+ text := by
  cases text with
  | nil => exact nomatch h
  | cons d text =>
    rw [inputMatch] at h
    split at h
    · rw [← Option.some.inj h]
      exact List.suffix_cons d text
    · exact nomatch h

theorem getD_inputMatch_suffix (c : UInt8) (text : Text) : (inputMatch c text).getD text <:+ text := by
  cases h : inputMatch c text with
  | none => exact List.suffix_refl text
  | some rest => exact inputMatch_suffix h

theorem macroToken_suffix (names : List Name) (text : Text) : (macroToken names text).2.1 <:+ text := by
  have hdrop : ∀ text, afterSymbol text <:+ text := fun text => List.drop_suffix _ text
  unfold macroToken
  dsimp only
  refine (getD_inputMatch_suffix _ _).trans ?_
  have hopen := (hdrop ((inputMatch 0x7C text).getD text)).trans (getD_inputMatch_suffix 0x7C text)
  split
  · exact (getD_inputMatch_suffix _ _).trans hopen
  · exact hopen

theorem PlainLine.of_suffix {text rest : Text} (h : PlainLine text) (hrest : rest <:+ text) :
    PlainLine rest :=
  fun c hc => h c (hrest.mem hc)

theorem macroToken_lt {text rest : Text} {i : ℕ} {errors : List Diag} (hnames : names.length ≤ macroArgLimit)
    (h : macroToken names text = (some i, rest, errors)) : i < macroArgLimit := by
  unfold macroToken at h
  dsimp only at h
  obtain ⟨hlt, -⟩ := List.findIdx?_eq_some_iff_getElem.mp (Prod.mk.inj h).1
  omega

/-- **The markers stand for the arguments**: the characters of a compiled line become the pieces of the
line, and none of them ends it. -/
theorem compileFrom_pieces (hnames : names.length ≤ macroArgLimit) (args : ℕ → Option Name) (turns : ℕ)
    (vbar : Bool)
    {text : Text} (htext : PlainLine text) :
    (compileFrom names turns vbar text).1.map (expandChar args) = linePieces names args turns vbar text ∧
      ∀ c ∈ (compileFrom names turns vbar text).1, c ≠ 0x0A := by
  induction turns generalizing vbar text with
  | zero => exact ⟨rfl, nofun⟩
  | succ turns ih =>
    cases text with
    | nil => exact ⟨rfl, nofun⟩
    | cons c text =>
      obtain ⟨-, hnewline, hmark⟩ := htext c (List.mem_cons_self ..)
      have htail : PlainLine text := htext.of_suffix (List.suffix_cons c text)
      have hself : expandChar args c = [c] := by
        unfold expandChar
        rw [hmark]
      -- a character that is copied
      have hcopy : ∀ {out : List UInt8} {rest : List Text},
          out.map (expandChar args) = rest ∧ (∀ d ∈ out, d ≠ 0x0A) →
          (c :: out).map (expandChar args) = [c] :: rest ∧ ∀ d ∈ c :: out, d ≠ 0x0A := by
        rintro out _ ⟨rfl, hout⟩
        refine ⟨?_, ?_⟩
        · rw [List.map_cons, hself]
        · intro d hd
          rcases List.mem_cons.mp hd with rfl | hd
          · exact hnewline
          · exact hout d hd
      rw [compileFrom, linePieces]
      by_cases hbar : c = 0x7C
      · rw [if_pos hbar, if_pos hbar]
        exact hcopy (ih (!vbar) htail)
      · rw [if_neg hbar, if_neg hbar]
        by_cases hdollar : c = 0x24 ∧ vbar = false
        · rw [if_pos hdollar, if_pos hdollar]
          cases hsecond : inputMatch 0x24 text with
          | some rest => exact hcopy (ih vbar (htail.of_suffix (inputMatch_suffix hsecond)))
          | none =>
            have hsuffix := macroToken_suffix names text
            dsimp only
            rcases htoken : macroToken names text with ⟨_ | i, rest, errors⟩
            · exact hcopy (ih vbar htail)
            · rw [htoken] at hsuffix
              have hlt := macroToken_lt hnames htoken
              obtain ⟨hpieces, hout⟩ := ih vbar (htail.of_suffix hsuffix)
              refine ⟨?_, ?_⟩
              · dsimp only
                rw [List.map_cons, hpieces]
                unfold expandChar
                rw [markedArg_argMarker hlt]
              · intro d hd
                rcases List.mem_cons.mp hd with rfl | hd
                · exact argMarker_ne_newline hlt
                · exact hout d hd
        · rw [if_neg hdollar, if_neg hdollar]
          exact hcopy (ih vbar htail)

/-! ### Reading a line -/

def Fills (limit : ℕ) (ps : List Text) : Prop := ∃ k, (ps.take k).flatten.length = limit

def TooLong (limit : ℕ) (ps : List Text) : Prop := limit < ps.flatten.length

theorem expandArgs_append (args : ℕ → Option Name) (part more : List UInt8) :
    expandArgs args (part ++ more) = expandArgs args part ++ expandArgs args more := List.flatMap_append

theorem expandArgs_cons (args : ℕ → Option Name) (c : UInt8) (part : List UInt8) :
    expandArgs args (c :: part) = expandChar args c ++ expandArgs args part := List.flatMap_cons

theorem expandArgs_eq (args : ℕ → Option Name) (part : List UInt8) :
    expandArgs args part = (part.map (expandChar args)).flatten := List.flatMap_def ..

theorem getLineLoop_cons {c : UInt8} (hc : c ≠ 0x0A) (body : List UInt8) {out : Text}
    (hout : out.length < limit) :
    getLineLoop args limit (c :: body) out =
      if limit < out.length + (expandChar args c).length then throw .message
      else getLineLoop args limit body (out ++ expandChar args c) := by
  rw [getLineLoop, if_neg (by omega)]
  unfold expandChar
  cases hmark : markedArg c with
  | some i =>
    dsimp only
    rcases Option.eq_none_or_eq_some (args i) with harg | ⟨arg, harg⟩
    · simp only [harg]
      change _ = if limit < out.length + 0 then _ else getLineLoop args limit body (out ++ [])
      rw [if_neg (by omega), List.append_nil]
    · simp only [harg]
      rfl
  | none =>
    dsimp only
    rw [if_neg hc]
    change _ = if limit < out.length + 1 then _ else _
    rw [if_neg (by omega)]

theorem getLineLoop_newline (rest : List UInt8) {out : Text} (hout : out.length ≠ limit) :
    getLineLoop args limit (0x0A :: rest) out = .ok (out, rest) := by
  rw [getLineLoop, if_neg hout]
  rfl

theorem getLineLoop_full (c : UInt8) (body : List UInt8) {out : Text} (hout : out.length = limit) :
    getLineLoop args limit (c :: body) out = .ok (out, c :: body) := by
  rw [getLineLoop, if_pos hout]
  rfl

/-- **What becomes of a line**: it fills the buffer and the rest is left, or it fits, or it is too long. -/
inductive LineOutcome (args : ℕ → Option Name) (limit : ℕ) (line rest : List UInt8) (out : Text) :
    Run (Text × List UInt8) → Prop
  | full (front back : List UInt8) (hline : line = front ++ back)
      (hfull : out.length + (expandArgs args front).length = limit) :
      LineOutcome args limit line rest out (.ok (out ++ expandArgs args front, back ++ 0x0A :: rest))
  | fits (hnot : ∀ front, front <+: line → out.length + (expandArgs args front).length ≠ limit)
      (hfits : out.length + (expandArgs args line).length < limit) :
      LineOutcome args limit line rest out (.ok (out ++ expandArgs args line, rest))
  | tooLong (hnot : ∀ front, front <+: line → out.length + (expandArgs args front).length ≠ limit)
      (hlong : limit < out.length + (expandArgs args line).length) :
      LineOutcome args limit line rest out (.error .message)

theorem getLineLoop_outcome {line : List UInt8} (hline : ∀ c ∈ line, c ≠ 0x0A) (rest : List UInt8)
    {out : Text}
    (hout : out.length ≤ limit) :
    LineOutcome args limit line rest out (getLineLoop args limit (line ++ 0x0A :: rest) out) := by
  induction line generalizing out with
  | nil =>
    by_cases hfull : out.length = limit
    · have hend : LineOutcome args limit [] rest out (.ok (out ++ [], [] ++ 0x0A :: rest)) :=
        .full [] [] rfl hfull
      rw [List.append_nil] at hend
      rw [List.nil_append, getLineLoop_full 0x0A rest hfull]
      exact hend
    · have hend : LineOutcome args limit [] rest out (.ok (out ++ [], rest)) := by
        refine .fits (fun front hfront => ?_) (show out.length + 0 < limit by omega)
        rw [List.prefix_nil.mp hfront]
        exact hfull
      rw [List.append_nil] at hend
      rw [List.nil_append, getLineLoop_newline rest hfull]
      exact hend
  | cons c line ih =>
    have hc := hline c (List.mem_cons_self ..)
    replace ih := fun {out} => @ih (fun d hd => hline d (List.mem_cons_of_mem _ hd)) out
    by_cases hfull : out.length = limit
    · have hend : LineOutcome args limit (c :: line) rest out (.ok (out ++ [], (c :: line) ++ 0x0A :: rest)) :=
        .full [] (c :: line) rfl hfull
      rw [List.append_nil] at hend
      rw [List.cons_append, getLineLoop_full c _ hfull]
      exact hend
    · -- a front of the line is empty, or begins with this character
      have hfronts : (∀ front, front <+: line →
          (out ++ expandChar args c).length + (expandArgs args front).length ≠ limit) →
          ∀ front, front <+: c :: line → out.length + (expandArgs args front).length ≠ limit := by
        intro hnot front hfront
        rcases List.prefix_cons_iff.mp hfront with rfl | ⟨front, rfl, hrest⟩
        · exact hfull
        · have h := hnot front hrest
          rw [List.length_append] at h
          rw [expandArgs_cons, List.length_append, ← Nat.add_assoc]
          exact h
      rw [List.cons_append, getLineLoop_cons hc _ (by omega)]
      split
      case isTrue hlong =>
        refine .tooLong (fun front hfront => ?_) ?_
        · rcases List.prefix_cons_iff.mp hfront with rfl | ⟨front, rfl, -⟩
          · exact hfull
          · rw [expandArgs_cons, List.length_append]
            omega
        · rw [expandArgs_cons, List.length_append]
          omega
      case isFalse hshort =>
        have hnext : (out ++ expandChar args c).length ≤ limit := by
          rw [List.length_append]
          omega
        have hlength : ∀ part, (out ++ expandChar args c).length + (expandArgs args part).length =
            out.length + (expandArgs args (c :: part)).length := by
          intro part
          rw [expandArgs_cons, List.length_append, List.length_append]
          omega
        have hrest := ih hnext
        generalize getLineLoop args limit (line ++ 0x0A :: rest) (out ++ expandChar args c) = r at hrest ⊢
        cases hrest with
        | full front back hline hfull =>
          rw [List.append_assoc, ← expandArgs_cons]
          refine .full (c :: front) back (by rw [hline, List.cons_append]) ?_
          rw [← hlength]
          exact hfull
        | fits hnot hfits =>
          rw [List.append_assoc, ← expandArgs_cons]
          rw [hlength] at hfits
          exact .fits (hfronts hnot) hfits
        | tooLong hnot hlong =>
          rw [hlength] at hlong
          exact .tooLong (hfronts hnot) hlong

/-! ### Reading a body -/

variable {bufSize : ℕ}

def joinLines (ls : List (List UInt8)) : List UInt8 := ls.flatMap (· ++ [0x0A])

theorem joinLines_cons (l : List UInt8) (ls : List (List UInt8)) :
    joinLines (l :: ls) = l ++ 0x0A :: joinLines ls := by
  unfold joinLines
  rw [List.flatMap_cons, List.append_assoc]
  rfl

theorem macroLines_succ (turns : ℕ) (line rest : List UInt8) :
    macroLines args bufSize (turns + 1) (line ++ 0x0A :: rest) =
      match getLineLoop args (bufSize - 1) (line ++ 0x0A :: rest) [] with
      | .error stop => ([], some stop)
      | .ok (out, body) =>
        let (lines, stop) := macroLines args bufSize turns body
        (out :: lines, stop) := by
  rw [macroLines]
  unfold macroGetLine
  rw [if_neg (List.append_ne_nil_of_right_ne_nil _ (List.cons_ne_nil _ _))]
  cases getLineLoop args (bufSize - 1) (line ++ 0x0A :: rest) [] with
  | error stop => rfl
  | ok r => rfl

/-- **What is read of a body**, or of what is left of one: no line is longer than the buffer, there are at
least as many as in the body, and if the assembler gives up, it is at a line that is too long. -/
structure ReadBound (args : ℕ → Option Name) (limit : ℕ) (ls : List (List UInt8))
    (r : List Text × Option Stop) :
    Prop where
  short : ∀ line ∈ r.1, line.length ≤ limit
  enough : r.2 = none → ls.length ≤ r.1.length
  stopped : r.2 = some .message →
    ∃ m l, ls[m]? = some l ∧ m ≤ r.1.length ∧ limit < (expandArgs args l).length

theorem ReadBound.cons {ls : List (List UInt8)} {r : List Text × Option Stop} (h : ReadBound args limit ls r)
    {out : Text} (hout : out.length ≤ limit) (l : List UInt8) :
      ReadBound args limit (l :: ls) (out :: r.1, r.2) := by
  refine ⟨?_, fun hend => Nat.succ_le_succ (h.enough hend), fun hend => ?_⟩
  · intro line hline
    rcases List.mem_cons.mp hline with rfl | hline
    · exact hout
    · exact h.short line hline
  · obtain ⟨m, long, hm, hle, hlong⟩ := h.stopped hend
    exact ⟨m + 1, long, hm, Nat.succ_le_succ hle, hlong⟩

theorem macroLines_nil_bound (turns : ℕ) : ReadBound args limit [] (macroLines args bufSize turns []) := by
  cases turns with
  | zero => exact ⟨nofun, nofun, nofun⟩
  | succ turns => exact ⟨nofun, fun _ => Nat.zero_le _, nofun⟩

theorem macroLines_bound (turns : ℕ) {l : List UInt8} {ls : List (List UInt8)} (hl : ∀ c ∈ l, c ≠ 0x0A)
    (hls : ∀ l ∈ ls, ∀ c ∈ l, c ≠ 0x0A) :
    ReadBound args (bufSize - 1) (l :: ls) (macroLines args bufSize turns (l ++ 0x0A :: joinLines ls)) := by
  induction turns generalizing l ls with
  | zero => exact ⟨nofun, nofun, nofun⟩
  | succ turns ih =>
    have hread : LineOutcome args (bufSize - 1) l (joinLines ls) []
        (getLineLoop args (bufSize - 1) (l ++ 0x0A :: joinLines ls) []) :=
      getLineLoop_outcome hl (joinLines ls) (Nat.zero_le _)
    rw [macroLines_succ]
    generalize getLineLoop args (bufSize - 1) (l ++ 0x0A :: joinLines ls) [] = r at hread ⊢
    cases hread with
    | full front back hline hfull =>
      -- what is left is the first line of the next turn
      have hnext := @ih back ls (fun c hc => hl c (hline ▸ List.mem_append_right _ hc)) hls
      have hout : (expandArgs args front).length ≤ bufSize - 1 :=
        Nat.le_of_eq ((Nat.zero_add _).symm.trans hfull)
      refine ⟨?_, fun hend => Nat.le_succ_of_le (hnext.enough hend), fun hend => ?_⟩
      · exact (hnext.cons hout l).short
      · obtain ⟨m, long, hm, hle, hlong⟩ := hnext.stopped hend
        cases m with
        | zero =>
          refine ⟨0, l, rfl, Nat.zero_le _, ?_⟩
          rw [← Option.some.inj hm] at hlong
          rw [hline, expandArgs_append, List.length_append]
          omega
        | succ m => exact ⟨m + 1, long, hm, Nat.le_succ_of_le hle, hlong⟩
    | fits hnot hfits =>
      rw [List.length_nil, Nat.zero_add] at hfits
      have hout : (expandArgs args l).length ≤ bufSize - 1 := Nat.le_of_lt hfits
      have hnext : ReadBound args (bufSize - 1) ls (macroLines args bufSize turns (joinLines ls)) := by
        cases ls with
        | nil => exact macroLines_nil_bound turns
        | cons l' ls =>
          rw [joinLines_cons]
          exact ih (hls l' (List.mem_cons_self ..)) fun l hl => hls l (List.mem_cons_of_mem _ hl)
      exact hnext.cons hout l
    | tooLong hnot hlong =>
      refine ⟨nofun, nofun, fun _ => ⟨0, l, rfl, Nat.zero_le _, ?_⟩⟩
      have hempty : ([] : Text).length + (expandArgs args l).length = (expandArgs args l).length :=
        Nat.zero_add _
      omega

/-! ### When the lines come back -/

/-- The lines that are read are the expected ones, or the first of them where the assembler gives up. -/
def ReadRight (expected : List Text) (r : List Text × Option Stop) : Prop :=
  match r.2 with
  | none => r.1 = expected
  | some .message => r.1 <+: expected
  | some _ => False

/-- **No line fills the buffer exactly**, up to the first that is too long. -/
def NoneFills (limit : ℕ) (pss : List (List Text)) : Prop :=
  ∀ (i : ℕ) (ps : List Text), pss[i]? = some ps → Fills limit ps → ∃ j < i, ∃ long, pss[j]? = some long ∧
    TooLong limit long

theorem noneFills_nil : NoneFills limit [] := fun _ _ h => nomatch h

theorem noneFills_cons {ps : List Text} {pss : List (List Text)} :
    NoneFills limit (ps :: pss) ↔ ¬Fills limit ps ∧ (TooLong limit ps ∨ NoneFills limit pss) := by
  constructor
  · intro h
    refine ⟨fun hfills => ?_, ?_⟩
    · obtain ⟨j, hj, -⟩ := h 0 ps rfl hfills
      exact absurd hj (Nat.not_lt_zero j)
    · by_cases hlong : TooLong limit ps
      · exact Or.inl hlong
      · refine Or.inr fun i qs hi hfills => ?_
        obtain ⟨j, hj, long, hjl, hjlong⟩ := h (i + 1) qs hi hfills
        cases j with
        | zero =>
          rw [← Option.some.inj hjl] at hjlong
          exact absurd hjlong hlong
        | succ j => exact ⟨j, Nat.lt_of_succ_lt_succ hj, long, hjl, hjlong⟩
  · rintro ⟨hnot, hrest⟩ i qs hi hfills
    cases i with
    | zero =>
      rw [← Option.some.inj hi] at hfills
      exact absurd hfills hnot
    | succ i =>
      rcases hrest with hlong | hrest
      · exact ⟨0, Nat.succ_pos i, ps, rfl, hlong⟩
      · obtain ⟨j, hj, long, hjl, hjlong⟩ := hrest i qs hi hfills
        exact ⟨j + 1, Nat.succ_lt_succ hj, long, hjl, hjlong⟩

theorem readRight_cons {line : Text} {expected lines : List Text} {stop : Option Stop} :
    ReadRight (line :: expected) (line :: lines, stop) ↔ ReadRight expected (lines, stop) := by
  unfold ReadRight
  dsimp only
  split
  · exact List.cons_inj_right line
  · exact List.prefix_cons_inj line
  · exact Iff.rfl

def charPieces (args : ℕ → Option Name) (l : List UInt8) : List Text := l.map (expandChar args)

theorem fills_charPieces {l : List UInt8} :
    Fills limit (charPieces args l) ↔ ∃ front, front <+: l ∧ (expandArgs args front).length = limit := by
  have htake : ∀ k, ((charPieces args l).take k).flatten = expandArgs args (l.take k) := by
    intro k
    unfold charPieces
    rw [expandArgs_eq, List.map_take]
  constructor
  · rintro ⟨k, hk⟩
    rw [htake] at hk
    exact ⟨l.take k, List.take_prefix k l, hk⟩
  · rintro ⟨front, hfront, hlength⟩
    refine ⟨front.length, ?_⟩
    rw [htake, ← List.prefix_iff_eq_take.mp hfront]
    exact hlength

theorem tooLong_charPieces {l : List UInt8} :
    TooLong limit (charPieces args l) ↔ limit < (expandArgs args l).length := by
  rw [expandArgs_eq]
  rfl

/-- Where a line was split, the lines do not come back: one more than expected is read, or the assembler
gives up at a line when it has already read one in its place. -/
theorem not_readRight_of_bound {l front back : List UInt8} {ls : List (List UInt8)} {out : Text}
    {lines : List Text}
    {stop : Option Stop} (hline : l = front ++ back) (hout : out.length ≤ limit)
    (hbound : ReadBound args limit (back :: ls) (lines, stop)) :
    ¬ReadRight (expandArgs args l :: ls.map (expandArgs args)) (out :: lines, stop) := by
  intro hright
  unfold ReadRight at hright
  dsimp only at hright
  split at hright
  · have henough := hbound.enough rfl
    have hlength := congrArg List.length hright
    rw [List.length_cons, List.length_cons, List.length_map] at hlength
    rw [List.length_cons] at henough
    dsimp only at henough
    omega
  · obtain ⟨m, long, hm, hle, hlong⟩ := hbound.stopped rfl
    dsimp only at hle
    have hshort : ∀ line ∈ out :: lines, line.length ≤ limit := by
      intro line hmem
      rcases List.mem_cons.mp hmem with rfl | hmem
      · exact hout
      · exact hbound.short line hmem
    -- the line that is too long is among those that were read
    have hexpected : ∃ line, (expandArgs args l :: ls.map (expandArgs args))[m]? = some line ∧
      limit < line.length := by
      cases m with
      | zero =>
        refine ⟨expandArgs args l, rfl, ?_⟩
        rw [← Option.some.inj hm] at hlong
        rw [hline, expandArgs_append, List.length_append]
        omega
      | succ m =>
        refine ⟨expandArgs args long, ?_, hlong⟩
        have hls : ls[m]? = some long := hm
        rw [List.getElem?_cons_succ, List.getElem?_map, hls]
        rfl
    obtain ⟨line, hline, hlineLong⟩ := hexpected
    have hlt : m < (out :: lines).length := Nat.lt_succ_of_le hle
    have hsame : (out :: lines)[m] = line := by
      rw [List.IsPrefix.getElem hright hlt]
      exact Option.some.inj ((List.getElem?_eq_getElem _).symm.trans hline)
    have h := hshort _ (List.getElem_mem hlt)
    rw [hsame] at h
    omega
  · exact hright

/-- **The lines come back just if none fills the buffer**, by induction on the lines. -/
theorem macroLines_right_iff {ls : List (List UInt8)} (hls : ∀ l ∈ ls, ∀ c ∈ l, c ≠ 0x0A) {turns : ℕ}
    (hturns : ls.length < turns) :
    ReadRight (ls.map (expandArgs args)) (macroLines args bufSize turns (joinLines ls)) ↔
      NoneFills (bufSize - 1) (ls.map (charPieces args)) := by
  induction ls generalizing turns with
  | nil =>
    obtain ⟨turns, rfl⟩ := Nat.exists_eq_succ_of_ne_zero (Nat.ne_of_gt hturns)
    exact iff_of_true rfl noneFills_nil
  | cons l ls ih =>
    obtain ⟨turns, rfl⟩ := Nat.exists_eq_succ_of_ne_zero (Nat.ne_of_gt (Nat.zero_lt_of_lt hturns))
    have hl := hls l (List.mem_cons_self ..)
    have hrest : ∀ l ∈ ls, ∀ c ∈ l, c ≠ 0x0A := fun l hl => hls l (List.mem_cons_of_mem _ hl)
    have hread : LineOutcome args (bufSize - 1) l (joinLines ls) []
        (getLineLoop args (bufSize - 1) (l ++ 0x0A :: joinLines ls) []) :=
      getLineLoop_outcome hl (joinLines ls) (Nat.zero_le _)
    rw [joinLines_cons, macroLines_succ, List.map_cons, List.map_cons, noneFills_cons, tooLong_charPieces,
      fills_charPieces]
    generalize getLineLoop args (bufSize - 1) (l ++ 0x0A :: joinLines ls) [] = r at hread ⊢
    cases hread with
    | full front back hline hfull =>
      rw [List.length_nil, Nat.zero_add] at hfull
      refine iff_of_false ?_ fun h => h.1 ⟨front, hline ▸ List.prefix_append front back, hfull⟩
      -- one line more than expected is read, or the assembler gives up behind a line that it has read
      have hbound : ReadBound args (bufSize - 1) (back :: ls)
          (macroLines args bufSize turns (back ++ 0x0A :: joinLines ls)) :=
        macroLines_bound turns (fun c hc => hl c (hline ▸ List.mem_append_right _ hc)) hrest
      rw [List.nil_append]
      exact not_readRight_of_bound hline (Nat.le_of_eq hfull) hbound
    | fits hnot hfits =>
      rw [List.length_nil, Nat.zero_add] at hfits
      rw [List.nil_append]
      refine (readRight_cons.trans (ih hrest (Nat.lt_of_succ_lt_succ hturns))).trans ?_
      constructor
      · intro h
        refine ⟨?_, Or.inr h⟩
        rintro ⟨front, hfront, hlength⟩
        exact hnot front hfront ((Nat.zero_add _).trans hlength)
      · rintro ⟨-, hlong | h⟩
        · omega
        · exact h
    | tooLong hnot hlong =>
      rw [List.length_nil, Nat.zero_add] at hlong
      refine iff_of_true List.nil_prefix ⟨?_, Or.inl hlong⟩
      rintro ⟨front, hfront, hlength⟩
      exact hnot front hfront ((Nat.zero_add _).trans hlength)

/-! ### A macro body -/

def lineErrors (names : List Name) (line : Text) : List Diag :=
  (if macroGetKeyword line = .macroStart then [nestedMacro] else []) ++ (compileLine names line).2

theorem macroBody_append (names : List Name) {lines : List Text}
    (hlines : ∀ line ∈ lines, macroGetKeyword line ≠ .mend)
    {mend : Text} (hmend : macroGetKeyword mend = .mend) (rest : List Text) :
    macroBody names (lines ++ mend :: rest) =
      .ok (joinLines (lines.map fun line => (compileLine names line).1), lines.flatMap (lineErrors names)) :=
        by
  induction lines with
  | nil =>
    rw [List.nil_append, macroBody, hmend]
    rfl
  | cons line lines ih =>
    have hnot := hlines line (List.mem_cons_self ..)
    rw [List.cons_append, macroBody, ih fun l hl => hlines l (List.mem_cons_of_mem _ hl), List.map_cons,
      joinLines_cons,
      List.flatMap_cons]
    unfold lineErrors
    cases hkeyword : macroGetKeyword line with
    | mend => exact absurd hkeyword hnot
    | macroStart => rfl
    | anythingElse => rfl

theorem compileLine_pieces (hnames : names.length ≤ macroArgLimit) (args : ℕ → Option Name) {line : Text}
    (hline : PlainLine line) :
    charPieces args (compileLine names line).1 = pieces names args line ∧
      ∀ c ∈ (compileLine names line).1, c ≠ 0x0A := compileFrom_pieces hnames args _ false hline

theorem length_joinLines_le (ls : List (List UInt8)) : ls.length ≤ (joinLines ls).length := by
  induction ls with
  | nil => exact Nat.le_refl 0
  | cons l ls ih =>
    rw [joinLines_cons, List.length_append, List.length_cons, List.length_cons]
    omega

/-- **A macro body comes back**, if there is no error in it: its lines with their arguments, and the first
of them if the assembler gives up. -/
def BodyRight (names : List Name) (args : ℕ → Option Name) (lines : List Text) (mend : Text)
    (rest : List Text) :
    Prop :=
  ∃ body diags, macroBody names (lines ++ mend :: rest) = .ok (body, diags) ∧
    (diags = [] →
      ReadRight (lines.map (substituteArgs names args)) (macroLines args workBuffSize (body.length + 1) body))

theorem compiled_right_iff (hnames : names.length ≤ macroArgLimit) (args : ℕ → Option Name) (bufSize : ℕ)
    {lines : List Text} (hplain : ∀ line ∈ lines, PlainLine line) :
    ReadRight (lines.map (substituteArgs names args))
        (macroLines args bufSize ((joinLines (lines.map fun line => (compileLine names line).1)).length + 1)
          (joinLines (lines.map fun line => (compileLine names line).1))) ↔
      NoneFills (bufSize - 1) (lines.map (pieces names args)) := by
  have hls : ∀ l ∈ lines.map fun line => (compileLine names line).1, ∀ c ∈ l, c ≠ 0x0A := by
    intro l hl
    obtain ⟨line, hline, rfl⟩ := List.mem_map.mp hl
    exact (compileLine_pieces hnames args (hplain line hline)).2
  have hpieces : (lines.map fun line => (compileLine names line).1).map (charPieces args) =
      lines.map (pieces names args) := by
    rw [List.map_map]
    exact List.map_congr_left fun line hline => (compileLine_pieces hnames args (hplain line hline)).1
  have hexpand : (lines.map fun line => (compileLine names line).1).map (expandArgs args) =
      lines.map (substituteArgs names args) := by
    rw [List.map_map]
    refine List.map_congr_left fun line hline => ?_
    change expandArgs args (compileLine names line).1 = (pieces names args line).flatten
    rw [← (compileLine_pieces hnames args (hplain line hline)).1, expandArgs_eq]
    rfl
  have hiff := @macroLines_right_iff args bufSize _ hls _ (Nat.lt_succ_of_le (length_joinLines_le _))
  rw [hpieces, hexpand] at hiff
  exact hiff

theorem bodyRight_noErrors (hnames : names.length ≤ macroArgLimit) (args : ℕ → Option Name)
    {lines : List Text}
    (hplain : ∀ line ∈ lines, PlainLine line) (hlines : ∀ line ∈ lines, macroGetKeyword line ≠ .mend) {mend :
      Text}
    (hmend : macroGetKeyword mend = .mend) (rest : List Text) (herrors : ∀ line ∈ lines,
      lineErrors names line = []) :
    BodyRight names args lines mend rest ↔ NoneFills maxLine (lines.map (pieces names args)) := by
  have hbody := macroBody_append names hlines hmend rest
  rw [List.flatMap_eq_nil_iff.mpr herrors] at hbody
  refine Iff.trans ?_ (compiled_right_iff hnames args workBuffSize hplain)
  constructor
  · rintro ⟨body, diags, hok, h⟩
    rw [hbody] at hok
    obtain ⟨rfl, rfl⟩ := Prod.mk.inj (Except.ok.inj hok)
    exact h rfl
  · intro h
    exact ⟨_, _, hbody, fun _ => h⟩

/-- **A macro body comes back just if none of its lines fills the line buffer exactly**, up to the first
that is too long for it, or the body has an error. -/
theorem bodyRight_iff (names : List Name) (hnames : names.length ≤ macroArgLimit) (args : ℕ → Option Name)
    (lines : List Text) (hplain : ∀ line ∈ lines, PlainLine line)
    (hlines : ∀ line ∈ lines, macroGetKeyword line ≠ .mend) (mend : Text) (hmend : macroGetKeyword mend =
      .mend)
    (rest : List Text) :
    BodyRight names args lines mend rest ↔
      (∃ line ∈ lines, lineErrors names line ≠ []) ∨ NoneFills maxLine (lines.map (pieces names args)) := by
  by_cases herror : ∃ line ∈ lines, lineErrors names line ≠ []
  · refine iff_of_true ⟨_, _, macroBody_append names hlines hmend rest, fun hnone => ?_⟩ (Or.inl herror)
    obtain ⟨line, hline, hne⟩ := herror
    exact absurd (List.flatMap_eq_nil_iff.mp hnone line hline) hne
  · have hnone : ∀ line ∈ lines, lineErrors names line = [] := fun line hline =>
      by_contra fun hne => herror ⟨line, hline, hne⟩
    rw [bodyRight_noErrors hnames args hplain hlines hmend rest hnone, or_iff_right herror]

theorem noneFills_of_short {pss : List (List Text)} (h : ∀ ps ∈ pss, ps.flatten.length < limit) :
    NoneFills limit pss := by
  rintro i ps hi ⟨k, hk⟩
  have hshort := h ps (List.mem_of_getElem? hi)
  have hsplit : ps.flatten.length = (ps.take k).flatten.length + (ps.drop k).flatten.length := by
    rw [← List.length_append, ← List.flatten_append, List.take_append_drop]
  omega

instance (line : Text) : Decidable (PlainLine line) :=
  inferInstanceAs (Decidable (∀ c ∈ line, c ≠ 0 ∧ c ≠ 0x0A ∧ markedArg c = none))

theorem bodyRight_line :
    BodyRight [cstr "p", cstr "q"] (fun i => [cstr "1",
      cstr "2"][i]?) [cstr "\tADD r$p.x,$q"] (cstr "\tMEND") [] :=
  (bodyRight_iff _ (by decide) _ _ (by decide +kernel) (by decide +kernel) _ (by decide +kernel) _).mpr
    (Or.inr (noneFills_of_short (by decide +kernel)))

def longArg (i : ℕ) : Option Name := if i = 0 then some (List.replicate 2047 0x61) else none

/-- **A line that fills the buffer is split**: with an argument of 2047 characters, a line with the
parameter twice and a comment. -/
theorem not_bodyRight : ¬BodyRight [cstr "p"] longArg [cstr "\t$p$p ;x"] (cstr "\tMEND") [] := by
  have hcompiled : (compileLine [cstr "p"] (cstr "\t$p$p ;x")).1 = [0x09, 14, 14, 0x20, 0x3B, 0x78] := by
    decide +kernel
  have hpieces : pieces [cstr "p"] longArg (cstr "\t$p$p ;x") =
      [[0x09], List.replicate 2047 0x61, List.replicate 2047 0x61, [0x20], [0x3B], [0x78]] := by
    rw [← (compileLine_pieces (by decide) longArg (by decide +kernel)).1, hcompiled]
    rfl
  -- a tab, the argument twice and a space are 4096 characters
  have hfills : Fills maxLine (pieces [cstr "p"] longArg (cstr "\t$p$p ;x")) := by
    refine ⟨4, ?_⟩
    rw [hpieces]
    simp only [List.take_succ_cons, List.take_zero, List.flatten_cons, List.flatten_nil, List.length_append,
      List.length_replicate]
    rfl
  rw [bodyRight_noErrors (by decide) longArg (by decide +kernel) (by decide +kernel) (by decide +kernel) []
    (by decide +kernel)]
  intro hnone
  obtain ⟨j, hj, -⟩ := hnone 0 _ rfl hfills
  exact Nat.not_lt_zero j hj

end Asasm
