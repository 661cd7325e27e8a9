import Gccsdk.Asasm.ArgSub

/-!
# The bounds of the substitution

The lengths that `Input_ArgSub` and `Input_VarSub` copy are differences from `MAX_LINE`, while the loops
go on up to the end of `input_buff`, which is larger. So a copy leaves the buffer

* at a comment that would end behind `MAX_LINE`, and
* at a variable whose value would be written behind `MAX_LINE`, an empty value too,

and a line that fills the buffer to its last byte has no NUL. `TurnFits` and `Fits` are what the loop
needs of a state it stands before, and `inputArgSub_keeps_iff` says that nothing else goes wrong.
-/

namespace Asasm

open CheckedRun TurnLoop StateTransition

variable {env : SubstEnv} {s s' u : ArgSub} {text rest : Text} {c quote : UInt8}

/-! ### What the loop needs -/

/-- **The variable that a rest of a line begins with**, with its value. -/
def replaced (table : SymbolTable) : Text → Option (Name × Text)
  | [] => none
  | c :: text =>
    if c ≠ 0x24 ∨ text.head? = some 0x24 then none
    else
      match variableOf table (lexGetIDNoError text).1 with
      | none => none
      | some v => (toCopy v.2).map fun source => (v.1, source)

/-- A variable is replaced at `MAX_LINE` at the latest. -/
def VarFits (env : SubstEnv) (s : ArgSub) : Prop :=
  (replaced env.table s.rest).isSome = true → s.out.length ≤ maxLine

def stringStart (quote : UInt8) (rest : Text) (s : ArgSub) : InString :=
  ⟨{ s with rest := rest, out := s.out ++ [quote] }, false, false⟩

/-- **What a turn needs.** -/
structure TurnFits (env : SubstEnv) (s : ArgSub) : Prop where
  /-- A comment ends at `MAX_LINE` at the latest. -/
  comment : s.rest.head? = some 0x3B → s.out.length + s.rest.length ≤ maxLine
  var : VarFits env s
  string : ∀ quote rest, s.rest = quote :: rest → quote = 0x27 ∨ quote = 0x22 →
    ∀ t, Reaches (stringLoop env quote).next (stringStart quote rest s) t →
      (stringLoop env quote).more t = true → t.disableVarSubst = false → VarFits env t.sub

/-- **What the loop needs of a state it stands before**; at the end there is room for the NUL, or
there has been one in a string. -/
structure Fits (env : SubstEnv) (s : ArgSub) : Prop where
  turn : (argSubLoop env).more s = true → TurnFits env s
  ended : s.rest = [] → s.out.length < inputBuffSize ∨ 0 ∈ s.out

/-! ### Messages -/

theorem ensures_errorReport (env : SubstEnv) (d : Diag) (s : ArgSub) :
    Ensures (errorReport env d s) fun s' => s'.rest = s.rest ∧ s'.out = s.out := by
  unfold errorReport
  by_cases hsuppress : errorSuppressMsg env d.tag = true
  · rw [if_pos hsuppress]
    exact ensures_pure.mpr ⟨rfl, rfl⟩
  · rw [if_neg hsuppress]
    dsimp only
    generalize (if d.tag = .error ∨ d.tag = .abort then s.numErrors + 1 else s.numErrors) = numErrors
    by_cases hlast : d.tag = .abort ∨ maxErr < numErrors
    · rw [if_pos hlast]
      exact ensures_message
    · rw [if_neg hlast]
      exact ensures_pure.mpr ⟨rfl, rfl⟩

theorem ensures_errorReport? (env : SubstEnv) (d : Option Diag) (s : ArgSub) :
    Ensures (errorReport? env d s) fun s' => s'.rest = s.rest ∧ s'.out = s.out := by
  cases d with
  | none => exact ensures_pure.mpr ⟨rfl, rfl⟩
  | some d => exact ensures_errorReport env d s

theorem errorReport_lineOverflow (env : SubstEnv) (s : ArgSub) :
    errorReport env lineOverflow s = .error .message := by
  have hsuppress : errorSuppressMsg env lineOverflow.tag = false := by
    change ((_ || _) && false) = false
    rw [Bool.and_false]
  rw [errorReport, hsuppress]
  rfl

/-! ### Going on in the line -/

/-- **The line goes on**: what has been written stays, and the buffer is not left. -/
structure Onward (s s' : ArgSub) : Prop where
  rest : s'.rest <:+ s.rest
  out : s.out <+: s'.out
  fits : s.out.length ≤ inputBuffSize → s'.out.length ≤ inputBuffSize

theorem Onward.refl (s : ArgSub) : Onward s s := ⟨List.suffix_refl _, List.prefix_refl _, id⟩

theorem Onward.trans (h : Onward s s') (h' : Onward s' u) : Onward s u :=
  ⟨h'.rest.trans h.rest, h.out.trans h'.out, fun hs => h'.fits (h.fits hs)⟩

theorem copyOut_eq (out source : Text) (len : ℕ) : copyOut out source len =
    if out.length + len ≤ inputBuffSize then .ok (out ++ source.take len) else .error .outside := rfl

theorem putOut_eq {out : Text} (h : out.length < inputBuffSize) (c : UInt8) :
    putOut out c = .ok (out ++ [c]) := if_pos h

theorem onward_byte (hrest : s.rest = c :: rest) (hroom : s.out.length < inputBuffSize) :
    Onward s { s with rest := rest, out := s.out ++ [c] } where
  rest := by
    rw [hrest]
    exact List.suffix_cons c rest
  out := List.prefix_append _ _
  fits _ := by
    change (s.out ++ [c]).length ≤ inputBuffSize
    rw [List.length_append]
    exact hroom

/-! ### `Input_VarSub` -/

theorem replaced_cons (table : SymbolTable) (c : UInt8) (text : Text) : replaced table (c :: text) =
    if c ≠ 0x24 ∨ text.head? = some 0x24 then none
    else
      match variableOf table (lexGetIDNoError text).1 with
      | none => none
      | some v => (toCopy v.2).map fun source => (v.1, source) := rfl

theorem replaced_eq_none (table : SymbolTable) (h : c ≠ 0x24) : replaced table (c :: text) = none :=
  if_pos (Or.inl h)

theorem varFits_of_none (h : replaced env.table s.rest = none) : VarFits env s := by
  intro hsome
  rw [h] at hsome
  cases hsome

theorem inputSymbol_diag {name : Name} (h : (inputSymbol text).1 = some name) :
    (inputSymbol text).2 = none := by
  have hbars : ∀ isDbl text, (inputSymbolBars isDbl text).1 = some name →
      (inputSymbolBars isDbl text).2 = none := by
    intro isDbl text hname
    unfold inputSymbolBars at hname ⊢
    cases huntil : untilBar isDbl text with
    | none => rw [huntil] at hname; cases hname
    | some read =>
      cases read with
      | nil => rfl
      | cons c read => rfl
  unfold inputSymbol at h ⊢
  split
  · rfl
  · rename_i hbar
    rw [if_neg hbar] at h
    split
    · rename_i hdbl
      rw [if_pos hdbl] at h
      exact hbars _ _ h
    · rename_i hdbl
      rw [if_neg hdbl] at h
      exact hbars _ _ h

theorem lexGetIDNoError_diag {table : SymbolTable} {v : Name × Value}
    (h : variableOf table (lexGetIDNoError text).1 = some v) : (lexGetIDNoError text).2 = none := by
  unfold lexGetIDNoError at h ⊢
  cases hread : inputSymbol (inputSkipWS text) with
  | mk name diag =>
    rw [hread] at h
    cases name with
    | none => cases h
    | some name =>
      have hname : (inputSymbol (inputSkipWS text)).1 = some name := by rw [hread]
      have hdiag := inputSymbol_diag hname
      rw [hread] at hdiag
      exact hdiag

theorem behindName_suffix (name : Name) (text : Text) : behindName name text <:+ text := by
  unfold behindName
  split
  · exact List.drop_suffix _ _
  · exact List.drop_suffix _ _

/-- **What `Input_VarSub` gives**, in front of a `$` that `text` follows. -/
inductive VarSubbed (env : SubstEnv) (text : Text) (s : ArgSub) : Bool × ArgSub → Prop
  /-- No variable: the `$` is written. -/
  | dollar {s' : ArgSub} (hnone : replaced env.table s.rest = none) (hrest : s'.rest <:+ text)
      (hout : s'.out = if s.out.length < inputBuffSize then s.out ++ [0x24] else s.out) :
      VarSubbed env text s (true, s')
  /-- The value of the variable, as far as `MAX_LINE`. -/
  | copied {name : Name} {source : Text} (hsome : replaced env.table s.rest = some (name, source))
      (hfits : s.out.length ≤ maxLine) :
      VarSubbed env text s (false, { s with rest := behindName name text
                                            out := s.out ++ source.take (maxLine - s.out.length) })

/-- The value is copied up to `MAX_LINE`, -/
theorem copyVariable_eq {name : Name} {value : Value} {source : Text} (hcopy : toCopy value = some source)
    (hfits : s.out.length ≤ maxLine) : copyVariable name value text s =
      .ok { s with rest := behindName name text, out := s.out ++ source.take (maxLine - s.out.length) } := by
  have hbuff : maxLine ≤ inputBuffSize := Nat.le_add_right _ _
  unfold copyVariable
  rw [hcopy]
  -- the length to copy is that of the value, or what is left up to `MAX_LINE`
  by_cases hlong : maxLine ≤ s.out.length + source.length
  · simp only [hlong, if_true, sizeSub, hfits]
    rw [copyOut_eq, if_pos (by omega)]
    rfl
  · simp only [hlong, if_false]
    rw [copyOut_eq, if_pos (by omega), ok_bind, List.take_length, List.take_of_length_le (by omega)]
    rfl

theorem copyVariable_outside {name : Name} {value : Value} {source : Text}
    (hcopy : toCopy value = some source) (hbig : ¬s.out.length ≤ maxLine) :
    copyVariable name value text s = .error .outside := by
  unfold copyVariable
  rw [hcopy]
  simp only [show maxLine ≤ s.out.length + source.length by omega, if_true, sizeSub, hbig, if_false]
  rw [copyOut_eq, if_neg]
  · rfl
  · unfold inputBuffSize maxLine
    omega

theorem replaced_eq_some {table : SymbolTable} {name : Name} {source : Text}
    (h : replaced table (c :: text) = some (name, source)) : c = 0x24 ∧ text.head? ≠ some 0x24 ∧
      ∃ value, variableOf table (lexGetIDNoError text).1 = some (name, value) ∧
        toCopy value = some source := by
  rw [replaced_cons] at h
  by_cases hnot : c ≠ 0x24 ∨ text.head? = some 0x24
  · rw [if_pos hnot] at h
    cases h
  · rw [if_neg hnot] at h
    obtain ⟨hc, hdollar⟩ := not_or.mp hnot
    refine ⟨not_not.mp hc, hdollar, ?_⟩
    cases hvar : variableOf table (lexGetIDNoError text).1 with
    | none =>
      rw [hvar] at h
      cases h
    | some v =>
      rw [hvar] at h
      obtain ⟨source', hsource, heq⟩ := Option.map_eq_some_iff.mp h
      obtain ⟨rfl, rfl⟩ := Prod.mk.inj heq
      exact ⟨v.2, rfl, hsource⟩

theorem inputVarSub_eq {inString : Bool} {value : Value} {name : Name} (hrest : s.rest = c :: text)
    (hdollar : text.head? ≠ some 0x24)
    (hvar : variableOf env.table (lexGetIDNoError text).1 = some (name, value)) :
    inputVarSub env inString s = (copyVariable name value text s >>= fun s => pure (false, s)) := by
  unfold inputVarSub
  rw [hrest]
  simp only
  rw [if_neg hdollar, hvar, lexGetIDNoError_diag hvar]
  rfl

/-- **`Input_VarSub`** keeps to the buffer just if a variable that it replaces is not behind
`MAX_LINE`. -/
theorem ensuresIff_inputVarSub (inString : Bool) (hrest : s.rest = 0x24 :: text) :
    EnsuresIff (inputVarSub env inString s) (VarFits env s) (VarSubbed env text s) := by
  have hreplaced := replaced_cons env.table 0x24 text
  rw [← hrest] at hreplaced
  unfold inputVarSub
  rw [hrest]
  simp only
  by_cases hdollar : text.head? = some 0x24
  · rw [if_pos (Or.inr hdollar)] at hreplaced
    rw [if_pos hdollar]
    refine (ensures_pure.mpr ?_).ensuresIff (varFits_of_none hreplaced)
    exact .dollar hreplaced (List.drop_suffix _ _) rfl
  · rw [if_neg (by simp [hdollar])] at hreplaced
    rw [if_neg hdollar]
    cases hvar : variableOf env.table (lexGetIDNoError text).1 with
    | none =>
      -- a message may be given while the name is read, and another one behind it
      rw [hvar] at hreplaced
      refine Ensures.ensuresIff ?_ (varFits_of_none hreplaced)
      refine ensures_bind.mpr ((ensures_errorReport? env _ s).imp fun s₁ _ h₁ => ?_)
      refine ensures_bind.mpr ((ensures_errorReport? env _ s₁).imp fun s₂ _ h₂ => ?_)
      refine ensures_pure.mpr (.dollar hreplaced (List.suffix_refl _) ?_)
      change (if s₂.out.length < inputBuffSize then s₂.out ++ [0x24] else s₂.out) = _
      rw [h₂.2, h₁.2]
    | some v =>
      rw [hvar] at hreplaced
      change _ = (toCopy v.2).map _ at hreplaced
      rw [lexGetIDNoError_diag hvar, errorReport?]
      change EnsuresIff (copyVariable v.1 v.2 text s >>= fun s => pure (false, s)) _ _
      cases hcopy : toCopy v.2 with
      | none =>
        rw [hcopy] at hreplaced
        rw [copyVariable, hcopy]
        exact Ensures.ensuresIff ensures_message (varFits_of_none hreplaced)
      | some source =>
        rw [hcopy] at hreplaced
        constructor
        · intro hvarFits
          have hfits := hvarFits (by rw [hreplaced]; rfl)
          rw [copyVariable_eq hcopy hfits, ok_bind]
          exact ensures_pure.mpr (.copied hreplaced hfits)
        · intro hnot
          rw [copyVariable_outside hcopy fun hfits => hnot fun _ => hfits]
          rfl

theorem VarSubbed.onward {r : Bool × ArgSub} (h : VarSubbed env text s r) (hrest : s.rest = c :: text) :
    Onward s r.2 ∧ r.2.rest.length < s.rest.length := by
  have hsuffix : text <:+ s.rest := by
    rw [hrest]
    exact List.suffix_cons c text
  have hshort : ∀ t : Text, t <:+ text → t.length < s.rest.length := by
    intro t ht
    rw [hrest]
    exact Nat.lt_succ_of_le ht.length_le
  cases h with
  | dollar hnone hleft hout =>
    refine ⟨⟨hleft.trans hsuffix, ?_, fun hs => ?_⟩, hshort _ hleft⟩
    · rw [hout]
      split
      · exact List.prefix_append _ _
      · exact List.prefix_refl _
    · rw [hout]
      split
      · rw [List.length_append]
        assumption
      · exact hs
  | copied hsome hfits =>
    refine ⟨⟨(behindName_suffix _ _).trans hsuffix, List.prefix_append _ _, fun _ => ?_⟩,
      hshort _ (behindName_suffix _ _)⟩
    change (s.out ++ _).length ≤ inputBuffSize
    rw [List.length_append, List.length_take]
    unfold inputBuffSize
    omega

/-! ### A string constant -/

theorem more_stringLoop {t : InString} : (stringLoop env quote).more t = true ↔
    t.closed = false ∧ t.sub.out.length < inputBuffSize ∧ t.sub.rest ≠ [] := by
  change (!t.closed && decide (t.sub.out.length < inputBuffSize) && !t.sub.rest.isEmpty) = true ↔ _
  simp only [Bool.and_eq_true, Bool.not_eq_true', decide_eq_true_eq, List.isEmpty_eq_false_iff, and_assoc,
    ne_eq]

theorem ensuresIff_stringTurn {t : InString} (hmore : (stringLoop env quote).more t = true) :
    EnsuresIff (stringTurn env quote t) (t.disableVarSubst = false → VarFits env t.sub)
      fun u => Onward t.sub u.sub ∧ u.sub.rest.length < t.sub.rest.length := by
  obtain ⟨-, hroom, hrest⟩ := more_stringLoop.mp hmore
  obtain ⟨c, rest, hline⟩ := List.exists_cons_of_ne_nil hrest
  unfold stringTurn
  rw [hline]
  simp only
  by_cases hvar : c = 0x24 ∧ t.disableVarSubst = false
  · rw [if_pos hvar]
    obtain ⟨rfl, hon⟩ := hvar
    have hsub : EnsuresIff (inputVarSub env true t.sub) (VarFits env t.sub) _ :=
      ensuresIff_inputVarSub true hline
    rw [← hline]
    exact (hsub.bind fun r hr => ensures_pure.mpr (hr.onward hline)).imp ⟨fun h _ => h, fun h => h hon⟩
      fun _ _ h => h
  · rw [if_neg hvar, putOut_eq hroom]
    refine Ensures.ensuresIff (ensures_pure.mpr ⟨onward_byte hline hroom, Nat.lt_succ_self _⟩) fun hon => ?_
    refine varFits_of_none ?_
    rw [hline]
    exact replaced_eq_none _ fun heq => hvar ⟨heq, hon⟩

theorem next_stringLoop {t u' : InString} (h : (stringLoop env quote).next t = some u') :
    Onward t.sub u'.sub ∧ u'.sub.rest.length < t.sub.rest.length := by
  obtain ⟨hmore, hturn⟩ := Loop.next_eq_some.mp h
  exact (ensuresIff_stringTurn hmore).post hturn

/-- **A string constant** is copied within the buffer just if each variable in it is not behind
`MAX_LINE`. -/
theorem ensuresIff_quoteTurn (hrest : s.rest = quote :: rest) (hroom : s.out.length < inputBuffSize) :
    EnsuresIff (quoteTurn env quote rest s)
      (∀ t, Reaches (stringLoop env quote).next (stringStart quote rest s) t →
        (stringLoop env quote).more t = true → t.disableVarSubst = false → VarFits env t.sub)
      fun u => Onward s u ∧ s.out.length < u.out.length := by
  unfold quoteTurn
  rw [putOut_eq hroom, ok_bind]
  -- each turn shortens the rest of the line
  have hends : (stringLoop env quote).run (rest.length + 1) (stringStart quote rest s) ≠ .error .endless :=
    Loop.run_ne_endless (fun t => t.sub.rest.length) (fun t ht => (ensuresIff_stringTurn ht).ne_endless)
      (fun t u' h => (next_stringLoop h).2) (Nat.lt_succ_self _)
  have hstart : Onward s (stringStart quote rest s).sub := onward_byte hrest hroom
  refine (Loop.ensuresIff_run hends fun t ht => ensuresIff_stringTurn ht).bind fun t ht => ?_
  have hon : Onward (stringStart quote rest s).sub t.sub :=
    Loop.invariant (P := fun t => Onward (stringStart quote rest s).sub t.sub) (Onward.refl _)
      (fun t u' h hnext => h.trans (next_stringLoop hnext).1) ht.1
  refine ensures_pure.mpr ⟨hstart.trans hon, Nat.lt_of_lt_of_le ?_ hon.out.length_le⟩
  change s.out.length < (s.out ++ [quote]).length
  rw [List.length_append]
  exact Nat.lt_succ_self _

/-! ### `|xxx|` and comments -/

theorem copyBars_ok (rest out : Text) : ∃ r, copyBars rest out = .ok r ∧ r.1 <:+ rest ∧ out <+: r.2 ∧
    (out.length ≤ inputBuffSize → r.2.length ≤ inputBuffSize) := by
  induction rest generalizing out with
  | nil => exact ⟨_, rfl, List.suffix_refl _, List.prefix_refl _, id⟩
  | cons c rest ih =>
    by_cases hroom : out.length < inputBuffSize
    · have hlen : (out ++ [c]).length ≤ inputBuffSize := by
        rw [List.length_append]
        exact hroom
      have hbars : copyBars (c :: rest) out =
          if c = 0x7C then .ok (rest, out ++ [c]) else copyBars rest (out ++ [c]) := by
        rw [copyBars, if_pos hroom, putOut_eq hroom]
        rfl
      rw [hbars]
      by_cases hbar : c = 0x7C
      · rw [if_pos hbar]
        exact ⟨_, rfl, List.suffix_cons c rest, List.prefix_append _ _, fun _ => hlen⟩
      · rw [if_neg hbar]
        obtain ⟨r, hr, hrest, hout, hfits⟩ := ih (out ++ [c])
        exact ⟨r, hr, hrest.trans (List.suffix_cons c rest), (List.prefix_append _ _).trans hout,
          fun _ => hfits hlen⟩
    · rw [copyBars, if_neg hroom]
      exact ⟨_, rfl, List.suffix_refl _, List.prefix_refl _, id⟩

theorem ensures_barTurn (hrest : s.rest = c :: rest) (hroom : s.out.length < inputBuffSize) :
    Ensures (barTurn c rest s) fun u => Onward s u ∧ s.out.length < u.out.length := by
  unfold barTurn
  rw [putOut_eq hroom, ok_bind]
  have hbyte := onward_byte hrest hroom
  obtain ⟨r, hr, hleft, hout, hfits⟩ := copyBars_ok rest (s.out ++ [c])
  rw [hr, ok_bind]
  refine ensures_pure.mpr ⟨hbyte.trans ⟨hleft, hout, hfits⟩, Nat.lt_of_lt_of_le ?_ hout.length_le⟩
  rw [List.length_append]
  exact Nat.lt_succ_self _

/-- What holds of the state throughout: the rest of the line is in `workBuff`, and the buffer has not
been left. -/
structure ArgSub.Sound (s : ArgSub) : Prop where
  rest : s.rest.length ≤ maxLine
  noNul : 0 ∉ s.rest
  out : s.out.length ≤ inputBuffSize

theorem ArgSub.Sound.onward (hs : s.Sound) (h : Onward s s') : s'.Sound where
  rest := h.rest.length_le.trans hs.rest
  noNul := fun hmem => hs.noNul (h.rest.subset hmem)
  out := h.fits hs.out

theorem commentTurn_stands (hend : s.out.length + s.rest.length = maxLine) : commentTurn s = .ok s := by
  have hle : s.out.length ≤ maxLine := by omega
  have hbuff : maxLine < inputBuffSize := by decide
  have hzero : sizeSub (sizeSub maxLine s.out.length) s.rest.length = 0 := by
    unfold sizeSub
    rw [if_pos hle, if_pos (by omega)]
    omega
  unfold commentTurn
  simp only [hend, le_refl, if_true, hzero]
  rw [copyOut_eq, if_pos (by omega), ok_bind, List.take_zero, List.append_nil, List.drop_zero]
  rfl

/-- **A comment** is copied within the buffer just if it ends at `MAX_LINE` at the latest. If it ends
there, nothing is copied at all. -/
theorem ensuresIff_commentTurn (hs : s.Sound) (hrest : s.rest ≠ []) : EnsuresIff (commentTurn s)
    (s.out.length + s.rest.length ≤ maxLine) fun u =>
      (Onward s u ∧ s.out.length < u.out.length) ∨ (s.out.length + s.rest.length = maxLine ∧ u = s) := by
  have hpos : 0 < s.rest.length := List.length_pos_iff.mpr hrest
  have hbuff : maxLine < inputBuffSize := by decide
  have hwrap : inputBuffSize < 2 ^ 64 - inputBuffSize := by decide
  have hout := hs.out
  have hlen := hs.rest
  unfold commentTurn
  constructor
  · intro hfits
    by_cases hlt : s.out.length + s.rest.length < maxLine
    · -- there is room for all of it
      simp only [Nat.not_le.mpr hlt, if_false]
      rw [copyOut_eq, if_pos (by omega), ok_bind, List.take_length]
      refine ensures_pure.mpr (Or.inl ⟨⟨List.drop_suffix _ _, List.prefix_append _ _, fun _ => ?_⟩, ?_⟩)
      · change (s.out ++ s.rest).length ≤ inputBuffSize
        rw [List.length_append]
        omega
      · change s.out.length < (s.out ++ s.rest).length
        rw [List.length_append]
        omega
    · have heq : s.out.length + s.rest.length = maxLine := by omega
      have hstands := commentTurn_stands heq
      unfold commentTurn at hstands
      rw [hstands]
      exact ensures_ok.mpr (Or.inr ⟨heq, rfl⟩)
  · intro hbig
    -- the length wraps, in one of the two differences
    have hlong : inputBuffSize < sizeSub (sizeSub maxLine s.out.length) s.rest.length := by
      unfold sizeSub
      by_cases hle : s.out.length ≤ maxLine
      · rw [if_pos hle, if_neg (by omega)]
        omega
      · rw [if_neg hle, if_pos (by omega)]
        omega
    simp only [show maxLine ≤ s.out.length + s.rest.length by omega, if_true]
    rw [copyOut_eq, if_neg (by omega)]
    rfl

/-! ### A turn -/

/-- **The rest of a line with its first variable replaced**, at a place in the output. There is none if
the line does not begin with a variable, or becomes too long. -/
def expand (table : SymbolTable) (outOffset : ℕ) (rest : Text) : Option Text :=
  match replaced table rest with
  | none => none
  | some r =>
    let text := r.2.take (maxLine - outOffset) ++ behindName r.1 (rest.drop 1)
    if outOffset ≤ maxLine ∧ text.length ≤ maxLine then some (CText.cstr text) else none

/-- **What a turn does.** -/
inductive Stepped (env : SubstEnv) (s : ArgSub) : ArgSub → Prop
  | goesOn {u : ArgSub} (hon : Onward s u) (hlt : s.out.length < u.out.length) : Stepped env s u
  | expands {text : Text} (h : expand env.table s.out.length s.rest = some text) :
      Stepped env s { s with rest := text }
  /-- A comment that ends at `MAX_LINE` stays where it is. -/
  | stands (hcomment : s.rest.head? = some 0x3B) (hend : s.out.length + s.rest.length = maxLine) :
      Stepped env s s

theorem expand_eq {name : Name} {source text' : Text} {n : ℕ} (hrest : rest = c :: text)
    (hreplaced : replaced env.table rest = some (name, source)) (hn : n ≤ maxLine)
    (htext : source.take (maxLine - n) ++ behindName name text = text') (hlen : text'.length ≤ maxLine) :
    expand env.table n rest = some (CText.cstr text') := by
  unfold expand
  rw [hreplaced, hrest, List.drop_succ_cons, List.drop_zero]
  simp only
  rw [htext, if_pos ⟨hn, hlen⟩]

theorem ensuresIff_dollarTurn (hs : s.Sound) (hrest : s.rest = 0x24 :: text)
    (hroom : s.out.length < inputBuffSize) :
    EnsuresIff (dollarTurn env s) (VarFits env s) (Stepped env s) := by
  unfold dollarTurn
  refine (ensuresIff_inputVarSub false hrest).bind fun r hr => ?_
  have hon := (hr.onward hrest).1
  cases hr with
  | dollar hnone hleft hout =>
    simp only [Bool.true_eq_false, and_false, if_false]
    refine ensures_pure.mpr (.goesOn hon ?_)
    rw [hout, if_pos hroom, List.length_append]
    exact Nat.lt_succ_self _
  | @copied name source hsome hfits =>
    have hbehind : (behindName name text).length ≤ maxLine := by
      have hlen := hs.rest
      rw [hrest, List.length_cons] at hlen
      exact ((behindName_suffix name text).length_le).trans (by omega)
    have hnoNul : 0 ∉ behindName name text := by
      intro hmem
      refine hs.noNul ?_
      rw [hrest]
      exact List.mem_cons_of_mem _ ((behindName_suffix name text).subset hmem)
    simp only [List.drop_left]
    by_cases hempty : source.take (maxLine - s.out.length) = []
    · -- an empty value: the line goes on behind the name
      rw [if_neg (fun h => h.1 hempty), hempty, List.append_nil]
      have hexpand : expand env.table s.out.length s.rest = some (behindName name text) := by
        rw [expand_eq hrest hsome hfits (by rw [hempty, List.nil_append]) hbehind,
          CText.cstr_of_notMem hnoNul]
      exact ensures_pure.mpr (.expands hexpand)
    · rw [if_pos ⟨hempty, trivial⟩]
      split
      · rename_i hwork
        refine ensures_pure.mpr (.expands ?_)
        refine expand_eq hrest hsome hfits rfl ?_
        rw [List.length_append]
        unfold workBuffSize at hwork
        omega
      · rw [errorReport_lineOverflow]
        exact ensures_message

theorem more_argSubLoop :
    (argSubLoop env).more s = true ↔ s.rest ≠ [] ∧ s.out.length < inputBuffSize := by
  change (!s.rest.isEmpty && decide (s.out.length < inputBuffSize)) = true ↔ _
  simp only [Bool.and_eq_true, Bool.not_eq_true', decide_eq_true_eq, List.isEmpty_eq_false_iff, ne_eq]

theorem turnFits_of_comment (hrest : s.rest = c :: rest) (hdollar : c ≠ 0x24)
    (hquote : ¬(c = 0x27 ∨ c = 0x22))
    (hcomment : c = 0x3B → s.out.length + s.rest.length ≤ maxLine) : TurnFits env s where
  comment h := by
    rw [hrest] at h
    exact hcomment (Option.some.inj h)
  var := varFits_of_none (by rw [hrest]; exact replaced_eq_none _ hdollar)
  string quote rest' h hq := by
    rw [hrest] at h
    exact absurd ((List.cons.inj h).1 ▸ hq) hquote

theorem ensuresIff_argSubTurn (hs : s.Sound) (hmore : (argSubLoop env).more s = true) :
    EnsuresIff (argSubTurn env s) (TurnFits env s) (Stepped env s) := by
  obtain ⟨hne, hroom⟩ := more_argSubLoop.mp hmore
  obtain ⟨c, rest, hrest⟩ := List.exists_cons_of_ne_nil hne
  unfold argSubTurn
  rw [hrest]
  simp only
  by_cases hcomment : c = 0x3B
  · rw [if_pos hcomment]
    refine (ensuresIff_commentTurn hs hne).imp ⟨fun h => ?_, fun h => ?_⟩ fun u _ hu => ?_
    · exact turnFits_of_comment hrest (by rw [hcomment]; decide) (by rw [hcomment]; decide) fun _ => h
    · exact h.comment (by rw [hrest, hcomment]; rfl)
    · obtain ⟨hon, hlt⟩ | ⟨hend, rfl⟩ := hu
      · exact .goesOn hon hlt
      · exact .stands (by rw [hrest, hcomment]; rfl) hend
  rw [if_neg hcomment]
  by_cases hbar : c = 0x7C
  · rw [if_pos hbar]
    exact ((ensures_barTurn hrest hroom).imp fun u _ h => .goesOn h.1 h.2).ensuresIff
      (turnFits_of_comment hrest (by rw [hbar]; decide) (by rw [hbar]; decide) fun h => absurd h hcomment)
  rw [if_neg hbar]
  by_cases hquote : c = 0x27 ∨ c = 0x22
  · rw [if_pos hquote]
    refine (ensuresIff_quoteTurn hrest hroom).imp ⟨fun h => ⟨fun hhead => ?_, ?_, ?_⟩, fun h => ?_⟩
      fun u _ h => .goesOn h.1 h.2
    · rw [hrest] at hhead
      exact absurd (Option.some.inj hhead) hcomment
    · refine varFits_of_none ?_
      rw [hrest]
      refine replaced_eq_none _ fun heq => ?_
      rw [heq] at hquote
      exact absurd hquote (by decide)
    · intro quote rest' heq _
      rw [hrest] at heq
      obtain ⟨rfl, rfl⟩ := List.cons.inj heq
      exact h
    · exact h.string c rest hrest hquote
  rw [if_neg hquote]
  by_cases hdollar : c = 0x24
  · rw [if_pos hdollar]
    rw [hdollar] at hrest
    refine (ensuresIff_dollarTurn hs hrest hroom).imp ⟨fun h => ⟨fun hhead => ?_, h, ?_⟩, fun h => h.var⟩
      fun _ _ h => h
    · rw [hrest] at hhead
      exact absurd (Option.some.inj hhead) (by decide)
    · intro quote rest' heq hq
      rw [hrest] at heq
      exact absurd ((List.cons.inj heq).1 ▸ hq) (by decide)
  rw [if_neg hdollar, putOut_eq hroom]
  refine Ensures.ensuresIff (ensures_pure.mpr (.goesOn (onward_byte hrest hroom) ?_))
    (turnFits_of_comment hrest hdollar hquote fun h => absurd h hcomment)
  change s.out.length < (s.out ++ [c]).length
  rw [List.length_append]
  exact Nat.lt_succ_self _

theorem Stepped.sound (h : Stepped env s u) (hs : s.Sound) : u.Sound := by
  cases h with
  | goesOn hon _ => exact hs.onward hon
  | stands => exact hs
  | @expands text h =>
    unfold expand at h
    cases hreplaced : replaced env.table s.rest with
    | none =>
      rw [hreplaced] at h
      cases h
    | some r =>
      rw [hreplaced] at h
      simp only at h
      split at h
      · rename_i hfits
        obtain rfl := Option.some.inj h
        exact ⟨(List.takeWhile_prefix _).length_le.trans hfits.2, CText.zero_notMem_cstr _, hs.out⟩
      · cases h

theorem stepped_of_next (hs : s.Sound) (h : (argSubLoop env).next s = some u) : Stepped env s u := by
  obtain ⟨hmore, hturn⟩ := Loop.next_eq_some.mp h
  exact (ensuresIff_argSubTurn hs hmore).post hturn

theorem argSubStart_sound (numErrors : ℕ) (workBuff : WorkBuff) : (argSubStart numErrors workBuff).Sound :=
  ⟨Nat.le_of_lt_succ workBuff.fits, workBuff.noNul, Nat.zero_le _⟩

theorem sound_of_reaches {numErrors : ℕ} {workBuff : WorkBuff}
    (h : Reaches (argSubLoop env).next (argSubStart numErrors workBuff) s) : s.Sound :=
  Loop.invariant (argSubStart_sound numErrors workBuff)
    (fun _ _ hs hnext => (stepped_of_next hs hnext).sound hs) h

/-! ### The whole line -/

theorem keeps_argSubEnd (hs : s.Sound) : TurnLoop.Keeps (argSubEnd env s) (fun u => 0 ∈ u.out) ↔
    (s.rest = [] → s.out.length < inputBuffSize ∨ 0 ∈ s.out) := by
  unfold argSubEnd
  by_cases hrest : s.rest = []
  · rw [if_neg (not_not.mpr hrest), imp_iff_right hrest]
    by_cases hroom : s.out.length < inputBuffSize
    · rw [if_pos hroom, putOut_eq hroom]
      exact iff_of_true (keeps_ok.mpr (List.mem_append_right _ (List.mem_singleton.mpr rfl))) (Or.inl hroom)
    · rw [if_neg hroom, or_iff_right hroom]
      exact keeps_ok
  · rw [if_pos hrest, errorReport_lineOverflow]
    exact iff_of_true (keeps_error.mpr nofun) fun h => absurd h hrest

/-- **The substitution keeps to `input_buff` and ends it with a NUL**, with any number of turns, if and
only if each state that the loop stands before has what it needs. -/
theorem inputArgSub_keeps_iff (env : SubstEnv) (numErrors : ℕ) (workBuff : WorkBuff) :
    (∀ turns, TurnLoop.Keeps (inputArgSub env turns numErrors workBuff) fun s => 0 ∈ s.out) ↔
      ∀ s, Reaches (argSubLoop env).next (argSubStart numErrors workBuff) s → Fits env s := by
  refine Loop.forall_keeps_iff.trans (forall₂_congr fun s hreach => ?_)
  have hs := sound_of_reaches hreach
  constructor
  · rintro ⟨hturn, hstop⟩
    refine ⟨fun hmore => (ensuresIff_argSubTurn hs hmore).safe_iff.mp (hturn hmore), fun hrest => ?_⟩
    have hmore : (argSubLoop env).more s = false := by
      rw [Bool.eq_false_iff]
      exact fun h => (more_argSubLoop.mp h).1 hrest
    exact (keeps_argSubEnd hs).mp (hstop hmore) hrest
  · rintro ⟨hturn, hended⟩
    exact ⟨fun hmore => (ensuresIff_argSubTurn hs hmore).safe_iff.mpr (hturn hmore),
      fun _ => (keeps_argSubEnd hs).mpr hended⟩

/-- An assembly with one variable, the string `a`. -/
def stringEnv (value : Name) : SubstEnv where
  table := ⟨SymHeap.ofList [{ str := cstr "a", type := symbolRW, value := .string value }], fun _ => [0]⟩
  phase := .passOne
  optionNowarn := false
  optionPedantic := false
  warnOnVarSubFail := true

/-- A line of a few bytes: behind the first value the buffer is full up to `MAX_LINE`, and the second one
is written behind it. -/
theorem inputArgSub_not_kept : ¬TurnLoop.Keeps
    (inputArgSub (stringEnv (List.replicate 4095 0x78)) 2 0 ⟨cstr "\"$a$$$a\"", by decide, by decide⟩)
    fun s => 0 ∈ s.out := by
  have hout : ¬Safe (inputArgSub (stringEnv (List.replicate 4095 0x78)) 2 0
      ⟨cstr "\"$a$$$a\"", by decide, by decide⟩) := by
    decide +kernel
  exact fun h => hout h.1

end Asasm
