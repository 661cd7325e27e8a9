import Gccsdk.UnixLib.ArgRedirection
import Mathlib.Data.List.TakeWhile

/-!
# Which arguments reach the new process

`execve` escapes quotation marks and control characters and puts an argument with white space in quotes. It
does not escape a backslash, gives an empty argument no quotes, and protects nothing that
`verify_redirection` takes for a redirection. `ArgOk` says for which arguments this does no harm, and
`convertArgs_argsText_iff` that the new process gets the arguments if they are all of this kind, and something
else if they are not.

The argument is read along with its encoding, character for character (`finishArg_readsBack`). At the first
character that is not read back some weight is lost (`finishArg_lt_of_not_readsBack`), which nothing behind
it makes up for.
-/

namespace UnixLib

/-! ### Arguments that are read back -/

/-- The character `c` of an argument without white space, between `b` and the text `r`, is read back: it is
escaped, or it is a backslash that escapes the one before an apostrophe, or it is no redirection. -/
def charOk (b c : UInt8) (r : Text) : Bool :=
  if isControl c || (isQuote c && b ≠ BACKSLASH) then true
  else if c = BACKSLASH then r[0]? = some SQUOTE
  else !verifyRedirection ⟨b, c :: r⟩

/-- The characters of an argument without white space are read back, with `b` before them. -/
def readsBack : UInt8 → Text → Bool
  | _, [] => true
  | b, c :: r => charOk b c r && readsBack c r

def backslashesOk : Text → Bool
  | [] => true
  | c :: r => (c ≠ BACKSLASH || r[0]? = some SQUOTE) && backslashesOk r

def ArgOk (a : Text) : Prop :=
  a ≠ [] ∧
    if a.any isspace then backslashesOk a = true ∧ verifyRedirection ⟨SPACE, DQUOTE :: a⟩ = false
    else readsBack SPACE a = true

instance (a : Text) : Decidable (ArgOk a) := by
  unfold ArgOk
  infer_instance

/-! ### Steps -/

section Steps

variable {argc : ℕ} {first e : Bool} {p r : Text} {b c : UInt8}

theorem readArg_of_step {st : ArgState} (h : st.cli.argEnds = false) :
    readArg first st = readArg first (argStep first st) := by
  rw [readArg, dif_neg (by simp [h])]

theorem escape_char (hx : c ≠ LETTER_X) : escape p ⟨b, c :: r⟩ = (p ++ [c], ⟨c, r⟩) := by
  unfold escape
  exact if_neg hx

theorem escape_hex {hi lo : UInt8} : escape p ⟨b, LETTER_X :: hi :: lo :: r⟩ =
    (p ++ [hexstrtochar hi lo], ⟨lo, r⟩) :=
  rfl

theorem argStep_plain (hb : c ≠ BACKSLASH) (hd : c ≠ DQUOTE) (hm : c = SQUOTE → isspace b = false)
    (hv : first = true ∨ verifyRedirection ⟨b, c :: r⟩ = false) :
    argStep first ⟨p, e, ⟨b, c :: r⟩⟩ = ⟨p ++ [c], e, ⟨c, r⟩⟩ := by
  have hv' : (!first && verifyRedirection ⟨b, c :: r⟩) = false := by
    rcases hv with rfl | hv
    · rfl
    · rw [hv, Bool.and_false]
  have hm' : ¬(c = SQUOTE ∧ isspace b = true) := by
    rintro ⟨hc, hs⟩
    rw [hm hc] at hs
    cases hs
  unfold argStep
  dsimp only
  rw [hv', if_neg (by simp), if_neg hb, if_neg hd, if_neg hm']

theorem argStep_escape (hc : c ≠ AMPERSAND) : argStep first ⟨p, e, ⟨b, BACKSLASH :: c :: r⟩⟩ =
    ⟨(escape p ⟨BACKSLASH, c :: r⟩).1, e, (escape p ⟨BACKSLASH, c :: r⟩).2⟩ := by
  unfold argStep
  dsimp only
  rw [verifyRedirection_backslash hc, Bool.and_false, if_neg (by simp), if_pos rfl]

def isEscaped (c : UInt8) : Bool := isQuote c || isControl c

theorem escape_escapeChar (hc : isEscaped c = true) : ∃ d s, escapeChar c = BACKSLASH :: d :: s ∧
    d ≠ AMPERSAND ∧ ∀ b' : UInt8, escape p ⟨BACKSLASH, d :: (s ++ r)⟩ =
      (p ++ [c], ⟨(escapeChar c).getLastD b', r⟩) := by
  unfold escapeChar
  by_cases hq : isQuote c = true
  · refine ⟨c, [], by rw [if_pos hq], ?_, fun b' => ?_⟩
    · rintro rfl
      cases hq
    · have hx : c ≠ LETTER_X := by
        rintro rfl
        cases hq
      rw [if_pos hq, List.nil_append, escape_char hx]
      rfl
  · have hctl : isControl c = true := by
      unfold isEscaped at hc
      rw [Bool.or_eq_true] at hc
      exact hc.resolve_left hq
    refine ⟨LETTER_X, _, by rw [if_neg hq, if_pos hctl]; rfl, by decide, fun b' => ?_⟩
    rw [if_neg hq, if_pos hctl]
    change escape p ⟨BACKSLASH, LETTER_X :: _ :: _ :: r⟩ = _
    rw [escape_hex, (hexEscape_digits hctl).value]
    rfl

theorem getLastD_escapeChar (hc : isEscaped c = true) (b' : UInt8) :
    ((escapeChar c).getLastD b' = SPACE ↔ c = SPACE) := by
  have hne : c ≠ SPACE := by
    rintro rfl
    cases hc
  refine ⟨fun h => absurd h ?_, fun h => absurd h hne⟩
  unfold escapeChar
  by_cases hq : isQuote c = true
  · rw [if_pos hq]
    exact hne
  · have hctl : isControl c = true := by
      unfold isEscaped at hc
      rw [Bool.or_eq_true] at hc
      exact hc.resolve_left hq
    rw [if_neg hq, if_pos hctl]
    exact (isFree_iff.mp (hexEscape_digits hctl).lo_free).2.2.1

theorem argStep_escapeChar (hc : isEscaped c = true) :
    argStep first ⟨p, e, ⟨b, escapeChar c ++ r⟩⟩ =
      ⟨p ++ [c], e, ⟨(escapeChar c).getLastD b, r⟩⟩ := by
  obtain ⟨d, s, hds, hd, hesc⟩ := escape_escapeChar (p := p) (r := r) hc
  have h := hesc b
  rw [hds] at h ⊢
  rw [List.cons_append, List.cons_append, argStep_escape hd, h]

theorem argEnds_escapeChar (hc : isEscaped c = true) :
    (⟨b, escapeChar c ++ r⟩ : Cursor).argEnds = false := by
  obtain ⟨d, s, hds, -, -⟩ := escape_escapeChar (p := []) (r := []) hc
  rw [hds]
  rfl

theorem finishArg_end (hr : r[0]? = none ∨ r[0]? = some SPACE) {a : Text} (hne : a ≠ [])
    (h0 : 0 ∉ a) : finishArg argc ⟨a, e, ⟨b, r⟩⟩ = a :: convertArgs (argc + 1) ⟨b, r⟩ := by
  have hends : (⟨b, r⟩ : Cursor).argEnds = true := by
    cases r with
    | nil => rfl
    | cons d r =>
      obtain rfl : d = SPACE := by simpa using hr
      rfl
  have hread : readArg (argc = 0) ⟨a, e, ⟨b, r⟩⟩ = ⟨a, e, ⟨b, r⟩⟩ := by
    rw [readArg, dif_pos hends]
  have htake : a.takeWhile (· ≠ 0) = a := by
    rw [List.takeWhile_eq_self_iff]
    intro d hd
    refine decide_eq_true fun h => ?_
    rw [h] at hd
    exact h0 hd
  unfold finishArg
  rw [hread, if_pos (Or.inl hne), htake]

end Steps

/-! ### Arguments without white space -/

theorem isPlainChar {c : UInt8} (hc : isEscaped c = false) :
    isQuote c = false ∧ isControl c = false ∧ escapeChar c = [c] ∧ weighChar c = [(c, charWeight c)] := by
  unfold isEscaped at hc
  rw [Bool.or_eq_false_iff] at hc
  unfold escapeChar weighChar
  simp [hc.1, hc.2]

theorem charOk_escaped {b c : UInt8} (hc : isEscaped c = true) (hb : b ≠ BACKSLASH) (r : Text) :
    charOk b c r = true := by
  unfold charOk
  rw [if_pos]
  unfold isEscaped at hc
  rw [Bool.or_eq_true] at hc
  rcases hc with h | h
  · simp [h, hb]
  · simp [h]

theorem charOk_backslash (b : UInt8) (r : Text) :
    charOk b BACKSLASH r = decide (r[0]? = some SQUOTE) := rfl

theorem charOk_mark (r : Text) :
    charOk BACKSLASH SQUOTE r = !verifyRedirection ⟨BACKSLASH, SQUOTE :: r⟩ := rfl

theorem charOk_plain {b c : UInt8} (hc : isEscaped c = false) (hb : c ≠ BACKSLASH) (r : Text) :
    charOk b c r = !verifyRedirection ⟨b, c :: r⟩ := by
  obtain ⟨hq, hctl, -, -⟩ := isPlainChar hc
  unfold charOk
  rw [if_neg (by simp [hq, hctl]), if_neg hb]

theorem isspace_of_eq_space {c : UInt8} (hc : isspace c = false) : c ≠ SPACE := by
  rintro rfl
  cases hc

theorem not_isQuote {c : UInt8} (hc : isEscaped c = false) : c ≠ DQUOTE ∧ c ≠ SQUOTE := by
  obtain ⟨hq, -, -, -⟩ := isPlainChar hc
  constructor
  · rintro rfl
    cases hq
  · rintro rfl
    cases hq

theorem backslash_followed (r : Text) :
    (∃ d r', r = d :: r' ∧ isQuote d = true) ∨
      ∀ {TR : Weighted}, (∀ x ∈ TR.head?, 1 ≤ x.2 ∨ x.1 = DQUOTE) →
        ∀ x ∈ (r.flatMap weighChar ++ TR).head?, 1 ≤ x.2 ∨ x.1 = DQUOTE := by
  cases r with
  | nil => exact Or.inr fun h => h
  | cons d r =>
    by_cases hq : isQuote d = true
    · exact Or.inl ⟨d, r, rfl, hq⟩
    · refine Or.inr fun _ x hx => Or.inl ?_
      rw [List.flatMap_cons] at hx
      unfold weighChar at hx
      rw [if_neg hq] at hx
      by_cases hc : isControl d = true
      · rw [if_pos hc] at hx
        cases hx
        exact Nat.le_refl _
      · rw [if_neg hc] at hx
        cases hx
        exact charWeight_pos d

section Unquoted

variable {argc : ℕ} {R : Text}

/-- **An argument that is read back.** The reader is somewhere in the argument, behind `b` in it and behind
`b'` in what is written. -/
theorem finishArg_readsBack (hargc : argc ≠ 0) (hR : R[0]? = none ∨ R[0]? = some SPACE) (e : Bool) :
    ∀ (a p : Text) (b b' : UInt8), (b = SPACE ↔ b' = SPACE) → b ≠ BACKSLASH →
      (∀ c ∈ a, isspace c = false) → readsBack b a = true →
      ∃ l, finishArg argc ⟨p, e, ⟨b', a.flatMap escapeChar ++ R⟩⟩ = finishArg argc ⟨p ++ a, e, ⟨l, R⟩⟩
  | [], p, _, b', _, _, _, _ => ⟨b', by simp⟩
  | c :: r, p, b, b', hb, hne, hs, h => by
    rw [readsBack, Bool.and_eq_true] at h
    obtain ⟨hok, h⟩ := h
    have hr : ∀ d ∈ r, isspace d = false := fun d hd => hs d (List.mem_cons_of_mem _ hd)
    have hfirst : decide (argc = 0) = false := decide_eq_false hargc
    rw [List.flatMap_cons, List.append_assoc]
    by_cases hc : isEscaped c = true
    · rw [finishArg_of_step (argEnds_escapeChar hc), hfirst, argStep_escapeChar hc]
      have hcb : c ≠ BACKSLASH := by
        rintro rfl
        cases hc
      obtain ⟨l, hl⟩ := finishArg_readsBack hargc hR e r (p ++ [c]) c _
        (getLastD_escapeChar hc b').symm hcb hr h
      exact ⟨l, by rw [hl, List.append_assoc, List.singleton_append]⟩
    · rw [Bool.not_eq_true] at hc
      obtain ⟨hq, hctl, hesc, -⟩ := isPlainChar hc
      rw [hesc, List.singleton_append]
      by_cases hcb : c = BACKSLASH
      · -- The backslash escapes the one of the apostrophe, which is then read as it is.
        subst hcb
        rw [charOk_backslash, decide_eq_true_eq] at hok
        cases r with
        | nil => cases hok
        | cons d r =>
          obtain rfl : d = SQUOTE := by simpa using hok
          rw [readsBack, Bool.and_eq_true, charOk_mark, Bool.not_eq_true'] at h
          obtain ⟨hv, h⟩ := h
          have hr' : ∀ d ∈ r, isspace d = false := fun d hd => hr d (List.mem_cons_of_mem _ hd)
          rw [← verifyRedirection_escaped hR _ _ fun d hd => isspace_of_eq_space (hr' d hd)] at hv
          change ∃ l, finishArg argc ⟨p, e, ⟨b', BACKSLASH :: BACKSLASH :: SQUOTE ::
            (r.flatMap escapeChar ++ R)⟩⟩ = _
          rw [finishArg_of_step rfl, hfirst, argStep_escape (by decide), escape_char (by decide),
            finishArg_of_step rfl, hfirst, argStep_plain (by decide) (by decide) (fun _ => rfl)
              (Or.inr hv)]
          obtain ⟨l, hl⟩ := finishArg_readsBack hargc hR e r (p ++ [BACKSLASH] ++ [SQUOTE]) SQUOTE
            SQUOTE Iff.rfl (by decide) hr' h
          exact ⟨l, by rw [hl]; simp⟩
      · rw [charOk_plain hc hcb, Bool.not_eq_true'] at hok
        have hsc : isspace c = false := hs c List.mem_cons_self
        rw [verifyRedirection_before hb,
          ← verifyRedirection_escaped hR _ _ fun d hd => isspace_of_eq_space (hr d hd)] at hok
        obtain ⟨hd, hm⟩ := not_isQuote hc
        rw [finishArg_of_step (by exact hsc), hfirst,
          argStep_plain hcb hd (fun h => absurd h hm) (Or.inr hok)]
        obtain ⟨l, hl⟩ := finishArg_readsBack hargc hR e r (p ++ [c]) c c Iff.rfl hcb hr h
        exact ⟨l, by rw [hl, List.append_assoc, List.singleton_append]⟩

/-- **An argument that is not read back.** What is lost at the first character that is not read back is
missing in the end. -/
theorem finishArg_lt_of_not_readsBack (hargc : argc ≠ 0) {B : UInt8} {W TR : Weighted}
    (hW : Fair B W) (hR : ∀ x ∈ TR.head?, x.1 = SPACE ∧ 1 ≤ x.2) (e : Bool) :
    ∀ (a p : Text) (b b' : UInt8), (b = SPACE ↔ b' = SPACE) → b ≠ BACKSLASH →
      (∀ c ∈ a, isspace c = false) → readsBack b a = false →
      Stands B W ⟨b', a.flatMap escapeChar ++ charsOf TR⟩ (a.flatMap weighChar ++ TR) →
      argsWeight (finishArg argc ⟨p, e, ⟨b', a.flatMap escapeChar ++ charsOf TR⟩⟩) ≤
        textWeight p + textWeight a + weightOf TR
  | [], _, _, _, _, _, _, h, _ => by cases h
  | c :: r, p, b, b', hb, hne, hs, h, hT => by
    have hr : ∀ d ∈ r, isspace d = false := fun d hd => hs d (List.mem_cons_of_mem _ hd)
    have hfirst : decide (argc = 0) = false := decide_eq_false hargc
    have hR' : (charsOf TR)[0]? = none ∨ (charsOf TR)[0]? = some SPACE := by
      cases TR with
      | nil => exact Or.inl rfl
      | cons x TR => exact Or.inr (by simp [(hR x rfl).1])
    have hsc : isspace c = false := hs c List.mem_cons_self
    have htr := weightOf_flatMap r
    rw [List.flatMap_cons, List.append_assoc] at hT ⊢
    rw [List.flatMap_cons, List.append_assoc] at hT
    rw [textWeight_cons]
    by_cases hc : isEscaped c = true
    · have hcb : c ≠ BACKSLASH := by
        rintro rfl
        cases hc
      rw [readsBack, charOk_escaped hc hne, Bool.true_and] at h
      rw [finishArg_of_step (argEnds_escapeChar hc), hfirst, argStep_escapeChar hc]
      have ih := finishArg_lt_of_not_readsBack hargc hW hR e r (p ++ [c]) c _
        (getLastD_escapeChar hc b').symm hcb hr h (hT.append (charsOf_weighChar c))
      rw [textWeight_append, textWeight_cons, textWeight_nil] at ih
      omega
    · rw [Bool.not_eq_true] at hc
      obtain ⟨hq, hctl, hesc, hwt⟩ := isPlainChar hc
      have hX : r.flatMap escapeChar ++ charsOf TR = charsOf (r.flatMap weighChar ++ TR) := by
        rw [charsOf_append, charsOf_flatMap]
      have hw : weightOf (r.flatMap weighChar ++ TR) = textWeight r + weightOf TR := by
        rw [weightOf_append, htr]
      have htail := hT.append (charsOf_weighChar c)
      rw [hesc, List.singleton_append, hwt, List.singleton_append] at hT
      rw [hesc, List.singleton_append]
      by_cases hcb : c = BACKSLASH
      · subst hcb
        have hn : charWeight BACKSLASH = 4 := rfl
        rw [hn] at hT ⊢
        rcases backslash_followed r with ⟨d, r', rfl, hd⟩ | hlost
        · -- It is read with the backslash of the quotation mark.
          have hr' : ∀ d ∈ r', isspace d = false := fun d hd => hr d (List.mem_cons_of_mem _ hd)
          have hed : escapeChar d = [BACKSLASH, d] := if_pos hd
          have hwd : weighChar d = [(BACKSLASH, 0), (d, 1)] := if_pos hd
          have hX' : r'.flatMap escapeChar ++ charsOf TR = charsOf (r'.flatMap weighChar ++ TR) := by
            rw [charsOf_append, charsOf_flatMap]
          have hw' : weightOf (r'.flatMap weighChar ++ TR) = textWeight r' + weightOf TR := by
            rw [weightOf_append, weightOf_flatMap]
          have hmark : Stands B W ⟨BACKSLASH, d :: (r'.flatMap escapeChar ++ charsOf TR)⟩
              ((d, 1) :: (r'.flatMap weighChar ++ TR)) := by
            rw [List.flatMap_cons, List.flatMap_cons, hed, hwd] at htail
            rw [hesc] at htail
            exact Stands.append (a := BACKSLASH) (s := [BACKSLASH]) (D := [(BACKSLASH, 0)]) htail rfl
          have hdw : textWeight (d :: r') = 1 + textWeight r' := by
            rcases isQuote_iff.mp hd with rfl | rfl
            · exact textWeight_cons _ _
            · exact textWeight_cons _ _
          rw [List.flatMap_cons, hed]
          change argsWeight (finishArg argc ⟨p, e, ⟨b', BACKSLASH :: BACKSLASH :: d ::
            (r'.flatMap escapeChar ++ charsOf TR)⟩⟩) ≤ _
          rw [finishArg_of_step rfl, hfirst, argStep_escape (by decide), escape_char (by decide)]
          dsimp only
          have hp : textWeight (p ++ [BACKSLASH]) = textWeight p + 4 := textWeight_append _ _
          rcases isQuote_iff.mp hd with rfl | rfl
          · rw [hX'] at hmark ⊢
            rw [finishArg_of_step rfl, hfirst]
            have hle := (argStep_quote_loses (f := false) (p := p ++ [BACKSLASH]) (e := e) hW
              hmark).finishArg_le hW argc
            omega
          · rw [finishArg_of_step rfl, hfirst]
            by_cases hv : verifyRedirection
                ⟨BACKSLASH, SQUOTE :: (r'.flatMap escapeChar ++ charsOf TR)⟩ = true
            · rw [hX'] at hv hmark ⊢
              have hle := (argStep_redirection_loses (p := p ++ [BACKSLASH]) (e := e) rfl hv
                hmark).finishArg_le hW argc
              omega
            · rw [Bool.not_eq_true] at hv
              rw [argStep_plain (by decide) (by decide) (fun _ => rfl) (Or.inr hv)]
              rw [verifyRedirection_escaped hR' _ _ fun d hd => isspace_of_eq_space (hr' d hd)] at hv
              rw [readsBack, charOk_backslash, readsBack, charOk_mark, hv] at h
              have ih := finishArg_lt_of_not_readsBack hargc hW hR e r' (p ++ [BACKSLASH] ++ [SQUOTE])
                SQUOTE SQUOTE Iff.rfl (by decide) hr' (by simpa using h)
                (Stands.append (a := BACKSLASH) (s := [SQUOTE]) (D := [(SQUOTE, 1)]) hmark rfl)
              rw [textWeight_append, hp] at ih
              have h1 : textWeight [SQUOTE] = 1 := rfl
              omega
        · rw [hX] at hT ⊢
          rw [finishArg_of_step rfl, hfirst]
          have hle := (argStep_backslash_loses (f := false) (p := p) (e := e) hT
            (hlost fun x hx => Or.inl (hR x hx).2)).finishArg_le hW argc
          omega
      · have hone : 1 ≤ charWeight c := charWeight_pos c
        rw [finishArg_of_step (by exact hsc), hfirst]
        by_cases hv : verifyRedirection ⟨b', c :: (r.flatMap escapeChar ++ charsOf TR)⟩ = true
        · rw [hX] at hv hT ⊢
          have hle := (argStep_redirection_loses (p := p) (e := e) hsc hv hT).finishArg_le hW argc
          omega
        · obtain ⟨hd, hm⟩ := not_isQuote hc
          rw [Bool.not_eq_true] at hv
          rw [argStep_plain hcb hd (fun h => absurd h hm) (Or.inr hv)]
          rw [verifyRedirection_escaped hR' _ _ fun d hd => isspace_of_eq_space (hr d hd),
            ← verifyRedirection_before hb] at hv
          rw [readsBack, charOk_plain hc hcb, hv] at h
          rw [hesc] at htail
          have ih := finishArg_lt_of_not_readsBack hargc hW hR e r (p ++ [c]) c c Iff.rfl hcb hr h htail
          rw [textWeight_append, textWeight_cons, textWeight_nil] at ih
          omega

end Unquoted

/-! ### Arguments in quotes -/

section Quoted

variable {p r : Text} {b c : UInt8}

theorem doubleQuoted_mark (p : Text) (b : UInt8) (r : Text) :
    doubleQuoted p ⟨b, DQUOTE :: r⟩ = (p, ⟨b, DQUOTE :: r⟩) := by
  rw [doubleQuoted]
  rfl

theorem doubleQuoted_backslash (p : Text) (b : UInt8) (r : Text) :
    doubleQuoted p ⟨b, BACKSLASH :: r⟩ =
      doubleQuoted (escape p ⟨BACKSLASH, r⟩).1 (escape p ⟨BACKSLASH, r⟩).2 := by
  rw [doubleQuoted]
  rfl

theorem doubleQuoted_plain (hd : c ≠ DQUOTE) (hb : c ≠ BACKSLASH) :
    doubleQuoted p ⟨b, c :: r⟩ = doubleQuoted (p ++ [c]) ⟨c, r⟩ := by
  rw [doubleQuoted]
  dsimp only
  rw [if_neg hd, if_neg hb]

theorem doubleQuoted_escapeChar (hc : isEscaped c = true) :
    doubleQuoted p ⟨b, escapeChar c ++ r⟩ = doubleQuoted (p ++ [c]) ⟨(escapeChar c).getLastD b, r⟩ := by
  obtain ⟨d, s, hds, -, hesc⟩ := escape_escapeChar (p := p) (r := r) hc
  have h := hesc b
  rw [hds] at h ⊢
  rw [List.cons_append, List.cons_append, doubleQuoted_backslash, h]

theorem doubleQuoted_backslashesOk (R : Text) : ∀ (a p : Text) (b : UInt8), backslashesOk a = true →
    ∃ l, doubleQuoted p ⟨b, a.flatMap escapeChar ++ DQUOTE :: R⟩ = (p ++ a, ⟨l, DQUOTE :: R⟩)
  | [], p, b, _ => ⟨b, by simp [doubleQuoted_mark]⟩
  | c :: r, p, b, h => by
    rw [backslashesOk, Bool.and_eq_true] at h
    obtain ⟨hok, h⟩ := h
    rw [List.flatMap_cons, List.append_assoc]
    by_cases hc : isEscaped c = true
    · rw [doubleQuoted_escapeChar hc]
      obtain ⟨l, hl⟩ := doubleQuoted_backslashesOk R r (p ++ [c]) _ h
      exact ⟨l, by rw [hl, List.append_assoc, List.singleton_append]⟩
    · rw [Bool.not_eq_true] at hc
      obtain ⟨-, -, hesc, -⟩ := isPlainChar hc
      rw [hesc, List.singleton_append]
      by_cases hcb : c = BACKSLASH
      · subst hcb
        cases r with
        | nil => simp at hok
        | cons d r =>
          obtain rfl : d = SQUOTE := by simpa using hok
          rw [backslashesOk, Bool.and_eq_true] at h
          change ∃ l, doubleQuoted p ⟨b, BACKSLASH :: BACKSLASH :: SQUOTE ::
            (r.flatMap escapeChar ++ DQUOTE :: R)⟩ = _
          rw [doubleQuoted_backslash, escape_char (by decide),
            doubleQuoted_plain (by decide) (by decide)]
          obtain ⟨l, hl⟩ := doubleQuoted_backslashesOk R r (p ++ [BACKSLASH] ++ [SQUOTE]) SQUOTE h.2
          exact ⟨l, by rw [hl]; simp⟩
      · rw [doubleQuoted_plain (not_isQuote hc).1 hcb]
        obtain ⟨l, hl⟩ := doubleQuoted_backslashesOk R r (p ++ [c]) c h
        exact ⟨l, by rw [hl, List.append_assoc, List.singleton_append]⟩

/-- **An argument in quotes that is not read back.** What is lost may be the first quotation mark behind a
backslash, which closes the quotes. -/
theorem closeQuotes_lt_of_not_backslashesOk {B : UInt8} {W TR : Weighted} (hW : Fair B W) (e : Bool) :
    ∀ (a p : Text) (b : UInt8), backslashesOk a = false →
      Stands B W ⟨b, a.flatMap escapeChar ++ DQUOTE :: charsOf TR⟩
        (a.flatMap weighChar ++ (DQUOTE, 0) :: TR) →
      ∃ n, n < textWeight p + textWeight a + weightOf TR ∧
        Within B W (closeQuotes DQUOTE e
            (doubleQuoted p ⟨b, a.flatMap escapeChar ++ DQUOTE :: charsOf TR⟩)).p
          (closeQuotes DQUOTE e
            (doubleQuoted p ⟨b, a.flatMap escapeChar ++ DQUOTE :: charsOf TR⟩)).cli n
  | [], _, _, h, _ => by cases h
  | c :: r, p, b, h, hT => by
    rw [backslashesOk, Bool.and_eq_false_iff] at h
    have htr := weightOf_flatMap r
    rw [List.flatMap_cons, List.append_assoc] at hT ⊢
    rw [List.flatMap_cons, List.append_assoc] at hT
    have htail := hT.append (charsOf_weighChar c)
    rw [textWeight_cons]
    by_cases hc : isEscaped c = true
    · have hcb : c ≠ BACKSLASH := by
        rintro rfl
        cases hc
      rw [doubleQuoted_escapeChar hc]
      obtain ⟨n, hn, hwithin⟩ := closeQuotes_lt_of_not_backslashesOk hW e r (p ++ [c]) _
        (h.resolve_left (by simp [hcb])) htail
      rw [textWeight_append, textWeight_cons, textWeight_nil] at hn
      exact ⟨n, by omega, hwithin⟩
    · rw [Bool.not_eq_true] at hc
      obtain ⟨hq, hctl, hesc, hwt⟩ := isPlainChar hc
      have hX : r.flatMap escapeChar ++ DQUOTE :: charsOf TR =
          charsOf (r.flatMap weighChar ++ (DQUOTE, 0) :: TR) := by
        rw [charsOf_append, charsOf_flatMap, charsOf_cons]
      have hw : weightOf (r.flatMap weighChar ++ (DQUOTE, 0) :: TR) = textWeight r + weightOf TR := by
        rw [weightOf_append, htr, weightOf_cons, Nat.zero_add]
      rw [hesc, hwt, List.singleton_append, List.singleton_append] at hT
      rw [hesc] at htail
      rw [hesc, List.singleton_append]
      by_cases hcb : c = BACKSLASH
      · subst hcb
        have hn : charWeight BACKSLASH = 4 := rfl
        rw [hn] at hT ⊢
        rw [doubleQuoted_backslash]
        rcases backslash_followed r with ⟨d, r', rfl, hd⟩ | hlost
        · -- It is read with the backslash of the quotation mark.
          have hed : escapeChar d = [BACKSLASH, d] := if_pos hd
          have hwd : weighChar d = [(BACKSLASH, 0), (d, 1)] := if_pos hd
          have hmark : Stands B W ⟨BACKSLASH, d :: (r'.flatMap escapeChar ++ DQUOTE :: charsOf TR)⟩
              ((d, 1) :: (r'.flatMap weighChar ++ (DQUOTE, 0) :: TR)) := by
            rw [List.flatMap_cons, List.flatMap_cons, hed, hwd] at htail
            exact Stands.append (a := BACKSLASH) (s := [BACKSLASH]) (D := [(BACKSLASH, 0)]) htail rfl
          have hdw : textWeight (d :: r') = 1 + textWeight r' := by
            rcases isQuote_iff.mp hd with rfl | rfl
            · exact textWeight_cons _ _
            · exact textWeight_cons _ _
          have hp : textWeight (p ++ [BACKSLASH]) = textWeight p + 4 := textWeight_append _ _
          have hesc' : escape p ⟨BACKSLASH, (d :: r').flatMap escapeChar ++ DQUOTE :: charsOf TR⟩ =
              (p ++ [BACKSLASH], ⟨BACKSLASH, d :: (r'.flatMap escapeChar ++ DQUOTE :: charsOf TR)⟩) := by
            rw [List.flatMap_cons, hed]
            exact escape_char (by decide)
          have hnext : Stands B W ⟨d, r'.flatMap escapeChar ++ DQUOTE :: charsOf TR⟩
              (r'.flatMap weighChar ++ (DQUOTE, 0) :: TR) :=
            Stands.append (a := BACKSLASH) (s := [d]) (D := [(d, 1)]) hmark rfl
          rw [hesc']
          dsimp only
          rcases isQuote_iff.mp hd with rfl | rfl
          · rw [doubleQuoted_mark]
            refine ⟨_, ?_, _, hnext, Nat.le_refl _⟩
            change textWeight (p ++ [BACKSLASH]) + _ < _
            rw [weightOf_append, weightOf_flatMap, weightOf_cons]
            omega
          · rw [doubleQuoted_plain (by decide) (by decide)]
            have hr : backslashesOk r' = false := by
              have hm : (SQUOTE ≠ BACKSLASH : Bool) = true := rfl
              rw [backslashesOk, hm, Bool.true_or, Bool.true_and] at h
              exact h.resolve_left (by simp)
            obtain ⟨n, hn, hwithin⟩ := closeQuotes_lt_of_not_backslashesOk hW e r'
              (p ++ [BACKSLASH] ++ [SQUOTE]) _ hr hnext
            have h1 : textWeight [SQUOTE] = 1 := rfl
            rw [textWeight_append, hp] at hn
            exact ⟨n, by omega, hwithin⟩
        · rw [hX] at hT ⊢
          obtain ⟨T', hT', hle⟩ := escape_loses (p := p) hT
            (hlost fun x hx => Or.inr (by cases hx; rfl))
          exact ⟨_, by omega, closeQuotes_within _ _ (doubleQuoted_within hW _ _ hT')⟩
      · rw [doubleQuoted_plain (not_isQuote hc).1 hcb]
        obtain ⟨n, hn, hwithin⟩ := closeQuotes_lt_of_not_backslashesOk hW e r (p ++ [c]) _
          (h.resolve_left (by simp [hcb])) htail
        rw [textWeight_append, textWeight_cons, textWeight_nil] at hn
        exact ⟨n, by omega, hwithin⟩

end Quoted

/-! ### The arguments -/

section Arguments

variable {argc : ℕ}

theorem argsText_head (as : List Text) :
    (argsText as)[0]? = none ∨ (argsText as)[0]? = some SPACE := by
  cases as with
  | nil => exact Or.inl rfl
  | cons a as => exact Or.inr (by simp)

theorem any_isspace_eq_false {a : Text} (h : ¬a.any isspace = true) : ∀ c ∈ a, isspace c = false := by
  simpa using h

theorem quoteArg_head {a : Text} (ha : a ≠ []) : ∃ c r, quoteArg a = c :: r ∧ isspace c = false := by
  unfold quoteArg
  split
  · exact ⟨DQUOTE, _, rfl, rfl⟩
  · rename_i hs
    cases a with
    | nil => exact absurd rfl ha
    | cons c a =>
      have hc : isspace c = false := any_isspace_eq_false hs c List.mem_cons_self
      rw [List.flatMap_cons]
      unfold escapeChar
      split
      · exact ⟨BACKSLASH, _, rfl, rfl⟩
      · split
        · exact ⟨BACKSLASH, _, rfl, rfl⟩
        · exact ⟨c, _, rfl, hc⟩

theorem convertArgs_space {c : UInt8} (hc : isspace c = false) (b : UInt8) (r : Text) :
    convertArgs argc ⟨b, SPACE :: c :: r⟩ = finishArg argc ⟨[], false, ⟨SPACE, c :: r⟩⟩ := by
  have hskip : Cursor.skipWhile isspace b (SPACE :: c :: r) = ⟨SPACE, c :: r⟩ := by
    rw [Cursor.skipWhile, if_pos (show isspace SPACE = true from rfl), Cursor.skipWhile,
      if_neg (by simp [hc])]
  rw [convertArgs_eq, hskip, if_neg (by simp)]

theorem finishArg_quoted (hargc : argc ≠ 0) {a R : Text}
    (hv : verifyRedirection ⟨SPACE, DQUOTE :: a⟩ = false) :
    finishArg argc ⟨[], false, ⟨SPACE, DQUOTE :: (a.flatMap escapeChar ++ DQUOTE :: R)⟩⟩ =
      finishArg argc (closeQuotes DQUOTE false
        (doubleQuoted [] ⟨DQUOTE, a.flatMap escapeChar ++ DQUOTE :: R⟩)) := by
  have hfirst : decide (argc = 0) = false := decide_eq_false hargc
  rw [← verifyRedirection_quoted SPACE a R] at hv
  rw [finishArg_of_step rfl, hfirst]
  unfold argStep
  dsimp only
  rw [hv, if_neg (by simp), if_neg (by decide), if_pos rfl]

theorem convertArgs_of_argOk (hargc : argc ≠ 0) {a : Text} (h0 : 0 ∉ a) (ha : ArgOk a) (b : UInt8)
    (as : List Text) : ∃ l,
      convertArgs argc ⟨b, argsText (a :: as)⟩ = a :: convertArgs (argc + 1) ⟨l, argsText as⟩ := by
  obtain ⟨hne, ha⟩ := ha
  have hR := argsText_head as
  obtain ⟨c, r, hcr, hc⟩ := quoteArg_head hne
  have hstart : convertArgs argc ⟨b, argsText (a :: as)⟩ =
      finishArg argc ⟨[], false, ⟨SPACE, quoteArg a ++ argsText as⟩⟩ := by
    rw [argsText_cons, hcr, List.cons_append, convertArgs_space hc]
  rw [hstart]
  unfold quoteArg
  by_cases hs : a.any isspace = true
  · rw [if_pos hs] at ha ⊢
    rw [List.cons_append, List.append_assoc, List.singleton_append, finishArg_quoted hargc ha.2]
    obtain ⟨l, hl⟩ := doubleQuoted_backslashesOk (argsText as) a [] DQUOTE ha.1
    rw [hl, List.nil_append]
    have hclose : ∃ e, closeQuotes DQUOTE false (a, ⟨l, DQUOTE :: argsText as⟩) =
        ⟨a, e, ⟨DQUOTE, argsText as⟩⟩ := by
      unfold closeQuotes
      exact ⟨_, if_pos rfl⟩
    obtain ⟨e, he⟩ := hclose
    rw [he]
    exact ⟨DQUOTE, finishArg_end hR hne h0⟩
  · rw [if_neg hs] at ha ⊢
    obtain ⟨l, hl⟩ := finishArg_readsBack hargc hR false a [] SPACE SPACE Iff.rfl (by decide)
      (any_isspace_eq_false hs) ha
    rw [hl, List.nil_append]
    exact ⟨l, finishArg_end hR hne h0⟩

theorem convertArgs_of_not_argOk (hargc : argc ≠ 0) {a : Text} (ha : ¬ArgOk a) (b : UInt8)
    (as : List Text) : argsWeight (convertArgs argc ⟨b, argsText (a :: as)⟩) < argsWeight (a :: as) := by
  have hW : Fair b (weighArgs (a :: as)) := (valid_weighArgs (a :: as) b).fair
  have hT : Stands b (weighArgs (a :: as)) ⟨b, SPACE :: (quoteArg a ++ argsText as)⟩
      ((SPACE, 1) :: (weighArg a ++ weighArgs as)) :=
    ⟨⟨[], weighArgs_cons a as, rfl⟩, by simp [charsOf_weighArg]⟩
  have htail : Stands b (weighArgs (a :: as)) ⟨SPACE, quoteArg a ++ argsText as⟩
      (weighArg a ++ weighArgs as) :=
    Stands.append (a := b) (s := [SPACE]) (D := [(SPACE, 1)]) hT rfl
  rw [argsWeight_cons]
  by_cases hne : a = []
  · -- Of an empty argument there is only the space before it.
    subst hne
    have hskip : convertArgs argc ⟨b, argsText ([] :: as)⟩ = convertArgs argc ⟨SPACE, argsText as⟩ := by
      rw [convertArgs_eq, convertArgs_eq, argsText_cons]
      rfl
    have hends : (⟨SPACE, argsText as⟩ : Cursor).argEnds = true := by
      cases as with
      | nil => rfl
      | cons a as =>
        rw [argsText_cons]
        rfl
    have hle : argsWeight (convertArgs argc ⟨SPACE, argsText as⟩) +
        (if (⟨SPACE, argsText as⟩ : Cursor).argEnds = true then 1 else 0) ≤
          weightOf (weighArgs as) + 1 := convertArgs_le hW argc _ htail
    rw [if_pos hends, weightOf_weighArgs] at hle
    rw [hskip, textWeight_nil]
    omega
  · obtain ⟨c, r, hcr, hc⟩ := quoteArg_head hne
    have hstart : convertArgs argc ⟨b, argsText (a :: as)⟩ =
        finishArg argc ⟨[], false, ⟨SPACE, quoteArg a ++ argsText as⟩⟩ := by
      rw [argsText_cons, hcr, List.cons_append, convertArgs_space hc]
    rw [hstart]
    unfold ArgOk at ha
    unfold quoteArg weighArg at htail
    unfold quoteArg
    have htr := weightOf_flatMap a
    by_cases hs : a.any isspace = true
    · rw [if_pos hs] at ha ⊢
      rw [if_pos hs, if_pos hs, List.cons_append, List.cons_append, List.append_assoc,
        List.append_assoc, List.singleton_append, List.singleton_append] at htail
      rw [List.cons_append, List.append_assoc, List.singleton_append]
      by_cases hv : verifyRedirection ⟨SPACE, DQUOTE :: a⟩ = true
      · -- The quotation mark weighs nothing, but the ampersand behind it does.
        have hamp := ((verifyRedirection_cons rfl (by decide) (by decide) SPACE a).mp hv).1
        cases a with
        | nil => exact absurd rfl hne
        | cons d a =>
          obtain rfl : d = AMPERSAND := by simpa using hamp
          have hfirst : decide (argc = 0) = false := decide_eq_false hargc
          rw [← verifyRedirection_quoted SPACE _ (argsText as)] at hv
          generalize hq : (⟨SPACE, DQUOTE :: ((AMPERSAND :: a).flatMap escapeChar ++
            DQUOTE :: argsText as)⟩ : Cursor) = q at hv htail ⊢
          have hends : q.argEnds = false := by
            rw [← hq]
            rfl
          have hstep : argStep false ⟨[], false, q⟩ = ⟨[], false, skipRedirection q⟩ := by
            unfold argStep
            rw [← hq] at hv ⊢
            dsimp only
            rw [hv, if_pos (show (!false && true) = true from rfl)]
          have hle : argsWeight (finishArg argc ⟨[], false, skipRedirection q⟩) ≤
              textWeight [] + weightOf (a.flatMap weighChar ++ (DQUOTE, 0) :: weighArgs as) + 1 := by
            refine Within.finishArg_le hW argc (Behind.within ?_)
            exact skipRedirection_append (D := [(DQUOTE, 0), (AMPERSAND, 1)]) (by decide) htail
          rw [finishArg_of_step hends, hfirst, hstep]
          have hone : charWeight AMPERSAND = 1 := rfl
          rw [weightOf_append, weightOf_flatMap, weightOf_cons, weightOf_weighArgs,
            textWeight_nil] at hle
          rw [textWeight_cons]
          omega
      · rw [Bool.not_eq_true] at hv
        have hback : backslashesOk a = false := by
          simpa [hne, hv] using ha
        rw [finishArg_quoted hargc hv]
        rw [← charsOf_weighArgs] at htail ⊢
        have hmark := Stands.append (a := SPACE) (s := [DQUOTE]) (D := [(DQUOTE, 0)]) htail rfl
        obtain ⟨n, hn, hwithin⟩ := closeQuotes_lt_of_not_backslashesOk hW false a [] DQUOTE hback hmark
        have hle := hwithin.finishArg_le hW argc
        rw [weightOf_weighArgs, textWeight_nil] at hn
        change argsWeight (finishArg argc (closeQuotes DQUOTE false _)) ≤ _ at hle
        omega
    · rw [if_neg hs] at ha ⊢
      rw [if_neg hs, if_neg hs] at htail
      have hread : readsBack SPACE a = false := by
        simpa [hne] using ha
      have hhead : ∀ x ∈ (weighArgs as).head?, x.1 = SPACE ∧ 1 ≤ x.2 := by
        intro x hx
        cases as with
        | nil => cases hx
        | cons a as =>
          rw [weighArgs_cons] at hx
          cases hx
          exact ⟨rfl, Nat.le_refl _⟩
      rw [← charsOf_weighArgs] at htail ⊢
      have hle := finishArg_lt_of_not_readsBack hargc hW hhead false a [] SPACE SPACE Iff.rfl (by decide)
        (any_isspace_eq_false hs) hread htail
      rw [weightOf_weighArgs, textWeight_nil] at hle
      omega

/-- **The arguments of the new process** are those given to `execve` if each of them reaches it. -/
theorem convertArgs_argsText_iff {args : List Text} (h0 : ∀ a ∈ args, 0 ∉ a) : ∀ argc : ℕ,
    argc ≠ 0 → ∀ b, convertArgs argc ⟨b, argsText args⟩ = args ↔ ∀ a ∈ args, ArgOk a := by
  induction args with
  | nil =>
    intro argc _ b
    refine iff_of_true ?_ (by simp)
    rw [convertArgs_eq]
    rfl
  | cons a as ih =>
    intro argc hargc b
    have ih := ih fun a' ha' => h0 a' (List.mem_cons_of_mem _ ha')
    rw [List.forall_mem_cons]
    by_cases ha : ArgOk a
    · obtain ⟨l, hl⟩ := convertArgs_of_argOk hargc (h0 a List.mem_cons_self) ha b as
      rw [hl, List.cons.injEq, ih (argc + 1) (Nat.succ_ne_zero argc) l]
      simp [ha]
    · refine iff_of_false (fun h => ?_) fun h => ha h.1
      have hlt := convertArgs_of_not_argOk hargc ha b as
      rw [h] at hlt
      exact absurd hlt (Nat.lt_irrefl _)

end Arguments

end UnixLib
