import Gccsdk.UnixLib.ArgEncoding

/-!
# Redirections in an escaped argument

What `verify_redirection` says of a place in the command line that `execve` has written, in terms of the
argument that is written there: no escape sequence begins a redirection, and what is behind a character
that is written as it is looks to `verify_redirection` as it does in the argument
(`verifyRedirection_escaped`).
-/

namespace UnixLib

/-- A character that stands for itself, and that `verify_redirection` may look for. -/
def isPlain (c : UInt8) : Bool := !isQuote c && !isControl c && c ≠ BACKSLASH && c ≠ SPACE

theorem isPlain_of_isdigit {c : UInt8} (h : isdigit c = true) : isPlain c = true := by
  have h' : ∀ n : Fin 256, isdigit (UInt8.ofFin n) = true → isPlain (UInt8.ofFin n) = true := by
    decide +kernel
  exact h' c.toFin h

section Escaped

variable {R : Text}

theorem head_escaped {x : UInt8} (hx : isPlain x = true) (hR : R[0]? ≠ some x) (r : Text) :
    (r.flatMap escapeChar ++ R)[0]? = some x ↔ r[0]? = some x := by
  simp only [isPlain, Bool.and_eq_true, Bool.not_eq_true', decide_eq_true_eq] at hx
  obtain ⟨⟨⟨hq, hc⟩, hb⟩, -⟩ := hx
  cases r with
  | nil =>
    rw [List.flatMap_nil, List.nil_append]
    exact ⟨fun h => absurd h hR, fun h => by cases h⟩
  | cons d r =>
    unfold escapeChar
    rw [List.flatMap_cons]
    have hne : BACKSLASH ≠ x := fun h => hb h.symm
    by_cases hdq : isQuote d = true
    · have hd : d ≠ x := by
        rintro rfl
        rw [hq] at hdq
        cases hdq
      simp [hdq, hne, hd]
    · by_cases hdc : isControl d = true
      · have hd : d ≠ x := by
          rintro rfl
          rw [hc] at hdc
          cases hdc
        simp [hdq, hdc, hexEscape, hne, hd]
      · simp [hdq, hdc]

theorem digit_escaped (hR : (R[0]?.map isdigit).getD false = false) (r : Text) :
    ((r.flatMap escapeChar ++ R)[0]?.map isdigit).getD false = (r[0]?.map isdigit).getD false := by
  have hiff : ∀ {s : Text}, (s[0]?.map isdigit).getD false = true ↔
      ∃ d, isdigit d = true ∧ s[0]? = some d := by
    intro s
    cases s with
    | nil => simp
    | cons d s => simp
  rw [Bool.eq_iff_iff, hiff, hiff]
  refine exists_congr fun d => and_congr_right fun hd => ?_
  refine head_escaped (isPlain_of_isdigit hd) (fun h => ?_) r
  rw [h] at hR
  change isdigit d = false at hR
  rw [hd] at hR
  cases hR

theorem dropDigits_escaped {x : UInt8} (hx : isPlain x = true) (hR : R[0]? ≠ some x)
    (hRd : (R[0]?.map isdigit).getD false = false) (r : Text) :
    ((r.flatMap escapeChar ++ R).dropWhile isdigit)[0]? = some x ↔
      (r.dropWhile isdigit)[0]? = some x := by
  have hstop : ∀ {s : Text}, (s[0]?.map isdigit).getD false = false → s.dropWhile isdigit = s := by
    intro s hs
    cases s with
    | nil => rfl
    | cons d s =>
      change isdigit d = false at hs
      rw [List.dropWhile_cons, hs]
      rfl
  induction r with
  | nil =>
    rw [List.flatMap_nil, List.nil_append, hstop hRd]
    exact ⟨fun h => absurd h hR, fun h => by cases h⟩
  | cons d r ih =>
    by_cases hd : isdigit d = true
    · -- A digit is written as it is.
      have hp := isPlain_of_isdigit hd
      simp only [isPlain, Bool.and_eq_true, Bool.not_eq_true', decide_eq_true_eq] at hp
      have hesc : escapeChar d = [d] := by
        simp [escapeChar, hp.1.1.1, hp.1.1.2]
      rw [List.flatMap_cons, hesc, List.singleton_append, List.cons_append, List.dropWhile_cons_of_pos hd,
        List.dropWhile_cons_of_pos hd]
      exact ih
    · have hd' : ((d :: r)[0]?.map isdigit).getD false = false := by simpa using hd
      rw [hstop (digit_escaped hRd (d :: r) ▸ hd'), hstop hd']
      exact head_escaped hx hR (d :: r)

theorem chevron_escaped (hR : R[0]? = none ∨ R[0]? = some SPACE) :
    ∀ {r : Text}, (∀ c ∈ r, c ≠ SPACE) →
    (match ((r.flatMap escapeChar ++ R).dropWhile fun c => c ≠ SPACE ∧ c ≠ GREATER)[0]? with
      | none => true
      | some c => decide (c = SPACE)) =
    (match (r.dropWhile fun c => c ≠ SPACE ∧ c ≠ GREATER)[0]? with
      | none => true
      | some c => decide (c = SPACE)) := by
  intro r hr
  induction r with
  | nil =>
    rw [List.flatMap_nil, List.nil_append]
    cases R with
    | nil => rfl
    | cons c R =>
      obtain rfl : c = SPACE := by simpa using hR
      rfl
  | cons c r ih =>
    have ih := ih fun d hd => hr d (List.mem_cons_of_mem _ hd)
    have hc : c ≠ SPACE := hr c List.mem_cons_self
    rw [List.flatMap_cons, List.append_assoc]
    by_cases hg : c = GREATER
    · subst hg
      rfl
    · have hall : ∀ d ∈ escapeChar c, decide (d ≠ SPACE ∧ d ≠ GREATER) = true :=
        fun d hd => decide_eq_true (mem_escapeChar hd hc hg)
      rw [List.dropWhile_append_of_pos hall, List.dropWhile_cons, if_pos (by simp [hc, hg])]
      exact ih

theorem ampersand_escaped (hR : ∀ {x : UInt8}, isPlain x = true → R[0]? ≠ some x)
    (hRd : (R[0]?.map isdigit).getD false = false) (r : Text) :
    ((r.flatMap escapeChar ++ R)[0]? = some AMPERSAND ∧
      ((r.flatMap escapeChar ++ R)[1]? = some MINUS ∨
        ((r.flatMap escapeChar ++ R)[1]?.map isdigit).getD false = true)) ↔
      (r[0]? = some AMPERSAND ∧ (r[1]? = some MINUS ∨ (r[1]?.map isdigit).getD false = true)) := by
  rw [head_escaped rfl (hR rfl)]
  refine and_congr_right fun h => ?_
  cases r with
  | nil => cases h
  | cons d r =>
    obtain rfl : d = AMPERSAND := by simpa using h
    change ((r.flatMap escapeChar ++ R)[0]? = some MINUS ∨
      ((r.flatMap escapeChar ++ R)[0]?.map isdigit).getD false = true) ↔
      (r[0]? = some MINUS ∨ (r[0]?.map isdigit).getD false = true)
    rw [head_escaped rfl (hR rfl), digit_escaped hRd]

/-- **A redirection in an escaped argument** is recognized as it is in the argument. -/
theorem verifyRedirection_escaped (hR : R[0]? = none ∨ R[0]? = some SPACE) (b c : UInt8) {r : Text}
    (hr : ∀ d ∈ r, d ≠ SPACE) :
    verifyRedirection ⟨b, c :: (r.flatMap escapeChar ++ R)⟩ = verifyRedirection ⟨b, c :: r⟩ := by
  have hne : ∀ {x : UInt8}, isPlain x = true → R[0]? ≠ some x := by
    intro x hx h
    rcases hR with h' | h'
    · rw [h'] at h
      cases h
    · rw [h'] at h
      cases h
      cases hx
  have hRd : (R[0]?.map isdigit).getD false = false := by
    rcases hR with h' | h'
    · rw [h']
      rfl
    · rw [h']
      rfl
  have hhead : ∀ {x : UInt8}, isPlain x = true → ∀ r : Text,
      ((r.flatMap escapeChar ++ R)[0]? = some x ↔ r[0]? = some x) :=
    fun hx r => head_escaped hx (hne hx) r
  have hamp := ampersand_escaped (R := R) (fun hx => hne hx) hRd r
  have hdrop : ∀ {x : UInt8}, isPlain x = true →
      (((c :: (r.flatMap escapeChar ++ R)).dropWhile isdigit)[0]? = some x ↔
        ((c :: r).dropWhile isdigit)[0]? = some x) := by
    intro x hx
    rw [List.dropWhile_cons, List.dropWhile_cons]
    split
    · exact dropDigits_escaped hx (hne hx) hRd r
    · rfl
  have hchevron : (match ((c :: (r.flatMap escapeChar ++ R)).dropWhile
        fun c => c ≠ SPACE ∧ c ≠ GREATER)[0]? with
      | none => true
      | some c => decide (c = SPACE)) =
      (match ((c :: r).dropWhile fun c => c ≠ SPACE ∧ c ≠ GREATER)[0]? with
      | none => true
      | some c => decide (c = SPACE)) := by
    rw [List.dropWhile_cons, List.dropWhile_cons]
    by_cases h : decide (c ≠ SPACE ∧ c ≠ GREATER) = true
    · rw [if_pos h, if_pos h]
      exact chevron_escaped hR hr
    · rw [if_neg h, if_neg h]
      rfl
  unfold verifyRedirection
  simp only [List.getElem?_cons_zero, List.getElem?_cons_succ, hhead (x := GREATER) rfl,
    hhead (x := LESS) rfl, hamp, hdrop (x := GREATER) rfl, hdrop (x := LESS) rfl]
  split
  · rfl
  · split
    · rfl
    · split
      · rfl
      · split
        · split
          · rfl
          · exact hchevron
        · rfl

theorem verifyRedirection_before {b b' : UInt8} (h : b = SPACE ↔ b' = SPACE) (r : Text) :
    verifyRedirection ⟨b, r⟩ = verifyRedirection ⟨b', r⟩ := by
  unfold verifyRedirection
  simp only [h]

theorem verifyRedirection_cons {c : UInt8} (hd : isdigit c = false) (hl : c ≠ LESS) (hg : c ≠ GREATER)
    (b : UInt8) (r : Text) : verifyRedirection ⟨b, c :: r⟩ = true ↔
      r[0]? = some AMPERSAND ∧ (r[1]? = some MINUS ∨ (r[1]?.map isdigit).getD false = true) := by
  unfold verifyRedirection
  simp [hd, hl, hg]

theorem verifyRedirection_backslash {d : UInt8} (hd : d ≠ AMPERSAND) (b : UInt8) (r : Text) :
    verifyRedirection ⟨b, BACKSLASH :: d :: r⟩ = false := by
  rw [Bool.eq_false_iff, Ne, verifyRedirection_cons rfl (by decide) (by decide)]
  simp [hd]

theorem verifyRedirection_quoted (b : UInt8) (a R : Text) :
    verifyRedirection ⟨b, DQUOTE :: (a.flatMap escapeChar ++ DQUOTE :: R)⟩ =
      verifyRedirection ⟨b, DQUOTE :: a⟩ := by
  have hne : ∀ {x : UInt8}, isPlain x = true → (DQUOTE :: R)[0]? ≠ some x := by
    intro x hx h
    cases h
    cases hx
  rw [Bool.eq_iff_iff, verifyRedirection_cons rfl (by decide) (by decide),
    verifyRedirection_cons rfl (by decide) (by decide)]
  exact ampersand_escaped hne rfl a

end Escaped

end UnixLib
