import Gccsdk.UnixLib.Exec
import Mathlib.Algebra.BigOperators.Group.List.Basic
import Mathlib.Tactic.Ring

/-!
# Nothing is gained by reading

A bound on what `convert_command_line` can make of a command line that `execve` has written. Characters
have a weight, four for a backslash and for a control character, and one for the others. The characters of
the command line are given weights too (`Weighted`), so that each step of the reader stores no more than
it takes away, whatever part of an escape sequence it takes for another one (`Pays`). Then the arguments it
returns, with one for the end of each, weigh no more than the command line (`finishArg_le`).
-/

namespace UnixLib

/-- The weight of a character of an argument, -/
def charWeight (c : UInt8) : ℕ := if c = BACKSLASH ∨ isControl c = true then 4 else 1

/-- of an argument, -/
def textWeight (t : Text) : ℕ := (t.map charWeight).sum

/-- and of the arguments, with one for the end of each. -/
def argsWeight (args : List Text) : ℕ := (args.map fun a => textWeight a + 1).sum

@[simp] theorem textWeight_nil : textWeight [] = 0 := rfl

@[simp] theorem textWeight_cons (c : UInt8) (t : Text) :
    textWeight (c :: t) = charWeight c + textWeight t := by
  simp [textWeight]

@[simp] theorem textWeight_append (t t' : Text) :
    textWeight (t ++ t') = textWeight t + textWeight t' := by
  simp [textWeight]

@[simp] theorem argsWeight_nil : argsWeight [] = 0 := rfl

@[simp] theorem argsWeight_cons (a : Text) (args : List Text) :
    argsWeight (a :: args) = textWeight a + 1 + argsWeight args := by
  simp [argsWeight]

theorem charWeight_le (c : UInt8) : charWeight c ≤ 4 := by
  unfold charWeight
  split <;> omega

theorem charWeight_pos (c : UInt8) : 1 ≤ charWeight c := by
  unfold charWeight
  split <;> omega

theorem textWeight_takeWhile_le (f : UInt8 → Bool) : ∀ t : Text,
    textWeight (t.takeWhile f) ≤ textWeight t
  | [] => Nat.le_refl _
  | c :: t => by
    have ih := textWeight_takeWhile_le f t
    rw [List.takeWhile_cons]
    split
    · simp only [textWeight_cons]
      omega
    · exact Nat.zero_le _

/-! ### Weighted texts -/

abbrev Weighted := List (UInt8 × ℕ)

/-- The text, -/
def charsOf (T : Weighted) : Text := T.map Prod.fst

/-- and its weight. -/
def weightOf (T : Weighted) : ℕ := (T.map Prod.snd).sum

@[simp] theorem charsOf_nil : charsOf [] = [] := rfl

@[simp] theorem charsOf_cons (x : UInt8 × ℕ) (T : Weighted) :
    charsOf (x :: T) = x.1 :: charsOf T := rfl

@[simp] theorem charsOf_append (T T' : Weighted) : charsOf (T ++ T') = charsOf T ++ charsOf T' := by
  simp [charsOf]

@[simp] theorem weightOf_nil : weightOf [] = 0 := rfl

@[simp] theorem weightOf_cons (x : UInt8 × ℕ) (T : Weighted) :
    weightOf (x :: T) = x.2 + weightOf T := by
  simp [weightOf]

@[simp] theorem weightOf_append (T T' : Weighted) :
    weightOf (T ++ T') = weightOf T + weightOf T' := by
  simp [weightOf]

theorem weightOf_suffix {T' T : Weighted} (h : T' <:+ T) : weightOf T' ≤ weightOf T := by
  obtain ⟨D, rfl⟩ := h
  rw [weightOf_append]
  exact Nat.le_add_left ..

/-! ### Places in a weighted text -/

/-- The cursor stands somewhere in the weighted text `W`, before which there is the character `b`; `T` is
what is left of the text. -/
structure Stands (b : UInt8) (W : Weighted) (q : Cursor) (T : Weighted) : Prop where
  split : ∃ D, W = D ++ T ∧ q.before = (charsOf D).getLastD b
  rest : q.rest = charsOf T

/-- The cursor stands in the weighted text, and what is left of it weighs, with what has been read, at
most `n`. -/
def Within (b : UInt8) (W : Weighted) (p : Text) (q : Cursor) (n : ℕ) : Prop :=
  ∃ T, Stands b W q T ∧ textWeight p + weightOf T ≤ n

section Places

variable {b : UInt8} {W T : Weighted} {q : Cursor} {p : Text} {m n : ℕ}

theorem Stands.start (b : UInt8) (W : Weighted) : Stands b W ⟨b, charsOf W⟩ W :=
  ⟨⟨[], rfl, rfl⟩, rfl⟩

theorem Stands.suffix (h : Stands b W q T) : T <:+ W := by
  obtain ⟨⟨D, rfl, -⟩, -⟩ := h
  exact ⟨D, rfl⟩

theorem Stands.tail {c : UInt8} (h : Stands b W q ((c, n) :: T)) : Stands b W ⟨c, charsOf T⟩ T := by
  obtain ⟨⟨D, rfl, -⟩, -⟩ := h
  refine ⟨⟨D ++ [(c, n)], by simp, ?_⟩, rfl⟩
  simp

theorem Stands.append {a : UInt8} {s r : Text} {D : Weighted} (h : Stands b W ⟨a, s ++ r⟩ (D ++ T))
    (hD : charsOf D = s) : Stands b W ⟨s.getLastD a, r⟩ T := by
  obtain ⟨⟨D', rfl, hb⟩, hr⟩ := h
  subst hD
  refine ⟨⟨D' ++ D, by simp, ?_⟩, ?_⟩
  · change a = _ at hb
    rw [charsOf_append, hb]
    simp only [List.getLastD_eq_getLast?, List.getLast?_append, Option.getD_or]
  · rw [charsOf_append] at hr
    exact List.append_cancel_left hr

theorem Stands.cons {c : UInt8} {r : Text} (h : Stands b W q T) (hr : q.rest = c :: r) :
    ∃ n T', T = (c, n) :: T' ∧ charsOf T' = r := by
  cases T with
  | nil =>
    rw [h.rest] at hr
    cases hr
  | cons x T =>
    rw [h.rest, charsOf_cons] at hr
    obtain ⟨rfl, rfl⟩ := List.cons.inj hr
    exact ⟨x.2, T, rfl, rfl⟩

theorem Within.mono (h : Within b W p q m) (hmn : m ≤ n) : Within b W p q n := by
  obtain ⟨T, hT, hm⟩ := h
  exact ⟨T, hT, Nat.le_trans hm hmn⟩

theorem Stands.within (h : Stands b W q T) : Within b W p q (textWeight p + weightOf T) :=
  ⟨T, h, Nat.le_refl _⟩

def Behind (b : UInt8) (W : Weighted) (T : Weighted) (q : Cursor) : Prop :=
  ∃ T', Stands b W q T' ∧ T' <:+ T

theorem Stands.behind (h : Stands b W q T) : Behind b W T q := ⟨T, h, List.suffix_refl _⟩

theorem Behind.within (h : Behind b W T q) : Within b W p q (textWeight p + weightOf T) := by
  obtain ⟨T', hT', hs⟩ := h
  exact ⟨T', hT', Nat.add_le_add_left (weightOf_suffix hs) _⟩

theorem Behind.next (h : Behind b W T q) : Behind b W T q.next := by
  obtain ⟨T', hT', hs⟩ := h
  unfold Cursor.next
  split
  · exact ⟨T', hT', hs⟩
  · rename_i c r hr
    obtain ⟨n, T', rfl, rfl⟩ := hT'.cons hr
    exact ⟨T', hT'.tail, (List.suffix_cons ..).trans hs⟩

theorem Behind.skipWhile (f : UInt8 → Bool) {r : Text} : ∀ {a : UInt8}, Behind b W T ⟨a, r⟩ →
    Behind b W T (Cursor.skipWhile f a r) := by
  induction r with
  | nil => exact fun h => h
  | cons c r ih =>
    intro a h
    rw [Cursor.skipWhile]
    split
    · exact ih h.next
    · exact h

theorem Within.next (h : Within b W p q n) : Within b W p q.next n := by
  obtain ⟨T, hT, hn⟩ := h
  exact hT.behind.next.within.mono hn

end Places

/-! ### Texts that can be read -/

/-- The weight `n` of the character `c` pays for what is stored when it is read, with what is read
together with it. -/
def Pays (c : UInt8) (n : ℕ) (T : Weighted) : Prop :=
  if c = BACKSLASH then
    4 ≤ n ∨
    (∃ d m T', T = (d, m) :: T' ∧ d ≠ LETTER_X ∧ charWeight d ≤ n + m) ∨
    ∃ m a k d l T', T = (LETTER_X, m) :: (a, k) :: (d, l) :: T' ∧
      charWeight (hexstrtochar a d) ≤ n + m + k + l
  else c = DQUOTE ∨ charWeight c ≤ n

def Full (W : Weighted) : Prop := ∀ x ∈ W, charWeight x.1 ≤ x.2

/-- Each character pays; single quotes, in which nothing is escaped, are only met where each character has
its own weight. -/
structure Fair (b : UInt8) (W : Weighted) : Prop where
  pays : ∀ {q : Cursor} {c : UInt8} {n : ℕ} {T : Weighted}, Stands b W q ((c, n) :: T) → Pays c n T
  mark : ∀ {q : Cursor} {n : ℕ} {T : Weighted}, Stands b W q ((SQUOTE, n) :: T) →
    isspace q.before = true → Full W

theorem Full.fair {W : Weighted} (h : Full W) (b : UInt8) : Fair b W where
  pays {q c n T} hT := by
    have hc : charWeight c ≤ n := h (c, n) (hT.suffix.subset (by simp))
    unfold Pays
    split
    · rename_i hb
      exact Or.inl (by rw [hb] at hc; exact hc)
    · exact Or.inr hc
  mark _ _ := h

/-- Each character pays, and there is no `'` behind a space. -/
def Valid : UInt8 → Weighted → Prop
  | _, [] => True
  | b, (c, n) :: T => (isspace b = true → c ≠ SQUOTE) ∧ Pays c n T ∧ Valid c T

theorem Valid.cons {b c : UInt8} {n : ℕ} {T : Weighted} (hb : isspace b = true → c ≠ SQUOTE)
    (hc : Pays c n T) (hT : Valid c T) : Valid b ((c, n) :: T) :=
  ⟨hb, hc, hT⟩

theorem Valid.stands : ∀ {b : UInt8} {W : Weighted} {q : Cursor} {T : Weighted}, Valid b W →
    Stands b W q T → Valid q.before T := by
  rintro b W q T hV ⟨⟨D, hW, hb⟩, -⟩
  induction D generalizing b W with
  | nil =>
    obtain rfl : W = T := hW
    rw [hb]
    exact hV
  | cons x D ih =>
    obtain ⟨c, n⟩ := x
    subst hW
    refine ih hV.2.2 rfl ?_
    rw [hb, charsOf_cons, List.getLastD_cons]

theorem Valid.fair {b : UInt8} {W : Weighted} (h : Valid b W) : Fair b W where
  pays hT := (h.stands hT).2.1
  mark hT hs := absurd rfl ((h.stands hT).1 hs)

/-! ### The steps of the reader -/

section Steps

variable {b : UInt8} {W T : Weighted} {q : Cursor} {n : ℕ}

theorem escape_within (hW : Fair b W) (p : Text) (h : Stands b W q ((BACKSLASH, n) :: T)) :
    Within b W (escape p ⟨BACKSLASH, charsOf T⟩).1 (escape p ⟨BACKSLASH, charsOf T⟩).2
      (textWeight p + n + weightOf T) := by
  have hpays := hW.pays h
  rw [Pays, if_pos rfl] at hpays
  have ht := h.tail
  unfold escape
  match T, hpays, ht with
  | [], _, ht => exact ⟨[], ht, by simp⟩
  | (c, m) :: T, hpays, ht =>
    dsimp only [charsOf_cons]
    by_cases hc : c = LETTER_X
    · subst hc
      rw [if_pos rfl]
      match T, hpays, ht with
      | [], _, ht => exact ⟨_, ht, by simp⟩
      | [(a, k)], _, ht => exact ⟨_, ht, by simp⟩
      | (a, k) :: (d, l) :: T, hpays, ht =>
        refine ⟨T, ht.tail.tail.tail, ?_⟩
        have hstored : charWeight (hexstrtochar a d) ≤ n + m + k + l := by
          rcases hpays with h | ⟨e, i, T', hT, hne, -⟩ | ⟨i, e, j, f, o, T', hT, hle⟩
          · have := charWeight_le (hexstrtochar a d)
            omega
          · cases hT
            exact absurd rfl hne
          · cases hT
            exact hle
        simp only [charsOf_cons, textWeight_append, textWeight_cons, textWeight_nil, weightOf_cons]
        omega
    · rw [if_neg hc]
      refine ⟨T, ht.tail, ?_⟩
      have hstored : charWeight c ≤ n + m := by
        rcases hpays with h | ⟨e, i, T', hT, -, hle⟩ | ⟨i, e, j, f, o, T', hT, -⟩
        · have := charWeight_le c
          omega
        · cases hT
          exact hle
        · cases hT
          exact absurd rfl hc
      simp only [textWeight_append, textWeight_cons, textWeight_nil, weightOf_cons]
      omega

theorem doubleQuoted_within (hW : Fair b W) (p : Text) (q : Cursor) : ∀ {T : Weighted},
    Stands b W q T →
      Within b W (doubleQuoted p q).1 (doubleQuoted p q).2 (textWeight p + weightOf T) := by
  fun_induction doubleQuoted p q with
  | case1 => exact fun h => h.within
  | case2 => exact fun h => h.within
  | case3 p q r hr hne ih =>
    intro T h
    obtain ⟨n, T, rfl, rfl⟩ := h.cons hr
    obtain ⟨T', hT', hle⟩ := escape_within hW p h
    refine (ih hT').mono ?_
    rw [weightOf_cons]
    omega
  | case4 p q c r hr hq hb ih =>
    intro T h
    obtain ⟨n, T, rfl, rfl⟩ := h.cons hr
    refine (ih h.tail).mono ?_
    have hpays := hW.pays h
    rw [Pays, if_neg hb] at hpays
    have hc : charWeight c ≤ n := hpays.resolve_left hq
    simp only [textWeight_append, textWeight_cons, textWeight_nil, weightOf_cons]
    omega

theorem singleQuoted_within (hW : Full W) (p : Text) (q : Cursor) : ∀ {T : Weighted},
    Stands b W q T →
      Within b W (singleQuoted p q).1 (singleQuoted p q).2 (textWeight p + weightOf T) := by
  fun_induction singleQuoted p q with
  | case1 => exact fun h => h.within
  | case2 => exact fun h => h.within
  | case3 p q c r hr hq ih =>
    intro T h
    obtain ⟨n, T, rfl, rfl⟩ := h.cons hr
    have hc : charWeight c ≤ n := hW (c, n) (h.suffix.subset (by simp))
    have hquoted : Within b W (p ++ [(quotedChar c (charsOf T)).1]) (quotedChar c (charsOf T)).2
        (textWeight p + n + weightOf T) := by
      have hraw : Within b W (p ++ [c]) ⟨c, charsOf T⟩ (textWeight p + n + weightOf T) := by
        refine ⟨T, h.tail, ?_⟩
        simp only [textWeight_append, textWeight_cons, textWeight_nil]
        omega
      unfold quotedChar
      split
      · rename_i x a d r' hr'
        split
        · rename_i hx
          obtain ⟨k₁, T₁, rfl, hr₁⟩ := h.tail.cons hr'
          obtain ⟨k₂, T₂, rfl, hr₂⟩ := h.tail.tail.cons hr₁
          obtain ⟨k₃, T₃, rfl, rfl⟩ := h.tail.tail.tail.cons hr₂
          refine ⟨T₃, h.tail.tail.tail.tail, ?_⟩
          have h₄ := charWeight_le (hexstrtochar a d)
          have hn : 4 ≤ n := by
            rw [hx.1] at hc
            exact hc
          simp only [textWeight_append, textWeight_cons, textWeight_nil, weightOf_cons]
          omega
        · exact hraw
      · exact hraw
    obtain ⟨T', hT', hle⟩ := hquoted
    refine (ih hT').mono ?_
    rw [weightOf_cons]
    omega

theorem closeQuotes_within {read : Text × Cursor} (mark : UInt8) (e : Bool)
    (h : Within b W read.1 read.2 n) :
    Within b W (closeQuotes mark e read).p (closeQuotes mark e read).cli n := by
  unfold closeQuotes
  split
  · exact h.next
  · exact h

theorem skipRedirection_ends (q : Cursor) : (skipRedirection q).argEnds = true := by
  unfold skipRedirection Cursor.argEnds
  dsimp only
  split
  · rfl
  · rename_i c r hr
    simpa using Cursor.skipWhile_stops (fun c => !isspace c) _ _ (c := c) (by rw [hr]; rfl)

theorem skipRedirection_behind (h : Behind b W T q) : Behind b W T (skipRedirection q) := by
  unfold skipRedirection
  dsimp only
  have h₁ : Behind b W T (Cursor.skipWhile isdigit q.before q.rest) := Behind.skipWhile _ h
  generalize Cursor.skipWhile isdigit q.before q.rest = q₁ at h₁ ⊢
  have h₂ : Behind b W T (if (q₁.rest[0]? = some LESS ∨ q₁.rest[0]? = some GREATER) ∧
      q₁.rest[1]? = some GREATER then q₁.next else q₁) := by
    split
    · exact h₁.next
    · exact h₁
  generalize (if (q₁.rest[0]? = some LESS ∨ q₁.rest[0]? = some GREATER) ∧
      q₁.rest[1]? = some GREATER then q₁.next else q₁) = q₂ at h₂ ⊢
  refine Behind.skipWhile _ ?_
  change Behind b W T (if _ then _ else _)
  split
  · exact Behind.skipWhile _ h₂.next
  · exact h₂

theorem skipRedirection_append : ∀ {D : Weighted}, (∀ x ∈ D, isspace x.1 = false) →
    Stands b W q (D ++ T) → Behind b W T (skipRedirection q) := by
  intro D hD h
  obtain ⟨T', hT', hs⟩ := skipRedirection_behind h.behind
  refine ⟨T', hT', ?_⟩
  clear h
  induction D with
  | nil => exact hs
  | cons x D ih =>
    rcases List.suffix_cons_iff.mp hs with rfl | hs
    · -- It does not end before a character that is not a space.
      have hends := skipRedirection_ends q
      rw [Cursor.argEnds, hT'.rest] at hends
      change isspace x.1 = true at hends
      rw [hD x List.mem_cons_self] at hends
      cases hends
    · exact ih (fun y hy => hD y (List.mem_cons_of_mem _ hy)) hs

theorem skipRedirection_lt {c : UInt8} (hc : isspace c = false) (h : Stands b W q ((c, n) :: T)) :
    Behind b W T (skipRedirection q) :=
  skipRedirection_append (D := [(c, n)]) (by simpa using hc) h

theorem argStep_within (hW : Fair b W) (first : Bool) {st : ArgState} (h : Stands b W st.cli T) :
    Within b W (argStep first st).p (argStep first st).cli (textWeight st.p + weightOf T) := by
  obtain ⟨p, e, q⟩ := st
  unfold argStep
  dsimp only at h ⊢
  split
  · exact h.within
  · rename_i c r hr
    obtain ⟨n, T, rfl, rfl⟩ := h.cons hr
    split
    · exact (skipRedirection_behind h.behind).within
    · split
      · rename_i hc
        subst hc
        refine (escape_within hW p h).mono ?_
        rw [weightOf_cons]
        omega
      · split
        · refine closeQuotes_within _ _ ((doubleQuoted_within hW p _ h.tail).mono ?_)
          rw [weightOf_cons]
          omega
        · split
          · rename_i hs
            obtain ⟨rfl, hs⟩ := hs
            refine closeQuotes_within _ _ ((singleQuoted_within (hW.mark h hs) p _ h.tail).mono ?_)
            rw [weightOf_cons]
            omega
          · rename_i hb hd _
            have hpays := hW.pays h
            rw [Pays, if_neg hb] at hpays
            have hc := hpays.resolve_left hd
            refine h.tail.within.mono ?_
            simp only [textWeight_append, textWeight_cons, textWeight_nil, weightOf_cons]
            omega

theorem readArg_within (hW : Fair b W) (first : Bool) (st : ArgState) : ∀ {T : Weighted},
    Stands b W st.cli T →
      Within b W (readArg first st).p (readArg first st).cli (textWeight st.p + weightOf T) := by
  fun_induction readArg first st with
  | case1 => exact fun h => h.within
  | case2 st _ ih =>
    intro T h
    obtain ⟨T', hT', hle⟩ := argStep_within hW first h
    exact (ih hT').mono hle

theorem readArg_ends (first : Bool) (st : ArgState) : (readArg first st).cli.argEnds = true := by
  fun_induction readArg first st with
  | case1 st h => exact h
  | case2 st _ ih => exact ih

end Steps

/-! ### Losses -/

section Losses

variable {b b' : UInt8} {W T : Weighted} {p : Text} {e f : Bool} {n : ℕ}

/-- A backslash that is read as an escape is lost. What is behind it weighs something, or it is the quotation
mark at the end of the argument. -/
theorem escape_loses (h : Stands b W ⟨b', BACKSLASH :: charsOf T⟩ ((BACKSLASH, 4) :: T))
    (hT : ∀ x ∈ T.head?, 1 ≤ x.2 ∨ x.1 = DQUOTE) :
    Within b W (escape p ⟨BACKSLASH, charsOf T⟩).1 (escape p ⟨BACKSLASH, charsOf T⟩).2
      (textWeight p + 3 + weightOf T) := by
  have ht := h.tail
  unfold escape
  match T, hT, ht with
  | [], _, ht => exact ⟨[], ht, by simp⟩
  | (c, m) :: T, hT, ht =>
    have hm : 1 ≤ m ∨ c = DQUOTE := hT (c, m) rfl
    dsimp only [charsOf_cons]
    by_cases hc : c = LETTER_X
    · have hm : 1 ≤ m := hm.resolve_right (by rw [hc]; decide)
      subst hc
      rw [if_pos rfl]
      match T, ht with
      | [], ht => exact ⟨_, ht, by simp⟩
      | [(a, k)], ht => exact ⟨_, ht, by simp⟩
      | (a, k) :: (d, l) :: T, ht =>
        refine ⟨T, ht.tail.tail.tail, ?_⟩
        have hstored := charWeight_le (hexstrtochar a d)
        simp only [charsOf_cons, textWeight_append, textWeight_cons, textWeight_nil, weightOf_cons]
        omega
    · rw [if_neg hc]
      refine ⟨T, ht.tail, ?_⟩
      simp only [textWeight_append, textWeight_cons, textWeight_nil, weightOf_cons]
      rcases hm with hm | rfl
      · have hstored := charWeight_le c
        omega
      · have hstored : charWeight DQUOTE = 1 := rfl
        omega

/-- Loss by an escape in the loop over the characters of an argument, -/
theorem argStep_backslash_loses (h : Stands b W ⟨b', BACKSLASH :: charsOf T⟩ ((BACKSLASH, 4) :: T))
    (hT : ∀ x ∈ T.head?, 1 ≤ x.2 ∨ x.1 = DQUOTE) :
    Within b W (argStep f ⟨p, e, ⟨b', BACKSLASH :: charsOf T⟩⟩).p
      (argStep f ⟨p, e, ⟨b', BACKSLASH :: charsOf T⟩⟩).cli (textWeight p + 3 + weightOf T) := by
  unfold argStep
  dsimp only
  split
  · have hlost : Within b W p (skipRedirection ⟨b', BACKSLASH :: charsOf T⟩) _ :=
      (skipRedirection_lt rfl h).within
    exact hlost.mono (by omega)
  · rw [if_pos rfl]
    exact escape_loses h hT

/-- by a quotation mark, -/
theorem argStep_quote_loses (hW : Fair b W)
    (h : Stands b W ⟨b', DQUOTE :: charsOf T⟩ ((DQUOTE, n) :: T)) :
    Within b W (argStep f ⟨p, e, ⟨b', DQUOTE :: charsOf T⟩⟩).p
      (argStep f ⟨p, e, ⟨b', DQUOTE :: charsOf T⟩⟩).cli (textWeight p + weightOf T) := by
  unfold argStep
  dsimp only
  split
  · exact (skipRedirection_lt rfl h).within
  · rw [if_neg (by decide), if_pos rfl]
    exact closeQuotes_within _ _ (doubleQuoted_within hW p _ h.tail)

/-- by an apostrophe behind a space, -/
theorem argStep_mark_loses (hW : Full W) (hb : isspace b' = true)
    (h : Stands b W ⟨b', SQUOTE :: charsOf T⟩ ((SQUOTE, n) :: T)) :
    Within b W (argStep f ⟨p, e, ⟨b', SQUOTE :: charsOf T⟩⟩).p
      (argStep f ⟨p, e, ⟨b', SQUOTE :: charsOf T⟩⟩).cli (textWeight p + weightOf T) := by
  unfold argStep
  dsimp only
  split
  · exact (skipRedirection_lt rfl h).within
  · rw [if_neg (by decide), if_neg (by decide), if_pos ⟨rfl, hb⟩]
    exact closeQuotes_within _ _ (singleQuoted_within hW p _ h.tail)

theorem argStep_redirection_loses {c : UInt8} (hc : isspace c = false)
    (hv : verifyRedirection ⟨b', c :: charsOf T⟩ = true)
    (h : Stands b W ⟨b', c :: charsOf T⟩ ((c, n) :: T)) :
    Within b W (argStep false ⟨p, e, ⟨b', c :: charsOf T⟩⟩).p
      (argStep false ⟨p, e, ⟨b', c :: charsOf T⟩⟩).cli (textWeight p + weightOf T) := by
  unfold argStep
  dsimp only
  rw [hv, if_pos (show (!false && true) = true from rfl)]
  exact (skipRedirection_lt hc h).within

end Losses

/-! ### The arguments -/

/-- What `convert_command_line` goes on with in the middle of an argument. -/
def finishArg (argc : ℕ) (st : ArgState) : List Text :=
  if (readArg (argc = 0) st).p ≠ [] ∨ (readArg (argc = 0) st).empty_arg = true then
    (readArg (argc = 0) st).p.takeWhile (· ≠ 0) :: convertArgs (argc + 1) (readArg (argc = 0) st).cli
  else convertArgs argc (readArg (argc = 0) st).cli

theorem convertArgs_eq (argc : ℕ) (q : Cursor) : convertArgs argc q =
    if (Cursor.skipWhile isspace q.before q.rest).rest = [] then []
    else finishArg argc ⟨[], false, Cursor.skipWhile isspace q.before q.rest⟩ := by
  rw [convertArgs]
  split
  · rfl
  · rfl

theorem finishArg_of_step {argc : ℕ} {st : ArgState} (h : st.cli.argEnds = false) :
    finishArg argc st = finishArg argc (argStep (argc = 0) st) := by
  unfold finishArg
  rw [readArg, dif_neg (by simp [h])]

section Arguments

variable {b : UInt8} {W T : Weighted} {q : Cursor} {n : ℕ}

theorem Fair.space_pos {c : UInt8} (hW : Fair b W) (h : Stands b W q ((c, n) :: T))
    (hc : isspace c = true) : 1 ≤ n := by
  have hb : c ≠ BACKSLASH := by
    rintro rfl
    cases hc
  have hd : c ≠ DQUOTE := by
    rintro rfl
    cases hc
  have hpays := hW.pays h
  rw [Pays, if_neg hb] at hpays
  exact Nat.le_trans (charWeight_pos c) (hpays.resolve_left hd)

theorem skipSpaces_le (hW : Fair b W) (h : Stands b W q T)
    (hne : (Cursor.skipWhile isspace q.before q.rest).rest ≠ []) :
    ∃ T', Stands b W (Cursor.skipWhile isspace q.before q.rest) T' ∧
      weightOf T' + (if q.argEnds = true then 1 else 0) ≤ weightOf T := by
  by_cases hends : q.argEnds = true
  · rw [if_pos hends]
    cases hr : q.rest with
    | nil =>
      rw [hr] at hne
      exact absurd rfl hne
    | cons c r =>
      obtain ⟨n, T, rfl, rfl⟩ := h.cons hr
      have hc : isspace c = true := by
        rw [Cursor.argEnds, hr] at hends
        exact hends
      obtain ⟨T', hT', hs⟩ := Behind.skipWhile isspace h.tail.behind
      rw [Cursor.skipWhile, if_pos hc]
      refine ⟨T', hT', ?_⟩
      have hn := hW.space_pos h hc
      have := weightOf_suffix hs
      rw [weightOf_cons]
      omega
  · rw [if_neg hends]
    obtain ⟨T', hT', hs⟩ := Behind.skipWhile isspace (a := q.before) (r := q.rest) h.behind
    exact ⟨T', hT', weightOf_suffix hs⟩

/-- **Nothing is gained by reading.** The arguments weigh no more than the text they are read from, with one
for the end of the last. -/
theorem convertArgs_le (hW : Fair b W) (argc : ℕ) (q : Cursor) : ∀ {T : Weighted},
    Stands b W q T →
      argsWeight (convertArgs argc q) + (if q.argEnds = true then 1 else 0) ≤ weightOf T + 1 := by
  fun_induction convertArgs argc q with
  | case1 argc q _ =>
    intro T _
    rw [argsWeight_nil]
    split <;> omega
  | case2 =>
    rename_i argc q hne st _ ih
    intro T h
    obtain ⟨T₁, hT₁, h₁⟩ := skipSpaces_le hW h hne
    obtain ⟨T₂, hT₂, h₂⟩ : Within b W st.p st.cli (textWeight [] + weightOf T₁) :=
      readArg_within hW (argc = 0) ⟨[], false, _⟩ hT₁
    have h₃ := ih hT₂
    have hends : st.cli.argEnds = true := readArg_ends ..
    rw [if_pos hends] at h₃
    have h₄ := textWeight_takeWhile_le (fun c => decide (c ≠ 0)) st.p
    rw [textWeight_nil] at h₂
    rw [argsWeight_cons]
    omega
  | case3 =>
    rename_i argc q hne st _ ih
    intro T h
    obtain ⟨T₁, hT₁, h₁⟩ := skipSpaces_le hW h hne
    obtain ⟨T₂, hT₂, h₂⟩ : Within b W st.p st.cli (textWeight [] + weightOf T₁) :=
      readArg_within hW (argc = 0) ⟨[], false, _⟩ hT₁
    have h₃ := ih hT₂
    have hends : st.cli.argEnds = true := readArg_ends ..
    rw [if_pos hends] at h₃
    rw [textWeight_nil] at h₂
    omega

theorem finishArg_le (hW : Fair b W) (argc : ℕ) {st : ArgState} (h : Stands b W st.cli T) :
    argsWeight (finishArg argc st) ≤ textWeight st.p + weightOf T + 1 := by
  obtain ⟨T', hT', hle⟩ := readArg_within hW (argc = 0) st h
  have hends : (readArg (argc = 0) st).cli.argEnds = true := readArg_ends ..
  have hadded := textWeight_takeWhile_le (fun c => decide (c ≠ 0)) (readArg (argc = 0) st).p
  unfold finishArg
  split
  · have hrest := convertArgs_le hW (argc + 1) (readArg (argc = 0) st).cli hT'
    rw [if_pos hends] at hrest
    rw [argsWeight_cons]
    omega
  · have hrest := convertArgs_le hW argc (readArg (argc = 0) st).cli hT'
    rw [if_pos hends] at hrest
    omega

theorem Within.finishArg_le (hW : Fair b W) (argc : ℕ) {st : ArgState}
    (h : Within b W st.p st.cli n) : argsWeight (finishArg argc st) ≤ n + 1 := by
  obtain ⟨T, hT, hle⟩ := h
  exact Nat.le_trans (UnixLib.finishArg_le hW argc hT) (Nat.succ_le_succ hle)

end Arguments

end UnixLib
