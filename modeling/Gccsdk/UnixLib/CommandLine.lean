import Mathlib.Data.List.Basic
import Mathlib.Data.Nat.Notation

/-!
# Reading the command line

`unix/unix.c`: `convert_command_line` splits the command line of a new process into arguments, and leaves
out what `verify_redirection` takes for a redirection. A C string is the list of its bytes without the
final NUL; the end of the list stands for it. The functions look at the byte before the current one, so a
place in the command line is a `Cursor`.

Not modelled is what `convert_command_line` does with `argv[0]` in the end, its conversion to a Unix path.
-/

namespace UnixLib

abbrev Text := List UInt8

/-- `isspace` in the C locale. -/
def isspace (c : UInt8) : Bool := c = 0x20 || (0x09 ≤ c && c ≤ 0x0D)

def isdigit (c : UInt8) : Bool := 0x30 ≤ c && c ≤ 0x39

/-- The characters `"`, -/
abbrev DQUOTE : UInt8 := 0x22
/-- `&`, -/
abbrev AMPERSAND : UInt8 := 0x26
/-- `'`, -/
abbrev SQUOTE : UInt8 := 0x27
/-- `-`, -/
abbrev MINUS : UInt8 := 0x2D
/-- `<`, -/
abbrev LESS : UInt8 := 0x3C
/-- `>`, -/
abbrev GREATER : UInt8 := 0x3E
/-- `\`, -/
abbrev BACKSLASH : UInt8 := 0x5C
/-- `x` -/
abbrev LETTER_X : UInt8 := 0x78
/-- and the space. -/
abbrev SPACE : UInt8 := 0x20

/-- A place in the command line: `cli[-1]`, and the text from `cli` on. -/
structure Cursor where
  before : UInt8
  rest : Text
  deriving DecidableEq, Repr

namespace Cursor

/-- `cli++`. -/
def next (q : Cursor) : Cursor :=
  match q.rest with
  | [] => q
  | c :: r => ⟨c, r⟩

/-- `while (*cli && f (*cli)) cli++`. -/
def skipWhile (f : UInt8 → Bool) (b : UInt8) : Text → Cursor
  | [] => ⟨b, []⟩
  | c :: r => if f c then skipWhile f c r else ⟨b, c :: r⟩

def argEnds (q : Cursor) : Bool :=
  match q.rest with
  | [] => true
  | c :: _ => isspace c

theorem next_length (q : Cursor) : q.next.rest.length = q.rest.length - 1 := by
  unfold next
  split <;> simp_all

theorem skipWhile_length (f : UInt8 → Bool) : ∀ (b : UInt8) (r : Text),
    (skipWhile f b r).rest.length ≤ r.length
  | _, [] => Nat.le_refl _
  | b, c :: r => by
    rw [skipWhile]
    split
    · exact Nat.le_trans (skipWhile_length f c r) (Nat.le_succ _)
    · exact Nat.le_refl _

theorem skipWhile_cons_length {f : UInt8 → Bool} {b c : UInt8} {r : Text} (hc : f c = true) :
    (skipWhile f b (c :: r)).rest.length ≤ r.length := by
  rw [skipWhile, if_pos hc]
  exact skipWhile_length f c r

end Cursor

/-! ### Redirections -/

/-- `verify_redirection`: verify that the cursor is actually pointing to a redirection operator. -/
def verifyRedirection (q : Cursor) : Bool :=
  let redir := q.rest
  if redir[0]? = some GREATER ∧ redir[1]? = some GREATER then true
  else if redir[1]? = some AMPERSAND ∧
      (redir[2]? = some MINUS ∨ (redir[2]?.map isdigit).getD false = true) then true
  else if (redir[0]?.map isdigit).getD false = true ∧
      ((redir.dropWhile isdigit)[0]? = some LESS ∨ (redir.dropWhile isdigit)[0]? = some GREATER) then
    true
  else if redir[0]? = some LESS then
    if redir[1]? = some LESS ∨ redir[1]? = some GREATER then true
    else
      -- If there's no right chevron on the rest of the cli, then we must have a proper re-direction
      -- operator.
      match (redir.dropWhile fun c => c ≠ SPACE ∧ c ≠ GREATER)[0]? with
      | none => true
      | some c => c = SPACE
  else decide (redir[0]? = some GREATER ∧ q.before = SPACE)

/-- The part of `convert_command_line` that skips a redirection and its file name. -/
def skipRedirection (q : Cursor) : Cursor :=
  let q := Cursor.skipWhile isdigit q.before q.rest
  let q := if (q.rest[0]? = some LESS ∨ q.rest[0]? = some GREATER) ∧ q.rest[1]? = some GREATER then
    q.next else q
  let q := if q.rest[1]? = some SPACE then
    Cursor.skipWhile isspace q.next.before q.next.rest else q
  Cursor.skipWhile (fun c => !isspace c) q.before q.rest

theorem skipRedirection_length {b c : UInt8} {r : Text} (hc : isspace c = false) :
    (skipRedirection ⟨b, c :: r⟩).rest.length ≤ r.length := by
  unfold skipRedirection
  dsimp only
  generalize hq₁ : Cursor.skipWhile isdigit b (c :: r) = q₁
  have h₁ : q₁.rest.length ≤ r.length ∨ q₁.rest = c :: r := by
    rw [← hq₁, Cursor.skipWhile]
    split
    · exact Or.inl (Cursor.skipWhile_length ..)
    · exact Or.inr rfl
  generalize hq₂ : (if (q₁.rest[0]? = some LESS ∨ q₁.rest[0]? = some GREATER) ∧
    q₁.rest[1]? = some GREATER then q₁.next else q₁) = q₂
  have h₂ : q₂.rest.length ≤ r.length ∨ q₂.rest = c :: r := by
    rw [← hq₂]
    split
    · refine Or.inl ?_
      rw [Cursor.next_length]
      rcases h₁ with h | h
      · omega
      · rw [h]
        exact Nat.le_refl _
    · exact h₁
  generalize hq₃ : (if q₂.rest[1]? = some SPACE then
    Cursor.skipWhile isspace q₂.next.before q₂.next.rest else q₂) = q₃
  have h₃ : q₃.rest.length ≤ r.length ∨ q₃.rest = c :: r := by
    rw [← hq₃]
    split
    · refine Or.inl (Nat.le_trans (Cursor.skipWhile_length ..) ?_)
      rw [Cursor.next_length]
      rcases h₂ with h | h
      · omega
      · rw [h]
        exact Nat.le_refl _
    · exact h₂
  rcases h₃ with h | h
  · exact Nat.le_trans (Cursor.skipWhile_length ..) h
  · rw [h]
    exact Cursor.skipWhile_cons_length (by rw [hc]; rfl)

/-! ### Escapes and quotes -/

/-- The value of a digit in `__hexstrtochar`. -/
def hexValue (c : UInt8) : UInt8 := if c ≥ 0x41 then c - 0x41 + 10 else c - 0x30

def hexstrtochar (a b : UInt8) : UInt8 := (hexValue a <<< 4) + hexValue b

/-- The character behind a backslash; `p` is what has been read of the argument. -/
def escape (p : Text) (q : Cursor) : Text × Cursor :=
  match q.rest with
  | [] => (p, q)
  | c :: r =>
    if c = LETTER_X then
      match r with
      | a :: b :: r => (p ++ [hexstrtochar a b], ⟨b, r⟩)
      | _ => (p, q)
    else (p ++ [c], ⟨c, r⟩)

theorem escape_length (p : Text) (q : Cursor) : (escape p q).2.rest.length ≤ q.rest.length := by
  unfold escape
  split
  · exact Nat.le_refl _
  · rename_i c r hr
    split
    · split
      · rw [hr]
        simp only [List.length_cons]
        omega
      · exact Nat.le_refl _
    · rw [hr]
      exact Nat.le_succ _

/-- Keep copying characters into the argument until we reach the terminating quotation mark. -/
def doubleQuoted (p : Text) (q : Cursor) : Text × Cursor :=
  match h : q.rest with
  | [] => (p, q)
  | c :: r =>
    if c = DQUOTE then (p, q)
    else if c = BACKSLASH then doubleQuoted (escape p ⟨c, r⟩).1 (escape p ⟨c, r⟩).2
    else doubleQuoted (p ++ [c]) ⟨c, r⟩
termination_by q.rest.length
decreasing_by
  all_goals
    rw [h]
    have := escape_length p ⟨c, r⟩
    simp only [List.length_cons] at *
    omega

/-- The character `c` within single quotes, with `r` behind it: what is stored for it, and where it goes
on. -/
def quotedChar (c : UInt8) (r : Text) : UInt8 × Cursor :=
  match r with
  | x :: a :: b :: r' =>
    -- Sort out escape sequences that are added by UnixLib
    if c = BACKSLASH ∧ x = LETTER_X then (hexstrtochar a b, ⟨b, r'⟩) else (c, ⟨c, r⟩)
  | _ => (c, ⟨c, r⟩)

theorem quotedChar_length (c : UInt8) (r : Text) : (quotedChar c r).2.rest.length ≤ r.length := by
  unfold quotedChar
  split
  · split
    · simp only [List.length_cons]
      omega
    · exact Nat.le_refl _
  · exact Nat.le_refl _

def singleQuoted (p : Text) (q : Cursor) : Text × Cursor :=
  match h : q.rest with
  | [] => (p, q)
  | c :: r =>
    if c = SQUOTE then (p, q)
    else singleQuoted (p ++ [(quotedChar c r).1]) (quotedChar c r).2
termination_by q.rest.length
decreasing_by
  have := quotedChar_length c r
  rw [h]
  simp only [List.length_cons]
  omega

theorem doubleQuoted_length (p : Text) (q : Cursor) :
    (doubleQuoted p q).2.rest.length ≤ q.rest.length := by
  fun_induction doubleQuoted p q with
  | case1 => exact Nat.le_refl _
  | case2 => exact Nat.le_refl _
  | case3 p q r h _ ih =>
    have := escape_length p ⟨BACKSLASH, r⟩
    rw [h]
    simp only [List.length_cons] at *
    omega
  | case4 p q c r h _ _ ih =>
    rw [h]
    exact Nat.le_trans ih (Nat.le_succ _)

theorem singleQuoted_length (p : Text) (q : Cursor) :
    (singleQuoted p q).2.rest.length ≤ q.rest.length := by
  fun_induction singleQuoted p q with
  | case1 => exact Nat.le_refl _
  | case2 => exact Nat.le_refl _
  | case3 p q c r h _ ih =>
    have := quotedChar_length c r
    rw [h]
    simp only [List.length_cons]
    omega

/-! ### Arguments -/

/-- What the loop over the characters of an argument works with. -/
structure ArgState where
  /-- `temp`, up to `p`. -/
  p : Text
  /-- Set to 1 if we are storing an empty argument, for example `-classpath ''`. -/
  empty_arg : Bool
  cli : Cursor
  deriving DecidableEq, Repr

/-- Going on behind a quotation mark, if the quotes are closed. An argument is empty when there is the
same mark before it. -/
def closeQuotes (mark : UInt8) (empty_arg : Bool) (read : Text × Cursor) : ArgState :=
  if read.2.rest[0]? = some mark then
    ⟨read.1, empty_arg || decide (read.2.before = mark), read.2.next⟩
  else ⟨read.1, empty_arg, read.2⟩

/-- One pass of the loop over the characters of an argument. Don't check for a redirection operator in the
first argument because that is the program name: `first` says that `argc` is 0. -/
def argStep (first : Bool) (st : ArgState) : ArgState :=
  match st.cli.rest with
  | [] => st
  | c :: r =>
    if !first && verifyRedirection st.cli then { st with cli := skipRedirection st.cli }
    else if c = BACKSLASH then
      { st with p := (escape st.p ⟨c, r⟩).1, cli := (escape st.p ⟨c, r⟩).2 }
    else if c = DQUOTE then closeQuotes DQUOTE st.empty_arg (doubleQuoted st.p ⟨c, r⟩)
    else if c = SQUOTE ∧ isspace st.cli.before = true then
      -- We also hackily check for a space before it - this avoids problems with filenames with
      -- apostrophes in them.
      closeQuotes SQUOTE st.empty_arg (singleQuoted st.p ⟨c, r⟩)
    else { st with p := st.p ++ [c], cli := ⟨c, r⟩ }

theorem closeQuotes_length (mark : UInt8) (empty_arg : Bool) (read : Text × Cursor) :
    (closeQuotes mark empty_arg read).cli.rest.length ≤ read.2.rest.length := by
  unfold closeQuotes
  split
  · rw [Cursor.next_length]
    exact Nat.sub_le ..
  · exact Nat.le_refl _

theorem argStep_length (first : Bool) {st : ArgState} (h : st.cli.argEnds = false) :
    (argStep first st).cli.rest.length < st.cli.rest.length := by
  obtain ⟨p, empty_arg, b, rest⟩ := st
  unfold argStep
  cases rest with
  | nil => cases h
  | cons c r =>
    refine Nat.lt_succ_of_le ?_
    dsimp only
    split
    · exact skipRedirection_length h
    · split
      · exact escape_length p ⟨c, r⟩
      · split
        · exact Nat.le_trans (closeQuotes_length ..) (doubleQuoted_length p ⟨c, r⟩)
        · split
          · exact Nat.le_trans (closeQuotes_length ..) (singleQuoted_length p ⟨c, r⟩)
          · exact Nat.le_refl _

def readArg (first : Bool) (st : ArgState) : ArgState :=
  if h : st.cli.argEnds = true then st else readArg first (argStep first st)
termination_by st.cli.rest.length
decreasing_by exact argStep_length first (by simpa using h)

theorem readArg_length (first : Bool) (st : ArgState) :
    (readArg first st).cli.rest.length ≤ st.cli.rest.length := by
  fun_induction readArg first st with
  | case1 => exact Nat.le_refl _
  | case2 st h ih => exact Nat.le_trans ih (Nat.le_of_lt (argStep_length first (by simpa using h)))

theorem readArg_length_lt (first : Bool) {st : ArgState} (h : st.cli.argEnds = false) :
    (readArg first st).cli.rest.length < st.cli.rest.length := by
  rw [readArg, dif_neg (by simp [h])]
  exact Nat.lt_of_le_of_lt (readArg_length ..) (argStep_length first h)

theorem Cursor.skipWhile_stops (f : UInt8 → Bool) : ∀ (b : UInt8) (r : Text) {c : UInt8},
    (skipWhile f b r).rest[0]? = some c → f c = false
  | _, [], _, h => by cases h
  | b, d :: r, c, h => by
    rw [skipWhile] at h
    split at h
    · exact skipWhile_stops f d r h
    · rename_i hd
      obtain rfl : d = c := by simpa using h
      simpa using hd

/-- The loop over the arguments, `argc` of which there are already. -/
def convertArgs (argc : ℕ) (cli : Cursor) : List Text :=
  -- Skip any white space, and finish if we have reached the end of the command line.
  if h : (Cursor.skipWhile isspace cli.before cli.rest).rest = [] then []
  else
    let st := readArg (argc = 0) ⟨[], false, Cursor.skipWhile isspace cli.before cli.rest⟩
    -- Add the argument to the argv list, if one was actually made.
    if st.p ≠ [] ∨ st.empty_arg = true then
      st.p.takeWhile (· ≠ 0) :: convertArgs (argc + 1) st.cli
    else convertArgs argc st.cli
termination_by cli.rest.length
decreasing_by
  all_goals
    refine Nat.lt_of_lt_of_le (readArg_length_lt _ ?_) (Cursor.skipWhile_length ..)
    generalize hq : Cursor.skipWhile isspace cli.before cli.rest = q at h
    obtain ⟨b, rest⟩ := q
    cases rest with
    | nil => exact absurd rfl h
    | cons c r =>
      exact Cursor.skipWhile_stops isspace cli.before cli.rest (by rw [hq]; rfl)

/-- `convert_command_line`; `before` is what stands in memory before the command line. -/
def convertCommandLine (before : UInt8) (cli : Text) : List Text := convertArgs 0 ⟨before, cli⟩

end UnixLib
