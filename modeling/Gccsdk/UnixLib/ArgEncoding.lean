import Gccsdk.UnixLib.ArgWeight

/-!
# What is written for the arguments

The command line of `execve` without `nasty_hack` as one expression (`commandLine_eq`), and with the
weights with which reading it back gains nothing (`weighArgs`): the two characters of an escaped quotation
mark weigh as much as the mark, those of a hexadecimal code as much as the control character, and the
quotation marks around an argument nothing. The block for the command line is long enough
(`buildCli_high`).
-/

namespace UnixLib

/-- What is written for a character, -/
def escapeChar (c : UInt8) : Text :=
  if isQuote c then [BACKSLASH, c] else if isControl c then hexEscape c else [c]

/-- for an argument, -/
def quoteArg (a : Text) : Text :=
  if a.any isspace then DQUOTE :: (a.flatMap escapeChar ++ [DQUOTE]) else a.flatMap escapeChar

/-- and for the arguments behind the program name. -/
def argsText (args : List Text) : Text := args.flatMap fun a => SPACE :: quoteArg a

@[simp] theorem argsText_nil : argsText [] = [] := rfl

@[simp] theorem argsText_cons (a : Text) (args : List Text) :
    argsText (a :: args) = SPACE :: (quoteArg a ++ argsText args) := by
  simp [argsText]

/-! ### Characters -/

theorem isQuote_iff {c : UInt8} : isQuote c = true ↔ c = DQUOTE ∨ c = SQUOTE := by
  simp [isQuote]

theorem not_isControl_of_isQuote {c : UInt8} (h : isQuote c = true) : isControl c = false := by
  rcases isQuote_iff.mp h with rfl | rfl
  · rfl
  · rfl

/-- A digit of a hexadecimal code is none of the characters that the readers of the command line stop
at. -/
def isFree (c : UInt8) : Bool :=
  c ≠ SQUOTE && c ≠ BACKSLASH && c ≠ SPACE && c ≠ GREATER && charWeight c = 1

theorem isFree_iff {c : UInt8} : isFree c = true ↔
    c ≠ SQUOTE ∧ c ≠ BACKSLASH ∧ c ≠ SPACE ∧ c ≠ GREATER ∧ charWeight c = 1 := by
  simp [isFree, and_assoc]

/-- The two digits of a control character, and what is read from them. -/
structure HexDigits (c hi lo : UInt8) : Prop where
  value : hexstrtochar hi lo = c
  hi_free : isFree hi = true
  lo_free : isFree lo = true

instance (c hi lo : UInt8) : Decidable (HexDigits c hi lo) :=
  decidable_of_iff (hexstrtochar hi lo = c ∧ isFree hi = true ∧ isFree lo = true)
    ⟨fun ⟨h₁, h₂, h₃⟩ => ⟨h₁, h₂, h₃⟩, fun ⟨h₁, h₂, h₃⟩ => ⟨h₁, h₂, h₃⟩⟩

theorem hexEscape_digits {c : UInt8} (hc : isControl c = true) :
    HexDigits c (hexDigit (c >>> 4)) (hexDigit (c &&& 15)) := by
  have h : ∀ n : Fin 256, isControl (UInt8.ofFin n) = true →
      HexDigits (UInt8.ofFin n) (hexDigit (UInt8.ofFin n >>> 4)) (hexDigit (UInt8.ofFin n &&& 15)) := by
    decide +kernel
  exact h c.toFin hc

theorem mem_escapeChar {c d : UInt8} (hd : d ∈ escapeChar c) (hs : c ≠ SPACE) (hg : c ≠ GREATER) :
    d ≠ SPACE ∧ d ≠ GREATER := by
  unfold escapeChar at hd
  split at hd
  · rcases List.mem_cons.mp hd with rfl | hd
    · exact ⟨by decide, by decide⟩
    · rw [List.mem_singleton.mp hd]
      exact ⟨hs, hg⟩
  · split at hd
    · rename_i hc
      obtain ⟨-, hhi, hlo⟩ := hexEscape_digits hc
      rw [isFree_iff] at hhi hlo
      rcases List.mem_cons.mp hd with rfl | hd
      · exact ⟨by decide, by decide⟩
      · rcases List.mem_cons.mp hd with rfl | hd
        · exact ⟨by decide, by decide⟩
        · rcases List.mem_cons.mp hd with rfl | hd
          · exact ⟨hhi.2.2.1, hhi.2.2.2.1⟩
          · rw [List.mem_singleton.mp hd]
            exact ⟨hlo.2.2.1, hlo.2.2.2.1⟩
    · rw [List.mem_singleton.mp hd]
      exact ⟨hs, hg⟩

/-! ### The command line as it is written -/

section Written

variable {cli : Cli}

theorem writeChar_text (c : UInt8) : (writeChar true cli c).text = cli.text ++ escapeChar c := by
  unfold writeChar escapeChar
  by_cases hq : isQuote c = true
  · simp [hq, not_isControl_of_isQuote hq, Cli.put]
  · by_cases hc : isControl c = true
    · simp [hq, hc, Cli.puts]
    · simp [hq, hc, Cli.put]

theorem foldl_writeChar_text (a : Text) : ∀ cli : Cli,
    (a.foldl (writeChar true) cli).text = cli.text ++ a.flatMap escapeChar := by
  induction a with
  | nil => simp
  | cons c a ih =>
    intro cli
    rw [List.foldl_cons, ih, writeChar_text]
    simp

theorem writeArg_text (arg : Bool × Text) :
    (writeArg 0 cli arg).text = cli.text ++ (quoteArg arg.2 ++ [SPACE]) := by
  unfold writeArg quoteArg
  by_cases h : arg.2.any isspace = true
  · simp [h, Cli.put, foldl_writeChar_text]
  · simp [h, Cli.put, foldl_writeChar_text]

theorem foldl_writeArg_text (l : List (Bool × Text)) : ∀ cli : Cli,
    (l.foldl (writeArg 0) cli).text =
      cli.text ++ l.flatMap fun arg => quoteArg arg.2 ++ [SPACE] := by
  induction l with
  | nil => simp
  | cons x l ih =>
    intro cli
    rw [List.foldl_cons, ih, writeArg_text]
    simp

theorem map_snd_markFirst (args : List Text) : (markFirst args).map Prod.snd = args := by
  cases args with
  | nil => rfl
  | cons a args => simp [markFirst]

theorem space_flatMap (args : List Text) :
    SPACE :: args.flatMap (fun a => quoteArg a ++ [SPACE]) = argsText args ++ [SPACE] := by
  induction args with
  | nil => rfl
  | cons a args ih =>
    rw [argsText_cons, List.cons_append, List.append_assoc, ← ih]
    simp

theorem buildCli_text (program_name : Text) (args : List Text) :
    (buildCli 0 program_name args).text =
      commandName program_name ++ argsText args ++ [SPACE] := by
  have hargs : (markFirst args).flatMap (fun arg => quoteArg arg.2 ++ [SPACE]) =
      args.flatMap fun a => quoteArg a ++ [SPACE] := by
    conv_rhs => rw [← map_snd_markFirst args, List.flatMap_map]
  unfold buildCli
  rw [foldl_writeArg_text, hargs, List.append_assoc, ← space_flatMap]
  simp [Cli.put, Cli.puts]

/-- **The command line.** -/
theorem commandLine_eq (program_name : Text) (args : List Text) :
    commandLine 0 program_name args = commandName program_name ++ argsText args := by
  rw [commandLine, buildCli_text, List.dropLast_concat]

end Written

/-! ### The block -/

def Cli.Tight (cli : Cli) : Prop := cli.high ≤ cli.text.length + 1

theorem Cli.Tight.put {cli : Cli} (h : cli.Tight) (c : UInt8) :
    (cli.put c).Tight ∧ (cli.put c).high ≤ (cli.put c).text.length := by
  unfold Cli.Tight at *
  simp only [Cli.put, List.length_append, List.length_cons, List.length_nil]
  omega

theorem Cli.Tight.puts {cli : Cli} (h : cli.Tight) (s : Text) : (cli.puts s).Tight := by
  unfold Cli.Tight at *
  simp only [Cli.puts, List.length_append]
  omega

theorem Cli.Tight.writeChar {cli : Cli} (h : cli.Tight) (quotes : Bool) (c : UInt8) :
    (writeChar quotes cli c).Tight := by
  unfold UnixLib.writeChar
  dsimp only
  have h' : (if (quotes && isQuote c) = true then cli.put BACKSLASH else cli).Tight := by
    split
    · exact (h.put _).1
    · exact h
  split
  · exact h'.puts _
  · exact (h'.put _).1

theorem Cli.Tight.foldl_writeChar (quotes : Bool) (a : Text) : ∀ {cli : Cli}, cli.Tight →
    (a.foldl (UnixLib.writeChar quotes) cli).Tight := by
  induction a with
  | nil => exact fun h => h
  | cons c a ih => exact fun h => ih (h.writeChar quotes c)

theorem Cli.Tight.writeArg {cli : Cli} (h : cli.Tight) (nasty_hack : ℕ) (arg : Bool × Text) :
    (writeArg nasty_hack cli arg).high ≤ (writeArg nasty_hack cli arg).text.length := by
  unfold UnixLib.writeArg
  dsimp only
  refine (Cli.Tight.put ?_ SPACE).2
  have h₁ : ∀ {cli : Cli} {b : Bool}, cli.Tight → (if b = true then cli.put DQUOTE else cli).Tight := by
    intro cli b h
    split
    · exact (h.put _).1
    · exact h
  exact h₁ (Cli.Tight.foldl_writeChar _ _ (h₁ h))

theorem foldl_writeArg_high (l : List (Bool × Text)) : ∀ {cli : Cli}, cli.high ≤ cli.text.length →
    (l.foldl (writeArg 0) cli).high ≤ (l.foldl (writeArg 0) cli).text.length := by
  induction l with
  | nil => exact fun h => h
  | cons x l ih => exact fun h => ih (Cli.Tight.writeArg (Nat.le_succ_of_le h) 0 x)

theorem escapeChar_length (c : UInt8) : (escapeChar c).length =
    (if isQuote c = true then 1 else 0) + (if isControl c = true then 3 else 0) + 1 := by
  unfold escapeChar
  by_cases hq : isQuote c = true
  · simp [hq, not_isControl_of_isQuote hq]
  · by_cases hc : isControl c = true
    · simp [hq, hc, hexEscape]
    · simp [hq, hc]

theorem argLength_eq (first : Bool) (a : Text) : argLength 0 first a = (quoteArg a).length + 1 := by
  have hchars : ∀ (a : Text) (n : ℕ), a.foldl (fun n c =>
      n + (if ((0 : ℕ) = 0 ∨ first = false) ∧ isQuote c = true then 1 else 0) +
        (if isControl c = true then 3 else 0) + 1) n = n + (a.flatMap escapeChar).length := by
    intro a
    induction a with
    | nil => simp
    | cons c a ih =>
      intro n
      rw [List.foldl_cons, ih, List.flatMap_cons, List.length_append, escapeChar_length]
      simp only [true_or, true_and]
      omega
  unfold argLength quoteArg
  dsimp only
  rw [if_neg (by simp), hchars]
  by_cases h : a.any isspace = true
  · simp only [h, and_self, if_true, List.length_cons, List.length_append, List.length_nil]
    omega
  · simp [h]

theorem cliLength_eq (program_name : Text) (args : List Text) :
    cliLength 0 program_name args = program_name.length + 1 + (argsText args).length := by
  have hargs : ∀ (l : List (Bool × Text)) (n : ℕ), l.foldl (fun n arg => n + argLength 0 arg.1 arg.2) n =
      n + (argsText (l.map Prod.snd)).length := by
    intro l
    induction l with
    | nil => simp
    | cons x l ih =>
      intro n
      rw [List.foldl_cons, ih, argLength_eq, List.map_cons, argsText_cons]
      simp only [List.length_cons, List.length_append]
      omega
  rw [cliLength, hargs, map_snd_markFirst]

/-- **Nothing is written behind the block.** -/
theorem buildCli_high (program_name : Text) (args : List Text) :
    (buildCli 0 program_name args).high ≤ cliLength 0 program_name args := by
  have hstart : (((⟨[], 0⟩ : Cli).puts (commandName program_name)).put SPACE).high ≤
      (((⟨[], 0⟩ : Cli).puts (commandName program_name)).put SPACE).text.length :=
    (Cli.Tight.put (Cli.Tight.puts (Nat.zero_le _) _) SPACE).2
  have hhigh : (buildCli 0 program_name args).high ≤ (buildCli 0 program_name args).text.length :=
    foldl_writeArg_high _ hstart
  have hname : (commandName program_name).length ≤ program_name.length := by
    have := (List.dropWhile_suffix (fun c => c = ASTERISK || c = SPACE) (l := program_name)).length_le
    exact this
  refine Nat.le_trans hhigh ?_
  rw [buildCli_text, cliLength_eq]
  simp only [List.length_append, List.length_cons, List.length_nil]
  omega

/-! ### Weights -/

/-- The weights of what is written for a character, -/
def weighChar (c : UInt8) : Weighted :=
  if isQuote c then [(BACKSLASH, 0), (c, 1)]
  else if isControl c then (hexEscape c).map fun d => (d, 1)
  else [(c, charWeight c)]

/-- for an argument, -/
def weighArg (a : Text) : Weighted :=
  if a.any isspace then (DQUOTE, 0) :: (a.flatMap weighChar ++ [(DQUOTE, 0)]) else a.flatMap weighChar

/-- and for the arguments, with a space before each. -/
def weighArgs (args : List Text) : Weighted := args.flatMap fun a => (SPACE, 1) :: weighArg a

@[simp] theorem weighArgs_nil : weighArgs [] = [] := rfl

@[simp] theorem weighArgs_cons (a : Text) (args : List Text) :
    weighArgs (a :: args) = (SPACE, 1) :: (weighArg a ++ weighArgs args) := by
  simp [weighArgs]

theorem charsOf_weighChar (c : UInt8) : charsOf (weighChar c) = escapeChar c := by
  unfold weighChar escapeChar
  split
  · rfl
  · split
    · exact List.map_map.trans (List.map_id _)
    · rfl

theorem charsOf_flatMap (a : Text) : charsOf (a.flatMap weighChar) = a.flatMap escapeChar := by
  induction a with
  | nil => rfl
  | cons c a ih => simp [charsOf_weighChar, ih]

theorem charsOf_weighArg (a : Text) : charsOf (weighArg a) = quoteArg a := by
  unfold weighArg quoteArg
  split
  · simp [charsOf_flatMap]
  · exact charsOf_flatMap a

@[simp] theorem charsOf_weighArgs (args : List Text) : charsOf (weighArgs args) = argsText args := by
  induction args with
  | nil => rfl
  | cons a args ih => simp [charsOf_weighArg, ih]

theorem weightOf_weighChar (c : UInt8) : weightOf (weighChar c) = charWeight c := by
  unfold weighChar charWeight
  by_cases hq : isQuote c = true
  · have hb : c ≠ BACKSLASH := by
      rintro rfl
      cases hq
    simp [hq, hb, not_isControl_of_isQuote hq]
  · by_cases hc : isControl c = true
    · simp [hq, hc, hexEscape]
    · simp [hq, hc]

theorem weightOf_flatMap (a : Text) : weightOf (a.flatMap weighChar) = textWeight a := by
  induction a with
  | nil => rfl
  | cons c a ih => simp [weightOf_weighChar, ih]

theorem weightOf_weighArg (a : Text) : weightOf (weighArg a) = textWeight a := by
  unfold weighArg
  split
  · simp [weightOf_flatMap]
  · exact weightOf_flatMap a

@[simp] theorem weightOf_weighArgs (args : List Text) : weightOf (weighArgs args) = argsWeight args := by
  induction args with
  | nil => rfl
  | cons a args ih =>
    simp only [weighArgs_cons, weightOf_cons, weightOf_append, weightOf_weighArg, ih, argsWeight_cons]
    omega

theorem valid_weighChar {T : Weighted} (hT : ∀ b, Valid b T) (c b : UInt8) :
    Valid b (weighChar c ++ T) := by
  unfold weighChar
  by_cases hq : isQuote c = true
  · have hx : c ≠ LETTER_X := by
      rintro rfl
      cases hq
    have hw : charWeight c = 1 := by
      rcases isQuote_iff.mp hq with rfl | rfl
      · rfl
      · rfl
    rw [if_pos hq]
    refine Valid.cons (fun _ => by decide) (Or.inr (Or.inl ⟨c, 1, T, rfl, hx, by omega⟩))
      (Valid.cons (fun h => by cases h) ?_ (hT c))
    unfold Pays
    rw [if_neg (by rcases isQuote_iff.mp hq with rfl | rfl <;> decide)]
    exact Or.inr (Nat.le_of_eq hw)
  · rw [if_neg hq]
    by_cases hc : isControl c = true
    · obtain ⟨hval, hhi, hlo⟩ := hexEscape_digits hc
      rw [isFree_iff] at hhi hlo
      rw [if_pos hc]
      refine Valid.cons (fun _ => by decide) (Or.inr (Or.inr ⟨1, _, 1, _, 1, T, rfl, charWeight_le _⟩))
        (Valid.cons (fun h => by cases h) (Or.inr (Nat.le_of_eq rfl))
          (Valid.cons (fun _ => hhi.1) ?_ (Valid.cons (fun _ => hlo.1) ?_ (hT _))))
      · unfold Pays
        rw [if_neg hhi.2.1]
        exact Or.inr (Nat.le_of_eq hhi.2.2.2.2)
      · unfold Pays
        rw [if_neg hlo.2.1]
        exact Or.inr (Nat.le_of_eq hlo.2.2.2.2)
    · rw [if_neg hc]
      refine ⟨fun _ hm => hq (isQuote_iff.mpr (Or.inr hm)), ?_, hT c⟩
      unfold Pays
      split
      · rename_i hb
        exact Or.inl (by rw [hb]; exact Nat.le_refl _)
      · exact Or.inr (Nat.le_refl _)

theorem valid_flatMap (a : Text) {T : Weighted} (hT : ∀ b, Valid b T) (b : UInt8) :
    Valid b (a.flatMap weighChar ++ T) := by
  induction a generalizing b with
  | nil => exact hT b
  | cons c a ih =>
    rw [List.flatMap_cons, List.append_assoc]
    exact valid_weighChar ih c b

theorem valid_weighArg (a : Text) {T : Weighted} (hT : ∀ b, Valid b T) (b : UInt8) :
    Valid b (weighArg a ++ T) := by
  have hmark : ∀ {T : Weighted}, (∀ b, Valid b T) → ∀ b, Valid b ((DQUOTE, 0) :: T) := by
    intro T hT b
    exact ⟨fun _ => by decide, Or.inl rfl, hT _⟩
  unfold weighArg
  split
  · rw [List.cons_append, List.append_assoc]
    exact hmark (valid_flatMap a (hmark hT)) b
  · exact valid_flatMap a hT b

theorem valid_weighArgs (args : List Text) (b : UInt8) : Valid b (weighArgs args) := by
  induction args generalizing b with
  | nil => trivial
  | cons a args ih =>
    rw [weighArgs_cons]
    exact ⟨fun _ => by decide, Or.inr (Nat.le_refl _), valid_weighArg a ih SPACE⟩

end UnixLib
