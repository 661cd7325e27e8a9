import Gccsdk.UnixLib.ArgRoundTrip

/-!
# From `execve` to the start of the program

`commandLine_roundTrip`: the arguments of the new process are the program name and the arguments given to
`execve` if the name is a plain one (`NameOk`) and the arguments are read back (`ArgOk`), and in no other
case.

The program name is written as it is, with nothing escaped and no quotes. So it may put a part of the arguments
into quotes; but then the rest of the command line is too light for the arguments (`convertArgs_behind`).
-/

namespace UnixLib

/-- The program name reaches the new process, when `before` stands in memory before the command line. -/
structure NameOk (before : UInt8) (name : Text) : Prop where
  nonempty : name ≠ []
  plain : ∀ c ∈ name, c ≠ BACKSLASH ∧ c ≠ DQUOTE ∧ isspace c = false
  mark : name[0]? = some SQUOTE → isspace before = false

/-! ### The command line with the characters' own weights -/

def ownWeight (s : Text) : Weighted := s.map fun c => (c, charWeight c)

@[simp] theorem charsOf_ownWeight (s : Text) : charsOf (ownWeight s) = s := by
  unfold charsOf ownWeight
  rw [List.map_map]
  exact List.map_id s

@[simp] theorem weightOf_ownWeight (s : Text) : weightOf (ownWeight s) = textWeight s := by
  unfold weightOf ownWeight textWeight
  rw [List.map_map]
  rfl

theorem full_ownWeight (s : Text) : Full (ownWeight s) := by
  intro x hx
  obtain ⟨c, -, rfl⟩ := List.mem_map.mp hx
  exact Nat.le_refl _

section Own

variable {b : UInt8} {L : Text} {q : Cursor} {T : Weighted}

theorem Stands.weightOf_own (h : Stands b (ownWeight L) q T) : weightOf T = textWeight q.rest := by
  obtain ⟨⟨D, hD, -⟩, hrest⟩ := h
  obtain ⟨s, t, -, -, ht⟩ := List.map_eq_append_iff.mp hD
  have hT : T = ownWeight t := ht.symm
  rw [hrest, hT, weightOf_ownWeight, charsOf_ownWeight]

theorem Stands.rest_suffix (h : Stands b (ownWeight L) q T) : q.rest <:+ L := by
  obtain ⟨⟨D, hD, -⟩, hrest⟩ := h
  refine ⟨charsOf D, ?_⟩
  rw [hrest, ← charsOf_append, ← hD, charsOf_ownWeight]

theorem Within.own {p : Text} {n : ℕ} (h : Within b (ownWeight L) p q n) :
    textWeight p + textWeight q.rest ≤ n := by
  obtain ⟨T, hT, hle⟩ := h
  rwa [hT.weightOf_own] at hle

theorem textWeight_suffix {s t : Text} (h : s <:+ t) : textWeight s ≤ textWeight t := by
  obtain ⟨d, rfl⟩ := h
  rw [textWeight_append]
  exact Nat.le_add_left ..

theorem textWeight_lt_of_suffix {s t : Text} (h : s <:+ t) (hlt : s.length < t.length) :
    textWeight s < textWeight t := by
  obtain ⟨d, rfl⟩ := h
  cases d with
  | nil => exact absurd hlt (Nat.lt_irrefl _)
  | cons c d =>
    have := charWeight_pos c
    rw [List.cons_append, textWeight_cons, textWeight_append]
    omega

end Own

/-! ### The arguments behind the program name -/

theorem Stands.of_charsOf {b : UInt8} {W : Weighted} {q : Cursor} {d : Text}
    (hW : charsOf W = d ++ q.rest) (hb : q.before = d.getLastD b) :
    ∃ D T, W = D ++ T ∧ charsOf D = d ∧ Stands b W q T := by
  obtain ⟨D, T, hDT, hD, hT⟩ := List.map_eq_append_iff.mp hW
  exact ⟨D, T, hDT, hD, ⟨D, hDT, by rw [hb, ← hD]; rfl⟩, hT.symm⟩

theorem convertArgs_behind {before : UInt8} {name : Text} {args : List Text} {q : Cursor} {T : Weighted}
    (argc : ℕ) (h : Stands before (ownWeight (name ++ argsText args)) q T) (hends : q.argEnds = true)
    (hlt : q.rest.length < (argsText args).length) :
    argsWeight (convertArgs argc q) < argsWeight args := by
  obtain ⟨d, hd⟩ := List.suffix_of_suffix_length_le h.rest_suffix ⟨name, rfl⟩ (Nat.le_of_lt hlt)
  have hbefore : q.before = d.getLastD (name.getLastD before) := by
    obtain ⟨⟨D, hD, hb⟩, hrest⟩ := h
    have hDd : charsOf D = name ++ d := by
      have hall : charsOf D ++ q.rest = name ++ d ++ q.rest := by
        rw [hrest, ← charsOf_append, ← hD, charsOf_ownWeight, List.append_assoc, ← hrest, hd]
      exact List.append_cancel_right hall
    rw [hb, hDd]
    simp only [List.getLastD_eq_getLast?, List.getLast?_append, Option.getD_or]
  have hchars : charsOf (weighArgs args) = d ++ q.rest := by
    rw [charsOf_weighArgs, hd]
  obtain ⟨D, T', hDT, hD, hT'⟩ := Stands.of_charsOf hchars hbefore
  have hle := convertArgs_le (valid_weighArgs args _).fair argc q hT'
  rw [if_pos hends] at hle
  have hargs : weightOf D + weightOf T' = argsWeight args := by
    rw [← weightOf_append, ← hDT, weightOf_weighArgs]
  -- What is missing begins with the space before an argument.
  have hspace : 1 ≤ weightOf D := by
    cases D with
    | nil =>
      obtain rfl : [] = d := hD
      rw [← hd] at hlt
      exact absurd hlt (Nat.lt_irrefl _)
    | cons x D =>
      cases args with
      | nil => cases hDT
      | cons a as =>
        rw [weighArgs_cons] at hDT
        obtain ⟨rfl, -⟩ := List.cons.inj hDT
        rw [weightOf_cons]
        exact Nat.le_add_right ..
  omega

/-! ### The program name -/

section Name

variable {before : UInt8} {name : Text} {args : List Text}

theorem finishArg_name (A : Text) (e : Bool) : ∀ (s p : Text) (b : UInt8),
    (∀ c ∈ s, c ≠ BACKSLASH ∧ c ≠ DQUOTE ∧ isspace c = false) →
      (s[0]? = some SQUOTE → isspace b = false) →
      ∃ l, finishArg 0 ⟨p, e, ⟨b, s ++ A⟩⟩ = finishArg 0 ⟨p ++ s, e, ⟨l, A⟩⟩
  | [], p, b, _, _ => ⟨b, by simp⟩
  | c :: s, p, b, h, hm => by
    obtain ⟨hb, hd, hs⟩ := h c List.mem_cons_self
    have hm' : c = SQUOTE → isspace b = false := fun hc => hm (by rw [hc]; rfl)
    have hfirst : decide ((0 : ℕ) = 0) = true := rfl
    rw [List.cons_append, finishArg_of_step (by exact hs), hfirst, argStep_plain hb hd hm' (Or.inl rfl)]
    obtain ⟨l, hl⟩ := finishArg_name A e s (p ++ [c]) c
      (fun d hd => h d (List.mem_cons_of_mem _ hd)) fun _ => hs
    exact ⟨l, by rw [hl, List.append_assoc, List.singleton_append]⟩

theorem convertArgs_of_nameOk (args : List Text) (h : NameOk before name) (h0 : 0 ∉ name) : ∃ l,
    convertArgs 0 ⟨before, name ++ argsText args⟩ = name :: convertArgs 1 ⟨l, argsText args⟩ := by
  obtain ⟨hne, hplain, hmark⟩ := h
  have hskip : Cursor.skipWhile isspace before (name ++ argsText args) =
      ⟨before, name ++ argsText args⟩ := by
    cases name with
    | nil => exact absurd rfl hne
    | cons c s =>
      rw [List.cons_append, Cursor.skipWhile, if_neg (by simp [(hplain c List.mem_cons_self).2.2])]
  obtain ⟨l, hl⟩ := finishArg_name (argsText args) false name [] before hplain hmark
  rw [convertArgs_eq, hskip, if_neg (by simp [hne]), hl, List.nil_append]
  exact ⟨l, finishArg_end (argsText_head args) hne h0⟩

theorem readArg_own {L : Text} (first : Bool) (st : ArgState) {T : Weighted}
    (h : Stands before (ownWeight L) st.cli T) :
    textWeight (readArg first st).p + textWeight (readArg first st).cli.rest ≤
      textWeight st.p + textWeight st.cli.rest := by
  rw [← h.weightOf_own]
  exact (readArg_within ((full_ownWeight L).fair before) first st h).own

theorem skipWhile_argEnds {b : UInt8} {r : Text}
    (hne : (Cursor.skipWhile isspace b r).rest ≠ []) :
    (Cursor.skipWhile isspace b r).argEnds = false := by
  unfold Cursor.argEnds
  split
  · rename_i h
    exact absurd h hne
  · rename_i c r' h
    exact Cursor.skipWhile_stops isspace b r (by rw [h]; rfl)

/-- **The first argument is the program name:** it is what is read up to the arguments, if it comes back at
all. `q` is any place in the command line, since what holds no argument may be skipped. -/
theorem convertArgs_eq_name_cons (argc : ℕ) (q : Cursor) : ∀ {T : Weighted}, argc = 0 →
    Stands before (ownWeight (name ++ argsText args)) q T → convertArgs argc q = name :: args →
      textWeight name ≤ textWeight
          (readArg true ⟨[], false, Cursor.skipWhile isspace q.before q.rest⟩).p ∧
        textWeight (readArg true ⟨[], false, Cursor.skipWhile isspace q.before q.rest⟩).cli.rest =
          textWeight (argsText args) ∧
        textWeight name + textWeight (argsText args) ≤
          textWeight (Cursor.skipWhile isspace q.before q.rest).rest := by
  fun_induction convertArgs argc q with
  | case1 argc q _ =>
    intro T _ _ h
    cases h
  | case2 =>
    rename_i argc q hne st _ _
    intro T hargc h heq
    subst hargc
    obtain ⟨hname, hargs⟩ := List.cons.inj heq
    obtain ⟨T₁, hT₁, -⟩ := Behind.skipWhile isspace (a := q.before) (r := q.rest) h.behind
    have hL : textWeight (Cursor.skipWhile isspace q.before q.rest).rest ≤
        textWeight name + textWeight (argsText args) := by
      rw [← textWeight_append]
      exact textWeight_suffix hT₁.rest_suffix
    have hread : textWeight st.p + textWeight st.cli.rest ≤ textWeight [] +
        textWeight (Cursor.skipWhile isspace q.before q.rest).rest :=
      readArg_own true ⟨[], false, Cursor.skipWhile isspace q.before q.rest⟩ hT₁
    obtain ⟨T₂, hT₂, -⟩ : Within before (ownWeight (name ++ argsText args)) st.p st.cli _ :=
      readArg_within ((full_ownWeight _).fair before) true ⟨[], false, _⟩ hT₁
    have hp : textWeight name ≤ textWeight st.p := by
      rw [← hname]
      exact textWeight_takeWhile_le _ _
    have hrest : textWeight (argsText args) ≤ textWeight st.cli.rest := by
      by_cases hlt : st.cli.rest.length < (argsText args).length
      · -- Part of the arguments has been taken for the name.
        have hend := convertArgs_behind 1 hT₂ (readArg_ends ..) hlt
        rw [show convertArgs 1 st.cli = args from hargs] at hend
        exact absurd hend (Nat.lt_irrefl _)
      · exact textWeight_suffix
          (List.suffix_of_suffix_length_le ⟨name, rfl⟩ hT₂.rest_suffix (Nat.le_of_not_lt hlt))
    rw [textWeight_nil] at hread
    change textWeight name ≤ textWeight st.p ∧ textWeight st.cli.rest = _ ∧ _
    omega
  | case3 =>
    rename_i argc q hne st _ ih
    intro T hargc h heq
    subst hargc
    -- What is skipped without an argument is missing in the end.
    obtain ⟨T₁, hT₁, -⟩ := Behind.skipWhile isspace (a := q.before) (r := q.rest) h.behind
    obtain ⟨T₂, hT₂, -⟩ : Within before (ownWeight (name ++ argsText args)) st.p st.cli _ :=
      readArg_within ((full_ownWeight _).fair before) true ⟨[], false, _⟩ hT₁
    obtain ⟨-, -, hle⟩ := ih rfl hT₂ heq
    obtain ⟨T₃, hT₃, hs⟩ := Behind.skipWhile isspace (a := st.cli.before) (r := st.cli.rest) hT₂.behind
    have hskip : textWeight (Cursor.skipWhile isspace st.cli.before st.cli.rest).rest ≤
        textWeight st.cli.rest := by
      rw [← hT₃.weightOf_own, ← hT₂.weightOf_own]
      exact weightOf_suffix hs
    have hlt : st.cli.rest.length < (name ++ argsText args).length :=
      Nat.lt_of_lt_of_le (@readArg_length_lt true ⟨[], false, _⟩ (skipWhile_argEnds hne))
        hT₁.rest_suffix.length_le
    have hlost := textWeight_lt_of_suffix hT₂.rest_suffix hlt
    rw [textWeight_append] at hlost
    omega

/-- **A name that comes back is a plain one.** `s` is what is left of it, behind the character `b`. -/
theorem plain_of_readArg (A : Text) (e : Bool) : ∀ (s p : Text) (b : UInt8),
    textWeight p + textWeight s ≤ textWeight (readArg true ⟨p, e, ⟨b, s ++ A⟩⟩).p →
      textWeight (readArg true ⟨p, e, ⟨b, s ++ A⟩⟩).cli.rest = textWeight A →
      (∀ c ∈ s, c ≠ BACKSLASH ∧ c ≠ DQUOTE ∧ isspace c = false) ∧
        (s[0]? = some SQUOTE → isspace b = false)
  | [], _, _, _, _ => ⟨by simp, fun h => by cases h⟩
  | c :: s, p, b, hp, hrest => by
    have hpos := charWeight_pos c
    have hs : isspace c = false := by
      by_contra hs
      rw [Bool.not_eq_false] at hs
      have hread : readArg true ⟨p, e, ⟨b, c :: s ++ A⟩⟩ = ⟨p, e, ⟨b, c :: s ++ A⟩⟩ := by
        rw [readArg, dif_pos (by exact hs)]
      rw [hread, textWeight_append, textWeight_cons] at hrest
      omega
    rw [List.cons_append, readArg_of_step (by exact hs)] at hp hrest
    have hstart : Stands b (ownWeight (c :: (s ++ A))) ⟨b, c :: charsOf (ownWeight (s ++ A))⟩
        ((c, charWeight c) :: ownWeight (s ++ A)) := by
      have h := Stands.start b (ownWeight (c :: (s ++ A)))
      rwa [charsOf_ownWeight] at h ⊢
    -- Whatever is lost now is missing in the end.
    have hlossless : ∀ {n : ℕ}, Within b (ownWeight (c :: (s ++ A)))
        (argStep true ⟨p, e, ⟨b, c :: charsOf (ownWeight (s ++ A))⟩⟩).p
        (argStep true ⟨p, e, ⟨b, c :: charsOf (ownWeight (s ++ A))⟩⟩).cli n →
        textWeight p + charWeight c + textWeight (s ++ A) ≤ n := by
      intro n h
      rw [charsOf_ownWeight] at h
      obtain ⟨T, hT, hle⟩ := h
      have hread := readArg_own true _ hT
      rw [hT.weightOf_own] at hle
      rw [textWeight_cons] at hp
      rw [textWeight_append]
      omega
    have hw : weightOf (ownWeight (s ++ A)) = textWeight (s ++ A) := weightOf_ownWeight _
    have hb : c ≠ BACKSLASH := by
      rintro rfl
      have hn : charWeight BACKSLASH = 4 := rfl
      have hle := hlossless (argStep_backslash_loses hstart fun x hx => Or.inl ?_)
      · omega
      · have := full_ownWeight (s ++ A) x (List.mem_of_mem_head? hx)
        exact Nat.le_trans (charWeight_pos _) this
    have hd : c ≠ DQUOTE := by
      rintro rfl
      have hle := hlossless (argStep_quote_loses ((full_ownWeight _).fair b) hstart)
      omega
    have hm : c = SQUOTE → isspace b = false := by
      rintro rfl
      by_contra hb'
      rw [Bool.not_eq_false] at hb'
      have hle := hlossless (argStep_mark_loses (full_ownWeight _) hb' hstart)
      omega
    rw [argStep_plain hb hd hm (Or.inl rfl)] at hp hrest
    obtain ⟨hplain, -⟩ := plain_of_readArg A e s (p ++ [c]) c
      (by rw [textWeight_append, textWeight_cons, textWeight_nil]; rw [textWeight_cons] at hp; omega)
      hrest
    refine ⟨List.forall_mem_cons.mpr ⟨⟨hb, hd, hs⟩, hplain⟩, fun h => hm ?_⟩
    simpa using h

theorem nameOk_of_convertArgs
    (h : convertArgs 0 ⟨before, name ++ argsText args⟩ = name :: args) : NameOk before name := by
  have hstart : Stands before (ownWeight (name ++ argsText args)) ⟨before, name ++ argsText args⟩
      (ownWeight (name ++ argsText args)) := by
    have h := Stands.start before (ownWeight (name ++ argsText args))
    rwa [charsOf_ownWeight] at h
  obtain ⟨hp, hrest, hle⟩ := convertArgs_eq_name_cons 0 _ rfl hstart h
  dsimp only at hp hrest hle
  -- No white space has been skipped.
  have hfirst : ∀ {c r}, name ++ argsText args = c :: r → isspace c = false := by
    intro c r hcr
    by_contra hc
    rw [Bool.not_eq_false] at hc
    rw [hcr, Cursor.skipWhile, if_pos hc] at hle
    obtain ⟨T, hT, hs⟩ := Behind.skipWhile isspace (a := c) (r := r)
      (W := ownWeight r) (Stands.behind (T := ownWeight r) (b := c) ⟨⟨[], rfl, rfl⟩, by simp⟩)
    have hskip := textWeight_suffix hT.rest_suffix
    have hlen : textWeight name + textWeight (argsText args) = charWeight c + textWeight r := by
      rw [← textWeight_append, hcr, textWeight_cons]
    have := charWeight_pos c
    omega
  have hskip : Cursor.skipWhile isspace before (name ++ argsText args) =
      ⟨before, name ++ argsText args⟩ := by
    cases hcr : name ++ argsText args with
    | nil => rfl
    | cons c r => rw [Cursor.skipWhile, if_neg (by simp [hfirst hcr])]
  rw [hskip] at hp hrest
  obtain ⟨hplain, hmark⟩ := plain_of_readArg (argsText args) false name [] before
    (by rw [textWeight_nil, Nat.zero_add]; exact hp) hrest
  refine ⟨?_, hplain, hmark⟩
  rintro rfl
  cases args with
  | nil =>
    rw [convertArgs_eq] at h
    cases h
  | cons a as =>
    have hspace := hfirst (c := SPACE) (r := quoteArg a ++ argsText as) (by simp)
    cases hspace

end Name

/-! ### The round trip -/

/-- **From `execve` to the start of the program.** The new process gets the program name and the arguments
that were given to `execve`, out of a block that is long enough, exactly when the name is a plain one and the
arguments are read back. -/
theorem commandLine_roundTrip (before : UInt8) {program_name : Text} {args : List Text}
    (hname : 0 ∉ program_name) (hargs : ∀ a ∈ args, 0 ∉ a) :
    (convertCommandLine before (commandLine 0 program_name args) = commandName program_name :: args ∧
        (buildCli 0 program_name args).high ≤ cliLength 0 program_name args + 1) ↔
      NameOk before (commandName program_name) ∧ ∀ a ∈ args, ArgOk a := by
  have h0 : 0 ∉ commandName program_name := fun h => hname ((List.dropWhile_suffix _).subset h)
  have hhigh : (buildCli 0 program_name args).high ≤ cliLength 0 program_name args + 1 :=
    Nat.le_succ_of_le (buildCli_high program_name args)
  rw [and_iff_left hhigh, convertCommandLine, commandLine_eq]
  constructor
  · intro h
    have hok := nameOk_of_convertArgs h
    obtain ⟨l, hl⟩ := convertArgs_of_nameOk args hok h0
    rw [hl, List.cons.injEq] at h
    exact ⟨hok, (convertArgs_argsText_iff hargs 1 (by decide) l).mp h.2⟩
  · rintro ⟨hok, hall⟩
    obtain ⟨l, hl⟩ := convertArgs_of_nameOk args hok h0
    rw [hl, (convertArgs_argsText_iff hargs 1 (by decide) l).mpr hall]

theorem commandLine_roundTrip_quoted :
    convertCommandLine SPACE (commandLine 0 [0x63, 0x63] [[0x61, SPACE, 0x62], [0x61, SQUOTE], [0x01]]) =
      [[0x63, 0x63], [0x61, SPACE, 0x62], [0x61, SQUOTE], [0x01]] :=
  ((@commandLine_roundTrip SPACE [0x63, 0x63] _ (by decide) (by decide)).mpr
    ⟨⟨by decide, by decide +kernel, by decide⟩, by decide⟩).1

/-- The argument `a\b` loses its backslash. -/
theorem commandLine_backslash :
    ¬(convertCommandLine SPACE (commandLine 0 [0x63, 0x63] [[0x61, BACKSLASH, 0x62]]) =
        [[0x63, 0x63], [0x61, BACKSLASH, 0x62]] ∧
      (buildCli 0 [0x63, 0x63] [[0x61, BACKSLASH, 0x62]]).high ≤
        cliLength 0 [0x63, 0x63] [[0x61, BACKSLASH, 0x62]] + 1) := by
  rintro ⟨h, -⟩
  have hok : NameOk SPACE [0x63, 0x63] := ⟨by decide, by decide +kernel, by decide⟩
  obtain ⟨l, hl⟩ := convertArgs_of_nameOk [[0x61, BACKSLASH, 0x62]] hok (by decide)
  rw [convertCommandLine, commandLine_eq] at h
  have hall := (convertArgs_argsText_iff (by decide) 1 (by decide) l).mp (List.cons.inj (hl.symm.trans h)).2
  revert hall
  decide

end UnixLib
