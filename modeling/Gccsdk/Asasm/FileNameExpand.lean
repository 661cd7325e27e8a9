import Gccsdk.Lib.Expansion
import Gccsdk.Asasm.FileName

/-!
# The variables in the name of a file

`FN_AnyToNative` puts the value of a variable where its `<Name>` was, and looks at the whole name again, so
that the value of a variable may have variables in it. What is in front of the first `<` never changes, and
the rest is an expansion with rescanning (`Expansion`): the name that is read is that of the first variable,
and nothing is read if there is none, or if the environment does not know it (`environVars`). The loop ends
just if the expansion does (`expand_endsIn`), and that is so if no variable that is come to leads from its
value to itself (`expand_ends_iff`).
-/

namespace Asasm.FileName

open CheckedRun Expansion

variable {environ : Environ} {s before name behind t : Name} {k : Name}

theorem findVar_append {done : Name} (hdone : 0x3C ∉ done) :
    findVar (done ++ t) = (findVar t).map fun p => (done ++ p.1, p.2) := by
  cases h : findVar t with
  | some p =>
    obtain ⟨before, name, behind⟩ := p
    obtain ⟨rfl, hbefore, hname⟩ := findVar_eq_some.mp h
    refine findVar_eq_some.mpr ⟨by simp only [List.append_assoc], ?_, hname⟩
    exact fun hmem => (List.mem_append.mp hmem).elim hdone hbefore
  | none =>
    cases h' : findVar (done ++ t) with
    | none => rfl
    | some p =>
      obtain ⟨before, name, behind⟩ := p
      obtain ⟨hs, hbefore, hname⟩ := findVar_eq_some.mp h'
      rw [List.append_assoc] at hs
      rcases List.append_eq_append_iff.mp hs with ⟨x, hx, ht⟩ | ⟨x, hx, hrest⟩
      · -- the variable begins behind what is done
        have hfound : findVar t = some (x, name, behind) := by
          refine findVar_eq_some.mpr ⟨by rw [ht, List.append_assoc], ?_, hname⟩
          exact fun hmem => hbefore (hx ▸ List.mem_append_right _ hmem)
        rw [h] at hfound
        exact nomatch hfound
      · cases x with
        | nil =>
          have hfound : findVar t = some ([], name, behind) :=
            findVar_eq_some.mpr ⟨hrest.symm, List.not_mem_nil, hname⟩
          rw [h] at hfound
          exact nomatch hfound
        | cons c x =>
          have hc : c = 0x3C := (List.cons.inj hrest).1.symm
          exact absurd (hx ▸ List.mem_append_right _ (hc ▸ List.mem_cons_self)) hdone

/-! ### The environment is finite -/

theorem mem_inits_of_getenv (h : (getenv environ k).isSome) : k ∈ environ.flatMap List.inits := by
  obtain ⟨value, hvalue⟩ := Option.isSome_iff_exists.mp h
  obtain ⟨entry, hentry, hif⟩ := List.exists_of_findSome?_eq_some hvalue
  split at hif
  · rename_i hbegin
    refine List.mem_flatMap.mpr ⟨entry, hentry, (List.mem_inits _ _).mpr ?_⟩
    exact (List.prefix_append k [0x3D]).trans (List.isPrefixOf_iff_prefix.mp hbegin)
  · exact nomatch hif

/-! ### The expansion of the library -/

/-- The first variable of a name, if the environment knows it, and what is behind it. -/
def readVar (environ : Environ) (s : Name) : Option (Name × Name) :=
  (findVar s).bind fun p => if (getenv environ (varName p.2.1)).isSome then some (varName p.2.1,
    p.2.2) else none

theorem readVar_eq_some :
    readVar environ s = some (k, behind) ↔
      ∃ before name, findVar s = some (before, name, behind) ∧ k = varName name ∧ (getenv environ k).isSome :=
        by
  rw [readVar, Option.bind_eq_some_iff]
  constructor
  · rintro ⟨⟨before, name, rest⟩, hfind, hif⟩
    split at hif
    · rename_i hknown
      obtain ⟨rfl, rfl⟩ := Prod.mk.inj (Option.some.inj hif)
      exact ⟨before, name, hfind, rfl, hknown⟩
    · exact nomatch hif
  · rintro ⟨before, name, hfind, rfl, hknown⟩
    exact ⟨_, hfind, if_pos hknown⟩

theorem readVar_append {rest : Name} (more : Name) :
    readVar environ (t ++ more) = some (k, rest ++ more) ↔ readVar environ t = some (k, rest) := by
  rw [readVar_eq_some, readVar_eq_some]
  refine exists₂_congr fun before name => and_congr_left fun _ => ?_
  rw [findVar_eq_some, findVar_eq_some]
  refine and_congr_left fun _ => ?_
  rw [← List.cons_append, ← List.append_assoc]
  exact List.append_left_inj more

/-- **The variables of an environment**, as references that are expanded. -/
def environVars (environ : Environ) : Reader UInt8 Name where
  read := readVar environ
  value k := (getenv environ k).getD []
  keys := environ.flatMap List.inits
  mem_keys h := by
    obtain ⟨before, name, -, -, hknown⟩ := readVar_eq_some.mp h
    exact mem_inits_of_getenv hknown
  consumes {t k rest} h := by
    obtain ⟨before, name, hfind, -, -⟩ := readVar_eq_some.mp h
    refine ⟨before ++ 0x3C :: name ++ [0x3E], ?_, List.append_ne_nil_of_right_ne_nil _ (List.cons_ne_nil _ _)⟩
    rw [(findVar_eq_some.mp hfind).1]
    simp only [List.append_assoc, List.cons_append, List.nil_append]
  read_append more := readVar_append more

/-! ### The loop is that expansion -/

/-- A turn of the loop behind what is done: it ends where nothing is read, -/
theorem expandTurn_of_none {done : Name} (hdone : 0x3C ∉ done) (h : readVar environ t = none) :
    ∃ r, expandTurn environ (done ++ t) = .inl r := by
  unfold expandTurn
  rw [findVar_append hdone]
  cases hfind : findVar t with
  | none => exact ⟨_, rfl⟩
  | some p =>
    obtain ⟨before, name, behind⟩ := p
    have hunknown : getenv environ (varName name) = none := by
      rw [readVar, hfind] at h
      by_contra hne
      have hknown := Option.isSome_iff_ne_none.mpr hne
      cases (if_pos hknown).symm.trans h
    rw [Option.map_some]
    dsimp only
    rw [hunknown]
    exact ⟨_, rfl⟩

theorem expandTurn_of_some {done rest : Name} (hdone : 0x3C ∉ done) (h : readVar environ t = some (k, rest)) :
    ∃ before, 0x3C ∉ done ++ before ∧
      expandTurn environ (done ++ t) = .inr (done ++ before ++ ((environVars environ).value k ++ rest)) := by
  obtain ⟨before, name, hfind, rfl, hknown⟩ := readVar_eq_some.mp h
  obtain ⟨value, hvalue⟩ := Option.isSome_iff_exists.mp hknown
  refine ⟨before, fun hmem => ?_, ?_⟩
  · exact (List.mem_append.mp hmem).elim hdone (findVar_eq_some.mp hfind).2.1
  · unfold expandTurn
    rw [findVar_append hdone, hfind, Option.map_some]
    dsimp only
    rw [hvalue]
    change Sum.inr (done ++ before ++ value ++ rest) = _
    rw [show (environVars environ).value (varName name) = value from congrArg (·.getD []) hvalue,
      List.append_assoc]

/-- **The loop ends just if the expansion does**, by induction on the turns. -/
theorem expand_endsIn (turns : ℕ) {done : Name} (hdone : 0x3C ∉ done) :
    (∃ r, expand environ turns (done ++ t) = .ok r) ↔ EndsIn (environVars environ) turns t := by
  induction turns generalizing done t with
  | zero =>
    rw [expand]
    cases hread : readVar environ t with
    | none =>
      obtain ⟨r, hr⟩ := expandTurn_of_none hdone hread
      rw [hr]
      exact iff_of_true ⟨r, rfl⟩ (endsIn_of_none hread)
    | some p =>
      obtain ⟨k, rest⟩ := p
      obtain ⟨before, -, hturn⟩ := expandTurn_of_some hdone hread
      rw [hturn]
      exact iff_of_false (fun ⟨r, hr⟩ => nomatch hr) (not_endsIn_zero hread)
  | succ turns ih =>
    rw [expand]
    cases hread : readVar environ t with
    | none =>
      obtain ⟨r, hr⟩ := expandTurn_of_none hdone hread
      rw [hr]
      exact iff_of_true ⟨r, rfl⟩ (endsIn_of_none hread)
    | some p =>
      obtain ⟨k, rest⟩ := p
      obtain ⟨before, hbefore, hturn⟩ := expandTurn_of_some hdone hread
      rw [hturn, endsIn_succ_iff hread]
      exact ih hbefore

theorem exists_expand_iff_ends :
    (∃ turns r, expand environ turns s = .ok r) ↔ Expansion.Ends (environVars environ) s :=
  exists_congr fun turns => expand_endsIn turns List.not_mem_nil

/-- **The expansion of the variables in a name ends just if no variable that is come to leads from its value
to itself.** -/
theorem expand_ends_iff (environ : Environ) (name : Name) :
    (∃ turns r, expand environ turns name = .ok r) ↔
      ∀ k, Leads (environVars environ) name k → ¬Leads (environVars environ) ((getenv environ k).getD []) k :=
  exists_expand_iff_ends.trans ends_iff

/-- A variable whose value is `<A>` itself. -/
theorem not_expand_ends : ¬∀ (environ : Environ) (name : Name), ∃ turns r, expand environ turns name =
    .ok r := by
  intro h
  -- `A=<A>`
  have hends := exists_expand_iff_ends.mp (h [[0x41, 0x3D, 0x3C, 0x41, 0x3E]] [0x3C, 0x41, 0x3E])
  have hleads : Leads (environVars [[0x41, 0x3D, 0x3C, 0x41, 0x3E]]) [0x3C, 0x41, 0x3E] [0x41] :=
    ⟨_, [], .refl _, by decide⟩
  exact not_ends_of_leads hleads hleads hends

end Asasm.FileName
