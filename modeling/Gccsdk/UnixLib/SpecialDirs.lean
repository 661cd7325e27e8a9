import Gccsdk.Lib.CheckedRun
import Gccsdk.UnixLib.CanonicalPath
import Mathlib.Data.List.TakeWhile

/-!
# Special directories

`__sdirinit` of `riscosify.c` makes the table of directories that have another name in RISC OS: those of the system
variables `UnixFS$/name`, and behind them the defaults `pipe` and `tmp` where the user has none.

The loops over the defaults count down to 1 and leave out the first one, `pipe`; and a default is added without a look
at the size of the table. So the table is right if and only if the user has `pipe`, and `tmp` too where the table is
full (`sdirinit_right_iff`); a variable must also fit into the buffer it is read to. Memory is there.
-/

namespace UnixLib

open CheckedRun

def MAXSDIR : ℕ := 16

def MAXPATHLEN : ℕ := 1024

structure SDir where
  name : Option Text
  riscos_name : Option Text
  deriving DecidableEq

/-- `tolower` in the C locale. -/
def tolower (c : UInt8) : UInt8 := if 0x41 ≤ c ∧ c ≤ 0x5A then c + 0x20 else c

/-- `stricmp` finds no difference. -/
def SameName (a b : Text) : Prop := a.map tolower = b.map tolower

instance (a b : Text) : Decidable (SameName a b) := inferInstanceAs (Decidable (_ = _))

def wimp_scrap : Text := textOf "<Wimp$ScrapDir>"

/-- `def_map`, without the flags. -/
def def_map : List (Text × Text) := [(textOf "pipe", wimp_scrap), (textOf "tmp", wimp_scrap)]

abbrev noEntry : SDir := ⟨none, none⟩

def defEntry (d : Text × Text) : SDir := ⟨some d.1, some d.2⟩

/-- A system variable `UnixFS$/name`, and what its value expands to. -/
structure Var where
  name : Text
  value : Text
  deriving DecidableEq

def Var.entry (v : Var) : SDir := ⟨some v.name, some v.value⟩

/-- `OS_ReadVarVal` has room for the value. -/
def Var.Fits (v : Var) : Prop := v.value.length ≤ MAXPATHLEN - 2

instance (v : Var) : Decidable v.Fits := inferInstanceAs (Decidable (_ ≤ _))

/-- **The system variables** `UnixFS$/#*`, in the order in which they are found. Upper and lower case are the same
in their names. -/
structure SysVars where
  vars : List Var
  unique : vars.Pairwise fun v w => ¬SameName v.name w.name

/-! ### `__sdirinit` -/

/-- "Check defaults and mark them defined if found": the loop counts down from `j`, and ends in front of 0. -/
def markDefined (name : Text) : (j : ℕ) → List Bool → List Bool
  | 0, defined => defined
  | j + 1, defined =>
    markDefined name j
      (if SameName name (def_map.getD (j + 1) ([], [])).1 then defined.set (j + 1) true else defined)

/-- The loop over the variables; it ends with the first one that cannot be read. -/
def userLoop : (left i : ℕ) → List Var → List SDir → List Bool → Run (ℕ × List SDir × List Bool)
  | 0, i, _, table, defined => pure (i, table, defined)
  | _ + 1, i, [], table, defined => pure (i, table, defined)
  | left + 1, i, v :: vars, table, defined =>
    if v.Fits then do
      let table ← store table i v.entry
      userLoop left (i + 1) vars table (markDefined v.name (def_map.length - 1) defined)
    else pure (i, table, defined)

/-- "Add default special directories if not specified by user": this loop counts down, too. -/
def addDefaults (defined : List Bool) : (j i : ℕ) → List SDir → Run (ℕ × List SDir)
  | 0, i, table => pure (i, table)
  | j + 1, i, table =>
    if defined.getD (j + 1) false = false then do
      let table ← store table i (defEntry (def_map.getD (j + 1) ([], [])))
      addDefaults defined j (i + 1) table
    else addDefaults defined j i table

/-- "Terminate list." -/
def terminate (i : ℕ) (table : List SDir) : Run (List SDir) :=
  if i < MAXSDIR then do
    let entry ← load table i
    store table i { entry with name := none }
  else pure table

/-- **`__sdirinit`**, for a table that is empty. -/
def sdirinit (sys : SysVars) : Run (List SDir) := do
  let (i, table, defined) ←
    userLoop MAXSDIR 0 sys.vars (List.replicate MAXSDIR noEntry) (def_map.map fun _ => false)
  let (i, table) ← addDefaults defined (def_map.length - 1) i table
  terminate i table

/-! ### What the table is to hold -/

def listed (table : List SDir) : List SDir := table.takeWhile fun entry => entry.name.isSome

def SDir.Named (name : Text) (entry : SDir) : Prop := ∃ n, entry.name = some n ∧ SameName n name

instance (name : Text) (entry : SDir) : Decidable (entry.Named name) :=
  match h : entry.name with
  | none => .isFalse (by rintro ⟨n, heq, -⟩; rw [h] at heq; cases heq)
  | some n => decidable_of_iff (SameName n name) (by
      constructor
      · exact fun hsame => ⟨n, h, hsame⟩
      · rintro ⟨m, heq, hsame⟩
        rwa [Option.some.inj (h.symm.trans heq)])

/-- **The table is right**: it has the directories of the user, as many as it has room for, and every default
that the user has not, each once, and no more. -/
structure SdirRight (vars : List Var) (table : List SDir) : Prop where
  size : table.length = MAXSDIR
  users : ∀ v ∈ vars.take MAXSDIR, (listed table).filter (·.Named v.name) = [v.entry]
  defaults : ∀ d ∈ def_map, (∀ v ∈ vars, ¬SameName v.name d.1) →
    (listed table).filter (·.Named d.1) = [defEntry d]
  only : ∀ entry ∈ listed table, (∃ v ∈ vars.take MAXSDIR, entry = v.entry) ∨ ∃ d ∈ def_map, entry = defEntry d

/-- **The user has what the program misses**: `pipe`, and `tmp` where the table is full; and the variables can be
read. -/
structure UserHas (vars : List Var) : Prop where
  fits : ∀ v ∈ vars.take MAXSDIR, v.Fits
  pipe : ∃ v ∈ vars, SameName v.name (textOf "pipe")
  tmp : vars.length < MAXSDIR ∨ ∃ v ∈ vars.take MAXSDIR, SameName v.name (textOf "tmp")

/-! ### The loops -/

def readUsers (vars : List Var) (left : ℕ) : List Var := (vars.take left).takeWhile fun v => v.Fits

def flagsOf (us : List Var) (defined : List Bool) : List Bool :=
  us.foldl (fun defined v => markDefined v.name (def_map.length - 1) defined) defined

theorem store_eq {table : List SDir} {i : ℕ} (entry : SDir) (hi : i < table.length) :
    ∃ table', store table i entry = .ok table' ∧ table'.length = table.length ∧
      table'.take (i + 1) = table.take i ++ [entry] ∧ table'.drop (i + 1) = table.drop (i + 1) := by
  refine ⟨table.set i entry, if_pos hi, List.length_set, ?_, List.drop_set_of_lt (Nat.lt_succ_self i)⟩
  rw [List.take_add_one, List.take_set_of_le (Nat.le_refl i), List.getElem?_set_self hi]
  rfl

theorem readUsers_fits {v : Var} (hfits : v.Fits) (vars : List Var) (left : ℕ) :
    readUsers (v :: vars) (left + 1) = v :: readUsers vars left := by
  rw [readUsers, List.take_succ_cons, List.takeWhile_cons, decide_eq_true hfits]
  rfl

theorem readUsers_not {v : Var} (hfits : ¬v.Fits) (vars : List Var) (left : ℕ) :
    readUsers (v :: vars) (left + 1) = [] := by
  rw [readUsers, List.take_succ_cons, List.takeWhile_cons, decide_eq_false hfits]
  rfl

theorem table_same (table : List SDir) (i : ℕ) :
    table.take i ++ ([] : List Var).map Var.entry ++ table.drop (i + ([] : List Var).length) = table := by
  rw [List.map_nil, List.append_nil]
  exact List.take_append_drop i table

/-- **The variables are in the table**, behind what stands there. -/
theorem userLoop_eq {left i : ℕ} {vars : List Var} {table : List SDir} {defined : List Bool}
    (h : i + left = table.length) :
    userLoop left i vars table defined =
      .ok (i + (readUsers vars left).length,
        table.take i ++ (readUsers vars left).map Var.entry ++ table.drop (i + (readUsers vars left).length),
        flagsOf (readUsers vars left) defined) := by
  induction left generalizing i vars table defined with
  | zero =>
    have hnil : readUsers vars 0 = [] := rfl
    rw [hnil, table_same]
    rfl
  | succ left ih =>
    cases vars with
    | nil =>
      have hnil : readUsers [] (left + 1) = [] := rfl
      rw [hnil, table_same]
      rfl
    | cons v vars =>
      rw [userLoop]
      by_cases hfits : v.Fits
      · have hroom : i < table.length := by omega
        obtain ⟨table', hstore, hlength, hfront, hback⟩ := store_eq v.entry hroom
        have hnext : i + 1 + (readUsers vars left).length = i + ((readUsers vars left).length + 1) := by omega
        have hdrop : table'.drop (i + ((readUsers vars left).length + 1)) =
            table.drop (i + ((readUsers vars left).length + 1)) := by
          rw [← hnext, ← List.drop_drop, hback, List.drop_drop]
        rw [if_pos hfits, hstore, ok_bind, ih (by omega), readUsers_fits hfits, hfront, List.length_cons, hnext,
          hdrop, List.append_assoc (table.take i), List.map_cons]
        rfl
      · rw [if_neg hfits, readUsers_not hfits, table_same]
        rfl

/-! ### The defaults -/

/-- The entry of the default `tmp`, the only one that is added. -/
def tmpEntry : SDir := ⟨some (textOf "tmp"), some wimp_scrap⟩

/-- The variables name `tmp`. -/
def HasTmp (us : List Var) : Prop := ∃ v ∈ us, SameName v.name (textOf "tmp")

instance (us : List Var) : Decidable (HasTmp us) := inferInstanceAs (Decidable (∃ v ∈ us, _))

theorem flagsOf_eq (us : List Var) (a b : Bool) :
    ∃ b', flagsOf us [a, b] = [a, b'] ∧ (b' = true ↔ b = true ∨ HasTmp us) := by
  induction us generalizing b with
  | nil => exact ⟨b, rfl, (or_iff_left (by rintro ⟨_, hmem, -⟩; cases hmem)).symm⟩
  | cons v us ih =>
    have hmark : markDefined v.name (def_map.length - 1) [a, b] =
        [a, if SameName v.name (textOf "tmp") then true else b] := by
      change (if SameName v.name (textOf "tmp") then [a, true] else [a, b]) = _
      split <;> rfl
    obtain ⟨b', hflags, hb'⟩ := ih (if SameName v.name (textOf "tmp") then true else b)
    refine ⟨b', ?_, ?_⟩
    · rw [flagsOf, List.foldl_cons, hmark]
      exact hflags
    · have hcons : HasTmp (v :: us) ↔ SameName v.name (textOf "tmp") ∨ HasTmp us := List.exists_mem_cons_iff _ _ _
      rw [hb', hcons]
      by_cases hsame : SameName v.name (textOf "tmp")
      · rw [if_pos hsame]
        tauto
      · rw [if_neg hsame]
        tauto

/-- What `__sdirinit` has of the user. -/
abbrev users (vars : List Var) : List Var := readUsers vars MAXSDIR

abbrev written (vars : List Var) : List SDir :=
  (users vars).map Var.entry ++ List.replicate (MAXSDIR - (users vars).length) noEntry

theorem terminate_listed {front back : List SDir} (hfront : ∀ entry ∈ front, entry.name.isSome = true)
    (hlength : (front ++ back).length = MAXSDIR) :
    ∃ table, terminate front.length (front ++ back) = .ok table ∧ table.length = MAXSDIR ∧
      listed table = front := by
  have hlisted : ∀ rest : List SDir, (∀ entry, rest.head? = some entry → entry.name = none) →
      listed (front ++ rest) = front := by
    intro rest hrest
    rw [listed, List.takeWhile_append_of_pos hfront]
    cases rest with
    | nil => rw [List.takeWhile_nil, List.append_nil]
    | cons entry rest => rw [List.takeWhile_cons, hrest entry rfl]; exact List.append_nil front
  rw [terminate]
  cases back with
  | nil =>
    rw [List.append_nil] at hlength
    rw [hlength, if_neg (Nat.lt_irrefl _)]
    refine ⟨front ++ [], rfl, ?_, hlisted [] nofun⟩
    rw [List.append_nil, hlength]
  | cons entry back =>
    have hless : front.length < (front ++ entry :: back).length := by
      rw [List.length_append, List.length_cons]
      omega
    rw [if_pos (hlength ▸ hless), load_eq hless, ok_bind, store, if_pos hless]
    refine ⟨_, rfl, by rw [List.length_set, hlength], ?_⟩
    rw [List.set_append_right _ _ (Nat.le_refl _), Nat.sub_self, List.set_cons_zero]
    apply hlisted
    intro other heq
    rw [← Option.some.inj heq]

/-- **What the table holds**: the directories of the user that are read, and `tmp` where they do not have it. Where they
fill the table, `tmp` is written behind it. -/
theorem sdirinit_eq (sys : SysVars) :
    (HasTmp (users sys.vars) ∨ (users sys.vars).length < MAXSDIR →
      ∃ table, sdirinit sys = .ok table ∧ table.length = MAXSDIR ∧
        listed table = (users sys.vars).map Var.entry ++ if HasTmp (users sys.vars) then [] else [tmpEntry]) ∧
    (¬(HasTmp (users sys.vars) ∨ (users sys.vars).length < MAXSDIR) → sdirinit sys = throw .outside) := by
  have hroom : (users sys.vars).length ≤ MAXSDIR :=
    Nat.le_trans (List.takeWhile_prefix _).length_le (List.length_take_le _ _)
  have hloop : userLoop MAXSDIR 0 sys.vars (List.replicate MAXSDIR noEntry) [false, false] =
      .ok (0 + (users sys.vars).length, _, _) := userLoop_eq (by rw [List.length_replicate, Nat.zero_add])
  obtain ⟨b, hflags, hb⟩ := flagsOf_eq (users sys.vars) false false
  rw [hflags, List.take_zero, List.nil_append, List.drop_replicate, Nat.zero_add] at hloop
  rw [or_iff_right Bool.false_ne_true] at hb
  have hrun : sdirinit sys = addDefaults [false, b] 1 (users sys.vars).length (written sys.vars) >>=
      fun (i, table) => terminate i table := by
    rw [sdirinit]
    change (userLoop MAXSDIR 0 sys.vars (List.replicate MAXSDIR noEntry) [false, false] >>= _) = _
    rw [hloop]
    rfl
  rw [hrun]
  have hnamed : ∀ entry ∈ (users sys.vars).map Var.entry, entry.name.isSome = true := by
    intro entry hentry
    obtain ⟨v, -, rfl⟩ := List.mem_map.mp hentry
    rfl
  have hlength : (written sys.vars).length = MAXSDIR := by
    rw [written, List.length_append, List.length_map, List.length_replicate]
    omega
  have hentries : ((users sys.vars).map Var.entry).length = (users sys.vars).length := List.length_map _
  cases b with
  | true =>
    have htmp : HasTmp (users sys.vars) := hb.mp rfl
    refine ⟨fun _ => ?_, fun h => absurd (Or.inl htmp) h⟩
    rw [if_pos htmp, List.append_nil]
    have hend := terminate_listed hnamed hlength
    rw [hentries] at hend
    exact hend
  | false =>
    have htmp : ¬HasTmp (users sys.vars) := fun h => nomatch hb.mpr h
    rw [if_neg htmp, or_iff_right htmp]
    have hadd : addDefaults [false, false] 1 (users sys.vars).length (written sys.vars) =
        store (written sys.vars) (users sys.vars).length tmpEntry >>= fun table =>
          pure ((users sys.vars).length + 1, table) := rfl
    rw [hadd]
    refine ⟨fun hless => ?_, fun hfull => ?_⟩
    · obtain ⟨table, hstore, hsize, hfront, hback⟩ := store_eq tmpEntry (Nat.lt_of_lt_of_eq hless hlength.symm)
      rw [hstore, ok_bind]
      rw [List.take_left' hentries] at hfront
      have htable : table =
          ((users sys.vars).map Var.entry ++ [tmpEntry]) ++ table.drop ((users sys.vars).length + 1) := by
        rw [← hfront, List.take_append_drop]
      have hmore : ∀ entry ∈ (users sys.vars).map Var.entry ++ [tmpEntry], entry.name.isSome = true := by
        intro entry hentry
        rcases List.mem_append.mp hentry with hentry | hentry
        · exact hnamed entry hentry
        · rw [List.mem_singleton.mp hentry]
          rfl
      have hend := terminate_listed hmore (htable ▸ hsize.trans hlength)
      rw [← htable, List.length_append, hentries] at hend
      exact hend
    · rw [store, if_neg]
      · rfl
      · rwa [hlength]

/-! ### When the table is right -/

theorem SameName.symm {a b : Text} (h : SameName a b) : SameName b a := Eq.symm h

theorem Var.named_iff (v : Var) (name : Text) : v.entry.Named name ↔ SameName v.name name := by
  constructor
  · rintro ⟨n, heq, hsame⟩
    rwa [← Option.some.inj heq] at hsame
  · intro hsame
    exact ⟨v.name, rfl, hsame⟩

theorem tmpEntry_named_iff (name : Text) : tmpEntry.Named name ↔ SameName (textOf "tmp") name :=
  Var.named_iff ⟨textOf "tmp", wimp_scrap⟩ name

theorem filter_entries_nil {us : List Var} {name : Text} (h : ∀ v ∈ us, ¬SameName v.name name) :
    (us.map Var.entry).filter (fun entry => entry.Named name) = [] := by
  rw [List.filter_eq_nil_iff]
  intro entry hentry hnamed
  obtain ⟨v, hv, rfl⟩ := List.mem_map.mp hentry
  exact h v hv ((v.named_iff name).mp (of_decide_eq_true hnamed))

theorem filter_entries {us : List Var} (hunique : us.Pairwise fun v w => ¬SameName v.name w.name) {v : Var}
    (hv : v ∈ us) : (us.map Var.entry).filter (fun entry => entry.Named v.name) = [v.entry] := by
  obtain ⟨before, behind, rfl⟩ := List.append_of_mem hv
  obtain ⟨-, hback, hcross⟩ := List.pairwise_append.mp hunique
  have hbefore : ∀ w ∈ before, ¬SameName w.name v.name := fun w hw => hcross w hw v List.mem_cons_self
  have hbehind : ∀ w ∈ behind, ¬SameName w.name v.name := by
    intro w hw hsame
    exact (List.pairwise_cons.mp hback).1 w hw hsame.symm
  have hself : decide (v.entry.Named v.name) = true := decide_eq_true ((v.named_iff v.name).mpr rfl)
  rw [List.map_append, List.map_cons, List.filter_append, filter_entries_nil hbefore, List.filter_cons,
    if_pos hself, filter_entries_nil hbehind]
  rfl

theorem readUsers_all {vars : List Var} (h : ∀ v ∈ vars.take MAXSDIR, v.Fits) :
    users vars = vars.take MAXSDIR :=
  List.takeWhile_eq_self_iff.mpr fun v hv => decide_eq_true (h v hv)

theorem users_fits {vars : List Var} {v : Var} (hv : v ∈ users vars) : v.Fits := by
  have hfits : decide v.Fits = true := List.mem_takeWhile_imp (p := fun v : Var => decide v.Fits) hv
  exact of_decide_eq_true hfits

/-- **When `__sdirinit` makes the right table**: the loops over the defaults never come to `pipe`, and `tmp` is
added to a full table, too. -/
theorem sdirinit_right_iff (sys : SysVars) :
    (∃ table, sdirinit sys = .ok table ∧ SdirRight sys.vars table) ↔ UserHas sys.vars := by
  obtain ⟨hinside, houtside⟩ := sdirinit_eq sys
  have hsub : (users sys.vars).Sublist sys.vars :=
    (List.takeWhile_prefix _).sublist.trans (List.take_sublist _ _)
  constructor
  · rintro ⟨table, hrun, hright⟩
    have hdone : HasTmp (users sys.vars) ∨ (users sys.vars).length < MAXSDIR := by
      by_contra hfull
      rw [houtside hfull] at hrun
      cases hrun
    obtain ⟨table', hrun', -, hlisted⟩ := hinside hdone
    obtain rfl := Except.ok.inj (hrun.symm.trans hrun')
    -- what is listed is a variable that was read, or `tmp`
    have hentry : ∀ entry ∈ listed table, (∃ v ∈ users sys.vars, v.entry = entry) ∨ entry = tmpEntry := by
      intro entry hmem
      rw [hlisted] at hmem
      rcases List.mem_append.mp hmem with hmem | hmem
      · exact .inl (List.mem_map.mp hmem)
      · split at hmem
        · cases hmem
        · exact .inr (List.mem_singleton.mp hmem)
    have hfits : ∀ v ∈ sys.vars.take MAXSDIR, v.Fits := by
      intro v hv
      have hmem : v.entry ∈ (listed table).filter fun entry => entry.Named v.name := by
        rw [hright.users v hv]
        exact List.mem_singleton_self _
      rcases hentry _ (List.mem_filter.mp hmem).1 with ⟨w, hw, heq⟩ | heq
      · have hvalue : w.value = v.value := Option.some.inj (congrArg SDir.riscos_name heq)
        have hread : w.Fits := users_fits hw
        rwa [Var.Fits, hvalue] at hread
      · have hvalue : v.value = wimp_scrap := Option.some.inj (congrArg SDir.riscos_name heq)
        rw [Var.Fits, hvalue]
        decide
    refine ⟨hfits, ?_, ?_⟩
    · by_contra hno
      have hnone : ∀ v ∈ sys.vars, ¬SameName v.name (textOf "pipe") := fun v hv hsame => hno ⟨v, hv, hsame⟩
      have hpipe := hright.defaults (textOf "pipe", wimp_scrap) List.mem_cons_self hnone
      have hmem : defEntry (textOf "pipe", wimp_scrap) ∈ listed table :=
        (List.mem_filter.mp (hpipe ▸ List.mem_singleton_self _)).1
      rcases hentry _ hmem with ⟨v, hv, heq⟩ | heq
      · have hname : v.name = textOf "pipe" := Option.some.inj (congrArg SDir.name heq)
        apply hnone v (hsub.subset hv)
        rw [hname]
        rfl
      · revert heq
        decide
    · rw [readUsers_all hfits] at hdone
      rcases hdone with htmp | hless
      · exact .inr htmp
      · rw [List.length_take] at hless
        omega
  · rintro ⟨hfits, hpipe, htmp⟩
    have hall := readUsers_all hfits
    have hdone : HasTmp (users sys.vars) ∨ (users sys.vars).length < MAXSDIR := by
      rw [hall]
      rcases htmp with hless | htmp
      · right
        rw [List.length_take]
        omega
      · exact .inl htmp
    obtain ⟨table, hrun, hsize, hlisted⟩ := hinside hdone
    refine ⟨table, hrun, hsize, ?_, ?_, ?_⟩
    · intro v hv
      rw [← hall] at hv
      rw [hlisted, List.filter_append, filter_entries (sys.unique.sublist hsub) hv]
      split
      · rfl
      case isFalse hno =>
        have hother : ¬tmpEntry.Named v.name := by
          intro hnamed
          exact hno ⟨v, hv, ((tmpEntry_named_iff v.name).mp hnamed).symm⟩
        rw [List.filter_cons, decide_eq_false hother]
        rfl
    · intro d hd hnone
      rcases List.mem_cons.mp hd with rfl | hd
      · obtain ⟨v, hv, hsame⟩ := hpipe
        exact absurd hsame (hnone v hv)
      · obtain rfl := List.mem_singleton.mp hd
        have hno : ¬HasTmp (users sys.vars) := by
          rintro ⟨v, hv, hsame⟩
          exact hnone v (hsub.subset hv) hsame
        rw [hlisted, List.filter_append, filter_entries_nil fun v hv => hnone v (hsub.subset hv), if_neg hno]
        decide
    · intro entry hmem
      rw [hlisted] at hmem
      rcases List.mem_append.mp hmem with hmem | hmem
      · obtain ⟨v, hv, rfl⟩ := List.mem_map.mp hmem
        rw [hall] at hv
        exact .inl ⟨v, hv, rfl⟩
      · split at hmem
        · cases hmem
        · exact .inr ⟨(textOf "tmp", wimp_scrap), by decide, List.mem_singleton.mp hmem⟩

/-- With no variables, `pipe` is not in the table; with 16 of them, the table is left. -/
theorem defaults_not_right :
    (¬∃ table, sdirinit ⟨[], .nil⟩ = .ok table ∧ SdirRight [] table) ∧
      ∃ sys : SysVars, sys.vars.length = MAXSDIR ∧ sdirinit sys = throw .outside := by
  constructor
  · rintro ⟨table, hrun, hright⟩
    have hpipe := hright.defaults (textOf "pipe", wimp_scrap) List.mem_cons_self nofun
    obtain rfl := Except.ok.inj hrun
    revert hpipe
    decide
  · refine ⟨⟨(List.range MAXSDIR).map fun n => ⟨[0x61 + n.toUInt8], []⟩, ?_⟩, ?_, ?_⟩
    · decide
    · decide
    · decide

end UnixLib
