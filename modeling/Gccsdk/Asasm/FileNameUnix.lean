import Gccsdk.Lib.PathName
import Gccsdk.Asasm.FileNameBuffer
import Mathlib.Data.List.Flatten

/-!
# Unix names of files

A path of Unix names a file by its components, and those that are `.` do not count (`fileOf`). Taken in Unix
style the parts of a path are its components (`components_eq`), each is written as it is with a slash behind
it, and `.` is left out: so the answer names the same file (`fileOf_nativeName`).

The style is Unix at once if the path shows it, and else the second time. The first time is for RISC OS
then, where a dot is a slash; that answer names the same file if there is neither, or just one dot between
two words.
-/

namespace Asasm.FileName

open CText CheckedRun WriteCursor PathName

/-! ### Paths -/

/-- **The file that a path names**: if it is absolute, and its components without `.` -/
def fileOf (path : Name) : Bool × List Name :=
  (path.head? = some 0x2F, (components 0x2F path).filter fun c => c ≠ [] ∧ c ≠ [0x2E])

/-- **A path of Unix**: without the signs of variables, roots and path variables, with components that go into
`dirPart` and are not those of RISC OS, and with one at least that is not `.` -/
structure UnixPath (path : Name) : Prop where
  plain : ∀ c ∈ path, c ≠ 0 ∧ c ≠ 0x3C ∧ c ≠ 0x24 ∧ c ≠ 0x3A
  short : ∀ c ∈ components 0x2F path, c.length < 256
  ordinary : ∀ c ∈ components 0x2F path, c ≠ [0x5E] ∧ c ≠ [0x40] ∧ c ≠ [0x25]
  named : (fileOf path).2 ≠ []

def NoSlashFirst (path : Name) : Prop :=
  path.head? ≠ some 0x2F → ((components 0x2F path).filter (· ≠ [0x2E])).head? ≠ some []

def styleOf (path : Name) : PathStyle :=
  if path.head? = some 0x2F then .eUnix else if beginsRiscos path then .eRISCOS else shownStyle path

theorem components_cons {c : Name} (hc : 0x2F ∉ c) (rest : Name) :
    components 0x2F (c ++ 0x2F :: rest) = c :: components 0x2F rest := by
  have hne : components 0x2F rest ≠ [] := List.splitOn_ne_nil 0x2F rest
  have hjoin : join 0x2F (c :: components 0x2F rest) = c ++ 0x2F :: rest := by
    obtain ⟨d, ds, hds⟩ := List.exists_cons_of_ne_nil hne
    calc join 0x2F (c :: components 0x2F rest)
        = c ++ [0x2F] ++ join 0x2F (components 0x2F rest) := by
          rw [hds]
          exact List.intercalate_cons_cons
      _ = c ++ 0x2F :: rest := by
          rw [join_components, List.append_assoc]
          rfl
  rw [← hjoin]
  refine components_join (fun d hd => ?_) (List.cons_ne_nil _ _)
  rcases List.mem_cons.mp hd with rfl | hd
  · exact hc
  · exact sep_not_mem 0x2F rest d hd

theorem components_single {c : Name} (hc : 0x2F ∉ c) : components 0x2F c = [c] := by
  have hjoin : join 0x2F [c] = c := List.intercalate_singleton
  conv_lhs => rw [← hjoin]
  exact components_join (fun d hd => List.mem_singleton.mp hd ▸ hc) (List.cons_ne_nil _ _)

/-! ### The parts of a path -/

/-- **The parts of a path are its components**, but for an empty one at the end. -/
theorem components_eq {turns : ℕ} {s : Name} (hturns : s.length ≤ turns) :
    ∃ tail, components 0x2F s = partsOf .eUnix turns s ++ tail ∧ (tail = [] ∨ tail = [[]]) := by
  induction turns generalizing s with
  | zero =>
    obtain rfl := List.length_eq_zero_iff.mp (Nat.le_zero.mp hturns)
    exact ⟨[[]], rfl, Or.inr rfl⟩
  | succ turns ih =>
    cases s with
    | nil => exact ⟨[[]], rfl, Or.inr rfl⟩
    | cons c s =>
      rw [partsOf]
      rw [dirLimit, if_neg (by decide)]
      cases hcut : cutAt 0x2F (c :: s) with
      | none =>
        refine ⟨[], ?_, Or.inl rfl⟩
        simp only [List.take_length, List.drop_length, List.drop_nil]
        rw [components_single (cutAt_eq_none.mp hcut), partsOf]
        rfl
      | some p =>
        obtain ⟨before, behind⟩ := p
        obtain ⟨hs, hbefore⟩ := cutAt_eq_some.mp hcut
        have hrest : behind.length ≤ turns := by
          have hlen := congrArg List.length hs
          rw [List.length_append, List.length_cons, List.length_cons] at hlen
          rw [List.length_cons] at hturns
          omega
        obtain ⟨tail, htail, hend⟩ := ih hrest
        refine ⟨tail, ?_, hend⟩
        simp only []
        rw [hs, components_cons hbefore, htail, List.take_left, List.drop_left, List.drop_one, List.tail_cons]
        rfl

variable {s path : Name}

theorem filter_parts {p : Name → Bool} (hp : p [] = false) (s : Name) :
    (parts .eUnix s).filter p = (components 0x2F s).filter p := by
  obtain ⟨tail, htail, hend⟩ := components_eq (Nat.le_refl s.length)
  rw [htail, List.filter_append]
  rcases hend with rfl | rfl
  · exact (List.append_nil _).symm
  · rw [show [[]].filter p = [] from List.filter_cons_of_neg (by rw [hp]; exact Bool.false_ne_true)]
    exact (List.append_nil _).symm

theorem parts_subset (s : Name) : parts .eUnix s ⊆ components 0x2F s := by
  obtain ⟨tail, htail, -⟩ := components_eq (Nat.le_refl s.length)
  rw [htail]
  exact List.subset_append_left _ _

/-! ### What is written for them -/

/-- A part that RISC OS does not know is written as it is, but for `.` -/
theorem dirText_ordinary {dir : Name} (hdir : dir ≠ [0x5E] ∧ dir ≠ [0x40] ∧ dir ≠ [0x25])
    (hroot : dir ≠ [0x24]) :
    dirText dir false = if dir = [0x2E] then [] else dir ++ [0x2F] := by
  have hname : dirName dir = if dir = [0x2E] then none else some dir := by
    unfold dirName
    split
    · rename_i c
      rw [if_neg fun h => hroot (congrArg (· :: []) h), if_neg fun h => hdir.1 (congrArg (· :: []) h)]
      by_cases hdot : c = 0x2E
      · rw [if_pos (Or.inl hdot), if_pos (congrArg (· :: []) hdot)]
      · rw [if_neg, if_neg fun h => hdot (List.cons.inj h).1]
        rintro (h | h | h)
        · exact hdot h
        · exact hdir.2.1 (congrArg (· :: []) h)
        · exact hdir.2.2 (congrArg (· :: []) h)
    · rename_i hnot
      exact (if_neg fun h => hnot _ h).symm
  unfold dirText
  rw [hname]
  split_ifs <;> rfl

theorem partText_unix (isLast : Bool) (dirPart : Name) :
    partText .eUnix .eA_Dot_B isLast dirPart = dirText dirPart false := by
  unfold partText
  split <;> rfl

theorem partsText_unix {ps : List Name}
    (hps : ∀ p ∈ ps, (p ≠ [0x5E] ∧ p ≠ [0x40] ∧ p ≠ [0x25]) ∧ p ≠ [0x24]) :
    partsText .eUnix .eA_Dot_B ps = (ps.filter (· ≠ [0x2E])).flatMap (· ++ [0x2F]) := by
  induction ps with
  | nil => rfl
  | cons p ps ih =>
    obtain ⟨hordinary, hroot⟩ := hps p List.mem_cons_self
    rw [partsText, partText_unix, dirText_ordinary hordinary hroot,
      ih fun q hq => hps q (List.mem_cons_of_mem p hq),
      List.filter_cons]
    by_cases hdot : p = [0x2E]
    · rw [if_pos hdot, if_neg (by simp [hdot]), List.nil_append]
    · rw [if_neg hdot, if_pos (by simp [hdot]), List.flatMap_cons]

theorem flatMap_slash {ps : List Name} (hne : ps ≠ []) :
    ps.flatMap (· ++ [0x2F]) = join 0x2F ps ++ [0x2F] := by
  induction ps with
  | nil => exact absurd rfl hne
  | cons p ps ih =>
    cases ps with
    | nil =>
      rw [join, List.intercalate_singleton]
      exact List.append_nil _
    | cons q ps =>
      rw [List.flatMap_cons, ih (List.cons_ne_nil q ps)]
      change _ = [0x2F].intercalate (p :: q :: ps) ++ [0x2F]
      rw [List.intercalate_cons_cons]
      simp only [List.append_assoc]

/-! ### The file of the answer -/

def unixOpening (path : Name) : Opening :=
  if path.head? = some 0x2F then ⟨path.drop 1, .eUnix, 0, [0x2F]⟩ else ⟨path, styleOf path, 0, []⟩

theorem pathStyle_unixOpening (path : Name) : (unixOpening path).pathStyle = styleOf path := by
  unfold unixOpening
  split
  · rename_i habs
    unfold styleOf
    rw [if_pos habs]
  · rfl

theorem pathidx_unixOpening (path : Name) : (unixOpening path).pathidx = 0 := by
  unfold unixOpening
  split <;> rfl

theorem pathVar_of_notMem {n : ℕ} (h : 0x3A ∉ s) : pathVar n s = none := by
  induction n generalizing s with
  | zero => rfl
  | succ n ih =>
    cases s with
    | nil => rfl
    | cons c s =>
      obtain ⟨hc, hs⟩ := not_or.mp (mt List.mem_cons.mpr h)
      rw [pathVar, if_neg (Ne.symm hc), ih hs]
      split <;> rfl

theorem UnixPath.opening_eq (h : UnixPath path) (environ : Environ) :
    opening environ path 0 = unixOpening path := by
  have hroot : cutAtPair 0x2E 0x24 path = none := by
    cases hcut : cutAtPair 0x2E 0x24 path with
    | none => rfl
    | some p =>
      obtain ⟨before, behind⟩ := p
      have hmem : 0x24 ∈ path := by
        rw [cutAtPair_eq hcut]
        exact List.mem_append_right _ (List.mem_cons_of_mem _ List.mem_cons_self)
      exact absurd rfl (h.plain 0x24 hmem).2.2.1
  have hvar : pathVar (pathSize - 5) path = none :=
    pathVar_of_notMem fun hmem => (h.plain 0x3A hmem).2.2.2 rfl
  unfold opening unixOpening styleOf
  rw [hroot]
  simp only [hvar]
  split_ifs <;> rfl

theorem components_unixOpening (path : Name) :
    components 0x2F path = (if path.head? = some 0x2F then [[]] else []) ++
      components 0x2F (unixOpening path).rest := by
  unfold unixOpening
  by_cases habs : path.head? = some 0x2F
  · rw [if_pos habs, if_pos habs]
    cases path with
    | nil => exact nomatch habs
    | cons c path =>
      obtain rfl := Option.some.inj habs
      exact components_cons List.not_mem_nil path
  · rw [if_neg habs, if_neg habs]
    rfl

def writtenParts (path : Name) : List Name := (parts .eUnix (unixOpening path).rest).filter (· ≠ [0x2E])

def writtenDir (path : Name) : Name :=
  (if path.head? = some 0x2F then [0x2F] else []) ++ join 0x2F (writtenParts path)

theorem filter_writtenParts (path : Name) :
    ((writtenParts path).filter fun c => c ≠ [] ∧ c ≠ [0x2E]) = (fileOf path).2 := by
  have hfilter : ((writtenParts path).filter fun c => decide (c ≠ [] ∧ c ≠ [0x2E])) =
      (parts .eUnix (unixOpening path).rest).filter fun c => decide (c ≠ [] ∧ c ≠ [0x2E]) := by
    rw [writtenParts, List.filter_filter]
    refine List.filter_congr fun c _ => ?_
    rw [← Bool.decide_and]
    exact decide_eq_decide.mpr ⟨fun hc => hc.1, fun hc => ⟨hc, hc.2⟩⟩
  rw [hfilter, filter_parts (by simp)]
  unfold fileOf
  rw [components_unixOpening path, List.filter_append]
  split
  · rfl
  · rfl

theorem UnixPath.writtenParts_ne_nil (h : UnixPath path) : writtenParts path ≠ [] := by
  intro hnil
  refine h.named ?_
  rw [← filter_writtenParts, hnil]
  rfl

theorem slash_notMem_writtenParts {c : Name} (hc : c ∈ writtenParts path) : 0x2F ∉ c :=
  sep_not_mem 0x2F _ c (parts_subset _ (List.mem_of_mem_filter hc))

theorem UnixPath.components_writtenDir (h : UnixPath path) :
    components 0x2F (writtenDir path) = (if path.head? = some 0x2F then [[]] else []) ++ writtenParts path :=
      by
  have hparts : components 0x2F (join 0x2F (writtenParts path)) = writtenParts path :=
    components_join (fun c hc => slash_notMem_writtenParts hc) h.writtenParts_ne_nil
  unfold writtenDir
  split
  · exact (components_cons List.not_mem_nil _).trans (congrArg ([] :: ·) hparts)
  · exact hparts

theorem UnixPath.names_writtenDir (h : UnixPath path) : (fileOf (writtenDir path)).2 = (fileOf path).2 := by
  rw [← filter_writtenParts path]
  unfold fileOf
  rw [h.components_writtenDir, List.filter_append]
  split <;> rfl

theorem UnixPath.fileOf_writtenDir (h : UnixPath path) (hbegin : NoSlashFirst path) :
    fileOf (writtenDir path) = fileOf path := by
  refine Prod.ext ?_ h.names_writtenDir
  change decide ((writtenDir path).head? = some 0x2F) = decide (path.head? = some 0x2F)
  refine decide_eq_decide.mpr ⟨fun hhead => ?_, fun habs => ?_⟩
  · by_contra hrel
    obtain ⟨q, qs, hqs⟩ := List.exists_cons_of_ne_nil h.writtenParts_ne_nil
    have hq : q ≠ [] := by
      rintro rfl
      refine hbegin hrel ?_
      obtain ⟨tail, htail, -⟩ := components_eq (Nat.le_refl (unixOpening path).rest.length)
      rw [components_unixOpening, if_neg hrel, List.nil_append, htail, List.filter_append]
      change (writtenParts path ++ _).head? = _
      rw [hqs]
      rfl
    have hslash := slash_notMem_writtenParts (hqs ▸ List.mem_cons_self : q ∈ writtenParts path)
    unfold writtenDir at hhead
    rw [if_neg hrel, hqs, List.nil_append] at hhead
    obtain ⟨c, q, rfl⟩ := List.exists_cons_of_ne_nil hq
    have hc : c = 0x2F := by
      cases qs with
      | nil =>
        rw [join, List.intercalate_singleton] at hhead
        exact Option.some.inj hhead
      | cons q' qs =>
        rw [join, List.intercalate_cons_cons] at hhead
        exact Option.some.inj hhead
    exact hslash (hc ▸ List.mem_cons_self)
  · unfold writtenDir
    rw [if_pos habs]
    rfl

/-! ### The answer -/

theorem UnixPath.wholeText_eq (h : UnixPath path) :
    wholeText (unixOpening path) .eUnix .eA_Dot_B = writtenDir path ++ [0x2F] := by
  have hplain : ∀ c ∈ components 0x2F path, c ≠ [0x24] := by
    rintro c hc rfl
    have hmem : 0x24 ∈ (components 0x2F path).flatMap (· ++ [0x2F]) :=
      List.mem_flatMap.mpr ⟨_, hc, List.mem_append_left _ List.mem_cons_self⟩
    rw [flatMap_slash (List.splitOn_ne_nil _ _), join_components] at hmem
    rcases List.mem_append.mp hmem with hmem | hmem
    · exact (h.plain 0x24 hmem).2.2.1 rfl
    · exact absurd hmem (by decide)
  have hsub : parts .eUnix (unixOpening path).rest ⊆ components 0x2F path := by
    intro c hc
    rw [components_unixOpening path]
    exact List.mem_append_right _ (parts_subset _ hc)
  unfold wholeText
  rw [partsText_unix fun p hp => ⟨h.ordinary p (hsub hp), hplain p (hsub hp)⟩]
  change (unixOpening path).text ++ (writtenParts path).flatMap _ = _
  rw [flatMap_slash h.writtenParts_ne_nil, ← List.append_assoc]
  unfold writtenDir unixOpening
  split <;> rfl

theorem UnixPath.length_wholeText_le (h : UnixPath path) :
    (wholeText (unixOpening path) .eUnix .eA_Dot_B).length ≤ path.length + 1 := by
  have hsub : (writtenParts path).Sublist (components 0x2F (unixOpening path).rest) := by
    obtain ⟨tail, htail, -⟩ := components_eq (Nat.le_refl (unixOpening path).rest.length)
    rw [htail]
    exact List.filter_sublist.trans (List.sublist_append_left _ _)
  have hlen := (hsub.flatMap (· ++ [0x2F])).length_le
  rw [flatMap_slash h.writtenParts_ne_nil, flatMap_slash (List.splitOn_ne_nil _ _), join_components,
    List.length_append, List.length_append] at hlen
  rw [h.wholeText_eq]
  unfold writtenDir
  rw [List.length_append, List.length_append]
  unfold unixOpening at hlen
  split at hlen
  · rename_i habs
    obtain ⟨rest, rfl⟩ := List.head?_eq_some_iff.mp habs
    rw [if_pos habs]
    change _ + 1 ≤ rest.length + 1 at hlen
    change 1 + _ + 1 ≤ rest.length + 1 + 1
    omega
  · rename_i hrel
    rw [if_neg hrel]
    change _ ≤ path.length + 1 at hlen
    rw [List.length_nil, Nat.zero_add]
    exact hlen

theorem UnixPath.nativeName_eq (h : UnixPath path) :
    nativeName (wholeText (unixOpening path) .eUnix .eA_Dot_B) = writtenDir path := by
  have hzero : 0 ∉ writtenDir path := by
    have hpath : 0 ∉ path := fun hmem => (h.plain 0 hmem).1 rfl
    have hwhole : 0 ∉ wholeText (unixOpening path) .eUnix .eA_Dot_B := by
      have hop : 0 ∉ (opening [] path 0).text ∧ 0 ∉ (opening [] path 0).rest :=
        zero_notMem_opening (fun _ hmem => absurd hmem List.not_mem_nil) hpath
      rw [h.opening_eq] at hop
      intro hmem
      rcases List.mem_append.mp hmem with hmem | hmem
      · exact hop.1 hmem
      · exact zero_notMem_partsText (fun part hpart hc => hop.2 (mem_of_mem_partsOf hc hpart)) hmem
    rw [h.wholeText_eq] at hwhole
    exact fun hmem => hwhole (List.mem_append_left _ hmem)
  have hne : writtenDir path ≠ [] := by
    intro hnil
    have hnames := h.names_writtenDir
    rw [hnil] at hnames
    exact h.named hnames.symm
  rw [h.wholeText_eq]
  unfold nativeName
  rw [List.getLast?_concat, if_pos rfl, List.dropLast_concat, if_neg]
  · exact cstr_of_notMem hzero
  · rintro (hnil | hhead)
    · exact hne hnil
    · exact hzero (List.mem_of_mem_head? hhead)

/-- **The answer names the same file.** -/
def NamesSame (run : Run (Answer × List Diag)) (path : Name) : Prop :=
  ∃ answer diags, run = .ok (answer, diags) ∧ answer.found = true ∧ fileOf (CText.cstr answer.buf) =
    fileOf path

variable {environ : Environ} {turns : ℕ} {state : Bool} {buf : List UInt8}

theorem UnixPath.expand_eq (h : UnixPath path) : expand environ turns path = .ok (path, []) := by
  have hnone : findVar path = none := by
    unfold findVar
    rw [cutAt_eq_none.mpr fun hmem => (h.plain 0x3C hmem).2.1 rfl]
    rfl
  have hturn : expandTurn environ path = .inl (path, []) := by
    unfold expandTurn
    rw [hnone]
  cases turns <;> rw [expand, hturn] <;> rfl

theorem UnixPath.length_pos (h : UnixPath path) : 1 ≤ path.length := by
  refine List.length_pos_iff.mpr ?_
  rintro rfl
  exact h.named rfl

theorem UnixPath.answer (h : UnixPath path) {pathStyle : PathStyle} {state' : Bool}
    (hbuf : path.length < buf.length)
    (hstyle : chooseStyle (unixOpening path).pathStyle state = .ok (pathStyle, state'))
    (hparts : PartsFit pathStyle (unixOpening path).rest)
    (hclosed : Closed (wholeText (unixOpening path) pathStyle .eA_Dot_B))
    (hfits : (wholeText (unixOpening path) pathStyle .eA_Dot_B).length ≤ path.length + 1)
    (hfile : fileOf (nativeName (wholeText (unixOpening path) pathStyle .eA_Dot_B)) = fileOf path) :
    NamesSame (FN_AnyToNative turns environ path 0 buf state .eA_Dot_B) path := by
  have hop := h.opening_eq environ
  have hbuf' : 2 ≤ buf.length := Nat.lt_of_le_of_lt h.length_pos hbuf
  have hidx : (opening environ path 0).pathidx = 0 := hop ▸ pathidx_unixOpening path
  rw [← hop] at hstyle hparts hclosed hfits hfile
  have hexp : expand environ turns path = .ok (path, []) := h.expand_eq
  obtain ⟨b, hend, hrun⟩ := anyToNative_found hexp hbuf' hidx hstyle hparts (Nat.le_trans hfits hbuf)
  have hlen := length_zero_cons_drop hbuf'
  obtain ⟨b', hend', -, hname⟩ := @endName_closed _ (buf.drop 1) hclosed (by
    rw [length_block_written (hlen ▸ Nat.le_trans hfits hbuf), hlen]
    exact hbuf')
  obtain rfl := Except.ok.inj (hend.symm.trans hend')
  exact ⟨_, _, hrun, rfl, (congrArg fileOf hname).trans hfile⟩

theorem UnixPath.answer_unix (h : UnixPath path) (hbegin : NoSlashFirst path) {state' : Bool}
    (hbuf : path.length < buf.length)
    (hstyle : chooseStyle (unixOpening path).pathStyle state = .ok (.eUnix, state')) :
    NamesSame (FN_AnyToNative turns environ path 0 buf state .eA_Dot_B) path := by
  have hparts : PartsFit .eUnix (unixOpening path).rest := by
    intro part hpart
    refine h.short part ?_
    rw [components_unixOpening path]
    exact List.mem_append_right _ (parts_subset _ hpart)
  refine h.answer hbuf hstyle hparts ?_ h.length_wholeText_le ?_
  · rw [h.wholeText_eq]
    refine Or.inr ?_
    rw [List.getLast?_concat]
  · rw [h.nativeName_eq, h.fileOf_writtenDir hbegin]

/-! ### The first answer in RISC OS style -/

/-- **One word, or two with a dot between them.** -/
def OneOrTwoWords (path : Name) : Prop :=
  (0x2E ∉ path ∧ 0x2F ∉ path) ∨
    ∃ before behind, path = before ++ 0x2E :: behind ∧ before ≠ [] ∧ behind ≠ [] ∧ 0x2E ∉ before ∧
      0x2E ∉ behind

theorem scanBack_eq_zero {n : ℕ} (h : ∀ i, 0 < i → i ≤ n → s[i]? ≠ some 0x2E ∧ s[i]? ≠ some 0x3A) :
    scanBack s n = 0 := by
  induction n with
  | zero => rfl
  | succ n ih =>
    obtain ⟨hdot, hcolon⟩ := h (n + 1) (Nat.succ_pos n) (Nat.le_refl _)
    rw [scanBack, if_neg (not_or.mpr ⟨hdot, hcolon⟩)]
    exact ih fun i hpos hle => h i hpos (Nat.le_succ_of_le hle)

theorem scanBack_eq {n k : ℕ} (hk : 0 < k) (hkn : k ≤ n) (hdot : s[k]? = some 0x2E)
    (h : ∀ i, k < i → i ≤ n → s[i]? ≠ some 0x2E ∧ s[i]? ≠ some 0x3A) : scanBack s n = k := by
  induction n with
  | zero => omega
  | succ n ih =>
    rw [scanBack]
    rcases Nat.eq_or_lt_of_le hkn with rfl | hlt
    · rw [if_pos (Or.inl hdot)]
    · obtain ⟨hnot, hcolon⟩ := h (n + 1) hlt (Nat.le_refl _)
      rw [if_neg (not_or.mpr ⟨hnot, hcolon⟩)]
      exact ih (Nat.le_of_lt_succ hlt) fun i hki hle => h i hki (Nat.le_succ_of_le hle)

theorem getElem?_ne_of_notMem {c : UInt8} (h : c ∉ s) (i : ℕ) : s[i]? ≠ some c :=
  fun heq => h (List.mem_of_getElem? heq)

theorem styleOf_ne_eDontKnow (h : beginsRiscos s = true ∨ hasParent s = true) : styleOf s ≠ .eDontKnow := by
  unfold styleOf shownStyle
  rcases h with h | h
  · rw [if_pos h]
    split <;> exact nofun
  · rw [if_pos h]
    split_ifs <;> exact nofun

theorem UnixPath.riscosLast_eq (h : UnixPath path) (hstyle : styleOf path = .eDontKnow)
    (hwords : OneOrTwoWords path) :
    riscosLast path = 0 := by
  have hcolon : 0x3A ∉ path := fun hmem => (h.plain 0x3A hmem).2.2.2 rfl
  unfold riscosLast
  rcases hwords with ⟨hdot, -⟩ | ⟨before, behind, rfl, hbefore, -, hdot, hdot'⟩
  · have hscan : scanBack path path.length = 0 :=
      scanBack_eq_zero fun i _ _ => ⟨getElem?_ne_of_notMem hdot i, getElem?_ne_of_notMem hcolon i⟩
    rw [hscan]
    exact if_neg fun hne => hne.1 rfl
  · have hpos : 0 < before.length := List.length_pos_iff.mpr hbefore
    have hat : (before ++ 0x2E :: behind)[before.length]? = some 0x2E := by
      rw [List.getElem?_append_right (Nat.le_refl _), Nat.sub_self]
      rfl
    have hscan : scanBack (before ++ 0x2E :: behind) (before ++ 0x2E :: behind).length = before.length := by
      refine scanBack_eq hpos ?_ hat fun i hi _ => ⟨?_, getElem?_ne_of_notMem hcolon i⟩
      · rw [List.length_append]
        exact Nat.le_add_right _ _
      · rw [List.getElem?_append_right (Nat.le_of_lt hi), List.getElem?_cons, if_neg (by omega)]
        exact getElem?_ne_of_notMem hdot' _
    have hscan' : scanBack (before ++ 0x2E :: behind) (before.length - 1) = 0 := by
      refine scanBack_eq_zero fun i _ hle => ⟨?_, getElem?_ne_of_notMem hcolon i⟩
      rw [List.getElem?_append_left (by omega)]
      exact getElem?_ne_of_notMem hdot i
    rw [hscan]
    simp only []
    rw [if_pos ⟨Nat.ne_of_gt hpos, hat⟩, hscan', if_neg]
    rintro ⟨hone, hsign⟩
    -- one of the four signs in front of the dot
    obtain ⟨c, rfl⟩ : ∃ c, before = [c] := by
      rcases Nat.lt_or_ge 1 before.length with hlong | hshort
      · rw [List.getElem?_append_left hlong] at hone
        exact absurd hone (getElem?_ne_of_notMem hdot 1)
      · exact List.length_eq_one_iff.mp (by omega)
    have hc : c = 0x24 ∨ c = 0x5E ∨ c = 0x40 ∨ c = 0x25 := by
      simpa only [List.singleton_append, List.getElem?_cons_zero, Option.some.injEq] using hsign
    refine styleOf_ne_eDontKnow ?_ hstyle
    rcases hc with rfl | rfl | rfl | rfl
    · exact absurd rfl (h.plain 0x24 List.mem_cons_self).2.2.1
    · exact Or.inr rfl
    · exact Or.inl rfl
    · exact Or.inl rfl

theorem riscosLimit_eq (h : riscosLast s = 0) : riscosLimit s = s.length := if_pos h

theorem UnixPath.parts_riscos (h : UnixPath path) (hstyle : styleOf path = .eDontKnow)
    (hwords : OneOrTwoWords path) :
    parts .eRISCOS path = [path] := by
  have hlimit : dirLimit .eRISCOS path = path.length :=
    (if_pos rfl).trans (riscosLimit_eq (h.riscosLast_eq hstyle hwords))
  have hpos := h.length_pos
  cases path with
  | nil => exact absurd hpos (Nat.not_succ_le_zero 0)
  | cons c path =>
    change partsOf .eRISCOS (path.length + 1) (c :: path) = _
    rw [partsOf, hlimit, List.take_length, List.drop_length, List.drop_nil, partsOf]

theorem map_swapDirSep_of_notMem (hdot : 0x2E ∉ s) (hslash : 0x2F ∉ s) : s.map swapDirSep = s := by
  refine (List.map_congr_left fun c hc => ?_).trans (List.map_id s)
  unfold swapDirSep
  rw [if_neg fun heq : c = 0x2E => hdot (heq ▸ hc), if_neg fun heq : c = 0x2F => hslash (heq ▸ hc)]
  rfl

theorem UnixPath.dirName_eq (h : UnixPath path) (hdot : path ≠ [0x2E]) (hslash : 0x2F ∉ path) :
    dirName path = some path := by
  obtain ⟨hup, hat, hlib⟩ := h.ordinary path (components_single hslash ▸ List.mem_cons_self)
  unfold dirName
  split
  · rename_i c
    have hroot : c ≠ 0x24 := (h.plain c List.mem_cons_self).2.2.1
    rw [if_neg hroot, if_neg fun heq => hup (congrArg (· :: []) heq), if_neg]
    rintro (heq | heq | heq)
    · exact hdot (congrArg (· :: []) heq)
    · exact hat (congrArg (· :: []) heq)
    · exact hlib (congrArg (· :: []) heq)
  · rfl

theorem UnixPath.partText_riscos (h : UnixPath path) (hwords : OneOrTwoWords path) :
    partText .eRISCOS .eA_Dot_B true path = path ++ [0x2F] := by
  unfold partText
  rw [if_pos rfl]
  rcases hwords with ⟨hdot, hslash⟩ | ⟨before, behind, rfl, hbefore, hbehind, hdot, hdot'⟩
  · have hsplit : splitDot path = none := by
      unfold splitDot
      rw [cutAt_eq_none.mpr hdot]
    rw [hsplit]
    unfold dirText
    rw [h.dirName_eq (fun heq => hdot (heq ▸ List.mem_cons_self)) hslash]
    simp only []
    rw [map_swapDirSep_of_notMem hdot hslash, ite_self]
  · have hsplit : splitDot (before ++ 0x2E :: behind) = some (before, behind) := by
      unfold splitDot
      rw [cutAt_eq_some.mpr ⟨rfl, hdot⟩]
      exact if_pos ⟨hbefore, hbehind, hdot'⟩
    have hname : dirName (before ++ 0x2E :: behind) = some (before ++ 0x2E :: behind) := by
      obtain ⟨a, before, rfl⟩ := List.exists_cons_of_ne_nil hbefore
      obtain ⟨b, behind, rfl⟩ := List.exists_cons_of_ne_nil hbehind
      cases before <;> rfl
    rw [hsplit]
    unfold dirText
    rw [hname]
    rfl

theorem UnixPath.wholeText_riscos (h : UnixPath path) (hstyle : styleOf path = .eDontKnow)
    (hwords : OneOrTwoWords path) : wholeText (unixOpening path) .eRISCOS .eA_Dot_B = path ++ [0x2F] := by
  have hrel : path.head? ≠ some 0x2F := by
    intro habs
    unfold styleOf at hstyle
    rw [if_pos habs] at hstyle
    exact nomatch hstyle
  unfold wholeText unixOpening
  rw [if_neg hrel]
  change [] ++ partsText .eRISCOS .eA_Dot_B (parts .eRISCOS path) = _
  rw [h.parts_riscos hstyle hwords, List.nil_append, partsText, partsText, List.append_nil]
  exact h.partText_riscos hwords

theorem UnixPath.answer_riscos (h : UnixPath path) (hstyle : styleOf path = .eDontKnow)
    (hwords : OneOrTwoWords path)
    (hbuf : path.length < buf.length) (hlen : path.length < 256) :
    NamesSame (FN_AnyToNative turns environ path 0 buf false .eA_Dot_B) path := by
  have hrel : path.head? ≠ some 0x2F := by
    intro habs
    unfold styleOf at hstyle
    rw [if_pos habs] at hstyle
    exact nomatch hstyle
  have hopen : unixOpening path = ⟨path, .eDontKnow, 0, []⟩ := by
    unfold unixOpening
    rw [if_neg hrel, hstyle]
  have hwhole := h.wholeText_riscos hstyle hwords
  have hclosed : Closed (path ++ [0x2F]) := Or.inr List.getLast?_concat
  refine @UnixPath.answer _ _ _ _ _ h .eRISCOS true hbuf ?_ ?_ ?_ ?_ ?_
  · rw [hopen]
    rfl
  · rw [hopen]
    intro part hpart
    rw [h.parts_riscos hstyle hwords] at hpart
    exact List.mem_singleton.mp hpart ▸ hlen
  · exact hwhole ▸ hclosed
  · rw [hwhole, List.length_append]
    rfl
  · rw [hwhole]
    unfold nativeName
    rw [List.getLast?_concat, if_pos rfl, List.dropLast_concat, if_neg,
      cstr_of_notMem fun hmem => (h.plain 0 hmem).1 rfl]
    rintro (rfl | hhead)
    · exact absurd h.length_pos (Nat.not_succ_le_zero 0)
    · exact (h.plain 0 (List.mem_of_mem_head? hhead)).1 rfl

/-! ### The file that is named -/

theorem UnixPath.asks_again (h : UnixPath path) (hstyle : styleOf path = .eDontKnow) (hbuf : 2 ≤ buf.length) :
    ∃ answer diags, FN_AnyToNative turns environ path 0 buf false .eA_Dot_B = .ok (answer, diags) ∧
      answer.state = true := by
  have hexp : expand environ turns path = .ok (path, []) := h.expand_eq
  have hout := anyToNative_outcome hexp hbuf 0 false .eA_Dot_B
  have hidx : (opening environ path 0).pathidx = 0 := h.opening_eq environ ▸ pathidx_unixOpening path
  have hchoose : chooseStyle (opening environ path 0).pathStyle false = .ok (.eRISCOS, true) := by
    rw [h.opening_eq, pathStyle_unixOpening, hstyle]
    rfl
  generalize FN_AnyToNative turns environ path 0 buf false .eA_Dot_B = run at hout ⊢
  cases hout with
  | notFound b state' hstate _ => exact ⟨_, _, rfl, hstate hidx _ _ hchoose⟩
  | asserts h => exact nomatch hchoose.symm.trans h
  | found pathStyle state' b _ hstyle' _ _ _ =>
    obtain ⟨rfl, rfl⟩ := Prod.mk.inj (Except.ok.inj (hchoose.symm.trans hstyle'))
    exact ⟨_, _, rfl, rfl⟩

/-- **The answer in Unix style names the same file**: the first one, if the path shows its style, and else the
second one; and the first one too if there is one word, or two with a dot between them. -/
theorem anyToNative_sameFile (h : UnixPath path) (hbegin : NoSlashFirst path) (environ : Environ) (turns : ℕ)
    (hbuf : path.length < buf.length) :
    (styleOf path = .eUnix → NamesSame (FN_AnyToNative turns environ path 0 buf false .eA_Dot_B) path) ∧
      (styleOf path = .eDontKnow →
        (∃ answer diags, FN_AnyToNative turns environ path 0 buf false .eA_Dot_B = .ok (answer, diags) ∧
          answer.state = true) ∧
        NamesSame (FN_AnyToNative turns environ path 0 buf true .eA_Dot_B) path ∧
        (path.length < 256 → OneOrTwoWords path →
          NamesSame (FN_AnyToNative turns environ path 0 buf false .eA_Dot_B) path)) := by
  have hopen := pathStyle_unixOpening path
  refine ⟨fun hunix => ?_, fun hdont => ⟨?_, ?_, fun hlen hwords => ?_⟩⟩
  · refine @UnixPath.answer_unix _ _ _ _ _ h hbegin false hbuf ?_
    rw [hopen, hunix]
    rfl
  · exact h.asks_again hdont (Nat.lt_of_le_of_lt h.length_pos hbuf)
  · refine @UnixPath.answer_unix _ _ _ _ _ h hbegin false hbuf ?_
    rw [hopen, hdont]
    rfl
  · exact h.answer_riscos hdont hwords hbuf hlen

theorem unixPath_two : UnixPath [0x78, 0x2F, 0x79] where
  plain := by simp
  short := by
    rw [show components (0x2F : UInt8) [0x78, 0x2F, 0x79] = [[0x78], [0x79]] from rfl]
    simp
  ordinary := by
    rw [show components (0x2F : UInt8) [0x78, 0x2F, 0x79] = [[0x78], [0x79]] from rfl]
    simp
  named := by decide

/-- `x/y`, in a buffer of eight bytes. -/
theorem anyToNative_sameFile_two :
    (styleOf [0x78, 0x2F, 0x79] = .eUnix →
      NamesSame (FN_AnyToNative 0 [] [0x78, 0x2F, 0x79] 0 (List.replicate 8 0) false .eA_Dot_B)
        [0x78, 0x2F, 0x79]) ∧
      (styleOf [0x78, 0x2F, 0x79] = .eDontKnow →
        (∃ answer diags, FN_AnyToNative 0 [] [0x78, 0x2F, 0x79] 0 (List.replicate 8 0) false .eA_Dot_B =
          .ok (answer, diags) ∧ answer.state = true) ∧
        NamesSame (FN_AnyToNative 0 [] [0x78, 0x2F, 0x79] 0 (List.replicate 8 0) true .eA_Dot_B)
          [0x78, 0x2F, 0x79] ∧
        ([0x78, 0x2F, 0x79].length < 256 → OneOrTwoWords [0x78, 0x2F, 0x79] →
          NamesSame (FN_AnyToNative 0 [] [0x78, 0x2F, 0x79] 0 (List.replicate 8 0) false .eA_Dot_B)
            [0x78, 0x2F, 0x79])) :=
  anyToNative_sameFile unixPath_two (fun _ => by decide) [] 0 (by decide)

/-- **The first answer to `x/y` is `x.y`.** -/
theorem not_anyToNative_sameFile : ¬∀ path, UnixPath path → ∀ environ turns buf, path.length < buf.length →
    NamesSame (FN_AnyToNative turns environ path 0 buf false .eA_Dot_B) path := by
  intro h
  obtain ⟨answer, diags, hrun, -, hsame⟩ := h _ unixPath_two [] 0 (List.replicate 8 0) (by decide)
  have hfirst : FN_AnyToNative 0 [] [0x78, 0x2F, 0x79] 0 (List.replicate 8 0) false .eA_Dot_B =
      .ok (⟨[0x78, 0x2E, 0x79, 0, 0, 0, 0, 0], true, true⟩, []) := rfl
  obtain ⟨rfl, -⟩ := Prod.mk.inj (Except.ok.inj (hrun.symm.trans hfirst))
  exact absurd (congrArg Prod.snd hsame) (by decide)

end Asasm.FileName
