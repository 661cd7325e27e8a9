import Gccsdk.Asasm.SectionNames

/-!
# Local and global symbols of an ELF symbol table

ELF wants the symbols of local binding before all others, and the index of the first other symbol in
the section header's `sh_info`. `Symbol_CreateSymbolOut` sorts and counts by the kind of a symbol;
`Symbol_BuildSymbolDataForELF` decides on the binding again, from the kind, the `WEAK` attribute and
the two effects of a bare `EXPORT`. `elfSymbolEntry_bind` says when the two agree on a symbol:
exactly when a symbol counted as local `StaysLocal`. `outputELF_shInfoSplits_iff` lifts this to files.
-/

namespace Asasm

/-- **A symbol no export makes non-local.** Area and mapping symbols always are local; any other one
is made weak by `WEAK` or `EXPORT [WEAK]`, and global by a bare `EXPORT`. -/
def Symbol.StaysLocal (o : SymbolOptions) (s : Symbol) : Prop :=
  s.isArea = true ∨ s.isMapping = true ∨
    (isSet s.type symbolWeak = false ∧ o.allExportSymbolsAreWeak = false
      ∧ o.exportAllSymbols = false)

/-! ### One entry -/

private theorem bind_elf32StInfo {bind type : BitVec 8} (hbind : bind ∈ [stbLocal, stbGlobal, stbWeak])
    (htype : type ∈ [sttNoType, sttObject, sttSection]) : elf32StInfo bind type >>> 4 = bind := by
  simp only [List.mem_cons, List.not_mem_nil, or_false] at hbind htype
  rcases hbind with rfl | rfl | rfl <;> rcases htype with rfl | rfl | rfl <;> decide

variable {o : SymbolOptions} {s : Symbol}

private theorem elfSymbolKind_eq_local :
    elfSymbolKind o s = symbolLocal
      ↔ s.kind = symbolLocal ∧ (s.isMapping = true ∨ o.exportAllSymbols = false) := by
  have hkind : symbolGlobal ≠ symbolLocal := by decide
  unfold elfSymbolKind
  split
  next hexp =>
    simp only [Bool.and_eq_true, Bool.not_eq_true'] at hexp
    refine iff_of_false hkind fun ⟨_, h⟩ => ?_
    simp [hexp] at h
  next hexp =>
    have : s.isMapping = true ∨ o.exportAllSymbols = false := by
      cases hmap : s.isMapping <;> simp_all
    simp [this]

private theorem elfSymbolBind_spec {bind : BitVec 8}
    (hs : s.isArea = false) (h : elfSymbolBind o s = some bind) :
    bind ∈ [stbLocal, stbGlobal, stbWeak]
      ∧ (bind = stbLocal ↔ s.kind = symbolLocal ∧ s.StaysLocal o) := by
  have hwl : stbWeak ≠ stbLocal := by decide
  have hgl : stbGlobal ≠ stbLocal := by decide
  unfold elfSymbolBind at h
  unfold Symbol.StaysLocal
  simp only [hs, Bool.false_eq_true, false_or]
  split at h
  next hweak =>
    cases h
    refine ⟨by simp, iff_of_false hwl fun ⟨_, hstays⟩ => ?_⟩
    rcases hstays with hmap | ⟨hw, ha, -⟩
    · simp [hmap] at hweak
    · simp [hw, ha] at hweak
  next hweak =>
    have hiff : elfSymbolKind o s = symbolLocal ↔ s.kind = symbolLocal ∧
        (s.isMapping = true ∨ isSet s.type symbolWeak = false
          ∧ o.allExportSymbolsAreWeak = false ∧ o.exportAllSymbols = false) := by
      rw [elfSymbolKind_eq_local]
      cases hmap : s.isMapping
      · simp only [hmap, Bool.not_false, Bool.and_true, Bool.not_eq_true, Bool.or_eq_false_iff]
          at hweak
        simp [hweak]
      · simp
    split at h
    next hlocal =>
      cases h
      exact ⟨by simp, iff_of_true rfl (hiff.mp hlocal)⟩
    next hlocal =>
      split at h
      · cases h
        exact ⟨by simp, iff_of_false hgl fun hl => hlocal (hiff.mpr hl)⟩
      · cases h

variable {heap : SymHeap}

/-- **One entry.** A symbol's entry has local binding exactly when the symbol is counted as local and
stays so. -/
theorem elfSymbolEntry_bind {e : Elf32Sym}
    {diags : List Diag} (h : elfSymbolEntry o heap s = some (some e, diags)) :
    e.bind = stbLocal ↔ s.isLocalPart = true ∧ s.StaysLocal o := by
  unfold elfSymbolEntry at h
  unfold Symbol.isLocalPart
  by_cases hs : s.isArea = true
  · simp only [hs, if_true, elfAreaEntry, Option.bind_eq_bind, Option.bind_eq_some_iff,
      Option.pure_def, Option.some.injEq, Prod.mk.injEq] at h
    obtain ⟨_, ⟨-, -, -, -, -, -, rfl⟩, rfl, -⟩ := h
    exact iff_of_true (bind_elf32StInfo (by decide) (by decide)) ⟨by simp [hs], Or.inl hs⟩
  · simp only [hs, Bool.false_eq_true, if_false, Option.bind_eq_bind, Option.bind_eq_some_iff] at h
    obtain ⟨place, -, h⟩ := h
    cases place with
    | inl diag => simp at h
    | inr place =>
      simp only [elfPlacedEntry, Option.bind_eq_bind, Option.bind_eq_some_iff, Option.pure_def,
        Option.some.injEq, Prod.mk.injEq] at h
      obtain ⟨_, ⟨bind, hbind, -, -, rfl⟩, rfl, -⟩ := h
      obtain ⟨hmem, hiff⟩ := elfSymbolBind_spec (by simpa using hs) hbind
      have hinfo : elf32StInfo bind
          (if isSet s.type symbolCommon then sttObject else sttNoType) >>> 4 = bind :=
        bind_elf32StInfo hmem (by split <;> decide)
      change elf32StInfo bind _ >>> 4 = stbLocal ↔ _
      rw [hinfo, hiff]
      simp [hs]

theorem definedSymbolValue_error {diag : Diag}
    (h : definedSymbolValue heap s = some (.inl diag)) : diag.tag = .error := by
  unfold definedSymbolValue at h
  split at h
  · simp [Option.bind_eq_some_iff] at h
  · dsimp only at h
    split at h
    · simp [Option.bind_eq_some_iff] at h
    · split at h
      · cases h
        rfl
      · cases h
  · cases h

private theorem elfSymbolPlace_error {diag : Diag}
    (h : elfSymbolPlace heap s = some (.inl diag)) : diag.tag = .error := by
  unfold elfSymbolPlace at h
  split at h
  · simp only [Option.bind_eq_bind, Option.bind_eq_some_iff] at h
    obtain ⟨value, hvalue, h⟩ := h
    cases value with
    | inl d =>
      cases h
      exact definedSymbolValue_error hvalue
    | inr value => simp [Option.bind_eq_some_iff] at h
  · split at h <;> cases h

theorem elfSymbolEntry_none {diags : List Diag}
    (h : elfSymbolEntry o heap s = some (none, diags)) : ∃ d ∈ diags, d.tag = .error := by
  unfold elfSymbolEntry at h
  split at h
  · simp [Option.bind_eq_some_iff] at h
  · simp only [Option.bind_eq_bind, Option.bind_eq_some_iff] at h
    obtain ⟨place, hplace, h⟩ := h
    cases place with
    | inl diag =>
      cases h
      exact ⟨diag, List.mem_singleton_self _, elfSymbolPlace_error hplace⟩
    | inr place => simp [Option.bind_eq_some_iff] at h

/-! ### The table -/

/-- **The locals of a table stay local**: no export makes a symbol global or weak that is written as
one of kind `LOCAL`. -/
def SymbolTable.LocalsStay (o : SymbolOptions) (t : SymbolTable) : Prop :=
  ∀ id ∈ t.allSymbols, needToOutputSymbol o (t.sym id) = true → (t.sym id).isLocalPart = true →
    (t.sym id).StaysLocal o

/-- **The number of locals splits the table**: the entries below it are of local binding, those from
it on are not. -/
def SymbolOut.SplitsBindings (out : SymbolOut) : Prop :=
  ∃ entries, out.symData = .elf entries ∧ ∀ (i : Nat) (e : Option Elf32Sym), entries[i]? = some e →
    ∃ sym, e = some sym ∧ (i < out.numLocalSymbols ↔ sym.bind = stbLocal)

theorem SymbolTable.mem_listed_markUsed (o : SymbolOptions) (t : SymbolTable) (isLocal : Bool)
    (id : SymId) : id ∈ (t.markUsed o).listed isLocal ↔
      id ∈ t.allSymbols ∧ needToOutputSymbol o (t.sym id) = true
        ∧ (t.sym id).isLocalPart = isLocal := by
  have hall : (t.markUsed o).allSymbols = t.allSymbols := by
    rw [SymbolTable.allSymbols, (markUsed_outputOnly o t).bucket, SymbolTable.allSymbols]
  rw [SymbolTable.listed, List.mem_filter, hall]
  refine and_congr_right fun hid => ?_
  rw [markUsed_sym o t hid, Bool.and_eq_true, decide_eq_true_eq, beq_iff_eq]
  have hused : 0 ≤ (Asasm.markUsed o (t.sym id)).used
      ↔ needToOutputSymbol o (t.sym id) = true := by
    unfold Asasm.markUsed
    cases needToOutputSymbol o (t.sym id) <;> simp
  rw [hused]
  exact Iff.rfl

theorem mem_sortSymbols {optionAof : Bool} {ids sorted : List SymId}
    (h : sortSymbols optionAof heap ids = some sorted) (id : SymId) : id ∈ sorted ↔ id ∈ ids := by
  simp only [sortSymbols, Option.bind_eq_bind, Option.bind_eq_some_iff, Option.pure_def,
    Option.some.injEq] at h
  obtain ⟨_, -, rfl⟩ := h
  exact (List.perm_insertionSort _ _).mem_iff

theorem length_sortSymbols {optionAof : Bool} {ids sorted : List SymId}
    (h : sortSymbols optionAof heap ids = some sorted) : sorted.length = ids.length := by
  simp only [sortSymbols, Option.bind_eq_bind, Option.bind_eq_some_iff, Option.pure_def,
    Option.some.injEq] at h
  obtain ⟨_, -, rfl⟩ := h
  exact List.length_insertionSort _ _

/-- **The entries of the table**, when no symbol is skipped: one for each symbol, with the binding
`elfSymbolEntry_bind` gives. -/
theorem elfSymbolEntries_bind {ids : List SymId} {rs : List (Option Elf32Sym × List Diag)}
    (h : ids.mapM (fun id => elfSymbolEntry o heap (heap.sym id)) = some rs)
    (hdiags : ∀ d ∈ rs.flatMap Prod.snd, d.tag ≠ .error) :
    rs.length = ids.length ∧ ∀ (i : Nat) (id : SymId), ids[i]? = some id →
      ∃ e, (rs.map Prod.fst)[i]? = some (some e)
        ∧ (e.bind = stbLocal ↔ (heap.sym id).isLocalPart = true ∧ (heap.sym id).StaysLocal o) := by
  have hall := forall₂_of_mapM_eq_some h
  refine ⟨hall.length_eq.symm, fun i id hid => ?_⟩
  obtain ⟨hi, rfl⟩ := List.getElem?_eq_some_iff.mp hid
  have hi' : i < rs.length := hall.length_eq ▸ hi
  have hentry := (List.forall₂_iff_get.mp hall).2 i hi hi'
  simp only [List.get_eq_getElem] at hentry
  rw [List.getElem?_map, List.getElem?_eq_getElem hi']
  cases hr : rs[i] with
  | mk e diags =>
    rw [hr] at hentry
    cases e with
    | some e => exact ⟨e, rfl, elfSymbolEntry_bind hentry⟩
    | none =>
      obtain ⟨d, hd, htag⟩ := elfSymbolEntry_none hentry
      refine absurd htag (hdiags d (List.mem_flatMap.mpr ⟨rs[i], List.getElem_mem hi', ?_⟩))
      rw [hr]
      exact hd

/-- **The symbol table.** `Symbol_CreateSymbolOut` splits the bindings exactly when the locals of the
table stay local. -/
theorem symbolCreateSymbolOut_splitsBindings_iff {t t' : SymbolTable}
    {out : SymbolOut} {diags : List Diag} (ho : o.optionAof = false)
    (h : symbolCreateSymbolOut o t = some (out, t', diags))
    (hdiags : ∀ d ∈ diags, d.tag ≠ .error) : out.SplitsBindings ↔ t.LocalsStay o := by
  have htable := symbolCreateSymbolOut_outputOnly h
  obtain ⟨_, locals, globals, _, _, symDiags, -, hlocals, hglobals, hnum, -, -, hbuild, rfl⟩ :=
    symbolCreateSymbolOut_inv h
  simp only [ho, orderSymbols, undefinedSymbols, Bool.false_eq_true, if_false] at hlocals hglobals hnum hbuild
  simp only [symbolBuildSymbolData, ho, Bool.false_eq_true, if_false, Option.bind_eq_bind,
    Option.bind_eq_some_iff, Option.pure_def, Option.some.injEq, Prod.mk.injEq] at hbuild
  obtain ⟨rs, hrs, hdata, rfl⟩ := hbuild
  rw [← length_sortSymbols hlocals] at hnum
  obtain ⟨hlen, hentries⟩ := elfSymbolEntries_bind hrs fun d hd =>
    hdiags d (List.mem_append_right _ hd)
  -- which symbols are counted as local, and stay so, is not changed by the output passes
  have hpart : ∀ id, (t'.heap.sym id).isLocalPart = (t.sym id).isLocalPart
      ∧ ((t'.heap.sym id).StaysLocal o ↔ (t.sym id).StaysLocal o) := by
    intro id
    obtain ⟨_, _, heq⟩ := htable.sym id
    rw [← SymbolTable.sym, heq]
    exact ⟨rfl, Iff.rfl⟩
  have hlocal : ∀ id ∈ locals, id ∈ t.allSymbols ∧ needToOutputSymbol o (t.sym id) = true
      ∧ (t.sym id).isLocalPart = true := fun id hid =>
    (t.mem_listed_markUsed o true id).mp ((mem_sortSymbols hlocals id).mp hid)
  have hglobal : ∀ id ∈ globals, (t.sym id).isLocalPart = false := fun id hid =>
    ((t.mem_listed_markUsed o false id).mp ((mem_sortSymbols hglobals id).mp hid)).2.2
  constructor
  · rintro ⟨entries, hentriesEq, hsplit⟩ id hid hneed hlp
    have hmem : id ∈ locals :=
      (mem_sortSymbols hlocals id).mpr ((t.mem_listed_markUsed o true id).mpr ⟨hid, hneed, hlp⟩)
    obtain ⟨i, hi, rfl⟩ := List.getElem_of_mem hmem
    obtain ⟨e, he, hbind⟩ := hentries i locals[i]
      (by rw [List.getElem?_append_left hi, List.getElem?_eq_getElem hi])
    rw [← hdata] at hentriesEq
    cases hentriesEq
    obtain ⟨_, hsym, hiff⟩ := hsplit (i + 1) (some e) (by rw [List.getElem?_cons_succ, he])
    cases hsym
    have hstays := (hbind.mp (hiff.mp (by omega))).2
    exact (hpart _).2.mp hstays
  · intro hstay
    refine ⟨_, hdata.symm, fun i e he => ?_⟩
    cases i with
    | zero =>
      cases he
      exact ⟨{}, rfl, iff_of_true (by omega) (by decide)⟩
    | succ i =>
      rw [List.getElem?_cons_succ] at he
      have hi : i < (locals ++ globals).length := by
        have := (List.getElem?_eq_some_iff.mp he).1
        rwa [List.length_map, hlen] at this
      obtain ⟨sym, hsym, hbind⟩ := hentries i _ (List.getElem?_eq_getElem hi)
      rw [he] at hsym
      cases hsym
      refine ⟨sym, rfl, ?_⟩
      rw [hbind, hnum]
      by_cases hil : i < locals.length
      · have hmem := List.getElem_mem hil
        rw [List.getElem_append_left hil, (hpart _).1, (hpart _).2]
        obtain ⟨hall, hneed, hlp⟩ := hlocal _ hmem
        exact iff_of_true (by omega) ⟨hlp, hstay _ hall hneed hlp⟩
      · have hmem : (locals ++ globals)[i] ∈ globals := by
          rw [List.getElem_append_right (by omega)]
          exact List.getElem_mem _
        rw [(hpart _).1, hglobal _ hmem]
        exact iff_of_false (by omega) (fun h => Bool.false_ne_true h.1)

/-! ### The file -/

/-- **`sh_info` splits the symbol table of a file**: section 1 is the symbol table, and the number of
locals its header reports splits its entries by their binding. -/
def ElfFile.ShInfoSplits (file : ElfFile) : Prop :=
  ∃ scn, file.scns[1]? = some scn ∧ scn.shType = shtSymTab
    ∧ scn.dBuf = .symbols file.symOut.symData
    ∧ scn.shInfo = BitVec.ofNat 32 file.symOut.numLocalSymbols ∧ file.symOut.SplitsBindings

theorem numberAreas_allSymbols (t : SymbolTable) (n : Nat) (ids : List SymId) :
    (numberAreas t n ids).allSymbols = t.allSymbols := by
  induction ids generalizing t n with
  | nil => rfl
  | cons id ids ih =>
    rw [numberAreas, ih, numberArea]
    split <;> rfl

/-- The first pass numbers areas and adds areas: nothing that matters for `LocalsStay`. -/
theorem Named.localsStay_iff {job : ElfJob} {st : ElfState} (h : Named job st) :
    st.table.LocalsStay job.options ↔ job.table.LocalsStay job.options := by
  obtain ⟨st₀, htable, -, hadded⟩ := h.areasAdded
  have hall : st₀.table.allSymbols = job.table.allSymbols := by
    rw [htable, numberAreas_allSymbols]
  have hsym : ∀ id ∈ job.table.allSymbols,
      ∃ number, st.table.sym id = (job.table.sym id).setAreaNumber number := by
    intro id hid
    have hlt : id < st₀.table.heap.size := by
      rw [htable, numberAreas_size]
      exact job.symbols_lt id hid
    rw [hadded.old id hlt, htable]
    exact numberAreas_sym _ _ _ _
  constructor
  · intro hstay id hid hneed hlp
    obtain ⟨_, heq⟩ := hsym id hid
    have hid₀ : id ∈ st₀.table.allSymbols := by rwa [hall]
    have := hstay id (hadded.mem_of_mem id hid₀)
    rw [heq] at this
    exact this hneed hlp
  · intro hstay id hid
    rcases hadded.mem id hid with hid | ⟨hge, hlt⟩
    · rw [hall] at hid
      obtain ⟨_, heq⟩ := hsym id hid
      rw [heq]
      exact hstay id hid
    · exact fun _ _ => Or.inl (hadded.new id hge hlt).1

/-- **Local and global symbols of an ELF file.** In a file written without errors, `sh_info` splits
the symbol table exactly when no export makes a local symbol of the table global or weak. -/
theorem outputELF_shInfoSplits_iff {job : ElfJob} {file : ElfFile} (h : outputELF job = .ok file)
    (hdiags : ∀ d ∈ file.diags, d.tag ≠ .error) :
    file.ShInfoSplits ↔ job.table.LocalsStay job.options := by
  rw [outputELF, except_bind_eq_ok] at h
  obtain ⟨st, hname, h⟩ := h
  have hrun := nameScns_runAdds job
  rw [hname] at hrun
  cases hrun with
  | fits _ hfit hgood hcontents hnamed =>
    obtain ⟨table, diags, st', hsym, hwrite, hscns, -, hfile⟩ := outputNamedScns_inv h
    have hready : ReadyToWrite job st { st with table, diags := st.diags ++ diags } :=
      ⟨hnamed, symbolCreateSymbolOut_outputOnly hsym, rfl, rfl, rfl, hgood,
        hcontents.trans job.namePieces_flatten⟩
    obtain ⟨scn, hscn⟩ := writeScns_symTab hready hwrite
    have hst' : st'.diags = st.diags ++ diags := writeScns_diags hwrite
    rw [← hnamed.localsStay_iff, ← symbolCreateSymbolOut_splitsBindings_iff job.not_aof hsym
      fun d hd => hdiags d (by rw [hfile, hst']; exact List.mem_append_right _ hd)]
    constructor
    · rintro ⟨_, -, -, -, -, hsplit⟩
      exact hsplit
    · intro hsplit
      exact ⟨_, by rw [hscns, hscn], rfl, rfl, rfl, hsplit⟩

def labelJob (exportAll : Bool) : ElfJob where
  options := { optionAof := false, keepAllSymbols := true, exportAllSymbols := exportAll }
  optionDebug := false
  table := ⟨.ofList [{ str := cstr "code", type := symbolArea, value := .int 0 .pureInt },
      { str := cstr "here", type := symbolLocal, value := .symbol 0 1 8 }],
    fun b => if b = 5 then [0, 1] else []⟩
  areas := [0]
  areaEntrySymbol := none
  areaEntryOffset := 0
  dwarf := []
  not_aof := rfl
  areas_nodup := nodup_oneArea
  areas_lt := by decide
  symbols_lt := by decide +kernel
  areas_notDWARF := by decide

theorem labelJob_shInfoSplits :
    ∃ file, outputELF (labelJob false) = .ok file ∧ file.ShInfoSplits := by
  have hrun : (outputELF (labelJob false)).toOption.map ElfFile.diags = some [] := by
    decide +kernel
  cases h : outputELF (labelJob false) with
  | error e =>
    rw [h] at hrun
    cases hrun
  | ok file =>
    rw [h] at hrun
    have hdiags : file.diags = [] := Option.some.inj hrun
    refine ⟨file, rfl, (outputELF_shInfoSplits_iff h ?_).mpr ?_⟩
    · rw [hdiags]
      exact fun _ hd => absurd hd List.not_mem_nil
    · unfold SymbolTable.LocalsStay Symbol.StaysLocal
      decide +kernel

/-- Exported by a bare `EXPORT`, the label is global but counted as a local symbol. -/
theorem labelJob_not_shInfoSplits :
    ∃ file, outputELF (labelJob true) = .ok file ∧ file.diags = [] ∧ ¬ file.ShInfoSplits := by
  have hrun : (outputELF (labelJob true)).toOption.map (fun file =>
      (file.diags, file.symOut.numLocalSymbols, file.symOut.symData))
      = some ([], 3, .elf [some {}, some { info := 0x03, shndx := 3 },
        some { name := 1, value := 8, info := 0x10, shndx := 3 }]) := by
    decide +kernel
  cases h : outputELF (labelJob true) with
  | error e =>
    rw [h] at hrun
    cases hrun
  | ok file =>
    rw [h] at hrun
    simp only [Except.toOption, Option.map_some, Option.some.injEq, Prod.mk.injEq] at hrun
    obtain ⟨hdiags, hnum, hdata⟩ := hrun
    refine ⟨file, rfl, hdiags, ?_⟩
    rintro ⟨_, -, -, -, -, entries, hentries, hsplit⟩
    rw [hdata] at hentries
    cases hentries
    obtain ⟨sym, hsym, hiff⟩ := hsplit 2 _ rfl
    cases hsym
    rw [hnum] at hiff
    exact absurd (hiff.mp (by decide)) (by decide)

end Asasm
