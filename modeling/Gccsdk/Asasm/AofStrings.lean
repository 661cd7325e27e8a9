import Gccsdk.Asasm.AofChunks
import Gccsdk.Asasm.SymbolStrings

/-!
# The symbols of an AOF file

What `Symbol_CreateSymbolOut` has written into the symbols of a run (`AofRun.Order`): their order in the file,
the offsets of their names, which `assignOffsets_strings` finds in the string table, and the numbers that
relocations refer to them by.
-/

namespace Asasm

open StringTable (IsNameAt)

/-! ### The symbols of a file -/

private theorem markUsed_sym_used (o : SymbolOptions) (t : SymbolTable) (id : SymId) :
    ∃ used, (t.markUsed o).sym id = { t.sym id with used } := by
  unfold SymbolTable.markUsed
  apply List.foldlRecOn (motive := fun t' : SymbolTable => ∃ used, t'.sym id = { t.sym id with used })
  · exact ⟨_, rfl⟩
  · rintro t' ⟨used, h⟩ j _
    by_cases hj : id = j
    · subst hj
      rw [SymbolTable.modify_sym_self, h]
      exact ⟨_, rfl⟩
    · rw [SymbolTable.modify_sym_of_ne _ _ _ hj]
      exact ⟨used, h⟩

namespace AofRun

variable {job : AofJob} {file : AofFile}

/-- **The order of the symbols in the file**, and what `Symbol_CreateSymbolOut` has written into them. -/
structure Order (run : AofRun job file) (ids : List SymId) : Prop where
  nodup : ids.Nodup
  mem_iff : ∀ id, id ∈ ids ↔
    id ∈ job.table.allSymbols ∧ needToOutputSymbol job.options (job.table.sym id) = true
  length : ids.length = run.symOut.numAllSymbols
  name : ∀ id ∈ ids, 4 ≤ (run.table.sym id).offset.toNat ∧
    IsNameAt run.symOut.strData (run.table.sym id).offset.toNat (job.table.sym id).writtenName
  area_name : ∀ id ∈ ids, (job.table.sym id).isArea = true →
    (job.table.sym id).writtenName = (job.table.sym id).str
  /-- Relocations refer to a symbol by its index, to an area by its number. -/
  used : ∀ (i : ℕ) id, ids[i]? = some id → (run.table.sym id).used =
    if (job.table.sym id).isArea then ((run.table.sym id).area.number.toNat : ℤ) else i
  offset_of_not_mem : ∀ id, id ∉ ids → (run.table.sym id).offset = 0
  used_of_not_mem : ∀ id ∈ job.table.allSymbols, id ∉ ids → (run.table.sym id).used = -1
  strData : ∃ body, run.symOut.strData = wordBytes (BitVec.ofNat 32 run.symOut.strData.length) ++ body
  entries : ∃ rs, ids.mapM (fun id => aofSymbolEntry job.options run.table.heap (run.table.sym id)) = some rs ∧
    run.symData = rs.map Prod.fst ∧ ∀ d ∈ rs.flatMap Prod.snd, d ∈ file.diags

theorem exists_order (run : AofRun job file) : ∃ ids, run.Order ids := by
  obtain ⟨ids, size, maps, rs, checkDiags, hlen, hmem, hnodup, hassign, hstr, hrs, hdata, hdiags⟩ :=
    symbolCreateSymbolOut_aof job.aof run.symbols
  -- what the loop over the areas leaves alone
  have hnumbered (id : SymId) : ∃ number, job.numbered.1.sym id = (job.table.sym id).setAreaNumber number :=
    foldl_numberAofArea_sym job.areas (job.table, 0) id
  have hall : job.numbered.1.allSymbols = job.table.allSymbols := by
    unfold SymbolTable.allSymbols AofJob.numbered
    rw [foldl_numberAofArea_bucket]
  have hneed (id : SymId) : needToOutputSymbol job.options (job.numbered.1.sym id) =
      needToOutputSymbol job.options (job.table.sym id) := by
    obtain ⟨number, hid⟩ := hnumbered id
    rw [hid]
    rfl
  rw [hall] at hnodup hmem
  have hmem : ∀ id, id ∈ ids ↔
      id ∈ job.table.allSymbols ∧ needToOutputSymbol job.options (job.table.sym id) = true := by
    intro id
    rw [hmem, hneed]
  have hmark (id : SymId) : ∃ number used, (job.numbered.1.markUsed job.options).sym id =
      { (job.table.sym id).setAreaNumber number with used } := by
    obtain ⟨used, hused⟩ := markUsed_sym_used job.options job.numbered.1 id
    obtain ⟨number, hid⟩ := hnumbered id
    exact ⟨number, used, by rw [hused, hid]⟩
  -- the two walks over the symbols
  have hlt : size < 2 ^ 32 := strDataSize_lt (hnodup job.symbols_nodup) hassign hstr
  obtain ⟨data, hloop, hsize, hloops⟩ :=
    assignOffsets_strings (hnodup job.symbols_nodup) hassign (inStep_start true _ size) hlt
  obtain rfl : data = run.symOut.strData :=
    Option.some.inj (hloop.symm.trans (symbolBuildStringData_eq_some.mp hstr).1)
  have hpart {id : SymId} (hid : id ∈ ids) : ∃ i, ids[i]? = some id := List.mem_iff_getElem?.mp hid
  refine ⟨ids, hnodup job.symbols_nodup, hmem, hlen, ?_, ?_, ?_, ?_, ?_, ?_, rs, hrs, ?_, ?_⟩
  · intro id hid
    obtain ⟨i, hi⟩ := hpart hid
    obtain ⟨hplaced, -⟩ := hloops i id hi
    obtain ⟨number, used, hsym⟩ := hmark id
    have hname := hplaced.name
    rw [Symbol.tableName_of_not_section (Symbol.isSection_true _)] at hname
    dsimp only at hname
    have hwritten : ((job.numbered.1.markUsed job.options).sym id).writtenName = (job.table.sym id).writtenName := by
      rw [hsym]
      rfl
    refine ⟨hplaced.lo_le (Symbol.isSection_true _), ?_⟩
    rw [← hwritten]
    exact hname
  · intro id hid harea
    have hmap := assignOffsets_area (hnodup job.symbols_nodup) hassign id hid
    obtain ⟨number, used, hsym⟩ := hmark id
    dsimp only at hmap
    rw [hsym] at hmap
    exact Symbol.writtenName_of_invalid (hmap harea)
  · intro i id hi
    obtain ⟨-, hused⟩ := hloops i id hi
    obtain ⟨number, used, hsym⟩ := hmark id
    obtain ⟨offset, used', hout⟩ := (assignOffsets_outputOnly hassign).sym id
    dsimp only at hused hout
    rw [hused, hout, hsym, Nat.zero_add]
    change (if true && (job.table.sym id).isArea then _ else _) = _
    rw [Bool.true_and]
  · intro id hid
    have hout := assignOffsets_of_not_mem hassign hid
    obtain ⟨number, used, hsym⟩ := hmark id
    dsimp only at hout
    rw [hout, hsym]
    exact job.offset_zero id
  · intro id hin hid
    have hout := assignOffsets_of_not_mem hassign hid
    dsimp only at hout
    rw [hout, markUsed_sym _ _ (hall.symm ▸ hin)]
    have hnot : needToOutputSymbol job.options (job.numbered.1.sym id) = false := by
      rw [hneed]
      exact Bool.eq_false_iff.mpr fun h => hid ((hmem id).mpr ⟨hin, h⟩)
    unfold markUsed
    rw [hnot]
    rfl
  · obtain ⟨ext, hext⟩ := stringDataLoop_prefix hloop
    exact ⟨ext, by rw [hsize]; exact hext⟩
  · exact SymData.aof.inj (run.symData_eq.symm.trans hdata)
  · intro d hd
    rw [run.diags_eq, hdiags]
    exact List.mem_append_right _ hd

end AofRun

end Asasm
