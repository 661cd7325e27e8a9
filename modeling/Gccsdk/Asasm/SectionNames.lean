import Gccsdk.Asasm.OutputELF
import Gccsdk.Lib.StringTable

/-!
# Section names of an ELF object file

Each section header refers to its name by an offset into `.shstrtab`. `Output_ELF` computes these
offsets in its second pass, by counting, and fills `.shstrtab` in its first. Both follow the list
`ElfJob.sectionNames`: the first pass leaves the names in the buffer one after the other
(`nameScns_runAdds`), the second gives section `i` the offset of name `i` (`writeScns_shName`).

What can go wrong is the buffer: `shstrtab_add` reallocates once per string whether or not that is
enough. A run of calls is described by `RunAdds`, which holds of an outcome when either one growth
suffices for every string and the run succeeds, or it does not and the run is out of bounds.
`outputELF_sectionNames` puts the parts together.
-/

namespace Asasm

open GrowBuffer StringTable

/-! ### The names, in section order -/

def relSectionName (str : Name) : Name := relPrefix str ++ str

def areaSectionNames (t : SymbolTable) (id : SymId) : List Name :=
  if (t.sym id).isImplicit then []
  else (t.sym id).str ::
    if (t.sym id).area.reloc.isEmpty then [] else [relSectionName (t.sym id).str]

def ElfJob.dwarfNames (job : ElfJob) : List Name :=
  if job.writesDWARF then job.dwarf.map DwarfScn.name else []

/-- **The names of all sections**, in the order given in `Output_ELF`. -/
def ElfJob.sectionNames (job : ElfJob) : List Name :=
  [[], cstr ".symtab", cstr ".strtab"] ++ job.areas.flatMap (areaSectionNames job.table)
    ++ job.dwarfNames ++ [cstr ".shstrtab"]

/-- The byte strings given to `shstrtab_add` for an area. -/
def areaPieces (t : SymbolTable) (id : SymId) : List (List UInt8) :=
  if (t.sym id).isImplicit then []
  else ((t.sym id).str ++ [0]) ::
    if (t.sym id).area.reloc.isEmpty then []
    else [relPrefix (t.sym id).str, (t.sym id).str ++ [0]]

/-- **The byte strings given to `shstrtab_add`**, in order. -/
def ElfJob.namePieces (job : ElfJob) : List (List UInt8) :=
  [[0], cstr ".symtab" ++ [0] ++ (cstr ".strtab" ++ [0])]
    ++ job.areas.flatMap (areaPieces job.table)
    ++ job.dwarfNames.map (· ++ [0]) ++ [cstr ".shstrtab" ++ [0]]

theorem areaPieces_flatten (t : SymbolTable) (id : SymId) :
    (areaPieces t id).flatten = layout (areaSectionNames t id) := by
  unfold areaPieces areaSectionNames relSectionName layout
  split
  · rfl
  · split <;> simp

private theorem areaPieces_flatMap_flatten (t : SymbolTable) (ids : List SymId) :
    (ids.flatMap (areaPieces t)).flatten = layout (ids.flatMap (areaSectionNames t)) := by
  induction ids with
  | nil => rfl
  | cons id ids ih =>
    rw [List.flatMap_cons, List.flatten_append, areaPieces_flatten, ih, List.flatMap_cons,
      layout_append]

private theorem flatten_map_terminated (names : List Name) :
    (names.map (· ++ [0])).flatten = layout names := rfl

theorem ElfJob.namePieces_flatten (job : ElfJob) :
    job.namePieces.flatten = layout job.sectionNames := by
  have hfront : [[0], cstr ".symtab" ++ [0] ++ (cstr ".strtab" ++ [0])].flatten
      = layout [[], cstr ".symtab", cstr ".strtab"] := by decide
  have hback : [cstr ".shstrtab" ++ [0]].flatten = layout [cstr ".shstrtab"] := by decide
  unfold namePieces sectionNames
  simp only [List.flatten_append, layout_append, areaPieces_flatMap_flatten,
    flatten_map_terminated, hfront, hback]

/-! ### Runs of shstrtab_add calls -/

/-- The given strings find one growth enough in the buffer `sh`. -/
def AllFit (sh : ShStrTab) (pieces : List (List UInt8)) : Prop :=
  AllSuffice shstrtabGrow sh.contents.length (pieces.map List.length)

/-- **The outcome of a run** that gives `pieces` to `shstrtab_add`, from the buffer `sh`: a state of `post`
with the pieces in the buffer, or one growth is not enough for some piece and the run is out of bounds. -/
inductive RunAdds (sh : ShStrTab) (pieces : List (List UInt8)) (post : ElfState → Prop) :
    Except Fault ElfState → Prop
  | fits (st : ElfState) (hfit : AllFit sh pieces) (hgood : st.shStrTab.Good)
      (hcontents : st.shStrTab.contents = sh.contents ++ pieces.flatten) (hpost : post st) :
      RunAdds sh pieces post (.ok st)
  | overflows (h : ¬ AllFit sh pieces) : RunAdds sh pieces post (.error .outOfBounds)

section RunAdds

variable {sh sh' : ShStrTab} {pieces pieces' : List (List UInt8)} {post post' : ElfState → Prop}
  {r : Except Fault ElfState}

private theorem sum_map_length (pieces : List (List UInt8)) :
    (pieces.map List.length).sum = pieces.flatten.length := by
  rw [List.length_flatten]

theorem allFit_append (pieces' : List (List UInt8)) (hcontents : sh'.contents = sh.contents ++ pieces.flatten) :
    AllFit sh (pieces ++ pieces') ↔ AllFit sh pieces ∧ AllFit sh' pieces' := by
  unfold AllFit
  rw [List.map_append, allSuffice_append, sum_map_length, hcontents, List.length_append]

theorem RunAdds.ok {st : ElfState} (hgood : st.shStrTab.Good) (hpost : post st) :
    RunAdds st.shStrTab [] post (.ok st) :=
  .fits st trivial hgood (by simp) hpost

/-- **Sequencing.** A run of `pieces` followed by a run of `pieces'`. -/
theorem RunAdds.bind {f : ElfState → Except Fault ElfState} (h : RunAdds sh pieces post r)
    (hf : ∀ st, st.shStrTab.Good → st.shStrTab.contents = sh.contents ++ pieces.flatten →
      post st → RunAdds st.shStrTab pieces' post' (f st)) :
    RunAdds sh (pieces ++ pieces') post' (r >>= f) := by
  cases h with
  | fits st hfit hgood hcontents hpost =>
    change RunAdds sh (pieces ++ pieces') post' (f st)
    have happend := allFit_append pieces' hcontents
    cases hr : f st with
    | ok st' =>
      cases hr ▸ hf st hgood hcontents hpost with
      | fits st' hfit' hgood' hcontents' hpost' =>
        refine .fits st' (happend.mpr ⟨hfit, hfit'⟩) hgood' ?_ hpost'
        rw [hcontents', hcontents, List.append_assoc, List.flatten_append]
    | error e =>
      cases hr ▸ hf st hgood hcontents hpost with
      | overflows h' => exact .overflows fun h => h' (happend.mp h).2
  | overflows h =>
    refine .overflows fun hall => h ?_
    unfold AllFit at hall ⊢
    rw [List.map_append, allSuffice_append] at hall
    exact hall.1

theorem RunAdds.bind_nil {f : ElfState → Except Fault ElfState} (h : RunAdds sh pieces post r)
    (hf : ∀ st, st.shStrTab.Good → post st → RunAdds st.shStrTab [] post' (f st)) :
    RunAdds sh pieces post' (r >>= f) := by
  have := h.bind fun st hgood _ hpost => hf st hgood hpost
  rwa [List.append_nil] at this

theorem RunAdds.mono (h : RunAdds sh pieces post r) (himp : ∀ st, post st → post' st) :
    RunAdds sh pieces post' r := by
  cases h with
  | fits st hfit hgood hcontents hpost => exact .fits st hfit hgood hcontents (himp st hpost)
  | overflows h => exact .overflows h

theorem ElfState.addName_runAdds {st : ElfState} (hst : st.shStrTab.Good) (str : List UInt8) :
    RunAdds st.shStrTab [str] (fun st' => st' = { st with shStrTab := st'.shStrTab })
      (st.addName str) := by
  have hlen := hst.contents_length
  unfold addName
  cases hadd : shstrtabAdd st.shStrTab str with
  | some sh =>
    obtain ⟨hgood, hcontents, -⟩ := shstrtabAdd_eq_some hst hadd
    refine .fits _ ⟨?_, trivial⟩ hgood ?_ rfl
    · by_contra hnot
      rw [hlen] at hnot
      rw [(shstrtabAdd_eq_none_iff hst).mpr hnot] at hadd
      cases hadd
    · simpa using hcontents
  | none =>
    refine .overflows fun hfit => ?_
    have := hfit.1
    rw [hlen] at this
    exact (shstrtabAdd_eq_none_iff hst).mp hadd this

end RunAdds

/-! ### First pass: the areas -/

def numberArea (t : SymbolTable) (n : Nat) (id : SymId) : SymbolTable :=
  if (t.sym id).isImplicit then t else t.modify id (Symbol.setAreaNumber (BitVec.ofNat 32 n))

/-- The area numbers of the first pass, from section index `n` on. -/
def numberAreas : SymbolTable → Nat → List SymId → SymbolTable
  | t, _, [] => t
  | t, n, id :: ids =>
    numberAreas (numberArea t n id) (n + (areaSectionNames t id).length) ids

/-- A symbol of `numberArea` is the one before up to its area number. -/
theorem numberArea_sym (t : SymbolTable) (n : Nat) (id j : SymId) :
    ∃ number, (numberArea t n id).sym j = (t.sym j).setAreaNumber number := by
  unfold numberArea
  split
  · exact ⟨_, rfl⟩
  · by_cases h : j = id
    · subst h
      exact ⟨_, SymbolTable.modify_sym_self _ _ _⟩
    · exact ⟨_, SymbolTable.modify_sym_of_ne _ _ _ h⟩

theorem numberAreas_sym (t : SymbolTable) (n : Nat) (ids : List SymId) (j : SymId) :
    ∃ number, (numberAreas t n ids).sym j = (t.sym j).setAreaNumber number := by
  induction ids generalizing t n with
  | nil => exact ⟨_, rfl⟩
  | cons id ids ih =>
    obtain ⟨a, ha⟩ := numberArea_sym t n id j
    obtain ⟨b, hb⟩ := ih (numberArea t n id) (n + (areaSectionNames t id).length)
    refine ⟨b, ?_⟩
    rw [numberAreas, hb, ha]
    rfl

theorem numberAreas_size (t : SymbolTable) (n : Nat) (ids : List SymId) :
    (numberAreas t n ids).heap.size = t.heap.size := by
  induction ids generalizing t n with
  | nil => rfl
  | cons id ids ih =>
    rw [numberAreas, ih, numberArea]
    split <;> rfl

private theorem areaPieces_numberArea (t : SymbolTable) (n : Nat) (id : SymId) :
    areaPieces (numberArea t n id) = areaPieces t := by
  funext j
  obtain ⟨_, h⟩ := numberArea_sym t n id j
  unfold areaPieces
  rw [h]
  rfl

private theorem areaSectionNames_numberArea (t : SymbolTable) (n : Nat) (id : SymId) :
    areaSectionNames (numberArea t n id) = areaSectionNames t := by
  funext j
  obtain ⟨_, h⟩ := numberArea_sym t n id j
  unfold areaSectionNames
  rw [h]
  rfl

/-- Blank headers, as `elf_newscn` makes them. -/
def blanks (names : List Name) : List ElfScn := List.replicate names.length {}

theorem nameAreaScn_runAdds {st : ElfState} (hst : st.shStrTab.Good) (id : SymId) :
    RunAdds st.shStrTab (areaPieces st.table id)
      (fun st' => st' = { st with
        scns := st.scns ++ blanks (areaSectionNames st.table id)
        table := numberArea st.table st.scns.length id
        shStrTab := st'.shStrTab })
      (nameAreaScn st id) := by
  unfold nameAreaScn areaPieces areaSectionNames numberArea blanks
  by_cases himp : (st.table.sym id).isImplicit
  · simp only [himp, if_true]
    exact .ok hst (by simp)
  · simp only [himp, if_false, Bool.false_eq_true]
    have hnew : (st.newAreaScn id).shStrTab.Good := hst
    by_cases hrel : (st.table.sym id).area.reloc.isEmpty
    · simp only [hrel, if_true]
      refine RunAdds.bind_nil (ElfState.addName_runAdds hnew _) fun st₁ hst₁ h₁ => ?_
      refine .ok hst₁ ?_
      rw [h₁]
      rfl
    · simp only [hrel, if_false, Bool.false_eq_true]
      refine RunAdds.bind (ElfState.addName_runAdds hnew _) fun st₁ hst₁ _ h₁ => ?_
      have hnew₁ : (st₁.newScn {}).shStrTab.Good := hst₁
      rw [← List.singleton_append]
      refine RunAdds.bind (ElfState.addName_runAdds hnew₁ _)
        fun st₂ hst₂ _ h₂ => ?_
      refine (ElfState.addName_runAdds hst₂ _).mono fun st₃ h₃ => ?_
      rw [h₃, h₂, h₁]
      simp only [ElfState.newScn, ElfState.newAreaScn, List.append_assoc]
      rfl

theorem nameAreaScns_runAdds {st : ElfState} (hst : st.shStrTab.Good) (ids : List SymId) :
    RunAdds st.shStrTab (ids.flatMap (areaPieces st.table))
      (fun st' => st' = { st with
        scns := st.scns ++ blanks (ids.flatMap (areaSectionNames st.table))
        table := numberAreas st.table st.scns.length ids
        shStrTab := st'.shStrTab })
      (ids.foldlM nameAreaScn st) := by
  induction ids generalizing st with
  | nil => exact .ok hst (by simp [blanks, numberAreas])
  | cons id ids ih =>
    rw [List.foldlM_cons, List.flatMap_cons]
    refine (nameAreaScn_runAdds hst id).bind fun st₁ hst₁ _ h₁ => ?_
    have htable : st₁.table = numberArea st.table st.scns.length id := by rw [h₁]
    have hscns : st₁.scns = st.scns ++ blanks (areaSectionNames st.table id) := by rw [h₁]
    have hrest := ih hst₁
    rw [htable, areaPieces_numberArea, areaSectionNames_numberArea, hscns] at hrest
    refine hrest.mono fun st₂ h₂ => ?_
    rw [h₂, h₁]
    simp only [numberAreas, blanks, List.length_append, List.length_replicate, List.flatMap_cons,
      List.replicate_add, List.append_assoc]

/-! ### First pass: the DWARF sections -/

/-- **Symbols added.** The table and the area list of `st'` are those of `st` with new symbols, all
of them DWARF areas. -/
structure DwarfAreasAdded (st st' : ElfState) : Prop where
  size_le : st.table.heap.size ≤ st'.table.heap.size
  old : ∀ j < st.table.heap.size, st'.table.sym j = st.table.sym j
  new : ∀ j, st.table.heap.size ≤ j → j < st'.table.heap.size →
    (st'.table.sym j).isArea ∧ (st'.table.sym j).area.isDWARF
  /-- Only new ones enter the hash chains, -/
  mem : ∀ id ∈ st'.table.allSymbols, id ∈ st.table.allSymbols ∨
    st.table.heap.size ≤ id ∧ id < st'.table.heap.size
  /-- and none leaves them. -/
  mem_of_mem : ∀ id ∈ st.table.allSymbols, id ∈ st'.table.allSymbols
  areas : ∃ new, st'.areas = new ++ st.areas ∧
    ∀ id ∈ new, st.table.heap.size ≤ id ∧ id < st'.table.heap.size

namespace DwarfAreasAdded

theorem of_eq {st st' : ElfState} (htable : st'.table = st.table) (hareas : st'.areas = st.areas) :
    DwarfAreasAdded st st' where
  size_le := by rw [htable]
  old := fun _ _ => by rw [htable]
  new := fun j hj hj' => by
    rw [htable] at hj'
    exact absurd hj' (Nat.not_lt.mpr hj)
  mem := fun id hid => Or.inl (htable ▸ hid)
  mem_of_mem := fun id hid => htable ▸ hid
  areas := ⟨[], by rw [hareas, List.nil_append], fun _ h => absurd h List.not_mem_nil⟩

theorem trans {st st' st'' : ElfState} (h : DwarfAreasAdded st st')
    (h' : DwarfAreasAdded st' st'') : DwarfAreasAdded st st'' where
  size_le := le_trans h.size_le h'.size_le
  old := fun j hj => (h'.old j (lt_of_lt_of_le hj h.size_le)).trans (h.old j hj)
  new := fun j hj hj'' => by
    by_cases hj' : j < st'.table.heap.size
    · rw [h'.old j hj']
      exact h.new j hj hj'
    · exact h'.new j (Nat.not_lt.mp hj') hj''
  mem := fun id hid => by
    rcases h'.mem id hid with hid | ⟨hge, hlt⟩
    · exact (h.mem id hid).imp_right fun ⟨hge, hlt⟩ => ⟨hge, lt_of_lt_of_le hlt h'.size_le⟩
    · exact Or.inr ⟨le_trans h.size_le hge, hlt⟩
  mem_of_mem := fun id hid => h'.mem_of_mem id (h.mem_of_mem id hid)
  areas := by
    obtain ⟨new, hareas, hnew⟩ := h.areas
    obtain ⟨new', hareas', hnew'⟩ := h'.areas
    refine ⟨new' ++ new, by rw [hareas', hareas, List.append_assoc], fun id hid => ?_⟩
    rcases List.mem_append.mp hid with hid | hid
    · exact ⟨le_trans h.size_le (hnew' id hid).1, (hnew' id hid).2⟩
    · exact ⟨(hnew id hid).1, lt_of_lt_of_le (hnew id hid).2 h'.size_le⟩

end DwarfAreasAdded

theorem areaCreateDWARF_ok (st : ElfState) {name : Name} (hname : isDebugSection name)
    (scnIdx : BitVec 32) :
    ∃ st', areaCreateDWARF st name scnIdx = .ok st' ∧ st'.shStrTab = st.shStrTab
      ∧ st'.scns = st.scns ∧ st'.shStrTabSizeForDWARF = st.shStrTabSizeForDWARF
      ∧ DwarfAreasAdded st st' := by
  unfold areaCreateDWARF
  simp only [hname, assert, if_true, orStopped]
  cases hfind : st.table.find name with
  | some id => exact ⟨_, rfl, rfl, rfl, rfl, .of_eq rfl rfl⟩
  | none =>
    have hsize := SymbolTable.get_size_of_find_eq_none hfind
    have hid := SymbolTable.get_snd_of_find_eq_none hfind
    refine ⟨_, rfl, rfl, rfl, rfl, ?_⟩
    constructor
    · change _ ≤ (st.table.get name).1.heap.size
      omega
    · intro j hj
      rw [SymbolTable.modify_sym_of_ne _ _ _ (by rw [hid]; exact Nat.ne_of_lt hj)]
      exact SymbolTable.get_sym_of_lt hfind hj
    · intro j hge hlt
      -- the one new symbol is the area just made
      change j < (st.table.get name).1.heap.size at hlt
      rw [hsize] at hlt
      have hj : j = (st.table.get name).2 := by
        rw [hid]
        exact Nat.le_antisymm (Nat.lt_succ_iff.mp hlt) hge
      rw [hj, SymbolTable.modify_sym_self]
      exact ⟨(by decide : isSet symbolArea symbolArea = true),
        (by decide : isSet areaIntDwarf areaIntDwarf = true)⟩
    · intro id hmem
      refine (SymbolTable.mem_allSymbols_get hfind hmem).imp_right fun h => ?_
      change _ ∧ id < (st.table.get name).1.heap.size
      rw [hsize, h]
      exact ⟨le_refl _, Nat.lt_succ_self _⟩
    · exact fun id hmem => SymbolTable.mem_allSymbols_get_of_mem hfind hmem
    · refine ⟨[(st.table.get name).2], rfl, fun id hmem => ?_⟩
      change _ ∧ id < (st.table.get name).1.heap.size
      rw [List.mem_singleton.mp hmem, hsize, hid]
      exact ⟨le_refl _, Nat.lt_succ_self _⟩

/-- **DWARF sections added**, of the given names: each header has the offset of its name. -/
structure DwarfAdded (st : ElfState) (names : List Name) (st' : ElfState) : Prop
    extends DwarfAreasAdded st st' where
  scns : ∃ new, st'.scns = st.scns ++ new ∧ new.map ElfScn.shName
    = (nameOffsets st.shStrTab.contents.length names).map (BitVec.ofNat 32)
  sizeForDWARF : st'.shStrTabSizeForDWARF
    = st.shStrTabSizeForDWARF + BitVec.ofNat 32 (layout names).length

private theorem layout_singleton (name : Name) : layout [name] = name ++ [0] := List.append_nil _

theorem DwarfAdded.nil (st : ElfState) : DwarfAdded st [] st where
  toDwarfAreasAdded := .of_eq rfl rfl
  scns := ⟨[], (List.append_nil _).symm, rfl⟩
  sizeForDWARF := by simp [layout]

theorem DwarfAdded.cons {st st' st'' : ElfState} {name : Name} {names : List Name}
    (h : DwarfAdded st [name] st') (h' : DwarfAdded st' names st'')
    (hcontents : st'.shStrTab.contents = st.shStrTab.contents ++ layout [name]) :
    DwarfAdded st (name :: names) st'' where
  toDwarfAreasAdded := h.toDwarfAreasAdded.trans h'.toDwarfAreasAdded
  scns := by
    obtain ⟨new, hscns, hnew⟩ := h.scns
    obtain ⟨new', hscns', hnew'⟩ := h'.scns
    refine ⟨new ++ new', by rw [hscns', hscns, List.append_assoc], ?_⟩
    rw [List.map_append, hnew, hnew', hcontents, ← List.map_append, List.length_append,
      ← nameOffsets_append, List.singleton_append]
  sizeForDWARF := by
    have hlayout : layout (name :: names) = layout [name] ++ layout names :=
      layout_append [name] names
    rw [h'.sizeForDWARF, h.sizeForDWARF, hlayout, List.length_append, BitVec.ofNat_add,
      BitVec.add_assoc]

variable {st : ElfState}

theorem dwarfCreateSection_runAdds (hst : st.shStrTab.Good) (d : DwarfScn) :
    RunAdds st.shStrTab [d.name ++ [0]] (DwarfAdded st [d.name]) (dwarfCreateSection st d) := by
  have hlen : (layout [d.name]).length = d.name.length + 1 := by
    rw [layout_singleton, List.length_append, List.length_singleton]
  have hnew : (st.newScn (dwarfScnHdr st d)).shStrTab.Good := hst
  refine RunAdds.bind_nil (ElfState.addName_runAdds hnew _) fun st₁ hst₁ h₁ => ?_
  have hscns : ∃ new, st₁.scns = st.scns ++ new ∧ new.map ElfScn.shName
      = (nameOffsets st.shStrTab.contents.length [d.name]).map (BitVec.ofNat 32) := by
    refine ⟨[dwarfScnHdr st d], by rw [h₁]; rfl, ?_⟩
    simp only [List.map_cons, List.map_nil, nameOffsets, dwarfScnHdr, hst.contents_length]
  have hsize : st₁.shStrTabSizeForDWARF + BitVec.ofNat 32 (d.name.length + 1)
      = st.shStrTabSizeForDWARF + BitVec.ofNat 32 (layout [d.name]).length := by
    rw [hlen, h₁]
    rfl
  by_cases hrel : isRelocSection d.name
  · simp only [hrel, if_true]
    have hareas : DwarfAreasAdded st (st₁.countDWARF d) :=
      .of_eq (by rw [h₁]; rfl) (by rw [h₁]; rfl)
    have hcount : (st₁.countDWARF d).shStrTab.Good := hst₁
    exact RunAdds.ok hcount ⟨hareas, hscns, hsize⟩
  · simp only [hrel, if_false, Bool.false_eq_true]
    have hname := d.named.resolve_left hrel
    obtain ⟨st₂, hok, hsh, hscns₂, hsize₂, hadded⟩ :=
      areaCreateDWARF_ok (st₁.countDWARF d) hname (BitVec.ofNat 32 st.scns.length)
    have hareas : DwarfAreasAdded st (st₁.countDWARF d) :=
      .of_eq (by rw [h₁]; rfl) (by rw [h₁]; rfl)
    have hsh₁ : st₁.shStrTab = st₂.shStrTab := hsh.symm
    rw [hok, hsh₁]
    refine RunAdds.ok (hsh₁ ▸ hst₁) ⟨hareas.trans hadded, ?_, ?_⟩
    · rw [hscns₂]
      exact hscns
    · rw [hsize₂]
      exact hsize

theorem dwarfCreateSections_runAdds (hst : st.shStrTab.Good) (ds : List DwarfScn) :
    RunAdds st.shStrTab ((ds.map DwarfScn.name).map (· ++ [0]))
      (DwarfAdded st (ds.map DwarfScn.name)) (ds.foldlM dwarfCreateSection st) := by
  induction ds generalizing st with
  | nil => exact .ok hst (.nil st)
  | cons d ds ih =>
    rw [List.foldlM_cons]
    refine (dwarfCreateSection_runAdds hst d).bind fun st₁ hst₁ hcontents h₁ => ?_
    rw [List.flatten_singleton, ← layout_singleton] at hcontents
    exact (ih hst₁).mono fun st₂ h₂ => h₁.cons h₂ hcontents

theorem dwarfCreateAreasAndSections_runAdds (job : ElfJob) (hst : st.shStrTab.Good) :
    RunAdds st.shStrTab (job.dwarfNames.map (· ++ [0])) (DwarfAdded st job.dwarfNames)
      (dwarfCreateAreasAndSections job st) := by
  unfold ElfJob.dwarfNames dwarfCreateAreasAndSections
  split
  · exact dwarfCreateSections_runAdds hst job.dwarf
  · exact .ok hst (.nil st)

/-! ### First pass: all sections -/

/-- **The state between the passes.** The sections are those of `sectionNames`: blank ones but for
the DWARF sections, which have their names. The areas have their section numbers. -/
structure Named (job : ElfJob) (st : ElfState) : Prop where
  scns : ∃ front dwarf last, st.scns = [({} : ElfScn)] ++ (front ++ (dwarf ++ [last]))
    ∧ front.length = 2 + (job.areas.flatMap (areaSectionNames job.table)).length
    ∧ dwarf.map ElfScn.shName = (nameOffsets
        (17 + (layout (job.areas.flatMap (areaSectionNames job.table))).length)
        job.dwarfNames).map (BitVec.ofNat 32)
  sizeForDWARF : st.shStrTabSizeForDWARF = BitVec.ofNat 32 (layout job.dwarfNames).length
  areasAdded : ∃ st₀, st₀.table = numberAreas job.table 3 job.areas ∧ st₀.areas = job.areas
    ∧ DwarfAreasAdded st₀ st

/-- **The first pass.** -/
theorem nameScns_runAdds (job : ElfJob) :
    RunAdds .initValue job.namePieces (Named job) (nameScns job) := by
  have hassoc : job.namePieces = [[0]] ++ ([cstr ".symtab" ++ [0] ++ (cstr ".strtab" ++ [0])]
      ++ (job.areas.flatMap (areaPieces job.table)
      ++ (job.dwarfNames.map (· ++ [0]) ++ [cstr ".shstrtab" ++ [0]]))) := by
    simp only [ElfJob.namePieces, List.append_assoc, List.cons_append, List.nil_append]
  rw [hassoc]
  unfold nameScns
  have hstart : (ElfState.mk [{}] .initValue job.table job.areas 0 []).shStrTab.Good :=
    ShStrTab.initValue_good
  refine RunAdds.bind (ElfState.addName_runAdds hstart [0]) fun st₁ hst₁ hc₁ h₁ => ?_
  have hnew : ((st₁.newScn {}).newScn {}).shStrTab.Good := hst₁
  refine RunAdds.bind (show RunAdds st₁.shStrTab _ _ _ from ElfState.addName_runAdds hnew _)
    fun st₂ hst₂ hc₂ h₂ => ?_
  have hlen₂ : st₂.shStrTab.contents.length = 17 := by
    rw [hc₂, hc₁]
    decide
  have htable₂ : st₂.table = job.table := by rw [h₂, h₁]; rfl
  have hareas₂ : st₂.areas = job.areas := by rw [h₂, h₁]; rfl
  have hscns₂ : st₂.scns = [{}, {}, {}] := by rw [h₂, h₁]; rfl
  have hsize₂ : st₂.shStrTabSizeForDWARF = 0 := by rw [h₂, h₁]; rfl
  have hareas := nameAreaScns_runAdds hst₂ job.areas
  rw [htable₂, hscns₂] at hareas
  refine hareas.bind fun st₃ hst₃ hc₃ h₃ => ?_
  refine (dwarfCreateAreasAndSections_runAdds job hst₃).bind fun st₄ hst₄ hc₄ h₄ => ?_
  have hnew₄ : (st₄.newScn {}).shStrTab.Good := hst₄
  refine (ElfState.addName_runAdds hnew₄ _).mono fun st₅ h₅ => ?_
  obtain ⟨dwarf, hscns₄, hdwarf⟩ := h₄.scns
  have hlen₃ : st₃.shStrTab.contents.length
      = 17 + (layout (job.areas.flatMap (areaSectionNames job.table))).length := by
    rw [hc₃, areaPieces_flatMap_flatten, List.length_append, hlen₂]
  refine ⟨⟨[({} : ElfScn), {}]
    ++ blanks (job.areas.flatMap (areaSectionNames job.table)), dwarf, {}, ?_, ?_, ?_⟩, ?_, st₃, ?_, ?_, ?_⟩
  · have hscns₅ : st₅.scns = st₃.scns ++ dwarf ++ [({} : ElfScn)] := by
      rw [h₅, ← hscns₄]
      rfl
    rw [hscns₅, h₃]
    simp only [List.append_assoc, List.cons_append, List.nil_append]
  · simp only [blanks, List.length_append, List.length_replicate, List.length_cons,
      List.length_nil]
  · rw [hdwarf, hlen₃]
  · have := h₄.sizeForDWARF
    rw [h₅]
    change st₄.shStrTabSizeForDWARF = _
    rw [this, h₃]
    change st₂.shStrTabSizeForDWARF + _ = _
    simp [hsize₂]
  · rw [h₃]
    rfl
  · rw [h₃]
    exact hareas₂
  · have heq : DwarfAreasAdded st₄ st₅ := .of_eq (by rw [h₅]; rfl) (by rw [h₅]; rfl)
    exact h₄.toDwarfAreasAdded.trans heq

/-! ### Area numbers -/

/-- **The areas have the indices of their sections**, from index `n` on. -/
def AreasNumbered (t₀ t : SymbolTable) : Nat → List SymId → Prop
  | _, [] => True
  | n, id :: ids =>
    ((t₀.sym id).isImplicit = false → (t.sym id).area.number = BitVec.ofNat 32 n)
      ∧ AreasNumbered t₀ t (n + (areaSectionNames t₀ id).length) ids

variable {ids : List SymId}

theorem AreasNumbered.congr {t₀ t t' : SymbolTable} {n : Nat} (h : AreasNumbered t₀ t n ids)
    (heq : ∀ id ∈ ids, (t'.sym id).area.number = (t.sym id).area.number) :
    AreasNumbered t₀ t' n ids := by
  induction ids generalizing n with
  | nil => trivial
  | cons id ids ih =>
    refine ⟨fun himp => ?_, ih h.2 fun j hj => heq j (List.mem_cons_of_mem _ hj)⟩
    rw [heq id List.mem_cons_self]
    exact h.1 himp

private theorem numberAreas_sym_of_notMem {t : SymbolTable} {n : Nat} {j : SymId}
    (hj : j ∉ ids) : (numberAreas t n ids).sym j = t.sym j := by
  induction ids generalizing t n with
  | nil => rfl
  | cons id ids ih =>
    rw [numberAreas, ih (fun h => hj (List.mem_cons_of_mem _ h))]
    unfold numberArea
    split
    · rfl
    · exact SymbolTable.modify_sym_of_ne _ _ _ (fun h => hj (h ▸ List.mem_cons_self))

theorem numberAreas_numbered {t₀ t : SymbolTable} (hnames : areaSectionNames t = areaSectionNames t₀)
    (himp : ∀ id, (t.sym id).isImplicit = (t₀.sym id).isImplicit) (n : Nat)
    (hnodup : ids.Nodup) : AreasNumbered t₀ (numberAreas t n ids) n ids := by
  induction ids generalizing t n with
  | nil => trivial
  | cons id ids ih =>
    obtain ⟨hid, hnodup⟩ := List.nodup_cons.mp hnodup
    refine ⟨fun hnot => ?_, ?_⟩
    · -- later areas are other symbols, so the number given here stays
      rw [numberAreas, numberAreas_sym_of_notMem hid, numberArea, himp, hnot]
      simp only [Bool.false_eq_true, if_false, SymbolTable.modify_sym_self]
      rfl
    · rw [numberAreas, hnames]
      refine ih ((areaSectionNames_numberArea t n id).trans hnames) (fun j => ?_) _ hnodup
      obtain ⟨_, h⟩ := numberArea_sym t n id j
      rw [h, ← himp]
      rfl

/-! ### Second pass -/

variable {hdr : BitVec 32 → ElfScn → ElfScn}

theorem writeScn_frame {s s' : ElfState × BitVec 32} {p n : Nat} (h : writeScn s p hdr n = .ok s') :
    s'.1 = { s.1 with scns := s'.1.scns } := by
  unfold writeScn ElfState.setScn at h
  split at h
  · cases h
    rfl
  · cases h

variable {entry : Option SymId}

theorem writeAreaScn_frame {s s' : ElfState × BitVec 32} {id : SymId}
    (h : writeAreaScn entry s id = .ok s') : s'.1 = { s.1 with scns := s'.1.scns } := by
  unfold writeAreaScn at h
  simp only at h
  split at h
  · cases h
    rfl
  · obtain ⟨s₁, h₁, h⟩ := except_bind_eq_ok.mp h
    split at h
    · cases h
      exact writeScn_frame h₁
    · obtain ⟨data, -, h⟩ := except_bind_eq_ok.mp h
      rw [writeScn_frame h, writeScn_frame h₁]

theorem writeAreaScns_frame {s s' : ElfState × BitVec 32} (h : ids.foldlM (writeAreaScn entry) s = .ok s') :
    s'.1 = { s.1 with scns := s'.1.scns } := by
  induction ids generalizing s with
  | nil =>
    cases h
    rfl
  | cons id ids ih =>
    rw [List.foldlM_cons, except_bind_eq_ok] at h
    obtain ⟨s₁, h₁, h⟩ := h
    rw [ih h, writeAreaScn_frame h₁]

/-- **Sections written.** Of the sections of `st`, `st'` has those from index `p` on filled, one for
each of `names`, with the offsets the names have when they start at `o`. -/
def Wrote (p o : Nat) (names : List Name) (st st' : ElfState) : Prop :=
  ∀ front mid back, st.scns = front ++ (mid ++ back) → front.length = p →
    mid.length = names.length → ∃ mid', st'.scns = front ++ (mid' ++ back)
      ∧ mid'.map ElfScn.shName = (nameOffsets o names).map (BitVec.ofNat 32)

theorem Wrote.nil (p o : Nat) (st : ElfState) : Wrote p o [] st st := by
  intro front mid back hscns _ hmid
  obtain rfl := List.length_eq_zero_iff.mp hmid
  exact ⟨[], hscns, rfl⟩

private theorem length_of_map_shName {scns : List ElfScn} {o : Nat} {names : List Name}
    (h : scns.map ElfScn.shName = (nameOffsets o names).map (BitVec.ofNat 32)) :
    scns.length = names.length := by
  have := congrArg List.length h
  rwa [List.length_map, List.length_map, nameOffsets_length] at this

variable {p o : Nat}

theorem Wrote.append {xs ys : List Name} {st st₁ st₂ : ElfState}
    (h : Wrote p o xs st st₁) (h' : Wrote (p + xs.length) (o + (layout xs).length) ys st₁ st₂) :
    Wrote p o (xs ++ ys) st st₂ := by
  intro front mid back hscns hfront hmid
  rw [List.length_append] at hmid
  -- split the sections to fill at the end of `xs`
  have hm₁ : (mid.take xs.length).length = xs.length := by
    rw [List.length_take]
    omega
  have hm₂ : (mid.drop xs.length).length = ys.length := by
    rw [List.length_drop]
    omega
  obtain ⟨m₁, hscns₁, hnames₁⟩ := h front (mid.take xs.length) (mid.drop xs.length ++ back)
    (by rw [hscns, ← List.append_assoc (mid.take _), List.take_append_drop]) hfront hm₁
  obtain ⟨m₂, hscns₂, hnames₂⟩ := h' (front ++ m₁) (mid.drop xs.length) back
    (by rw [hscns₁, List.append_assoc])
    (by rw [List.length_append, hfront, length_of_map_shName hnames₁]) hm₂
  refine ⟨m₁ ++ m₂, by rw [hscns₂, List.append_assoc, List.append_assoc], ?_⟩
  rw [List.map_append, hnames₁, hnames₂, nameOffsets_append, List.map_append]

theorem Wrote.frame {names : List Name} {st st' : ElfState}
    (h : Wrote p o names st st') (hlen : p + names.length ≤ st.scns.length) :
    st'.scns.length = st.scns.length ∧ ∀ i < p, st'.scns[i]? = st.scns[i]? := by
  have hfront : (st.scns.take p).length = p := by
    rw [List.length_take]
    omega
  have hmid : ((st.scns.drop p).take names.length).length = names.length := by
    rw [List.length_take, List.length_drop]
    omega
  obtain ⟨mid, hscns, hnames⟩ := h (st.scns.take p) ((st.scns.drop p).take names.length)
    ((st.scns.drop p).drop names.length) (by rw [List.take_append_drop, List.take_append_drop])
    hfront hmid
  have hmid' := length_of_map_shName hnames
  refine ⟨?_, fun i hi => ?_⟩
  · rw [hscns, List.length_append, List.length_append, hfront, hmid', List.length_drop,
      List.length_drop]
    omega
  · rw [hscns, List.getElem?_append_left (by rwa [hfront]), List.getElem?_take_of_lt hi]

theorem ofNat_add_name (o : Nat) (name : Name) :
    BitVec.ofNat 32 o + BitVec.ofNat 32 (name.length + 1)
      = BitVec.ofNat 32 (o + (layout [name]).length) := by
  rw [layout_singleton, List.length_append, List.length_singleton, ← BitVec.ofNat_add]

variable {s' : ElfState × BitVec 32}

theorem writeScn_wrote (name : Name) (hhdr : ∀ n scn, (hdr n scn).shName = n)
    (h : writeScn (st, BitVec.ofNat 32 o) p hdr name.length = .ok s') :
    Wrote p o [name] st s'.1 ∧ s'.2 = BitVec.ofNat 32 (o + (layout [name]).length) := by
  unfold writeScn ElfState.setScn at h
  simp only at h
  split at h
  · cases h
    refine ⟨fun front mid back hscns hfront hmid => ?_, ofNat_add_name o name⟩
    obtain ⟨scn, rfl⟩ := List.length_eq_one_iff.mp hmid
    refine ⟨[hdr (BitVec.ofNat 32 o) scn], ?_, ?_⟩
    · simp only [hscns, ← hfront]
      rw [List.modify_eq_take_cons_drop (by simp)]
      simp
    · rw [List.map_singleton, hhdr]
      rfl
  · cases h

theorem writeScn_last {o : BitVec 32} {p n : Nat} {init : List ElfScn} {last : ElfScn}
    (hscns : st.scns = init ++ [last]) (hp : p = init.length)
    (h : writeScn (st, o) p hdr n = .ok s') : s'.1.scns = init ++ [hdr o last] := by
  unfold writeScn ElfState.setScn at h
  split at h
  · cases h
    simp only [hscns, hp]
    rw [List.modify_eq_take_cons_drop (by simp)]
    simp
  · cases h

/-- What the second pass reads of the areas, in `t`, is as it was in `t₀` before the first. -/
def AreasKept (t₀ t : SymbolTable) (ids : List SymId) : Prop :=
  ∀ id ∈ ids, (t.sym id).str = (t₀.sym id).str
    ∧ (t.sym id).area.reloc = (t₀.sym id).area.reloc ∧ (t.sym id).area.isDWARF = false

private theorem layout_pair (a b : Name) : layout [a, b] = layout [a] ++ layout [b] :=
  layout_append [a] [b]

theorem writeAreaScn_wrote {t₀ : SymbolTable} {id : SymId} (hkept : AreasKept t₀ st.table [id])
    (hnum : AreasNumbered t₀ st.table p [id]) (hlt : p + (areaSectionNames t₀ id).length ≤ 2 ^ 32)
    (h : writeAreaScn entry (st, BitVec.ofNat 32 o) id = .ok s') :
    Wrote p o (areaSectionNames t₀ id) st s'.1
      ∧ s'.2 = BitVec.ofNat 32 (o + (layout (areaSectionNames t₀ id)).length) := by
  obtain ⟨hstr, hreloc, hdwarf⟩ := hkept id List.mem_cons_self
  have himpl : (st.table.sym id).isImplicit = (t₀.sym id).isImplicit := by
    rw [Symbol.isImplicit, hstr, Symbol.isImplicit]
  unfold writeAreaScn at h
  unfold areaSectionNames at hlt ⊢
  by_cases himp : (t₀.sym id).isImplicit
  · simp only [himpl, himp, Bool.true_or, if_true, Except.ok.injEq] at h
    subst h
    simp only [himp, if_true]
    exact ⟨.nil p o st, rfl⟩
  · have hnumber := hnum.1 (by simpa using himp)
    simp only [himp, Bool.false_eq_true, if_false, List.length_cons] at hlt ⊢
    have hidx : (st.table.sym id).area.number.toNat = p := by
      rw [hnumber, BitVec.toNat_ofNat]
      exact Nat.mod_eq_of_lt (by omega)
    simp only [himpl, himp, hdwarf, Bool.or_false, Bool.false_eq_true, if_false, Symbol.len, hstr,
      hreloc, hidx, except_bind_eq_ok] at h
    obtain ⟨s₁, h₁, h⟩ := h
    obtain ⟨hw₁, hidx₁⟩ := writeScn_wrote _ (fun _ _ => rfl) h₁
    by_cases hrel : (t₀.sym id).area.reloc.isEmpty
    · simp only [hrel, if_true] at h ⊢
      cases h
      exact ⟨hw₁, hidx₁⟩
    · simp only [hrel, if_false, Bool.false_eq_true, List.length_singleton, except_bind_eq_ok]
        at h hlt ⊢
      obtain ⟨data, -, h⟩ := h
      have hidx' : ((st.table.sym id).area.number + 1).toNat = p + 1 := by
        rw [BitVec.toNat_add, hidx]
        exact Nat.mod_eq_of_lt (by simp; omega)
      have hname : (relPrefix (t₀.sym id).str).length + (t₀.sym id).str.length
          = (relSectionName (t₀.sym id).str).length := by
        rw [relSectionName, List.length_append]
      rw [hidx', hname, ← Prod.eta s₁, hidx₁] at h
      obtain ⟨hw₂, hidx₂⟩ := writeScn_wrote _ (fun _ _ => rfl) h
      refine ⟨hw₁.append hw₂, ?_⟩
      rw [hidx₂, layout_pair, List.length_append, Nat.add_assoc]

theorem writeAreaScns_wrote {t₀ : SymbolTable} (hkept : AreasKept t₀ st.table ids)
    (hnum : AreasNumbered t₀ st.table p ids) (hlt : p + (ids.flatMap (areaSectionNames t₀)).length ≤ 2 ^ 32)
    (h : ids.foldlM (writeAreaScn entry) (st, BitVec.ofNat 32 o) = .ok s') :
    Wrote p o (ids.flatMap (areaSectionNames t₀)) st s'.1
      ∧ s'.2 = BitVec.ofNat 32 (o + (layout (ids.flatMap (areaSectionNames t₀))).length) := by
  induction ids generalizing st p o with
  | nil =>
    cases h
    exact ⟨.nil p o st, rfl⟩
  | cons id ids ih =>
    rw [List.foldlM_cons, except_bind_eq_ok] at h
    obtain ⟨s₁, h₁, h⟩ := h
    rw [List.flatMap_cons, List.length_append] at hlt
    obtain ⟨hw₁, hidx₁⟩ := writeAreaScn_wrote
      (fun j hj => hkept j (List.mem_singleton.mp hj ▸ List.mem_cons_self))
      ⟨hnum.1, trivial⟩ (by omega) h₁
    have htable : s₁.1.table = st.table := by rw [writeAreaScn_frame h₁]
    rw [← Prod.eta s₁, hidx₁] at h
    obtain ⟨hw₂, hidx₂⟩ := ih (fun j hj => htable ▸ hkept j (List.mem_cons_of_mem _ hj))
      (htable ▸ hnum.2) (by omega) h
    refine ⟨?_, ?_⟩
    · rw [List.flatMap_cons]
      exact hw₁.append hw₂
    · rw [hidx₂, List.flatMap_cons, layout_append, List.length_append, Nat.add_assoc]

theorem writeAreaScns_dwarf (s : ElfState × BitVec 32)
    (hids : ∀ id ∈ ids, (s.1.table.sym id).area.isDWARF = true) :
    ids.foldlM (writeAreaScn entry) s = .ok s := by
  induction ids with
  | nil => rfl
  | cons id ids ih =>
    have hid := hids id List.mem_cons_self
    rw [List.foldlM_cons]
    unfold writeAreaScn
    simp only [hid, Bool.or_true, if_true]
    exact ih fun j hj => hids j (List.mem_cons_of_mem _ hj)

/-- **The state the second pass starts in**: that after the first pass, with the output fields of
the symbols written. -/
structure ReadyToWrite (job : ElfJob) (st₀ st : ElfState) : Prop where
  named : Named job st₀
  table : st₀.table.OutputOnly st.table
  scns : st.scns = st₀.scns
  areas : st.areas = st₀.areas
  sizeForDWARF : st.shStrTabSizeForDWARF = st₀.shStrTabSizeForDWARF
  good : st.shStrTab.Good
  contents : st.shStrTab.contents = layout job.sectionNames

section ReadyToWrite

variable {job : ElfJob} {st₀ st st' : ElfState}

/-- The area list of the second pass: areas made for DWARF sections, to be skipped, then the areas
of the job, with their section numbers. -/
theorem ReadyToWrite.areas_eq (h : ReadyToWrite job st₀ st) :
    ∃ new, st.areas = new ++ job.areas
      ∧ (∀ id ∈ new, (st.table.sym id).area.isDWARF = true)
      ∧ AreasKept job.table st.table job.areas ∧ AreasNumbered job.table st.table 3 job.areas := by
  obtain ⟨st₁, htable₁, hareas₁, hadded⟩ := h.named.areasAdded
  obtain ⟨new, hnew, hnew_lt⟩ := hadded.areas
  have hsize₁ : st₁.table.heap.size = job.table.heap.size := by
    rw [htable₁]
    exact numberAreas_size _ _ _
  -- an area of the job is the numbered one of the first pass, up to its output fields
  have hold : ∀ id ∈ job.areas, (st₁.table.sym id).OutputOnly (st.table.sym id) := by
    intro id hid
    have hlt : id < st₁.table.heap.size := hsize₁ ▸ job.areas_lt id hid
    have := h.table.sym id
    rwa [hadded.old id hlt] at this
  refine ⟨new, by rw [h.areas, hnew, hareas₁], fun id hid => ?_, fun id hid => ?_, ?_⟩
  · obtain ⟨_, _, heq⟩ := h.table.sym id
    rw [heq]
    exact (hadded.new id (hnew_lt id hid).1 (hnew_lt id hid).2).2
  · obtain ⟨_, _, heq⟩ := hold id hid
    obtain ⟨_, hnum⟩ := numberAreas_sym job.table 3 job.areas id
    rw [heq, htable₁, hnum]
    exact ⟨rfl, rfl, job.areas_notDWARF id hid⟩
  · have hnum := numberAreas_numbered (rfl : areaSectionNames job.table = _) (fun _ => rfl) 3
      job.areas_nodup
    refine hnum.congr fun id hid => ?_
    obtain ⟨_, _, heq⟩ := hold id hid
    rw [heq, htable₁]

private theorem scnNameIdx_shStrTab (h : ReadyToWrite job st₀ st) (o : Nat) :
    (if job.writesDWARF then BitVec.ofNat 32 o + st.shStrTabSizeForDWARF else BitVec.ofNat 32 o)
      = BitVec.ofNat 32 (o + (layout job.dwarfNames).length) := by
  rw [h.sizeForDWARF, h.named.sizeForDWARF]
  unfold ElfJob.dwarfNames
  split
  · rw [← BitVec.ofNat_add]
  · rfl

private theorem ReadyToWrite.length_scns (h : ReadyToWrite job st₀ st) :
    st.scns.length = 4 + (job.areas.flatMap (areaSectionNames job.table)).length
      + job.dwarfNames.length := by
  obtain ⟨front, dwarf, last, hscns, hfront, hdwarf⟩ := h.named.scns
  have := length_of_map_shName hdwarf
  rw [h.scns, hscns]
  simp only [List.length_append, List.length_cons, List.length_nil]
  omega

/-- **The steps of the second pass**: `.symtab`, `.strtab`, the areas of the job and `.shstrtab`. The
final assertion bounds the name table. -/
theorem writeScns_inv {symOut : SymbolOut} (h : ReadyToWrite job st₀ st)
    (hok : writeScns job symOut st = .ok st') :
    (layout job.sectionNames).length < 2 ^ 32 ∧ ∃ s₁ s₂ s₃ s₄,
      writeScn (st, BitVec.ofNat 32 1) 1 (symTabScn symOut) (cstr ".symtab").length = .ok s₁
      ∧ writeScn s₁ 2 (strTabScn symOut.strData) (cstr ".strtab").length = .ok s₂
      ∧ job.areas.foldlM (writeAreaScn job.areaEntrySymbol) s₂ = .ok s₃
      ∧ writeScn (s₃.1, if job.writesDWARF then s₃.2 + st.shStrTabSizeForDWARF else s₃.2)
          (st.scns.length - 1) (strTabScn st.shStrTab.contents) (cstr ".shstrtab").length = .ok s₄
      ∧ s₂.1.table = st.table ∧ st' = s₄.1 := by
  obtain ⟨new, hareas, hnew, -⟩ := h.areas_eq
  simp only [writeScns, except_bind_eq_ok] at hok
  obtain ⟨s₁, h₁, s₂, h₂, s₃, h₃, s₄, h₄, _, hassert, hst'⟩ := hok
  cases hst'
  have hareas₂ : s₂.1.areas = new ++ job.areas := by
    rw [writeScn_frame h₂, writeScn_frame h₁, ← hareas]
  have htable₂ : s₂.1.table = st.table := by rw [writeScn_frame h₂, writeScn_frame h₁]
  rw [hareas₂, List.foldlM_append, except_bind_eq_ok] at h₃
  obtain ⟨s₂', hskip, h₃⟩ := h₃
  rw [writeAreaScns_dwarf s₂ (htable₂ ▸ hnew)] at hskip
  cases hskip
  have hsize₃ : s₃.1.shStrTabSizeForDWARF = st.shStrTabSizeForDWARF := by
    rw [writeAreaScns_frame h₃, writeScn_frame h₂, writeScn_frame h₁]
  rw [hsize₃] at h₄
  refine ⟨?_, s₁, s₂, s₃, s₄, h₁, h₂, h₃, h₄, htable₂, rfl⟩
  have hidx₄ : (s₄.2).toNat = s₄.1.shStrTab.idx := by simpa using hassert
  have hsh : s₄.1.shStrTab = st.shStrTab := by
    rw [writeScn_frame h₄, writeAreaScns_frame h₃, writeScn_frame h₂, writeScn_frame h₁]
  have := s₄.2.isLt
  rwa [hidx₄, hsh, ← h.good.contents_length, h.contents] at this

private theorem sectionNames_eq (job : ElfJob) :
    job.sectionNames = [[]] ++ (([cstr ".symtab"] ++ ([cstr ".strtab"]
      ++ job.areas.flatMap (areaSectionNames job.table)))
      ++ (job.dwarfNames ++ [cstr ".shstrtab"])) := by
  simp only [ElfJob.sectionNames, List.append_assoc, List.cons_append, List.nil_append]

private theorem length_areaNames_le (job : ElfJob)
    (hlt : (layout job.sectionNames).length < 2 ^ 32) :
    3 + (job.areas.flatMap (areaSectionNames job.table)).length ≤ 2 ^ 32 := by
  have hcount := length_le_layout_length job.sectionNames
  have hnames := congrArg List.length (sectionNames_eq job)
  simp only [List.length_append, List.length_cons, List.length_nil] at hnames
  omega

/-- **The second pass.** Section `i` gets the offset of name `i`, and `.shstrtab`, the last
section, the contents of the buffer. -/
theorem writeScns_shName {symOut : SymbolOut} (h : ReadyToWrite job st₀ st)
    (hok : writeScns job symOut st = .ok st') :
    (layout job.sectionNames).length < 2 ^ 32
      ∧ st'.scns.map ElfScn.shName = (nameOffsets 0 job.sectionNames).map (BitVec.ofNat 32)
      ∧ ∃ scn, st'.scns.getLast? = some scn ∧ scn.dBuf = .bytes (layout job.sectionNames)
        ∧ scn.dSize = (layout job.sectionNames).length := by
  obtain ⟨-, -, -, hkept, hnum⟩ := h.areas_eq
  obtain ⟨hlt, s₁, s₂, s₃, s₄, h₁, h₂, h₃, h₄, htable₂, rfl⟩ := writeScns_inv h hok
  have harealt := length_areaNames_le job hlt
  have hnames := sectionNames_eq job
  set areaNames := job.areas.flatMap (areaSectionNames job.table) with hareaNames
  -- .symtab, .strtab and the areas are filled one after the other, from section 1 and name 1 on
  obtain ⟨hw₁, hidx₁⟩ := writeScn_wrote (cstr ".symtab") (fun _ _ => rfl) h₁
  rw [← Prod.eta s₁, hidx₁] at h₂
  obtain ⟨hw₂, hidx₂⟩ := writeScn_wrote (cstr ".strtab") (fun _ _ => rfl) h₂
  rw [← Prod.eta s₂, hidx₂] at h₃
  obtain ⟨hw₃, hidx₃⟩ := writeAreaScns_wrote (htable₂ ▸ hkept)
    (htable₂ ▸ hnum) (by rw [← hareaNames]; exact harealt) h₃
  rw [← hareaNames] at hw₃ hidx₃
  obtain ⟨front, dwarf, last, hscns, hfront, hdwarf⟩ := h.named.scns
  rw [← h.scns] at hscns
  rw [← hareaNames] at hfront hdwarf
  obtain ⟨front', hscns₃, hnames₃⟩ := hw₁.append (hw₂.append hw₃) [{}] front (dwarf ++ [last]) hscns
    rfl (by rw [hfront]; simp; omega)
  have hfront' := length_of_map_shName hnames₃
  -- .shstrtab is the last section; its name follows those of the DWARF sections
  rw [hidx₃, scnNameIdx_shStrTab h] at h₄
  have hlast : st.scns.length - 1 = ([({} : ElfScn)] ++ (front' ++ dwarf)).length := by
    rw [hscns]
    simp only [List.length_append, List.length_cons, List.length_nil] at hfront' ⊢
    omega
  have hscns₄' : s₃.1.scns = ([({} : ElfScn)] ++ (front' ++ dwarf)) ++ [last] := by
    rw [hscns₃]
    simp only [List.append_assoc]
  have hscns₄ := writeScn_last hscns₄' hlast h₄
  have hsymTab : (layout [cstr ".symtab"]).length = 8 := by decide
  have hstrTab : (layout [cstr ".strtab"]).length = 8 := by decide
  refine ⟨hlt, ?_, _, by rw [hscns₄, List.getLast?_concat], ?_, ?_⟩
  · have hzero : 0 + (layout [[]]).length = 1 := by decide
    have hfrontLen : 1 + (layout ([cstr ".symtab"] ++ ([cstr ".strtab"] ++ areaNames))).length
        = 17 + (layout areaNames).length := by
      rw [layout_append, layout_append, List.length_append, List.length_append, hsymTab, hstrTab]
      omega
    have hlastOff : 1 + 8 + 8 + (layout areaNames).length = 17 + (layout areaNames).length := by
      omega
    rw [hscns₄, hnames, nameOffsets_append 0, hzero, nameOffsets_append 1,
      hfrontLen, nameOffsets_append (17 + _), hsymTab, hstrTab, hlastOff]
    simp only [List.map_append, hnames₃, hdwarf, List.append_assoc]
    rfl
  · rw [strTabScn, h.contents]
  · rw [strTabScn, h.contents]

theorem writeScns_symTab {symOut : SymbolOut} (h : ReadyToWrite job st₀ st)
    (hok : writeScns job symOut st = .ok st') :
    ∃ scn, st'.scns[1]? = some (symTabScn symOut 1 scn) := by
  obtain ⟨-, -, -, hkept, hnum⟩ := h.areas_eq
  obtain ⟨hlt, s₁, s₂, s₃, s₄, h₁, h₂, h₃, h₄, htable₂, rfl⟩ := writeScns_inv h hok
  have hlen := h.length_scns
  obtain ⟨hw₁, hidx₁⟩ := writeScn_wrote (cstr ".symtab") (fun _ _ => rfl) h₁
  obtain ⟨hlen₁, -⟩ := hw₁.frame (by simp only [List.length_singleton]; omega)
  have hscn₁ : ∃ scn, s₁.1.scns[1]? = some (symTabScn symOut 1 scn) := by
    unfold writeScn ElfState.setScn at h₁
    split at h₁
    next hlt₁ =>
      cases h₁
      exact ⟨st.scns[1], by simp [List.getElem?_eq_getElem hlt₁]⟩
    · cases h₁
  -- no later step fills a section below 2
  rw [← Prod.eta s₁, hidx₁] at h₂
  obtain ⟨hw₂, hidx₂⟩ := writeScn_wrote (cstr ".strtab") (fun _ _ => rfl) h₂
  rw [← Prod.eta s₂, hidx₂] at h₃
  obtain ⟨hw₃, hidx₃⟩ := writeAreaScns_wrote (htable₂ ▸ hkept)
    (htable₂ ▸ hnum) (length_areaNames_le job hlt) h₃
  obtain ⟨hlen₃, hkeep₃⟩ := (hw₂.append hw₃).frame
    (by simp only [List.length_append, List.length_singleton]; omega)
  rw [hidx₃, scnNameIdx_shStrTab h] at h₄
  obtain ⟨hw₄, -⟩ := writeScn_wrote (cstr ".shstrtab") (fun _ _ => rfl) h₄
  obtain ⟨-, hkeep₄⟩ := hw₄.frame (by simp only [List.length_singleton]; omega)
  rw [hkeep₄ 1 (by omega), hkeep₃ 1 (by omega)]
  exact hscn₁

end ReadyToWrite

theorem writeScns_diags {job : ElfJob} {symOut : SymbolOut} {st st' : ElfState}
    (h : writeScns job symOut st = .ok st') : st'.diags = st.diags := by
  simp only [writeScns, except_bind_eq_ok] at h
  obtain ⟨s₁, h₁, s₂, h₂, s₃, h₃, s₄, h₄, _, -, hst'⟩ := h
  cases hst'
  rw [writeScn_frame h₄, writeAreaScns_frame h₃, writeScn_frame h₂, writeScn_frame h₁]

/-! ### The file -/

private theorem writeScn_ne_outOfBounds (s : ElfState × BitVec 32) (p n : Nat)
    (hdr : BitVec 32 → ElfScn → ElfScn) : writeScn s p hdr n ≠ .error .outOfBounds := by
  unfold writeScn ElfState.setScn
  split <;> simp [bind, Except.bind, pure, Except.pure]

private theorem bind_ne_outOfBounds {α β : Type} {x : Except Fault α} {f : α → Except Fault β}
    (hx : x ≠ .error .outOfBounds) (hf : ∀ a, f a ≠ .error .outOfBounds) :
    x >>= f ≠ .error .outOfBounds := by
  cases x with
  | ok a => exact hf a
  | error e => exact fun h => hx (by cases h; rfl)

private theorem writeAreaScns_ne_outOfBounds (entry : Option SymId) (ids : List SymId)
    (s : ElfState × BitVec 32) : ids.foldlM (writeAreaScn entry) s ≠ .error .outOfBounds := by
  induction ids generalizing s with
  | nil => simp [pure, Except.pure]
  | cons id ids ih =>
    rw [List.foldlM_cons]
    refine bind_ne_outOfBounds ?_ ih
    unfold writeAreaScn
    simp only
    split
    · simp
    · refine bind_ne_outOfBounds (writeScn_ne_outOfBounds _ _ _ _) fun s₁ => ?_
      split
      · simp [pure, Except.pure]
      · exact bind_ne_outOfBounds (orStopped_ne_outOfBounds _)
          fun _ => writeScn_ne_outOfBounds _ _ _ _

theorem writeScns_ne_outOfBounds (job : ElfJob) (symOut : SymbolOut) (st : ElfState) :
    writeScns job symOut st ≠ .error .outOfBounds := by
  unfold writeScns
  refine bind_ne_outOfBounds (writeScn_ne_outOfBounds _ _ _ _) fun s₁ => ?_
  refine bind_ne_outOfBounds (writeScn_ne_outOfBounds _ _ _ _) fun s₂ => ?_
  refine bind_ne_outOfBounds (writeAreaScns_ne_outOfBounds _ _ _) fun s₃ => ?_
  refine bind_ne_outOfBounds (writeScn_ne_outOfBounds _ _ _ _) fun s₄ => ?_
  refine bind_ne_outOfBounds (orStopped_ne_outOfBounds _) fun _ => ?_
  simp [pure, Except.pure]

/-- **Sections are named.** The section `.shstrtab` refers to is as long as its data, and the data
has at the name offset of each section the name of that section, NUL terminated. -/
structure ElfFile.NamesSections (file : ElfFile) (names : List Name) : Prop where
  count : file.scns.length = names.length
  shStrTab : ∃ strTab contents, file.scns[file.shStrNdx]? = some strTab
    ∧ strTab.dBuf = .bytes contents ∧ strTab.dSize = contents.length
    ∧ ∀ (i : Nat) (scn : ElfScn) (name : Name), file.scns[i]? = some scn → names[i]? = some name →
        IsNameAt contents scn.shName.toNat name

/-- **The section names of a run of `Output_ELF`** are right: it writes nothing out of bounds, and
in the file it writes every section is named. -/
def ElfJob.SectionsNamed (job : ElfJob) : Prop :=
  outputELF job ≠ .error .outOfBounds
    ∧ ∀ file, outputELF job = .ok file → file.NamesSections job.sectionNames

theorem outputNamedScns_ne_outOfBounds (job : ElfJob) (st : ElfState) :
    outputNamedScns job st ≠ .error .outOfBounds := by
  unfold outputNamedScns
  refine bind_ne_outOfBounds (orStopped_ne_outOfBounds _) fun r => ?_
  refine bind_ne_outOfBounds (writeScns_ne_outOfBounds _ _ _) fun st' => ?_
  simp [pure, Except.pure]

theorem outputNamedScns_inv {job : ElfJob} {st : ElfState} {file : ElfFile}
    (h : outputNamedScns job st = .ok file) :
    ∃ table diags st',
      symbolCreateSymbolOut job.options st.table = some (file.symOut, table, diags)
      ∧ writeScns job file.symOut { st with table, diags := st.diags ++ diags } = .ok st'
      ∧ file.scns = st'.scns ∧ file.shStrNdx = st'.scns.length - 1
      ∧ file.diags = st'.diags := by
  unfold outputNamedScns at h
  obtain ⟨⟨symOut, table, diags⟩, hsym, h⟩ := except_bind_eq_ok.mp h
  obtain ⟨st', hwrite, h⟩ := except_bind_eq_ok.mp h
  cases h
  exact ⟨table, diags, st', orStopped_eq_ok.mp hsym, hwrite, rfl, rfl, rfl⟩

theorem outputNamedScns_namesSections {job : ElfJob} {st : ElfState} {file : ElfFile}
    (hnamed : Named job st) (hgood : st.shStrTab.Good)
    (hcontents : st.shStrTab.contents = layout job.sectionNames)
    (h : outputNamedScns job st = .ok file) : file.NamesSections job.sectionNames := by
  obtain ⟨table, diags, st', hsym, hwrite, hscns, hndx, -⟩ := outputNamedScns_inv h
  have htable := symbolCreateSymbolOut_outputOnly hsym
  have hready : ReadyToWrite job st { st with table, diags := st.diags ++ diags } :=
    ⟨hnamed, htable, rfl, rfl, rfl, hgood, hcontents⟩
  obtain ⟨hlt, hnames, strTab, hlast, hbuf, hsize⟩ := writeScns_shName hready hwrite
  rw [← hscns] at hnames hlast hndx
  refine ⟨length_of_map_shName hnames, strTab, _, ?_, hbuf, hsize, ?_⟩
  · rw [← hlast, hndx, List.getLast?_eq_getElem?]
  · intro i scn name hscn hname
    have hoff : (nameOffsets 0 job.sectionNames)[i]?.map (BitVec.ofNat 32) = some scn.shName := by
      rw [← List.getElem?_map, ← hnames, List.getElem?_map, hscn]
      rfl
    obtain ⟨off, hoff, hscnName⟩ := Option.map_eq_some_iff.mp hoff
    -- the offset is inside the table, so it fits the header field
    have hat := isNameAt_layout (show (nameOffsets 0 job.sectionNames)[i]? = some (0 + off) by
      rw [Nat.zero_add]
      exact hoff) hname
    have hofflt : off < 2 ^ 32 := lt_of_le_of_lt hat.offset_le hlt
    rw [← hscnName, BitVec.toNat_ofNat, Nat.mod_eq_of_lt hofflt]
    exact hat

/-- **Section names of ELF files.** The section names of a run are right exactly when one growth of
the `.shstrtab` buffer is enough for each string added to it. -/
theorem outputELF_sectionsNamed_iff (job : ElfJob) :
    job.SectionsNamed ↔ AllSuffice shstrtabGrow 0 (job.namePieces.map List.length) := by
  have hrun := nameScns_runAdds job
  unfold ElfJob.SectionsNamed
  cases hname : nameScns job with
  | error e =>
    -- the first pass ran out of bounds
    rw [hname] at hrun
    cases hrun with
    | overflows hnot => exact iff_of_false (fun h => h.1 (by rw [outputELF, hname, except_error_bind])) hnot
  | ok st =>
    have hrest : outputELF job = outputNamedScns job st := by
      rw [outputELF, hname, except_ok_bind]
    rw [hrest]
    rw [hname] at hrun
    cases hrun with
    | fits _ hfit hgood hcontents hnamed =>
      refine iff_of_true ⟨outputNamedScns_ne_outOfBounds job st, fun file hfile => ?_⟩ hfit
      refine outputNamedScns_namesSections hnamed hgood ?_ hfile
      rw [← job.namePieces_flatten]
      exact hcontents

theorem nodup_oneArea : [(0 : SymId)].Nodup := List.nodup_singleton 0

def longNameJob : ElfJob where
  options := { optionAof := false }
  optionDebug := false
  table := ⟨.ofList [{ str := List.replicate 79 0x61, type := symbolArea, value := .int 0 .pureInt }],
    fun b => if b = 5 then [0] else []⟩
  areas := [0]
  areaEntrySymbol := none
  areaEntryOffset := 0
  dwarf := []
  not_aof := rfl
  areas_nodup := nodup_oneArea
  areas_lt := by decide
  symbols_lt := by decide +kernel
  areas_notDWARF := by decide

theorem longNameJob_not_sectionsNamed : ¬ longNameJob.SectionsNamed :=
  fun h => h.1 (by decide)

end Asasm
