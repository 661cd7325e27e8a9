import Gccsdk.Asasm.ShStrTab
import Gccsdk.Asasm.SymbolOut

/-!
# Writing an ELF object file

`Output_ELF` of `output.c` with the section creation callback of `debug_dwarf.c`. The function makes
two passes over the areas. The first (`nameScns`) creates the section headers and fills the
`.shstrtab` buffer; the second (`writeScns`) fills the headers, counting along in `scnNameIdx` which
name offset comes next. `libelf` keeps the headers; here they are the list `ElfState.scns`, in which
a section index is a position. What `libdwarf` decides, the sections it asks for, is an input
(`ElfJob.dwarf`).
-/

namespace Asasm

/-- How a run of the output stage can fail to produce a file. -/
inductive Fault
  /-- A `memcpy` past the end of its allocation. -/
  | outOfBounds
  | stopped
  deriving DecidableEq, Repr

/-- The fatal ends of an `Option` computation. -/
def orStopped {α : Type} : Option α → Except Fault α
  | some a => .ok a
  | none => .error .stopped

@[simp] theorem orStopped_eq_ok {α : Type} {x : Option α} {a : α} :
    orStopped x = .ok a ↔ x = some a := by
  cases x <;> simp [orStopped]

theorem orStopped_ne_outOfBounds {α : Type} (x : Option α) :
    orStopped x ≠ .error .outOfBounds := by
  cases x <;> simp [orStopped]

/-! ### Sections -/

structure Elf32Rel where
  offset : BitVec 32
  info : BitVec 32
  deriving DecidableEq, Repr

/-- The data linked to a section, the `d_buf` of its `Elf_Data`. -/
inductive ScnBuf
  | null
  | bytes (data : List UInt8)
  | symbols (data : SymData)
  | image (area : SymId)
  | relocs (data : List Elf32Rel)
  deriving DecidableEq, Repr

/-- A section: its `Elf32_Shdr` and `Elf_Data`. -/
structure ElfScn where
  shName : BitVec 32 := 0
  shType : BitVec 32 := 0
  shFlags : BitVec 32 := 0
  shLink : BitVec 32 := 0
  shInfo : BitVec 32 := 0
  shEntSize : BitVec 32 := 0
  dAlign : Nat := 0
  dSize : Nat := 0
  dBuf : ScnBuf := .null
  deriving DecidableEq, Repr, Inhabited

def shtProgBits : BitVec 32 := 1
def shtSymTab : BitVec 32 := 2
def shtStrTab : BitVec 32 := 3
def shtNoBits : BitVec 32 := 8
def shtRel : BitVec 32 := 9
def shfWrite : BitVec 32 := 1
def shfAlloc : BitVec 32 := 2
def shfExecInstr : BitVec 32 := 4
def shfEntrySect : BitVec 32 := 0x10000000
def shfComDef : BitVec 32 := 0x80000000

/-! ### What is to be written -/

/-- `strncmp (name, ".rel.debug_", ..) == 0`. -/
def isRelocSection (name : Name) : Bool := (cstr ".rel.debug_").isPrefixOf name

/-- `strncmp (name, ".debug_", ..) == 0`, asserted by `Area_CreateDWARF`. -/
def isDebugSection (name : Name) : Bool := (cstr ".debug_").isPrefixOf name

/-- A section `libdwarf` asks for, one call of `DWARF_Callback_CreateSection`. -/
structure DwarfScn where
  name : Name
  size : BitVec 32 := 0
  type : BitVec 32 := 0
  flags : BitVec 32 := 0
  link : BitVec 32 := 0
  info : BitVec 32 := 0
  /-- `libdwarf` names its sections `.debug_*` and `.rel.debug_*`. -/
  named : isRelocSection name ∨ isDebugSection name

/-- **The state `Output_ELF` is called in.** -/
structure ElfJob where
  options : SymbolOptions
  optionDebug : Bool
  table : SymbolTable
  /-- The area symbols, in the order of the list at `areaHeadSymbol`. -/
  areas : List SymId
  areaEntrySymbol : Option SymId
  areaEntryOffset : BitVec 32
  /-- The sections `libdwarf` asks for when debug data is written. -/
  dwarf : List DwarfScn
  /-- `Output_ELF` is the output function for `!option_aof`. -/
  not_aof : options.optionAof = false
  areas_nodup : areas.Nodup
  areas_lt : ∀ id ∈ areas, id < table.heap.size
  symbols_lt : ∀ id ∈ table.allSymbols, id < table.heap.size
  /-- The `AREA` directive never sets `AREA_INT_DWARF`. -/
  areas_notDWARF : ∀ id ∈ areas, (table.sym id).area.isDWARF = false

/-! ### First pass: create the sections, fill .shstrtab -/

/-- The variables of `Output_ELF`. -/
structure ElfState where
  scns : List ElfScn
  shStrTab : ShStrTab
  table : SymbolTable
  areas : List SymId
  shStrTabSizeForDWARF : BitVec 32
  diags : List Diag

namespace ElfState

/-- `elf_newscn`; the index of the new section is the number of those before it. -/
def newScn (st : ElfState) (scn : ElfScn) : ElfState := { st with scns := st.scns ++ [scn] }

/-- `shstrtab_add`. -/
def addName (st : ElfState) (str : List UInt8) : Except Fault ElfState :=
  match shstrtabAdd st.shStrTab str with
  | some shStrTab => .ok { st with shStrTab }
  | none => .error .outOfBounds

/-- Write access to the section `elf_getscn` finds. -/
def setScn (st : ElfState) (idx : Nat) (f : ElfScn → ElfScn) : Except Fault ElfState :=
  if idx < st.scns.length then .ok { st with scns := st.scns.modify idx f } else .error .stopped

end ElfState

/-- What is written before an area name to make the name of its relocation section: `.rel`, and a
dot when the area name brings none. -/
def relPrefix (str : Name) : Name := if str.head? = some 0x2E then cstr ".rel" else cstr ".rel."

def Symbol.setAreaNumber (number : BitVec 32) (sym : Symbol) : Symbol :=
  { sym with area := { sym.area with number } }

def ElfState.newAreaScn (st : ElfState) (id : SymId) : ElfState :=
  { st with
    scns := st.scns ++ [{}]
    table := st.table.modify id (Symbol.setAreaNumber (BitVec.ofNat 32 st.scns.length)) }

def nameAreaScn (st : ElfState) (id : SymId) : Except Fault ElfState :=
  let ap := st.table.sym id
  if ap.isImplicit then .ok st
  else do
    let st ← (st.newAreaScn id).addName (ap.str ++ [0])
    if ap.area.reloc.isEmpty then .ok st
    else do
      let st ← (st.newScn {}).addName (relPrefix ap.str)
      st.addName (ap.str ++ [0])

def areaCreateDWARF (st : ElfState) (name : Name) (scnIdx : BitVec 32) : Except Fault ElfState := do
  orStopped (assert (isDebugSection name))
  match st.table.find name with
  | some _ =>
    pure { st with
      diags := st.diags ++
        [⟨.error, "DWARF section has same name as an existing area or symbol", []⟩] }
  | none =>
    let (table, id) := st.table.get name
    let table := table.modify id fun s => { s with
      type := symbolArea, value := .int 0 .pureInt
      area := { type := areaIntDwarf, number := scnIdx } }
    pure { st with table, areas := id :: st.areas }

/-- The header `DWARF_Callback_CreateSection` makes. -/
def dwarfScnHdr (st : ElfState) (d : DwarfScn) : ElfScn where
  shName := BitVec.ofNat 32 st.shStrTab.idx
  shType := d.type
  shFlags := d.flags
  shLink := if isRelocSection d.name then 1 else d.link
  shInfo := d.info
  shEntSize := if isRelocSection d.name then 8 else 0
  dAlign := 1
  dSize := d.size.toNat

/-- Count the name of a section in `shStrTabSizeForDWARF`. -/
def ElfState.countDWARF (st : ElfState) (d : DwarfScn) : ElfState :=
  { st with
    shStrTabSizeForDWARF := st.shStrTabSizeForDWARF + BitVec.ofNat 32 (d.name.length + 1) }

/-- `DWARF_Callback_CreateSection`. -/
def dwarfCreateSection (st : ElfState) (d : DwarfScn) : Except Fault ElfState := do
  let scnIdx := BitVec.ofNat 32 st.scns.length
  let st ← (st.newScn (dwarfScnHdr st d)).addName (d.name ++ [0])
  let st := st.countDWARF d
  if isRelocSection d.name then pure st else areaCreateDWARF st d.name scnIdx

def ElfJob.atLeastOneArea (job : ElfJob) : Bool :=
  job.areas.any fun id => !(job.table.sym id).isImplicit

def ElfJob.writesDWARF (job : ElfJob) : Bool := job.optionDebug && job.atLeastOneArea

/-- `DWARF_CreateAreasAndSections`, when DWARF data is written. -/
def dwarfCreateAreasAndSections (job : ElfJob) (st : ElfState) : Except Fault ElfState :=
  if job.writesDWARF then job.dwarf.foldlM dwarfCreateSection st else .ok st

/-- **The first half of `Output_ELF`**, up to the `.shstrtab` section: sections 0, `.symtab` and
`.strtab`, those of the areas, those of DWARF, `.shstrtab`. -/
def nameScns (job : ElfJob) : Except Fault ElfState := do
  let st : ElfState := ⟨[{}], .initValue, job.table, job.areas, 0, []⟩
  let st ← st.addName [0]
  let st := (st.newScn {}).newScn {}
  let st ← st.addName (cstr ".symtab" ++ [0] ++ (cstr ".strtab" ++ [0]))
  let st ← job.areas.foldlM nameAreaScn st
  let st ← dwarfCreateAreasAndSections job st
  (st.newScn {}).addName (cstr ".shstrtab" ++ [0])

/-! ### Second pass: fill the section headers -/

/-- `FIX`: the next multiple of 4. -/
def fix4 (n : BitVec 32) : BitVec 32 := (3 + n) &&& ~~~3

def areaScn (areaEntrySymbol : Option SymId) (id : SymId) (area : Area) (shName : BitVec 32)
    (scn : ElfScn) : ElfScn :=
  { scn with
    shName
    shType := if area.isNoInit then shtNoBits else shtProgBits
    shFlags := (if isSet area.type areaCode then shfExecInstr else 0)
      ||| (if isSet area.type areaReadOnly then 0 else shfWrite)
      ||| (if isSet area.type areaCommonDef then shfComDef else 0)
      ||| (if areaEntrySymbol = some id then shfEntrySect else 0)
      ||| shfAlloc
    dAlign := 2 ^ (area.type &&& areaAlignMask).toNat
    dSize := (fix4 area.maxIdx).toNat
    dBuf := .image id }

/-- `Reloc_GetRawRelocData`, for ELF. -/
def relocGetRawRelocData (table : SymbolTable) (relocs : List RelocInt) :
    Option (List Elf32Rel) :=
  relocs.mapM fun reloc => do
    let used := reloc.symP.elim 0 fun id => (table.sym id).used
    assert (0 ≤ used && used < 0x1000000)
    pure ⟨reloc.offset, BitVec.ofInt 32 used <<< 8 ||| (reloc.how &&& 0xFF)⟩

def areaRelScn (area : Area) (data : List Elf32Rel) (shName : BitVec 32) (scn : ElfScn) : ElfScn :=
  { scn with
    shName
    shType := shtRel
    shLink := 1
    shInfo := area.number
    shEntSize := 8
    dAlign := 4
    dSize := 8 * data.length
    dBuf := .relocs data }

/-- Fill the section at index `scnIdx`, and count its name, of length `nameLen`, in `scnNameIdx`. -/
def writeScn (s : ElfState × BitVec 32) (scnIdx : Nat) (hdr : BitVec 32 → ElfScn → ElfScn)
    (nameLen : Nat) : Except Fault (ElfState × BitVec 32) := do
  let st ← s.1.setScn scnIdx (hdr s.2)
  pure (st, s.2 + BitVec.ofNat 32 (nameLen + 1))

def writeAreaScn (areaEntrySymbol : Option SymId) (s : ElfState × BitVec 32) (id : SymId) :
    Except Fault (ElfState × BitVec 32) :=
  let ap := s.1.table.sym id
  -- skip the implicit area and the areas made for DWARF sections
  if ap.isImplicit || ap.area.isDWARF then .ok s
  else do
    let s ← writeScn s ap.area.number.toNat (areaScn areaEntrySymbol id ap.area) ap.len
    if ap.area.reloc.isEmpty then pure s
    else do
      let data ← orStopped (relocGetRawRelocData s.1.table ap.area.reloc)
      writeScn s (ap.area.number + 1).toNat (areaRelScn ap.area data)
        ((relPrefix ap.str).length + ap.len)

/-- The `.symtab` header and data; `sh_info` is the index of the first global symbol. -/
def symTabScn (symOut : SymbolOut) (shName : BitVec 32) (scn : ElfScn) : ElfScn :=
  { scn with
    shName
    shType := shtSymTab
    shLink := 2
    shInfo := BitVec.ofNat 32 symOut.numLocalSymbols
    shEntSize := 16
    dAlign := 4
    dSize := 16 * symOut.numAllSymbols
    dBuf := .symbols symOut.symData }

def strTabScn (data : List UInt8) (shName : BitVec 32) (scn : ElfScn) : ElfScn :=
  { scn with
    shName, shType := shtStrTab, dAlign := 1, dSize := data.length, dBuf := .bytes data }

/-- **The second half of `Output_ELF`**: the headers of all sections but DWARF's. -/
def writeScns (job : ElfJob) (symOut : SymbolOut) (st : ElfState) : Except Fault ElfState := do
  let s ← writeScn (st, 1) 1 (symTabScn symOut) 7
  let s ← writeScn s 2 (strTabScn symOut.strData) 7
  let s ← s.1.areas.foldlM (writeAreaScn job.areaEntrySymbol) s
  let scnNameIdx := if job.writesDWARF then s.2 + s.1.shStrTabSizeForDWARF else s.2
  let s ← writeScn (s.1, scnNameIdx) (st.scns.length - 1) (strTabScn st.shStrTab.contents) 9
  orStopped (assert (s.2.toNat == s.1.shStrTab.idx))
  pure s.1

structure ElfFile where
  eEntry : BitVec 32
  shStrNdx : Nat
  scns : List ElfScn
  symOut : SymbolOut
  diags : List Diag
  deriving DecidableEq, Repr

/-- What `Output_ELF` does once the sections are named: the symbol table, then the second pass. -/
def outputNamedScns (job : ElfJob) (st : ElfState) : Except Fault ElfFile := do
  let (symOut, table, diags) ← orStopped (symbolCreateSymbolOut job.options st.table)
  let st ← writeScns job symOut { st with table, diags := st.diags ++ diags }
  pure {
    eEntry := if job.areaEntrySymbol.isSome then job.areaEntryOffset else 0
    shStrNdx := st.scns.length - 1
    scns := st.scns
    symOut
    diags := st.diags }

/-- **`Output_ELF`.** -/
def outputELF (job : ElfJob) : Except Fault ElfFile := nameScns job >>= outputNamedScns job

end Asasm
