import Gccsdk.Asasm.OutputELF

/-!
# Writing an AOF object file

`Output_AOF` of `output.c`: a chunk file of five chunks, the header with an entry for each area, the identification,
the string table, the symbol table, and the data of the areas with their relocations. The implicit area is not
written. Writing does not fail: where it does, the program ends.
-/

namespace Asasm

/-- `AREA_INT_AOFMASK`: the area attributes that are written. -/
def areaIntAofMask : BitVec 32 := 0x8F7FFFFF

def how2Init : BitVec 32 := 0x80000000
def how2Symbol : BitVec 32 := 0x08000000
def how2SidMask : BitVec 32 := 0x00FFFFFF

def chunkFileID : BitVec 32 := 0xC3CBC6C5
def chunkIdObj : BitVec 32 := 0x5F4A424F
def chunkIdObjHead : BitVec 32 := 0x44414548
def chunkIdObjArea : BitVec 32 := 0x41455241
def chunkIdObjIdfn : BitVec 32 := 0x4E464449
def chunkIdObjSymt : BitVec 32 := 0x544D5953
def chunkIdObjStrt : BitVec 32 := 0x54525453
def aofHeaderID : BitVec 32 := 0xC5E2D080

/-- **The state `Output_AOF` is called in.** -/
structure AofJob where
  options : SymbolOptions
  table : SymbolTable
  /-- The area symbols, in the order of the list at `areaHeadSymbol`. -/
  areas : List SymId
  image : SymId → List UInt8
  areaEntrySymbol : Option SymId
  areaEntryOffset : BitVec 32
  /-- `GET_IDFN`, -/
  idfn : Name
  /-- and what is in memory behind its NUL. -/
  behindIdfn : List UInt8
  /-- What is in an entry of the symbol table that is left unwritten (but for its name). -/
  unwritten : ℕ → AofSymbol
  /-- `Output_AOF` is the output function for `option_aof`. -/
  aof : options.optionAof = true
  symbols_nodup : table.allSymbols.Nodup
  offset_zero : ∀ id, (table.sym id).offset = 0
  /-- The list of areas is acyclic, -/
  areas_nodup : areas.Nodup
  /-- and `Area_Create` puts into it all symbols that it makes area symbols. -/
  areas_iff : ∀ id, id ∈ areas ↔ id ∈ table.allSymbols ∧ (table.sym id).isArea = true
  /-- The data of an area reaches to `maxIdx`; there is none with `AREA_UDATA`. -/
  image_length : ∀ id ∈ areas, (table.sym id).area.isNoInit = false →
    (image id).length = (table.sym id).area.maxIdx.toNat
  behindIdfn_length : behindIdfn.length = 3
  names : ∀ id ∈ table.allSymbols, 0 ∉ (table.sym id).str
  /-- `Reloc_CreateAOF` is called with `HOW2_INIT` and without what is added later, for a symbol, -/
  relocs : ∀ id ∈ areas, ∀ reloc ∈ (table.sym id).area.reloc,
    isSet reloc.how how2Init = true ∧ reloc.how &&& (how2SidMask ||| how2Symbol) = 0 ∧
      ∃ s ∈ table.allSymbols, reloc.symP = some s
  /-- and a symbol is relative to one of the table. -/
  relative : ∀ id ∈ table.allSymbols, ∀ a factor offset,
    (table.sym id).value = .symbol a factor offset → a ∈ table.allSymbols

def AofJob.written (job : AofJob) : List SymId := job.areas.filter fun id => !(job.table.sym id).isImplicit

/-! ### The areas -/

def numberAofArea (s : SymbolTable × ℕ) (id : SymId) : SymbolTable × ℕ :=
  if (s.1.sym id).isImplicit then s
  else (s.1.modify id (Symbol.setAreaNumber (BitVec.ofNat 32 s.2)), s.2 + 1)

/-- The first loop: the areas with their numbers, and `numAreas`. -/
def AofJob.numbered (job : AofJob) : SymbolTable × ℕ := job.areas.foldl numberAofArea (job.table, 0)

/-- `Reloc_GetRawRelocSize`, for AOF. -/
def Area.rawRelocSize (area : Area) : ℕ := 8 * area.reloc.length

/-- What the first loop adds to `totalAreaSize`. -/
def Area.aofSize (area : Area) : ℕ :=
  (if area.isNoInit then 0 else (fix4 area.maxIdx).toNat) + area.rawRelocSize

def AofJob.totalAreaSize (job : AofJob) : ℕ := (job.written.map fun id => (job.table.sym id).area.aofSize).sum

/-- The `BaseAddr` of an area. -/
def Symbol.baseAddr (ap : Symbol) : Option (BitVec 32) :=
  if isSet ap.area.type areaAbs then ap.getBaseAddress else some 0

/-- `AofEntry`. -/
def aofAreaEntry (ap : Symbol) : Option (List UInt8) := do
  let base ← ap.baseAddr
  pure (wordBytes ap.offset ++ wordBytes (ap.area.type &&& areaIntAofMask) ++ wordBytes (fix4 ap.area.maxIdx)
    ++ wordBytes (BitVec.ofNat 32 ap.area.reloc.length) ++ wordBytes base)

/-- An entry of `Reloc_GetRawRelocData`, for AOF. -/
def aofReloc (table : SymbolTable) (reloc : RelocInt) : Option (List UInt8) := do
  let symP ← reloc.symP
  let sym := table.sym symP
  assert (0 ≤ sym.used && sym.used ≤ how2SidMask.toNat)
  let how := reloc.how ||| BitVec.ofInt 32 sym.used
  let how := if sym.isArea then how else how ||| how2Symbol
  pure (wordBytes reloc.offset ++ wordBytes how)

/-- The data of an area in the chunk. `EXTRA (n)` zeros follow its image. -/
def aofAreaData (table : SymbolTable) (image : SymId → List UInt8) (id : SymId) : Option (List UInt8) := do
  let area := (table.sym id).area
  let relocs ← area.reloc.mapM (aofReloc table)
  let data := if area.isNoInit then [] else image id ++ List.replicate (fix4 area.maxIdx - area.maxIdx).toNat 0
  pure (data ++ relocs.flatten)

/-! ### The chunks -/

/-- `writeEntry`, the entry. -/
def writeEntry (type : BitVec 32) (size offset : ℕ) : List UInt8 :=
  wordBytes chunkIdObj ++ wordBytes type ++ wordBytes (BitVec.ofNat 32 offset) ++ wordBytes (BitVec.ofNat 32 size)

/-- `AofSymbol`, as it is written. -/
def AofSymbol.bytes (e : AofSymbol) : List UInt8 :=
  wordBytes e.name ++ wordBytes e.type ++ wordBytes e.value ++ wordBytes e.areaName

/-- `FIX`, of a `size_t`. -/
def fixSize (n : ℕ) : ℕ := (3 + n) / 4 * 4

def SymData.aofEntries : SymData → Option (List (Option AofSymbol))
  | .aof entries => some entries
  | .elf _ => none

def aofSymbolBytes (unwritten : ℕ → AofSymbol) (entries : List (Option AofSymbol)) : List UInt8 :=
  (entries.mapIdx fun i e => (e.getD (unwritten i)).bytes).flatten

structure AofFile where
  chunkHeader : List UInt8
  head : List UInt8
  idfn : List UInt8
  strt : List UInt8
  symt : List UInt8
  area : List UInt8
  diags : List Diag

def AofFile.bytes (file : AofFile) : List UInt8 :=
  file.chunkHeader ++ file.head ++ file.idfn ++ file.strt ++ file.symt ++ file.area

def aofChunkHeader (headSize idfnSize strtSize symtSize areaSize : ℕ) : List UInt8 :=
  let offset := 12 + 5 * 16
  wordBytes chunkFileID ++ wordBytes 5 ++ wordBytes 5
    ++ writeEntry chunkIdObjHead headSize offset
    ++ writeEntry chunkIdObjIdfn idfnSize (offset + headSize)
    ++ writeEntry chunkIdObjStrt strtSize (offset + headSize + idfnSize)
    ++ writeEntry chunkIdObjSymt symtSize (offset + headSize + idfnSize + strtSize)
    ++ writeEntry chunkIdObjArea areaSize (offset + headSize + idfnSize + strtSize + symtSize)

/-- The words of `AofHeader`. -/
def aofHeader (job : AofJob) (table : SymbolTable) (numAreas numAllSymbols : ℕ) : List UInt8 :=
  wordBytes aofHeaderID ++ wordBytes 310 ++ wordBytes (BitVec.ofNat 32 numAreas)
    ++ wordBytes (BitVec.ofNat 32 numAllSymbols)
    ++ wordBytes (job.areaEntrySymbol.elim 0 fun id => (table.sym id).area.number + 1)
    ++ wordBytes (job.areaEntrySymbol.elim 0 fun _ => job.areaEntryOffset)

/-- **`Output_AOF`.** -/
def outputAOF (job : AofJob) : Option AofFile := do
  let (table, numAreas) := job.numbered
  let (symOut, table, diags) ← symbolCreateSymbolOut job.options table
  let idfnSize := fixSize (job.idfn.length + 1)
  let strDataSize := BitVec.ofNat 32 symOut.strData.length
  let entries ← job.written.mapM fun id => aofAreaEntry (table.sym id)
  let symData ← symOut.symData.aofEntries
  let areas ← job.written.mapM (aofAreaData table job.image)
  pure {
    chunkHeader := aofChunkHeader (24 + numAreas * 20) idfnSize (fix4 strDataSize).toNat
      (symOut.numAllSymbols * 16) job.totalAreaSize
    head := aofHeader job table numAreas symOut.numAllSymbols ++ entries.flatten
    idfn := (job.idfn ++ 0 :: job.behindIdfn).take idfnSize
    strt := symOut.strData ++ List.replicate (fix4 strDataSize - strDataSize).toNat 0
    symt := aofSymbolBytes job.unwritten symData
    area := areas.flatten
    diags }

end Asasm
