import Gccsdk.Decaof.Decode
import Gccsdk.Lib.CheckedRun

/-!
# The tables of decaof

`decode`, with the tables that it allocates: the entries of the chunk file, the strings, the symbols, the
identification, and the header of the AOF file with the headers of the areas. Every table has the size that it is
allocated with, and holds what the memory held before (`Former`) where nothing is written. A run that leaves a table, or
prints a string that does not end in its table, is not safe.

`decode_safe_iff` says exactly when decaof is safe (`InTables`). The tables are not bound to agree: the entries are
counted by `numchunks` but allocated by `maxchunks`, the strings have two sizes, a symbol that a relocation names
is compared with the size of the symbols in bytes, and no string but those of the assembler needs to end.

What is printed is put together by the functions of `Decode`. All options are here but `-g`, which nothing reads.
`size_t` has 64 bits. Memory is there, and errors in reading do not happen.
-/

namespace Decaof.Tables

open TokenReader CheckedRun

/-- The options of decaof. -/
structure Options where
  print_ident : Bool
  print_area_contents : Bool
  print_area_dec : Bool
  print_reloc_dir : Bool
  print_symtab : Bool
  print_strtab : Bool

structure Former where
  chunkEntries : ℕ → UInt8
  stringTable : ℕ → UInt8
  identString : ℕ → UInt8
  aofHdr : ℕ → UInt8
  symbolTable : ℕ → UInt8

def bytesAt (memory : ℕ → UInt8) (pos n : ℕ) : List UInt8 := (List.range n).map fun k => memory (pos + k)

/-- `malloc` for `n` entries of `size` bytes, as they stand in the memory behind `pos`. -/
def malloc {α : Type} (memory : ℕ → UInt8) (entry : Reader UInt8 α) (pos size n : ℕ) : List α :=
  (List.range n).map fun idx => (entry.run (bytesAt memory (pos + size * idx) size)).1

/-- `fread` of `n` bytes into the memory at `pos`: where the file ends, the memory stays. -/
def freadInto (memory : ℕ → UInt8) (pos n : ℕ) : Reader UInt8 (List UInt8) := do
  let bytes ← take n
  return bytes ++ bytesAt memory (pos + bytes.length) (n - bytes.length)

/-! ### The tables -/

/-- One round of `read_chunkents`. -/
def readEntry (memory : ℕ → UInt8) (chunkIdx : ℕ) : Reader UInt8 ChunkEnt := do
  return { chunkid := ← freadInto memory (16 * chunkIdx) 8, offset := ← readWord, size := ← readWord }

def readChunkents (memory : ℕ → UInt8) (file : List UInt8) (hdr : ChunkHdr) : Run (List ChunkEnt) :=
  fill (readEntry memory) hdr.numchunks.toNat 0 (malloc memory readChunkent 0 16 hdr.maxchunks.toNat) (file.drop 12)

/-- What `read_stringtab` reads. -/
def stringtabOf (memory : ℕ → UInt8) (file : List UInt8) (strent : ChunkEnt) : StringTab :=
  readAt (do return { size := ← readWord, str := ← freadInto memory 4 (strent.size.toNat - 4) }) file
    strent.offset.toNat

def readStringtab (memory : ℕ → UInt8) (file : List UInt8) (strent : ChunkEnt) : Run StringTab :=
  if strent.size < 4 then throw .message else pure (stringtabOf memory file strent)

def readSymboltab (memory : ℕ → UInt8) (file : List UInt8) (syment : ChunkEnt) (numSyms : Word) : Run (List Symbol) :=
  fill (fun _ => readSymbol) numSyms.toNat 0 (malloc memory readSymbol 0 16 numSyms.toNat)
    (file.drop syment.offset.toNat)

/-- The number of bytes that `read_ident` asks for: the size of the chunk, by way of `int`. -/
def identCount (size : Word) : ℕ := if size.toNat < 2 ^ 31 then size.toNat else 2 ^ 64 - 2 ^ 32 + size.toNat

/-- What `read_ident` reads. -/
def identBytes (file : List UInt8) (ident : ChunkEnt) : List UInt8 :=
  (file.drop ident.offset.toNat).take (identCount ident.size)

/-- The table, behind `read_ident`. -/
def identOf (memory : ℕ → UInt8) (file : List UInt8) (ident : ChunkEnt) : List UInt8 :=
  identBytes file ident ++
    bytesAt memory (identBytes file ident).length (ident.size.toNat - (identBytes file ident).length)

def readIdent (memory : ℕ → UInt8) (file : List UInt8) (ident : ChunkEnt) : Run (List UInt8) :=
  if (identBytes file ident).length ≤ ident.size.toNat then pure (identOf memory file ident) else throw .outside

/-- What `read_aofhdr` reads first. -/
def aofFixedOf (file : List UInt8) (hdrent : ChunkEnt) : AofHdr := readAt readAofFixed file hdrent.offset.toNat

def readAofhdr (memory : ℕ → UInt8) (file : List UInt8) (hdrent : ChunkEnt) : Run (AofHdr × List AreaHdr) :=
  if hdrent.size < 24 then throw .message
  else if hdrent.size.toNat ≠ 24 + (aofFixedOf file hdrent).numareas.toNat * 20 then throw .message
  else do
    let areaHdr ← fill (fun _ => readAreahdr) (aofFixedOf file hdrent).numareas.toNat 0
      (malloc memory readAreahdr 24 20 ((hdrent.size.toNat - 24) / 20))
      (readAofFixed.run (file.drop hdrent.offset.toNat)).2
    return (aofFixedOf file hdrent, areaHdr)

def findEnt (hdr : ChunkHdr) (ents : List ChunkEnt) (name : List UInt8) : Run (Option ChunkEnt) :=
  search (fun ent => ent.chunkid == name) ents hdr.numchunks.toNat 0

/-! ### Strings -/

def printed (table : List UInt8) (pos : ℕ) : Run (List UInt8) :=
  match StringTable.readName table pos with
  | some str => pure str
  | none => throw .outside

section Lookup
variable (d : Decoder)

/-- `string`, and what is printed of it. -/
def string (offset : Word) : Run (Option (List UInt8)) :=
  match d.stringtab with
  | none => pure none
  | some stringtab =>
    if offset < 4 ∨ stringtab.size ≤ offset then pure none
    else do
      let str ← printed stringtab.str (offset - 4).toNat
      return some str

def symname (offset : Word) : Run (Option (List UInt8)) :=
  match d.symboltab with
  | none => pure none
  | some symboltab =>
    if d.symboltab_size ≤ offset then pure none
    else do
      let sym ← load symboltab offset.toNat
      string d sym.name

def areaname (areaIndex : Word) : Run (Option (List UInt8)) :=
  if d.aofhdr.numareas ≤ areaIndex then pure none
  else do
    let areahdr ← load d.areahdrs areaIndex.toNat
    string d areahdr.name

end Lookup

/-! ### Printing -/

/-- What a relocation names. -/
inductive Target
  | nothing
  | symbol (index : Word)
  | area (index : Word)
  deriving DecidableEq

/-- What the relocations in `print_area` look up: nothing for instructions before version 310. -/
def relocTarget (version flags : Word) : Target :=
  if flags &&& 0xfff00000 = 0 then
    if (flags >>> 16 &&& 0x3).toNat = 3 ∧ version < 310 then .nothing
    else if (flags >>> 18 &&& 3).toNat = 1 ∨ (flags >>> 18 &&& 3).toNat = 2 then .symbol (flags &&& 0xffff)
    else .nothing
  else if flags &&& 0x80000000 = 0x80000000 then
    if (flags >>> 24 &&& 0x3).toNat = 3 ∧ version < 310 then .nothing
    else if flags &&& 0x08000000 ≠ 0 then .symbol (flags &&& 0xFFFFFF)
    else .area (flags &&& 0xFFFFFF)
  else .nothing

section Print
variable (opts : Options) (d : Decoder)

def lookup : Target → Run (Option (List UInt8))
  | .nothing => pure none
  | .symbol index => symname d index
  | .area index => areaname d index

/-- A relocation, in `print_area`. -/
def printReloc (reloc : Reloc) : Run RelocListing := do
  let _ ← lookup d (relocTarget d.aofhdr.version reloc.flags)
  return Decaof.printReloc d reloc

/-- The relocations, in `print_area`. -/
def printRelocs : List Reloc → Run (List RelocListing)
  | [] => pure []
  | reloc :: relocs => do
    let listing ← printReloc d reloc
    let listings ← printRelocs relocs
    return listing :: listings

/-- The contents of an area, in `print_area`. -/
def printContents (areahdr : AreaHdr) (offset : Word) : Run (List Word) :=
  if opts.print_area_contents then
    match readContents d areahdr offset with
    | some contents => pure contents
    | none => throw .endless
  else pure []

def relocsOf (areahdr : AreaHdr) (reloff : Word) : List Reloc :=
  if opts.print_reloc_dir then
    readAt (times readReloc areahdr.numrelocs.toNat) d.file (d.area_offset + reloff).toNat
  else []

def printArea (areahdr : AreaHdr) (offset reloff : Word) : Run AreaListing := do
  let name ← string d areahdr.name
  let contents ← printContents opts d areahdr offset
  let relocs ← printRelocs d (relocsOf opts d areahdr reloff)
  return {
    name
    flags := areahdr.flags
    size := areahdr.size
    numrelocs := areahdr.numrelocs
    baseaddr := areahdr.baseaddr
    contents
    relocs }

def relocOffset (areahdr : AreaHdr) (offset : Word) : Word :=
  if areahdr.flags &&& areaUData ≠ 0 then offset else offset + areahdr.size

/-- The loop over the areas, in `decode`. -/
def printAreas : (left areaIdx : ℕ) → Word → Run (List AreaListing)
  | 0, _, _ => pure []
  | left + 1, areaIdx, offset => do
    let areahdr ← load d.areahdrs areaIdx
    let area ← printArea opts d areahdr offset (relocOffset areahdr offset)
    let areas ← printAreas left (areaIdx + 1) (relocOffset areahdr offset + areahdr.numrelocs * 8)
    return area :: areas

/-- The area of a symbol, in `decode`: it is named for some of them. -/
def printPlace (sym : Symbol) : Run (Option (List UInt8)) :=
  if sym.flags &&& symbolDefinedOrCommon ≠ 0 ∧ sym.flags &&& symbolAbsoluteOrCommon = 0 then string d sym.areaname
  else pure none

/-- A symbol, in `decode`. -/
def printSymbol (sym : Symbol) : Run SymbolListing := do
  let _ ← string d sym.name
  let _ ← printPlace d sym
  return Decaof.printSymbol d sym

/-- The loop over the symbols, in `decode`. -/
def printSymbols (symboltab : List Symbol) : (left symIdx : ℕ) → Run (List SymbolListing)
  | 0, _ => pure []
  | left + 1, symIdx => do
    let sym ← load symboltab symIdx
    let listing ← printSymbol d sym
    let listings ← printSymbols symboltab left (symIdx + 1)
    return listing :: listings

/-- The loop over the strings, in `decode`: a string that is empty is not printed. -/
def printStrings (stringtab : StringTab) : (turns : ℕ) → (offset : Word) → Run (List (Word × List UInt8))
  | 0, _ => throw .endless
  | turns + 1, offset =>
    if offset < 4 ∨ stringtab.size ≤ offset then pure []
    else do
      let str ← printed stringtab.str (offset - 4).toNat
      let strs ← printStrings stringtab turns (offset + BitVec.ofNat 32 str.length + 1)
      return if str = [] then strs else (offset, str) :: strs

structure Output where
  listing : Listing
  strings : List (Word × List UInt8)

/-- The areas, in `decode`. -/
def areaPart : Run (List AreaListing) :=
  if opts.print_area_dec then printAreas opts d d.aofhdr.numareas.toNat 0 0 else pure []

/-- The symbols, in `decode`. Without a table the null pointer is read. -/
def symbolPart : Run (List SymbolListing) :=
  if opts.print_symtab ∧ d.aofhdr.numsyms ≠ 0 then
    match d.symboltab with
    | some symboltab => printSymbols d symboltab d.aofhdr.numsyms.toNat 0
    | none => throw .outside
  else pure []

/-- The strings, in `decode`; so here. -/
def stringPart : Run (List (Word × List UInt8)) :=
  if opts.print_strtab then
    match d.stringtab with
    | some stringtab => if stringtab.size = 0 then pure [] else printStrings stringtab (stringtab.str.length + 1) 4
    | none => throw .outside
  else pure []

/-- The tables are printed, in `decode`. -/
def print (ident : Option (List UInt8)) : Run Output := do
  let areas ← areaPart opts d
  let symbols ← symbolPart opts d
  let strings ← stringPart opts d
  return {
    listing := { filetype := d.aofhdr.filetype, version := d.aofhdr.version, ident, areas, symbols }
    strings }

end Print

/-! ### `decode` -/

/-- `OBJ_STRT` and the other names of chunks -/
def OBJ_STRT : List UInt8 := "OBJ_STRT".toUTF8.data.toList
def OBJ_IDFN : List UInt8 := "OBJ_IDFN".toUTF8.data.toList
def OBJ_AREA : List UInt8 := "OBJ_AREA".toUTF8.data.toList
def OBJ_HEAD : List UInt8 := "OBJ_HEAD".toUTF8.data.toList
def OBJ_SYMT : List UInt8 := "OBJ_SYMT".toUTF8.data.toList

section Decode
variable (opts : Options) (former : Former) (file : List UInt8)

def findOptEnt (wanted : Bool) (hdr : ChunkHdr) (ents : List ChunkEnt) (name : List UInt8) : Run (Option ChunkEnt) :=
  if wanted then findEnt hdr ents name else pure none

def needEnt (hdr : ChunkHdr) (ents : List ChunkEnt) (name : List UInt8) : Run ChunkEnt := do
  match ← findEnt hdr ents name with
  | some ent => pure ent
  | none => throw .message

/-- The table of strings, in `decode`. -/
def readOptStringtab : Option ChunkEnt → Run (Option StringTab)
  | some ent => do
    let stringtab ← readStringtab former.stringTable file ent
    return some stringtab
  | none => pure none

/-- The identification, in `decode`. -/
def printOptIdent : Option ChunkEnt → Run (Option (List UInt8))
  | some ent => do
    let identString ← readIdent former.identString file ent
    let str ← printed identString 0
    return some str
  | none => pure none

/-- The table of symbols, in `decode`. -/
def readOptSymboltab (numsyms : Word) : Option ChunkEnt → Run (Option (List Symbol))
  | some ent => do
    let symboltab ← readSymboltab former.symbolTable file ent numsyms
    return some symboltab
  | none => pure none

/-- What `read_chunkhdr` reads. -/
def chunkhdrOf : ChunkHdr := readAt readChunkhdr file 0

/-- **`decode`**, for one file. -/
def decode : Run Output :=
  let hdr := chunkhdrOf file
  if hdr.chunkfileid ≠ 0xc3cbc6c5 then throw .message
  else do
    let ents ← readChunkents former.chunkEntries file hdr
    let strEnt ← findEnt hdr ents OBJ_STRT
    let stringtab ← readOptStringtab former file strEnt
    let idEnt ← findOptEnt opts.print_ident hdr ents OBJ_IDFN
    let ident ← printOptIdent former file idEnt
    let areaEnt ← needEnt hdr ents OBJ_AREA
    let headEnt ← needEnt hdr ents OBJ_HEAD
    let aof ← readAofhdr former.aofHdr file headEnt
    let symEnt ← findOptEnt (aof.1.numsyms ≠ 0) hdr ents OBJ_SYMT
    let symboltab ← readOptSymboltab former file aof.1.numsyms symEnt
    print opts {
      file, aofhdr := aof.1, areahdrs := aof.2, stringtab, symboltab
      symboltab_size := symEnt.elim 0 ChunkEnt.size
      area_offset := areaEnt.offset } ident

end Decode

/-! ### What fits -/

section Fits
variable (opts : Options) (d : Decoder)

/-- **A string ends in its table**, if there is one at the offset. -/
def StringEnds (offset : Word) : Prop :=
  ∀ stringtab, d.stringtab = some stringtab → 4 ≤ offset → offset < stringtab.size →
    0 ∈ stringtab.str.drop (offset - 4).toNat

/-- **A symbol that is looked up is in its table**, and so is its name. -/
def SymbolFits (index : Word) : Prop :=
  ∀ symboltab, d.symboltab = some symboltab → index < d.symboltab_size →
    ∃ sym, symboltab[index.toNat]? = some sym ∧ StringEnds d sym.name

def AreaFits (index : Word) : Prop :=
  index < d.aofhdr.numareas → ∃ areahdr, d.areahdrs[index.toNat]? = some areahdr ∧ StringEnds d areahdr.name

def TargetFits : Target → Prop
  | .nothing => True
  | .symbol index => SymbolFits d index
  | .area index => AreaFits d index

def Ends (areahdr : AreaHdr) : Prop :=
  opts.print_area_contents = true → areahdr.flags &&& areaUData = 0 → areahdr.size.toNat % 4 = 0

def AreasFit : Word → List AreaHdr → Prop
  | _, [] => True
  | offset, areahdr :: areahdrs =>
    StringEnds d areahdr.name ∧
    (Ends opts areahdr →
      (∀ reloc ∈ relocsOf opts d areahdr (relocOffset areahdr offset),
        TargetFits d (relocTarget d.aofhdr.version reloc.flags)) ∧
      AreasFit (relocOffset areahdr offset + areahdr.numrelocs * 8) areahdrs)

def SymbolEnds (sym : Symbol) : Prop :=
  StringEnds d sym.name ∧
  (sym.flags &&& symbolDefinedOrCommon ≠ 0 ∧ sym.flags &&& symbolAbsoluteOrCommon = 0 → StringEnds d sym.areaname)

def PastAreas : Prop := opts.print_area_dec = true → ∀ areahdr ∈ d.areahdrs, Ends opts areahdr

/-- **The tables fit what is printed of them.** -/
structure Fits : Prop where
  areas : opts.print_area_dec = true → AreasFit opts d 0 d.areahdrs
  /-- With `-s` there is a table of symbols, if there are symbols, and their names end. -/
  symbols : PastAreas opts d → opts.print_symtab = true → d.aofhdr.numsyms ≠ 0 →
    ∃ symboltab, d.symboltab = some symboltab ∧ ∀ sym ∈ symboltab, SymbolEnds d sym
  /-- With `-t` there is a table of strings, and its last string ends. -/
  strings : PastAreas opts d → opts.print_strtab = true →
    ∃ stringtab, d.stringtab = some stringtab ∧
      (4 < stringtab.size.toNat → 0 ∈ stringtab.str.drop (stringtab.size.toNat - 5))

end Fits

/-! ### Strings that end -/

section Names
variable {d : Decoder} {table str : List UInt8} {pos : ℕ} {offset index : Word} {name : Option (List UInt8)}

theorem safe_printed : Safe (printed table pos) ↔ 0 ∈ table.drop pos := by
  rw [printed, StringTable.readName]
  split
  · rename_i heq
    split at heq
    · rename_i hmem
      exact iff_of_true (safe_pure _) hmem
    · cases heq
  · rename_i heq
    split at heq
    · cases heq
    · rename_i hmem
      exact iff_of_false not_safe_outside hmem

theorem straight_printed : Straight (printed table pos) := by
  rw [printed]
  split
  · exact straight_pure _
  · exact straight_outside

theorem printed_ok (h : printed table pos = .ok str) : StringTable.readName table pos = some str := by
  rw [printed] at h
  split at h
  · rename_i heq
    rw [heq, Except.ok.inj h]
  · cases h

theorem straight_string : Straight (string d offset) := by
  rw [string]
  split
  · exact straight_pure _
  · split
    · exact straight_pure _
    · exact straight_bind straight_printed fun _ _ => straight_pure _

theorem safe_string : Safe (string d offset) ↔ StringEnds d offset := by
  rw [string, StringEnds]
  cases d.stringtab with
  | none => exact iff_of_true (safe_pure _) nofun
  | some stringtab =>
    dsimp only
    by_cases hout : offset < 4 ∨ stringtab.size ≤ offset
    · rw [if_pos hout]
      refine iff_of_true (safe_pure _) ?_
      intro other heq hfour hsize
      rw [← Option.some.inj heq] at hsize
      rcases hout with hout | hout
      · exact absurd hfour (BitVec.not_le.mpr hout)
      · exact absurd hsize (BitVec.not_lt.mpr hout)
    · rw [if_neg hout, safe_map, safe_printed]
      rw [not_or, BitVec.not_lt, BitVec.not_le] at hout
      constructor
      · rintro hmem _ heq - -
        rwa [← Option.some.inj heq]
      · intro h
        exact h stringtab rfl hout.1 hout.2

theorem straight_symname : Straight (symname d index) := by
  rw [symname]
  split
  · exact straight_pure _
  · split
    · exact straight_pure _
    · exact straight_bind straight_load fun _ _ => straight_string

theorem safe_symname : Safe (symname d index) ↔ SymbolFits d index := by
  rw [symname, SymbolFits]
  cases d.symboltab with
  | none => exact iff_of_true (safe_pure _) nofun
  | some symboltab =>
    dsimp only
    by_cases hout : d.symboltab_size ≤ index
    · rw [if_pos hout]
      refine iff_of_true (safe_pure _) ?_
      intro _ _ hsize
      exact absurd hsize (BitVec.not_lt.mpr hout)
    · rw [if_neg hout, safe_bind, safe_load]
      constructor
      · rintro ⟨hindex, hname⟩ _ heq -
        rw [← Option.some.inj heq]
        exact ⟨symboltab[index.toNat], List.getElem?_eq_getElem hindex, safe_string.mp (hname _ (load_eq hindex))⟩
      · intro h
        obtain ⟨sym, hsym, hends⟩ := h symboltab rfl (BitVec.not_le.mp hout)
        obtain ⟨hindex, rfl⟩ := List.getElem?_eq_some_iff.mp hsym
        refine ⟨hindex, ?_⟩
        intro a ha
        rw [load_eq hindex] at ha
        obtain rfl := Except.ok.inj ha
        exact safe_string.mpr hends

theorem straight_areaname : Straight (areaname d index) := by
  rw [areaname]
  split
  · exact straight_pure _
  · exact straight_bind straight_load fun _ _ => straight_string

theorem safe_areaname : Safe (areaname d index) ↔ AreaFits d index := by
  rw [areaname, AreaFits]
  by_cases hout : d.aofhdr.numareas ≤ index
  · rw [if_pos hout]
    refine iff_of_true (safe_pure _) ?_
    intro hsize
    exact absurd hsize (BitVec.not_lt.mpr hout)
  · rw [if_neg hout, safe_bind, safe_load]
    constructor
    · rintro ⟨hindex, hname⟩ -
      exact ⟨d.areahdrs[index.toNat], List.getElem?_eq_getElem hindex, safe_string.mp (hname _ (load_eq hindex))⟩
    · intro h
      obtain ⟨areahdr, hhdr, hends⟩ := h (BitVec.not_le.mp hout)
      obtain ⟨hindex, rfl⟩ := List.getElem?_eq_some_iff.mp hhdr
      refine ⟨hindex, ?_⟩
      intro a ha
      rw [load_eq hindex] at ha
      obtain rfl := Except.ok.inj ha
      exact safe_string.mpr hends

end Names

/-! ### What is printed is safe where it fits -/

section Safety
variable {opts : Options} {d : Decoder}

theorem straight_lookup (target : Target) : Straight (lookup d target) := by
  cases target with
  | nothing => exact straight_pure none
  | symbol index => exact straight_symname
  | area index => exact straight_areaname

theorem safe_lookup (target : Target) : Safe (lookup d target) ↔ TargetFits d target := by
  cases target with
  | nothing => exact iff_of_true (safe_pure none) trivial
  | symbol index => exact safe_symname
  | area index => exact safe_areaname

theorem straight_printReloc (reloc : Reloc) : Straight (printReloc d reloc) :=
  straight_bind (straight_lookup _) fun _ _ => straight_pure _

theorem safe_printReloc (reloc : Reloc) :
    Safe (printReloc d reloc) ↔ TargetFits d (relocTarget d.aofhdr.version reloc.flags) := by
  rw [printReloc, safe_map, safe_lookup]

theorem straight_printRelocs (relocs : List Reloc) : Straight (printRelocs d relocs) := by
  induction relocs with
  | nil => exact straight_pure []
  | cons reloc relocs ih =>
    exact straight_bind (straight_printReloc reloc) fun _ _ => straight_bind ih fun _ _ => straight_pure _

theorem safe_printRelocs (relocs : List Reloc) :
    Safe (printRelocs d relocs) ↔ ∀ reloc ∈ relocs, TargetFits d (relocTarget d.aofhdr.version reloc.flags) := by
  induction relocs with
  | nil => exact iff_of_true (safe_pure []) nofun
  | cons reloc relocs ih =>
    rw [printRelocs, (straight_printReloc reloc).safe_bind fun _ _ => safe_map.trans ih, safe_printReloc,
      List.forall_mem_cons]

theorem printContents_eq (opts : Options) (d : Decoder) (areahdr : AreaHdr) (offset : Word) :
    Safe (printContents opts d areahdr offset) ∧
      ((∃ contents, printContents opts d areahdr offset = .ok contents) ↔ Ends opts areahdr) := by
  rw [printContents, Ends]
  cases hopt : opts.print_area_contents with
  | false => exact ⟨safe_pure [], iff_of_true ⟨[], rfl⟩ nofun⟩
  | true =>
    rw [if_pos rfl, readContents]
    by_cases hdata : areahdr.flags &&& areaUData = 0
    · rw [if_pos hdata]
      by_cases hsize : areahdr.size.toNat % 4 = 0
      · rw [if_pos hsize]
        exact ⟨safe_pure _, iff_of_true ⟨_, rfl⟩ fun _ _ => hsize⟩
      · rw [if_neg hsize]
        exact ⟨safe_endless, iff_of_false nofun fun h => hsize (h rfl hdata)⟩
    · rw [if_neg hdata]
      exact ⟨safe_pure [], iff_of_true ⟨[], rfl⟩ fun _ h => absurd h hdata⟩

theorem safe_printArea (areahdr : AreaHdr) (offset reloff : Word) :
    Safe (printArea opts d areahdr offset reloff) ↔ StringEnds d areahdr.name ∧
      (Ends opts areahdr →
        ∀ reloc ∈ relocsOf opts d areahdr reloff, TargetFits d (relocTarget d.aofhdr.version reloc.flags)) := by
  obtain ⟨hsafe, hok⟩ := printContents_eq opts d areahdr offset
  rw [printArea, straight_string.safe_bind, safe_string]
  intro name _
  rw [safe_bind, and_iff_right hsafe, ← hok]
  constructor
  · rintro h ⟨contents, hcontents⟩
    exact (safe_printRelocs _).mp (safe_map.mp (h contents hcontents))
  · intro h contents hcontents
    exact safe_map.mpr ((safe_printRelocs _).mpr (h ⟨contents, hcontents⟩))

theorem printArea_ok (opts : Options) (d : Decoder) (areahdr : AreaHdr) (offset reloff : Word) :
    (∃ area, printArea opts d areahdr offset reloff = .ok area) ↔
      Safe (printArea opts d areahdr offset reloff) ∧ Ends opts areahdr := by
  obtain ⟨-, hok⟩ := printContents_eq opts d areahdr offset
  constructor
  · rintro ⟨area, harea⟩
    refine ⟨harea ▸ nofun, ?_⟩
    obtain ⟨name, -, hrest⟩ := bind_eq_ok.mp harea
    obtain ⟨contents, hcontents, -⟩ := bind_eq_ok.mp hrest
    exact hok.mp ⟨contents, hcontents⟩
  · rintro ⟨hsafe, hends⟩
    obtain ⟨hname, hrelocs⟩ := (safe_printArea areahdr offset reloff).mp hsafe
    obtain ⟨name, hname⟩ := straight_string.exists_ok (safe_string.mpr hname)
    obtain ⟨contents, hcontents⟩ := hok.mpr hends
    obtain ⟨relocs, hrelocs⟩ := (straight_printRelocs _).exists_ok ((safe_printRelocs _).mpr (hrelocs hends))
    rw [printArea, hname, hcontents, hrelocs]
    exact ⟨_, rfl⟩

theorem safe_printAreas (left areaIdx : ℕ) (offset : Word) (hall : areaIdx + left = d.areahdrs.length) :
    (Safe (printAreas opts d left areaIdx offset) ↔ AreasFit opts d offset (d.areahdrs.drop areaIdx)) ∧
    ((∃ areas, printAreas opts d left areaIdx offset = .ok areas) ↔
      Safe (printAreas opts d left areaIdx offset) ∧ ∀ areahdr ∈ d.areahdrs.drop areaIdx, Ends opts areahdr) := by
  induction left generalizing areaIdx offset with
  | zero =>
    rw [List.drop_eq_nil_of_le (by omega)]
    exact ⟨iff_of_true (safe_pure []) trivial, iff_of_true ⟨[], rfl⟩ ⟨safe_pure [], nofun⟩⟩
  | succ left ih =>
    have hidx : areaIdx < d.areahdrs.length := by omega
    obtain ⟨hsafe, hok⟩ := ih (areaIdx + 1)
      (relocOffset d.areahdrs[areaIdx] offset + d.areahdrs[areaIdx].numrelocs * 8) (by omega)
    have harea := printArea_ok opts d d.areahdrs[areaIdx] offset
      (relocOffset d.areahdrs[areaIdx] offset)
    have hstep : printAreas opts d (left + 1) areaIdx offset =
        printArea opts d d.areahdrs[areaIdx] offset (relocOffset d.areahdrs[areaIdx] offset) >>= fun area =>
          printAreas opts d left (areaIdx + 1)
            (relocOffset d.areahdrs[areaIdx] offset + d.areahdrs[areaIdx].numrelocs * 8) >>= fun areas =>
              pure (area :: areas) := by
      rw [printAreas, load_eq hidx]
      rfl
    have hfirst : Safe (printAreas opts d (left + 1) areaIdx offset) ↔
        AreasFit opts d offset (d.areahdrs.drop areaIdx) := by
      rw [hstep, safe_bind, safe_printArea, List.drop_eq_getElem_cons hidx, AreasFit, ← hsafe]
      constructor
      · rintro ⟨⟨hname, hrelocs⟩, hrest⟩
        refine ⟨hname, fun hends => ⟨hrelocs hends, ?_⟩⟩
        obtain ⟨area, harea⟩ := harea.mpr ⟨(safe_printArea _ _ _).mpr ⟨hname, hrelocs⟩, hends⟩
        exact safe_map.mp (hrest area harea)
      · rintro ⟨hname, hrest⟩
        refine ⟨⟨hname, fun hends => (hrest hends).1⟩, ?_⟩
        intro area hdone
        exact safe_map.mpr (hrest (harea.mp ⟨area, hdone⟩).2).2
    refine ⟨hfirst, ?_⟩
    constructor
    · rintro ⟨areas, hareas⟩
      refine ⟨hareas ▸ nofun, ?_⟩
      rw [hstep] at hareas
      obtain ⟨area, hdone, hrest⟩ := bind_eq_ok.mp hareas
      obtain ⟨rest, hrest, -⟩ := bind_eq_ok.mp hrest
      rw [List.drop_eq_getElem_cons hidx, List.forall_mem_cons]
      exact ⟨(harea.mp ⟨area, hdone⟩).2, (hok.mp ⟨rest, hrest⟩).2⟩
    · rintro ⟨hthis, hends⟩
      rw [List.drop_eq_getElem_cons hidx, List.forall_mem_cons] at hends
      rw [hstep] at hthis ⊢
      obtain ⟨hone, hrest⟩ := safe_bind.mp hthis
      obtain ⟨area, hdone⟩ := harea.mpr ⟨hone, hends.1⟩
      obtain ⟨rest, hmore⟩ := hok.mpr ⟨safe_map.mp (hrest area hdone), hends.2⟩
      refine ⟨area :: rest, bind_eq_ok.mpr ⟨area, hdone, ?_⟩⟩
      rw [hmore]
      rfl

theorem straight_printPlace (sym : Symbol) : Straight (printPlace d sym) := by
  rw [printPlace]
  split
  · exact straight_string
  · exact straight_pure none

theorem straight_printSymbol (sym : Symbol) : Straight (printSymbol d sym) :=
  straight_bind straight_string fun _ _ => straight_bind (straight_printPlace sym) fun _ _ => straight_pure _

theorem safe_printSymbol (sym : Symbol) : Safe (printSymbol d sym) ↔ SymbolEnds d sym := by
  rw [printSymbol, straight_string.safe_bind fun _ _ => safe_map, safe_string, SymbolEnds, printPlace]
  refine and_congr_right fun _ => ?_
  split
  · rename_i hnamed
    rw [safe_string, forall_prop_of_true hnamed]
  · rename_i hnamed
    exact iff_of_true (safe_pure none) fun h => absurd h hnamed

theorem safe_printSymbols (symboltab : List Symbol) (left symIdx : ℕ) (hall : symIdx + left = symboltab.length) :
    Straight (printSymbols d symboltab left symIdx) ∧
      (Safe (printSymbols d symboltab left symIdx) ↔ ∀ sym ∈ symboltab.drop symIdx, SymbolEnds d sym) := by
  induction left generalizing symIdx with
  | zero =>
    rw [List.drop_eq_nil_of_le (by omega)]
    exact ⟨straight_pure [], iff_of_true (safe_pure []) nofun⟩
  | succ left ih =>
    have hidx : symIdx < symboltab.length := by omega
    obtain ⟨hstraight, hsafe⟩ := ih (symIdx + 1) (by omega)
    have hstep : printSymbols d symboltab (left + 1) symIdx =
        printSymbol d symboltab[symIdx] >>= fun listing =>
          printSymbols d symboltab left (symIdx + 1) >>= fun listings => pure (listing :: listings) := by
      rw [printSymbols, load_eq hidx]
      rfl
    rw [hstep, List.drop_eq_getElem_cons hidx, List.forall_mem_cons, ← hsafe, ← safe_printSymbol]
    refine ⟨?_, (straight_printSymbol _).safe_bind fun _ _ => safe_map⟩
    exact straight_bind (straight_printSymbol _) fun _ _ => straight_bind hstraight fun _ _ => straight_pure _

theorem readName_nul {table str : List UInt8} {pos : ℕ} (h : StringTable.readName table pos = some str) :
    table[pos + str.length]? = some 0 := by
  rw [StringTable.readName] at h
  split at h
  · rename_i hmem
    rw [← List.getElem?_drop, ← Option.some.inj h]
    generalize table.drop pos = bytes at hmem ⊢
    induction bytes with
    | nil => cases hmem
    | cons b bytes ih =>
      by_cases hb : b = 0
      · subst hb
        rfl
      · have hmore : (b :: bytes).takeWhile (fun x => decide (x ≠ 0)) = b :: bytes.takeWhile (fun x => decide (x ≠ 0)) :=
          List.takeWhile_cons_of_pos (decide_eq_true hb)
        rw [hmore, List.length_cons, List.getElem?_cons_succ]
        exact ih ((List.mem_cons.mp hmem).resolve_left (Ne.symm hb))
  · cases h

theorem mem_drop_of_getElem? {table : List UInt8} {i k : ℕ} {b : UInt8} (h : table[i]? = some b) (hk : k ≤ i) :
    b ∈ table.drop k := by
  have hdrop : (table.drop k)[i - k]? = some b := by
    rw [List.getElem?_drop, Nat.add_sub_cancel' hk]
    exact h
  exact List.mem_of_getElem? hdrop

/-- **The strings**: what is behind the last one that starts in the table decides. -/
theorem safe_printStrings {stringtab : StringTab} (turns : ℕ) (offset : Word) (hfour : 4 ≤ offset.toNat)
    (hin : offset.toNat ≤ stringtab.str.length + 4) (hturns : stringtab.str.length + 4 < turns + offset.toNat)
    (hroom : stringtab.str.length + 4 < 2 ^ 32) :
    Safe (printStrings stringtab turns offset) ↔
      (offset.toNat < stringtab.size.toNat → 0 ∈ stringtab.str.drop (stringtab.size.toNat - 5)) := by
  induction turns generalizing offset with
  | zero => omega
  | succ turns ih =>
    rw [printStrings]
    have hnot : ¬offset < 4 := by
      rw [BitVec.lt_def]
      exact Nat.not_lt.mpr hfour
    have hsub : (offset - 4).toNat = offset.toNat - 4 := by
      rw [BitVec.toNat_sub_of_le (BitVec.not_lt.mp hnot)]
      rfl
    by_cases hout : stringtab.size ≤ offset
    · rw [if_pos (Or.inr hout)]
      rw [BitVec.le_def] at hout
      exact iff_of_true (safe_pure []) fun h => absurd h (Nat.not_lt.mpr hout)
    · rw [if_neg (not_or.mpr ⟨hnot, hout⟩), safe_bind, safe_printed, hsub]
      rw [BitVec.le_def, Nat.not_le] at hout
      rw [forall_prop_of_true hout]
      -- The next string starts behind the NUL.
      have hnext : ∀ str, printed stringtab.str (offset.toNat - 4) = .ok str →
          stringtab.str[offset.toNat - 4 + str.length]? = some 0 ∧
            (offset + BitVec.ofNat 32 str.length + 1).toNat = offset.toNat + str.length + 1 := by
        intro str hstr
        have hnul := readName_nul (printed_ok hstr)
        obtain ⟨hlen, -⟩ := List.getElem?_eq_some_iff.mp hnul
        refine ⟨hnul, ?_⟩
        rw [BitVec.toNat_add, BitVec.toNat_add, BitVec.toNat_ofNat]
        change ((offset.toNat + str.length % 2 ^ 32) % 2 ^ 32 + 1) % 2 ^ 32 = _
        omega
      have hrest : ∀ str, printed stringtab.str (offset.toNat - 4) = .ok str →
          (Safe (printStrings stringtab turns (offset + BitVec.ofNat 32 str.length + 1)) ↔
            (offset.toNat + str.length + 1 < stringtab.size.toNat →
              0 ∈ stringtab.str.drop (stringtab.size.toNat - 5))) := by
        intro str hstr
        obtain ⟨hnul, htoNat⟩ := hnext str hstr
        obtain ⟨hlen, -⟩ := List.getElem?_eq_some_iff.mp hnul
        rw [ih _ (by omega) (by omega) (by omega), htoNat]
      constructor
      · rintro ⟨hmem, hgo⟩
        obtain ⟨str, hstr⟩ := straight_printed.exists_ok (safe_printed.mpr hmem)
        by_cases hmore : offset.toNat + str.length + 1 < stringtab.size.toNat
        · exact (hrest str hstr).mp (safe_map.mp (hgo str hstr)) hmore
        · exact mem_drop_of_getElem? (hnext str hstr).1 (by omega)
      · intro hlast
        refine ⟨List.drop_subset_drop_left _ (by omega) hlast, ?_⟩
        intro str hstr
        exact safe_map.mpr ((hrest str hstr).mpr fun _ => hlast)

theorem safe_areaPart (opts : Options) (hareas : d.areahdrs.length = d.aofhdr.numareas.toNat) :
    (Safe (areaPart opts d) ↔ (opts.print_area_dec = true → AreasFit opts d 0 d.areahdrs)) ∧
      ((∃ areas, areaPart opts d = .ok areas) ↔ Safe (areaPart opts d) ∧ PastAreas opts d) := by
  rw [areaPart, PastAreas]
  cases hopt : opts.print_area_dec with
  | false => exact ⟨iff_of_true (safe_pure []) nofun, iff_of_true ⟨[], rfl⟩ ⟨safe_pure [], nofun⟩⟩
  | true =>
    rw [if_pos rfl, forall_prop_of_true rfl, forall_prop_of_true rfl]
    exact safe_printAreas _ 0 0 (by omega)

theorem safe_symbolPart (opts : Options)
    (hsyms : ∀ symboltab, d.symboltab = some symboltab → symboltab.length = d.aofhdr.numsyms.toNat) :
    Straight (symbolPart opts d) ∧ (Safe (symbolPart opts d) ↔
      (opts.print_symtab = true → d.aofhdr.numsyms ≠ 0 →
        ∃ symboltab, d.symboltab = some symboltab ∧ ∀ sym ∈ symboltab, SymbolEnds d sym)) := by
  rw [symbolPart]
  by_cases hprint : opts.print_symtab = true ∧ d.aofhdr.numsyms ≠ 0
  · rw [if_pos hprint, forall_prop_of_true hprint.1, forall_prop_of_true hprint.2]
    cases htab : d.symboltab with
    | none => exact ⟨straight_outside, iff_of_false not_safe_outside nofun⟩
    | some symboltab =>
      obtain ⟨hstraight, hsafe⟩ := safe_printSymbols symboltab d.aofhdr.numsyms.toNat 0 (by rw [hsyms _ htab]; omega)
      refine ⟨hstraight, hsafe.trans ?_⟩
      rw [List.drop_zero]
      constructor
      · exact fun hends => ⟨symboltab, rfl, hends⟩
      · rintro ⟨_, heq, hends⟩
        rwa [Option.some.inj heq]
  · rw [if_neg hprint]
    exact ⟨straight_pure [], iff_of_true (safe_pure []) fun hsymtab hsome => absurd ⟨hsymtab, hsome⟩ hprint⟩

theorem safe_stringPart (opts : Options)
    (hstrs : ∀ stringtab, d.stringtab = some stringtab → stringtab.str.length + 4 < 2 ^ 32) :
    Safe (stringPart opts d) ↔ (opts.print_strtab = true → ∃ stringtab, d.stringtab = some stringtab ∧
      (4 < stringtab.size.toNat → 0 ∈ stringtab.str.drop (stringtab.size.toNat - 5))) := by
  rw [stringPart]
  cases hopt : opts.print_strtab with
  | false => exact iff_of_true (safe_pure []) nofun
  | true =>
    rw [if_pos rfl, forall_prop_of_true rfl]
    cases htab : d.stringtab with
    | none => exact iff_of_false not_safe_outside nofun
    | some stringtab =>
      have hroom := hstrs stringtab htab
      have hone : (∃ other, some stringtab = some other ∧
          (4 < other.size.toNat → 0 ∈ other.str.drop (other.size.toNat - 5))) ↔
          (4 < stringtab.size.toNat → 0 ∈ stringtab.str.drop (stringtab.size.toNat - 5)) := by
        constructor
        · rintro ⟨_, heq, hends⟩
          rwa [Option.some.inj heq]
        · exact fun hends => ⟨stringtab, rfl, hends⟩
      rw [hone]
      dsimp only
      by_cases hzero : stringtab.size = 0
      · rw [if_pos hzero, hzero]
        exact iff_of_true (safe_pure []) fun h => absurd h (by decide)
      · rw [if_neg hzero, safe_printStrings _ 4 (Nat.le_refl 4) (Nat.le_add_left 4 _) (by
          change stringtab.str.length + 4 < stringtab.str.length + 1 + 4
          omega) hroom]
        rfl

/-- **What is printed of the tables is safe** if and only if they fit. -/
theorem safe_print (ident : Option (List UInt8)) (hareas : d.areahdrs.length = d.aofhdr.numareas.toNat)
    (hsyms : ∀ symboltab, d.symboltab = some symboltab → symboltab.length = d.aofhdr.numsyms.toNat)
    (hstrs : ∀ stringtab, d.stringtab = some stringtab → stringtab.str.length + 4 < 2 ^ 32) :
    Safe (print opts d ident) ↔ Fits opts d := by
  obtain ⟨hareasSafe, hareasOk⟩ := safe_areaPart opts hareas
  obtain ⟨hstraight, hsymbols⟩ := safe_symbolPart opts hsyms
  have hstrings := safe_stringPart opts hstrs
  have hbehind : ∀ areas : List AreaListing, Safe (symbolPart opts d >>= fun symbols => stringPart opts d >>= fun strings =>
      pure (Output.mk ⟨d.aofhdr.filetype, d.aofhdr.version, ident, areas, symbols⟩ strings)) ↔
      Safe (symbolPart opts d) ∧ Safe (stringPart opts d) := by
    intro areas
    exact hstraight.safe_bind fun _ _ => safe_map
  rw [print, safe_bind, hareasSafe]
  constructor
  · rintro ⟨hfit, hrest⟩
    have hpast : PastAreas opts d → Safe (symbolPart opts d) ∧ Safe (stringPart opts d) := by
      intro hpast
      obtain ⟨areas, hdone⟩ := hareasOk.mpr ⟨hareasSafe.mpr hfit, hpast⟩
      exact (hbehind areas).mp (hrest areas hdone)
    exact ⟨hfit, fun h => hsymbols.mp (hpast h).1, fun h => hstrings.mp (hpast h).2⟩
  · rintro ⟨hfit, hsyms, hstrs⟩
    refine ⟨hfit, ?_⟩
    intro areas hdone
    have hpast := (hareasOk.mp ⟨areas, hdone⟩).2
    exact (hbehind areas).mpr ⟨hsymbols.mpr (hsyms hpast), hstrings.mpr (hstrs hpast)⟩

end Safety

/-! ### The whole file -/

section Whole
variable (opts : Options) (former : Former) (file : List UInt8)

def entryOf (name : List UInt8) : Option ChunkEnt :=
  (entriesFrom (readEntry former.chunkEntries) (chunkhdrOf file).numchunks.toNat 0 (file.drop 12)).find? fun ent =>
    ent.chunkid == name

def StringsLong : Prop := ∀ ent, entryOf former file OBJ_STRT = some ent → 4 ≤ ent.size

def HeaderFits (headEnt : ChunkEnt) : Prop :=
  24 ≤ headEnt.size ∧ headEnt.size.toNat = 24 + (aofFixedOf file headEnt).numareas.toNat * 20

def symbolsOf (numsyms : Word) (ent : ChunkEnt) : List Symbol :=
  entriesFrom (fun _ => readSymbol) numsyms.toNat 0 (file.drop ent.offset.toNat)

def symEntOf (numsyms : Word) : Option ChunkEnt :=
  if numsyms ≠ 0 then entryOf former file OBJ_SYMT else none

def decoderOf (areaEnt headEnt : ChunkEnt) : Decoder :=
  let aofhdr := aofFixedOf file headEnt
  let symEnt := symEntOf former file aofhdr.numsyms
  { file, aofhdr
    areahdrs := entriesFrom (fun _ => readAreahdr) aofhdr.numareas.toNat 0
      (readAofFixed.run (file.drop headEnt.offset.toNat)).2
    stringtab := (entryOf former file OBJ_STRT).map (stringtabOf former.stringTable file)
    symboltab := symEnt.map (symbolsOf file aofhdr.numsyms)
    symboltab_size := symEnt.elim 0 ChunkEnt.size
    area_offset := areaEnt.offset }

def IdentEnds (ent : ChunkEnt) : Prop :=
  (identBytes file ent).length ≤ ent.size.toNat ∧ 0 ∈ identOf former.identString file ent

/-- **The tables of a file agree.** -/
structure InTables : Prop where
  chunks : (chunkhdrOf file).numchunks ≤ (chunkhdrOf file).maxchunks
  ident : StringsLong former file → opts.print_ident = true →
    ∀ ent, entryOf former file OBJ_IDFN = some ent → IdentEnds former file ent
  /-- What is printed behind the identification; it is printed if the header is as large as it should be. -/
  fits : StringsLong former file → ∀ areaEnt headEnt, entryOf former file OBJ_AREA = some areaEnt →
    entryOf former file OBJ_HEAD = some headEnt → HeaderFits file headEnt →
      Fits opts (decoderOf former file areaEnt headEnt)

variable {opts former file}

theorem length_bytesAt (memory : ℕ → UInt8) (pos n : ℕ) : (bytesAt memory pos n).length = n := by
  rw [bytesAt, List.length_map, List.length_range]

theorem length_malloc {α : Type} (memory : ℕ → UInt8) (entry : Reader UInt8 α) (pos size n : ℕ) :
    (malloc memory entry pos size n).length = n := by
  rw [malloc, List.length_map, List.length_range]

/-- **The entries**: there is room for them if there are not more than there can be. -/
theorem safe_readChunkents (hdr : ChunkHdr) :
    Safe (readChunkents former.chunkEntries file hdr) ↔ hdr.numchunks ≤ hdr.maxchunks := by
  rw [readChunkents, safe_fill, length_malloc, BitVec.le_def]

theorem readChunkents_ok (former : Former) (file : List UInt8)
    (hroom : (chunkhdrOf file).numchunks ≤ (chunkhdrOf file).maxchunks) :
    ∃ ents, readChunkents former.chunkEntries file (chunkhdrOf file) = .ok ents := by
  refine ⟨_, fill_eq _ _ ?_⟩
  rw [length_malloc, Nat.zero_add]
  exact BitVec.le_def.mp hroom

variable {ents : List ChunkEnt}

theorem findEnt_eq (name : List UInt8) (hroom : (chunkhdrOf file).numchunks ≤ (chunkhdrOf file).maxchunks)
    (hents : readChunkents former.chunkEntries file (chunkhdrOf file) = .ok ents) :
    findEnt (chunkhdrOf file) ents name = .ok (entryOf former file name) := by
  have hlen : 0 + (chunkhdrOf file).numchunks.toNat ≤
      (malloc former.chunkEntries readChunkent 0 16 (chunkhdrOf file).maxchunks.toNat).length := by
    rw [length_malloc, Nat.zero_add]
    exact BitVec.le_def.mp hroom
  rw [readChunkents, fill_eq _ _ hlen, List.take_zero, List.nil_append] at hents
  obtain rfl := Except.ok.inj hents
  have hfront := length_entriesFrom (readEntry former.chunkEntries) (chunkhdrOf file).numchunks.toNat 0 (file.drop 12)
  rw [findEnt, search_eq, entryOf, List.drop_zero, List.take_left' hfront]
  rw [List.length_append, hfront]
  omega

theorem fill_malloc {α : Type} (memory : ℕ → UInt8) (entry : Reader UInt8 α) (pos size n : ℕ) (stream : List UInt8) :
    fill (fun _ => entry) n 0 (malloc memory entry pos size n) stream =
      .ok (entriesFrom (fun _ => entry) n 0 stream) := by
  have hlen : (malloc memory entry pos size n).length = 0 + n := by rw [length_malloc, Nat.zero_add]
  rw [fill_eq _ _ (Nat.le_of_eq hlen.symm), List.take_zero, List.nil_append, List.drop_eq_nil_of_le (Nat.le_of_eq hlen), List.append_nil]

theorem readOptSymboltab_eq (numsyms : Word) (ent : Option ChunkEnt) :
    readOptSymboltab former file numsyms ent = .ok (ent.map (symbolsOf file numsyms)) := by
  cases ent with
  | none => rfl
  | some ent =>
    rw [readOptSymboltab, readSymboltab, fill_malloc]
    rfl

theorem readAofhdr_eq (headEnt : ChunkEnt) :
    (HeaderFits file headEnt → readAofhdr former.aofHdr file headEnt = .ok (aofFixedOf file headEnt,
      entriesFrom (fun _ => readAreahdr) (aofFixedOf file headEnt).numareas.toNat 0
        (readAofFixed.run (file.drop headEnt.offset.toNat)).2)) ∧
    (¬HeaderFits file headEnt → readAofhdr former.aofHdr file headEnt = throw .message) := by
  rw [readAofhdr, HeaderFits]
  by_cases hshort : headEnt.size < 24
  · rw [if_pos hshort]
    exact ⟨fun h => absurd h.1 (BitVec.not_le.mpr hshort), fun _ => rfl⟩
  · rw [if_neg hshort]
    by_cases hsize : headEnt.size.toNat = 24 + (aofFixedOf file headEnt).numareas.toNat * 20
    · have hentries : (headEnt.size.toNat - 24) / 20 = (aofFixedOf file headEnt).numareas.toNat := by omega
      rw [if_neg (not_not.mpr hsize), hentries, fill_malloc]
      exact ⟨fun _ => rfl, fun h => absurd ⟨BitVec.not_lt.mp hshort, hsize⟩ h⟩
    · rw [if_pos hsize]
      exact ⟨fun h => absurd h.2 hsize, fun _ => rfl⟩

theorem readOptStringtab_eq :
    (StringsLong former file → readOptStringtab former file (entryOf former file OBJ_STRT) =
      .ok ((entryOf former file OBJ_STRT).map (stringtabOf former.stringTable file))) ∧
    (¬StringsLong former file → readOptStringtab former file (entryOf former file OBJ_STRT) = throw .message) := by
  rw [StringsLong]
  cases entryOf former file OBJ_STRT with
  | none => exact ⟨fun _ => rfl, fun h => absurd nofun h⟩
  | some ent =>
    rw [readOptStringtab, readStringtab]
    by_cases hshort : ent.size < 4
    · rw [if_pos hshort]
      exact ⟨fun h => absurd (h ent rfl) (BitVec.not_le.mpr hshort), fun _ => rfl⟩
    · rw [if_neg hshort]
      refine ⟨fun _ => rfl, fun h => absurd ?_ h⟩
      rintro _ heq
      rw [← Option.some.inj heq]
      exact BitVec.not_lt.mp hshort

theorem safe_printOptIdent (ent : Option ChunkEnt) :
    Straight (printOptIdent former file ent) ∧
      (Safe (printOptIdent former file ent) ↔ ∀ e, ent = some e → IdentEnds former file e) := by
  cases ent with
  | none => exact ⟨straight_pure none, iff_of_true (safe_pure none) nofun⟩
  | some ent =>
    have hone : (∀ e, some ent = some e → IdentEnds former file e) ↔ IdentEnds former file ent := by
      constructor
      · exact fun h => h ent rfl
      · rintro h _ heq
        rwa [← Option.some.inj heq]
    rw [hone, printOptIdent, readIdent, IdentEnds]
    by_cases hroom : (identBytes file ent).length ≤ ent.size.toNat
    · rw [if_pos hroom, and_iff_right hroom]
      have hprint : Safe (printed (identOf former.identString file ent) 0) ↔ 0 ∈ identOf former.identString file ent :=
        safe_printed.trans (by rw [List.drop_zero])
      change Straight (printed (identOf former.identString file ent) 0 >>= fun str => pure (some str)) ∧
        (Safe (printed (identOf former.identString file ent) 0 >>= fun str => pure (some str)) ↔ _)
      exact ⟨straight_bind straight_printed fun _ _ => straight_pure _, safe_map.trans hprint⟩
    · rw [if_neg hroom]
      exact ⟨straight_outside, iff_of_false not_safe_outside fun h => hroom h.1⟩

theorem findOptEnt_eq {hdr : ChunkHdr} {name : List UInt8} {ent : Option ChunkEnt}
    (wanted : Bool) (h : findEnt hdr ents name = .ok ent) :
    findOptEnt wanted hdr ents name = .ok (if wanted = true then ent else none) := by
  rw [findOptEnt]
  cases wanted with
  | false => rfl
  | true => exact h

theorem needEnt_some {hdr : ChunkHdr} {name : List UInt8} {ent : ChunkEnt}
    (h : findEnt hdr ents name = .ok (some ent)) : needEnt hdr ents name = .ok ent := by
  rw [needEnt, h]
  rfl

theorem needEnt_none {hdr : ChunkHdr} {name : List UInt8}
    (h : findEnt hdr ents name = .ok none) : needEnt hdr ents name = throw .message := by
  rw [needEnt, h]
  rfl

theorem length_stringtabOf (memory : ℕ → UInt8) (ent : ChunkEnt) :
    (stringtabOf memory file ent).str.length = ent.size.toNat - 4 := by
  obtain ⟨rest, hstr⟩ : ∃ rest : List UInt8, (stringtabOf memory file ent).str =
      rest.take (ent.size.toNat - 4) ++ bytesAt memory (4 + (rest.take (ent.size.toNat - 4)).length)
        (ent.size.toNat - 4 - (rest.take (ent.size.toNat - 4)).length) :=
    ⟨(readWord.run (file.drop ent.offset.toNat)).2, rfl⟩
  have hless := List.length_take_le (ent.size.toNat - 4) rest
  rw [hstr, List.length_append, length_bytesAt]
  omega

theorem decoderOf_aofhdr (areaEnt headEnt : ChunkEnt) :
    (decoderOf former file areaEnt headEnt).aofhdr = aofFixedOf file headEnt := rfl

theorem decoderOf_areahdrs (areaEnt headEnt : ChunkEnt) :
    (decoderOf former file areaEnt headEnt).areahdrs =
      entriesFrom (fun _ => readAreahdr) (aofFixedOf file headEnt).numareas.toNat 0
        (readAofFixed.run (file.drop headEnt.offset.toNat)).2 := by
  rw [decoderOf]

theorem decoderOf_stringtab (areaEnt headEnt : ChunkEnt) :
    (decoderOf former file areaEnt headEnt).stringtab =
      (entryOf former file OBJ_STRT).map (stringtabOf former.stringTable file) := by
  rw [decoderOf]

theorem decoderOf_symboltab (areaEnt headEnt : ChunkEnt) :
    (decoderOf former file areaEnt headEnt).symboltab =
      (symEntOf former file (aofFixedOf file headEnt).numsyms).map (symbolsOf file (aofFixedOf file headEnt).numsyms) := by
  rw [decoderOf]

theorem safe_print_decoderOf (ident : Option (List UInt8)) (areaEnt headEnt : ChunkEnt)
    (hlong : StringsLong former file) :
    Safe (print opts (decoderOf former file areaEnt headEnt) ident) ↔
      Fits opts (decoderOf former file areaEnt headEnt) := by
  refine safe_print ident ?_ ?_ ?_
  · rw [decoderOf_areahdrs, decoderOf_aofhdr, length_entriesFrom]
  · intro symboltab heq
    rw [decoderOf_symboltab] at heq
    obtain ⟨ent, -, rfl⟩ := Option.map_eq_some_iff.mp heq
    rw [symbolsOf, decoderOf_aofhdr, length_entriesFrom]
  · intro stringtab heq
    rw [decoderOf_stringtab] at heq
    obtain ⟨ent, hent, rfl⟩ := Option.map_eq_some_iff.mp heq
    have hfour := BitVec.le_def.mp (hlong ent hent)
    have hsize := ent.size.isLt
    rw [length_stringtabOf]
    change 4 ≤ _ at hfour
    omega

theorem safe_decode_ident {stringtab : Option StringTab} (hlong : StringsLong former file)
    (hstr : stringtab = (entryOf former file OBJ_STRT).map (stringtabOf former.stringTable file))
    (hfind : ∀ name, findEnt (chunkhdrOf file) ents name = .ok (entryOf former file name)) (ident : Option (List UInt8)) :
    Safe (needEnt (chunkhdrOf file) ents OBJ_AREA >>= fun areaEnt =>
      needEnt (chunkhdrOf file) ents OBJ_HEAD >>= fun headEnt =>
      readAofhdr former.aofHdr file headEnt >>= fun aof =>
      findOptEnt (aof.1.numsyms ≠ 0) (chunkhdrOf file) ents OBJ_SYMT >>= fun symEnt =>
      readOptSymboltab former file aof.1.numsyms symEnt >>= fun symboltab =>
      print opts {
        file, aofhdr := aof.1, areahdrs := aof.2, stringtab, symboltab
        symboltab_size := symEnt.elim 0 ChunkEnt.size
        area_offset := areaEnt.offset } ident) ↔
    ∀ areaEnt headEnt, entryOf former file OBJ_AREA = some areaEnt → entryOf former file OBJ_HEAD = some headEnt →
      HeaderFits file headEnt → Fits opts (decoderOf former file areaEnt headEnt) := by
  cases harea : entryOf former file OBJ_AREA with
  | none =>
    rw [needEnt_none (harea ▸ hfind OBJ_AREA)]
    exact iff_of_true safe_message nofun
  | some areaEnt =>
    rw [needEnt_some (harea ▸ hfind OBJ_AREA)]
    cases hhead : entryOf former file OBJ_HEAD with
    | none =>
      rw [needEnt_none (hhead ▸ hfind OBJ_HEAD)]
      exact iff_of_true safe_message nofun
    | some headEnt =>
      rw [needEnt_some (hhead ▸ hfind OBJ_HEAD)]
      have hone : (∀ a h, some areaEnt = some a → some headEnt = some h → HeaderFits file h →
          Fits opts (decoderOf former file a h)) ↔
          (HeaderFits file headEnt → Fits opts (decoderOf former file areaEnt headEnt)) := by
        constructor
        · exact fun h => h areaEnt headEnt rfl rfl
        · rintro h _ _ heqa heqh
          rwa [← Option.some.inj heqa, ← Option.some.inj heqh]
      rw [hone]
      obtain ⟨hright, hwrong⟩ := @readAofhdr_eq former file headEnt
      rw [ok_bind, ok_bind]
      by_cases hfits : HeaderFits file headEnt
      · have hsym := findOptEnt_eq ((aofFixedOf file headEnt).numsyms ≠ 0) (hfind OBJ_SYMT)
        rw [hright hfits, forall_prop_of_true hfits, ← safe_print_decoderOf ident areaEnt headEnt hlong, decoderOf,
          symEntOf, ok_bind]
        dsimp only at hsym ⊢
        rw [hsym, ok_bind, readOptSymboltab_eq, ok_bind, hstr]
        simp only [decide_eq_true_iff]
      · rw [hwrong hfits]
        exact iff_of_true safe_message fun h => absurd h hfits

/-- **decaof keeps to its tables**, and prints only strings that end in them, if and only if the tables of the file
agree. -/
theorem decode_safe_iff (opts : Options) (former : Former) (file : List UInt8) :
    Safe (decode opts former file) ↔
      ((chunkhdrOf file).chunkfileid = 0xc3cbc6c5 → InTables opts former file) := by
  rw [decode]
  by_cases haccept : (chunkhdrOf file).chunkfileid = 0xc3cbc6c5
  · rw [if_neg (not_not.mpr haccept), forall_prop_of_true haccept]
    by_cases hroom : (chunkhdrOf file).numchunks ≤ (chunkhdrOf file).maxchunks
    · obtain ⟨ents, hents⟩ := readChunkents_ok former file hroom
      have hfind := fun name => findEnt_eq name hroom hents
      rw [hents, ok_bind, hfind OBJ_STRT, ok_bind]
      obtain ⟨hlongOk, hshort⟩ := @readOptStringtab_eq former file
      by_cases hlong : StringsLong former file
      · rw [hlongOk hlong, ok_bind, findOptEnt_eq opts.print_ident (hfind OBJ_IDFN), ok_bind]
        obtain ⟨hstraight, hident⟩ := @safe_printOptIdent former file
          (if opts.print_ident = true then entryOf former file OBJ_IDFN else none)
        rw [hstraight.safe_bind fun ident _ => safe_decode_ident hlong rfl hfind ident, hident]
        constructor
        · rintro ⟨hends, hfits⟩
          refine ⟨hroom, ?_, fun _ => hfits⟩
          intro _ hprint ent hent
          exact hends ent (by rw [if_pos hprint, hent])
        · rintro ⟨-, hends, hfits⟩
          refine ⟨?_, hfits hlong⟩
          intro ent hent
          by_cases hprint : opts.print_ident = true
          · rw [if_pos hprint] at hent
            exact hends hlong hprint ent hent
          · rw [if_neg hprint] at hent
            cases hent
      · rw [hshort hlong]
        exact iff_of_true safe_message ⟨hroom, fun h => absurd h hlong, fun h => absurd h hlong⟩
    · rw [safe_bind, safe_readChunkents]
      exact iff_of_false (fun h => hroom h.1) fun h => hroom h.chunks
  · rw [if_pos haccept]
    exact iff_of_true safe_message fun h => absurd h haccept

theorem oneChunk_not_safe : ¬∀ (opts : Options) (former : Former) (file : List UInt8),
    (chunkhdrOf file).chunkfileid = 0xc3cbc6c5 → Safe (decode opts former file) := by
  intro hall
  have hone := hall ⟨false, false, false, false, false, false⟩ ⟨fun _ => 0, fun _ => 0, fun _ => 0, fun _ => 0, fun _ => 0⟩
    [0xc5, 0xc6, 0xcb, 0xc3, 0, 0, 0, 0, 1, 0, 0, 0] (by decide)
  exact absurd hone (by decide)

end Whole

/-! ### The listing -/

section Listing
variable {opts : Options} {d : Decoder}

end Listing

end Decaof.Tables
