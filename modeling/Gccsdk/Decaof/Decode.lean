import Gccsdk.Lib.StringTable
import Gccsdk.Lib.TokenReader
import Mathlib.Algebra.GroupWithZero.Nat

/-!
# decaof

Reading an AOF file: `io.c`, `misc.c` and `decode.c`, with the listing of everything, which is what decaof does
without options. The listing is what is printed, before it is put into words: the table of strings is left out,
and that rows of equal words are printed as dots.

A file is its bytes. Reading behind its end gives 0xFF. Errors in reading do not happen; memory is there.
-/

namespace Decaof

open TokenReader

abbrev Word := BitVec 32

/-! ### Reading -/

/-- `read_byte`: at the end of the file `getc` gives `EOF`. -/
def readByte : Reader UInt8 UInt8
  | [] => (0xFF, [])
  | b :: rest => (b, rest)

def readHalfword : Reader UInt8 (BitVec 16) := do
  let lowByte ← readByte
  let highByte ← readByte
  return lowByte.toBitVec.setWidth 16 + highByte.toBitVec.setWidth 16 <<< 8

def readWord : Reader UInt8 Word := do
  let lowHalfword ← readHalfword
  let highHalfword ← readHalfword
  return lowHalfword.setWidth 32 + highHalfword.setWidth 32 <<< 16

structure ChunkHdr where
  chunkfileid : Word
  maxchunks : Word
  numchunks : Word

structure ChunkEnt where
  chunkid : List UInt8
  offset : Word
  size : Word

structure AreaHdr where
  name : Word
  flags : Word
  size : Word
  numrelocs : Word
  baseaddr : Word

/-- `struct aofhdr`, with the headers of the areas behind it. -/
structure AofHdr where
  filetype : Word
  version : Word
  numareas : Word
  numsyms : Word
  entryarea : Word
  entryoffset : Word

structure Symbol where
  name : Word
  flags : Word
  value : Word
  areaname : Word

structure Reloc where
  offset : Word
  flags : Word

def readChunkhdr : Reader UInt8 ChunkHdr := do
  return { chunkfileid := ← readWord, maxchunks := ← readWord, numchunks := ← readWord }

/-- One round of `read_chunkents`. -/
def readChunkent : Reader UInt8 ChunkEnt := do
  return { chunkid := ← take 8, offset := ← readWord, size := ← readWord }

/-- `read_chunkents`. There is memory for `maxchunks` entries. -/
def readChunkents (file : List UInt8) (hdr : ChunkHdr) : Option (List ChunkEnt) :=
  if hdr.numchunks ≤ hdr.maxchunks then some (readAt (times readChunkent hdr.numchunks.toNat) file 12) else none

/-- `aof_obj_strt` -/
structure StringTab where
  size : Word
  str : List UInt8

def readStringtab (file : List UInt8) (strent : ChunkEnt) : Option StringTab :=
  if strent.size < 4 then none
  else some (readAt (do return { size := ← readWord, str := ← take (strent.size.toNat - 4) }) file strent.offset.toNat)

/-- One round of `read_symboltab`. -/
def readSymbol : Reader UInt8 Symbol := do
  return { name := ← readWord, flags := ← readWord, value := ← readWord, areaname := ← readWord }

def readSymboltab (file : List UInt8) (syment : ChunkEnt) (numSyms : Word) : List Symbol :=
  readAt (times readSymbol numSyms.toNat) file syment.offset.toNat

def readIdent (file : List UInt8) (ident : ChunkEnt) : List UInt8 :=
  readAt (take ident.size.toNat) file ident.offset.toNat

def readAofFixed : Reader UInt8 AofHdr := do
  return {
    filetype := ← readWord
    version := ← readWord
    numareas := ← readWord
    numsyms := ← readWord
    entryarea := ← readWord
    entryoffset := ← readWord }

def readAreahdr : Reader UInt8 AreaHdr := do
  return {
    name := ← readWord
    flags := ← readWord
    size := ← readWord
    numrelocs := ← readWord
    baseaddr := ← readWord }

def readAofhdr (file : List UInt8) (hdrent : ChunkEnt) : Option (AofHdr × List AreaHdr) :=
  if hdrent.size < 24 then none
  else
    let reader : Reader UInt8 (AofHdr × List AreaHdr) := do
      let aofHdr ← readAofFixed
      -- the entries are read only if the size is right
      let areaHdrs ← times readAreahdr aofHdr.numareas.toNat
      return (aofHdr, areaHdrs)
    let hdr := readAt reader file hdrent.offset.toNat
    if hdrent.size.toNat ≠ 24 + hdr.1.numareas.toNat * 20 then none else some hdr

def readReloc : Reader UInt8 Reloc := do
  return { offset := ← readWord, flags := ← readWord }

def findEnt (ents : List ChunkEnt) (name : List UInt8) : Option ChunkEnt := ents.find? fun ent => ent.chunkid == name

/-! ### The listing -/

/-- A field that is relocated. -/
inductive Field
  | byte
  | short
  | word
  | instructions (atMost : Option ℕ)
  deriving DecidableEq, Repr

/-- How a field is relocated, by a relocation of type 2: its bits B and R. -/
inductive RelocHow
  | displacedBy
  | pcRelativeTo
  | baseRelativeTo
  | tailcallTo
  deriving DecidableEq, Repr

inductive RelocListing
  | unknown
  /-- instructions, before version 310 -/
  | undefinedField (offset flags : Word)
  | thisArea (offset flags : Word) (field : Field)
  | pcRelativeSymbol (offset flags : Word) (field : Field) (symbol : Option (List UInt8))
  | symbol (offset flags : Word) (field : Field) (symbol : Option (List UInt8))
  | undefined (offset flags : Word) (field : Field)
  /-- type 2, to a symbol or the base of an area -/
  | type2 (offset flags : Word) (field : Field) (how : RelocHow) (isSymbol : Bool) (name : Option (List UInt8))
  deriving DecidableEq, Repr

structure AreaListing where
  name : Option (List UInt8)
  flags : Word
  size : Word
  numrelocs : Word
  baseaddr : Word
  /-- empty for an area without data -/
  contents : List Word
  relocs : List RelocListing
  deriving DecidableEq, Repr

inductive SymbolPlace
  | nowhere
  | value (value : Word)
  | inArea (areaname : Option (List UInt8)) (value : Word)
  deriving DecidableEq, Repr

structure SymbolListing where
  name : Option (List UInt8)
  flags : Word
  place : SymbolPlace
  deriving DecidableEq, Repr

structure Listing where
  filetype : Word
  version : Word
  ident : Option (List UInt8)
  areas : List AreaListing
  symbols : List SymbolListing
  deriving DecidableEq, Repr

structure Decoder where
  file : List UInt8
  aofhdr : AofHdr
  areahdrs : List AreaHdr
  symboltab : Option (List Symbol)
  symboltab_size : Word
  stringtab : Option StringTab
  area_offset : Word

namespace Decoder
variable (d : Decoder)

def string (offset : Word) : Option (List UInt8) := do
  let stringtab ← d.stringtab
  if offset < 4 ∨ stringtab.size ≤ offset then none
  else StringTable.readName stringtab.str (offset - 4).toNat

def symname (offset : Word) : Option (List UInt8) := do
  let symboltab ← d.symboltab
  if d.symboltab_size ≤ offset then none
  else
    let sym ← symboltab[offset.toNat]?
    d.string sym.name

def areaname (areaIndex : Word) : Option (List UInt8) :=
  if d.aofhdr.numareas ≤ areaIndex then none
  else do
    let hdr ← d.areahdrs[areaIndex.toNat]?
    d.string hdr.name

end Decoder

def fieldType2 (flags : Word) : Field :=
  match (flags >>> 24 &&& 0x3).toNat with
  | 0 => .byte
  | 1 => .short
  | 2 => .word
  | _ => .instructions (if (flags >>> 29 &&& 0x3) = 0 then none else some (flags >>> 29 &&& 0x3).toNat)

def fieldType1 (flags : Word) : Field :=
  match (flags >>> 16 &&& 0x3).toNat with
  | 0 => .byte
  | 1 => .short
  | 2 => .word
  | _ => .instructions (if (flags >>> 29 &&& 0x3) = 0 then none else some (flags >>> 29 &&& 0x3).toNat)

def relocHow (flags : Word) : RelocHow :=
  if flags &&& 0x14000000 = 0 then .displacedBy
  else if flags &&& 0x14000000 = 0x04000000 then .pcRelativeTo
  else if flags &&& 0x14000000 = 0x10000000 then .baseRelativeTo
  else .tailcallTo

/-- The relocations, in `print_area`. -/
def printReloc (d : Decoder) (reloc : Reloc) : RelocListing :=
  let flags := reloc.flags
  if flags &&& 0xfff00000 = 0 then
    match fieldType1 flags with
    | .instructions n =>
      if d.aofhdr.version < 310 then .undefinedField reloc.offset flags else type1 flags (.instructions n)
    | field => type1 flags field
  else if flags &&& 0x80000000 = 0x80000000 then
    match fieldType2 flags with
    | .instructions n =>
      if d.aofhdr.version < 310 then .undefinedField reloc.offset flags else type2 flags (.instructions n)
    | field => type2 flags field
  else .unknown
where
  type1 (flags : Word) (field : Field) : RelocListing :=
    match (flags >>> 18 &&& 3).toNat with
    | 0 => .thisArea reloc.offset flags field
    | 1 => .pcRelativeSymbol reloc.offset flags field (d.symname (flags &&& 0xffff))
    | 2 => .symbol reloc.offset flags field (d.symname (flags &&& 0xffff))
    | _ => .undefined reloc.offset flags field
  type2 (flags : Word) (field : Field) : RelocListing :=
    if flags &&& 0x08000000 ≠ 0 then
      .type2 reloc.offset flags field (relocHow flags) true (d.symname (flags &&& 0xFFFFFF))
    else .type2 reloc.offset flags field (relocHow flags) false (d.areaname (flags &&& 0xFFFFFF))

def areaUData : Word := 0x00001000

/-- The contents of an area, in `print_area`. Reading does not end if the size is not a multiple of 4. -/
def readContents (d : Decoder) (areahdr : AreaHdr) (offset : Word) : Option (List Word) :=
  if areahdr.flags &&& areaUData = 0 then
    if areahdr.size.toNat % 4 = 0 then
      some (readAt (times readWord (areahdr.size.toNat / 4)) d.file (d.area_offset + offset).toNat)
    else none
  else some []

def printArea (d : Decoder) (areahdr : AreaHdr) (offset reloff : Word) : Option AreaListing := do
  let contents ← readContents d areahdr offset
  let relocs := readAt (times readReloc areahdr.numrelocs.toNat) d.file (d.area_offset + reloff).toNat
  pure {
    name := d.string areahdr.name
    flags := areahdr.flags
    size := areahdr.size
    numrelocs := areahdr.numrelocs
    baseaddr := areahdr.baseaddr
    contents
    relocs := relocs.map (printReloc d) }

/-- The loop over the areas, in `decode`. -/
def printAreas (d : Decoder) : Word → List AreaHdr → Option (List AreaListing)
  | _, [] => some []
  | offset, areahdr :: areahdrs => do
    let relocOffset := if areahdr.flags &&& areaUData ≠ 0 then offset else offset + areahdr.size
    let area ← printArea d areahdr offset relocOffset
    let areas ← printAreas d (relocOffset + areahdr.numrelocs * 8) areahdrs
    pure (area :: areas)

/-- `SYMBOL_DEFINED | SYMBOL_COMMON` -/
def symbolDefinedOrCommon : Word := 0x0041

/-- `SYMBOL_ABSOLUTE | SYMBOL_COMMON` -/
def symbolAbsoluteOrCommon : Word := 0x0044

/-- The loop over the symbols, in `decode`. -/
def printSymbol (d : Decoder) (sym : Symbol) : SymbolListing where
  name := d.string sym.name
  flags := sym.flags
  place :=
    if sym.flags &&& symbolDefinedOrCommon = 0 then .nowhere
    else if sym.flags &&& symbolAbsoluteOrCommon ≠ 0 then .value sym.value
    else .inArea (d.string sym.areaname) sym.value

/-- The table of strings, in `decode`: a file can be without. -/
def readOptStringtab (file : List UInt8) : Option ChunkEnt → Option (Option StringTab)
  | some ent => (readStringtab file ent).map some
  | none => some none

/-- The symbols that are listed: without a table there is nothing to list them from. -/
def Decoder.listedSymbols (d : Decoder) : Option (List Symbol) :=
  if d.aofhdr.numsyms = 0 then some [] else d.symboltab

/-- The listing of what has been read, in `decode`. -/
def Decoder.listing (d : Decoder) (ident : Option (List UInt8)) : Option Listing := do
  let areas ← printAreas d 0 d.areahdrs
  let symbols ← d.listedSymbols
  pure {
    filetype := d.aofhdr.filetype
    version := d.aofhdr.version
    ident
    areas
    symbols := symbols.map (printSymbol d) }

/-- **`decode`**, for one file. There is none if the file cannot be read as an AOF file. -/
def decode (file : List UInt8) : Option Listing :=
  let hdr := readAt readChunkhdr file 0
  if hdr.chunkfileid ≠ 0xc3cbc6c5 then none
  else do
    let ents ← readChunkents file hdr
    let stringtab ← readOptStringtab file (findEnt ents "OBJ_STRT".toUTF8.data.toList)
    let ident := (findEnt ents "OBJ_IDFN".toUTF8.data.toList).map (readIdent file)
    let areaEnt ← findEnt ents "OBJ_AREA".toUTF8.data.toList
    let headEnt ← findEnt ents "OBJ_HEAD".toUTF8.data.toList
    let (aofhdr, areahdrs) ← readAofhdr file headEnt
    let symEnt := if aofhdr.numsyms ≠ 0 then findEnt ents "OBJ_SYMT".toUTF8.data.toList else none
    let d : Decoder := {
      file, aofhdr, areahdrs, stringtab
      symboltab := symEnt.map fun ent => readSymboltab file ent aofhdr.numsyms
      symboltab_size := symEnt.elim 0 ChunkEnt.size
      area_offset := areaEnt.offset }
    d.listing ident

end Decaof
