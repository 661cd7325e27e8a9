import Gccsdk.Asasm.Value

/-!
# Symbols and areas

The records of `symbol.h`, `area.h` and `reloc.h` with their flag words. C reaches a `Symbol` by
pointer, from the hash table, from the area list and from values, so all symbols live in one heap
`SymHeap` and every reference is a `SymId` into it. An area is a symbol with `symbolArea` set,
whose `Area` record is part of the symbol.
-/

namespace Asasm

/-- A test of flag bits, `(x & mask) != 0`. -/
def isSet (x mask : BitVec 32) : Bool := x &&& mask != 0

/-! ### Areas: the `AREA_*` bits of `Area::type` -/

def areaAlignMask : BitVec 32 := 0x000000FF
def areaAbs : BitVec 32 := 0x00000100
def areaCode : BitVec 32 := 0x00000200
def areaCommonDef : BitVec 32 := 0x00000400
def areaUData : BitVec 32 := 0x00001000
def areaReadOnly : BitVec 32 := 0x00002000
def areaBased : BitVec 32 := 0x00100000
def areaIntDwarf : BitVec 32 := 0x20000000

/-- A relocation of an area, `struct RelocInt`. -/
structure RelocInt where
  /-- AOF: `HOW2_*` bits. ELF: an `R_ARM_*` value. -/
  how : BitVec 32
  offset : BitVec 32
  /-- For ELF this can be `none`: a relocation against symbol 0. -/
  symP : Option SymId
  deriving DecidableEq, Repr

structure Area where
  type : BitVec 32 := 0
  curIdx : BitVec 32 := 0
  maxIdx : BitVec 32 := 0
  reloc : List RelocInt := []
  /-- AOF: area number, from 0 onwards. ELF: section index, from 3 onwards. -/
  number : BitVec 32 := 0
  deriving DecidableEq, Repr, Inhabited

/-- `Area_IsNoInit`. -/
def Area.isNoInit (area : Area) : Bool := isSet area.type areaUData

/-- `Area_IsDWARF`. -/
def Area.isDWARF (area : Area) : Bool := isSet area.type areaIntDwarf

/-- `Area_GetBaseReg`: the four bits of `AREA_MASKBASEREG`. -/
def Area.getBaseReg (area : Area) : Fin 16 := (area.type.extractLsb' 24 4).toFin

/-! ### Symbols: the `SYMBOL_*` bits of `SymbolAttr::type` -/

def symbolLocal : BitVec 32 := 0x0001
def symbolReference : BitVec 32 := 0x0002
def symbolGlobal : BitVec 32 := 0x0003
def symbolDefined : BitVec 32 := 0x0001
def symbolExport : BitVec 32 := 0x0002
def symbolAbsolute : BitVec 32 := 0x0004
def symbolWeak : BitVec 32 := 0x0010
def symbolCommon : BitVec 32 := 0x0040
def symbolNoExport : BitVec 32 := 0x08000000
def symbolRW : BitVec 32 := 0x20000000
def symbolKeep : BitVec 32 := 0x40000000
def symbolArea : BitVec 32 := 0x80000000

def symbolKind (type : BitVec 32) : BitVec 32 := type &&& 3

/-- `Symbol` with its `SymbolAttr`. The `area` is read only when `symbolArea` is set. -/
structure Symbol where
  str : Name := []
  type : BitVec 32 := 0
  value : Value := .illegal
  codeSize : BitVec 32 := 0
  area : Area := {}
  aligned : BitVec 32 := 0
  visibility : BitVec 2 := 0
  /-- Position of the name in the string table, set when the symbol table is written. -/
  offset : BitVec 32 := 0
  /-- -1 or 0 before the symbol table is written, then the index relocations refer to. -/
  used : Int := -1
  deriving Inhabited

def Symbol.len (sym : Symbol) : Nat := sym.str.length

def Symbol.isArea (sym : Symbol) : Bool := isSet sym.type symbolArea

/-- `SYMBOL_KIND` of a symbol. -/
def Symbol.kind (sym : Symbol) : BitVec 32 := symbolKind sym.type

def implicitAreaName : Name := cstr "$$$$$$$"

/-- `Area_IsImplicit`. -/
def Symbol.isImplicit (sym : Symbol) : Bool := sym.str == implicitAreaName

/-- `Area_GetBaseAddress`, with its assertions. -/
def Symbol.getBaseAddress (sym : Symbol) : Option (BitVec 32) := do
  assert (sym.isArea && isSet sym.area.type areaAbs)
  match sym.value with
  | .int i .pureInt => some i
  | _ => none

/-- `Area_eEntryType`. -/
inductive AreaEntryType
  | invalid
  | arm
  | data
  | thumb
  | thumbEE
  deriving DecidableEq, Repr

/-- `Area_IsMappingSymbol`: names beginning with `$a`, `$d`, `$t` or `$t.`. -/
def areaIsMappingSymbol : Name → AreaEntryType
  | 0x24 :: 0x61 :: _ => .arm
  | 0x24 :: 0x64 :: _ => .data
  | 0x24 :: 0x74 :: 0x2E :: _ => .thumbEE
  | 0x24 :: 0x74 :: _ => .thumb
  | _ => .invalid

/-- The use of `Area_IsMappingSymbol` as a truth value. -/
def Symbol.isMapping (sym : Symbol) : Bool := areaIsMappingSymbol sym.str ≠ .invalid

/-! ### The symbol heap -/

/-- **All symbols in memory.** `size` of them have been allocated; a reference that has not been
allocated yet reads as a fresh symbol. -/
structure SymHeap where
  size : Nat
  sym : SymId → Symbol

namespace SymHeap

instance : Inhabited SymHeap := ⟨0, fun _ => {}⟩

def ofList (syms : List Symbol) : SymHeap := ⟨syms.length, fun id => syms.getD id {}⟩

def modify (heap : SymHeap) (id : SymId) (f : Symbol → Symbol) : SymHeap :=
  { heap with sym := fun j => if j = id then f (heap.sym j) else heap.sym j }

variable (heap : SymHeap) (id : SymId) (f : Symbol → Symbol)

@[simp] theorem modify_sym_self : (heap.modify id f).sym id = f (heap.sym id) := if_pos rfl

@[simp] theorem modify_sym_of_ne {j : SymId} (h : j ≠ id) :
    (heap.modify id f).sym j = heap.sym j := if_neg h

theorem modify_sym_field {β : Type} (field : Symbol → β) (hf : ∀ s, field (f s) = field s)
    (j : SymId) : field ((heap.modify id f).sym j) = field (heap.sym j) := by
  by_cases h : j = id
  · subst h
    rw [modify_sym_self, hf]
  · rw [modify_sym_of_ne heap id f h]

end SymHeap

end Asasm
