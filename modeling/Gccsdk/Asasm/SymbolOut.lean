import Gccsdk.Asasm.SymbolTable
import Mathlib.Data.List.Sort
import Mathlib.Algebra.GroupWithZero.Nat

/-!
# Writing the symbol table

`Symbol_CreateSymbolOut` of `symbol.c` and the functions it calls: which symbols go into the object
file (`needToOutputSymbol`), in which order (`symbolCompare`), at which string table offsets
(`assignOffset`), and the bytes of the string table and the entries of the symbol table for AOF and
ELF. An assertion that fails stops the assembler: the model returns `none` there.
-/

namespace Asasm

/-- The options and `EXPORT`/`KEEP` state that decide on the symbol output. -/
structure SymbolOptions where
  /-- `option_aof`: AOF output, ELF otherwise. -/
  optionAof : Bool
  /-- `oKeepAllSymbols`, set by a bare `KEEP`. -/
  keepAllSymbols : Bool := false
  /-- `oExportAllSymbols`, set by a bare `EXPORT`. -/
  exportAllSymbols : Bool := false
  /-- `oAllExportSymbolsAreWeak`, set by `EXPORT [WEAK]`. -/
  allExportSymbolsAreWeak : Bool := false
  /-- `APCS_OPT_FPREGARGS` and `APCS_OPT_SOFTFP` of `gOptionAPCS`. -/
  optFPRegArgs : Bool := false
  optSoftFP : Bool := false
  deriving DecidableEq, Repr

/-! ### Which symbols are written, and in which order -/

/-- The decision of `NeedToOutputSymbol` on a symbol, given whether it is used for relocation. -/
def needToOutputUsed (o : SymbolOptions) (sym : Symbol) (used : Bool) : Bool :=
  if sym.isArea then !sym.isImplicit
  else if sym.isMapping then true
  else
    ((sym.kind == symbolGlobal
        || (sym.kind == symbolLocal
          && (o.keepAllSymbols || isSet sym.type symbolKeep || o.exportAllSymbols)))
      || (sym.kind == symbolReference && used))
    && sym.type &&& (symbolRW ||| symbolNoExport) == 0

/-- `NeedToOutputSymbol`, the decision. -/
def needToOutputSymbol (o : SymbolOptions) (sym : Symbol) : Bool :=
  needToOutputUsed o sym (sym.used == 0)

/-- `NeedToOutputSymbol`, the messages about `KEEP`. -/
def needToOutputDiags (sym : Symbol) : List Diag :=
  if sym.isArea || sym.isMapping || !isSet sym.type symbolKeep then []
  else match sym.value with
    | .int _ .pureInt => []
    | .symbol .. => []
    | .illegal =>
      [⟨.error, "Symbol %s is marked with KEEP but has not been defined", [.str sym.str]⟩]
    | _ =>
      [⟨.warning, "Symbol %s is marked with KEEP but has unsuitable value for export",
        [.str sym.str]⟩]

/-- The checks `Symbol_CreateSymbolOut` makes on each symbol before it counts it, with the messages
given. -/
def symbolOutCheck (sym : Symbol) : Option (List Diag) := do
  assert (sym.used == -1 || (!sym.isArea && sym.used == 0))
  if sym.isArea then
    assert (sym.kind == 0)
    pure (needToOutputDiags sym)
  else if sym.used == -1 then
    let unused := if sym.kind == symbolReference then
        [⟨.warning, "Symbol %s is imported but not used, or exported but not defined",
          [.str sym.str]⟩]
      else []
    pure (unused ++ needToOutputDiags sym)
  else
    assert (sym.kind != 0)
    pure (needToOutputDiags sym)

/-- The symbols counted by `numLocalSymbols`. -/
def Symbol.isLocalPart (sym : Symbol) : Bool := sym.isArea || sym.kind == symbolLocal

/-- `strcasecmp`; the end of a string compares as NUL. -/
def strcasecmp : Name → Name → Int
  | [], [] => 0
  | c :: _, [] => (tolower c).toNat
  | [], d :: _ => -(tolower d).toNat
  | c :: s, d :: t =>
    if tolower c = tolower d then strcasecmp s t else (tolower c).toNat - (tolower d).toNat

def symbolCompare (optionAof : Bool) (heap : SymHeap) (sym1 sym2 : Symbol) : Option Int :=
  if !optionAof || (!sym1.isMapping && !sym2.isMapping) then some (strcasecmp sym1.str sym2.str)
  else if sym1.isMapping != sym2.isMapping then some (if sym1.isMapping then 1 else -1)
  else match sym1.value, sym2.value with
    | .symbol area1 factor1 offset1, .symbol area2 factor2 offset2 => do
      assert (factor1 == 1 && factor2 == 1)
      if area1 ≠ area2 then some (strcasecmp (heap.sym area1).str (heap.sym area2).str)
      else some (offset1 - offset2).toInt
    | _, _ => none

/-- The `qsort` calls. The order of symbols that compare equal is the one they came in. A failing
assertion of the comparison stops the sort. -/
def sortSymbols (optionAof : Bool) (heap : SymHeap) (ids : List SymId) : Option (List SymId) := do
  let compare a b := symbolCompare optionAof heap (heap.sym a) (heap.sym b)
  assert (ids.all fun a => ids.all fun b => a == b || (compare a b).isSome)
  pure (ids.insertionSort fun a b => (compare a b).getD 0 ≤ 0)

/-! ### String table offsets -/

/-- `mapSymbols[]`: where the shared string of each kind of mapping symbol was put, `none` for the
initial `UINT_MAX`. -/
abbrev MapSymbols := AreaEntryType → Option Nat

/-- The `len` of an entry of `mapSymbols[]`. -/
def AreaEntryType.mapLen : AreaEntryType → Nat
  | .thumbEE => 5
  | _ => 3

/-- The variables of the loop that assigns `Symbol::offset` and `Symbol::used`. -/
structure OffsetState where
  strDataSize : Nat
  mapSymbols : MapSymbols
  table : SymbolTable

def Symbol.setOutput (offset : Nat) (used : Int) (sym : Symbol) : Symbol :=
  { sym with offset := BitVec.ofNat 32 offset, used := used }

def Symbol.outputIndex (optionAof : Bool) (symIdx : Nat) (sym : Symbol) : Int :=
  if optionAof && sym.isArea then sym.area.number.toNat else symIdx

/-- One round of that loop, for the symbol at index `symIdx` of the output. -/
def assignOffset (optionAof : Bool) (s : OffsetState) (symIdx : Nat) (id : SymId) :
    Option OffsetState :=
  let used := (s.table.sym id).outputIndex optionAof symIdx
  match areaIsMappingSymbol (s.table.sym id).str with
  | .invalid =>
    if (s.table.sym id).isArea && !optionAof then
      some { s with table := s.table.modify id (Symbol.setOutput 0 used) }
    else
      some { s with
        strDataSize := s.strDataSize + (s.table.sym id).len + 1
        table := s.table.modify id (Symbol.setOutput s.strDataSize used) }
  | type => do
    assert (!(s.table.sym id).isArea)
    match s.mapSymbols type with
    | none =>
      pure { strDataSize := s.strDataSize + type.mapLen
             mapSymbols := fun t => if t = type then some s.strDataSize else s.mapSymbols t
             table := s.table.modify id (Symbol.setOutput s.strDataSize used) }
    | some offset => pure { s with table := s.table.modify id (Symbol.setOutput offset used) }

/-- The loop, from index `symIdx` on. -/
def assignOffsets (optionAof : Bool) : OffsetState → Nat → List SymId → Option OffsetState
  | s, _, [] => some s
  | s, symIdx, id :: ids => do
    let s ← assignOffset optionAof s symIdx id
    assignOffsets optionAof s (symIdx + 1) ids

/-- One round of `Symbol_BuildStringData`: the bytes written for a symbol when `strP` is at offset
`at`. -/
def stringDataOf (optionAof : Bool) (at' : Nat) (sym : Symbol) : Option (List UInt8) :=
  match areaIsMappingSymbol sym.str with
  | .invalid =>
    if sym.isArea && !optionAof then do
      assert (sym.offset == 0)
      pure []
    else do
      assert (sym.offset.toNat == at')
      pure (sym.str ++ [0])
  | type => do
    assert (sym.offset.toNat ≤ at')
    if sym.offset.toNat = at' then
      pure ([0x24, sym.str.getD 1 0] ++ (if type = .thumbEE then [0x2E, 0x78] else []) ++ [0])
    else pure []

/-- The loop of `Symbol_BuildStringData`, with the string data written so far. -/
def stringDataLoop (optionAof : Bool) (heap : SymHeap) :
    List UInt8 → List SymId → Option (List UInt8)
  | data, [] => some data
  | data, id :: ids => do
    let bytes ← stringDataOf optionAof data.length (heap.sym id)
    stringDataLoop optionAof heap (data ++ bytes) ids

def wordBytes (w : BitVec 32) : List UInt8 :=
  [0, 1, 2, 3].map fun i => ⟨w.extractLsb' (8 * i) 8⟩

/-- `Symbol_BuildStringData`. The size is a 32-bit variable in C, so the assertion at the end fails for a
table that does not fit. -/
def symbolBuildStringData (optionAof : Bool) (heap : SymHeap) (strDataSize : Nat)
    (ids : List SymId) : Option (List UInt8) := do
  let start := if optionAof then wordBytes (BitVec.ofNat 32 strDataSize) else [0]
  let data ← stringDataLoop optionAof heap start ids
  assert (data.length == strDataSize % 2 ^ 32)
  pure data

/-! ### Symbol table entries -/

structure AofSymbol where
  name : BitVec 32
  type : BitVec 32
  value : BitVec 32
  areaName : BitVec 32
  deriving DecidableEq, Repr

structure Elf32Sym where
  name : BitVec 32 := 0
  value : BitVec 32 := 0
  size : BitVec 32 := 0
  info : BitVec 8 := 0
  other : BitVec 8 := 0
  shndx : BitVec 16 := 0
  deriving DecidableEq, Repr

def stbLocal : BitVec 8 := 0
def stbGlobal : BitVec 8 := 1
def stbWeak : BitVec 8 := 2
def sttNoType : BitVec 8 := 0
def sttObject : BitVec 8 := 1
def sttSection : BitVec 8 := 3
def shnUndef : BitVec 16 := 0
def shnAbs : BitVec 16 := 0xFFF1
def shnCommon : BitVec 16 := 0xFFF2

def elf32StInfo (bind type : BitVec 8) : BitVec 8 := (bind <<< 4) + (type &&& 0xF)

/-- `ELF32_ST_BIND`: the binding of a symbol table entry. -/
def Elf32Sym.bind (e : Elf32Sym) : BitVec 8 := e.info >>> 4

def unableToExport (sym : Symbol) : Diag :=
  ⟨.error, "Unable to export symbol %s", [.str sym.str]⟩

/-- The value of a defined symbol and the area symbol it is relative to. `inl` is the symbol that
is reported and skipped. -/
def definedSymbolValue (heap : SymHeap) (sym : Symbol) :
    Option (Diag ⊕ (BitVec 32 × Option SymId)) :=
  match sym.value with
  | .int i type => do
    assert (type == .pureInt)
    pure (.inr (i, none))
  | .symbol relToAreaSym factor offset =>
    let area := heap.sym relToAreaSym
    if area.isArea && isSet area.area.type areaAbs && !sym.isMapping then do
      let base ← area.getBaseAddress
      pure (.inr (offset + factor * base, none))
    else if factor ≠ 1 then some (.inl (unableToExport sym))
    else some (.inr (offset, some relToAreaSym))
  | _ => none

def relToAreaOk (heap : SymHeap) (sym : Symbol) (relToAreaSym : Option SymId) : Bool :=
  ((!isSet sym.type symbolAbsolute) == relToAreaSym.isSome)
    && relToAreaSym.all fun a => (heap.sym a).isArea

/-- `ApplyDefaultSymbolTypeForExportOrImport` with an empty mask. -/
def applyDefaultSymbolType (o : SymbolOptions) (type : BitVec 32) : BitVec 32 :=
  (type ||| if o.optFPRegArgs then 0x0200 else 0) ||| if o.optSoftFP then 0x2000 else 0

/-- One round of `Symbol_BuildSymbolDataForAOF`. The entry is `none` when it is left unwritten. -/
def aofSymbolEntry (o : SymbolOptions) (heap : SymHeap) (sym : Symbol) :
    Option (Option AofSymbol × List Diag) := do
  if sym.isArea then
    let isAbs := isSet sym.area.type areaAbs
    assert (isSet sym.type symbolAbsolute == isAbs)
    let base ← if isAbs then sym.getBaseAddress else some 0
    let type := symbolLocal ||| (sym.type &&& symbolAbsolute)
    pure (some ⟨sym.offset, type, base, sym.offset⟩, [])
  else if isSet sym.type symbolDefined then
    match ← definedSymbolValue heap sym with
    | .inl diag => pure (none, [diag])
    | .inr (v, relToAreaSym) =>
      assert (relToAreaOk heap sym relToAreaSym)
      let type := sym.type &&& 0x3F7F
      let type := if o.exportAllSymbols && !sym.isMapping
        then applyDefaultSymbolType o (type ||| symbolExport) else type
      let areaName := relToAreaSym.elim 0 fun a => (heap.sym a).offset
      pure (some ⟨sym.offset, type, v, areaName⟩, [])
  else
    let v := match isSet sym.type symbolCommon, sym.value with
      | true, .int i _ => i
      | _, _ => 0
    pure (some ⟨sym.offset, (sym.type ||| symbolReference) &&& 0x3F7F, v, 0⟩, [])

/-- The kind `Symbol_BuildSymbolDataForELF` sees; a bare `EXPORT` makes it global. -/
def elfSymbolKind (o : SymbolOptions) (sym : Symbol) : BitVec 32 :=
  if o.exportAllSymbols && !sym.isMapping then symbolGlobal else sym.kind

/-- The binding `Symbol_BuildSymbolDataForELF` gives a symbol that is no area. -/
def elfSymbolBind (o : SymbolOptions) (sym : Symbol) : Option (BitVec 8) :=
  if (isSet sym.type symbolWeak || o.allExportSymbolsAreWeak) && !sym.isMapping then some stbWeak
  else if elfSymbolKind o sym = symbolLocal then some stbLocal
  else if elfSymbolKind o sym = symbolReference ∨ elfSymbolKind o sym = symbolGlobal then
    some stbGlobal
  else none

/-- The `st_value` and `st_shndx` of a symbol that is no area. -/
def elfSymbolPlace (heap : SymHeap) (sym : Symbol) : Option (Diag ⊕ (BitVec 32 × BitVec 16)) :=
  if isSet sym.type symbolDefined then do
    match ← definedSymbolValue heap sym with
    | .inl diag => pure (.inl diag)
    | .inr (v, relToAreaSym) =>
      assert (relToAreaOk heap sym relToAreaSym)
      pure (.inr (v, relToAreaSym.elim shnAbs fun a => (heap.sym a).area.number.setWidth 16))
  else if isSet sym.type symbolCommon then some (.inr (sym.aligned, shnCommon))
  else some (.inr (0, shnUndef))

/-- The entry of an area symbol in `Symbol_BuildSymbolDataForELF`. -/
def elfAreaEntry (sym : Symbol) : Option Elf32Sym := do
  assert (isSet sym.type symbolAbsolute == isSet sym.area.type areaAbs)
  assert (sym.kind == 0)
  let shndx := sym.area.number.setWidth 16
  assert (3 ≤ shndx)
  pure { info := elf32StInfo stbLocal sttSection, other := sym.visibility.setWidth 8, shndx }

def elfPlacedEntry (o : SymbolOptions) (sym : Symbol) (value : BitVec 32) (shndx : BitVec 16) :
    Option Elf32Sym := do
  let bind ← elfSymbolBind o sym
  let type := if isSet sym.type symbolCommon then sttObject else sttNoType
  -- mapping symbols are local, typeless and of size 0
  assert (!sym.isMapping || (bind == stbLocal && type == sttNoType && sym.codeSize == 0))
  pure { name := sym.offset, value, size := sym.codeSize, info := elf32StInfo bind type,
         other := sym.visibility.setWidth 8, shndx }

/-- One round of `Symbol_BuildSymbolDataForELF`. The entry is `none` when it is left unwritten. -/
def elfSymbolEntry (o : SymbolOptions) (heap : SymHeap) (sym : Symbol) :
    Option (Option Elf32Sym × List Diag) := do
  if sym.isArea then
    let entry ← elfAreaEntry sym
    pure (some entry, [])
  else
    match ← elfSymbolPlace heap sym with
    | .inl diag => pure (none, [diag])
    | .inr (value, shndx) =>
      let entry ← elfPlacedEntry o sym value shndx
      pure (some entry, [])

inductive SymData
  | aof (entries : List (Option AofSymbol))
  | elf (entries : List (Option Elf32Sym))
  deriving DecidableEq, Repr

/-- `SymbolOut_t`. -/
structure SymbolOut where
  numAllSymbols : Nat
  numLocalSymbols : Nat
  strData : List UInt8
  symData : SymData
  deriving DecidableEq, Repr

/-- `Symbol_BuildSymbolDataForAOF` and `Symbol_BuildSymbolDataForELF`. ELF symbol 0 is the undefined
symbol. -/
def symbolBuildSymbolData (o : SymbolOptions) (heap : SymHeap) (ids : List SymId) :
    Option (SymData × List Diag) := do
  if o.optionAof then
    let entries ← ids.mapM fun id => aofSymbolEntry o heap (heap.sym id)
    pure (.aof (entries.map Prod.fst), entries.flatMap Prod.snd)
  else
    let entries ← ids.mapM fun id => elfSymbolEntry o heap (heap.sym id)
    pure (.elf (some {} :: entries.map Prod.fst), entries.flatMap Prod.snd)

/-! ### Symbol_CreateSymbolOut -/

/-- What the first loop over the table does to a symbol: `used` is 0 for the symbols to write, -1
for the others. -/
def markUsed (o : SymbolOptions) (sym : Symbol) : Symbol :=
  { sym with used := if needToOutputSymbol o sym then 0 else -1 }

def SymbolTable.markUsed (o : SymbolOptions) (t : SymbolTable) : SymbolTable :=
  t.allSymbols.foldl (fun t id => t.modify id (Asasm.markUsed o)) t

/-- The number of symbols the first loop counts, all of them or only the local ones. -/
def SymbolTable.numSymbols (o : SymbolOptions) (t : SymbolTable) (p : Symbol → Bool) : Nat :=
  (t.allSymbols.filter fun id => needToOutputSymbol o (t.sym id) && p (t.sym id)).length

/-- The symbols the second loop lists, in the local and in the non-local part of the output. -/
def SymbolTable.listed (t : SymbolTable) (isLocal : Bool) : List SymId :=
  t.allSymbols.filter fun id => 0 ≤ (t.sym id).used && (t.sym id).isLocalPart == isLocal

/-- The symbols with an index, for AOF first the non-local then the local ones, for ELF first the
local (after the undefined symbol) then the non-local ones. -/
def orderSymbols (optionAof : Bool) (locals globals : List SymId) : List SymId :=
  if optionAof then globals ++ locals else locals ++ globals

/-- The number of symbols ELF puts before those of the table: the undefined symbol. -/
def undefinedSymbols (optionAof : Bool) : Nat := if optionAof then 0 else 1

/-- `Symbol_CreateSymbolOut`: the tables to write, the symbols with their final `used` and `offset`,
and the messages given. -/
def symbolCreateSymbolOut (o : SymbolOptions) (t : SymbolTable) :
    Option (SymbolOut × SymbolTable × List Diag) := do
  let checkDiags ← t.allSymbols.mapM fun id => symbolOutCheck (t.sym id)
  let undefined := undefinedSymbols o.optionAof
  let numLocalSymbols := t.numSymbols o Symbol.isLocalPart + undefined
  let numAllSymbols := t.numSymbols o (fun _ => true) + undefined
  let t := t.markUsed o
  assert ((t.listed true).length + undefined == numLocalSymbols
    && (t.listed true).length + (t.listed false).length + undefined == numAllSymbols)
  let locals ← sortSymbols o.optionAof t.heap (t.listed true)
  let globals ← sortSymbols o.optionAof t.heap (t.listed false)
  let ids := orderSymbols o.optionAof locals globals
  let s ← assignOffsets o.optionAof ⟨if o.optionAof then 4 else 1, fun _ => none, t⟩ undefined ids
  let strData ← symbolBuildStringData o.optionAof s.table.heap s.strDataSize ids
  let (symData, symDiags) ← symbolBuildSymbolData o s.table.heap ids
  pure (⟨numAllSymbols, numLocalSymbols, strData, symData⟩, s.table,
    checkDiags.flatten ++ symDiags)

/-! ### What a run of Symbol_CreateSymbolOut does -/

variable {o : SymbolOptions} {t t' : SymbolTable} {out : SymbolOut} {diags : List Diag}

/-- **The parts of a run**: the checks of the first loop, the two sorted lists of symbols, the
offsets assigned to them, and the two tables built. -/
theorem symbolCreateSymbolOut_inv (h : symbolCreateSymbolOut o t = some (out, t', diags)) :
    ∃ checkDiags locals globals size maps symDiags,
      t.allSymbols.mapM (fun id => symbolOutCheck (t.sym id)) = some checkDiags
      ∧ sortSymbols o.optionAof (t.markUsed o).heap ((t.markUsed o).listed true) = some locals
      ∧ sortSymbols o.optionAof (t.markUsed o).heap ((t.markUsed o).listed false) = some globals
      ∧ out.numLocalSymbols = ((t.markUsed o).listed true).length + undefinedSymbols o.optionAof
      ∧ assignOffsets o.optionAof ⟨if o.optionAof then 4 else 1, fun _ => none, t.markUsed o⟩
          (undefinedSymbols o.optionAof) (orderSymbols o.optionAof locals globals)
        = some ⟨size, maps, t'⟩
      ∧ symbolBuildStringData o.optionAof t'.heap size (orderSymbols o.optionAof locals globals)
        = some out.strData
      ∧ symbolBuildSymbolData o t'.heap (orderSymbols o.optionAof locals globals)
        = some (out.symData, symDiags)
      ∧ diags = checkDiags.flatten ++ symDiags := by
  simp only [symbolCreateSymbolOut, Option.bind_eq_bind, Option.bind_eq_some_iff,
    Option.pure_def, assert_eq_some, Bool.and_eq_true, beq_iff_eq, Option.some.injEq,
    Prod.mk.injEq] at h
  obtain ⟨checkDiags, hcheck, _, ⟨hlocal, -⟩, locals, hlocals, globals, hglobals, s, hassign,
    strData, hstr, ⟨symData, symDiags⟩, hsym, rfl, rfl, rfl⟩ := h
  exact ⟨checkDiags, locals, globals, s.strDataSize, s.mapSymbols, symDiags, hcheck, hlocals,
    hglobals, hlocal.symm, hassign, hstr, hsym, rfl⟩

/-! ### What the output passes leave alone -/

/-- **Only output fields differ**: a symbol after the output passes is the one before them up to
`offset` and `used`. -/
def Symbol.OutputOnly (s s' : Symbol) : Prop :=
  ∃ offset used, s' = { s with offset := offset, used := used }

/-- The output passes keep the table's chains, and every symbol up to its output fields. -/
structure SymbolTable.OutputOnly (t t' : SymbolTable) : Prop where
  bucket : t'.bucket = t.bucket
  size : t'.heap.size = t.heap.size
  sym : ∀ j, (t.sym j).OutputOnly (t'.sym j)

theorem Symbol.OutputOnly.refl (s : Symbol) : s.OutputOnly s := ⟨s.offset, s.used, rfl⟩

theorem Symbol.OutputOnly.trans {s s' s'' : Symbol} (h : s.OutputOnly s') (h' : s'.OutputOnly s'') :
    s.OutputOnly s'' := by
  obtain ⟨_, _, rfl⟩ := h
  obtain ⟨offset, used, rfl⟩ := h'
  exact ⟨offset, used, rfl⟩

namespace SymbolTable.OutputOnly

theorem refl (t : SymbolTable) : t.OutputOnly t := ⟨rfl, rfl, fun _ => Symbol.OutputOnly.refl _⟩

theorem trans {t t' t'' : SymbolTable} (h : t.OutputOnly t') (h' : t'.OutputOnly t'') :
    t.OutputOnly t'' :=
  ⟨h'.bucket.trans h.bucket, h'.size.trans h.size, fun j => (h.sym j).trans (h'.sym j)⟩

theorem modify (t : SymbolTable) (id : SymId) {f : Symbol → Symbol} (hf : ∀ s, Symbol.OutputOnly s (f s)) :
    t.OutputOnly (t.modify id f) := by
  refine ⟨rfl, rfl, fun j => ?_⟩
  by_cases h : j = id
  · subst h
    rw [modify_sym_self]
    exact hf _
  · rw [modify_sym_of_ne t id f h]
    exact Symbol.OutputOnly.refl _

end SymbolTable.OutputOnly

theorem markUsed_outputOnly (o : SymbolOptions) (t : SymbolTable) : t.OutputOnly (t.markUsed o) := by
  unfold SymbolTable.markUsed
  apply List.foldlRecOn (motive := fun t' => t.OutputOnly t')
  · exact SymbolTable.OutputOnly.refl t
  · intro t' h id _
    exact h.trans (SymbolTable.OutputOnly.modify t' id fun s => ⟨s.offset, _, rfl⟩)

/-- Only for a reference the decision depends on `used`, and then it is the value the decision
leaves in `used`. -/
private theorem needToOutputSymbol_markUsed (o : SymbolOptions) (s : Symbol) :
    needToOutputSymbol o (markUsed o s) = needToOutputSymbol o s := by
  have hused : ((markUsed o s).used == 0) = needToOutputSymbol o s := by
    unfold markUsed
    cases needToOutputSymbol o s <;> rfl
  change needToOutputUsed o s ((markUsed o s).used == 0) = needToOutputUsed o s (s.used == 0)
  rw [hused, needToOutputSymbol]
  unfold needToOutputUsed
  cases s.isArea
  · cases s.isMapping
    · simp only [Bool.false_eq_true, if_false]
      grind
    · rfl
  · rfl

theorem markUsed_sym (o : SymbolOptions) (t : SymbolTable) {id : SymId} (hid : id ∈ t.allSymbols) :
    (t.markUsed o).sym id = Asasm.markUsed o (t.sym id) := by
  have hidem : ∀ s, Asasm.markUsed o (Asasm.markUsed o s) = Asasm.markUsed o s := fun s => by
    rw [Asasm.markUsed, needToOutputSymbol_markUsed]
    rfl
  rw [SymbolTable.markUsed, SymbolTable.foldl_modify_sym hidem, if_pos hid]

private theorem assignOffset_outputOnly {optionAof : Bool} {s s' : OffsetState} {symIdx : Nat}
    {id : SymId} (h : assignOffset optionAof s symIdx id = some s') :
    s.table.OutputOnly s'.table := by
  have hset : ∀ offset used, s.table.OutputOnly
      (s.table.modify id (Symbol.setOutput offset used)) :=
    fun offset used => SymbolTable.OutputOnly.modify _ _ fun _ => ⟨_, used, rfl⟩
  simp only [assignOffset] at h
  split at h
  · split at h
    · cases h
      exact hset _ _
    · cases h
      exact hset _ _
  · simp only [Option.bind_eq_bind, Option.bind_eq_some_iff, assert_eq_some] at h
    obtain ⟨_, -, h⟩ := h
    split at h
    · cases h
      exact hset _ _
    · cases h
      exact hset _ _

theorem assignOffsets_outputOnly {optionAof : Bool} {s s' : OffsetState} {symIdx : Nat}
    {ids : List SymId} (h : assignOffsets optionAof s symIdx ids = some s') :
    s.table.OutputOnly s'.table := by
  induction ids generalizing s symIdx with
  | nil =>
    cases h
    exact SymbolTable.OutputOnly.refl _
  | cons id ids ih =>
    simp only [assignOffsets, Option.bind_eq_bind, Option.bind_eq_some_iff] at h
    obtain ⟨s₁, h₁, h⟩ := h
    exact (assignOffset_outputOnly h₁).trans (ih h)

/-- **Frame.** `Symbol_CreateSymbolOut` changes nothing of a symbol but its output fields. -/
theorem symbolCreateSymbolOut_outputOnly
    (h : symbolCreateSymbolOut o t = some (out, t', diags)) : t.OutputOnly t' := by
  obtain ⟨_, _, _, _, _, _, -, -, -, -, hassign, -⟩ := symbolCreateSymbolOut_inv h
  have hoffsets := assignOffsets_outputOnly hassign
  dsimp only at hoffsets
  exact (markUsed_outputOnly o t).trans hoffsets

end Asasm
