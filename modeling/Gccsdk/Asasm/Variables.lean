import Gccsdk.Asasm.SymbolChains
import Gccsdk.Asasm.ArgSub

/-!
# Local variables

`c_gbl`, `c_lcl` and `c_set` of `variables.c` inside of macro calls, and `Var_RestoreLocals` at the end of a
call. The symbols are the map of names that the symbol table stands for. A variable that a macro declares
local is saved in the chain of the call, with what it was at that moment, and the chain is unwound from the
latest declaration to the first.

At the end of a call each name it has declared local is what it was just before the first of these
declarations, and every other name is what the body has left (`macroCall_bindings`). That is not always what
it was before the call: the body may have changed the variable before it declared it local.
-/

namespace Asasm

open CheckedRun

/-! ### Variables -/

def symbolMacroLocal : BitVec 32 := 0x04000000

/-- The `ValueTag` of a variable. -/
inductive VarType
  | int
  | string
  | bool
  deriving DecidableEq, Repr

def varGetDescription : VarType → String
  | .int => "integer"
  | .string => "string"
  | .bool => "boolean"

def VarType.start : VarType → Value
  | .int => .int 0 .pureInt
  | .string => .string []
  | .bool => .bool false

/-- The type of a variable with a value; none for a value that variables do not have. -/
def varTypeOf : Value → Option VarType
  | .int _ _ => some .int
  | .string _ => some .string
  | .bool _ => some .bool
  | _ => none

def intTypeDescription : IntType → String
  | .pureInt => "constant"
  | .cpuRList => "register list"
  | .cpu => "CPU register"
  | .fpu => "FPU register"
  | .neonQuadReg => "NEON quadword register"
  | .neonOrVFPDoubleReg => "NEON/VFP doubleword register"
  | .vfpSingleReg => "VFP single word register"
  | .coProReg => "coprocessor register"
  | .coProNum => "coprocessor number"

def symbolGetDescription (sym : Symbol) : String :=
  if isSet sym.type symbolArea then "area"
  else if isSet sym.type symbolRW then
    if isSet sym.type symbolMacroLocal then "local variable" else "global variable"
  else if isSet sym.type symbolConstant then
    match sym.value with
    | .int _ type => intTypeDescription type
    | _ => "constant"
  else "label"

def textArg (s : String) : DiagArg := .str (cstr s)

/-- What `Var_Define` writes to its symbol. -/
def defineVariable (type : VarType) (localMacro : Bool) (sym : Symbol) : Symbol :=
  { sym with
    type := sym.type ||| symbolDefined ||| symbolAbsolute ||| symbolRW
      ||| (if localMacro then symbolMacroLocal else 0)
    value := type.start }

/-- The error of `Var_Define` for a symbol that is no variable. -/
def notVariable (sym : Symbol) : List Diag :=
  [⟨.error, "Redefinition of %s %s as %s variable",
      [textArg (symbolGetDescription sym), .str sym.str, textArg "global"]⟩,
    ⟨.error, "note: %c%s %s was first used here", [textArg (symbolGetDescription sym), .str sym.str]⟩]

/-- The error of `Var_Define` for a variable of another type. -/
def otherType (sym : Symbol) (old type : VarType) : List Diag :=
  [⟨.error, "Redefinition of %s %s %s as %s %s",
      [textArg (varGetDescription old), textArg (symbolGetDescription sym), .str sym.str,
        textArg (varGetDescription type), textArg (symbolGetDescription sym)]⟩,
    ⟨.error, "note: Previous definition was here", []⟩]

/-- `Var_Define`, behind the search for the symbol. -/
def redefine (m : SymbolMap) (id : SymId) (type : VarType) (localMacro : Bool) :
    Run (SymbolMap × List Diag) :=
  let sym := m.heap.sym id
  if sym.value.tag = ValueTag.illegal then
    pure ({ m with heap := m.heap.modify id (defineVariable type localMacro) }, [])
  else if varTypeOf sym.value ≠ some type ∧ (localMacro = false ∨ isSet sym.type symbolMacroLocal = true) then
    match varTypeOf sym.value with
    | some old => pure (m, otherType sym old type)
    | none => throw .message -- the assertion of `Var_GetDescription`
  else
    -- a variable that is global remains so
    pure ({ m with heap := m.heap.modify id (defineVariable type false) }, [])

/-- **`Var_Define`** -/
def varDefine (m : SymbolMap) (name : Name) (type : VarType) (localMacro : Bool) :
    Run (SymbolMap × List Diag) :=
  match (if localMacro then none else m.entries name) with
  | some id =>
    if isSet (m.heap.sym id).type symbolRW then redefine m id type localMacro
    else pure (m, notVariable (m.heap.sym id))
  | none => redefine (m.get name).1 (m.get name).2 type localMacro

/-! ### The directives -/

structure VarPos where
  name : Name
  saved : Option (SymId × Symbol)

/-- **The state of a macro call**, or of a file. -/
structure VarState where
  map : SymbolMap
  /-- `varListP`: the restore points of the call, the latest first. -/
  vars : List VarPos
  inMacro : Bool
  diags : List Diag

def VarState.report (st : VarState) (diags : List Diag) : VarState := { st with diags := st.diags ++ diags }

/-- The letter behind GBL, LCL or SET, with what follows; there is no such directive if it is not the last
one of the keyword. -/
def variableLetter : Text → Option (VarType × Text)
  | [] => none
  | c :: text =>
    if !inputIsEndOfKeywordN text 0 then none
    else if c = 0x4C then some (.bool, text)
    else if c = 0x41 then some (.int, text)
    else if c = 0x53 then some (.string, text)
    else none

def missingVariable : Diag := ⟨.error, "Missing variable name", []⟩

/-- **`c_gbl`**. It returns true where there is no such directive. -/
def cGbl (text : Text) (st : VarState) : Run (Bool × VarState) :=
  match variableLetter text with
  | none => pure (true, st)
  | some (type, rest) =>
    match inputSymbol (inputSkipWS rest) with
    | (none, diag) => pure (false, st.report (diag.toList ++ [missingVariable]))
    | (some name, _) => do
      let (map, diags) ← varDefine st.map name type false
      pure (false, { st with map := map }.report diags)

def VarState.save (st : VarState) (name : Name) : VarState :=
  match st.map.entries name with
  | none => { st with vars := ⟨name, none⟩ :: st.vars }
  | some id =>
    if st.vars.any fun v => v.saved.map Prod.fst = some id then st
    else
      { st with
        vars := ⟨name, some (id, st.map.heap.sym id)⟩ :: st.vars
        map := { st.map with heap := st.map.heap.modify id fun sym => { sym with codeSize := 0 } } }

/-- **`c_lcl`** -/
def cLcl (text : Text) (st : VarState) : Run (Bool × VarState) :=
  match variableLetter text with
  | none => pure (true, st)
  | some (type, rest) =>
    if !st.inMacro then pure (false, st.report [⟨.error, "Local variables not allowed outside macros", []⟩])
    else
      match inputSymbol (inputSkipWS rest) with
      | (none, diag) => pure (false, st.report (diag.toList ++ [missingVariable]))
      | (some name, _) => do
        let (map, diags) ← varDefine (st.save name).map name type true
        pure (false, { st.save name with map := map }.report diags)

/-- **`c_set`**, given the value behind it. -/
def cSet (label : Lex) (text : Text) (value : Value) (st : VarState) : Run (Bool × VarState) :=
  match variableLetter text with
  | none => pure (true, st)
  | some (type, _) =>
    match label with
    | .none => pure (false, st.report [⟨.error, "Variable name missing", []⟩])
    | .localLabel _ => pure (false, st.report [⟨.error, "Local label is not allowed here", []⟩])
    | .id name =>
      match st.map.entries name with
      | none => pure (false, st.report [⟨.error, "Variable %.*s is undefined", [.str name]⟩])
      | some id =>
        let sym := st.map.heap.sym id
        let description := textArg (symbolGetDescription sym)
        if !isSet sym.type symbolRW then
          pure (false, st.report [⟨.error, "%c%s %s can not be used as variable", [description,
            .str sym.str]⟩,
            ⟨.error, "%c%s %s was defined here", [description, .str sym.str]⟩])
        else if varTypeOf sym.value ≠ some type then
          match varTypeOf sym.value with
          | none => throw .message -- the assertion of `Var_GetDescription`
          | some old =>
            let scope := textArg (if isSet sym.type symbolMacroLocal then "local" else "global")
            pure (false, st.report
              [⟨.error, "SET%c is unexpected for %s %s variable %s",
                  [.str (text.take 1), textArg (varGetDescription old), scope, .str sym.str]⟩,
                ⟨.error, "note: %c%s variable %s was defined here", [scope, .str sym.str]⟩])
        else if varTypeOf value = some type then
          let heap := st.map.heap.modify id fun sym => { sym with value := value }
          pure (false, { st with map := { st.map with heap := heap } })
        else pure (false, st.report [⟨.error, "Wrong value type for variable %s", [.str sym.str]⟩])
    | _ => throw .message -- assert (0)

/-- **`Var_RestoreLocals`**, with the assertion of `Symbol_Remove`. -/
def varRestoreLocals : List VarPos → SymbolMap → Run SymbolMap
  | [], m => pure m
  | v :: vars, m =>
    match v.saved with
    | some (id, attr) => varRestoreLocals vars { m with heap := m.heap.setAttributes id fun _ => attr }
    | none => if (m.entries v.name).isSome then varRestoreLocals vars (m.erase v.name) else throw .message

/-! ### Bodies of macros -/

/-- A directive for variables, from behind its first three letters. -/
inductive VarDirective
  | gbl (text : Text)
  | lcl (text : Text)
  | set (label : Lex) (text : Text) (value : Value)

/-- **One directive.** -/
def VarDirective.run : VarDirective → VarState → Run (Bool × VarState)
  | .gbl text, st => cGbl text st
  | .lcl text, st => cLcl text st
  | .set label text value, st => cSet label text value st

/-- What is assembled of the body of a macro, up to its end or to MEXIT: directives, and calls of macros
with what is assembled of theirs. -/
inductive VarBody
  | done
  | step (d : VarDirective) (rest : VarBody)
  | call (inner rest : VarBody)

/-- **A body is assembled.** At the end of each call its local variables are restored. -/
def runBody : VarBody → VarState → Run VarState
  | .done, st => pure st
  | .step d rest, st => do
    let (_, st) ← d.run st
    runBody rest st
  | .call inner rest, st => do
    let inside ← runBody inner { st with vars := [], inMacro := true }
    let map ← varRestoreLocals inside.vars inside.map
    runBody rest { st with map := map, diags := inside.diags }

/-- **The binding of a name**: its symbol with all attributes, or none if it is not there. -/
def SymbolMap.binding (m : SymbolMap) (name : Name) : Option Symbol := (m.entries name).map m.heap.sym

def VarDirective.localName (st : VarState) : VarDirective → Option Name
  | .lcl text => if st.inMacro then (variableLetter text).bind fun r => (inputSymbol (inputSkipWS r.2)).1 else none
  | _ => none

/-- **The binding of a name before its first local declaration** in a body, not counting the calls in it. -/
def firstLocal (name : Name) : VarBody → VarState → Option (Option Symbol)
  | .done, _ => none
  | .step d rest, st =>
    if d.localName st = some name then some (st.map.binding name)
    else
      match d.run st with
      | .ok (_, st) => firstLocal name rest st
      | .error _ => none
  | .call inner rest, st =>
    match runBody (.call inner .done) st with
    | .ok st => firstLocal name rest st
    | .error _ => none

/-! ### Names and symbols -/

/-- **A map of names that is in order**: each name has its own symbol, and this is in memory. -/
structure SymbolMap.InOrder (m : SymbolMap) : Prop where
  named : ∀ name id, m.entries name = some id → (m.heap.sym id).str = name
  allocated : ∀ name id, m.entries name = some id → id < m.heap.size

def SymbolMap.Keeps (m m' : SymbolMap) : Prop := ∀ name id, m.entries name = some id → m'.entries name =
    some id

structure SymbolMap.SameNames (m m' : SymbolMap) : Prop where
  entries : m'.entries = m.entries
  size : m'.heap.size = m.heap.size
  str : ∀ id, (m'.heap.sym id).str = (m.heap.sym id).str

variable {m m' m₀ : SymbolMap} {name : Name} {id : SymId}

theorem SymbolMap.inOrder_empty : SymbolMap.empty.InOrder := ⟨nofun, nofun⟩

theorem SymbolMap.Keeps.refl (m : SymbolMap) : m.Keeps m := fun _ _ h => h

theorem SymbolMap.Keeps.trans {m₁ m₂ m₃ : SymbolMap} (h : m₁.Keeps m₂) (h' : m₂.Keeps m₃) : m₁.Keeps m₃ :=
  fun name id hid => h' name id (h name id hid)

theorem SymbolMap.SameNames.refl (m : SymbolMap) : m.SameNames m := ⟨rfl, rfl, fun _ => rfl⟩

theorem SymbolMap.SameNames.keeps (h : m.SameNames m') :
    m.Keeps m' := fun name id hid => by rw [h.entries, hid]

theorem SymbolMap.SameNames.inOrder (h : m.SameNames m') (hm : m.InOrder) : m'.InOrder where
  named name id hid := by
    rw [h.entries] at hid
    rw [h.str, hm.named name id hid]
  allocated name id hid := by
    rw [h.entries] at hid
    rw [h.size]
    exact hm.allocated name id hid

theorem SymbolMap.sameNames_modify (m : SymbolMap) (id : SymId) {f : Symbol → Symbol}
    (hf : ∀ sym, (f sym).str = sym.str) :
    m.SameNames { m with heap := m.heap.modify id f } :=
  ⟨rfl, rfl, m.heap.modify_sym_field id f Symbol.str hf⟩

theorem SymbolMap.InOrder.eq_of_entries (h : m.InOrder) {name' : Name} (hid : m.entries name = some id)
    (hid' : m.entries name' = some id) : name = name' :=
  (h.named name id hid).symm.trans (h.named name' id hid')

theorem SymbolMap.get_of_some (hid : m.entries name = some id) : m.get name = (m, id) := by
  unfold SymbolMap.get
  rw [hid]

theorem SymbolMap.get_of_none (hnone : m.entries name = none) : m.get name =
    (⟨(SymbolTable.new m.heap name).1, Function.update m.entries name (some m.heap.size)⟩, m.heap.size) := by
  unfold SymbolMap.get
  rw [hnone]
  rfl

/-- **`Symbol_Get`** keeps the names that are there, and the name is there. -/
theorem SymbolMap.InOrder.get (h : m.InOrder) (name : Name) :
    (m.get name).1.InOrder ∧ m.Keeps (m.get name).1 ∧ (m.get name).1.entries name = some (m.get name).2 := by
  cases hid : m.entries name with
  | some id =>
    rw [SymbolMap.get_of_some hid]
    exact ⟨h, .refl m, hid⟩
  | none =>
    rw [SymbolMap.get_of_none hid]
    have hsym : ∀ id, id < m.heap.size → (SymbolTable.new m.heap name).1.sym id = m.heap.sym id :=
      fun id hlt =>
      if_neg (Nat.ne_of_lt hlt)
    refine ⟨⟨fun name' id' hid' => ?_, fun name' id' hid' => ?_⟩, fun name' id' hid' => ?_,
      Function.update_self ..⟩
    · change Function.update m.entries name (some m.heap.size) name' = some id' at hid'
      by_cases hname : name' = name
      · rw [hname, Function.update_self] at hid'
        obtain rfl := Option.some.inj hid'
        change (if m.heap.size = m.heap.size then _ else _ : Symbol).str = name'
        rw [if_pos rfl, hname]
      · rw [Function.update_of_ne hname] at hid'
        change ((SymbolTable.new m.heap name).1.sym id').str = name'
        rw [hsym id' (h.allocated name' id' hid'), h.named name' id' hid']
    · change Function.update m.entries name (some m.heap.size) name' = some id' at hid'
      change id' < m.heap.size + 1
      by_cases hname : name' = name
      · rw [hname, Function.update_self] at hid'
        rw [← Option.some.inj hid']
        exact Nat.lt_succ_self _
      · rw [Function.update_of_ne hname] at hid'
        exact Nat.lt_succ_of_lt (h.allocated name' id' hid')
    · change Function.update m.entries name (some m.heap.size) name' = some id'
      have hname : name' ≠ name := by
        rintro rfl
        rw [hid] at hid'
        exact nomatch hid'
      rw [Function.update_of_ne hname, hid']

theorem SymbolMap.InOrder.erase (h : m.InOrder) (name : Name) : (m.erase name).InOrder := by
  have hentries : ∀ name' id', (m.erase name).entries name' = some id' → m.entries name' = some id' := by
    intro name' id' hid'
    change Function.update m.entries name none name' = some id' at hid'
    by_cases hname : name' = name
    · rw [hname, Function.update_self] at hid'
      exact nomatch hid'
    · rwa [Function.update_of_ne hname] at hid'
  exact ⟨fun name' id' hid' => h.named name' id' (hentries name' id' hid'),
    fun name' id' hid' => h.allocated name' id' (hentries name' id' hid')⟩

/-! ### What the directives do -/

theorem redefine_sameNames {type : VarType} {localMacro : Bool} {diags : List Diag}
    (h : redefine m id type localMacro = .ok (m', diags)) : m.SameNames m' := by
  unfold redefine at h
  dsimp only at h
  split at h
  · obtain ⟨rfl, -⟩ := Prod.mk.inj (Except.ok.inj h)
    exact m.sameNames_modify id fun _ => rfl
  · split at h
    · split at h
      · obtain ⟨rfl, -⟩ := Prod.mk.inj (Except.ok.inj h)
        exact .refl m
      · exact nomatch h
    · obtain ⟨rfl, -⟩ := Prod.mk.inj (Except.ok.inj h)
      exact m.sameNames_modify id fun _ => rfl

/-- **`Var_Define`** keeps the names; a local variable is there behind it. -/
theorem varDefine_keeps {type : VarType} {localMacro : Bool} {diags : List Diag} (hm : m.InOrder)
    (h : varDefine m name type localMacro = .ok (m', diags)) :
    m'.InOrder ∧ m.Keeps m' ∧ (localMacro = true → (m'.entries name).isSome = true) := by
  unfold varDefine at h
  split at h
  · rename_i id hid
    have hglobal : localMacro = false := by
      cases localMacro with
      | false => rfl
      | true => exact nomatch hid
    have hsame : m.SameNames m' := by
      split at h
      · exact redefine_sameNames h
      · obtain ⟨rfl, -⟩ := Prod.mk.inj (Except.ok.inj h)
        exact .refl m
    exact ⟨hsame.inOrder hm, hsame.keeps, fun hlocal => nomatch hglobal.symm.trans hlocal⟩
  · obtain ⟨hget, hkeeps, hentry⟩ := hm.get name
    have hsame := redefine_sameNames h
    refine ⟨hsame.inOrder hget, hkeeps.trans hsame.keeps, fun _ => ?_⟩
    rw [hsame.entries, hentry]
    rfl

/-! ### The chain of restore points -/

/-- **The chain of a call**, over the map of names: a name that was there has its symbol still. A name that
was not there is now, it was not there at the start of the call either, and it is not saved before. -/
def Chained (m₀ m : SymbolMap) : List VarPos → Prop
  | [] => True
  | v :: vars =>
    (match v.saved with
      | some (id, attr) => m.entries v.name = some id ∧ attr.str = v.name
      | none => (m.entries v.name).isSome = true ∧ m₀.entries v.name = none ∧ ∀ w ∈ vars, w.name ≠ v.name) ∧
      Chained m₀ m vars

def oldest : List VarPos → Name → Option (Option Symbol)
  | [], _ => none
  | v :: vars, name => (oldest vars name).or (if v.name = name then some (v.saved.map Prod.snd) else none)

theorem Chained.mono {vars : List VarPos} (h : Chained m₀ m vars) (hkeeps : m.Keeps m') :
    Chained m₀ m' vars := by
  induction vars with
  | nil => trivial
  | cons v vars ih =>
    obtain ⟨hv, hvars⟩ := h
    refine ⟨?_, ih hvars⟩
    split at hv
    · exact ⟨hkeeps _ _ hv.1, hv.2⟩
    · obtain ⟨hsome, hstart⟩ := hv
      obtain ⟨id, hid⟩ := Option.isSome_iff_exists.mp hsome
      exact ⟨Option.isSome_iff_exists.mpr ⟨id, hkeeps _ _ hid⟩, hstart⟩

theorem Chained.congr {vars : List VarPos} (h : Chained m₀ m vars)
    (hsame : ∀ w ∈ vars, m'.entries w.name = m.entries w.name) : Chained m₀ m' vars := by
  induction vars with
  | nil => trivial
  | cons v vars ih =>
    obtain ⟨hv, hvars⟩ := h
    refine ⟨?_, ih hvars fun w hw => hsame w (List.mem_cons_of_mem _ hw)⟩
    rw [hsame v (List.mem_cons_self ..)]
    exact hv

theorem Chained.isSome {vars : List VarPos} (h : Chained m₀ m vars) {v : VarPos} (hv : v ∈ vars) :
    (m.entries v.name).isSome = true := by
  induction vars with
  | nil => exact nomatch hv
  | cons w vars ih =>
    rcases List.mem_cons.mp hv with rfl | hv
    · have hw := h.1
      split at hw
      · rw [hw.1]
        rfl
      · exact hw.1
    · exact ih h.2 hv

theorem Chained.entries_of_saved {vars : List VarPos} (h : Chained m₀ m vars) {v : VarPos} (hv : v ∈ vars)
    {attr : Symbol} (hsaved : v.saved = some (id, attr)) : m.entries v.name = some id := by
  induction vars with
  | nil => exact nomatch hv
  | cons w vars ih =>
    rcases List.mem_cons.mp hv with rfl | hv
    · have hw := h.1
      rw [hsaved] at hw
      exact hw.1
    · exact ih h.2 hv

theorem oldest_of_mem {vars : List VarPos} {v : VarPos} (hv : v ∈ vars) :
    (oldest vars v.name).isSome = true := by
  induction vars with
  | nil => exact nomatch hv
  | cons w vars ih =>
    rw [oldest, Option.isSome_or]
    rcases List.mem_cons.mp hv with rfl | hv
    · rw [if_pos rfl]
      exact Bool.or_true _
    · rw [ih hv]
      rfl

theorem binding_setAttributes (hm : m.InOrder) {attr : Symbol} (hid : m.entries name = some id)
    (hattr : attr.str = name) (n : Name) :
    ({ m with heap := m.heap.setAttributes id fun _ => attr } : SymbolMap).binding n =
      if name = n then some attr else m.binding n := by
  unfold SymbolMap.binding
  split
  · rename_i hname
    subst hname
    change (m.entries name).map ((m.heap.setAttributes id fun _ => attr).sym) = _
    rw [hid, Option.map_some]
    refine congrArg some ((m.heap.modify_sym_self id _).trans ?_)
    rw [hm.named name id hid, ← hattr]
  · rename_i hname
    change (m.entries n).map ((m.heap.setAttributes id fun _ => attr).sym) = _
    cases hn : m.entries n with
    | none => rfl
    | some id' =>
      have hne : id' ≠ id := by
        rintro rfl
        exact hname (hm.eq_of_entries hid hn)
      exact congrArg some (m.heap.modify_sym_of_ne id _ hne)

/-- **Unwinding a chain**: each name gets the binding that was saved first, by induction on the chain. -/
theorem varRestoreLocals_spec {vars : List VarPos} (hm : m.InOrder) (hkeeps : m₀.Keeps m)
    (hvars : Chained m₀ m vars) :
    ∃ m', varRestoreLocals vars m = .ok m' ∧ m'.InOrder ∧ m₀.Keeps m' ∧
      ∀ n, m'.binding n = (oldest vars n).getD (m.binding n) := by
  induction vars generalizing m with
  | nil => exact ⟨m, rfl, hm, hkeeps, fun _ => rfl⟩
  | cons v vars ih =>
    obtain ⟨hv, hrest⟩ := hvars
    rw [varRestoreLocals]
    -- what the first saved binding is, behind the step for the latest
    have hnext : ∀ {m₁ : SymbolMap}, (∀ n, m₁.binding n = if v.name =
      n then v.saved.map Prod.snd else m.binding n) →
        ∀ n, (oldest vars n).getD (m₁.binding n) = (oldest (v :: vars) n).getD (m.binding n) := by
      intro m₁ hbinding n
      rw [oldest, hbinding]
      cases oldest vars n with
      | some b => rfl
      | none =>
        rw [Option.none_or]
        split <;> rfl
    split at hv
    · rename_i id attr hsaved
      obtain ⟨hid, hattr⟩ := hv
      have hsame : m.SameNames { m with heap := m.heap.setAttributes id fun _ => attr } :=
        m.sameNames_modify id fun _ => rfl
      obtain ⟨m', hrun, horder, hkept, hbinding⟩ :=
        ih (hsame.inOrder hm) (hkeeps.trans hsame.keeps) (hrest.mono hsame.keeps)
      refine ⟨m', ?_, horder, hkept, fun n => ?_⟩
      · exact hrun
      · rw [hbinding n]
        refine hnext (fun n => ?_) n
        rw [hsaved]
        exact binding_setAttributes hm hid hattr n
    · rename_i hsaved
      obtain ⟨hsome, hstart, hnames⟩ := hv
      have hentries : ∀ n, n ≠ v.name → (m.erase v.name).entries n = m.entries n := fun n hn =>
        Function.update_of_ne hn ..
      have hkept : m₀.Keeps (m.erase v.name) := by
        intro n id hid
        have hn : n ≠ v.name := by
          rintro rfl
          rw [hstart] at hid
          exact nomatch hid
        rw [hentries n hn]
        exact hkeeps n id hid
      have hchain : Chained m₀ (m.erase v.name) vars := hrest.congr fun w hw => hentries w.name (hnames w hw)
      obtain ⟨m', hrun, horder, hkept', hbinding⟩ := ih (hm.erase v.name) hkept hchain
      refine ⟨m', ?_, horder, hkept', fun n => ?_⟩
      · rw [if_pos hsome]
        exact hrun
      · rw [hbinding n]
        refine hnext (fun n => ?_) n
        rw [hsaved]
        split
        · rename_i hname
          subst hname
          change (Function.update m.entries v.name none v.name).map _ = none
          rw [Function.update_self]
          rfl
        · rename_i hname
          unfold SymbolMap.binding
          rw [hentries n fun h => hname h.symm]
          rfl

/-! ### Directives and the chain -/

/-- **What a directive does**: the names keep their symbols, and where it declares a name local, the chain
has a restore point for it, new with the binding of before unless there was one. -/
structure VarStepped (m₀ : SymbolMap) (d : VarDirective) (st st' : VarState) : Prop where
  inOrder : st'.map.InOrder
  keeps : st.map.Keeps st'.map
  inMacro : st'.inMacro = st.inMacro
  chained : Chained m₀ st'.map st'.vars
  oldest : ∀ name, oldest st'.vars name =
    (oldest st.vars name).or (if d.localName st = some name then some (st.map.binding name) else none)

theorem VarStepped.of_vars {st st' : VarState} {d : VarDirective} (hlocal : d.localName st = none)
    (hchain : Chained m₀ st.map st.vars) (horder : st'.map.InOrder) (hkeeps : st.map.Keeps st'.map)
    (hvars : st'.vars = st.vars) (hin : st'.inMacro = st.inMacro) : VarStepped m₀ d st st' where
  inOrder := horder
  keeps := hkeeps
  inMacro := hin
  chained := by
    rw [hvars]
    exact hchain.mono hkeeps
  oldest := fun name => by
    rw [hvars, hlocal, if_neg nofun, Option.or_none]

theorem cGbl_stepped {st st' : VarState} {text : Text} {unknown : Bool} (hm : st.map.InOrder)
    (hchain : Chained m₀ st.map st.vars) (h : cGbl text st = .ok (unknown, st')) :
      VarStepped m₀ (.gbl text) st st' := by
  unfold cGbl at h
  split at h
  · obtain ⟨-, rfl⟩ := Prod.mk.inj (Except.ok.inj h)
    exact .of_vars rfl hchain hm (.refl _) rfl rfl
  · split at h
    · obtain ⟨-, rfl⟩ := Prod.mk.inj (Except.ok.inj h)
      exact .of_vars rfl hchain hm (.refl _) rfl rfl
    · obtain ⟨⟨map, diags⟩, hdefine, hpure⟩ := bind_eq_ok.mp h
      obtain ⟨-, rfl⟩ := Prod.mk.inj (Except.ok.inj hpure)
      obtain ⟨horder, hkeeps, -⟩ := varDefine_keeps hm hdefine
      exact .of_vars rfl hchain horder hkeeps rfl rfl

theorem cSet_stepped {st st' : VarState} {label : Lex} {text : Text} {value : Value} {unknown : Bool}
    (hm : st.map.InOrder) (hchain : Chained m₀ st.map st.vars) (h : cSet label text value st =
      .ok (unknown, st')) :
    VarStepped m₀ (.set label text value) st st' := by
  have hsame : st.map.SameNames st'.map ∧ st'.vars = st.vars ∧ st'.inMacro = st.inMacro := by
    -- a message changes nothing
    have hreport : ∀ diags, (.ok (false, st.report diags) : Run (Bool × VarState)) = .ok (unknown, st') →
        st.map.SameNames st'.map ∧ st'.vars = st.vars ∧ st'.inMacro = st.inMacro := by
      intro diags hok
      obtain ⟨-, rfl⟩ := Prod.mk.inj (Except.ok.inj hok)
      exact ⟨.refl _, rfl, rfl⟩
    unfold cSet at h
    split at h
    · obtain ⟨-, rfl⟩ := Prod.mk.inj (Except.ok.inj h)
      exact ⟨.refl _, rfl, rfl⟩
    · split at h
      · exact hreport _ h
      · exact hreport _ h
      · split at h
        · exact hreport _ h
        · rename_i id _
          dsimp only at h
          split at h
          · exact hreport _ h
          · split at h
            · split at h
              · exact nomatch h
              · exact hreport _ h
            · split at h
              · obtain ⟨-, rfl⟩ := Prod.mk.inj (Except.ok.inj h)
                exact ⟨st.map.sameNames_modify id fun _ => rfl, rfl, rfl⟩
              · exact hreport _ h
      · exact nomatch h
  exact .of_vars rfl hchain (hsame.1.inOrder hm) hsame.1.keeps hsame.2.1 hsame.2.2

/-- **The restore point**: the attributes of before are saved, unless the call has saved this symbol. -/
theorem save_spec {st : VarState} (hm : st.map.InOrder) (hchain : Chained m₀ st.map st.vars)
    (hkeeps : m₀.Keeps st.map)
    (name : Name) :
    st.map.SameNames (st.save name).map ∧ (st.save name).inMacro = st.inMacro ∧
      (∀ {m}, (st.save name).map.Keeps m → (m.entries name).isSome = true →
        Chained m₀ m (st.save name).vars) ∧
      ∀ n, oldest (st.save name).vars n =
        (oldest st.vars n).or (if name = n then some (st.map.binding name) else none) := by
  unfold VarState.save
  split
  · rename_i hnone
    refine ⟨.refl _, rfl, fun hm hsome => ⟨⟨hsome, ?_, ?_⟩, hchain.mono hm⟩, fun n => ?_⟩
    · cases hstart : m₀.entries name with
      | none => rfl
      | some id =>
        have h := hkeeps name id hstart
        rw [hnone] at h
        exact nomatch h
    · -- names of the chain are there, and this one is not
      rintro w hw rfl
      have h := hchain.isSome hw
      rw [hnone] at h
      exact nomatch h
    · unfold SymbolMap.binding
      rw [oldest, hnone]
      rfl
  · rename_i id hid
    split
    · rename_i hsaved
      obtain ⟨v, hv, hsame⟩ := List.any_eq_true.mp hsaved
      refine ⟨.refl _, rfl, fun hm _ => hchain.mono hm, fun n => ?_⟩
      split
      · rename_i hname
        subst hname
        -- the restore point of the symbol is one of this name
        have hname : v.name = name := by
          obtain ⟨⟨_, attr⟩, hsome, rfl⟩ := Option.map_eq_some_iff.mp (of_decide_eq_true hsame)
          exact hm.eq_of_entries (hchain.entries_of_saved hv hsome) hid
        obtain ⟨b, hb⟩ := Option.isSome_iff_exists.mp (oldest_of_mem hv)
        rw [← hname, hb]
        rfl
      · rw [Option.or_none]
    · have hsame : st.map.SameNames
          { st.map with heap := st.map.heap.modify id fun sym => { sym with codeSize := 0 } } :=
        st.map.sameNames_modify id fun _ => rfl
      refine ⟨hsame, rfl, fun hnext _ => ⟨⟨?_, hm.named name id hid⟩, ?_⟩, fun n => ?_⟩
      · exact hnext name id hid
      · exact hchain.mono (hsame.keeps.trans hnext)
      · unfold SymbolMap.binding
        rw [oldest, hid]
        rfl

theorem cLcl_stepped {st st' : VarState} {text : Text} {unknown : Bool} (hm : st.map.InOrder)
    (hkeeps : m₀.Keeps st.map) (hchain : Chained m₀ st.map st.vars) (h : cLcl text st = .ok (unknown, st')) :
    VarStepped m₀ (.lcl text) st st' := by
  unfold cLcl at h
  split at h
  · rename_i hletter
    obtain ⟨-, rfl⟩ := Prod.mk.inj (Except.ok.inj h)
    refine .of_vars ?_ hchain hm (.refl _) rfl rfl
    unfold VarDirective.localName
    dsimp only
    rw [hletter]
    exact ite_self _
  · rename_i type rest hletter
    split at h
    · rename_i hmacro
      obtain ⟨-, rfl⟩ := Prod.mk.inj (Except.ok.inj h)
      refine .of_vars ?_ hchain hm (.refl _) rfl rfl
      exact if_neg fun hin => by rw [hin] at hmacro; exact nomatch hmacro
    · rename_i hmacro
      have hin : st.inMacro = true := by
        cases hst : st.inMacro with
        | true => rfl
        | false =>
          rw [hst] at hmacro
          exact absurd rfl hmacro
      have hlocal : (VarDirective.lcl text).localName st = (inputSymbol (inputSkipWS rest)).1 := by
        unfold VarDirective.localName
        dsimp only
        rw [if_pos hin, hletter]
        rfl
      split at h
      · rename_i hsymbol
        obtain ⟨-, rfl⟩ := Prod.mk.inj (Except.ok.inj h)
        refine .of_vars ?_ hchain hm (.refl _) rfl rfl
        rw [hlocal, hsymbol]
      · rename_i name _ hsymbol
        obtain ⟨⟨map, diags⟩, hdefine, hpure⟩ := bind_eq_ok.mp h
        obtain ⟨-, rfl⟩ := Prod.mk.inj (Except.ok.inj hpure)
        obtain ⟨hsame, hinMacro, hsaved, holdest⟩ := save_spec hm hchain hkeeps name
        obtain ⟨horder, hkept, hthere⟩ := varDefine_keeps (hsame.inOrder hm) hdefine
        rw [hsymbol] at hlocal
        refine ⟨horder, hsame.keeps.trans hkept, hinMacro, hsaved hkept (hthere rfl), fun n => ?_⟩
        rw [hlocal]
        simp only [Option.some_inj]
        exact (holdest n).trans (by
          by_cases hn : name = n
          · rw [if_pos hn, if_pos hn, hn]
          · rw [if_neg hn, if_neg hn])

theorem VarDirective.varStepped {st st' : VarState} {d : VarDirective} {unknown : Bool} (hm : st.map.InOrder)
    (hkeeps : m₀.Keeps st.map) (hchain : Chained m₀ st.map st.vars) (h : d.run st = .ok (unknown, st')) :
    VarStepped m₀ d st st' := by
  cases d with
  | gbl text => exact cGbl_stepped hm hchain h
  | lcl text => exact cLcl_stepped hm hkeeps hchain h
  | set label text value => exact cSet_stepped hm hchain h

/-! ### Bodies -/

/-- **What a body does**, by induction on it. The calls in it are bodies of their own, whose chains are
unwound. -/
theorem runBody_spec (body : VarBody) {st st' : VarState} (hm : st.map.InOrder) (hkeeps : m₀.Keeps st.map)
    (hchain : Chained m₀ st.map st.vars) (h : runBody body st = .ok st') :
    st'.map.InOrder ∧ st.map.Keeps st'.map ∧ Chained m₀ st'.map st'.vars ∧
      ∀ name, oldest st'.vars name = (oldest st.vars name).or (firstLocal name body st) := by
  induction body generalizing st st' m₀ with
  | done =>
    obtain rfl := Except.ok.inj h
    exact ⟨hm, .refl _, hchain, fun name => (Option.or_none).symm⟩
  | step d rest ih =>
    obtain ⟨⟨unknown, next⟩, hstep, hrest⟩ := bind_eq_ok.mp h
    have hstepped := VarDirective.varStepped hm hkeeps hchain hstep
    obtain ⟨horder, hkept, hchained, holdest⟩ :=
      ih hstepped.inOrder (hkeeps.trans hstepped.keeps) hstepped.chained hrest
    refine ⟨horder, hstepped.keeps.trans hkept, hchained, fun name => ?_⟩
    rw [holdest, hstepped.oldest, firstLocal, hstep, Option.or_assoc]
    split <;> rfl
  | call inner rest ihInner ihRest =>
    obtain ⟨inside, hinner, hrest⟩ := bind_eq_ok.mp h
    obtain ⟨map, hrestore, hrest⟩ := bind_eq_ok.mp hrest
    obtain ⟨hinOrder, hinKept, hinChain, -⟩ :=
      @ihInner st.map { st with vars := [], inMacro := true } inside hm (.refl _) trivial hinner
    obtain ⟨map', hrestore', hmapOrder, hmapKept, -⟩ := varRestoreLocals_spec hinOrder hinKept hinChain
    obtain rfl := Except.ok.inj (hrestore.symm.trans hrestore')
    obtain ⟨horder, hkept, hchained, holdest⟩ :=
      @ihRest m₀ { st with map := map, diags := inside.diags } st' hmapOrder (hkeeps.trans hmapKept)
        (hchain.mono hmapKept) hrest
    have hcall : runBody (.call inner .done) st = .ok { st with map := map, diags := inside.diags } := by
      rw [runBody, hinner, ok_bind, hrestore, ok_bind]
      rfl
    refine ⟨horder, hmapKept.trans hkept, hchained, fun name => ?_⟩
    rw [holdest, firstLocal, hcall]

/-- **The end of a macro call**: each name that its body declared local has the binding of just before its
first declaration, and every other name keeps the binding that the body has left. -/
theorem macroCall_bindings (m : SymbolMap) (hm : m.InOrder) (diags : List Diag) (body : VarBody)
    (st : VarState)
    (hrun : runBody body ⟨m, [], true, diags⟩ = .ok st) :
    ∃ m', varRestoreLocals st.vars st.map = .ok m' ∧ m'.InOrder ∧
      ∀ name, m'.binding name = (firstLocal name body ⟨m, [], true, diags⟩).getD (st.map.binding name) := by
  obtain ⟨horder, hkept, hchain, holdest⟩ :=
    @runBody_spec m body ⟨m, [], true, diags⟩ st hm (.refl m) trivial hrun
  obtain ⟨m', hrestore, horder', -, hbinding⟩ := varRestoreLocals_spec horder hkept hchain
  refine ⟨m', hrestore, horder', fun name => ?_⟩
  rw [hbinding, holdest]
  rfl

/-- Two local declarations of a name, and between them a call with one of its own. -/
def nestedLocals : VarBody :=
  .step (.lcl (cstr "A n"))
    (.call
      (.step (.lcl (cstr "A n")) (.step (.set (.id (cstr "n")) (cstr "A 2") (.int 2 .pureInt)) .done))
      (.step (.lcl (cstr "A n")) .done))

theorem macroCall_bindings_nested :
    ∃ st m', runBody nestedLocals ⟨.empty, [], true, []⟩ = .ok st ∧ varRestoreLocals st.vars st.map = .ok m' ∧
      m'.binding (cstr "n") = none := by
  have hok : (runBody nestedLocals ⟨.empty, [], true, []⟩).isOk = true := by decide
  have hfirst : (firstLocal (cstr "n") nestedLocals ⟨.empty, [], true, []⟩).map Option.isNone = some true :=
    by
    decide
  cases hrun : runBody nestedLocals ⟨.empty, [], true, []⟩ with
  | error stop =>
    rw [hrun] at hok
    exact nomatch hok
  | ok st =>
    obtain ⟨m', hrestore, -, hbinding⟩ :=
      macroCall_bindings .empty SymbolMap.inOrder_empty [] nestedLocals st hrun
    refine ⟨st, m', rfl, hrestore, ?_⟩
    obtain ⟨before, hbefore, hnone⟩ := Option.map_eq_some_iff.mp hfirst
    rw [hbinding, hbefore, Option.getD_some]
    exact Option.isNone_iff_eq_none.mp hnone

def oneGlobal : SymbolMap where
  heap :=
    ⟨1, fun _ =>
      { str := cstr "n", type := symbolDefined ||| symbolAbsolute ||| symbolRW, value := .int 1 .pureInt }⟩
  entries name := if name = cstr "n" then some 0 else none

def setBeforeLocal : VarBody :=
  .step (.set (.id (cstr "n")) (cstr "A 5") (.int 5 .pureInt)) (.step (.lcl (cstr "A n")) .done)

theorem oneGlobal_inOrder : oneGlobal.InOrder := by
  have hentry : ∀ name id, oneGlobal.entries name = some id → name = cstr "n" ∧ id = 0 := by
    intro name id hid
    change (if name = cstr "n" then some 0 else none) = some id at hid
    split at hid
    · rename_i hname
      exact ⟨hname, (Option.some.inj hid).symm⟩
    · exact nomatch hid
  constructor
  · intro name id hid
    exact (hentry name id hid).1.symm
  · intro name id hid
    rw [(hentry name id hid).2]
    exact Nat.one_pos

def intOf (b : Option Symbol) : Option (BitVec 32) :=
  match b with
  | some { value := .int i _, .. } => some i
  | _ => none

/-- **Not always what it was before the call**: a variable that is set before it is declared local remains
set. -/
theorem not_macroCall_before :
    ¬∀ (m : SymbolMap) (body : VarBody) (st : VarState) (m' : SymbolMap) (name : Name), m.InOrder →
      runBody body ⟨m, [], true, []⟩ = .ok st → varRestoreLocals st.vars st.map = .ok m' →
      (firstLocal name body ⟨m, [], true, []⟩).isSome = true → m'.binding name = m.binding name := by
  intro hall
  have hok : ((runBody setBeforeLocal ⟨oneGlobal, [], true, []⟩).bind fun st =>
      (varRestoreLocals st.vars st.map).map fun m' => intOf (m'.binding (cstr "n"))) = .ok (some 5) := by
    decide
  obtain ⟨st, hrun, hrest⟩ := bind_eq_ok.mp hok
  obtain ⟨m', hrestore, hint⟩ := map_eq_ok hrest
  have hsame :=
    hall oneGlobal setBeforeLocal st m' (cstr "n") oneGlobal_inOrder hrun hrestore (by decide)
  rw [hsame] at hint
  have hbefore : intOf (oneGlobal.binding (cstr "n")) = some 1 := by decide
  rw [hbefore] at hint
  exact absurd hint (by decide)

end Asasm
