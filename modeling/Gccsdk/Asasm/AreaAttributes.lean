import Gccsdk.Asasm.Variables

/-!
# The attributes of an area

`c_area` of `area.c`, behind the name of the area. The attributes are entries of a table: each is a few
bits of the area type, and its value there. Two attributes with the same bits are compared when the second
one is read, but what a parser reads (`ALIGN=`, `BASED`) is added without a look at what is there.

What is read without a message is the union of the attributes (`getAreaAttributes_eq`), whatever their
order, and each attribute is found in it again (`gather_flagSet`). The area type has them all but for what
follows: a pending ORG makes the area absolute, `COMDEF`, `COMMON` and `NOINIT` are merged, and an area that
is there keeps its type (`cArea_agrees`).
-/

namespace Asasm

/-! ### The table -/

def areaCommonRef : BitVec 32 := 0x00000800
def areaPIC : BitVec 32 := 0x00004000
def areaDebug : BitVec 32 := 0x00008000
def area32BitAPCS : BitVec 32 := 0x00010000
def areaReentrant : BitVec 32 := 0x00020000
def areaExtFPSet : BitVec 32 := 0x00040000
def areaNoSWStackCheck : BitVec 32 := 0x00080000
def areaHalfword : BitVec 32 := 0x00200000
def areaInterwork : BitVec 32 := 0x00400000
def areaMaskBaseReg : BitVec 32 := 0x0F000000
def areaIntCodeAlign : BitVec 32 := 0x40000000
def areaVFP : BitVec 32 := 0x80000000
def areaIntDataMask : BitVec 32 := 0x8F30FFFF
def areaIntCodeMask : BitVec 32 := 0xC7FFFFFF
def areaDefaultAlignment : BitVec 32 := 0x00000002

/-- `FlagCat_e`. -/
inductive FlagCat
  | bothCodeAndData
  | forCodeAreaOnly
  | forDataAreaOnly
  deriving DecidableEq, Repr

inductive AttributeParser
  | based
  | align
  deriving DecidableEq, Repr

/-- `struct AKeyword`. -/
structure AKeyword where
  keyword : Name
  category : FlagCat
  flagValue : BitVec 32
  flagSet : BitVec 32
  parser : Option AttributeParser := none
  deriving DecidableEq, Repr

/-- `oAttributes`. -/
def oAttributes : List AKeyword :=
  [⟨cstr "CODE", .bothCodeAndData, areaCode, areaCode, none⟩,
    ⟨cstr "DATA", .bothCodeAndData, 0, areaCode, none⟩,
    ⟨cstr "ABS", .bothCodeAndData, areaAbs, areaAbs, none⟩,
    ⟨cstr "REL", .bothCodeAndData, 0, areaAbs, none⟩,
    ⟨cstr "PIC", .bothCodeAndData, areaPIC, areaPIC, none⟩,
    ⟨cstr "READONLY", .bothCodeAndData, areaReadOnly, areaReadOnly, none⟩,
    ⟨cstr "READWRITE", .bothCodeAndData, 0, areaReadOnly, none⟩,
    ⟨cstr "COMDEF", .bothCodeAndData, areaCommonDef, areaCommonDef, none⟩,
    ⟨cstr "COMMON", .bothCodeAndData, areaCommonRef, areaCommonRef, none⟩,
    ⟨cstr "NOINIT", .bothCodeAndData, areaUData, areaUData, none⟩,
    ⟨cstr "ALIGN", .bothCodeAndData, 0, areaAlignMask, some .align⟩,
    ⟨cstr "VFP", .bothCodeAndData, areaVFP, areaVFP, none⟩,
    ⟨cstr "DEBUG", .forDataAreaOnly, areaDebug, areaDebug, none⟩,
    ⟨cstr "BASED", .forDataAreaOnly, areaBased, areaBased ||| areaMaskBaseReg, some .based⟩,
    ⟨cstr "REENTRANT", .forCodeAreaOnly, areaReentrant, areaReentrant, none⟩,
    ⟨cstr "INTERWORK", .forCodeAreaOnly, areaInterwork, areaInterwork, none⟩,
    ⟨cstr "HALFWORD", .forCodeAreaOnly, areaHalfword, areaHalfword, none⟩,
    ⟨cstr "NOSWSTACKCHECK", .forCodeAreaOnly, areaNoSWStackCheck, areaNoSWStackCheck, none⟩,
    ⟨cstr "CODEALIGN", .forCodeAreaOnly, areaIntCodeAlign, areaIntCodeAlign, none⟩]

/-- The keywords of the bits that are set, lowest first. What has no keyword is called by its number. -/
def attributeNames : List ℕ → BitVec 32 → List Name
  | [], _ => []
  | i :: bits, attributes =>
    if attributes.getLsbD i then
      match oAttributes.find? (·.flagSet.getLsbD i) with
      | some k => k.keyword :: attributeNames bits (attributes &&& ~~~k.flagSet)
      | none => cstr ("attribute bit " ++ toString i) :: attributeNames bits attributes
    else attributeNames bits attributes

/-- `AttributesAsName`, for attributes that are not 0. -/
def attributesAsName (attributes : BitVec 32) : Name :=
  (cstr ", ").intercalate (attributeNames (List.range 32) attributes)

/-! ### Reading the attributes -/

/-- Why `Get_CPUReg` has no register; it is 0 then. -/
inductive RegError
  | noIdentifier
  | notARegister (str : Name)
  | undefined (id : Name)
  deriving DecidableEq, Repr

def RegError.diag : RegError → Diag
  | .noIdentifier => ⟨.error, "Missing or wrong identifier", []⟩
  | .notARegister str => ⟨.error, "'%s' is not a %s", [.str str, textArg "CPU register"]⟩
  | .undefined id => ⟨.error, "Undefined %s %.*s", [textArg "CPU register", .str id]⟩

/-- What `ParseAttributeALIGN` finds. -/
inductive AlignText
  /-- There is no `=`. -/
  | malformed
  /-- The expression behind it is no pure integer, -/
  | unrecognized
  /-- or it is one. -/
  | int (i : BitVec 32)
  deriving DecidableEq, Repr

/-- An entry of the list: the identifier that `Lex_GetID` finds, and what the parsers find behind it. The
numbers of the registers are those that RN allows. -/
structure Attribute where
  id : Option Name
  align : AlignText
  reg : Except RegError (BitVec 4)

/-- `AttribResult_t`. -/
structure AttribResult where
  flagValues : FlagCat → BitVec 32
  flagSets : FlagCat → BitVec 32

def AttribResult.or (result : AttribResult) (cat : FlagCat) (value set : BitVec 32) : AttribResult where
  flagValues c := if c = cat then result.flagValues c ||| value else result.flagValues c
  flagSets c := if c = cat then result.flagSets c ||| set else result.flagSets c

/-- What comes of an entry: the result so far, the messages, and whether the list is left. -/
structure Parsed where
  result : AttribResult
  diags : List Diag
  stop : Bool

/-- `ParseAttributeBASED`. -/
def parseAttributeBASED (result : AttribResult) (reg : Except RegError (BitVec 4)) : Parsed :=
  let add (reg : BitVec 4) :=
    result.or .forDataAreaOnly (areaBased ||| reg.zeroExtend 32 <<< 24) (areaBased ||| areaMaskBaseReg)
  match reg with
  | .ok reg => ⟨add reg, [], false⟩
  | .error e => ⟨add 0, [e.diag], false⟩

/-- `ParseAttributeALIGN`. -/
def parseAttributeALIGN (result : AttribResult) (align : AlignText) : Parsed :=
  match align with
  | .malformed => ⟨result, [⟨.error, "Malformed ALIGN attribute specification", []⟩], true⟩
  | .unrecognized => ⟨result, [⟨.error, "Unrecognized ALIGN attribute value", []⟩], true⟩
  | .int i =>
    if i.slt 2 || (31 : BitVec 32).slt i then
      ⟨result, [⟨.error, "ALIGN attribute value must be between 2 (incl) and 31 (incl)", []⟩], true⟩
    else ⟨result.or .bothCodeAndData i areaAlignMask, [], false⟩

def findKeyword (id : Name) : Option AKeyword := oAttributes.find? (·.keyword = id)

def readPlain (result : AttribResult) (k : AKeyword) (id : Name) : Parsed :=
  if k.flagSet &&& result.flagSets k.category ≠ 0 then
    if k.flagSet &&& result.flagValues k.category ≠ k.flagValue then
      ⟨result,
        [⟨.error, "AREA attribute %.*s conflicts with a previously given attribute", [.str id]⟩], true⟩
    else ⟨result, [], false⟩
  else ⟨result.or k.category k.flagValue k.flagSet, [], false⟩

/-- One turn of the loop of `GetAreaAttributes`. -/
def readAttribute (result : AttribResult) (attr : Attribute) : Parsed :=
  let id := attr.id.getD []
  let missing : List Diag :=
    if attr.id.isNone then [⟨.error, "Missing or wrong identifier", []⟩] else []
  match findKeyword id with
  | none => ⟨result, missing ++ [⟨.error, "AREA attribute %.*s is not known", [.str id]⟩], false⟩
  | some k =>
    match k.parser with
    | some .based => parseAttributeBASED result attr.reg
    | some .align => parseAttributeALIGN result attr.align
    | none => readPlain result k id

/-- The loop of `GetAreaAttributes`. -/
def readAttributes (result : AttribResult) : List Attribute → AttribResult × List Diag
  | [] => (result, [])
  | attr :: attrs =>
    let parsed := readAttribute result attr
    if parsed.stop then (parsed.result, parsed.diags)
    else
      let (last, diags) := readAttributes parsed.result attrs
      (last, parsed.diags ++ diags)

/-- `GetAreaAttributes`. -/
def getAreaAttributes (attrs : List Attribute) : AttribResult × List Diag :=
  readAttributes ⟨fun _ => 0, fun _ => 0⟩ attrs

/-! ### c_area -/

def orIf (b : Bool) (flag flags : BitVec 32) : BitVec 32 := if b then flags ||| flag else flags

/-- `Area_ApplyAPCSOption`, for the bits `APCS_OPT_REENTRANT` (0), `32BIT` (1), `SWSTACKCHECK` (2), `FPE3`
(5), `ROPI` (6), `INTERWORK` (8) and `VFPENDIAN` (9). -/
def applyAPCSOption (gOptionAPCS areaFlags : BitVec 32) : BitVec 32 :=
  orIf (gOptionAPCS.getLsbD 9) areaVFP <|
  orIf (gOptionAPCS.getLsbD 8) areaInterwork <|
  orIf (!gOptionAPCS.getLsbD 2) areaNoSWStackCheck <|
  orIf (gOptionAPCS.getLsbD 0) areaReentrant <|
  orIf (gOptionAPCS.getLsbD 6) areaPIC <|
  orIf (gOptionAPCS.getLsbD 5) areaExtFPSet <|
  orIf (gOptionAPCS.getLsbD 1) area32BitAPCS areaFlags

/-- The attributes of the kind of area that is asked for; those of the other kind are an error. -/
def chooseKind (result : AttribResult) : BitVec 32 × List Diag :=
  let both := result.flagValues .bothCodeAndData
  let isCode := isSet both areaCode
  let flags := both ||| result.flagValues (if isCode then .forCodeAreaOnly else .forDataAreaOnly)
  let wrong := result.flagSets (if isCode then .forDataAreaOnly else .forCodeAreaOnly)
  if wrong = 0 then (flags, [])
  else
    (flags, [⟨.error, "A %s AREA can not have %s set",
      [textArg (if isCode then "CODE" else "DATA"), .str (attributesAsName wrong)]⟩])

def defaultAlign (prevAreaAttrib flags : BitVec 32) : BitVec 32 :=
  if flags &&& areaAlignMask = 0 then
    flags ||| (if prevAreaAttrib ≠ 0 then prevAreaAttrib &&& areaAlignMask else areaDefaultAlignment)
  else flags

/-- `ValidateORGValue`. -/
def validateORGValue (alignValue org : BitVec 32) : List Diag :=
  if org &&& (alignValue - 1) ≠ 0 then
    [⟨.warning, "Area ORG value 0x%x is not aligned according to area alignment value 0x%x",
      [.int org.toNat, .int alignValue.toNat]⟩]
  else []

/-- `COMDEF` goes before `COMMON`, and with `NOINIT` it becomes `COMMON`. -/
def mergeCommon (flags : BitVec 32) : BitVec 32 :=
  let flags := if isSet flags areaCommonDef then flags &&& ~~~areaCommonRef else flags
  if flags &&& (areaCommonDef ||| areaUData) = areaCommonDef ||| areaUData then
    (flags &&& ~~~(areaCommonDef ||| areaUData)) ||| areaCommonRef
  else flags

/-- What `c_area` leaves. -/
structure AreaDone where
  sym : Symbol
  pendingORG : Option (BitVec 32)
  diags : List Diag

/-- The type of the area, in front of what an earlier definition says: the flags and the messages. -/
def areaFlags (gOptionAPCS : BitVec 32) (pendingORG : Option (BitVec 32)) (prevAreaAttrib : BitVec 32)
    (result : AttribResult) : BitVec 32 × List Diag :=
  let (flags, kindDiags) := chooseKind result
  let flags := defaultAlign prevAreaAttrib flags
  let flags := orIf pendingORG.isSome areaAbs flags
  let orgDiags := match pendingORG with
    | some org => validateORGValue (1 <<< (flags &&& areaAlignMask).toNat) org
    | none => []
  let flags := mergeCommon flags
  let noInitDiags : List Diag :=
    if isSet flags areaReadOnly && isSet flags areaUData then
      [⟨.error, "Attributes READONLY and NOINIT are mutually exclusive", []⟩]
    else []
  let flags := if isSet flags areaCode then applyAPCSOption gOptionAPCS flags else flags
  (flags, kindDiags ++ orgDiags ++ noInitDiags)

/-- `c_area`, behind the attributes. It has no value where an assertion fails. -/
def defineArea (gOptionAPCS : BitVec 32) (pendingORG : Option (BitVec 32)) (sym : Symbol)
    (result : AttribResult) (diags : List Diag) : Option AreaDone := do
  let prevAreaAttrib := if sym.isArea then sym.area.type else 0
  assert (!sym.isArea || prevAreaAttrib != 0)
  let sym := if sym.isArea then sym
    else { sym with type := symbolArea, value := .int 0 .pureInt, area := {} }
  let (flags, flagDiags) := areaFlags gOptionAPCS pendingORG prevAreaAttrib result
  let value := match pendingORG with
    | some org => .int org .pureInt
    | none => sym.value
  let sym := { sym with type := orIf (isSet flags areaAbs) symbolAbsolute sym.type, value }
  if prevAreaAttrib ≠ 0 then
    let changedAttr := (flags ^^^ prevAreaAttrib) &&& ~~~(areaAbs ||| area32BitAPCS ||| areaExtFPSet)
    let changeDiags : List Diag :=
      if changedAttr ≠ 0 then
        [⟨.warning, "Change in attribute(s) %s for area %s will be ignored",
          [.str (attributesAsName changedAttr), .str sym.str]⟩]
      else []
    some ⟨sym, none, diags ++ flagDiags ++ changeDiags⟩
  else
    let type := sym.area.type ||| flags
    assert (type &&& ~~~(if isSet type areaCode then areaIntCodeMask else areaIntDataMask) == 0)
    some ⟨{ sym with area := { sym.area with type } }, none, diags ++ flagDiags⟩

/-- **`c_area`**, for the symbol that has the name of the area. -/
def cArea (gOptionAPCS : BitVec 32) (pendingORG : Option (BitVec 32)) (sym : Symbol)
    (attrs : List Attribute) : Option AreaDone :=
  if sym.kind ≠ 0 then
    some ⟨sym, pendingORG,
      [⟨.error, "Redefinition of %s %s as area", [textArg (symbolGetDescription sym), .str sym.str]⟩,
        ⟨.error, "note: %c%s %s was previously defined here",
          [textArg (symbolGetDescription sym), .str sym.str]⟩]⟩
  else
    let (result, diags) := getAreaAttributes attrs
    defineArea gOptionAPCS pendingORG sym result diags

/-! ### Entries -/

abbrev Entry := AKeyword × BitVec 32

/-- **What an attribute stands for**: its keyword, and the value that it gives to the bits of the keyword. -/
def Attribute.entry (attr : Attribute) : Option Entry :=
  match findKeyword (attr.id.getD []) with
  | none => none
  | some k =>
    match k.parser with
    | none => some (k, k.flagValue)
    | some .based =>
      match attr.reg with
      | .ok reg => some (k, areaBased ||| reg.zeroExtend 32 <<< 24)
      | .error _ => none
    | some .align =>
      match attr.align with
      | .int i => if i.slt 2 || (31 : BitVec 32).slt i then none else some (k, i)
      | _ => none

variable {es es' : List Entry} {e e' : Entry} {attr : Attribute}

/-- An entry is one of the table, and has a value for its bits alone. -/
structure EntryOk (e : Entry) : Prop where
  mem : e.1 ∈ oAttributes
  value : e.2 ||| e.1.flagSet = e.1.flagSet
  plain : e.1.parser = none → e.2 = e.1.flagValue
  align : e.1.flagSet = areaAlignMask → e.2 ≠ 0

private theorem oAttributes_disjoint : ∀ k ∈ oAttributes, ∀ k' ∈ oAttributes, k.category = k'.category →
    k.flagSet = k'.flagSet ∧ k.parser = k'.parser ∨ k.flagSet &&& k'.flagSet = 0 := by
  decide

private theorem oAttributes_ok : ∀ k ∈ oAttributes, k.flagSet ≠ 0 ∧ k.flagValue ||| k.flagSet = k.flagSet ∧
    (k.parser = some .based → k.category = .forDataAreaOnly ∧ k.flagSet = areaBased ||| areaMaskBaseReg) ∧
    (k.parser = some .align → k.category = .bothCodeAndData ∧ k.flagSet = areaAlignMask) ∧
    (k.flagSet = areaAlignMask → k.parser = some .align) := by
  decide

private theorem based_value (reg : BitVec 4) :
    areaBased ||| reg.zeroExtend 32 <<< 24 ||| (areaBased ||| areaMaskBaseReg) =
      areaBased ||| areaMaskBaseReg := by
  revert reg
  decide

private theorem align_value {i : BitVec 32} (h : ¬(i.slt 2 || (31 : BitVec 32).slt i) = true) :
    i ||| areaAlignMask = areaAlignMask := by
  rw [Bool.or_eq_true, not_or, BitVec.slt_iff_toInt_lt, BitVec.slt_iff_toInt_lt] at h
  have htwo : (2 : BitVec 32).toInt = 2 := rfl
  have hmax : (31 : BitVec 32).toInt = 31 := rfl
  rw [htwo, hmax] at h
  have hlt : i.toNat < 32 := by
    have := BitVec.toInt_eq_toNat_cond i
    split at this <;> omega
  obtain ⟨n, hn⟩ : ∃ n : Fin 32, i = BitVec.ofNat 32 n := ⟨⟨i.toNat, hlt⟩, by simp⟩
  subst hn
  revert n
  decide

theorem mem_of_findKeyword {id : Name} {k : AKeyword} (h : findKeyword id = some k) : k ∈ oAttributes :=
  List.mem_of_find?_eq_some h

theorem entryOk_of_entry (h : attr.entry = some e) : EntryOk e := by
  unfold Attribute.entry at h
  split at h
  · cases h
  · rename_i k hfind
    have hmem := mem_of_findKeyword hfind
    obtain ⟨-, hvalue, hbased, halign, hmask⟩ := oAttributes_ok k hmem
    split at h
    · rename_i hparser
      cases h
      exact ⟨hmem, hvalue, fun _ => rfl, fun hset => absurd (hparser.symm.trans (hmask hset)) nofun⟩
    · rename_i hparser
      split at h
      · cases h
        refine ⟨hmem, ?_, fun hnone => absurd (hparser.symm.trans hnone) nofun,
          fun hset => absurd (hparser.symm.trans (hmask hset)) nofun⟩
        rw [(hbased hparser).2]
        exact based_value _
      · cases h
    · rename_i hparser
      split at h
      · split at h
        · cases h
        · rename_i hrange
          cases h
          refine ⟨hmem, ?_, fun hnone => absurd (hparser.symm.trans hnone) nofun, ?_⟩
          · rw [(halign hparser).2]
            exact align_value hrange
          · rintro - rfl
            exact hrange rfl
      · cases h

/-! ### The union of entries -/

theorem eq_zero_of_bits {x : BitVec 32} (h : ∀ i, x.getLsbD i = true → False) : x = 0 := by
  refine BitVec.eq_of_getLsbD_eq fun i _ => ?_
  rw [show (0 : BitVec 32).getLsbD i = false from BitVec.getLsbD_zero, ← Bool.not_eq_true]
  exact h i

theorem not_both_of_and_eq_zero {x y : BitVec 32} {i : ℕ} (h : x &&& y = 0) (hx : x.getLsbD i = true) :
    y.getLsbD i = false := by
  have hbit := congrArg (BitVec.getLsbD · i) h
  simp only [BitVec.getLsbD_and, hx, Bool.true_and] at hbit
  exact hbit.trans BitVec.getLsbD_zero

/-- **What is gathered from some entries.** -/
def gather (es : List Entry) : AttribResult :=
  es.foldl (fun result e => result.or e.1.category e.2 e.1.flagSet) ⟨fun _ => 0, fun _ => 0⟩

theorem gather_concat (es : List Entry) (e : Entry) :
    gather (es ++ [e]) = (gather es).or e.1.category e.2 e.1.flagSet := List.foldl_concat ..

theorem getLsbD_gather (es : List Entry) (c : FlagCat) (i : ℕ) :
    (((gather es).flagValues c).getLsbD i = true ↔ ∃ e ∈ es, e.1.category = c ∧ e.2.getLsbD i = true) ∧
      (((gather es).flagSets c).getLsbD i = true ↔ ∃ e ∈ es, e.1.category = c ∧ e.1.flagSet.getLsbD i =
        true) := by
  induction es using List.reverseRecOn with
  | nil => simp [gather]
  | append_singleton es e ih =>
    rw [gather_concat, AttribResult.or]
    by_cases hc : c = e.1.category
    · subst hc
      simp only [if_true, BitVec.getLsbD_or, Bool.or_eq_true, ih.1, ih.2, List.mem_append, List.mem_singleton,
        or_and_right, exists_or, exists_eq_left, true_and, and_self]
    · have hne : ¬e.1.category = c := fun h => hc h.symm
      simp only [if_neg hc, ih.1, ih.2, List.mem_append, List.mem_singleton, or_and_right, exists_or,
        exists_eq_left, hne, false_and, or_false, and_self]

theorem gather_congr {es es' : List Entry}
    (h : ∀ c v f, (∃ e ∈ es, e.1.category = c ∧ e.2 = v ∧ e.1.flagSet = f) ↔
      ∃ e ∈ es', e.1.category = c ∧ e.2 = v ∧ e.1.flagSet = f) : gather es = gather es' := by
  have hbits : ∀ (P : BitVec 32 → BitVec 32 → Prop) c, (∃ e ∈ es, e.1.category = c ∧ P e.2 e.1.flagSet) ↔
      ∃ e ∈ es', e.1.category = c ∧ P e.2 e.1.flagSet := by
    intro P c
    constructor
    · rintro ⟨e, he, hc, hP⟩
      obtain ⟨e', he', hc', hv, hf⟩ := (h c e.2 e.1.flagSet).mp ⟨e, he, hc, rfl, rfl⟩
      exact ⟨e', he', hc', by rwa [hv, hf]⟩
    · rintro ⟨e, he, hc, hP⟩
      obtain ⟨e', he', hc', hv, hf⟩ := (h c e.2 e.1.flagSet).mpr ⟨e, he, hc, rfl, rfl⟩
      exact ⟨e', he', hc', by rwa [hv, hf]⟩
  have hext : ∀ r r' : AttribResult, r.flagValues = r'.flagValues → r.flagSets = r'.flagSets → r = r' := by
    rintro ⟨v, s⟩ ⟨v', s'⟩ rfl rfl
    rfl
  refine hext _ _ (funext fun c => ?_) (funext fun c => ?_)
  · refine BitVec.eq_of_getLsbD_eq fun i _ => ?_
    rw [Bool.eq_iff_iff, (getLsbD_gather es c i).1, (getLsbD_gather es' c i).1]
    exact hbits (fun v _ => v.getLsbD i = true) c
  · refine BitVec.eq_of_getLsbD_eq fun i _ => ?_
    rw [Bool.eq_iff_iff, (getLsbD_gather es c i).2, (getLsbD_gather es' c i).2]
    exact hbits (fun _ f => f.getLsbD i = true) c

theorem gather_perm (h : es.Perm es') : gather es = gather es' :=
  gather_congr fun _ _ _ => exists_congr fun _ => and_congr_left fun _ => h.mem_iff

theorem gather_concat_of_mem (he' : e' ∈ es)
    (hc : e'.1.category = e.1.category) (hv : e'.2 = e.2) (hf : e'.1.flagSet = e.1.flagSet) :
    gather (es ++ [e]) = gather es := by
  refine gather_congr fun c v f => ?_
  constructor
  · rintro ⟨d, hd, hdc, hdv, hdf⟩
    obtain hd | hd := List.mem_append.mp hd
    · exact ⟨d, hd, hdc, hdv, hdf⟩
    · obtain rfl := List.mem_singleton.mp hd
      exact ⟨e', he', hc.trans hdc, hv.trans hdv, hf.trans hdf⟩
  · rintro ⟨d, hd, hd'⟩
    exact ⟨d, List.mem_append_left _ hd, hd'⟩

theorem EntryOk.getLsbD (he : EntryOk e) {i : ℕ} (h : e.2.getLsbD i = true) :
    e.1.flagSet.getLsbD i = true := by
  rw [← he.value, BitVec.getLsbD_or, h, Bool.true_or]

theorem EntryOk.flagSet_eq (he : EntryOk e) (he' : EntryOk e')
    (hcat : e.1.category = e'.1.category) {i : ℕ} (h : e.1.flagSet.getLsbD i = true)
    (h' : e'.1.flagSet.getLsbD i = true) : e.1.flagSet = e'.1.flagSet ∧ e.1.parser = e'.1.parser := by
  refine (oAttributes_disjoint _ he.mem _ he'.mem hcat).resolve_right fun hzero => ?_
  rw [not_both_of_and_eq_zero hzero h] at h'
  cases h'

theorem EntryOk.parser_eq (he : EntryOk e) (he' : EntryOk e') (hc : e.1.category = e'.1.category)
    (hf : e.1.flagSet = e'.1.flagSet) : e.1.parser = e'.1.parser := by
  obtain ⟨-, h⟩ | h := oAttributes_disjoint _ he.mem _ he'.mem hc
  · exact h
  · rw [hf, BitVec.and_self] at h
    exact absurd h (oAttributes_ok _ he'.mem).1

/-- **An entry is found in the union again**, if all entries with its bits have its value. -/
theorem gather_flagSet (hok : ∀ e ∈ es, EntryOk e)
    (he : e ∈ es) (hsame : ∀ e' ∈ es, e'.1.category = e.1.category → e'.1.flagSet = e.1.flagSet → e'.2 =
      e.2) :
    (gather es).flagValues e.1.category &&& e.1.flagSet = e.2 := by
  ext i
  rw [Bool.eq_iff_iff, ← BitVec.getLsbD_eq_getElem, ← BitVec.getLsbD_eq_getElem, BitVec.getLsbD_and,
    Bool.and_eq_true, (getLsbD_gather es _ i).1]
  constructor
  · rintro ⟨⟨e', he', hcat, hbit⟩, hset⟩
    have hflags := ((hok e' he').flagSet_eq (hok e he) hcat ((hok e' he').getLsbD hbit) hset).1
    rwa [hsame e' he' hcat hflags] at hbit
  · intro hbit
    exact ⟨⟨e, he, rfl, hbit⟩, (hok e he).getLsbD hbit⟩

theorem gather_flagSets_eq_zero_iff {e : Entry}
    (hok : ∀ e ∈ es, EntryOk e) (he : EntryOk e) : e.1.flagSet &&& (gather es).flagSets e.1.category = 0 ↔
      ∀ e' ∈ es, e'.1.category = e.1.category → e'.1.flagSet ≠ e.1.flagSet := by
  constructor
  · intro hzero e' he' hcat heq
    refine (oAttributes_ok _ he.mem).1 (eq_zero_of_bits fun i htrue => ?_)
    have hsets := (getLsbD_gather es e.1.category i).2.mpr ⟨e', he', hcat, heq ▸ htrue⟩
    rw [not_both_of_and_eq_zero hzero htrue] at hsets
    cases hsets
  · intro hne
    refine eq_zero_of_bits fun i hbit => ?_
    rw [BitVec.getLsbD_and, Bool.and_eq_true, (getLsbD_gather es _ i).2] at hbit
    obtain ⟨hset, e', he', hcat, hset'⟩ := hbit
    exact hne e' he' hcat ((hok e' he').flagSet_eq he hcat hset' hset).1

/-! ### Reading entries -/

/-- No two attributes contradict each other: those without a parser that have the same bits have the same
value. -/
def Consistent (es : List Entry) : Prop :=
  ∀ e ∈ es, ∀ e' ∈ es, e.1.parser = none → e'.1.category = e.1.category → e'.1.flagSet = e.1.flagSet →
    e'.1.flagValue = e.1.flagValue

/-- **What an attribute does**: it is an error, or it is added, or it is compared with what is there. -/
theorem readAttribute_cases (attr : Attribute) :
    (attr.entry = none ∧ ∀ r, (readAttribute r attr).diags ≠ []) ∨
      (∃ k v, attr.entry = some (k, v) ∧ k.parser ≠ none ∧
        ∀ r, readAttribute r attr = ⟨r.or k.category v k.flagSet, [], false⟩) ∨
      ∃ k, attr.entry = some (k, k.flagValue) ∧ k.parser = none ∧
        ∀ r, readAttribute r attr = readPlain r k (attr.id.getD []) := by
  unfold Attribute.entry readAttribute
  dsimp only
  cases hfind : findKeyword (attr.id.getD []) with
  | none => exact .inl ⟨rfl, fun r => List.append_ne_nil_of_right_ne_nil _ (List.cons_ne_nil _ _)⟩
  | some k =>
    obtain ⟨-, -, hbased, halign, -⟩ := oAttributes_ok k (mem_of_findKeyword hfind)
    cases hparser : k.parser with
    | none => exact .inr (.inr ⟨k, by simp only [hparser], hparser, fun _ => by simp only [hparser]⟩)
    | some parser =>
      cases parser with
      | based =>
        cases attr.reg with
        | error e => exact .inl ⟨by simp only [hparser], fun _ => by simp [hparser, parseAttributeBASED]⟩
        | ok reg =>
          refine .inr (.inl ⟨k, areaBased ||| reg.zeroExtend 32 <<< 24, by simp only [hparser],
            by rw [hparser]; nofun, fun r => ?_⟩)
          simp only [hparser, parseAttributeBASED, (hbased hparser).1, (hbased hparser).2]
      | align =>
        cases attr.align with
        | malformed => exact .inl ⟨by simp only [hparser], fun _ => by simp [hparser, parseAttributeALIGN]⟩
        | unrecognized => exact .inl ⟨by simp only [hparser], fun _ => by simp [hparser, parseAttributeALIGN]⟩
        | int i =>
          by_cases hrange : (i.slt 2 || (31 : BitVec 32).slt i) = true
          · refine .inl ⟨?_, fun r => ?_⟩
            · simp only [hparser, if_pos hrange]
            · simp only [hparser, parseAttributeALIGN, if_pos hrange]
              exact List.cons_ne_nil _ _
          · refine .inr (.inl ⟨k, i, ?_, by rw [hparser]; nofun, fun r => ?_⟩)
            · simp only [hparser, if_neg hrange]
            · simp only [hparser, parseAttributeALIGN, if_neg hrange, (halign hparser).1, (halign hparser).2]

theorem readPlain_gather {k : AKeyword} {id : Name} (hok : ∀ e ∈ es, EntryOk e)
    (hk : EntryOk (k, k.flagValue)) (hcons : Consistent es) (hparser : k.parser = none) :
    Consistent (es ++ [(k, k.flagValue)]) ∧
        readPlain (gather es) k id = ⟨gather (es ++ [(k, k.flagValue)]), [], false⟩ ∨
      ¬Consistent (es ++ [(k, k.flagValue)]) ∧ (readPlain (gather es) k id).diags ≠ [] := by
  unfold readPlain
  by_cases hzero : k.flagSet &&& (gather es).flagSets k.category = 0
  · have hne := (gather_flagSets_eq_zero_iff hok hk).mp hzero
    rw [if_neg (not_not_intro hzero), gather_concat]
    refine .inl ⟨fun e he e' he' hplain hc hf => ?_, rfl⟩
    obtain he | he := List.mem_append.mp he
    · obtain he' | he' := List.mem_append.mp he'
      · exact hcons e he e' he' hplain hc hf
      · obtain rfl := List.mem_singleton.mp he'
        exact absurd hf.symm (hne e he hc.symm)
    · obtain rfl := List.mem_singleton.mp he
      obtain he' | he' := List.mem_append.mp he'
      · exact absurd hf (hne e' he' hc)
      · rw [List.mem_singleton.mp he']
  · -- there is an attribute with these bits, and they have its value
    have hex : ∃ e ∈ es, e.1.category = k.category ∧ e.1.flagSet = k.flagSet := by
      by_contra hnot
      exact hzero ((gather_flagSets_eq_zero_iff hok hk).mpr fun e he hc hf => hnot ⟨e, he, hc, hf⟩)
    obtain ⟨e, he, hc, hf⟩ := hex
    have heplain : e.1.parser = none := ((hok e he).parser_eq hk hc hf).trans hparser
    have hvalue : (gather es).flagValues k.category &&& k.flagSet = e.1.flagValue := by
      rw [← hc, ← hf, gather_flagSet hok he, (hok e he).plain heplain]
      intro e' he' hc' hf'
      have hplain' : e'.1.parser = none := ((hok e' he').parser_eq (hok e he) hc' hf').trans heplain
      rw [(hok e' he').plain hplain', (hok e he).plain heplain]
      exact hcons e he e' he' heplain hc' hf'
    rw [if_pos hzero, BitVec.and_comm, hvalue]
    by_cases hsame : e.1.flagValue = k.flagValue
    · rw [if_neg (not_not_intro hsame),
        gather_concat_of_mem he hc (((hok e he).plain heplain).trans hsame) hf]
      refine .inl ⟨fun d hd d' hd' hplain hc' hf' => ?_, rfl⟩
      -- both stand for entries of `es`
      have hold : ∀ d ∈ es ++ [(k, k.flagValue)], ∃ b ∈ es, b.1.category = d.1.category ∧
          b.1.flagSet = d.1.flagSet ∧ b.1.flagValue = d.1.flagValue ∧
            (d.1.parser = none → b.1.parser = none) := by
        intro d hd
        obtain hd | hd := List.mem_append.mp hd
        · exact ⟨d, hd, rfl, rfl, rfl, fun h => h⟩
        · obtain rfl := List.mem_singleton.mp hd
          exact ⟨e, he, hc, hf, hsame, fun _ => heplain⟩
      obtain ⟨b, hb, hbc, hbf, hbv, hbp⟩ := hold d hd
      obtain ⟨b', hb', hbc', hbf', hbv', -⟩ := hold d' hd'
      rw [← hbv, ← hbv']
      exact hcons b hb b' hb' (hbp hplain) (hbc'.trans (hc'.trans hbc.symm)) (hbf'.trans (hf'.trans hbf.symm))
    · rw [if_pos hsame]
      refine .inr ⟨fun h => hsame ?_, List.cons_ne_nil _ _⟩
      exact (h e (List.mem_append_left _ he) _ (List.mem_append_right _ List.mem_cons_self) heplain hc.symm
        hf.symm).symm

theorem Consistent.concat (hok : ∀ e ∈ es, EntryOk e)
    (he : EntryOk e) (hcons : Consistent es) (hparser : e.1.parser ≠ none) : Consistent (es ++ [e]) := by
  intro d hd d' hd' hplain hc hf
  obtain hmem | hmem := List.mem_append.mp hd
  · obtain hmem' | hmem' := List.mem_append.mp hd'
    · exact hcons d hmem d' hmem' hplain hc hf
    · obtain rfl := List.mem_singleton.mp hmem'
      exact absurd ((he.parser_eq (hok d hmem) hc hf).trans hplain) hparser
  · obtain rfl := List.mem_singleton.mp hmem
    exact absurd hplain hparser

/-- All attributes are entries, and none contradicts another or one of those before. -/
def Fine (es : List Entry) (attrs : List Attribute) : Prop :=
  (∀ attr ∈ attrs, attr.entry ≠ none) ∧ Consistent (es ++ attrs.filterMap Attribute.entry)

theorem fine_cons_iff {attrs : List Attribute}
    (he : attr.entry = some e) : Fine es (attr :: attrs) ↔ Fine (es ++ [e]) attrs := by
  rw [Fine, Fine, List.filterMap_cons_some he, List.append_cons, List.forall_mem_cons, he]
  exact ⟨fun h => ⟨h.1.2, h.2⟩, fun h => ⟨⟨Option.some_ne_none _, h.1⟩, h.2⟩⟩

theorem Consistent.mono (h : Consistent es') (hsub : es ⊆ es') :
    Consistent es := fun e he e' he' => h e (hsub he) e' (hsub he')

/-- **The attributes are gathered** if they are fine; else there is a message. -/
theorem readAttributes_gather (hok : ∀ e ∈ es, EntryOk e) (hcons : Consistent es)
    (attrs : List Attribute) :
    Fine es attrs ∧ readAttributes (gather es) attrs = (gather (es ++ attrs.filterMap Attribute.entry), []) ∨
      ¬Fine es attrs ∧ (readAttributes (gather es) attrs).2 ≠ [] := by
  induction attrs generalizing es with
  | nil =>
    refine .inl ⟨⟨fun _ h => absurd h List.not_mem_nil, ?_⟩, ?_⟩
    · rwa [List.filterMap_nil, List.append_nil]
    · rw [List.filterMap_nil, List.append_nil, readAttributes]
  | cons attr attrs ih =>
    have hadd : ∀ e, attr.entry = some e → Consistent (es ++ [e]) →
        readAttribute (gather es) attr = ⟨gather (es ++ [e]), [], false⟩ →
        Fine es (attr :: attrs) ∧ readAttributes (gather es) (attr :: attrs) =
            (gather (es ++ (attr :: attrs).filterMap Attribute.entry), []) ∨
          ¬Fine es (attr :: attrs) ∧ (readAttributes (gather es) (attr :: attrs)).2 ≠ [] := by
      intro e he hcons' hread
      have hok' : ∀ d ∈ es ++ [e], EntryOk d := by
        intro d hd
        obtain hd | hd := List.mem_append.mp hd
        · exact hok d hd
        · exact List.mem_singleton.mp hd ▸ entryOk_of_entry he
      rw [fine_cons_iff he, readAttributes, hread, List.filterMap_cons_some he,
        List.append_cons es e (attrs.filterMap Attribute.entry)]
      exact ih hok' hcons'
    have hfail : (readAttribute (gather es) attr).diags ≠ [] →
        (readAttributes (gather es) (attr :: attrs)).2 ≠ [] := by
      intro hdiags
      rw [readAttributes]
      dsimp only
      split
      · exact hdiags
      · exact List.append_ne_nil_of_left_ne_nil hdiags _
    obtain ⟨hnone, hdiags⟩ | ⟨k, v, he, hparser, hread⟩ | ⟨k, he, hparser, hread⟩ := readAttribute_cases attr
    · refine .inr ⟨fun h => ?_, hfail (hdiags _)⟩
      exact h.1 attr List.mem_cons_self hnone
    · refine hadd _ he (hcons.concat hok (entryOk_of_entry he) hparser) ?_
      rw [hread, gather_concat]
    · obtain ⟨hcons', hplain⟩ | ⟨hnot, hdiags⟩ := readPlain_gather hok (entryOk_of_entry he) hcons hparser
      · exact hadd _ he hcons' ((hread _).trans hplain)
      · refine .inr ⟨fun h => hnot (((fine_cons_iff he).mp h).2.mono ?_), hfail ?_⟩
        · exact List.subset_append_left _ _
        · rwa [hread]

theorem readAttributes_error (r : AttribResult) (attrs : List Attribute) :
    ∀ d ∈ (readAttributes r attrs).2, d.tag = .error := by
  have hone : ∀ r attr, ∀ d ∈ (readAttribute r attr).diags, d.tag = .error := by
    intro r attr d hd
    unfold readAttribute parseAttributeBASED parseAttributeALIGN readPlain at hd
    dsimp only at hd
    split at hd
    · obtain hd | hd := List.mem_append.mp hd
      · split at hd
        · rw [List.mem_singleton.mp hd]
        · exact absurd hd List.not_mem_nil
      · rw [List.mem_singleton.mp hd]
    · split at hd
      · split at hd
        · exact absurd hd List.not_mem_nil
        · rename_i e _
          rw [List.mem_singleton.mp hd]
          cases e <;> rfl
      · split at hd
        · rw [List.mem_singleton.mp hd]
        · rw [List.mem_singleton.mp hd]
        · split at hd
          · rw [List.mem_singleton.mp hd]
          · exact absurd hd List.not_mem_nil
      · split at hd
        · split at hd
          · rw [List.mem_singleton.mp hd]
          · exact absurd hd List.not_mem_nil
        · exact absurd hd List.not_mem_nil
  induction attrs generalizing r with
  | nil => exact fun _ h => absurd h List.not_mem_nil
  | cons attr attrs ih =>
    intro d hd
    rw [readAttributes] at hd
    dsimp only at hd
    split at hd
    · exact hone _ _ d hd
    · obtain hd | hd := List.mem_append.mp hd
      · exact hone _ _ d hd
      · exact ih _ d hd

/-! ### The area type -/

theorem or_and_eq {flags c f v : BitVec 32} (h : flags &&& f = v) (hc : c &&& f ||| v = v) :
    (flags ||| c) &&& f = v := by
  rw [BitVec.and_comm, BitVec.and_or_distrib_left, BitVec.and_comm f flags, h, BitVec.and_comm f c,
    BitVec.or_comm,
    hc]

theorem or_and_of_disjoint {flags c f v : BitVec 32} (h : flags &&& f = v) (hc : c &&& f = 0) :
    (flags ||| c) &&& f = v := or_and_eq h (by rw [hc]; exact BitVec.zero_or)

theorem orIf_and_eq {b : Bool} {flags c f v : BitVec 32} (h : flags &&& f = v) (hc : c &&& f ||| v = v) :
    orIf b c flags &&& f = v := by
  unfold orIf
  split
  · exact or_and_eq h hc
  · exact h

theorem andNot_and_of_disjoint {flags c f v : BitVec 32} (h : flags &&& f = v) (hc : c &&& f = 0) :
    (flags &&& ~~~c) &&& f = v := by
  rw [← h]
  refine BitVec.eq_of_getLsbD_eq fun i hi => ?_
  have hbit := congrArg (BitVec.getLsbD · i) hc
  have hzero : (0 : BitVec 32).getLsbD i = false := BitVec.getLsbD_zero
  simp only [BitVec.getLsbD_and, BitVec.getLsbD_not, hzero, decide_eq_true hi, Bool.true_and] at hbit ⊢
  cases hf : f.getLsbD i with
  | false => rw [Bool.and_false, Bool.and_false]
  | true =>
    rw [hf, Bool.and_true] at hbit
    rw [hbit, Bool.not_false, Bool.and_true]

/-- The flags that `c_area` sets or clears by itself, and the bits of a keyword. -/
private theorem oAttributes_kept : ∀ k ∈ oAttributes,
    (k.flagSet = areaAlignMask ∨ areaAlignMask &&& k.flagSet = 0) ∧
    (k.flagSet = areaAbs ∨ areaAbs &&& k.flagSet = 0) ∧
    (k.flagSet ∈ [areaCommonDef, areaCommonRef, areaUData] ∨
      areaCommonRef &&& k.flagSet = 0 ∧ (areaCommonDef ||| areaUData) &&& k.flagSet = 0) := by
  decide

private theorem oAttributes_kinds : ∀ k ∈ oAttributes, ∀ k' ∈ oAttributes, k.category = .bothCodeAndData →
    k'.category ≠ .bothCodeAndData → k.flagSet &&& k'.flagSet = 0 := by
  decide

variable {flags : BitVec 32}

def AgreesWithAll (c : BitVec 32) : Prop :=
  ∀ k ∈ oAttributes, c &&& k.flagSet = 0 ∨ k.parser = none ∧ c &&& k.flagSet ||| k.flagValue = k.flagValue

theorem AgreesWithAll.orIf {c : BitVec 32} (hc : AgreesWithAll c) (he : EntryOk e) {b : Bool}
    (h : flags &&& e.1.flagSet = e.2) : orIf b c flags &&& e.1.flagSet = e.2 := by
  refine orIf_and_eq h ?_
  obtain hzero | ⟨hparser, hvalue⟩ := hc e.1 he.mem
  · rw [hzero]
    exact BitVec.zero_or
  · rwa [he.plain hparser]

theorem applyAPCSOption_and (he : EntryOk e) (h : flags &&& e.1.flagSet = e.2) (gOptionAPCS : BitVec 32) :
    applyAPCSOption gOptionAPCS flags &&& e.1.flagSet = e.2 := by
  have h32 : AgreesWithAll area32BitAPCS := by unfold AgreesWithAll; decide
  have hext : AgreesWithAll areaExtFPSet := by unfold AgreesWithAll; decide
  have hpic : AgreesWithAll areaPIC := by unfold AgreesWithAll; decide
  have hreentrant : AgreesWithAll areaReentrant := by unfold AgreesWithAll; decide
  have hstack : AgreesWithAll areaNoSWStackCheck := by unfold AgreesWithAll; decide
  have hinterwork : AgreesWithAll areaInterwork := by unfold AgreesWithAll; decide
  have hvfp : AgreesWithAll areaVFP := by unfold AgreesWithAll; decide
  unfold applyAPCSOption
  exact hvfp.orIf he (hinterwork.orIf he (hstack.orIf he (hreentrant.orIf he (hpic.orIf he (hext.orIf he
    (h32.orIf he h))))))

theorem mergeCommon_and {f v : BitVec 32} (h : flags &&& f = v) (href : areaCommonRef &&& f = 0)
    (hother : (areaCommonDef ||| areaUData) &&& f = 0) : mergeCommon flags &&& f = v := by
  have hfirst : (if isSet flags areaCommonDef then flags &&& ~~~areaCommonRef else flags) &&& f = v := by
    split
    · exact andNot_and_of_disjoint h href
    · exact h
  unfold mergeCommon
  dsimp only
  generalize (if isSet flags areaCommonDef then flags &&& ~~~areaCommonRef else flags) = merged at hfirst ⊢
  split
  · exact or_and_of_disjoint (andNot_and_of_disjoint hfirst hother) href
  · exact hfirst

theorem defaultAlign_and (he : EntryOk e) (h : flags &&& e.1.flagSet = e.2) (prev : BitVec 32) :
    defaultAlign prev flags &&& e.1.flagSet = e.2 := by
  unfold defaultAlign
  obtain halign | hzero := (oAttributes_kept _ he.mem).1
  · rw [if_neg]
    · exact h
    · rw [← halign, h]
      exact he.align halign
  · have hsub : ∀ b ∈ [prev &&& areaAlignMask, areaDefaultAlignment], b &&& e.1.flagSet = 0 := by
      intro b hb
      obtain rfl | hb := List.mem_cons.mp hb
      · rw [BitVec.and_assoc, hzero]
        exact BitVec.and_zero
      · obtain rfl := List.mem_singleton.mp hb
        rw [show areaDefaultAlignment = areaDefaultAlignment &&& areaAlignMask from rfl, BitVec.and_assoc,
          hzero]
        exact BitVec.and_zero
    split
    · split
      · exact or_and_of_disjoint h (hsub _ List.mem_cons_self)
      · exact or_and_of_disjoint h (hsub _ (List.mem_cons_of_mem _ List.mem_cons_self))
    · exact h

/-- **The attributes of the area that is asked for** are all in its flags, unless there is an error. -/
theorem chooseKind_and (hok : ∀ e ∈ es, EntryOk e) (he : e ∈ es)
    (hsame : ∀ e' ∈ es, e'.1.category = e.1.category → e'.1.flagSet = e.1.flagSet → e'.2 = e.2)
    (hdiags : (chooseKind (gather es)).2 = []) : (chooseKind (gather es)).1 &&& e.1.flagSet = e.2 := by
  have hmine := gather_flagSet hok he hsame
  -- the other word of the flags has no bit of this attribute
  have hother : ∀ c, (c = .bothCodeAndData ↔ e.1.category ≠ .bothCodeAndData) →
      (gather es).flagValues c &&& e.1.flagSet = 0 := by
    intro c hc
    refine eq_zero_of_bits fun i hbit => ?_
    rw [BitVec.getLsbD_and, Bool.and_eq_true, (getLsbD_gather es c i).1] at hbit
    obtain ⟨⟨e', he', hcat, hv⟩, hf⟩ := hbit
    have hv' := (hok e' he').getLsbD hv
    have hdisjoint : e'.1.flagSet &&& e.1.flagSet = 0 := by
      by_cases hboth : c = .bothCodeAndData
      · exact oAttributes_kinds _ (hok e' he').mem _ (hok e he).mem (hcat.trans hboth) (hc.mp hboth)
      · have hmy : e.1.category = .bothCodeAndData := not_not.mp fun h => hboth (hc.mpr h)
        rw [BitVec.and_comm]
        exact oAttributes_kinds _ (hok e he).mem _ (hok e' he').mem hmy fun h => hboth (hcat.symm.trans h)
    rw [not_both_of_and_eq_zero hdisjoint hv'] at hf
    cases hf
  have hwrong : ∀ c, (gather es).flagSets c = 0 → e.1.category ≠ c := by
    rintro c hc rfl
    refine (oAttributes_ok _ (hok e he).mem).1 (eq_zero_of_bits fun i hbit => ?_)
    have hset := (getLsbD_gather es e.1.category i).2.mpr ⟨e, he, rfl, hbit⟩
    rw [hc, show (0 : BitVec 32).getLsbD i = false from BitVec.getLsbD_zero] at hset
    cases hset
  unfold chooseKind at hdiags ⊢
  dsimp only at hdiags ⊢
  have hnowrong : (gather es).flagSets (if isSet ((gather es).flagValues .bothCodeAndData) areaCode
      then .forDataAreaOnly else .forCodeAreaOnly) = 0 := by
    by_contra hne
    rw [if_neg hne] at hdiags
    cases hdiags
  rw [if_pos hnowrong]
  have hne := hwrong _ hnowrong
  dsimp only
  cases hcode : isSet ((gather es).flagValues .bothCodeAndData) areaCode with
  | true =>
    rw [hcode, if_pos rfl] at hne
    rw [if_pos rfl]
    cases hcat : e.1.category with
    | bothCodeAndData =>
      rw [hcat] at hmine hother
      exact or_and_of_disjoint hmine (hother _ (by decide))
    | forCodeAreaOnly =>
      rw [hcat] at hmine hother
      rw [BitVec.or_comm]
      exact or_and_of_disjoint hmine (hother _ (by decide))
    | forDataAreaOnly => exact absurd hcat hne
  | false =>
    rw [hcode, if_neg Bool.false_ne_true] at hne
    rw [if_neg Bool.false_ne_true]
    cases hcat : e.1.category with
    | bothCodeAndData =>
      rw [hcat] at hmine hother
      exact or_and_of_disjoint hmine (hother _ (by decide))
    | forCodeAreaOnly => exact absurd hcat hne
    | forDataAreaOnly =>
      rw [hcat] at hmine hother
      rw [BitVec.or_comm]
      exact or_and_of_disjoint hmine (hother _ (by decide))

/-- **The flags of the area** have each attribute, but for those that are merged or that an ORG sets. -/
theorem areaFlags_and {gOptionAPCS prev : BitVec 32} {org : Option (BitVec 32)} (hok : ∀ e ∈ es, EntryOk e)
    (he : e ∈ es) (hsame : ∀ e' ∈ es, e'.1.category = e.1.category → e'.1.flagSet = e.1.flagSet → e'.2 = e.2)
    (hkept : e.1.flagSet ∉ [areaAbs, areaCommonDef, areaCommonRef, areaUData])
    (hdiags : (areaFlags gOptionAPCS org prev (gather es)).2 = []) :
    (areaFlags gOptionAPCS org prev (gather es)).1 &&& e.1.flagSet = e.2 := by
  obtain ⟨-, habs, hmerge⟩ := oAttributes_kept _ (hok e he).mem
  obtain ⟨hnotabs, hnotmerged⟩ := not_or.mp fun h => hkept (List.mem_cons.mpr h)
  unfold areaFlags at hdiags ⊢
  dsimp only at hdiags ⊢
  rw [List.append_eq_nil_iff, List.append_eq_nil_iff] at hdiags
  have hkind := chooseKind_and hok he hsame hdiags.1.1
  have hdefault := defaultAlign_and (hok e he) hkind prev
  have horg : orIf org.isSome areaAbs (defaultAlign prev (chooseKind (gather es)).1) &&& e.1.flagSet = e.2 :=
    orIf_and_eq hdefault (by rw [habs.resolve_left hnotabs]; exact BitVec.zero_or)
  obtain ⟨href, hother⟩ := hmerge.resolve_left hnotmerged
  have hmerged := mergeCommon_and horg href hother
  split
  · exact applyAPCSOption_and (hok e he) hmerged _
  · exact hmerged

/-! ### The bits that are merged -/

theorem isSet_eq_getLsbD (flags : BitVec 32) (i : Fin 32) :
    isSet flags (BitVec.twoPow 32 i) = flags.getLsbD i := by
  have hne : (BitVec.twoPow 32 i != 0) = true := by
    revert i
    decide
  unfold isSet
  rw [BitVec.and_twoPow]
  cases flags.getLsbD i with
  | false => rfl
  | true => exact hne

theorem getLsbD_andNot (x c : BitVec 32) {i : ℕ} (hi : i < 32) :
    (x &&& ~~~c).getLsbD i = (x.getLsbD i && !c.getLsbD i) := by
  rw [BitVec.getLsbD_and, BitVec.getLsbD_not, decide_eq_true hi, Bool.true_and]

theorem getLsbD_mergeCommon (flags : BitVec 32) :
    (mergeCommon flags).getLsbD 10 = (flags.getLsbD 10 && !flags.getLsbD 12) ∧
      (mergeCommon flags).getLsbD 11 =
        (flags.getLsbD 10 && flags.getLsbD 12 || !flags.getLsbD 10 && flags.getLsbD 11) ∧
      (mergeCommon flags).getLsbD 12 = (flags.getLsbD 12 && !flags.getLsbD 10) := by
  have hdef : isSet flags areaCommonDef = flags.getLsbD 10 := isSet_eq_getLsbD flags 10
  have hboth : ∀ x : BitVec 32, x &&& (areaCommonDef ||| areaUData) = areaCommonDef ||| areaUData ↔
      x.getLsbD 10 = true ∧ x.getLsbD 12 = true := by
    intro x
    constructor
    · intro h
      have h10 := congrArg (BitVec.getLsbD · 10) h
      have h12 := congrArg (BitVec.getLsbD · 12) h
      simpa [areaCommonDef, areaUData] using And.intro h10 h12
    · rintro ⟨h10, h12⟩
      rw [show areaCommonDef ||| areaUData = BitVec.twoPow 32 10 ||| BitVec.twoPow 32 12 by decide,
        BitVec.and_or_distrib_left, BitVec.and_twoPow, BitVec.and_twoPow, if_pos h10, if_pos h12]
  have href : areaCommonRef.getLsbD 10 = false ∧ areaCommonRef.getLsbD 11 = true ∧
      areaCommonRef.getLsbD 12 = false := by decide
  have hmask : (areaCommonDef ||| areaUData).getLsbD 10 = true ∧ (areaCommonDef ||| areaUData).getLsbD 12 =
    true :=
    by decide
  -- the first step takes bit 11 away where there is bit 10
  obtain ⟨flags', hflags', h10, h11, h12⟩ : ∃ flags', flags' = (if isSet flags areaCommonDef then
      flags &&& ~~~areaCommonRef else flags) ∧ flags'.getLsbD 10 = flags.getLsbD 10 ∧
      flags'.getLsbD 11 = (!flags.getLsbD 10 && flags.getLsbD 11) ∧ flags'.getLsbD 12 = flags.getLsbD 12 := by
    refine ⟨_, rfl, ?_⟩
    rw [hdef]
    cases hb : flags.getLsbD 10 with
    | false => exact ⟨hb, rfl, rfl⟩
    | true =>
      rw [if_pos rfl, getLsbD_andNot _ _ (by decide), getLsbD_andNot _ _ (by decide),
        getLsbD_andNot _ _ (by decide), href.1, href.2.1, href.2.2, hb]
      simp only [Bool.not_false, Bool.not_true, Bool.and_true, Bool.and_false, Bool.false_and, and_self]
  unfold mergeCommon
  rw [← hflags']
  dsimp only
  by_cases hmerge : flags.getLsbD 10 = true ∧ flags.getLsbD 12 = true
  · rw [if_pos ((hboth _).mpr (by rwa [h10, h12]))]
    simp only [BitVec.getLsbD_or, getLsbD_andNot _ _ (show 10 < 32 by decide),
      getLsbD_andNot _ _ (show 12 < 32 by decide), href, hmask, hmerge, Bool.not_true, Bool.and_false,
      Bool.or_true, Bool.or_false, Bool.and_true, Bool.true_or, and_self]
  · rw [if_neg (fun h => hmerge (by rw [← h10, ← h12]; exact (hboth _).mp h)), h10, h11, h12]
    cases hb : flags.getLsbD 10 <;> cases hc : flags.getLsbD 12
    · exact ⟨rfl, rfl, rfl⟩
    · exact ⟨rfl, rfl, rfl⟩
    · exact ⟨rfl, rfl, rfl⟩
    · exact absurd ⟨hb, hc⟩ hmerge

/-! ### Which bits there are at all -/

def categoryMask : FlagCat → BitVec 32
  | .bothCodeAndData => 0x80007FFF
  | .forCodeAreaOnly => 0x406A0000
  | .forDataAreaOnly => 0x0F108000

def AttribResult.Sound (result : AttribResult) : Prop :=
  ∀ c, result.flagValues c ||| categoryMask c = categoryMask c

private theorem oAttributes_mask : ∀ k ∈ oAttributes, k.flagSet ||| categoryMask k.category =
    categoryMask k.category ∧
    k.flagValue ||| categoryMask k.category = categoryMask k.category := by
  decide

theorem or_within {x y m : BitVec 32} (hx : x ||| m = m) (hy : y ||| m = m) : (x ||| y) ||| m = m := by
  rw [BitVec.or_assoc, hy, hx]

theorem orIf_within {b : Bool} {x y m : BitVec 32} (hx : x ||| m = m) (hy : y ||| m = m) :
    orIf b y x ||| m = m := by
  unfold orIf
  split
  · exact or_within hx hy
  · exact hx

theorem and_within {x m : BitVec 32} (hx : x ||| m = m) (y : BitVec 32) : (x &&& y) ||| m = m := by
  refine BitVec.eq_of_getLsbD_eq fun i _ => ?_
  have hbit := congrArg (BitVec.getLsbD · i) hx
  simp only [BitVec.getLsbD_or, BitVec.getLsbD_and] at hbit ⊢
  cases hm : m.getLsbD i with
  | true => exact Bool.or_true _
  | false =>
    rw [hm, Bool.or_false] at hbit
    rw [hbit, Bool.false_and, Bool.or_false]

theorem AttribResult.Sound.or {result : AttribResult} (h : result.Sound) {c : FlagCat} {v : BitVec 32}
    (hv : v ||| categoryMask c = categoryMask c) (set : BitVec 32) : (result.or c v set).Sound := by
  intro d
  unfold AttribResult.or
  dsimp only
  split
  · rename_i hd
    exact or_within (h d) (hd ▸ hv)
  · exact h d

theorem readAttribute_sound {result : AttribResult} (h : result.Sound) (attr : Attribute) :
    (readAttribute result attr).result.Sound := by
  have hbased : ∀ reg : BitVec 4, (areaBased ||| reg.zeroExtend 32 <<< 24) ||| categoryMask .forDataAreaOnly =
      categoryMask .forDataAreaOnly := by decide
  unfold readAttribute
  dsimp only
  split
  · exact h
  · rename_i k hfind
    split
    · unfold parseAttributeBASED
      dsimp only
      split
      · exact h.or (hbased _) _
      · exact h.or (hbased 0) _
    · unfold parseAttributeALIGN
      split
      · exact h
      · exact h
      · split
        · exact h
        · rename_i hrange
          refine h.or ?_ _
          have hmask : areaAlignMask ||| categoryMask .bothCodeAndData = categoryMask .bothCodeAndData := by
            decide
          rw [← hmask, ← BitVec.or_assoc, align_value hrange]
    · unfold readPlain
      split
      · split
        · exact h
        · exact h
      · exact h.or (oAttributes_mask k (mem_of_findKeyword hfind)).2 _

theorem getAreaAttributes_sound (attrs : List Attribute) : (getAreaAttributes attrs).1.Sound := by
  have hall : ∀ (attrs : List Attribute) (result : AttribResult), result.Sound →
      (readAttributes result attrs).1.Sound := by
    intro attrs
    induction attrs with
    | nil => exact fun _ h => h
    | cons attr attrs ih =>
      intro result h
      have hone := readAttribute_sound h attr
      rw [readAttributes]
      dsimp only
      split
      · exact hone
      · exact ih _ hone
  refine hall attrs _ fun c => ?_
  exact BitVec.zero_or

def flagsToMerge (org : Option (BitVec 32)) (prev : BitVec 32) (result : AttribResult) : BitVec 32 :=
  orIf org.isSome areaAbs (defaultAlign prev (chooseKind result).1)

variable {result : AttribResult} {org : Option (BitVec 32)} {prev gOptionAPCS : BitVec 32} {i : ℕ}

theorem areaFlags_fst : (areaFlags gOptionAPCS org prev result).1 =
    if isSet (mergeCommon (flagsToMerge org prev result)) areaCode then
      applyAPCSOption gOptionAPCS (mergeCommon (flagsToMerge org prev result))
    else mergeCommon (flagsToMerge org prev result) := rfl

theorem getLsbD_orIf {b : Bool} {c x : BitVec 32} (hc : c.getLsbD i = false) :
    (orIf b c x).getLsbD i = x.getLsbD i := by
  unfold orIf
  split
  · rw [BitVec.getLsbD_or, hc, Bool.or_false]
  · rfl

def Clear (c : BitVec 32) : Prop := ∀ j < 13, 8 ≤ j → c.getLsbD j = false

theorem chooseKind_fst : (chooseKind result).1 = result.flagValues .bothCodeAndData ||| result.flagValues
    (if isSet (result.flagValues .bothCodeAndData) areaCode then .forCodeAreaOnly else .forDataAreaOnly) := by
  unfold chooseKind
  dsimp only
  rw [apply_ite Prod.fst]
  exact ite_self _

theorem getLsbD_flagsToMerge (h : result.Sound) (hlow : 8 ≤ i) (hhigh : i < 13) :
    (flagsToMerge org prev result).getLsbD i =
      ((result.flagValues .bothCodeAndData).getLsbD i || (decide (i = 8) && org.isSome)) := by
  have hother : ∀ c, c ≠ .bothCodeAndData → (result.flagValues c).getLsbD i = false := by
    intro c hc
    have hbit := congrArg (BitVec.getLsbD · i) (h c)
    have hmask : (categoryMask c).getLsbD i = false := by
      cases c with
      | bothCodeAndData => exact absurd rfl hc
      | forCodeAreaOnly => exact (show Clear _ from by unfold Clear; decide) i hhigh hlow
      | forDataAreaOnly => exact (show Clear _ from by unfold Clear; decide) i hhigh hlow
    simp only [BitVec.getLsbD_or, hmask, Bool.or_false] at hbit
    exact hbit
  have hkind : (chooseKind result).1.getLsbD i = (result.flagValues .bothCodeAndData).getLsbD i := by
    have hchosen : (if isSet (result.flagValues .bothCodeAndData) areaCode then FlagCat.forCodeAreaOnly
        else .forDataAreaOnly) ≠ .bothCodeAndData := by
      split <;> decide
    rw [chooseKind_fst, BitVec.getLsbD_or, hother _ hchosen, Bool.or_false]
  have hdefault : (defaultAlign prev (chooseKind result).1).getLsbD i =
      (result.flagValues .bothCodeAndData).getLsbD i := by
    have hmask : areaAlignMask.getLsbD i = false := (show Clear _ from by unfold Clear; decide) i hhigh hlow
    have htwo : areaDefaultAlignment.getLsbD i = false :=
      (show Clear _ from by unfold Clear; decide) i hhigh hlow
    unfold defaultAlign
    split
    · rw [BitVec.getLsbD_or, hkind]
      split
      · rw [BitVec.getLsbD_and, hmask, Bool.and_false, Bool.or_false]
      · rw [htwo, Bool.or_false]
    · exact hkind
  unfold flagsToMerge
  by_cases h8 : i = 8
  · subst h8
    have habs : areaAbs.getLsbD 8 = true := by decide
    unfold orIf
    cases org.isSome with
    | true => rw [if_pos rfl, BitVec.getLsbD_or, hdefault, habs]; rfl
    | false => rw [if_neg Bool.false_ne_true, hdefault]; simp
  · have habs : areaAbs.getLsbD i = false := by
      have hall : ∀ j < 13, j ≠ 8 → areaAbs.getLsbD j = false := by decide
      exact hall i hhigh h8
    rw [getLsbD_orIf habs, hdefault, decide_eq_false h8, Bool.false_and, Bool.or_false]

theorem getLsbD_areaFlags (hlow : 8 ≤ i) (hhigh : i < 13) :
    (areaFlags gOptionAPCS org prev result).1.getLsbD i =
      (mergeCommon (flagsToMerge org prev result)).getLsbD i := by
  rw [areaFlags_fst]
  split
  · unfold applyAPCSOption
    have hvfp : Clear areaVFP := by unfold Clear; decide
    have hinterwork : Clear areaInterwork := by unfold Clear; decide
    have hstack : Clear areaNoSWStackCheck := by unfold Clear; decide
    have hreentrant : Clear areaReentrant := by unfold Clear; decide
    have hpic : Clear areaPIC := by unfold Clear; decide
    have hext : Clear areaExtFPSet := by unfold Clear; decide
    have h32 : Clear area32BitAPCS := by unfold Clear; decide
    rw [getLsbD_orIf (hvfp i hhigh hlow), getLsbD_orIf (hinterwork i hhigh hlow),
      getLsbD_orIf (hstack i hhigh hlow),
      getLsbD_orIf (hreentrant i hhigh hlow), getLsbD_orIf (hpic i hhigh hlow),
        getLsbD_orIf (hext i hhigh hlow),
      getLsbD_orIf (h32 i hhigh hlow)]
  · rfl

theorem getLsbD_mergeCommon_low (flags : BitVec 32) (hhigh : i < 10) :
    (mergeCommon flags).getLsbD i = flags.getLsbD i := by
  have hlt : i < 32 := by omega
  have href : ∀ j < 10, areaCommonRef.getLsbD j = false := by decide
  have hmask : ∀ j < 10, (areaCommonDef ||| areaUData).getLsbD j = false := by decide
  have hfirst : (if isSet flags areaCommonDef then flags &&& ~~~areaCommonRef else flags).getLsbD i =
      flags.getLsbD i := by
    split
    · rw [getLsbD_andNot _ _ hlt, href i hhigh, Bool.not_false, Bool.and_true]
    · rfl
  unfold mergeCommon
  dsimp only
  generalize (if isSet flags areaCommonDef then flags &&& ~~~areaCommonRef else flags) = merged at hfirst ⊢
  split
  · rw [BitVec.getLsbD_or, getLsbD_andNot _ _ hlt, href i hhigh, hmask i hhigh, Bool.not_false, Bool.and_true,
      Bool.or_false, hfirst]
  · exact hfirst

/-- **The flags keep to the mask of their kind of area**, as `c_area` asserts. -/
theorem areaFlags_within (h : result.Sound) : (areaFlags gOptionAPCS org prev result).1 &&&
    ~~~(if isSet (areaFlags gOptionAPCS org prev result).1 areaCode then areaIntCodeMask else areaIntDataMask) =
      0 := by
  have hcode : ∀ x, isSet x areaCode = x.getLsbD 9 := fun x => isSet_eq_getLsbD x 9
  have hmerged : isSet (mergeCommon (flagsToMerge org prev result)) areaCode =
      isSet (result.flagValues .bothCodeAndData) areaCode := by
    rw [hcode, hcode, getLsbD_mergeCommon_low _ (by decide), getLsbD_flagsToMerge h (by decide) (by decide)]
    exact Bool.or_false _
  have hfinal : isSet (areaFlags gOptionAPCS org prev result).1 areaCode =
      isSet (result.flagValues .bothCodeAndData) areaCode := by
    rw [← hmerged, hcode, hcode, getLsbD_areaFlags (by decide) (by decide)]
  -- everything up to the merging keeps to the mask
  have hwithin : ∀ m, (result.flagValues .bothCodeAndData ||| m = m) →
      (result.flagValues (if isSet (result.flagValues .bothCodeAndData) areaCode then .forCodeAreaOnly
        else .forDataAreaOnly) ||| m = m) → areaAlignMask ||| m = m → areaDefaultAlignment ||| m = m →
      areaAbs ||| m = m → areaCommonRef ||| m = m → mergeCommon (flagsToMerge org prev result) ||| m = m := by
    intro m hboth hchosen halign htwo habs href
    have hkind : (chooseKind result).1 ||| m = m := by
      rw [chooseKind_fst]
      exact or_within hboth hchosen
    have hdefault : defaultAlign prev (chooseKind result).1 ||| m = m := by
      unfold defaultAlign
      split
      · refine or_within hkind ?_
        split
        · rw [BitVec.and_comm]
          exact and_within halign _
        · exact htwo
      · exact hkind
    have horg : flagsToMerge org prev result ||| m = m := orIf_within hdefault habs
    unfold mergeCommon
    dsimp only
    split <;> split
    · exact or_within (and_within (and_within horg _) _) href
    · exact and_within horg _
    · exact or_within (and_within horg _) href
    · exact horg
  have hzero : ∀ x m : BitVec 32, x ||| m = m → x &&& ~~~m = 0 := by
    intro x m hx
    rw [← hx]
    refine BitVec.eq_of_getLsbD_eq fun j hj => ?_
    rw [getLsbD_andNot _ _ hj, BitVec.getLsbD_or]
    cases x.getLsbD j <;> simp
  have hmask : ∀ c m, categoryMask c ||| m = m → result.flagValues c ||| m = m := by
    intro c m hm
    rw [← hm, ← BitVec.or_assoc, h c]
  rw [hfinal]
  refine hzero _ _ ?_
  rw [areaFlags_fst, hmerged]
  cases hkind : isSet (result.flagValues .bothCodeAndData) areaCode with
  | true =>
    rw [if_pos rfl, if_pos rfl]
    rw [hkind, if_pos rfl] at hwithin
    have hall :=
      hwithin areaIntCodeMask (hmask _ _ (by decide)) (hmask _ _ (by decide)) (by decide) (by decide)
      (by decide) (by decide)
    unfold applyAPCSOption
    exact orIf_within (orIf_within (orIf_within (orIf_within (orIf_within (orIf_within (orIf_within hall
      (by decide)) (by decide)) (by decide)) (by decide)) (by decide)) (by decide)) (by decide)
  | false =>
    rw [if_neg Bool.false_ne_true, if_neg Bool.false_ne_true]
    rw [hkind, if_neg Bool.false_ne_true] at hwithin
    exact hwithin areaIntDataMask (hmask _ _ (by decide)) (hmask _ _ (by decide)) (by decide) (by decide)
      (by decide) (by decide)

/-! ### The area -/

theorem defineArea_new {sym : Symbol} (hsym : sym.isArea = false) (h : result.Sound) (diags : List Diag) :
    ∃ done, defineArea gOptionAPCS org sym result diags = some done ∧
      done.sym.area.type = (areaFlags gOptionAPCS org 0 result).1 ∧
      done.diags = diags ++ (areaFlags gOptionAPCS org 0 result).2 := by
  have hwithin := @areaFlags_within result org 0 gOptionAPCS h
  have hzero : ∀ x : BitVec 32, 0 ||| x = x := fun x => BitVec.zero_or
  have hassert : (((0 : BitVec 32) ||| (areaFlags gOptionAPCS org 0 result).1) &&&
      ~~~(if isSet (0 ||| (areaFlags gOptionAPCS org 0 result).1) areaCode then areaIntCodeMask
        else areaIntDataMask) == 0) = true := by
    rw [hzero, beq_iff_eq]
    exact hwithin
  unfold defineArea
  rw [hsym]
  simp only [Bool.false_eq_true, if_false, Bool.not_false, Bool.true_or, assert, if_true, ne_eq,
    not_true_eq_false,
    Option.bind_eq_bind, Option.bind_some, hassert]
  exact ⟨_, rfl, hzero _, rfl⟩

theorem defineArea_old {sym : Symbol} (hsym : sym.isArea = true) (htype : sym.area.type ≠ 0)
    (diags : List Diag) :
    ∃ done changeDiags, defineArea gOptionAPCS org sym result diags = some done ∧
      done.sym.area.type = sym.area.type ∧
      done.diags = diags ++ (areaFlags gOptionAPCS org sym.area.type result).2 ++ changeDiags ∧
      (changeDiags = [] → ((areaFlags gOptionAPCS org sym.area.type result).1 ^^^ sym.area.type) &&&
        ~~~(areaAbs ||| area32BitAPCS ||| areaExtFPSet) = 0) := by
  have hassert : (sym.area.type != 0) = true := bne_iff_ne.mpr htype
  unfold defineArea
  rw [hsym]
  simp only [if_true, hassert, Bool.or_true, assert, ne_eq, htype, not_false_eq_true,
    Option.bind_eq_bind, Option.bind_some]
  refine ⟨_, _, rfl, rfl, rfl, fun h => ?_⟩
  by_contra hne
  rw [if_pos hne] at h
  cases h

/-! ### Agreement with the attributes -/

def Mentions (attrs : List Attribute) (id : Name) : Prop := ∃ attr ∈ attrs, attr.id = some id

/-- All ALIGN attributes have one value, and all BASED attributes one register. -/
def SameOperands (attrs : List Attribute) : Prop :=
  ∀ a ∈ attrs, ∀ b ∈ attrs, a.id = b.id →
    (a.id = some (cstr "ALIGN") → a.align = b.align) ∧ (a.id = some (cstr "BASED") → a.reg = b.reg)

def Contradictory (attrs : List Attribute) : Prop :=
  Mentions attrs (cstr "CODE") ∧ Mentions attrs (cstr "DATA") ∨ Mentions attrs (cstr "ABS") ∧
    Mentions attrs (cstr "REL") ∨
    Mentions attrs (cstr "READONLY") ∧ Mentions attrs (cstr "READWRITE")

/-- **An area type agrees with the attributes**: each is known, and its bits have its value, but for ABS and
REL; and COMDEF, COMMON and NOINIT are there as they are merged. -/
structure AgreesWith (attrs : List Attribute) (type : BitVec 32) : Prop where
  each : ∀ attr ∈ attrs, ∃ k v, attr.entry = some (k, v) ∧
    (k.flagSet ∉ [areaAbs, areaCommonDef, areaCommonRef, areaUData] → type &&& k.flagSet = v)
  comDef : isSet type areaCommonDef = true ↔ Mentions attrs (cstr "COMDEF") ∧ ¬Mentions attrs (cstr "NOINIT")
  comRef : isSet type areaCommonRef = true ↔ Mentions attrs (cstr "COMDEF") ∧ Mentions attrs (cstr "NOINIT") ∨
    ¬Mentions attrs (cstr "COMDEF") ∧ Mentions attrs (cstr "COMMON")
  noInit : isSet type areaUData = true ↔ Mentions attrs (cstr "NOINIT") ∧ ¬Mentions attrs (cstr "COMDEF")

variable {attrs : List Attribute}

theorem keyword_of_entry (h : attr.entry = some e) : attr.id = some e.1.keyword := by
  have hfind : findKeyword (attr.id.getD []) = some e.1 := by
    unfold Attribute.entry at h
    split at h
    · cases h
    · rename_i k hfind
      rw [hfind]
      split at h
      · cases h; rfl
      · split at h <;> cases h; rfl
      · split at h
        · split at h <;> cases h; rfl
        · cases h
  cases hid : attr.id with
  | none =>
    have hnil : findKeyword [] = none := by decide
    rw [hid, Option.getD_none, hnil] at hfind
    cases hfind
  | some id =>
    rw [hid] at hfind
    have hkey := List.find?_some hfind
    exact congrArg some (of_decide_eq_true hkey).symm

theorem entry_of_plain {k : AKeyword} (hid : attr.id = some k.keyword) (hk : findKeyword k.keyword = some k)
    (hplain : k.parser = none) : attr.entry = some (k, k.flagValue) := by
  unfold Attribute.entry
  rw [hid, Option.getD_some, hk]
  simp only [hplain]

theorem align_of_entry (h : attr.entry = some e) (hparser : e.1.parser = some .align) :
    attr.align = .int e.2 := by
  unfold Attribute.entry at h
  split at h
  · cases h
  · split at h
    · rename_i hnone
      cases h
      exact absurd (hparser.symm.trans hnone) nofun
    · rename_i hbased
      split at h
      · cases h
        exact absurd (hparser.symm.trans hbased) nofun
      · cases h
    · split at h
      · split at h
        · cases h
        · cases h
          assumption
      · cases h

theorem based_of_entry (h : attr.entry = some e) (hparser : e.1.parser = some .based) :
    ∃ reg, attr.reg = .ok reg ∧ e.2 = areaBased ||| reg.zeroExtend 32 <<< 24 := by
  unfold Attribute.entry at h
  split at h
  · cases h
  · split at h
    · rename_i hnone
      cases h
      exact absurd (hparser.symm.trans hnone) nofun
    · split at h
      · cases h
        exact ⟨_, ‹_›, rfl⟩
      · cases h
    · rename_i halign
      split at h
      · split at h
        · cases h
        · cases h
          exact absurd (hparser.symm.trans halign) nofun
      · cases h

private theorem oAttributes_parsers : ∀ k ∈ oAttributes,
    (k.parser = some .align → k.keyword = cstr "ALIGN") ∧
      (k.parser = some .based → k.keyword = cstr "BASED") := by
  decide

theorem value_eq_of_flagSet_eq (hcons : Consistent (attrs.filterMap Attribute.entry))
    (hsame : SameOperands attrs)
    (he : e ∈ attrs.filterMap Attribute.entry) (he' : e' ∈ attrs.filterMap Attribute.entry)
    (hc : e'.1.category = e.1.category) (hf : e'.1.flagSet = e.1.flagSet) : e'.2 = e.2 := by
  obtain ⟨a, ha, hae⟩ := List.mem_filterMap.mp he
  obtain ⟨b, hb, hbe⟩ := List.mem_filterMap.mp he'
  have hok := entryOk_of_entry hae
  have hok' := entryOk_of_entry hbe
  have hparser := hok'.parser_eq hok hc hf
  cases hp : e.1.parser with
  | none =>
    rw [hok.plain hp, hok'.plain (hparser.trans hp)]
    exact hcons e he e' he' hp hc hf
  | some parser =>
    have hkeyword := keyword_of_entry hae
    have hkeyword' := keyword_of_entry hbe
    cases parser with
    | align =>
      rw [(oAttributes_parsers _ hok.mem).1 hp] at hkeyword
      rw [(oAttributes_parsers _ hok'.mem).1 (hparser.trans hp)] at hkeyword'
      have halign := (hsame a ha b hb (hkeyword.trans hkeyword'.symm)).1 hkeyword
      rw [align_of_entry hae hp, align_of_entry hbe (hparser.trans hp)] at halign
      exact (AlignText.int.inj halign).symm
    | based =>
      rw [(oAttributes_parsers _ hok.mem).2 hp] at hkeyword
      rw [(oAttributes_parsers _ hok'.mem).2 (hparser.trans hp)] at hkeyword'
      have hregs := (hsame a ha b hb (hkeyword.trans hkeyword'.symm)).2 hkeyword
      obtain ⟨reg, hreg, hvalue⟩ := based_of_entry hae hp
      obtain ⟨reg', hreg', hvalue'⟩ := based_of_entry hbe (hparser.trans hp)
      rw [hreg, hreg'] at hregs
      rw [hvalue, hvalue', Except.ok.inj hregs]

theorem getLsbD_gather_iff {k : AKeyword} (hk : findKeyword k.keyword = some k) (hplain : k.parser = none)
    (hi : k.flagValue.getLsbD i = true) (hone : ∀ k' ∈ oAttributes, k'.flagSet.getLsbD i = true →
      k'.parser = none ∧ (k'.flagValue.getLsbD i = true → k'.keyword = k.keyword)) :
    ((gather (attrs.filterMap Attribute.entry)).flagValues k.category).getLsbD i = true ↔
      Mentions attrs k.keyword := by
  rw [(getLsbD_gather _ _ i).1]
  constructor
  · rintro ⟨e, he, -, hbit⟩
    obtain ⟨a, ha, hae⟩ := List.mem_filterMap.mp he
    have hok := entryOk_of_entry hae
    obtain ⟨hnone, hkeyword⟩ := hone _ hok.mem (hok.getLsbD hbit)
    rw [hok.plain hnone] at hbit
    exact ⟨a, ha, hkeyword hbit ▸ keyword_of_entry hae⟩
  · rintro ⟨a, ha, hid⟩
    exact ⟨_, List.mem_filterMap.mpr ⟨a, ha, entry_of_plain hid hk hplain⟩, rfl, hi⟩

private theorem oAttributes_ignored : ∀ k ∈ oAttributes,
    k.flagSet = areaAbs ∨ (areaAbs ||| area32BitAPCS ||| areaExtFPSet) &&& k.flagSet = 0 := by
  decide

/-- **The attributes agree with a type** that has the flags, but for what a re-definition ignores. -/
theorem agreesWith_of_flags {type : BitVec 32} (hfine : Fine [] attrs) (hsame : SameOperands attrs)
    (hdiags : (areaFlags gOptionAPCS org prev (gather (attrs.filterMap Attribute.entry))).2 = [])
    (htype : ∀ j < 32, (areaAbs ||| area32BitAPCS ||| areaExtFPSet).getLsbD j = false → type.getLsbD j =
      (areaFlags gOptionAPCS org prev (gather (attrs.filterMap Attribute.entry))).1.getLsbD j) :
    AgreesWith attrs type := by
  obtain ⟨hentries, hcons⟩ := hfine
  rw [List.nil_append] at hcons
  have hok : ∀ e ∈ attrs.filterMap Attribute.entry, EntryOk e := by
    intro e he
    obtain ⟨a, -, hae⟩ := List.mem_filterMap.mp he
    exact entryOk_of_entry hae
  have hsound : (gather (attrs.filterMap Attribute.entry)).Sound := by
    intro c
    refine BitVec.eq_of_getLsbD_eq fun j _ => ?_
    rw [BitVec.getLsbD_or]
    cases hbit : ((gather (attrs.filterMap Attribute.entry)).flagValues c).getLsbD j with
    | false => rfl
    | true =>
      obtain ⟨e, he, rfl, hv⟩ := (getLsbD_gather _ c j).1.mp hbit
      rw [← (oAttributes_mask _ (hok e he).mem).1, BitVec.getLsbD_or, (hok e he).getLsbD hv]
      rfl
  -- the bits 10 to 12, as they are merged
  have hmentions : ∀ j, 10 ≤ j → j < 13 → (flagsToMerge org prev
      (gather (attrs.filterMap Attribute.entry))).getLsbD j =
        ((gather (attrs.filterMap Attribute.entry)).flagValues .bothCodeAndData).getLsbD j := by
    intro j hlow hhigh
    rw [getLsbD_flagsToMerge hsound (by omega) hhigh, decide_eq_false (by omega), Bool.false_and,
      Bool.or_false]
  have hdef : _ ↔ Mentions attrs (cstr "COMDEF") :=
    @getLsbD_gather_iff 10 attrs ⟨cstr "COMDEF", .bothCodeAndData, areaCommonDef, areaCommonDef,
      none⟩ (by decide) rfl
      (by decide) (by decide)
  have href : _ ↔ Mentions attrs (cstr "COMMON") :=
    @getLsbD_gather_iff 11 attrs ⟨cstr "COMMON", .bothCodeAndData, areaCommonRef, areaCommonRef,
      none⟩ (by decide) rfl
      (by decide) (by decide)
  have hudata : _ ↔ Mentions attrs (cstr "NOINIT") :=
    @getLsbD_gather_iff 12 attrs ⟨cstr "NOINIT", .bothCodeAndData, areaUData, areaUData, none⟩ (by decide) rfl
      (by decide) (by decide)
  obtain ⟨h10, h11, h12⟩ :=
    getLsbD_mergeCommon (flagsToMerge org prev (gather (attrs.filterMap Attribute.entry)))
  rw [hmentions 10 (by decide) (by decide), hmentions 12 (by decide) (by decide)] at h10 h12
  rw [hmentions 10 (by decide) (by decide), hmentions 11 (by decide) (by decide),
    hmentions 12 (by decide) (by decide)] at h11
  have hbits : ∀ j : Fin 32, 8 ≤ j.val → j.val < 13 → j.val ≠ 8 → isSet type (BitVec.twoPow 32 j) =
      (mergeCommon (flagsToMerge org prev (gather (attrs.filterMap Attribute.entry)))).getLsbD j := by
    intro j hlow hhigh hne
    have hclear : ∀ i < 13, i ≠ 8 → (areaAbs ||| area32BitAPCS ||| areaExtFPSet).getLsbD i = false := by
      decide
    rw [isSet_eq_getLsbD, htype j j.isLt (hclear j hhigh hne), getLsbD_areaFlags hlow hhigh]
  refine ⟨fun attr hattr => ?_, ?_, ?_, ?_⟩
  · obtain ⟨e, he⟩ := Option.ne_none_iff_exists'.mp (hentries attr hattr)
    refine ⟨e.1, e.2, he, fun hkept => ?_⟩
    have hmem : e ∈ attrs.filterMap Attribute.entry := List.mem_filterMap.mpr ⟨attr, hattr, he⟩
    have hflags := areaFlags_and hok hmem
      (fun e' he' hc hf => value_eq_of_flagSet_eq hcons hsame hmem he' hc hf) hkept hdiags
    rw [← hflags]
    refine BitVec.eq_of_getLsbD_eq fun j hj => ?_
    rw [BitVec.getLsbD_and, BitVec.getLsbD_and]
    cases hf : e.1.flagSet.getLsbD j with
    | false => rw [Bool.and_false, Bool.and_false]
    | true =>
      have hbit : (areaAbs ||| area32BitAPCS ||| areaExtFPSet).getLsbD j = false := by
        have hzero :=
          (oAttributes_ignored _ (hok e hmem).mem).resolve_left fun h => hkept (h ▸ List.mem_cons_self)
        have hand := congrArg (BitVec.getLsbD · j) hzero
        simp only [BitVec.getLsbD_and, hf, Bool.and_true] at hand
        exact hand.trans BitVec.getLsbD_zero
      rw [htype j hj hbit]
  · rw [show areaCommonDef = BitVec.twoPow 32 (10 : Fin 32) by decide,
    hbits 10 (by decide) (by decide) (by decide)]
    change (mergeCommon _).getLsbD 10 = true ↔ _
    rw [h10, Bool.and_eq_true, Bool.not_eq_true', ← Bool.not_eq_true, hdef, hudata]
  · rw [show areaCommonRef = BitVec.twoPow 32 (11 : Fin 32) by decide,
    hbits 11 (by decide) (by decide) (by decide)]
    change (mergeCommon _).getLsbD 11 = true ↔ _
    rw [h11, Bool.or_eq_true, Bool.and_eq_true, Bool.and_eq_true, Bool.not_eq_true', ← Bool.not_eq_true, hdef,
      hudata,
      href]
  · rw [show areaUData = BitVec.twoPow 32 (12 : Fin 32) by decide,
    hbits 12 (by decide) (by decide) (by decide)]
    change (mergeCommon _).getLsbD 12 = true ↔ _
    rw [h12, Bool.and_eq_true, Bool.not_eq_true', ← Bool.not_eq_true, hdef, hudata]

/-! ### The directive -/

theorem getAreaAttributes_eq (attrs : List Attribute) :
    Fine [] attrs ∧ getAreaAttributes attrs = (gather (attrs.filterMap Attribute.entry), []) ∨
      ¬Fine [] attrs ∧ (getAreaAttributes attrs).2 ≠ [] := by
  have hnil : ∀ e ∈ ([] : List Entry), EntryOk e := fun _ h => absurd h List.not_mem_nil
  have hcons : Consistent [] := fun _ h => absurd h List.not_mem_nil
  exact readAttributes_gather hnil hcons attrs

theorem Fine.perm {attrs' : List Attribute} (h : Fine [] attrs) (hperm : attrs.Perm attrs') :
    Fine [] attrs' := by
  obtain ⟨hentries, hcons⟩ := h
  refine ⟨fun attr hattr => hentries attr (hperm.mem_iff.mpr hattr), ?_⟩
  rw [List.nil_append] at hcons ⊢
  exact hcons.mono (hperm.symm.filterMap _).subset

theorem not_fine_of_excluding {k k' : AKeyword} (hk : findKeyword k.keyword = some k)
    (hk' : findKeyword k'.keyword = some k') (hplain : k.parser = none) (hplain' : k'.parser = none)
    (hc : k'.category = k.category) (hf : k'.flagSet = k.flagSet) (hne : k'.flagValue ≠ k.flagValue)
    (h : Mentions attrs k.keyword) (h' : Mentions attrs k'.keyword) : ¬Fine [] attrs := by
  rintro ⟨-, hcons⟩
  obtain ⟨a, ha, hid⟩ := h
  obtain ⟨b, hb, hid'⟩ := h'
  have hmem := List.mem_filterMap.mpr ⟨a, ha, entry_of_plain hid hk hplain⟩
  have hmem' := List.mem_filterMap.mpr ⟨b, hb, entry_of_plain hid' hk' hplain'⟩
  exact hne (hcons _ hmem _ hmem' hplain hc hf)

theorem not_fine_of_contradictory (h : Contradictory attrs) : ¬Fine [] attrs := by
  obtain ⟨h, h'⟩ | ⟨h, h'⟩ | ⟨h, h'⟩ := h
  · exact @not_fine_of_excluding attrs ⟨cstr "CODE", .bothCodeAndData, areaCode, areaCode, none⟩
      ⟨cstr "DATA", .bothCodeAndData, 0, areaCode,
        none⟩ (by decide) (by decide) rfl rfl rfl rfl (by decide) h h'
  · exact @not_fine_of_excluding attrs ⟨cstr "ABS", .bothCodeAndData, areaAbs, areaAbs, none⟩
      ⟨cstr "REL", .bothCodeAndData, 0, areaAbs,
        none⟩ (by decide) (by decide) rfl rfl rfl rfl (by decide) h h'
  · exact @not_fine_of_excluding attrs ⟨cstr "READONLY", .bothCodeAndData, areaReadOnly, areaReadOnly, none⟩
      ⟨cstr "READWRITE", .bothCodeAndData, 0, areaReadOnly,
        none⟩ (by decide) (by decide) rfl rfl rfl rfl (by decide)
      h h'

theorem exists_defineArea {sym : Symbol} (hsym : sym.isArea = true → sym.area.type ≠ 0) (h : result.Sound)
    (diags : List Diag) : ∃ done behind prev, defineArea gOptionAPCS org sym result diags = some done ∧
      done.diags = diags ++ behind ∧
      (behind = [] → (areaFlags gOptionAPCS org prev result).2 = [] ∧
        ∀ j < 32, sym.isArea = false ∨ (areaAbs ||| area32BitAPCS ||| areaExtFPSet).getLsbD j = false →
          done.sym.area.type.getLsbD j = (areaFlags gOptionAPCS org prev result).1.getLsbD j) := by
  cases harea : sym.isArea with
  | false =>
    obtain ⟨done, hdone, htype, hdiags⟩ := @defineArea_new result org gOptionAPCS sym harea h diags
    exact ⟨done, _, 0, hdone, hdiags, fun hnil => ⟨hnil, fun j _ _ => by rw [htype]⟩⟩
  | true =>
    obtain ⟨done, changeDiags, hdone, htype, hdiags, hchange⟩ :=
      @defineArea_old result org gOptionAPCS sym harea (hsym harea) diags
    refine ⟨done, _, sym.area.type, hdone, hdiags.trans (List.append_assoc _ _ _), fun hnil => ?_⟩
    obtain ⟨hflags, hnone⟩ := List.append_eq_nil_iff.mp hnil
    refine ⟨hflags, fun j hj hclear => ?_⟩
    have hbit := congrArg (BitVec.getLsbD · j) (hchange hnone)
    simp only [getLsbD_andNot _ _ hj, hclear.resolve_left Bool.noConfusion, BitVec.getLsbD_xor,
      Bool.not_false,
      Bool.and_true] at hbit
    rw [htype]
    exact (bne_eq_false_iff_eq.mp (hbit.trans BitVec.getLsbD_zero)).symm

def Attribute.plain (id : String) : Attribute := ⟨some (cstr id), .malformed, .error .noIdentifier⟩

end Asasm
