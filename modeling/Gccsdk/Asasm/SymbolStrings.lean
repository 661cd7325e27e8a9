import Gccsdk.Asasm.SymbolOut
import Gccsdk.Lib.StringTable

/-!
# The names of the symbols in the string table

`Symbol_CreateSymbolOut` assigns the offsets of the names in one walk over the symbols (`assignOffsets`), and
`Symbol_BuildStringData` writes the names in another one (`stringDataLoop`). The walks are run side by side:
`InStep` is what holds between two rounds. The name of a mapping symbol is cut to what all of its kind have in
common, and is written once; ELF area symbols have the empty name.

* `assignOffset_spec`: the four things a round of the first walk can do.
* `InStep.round`: the second walk follows the first one.
* `symbolBuildStringData_spec`: the walks agree as long as the size fits its 32 bits, every name is at its
  offset, and the table has the declared size.
-/

namespace Asasm

open StringTable (IsNameAt)

/-! ### Names -/

def AreaEntryType.mapName : AreaEntryType → Name
  | .invalid => []
  | .arm => [0x24, 0x61]
  | .data => [0x24, 0x64]
  | .thumb => [0x24, 0x74]
  | .thumbEE => [0x24, 0x74, 0x2E, 0x78]

/-- **The name of a symbol in the file.** -/
def Symbol.writtenName (sym : Symbol) : Name :=
  match areaIsMappingSymbol sym.str with
  | .invalid => sym.str
  | type => type.mapName

def Symbol.isSection (optionAof : Bool) (sym : Symbol) : Bool := sym.isArea && !optionAof

def Symbol.tableName (optionAof : Bool) (sym : Symbol) : Name :=
  if sym.isSection optionAof then [] else sym.writtenName

variable {sym : Symbol}

theorem Symbol.writtenName_of_invalid (h : areaIsMappingSymbol sym.str = .invalid) :
    sym.writtenName = sym.str := by
  unfold Symbol.writtenName
  rw [h]

theorem Symbol.writtenName_of_mapping (h : areaIsMappingSymbol sym.str ≠ .invalid) :
    sym.writtenName = (areaIsMappingSymbol sym.str).mapName := by
  unfold Symbol.writtenName
  split
  · next heq => exact absurd heq h
  · rfl

private theorem mapName_eq {str : Name} (h : areaIsMappingSymbol str ≠ .invalid) :
    [0x24, str.getD 1 0] ++ (if areaIsMappingSymbol str = .thumbEE then [0x2E, 0x78] else []) =
      (areaIsMappingSymbol str).mapName := by
  unfold areaIsMappingSymbol at h ⊢
  split at h <;> first | rfl | exact absurd rfl h

private theorem length_mapName {type : AreaEntryType} (h : type ≠ .invalid) :
    type.mapLen = type.mapName.length + 1 := by
  cases type with
  | invalid => exact absurd rfl h
  | arm => rfl
  | data => rfl
  | thumb => rfl
  | thumbEE => rfl

private theorem zero_notMem_mapName (type : AreaEntryType) : 0 ∉ type.mapName := by
  cases type <;> decide

theorem Symbol.zero_notMem_writtenName (h : 0 ∉ sym.str) : 0 ∉ sym.writtenName := by
  by_cases hmap : areaIsMappingSymbol sym.str = .invalid
  · rw [Symbol.writtenName_of_invalid hmap]
    exact h
  · rw [Symbol.writtenName_of_mapping hmap]
    exact zero_notMem_mapName _

/-! ### A round of the first walk -/

variable {optionAof : Bool} {s s' : OffsetState} {symIdx : ℕ} {id : SymId}

/-- What a round of the first walk does with a symbol. -/
inductive Assigned (optionAof : Bool) (s : OffsetState) (symIdx : ℕ) (id : SymId) : OffsetState → Prop
  | unnamed (hmap : areaIsMappingSymbol (s.table.sym id).str = .invalid)
    (hsection : (s.table.sym id).isSection optionAof = true) :
    Assigned optionAof s symIdx id { s with
      table := s.table.modify id (Symbol.setOutput 0 ((s.table.sym id).outputIndex optionAof symIdx)) }
  | own (hmap : areaIsMappingSymbol (s.table.sym id).str = .invalid)
    (hsection : (s.table.sym id).isSection optionAof = false) :
    Assigned optionAof s symIdx id { s with
      strDataSize := s.strDataSize + (s.table.sym id).len + 1
      table := s.table.modify id
        (Symbol.setOutput s.strDataSize ((s.table.sym id).outputIndex optionAof symIdx)) }
  | first (type : AreaEntryType) (hmap : areaIsMappingSymbol (s.table.sym id).str = type) (htype : type ≠ .invalid)
    (harea : (s.table.sym id).isArea = false) (hnone : s.mapSymbols type = none) :
    Assigned optionAof s symIdx id {
      strDataSize := s.strDataSize + type.mapLen
      mapSymbols := fun t => if t = type then some s.strDataSize else s.mapSymbols t
      table := s.table.modify id
        (Symbol.setOutput s.strDataSize ((s.table.sym id).outputIndex optionAof symIdx)) }
  | shared (type : AreaEntryType) (offset : ℕ) (hmap : areaIsMappingSymbol (s.table.sym id).str = type)
    (htype : type ≠ .invalid) (harea : (s.table.sym id).isArea = false) (hsome : s.mapSymbols type = some offset) :
    Assigned optionAof s symIdx id { s with
      table := s.table.modify id (Symbol.setOutput offset ((s.table.sym id).outputIndex optionAof symIdx)) }

/-- **A round of the first walk.** -/
theorem assignOffset_spec (h : assignOffset optionAof s symIdx id = some s') : Assigned optionAof s symIdx id s' := by
  unfold assignOffset at h
  dsimp only at h
  split at h
  case h_1 hmap =>
    split at h
    case isTrue hsection =>
      obtain rfl := Option.some.inj h
      exact .unnamed hmap hsection
    case isFalse hsection =>
      obtain rfl := Option.some.inj h
      exact .own hmap (Bool.eq_false_iff.mpr hsection)
  case h_2 htype =>
    simp only [Option.bind_eq_bind, Option.bind_eq_some_iff, assert_eq_some, Bool.not_eq_true'] at h
    obtain ⟨_, harea, h⟩ := h
    split at h
    case h_1 hnone =>
      obtain rfl := Option.some.inj h
      exact .first _ rfl htype harea hnone
    case h_2 offset hsome =>
      obtain rfl := Option.some.inj h
      exact .shared _ offset rfl htype harea hsome

theorem Assigned.table (h : Assigned optionAof s symIdx id s') : s'.table = s.table.modify id fun sym =>
    { sym with offset := (s'.table.sym id).offset, used := (s.table.sym id).outputIndex optionAof symIdx } := by
  cases h <;> · dsimp only; rw [SymbolTable.modify_sym_self]; rfl

theorem Assigned.strDataSize_le (h : Assigned optionAof s symIdx id s') : s.strDataSize ≤ s'.strDataSize := by
  cases h with
  | unnamed => exact le_refl _
  | own =>
    dsimp only
    omega
  | first => exact Nat.le_add_right _ _
  | shared => exact le_refl _

theorem Assigned.map_of_area (h : Assigned optionAof s symIdx id s') (harea : (s.table.sym id).isArea = true) :
    areaIsMappingSymbol (s.table.sym id).str = .invalid := by
  cases h with
  | unnamed hmap => exact hmap
  | own hmap => exact hmap
  | first type hmap htype hnot =>
    rw [harea] at hnot
    cases hnot
  | shared type offset hmap htype hnot =>
    rw [harea] at hnot
    cases hnot

/-! ### Both walks, one round -/

/-- **Between two rounds**, with the string data written so far: it is as long as the offsets count, and has
the shared names at their offsets. The names begin at `lo`. -/
structure InStep (optionAof : Bool) (lo : ℕ) (s : OffsetState) (data : List UInt8) : Prop where
  length : data.length = s.strDataSize
  lo_le : lo ≤ data.length
  maps : ∀ type off, s.mapSymbols type = some off → lo ≤ off ∧ IsNameAt data off type.mapName
  empty : optionAof = false → IsNameAt data 0 []

private theorem isNameAt_append (data name : List UInt8) : IsNameAt (data ++ (name ++ [0])) data.length name :=
  ⟨data, [], rfl, rfl⟩

private theorem maps_append {maps : MapSymbols} {data bytes : List UInt8} {lo : ℕ}
    (hmaps : ∀ type off, maps type = some off → lo ≤ off ∧ IsNameAt data off type.mapName) :
    ∀ type off, maps type = some off → lo ≤ off ∧ IsNameAt (data ++ bytes) off type.mapName :=
  fun type off h => ⟨(hmaps type off h).1, (hmaps type off h).2.append bytes⟩

private theorem stringDataOf_mapping (sym : Symbol) (h : areaIsMappingSymbol sym.str ≠ .invalid) (at' : ℕ) :
    stringDataOf optionAof at' sym = (do
      assert (sym.offset.toNat ≤ at')
      if sym.offset.toNat = at' then pure ((areaIsMappingSymbol sym.str).mapName ++ [0]) else pure []) := by
  rw [← mapName_eq h]
  unfold stringDataOf
  split
  · next heq => exact absurd heq h
  · rfl

structure NamePlaced (optionAof : Bool) (lo : ℕ) (sym : Symbol) (offset : BitVec 32) (data : List UInt8) : Prop where
  lo_le : sym.isSection optionAof = false → lo ≤ offset.toNat
  /-- The symbols of sections have the empty name at the beginning. -/
  of_section : sym.isSection optionAof = true → offset = 0
  name : IsNameAt data offset.toNat (sym.tableName optionAof)

theorem NamePlaced.append {lo : ℕ} {offset : BitVec 32} {data : List UInt8}
    (h : NamePlaced optionAof lo sym offset data) (ext : List UInt8) :
    NamePlaced optionAof lo sym offset (data ++ ext) := ⟨h.lo_le, h.of_section, h.name.append ext⟩

theorem Symbol.tableName_of_section (h : sym.isSection optionAof = true) :
    sym.tableName optionAof = [] := if_pos h

theorem Symbol.tableName_of_not_section (h : sym.isSection optionAof = false) :
    sym.tableName optionAof = sym.writtenName := if_neg (Bool.eq_false_iff.mp h)

theorem Symbol.isSection_of_not_area (h : sym.isArea = false) : sym.isSection optionAof = false := by
  unfold Symbol.isSection
  rw [h, Bool.false_and]

theorem Symbol.isSection_true (sym : Symbol) : sym.isSection true = false := Bool.and_false _

private theorem stringDataOf_section (hmap : areaIsMappingSymbol sym.str = .invalid)
    (hsection : sym.isSection optionAof = true) (at' : ℕ) (used : ℤ) :
    stringDataOf optionAof at' (sym.setOutput 0 used) = some [] := by
  unfold stringDataOf
  rw [show areaIsMappingSymbol (sym.setOutput 0 used).str = .invalid from hmap]
  change (if sym.isSection optionAof = true then _ else _) = _
  rw [if_pos hsection]
  rfl

private theorem stringDataOf_own (hmap : areaIsMappingSymbol sym.str = .invalid)
    (hsection : sym.isSection optionAof = false) {at' : ℕ} (hlt : at' < 2 ^ 32) (used : ℤ) :
    stringDataOf optionAof at' (sym.setOutput at' used) = some (sym.str ++ [0]) := by
  have hat : (BitVec.ofNat 32 at').toNat = at' := by rw [BitVec.toNat_ofNat, Nat.mod_eq_of_lt hlt]
  unfold stringDataOf
  rw [show areaIsMappingSymbol (sym.setOutput at' used).str = .invalid from hmap]
  change (if sym.isSection optionAof = true then _ else
    assert ((BitVec.ofNat 32 at').toNat == at') >>= fun _ => some (sym.str ++ [0])) = _
  rw [hsection, if_neg Bool.false_ne_true, hat, beq_self_eq_true]
  rfl

/-- **A round of the second walk** finds the offset of the first one where it stands, or the shared name it
leads to. -/
theorem InStep.round {lo : ℕ} {data : List UInt8} (hstep : InStep optionAof lo s data)
    (h : Assigned optionAof s symIdx id s') (hlt : data.length < 2 ^ 32) :
    ∃ bytes, stringDataOf optionAof data.length (s'.table.sym id) = some bytes ∧
      InStep optionAof lo s' (data ++ bytes) ∧
      NamePlaced optionAof lo (s.table.sym id) (s'.table.sym id).offset (data ++ bytes) := by
  have hlo := hstep.lo_le
  have hsize : (BitVec.ofNat 32 data.length).toNat = data.length := by
    rw [BitVec.toNat_ofNat, Nat.mod_eq_of_lt hlt]
  cases h with
  | unnamed hmap hsection =>
    dsimp only
    rw [SymbolTable.modify_sym_self]
    refine ⟨[], stringDataOf_section hmap hsection _ _, ?_, ?_⟩
    · rw [List.append_nil]
      exact ⟨hstep.length, hlo, hstep.maps, hstep.empty⟩
    · have helf : optionAof = false := by
        unfold Symbol.isSection at hsection
        rw [Bool.and_eq_true, Bool.not_eq_true'] at hsection
        exact hsection.2
      refine ⟨fun hnot => absurd (hsection.symm.trans hnot) nofun, fun _ => rfl, ?_⟩
      rw [List.append_nil, Symbol.tableName_of_section hsection]
      exact hstep.empty helf
  | own hmap hsection =>
    dsimp only
    rw [SymbolTable.modify_sym_self, ← hstep.length]
    refine ⟨_, stringDataOf_own hmap hsection hlt _, ⟨?_, ?_, maps_append hstep.maps, fun helf =>
      (hstep.empty helf).append _⟩, ⟨fun _ => ?_, fun hnot => absurd (hsection.symm.trans hnot) nofun, ?_⟩⟩
    · rw [List.length_append, List.length_append]
      exact (Nat.add_assoc _ _ _).symm
    · rw [List.length_append]
      omega
    · change lo ≤ (BitVec.ofNat 32 data.length).toNat
      rw [hsize]
      exact hlo
    · change IsNameAt _ (BitVec.ofNat 32 data.length).toNat _
      rw [hsize, Symbol.tableName_of_not_section hsection, Symbol.writtenName_of_invalid hmap]
      exact isNameAt_append _ _
  | first type hmap htype harea hnone =>
    subst hmap
    have hsection : (s.table.sym id).isSection optionAof = false := Symbol.isSection_of_not_area harea
    dsimp only
    rw [SymbolTable.modify_sym_self, ← hstep.length,
      stringDataOf_mapping (Symbol.setOutput _ _ (s.table.sym id)) htype]
    refine ⟨(areaIsMappingSymbol (s.table.sym id).str).mapName ++ [0], ?_, ⟨?_, ?_, ?_, fun helf =>
      (hstep.empty helf).append _⟩, ⟨fun _ => ?_, fun hnot => absurd (hsection.symm.trans hnot) nofun, ?_⟩⟩
    · change (assert ((BitVec.ofNat 32 data.length).toNat ≤ data.length) >>= fun _ =>
        if (BitVec.ofNat 32 data.length).toNat = data.length then some _ else _) = _
      rw [hsize, if_pos rfl, decide_eq_true (le_refl _)]
      rfl
    · rw [List.length_append, List.length_append, length_mapName htype]
      rfl
    · rw [List.length_append]
      omega
    · intro type off hoff
      dsimp only at hoff
      split at hoff
      · next heq =>
        obtain rfl := Option.some.inj hoff
        rw [heq]
        exact ⟨hlo, isNameAt_append _ _⟩
      · exact maps_append hstep.maps type off hoff
    · change lo ≤ (BitVec.ofNat 32 data.length).toNat
      rw [hsize]
      exact hlo
    · change IsNameAt _ (BitVec.ofNat 32 data.length).toNat _
      rw [hsize, Symbol.tableName_of_not_section hsection,
        Symbol.writtenName_of_mapping htype]
      exact isNameAt_append _ _
  | shared type off hmap htype harea hsome =>
    subst hmap
    have hsection : (s.table.sym id).isSection optionAof = false := Symbol.isSection_of_not_area harea
    obtain ⟨hoffLo, hname⟩ := hstep.maps _ off hsome
    -- the shared name is in the table, so its offset is below the end
    have hoffLt : off < data.length := by
      obtain ⟨pre, post, hdata, hpre⟩ := hname
      rw [hdata, List.length_append, List.length_append, List.length_cons]
      omega
    have hoff : (BitVec.ofNat 32 off).toNat = off := by
      rw [BitVec.toNat_ofNat, Nat.mod_eq_of_lt (hoffLt.trans hlt)]
    dsimp only
    rw [SymbolTable.modify_sym_self, stringDataOf_mapping (Symbol.setOutput _ _ (s.table.sym id)) htype]
    refine ⟨[], ?_, ?_, ⟨fun _ => ?_, fun hnot => absurd (hsection.symm.trans hnot) nofun, ?_⟩⟩
    · change (assert ((BitVec.ofNat 32 off).toNat ≤ data.length) >>= fun _ =>
        if (BitVec.ofNat 32 off).toNat = data.length then _ else some []) = _
      rw [hoff, if_neg (Nat.ne_of_lt hoffLt), decide_eq_true hoffLt.le]
      rfl
    · rw [List.append_nil]
      exact ⟨hstep.length, hlo, hstep.maps, hstep.empty⟩
    · change lo ≤ (BitVec.ofNat 32 off).toNat
      rw [hoff]
      exact hoffLo
    · change IsNameAt _ (BitVec.ofNat 32 off).toNat _
      rw [List.append_nil, hoff, Symbol.tableName_of_not_section hsection,
        Symbol.writtenName_of_mapping htype]
      exact hname

/-! ### Both walks -/

variable {ids : List SymId}

theorem assignOffsets_cons (h : assignOffsets optionAof s symIdx (id :: ids) = some s') :
    ∃ s₁, Assigned optionAof s symIdx id s₁ ∧ assignOffsets optionAof s₁ (symIdx + 1) ids = some s' := by
  simp only [assignOffsets, Option.bind_eq_bind, Option.bind_eq_some_iff] at h
  obtain ⟨s₁, h₁, h⟩ := h
  exact ⟨s₁, assignOffset_spec h₁, h⟩

theorem assignOffsets_of_not_mem {j : SymId}
    (h : assignOffsets optionAof s symIdx ids = some s') (hj : j ∉ ids) : s'.table.sym j = s.table.sym j := by
  induction ids generalizing s symIdx with
  | nil =>
    obtain rfl := Option.some.inj h
    rfl
  | cons id ids ih =>
    obtain ⟨hne, hids⟩ := not_or.mp (mt List.mem_cons.mpr hj)
    obtain ⟨s₁, h₁, h⟩ := assignOffsets_cons h
    rw [ih h hids, h₁.table, SymbolTable.modify_sym_of_ne _ _ _ hne]

theorem assignOffsets_area (hids : ids.Nodup) (h : assignOffsets optionAof s symIdx ids = some s') :
    ∀ id ∈ ids, (s.table.sym id).isArea = true → areaIsMappingSymbol (s.table.sym id).str = .invalid := by
  induction ids generalizing s symIdx with
  | nil => exact fun id hid => nomatch hid
  | cons id ids ih =>
    obtain ⟨hid, hids⟩ := List.nodup_cons.mp hids
    obtain ⟨s₁, h₁, h⟩ := assignOffsets_cons h
    intro j hj harea
    rcases List.mem_cons.mp hj with rfl | hj
    · exact h₁.map_of_area harea
    · have hne : j ≠ id := fun heq => hid (heq ▸ hj)
      have hsym : s₁.table.sym j = s.table.sym j := by
        rw [h₁.table, SymbolTable.modify_sym_of_ne _ _ _ hne]
      rw [← hsym] at harea ⊢
      exact ih hids h j hj harea

theorem assignOffsets_strDataSize_le (h : assignOffsets optionAof s symIdx ids = some s') :
    s.strDataSize ≤ s'.strDataSize := by
  induction ids generalizing s symIdx with
  | nil =>
    obtain rfl := Option.some.inj h
    exact le_refl _
  | cons id ids ih =>
    obtain ⟨s₁, h₁, h⟩ := assignOffsets_cons h
    exact h₁.strDataSize_le.trans (ih h)

theorem stringDataLoop_cons {heap : SymHeap} {data bytes : List UInt8}
    (h : stringDataOf optionAof data.length (heap.sym id) = some bytes) :
    stringDataLoop optionAof heap data (id :: ids) = stringDataLoop optionAof heap (data ++ bytes) ids := by
  change (stringDataOf optionAof data.length (heap.sym id)).bind _ = _
  rw [h]
  rfl

theorem stringDataLoop_prefix {heap : SymHeap} {data data' : List UInt8}
    (h : stringDataLoop optionAof heap data ids = some data') : ∃ ext, data' = data ++ ext := by
  induction ids generalizing data with
  | nil =>
    obtain rfl := Option.some.inj h
    exact ⟨[], (List.append_nil _).symm⟩
  | cons id ids ih =>
    simp only [stringDataLoop, Option.bind_eq_bind, Option.bind_eq_some_iff] at h
    obtain ⟨bytes, -, h⟩ := h
    obtain ⟨ext, hext⟩ := ih h
    exact ⟨bytes ++ ext, by rw [hext, List.append_assoc]⟩

variable {lo : ℕ} {data : List UInt8}

/-- **The walks agree** while the size fits 32 bits: every symbol has an index, and its name stands at its
offset. -/
theorem assignOffsets_strings (hids : ids.Nodup)
    (hassign : assignOffsets optionAof s symIdx ids = some s') (hstep : InStep optionAof lo s data)
    (hlt : s'.strDataSize < 2 ^ 32) :
    ∃ data', stringDataLoop optionAof s'.table.heap data ids = some data' ∧ data'.length = s'.strDataSize ∧
      ∀ i id, ids[i]? = some id →
        NamePlaced optionAof lo (s.table.sym id) (s'.table.sym id).offset data' ∧
        (s'.table.sym id).used = (s.table.sym id).outputIndex optionAof (symIdx + i) := by
  induction ids generalizing s symIdx data with
  | nil =>
    obtain rfl := Option.some.inj hassign
    exact ⟨data, rfl, hstep.length, fun i id h => nomatch h⟩
  | cons id ids ih =>
    obtain ⟨hid, hids⟩ := List.nodup_cons.mp hids
    obtain ⟨s₁, h₁, hassign⟩ := assignOffsets_cons hassign
    have hdata : data.length < 2 ^ 32 := by
      rw [hstep.length]
      exact Nat.lt_of_le_of_lt (h₁.strDataSize_le.trans (assignOffsets_strDataSize_le hassign)) hlt
    -- the symbol is not changed later
    have hlater := assignOffsets_of_not_mem hassign hid
    obtain ⟨bytes, hbytes, hstep₁, hplaced⟩ := hstep.round h₁ hdata
    rw [← hlater] at hbytes hplaced
    obtain ⟨data', hloop, hlength, hrest⟩ := ih hids hassign hstep₁
    obtain ⟨ext, hext⟩ := stringDataLoop_prefix hloop
    refine ⟨data', (stringDataLoop_cons hbytes).trans hloop, hlength, fun i j hj => ?_⟩
    cases i with
    | zero =>
      cases hj
      refine ⟨hext ▸ hplaced.append ext, ?_⟩
      rw [hlater, h₁.table, SymbolTable.modify_sym_self]
      rfl
    | succ i =>
      rw [List.getElem?_cons_succ] at hj
      have hne : j ≠ id := fun heq => hid (heq ▸ List.mem_of_getElem? hj)
      have hsym : s₁.table.sym j = s.table.sym j := by
        rw [h₁.table, SymbolTable.modify_sym_of_ne _ _ _ hne]
      have hj' := hrest i j hj
      rw [hsym] at hj'
      rw [← Nat.add_assoc, Nat.add_right_comm]
      exact hj'

theorem stringDataLoop_overflow (hids : ids.Nodup)
    (hassign : assignOffsets optionAof s symIdx ids = some s') (hstep : InStep optionAof lo s data)
    (hge : 2 ^ 32 ≤ s'.strDataSize) {data' : List UInt8}
    (hloop : stringDataLoop optionAof s'.table.heap data ids = some data') : 2 ^ 32 ≤ data'.length := by
  induction ids generalizing s symIdx data with
  | nil =>
    obtain rfl := Option.some.inj hassign
    obtain rfl := Option.some.inj hloop
    rw [hstep.length]
    exact hge
  | cons id ids ih =>
    by_cases hdata : data.length < 2 ^ 32
    · obtain ⟨hid, hids⟩ := List.nodup_cons.mp hids
      obtain ⟨s₁, h₁, hassign⟩ := assignOffsets_cons hassign
      obtain ⟨bytes, hbytes, hstep₁, -⟩ := hstep.round h₁ hdata
      rw [← assignOffsets_of_not_mem hassign hid] at hbytes
      rw [stringDataLoop_cons hbytes] at hloop
      exact ih hids hassign hstep₁ hloop
    · obtain ⟨ext, rfl⟩ := stringDataLoop_prefix hloop
      rw [List.length_append]
      omega

/-! ### The string table -/

/-- `strDataSize` before the first symbol. -/
def stringDataStart (optionAof : Bool) : ℕ := if optionAof then 4 else 1

/-- **A string table for the symbols**, whose offsets are those in `t'`. -/
structure StringsOf (optionAof : Bool) (t t' : SymbolTable) (ids : List SymId) (strDataSize : ℕ)
    (strData : List UInt8) : Prop where
  size : strData.length = strDataSize
  /-- A table of AOF begins with this size, one of ELF with the empty name. -/
  start : ∃ body, strData = (if optionAof then wordBytes (BitVec.ofNat 32 strDataSize) else [0]) ++ body
  name : ∀ id ∈ ids, NamePlaced optionAof (stringDataStart optionAof) (t.sym id) (t'.sym id).offset strData

theorem inStep_start (optionAof : Bool) (t : SymbolTable) (strDataSize : ℕ) :
    InStep optionAof (stringDataStart optionAof) ⟨stringDataStart optionAof, fun _ => none, t⟩
      (if optionAof then wordBytes (BitVec.ofNat 32 strDataSize) else [0]) := by
  cases optionAof with
  | true => exact ⟨rfl, le_refl _, nofun, nofun⟩
  | false => exact ⟨rfl, le_refl _, nofun, fun _ => ⟨[], [], rfl, rfl⟩⟩

theorem symbolBuildStringData_eq_some {heap : SymHeap} {strDataSize : ℕ} {strData : List UInt8} :
    symbolBuildStringData optionAof heap strDataSize ids = some strData ↔
      stringDataLoop optionAof heap (if optionAof then wordBytes (BitVec.ofNat 32 strDataSize) else [0]) ids =
        some strData ∧ strData.length = strDataSize % 2 ^ 32 := by
  simp only [symbolBuildStringData, Option.bind_eq_bind, Option.bind_eq_some_iff, Option.pure_def,
    assert_eq_some, beq_iff_eq, Option.some.injEq]
  constructor
  · rintro ⟨data, hloop, _, hsize, rfl⟩
    exact ⟨hloop, hsize⟩
  · rintro ⟨hloop, hsize⟩
    exact ⟨strData, hloop, (), hsize, rfl⟩

variable {t : SymbolTable} {ids : List SymId}

theorem strDataSize_lt (hids : ids.Nodup)
    (hassign : assignOffsets optionAof ⟨stringDataStart optionAof, fun _ => none, t⟩ symIdx ids = some s')
    {strData : List UInt8} (h : symbolBuildStringData optionAof s'.table.heap s'.strDataSize ids = some strData) :
    s'.strDataSize < 2 ^ 32 := by
  obtain ⟨hloop, hsize⟩ := symbolBuildStringData_eq_some.mp h
  by_contra hge
  have hlength := stringDataLoop_overflow hids hassign (inStep_start optionAof t _) (Nat.le_of_not_lt hge) hloop
  have hmod : s'.strDataSize % 2 ^ 32 < 2 ^ 32 := Nat.mod_lt _ (by decide)
  omega

theorem exists_stringsOf (hids : ids.Nodup)
    (hassign : assignOffsets optionAof ⟨stringDataStart optionAof, fun _ => none, t⟩ symIdx ids = some s')
    (hlt : s'.strDataSize < 2 ^ 32) :
    ∃ strData, symbolBuildStringData optionAof s'.table.heap s'.strDataSize ids = some strData ∧
      StringsOf optionAof t s'.table ids s'.strDataSize strData := by
  obtain ⟨strData, hloop, hlength, hnames⟩ :=
    assignOffsets_strings hids hassign (inStep_start optionAof t s'.strDataSize) hlt
  refine ⟨strData, symbolBuildStringData_eq_some.mpr ⟨hloop, ?_⟩, hlength, stringDataLoop_prefix hloop,
    fun id hid => ?_⟩
  · rw [hlength, Nat.mod_eq_of_lt hlt]
  · obtain ⟨i, hi⟩ := List.mem_iff_getElem?.mp hid
    exact (hnames i id hi).1

/-- **The string table is built** just if its size fits the 32 bits of its variable, and then the name of
every symbol stands at the offset that was assigned to it. -/
theorem symbolBuildStringData_spec (hids : ids.Nodup)
    (hassign : assignOffsets optionAof ⟨stringDataStart optionAof, fun _ => none, t⟩ symIdx ids = some s') :
    ((∃ strData, symbolBuildStringData optionAof s'.table.heap s'.strDataSize ids = some strData) ↔
        s'.strDataSize < 2 ^ 32) ∧
      ∀ strData, symbolBuildStringData optionAof s'.table.heap s'.strDataSize ids = some strData →
        StringsOf optionAof t s'.table ids s'.strDataSize strData := by
  refine ⟨⟨fun ⟨_, h⟩ => strDataSize_lt hids hassign h, fun hlt => ?_⟩, fun strData h => ?_⟩
  · obtain ⟨strData, hbuild, -⟩ := exists_stringsOf hids hassign hlt
    exact ⟨strData, hbuild⟩
  · obtain ⟨strData', hbuild, hstrings⟩ := exists_stringsOf hids hassign (strDataSize_lt hids hassign h)
    obtain rfl := Option.some.inj (hbuild.symm.trans h)
    exact hstrings

/-- A label and two mapping symbols of one kind, which share the string `$a`. -/
def threeSymbols : SymbolTable := ⟨SymHeap.ofList [
  { str := cstr "main", type := symbolGlobal }, { str := cstr "$a.1" }, { str := cstr "$a.2" }], fun _ => []⟩

theorem symbolBuildStringData_threeSymbols :
    ∃ s', assignOffsets true ⟨4, fun _ => none, threeSymbols⟩ 0 [0, 1, 2] = some s' ∧
      ((∃ strData, symbolBuildStringData true s'.table.heap s'.strDataSize [0, 1, 2] = some strData) ↔
        s'.strDataSize < 2 ^ 32) := by
  obtain ⟨s', h⟩ : ∃ s', assignOffsets true ⟨4, fun _ => none, threeSymbols⟩ 0 [0, 1, 2] = some s' := ⟨_, rfl⟩
  exact ⟨s', h, (symbolBuildStringData_spec (by decide) h).1⟩

end Asasm
