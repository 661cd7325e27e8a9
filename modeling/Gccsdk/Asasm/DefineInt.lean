import Gccsdk.Asasm.AreaImage
import Gccsdk.Asasm.OutputAOF
import Gccsdk.Asasm.Resolve

/-!
# Data definitions

`DefineInt` of `directive_data.c`, behind DCB, `=`, DCW, DCWU, `&`, DCD, DCDU and DCI: what becomes of one operand,
after it has been evaluated. A number is checked by `Fix_Int` and put. An expression with symbols goes through
`DefineInt_HandleSymbols`, which adds up its numbers and has relocations made for its symbols; the sum is checked
and put in the same way.

The check finds numbers below the signed range only. `defineInt_shows_iff` says which ones are cut off without an
error: those above the unsigned range, up to where the sum with the bias becomes negative.
-/

namespace Asasm

open CheckedRun

/-! ### The check -/

def tooBig (dataSize : ℕ) (dataValue : BitVec 32) : Diag :=
  ⟨.error, "Value %d (0x%x) too big for %i bits",
    [.int dataValue.toInt, .int dataValue.toNat, .int (8 * dataSize)]⟩

/-- **`Fix_Int`.** -/
def fixInt (dataSize : ℕ) (dataValue : BitVec 32) : BitVec 32 × List Diag :=
  if fixCheckForOverflow dataSize dataValue then
    (dataValue &&& ((1 : BitVec 32) <<< (8 * dataSize) - 1), [tooBig dataSize dataValue])
  else (dataValue, [])

/-! ### Expressions with symbols -/

def rArmAbs32 : BitVec 32 := 2
def rArmAbs16 : BitVec 32 := 5
def rArmAbs8 : BitVec 32 := 8

def how2Byte : BitVec 32 := 0x00000000
def how2Half : BitVec 32 := 0x01000000
def how2Word : BitVec 32 := 0x02000000
def how2Relative : BitVec 32 := 0x04000000

/-- A call of `Reloc_CreateAOF` and one of `Reloc_CreateELF`. -/
structure RelocCall where
  howAOF : BitVec 32
  howELF : BitVec 32
  relocOffset : BitVec 32
  value : Value

def relocKinds (size : ℕ) : Option (BitVec 32 × BitVec 32) :=
  if size = 1 then some (how2Init ||| how2Byte, rArmAbs8)
  else if size = 2 then some (how2Init ||| how2Half, rArmAbs16)
  else if size = 4 then some (how2Init ||| how2Word, rArmAbs32)
  else none

def withFactor (x : BitVec 32) : List Code → BitVec 32
  | .operator .sub :: _ => -x
  | _ => x

section HandleSymbols

variable (resolve : Value → Option Resolved) (current : SymId)

/-- `Value_ResolveSymbol`, which may not end or fail an assertion. -/
def resolved (v : Value) : Run (Bool × Value) :=
  match resolve v with
  | none => throw .endless
  | some .aborted => throw .message
  | some (.done failed v) => pure (failed, v)

/-- The first loop of `DefineInt_HandleSymbols`: the relocations against other symbols and against the area
itself. Nothing when the expression cannot be handled. -/
def countRelocs : List Code → (relocs relative : BitVec 32) → Run (Option (BitVec 32 × BitVec 32))
  | [], relocs, relative => pure (some (relocs, relative))
  | .operator op :: codes, relocs, relative =>
    if op = .add ∨ op = .sub then countRelocs codes relocs relative else pure none
  | .value v :: codes, relocs, relative => do
    match ← resolved resolve v with
    | (false, .int ..) => countRelocs codes relocs relative
    | (false, .symbol s factor _) =>
      if s = current then countRelocs codes relocs (relative + withFactor factor codes)
      else if (withFactor factor codes).slt 0 then pure none
      else countRelocs codes (relocs + withFactor factor codes) relative
    | _ => pure none

/-- The relocations for one symbol, and what is left of `relative`. -/
def createRelocs (howAOF howELF relocOffset : BitVec 32) (value : Value) :
    (numRelocs : ℕ) → (relative : BitVec 32) → List RelocCall × BitVec 32
  | 0, relative => ([], relative)
  | numRelocs + 1, relative =>
    let isRelative := relative.slt 0
    let call := ⟨if isRelative then howAOF ||| how2Relative else howAOF, howELF, relocOffset, value⟩
    let (calls, left) :=
      createRelocs howAOF howELF relocOffset value numRelocs (if isRelative then relative + 1 else relative)
    (call :: calls, left)

structure SumState where
  armValue : BitVec 32
  relocs : BitVec 32
  relative : BitVec 32
  calls : List RelocCall

/-- The second loop of `DefineInt_HandleSymbols`. -/
def sumCodes (howAOF howELF relocOffset : BitVec 32) : List Code → SumState → Run (Option SumState)
  | [], st => pure (some st)
  | .operator op :: codes, st =>
    if op = .add ∨ op = .sub then sumCodes howAOF howELF relocOffset codes st else pure none
  | .value v :: codes, st => do
    match ← resolved resolve v with
    | (false, .int i _) =>
      sumCodes howAOF howELF relocOffset codes { st with armValue := st.armValue + withFactor i codes }
    | (false, .symbol s factor offset) =>
      let numRelocs := if s = current then (if (0 : BitVec 32).slt st.relative then st.relative else 0)
        else withFactor factor codes
      let relative := if s = current ∧ (0 : BitVec 32).slt st.relative then 0 else st.relative
      let relocs := if s = current then st.relocs else st.relocs - numRelocs
      let (calls, relative) :=
        createRelocs howAOF howELF relocOffset (.symbol s factor offset) numRelocs.toNat relative
      sumCodes howAOF howELF relocOffset codes
        ⟨st.armValue + withFactor offset codes, relocs, relative, st.calls ++ calls⟩
    | _ => pure none

/-- **`DefineInt_HandleSymbols`** up to `Fix_Int`: the sum and the relocations, or nothing when there is to be an
error. -/
def handleSymbols (size : ℕ) (allowUnaligned : Bool) (offset : BitVec 32) (codes : List Code) :
    Run (Option (BitVec 32 × List RelocCall)) := do
  match ← countRelocs resolve current codes 0 0 with
  | none => pure none
  | some (relocs, relative) =>
    if relocs.slt 0 then throw .message
    else if relative.slt 0 ∧ relocs.slt (-relative) then pure none
    else
      match relocKinds size with
      | none => throw .message
      | some (howAOF, howELF) => do
        let size := BitVec.ofNat 32 size
        let relocOffset := if allowUnaligned then offset else (offset + size - 1) &&& -size
        match ← sumCodes resolve current howAOF howELF relocOffset codes ⟨0, relocs, relative, []⟩ with
        | none => pure none
        | some st => if st.relocs ≠ 0 ∨ st.relative ≠ 0 then throw .message else pure (some (st.armValue, st.calls))

end HandleSymbols

/-! ### One operand -/

structure DataDirective where
  size : ℕ
  allowUnaligned : Bool
  swapHalfwords : Bool
  mnemonic : Name

/-- The number that an operand stands for, with the relocations for it; nothing when the operand is illegal. -/
def operandNumber (resolve : Value → Option Resolved) (current : SymId) (d : DataDirective) (offset : BitVec 32) :
    Value → Run (Option (BitVec 32 × List RelocCall))
  | .int i _ => pure (some (i, []))
  | .symbol s factor o =>
    handleSymbols resolve current d.size d.allowUnaligned offset [.value (.symbol s factor o)]
  | .code codes => handleSymbols resolve current d.size d.allowUnaligned offset codes
  | _ => pure none

def DataDirective.fixed (d : DataDirective) (v : BitVec 32) : BitVec 32 × List Diag :=
  let (armValue, diags) := fixInt d.size v
  (if d.size = 4 ∧ d.swapHalfwords then armValue >>> 16 ||| armValue <<< 16 else armValue, diags)

/-- Data at the current index, aligned unless the directive is one for unaligned data. -/
def DataDirective.call (d : DataDirective) (s : AreaImage) (data : BitVec 32) : AreaImage.PutCall :=
  ⟨s.curIdx, d.size, data, 1, !d.allowUnaligned⟩

/-- **`DefineInt` for one operand** of one, two or four bytes that is not a string. -/
def defineInt (resolve : Value → Option Resolved) (current : SymId) (os : Realloc) (passOne : Bool) (s : AreaImage)
    (d : DataDirective) (value : Value) : Run ((AreaImage × List RelocCall) × List Diag) := do
  match ← operandNumber resolve current d s.curIdx value with
  | some (v, calls) =>
    let (armValue, diags) := d.fixed v
    let (t, diags₁) ← s.putAlignDataWithOffset os passOne (d.call s armValue)
    pure ((t, calls), diags ++ diags₁)
  | none =>
    let diags := if passOne then [] else [⟨.error, "Illegal %s expression", [.str d.mnemonic]⟩]
    let (t, diags₁) ← s.putAlignDataWithOffset os passOne (d.call s 0)
    pure ((t, []), diags ++ diags₁)

/-! ### The bytes of an item -/

theorem getElem?_dataBytes {size j : ℕ} (value : BitVec 64) (hj : j < size) :
    (dataBytes size value)[j]? = some ⟨value.extractLsb' (8 * j) 8⟩ := by
  unfold dataBytes
  rw [List.getElem?_map, List.getElem?_range hj]
  rfl

theorem dataBytes_setWidth (size : ℕ) (v : BitVec 32) :
    dataBytes size ((v.setWidth (8 * size)).setWidth 64) = dataBytes size (v.setWidth 64) := by
  unfold dataBytes
  refine List.map_congr_left fun j hj => congrArg UInt8.ofBitVec ?_
  have hj' := List.mem_range.mp hj
  ext i hi
  simp only [BitVec.getElem_extractLsb', BitVec.getLsbD_setWidth]
  rw [decide_eq_true (show 8 * j + i < 8 * size by omega), Bool.true_and]

theorem eq_of_dataBytes {size : ℕ} (hsize : size ≤ 8) {w w' : BitVec (8 * size)}
    (h : ∀ j < size, (dataBytes size (w.setWidth 64))[j]? = (dataBytes size (w'.setWidth 64))[j]?) : w = w' := by
  apply BitVec.eq_of_getLsbD_eq
  intro i hi
  have hj : i / 8 < size := by omega
  have hbyte := h (i / 8) hj
  rw [getElem?_dataBytes _ hj, getElem?_dataBytes _ hj, Option.some.injEq, UInt8.ofBitVec.injEq] at hbyte
  have hbit := congrArg (fun b : BitVec 8 => b.getLsbD (i % 8)) hbyte
  simp only [BitVec.getLsbD_extractLsb', BitVec.getLsbD_setWidth] at hbit
  have hpos : 8 * (i / 8) + i % 8 = i := Nat.div_add_mod i 8
  rw [hpos, decide_eq_true (show i % 8 < 8 by omega), decide_eq_true (show i < 64 by omega)] at hbit
  exact hbit

def Decodes {n : ℕ} (w : BitVec n) (v : BitVec 32) : Prop := w.setWidth 32 = v ∨ w.signExtend 32 = v

/-- **The item at a place shows the number.** An area without image reads as zero. -/
def AreaImage.Shows (t : AreaImage) (start size : ℕ) (v : BitVec 32) : Prop :=
  if t.noInit then v = 0
  else ∃ w : BitVec (8 * size),
    (∀ j < size, t.image[start + j]? = (dataBytes size (w.setWidth 64))[j]?) ∧ Decodes w v

/-- **The numbers that are cut off without an error**: those beyond the unsigned range, up to where the sum of
`Fix_CheckForOverflow` becomes negative. -/
def SilentlyCut (size : ℕ) (v : BitVec 32) : Prop :=
  (size = 1 ∧ 0x100 ≤ v.toNat ∧ v.toNat < 2 ^ 31 - 0x80) ∨
    (size = 2 ∧ 0x10000 ≤ v.toNat ∧ v.toNat < 2 ^ 31 - 0x8000)

theorem fixCheckForOverflow_iff (size : ℕ) (v : BitVec 32) :
    fixCheckForOverflow size v = true ↔
      (size = 1 ∧ 2 ^ 31 - 0x80 ≤ v.toNat ∧ v.toNat < 2 ^ 32 - 0x80) ∨
        (size = 2 ∧ 2 ^ 31 - 0x8000 ≤ v.toNat ∧ v.toNat < 2 ^ 32 - 0x8000) := by
  have hlt := v.isLt
  have hslt (k : BitVec 32) : (v + k).slt 0 = true ↔ 2 ^ 31 ≤ (v.toNat + k.toNat) % 2 ^ 32 := by
    have hsum := BitVec.toNat_add v k
    have hsumlt := (v + k).isLt
    have hzero : (0 : BitVec 32).toInt = 0 := rfl
    rw [BitVec.slt_iff_toInt_lt, hzero, BitVec.toInt_eq_toNat_cond, ← hsum]
    split <;> omega
  unfold fixCheckForOverflow
  by_cases h1 : size = 1
  · rw [if_pos h1, hslt]
    change 2 ^ 31 ≤ (v.toNat + 0x80) % 2 ^ 32 ↔ _
    omega
  · rw [if_neg h1]
    by_cases h2 : size = 2
    · rw [if_pos h2, hslt]
      change 2 ^ 31 ≤ (v.toNat + 0x8000) % 2 ^ 32 ↔ _
      omega
    · rw [if_neg h2]
      refine iff_of_false Bool.false_ne_true ?_
      omega

/-- **The low part of a number is the number** just if that is in the unsigned or the signed range. -/
theorem decodes_setWidth_iff {n : ℕ} (hn : n = 8 ∨ n = 16 ∨ n = 32) (v : BitVec 32) :
    Decodes (v.setWidth n) v ↔ v.toNat < 2 ^ n ∨ 2 ^ 32 - 2 ^ (n - 1) ≤ v.toNat := by
  have hlt := v.isLt
  have hw : (v.setWidth n).toNat = v.toNat % 2 ^ n := BitVec.toNat_setWidth n v
  have hzero : ((v.setWidth n).setWidth 32).toNat = v.toNat % 2 ^ n % 2 ^ 32 := by
    rw [BitVec.toNat_setWidth, hw]
  unfold Decodes
  rw [← BitVec.toNat_inj, ← BitVec.toNat_inj, BitVec.toNat_signExtend, BitVec.msb_eq_decide, hzero, hw]
  obtain rfl | rfl | rfl := hn
  all_goals
    simp only [decide_eq_true_eq]
    split <;> omega

theorem shows_iff {t : AreaImage} {start size : ℕ} {v : BitVec 32} (hsize : size = 1 ∨ size = 2 ∨ size = 4)
    (hinit : t.noInit = false)
    (hbytes : ∀ j < size, t.image[start + j]? = (dataBytes size (v.setWidth 64))[j]?) :
    t.Shows start size v ↔ v.toNat < 2 ^ (8 * size) ∨ 2 ^ 32 - 2 ^ (8 * size - 1) ≤ v.toNat := by
  have hle : size ≤ 8 := by omega
  have hbits : 8 * size = 8 ∨ 8 * size = 16 ∨ 8 * size = 32 := by omega
  rw [← decodes_setWidth_iff hbits]
  unfold AreaImage.Shows
  rw [hinit, if_neg Bool.false_ne_true]
  constructor
  · rintro ⟨w, hw, hdec⟩
    have heq : w = v.setWidth (8 * size) := by
      refine eq_of_dataBytes hle fun j hj => ?_
      rw [dataBytes_setWidth, ← hw j hj, hbytes j hj]
    rw [← heq]
    exact hdec
  · intro hdec
    refine ⟨v.setWidth (8 * size), fun j hj => ?_, hdec⟩
    rw [dataBytes_setWidth]
    exact hbytes j hj

/-! ### No silent truncation -/

theorem fixInt_overflow {size : ℕ} {v : BitVec 32} (h : fixCheckForOverflow size v = true) :
    (fixInt size v).2 = [tooBig size v] := by
  unfold fixInt
  rw [if_pos h]

theorem fixInt_fits {size : ℕ} {v : BitVec 32} (h : fixCheckForOverflow size v = false) :
    fixInt size v = (v, []) := by
  unfold fixInt
  rw [h]
  rfl

theorem DataDirective.fixed_eq {d : DataDirective} (hswap : d.swapHalfwords = false) (v : BitVec 32) :
    d.fixed v = fixInt d.size v := by
  unfold DataDirective.fixed
  dsimp only
  rw [hswap, if_neg fun h => Bool.false_ne_true h.2]

theorem defineInt_number {resolve : Value → Option Resolved} {current : SymId} {os : Realloc} {passOne : Bool}
    {s : AreaImage} {d : DataDirective} (hswap : d.swapHalfwords = false) {value : Value} {v : BitVec 32}
    {calls : List RelocCall} (hvalue : operandNumber resolve current d s.curIdx value = .ok (some (v, calls))) :
    defineInt resolve current os passOne s d value =
      s.putAlignDataWithOffset os passOne (d.call s (fixInt d.size v).1) >>= fun r =>
        pure ((r.1, calls), (fixInt d.size v).2 ++ r.2) := by
  unfold defineInt
  rw [hvalue, ok_bind, ← DataDirective.fixed_eq hswap]

theorem range_of_not_cut {size : ℕ} {v : BitVec 32} (hsize : size = 1 ∨ size = 2 ∨ size = 4)
    (hover : fixCheckForOverflow size v = false) :
    v.toNat < 2 ^ (8 * size) ∨ 2 ^ 32 - 2 ^ (8 * size - 1) ≤ v.toNat ↔ ¬SilentlyCut size v := by
  have hlt := v.isLt
  have hno : ¬_ := fun h => Bool.false_ne_true (hover.symm.trans ((fixCheckForOverflow_iff size v).mpr h))
  unfold SilentlyCut
  obtain rfl | rfl | rfl := hsize <;> omega

/-- **What is put has the bytes of the number**, and shows it if it is not cut off. -/
theorem shows_put_iff {os : Realloc} {passOne : Bool} {s : AreaImage} (hs : s.Sound) {d : DataDirective}
    (hsize : d.size = 1 ∨ d.size = 2 ∨ d.size = 4) (hinit : s.noInit = false) {v : BitVec 32}
    (hover : fixCheckForOverflow d.size v = false) (hroom : (d.call s v).Fits) {r : AreaImage × List Diag}
    (hr : s.putAlignDataWithOffset os passOne (d.call s v) = .ok r) :
    r.1.Shows (d.call s v).start d.size v ↔ ¬SilentlyCut d.size v := by
  have heffect := (AreaImage.ensures_putAlignDataWithOffset hs hroom).post hr
  have hbytes : ∀ j < d.size, r.1.image[(d.call s v).start + j]? = (dataBytes d.size (v.setWidth 64))[j]? :=
    fun j hj => heffect.written hinit 0 Nat.one_pos j hj
  rw [shows_iff hsize (heffect.noInit.trans hinit) hbytes]
  exact range_of_not_cut hsize hover

/-- **Every number is shown or reported**, in all three sizes and by all directives, just if it is not one
of those that are cut off silently, or the area has no image. It may be the sum of an expression that is
relocated. -/
theorem defineInt_shows_iff {s : AreaImage} (hs : s.Reached) (resolve : Value → Option Resolved) (current : SymId)
    (os : Realloc) (passOne : Bool) {d : DataDirective} (hsize : d.size = 1 ∨ d.size = 2 ∨ d.size = 4)
    (hswap : d.swapHalfwords = false) {value : Value} {v : BitVec 32} {calls : List RelocCall}
    (hvalue : operandNumber resolve current d s.curIdx value = .ok (some (v, calls)))
    (hroom : (d.call s v).Fits)
    (hreturns : defineInt resolve current os passOne s d value ≠ .error .message) :
    Ensures (defineInt resolve current os passOne s d value) (fun r =>
      r.1.1.Shows (d.call s v).start d.size v ∨ tooBig d.size v ∈ r.2 ∨ AreaImage.nonZeroUninitialised ∈ r.2) ↔
      (s.noInit = false → ¬SilentlyCut d.size v) := by
  rw [defineInt_number hswap hvalue] at hreturns ⊢
  cases hover : fixCheckForOverflow d.size v with
  | true =>
    refine iff_of_true ?_ fun _ hcut => ?_
    · rw [fixInt_overflow hover, ensures_bind]
      have hfits : (d.call s (fixInt d.size v).1).Fits := hroom
      refine (AreaImage.ensures_putAlignDataWithOffset hs.sound hfits).imp fun r _ _ => ?_
      exact ensures_ok.mpr (Or.inr (Or.inl (List.mem_append_left _ (List.mem_singleton.mpr rfl))))
    · have hover' := (fixCheckForOverflow_iff d.size v).mp hover
      unfold SilentlyCut at hcut
      omega
  | false =>
    rw [fixInt_fits hover] at hreturns ⊢
    have hput : Ensures (s.putAlignDataWithOffset os passOne (d.call s v)) _ :=
      AreaImage.ensures_putAlignDataWithOffset hs.sound hroom
    cases hinit : s.noInit with
    | true =>
      refine iff_of_true ?_ nofun
      refine ensures_bind.mpr (hput.imp fun r hr heffect => ensures_ok.mpr ?_)
      have hnone : r.1.noInit = true := heffect.noInit.trans hinit
      by_cases hzero : v = 0
      · refine Or.inl ?_
        unfold AreaImage.Shows
        rw [if_pos hnone]
        exact hzero
      · exact Or.inr (Or.inr (AreaImage.nonZeroUninitialised_mem hs.sound hinit hr hzero))
    | false =>
      constructor
      · intro h _
        obtain hmessage | ⟨r, hr, hprop⟩ := h
        · exact absurd hmessage hreturns
        · obtain ⟨⟨t, diags⟩, ht, hr⟩ := CheckedRun.bind_eq_ok.mp hr
          obtain rfl := Except.ok.inj hr
          have hmild := AreaImage.mild_putAlignDataWithOffset hs.sound hinit ht
          obtain hshow | hbig | huninit := hprop
          · exact (shows_put_iff hs.sound hsize hinit hover hroom ht).mp hshow
          · obtain htag | heq := hmild _ hbig
            · exact nomatch htag
            · exact absurd (congrArg Diag.format heq) (by simp [tooBig, AreaImage.noAreaDefined])
          · obtain htag | heq := hmild _ huninit
            · exact nomatch htag
            · exact absurd (congrArg Diag.format heq) (by decide)
      · intro hcut
        refine ensures_bind.mpr (hput.imp fun r hr _ => ensures_ok.mpr (Or.inl ?_))
        exact (shows_put_iff hs.sound hsize hinit hover hroom hr).mpr (hcut rfl)

/-- DCB -/
def dcb : DataDirective := ⟨1, true, false, cstr "DCB or ="⟩

theorem defineInt_byte (v : BitVec 32) (image : List UInt8) (hover : fixInt 1 v = (v, []))
    (hput : (areaCreate false false).putAlignDataWithOffset (reallocUpTo 1) true
      (dcb.call (areaCreate false false) v) = .ok (⟨false, false, image, 1⟩, [])) :
    defineInt (fun _ => none) 0 (reallocUpTo 1) true (areaCreate false false) dcb (.int v .pureInt) =
      .ok ((⟨false, false, image, 1⟩, []), []) := by
  have hover' : fixInt dcb.size v = (v, []) := hover
  have hnumber : operandNumber (fun _ => none) 0 dcb 0 (.int v .pureInt) = .ok (some (v, [])) := rfl
  rw [defineInt_number rfl hnumber, hover', hput]
  rfl

theorem defineInt_shows_iff_dcb :
    let s := areaCreate false false
    let x := defineInt (fun _ => none) 0 (reallocUpTo 1) true s dcb (.int 200 .pureInt)
    Ensures x (fun r => r.1.1.Shows (dcb.call s 200).start dcb.size 200 ∨ tooBig dcb.size 200 ∈ r.2 ∨
        AreaImage.nonZeroUninitialised ∈ r.2) ↔
      (s.noInit = false → ¬SilentlyCut dcb.size 200) :=
  defineInt_shows_iff (.create false false) (fun _ => none) 0 (reallocUpTo 1) true (Or.inl rfl) rfl rfl (by decide)
    (by rw [defineInt_byte 200 [200] (by decide) (by decide)]; nofun)

/-- `DCB 256` gives a zero byte. -/
theorem not_defineInt_shows :
    ¬ ∀ (s : AreaImage) (os : Realloc) (v : BitVec 32), s.Reached → (dcb.call s v).Fits →
      defineInt (fun _ => none) 0 os true s dcb (.int v .pureInt) ≠ .error .message →
        Ensures (defineInt (fun _ => none) 0 os true s dcb (.int v .pureInt)) (fun r =>
          r.1.1.Shows (dcb.call s v).start dcb.size v ∨ tooBig dcb.size v ∈ r.2 ∨
            AreaImage.nonZeroUninitialised ∈ r.2) := by
  intro h
  have hput : (areaCreate false false).putAlignDataWithOffset (reallocUpTo 1) true
      (dcb.call (areaCreate false false) 256) = .ok (⟨false, false, [0], 1⟩, []) := by decide
  have hrun := defineInt_byte 256 [0] (by decide) hput
  have hprop := h (areaCreate false false) (reallocUpTo 1) 256 (.create false false) (by decide)
    (by rw [hrun]; nofun)
  rw [hrun, ensures_ok] at hprop
  have hshow := hprop.resolve_right (by simp)
  have hcut : SilentlyCut dcb.size 256 := Or.inl ⟨rfl, by decide, by decide⟩
  have hs := AreaImage.sound_areaCreate false false
  exact (shows_put_iff hs (Or.inl rfl) rfl (by decide) (by decide) hput).mp hshow hcut

end Asasm
