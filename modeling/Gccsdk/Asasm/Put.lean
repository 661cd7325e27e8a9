import Gccsdk.Asasm.Option

/-!
# Writing code and data into an area

The functions of `put.c` that write into the current area, with `Area_AlignOffset` of `area.c`. The
image of an area is the list of its bytes up to `curIdx`.
-/

namespace Asasm

structure AreaCode where
  /-- `Area_IsNoInit`: the area has no image; its bytes read as zero. -/
  noInit : Bool := false
  /-- The bytes at the offsets below `curIdx`. -/
  image : List UInt8 := []
  deriving DecidableEq, Repr

/-- `Area::curIdx`. -/
def AreaCode.curIdx (a : AreaCode) : Nat := a.image.length

/-- The next multiple of `align`. -/
def alignUp (offset align : Nat) : Nat := (offset + (align - 1)) / align * align

/-- `Area_AlignOffset`, with the reason for the alignment. -/
def areaAlignOffset (a : AreaCode) (offset align : Nat) (msg : Name) :
    Nat × AreaCode × List Diag :=
  let diags := if offset % align ≠ 0 then
      [⟨.warning, "Implicit aligning unaligned %s", [.str msg]⟩]
    else []
  let newOffset := alignUp offset align
  (newOffset, { a with image := a.image ++ List.replicate (newOffset - a.curIdx) 0 }, diags)

def dataBytes (size : Nat) (value : BitVec 64) : List UInt8 :=
  (List.range size).map fun i => ⟨value.extractLsb' (8 * i) 8⟩

def fixCheckForOverflow (size : Nat) (value : BitVec 32) : Bool :=
  if size = 1 then (value + 0x80).slt 0
  else if size = 2 then (value + 0x8000).slt 0
  else false

def reportOverflow (size : Nat) (value : BitVec 64) : List Diag :=
  if fixCheckForOverflow size (value.setWidth 32) then
    [⟨.warning, "Size value %d (= 0x%x) exceeds %d byte%s",
      [.int (value.setWidth 32).toInt, .int (value.setWidth 32).toNat, .int size,
        .str (if size = 1 then [] else cstr "s")]⟩]
  else []

def overwrite (image : List UInt8) (offset : Nat) (bytes : List UInt8) : List UInt8 :=
  image.take offset ++ bytes ++ image.drop (offset + bytes.length)

/-- `Put_DataWithOffset`, once, at an offset up to `curIdx`. -/
def putDataWithOffset (a : AreaCode) (offset size : Nat) (value : BitVec 64) :
    AreaCode × List Diag :=
  if a.noInit then
    ({ a with image := a.image ++ List.replicate (offset + size - a.curIdx) 0 },
      if value = 0 then []
      else [⟨.error, "Trying to define a non-zero value in an uninitialised area", []⟩])
  else ({ a with image := overwrite a.image offset (dataBytes size value) },
    reportOverflow size value)

def putInsWithOffset (s : AsmState) (a : AreaCode) (offset size : Nat) (ins : ARMWord) :
    AreaCode × List Diag :=
  let (offset, a, diags) := areaAlignOffset a offset (if s.instrType = .arm then 4 else 2)
    (cstr "instruction")
  if s.instrType ≠ .arm ∧ size = 4 then
    -- the halfword with the higher bits comes first
    let (a, diags₁) := putDataWithOffset a offset 2 ((ins >>> 16).setWidth 64)
    let (a, diags₂) := putDataWithOffset a (offset + 2) 2 ((ins &&& 0xFFFF).setWidth 64)
    (a, diags ++ diags₁ ++ diags₂)
  else
    let (a, diags₁) := putDataWithOffset a offset size (ins.setWidth 64)
    (a, diags ++ diags₁)

def putIns (s : AsmState) (a : AreaCode) (size : Nat) (ins : ARMWord) : AreaCode × List Diag :=
  putInsWithOffset s a a.curIdx size ins

/-! ### Bytes in an image -/

@[simp] theorem length_dataBytes (size : Nat) (value : BitVec 64) :
    (dataBytes size value).length = size := by
  rw [dataBytes, List.length_map, List.length_range]

theorem overwrite_end (image bytes : List UInt8) :
    overwrite image image.length bytes = image ++ bytes := by
  rw [overwrite, List.take_length, List.drop_eq_nil_of_le (Nat.le_add_right _ _), List.append_nil]

theorem overwrite_middle (pre old post new : List UInt8) (h : old.length = new.length) :
    overwrite (pre ++ old ++ post) pre.length new = pre ++ new ++ post := by
  rw [overwrite, List.append_assoc pre old post, List.take_left, ← h, ← List.append_assoc pre old,
    ← List.length_append, List.drop_left]

theorem alignUp_of_dvd {offset align : Nat} (halign : 0 < align) (h : align ∣ offset) :
    alignUp offset align = offset := by
  obtain ⟨k, rfl⟩ := h
  rw [alignUp, Nat.mul_add_div halign, Nat.div_eq_of_lt (by omega), Nat.add_zero, Nat.mul_comm]

theorem dvd_alignUp (offset align : Nat) : align ∣ alignUp offset align := Nat.dvd_mul_left _ _

end Asasm
