import Gccsdk.Asasm.Put
import Gccsdk.Lib.CheckedRun
import Gccsdk.Lib.Address
import Gccsdk.Lib.ListPatch

/-!
# The image of an area

An area has an allocated image, which grows, and the index `curIdx` of the next byte. `Area_EnsureExtraSize` of
`area.c` makes the image larger, `Area_AlignOffset` fills up to the next multiple with zeros, and
`Put_AlignDataWithOffset` and `Put_DataWithOffset` of `put.c` write a value, again and again.

A call may end early: it gives up (an assertion, no memory), or it leaves the image. What the host's `realloc`
answers is a parameter, and so is what a new piece of memory holds.

The index stays inside the image in every state (`Reached.sound`), and a call does what it is to do if the write
ends below 2^32 (`ensures_putAlignDataWithOffset`); where the product of size and count wraps it does not.
-/

namespace Asasm

open CheckedRun ListPatch

/-- The host's `realloc`: whether a block of a size becomes one of a larger size, and what is in its new bytes. -/
structure Realloc where
  succeeds : (old new : ℕ) → Bool
  fresh : (old idx : ℕ) → UInt8

structure AreaImage where
  /-- `Area_IsNoInit`: the area has no image. -/
  noInit : Bool
  /-- `Area_IsImplicit` -/
  implicit : Bool
  /-- The allocated bytes, `imagesize` of them. -/
  image : List UInt8
  curIdx : BitVec 32
  deriving DecidableEq, Repr

def areaCreate (noInit implicit : Bool) : AreaImage := ⟨noInit, implicit, [], 0⟩

namespace AreaImage

/-! ### Growing -/

/-- `Area_Resize`, which gives nothing when there is no memory. -/
def resize (os : Realloc) (s : AreaImage) (newsize : ℕ) : Run (Option AreaImage) :=
  if s.noInit ∨ newsize ≤ s.image.length then throw .message
  else if os.succeeds s.image.length newsize then
    pure (some { s with
      image := s.image ++ (List.range (newsize - s.image.length)).map (os.fresh s.image.length) })
  else pure none

/-- The loop of `Area_EnsureExtraSize` that asks for less and less, and the last attempt behind it. -/
def grow (os : Realloc) (s : AreaImage) (mingrow : ℕ) : (turns inc : ℕ) → Run AreaImage
  | 0, _ => throw .endless
  | turns + 1, inc =>
    if mingrow < inc then do
      match ← s.resize os (s.image.length + inc) with
      | some s => pure s
      | none => s.grow os mingrow turns (inc / 2)
    else do
      match ← s.resize os (s.image.length + mingrow) with
      | some s => pure s
      | none => throw .message

def growsize : ℕ := 16 * 1024

def doubleUpTo : ℕ := 128 * 1024

def firstInc (imagesize mingrow : ℕ) : ℕ :=
  max (if imagesize ≠ 0 ∧ imagesize < doubleUpTo then imagesize else growsize) mingrow

def noAreaDefined : Diag := ⟨.error, "No area defined", []⟩

/-- **`Area_EnsureExtraSize`.** -/
def ensureExtraSize (os : Realloc) (passOne : Bool) (s : AreaImage) (mingrow : ℕ) : Run (AreaImage × List Diag) :=
  if s.noInit then pure (s, [])
  else if s.curIdx.toNat + mingrow ≤ s.image.length then pure (s, [])
  else if ¬passOne then throw .message
  else do
    let inc := firstInc s.image.length mingrow
    let t ← s.grow os mingrow (inc + 1) inc
    pure (t, if s.image.length = 0 ∧ s.implicit then [noAreaDefined] else [])

/-! ### Aligning -/

/-- The index after a write up to `newOffset`. -/
def advance (s : AreaImage) (newOffset : BitVec 32) : AreaImage :=
  if s.curIdx < newOffset then { s with curIdx := newOffset } else s

/-- The padding of `Area_AlignOffset` up to an offset above `curIdx`. -/
def padTo (os : Realloc) (passOne : Bool) (s : AreaImage) (newOffset : BitVec 32) :
    Run (AreaImage × List Diag) :=
  let n := newOffset.toNat - s.curIdx.toNat
  if s.noInit then pure (s, [])
  else do
    let (t, diags) ← s.ensureExtraSize os passOne n
    let image ← stores t.image t.curIdx.toNat (List.replicate n 0)
    pure ({ t with image := image }, diags)

/-- The warning about an offset that is not aligned, with what is to be aligned. -/
def unalignedWarning (offset alignValue : BitVec 32) (msg : Option Name) : List Diag :=
  match msg with
  | some msg =>
    if offset &&& (alignValue - 1) ≠ 0 then [⟨.warning, "Implicit aligning unaligned %s", [.str msg]⟩] else []
  | none => []

/-- **`Area_AlignOffset`**, for an alignment that is a power of two, with the reason for the alignment. -/
def alignOffset (os : Realloc) (passOne : Bool) (s : AreaImage) (offset alignValue : BitVec 32)
    (msg : Option Name) : Run ((BitVec 32 × AreaImage) × List Diag) := do
  if alignValue = 0 ∨ alignValue &&& (alignValue - 1) ≠ 0 then throw .message
  let newOffset := (offset + alignValue - 1) &&& -alignValue
  let (t, diags) ← if s.curIdx < newOffset then s.padTo os passOne newOffset else pure (s, [])
  pure ((newOffset, t.advance newOffset), unalignedWarning offset alignValue msg ++ diags)

/-! ### Writing -/

/-- The bytes of one value. The index is an `uint32_t`. -/
def storeBytes : (image : List UInt8) → (i : BitVec 32) → (bytes : List UInt8) → Run (List UInt8)
  | image, _, [] => pure image
  | image, i, b :: bytes => do
    let image ← store image i.toNat b
    storeBytes image (i + 1) bytes

/-- The loop of `Put_DataWithOffset`. -/
def storeLoop (bytes : List UInt8) (newOffset : BitVec 32) :
    (turns : ℕ) → (i : BitVec 32) → List UInt8 → Run (List UInt8)
  | 0, _, _ => throw .endless
  | turns + 1, i, image =>
    if i = newOffset then pure image
    else do
      let image ← storeBytes image i bytes
      storeLoop bytes newOffset turns (i + BitVec.ofNat 32 bytes.length) image

/-- The room for a write up to `newOffset`. -/
def ensureUpTo (os : Realloc) (passOne : Bool) (s : AreaImage) (newOffset : BitVec 32) :
    Run (AreaImage × List Diag) :=
  if s.curIdx < newOffset then s.ensureExtraSize os passOne (newOffset.toNat - s.curIdx.toNat) else pure (s, [])

def nonZeroUninitialised : Diag := ⟨.error, "Trying to define a non-zero value in an uninitialised area", []⟩

/-- **`Put_DataWithOffset`.** A size other than 1, 2, 4 and 8 fails an assertion of `Fix_CheckForOverflow`. -/
def putDataWithOffset (os : Realloc) (passOne : Bool) (s : AreaImage) (offset : BitVec 32) (dataSize : ℕ)
    (dataValue : BitVec 64) (times : BitVec 32) : Run (AreaImage × List Diag) :=
  let newOffset := offset + BitVec.ofNat 32 dataSize * times
  if s.noInit then
    pure (s.advance newOffset,
      if dataValue = 0 then [] else [nonZeroUninitialised])
  else if dataSize ∈ [1, 2, 4, 8] then do
    let (t, diags) ← s.ensureUpTo os passOne newOffset
    let image ← storeLoop (dataBytes dataSize dataValue) newOffset (2 ^ 32 + 1) offset t.image
    pure (advance { t with image := image } newOffset, reportOverflow dataSize dataValue ++ diags)
  else throw .message

/-- The arguments of `Put_AlignDataWithOffset`. -/
structure PutCall where
  offset : BitVec 32
  size : ℕ
  data : BitVec 32
  times : BitVec 32
  alignBefore : Bool

def alignData (os : Realloc) (passOne : Bool) (s : AreaImage) (c : PutCall) :
    Run ((BitVec 32 × AreaImage) × List Diag) :=
  if c.alignBefore ∧ c.size = 2 then s.alignOffset os passOne c.offset 2 (some (cstr "halfword"))
  else if c.alignBefore ∧ c.size = 4 then s.alignOffset os passOne c.offset 4 (some (cstr "word"))
  else pure ((c.offset, s), [])

/-- **`Put_AlignDataWithOffset`.** -/
def putAlignDataWithOffset (os : Realloc) (passOne : Bool) (s : AreaImage) (c : PutCall) :
    Run (AreaImage × List Diag) := do
  let ((offset, t), diags) ← s.alignData os passOne c
  let (u, diags₁) ← t.putDataWithOffset os passOne offset c.size (c.data.setWidth 64) c.times
  pure (u, diags ++ diags₁)

/-! ### What growing does -/

/-- **The invariant**: the index is inside the image. -/
structure Sound (s : AreaImage) : Prop where
  curIdx_le : s.noInit = false → s.curIdx.toNat ≤ s.image.length

theorem sound_areaCreate (noInit implicit : Bool) : (areaCreate noInit implicit).Sound := ⟨fun _ => Nat.le_refl 0⟩

/-- **Only the image grows**, behind its end. -/
structure Grown (s t : AreaImage) : Prop where
  noInit : t.noInit = s.noInit
  implicit : t.implicit = s.implicit
  curIdx : t.curIdx = s.curIdx
  image : s.image <+: t.image

theorem Grown.refl (s : AreaImage) : Grown s s := ⟨rfl, rfl, rfl, List.prefix_refl _⟩

theorem Grown.getElem? {s t : AreaImage} (h : Grown s t) {p : ℕ} (hp : p < s.image.length) :
    t.image[p]? = s.image[p]? := by
  obtain ⟨more, hmore⟩ := h.image
  rw [← hmore, List.getElem?_append_left hp]

variable {os : Realloc} {passOne : Bool} {s t : AreaImage}

/-- Unless it fails, `realloc` gives an image of the size that is asked for. -/
theorem resize_eq (os : Realloc) {newsize : ℕ} (hinit : s.noInit = false) (hsize : s.image.length < newsize) :
    s.resize os newsize = .ok none ∨
      ∃ t, s.resize os newsize = .ok (some t) ∧ Grown s t ∧ t.image.length = newsize := by
  unfold resize
  rw [if_neg (by rw [hinit]; simp; omega)]
  by_cases h : os.succeeds s.image.length newsize = true
  · rw [if_pos h]
    refine Or.inr ⟨_, rfl, ⟨rfl, rfl, rfl, List.prefix_append _ _⟩, ?_⟩
    dsimp only
    rw [List.length_append, List.length_map, List.length_range]
    omega
  · rw [if_neg h]
    exact Or.inl rfl

/-- **The attempts end**, with at least the bytes that are needed or without memory. -/
theorem ensures_grow {mingrow turns inc : ℕ} (hinit : s.noInit = false) (hpos : 0 < mingrow)
    (hturns : inc < turns) : Ensures (s.grow os mingrow turns inc) fun t => Grown s t ∧ s.image.length + mingrow ≤ t.image.length := by
  induction turns generalizing inc with
  | zero => exact absurd hturns (Nat.not_lt_zero inc)
  | succ turns ih =>
    unfold grow
    by_cases hinc : mingrow < inc
    · rw [if_pos hinc]
      have hless : s.image.length < s.image.length + inc := by omega
      obtain hfail | ⟨t, hok, hgrown, hlen⟩ := resize_eq os hinit hless
      · rw [hfail]
        exact ih (Nat.lt_of_lt_of_le (Nat.div_lt_self (by omega) (by decide)) (Nat.le_of_lt_succ hturns))
      · rw [hok]
        exact ensures_ok.mpr ⟨hgrown, by omega⟩
    · rw [if_neg hinc]
      have hless : s.image.length < s.image.length + mingrow := by omega
      obtain hfail | ⟨t, hok, hgrown, hlen⟩ := resize_eq os hinit hless
      · rw [hfail]
        exact ensures_message
      · rw [hok]
        exact ensures_ok.mpr ⟨hgrown, by omega⟩

theorem ensures_ensureExtraSize (h : s.Sound) (mingrow : ℕ) :
    Ensures (s.ensureExtraSize os passOne mingrow) fun r =>
      Grown s r.1 ∧ (s.noInit = false → s.curIdx.toNat + mingrow ≤ r.1.image.length) := by
  unfold ensureExtraSize
  cases hinit : s.noInit with
  | true =>
    rw [if_pos rfl]
    exact ensures_ok.mpr ⟨Grown.refl s, nofun⟩
  | false =>
    have hle := h.curIdx_le hinit
    rw [if_neg Bool.false_ne_true]
    by_cases hroom : s.curIdx.toNat + mingrow ≤ s.image.length
    · rw [if_pos hroom]
      exact ensures_ok.mpr ⟨Grown.refl s, fun _ => hroom⟩
    · rw [if_neg hroom]
      cases passOne with
      | false => exact ensures_message
      | true =>
        rw [if_neg (by decide)]
        refine ensures_bind.mpr ?_
        refine (ensures_grow hinit (by omega) (Nat.lt_succ_self _)).imp fun t _ ht => ?_
        obtain ⟨hgrown, hlen⟩ := ht
        refine ensures_ok.mpr ⟨hgrown, fun _ => ?_⟩
        dsimp only
        omega

/-! ### What aligning does -/

theorem noInit_advance (s : AreaImage) (o : BitVec 32) : (s.advance o).noInit = s.noInit := by
  unfold advance
  split <;> rfl

theorem image_advance (s : AreaImage) (o : BitVec 32) : (s.advance o).image = s.image := by
  unfold advance
  split <;> rfl

theorem curIdx_advance (s : AreaImage) (o : BitVec 32) :
    (s.advance o).curIdx.toNat = max s.curIdx.toNat o.toNat := by
  unfold advance
  by_cases h : s.curIdx < o
  · rw [if_pos h]
    exact (Nat.max_eq_right (Nat.le_of_lt h)).symm
  · rw [if_neg h]
    exact (Nat.max_eq_left (Nat.le_of_not_lt h)).symm

/-- **The state behind padding up to `newOffset`**: zeros from the old index on, nothing else. -/
structure Padded (newOffset : ℕ) (s t : AreaImage) : Prop where
  noInit : t.noInit = s.noInit
  curIdx : t.curIdx.toNat = max s.curIdx.toNat newOffset
  sound : t.Sound
  zeros : s.noInit = false → ∀ p, s.curIdx.toNat ≤ p → p < newOffset → t.image[p]? = some 0
  kept : ∀ p < s.image.length, p < s.curIdx.toNat ∨ newOffset ≤ p → t.image[p]? = s.image[p]?
  length : s.image.length ≤ t.image.length

theorem ensures_padTo (h : s.Sound) {newOffset : BitVec 32} (hlt : s.curIdx < newOffset) :
    Ensures (s.padTo os passOne newOffset) fun r => Padded newOffset.toNat s (r.1.advance newOffset) := by
  have hlt' : s.curIdx.toNat < newOffset.toNat := hlt
  unfold padTo
  cases hinit : s.noInit with
  | true =>
    rw [if_pos rfl]
    refine ensures_ok.mpr ⟨noInit_advance s newOffset, curIdx_advance s newOffset, ⟨fun h => ?_⟩, ?_,
      fun p _ _ => ?_, ?_⟩
    · rw [noInit_advance, hinit] at h
      exact nomatch h
    · rw [hinit]
      nofun
    · rw [image_advance]
    · rw [image_advance]
  | false =>
    rw [if_neg Bool.false_ne_true]
    refine ensures_bind.mpr ((ensures_ensureExtraSize h _).imp fun r _ hr => ?_)
    obtain ⟨t, diags⟩ := r
    obtain ⟨hgrown, hroom⟩ := hr
    have hroom' := hroom hinit
    dsimp only at hroom' hgrown ⊢
    have hcur : t.curIdx = s.curIdx := hgrown.curIdx
    have hlen : t.curIdx.toNat + (List.replicate (newOffset.toNat - s.curIdx.toNat) (0 : UInt8)).length ≤
        t.image.length := by
      rw [List.length_replicate, hcur]
      exact hroom'
    rw [stores_eq hlen]
    refine ensures_ok.mpr ?_
    change Padded newOffset.toNat s (advance { t with image := patch t.image t.curIdx.toNat _ } newOffset)
    refine ⟨?_, ?_, ⟨fun _ => ?_⟩, fun _ p hp hlt => ?_, fun p hp hout => ?_, ?_⟩
    · rw [noInit_advance]
      exact hgrown.noInit
    · rw [curIdx_advance]
      dsimp only
      rw [hcur]
    · rw [curIdx_advance, image_advance]
      dsimp only
      rw [length_patch hlen, hcur]
      omega
    · rw [image_advance]
      obtain ⟨k, rfl⟩ := Nat.exists_eq_add_of_le hp
      dsimp only
      rw [← hcur] at hlt hlen ⊢
      rw [getElem?_patch_inside hlen (by rw [List.length_replicate]; omega), List.getElem?_replicate,
        if_pos (by omega)]
    · rw [image_advance]
      dsimp only
      rw [getElem?_patch_outside hlen (by rw [List.length_replicate, hcur]; omega)]
      exact hgrown.getElem? hp
    · rw [image_advance]
      dsimp only
      rw [length_patch hlen]
      exact hgrown.image.length_le

/-- **`Area_AlignOffset` pads up to the offset it gives**, or it gives up. -/
theorem ensures_alignOffset (h : s.Sound) (offset alignValue : BitVec 32) (msg : Option Name) :
    Ensures (s.alignOffset os passOne offset alignValue msg) fun r =>
      r.1.1 = (offset + alignValue - 1) &&& -alignValue ∧ Padded r.1.1.toNat s r.1.2 := by
  unfold alignOffset
  by_cases hvalue : alignValue = 0 ∨ alignValue &&& (alignValue - 1) ≠ 0
  · rw [if_pos hvalue]
    exact ensures_message
  · rw [if_neg hvalue]
    generalize hnew : (offset + alignValue - 1) &&& -alignValue = newOffset
    by_cases hlt : s.curIdx < newOffset
    · simp only [if_pos hlt]
      refine ensures_bind.mpr ((ensures_padTo h hlt).imp fun r _ hr => ?_)
      exact ensures_ok.mpr ⟨rfl, hr⟩
    · simp only [if_neg hlt]
      have hle : newOffset.toNat ≤ s.curIdx.toNat := Nat.le_of_not_lt hlt
      refine ensures_ok.mpr ⟨rfl, noInit_advance s newOffset, curIdx_advance s newOffset, ⟨fun hinit => ?_⟩,
        fun _ p hp hlt => absurd (Nat.lt_of_le_of_lt hp hlt) (by omega), fun p _ _ => ?_, ?_⟩
      · rw [curIdx_advance, image_advance, Nat.max_eq_left hle]
        exact h.curIdx_le (by rw [← hinit, noInit_advance])
      · rw [image_advance]
      · rw [image_advance]

/-! ### What writing does -/

theorem storeBytes_eq {image bytes : List UInt8} {i : BitVec 32} (hroom : i.toNat + bytes.length ≤ image.length)
    (hlt : i.toNat + bytes.length < 2 ^ 32) : storeBytes image i bytes = .ok (patch image i.toNat bytes) := by
  induction bytes generalizing image i with
  | nil => rw [patch_nil]; rfl
  | cons b bytes ih =>
    rw [List.length_cons] at hroom hlt
    have hnext : (i + 1).toNat = i.toNat + 1 := by
      rw [BitVec.toNat_add]
      exact Nat.mod_eq_of_lt (show i.toNat + 1 < 2 ^ 32 by omega)
    rw [storeBytes, store, if_pos (by omega)]
    refine (ih ?_ ?_).trans ?_
    · rw [List.length_set, hnext]
      omega
    · rw [hnext]
      omega
    · rw [hnext, patch_set_cons (by omega)]

/-- **The loop writes the bytes again and again**, up to the end. -/
theorem storeLoop_eq {image bytes : List UInt8} {i newOffset : BitVec 32} {n turns : ℕ}
    (hpos : 0 < bytes.length) (hend : i.toNat + bytes.length * n = newOffset.toNat)
    (hroom : newOffset.toNat ≤ image.length) (hturns : n < turns) :
    storeLoop bytes newOffset turns i image = .ok (patch image i.toNat (repeated n bytes)) := by
  induction n generalizing i image turns with
  | zero =>
    obtain ⟨turns, rfl⟩ : ∃ k, turns = k + 1 := ⟨turns - 1, by omega⟩
    have hi : i = newOffset := BitVec.eq_of_toNat_eq (by rw [← hend, Nat.mul_zero, Nat.add_zero])
    rw [storeLoop, if_pos hi, repeated_zero, patch_nil]
    rfl
  | succ n ih =>
    obtain ⟨turns, rfl⟩ : ∃ k, turns = k + 1 := ⟨turns - 1, by omega⟩
    rw [Nat.mul_succ] at hend
    have hlt := newOffset.isLt
    have hi : i ≠ newOffset := by
      rintro rfl
      omega
    have hnext : (i + BitVec.ofNat 32 bytes.length).toNat = i.toNat + bytes.length := by
      rw [BitVec.toNat_add, BitVec.toNat_ofNat, Nat.mod_eq_of_lt (show bytes.length < 2 ^ 32 by omega)]
      exact Nat.mod_eq_of_lt (by omega)
    rw [storeLoop, if_neg hi, storeBytes_eq (by omega) (by omega)]
    refine (ih ?_ ?_ (by omega)).trans ?_
    · rw [hnext]
      omega
    · rw [length_patch (by omega)]
      exact hroom
    · rw [hnext, patch_patch (by rw [length_repeated]; omega), repeated_succ]

theorem length_storeBytes {image image' bytes : List UInt8} {i : BitVec 32}
    (h : storeBytes image i bytes = .ok image') :
    image'.length = image.length := by
  induction bytes generalizing image i with
  | nil => rw [← Except.ok.inj h]
  | cons b bytes ih =>
    rw [storeBytes, store] at h
    split at h
    · exact (ih h).trans (List.length_set ..)
    · cases h

theorem length_storeLoop {image image' bytes : List UInt8} {i newOffset : BitVec 32} {turns : ℕ}
    (h : storeLoop bytes newOffset turns i image = .ok image') : image'.length = image.length := by
  induction turns generalizing image i with
  | zero => exact nomatch h
  | succ turns ih =>
    rw [storeLoop] at h
    split at h
    · rw [← Except.ok.inj h]
    · obtain ⟨image₁, h₁, h⟩ := CheckedRun.bind_eq_ok.mp h
      exact (ih h).trans (length_storeBytes h₁)

/-- **The state behind a write**: the bytes, `n` times from `start` on, and nothing else. -/
structure Stored (start n : ℕ) (bytes : List UInt8) (s t : AreaImage) : Prop where
  noInit : t.noInit = s.noInit
  curIdx : t.curIdx.toNat = max s.curIdx.toNat (start + bytes.length * n)
  sound : t.Sound
  written : s.noInit = false → ∀ k < n, ∀ j < bytes.length, t.image[start + bytes.length * k + j]? = bytes[j]?
  kept : ∀ p < s.image.length, p < start ∨ start + bytes.length * n ≤ p → t.image[p]? = s.image[p]?

theorem ensures_ensureUpTo (h : s.Sound) (hinit : s.noInit = false) (newOffset : BitVec 32) :
    Ensures (s.ensureUpTo os passOne newOffset) fun r =>
      Grown s r.1 ∧ max s.curIdx.toNat newOffset.toNat ≤ r.1.image.length := by
  unfold ensureUpTo
  by_cases hlt : s.curIdx < newOffset
  · have hlt' : s.curIdx.toNat < newOffset.toNat := hlt
    rw [if_pos hlt]
    refine (ensures_ensureExtraSize h _).imp fun r _ hr => ⟨hr.1, ?_⟩
    have := hr.2 hinit
    omega
  · have hle : newOffset.toNat ≤ s.curIdx.toNat := Nat.le_of_not_lt hlt
    rw [if_neg hlt, ensures_pure, Nat.max_eq_left hle]
    exact ⟨Grown.refl s, h.curIdx_le hinit⟩

theorem ensures_putDataWithOffset (h : s.Sound) {offset times : BitVec 32} {dataSize : ℕ} (dataValue : BitVec 64)
    (hfits : offset.toNat + dataSize * times.toNat < 2 ^ 32) :
    Ensures (s.putDataWithOffset os passOne offset dataSize dataValue times) fun r =>
      Stored offset.toNat times.toNat (dataBytes dataSize dataValue) s r.1 := by
  have hlen := length_dataBytes dataSize dataValue
  have hnew : (offset + BitVec.ofNat 32 dataSize * times).toNat = offset.toNat + dataSize * times.toNat := by
    rw [BitVec.toNat_add, BitVec.toNat_mul, BitVec.toNat_ofNat, Nat.mod_mul_mod, Nat.add_mod_mod]
    exact Nat.mod_eq_of_lt hfits
  unfold putDataWithOffset
  generalize offset + BitVec.ofNat 32 dataSize * times = newOffset at hnew ⊢
  dsimp only
  cases hinit : s.noInit with
  | true =>
    rw [if_pos rfl]
    refine ensures_ok.mpr ⟨noInit_advance s newOffset, ?_, ⟨fun h => ?_⟩, ?_, fun p _ _ => ?_⟩
    · rw [curIdx_advance, hnew, hlen]
    · rw [noInit_advance, hinit] at h
      exact nomatch h
    · rw [hinit]
      nofun
    · rw [image_advance]
  | false =>
    rw [if_neg Bool.false_ne_true]
    by_cases hsize : dataSize ∈ [1, 2, 4, 8]
    · rw [if_pos hsize]
      have hpos : 0 < dataSize := by
        simp only [List.mem_cons, List.not_mem_nil, or_false] at hsize
        omega
      refine ensures_bind.mpr ((ensures_ensureUpTo h hinit newOffset).imp fun r _ hr => ?_)
      obtain ⟨t, diags⟩ := r
      obtain ⟨hgrown, hle⟩ := hr
      dsimp only at hgrown hle ⊢
      have hcur : t.curIdx = s.curIdx := hgrown.curIdx
      have hpatch : offset.toNat + (repeated times.toNat (dataBytes dataSize dataValue)).length ≤
          t.image.length := by
        rw [length_repeated, hlen]
        omega
      have htimes : times.toNat ≤ dataSize * times.toNat := Nat.le_mul_of_pos_left _ hpos
      rw [storeLoop_eq (n := times.toNat) (by rw [hlen]; exact hpos) (by rw [hlen, hnew]) (by omega) (by omega)]
      refine ensures_ok.mpr ?_
      change Stored offset.toNat times.toNat (dataBytes dataSize dataValue) s
        (advance { t with image := patch t.image offset.toNat _ } newOffset)
      refine ⟨?_, ?_, ⟨fun _ => ?_⟩, fun _ k hk j hj => ?_, fun p hp hout => ?_⟩
      · rw [noInit_advance]
        exact hgrown.noInit
      · rw [curIdx_advance, hnew, hlen]
        dsimp only
        rw [hcur]
      · rw [curIdx_advance, image_advance]
        dsimp only
        rw [length_patch hpatch, hcur]
        exact hle
      · have hin : (dataBytes dataSize dataValue).length * k + j <
            (repeated times.toNat (dataBytes dataSize dataValue)).length := by
          rw [length_repeated]
          calc (dataBytes dataSize dataValue).length * k + j
              < (dataBytes dataSize dataValue).length * k + (dataBytes dataSize dataValue).length :=
                Nat.add_lt_add_left hj _
            _ = (dataBytes dataSize dataValue).length * (k + 1) := (Nat.mul_succ _ _).symm
            _ ≤ (dataBytes dataSize dataValue).length * times.toNat := Nat.mul_le_mul_left _ hk
        rw [image_advance, Nat.add_assoc]
        dsimp only
        rw [getElem?_patch_inside hpatch hin, getElem?_repeated hk hj]
      · rw [image_advance]
        dsimp only
        rw [getElem?_patch_outside hpatch (by rw [length_repeated]; exact hout)]
        exact hgrown.getElem? hp
    · rw [if_neg hsize]
      exact ensures_message

theorem sound_putDataWithOffset (h : s.Sound) {offset times : BitVec 32} {dataSize : ℕ} {dataValue : BitVec 64}
    {r : AreaImage × List Diag} (hr : s.putDataWithOffset os passOne offset dataSize dataValue times = .ok r) :
    r.1.Sound := by
  unfold putDataWithOffset at hr
  generalize offset + BitVec.ofNat 32 dataSize * times = newOffset at hr
  dsimp only at hr
  split at hr
  next hinit =>
    rw [← Except.ok.inj hr]
    refine ⟨fun hnot => ?_⟩
    rw [noInit_advance, hinit] at hnot
    exact nomatch hnot
  next hinit =>
    split at hr
    · obtain ⟨⟨t, diags⟩, ht, hr⟩ := CheckedRun.bind_eq_ok.mp hr
      obtain ⟨image, himage, hr⟩ := CheckedRun.bind_eq_ok.mp hr
      obtain ⟨hgrown, hle⟩ := (ensures_ensureUpTo h (Bool.eq_false_iff.mpr hinit) newOffset).post ht
      rw [← Except.ok.inj hr]
      refine ⟨fun _ => ?_⟩
      rw [curIdx_advance, image_advance]
      dsimp only at hgrown hle ⊢
      rw [length_storeLoop himage, hgrown.curIdx]
      exact hle
    · exact nomatch hr

/-! ### A call with its alignment -/

namespace PutCall

def Aligns (c : PutCall) : Prop := c.alignBefore = true ∧ (c.size = 2 ∨ c.size = 4)

instance (c : PutCall) : Decidable c.Aligns := inferInstanceAs (Decidable (_ ∧ _))

/-- **The aligned offset**, -/
def start (c : PutCall) : ℕ := if c.Aligns then alignUp c.offset.toNat c.size else c.offset.toNat

/-- the end of the write, -/
def stop (c : PutCall) : ℕ := c.start + c.size * c.times.toNat

/-- **and the condition**: the write ends below 2^32. -/
def Fits (c : PutCall) : Prop := c.stop < 2 ^ 32

instance (c : PutCall) : Decidable c.Fits := inferInstanceAs (Decidable (_ < _))

def bytes (c : PutCall) : List UInt8 := dataBytes c.size (c.data.setWidth 64)

theorem length_bytes (c : PutCall) : c.bytes.length = c.size := length_dataBytes c.size _

end PutCall

/-- **What a call is to do**: the value stands `times` times from the aligned offset on, the padding is zero, no
other byte of the image changes, and the index is the maximum of what it was and the end of the write. -/
structure PutEffect (c : PutCall) (s t : AreaImage) : Prop where
  noInit : t.noInit = s.noInit
  /-- The index, -/
  curIdx : t.curIdx.toNat = max s.curIdx.toNat c.stop
  /-- which is inside the image. -/
  sound : t.Sound
  written : s.noInit = false → ∀ k < c.times.toNat, ∀ j < c.size,
    t.image[c.start + c.size * k + j]? = c.bytes[j]?
  padding : s.noInit = false → c.Aligns → ∀ p, s.curIdx.toNat ≤ p → p < c.start → t.image[p]? = some 0
  kept : ∀ p < s.image.length, p < c.start ∨ c.stop ≤ p → (c.Aligns → p < s.curIdx.toNat ∨ c.start ≤ p) →
    t.image[p]? = s.image[p]?

theorem alignData_of_aligns (os : Realloc) (passOne : Bool) (s : AreaImage) (c : PutCall) (h : c.Aligns) : ∃ msg, s.alignData os passOne c =
    s.alignOffset os passOne c.offset (BitVec.ofNat 32 c.size) msg := by
  obtain ⟨hbefore, hsize⟩ := h
  unfold alignData
  by_cases htwo : c.size = 2
  · rw [if_pos ⟨hbefore, htwo⟩, htwo]
    exact ⟨_, rfl⟩
  · have hfour : c.size = 4 := hsize.resolve_left htwo
    rw [if_neg fun h => htwo h.2, if_pos ⟨hbefore, hfour⟩, hfour]
    exact ⟨_, rfl⟩

theorem alignData_of_not_aligns (c : PutCall) (h : ¬c.Aligns) :
    s.alignData os passOne c = .ok ((c.offset, s), []) := by
  unfold alignData
  rw [if_neg fun htwo => h ⟨htwo.1, Or.inl htwo.2⟩, if_neg fun hfour => h ⟨hfour.1, Or.inr hfour.2⟩]
  rfl

theorem toNat_roundUp {offset : BitVec 32} {size : ℕ} (hsize : size = 2 ∨ size = 4)
    (hlt : alignUp offset.toNat size < 2 ^ 32) :
    ((offset + BitVec.ofNat 32 size - 1) &&& -BitVec.ofNat 32 size).toNat = alignUp offset.toNat size := by
  have hoff := offset.isLt
  obtain rfl | rfl := hsize
  · have hmask : -BitVec.ofNat 32 2 = ~~~Address.mask 32 1 := rfl
    rw [hmask, Address.toNat_roundDown]
    unfold alignUp at hlt ⊢
    rw [BitVec.toNat_sub, BitVec.toNat_add, BitVec.toNat_ofNat]
    change (2 ^ 32 - 1 + (offset.toNat + 2 % 2 ^ 32) % 2 ^ 32) % 2 ^ 32 / 2 ^ 1 * 2 ^ 1 = _
    omega
  · have hmask : -BitVec.ofNat 32 4 = ~~~Address.mask 32 2 := rfl
    rw [hmask, Address.toNat_roundDown]
    unfold alignUp at hlt ⊢
    rw [BitVec.toNat_sub, BitVec.toNat_add, BitVec.toNat_ofNat]
    change (2 ^ 32 - 1 + (offset.toNat + 4 % 2 ^ 32) % 2 ^ 32) % 2 ^ 32 / 2 ^ 2 * 2 ^ 2 = _
    omega

variable {c : PutCall}

theorem PutEffect.of_padded {u : AreaImage} (halign : c.Aligns) (hpad : Padded c.start s t)
    (hstored : Stored c.start c.times.toNat c.bytes t u) : PutEffect c s u := by
  have hlen := c.length_bytes
  have hstop : c.start + c.bytes.length * c.times.toNat = c.stop := by rw [hlen]; rfl
  have hle : c.start ≤ c.stop := Nat.le_add_right _ _
  refine ⟨hstored.noInit.trans hpad.noInit, ?_, hstored.sound, fun hinit k hk j hj => ?_,
    fun hinit _ p hp hlt => ?_, fun p hp hout hold => ?_⟩
  · rw [hstored.curIdx, hpad.curIdx, hstop, Nat.max_assoc, Nat.max_eq_right hle]
  · rw [← hlen]
    exact hstored.written (hpad.noInit.trans hinit) k hk j (by rw [hlen]; exact hj)
  · have hzero := hpad.zeros hinit p hp hlt
    have hin : p < t.image.length := by
      by_contra hnot
      rw [List.getElem?_eq_none (Nat.le_of_not_lt hnot)] at hzero
      exact nomatch hzero
    rw [hstored.kept p hin (Or.inl hlt)]
    exact hzero
  · rw [hstored.kept p (Nat.lt_of_lt_of_le hp hpad.length) (hstop.symm ▸ hout)]
    exact hpad.kept p hp (hold halign)

theorem PutEffect.of_stored (halign : ¬c.Aligns)
    (hstored : Stored c.start c.times.toNat c.bytes s t) : PutEffect c s t := by
  have hlen := c.length_bytes
  have hstop : c.start + c.bytes.length * c.times.toNat = c.stop := by rw [hlen]; rfl
  refine ⟨hstored.noInit, hstop ▸ hstored.curIdx, hstored.sound, fun hinit k hk j hj => ?_,
    fun _ h => absurd h halign, fun p hp hout _ => hstored.kept p hp (hstop.symm ▸ hout)⟩
  rw [← hlen]
  exact hstored.written hinit k hk j (by rw [hlen]; exact hj)

/-- **A call that fits does what it is to do**, or it gives up. -/
theorem ensures_putAlignDataWithOffset (h : s.Sound) (hfits : c.Fits) :
    Ensures (s.putAlignDataWithOffset os passOne c) fun r => PutEffect c s r.1 := by
  have hstart : c.start + c.size * c.times.toNat < 2 ^ 32 := hfits
  unfold putAlignDataWithOffset
  by_cases halign : c.Aligns
  · have hup : c.start = alignUp c.offset.toNat c.size := if_pos halign
    obtain ⟨msg, hdata⟩ := alignData_of_aligns os passOne s c halign
    rw [hdata]
    refine ensures_bind.mpr ((ensures_alignOffset h _ _ _).imp fun r _ hr => ?_)
    obtain ⟨⟨offset, t⟩, diags⟩ := r
    obtain ⟨hoff, hpad⟩ := hr
    dsimp only at hoff hpad ⊢
    have hoffset : offset.toNat = c.start := by
      rw [hoff, hup]
      exact toNat_roundUp halign.2 (by omega)
    rw [hoffset] at hpad
    have hend : offset.toNat + c.size * c.times.toNat < 2 ^ 32 := by
      rw [hoffset]
      exact hstart
    refine ensures_bind.mpr ((ensures_putDataWithOffset hpad.sound _ hend).imp fun r _ hr => ?_)
    rw [hoffset] at hr
    exact ensures_ok.mpr (PutEffect.of_padded halign hpad hr)
  · have hoffset : c.start = c.offset.toNat := if_neg halign
    rw [alignData_of_not_aligns c halign, ok_bind]
    rw [hoffset] at hstart
    refine ensures_bind.mpr ((ensures_putDataWithOffset h _ hstart).imp fun r _ hr => ?_)
    rw [← hoffset] at hr
    exact ensures_ok.mpr (PutEffect.of_stored halign hr)

variable {r : AreaImage × List Diag}

theorem sound_putAlignDataWithOffset (h : s.Sound)
    (hr : s.putAlignDataWithOffset os passOne c = .ok r) : r.1.Sound := by
  obtain ⟨⟨⟨offset, t⟩, diags⟩, halign, hr⟩ := CheckedRun.bind_eq_ok.mp hr
  obtain ⟨u, hput, hr⟩ := CheckedRun.bind_eq_ok.mp hr
  have ht : t.Sound := by
    by_cases hc : c.Aligns
    · obtain ⟨msg, hdata⟩ := alignData_of_aligns os passOne s c hc
      rw [hdata] at halign
      exact ((ensures_alignOffset h _ _ _).post halign).2.sound
    · rw [alignData_of_not_aligns c hc] at halign
      have heq : s = t := congrArg (fun r => r.1.2) (Except.ok.inj halign)
      exact heq ▸ h
  rw [← Except.ok.inj hr]
  change u.1.Sound
  exact sound_putDataWithOffset ht hput

/-! ### Messages -/

theorem diags_ensureExtraSize {mingrow : ℕ}
    (h : s.ensureExtraSize os passOne mingrow = .ok r) : ∀ d ∈ r.2, d = noAreaDefined := by
  unfold ensureExtraSize at h
  split at h
  · rw [← Except.ok.inj h]
    nofun
  · split at h
    · rw [← Except.ok.inj h]
      nofun
    · split at h
      · exact nomatch h
      · obtain ⟨t, _, h⟩ := CheckedRun.bind_eq_ok.mp h
        rw [← Except.ok.inj h]
        intro d hd
        dsimp only at hd
        split at hd
        · exact List.mem_singleton.mp hd
        · exact nomatch hd

/-- The messages of an area with an image: warnings, and that it is not defined. -/
def Mild (diags : List Diag) : Prop := ∀ d ∈ diags, d.tag = .warning ∨ d = noAreaDefined

theorem Mild.nil : Mild [] := nofun

theorem Mild.append {l l' : List Diag} (h : Mild l) (h' : Mild l') : Mild (l ++ l') := by
  intro d hd
  rcases List.mem_append.mp hd with hd | hd
  · exact h d hd
  · exact h' d hd

theorem mild_unalignedWarning (offset alignValue : BitVec 32) (msg : Option Name) :
    Mild (unalignedWarning offset alignValue msg) := by
  intro d hd
  unfold unalignedWarning at hd
  cases msg with
  | none => exact nomatch hd
  | some msg =>
    dsimp only at hd
    split at hd
    · rw [List.mem_singleton.mp hd]
      exact Or.inl rfl
    · exact nomatch hd

theorem mild_alignOffset {offset alignValue : BitVec 32} {msg : Option Name} {r : (BitVec 32 × AreaImage) × List Diag}
    (h : s.alignOffset os passOne offset alignValue msg = .ok r) : Mild r.2 := by
  unfold alignOffset at h
  split at h
  · exact nomatch h
  · dsimp only at h
    split at h
    · obtain ⟨⟨t, diags⟩, ht, h⟩ := CheckedRun.bind_eq_ok.mp h
      rw [← Except.ok.inj h]
      refine (mild_unalignedWarning offset alignValue msg).append ?_
      unfold padTo at ht
      dsimp only at ht
      split at ht
      · rw [← (Prod.mk.inj (Except.ok.inj ht)).2]
        exact Mild.nil
      · obtain ⟨⟨u, diags₁⟩, hu, ht⟩ := CheckedRun.bind_eq_ok.mp ht
        obtain ⟨image, _, ht⟩ := CheckedRun.bind_eq_ok.mp ht
        rw [← (Prod.mk.inj (Except.ok.inj ht)).2]
        exact fun d hd => Or.inr (diags_ensureExtraSize hu d hd)
    · rw [← Except.ok.inj h]
      exact (mild_unalignedWarning offset alignValue msg).append Mild.nil

theorem mild_reportOverflow (size : ℕ) (value : BitVec 64) : Mild (reportOverflow size value) := by
  intro d hd
  unfold reportOverflow at hd
  split at hd
  · rw [List.mem_singleton.mp hd]
    exact Or.inl rfl
  · exact nomatch hd

theorem mild_putDataWithOffset (hinit : s.noInit = false) {offset times : BitVec 32} {dataSize : ℕ}
    {dataValue : BitVec 64}
    (h : s.putDataWithOffset os passOne offset dataSize dataValue times = .ok r) : Mild r.2 := by
  unfold putDataWithOffset at h
  dsimp only at h
  rw [if_neg (by rw [hinit]; exact Bool.false_ne_true)] at h
  split at h
  · obtain ⟨⟨t, diags⟩, ht, h⟩ := CheckedRun.bind_eq_ok.mp h
    obtain ⟨image, _, h⟩ := CheckedRun.bind_eq_ok.mp h
    rw [← Except.ok.inj h]
    refine (mild_reportOverflow _ _).append ?_
    unfold ensureUpTo at ht
    split at ht
    · exact fun d hd => Or.inr (diags_ensureExtraSize ht d hd)
    · rw [← (Prod.mk.inj (Except.ok.inj ht)).2]
      exact Mild.nil
  · exact nomatch h

theorem noInit_alignData (h : s.Sound) {r : (BitVec 32 × AreaImage) × List Diag}
    (hr : s.alignData os passOne c = .ok r) : r.1.2.noInit = s.noInit ∧ Mild r.2 := by
  by_cases hc : c.Aligns
  · obtain ⟨msg, hdata⟩ := alignData_of_aligns os passOne s c hc
    rw [hdata] at hr
    exact ⟨((ensures_alignOffset h _ _ _).post hr).2.noInit, mild_alignOffset hr⟩
  · rw [alignData_of_not_aligns c hc] at hr
    rw [← Except.ok.inj hr]
    exact ⟨rfl, Mild.nil⟩

theorem mild_putAlignDataWithOffset (h : s.Sound) (hinit : s.noInit = false)
    (hr : s.putAlignDataWithOffset os passOne c = .ok r) : Mild r.2 := by
  obtain ⟨⟨⟨offset, t⟩, diags⟩, halign, hr⟩ := CheckedRun.bind_eq_ok.mp hr
  obtain ⟨⟨u, diags₁⟩, hput, hr⟩ := CheckedRun.bind_eq_ok.mp hr
  obtain ⟨hsame, hmild⟩ := noInit_alignData h halign
  rw [← Except.ok.inj hr]
  exact hmild.append (mild_putDataWithOffset (hsame.trans hinit) hput)

/-- **In an area without image** a value other than zero is an error. -/
theorem nonZeroUninitialised_mem (h : s.Sound) (hinit : s.noInit = true)
    (hr : s.putAlignDataWithOffset os passOne c = .ok r) (hdata : c.data ≠ 0) : nonZeroUninitialised ∈ r.2 := by
  obtain ⟨⟨⟨offset, t⟩, diags⟩, halign, hr⟩ := CheckedRun.bind_eq_ok.mp hr
  obtain ⟨⟨u, diags₁⟩, hput, hr⟩ := CheckedRun.bind_eq_ok.mp hr
  have hsame : t.noInit = true := (noInit_alignData h halign).1.trans hinit
  have hne : c.data.setWidth 64 ≠ 0 := by
    intro h0
    refine hdata (BitVec.eq_of_toNat_eq ?_)
    have hnat := congrArg BitVec.toNat h0
    rw [BitVec.toNat_setWidth, Nat.mod_eq_of_lt (Nat.lt_trans c.data.isLt (by decide))] at hnat
    exact hnat
  rw [← Except.ok.inj hr]
  unfold putDataWithOffset at hput
  dsimp only at hput
  rw [if_pos hsame, if_neg hne] at hput
  rw [← (Prod.mk.inj (Except.ok.inj hput)).2]
  exact List.mem_append_right _ (List.mem_singleton.mpr rfl)

/-! ### Runs -/

/-- **The states of an area**: what the calls lead to from a new one, in any order. At the beginning of a pass the
index is set back. -/
inductive Reached : AreaImage → Prop
  | create (noInit implicit : Bool) : Reached (areaCreate noInit implicit)
  | put {s : AreaImage} {r : AreaImage × List Diag} (os : Realloc) (passOne : Bool) (c : PutCall) :
      Reached s → s.putAlignDataWithOffset os passOne c = .ok r → Reached r.1
  | align {s : AreaImage} {r : (BitVec 32 × AreaImage) × List Diag} (os : Realloc) (passOne : Bool)
      (offset alignValue : BitVec 32) (msg : Option Name) :
      Reached s → s.alignOffset os passOne offset alignValue msg = .ok r → Reached r.1.2
  | nextPass {s : AreaImage} : Reached s → Reached { s with curIdx := 0 }

/-- **In every state the index is inside the image.** -/
theorem Reached.sound (h : Reached s) : s.Sound := by
  induction h with
  | create noInit implicit => exact sound_areaCreate noInit implicit
  | put os passOne c _ hr ih => exact sound_putAlignDataWithOffset ih hr
  | align os passOne offset alignValue msg _ hr ih => exact ((ensures_alignOffset ih _ _ _).post hr).2.sound
  | nextPass _ _ => exact ⟨fun _ => Nat.zero_le _⟩

end AreaImage

/-- **Every put in every state**: the index is inside the image; and a call that does not give up writes what it is
to write, and nothing else, if and only if the write ends below 2^32. -/
theorem put_effect_iff {s : AreaImage} (hs : s.Reached) (os : Realloc) (passOne : Bool) (c : AreaImage.PutCall)
    (hreturns : s.putAlignDataWithOffset os passOne c ≠ .error .message) :
    (s.noInit = false → s.curIdx.toNat ≤ s.image.length) ∧
      (Ensures (s.putAlignDataWithOffset os passOne c) (fun r => AreaImage.PutEffect c s r.1) ↔ c.Fits) := by
  refine ⟨hs.sound.curIdx_le, fun h => ?_, AreaImage.ensures_putAlignDataWithOffset hs.sound⟩
  obtain hmessage | ⟨r, _, hr⟩ := h
  · exact absurd hmessage hreturns
  · -- the index is a number of 32 bits
    calc c.stop ≤ max s.curIdx.toNat c.stop := Nat.le_max_right _ _
      _ = r.1.curIdx.toNat := hr.curIdx.symm
      _ < 2 ^ 32 := r.1.curIdx.isLt

def reallocUpTo (limit : ℕ) : Realloc := ⟨fun _ new => new ≤ limit, fun _ _ => 0⟩

theorem put_effect_iff_word :
    let s : AreaImage := areaCreate false false
    let c : AreaImage.PutCall := ⟨0, 4, 0x01020304, 1, true⟩
    (s.noInit = false → s.curIdx.toNat ≤ s.image.length) ∧
      (Ensures (s.putAlignDataWithOffset (reallocUpTo 4) true c) (fun r => AreaImage.PutEffect c s r.1) ↔
        c.Fits) :=
  put_effect_iff (AreaImage.Reached.create false false) (reallocUpTo 4) true ⟨0, 4, 0x01020304, 1, true⟩
    (by decide)

/-- `FILL 0x40000000, 1, 4` writes nothing. -/
theorem not_put_effect :
    ¬ ∀ (s : AreaImage) (os : Realloc) (passOne : Bool) (c : AreaImage.PutCall), s.Reached →
      s.putAlignDataWithOffset os passOne c ≠ .error .message →
        Ensures (s.putAlignDataWithOffset os passOne c) fun r => AreaImage.PutEffect c s r.1 := by
  intro h
  have heffect := h (areaCreate false false) (reallocUpTo 4) true ⟨0, 4, 1, 0x40000000, false⟩
    (.create false false) (by decide)
  have hcur := (heffect.post (a := (areaCreate false false, [])) (by decide)).curIdx
  exact absurd hcur (by decide)

end Asasm
