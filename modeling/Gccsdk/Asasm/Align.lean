import Gccsdk.Asasm.DefineInt
import Mathlib.Order.Bounds.Basic

/-!
# ALIGN

`c_align` of `directive_data.c`, from its four arguments on: the distance to the next position that is congruent
to the offset modulo the alignment, and the bytes up to there. They are the bytes of the fill value over and over;
but where the area has the attribute CODEALIGN, no fill value is given and an instruction comes before, they are
instructions that do nothing.

The distance is always right (`isLeast_distance`, `toNat_alignNewPos_sub`), and so are the bytes of a fill value
(`fillLoop_eq`). The instructions are right where the index is a multiple of the instruction size and the distance
one of the fill size (`nopLoop_eq`); elsewhere an assertion fails, or the loop steps over its end
(`aligned_of_nopLoop`, `cAlign_right_iff`). Whatever happens, the index stays inside the image (`sound_cAlign`).
-/

namespace Asasm

open CheckedRun ListPatch AreaImage

/-! ### Arguments -/

inductive AlignArg
  | absent
  | unrecognized
  | value (v : BitVec 32)
  deriving DecidableEq, Repr

def alignError (text : String) : List Diag := [⟨.error, text, []⟩]

/-- What the current area and the state of the assembler have to do with ALIGN. -/
structure AlignEnv where
  isCode : Bool
  codeAlign : Bool
  /-- `Area_GetBaseAddress` for an area with AREA_ABS, and 0 else. -/
  base : BitVec 32
  /-- `Area_GetCurrentEntryType () == eData` -/
  afterData : Bool
  /-- `State_GetInstrType () == eInstrType_ARM` -/
  isARM : Bool
  hasNop : Bool

def alignValue : AlignArg → List Diag × BitVec 32
  | .absent => ([], 4)
  | .unrecognized => (alignError "Unrecognized ALIGN value", 4)
  | .value v =>
    if v ≠ 0 ∧ v &&& (v - 1) = 0 then ([], v) else (alignError "ALIGN value is not a power of two", 4)

def alignOffsetValue (align : BitVec 32) : AlignArg → List Diag × BitVec 32
  | .absent => ([], 0)
  | .unrecognized => (alignError "Unrecognized ALIGN offset value", 0)
  | .value v => ([], v % align)

def alignFillValue : AlignArg → List Diag × Option (BitVec 32)
  | .absent => ([], none)
  | .unrecognized => (alignError "Unrecognized ALIGN fill value", none)
  | .value v => ([], some v)

def getDefaultAlignValueSize (e : AlignEnv) : ℕ := if e.isCode then (if e.isARM then 4 else 2) else 1

def alignFillSize (e : AlignEnv) : AlignArg → List Diag × ℕ
  | .absent => ([], getDefaultAlignValueSize e)
  | .unrecognized => (alignError "Unrecognized ALIGN value size", getDefaultAlignValueSize e)
  | .value v =>
    if v = 1 ∨ v = 2 ∨ v = 4 then ([], v.toNat)
    else (alignError "ALIGN value size needs to be 1, 2 or 4", getDefaultAlignValueSize e)

structure AlignArgs where
  align : AlignArg
  offset : AlignArg
  fill : AlignArg
  size : AlignArg

namespace AlignArgs

variable (a : AlignArgs) (e : AlignEnv)

def alignment : BitVec 32 := (alignValue a.align).2

def offsetValue : BitVec 32 := (alignOffsetValue a.alignment a.offset).2

def fillProvided : Bool := (alignFillValue a.fill).2.isSome

def fillValue : BitVec 32 := (alignFillValue a.fill).2.getD 0

def fillSize : ℕ := (alignFillSize e a.size).2

def diags : List Diag :=
  (alignValue a.align).1 ++ (alignOffsetValue a.alignment a.offset).1 ++ (alignFillValue a.fill).1 ++
    (alignFillSize e a.size).1 ++
    if fixCheckForOverflow (a.fillSize e) a.fillValue then
      [⟨.warning, "Size value %d (= 0x%x) exceeds %d byte%s", [.int a.fillValue.toInt, .int a.fillValue.toNat,
        .int (a.fillSize e), .str (if a.fillSize e = 1 then [] else cstr "s")]⟩]
    else []

def padsWithNops : Bool :=
  e.codeAlign && !a.fillProvided && decide (a.offsetValue.toNat % a.fillSize e = 0) && !e.afterData

end AlignArgs

/-! ### Padding -/

/-- `Put_InsWithOffset` at the index, for an instruction of the state's own size. -/
def AreaImage.putIns (os : Realloc) (passOne isARM : Bool) (s : AreaImage) (ins : BitVec 32) :
    Run (AreaImage × List Diag) := do
  let ((offset, t), diags) ←
    s.alignOffset os passOne s.curIdx (if isARM then 4 else 2) (some (cstr "instruction"))
  let (u, diags₁) ← t.putDataWithOffset os passOne offset (if isARM then 4 else 2) (ins.setWidth 64) 1
  pure (u, diags ++ diags₁)

namespace AlignEnv

/-- The instruction that does nothing, -/
def nop (e : AlignEnv) : BitVec 32 :=
  if e.isARM then (if e.hasNop then 0xe320f000 else 0xE1A00000) else (if e.hasNop then 0xBF00 else 0x46c0)

/-- and its size. -/
def nopSize (e : AlignEnv) : ℕ := if e.isARM then 4 else 2

end AlignEnv

def nopLoop (os : Realloc) (passOne : Bool) (e : AlignEnv) (newPos : BitVec 32) :
    (turns : ℕ) → (curPos : BitVec 32) → AreaImage → Run (AreaImage × List Diag)
  | 0, _, _ => throw .endless
  | turns + 1, curPos, s =>
    if curPos = newPos then pure (s, [])
    else do
      let (t, diags) ← s.putIns os passOne e.isARM e.nop
      let (u, diags₁) ← nopLoop os passOne e newPos turns (curPos + BitVec.ofNat 32 e.nopSize) t
      pure (u, diags ++ diags₁)

def fillLoop (fillValue : BitVec 32) (fillSize : ℕ) (newPos : BitVec 32) :
    (turns : ℕ) → (curPos curFillValue : BitVec 32) → AreaImage → Run AreaImage
  | 0, _, _, _ => throw .endless
  | turns + 1, curPos, curFillValue, s =>
    if curPos = newPos then pure s
    else do
      let curFillValue := if curPos.toNat % fillSize = 0 then fillValue else curFillValue
      let image ← store s.image s.curIdx.toNat ⟨curFillValue.setWidth 8⟩
      fillLoop fillValue fillSize newPos turns (curPos + 1) (curFillValue >>> 8)
        { s with image := image, curIdx := s.curIdx + 1 }

/-- The position of the index, -/
def alignCurPos (e : AlignEnv) (s : AreaImage) : BitVec 32 := e.base + s.curIdx

/-- and the one to align to. -/
def alignNewPos (curPos align offset : BitVec 32) : BitVec 32 :=
  (curPos - offset + align - 1) / align * align + offset

/-- **`c_align`** from its arguments on. -/
def cAlign (os : Realloc) (passOne : Bool) (e : AlignEnv) (a : AlignArgs) (s : AreaImage) :
    Run (AreaImage × List Diag) := do
  let curPos := alignCurPos e s
  let newPos := alignNewPos curPos a.alignment a.offsetValue
  let bytesToStuff := newPos - curPos
  let (t, diags) ← s.ensureExtraSize os passOne bytesToStuff.toNat
  if a.padsWithNops e then do
    if bytesToStuff.toNat % a.fillSize e ≠ 0 then throw .message
    let (u, diags₁) ← nopLoop os passOne e newPos (2 ^ 32 + 1) curPos t
    pure (u, a.diags e ++ diags ++ diags₁)
  else do
    let curFillValue := a.fillValue >>> (8 * (curPos.toNat % a.fillSize e))
    if t.noInit then
      pure ({ t with curIdx := t.curIdx + bytesToStuff },
        a.diags e ++ diags ++ if curFillValue ≠ 0 then [nonZeroUninitialised] else [])
    else do
      let u ← fillLoop a.fillValue (a.fillSize e) newPos (2 ^ 32 + 1) curPos curFillValue t
      pure (u, a.diags e ++ diags)

/-! ### The distance -/

/-- **The distance to the next aligned position**, of numbers. -/
def alignDistance (curPos align offset : ℕ) : ℕ := (offset + (align - curPos % align)) % align

theorem alignDistance_of_le {c A o : ℕ} (ho : o < A) :
    alignDistance c A o = if c % A ≤ o then o - c % A else A + o - c % A := by
  have hc : c % A < A := Nat.mod_lt c (by omega)
  unfold alignDistance
  split
  · rw [show o + (A - c % A) = A + (o - c % A) by omega, Nat.add_mod_left]
    exact Nat.mod_eq_of_lt (by omega)
  · rw [show o + (A - c % A) = A + o - c % A by omega]
    exact Nat.mod_eq_of_lt (by omega)

/-- **It leads to the least position** that is not below the current one and congruent to the offset. -/
theorem isLeast_distance {c A o : ℕ} (ho : o < A) : IsLeast {n | (c + n) % A = o} (alignDistance c A o) := by
  have hc : c % A < A := Nat.mod_lt c (by omega)
  have hmod : ∀ n, (c + n) % A = (c % A + n) % A := fun n => (Nat.mod_add_mod c A n).symm
  rw [alignDistance_of_le ho]
  constructor
  · change (c + _) % A = o
    rw [hmod]
    split
    · rw [Nat.add_sub_cancel' (by assumption)]
      exact Nat.mod_eq_of_lt ho
    · rw [Nat.add_sub_cancel' (by omega), Nat.add_mod_left]
      exact Nat.mod_eq_of_lt ho
  · intro n hn
    change (c + n) % A = o at hn
    rw [hmod] at hn
    by_contra hlt
    split at hlt
    · rw [Nat.mod_eq_of_lt (by omega)] at hn
      omega
    · -- below the distance the sum stays below the alignment or does not reach the offset
      by_cases hsum : c % A + n < A
      · rw [Nat.mod_eq_of_lt hsum] at hn
        omega
      · rw [Nat.mod_eq_sub_mod (by omega), Nat.mod_eq_of_lt (by omega)] at hn
        omega

/-- **What the source computes in 32 bits is the distance.** -/
theorem toNat_alignNewPos_sub {curPos align offset : BitVec 32} {B : ℕ} (hdvd : align.toNat * B = 2 ^ 32)
    (ho : offset.toNat < align.toNat) :
    (alignNewPos curPos align offset - curPos).toNat = alignDistance curPos.toNat align.toNat offset.toNat := by
  have hclt := curPos.isLt
  have hAlt := align.isLt
  have hone : (1 : BitVec 32).toNat = 1 := rfl
  unfold alignNewPos
  generalize hX : curPos - offset + align - 1 = X
  have hXlt := X.isLt
  -- the number before the division, but for the wrap
  have hXval : ∃ q, X.toNat + 2 ^ 32 * q = curPos.toNat + (align.toNat - 1 - offset.toNat) := by
    rw [← hX, BitVec.toNat_sub, BitVec.toNat_add, BitVec.toNat_sub, hone]
    refine ⟨(curPos.toNat + (align.toNat - 1 - offset.toNat)) / 2 ^ 32, ?_⟩
    omega
  obtain ⟨q, hq⟩ := hXval
  have hrem : X.toNat % align.toNat =
      (curPos.toNat % align.toNat + (align.toNat - 1 - offset.toNat)) % align.toNat := by
    rw [Nat.mod_add_mod, ← hq, ← hdvd, Nat.mul_assoc, Nat.add_mul_mod_self_left]
  have hmul : (X / align * align).toNat = X.toNat - X.toNat % align.toNat := by
    have hdiv := Nat.div_add_mod X.toNat align.toNat
    rw [Nat.mul_comm] at hdiv
    rw [BitVec.toNat_mul, BitVec.toNat_udiv, Nat.mod_eq_of_lt (by omega)]
    omega
  have hXrem : X.toNat % align.toNat ≤ X.toNat := Nat.mod_le _ _
  have hc : curPos.toNat % align.toNat < align.toNat := Nat.mod_lt _ (by omega)
  rw [alignDistance_of_le ho, BitVec.toNat_sub, BitVec.toNat_add, hmul]
  by_cases hle : curPos.toNat % align.toNat ≤ offset.toNat
  · have hr : X.toNat % align.toNat = curPos.toNat % align.toNat + (align.toNat - 1 - offset.toNat) := by
      rw [hrem]
      exact Nat.mod_eq_of_lt (by omega)
    rw [if_pos hle]
    omega
  · have hr : X.toNat % align.toNat = curPos.toNat % align.toNat - 1 - offset.toNat := by
      rw [hrem, Nat.mod_eq_sub_mod (by omega), Nat.mod_eq_of_lt (by omega)]
      omega
    rw [if_neg hle]
    omega

theorem AlignArgs.alignment_spec (a : AlignArgs) : ∃ k, a.alignment.toNat = 2 ^ k ∧ k < 32 := by
  have hfour : ∃ k, (4 : BitVec 32).toNat = 2 ^ k ∧ k < 32 := ⟨2, rfl, by decide⟩
  unfold AlignArgs.alignment alignValue
  cases a.align with
  | absent => exact hfour
  | unrecognized => exact hfour
  | value v =>
    dsimp only
    split
    next h =>
      obtain ⟨hne, hand⟩ := h
      have hne' : v.toNat ≠ 0 := fun h0 => hne (BitVec.eq_of_toNat_eq h0)
      have hpred : (v - 1).toNat = v.toNat - 1 := by
        have hlt := v.isLt
        rw [BitVec.toNat_sub]
        change (2 ^ 32 - 1 + v.toNat) % 2 ^ 32 = v.toNat - 1
        omega
      have hnat : v.toNat &&& (v.toNat - 1) = 0 := by
        rw [← hpred, ← BitVec.toNat_and, hand]
        rfl
      obtain ⟨k, hk⟩ := (Nat.and_sub_one_eq_zero_iff_isPowerOfTwo hne').mp hnat
      refine ⟨k, hk, ?_⟩
      by_contra hge
      have hpow : 2 ^ 32 ≤ 2 ^ k := Nat.pow_le_pow_right (by decide) (Nat.le_of_not_lt hge)
      have hlt := v.isLt
      omega
    next => exact hfour

theorem AlignArgs.offsetValue_lt (a : AlignArgs) : a.offsetValue.toNat < a.alignment.toNat := by
  obtain ⟨k, hk, -⟩ := a.alignment_spec
  have hpos : 0 < a.alignment.toNat := by
    rw [hk]
    exact Nat.two_pow_pos k
  unfold AlignArgs.offsetValue alignOffsetValue
  cases a.offset with
  | absent => exact hpos
  | unrecognized => exact hpos
  | value v => exact (BitVec.toNat_umod ..).symm ▸ Nat.mod_lt _ hpos

theorem AlignArgs.fillSize_spec (a : AlignArgs) (e : AlignEnv) :
    a.fillSize e = 1 ∨ a.fillSize e = 2 ∨ a.fillSize e = 4 := by
  have hdefault : getDefaultAlignValueSize e = 1 ∨ getDefaultAlignValueSize e = 2 ∨
      getDefaultAlignValueSize e = 4 := by
    unfold getDefaultAlignValueSize
    cases e.isCode <;> cases e.isARM <;> simp
  unfold AlignArgs.fillSize alignFillSize
  cases a.size with
  | absent => exact hdefault
  | unrecognized => exact hdefault
  | value v =>
    dsimp only
    split
    next h =>
      obtain rfl | rfl | rfl := h
      · exact Or.inl rfl
      · exact Or.inr (Or.inl rfl)
      · exact Or.inr (Or.inr rfl)
    next => exact hdefault

/-! ### Memory -/

/-- **There is memory for more bytes**: there is no image, or it has them, or it may grow and does. -/
def HasMemory (os : Realloc) (passOne : Bool) (s : AreaImage) (n : ℕ) : Prop :=
  s.noInit = true ∨ s.curIdx.toNat + n ≤ s.image.length ∨
    (passOne = true ∧ ∀ old new, os.succeeds old new = true)

variable {os : Realloc} {passOne : Bool} {s : AreaImage}

theorem exists_ensureExtraSize (hs : s.Sound) {n : ℕ} (hmem : HasMemory os passOne s n) :
    ∃ r, s.ensureExtraSize os passOne n = .ok r ∧ Grown s r.1 ∧
      (s.noInit = false → s.curIdx.toNat + n ≤ r.1.image.length) := by
  have hensures : Ensures (s.ensureExtraSize os passOne n) _ := ensures_ensureExtraSize hs n
  obtain hmessage | hok := hensures
  · exfalso
    unfold ensureExtraSize at hmessage
    by_cases hnone : s.noInit = true
    · rw [if_pos hnone] at hmessage
      cases hmessage
    have hinit : s.noInit = false := Bool.eq_false_iff.mpr hnone
    rw [if_neg hnone] at hmessage
    by_cases hfits : s.curIdx.toNat + n ≤ s.image.length
    · rw [if_pos hfits] at hmessage
      cases hmessage
    · obtain ⟨rfl, hsucceeds⟩ := (hmem.resolve_left hnone).resolve_left hfits
      have hle := hs.curIdx_le hinit
      have hresize : ∀ newsize, s.image.length < newsize → ∃ t, s.resize os newsize = .ok (some t) := by
        intro newsize hlt
        unfold resize
        rw [if_neg (by rw [hinit]; simp; omega), if_pos (hsucceeds _ _)]
        exact ⟨_, rfl⟩
      have hgrow : ∀ inc, ∃ t, s.grow os n (inc + 1) inc = .ok t := by
        intro inc
        unfold grow
        by_cases hinc : n < inc
        · obtain ⟨t, ht⟩ := hresize (s.image.length + inc) (by omega)
          rw [if_pos hinc, ht]
          exact ⟨t, rfl⟩
        · obtain ⟨t, ht⟩ := hresize (s.image.length + n) (by omega)
          rw [if_neg hinc, ht]
          exact ⟨t, rfl⟩
      obtain ⟨t, ht⟩ := hgrow (firstInc s.image.length n)
      rw [if_neg hfits, if_neg (by decide)] at hmessage
      dsimp only at hmessage
      rw [ht] at hmessage
      cases hmessage
  · exact hok

/-! ### The bytes of a fill value -/

/-- **The byte at a position.** -/
def padByte (fillValue : BitVec 32) (fillSize p : ℕ) : UInt8 :=
  ⟨(fillValue >>> (8 * (p % fillSize))).setWidth 8⟩

def padBytes (fillValue : BitVec 32) (fillSize p n : ℕ) : List UInt8 :=
  (List.range n).map fun k => padByte fillValue fillSize (p + k)

theorem length_padBytes (fillValue : BitVec 32) (fillSize p n : ℕ) :
    (padBytes fillValue fillSize p n).length = n := by
  unfold padBytes
  rw [List.length_map, List.length_range]

theorem padBytes_succ (fillValue : BitVec 32) (fillSize p n : ℕ) :
    padBytes fillValue fillSize p (n + 1) =
      padByte fillValue fillSize p :: padBytes fillValue fillSize (p + 1) n := by
  unfold padBytes
  rw [List.range_succ_eq_map, List.map_cons, List.map_map]
  refine congrArg₂ List.cons rfl (List.map_congr_left fun k _ => ?_)
  change padByte fillValue fillSize (p + (k + 1)) = _
  rw [Nat.add_comm k 1, ← Nat.add_assoc]

variable {fillValue : BitVec 32}

theorem padBytes_congr {fillSize p q : ℕ} (h : p % fillSize = q % fillSize) (n : ℕ) :
    padBytes fillValue fillSize p n = padBytes fillValue fillSize q n := by
  refine List.map_congr_left fun k _ => ?_
  unfold padByte
  rw [Nat.add_mod p, h, ← Nat.add_mod]

/-- **The loop writes the bytes of the fill value**, each at its position. -/
theorem fillLoop_eq {fillSize : ℕ} (hsize : fillSize = 1 ∨ fillSize = 2 ∨ fillSize = 4)
    {n turns : ℕ} {curPos newPos curFillValue : BitVec 32} (hend : newPos = curPos + BitVec.ofNat 32 n)
    (hturns : n < turns) (hroom : s.curIdx.toNat + n ≤ s.image.length) (hlt : s.curIdx.toNat + n < 2 ^ 32)
    (hfill : curPos.toNat % fillSize ≠ 0 → curFillValue = fillValue >>> (8 * (curPos.toNat % fillSize))) :
    fillLoop fillValue fillSize newPos turns curPos curFillValue s =
      .ok { s with
        image := patch s.image s.curIdx.toNat (padBytes fillValue fillSize curPos.toNat n)
        curIdx := s.curIdx + BitVec.ofNat 32 n } := by
  induction n generalizing turns curPos curFillValue s with
  | zero =>
    obtain ⟨turns, rfl⟩ : ∃ k, turns = k + 1 := ⟨turns - 1, by omega⟩
    have hpos : curPos = newPos := (hend.trans (BitVec.add_zero curPos)).symm
    rw [fillLoop, if_pos hpos]
    change Except.ok s = _
    rw [show padBytes fillValue fillSize curPos.toNat 0 = [] from rfl, patch_nil]
    exact congrArg Except.ok (congrArg (fun c => { s with curIdx := c }) (BitVec.add_zero s.curIdx).symm)
  | succ n ih =>
    obtain ⟨turns, rfl⟩ : ∃ k, turns = k + 1 := ⟨turns - 1, by omega⟩
    have hofNat : (BitVec.ofNat 32 (n + 1)).toNat = n + 1 := by
      rw [BitVec.toNat_ofNat]
      exact Nat.mod_eq_of_lt (by omega)
    have hpos : curPos ≠ newPos := by
      intro h
      have hnat := congrArg BitVec.toNat (h.trans hend)
      rw [BitVec.toNat_add, hofNat] at hnat
      have := curPos.isLt
      omega
    have hnextIdx : (s.curIdx + 1).toNat = s.curIdx.toNat + 1 := by
      rw [BitVec.toNat_add]
      exact Nat.mod_eq_of_lt (show s.curIdx.toNat + 1 < 2 ^ 32 by omega)
    have hnextPos : (curPos + 1).toNat % fillSize = (curPos.toNat + 1) % fillSize := by
      rw [BitVec.toNat_add]
      change (curPos.toNat + 1) % 2 ^ 32 % fillSize = _
      obtain rfl | rfl | rfl := hsize <;> omega
    -- what is written is the fill value from the byte of this position on
    have hcur : (if curPos.toNat % fillSize = 0 then fillValue else curFillValue) =
        fillValue >>> (8 * (curPos.toNat % fillSize)) := by
      by_cases h0 : curPos.toNat % fillSize = 0
      · rw [if_pos h0, h0, Nat.mul_zero, BitVec.ushiftRight_zero]
      · rw [if_neg h0]
        exact hfill h0
    have hofNat_succ : ∀ x : BitVec 32, x + 1 + BitVec.ofNat 32 n = x + BitVec.ofNat 32 (n + 1) := by
      intro x
      rw [BitVec.add_assoc, Nat.add_comm n 1, BitVec.ofNat_add]
      rfl
    rw [fillLoop, if_neg hpos, hcur]
    dsimp only
    rw [store, if_pos (by omega)]
    refine (ih ?_ (by omega) ?_ ?_ ?_).trans ?_
    · rw [hend, hofNat_succ]
    · dsimp only
      rw [List.length_set, hnextIdx]
      omega
    · dsimp only
      rw [hnextIdx]
      omega
    · intro hne
      rw [hnextPos] at hne ⊢
      have hstep : (curPos.toNat + 1) % fillSize = curPos.toNat % fillSize + 1 := by
        obtain rfl | rfl | rfl := hsize <;> omega
      rw [hstep, ← BitVec.shiftRight_add]
      rfl
    · dsimp only
      rw [hnextIdx, patch_set_cons (by omega), hofNat_succ, padBytes_congr hnextPos, padBytes_succ]
      rfl

/-! ### Instructions -/

theorem AlignEnv.nopSize_spec (e : AlignEnv) : e.nopSize = 2 ∨ e.nopSize = 4 := by
  unfold nopSize
  cases e.isARM with
  | false => exact Or.inl rfl
  | true => exact Or.inr rfl

theorem putIns_eq_do (os : Realloc) (passOne : Bool) (e : AlignEnv) (s : AreaImage) (ins : BitVec 32) :
    s.putIns os passOne e.isARM ins = (do
      let r ← s.alignOffset os passOne s.curIdx (BitVec.ofNat 32 e.nopSize) (some (cstr "instruction"))
      let r₁ ← r.1.2.putDataWithOffset os passOne r.1.1 e.nopSize (ins.setWidth 64) 1
      pure (r₁.1, r.2 ++ r₁.2)) := by
  unfold AlignEnv.nopSize AreaImage.putIns
  cases e.isARM <;> rfl

/-- **An index that is a multiple of the size** stays where it is. -/
theorem alignOffset_self (os : Realloc) (passOne : Bool) (msg : Option Name) {size : ℕ}
    (hsize : size = 2 ∨ size = 4) (haligned : s.curIdx.toNat % size = 0) :
    ∃ diags, s.alignOffset os passOne s.curIdx (BitVec.ofNat 32 size) msg = .ok ((s.curIdx, s), diags) := by
  have hup : alignUp s.curIdx.toNat size = s.curIdx.toNat :=
    alignUp_of_dvd (by omega) (Nat.dvd_of_mod_eq_zero haligned)
  have hround : (s.curIdx + BitVec.ofNat 32 size - 1) &&& -BitVec.ofNat 32 size = s.curIdx :=
    BitVec.eq_of_toNat_eq ((toNat_roundUp hsize (hup.symm ▸ s.curIdx.isLt)).trans hup)
  have hvalue : ¬(BitVec.ofNat 32 size = 0 ∨ BitVec.ofNat 32 size &&& (BitVec.ofNat 32 size - 1) ≠ 0) := by
    obtain rfl | rfl := hsize <;> decide
  have hstay : ¬s.curIdx < s.curIdx := Nat.lt_irrefl s.curIdx.toNat
  unfold alignOffset advance
  rw [if_neg hvalue, hround]
  simp only [if_neg hstay]
  rw [show (pure (s, []) : Run (AreaImage × List Diag)) = .ok (s, []) from rfl, ok_bind]
  simp only [if_neg hstay]
  exact ⟨_, rfl⟩

def AreaImage.appended (s : AreaImage) (bytes : List UInt8) : AreaImage :=
  { s with
    image := if s.noInit then s.image else patch s.image s.curIdx.toNat bytes
    curIdx := s.curIdx + BitVec.ofNat 32 bytes.length }

theorem appended_nil (s : AreaImage) : s.appended [] = s := by
  unfold AreaImage.appended
  rw [patch_nil, ite_self]
  exact congrArg (fun c => { s with curIdx := c }) (BitVec.add_zero s.curIdx)

theorem curIdx_appended {bytes : List UInt8} (hlt : s.curIdx.toNat + bytes.length < 2 ^ 32) :
    (s.appended bytes).curIdx.toNat = s.curIdx.toNat + bytes.length := by
  change (s.curIdx + BitVec.ofNat 32 bytes.length).toNat = _
  rw [BitVec.toNat_add, BitVec.toNat_ofNat, Nat.add_mod_mod]
  exact Nat.mod_eq_of_lt hlt

theorem length_appended {bytes : List UInt8}
    (hroom : s.noInit = false → s.curIdx.toNat + bytes.length ≤ s.image.length) :
    (s.appended bytes).image.length = s.image.length := by
  unfold AreaImage.appended
  dsimp only
  split
  next => rfl
  next hinit => exact length_patch (hroom (Bool.eq_false_iff.mpr hinit))

theorem appended_append {bytes more : List UInt8} (hlt : s.curIdx.toNat + bytes.length < 2 ^ 32)
    (hroom : s.noInit = false → s.curIdx.toNat + bytes.length + more.length ≤ s.image.length) :
    (s.appended bytes).appended more = s.appended (bytes ++ more) := by
  have hidx := curIdx_appended hlt
  have hcur : (s.appended bytes).curIdx + BitVec.ofNat 32 more.length =
      s.curIdx + BitVec.ofNat 32 (bytes ++ more).length := by
    rw [List.length_append, BitVec.ofNat_add, ← BitVec.add_assoc]
    rfl
  have himage : ((s.appended bytes).appended more).image = (s.appended (bytes ++ more)).image := by
    change (if s.noInit then (s.appended bytes).image
        else patch (s.appended bytes).image (s.appended bytes).curIdx.toNat more) =
      if s.noInit then s.image else patch s.image s.curIdx.toNat (bytes ++ more)
    rw [hidx]
    unfold AreaImage.appended
    dsimp only
    cases hinit : s.noInit with
    | true => rfl
    | false =>
      rw [if_neg Bool.false_ne_true, if_neg Bool.false_ne_true, if_neg Bool.false_ne_true]
      exact patch_patch (hroom hinit)
  exact congrArg₂ (AreaImage.mk s.noInit s.implicit) himage hcur

theorem putIns_eq (os : Realloc) (passOne : Bool) (e : AlignEnv) (ins : BitVec 32)
    (haligned : s.curIdx.toNat % e.nopSize = 0)
    (hroom : s.noInit = false → s.curIdx.toNat + e.nopSize ≤ s.image.length)
    (hlt : s.curIdx.toNat + e.nopSize < 2 ^ 32) :
    ∃ diags, s.putIns os passOne e.isARM ins =
      .ok (s.appended (dataBytes e.nopSize (ins.setWidth 64)), diags) := by
  have hsize := e.nopSize_spec
  generalize hbytes : dataBytes e.nopSize (ins.setWidth 64) = bytes
  have hlen : bytes.length = e.nopSize := hbytes ▸ length_dataBytes e.nopSize _
  obtain ⟨diags, halign⟩ := alignOffset_self os passOne (some (cstr "instruction")) hsize haligned
  have hmul : BitVec.ofNat 32 e.nopSize * 1 = BitVec.ofNat 32 e.nopSize := BitVec.mul_one _
  have hnew : (s.curIdx + BitVec.ofNat 32 e.nopSize * 1).toNat = s.curIdx.toNat + e.nopSize := by
    rw [hmul, BitVec.toNat_add, BitVec.toNat_ofNat, Nat.add_mod_mod]
    exact Nat.mod_eq_of_lt hlt
  have hless : s.curIdx < s.curIdx + BitVec.ofNat 32 e.nopSize * 1 := by
    change s.curIdx.toNat < _
    rw [hnew]
    omega
  rw [putIns_eq_do, halign, ok_bind]
  dsimp only
  unfold AreaImage.putDataWithOffset
  cases hinit : s.noInit with
  | true =>
    rw [if_pos rfl]
    refine ⟨diags ++ (if ins.setWidth 64 = 0 then [] else [nonZeroUninitialised]), ?_⟩
    unfold advance AreaImage.appended
    rw [if_pos hless, hmul, hlen, hinit]
    rfl
  | false =>
    have hmem : e.nopSize ∈ [1, 2, 4, 8] := by
      obtain h | h := hsize <;> rw [h] <;> decide
    have hupto : s.ensureUpTo os passOne (s.curIdx + BitVec.ofNat 32 e.nopSize * 1) = .ok (s, []) := by
      unfold ensureUpTo ensureExtraSize
      have hroom' := hroom hinit
      rw [if_pos hless, if_neg (by rw [hinit]; exact Bool.false_ne_true), if_pos (by omega)]
      rfl
    have hloop : storeLoop bytes (s.curIdx + BitVec.ofNat 32 e.nopSize * 1) (2 ^ 32 + 1) s.curIdx s.image =
        .ok (patch s.image s.curIdx.toNat (repeated 1 bytes)) :=
      storeLoop_eq (by omega) (by rw [hlen, hnew, Nat.mul_one]) (by rw [hnew]; exact hroom hinit) (by omega)
    have hone : repeated 1 bytes = bytes := List.append_nil bytes
    rw [if_neg Bool.false_ne_true, if_pos hmem, hupto, ok_bind]
    dsimp only
    rw [hbytes, hloop, hone, ok_bind]
    refine ⟨diags ++ (reportOverflow e.nopSize (ins.setWidth 64) ++ []), ?_⟩
    unfold advance AreaImage.appended
    dsimp only
    rw [if_pos hless, hmul, hlen, hinit]
    rfl

/-- **Instructions from a multiple of their size on.** -/
theorem nopLoop_eq (os : Realloc) (passOne : Bool) (e : AlignEnv) {k turns : ℕ} {curPos newPos : BitVec 32}
    (haligned : s.curIdx.toNat % e.nopSize = 0) (hend : newPos = curPos + BitVec.ofNat 32 (e.nopSize * k))
    (hturns : k < turns) (hroom : s.noInit = false → s.curIdx.toNat + e.nopSize * k ≤ s.image.length)
    (hlt : s.curIdx.toNat + e.nopSize * k < 2 ^ 32) :
    ∃ diags, nopLoop os passOne e newPos turns curPos s =
      .ok (s.appended (repeated k (dataBytes e.nopSize (e.nop.setWidth 64))), diags) := by
  have hsize := e.nopSize_spec
  generalize hbytes : dataBytes e.nopSize (e.nop.setWidth 64) = bytes
  have hlen : bytes.length = e.nopSize := hbytes ▸ length_dataBytes e.nopSize _
  induction k generalizing turns curPos s with
  | zero =>
    obtain ⟨turns, rfl⟩ : ∃ k, turns = k + 1 := ⟨turns - 1, by omega⟩
    have hpos : curPos = newPos := (hend.trans (BitVec.add_zero curPos)).symm
    rw [nopLoop, if_pos hpos, repeated_zero, appended_nil]
    exact ⟨[], rfl⟩
  | succ k ih =>
    obtain ⟨turns, rfl⟩ : ∃ k, turns = k + 1 := ⟨turns - 1, by omega⟩
    rw [Nat.mul_succ] at hend hroom hlt
    have hpos : curPos ≠ newPos := by
      intro h
      have hnat := congrArg BitVec.toNat (h.trans hend)
      rw [BitVec.toNat_add, BitVec.toNat_ofNat] at hnat
      have := curPos.isLt
      omega
    have hroom₁ : s.noInit = false → s.curIdx.toNat + e.nopSize ≤ s.image.length := by
      intro hinit
      have := hroom hinit
      omega
    obtain ⟨diags, hput⟩ := putIns_eq os passOne e e.nop haligned hroom₁ (by omega)
    rw [hbytes] at hput
    rw [← hlen] at hroom₁
    have hidx : (s.appended bytes).curIdx.toNat = s.curIdx.toNat + e.nopSize := by
      rw [curIdx_appended (by omega), hlen]
    have hstep : newPos = curPos + BitVec.ofNat 32 e.nopSize + BitVec.ofNat 32 (e.nopSize * k) := by
      rw [hend, BitVec.add_assoc, ← BitVec.ofNat_add, Nat.add_comm e.nopSize]
    obtain ⟨diags₁, hrest⟩ := ih (s := s.appended bytes) (by rw [hidx, Nat.add_mod_right]; exact haligned) hstep
      (Nat.lt_of_succ_lt_succ hturns)
      (fun hinit => by
        have := hroom hinit
        rw [hidx, length_appended hroom₁]
        omega)
      (by rw [hidx]; omega)
    have hroom₂ : s.noInit = false →
        s.curIdx.toNat + bytes.length + (repeated k bytes).length ≤ s.image.length := by
      intro hinit
      have := hroom hinit
      rw [length_repeated, hlen]
      omega
    rw [nopLoop, if_neg hpos, hput, ok_bind]
    dsimp only
    rw [hrest, repeated_succ, appended_append (by omega) hroom₂]
    exact ⟨diags ++ diags₁, rfl⟩

/-! ### Where the loop of instructions leads -/

variable {r : AreaImage × List Diag}

/-- **The index behind a write** is the maximum of what it was and the end of the write. -/
theorem curIdx_putDataWithOffset (hs : s.Sound) {offset times : BitVec 32} {dataSize : ℕ} {dataValue : BitVec 64}
    (hr : s.putDataWithOffset os passOne offset dataSize dataValue times = .ok r) :
    r.1.curIdx.toNat = max s.curIdx.toNat (offset + BitVec.ofNat 32 dataSize * times).toNat := by
  unfold AreaImage.putDataWithOffset at hr
  generalize offset + BitVec.ofNat 32 dataSize * times = newOffset at hr ⊢
  dsimp only at hr
  split at hr
  next =>
    rw [← Except.ok.inj hr]
    exact curIdx_advance s newOffset
  next hinit =>
    split at hr
    · obtain ⟨⟨t, diags⟩, ht, hr⟩ := CheckedRun.bind_eq_ok.mp hr
      obtain ⟨image, -, hr⟩ := CheckedRun.bind_eq_ok.mp hr
      obtain ⟨hgrown, -⟩ := (ensures_ensureUpTo hs (Bool.eq_false_iff.mpr hinit) newOffset).post ht
      rw [← Except.ok.inj hr, curIdx_advance]
      exact congrArg (fun c : BitVec 32 => max c.toNat newOffset.toNat) hgrown.curIdx
    · exact nomatch hr

theorem alignUp_spec (offset : ℕ) {size : ℕ} (hsize : size = 2 ∨ size = 4) :
    offset ≤ alignUp offset size ∧ alignUp offset size < offset + size ∧ alignUp offset size % size = 0 := by
  unfold alignUp
  obtain rfl | rfl := hsize <;> omega

variable {e : AlignEnv}

/-- **Behind an instruction the index is a multiple of the size.** -/
theorem aligned_putIns (hs : s.Sound) {ins : BitVec 32}
    (hup : alignUp s.curIdx.toNat e.nopSize < 2 ^ 32) (hr : s.putIns os passOne e.isARM ins = .ok r) :
    r.1.Sound ∧ r.1.curIdx.toNat % e.nopSize = 0 := by
  have hsize := e.nopSize_spec
  obtain ⟨hle, -, hmod⟩ := alignUp_spec s.curIdx.toNat hsize
  rw [putIns_eq_do] at hr
  obtain ⟨⟨⟨offset, t⟩, diags⟩, halign, hr⟩ := CheckedRun.bind_eq_ok.mp hr
  obtain ⟨⟨u, diags₁⟩, hput, hr⟩ := CheckedRun.bind_eq_ok.mp hr
  obtain ⟨hoffset, hpad⟩ := (ensures_alignOffset hs _ _ _).post halign
  dsimp only at hoffset hpad hput hr
  rw [← Except.ok.inj hr]
  have hoff : offset.toNat = alignUp s.curIdx.toNat e.nopSize := by
    rw [hoffset]
    exact toNat_roundUp hsize hup
  have hmul : BitVec.ofNat 32 e.nopSize * 1 = BitVec.ofNat 32 e.nopSize := BitVec.mul_one _
  have hidx : u.curIdx.toNat = max t.curIdx.toNat (offset + BitVec.ofNat 32 e.nopSize * 1).toNat :=
    curIdx_putDataWithOffset hpad.sound hput
  have hsound : u.Sound := sound_putDataWithOffset hpad.sound hput
  refine ⟨hsound, ?_⟩
  change u.curIdx.toNat % e.nopSize = 0
  rw [hidx, hpad.curIdx, hoff, hmul, BitVec.toNat_add, BitVec.toNat_ofNat, hoff, Nat.max_eq_right hle]
  rcases Nat.le_total (alignUp s.curIdx.toNat e.nopSize)
    ((alignUp s.curIdx.toNat e.nopSize + e.nopSize % 2 ^ 32) % 2 ^ 32) with h | h
  · rw [Nat.max_eq_right h]
    obtain hs | hs := hsize <;> rw [hs] at hmod ⊢ <;> omega
  · rw [Nat.max_eq_left h]
    exact hmod

variable {newPos curPos : BitVec 32}

theorem aligned_nopLoop (hs : s.Sound) {turns : ℕ} (haligned : s.curIdx.toNat % e.nopSize = 0)
    (hr : nopLoop os passOne e newPos turns curPos s = .ok r) : r.1.curIdx.toNat % e.nopSize = 0 := by
  induction turns generalizing s curPos r with
  | zero => exact nomatch hr
  | succ turns ih =>
    rw [nopLoop] at hr
    split at hr
    · rw [← Except.ok.inj hr]
      exact haligned
    · obtain ⟨⟨t, diags⟩, hput, hr⟩ := CheckedRun.bind_eq_ok.mp hr
      obtain ⟨⟨u, diags₁⟩, hrest, hr⟩ := CheckedRun.bind_eq_ok.mp hr
      have hpos : 0 < e.nopSize := by
        have := e.nopSize_spec
        omega
      have hup : alignUp s.curIdx.toNat e.nopSize = s.curIdx.toNat :=
        alignUp_of_dvd hpos (Nat.dvd_of_mod_eq_zero haligned)
      obtain ⟨hsound, hnext⟩ := aligned_putIns hs (hup.symm ▸ s.curIdx.isLt) hput
      have hlast : u.curIdx.toNat % e.nopSize = 0 := ih hsound hnext hrest
      rw [← Except.ok.inj hr]
      exact hlast

/-- **The loop ends only where the distance is a multiple of the size.** -/
theorem dvd_of_nopLoop {turns : ℕ}
    (hr : nopLoop os passOne e newPos turns curPos s = .ok r) : (newPos - curPos).toNat % e.nopSize = 0 := by
  induction turns generalizing s curPos r with
  | zero => exact nomatch hr
  | succ turns ih =>
    rw [nopLoop] at hr
    split at hr
    next hpos => rw [hpos, BitVec.sub_self, BitVec.toNat_zero, Nat.zero_mod]
    next =>
      obtain ⟨⟨t, diags⟩, -, hr⟩ := CheckedRun.bind_eq_ok.mp hr
      obtain ⟨⟨u, diags₁⟩, hrest, -⟩ := CheckedRun.bind_eq_ok.mp hr
      have hnext := ih hrest
      -- a turn takes one size off the distance
      have hdist : newPos - curPos =
          newPos - (curPos + BitVec.ofNat 32 e.nopSize) + BitVec.ofNat 32 e.nopSize := by
        generalize BitVec.ofNat 32 e.nopSize = size
        bv_omega
      rw [hdist, BitVec.toNat_add, BitVec.toNat_ofNat]
      obtain hs | hs := e.nopSize_spec <;> rw [hs] at hnext ⊢ <;> omega

/-- **Where the loop does something and leads to its end**, index and distance are multiples of the size. -/
theorem aligned_of_nopLoop (hs : s.Sound) {turns : ℕ}
    (hr : nopLoop os passOne e newPos turns curPos s = .ok r)
    (hne : (newPos - curPos).toNat ≠ 0) (hlt : s.curIdx.toNat + (newPos - curPos).toNat < 2 ^ 32)
    (hidx : r.1.curIdx.toNat = s.curIdx.toNat + (newPos - curPos).toNat) :
    s.curIdx.toNat % e.nopSize = 0 ∧ (newPos - curPos).toNat % e.nopSize = 0 := by
  have hsize := e.nopSize_spec
  have hdvd := dvd_of_nopLoop hr
  have hle : e.nopSize ≤ (newPos - curPos).toNat := Nat.le_of_dvd (by omega) (Nat.dvd_of_mod_eq_zero hdvd)
  refine ⟨?_, hdvd⟩
  have haligned : r.1.curIdx.toNat % e.nopSize = 0 := by
    cases turns with
    | zero => exact nomatch hr
    | succ turns =>
      have hpos : curPos ≠ newPos := by
        rintro rfl
        exact hne (by rw [BitVec.sub_self, BitVec.toNat_zero])
      rw [nopLoop, if_neg hpos] at hr
      obtain ⟨⟨t, diags⟩, hput, hr⟩ := CheckedRun.bind_eq_ok.mp hr
      obtain ⟨⟨u, diags₁⟩, hrest, hr⟩ := CheckedRun.bind_eq_ok.mp hr
      obtain ⟨-, hup, -⟩ := alignUp_spec s.curIdx.toNat hsize
      obtain ⟨hsound, hnext⟩ := aligned_putIns hs (by omega) hput
      have hlast : u.curIdx.toNat % e.nopSize = 0 := aligned_nopLoop hsound hnext hrest
      rw [← Except.ok.inj hr]
      exact hlast
  rw [hidx] at haligned
  obtain hs | hs := hsize <;> rw [hs] at haligned hdvd ⊢ <;> omega

/-! ### The invariant -/

theorem sound_putIns (hs : s.Sound) {isARM : Bool} {ins : BitVec 32}
    (hr : s.putIns os passOne isARM ins = .ok r) : r.1.Sound := by
  obtain ⟨⟨⟨offset, t⟩, diags⟩, halign, hr⟩ := CheckedRun.bind_eq_ok.mp hr
  obtain ⟨⟨u, diags₁⟩, hput, hr⟩ := CheckedRun.bind_eq_ok.mp hr
  have hsound : u.Sound := sound_putDataWithOffset ((ensures_alignOffset hs _ _ _).post halign).2.sound hput
  rw [← Except.ok.inj hr]
  exact hsound

theorem sound_nopLoop (hs : s.Sound) {turns : ℕ}
    (hr : nopLoop os passOne e newPos turns curPos s = .ok r) : r.1.Sound := by
  induction turns generalizing s curPos r with
  | zero => exact nomatch hr
  | succ turns ih =>
    rw [nopLoop] at hr
    split at hr
    · rw [← Except.ok.inj hr]
      exact hs
    · obtain ⟨⟨t, diags⟩, hput, hr⟩ := CheckedRun.bind_eq_ok.mp hr
      obtain ⟨⟨u, diags₁⟩, hrest, hr⟩ := CheckedRun.bind_eq_ok.mp hr
      have hsound : u.Sound := ih (sound_putIns hs hput) hrest
      rw [← Except.ok.inj hr]
      exact hsound

theorem sound_fillLoop (hs : s.Sound) {fillSize turns : ℕ}
    {newPos curPos curFillValue : BitVec 32} {t : AreaImage}
    (hr : fillLoop fillValue fillSize newPos turns curPos curFillValue s = .ok t) : t.Sound := by
  induction turns generalizing s curPos curFillValue with
  | zero => cases hr
  | succ turns ih =>
    rw [fillLoop] at hr
    split at hr
    · rw [← Except.ok.inj hr]
      exact hs
    · obtain ⟨image, hstore, hr⟩ := CheckedRun.bind_eq_ok.mp hr
      refine ih ⟨fun _ => ?_⟩ hr
      rw [store] at hstore
      split at hstore
      next hlt =>
        rw [← Except.ok.inj hstore]
        dsimp only
        rw [List.length_set, BitVec.toNat_add]
        exact Nat.le_trans (Nat.mod_le _ _) hlt
      next => cases hstore

/-- **The index stays inside the image**, whatever ALIGN does. -/
theorem sound_cAlign (hs : s.Sound) {a : AlignArgs} (hr : cAlign os passOne e a s = .ok r) : r.1.Sound := by
  obtain ⟨⟨t, diags⟩, hgrow, hr⟩ := CheckedRun.bind_eq_ok.mp hr
  obtain ⟨hgrown, hroom⟩ := (ensures_ensureExtraSize hs _).post hgrow
  dsimp only at hgrown hroom hr
  have ht : t.Sound := by
    refine ⟨fun hinit => ?_⟩
    rw [hgrown.curIdx]
    exact Nat.le_trans (Nat.le_add_right _ _) (hroom (hgrown.noInit.symm.trans hinit))
  split at hr
  · split at hr
    · exact nomatch hr
    · obtain ⟨⟨u, diags₁⟩, hrun, hr⟩ := CheckedRun.bind_eq_ok.mp hr
      have hsound : u.Sound := sound_nopLoop ht hrun
      rw [← Except.ok.inj hr]
      exact hsound
  · split at hr
    next hinit =>
      rw [← Except.ok.inj hr]
      refine ⟨fun hnot => ?_⟩
      dsimp only at hnot
      rw [hinit] at hnot
      exact nomatch hnot
    next =>
      obtain ⟨u, hrun, hr⟩ := CheckedRun.bind_eq_ok.mp hr
      rw [← Except.ok.inj hr]
      exact sound_fillLoop ht hrun

/-! ### The directive -/

section Directive

variable (e : AlignEnv) (a : AlignArgs) (s : AreaImage)

/-- **The number of padding bytes** as the source computes it. -/
def bytesToStuff : ℕ := (alignNewPos (alignCurPos e s) a.alignment a.offsetValue - alignCurPos e s).toNat

def paddingLength : ℕ := alignDistance (alignCurPos e s).toNat a.alignment.toNat a.offsetValue.toNat

/-- The padding byte that is to stand `k` bytes behind the index. -/
def paddingByte (k : ℕ) : Option UInt8 :=
  if a.padsWithNops e then (dataBytes e.nopSize (e.nop.setWidth 64))[k % e.nopSize]?
  else some (padByte a.fillValue (a.fillSize e) ((alignCurPos e s).toNat + k))

/-- **What ALIGN is to do**: the index goes on by the distance, the padding is between, and the other bytes that
there were are kept. -/
structure AlignPads (n : ℕ) (t : AreaImage) : Prop where
  curIdx : t.curIdx.toNat = s.curIdx.toNat + n
  padding : s.noInit = false → ∀ k < n, t.image[s.curIdx.toNat + k]? = paddingByte e a s k
  kept : ∀ p < s.image.length, p < s.curIdx.toNat ∨ s.curIdx.toNat + n ≤ p → t.image[p]? = s.image[p]?

/-- **The condition**: the index does not wrap; and where the padding is to be of instructions, the distance is a
multiple of the fill size and, unless it is 0, index and distance are multiples of the instruction size. -/
def AlignWorks : Prop :=
  s.curIdx.toNat + paddingLength e a s < 2 ^ 32 ∧
    (a.padsWithNops e = true → paddingLength e a s % a.fillSize e = 0 ∧
      (paddingLength e a s = 0 ∨ (s.curIdx.toNat % e.nopSize = 0 ∧ paddingLength e a s % e.nopSize = 0)))

variable {e a s}

theorem bytesToStuff_eq (e : AlignEnv) (a : AlignArgs) (s : AreaImage) :
    bytesToStuff e a s = paddingLength e a s := by
  obtain ⟨k, hk, hlt⟩ := a.alignment_spec
  refine toNat_alignNewPos_sub (B := 2 ^ (32 - k)) ?_ a.offsetValue_lt
  rw [hk, ← Nat.pow_add, Nat.add_sub_cancel' (Nat.le_of_lt hlt)]

theorem alignNewPos_eq (e : AlignEnv) (a : AlignArgs) (s : AreaImage) :
    alignNewPos (alignCurPos e s) a.alignment a.offsetValue =
      alignCurPos e s + BitVec.ofNat 32 (paddingLength e a s) := by
  rw [← bytesToStuff_eq, bytesToStuff, BitVec.ofNat_toNat, BitVec.setWidth_eq, BitVec.add_comm,
    BitVec.sub_add_cancel]

theorem AlignPads.of_appended {t : AreaImage} {bytes : List UInt8} (hgrown : Grown s t)
    (hlt : s.curIdx.toNat + bytes.length < 2 ^ 32)
    (hroom : s.noInit = false → s.curIdx.toNat + bytes.length ≤ t.image.length)
    (hbytes : ∀ k < bytes.length, bytes[k]? = paddingByte e a s k) :
    AlignPads e a s bytes.length (t.appended bytes) := by
  have hcur : t.curIdx = s.curIdx := hgrown.curIdx
  refine ⟨?_, fun hinit k hk => ?_, fun p hp hout => ?_⟩
  · rw [curIdx_appended (by rw [hcur]; exact hlt), hcur]
  · change (if t.noInit then t.image else patch t.image t.curIdx.toNat bytes)[_]? = _
    rw [hgrown.noInit, hinit, if_neg Bool.false_ne_true, hcur, getElem?_patch_inside (hroom hinit) hk]
    exact hbytes k hk
  · change (if t.noInit then t.image else patch t.image t.curIdx.toNat bytes)[p]? = _
    rw [hgrown.noInit, hcur]
    cases hinit : s.noInit with
    | true => exact hgrown.getElem? hp
    | false =>
      rw [if_neg Bool.false_ne_true, getElem?_patch_outside (hroom hinit) hout]
      exact hgrown.getElem? hp

theorem alignPads_fill (hs : s.Sound) (hmem : HasMemory os passOne s (paddingLength e a s))
    (hlt : s.curIdx.toNat + paddingLength e a s < 2 ^ 32) (hnops : a.padsWithNops e = false) :
    ∃ r, cAlign os passOne e a s = .ok r ∧ AlignPads e a s (paddingLength e a s) r.1 := by
  obtain ⟨⟨t, diags⟩, hgrow, hgrown, hroom⟩ := exists_ensureExtraSize hs hmem
  dsimp only at hgrown hroom
  have hcur : t.curIdx = s.curIdx := hgrown.curIdx
  have hstuff := bytesToStuff_eq e a s
  unfold bytesToStuff at hstuff
  generalize hpad : padBytes a.fillValue (a.fillSize e) (alignCurPos e s).toNat (paddingLength e a s) = bytes
  have hlen : bytes.length = paddingLength e a s := hpad ▸ length_padBytes ..
  have hpads : AlignPads e a s (paddingLength e a s) (t.appended bytes) := by
    rw [← hlen] at hlt hroom ⊢
    refine AlignPads.of_appended hgrown hlt hroom fun k hk => ?_
    unfold paddingByte
    rw [hnops, if_neg Bool.false_ne_true, ← hpad]
    unfold padBytes
    rw [List.getElem?_map, List.getElem?_range (by omega)]
    rfl
  unfold cAlign
  dsimp only
  rw [hstuff, hgrow, ok_bind]
  dsimp only
  rw [hnops, if_neg Bool.false_ne_true]
  cases hinit : t.noInit with
  | true =>
    rw [if_pos rfl]
    refine ⟨_, rfl, ?_⟩
    have happ : t.appended bytes = { t with
        curIdx := t.curIdx + (alignNewPos (alignCurPos e s) a.alignment a.offsetValue - alignCurPos e s) } := by
      unfold AreaImage.appended
      rw [alignNewPos_eq, hlen, hinit, if_pos rfl, BitVec.add_comm (alignCurPos e s), BitVec.add_sub_cancel]
    rw [happ, hinit] at hpads
    exact hpads
  | false =>
    have hinit' : s.noInit = false := hgrown.noInit.symm.trans hinit
    have hloop : fillLoop a.fillValue (a.fillSize e) (alignNewPos (alignCurPos e s) a.alignment a.offsetValue)
        (2 ^ 32 + 1) (alignCurPos e s) (a.fillValue >>> (8 * ((alignCurPos e s).toNat % a.fillSize e))) t = _ :=
      fillLoop_eq (a.fillSize_spec e) (alignNewPos_eq e a s) (by omega) (by rw [hcur]; exact hroom hinit')
        (by rw [hcur]; exact hlt) fun _ => rfl
    rw [if_neg Bool.false_ne_true, hloop, ok_bind]
    refine ⟨_, rfl, ?_⟩
    have happ : t.appended bytes = { t with
        image := patch t.image t.curIdx.toNat
          (padBytes a.fillValue (a.fillSize e) (alignCurPos e s).toNat (paddingLength e a s))
        curIdx := t.curIdx + BitVec.ofNat 32 (paddingLength e a s) } := by
      unfold AreaImage.appended
      rw [if_neg (by rw [hinit]; exact Bool.false_ne_true), hlen, hpad]
    rw [happ] at hpads
    exact hpads

theorem alignPads_nops (hs : s.Sound) (hmem : HasMemory os passOne s (paddingLength e a s))
    (hlt : s.curIdx.toNat + paddingLength e a s < 2 ^ 32) (hnops : a.padsWithNops e = true)
    (hfill : paddingLength e a s % a.fillSize e = 0)
    (haligned : paddingLength e a s = 0 ∨
      (s.curIdx.toNat % e.nopSize = 0 ∧ paddingLength e a s % e.nopSize = 0)) :
    ∃ r, cAlign os passOne e a s = .ok r ∧ AlignPads e a s (paddingLength e a s) r.1 := by
  obtain ⟨⟨t, diags⟩, hgrow, hgrown, hroom⟩ := exists_ensureExtraSize hs hmem
  dsimp only at hgrown hroom
  have hcur : t.curIdx = s.curIdx := hgrown.curIdx
  have hsize := e.nopSize_spec
  have hstuff := bytesToStuff_eq e a s
  unfold bytesToStuff at hstuff
  unfold cAlign
  dsimp only
  rw [hstuff, hgrow, ok_bind]
  dsimp only
  rw [if_pos hnops, if_neg (not_not_intro hfill)]
  have hloop : ∃ bytes diags₁, bytes.length = paddingLength e a s ∧
      (∀ k < bytes.length, bytes[k]? = paddingByte e a s k) ∧
      nopLoop os passOne e (alignNewPos (alignCurPos e s) a.alignment a.offsetValue) (2 ^ 32 + 1)
        (alignCurPos e s) t = .ok (t.appended bytes, diags₁) := by
    by_cases hzero : paddingLength e a s = 0
    · have hpos : alignCurPos e s = alignNewPos (alignCurPos e s) a.alignment a.offsetValue := by
        rw [alignNewPos_eq, hzero]
        exact (BitVec.add_zero _).symm
      refine ⟨[], [], hzero.symm, nofun, ?_⟩
      rw [nopLoop, if_pos hpos, appended_nil]
      rfl
    · obtain ⟨hidx, hmod⟩ := haligned.resolve_left hzero
      obtain ⟨k, hk⟩ := Nat.dvd_of_mod_eq_zero hmod
      have hpos : 0 < e.nopSize := by omega
      have hturns : k ≤ e.nopSize * k := Nat.le_mul_of_pos_left k hpos
      have hpattern : (dataBytes e.nopSize (e.nop.setWidth 64)).length = e.nopSize := length_dataBytes e.nopSize _
      have hfits : t.noInit = false → t.curIdx.toNat + e.nopSize * k ≤ t.image.length := by
        intro hinit
        rw [hcur, ← hk]
        exact hroom (hgrown.noInit.symm.trans hinit)
      have hend : alignNewPos (alignCurPos e s) a.alignment a.offsetValue =
          alignCurPos e s + BitVec.ofNat 32 (e.nopSize * k) := hk ▸ alignNewPos_eq e a s
      have hturns : k < 2 ^ 32 + 1 := by omega
      obtain ⟨diags₁, hrun⟩ := nopLoop_eq os passOne e (hcur.symm ▸ hidx) hend hturns hfits
        (by rw [hcur, ← hk]; exact hlt)
      refine ⟨_, diags₁, ?_, fun j hj => ?_, hrun⟩
      · rw [length_repeated, hpattern, hk]
      · rw [length_repeated, hpattern] at hj
        unfold paddingByte
        rw [if_pos hnops]
        -- the byte stands in one of the copies
        generalize dataBytes e.nopSize (e.nop.setWidth 64) = pattern at hpattern ⊢
        calc (repeated k pattern)[j]?
            = (repeated k pattern)[pattern.length * (j / e.nopSize) + j % e.nopSize]? := by
              rw [hpattern, Nat.div_add_mod]
          _ = pattern[j % e.nopSize]? :=
              getElem?_repeated (Nat.div_lt_of_lt_mul hj) (hpattern.symm ▸ Nat.mod_lt j hpos)
  obtain ⟨bytes, diags₁, hlen, hbytes, hrun⟩ := hloop
  rw [hrun, ok_bind]
  rw [← hlen] at hlt hroom ⊢
  exact ⟨_, rfl, AlignPads.of_appended hgrown hlt hroom hbytes⟩

theorem works_of_alignPads (hs : s.Sound) {r : AreaImage × List Diag} (hr : cAlign os passOne e a s = .ok r)
    (hpads : AlignPads e a s (paddingLength e a s) r.1) : AlignWorks e a s := by
  have hlt : s.curIdx.toNat + paddingLength e a s < 2 ^ 32 := hpads.curIdx ▸ r.1.curIdx.isLt
  refine ⟨hlt, fun hnops => ?_⟩
  have hstuff := bytesToStuff_eq e a s
  unfold bytesToStuff at hstuff
  unfold cAlign at hr
  dsimp only at hr
  rw [hstuff] at hr
  obtain ⟨⟨t, diags⟩, hgrow, hr⟩ := CheckedRun.bind_eq_ok.mp hr
  dsimp only at hr
  rw [if_pos hnops] at hr
  by_cases hfill : paddingLength e a s % a.fillSize e = 0
  · rw [if_neg (not_not_intro hfill)] at hr
    obtain ⟨⟨u, diags₁⟩, hrun, hr⟩ := CheckedRun.bind_eq_ok.mp hr
    refine ⟨hfill, or_iff_not_imp_left.mpr fun hzero => ?_⟩
    obtain ⟨hgrown, hroom⟩ := (ensures_ensureExtraSize hs _).post hgrow
    dsimp only at hgrown hroom
    have hcur : t.curIdx = s.curIdx := hgrown.curIdx
    have hsound : t.Sound := by
      refine ⟨fun hinit => ?_⟩
      have := hroom (hgrown.noInit.symm.trans hinit)
      rw [hcur]
      omega
    have hidx : u.curIdx.toNat = s.curIdx.toNat + paddingLength e a s := by
      rw [← hpads.curIdx, ← Except.ok.inj hr]
    rw [← hcur] at hidx hlt ⊢
    rw [← hstuff] at hidx hlt hzero ⊢
    exact aligned_of_nopLoop hsound hrun hzero hlt hidx
  · rw [if_pos hfill] at hr
    exact nomatch hr

end Directive

/-- **Every ALIGN in every state**: the source computes the distance to the least position not below the
current one and congruent to the offset; and where there is memory, ALIGN ends and puts the padding if and
only if `AlignWorks`. -/
theorem cAlign_right_iff {s : AreaImage} (hs : s.Sound) (os : Realloc) (passOne : Bool) (e : AlignEnv)
    (a : AlignArgs) (hmem : HasMemory os passOne s (bytesToStuff e a s)) :
    IsLeast {n | ((alignCurPos e s).toNat + n) % a.alignment.toNat = a.offsetValue.toNat} (bytesToStuff e a s) ∧
      ((∃ r, cAlign os passOne e a s = .ok r ∧ AlignPads e a s (bytesToStuff e a s) r.1) ↔
        AlignWorks e a s) := by
  rw [bytesToStuff_eq] at hmem ⊢
  refine ⟨isLeast_distance a.offsetValue_lt, ?_, ?_⟩
  · rintro ⟨r, hr, hpads⟩
    exact works_of_alignPads hs hr hpads
  · rintro ⟨hlt, hnop⟩
    cases hnops : a.padsWithNops e with
    | false => exact alignPads_fill hs hmem hlt hnops
    | true =>
      obtain ⟨hfill, haligned⟩ := hnop hnops
      exact alignPads_nops hs hmem hlt hnops hfill haligned

/-- `ALIGN 4, 0, 0x01020304, 4` behind one byte. -/
theorem cAlign_right_iff_fill :
    let s : AreaImage := ⟨false, false, [7, 0, 0, 0], 1⟩
    let e : AlignEnv := ⟨true, false, 0x8000, true, true, true⟩
    let a : AlignArgs := ⟨.value 4, .value 0, .value 0x01020304, .value 4⟩
    IsLeast {n | ((alignCurPos e s).toNat + n) % a.alignment.toNat = a.offsetValue.toNat} (bytesToStuff e a s) ∧
      ((∃ r, cAlign (reallocUpTo 4) true e a s = .ok r ∧ AlignPads e a s (bytesToStuff e a s) r.1) ↔
        AlignWorks e a s) :=
  cAlign_right_iff ⟨fun _ => by decide⟩ (reallocUpTo 4) true ⟨true, false, 0x8000, true, true, true⟩
    ⟨.value 4, .value 0, .value 0x01020304, .value 4⟩ (Or.inr (Or.inl (by decide)))

/-- An instruction, `ALIGN 4, 2` and `ALIGN`, in an area with CODEALIGN: an assertion fails, where two bytes are
missing. -/
theorem not_cAlign_right :
    ¬ ∀ (s : AreaImage) (os : Realloc) (passOne : Bool) (e : AlignEnv) (a : AlignArgs), s.Sound →
      HasMemory os passOne s (bytesToStuff e a s) →
        ∃ r, cAlign os passOne e a s = .ok r ∧ AlignPads e a s (bytesToStuff e a s) r.1 := by
  intro h
  obtain ⟨r, hr, -⟩ := h ⟨false, false, [0x00, 0xf0, 0x20, 0xe3, 0, 0, 0, 0], 6⟩ (reallocUpTo 8) true
    ⟨true, true, 0, false, true, true⟩ ⟨.absent, .absent, .absent, .absent⟩ ⟨fun _ => by decide⟩
    (Or.inr (Or.inl (by decide)))
  have hmessage : cAlign (reallocUpTo 8) true ⟨true, true, 0, false, true, true⟩
      ⟨.absent, .absent, .absent, .absent⟩
      ⟨false, false, [0x00, 0xf0, 0x20, 0xe3, 0, 0, 0, 0], 6⟩ = .error .message := by
    decide
  rw [hmessage] at hr
  exact nomatch hr

end Asasm
