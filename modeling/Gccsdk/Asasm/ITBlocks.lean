import Gccsdk.Asasm.IT
import Gccsdk.Lib.ThumbIT

/-!
# The IT blocks of a run of Thumb instructions

`IT_ApplyCond` is called before each instruction is written, and may rewrite the `IT` instruction it
generated for earlier ones. `assembleLines_runs` is what comes of this for the processor: executed by
the rules of ITSTATE, the stream of halfwords of a run has the instructions of the run, each under
its own condition.

The argument is a run of `assembleLine` with the invariant `RunInv`: the stream written so far runs
as it should, and while the implicit block can be extended, it ends with the block of `it`
(`OpenBlock`). What a block means is left to `Thumb.exec_encodeIT`.
-/

namespace Asasm

open Thumb

/-! ### Halfwords in an image -/

def halfwordBytes (h : Halfword) : List UInt8 := dataBytes 2 (h.setWidth 64)

@[simp] theorem length_halfwordBytes (h : Halfword) : (halfwordBytes h).length = 2 :=
  length_dataBytes _ _

theorem length_flatMap_halfwordBytes (hws : List Halfword) :
    (hws.flatMap halfwordBytes).length = 2 * hws.length := by
  induction hws with
  | nil => rfl
  | cons h hws ih =>
    rw [List.flatMap_cons, List.length_append, ih, length_halfwordBytes, List.length_cons]
    omega

theorem dataBytes_two (w : ARMWord) :
    dataBytes 2 (w.setWidth 64) = halfwordBytes (w.setWidth 16) := by
  have h : ∀ i < 2, (w.setWidth 64).extractLsb' (8 * i) 8
      = ((w.setWidth 16).setWidth 64).extractLsb' (8 * i) 8 := by
    intro i hi
    ext j hj
    simp only [BitVec.getElem_extractLsb', BitVec.getLsbD_setWidth]
    have : 8 * i + j < 16 := by omega
    simp [this]
  unfold halfwordBytes dataBytes
  exact List.map_congr_left fun i hi => by rw [h i (List.mem_range.mp hi)]

/-- **The stream of halfwords** written after `image₀`, at an even offset. -/
def Stream (image₀ image : List UInt8) (hws : List Halfword) : Prop :=
  ∃ pad, image = image₀ ++ pad ++ hws.flatMap halfwordBytes ∧ pad.length ≤ image₀.length % 2
    ∧ (hws ≠ [] → 2 ∣ image.length)

theorem Stream.start (image₀ : List UInt8) : Stream image₀ image₀ [] :=
  ⟨[], by simp, Nat.zero_le _, fun h => absurd rfl h⟩

section Put

variable {s : AsmState} {a : AreaCode} {image₀ : List UInt8} {hws : List Halfword}

theorem putInsWithOffset_two (hthumb : s.instrType ≠ .arm) (hinit : a.noInit = false)
    (offset : Nat) (w : ARMWord) :
    (putInsWithOffset s a offset 2 w).1 = { a with
      image := overwrite (a.image ++ List.replicate (alignUp offset 2 - a.curIdx) 0)
        (alignUp offset 2) (halfwordBytes (w.setWidth 16)) } := by
  have hsize : ¬ (s.instrType ≠ .arm ∧ (2 : Nat) = 4) := by omega
  simp only [putInsWithOffset, areaAlignOffset, hthumb, hsize, if_false, putDataWithOffset, hinit,
    Bool.false_eq_true, dataBytes_two]

/-- **Append.** A halfword written at the end extends the stream. -/
theorem Stream.putHalfword (hthumb : s.instrType ≠ .arm) (hinit : a.noInit = false)
    (h : Stream image₀ a.image hws) (w : ARMWord) :
    ∃ image, (putInsWithOffset s a a.curIdx 2 w).1 = { a with image }
      ∧ Stream image₀ image (hws ++ [w.setWidth 16])
      ∧ image.length = alignUp a.curIdx 2 + 2 := by
  obtain ⟨pad, himage, hpad, heven⟩ := h
  have hup : a.curIdx ≤ alignUp a.curIdx 2 := by
    unfold alignUp
    omega
  set zeros := List.replicate (alignUp a.curIdx 2 - a.curIdx) (0 : UInt8) with hzeros
  have hpadded : (a.image ++ zeros).length = alignUp a.curIdx 2 := by
    rw [List.length_append, hzeros, List.length_replicate]
    change a.curIdx + _ = _
    omega
  refine ⟨a.image ++ zeros ++ halfwordBytes (w.setWidth 16), ?_, ?_, ?_⟩
  · rw [putInsWithOffset_two hthumb hinit, ← hzeros]
    congr 1
    conv =>
      lhs
      rw [← hpadded]
    exact overwrite_end _ _
  · refine ⟨pad ++ zeros, ?_, ?_, fun _ => ?_⟩
    · rw [himage, List.flatMap_append, List.flatMap_singleton]
      cases hws with
      | nil => simp
      | cons h hws =>
        -- the stream has begun, so that the end is even already
        have hnone : zeros = [] := by
          have := alignUp_of_dvd (by omega) (heven (List.cons_ne_nil _ _))
          rw [hzeros, AreaCode.curIdx, this, Nat.sub_self]
          rfl
        simp [hnone]
    · rw [List.length_append, hzeros, List.length_replicate]
      have hlen : a.curIdx = image₀.length + pad.length + 2 * hws.length := by
        rw [AreaCode.curIdx, himage, List.length_append, List.length_append,
          length_flatMap_halfwordBytes]
      unfold alignUp
      omega
    · rw [List.length_append, hpadded, length_halfwordBytes]
      exact Nat.dvd_add (dvd_alignUp _ _) (Nat.dvd_refl 2)
  · rw [List.length_append, hpadded, length_halfwordBytes]

theorem Stream.patchHalfword (hthumb : s.instrType ≠ .arm) (hinit : a.noInit = false)
    {pre post : List Halfword} {h₀ : Halfword} (h : Stream image₀ a.image (pre ++ h₀ :: post))
    {offset : Nat} (hoffset : a.image.length = alignUp offset 2 + 2 * (post.length + 1))
    (w : ARMWord) :
    ∃ image, (putInsWithOffset s a offset 2 w).1 = { a with image }
      ∧ Stream image₀ image (pre ++ w.setWidth 16 :: post) ∧ image.length = a.image.length := by
  obtain ⟨pad, himage, hpad, heven⟩ := h
  set front := image₀ ++ pad ++ pre.flatMap halfwordBytes with hfront
  set back := post.flatMap halfwordBytes with hback
  have hsplit : a.image = front ++ halfwordBytes h₀ ++ back := by
    rw [himage, List.flatMap_append, List.flatMap_cons, hfront, hback]
    simp only [List.append_assoc]
  have hlen : front.length = alignUp offset 2 := by
    have := congrArg List.length hsplit
    rw [List.length_append, List.length_append, length_halfwordBytes, hback,
      length_flatMap_halfwordBytes] at this
    omega
  have hnone : alignUp offset 2 - a.curIdx = 0 := by
    rw [AreaCode.curIdx]
    omega
  have hlen' : (front ++ halfwordBytes (w.setWidth 16) ++ back).length = a.image.length := by
    rw [hsplit]
    simp only [List.length_append, length_halfwordBytes]
  refine ⟨front ++ halfwordBytes (w.setWidth 16) ++ back, ?_, ⟨pad, ?_, hpad, fun _ => ?_⟩, hlen'⟩
  · rw [putInsWithOffset_two hthumb hinit, hnone, List.replicate_zero, List.append_nil, hsplit,
      ← hlen, overwrite_middle _ _ _ _ (by rw [length_halfwordBytes, length_halfwordBytes])]
  · rw [List.flatMap_append, List.flatMap_cons, hfront, hback]
    simp only [List.append_assoc]
  · rw [hlen']
    exact heven (by simp)

/-- The words `Put_Ins` is called with for an instruction. -/
def insSize : Thumb.Ins → Nat
  | .narrow .. => 2
  | .wide .. => 4

def insWord : Thumb.Ins → ARMWord
  | .narrow h _ _ => h.setWidth 32
  | .wide h₁ h₂ _ => (h₁.setWidth 32 <<< 16) ||| h₂.setWidth 32

private theorem setWidth_insWord_narrow (h : Halfword) : (h.setWidth 32).setWidth 16 = h := by
  ext i hi
  simp

private theorem setWidth_insWord_high (h₁ h₂ : Halfword) :
    (((h₁.setWidth 32 <<< 16) ||| h₂.setWidth 32) >>> 16).setWidth 16 = h₁ := by
  ext i hi
  have hlt : 16 + i < 32 := by omega
  simp [hlt, hi]

private theorem setWidth_insWord_low (h₁ h₂ : Halfword) :
    (((h₁.setWidth 32 <<< 16) ||| h₂.setWidth 32) &&& 0xFFFF : ARMWord).setWidth 16 = h₂ := by
  have hmask : ∀ i < 16, (0xFFFF : ARMWord).getLsbD i = true := by decide
  ext i hi
  have hlt : i < 32 := by omega
  rw [BitVec.getElem_setWidth, BitVec.getLsbD_and, hmask i hi, Bool.and_true, BitVec.getLsbD_or,
    BitVec.getLsbD_shiftLeft, BitVec.getLsbD_setWidth]
  simp [hi, hlt]

private theorem putInsWithOffset_four (hthumb : s.instrType ≠ .arm) (hinit : a.noInit = false)
    (w : ARMWord) {a₁ : AreaCode}
    (h₁ : (putInsWithOffset s a a.curIdx 2 (w >>> 16)).1 = a₁)
    (hlen : a₁.image.length = alignUp a.curIdx 2 + 2) :
    (putInsWithOffset s a a.curIdx 4 w).1
      = (putInsWithOffset s a₁ a₁.curIdx 2 (w &&& 0xFFFF)).1 := by
  have hend : alignUp a₁.curIdx 2 = alignUp a.curIdx 2 + 2 := by
    rw [AreaCode.curIdx, hlen]
    exact alignUp_of_dvd (by omega) (Nat.dvd_add (dvd_alignUp _ _) (Nat.dvd_refl 2))
  have hnone : alignUp a.curIdx 2 + 2 - a₁.curIdx = 0 := by
    rw [← hlen, AreaCode.curIdx, Nat.sub_self]
  have hinit₁ : a₁.noInit = false := by
    rw [← h₁, putInsWithOffset_two hthumb hinit]
    exact hinit
  rw [putInsWithOffset_two hthumb hinit₁, hend, hnone, List.replicate_zero, List.append_nil, ← h₁,
    putInsWithOffset_two hthumb hinit]
  simp only [putInsWithOffset, areaAlignOffset, hthumb, ne_eq, not_false_eq_true, and_self,
    if_false, if_true, putDataWithOffset, hinit, Bool.false_eq_true, dataBytes_two]

theorem Stream.putIns (hthumb : s.instrType ≠ .arm) (hinit : a.noInit = false)
    (h : Stream image₀ a.image hws) (i : Thumb.Ins) :
    ∃ image, (Asasm.putIns s a (insSize i) (insWord i)).1 = { a with image }
      ∧ Stream image₀ image (hws ++ i.halfwords)
      ∧ image.length = alignUp a.curIdx 2 + 2 * i.halfwords.length := by
  cases i with
  | narrow h₁ hnarrow hit =>
    obtain ⟨image, hput, hstream, hlen⟩ := h.putHalfword hthumb hinit (h₁.setWidth 32)
    refine ⟨image, hput, ?_, hlen⟩
    rwa [setWidth_insWord_narrow] at hstream
  | wide h₁ h₂ hwide =>
    set w := insWord (.wide h₁ h₂ hwide) with hw
    obtain ⟨image₁, hput₁, hstream₁, hlen₁⟩ := h.putHalfword hthumb hinit (w >>> 16)
    obtain ⟨image₂, hput₂, hstream₂, hlen₂⟩ :=
      hstream₁.putHalfword (a := { a with image := image₁ }) hthumb hinit (w &&& 0xFFFF)
    refine ⟨image₂, ?_, ?_, ?_⟩
    · exact (putInsWithOffset_four hthumb hinit w hput₁ hlen₁).trans hput₂
    · rw [hw, insWord, setWidth_insWord_high, setWidth_insWord_low, List.append_assoc] at hstream₂
      exact hstream₂
    · rw [hlen₂, AreaCode.curIdx, hlen₁,
        alignUp_of_dvd (by omega) (Nat.dvd_add (dvd_alignUp _ _) (Nat.dvd_refl 2))]
      rfl

end Put

/-! ### The IT instruction of a state -/

def condCode (c : Cond) : ARMWord := c.setWidth 32 <<< 28

private theorem condCode_and_NV (c : Cond) : condCode c &&& ccNV = condCode c := by
  decide +revert

private theorem condCode_eq_AL (c : Cond) : condCode c = ccAL ↔ c = always := by
  decide +revert

private theorem condCode_inj {c c' : Cond} (h : condCode c = condCode c') : c = c' := by
  decide +revert

private theorem condCode_flip (c : Cond) : condCode c ^^^ (1 <<< 28) = condCode (c ^^^ 1) := by
  decide +revert

/-- **The block of a state**: its first condition, and the choices after the first. -/
structure ITState.Encodes (it : ITState) (first : Cond) (thens : List Bool) : Prop where
  cc : it.cc = condCode first
  maxIdx : it.maxIdx = thens.length + 1
  isThen : ∀ i ≤ thens.length, it.isThen i = (true :: thens).getD i false

/-- The loop of `IT_EmitIT` is a fold over the choices, the last one first. -/
private theorem itMask_eq_foldr (cc : ARMWord) (isThen : Nat → Bool) (n : Nat) (mask : ARMWord) :
    itMask cc isThen (n + 1) mask
      = ((List.range n).map fun i => isThen (i + 1)).foldr
          (fun (t : Bool) (m : ARMWord) => (itCondBit cc t <<< 3) ||| (m >>> 1)) mask := by
  induction n generalizing mask with
  | zero => rfl
  | succ n ih =>
    rw [itMask, ih, List.range_succ, List.map_append, List.foldr_append]
    rfl

private theorem foldr_itCondBit (first : Cond) (thens : List Bool) :
    thens.foldr (fun (t : Bool) (m : ARMWord) =>
        (itCondBit (condCode first >>> (28 - 4)) t <<< 3) ||| (m >>> 1)) 8
      = (encodeMask first thens).setWidth 32 := by
  have hstep : ∀ (t : Bool) (m : BitVec 4),
      (itCondBit (condCode first >>> (28 - 4)) t <<< 3) ||| (m.setWidth 32 >>> 1)
        = (((choose first t &&& 1) <<< 3) ||| (m >>> 1)).setWidth 32 := by
    intro t m
    decide +revert
  induction thens with
  | nil => rfl
  | cons t ts ih => rw [List.foldr_cons, ih, hstep, encodeMask]

private theorem itWord_eq (first : Cond) (mask : BitVec 4) :
    ((0xBF00 : ARMWord) ||| (condCode first >>> (28 - 4)) ||| mask.setWidth 32).setWidth 16
      = itHalfword first mask := by
  decide +revert

/-- **`IT_EmitIT`** writes the `IT` instruction of the state's block where that was first written. -/
theorem itEmitIT_eq (s : AsmState) (area : ITArea) {first : Cond} {thens : List Bool}
    (h : area.it.Encodes first thens) :
    ∃ w : ARMWord, w.setWidth 16 = encodeIT first thens ∧ ∃ diags, itEmitIT s area true
      = some ({ area with code := (putInsWithOffset s area.code area.it.areaCurIdx 2 w).1 }, diags) := by
  have hfirst : area.it.isThen 0 = true := h.isThen 0 (Nat.zero_le _)
  have hmask : itMask (condCode first >>> (28 - 4)) area.it.isThen area.it.maxIdx 8
      = (encodeMask first thens).setWidth 32 := by
    have hthens : (List.range thens.length).map (fun i => area.it.isThen (i + 1)) = thens := by
      apply List.ext_getElem
      · rw [List.length_map, List.length_range]
      · intro i hi hi'
        rw [List.getElem_map, List.getElem_range, h.isThen (i + 1) (by omega)]
        simp [hi']
    rw [h.maxIdx, itMask_eq_foldr, hthens, foldr_itCondBit]
  refine ⟨_, itWord_eq first (encodeMask first thens), ?_⟩
  simp only [itEmitIT, Bool.not_true, Bool.false_eq_true, if_false, hfirst, hmask, h.cc]
  exact ⟨_, rfl⟩

/-! ### The instructions of a run -/

structure ThumbLine where
  cond : Cond
  enforceLast : Bool
  ins : Thumb.Ins

/-- An instruction is given to the assembler: the check of its condition, then its code. -/
def assembleLine (s : AsmState) (area : ITArea) (line : ThumbLine) :
    Option (ITArea × List Diag) := do
  let (area, ccDiags) ← itApplyCond s area (condCode line.cond) line.enforceLast true
  let (code, putDiags) := putIns s area.code (insSize line.ins) (insWord line.ins)
  pure ({ area with code }, ccDiags ++ putDiags)

def assembleLines (s : AsmState) : ITArea → List ThumbLine → Option (ITArea × List Diag)
  | area, [] => some (area, [])
  | area, line :: lines => do
    let (area, diags) ← assembleLine s area line
    let (area, diags') ← assembleLines s area lines
    pure (area, diags ++ diags')

/-- **A line runs as asked for.** -/
structure RunsLine (line : ThumbLine) (e : Executed) : Prop where
  halfwords : e.halfwords = line.ins.halfwords
  cond : e.cond = line.cond
  unconditional : line.cond = always → e.pos = 0
  pos_le : e.pos ≤ 4
  last : line.enforceLast = true → e.pos ≠ 0 → e.last = true
  /-- Only a block for `NV` is unpredictable. -/
  predictable : e.predictable = (line.cond != never)

/-- The stream written after `image₀` runs the lines, and ends outside of blocks. -/
def Runs (image₀ image : List UInt8) (lines : List ThumbLine) : Prop :=
  ∃ hws es, Stream image₀ image hws ∧ exec .outside hws = some (es, .outside)
    ∧ List.Forall₂ RunsLine lines es

/-- **Lines of one block.** -/
structure BlockLines (first : Cond) (thens : List Bool) (lines : List ThumbLine) : Prop where
  conds : lines.map ThumbLine.cond = blockConds first thens
  length_le : thens.length ≤ 3
  ne_always : ∀ line ∈ lines, line.cond ≠ always
  notLast : ∀ line ∈ lines.dropLast, line.enforceLast = false

namespace BlockLines

variable {first : Cond} {thens : List Bool} {lines : List ThumbLine}

theorem length_eq (h : BlockLines first thens lines) : lines.length = thens.length + 1 := by
  have := congrArg List.length h.conds
  rwa [List.length_map, blockConds, List.length_cons, List.length_map] at this

theorem singleton {line : ThumbLine} (h : line.cond ≠ always) :
    BlockLines line.cond [] [line] where
  conds := rfl
  length_le := Nat.zero_le 3
  ne_always := fun _ hl => List.mem_singleton.mp hl ▸ h
  notLast := fun _ hl => absurd hl List.not_mem_nil

theorem snoc (h : BlockLines first thens lines) (hlen : thens.length < 3)
    (hlast : ∀ line ∈ lines, line.enforceLast = false) {line : ThumbLine} {isThen : Bool}
    (hcond : line.cond = choose first isThen) (hne : line.cond ≠ always) :
    BlockLines first (thens ++ [isThen]) (lines ++ [line]) where
  conds := by
    rw [List.map_append, h.conds, blockConds, blockConds, List.map_append, List.cons_append,
      List.map_singleton, List.map_singleton, hcond]
  length_le := by
    rw [List.length_append, List.length_singleton]
    exact hlen
  ne_always := fun l hl => by
    rcases List.mem_append.mp hl with hl | hl
    · exact h.ne_always l hl
    · exact List.mem_singleton.mp hl ▸ hne
  notLast := fun l hl => by
    rw [List.dropLast_concat] at hl
    exact hlast l hl

end BlockLines

private theorem runsLine_blockTrace {p : Bool} (conds : List Cond) (lines : List ThumbLine)
    (pos : Nat) (hconds : lines.map ThumbLine.cond = conds) (hpos : pos + lines.length ≤ 4)
    (hne : ∀ line ∈ lines, line.cond ≠ always)
    (hlast : ∀ line ∈ lines.dropLast, line.enforceLast = false)
    (hp : ∀ line ∈ lines, p = (line.cond != never)) :
    List.Forall₂ RunsLine lines (blockTrace p pos conds (lines.map ThumbLine.ins)) := by
  induction lines generalizing pos conds with
  | nil =>
    subst hconds
    exact .nil
  | cons line lines ih =>
    subst hconds
    rw [List.length_cons] at hpos
    rw [List.map_cons, List.map_cons, blockTrace]
    refine .cons ⟨rfl, rfl, fun h => absurd h (hne line List.mem_cons_self), ?_, fun hl _ => ?_,
      hp line List.mem_cons_self⟩ (ih _ _ rfl (by omega) (fun l hl => hne l (List.mem_cons_of_mem _ hl))
        (fun l hl => hlast l ?_) fun l hl => hp l (List.mem_cons_of_mem _ hl))
    · change pos + 1 ≤ 4
      omega
    · -- a line that has to be the last is the last
      cases lines with
      | nil => rfl
      | cons l ls =>
        have := hlast line (by simp)
        rw [hl] at this
        cases this
    · cases lines with
      | nil => cases hl
      | cons l' ls => exact List.mem_cons_of_mem _ hl

theorem BlockLines.runs {first : Cond} {thens : List Bool} {lines : List ThumbLine}
    (h : BlockLines first thens lines) :
    ∃ es, exec .outside (encodeIT first thens :: (lines.map ThumbLine.ins).flatMap Ins.halfwords)
        = some (es, .outside) ∧ List.Forall₂ RunsLine lines es := by
  have hlen := h.length_eq
  have hle := h.length_le
  have hfirst : ∃ line ∈ lines, line.cond = first := by
    have : first ∈ lines.map ThumbLine.cond := h.conds ▸ List.mem_cons_self
    exact List.mem_map.mp this
  obtain ⟨l₀, hl₀, rfl⟩ := hfirst
  refine ⟨_, exec_encodeIT .outside (by decide) _ thens _ hle
    (by rw [List.length_map, hlen]), ?_⟩
  refine runsLine_blockTrace _ lines 0 h.conds (by omega) h.ne_always h.notLast fun line hl => ?_
  rw [predictable_encodeIT (h.ne_always l₀ hl₀) hle]
  -- the conditions differ in the lowest bit, and `AL` is none of them
  have hmem : line.cond ∈ blockConds l₀.cond thens := h.conds ▸ List.mem_map_of_mem hl
  have hblock : InBlockOf l₀.cond line.cond := by
    rcases List.mem_cons.mp hmem with heq | hmem
    · exact Or.inl heq
    · obtain ⟨t, -, ht⟩ := List.mem_map.mp hmem
      exact ht ▸ inBlockOf_choose _ t
  have h₁ := h.ne_always l₀ hl₀
  have h₂ := h.ne_always line hl
  have hkey : ∀ c c' : Cond, c ≠ always → c' ≠ always → (c' = c ∨ c' = c ^^^ 1) →
      (c != never) = (c' != never) := by
    decide
  exact hkey _ _ h₁ h₂ hblock

/-! ### The run invariant -/

/-- **The stream ends with the block of `it`**, which has the lines `block`. -/
structure EndsInBlock (image₀ image : List UInt8) (it : ITState) (lines block : List ThumbLine)
    (first : Cond) (thens : List Bool) : Prop where
  stream : ∃ pre before es, lines = before ++ block
    ∧ Stream image₀ image (pre ++ encodeIT first thens
        :: (block.map ThumbLine.ins).flatMap Ins.halfwords)
    ∧ exec .outside pre = some (es, .outside) ∧ List.Forall₂ RunsLine before es
  lines : BlockLines first thens block
  encodes : it.Encodes first thens
  /-- The `IT` instruction is where `it` says. -/
  position : image.length = alignUp it.areaCurIdx 2
    + 2 * (((block.map ThumbLine.ins).flatMap Ins.halfwords).length + 1)

theorem EndsInBlock.runs {image₀ image : List UInt8} {it : ITState} {lines block : List ThumbLine}
    {first : Cond} {thens : List Bool} (h : EndsInBlock image₀ image it lines block first thens) :
    Runs image₀ image lines := by
  obtain ⟨pre, before, es, rfl, hstream, hexec, hbefore⟩ := h.stream
  obtain ⟨es', hexec', hblock⟩ := h.lines.runs
  refine ⟨_, es ++ es', hstream, ?_, List.rel_append hbefore hblock⟩
  rw [exec_append hexec, hexec']
  rfl

/-- **The run invariant**: the stream runs the lines so far; no explicit block is pending, and an
implicit block that can be extended is at the end of the stream. -/
structure RunInv (image₀ : List UInt8) (area : ITArea) (lines : List ThumbLine) : Prop where
  hasImage : area.code.noInit = false
  notPending : area.it.curIdx = area.it.maxIdx
  runs : Runs image₀ area.code.image lines
  extensible : area.it.implicitIT = true → area.it.maxIdx < 4 → ∃ block first thens,
    EndsInBlock image₀ area.code.image area.it lines block first thens
      ∧ ∀ line ∈ block, line.enforceLast = false

section Step

variable {s : AsmState} {area area₁ : ITArea} {image₀ : List UInt8} {lines : List ThumbLine}
  {line : ThumbLine} {diags : List Diag}

private theorem assembleLine_of_applyCond (hthumb : s.instrType ≠ .arm)
    (h : itApplyCond s area (condCode line.cond) line.enforceLast true = some (area₁, diags))
    (hinit : area₁.code.noInit = false) {hws : List Halfword}
    (hstream : Stream image₀ area₁.code.image hws) :
    ∃ image diags', assembleLine s area line
        = some ({ area₁ with code := { area₁.code with image } }, diags')
      ∧ Stream image₀ image (hws ++ line.ins.halfwords)
      ∧ image.length = alignUp area₁.code.curIdx 2 + 2 * line.ins.halfwords.length := by
  obtain ⟨image, hput, hstream', hlen⟩ := hstream.putIns hthumb hinit line.ins
  refine ⟨image, diags ++ (putIns s area₁.code (insSize line.ins) (insWord line.ins)).2, ?_,
    hstream', hlen⟩
  simp only [assembleLine, h, Option.bind_eq_bind, Option.bind_some, Option.pure_def, hput]

/-- **An unconditional line** leaves the block, if there was one. -/
private theorem assembleLine_always (hthumb : s.instrType ≠ .arm) (hinv : RunInv image₀ area lines)
    (hcond : line.cond = always) :
    ∃ area' diags, assembleLine s area line = some (area', diags)
      ∧ RunInv image₀ area' (lines ++ [line]) := by
  have hcc : condCode line.cond = ccAL := (condCode_eq_AL _).mpr hcond
  -- no `IT` instruction is written, and the state has no block to extend
  have happly : ∃ it, itApplyCond s area (condCode line.cond) line.enforceLast true
      = some ({ area with it }, []) ∧ it.curIdx = it.maxIdx
        ∧ ¬ (it.implicitIT = true ∧ it.maxIdx < 4) := by
    have hnot : ¬ area.it.curIdx < area.it.maxIdx := by
      rw [hinv.notPending]
      exact Nat.lt_irrefl _
    unfold itApplyCond
    rw [condCode_and_NV, dif_neg hnot]
    by_cases hext : area.it.implicitIT = true ∧ area.it.maxIdx < 4
    · refine ⟨itInitialState, ?_, rfl, fun h => Bool.false_ne_true h.1⟩
      rw [dif_pos hext, if_pos (by simp [hcc])]
    · refine ⟨area.it, ?_, hinv.notPending, hext⟩
      rw [dif_neg hext, if_neg (by simp [hcc])]
  obtain ⟨it, happly, hpending, hext⟩ := happly
  obtain ⟨hws, es, hstream, hexec, hruns⟩ := hinv.runs
  obtain ⟨image, diags', hline, hstream', -⟩ :=
    assembleLine_of_applyCond hthumb happly hinv.hasImage hstream
  refine ⟨_, diags', hline, hinv.hasImage, hpending,
    ⟨_, es ++ [ExecState.outside.record line.ins.halfwords], hstream', ?_, ?_⟩,
    fun himp hlt => absurd ⟨himp, hlt⟩ hext⟩
  · have hone := exec_ins .outside line.ins []
    rw [List.append_nil] at hone
    rw [exec_append hexec, hone]
    rfl
  · refine List.rel_append hruns (.cons ⟨rfl, hcond.symm, fun _ => rfl, Nat.zero_le 4,
      fun _ h => absurd rfl h, ?_⟩ .nil)
    rw [hcond]
    rfl

private theorem EndsInBlock.runInv (block : List ThumbLine) {it : ITState} {first : Cond}
    {thens : List Bool} {code : AreaCode} (hinit : code.noInit = false)
    (hpending : it.curIdx = it.maxIdx)
    (hend : EndsInBlock image₀ code.image it (lines ++ [line]) block first thens)
    (hlast : line.enforceLast = false → ∀ l ∈ block, l.enforceLast = false) :
    RunInv image₀ ⟨code, it.finishIf line.enforceLast⟩ (lines ++ [line]) := by
  refine ⟨hinit, ?_, hend.runs, fun himp hlt => ?_⟩
  · unfold ITState.finishIf
    split
    · rfl
    · exact hpending
  · cases henforce : line.enforceLast with
    | true =>
      -- the block is finished
      simp only [henforce, ITState.finishIf, if_true, Bool.false_eq_true] at himp
    | false => exact ⟨block, first, thens, hend, hlast henforce⟩

private theorem assembleLine_newBlock (hthumb : s.instrType ≠ .arm)
    (hinv : RunInv image₀ area lines) (hcond : line.cond ≠ always)
    (happly : itApplyCond s area (condCode line.cond) line.enforceLast true
      = itEmitImplicit s area (itStartImplicitIT area.code.curIdx (condCode line.cond))
          line.enforceLast) :
    ∃ area' diags, assembleLine s area line = some (area', diags)
      ∧ RunInv image₀ area' (lines ++ [line]) := by
  set it := itStartImplicitIT area.code.curIdx (condCode line.cond) with hit
  have hencodes : it.Encodes line.cond [] :=
    ⟨rfl, rfl, fun i hi => by
      obtain rfl : i = 0 := Nat.le_zero.mp hi
      rfl⟩
  obtain ⟨w, hw, diags, hemit⟩ := itEmitIT_eq s { area with it } hencodes
  obtain ⟨hws, es, hstream, hexec, hruns⟩ := hinv.runs
  obtain ⟨image₁, hput₁, hstream₁, hlen₁⟩ := hstream.putHalfword hthumb hinv.hasImage w
  have hput₁' : (putInsWithOffset s area.code it.areaCurIdx 2 w).1
      = { area.code with image := image₁ } := hput₁
  rw [hput₁'] at hemit
  rw [itEmitImplicit, hemit] at happly
  obtain ⟨image, diags', hline, hstream₂, hlen₂⟩ :=
    assembleLine_of_applyCond hthumb happly hinv.hasImage hstream₁
  refine ⟨_, diags', hline, EndsInBlock.runInv [line]
    hinv.hasImage rfl ⟨⟨hws, lines, es, rfl, ?_, hexec, hruns⟩,
      .singleton hcond, hencodes, ?_⟩ fun h l hl => List.mem_singleton.mp hl ▸ h⟩
  · rw [hw, List.append_assoc] at hstream₂
    simpa using hstream₂
  · have heven : alignUp image₁.length 2 = image₁.length :=
      alignUp_of_dvd (by omega) (by rw [hlen₁]; exact Nat.dvd_add (dvd_alignUp _ _) (Nat.dvd_refl 2))
    change image.length = alignUp image₁.length 2 + 2 * line.ins.halfwords.length at hlen₂
    rw [hlen₂, heven, hlen₁]
    simp only [List.map_singleton, List.flatMap_singleton]
    change _ = alignUp area.code.curIdx 2 + _
    omega

private theorem ITState.Encodes.addCase {it : ITState} {first : Cond} {thens : List Bool}
    (h : it.Encodes first thens) (hpending : it.curIdx = it.maxIdx) (isThen : Bool)
    (hlt : it.maxIdx < 4) : (it.addCase isThen hlt).Encodes first (thens ++ [isThen]) where
  cc := h.cc
  maxIdx := by
    change it.maxIdx + 1 = _
    rw [h.maxIdx, List.length_append, List.length_singleton]
  isThen := fun i hi => by
    rw [List.length_append, List.length_singleton] at hi
    change Function.update it.isThen it.curIdx isThen i = _
    rw [hpending, h.maxIdx, ← List.cons_append]
    by_cases heq : i = thens.length + 1
    · rw [heq, Function.update_self]
      simp
    · have hi' : i < (true :: thens).length := by
        rw [List.length_cons]
        omega
      rw [Function.update_of_ne heq, h.isThen i (by omega), List.getD_eq_getElem?_getD,
        List.getD_eq_getElem?_getD, List.getElem?_append_left hi']

private theorem assembleLine_addCase (hthumb : s.instrType ≠ .arm)
    (hinv : RunInv image₀ area lines) (hcond : line.cond ≠ always) (hlt : area.it.maxIdx < 4)
    {block : List ThumbLine} {first : Cond} {thens : List Bool}
    (hend : EndsInBlock image₀ area.code.image area.it lines block first thens)
    (hblock : ∀ l ∈ block, l.enforceLast = false) (isThen : Bool)
    (hchoice : line.cond = choose first isThen)
    (happly : itApplyCond s area (condCode line.cond) line.enforceLast true
      = itEmitImplicit s area (area.it.addCase isThen hlt) line.enforceLast) :
    ∃ area' diags, assembleLine s area line = some (area', diags)
      ∧ RunInv image₀ area' (lines ++ [line]) := by
  have hencodes := hend.encodes.addCase hinv.notPending isThen hlt
  obtain ⟨w, hw, diags, hemit⟩ := itEmitIT_eq s
    { area with it := area.it.addCase isThen hlt } hencodes
  obtain ⟨pre, before, es, hlines, hstream, hexec, hbefore⟩ := hend.stream
  obtain ⟨image₁, hput₁, hstream₁, hlen₁⟩ :=
    hstream.patchHalfword hthumb hinv.hasImage hend.position w
  have hput₁' : (putInsWithOffset s area.code (area.it.addCase isThen hlt).areaCurIdx 2 w).1
      = { area.code with image := image₁ } := hput₁
  rw [hput₁'] at hemit
  rw [itEmitImplicit, hemit] at happly
  obtain ⟨image, diags', hline, hstream₂, hlen₂⟩ :=
    assembleLine_of_applyCond hthumb happly hinv.hasImage hstream₁
  have hthens : thens.length < 3 := by
    have := hend.encodes.maxIdx
    omega
  refine ⟨_, diags', hline, EndsInBlock.runInv (block ++ [line])
    hinv.hasImage ?_ ⟨⟨pre, before, es, ?_, ?_, hexec, hbefore⟩,
      hend.lines.snoc hthens hblock hchoice hcond, hencodes, ?_⟩ fun h l hl => ?_⟩
  · exact congrArg (· + 1) hinv.notPending
  · rw [hlines, List.append_assoc]
  · rw [hw, List.append_assoc, List.cons_append] at hstream₂
    simpa using hstream₂
  · have heven : alignUp image₁.length 2 = image₁.length := by
      refine alignUp_of_dvd (by omega) ?_
      rw [hlen₁, hend.position]
      exact Nat.dvd_add (dvd_alignUp _ _) (Nat.dvd_mul_right 2 _)
    change image.length = alignUp image₁.length 2 + 2 * line.ins.halfwords.length at hlen₂
    rw [hlen₂, heven, hlen₁, hend.position, List.map_append, List.flatMap_append,
      List.length_append, List.map_singleton, List.flatMap_singleton]
    change _ = alignUp area.it.areaCurIdx 2 + _
    omega
  · rcases List.mem_append.mp hl with hl | hl
    · exact hblock l hl
    · exact List.mem_singleton.mp hl ▸ h

theorem assembleLine_runInv (hthumb : s.instrType ≠ .arm) (hinv : RunInv image₀ area lines)
    (line : ThumbLine) :
    ∃ area' diags, assembleLine s area line = some (area', diags)
      ∧ RunInv image₀ area' (lines ++ [line]) := by
  by_cases hcond : line.cond = always
  · exact assembleLine_always hthumb hinv hcond
  have hpending : ¬ area.it.curIdx < area.it.maxIdx := by
    rw [hinv.notPending]
    exact Nat.lt_irrefl _
  have hal : condCode line.cond ≠ ccAL := fun h => hcond ((condCode_eq_AL _).mp h)
  by_cases hext : area.it.implicitIT = true ∧ area.it.maxIdx < 4
  · obtain ⟨block, first, thens, hend, hblock⟩ := hinv.extensible hext.1 hext.2
    have happly : itApplyCond s area (condCode line.cond) line.enforceLast true
        = itEmitImplicit s area (area.it.extend area.code.curIdx (condCode line.cond) hext.2)
            line.enforceLast := by
      unfold itApplyCond
      rw [condCode_and_NV, dif_neg hpending, dif_pos hext, if_neg (by simp [hal])]
    have hcc := hend.encodes.cc
    unfold ITState.extend at happly
    rw [hcc, condCode_flip] at happly
    by_cases hthen : line.cond = first
    · rw [if_pos (by rw [hthen])] at happly
      exact assembleLine_addCase hthumb hinv hcond hext.2 hend hblock true hthen happly
    · rw [if_neg fun h => hthen (condCode_inj h)] at happly
      by_cases helse : line.cond = first ^^^ 1
      · rw [if_pos (by rw [helse])] at happly
        exact assembleLine_addCase hthumb hinv hcond hext.2 hend hblock false helse
          happly
      · rw [if_neg fun h => helse (condCode_inj h)] at happly
        exact assembleLine_newBlock hthumb hinv hcond happly
  · refine assembleLine_newBlock hthumb hinv hcond ?_
    unfold itApplyCond
    rw [condCode_and_NV, dif_neg hpending, dif_neg hext, if_pos (by simp [hal])]

theorem assembleLines_runInv (hthumb : s.instrType ≠ .arm) (hinv : RunInv image₀ area lines)
    (lines' : List ThumbLine) :
    ∃ area' diags, assembleLines s area lines' = some (area', diags)
      ∧ RunInv image₀ area' (lines ++ lines') := by
  induction lines' generalizing area lines with
  | nil => exact ⟨area, [], rfl, by rwa [List.append_nil]⟩
  | cons line lines' ih =>
    obtain ⟨area₁, diags₁, hstep, hinv₁⟩ := assembleLine_runInv hthumb hinv line
    obtain ⟨area₂, diags₂, hrun, hinv₂⟩ := ih hinv₁
    refine ⟨area₂, diags₁ ++ diags₂, ?_, ?_⟩
    · simp only [assembleLines, hstep, hrun, Option.bind_eq_bind, Option.bind_some,
        Option.pure_def]
    · rwa [List.append_assoc] at hinv₂

/-- **A run of Thumb instructions** that starts without a pending block. -/
theorem assembleLines_runs (hthumb : s.instrType ≠ .arm) (hinit : area.code.noInit = false)
    (hpending : area.it.curIdx = area.it.maxIdx) (himplicit : area.it.implicitIT = false)
    (lines : List ThumbLine) :
    ∃ area' diags, assembleLines s area lines = some (area', diags)
      ∧ Runs area.code.image area'.code.image lines := by
  have hstart : RunInv area.code.image area [] :=
    ⟨hinit, hpending, ⟨[], [], Stream.start _, rfl, .nil⟩,
      fun h => absurd (himplicit.symm.trans h) Bool.false_ne_true⟩
  obtain ⟨area', diags, hrun, hinv⟩ := assembleLines_runInv hthumb hstart lines
  exact ⟨area', diags, hrun, hinv.runs⟩

end Step

/-! ### Explicit blocks -/

/-- The T and E of an `IT` mnemonic. -/
def casesText (doLowerCase : Bool) (thens : List Bool) : Text :=
  thens.map fun isThen =>
    match doLowerCase, isThen with
    | true, true => 0x74
    | true, false => 0x65
    | false, true => 0x54
    | false, false => 0x45

/-- **The text of an `IT` instruction**, after `IT`: up to three T and E, an optional width
qualifier, spaces and a condition code. -/
structure ITText (s : AsmState) (doLowerCase : Bool) (text : Text) (thens : List Bool)
    (first : Cond) : Prop where
  length_le : thens.length ≤ 3
  text : ∃ tail, text = casesText doLowerCase thens ++ tail
    ∧ (optionGetInstrWidth s doLowerCase tail).1 ≠ .unrecognized
    ∧ ∃ rest, (optionGetCCodeIfThere s false
        (inputSkipWS (optionGetInstrWidth s doLowerCase tail).2.1)).1 = some (condCode first, rest)

/-- **A halfword encodes a then/else list**: as many instructions as the list and the first condition
stand for run after it under these conditions, and then the block ends. -/
def EncodesBlock (h : Halfword) (first : Cond) (thens : List Bool) : Prop :=
  ∀ is : List Thumb.Ins, is.length = thens.length + 1 → ∃ es,
    exec .outside (h :: is.flatMap Ins.halfwords) = some (es, .outside)
      ∧ es.map Executed.halfwords = is.map Ins.halfwords
      ∧ es.map Executed.cond = blockConds first thens

theorem encodesBlock_encodeIT (first : Cond) {thens : List Bool} (hlen : thens.length ≤ 3) :
    EncodesBlock (encodeIT first thens) first thens := by
  intro is his
  have hcount : is.length = (blockConds first thens).length := by
    rw [his, blockConds, List.length_cons, List.length_map]
  exact ⟨_, exec_encodeIT .outside (by decide) first thens is hlen his,
    blockTrace_halfwords _ 0 hcount, blockTrace_cond _ 0 hcount⟩

private theorem inputMatch_of_instrWidth {s : AsmState} {doLowerCase : Bool} {tail : Text}
    (h : (optionGetInstrWidth s doLowerCase tail).1 ≠ .unrecognized) {c : UInt8}
    (hspace : isspace c = false) (hcomment : c ≠ 0x3B) (hdot : c ≠ 0x2E) :
    inputMatch c tail = none := by
  cases tail with
  | nil => rfl
  | cons c' tail =>
    rw [inputMatch, if_neg]
    rintro rfl
    -- neither a qualifier nor the end of the keyword
    have hend : inputIsEndOfKeywordN (c' :: tail) 0 = false := by
      simp [inputIsEndOfKeywordN, endsKeyword, hspace, hcomment]
    have hkeyword : ∀ k : Name, k.head? = some 0x2E → inputMatchKeyword k (c' :: tail) = none := by
      intro k hk
      cases k with
      | nil => cases hk
      | cons k ks =>
        cases hk
        simp [inputMatchKeyword, Ne.symm hdot]
    refine h ?_
    unfold optionGetInstrWidth
    rw [hend, hkeyword _ (by cases doLowerCase <;> rfl), hkeyword _ (by cases doLowerCase <;> rfl)]
    simp only [Bool.false_eq_true, if_false]
    split <;> rfl

private theorem itCases_casesText {doLowerCase : Bool} {tail : Text}
    (hthen : inputMatch (if doLowerCase then 0x74 else 0x54) tail = none)
    (helse : inputMatch (if doLowerCase then 0x65 else 0x45) tail = none) (thens : List Bool)
    {room : Nat} (hroom : thens.length ≤ room) :
    itCases doLowerCase room (casesText doLowerCase thens ++ tail) = (thens, tail) := by
  induction thens generalizing room with
  | nil =>
    cases room with
    | zero => rfl
    | succ room => simp only [casesText, List.map_nil, List.nil_append, itCases, hthen, helse]
  | cons isThen thens ih =>
    cases room with
    | zero => simp at hroom
    | succ room =>
      have hih := ih (Nat.le_of_succ_le_succ hroom)
      cases doLowerCase <;> cases isThen <;>
        · simp only [casesText, List.map_cons, List.cons_append, itCases, inputMatch] at hih ⊢
          simp [hih]

private theorem itExplicit_encodes (areaCurIdx : Nat) {thens : List Bool} (first : Cond)
    (h : thens.length ≤ 3) :
    (itExplicit areaCurIdx thens (condCode first) h).Encodes first thens :=
  ⟨rfl, rfl, fun _ _ => rfl⟩

/-- **An explicit `IT` instruction** is written as the one that encodes its then/else list. -/
theorem mIt_encodes {s : AsmState} (hthumb : s.instrType ≠ .arm) {area : ITArea}
    (hinit : area.code.noInit = false) {doLowerCase : Bool} {text : Text} {thens : List Bool}
    {first : Cond} (h : ITText s doLowerCase text thens first) :
    ∃ area' diags hw, mIt s area doLowerCase text = some (false, area', diags)
      ∧ Stream area.code.image area'.code.image [hw] ∧ EncodesBlock hw first thens := by
  obtain ⟨hlen, tail, rfl, hwidth, rest, hcc⟩ := h
  have hthen : inputMatch (if doLowerCase then 0x74 else 0x54) tail = none := by
    cases doLowerCase <;> exact inputMatch_of_instrWidth hwidth (by decide) (by decide) (by decide)
  have helse : inputMatch (if doLowerCase then 0x65 else 0x45) tail = none := by
    cases doLowerCase <;> exact inputMatch_of_instrWidth hwidth (by decide) (by decide) (by decide)
  have hcases := itCases_casesText hthen helse thens hlen
  obtain ⟨w, hw, emitDiags, hemit⟩ := itEmitIT_eq s
    { area with it := itExplicit area.code.curIdx thens (condCode first) hlen }
    (itExplicit_encodes _ first hlen)
  obtain ⟨image, hput, hstream, -⟩ :=
    (Stream.start area.code.image).putHalfword hthumb hinit w
  have hput' : (putInsWithOffset s area.code
      (itExplicit area.code.curIdx thens (condCode first) hlen).areaCurIdx 2 w).1
      = { area.code with image } := hput
  have hnotArm : decide (s.instrType ≠ .arm) = true := by simpa using hthumb
  unfold mIt
  cases hw' : optionGetInstrWidth s doLowerCase tail with
  | mk width r =>
    cases hcc' : optionGetCCodeIfThere s false (inputSkipWS r.1) with
    | mk cc ccDiags =>
      simp only [hw'] at hwidth hcc
      simp only [hcc'] at hcc
      subst hcc
      simp only [hcases, hw', hwidth, if_false, hcc', hnotArm, hemit, hput', Option.bind_eq_bind,
        Option.bind_some, Option.pure_def]
      refine ⟨_, _, w.setWidth 16, rfl, hstream, ?_⟩
      rw [hw]
      exact encodesBlock_encodeIT first hlen

/-- **Conditions of Thumb instructions.** A run of instructions that starts without a pending block
runs each under its own condition; an explicit `IT` instruction encodes its then/else list. -/
theorem thumb_conditions {s : AsmState} (hthumb : s.instrType ≠ .arm) :
    (∀ (area : ITArea) (lines : List ThumbLine), area.code.noInit = false →
      area.it.curIdx = area.it.maxIdx → area.it.implicitIT = false →
      ∃ area' diags, assembleLines s area lines = some (area', diags)
        ∧ Runs area.code.image area'.code.image lines)
    ∧ ∀ (area : ITArea) (doLowerCase : Bool) (text : Text) (thens : List Bool) (first : Cond),
      area.code.noInit = false → ITText s doLowerCase text thens first →
      ∃ area' diags hw, mIt s area doLowerCase text = some (false, area', diags)
        ∧ Stream area.code.image area'.code.image [hw] ∧ EncodesBlock hw first thens :=
  ⟨fun _ lines hinit hpending himplicit =>
    assembleLines_runs hthumb hinit hpending himplicit lines,
    fun _ _ _ _ _ hinit h => mIt_encodes hthumb hinit h⟩

def thumb2 : AsmState where
  syn := .ualOnly
  instrType := .thumb
  cpuFeatures := kCPUExtV6T2
  targetName := .architecture (cstr "ARMv6T2")

/-- `ADDSEQ r0, r0, #1`, `BNE.W .`, which has to be the last of its block, and `NOP`. -/
def threeLines : List ThumbLine :=
  [⟨0, false, .narrow 0x1C40 (by decide) (by decide)⟩,
    ⟨1, true, .wide 0xF7FF 0xBFFE (by decide)⟩,
    ⟨always, false, .narrow 0xBF00 (by decide) (by decide)⟩]

/-- The run of these lines, and `ITTE EQ`. -/
theorem thumb_conditions_threeLines :
    (∃ area' diags, assembleLines thumb2 {} threeLines = some (area', diags)
      ∧ Runs [] area'.code.image threeLines)
    ∧ ∃ area' diags hw, mIt thumb2 {} false (cstr "TE EQ") = some (false, area', diags)
      ∧ Stream [] area'.code.image [hw] ∧ EncodesBlock hw 0 [true, false] := by
  have hthumb : thumb2.instrType ≠ .arm := by decide
  refine ⟨(thumb_conditions hthumb).1 {} threeLines rfl rfl rfl,
    (thumb_conditions hthumb).2 {} false _ [true, false] 0 rfl ⟨by decide, ?_⟩⟩
  exact ⟨cstr " EQ", rfl, by decide, [], rfl⟩

end Asasm
