import Mathlib.Data.List.Forall2
import Mathlib.Tactic.Common

/-!
# IT blocks of the Thumb instruction set

The `IT` instruction makes up to four instructions that follow it conditional. The processor keeps
the state of the block in ITSTATE: the upper four bits are the condition of the next instruction, the
lower four a mask that shifts one further condition bit in after each instruction, and is zero outside
a block. `exec` runs these rules over a stream of halfwords and records for each instruction under
which condition and where in its block it runs.

`encodeIT first thens` is the `IT` instruction for a first condition and the then/else list of the
instructions after the first. `exec_encodeIT` is its correctness: the block runs its instructions
under the conditions `blockConds first thens`, one after the other, and ends with the last.
-/

namespace Thumb

abbrev Halfword := BitVec 16

abbrev Cond := BitVec 4

/-- `AL`, the condition of instructions outside of blocks. -/
def always : Cond := 14

/-- `NV`, which no `IT` instruction may have as its first condition. -/
def never : Cond := 15

/-! ### Instructions -/

/-- The first halfword of a 32-bit instruction: its top five bits are `0b11101` or more. -/
def isWide (h : Halfword) : Bool := 0xE800 ≤ h

/-- An `IT` instruction. With a mask of zero the encoding is that of a hint. -/
def isIT (h : Halfword) : Bool := h >>> 8 = 0xBF && h &&& 0xF ≠ 0

/-- An instruction other than `IT`. -/
inductive Ins
  | narrow (h : Halfword) (hnarrow : isWide h = false) (hit : isIT h = false)
  | wide (h₁ h₂ : Halfword) (hwide : isWide h₁ = true)

def Ins.halfwords : Ins → List Halfword
  | .narrow h _ _ => [h]
  | .wide h₁ h₂ _ => [h₁, h₂]

/-! ### ITSTATE -/

def inBlock (itstate : BitVec 8) : Bool := itstate &&& 0xF ≠ 0

def lastInBlock (itstate : BitVec 8) : Bool := itstate &&& 0xF = 8

def condition (itstate : BitVec 8) : Cond :=
  if inBlock itstate then (itstate >>> 4).setWidth 4 else always

def advance (itstate : BitVec 8) : BitVec 8 :=
  if itstate &&& 7 = 0 then 0 else (itstate &&& 0xE0) ||| ((itstate <<< 1) &&& 0x1F)

/-- An `IT` instruction is unpredictable when its first condition is `NV`, or is `AL` and is not that
of a single instruction. -/
def predictable (h : Halfword) : Bool :=
  let first := (h >>> 4).setWidth 4
  let mask : BitVec 4 := h.setWidth 4
  first ≠ never && (first ≠ always || mask = 1 || mask = 2 || mask = 4 || mask = 8)

structure Executed where
  halfwords : List Halfword
  cond : Cond
  /-- Its position in its block, counted from 1; 0 outside of blocks. -/
  pos : Nat
  last : Bool
  /-- The `IT` instruction of its block is predictable. -/
  predictable : Bool
  deriving DecidableEq, Repr

structure ExecState where
  itstate : BitVec 8
  pos : Nat
  predictable : Bool
  deriving DecidableEq, Repr

def ExecState.outside : ExecState := ⟨0, 0, true⟩

namespace ExecState

def record (s : ExecState) (halfwords : List Halfword) : Executed where
  halfwords
  cond := condition s.itstate
  pos := if inBlock s.itstate then s.pos + 1 else 0
  last := lastInBlock s.itstate
  predictable := s.predictable

def next (s : ExecState) : ExecState :=
  if inBlock (advance s.itstate) then ⟨advance s.itstate, s.pos + 1, s.predictable⟩ else outside

/-- The state after an `IT` instruction. -/
def enter (h : Halfword) : ExecState := ⟨h.setWidth 8, 0, Thumb.predictable h⟩

end ExecState

/-- **Execution of a stream of halfwords.** It fails in the middle of a 32-bit instruction, and at an
`IT` instruction inside a block, which is unpredictable. -/
def exec : ExecState → List Halfword → Option (List Executed × ExecState)
  | s, [] => some ([], s)
  | s, [h] =>
    if isWide h then none
    else if isIT h then if inBlock s.itstate then none else some ([], .enter h)
    else some ([s.record [h]], s.next)
  | s, h :: h' :: hs =>
    if isWide h then (exec s.next hs).map fun r => (s.record [h, h'] :: r.1, r.2)
    else if isIT h then if inBlock s.itstate then none else exec (.enter h) (h' :: hs)
    else (exec s.next (h' :: hs)).map fun r => (s.record [h] :: r.1, r.2)

theorem exec_ins (s : ExecState) (i : Ins) (hs : List Halfword) :
    exec s (i.halfwords ++ hs)
      = (exec s.next hs).map fun r => (s.record i.halfwords :: r.1, r.2) := by
  cases i with
  | narrow h hnarrow hit =>
    cases hs with
    | nil => simp [Ins.halfwords, exec, hnarrow, hit]
    | cons h' hs => simp [Ins.halfwords, exec, hnarrow, hit]
  | wide h₁ h₂ hwide => simp [Ins.halfwords, exec, hwide]

theorem exec_it {s : ExecState} {h : Halfword} (hs : List Halfword) (hnarrow : isWide h = false)
    (hit : isIT h = true) (hout : inBlock s.itstate = false) :
    exec s (h :: hs) = exec (.enter h) hs := by
  cases hs with
  | nil => simp [exec, hnarrow, hit, hout]
  | cons h' hs => simp [exec, hnarrow, hit, hout]

theorem exec_append {s s' : ExecState} {hs : List Halfword} {es : List Executed}
    (h : exec s hs = some (es, s')) (hs' : List Halfword) :
    exec s (hs ++ hs') = (exec s' hs').map fun r => (es ++ r.1, r.2) := by
  induction s, hs using exec.induct generalizing es with
  | case1 s =>
    simp only [exec, Option.some.injEq, Prod.mk.injEq] at h
    obtain ⟨rfl, rfl⟩ := h
    simp
  | case2 s h₁ hwide => simp [exec, hwide] at h
  | case3 s h₁ hwide hit hin => simp [exec, hwide, hit, hin] at h
  | case4 s h₁ hwide hit hout =>
    simp only [exec, hwide, hit, hout, Bool.false_eq_true, if_true, if_false, Option.some.injEq,
      Prod.mk.injEq] at h
    obtain ⟨rfl, rfl⟩ := h
    rw [List.singleton_append, exec_it hs' (by simpa using hwide) hit (by simpa using hout)]
    simp
  | case5 s h₁ hwide hit =>
    simp only [exec, hwide, hit, Bool.false_eq_true, if_false, Option.some.injEq, Prod.mk.injEq]
      at h
    obtain ⟨rfl, rfl⟩ := h
    have := exec_ins s (.narrow h₁ (by simpa using hwide) (by simpa using hit)) hs'
    simpa [Ins.halfwords] using this
  | case6 s h₁ h₂ hs hwide ih =>
    simp only [exec, hwide, if_true, Option.map_eq_some_iff] at h
    obtain ⟨⟨es', s''⟩, hrest, heq⟩ := h
    cases heq
    simp only [List.cons_append, exec, hwide, if_true, ih hrest, Option.map_map]
    rfl
  | case7 s h₁ h₂ hs hwide hit hin => simp [exec, hwide, hit, hin] at h
  | case8 s h₁ h₂ hs hwide hit hout ih =>
    simp only [exec, hwide, hit, hout, Bool.false_eq_true, if_true, if_false] at h
    simp only [List.cons_append, exec, hwide, hit, hout, Bool.false_eq_true, if_true, if_false]
    exact ih h
  | case9 s h₁ h₂ hs hwide hit ih =>
    simp only [exec, hwide, hit, Bool.false_eq_true, if_false, Option.map_eq_some_iff] at h
    obtain ⟨⟨es', s''⟩, hrest, heq⟩ := h
    cases heq
    simp only [List.cons_append, exec, hwide, hit, Bool.false_eq_true, if_false] at ih ⊢
    rw [ih hrest, Option.map_map]
    rfl

/-! ### Encoding a block -/

def choose (first : Cond) (isThen : Bool) : Cond := if isThen then first else first ^^^ 1

def blockConds (first : Cond) (thens : List Bool) : List Cond := first :: thens.map (choose first)

/-- The mask of an `IT` instruction: the low condition bits of the instructions after the first,
closed by a one. -/
def encodeMask (first : Cond) : List Bool → BitVec 4
  | [] => 8
  | isThen :: thens => ((choose first isThen &&& 1) <<< 3) ||| (encodeMask first thens >>> 1)

/-- The `IT` instruction with the given fields. -/
def itHalfword (first : Cond) (mask : BitVec 4) : Halfword :=
  0xBF00 ||| (first.setWidth 16 <<< 4) ||| mask.setWidth 16

/-- The `IT` instruction of a block. -/
def encodeIT (first : Cond) (thens : List Bool) : Halfword :=
  itHalfword first (encodeMask first thens)

/-! ### Running a block -/

def joinState (cond : Cond) (mask : BitVec 4) : BitVec 8 :=
  (cond.setWidth 8 <<< 4) ||| mask.setWidth 8

private theorem inBlock_joinState (cond : Cond) (mask : BitVec 4) :
    inBlock (joinState cond mask) = (mask != 0) := by
  decide +revert

private theorem lastInBlock_joinState (cond : Cond) (mask : BitVec 4) :
    lastInBlock (joinState cond mask) = (mask == 8) := by
  decide +revert

private theorem condition_joinState (cond : Cond) {mask : BitVec 4} (hmask : mask ≠ 0) :
    condition (joinState cond mask) = cond := by
  decide +revert

private theorem advance_last (cond : Cond) : advance (joinState cond 8) = 0 := by
  decide +revert

def InBlockOf (first cond : Cond) : Prop := cond = first ∨ cond = first ^^^ 1

theorem inBlockOf_choose (first : Cond) (isThen : Bool) :
    InBlockOf first (choose first isThen) := by
  cases isThen
  · exact Or.inr rfl
  · exact Or.inl rfl

private theorem advance_joinState {cond first : Cond} (hcond : InBlockOf first cond) (isThen : Bool)
    {mask : BitVec 4} (heven : mask &&& 1 = 0) (hmask : mask ≠ 0) :
    advance (joinState cond (((choose first isThen &&& 1) <<< 3) ||| (mask >>> 1)))
      = joinState (choose first isThen) mask := by
  rcases hcond with rfl | rfl <;> decide +revert

private theorem encodeMask_ne_zero (first : Cond) :
    ∀ thens : List Bool, thens.length ≤ 3 → encodeMask first thens ≠ 0
  | [], _ => by decide +revert
  | [a], _ => by decide +revert
  | [a, b], _ => by decide +revert
  | [a, b, c], _ => by decide +revert
  | _ :: _ :: _ :: _ :: _, h => by
    simp only [List.length_cons] at h
    omega

private theorem encodeMask_even (first : Cond) :
    ∀ thens : List Bool, thens.length ≤ 2 → encodeMask first thens &&& 1 = 0
  | [], _ => by decide +revert
  | [a], _ => by decide +revert
  | [a, b], _ => by decide +revert
  | _ :: _ :: _ :: _, h => by
    simp only [List.length_cons] at h
    omega

private theorem encodeMask_cons_ne (first : Cond) (isThen : Bool) :
    ∀ thens : List Bool, thens.length ≤ 2 → encodeMask first (isThen :: thens) ≠ 8
  | [], _ => by decide +revert
  | [a], _ => by decide +revert
  | [a, b], _ => by decide +revert
  | _ :: _ :: _ :: _, h => by
    simp only [List.length_cons] at h
    omega

/-- The records of a block, for the instructions after `pos` others. -/
def blockTrace (predictable : Bool) : Nat → List Cond → List Ins → List Executed
  | pos, cond :: conds, i :: is =>
    ⟨i.halfwords, cond, pos + 1, is.isEmpty, predictable⟩
      :: blockTrace predictable (pos + 1) conds is
  | _, _, _ => []

/-- The records are of the instructions given, in their order, -/
theorem blockTrace_halfwords (predictable : Bool) (pos : Nat) {conds : List Cond} {is : List Ins}
    (h : is.length = conds.length) :
    (blockTrace predictable pos conds is).map Executed.halfwords = is.map Ins.halfwords := by
  induction is generalizing conds pos with
  | nil => cases conds <;> rfl
  | cons i is ih =>
    obtain ⟨cond, conds, rfl⟩ := List.exists_cons_of_length_eq_add_one h.symm
    rw [blockTrace, List.map_cons, List.map_cons, ih (pos + 1) (by simpa using h)]

theorem blockTrace_cond (predictable : Bool) (pos : Nat) {conds : List Cond} {is : List Ins}
    (h : is.length = conds.length) :
    (blockTrace predictable pos conds is).map Executed.cond = conds := by
  induction is generalizing conds pos with
  | nil =>
    rw [List.length_eq_zero_iff.mp h.symm]
    rfl
  | cons i is ih =>
    obtain ⟨cond, conds, rfl⟩ := List.exists_cons_of_length_eq_add_one h.symm
    rw [blockTrace, List.map_cons, ih (pos + 1) (by simpa using h)]

/-- **The rest of a block** runs under its conditions, and the last instruction leaves it. -/
private theorem exec_block {first cond : Cond} (hcond : InBlockOf first cond) (thens : List Bool)
    (is : List Ins) (hlen : thens.length ≤ 3) (his : is.length = thens.length + 1) (pos : Nat)
    (predictable : Bool) :
    exec ⟨joinState cond (encodeMask first thens), pos, predictable⟩ (is.flatMap Ins.halfwords)
      = some (blockTrace predictable pos (cond :: thens.map (choose first)) is, .outside) := by
  induction thens generalizing cond is pos with
  | nil =>
    obtain ⟨i, rfl⟩ := List.length_eq_one_iff.mp his
    have hstate : encodeMask first [] = 8 := rfl
    have hrun := exec_ins ⟨joinState cond 8, pos, predictable⟩ i []
    simp only [List.append_nil] at hrun
    simp only [List.flatMap_cons, List.flatMap_nil, List.append_nil, hstate, hrun, exec,
      Option.map_some, ExecState.next, advance_last, ExecState.record, inBlock_joinState,
      lastInBlock_joinState, condition_joinState cond (show (8 : BitVec 4) ≠ 0 by decide)]
    rfl
  | cons isThen thens ih =>
    obtain ⟨i, is, rfl⟩ := List.exists_cons_of_length_eq_add_one his
    simp only [List.length_cons] at hlen his
    have hmask := encodeMask_ne_zero first (isThen :: thens) (by simpa using hlen)
    have hmask' := encodeMask_ne_zero first thens (by omega)
    have hadvance := advance_joinState hcond isThen (encodeMask_even first thens (by omega)) hmask'
    have hnext : (ExecState.mk (joinState cond (encodeMask first (isThen :: thens))) pos
        predictable).next
        = ⟨joinState (choose first isThen) (encodeMask first thens), pos + 1, predictable⟩ := by
      simp only [ExecState.next, encodeMask, hadvance, inBlock_joinState, bne_iff_ne, ne_eq, hmask',
        not_false_eq_true, if_true]
    have hnot : is.isEmpty = false := by
      cases is with
      | nil => simp at his
      | cons _ _ => rfl
    have hlast : (encodeMask first (isThen :: thens) == 8) = false := by
      simpa using encodeMask_cons_ne first isThen thens (by omega)
    rw [List.flatMap_cons, exec_ins, hnext,
      ih (inBlockOf_choose first isThen) is (by omega) (by omega) (pos + 1)]
    simp only [Option.map_some, ExecState.record, inBlock_joinState, bne_iff_ne, ne_eq, hmask,
      not_false_eq_true, if_true, lastInBlock_joinState, condition_joinState cond hmask, hlast,
      List.map_cons, blockTrace, hnot]

private theorem itHalfword_fields (first : Cond) {mask : BitVec 4} (hmask : mask ≠ 0) :
    isWide (itHalfword first mask) = false ∧ isIT (itHalfword first mask) = true
      ∧ (itHalfword first mask).setWidth 8 = joinState first mask
      ∧ ((itHalfword first mask) >>> 4).setWidth 4 = first := by
  decide +revert

/-- **The encoding is correct.** Outside of blocks, the `IT` instruction for a first condition and
up to three choices runs as many instructions under the conditions chosen, as one block. -/
theorem exec_encodeIT (s : ExecState) (hs : inBlock s.itstate = false) (first : Cond)
    (thens : List Bool) (is : List Ins) (hlen : thens.length ≤ 3)
    (his : is.length = thens.length + 1) :
    exec s (encodeIT first thens :: is.flatMap Ins.halfwords)
      = some (blockTrace (predictable (encodeIT first thens)) 0 (blockConds first thens) is,
          .outside) := by
  obtain ⟨hnarrow, hit, hstate, -⟩ :=
    itHalfword_fields first (encodeMask_ne_zero first thens hlen)
  rw [encodeIT, exec_it _ hnarrow hit hs, ExecState.enter, hstate]
  exact exec_block (Or.inl rfl) thens is hlen his 0 _

/-- Which blocks are predictable, when the first condition is not `AL`. -/
theorem predictable_encodeIT {first : Cond} (hfirst : first ≠ always) {thens : List Bool}
    (hlen : thens.length ≤ 3) : predictable (encodeIT first thens) = (first != never) := by
  obtain ⟨-, -, -, hfield⟩ := itHalfword_fields first (encodeMask_ne_zero first thens hlen)
  simp only [predictable, encodeIT, hfield, ne_eq, hfirst, not_false_eq_true, decide_true,
    Bool.true_or, Bool.and_true, bne, decide_not]
  rfl

end Thumb
