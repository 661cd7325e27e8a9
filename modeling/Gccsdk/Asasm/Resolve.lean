import Gccsdk.Asasm.Eval
import Gccsdk.Lib.Chase

/-!
# Resolving symbols

`Value_ResolveSymbol` of `value.c`: a multiple of a defined symbol is replaced by what the symbol is
defined to be, until the value is no symbol or one that is not defined (`resolveStep`,
`resolveSymbol`). A failure leaves the last multiple of a symbol.

The loop ends when the chain of definitions does (`resolveSymbol_ends_iff`). What it does to the
meaning of a value is described with the linear form that the value is of the end of its chain
(`Linear`): factors and offsets multiplied out in 32 bits. For integers of 32 bits, addresses and symbols
that is the meaning; for integers of 64 bits the loop reads half of the value, and for a `double` it
multiplies out before it rounds (`resolveSymbol_kept_iff`).
-/

namespace Asasm

open Chase

/-! ### The loop -/

/-- `SYMBOL_DEFINED`. -/
def Symbol.isDefined (sym : Symbol) : Bool := isSet sym.type symbolDefined

/-- One turn of the loop. -/
inductive ResolveStep
  | stops (failed : Bool) (value : Value)
  | goesOn (value : Value)
  | aborts

/-- The value of a symbol in place of the symbol in `value`. -/
def substitute (ops : DoubleOps) (factor offset : BitVec 32) (value : Value) : Value → ResolveStep
  | .bool b => if factor ≠ 1 ∨ offset ≠ 0 then .stops true value else .goesOn (.bool b)
  | .string s => if factor ≠ 1 ∨ offset ≠ 0 then .stops true value else .goesOn (.string s)
  | .int i type =>
    if type = .pureInt then .goesOn (.int (factor * i + offset) .pureInt)
    else if factor = 1 ∧ offset = 0 then .goesOn (.int i type)
    else .stops true value
  | .int64 i =>
    -- `Data.Int.i` of a 64-bit integer is its low half, and the arithmetic is that of `int`
    .goesOn (.int64 ((factor * i.setWidth 32 + offset).signExtend 64))
  | .float x => .goesOn (.float (ops.add (ops.mul (ops.ofInt factor) x) (ops.ofInt offset)))
  | .addr r i => if factor ≠ 1 then .stops true value else .goesOn (.addr r (i + offset))
  | .symbol s factor' offset' => .goesOn (.symbol s (factor * factor') (factor * offset' + offset))
  | _ => .stops true value

section Loop

variable (ops : DoubleOps) (heap : SymHeap) (resolveAbsArea : Bool)

/-- **One turn** of the loop of `Value_ResolveSymbol`. -/
def resolveStep : Value → ResolveStep
  | .symbol s factor offset =>
    if (heap.sym s).isDefined || (resolveAbsArea && heap.isAbsArea s) then
      if resolveAbsArea && (heap.sym s).isArea then
        match (heap.sym s).getBaseAddress with
        | none => .aborts
        | some base => .stops false (.int (factor * base + offset) .pureInt)
      else substitute ops factor offset (.symbol s factor offset) (heap.sym s).value
    else .stops false (.symbol s factor offset)
  | value => .stops false value

/-- How `Value_ResolveSymbol` ends: with its result and the value left, or in an assertion. -/
inductive Resolved
  | done (failed : Bool) (value : Value)
  | aborted

/-- **`Value_ResolveSymbol`**; none when it has not ended after so many turns. -/
def resolveSymbol : (turns : Nat) → Value → Option Resolved
  | 0, _ => none
  | turns + 1, value =>
    match resolveStep ops heap resolveAbsArea value with
    | .stops failed value => some (.done failed value)
    | .goesOn value => resolveSymbol turns value
    | .aborts => some .aborted

end Loop

/-! ### Termination -/

def Value.symbol? : Value → Option SymId
  | .symbol s _ _ => some s
  | _ => none

def SymHeap.refersTo (heap : SymHeap) (s : SymId) : Option SymId :=
  if (heap.sym s).isDefined then (heap.sym s).value.symbol? else none

/-- **No circles**: every chain of definitions ends. -/
def SymHeap.Acyclic (heap : SymHeap) : Prop := ∀ s, Ends heap.refersTo s

section Termination

variable {ops : DoubleOps} {heap : SymHeap} {resolveAbsArea : Bool} {s : SymId}
  {factor offset : BitVec 32}

theorem substitute_goesOn {v v' w : Value} (h : substitute ops factor offset w v = .goesOn v') :
    v'.symbol? = v.symbol? := by
  cases v with
  | bool b =>
    rw [substitute] at h
    split at h
    · cases h
    · cases h
      rfl
  | string s =>
    rw [substitute] at h
    split at h
    · cases h
    · cases h
      rfl
  | int i type =>
    rw [substitute] at h
    split at h
    · cases h
      rfl
    · split at h
      · cases h
        rfl
      · cases h
  | int64 i =>
    cases h
    rfl
  | float x =>
    cases h
    rfl
  | addr r i =>
    rw [substitute] at h
    split at h
    · cases h
    · cases h
      rfl
  | symbol s factor' offset' =>
    cases h
    rfl
  | _ => cases h

theorem resolveStep_defined (hdef : (heap.sym s).isDefined = true)
    (harea : (resolveAbsArea && (heap.sym s).isArea) = false) :
    resolveStep ops heap resolveAbsArea (.symbol s factor offset)
      = substitute ops factor offset (.symbol s factor offset) (heap.sym s).value := by
  rw [resolveStep, hdef, Bool.true_or, if_pos rfl, harea]
  rfl

/-- **A turn that goes on** has come to the symbol that the definition refers to. -/
theorem resolveStep_goesOn {v : Value}
    (h : resolveStep ops heap resolveAbsArea (.symbol s factor offset) = .goesOn v) :
    v.symbol? = heap.refersTo s := by
  by_cases harea : (resolveAbsArea && (heap.sym s).isArea) = true
  · -- an area ends the loop
    rw [resolveStep, harea, if_pos rfl] at h
    split at h
    · split at h
      · cases h
      · cases h
    · cases h
  · by_cases hdef : (heap.sym s).isDefined = true
    · rw [resolveStep_defined hdef (Bool.eq_false_iff.mpr harea)] at h
      rw [SymHeap.refersTo, if_pos hdef]
      exact substitute_goesOn h
    · have habs : ¬ (resolveAbsArea && heap.isAbsArea s) = true := by
        intro habs
        refine harea ?_
        simp only [SymHeap.isAbsArea, Bool.and_eq_true] at habs ⊢
        exact ⟨habs.1, habs.2.1⟩
      rw [resolveStep, Bool.eq_false_iff.mpr hdef, Bool.eq_false_iff.mpr habs] at h
      cases h

theorem resolveStep_of_none {v : Value} (h : v.symbol? = none) :
    resolveStep ops heap resolveAbsArea v = .stops false v := by
  cases v with
  | symbol s factor offset => cases h
  | _ => rfl

theorem resolveSymbol_of_none {v : Value} (h : v.symbol? = none) (turns : Nat) :
    resolveSymbol ops heap resolveAbsArea (turns + 1) v = some (.done false v) := by
  rw [resolveSymbol, resolveStep_of_none h]

theorem symbol?_eq_some {v : Value} (h : v.symbol? = some s) :
    ∃ factor offset, v = .symbol s factor offset := by
  cases v with
  | symbol s' factor offset =>
    cases h
    exact ⟨factor, offset, rfl⟩
  | _ => cases h

theorem resolveSymbol_ends (h : Ends heap.refersTo s) (resolveAbsArea : Bool) :
    ∀ factor offset, ∃ turns,
      (resolveSymbol ops heap resolveAbsArea turns (.symbol s factor offset)).isSome = true := by
  refine Ends.induction (motive := fun s => ∀ factor offset, ∃ turns,
    (resolveSymbol ops heap resolveAbsArea turns (.symbol s factor offset)).isSome = true) h ?_ ?_
  · intro s hstop factor offset
    refine ⟨2, ?_⟩
    rw [resolveSymbol]
    cases hstep : resolveStep ops heap resolveAbsArea (.symbol s factor offset) with
    | stops failed v => rfl
    | aborts => rfl
    | goesOn v =>
      have hv := (resolveStep_goesOn hstep).trans hstop
      change (resolveSymbol ops heap resolveAbsArea 1 v).isSome = true
      rw [resolveSymbol_of_none hv]
      rfl
  · intro s t hst _ ih factor offset
    cases hstep : resolveStep ops heap resolveAbsArea (.symbol s factor offset) with
    | stops failed v => exact ⟨1, by rw [resolveSymbol, hstep]; rfl⟩
    | aborts => exact ⟨1, by rw [resolveSymbol, hstep]; rfl⟩
    | goesOn v =>
      obtain ⟨factor', offset', rfl⟩ := symbol?_eq_some ((resolveStep_goesOn hstep).trans hst)
      obtain ⟨turns, hturns⟩ := ih factor' offset'
      exact ⟨turns + 1, by rwa [resolveSymbol, hstep]⟩

theorem ends_of_resolveSymbol (turns : Nat) :
    ∀ s factor offset, (resolveSymbol ops heap false turns (.symbol s factor offset)).isSome = true →
      Ends heap.refersTo s := by
  induction turns with
  | zero =>
    intro s factor offset h
    cases h
  | succ turns ih =>
    intro s factor offset h
    cases hrefers : heap.refersTo s with
    | none => exact .stop hrefers
    | some t =>
      have hdef : (heap.sym s).isDefined = true := by
        by_contra hdef
        rw [SymHeap.refersTo, if_neg hdef] at hrefers
        cases hrefers
      rw [SymHeap.refersTo, if_pos hdef] at hrefers
      obtain ⟨factor', offset', hvalue⟩ := symbol?_eq_some hrefers
      rw [resolveSymbol, resolveStep_defined hdef (by rfl), hvalue, substitute] at h
      have hst : heap.refersTo s = some t := by rw [SymHeap.refersTo, if_pos hdef, hrefers]
      rw [ends_of_next hst]
      exact ih _ _ _ h

/-- **`Value_ResolveSymbol` ends** for all values just if no definitions run in a circle. -/
theorem resolveSymbol_ends_iff :
    (∀ resolveAbsArea v, ∃ turns, (resolveSymbol ops heap resolveAbsArea turns v).isSome = true)
      ↔ heap.Acyclic := by
  constructor
  · intro h s
    obtain ⟨turns, hturns⟩ := h false (.symbol s 1 0)
    exact ends_of_resolveSymbol turns s 1 0 hturns
  · intro h resolveAbsArea v
    cases hv : v.symbol? with
    | none => exact ⟨1, by rw [resolveSymbol_of_none hv]; rfl⟩
    | some s =>
      obtain ⟨factor, offset, rfl⟩ := symbol?_eq_some hv
      exact resolveSymbol_ends (h s) resolveAbsArea factor offset

end Termination

/-! ### Meaning -/

/-- **What a value stands for**: a number of one of three kinds, or a multiple of something else with an
offset. -/
inductive Meant
  | word (n : BitVec 32)
  | int64 (n : BitVec 64)
  | float (x : ARMFloat)
  | other (factor offset : BitVec 32) (v : Value)

/-- `factor * m + offset`, in the arithmetic of the kind. -/
def Meant.affine (ops : DoubleOps) (factor offset : BitVec 32) : Meant → Meant
  | .word n => .word (factor * n + offset)
  | .int64 n => .int64 (factor.signExtend 64 * n + offset.signExtend 64)
  | .float x => .float (ops.add (ops.mul (ops.ofInt factor) x) (ops.ofInt offset))
  | .other factor' offset' v => .other (factor * factor') (factor * offset' + offset) v

/-- Strings, truth values, registers and register lists, code, and no value at all. -/
def Value.isOther : Value → Bool
  | .int _ type => type ≠ .pureInt
  | .string _ => true
  | .bool _ => true
  | .code _ => true
  | .illegal => true
  | _ => false

/-- **The meaning of a value** in a symbol table. -/
inductive Denotes (ops : DoubleOps) (heap : SymHeap) (env : Assignment) : Value → Meant → Prop
  | int (i : BitVec 32) : Denotes ops heap env (.int i .pureInt) (.word i)
  | addr (r : Fin 16) (i : BitVec 32) : Denotes ops heap env (.addr r i) (.word (env.reg r + i))
  | int64 (i : BitVec 64) : Denotes ops heap env (.int64 i) (.int64 i)
  | float (x : ARMFloat) : Denotes ops heap env (.float x) (.float x)
  | other (v : Value) (h : v.isOther = true) : Denotes ops heap env v (.other 1 0 v)
  | symbol (s : SymId) (factor offset : BitVec 32) (h : (heap.sym s).isDefined = false) :
    Denotes ops heap env (.symbol s factor offset) (.word (factor * env.sym s + offset))
  | defined (s : SymId) (factor offset : BitVec 32) (m : Meant) (h : (heap.sym s).isDefined = true)
    (hm : Denotes ops heap env (heap.sym s).value m) :
    Denotes ops heap env (.symbol s factor offset) (m.affine ops factor offset)

/-- Values of type `double` are the same also when both are a NaN. -/
def SameFloat (x y : ARMFloat) : Prop := x = y ∨ (isNaN x = true ∧ isNaN y = true)

def Meant.Same : Meant → Meant → Prop
  | .float x, .float y => SameFloat x y
  | m, m' => m = m'

/-- **The meaning is kept.** -/
def MeaningKept (ops : DoubleOps) (heap : SymHeap) (env : Assignment) (v v' : Value) : Prop :=
  ∃ m m', Denotes ops heap env v m ∧ Denotes ops heap env v' m' ∧ m.Same m'

/-- **The linear form** that a value is of the end of its chain, with factors and offsets multiplied out in
32 bits. -/
inductive Linear (heap : SymHeap) : Value → (factor offset : BitVec 32) → Value → Prop
  | base (v : Value) (h : v.symbol? = none) : Linear heap v 1 0 v
  | symbol (s : SymId) (factor offset : BitVec 32) (h : (heap.sym s).isDefined = false) :
    Linear heap (.symbol s factor offset) factor offset (.symbol s 1 0)
  | defined (s : SymId) (factor offset factor' offset' : BitVec 32) (b : Value)
    (h : (heap.sym s).isDefined = true) (hv : Linear heap (heap.sym s).value factor' offset' b) :
    Linear heap (.symbol s factor offset) (factor * factor') (factor * offset' + offset) b

section Meaning

variable {ops : DoubleOps} {heap : SymHeap} {env : Assignment} {v b : Value} {m m' : Meant}
  {s : SymId} {factor offset F O : BitVec 32}

theorem Denotes.unique (h : Denotes ops heap env v m) (h' : Denotes ops heap env v m') : m = m' := by
  induction h generalizing m' with
  | int i =>
    cases h' with
    | int => rfl
    | other _ hother => cases hother
  | addr r i =>
    cases h' with
    | addr => rfl
    | other _ hother => cases hother
  | int64 i =>
    cases h' with
    | int64 => rfl
    | other _ hother => cases hother
  | float x =>
    cases h' with
    | float => rfl
    | other _ hother => cases hother
  | other v hother =>
    cases h' with
    | other => rfl
    | _ => cases hother
  | symbol s factor offset hdef =>
    cases h' with
    | symbol => rfl
    | other _ hother => cases hother
    | defined _ _ _ _ hdef' => rw [hdef] at hdef'; cases hdef'
  | defined s factor offset m hdef _ ih =>
    cases h' with
    | symbol _ _ _ hdef' => rw [hdef] at hdef'; cases hdef'
    | other _ hother => cases hother
    | defined _ _ _ m' _ hm' => rw [ih hm']

theorem exists_linear (h : heap.Acyclic) (v : Value) : ∃ F O b, Linear heap v F O b := by
  cases hv : v.symbol? with
  | none => exact ⟨1, 0, v, .base v hv⟩
  | some s =>
    obtain ⟨factor, offset, rfl⟩ := symbol?_eq_some hv
    refine Ends.induction
      (motive := fun s => ∀ factor offset, ∃ F O b, Linear heap (.symbol s factor offset) F O b)
      (h s) ?_ ?_ factor offset
    · intro s hstop factor offset
      cases hdef : (heap.sym s).isDefined with
      | false => exact ⟨_, _, _, .symbol s factor offset hdef⟩
      | true =>
        rw [SymHeap.refersTo, if_pos hdef] at hstop
        exact ⟨_, _, _, .defined s factor offset 1 0 _ hdef (.base _ hstop)⟩
    · intro s t hst _ ih factor offset
      cases hdef : (heap.sym s).isDefined with
      | false => exact ⟨_, _, _, .symbol s factor offset hdef⟩
      | true =>
        rw [SymHeap.refersTo, if_pos hdef] at hst
        obtain ⟨factor', offset', hvalue⟩ := symbol?_eq_some hst
        obtain ⟨F, O, b, hlinear⟩ := ih factor' offset'
        exact ⟨_, _, _, .defined s factor offset F O b hdef (hvalue ▸ hlinear)⟩

theorem Linear.scale (h : Linear heap (.symbol s factor offset) F O b) (f o : BitVec 32) :
    Linear heap (.symbol s (f * factor) (f * offset + o)) (f * F) (f * O + o) b := by
  cases h with
  | base _ hv => cases hv
  | symbol _ _ _ hdef => exact .symbol s _ _ hdef
  | defined _ _ _ F O _ hdef hv =>
    have hform := Linear.defined s (f * factor) (f * offset + o) F O b hdef hv
    have hF : f * factor * F = f * (factor * F) := mul_assoc f factor F
    have hO : f * factor * O + (f * offset + o) = f * (factor * O + offset) + o := by ring
    rwa [hF, hO] at hform

theorem Linear.eq_of_none (h : Linear heap v F O b) (hv : v.symbol? = none) :
    F = 1 ∧ O = 0 ∧ b = v := by
  cases h with
  | base => exact ⟨rfl, rfl, rfl⟩
  | symbol => cases hv
  | defined => cases hv

theorem Linear.of_defined (h : Linear heap (.symbol s factor offset) F O b)
    (hdef : (heap.sym s).isDefined = true) :
    ∃ F' O', F = factor * F' ∧ O = factor * O' + offset ∧ Linear heap (heap.sym s).value F' O' b := by
  cases h with
  | base _ hv => cases hv
  | symbol _ _ _ hdef' =>
    rw [hdef] at hdef'
    cases hdef'
  | defined _ _ _ F' O' _ _ hv => exact ⟨F', O', rfl, rfl, hv⟩

theorem Linear.of_not_defined (h : Linear heap (.symbol s factor offset) F O b)
    (hdef : (heap.sym s).isDefined = false) : F = factor ∧ O = offset ∧ b = .symbol s 1 0 := by
  cases h with
  | base _ hv => cases hv
  | symbol => exact ⟨rfl, rfl, rfl⟩
  | defined _ _ _ _ _ _ hdef' =>
    rw [hdef] at hdef'
    cases hdef'

def LastSymbol (heap : SymHeap) (t : SymId) (b : Value) : Prop :=
  ((heap.sym t).isDefined = false ∧ b = .symbol t 1 0)
    ∨ ((heap.sym t).isDefined = true ∧ (heap.sym t).value = b ∧ b.symbol? = none)

/-- **The end of the loop**: it comes to the linear form at the last symbol of the chain. The induction is
along the chain; a hop multiplies what is behind it. -/
theorem exists_last (ops : DoubleOps) (resolveAbsArea : Bool) (h : Ends heap.refersTo s)
    (hareas : ∀ s, (heap.sym s).isArea = true → (heap.sym s).isDefined = false) :
    ∀ factor offset F O, Linear heap (.symbol s factor offset) F O b → ∃ t k, LastSymbol heap t b
      ∧ ∀ n, resolveSymbol ops heap resolveAbsArea (n + k) (.symbol s factor offset)
        = resolveSymbol ops heap resolveAbsArea n (.symbol t F O) := by
  refine Ends.induction (motive := fun s => ∀ factor offset F O,
    Linear heap (.symbol s factor offset) F O b → ∃ t k, LastSymbol heap t b
      ∧ ∀ n, resolveSymbol ops heap resolveAbsArea (n + k) (.symbol s factor offset)
        = resolveSymbol ops heap resolveAbsArea n (.symbol t F O)) h ?_ ?_
  · intro s hstop factor offset F O hlinear
    refine ⟨s, 0, ?_⟩
    cases hdef : (heap.sym s).isDefined with
    | false =>
      obtain ⟨rfl, rfl, rfl⟩ := hlinear.of_not_defined hdef
      exact ⟨Or.inl ⟨hdef, rfl⟩, fun n => rfl⟩
    | true =>
      rw [SymHeap.refersTo, if_pos hdef] at hstop
      obtain ⟨F, O, rfl, rfl, hv⟩ := hlinear.of_defined hdef
      obtain ⟨rfl, rfl, rfl⟩ := hv.eq_of_none hstop
      refine ⟨Or.inr ⟨hdef, rfl, hstop⟩, fun n => ?_⟩
      rw [mul_one, mul_zero, zero_add]
      rfl
  · intro s t hst _ ih factor offset F O hlinear
    have hdef : (heap.sym s).isDefined = true := by
      by_contra hdef
      rw [SymHeap.refersTo, if_neg hdef] at hst
      cases hst
    rw [SymHeap.refersTo, if_pos hdef] at hst
    obtain ⟨f, o, hvalue⟩ := symbol?_eq_some hst
    obtain ⟨F, O, rfl, rfl, hv⟩ := hlinear.of_defined hdef
    rw [hvalue] at hv
    obtain ⟨u, k, hlast, hrun⟩ := ih _ _ _ _ (hv.scale factor offset)
    refine ⟨u, k + 1, hlast, fun n => ?_⟩
    have harea : (resolveAbsArea && (heap.sym s).isArea) = false := by
      by_contra harea
      rw [Bool.not_eq_false, Bool.and_eq_true] at harea
      rw [hareas s harea.2] at hdef
      cases hdef
    rw [← hrun n, ← Nat.add_assoc, resolveSymbol, resolveStep_defined hdef harea, hvalue]
    rfl

/-! ### Forms and meanings -/

/-- What a linear form makes of a meaning: for 64 bits the low half is known. -/
def Meant.Form (F O : BitVec 32) : Meant → Meant → Prop
  | .word n, .word n' => n' = F * n + O
  | .other f o v, .other f' o' v' => f' = F * f ∧ o' = F * o + O ∧ v' = v
  | .int64 n, .int64 n' => n'.setWidth 32 = F * n.setWidth 32 + O
  | .float _, .float _ => True
  | _, _ => False

theorem setWidth_signExtend (x : BitVec 32) : (x.signExtend 64).setWidth 32 = x := by
  ext i hi
  simp [BitVec.getElem_setWidth, BitVec.getLsbD_signExtend, hi]
  omega

theorem Meant.Form.affine (ops : DoubleOps) (h : Meant.Form F O m m') (factor offset : BitVec 32) :
    Meant.Form (factor * F) (factor * O + offset) m (m'.affine ops factor offset) := by
  cases m with
  | word n =>
    cases m' with
    | word n' =>
      change n' = _ at h
      change factor * n' + offset = _
      rw [h]
      ring
    | _ => cases h
  | int64 n =>
    cases m' with
    | int64 n' =>
      change n'.setWidth 32 = _ at h
      change (factor.signExtend 64 * n' + offset.signExtend 64).setWidth 32 = _
      rw [BitVec.setWidth_add _ _ (by decide), BitVec.setWidth_mul _ _ (by decide),
        setWidth_signExtend, setWidth_signExtend, h]
      ring
    | _ => cases h
  | float x =>
    cases m' with
    | float y => trivial
    | _ => cases h
  | other f o v =>
    cases m' with
    | other f' o' v' =>
      obtain ⟨rfl, rfl, rfl⟩ := h
      refine ⟨?_, ?_, rfl⟩
      · ring
      · ring
    | _ => cases h

theorem Linear.denotes (h : Linear heap v F O b) (hb : Denotes ops heap env b m) :
    ∃ m', Denotes ops heap env v m' ∧ Meant.Form F O m m' := by
  induction h with
  | base v _ =>
    refine ⟨m, hb, ?_⟩
    cases m with
    | word n => change n = 1 * n + 0; ring
    | int64 n => change n.setWidth 32 = 1 * n.setWidth 32 + 0; ring
    | float x => trivial
    | other f o v =>
      refine ⟨?_, ?_, rfl⟩
      · ring
      · ring
  | symbol s factor offset hdef =>
    have hunique := hb.unique (.symbol s 1 0 hdef)
    subst hunique
    refine ⟨_, .symbol s factor offset hdef, ?_⟩
    change factor * env.sym s + offset = factor * (1 * env.sym s + 0) + offset
    ring
  | defined s factor offset F O b hdef _ ih =>
    obtain ⟨m', hm', hform⟩ := ih hb
    exact ⟨_, .defined s factor offset m' hdef hm', hform.affine ops factor offset⟩

theorem exists_denotes (hv : v.symbol? = none) : ∃ m, Denotes ops heap env v m := by
  cases v with
  | symbol => cases hv
  | int i type =>
    by_cases htype : type = .pureInt
    · subst htype
      exact ⟨_, .int i⟩
    · exact ⟨_, .other _ (decide_eq_true htype)⟩
  | addr r i => exact ⟨_, .addr r i⟩
  | int64 i => exact ⟨_, .int64 i⟩
  | float x => exact ⟨_, .float x⟩
  | _ => exact ⟨_, .other _ rfl⟩

theorem Linear.unique {F' O' : BitVec 32} {b' : Value} (h : Linear heap v F O b)
    (h' : Linear heap v F' O' b') : F = F' ∧ O = O' ∧ b = b' := by
  induction h generalizing F' O' b' with
  | base v hv =>
    obtain ⟨rfl, rfl, rfl⟩ := h'.eq_of_none hv
    exact ⟨rfl, rfl, rfl⟩
  | symbol s factor offset hdef =>
    obtain ⟨rfl, rfl, rfl⟩ := h'.of_not_defined hdef
    exact ⟨rfl, rfl, rfl⟩
  | defined s factor offset F O b hdef _ ih =>
    obtain ⟨F', O', rfl, rfl, hv'⟩ := h'.of_defined hdef
    obtain ⟨rfl, rfl, rfl⟩ := ih hv'
    exact ⟨rfl, rfl, rfl⟩

theorem eq_float {x : ARMFloat} (hb : b.symbol? = none) (h : Denotes ops heap env b (.float x)) :
    b = .float x := by
  cases b with
  | symbol => cases hb
  | float y =>
    cases h
    rfl
  | _ => cases h

/-! ### What is left at the end -/

/-- **What the loop makes of a meaning**, given the linear form. -/
def Meant.resolved (ops : DoubleOps) (F O : BitVec 32) : Meant → Meant
  | .word n => .word (F * n + O)
  | .int64 n => .int64 ((F * n.setWidth 32 + O).signExtend 64)
  | .float x => .float (ops.add (ops.mul (ops.ofInt F) x) (ops.ofInt O))
  | .other f o v => .other (F * f) (F * o + O) v

/-- A result whose meaning is `m`. -/
def Leaves (ops : DoubleOps) (heap : SymHeap) (env : Assignment) (resolveAbsArea : Bool) (v : Value)
    (m : Meant) : Prop :=
  ∃ failed v', resolveSymbol ops heap resolveAbsArea 2 v = some (.done failed v')
    ∧ Denotes ops heap env v' m

private theorem leaves_of_goesOn {resolveAbsArea : Bool} {v' : Value}
    (hstep : resolveStep ops heap resolveAbsArea v = .goesOn v') (hv' : v'.symbol? = none)
    (hm : Denotes ops heap env v' m) : Leaves ops heap env resolveAbsArea v m := by
  refine ⟨false, v', ?_, hm⟩
  rw [resolveSymbol, hstep]
  exact resolveSymbol_of_none hv' 0

private theorem leaves_of_stops {resolveAbsArea : Bool} {v' : Value} (failed : Bool)
    (hstep : resolveStep ops heap resolveAbsArea v = .stops failed v')
    (hm : Denotes ops heap env v' m) : Leaves ops heap env resolveAbsArea v m := by
  refine ⟨failed, v', ?_, hm⟩
  rw [resolveSymbol, hstep]

/-- **At a symbol that is defined** as something that is no symbol. -/
private theorem leaves_defined {resolveAbsArea : Bool} {t : SymId}
    (hdef : (heap.sym t).isDefined = true)
    (harea : (resolveAbsArea && (heap.sym t).isArea) = false)
    (hvalue : (heap.sym t).value = b) (hb : b.symbol? = none) (hm : Denotes ops heap env b m) :
    Leaves ops heap env resolveAbsArea (.symbol t F O) (m.resolved ops F O) := by
  have hstep : resolveStep ops heap resolveAbsArea (.symbol t F O)
      = substitute ops F O (.symbol t F O) b := by rw [resolveStep_defined hdef harea, hvalue]
  have hkept := Denotes.defined t F O m hdef (hvalue ▸ hm)
  -- strings and the like are taken over as they are, or not at all
  have hother : b.isOther = true → m = .other 1 0 b := fun h => hm.unique (.other b h)
  cases b with
  | symbol => cases hb
  | int i type =>
    by_cases htype : type = .pureInt
    · subst htype
      cases hm with
      | int => exact leaves_of_goesOn (by rw [hstep, substitute, if_pos rfl]) rfl (.int _)
      | other _ h => cases h
    · rw [substitute, if_neg htype] at hstep
      have htag : (Value.int i type).isOther = true := decide_eq_true htype
      have hm' := hother htag
      subst hm'
      by_cases hone : F = 1 ∧ O = 0
      · rw [if_pos hone] at hstep
        obtain ⟨rfl, rfl⟩ := hone
        exact leaves_of_goesOn hstep rfl (.other _ htag)
      · rw [if_neg hone] at hstep
        exact leaves_of_stops true hstep hkept
  | string s =>
    have hm' := hother rfl
    subst hm'
    rw [substitute] at hstep
    by_cases hone : F ≠ 1 ∨ O ≠ 0
    · rw [if_pos hone] at hstep
      exact leaves_of_stops true hstep hkept
    · rw [if_neg hone] at hstep
      obtain ⟨rfl, rfl⟩ : F = 1 ∧ O = 0 := by simpa using hone
      exact leaves_of_goesOn hstep rfl (.other _ rfl)
  | bool s =>
    have hm' := hother rfl
    subst hm'
    rw [substitute] at hstep
    by_cases hone : F ≠ 1 ∨ O ≠ 0
    · rw [if_pos hone] at hstep
      exact leaves_of_stops true hstep hkept
    · rw [if_neg hone] at hstep
      obtain ⟨rfl, rfl⟩ : F = 1 ∧ O = 0 := by simpa using hone
      exact leaves_of_goesOn hstep rfl (.other _ rfl)
  | addr r i =>
    cases hm with
    | addr =>
      rw [substitute] at hstep
      by_cases hone : F ≠ 1
      · rw [if_pos hone] at hstep
        exact leaves_of_stops true hstep hkept
      · rw [if_neg hone] at hstep
        have hsum : Meant.resolved ops F O (.word (env.reg r + i)) = .word (env.reg r + (i + O)) := by
          rw [Meant.resolved, not_ne_iff.mp hone, one_mul, add_assoc]
        rw [hsum]
        exact leaves_of_goesOn hstep rfl (.addr r _)
    | other _ h => cases h
  | int64 i =>
    cases hm with
    | int64 => exact leaves_of_goesOn hstep rfl (.int64 _)
    | other _ h => cases h
  | float x =>
    cases hm with
    | float => exact leaves_of_goesOn hstep rfl (.float _)
    | other _ h => cases h
  | code c =>
    have hm' := hother rfl
    subst hm'
    exact leaves_of_stops true hstep hkept
  | illegal =>
    have hm' := hother rfl
    subst hm'
    exact leaves_of_stops true hstep hkept

/-- **At a symbol that is not defined**, possibly one of an absolute area. -/
private theorem leaves_not_defined (hbases : heap.BasesKnown) (henv : env.KnowsBases heap)
    (resolveAbsArea : Bool) {t : SymId} (hdef : (heap.sym t).isDefined = false) :
    Leaves ops heap env resolveAbsArea (.symbol t F O) (.word (F * env.sym t + O)) := by
  by_cases habs : (resolveAbsArea && heap.isAbsArea t) = true
  · obtain ⟨hflag, habs'⟩ := Bool.and_eq_true_iff.mp habs
    obtain ⟨base, hbase⟩ := hbases t habs'
    have harea : (resolveAbsArea && (heap.sym t).isArea) = true := by
      rw [SymHeap.isAbsArea, Bool.and_eq_true] at habs'
      rw [hflag, habs'.1]
      rfl
    rw [henv t base habs' hbase]
    refine leaves_of_stops false ?_ (.int _)
    rw [resolveStep, habs, Bool.or_true, if_pos rfl, harea, if_pos rfl, hbase]
  · refine leaves_of_stops false ?_ (.symbol t F O hdef)
    rw [resolveStep, hdef, Bool.eq_false_iff.mpr habs]
    rfl

/-- **What the loop computes with is enough** for a value: a 64-bit integer that it stands for is in the
range of `int`; and a `double` is the same when factors and offsets are multiplied out first. -/
structure ResolvesExactly (ops : DoubleOps) (heap : SymHeap) (env : Assignment) (v : Value) : Prop where
  int64 : ∀ n, Denotes ops heap env v (.int64 n) → n = (n.setWidth 32).signExtend 64
  float : ∀ F O x y, Linear heap v F O (.float x) → Denotes ops heap env v (.float y) →
    SameFloat y (ops.add (ops.mul (ops.ofInt F) x) (ops.ofInt O))

/-- The meaning `m'` of a value is that of what the loop leaves of it. -/
private theorem same_resolved_iff {t : SymId} (hlast : LastSymbol heap t b)
    (hlinear : Linear heap v F O b) (hb : Denotes ops heap env b m)
    (hv : Denotes ops heap env v m') (hform : Meant.Form F O m m') :
    m'.Same (m.resolved ops F O) ↔ ResolvesExactly ops heap env v := by
  cases m with
  | word n =>
    cases m' with
    | word n' =>
      change n' = _ at hform
      subst hform
      refine iff_of_true rfl ⟨fun n h => ?_, fun F O x y _ h => ?_⟩
      · cases hv.unique h
      · cases hv.unique h
    | _ => cases hform
  | other f o w =>
    cases m' with
    | other f' o' w' =>
      obtain ⟨rfl, rfl, rfl⟩ := hform
      refine iff_of_true rfl ⟨fun n h => ?_, fun F O x y _ h => ?_⟩
      · cases hv.unique h
      · cases hv.unique h
    | _ => cases hform
  | int64 i =>
    cases m' with
    | int64 n =>
      change n.setWidth 32 = _ at hform
      have hsame : Meant.Same (.int64 n) (Meant.resolved ops F O (.int64 i))
          ↔ n = (n.setWidth 32).signExtend 64 := by
        rw [Meant.resolved, ← hform]
        exact ⟨fun h => Meant.int64.inj h, fun h => congrArg Meant.int64 h⟩
      rw [hsame]
      constructor
      · refine fun h => ⟨fun k hk => ?_, fun F O x y _ hy => ?_⟩
        · cases hv.unique hk
          exact h
        · cases hv.unique hy
      · exact fun h => h.int64 n hv
    | _ => cases hform
  | float x =>
    cases m' with
    | float y =>
      change SameFloat y _ ↔ _
      constructor
      · refine fun h => ⟨fun k hk => ?_, fun F' O' x' y' hlinear' hy => ?_⟩
        · cases hv.unique hk
        · cases hv.unique hy
          obtain ⟨rfl, rfl, rfl⟩ := hlinear.unique hlinear'
          cases hb
          exact h
      · intro h
        refine h.float F O x y ?_ hv
        obtain ⟨hdef, rfl⟩ | ⟨-, -, hnone⟩ := hlast
        · cases hb.unique (.symbol t 1 0 hdef)
        · rwa [← eq_float hnone hb]
    | _ => cases hform

end Meaning

/-- **`Value_ResolveSymbol` keeps the meaning** of every value in every symbol table without circles just
if what it computes with is enough for the value. -/
theorem resolveSymbol_kept_iff (ops : DoubleOps) (heap : SymHeap) (env : Assignment)
    (hacyclic : heap.Acyclic)
    (hareas : ∀ s, (heap.sym s).isArea = true → (heap.sym s).isDefined = false)
    (hbases : heap.BasesKnown) (henv : env.KnowsBases heap) (resolveAbsArea : Bool) (v : Value) :
    ∃ turns failed v', resolveSymbol ops heap resolveAbsArea turns v = some (.done failed v')
      ∧ (MeaningKept ops heap env v v' ↔ v.symbol? = none ∨ ResolvesExactly ops heap env v) := by
  cases hv : v.symbol? with
  | none =>
    refine ⟨1, false, v, resolveSymbol_of_none hv 0, iff_of_true ?_ (Or.inl rfl)⟩
    obtain ⟨m, hm⟩ : ∃ m, Denotes ops heap env v m := exists_denotes hv
    refine ⟨m, m, hm, hm, ?_⟩
    cases m with
    | float x => exact Or.inl rfl
    | _ => rfl
  | some s =>
    obtain ⟨factor, offset, rfl⟩ := symbol?_eq_some hv
    obtain ⟨F, O, b, hlinear⟩ := exists_linear hacyclic (.symbol s factor offset)
    obtain ⟨t, k, hlast, hrun⟩ :=
      exists_last ops resolveAbsArea (hacyclic s) hareas factor offset F O hlinear
    -- what the end of the chain means, and what the loop leaves there
    obtain ⟨m, hm, hleaves⟩ : ∃ m, Denotes ops heap env b m
        ∧ Leaves ops heap env resolveAbsArea (.symbol t F O) (m.resolved ops F O) := by
      obtain ⟨hdef, rfl⟩ | ⟨hdef, hvalue, hnone⟩ := hlast
      · refine ⟨_, .symbol t 1 0 hdef, ?_⟩
        have hword : Meant.resolved ops F O (.word (1 * env.sym t + 0))
            = .word (F * env.sym t + O) := by
          rw [Meant.resolved, one_mul, add_zero]
        rw [hword]
        exact leaves_not_defined hbases henv resolveAbsArea hdef
      · obtain ⟨m, hm⟩ : ∃ m, Denotes ops heap env b m := exists_denotes hnone
        have harea : (resolveAbsArea && (heap.sym t).isArea) = false := by
          by_contra harea
          rw [Bool.not_eq_false, Bool.and_eq_true] at harea
          rw [hareas t harea.2] at hdef
          cases hdef
        exact ⟨m, hm, leaves_defined hdef harea hvalue hnone hm⟩
    obtain ⟨m', hm', hform⟩ := hlinear.denotes hm
    obtain ⟨failed, v', hdone, hv'⟩ := hleaves
    refine ⟨2 + k, failed, v', (hrun 2).trans hdone, ?_⟩
    have hkept : MeaningKept ops heap env (.symbol s factor offset) v'
        ↔ m'.Same (m.resolved ops F O) := by
      constructor
      · rintro ⟨n, n', hn, hn', hsame⟩
        rwa [hm'.unique hn, hv'.unique hn']
      · exact fun hsame => ⟨m', _, hm', hv', hsame⟩
    rw [hkept, same_resolved_iff hlast hlinear hm hm' hform]
    simp

/-- `big EQU 0x100000000`. -/
def bigHeap : SymHeap :=
  .ofList [{ str := cstr "big", type := symbolDefined, value := .int64 0x100000000 }]

theorem bigHeap_fresh (s : SymId) : bigHeap.sym (s + 1) = {} := by
  simp [bigHeap, SymHeap.ofList]

theorem bigHeap_sound : bigHeap.Acyclic ∧ ∀ s, (bigHeap.sym s).isArea = false := by
  refine ⟨fun s => .stop ?_, fun s => ?_⟩
  · match s with
    | 0 => rfl
    | s + 1 =>
      rw [SymHeap.refersTo, bigHeap_fresh]
      rfl
  · match s with
    | 0 => rfl
    | s + 1 =>
      rw [bigHeap_fresh]
      rfl

def zeroEnv : Assignment := ⟨fun _ => 0, fun _ => 0⟩

theorem resolveSymbol_kept_iff_big : bigHeap.Acyclic
    ∧ (∀ s, (bigHeap.sym s).isArea = true → (bigHeap.sym s).isDefined = false)
    ∧ bigHeap.BasesKnown ∧ zeroEnv.KnowsBases bigHeap
    ∧ ∃ turns failed v', resolveSymbol zeroOps bigHeap true turns (.symbol 0 1 0)
        = some (.done failed v')
      ∧ (MeaningKept zeroOps bigHeap zeroEnv (.symbol 0 1 0) v'
        ↔ (Value.symbol 0 1 0).symbol? = none
          ∨ ResolvesExactly zeroOps bigHeap zeroEnv (.symbol 0 1 0)) := by
  obtain ⟨hacyclic, hnone⟩ := bigHeap_sound
  have hareas : ∀ s, (bigHeap.sym s).isArea = true → (bigHeap.sym s).isDefined = false := by
    intro s hs
    rw [hnone s] at hs
    cases hs
  have habs : ∀ s, bigHeap.isAbsArea s = false := by
    intro s
    rw [SymHeap.isAbsArea, hnone s]
    rfl
  have hbases : bigHeap.BasesKnown := by
    intro s hs
    rw [habs s] at hs
    cases hs
  have henv : zeroEnv.KnowsBases bigHeap := by
    intro s base hs
    rw [habs s] at hs
    cases hs
  exact ⟨hacyclic, hareas, hbases, henv, resolveSymbol_kept_iff zeroOps bigHeap zeroEnv hacyclic
    hareas hbases henv true (.symbol 0 1 0)⟩

/-- `big` is resolved to 0. -/
theorem resolveSymbol_big_not_kept : bigHeap.Acyclic
    ∧ resolveSymbol zeroOps bigHeap true 2 (.symbol 0 1 0) = some (.done false (.int64 0))
    ∧ ¬ MeaningKept zeroOps bigHeap zeroEnv (.symbol 0 1 0) (.int64 0) := by
  refine ⟨bigHeap_sound.1, rfl, ?_⟩
  rintro ⟨m, m', hm, hm', hsame⟩
  have hbig : Denotes zeroOps bigHeap zeroEnv (.symbol 0 1 0) (.int64 0x100000000) :=
    .defined 0 1 0 (.int64 0x100000000) rfl (.int64 _)
  rw [hm.unique hbig, hm'.unique (.int64 0)] at hsame
  exact absurd (Meant.int64.inj hsame) (by decide)

end Asasm
