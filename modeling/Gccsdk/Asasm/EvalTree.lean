import Gccsdk.Asasm.Eval

/-!
# The value of a tree of sums and products

A tree of additions, subtractions, negations and multiplications over integers, addresses relative to
a register and multiples of symbols, as `Eval_Binop` and `Eval_Unop` evaluate it from the leaves on
(`evalTree`). Evaluation ends at an illegal result, as it does in `code.c`.

Every operator is a homomorphism (`evalAdd_word`, `evalSub_word`, `evalMul_word`, `evalNeg_word`): what
stands for a number at given addresses is mapped to what stands for the sum, the difference and so on,
modulo `2 ^ 32`. A symbol of an absolute area is replaced by its base address as soon as it is an
operand. So the addresses have to know the bases of these areas; `evalTree_meaning` is about all
that do.
-/

namespace Asasm

inductive ArithTree
  | int (i : BitVec 32) (type : IntType)
  | addr (r : Fin 16) (i : BitVec 32)
  | symbol (s : SymId) (factor offset : BitVec 32)
  | neg (tree : ArithTree)
  | add (left right : ArithTree)
  | sub (left right : ArithTree)
  | mul (left right : ArithTree)
  deriving DecidableEq, Repr

def EvalResult.legal : EvalResult → Option Value
  | none => none
  | some (.illegal, _) => none
  | some (v, _) => some v

/-- **The evaluation of a tree**; none when a result is illegal or an assertion fails. -/
def evalTree (ops : DoubleOps) (heap : SymHeap) (phase : Phase) : ArithTree → Option Value
  | .int i type => some (.int i type)
  | .addr r i => some (.addr r i)
  | .symbol s factor offset => some (.symbol s factor offset)
  | .neg tree => do
    let value ← evalTree ops heap phase tree
    (evalNeg ops heap phase value).legal
  | .add left right => do
    let lvalue ← evalTree ops heap phase left
    let rvalue ← evalTree ops heap phase right
    (evalAdd ops heap phase lvalue rvalue).legal
  | .sub left right => do
    let lvalue ← evalTree ops heap phase left
    let rvalue ← evalTree ops heap phase right
    (evalSub ops heap phase lvalue rvalue).legal
  | .mul left right => do
    let lvalue ← evalTree ops heap phase left
    let rvalue ← evalTree ops heap phase right
    (evalMul ops heap phase lvalue rvalue).legal

/-- **The arithmetic value of a tree**, modulo `2 ^ 32`. -/
def ArithTree.value (env : Assignment) : ArithTree → BitVec 32
  | .int i _ => i
  | .addr r i => env.reg r + i
  | .symbol s factor offset => factor * env.sym s + offset
  | .neg tree => -tree.value env
  | .add left right => left.value env + right.value env
  | .sub left right => left.value env - right.value env
  | .mul left right => left.value env * right.value env

section Homomorphism

variable {ops : DoubleOps} {heap : SymHeap} {phase : Phase} {env : Assignment} {l r v : Value}
  {a b : BitVec 32} {lint rint : Option (BitVec 32)} {ds : List Diag}

theorem legal_eq_some {x : EvalResult} (h : x.legal = some v) :
    ∃ ds, x = some (v, ds) ∧ v ≠ .illegal := by
  unfold EvalResult.legal at h
  split at h
  · cases h
  · cases h
  · cases h
    refine ⟨_, rfl, ?_⟩
    rintro rfl
    contradiction

theorem getInt_word (henv : env.KnowsBases heap) (hint : getInt heap v = some lint)
    (hv : v.word? env = some a) : ∀ n ∈ lint, n = a := by
  rintro n rfl
  cases v with
  | int i type =>
    cases hv
    rw [getInt, Option.some.injEq] at hint
    split at hint
    · cases hint
    · exact (Option.some.inj hint).symm
  | symbol s factor offset =>
    cases hv
    by_cases habs : heap.isAbsArea s = true
    · rw [getInt, if_pos habs] at hint
      obtain ⟨base, hbase, hint⟩ := Option.bind_eq_some_iff.mp hint
      rw [henv s base habs hbase]
      exact (Option.some.inj (Option.some.inj hint)).symm
    · rw [getInt, if_neg habs] at hint
      cases hint
  | addr r i => cases hint
  | _ => cases hv

theorem word_symbolOrInt (s : SymId) (factor offset : BitVec 32) :
    (symbolOrInt s factor offset).word? env = some (factor * env.sym s + offset) := by
  unfold symbolOrInt
  split
  case isTrue h =>
    rw [h, Value.word?, zero_mul, zero_add]
  case isFalse => rfl

theorem mulOrdered_word (henv : env.KnowsBases heap) (hl : l.word? env = some a)
    (hr : r.word? env = some b) (hrun : mulOrdered ops heap phase l r = some (v, ds))
    (hlegal : v ≠ .illegal) : v.word? env = some (a * b) := by
  obtain ⟨lint, hlint, hrun⟩ := Option.bind_eq_some_iff.mp hrun
  obtain ⟨rint, hrint, hrun⟩ := Option.bind_eq_some_iff.mp hrun
  have ha := getInt_word henv hlint hl
  have hb := getInt_word henv hrint hr
  rw [Option.some.injEq] at hrun
  unfold mulValues at hrun
  split at hrun
  · -- a multiple of a symbol
    cases hrun
    cases hl
    rw [← hb _ rfl, Value.word?, Option.some.injEq]
    ring
  · cases hl
  · cases hl
  · cases hrun
    rw [← ha _ rfl, ← hb _ rfl]
    rfl
  · cases hrun
    exact absurd rfl hlegal

theorem evalMul_word (henv : env.KnowsBases heap) (hl : l.word? env = some a)
    (hr : r.word? env = some b) (hrun : evalMul ops heap phase l r = some (v, ds))
    (hlegal : v ≠ .illegal) : v.word? env = some (a * b) := by
  unfold evalMul at hrun
  split at hrun
  · rw [mul_comm]
    exact mulOrdered_word henv hr hl hrun hlegal
  · exact mulOrdered_word henv hl hr hrun hlegal

theorem addOrdered_word (henv : env.KnowsBases heap) (hl : l.word? env = some a)
    (hr : r.word? env = some b) (hrun : addOrdered ops heap phase l r = some (v, ds))
    (hlegal : v ≠ .illegal) : v.word? env = some (a + b) := by
  obtain ⟨lint, hlint, hrun⟩ := Option.bind_eq_some_iff.mp hrun
  obtain ⟨rint, hrint, hrun⟩ := Option.bind_eq_some_iff.mp hrun
  have ha := getInt_word henv hlint hl
  have hb := getInt_word henv hrint hr
  rw [Option.some.injEq] at hrun
  unfold addValues at hrun
  split at hrun
  · -- an address
    cases hrun
    cases hl
    rw [← hb _ rfl, Value.word?, add_assoc]
  · -- two multiples of a symbol
    cases hl
    cases hr
    split at hrun
    · cases hrun
      exact absurd rfl hlegal
    case isFalse hsame =>
      cases hrun
      rw [word_symbolOrInt, Option.some.injEq, ← not_ne_iff.mp hsame]
      ring
  · cases hrun
    cases hl
    rw [← hb _ rfl, Value.word?, add_assoc]
  · cases hrun
    rw [← ha _ rfl, ← hb _ rfl]
    rfl
  · cases hl
  · cases hl
  · cases hrun
    exact absurd rfl hlegal

theorem evalAdd_word (henv : env.KnowsBases heap) (hl : l.word? env = some a)
    (hr : r.word? env = some b) (hrun : evalAdd ops heap phase l r = some (v, ds))
    (hlegal : v ≠ .illegal) : v.word? env = some (a + b) := by
  unfold evalAdd at hrun
  split at hrun
  · rw [add_comm]
    exact addOrdered_word henv hr hl hrun hlegal
  · exact addOrdered_word henv hl hr hrun hlegal

/-- **Subtraction** of what stands for `a` and for `b`. -/
theorem evalSub_word (henv : env.KnowsBases heap) (hl : l.word? env = some a)
    (hr : r.word? env = some b) (hrun : evalSub ops heap phase l r = some (v, ds))
    (hlegal : v ≠ .illegal) : v.word? env = some (a - b) := by
  obtain ⟨lint, hlint, hrun⟩ := Option.bind_eq_some_iff.mp hrun
  obtain ⟨rint, hrint, hrun⟩ := Option.bind_eq_some_iff.mp hrun
  have ha := getInt_word henv hlint hl
  have hb := getInt_word henv hrint hr
  rw [Option.some.injEq] at hrun
  unfold subValues at hrun
  split at hrun
  · cases hl
  · cases hl
  · cases hr
  · cases hrun
    rw [← ha _ rfl, ← hb _ rfl]
    rfl
  · -- two addresses: the register cancels
    cases hl
    cases hr
    split at hrun
    · cases hrun
      exact absurd rfl hlegal
    case isFalse hsame =>
      cases hrun
      rw [Value.word?, Option.some.injEq, ← not_ne_iff.mp hsame]
      ring
  · cases hrun
    cases hl
    rw [← hb _ rfl, Value.word?, add_sub_assoc]
  · -- two multiples of a symbol: it cancels when the factors are equal
    cases hl
    cases hr
    split at hrun
    · cases hrun
      exact absurd rfl hlegal
    case isFalse hsame =>
      cases hrun
      rw [word_symbolOrInt, Option.some.injEq, ← not_ne_iff.mp hsame]
      ring
  · cases hrun
    cases hl
    rw [word_symbolOrInt, ← hb _ rfl, add_sub_assoc]
  · cases hrun
    cases hr
    rw [word_symbolOrInt, ← ha _ rfl, Option.some.injEq]
    ring
  · cases hrun
    exact absurd rfl hlegal

/-- **Negation** of what stands for `a`. -/
theorem evalNeg_word {w : Value} (henv : env.KnowsBases heap) (hw : w.word? env = some a)
    (hrun : evalNeg ops heap phase w = some (v, ds)) (hlegal : v ≠ .illegal) :
    v.word? env = some (-a) := by
  obtain ⟨i, hi, hrun⟩ := Option.bind_eq_some_iff.mp hrun
  have ha := getInt_word henv hi hw
  rw [Option.some.injEq] at hrun
  unfold negValue at hrun
  split at hrun
  · cases hrun
    rw [← ha _ rfl]
    rfl
  · cases hw
  · cases hw
  · cases hrun
    cases hw
    rw [Value.word?, Option.some.injEq]
    ring
  · cases hrun
    exact absurd rfl hlegal

end Homomorphism

/-- **The meaning of the result** of a tree is its value: by induction on the tree, with the
homomorphism of each operator. -/
theorem evalTree_meaning (ops : DoubleOps) (heap : SymHeap) (phase : Phase) (env : Assignment)
    (henv : env.KnowsBases heap) (tree : ArithTree) (v : Value)
    (hrun : evalTree ops heap phase tree = some v) : v.word? env = some (tree.value env) := by
  induction tree generalizing v with
  | int i type =>
    cases hrun
    rfl
  | addr r i =>
    cases hrun
    rfl
  | symbol s factor offset =>
    cases hrun
    rfl
  | neg tree ih =>
    obtain ⟨w, hw, hrun⟩ := Option.bind_eq_some_iff.mp hrun
    obtain ⟨ds, hrun, hlegal⟩ := legal_eq_some hrun
    exact evalNeg_word henv (ih w hw) hrun hlegal
  | add left right ihl ihr =>
    obtain ⟨l, hl, hrun⟩ := Option.bind_eq_some_iff.mp hrun
    obtain ⟨r, hr, hrun⟩ := Option.bind_eq_some_iff.mp hrun
    obtain ⟨ds, hrun, hlegal⟩ := legal_eq_some hrun
    exact evalAdd_word henv (ihl l hl) (ihr r hr) hrun hlegal
  | sub left right ihl ihr =>
    obtain ⟨l, hl, hrun⟩ := Option.bind_eq_some_iff.mp hrun
    obtain ⟨r, hr, hrun⟩ := Option.bind_eq_some_iff.mp hrun
    obtain ⟨ds, hrun, hlegal⟩ := legal_eq_some hrun
    exact evalSub_word henv (ihl l hl) (ihr r hr) hrun hlegal
  | mul left right ihl ihr =>
    obtain ⟨l, hl, hrun⟩ := Option.bind_eq_some_iff.mp hrun
    obtain ⟨r, hr, hrun⟩ := Option.bind_eq_some_iff.mp hrun
    obtain ⟨ds, hrun, hlegal⟩ := legal_eq_some hrun
    exact evalMul_word henv (ihl l hl) (ihr r hr) hrun hlegal

/-- Addresses for `absHeap`. -/
def absEnv (base : BitVec 32) : Assignment := ⟨fun s => if s = 0 then base else 0x1000, fun _ => 0⟩

theorem absEnv_knowsBases : (absEnv 0x8000).KnowsBases absHeap := by
  intro s base habs hbase
  match s with
  | 0 =>
    cases hbase
    rfl
  | 1 => cases habs
  | s + 2 =>
    rw [absHeap_fresh] at habs
    cases habs

/-- `-(Abs + 4)`. -/
def negAbsTree : ArithTree := .neg (.add (.symbol 0 1 0) (.int 4 .pureInt))

theorem evalTree_meaning_negAbs : (absEnv 0x8000).KnowsBases absHeap
    ∧ evalTree zeroOps absHeap .passTwo negAbsTree = some (.int (-0x8004) .pureInt)
    ∧ (Value.int (-0x8004) .pureInt).word? (absEnv 0x8000)
      = some (negAbsTree.value (absEnv 0x8000)) :=
  ⟨absEnv_knowsBases, rfl, evalTree_meaning zeroOps absHeap .passTwo (absEnv 0x8000)
    absEnv_knowsBases negAbsTree (.int (-0x8004) .pureInt) rfl⟩

theorem evalTree_other_base :
    evalTree zeroOps absHeap .passTwo negAbsTree = some (.int (-0x8004) .pureInt)
    ∧ (Value.int (-0x8004) .pureInt).word? (absEnv 0) ≠ some (negAbsTree.value (absEnv 0)) :=
  ⟨rfl, by decide⟩

end Asasm
