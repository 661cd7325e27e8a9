import Gccsdk.Lib.WindowCover
import Mathlib.Data.BitVec

/-!
# Constants in several operands

`HelpCPU_SplitByImm8s4` of `help_cpu.c`: a constant is split into constants that fit into the operand of
an instruction each, that is bytes rotated by an even amount (`splitByImm8s4`). A byte takes four
neighbouring pairs of bits, from one of 16 positions round the word (`pairs`, `isImm8s4_iff`).

The function begins in the four ways that have the lowest pair in the first byte on the line, and in
each goes upwards. It never begins with a byte across bit 31 and bit 0. `splitByImm8s4_least_iff` says
when the number of constants is the least possible one all the same.
-/

namespace Asasm

open WindowCover

/-! ### The function -/

/-- `ShiftL`. For `shiftPos = 0` C leaves the shift by 32 open, the result is the same. It is never called
with a position of 32 or more, for which there is an assertion. -/
def shiftL (val : BitVec 32) (shiftPos : ℕ) : BitVec 32 := val <<< shiftPos ||| val >>> (32 - shiftPos)

def bitsAt (cnst : BitVec 32) (shift : ℕ) : BitVec 32 := cnst &&& (3 : BitVec 32) <<< shift

def scanUp (goesOn : ℕ → Bool) : (turns : ℕ) → (shift : ℕ) → ℕ
  | 0, shift => shift
  | turns + 1, shift => if goesOn shift then scanUp goesOn turns (shift + 2) else shift

def scanDown (goesOn : ℕ → Bool) : (turns : ℕ) → (shift : ℕ) → ℕ
  | 0, shift => shift
  | turns + 1, shift => if goesOn shift then scanDown goesOn turns (shift - 2) else shift

def firstShift (cnst : BitVec 32) : ℕ := scanUp (fun shift => bitsAt cnst shift = 0) 16 0

def endShift (cnst : BitVec 32) : ℕ := scanDown (fun shiftEnd => bitsAt cnst (shiftEnd - 2) = 0) 16 32

/-- The first position from `shift` on, but before `shiftEnd`, with bits set. -/
def nextShift (r : BitVec 32) (shiftEnd shift : ℕ) : ℕ :=
  scanUp (fun shift => shift < shiftEnd && bitsAt r shift = 0) 16 shift

/-- `instrNeeded`, for the constants found so far. -/
def instrNeeded : Option (List (BitVec 32)) → ℕ
  | none => 5
  | some c => c.length

/-- **One turn of the loop**; the function may return from it. -/
def splitTurn (cnst : BitVec 32) (shiftEnd : ℕ) (best : Option (List (BitVec 32))) (shift0 : ℕ) :
    Except (List (BitVec 32)) (Option (List (BitVec 32))) :=
  let m0 := shiftL 0xFF shift0
  let r0 := cnst &&& ~~~m0
  if r0 = 0 then .error [cnst &&& m0]
  else
    let shift1 := nextShift r0 shiftEnd (shift0 + 8)
    if shiftEnd ≤ shift1 then .ok best
    else
      let m1 := shiftL 0xFF shift1
      let r1 := r0 &&& ~~~m1
      if r1 = 0 then .error [cnst &&& m0, r0 &&& m1]
      else
        let shift2 := nextShift r1 shiftEnd (shift1 + 8)
        if shiftEnd ≤ shift2 then .ok best
        else
          let m2 := shiftL 0xFF shift2
          let r2 := r1 &&& ~~~m2
          if r2 = 0 ∧ 3 < instrNeeded best then .ok (some [cnst &&& m0, r0 &&& m1, r1 &&& m2])
          else if 4 < instrNeeded best then .ok (some [cnst &&& m0, r0 &&& m1, r1 &&& m2, r2])
          else .ok best

/-- **`HelpCPU_SplitByImm8s4`**; none when the assertion at the end fails. -/
def splitByImm8s4 (cnst : BitVec 32) : Option (List (BitVec 32)) :=
  if cnst = 0 then some [0]
  else
    let shift := firstShift cnst
    match [shift, shift + 2, shift + 4, shift + 6].foldlM (splitTurn cnst (endShift cnst)) none with
    | .error c => some c
    | .ok best => best

/-! ### Pairs of bits -/

/-- **The pairs** of a constant in which a bit is set. -/
def pairs (cnst : BitVec 32) : Set ℕ :=
  {i | cnst.getLsbD (2 * i) = true ∨ cnst.getLsbD (2 * i + 1) = true}

section Pairs

variable {a b cnst v : BitVec 32} {i x : ℕ}

theorem getLsbD_nothing (j : ℕ) : (0 : BitVec 32).getLsbD j = false := BitVec.getLsbD_zero

theorem mem_pairs_of_getLsbD (h : cnst.getLsbD i = true) : i / 2 ∈ pairs cnst := by
  obtain heven | hodd := Nat.mod_two_eq_zero_or_one i
  · refine Or.inl ?_
    rwa [show 2 * (i / 2) = i by omega]
  · refine Or.inr ?_
    rwa [show 2 * (i / 2) + 1 = i by omega]

theorem lt_of_mem_pairs (h : i ∈ pairs cnst) : i < 16 := by
  obtain h | h := h
  · have hlt := BitVec.lt_of_getLsbD h
    omega
  · have hlt := BitVec.lt_of_getLsbD h
    omega

theorem getLsbD_three (shift j : ℕ) :
    ((3 : BitVec 32) <<< shift).getLsbD j = decide (j < 32 ∧ shift ≤ j ∧ j < shift + 2) := by
  have hthree : ∀ m, (3 : BitVec 32).getLsbD m = decide (m < 2) := by
    intro m
    change (BitVec.ofNat 32 (2 ^ 2 - 1)).getLsbD m = _
    rw [BitVec.getLsbD_ofNat, Nat.testBit_two_pow_sub_one]
    by_cases hm : m < 2
    · simp [hm]
      omega
    · simp [hm]
  rw [BitVec.getLsbD_shiftLeft, hthree, Bool.eq_iff_iff]
  simp
  omega

theorem bitsAt_eq_zero_iff : bitsAt cnst (2 * i) = 0 ↔ i ∉ pairs cnst := by
  constructor
  · intro h hi
    have hbit : ∀ j, (bitsAt cnst (2 * i)).getLsbD j = false := by
      intro j
      rw [h, getLsbD_nothing]
    have hlt := lt_of_mem_pairs hi
    obtain hi | hi := hi
    · have hfalse := hbit (2 * i)
      rw [bitsAt, BitVec.getLsbD_and, hi, getLsbD_three] at hfalse
      simp at hfalse
      omega
    · have hfalse := hbit (2 * i + 1)
      rw [bitsAt, BitVec.getLsbD_and, hi, getLsbD_three] at hfalse
      simp at hfalse
      omega
  · intro h
    refine BitVec.eq_of_getLsbD_eq fun j hj => ?_
    rw [getLsbD_nothing, bitsAt, BitVec.getLsbD_and, getLsbD_three]
    by_contra hbit
    rw [Bool.not_eq_false, Bool.and_eq_true, decide_eq_true_eq] at hbit
    refine h ?_
    have hji : i = j / 2 := by omega
    rw [hji]
    exact mem_pairs_of_getLsbD hbit.1

theorem pairs_eq_empty_iff : pairs cnst = ∅ ↔ cnst = 0 := by
  constructor
  · intro h
    refine BitVec.eq_of_getLsbD_eq fun j hj => ?_
    rw [getLsbD_nothing]
    by_contra hbit
    rw [Bool.not_eq_false] at hbit
    exact Set.notMem_empty _ (h ▸ mem_pairs_of_getLsbD hbit)
  · rintro rfl
    refine Set.eq_empty_of_forall_notMem fun i hi => ?_
    obtain hi | hi := hi
    · cases (getLsbD_nothing _).symm.trans hi
    · cases (getLsbD_nothing _).symm.trans hi

theorem pairs_or : pairs (a ||| b) = pairs a ∪ pairs b := by
  ext i
  simp only [pairs, Set.mem_ofPred_eq, Set.mem_union, BitVec.getLsbD_or, Bool.or_eq_true]
  tauto

def byteAt (x : ℕ) : BitVec 32 := shiftL 0xFF (2 * x)

theorem getLsbD_byteAt (hx : x < 16) (hi : i < 32) :
    (byteAt x).getLsbD i = true ↔ i / 2 ∈ arc 16 4 x := by
  have hbyte : ∀ m, (0xFF : BitVec 32).getLsbD m = decide (m < 8) := by
    intro m
    change (BitVec.ofNat 32 (2 ^ 8 - 1)).getLsbD m = _
    rw [BitVec.getLsbD_ofNat, Nat.testBit_two_pow_sub_one]
    by_cases hm : m < 8
    · simp [hm]
      omega
    · simp [hm]
  change _ ↔ (x ≤ i / 2 ∧ i / 2 < x + 4) ∨ i / 2 + 16 < x + 4
  rw [byteAt, shiftL, BitVec.getLsbD_or, BitVec.getLsbD_shiftLeft, BitVec.getLsbD_ushiftRight, hbyte,
    hbyte]
  simp only [Bool.or_eq_true, Bool.and_eq_true, decide_eq_true_eq, Bool.not_eq_true',
    decide_eq_false_iff_not]
  omega

theorem pairs_without (hx : x < 16) : pairs (cnst &&& ~~~byteAt x) = pairs cnst \ arc 16 4 x := by
  have hbit : ∀ j, j < 32 → ((cnst &&& ~~~byteAt x).getLsbD j = true
      ↔ cnst.getLsbD j = true ∧ j / 2 ∉ arc 16 4 x) := by
    intro j hj
    rw [← getLsbD_byteAt hx hj, BitVec.getLsbD_and, BitVec.getLsbD_not, Bool.and_eq_true]
    simp [hj]
  ext i
  by_cases hi : i < 16
  · have heven := hbit (2 * i) (by omega)
    have hodd := hbit (2 * i + 1) (by omega)
    rw [show 2 * i / 2 = i by omega] at heven
    rw [show (2 * i + 1) / 2 = i by omega] at hodd
    simp only [pairs, Set.mem_ofPred_eq, Set.mem_sdiff, heven, hodd]
    tauto
  · exact iff_of_false (fun h => hi (lt_of_mem_pairs h)) fun h => hi (lt_of_mem_pairs h.1)

theorem pairs_byte (hx : x < 16) : pairs (cnst &&& byteAt x) ⊆ arc 16 4 x := by
  rintro i (hi | hi)
  · have hlt := BitVec.lt_of_getLsbD hi
    rw [BitVec.getLsbD_and, Bool.and_eq_true, getLsbD_byteAt hx hlt] at hi
    rw [show i = 2 * i / 2 by omega]
    exact hi.2
  · have hlt := BitVec.lt_of_getLsbD hi
    rw [BitVec.getLsbD_and, Bool.and_eq_true, getLsbD_byteAt hx hlt] at hi
    rw [show i = (2 * i + 1) / 2 by omega]
    exact hi.2

end Pairs

/-! ### Constants that fit -/

/-- **A byte rotated** by an even amount, as an operand has it. -/
def IsImm8s4 (v : BitVec 32) : Prop :=
  ∃ (byte : BitVec 8) (r : ℕ), r < 16 ∧ v = (byte.setWidth 32).rotateRight (2 * r)

theorem getLsbD_rotated (byte : BitVec 8) {r j : ℕ} (hr : r < 16) (hj : j < 32) :
    ((byte.setWidth 32).rotateRight (2 * r)).getLsbD j
      = if j < 32 - 2 * r then byte.getLsbD (2 * r + j) else byte.getLsbD (j - (32 - 2 * r)) := by
  have hless : ∀ m, m < 32 → (byte.setWidth 32).getLsbD m = byte.getLsbD m := by
    intro m hm
    rw [BitVec.getLsbD_setWidth, decide_eq_true hm, Bool.true_and]
  rw [BitVec.getLsbD_rotateRight, Nat.mod_eq_of_lt (by omega : 2 * r < 32)]
  by_cases h : j < 32 - 2 * r
  · rw [if_pos h, decide_eq_true h, cond_true, hless _ (by omega)]
  · rw [if_neg h, decide_eq_false h, cond_false, decide_eq_true hj, Bool.true_and, hless _ (by omega)]

theorem getLsbD_rotated_back (v : BitVec 32) {r j : ℕ} (hr : r < 16) (hj : j < 32) :
    (v.rotateLeft (2 * r)).getLsbD j
      = if j < 2 * r then v.getLsbD (32 - 2 * r + j) else v.getLsbD (j - 2 * r) := by
  rw [BitVec.getLsbD_rotateLeft, Nat.mod_eq_of_lt (by omega : 2 * r < 32)]
  by_cases h : j < 2 * r
  · rw [if_pos h, decide_eq_true h, cond_true]
  · rw [if_neg h, decide_eq_false h, cond_false, decide_eq_true hj, Bool.true_and]

theorem isImm8s4_iff {v : BitVec 32} : IsImm8s4 v ↔ ∃ x < 16, pairs v ⊆ arc 16 4 x := by
  constructor
  · rintro ⟨byte, r, hr, rfl⟩
    refine ⟨(16 - r) % 16, by omega, ?_⟩
    have hbit : ∀ j, ((byte.setWidth 32).rotateRight (2 * r)).getLsbD j = true →
        j / 2 ∈ arc 16 4 ((16 - r) % 16) := by
      intro j hj
      have hlt := BitVec.lt_of_getLsbD hj
      change ((16 - r) % 16 ≤ j / 2 ∧ j / 2 < (16 - r) % 16 + 4) ∨ j / 2 + 16 < (16 - r) % 16 + 4
      rw [getLsbD_rotated byte hr hlt] at hj
      split at hj
      · have hbyte := BitVec.lt_of_getLsbD hj
        omega
      · have hbyte := BitVec.lt_of_getLsbD hj
        omega
    rintro i (hi | hi)
    · have h := hbit _ hi
      rwa [show 2 * i / 2 = i by omega] at h
    · have h := hbit _ hi
      rwa [show (2 * i + 1) / 2 = i by omega] at h
  · rintro ⟨x, hx, hpairs⟩
    obtain ⟨r, hr, hxr⟩ : ∃ r < 16, x = (16 - r) % 16 := ⟨(16 - x) % 16, by omega, by omega⟩
    refine ⟨(v.rotateLeft (2 * r)).setWidth 8, r, hr, BitVec.eq_of_getLsbD_eq fun j hj => ?_⟩
    have harc : v.getLsbD j = true → (x ≤ j / 2 ∧ j / 2 < x + 4) ∨ j / 2 + 16 < x + 4 :=
      fun h => hpairs (mem_pairs_of_getLsbD h)
    -- the byte has the bit just if the constant has
    have hback : ∀ m, m < 32 → (m < 8 ∨ v.getLsbD j = false) →
        (v.rotateLeft (2 * r)).getLsbD m = v.getLsbD j →
        v.getLsbD j = ((v.rotateLeft (2 * r)).setWidth 8).getLsbD m := by
      intro m _ hm heq
      rw [BitVec.getLsbD_setWidth, heq]
      obtain hm | hm := hm
      · rw [decide_eq_true hm, Bool.true_and]
      · rw [hm, Bool.and_false]
    have hin : ∀ m, (v.getLsbD j = true → m < 8) → m < 8 ∨ v.getLsbD j = false := by
      intro m hm
      cases hbit : v.getLsbD j with
      | true => exact Or.inl (hm hbit)
      | false => exact Or.inr rfl
    rw [getLsbD_rotated _ hr hj]
    split
    · refine hback _ (by omega) (hin _ fun h => ?_) ?_
      · have h' := harc h
        omega
      · rw [getLsbD_rotated_back v hr (by omega), if_neg (by omega), Nat.add_sub_cancel_left]
    · refine hback _ (by omega) (hin _ fun h => ?_) ?_
      · have h' := harc h
        omega
      · rw [getLsbD_rotated_back v hr (by omega), if_pos (by omega)]
        congr 1
        omega

/-! ### Splitting along a cover -/

/-- **A constant split** into constants that fit, disjoint and together the constant. -/
structure Splits (cnst : BitVec 32) (c : List (BitVec 32)) : Prop where
  nonempty : c ≠ []
  encodable : ∀ v ∈ c, IsImm8s4 v
  disjoint : c.Pairwise fun a b => a &&& b = 0
  combines : c.foldr (· ||| ·) 0 = cnst

/-- The bytes of a constant at some positions, each one of what is left by those before. -/
def cut : BitVec 32 → List ℕ → List (BitVec 32)
  | _, [] => []
  | cnst, x :: xs => (cnst &&& byteAt x) :: cut (cnst &&& ~~~byteAt x) xs

section Cut

variable {cnst : BitVec 32} {xs : List ℕ} {c : List (BitVec 32)}

theorem length_cut (cnst : BitVec 32) (xs : List ℕ) : (cut cnst xs).length = xs.length := by
  induction xs generalizing cnst with
  | nil => rfl
  | cons x xs ih => exact congrArg Nat.succ (ih _)

theorem and_of_mem_cut {m v : BitVec 32} (hm : cnst &&& m = 0) (hv : v ∈ cut cnst xs) : m &&& v = 0 := by
  induction xs generalizing cnst with
  | nil => cases hv
  | cons x xs ih =>
    obtain _ | ⟨_, hv⟩ := hv
    · rw [BitVec.and_comm, BitVec.and_assoc, BitVec.and_comm (byteAt x), ← BitVec.and_assoc, hm]
      exact BitVec.zero_and
    · refine ih ?_ hv
      rw [BitVec.and_assoc, BitVec.and_comm (~~~byteAt x), ← BitVec.and_assoc, hm]
      exact BitVec.zero_and

theorem splits_cut (hne : xs ≠ []) (hlt : ∀ x ∈ xs, x < 16)
    (hcover : ∀ i ∈ pairs cnst, ∃ x ∈ xs, i ∈ arc 16 4 x) : Splits cnst (cut cnst xs) := by
  refine ⟨?_, ?_, ?_, ?_⟩
  · intro hnil
    have hlength := length_cut cnst xs
    rw [hnil] at hlength
    exact hne (List.length_eq_zero_iff.mp hlength.symm)
  · clear hcover hne
    induction xs generalizing cnst with
    | nil => exact nofun
    | cons x xs ih =>
      rintro v (_ | ⟨_, hv⟩)
      · exact isImm8s4_iff.mpr ⟨x, hlt x List.mem_cons_self, pairs_byte (hlt x List.mem_cons_self)⟩
      · exact ih (fun y hy => hlt y (List.mem_cons_of_mem x hy)) v hv
  · clear hcover hlt hne
    induction xs generalizing cnst with
    | nil => exact .nil
    | cons x xs ih =>
      refine .cons (fun v hv => and_of_mem_cut ?_ hv) ih
      rw [BitVec.and_assoc, BitVec.and_comm cnst (byteAt x), ← BitVec.and_assoc (~~~byteAt x),
        BitVec.not_and_self]
      simp
  · clear hne
    induction xs generalizing cnst with
    | nil =>
      refine (pairs_eq_empty_iff.mp (Set.eq_empty_of_forall_notMem fun i hi => ?_)).symm
      obtain ⟨x, hx, -⟩ := hcover i hi
      cases hx
    | cons x xs ih =>
      have hx := hlt x List.mem_cons_self
      have hrest : (cut (cnst &&& ~~~byteAt x) xs).foldr (· ||| ·) 0 = cnst &&& ~~~byteAt x := by
        refine ih (fun y hy => hlt y (List.mem_cons_of_mem x hy)) fun i hi => ?_
        rw [pairs_without hx] at hi
        obtain ⟨y, hy, hiy⟩ := hcover i hi.1
        obtain _ | ⟨_, hy⟩ := hy
        · exact absurd hiy hi.2
        · exact ⟨y, hy, hiy⟩
      change cnst &&& byteAt x ||| (cut (cnst &&& ~~~byteAt x) xs).foldr (· ||| ·) 0 = cnst
      rw [hrest, ← BitVec.and_or_distrib_left, BitVec.or_not_self, BitVec.and_allOnes]

theorem exists_positions (h : ∀ v ∈ c, IsImm8s4 v) :
    ∃ xs : List ℕ, xs.length = c.length ∧ (∀ x ∈ xs, x < 16)
      ∧ ∀ v ∈ c, ∃ x ∈ xs, pairs v ⊆ arc 16 4 x := by
  induction c with
  | nil => exact ⟨[], rfl, nofun, nofun⟩
  | cons v c ih =>
    obtain ⟨xs, hlength, hlt, hxs⟩ := ih fun u hu => h u (List.mem_cons_of_mem v hu)
    obtain ⟨x, hx, hv⟩ := isImm8s4_iff.mp (h v List.mem_cons_self)
    refine ⟨x :: xs, congrArg Nat.succ hlength, ?_, ?_⟩
    · rintro y (_ | ⟨_, hy⟩)
      · exact hx
      · exact hlt y hy
    · rintro u (_ | ⟨_, hu⟩)
      · exact ⟨x, List.mem_cons_self, hv⟩
      · obtain ⟨y, hy, hpairs⟩ := hxs u hu
        exact ⟨y, List.mem_cons_of_mem x hy, hpairs⟩

theorem exists_mem_of_pairs_foldr {i : ℕ} (h : i ∈ pairs (c.foldr (· ||| ·) 0)) :
    ∃ v ∈ c, i ∈ pairs v := by
  induction c with
  | nil =>
    rw [List.foldr_nil, pairs_eq_empty_iff.mpr rfl] at h
    cases h
  | cons v c ih =>
    rw [List.foldr_cons, pairs_or] at h
    obtain h | h := h
    · exact ⟨v, List.mem_cons_self, h⟩
    · obtain ⟨u, hu, hi⟩ := ih h
      exact ⟨u, List.mem_cons_of_mem v hu, hi⟩

/-- **How many constants are needed**: as many as bytes round the word to cover the pairs. -/
theorem exists_splits_iff {k : ℕ} :
    (∃ c, Splits cnst c ∧ c.length ≤ k + 1) ↔ CoversRound 16 4 (k + 1) (pairs cnst) := by
  constructor
  · rintro ⟨c, hc, hlength⟩
    obtain ⟨xs, hlength', hlt, hxs⟩ := exists_positions hc.encodable
    refine ⟨xs, hlength'.trans_le hlength, hlt, fun i hi => ?_⟩
    rw [← hc.combines] at hi
    obtain ⟨v, hv, hi⟩ := exists_mem_of_pairs_foldr hi
    obtain ⟨x, hx, hpairs⟩ := hxs v hv
    exact ⟨x, hx, hpairs hi⟩
  · rintro ⟨xs, hlength, hlt, hxs⟩
    by_cases hne : xs = []
    · subst hne
      refine ⟨cut cnst [0], splits_cut (List.cons_ne_nil 0 []) ?_ fun i hi => ?_, ?_⟩
      · rintro x (_ | ⟨_, hx⟩)
        · decide
        · cases hx
      · obtain ⟨x, hx, -⟩ := hxs i hi
        cases hx
      · exact Nat.succ_le_succ (Nat.zero_le k)
    · exact ⟨cut cnst xs, splits_cut hne hlt hxs, (length_cut cnst xs).trans_le hlength⟩

end Cut

/-! ### The loops over positions -/

section Scan

variable {cnst r : BitVec 32} {e t x : ℕ}

/-- **A loop upwards** ends at the first position where it does not go on, when there is one in time. -/
theorem scanUp_spec (goesOn : ℕ → Bool) (turns a : ℕ)
    (hstop : ∃ b, a ≤ b ∧ b < a + turns ∧ goesOn (2 * b) = false) :
    ∃ b, scanUp goesOn turns (2 * a) = 2 * b ∧ a ≤ b ∧ goesOn (2 * b) = false
      ∧ ∀ i, a ≤ i → i < b → goesOn (2 * i) = true := by
  induction turns generalizing a with
  | zero =>
    obtain ⟨b, hab, hba, -⟩ := hstop
    omega
  | succ turns ih =>
    rw [scanUp]
    cases hgo : goesOn (2 * a) with
    | false => exact ⟨a, rfl, le_rfl, hgo, fun i hai hia => absurd hai (not_le.mpr hia)⟩
    | true =>
      have hstop' : ∃ b, a + 1 ≤ b ∧ b < a + 1 + turns ∧ goesOn (2 * b) = false := by
        obtain ⟨b, hab, hba, hb⟩ := hstop
        refine ⟨b, Nat.lt_of_le_of_ne hab ?_, by omega, hb⟩
        rintro rfl
        rw [hgo] at hb
        cases hb
      obtain ⟨b, hscan, hab, hb, hall⟩ := ih (a + 1) hstop'
      refine ⟨b, hscan, Nat.le_of_succ_le hab, hb, fun i hai hib => ?_⟩
      obtain rfl | hlt := Nat.eq_or_lt_of_le hai
      · exact hgo
      · exact hall i hlt hib

theorem scanDown_spec (goesOn : ℕ → Bool) (turns a : ℕ) (ha : turns ≤ a)
    (hstop : ∃ b, b ≤ a ∧ a < b + turns ∧ goesOn (2 * b) = false) :
    ∃ b, scanDown goesOn turns (2 * a) = 2 * b ∧ b ≤ a ∧ goesOn (2 * b) = false
      ∧ ∀ i, b < i → i ≤ a → goesOn (2 * i) = true := by
  induction turns generalizing a with
  | zero =>
    obtain ⟨b, hba, hab, -⟩ := hstop
    omega
  | succ turns ih =>
    rw [scanDown]
    cases hgo : goesOn (2 * a) with
    | false => exact ⟨a, rfl, le_rfl, hgo, fun i hai hia => absurd hia (not_le.mpr hai)⟩
    | true =>
      have hstop' : ∃ b, b ≤ a - 1 ∧ a - 1 < b + turns ∧ goesOn (2 * b) = false := by
        obtain ⟨b, hba, hab, hb⟩ := hstop
        have hne : b ≠ a := by
          rintro rfl
          rw [hgo] at hb
          cases hb
        exact ⟨b, by omega, by omega, hb⟩
      obtain ⟨b, hscan, hba, hb, hall⟩ := ih (a - 1) (by omega) hstop'
      rw [Nat.mul_sub] at hscan
      refine ⟨b, hscan, by omega, hb, fun i hbi hia => ?_⟩
      obtain rfl | hlt := Nat.eq_or_lt_of_le hia
      · exact hgo
      · exact hall i hbi (by omega)

theorem bitsAt_test : decide (bitsAt cnst (2 * x) = 0) = false ↔ x ∈ pairs cnst := by
  rw [decide_eq_false_iff_not, bitsAt_eq_zero_iff, not_not]

theorem firstShift_spec (h : cnst ≠ 0) : ∃ s, firstShift cnst = 2 * s ∧ IsLeast (pairs cnst) s := by
  obtain ⟨s, hs⟩ := exists_isLeast (mt pairs_eq_empty_iff.mp h)
  have hs16 := lt_of_mem_pairs hs.1
  obtain ⟨b, hscan, -, hb, hall⟩ := scanUp_spec
    (fun shift => decide (bitsAt cnst shift = 0)) 16 0 ⟨s, Nat.zero_le s, by omega, bitsAt_test.mpr hs.1⟩
  refine ⟨b, hscan, bitsAt_test.mp hb, fun i hi => not_lt.mp fun hib => ?_⟩
  have hfalse := hall i (Nat.zero_le i) hib
  rw [bitsAt_test.mpr hi] at hfalse
  cases hfalse

theorem endShift_spec (h : cnst ≠ 0) :
    ∃ e, endShift cnst = 2 * e ∧ e ≤ 16 ∧ ∀ i ∈ pairs cnst, i < e := by
  obtain ⟨s, hs⟩ := exists_isLeast (mt pairs_eq_empty_iff.mp h)
  have hs16 := lt_of_mem_pairs hs.1
  have htest : ∀ i, decide (bitsAt cnst (2 * (i + 1) - 2) = 0) = false ↔ i ∈ pairs cnst := by
    intro i
    rw [show 2 * (i + 1) - 2 = 2 * i by omega]
    exact bitsAt_test
  obtain ⟨b, hscan, hb16, -, hall⟩ := scanDown_spec
    (fun shiftEnd => decide (bitsAt cnst (shiftEnd - 2) = 0)) 16 16 le_rfl
    ⟨s + 1, by omega, by omega, (htest s).mpr hs.1⟩
  refine ⟨b, hscan, hb16, fun i hi => not_le.mp fun hbi => ?_⟩
  have hi16 := lt_of_mem_pairs hi
  have hfalse := hall (i + 1) (by omega) (by omega)
  rw [(htest i).mpr hi] at hfalse
  cases hfalse

/-- **The next position** is that of the least pair that is left from there on. -/
theorem nextShift_spec (he : e ≤ 16) (hr : ∀ i ∈ pairs r, i < e) (ht : 0 < t) :
    (2 * e ≤ nextShift r (2 * e) (2 * t) ∧ {i ∈ pairs r | t ≤ i} = ∅)
      ∨ ∃ x < e, nextShift r (2 * e) (2 * t) = 2 * x ∧ IsLeast {i ∈ pairs r | t ≤ i} x := by
  have htest : ∀ i, (decide (2 * i < 2 * e) && decide (bitsAt r (2 * i) = 0)) = false
      ↔ e ≤ i ∨ i ∈ pairs r := by
    intro i
    rw [Bool.and_eq_false_iff, bitsAt_test, decide_eq_false_iff_not]
    exact or_congr_left (by omega)
  obtain ⟨b, hscan, htb, hb, hall⟩ := scanUp_spec
    (fun shift => decide (shift < 2 * e) && decide (bitsAt r shift = 0)) 16 t
    ⟨max t e, le_max_left t e, by omega, (htest _).mpr (Or.inl (le_max_right t e))⟩
  have hbefore : ∀ i ∈ pairs r, t ≤ i → b ≤ i := by
    intro i hi hti
    by_contra hib
    have hfalse := hall i hti (not_le.mp hib)
    rw [(htest i).mpr (Or.inr hi)] at hfalse
    cases hfalse
  by_cases hbe : e ≤ b
  · refine Or.inl ⟨?_, Set.eq_empty_of_forall_notMem fun i hi => ?_⟩
    · rw [nextShift, hscan]
      omega
    · have hie := hr i hi.1
      have hbi := hbefore i hi.1 hi.2
      omega
  · have hmem := ((htest b).mp hb).resolve_left hbe
    exact Or.inr ⟨b, not_le.mp hbe, hscan, ⟨hmem, htb⟩, fun i hi => hbefore i hi.1 hi.2⟩

end Scan

/-! ### One turn -/

/-- The run that begins at `t` takes `k + 1` bytes at most. -/
def Found (cnst : BitVec 32) (k t : ℕ) : Prop :=
  ∃ xs, xs.length ≤ k ∧ Chain 4 (pairs cnst) t xs ∧ Rounds 16 4 (pairs cnst) t xs

/-- **What a turn does**: it returns with one or two constants; it has found three, or four; or it has
found nothing better. -/
inductive Turned (cnst : BitVec 32) (best : Option (List (BitVec 32))) (t : ℕ) :
    Except (List (BitVec 32)) (Option (List (BitVec 32))) → Prop
  | bailOut (xs : List ℕ) (hlength : xs.length ≤ 1) (hchain : Chain 4 (pairs cnst) t xs)
    (hround : Rounds 16 4 (pairs cnst) t xs) (hshort : xs ≠ [] → ¬ Found cnst 0 t) :
    Turned cnst best t (.error (cut cnst (t :: xs)))
  | three (xs : List ℕ) (hlength : xs.length = 2) (hchain : Chain 4 (pairs cnst) t xs)
    (hround : Rounds 16 4 (pairs cnst) t xs) (hnot : ¬ Found cnst 1 t) (hbest : 3 < instrNeeded best) :
    Turned cnst best t (.ok (some (cut cnst (t :: xs))))
  | four (c : List (BitVec 32)) (hc : Splits cnst c) (hlength : c.length = 4) (hnot : ¬ Found cnst 2 t)
    (hbest : 4 < instrNeeded best) : Turned cnst best t (.ok (some c))
  | keeps (hnot : ¬ Found cnst 1 t) (hbest : 3 < instrNeeded best → ¬ Found cnst 2 t)
    (hsome : best ≠ none) : Turned cnst best t (.ok best)

section Turn

variable {cnst v : BitVec 32} {best : Option (List (BitVec 32))} {e t x y : ℕ}

theorem and_byteAt_of_subset (hx : x < 16) (h : pairs v ⊆ arc 16 4 x) : v &&& byteAt x = v := by
  refine BitVec.eq_of_getLsbD_eq fun j hj => ?_
  rw [BitVec.getLsbD_and]
  cases hbit : v.getLsbD j with
  | false => rfl
  | true => rw [(getLsbD_byteAt hx hj).mpr (h (mem_pairs_of_getLsbD hbit))]; rfl

theorem without_eq_zero_iff (hx : x < 16) : v &&& ~~~byteAt x = 0 ↔ pairs v ⊆ arc 16 4 x := by
  rw [← pairs_eq_empty_iff, pairs_without hx, Set.sdiff_eq_empty]

theorem notMem_arc {i : ℕ} (hi : x + 4 ≤ i) : i ∉ arc 16 4 x := by
  change ¬ ((x ≤ i ∧ i < x + 4) ∨ i + 16 < x + 4)
  omega

theorem found_zero_iff : Found cnst 0 t ↔ pairs cnst ⊆ arc 16 4 t := by
  constructor
  · rintro ⟨xs, hlength, -, hround⟩ i hi
    obtain rfl := List.length_eq_zero_iff.mp (Nat.le_zero.mp hlength)
    obtain ⟨y, hy, hiy⟩ := hround i hi
    rwa [← List.mem_singleton.mp hy]
  · exact fun h => ⟨[], le_rfl, .nil t, fun i hi => ⟨t, List.mem_singleton_self t, h hi⟩⟩

theorem not_found_of_empty {k : ℕ} (h : ¬ pairs cnst ⊆ arc 16 4 t)
    (hempty : {i ∈ pairs cnst | t + 4 ≤ i} = ∅) : ¬ Found cnst k t := by
  rintro ⟨xs, -, hchain, hround⟩
  cases hchain with
  | nil =>
    refine h fun i hi => ?_
    obtain ⟨y, hy, hiy⟩ := hround i hi
    rwa [← List.mem_singleton.mp hy]
  | cons hx _ => exact Set.notMem_empty _ (hempty ▸ hx.1)

theorem found_one_iff (hx : IsLeast {i ∈ pairs cnst | t + 4 ≤ i} x) (h : ¬ pairs cnst ⊆ arc 16 4 t) :
    Found cnst 1 t ↔ pairs cnst \ arc 16 4 t ⊆ arc 16 4 x := by
  constructor
  · rintro ⟨xs, hlength, hchain, hround⟩ i ⟨hi, hit⟩
    cases hchain with
    | nil =>
      refine absurd (fun j hj => ?_) h
      obtain ⟨y, hy, hjy⟩ := hround j hj
      rwa [← List.mem_singleton.mp hy]
    | @cons _ x' xs hx' _ =>
      obtain rfl := hx.unique hx'
      obtain rfl := List.length_eq_zero_iff.mp (Nat.le_zero.mp (Nat.le_of_succ_le_succ hlength))
      obtain ⟨y, hy, hiy⟩ := hround i hi
      obtain _ | ⟨_, hy⟩ := hy
      · exact absurd hiy hit
      · rwa [← List.mem_singleton.mp hy]
  · intro hrest
    refine ⟨[x], le_rfl, .cons hx (.nil x), fun i hi => ?_⟩
    by_cases hit : i ∈ arc 16 4 t
    · exact ⟨t, List.mem_cons_self, hit⟩
    · exact ⟨x, List.mem_cons_of_mem t List.mem_cons_self, hrest ⟨hi, hit⟩⟩

theorem not_found_two_of_empty (hx : IsLeast {i ∈ pairs cnst | t + 4 ≤ i} x) (h : ¬ Found cnst 1 t)
    (hempty : {i ∈ pairs cnst | x + 4 ≤ i} = ∅) : ¬ Found cnst 2 t := by
  rintro ⟨xs, hlength, hchain, hround⟩
  cases hchain with
  | nil => exact h ⟨[], Nat.zero_le 1, .nil t, hround⟩
  | cons hx' hrest =>
    obtain rfl := hx.unique hx'
    cases hrest with
    | nil => exact h ⟨[x], le_rfl, .cons hx (.nil x), hround⟩
    | cons hy _ => exact Set.notMem_empty _ (hempty ▸ hy.1)

theorem found_two_iff (hx : IsLeast {i ∈ pairs cnst | t + 4 ≤ i} x)
    (hy : IsLeast {i ∈ pairs cnst | x + 4 ≤ i} y) (h : ¬ Found cnst 1 t) :
    Found cnst 2 t ↔ (pairs cnst \ arc 16 4 t) \ arc 16 4 x ⊆ arc 16 4 y := by
  constructor
  · rintro ⟨xs, hlength, hchain, hround⟩ i ⟨⟨hi, hit⟩, hix⟩
    cases hchain with
    | nil => exact absurd ⟨[], Nat.zero_le 1, .nil t, hround⟩ h
    | cons hx' hrest =>
      obtain rfl := hx.unique hx'
      cases hrest with
      | nil => exact absurd ⟨[x], le_rfl, .cons hx (.nil x), hround⟩ h
      | @cons _ y' xs hy' _ =>
        obtain rfl := hy.unique hy'
        obtain rfl := List.length_eq_zero_iff.mp
          (Nat.le_zero.mp (Nat.le_of_succ_le_succ (Nat.le_of_succ_le_succ hlength)))
        obtain ⟨z, hz, hiz⟩ := hround i hi
        obtain _ | ⟨_, hz⟩ := hz
        · exact absurd hiz hit
        · obtain _ | ⟨_, hz⟩ := hz
          · exact absurd hiz hix
          · rwa [← List.mem_singleton.mp hz]
  · intro hrest
    refine ⟨[x, y], le_rfl, .cons hx (.cons hy (.nil y)), fun i hi => ?_⟩
    by_cases hit : i ∈ arc 16 4 t
    · exact ⟨t, List.mem_cons_self, hit⟩
    · by_cases hix : i ∈ arc 16 4 x
      · exact ⟨x, List.mem_cons_of_mem t List.mem_cons_self, hix⟩
      · exact ⟨y, List.mem_cons_of_mem t (List.mem_cons_of_mem x List.mem_cons_self),
          hrest ⟨⟨hi, hit⟩, hix⟩⟩

theorem ne_none_of_empty (hfirst : best = none → IsLeast (pairs cnst) t)
    (h : ¬ pairs cnst ⊆ arc 16 4 t) (hempty : {i ∈ pairs cnst | t + 4 ≤ i} = ∅) : best ≠ none := by
  intro hbest
  refine h fun i hi => Or.inl ⟨(hfirst hbest).2 hi, not_le.mp fun hti => ?_⟩
  exact Set.notMem_empty i (hempty ▸ ⟨hi, hti⟩)

theorem splitTurn_turned (he : e ≤ 16) (hP : ∀ i ∈ pairs cnst, i < e) (ht : t < 16)
    (hfirst : best = none → IsLeast (pairs cnst) t) (hsome : ∀ c, best = some c → c.length ≤ 4) :
    Turned cnst best t (splitTurn cnst (2 * e) best (2 * t)) := by
  simp only [splitTurn]
  rw [show shiftL 0xFF (2 * t) = byteAt t from rfl, show 2 * t + 8 = 2 * (t + 4) by omega]
  by_cases h0 : cnst &&& ~~~byteAt t = 0
  · rw [if_pos h0]
    have hround : Found cnst 0 t := found_zero_iff.mpr ((without_eq_zero_iff ht).mp h0)
    obtain ⟨xs, hlength, hchain, hround⟩ := hround
    obtain rfl := List.length_eq_zero_iff.mp (Nat.le_zero.mp hlength)
    exact .bailOut [] (Nat.zero_le 1) hchain hround fun hne => absurd rfl hne
  rw [if_neg h0]
  rw [without_eq_zero_iff ht] at h0
  have hpairs0 : pairs (cnst &&& ~~~byteAt t) = _ := pairs_without ht
  have hleft0 : {i ∈ pairs (cnst &&& ~~~byteAt t) | t + 4 ≤ i} = {i ∈ pairs cnst | t + 4 ≤ i} := by
    ext i
    rw [hpairs0]
    exact ⟨fun hi => ⟨hi.1.1, hi.2⟩, fun hi => ⟨⟨hi.1, notMem_arc hi.2⟩, hi.2⟩⟩
  have hless0 : ∀ i ∈ pairs (cnst &&& ~~~byteAt t), i < e := by
    intro i hi
    rw [hpairs0] at hi
    exact hP i hi.1
  generalize hr0 : cnst &&& ~~~byteAt t = r0 at hpairs0 hleft0 hless0 ⊢
  obtain ⟨hend, hempty⟩ | ⟨x, hxe, hx, hleast⟩ := nextShift_spec he hless0 (Nat.succ_pos (t + 3))
  · rw [if_pos hend]
    rw [hleft0] at hempty
    exact .keeps (not_found_of_empty h0 hempty) (fun _ => not_found_of_empty h0 hempty)
      (ne_none_of_empty hfirst h0 hempty)
  -- the second mask
  have hx16 : x < 16 := hxe.trans_le he
  rw [hx, if_neg (by omega), show shiftL 0xFF (2 * x) = byteAt x from rfl,
    show 2 * x + 8 = 2 * (x + 4) by omega]
  rw [hleft0] at hleast
  by_cases h1 : r0 &&& ~~~byteAt x = 0
  · rw [if_pos h1]
    rw [without_eq_zero_iff hx16, hpairs0] at h1
    have hcut : cut cnst [t, x] = [cnst &&& byteAt t, r0 &&& byteAt x] := by
      rw [← hr0]
      rfl
    rw [← hcut]
    refine .bailOut [x] le_rfl (.cons hleast (.nil x)) (fun i hi => ?_) fun _ => mt found_zero_iff.mp h0
    by_cases hit : i ∈ arc 16 4 t
    · exact ⟨t, List.mem_cons_self, hit⟩
    · exact ⟨x, List.mem_cons_of_mem t List.mem_cons_self, h1 ⟨hi, hit⟩⟩
  rw [if_neg h1]
  rw [without_eq_zero_iff hx16, hpairs0] at h1
  have hnot : ¬ Found cnst 1 t := mt (found_one_iff hleast h0).mp h1
  have hpairs1 : pairs (r0 &&& ~~~byteAt x) = _ := pairs_without hx16
  rw [hpairs0] at hpairs1
  have htx : t + 4 ≤ x := hleast.1.2
  have hleft1 : {i ∈ pairs (r0 &&& ~~~byteAt x) | x + 4 ≤ i} = {i ∈ pairs cnst | x + 4 ≤ i} := by
    ext i
    rw [hpairs1]
    refine ⟨fun hi => ⟨hi.1.1.1, hi.2⟩, fun hi => ⟨⟨⟨hi.1, notMem_arc ?_⟩, notMem_arc hi.2⟩, hi.2⟩⟩
    exact htx.trans ((Nat.le_add_right x 4).trans hi.2)
  have hless1 : ∀ i ∈ pairs (r0 &&& ~~~byteAt x), i < e := by
    intro i hi
    rw [hpairs1] at hi
    exact hP i hi.1.1
  generalize hr1 : r0 &&& ~~~byteAt x = r1 at hpairs1 hleft1 hless1 ⊢
  obtain ⟨hend, hempty⟩ | ⟨y, hye, hy, hleast'⟩ := nextShift_spec he hless1 (Nat.succ_pos (x + 3))
  · rw [if_pos hend]
    rw [hleft1] at hempty
    refine .keeps hnot (fun _ => not_found_two_of_empty hleast hnot hempty) fun hbest => h1 ?_
    -- in the first turn the two bytes have all
    rintro i ⟨hi, hit⟩
    have hti : t + 4 ≤ i := not_lt.mp fun hlt => hit (Or.inl ⟨(hfirst hbest).2 hi, hlt⟩)
    exact Or.inl ⟨hleast.2 ⟨hi, hti⟩, not_le.mp fun hxi => Set.notMem_empty i (hempty ▸ ⟨hi, hxi⟩)⟩
  -- the third mask
  have hy16 : y < 16 := hye.trans_le he
  rw [hy, if_neg (by omega), show shiftL 0xFF (2 * y) = byteAt y from rfl]
  rw [hleft1] at hleast'
  have htwo := found_two_iff hleast hleast' hnot
  have hzero : r1 &&& ~~~byteAt y = 0 ↔ Found cnst 2 t := by
    rw [without_eq_zero_iff hy16, hpairs1, htwo]
  have hcut : cut cnst [t, x, y] = [cnst &&& byteAt t, r0 &&& byteAt x, r1 &&& byteAt y] := by
    rw [← hr1, ← hr0]
    rfl
  rw [← hcut]
  by_cases h2 : r1 &&& ~~~byteAt y = 0 ∧ 3 < instrNeeded best
  · rw [if_pos h2]
    obtain ⟨h2, hbest⟩ := h2
    rw [without_eq_zero_iff hy16, hpairs1] at h2
    refine .three [x, y] rfl (.cons hleast (.cons hleast' (.nil y))) (fun i hi => ?_) hnot hbest
    by_cases hit : i ∈ arc 16 4 t
    · exact ⟨t, List.mem_cons_self, hit⟩
    · by_cases hix : i ∈ arc 16 4 x
      · exact ⟨x, List.mem_cons_of_mem t List.mem_cons_self, hix⟩
      · exact ⟨y, List.mem_cons_of_mem t (List.mem_cons_of_mem x List.mem_cons_self),
          h2 ⟨⟨hi, hit⟩, hix⟩⟩
  rw [if_neg h2]
  by_cases h3 : 4 < instrNeeded best
  · rw [if_pos h3]
    have hnot2 : ¬ Found cnst 2 t := fun hfound => h2 ⟨hzero.mpr hfound, by omega⟩
    have hbest : best = none := by
      cases hbest : best with
      | none => rfl
      | some c =>
        rw [hbest] at h3
        exact absurd (hsome c hbest) (not_le.mpr h3)
    -- what is left in the first turn is above, within a byte
    have habove : ∀ i ∈ (pairs cnst \ arc 16 4 t) \ arc 16 4 x, i ∉ arc 16 4 y → y + 4 ≤ i := by
      rintro i ⟨⟨hi, hit⟩, hix⟩ hiy
      have hti : t + 4 ≤ i := not_lt.mp fun hlt => hit (Or.inl ⟨(hfirst hbest).2 hi, hlt⟩)
      have hxi : x + 4 ≤ i := not_lt.mp fun hlt => hix (Or.inl ⟨hleast.2 ⟨hi, hti⟩, hlt⟩)
      exact not_lt.mp fun hlt => hiy (Or.inl ⟨hleast'.2 ⟨hi, hxi⟩, hlt⟩)
    have hxy : x + 4 ≤ y := hleast'.1.2
    have hz16 : y + 4 < 16 := by
      by_contra hz16
      refine hnot2 (htwo.mpr fun i hi => ?_)
      by_contra hiy
      have hyi := habove i hi hiy
      have hi16 := lt_of_mem_pairs hi.1.1
      omega
    have hlast : ∀ i, i < 16 → y + 4 ≤ i → i ∈ arc 16 4 (y + 4) := by
      intro i hi16 hyi
      refine Or.inl ⟨hyi, ?_⟩
      omega
    have hrest : r1 &&& ~~~byteAt y = (r1 &&& ~~~byteAt y) &&& byteAt (y + 4) := by
      refine (and_byteAt_of_subset hz16 fun i hi => ?_).symm
      rw [pairs_without hy16, hpairs1] at hi
      exact hlast i (lt_of_mem_pairs hi.1.1.1) (habove i hi.1 hi.2)
    have hcut4 : cut cnst [t, x, y, y + 4]
        = [cnst &&& byteAt t, r0 &&& byteAt x, r1 &&& byteAt y, r1 &&& ~~~byteAt y] := by
      rw [hrest, ← hr1, ← hr0]
      rfl
    rw [← hcut4]
    refine .four _ (splits_cut (List.cons_ne_nil t _) ?_ fun i hi => ?_) (length_cut _ _) hnot2 h3
    · intro z hz
      simp only [List.mem_cons, List.not_mem_nil, or_false] at hz
      omega
    · by_cases hit : i ∈ arc 16 4 t
      · exact ⟨t, by simp, hit⟩
      · by_cases hix : i ∈ arc 16 4 x
        · exact ⟨x, by simp, hix⟩
        · by_cases hiy : i ∈ arc 16 4 y
          · exact ⟨y, by simp, hiy⟩
          · exact ⟨y + 4, by simp, hlast i (lt_of_mem_pairs hi) (habove i ⟨⟨hi, hit⟩, hix⟩ hiy)⟩
  · rw [if_neg h3]
    refine .keeps hnot (fun hbest hfound => h2 ⟨hzero.mpr hfound, hbest⟩) ?_
    rintro rfl
    exact h3 (Nat.lt_succ_self 4)

end Turn

/-! ### The loop -/

section Loop

variable {cnst : BitVec 32} {e s t k : ℕ} {xs ts : List ℕ} {c : List (BitVec 32)}

theorem Found.mono {k' : ℕ} (h : Found cnst k t) (hk : k ≤ k') : Found cnst k' t := by
  obtain ⟨xs, hlength, hchain, hround⟩ := h
  exact ⟨xs, hlength.trans hk, hchain, hround⟩

theorem splits_of_rounds (ht : t < 16) (hchain : Chain 4 (pairs cnst) t xs)
    (hround : Rounds 16 4 (pairs cnst) t xs) : Splits cnst (cut cnst (t :: xs)) := by
  refine splits_cut (List.cons_ne_nil t xs) ?_ hround
  rintro x (_ | ⟨_, hx⟩)
  · exact ht
  · exact lt_of_mem_pairs (hchain.spread.1 x hx)

/-- How further turns end, from positions `ts` and with `n` constants found before. -/
inductive TurnsEnd (cnst : BitVec 32) (n : ℕ) (ts : List ℕ) :
    Except (List (BitVec 32)) (Option (List (BitVec 32))) → Prop
  | returned (t : ℕ) (ht : t ∈ ts) (c : List (BitVec 32)) (hc : Splits cnst c)
    (h : c.length = 1 ∧ Found cnst 0 t ∨ c.length = 2 ∧ Found cnst 1 t) : TurnsEnd cnst n ts (.error c)
  | found (c : List (BitVec 32)) (hc : Splits cnst c) (hnot : ∀ t ∈ ts, ¬ Found cnst 1 t)
    (hlength : c.length = 3 ∨ c.length = 4) (hthree : c.length = 3 ↔ n = 3 ∨ ∃ t ∈ ts, Found cnst 2 t) :
    TurnsEnd cnst n ts (.ok (some c))

theorem TurnsEnd.cons {n n' : ℕ} {r : Except (List (BitVec 32)) (Option (List (BitVec 32)))}
    (h : TurnsEnd cnst n' ts r) (hnot : ¬ Found cnst 1 t) (hn : n' = 3 ↔ n = 3 ∨ Found cnst 2 t) :
    TurnsEnd cnst n (t :: ts) r := by
  cases h with
  | returned u hu c hc h => exact .returned u (List.mem_cons_of_mem t hu) c hc h
  | found c hc hnots hlength hthree =>
    refine .found c hc (List.forall_mem_cons.mpr ⟨hnot, hnots⟩) hlength ?_
    rw [hthree, hn, or_assoc]
    simp only [List.mem_cons, exists_eq_or_imp]

theorem splitTurns_end (he : e ≤ 16) (hP : ∀ i ∈ pairs cnst, i < e) (hts : ∀ t ∈ ts, t < 16)
    (hc : Splits cnst c) (hlength : c.length = 3 ∨ c.length = 4) :
    TurnsEnd cnst c.length ts ((ts.map (2 * ·)).foldlM (splitTurn cnst (2 * e)) (some c)) := by
  induction ts generalizing c with
  | nil => exact .found c hc nofun hlength (by simp)
  | cons t ts ih =>
    have ht := hts t List.mem_cons_self
    have hts' : ∀ u ∈ ts, u < 16 := fun u hu => hts u (List.mem_cons_of_mem t hu)
    have hless : ∀ c', some c = some c' → c'.length ≤ 4 := by
      rintro c' ⟨⟩
      omega
    have hfirst : some c = none → IsLeast (pairs cnst) t := nofun
    have hturned := splitTurn_turned he hP ht hfirst hless
    rw [List.map_cons, List.foldlM_cons]
    generalize splitTurn cnst (2 * e) (some c) (2 * t) = result at hturned
    cases hturned with
    | bailOut xs hxs hchain hround hshort =>
      refine .returned t List.mem_cons_self _ (splits_of_rounds ht hchain hround) ?_
      rw [length_cut, List.length_cons]
      obtain hzero | hone := Nat.le_one_iff_eq_zero_or_eq_one.mp hxs
      · exact Or.inl ⟨by rw [hzero], xs, hzero.le, hchain, hround⟩
      · exact Or.inr ⟨by rw [hone], xs, hone.le, hchain, hround⟩
    | three xs hxs hchain hround hnot hbest =>
      have hlength' : (cut cnst (t :: xs)).length = 3 := by rw [length_cut, List.length_cons, hxs]
      refine (ih hts' (splits_of_rounds ht hchain hround) (Or.inl hlength')).cons hnot ?_
      exact iff_of_true hlength' (Or.inr ⟨xs, hxs.le, hchain, hround⟩)
    | four c' hc' hlength' hnot hbest => exact absurd (hless c rfl) (not_le.mpr hbest)
    | keeps hnot hbest hsome =>
      refine (ih hts' hc hlength).cons hnot ⟨Or.inl, ?_⟩
      rintro (h3 | hfound)
      · exact h3
      · by_contra hne
        refine hbest ?_ hfound
        change 3 < c.length
        omega

theorem eq_of_found_zero (hs : IsLeast (pairs cnst) s) (hst : s ≤ t) (hts : t < s + 4)
    (h : Found cnst 0 t) : t = s := by
  have hmem : (t ≤ s ∧ s < t + 4) ∨ s + 16 < t + 4 := found_zero_iff.mp h hs.1
  omega

theorem exists_position {Q : ℕ → Prop} :
    (∃ t, s ≤ t ∧ t < s + 4 ∧ Q t) ↔ Q s ∨ ∃ t ∈ [s + 1, s + 2, s + 3], Q t := by
  constructor
  · rintro ⟨t, hst, hts, ht⟩
    by_cases hne : t = s
    · exact Or.inl (hne ▸ ht)
    · refine Or.inr ⟨t, ?_, ht⟩
      simp only [List.mem_cons, List.not_mem_nil, or_false]
      omega
  · rintro (h | ⟨t, ht, h⟩)
    · exact ⟨s, le_rfl, by omega, h⟩
    · simp only [List.mem_cons, List.not_mem_nil, or_false] at ht
      exact ⟨t, by omega, by omega, h⟩

/-- **A result** that is right for a constant with the least pair `s`. -/
structure Finds (cnst : BitVec 32) (s : ℕ) (c : List (BitVec 32)) : Prop where
  splits : Splits cnst c
  length_le : c.length ≤ 4
  /-- As few constants as the shortest of the runs from the four positions. -/
  length_iff : ∀ k < 3, c.length ≤ k + 1 ↔ ∃ t, s ≤ t ∧ t < s + 4 ∧ Found cnst k t

/-- What `HelpCPU_SplitByImm8s4` returns after the loop, or from it. -/
def splitResult : Except (List (BitVec 32)) (Option (List (BitVec 32))) → Option (List (BitVec 32))
  | .error c => some c
  | .ok best => best

theorem TurnsEnd.finds {n : ℕ} {r : Except (List (BitVec 32)) (Option (List (BitVec 32)))}
    (h : TurnsEnd cnst n [s + 1, s + 2, s + 3] r) (hs : IsLeast (pairs cnst) s) (hnot : ¬ Found cnst 1 s)
    (hn : n = 3 ↔ Found cnst 2 s) : ∃ c, splitResult r = some c ∧ Finds cnst s c := by
  have hzero : ¬ ∃ t, s ≤ t ∧ t < s + 4 ∧ Found cnst 0 t := by
    rintro ⟨t, hst, hts, ht⟩
    rw [eq_of_found_zero hs hst hts ht] at ht
    exact hnot (ht.mono (Nat.zero_le 1))
  cases h with
  | returned t ht c hc h =>
    refine ⟨c, rfl, hc, by omega, fun k hk => ?_⟩
    have hfound : ∃ t, s ≤ t ∧ t < s + 4 ∧ Found cnst 1 t := by
      refine exists_position.mpr (Or.inr ⟨t, ht, ?_⟩)
      obtain ⟨-, h⟩ | ⟨-, h⟩ := h
      · exact h.mono (Nat.zero_le 1)
      · exact h
    obtain ⟨hone, h⟩ | ⟨htwo, h⟩ := h
    · refine iff_of_true (by omega) (exists_position.mpr (Or.inr ⟨t, ht, h.mono (Nat.zero_le k)⟩))
    · by_cases hk0 : k = 0
      · subst hk0
        exact iff_of_false (by omega) hzero
      · obtain ⟨u, hsu, hus, hu⟩ := hfound
        exact iff_of_true (by omega) ⟨u, hsu, hus, hu.mono (by omega)⟩
  | found c hc hnots hlength hthree =>
    have hone : ¬ ∃ t, s ≤ t ∧ t < s + 4 ∧ Found cnst 1 t := by
      rw [exists_position]
      rintro (h | ⟨t, ht, h⟩)
      · exact hnot h
      · exact hnots t ht h
    refine ⟨c, rfl, hc, by omega, fun k hk => ?_⟩
    by_cases hk2 : k = 2
    · subst hk2
      rw [exists_position, ← hn, ← hthree]
      omega
    · refine iff_of_false (by omega) ?_
      rintro ⟨t, hst, hts, ht⟩
      exact hone ⟨t, hst, hts, ht.mono (by omega)⟩

/-- **What the function finds**: so many constants as the shortest of the runs from the four positions. -/
theorem splitByImm8s4_finds (h : cnst ≠ 0) (hs : IsLeast (pairs cnst) s) :
    ∃ c, splitByImm8s4 cnst = some c ∧ Finds cnst s c := by
  obtain ⟨s', hfirst, hs'⟩ := firstShift_spec h
  obtain rfl := hs'.unique hs
  obtain ⟨e, hend, he, hP⟩ := endShift_spec h
  have hs16 := lt_of_mem_pairs hs.1
  have hnone : ∀ c : List (BitVec 32), none = some c → c.length ≤ 4 := nofun
  have hturned := splitTurn_turned he hP hs16 (fun _ => hs) hnone
  have hsplit : splitByImm8s4 cnst = splitResult ([2 * s', 2 * s' + 2, 2 * s' + 4, 2 * s' + 6].foldlM
      (splitTurn cnst (2 * e)) none) := by
    rw [splitByImm8s4, if_neg h, hfirst, hend]
    rfl
  rw [hsplit, List.foldlM_cons]
  generalize splitTurn cnst (2 * e) none (2 * s') = result at hturned
  -- unless one byte is enough, the other positions are in the word
  have hothers : ¬ Found cnst 0 s' → ∀ t ∈ [s' + 1, s' + 2, s' + 3], t < 16 := by
    intro hzero t ht
    have hs12 : s' < 12 := by
      by_contra hs12
      refine hzero (found_zero_iff.mpr fun i hi => Or.inl ⟨hs'.2 hi, ?_⟩)
      have hi16 := lt_of_mem_pairs hi
      omega
    simp only [List.mem_cons, List.not_mem_nil, or_false] at ht
    omega
  cases hturned with
  | bailOut xs hxs hchain hround hshort =>
    have hfound : ∀ k, xs.length ≤ k → ∃ t, s' ≤ t ∧ t < s' + 4 ∧ Found cnst k t := fun k hk =>
      ⟨s', le_rfl, by omega, xs, hk, hchain, hround⟩
    have hlength : (cut cnst (s' :: xs)).length = xs.length + 1 := length_cut cnst (s' :: xs)
    refine ⟨_, rfl, splits_of_rounds hs16 hchain hround, by omega, fun k hk => ?_⟩
    rw [hlength]
    refine ⟨fun hle => hfound k (by omega), ?_⟩
    rintro ⟨t, hst, hts, ht⟩
    by_contra hlt
    obtain rfl : k = 0 := by omega
    rw [eq_of_found_zero hs' hst hts ht] at ht
    refine hshort ?_ ht
    rintro rfl
    exact hlt le_rfl
  | three xs hxs hchain hround hnot hbest =>
    have hlength : (cut cnst (s' :: xs)).length = 3 := by rw [length_cut, List.length_cons, hxs]
    refine (splitTurns_end he hP (hothers fun hzero => hnot (hzero.mono (Nat.zero_le 1)))
      (splits_of_rounds hs16 hchain hround) (Or.inl hlength)).finds hs' hnot ?_
    exact iff_of_true hlength ⟨xs, hxs.le, hchain, hround⟩
  | four c hc hlength hnot hbest =>
    refine (splitTurns_end he hP (hothers fun hzero => hnot (hzero.mono (Nat.zero_le 2))) hc
      (Or.inr hlength)).finds hs' (fun hone => hnot (hone.mono (Nat.le_succ 1))) ?_
    exact iff_of_false (by omega) hnot
  | keeps hnot hbest hsome => exact absurd rfl hsome

end Loop

/-! ### The least number -/

/-- **No split of the constant is shorter.** -/
def IsLeastSplit (cnst : BitVec 32) (c : List (BitVec 32)) : Prop :=
  ∀ c', Splits cnst c' → c.length ≤ c'.length

/-- **A byte across bit 31 and bit 0 is of no use**, or one that the function finds: where it and `k` others
make the constant, so do `k + 1` bytes on the line; or of such `k` others the lowest begins six bits at most
above the least pair. -/
def AcrossIsFound (cnst : BitVec 32) : Prop :=
  ∀ s, IsLeast (pairs cnst) s → ∀ k < 3,
    (∃ x < 16, 16 < x + 4 ∧ Covers 4 k (pairs cnst \ arc 16 4 x)) →
      Covers 4 (k + 1) (pairs cnst)
        ∨ ∃ x < 16, s + 16 < x + 4 ∧ CoversFrom 4 k (s + 3) (pairs cnst \ arc 16 4 x)

/-- **`HelpCPU_SplitByImm8s4`** splits every constant; into as few as possible just if that takes no byte
across the end of the word that begins to be of use only further up. -/
theorem splitByImm8s4_least_iff (cnst : BitVec 32) :
    ∃ c, splitByImm8s4 cnst = some c ∧ Splits cnst c ∧ (IsLeastSplit cnst c ↔ AcrossIsFound cnst) := by
  by_cases h : cnst = 0
  · subst h
    refine ⟨[0], rfl, ⟨List.cons_ne_nil 0 [], ?_, List.pairwise_singleton _ 0, rfl⟩, ?_⟩
    · rintro v (_ | ⟨_, hv⟩)
      · exact ⟨0, 0, by decide, by decide⟩
      · cases hv
    · refine iff_of_true (fun c' hc' => List.length_pos_iff.mpr hc'.nonempty) fun s hs => ?_
      rw [pairs_eq_empty_iff.mpr rfl] at hs
      cases hs.1
  obtain ⟨s, hs⟩ := exists_isLeast (mt pairs_eq_empty_iff.mp h)
  have hP : ∀ i ∈ pairs cnst, i < 16 := fun i hi => lt_of_mem_pairs hi
  obtain ⟨c, hc, hfinds⟩ := splitByImm8s4_finds h hs
  refine ⟨c, hc, hfinds.splits, ?_⟩
  -- how many constants the function finds, and how many are needed
  have hfound : ∀ k < 3, c.length ≤ k + 1 ↔ Covers 4 (k + 1) (pairs cnst)
      ∨ ∃ x < 16, s + 16 < x + 4 ∧ CoversFrom 4 k (s + 3) (pairs cnst \ arc 16 4 x) := fun k hk =>
    (hfinds.length_iff k hk).trans (exists_chain_iff (by decide) (by decide) hP hs)
  have hneeded : ∀ k, (∃ c', Splits cnst c' ∧ c'.length ≤ k + 1) ↔ Covers 4 (k + 1) (pairs cnst)
      ∨ ∃ x < 16, 16 < x + 4 ∧ Covers 4 k (pairs cnst \ arc 16 4 x) := fun k =>
    exists_splits_iff.trans (coversRound_succ_iff hP)
  constructor
  · intro hleast s' hs' k hk hacross
    obtain rfl := hs.unique hs'
    obtain ⟨c', hc', hlength⟩ := (hneeded k).mpr (Or.inr hacross)
    exact (hfound k hk).mp ((hleast c' hc').trans hlength)
  · intro hacross c' hc'
    by_contra hlt
    have hpos := List.length_pos_iff.mpr hc'.nonempty
    have hle := hfinds.length_le
    obtain ⟨k, hk⟩ : ∃ k, c'.length = k + 1 := ⟨c'.length - 1, by omega⟩
    have hshort : c.length ≤ k + 1 := by
      refine (hfound k (by omega)).mpr ?_
      obtain hline | hround := (hneeded k).mp ⟨c', hc', hk.le⟩
      · exact Or.inl hline
      · exact hacross s hs k (by omega) hround
    omega

/-- `0x80000001` is one constant, the function gives two. -/
theorem splitByImm8s4_across : splitByImm8s4 0x80000001 = some [1, 0x80000000]
    ∧ ¬ IsLeastSplit 0x80000001 [1, 0x80000000] := by
  refine ⟨by decide +kernel, fun hleast => ?_⟩
  have hsplits : Splits 0x80000001 [0x80000001] := by
    refine ⟨List.cons_ne_nil _ [], ?_, List.pairwise_singleton _ _, by decide⟩
    rintro v (_ | ⟨_, hv⟩)
    · exact ⟨6, 1, by decide, by decide⟩
    · cases hv
  exact absurd (hleast _ hsplits) (by decide)

end Asasm
