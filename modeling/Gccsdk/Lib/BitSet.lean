import Mathlib.Data.BitVec
import Mathlib.Data.Finset.Card

/-!
# Bit vectors as finite sets

A bit vector of width `w` as a set of numbers below `w`: the operations that add and remove one
number, the one that takes a prefix from another set, and the finite set of the members.
-/

namespace BitSet

variable {w : ℕ} {s t : BitVec w} {i j n : ℕ}

/-- `s` with the number `i`, when `i` is below the width. -/
def insert (s : BitVec w) (i : ℕ) : BitVec w :=
  s ||| BitVec.twoPow w i

/-- `s` without the number `i`. -/
def erase (s : BitVec w) (i : ℕ) : BitVec w :=
  s &&& ~~~BitVec.twoPow w i

/-- The numbers below `n`. -/
def below (n : ℕ) : BitVec w :=
  BitVec.ofNat w (2 ^ n - 1)

/-- The members of `s` below `n`, and those of `t` from `n` on. -/
def splice (n : ℕ) (s t : BitVec w) : BitVec w :=
  s &&& below n ||| t &&& ~~~below n

def elems (s : BitVec w) : Finset ℕ :=
  (Finset.range w).filter fun i => s.getLsbD i

@[simp] theorem getLsbD_insert :
    (insert s i).getLsbD j = (s.getLsbD j || decide (i < w) && decide (i = j)) := by
  rw [insert, BitVec.getLsbD_or, BitVec.getLsbD_twoPow]

theorem getLsbD_erase : (erase s i).getLsbD j = (s.getLsbD j && decide (i ≠ j)) := by
  unfold erase
  rw [BitVec.getLsbD_and, BitVec.getLsbD_not, BitVec.getLsbD_twoPow]
  by_cases hs : s.getLsbD j
  · have hj := BitVec.lt_of_getLsbD hs
    rw [hs, decide_eq_true hj]
    by_cases hij : i = j
    · subst hij
      rw [decide_eq_true hj]
      simp
    · simp [hij]
  · simp [hs]

theorem getLsbD_splice :
    (splice n s t).getLsbD j = if j < n then s.getLsbD j else t.getLsbD j := by
  unfold splice below
  rw [BitVec.getLsbD_or, BitVec.getLsbD_and, BitVec.getLsbD_and, BitVec.getLsbD_not,
    BitVec.getLsbD_ofNat, Nat.testBit_two_pow_sub_one]
  by_cases hj : j < w
  · by_cases hn : j < n
    · simp [hj, hn]
    · simp [hj, hn]
  · have hge := not_lt.mp hj
    rw [BitVec.getLsbD_of_ge s _ hge, BitVec.getLsbD_of_ge t _ hge]
    simp

@[simp] theorem mem_elems : i ∈ elems s ↔ s.getLsbD i = true := by
  unfold elems
  rw [Finset.mem_filter, Finset.mem_range]
  exact ⟨And.right, fun h => ⟨BitVec.lt_of_getLsbD h, h⟩⟩

end BitSet
