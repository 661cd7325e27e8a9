import Mathlib.Data.Nat.Digits.Defs
import Mathlib.Data.List.Induction
import Mathlib.Tactic.Ring

/-!
# Reading a numeral in words of a fixed width

The digits of a numeral are read from the most significant one on, and the number is accumulated in a
word of `w` bits (`accumulate`): each step multiplies by the base and adds the digit. The usual test
for an overflow compares the new word with the one before it. It finds the step that wraps only when
the multiplication does not come around as far as the word was; `accumulate_eq` says what the test
sees: a beginning of the numeral that is less, modulo `2 ^ w`, than the beginning before it (`Drops`).
-/

namespace Numeral

variable {w b d : ℕ} {ds : List ℕ}

/-- **The number that digits denote**, the most significant digit first. -/
def value (b : ℕ) (ds : List ℕ) : ℕ := Nat.ofDigits b ds.reverse

@[simp] theorem value_nil (b : ℕ) : value b [] = 0 := rfl

theorem value_concat (b : ℕ) (ds : List ℕ) (d : ℕ) : value b (ds ++ [d]) = value b ds * b + d := by
  unfold value
  rw [List.reverse_concat, Nat.ofDigits_cons]
  ring

/-- **The test for an overflow**: some beginning is less than the one before it, modulo `2 ^ w`. -/
def Drops (w b : ℕ) (ds : List ℕ) : Prop :=
  ∃ k, k < ds.length ∧ value b (ds.take (k + 1)) % 2 ^ w < value b (ds.take k) % 2 ^ w

instance (w b : ℕ) (ds : List ℕ) : Decidable (Drops w b ds) :=
  inferInstanceAs (Decidable (∃ k, k < ds.length ∧ _))

theorem not_drops_nil (w b : ℕ) : ¬ Drops w b [] := by
  rintro ⟨k, hk, -⟩
  exact absurd hk (Nat.not_lt_zero k)

theorem drops_concat_iff : Drops w b (ds ++ [d])
    ↔ Drops w b ds ∨ value b (ds ++ [d]) % 2 ^ w < value b ds % 2 ^ w := by
  constructor
  · rintro ⟨k, hk, hlt⟩
    rw [List.length_append, List.length_singleton] at hk
    obtain heq | hk := Nat.eq_or_lt_of_le (Nat.le_of_lt_succ hk)
    · right
      rwa [heq, List.take_left, List.take_of_length_le (by simp)] at hlt
    · left
      rw [List.take_append_of_le_length hk, List.take_append_of_le_length (Nat.le_of_lt hk)] at hlt
      exact ⟨k, hk, hlt⟩
  · rintro (⟨k, hk, hlt⟩ | hlt)
    · refine ⟨k, by simp only [List.length_append]; omega, ?_⟩
      rwa [List.take_append_of_le_length hk, List.take_append_of_le_length (Nat.le_of_lt hk)]
    · refine ⟨ds.length, by simp, ?_⟩
      rwa [List.take_left, List.take_of_length_le (by simp)]

/-- **One step**: the word with one more digit, and whether the test has found an overflow. -/
def accumulate (b : BitVec w) (x : BitVec w × Bool) (d : ℕ) : BitVec w × Bool :=
  let next := x.1 * b + BitVec.ofNat w d
  (next, x.2 || decide (next < x.1))

/-- **What is accumulated**: the number modulo `2 ^ w`, and what the test for an overflow has found.
The induction is on the digits from behind, as the loop reads them. -/
theorem accumulate_eq (w b : ℕ) (ds : List ℕ) :
    ds.foldl (accumulate (BitVec.ofNat w b)) (0, false)
      = (BitVec.ofNat w (value b ds), decide (Drops w b ds)) := by
  induction ds using List.reverseRecOn with
  | nil =>
    rw [decide_eq_false (not_drops_nil w b)]
    rfl
  | append_singleton ds d ih =>
    have hnext : BitVec.ofNat w (value b ds) * BitVec.ofNat w b + BitVec.ofNat w d
        = BitVec.ofNat w (value b (ds ++ [d])) := by
      rw [value_concat, BitVec.ofNat_add, BitVec.ofNat_mul]
    rw [List.foldl_append, ih]
    change (_, decide (Drops w b ds) || decide (_ < BitVec.ofNat w (value b ds))) = _
    rw [hnext]
    refine Prod.ext rfl ?_
    change _ = decide (Drops w b (ds ++ [d]))
    rw [decide_eq_decide.mpr drops_concat_iff, Bool.decide_or]
    rfl

end Numeral
