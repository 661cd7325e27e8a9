import Mathlib.Algebra.BigOperators.Group.List.Basic
import Mathlib.Order.Monotone.Basic
import Mathlib.Algebra.GroupWithZero.Nat

/-!
# Buffers that grow by one reallocation at a time

A buffer with `idx` used cells out of `size` allocated ones is appended to by code of the shape

    if (idx + len > size) size = grow (size);
    copy len cells to idx;

that is, an append reallocates at most once. Its allocated size therefore runs through the fixed
series `capacity grow k`, and it always is the first member of that series that holds the used
cells (`Tight`). So whether an append stays inside the allocation is a property of the position
and the length alone: no capacity may be skipped (`OneGrowthSuffices`). `Tight.append` and
`Tight.oneGrowthSuffices_iff` are the step rules, `AllSuffice` the condition over a sequence of
appends.
-/

namespace GrowBuffer

/-- The capacity after `k` reallocations of a buffer that starts unallocated. -/
def capacity (grow : Nat → Nat) : Nat → Nat
  | 0 => 0
  | k + 1 => grow (capacity grow k)

/-- **One growth is enough.** An append of `len` cells at position `idx` skips no capacity: it
ends within the capacity that follows any capacity at or above its start. -/
def OneGrowthSuffices (grow : Nat → Nat) (idx len : Nat) : Prop :=
  ∀ k, idx ≤ capacity grow k → idx + len ≤ capacity grow (k + 1)

/-- Every append of a sequence, given by its lengths and made from position `idx` on, finds one
growth enough. -/
def AllSuffice (grow : Nat → Nat) : Nat → List Nat → Prop
  | _, [] => True
  | idx, len :: lens => OneGrowthSuffices grow idx len ∧ AllSuffice grow (idx + len) lens

/-- **The size invariant.** The allocated size is the first capacity that holds the used cells. -/
structure Tight (grow : Nat → Nat) (idx size : Nat) : Prop where
  le_size : idx ≤ size
  /-- The size is a member of the capacity series, and the first one to hold the used cells. -/
  first : ∃ k, size = capacity grow k ∧ ∀ j < k, capacity grow j < idx

variable {grow : Nat → Nat} {idx size len : Nat}

theorem Tight.initial : Tight grow 0 0 :=
  ⟨le_refl 0, 0, rfl, fun _ hj => absurd hj (Nat.not_lt_zero _)⟩

private theorem capacity_mono (hgrow : ∀ n, n ≤ grow n) {j k : Nat} (h : j ≤ k) :
    capacity grow j ≤ capacity grow k := by
  induction h with
  | refl => exact le_refl _
  | step _ ih => exact le_trans ih (hgrow _)

/-- An append that fits, with or without the one growth it may make, keeps the invariant. -/
theorem Tight.append (h : Tight grow idx size)
    (hfit : idx + len ≤ if size < idx + len then grow size else size) :
    Tight grow (idx + len) (if size < idx + len then grow size else size) := by
  obtain ⟨k, hk, hfirst⟩ := h.first
  refine ⟨hfit, ?_⟩
  by_cases hlt : size < idx + len
  · refine ⟨k + 1, ?_, ?_⟩
    · rw [if_pos hlt, hk]
      rfl
    · -- the capacities below the new one are the old one, now too small, and those below it
      intro j hj
      rcases Nat.lt_succ_iff_lt_or_eq.mp hj with hj | rfl
      · exact lt_of_lt_of_le (hfirst j hj) (Nat.le_add_right _ _)
      · rw [← hk]
        exact hlt
  · refine ⟨k, ?_, ?_⟩
    · rw [if_neg hlt, hk]
    · intro j hj
      exact lt_of_lt_of_le (hfirst j hj) (Nat.le_add_right _ _)

/-- **The step condition.** In a state of the invariant, an append stays inside the allocation
exactly when one growth suffices at its position. -/
theorem Tight.oneGrowthSuffices_iff (hgrow : ∀ n, n ≤ grow n)
    (hmono : Monotone grow) (h : Tight grow idx size) :
    OneGrowthSuffices grow idx len ↔
      idx + len ≤ if size < idx + len then grow size else size := by
  obtain ⟨k, hk, hfirst⟩ := h.first
  constructor
  · intro hone
    have hnext : idx + len ≤ grow size := by
      have := hone k (hk ▸ h.le_size)
      rwa [capacity, ← hk] at this
    split
    · exact hnext
    · omega
  · intro hfit j hj
    have hkj : k ≤ j := by
      by_contra hlt
      exact absurd (hfirst j (Nat.lt_of_not_le hlt)) (Nat.not_lt.mpr hj)
    have hnext : idx + len ≤ grow size := by
      split at hfit
      · exact hfit
      · exact le_trans hfit (hgrow size)
    calc idx + len ≤ grow size := hnext
      _ = grow (capacity grow k) := by rw [hk]
      _ ≤ grow (capacity grow j) := hmono (capacity_mono hgrow hkj)

theorem allSuffice_append (idx : Nat) (xs ys : List Nat) :
    AllSuffice grow idx (xs ++ ys) ↔ AllSuffice grow idx xs ∧ AllSuffice grow (idx + xs.sum) ys := by
  induction xs generalizing idx with
  | nil => simp [AllSuffice]
  | cons x xs ih =>
    simp only [List.cons_append, AllSuffice, ih, List.sum_cons, and_assoc, Nat.add_assoc]

end GrowBuffer
