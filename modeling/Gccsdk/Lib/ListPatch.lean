import Mathlib.Data.List.Basic
import Mathlib.Tactic.Basic

/-!
# Writing into a list

A part of a list is replaced by as many other elements (`patch`). Inside the part the list has the new elements
(`getElem?_patch_inside`), outside it keeps what it had (`getElem?_patch_outside`), and a patch right behind
another one makes one patch of both (`patch_patch`), so that filling a part with copies of one pattern is one patch
with the pattern `repeated`.
-/

namespace ListPatch

variable {α : Type} {l new : List α} {pos i : ℕ}

/-- **The list with `new` from a position on.** -/
def patch (l : List α) (pos : ℕ) (new : List α) : List α := l.take pos ++ new ++ l.drop (pos + new.length)

@[simp] theorem patch_nil (l : List α) (pos : ℕ) : patch l pos [] = l := by
  unfold patch
  rw [List.append_nil, List.length_nil, Nat.add_zero, List.take_append_drop]

theorem length_patch (h : pos + new.length ≤ l.length) : (patch l pos new).length = l.length := by
  unfold patch
  rw [List.length_append, List.length_append, List.length_drop, List.length_take_of_le (by omega)]
  omega

theorem getElem?_patch (h : pos + new.length ≤ l.length) (i : ℕ) :
    (patch l pos new)[i]? = if i < pos then l[i]? else if i < pos + new.length then new[i - pos]? else l[i]? := by
  have htake : (l.take pos).length = pos := List.length_take_of_le (by omega)
  unfold patch
  by_cases hlt : i < pos
  · rw [if_pos hlt, List.append_assoc, List.getElem?_append_left (by omega), List.getElem?_take_of_lt hlt]
  · rw [if_neg hlt, List.append_assoc, List.getElem?_append_right (by omega), htake]
    by_cases hin : i < pos + new.length
    · rw [if_pos hin, List.getElem?_append_left (by omega)]
    · rw [if_neg hin, List.getElem?_append_right (by omega), List.getElem?_drop]
      congr 1
      omega

/-- **Inside** stands what was written. -/
theorem getElem?_patch_inside (h : pos + new.length ≤ l.length) (hi : i < new.length) :
    (patch l pos new)[pos + i]? = new[i]? := by
  rw [getElem?_patch h, if_neg (by omega), if_pos (by omega), Nat.add_sub_cancel_left]

/-- **Outside** nothing changes. -/
theorem getElem?_patch_outside (h : pos + new.length ≤ l.length) (hi : i < pos ∨ pos + new.length ≤ i) :
    (patch l pos new)[i]? = l[i]? := by
  rw [getElem?_patch h]
  by_cases hlt : i < pos
  · rw [if_pos hlt]
  · rw [if_neg hlt, if_neg (by omega)]

theorem patch_set_cons {a : α} (h : pos < l.length) :
    patch (l.set pos a) (pos + 1) new = patch l pos (a :: new) := by
  unfold patch
  rw [List.take_add_one, List.take_set_of_le (Nat.le_refl pos), List.getElem?_set_self h,
    List.drop_set_of_lt (by omega), Option.toList_some, List.append_assoc (l.take pos), List.singleton_append, List.length_cons,
    Nat.add_right_comm pos 1, Nat.add_assoc pos]

/-- **A patch right behind another one.** -/
theorem patch_patch {more : List α} (h : pos + new.length + more.length ≤ l.length) :
    patch (patch l pos new) (pos + new.length) more = patch l pos (new ++ more) := by
  have hfront : (l.take pos ++ new).length = pos + new.length := by
    rw [List.length_append, List.length_take_of_le (by omega)]
  unfold patch
  rw [List.take_left' hfront, ← List.drop_drop, List.drop_left' hfront, List.drop_drop, List.length_append,
    ← List.append_assoc, ← Nat.add_assoc]

/-! ### A pattern again and again -/

def repeated (n : ℕ) (pattern : List α) : List α := (List.replicate n pattern).flatten

@[simp] theorem repeated_zero (pattern : List α) : repeated 0 pattern = [] := rfl

theorem repeated_succ (n : ℕ) (pattern : List α) : repeated (n + 1) pattern = pattern ++ repeated n pattern := rfl

@[simp] theorem length_repeated (n : ℕ) (pattern : List α) : (repeated n pattern).length = pattern.length * n := by
  induction n with
  | zero => rfl
  | succ n ih => rw [repeated_succ, List.length_append, ih, Nat.mul_succ, Nat.add_comm]

theorem getElem?_repeated {n k j : ℕ} {pattern : List α} (hk : k < n) (hj : j < pattern.length) :
    (repeated n pattern)[pattern.length * k + j]? = pattern[j]? := by
  induction n generalizing k with
  | zero => exact absurd hk (Nat.not_lt_zero k)
  | succ n ih =>
    rw [repeated_succ]
    cases k with
    | zero => rw [Nat.mul_zero, Nat.zero_add, List.getElem?_append_left hj]
    | succ k =>
      have hpos : pattern.length * (k + 1) + j = pattern.length + (pattern.length * k + j) := by
        rw [Nat.mul_succ]
        omega
      rw [hpos, List.getElem?_append_right (Nat.le_add_right _ _), Nat.add_sub_cancel_left]
      exact ih (by omega)

end ListPatch
