import Mathlib.Data.List.Induction
import Mathlib.Logic.Function.Basic
import Mathlib.Algebra.GroupWithZero.Nat

/-!
# Buffers whose position wraps

A buffer of `2 ^ w` cells is written at a position of `w` bits. When more is written than the buffer has cells,
the position comes round, and what was written first is overwritten: a cell holds the last of what was written at
its position modulo `2 ^ w` (`writeAll_cell`). As long as the position has not come round, the buffer holds what
was written (`contents_writeAll`); afterwards it cannot, since it seems to hold less (`length_contents_lt`).
-/

namespace WrapBuffer

structure Buffer (w : ℕ) (α : Type) where
  cells : BitVec w → α
  position : BitVec w

variable {w : ℕ} {α : Type} {b : Buffer w α} {xs : List α}

namespace Buffer

def write (b : Buffer w α) (x : α) : Buffer w α :=
  ⟨Function.update b.cells b.position x, b.position + 1⟩

def writeAll (b : Buffer w α) (xs : List α) : Buffer w α := xs.foldl write b

def contents (b : Buffer w α) : List α :=
  (List.range b.position.toNat).map fun i => b.cells (BitVec.ofNat w i)

end Buffer

theorem writeAll_append (b : Buffer w α) (xs ys : List α) :
    b.writeAll (xs ++ ys) = (b.writeAll xs).writeAll ys :=
  List.foldl_append

theorem writeAll_position (b : Buffer w α) (xs : List α) :
    (b.writeAll xs).position = b.position + BitVec.ofNat w xs.length := by
  induction xs generalizing b with
  | nil => exact (BitVec.add_zero _).symm
  | cons x rest ih =>
    change ((b.write x).writeAll rest).position = _
    rw [ih, List.length_cons, BitVec.ofNat_add]
    change b.position + 1 + _ = _
    rw [BitVec.add_assoc, BitVec.add_comm 1]
    rfl

private theorem zero_add_position (x : BitVec w) : 0 + x = x := BitVec.zero_add x

private theorem ofNat_ne {i j : ℕ} (hij : i < j) (hround : j < i + 2 ^ w) :
    BitVec.ofNat w i ≠ BitVec.ofNat w j := by
  intro heq
  have hmod := congrArg BitVec.toNat heq
  rw [BitVec.toNat_ofNat, BitVec.toNat_ofNat] at hmod
  have hzero : (j - i) % 2 ^ w = 0 := Nat.sub_mod_eq_zero_of_mod_eq hmod.symm
  rw [Nat.mod_eq_of_lt (by omega)] at hzero
  omega

/-- **What a cell holds** is the last of what was written there. -/
theorem writeAll_cell (b : Buffer w α) {i : ℕ} (hi : i < xs.length) (hlast : xs.length ≤ i + 2 ^ w) :
    (b.writeAll xs).cells (b.position + BitVec.ofNat w i) = xs[i] := by
  induction xs using List.reverseRecOn with
  | nil => cases hi
  | append_singleton xs x ih =>
    rw [List.length_append, List.length_singleton] at hi hlast
    rw [writeAll_append]
    change Function.update (b.writeAll xs).cells (b.writeAll xs).position x _ = _
    rw [writeAll_position]
    rcases Nat.lt_succ_iff_lt_or_eq.mp hi with hlt | rfl
    · -- an earlier one, which is less than a round behind
      have hne : b.position + BitVec.ofNat w i ≠ b.position + BitVec.ofNat w xs.length := by
        intro heq
        exact ofNat_ne hlt (by omega) ((BitVec.add_right_inj _).mp heq)
      rw [Function.update_of_ne hne, ih hlt (by omega), List.getElem_append_left hlt]
    · rw [Function.update_self, List.getElem_concat_length rfl]

/-- **Before the position comes round**, the buffer holds what was written. -/
theorem contents_writeAll (hb : b.position = 0) (hfit : xs.length < 2 ^ w) : (b.writeAll xs).contents = xs := by
  have hposition : (b.writeAll xs).position.toNat = xs.length := by
    rw [writeAll_position, hb, zero_add_position, BitVec.toNat_ofNat, Nat.mod_eq_of_lt hfit]
  refine List.ext_getElem ?_ fun i hi hi' => ?_
  · rw [Buffer.contents, List.length_map, List.length_range, hposition]
  · have hcell := writeAll_cell b hi' (by omega)
    rw [hb, zero_add_position] at hcell
    simp only [Buffer.contents, List.getElem_map, List.getElem_range]
    exact hcell

theorem contents_terminate (b : Buffer w α) (x : α) :
    (Buffer.mk (Function.update b.cells b.position x) b.position).contents = b.contents := by
  unfold Buffer.contents
  refine List.map_congr_left fun i hi => Function.update_of_ne ?_ _ _
  intro heq
  have hnat := congrArg BitVec.toNat heq
  rw [BitVec.toNat_ofNat] at hnat
  have hlt : i < b.position.toNat := List.mem_range.mp hi
  rw [Nat.mod_eq_of_lt (Nat.lt_trans hlt b.position.isLt)] at hnat
  exact absurd hnat (Nat.ne_of_lt hlt)

theorem length_contents (b : Buffer w α) : b.contents.length = b.position.toNat := by
  rw [Buffer.contents, List.length_map, List.length_range]

theorem contents_eq_cons {x : α} {rest : List α} (h : b.contents = x :: rest) : b.cells 0 = x := by
  unfold Buffer.contents at h
  have hhead := congrArg List.head? h
  rw [List.head?_map, List.head?_range] at hhead
  split at hhead
  · cases hhead
  · exact Option.some.inj hhead

theorem length_contents_lt (b : Buffer w α) : b.contents.length < 2 ^ w := by
  rw [length_contents]
  exact b.position.isLt

end WrapBuffer
