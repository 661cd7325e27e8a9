import Mathlib.Data.List.Basic
import Mathlib.Tactic.Basic
import Mathlib.Algebra.GroupWithZero.Nat

/-!
# Little-endian words

Words of 32 bits and their bytes, the least significant byte first: one word (`bytes`, `word`), a word at a position of
memory (`wordAt`), words one behind the other (`wordsAt`), and all the words of some data, the last one filled up with
zeros (`toWords`).
-/

namespace LittleEndian

def bytes (w : BitVec 32) : List UInt8 :=
  [⟨w.extractLsb' 0 8⟩, ⟨w.extractLsb' 8 8⟩, ⟨w.extractLsb' 16 8⟩, ⟨w.extractLsb' 24 8⟩]

def word (b0 b1 b2 b3 : UInt8) : BitVec 32 := b3.toBitVec ++ b2.toBitVec ++ b1.toBitVec ++ b0.toBitVec

@[simp] theorem length_bytes (w : BitVec 32) : (bytes w).length = 4 := rfl

theorem toNat_word (b0 b1 b2 b3 : UInt8) : (word b0 b1 b2 b3).toNat =
    b0.toNat + 2 ^ 8 * b1.toNat + 2 ^ 16 * b2.toNat + 2 ^ 24 * b3.toNat := by
  have h0 := b0.toNat_lt
  have h1 := b1.toNat_lt
  have h2 := b2.toNat_lt
  unfold word
  simp only [BitVec.toNat_append, UInt8.toNat_toBitVec]
  rw [← Nat.shiftLeft_add_eq_or_of_lt h2, ← Nat.shiftLeft_add_eq_or_of_lt h1, ← Nat.shiftLeft_add_eq_or_of_lt h0]
  simp only [Nat.shiftLeft_eq]
  omega

private theorem toNat_byte (w : BitVec 32) (i : ℕ) :
    (⟨w.extractLsb' i 8⟩ : UInt8).toNat = w.toNat / 2 ^ i % 2 ^ 8 := by
  change (w.extractLsb' i 8).toNat = _
  rw [BitVec.extractLsb'_toNat, Nat.shiftRight_eq_div_pow]

/-- **A word is its bytes**, -/
theorem bytes_word (b0 b1 b2 b3 : UInt8) : bytes (word b0 b1 b2 b3) = [b0, b1, b2, b3] := by
  have h0 := b0.toNat_lt
  have h1 := b1.toNat_lt
  have h2 := b2.toNat_lt
  have h3 := b3.toNat_lt
  have hbyte {i : ℕ} {b : UInt8} (h : (word b0 b1 b2 b3).toNat / 2 ^ i % 2 ^ 8 = b.toNat) :
      (⟨(word b0 b1 b2 b3).extractLsb' i 8⟩ : UInt8) = b :=
    UInt8.toNat_inj.mp ((toNat_byte _ _).trans h)
  rw [toNat_word] at hbyte
  unfold bytes
  rw [hbyte (b := b0) (by omega), hbyte (b := b1) (by omega), hbyte (b := b2) (by omega), hbyte (b := b3) (by omega)]

theorem word_bytes (w : BitVec 32) :
    word ⟨w.extractLsb' 0 8⟩ ⟨w.extractLsb' 8 8⟩ ⟨w.extractLsb' 16 8⟩ ⟨w.extractLsb' 24 8⟩ = w := by
  have hlt := w.isLt
  apply BitVec.eq_of_toNat_eq
  rw [toNat_word, toNat_byte, toNat_byte, toNat_byte, toNat_byte]
  omega

/-! ### Words in memory -/

def wordAt (memory : List UInt8) (pos : ℕ) : Option (BitVec 32) :=
  match memory.drop pos with
  | b0 :: b1 :: b2 :: b3 :: _ => some (word b0 b1 b2 b3)
  | _ => none

theorem wordAt_append {pre post : List UInt8} {w : BitVec 32} {pos : ℕ} (hpos : pre.length = pos) :
    wordAt (pre ++ (bytes w ++ post)) pos = some w := by
  unfold wordAt
  rw [← hpos, List.drop_left]
  exact congrArg some (word_bytes w)

theorem wordAt_of_le {memory : List UInt8} {pos : ℕ} (h : pos + 4 ≤ memory.length) :
    ∃ w, wordAt memory pos = some w ∧ memory.take (pos + 4) = memory.take pos ++ bytes w := by
  have hlen : 4 ≤ (memory.drop pos).length := by
    rw [List.length_drop]
    omega
  have htake : memory.take (pos + 4) = memory.take pos ++ (memory.drop pos).take 4 := List.take_add
  unfold wordAt
  rw [htake]
  match memory.drop pos, hlen with
  | b0 :: b1 :: b2 :: b3 :: _, _ => exact ⟨_, rfl, by rw [bytes_word]; rfl⟩

/-- `n` words from the start of memory on. -/
def wordsAt (memory : List UInt8) (n : ℕ) : Option (List (BitVec 32)) :=
  (List.range n).mapM fun i => wordAt memory (4 * i)

theorem wordsAt_of_le {memory : List UInt8} {n : ℕ} (h : 4 * n ≤ memory.length) :
    ∃ ws, wordsAt memory n = some ws ∧ ws.flatMap bytes = memory.take (4 * n) := by
  induction n with
  | zero => exact ⟨[], rfl, rfl⟩
  | succ n ih =>
    obtain ⟨ws, hws, hbytes⟩ := ih (by omega)
    have hinside : 4 * n + 4 ≤ memory.length := h
    obtain ⟨w, hw, htake⟩ := wordAt_of_le hinside
    refine ⟨ws ++ [w], ?_, ?_⟩
    · unfold wordsAt at hws ⊢
      rw [List.range_succ, List.mapM_append, hws, List.mapM_cons, hw]
      rfl
    · rw [List.flatMap_append, hbytes, Nat.mul_succ, htake]
      exact congrArg _ (List.append_nil _)

/-! ### Data -/

def toWords : List UInt8 → List (BitVec 32)
  | [] => []
  | [b0] => [word b0 0 0 0]
  | [b0, b1] => [word b0 b1 0 0]
  | [b0, b1, b2] => [word b0 b1 b2 0]
  | b0 :: b1 :: b2 :: b3 :: rest => word b0 b1 b2 b3 :: toWords rest

theorem flatMap_bytes_toWords (data : List UInt8) :
    ∃ pad, (toWords data).flatMap bytes = data ++ pad ∧ (data ++ pad).length = (data.length + 3) / 4 * 4 := by
  fun_induction toWords data with
  | case1 => exact ⟨[], rfl, rfl⟩
  | case2 b0 =>
    refine ⟨[0, 0, 0], ?_, by simp⟩
    rw [List.flatMap_cons, bytes_word]
    rfl
  | case3 b0 b1 =>
    refine ⟨[0, 0], ?_, by simp⟩
    rw [List.flatMap_cons, bytes_word]
    rfl
  | case4 b0 b1 b2 =>
    refine ⟨[0], ?_, by simp⟩
    rw [List.flatMap_cons, bytes_word]
    rfl
  | case5 b0 b1 b2 b3 rest ih =>
    obtain ⟨pad, hpad, hlen⟩ := ih
    refine ⟨pad, ?_, ?_⟩
    · rw [List.flatMap_cons, bytes_word, hpad]
      rfl
    · simp only [List.cons_append, List.length_cons, hlen]
      omega

end LittleEndian
