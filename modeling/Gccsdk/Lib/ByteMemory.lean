import Gccsdk.Lib.LittleEndian
import Mathlib.Data.BitVec
import Mathlib.Logic.Function.Basic
import Mathlib.Tactic.Common

/-!
# A memory of bytes

Memory by 32-bit addresses, which wrap: bytes one behind the other (`Holds`, `storeBytes`) and words
(`storeWord`, `HoldsWord`). What is stored is there (`holds_storeBytes`), and nothing else changes
(`storeBytes_of_not_inside`).
-/

namespace ByteMemory

abbrev Memory := BitVec 32 → UInt8

/-- The address is one of the `n` from `a` on. Addresses do not wrap here: the lemmas below say so. -/
def Inside (a : BitVec 32) (n : ℕ) (x : BitVec 32) : Prop := a.toNat ≤ x.toNat ∧ x.toNat < a.toNat + n

def Holds (m : Memory) (a : BitVec 32) : List UInt8 → Prop
  | [] => True
  | b :: bs => m a = b ∧ Holds m (a + 1) bs

def storeBytes (m : Memory) (a : BitVec 32) : List UInt8 → Memory
  | [] => m
  | b :: bs => storeBytes (Function.update m a b) (a + 1) bs

def storeWord (m : Memory) (a w : BitVec 32) : Memory := storeBytes m a (LittleEndian.bytes w)

def HoldsWord (m : Memory) (a w : BitVec 32) : Prop := Holds m a (LittleEndian.bytes w)

variable {m m' : Memory} {a w x : BitVec 32} {b : UInt8} {bs : List UInt8} {n k : ℕ}

/-! ### Addresses -/

theorem toNat_add_one (h : a.toNat + 1 < 2 ^ 32) : (a + 1).toNat = a.toNat + 1 := by
  rw [BitVec.toNat_add]
  exact Nat.mod_eq_of_lt h

theorem toNat_add_ofNat (h : a.toNat + k < 2 ^ 32) : (a + BitVec.ofNat 32 k).toNat = a.toNat + k := by
  rw [BitVec.toNat_add, BitVec.toNat_ofNat, Nat.mod_eq_of_lt (lt_of_le_of_lt (Nat.le_add_left k _) h),
    Nat.mod_eq_of_lt h]

theorem Inside.of_add_one (hle : a.toNat + (n + 1) ≤ 2 ^ 32) (hx : Inside (a + 1) n x) : Inside a (n + 1) x := by
  unfold Inside at hx ⊢
  rcases Nat.eq_zero_or_pos n with rfl | hpos
  · omega
  · rw [toNat_add_one (by omega)] at hx
    omega

/-! ### What is in memory -/

theorem Holds.congr (hholds : Holds m a bs) (hle : a.toNat + bs.length ≤ 2 ^ 32)
    (hsame : ∀ x, Inside a bs.length x → m' x = m x) : Holds m' a bs := by
  induction bs generalizing a with
  | nil => trivial
  | cons b bs ih =>
    refine ⟨(hsame a ⟨le_rfl, Nat.lt_add_of_pos_right (Nat.succ_pos _)⟩).trans hholds.1, ?_⟩
    rw [List.length_cons] at hle hsame
    refine ih hholds.2 ?_ fun x hx => hsame x (hx.of_add_one hle)
    rcases Nat.eq_zero_or_pos bs.length with hzero | hpos
    · rw [hzero]
      exact (a + 1).isLt.le
    · rw [toNat_add_one (by omega)]
      omega

theorem holds_append {bs' : List UInt8} :
    Holds m a (bs ++ bs') ↔ Holds m a bs ∧ Holds m (a + BitVec.ofNat 32 bs.length) bs' := by
  induction bs generalizing a with
  | nil =>
    rw [List.length_nil, BitVec.add_zero]
    exact ⟨fun h => ⟨trivial, h⟩, fun h => h.2⟩
  | cons b bs ih =>
    have hnext : a + 1 + BitVec.ofNat 32 bs.length = a + BitVec.ofNat 32 (b :: bs).length := by
      rw [List.length_cons, Nat.add_comm, BitVec.ofNat_add, BitVec.add_assoc]
      rfl
    change m a = b ∧ Holds m (a + 1) (bs ++ bs') ↔ (m a = b ∧ Holds m (a + 1) bs) ∧ _
    rw [ih, hnext, and_assoc]

/-! ### What is stored -/

/-- **Nothing else changes**, counted from the first address on, -/
theorem storeBytes_of_le (hx : bs.length ≤ (x - a).toNat) : storeBytes m a bs x = m x := by
  induction bs generalizing m a with
  | nil => rfl
  | cons b bs ih =>
    rw [List.length_cons, BitVec.toNat_sub] at hx
    have hne : x ≠ a := by
      rintro rfl
      omega
    have hne' : a.toNat ≠ x.toNat := fun heq => hne (BitVec.eq_of_toNat_eq heq.symm)
    have hnext : bs.length ≤ (x - (a + 1)).toNat := by
      rw [BitVec.toNat_sub, BitVec.toNat_add]
      change bs.length ≤ (2 ^ 32 - (a.toNat + 1) % 2 ^ 32 + x.toNat) % 2 ^ 32
      omega
    change storeBytes (Function.update m a b) (a + 1) bs x = m x
    rw [ih hnext, Function.update_of_ne hne]

/-- or, where the addresses do not wrap, by the addresses. -/
theorem storeBytes_of_not_inside (hle : a.toNat + bs.length ≤ 2 ^ 32) (hx : ¬Inside a bs.length x) :
    storeBytes m a bs x = m x := by
  apply storeBytes_of_le
  unfold Inside at hx
  rw [BitVec.toNat_sub]
  omega

/-- **What is stored is there.** -/
theorem holds_storeBytes (hle : bs.length ≤ 2 ^ 32) : Holds (storeBytes m a bs) a bs := by
  induction bs generalizing m a with
  | nil => trivial
  | cons b bs ih =>
    rw [List.length_cons] at hle
    change storeBytes (Function.update m a b) (a + 1) bs a = b ∧ Holds _ (a + 1) bs
    have hbehind : bs.length ≤ (a - (a + 1)).toNat := by
      rw [BitVec.toNat_sub, BitVec.toNat_add]
      change bs.length ≤ (2 ^ 32 - (a.toNat + 1) % 2 ^ 32 + a.toNat) % 2 ^ 32
      omega
    refine ⟨?_, ih (by omega)⟩
    rw [storeBytes_of_le hbehind, Function.update_self]

theorem storeWord_of_not_inside (hle : a.toNat + 4 ≤ 2 ^ 32) (hx : ¬Inside a 4 x) : storeWord m a w x = m x :=
  storeBytes_of_not_inside hle hx

theorem holdsWord_storeWord : HoldsWord (storeWord m a w) a w :=
  holds_storeBytes (by rw [LittleEndian.length_bytes]; exact Nat.le_of_lt (by decide))

theorem HoldsWord.congr (hholds : HoldsWord m a w) (hle : a.toNat + 4 ≤ 2 ^ 32)
    (hsame : ∀ x, Inside a 4 x → m' x = m x) : HoldsWord m' a w :=
  Holds.congr hholds hle hsame

theorem HoldsWord.unique {w' : BitVec 32} (hw : HoldsWord m a w) (hw' : HoldsWord m a w') : w = w' := by
  obtain ⟨h0, h1, h2, h3, -⟩ := hw
  obtain ⟨h0', h1', h2', h3', -⟩ := hw'
  have hbytes : LittleEndian.bytes w = LittleEndian.bytes w' := by
    unfold LittleEndian.bytes
    rw [← h0, ← h1, ← h2, ← h3, h0', h1', h2', h3']
  rw [← LittleEndian.word_bytes w, ← LittleEndian.word_bytes w']
  unfold LittleEndian.bytes at hbytes
  injection hbytes with hb0 hrest
  injection hrest with hb1 hrest
  injection hrest with hb2 hrest
  injection hrest with hb3 _
  rw [hb0, hb1, hb2, hb3]

end ByteMemory
