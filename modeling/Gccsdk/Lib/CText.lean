import Gccsdk.Lib.CheckedRun
import Mathlib.Data.List.DropRight
import Mathlib.Data.List.TakeWhile

/-!
# Strings in blocks of memory

A block of memory is the list of its bytes. The string in it ends in front of the first NUL (`cstr`), and it can be
read if there is one; else the reader leaves the block (`readStr`). The last place of a character is `strrchr`, and
what it cuts off is `rdropWhile` (`take_strrchr`).
-/

namespace CText

open CheckedRun

/-- **The string in a block.** -/
def cstr (block : List UInt8) : List UInt8 := block.takeWhile (· ≠ 0)

def readStr (block : List UInt8) : Run (List UInt8) :=
  if 0 ∈ block then pure (cstr block) else throw .outside

variable {block : List UInt8}

theorem readStr_eq (h : 0 ∈ block) : readStr block = .ok (cstr block) := if_pos h

theorem zero_notMem_cstr (block : List UInt8) : 0 ∉ cstr block := by
  intro h
  rw [cstr] at h
  have hne := List.mem_takeWhile_imp h
  exact absurd rfl (of_decide_eq_true hne)

variable {s : List UInt8}

/-- Behind what has no NUL, the string goes on; -/
theorem cstr_append (h : 0 ∉ s) (rest : List UInt8) : cstr (s ++ rest) = s ++ cstr rest := by
  refine List.takeWhile_append_of_pos ?_
  intro c hc
  refine decide_eq_true ?_
  rintro rfl
  exact h hc

/-- it ends where there is one, -/
theorem cstr_append_zero (h : 0 ∉ s) (rest : List UInt8) : cstr (s ++ 0 :: rest) = s := by
  rw [cstr_append h]
  exact List.append_nil s

theorem cstr_append_of_mem (h : 0 ∈ s) (rest : List UInt8) : cstr (s ++ rest) = cstr s := by
  induction s with
  | nil => exact absurd h List.not_mem_nil
  | cons c s ih =>
    change (c :: (s ++ rest)).takeWhile _ = (c :: s).takeWhile _
    rw [List.takeWhile_cons, List.takeWhile_cons]
    by_cases hc : c = 0
    · rw [if_neg (by simp [hc]), if_neg (by simp [hc])]
    · rw [if_pos (by simp [hc]), if_pos (by simp [hc])]
      have hmem : 0 ∈ s := (List.mem_cons.mp h).resolve_left (Ne.symm hc)
      exact congrArg (c :: ·) (ih hmem)

theorem cstr_of_notMem (h : 0 ∉ s) : cstr s = s := by
  have happ := cstr_append h []
  rwa [List.append_nil, show cstr [] = [] from rfl, List.append_nil] at happ

theorem cstr_append_end (s rest : List UInt8) : cstr (s ++ 0 :: rest) = cstr s := by
  by_cases h : 0 ∈ s
  · exact cstr_append_of_mem h _
  · rw [cstr_append_zero h, cstr_of_notMem h]

theorem exists_of_zero_mem (h : 0 ∈ block) : ∃ rest, block = cstr block ++ 0 :: rest := by
  induction block with
  | nil => exact absurd h List.not_mem_nil
  | cons c block ih =>
    change ∃ rest, c :: block = (c :: block).takeWhile _ ++ 0 :: rest
    rw [List.takeWhile_cons]
    by_cases hc : c = 0
    · rw [if_neg (by simp [hc]), hc]
      exact ⟨block, rfl⟩
    · rw [if_pos (by simp [hc])]
      obtain ⟨rest, hrest⟩ := ih ((List.mem_cons.mp h).resolve_left (Ne.symm hc))
      exact ⟨rest, congrArg (c :: ·) hrest⟩

theorem length_cstr_lt (h : 0 ∈ block) : (cstr block).length < block.length := by
  obtain ⟨rest, hrest⟩ := exists_of_zero_mem h
  have hlen := congrArg List.length hrest
  rw [List.length_append, List.length_cons] at hlen
  omega

theorem take_of_le_length (h : 0 ∈ block) {n : ℕ} (hn : n ≤ (cstr block).length) :
    block.take n = (cstr block).take n := by
  obtain ⟨rest, hrest⟩ := exists_of_zero_mem h
  calc block.take n
      = (cstr block ++ 0 :: rest).take n := congrArg (List.take n) hrest
    _ = (cstr block).take n := List.take_append_of_le_length hn

/-! ### The last place of a character -/

/-- `strrchr`, as an offset. -/
def strrchr (c : UInt8) : List UInt8 → Option ℕ
  | [] => none
  | d :: s =>
    match strrchr c s with
    | some i => some (i + 1)
    | none => if d = c then some 0 else none

theorem strrchr_eq_none {c : UInt8} : strrchr c s = none ↔ c ∉ s := by
  induction s with
  | nil => exact iff_of_true rfl List.not_mem_nil
  | cons d s ih =>
    rw [strrchr, List.mem_cons, not_or]
    cases hs : strrchr c s with
    | some i =>
      have hmem : ¬c ∉ s := fun h => by rw [ih.mpr h] at hs; cases hs
      exact iff_of_false nofun fun h => hmem h.2
    | none =>
      change (if d = c then some 0 else none) = none ↔ _
      by_cases hd : d = c
      · rw [if_pos hd]
        exact iff_of_false nofun fun h => h.1 hd.symm
      · rw [if_neg hd]
        exact iff_of_true rfl ⟨fun h => hd h.symm, ih.mp hs⟩

theorem take_append_strrchr {c : UInt8} {i : ℕ} (h : strrchr c s = some i) :
    s.take i ++ c :: s.drop (i + 1) = s := by
  induction s generalizing i with
  | nil => exact nomatch h
  | cons d s ih =>
    rw [strrchr] at h
    cases hs : strrchr c s with
    | some j =>
      rw [hs] at h
      obtain rfl := Option.some.inj h
      exact congrArg (d :: ·) (ih hs)
    | none =>
      rw [hs] at h
      change (if d = c then some 0 else none) = some i at h
      split at h
      next hd =>
        obtain rfl := Option.some.inj h
        rw [hd]
        rfl
      next => exact nomatch h

theorem rdropWhile_cons_of_mem {c d : UInt8} (h : c ∈ s) :
    (d :: s).rdropWhile (· ≠ c) = d :: s.rdropWhile (· ≠ c) := by
  have hne : s.rdropWhile (· ≠ c) ≠ [] := by
    intro hnil
    have hall := List.rdropWhile_eq_nil_iff.mp hnil c h
    exact of_decide_eq_true hall rfl
  rw [List.rdropWhile, List.rdropWhile, List.reverse_cons, List.dropWhile_append]
  have hdrop : (s.reverse.dropWhile (· ≠ c)).isEmpty = false := by
    cases hs : s.reverse.dropWhile (· ≠ c) with
    | nil => exact absurd (by rw [List.rdropWhile, hs]; rfl) hne
    | cons _ _ => rfl
  rw [hdrop]
  exact List.reverse_concat

/-- **What is in front of the last place of a character**, with it. -/
theorem take_strrchr {c : UInt8} {i : ℕ} (h : strrchr c s = some i) :
    i < s.length ∧ s.take (i + 1) = s.rdropWhile (· ≠ c) := by
  induction s generalizing i with
  | nil => cases h
  | cons d s ih =>
    rw [strrchr] at h
    cases hs : strrchr c s with
    | some j =>
      rw [hs] at h
      obtain rfl := Option.some.inj h
      obtain ⟨hlt, htake⟩ := ih hs
      have hmem : c ∈ s := by
        by_contra hnot
        rw [strrchr_eq_none.mpr hnot] at hs
        cases hs
      exact ⟨Nat.succ_lt_succ hlt, by rw [List.take_succ_cons, htake, rdropWhile_cons_of_mem hmem]⟩
    | none =>
      rw [hs] at h
      change (if d = c then some 0 else none) = some i at h
      by_cases hd : d = c
      · rw [if_pos hd] at h
        obtain rfl := Option.some.inj h
        have hnot := strrchr_eq_none.mp hs
        refine ⟨Nat.succ_pos _, ?_⟩
        have hall : (d :: s).rdropWhile (· ≠ c) = [d] := by
          rw [List.rdropWhile, List.reverse_cons, List.dropWhile_append_of_pos, hd]
          · rw [List.dropWhile_cons_of_neg (by simp)]
            rfl
          · intro e he
            refine decide_eq_true ?_
            rintro rfl
            exact hnot (List.mem_reverse.mp he)
        rw [hall]
        rfl
      · rw [if_neg hd] at h
        cases h

theorem rdropWhile_of_notMem {c : UInt8} (h : c ∉ s) : s.rdropWhile (· ≠ c) = [] := by
  refine List.rdropWhile_eq_nil_iff.mpr ?_
  intro d hd
  refine decide_eq_true ?_
  rintro rfl
  exact h hd

end CText
