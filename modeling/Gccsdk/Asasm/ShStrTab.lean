import Gccsdk.Asasm.Global
import Gccsdk.Lib.GrowBuffer

/-!
# The .shstrtab buffer

`shstrtab_add` of `output.c` appends a string to a buffer which it reallocates at most once per
call, to twice its size plus 32. Nothing checks that this is enough: the `memcpy` of a string for
which it is not writes past the end of the allocation. The model stops there (`none`).

`ShStrTab.Good` is the invariant of the buffer, `shstrtabAdd_eq_some` and `shstrtabAdd_eq_none_iff`
say what one call does, and `shstrtabAddAll_eq_some` and `shstrtabAddAll_eq_none` extend both to
any sequence of calls: it stays inside the allocation exactly when one growth suffices for each
string (`GrowBuffer.AllSuffice`).
-/

namespace Asasm

open GrowBuffer

/-- `shstrtab_t`: `idx` bytes of the `size` allocated ones are used. -/
structure ShStrTab where
  idx : Nat
  size : Nat
  bufP : List UInt8
  /-- The allocation has `size` bytes. -/
  allocated : bufP.length = size

namespace ShStrTab

/-- `SHSTRTAB_INIT_VALUE`. -/
def initValue : ShStrTab := ⟨0, 0, [], rfl⟩

/-- `realloc`. The bytes it adds are indeterminate in C; nothing reads them before they are
written. -/
def realloc (s : ShStrTab) (newSize : Nat) : ShStrTab where
  idx := s.idx
  size := newSize
  bufP := s.bufP.take newSize ++ List.replicate (newSize - s.bufP.length) 0
  allocated := by
    simp only [List.length_append, List.length_take, List.length_replicate]
    omega

/-- `memcpy` to the used end of the buffer: out of bounds unless the bytes fit the allocation. -/
def append (s : ShStrTab) (str : List UInt8) : Option ShStrTab :=
  if h : s.idx + str.length ≤ s.size then
    some {
      idx := s.idx + str.length
      size := s.size
      bufP := s.bufP.take s.idx ++ (str ++ s.bufP.drop (s.idx + str.length))
      allocated := by
        have := s.allocated
        simp only [List.length_append, List.length_take, List.length_drop]
        omega }
  else none

def contents (s : ShStrTab) : List UInt8 := s.bufP.take s.idx

end ShStrTab

/-- The size `shstrtab_add` reallocates to. -/
def shstrtabGrow (size : Nat) : Nat := 2 * size + 32

/-- The reallocation `shstrtab_add` makes before it copies `len` bytes. -/
def ShStrTab.reserve (s : ShStrTab) (len : Nat) : ShStrTab :=
  if s.size < s.idx + len then s.realloc (shstrtabGrow s.size) else s

/-- `shstrtab_add`, for the `strLen` bytes at `str`. -/
def shstrtabAdd (s : ShStrTab) (str : List UInt8) : Option ShStrTab :=
  (s.reserve str.length).append str

/-- A sequence of `shstrtab_add` calls. -/
def shstrtabAddAll : ShStrTab → List (List UInt8) → Option ShStrTab
  | s, [] => some s
  | s, str :: strs => do shstrtabAddAll (← shstrtabAdd s str) strs

/-! ### The invariant -/

/-- **The buffer invariant.** The used bytes are allocated, in an allocation no larger than the
growth formula made it. -/
def ShStrTab.Good (s : ShStrTab) : Prop := Tight shstrtabGrow s.idx s.size

theorem ShStrTab.initValue_good : ShStrTab.initValue.Good := Tight.initial

private theorem le_shstrtabGrow (n : Nat) : n ≤ shstrtabGrow n := by
  unfold shstrtabGrow
  omega

private theorem shstrtabGrow_mono : Monotone shstrtabGrow := by
  intro m n h
  unfold shstrtabGrow
  omega

namespace ShStrTab

variable {s : ShStrTab} {str : List UInt8}

@[simp] theorem initValue_contents : initValue.contents = [] := rfl

/-- While the buffer invariant holds, as many bytes are used as `idx` says. -/
theorem Good.contents_length (h : s.Good) : s.contents.length = s.idx := by
  rw [contents, List.length_take, s.allocated]
  exact Nat.min_eq_left h.le_size

@[simp] theorem reserve_idx (len : Nat) : (s.reserve len).idx = s.idx := by
  unfold reserve
  split <;> rfl

theorem reserve_size (len : Nat) :
    (s.reserve len).size = if s.size < s.idx + len then shstrtabGrow s.size else s.size := by
  unfold reserve
  split <;> rfl

theorem Good.reserve_contents (h : s.Good) (len : Nat) :
    (s.reserve len).contents = s.contents := by
  unfold reserve
  split
  · have hlen : s.bufP.length ≤ shstrtabGrow s.size := s.allocated ▸ le_shstrtabGrow _
    have hidx : s.idx ≤ s.bufP.length := s.allocated ▸ h.le_size
    change (s.bufP.take _ ++ _).take s.idx = s.bufP.take s.idx
    rw [List.take_of_length_le hlen, List.take_append_of_le_length hidx]
  · rfl

theorem append_eq_none_iff : s.append str = none ↔ ¬ s.idx + str.length ≤ s.size := by
  unfold append
  split <;> simp_all

theorem append_eq_some {s' : ShStrTab} (hidx : s.idx ≤ s.size) (h : s.append str = some s') :
    s'.contents = s.contents ++ str ∧ s'.idx = s.idx + str.length ∧ s'.size = s.size := by
  unfold append at h
  split at h
  · cases h
    refine ⟨?_, rfl, rfl⟩
    have hlen : (s.bufP.take s.idx).length = s.idx := by
      rw [List.length_take, s.allocated]
      exact Nat.min_eq_left hidx
    change (s.bufP.take s.idx ++ (str ++ _)).take (s.idx + str.length) = s.bufP.take s.idx ++ str
    rw [List.take_append, hlen, List.take_of_length_le (by rw [hlen]; omega),
      Nat.add_sub_cancel_left, List.take_left]
  · cases h

end ShStrTab

/-! ### One call, and any sequence of calls -/

variable {s s' : ShStrTab} {str : List UInt8}

private theorem ShStrTab.Good.idx_le_reserve (hs : s.Good) (len : Nat) :
    (s.reserve len).idx ≤ (s.reserve len).size := by
  rw [ShStrTab.reserve_idx, ShStrTab.reserve_size]
  have := hs.le_size
  split
  · exact le_trans this (le_shstrtabGrow _)
  · exact this

/-- **A successful call** appends the string to the contents and keeps the invariant. -/
theorem shstrtabAdd_eq_some (hs : s.Good) (h : shstrtabAdd s str = some s') :
    s'.Good ∧ s'.contents = s.contents ++ str ∧ s'.idx = s.idx + str.length := by
  obtain ⟨hcontents, hidx, hsize⟩ := ShStrTab.append_eq_some (hs.idx_le_reserve _) h
  have hfit : s.idx + str.length ≤ (s.reserve str.length).size := by
    by_contra hnot
    rw [shstrtabAdd, ShStrTab.append_eq_none_iff.mpr (by simpa using hnot)] at h
    cases h
  rw [hs.reserve_contents] at hcontents
  rw [ShStrTab.reserve_idx] at hidx
  rw [ShStrTab.reserve_size] at hsize hfit
  refine ⟨?_, hcontents, hidx⟩
  rw [ShStrTab.Good, hidx, hsize]
  exact Tight.append hs hfit

/-- **A call writes past the allocation** exactly when one growth is not enough for its string. -/
theorem shstrtabAdd_eq_none_iff (hs : s.Good) :
    shstrtabAdd s str = none ↔ ¬ OneGrowthSuffices shstrtabGrow s.idx str.length := by
  rw [shstrtabAdd, ShStrTab.append_eq_none_iff, ShStrTab.reserve_idx, ShStrTab.reserve_size,
    Tight.oneGrowthSuffices_iff le_shstrtabGrow shstrtabGrow_mono hs]

theorem shstrtabAdd_isSome (hs : s.Good) (h : OneGrowthSuffices shstrtabGrow s.idx str.length) :
    ∃ s', shstrtabAdd s str = some s' := by
  cases hadd : shstrtabAdd s str with
  | some s' => exact ⟨s', rfl⟩
  | none => exact absurd h ((shstrtabAdd_eq_none_iff hs).mp hadd)

/-- **A sequence of calls for which one growth always suffices** leaves all its strings in the
buffer, one after the other. -/
theorem shstrtabAddAll_eq_some (hs : s.Good) {strs : List (List UInt8)}
    (h : AllSuffice shstrtabGrow s.idx (strs.map List.length)) :
    ∃ s', shstrtabAddAll s strs = some s' ∧ s'.Good ∧ s'.contents = s.contents ++ strs.flatten := by
  induction strs generalizing s with
  | nil => exact ⟨s, rfl, hs, by simp⟩
  | cons str strs ih =>
    obtain ⟨hone, hrest⟩ := h
    obtain ⟨s₁, hadd⟩ := shstrtabAdd_isSome hs hone
    obtain ⟨hs₁, hcontents, hidx⟩ := shstrtabAdd_eq_some hs hadd
    obtain ⟨s', hall, hs', hc'⟩ := ih hs₁ (hidx ▸ hrest)
    refine ⟨s', ?_, hs', ?_⟩
    · simp only [shstrtabAddAll, hadd]
      exact hall
    · rw [hc', hcontents, List.append_assoc, List.flatten_cons]

theorem shstrtabAddAll_eq_none (hs : s.Good) {strs : List (List UInt8)}
    (h : ¬ AllSuffice shstrtabGrow s.idx (strs.map List.length)) :
    shstrtabAddAll s strs = none := by
  induction strs generalizing s with
  | nil => exact absurd trivial h
  | cons str strs ih =>
    cases hadd : shstrtabAdd s str with
    | none => simp [shstrtabAddAll, hadd]
    | some s₁ =>
      obtain ⟨hs₁, -, hidx⟩ := shstrtabAdd_eq_some hs hadd
      have hone : OneGrowthSuffices shstrtabGrow s.idx str.length := by
        by_contra hnot
        rw [(shstrtabAdd_eq_none_iff hs).mpr hnot] at hadd
        cases hadd
      simp only [shstrtabAddAll, hadd]
      exact ih hs₁ fun hrest => h ⟨hone, hidx ▸ hrest⟩

/-! ### What the callers rely on -/

/-- **What a sequence of calls promises**, from the initial buffer: all return; the used bytes are the
strings given, one after the other; around every call they stand inside the allocation, and the index before
it, which the callers take for the offset of their string, is where that string is found at the end. -/
def ShstrtabAdds (strs : List (List UInt8)) : Prop :=
  ∃ s', shstrtabAddAll .initValue strs = some s' ∧ s'.contents = strs.flatten ∧
    ∀ before str after, strs = before ++ str :: after →
      ∃ s₁ s₂, shstrtabAddAll .initValue before = some s₁ ∧ shstrtabAdd s₁ str = some s₂ ∧
        s₁.idx ≤ s₁.size ∧ s₂.idx ≤ s₂.size ∧
        (s'.contents.drop s₁.idx).take str.length = str

/-- **The calls keep their promise** exactly when one growth suffices for each string at its
place. -/
theorem shstrtabAdds_iff (strs : List (List UInt8)) :
    ShstrtabAdds strs ↔ AllSuffice shstrtabGrow 0 (strs.map List.length) := by
  constructor
  · rintro ⟨s', hall, -⟩
    by_contra hnot
    rw [shstrtabAddAll_eq_none ShStrTab.initValue_good hnot] at hall
    cases hall
  · intro h
    obtain ⟨s', hall, -, hcontents⟩ := shstrtabAddAll_eq_some ShStrTab.initValue_good h
    rw [ShStrTab.initValue_contents, List.nil_append] at hcontents
    refine ⟨s', hall, hcontents, ?_⟩
    rintro before str after rfl
    rw [List.map_append, List.map_cons, allSuffice_append, Nat.zero_add] at h
    obtain ⟨hbefore, hone, -⟩ := h
    -- the state the call finds has the strings before it, and no more
    obtain ⟨s₁, hs₁, hgood₁, hcontents₁⟩ :=
      shstrtabAddAll_eq_some ShStrTab.initValue_good hbefore
    have hidx : s₁.idx = before.flatten.length := by
      rw [← hgood₁.contents_length, hcontents₁, ShStrTab.initValue_contents, List.nil_append]
    rw [← List.length_flatten, ← hidx] at hone
    obtain ⟨s₂, hs₂⟩ := shstrtabAdd_isSome hgood₁ hone
    have hgood₂ := (shstrtabAdd_eq_some hgood₁ hs₂).1
    refine ⟨s₁, s₂, hs₁, hs₂, hgood₁.le_size, hgood₂.le_size, ?_⟩
    rw [hcontents, hidx, List.flatten_append, List.flatten_cons, List.drop_left, List.take_left]

theorem not_shstrtabAdds : ¬ ShstrtabAdds [List.replicate 33 0x61] := by
  rw [ShstrtabAdds, show shstrtabAddAll .initValue [List.replicate 33 0x61] = none from rfl]
  rintro ⟨s', h, -⟩
  cases h

end Asasm
