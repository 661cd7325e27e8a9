import Mathlib.Data.List.Basic

/-!
# Tables of NUL-terminated strings

A string table is a sequence of bytes in which a reference is the offset of the first byte of a
NUL-terminated string (ELF `.strtab`/`.shstrtab` contents, the AOF `OBJ_STRT` chunk, the `argv`
area of a process). This file fixes what it means for a name to stand at an offset:

* `IsNameAt tab off name`: the table has `name` followed by a NUL at `off`;
* `readName tab off`: what a reader of the table finds there, the bytes up to the first NUL;
* `layout names`: the table that holds the given names one after the other, and
  `nameOffsets start names` the offsets they then have.

`IsNameAt` is monotone in the table (`IsNameAt.append`, `IsNameAt.prepend`) and fixes what is read
(`IsNameAt.readName_eq`); `isNameAt_layout` finds every name of a layout at its offset.
-/

namespace StringTable

/-- **A name at an offset.** The bytes of `name` followed by a NUL start at offset `off` of the
table. -/
def IsNameAt (tab : List UInt8) (off : Nat) (name : List UInt8) : Prop :=
  ∃ pre post, tab = pre ++ (name ++ 0 :: post) ∧ pre.length = off

/-- What a reader of the table finds at offset `off`: the bytes up to the first NUL, nothing when
no NUL follows. -/
def readName (tab : List UInt8) (off : Nat) : Option (List UInt8) :=
  if 0 ∈ tab.drop off then some ((tab.drop off).takeWhile (· ≠ 0)) else none

variable {tab name : List UInt8} {off : Nat}

theorem IsNameAt.append (h : IsNameAt tab off name) (ext : List UInt8) :
    IsNameAt (tab ++ ext) off name := by
  obtain ⟨pre, post, htab, hoff⟩ := h
  refine ⟨pre, post ++ ext, ?_, hoff⟩
  rw [htab]
  simp only [List.append_assoc, List.cons_append]

theorem IsNameAt.prepend (h : IsNameAt tab off name) (front : List UInt8) :
    IsNameAt (front ++ tab) (front.length + off) name := by
  obtain ⟨pre, post, htab, hoff⟩ := h
  refine ⟨front ++ pre, post, ?_, ?_⟩
  · rw [htab, List.append_assoc]
  · rw [List.length_append, hoff]

theorem IsNameAt.of_prepend {front : List UInt8} (h : IsNameAt (front ++ tab) off name) (hoff : front.length ≤ off) :
    IsNameAt tab (off - front.length) name := by
  obtain ⟨pre, post, htab, hpre⟩ := h
  refine ⟨pre.drop front.length, post, ?_, by rw [List.length_drop, hpre]⟩
  have hdrop := congrArg (List.drop front.length) htab
  rwa [List.drop_left, List.drop_append_of_le_length (by omega)] at hdrop

theorem IsNameAt.offset_le (h : IsNameAt tab off name) : off ≤ tab.length := by
  obtain ⟨pre, post, htab, hoff⟩ := h
  rw [htab, List.length_append, hoff]
  exact Nat.le_add_right _ _

private theorem takeWhile_ne_zero_append (hname : 0 ∉ name) (post : List UInt8) :
    (name ++ 0 :: post).takeWhile (· ≠ 0) = name := by
  induction name with
  | nil => simp
  | cons b name ih =>
    obtain ⟨hb, hrest⟩ := not_or.mp (mt List.mem_cons.mpr hname)
    simp only [List.cons_append]
    rw [List.takeWhile_cons_of_pos (by simpa using Ne.symm hb), ih hrest]

/-- **Reading finds the name.** Where a NUL-free name stands, a reader of the table finds exactly
that name. -/
theorem IsNameAt.readName_eq (h : IsNameAt tab off name) (hname : 0 ∉ name) :
    readName tab off = some name := by
  obtain ⟨pre, post, htab, hoff⟩ := h
  have hdrop : tab.drop off = name ++ 0 :: post := by
    rw [htab, ← hoff, List.drop_left]
  unfold readName
  rw [hdrop, takeWhile_ne_zero_append hname, if_pos]
  exact List.mem_append_right _ List.mem_cons_self

/-! ### Names laid out one after the other -/

def layout (names : List (List UInt8)) : List UInt8 := names.flatMap fun name => name ++ [0]

/-- The offsets of names laid out from offset `start` on. -/
def nameOffsets : Nat → List (List UInt8) → List Nat
  | _, [] => []
  | start, name :: names => start :: nameOffsets (start + name.length + 1) names

theorem layout_cons (names : List (List UInt8)) :
    layout (name :: names) = (name ++ [0]) ++ layout names := rfl

theorem layout_append (xs ys : List (List UInt8)) : layout (xs ++ ys) = layout xs ++ layout ys :=
  List.flatMap_append

theorem length_le_layout_length (names : List (List UInt8)) :
    names.length ≤ (layout names).length := by
  induction names with
  | nil => exact Nat.zero_le _
  | cons name names ih =>
    simp only [layout_cons, List.length_append, List.length_cons, List.length_nil]
    omega

@[simp] theorem nameOffsets_length (start : Nat) (names : List (List UInt8)) :
    (nameOffsets start names).length = names.length := by
  induction names generalizing start with
  | nil => rfl
  | cons name names ih => simp only [nameOffsets, List.length_cons, ih]

private theorem nameOffsets_ge {start n : Nat} {names : List (List UInt8)}
    (h : n ∈ nameOffsets start names) : start ≤ n := by
  induction names generalizing start with
  | nil => simp [nameOffsets] at h
  | cons name names ih =>
    rcases List.mem_cons.mp h with rfl | h
    · exact Nat.le_refl _
    · have := ih h
      omega

theorem nameOffsets_append (start : Nat) (xs ys : List (List UInt8)) :
    nameOffsets start (xs ++ ys)
      = nameOffsets start xs ++ nameOffsets (start + (layout xs).length) ys := by
  induction xs generalizing start with
  | nil => rfl
  | cons x xs ih =>
    have hlen : start + x.length + 1 + (layout xs).length
        = start + (layout (x :: xs)).length := by
      simp only [layout_cons, List.length_append, List.length_singleton]
      omega
    simp only [List.cons_append, nameOffsets, ih, hlen]

/-- **A layout holds its names.** The `i`-th name stands at the `i`-th offset. -/
theorem isNameAt_layout {names : List (List UInt8)} {i : Nat} {start : Nat}
    (hoff : (nameOffsets start names)[i]? = some (start + off)) (hname : names[i]? = some name) :
    IsNameAt (layout names) off name := by
  induction names generalizing i start off with
  | nil => simp at hname
  | cons x names ih =>
    rw [layout_cons]
    cases i with
    | zero =>
      simp only [nameOffsets, List.getElem?_cons_zero, Option.some.injEq] at hoff hname
      obtain rfl : off = 0 := by omega
      subst hname
      exact ⟨[], layout names, by simp, rfl⟩
    | succ i =>
      simp only [nameOffsets, List.getElem?_cons_succ] at hoff hname
      -- the rest of the layout starts after `x` and its terminator
      have hle : x.length + 1 ≤ off := by
        have := nameOffsets_ge (List.mem_of_getElem? hoff)
        omega
      have hoff' : start + off = start + x.length + 1 + (off - (x.length + 1)) := by omega
      have := (ih (hoff' ▸ hoff) hname).prepend (x ++ [0])
      rwa [List.length_append, List.length_singleton, Nat.add_sub_cancel' hle] at this

end StringTable
