import Gccsdk.UnixLib.CanonicalPath
import Mathlib.Data.List.DropRight

/-!
# Unix paths as RISC OS paths

`translate_or_null` of `riscosify.c` writes what is left of a Unix path in the form of RISC OS: the characters
change places by `__filename_char_map`, `.` becomes the separator, and `..` becomes `^`. Dots are told apart by
the characters around them, two ahead and one behind.

`translateOrNull_eq`: the path becomes what its components say (`mapped`), and `foo/..` becomes `@`, for the paths
that `TellsDots` describes, where a look around is enough. What the buffer has no room for is refused, and more
room changes nothing (`translateOrNull_mono`).

No suffix is swapped here: the list of suffixes is empty, and `__sfixfind` finds nothing. The type of the file,
which goes to the caller by `filetype`, is not modelled.
-/

namespace UnixLib

open PathName

/-- The characters `@` -/
abbrev AT : UInt8 := 0x40
/-- `^` -/
abbrev CARET : UInt8 := 0x5E
/-- and the comma. -/
abbrev COMMA : UInt8 := 0x2C

/-- The first half of `__filename_char_map`. -/
def filenameCharTable : List UInt8 := [
  0x00, 0x5F, 0x5F, 0x5F, 0x5F, 0x5F, 0x5F, 0x5F,
  0x5F, 0x5F, 0x5F, 0x5F, 0x5F, 0x5F, 0x5F, 0x5F,
  0x5F, 0x5F, 0x5F, 0x5F, 0x5F, 0x5F, 0x5F, 0x5F,
  0x5F, 0x5F, 0x5F, 0x5F, 0x5F, 0x5F, 0x5F, 0x5F,
  0xA0, 0x21, 0x5F, 0x3F, 0x5F, 0x5F, 0x5F, 0x27,
  0x28, 0x29, 0x2A, 0x2B, 0x2C, 0x2D, 0x2F, 0x2E,
  0x30, 0x31, 0x32, 0x33, 0x34, 0x35, 0x36, 0x37,
  0x38, 0x39, 0x5F, 0x3B, 0x3C, 0x3D, 0x3E, 0x23,
  0x5F, 0x41, 0x42, 0x43, 0x44, 0x45, 0x46, 0x47,
  0x48, 0x49, 0x4A, 0x4B, 0x4C, 0x4D, 0x4E, 0x4F,
  0x50, 0x51, 0x52, 0x53, 0x54, 0x55, 0x56, 0x57,
  0x58, 0x59, 0x5A, 0x5B, 0x5F, 0x5D, 0x5F, 0x5F,
  0x60, 0x61, 0x62, 0x63, 0x64, 0x65, 0x66, 0x67,
  0x68, 0x69, 0x6A, 0x6B, 0x6C, 0x6D, 0x6E, 0x6F,
  0x70, 0x71, 0x72, 0x73, 0x74, 0x75, 0x76, 0x77,
  0x78, 0x79, 0x7A, 0x7B, 0x5F, 0x7D, 0x7E, 0x5F]

/-- `__filename_char_map`; the characters of the other half are their own images. -/
def filenameCharMap (c : UInt8) : UInt8 := filenameCharTable.getD c.toNat c

/-- `isxdigit` in the C locale. -/
def isxdigit (c : UInt8) : Bool := isdigit c || (0x41 ≤ c && c ≤ 0x46) || (0x61 ≤ c && c ≤ 0x66)

/-! ### `translate_or_null` -/

/-- The output, from the start of the buffer on, and the pointers; those to the input are offsets from `start`. -/
structure Trans where
  out : Text
  last_slash : ℕ
  previous_slash : Option ℕ
  last_out_slash : ℕ
  deriving DecidableEq

namespace Trans

def put (s : Trans) (buf_end : ℕ) (t : Text) : Option Trans :=
  if (s.out ++ t).length ≤ buf_end then some { s with out := s.out ++ t } else none

/-- `last_out_slash = out` -/
def markOut (s : Trans) : Trans := { s with last_out_slash := s.out.length }

/-- `last_slash = in` -/
def markIn (s : Trans) (pos : ℕ) : Trans := { s with last_slash := pos }

/-- The output at a slash: the separator, unless there is one, or nothing has been written. -/
def separate (s : Trans) : Trans :=
  if s.out ≠ [] ∧ s.out.getLast? ≠ some DOT then { s with out := s.out ++ [DOT] } else s

end Trans

/-- The place in the input: its offset, `in[-1]`, and what is left. -/
structure InPlace where
  pos : ℕ
  before : UInt8
  rest : Text

/-- One turn of the loop, at the character `c`. -/
def transTurn (buf_end : ℕ) (path : Bool) (pos : ℕ) (before : UInt8) (c : UInt8) (rest : Text) (s : Trans) :
    Option (InPlace × Trans) :=
  if c = DOT then
    if rest.head? = some SLASH then
      if pos = 0 ∧ path = false then
        (s.put buf_end [AT, DOT]).map fun s => (⟨pos + 2, SLASH, rest.drop 1⟩, (s.markOut).markIn (pos + 2))
      else if before = SLASH then some (⟨pos + 2, SLASH, rest.drop 1⟩, s.markIn (pos + 2))
      else some (⟨pos + 1, c, rest⟩, { s with out := s.out ++ [SLASH] })
    else if pos > 0 ∧ before = SLASH ∧ rest = [] then some (⟨pos + 1, c, rest⟩, s)
    else if rest.head? = some DOT ∧ rest[1]? = some SLASH then
      ((s.markIn (pos + 3)).put buf_end [CARET, DOT]).map fun s => (⟨pos + 3, SLASH, rest.drop 2⟩, s.markOut)
    else if pos > 0 ∧ before = SLASH ∧ rest.head? = some DOT ∧ rest[1]? = none then
      if s.previous_slash = some 0 then some (⟨pos + 2, DOT, rest.drop 1⟩, { s with out := [AT] })
      else (s.put buf_end [CARET]).map fun s => (⟨pos + 2, DOT, rest.drop 1⟩, s)
    else (s.put buf_end [SLASH]).map fun s => (⟨pos + 1, c, rest⟩, s)
  else if c = SLASH then
    let next := pos + 1 + (rest.takeWhile (· = SLASH)).length
    let s := { s.separate with previous_slash := some s.last_slash, last_slash := next }.markOut
    if s.out.length ≤ buf_end then some (⟨next, SLASH, rest.dropWhile (· = SLASH)⟩, s) else none
  else (s.put buf_end [filenameCharMap c]).map fun s => (⟨pos + 1, c, rest⟩, s)

def transLoop (buf_end : ℕ) (path : Bool) : ℕ → ℕ → UInt8 → Text → Trans → Option Trans
  | _, _, _, [], s => some s
  | 0, _, _, _ :: _, _ => none
  | turns + 1, pos, before, c :: rest, s =>
    (transTurn buf_end path pos before c rest s).bind fun (i, s) =>
      transLoop buf_end path turns i.pos i.before i.rest s

def stripDots : Text → Text
  | [] => []
  | c :: t => c :: t.rdropWhile (· = DOT)

def endsInType (t : Text) : Bool :=
  match t.reverse with
  | x :: y :: z :: comma :: _ => comma = COMMA && isxdigit x && isxdigit y && isxdigit z
  | _ => false

def removeType (ext : Bool) (last_out_slash : ℕ) (out : Text) : Text :=
  if out.length > last_out_slash + 4 ∧ endsInType out = true ∧ ext = true then out.dropLast.dropLast.dropLast.dropLast
  else out

/-- `translate_or_null`, with `out` the output that is there already, `before` the character in front of the
input, and `ext` the flag `__RISCOSIFY_FILETYPE_EXT`; `none` is for NULL. -/
def translateOrNull (ext : Bool) (buf_end : ℕ) (out : Text) (before : UInt8) (in_ : Text) (path : Bool) :
    Option Text :=
  if out.length ≤ buf_end then
    (transLoop buf_end path in_.length 0 before in_ ⟨out, 0, none, out.length⟩).bind fun s =>
      let out := stripDots s.out
      if out = [] ∧ path = false then
        if out.length + 1 ≤ buf_end then some (removeType ext s.last_out_slash [AT]) else none
      else some (removeType ext s.last_out_slash out)
  else none

/-! ### What is to become of a path -/

def image (c : Text) : Option Text :=
  if c = [] ∨ c = CURDIR then none else if c = UPDIR then some [CARET] else some (c.map filenameCharMap)

/-- The path starts with `./`. -/
def startsInCur : List Text → Bool
  | c :: _ :: _ => c = CURDIR
  | _ => false

def images (path : Bool) (cs : List Text) : List Text :=
  (if startsInCur cs ∧ path = false then [[AT]] else []) ++ cs.filterMap image

/-- A slash is read before anything but `./`. -/
def startsInSlash : List Text → Bool
  | c :: d :: cs => c = [] || c = CURDIR && startsInSlash (d :: cs)
  | _ => false

/-- There is a separator between what has been written and a path that starts with a slash. -/
def separated (out : Text) (cs : List Text) : Text :=
  if startsInSlash cs = true ∧ out ≠ [] ∧ out.getLast? ≠ some DOT then out ++ [DOT] else out

/-- **What a path becomes**, behind the output that is there already. -/
def mapped (path : Bool) (out : Text) (cs : List Text) : Text :=
  if images path cs = [] then if path then stripDots out else [AT]
  else separated out cs ++ join DOT (images path cs)

/-- Behind a name and its slash: what follows is `.` and `..` up to a `..` at the end, with no other slash that is
read. -/
def homeFrom : Bool → List Text → Bool
  | _, [] => false
  | _, [c] => c = UPDIR
  | dot, c :: cs =>
    if c = CURDIR ∨ c = UPDIR then homeFrom true cs else if c = [] ∧ dot = false then homeFrom false cs else false

/-- **A path of the form `foo/..`**: the slash before the last one that is read is none. -/
def goesHome : List Text → Bool
  | [] => false
  | c :: cs => c ≠ CURDIR && c ≠ UPDIR && homeFrom false cs

/-- **The dots can be told apart** by the characters around them. -/
structure TellsDots (path : Bool) (before : UInt8) (cs : List Text) : Prop where
  /-- No name in front of a slash ends in `..`. -/
  ends : ∀ c ∈ cs.dropLast, c = UPDIR ∨ ¬UPDIR <:+ c
  /-- There is more than a `.` or a `..`. -/
  alone : cs ≠ [CURDIR] ∧ cs ≠ [UPDIR]
  /-- `./` at the start is behind a slash, where a path variable stands in front. -/
  cur : path = true → startsInCur cs = true → before = SLASH
  /-- A path of the form `foo/..` has a name, and no other `..`, and no path variable stands in front. -/
  home : goesHome cs = true → path = false ∧ cs.head? ≠ some [] ∧ UPDIR ∉ cs.dropLast

/-! ### The turns of the loop -/

section Turns

variable {buf_end turns pos : ℕ} {path : Bool} {before b c : UInt8} {rest tail w t : Text} {s : Trans}

theorem Trans.put_eq (hfits : (s.out ++ t).length ≤ buf_end) : s.put buf_end t = some { s with out := s.out ++ t } :=
  if_pos hfits

theorem transLoop_cons :
    transLoop buf_end path (turns + 1) pos before (c :: rest) s =
      (transTurn buf_end path pos before c rest s).bind fun r =>
        transLoop buf_end path turns r.1.pos r.1.before r.1.rest r.2 := rfl

theorem transLoop_nil : transLoop buf_end path turns pos before [] s = some s := by
  cases turns <;> rfl

theorem transTurn_char (hdot : c ≠ DOT) (hslash : c ≠ SLASH) (hfits : s.out.length + 1 ≤ buf_end) :
    transTurn buf_end path pos before c rest s =
      some (⟨pos + 1, c, rest⟩, { s with out := s.out ++ [filenameCharMap c] }) := by
  rw [transTurn, if_neg hdot, if_neg hslash, Trans.put_eq (by rw [List.length_append]; exact hfits)]
  rfl

theorem head?_append_ne_slash (hne : w ≠ []) (hw : SLASH ∉ w) : (w ++ tail).head? ≠ some SLASH := by
  cases w with
  | nil => exact absurd rfl hne
  | cons c w =>
    intro heq
    exact hw (Option.some.inj heq ▸ List.mem_cons_self)

theorem eq_dot_of_append {w : Text} (hne : w ≠ []) (hw : SLASH ∉ w) (hhead : (w ++ tail).head? = some DOT)
    (hnext : (w ++ tail)[1]? = some SLASH ∨ (w ++ tail)[1]? = none) : w = [DOT] := by
  cases w with
  | nil => exact absurd rfl hne
  | cons c w =>
    obtain rfl : c = DOT := Option.some.inj hhead
    cases w with
    | nil => rfl
    | cons d w =>
      rcases hnext with hnext | hnext
      · exact absurd (Option.some.inj hnext ▸ List.mem_cons_of_mem DOT List.mem_cons_self) hw
      · cases hnext

theorem transTurn_name (hname : IsName CURDIR UPDIR (c :: w)) (hw : SLASH ∉ c :: w)
    (hfits : s.out.length + 1 ≤ buf_end) :
    transTurn buf_end path pos before c (w ++ tail) s =
      some (⟨pos + 1, c, w ++ tail⟩, { s with out := s.out ++ [filenameCharMap c] }) := by
  rw [List.mem_cons, not_or] at hw
  by_cases hdot : c = DOT
  · subst hdot
    have hne : w ≠ [] := fun heq => hname.2.1 (heq ▸ rfl)
    have hends : ¬((w ++ tail).head? = some DOT ∧
        ((w ++ tail)[1]? = some SLASH ∨ (w ++ tail)[1]? = none)) := by
      rintro ⟨hhead, hnext⟩
      exact hname.2.2 (eq_dot_of_append hne hw.2 hhead hnext ▸ rfl)
    rw [transTurn, if_pos rfl, if_neg (head?_append_ne_slash hne hw.2), if_neg, if_neg, if_neg,
      Trans.put_eq (by rw [List.length_append]; exact hfits)]
    · rfl
    · rintro ⟨-, -, hhead, hnext⟩
      exact hends ⟨hhead, Or.inr hnext⟩
    · rintro ⟨hhead, hnext⟩
      exact hends ⟨hhead, Or.inl hnext⟩
    · rintro ⟨-, -, hnil⟩
      exact hne (List.append_eq_nil_iff.mp hnil).1
  · exact transTurn_char hdot (Ne.symm hw.1) hfits

theorem transTurn_inside (hb : before ≠ SLASH) (hpos : 0 < pos) (hw : SLASH ∉ c :: w) (htail : IsTail tail)
    (hends : tail ≠ [] → ¬UPDIR <:+ c :: w) (hfits : s.out.length + 1 ≤ buf_end) :
    transTurn buf_end path pos before c (w ++ tail) s =
      some (⟨pos + 1, c, w ++ tail⟩, { s with out := s.out ++ [filenameCharMap c] }) := by
  rw [List.mem_cons, not_or] at hw
  by_cases hdot : c = DOT
  · subst hdot
    by_cases hslash : (w ++ tail).head? = some SLASH
    · rw [transTurn, if_pos rfl, if_pos hslash, if_neg (fun hstart => Nat.ne_of_gt hpos hstart.1), if_neg hb]
      rfl
    · rw [transTurn, if_pos rfl, if_neg hslash, if_neg (fun hcur => hb hcur.2.1), if_neg,
        if_neg (fun hup => hb hup.2.1), Trans.put_eq (by rw [List.length_append]; exact hfits)]
      · rfl
      · rintro ⟨hhead, hnext⟩
        have hne : w ≠ [] := by
          rintro rfl
          rcases htail with rfl | ⟨t, rfl⟩
          · cases hhead
          · exact hslash rfl
        have hone := eq_dot_of_append hne hw.2 hhead (Or.inl hnext)
        have htail' : tail ≠ [] := by
          rintro rfl
          rw [hone] at hnext
          cases hnext
        rw [hone] at hends
        exact hends htail' (List.suffix_refl _)
  · exact transTurn_char hdot (Ne.symm hw.1) hfits

theorem transLoop_copy (hw : SLASH ∉ w) (htail : IsTail tail) (hends : tail ≠ [] → ¬UPDIR <:+ w) (hb : b ≠ SLASH)
    (hpos : 0 < pos) (hfits : s.out.length + w.length ≤ buf_end) :
    ∃ b', transLoop buf_end path (w.length + turns) pos b (w ++ tail) s =
      transLoop buf_end path turns (pos + w.length) b' tail { s with out := s.out ++ w.map filenameCharMap } := by
  induction w generalizing b pos s with
  | nil =>
    refine ⟨b, ?_⟩
    rw [List.length_nil, Nat.zero_add, List.map_nil, List.append_nil]
    rfl
  | cons c w ih =>
    have hw' := hw
    rw [List.mem_cons, not_or] at hw'
    rw [List.length_cons] at hfits
    have hends' : tail ≠ [] → ¬UPDIR <:+ w := fun htail hup => hends htail (hup.trans (List.suffix_cons c w))
    have hfits' : (s.out ++ [filenameCharMap c]).length + w.length ≤ buf_end := by
      rw [List.length_append, List.length_singleton]
      omega
    obtain ⟨b', heq⟩ := ih (s := { s with out := s.out ++ [filenameCharMap c] }) hw'.2 hends' (Ne.symm hw'.1)
      (Nat.succ_pos pos) hfits'
    refine ⟨b', ?_⟩
    rw [List.length_cons, Nat.add_right_comm, List.cons_append, transLoop_cons,
      transTurn_inside hb hpos hw htail hends (by omega)]
    refine heq.trans ?_
    have hnext : pos.succ + w.length = pos + (w.length + 1) := by omega
    rw [List.map_cons, List.append_assoc, List.singleton_append, hnext]

theorem transLoop_name (hname : IsName CURDIR UPDIR w) (hw : SLASH ∉ w) (htail : IsTail tail)
    (hends : tail ≠ [] → ¬UPDIR <:+ w) (hfits : s.out.length + w.length ≤ buf_end) :
    ∃ b', transLoop buf_end path (w.length + turns) pos before (w ++ tail) s =
      transLoop buf_end path turns (pos + w.length) b' tail { s with out := s.out ++ w.map filenameCharMap } := by
  cases w with
  | nil => exact absurd rfl hname.1
  | cons c w =>
    have hw' := hw
    rw [List.mem_cons, not_or] at hw'
    rw [List.length_cons] at hfits
    have hends' : tail ≠ [] → ¬UPDIR <:+ w := fun htail hup => hends htail (hup.trans (List.suffix_cons c w))
    have hfits' : (s.out ++ [filenameCharMap c]).length + w.length ≤ buf_end := by
      rw [List.length_append, List.length_singleton]
      omega
    obtain ⟨b', heq⟩ := transLoop_copy (s := { s with out := s.out ++ [filenameCharMap c] }) hw'.2 htail hends'
      (Ne.symm hw'.1) (Nat.succ_pos pos) hfits'
    refine ⟨b', ?_⟩
    rw [List.length_cons, Nat.add_right_comm, List.cons_append, transLoop_cons,
      transTurn_name hname hw (by omega)]
    refine heq.trans ?_
    have hnext : pos.succ + w.length = pos + (w.length + 1) := by omega
    rw [List.map_cons, List.append_assoc, List.singleton_append, hnext]

theorem transLoop_slash (hfits : s.separate.out.length ≤ buf_end) :
    ∃ next, 0 < next ∧ transLoop buf_end path (turns + 1) pos before (SLASH :: t) s =
      transLoop buf_end path turns next SLASH (t.dropWhile (· = SLASH))
        ⟨s.separate.out, next, some s.last_slash, s.separate.out.length⟩ := by
  refine ⟨pos + 1 + (t.takeWhile (· = SLASH)).length, by omega, ?_⟩
  rw [transLoop_cons, transTurn, if_neg (by decide), if_pos rfl]
  dsimp only [Trans.markOut]
  rw [if_pos hfits]
  rfl

/-- **`../`** -/
theorem transLoop_up (hfits : s.out.length + 2 ≤ buf_end) :
    transLoop buf_end path (turns + 1) pos before (UPDIR ++ SLASH :: t) s =
      transLoop buf_end path turns (pos + 3) SLASH t
        ⟨s.out ++ [CARET, DOT], pos + 3, s.previous_slash, (s.out ++ [CARET, DOT]).length⟩ := by
  change transLoop buf_end path (turns + 1) pos before (DOT :: DOT :: SLASH :: t) s = _
  have hdot : (DOT :: SLASH :: t).head? ≠ some SLASH := fun heq => absurd (Option.some.inj heq) (by decide)
  rw [transLoop_cons, transTurn, if_pos rfl, if_neg hdot, if_neg (fun hcur => nomatch hcur.2.2), if_pos ⟨rfl, rfl⟩,
    Trans.put_eq (by rw [List.length_append]; exact hfits)]
  rfl

theorem transLoop_up_end (hpos : 0 < pos) (hfits : s.out.length + 1 ≤ buf_end) :
    transLoop buf_end path (turns + 1) pos SLASH UPDIR s =
      some { s with out := if s.previous_slash = some 0 then [AT] else s.out ++ [CARET] } := by
  change transLoop buf_end path (turns + 1) pos SLASH (DOT :: [DOT]) s = _
  have hdot : [DOT].head? ≠ some SLASH := by decide
  rw [transLoop_cons, transTurn, if_pos rfl, if_neg hdot, if_neg (fun hcur => nomatch hcur.2.2),
    if_neg (fun hup => nomatch hup.2), if_pos ⟨hpos, rfl, rfl, rfl⟩]
  split
  · cases turns <;> rfl
  · rw [Trans.put_eq (by rw [List.length_append]; exact hfits)]
    cases turns <;> rfl

/-- `./` behind a slash, -/
theorem transLoop_cur (hpos : pos = 0 → path = true) :
    transLoop buf_end path (turns + 1) pos SLASH (CURDIR ++ SLASH :: t) s =
      transLoop buf_end path turns (pos + 2) SLASH t (s.markIn (pos + 2)) := by
  change transLoop buf_end path (turns + 1) pos SLASH (DOT :: SLASH :: t) s = _
  rw [transLoop_cons, transTurn, if_pos rfl, if_pos (show (SLASH :: t).head? = some SLASH from rfl), if_neg,
    if_pos rfl]
  · rfl
  · rintro ⟨hzero, hfalse⟩
    rw [hpos hzero] at hfalse
    cases hfalse

/-- and at the start, -/
theorem transLoop_cur_start (hfits : s.out.length + 2 ≤ buf_end) :
    transLoop buf_end false (turns + 1) 0 before (CURDIR ++ SLASH :: t) s =
      transLoop buf_end false turns 2 SLASH t
        ⟨s.out ++ [AT, DOT], 2, s.previous_slash, (s.out ++ [AT, DOT]).length⟩ := by
  change transLoop buf_end false (turns + 1) 0 before (DOT :: SLASH :: t) s = _
  rw [transLoop_cons, transTurn, if_pos rfl, if_pos (show (SLASH :: t).head? = some SLASH from rfl),
    if_pos ⟨rfl, rfl⟩, Trans.put_eq (by rw [List.length_append]; exact hfits)]
  rfl

/-- and `.` at the end. -/
theorem transLoop_cur_end (hpos : 0 < pos) :
    transLoop buf_end path (turns + 1) pos SLASH CURDIR s = some s := by
  change transLoop buf_end path (turns + 1) pos SLASH [DOT] s = _
  rw [transLoop_cons, transTurn, if_pos rfl, if_neg (fun heq => nomatch heq), if_pos ⟨hpos, rfl, rfl⟩]
  cases turns <;> rfl

end Turns

/-! ### The components in a row -/

section Components

variable {buf_end turns pos : ℕ} {path dot : Bool} {before : UInt8} {w c₁ o t : Text} {cs : List Text} {s s' : Trans}

theorem filenameCharMap_image (c : UInt8) :
    (c ≠ SLASH → filenameCharMap c ≠ DOT) ∧ (filenameCharMap c = COMMA → c = COMMA) ∧
      (isxdigit (filenameCharMap c) = true → isxdigit c = true) := by
  have hall : ∀ n, n < 256 → (UInt8.ofNat n ≠ SLASH → filenameCharMap (UInt8.ofNat n) ≠ DOT) ∧
      (filenameCharMap (UInt8.ofNat n) = COMMA → UInt8.ofNat n = COMMA) ∧
        (isxdigit (filenameCharMap (UInt8.ofNat n)) = true → isxdigit (UInt8.ofNat n) = true) := by
    decide +kernel
  have hone := hall c.toNat c.toNat_lt
  rwa [UInt8.ofNat_toNat] at hone

theorem getLast?_map_ne_dot (hne : w ≠ []) (hw : SLASH ∉ w) (o : Text) :
    (o ++ w.map filenameCharMap).getLast? ≠ some DOT := by
  intro heq
  have hmem : DOT ∈ w.map filenameCharMap := by
    rw [List.getLast?_append_of_ne_nil _ (fun hnil => hne (List.map_eq_nil_iff.mp hnil))] at heq
    exact List.mem_of_getLast? heq
  obtain ⟨c, hc, hdot⟩ := List.mem_map.mp hmem
  exact (filenameCharMap_image c).1 (fun hslash => hw (hslash ▸ hc)) hdot

/-- What the components leave in the output, each with the separator behind it, but for the last one. -/
def pieces : List Text → Text
  | [] => []
  | [c] => (image c).getD []
  | c :: cs => (image c).elim [] (· ++ [DOT]) ++ pieces cs

structure BehindSlash (s : Trans) : Prop where
  out : s.out = [] ∨ s.out.getLast? = some DOT
  last : 0 < s.last_slash
  mark : s.last_out_slash = s.out.length

/-- At the end of the path: what stands behind the last separator is the last name, or a character at most. -/
def AtEnd (s : Trans) (cs : List Text) : Prop :=
  s.out.length ≤ s.last_out_slash + 1 ∨
    ∃ o w, cs.getLast? = some w ∧ w ≠ [] ∧ SLASH ∉ w ∧ s.out = o ++ w.map filenameCharMap ∧
      s.last_out_slash = o.length

theorem BehindSlash.separate (h : BehindSlash s) : s.separate = s := by
  refine if_neg ?_
  rintro ⟨hne, hlast⟩
  rcases h.out with hnil | hdot
  · exact hne hnil
  · exact hlast hdot

theorem separate_name (hne : w ≠ []) (hw : SLASH ∉ w) :
    Trans.separate { s with out := s.out ++ w.map filenameCharMap } =
      { s with out := s.out ++ w.map filenameCharMap ++ [DOT] } := by
  refine if_pos ⟨?_, getLast?_map_ne_dot hne hw s.out⟩
  intro hnil
  exact hne (List.map_eq_nil_iff.mp (List.append_eq_nil_iff.mp hnil).2)

theorem image_nil : image [] = none := rfl

theorem image_cur : image CURDIR = none := rfl

theorem image_name (hw : IsName CURDIR UPDIR w) : image w = some (w.map filenameCharMap) := by
  rw [image, if_neg (not_or.mpr ⟨hw.1, hw.2.1⟩), if_neg hw.2.2]

theorem behindSlash_dot (o : Text) (n : ℕ) (hn : 0 < n) (p : Option ℕ) :
    BehindSlash ⟨o ++ [DOT], n, p, (o ++ [DOT]).length⟩ := ⟨Or.inr List.getLast?_concat, hn, rfl⟩

theorem transLoop_name_slash (hname : IsName CURDIR UPDIR w) (hw : SLASH ∉ w) (hends : ¬UPDIR <:+ w)
    (hfits : s.out.length + w.length + 1 ≤ buf_end) :
    ∃ next, 0 < next ∧ transLoop buf_end path (w.length + (turns + 1)) pos before (w ++ SLASH :: t) s =
      transLoop buf_end path turns next SLASH (t.dropWhile (· = SLASH))
        ⟨s.out ++ w.map filenameCharMap ++ [DOT], next, some s.last_slash,
          (s.out ++ w.map filenameCharMap ++ [DOT]).length⟩ := by
  obtain ⟨b, heq⟩ : ∃ b, transLoop buf_end path (w.length + (turns + 1)) pos before (w ++ SLASH :: t) s =
      transLoop buf_end path (turns + 1) (pos + w.length) b (SLASH :: t)
        { s with out := s.out ++ w.map filenameCharMap } :=
    transLoop_name hname hw (Or.inr ⟨t, rfl⟩) (fun _ => hends) (by omega)
  have hsep := separate_name (s := s) hname.1 hw
  have hroom : (Trans.separate { s with out := s.out ++ w.map filenameCharMap }).out.length ≤ buf_end := by
    rw [hsep, List.length_append, List.length_append, List.length_map]
    exact hfits
  obtain ⟨next, hnext, hslash⟩ : ∃ next, 0 < next ∧ transLoop buf_end path (turns + 1) (pos + w.length) b
      (SLASH :: t) { s with out := s.out ++ w.map filenameCharMap } = transLoop buf_end path turns next SLASH
        (t.dropWhile (· = SLASH)) ⟨_, next, some s.last_slash, _⟩ :=
    transLoop_slash hroom
  refine ⟨next, hnext, heq.trans (hslash.trans ?_)⟩
  rw [hsep]

theorem transLoop_last (hmark : s.last_out_slash = s.out.length) (hpos : 0 < pos) (hw : SLASH ∉ w)
    (hturns : w.length ≤ turns) (hfits : s.out.length + w.length ≤ buf_end) :
    ∃ s', transLoop buf_end path turns pos SLASH w s = some s' ∧
      s'.out = (if s.previous_slash = some 0 ∧ homeFrom dot [w] = true then [AT] else s.out ++ pieces [w]) ∧
      AtEnd s' [w] := by
  have hnot : w ≠ UPDIR → ¬(s.previous_slash = some 0 ∧ homeFrom dot [w] = true) := by
    rintro hup ⟨-, hhome⟩
    rw [homeFrom, decide_eq_true_iff] at hhome
    exact hup hhome
  have hstays : AtEnd s [w] := Or.inl (by rw [hmark]; omega)
  by_cases hempty : w = []
  · subst hempty
    refine ⟨s, transLoop_nil, ?_, hstays⟩
    rw [if_neg (hnot nofun)]
    exact (List.append_nil _).symm
  have hlength : 0 < w.length := List.length_pos_of_ne_nil hempty
  obtain ⟨turns', rfl⟩ : ∃ n, turns = n + 1 := ⟨turns - 1, by omega⟩
  by_cases hcur : w = CURDIR
  · subst hcur
    refine ⟨s, transLoop_cur_end hpos, ?_, hstays⟩
    rw [if_neg (hnot (by decide))]
    exact (List.append_nil _).symm
  by_cases hup : w = UPDIR
  · subst hup
    refine ⟨_, transLoop_up_end hpos (by omega), ?_, Or.inl ?_⟩
    · have hhome : homeFrom dot [UPDIR] = true := by cases dot <;> rfl
      rw [hhome]
      dsimp only
      by_cases hzero : s.previous_slash = some 0
      · rw [if_pos hzero, if_pos ⟨hzero, rfl⟩]
      · rw [if_neg hzero, if_neg (fun hboth => hzero hboth.1)]
        rfl
    · dsimp only
      rw [hmark]
      split
      · change 1 ≤ _
        omega
      · rw [List.length_append]
        rfl
  · have hname : IsName CURDIR UPDIR w := ⟨hempty, hcur, hup⟩
    obtain ⟨n, hn⟩ : ∃ n, turns' + 1 = w.length + n := ⟨turns' + 1 - w.length, by omega⟩
    rw [hn]
    obtain ⟨b, heq⟩ : ∃ b, transLoop buf_end path (w.length + n) pos SLASH (w ++ []) s =
        transLoop buf_end path n (pos + w.length) b [] { s with out := s.out ++ w.map filenameCharMap } :=
      transLoop_name hname hw (Or.inl rfl) (fun hne => absurd rfl hne) hfits
    rw [List.append_nil] at heq
    refine ⟨{ s with out := s.out ++ w.map filenameCharMap }, heq.trans transLoop_nil, ?_,
      Or.inr ⟨s.out, w, rfl, hempty, hw, rfl, hmark⟩⟩
    rw [if_neg (hnot hup), pieces, image_name hname]
    rfl

theorem AtEnd.cons (h : AtEnd s (c₁ :: cs)) (w : Text) : AtEnd s (w :: c₁ :: cs) := by
  unfold AtEnd
  rw [List.getLast?_cons_cons]
  exact h

theorem homeFrom_empty : homeFrom false ([] :: c₁ :: cs) = homeFrom false (c₁ :: cs) := by
  rw [homeFrom, if_neg (by decide), if_pos ⟨rfl, rfl⟩]
  nofun

theorem homeFrom_ghost : homeFrom true ([] :: c₁ :: cs) = false := by
  rw [homeFrom, if_neg (by decide), if_neg (fun hboth => nomatch hboth.2)]
  nofun

theorem homeFrom_skip (hw : w = CURDIR ∨ w = UPDIR) : homeFrom dot (w :: c₁ :: cs) = homeFrom true (c₁ :: cs) := by
  rw [homeFrom, if_pos hw]
  nofun

theorem homeFrom_name (hw : IsName CURDIR UPDIR w) : homeFrom dot (w :: c₁ :: cs) = false := by
  rw [homeFrom, if_neg (not_or.mpr hw.2), if_neg (fun hboth => hw.1 hboth.1)]
  nofun

theorem not_home (h : BehindSlash s) {p : Prop} : ¬(some s.last_slash = some 0 ∧ p) := by
  rintro ⟨hzero, -⟩
  exact absurd (Option.some.inj hzero) (Nat.ne_of_gt h.last)

theorem pieces_cons : pieces (w :: c₁ :: cs) = (image w).elim [] (· ++ [DOT]) ++ pieces (c₁ :: cs) := rfl

def Rest (buf_end : ℕ) (path dot : Bool) (cs : List Text) : Prop :=
  ∀ turns pos s, BehindSlash s → 0 < pos → (inputOf dot cs).length ≤ turns →
    s.out.length + (inputOf dot cs).length ≤ buf_end →
    ∃ s', transLoop buf_end path turns pos SLASH (inputOf dot cs) s = some s' ∧
      s'.out = (if s.previous_slash = some 0 ∧ homeFrom dot cs = true then [AT] else s.out ++ pieces cs) ∧
      AtEnd s' cs

theorem inputOf_length_le (cs : List Text) : (inputOf false cs).length ≤ (join SLASH cs).length :=
  (List.dropWhile_suffix _).length_le

theorem Rest.up (h : Rest buf_end path true (c₁ :: cs)) (turns pos : ℕ) (before : UInt8)
    (s : Trans) (hturns : (join SLASH (c₁ :: cs)).length < turns)
    (hfits : s.out.length + 2 + (join SLASH (c₁ :: cs)).length ≤ buf_end) :
    ∃ s', transLoop buf_end path turns pos before (UPDIR ++ SLASH :: join SLASH (c₁ :: cs)) s = some s' ∧
      s'.out = (if s.previous_slash = some 0 ∧ homeFrom true (c₁ :: cs) = true then [AT]
        else s.out ++ pieces (UPDIR :: c₁ :: cs)) ∧ AtEnd s' (UPDIR :: c₁ :: cs) := by
  obtain ⟨turns, rfl⟩ : ∃ n, turns = n + 1 := ⟨turns - 1, by omega⟩
  have hbehind : BehindSlash ⟨s.out ++ [CARET, DOT], pos + 3, s.previous_slash, (s.out ++ [CARET, DOT]).length⟩ := by
    have hdot := behindSlash_dot (s.out ++ [CARET]) (pos + 3) (Nat.succ_pos _) s.previous_slash
    rw [List.append_assoc] at hdot
    exact hdot
  have hmore : (s.out ++ [CARET, DOT]).length + (join SLASH (c₁ :: cs)).length ≤ buf_end := by
    rw [List.length_append]
    exact hfits
  obtain ⟨s', hrun, hout, hend⟩ := h turns _ _ hbehind (Nat.succ_pos _) (Nat.le_of_lt_succ hturns) hmore
  refine ⟨s', (transLoop_up (by omega)).trans hrun, ?_, hend.cons _⟩
  rw [List.append_assoc] at hout
  exact hout

theorem Rest.name (h : Rest buf_end path false (c₁ :: cs)) (turns pos : ℕ) (before : UInt8)
    (s : Trans) (hname : IsName CURDIR UPDIR w) (hw : SLASH ∉ w) (hends : ¬UPDIR <:+ w)
    (hturns : w.length + (join SLASH (c₁ :: cs)).length < turns)
    (hfits : s.out.length + w.length + 1 + (join SLASH (c₁ :: cs)).length ≤ buf_end) :
    ∃ s', transLoop buf_end path turns pos before (w ++ SLASH :: join SLASH (c₁ :: cs)) s = some s' ∧
      s'.out = (if some s.last_slash = some 0 ∧ homeFrom false (c₁ :: cs) = true then [AT]
        else s.out ++ pieces (w :: c₁ :: cs)) ∧ AtEnd s' (w :: c₁ :: cs) := by
  have hdrop := inputOf_length_le (c₁ :: cs)
  obtain ⟨turns, rfl⟩ : ∃ n, turns = w.length + (n + 1) := ⟨turns - w.length - 1, by omega⟩
  obtain ⟨next, hnext, heq⟩ : ∃ next, 0 < next ∧ transLoop buf_end path (w.length + (turns + 1)) pos before
      (w ++ SLASH :: join SLASH (c₁ :: cs)) s = transLoop buf_end path turns next SLASH
        (inputOf false (c₁ :: cs)) ⟨s.out ++ w.map filenameCharMap ++ [DOT], next, some s.last_slash,
          (s.out ++ w.map filenameCharMap ++ [DOT]).length⟩ :=
    transLoop_name_slash hname hw hends (by omega)
  have hmore : (s.out ++ w.map filenameCharMap ++ [DOT]).length + (inputOf false (c₁ :: cs)).length ≤ buf_end := by
    rw [List.length_append, List.length_append, List.length_map, List.length_singleton]
    omega
  obtain ⟨s', hrun, hout, hend⟩ := h turns next _
    (behindSlash_dot (s.out ++ w.map filenameCharMap) next hnext (some s.last_slash)) hnext (by omega) hmore
  refine ⟨s', heq.trans hrun, ?_, hend.cons w⟩
  dsimp only at hout
  rw [List.append_assoc, List.append_assoc] at hout
  rw [hout, pieces_cons, image_name hname, Option.elim_some, List.append_assoc]

theorem Rest.slash (h : Rest buf_end path false (c₁ :: cs)) (turns pos : ℕ) (before : UInt8)
    (s : Trans)
    (hsep : s.separate.out = [] ∨ s.separate.out.getLast? = some DOT)
    (hturns : (join SLASH (c₁ :: cs)).length < turns)
    (hfits : s.separate.out.length + (join SLASH (c₁ :: cs)).length ≤ buf_end) :
    ∃ s', transLoop buf_end path turns pos before (SLASH :: join SLASH (c₁ :: cs)) s = some s' ∧
      s'.out = (if some s.last_slash = some 0 ∧ homeFrom false (c₁ :: cs) = true then [AT]
        else s.separate.out ++ pieces (c₁ :: cs)) ∧ AtEnd s' ([] :: c₁ :: cs) := by
  have hdrop := inputOf_length_le (c₁ :: cs)
  obtain ⟨turns, rfl⟩ : ∃ n, turns = n + 1 := ⟨turns - 1, by omega⟩
  obtain ⟨next, hnext, heq⟩ : ∃ next, 0 < next ∧ transLoop buf_end path (turns + 1) pos before
      (SLASH :: join SLASH (c₁ :: cs)) s = transLoop buf_end path turns next SLASH (inputOf false (c₁ :: cs))
        ⟨s.separate.out, next, some s.last_slash, s.separate.out.length⟩ :=
    transLoop_slash (by omega)
  obtain ⟨s', hrun, hout, hend⟩ := h turns next
    ⟨s.separate.out, next, some s.last_slash, s.separate.out.length⟩ ⟨hsep, hnext, rfl⟩ hnext (by omega)
    (by dsimp only; omega)
  exact ⟨s', heq.trans hrun, hout, hend.cons []⟩

theorem transLoop_rest (hcs : cs ≠ []) (hsep : ∀ c ∈ cs, SLASH ∉ c)
    (hends : ∀ c ∈ cs.dropLast, c = UPDIR ∨ ¬UPDIR <:+ c) : Rest buf_end path dot cs := by
  induction cs generalizing dot with
  | nil => exact absurd rfl hcs
  | cons w cs ih =>
    intro turns pos s h hpos hturns hfits
    have hw := hsep w List.mem_cons_self
    cases cs with
    | nil =>
      have hinput : inputOf dot [w] = w := by
        by_cases hempty : w = []
        · subst hempty
          cases dot <;> rfl
        · rw [inputOf_of_ne_nil hempty hw, join, List.intercalate_singleton]
      rw [hinput] at hturns hfits ⊢
      exact transLoop_last h.mark hpos hw hturns hfits
    | cons c₁ cs =>
      have hrest := fun c hc => hsep c (List.mem_cons_of_mem w hc)
      have hends' : ∀ c ∈ (c₁ :: cs).dropLast, c = UPDIR ∨ ¬UPDIR <:+ c :=
        fun c hc => hends c (List.mem_cons_of_mem w hc)
      have hone : w = UPDIR ∨ ¬UPDIR <:+ w := hends w List.mem_cons_self
      by_cases hempty : w = []
      · subst hempty
        rw [pieces_cons, image_nil]
        cases dot with
        | false =>
          have hinput : inputOf false ([] :: c₁ :: cs) = inputOf false (c₁ :: cs) :=
            dropWhile_join_nil (List.cons_ne_nil c₁ cs)
          rw [hinput] at hturns hfits ⊢
          rw [homeFrom_empty]
          obtain ⟨s', hrun, hout, hend⟩ := ih (List.cons_ne_nil c₁ cs) hrest hends' turns pos s h hpos hturns hfits
          exact ⟨s', hrun, hout, hend.cons []⟩
        | true =>
          have hinput : inputOf true ([] :: c₁ :: cs) = SLASH :: join SLASH (c₁ :: cs) :=
            List.intercalate_cons_cons
          rw [hinput, List.length_cons] at hturns hfits
          rw [hinput, homeFrom_ghost, if_neg (fun hboth => by cases hboth.2)]
          obtain ⟨s', hrun, hout, hend⟩ := (ih (List.cons_ne_nil c₁ cs) hrest hends' : Rest buf_end path false (c₁ :: cs)).slash
            turns pos SLASH s (h.separate.symm ▸ h.out) hturns (by rw [h.separate]; omega)
          rw [if_neg (not_home h), h.separate] at hout
          exact ⟨s', hrun, hout, hend⟩
      have hinput : inputOf dot (w :: c₁ :: cs) = w ++ SLASH :: join SLASH (c₁ :: cs) := by
        rw [inputOf_of_ne_nil hempty hw, join, List.intercalate_cons_cons, List.append_assoc]
        rfl
      have hlength : 0 < w.length := List.length_pos_of_ne_nil hempty
      rw [hinput, List.length_append, List.length_cons] at hturns hfits
      rw [hinput]
      by_cases hcur : w = CURDIR
      · subst hcur
        obtain ⟨turns, rfl⟩ : ∃ n, turns = n + 1 := ⟨turns - 1, by omega⟩
        rw [transLoop_cur (fun hzero => absurd hzero (Nat.ne_of_gt hpos)), homeFrom_skip (Or.inl rfl), pieces_cons,
          image_cur]
        obtain ⟨s', hrun, hout, hend⟩ := (ih (List.cons_ne_nil c₁ cs) hrest hends' : Rest buf_end path true (c₁ :: cs)) turns _
          (s.markIn (pos + 2)) ⟨h.out, Nat.succ_pos _, h.mark⟩ (Nat.succ_pos _) (by
            change (join SLASH (c₁ :: cs)).length ≤ turns
            omega) (by
            change s.out.length + (join SLASH (c₁ :: cs)).length ≤ buf_end
            omega)
        exact ⟨s', hrun, hout, hend.cons _⟩
      by_cases hup : w = UPDIR
      · subst hup
        have htwo : UPDIR.length = 2 := rfl
        rw [homeFrom_skip (Or.inr rfl)]
        exact (ih (List.cons_ne_nil c₁ cs) hrest hends' : Rest buf_end path true (c₁ :: cs)).up turns pos SLASH s (by omega) (by omega)
      · have hname : IsName CURDIR UPDIR w := ⟨hempty, hcur, hup⟩
        obtain ⟨s', hrun, hout, hend⟩ := (ih (List.cons_ne_nil c₁ cs) hrest hends' : Rest buf_end path false (c₁ :: cs)).name
          turns pos SLASH s hname hw (hone.resolve_left hup) (by omega) (by omega)
        rw [if_neg (not_home h)] at hout
        rw [homeFrom_name hname, if_neg (fun hboth => by cases hboth.2)]
        exact ⟨s', hrun, hout, hend⟩

/-! ### The whole path -/

theorem startsInSlash_of_ne (hw : w ≠ [] ∧ w ≠ CURDIR) : startsInSlash (w :: c₁ :: cs) = false := by
  rw [startsInSlash, decide_eq_false hw.1, decide_eq_false hw.2]
  rfl

theorem separated_of_not (hstart : startsInSlash cs = false) : separated o cs = o := by
  rw [separated, if_neg]
  rintro ⟨htrue, -⟩
  rw [hstart] at htrue
  cases htrue

theorem separated_cur : separated o (CURDIR :: c₁ :: cs) = separated o (c₁ :: cs) := by
  have hskip : startsInSlash (CURDIR :: c₁ :: cs) = startsInSlash (c₁ :: cs) := by
    rw [startsInSlash, decide_eq_false (by decide), decide_eq_true rfl, Bool.false_or, Bool.true_and]
  rw [separated, hskip, separated]

theorem separated_slash (c₁ : Text) (cs : List Text) (n : ℕ) (p : Option ℕ) (m : ℕ) :
    (Trans.separate ⟨o, n, p, m⟩).out = separated o ([] :: c₁ :: cs) := by
  rw [Trans.separate, separated, startsInSlash, decide_eq_true rfl, Bool.true_or]
  by_cases hboth : o ≠ [] ∧ o.getLast? ≠ some DOT
  · rw [if_pos hboth, if_pos ⟨rfl, hboth⟩]
  · rw [if_neg hboth, if_neg (fun h => hboth h.2)]

theorem separated_behind : separated o ([] :: c₁ :: cs) = [] ∨ (separated o ([] :: c₁ :: cs)).getLast? = some DOT := by
  rw [separated, startsInSlash, decide_eq_true rfl, Bool.true_or]
  by_cases hnil : o = []
  · subst hnil
    exact Or.inl rfl
  by_cases hdot : o.getLast? = some DOT
  · rw [if_neg (fun h => h.2.2 hdot)]
    exact Or.inr hdot
  · rw [if_pos ⟨rfl, hnil, hdot⟩]
    exact Or.inr List.getLast?_concat

theorem separated_length_le (o : Text) (cs : List Text) : (separated o cs).length ≤ o.length + 1 := by
  rw [separated]
  split
  · rw [List.length_append]
    rfl
  · exact Nat.le_succ _

/-- **From the start**, and behind some `./` there, with nothing written. -/
theorem transLoop_start {last : ℕ} (hcs : cs ≠ []) (hsep : ∀ c ∈ cs, SLASH ∉ c)
    (hends : ∀ c ∈ cs.dropLast, c = UPDIR ∨ ¬UPDIR <:+ c)
    (hstart : 0 < pos ∧ 0 < last ∧ before = SLASH ∨ pos = 0 ∧ last = 0 ∧ cs ≠ [CURDIR] ∧ cs ≠ [UPDIR])
    (hcur : startsInCur cs = true → before = SLASH ∧ (pos = 0 → path = true))
    (hturns : (join SLASH cs).length ≤ turns) (hfits : o.length + (join SLASH cs).length ≤ buf_end) :
    ∃ s', transLoop buf_end path turns pos before (join SLASH cs) ⟨o, last, none, o.length⟩ = some s' ∧
      s'.out = (if last = 0 ∧ goesHome cs = true then [AT] else separated o cs ++ pieces cs) ∧ AtEnd s' cs := by
  induction cs generalizing pos turns before last with
  | nil => exact absurd rfl hcs
  | cons w cs ih =>
    have hw := hsep w List.mem_cons_self
    cases cs with
    | nil =>
      have hhome : ¬(last = 0 ∧ goesHome [w] = true) := by
        rintro ⟨-, hhome⟩
        rw [goesHome, homeFrom, Bool.and_false] at hhome
        cases hhome
      rw [if_neg hhome, separated_of_not rfl]
      rw [join, List.intercalate_singleton] at hturns hfits ⊢
      rcases hstart with ⟨hpos, -, rfl⟩ | ⟨rfl, rfl, hcur', hup'⟩
      · obtain ⟨s', hrun, hout, hend⟩ : ∃ s', transLoop buf_end path turns pos SLASH w ⟨o, last, none, o.length⟩ =
            some s' ∧ s'.out = (if none = some 0 ∧ homeFrom false [w] = true then [AT] else o ++ pieces [w]) ∧
              AtEnd s' [w] :=
          transLoop_last rfl hpos hw hturns hfits
        rw [if_neg (fun hboth => by cases hboth.1)] at hout
        exact ⟨s', hrun, hout, hend⟩
      · by_cases hempty : w = []
        · subst hempty
          exact ⟨_, transLoop_nil, (List.append_nil o).symm, Or.inl (Nat.le_succ _)⟩
        · have hname : IsName CURDIR UPDIR w :=
            ⟨hempty, fun heq => hcur' (heq ▸ rfl), fun heq => hup' (heq ▸ rfl)⟩
          obtain ⟨n, rfl⟩ : ∃ n, turns = w.length + n := ⟨turns - w.length, by omega⟩
          obtain ⟨b, heq⟩ : ∃ b, transLoop buf_end path (w.length + n) 0 before (w ++ []) ⟨o, 0, none, o.length⟩ =
              transLoop buf_end path n (0 + w.length) b [] ⟨o ++ w.map filenameCharMap, 0, none, o.length⟩ :=
            transLoop_name hname hw (Or.inl rfl) (fun hne => absurd rfl hne) hfits
          rw [List.append_nil] at heq
          refine ⟨_, heq.trans transLoop_nil, ?_, Or.inr ⟨o, w, rfl, hempty, hw, rfl, rfl⟩⟩
          rw [pieces, image_name hname]
          rfl
    | cons c₁ cs =>
      have hrest := fun c hc => hsep c (List.mem_cons_of_mem w hc)
      have hends' : ∀ c ∈ (c₁ :: cs).dropLast, c = UPDIR ∨ ¬UPDIR <:+ c :=
        fun c hc => hends c (List.mem_cons_of_mem w hc)
      have hone : w = UPDIR ∨ ¬UPDIR <:+ w := hends w List.mem_cons_self
      have hdrop : (inputOf false (c₁ :: cs)).length ≤ (join SLASH (c₁ :: cs)).length :=
        (List.dropWhile_suffix _).length_le
      have hinput : join SLASH (w :: c₁ :: cs) = w ++ SLASH :: join SLASH (c₁ :: cs) := by
        rw [join, List.intercalate_cons_cons, List.append_assoc]
        rfl
      rw [hinput, List.length_append, List.length_cons] at hturns hfits
      rw [hinput]
      by_cases hcur' : w = CURDIR
      · subst hcur'
        obtain ⟨hbefore, hpath⟩ := hcur rfl
        have honeLength : CURDIR.length = 1 := rfl
        obtain ⟨turns, rfl⟩ : ∃ n, turns = n + 1 := ⟨turns - 1, by omega⟩
        obtain ⟨s', hrun, hout, hend⟩ : ∃ s', transLoop buf_end path turns (pos + 2) SLASH
            (join SLASH (c₁ :: cs)) ⟨o, pos + 2, none, o.length⟩ = some s' ∧ _ ∧ AtEnd s' (c₁ :: cs) :=
          ih (List.cons_ne_nil c₁ cs) hrest hends' (Or.inl ⟨Nat.succ_pos _, Nat.succ_pos _, rfl⟩)
            (fun _ => ⟨rfl, fun hzero => absurd hzero (Nat.succ_ne_zero _)⟩) (by omega) (by omega)
        have hhome : goesHome (CURDIR :: c₁ :: cs) = false := rfl
        rw [if_neg (fun hboth => by cases hboth.1)] at hout
        rw [hbefore, transLoop_cur hpath, hhome, if_neg (fun hboth => by cases hboth.2), separated_cur, pieces_cons,
          image_cur]
        exact ⟨s', hrun, hout, hend.cons _⟩
      by_cases hup : w = UPDIR
      · subst hup
        have htwo : UPDIR.length = 2 := rfl
        have hhome : goesHome (UPDIR :: c₁ :: cs) = false := rfl
        obtain ⟨s', hrun, hout, hend⟩ := (transLoop_rest (List.cons_ne_nil c₁ cs) hrest hends' : Rest buf_end path true (c₁ :: cs)).up
          turns pos before ⟨o, last, none, o.length⟩ (by omega)
          (by dsimp only; omega)
        rw [if_neg (fun hboth => by cases hboth.1)] at hout
        rw [hhome, if_neg (fun hboth => by cases hboth.2),
          separated_of_not (startsInSlash_of_ne (show UPDIR ≠ [] ∧ UPDIR ≠ CURDIR from ⟨by decide, by decide⟩))]
        exact ⟨s', hrun, hout, hend⟩
      -- What stands in front of the slash is a name, or nothing.
      have hzero : (some last = some 0 ∧ homeFrom false (c₁ :: cs) = true) ↔
          (last = 0 ∧ goesHome (w :: c₁ :: cs) = true) := by
        rw [Option.some_inj, goesHome, decide_eq_true hcur', decide_eq_true hup, Bool.true_and, Bool.true_and]
      have hbehind : Rest buf_end path false (c₁ :: cs) := transLoop_rest (List.cons_ne_nil c₁ cs) hrest hends'
      by_cases hempty : w = []
      · subst hempty
        rw [List.length_nil] at hturns hfits
        have hsep' := separated_length_le o ([] :: c₁ :: cs)
        have hslash := separated_slash (o := o) c₁ cs last none o.length
        obtain ⟨s', hrun, hout, hend⟩ := hbehind.slash turns pos before ⟨o, last, none, o.length⟩
          (hslash ▸ separated_behind) (by omega) (by rw [hslash]; omega)
        rw [if_congr hzero rfl rfl, hslash] at hout
        exact ⟨s', hrun, hout, hend⟩
      · obtain ⟨s', hrun, hout, hend⟩ := hbehind.name turns pos before ⟨o, last, none, o.length⟩
          ⟨hempty, hcur', hup⟩ hw (hone.resolve_left hup) (by omega)
          (by dsimp only; omega)
        rw [if_congr hzero rfl rfl] at hout
        rw [separated_of_not (startsInSlash_of_ne ⟨hempty, hcur'⟩)]
        exact ⟨s', hrun, hout, hend⟩

def lead (path : Bool) (out : Text) (cs : List Text) : Text :=
  if startsInCur cs = true ∧ path = false then [AT, DOT] else separated out cs

theorem transLoop_path (hdots : TellsDots path before cs) (hcs : cs ≠ []) (hsep : ∀ c ∈ cs, SLASH ∉ c)
    (hout : path = false → o = []) (hturns : (join SLASH cs).length ≤ turns)
    (hfits : o.length + (join SLASH cs).length ≤ buf_end) :
    ∃ s', transLoop buf_end path turns 0 before (join SLASH cs) ⟨o, 0, none, o.length⟩ = some s' ∧
      s'.out = (if goesHome cs = true then [AT] else lead path o cs ++ pieces cs) ∧ AtEnd s' cs := by
  by_cases hcur : startsInCur cs = true ∧ path = false
  · obtain ⟨hcur, rfl⟩ := hcur
    obtain rfl := hout rfl
    obtain ⟨c₁, cs, rfl⟩ : ∃ c₁ cs', cs = CURDIR :: c₁ :: cs' := by
      cases cs with
      | nil => cases hcur
      | cons c cs =>
        cases cs with
        | nil => cases hcur
        | cons c₁ cs =>
          rw [startsInCur, decide_eq_true_iff] at hcur
          exact ⟨c₁, cs, hcur ▸ rfl⟩
    have hinput : join SLASH (CURDIR :: c₁ :: cs) = CURDIR ++ SLASH :: join SLASH (c₁ :: cs) := by
      rw [join, List.intercalate_cons_cons, List.append_assoc]
      rfl
    have hhome : goesHome (CURDIR :: c₁ :: cs) = false := rfl
    have hone : CURDIR.length = 1 := rfl
    rw [hinput, List.length_append, hone, List.length_cons] at hturns hfits
    rw [List.length_nil] at hfits
    obtain ⟨turns, rfl⟩ : ∃ n, turns = n + 1 := ⟨turns - 1, by omega⟩
    rw [hinput, transLoop_cur_start (by rw [List.length_nil]; omega), hhome, if_neg Bool.false_ne_true, lead,
      if_pos ⟨rfl, rfl⟩, pieces_cons, image_cur]
    have hbehind : Rest buf_end false true (c₁ :: cs) :=
      transLoop_rest (List.cons_ne_nil c₁ cs) (fun c hc => hsep c (List.mem_cons_of_mem _ hc))
        fun c hc => hdots.ends c (List.mem_cons_of_mem _ hc)
    obtain ⟨s', hrun, hout, hend⟩ := hbehind turns 2 ⟨[AT, DOT], 2, none, [AT, DOT].length⟩
        (behindSlash_dot [AT] 2 (Nat.succ_pos _) none) (Nat.succ_pos _) (by
          change (join SLASH (c₁ :: cs)).length ≤ turns
          omega) (by
          change 2 + (join SLASH (c₁ :: cs)).length ≤ buf_end
          omega)
    rw [if_neg (fun hboth => by cases hboth.1)] at hout
    exact ⟨s', hrun, hout, hend.cons _⟩
  · have hpath : startsInCur cs = true → path = true := fun hstart => by
      by_contra hfalse
      exact hcur ⟨hstart, (Bool.not_eq_true path).mp hfalse⟩
    obtain ⟨s', hrun, hout, hend⟩ := transLoop_start hcs hsep hdots.ends (Or.inr ⟨rfl, rfl, hdots.alone⟩)
      (fun hstart => ⟨hdots.cur (hpath hstart) hstart, fun _ => hpath hstart⟩) hturns hfits
    rw [if_congr (and_iff_right rfl) rfl rfl] at hout
    rw [lead, if_neg hcur]
    exact ⟨s', hrun, hout, hend⟩

/-! ### The end of the output -/

theorem stripDots_of_getLast (h : t.getLast? ≠ some DOT) : stripDots t = t := by
  cases t with
  | nil => rfl
  | cons c t =>
    cases t using List.reverseRecOn with
    | nil => rfl
    | append_singleton t d =>
      rw [← List.cons_append, List.getLast?_concat] at h
      rw [stripDots, List.rdropWhile_concat_neg]
      rw [decide_eq_true_iff]
      exact fun heq => h (heq ▸ rfl)

theorem stripDots_concat (h : t ≠ []) : stripDots (t ++ [DOT]) = stripDots t := by
  cases t with
  | nil => exact absurd rfl h
  | cons c t =>
    rw [List.cons_append, stripDots, stripDots, List.rdropWhile_concat_pos]
    exact decide_eq_true rfl

theorem stripDots_length_le (t : Text) : (stripDots t).length ≤ t.length := by
  cases t with
  | nil => exact Nat.le_refl _
  | cons c t => exact Nat.succ_le_succ (List.rdropWhile_prefix _ t).length_le

theorem image_some (hw : SLASH ∉ w) (him : image w = some t) : t ≠ [] ∧ t.getLast? ≠ some DOT := by
  rw [image] at him
  split at him
  · cases him
  · rename_i hempty
    split at him
    · obtain rfl := Option.some.inj him
      exact ⟨nofun, by decide⟩
    · obtain rfl := Option.some.inj him
      have hne : w ≠ [] := fun heq => hempty (Or.inl heq)
      exact ⟨fun hnil => hne (List.map_eq_nil_iff.mp hnil), getLast?_map_ne_dot hne hw []⟩

theorem join_images (ts : List Text) (hts : ∀ t ∈ ts, t ≠ [] ∧ t.getLast? ≠ some DOT) (hne : ts ≠ []) :
    join DOT ts ≠ [] ∧ (join DOT ts).getLast? ≠ some DOT := by
  induction ts with
  | nil => exact absurd rfl hne
  | cons t ts ih =>
    cases ts with
    | nil =>
      rw [join, List.intercalate_singleton]
      exact hts t List.mem_cons_self
    | cons t₁ ts =>
      obtain ⟨hsome, hlast⟩ := ih (fun t ht => hts t (List.mem_cons_of_mem _ ht)) (List.cons_ne_nil t₁ ts)
      rw [join, List.intercalate_cons_cons]
      refine ⟨fun hnil => hsome (List.append_eq_nil_iff.mp hnil).2, ?_⟩
      rwa [List.getLast?_append_of_ne_nil _ hsome]

/-- **The pieces are the images**, with a separator between them, and one behind where the last component has no
image. -/
theorem pieces_eq (cs : List Text) :
    pieces cs = join DOT (cs.filterMap image) ∨
      cs.filterMap image ≠ [] ∧ pieces cs = join DOT (cs.filterMap image) ++ [DOT] := by
  induction cs with
  | nil => exact Or.inl rfl
  | cons w cs ih =>
    cases cs with
    | nil =>
      refine Or.inl ?_
      rw [pieces]
      cases him : image w with
      | none => rw [List.filterMap_cons_none him]; rfl
      | some t => rw [List.filterMap_cons_some him, List.filterMap_nil, join, List.intercalate_singleton]; rfl
    | cons c₁ cs =>
      rw [pieces_cons]
      cases him : image w with
      | none => rwa [List.filterMap_cons_none him]
      | some t =>
        rw [List.filterMap_cons_some him, Option.elim_some]
        cases hts : (c₁ :: cs).filterMap image with
        | nil =>
          rw [hts] at ih
          refine Or.inr ⟨List.cons_ne_nil _ _, ?_⟩
          rcases ih with ih | ⟨hne, -⟩
          · rw [ih, join, join, List.intercalate_singleton]
            exact List.append_nil _
          · exact absurd rfl hne
        | cons t₁ ts =>
          rw [hts] at ih
          rw [join, List.intercalate_cons_cons, List.append_assoc, List.append_assoc]
          rcases ih with ih | ⟨-, ih⟩
          · refine Or.inl ?_
            rw [ih]
          · refine Or.inr ⟨List.cons_ne_nil _ _, ?_⟩
            rw [ih]
            simp only [List.append_assoc]

theorem stripDots_pieces (hsep : ∀ c ∈ cs, SLASH ∉ c) (o : Text) :
    stripDots (o ++ pieces cs) =
      if cs.filterMap image = [] then stripDots o else o ++ join DOT (cs.filterMap image) := by
  have himages : ∀ t ∈ cs.filterMap image, t ≠ [] ∧ t.getLast? ≠ some DOT := by
    intro t ht
    obtain ⟨c, hc, him⟩ := List.mem_filterMap.mp ht
    exact image_some (hsep c hc) him
  split
  · rename_i hnone
    rcases pieces_eq cs with heq | ⟨hne, -⟩
    · rw [heq, hnone, join]
      exact congrArg stripDots (List.append_nil o)
    · exact absurd hnone hne
  · rename_i hsome
    obtain ⟨hne, hlast⟩ := join_images _ himages hsome
    have hwhole : stripDots (o ++ join DOT (cs.filterMap image)) = o ++ join DOT (cs.filterMap image) := by
      apply stripDots_of_getLast
      rwa [List.getLast?_append_of_ne_nil _ hne]
    rcases pieces_eq cs with heq | ⟨-, heq⟩
    · rw [heq, hwhole]
    · rw [heq, ← List.append_assoc, stripDots_concat, hwhole]
      exact fun hnil => hne (List.append_eq_nil_iff.mp hnil).2

theorem stripDots_separated (o : Text) (cs : List Text) : stripDots (separated o cs) = stripDots o := by
  rw [separated]
  split
  · rename_i hmore
    exact stripDots_concat hmore.2.1
  · rfl

theorem stripDots_lead (hsep : ∀ c ∈ cs, SLASH ∉ c) (hout : path = false → o = []) :
    (if stripDots (lead path o cs ++ pieces cs) = [] ∧ path = false then [AT]
      else stripDots (lead path o cs ++ pieces cs)) = mapped path o cs := by
  rw [stripDots_pieces hsep, lead, mapped, images]
  by_cases hcur : startsInCur cs = true ∧ path = false
  · rw [if_pos hcur, if_pos hcur]
    obtain ⟨-, rfl⟩ := hcur
    obtain rfl := hout rfl
    have hnone : separated [] cs = [] := if_neg fun hmore => hmore.2.1 rfl
    rw [hnone]
    cases hts : cs.filterMap image with
    | nil => rfl
    | cons t ts =>
      have himages : [[AT]] ++ t :: ts ≠ [] := List.cons_ne_nil _ _
      have hwritten : ¬([AT, DOT] ++ join DOT (t :: ts) = [] ∧ false = false) := fun hnil => List.cons_ne_nil _ _ hnil.1
      rw [if_neg himages, if_neg (List.cons_ne_nil t ts), if_neg hwritten, List.singleton_append, join, join,
        List.intercalate_cons_cons]
      rfl
  · rw [if_neg hcur, if_neg hcur, List.nil_append]
    cases hts : cs.filterMap image with
    | nil =>
      rw [if_pos rfl, if_pos rfl, stripDots_separated]
      cases path with
      | true => rw [if_neg (fun hboth => by cases hboth.2), if_pos rfl]
      | false =>
        obtain rfl := hout rfl
        rfl
    | cons t ts =>
      have hne : join DOT (t :: ts) ≠ [] := by
        rw [← hts]
        refine (join_images _ ?_ (hts ▸ List.cons_ne_nil t ts)).1
        intro t ht
        obtain ⟨c, hc, him⟩ := List.mem_filterMap.mp ht
        exact image_some (hsep c hc) him
      rw [if_neg (List.cons_ne_nil t ts), if_neg (List.cons_ne_nil t ts), if_neg]
      exact fun hnil => hne (List.append_eq_nil_iff.mp hnil.1).2

def NoType (ext : Bool) (cs : List Text) : Prop :=
  ext = true → ∀ w, cs.getLast? = some w → 4 < w.length → endsInType w = false

theorem endsInType_of_map (hw : 4 < w.length) (h : endsInType (o ++ w.map filenameCharMap) = true) :
    endsInType w = true := by
  obtain ⟨x, y, z, comma, ys, hrev⟩ : ∃ x y z comma ys, w.reverse = x :: y :: z :: comma :: ys := by
    rw [← List.length_reverse] at hw
    match w.reverse, hw with
    | x :: y :: z :: comma :: ys, _ => exact ⟨x, y, z, comma, ys, rfl⟩
  rw [endsInType, List.reverse_append, ← List.map_reverse, hrev] at h
  rw [endsInType, hrev]
  simp only [List.map_cons, List.cons_append, Bool.and_eq_true, decide_eq_true_iff] at h ⊢
  obtain ⟨⟨⟨hcomma, hx⟩, hy⟩, hz⟩ := h
  exact ⟨⟨⟨(filenameCharMap_image comma).2.1 hcomma, (filenameCharMap_image x).2.2 hx⟩,
    (filenameCharMap_image y).2.2 hy⟩, (filenameCharMap_image z).2.2 hz⟩

theorem removeType_eq {ext : Bool} (hend : AtEnd s cs) (htype : NoType ext cs)
    (ht : t = stripDots s.out ∨ t = [AT]) : removeType ext s.last_out_slash t = t := by
  apply if_neg
  rintro ⟨hlong, htypes, rfl⟩
  rcases ht with rfl | rfl
  · rcases hend with hshort | ⟨o, w, hlast, hne, hw, hwhole, hmark⟩
    · have hless := stripDots_length_le s.out
      omega
    · rw [hwhole, stripDots_of_getLast (getLast?_map_ne_dot hne hw o)] at hlong htypes
      rw [hmark, List.length_append, List.length_map] at hlong
      have hw4 : 4 < w.length := by omega
      have hno := htype rfl w hlast hw4
      rw [endsInType_of_map hw4 htypes] at hno
      cases hno
  · rw [List.length_singleton] at hlong
    omega

end Components

/-! ### The room in the buffer -/

section Room

variable {buf_end buf_end' turns pos : ℕ} {path ext : Bool} {before c : UInt8} {rest t out in_ : Text}
  {s s' : Trans} {α : Type}

theorem Trans.put_mono {f : Trans → α} {r : α} (hle : buf_end ≤ buf_end')
    (h : (s.put buf_end t).map f = some r) : (s.put buf_end' t).map f = some r := by
  rw [Trans.put] at h ⊢
  split at h
  · rename_i hfits
    rwa [if_pos (hfits.trans hle)]
  · cases h

theorem transTurn_mono {r : InPlace × Trans} (hle : buf_end ≤ buf_end')
    (h : transTurn buf_end path pos before c rest s = some r) :
    transTurn buf_end' path pos before c rest s = some r := by
  unfold transTurn at h ⊢
  by_cases hdot : c = DOT
  · rw [if_pos hdot] at h ⊢
    split_ifs at h ⊢
    all_goals first | exact h | exact Trans.put_mono hle h
  · rw [if_neg hdot] at h ⊢
    by_cases hslash : c = SLASH
    · rw [if_pos hslash] at h ⊢
      dsimp only at h ⊢
      split at h
      · rename_i hfits
        rwa [if_pos (hfits.trans hle)]
      · cases h
    · rw [if_neg hslash] at h ⊢
      exact Trans.put_mono hle h

theorem transLoop_mono (hle : buf_end ≤ buf_end') (h : transLoop buf_end path turns pos before rest s = some s') :
    transLoop buf_end' path turns pos before rest s = some s' := by
  induction turns generalizing pos before rest s with
  | zero =>
    cases rest with
    | nil => exact h
    | cons c rest => cases h
  | succ turns ih =>
    cases rest with
    | nil => exact h
    | cons c rest =>
      rw [transLoop_cons] at h ⊢
      obtain ⟨r, hturn, hrest⟩ := Option.bind_eq_some_iff.mp h
      rw [transTurn_mono hle hturn, Option.bind_some]
      exact ih hrest

/-- **More room changes nothing.** -/
theorem translateOrNull_mono (hle : buf_end ≤ buf_end') (h : translateOrNull ext buf_end out before in_ path = some t) :
    translateOrNull ext buf_end' out before in_ path = some t := by
  rw [translateOrNull] at h ⊢
  split at h
  · rename_i hfits
    obtain ⟨s, hrun, hend⟩ := Option.bind_eq_some_iff.mp h
    rw [if_pos (hfits.trans hle), transLoop_mono hle hrun, Option.bind_some]
    dsimp only at hend ⊢
    split at hend
    · rename_i hnone
      rw [if_pos hnone]
      split at hend
      · rename_i hone
        rwa [if_pos (hone.trans hle)]
      · cases hend
    · rename_i hsome
      rwa [if_neg hsome]
  · cases h

end Room

/-! ### The whole translation -/

section Whole

variable {path ext : Bool} {buf_end : ℕ} {out in_ t : Text} {before : UInt8}

theorem translateOrNull_of_room (hdots : TellsDots path before (components SLASH in_))
    (hout : path = false → out = []) (htype : NoType ext (components SLASH in_))
    (hroom : out.length + in_.length < buf_end) :
    translateOrNull ext buf_end out before in_ path = 
      some (if goesHome (components SLASH in_) = true then [AT] else mapped path out (components SLASH in_)) := by
  have hsep := sep_not_mem SLASH in_
  have hjoin : join SLASH (components SLASH in_) = in_ := join_components SLASH in_
  have hcs : components SLASH in_ ≠ [] := List.splitOn_ne_nil SLASH in_
  obtain ⟨s', hrun, hwritten, hend⟩ := transLoop_path hdots hcs hsep hout (Nat.le_refl _)
    (show out.length + (join SLASH (components SLASH in_)).length ≤ buf_end by rw [hjoin]; omega)
  rw [hjoin] at hrun
  rw [translateOrNull, if_pos (by omega), hrun, Option.bind_some]
  dsimp only
  by_cases hhome : goesHome (components SLASH in_) = true
  · rw [if_pos hhome] at hwritten ⊢
    have hstrip : stripDots s'.out = [AT] := by rw [hwritten]; rfl
    rw [hstrip, if_neg (fun hnil => nomatch hnil.1), removeType_eq hend htype (Or.inr rfl)]
  · rw [if_neg hhome] at hwritten ⊢
    rw [← stripDots_lead hsep hout, ← hwritten]
    by_cases hnil : stripDots s'.out = [] ∧ path = false
    · have hone : (stripDots s'.out).length + 1 ≤ buf_end := by
        rw [hnil.1, List.length_nil]
        omega
      rw [if_pos hnil, if_pos hone, if_pos hnil, removeType_eq hend htype (Or.inr rfl)]
    · rw [if_neg hnil, if_neg hnil, removeType_eq hend htype (Or.inl rfl)]

theorem startsInSlash_concat {cs : List Text} (hsome : cs.filterMap image ≠ []) :
    startsInSlash (cs ++ [[]]) = startsInSlash cs := by
  induction cs with
  | nil => exact absurd rfl hsome
  | cons c cs ih =>
    cases cs with
    | nil =>
      have hc : c ≠ [] ∧ c ≠ CURDIR := by
        constructor
        all_goals
          rintro rfl
          exact hsome rfl
      exact startsInSlash_of_ne hc
    | cons d cs =>
      rw [List.cons_append, List.cons_append, startsInSlash, startsInSlash]
      by_cases hcur : c = CURDIR
      · subst hcur
        rw [← ih hsome, List.cons_append]
      · rw [decide_eq_false hcur, Bool.false_and, Bool.false_and]

/-- **A slash at the end changes nothing** in what a path becomes. -/
theorem mapped_concat {cs : List Text} (hcs : cs ≠ []) (hcur : cs ≠ [CURDIR]) (hout : path = false → out = []) :
    mapped path out (cs ++ [[]]) = mapped path out cs := by
  have hstart : startsInCur (cs ++ [[]]) = startsInCur cs := by
    match cs, hcs, hcur with
    | [c], _, hcur => exact decide_eq_false fun heq => hcur (heq ▸ rfl)
    | c :: d :: cs, _, _ => rfl
  have himages : images path (cs ++ [[]]) = images path cs := by
    rw [images, images, hstart, List.filterMap_append]
    congr 1
    exact List.append_nil _
  rw [mapped, mapped, himages]
  by_cases hnone : images path cs = []
  · rw [if_pos hnone, if_pos hnone]
  · rw [if_neg hnone, if_neg hnone]
    cases path with
    | false =>
      -- Nothing stands in front.
      obtain rfl := hout rfl
      rw [separated, separated, if_neg (fun hmore => hmore.2.1 rfl), if_neg (fun hmore => hmore.2.1 rfl)]
    | true =>
      have hsome : cs.filterMap image ≠ [] := by
        intro hnil
        rw [images, if_neg (fun hboth => nomatch hboth.2)] at hnone
        exact hnone hnil
      rw [separated, separated, startsInSlash_concat hsome]

/-- **What `translate_or_null` returns is the path, component by component**, or `@` for `foo/..`; where
there is room it returns; and slashes at the end change nothing. -/
theorem translateOrNull_eq (hdots : TellsDots path before (components SLASH in_))
    (hout : path = false → out = []) (htype : NoType ext (components SLASH in_)) :
    (∀ t, translateOrNull ext buf_end out before in_ path = some t →
      t = if goesHome (components SLASH in_) = true then [AT] else mapped path out (components SLASH in_)) ∧
    (out.length + in_.length < buf_end → (translateOrNull ext buf_end out before in_ path).isSome = true) ∧
    mapped path out (components SLASH (in_ ++ [SLASH])) = mapped path out (components SLASH in_) := by
  refine ⟨?_, ?_, ?_⟩
  · intro t ht
    have hmore := translateOrNull_mono (Nat.le_add_right buf_end (out.length + in_.length + 1)) ht
    rw [translateOrNull_of_room hdots hout htype (by omega)] at hmore
    exact (Option.some.inj hmore).symm
  · intro hroom
    rw [translateOrNull_of_room hdots hout htype hroom]
    rfl
  · have hcs : components SLASH in_ ≠ [] := List.splitOn_ne_nil SLASH in_
    have hsep : ∀ c ∈ components SLASH in_ ++ [[]], SLASH ∉ c := by
      intro c hc
      rcases List.mem_append.mp hc with hc | hc
      · exact sep_not_mem SLASH in_ c hc
      · rw [List.mem_singleton.mp hc]
        exact List.not_mem_nil
    have hslash : components SLASH (in_ ++ [SLASH]) = components SLASH in_ ++ [[]] := by
      have hwhole := components_join hsep (List.append_ne_nil_of_left_ne_nil hcs [[]])
      rwa [join_concat hcs, join_components] at hwhole
    rw [hslash]
    exact mapped_concat hcs hdots.alone.1 hout

theorem translateOrNull_eq_dots :
    (∀ t, translateOrNull true 255 [] 0 (textOf "./../.plan//e..") false = some t →
      t = if goesHome (components SLASH (textOf "./../.plan//e..")) = true then [AT]
        else mapped false [] (components SLASH (textOf "./../.plan//e.."))) ∧
    (([] : Text).length + (textOf "./../.plan//e..").length < 255 →
      (translateOrNull true 255 [] 0 (textOf "./../.plan//e..") false).isSome = true) ∧
    mapped false [] (components SLASH (textOf "./../.plan//e.." ++ [SLASH])) =
      mapped false [] (components SLASH (textOf "./../.plan//e..")) :=
  translateOrNull_eq ⟨by decide, by decide, by decide, by decide⟩ (fun _ => rfl) (by
    rintro - w hw hlong
    have hlast : (components SLASH (textOf "./../.plan//e..")).getLast? = some (textOf "e..") := by decide
    obtain rfl := Option.some.inj (hlast.symm.trans hw)
    exact absurd hlong (by decide))

/-- `foo/..` -/
theorem fooUp_not_mapped : ¬∀ (in_ : Text) (buf_end : ℕ), in_.length < buf_end →
    translateOrNull false buf_end [] 0 in_ false = some (mapped false [] (components SLASH in_)) := by
  intro hall
  have hone := hall (textOf "foo/..") 255 (by decide)
  exact absurd hone (by decide)

example : mapped false [] (components SLASH (textOf "././/./c.cool/")) = textOf "@.c/cool" := by decide

end Whole

end UnixLib
