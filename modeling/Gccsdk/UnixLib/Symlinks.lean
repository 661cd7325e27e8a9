import Gccsdk.Lib.CText
import Gccsdk.Lib.LittleEndian
import Gccsdk.UnixLib.SpecialDirs

/-!
# Symbolic links

`__resolve_symlinks` of `symlinks.c`: while the name is that of a link file, its place is taken by what the file holds.
A link file is a word `LINK`, the length of the target, and the target. The target is read to a buffer that is kept
from call to call, and grows.

The code never leaves its buffers, and it ends after `SYMLINK_MAX_LINKS` links (`turn_keeps`, `loop_keeps`). But it
does not ask how many bytes it has been given: behind the end of a link file that is too short, the target goes on
with what was in the buffer before. So the name is right where the links are whole (`resolve_symlinks_followed`).
-/

namespace UnixLib.Symlinks

open CheckedRun CText LittleEndian

def SYMLINK_FILETYPE : ℕ := 0x1C8

/-- `SYMLINK_MAX_LINKS`, "Arbitrary limit to prevent cyclical links." -/
def SYMLINK_MAX_LINKS : ℕ := 64

/-- `SYMLINK_ID`, "ASCII representation of 'LINK'." -/
def SYMLINK_ID : BitVec 32 := 0x4B4E494C

/-- `:` -/
abbrev COLON : UInt8 := 0x3A

/-- An object of the file system, as `OS_File` 23 and `OS_GBPB` show it; the type 0 is for one that is not there. -/
structure File where
  type : ℕ
  filetype : ℕ
  content : List UInt8

def File.IsLink (file : File) : Prop := file.type ≠ 0 ∧ file.filetype = SYMLINK_FILETYPE

instance (file : File) : Decidable file.IsLink := inferInstanceAs (Decidable (_ ∧ _))

/-- **What the code is told**: the objects and, for each link, which calls fail, what its locals hold before
they are read to, and the memory that it is given. -/
structure Os where
  file : Text → File
  info_fails : ℕ → Bool
  open_fails : ℕ → Bool
  id_fails : ℕ → Bool
  size_fails : ℕ → Bool
  data_fails : ℕ → Bool
  id : ℕ → BitVec 32
  size : ℕ → BitVec 32
  malloc : ℕ → ℕ → Option (List UInt8)
  malloc_length : ∀ k n block, malloc k n = some block → block.length = n

/-- `buffer` and `bufsize`: "We're reusing our buffer." -/
structure LinkBuffer where
  buffer : List UInt8
  bufsize : ℕ

/-- The variables of the loop; `opened` counts the links that have been looked into. -/
structure Links where
  filename_out : List UInt8
  link : LinkBuffer
  link_count : ℕ
  opened : ℕ

inductive Turn
  /-- `return` -/
  | ret (code : ℤ) (s : Links)
  | next (s : Links)

/-! ### `__resolve_symlinks` -/

/-- `SWI_OS_GBPB_ReadBytes`, with the rest of the file: what is not there is not read, and is not reported. -/
def readBytes (block rest : List UInt8) (n : ℕ) : Run (List UInt8 × List UInt8) :=
  if n ≤ block.length then pure (rest.take n ++ block.drop (rest.take n).length, rest.drop n) else throw .outside

def readWord (block : List UInt8) : Run (BitVec 32) :=
  match wordAt block 0 with
  | some w => pure w
  | none => throw .outside

/-- `sep`: the last `.`, or else the last `:`. -/
def sepOf (name : Text) : Option ℕ :=
  match strrchr DOT name with
  | some sep => some sep
  | none => strrchr COLON name

/-- The target is copied to the output, with its NUL, and the link is done. -/
def copyTarget (one_step_only : Bool) (start size : ℕ) (s : Links) : Run Turn := do
  let target ← loads s.link.buffer 0 (size + 1)
  let filename_out ← stores s.filename_out start target
  let s := { s with filename_out := filename_out, link_count := s.link_count + 1 }
  pure (if one_step_only then .ret 0 s else .next s)

/-- "Cases to consider": the target takes the place of the name, or of its leafname. -/
def place (fn_out_size : ℕ) (one_step_only : Bool) (name : Text) (size : ℕ) (s : Links) : Run Turn := do
  let target ← readStr s.link.buffer
  match if COLON ∈ target then none else sepOf name with
  | none =>
    if (size + 1) % 2 ^ 32 > fn_out_size then pure (.ret (-1) s)
    else copyTarget one_step_only 0 size s
  | some sep =>
    if (sep + size + 2) % 2 ^ 32 > fn_out_size then pure (.ret (-1) s)
    else copyTarget one_step_only (sep + 1) size s

/-- "Our buffer is too small." -/
def grow (os : Os) (fn_out_size size : ℕ) (s : Links) : Bool × Links :=
  if s.link.bufsize ≤ size then
    if fn_out_size ≤ size then (false, s)
    else
      let bufsize := if size < MAXPATHLEN then MAXPATHLEN else (size + 1) % 2 ^ 32
      match os.malloc s.link_count bufsize with
      | none => (false, { s with link := ⟨[], 0⟩ })
      | some buffer => (true, { s with link := ⟨buffer, bufsize⟩ })
  else (true, s)

def readTarget (os : Os) (fn_out_size : ℕ) (one_step_only : Bool) (name : Text) (size : ℕ) (rest : List UInt8)
    (s : Links) : Run Turn := do
  let (block, _) ← readBytes s.link.buffer rest size
  if os.data_fails s.link_count then pure (.ret (-1) { s with link := ⟨block, s.link.bufsize⟩ })
  else do
    let block ← store block size 0
    place fn_out_size one_step_only name size { s with link := ⟨block, s.link.bufsize⟩ }

/-- `size` is read. -/
def readSize (os : Os) (fn_out_size : ℕ) (one_step_only : Bool) (name : Text) (rest : List UInt8) (s : Links) :
    Run Turn := do
  let (size, rest) ← readBytes (bytes (os.size s.link_count)) rest 4
  let size ← readWord size
  if os.size_fails s.link_count then pure (.ret (-1) s)
  else
    match grow os fn_out_size size.toNat s with
    | (false, s) => pure (.ret (-1) s)
    | (true, s) => readTarget os fn_out_size one_step_only name size.toNat rest s

/-- The link is opened, and `id` is read. -/
def readLink (os : Os) (fn_out_size : ℕ) (one_step_only : Bool) (name : Text) (s : Links) : Run Turn := do
  let s := { s with opened := s.opened + 1 }
  if os.open_fails s.link_count then pure (.ret (-1) s)
  else do
    let (id, rest) ← readBytes (bytes (os.id s.link_count)) (os.file name).content 4
    let id ← readWord id
    if os.id_fails s.link_count = true ∨ id ≠ SYMLINK_ID then pure (.ret (-1) s)
    else readSize os fn_out_size one_step_only name rest s

def turn (os : Os) (fn_out_size : ℕ) (one_step_only : Bool) (s : Links) : Run Turn := do
  let name ← readStr s.filename_out
  if os.info_fails s.link_count then pure (.ret (-1) s)
  else if ¬(os.file name).IsLink then pure (.ret 0 s)
  else if SYMLINK_MAX_LINKS ≤ s.link_count then pure (.ret (-1) s)
  else readLink os fn_out_size one_step_only name s

/-- `while (1)` -/
def loop (os : Os) (fn_out_size : ℕ) (one_step_only : Bool) : (turns : ℕ) → Links → Run (ℤ × Links)
  | 0, _ => throw .endless
  | turns + 1, s => do
    match ← turn os fn_out_size one_step_only s with
    | .ret code s => pure (code, s)
    | .next s => loop os fn_out_size one_step_only turns s

/-- **`__resolve_symlinks`**, with as many turns as there can be. -/
def resolve_symlinks (os : Os) (filename_in : Text) (filename_out : List UInt8) (fn_out_size : ℕ)
    (one_step_only : Bool) (link : LinkBuffer) : Run (ℤ × Links) :=
  if filename_in.length + 1 > fn_out_size then pure (-1, ⟨filename_out, link, 0, 0⟩)
  else do
    let filename_out ← stores filename_out 0 (filename_in ++ [0])
    loop os fn_out_size one_step_only (SYMLINK_MAX_LINKS + 1) ⟨filename_out, link, 0, 0⟩

/-! ### Following links -/

def linkTarget (file : File) : Option Text := do
  let size ← wordAt file.content 4
  pure (cstr ((file.content.drop 8).take size.toNat))

/-- A name without its leafname: up to the last `.`, or else up to the last `:`. -/
def dirOf (name : Text) : Text :=
  if DOT ∈ name then name.rdropWhile (· ≠ DOT) else name.rdropWhile (· ≠ COLON)

/-- **A target, from the name of its link**: a relative one takes the place of the leafname. -/
def follow (name target : Text) : Text := if COLON ∈ target then target else dirOf name ++ target

def followLink (file : Text → File) (name : Text) : Option Text :=
  if (file name).IsLink then (linkTarget (file name)).map (follow name) else none

/-- The name that `n` links lead to. -/
def chain (file : Text → File) (name : Text) : ℕ → Option Text
  | 0 => some name
  | n + 1 => (chain file name n).bind (followLink file)

/-- **The output is the name that the links lead to**: all of them, up to what is no link, or the first one. -/
def Followed (file : Text → File) (one_step_only : Bool) (name out : Text) : Prop :=
  ∃ n ≤ SYMLINK_MAX_LINKS, chain file name n = some out ∧
    (¬(file out).IsLink ∨ one_step_only = true ∧ n = 1)

/-- **The link is whole**: the length of the target is there, and so is the target, or its end. -/
def File.Whole (file : File) : Prop :=
  ∃ size, wordAt file.content 4 = some size ∧
    (size.toNat ≤ (file.content.drop 8).length ∨ 0 ∈ file.content.drop 8)

def linkLimit (one_step_only : Bool) : ℕ := if one_step_only then 1 else SYMLINK_MAX_LINKS

/-- All links that `name` leads to are whole. -/
def LinksWhole (file : Text → File) (one_step_only : Bool) (name : Text) : Prop :=
  ∀ n < linkLimit one_step_only, ∀ at_, chain file name n = some at_ → (file at_).IsLink → (file at_).Whole

/-! ### The buffers -/

/-- **The buffers are as they are said to be**, and so many links have been looked into. -/
structure Kept (fn_out_size : ℕ) (s : Links) : Prop where
  out : s.filename_out.length = fn_out_size
  sized : s.link.buffer.length = s.link.bufsize
  bound : s.opened ≤ SYMLINK_MAX_LINKS

/-- In front of a turn there is a name, and all links have been followed; both buffers are in the address space. -/
structure AtTurn (fn_out_size : ℕ) (s : Links) : Prop extends Kept fn_out_size s where
  ended : 0 ∈ s.filename_out
  space : s.link.bufsize + fn_out_size < 2 ^ 32
  count : s.opened = s.link_count

structure Reading (fn_out_size : ℕ) (s : Links) : Prop extends Kept fn_out_size s where
  ended : 0 ∈ s.filename_out
  space : s.link.bufsize + fn_out_size < 2 ^ 32
  count : s.opened = s.link_count + 1

/-- **What is behind a link**: if the code goes on, or is done with it, then `right` is so of the name. -/
def Turn.Gives (fn_out_size : ℕ) (one_step_only : Bool) (count : ℕ) (right : Text → Prop) : Turn → Prop
  | .ret code s => Kept fn_out_size s ∧ (code = 0 → one_step_only = true ∧ right (cstr s.filename_out))
  | .next s => one_step_only = false ∧ AtTurn fn_out_size s ∧ s.link_count = count + 1 ∧ right (cstr s.filename_out)

variable {fn_out_size : ℕ} {s : Links} {right : Text → Prop}

theorem gives_error {one : Bool} {count : ℕ}
    (h : Kept fn_out_size s) : (Turn.ret (-1) s).Gives fn_out_size one count right :=
  ⟨h, nofun⟩

theorem readBytes_eq {block rest : List UInt8} {n : ℕ} (h : n ≤ block.length) :
    readBytes block rest n = .ok (rest.take n ++ block.drop (rest.take n).length, rest.drop n) := if_pos h

theorem length_readBytes {block : List UInt8} {n : ℕ} (rest : List UInt8) (h : n ≤ block.length) :
    (rest.take n ++ block.drop (rest.take n).length).length = block.length := by
  have hle : (rest.take n).length ≤ n := List.length_take_le n rest
  rw [List.length_append, List.length_drop]
  omega

theorem exists_readWord {block : List UInt8} (h : block.length = 4) :
    ∃ w, readWord block = .ok w ∧ wordAt block 0 = some w := by
  have hroom : 0 + 4 ≤ block.length := by omega
  obtain ⟨w, hw, -⟩ := wordAt_of_le hroom
  refine ⟨w, ?_, hw⟩
  rw [readWord, hw]
  rfl

variable {name : Text}

theorem sepOf_eq {sep : ℕ} (h : sepOf name = some sep) :
    sep < name.length ∧ name.take (sep + 1) = dirOf name := by
  rw [sepOf] at h
  cases hdot : strrchr DOT name with
  | some i =>
    rw [hdot] at h
    obtain rfl := Option.some.inj h
    have hmem : DOT ∈ name := by
      by_contra hnot
      rw [strrchr_eq_none.mpr hnot] at hdot
      cases hdot
    rw [dirOf, if_pos hmem]
    exact take_strrchr hdot
  | none =>
    rw [hdot] at h
    rw [dirOf, if_neg (strrchr_eq_none.mp hdot)]
    exact take_strrchr h

theorem dirOf_of_none (h : sepOf name = none) : dirOf name = [] := by
  rw [sepOf] at h
  cases hdot : strrchr DOT name with
  | some i =>
    rw [hdot] at h
    cases h
  | none =>
    rw [hdot] at h
    rw [dirOf, if_neg (strrchr_eq_none.mp hdot)]
    exact rdropWhile_of_notMem (strrchr_eq_none.mp h)

theorem copyTarget_gives {fn_out_size size start : ℕ} {data tail : List UInt8}
    (one : Bool) (hs : Reading fn_out_size s) (hbuf : s.link.buffer = data ++ 0 :: tail) (hsize : data.length = size)
    (hroom : start + size + 1 ≤ fn_out_size) (hfront : 0 ∉ s.filename_out.take start)
    (hright : right (s.filename_out.take start ++ cstr data)) :
    ∃ t, copyTarget one start size s = .ok t ∧ t.Gives fn_out_size one s.link_count right := by
  have hlen : (data ++ [0]).length = size + 1 := by rw [List.length_append, hsize]; rfl
  have hload : loads s.link.buffer 0 (size + 1) = .ok (data ++ [0]) := by
    have hsplit : data ++ 0 :: tail = (data ++ [0]) ++ tail := by rw [List.append_assoc]; rfl
    rw [hbuf, hsplit, loads_eq (by rw [List.length_append, hlen]; omega), List.drop_zero, ← hlen, List.take_left]
  have hout := hs.out
  have hfits : start + (data ++ [0]).length ≤ s.filename_out.length := by rw [hlen]; omega
  have hstore := stores_eq hfits
  have hkeep := length_stores hfits
  generalize hnew : s.filename_out.take start ++ (data ++ [0]) ++ s.filename_out.drop (start + (data ++ [0]).length) =
    new at hstore hkeep
  have hcstr : cstr new = s.filename_out.take start ++ cstr data := by
    rw [← hnew, List.append_assoc, List.append_assoc, cstr_append hfront]
    exact congrArg _ (cstr_append_end _ _)
  have hmem : 0 ∈ new := by
    rw [← hnew]
    simp
  rw [copyTarget, hload, ok_bind, hstore, ok_bind]
  cases one with
  | true => exact ⟨_, rfl, ⟨hkeep.trans hout, hs.sized, hs.bound⟩, fun _ => ⟨rfl, hcstr ▸ hright⟩⟩
  | false => exact ⟨_, rfl, rfl, ⟨⟨hkeep.trans hout, hs.sized, hs.bound⟩, hmem, hs.space, hs.count⟩, rfl, hcstr ▸ hright⟩

/-- **The target is put in its place**; no sum of lengths is too large for a word, as both buffers are in the address
space. -/
theorem place_gives {fn_out_size size : ℕ} {data tail : List UInt8}
    (one : Bool) (hs : Reading fn_out_size s) (hbuf : s.link.buffer = data ++ 0 :: tail) (hsize : data.length = size)
    (hname : name = cstr s.filename_out) (hright : right (follow name (cstr data))) :
    ∃ t, place fn_out_size one name size s = .ok t ∧ t.Gives fn_out_size one s.link_count right := by
  have hread : readStr s.link.buffer = .ok (cstr data) := by
    rw [hbuf, readStr_eq (List.mem_append_right _ List.mem_cons_self), cstr_append_end]
  have hlen := congrArg List.length hbuf
  rw [List.length_append, List.length_cons, hs.sized, hsize] at hlen
  have hspace := hs.space
  have hlt := length_cstr_lt hs.ended
  rw [hs.out, ← hname] at hlt
  rw [place, hread, ok_bind]
  cases hsep : if COLON ∈ cstr data then none else sepOf name with
  | none =>
    -- an absolute target, or a name that is a leafname
    have hfollow : follow name (cstr data) = cstr data := by
      rw [follow]
      split
      · rfl
      · next hcolon =>
        rw [if_neg hcolon] at hsep
        rw [dirOf_of_none hsep, List.nil_append]
    change ∃ t, (if (size + 1) % 2 ^ 32 > fn_out_size then pure (.ret (-1) s) else copyTarget one 0 size s) = _ ∧ _
    rw [Nat.mod_eq_of_lt (by omega)]
    by_cases hroom : size + 1 > fn_out_size
    · rw [if_pos hroom]
      exact ⟨_, rfl, gives_error hs.toKept⟩
    · rw [if_neg hroom]
      refine copyTarget_gives one hs hbuf hsize (by omega) List.not_mem_nil ?_
      rw [hfollow] at hright
      exact hright
  | some sep =>
    have hcolon : COLON ∉ cstr data := by
      intro h
      rw [if_pos h] at hsep
      cases hsep
    rw [if_neg hcolon] at hsep
    obtain ⟨hsepLt, hdir⟩ := sepOf_eq hsep
    have hfront : s.filename_out.take (sep + 1) = dirOf name := by
      rw [take_of_le_length hs.ended (by rw [← hname]; omega), ← hname, hdir]
    change ∃ t, (if (sep + size + 2) % 2 ^ 32 > fn_out_size then pure (.ret (-1) s)
      else copyTarget one (sep + 1) size s) = _ ∧ _
    rw [Nat.mod_eq_of_lt (by omega)]
    by_cases hroom : sep + size + 2 > fn_out_size
    · rw [if_pos hroom]
      exact ⟨_, rfl, gives_error hs.toKept⟩
    · rw [if_neg hroom]
      refine copyTarget_gives one hs hbuf hsize (by omega) ?_ ?_
      · rw [hfront, ← hdir, hname]
        exact fun h => zero_notMem_cstr _ (List.mem_of_mem_take h)
      · rw [follow, if_neg hcolon] at hright
        rw [hfront]
        exact hright

/-- **What is read of a target**: it is the one that the file holds if all of it is there, or its end, or if the byte
of the buffer behind what is there happens to be a NUL. -/
theorem cstr_read_iff {block rest : List UInt8} {size : ℕ} (hroom : size ≤ block.length) :
    cstr ((rest.take size ++ block.drop (rest.take size).length).take size) = cstr (rest.take size) ↔
      size ≤ rest.length ∨ 0 ∈ rest ∨ block[rest.length]? = some 0 := by
  by_cases hsize : size ≤ rest.length
  · have hlen : (rest.take size).length = size := List.length_take_of_le hsize
    rw [List.take_append_of_le_length (by omega), List.take_of_length_le (Nat.le_of_eq hlen)]
    exact iff_of_true rfl (Or.inl hsize)
  · have hall : rest.take size = rest := List.take_of_length_le (by omega)
    rw [hall, List.take_append, hall, or_iff_right hsize]
    by_cases hmem : 0 ∈ rest
    · exact iff_of_true (cstr_append_of_mem hmem _) (Or.inl hmem)
    · -- behind the file the buffer has at least one byte
      have hbyte : rest.length < block.length := by omega
      obtain ⟨left, hleft⟩ : ∃ left, size - rest.length = left + 1 := ⟨size - rest.length - 1, by omega⟩
      rw [cstr_append hmem, cstr_of_notMem hmem, List.append_right_eq_self, or_iff_right hmem, hleft,
        List.drop_eq_getElem_cons hbyte, List.take_succ_cons, List.getElem?_eq_getElem hbyte]
      change (block[rest.length] :: _).takeWhile _ = [] ↔ _
      rw [List.takeWhile_cons]
      by_cases hzero : block[rest.length] = 0
      · rw [if_neg (by simp [hzero]), hzero]
        exact iff_of_true rfl rfl
      · rw [if_pos (by simp [hzero])]
        exact iff_of_false nofun fun h => hzero (Option.some.inj h)

variable {os : Os}

theorem readTarget_gives {fn_out_size size : ℕ} {rest : List UInt8}
    (one : Bool) (hs : Reading fn_out_size s) (hsize : size < s.link.bufsize)
    (hname : name = cstr s.filename_out)
    (hright : ∀ target, ((size ≤ rest.length ∨ 0 ∈ rest) → target = cstr (rest.take size)) → right (follow name target)) :
    ∃ t, readTarget os fn_out_size one name size rest s = .ok t ∧ t.Gives fn_out_size one s.link_count right := by
  have hle : size ≤ s.link.buffer.length := by rw [hs.sized]; omega
  have hkeep := length_readBytes rest hle
  rw [readTarget, readBytes_eq hle, ok_bind]
  dsimp only
  generalize hblock : rest.take size ++ s.link.buffer.drop (rest.take size).length = block at hkeep
  have hsized : block.length = s.link.bufsize := hkeep.trans hs.sized
  by_cases hfail : os.data_fails s.link_count = true
  · rw [if_pos hfail]
    exact ⟨_, rfl, gives_error ⟨hs.out, hsized, hs.bound⟩⟩
  · rw [if_neg hfail, store, if_pos (by omega)]
    change ∃ t, place fn_out_size one name size
      { s with link := ⟨block.set size 0, s.link.bufsize⟩ } = _ ∧ _
    refine place_gives one ⟨⟨hs.out, (List.length_set ..).trans hsized, hs.bound⟩, hs.ended, hs.space, hs.count⟩
      (List.set_eq_take_append_cons_drop.trans (if_pos (by omega))) (List.length_take_of_le (by omega)) hname ?_
    refine hright _ fun hwhole => ?_
    rw [← hblock]
    exact (cstr_read_iff hle).mpr (hwhole.imp_right Or.inl)

/-- **The buffer is large enough** behind `grow`, or the code gives up. -/
theorem grow_cases (size : ℕ) (hs : Reading fn_out_size s)
    (hmalloc : ∀ k n block, os.malloc k n = some block → n + fn_out_size < 2 ^ 32) :
    (∃ s', grow os fn_out_size size s = (false, s') ∧ Kept fn_out_size s') ∨
      ∃ link, grow os fn_out_size size s = (true, { s with link := link }) ∧
        Reading fn_out_size { s with link := link } ∧ size < link.bufsize := by
  rw [grow]
  by_cases hsmall : s.link.bufsize ≤ size
  · rw [if_pos hsmall]
    by_cases hlarge : fn_out_size ≤ size
    · rw [if_pos hlarge]
      exact Or.inl ⟨s, rfl, hs.toKept⟩
    · rw [if_neg hlarge]
      have hspace := hs.space
      generalize hn : (if size < MAXPATHLEN then MAXPATHLEN else (size + 1) % 2 ^ 32) = n
      have hsize : size < n := by
        rw [← hn]
        split
        · assumption
        · rw [Nat.mod_eq_of_lt (by omega)]
          exact Nat.lt_succ_self size
      dsimp only
      cases hblock : os.malloc s.link_count n with
      | none => exact Or.inl ⟨_, rfl, hs.out, rfl, hs.bound⟩
      | some block =>
        refine Or.inr ⟨⟨block, n⟩, rfl, ⟨⟨hs.out, os.malloc_length _ _ _ hblock, hs.bound⟩, hs.ended, ?_, hs.count⟩, hsize⟩
        exact hmalloc _ _ _ hblock
  · rw [if_neg hsmall]
    exact Or.inr ⟨s.link, rfl, hs, Nat.lt_of_not_le hsmall⟩

theorem readWord_eq {rest : List UInt8} {w : BitVec 32} (h : wordAt rest 0 = some w) (local_ : BitVec 32) :
    readWord (rest.take 4 ++ (bytes local_).drop (rest.take 4).length) = .ok w := by
  rw [wordAt, List.drop_zero] at h
  split at h
  · next b0 b1 b2 b3 tail =>
    have hread : wordAt ((b0 :: b1 :: b2 :: b3 :: tail).take 4 ++
        (bytes local_).drop ((b0 :: b1 :: b2 :: b3 :: tail).take 4).length) 0 = some w := h
    rw [readWord, hread]
    rfl
  · cases h

theorem wordAt_drop (memory : List UInt8) (i j : ℕ) : wordAt (memory.drop i) j = wordAt memory (i + j) := by
  rw [wordAt, wordAt, List.drop_drop]

theorem File.Whole.target {file : File} (h : file.Whole) : ∃ size, wordAt file.content 4 = some size ∧
    (size.toNat ≤ (file.content.drop 8).length ∨ 0 ∈ file.content.drop 8) ∧
      linkTarget file = some (cstr ((file.content.drop 8).take size.toNat)) := by
  obtain ⟨size, hsize, hwhole⟩ := h
  refine ⟨size, hsize, hwhole, ?_⟩
  rw [linkTarget, hsize]
  rfl

theorem readSize_gives (one : Bool) (hs : Reading fn_out_size s)
    (hmalloc : ∀ k n block, os.malloc k n = some block → n + fn_out_size < 2 ^ 32)
    (hname : name = cstr s.filename_out) (hlink : (os.file name).IsLink) :
    ∃ t, readSize os fn_out_size one name ((os.file name).content.drop 4) s = .ok t ∧
      t.Gives fn_out_size one s.link_count
        (fun out => (os.file name).Whole → followLink os.file name = some out) := by
  generalize hrest : (os.file name).content.drop 4 = rest
  have hfour : 4 ≤ (bytes (os.size s.link_count)).length := Nat.le_of_eq rfl
  obtain ⟨w, hw, -⟩ := exists_readWord (length_readBytes rest hfour)
  rw [readSize, readBytes_eq hfour, ok_bind]
  dsimp only
  rw [hw, ok_bind]
  by_cases hfail : os.size_fails s.link_count = true
  · rw [if_pos hfail]
    exact ⟨_, rfl, gives_error hs.toKept⟩
  · rw [if_neg hfail]
    obtain ⟨s', hgrow, hkept⟩ | ⟨link, hgrow, hreading, hsize⟩ := grow_cases w.toNat hs hmalloc
    · rw [hgrow]
      exact ⟨_, rfl, gives_error hkept⟩
    · rw [hgrow]
      refine readTarget_gives one hreading hsize hname ?_
      intro target htarget hwhole
      obtain ⟨size, hread, hall, heq⟩ := hwhole.target
      -- the word that was read is the one of the file
      have hthere : wordAt rest 0 = some size := by rw [← hrest, wordAt_drop, hread]
      obtain rfl := Except.ok.inj ((readWord_eq hthere _).symm.trans hw)
      have hbehind : rest.drop 4 = (os.file name).content.drop 8 := by rw [← hrest, List.drop_drop]
      rw [hbehind] at htarget
      rw [followLink, if_pos hlink, heq, htarget hall]
      rfl

theorem readLink_gives (one : Bool) (hs : AtTurn fn_out_size s) (hcount : s.link_count < SYMLINK_MAX_LINKS)
    (hmalloc : ∀ k n block, os.malloc k n = some block → n + fn_out_size < 2 ^ 32)
    (hname : name = cstr s.filename_out) (hlink : (os.file name).IsLink) :
    ∃ t, readLink os fn_out_size one name s = .ok t ∧
      t.Gives fn_out_size one s.link_count
        (fun out => (os.file name).Whole → followLink os.file name = some out) := by
  have hopened : Reading fn_out_size { s with opened := s.opened + 1 } :=
    ⟨⟨hs.out, hs.sized, hs.count.symm ▸ hcount⟩, hs.ended, hs.space, congrArg (· + 1) hs.count⟩
  have hfour : 4 ≤ (bytes (os.id s.link_count)).length := Nat.le_of_eq rfl
  rw [readLink]
  dsimp only
  by_cases hopen : os.open_fails s.link_count = true
  · rw [if_pos hopen]
    exact ⟨_, rfl, gives_error hopened.toKept⟩
  · obtain ⟨w, hw, -⟩ := exists_readWord (length_readBytes (os.file name).content hfour)
    rw [if_neg hopen, readBytes_eq hfour, ok_bind]
    dsimp only
    rw [hw, ok_bind]
    by_cases hid : os.id_fails s.link_count = true ∨ w ≠ SYMLINK_ID
    · rw [if_pos hid]
      exact ⟨_, rfl, gives_error hopened.toKept⟩
    · rw [if_neg hid]
      exact readSize_gives one hopened hmalloc hname hlink

/-- **One turn**: the name is that of no link, there is an error, or the link is followed. -/
theorem turn_keeps (one : Bool) (hs : AtTurn fn_out_size s)
    (hmalloc : ∀ k n block, os.malloc k n = some block → n + fn_out_size < 2 ^ 32) :
    (turn os fn_out_size one s = .ok (.ret 0 s) ∧ ¬(os.file (cstr s.filename_out)).IsLink) ∨
      turn os fn_out_size one s = .ok (.ret (-1) s) ∨
      s.link_count < SYMLINK_MAX_LINKS ∧ (os.file (cstr s.filename_out)).IsLink ∧
        ∃ t, turn os fn_out_size one s = .ok t ∧ t.Gives fn_out_size one s.link_count
          (fun out => (os.file (cstr s.filename_out)).Whole → followLink os.file (cstr s.filename_out) = some out) := by
  rw [turn, readStr_eq hs.ended, ok_bind]
  by_cases hinfo : os.info_fails s.link_count = true
  · rw [if_pos hinfo]
    exact Or.inr (Or.inl rfl)
  · rw [if_neg hinfo]
    by_cases hlink : (os.file (cstr s.filename_out)).IsLink
    · rw [if_neg (not_not_intro hlink)]
      by_cases hcount : SYMLINK_MAX_LINKS ≤ s.link_count
      · rw [if_pos hcount]
        exact Or.inr (Or.inl rfl)
      · rw [if_neg hcount]
        have hlt := Nat.lt_of_not_le hcount
        exact Or.inr (Or.inr ⟨hlt, hlink, readLink_gives one hs hlt hmalloc rfl hlink⟩)
    · rw [if_pos hlink]
      exact Or.inl ⟨rfl, hlink⟩

theorem lt_linkLimit {one : Bool} {n : ℕ} (hn : n < SYMLINK_MAX_LINKS) (hone : one = true → n = 0) :
    n < linkLimit one := by
  cases one with
  | false => exact hn
  | true => exact (hone rfl).symm ▸ Nat.one_pos

/-- **The loop**: it ends, for there are turns enough; and if the links of `name` are whole, and have led to the name
that it is at, they lead to the name at the end. -/
theorem loop_keeps {one : Bool}
    (hmalloc : ∀ k n block, os.malloc k n = some block → n + fn_out_size < 2 ^ 32) (turns : ℕ) (s : Links)
    (hs : AtTurn fn_out_size s) (hturns : SYMLINK_MAX_LINKS < s.link_count + turns)
    (hone : one = true → s.link_count = 0)
    (hchain : LinksWhole os.file one name → chain os.file name s.link_count = some (cstr s.filename_out)) :
    ∃ code s', loop os fn_out_size one turns s = .ok (code, s') ∧ Kept fn_out_size s' ∧
      (code = 0 → LinksWhole os.file one name → Followed os.file one name (cstr s'.filename_out)) := by
  have hbound := hs.bound
  rw [hs.count] at hbound
  induction turns generalizing s with
  | zero => omega
  | succ turns ih =>
    rw [loop]
    obtain ⟨hturn, hend⟩ | hturn | ⟨hcount, hlink, t, hturn, hgives⟩ := turn_keeps one hs hmalloc
    · rw [hturn, ok_bind]
      exact ⟨0, s, rfl, hs.toKept, fun _ hwhole => ⟨s.link_count, hbound, hchain hwhole, Or.inl hend⟩⟩
    · rw [hturn, ok_bind]
      exact ⟨-1, s, rfl, hs.toKept, nofun⟩
    · rw [hturn, ok_bind]
      -- one link more, if it is whole
      have hnext {out : Text} (h : (os.file (cstr s.filename_out)).Whole →
          followLink os.file (cstr s.filename_out) = some out) (hwhole : LinksWhole os.file one name) :
          chain os.file name (s.link_count + 1) = some out := by
        rw [chain, hchain hwhole]
        exact h (hwhole _ (lt_linkLimit hcount hone) _ (hchain hwhole) hlink)
      cases t with
      | ret code s' =>
        refine ⟨code, s', rfl, hgives.1, fun hcode hwhole => ?_⟩
        obtain ⟨honce, hright⟩ := hgives.2 hcode
        refine ⟨s.link_count + 1, hcount, hnext hright hwhole, Or.inr ⟨honce, ?_⟩⟩
        rw [hone honce]
      | next s' =>
        obtain ⟨honce, hs', hlinks, hright⟩ := hgives
        refine ih s' hs' (by omega) (fun h => absurd (honce.symm.trans h) nofun) ?_ (by omega)
        intro hwhole
        rw [hlinks]
        exact hnext hright hwhole

/-- Both buffers are in the address space, whatever memory there is for the second one. -/
structure AddressSpace (os : Os) (fn_out_size : ℕ) (link : LinkBuffer) : Prop where
  link : link.bufsize + fn_out_size < 2 ^ 32
  malloc : ∀ k n block, os.malloc k n = some block → n + fn_out_size < 2 ^ 32

/-- **Resolving a name**: the call ends, within its buffers, behind `SYMLINK_MAX_LINKS` links or fewer. And if it is
successful, and the links are whole, the output is the name that they lead to. -/
theorem resolve_symlinks_followed {os : Os} {filename_in : Text} {filename_out : List UInt8} {link : LinkBuffer}
    (one_step_only : Bool) (hin : 0 ∉ filename_in) (hlink : link.buffer.length = link.bufsize)
    (hspace : AddressSpace os filename_out.length link) :
    ∃ code s, resolve_symlinks os filename_in filename_out filename_out.length one_step_only link = .ok (code, s) ∧
      Kept filename_out.length s ∧
      (code = 0 → LinksWhole os.file one_step_only filename_in →
        Followed os.file one_step_only filename_in (cstr s.filename_out)) := by
  rw [resolve_symlinks]
  by_cases hlong : filename_in.length + 1 > filename_out.length
  · rw [if_pos hlong]
    exact ⟨-1, _, rfl, ⟨rfl, hlink, Nat.zero_le _⟩, nofun⟩
  · have hroom : 0 + (filename_in ++ [0]).length ≤ filename_out.length := by
      rw [List.length_append, List.length_singleton]
      omega
    have hkeep := length_stores hroom
    rw [if_neg hlong, stores_eq hroom, ok_bind]
    rw [List.take_zero, List.nil_append] at hkeep ⊢
    generalize hout : filename_in ++ [0] ++ filename_out.drop (0 + (filename_in ++ [0]).length) = out at hkeep ⊢
    have hcstr : cstr out = filename_in := by
      rw [← hout, List.append_assoc]
      exact cstr_append_zero hin _
    refine loop_keeps hspace.malloc (SYMLINK_MAX_LINKS + 1) ⟨out, link, 0, 0⟩ ?_ ?_ (fun _ => rfl) ?_
    · refine ⟨⟨hkeep, hlink, Nat.zero_le _⟩, ?_, hspace.link, rfl⟩
      change 0 ∈ out
      rw [← hout]
      simp
    · exact Nat.lt_of_lt_of_eq (Nat.lt_succ_self SYMLINK_MAX_LINKS) (Nat.zero_add _).symm
    · intro _
      change some filename_in = some (cstr out)
      rw [hcstr]


/-! ### Two links, and a link that is too short -/

def linkFile (size : BitVec 32) (target : String) : File :=
  ⟨1, SYMLINK_FILETYPE, bytes SYMLINK_ID ++ bytes size ++ textOf target⟩

def quietOs (file : Text → File) : Os where
  file := file
  info_fails _ := false
  open_fails _ := false
  id_fails _ := false
  size_fails _ := false
  data_fails _ := false
  id _ := 0
  size _ := 0
  malloc _ n := if n ≤ 2048 then some (List.replicate n 0) else none
  malloc_length k n block h := by
    split at h
    · rw [← Option.some.inj h, List.length_replicate]
    · cases h

theorem quietOs_space (file : Text → File) : AddressSpace (quietOs file) 16 ⟨[], 0⟩ := by
  refine ⟨by decide, ?_⟩
  intro k n block h
  change (if n ≤ 2048 then _ else none) = some block at h
  split at h
  · omega
  · cases h

/-- `a` is a link to `b`. -/
def oneLink (name : Text) : File := if name = textOf "a" then linkFile 1 "b" else ⟨0, 0, []⟩

theorem oneLink_chain (n : ℕ) : chain oneLink (textOf "a") (n + 2) = none := by
  induction n with
  | zero => decide
  | succ n ih => rw [chain, ih]; rfl

theorem oneLink_whole : LinksWhole oneLink false (textOf "a") := by
  intro n hn at_ hat hlink
  match n with
  | 0 =>
    obtain rfl := Option.some.inj hat
    exact ⟨1, by decide, Or.inl (by decide)⟩
  | 1 =>
    obtain rfl := Option.some.inj ((show chain oneLink (textOf "a") 1 = some (textOf "b") by decide).symm.trans hat)
    exact absurd hlink (by decide)
  | n + 2 => exact absurd ((oneLink_chain n).symm.trans hat) nofun

theorem resolve_symlinks_followed_oneLink :
    ∃ s, resolve_symlinks (quietOs oneLink) (textOf "a") (List.replicate 16 0) 16 false ⟨[], 0⟩ = .ok (0, s) ∧
      Followed oneLink false (textOf "a") (cstr s.filename_out) := by
  obtain ⟨code, s, hres, -, hright⟩ := @resolve_symlinks_followed (quietOs oneLink) (textOf "a")
    (List.replicate 16 0) ⟨[], 0⟩ false (by decide) rfl (quietOs_space oneLink)
  have hrun : (resolve_symlinks (quietOs oneLink) (textOf "a") (List.replicate 16 0) 16 false ⟨[], 0⟩).map
      (fun r => r.1) = .ok 0 := by decide +kernel
  obtain ⟨⟨code', s'⟩, hres', rfl⟩ := map_eq_ok hrun
  obtain ⟨rfl, rfl⟩ := Prod.mk.inj (Except.ok.inj (hres'.symm.trans hres))
  exact ⟨s', hres', hright rfl oneLink_whole⟩

/-- `a` is a link to `bcde`, which is a link itself: it is to hold 3 characters, and ends after one. -/
def shortFiles (name : Text) : File :=
  if name = textOf "a" then linkFile 4 "bcde"
  else if name = textOf "bcde" then linkFile 3 "x"
  else ⟨0, 0, []⟩

/-- **The name is made up of two links**: `xcd` has `cd` of the link before, so that the links do not lead to it. -/
theorem short_not_followed :
    ∃ s, resolve_symlinks (quietOs shortFiles) (textOf "a") (List.replicate 16 0) 16 false ⟨[], 0⟩ = .ok (0, s) ∧
      cstr s.filename_out = textOf "xcd" ∧ ¬Followed shortFiles false (textOf "a") (textOf "xcd") := by
  have hrun : (resolve_symlinks (quietOs shortFiles) (textOf "a") (List.replicate 16 0) 16 false ⟨[], 0⟩).map
      (fun r => (r.1, cstr r.2.filename_out)) = .ok (0, textOf "xcd") := by decide +kernel
  obtain ⟨⟨code, s⟩, hres, heq⟩ := map_eq_ok hrun
  obtain ⟨rfl, hname⟩ := Prod.mk.inj heq
  refine ⟨s, hres, hname, ?_⟩
  rintro ⟨n, hn, hchain, -⟩
  have hnone : ∀ n < SYMLINK_MAX_LINKS + 1, chain shortFiles (textOf "a") n ≠ some (textOf "xcd") := by
    decide
  exact hnone n (Nat.lt_succ_of_le hn) hchain

end UnixLib.Symlinks
