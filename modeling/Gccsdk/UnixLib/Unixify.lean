import Gccsdk.Lib.WriteCursor
import Gccsdk.UnixLib.Symlinks

/-!
# Paths, from RISC OS to Unix

`__unixify`: a path is cut into directories at its dots, and they are written to the output one by one. The length of
the output is never compared with the room that there is, except for the file type at the end; what the buffer is
allocated with is "just an estimate", as the source says.

`needed` counts the bytes that are written: for a directory one more than its characters, but 1 for `$`, 3 for `^`
and 5 for `%`, and two more where it ends in `:^`. The call keeps to its buffers if and only if this many bytes are
there, all pieces fit into the temporaries, and a root directory at the very start does not find `:^` in front of the
buffer (`unixify_right_iff`).
-/

namespace UnixLib.Unixify

open CheckedRun WriteCursor

/-- `:` -/
abbrev COLON : UInt8 := 0x3A
/-- `^` -/
abbrev CARET : UInt8 := 0x5E
/-- `$` -/
abbrev DOLLAR : UInt8 := 0x24
/-- `%` -/
abbrev PERCENT : UInt8 := 0x25
/-- `@` -/
abbrev AT : UInt8 := 0x40

/-- `__RISCOSIFY_FILETYPE_NOTSPECIFIED` -/
def NOTSPECIFIED : BitVec 32 := -1

structure Flags where
  no_process : Bool
  no_reverse_suffix : Bool
  filetype_ext : Bool
  filetype_not_set : Bool

/-- **What the code finds**: the suffixes, the file types of MimeMap, the two bytes in front of the buffer, whether a
search in front of the buffer would ask for the extension, and memory. -/
structure Os where
  suffixes : List Text
  mimeMap : Text → Option (BitVec 32)
  before : UInt8 × UInt8
  belowNeeds : Bool
  malloc : ℕ → Option (List UInt8)
  malloc_length : ∀ n block, malloc n = some block → block.length = n

/-! ### The pieces of a path -/

/-- `t - input`: where the directory at the front ends. -/
def dirEnd (input : Text) : Option ℕ :=
  match input with
  | [0x2E] => none
  | 0x2E :: 0x2F :: _ => some 1
  | [0x2E, 0x2E] => none
  | 0x2E :: 0x2E :: 0x2F :: _ => some 2
  | _ => if DOT ∈ input then some (input.idxOf DOT) else none

def dirText (input : Text) : Text :=
  match dirEnd input with
  | some t => input.take t
  | none => input

/-- `get_directory_name`, to a temporary of 256 bytes. -/
def get_directory_name (input : Text) : Run (Text × Bool) :=
  if (dirText input).length < 256 then pure (dirText input, (dirEnd input).isSome) else throw .outside

def one_dot (name : Text) : Bool := name.count DOT = 1

local instance lawfulBEq_names : LawfulBEq (List UInt8) := inferInstance

def isPrefix (os : Os) (name : Text) : Bool := name.count DOT ≤ 1 ∧ name.takeWhile (· ≠ DOT) ∈ os.suffixes

def dirChars (i : Text) : Text :=
  match i with
  | [c] =>
    if c = DOLLAR then []
    else if c = CARET then [DOT, DOT]
    else if c = PERCENT then SLASH :: textOf "lib"
    else [c]
  | _ => i.map fun c => if c = SLASH then DOT else c

/-- `o[-2]` and `o[-1]` -/
def lastTwo (os : Os) (text : List UInt8) : UInt8 × UInt8 :=
  match text.reverse with
  | [] => os.before
  | [l] => (os.before.2, l)
  | l :: k :: _ => (k, l)

/-- "Look out for the :^ and :/ constructs." -/
def colonUp (os : Os) (b : Buf) : Run Buf :=
  if lastTwo os b.text = (COLON, CARET) then do
    let b ← setLast SLASH b
    puts [DOT, DOT] b
  else pure b

def endDirectory (os : Os) (b : Buf) : Run Buf := do
  let b ← put (if lastTwo os b.text = (COLON, SLASH) then DOT else SLASH) b
  here 0 b

def add_directory_name (os : Os) (i : Text) (b : Buf) : Run Buf := do
  let b ← puts (dirChars i) b
  let b ← colonUp os b
  endDirectory os b

def addDirectoryAndPrefix (dir pre : Text) (b : Buf) : Run Buf := do
  let b ← puts dir b
  let b ← put DOT b
  let b ← puts pre b
  here 0 b

/-! ### `__unixify` -/

def swaps (os : Os) (flags : Flags) (tempbuf name : Text) : Bool :=
  ¬flags.no_reverse_suffix ∧ (isPrefix os name ∨ isPrefix os tempbuf ∧ SLASH ∉ name)

/-- What is left has one dot: `tempbuf` in front of it, and `name` behind. -/
def addLast (os : Os) (flags : Flags) (tempbuf name : Text) (b : Buf) : Run Buf :=
  if ¬flags.no_reverse_suffix ∧ isPrefix os name then addDirectoryAndPrefix tempbuf name b
  else if ¬flags.no_reverse_suffix ∧ isPrefix os tempbuf ∧ SLASH ∉ name then
    addDirectoryAndPrefix name tempbuf b
  else do
    let b ← add_directory_name os tempbuf b
    let b ← add_directory_name os name b
    stepBack 0 b

def lastChars (tempbuf : Text) : Text :=
  match tempbuf with
  | [c] =>
    if c = CARET then [DOT, DOT, 0]
    else if c = PERCENT then SLASH :: textOf "lib" ++ [0]
    else [c, 0]
  | _ => tempbuf

def finish (tempbuf : Text) (flag : Bool) (b : Buf) : Run Buf :=
  if flag then pure b
  else if tempbuf.length = 1 then puts (lastChars tempbuf) b
  else do
    let b ← puts (lastChars tempbuf) b
    here 0 b

def dirLoop (os : Os) (flags : Flags) : (turns : ℕ) → Text → Bool → Buf → Run Buf
  | 0, _, _, _ => throw .endless
  | turns + 1, input, flag, b => do
    let dir ← get_directory_name input
    if dir.2 = false then finish dir.1 flag b
    else if one_dot input then do
      let name ← get_directory_name (input.drop (dir.1.length + 1))
      let b ← addLast os flags dir.1 name.1 b
      dirLoop os flags turns (input.drop (dir.1.length + 1)) true b
    else do
      let b ← add_directory_name os dir.1 b
      dirLoop os flags turns (input.drop (dir.1.length + 1)) flag b

/-- `strstr (ro_path, ".$")`, as an offset. -/
def rootAt : Text → Option ℕ
  | [] => none
  | c :: s => if c = DOT ∧ s.head? = some DOLLAR then some 0 else (rootAt s).map (· + 1)

/-- "Anything before this just specifies a file system": what is written at the start, and the input that is left. -/
def startOf (ro_path : Text) : Text × Text :=
  if ro_path.head? = some AT then ([], ro_path)
  else
    match rootAt ro_path with
    | some k =>
      (SLASH :: ro_path.take (k + 2) ++ (if ro_path.drop (k + 2) = [] then [SLASH] else []), ro_path.drop (k + 2))
    | none => (if COLON ∈ ro_path then [SLASH] else [], ro_path)

def hexDigit (n : BitVec 32) : UInt8 := (textOf "0123456789abcdef").getD n.toNat 0

def extensionOf (text : Text) : Option Text :=
  match text.reverse.findIdx? fun c => c = SLASH ∨ c = DOT with
  | some k =>
    if text.reverse.getD k 0 = DOT then some (CText.cstr (text.drop (text.length - 1 - k))) else none
  | none => none

/-- The extension of the name tells the file type already; where nothing has been written, it is searched for in front
of the buffer. -/
def typeIsKnown (os : Os) (filetype : BitVec 32) (text : List UInt8) : Bool :=
  if text = [] then !os.belowNeeds else (extensionOf text).bind os.mimeMap = some filetype

/-- `add_filetype`; `none` is for "return 0". -/
def add_filetype (os : Os) (flags : Flags) (filetype : BitVec 32) (b : Buf) : Run (Option Buf) :=
  if filetype = BitVec.ofNat 32 Symlinks.SYMLINK_FILETYPE then pure (some b)
  else if ¬flags.filetype_not_set ∧ typeIsKnown os filetype b.text then pure (some b)
  else if b.room.length ≤ 4 then pure none
  else do
    let b ← puts [0x2C, hexDigit (filetype >>> 8 &&& 0xF), hexDigit (filetype >>> 4 &&& 0xF),
      hexDigit (filetype &&& 0xF)] b
    let b ← here 0 b
    pure (some b)

def Flags.wantsType (flags : Flags) (filetype : BitVec 32) : Bool := flags.filetype_ext ∧ filetype ≠ NOTSPECIFIED

/-- "Fast case": what is written for these paths. -/
def fastCase (ro_path : Text) : Option Text :=
  if ro_path = [DOT] ∨ ro_path = [DOT, SLASH] ∨ ro_path = [AT] then some [DOT]
  else if ro_path = [DOT, DOT] ∨ ro_path = [DOT, DOT, SLASH] then some [DOT, DOT]
  else none

def process (os : Os) (flags : Flags) (filetype : BitVec 32) (ro_path : Text) (b : Buf) : Run (Option Buf) := do
  let b ← here 0 b
  match fastCase ro_path with
  | some out => do
    let b ← puts out b
    let b ← here 0 b
    pure (some b)
  | none => do
    let b ← puts (startOf ro_path).1 b
    let b ← dirLoop os flags (ro_path.length + 1) (startOf ro_path).2 false b
    if flags.wantsType filetype then add_filetype os flags filetype b else pure (some b)

def copies (flags : Flags) (ro_path : Text) : Bool := flags.no_process ∨ ro_path.head? = some SLASH

/-- `__unixify`, from where the buffer is there. -/
def unixifyTo (os : Os) (flags : Flags) (filetype : BitVec 32) (ro_path : Text) (block : List UInt8) :
    Run (Option Buf) :=
  if copies flags ro_path then
    if block.length ≤ ro_path.length then pure none
    else do
      let b ← puts (ro_path ++ [0]) ⟨[], block⟩
      pure (some b)
  else process os flags filetype ro_path ⟨[], block⟩

def estimate (flags : Flags) (filetype : BitVec 32) (ro_path : Text) : ℕ :=
  ro_path.length + 10 + (if flags.wantsType filetype then 4 else 0)

/-- **`__unixify`**; `none` is for NULL. -/
def unixify (os : Os) (flags : Flags) (filetype : BitVec 32) (ro_path : Text) (buffer : Option (List UInt8)) :
    Run (Option Buf) :=
  match buffer with
  | none =>
    match os.malloc (estimate flags filetype ro_path) with
    | none => pure none
    | some block => unixifyTo os flags filetype ro_path block
  | some block => if block.length = 0 then pure none else unixifyTo os flags filetype ro_path block

/-! ### The bytes that are needed -/

def dirLen (i : Text) : ℕ :=
  if i = [DOLLAR] then 1
  else if i = [CARET] then 3
  else if i = [PERCENT] then 5
  else i.length + 1 + (if [COLON, CARET] <:+ i then 2 else 0)

def lastLen (i : Text) : ℕ := if i = [CARET] then 3 else if i = [PERCENT] then 5 else i.length + 1

def lastTwoLen (os : Os) (flags : Flags) (tempbuf name : Text) : ℕ :=
  if swaps os flags tempbuf name then tempbuf.length + name.length + 2 else dirLen tempbuf + dirLen name + 1

def restLen (os : Os) (flags : Flags) : (turns : ℕ) → Text → ℕ
  | 0, _ => 0
  | turns + 1, input =>
    match dirEnd input with
    | none => lastLen input
    | some t =>
      if one_dot input then lastTwoLen os flags (input.take t) (input.drop (t + 1))
      else dirLen (input.take t) + restLen os flags turns (input.drop (t + 1))

def PiecesFit : (turns : ℕ) → Text → Prop
  | 0, _ => True
  | turns + 1, input =>
    (dirText input).length < 256 ∧
      match dirEnd input with
      | none => True
      | some t => PiecesFit turns (input.drop (t + 1))

/-- The first piece is written as a root directory, or as one without a name. -/
def RootFirst (os : Os) (flags : Flags) (input : Text) : Prop :=
  ∃ t, dirEnd input = some t ∧ dirChars (input.take t) = [] ∧
    ¬(one_dot input = true ∧ swaps os flags (input.take t) (input.drop (t + 1)) = true)

/-- **How many bytes the path needs.** -/
def needed (os : Os) (flags : Flags) (ro_path : Text) : ℕ :=
  match fastCase ro_path with
  | some out => out.length + 1
  | none => (startOf ro_path).1.length + restLen os flags (ro_path.length + 1) (startOf ro_path).2

/-- **The path fits into `n` bytes**, its pieces fit into the temporaries, and what is in front of the buffer does not
matter. -/
def Fits (os : Os) (flags : Flags) (ro_path : Text) (n : ℕ) : Prop :=
  copies flags ro_path = true ∨
    needed os flags ro_path ≤ n ∧
      (fastCase ro_path = none → PiecesFit (ro_path.length + 1) (startOf ro_path).2 ∧
        ¬((startOf ro_path).1 = [] ∧ RootFirst os flags (startOf ro_path).2 ∧ os.before = (COLON, CARET)))

/-- **The call keeps to its buffers**: it returns NULL, or what is in the buffer is ended by a NUL. -/
def Right (n : ℕ) (run : Run (Option Buf)) : Prop :=
  ∃ r, run = .ok r ∧ ∀ b, r = some b → b.block.length = n ∧ 0 ∈ b.block

/-! ### One directory -/

/-- What is written does not end in `^`, so that what comes next cannot be taken for a part of it. -/
def Clean (text : List UInt8) : Prop := ∀ c, text.getLast? = some c → c ≠ CARET

theorem clean_concat {c : UInt8} (text : List UInt8) (h : c ≠ CARET) : Clean (text ++ [c]) := by
  intro d hd
  rw [List.getLast?_concat] at hd
  exact Option.some.inj hd ▸ h

theorem lastTwo_two (os : Os) (text : List UInt8) (k l : UInt8) : lastTwo os (text ++ [k, l]) = (k, l) := by
  rw [lastTwo, List.reverse_append]
  rfl

theorem lastTwo_one (os : Os) (text : List UInt8) (l : UInt8) : (lastTwo os (text ++ [l])).2 = l := by
  rw [lastTwo, List.reverse_append]
  cases text.reverse with
  | nil => rfl
  | cons k text => rfl

variable {os : Os}

/-- Nothing has been written, or what has been written does not end in `:^`. -/
theorem lastTwo_clean {text : List UInt8} (h : Clean text) :
    lastTwo os text = (COLON, CARET) ↔ text = [] ∧ os.before = (COLON, CARET) := by
  obtain rfl | ⟨front, l, rfl⟩ := List.eq_nil_or_concat text
  · exact (and_iff_right rfl).symm
  · rw [List.concat_eq_append] at h ⊢
    refine iff_of_false (fun heq => ?_) fun hnil => List.append_ne_nil_of_right_ne_nil _ (List.cons_ne_nil _ _) hnil.1
    have hl := lastTwo_one os front l
    rw [heq] at hl
    exact h l List.getLast?_concat hl.symm

theorem dirChars_of_two {i : Text} (h : i.length ≠ 1) : dirChars i = i.map fun c => if c = SLASH then DOT else c := by
  match i with
  | [] => rfl
  | [c] => exact absurd rfl h
  | c :: d :: i => rfl

/-- **When the parent of a device is met**: at the end of the directory, or in front of the buffer. -/
theorem lastTwo_dirChars (os : Os) (i : Text) {text : List UInt8} (h : Clean text) :
    lastTwo os (text ++ dirChars i) = (COLON, CARET) ↔
      [COLON, CARET] <:+ i ∨ text = [] ∧ dirChars i = [] ∧ os.before = (COLON, CARET) := by
  by_cases hone : i.length = 1
  · obtain ⟨c, rfl⟩ := List.length_eq_one_iff.mp hone
    have hlong : ¬[COLON, CARET] <:+ [c] := fun hs => absurd hs.length_le (Nat.not_succ_le_self 1)
    rw [or_iff_right hlong]
    by_cases hdollar : c = DOLLAR
    · have hnil : dirChars [c] = [] := if_pos hdollar
      rw [hnil, List.append_nil, lastTwo_clean h]
      exact ⟨fun hc => ⟨hc.1, rfl, hc.2⟩, fun hc => ⟨hc.1, hc.2.2⟩⟩
    · -- one character or more, and the last one is no `^`
      obtain ⟨front, l, hl, hne⟩ : ∃ front l, dirChars [c] = front ++ [l] ∧ l ≠ CARET := by
        rw [dirChars, if_neg hdollar]
        by_cases hcaret : c = CARET
        · exact ⟨[DOT], DOT, if_pos hcaret, by decide⟩
        · rw [if_neg hcaret]
          by_cases hpercent : c = PERCENT
          · exact ⟨SLASH :: textOf "li", 0x62, if_pos hpercent, by decide⟩
          · exact ⟨[], c, if_neg hpercent, hcaret⟩
      rw [hl, ← List.append_assoc]
      refine iff_of_false (fun heq => ?_) fun hc => List.append_ne_nil_of_right_ne_nil _ (List.cons_ne_nil _ _) hc.2.1
      have hlast := lastTwo_one os (text ++ front) l
      rw [heq] at hlast
      exact hne hlast.symm
  · rw [dirChars_of_two hone]
    by_cases hnil : i = []
    · rw [hnil, List.map_nil, List.append_nil, lastTwo_clean h]
      have hlong : ¬[COLON, CARET] <:+ [] := fun hs => absurd hs.length_le (by decide)
      rw [or_iff_right hlong]
      exact ⟨fun hc => ⟨hc.1, rfl, hc.2⟩, fun hc => ⟨hc.1, hc.2.2⟩⟩
    · have hmap : i.map (fun c => if c = SLASH then DOT else c) ≠ [] := fun h => hnil (List.map_eq_nil_iff.mp h)
      rw [or_iff_left fun hc => hmap hc.2.1]
      obtain ⟨front, k, l, rfl⟩ : ∃ front k l, i = front ++ [k, l] := by
        obtain rfl | ⟨front, l, rfl⟩ := List.eq_nil_or_concat i
        · exact absurd rfl hnil
        · obtain rfl | ⟨front, k, rfl⟩ := List.eq_nil_or_concat front
          · exact absurd rfl hone
          · exact ⟨front, k, l, by simp⟩
      rw [List.map_append, ← List.append_assoc, List.map_cons, List.map_cons, List.map_nil, lastTwo_two, Prod.mk.injEq]
      have hchar {c d : UInt8} (hd : d ≠ SLASH ∧ d ≠ DOT) : (if c = SLASH then DOT else c) = d ↔ c = d := by
        by_cases hc : c = SLASH
        · rw [if_pos hc, hc]
          exact iff_of_false (Ne.symm hd.2) (Ne.symm hd.1)
        · rw [if_neg hc]
      rw [hchar (by decide), hchar (by decide)]
      refine ⟨fun hc => ⟨front, by rw [hc.1, hc.2]⟩, fun ⟨front', hfront⟩ => ?_⟩
      have hend := (List.append_inj' hfront rfl).2
      simp only [List.cons.injEq, and_true] at hend
      exact ⟨hend.1.symm, hend.2.symm⟩

theorem length_dirChars (i : Text) :
    dirLen i = (dirChars i).length + 1 + (if [COLON, CARET] <:+ i then 2 else 0) := by
  by_cases hone : i.length = 1
  · obtain ⟨c, rfl⟩ := List.length_eq_one_iff.mp hone
    have hlong : ¬[COLON, CARET] <:+ [c] := fun hs => absurd hs.length_le (Nat.not_succ_le_self 1)
    have hsingle {d : UInt8} : [c] = [d] ↔ c = d := List.singleton_inj
    rw [dirLen, dirChars, if_neg hlong]
    simp only [hsingle]
    by_cases hdollar : c = DOLLAR
    · rw [if_pos hdollar, if_pos hdollar]
      rfl
    · rw [if_neg hdollar, if_neg hdollar]
      by_cases hcaret : c = CARET
      · rw [if_pos hcaret, if_pos hcaret]
        rfl
      · rw [if_neg hcaret, if_neg hcaret]
        by_cases hpercent : c = PERCENT
        · rw [if_pos hpercent, if_pos hpercent]
          rfl
        · rw [if_neg hpercent, if_neg hpercent]
  · have hne (c : UInt8) : i ≠ [c] := fun h => hone (h ▸ rfl)
    rw [dirLen, if_neg (hne _), if_neg (hne _), if_neg (hne _), dirChars_of_two hone, List.length_map]

/-- **`n` bytes have been written**, and a NUL behind them. -/
structure Wrote (b : Buf) (n : ℕ) (b' : Buf) : Prop where
  text : b'.text.length = b.text.length + n
  room : b'.room.length + n = b.room.length
  ended : 0 ∈ b'.room

theorem givesIff_endDirectory (os : Os) (b : Buf) :
    GivesIff (endDirectory os b) (2 ≤ b.room.length) fun b' => Wrote b 1 b' ∧ Clean b'.text := by
  have hslash : (if lastTwo os b.text = (COLON, SLASH) then DOT else SLASH) ≠ CARET := by split <;> decide
  refine ((givesIff_put _ b).bind (d := 1 ≤ b.room.length - 1) fun b' _ hb' => ?_).imp (by omega) fun _ _ h => h
  rw [hb']
  refine (givesIff_here 0 _).imp ?_ fun b'' hroom h => ?_
  · rw [List.length_drop]
  · rw [List.length_drop] at hroom
    rw [h]
    refine ⟨⟨List.length_append, ?_, List.mem_cons_self⟩, clean_concat _ hslash⟩
    rw [List.length_cons, List.length_drop, List.length_drop]
    omega

variable {b : Buf}

theorem givesIff_colonUp (hup : lastTwo os b.text = (COLON, CARET)) (hne : b.text ≠ []) :
    GivesIff (colonUp os b) (2 ≤ b.room.length) fun b' =>
      b'.text.length = b.text.length + 2 ∧ b'.room.length + 2 = b.room.length := by
  have hpos := List.length_pos_iff.mpr hne
  rw [colonUp, if_pos hup, setLast, if_neg hne, pure_bind]
  refine (givesIff_puts _ _).imp Iff.rfl fun b' hroom h => ?_
  rw [h, List.length_append, List.length_append, List.length_dropLast, List.length_drop]
  simp only [List.length_cons, List.length_nil] at hroom ⊢
  omega

/-- **A directory is written** if there is room for it, and if the bytes in front of the buffer are not taken for the
parent of a device. -/
theorem givesIff_add (i : Text) (h : Clean b.text) :
    GivesIff (add_directory_name os i b)
      (dirLen i + 1 ≤ b.room.length ∧ ¬(b.text = [] ∧ dirChars i = [] ∧ os.before = (COLON, CARET)))
      fun b' => Wrote b (dirLen i) b' ∧ Clean b'.text := by
  have hchars := length_dirChars i
  by_cases hup : lastTwo os (b.text ++ dirChars i) = (COLON, CARET)
  · obtain hsuffix | ⟨htext, hnil, hbytes⟩ := (lastTwo_dirChars os i h).mp hup
    · -- `:^` at the end of the directory
      have hne : dirChars i ≠ [] := by
        intro hnil
        obtain ⟨front, rfl⟩ := hsuffix
        rw [dirChars_of_two (by simp), List.map_append] at hnil
        exact List.append_ne_nil_of_right_ne_nil _ (List.cons_ne_nil _ _) hnil
      rw [if_pos hsuffix] at hchars
      refine ((givesIff_puts (dirChars i) b).bind (d := 4 ≤ b.room.length - (dirChars i).length)
        fun b' hroom hb' => ?_).imp ?_ fun _ _ hpost => hpost
      · have htext' : b'.text = b.text ++ dirChars i := congrArg Buf.text hb'
        have hroom' : b'.room.length = b.room.length - (dirChars i).length := by rw [hb', List.length_drop]
        have hlen : b'.text.length = b.text.length + (dirChars i).length := by rw [htext', List.length_append]
        have hnil' : b'.text ≠ [] := htext' ▸ fun hc => hne (List.append_eq_nil_iff.mp hc).2
        refine ((givesIff_colonUp (htext' ▸ hup) hnil').bind (d := 4 ≤ b.room.length - (dirChars i).length)
          fun b'' _ hb'' => ?_).imp (by omega) fun _ _ hpost => hpost
        refine (givesIff_endDirectory os b'').imp (by omega) fun b₃ _ hb₃ => ⟨⟨?_, ?_, hb₃.1.ended⟩, hb₃.2⟩
        · rw [hb₃.1.text]
          omega
        · have hend := hb₃.1.room
          omega
      · rw [hchars]
        exact ⟨fun hc => ⟨by omega, fun hnot => hne hnot.2.1⟩, fun hc => ⟨by omega, by omega⟩⟩
    · -- the code writes in front of the buffer
      refine Or.inr ⟨fun hc => hc.2 ⟨htext, hnil, hbytes⟩, ?_⟩
      have hup' : lastTwo os b.text = (COLON, CARET) := by
        rw [hnil, List.append_nil] at hup
        exact hup
      rw [add_directory_name, hnil, puts, pure_bind, colonUp, if_pos hup', setLast, if_pos htext]
      rfl
  · have hnot : ¬[COLON, CARET] <:+ i := fun hs => hup ((lastTwo_dirChars os i h).mpr (Or.inl hs))
    rw [if_neg hnot] at hchars
    refine ((givesIff_puts (dirChars i) b).bind (d := 2 ≤ b.room.length - (dirChars i).length)
      fun b' hroom hb' => ?_).imp ?_ fun _ _ hpost => hpost
    · have htext' : b'.text = b.text ++ dirChars i := congrArg Buf.text hb'
      have hroom' : b'.room.length = b.room.length - (dirChars i).length := by rw [hb', List.length_drop]
      have hlen : b'.text.length = b.text.length + (dirChars i).length := by rw [htext', List.length_append]
      rw [colonUp, htext', if_neg hup, pure_bind]
      refine (givesIff_endDirectory os b').imp (by omega) fun b'' _ hb'' => ⟨⟨?_, ?_, hb''.1.ended⟩, hb''.2⟩
      · rw [hb''.1.text]
        omega
      · have hend := hb''.1.room
        omega
    · rw [hchars]
      refine ⟨fun hc => ⟨by omega, fun hbad => ?_⟩, fun hc => ⟨by omega, by omega⟩⟩
      exact hup ((lastTwo_dirChars os i h).mpr (Or.inr hbad))

theorem one_le_dirLen (i : Text) : 1 ≤ dirLen i := by
  rw [length_dirChars]
  omega

/-! ### The last pieces -/

theorem givesIff_addDirectoryAndPrefix (dir pre : Text) (b : Buf) :
    GivesIff (addDirectoryAndPrefix dir pre b) (dir.length + pre.length + 2 ≤ b.room.length) fun b' =>
      Wrote b (dir.length + pre.length + 1) b' := by
  have hall : addDirectoryAndPrefix dir pre b = puts (dir ++ (DOT :: pre)) b >>= here 0 := by
    rw [puts_append, bind_assoc, addDirectoryAndPrefix]
    refine congrArg _ (funext fun b => ?_)
    rw [puts, bind_assoc]
  have hlen : (dir ++ (DOT :: pre)).length = dir.length + pre.length + 1 := by
    rw [List.length_append, List.length_cons, Nat.add_assoc]
  rw [hall]
  refine (givesIff_puts_here _ 0 b).imp (by rw [hlen]) fun b' hroom h => ?_
  rw [h]
  rw [hlen] at hroom ⊢
  refine ⟨by rw [List.length_append, hlen], ?_, List.mem_cons_self⟩
  rw [List.length_cons, List.length_drop]
  omega

theorem givesIff_stepBack (h : b.text ≠ []) :
    GivesIff (stepBack 0 b) True fun b' => 0 ∈ b'.room ∧ b'.block.length = b.block.length := by
  have hpos := List.length_pos_iff.mpr h
  rw [stepBack, if_neg h]
  refine givesIff_pure ⟨List.mem_cons_self, ?_⟩
  rw [Buf.block, Buf.block, List.length_append, List.length_append, List.length_dropLast, List.length_cons]
  omega

theorem Wrote.block {b b' : Buf} {n : ℕ} (h : Wrote b n b') : b'.block.length = b.block.length := by
  have htext := h.text
  have hroom := h.room
  rw [Buf.block, Buf.block, List.length_append, List.length_append]
  omega

variable {flags : Flags}

theorem swaps_iff {tempbuf name : Text} : swaps os flags tempbuf name = true ↔
    (¬flags.no_reverse_suffix ∧ isPrefix os name) ∨
      (¬flags.no_reverse_suffix ∧ isPrefix os tempbuf ∧ SLASH ∉ name) := by
  rw [swaps, decide_eq_true_iff, ← and_or_left]

theorem givesIff_addLast (tempbuf name : Text) (h : Clean b.text) :
    GivesIff (addLast os flags tempbuf name b) (lastTwoLen os flags tempbuf name ≤ b.room.length ∧
        ¬(b.text = [] ∧ (dirChars tempbuf = [] ∧ ¬swaps os flags tempbuf name = true) ∧ os.before = (COLON, CARET)))
      fun b' => 0 ∈ b'.room ∧ b'.block.length = b.block.length := by
  have hswapped (hs : swaps os flags tempbuf name = true) (dir pre : Text)
      (hlen : dir.length + pre.length = tempbuf.length + name.length) :
      GivesIff (addDirectoryAndPrefix dir pre b)
        (lastTwoLen os flags tempbuf name ≤ b.room.length ∧
          ¬(b.text = [] ∧ (dirChars tempbuf = [] ∧ ¬swaps os flags tempbuf name = true) ∧ os.before = (COLON, CARET)))
        fun b' => 0 ∈ b'.room ∧ b'.block.length = b.block.length := by
    refine (givesIff_addDirectoryAndPrefix dir pre b).imp ?_ fun b' _ hb' => ⟨hb'.ended, hb'.block⟩
    rw [lastTwoLen, if_pos hs, hlen]
    exact ⟨fun hc => ⟨hc, fun hbad => hbad.2.1.2 hs⟩, fun hc => hc.1⟩
  rw [addLast]
  by_cases hname : ¬flags.no_reverse_suffix ∧ isPrefix os name
  · rw [if_pos hname]
    exact hswapped (swaps_iff.mpr (Or.inl hname)) tempbuf name rfl
  · rw [if_neg hname]
    by_cases htemp : ¬flags.no_reverse_suffix ∧ isPrefix os tempbuf ∧ SLASH ∉ name
    · rw [if_pos htemp]
      exact hswapped (swaps_iff.mpr (Or.inr htemp)) name tempbuf (Nat.add_comm _ _)
    · have hs : ¬swaps os flags tempbuf name = true := fun hs => (swaps_iff.mp hs).elim hname htemp
      have hone := one_le_dirLen tempbuf
      have hone' := one_le_dirLen name
      rw [if_neg htemp]
      refine ((givesIff_add tempbuf h).bind (d := dirLen name + 1 ≤ b.room.length - dirLen tempbuf)
        fun b' _ ⟨hb', hclean⟩ => ?_).imp ?_ fun _ _ hpost => hpost
      · have htext := hb'.text
        have hroom := hb'.room
        have hne : b'.text ≠ [] := List.length_pos_iff.mp (by omega)
        refine ((givesIff_add name hclean).bind (d := True) fun b'' _ ⟨hb'', _⟩ => ?_).imp ?_ fun _ _ hpost => hpost
        · have htext' := hb''.text
          refine (givesIff_stepBack (List.length_pos_iff.mp (by omega))).imp Iff.rfl fun b₃ _ hb₃ => ⟨hb₃.1, ?_⟩
          rw [hb₃.2, hb''.block, hb'.block]
        · exact ⟨fun hc => by omega, fun hc => ⟨⟨by omega, fun hbad => hne hbad.1⟩, trivial⟩⟩
      · rw [lastTwoLen, if_neg hs]
        refine ⟨fun hc => ⟨by omega, fun hbad => hc.1.2 ⟨hbad.1, hbad.2.1.1, hbad.2.2⟩⟩, fun hc => ⟨⟨by omega, ?_⟩, by omega⟩⟩
        exact fun hbad => hc.2 ⟨hbad.1, ⟨hbad.2.1, hs⟩, hbad.2.2⟩

theorem givesIff_finish (tempbuf : Text) (b : Buf) :
    GivesIff (finish tempbuf false b) (lastLen tempbuf ≤ b.room.length) fun b' =>
      0 ∈ b'.block ∧ b'.block.length = b.block.length := by
  have hkept {l : List UInt8} (h : l.length ≤ b.room.length) :
      (Buf.mk (b.text ++ l) (b.room.drop l.length)).block.length = b.block.length := by
    rw [Buf.block, Buf.block, List.length_append, List.length_append, List.length_append, List.length_drop]
    omega
  rw [finish, if_neg Bool.false_ne_true]
  by_cases hone : tempbuf.length = 1
  · rw [if_pos hone]
    obtain ⟨c, rfl⟩ := List.length_eq_one_iff.mp hone
    have hsingle {d : UInt8} : [c] = [d] ↔ c = d := List.singleton_inj
    -- the NUL is put, so that the place is behind it
    obtain ⟨front, hfront, hlen⟩ : ∃ front, lastChars [c] = front ++ [0] ∧ (front ++ [0]).length = lastLen [c] := by
      rw [lastChars, lastLen]
      simp only [hsingle]
      by_cases hcaret : c = CARET
      · rw [if_pos hcaret, if_pos hcaret]
        exact ⟨[DOT, DOT], rfl, rfl⟩
      · rw [if_neg hcaret, if_neg hcaret]
        by_cases hpercent : c = PERCENT
        · rw [if_pos hpercent, if_pos hpercent]
          exact ⟨SLASH :: textOf "lib", rfl, rfl⟩
        · rw [if_neg hpercent, if_neg hpercent]
          exact ⟨[c], rfl, rfl⟩
    rw [hfront]
    refine (givesIff_puts _ b).imp (by rw [hlen]) fun b' hroom h => ?_
    rw [h]
    exact ⟨List.mem_append_left _ (List.mem_append_right _ (List.mem_append_right _ List.mem_cons_self)), hkept hroom⟩
  · have hne (c : UInt8) : tempbuf ≠ [c] := fun h => hone (h ▸ rfl)
    have hchars : lastChars tempbuf = tempbuf := by
      match tempbuf, hone with
      | [], _ => rfl
      | c :: d :: i, _ => rfl
    rw [if_neg hone, hchars]
    refine (givesIff_puts_here tempbuf 0 b).imp ?_ fun b' hroom h => ?_
    · rw [lastLen, if_neg (hne _), if_neg (hne _)]
    · rw [h]
      refine ⟨List.mem_append_right _ List.mem_cons_self, ?_⟩
      rw [Buf.block, Buf.block, List.length_append, List.length_append, List.length_append, List.length_cons,
        List.length_drop]
      omega

/-! ### The loop -/

variable {input : Text}

theorem dirEnd_of_notMem (h : DOT ∉ input) : dirEnd input = none := by
  unfold dirEnd
  split
  · rfl
  · exact absurd List.mem_cons_self h
  · rfl
  · exact absurd List.mem_cons_self h
  · exact if_neg h

/-- **Where a directory ends**: behind `.` or `..` of Unix, or at the first dot. -/
theorem dirEnd_cases {t : ℕ} (h : dirEnd input = some t) :
    (∃ rest, input = DOT :: SLASH :: rest ∧ t = 1) ∨ (∃ rest, input = DOT :: DOT :: SLASH :: rest ∧ t = 2) ∨
      DOT ∈ input ∧ t = input.idxOf DOT := by
  unfold dirEnd at h
  split at h
  · cases h
  · next rest => exact Or.inl ⟨rest, rfl, (Option.some.inj h).symm⟩
  · cases h
  · next rest => exact Or.inr (Or.inl ⟨rest, rfl, (Option.some.inj h).symm⟩)
  · by_cases hmem : DOT ∈ input
    · rw [if_pos hmem] at h
      exact Or.inr (Or.inr ⟨hmem, (Option.some.inj h).symm⟩)
    · rw [if_neg hmem] at h
      cases h

/-- It is in the input; -/
theorem dirEnd_lt {t : ℕ} (h : dirEnd input = some t) : t < input.length := by
  obtain ⟨rest, rfl, rfl⟩ | ⟨rest, rfl, rfl⟩ | ⟨hmem, rfl⟩ := dirEnd_cases h
  · simp
  · simp
  · exact List.idxOf_lt_length_of_mem hmem

theorem dirEnd_drop {t : ℕ} (h : dirEnd input = some t) (hone : one_dot input = true) :
    dirEnd (input.drop (t + 1)) = none := by
  refine dirEnd_of_notMem ?_
  have hcount : input.count DOT = 1 := of_decide_eq_true hone
  obtain ⟨rest, rfl, rfl⟩ | ⟨rest, rfl, rfl⟩ | ⟨hmem, rfl⟩ := dirEnd_cases h
  · rw [List.count_cons_self, List.count_cons_of_ne (by decide)] at hcount
    exact List.count_eq_zero.mp (show rest.count DOT = 0 by omega)
  · rw [List.count_cons_self, List.count_cons_self] at hcount
    omega
  · have hlt := List.idxOf_lt_length_of_mem hmem
    have hsplit : input = input.take (input.idxOf DOT) ++ DOT :: input.drop (input.idxOf DOT + 1) :=
      calc input
          = input.take (input.idxOf DOT) ++ input.drop (input.idxOf DOT) := (List.take_append_drop _ _).symm
        _ = _ := by rw [List.drop_eq_getElem_cons hlt, List.getElem_idxOf hlt]
    rw [hsplit, List.count_append, List.count_cons_self] at hcount
    exact List.count_eq_zero.mp (by omega)

theorem one_le_restLen (os : Os) (flags : Flags) {turns : ℕ} (h : input.length < turns) :
    1 ≤ restLen os flags turns input := by
  cases turns with
  | zero => omega
  | succ turns =>
    rw [restLen]
    split
    · rw [lastLen]
      split
      · omega
      · split <;> omega
    · next t _ =>
      split
      · rw [lastTwoLen]
        have hone := one_le_dirLen (input.take t)
        split <;> omega
      · have hone := one_le_dirLen (input.take t)
        omega

theorem givesIff_get (input : Text) :
    GivesIff (get_directory_name input) ((dirText input).length < 256) fun dir =>
      dir = (dirText input, (dirEnd input).isSome) := by
  rw [get_directory_name]
  exact givesIff_ite fun _ => rfl

theorem dirText_of_some {t : ℕ} (h : dirEnd input = some t) :
    dirText input = input.take t ∧ (dirText input).length = t := by
  have htext : dirText input = input.take t := by rw [dirText, h]
  exact ⟨htext, htext ▸ List.length_take_of_le (Nat.le_of_lt (dirEnd_lt h))⟩

theorem dirText_of_none (h : dirEnd input = none) : dirText input = input := by rw [dirText, h]

theorem givesIff_dirLoop_end {turns : ℕ} (b : Buf) (h : dirEnd input = none) :
    GivesIff (dirLoop os flags (turns + 1) input true b) (input.length < 256) fun b' => b' = b := by
  rw [dirLoop]
  refine ((givesIff_get input).bind (d := True) fun dir _ hdir => ?_).imp ?_ fun _ _ hpost => hpost
  · rw [hdir, h, if_pos (show (dirText input, (none : Option ℕ).isSome).2 = false from rfl), finish, if_pos rfl]
    exact givesIff_pure rfl
  · rw [dirText_of_none h, and_true]

/-- **The loop over the directories**: what is needed for the first one, and what for the rest. -/
theorem givesIff_dirLoop (turns : ℕ) (hturns : input.length < turns) (hclean : Clean b.text) :
    GivesIff (dirLoop os flags turns input false b)
      (restLen os flags turns input ≤ b.room.length ∧ PiecesFit turns input ∧
        ¬(b.text = [] ∧ RootFirst os flags input ∧ os.before = (COLON, CARET)))
      fun b' => 0 ∈ b'.block ∧ b'.block.length = b.block.length := by
  induction turns generalizing input b with
  | zero => omega
  | succ turns ih =>
    rw [dirLoop]
    cases hend : dirEnd input with
    | none =>
      have hroot : ¬RootFirst os flags input := by
        rintro ⟨t, ht, -⟩
        rw [hend] at ht
        cases ht
      refine ((givesIff_get input).bind (d := lastLen input ≤ b.room.length) fun dir _ hdir => ?_).imp ?_
        fun _ _ hpost => hpost
      · rw [hdir, hend, if_pos (show (dirText input, (none : Option ℕ).isSome).2 = false from rfl), dirText_of_none hend]
        exact givesIff_finish input b
      · rw [restLen, PiecesFit, hend]
        exact ⟨fun hc => ⟨hc.2, ⟨hc.1, trivial⟩, fun hbad => hroot hbad.2.1⟩, fun hc => ⟨hc.2.1.1, hc.1⟩⟩
    | some t =>
      obtain ⟨htext, hlen⟩ := dirText_of_some hend
      have hlt := dirEnd_lt hend
      have hrest : (input.drop (t + 1)).length < turns := by rw [List.length_drop]; omega
      have hget (dir : Text × Bool) (hdir : dir = (dirText input, (dirEnd input).isSome)) :
          dir = (input.take t, true) := by rw [hdir, htext, hend]; rfl
      have hroot : RootFirst os flags input ↔ dirChars (input.take t) = [] ∧
          ¬(one_dot input = true ∧ swaps os flags (input.take t) (input.drop (t + 1)) = true) := by
        refine ⟨fun ⟨u, hu, h⟩ => ?_, fun h => ⟨t, hend, h⟩⟩
        obtain rfl := Option.some.inj (hend.symm.trans hu)
        exact h
      have htake : (input.take t).length = t := htext ▸ hlen
      by_cases hone : one_dot input = true
      · -- the last two pieces
        have hlast := dirEnd_drop hend hone
        obtain ⟨turns, rfl⟩ : ∃ n, turns = n + 1 := ⟨turns - 1, by omega⟩
        refine ((givesIff_get input).bind (d := (input.drop (t + 1)).length < 256 ∧
          lastTwoLen os flags (input.take t) (input.drop (t + 1)) ≤ b.room.length ∧
            ¬(b.text = [] ∧ (dirChars (input.take t) = [] ∧
              ¬swaps os flags (input.take t) (input.drop (t + 1)) = true) ∧ os.before = (COLON, CARET)))
          fun dir _ hdir => ?_).imp ?_ fun _ _ hpost => hpost
        · rw [hget dir hdir, if_neg (by simp), if_pos hone, htake]
          refine ((givesIff_get (input.drop (t + 1))).bind
            (d := lastTwoLen os flags (input.take t) (input.drop (t + 1)) ≤ b.room.length ∧
              ¬(b.text = [] ∧ (dirChars (input.take t) = [] ∧
                ¬swaps os flags (input.take t) (input.drop (t + 1)) = true) ∧ os.before = (COLON, CARET)))
            fun name hname hname' => ?_).imp ?_ fun _ _ hpost => hpost
          · rw [dirText_of_none hlast] at hname hname'
            rw [hname']
            refine ((givesIff_addLast (input.take t) (input.drop (t + 1)) hclean).bind (d := True)
              fun b' _ hb' => ?_).imp (and_true _ ▸ Iff.rfl) fun _ _ hpost => hpost
            refine (givesIff_dirLoop_end b' hlast).imp (iff_true_intro hname) fun b'' _ h => ?_
            rw [h]
            exact ⟨List.mem_append_right _ hb'.1, hb'.2⟩
          · rw [dirText_of_none hlast]
        · rw [restLen, PiecesFit, hend, hroot]
          dsimp only
          rw [if_pos hone, PiecesFit, hlast, dirText_of_none hlast]
          refine ⟨fun hc => ⟨hc.2.2.1, ⟨hc.1, hc.2.1, trivial⟩, fun hbad => hc.2.2.2 ⟨hbad.1, ⟨hbad.2.1.1, fun hs => ?_⟩, hbad.2.2⟩⟩,
            fun hc => ⟨hc.2.1.1, hc.2.1.2.1, hc.1, fun hbad => hc.2.2 ⟨hbad.1, ⟨hbad.2.1.1, fun hs => hbad.2.1.2 hs.2⟩, hbad.2.2⟩⟩⟩
          exact hbad.2.1.2 ⟨hone, hs⟩
      · -- a directory, and the rest
        have hneed := one_le_restLen os flags hrest
        refine ((givesIff_get input).bind (d := (dirLen (input.take t) + 1 ≤ b.room.length ∧
          ¬(b.text = [] ∧ dirChars (input.take t) = [] ∧ os.before = (COLON, CARET))) ∧
            restLen os flags turns (input.drop (t + 1)) ≤ b.room.length - dirLen (input.take t) ∧
              PiecesFit turns (input.drop (t + 1))) fun dir _ hdir => ?_).imp ?_ fun _ _ hpost => hpost
        · rw [hget dir hdir, if_neg (by simp), if_neg hone, htake]
          refine (givesIff_add (input.take t) hclean).bind fun b' _ ⟨hb', hclean'⟩ => ?_
          have hroom := hb'.room
          have htext' := hb'.text
          have hdir' := one_le_dirLen (input.take t)
          have hne : b'.text ≠ [] := List.length_pos_iff.mp (by omega)
          refine (ih hrest hclean').imp ?_ fun b'' _ h => ⟨h.1, h.2.trans hb'.block⟩
          exact ⟨fun hc => ⟨by omega, hc.2.1⟩, fun hc => ⟨by omega, hc.2, fun hbad => hne hbad.1⟩⟩
        · rw [restLen, PiecesFit, hend, hroot]
          dsimp only
          rw [if_neg hone]
          refine ⟨fun hc => ⟨by omega, ⟨hc.1, hc.2.2.2⟩, fun hbad => hc.2.1.2 ⟨hbad.1, hbad.2.1.1, hbad.2.2⟩⟩,
            fun hc => ⟨hc.2.1.1, ⟨by omega, fun hbad => ?_⟩, by omega, hc.2.1.2⟩⟩
          exact hc.2.2 ⟨hbad.1, ⟨hbad.2.1, fun hs => hone hs.1⟩, hbad.2.2⟩

/-! ### The whole path -/

def Result (n : ℕ) (r : Option Buf) : Prop := ∀ b, r = some b → b.block.length = n ∧ 0 ∈ b.block

theorem result_some {n : ℕ} (hlen : b.block.length = n) (hend : 0 ∈ b.block) : Result n (some b) := by
  rintro b' heq
  obtain rfl := Option.some.inj heq
  exact ⟨hlen, hend⟩

theorem givesIff_add_filetype (os : Os) (flags : Flags) (filetype : BitVec 32) (h : 0 ∈ b.block) :
    GivesIff (add_filetype os flags filetype b) True (Result b.block.length) := by
  have hsame : Result b.block.length (some b) := result_some rfl h
  rw [add_filetype]
  split
  · exact givesIff_pure hsame
  · by_cases hneeds : ¬flags.filetype_not_set = true ∧ typeIsKnown os filetype b.text = true
    · rw [if_pos hneeds]
      exact givesIff_pure hsame
    · rw [if_neg hneeds]
      by_cases hroom : b.room.length ≤ 4
      · rw [if_pos hroom]
        exact givesIff_pure nofun
      · rw [if_neg hroom]
        generalize hext : [0x2C, hexDigit (filetype >>> 8 &&& 0xF), hexDigit (filetype >>> 4 &&& 0xF),
          hexDigit (filetype &&& 0xF)] = ext
        have hlen : ext.length = 4 := hext ▸ rfl
        rw [← bind_assoc]
        refine ((givesIff_puts_here ext 0 b).bind (d := True) fun b' _ hb' => ?_).imp ?_ fun _ _ hpost => hpost
        · refine givesIff_pure ?_
          rw [hb']
          refine result_some ?_ (List.mem_append_right _ List.mem_cons_self)
          rw [Buf.block, Buf.block, List.length_append, List.length_append, List.length_append, List.length_cons,
            List.length_drop, hlen]
          omega
        · rw [hlen]
          exact iff_true_intro ⟨by omega, trivial⟩

theorem rootAt_eq {s : Text} {k : ℕ} (h : rootAt s = some k) :
    ∃ front, s.take (k + 2) = front ++ [DOT, DOLLAR] := by
  induction s generalizing k with
  | nil => cases h
  | cons c s ih =>
    rw [rootAt] at h
    by_cases hroot : c = DOT ∧ s.head? = some DOLLAR
    · rw [if_pos hroot] at h
      obtain rfl := Option.some.inj h
      obtain ⟨rfl, hdollar⟩ := hroot
      cases s with
      | nil => cases hdollar
      | cons d s =>
        obtain rfl := Option.some.inj hdollar
        exact ⟨[], rfl⟩
    · rw [if_neg hroot] at h
      obtain ⟨j, hj, rfl⟩ := Option.map_eq_some_iff.mp h
      obtain ⟨front, hfront⟩ := ih hj
      exact ⟨c :: front, congrArg (c :: ·) hfront⟩

theorem clean_start (ro_path : Text) : Clean (startOf ro_path).1 := by
  rw [startOf]
  split
  · exact nofun
  · split
    · next k hk =>
      obtain ⟨front, hfront⟩ := rootAt_eq hk
      dsimp only
      rw [hfront]
      split
      · exact clean_concat _ (by decide)
      · have hsplit : SLASH :: (front ++ [DOT, DOLLAR]) ++ [] = (SLASH :: (front ++ [DOT])) ++ [DOLLAR] := by simp
        rw [hsplit]
        exact clean_concat _ (by decide)
    · dsimp only
      split
      · exact clean_concat [] (by decide)
      · exact nofun

theorem length_start (ro_path : Text) : (startOf ro_path).2.length < ro_path.length + 1 := by
  rw [startOf]
  split
  · exact Nat.lt_succ_self _
  · split
    · exact Nat.lt_succ_of_le (List.length_drop ▸ Nat.sub_le _ _)
    · exact Nat.lt_succ_self _

theorem givesIff_process (os : Os) (flags : Flags) (filetype : BitVec 32) (ro_path : Text) {block : List UInt8}
    (hblock : 1 ≤ block.length) :
    GivesIff (process os flags filetype ro_path ⟨[], block⟩)
      (needed os flags ro_path ≤ block.length ∧
        (fastCase ro_path = none → PiecesFit (ro_path.length + 1) (startOf ro_path).2 ∧
          ¬((startOf ro_path).1 = [] ∧ RootFirst os flags (startOf ro_path).2 ∧ os.before = (COLON, CARET))))
      (Result block.length) := by
  have hfirst : (0 :: block.drop 1).length = block.length := by
    rw [List.length_cons, List.length_drop]
    omega
  rw [process, here_eq, if_pos hblock, ok_bind, needed]
  cases hfast : fastCase ro_path with
  | some out =>
    dsimp only
    rw [← bind_assoc]
    refine ((givesIff_puts_here out 0 _).bind (d := True) fun b hroom hb => ?_).imp ?_ fun _ _ hpost => hpost
    · refine givesIff_pure ?_
      rw [hb]
      refine result_some ?_ (List.mem_append_right _ List.mem_cons_self)
      dsimp only at hroom
      rw [hfirst] at hroom
      change (([] ++ out) ++ 0 :: (0 :: block.drop 1).drop (out.length + 1)).length = _
      rw [List.nil_append, List.length_append, List.length_cons, List.length_drop, hfirst]
      omega
    · dsimp only
      rw [hfirst]
      exact ⟨fun hc => ⟨hc.1, nofun⟩, fun hc => ⟨hc.1, trivial⟩⟩
  | none =>
    dsimp only
    refine ((givesIff_puts (startOf ro_path).1 _).bind
      (d := restLen os flags (ro_path.length + 1) (startOf ro_path).2 ≤ block.length - (startOf ro_path).1.length ∧
        PiecesFit (ro_path.length + 1) (startOf ro_path).2 ∧
          ¬((startOf ro_path).1 = [] ∧ RootFirst os flags (startOf ro_path).2 ∧ os.before = (COLON, CARET)))
      fun b hroom hb => ?_).imp ?_ fun _ _ hpost => hpost
    · have htext : b.text = (startOf ro_path).1 := congrArg Buf.text hb
      have hlen : b.room.length = block.length - (startOf ro_path).1.length := by
        rw [hb, List.length_drop, hfirst]
      have hall : b.block.length = block.length := by
        rw [Buf.block, List.length_append, htext, hlen]
        rw [hfirst] at hroom
        omega
      have hclean : Clean b.text := htext ▸ clean_start ro_path
      refine ((givesIff_dirLoop (ro_path.length + 1) (length_start ro_path) hclean).bind (d := True)
        fun b' _ hb' => ?_).imp ?_ fun _ _ hpost => hpost
      · split
        · rw [← hall, ← hb'.2]
          exact givesIff_add_filetype os flags filetype hb'.1
        · exact givesIff_pure (result_some (hb'.2.trans hall) hb'.1)
      · rw [htext, hlen, and_true]
    · have hneed := one_le_restLen os flags (length_start ro_path)
      rw [hfirst]
      exact ⟨fun hc => ⟨by omega, fun _ => hc.2.2⟩, fun hc => ⟨by omega, by omega, hc.2 rfl⟩⟩

theorem unixifyTo_right_iff {filetype : BitVec 32} {ro_path : Text} {block : List UInt8}
    (hblock : 1 ≤ block.length) :
    Right block.length (unixifyTo os flags filetype ro_path block) ↔ Fits os flags ro_path block.length := by
  have hright {run : Run (Option Buf)} {c : Prop} (h : GivesIff run c (Result block.length)) :
      Right block.length run ↔ c := by
    refine ⟨fun ⟨r, hr, _⟩ => h.safe_iff.mp (hr ▸ nofun), fun hc => ?_⟩
    obtain ⟨r, hr, hres⟩ := h.exists_ok hc
    exact ⟨r, hr, hres⟩
  rw [unixifyTo, Fits]
  by_cases hcopies : copies flags ro_path = true
  · rw [if_pos hcopies]
    refine iff_of_true ?_ (Or.inl hcopies)
    by_cases hlong : block.length ≤ ro_path.length
    · rw [if_pos hlong]
      exact ⟨none, rfl, nofun⟩
    · have hlen : (ro_path ++ [0]).length ≤ block.length := by
        rw [List.length_append, List.length_singleton]
        omega
      rw [if_neg hlong, puts_eq]
      dsimp only
      rw [if_pos hlen]
      refine ⟨_, rfl, result_some ?_ ?_⟩
      · change ([] ++ (ro_path ++ ([0] : List UInt8)) ++ block.drop (ro_path ++ ([0] : List UInt8)).length).length = _
        rw [List.length_append, List.length_drop, List.nil_append]
        omega
      · exact List.mem_append_left _ (List.mem_append_right _ (List.mem_append_right _ List.mem_cons_self))
  · rw [if_neg hcopies, or_iff_right hcopies]
    exact hright (givesIff_process os flags filetype ro_path hblock)

/-- **`__unixify` keeps to its buffers** if and only if the path fits: into the buffer of the caller, or into the one
that is allocated by the estimate. -/
theorem unixify_right_iff (os : Os) (flags : Flags) (filetype : BitVec 32) (ro_path : Text)
    (buffer : Option (List UInt8)) :
    Right ((buffer.map List.length).getD (estimate flags filetype ro_path))
        (unixify os flags filetype ro_path buffer) ↔
      match buffer with
      | none => os.malloc (estimate flags filetype ro_path) = none ∨
          Fits os flags ro_path (estimate flags filetype ro_path)
      | some block => block.length = 0 ∨ Fits os flags ro_path block.length := by
  cases buffer with
  | none =>
    dsimp only [Option.map_none, Option.getD_none]
    rw [unixify]
    cases hmalloc : os.malloc (estimate flags filetype ro_path) with
    | none => exact iff_of_true ⟨none, rfl, nofun⟩ (Or.inl rfl)
    | some block =>
      have hlen := os.malloc_length _ _ hmalloc
      have hpos : 1 ≤ block.length := by
        rw [hlen, estimate]
        omega
      rw [or_iff_right nofun, ← hlen]
      exact unixifyTo_right_iff hpos
  | some block =>
    dsimp only [Option.map_some, Option.getD_some]
    rw [unixify]
    by_cases hzero : block.length = 0
    · rw [if_pos hzero]
      exact iff_of_true ⟨none, rfl, nofun⟩ (Or.inl hzero)
    · rw [if_neg hzero, or_iff_right hzero]
      exact unixifyTo_right_iff (Nat.pos_of_ne_zero hzero)

/-! ### Paths that do not fit -/

def plainOs : Os where
  suffixes := []
  mimeMap _ := none
  before := (0, 0)
  belowNeeds := false
  malloc n := some (List.replicate n 0)
  malloc_length n block h := by rw [← Option.some.inj h, List.length_replicate]

def plainFlags : Flags := ⟨false, false, false, false⟩

/-- **Eleven `^` do not fit into the buffer that is allocated for them**: they are `../` each. And what the caller
gives as a buffer of one byte is left with `ab` already. -/
theorem carets_not_right :
    ¬Right 31 (unixify plainOs plainFlags NOTSPECIFIED (textOf "^.^.^.^.^.^.^.^.^.^.^") none) ∧
      ¬Right 1 (unixify plainOs plainFlags NOTSPECIFIED (textOf "ab") (some [0])) := by
  refine ⟨?_, ?_⟩
  · rintro ⟨r, hr, -⟩
    have hout : unixify plainOs plainFlags NOTSPECIFIED (textOf "^.^.^.^.^.^.^.^.^.^.^") none = .error .outside := by
      decide
    cases hout.symm.trans hr
  · rintro ⟨r, hr, -⟩
    have hout : unixify plainOs plainFlags NOTSPECIFIED (textOf "ab") (some [0]) = .error .outside := by decide
    cases hout.symm.trans hr

end UnixLib.Unixify
