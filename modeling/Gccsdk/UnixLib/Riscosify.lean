import Gccsdk.Lib.CText
import Gccsdk.Lib.WriteCursor
import Gccsdk.UnixLib.SpecialDirs
import Gccsdk.UnixLib.TranslatePath

/-!
# Names, from Unix to RISC OS

`__riscosify` of `riscosify.c`, with the buffers it writes to. The first characters of a name say what kind of name it
is (`route`): what is before the directories is copied, and then the rest is copied as it is, translated
(`translate_or_null`), or taken for a device. `return NULL` is a run that gives up.

A place in the name is the character in front of it, `in[-1]`, and what is left. The output buffer is a block with the
place `out` in it; `out > buf_end` is where there is no room any more.

Left out: the file type (of MimeMap, or behind a comma) that goes to the caller by `filetype`, the directory that is
made for a suffix, and the environment `RO_ENV` of the builds that are not for ELF.
-/

namespace UnixLib.Riscosify

open CheckedRun WriteCursor CText

/-- `:` -/
abbrev COLON : UInt8 := 0x3A
/-- `$` -/
abbrev DOLLAR : UInt8 := 0x24
/-- `#` -/
abbrev HASH : UInt8 := 0x23
/-- `~` -/
abbrev TILDE : UInt8 := 0x7E
/-- `<` -/
abbrev LESS : UInt8 := 0x3C
/-- `>` -/
abbrev GREATER : UInt8 := 0x3E

structure Flags where
  strict_unix_specs : Bool
  no_process : Bool
  no_suffix : Bool
  filetype_ext : Bool

/-- **What the code finds**: the suffixes, the special directories with what stands for them, the home
directory, and the memory that it has not written. -/
structure Os where
  suffixes : List Text
  sdirs : List (Text × Text)
  sdirs_noNul : ∀ d ∈ sdirs, 0 ∉ d.2
  home : Text
  home_noNul : 0 ∉ home
  canonical : List UInt8
  canonical_length : canonical.length = MAXPATHLEN
  below : UInt8
  behind : List UInt8
  beyond : List UInt8

/-- A place in the input: `in[-1]`, and what is left. -/
structure Place where
  before : UInt8
  rest : Text

/-! ### Copying -/

/-- `*out++ = c`, and NULL if that was the last byte. -/
def putChecked (c : UInt8) (b : Buf) : Run Buf := do
  let b ← put c b
  if b.room = [] then throw .message else pure b

def copy_or_null : Text → Buf → Run Buf
  | [], b => if b.room = [] then throw .message else here 0 b
  | c :: source, b =>
    if b.room = [] then throw .message
    else do
      let b ← put c b
      copy_or_null source b

def copyWhile (p : UInt8 → Bool) : UInt8 → Text → Buf → Run (Place × Buf)
  | before, [], b => pure (⟨before, []⟩, b)
  | before, c :: rest, b =>
    if p c then do
      let b ← putChecked c b
      copyWhile p c rest b
    else pure (⟨before, c :: rest⟩, b)

def skipSlashes (i : Place) : Place :=
  ⟨if i.rest.head? = some SLASH then SLASH else i.before, i.rest.dropWhile (· = SLASH)⟩

/-- "Copy the / as .", and "skip any further '/'s". -/
def slashAsDot (i : Place) (b : Buf) : Run (Place × Buf) := do
  let b ← put DOT b
  pure (skipSlashes i, b)

def sfixfind (os : Os) (suffix : Text) : Bool := suffix ∈ os.suffixes

/-! ### `translate_or_null` -/

/-- The output, and the pointers; those to the input are offsets from `start`. -/
structure Trans where
  b : Buf
  last_slash : ℕ
  previous_slash : Option ℕ
  last_out_slash : ℕ
  last_out_dot : Option ℕ

/-- A slash is written as a dot, "unless nothing else has been output yet or there is already a .". -/
def separate (b : Buf) : Run Buf :=
  if b.text ≠ [] ∧ b.text.getLast? ≠ some DOT then put DOT b else pure b

/-- A dot, at `pos`. -/
def dotTurn (path : Bool) (pos : ℕ) (before : UInt8) (rest : Text) (s : Trans) : Run (InPlace × Trans) :=
  if rest.head? = some SLASH then
    if pos = 0 ∧ path = false then
      if s.b.room.length ≤ 2 then throw .message
      else do
        let b ← puts [AT, DOT] s.b
        pure (⟨pos + 2, SLASH, rest.drop 1⟩, { s with b := b, last_out_slash := b.text.length, last_slash := pos + 2 })
    else if before = SLASH then pure (⟨pos + 2, SLASH, rest.drop 1⟩, { s with last_slash := pos + 2 })
    else do
      -- there is no look at `buf_end` here
      let b ← put SLASH s.b
      pure (⟨pos + 1, DOT, rest⟩, { s with b := b })
  else if pos > 0 ∧ before = SLASH ∧ rest = [] then pure (⟨pos + 1, DOT, rest⟩, s)
  else if rest.head? = some DOT ∧ rest[1]? = some SLASH then
    if s.b.room.length ≤ 2 then throw .message
    else do
      let b ← puts [CARET, DOT] s.b
      pure (⟨pos + 3, SLASH, rest.drop 2⟩, { s with b := b, last_slash := pos + 3, last_out_slash := b.text.length })
  else if pos > 0 ∧ before = SLASH ∧ rest.head? = some DOT ∧ rest[1]? = none then
    if s.previous_slash = some 0 then do
      -- `out = buffer`
      let b ← put AT (s.b.seek 0)
      let b ← here 0 b
      pure (⟨pos + 2, DOT, rest.drop 1⟩, { s with b := b })
    else if s.b.room.length ≤ 1 then throw .message
    else do
      let b ← put CARET s.b
      pure (⟨pos + 2, DOT, rest.drop 1⟩, { s with b := b })
  else do
    let b ← putChecked SLASH s.b
    pure (⟨pos + 1, DOT, rest⟩, { s with b := b, last_out_dot := some s.b.text.length })

/-- A slash, at `pos`, with those behind it. -/
def slashTurn (pos : ℕ) (rest : Text) (s : Trans) : Run (InPlace × Trans) := do
  let b ← separate s.b
  if b.room = [] then throw .message
  else
    pure (⟨pos + 1 + (rest.takeWhile (· = SLASH)).length, SLASH, rest.dropWhile (· = SLASH)⟩,
      { s with
        b := b
        previous_slash := some s.last_slash
        last_slash := pos + 1 + (rest.takeWhile (· = SLASH)).length
        last_out_slash := b.text.length })

/-- One turn of the loop, at the character `c`. -/
def turn (path : Bool) (pos : ℕ) (before c : UInt8) (rest : Text) (s : Trans) : Run (InPlace × Trans) :=
  if c = DOT then dotTurn path pos before rest s
  else if c = SLASH then slashTurn pos rest s
  else do
    let b ← putChecked (filenameCharMap c) s.b
    pure (⟨pos + 1, c, rest⟩, { s with b := b })

def transLoop (path : Bool) : ℕ → ℕ → UInt8 → Text → Trans → Run Trans
  | _, _, _, [], s => pure s
  | 0, _, _, _ :: _, _ => throw .endless
  | turns + 1, pos, before, c :: rest, s => do
    let r ← turn path pos before c rest s
    transLoop path turns r.1.pos r.1.before r.1.rest r.2

/-- "Translate an empty filename into the current dir". -/
def currentDir (path : Bool) (b : Buf) : Run Buf :=
  if b.text = [] ∧ path = false then if b.room.length ≤ 1 then throw .message else put AT b else pure b

/-- The output behind the loop: without the separators at its end and without the type, and ended by a NUL. -/
def ended (flags : Flags) (path : Bool) (s : Trans) : Run Buf := do
  let b ← currentDir path (s.b.seek (stripDots s.b.text).length)
  here 0 (b.seek (removeType flags.filetype_ext s.last_out_slash b.text).length)

/-- The string in the buffer from the place `k` on; where it does not end in the buffer, it goes on behind it. -/
def stringAt (os : Os) (b : Buf) (k : ℕ) : Text := cstr (b.block.drop k ++ os.beyond)

/-- The suffix that is to be swapped, with the place of the dot in front of it. -/
def suffixOf (os : Os) (flags : Flags) (s : Trans) (b : Buf) : Option (Text × ℕ) :=
  match s.last_out_dot with
  | some k => if ¬flags.no_suffix ∧ sfixfind os (stringAt os b (k + 1)) then some (stringAt os b (k + 1), k) else none
  | none => none

/-- "Copy the new suffix". -/
def copySuffix : Text → Buf → Run Buf
  | [], b => pure b
  | c :: suffix, b => do
    let b ← putChecked c b
    copySuffix suffix b

def leafLen (s : Trans) (last_out_dot : ℕ) : ℤ := (last_out_dot : ℤ) - s.last_out_slash

/-- "Terminate the output buffer", before the directory is made. -/
def forDirectory (create_dir : Bool) (b : Buf) : Run Buf := if create_dir then here 0 b else pure b

/-- "Copy the leafname without suffix". -/
def copyLeaf (source : Text) (s : Trans) (last_out_dot : ℕ) (b : Buf) : Run Buf :=
  if (b.text.length : ℤ) + leafLen s last_out_dot > (b.block.length : ℤ) - 1 then throw .message
  else do
    let b ← put DOT b
    let leaf ← loads source s.last_slash (leafLen s last_out_dot).toNat
    let b ← puts (leaf.map filenameCharMap) b
    here 0 b

/-- "Suffix matches, so do suffix swapping". -/
def swap (create_dir : Bool) (source : Text) (s : Trans) (suffix : Text) (last_out_dot : ℕ) (b : Buf) : Run Buf := do
  let b ← copySuffix suffix (b.seek s.last_out_slash)
  let b ← forDirectory create_dir b
  copyLeaf source s last_out_dot b

def finish (os : Os) (flags : Flags) (create_dir path : Bool) (source : Text) (s : Trans) : Run Buf := do
  let b ← ended flags path s
  match suffixOf os flags s b with
  | some (suffix, last_out_dot) => swap create_dir source s suffix last_out_dot b
  | none => pure b

def translate_or_null (os : Os) (flags : Flags) (create_dir : Bool) (b : Buf) (i : Place) (path : Bool) : Run Buf :=
  if b.room = [] then throw .message
  else do
    let s ← transLoop path i.rest.length 0 i.before i.rest ⟨b, 0, none, b.text.length, none⟩
    finish os flags create_dir path i.rest s

/-! ### What is left to do -/

/-- **The rest of the call**, where the first characters have been dealt with. -/
inductive Tail
  | copy (b : Buf) (source : Text)
  | translate (b : Buf) (i : Place) (path : Bool)
  | device (b : Buf) (name : Text)
  | done (b : Buf)

/-- "/dev/tty would become tty:." -/
def device (b : Buf) (name : Text) : Run Buf := do
  let b ← copy_or_null name b
  let b ← put COLON b
  here 0 b

def Tail.run (os : Os) (flags : Flags) (create_dir : Bool) : Tail → Run Buf
  | .copy b source => copy_or_null source b
  | .translate b i path => translate_or_null os flags create_dir b i path
  | .device b name => Riscosify.device b name
  | .done b => pure b

/-! ### `guess_or_null` -/

/-- "The last two dots or slashes", as places in the output, and whether there was a slash. -/
structure Marks where
  last : Option ℕ
  penultimate : Option ℕ
  slash : Bool

/-- What is found at the place `k`. -/
def Marks.at (m : Marks) (c : UInt8) (k : ℕ) : Marks :=
  if c = DOT then ⟨some k, m.last, m.slash⟩ else if c = SLASH then ⟨some k, m.last, true⟩ else m

/-- "Find the last two dots or slashes", and copy the rest. -/
def findMarks : Text → Buf → Marks → Run (Buf × Marks)
  | [], b, m => pure (b, m)
  | c :: rest, b, m => do
    let b' ← putChecked c b
    findMarks rest b' (m.at c b.text.length)

/-- The name is taken for one of RISC OS: `front` stands between the last two marks and `back` behind the last one,
which is `mark`. -/
def looksRiscos (os : Os) (path : Bool) (mark : UInt8) (slash : Bool) (front back : Text) : Bool :=
  if mark = DOT then
    if slash = false ∧ sfixfind os front then true else if sfixfind os back then false else path
  else if sfixfind os front then false
  else if sfixfind os back then true
  else path

/-- The guess, when the last mark is at the place `last`. -/
def guessAt (os : Os) (b : Buf) (m : Marks) (last orig_out : ℕ) (orig_in : Place) (path : Bool) : Run Tail := do
  let mark ← load b.block last
  let block ← store b.block last 0
  let front := match m.penultimate with
    | some penultimate => cstr (block.drop (penultimate + 1))
    | none => cstr (block.drop orig_out)
  let b := Buf.seek orig_out ⟨[], block⟩
  pure (if looksRiscos os path mark m.slash front (cstr (block.drop (last + 1))) then .copy b orig_in.rest
    else .translate b orig_in path)

/-- `guess_or_null`, up to the calls at its end; `i` is the place in the input, and `name` all of it. -/
def guess_or_null (os : Os) (flags : Flags) (b : Buf) (i : Place) (name : Text) (path : Bool) : Run Tail :=
  let orig_out := if path then b.text.length else 0
  let orig_in := if path then i else ⟨0, name⟩
  if flags.strict_unix_specs then pure (.translate (b.seek orig_out) orig_in path)
  else do
    let r ← findMarks i.rest b ⟨none, none, false⟩
    let b ← here 0 r.1
    match r.2.last with
    | none => pure (.translate (b.seek orig_out) orig_in path)
    | some last => guessAt os b r.2 last orig_out orig_in path

/-! ### Absolute paths -/

/-- The output in `canonical_name`, and the places in it. -/
structure Canonical where
  b : Buf
  current_slash : ℕ
  previous_slash : Option ℕ

def Canonical.put (c : UInt8) (s : Canonical) : Run Canonical := do
  let b ← WriteCursor.put c s.b
  pure { s with b := b }

def Canonical.slash (s : Canonical) : Run Canonical := do
  let b ← WriteCursor.put SLASH s.b
  pure ⟨b, s.b.text.length, some s.current_slash⟩

/-- `..`: the output goes back, or it is copied if there is nothing to go back to. -/
def Canonical.up (s : Canonical) : Run Canonical :=
  match s.previous_slash with
  | some previous_slash => pure { s with b := s.b.seek previous_slash }
  | none => do
    let b ← puts [DOT, DOT] s.b
    pure { s with b := b }

/-- One turn of the loop of `canonicalise_unix_path`. -/
def Canonical.turn (before : Option UInt8) (c : UInt8) (rest : Text) (s : Canonical) :
    Run (UInt8 × Text × Canonical) :=
  if c = SLASH then do
    let s ← s.slash
    pure (SLASH, rest.dropWhile (· = SLASH), s)
  else if c = DOT ∧ (before = none ∨ before = some SLASH) then
    if rest.head? = some DOT ∧ (rest[1]? = some SLASH ∨ rest[1]? = none) then do
      let s ← s.up
      pure (DOT, rest.drop 1, s)
    else if rest.head? = some SLASH then pure (SLASH, rest.drop 1, s)
    else if rest.head? = none ∧ before = some SLASH then pure (DOT, rest, s)
    else do
      let s ← s.put c
      pure (c, rest, s)
  else do
    let s ← s.put c
    pure (c, rest, s)

/-- The loop. Its limit is one behind the end of `canonical_name`, so that `out <= buf_end` holds as long as nothing
has been written outside. -/
def Canonical.loop : ℕ → Option UInt8 → Text → Canonical → Run Canonical
  | _, _, [], s => pure s
  | 0, _, _ :: _, _ => throw .endless
  | turns + 1, before, c :: rest, s => do
    let r ← s.turn before c rest
    Canonical.loop turns (some r.1) r.2.1 r.2.2

/-- `canonicalise_unix_path`, to `canonical_name`. -/
def canonicalise_unix_path (os : Os) (name : Text) : Run Buf := do
  let s ← Canonical.loop name.length none name ⟨⟨[], os.canonical⟩, 0, none⟩
  here 0 s.b

def behindDir (source : Text) (d : Text × Text) : Option Text :=
  if d.1 <+: source ∧ ((source.drop d.1.length).head? = none ∨ (source.drop d.1.length).head? = some SLASH) then
    some (source.drop d.1.length)
  else none

/-- `sdirseg`: what is left of the path, and the output; `none` is for no match. -/
def sdirseg (os : Os) (source : Text) (b : Buf) : Run (Option (Text × Buf)) :=
  match os.sdirs.findSome? fun d => (behindDir source d).map fun rest => (rest, d.2) with
  | none => pure none
  | some (rest, riscos_name) => do
    let b ← copy_or_null riscos_name b
    pure (some (rest, b))

/-- The rest behind a special directory: "if the matched segment was a path var then consume any '/'s". A character
in front of the rest is looked at only behind these. -/
def matched (rest : Text) (b : Buf) : Tail :=
  .translate b (if b.text.getLast? = some COLON then skipSlashes ⟨0, rest⟩ else ⟨0, rest⟩) true

/-- `/usr/` and `/var/` -/
def inUsr (cname : Text) : Bool := textOf "/usr/" <+: cname ∨ textOf "/var/" <+: cname

/-- "Check for special paths, starting with /dev". -/
def isDevice (cname : Text) : Bool := textOf "/dev/" <+: cname ∧ cname ≠ textOf "/dev/"

/-- "Try matching xxx segment". -/
def usrSegment (os : Os) (cname : Text) (b : Buf) : Run (Option (Text × Buf)) :=
  if inUsr cname then sdirseg os (cname.drop 5) b else pure none

/-- "Did not match any user defined paths, so treat it as a path on the current filing system". -/
def currentFs (os : Os) (cname : Text) (b : Buf) : Run Tail :=
  if b.room.length ≤ 2 then throw .message
  else do
    let b ← puts [DOLLAR, DOT] b
    pure (.translate b ⟨os.below, cname⟩ true)

/-- "Try matching against a user defined /xxx": the name is looked for from the second character on, be there one or
not. -/
def rootSegment (os : Os) (canonical : List UInt8) (b : Buf) : Run Tail := do
  match (← sdirseg os (cstr (canonical.drop 1 ++ os.behind)) b) with
  | some (rest, b) => pure (matched rest b)
  | none => currentFs os (cstr canonical) b

/-- "Must be an absolute unix path, with no RISC OS specific parts". -/
def absolute (os : Os) (name : Text) (b : Buf) : Run Tail := do
  let canonical ← canonicalise_unix_path os name
  if isDevice (cstr canonical.block) then pure (.device (b.seek 0) ((cstr canonical.block).drop 5))
  else
    match (← usrSegment os (cstr canonical.block) (b.seek 0)) with
    | some (rest, b) => pure (matched rest b)
    | none => rootSegment os canonical.block (b.seek 0)

/-! ### The first characters -/

/-- "Copy everything upto the first '.', '/', ':' or '#'". -/
def plain (c : UInt8) : Bool := c ≠ COLON ∧ c ≠ DOT ∧ c ≠ SLASH ∧ c ≠ HASH

/-- What is in front of a `:`, with a "fileswitch special field". -/
def copyField (i : Place) (b : Buf) : Run (Place × Buf) := do
  let r ← copyWhile plain i.before i.rest b
  if r.1.rest.head? = some HASH then copyWhile (· ≠ COLON) r.1.before r.1.rest r.2 else pure r

/-- "Copy everything upto the '>'"; the first character is the `<`. -/
def copySysvar (rest : Text) (b : Buf) : Run (Place × Buf) := do
  let b ← putChecked LESS b
  copyWhile (· ≠ GREATER) LESS rest b

/-- "Copy the '>'", if the name has not ended. -/
def copyGreater (r : Place × Buf) : Run (Place × Buf) :=
  match r.1.rest with
  | [] => pure r
  | c :: rest => do
    let b ← put c r.2
    pure (⟨c, rest⟩, b)

/-- The slash in front, if there is one, becomes a dot; and further ones are skipped. -/
def dotForSlash (i : Place) (b : Buf) : Run (Place × Buf) :=
  if i.rest.head? = some SLASH then slashAsDot i b else pure (skipSlashes i, b)

/-- `/<GCC$dir>/something` -/
def slashSysvar (rest : Text) (b : Buf) : Run Tail := do
  let r ← copySysvar rest b
  if r.2.room.length ≤ 2 then throw .message
  else do
    let r ← copyGreater r
    let r ← dotForSlash r.1 r.2
    pure (.translate r.2 r.1 true)

/-- "Ensure a dot before '$'". -/
def dotBeforeRoot (b : Buf) : Run Buf := if b.text.getLast? = some SLASH then setLast DOT b else pure b

/-- `/idefs::hd/$`, behind the first colon: the rest of the place starts with a colon. -/
def slashFilingSystem (i : Place) (b : Buf) : Run Tail := do
  let r ← copyWhile (· ≠ DOLLAR) i.before i.rest b
  match r.1.rest with
  | [] => pure (.translate r.2 r.1 true)
  | c :: rest => do
    let b ← dotBeforeRoot r.2
    let b ← put c b
    if b.room.length ≤ 1 then throw .message
    else do
      let r ← dotForSlash ⟨c, rest⟩ b
      pure (.translate r.2 r.1 true)

/-- Behind `/HostFS:$`, a dot or slashes are skipped, and a dot is written. -/
def behindRoot (rest : Text) (b : Buf) : Run (Place × Buf) :=
  match rest with
  | [] => pure (⟨DOLLAR, []⟩, b)
  | c :: rest' => do
    let b ← put DOT b
    pure (if c = DOT then ⟨DOT, rest'⟩ else skipSlashes ⟨DOLLAR, c :: rest'⟩, b)

/-- `/HostFS:$`, behind the colon. -/
def slashRoot (rest : Text) (b : Buf) : Run Tail := do
  let b ← put DOLLAR b
  if b.room.length ≤ 1 then throw .message
  else do
    let r ← behindRoot rest b
    pure (.translate r.2 r.1 true)

/-- "Must be a RISC OS filing system or path variable", behind the colon. -/
def slashColon (rest : Text) (b : Buf) : Run Tail :=
  if rest.head? = some COLON then slashFilingSystem ⟨COLON, rest⟩ b
  else if rest.head? = some DOLLAR then slashRoot (rest.drop 1) b
  else pure (.translate b (skipSlashes ⟨COLON, rest⟩) true)

/-- `case '/'`, behind the slash. -/
def slashCase (os : Os) (name rest : Text) (b : Buf) : Run Tail :=
  if rest.head? = some LESS then slashSysvar (rest.drop 1) b
  else do
    let r ← copyField ⟨SLASH, rest⟩ b
    if r.1.rest.head? = some COLON then do
      let b ← putChecked COLON r.2
      slashColon (r.1.rest.drop 1) b
    else absolute os name r.2

/-- `case '$'` and the like, behind the character `c`. -/
def rootCase (c : UInt8) (rest : Text) (b : Buf) : Run Tail := do
  let b ← put c b
  if rest.head? = some SLASH then
    if b.room = [] then throw .message
    else do
      let r ← slashAsDot ⟨c, rest⟩ b
      pure (.translate r.2 r.1 true)
  else pure (.copy b rest)

/-- Behind what may be a filing system or a sysvar: a slash is the directory separator, and the rest is translated;
else it is copied. -/
def translateOrCopy (i : Place) (b : Buf) : Run Tail :=
  if i.rest.head? = some SLASH then do
    let r ← slashAsDot i b
    pure (.translate r.2 r.1 true)
  else pure (.copy b i.rest)

/-- `case '<'`, behind the `<`. -/
def sysvarCase (rest : Text) (b : Buf) : Run Tail := do
  let r ← copySysvar rest b
  let r ← copyGreater r
  if r.2.room = [] then throw .message else translateOrCopy r.1 r.2

def return_ (c : UInt8) (b : Buf) : Run Tail :=
  if b.room.length ≤ 1 then throw .message
  else do
    let b ← put c b
    let b ← here 0 b
    pure (.done b)

/-- `case '.'`; the name starts with a dot. -/
def dotCase (name : Text) (b : Buf) : Run Tail :=
  if name = [DOT] then return_ AT b
  else if name = [DOT, DOT] then return_ CARET b
  else pure (.translate b ⟨0, name⟩ false)

/-- "Copy the .$ or /$ as .$". -/
def rootOfDisc (r : Place × Buf) : Run (Place × Buf) :=
  if r.1.rest[1]? = some DOLLAR then
    if r.2.room.length ≤ 2 then throw .message
    else do
      let b ← puts [DOT, DOLLAR] r.2
      pure (⟨DOLLAR, r.1.rest.drop 2⟩, b)
  else pure r

/-- `idefs::hd.$`, behind the first colon. -/
def filingSystem (rest : Text) (b : Buf) : Run Tail := do
  let r ← copyWhile (fun c => c ≠ DOT ∧ c ≠ SLASH) COLON rest b
  let r ← rootOfDisc r
  translateOrCopy r.1 r.2

/-- "Must be a RISC OS filing system or path var", behind the colon. -/
def colonCase (os : Os) (flags : Flags) (name rest : Text) (b : Buf) : Run Tail :=
  if rest.head? = some COLON then filingSystem rest b
  else if rest.head? = some SLASH then pure (.translate b (skipSlashes ⟨COLON, rest⟩) true)
  else guess_or_null os flags b ⟨COLON, rest⟩ name true

/-- `default`; nothing is in front of the name. -/
def defaultCase (os : Os) (flags : Flags) (name : Text) (b : Buf) : Run Tail := do
  let r ← copyField ⟨0, name⟩ b
  if r.1.rest.head? = some COLON then do
    let b ← putChecked COLON r.2
    colonCase os flags name (r.1.rest.drop 1) b
  else guess_or_null os flags r.2 r.1 name false

/-! ### `__riscosify` -/

/-- "catch ./path:file.h" -/
def skipCurrent (name : Text) : Text :=
  if name.head? = some DOT ∧ name[1]? = some SLASH ∧ COLON ∈ name then name.drop 1 else name

/-- A name that does not start with `~`. -/
def routeName (os : Os) (flags : Flags) (name : Text) (b : Buf) : Run Tail :=
  match skipCurrent name with
  | [] => defaultCase os flags name b
  | c :: rest =>
    if c = SLASH then slashCase os name rest b
    else if c = DOLLAR ∨ c = AT ∨ c = 0x25 ∨ c = 0x5C ∨ c = 0x26 ∨ c = CARET then rootCase c rest b
    else if c = LESS then sysvarCase rest b
    else if c = DOT then dotCase name b
    else defaultCase os flags name b

def behindUser (name : Text) : Text := (name.drop 1).dropWhile (· ≠ SLASH)

/-- Characters and a NUL are copied to `new_buffer`. -/
def toNewBuffer (t : Text) : Run Text := if t.length < MAXPATHLEN then pure t else throw .outside

/-- `case '~'`: a name behind a home directory; if that starts with `~` itself, the next case is fallen through to, which
skips a character. -/
def homeCase (os : Os) (flags : Flags) (name : Text) (b : Buf) : Run Tail := do
  let home ← toNewBuffer os.home
  if home.head? = some TILDE then
    match behindUser name with
    | [] => throw .outside
    | _ :: rest => slashCase os name rest b
  else do
    let new_name ← toNewBuffer (home ++ behindUser name)
    routeName os flags new_name b

/-- **The first characters of the name** are dealt with. -/
def route (os : Os) (flags : Flags) (name : Text) (b : Buf) : Run Tail :=
  if flags.no_process then pure (.copy b name)
  else if name.head? = some TILDE then homeCase os flags name b
  else routeName os flags name b

/-- **`__riscosify`**, with the output buffer `block`; the result is the place that is returned. -/
def riscosify (os : Os) (flags : Flags) (create_dir : Bool) (name : Text) (block : List UInt8) : Run Buf := do
  let t ← route os flags name ⟨[], block⟩
  t.run os flags create_dir

end UnixLib.Riscosify
