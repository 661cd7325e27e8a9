import Gccsdk.Lib.CText
import Gccsdk.Lib.WriteCursor
import Gccsdk.Asasm.Global

/-!
# Names of files

asasm takes the names of its files in RISC OS or in Unix style, and `FN_AnyToNative` (`filename.c`) gives
the name that the host has for the file, here a Unix host. First it replaces `<Name>` by the value of an
environment variable, as often as there is one (`expand`); then it looks at the name for signs of its style
(`detectStyle`), and takes its parts one by one (`getDir`), which `addDir` writes to the buffer of the
caller. Where nothing shows the style, the caller is asked to come again: the two answers are for the two
styles.

The buffer is a block with a place in it. What does not fit makes the place `NULL`, and the room none, so
that nothing is written any more.
-/

namespace Asasm.FileName

open CText CheckedRun WriteCursor

/-! ### Strings -/

/-- `strchr`: what is before the first such character, and what is behind it. -/
def cutAt (c : UInt8) : Name → Option (Name × Name)
  | [] => none
  | d :: s => if d = c then some ([], s) else (cutAt c s).map fun p => (d :: p.1, p.2)

/-- `strstr`, for a string of two characters. -/
def cutAtPair (c d : UInt8) : Name → Option (Name × Name)
  | a :: b :: s =>
    if a = c ∧ b = d then some ([], s) else (cutAtPair c d (b :: s)).map fun p => (a :: p.1, p.2)
  | _ => none

theorem cutAt_eq_some {c : UInt8} {s before behind : Name} :
    cutAt c s = some (before, behind) ↔ s = before ++ c :: behind ∧ c ∉ before := by
  induction s generalizing before with
  | nil => exact iff_of_false nofun fun h => List.append_ne_nil_of_right_ne_nil _ (List.cons_ne_nil _ _) h.1.symm
  | cons d s ih =>
    rw [cutAt]
    by_cases hd : d = c
    · rw [if_pos hd]
      constructor
      · intro h
        obtain ⟨rfl, rfl⟩ := Prod.mk.inj (Option.some.inj h)
        exact ⟨congrArg (· :: s) hd, List.not_mem_nil⟩
      · rintro ⟨h, hnot⟩
        cases before with
        | nil => rw [(List.cons.inj h).2]
        | cons a before => exact absurd (hd ▸ (List.cons.inj h).1 ▸ List.mem_cons_self) hnot
    · rw [if_neg hd, Option.map_eq_some_iff]
      constructor
      · rintro ⟨⟨front, rest⟩, hcut, h⟩
        obtain ⟨rfl, rfl⟩ := Prod.mk.inj h
        obtain ⟨rfl, hnot⟩ := ih.mp hcut
        exact ⟨rfl, fun hmem => (List.mem_cons.mp hmem).elim (fun heq => hd heq.symm) hnot⟩
      · rintro ⟨h, hnot⟩
        cases before with
        | nil => exact absurd (List.cons.inj h).1 hd
        | cons a before =>
          obtain ⟨rfl, rfl⟩ := List.cons.inj h
          exact ⟨(before, behind), ih.mpr ⟨rfl, fun hmem => hnot (List.mem_cons_of_mem _ hmem)⟩, rfl⟩

theorem cutAt_eq_none {c : UInt8} {s : Name} : cutAt c s = none ↔ c ∉ s := by
  constructor
  · intro h hmem
    obtain ⟨before, behind, rfl, hnot⟩ := List.eq_append_cons_of_mem hmem
    rw [cutAt_eq_some.mpr ⟨rfl, hnot⟩] at h
    exact nomatch h
  · intro hnot
    cases h : cutAt c s with
    | none => rfl
    | some p => exact absurd ((cutAt_eq_some.mp h).1 ▸ List.mem_append_right _ List.mem_cons_self) hnot

theorem cutAtPair_eq {c d : UInt8} {s before behind : Name} (h : cutAtPair c d s = some (before, behind)) :
    s = before ++ c :: d :: behind := by
  induction s generalizing before with
  | nil => exact nomatch h
  | cons a s ih =>
    cases s with
    | nil => exact nomatch h
    | cons b s =>
      rw [cutAtPair] at h
      split at h
      · rename_i hpair
        obtain ⟨rfl, rfl⟩ := Prod.mk.inj (Option.some.inj h)
        rw [hpair.1, hpair.2]
        rfl
      · obtain ⟨⟨front, rest⟩, hrest, heq⟩ := Option.map_eq_some_iff.mp h
        obtain ⟨rfl, rfl⟩ := Prod.mk.inj heq
        exact congrArg (a :: ·) (ih hrest)

/-! ### The environment -/

/-- The environment of the host: its entries are a name, `=` and a value. -/
abbrev Environ := List Name

/-- `getenv`: what is behind the name and its `=` in the first entry that begins so. -/
def getenv (environ : Environ) (name : Name) : Option Name :=
  environ.findSome? fun entry =>
    if (name ++ [0x3D]).isPrefixOf entry then some (entry.drop (name.length + 1)) else none

/-- What a variable of RISC OS is called in the environment: `$` is `_`, in capital letters. -/
def varName (name : Name) : Name := name.map fun c => if c = 0x24 then 0x5F else toupper c

/-! ### The variables in a name -/

/-- The first `<Name>` in a name: what is before it, the name in it, and what is behind it. -/
def findVar (s : Name) : Option (Name × Name × Name) :=
  (cutAt 0x3C s).bind fun p => (cutAt 0x3E p.2).map fun q => (p.1, q.1, q.2)

theorem findVar_eq_some {s before name behind : Name} :
    findVar s = some (before, name, behind) ↔
      s = before ++ 0x3C :: name ++ 0x3E :: behind ∧ 0x3C ∉ before ∧ 0x3E ∉ name := by
  rw [findVar, Option.bind_eq_some_iff]
  constructor
  · rintro ⟨⟨front, rest⟩, hlt, h⟩
    obtain ⟨⟨name', behind'⟩, hgt, heq⟩ := Option.map_eq_some_iff.mp h
    cases heq
    obtain ⟨hs, hfront⟩ := cutAt_eq_some.mp hlt
    obtain ⟨hrest, hname⟩ := cutAt_eq_some.mp hgt
    refine ⟨?_, hfront, hname⟩
    rw [hs, List.append_assoc]
    exact congrArg (fun r => front ++ 0x3C :: r) hrest
  · rintro ⟨rfl, hfront, hname⟩
    refine ⟨(before, name ++ 0x3E :: behind), cutAt_eq_some.mpr ⟨?_, hfront⟩, ?_⟩
    · rw [List.append_assoc]
      rfl
    · refine Option.map_eq_some_iff.mpr ⟨(name, behind), cutAt_eq_some.mpr ⟨rfl, hname⟩, rfl⟩

/-- One turn of the expansion: the name is done, or this is the next one. An unknown variable is warned of,
and ends the expansion. -/
def expandTurn (environ : Environ) (s : Name) : (Name × List Diag) ⊕ Name :=
  match findVar s with
  | none => .inl (s, [])
  | some (before, name, behind) =>
    match getenv environ (varName name) with
    | none => .inl (s, [⟨.warning, "Unknown environment variable '%s'", [.str (varName name)]⟩])
    | some vardef => .inr (before ++ vardef ++ behind)

/-- **The expansion of variables**, with at most so many of them. -/
def expand (environ : Environ) : ℕ → Name → Run (Name × List Diag)
  | 0, s =>
    match expandTurn environ s with
    | .inl r => pure r
    | .inr _ => throw .endless
  | turns + 1, s =>
    match expandTurn environ s with
    | .inl r => pure r
    | .inr s => expand environ turns s

/-! ### The buffer -/

/-- **Where the name goes**: the buffer, with the place `out` in it, and what `outsize` says is left. -/
structure Out where
  buf : Buf
  outsize : ℕ
  isNull : Bool

/-- `.` and `/` stand for each other in the two styles. -/
def swapDirSep (c : UInt8) : UInt8 := if c = 0x2E then 0x2F else if c = 0x2F then 0x2E else c

def addToOut (toadd : Name) (o : Out) (swapdirsep : Bool) : Run Out :=
  if o.outsize < toadd.length then pure { o with outsize := 0, isNull := true }
  else if o.isNull then if toadd = [] then pure o else throw .outside
  else do
    let buf ← puts (if swapdirsep then toadd.map swapDirSep else toadd) o.buf
    pure { o with buf := buf, outsize := o.outsize - toadd.length }

/-- What `add_dir` takes for a part: `$` is the root, `^` the directory above, and `.`, `@` and `%` are left
out. -/
def dirName : Name → Option Name
  | [c] =>
    if c = 0x24 then some [] else if c = 0x5E then some [0x2E, 0x2E]
    else if c = 0x2E ∨ c = 0x40 ∨ c = 0x25 then none else some [c]
  | dir => some dir

def addDir (dir : Name) (o : Out) (swapdirsep : Bool) : Run Out :=
  match dirName dir with
  | none => pure o
  | some dir => do
    let o ← addToOut dir o (swapdirsep && dir ≠ [0x2E, 0x2E])
    addToOut [0x2F] o false

/-! ### The parts of a name -/

inductive PathStyle
  | eDontKnow
  | eRISCOS
  | eUnix
  deriving DecidableEq

/-- `FN_eOutputType` -/
inductive OutputType
  | eA_Dot_B
  | eB_DirSep_A
  | eA_Slash_B
  deriving DecidableEq

/-- The place of the last `.` or `:` at or before a place, or else the start. -/
def scanBack (s : Name) : ℕ → ℕ
  | 0 => 0
  | l + 1 => if s[l + 1]? = some 0x2E ∨ s[l + 1]? = some 0x3A then l + 1 else scanBack s l

/-- Where the last part of a RISC OS name begins, or its separator: `foo.bar` at its end is one part, but not
behind `$`, `^`, `@` or `%`. -/
def riscosLast (s : Name) : ℕ :=
  let l := scanBack s s.length
  if l ≠ 0 ∧ s[l]? = some 0x2E then
    let l := scanBack s (l - 1)
    if s[l + 1]? = some 0x2E ∧
        (s[l]? = some 0x24 ∨ s[l]? = some 0x5E ∨ s[l]? = some 0x40 ∨ s[l]? = some 0x25) then s.length
    else l
  else l

def riscosLimit (s : Name) : ℕ :=
  if riscosLast s = 0 then s.length
  else
    match cutAt 0x2E s with
    | some (before, _) => if before.length ≤ riscosLast s then before.length else s.length
    | none => s.length

def dirLimit (pathStyle : PathStyle) (s : Name) : ℕ :=
  if pathStyle = .eRISCOS then riscosLimit s
  else
    match cutAt 0x2F s with
    | some (before, _) => before.length
    | none => s.length

/-- `get_dir`: a part, and what is behind it and its separator; nothing if the part is too long. -/
def getDir (pathStyle : PathStyle) (outsize : ℕ) (s : Name) : Option (Name × Name) :=
  if dirLimit pathStyle s < outsize then
    some (s.take (dirLimit pathStyle s), (s.drop (dirLimit pathStyle s)).drop 1)
  else none

/-- A last part that is two words with a dot between them, and no other dot. -/
def splitDot (dirPart : Name) : Option (Name × Name) :=
  match cutAt 0x2E dirPart with
  | none => none
  | some (before, behind) => if before ≠ [] ∧ behind ≠ [] ∧ 0x2E ∉ behind then some (before, behind) else none

def addPart (pathStyle : PathStyle) (outtype : OutputType) (isLast : Bool) (dirPart : Name) (o : Out) :
    Run Out :=
  match if isLast then splitDot dirPart else none with
  | some (before, behind) =>
    match outtype with
    | .eB_DirSep_A => do
      let o ← addToOut behind o false
      let o ← addToOut [0x2F] o false
      addToOut before o false
    | .eA_Slash_B => addDir (before ++ 0x2F :: behind) o false
    | .eA_Dot_B => addDir dirPart o false
  | none => addDir dirPart o (pathStyle ≠ .eUnix)

/-- **The loop over the parts of a name.** It fails if one of them is too long. -/
def addParts (pathStyle : PathStyle) (outtype : OutputType) : ℕ → Name → Out → Run (Out × Bool)
  | _, [], o => pure (o, true)
  | 0, _ :: _, _ => throw .endless
  | turns + 1, s@(_ :: _), o =>
    match getDir pathStyle 256 s with
    | none => pure (o, false)
    | some (dirPart, rest) => do
      let o ← addPart pathStyle outtype rest.isEmpty dirPart o
      addParts pathStyle outtype turns rest o

/-! ### The style of a name -/

/-- A name that begins with `$`, `@` or `%` as its first part. -/
def beginsRiscos : Name → Bool
  | c :: s => (c = 0x24 ∨ c = 0x40 ∨ c = 0x25) ∧ (s.head?.all (· = 0x2E))
  | [] => false

/-- The first `..` is a whole part of a Unix name. -/
def hasDotDot (s : Name) : Bool :=
  match cutAtPair 0x2E 0x2E s with
  | none => false
  | some (before, behind) => before.getLast?.all (· = 0x2F) && behind.head?.all (· = 0x2F)

/-- A name that begins with `.` as a part of a Unix name. -/
def beginsDot : Name → Bool
  | c :: s => c = 0x2E ∧ s.head?.all (· = 0x2F)
  | [] => false

/-- The first `^` is a whole part of a RISC OS name. -/
def hasParent (s : Name) : Bool :=
  match cutAt 0x5E s with
  | none => false
  | some (before, behind) => before.getLast?.all (· = 0x2E) && behind.head?.all (· = 0x2E)

def shownStyle (s : Name) : PathStyle :=
  if hasDotDot s then .eUnix else if beginsDot s then .eUnix else if hasParent s then .eRISCOS else .eDontKnow

/-- The size of `path`. -/
def pathSize : ℕ := 48

/-- A path variable in front of a name, `Name:`, and what is behind it; at most so many characters of the
name are looked at. -/
def pathVar : ℕ → Name → Option (Name × Name)
  | 0, _ => none
  | _ + 1, [] => none
  | n + 1, c :: s =>
    if c = 0x2E ∨ c = 0x2F then none
    else if c = 0x3A then some ([], s)
    else (pathVar n s).map fun p => (varName [c] ++ p.1, p.2)

/-- `path`, with `_PATH` and a NUL put behind the name that it holds. -/
def pathBuf (name : Name) : Run Name :=
  if name.length + 6 ≤ pathSize then pure (name ++ cstr "_PATH") else throw .outside

/-- The part of a path variable with this index, or how many are left to go. -/
def selectPath : ℕ → Name → Option Name × ℕ
  | 0, e => (if e = [] then none else some e, 0)
  | pathidx + 1, e =>
    if e = [] then (none, pathidx + 1)
    else
      match cutAt 0x3A e with
      | none => (none, pathidx + 1)
      | some (_, rest) => selectPath pathidx rest

/-- The first directory of a list, -/
def firstEntry (e : Name) : Name :=
  match cutAt 0x3A e with
  | some (before, _) => before
  | none => e

/-- without a slash at its end. -/
def firstDir (e : Name) : Name :=
  if (firstEntry e).getLast? = some 0x2F then (firstEntry e).dropLast else firstEntry e

structure Start where
  rest : Name
  pathStyle : PathStyle
  pathidx : ℕ
  out : Out

/-- **The style of a name**, and what is written for its root or its path variable. -/
def detectStyle (environ : Environ) (s : Name) (pathidx : ℕ) (o : Out) : Run Start :=
  match cutAtPair 0x2E 0x24 s with
  | some (before, behind) => do
    -- `ADFS::Disc.$`, with a slash in front of it or without
    let o ← addDir [] o false
    let o ← addDir ((if s.head? = some 0x2F then before.drop 1 else before) ++ [0x2E, 0x24]) o false
    pure
      { rest := if behind.head? = some 0x2E ∨ behind.head? = some 0x2F then behind.drop 1 else behind
        pathStyle := if s.head? = some 0x2F then .eUnix else .eRISCOS
        pathidx := pathidx
        out := o }
  | none =>
    if s.head? = some 0x2F then do
      let o ← addDir [] o false
      pure ⟨s.drop 1, .eUnix, pathidx, o⟩
    else if beginsRiscos s then pure ⟨s, .eRISCOS, pathidx, o⟩
    else
      match pathVar (pathSize - 5) s with
      | none => pure ⟨s, shownStyle s, pathidx, o⟩
      | some (name, behind) => do
        let path ← pathBuf name
        match getenv environ path with
        | none => pure ⟨s, .eRISCOS, pathidx, o⟩
        | some e =>
          match selectPath pathidx e with
          | (none, left) => pure ⟨s, .eRISCOS, left, o⟩
          | (some dirs, left) => do
            let o ← addToOut (firstDir dirs) o false
            let o ← addToOut [0x2F] o false
            pure ⟨behind, .eRISCOS, left, o⟩

/-! ### The whole function -/

/-- **An answer**: the buffer, whether it is returned (and not `NULL`), and the state for the next time. -/
structure Answer where
  buf : List UInt8
  found : Bool
  state : Bool

/-- The style that the parts are taken in, and the state afterwards: where the style is not known the first
time is for RISC OS, and the second for Unix. -/
def chooseStyle (pathStyle : PathStyle) (state : Bool) : Run (PathStyle × Bool) :=
  if pathStyle = .eDontKnow then if state then pure (.eUnix, false) else pure (.eRISCOS, true)
  else if state then throw .message
  else pure (pathStyle, state)

def stripSlash (b : Buf) : Run Buf := if b.text.getLast? = some 0x2F then setLast 0 b else pure b

/-- The end of the name: a name with nothing in it is the current directory. -/
def endName (b : Buf) : Run Buf := do
  let b ← stripSlash b
  if b.block.head? = some 0 then do
    let b ← put 0x2E (b.seek 0)
    here 0 b
  else pure b

/-- `FN_AnyToNative`, with a limit on the turns of the expansion. -/
def FN_AnyToNative (turns : ℕ) (environ : Environ) (name : Name) (pathidx : ℕ) (buf : List UInt8)
    (state : Bool)
    (outtype : OutputType) : Run (Answer × List Diag) := do
  let (s, diags) ← expand environ turns name
  if buf.length < 2 then return (⟨buf, false, state⟩, diags)
  let buf ← here 0 ⟨[], buf⟩
  let start ← detectStyle environ s pathidx ⟨buf, buf.block.length, false⟩
  if start.pathidx ≠ 0 then return (⟨start.out.buf.block, false, state⟩, diags)
  let (pathStyle, state) ← chooseStyle start.pathStyle state
  let (o, whole) ← addParts pathStyle outtype start.rest.length start.rest start.out
  if !whole || o.isNull then return (⟨o.buf.block, false, state⟩, diags)
  let b ← endName o.buf
  return (⟨b.block, true, state⟩, diags)

end Asasm.FileName
