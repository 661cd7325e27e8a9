import Gccsdk.Asasm.AreaImage
import Gccsdk.Lib.CText
import Gccsdk.Lib.LittleEndian
import Gccsdk.Lib.RecordStream
import Mathlib.Data.List.Chain

/-!
# Line numbers for DWARF

`DWARF_MarkAs` of `debug_dwarf.c` is called for each instruction of a code area. It keeps the file, the line
and the offset as a stream of marks, which an area has in a buffer that grows; file and line are written
where they change only. When everything is assembled, `DWARF_DumpDebugLine` goes through the streams of all
areas again and has the library for DWARF make the line table. Files are declared to the library by
directory and leaf name, and have a number from then on.

The line table has every instruction with its file, line and offset, in order (`debugLine_iff`). The offsets
of an area have to increase; where they do not, an assertion fails.
-/

namespace Asasm

open CheckedRun ListPatch RecordStream

variable {ι P : Type}

/-! ### Marks -/

/-- A mark: a change of the file or of the line, or the offset of an instruction. A file is given by the
pointer to its name, which is kept for good. -/
inductive Mark (P : Type)
  | fileName (p : P)
  | lineNumber (num : BitVec 32)
  | offset (num : BitVec 32)
  deriving DecidableEq, Repr

/-- What the host's `const char *`, `unsigned` and `uint32_t` look like in memory. -/
structure LineHost (P : Type) where
  pointer : HostRepr P
  unsigned : HostRepr (BitVec 32)
  uint32 : HostRepr (BitVec 32)

namespace Mark

/-- `MarkData_eTypes` -/
def type : Mark P → UInt8
  | fileName _ => 0
  | lineNumber _ => 1
  | offset _ => 2

/-- The member `raw` of the unions. -/
def raw (h : LineHost P) : Mark P → List UInt8
  | fileName p => h.pointer.raw p
  | lineNumber num => h.unsigned.raw num
  | offset num => h.uint32.raw num

def bytes (h : LineHost P) (m : Mark P) : List UInt8 := m.type :: m.raw h

def next (h : LineHost P) (buf : List UInt8) (i : ℕ) : Run (Mark P × ℕ) := do
  let type ← load buf i
  if type = 0 then do
    let (p, i) ← h.pointer.load buf (i + 1)
    pure (fileName p, i)
  else if type = 1 then do
    let (num, i) ← h.unsigned.load buf (i + 1)
    pure (lineNumber num, i)
  else if type = 2 then do
    let (num, i) ← h.uint32.load buf (i + 1)
    pure (offset num, i)
  else throw .message

end Mark

/-! ### Writing -/

/-- `DWARF_State_t` -/
structure DwarfState (P : Type) where
  lastFileName : Option P
  lastLineNumber : BitVec 32
  lastOffset : BitVec 32
  lineDataIdx : ℕ
  /-- The allocated buffer, of `lineDataSize` bytes. -/
  lineDataBuf : List UInt8

def dwarfInitializeState : DwarfState P := ⟨none, 0, 0xFFFFFFFF, 0, []⟩

namespace DwarfState

/-- The buffer of `DWARF_MarkData_Store` when there is room for a mark. -/
def grown (os : Realloc) (buf : List UInt8) (minSize : ℕ) : Run (List UInt8) :=
  let newSize := max (if buf.length ≠ 0 then 2 * buf.length else 256) minSize
  if minSize ≤ buf.length then pure buf
  else if os.succeeds buf.length newSize then
    pure (buf ++ (List.range (newSize - buf.length)).map (os.fresh buf.length))
  else throw .message

/-- `DWARF_MarkData_Store` -/
def markDataStore (os : Realloc) (h : LineHost P) (s : DwarfState P) (m : Mark P) : Run (DwarfState P) := do
  let buf ← grown os s.lineDataBuf (s.lineDataIdx + (m.raw h).length + 1)
  let buf ← stores buf s.lineDataIdx (m.bytes h)
  pure { s with lineDataIdx := s.lineDataIdx + (m.bytes h).length, lineDataBuf := buf }

def markFileName [DecidableEq P] (os : Realloc) (h : LineHost P) (s : DwarfState P) (fileName : P) :
    Run (DwarfState P) :=
  if s.lastFileName = some fileName then pure s
  else do
    let s ← s.markDataStore os h (.fileName fileName)
    pure { s with lastFileName := some fileName }

def markLineNumber (os : Realloc) (h : LineHost P) (s : DwarfState P) (lineNumber : BitVec 32) :
    Run (DwarfState P) :=
  if s.lastLineNumber = lineNumber then pure s
  else do
    let s ← s.markDataStore os h (.lineNumber lineNumber)
    pure { s with lastLineNumber := lineNumber }

def markOffset (os : Realloc) (h : LineHost P) (s : DwarfState P) (offset : BitVec 32) : Run (DwarfState P) :=
  if s.lastOffset < offset ∨ s.lastOffset = 0xFFFFFFFF then do
    let s ← s.markDataStore os h (.offset offset)
    pure { s with lastOffset := offset }
  else throw .message

end DwarfState

structure LineArea where
  isCode : Bool
  isImplicit : Bool
  maxIdx : BitVec 32

/-- A call of `DWARF_MarkAs`. -/
structure LineEvent (ι P : Type) where
  area : ι
  offset : BitVec 32
  fileName : P
  lineNumber : BitVec 32

/-- The assembler's surroundings: the areas, the options and the phase, the file names, and what the host
and its `realpath` know of them. -/
structure LineEnv (ι P : Type) where
  /-- `option_debug && !option_aof && gPhase == ePassTwo` -/
  recording : Bool
  info : ι → LineArea
  areas : List ι
  nameAt : P → Name
  realpath : Name → Option Name
  cwd : Name

/-- **`DWARF_MarkAs`**, for the state of the event's area. -/
def dwarfMarkAs [DecidableEq P] (os : Realloc) (h : LineHost P) (env : LineEnv ι P) (e : LineEvent ι P)
    (s : DwarfState P) :
    Run (DwarfState P) :=
  if (env.info e.area).isCode && env.recording then do
    let s ← s.markFileName os h e.fileName
    let s ← s.markLineNumber os h e.lineNumber
    s.markOffset os h e.offset
  else pure s

def markOne [DecidableEq ι] [DecidableEq P] (os : Realloc) (h : LineHost P) (env : LineEnv ι P)
    (states : ι → DwarfState P) (e : LineEvent ι P) : Run (ι → DwarfState P) := do
  let s ← dwarfMarkAs os h env e (states e.area)
  pure (Function.update states e.area s)

/-! ### Files -/

/-- What has been declared to the library: directories, and files with the number of their directory. -/
structure LineTables where
  dirs : List Name
  files : List (Name × ℕ)

/-- `DWARF_DirEntry`, with its files and their numbers. -/
structure DirEntry where
  name : Name
  idx : ℕ
  files : List (Name × ℕ)

/-- `DWARF_FSObjTree`, and what the library has been told. -/
structure FSObjTree where
  dirs : List DirEntry
  tables : LineTables

namespace FSObjTree

/-- `DWARF_FSObjTree_Init` -/
def init (cwd : Name) : FSObjTree := ⟨[⟨cwd, 0, []⟩], ⟨[], []⟩⟩

def dirAt (t : FSObjTree) (dir : Name) : FSObjTree × ℕ :=
  match t.dirs.findIdx? (·.name = dir) with
  | some i => (t, i)
  | none =>
    (⟨t.dirs ++ [⟨dir, t.tables.dirs.length + 1, []⟩], { t.tables with dirs := t.tables.dirs ++ [dir] }⟩,
      t.dirs.length)

def fileAt (t : FSObjTree) (i : ℕ) (leaf : Name) : Run (FSObjTree × ℕ) := do
  let dir ← load t.dirs i
  match dir.files.find? (·.1 = leaf) with
  | some file => pure (t, file.2)
  | none =>
    pure (⟨t.dirs.set i { dir with files := dir.files ++ [(leaf, t.tables.files.length + 1)] },
      { t.tables with files := t.tables.files ++ [(leaf, dir.idx)] }⟩, t.tables.files.length + 1)

/-- **`DWARF_FSObjTree_GetIdx`.** -/
def getIdx (realpath : Name → Option Name) (t : FSObjTree) (fname : Name) : Run (FSObjTree × ℕ) :=
  match realpath fname with
  | none => throw .outside
  | some canon =>
    match CText.strrchr 0x2F canon with
    | none => t.fileAt 0 canon
    | some i =>
      let (t, dir) := t.dirAt (canon.take i)
      t.fileAt dir (canon.drop (i + 1))

end FSObjTree

/-! ### Going through the marks -/

inductive LineCall (ι φ : Type)
  /-- `dwarf_lne_set_address` -/
  | setAddress (offset : BitVec 32) (area : ι)
  /-- `dwarf_add_line_entry` -/
  | entry (file : φ) (offset lineNumber : BitVec 32)
  /-- `dwarf_lne_end_sequence` -/
  | endSequence (offset : BitVec 32)
  deriving DecidableEq, Repr

def LineCall.map {φ ψ : Type} (f : φ → ψ) : LineCall ι φ → LineCall ι ψ
  | setAddress offset area => setAddress offset area
  | entry file offset lineNumber => entry (f file) offset lineNumber
  | endSequence offset => endSequence offset

/-- The state of `DWARF_DumpDebugLine`. -/
structure DumpState (ι : Type) where
  tree : FSObjTree
  calls : List (LineCall ι ℕ)
  didSetAddress : Bool
  curFileIdx : ℕ
  curLineNumber : BitVec 32

def dumpMark (env : LineEnv ι P) (area : ι) (t : DumpState ι) : Mark P → Run (DumpState ι)
  | .fileName p => do
    let (tree, idx) ← t.tree.getIdx env.realpath (env.nameAt p)
    pure { t with tree := tree, curFileIdx := idx }
  | .lineNumber num => pure { t with curLineNumber := num }
  | .offset num =>
    pure { t with
      didSetAddress := true
      calls := t.calls ++ (if t.didSetAddress then [] else [.setAddress num area]) ++
        [.entry t.curFileIdx num t.curLineNumber] }

/-- `FIX` -/
def roundToWord (n : BitVec 32) : BitVec 32 := (3 + n) &&& ~~~3

def sequenceEnd (env : LineEnv ι P) (area : ι) (t : DumpState ι) : DumpState ι :=
  if t.didSetAddress then { t with calls := t.calls ++
    [.endSequence (roundToWord (env.info area).maxIdx)] } else t

variable (h : LineHost P) (env : LineEnv ι P)

theorem Mark.bytes_ne (m : Mark P) : m.bytes h ≠ [] := List.cons_ne_nil m.type (m.raw h)

theorem Mark.next_bytes (pre post : List UInt8) (m : Mark P) :
    Mark.next h (pre ++ (m.bytes h ++ post)) pre.length = .ok (m, pre.length + (m.bytes h).length) := by
  have hload : load (pre ++ (m.bytes h ++ post)) pre.length = .ok m.type := by
    rw [load, List.getElem?_append_right (Nat.le_refl _), Nat.sub_self]
    rfl
  have hsplit : pre ++ (m.bytes h ++ post) = (pre ++ [m.type]) ++ (m.raw h ++ post) := by
    rw [List.append_assoc]
    rfl
  have hidx : pre.length + 1 = (pre ++ [m.type]).length := by
    rw [List.length_append]
    rfl
  have hlen : pre.length + (m.bytes h).length = pre.length + 1 + (m.raw h).length := by
    change pre.length + ((m.raw h).length + 1) = _
    omega
  unfold Mark.next
  rw [hload, ok_bind, hlen, hsplit]
  cases m with
  | fileName p =>
    change (h.pointer.load (_ ++ (h.pointer.raw p ++ post)) _ >>= _) = _
    rw [h.pointer.load_raw hidx]
    rfl
  | lineNumber num =>
    change (h.unsigned.load (_ ++ (h.unsigned.raw num ++ post)) _ >>= _) = _
    rw [h.unsigned.load_raw hidx]
    rfl
  | offset num =>
    change (h.uint32.load (_ ++ (h.uint32.raw num ++ post)) _ >>= _) = _
    rw [h.uint32.load_raw hidx]
    rfl

def markFormat : Format (Mark P) where
  bytes := Mark.bytes h
  next := Mark.next h
  bytes_ne := Mark.bytes_ne h
  next_bytes := Mark.next_bytes h

/-- The part of `DWARF_DumpDebugLine` for one area. -/
def dumpArea (states : ι → DwarfState P) (area : ι) (t : DumpState ι) : Run (DumpState ι) :=
  if (env.info area).isImplicit then pure t
  else do
    let t := { t with didSetAddress := false, curFileIdx := 0, curLineNumber := 0 }
    let t ← dumpLoop (markFormat h) (dumpMark env area) (states area).lineDataBuf (states area).lineDataIdx
      ((states area).lineDataIdx + 1) 0 t
    pure (sequenceEnd env area t)

/-- **`DWARF_DumpDebugLine`.** -/
def dumpDebugLine (states : ι → DwarfState P) : Run (DumpState ι) :=
  env.areas.foldlM (fun t area => dumpArea h env states area t) ⟨FSObjTree.init env.cwd, [], false, 0, 0⟩

def debugLine [DecidableEq ι] [DecidableEq P] (os : Realloc) (events : List (LineEvent ι P)) :
    Run (DumpState ι) := do
  let states ← events.foldlM (markOne os h env) fun _ => dwarfInitializeState
  dumpDebugLine h env states

/-! ### The stream of an area -/

abbrev LineSoFar (P : Type) := Option P × BitVec 32

def marksFor [DecidableEq P] (s : LineSoFar P) (e : LineEvent ι P) : List (Mark P) :=
  (if s.1 = some e.fileName then [] else [.fileName e.fileName]) ++
    (if s.2 = e.lineNumber then [] else [.lineNumber e.lineNumber]) ++ [.offset e.offset]

def lineAfter (_ : LineSoFar P) (e : LineEvent ι P) : LineSoFar P := (some e.fileName, e.lineNumber)

def eventMarks [DecidableEq P] (s : LineSoFar P) (events : List (LineEvent ι P)) : List (Mark P) :=
  marks marksFor lineAfter s events

/-- **The buffer holds the marks.** -/
structure DwarfState.Holds (h : LineHost P) (s : DwarfState P) (ms : List (Mark P)) : Prop where
  idx : s.lineDataIdx = (ms.flatMap (Mark.bytes h)).length
  data : ∃ rest, s.lineDataBuf = ms.flatMap (Mark.bytes h) ++ rest

variable {h env} {os : Realloc} {s : DwarfState P} {ms : List (Mark P)}

theorem DwarfState.grown_eq (hmem : ∀ old new, os.succeeds old new = true) (buf : List UInt8) (minSize : ℕ) :
    ∃ more, grown os buf minSize = .ok (buf ++ more) ∧ minSize ≤ (buf ++ more).length := by
  unfold grown
  by_cases hroom : minSize ≤ buf.length
  · refine ⟨[], ?_, ?_⟩
    · rw [if_pos hroom, List.append_nil]
      rfl
    · rw [List.append_nil]
      exact hroom
  · rw [if_neg hroom, if_pos (hmem _ _)]
    refine ⟨_, rfl, ?_⟩
    rw [List.length_append, List.length_map, List.length_range]
    omega

structure DwarfState.SameLast (s t : DwarfState P) : Prop where
  fileName : t.lastFileName = s.lastFileName
  lineNumber : t.lastLineNumber = s.lastLineNumber
  offset : t.lastOffset = s.lastOffset

theorem DwarfState.Holds.markDataStore (hmem : ∀ old new, os.succeeds old new = true) (hs : s.Holds h ms)
    (m : Mark P) : ∃ t, s.markDataStore os h m = .ok t ∧ t.Holds h (ms ++ [m]) ∧ s.SameLast t := by
  obtain ⟨rest, hrest⟩ := hs.data
  obtain ⟨more, hgrown, hroom⟩ :=
    DwarfState.grown_eq hmem s.lineDataBuf (s.lineDataIdx + (m.raw h).length + 1)
  have hbytes : (m.bytes h).length = (m.raw h).length + 1 := rfl
  have hlen : s.lineDataIdx + (m.bytes h).length ≤ (s.lineDataBuf ++ more).length := by omega
  have hsnoc : (ms ++ [m]).flatMap (Mark.bytes h) = ms.flatMap (Mark.bytes h) ++ m.bytes h := by
    rw [List.flatMap_append, List.flatMap_singleton]
  unfold DwarfState.markDataStore
  rw [hgrown, ok_bind, stores_eq hlen]
  refine ⟨_, rfl, ⟨?_, (s.lineDataBuf ++ more).drop (s.lineDataIdx + (m.bytes h).length), ?_⟩,
    ⟨rfl, rfl, rfl⟩⟩
  · rw [hsnoc, List.length_append, ← hs.idx]
  · have htake : (s.lineDataBuf ++ more).take s.lineDataIdx = ms.flatMap (Mark.bytes h) := by
      rw [hrest, hs.idx, List.append_assoc, List.take_left]
    rw [hsnoc, ← htake]

theorem DwarfState.Holds.markFileName [DecidableEq P] (hmem : ∀ old new, os.succeeds old new = true)
    (hs : s.Holds h ms) (p : P) :
    ∃ t, s.markFileName os h p = .ok t ∧
      t.Holds h (ms ++ if s.lastFileName = some p then [] else [.fileName p]) ∧
      ({ s with lastFileName := some p } : DwarfState P).SameLast t := by
  unfold DwarfState.markFileName
  by_cases hsame : s.lastFileName = some p
  · rw [if_pos hsame, if_pos hsame, List.append_nil]
    exact ⟨s, rfl, hs, ⟨hsame, rfl, rfl⟩⟩
  · rw [if_neg hsame, if_neg hsame]
    obtain ⟨t, ht, hholds, hlast⟩ := hs.markDataStore hmem (.fileName p)
    rw [ht]
    exact ⟨_, rfl, ⟨hholds.idx, hholds.data⟩, ⟨rfl, hlast.lineNumber, hlast.offset⟩⟩

theorem DwarfState.Holds.markLineNumber (hmem : ∀ old new, os.succeeds old new = true) (hs : s.Holds h ms)
    (num : BitVec 32) :
    ∃ t, s.markLineNumber os h num = .ok t ∧
      t.Holds h (ms ++ if s.lastLineNumber = num then [] else [.lineNumber num]) ∧
      ({ s with lastLineNumber := num } : DwarfState P).SameLast t := by
  unfold DwarfState.markLineNumber
  by_cases hsame : s.lastLineNumber = num
  · rw [if_pos hsame, if_pos hsame, List.append_nil]
    exact ⟨s, rfl, hs, ⟨rfl, hsame, rfl⟩⟩
  · rw [if_neg hsame, if_neg hsame]
    obtain ⟨t, ht, hholds, hlast⟩ := hs.markDataStore hmem (.lineNumber num)
    rw [ht]
    exact ⟨_, rfl, ⟨hholds.idx, hholds.data⟩, ⟨hlast.fileName, rfl, hlast.offset⟩⟩

/-- **The condition on offsets** that stand one behind the other: the second is above the first, or the
first is the one that a new area has. -/
def OffsetRises (o o' : BitVec 32) : Prop := o < o' ∨ o = 0xFFFFFFFF

instance (o o' : BitVec 32) : Decidable (OffsetRises o o') := inferInstanceAs (Decidable (_ ∨ _))

/-- **The state of an area behind events.** -/
structure DwarfState.Records [DecidableEq P] (h : LineHost P) (s : DwarfState P)
    (events : List (LineEvent ι P)) : Prop where
  holds : s.Holds h (eventMarks (none, 0) events)
  soFar : (s.lastFileName, s.lastLineNumber) = events.foldl lineAfter (none, 0)
  lastOffset : s.lastOffset = (events.getLast?.map LineEvent.offset).getD 0xFFFFFFFF

theorem records_nil [DecidableEq P] (h : LineHost P) :
    (dwarfInitializeState : DwarfState P).Records h ([] : List (LineEvent ι P)) :=
  ⟨⟨rfl, [], rfl⟩, rfl, rfl⟩

/-- **An event is recorded** if its offset is right; otherwise an assertion fails. -/
theorem DwarfState.Records.dwarfMarkAs [DecidableEq P] (hmem : ∀ old new, os.succeeds old new = true)
    {events : List (LineEvent ι P)} (hs : s.Records h events) {e : LineEvent ι P}
    (hrec : ((env.info e.area).isCode && env.recording) = true) :
    if OffsetRises s.lastOffset e.offset then
      ∃ t, dwarfMarkAs os h env e s = .ok t ∧ t.Records h (events ++ [e])
    else dwarfMarkAs os h env e s = .error .message := by
  obtain ⟨t, ht, htholds, htlast⟩ := hs.holds.markFileName hmem e.fileName
  obtain ⟨u, hu, huholds, hulast⟩ := htholds.markLineNumber hmem e.lineNumber
  have hoffset : u.lastOffset = s.lastOffset := hulast.offset.trans htlast.offset
  have hmarks : eventMarks (none, 0) (events ++ [e]) =
      eventMarks (none, 0) events ++ (if s.lastFileName =
        some e.fileName then [] else [.fileName e.fileName]) ++
        (if t.lastLineNumber = e.lineNumber then [] else [.lineNumber e.lineNumber]) ++ [.offset e.offset] :=
          by
    unfold eventMarks
    rw [marks_append, ← hs.soFar, htlast.lineNumber]
    change _ ++ ((_ ++ _ ++ _) ++ []) = _
    rw [List.append_nil, List.append_assoc, List.append_assoc, List.append_assoc]
  unfold Asasm.dwarfMarkAs
  rw [if_pos hrec, ht, ok_bind, hu, ok_bind, DwarfState.markOffset, hoffset]
  by_cases hrises : OffsetRises s.lastOffset e.offset
  · have hcond : s.lastOffset < e.offset ∨ s.lastOffset = 0xFFFFFFFF := hrises
    rw [if_pos hrises, if_pos hcond]
    obtain ⟨v, hv, hvholds, hvlast⟩ := huholds.markDataStore hmem (.offset e.offset)
    rw [← hmarks] at hvholds
    rw [hv]
    refine ⟨_, rfl, ⟨hvholds.idx, hvholds.data⟩, ?_, ?_⟩
    · rw [List.foldl_concat]
      exact Prod.ext (hvlast.fileName.trans (hulast.fileName.trans htlast.fileName))
        (hvlast.lineNumber.trans hulast.lineNumber)
    · rw [List.getLast?_concat]
      rfl
  · have hcond : ¬(s.lastOffset < e.offset ∨ s.lastOffset = 0xFFFFFFFF) := hrises
    rw [if_neg hrises, if_neg hcond]
    rfl

/-! ### The streams of all areas -/

def recorded [DecidableEq ι] (env : LineEnv ι P) (events : List (LineEvent ι P)) (area : ι) :
    List (LineEvent ι P) :=
  events.filter fun e => (env.info e.area).isCode && env.recording && decide (e.area = area)

/-- **The offsets of an area increase.** -/
def OffsetsRise [DecidableEq ι] (env : LineEnv ι P) (events : List (LineEvent ι P)) (area : ι) : Prop :=
  ((recorded env events area).map LineEvent.offset).IsChain OffsetRises

theorem recorded_concat [DecidableEq ι] (env : LineEnv ι P) (events : List (LineEvent ι P))
    (e : LineEvent ι P)
    (area : ι) :
    recorded env (events ++ [e]) area = recorded env events area ++
      if (env.info e.area).isCode && env.recording && decide (e.area = area) then [e] else [] := by
  unfold recorded
  rw [List.filter_append, List.filter_singleton]
  cases h : (env.info e.area).isCode && env.recording && decide (e.area = area) <;> rfl

theorem offsetsRise_concat [DecidableEq P] [DecidableEq ι] {events : List (LineEvent ι P)} {e : LineEvent ι P}
    (hs : s.Records h (recorded env events e.area)) (hrec : ((env.info e.area).isCode && env.recording) =
      true) :
    OffsetsRise env (events ++ [e]) e.area ↔ OffsetsRise env events e.area ∧
      OffsetRises s.lastOffset e.offset := by
  have hsnoc : recorded env (events ++ [e]) e.area = recorded env events e.area ++ [e] := by
    rw [recorded_concat, hrec, decide_eq_true rfl]
    rfl
  unfold OffsetsRise
  rw [hsnoc, List.map_append, List.isChain_append, hs.lastOffset, List.getLast?_map]
  refine and_congr_right fun _ => ?_
  cases (recorded env events e.area).getLast? with
  | none => exact iff_of_true ⟨List.isChain_singleton _, nofun⟩ (Or.inr rfl)
  | some last =>
    refine ⟨fun hchain => hchain.2 last.offset rfl e.offset rfl, fun hrises => ⟨List.isChain_singleton _, ?_⟩⟩
    rintro _ ⟨⟩ _ ⟨⟩
    exact hrises

theorem OffsetsRise.of_append [DecidableEq ι] {events more : List (LineEvent ι P)} {area : ι}
    (hrise : OffsetsRise env (events ++ more) area) : OffsetsRise env events area := by
  unfold OffsetsRise recorded at hrise ⊢
  rw [List.filter_append, List.map_append] at hrise
  exact (List.isChain_append.mp hrise).1

theorem markOne_spec [DecidableEq ι] [DecidableEq P] (hmem : ∀ old new, os.succeeds old new = true)
    {seen : List (LineEvent ι P)} {states : ι → DwarfState P} (hst : ∀ a,
      (states a).Records h (recorded env seen a))
    (hrise : ∀ a, OffsetsRise env seen a) (e : LineEvent ι P) :
    ((∀ a, OffsetsRise env (seen ++ [e]) a) ∧ ∃ states', markOne os h env states e = .ok states' ∧
      ∀ a, (states' a).Records h (recorded env (seen ++ [e]) a)) ∨
    ((¬∀ a, OffsetsRise env (seen ++ [e]) a) ∧ markOne os h env states e = .error .message) := by
  have hother : ∀ a, a ≠ e.area → recorded env (seen ++ [e]) a = recorded env seen a := by
    intro a hne
    rw [recorded_concat, decide_eq_false (Ne.symm hne), Bool.and_false, if_neg Bool.false_ne_true,
      List.append_nil]
  have hriseOther : ∀ a, a ≠ e.area → OffsetsRise env (seen ++ [e]) a := by
    intro a hne
    unfold OffsetsRise
    rw [hother a hne]
    exact hrise a
  unfold markOne
  by_cases hrec : ((env.info e.area).isCode && env.recording) = true
  · have hsnoc : recorded env (seen ++ [e]) e.area = recorded env seen e.area ++ [e] := by
      rw [recorded_concat, hrec, decide_eq_true rfl]
      rfl
    have hiff := offsetsRise_concat (hst e.area) hrec
    have hspec := (hst e.area).dwarfMarkAs hmem hrec
    by_cases hoffset : OffsetRises (states e.area).lastOffset e.offset
    · rw [if_pos hoffset] at hspec
      obtain ⟨t, ht, hrecords⟩ := hspec
      refine Or.inl ⟨fun a => ?_, _, by rw [ht]; rfl, fun a => ?_⟩
      · by_cases ha : a = e.area
        · rw [ha]
          exact hiff.mpr ⟨hrise e.area, hoffset⟩
        · exact hriseOther a ha
      · by_cases ha : a = e.area
        · rw [ha, Function.update_self, hsnoc]
          exact hrecords
        · rw [Function.update_of_ne ha, hother a ha]
          exact hst a
    · rw [if_neg hoffset] at hspec
      refine Or.inr ⟨fun hall => hoffset (hiff.mp (hall e.area)).2, ?_⟩
      rw [hspec]
      rfl
  · -- nothing is recorded
    have hsame : ∀ a, recorded env (seen ++ [e]) a = recorded env seen a := by
      intro a
      rw [recorded_concat, Bool.eq_false_iff.mpr hrec, Bool.false_and, if_neg Bool.false_ne_true,
        List.append_nil]
    refine Or.inl ⟨fun a => ?_, states, ?_, fun a => ?_⟩
    · unfold OffsetsRise
      rw [hsame a]
      exact hrise a
    · rw [dwarfMarkAs, if_neg hrec]
      exact congrArg Except.ok (Function.update_eq_self e.area states)
    · rw [hsame a]
      exact hst a

/-- **All calls**: they are recorded if the offsets of all areas increase; otherwise an assertion fails. -/
theorem markAll_spec [DecidableEq ι] [DecidableEq P] (hmem : ∀ old new, os.succeeds old new = true)
    {seen : List (LineEvent ι P)} {states : ι → DwarfState P} (hst : ∀ a,
      (states a).Records h (recorded env seen a))
    (hrise : ∀ a, OffsetsRise env seen a) (es : List (LineEvent ι P)) :
    ((∀ a, OffsetsRise env (seen ++ es) a) ∧ ∃ states', es.foldlM (markOne os h env) states = .ok states' ∧
      ∀ a, (states' a).Records h (recorded env (seen ++ es) a)) ∨
    ((¬∀ a, OffsetsRise env (seen ++ es) a) ∧ es.foldlM (markOne os h env) states = .error .message) := by
  induction es generalizing seen states with
  | nil =>
    rw [List.append_nil]
    exact Or.inl ⟨hrise, states, rfl, hst⟩
  | cons e es ih =>
    have hsplit : seen ++ e :: es = (seen ++ [e]) ++ es := by rw [List.append_assoc]; rfl
    rw [hsplit, List.foldlM_cons]
    obtain ⟨hrise', states', hone, hst'⟩ | ⟨hnot, hone⟩ := markOne_spec hmem hst hrise e
    · rw [hone]
      exact ih hst' hrise'
    · rw [hone]
      exact Or.inr ⟨fun hall => hnot fun a => (hall a).of_append, rfl⟩

/-! ### Numbers of files -/

def dirName (cwd : Name) (tables : LineTables) (idx : ℕ) : Option Name :=
  if idx = 0 then some cwd else tables.dirs[idx - 1]?

/-- **The file of a number.** -/
def pathOf (cwd : Name) (tables : LineTables) (idx : ℕ) : Option Name :=
  if idx = 0 then none
  else do
    let (leaf, dirIdx) ← tables.files[idx - 1]?
    let dir ← dirName cwd tables dirIdx
    pure (dir ++ 0x2F :: leaf)

structure LineTables.Extends (old new : LineTables) : Prop where
  dirs : old.dirs <+: new.dirs
  files : old.files <+: new.files

theorem LineTables.Extends.refl (tables : LineTables) : tables.Extends tables :=
  ⟨List.prefix_refl _, List.prefix_refl _⟩

theorem LineTables.Extends.trans {t₁ t₂ t₃ : LineTables} (h₁ : t₁.Extends t₂) (h₂ : t₂.Extends t₃) :
    t₁.Extends t₃ := ⟨h₁.dirs.trans h₂.dirs, h₁.files.trans h₂.files⟩

private theorem getElem?_of_prefix {α : Type} {l l' : List α} (hl : l <+: l') {i : ℕ} {a : α}
    (ha : l[i]? = some a) :
    l'[i]? = some a := by
  obtain ⟨more, rfl⟩ := hl
  rw [List.getElem?_append_left (List.getElem?_eq_some_iff.mp ha).1]
  exact ha

variable {cwd : Name} {old new : LineTables}

theorem LineTables.Extends.dirName (hext : old.Extends new) {idx : ℕ} {dir : Name}
    (hdir : dirName cwd old idx = some dir) : Asasm.dirName cwd new idx = some dir := by
  unfold Asasm.dirName at hdir ⊢
  split at hdir
  next hzero =>
    rw [if_pos hzero]
    exact hdir
  next hne =>
    rw [if_neg hne]
    exact getElem?_of_prefix hext.dirs hdir

theorem LineTables.Extends.pathOf (hext : old.Extends new) {idx : ℕ} {path : Name}
    (hpath : pathOf cwd old idx = some path) : Asasm.pathOf cwd new idx = some path := by
  unfold Asasm.pathOf at hpath ⊢
  split at hpath
  next => exact nomatch hpath
  next hne =>
    rw [if_neg hne]
    obtain ⟨⟨leaf, dirIdx⟩, hfile, hpath⟩ := Option.bind_eq_some_iff.mp hpath
    obtain ⟨dir, hdir, hpath⟩ := Option.bind_eq_some_iff.mp hpath
    refine Option.bind_eq_some_iff.mpr ⟨_, getElem?_of_prefix hext.files hfile, ?_⟩
    exact Option.bind_eq_some_iff.mpr ⟨dir, hext.dirName hdir, hpath⟩

/-- **The tree agrees with what has been declared.** -/
structure FSObjTree.Sound (cwd : Name) (t : FSObjTree) : Prop where
  dir : ∀ d ∈ t.dirs, dirName cwd t.tables d.idx = some d.name
  file : ∀ d ∈ t.dirs, ∀ f ∈ d.files, f.2 ≠ 0 ∧ t.tables.files[f.2 - 1]? = some (f.1, d.idx)

theorem FSObjTree.sound_init (cwd : Name) : (FSObjTree.init cwd).Sound cwd := by
  refine ⟨fun d hd => ?_, fun d hd f hf => ?_⟩
  · rw [List.mem_singleton.mp hd]
    rfl
  · rw [List.mem_singleton.mp hd] at hf
    exact nomatch hf

theorem FSObjTree.Sound.dirAt {t : FSObjTree} (ht : t.Sound cwd) (dir : Name) :
    (t.dirAt dir).1.Sound cwd ∧ t.tables.Extends (t.dirAt dir).1.tables ∧
      ∃ d, (t.dirAt dir).1.dirs[(t.dirAt dir).2]? = some d ∧ d.name = dir := by
  unfold FSObjTree.dirAt
  cases hfind : t.dirs.findIdx? (·.name = dir) with
  | some i =>
    obtain ⟨hlt, hname, -⟩ := List.findIdx?_eq_some_iff_getElem.mp hfind
    exact ⟨ht, LineTables.Extends.refl _, t.dirs[i], List.getElem?_eq_getElem hlt, of_decide_eq_true hname⟩
  | none =>
    dsimp only
    have hext : t.tables.Extends { t.tables with dirs := t.tables.dirs ++ [dir] } :=
      ⟨List.prefix_append _ _, List.prefix_refl _⟩
    refine ⟨⟨fun d hd => ?_, fun d hd f hf => ?_⟩, hext, ⟨dir, t.tables.dirs.length + 1, []⟩, ?_, rfl⟩
    · rcases List.mem_append.mp hd with hd | hd
      · exact hext.dirName (ht.dir d hd)
      · rw [List.mem_singleton.mp hd]
        unfold dirName
        rw [if_neg (Nat.succ_ne_zero _), Nat.add_sub_cancel]
        exact List.getElem?_concat_length
    · rcases List.mem_append.mp hd with hd | hd
      · exact ht.file d hd f hf
      · rw [List.mem_singleton.mp hd] at hf
        exact nomatch hf
    · exact List.getElem?_concat_length

theorem FSObjTree.Sound.fileAt {t : FSObjTree} (ht : t.Sound cwd) {i : ℕ} {d : DirEntry}
    (hd : t.dirs[i]? = some d) (leaf : Name) :
    ∃ r, t.fileAt i leaf = .ok r ∧ r.1.Sound cwd ∧ t.tables.Extends r.1.tables ∧
      pathOf cwd r.1.tables r.2 = some (d.name ++ 0x2F :: leaf) := by
  have hmem : d ∈ t.dirs := List.mem_of_getElem? hd
  have hload : load t.dirs i = .ok d := by
    rw [load, hd]
    rfl
  unfold FSObjTree.fileAt
  rw [hload, ok_bind]
  cases hfind : d.files.find? (·.1 = leaf) with
  | some f =>
    obtain ⟨hne, hfile⟩ := ht.file d hmem f (List.mem_of_find?_eq_some hfind)
    have hleaf : f.1 = leaf := by
      have hfound := List.find?_some hfind
      exact of_decide_eq_true hfound
    refine ⟨_, rfl, ht, LineTables.Extends.refl _, ?_⟩
    dsimp only
    unfold pathOf
    rw [if_neg hne, hfile, Option.bind_eq_bind, Option.bind_some]
    dsimp only
    rw [ht.dir d hmem, Option.bind_eq_bind, Option.bind_some, hleaf]
    rfl
  | none =>
    have hext : t.tables.Extends { t.tables with files := t.tables.files ++ [(leaf, d.idx)] } :=
      ⟨List.prefix_refl _, List.prefix_append _ _⟩
    refine ⟨_, rfl, ⟨fun d' hd' => ?_, fun d' hd' f hf => ?_⟩, hext, ?_⟩
    · rcases List.mem_or_eq_of_mem_set hd' with hd' | rfl
      · exact ht.dir d' hd'
      · exact ht.dir d hmem
    · rcases List.mem_or_eq_of_mem_set hd' with hd' | rfl
      · obtain ⟨hne, hfile⟩ := ht.file d' hd' f hf
        exact ⟨hne, getElem?_of_prefix hext.files hfile⟩
      · rcases List.mem_append.mp hf with hf | hf
        · obtain ⟨hne, hfile⟩ := ht.file d hmem f hf
          exact ⟨hne, getElem?_of_prefix hext.files hfile⟩
        · rw [List.mem_singleton.mp hf]
          exact ⟨Nat.succ_ne_zero _, List.getElem?_concat_length⟩
    · dsimp only
      unfold pathOf
      rw [if_neg (Nat.succ_ne_zero _), Nat.add_sub_cancel, List.getElem?_concat_length, Option.bind_eq_bind,
        Option.bind_some]
      dsimp only
      have hdir : dirName cwd { t.tables with files := t.tables.files ++ [(leaf, d.idx)] } d.idx =
        some d.name :=
        ht.dir d hmem
      rw [hdir]
      rfl

theorem FSObjTree.Sound.getIdx {t : FSObjTree} (ht : t.Sound cwd) {realpath : Name → Option Name}
    {fname canon : Name} (hreal : realpath fname = some canon) (hslash : 0x2F ∈ canon) :
    ∃ r, t.getIdx realpath fname = .ok r ∧ r.1.Sound cwd ∧ t.tables.Extends r.1.tables ∧
      pathOf cwd r.1.tables r.2 = some canon := by
  unfold FSObjTree.getIdx
  rw [hreal]
  dsimp only
  cases hleaf : CText.strrchr 0x2F canon with
  | none => exact absurd hslash (CText.strrchr_eq_none.mp hleaf)
  | some i =>
    obtain ⟨hsound, hext, d, hd, hname⟩ := ht.dirAt (canon.take i)
    dsimp only
    obtain ⟨r, hr, hrsound, hrext, hpath⟩ := hsound.fileAt hd (canon.drop (i + 1))
    refine ⟨r, hr, hrsound, hext.trans hrext, ?_⟩
    rw [hpath, hname, CText.take_append_strrchr hleaf]

/-! ### The line table -/

def shownBy (cwd : Name) (tables : LineTables) (calls : List (LineCall ι ℕ)) :
    List (LineCall ι (Option Name)) :=
  calls.map (LineCall.map (pathOf cwd tables))

theorem shownBy_extends (hext : old.Extends new) {calls : List (LineCall ι ℕ)}
    {shown : List (LineCall ι Name)} (hshown : shownBy cwd old calls = shown.map (LineCall.map some)) :
    shownBy cwd new calls = shown.map (LineCall.map some) := by
  unfold shownBy at hshown ⊢
  induction calls generalizing shown with
  | nil => exact hshown
  | cons call calls ih =>
    cases shown with
    | nil => exact nomatch hshown
    | cons c shown =>
      rw [List.map_cons, List.map_cons] at hshown ⊢
      obtain ⟨hhead, htail⟩ := List.cons.inj hshown
      refine congrArg₂ List.cons ?_ (ih htail)
      cases call with
      | setAddress offset area => exact hhead
      | endSequence offset => exact hhead
      | entry file offset line =>
        cases c with
        | setAddress _ _ => exact nomatch hhead
        | endSequence _ => exact nomatch hhead
        | entry path offset' line' =>
          obtain ⟨hpath, hoffset, hline⟩ := LineCall.entry.inj hhead
          change LineCall.entry _ _ _ = LineCall.entry _ _ _
          rw [hext.pathOf hpath, hoffset, hline]

section Table

variable (canon : P → Name)

def lineOf (e : LineEvent ι P) : LineCall ι Name := .entry (canon e.fileName) e.offset e.lineNumber

/-- **The lines of an area**, as they are to be, but for the end of the sequence. -/
def linesOf (area : ι) : List (LineEvent ι P) → List (LineCall ι Name)
  | [] => []
  | e :: es => .setAddress e.offset area :: (e :: es).map (lineOf canon)

def tableOf [DecidableEq ι] (env : LineEnv ι P) (events : List (LineEvent ι P)) (area : ι) :
    List (LineCall ι Name) :=
  if (env.info area).isImplicit then []
  else
    linesOf canon area (recorded env events area) ++
      if recorded env events area = [] then [] else [.endSequence (roundToWord (env.info area).maxIdx)]

variable {canon}

theorem linesOf_concat (area : ι) (es : List (LineEvent ι P)) (e : LineEvent ι P) :
    linesOf canon area (es ++ [e]) = linesOf canon area es ++
      (if es = [] then [.setAddress e.offset area] else []) ++
      [lineOf canon e] := by
  cases es with
  | nil => rfl
  | cons e' es =>
    rw [if_neg (List.cons_ne_nil e' es), List.append_nil]
    change _ :: ((e' :: es) ++ [e]).map (lineOf canon) = _
    rw [List.map_append]
    rfl

/-- **Reader and writer agree** on the events of an area, behind the lines `before` of other
areas. -/
structure Agrees (env : LineEnv ι P) (canon : P → Name) (area : ι) (before : List (LineCall ι Name))
    (s : LineSoFar P)
    (t : DumpState ι) (seen : List (LineEvent ι P)) : Prop where
  sound : t.tree.Sound env.cwd
  line : t.curLineNumber = s.2
  file : ∀ p, s.1 = some p → pathOf env.cwd t.tree.tables t.curFileIdx = some (canon p)
  did : t.didSetAddress = !seen.isEmpty
  calls : shownBy env.cwd t.tree.tables t.calls = (before ++ linesOf canon area seen).map (LineCall.map some)

variable {before : List (LineCall ι Name)} {t : DumpState ι} {seen : List (LineEvent ι P)}

theorem Agrees.dumpFile [DecidableEq P] {area : ι} {s : LineSoFar P}
    (ht : Agrees env canon area before s t seen) {p : P}
    (hreal : env.realpath (env.nameAt p) = some (canon p)) (hslash : 0x2F ∈ canon p) :
    ∃ t', (if s.1 = some p then [] else [Mark.fileName p]).foldlM (dumpMark env area) t = .ok t' ∧
      Agrees env canon area before (some p, s.2) t' seen := by
  by_cases hsame : s.1 = some p
  · rw [if_pos hsame]
    refine ⟨t, rfl, ht.sound, ht.line, ?_, ht.did, ht.calls⟩
    rintro _ ⟨⟩
    exact ht.file p hsame
  · rw [if_neg hsame, List.foldlM_cons]
    obtain ⟨r, hr, hsound, hext, hpath⟩ := ht.sound.getIdx hreal hslash
    have hmark : dumpMark env area t (.fileName p) = .ok { t with tree := r.1, curFileIdx := r.2 } := by
      unfold dumpMark
      dsimp only
      rw [hr]
      rfl
    rw [hmark]
    refine ⟨_, rfl, hsound, ht.line, ?_, ht.did, shownBy_extends hext ht.calls⟩
    rintro _ ⟨⟩
    exact hpath

theorem Agrees.dumpLine {area : ι} {s : LineSoFar P}
    (ht : Agrees env canon area before s t seen) (num : BitVec 32) :
    ∃ t', (if s.2 = num then [] else [Mark.lineNumber num]).foldlM (dumpMark env area) t = .ok t' ∧
      Agrees env canon area before (s.1, num) t' seen := by
  by_cases hsame : s.2 = num
  · rw [if_pos hsame]
    exact ⟨t, rfl, ht.sound, ht.line.trans hsame, ht.file, ht.did, ht.calls⟩
  · rw [if_neg hsame]
    exact ⟨{ t with curLineNumber := num }, rfl, ht.sound, rfl, ht.file, ht.did, ht.calls⟩

theorem Agrees.dumpEvent [DecidableEq P] {area : ι} {s : LineSoFar P}
    (ht : Agrees env canon area before s t seen) {e : LineEvent ι P}
    (hreal : env.realpath (env.nameAt e.fileName) = some (canon e.fileName)) (hslash :
      0x2F ∈ canon e.fileName) :
    ∃ t', (marksFor s e).foldlM (dumpMark env area) t = .ok t' ∧
      Agrees env canon area before (lineAfter s e) t' (seen ++ [e]) := by
  obtain ⟨u, hu, hufile⟩ := ht.dumpFile hreal hslash
  obtain ⟨v, hv, hvline⟩ := hufile.dumpLine e.lineNumber
  unfold marksFor
  rw [List.foldlM_append, List.foldlM_append, hu, ok_bind, hv, ok_bind]
  refine ⟨_, rfl, hvline.sound, hvline.line, hvline.file, ?_, ?_⟩
  · cases seen <;> rfl
  · have hfile := hvline.file e.fileName rfl
    have hset : (if v.didSetAddress then [] else [LineCall.setAddress e.offset area] :
      List (LineCall ι ℕ)).map
        (LineCall.map (pathOf env.cwd v.tree.tables)) =
        (if seen = [] then [LineCall.setAddress e.offset area] else [] : List (LineCall ι Name)).map
          (LineCall.map some) := by
      rw [hvline.did]
      cases seen <;> rfl
    have hentry : [LineCall.entry v.curFileIdx e.offset v.curLineNumber].map
        (LineCall.map (pathOf env.cwd v.tree.tables)) = [lineOf canon e].map (LineCall.map (ι := ι) some) :=
          by
      change [LineCall.entry _ _ _] = [LineCall.entry _ _ _]
      rw [hfile, hvline.line]
    have hcalls := hvline.calls
    unfold shownBy at hcalls ⊢
    dsimp only
    rw [linesOf_concat, List.map_append, List.map_append, hcalls, hset, hentry]
    simp only [List.map_append, List.append_assoc]

theorem dumpArea_spec [DecidableEq ι] [DecidableEq P] {states : ι → DwarfState P}
    {events : List (LineEvent ι P)} {area : ι} (hst : (states area).Records h (recorded env events area))
    (hcanon : ∀ e ∈ events, env.realpath (env.nameAt e.fileName) = some (canon e.fileName) ∧
      0x2F ∈ canon e.fileName) (hsound : t.tree.Sound env.cwd)
    (hcalls : shownBy env.cwd t.tree.tables t.calls = before.map (LineCall.map some)) :
    ∃ t', dumpArea h env states area t = .ok t' ∧ t'.tree.Sound env.cwd ∧
      shownBy env.cwd t'.tree.tables t'.calls =
        (before ++ tableOf canon env events area).map (LineCall.map some) := by
  unfold dumpArea tableOf
  by_cases himplicit : (env.info area).isImplicit = true
  · rw [if_pos himplicit, if_pos himplicit, List.append_nil]
    exact ⟨t, rfl, hsound, hcalls⟩
  · rw [if_neg himplicit, if_neg himplicit]
    obtain ⟨rest, hdata⟩ := hst.holds.data
    have hinit : Agrees env canon area before (none, 0)
        { t with didSetAddress := false, curFileIdx := 0, curLineNumber := 0 } [] := by
      refine ⟨hsound, rfl, nofun, rfl, ?_⟩
      change shownBy env.cwd t.tree.tables t.calls = (before ++ []).map _
      rw [List.append_nil]
      exact hcalls
    have hstep : ∀ s t es (e : LineEvent ι P), Agrees env canon area before s t es → e ∈ events →
        ∃ t', (marksFor s e).foldlM (dumpMark env area) t = .ok t' ∧
          Agrees env canon area before (lineAfter s e) t' (es ++ [e]) :=
      fun s t es e ht he => ht.dumpEvent (hcanon e he).1 (hcanon e he).2
    have hmem : ∀ e ∈ recorded env events area, e ∈ events := fun e he => (List.mem_filter.mp he).1
    obtain ⟨u, hu, hagrees⟩ := foldlM_marks hstep hinit hmem
    have hloop :
      dumpLoop (markFormat h) (dumpMark env area) (states area).lineDataBuf (states area).lineDataIdx
        ((states area).lineDataIdx + 1) 0 { t with didSetAddress := false, curFileIdx := 0, curLineNumber :=
          0 } =
        .ok u := by
      rw [hdata, hst.holds.idx]
      exact (dumpLoop_all (markFormat h) (dumpMark env area) _ rest _).trans hu
    dsimp only
    rw [hloop, ok_bind]
    rw [List.nil_append] at hagrees
    have hmore := hagrees.calls
    unfold sequenceEnd
    rw [hagrees.did]
    cases hevents : recorded env events area with
    | nil =>
      rw [hevents] at hmore
      have hnone : ¬(!([] : List (LineEvent ι P)).isEmpty) = true := Bool.false_ne_true
      rw [if_neg hnone, if_pos rfl, List.append_nil]
      exact ⟨u, rfl, hagrees.sound, hmore⟩
    | cons e es =>
      rw [hevents] at hmore
      have hsome : (!(e :: es).isEmpty) = true := rfl
      rw [if_pos hsome, if_neg (List.cons_ne_nil e es)]
      refine ⟨_, rfl, hagrees.sound, ?_⟩
      unfold shownBy at hmore ⊢
      dsimp only
      have hend : before ++ (linesOf canon area (e :: es) ++
        [.endSequence (roundToWord (env.info area).maxIdx)]) =
          (before ++ linesOf canon area (e :: es)) ++ [.endSequence (roundToWord (env.info area).maxIdx)] :=
        (List.append_assoc ..).symm
      have hone : [LineCall.endSequence (roundToWord (env.info area).maxIdx)].map
          (LineCall.map (ι := ι) (pathOf env.cwd u.tree.tables)) =
          [LineCall.endSequence (roundToWord (env.info area).maxIdx)].map (LineCall.map some) := rfl
      rw [hend, List.map_append, hmore, hone]
      exact List.map_append.symm

theorem dumpAreas_spec [DecidableEq ι] [DecidableEq P] {states : ι → DwarfState P}
    {events : List (LineEvent ι P)} (hst : ∀ area, (states area).Records h (recorded env events area))
    (hcanon : ∀ e ∈ events, env.realpath (env.nameAt e.fileName) = some (canon e.fileName) ∧
      0x2F ∈ canon e.fileName) (areas : List ι) (hsound : t.tree.Sound env.cwd)
    (hcalls : shownBy env.cwd t.tree.tables t.calls = before.map (LineCall.map some)) :
    ∃ t', areas.foldlM (fun t area => dumpArea h env states area t) t = .ok t' ∧
      shownBy env.cwd t'.tree.tables t'.calls =
        (before ++ areas.flatMap (tableOf canon env events)).map (LineCall.map some) := by
  induction areas generalizing before t with
  | nil =>
    rw [List.flatMap_nil, List.append_nil]
    exact ⟨t, rfl, hcalls⟩
  | cons area areas ih =>
    obtain ⟨u, hu, husound, hucalls⟩ := dumpArea_spec (hst area) hcanon hsound hcalls
    obtain ⟨t', ht', hcalls'⟩ := ih husound hucalls
    refine ⟨t', ?_, ?_⟩
    · rw [List.foldlM_cons, hu]
      exact ht'
    · rw [hcalls', List.flatMap_cons, List.append_assoc]

end Table

/-- **Every sequence of instructions** in all areas: the line table has them all, each with its file, line
and offset, in order, if and only if the offsets of each area increase. -/
theorem debugLine_iff [DecidableEq ι] [DecidableEq P] (h : LineHost P) (env : LineEnv ι P) {os : Realloc}
    (hmem : ∀ old new, os.succeeds old new = true) (canon : P → Name) (events : List (LineEvent ι P))
    (hcanon : ∀ e ∈ events,
      env.realpath (env.nameAt e.fileName) = some (canon e.fileName) ∧ 0x2F ∈ canon e.fileName) :
    (∃ t, debugLine h env os events = .ok t ∧ shownBy env.cwd t.tree.tables t.calls =
      (env.areas.flatMap (tableOf canon env events)).map (LineCall.map some)) ↔
      ∀ area, OffsetsRise env events area := by
  unfold debugLine
  have hnil : ∀ area, OffsetsRise env ([] : List (LineEvent ι P)) area := fun _ => List.isChain_nil
  have hstart : ∀ area, (dwarfInitializeState : DwarfState P).Records h (recorded env [] area) :=
    fun _ => records_nil h
  obtain ⟨hrise, states, hmark, hst⟩ | ⟨hnot, hmark⟩ := markAll_spec hmem hstart hnil events
  · refine iff_of_true ?_ hrise
    have hempty : shownBy env.cwd (FSObjTree.init env.cwd).tables ([] : List (LineCall ι ℕ)) =
        ([] : List (LineCall ι Name)).map (LineCall.map some) := rfl
    obtain ⟨t, ht, hcalls⟩ := dumpAreas_spec (t := ⟨FSObjTree.init env.cwd, [], false, 0, 0⟩) hst hcanon
      env.areas (FSObjTree.sound_init env.cwd) hempty
    rw [hmark]
    exact ⟨t, ht, hcalls⟩
  · refine iff_of_false ?_ hnot
    rintro ⟨t, ht, -⟩
    rw [hmark] at ht
    exact nomatch ht

def wordRepr : HostRepr (BitVec 32) where
  size := 4
  raw := LittleEndian.bytes
  value raw := (LittleEndian.wordAt raw 0).getD 0
  length_raw := LittleEndian.length_bytes
  value_raw w := by
    have hword : LittleEndian.wordAt ([] ++ (LittleEndian.bytes w ++ [])) 0 = some w :=
      LittleEndian.wordAt_append rfl
    rw [List.nil_append, List.append_nil] at hword
    rw [hword]
    rfl

def wordHost : LineHost (BitVec 32) := ⟨wordRepr, wordRepr, wordRepr⟩

/-- Code in one area, from `/s/a`, and from `/s/b` that it includes. -/
def twoFiles : LineEnv Unit (BitVec 32) where
  recording := true
  info _ := ⟨true, false, 12⟩
  areas := [()]
  nameAt p := if p = 0x8000 then cstr "/s/a" else cstr "/s/b"
  realpath := some
  cwd := cstr "/s"

/-- A line of `/s/a`, one of `/s/b`, and an earlier one again. -/
theorem debugLine_iff_twoFiles :
    let events : List (LineEvent Unit (BitVec 32)) :=
      [⟨(), 0, 0x8000, 7⟩, ⟨(), 4, 0x9000, 300⟩, ⟨(), 8, 0x8000, 2⟩]
    (∃ t, debugLine wordHost twoFiles ⟨fun _ _ => true, fun _ _ => 0⟩ events = .ok t ∧
      shownBy twoFiles.cwd t.tree.tables t.calls =
        (twoFiles.areas.flatMap (tableOf twoFiles.nameAt twoFiles events)).map (LineCall.map some)) ↔
      ∀ area, OffsetsRise twoFiles events area :=
  debugLine_iff wordHost twoFiles (fun _ _ => rfl) twoFiles.nameAt _ (by decide)

/-- `IT EQ` and `MOVEQ R0, R1` in ARM code: IT makes no code there, so that both have the same offset. -/
theorem not_debugLine :
    ¬ ∀ (env : LineEnv Unit (BitVec 32)) (os : Realloc) (canon : BitVec 32 → Name)
      (events : List (LineEvent Unit (BitVec 32))), (∀ old new, os.succeeds old new = true) →
      (∀ e ∈ events,
        env.realpath (env.nameAt e.fileName) = some (canon e.fileName) ∧ 0x2F ∈ canon e.fileName) →
      ∃ t, debugLine wordHost env os events = .ok t ∧ shownBy env.cwd t.tree.tables t.calls =
        (env.areas.flatMap (tableOf canon env events)).map (LineCall.map some) := by
  intro h
  obtain ⟨t, ht, -⟩ := h twoFiles ⟨fun _ _ => true, fun _ _ => 0⟩ twoFiles.nameAt
    [⟨(), 0, 0x8000, 1⟩, ⟨(), 0, 0x8000, 2⟩] (fun _ _ => rfl) (by decide)
  have hfails : (debugLine wordHost twoFiles ⟨fun _ _ => true, fun _ _ => 0⟩
      [⟨(), 0, 0x8000, 1⟩, ⟨(), 0, 0x8000, 2⟩]).toOption.isSome = false := by
    decide +kernel
  rw [ht] at hfails
  exact nomatch hfails

end Asasm
