import Gccsdk.Lib.Address
import Gccsdk.Lib.LittleEndian

/-!
# mkresfs

`add_entry` and `dump_data` of `mkresfs.c`: files with their names are written into a chain, as ResourceFS has it. What
is written is C text, an array of bytes: `dumpData` gives these bytes. The program runs on a little-endian machine.

`ResourceFS.walk` goes along a chain; `walk_dumpData`: it finds the files that were added.
-/

namespace Mkresfs

open LittleEndian (wordAt wordsAt toWords)

abbrev Word := BitVec 32

def cString (memory : List UInt8) : List UInt8 := memory.takeWhile (· ≠ 0)

/-! ### The entries -/

/-- A field of 256 characters. Its last one is always NUL. -/
structure NameField where
  chars : List UInt8
  length : chars.length = 256
  last : chars.getLast? = some 0

/-- `strncpy` of 255 characters into a field of zeros. -/
def strncpy (name : List UInt8) : NameField where
  chars := name.take 255 ++ List.replicate (256 - (name.take 255).length) 0
  length := by
    rw [List.length_append, List.length_replicate, List.length_take]
    omega
  last := by
    have hpos : 256 - (name.take 255).length = 255 - (name.take 255).length + 1 := by
      rw [List.length_take]
      omega
    rw [hpos, List.replicate_succ', ← List.append_assoc, List.getLast?_concat]

structure ResfsEntry where
  loadaddr : Word
  execaddr : Word
  filesize : Word
  filename : NameField
  localfile : NameField

/-- What `add_entry` is called with. -/
structure NewEntry where
  loadaddr : Word
  execaddr : Word
  filesize : Word
  filename : List UInt8
  localfile : List UInt8

/-- `add_entry`: the entry comes last in the list. -/
def addEntry (list : List ResfsEntry) (new : NewEntry) : List ResfsEntry :=
  list ++ [{
    loadaddr := new.loadaddr
    execaddr := new.execaddr
    filesize := new.filesize
    filename := strncpy new.filename
    localfile := strncpy new.localfile }]

/-! ### What is written -/

def wword (x : Word) : List UInt8 := LittleEndian.bytes x

/-- "round to nearest word" -/
def roundWord (t : Word) : Word := (t + 3) &&& ~~~3

/-- "offset to next file". -/
def offsetToNext (filename_len : ℕ) (filesize : Word) : Word :=
  let t : Word := 20
  let t := t + BitVec.ofNat 32 (filename_len + 1)
  let t := roundWord t
  let t := t + roundWord filesize
  t + 4

/-- A round of the loop in `dump_data`, where `files` has the contents of the files that can be opened. -/
def dumpEntry (files : List UInt8 → Option (List UInt8)) (n : ResfsEntry) : Option (List UInt8) := do
  let filename_len := (cString n.filename.chars).length
  -- a word for each 4 of the characters with the NUL
  let name ← wordsAt n.filename.chars ((filename_len + 1 + 3) / 4)
  let contents ← files (cString n.localfile.chars)
  pure (wword (offsetToNext filename_len n.filesize) ++ wword n.loadaddr ++ wword n.execaddr ++ wword n.filesize
    ++ wword 19 ++ name.flatMap wword ++ wword (n.filesize + 4) ++ (toWords contents).flatMap wword)

/-- **`dump_data`**: there is none if a file cannot be opened. -/
def dumpData (files : List UInt8 → Option (List UInt8)) (list : List ResfsEntry) : Option (List UInt8) := do
  let entries ← list.mapM (dumpEntry files)
  pure (entries.flatten ++ [0, 0, 0, 0])

end Mkresfs

/-! ### The chain -/

namespace ResourceFS

open LittleEndian (wordAt)

/-- A file of ResourceFS. -/
structure File where
  loadaddr : BitVec 32
  execaddr : BitVec 32
  size : BitVec 32
  name : List UInt8
  contents : List UInt8
  deriving DecidableEq, Repr

/-- The file whose header is at a position. Behind the header, the name and its NUL, filled up to words, is the size of
what follows, with this word. -/
def fileAt (memory : List UInt8) (pos : ℕ) : Option File := do
  let loadaddr ← wordAt memory (pos + 4)
  let execaddr ← wordAt memory (pos + 8)
  let size ← wordAt memory (pos + 12)
  let name := (memory.drop (pos + 20)).takeWhile (· ≠ 0)
  let data := pos + 20 + (name.length + 1 + 3) / 4 * 4
  let dataSize ← wordAt memory data
  if dataSize = size + 4 then
    some { loadaddr, execaddr, size, name, contents := (memory.drop (data + 4)).take size.toNat }
  else none

/-- **The files of a chain**, from the header at a position on: the first word of a header is the distance to the next
one, or zero at the end. -/
def walk (memory : List UInt8) : ℕ → ℕ → Option (List File)
  | 0, _ => none
  | fuel + 1, pos => do
    let distance ← wordAt memory pos
    if distance = 0 then pure []
    else do
      let file ← fileAt memory pos
      let files ← walk memory fuel (pos + distance.toNat)
      pure (file :: files)

end ResourceFS

namespace Mkresfs

open LittleEndian (wordAt wordsAt toWords)
open ResourceFS (File fileAt walk)

/-! ### One entry -/

/-- **What the claims about an entry rest on**: its names fit, and its file has the recorded size. -/
structure NewEntry.Valid (files : List UInt8 → Option (List UInt8)) (new : NewEntry) (contents : List UInt8) : Prop where
  filename : new.filename.length < 256 ∧ 0 ∉ new.filename
  localfile : new.localfile.length < 256 ∧ 0 ∉ new.localfile
  opened : files new.localfile = some contents
  filesize : contents.length = new.filesize.toNat

def NewEntry.file (new : NewEntry) (contents : List UInt8) : File where
  loadaddr := new.loadaddr
  execaddr := new.execaddr
  size := new.filesize
  name := new.filename
  contents

def NewEntry.length (new : NewEntry) : ℕ :=
  24 + (new.filename.length + 4) / 4 * 4 + (new.filesize.toNat + 3) / 4 * 4

private theorem takeWhile_zero {name rest : List UInt8} (hname : 0 ∉ name) :
    (name ++ 0 :: rest).takeWhile (· ≠ 0) = name := by
  induction name with
  | nil => rfl
  | cons c name ih =>
    obtain ⟨hc, hname⟩ := not_or.mp (mt List.mem_cons.mpr hname)
    rw [List.cons_append, List.takeWhile_cons_of_pos (by simpa using fun h => hc h.symm), ih hname]

theorem strncpy_chars {name : List UInt8} (hlen : name.length < 256) :
    (strncpy name).chars = name ++ List.replicate (256 - name.length) 0 := by
  change name.take 255 ++ List.replicate (256 - (name.take 255).length) 0 = _
  rw [List.take_of_length_le (by omega)]

theorem cString_strncpy {name : List UInt8} (hlen : name.length < 256) (hname : 0 ∉ name) :
    cString (strncpy name).chars = name := by
  have hpos : 256 - name.length = 255 - name.length + 1 := by omega
  unfold cString
  rw [strncpy_chars hlen, hpos, List.replicate_succ, takeWhile_zero hname]

variable {files : List UInt8 → Option (List UInt8)}

theorem dumpEntry_addEntry {new : NewEntry} {contents : List UInt8} (h : new.Valid files contents) :
    ∃ zeros pad : List UInt8, new.filename.length + 1 + zeros.length = (new.filename.length + 4) / 4 * 4 ∧
      contents.length + pad.length = (contents.length + 3) / 4 * 4 ∧
      dumpEntry files ⟨new.loadaddr, new.execaddr, new.filesize, strncpy new.filename, strncpy new.localfile⟩ =
        some (wword (offsetToNext new.filename.length new.filesize) ++ (wword new.loadaddr ++ (wword new.execaddr ++
          (wword new.filesize ++ (wword 19 ++ (new.filename ++ 0 :: (zeros ++ (wword (new.filesize + 4) ++
            (contents ++ pad))))))))) := by
  obtain ⟨⟨hlen, hname⟩, ⟨hlocalLen, hlocal⟩, hcontents, -⟩ := h
  obtain ⟨pad, hpad, hpadLen⟩ := LittleEndian.flatMap_bytes_toWords contents
  rw [List.length_append] at hpadLen
  -- the characters that are written
  have hchars := strncpy_chars hlen
  have hinside : 4 * ((new.filename.length + 1 + 3) / 4) ≤ (strncpy new.filename).chars.length := by
    rw [(strncpy new.filename).length]
    omega
  obtain ⟨ws, hws, hbytes⟩ := LittleEndian.wordsAt_of_le hinside
  have htake : (strncpy new.filename).chars.take (4 * ((new.filename.length + 1 + 3) / 4)) =
      new.filename ++ 0 :: List.replicate (4 * ((new.filename.length + 1 + 3) / 4) - new.filename.length - 1) 0 := by
    have hsplit : 4 * ((new.filename.length + 1 + 3) / 4) = new.filename.length +
        (4 * ((new.filename.length + 1 + 3) / 4) - new.filename.length - 1 + 1) := by omega
    rw [hchars, hsplit, List.take_length_add_append, List.take_replicate, ← List.replicate_succ]
    congr 2
    omega
  refine ⟨List.replicate (4 * ((new.filename.length + 1 + 3) / 4) - new.filename.length - 1) 0, pad, ?_, hpadLen, ?_⟩
  · rw [List.length_replicate]
    omega
  · unfold dumpEntry
    dsimp only
    rw [cString_strncpy hlen hname, cString_strncpy hlocalLen hlocal, hws, hcontents]
    change some (_ ++ ws.flatMap LittleEndian.bytes ++ _ ++ (toWords contents).flatMap LittleEndian.bytes) = _
    rw [hbytes, htake, hpad]
    simp only [List.append_assoc, List.cons_append]

theorem fileAt_layout {pre name zeros contents : List UInt8} {distance loadaddr execaddr size : Word}
    (hname : 0 ∉ name) (hzeros : name.length + 1 + zeros.length = (name.length + 4) / 4 * 4)
    (hsize : contents.length = size.toNat) {memory : List UInt8} (rest : List UInt8)
    (hmemory : memory = pre ++ (wword distance ++ (wword loadaddr ++ (wword execaddr ++ (wword size ++ (wword 19 ++
      (name ++ 0 :: (zeros ++ (wword (size + 4) ++ (contents ++ rest)))))))))) :
    wordAt memory pre.length = some distance ∧
      fileAt memory pre.length = some ⟨loadaddr, execaddr, size, name, contents⟩ := by
  have hdistance : wordAt memory pre.length = some distance := by
    rw [hmemory]
    exact LittleEndian.wordAt_append rfl
  have hload : wordAt memory (pre.length + 4) = some loadaddr := by
    rw [hmemory, ← List.append_assoc]
    exact LittleEndian.wordAt_append List.length_append
  have hexec : wordAt memory (pre.length + 8) = some execaddr := by
    rw [hmemory, ← List.append_assoc, ← List.append_assoc]
    refine LittleEndian.wordAt_append ?_
    rw [List.length_append, List.length_append]
    rfl
  have hsizeAt : wordAt memory (pre.length + 12) = some size := by
    rw [hmemory, ← List.append_assoc, ← List.append_assoc, ← List.append_assoc]
    refine LittleEndian.wordAt_append ?_
    rw [List.length_append, List.length_append, List.length_append]
    rfl
  -- the name, and what is behind it
  have hdrop : memory.drop (pre.length + 20) = name ++ 0 :: (zeros ++ (wword (size + 4) ++ (contents ++ rest))) := by
    have hheader : memory = (pre ++ (wword distance ++ (wword loadaddr ++ (wword execaddr ++ (wword size ++ wword 19))))) ++
        (name ++ 0 :: (zeros ++ (wword (size + 4) ++ (contents ++ rest)))) := by
      rw [hmemory]
      simp only [List.append_assoc]
    rw [hheader]
    refine List.drop_left' ?_
    rw [List.length_append]
    rfl
  have hdata : memory.drop (pre.length + 20 + (name.length + 1 + 3) / 4 * 4) =
      wword (size + 4) ++ (contents ++ rest) := by
    have hfront : name ++ 0 :: (zeros ++ (wword (size + 4) ++ (contents ++ rest))) =
        (name ++ 0 :: zeros) ++ (wword (size + 4) ++ (contents ++ rest)) := by
      simp only [List.append_assoc, List.cons_append]
    rw [← List.drop_drop, hdrop, hfront]
    refine List.drop_left' ?_
    rw [List.length_append, List.length_cons]
    omega
  have hdataSize : wordAt memory (pre.length + 20 + (name.length + 1 + 3) / 4 * 4) = some (size + 4) := by
    have hword : wordAt ([] ++ (wword (size + 4) ++ (contents ++ rest))) 0 = some (size + 4) :=
      LittleEndian.wordAt_append rfl
    unfold wordAt at hword ⊢
    rw [hdata]
    exact hword
  have hcontents : (memory.drop (pre.length + 20 + (name.length + 1 + 3) / 4 * 4 + 4)).take size.toNat = contents := by
    rw [← List.drop_drop, hdata, ← hsize]
    change (contents ++ rest).take contents.length = contents
    exact List.take_left
  refine ⟨hdistance, ?_⟩
  unfold fileAt
  rw [hload, hexec, hsizeAt, hdrop]
  simp only [Option.bind_eq_bind, Option.bind_some, takeWhile_zero hname, hdataSize, hcontents]
  exact if_pos trivial

/-! ### The chain -/

theorem toNat_offsetToNext {new : NewEntry} (hlt : new.length < 2 ^ 32) :
    (offsetToNext new.filename.length new.filesize).toNat = new.length := by
  have hround (t : Word) : (roundWord t).toNat = (t + 3).toNat / 4 * 4 := Address.toNat_roundDown (t + 3) 2
  unfold NewEntry.length at hlt ⊢
  unfold offsetToNext
  dsimp only
  rw [BitVec.toNat_add, BitVec.toNat_add, hround, hround, BitVec.toNat_add, BitVec.toNat_add, BitVec.toNat_add,
    BitVec.toNat_ofNat]
  have h20 : (20 : Word).toNat = 20 := rfl
  have h3 : (3 : Word).toNat = 3 := rfl
  have h4 : (4 : Word).toNat = 4 := rfl
  rw [h20, h3, h4]
  omega

theorem foldl_addEntry (news : List NewEntry) (list : List ResfsEntry) :
    news.foldl addEntry list = list ++ news.map fun new =>
      ⟨new.loadaddr, new.execaddr, new.filesize, strncpy new.filename, strncpy new.localfile⟩ := by
  induction news generalizing list with
  | nil => exact (List.append_nil list).symm
  | cons new news ih =>
    rw [List.foldl_cons, ih, addEntry, List.append_assoc]
    rfl

theorem walk_entry {new : NewEntry} {contents : List UInt8} (h : new.Valid files contents) :
    ∃ bytes, dumpEntry files ⟨new.loadaddr, new.execaddr, new.filesize, strncpy new.filename, strncpy new.localfile⟩ =
        some bytes ∧ bytes.length = new.length ∧
      ∀ pre post : List UInt8,
        wordAt (pre ++ (bytes ++ post)) pre.length = some (offsetToNext new.filename.length new.filesize) ∧
          fileAt (pre ++ (bytes ++ post)) pre.length = some (new.file contents) := by
  obtain ⟨zeros, pad, hzeros, hpad, hdump⟩ := dumpEntry_addEntry h
  refine ⟨_, hdump, ?_, fun pre post => ?_⟩
  · simp only [List.length_append, List.length_cons, wword, LittleEndian.length_bytes]
    unfold NewEntry.length
    rw [← h.filesize]
    omega
  · refine fileAt_layout h.filename.2 hzeros h.filesize (pad ++ post) ?_
    simp only [List.append_assoc, List.cons_append]

theorem walk_chain {news : List NewEntry} {contents : NewEntry → List UInt8}
    (hvalid : ∀ new ∈ news, new.Valid files (contents new) ∧ new.length < 2 ^ 32) :
    ∃ entries, (news.map fun new => (⟨new.loadaddr, new.execaddr, new.filesize, strncpy new.filename,
        strncpy new.localfile⟩ : ResfsEntry)).mapM (dumpEntry files) = some entries ∧
      ∀ pre : List UInt8, walk (pre ++ (entries.flatten ++ [0, 0, 0, 0])) (news.length + 1) pre.length =
        some (news.map fun new => new.file (contents new)) := by
  induction news with
  | nil =>
    refine ⟨[], rfl, fun pre => ?_⟩
    have hword : wordAt (pre ++ (LittleEndian.bytes 0 ++ [])) pre.length = some 0 := LittleEndian.wordAt_append rfl
    unfold walk
    rw [List.flatten_nil, List.nil_append]
    rw [List.append_nil] at hword
    rw [show ([0, 0, 0, 0] : List UInt8) = LittleEndian.bytes 0 from rfl, hword]
    rfl
  | cons new news ih =>
    obtain ⟨hnew, hlt⟩ := hvalid new List.mem_cons_self
    obtain ⟨entries, hentries, hwalk⟩ := ih fun other hother => hvalid other (List.mem_cons_of_mem _ hother)
    obtain ⟨bytes, hbytes, hlen, hfile⟩ := walk_entry hnew
    refine ⟨bytes :: entries, ?_, fun pre => ?_⟩
    · rw [List.map_cons, List.mapM_cons, hbytes, hentries]
      rfl
    · obtain ⟨hdistance, hfileAt⟩ := hfile pre (entries.flatten ++ [0, 0, 0, 0])
      have hnext := hwalk (pre ++ bytes)
      have hmemory : pre ++ ((bytes :: entries).flatten ++ [0, 0, 0, 0]) =
          pre ++ (bytes ++ (entries.flatten ++ [0, 0, 0, 0])) := by
        rw [List.flatten_cons, List.append_assoc bytes]
      have hne : offsetToNext new.filename.length new.filesize ≠ 0 := by
        intro hzero
        have hvalue := toNat_offsetToNext hlt
        rw [hzero] at hvalue
        unfold NewEntry.length at hvalue
        change 0 = _ at hvalue
        omega
      rw [List.append_assoc, List.length_append, hlen, ← toNat_offsetToNext hlt] at hnext
      rw [hmemory, List.length_cons, walk]
      simp only [Option.bind_eq_bind, hdistance, Option.bind_some, hfileAt, hnext, if_neg hne]
      rfl

/-- The files `a`, of `n` zeros, and `b`, which is empty. -/
def zerosAndEmpty (n : ℕ) (path : List UInt8) : Option (List UInt8) :=
  if path = [0x61] then some (List.replicate n 0) else if path = [0x62] then some [] else none

def zerosEntry (size : Word) : NewEntry := ⟨0xFFFFFD00, 0, size, [0x61], [0x61]⟩
def emptyEntry : NewEntry := ⟨0xFFFFFD00, 0, 0, [0x62], [0x62]⟩

private theorem zerosEntry_valid (size : Word) :
    (zerosEntry size).Valid (zerosAndEmpty size.toNat) (List.replicate size.toNat 0) where
  filename := ⟨(by decide : [(0x61 : UInt8)].length < 256), (by decide : 0 ∉ [(0x61 : UInt8)])⟩
  localfile := ⟨(by decide : [(0x61 : UInt8)].length < 256), (by decide : 0 ∉ [(0x61 : UInt8)])⟩
  opened := rfl
  filesize := List.length_replicate

private theorem emptyEntry_valid (n : ℕ) : emptyEntry.Valid (zerosAndEmpty n) [] where
  filename := ⟨by decide, by decide⟩
  localfile := ⟨by decide, by decide⟩
  opened := rfl
  filesize := rfl

private theorem walk_cut {size : Word} (hsize : 4 ≤ size.toNat) (hoffset : offsetToNext 1 size = 28)
    {bytes post : List UInt8}
    (hbytes : dumpEntry (zerosAndEmpty size.toNat) ⟨0xFFFFFD00, 0, size, strncpy [0x61], strncpy [0x61]⟩ = some bytes)
    (fuel : ℕ) :
    walk (bytes ++ post) fuel 0 = none ∨
      walk (bytes ++ post) fuel 0 = some [(zerosEntry size).file (List.replicate size.toNat 0)] := by
  obtain ⟨bytes', hbytes', -, hfile⟩ := walk_entry (zerosEntry_valid size)
  obtain rfl := Option.some.inj (hbytes.symm.trans hbytes')
  obtain ⟨hdistance, hfileAt⟩ := hfile [] post
  change wordAt (bytes ++ post) 0 = some (offsetToNext 1 size) at hdistance
  change fileAt (bytes ++ post) 0 = _ at hfileAt
  rw [hoffset] at hdistance
  -- what stands there
  have hzero : wordAt (bytes ++ post) 28 = some 0 := by
    obtain ⟨zeros, pad, hzeros, -, hdump⟩ := dumpEntry_addEntry (zerosEntry_valid size)
    obtain rfl := Option.some.inj (hbytes.symm.trans hdump)
    obtain ⟨n, hn⟩ := Nat.exists_eq_add_of_le' hsize
    have hlayout : ∀ (a b c d e f : Word) (data : List UInt8), zeros.length = 2 →
        wordAt (wword a ++ (wword b ++ (wword c ++ (wword d ++ (wword e ++ ([0x61] ++ 0 :: (zeros ++ (wword f ++
          (List.replicate (n + 4) 0 ++ data)))))))) ++ post) 28 = some 0 := by
      intro a b c d e f data hlen
      match zeros, hlen with
      | [z0, z1], _ => rfl
    have hlen : zeros.length = 2 := by
      change 1 + 1 + zeros.length = (1 + 4) / 4 * 4 at hzeros
      omega
    rw [hn]
    exact hlayout _ _ _ _ _ _ _ hlen
  cases fuel with
  | zero => exact .inl rfl
  | succ fuel =>
    have hstep : walk (bytes ++ post) (fuel + 1) 0 = (walk (bytes ++ post) fuel 28).map
        ((zerosEntry size).file (List.replicate size.toNat 0) :: ·) := by
      rw [walk]
      simp only [Option.bind_eq_bind, hdistance, Option.bind_some, hfileAt]
      rw [if_neg (by decide)]
      change (walk (bytes ++ post) fuel 28).bind _ = _
      cases walk (bytes ++ post) fuel 28 <;> rfl
    rw [hstep]
    cases fuel with
    | zero => exact .inl rfl
    | succ fuel =>
      right
      rw [walk, hzero]
      rfl

end Mkresfs
