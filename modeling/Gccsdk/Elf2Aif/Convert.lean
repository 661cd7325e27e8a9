import Mathlib.Data.List.Basic
import Mathlib.Logic.Function.Basic

/-!
# elf2aif

`elf2aif.c`: reading the ELF header and the program headers (`e2a_readehdr`, `e2a_readphdr`), writing the
loadable segments and the AIF header (`e2a_copy`), and all of it with the files (`e2a_convert`).

The contents of a file are a list of bytes. Every operation on a file can fail (`Outcomes`): those in a loop
have their outcome by the number of the pass. A failed assertion ends the program, which is `Stop.abort`. The
messages are left out.
-/

namespace Elf2Aif

abbrev Bytes := List UInt8

/-- Why a function ends early. -/
inductive Stop
  /-- `EXIT_FAILURE` is returned, -/
  | failure
  /-- or an assertion fails. -/
  | abort
  deriving DecidableEq, Repr

structure Outcomes where
  readEhdr : Bool
  /-- `fseek` and `fread` of a program header -/
  readPhdr : ℕ → Bool
  mallocPhdr : ℕ → Bool
  /-- the zeros before a segment -/
  writeZeros : ℕ → Bool
  mallocSegment : ℕ → Bool
  readSegment : ℕ → Bool
  writeSegment : ℕ → Bool
  seekHeader : Bool
  writeHeader : Bool
  /-- What is in the output file where the conversion fails. -/
  left : Bytes
  mallocName : Bool
  openElf : Bool
  openAif : Bool
  setFiletype : Bool
  closeElf : Bool
  closeAif : Bool
  stat : Bool
  chmod : Bool
  /-- the output file, after a failure -/
  removeAif : Bool
  /-- the ELF file, before the renaming -/
  removeElf : Bool
  rename : Bool
  /-- the temporary file, after the renaming failed -/
  removeTemp : Bool

def allOk : Outcomes where
  readEhdr := true
  readPhdr _ := true
  mallocPhdr _ := true
  writeZeros _ := true
  mallocSegment _ := true
  readSegment _ := true
  writeSegment _ := true
  seekHeader := true
  writeHeader := true
  left := []
  mallocName := true
  openElf := true
  openAif := true
  setFiletype := true
  closeElf := true
  closeAif := true
  stat := true
  chmod := true
  removeAif := true
  removeElf := true
  rename := true
  removeTemp := true

/-! ### Reading -/

/-- `RdShort` at an offset of a structure. -/
def rdShort (bytes : Bytes) (offset : ℕ) : BitVec 32 :=
  (bytes.getD offset 0).toBitVec.setWidth 32 |||
    (bytes.getD (offset + 1) 0).toBitVec.setWidth 32 <<< 8

/-- `RdLong` at an offset of a structure. -/
def rdLong (bytes : Bytes) (offset : ℕ) : BitVec 32 :=
  rdShort bytes offset ||| rdShort bytes (offset + 2) <<< 16

def wrLong (val : BitVec 32) : Bytes :=
  [⟨(val >>> 0).setWidth 8⟩, ⟨(val >>> 8).setWidth 8⟩, ⟨(val >>> 16).setWidth 8⟩,
    ⟨(val >>> 24).setWidth 8⟩]

/-- `fread` of one object at an offset; an object of no size is not read. -/
def readAt (file : Bytes) (offset size : ℕ) : Option Bytes :=
  if size ≠ 0 ∧ offset + size ≤ file.length then some ((file.drop offset).take size) else none

/-- `sizeof (Elf32_External_Ehdr)` -/
def sizeofEhdr : ℕ := 52

/-- `sizeof (Elf32_External_Phdr)` -/
def sizeofPhdr : ℕ := 32

/-- The fields of `Elf32_External_Ehdr` that are read. -/
structure Ehdr where
  e_ident : Bytes
  e_type : BitVec 32
  e_machine : BitVec 32
  /-- its lower half -/
  e_version : BitVec 32
  e_entry : BitVec 32
  e_phoff : BitVec 32
  e_ehsize : BitVec 32
  e_phentsize : BitVec 32
  e_phnum : BitVec 32
  deriving DecidableEq, Repr

def Ehdr.ofBytes (bytes : Bytes) : Ehdr where
  e_ident := bytes.take 16
  e_type := rdShort bytes 16
  e_machine := rdShort bytes 18
  e_version := rdShort bytes 20
  e_entry := rdLong bytes 24
  e_phoff := rdLong bytes 28
  e_ehsize := rdShort bytes 40
  e_phentsize := rdShort bytes 42
  e_phnum := rdShort bytes 44

/-- `Elf32_External_Phdr`. -/
structure Phdr where
  p_type : BitVec 32
  p_offset : BitVec 32
  p_vaddr : BitVec 32
  p_paddr : BitVec 32
  p_filesz : BitVec 32
  p_memsz : BitVec 32
  p_flags : BitVec 32
  deriving DecidableEq, Repr

def Phdr.ofBytes (bytes : Bytes) : Phdr where
  p_type := rdLong bytes 0
  p_offset := rdLong bytes 4
  p_vaddr := rdLong bytes 8
  p_paddr := rdLong bytes 12
  p_filesz := rdLong bytes 16
  p_memsz := rdLong bytes 20
  p_flags := rdLong bytes 24

def PT_LOAD : BitVec 32 := 1
def PT_DYNAMIC : BitVec 32 := 2
def PF_X : BitVec 32 := 1
def PF_W : BitVec 32 := 2
def PF_R : BitVec 32 := 4

def e2aReadehdr (o : Outcomes) (file : Bytes) : Except Stop Ehdr :=
  match if o.readEhdr then readAt file 0 sizeofEhdr else none with
  | none => .error .failure
  | some bytes =>
    let ehdr := Ehdr.ofBytes bytes
    if ehdr.e_ehsize.toNat < sizeofEhdr then .error .failure
    -- "\x7FELF"
    else if ehdr.e_ident.take 4 ≠ [0x7F, 0x45, 0x4C, 0x46] then .error .failure
    -- ELFCLASS32, ELFDATA2LSB, the version and ELFOSABI_ARM
    else if ehdr.e_ident.getD 4 0 ≠ 1 then .error .failure
    else if ehdr.e_ident.getD 5 0 ≠ 1 then .error .failure
    else if ehdr.e_ident.getD 6 0 ≠ 1 then .error .failure
    else if ehdr.e_ident.getD 7 0 ≠ 97 then .error .failure
    -- ET_EXEC, EM_ARM and EV_CURRENT
    else if ehdr.e_type ≠ 2 then .error .failure
    else if ehdr.e_machine ≠ 40 then .error .failure
    else if ehdr.e_version ≠ 1 then .error .failure
    else .ok ehdr

/-- The insertion of `e2a_loadphentry`: before the first segment that is not below, if there is a gap. -/
def insertPhdr (ph : Phdr) : List Phdr → Option (List Phdr)
  | [] => some [ph]
  | next :: rest =>
    if ph.p_paddr ≤ next.p_paddr then
      -- the sum can overflow
      if next.p_paddr ≤ ph.p_paddr + ph.p_memsz then none else some (ph :: next :: rest)
    else (insertPhdr ph rest).map (next :: ·)

def e2aLoadphentry (malloc : Bool) (ph : Phdr) (list : List Phdr) : Except Stop (List Phdr) :=
  if ph.p_vaddr ≠ ph.p_paddr then .error .failure
  else if ph.p_memsz < ph.p_filesz then .error .failure
  else
    match insertPhdr ph list with
    | none => .error .failure
    | some list' => if malloc then .ok list' else .error .failure

/-- The loop of `e2a_readphdr`, at its pass `i`. -/
def readPhdrs (o : Outcomes) (file : Bytes) (phentrysize : BitVec 32) :
    ℕ → ℕ → BitVec 32 → List Phdr → Except Stop (List Phdr)
  | 0, _, _, list => .ok list
  | phentrycount + 1, i, phoffset, list =>
    match if o.readPhdr i then readAt file phoffset.toNat sizeofPhdr else none with
    | none => .error .failure
    | some bytes =>
      let ph := Phdr.ofBytes bytes
      if ph.p_type = PT_LOAD then
        match e2aLoadphentry (o.mallocPhdr i) ph list with
        | .error stop => .error stop
        | .ok list' => readPhdrs o file phentrysize phentrycount (i + 1) (phoffset + phentrysize) list'
      else if ph.p_type = PT_DYNAMIC then .error .failure
      else readPhdrs o file phentrysize phentrycount (i + 1) (phoffset + phentrysize) list

def e2aReadphdr (o : Outcomes) (file : Bytes) (ehdr : Ehdr) : Except Stop (List Phdr) :=
  if ehdr.e_phoff = 0 ∨ ehdr.e_phnum = 0 then .error .failure
  else if ehdr.e_phentsize.toNat < sizeofPhdr then .error .failure
  else readPhdrs o file ehdr.e_phentsize ehdr.e_phnum.toNat 0 ehdr.e_phoff []

/-! ### Writing -/

def aifcode : List (BitVec 32) :=
  [0xE1A00000, 0xE1A00000, 0xEB00000C, 0xEB000000, 0xEF000011, 0, 0, 0, 0, 0, 0, 0, 0x20, 0, 0, 0,
    0xE1A00000, 0xE04EC00F, 0xE08FC00C, 0xE99C0017, 0xE24CC010, 0xE08CC000, 0xE08CC001, 0xE3A00000,
    0xE3A01000, 0xE3A02000, 0xE3A03000, 0xE3540000, 0xD1A0F00E, 0xE8AC000F, 0xE2544010, 0xEAFFFFFB]

/-- `sizeof (aifcode)` -/
def sizeofAifcode : ℕ := 128

def aifHeader (exec_addr load_addr rosize rwsize zisize : BitVec 32) : List (BitVec 32) :=
  ((((aifcode.set 3 (0xEB000000 + ((exec_addr - load_addr - (12 + 8)) >>> 2))).set 5 rosize).set 6
    rwsize).set 8 zisize).set 10 load_addr

/-- The variables of the loop of `e2a_copy`, and the output so far. -/
structure CopyState where
  prev_addr : BitVec 32
  rwbase : BitVec 32
  zibase : BitVec 32
  zilimit : BitVec 32
  out : Bytes
  deriving DecidableEq, Repr

def padTo (o : Outcomes) (j : ℕ) (cur_addr : BitVec 32) (s : CopyState) : Except Stop CopyState :=
  if s.prev_addr ≠ cur_addr then
    if ¬s.prev_addr < cur_addr then .error .abort
    else if s.zibase = 0 then
      -- in chunks of 32K
      if o.writeZeros j then
        .ok { s with prev_addr := cur_addr,
                     out := s.out ++ List.replicate (cur_addr - s.prev_addr).toNat 0 }
      else .error .failure
    else .ok s
  else .ok s

def isReadWrite (flags : BitVec 32) : Bool := flags &&& (PF_R ||| PF_W) = PF_R ||| PF_W

def noteAreas (ph : Phdr) (s : CopyState) : Except Stop CopyState :=
  let s := if s.rwbase = 0 ∧ isReadWrite ph.p_flags then { s with rwbase := ph.p_paddr } else s
  if s.rwbase ≠ 0 then
    if ¬isReadWrite ph.p_flags then .error .failure
    else if s.zibase ≠ 0 ∧ ph.p_filesz ≠ 0 then .error .failure
    else if ph.p_filesz ≠ ph.p_memsz then
      let s := if s.zibase = 0 then
          { s with zibase := ph.p_paddr + ph.p_filesz, zilimit := ph.p_paddr + ph.p_filesz }
        else s
      .ok { s with zilimit := s.zilimit + (ph.p_memsz - ph.p_filesz) }
    else .ok s
  else .ok s

/-- A pass of the loop of `e2a_copy`. -/
def copySegment (o : Outcomes) (file : Bytes) (j : ℕ) (ph : Phdr) (s : CopyState) :
    Except Stop CopyState := do
  let s ← padTo o j ph.p_paddr s
  let s ← noteAreas ph s
  if ¬o.mallocSegment j then .error .failure
  else
    match if o.readSegment j then readAt file ph.p_offset.toNat ph.p_filesz.toNat else none with
    | none => .error .failure
    | some data =>
      if ¬o.writeSegment j then .error .failure
      else .ok { s with out := s.out ++ data, prev_addr := ph.p_paddr + ph.p_memsz }

/-- The loop of `e2a_copy`. -/
def copySegments (o : Outcomes) (file : Bytes) : ℕ → List Phdr → CopyState → Except Stop CopyState
  | _, [], s => .ok s
  | j, ph :: rest, s => do
    let s ← copySegment o file j ph s
    copySegments o file (j + 1) rest s

/-- `e2a_copy`: the contents of the output file. Its first check is never met, since `prev_addr` is
`load_addr` there. -/
def e2aCopy (o : Outcomes) (file : Bytes) (ehdr : Ehdr) (list : List Phdr) : Except Stop Bytes :=
  match list with
  | [] => .error .failure
  | first :: _ =>
    let load_addr := first.p_paddr
    let exec_addr := ehdr.e_entry
    if first.p_offset ≠ 0 ∨ (exec_addr - load_addr).toNat < sizeofAifcode then .error .failure
    else do
      let s ← copySegments o file 0 list ⟨load_addr, 0, 0, 0, []⟩
      let robase := load_addr
      let rosize := if s.rwbase ≠ 0 then s.rwbase - robase else robase + first.p_memsz
      let rwsize := if s.zibase ≠ 0 then s.zibase - s.rwbase else 0
      let zisize := if s.zibase ≠ 0 then s.zilimit - s.zibase else 0
      if ¬o.seekHeader then .error .failure
      else if ¬o.writeHeader then .error .failure
      else
        .ok ((aifHeader exec_addr load_addr rosize rwsize zisize).flatMap wrLong ++
          s.out.drop sizeofAifcode)

def convertFile (o : Outcomes) (file : Bytes) : Except Stop Bytes := do
  let ehdr ← e2aReadehdr o file
  let list ← e2aReadphdr o file ehdr
  e2aCopy o file ehdr list

/-! ### The files -/

abbrev Files := String → Option Bytes

structure Build where
  /-- `__riscos__` -/
  riscos : Bool
  /-- `__TARGET_SCL__` -/
  scl : Bool
  deriving DecidableEq, Repr

/-- `rename`, where it succeeds. -/
def renameFile (files : Files) (old new : String) : Files :=
  Function.update (Function.update files new (files old)) old none

/-- `remove`: whether it fails, and the files then. -/
def removeFile (ok : Bool) (files : Files) (name : String) : Files × Bool :=
  if ok then (Function.update files name none, false) else (files, true)

/-- The status after a conversion, when the files are closed and the type or the mode is set. -/
def finishStatus (b : Build) (o : Outcomes) : Bool :=
  if b.riscos then o.setFiletype && o.closeElf && o.closeAif
  else o.closeElf && o.closeAif && o.stat && o.chmod

/-- What `e2a_convert` does in the end: it removes what it wrote, or renames it. -/
def finishFiles (b : Build) (o : Outcomes) (elffilename aiffilename : String) (temp written status : Bool)
    (files : Files) : Files × Bool :=
  if ¬status then
    if written then ((removeFile o.removeAif files aiffilename).1, false) else (files, false)
  else if temp then
    let (files, failed) :=
      if b.scl then
        match removeFile o.removeElf files elffilename with
        | (files, true) => (files, true)
        | (files, false) =>
          if o.rename then (renameFile files aiffilename elffilename, false) else (files, true)
      else if o.rename then (renameFile files aiffilename elffilename, false) else (files, true)
    if failed then ((removeFile o.removeTemp files aiffilename).1, false) else (files, true)
  else (files, true)

/-- `e2a_convert`, from the opening of the files on. -/
def convertTo (b : Build) (o : Outcomes) (elffilename aiffilename : String) (temp : Bool)
    (files : Files) : Except Stop (Files × Bool) :=
  match if o.openElf then files elffilename else none with
  | none => .ok (finishFiles b o elffilename aiffilename temp false false files)
  | some file =>
    if ¬o.openAif then .ok (finishFiles b o elffilename aiffilename temp false false files)
    else
      match convertFile o file with
      | .error .abort => .error .abort
      | .error .failure =>
        .ok (finishFiles b o elffilename aiffilename temp true false
          (Function.update files aiffilename (some o.left)))
      | .ok out =>
        let status := finishStatus b o
        .ok (finishFiles b o elffilename aiffilename temp true status
          (Function.update files aiffilename (some (if status then out else o.left))))

/-- `e2a_convert`: the files, and whether it succeeded. Without an output name the file is converted in
place. -/
def e2aConvert (b : Build) (o : Outcomes) (elffilename : String) (aiffilename : Option String)
    (files : Files) : Except Stop (Files × Bool) :=
  match aiffilename with
  | some name => convertTo b o elffilename name false files
  | none =>
    if ¬o.mallocName then .ok (files, false)
    else convertTo b o elffilename (elffilename ++ "_tmp") true files

end Elf2Aif
