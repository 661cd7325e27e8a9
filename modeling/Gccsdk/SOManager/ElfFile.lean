import Mathlib.Data.BitVec
import Mathlib.Data.List.DropRight
import Mathlib.Order.Basic
import Mathlib.Tactic.Common

/-!
# Loading ELF files

`som_elf.c`: `elffile_open` reads the program headers of a file and works out from them how much memory the
file takes (`memory_size`) and where that begins (`base_addr`); `elffile_load` then reads the segments into
memory. A dynamic loader is loaded into a block of `memory_size` bytes that is allocated for it
(`load_dynamic_loader`); a program is loaded where its headers say, and `command_run` takes the memory from
`base_addr + memory_size` on to be free.

The size is the largest `p_offset + p_memsz`, while a segment is loaded at its `p_vaddr`. So what is loaded
lies within the size only where the addresses keep up with the places in the file (`ElfFile.LoaderFits`,
`ElfFile.ProgramFits`); `elffileLoad_within_iff` says that these conditions are exact, for every table of
program headers.

The answers of the file system and the heap are a parameter (`ElfAnswers`). The name of the interpreter and
the dynamic segment are only kept, and the texts of the errors are left out: `none` is a call that fails.
-/

namespace SOManager

/-- The fields of `Elf32_Phdr` that are read. -/
structure Phdr where
  p_type : BitVec 32
  p_offset : BitVec 32
  p_vaddr : BitVec 32
  p_filesz : BitVec 32
  p_memsz : BitVec 32
  deriving DecidableEq, Repr

def PT_LOAD : BitVec 32 := 1
def PT_DYNAMIC : BitVec 32 := 2
def PT_INTERP : BitVec 32 := 3

/-- The fields of `Elf32_Ehdr` that are read. -/
structure Ehdr where
  /-- the first word of `e_ident` -/
  ident : BitVec 32
  ei_class : BitVec 8
  ei_data : BitVec 8
  ei_version : BitVec 8
  e_machine : BitVec 16
  e_phentsize : BitVec 16
  e_phnum : BitVec 16
  deriving DecidableEq, Repr

def ELF_ID : BitVec 32 := 0x464C457F

def ELFCLASS32 : BitVec 8 := 1
def ELFDATA2LSB : BitVec 8 := 1
def EV_CURRENT : BitVec 8 := 1
def EM_ARM : BitVec 16 := 40

structure ElfFile where
  elf_header : Ehdr
  /-- The headers in the block at `prog_headers`, one after the other. -/
  prog_headers : ℕ → Phdr
  dynamic_seg : Option Phdr
  interp_name : BitVec 32
  memory_size : BitVec 32
  base_addr : BitVec 32

def ElfFile.phdrs (file : ElfFile) : List Phdr :=
  (List.range file.elf_header.e_phnum.toNat).map file.prog_headers

/-- What `elffile_open` is answered: the file can be opened, its header, room for the program headers, and
what the block holds when they are read. -/
structure ElfAnswers where
  fopen : Bool
  readEhdr : Option Ehdr
  alloc : ℕ → Bool
  readPhdrs : Option (ℕ → Phdr)

def Ehdr.suitable (hdr : Ehdr) : Bool :=
  hdr.ident == ELF_ID && hdr.ei_class == ELFCLASS32 && hdr.ei_data == ELFDATA2LSB &&
    hdr.ei_version == EV_CURRENT && hdr.e_machine == EM_ARM

/-- What the loop of `elffile_open` does with a header. -/
def scanPhdr (file : ElfFile) (phdr : Phdr) : ElfFile :=
  if phdr.p_type = PT_INTERP then { file with interp_name := phdr.p_vaddr }
  else if phdr.p_type = PT_DYNAMIC then { file with dynamic_seg := some phdr }
  else if phdr.p_type = PT_LOAD then
    let size := phdr.p_offset + phdr.p_memsz
    { file with
      memory_size := if size > file.memory_size then size else file.memory_size
      base_addr :=
        if file.base_addr = 0 ∨ phdr.p_vaddr < file.base_addr then phdr.p_vaddr else file.base_addr }
  else file

/-- `elffile_open`, of an `elf_file` that `elffile_init` has cleared. -/
def elffileOpen (ans : ElfAnswers) : Option ElfFile := do
  guard ans.fopen
  let hdr ← ans.readEhdr
  guard hdr.suitable
  guard (ans.alloc (hdr.e_phentsize.toNat * hdr.e_phnum.toNat))
  let headers ← ans.readPhdrs
  let file : ElfFile := ⟨hdr, headers, none, 0, 0, 0⟩
  return file.phdrs.foldl scanPhdr file

structure Extent where
  start : BitVec 32
  size : ℕ
  deriving DecidableEq, Repr

/-- `elffile_load`: the memory that is read into or cleared, and whether the call succeeds. `gives` is the
number of bytes that the file has from a place on. -/
def loadPhdrs (load_offset : BitVec 32) (init_bss : Bool) (gives : BitVec 32 → ℕ) :
    List Phdr → List Extent × Bool
  | [] => ([], true)
  | phdr :: rest =>
    if phdr.p_type = PT_LOAD then
      let start := load_offset + phdr.p_vaddr
      let got := min phdr.p_filesz.toNat (gives phdr.p_offset)
      let read : List Extent := if phdr.p_filesz ≠ 0 then [⟨start, got⟩] else []
      if phdr.p_filesz ≠ 0 ∧ got < phdr.p_filesz.toNat then (read, false)
      else
        let bss_size := phdr.p_memsz - phdr.p_filesz
        let cleared : List Extent :=
          if init_bss ∧ bss_size ≠ 0 then [⟨start + phdr.p_filesz, bss_size.toNat⟩] else []
        let (touched, ok) := loadPhdrs load_offset init_bss gives rest
        (read ++ cleared ++ touched, ok)
    else loadPhdrs load_offset init_bss gives rest

def elffileLoad (file : ElfFile) (load_offset : BitVec 32) (init_bss : Bool) (gives : BitVec 32 → ℕ) :
    List Extent × Bool :=
  loadPhdrs load_offset init_bss gives file.phdrs

/-! ### What is to hold -/

/-- The bytes lie in the memory from `lo` up to `hi`. -/
def Extent.Within (e : Extent) (lo hi : ℕ) : Prop :=
  ∀ i < e.size, lo ≤ (e.start + BitVec.ofNat 32 i).toNat ∧ (e.start + BitVec.ofNat 32 i).toNat < hi

namespace ElfFile

variable (file : ElfFile)

/-- **A loader stays in its block**: wherever the block of `memory_size` bytes lies, and whatever the file
gives. -/
def SafeAsLoader : Prop :=
  ∀ block gives, block.toNat + file.memory_size.toNat ≤ 2 ^ 32 →
    ∀ e ∈ (elffileLoad file block false gives).1, e.Within block.toNat (block.toNat + file.memory_size.toNat)

/-- **A program stays below what is taken to be free**, and does not begin below its base. -/
def SafeAsProgram : Prop :=
  ∀ gives, ∀ e ∈ (elffileLoad file 0 true gives).1,
    e.Within file.base_addr.toNat (file.base_addr.toNat + file.memory_size.toNat)

def loads : List Phdr := file.phdrs.filter (·.p_type = PT_LOAD)

/-- The addresses that the base is the lowest of: a header at address zero makes the headers before it
count for nothing. -/
def basedOn : List Phdr := file.loads.rtakeWhile (·.p_vaddr ≠ 0)

/-- `n` bytes of memory at `a` lie within what the headers count from `base` on. -/
def Fits (base a n : ℕ) : Prop :=
  n = 0 ∨ base ≤ a ∧ a + n ≤ 2 ^ 32 ∧ ∃ h ∈ file.loads, a + n ≤ base + (h.p_offset + h.p_memsz).toNat

/-- Each segment ends, in memory, no later than some segment that is loaded ends by `p_offset + p_memsz`. -/
def LoaderFits : Prop :=
  ∀ h ∈ file.loads, file.Fits 0 h.p_vaddr.toNat h.p_filesz.toNat

def lowest : ℕ := (file.basedOn.map (·.p_vaddr.toNat)).min?.getD 0

/-- The same from the lowest address on, for what is read and for what is cleared behind it. -/
def ProgramFits : Prop :=
  ∀ h ∈ file.loads, file.Fits file.lowest h.p_vaddr.toNat h.p_filesz.toNat ∧
    file.Fits file.lowest (h.p_vaddr + h.p_filesz).toNat (h.p_memsz - h.p_filesz).toNat

end ElfFile

/-! ### What `elffile_open` works out -/

variable {file : ElfFile} {l : List Phdr} {h : Phdr}

private abbrev loadsOf (l : List Phdr) : List Phdr := l.filter (·.p_type = PT_LOAD)

theorem loadsOf_concat_load (hload : h.p_type = PT_LOAD) : loadsOf (l ++ [h]) = loadsOf l ++ [h] := by
  rw [loadsOf, List.filter_append, List.filter_singleton, decide_eq_true hload]
  rfl

theorem loadsOf_concat_other (hload : h.p_type ≠ PT_LOAD) : loadsOf (l ++ [h]) = loadsOf l := by
  rw [loadsOf, List.filter_append, List.filter_singleton, decide_eq_false hload]
  exact List.append_nil _

theorem loadsOf_cons_load (hload : h.p_type = PT_LOAD) : loadsOf (h :: l) = h :: loadsOf l :=
  List.filter_cons_of_pos (decide_eq_true hload)

theorem loadsOf_cons_other (hload : h.p_type ≠ PT_LOAD) : loadsOf (h :: l) = loadsOf l :=
  List.filter_cons_of_neg (ne_true_of_eq_false (decide_eq_false hload))

theorem scanPhdr_other (hload : h.p_type ≠ PT_LOAD) :
    (scanPhdr file h).memory_size = file.memory_size ∧ (scanPhdr file h).base_addr = file.base_addr := by
  unfold scanPhdr
  split
  · exact ⟨rfl, rfl⟩
  split
  · exact ⟨rfl, rfl⟩
  · exact ⟨rfl, rfl⟩

theorem scanPhdr_load (hload : h.p_type = PT_LOAD) :
    (scanPhdr file h).memory_size.toNat = max file.memory_size.toNat (h.p_offset + h.p_memsz).toNat ∧
      (scanPhdr file h).base_addr =
        if file.base_addr = 0 ∨ h.p_vaddr < file.base_addr then h.p_vaddr else file.base_addr := by
  unfold scanPhdr
  rw [hload, if_neg (by decide), if_neg (by decide), if_pos rfl]
  refine ⟨?_, rfl⟩
  dsimp only
  by_cases hlt : h.p_offset + h.p_memsz > file.memory_size
  · rw [if_pos hlt, max_eq_right (BitVec.le_def.mp (BitVec.le_of_lt hlt))]
  · rw [if_neg hlt, max_eq_left (BitVec.le_def.mp (BitVec.not_lt.mp hlt))]

theorem scanPhdr_phdrs : (scanPhdr file h).phdrs = file.phdrs := by
  unfold scanPhdr
  repeat' split
  all_goals rfl

theorem foldl_scanPhdr_phdrs : (l.foldl scanPhdr file).phdrs = file.phdrs := by
  induction l generalizing file with
  | nil => rfl
  | cons h l ih => exact ih.trans scanPhdr_phdrs

/-- **The size** is the largest end, of the segments that are loaded. -/
theorem le_foldl_memory_size (hsize : file.memory_size = 0) {n : ℕ} (hn : 0 < n) :
    n ≤ (l.foldl scanPhdr file).memory_size.toNat ↔ ∃ h ∈ loadsOf l, n ≤ (h.p_offset + h.p_memsz).toNat := by
  induction l using List.reverseRecOn with
  | nil =>
    rw [List.foldl_nil, hsize]
    refine ⟨fun hle => absurd hle (Nat.not_le.mpr hn), ?_⟩
    rintro ⟨h, hmem, -⟩
    exact absurd hmem List.not_mem_nil
  | append_singleton l h ih =>
    rw [List.foldl_append, List.foldl_cons, List.foldl_nil]
    by_cases hload : h.p_type = PT_LOAD
    · rw [(scanPhdr_load hload).1, le_max_iff, ih, loadsOf_concat_load hload]
      constructor
      · rintro (⟨e, he, hle⟩ | hle)
        · exact ⟨e, List.mem_append_left _ he, hle⟩
        · exact ⟨h, List.mem_append_right _ List.mem_cons_self, hle⟩
      · rintro ⟨e, he, hle⟩
        rcases List.mem_append.mp he with he | he
        · exact Or.inl ⟨e, he, hle⟩
        · exact Or.inr (List.mem_singleton.mp he ▸ hle)
    · rw [(scanPhdr_other hload).1, ih, loadsOf_concat_other hload]

/-- The base is among the addresses it is the lowest of, and is null only if there is none. -/
structure IsBase (based : List Phdr) (base : BitVec 32) : Prop where
  le : ∀ h ∈ based, base ≤ h.p_vaddr
  mem : based = [] ∧ base = 0 ∨ base ≠ 0 ∧ ∃ h ∈ based, h.p_vaddr = base

/-- **The base** is the lowest address since the last that is null. -/
theorem foldl_base_addr (hbase : file.base_addr = 0) :
    IsBase ((loadsOf l).rtakeWhile (·.p_vaddr ≠ 0)) (l.foldl scanPhdr file).base_addr := by
  induction l using List.reverseRecOn with
  | nil => exact ⟨fun h hmem => absurd hmem List.not_mem_nil, Or.inl ⟨rfl, hbase⟩⟩
  | append_singleton l h ih =>
    rw [List.foldl_append, List.foldl_cons, List.foldl_nil]
    by_cases hload : h.p_type = PT_LOAD
    · rw [(scanPhdr_load hload).2, loadsOf_concat_load hload]
      by_cases hzero : h.p_vaddr = 0
      · -- Null is below every base, and is the base that stands for none.
        rw [List.rtakeWhile_concat_neg _ _ _ (by simpa using hzero)]
        refine ⟨fun h hmem => absurd hmem List.not_mem_nil, Or.inl ⟨rfl, ?_⟩⟩
        split
        · exact hzero
        case isFalse hnot =>
          rw [hzero, not_or] at hnot
          exact absurd ((BitVec.pos_iff_ne_zero _).mpr hnot.1) hnot.2
      · rw [List.rtakeWhile_concat_pos _ _ _ (by simpa using hzero)]
        split
        case isTrue hlow =>
          refine ⟨fun e he => ?_, Or.inr ⟨hzero, h, List.mem_append_right _ List.mem_cons_self, rfl⟩⟩
          rcases List.mem_append.mp he with he | he
          · rcases hlow with hnull | hlow
            · rcases ih.mem with ⟨hnil, -⟩ | ⟨hne, -⟩
              · exact absurd (hnil ▸ he) List.not_mem_nil
              · exact absurd hnull hne
            · exact BitVec.le_trans (BitVec.le_of_lt hlow) (ih.le e he)
          · exact List.mem_singleton.mp he ▸ BitVec.le_refl _
        case isFalse hlow =>
          rw [not_or] at hlow
          refine ⟨fun e he => ?_, Or.inr ⟨hlow.1, ?_⟩⟩
          · rcases List.mem_append.mp he with he | he
            · exact ih.le e he
            · exact List.mem_singleton.mp he ▸ BitVec.not_lt.mp hlow.2
          · obtain ⟨-, e, he, heq⟩ := ih.mem.resolve_left fun hnone => hlow.1 hnone.2
            exact ⟨e, List.mem_append_left _ he, heq⟩
    · rw [(scanPhdr_other hload).2, loadsOf_concat_other hload]
      exact ih

theorem IsBase.toNat_eq {based : List Phdr} {base : BitVec 32} (hbase : IsBase based base) :
    (based.map (·.p_vaddr.toNat)).min?.getD 0 = base.toNat := by
  rcases hbase.mem with ⟨rfl, rfl⟩ | ⟨-, h, hmem, heq⟩
  · rfl
  · have hmin : (based.map (·.p_vaddr.toNat)).min? = some base.toNat := by
      refine List.min?_eq_some_iff.mpr ⟨List.mem_map.mpr ⟨h, hmem, congrArg _ heq⟩, ?_⟩
      intro n hn
      obtain ⟨e, he, rfl⟩ := List.mem_map.mp hn
      exact BitVec.le_def.mp (hbase.le e he)
    rw [hmin]
    rfl

/-! ### What `elffile_load` touches -/

namespace Extent

variable {lo hi n m : ℕ} {a : BitVec 32}

theorem Within.mono {e e' : Extent} (hwithin : e.Within lo hi) (hstart : e'.start = e.start)
    (hsize : e'.size ≤ e.size) : e'.Within lo hi := by
  intro i hi'
  rw [hstart]
  exact hwithin i (hi'.trans_le hsize)

theorem toNat_add_of_lt {i : ℕ} (h : a.toNat + i < 2 ^ 32) :
    (a + BitVec.ofNat 32 i).toNat = a.toNat + i := by
  rw [BitVec.toNat_add, BitVec.toNat_ofNat, Nat.mod_eq_of_lt (lt_of_le_of_lt (Nat.le_add_left i _) h),
    Nat.mod_eq_of_lt h]

theorem within_iff (hspan : hi < lo + 2 ^ 32) :
    Extent.Within ⟨a, n⟩ lo hi ↔ n = 0 ∨ lo ≤ a.toNat ∧ a.toNat + n ≤ 2 ^ 32 ∧ a.toNat + n ≤ hi := by
  constructor
  · intro hwithin
    change ∀ i < n, lo ≤ (a + BitVec.ofNat 32 i).toNat ∧ (a + BitVec.ofNat 32 i).toNat < hi at hwithin
    rcases Nat.eq_zero_or_pos n with hzero | hpos
    · exact Or.inl hzero
    have hlt := a.isLt
    have hnowrap : a.toNat + n ≤ 2 ^ 32 := by
      by_contra hwrap
      -- The last byte of memory and the first are both among them.
      have hlast := (hwithin (2 ^ 32 - 1 - a.toNat) (by omega)).2
      have hfirst := (hwithin (2 ^ 32 - a.toNat) (by omega)).1
      rw [toNat_add_of_lt (by omega)] at hlast
      rw [BitVec.toNat_add, BitVec.toNat_ofNat] at hfirst
      omega
    have hend := (hwithin (n - 1) (by omega)).2
    have hstart := (hwithin 0 hpos).1
    rw [toNat_add_of_lt (by omega)] at hend hstart
    exact Or.inr ⟨hstart, hnowrap, by omega⟩
  · rintro (rfl | ⟨hstart, hnowrap, hend⟩) i hlt
    · exact absurd hlt (Nat.not_lt_zero i)
    · change i < n at hlt
      change lo ≤ (a + BitVec.ofNat 32 i).toNat ∧ (a + BitVec.ofNat 32 i).toNat < hi
      rw [toNat_add_of_lt (by omega)]
      omega

end Extent

def segmentParts (load_offset : BitVec 32) (init_bss : Bool) (h : Phdr) : List Extent :=
  (if h.p_filesz ≠ 0 then [⟨load_offset + h.p_vaddr, h.p_filesz.toNat⟩] else []) ++
    if init_bss ∧ h.p_memsz - h.p_filesz ≠ 0 then
      [⟨load_offset + h.p_vaddr + h.p_filesz, (h.p_memsz - h.p_filesz).toNat⟩]
    else []

variable {load_offset : BitVec 32} {init_bss : Bool} {gives : BitVec 32 → ℕ} {e : Extent}

theorem mem_loadPhdrs_full :
    e ∈ (loadPhdrs load_offset init_bss (fun _ => 2 ^ 32) l).1 ↔
      ∃ h ∈ loadsOf l, e ∈ segmentParts load_offset init_bss h := by
  induction l with
  | nil => exact ⟨fun hmem => absurd hmem List.not_mem_nil, fun ⟨h, hmem, _⟩ => absurd hmem List.not_mem_nil⟩
  | cons h l ih =>
    unfold loadPhdrs
    by_cases hload : h.p_type = PT_LOAD
    · have hgot : min h.p_filesz.toNat (2 ^ 32) = h.p_filesz.toNat := min_eq_left h.p_filesz.isLt.le
      rw [if_pos hload, hgot, if_neg fun hshort => Nat.lt_irrefl _ hshort.2, loadsOf_cons_load hload,
        List.exists_mem_cons_iff, ← ih]
      exact List.mem_append
    · rw [if_neg hload, ih, loadsOf_cons_other hload]

theorem exists_of_mem_loadPhdrs (hmem : e ∈ (loadPhdrs load_offset init_bss gives l).1) :
    ∃ h ∈ loadsOf l, ∃ part ∈ segmentParts load_offset init_bss h,
      e.start = part.start ∧ e.size ≤ part.size := by
  induction l with
  | nil => exact absurd hmem List.not_mem_nil
  | cons h l ih =>
    unfold loadPhdrs at hmem
    by_cases hload : h.p_type = PT_LOAD
    · rw [if_pos hload] at hmem
      have hhead : h ∈ loadsOf (h :: l) := List.mem_filter.mpr ⟨List.mem_cons_self, decide_eq_true hload⟩
      have hread : e ∈ (if h.p_filesz ≠ 0 then
          [(⟨load_offset + h.p_vaddr, min h.p_filesz.toNat (gives h.p_offset)⟩ : Extent)] else []) →
          ∃ h' ∈ loadsOf (h :: l), ∃ part ∈ segmentParts load_offset init_bss h',
            e.start = part.start ∧ e.size ≤ part.size := by
        intro he
        split at he
        case isFalse => exact absurd he List.not_mem_nil
        case isTrue hfilesz =>
          rw [List.mem_singleton] at he
          refine ⟨h, hhead, ⟨load_offset + h.p_vaddr, h.p_filesz.toNat⟩, ?_, by rw [he], ?_⟩
          · rw [segmentParts, if_pos hfilesz]
            exact List.mem_append_left _ List.mem_cons_self
          · rw [he]
            exact min_le_left _ _
      dsimp only at hmem
      by_cases hshort : h.p_filesz ≠ 0 ∧ min h.p_filesz.toNat (gives h.p_offset) < h.p_filesz.toNat
      · rw [if_pos hshort] at hmem
        exact hread hmem
      · rw [if_neg hshort] at hmem
        rcases List.mem_append.mp hmem with he | he
        · rcases List.mem_append.mp he with he | he
          · exact hread he
          · exact ⟨h, hhead, e, List.mem_append_right _ he, rfl, le_rfl⟩
        · obtain ⟨h', hh', hpart⟩ := ih he
          refine ⟨h', ?_, hpart⟩
          rw [loadsOf_cons_load hload]
          exact List.mem_cons_of_mem _ hh'
    · rw [if_neg hload] at hmem
      rw [loadsOf_cons_other hload]
      exact ih hmem

theorem forall_segmentParts {lo hi : ℕ} :
    (∀ part ∈ segmentParts load_offset init_bss h, part.Within lo hi) ↔
      Extent.Within ⟨load_offset + h.p_vaddr, h.p_filesz.toNat⟩ lo hi ∧
        (init_bss = true →
          Extent.Within ⟨load_offset + h.p_vaddr + h.p_filesz, (h.p_memsz - h.p_filesz).toNat⟩ lo hi) := by
  have hempty : ∀ {x : BitVec 32} {a : BitVec 32}, ¬x ≠ 0 → Extent.Within ⟨a, x.toNat⟩ lo hi := by
    intro x a hx i hi'
    rw [not_not.mp hx] at hi'
    exact absurd hi' (Nat.not_lt_zero i)
  unfold segmentParts
  rw [List.forall_mem_append]
  refine and_congr ?_ ?_
  · split
    case isTrue => exact List.forall_mem_singleton
    case isFalse hzero => exact ⟨fun _ => hempty hzero, fun _ part hpart => absurd hpart List.not_mem_nil⟩
  · split
    case isTrue hbss => exact List.forall_mem_singleton.trans ⟨fun hw _ => hw, fun hw => hw hbss.1⟩
    case isFalse hbss =>
      refine ⟨fun _ hinit => hempty fun hne => hbss ⟨hinit, hne⟩, ?_⟩
      exact fun _ part hpart => absurd hpart List.not_mem_nil

theorem loadPhdrs_within_iff {lo hi : ℕ} :
    (∀ gives, ∀ e ∈ (loadPhdrs load_offset init_bss gives l).1, e.Within lo hi) ↔
      ∀ h ∈ loadsOf l, Extent.Within ⟨load_offset + h.p_vaddr, h.p_filesz.toNat⟩ lo hi ∧
        (init_bss = true →
          Extent.Within ⟨load_offset + h.p_vaddr + h.p_filesz, (h.p_memsz - h.p_filesz).toNat⟩ lo hi) := by
  constructor
  · intro hall h hmem
    exact forall_segmentParts.mp fun part hpart => hall _ part (mem_loadPhdrs_full.mpr ⟨h, hmem, hpart⟩)
  · intro hall gives e he
    obtain ⟨h, hmem, part, hpart, hstart, hsize⟩ := exists_of_mem_loadPhdrs he
    exact (forall_segmentParts.mpr (hall h hmem) part hpart).mono hstart hsize

/-! ### When what is loaded lies within the size -/

theorem elffileOpen_eq_some {ans : ElfAnswers} (hopen : elffileOpen ans = some file) :
    ∃ start : ElfFile, start.memory_size = 0 ∧ start.base_addr = 0 ∧ start.phdrs = file.phdrs ∧
      file = file.phdrs.foldl scanPhdr start := by
  unfold elffileOpen at hopen
  simp only [Option.bind_eq_bind, Option.bind_eq_some_iff, Option.pure_def, Option.some.injEq] at hopen
  obtain ⟨-, -, hdr, -, -, -, -, -, headers, -, rfl⟩ := hopen
  exact ⟨⟨hdr, headers, none, 0, 0, 0⟩, rfl, rfl, foldl_scanPhdr_phdrs.symm, by rw [foldl_scanPhdr_phdrs]⟩

section Opened

variable {ans : ElfAnswers}

theorem le_memory_size (hopen : elffileOpen ans = some file) {n : ℕ} (hn : 0 < n) :
    n ≤ file.memory_size.toNat ↔ ∃ h ∈ file.loads, n ≤ (h.p_offset + h.p_memsz).toNat := by
  obtain ⟨start, hsize, -, -, hfile⟩ := elffileOpen_eq_some hopen
  have hle := le_foldl_memory_size (l := file.phdrs) hsize hn
  rwa [← hfile] at hle

theorem lowest_eq (hopen : elffileOpen ans = some file) : file.lowest = file.base_addr.toNat := by
  obtain ⟨start, -, hbase, -, hfile⟩ := elffileOpen_eq_some hopen
  have hbased := foldl_base_addr (l := file.phdrs) hbase
  rw [← hfile] at hbased
  exact hbased.toNat_eq

theorem within_size_iff (hopen : elffileOpen ans = some file) {a : BitVec 32} {base n : ℕ} :
    Extent.Within ⟨a, n⟩ base (base + file.memory_size.toNat) ↔ file.Fits base a.toNat n := by
  rw [Extent.within_iff (Nat.add_lt_add_left file.memory_size.isLt base)]
  unfold ElfFile.Fits
  rcases Nat.eq_zero_or_pos n with hzero | hpos
  · exact ⟨fun _ => Or.inl hzero, fun _ => Or.inl hzero⟩
  · refine or_congr_right (and_congr_right fun hbase => and_congr_right fun _ => ?_)
    have hle := le_memory_size hopen (n := a.toNat + n - base) (by omega)
    rw [Nat.sub_le_iff_le_add'] at hle
    rw [hle]
    exact exists_congr fun h => and_congr_right fun _ => Nat.sub_le_iff_le_add'

theorem safeAsLoader_iff (hopen : elffileOpen ans = some file) : file.SafeAsLoader ↔ file.LoaderFits := by
  constructor
  · intro hsafe h hmem
    have hzero : (0 : BitVec 32).toNat + file.memory_size.toNat ≤ 2 ^ 32 :=
      (Nat.zero_add _).trans_le file.memory_size.isLt.le
    have hwithin := (loadPhdrs_within_iff.mp fun gives => hsafe 0 gives hzero) h hmem
    rw [show 0 + h.p_vaddr = h.p_vaddr from BitVec.zero_add _] at hwithin
    exact (within_size_iff hopen).mp hwithin.1
  · intro hfits block gives hblock
    refine loadPhdrs_within_iff.mpr (fun h hmem => ⟨?_, fun hbss => absurd hbss Bool.false_ne_true⟩) gives
    have hspan := Nat.add_lt_add_left file.memory_size.isLt
    -- What lies within the size from null on lies within it from the block on.
    have hwithin := (within_size_iff hopen).mpr (hfits h hmem)
    rw [Extent.within_iff (hspan 0)] at hwithin
    rw [Extent.within_iff (hspan block.toNat)]
    rcases hwithin with hzero | ⟨-, -, hend⟩
    · exact Or.inl hzero
    rcases Nat.eq_zero_or_pos h.p_filesz.toNat with hzero | hpos
    · exact Or.inl hzero
    have hstart : (block + h.p_vaddr).toNat = block.toNat + h.p_vaddr.toNat := by
      rw [BitVec.toNat_add]
      exact Nat.mod_eq_of_lt (by omega)
    rw [hstart]
    exact Or.inr ⟨Nat.le_add_right _ _, by omega, by omega⟩

theorem safeAsProgram_iff (hopen : elffileOpen ans = some file) :
    file.SafeAsProgram ↔ file.ProgramFits := by
  unfold ElfFile.SafeAsProgram ElfFile.ProgramFits
  rw [lowest_eq hopen]
  refine loadPhdrs_within_iff.trans (forall_congr' fun h => forall_congr' fun _ => ?_)
  rw [show 0 + h.p_vaddr = h.p_vaddr from BitVec.zero_add _]
  exact and_congr (within_size_iff hopen) ⟨fun hbss => (within_size_iff hopen).mp (hbss rfl),
    fun hbss _ => (within_size_iff hopen).mpr hbss⟩

end Opened

/-- **What is loaded lies within the size** just where the addresses of the segments keep up with their places
in the file: for a loader in the block that is allocated for it, and for a program. -/
theorem elffileLoad_within_iff (ans : ElfAnswers) (file : ElfFile) (hopen : elffileOpen ans = some file) :
    (file.SafeAsLoader ↔ file.LoaderFits) ∧ (file.SafeAsProgram ↔ file.ProgramFits) :=
  ⟨safeAsLoader_iff hopen, safeAsProgram_iff hopen⟩

/-! ### A file whose data lie further up than their place in the file -/

def armEhdr : Ehdr := ⟨ELF_ID, ELFCLASS32, ELFDATA2LSB, EV_CURRENT, EM_ARM, 32, 2⟩

/-- The code at `text`, and the data, the next in the file, at `data`. -/
def apartPhdrs (text data : BitVec 32) (i : ℕ) : Phdr :=
  if i = 0 then ⟨PT_LOAD, 0, text, 0x1000, 0x1000⟩ else ⟨PT_LOAD, 0x1000, data, 0x100, 0x200⟩

def apartAnswers (text data : BitVec 32) : ElfAnswers :=
  ⟨true, some armEhdr, fun _ => true, some (apartPhdrs text data)⟩

/-- The file that is open then. A null address does not count for the base. -/
def apartFile (text data : BitVec 32) : ElfFile :=
  ⟨armEhdr, apartPhdrs text data, none, 0, 0x1200, if text = 0 then data else text⟩

theorem elffileLoad_within_iff_apart :
    ((apartFile 0x8000 0x11000).SafeAsLoader ↔ (apartFile 0x8000 0x11000).LoaderFits) ∧
      ((apartFile 0x8000 0x11000).SafeAsProgram ↔ (apartFile 0x8000 0x11000).ProgramFits) :=
  elffileLoad_within_iff (apartAnswers 0x8000 0x11000) _ rfl

/-- The size is 0x1200 bytes, but the data of the program are read in 0x9000 bytes behind its base, and those
of the loader 0x9000 bytes behind the block that was allocated. -/
theorem apart_not_within :
    (elffileOpen (apartAnswers 0x8000 0x11000) = some (apartFile 0x8000 0x11000) ∧
        ¬(apartFile 0x8000 0x11000).SafeAsProgram) ∧
      elffileOpen (apartAnswers 0 0x9000) = some (apartFile 0 0x9000) ∧ ¬(apartFile 0 0x9000).SafeAsLoader := by
  refine ⟨⟨rfl, fun hsafe => ?_⟩, rfl, fun hsafe => ?_⟩
  · have hdata : (⟨0x11000, 0x100⟩ : Extent) ∈
        (elffileLoad (apartFile 0x8000 0x11000) 0 true fun _ => 2 ^ 32).1 := by decide
    exact absurd (hsafe _ _ hdata 0 (by decide)).2 (by decide)
  · have hdata : (⟨0x9000, 0x100⟩ : Extent) ∈
        (elffileLoad (apartFile 0 0x9000) 0 false fun _ => 2 ^ 32).1 := by decide
    exact absurd (hsafe 0 _ (by decide) _ hdata 0 (by decide)).2 (by decide)

end SOManager
