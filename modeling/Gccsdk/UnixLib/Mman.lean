import Mathlib.Data.Fin.Tuple.Basic

/-!
# Memory mappings

`sys/mman.c`: `mmap`, `munmap` and `mremap` for memory that is not from a file (`fd` is -1 throughout), with
the table of mappings they share. A mapping is a dynamic area of its own. What the operating system does
with the areas is `Os`: it may refuse any request, and an area it creates has a number and an address that no
other area has at the time; those of deleted areas may come again.

The contents of the areas are not modelled, nor is the writing back of files.
-/

namespace UnixLib

/-- The values of `errno`. -/
inductive MmapErrno
  | EINVAL
  | ENOSYS
  | ENOMEM
  | EOPSYS
  deriving DecidableEq, Repr

def PROT_READ : BitVec 32 := 4
def PROT_WRITE : BitVec 32 := 2
def PROT_EXEC : BitVec 32 := 1
def MAP_COPY : BitVec 32 := 0x20
def MAP_FIXED : BitVec 32 := 0x100
def MREMAP_MAYMOVE : BitVec 32 := 1
abbrev MAX_MMAPS : ℕ := 8

/-! ### The operating system -/

structure Area where
  base : BitVec 32
  size : BitVec 32
  deriving DecidableEq, Repr

abbrev Areas := BitVec 32 → Option Area

structure Os where
  /-- `OS_DynamicArea 0`, for a size, flags and a maximum size: the number and the address. -/
  create : Areas → BitVec 32 → BitVec 32 → BitVec 32 → Option (BitVec 32 × BitVec 32)
  /-- `OS_ChangeDynamicArea` is granted. -/
  change : Areas → BitVec 32 → BitVec 32 → Bool
  /-- `OS_DynamicArea 1` is granted. -/
  delete : Areas → BitVec 32 → Bool
  create_new : ∀ {areas size flags limit number base}, create areas size flags limit =
    some (number, base) → number ≠ -1 ∧ areas number = none ∧ base ≠ 0 ∧
      ∀ n a, areas n = some a → a.base ≠ base

/-- `OS_ChangeDynamicArea`; `none` is an error. -/
def osChange (os : Os) (areas : Areas) (number amount : BitVec 32) : Option Areas :=
  match areas number with
  | none => none
  | some a =>
    if os.change areas number amount then
      some (Function.update areas number (some { a with size := a.size + amount }))
    else none

/-- `OS_DynamicArea 1`; `none` is an error. -/
def osDelete (os : Os) (areas : Areas) (number : BitVec 32) : Option Areas :=
  match areas number with
  | none => none
  | some _ => if os.delete areas number then some (Function.update areas number none) else none

/-! ### The table -/

structure MmapInfo where
  addr : BitVec 32
  number : BitVec 32
  len : BitVec 32
  prot : BitVec 32
  flags : BitVec 32
  fd : BitVec 32
  offset : BitVec 32
  deriving DecidableEq, Repr

def IMMAP : MmapInfo := ⟨0, -1, 0, 0, 0, -1, 0⟩

/-- The table, the areas, and `__ul_global.pagesize`. -/
structure Mman where
  mmaps : Fin MAX_MMAPS → MmapInfo
  areas : Areas
  pagesize : BitVec 32

namespace Mman

def lookup (s : Mman) (addr : BitVec 32) : Option (Fin MAX_MMAPS) :=
  Fin.find? fun i => (s.mmaps i).addr = addr

def spare (s : Mman) : Option (Fin MAX_MMAPS) := Fin.find? fun i => (s.mmaps i).number = -1

def setEntry (s : Mman) (i : Fin MAX_MMAPS) (info : MmapInfo) : Mman :=
  { s with mmaps := Function.update s.mmaps i info }

def newArea (s : Mman) (i : Fin MAX_MMAPS) (number base size prot flags offset : BitVec 32) : Mman :=
  { s.setEntry i ⟨base, number, size, prot, flags, -1, offset⟩ with
    areas := Function.update s.areas number (some ⟨base, size⟩) }

/-- `mmaps[i].number = -1`. -/
def giveUp (s : Mman) (i : Fin MAX_MMAPS) : Mman := s.setEntry i { s.mmaps i with number := -1 }

/-- Keeping the old area: `mmaps[i].addr = addr; mmaps[i].number = old_area`. -/
def keepOld (s : Mman) (i : Fin MAX_MMAPS) (addr old_area : BitVec 32) : Mman :=
  s.setEntry i { s.mmaps i with addr := addr, number := old_area }

def deleteOld (s : Mman) (os : Os) (old_area : BitVec 32) : Mman :=
  match osDelete os s.areas old_area with
  | none => s
  | some areas => { s with areas := areas }

theorem deleteOld_of_some {s : Mman} {os : Os} {old_area : BitVec 32} {areas}
    (h : osDelete os s.areas old_area = some areas) : s.deleteOld os old_area = { s with areas := areas } := by
  rw [deleteOld, h]

end Mman

def pageAlign (pagesize len : BitVec 32) : BitVec 32 :=
  (len + (pagesize - 1)) &&& ~~~(pagesize - 1)

/-! ### The calls -/

/-- What `mmap` looks at first. -/
def mmapCheck (pagesize addr prot flags : BitVec 32) : Option MmapErrno :=
  -- `MAP_FIXED` and `MAP_COPY` are not supported,
  if flags &&& MAP_FIXED ≠ 0 then
    some (if addr &&& (pagesize - 1) ≠ 0 then .EINVAL else .ENOSYS)
  else if flags &&& MAP_COPY ≠ 0 then some .ENOSYS
  -- and only `PROT_READ` and `PROT_WRITE` are.
  else if prot &&& PROT_EXEC = PROT_EXEC ∨ prot &&& (PROT_READ ||| PROT_WRITE) = 0 then some .ENOSYS
  else none

def areaFlags (prot : BitVec 32) : BitVec 32 :=
  if prot &&& PROT_READ ≠ 0 then
    if prot &&& PROT_WRITE ≠ 0 then 0x80 else 0x81
  else 0x82

def mmap (os : Os) (s : Mman) (addr len prot flags offset : BitVec 32) :
    Mman × Except MmapErrno (BitVec 32) :=
  match mmapCheck s.pagesize addr prot flags with
  | some errno => (s, .error errno)
  | none =>
    match s.spare with
    | none => (s, .error .ENOMEM)
    | some i =>
      let mapped_size := pageAlign s.pagesize len
      -- Non-zero offset only makes sense for mmap onto files.
      if offset ≠ 0 then (s, .error .EINVAL)
      else
        -- triple the requested memory is the limit, for `mremap`
        match os.create s.areas mapped_size (areaFlags prot) (mapped_size * 3) with
        | none => (s, .error .ENOMEM)
        | some (number, base) =>
          (s.newArea i number base mapped_size prot flags offset, .ok base)

/-- `munmap`. The length is that of what is written back, and has no meaning here. -/
def munmap (os : Os) (s : Mman) (addr _len : BitVec 32) : Mman × Except MmapErrno (BitVec 32) :=
  match s.lookup addr with
  | none => (s, .error .EINVAL)
  | some i =>
    let s' := s.setEntry i { s.mmaps i with addr := 0, number := -1 }
    match osDelete os s.areas (s.mmaps i).number with
    | none => (s', .error .EOPSYS)
    | some areas => ({ s' with areas := areas }, .ok 0)

/-- The part of `mremap` that makes a new mapping in place of the one of entry `i`, which cannot be enlarged. -/
def mremapMove (os : Os) (s : Mman) (i : Fin MAX_MMAPS) (addr new_len : BitVec 32) :
    Mman × Except MmapErrno (BitVec 32) :=
  let info := s.mmaps i
  match mmap os (s.giveUp i) 0 new_len info.prot info.flags 0 with
  | (s', .error errno) => (s'.keepOld i addr info.number, .error errno)
  | (s', .ok new_addr) => (s'.deleteOld os info.number, .ok new_addr)

def mremap (os : Os) (s : Mman) (addr old_len new_len may_move : BitVec 32) :
    Mman × Except MmapErrno (BitVec 32) :=
  match s.lookup addr with
  | none => (s, .error .EINVAL)
  | some i =>
    -- For simplicity don't allow remapping of mapped files.
    if (s.mmaps i).fd ≠ -1 then (s, .error .ENOSYS)
    else
      let old_len := pageAlign s.pagesize old_len
      if old_len ≠ (s.mmaps i).len then (s, .error .EINVAL)
      else
        let new_len := pageAlign s.pagesize new_len
        if new_len - old_len = 0 then (s, .ok addr)
        else
          match osChange os s.areas (s.mmaps i).number (new_len - old_len) with
          | some areas => ({ s with areas := areas }, .ok addr)
          | none =>
            -- a failure to reduce the area is recorded, and no more
            if new_len < old_len then (s, .ok addr)
            else if may_move &&& MREMAP_MAYMOVE = 0 then (s, .error .EOPSYS)
            else mremapMove os s i addr new_len

end UnixLib
