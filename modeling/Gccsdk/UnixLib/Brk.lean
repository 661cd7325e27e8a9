import Gccsdk.Lib.Address

/-!
# The memory break

`sys/brk.c`: `brk`, `sbrk` and `__internal_sbrk`, and `__stackalloc_incr_wimpslot` of `sys/stackalloc.c`, which
extends the application space. The heap is either in application space, below the stack and then above it, or
in a dynamic area (`dynamic_num` is not -1).

A request to the operating system is granted or fails (`MemOs`). `OS_ChangeDynamicArea` takes a signed amount:
it grants no more room than the address space has, nor takes away more than the area is. `sul_wimpslot` never
lets the application space run into the dynamic area.
-/

namespace UnixLib

/-- What `errno` is set to. -/
inductive BrkErrno
  | EINVAL
  | ENOMEM
  deriving DecidableEq, Repr

/-- The bounds in `struct ul_memory`. -/
structure UlMemory where
  appspace_himem : BitVec 32
  stack : BitVec 32
  rwlomem : BitVec 32
  rwbreak : BitVec 32
  stack_limit : BitVec 32
  dalomem : BitVec 32
  dabreak : BitVec 32
  dalimit : BitVec 32
  appspace_limit : BitVec 32
  deriving DecidableEq, Repr

/-- The bounds, with what else the calls read and write. -/
structure BrkState where
  mem : UlMemory
  /-- `__ul_global.dynamic_num` -/
  dynamic_num : BitVec 32
  /-- the static variable of `__internal_sbrk` -/
  overstack : Bool
  errno : Option BrkErrno
  areaEnd : BitVec 32
  deriving DecidableEq, Repr

def DA_WIMPSLOT_ALIGNMENT : BitVec 32 := 0x7FFF

def align (x : BitVec 32) : BitVec 32 := (x + 3) &&& ~~~3

def align32K (x : BitVec 32) : BitVec 32 := (x + DA_WIMPSLOT_ALIGNMENT) &&& ~~~DA_WIMPSLOT_ALIGNMENT

/-! ### The operating system -/

inductive SlotAnswer
  | granted
  /-- The size is read back as it was, -/
  | unchanged
  /-- or there is an error. -/
  | failed
  deriving DecidableEq, Repr

structure MemOs where
  areaGranted : Bool
  slot : SlotAnswer
  deriving DecidableEq, Repr

def BrkState.AreaFits (s : BrkState) (amount : BitVec 32) : Prop :=
  (amount.slt 0 = true → -amount ≤ s.areaEnd - s.mem.dalomem) ∧
    (amount.slt 0 = false → s.areaEnd.toNat + amount.toNat < 2 ^ 32)

instance (s : BrkState) (amount : BitVec 32) : Decidable (s.AreaFits amount) :=
  inferInstanceAs (Decidable ((_ → _) ∧ (_ → _)))

/-- `OS_ChangeDynamicArea`: whether there is an error, and the amount moved, which is never negative. -/
def osChangeDynamicArea (os : MemOs) (amount : BitVec 32) (s : BrkState) :
    BrkState × Bool × BitVec 32 :=
  if os.areaGranted ∧ s.AreaFits amount then
    ({ s with areaEnd := s.areaEnd + amount }, false, if amount.slt 0 then -amount else amount)
  else (s, true, 0)

/-- `sul_wimpslot`: the end of the slot, or 0. -/
def sulWimpslot (os : MemOs) (newslot : BitVec 32) (s : BrkState) : BitVec 32 :=
  match os.slot with
  | .granted => if s.dynamic_num ≠ -1 ∧ s.mem.dalomem < newslot then 0 else newslot
  | .unchanged => s.mem.appspace_limit
  | .failed => 0

/-! ### The code -/

/-- `__set_errno`, after which -1 is returned. -/
def setErrno (e : BrkErrno) (s : BrkState) : BrkState × Option (BitVec 32) :=
  ({ s with errno := some e }, none)

/-- `__stackalloc_incr_wimpslot`. -/
def incrWimpslot (os : MemOs) (incr : BitVec 32) (s : BrkState) : BrkState × BitVec 32 :=
  if s.mem.appspace_himem + incr ≤ s.mem.appspace_limit then
    ({ s with mem.appspace_himem := s.mem.appspace_himem + incr }, s.mem.appspace_himem + incr)
  else
    let new_wimpslot := sulWimpslot os (align32K (s.mem.appspace_himem + incr)) s
    if new_wimpslot = 0 then (s, 0)
    else
      let s := { s with mem.appspace_limit := new_wimpslot }
      if s.mem.appspace_limit < s.mem.appspace_himem + incr then (s, 0)
      else
        ({ s with mem.appspace_himem := s.mem.appspace_himem + incr }, s.mem.appspace_himem + incr)

/-- The end of `brk_da`, where the area is large enough. -/
def brkDaMove (os : MemOs) (addr : BitVec 32) (s : BrkState) : BrkState :=
  if s.mem.dabreak < addr then { s with mem.dabreak := addr }
  else
    let s := { s with mem.dabreak := addr }
    let amount := (s.mem.dalimit - addr) &&& ~~~DA_WIMPSLOT_ALIGNMENT
    if (0 : BitVec 32).slt amount then
      -- an error is ignored
      let (s, _, moved) := osChangeDynamicArea os (-amount) s
      { s with mem.dalimit := s.mem.dalimit - moved }
    else s

/-- `brk_da`; `none` is -1. -/
def brkDa (os : MemOs) (addr : BitVec 32) (s : BrkState) : BrkState × Option (BitVec 32) :=
  let addr := align addr
  if addr < s.mem.dalomem then setErrno .EINVAL s
  else if s.mem.dalimit < addr then
    match osChangeDynamicArea os (align32K (addr - s.mem.dalimit)) s with
    | (s, true, _) => setErrno .ENOMEM s
    | (s, false, moved) =>
      (brkDaMove os addr { s with mem.dalimit := s.mem.dalimit + moved }, some 0)
  else (brkDaMove os addr s, some 0)

/-- `brk_rw`; `none` is -1. -/
def brkRw (os : MemOs) (addr : BitVec 32) (internal_call : Bool) (s : BrkState) :
    BrkState × Option (BitVec 32) :=
  let addr := align addr
  if addr < s.mem.rwlomem then setErrno .EINVAL s
  else if s.mem.stack < addr then
    if ¬internal_call then setErrno .ENOMEM s
    else
      match incrWimpslot os (addr - s.mem.appspace_himem) s with
      | (s, himem) =>
        if himem = 0 then setErrno .ENOMEM s
        else ({ s with mem.rwbreak := addr }, some 0)
  else ({ s with mem.stack_limit := addr, mem.rwbreak := addr }, some 0)

def brk (os : MemOs) (addr : BitVec 32) (s : BrkState) : BrkState × Option (BitVec 32) :=
  if s.dynamic_num = -1 then brkRw os addr false s else brkDa os addr s

def sbrk (os : MemOs) (delta : BitVec 32) (s : BrkState) : BrkState × Option (BitVec 32) :=
  if s.dynamic_num = -1 then
    let oldbrk := s.mem.rwbreak
    match if delta ≠ 0 then brkRw os (s.mem.rwbreak + delta) false s else (s, some 0) with
    | (s, none) => (s, none)
    | (s, some _) => (s, some (if s.mem.stack_limit < oldbrk then s.mem.stack_limit else oldbrk))
  else
    let oldbrk := s.mem.dabreak
    match if delta ≠ 0 then brkDa os (oldbrk + delta) s else (s, some 0) with
    | (s, none) => (s, none)
    | (s, some _) => (s, some oldbrk)

/-- Where `__internal_sbrk` goes above the stack. -/
def BrkState.Over (s : BrkState) (incr : BitVec 32) : Prop :=
  s.overstack = true ∨ s.mem.stack ≤ s.mem.rwbreak + incr

instance (s : BrkState) (incr : BitVec 32) : Decidable (s.Over incr) :=
  inferInstanceAs (Decidable (_ ∨ _))

/-- Its `oldbrk`. -/
def BrkState.internalBase (s : BrkState) (incr : BitVec 32) : BitVec 32 :=
  if s.dynamic_num = -1 then if s.Over incr then s.mem.appspace_himem else s.mem.rwbreak
  else s.mem.dabreak

def internalSbrk (os : MemOs) (incr : BitVec 32) (s : BrkState) : BrkState × Option (BitVec 32) :=
  let oldbrk := s.internalBase incr
  if incr.slt 0 then (s, none)
  else if s.dynamic_num = -1 then
    let s := if s.Over incr then { s with overstack := true } else s
    match if incr ≠ 0 then brkRw os (oldbrk + incr) true s else (s, some 0) with
    | (s, none) => (s, none)
    | (s, some _) => (s, some oldbrk)
  else
    match if incr ≠ 0 then brkDa os (oldbrk + incr) s else (s, some 0) with
    | (s, none) => (s, none)
    | (s, some _) => (s, some oldbrk)

/-! ### Rounding -/

theorem toNat_align (x : BitVec 32) : (align x).toNat = (x.toNat + 3) % 2 ^ 32 / 4 * 4 := by
  unfold align
  have hmask : (3 : BitVec 32) = Address.mask 32 2 := rfl
  rw [hmask, Address.toNat_roundDown, BitVec.toNat_add]
  rfl

theorem toNat_align32K (x : BitVec 32) :
    (align32K x).toNat = (x.toNat + 0x7FFF) % 2 ^ 32 / 0x8000 * 0x8000 := by
  unfold align32K
  have hmask : DA_WIMPSLOT_ALIGNMENT = Address.mask 32 15 := rfl
  rw [hmask, Address.toNat_roundDown, BitVec.toNat_add]
  rfl

theorem toNat_down32K (x : BitVec 32) :
    (x &&& ~~~DA_WIMPSLOT_ALIGNMENT).toNat = x.toNat / 0x8000 * 0x8000 := by
  have hmask : DA_WIMPSLOT_ALIGNMENT = Address.mask 32 15 := rfl
  rw [hmask]
  exact Address.toNat_roundDown _ _

end UnixLib
