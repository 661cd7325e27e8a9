import Gccsdk.Lib.ByteMemory
import Mathlib.Data.List.DropRight
import Mathlib.Data.List.Infix

/-!
# The environment array of a client

`setup_env_array` of `som_runcom.c`, with `read_ld_env` and what these use of `som_utils.c` and `som_os_swis.h`:
the value of the variable for the loader's environment is stored at the start of free memory, and below the
RAM limit goes an array with a pointer to each of its fields, which are cut off at the spaces.

One loop counts the spaces to reserve the slots. The other fills them, and does not look at the character behind
a space: behind two spaces a slot stays unused, and behind one at the end it reads on past the end of the string.

`setupEnvArray_right_iff`: the array is as it should be (`EnvArrayRight`) exactly where no space is followed by
another or by nothing (`SpacesApart`), and the string and the slots have room (`EnvFits`).

A loop has a bound of as many steps as memory has bytes: none that ends has more. `vars` is what the system
variables are; a call of `read_ld_env` may fail to get a block, or to read the variable (`EnvCall`).
-/

namespace SOManager

open ByteMemory

abbrev Bytes := List UInt8

def chars (s : String) : Bytes := s.toList.map fun c => UInt8.ofNat c.toNat

/-! ### `som_utils.c` -/

def lcase (a : UInt8) (any : Bool) : UInt8 := if 0x41 ≤ a ∧ a ≤ 0x5A ∧ any = true then a + 0x20 else a

/-- `wildcmp`; `*` is 0x2A, and `#` is 0x23. -/
def wildcmp (lower : Bool) : Bytes → Bytes → Bool
  | [], s2 => (s2.dropWhile (· == 0x2A)).isEmpty
  | _ :: _, [] => false
  | c1 :: s1, c2 :: s2 =>
    if lcase c1 lower = lcase c2 lower ∨ lcase c2 lower = 0x23 then wildcmp lower s1 s2
    else if lcase c2 lower = 0x2A then
      s2.isEmpty || (c1 :: s1).tails.any fun s => !s.isEmpty && wildcmp lower s s2
    else false

/-- `stricmp (a, b) == 0` -/
def striEq (a b : Bytes) : Bool := a.map (lcase · true) == b.map (lcase · true)

/-! ### `read_ld_env` -/

def global_env_name : Bytes := chars "LD$Env"

structure SysVars where
  value : Bytes → Option Bytes
  fits : ∀ name v, value name = some v → v.length + 1 < 2 ^ 32

/-- What a call of `read_ld_env` is answered. -/
structure EnvCall where
  malloc : Bool
  readVarVal : Bool
  deriving DecidableEq, Repr

/-- The name of the process, from the full filename: the leaf name, or that of the application. -/
def processName (elf_prog_name : Bytes) : Option Bytes :=
  let leaf := elf_prog_name.rtakeWhile (· ≠ 0x2E)
  let dir := elf_prog_name.rdropWhile (· ≠ 0x2E)
  if dir = [] then none
  else if striEq leaf (chars "!runimage") || wildcmp true leaf (chars "*-bin") then
    -- From the `.` before the leaf name back to a `!`.
    if 0x21 ∈ dir then some (dir.rtakeWhile (· ≠ 0x21)).dropLast else some leaf
  else some leaf

def osReadVarValSize (vars : SysVars) (name : Bytes) : BitVec 32 :=
  match vars.value name with
  | some v => BitVec.ofNat 32 (v.length + 1)
  | none => 1

/-- `read_ld_env`: its result, and what it stores in a buffer. -/
def readLdEnv (vars : SysVars) (call : EnvCall) (elf_prog_name : Bytes) : BitVec 32 × Bytes :=
  match processName elf_prog_name with
  | none => (1, [0])
  | some name =>
    if call.malloc then
      let env_name := name ++ chars "$" ++ global_env_name
      let used := if osReadVarValSize vars env_name = 1 then global_env_name else env_name
      let var_len := osReadVarValSize vars used
      match vars.value used with
      | some v => (var_len, if var_len = 1 ∨ call.readVarVal = false then [0] else v ++ [0])
      | none => (var_len, [0])
    else (1, [0])

/-! ### `setup_env_array` -/

/-- The members of `runcom_state` that are used. -/
structure RuncomState where
  elf_prog_name : Bytes
  free_memory : BitVec 32
  ram_limit : BitVec 32

def wordAlign (addr : BitVec 32) : BitVec 32 := (addr + 3) &&& ~~~3

abbrev space : UInt8 := 0x20

def countSpaces (m : Memory) : ℕ → BitVec 32 → BitVec 32 → Option (BitVec 32 × List (BitVec 32))
  | 0, _, _ => none
  | fuel + 1, p, count =>
    if m p = 0 then some (count, [p])
    else (countSpaces m fuel (p + 1) (if m p = space then count + 1 else count)).map fun r =>
      (r.1, p :: r.2)

def fillEnv : ℕ → Memory → BitVec 32 → BitVec 32 → Option (Memory × BitVec 32 × List (BitVec 32))
  | 0, _, _, _ => none
  | fuel + 1, m, p, env_array =>
    if m p = 0 then some (m, env_array, [p])
    else if m p = space then
      let m := storeWord (Function.update m p 0) env_array (p + 1)
      (fillEnv fuel m (p + 1 + 1) (env_array + 4)).map fun r => (r.1, r.2.1, p :: r.2.2)
    else (fillEnv fuel m (p + 1) env_array).map fun r => (r.1, r.2.1, p :: r.2.2)

inductive EnvResult
  /-- `somerr_wimpslot_too_small` -/
  | tooSmall
  | endless
  /-- The memory that is left, and the addresses that have been read as the string. -/
  | done (s : RuncomState) (m : Memory) (reads : List (BitVec 32))

/-- The string of no characters has no variable; else the first slot is for its start. -/
def fillSlots (m : Memory) (env_string env_array : BitVec 32) :
    Option (Memory × BitVec 32 × List (BitVec 32)) :=
  if m env_string = 0 then some (m, env_array, [env_string])
  else fillEnv (2 ^ 32) (storeWord m env_array env_string) env_string (env_array + 4)

def countSlots (m : Memory) (env_string : BitVec 32) : Option (BitVec 32 × List (BitVec 32)) :=
  if m env_string = 0 then some (1, [env_string]) else countSpaces m (2 ^ 32) env_string 2

/-- `setup_env_array`; `first` and `second` are the answers to the two calls of `read_ld_env`. -/
def setupEnvArray (vars : SysVars) (first second : EnvCall) (s : RuncomState) (m : Memory) : EnvResult :=
  let env_size := (readLdEnv vars first s.elf_prog_name).1
  if s.free_memory + env_size > s.ram_limit then .tooSmall
  else
    let env_string := s.free_memory
    let m := storeBytes m env_string (readLdEnv vars second s.elf_prog_name).2
    let free_memory := wordAlign (s.free_memory + env_size)
    match countSlots m env_string with
    | none => .endless
    | some (count, reads) =>
      let env_array := s.ram_limit - count <<< 2
      if free_memory > env_array then .tooSmall
      else
        match fillSlots m env_string env_array with
        | none => .endless
        | some (m, last, reads') =>
          .done { s with free_memory := free_memory, ram_limit := env_array } (storeWord m last 0)
            (reads ++ reads')

/-! ### What is to hold -/

/-- The string that `read_ld_env` leaves in the buffer. -/
def envString (vars : SysVars) (call : EnvCall) (elf_prog_name : Bytes) : Bytes :=
  (readLdEnv vars call elf_prog_name).2.takeWhile (· ≠ 0)

def fieldsOf (str : Bytes) : List Bytes := if str = [] then [] else str.splitOn space

/-- Pointers to fields that lie one behind the other, each with a null character; then a null pointer. -/
def Filled (m : Memory) (slot field : BitVec 32) : List Bytes → Prop
  | [] => HoldsWord m slot 0
  | f :: fs => HoldsWord m slot field ∧ Holds m field (f ++ [0]) ∧
      Filled m (slot + 4) (field + BitVec.ofNat 32 (f.length + 1)) fs

/-- **What a call is to leave**, for the string `str` at the start of free memory. -/
structure EnvArrayRight (str : Bytes) (s s' : RuncomState) (m' : Memory) (reads : List (BitVec 32)) : Prop where
  reads : ∀ x ∈ reads, Inside s.free_memory (str.length + 1) x
  below : s.free_memory.toNat + str.length + 1 ≤ s'.ram_limit.toNat
  reserved : s'.ram_limit.toNat + 4 * ((fieldsOf str).length + 1) = s.ram_limit.toNat
  filled : Filled m' s'.ram_limit s.free_memory (fieldsOf str)

def EnvResult.Right (str : Bytes) (s : RuncomState) : EnvResult → Prop
  | .done s' m' reads => EnvArrayRight str s s' m' reads
  | _ => False

def SpacesApart (str : Bytes) : Prop := str.getLast? ≠ some space ∧ ¬[space, space] <:+: str

def EnvFits (str : Bytes) (s : RuncomState) : Prop :=
  s.free_memory.toNat + str.length + 1 + 4 * ((fieldsOf str).length + 1) ≤ s.ram_limit.toNat

/-! ### Spaces that are apart -/

variable {str rest : Bytes} {c : UInt8} {m m' : Memory} {p q w x slot start : BitVec 32}

/-- The same along the string: the loop that fills the slots takes a space and the character behind it in one
step. -/
private inductive Apart : Bytes → Prop
  | nil : Apart []
  | char {c : UInt8} {rest : Bytes} (hc : c ≠ space) (hrest : Apart rest) : Apart (c :: rest)
  | field {c : UInt8} {rest : Bytes} (hc : c ≠ space) (hrest : Apart rest) : Apart (space :: c :: rest)

theorem SpacesApart.tail (happ : SpacesApart (c :: rest)) : SpacesApart rest := by
  refine ⟨fun hlast => ?_, fun hinfix => happ.2 (List.infix_cons hinfix)⟩
  cases rest with
  | nil => cases hlast
  | cons d rest => exact happ.1 (List.getLast?_cons_cons.trans hlast)

theorem SpacesApart.cons (hc : c ≠ space) (happ : SpacesApart rest) : SpacesApart (c :: rest) := by
  constructor
  · intro hlast
    cases rest with
    | nil => exact hc (Option.some.inj hlast)
    | cons d rest => exact happ.1 (List.getLast?_cons_cons.symm.trans hlast)
  · intro hinfix
    rcases List.infix_cons_iff.mp hinfix with hprefix | hinfix
    · exact hc (List.cons_prefix_cons.mp hprefix).1.symm
    · exact happ.2 hinfix

private theorem Apart.spacesApart (happ : Apart str) : SpacesApart str := by
  induction happ with
  | nil => exact ⟨nofun, fun hinfix => absurd (List.infix_nil.mp hinfix) (by decide)⟩
  | char hc _ ih => exact ih.cons hc
  | @field c rest hc _ ih =>
    have hcons := ih.cons hc
    refine ⟨fun hlast => hcons.1 (List.getLast?_cons_cons.symm.trans hlast), fun hinfix => ?_⟩
    rcases List.infix_cons_iff.mp hinfix with hprefix | hinfix
    · have hnext := (List.cons_prefix_cons.mp hprefix).2
      exact hc (List.cons_prefix_cons.mp hnext).1.symm
    · exact hcons.2 hinfix

private theorem SpacesApart.apart : {str : Bytes} → SpacesApart str → Apart str
  | [], _ => .nil
  | c :: rest, happ => by
    by_cases hc : c = space
    · subst hc
      cases rest with
      | nil => exact absurd rfl happ.1
      | cons d rest =>
        refine .field ?_ happ.tail.tail.apart
        rintro rfl
        exact happ.2 (List.prefix_append [space, space] rest).isInfix
    · exact .char hc happ.tail.apart

/-! ### The loops -/

private theorem cut_of_ne (hle : q.toNat + 4 ≤ 2 ^ 32) (hp : x ≠ p) (hq : ¬Inside q 4 x) :
    storeWord (Function.update m p 0) q w x = m x := by
  rw [storeWord_of_not_inside hle hq, Function.update_of_ne hp]

private theorem holds_cons_ne (hnul : (0 : UInt8) ∉ c :: rest) (hm : Holds m p (c :: rest ++ [0])) : m p ≠ 0 := by
  rw [hm.1]
  exact fun hzero => hnul (hzero ▸ List.mem_cons_self)

private theorem inside_self {n : ℕ} : Inside p (n + 1) p :=
  ⟨le_rfl, Nat.lt_add_of_pos_right (Nat.succ_pos n)⟩

/-- **The counting loop** counts the spaces, and stays in the string. -/
theorem countSpaces_eq {fuel : ℕ} {count : BitVec 32} (hfuel : rest.length < fuel) (hnul : (0 : UInt8) ∉ rest)
    (hm : Holds m p (rest ++ [0])) (hle : p.toNat + (rest.length + 1) ≤ 2 ^ 32) :
    ∃ reads, countSpaces m fuel p count = some (count + BitVec.ofNat 32 (rest.count space), reads) ∧
      ∀ x ∈ reads, Inside p (rest.length + 1) x := by
  induction rest generalizing fuel p count with
  | nil =>
    obtain ⟨fuel, rfl⟩ := Nat.exists_eq_add_of_lt hfuel
    refine ⟨[p], ?_, fun x hx => List.mem_singleton.mp hx ▸ inside_self⟩
    change (if m p = 0 then _ else _) = _
    rw [if_pos hm.1, List.count_nil, BitVec.add_zero]
  | cons c rest ih =>
    obtain ⟨fuel, rfl⟩ : ∃ k, fuel = k + 1 := ⟨fuel - 1, by omega⟩
    rw [List.length_cons] at hfuel hle
    have hnext : (p + 1).toNat = p.toNat + 1 := toNat_add_one (by omega)
    obtain ⟨reads, hrun, hreads⟩ := @ih (p + 1) fuel (if m p = space then count + 1 else count)
      (Nat.lt_of_succ_lt_succ hfuel) (fun hmem => hnul (List.mem_cons_of_mem c hmem)) hm.2 (by omega)
    refine ⟨p :: reads, ?_, ?_⟩
    · unfold countSpaces
      rw [if_neg (holds_cons_ne hnul hm), hrun, hm.1]
      refine congrArg (fun n => some (n, p :: reads)) ?_
      by_cases hc : c = space
      · rw [if_pos hc, hc, List.count_cons_self, Nat.add_comm, BitVec.ofNat_add, BitVec.add_assoc]
        rfl
      · rw [if_neg hc, List.count_cons_of_ne hc]
    · intro x hx
      rcases List.mem_cons.mp hx with rfl | hx
      · exact inside_self
      · exact (hreads x hx).of_add_one (by rw [List.length_cons]; omega)

theorem fillEnv_reads {fuel : ℕ} {r : Memory × BitVec 32 × List (BitVec 32)} (hrun : fillEnv fuel m p q = some r) :
    p ∈ r.2.2 := by
  cases fuel with
  | zero => cases hrun
  | succ fuel =>
    unfold fillEnv at hrun
    split at hrun
    · cases hrun
      exact List.mem_cons_self
    split at hrun
    all_goals
      obtain ⟨r', -, rfl⟩ := Option.map_eq_some_iff.mp hrun
      exact List.mem_cons_self

/-- **The loop that fills the slots**, on spaces that are apart: every field gets its pointer, the spaces
become null characters, and all else stays. `done` is what has been read of the field that `slot` points to.
-/
private theorem fillEnv_apart (happ : Apart rest) : ∀ {fuel : ℕ} {m : Memory} {slot start : BitVec 32} {done : Bytes},
    rest.length < fuel → (0 : UInt8) ∉ rest → space ∉ done → Holds m start (done ++ (rest ++ [0])) →
    HoldsWord m slot start → start.toNat + done.length + rest.length + 1 ≤ slot.toNat →
    slot.toNat + 4 * (rest.count space + 2) ≤ 2 ^ 32 →
    ∃ m' last reads, fillEnv fuel m (start + BitVec.ofNat 32 done.length) (slot + 4) = some (m', last, reads) ∧
      (∀ x ∈ reads, Inside (start + BitVec.ofNat 32 done.length) (rest.length + 1) x) ∧
      (∀ x, ¬Inside (start + BitVec.ofNat 32 done.length) (rest.length + 1) x →
        ¬Inside (slot + 4) (4 * (rest.count space + 1)) x → storeWord m' last 0 x = m x) ∧
      Filled (storeWord m' last 0) slot start ((done ++ rest).splitOn space) := by
  induction happ with
  | nil =>
    intro fuel m slot start done hfuel _ hdone hm hslot hroom htop
    obtain ⟨fuel, rfl⟩ : ∃ k, fuel = k + 1 := ⟨fuel - 1, by omega⟩
    have hend := (holds_append.mp hm).2
    rw [List.nil_append] at hend hm
    rw [List.count_nil] at htop ⊢
    have hslot4 : (slot + 4).toNat = slot.toNat + 4 := toNat_add_ofNat (k := 4) (by omega)
    have hframe : ∀ x, ¬Inside (slot + 4) 4 x → storeWord m (slot + 4) 0 x = m x :=
      fun x hx => storeWord_of_not_inside (by omega) hx
    refine ⟨m, slot + 4, [start + BitVec.ofNat 32 done.length], ?_, ?_, fun x _ hx => hframe x hx, ?_⟩
    · unfold fillEnv
      rw [if_pos hend.1]
    · exact fun x hx => List.mem_singleton.mp hx ▸ inside_self
    · rw [List.append_nil, List.splitOn_eq_singleton hdone]
      rw [List.length_nil, Nat.add_zero] at hroom
      refine ⟨hslot.congr (by omega) fun x hx => hframe x ?_, hm.congr ?_ fun x hx => hframe x ?_, holdsWord_storeWord⟩
      · unfold Inside at hx ⊢
        omega
      · rw [List.length_append, List.length_singleton]
        omega
      · rw [List.length_append, List.length_singleton] at hx
        unfold Inside at hx ⊢
        omega
  | @char c rest hc _ ih =>
    intro fuel m slot start done hfuel hnul hdone hm hslot hroom htop
    obtain ⟨fuel, rfl⟩ : ∃ k, fuel = k + 1 := ⟨fuel - 1, by omega⟩
    have hend := (holds_append.mp hm).2
    rw [List.length_cons] at hfuel hroom ⊢
    rw [List.count_cons_of_ne hc] at htop ⊢
    -- The character goes to the field.
    have hat : start + BitVec.ofNat 32 (done ++ [c]).length = start + BitVec.ofNat 32 done.length + 1 := by
      rw [List.length_append, BitVec.ofNat_add, ← BitVec.add_assoc]
      rfl
    have hlen : (done ++ [c]).length = done.length + 1 := List.length_append
    have hpos : (start + BitVec.ofNat 32 done.length).toNat = start.toNat + done.length :=
      toNat_add_ofNat (by omega)
    have hm' : Holds m start (done ++ [c] ++ (rest ++ [0])) := by
      rwa [List.append_assoc]
    have hdone' : space ∉ done ++ [c] := by
      intro hmem
      rcases List.mem_append.mp hmem with hmem | hmem
      · exact hdone hmem
      · exact hc (List.mem_singleton.mp hmem).symm
    obtain ⟨m', last, reads, hrun, hreads, hframe, hfilled⟩ := ih (Nat.lt_of_succ_lt_succ hfuel)
      (fun hmem => hnul (List.mem_cons_of_mem c hmem)) hdone' hm' hslot (by omega) htop
    rw [hat] at hrun hreads hframe
    refine ⟨m', last, (start + BitVec.ofNat 32 done.length) :: reads, ?_, ?_, ?_, ?_⟩
    · unfold fillEnv
      rw [if_neg (holds_cons_ne hnul hend), hend.1, if_neg hc, hrun]
      rfl
    · intro x hx
      rcases List.mem_cons.mp hx with rfl | hx
      · exact inside_self
      · exact (hreads x hx).of_add_one (by omega)
    · intro x hx hslots
      exact hframe x (fun hin => hx (hin.of_add_one (by omega))) hslots
    · rwa [List.append_assoc] at hfilled
  | @field c rest hc _ ih =>
    intro fuel m slot start done hfuel hnul hdone hm hslot hroom htop
    obtain ⟨fuel, rfl⟩ : ∃ k, fuel = k + 1 := ⟨fuel - 1, by omega⟩
    have hend := (holds_append.mp hm).2
    rw [List.length_cons, List.length_cons] at hfuel hroom ⊢
    rw [List.count_cons_self, List.count_cons_of_ne hc] at htop ⊢
    have hpos : (start + BitVec.ofNat 32 done.length).toNat = start.toNat + done.length :=
      toNat_add_ofNat (by omega)
    have hsucc : start + BitVec.ofNat 32 (done.length + 1) = start + BitVec.ofNat 32 done.length + 1 := by
      rw [BitVec.ofNat_add, ← BitVec.add_assoc]
      rfl
    generalize hpdef : start + BitVec.ofNat 32 done.length = p at *
    have hp1 : (p + 1).toNat = p.toNat + 1 := toNat_add_one (by omega)
    have hp2 : (p + 1 + 1).toNat = p.toNat + 2 := by rw [toNat_add_one (by omega), hp1]
    have hs1 : (slot + 4).toNat = slot.toNat + 4 := toNat_add_ofNat (k := 4) (by omega)
    have hs2 : (slot + 4 + 4).toNat = slot.toNat + 8 := by
      rw [show slot + 4 + 4 = slot + 8 by rw [BitVec.add_assoc]; rfl]
      exact toNat_add_ofNat (k := 8) (by omega)
    -- The space is cut, and the next slot points behind it.
    have hcut : ∀ x, x ≠ p → ¬Inside (slot + 4) 4 x →
        storeWord (Function.update m p 0) (slot + 4) (p + 1) x = m x :=
      fun x hx hs => cut_of_ne (by omega) hx hs
    have hm' : Holds (storeWord (Function.update m p 0) (slot + 4) (p + 1)) (p + 1) ([c] ++ (rest ++ [0])) := by
      have hlen : ([c] ++ (rest ++ [0])).length = rest.length + 2 := by
        rw [List.length_append, List.length_append, List.length_singleton, List.length_singleton]
        omega
      have hbehind : Holds m (p + 1) ([c] ++ (rest ++ [0])) := hend.2
      refine hbehind.congr (by omega) fun x hx => ?_
      rw [hlen] at hx
      refine hcut x ?_ ?_
      · rintro rfl
        have := hx.1
        omega
      · unfold Inside at hx ⊢
        omega
    obtain ⟨m', last, reads, hrun, hreads, hframe, hfilled⟩ := @ih fuel _ (slot + 4) (p + 1) [c]
      (by omega) (fun hmem => hnul (List.mem_cons_of_mem _ (List.mem_cons_of_mem c hmem)))
      (fun hmem => hc (List.mem_singleton.mp hmem).symm) hm' holdsWord_storeWord
      (by rw [List.length_singleton]; omega) (by omega)
    change fillEnv fuel _ (p + 1 + 1) _ = _ at hrun
    change ∀ x ∈ reads, Inside (p + 1 + 1) _ x at hreads
    change ∀ x, ¬Inside (p + 1 + 1) _ x → _ at hframe
    have hrest : ∀ x, ¬Inside p (rest.length + 3) x → ¬Inside (slot + 4) (4 * (rest.count space + 2)) x →
        storeWord m' last 0 x = m x := by
      intro x hx hslots
      unfold Inside at hx hslots
      rw [hframe x (by unfold Inside; omega) (by unfold Inside; omega)]
      refine hcut x (fun heq => ?_) (by unfold Inside; omega)
      rw [heq] at hx
      omega
    refine ⟨m', last, p :: reads, ?_, ?_, hrest, ?_⟩
    · unfold fillEnv
      rw [if_neg (holds_cons_ne hnul hend), if_pos hend.1]
      dsimp only
      rw [hrun]
      rfl
    · intro x hx
      rcases List.mem_cons.mp hx with rfl | hx
      · exact inside_self
      · have hin := hreads x hx
        unfold Inside at hin ⊢
        omega
    · have hfirst : ∀ x, Inside start (done.length + 1) x → x ≠ p → storeWord m' last 0 x = m x := by
        intro x hx hne
        have hne' : x.toNat ≠ p.toNat := fun heq => hne (BitVec.eq_of_toNat_eq heq)
        unfold Inside at hx
        refine hrest x ?_ ?_
        all_goals
          unfold Inside
          omega
      have hnulAt : storeWord m' last 0 p = 0 := by
        rw [hframe p (by unfold Inside; omega) (by unfold Inside; omega), storeWord_of_not_inside (by omega)
          (by unfold Inside; omega), Function.update_self]
      rw [List.splitOn_append_cons_self_of_not_mem hdone]
      refine ⟨hslot.congr (by omega) fun x hx => hrest x ?_ ?_, ?_, ?_⟩
      · unfold Inside at hx ⊢
        omega
      · unfold Inside at hx ⊢
        omega
      · refine holds_append.mpr ⟨((holds_append.mp hm).1).congr (by omega) fun x hx => ?_, ?_⟩
        · unfold Inside at hx
          refine hfirst x (by unfold Inside; omega) fun heq => ?_
          rw [heq] at hx
          omega
        · rw [hpdef]
          exact ⟨hnulAt, trivial⟩
      · rw [hsucc]
        exact hfilled

/-- **The loop that fills the slots**, on any string: if it stays in the string, it fills at most a slot for
each space, and as many only if the spaces are apart. -/
theorem fillEnv_ends {fuel : ℕ} {last : BitVec 32} {reads : List (BitVec 32)}
    (hrun : fillEnv fuel m p q = some (m', last, reads)) (hnul : (0 : UInt8) ∉ rest) (hm : Holds m p (rest ++ [0]))
    (hroom : p.toNat + rest.length + 1 ≤ q.toNat) (htop : q.toNat + 4 * rest.count space < 2 ^ 32)
    (hreads : ∀ x ∈ reads, x.toNat ≤ p.toNat + rest.length) :
    ∃ k ≤ rest.count space, last = q + BitVec.ofNat 32 (4 * k) ∧ (k = rest.count space → SpacesApart rest) := by
  induction fuel generalizing m p q rest reads with
  | zero => cases hrun
  | succ fuel ih =>
    unfold fillEnv at hrun
    cases rest with
    | nil =>
      rw [if_pos hm.1] at hrun
      cases hrun
      exact ⟨0, Nat.zero_le _, (BitVec.add_zero _).symm, fun _ => Apart.nil.spacesApart⟩
    | cons c rest =>
      rw [if_neg (holds_cons_ne hnul hm), hm.1] at hrun
      rw [List.length_cons] at hroom hreads
      have hnul' : (0 : UInt8) ∉ rest := fun hmem => hnul (List.mem_cons_of_mem c hmem)
      have hp1 : (p + 1).toNat = p.toNat + 1 := toNat_add_one (by omega)
      by_cases hc : c = space
      · subst hc
        rw [if_pos rfl] at hrun
        obtain ⟨⟨m'', last', reads'⟩, hrun', heq⟩ := Option.map_eq_some_iff.mp hrun
        cases heq
        rw [List.count_cons_self] at htop ⊢
        cases rest with
        | nil =>
          -- The loop goes on behind the end of the string.
          rw [List.length_nil] at hroom hreads
          have hp2 : (p + 1 + 1).toNat = p.toNat + 2 := by rw [toNat_add_one (by omega), hp1]
          have hpast := hreads _ (List.mem_cons_of_mem p (fillEnv_reads hrun'))
          omega
        | cons d rest =>
          rw [List.length_cons] at hroom hreads
          have hp2 : (p + 1 + 1).toNat = p.toNat + 2 := by rw [toNat_add_one (by omega), hp1]
          have hq4 : (q + 4).toNat = q.toNat + 4 := toNat_add_ofNat (k := 4) (by omega)
          have hcount : rest.count space ≤ (d :: rest).count space := List.Sublist.count_le _ (List.sublist_cons_self ..)
          have hm' : Holds (storeWord (Function.update m p 0) q (p + 1)) (p + 1 + 1) (rest ++ [0]) := by
            have hlen : (rest ++ [0]).length = rest.length + 1 := List.length_append
            have hbehind : Holds m (p + 1 + 1) (rest ++ [0]) := hm.2.2
            refine hbehind.congr (by omega) fun x hx => ?_
            rw [hlen] at hx
            unfold Inside at hx
            refine cut_of_ne (by omega) (fun heq => ?_) (by unfold Inside; omega)
            rw [heq] at hx
            omega
          obtain ⟨k, hk, hlast, hapart⟩ := ih hrun' (fun hmem => hnul' (List.mem_cons_of_mem d hmem)) hm' (by omega)
            (by omega) fun x hx => by have := hreads x (List.mem_cons_of_mem p hx); omega
          refine ⟨k + 1, by omega, ?_, fun hall => ?_⟩
          · rw [hlast, Nat.mul_add_one, Nat.add_comm, BitVec.ofNat_add, ← BitVec.add_assoc]
            rfl
          · by_cases hd : d = space
            · rw [hd, List.count_cons_self] at hall
              omega
            · rw [List.count_cons_of_ne hd] at hall
              exact (Apart.field hd (hapart (Nat.succ.inj hall)).apart).spacesApart
      · rw [if_neg hc] at hrun
        obtain ⟨⟨m'', last', reads'⟩, hrun', heq⟩ := Option.map_eq_some_iff.mp hrun
        cases heq
        rw [List.count_cons_of_ne hc] at htop ⊢
        obtain ⟨k, hk, hlast, hapart⟩ := ih hrun' hnul' hm.2 (by omega) htop fun x hx => by
          have := hreads x (List.mem_cons_of_mem p hx)
          omega
        exact ⟨k, hk, hlast, fun hall => (hapart hall).cons hc⟩

/-! ### The fields -/

theorem length_splitOn_space (str : Bytes) : (str.splitOn space).length = str.count space + 1 := by
  induction str with
  | nil => rfl
  | cons c str ih =>
    rw [List.splitOn_cons_eq_if_modifyHead, List.count_cons]
    split
    · rw [List.length_cons, ih]
    · rw [List.length_modifyHead, ih, Nat.add_zero]

theorem sum_splitOn_space (str : Bytes) :
    ((str.splitOn space).map fun f => f.length + 1).sum = str.length + 1 := by
  induction str with
  | nil => rfl
  | cons c str ih =>
    rw [List.splitOn_cons_eq_if_modifyHead]
    split
    · rw [List.map_cons, List.sum_cons, ih, List.length_nil, List.length_cons]
      omega
    · obtain ⟨f, fs, hfs⟩ := List.exists_cons_of_ne_nil (List.splitOn_ne_nil space str)
      rw [hfs, List.map_cons, List.sum_cons] at ih
      rw [hfs, List.modifyHead_cons, List.map_cons, List.sum_cons, List.length_cons, List.length_cons]
      omega

theorem Filled.exists_pointer {fs : List Bytes} {field : BitVec 32} {i : ℕ} (hfilled : Filled m slot field fs)
    (hi : i < fs.length) (hle : field.toNat + (fs.map fun f => f.length + 1).sum < 2 ^ 32) :
    ∃ ptr, HoldsWord m (slot + BitVec.ofNat 32 (4 * i)) ptr ∧ field.toNat + i ≤ ptr.toNat := by
  induction i generalizing fs slot field with
  | zero =>
    cases fs with
    | nil => exact absurd hi (Nat.lt_irrefl 0)
    | cons f fs =>
      refine ⟨field, ?_, le_rfl⟩
      rw [Nat.mul_zero, BitVec.add_zero]
      exact hfilled.1
  | succ i ih =>
    cases fs with
    | nil => exact absurd hi (Nat.not_lt_zero _)
    | cons f fs =>
      rw [List.map_cons, List.sum_cons] at hle
      have hnext : (field + BitVec.ofNat 32 (f.length + 1)).toNat = field.toNat + (f.length + 1) :=
        toNat_add_ofNat (by omega)
      obtain ⟨ptr, hptr, hlow⟩ := ih hfilled.2.2 (Nat.lt_of_succ_lt_succ hi) (by omega)
      refine ⟨ptr, ?_, by omega⟩
      rw [Nat.mul_add_one, Nat.add_comm, BitVec.ofNat_add, ← BitVec.add_assoc]
      exact hptr

/-! ### The string -/

theorem readLdEnv_stored (vars : SysVars) (call : EnvCall) (name : Bytes) :
    ∃ v, (readLdEnv vars call name).2 = v ++ [0] ∧ v.length + 1 < 2 ^ 32 := by
  unfold readLdEnv
  cases processName name with
  | none => exact ⟨[], rfl, by decide⟩
  | some leaf =>
    dsimp only
    cases call.malloc with
    | false => exact ⟨[], rfl, by decide⟩
    | true =>
      rw [if_pos rfl]
      generalize (if osReadVarValSize vars (leaf ++ chars "$" ++ global_env_name) = 1 then global_env_name
        else leaf ++ chars "$" ++ global_env_name) = used
      cases hv : vars.value used with
      | none => exact ⟨[], rfl, by decide⟩
      | some v =>
        dsimp only
        split
        · exact ⟨[], rfl, by decide⟩
        · exact ⟨v, rfl, vars.fits used v hv⟩

theorem exists_eq_takeWhile_append (v : Bytes) :
    ∃ rest, v ++ [0] = (v ++ [0]).takeWhile (· ≠ 0) ++ [0] ++ rest := by
  induction v with
  | nil => exact ⟨[], rfl⟩
  | cons c v ih =>
    by_cases hc : c = 0
    · subst hc
      exact ⟨v ++ [0], rfl⟩
    · obtain ⟨rest, hrest⟩ := ih
      refine ⟨rest, ?_⟩
      rw [List.cons_append, List.takeWhile_cons_of_pos (p := fun x => decide (x ≠ 0)) (decide_eq_true hc)]
      exact congrArg (c :: ·) hrest

section Call

variable (vars : SysVars) (first second : EnvCall) (s : RuncomState) (memory : Memory)

def envMemory : Memory := storeBytes memory s.free_memory (readLdEnv vars second s.elf_prog_name).2

theorem holds_envMemory : Holds (envMemory vars second s memory) s.free_memory
    (envString vars second s.elf_prog_name ++ [0]) := by
  obtain ⟨v, hstored, hlt⟩ := readLdEnv_stored vars second s.elf_prog_name
  obtain ⟨rest, hrest⟩ := exists_eq_takeWhile_append v
  have hle : (v ++ [0]).length ≤ 2 ^ 32 := by
    rw [List.length_append]
    exact hlt.le
  have hall : Holds (storeBytes memory s.free_memory (v ++ [0])) s.free_memory (v ++ [0]) := holds_storeBytes hle
  unfold envMemory envString
  rw [hstored]
  have hprefix : Holds (storeBytes memory s.free_memory (v ++ [0])) s.free_memory
      ((v ++ [0]).takeWhile (· ≠ 0) ++ [0] ++ rest) := by
    rw [← hrest]
    exact hall
  exact (holds_append.mp hprefix).1

theorem setupEnvArray_eq (hroom : setupEnvArray vars first second s memory ≠ .tooSmall) :
    setupEnvArray vars first second s memory =
      match countSlots (envMemory vars second s memory) s.free_memory with
      | none => .endless
      | some (count, reads) =>
        match fillSlots (envMemory vars second s memory) s.free_memory (s.ram_limit - count <<< 2) with
        | none => .endless
        | some (m, last, reads') =>
          .done ⟨s.elf_prog_name, wordAlign (s.free_memory + (readLdEnv vars first s.elf_prog_name).1),
            s.ram_limit - count <<< 2⟩ (storeWord m last 0) (reads ++ reads') := by
  unfold setupEnvArray at hroom ⊢
  dsimp only at hroom ⊢
  split at hroom
  · exact absurd rfl hroom
  rename_i hsize
  rw [if_neg hsize]
  change (match countSlots (envMemory vars second s memory) s.free_memory with | none => _ | some (_, _) => _) = _
  change (match countSlots (envMemory vars second s memory) s.free_memory with | none => _ | some (_, _) => _) ≠ _
    at hroom
  cases hcount : countSlots (envMemory vars second s memory) s.free_memory with
  | none => rfl
  | some r =>
    rw [hcount] at hroom
    dsimp only at hroom ⊢
    split at hroom
    · exact absurd rfl hroom
    rename_i hslots
    rw [if_neg hslots]
    rfl

theorem countSlots_eq {m : Memory} {str : Bytes} {p : BitVec 32} (hm : Holds m p (str ++ [0]))
    (hnul : (0 : UInt8) ∉ str) (hle : p.toNat + (str.length + 1) ≤ 2 ^ 32) :
    ∃ reads, countSlots m p = some (BitVec.ofNat 32 ((fieldsOf str).length + 1), reads) ∧
      ∀ x ∈ reads, Inside p (str.length + 1) x := by
  unfold countSlots fieldsOf
  cases str with
  | nil => exact ⟨[p], if_pos hm.1, fun x hx => List.mem_singleton.mp hx ▸ inside_self⟩
  | cons c str =>
    obtain ⟨reads, hrun, hreads⟩ := @countSpaces_eq (c :: str) m p (2 ^ 32) 2 (by omega) hnul hm hle
    refine ⟨reads, ?_, hreads⟩
    rw [if_neg (holds_cons_ne hnul hm), if_neg (List.cons_ne_nil c str), hrun, length_splitOn_space]
    rw [Nat.add_assoc, Nat.add_comm, BitVec.ofNat_add]
    rfl

theorem zero_notMem_envString : (0 : UInt8) ∉ envString vars second s.elf_prog_name := by
  intro hmem
  have hne := List.mem_takeWhile_imp (p := fun x : UInt8 => decide (x ≠ 0)) hmem
  exact absurd rfl (of_decide_eq_true hne)

theorem toNat_sub_slots {limit : BitVec 32} {slots : ℕ} (hle : 4 * slots ≤ limit.toNat) :
    (limit - BitVec.ofNat 32 slots <<< 2).toNat + 4 * slots = limit.toNat := by
  have hlt := limit.isLt
  have hsize : (BitVec.ofNat 32 slots <<< 2).toNat = 4 * slots := by
    rw [BitVec.toNat_shiftLeft, BitVec.toNat_ofNat, Nat.shiftLeft_eq]
    omega
  rw [BitVec.toNat_sub_of_le (BitVec.le_def.mpr (hsize.trans_le hle)), hsize]
  omega

theorem fillSlots_of_apart (happ : SpacesApart str) (hnul : (0 : UInt8) ∉ str) {env_array : BitVec 32}
    (hm : Holds m p (str ++ [0])) (hroom : p.toNat + str.length + 1 ≤ env_array.toNat)
    (htop : env_array.toNat + 4 * ((fieldsOf str).length + 1) < 2 ^ 32) :
    ∃ m' last reads, fillSlots m p env_array = some (m', last, reads) ∧
      (∀ x ∈ reads, Inside p (str.length + 1) x) ∧ Filled (storeWord m' last 0) env_array p (fieldsOf str) := by
  unfold fillSlots
  by_cases hstr : str = []
  · subst hstr
    refine ⟨m, env_array, [p], if_pos hm.1, fun x hx => List.mem_singleton.mp hx ▸ inside_self, holdsWord_storeWord⟩
  · have hfields : fieldsOf str = str.splitOn space := if_neg hstr
    rw [hfields, length_splitOn_space] at htop
    have hne : m p ≠ 0 := by
      obtain ⟨c, rest, rfl⟩ := List.exists_cons_of_ne_nil hstr
      exact holds_cons_ne hnul hm
    have hm' : Holds (storeWord m env_array p) p (str ++ [0]) := by
      have hlen : (str ++ [0]).length = str.length + 1 := List.length_append
      refine hm.congr (by omega) fun x hx => storeWord_of_not_inside (by omega) ?_
      rw [hlen] at hx
      unfold Inside at hx ⊢
      omega
    obtain ⟨m', last, reads, hrun, hreads, -, hfilled⟩ := @fillEnv_apart str happ.apart (2 ^ 32) _ env_array p []
      (by omega) hnul List.not_mem_nil hm' holdsWord_storeWord (by rw [List.length_nil]; omega) (by omega)
    rw [List.length_nil, BitVec.add_zero] at hrun hreads
    rw [if_neg hne, hfields]
    exact ⟨m', last, reads, hrun, hreads, hfilled⟩

theorem spacesApart_of_fillSlots (hnul : (0 : UInt8) ∉ str) {env_array last : BitVec 32}
    {reads : List (BitVec 32)} (hm : Holds m p (str ++ [0])) (hroom : p.toNat + str.length + 1 ≤ env_array.toNat)
    (htop : env_array.toNat + 4 * ((fieldsOf str).length + 1) < 2 ^ 32)
    (hrun : fillSlots m p env_array = some (m', last, reads)) (hreads : ∀ x ∈ reads, Inside p (str.length + 1) x)
    (hfilled : Filled (storeWord m' last 0) env_array p (fieldsOf str)) : SpacesApart str := by
  by_cases hstr : str = []
  · subst hstr
    exact Apart.nil.spacesApart
  have hfields : fieldsOf str = str.splitOn space := if_neg hstr
  rw [hfields, length_splitOn_space] at htop
  have hne : m p ≠ 0 := by
    obtain ⟨c, rest, rfl⟩ := List.exists_cons_of_ne_nil hstr
    exact holds_cons_ne hnul hm
  have hm' : Holds (storeWord m env_array p) p (str ++ [0]) := by
    have hlen : (str ++ [0]).length = str.length + 1 := List.length_append
    refine hm.congr (by omega) fun x hx => storeWord_of_not_inside (by omega) ?_
    rw [hlen] at hx
    unfold Inside at hx ⊢
    omega
  unfold fillSlots at hrun
  rw [if_neg hne] at hrun
  have hnext : (env_array + 4).toNat = env_array.toNat + 4 := toNat_add_ofNat (k := 4) (by omega)
  obtain ⟨k, hk, hlast, hapart⟩ := fillEnv_ends hrun hnul hm' (by omega) (by omega) fun x hx => by
    have := (hreads x hx).2
    omega
  rcases Nat.eq_or_lt_of_le hk with hall | hfew
  · exact hapart hall
  -- The null pointer is in the slot of a field.
  have hslot : last = env_array + BitVec.ofNat 32 (4 * (k + 1)) := by
    rw [hlast, Nat.mul_add_one, Nat.add_comm, BitVec.ofNat_add, ← BitVec.add_assoc]
    rfl
  obtain ⟨ptr, hptr, hlow⟩ := hfilled.exists_pointer (i := k + 1)
    (by rw [hfields, length_splitOn_space]; omega) (by rw [hfields, sum_splitOn_space]; omega)
  rw [← hslot] at hptr
  rw [hptr.unique holdsWord_storeWord] at hlow
  exact absurd hlow (Nat.not_le.mpr (Nat.succ_pos _))

end Call

theorem apart_of_right {vars : SysVars} {first second : EnvCall} {s : RuncomState} {memory : Memory}
    (hroom : setupEnvArray vars first second s memory ≠ .tooSmall)
    (hright : (setupEnvArray vars first second s memory).Right (envString vars second s.elf_prog_name) s) :
    SpacesApart (envString vars second s.elf_prog_name) ∧ EnvFits (envString vars second s.elf_prog_name) s := by
  have hm := holds_envMemory vars second s memory
  have hnul := zero_notMem_envString vars second s
  have hlimit := s.ram_limit.isLt
  rw [setupEnvArray_eq vars first second s memory hroom] at hright
  generalize envString vars second s.elf_prog_name = str at *
  cases hcount : countSlots (envMemory vars second s memory) s.free_memory with
  | none =>
    rw [hcount] at hright
    exact hright.elim
  | some r =>
    obtain ⟨count, reads⟩ := r
    rw [hcount] at hright
    cases hfill : fillSlots (envMemory vars second s memory) s.free_memory (s.ram_limit - count <<< 2) with
    | none =>
      simp only [hfill] at hright
      exact hright.elim
    | some r =>
      obtain ⟨m, last, reads'⟩ := r
      simp only [hfill] at hright
      obtain ⟨hreads, hbelow, hreserved, hfilled⟩ := hright
      dsimp only at hbelow hreserved hfilled
      refine ⟨spacesApart_of_fillSlots hnul hm hbelow (by omega) hfill
        (fun x hx => hreads x (List.mem_append_right _ hx)) hfilled, ?_⟩
      unfold EnvFits
      omega

theorem right_of_apart {vars : SysVars} {first second : EnvCall} {s : RuncomState} {memory : Memory}
    (hroom : setupEnvArray vars first second s memory ≠ .tooSmall)
    (happ : SpacesApart (envString vars second s.elf_prog_name))
    (hfits : EnvFits (envString vars second s.elf_prog_name) s) :
    (setupEnvArray vars first second s memory).Right (envString vars second s.elf_prog_name) s := by
  have hm := holds_envMemory vars second s memory
  have hnul := zero_notMem_envString vars second s
  have hlimit := s.ram_limit.isLt
  rw [setupEnvArray_eq vars first second s memory hroom]
  generalize envString vars second s.elf_prog_name = str at *
  unfold EnvFits at hfits
  obtain ⟨reads, hcount, hreads⟩ := countSlots_eq hm hnul (by omega)
  have hreserved : (s.ram_limit - BitVec.ofNat 32 ((fieldsOf str).length + 1) <<< 2).toNat +
      4 * ((fieldsOf str).length + 1) = s.ram_limit.toNat := toNat_sub_slots (by omega)
  have hbelow : s.free_memory.toNat + str.length + 1 ≤
      (s.ram_limit - BitVec.ofNat 32 ((fieldsOf str).length + 1) <<< 2).toNat := by omega
  obtain ⟨m, last, reads', hfill, hreads', hfilled⟩ := fillSlots_of_apart happ hnul hm hbelow (by omega)
  simp only [hcount, hfill]
  refine ⟨fun x hx => ?_, hbelow, hreserved, hfilled⟩
  rcases List.mem_append.mp hx with hx | hx
  · exact hreads x hx
  · exact hreads' x hx

/-- **The environment array is right**, where the slot is not found too small, just if in the string no space
is followed by another or by nothing, and the string and the slots have room. -/
theorem setupEnvArray_right_iff (vars : SysVars) (first second : EnvCall) (s : RuncomState) (memory : Memory)
    (hroom : setupEnvArray vars first second s memory ≠ .tooSmall) :
    (setupEnvArray vars first second s memory).Right (envString vars second s.elf_prog_name) s ↔
      SpacesApart (envString vars second s.elf_prog_name) ∧ EnvFits (envString vars second s.elf_prog_name) s :=
  ⟨apart_of_right hroom, fun hwhen => right_of_apart hroom hwhen.1 hwhen.2⟩

/-! ### Variables with spaces -/

def globalEnv (value : Bytes) (hfits : value.length + 1 < 2 ^ 32) : SysVars where
  value name := if name = global_env_name then some value else none
  fits name v hv := by
    split at hv
    · exact Option.some.inj hv ▸ hfits
    · cases hv

def oneProgram : RuncomState := ⟨chars "ADFS::4.$.prog", 0x9000, 0xA000⟩

abbrev setupGlobalEnv (value : Bytes) (hfits : value.length + 1 < 2 ^ 32) : EnvResult :=
  setupEnvArray (globalEnv value hfits) ⟨true, true⟩ ⟨true, true⟩ oneProgram fun _ => 0

def EnvResult.isTooSmall : EnvResult → Bool
  | .tooSmall => true
  | _ => false

theorem EnvResult.ne_tooSmall {result : EnvResult} (h : result.isTooSmall = false) : result ≠ .tooSmall := by
  rintro rfl
  cases h

theorem setupEnvArray_right_iff_two :
    (setupGlobalEnv (chars "A=1 B=2") (by decide)).Right (chars "A=1 B=2") oneProgram ↔
      SpacesApart (chars "A=1 B=2") ∧ EnvFits (chars "A=1 B=2") oneProgram :=
  setupEnvArray_right_iff (globalEnv (chars "A=1 B=2") (by decide)) ⟨true, true⟩ ⟨true, true⟩ oneProgram (fun _ => 0)
    (EnvResult.ne_tooSmall (by decide))

theorem apart_of_global {value : Bytes} {hfits : value.length + 1 < 2 ^ 32}
    (hstr : envString (globalEnv value hfits) ⟨true, true⟩ oneProgram.elf_prog_name = value)
    (hroom : setupGlobalEnv value hfits ≠ .tooSmall) (hright : (setupGlobalEnv value hfits).Right value oneProgram) :
    SpacesApart value := by
  have happ := apart_of_right hroom
  rw [hstr] at happ
  exact (happ hright).1

/-- The value `A  B`, with two spaces, leaves the last slot but one unset, and for `A ` the loop reads on past the
end. -/
theorem setupEnvArray_not_right :
    (setupGlobalEnv (chars "A  B") (by decide) ≠ .tooSmall ∧
        ¬(setupGlobalEnv (chars "A  B") (by decide)).Right (chars "A  B") oneProgram) ∧
      setupGlobalEnv (chars "A ") (by decide) ≠ .tooSmall ∧
        ¬(setupGlobalEnv (chars "A ") (by decide)).Right (chars "A ") oneProgram := by
  have htwo : setupGlobalEnv (chars "A  B") (by decide) ≠ .tooSmall := EnvResult.ne_tooSmall (by decide)
  have hend : setupGlobalEnv (chars "A ") (by decide) ≠ .tooSmall := EnvResult.ne_tooSmall (by decide)
  refine ⟨⟨htwo, fun hright => ?_⟩, hend, fun hright => ?_⟩
  · exact (apart_of_global (by decide) htwo hright).2 ⟨chars "A", chars "B", by decide⟩
  · exact (apart_of_global (by decide) hend hright).1 (by decide)

end SOManager
