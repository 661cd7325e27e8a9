import Gccsdk.GdbServer.Session
import Gccsdk.Lib.WrapBuffer
import Mathlib.Data.Int.Notation
import Mathlib.Algebra.Group.Int.Defs

/-!
# The debugger's protocol

`gdb.c`: packets are read byte by byte, and their requests executed with the callbacks of the session. The
context has a buffer of 256 bytes, with a length and a checksum of 8 bits.

The callbacks and the memory are those of any backend (`GdbCallbacks`); a session gives its own
(`sessionCallbacks`). A request sends at most one packet, as the last thing it does. Bytes are bit vectors, also
where the code has an `int` with the value of a hexadecimal digit.
-/

namespace GdbServer

abbrev Byte := BitVec 8

abbrev chr (c : Char) : Byte := BitVec.ofNat 8 c.toNat

def text (s : String) : List Byte := s.toList.map chr

inductive GdbState
  | waitingForPacket
  | readPacketData
  | readChecksum1
  | readChecksum2
  deriving DecidableEq, Repr

/-- `gdb_ctx`, without the callbacks. -/
structure GdbCtx where
  state : GdbState
  data_buf : Byte → Byte
  data_len : Byte
  checksum : Byte
  refcksum : Byte
  got_killed : Bool

def newCtx : GdbCtx := ⟨.waitingForPacket, fun _ => 0, 0, 0, 0, false⟩

structure GdbCallbacks (σ : Type) where
  brk : σ → σ
  cont : σ → σ
  get_regs : σ → CpuRegisters
  /-- Writing through the pointer that `get_regs_fnc` gave. -/
  put_regs : σ → CpuRegisters → σ
  set_bkpt : σ → BitVec 32 → σ × Bool
  clear_bkpt : σ → BitVec 32 → σ × Bool
  step : σ → σ
  peek : σ → BitVec 32 → Byte
  poke : σ → BitVec 32 → Byte → σ
  /-- `cpuconfig ()`. -/
  config : ℕ
  behind : ℕ → Byte

/-! ### Hexadecimal numbers -/

/-- `hexDigits[n]` -/
def hexDigit (n : Byte) : Byte := (text "0123456789abcdef").getD n.toNat 0

def hexToInt (c : Byte) : Byte :=
  if chr '0' ≤ c ∧ c ≤ chr '9' then c - chr '0'
  else if chr 'A' ≤ c &&& ~~~0x20 ∧ c &&& ~~~0x20 ≤ chr 'F' then 10 + (c &&& ~~~0x20) - chr 'A'
  else 0

def hexOfByte (b : Byte) : List Byte := [hexDigit (b >>> 4), hexDigit (b &&& 0xf)]

def hexOfWord (val : BitVec 32) : List Byte :=
  (List.range 4).flatMap fun j => hexOfByte ((val >>> (8 * j)).setWidth 8)

def isSpace (c : Byte) : Bool := c = chr ' ' ∨ (9 ≤ c ∧ c ≤ 13)

def isXDigit (c : Byte) : Bool :=
  (chr '0' ≤ c ∧ c ≤ chr '9') ∨ (chr 'A' ≤ c &&& ~~~0x20 ∧ c &&& ~~~0x20 ≤ chr 'F')

/-- The number in base 16 at the start of a string: whether it is negative, its magnitude, and its length. -/
def scanNumber (s : List Byte) : Bool × ℕ × ℕ :=
  let spaces := s.takeWhile isSpace
  let s := s.drop spaces.length
  let sign := if s.head? = some (chr '-') ∨ s.head? = some (chr '+') then 1 else 0
  let neg : Bool := s.head? = some (chr '-')
  let s := s.drop sign
  let pre :=
    match s with
    | z :: x :: d :: _ => if z = chr '0' ∧ (x = chr 'x' ∨ x = chr 'X') ∧ isXDigit d then 2 else 0
    | _ => 0
  let digits := (s.drop pre).takeWhile isXDigit
  if digits = [] then (false, 0, 0)
  else (neg, digits.foldl (fun n d => 16 * n + (hexToInt d).toNat) 0,
    spaces.length + sign + pre + digits.length)

/-- `strtoul` in base 16: the value, and how far the number goes. -/
def strtoul (s : List Byte) : BitVec 32 × ℕ :=
  let (neg, n, len) := scanNumber s
  (if 2 ^ 32 ≤ n then 0xffffffff else if neg then -BitVec.ofNat 32 n else BitVec.ofNat 32 n, len)

/-- `strtol` in base 16. -/
def strtol (s : List Byte) : ℤ :=
  let (neg, n, _) := scanNumber s
  if neg then if 2 ^ 31 < n then -2 ^ 31 else -n
  else if 2 ^ 31 ≤ n then 2 ^ 31 - 1 else n

/-! ### The buffer -/

abbrev GdbCtx.buffer (ctx : GdbCtx) : WrapBuffer.Buffer 8 Byte := ⟨ctx.data_buf, ctx.data_len⟩

/-- What `process_packet` takes for the payload. -/
abbrev GdbCtx.payload (ctx : GdbCtx) : List Byte := ctx.buffer.contents

/-- The buffer from a position on. A string that is not terminated ends with it. -/
def GdbCtx.from (ctx : GdbCtx) (p : ℕ) : List Byte :=
  (List.range (256 - p)).map fun i => ctx.data_buf (BitVec.ofNat 8 (p + i))

def GdbCtx.stringAt (ctx : GdbCtx) (p : ℕ) : List Byte := (ctx.from p).takeWhile (· ≠ 0)

section Requests
variable {σ : Type} (io : GdbCallbacks σ) (ctx : GdbCtx)

/-- `ctx->data_buf[p]` -/
def byteAt (p : ℕ) : Byte := if p < 256 then ctx.data_buf (BitVec.ofNat 8 p) else io.behind p

def hexByteAt (p : ℕ) : Byte := hexToInt (byteAt io ctx p) <<< 4 ||| hexToInt (byteAt io ctx (p + 1))

/-! ### The requests -/

/-- `case 'g'`. -/
def readRegisters (regs : CpuRegisters) : List Byte :=
  (List.finRange 42).flatMap fun i =>
    hexOfWord (if io.config = 26 ∧ (i = 14 ∨ i = 15) then regs i &&& ~~~0xfc000003 else regs i)

/-- The word of a register in `case 'G'`. -/
def wordAt (p : ℕ) : BitVec 32 :=
  (List.range 4).foldl (fun word j => word ||| (hexByteAt io ctx (p + 2 * j)).setWidth 32 <<< (8 * j)) 0

/-- `case 'G'`: the loop ends with the first register that is behind the length. -/
def writeRegisters (regs : CpuRegisters) : CpuRegisters := fun i =>
  if 1 + 8 * i.val ≤ ctx.data_len.toNat then wordAt io ctx (1 + 8 * i.val) else regs i

/-- `case 'H'`. -/
def setThread : List Byte :=
  let type := ctx.data_buf 1
  let thread := strtol (ctx.from 2)
  if (thread = -1 ∨ thread = 0) ∧ (type = chr 'c' ∨ type = chr 'g') then text "OK" else text "E00"

/-- `case 'm'`; `none` is a request that is not supported. -/
def readMemory (pw : σ) : Option (List Byte) :=
  let (addr, len) := strtoul (ctx.from 1)
  let comma := 1 + len
  if byteAt io ctx comma ≠ chr ',' then none
  else
    let length := (strtoul (ctx.from (comma + 1))).1
    if 256 < length then none
    else some ((List.range length.toNat).flatMap fun i => hexOfByte (io.peek pw (addr + BitVec.ofNat 32 i)))

/-- The loop of `case 'M'`. -/
def pokeBytes : ℕ → ℕ → BitVec 32 → σ → σ
  | 0, _, _, pw => pw
  | length + 1, p, addr, pw =>
    if (p : ℤ) ≤ ctx.data_len.toNat - 2 then
      pokeBytes length (p + 2) (addr + 1) (io.poke pw addr (hexByteAt io ctx p))
    else pw

/-- `case 'M'`. -/
def writeMemory (pw : σ) : σ :=
  let (addr, len) := strtoul (ctx.from 1)
  let comma := 1 + len
  let (length, len) := strtoul (ctx.from (comma + 1))
  let comma := comma + 1 + len
  pokeBytes io ctx length.toNat (comma + 1) addr pw

/-- `case 'q'`; `none` is a query that is not supported. -/
def query : Option (List Byte) :=
  let len := 1 + (ctx.payload.tail.takeWhile (· ≠ chr ':')).length
  if len = 2 then if ctx.data_buf 1 = chr 'C' then some (text "QC1") else none
  else if len = 8 then
    if ctx.stringAt 1 = text "Offsets" then some (text "Text=0;Data=0;Bss=0")
    else if ctx.stringAt 1 = text "TStatus" then some (text "T0;tnotrun:0")
    else none
  else if len = 9 then
    if ctx.stringAt 1 = text "Symbol::" then some (text "OK")
    else if ctx.stringAt 1 = text "Attached" then some (text "0")
    else none
  else none

/-- `case 'z'` and `case 'Z'`. -/
def breakpoint (pw : σ) : σ × List Byte :=
  let type := ctx.data_buf 1
  let (addr, len) := strtoul (ctx.from 3)
  let kind := (strtoul (ctx.from (3 + len + 1))).1
  if type ≠ chr '0' ∨ kind ≠ 4 then (pw, [])
  else
    let (pw, success) := if ctx.data_buf 0 = chr 'z' then io.clear_bkpt pw addr else io.set_bkpt pw addr
    (pw, if success then text "OK" else text "E00")

/-- What a request did, and the packet that it sends. -/
structure Served (σ : Type) where
  pw : σ
  got_killed : Bool
  reply : Option (List Byte)

/-- `process_packet`. A request that is not supported is answered with an empty packet. -/
def processPacket (pw : σ) : Served σ :=
  let killed := ctx.got_killed
  if ctx.data_len = 0 then ⟨pw, killed, none⟩
  else
    let c := ctx.data_buf 0
    if c = chr '?' then ⟨pw, killed, some (text "S05")⟩
    else if c = chr 'c' then ⟨io.cont pw, killed, none⟩
    else if c = chr 'g' then ⟨pw, killed, some (readRegisters io (io.get_regs pw))⟩
    else if c = chr 'G' then
      ⟨io.put_regs pw (writeRegisters io ctx (io.get_regs pw)), killed, some (text "OK")⟩
    else if c = chr 'H' then ⟨pw, killed, some (setThread ctx)⟩
    else if c = chr 'k' then ⟨pw, true, none⟩
    else if c = chr 'm' then ⟨pw, killed, some ((readMemory io ctx pw).getD [])⟩
    else if c = chr 'M' then ⟨writeMemory io ctx pw, killed, some (text "OK")⟩
    else if c = chr 'q' then ⟨pw, killed, some ((query ctx).getD [])⟩
    else if c = chr 's' then ⟨io.step pw, killed, none⟩
    else if c = chr 'z' ∨ c = chr 'Z' then
      let (pw, reply) := breakpoint io ctx pw
      ⟨pw, killed, some reply⟩
    else ⟨pw, killed, some []⟩

end Requests

/-- `send_packet`: what it sends. -/
def sendPacket (buf : List Byte) : List Byte :=
  let cksum := buf.foldl (· + ·) 0
  chr '$' :: buf ++ [chr '#', hexDigit (cksum >>> 4), hexDigit (cksum &&& 0xf)]

/-! ### The input -/

inductive GdbAction
  | interrupt
  | refuse
  | execute (payload : List Byte)
  deriving DecidableEq

/-- A context and its session, with what was sent to the debugger and what was done, in order. -/
structure Gdb (σ : Type) where
  ctx : GdbCtx
  pw : σ
  sent : List Byte
  actions : List GdbAction

section Input
variable {σ : Type} (io : GdbCallbacks σ)

def Gdb.execute (g : Gdb σ) : Gdb σ :=
  let served := processPacket io g.ctx g.pw
  { ctx := { g.ctx with got_killed := served.got_killed }
    pw := served.pw
    sent := g.sent ++ text "+" ++ (served.reply.map sendPacket).getD []
    actions := g.actions ++ [.execute g.ctx.payload] }

def Gdb.refuse (g : Gdb σ) : Gdb σ :=
  { g with sent := g.sent ++ text "-", actions := g.actions ++ [.refuse] }

/-- One turn of the loop of `gdb_process_input`. -/
def gdbProcessByte (g : Gdb σ) (c : Byte) : Gdb σ :=
  let ctx := g.ctx
  match ctx.state with
  | .waitingForPacket =>
    if c = 3 then { g with pw := io.brk g.pw, actions := g.actions ++ [.interrupt] }
    else if c = chr '$' then
      { g with ctx := { ctx with checksum := 0, data_len := 0, state := .readPacketData } }
    else g
  | .readPacketData =>
    if c = chr '#' then { g with ctx := { ctx with state := .readChecksum1 } }
    else
      { g with ctx := { ctx with
          checksum := ctx.checksum + c
          data_buf := Function.update ctx.data_buf ctx.data_len c
          data_len := ctx.data_len + 1 } }
  | .readChecksum1 =>
    { g with ctx := { ctx with refcksum := hexToInt c <<< 4, state := .readChecksum2 } }
  | .readChecksum2 =>
    -- the payload gets a NUL behind it
    let ctx := { ctx with
      refcksum := ctx.refcksum + hexToInt c
      data_buf := Function.update ctx.data_buf ctx.data_len 0 }
    let g := { g with ctx }
    let g := if ctx.checksum ≠ ctx.refcksum then g.refuse else g.execute io
    { g with ctx := { g.ctx with state := .waitingForPacket } }

def gdbProcessInput (g : Gdb σ) (data : List Byte) : Gdb σ := data.foldl (gdbProcessByte io) g

end Input

def sessionCallbacks (config : ℕ) (behind : ℕ → Byte) : GdbCallbacks Debuggee where
  brk s := (sessionBreakCb s).1
  cont := sessionContinueCb
  get_regs := Debuggee.regs
  put_regs s regs := { s with regs }
  set_bkpt := sessionSetBkptCb
  clear_bkpt := sessionClearBkptCb
  step s := (sessionStepCb s).1
  peek s address := (s.mem (address &&& ~~~3) >>> (8 * (address &&& 3).toNat)).setWidth 8
  poke s address value :=
    let shift := 8 * (address &&& 3).toNat
    let others := s.mem (address &&& ~~~3) &&& ~~~((0xff : BitVec 32) <<< shift)
    { s with mem := Function.update s.mem (address &&& ~~~3) (others ||| value.setWidth 32 <<< shift) }
  config
  behind

end GdbServer
