import Gccsdk.GdbServer.Step

/-!
# A debug session

The part of `session.c` that has to do with the program that is debugged: its registers, its memory, and the
breakpoints in it. They are what the protocol's callbacks work on.

A record of a breakpoint keeps the instruction it replaced; the lowest bit of its address marks it as one-shot.
The records are in a list, and those that are not in use in another. A session that no debugger is connected to
ignores a break.
-/

namespace GdbServer

def BKPT_ONE_SHOT : BitVec 32 := 0x1

def BKPT : BitVec 32 := 0xe7f000f0

/-- `session_bkpt`, without its links. -/
structure SessionBkpt where
  address : BitVec 32
  instruction : BitVec 32
  deriving DecidableEq, Repr

/-- What a session knows of the program, and the program's memory. -/
structure Debuggee where
  cur_pc : BitVec 32
  regs : CpuRegisters
  brk : Bool
  /-- It is `session_get_current ()`. -/
  current : Bool
  connected : Bool
  bkpts : List SessionBkpt
  free_bkpts : List SessionBkpt
  mem : Mem
  /-- Whether memory is available for a record, now and the times after that. -/
  malloc : ℕ → Bool

def SessionBkpt.isAt (b : SessionBkpt) (address : BitVec 32) : Bool :=
  b.address &&& ~~~BKPT_ONE_SHOT = address &&& ~~~BKPT_ONE_SHOT

def sessionFindBkpt (s : Debuggee) (address : BitVec 32) : Option SessionBkpt :=
  s.bkpts.find? fun b => b.isAt address

/-- The end of `session_set_bkpt_cb`: the record is inserted, and the instruction replaced. -/
def insertBkpt (s : Debuggee) (address : BitVec 32) : Debuggee :=
  { s with
    bkpts := ⟨address, s.mem.load (address &&& ~~~BKPT_ONE_SHOT)⟩ :: s.bkpts
    mem := s.mem.store (address &&& ~~~BKPT_ONE_SHOT) BKPT }

/-- `session_set_bkpt_cb`; `false` is a failure. -/
def sessionSetBkptCb (s : Debuggee) (address : BitVec 32) : Debuggee × Bool :=
  if (sessionFindBkpt s address).isSome then (s, true)
  else
    match s.free_bkpts with
    | _ :: free => (insertBkpt { s with free_bkpts := free } address, true)
    | [] =>
      let s' := { s with malloc := fun n => s.malloc (n + 1) }
      if s.malloc 0 then (insertBkpt s' address, true) else (s', false)

/-- `session_clear_bkpt_cb`, which never fails. -/
def sessionClearBkptCb (s : Debuggee) (address : BitVec 32) : Debuggee × Bool :=
  match sessionFindBkpt s address with
  | none => (s, true)
  | some bkpt =>
    ({ s with
        bkpts := s.bkpts.eraseP fun b => b.isAt address
        free_bkpts := bkpt :: s.free_bkpts
        mem := s.mem.store (address &&& ~~~BKPT_ONE_SHOT) bkpt.instruction }, true)

def sessionBreakCb (s : Debuggee) : Debuggee × Bool :=
  if s.brk then (s, false)
  else if s.current then
    match sessionSetBkptCb s (s.cur_pc ||| BKPT_ONE_SHOT) with
    | (s, false) => (s, false)
    | (s, true) => ({ s with brk := true }, true)
  else ({ s with brk := true }, true)

def sessionContinueCb (s : Debuggee) : Debuggee := { s with brk := false }

/-- The address that `session_step_cb` expects to be executed next. -/
def Debuggee.next (s : Debuggee) : BitVec 32 := stepInstruction s.mem (s.mem.load s.regs.pc) s.regs

def sessionStepCb (s : Debuggee) : Debuggee × Bool :=
  match sessionSetBkptCb s (s.next ||| BKPT_ONE_SHOT) with
  | (s, false) => (s, false)
  | (s, true) => ({ s with brk := false }, true)

/-- `session_handle_break`, in the session's own program, up to the wait of `session_wait_for_continue`. -/
def sessionHandleBreak (s : Debuggee) : Debuggee :=
  if ¬s.connected then { s with current := false }
  else
    let s :=
      match sessionFindBkpt s s.regs.pc with
      | none => s
      | some bkpt =>
        if bkpt.address &&& BKPT_ONE_SHOT ≠ 0 then (sessionClearBkptCb s s.regs.pc).1 else s
    { s with brk := true }

def sessionPrePollHandler (s : Debuggee) : Debuggee := { s with current := false }

/-- `session_post_poll_handler`, for the session's own task. -/
def sessionPostPollHandler (s : Debuggee) : Debuggee :=
  let s := { s with current := true }
  if s.brk then (sessionSetBkptCb s (s.cur_pc ||| BKPT_ONE_SHOT)).1 else s

/-- A program of `MOV r0, r0`, stopped at its start, with a debugger connected. -/
def stopped : Debuggee where
  cur_pc := 0
  regs := fun n => if n = 15 then 0x8000 else 0
  brk := true
  current := true
  connected := true
  bkpts := []
  free_bkpts := []
  mem := fun _ => 0xe1a00000
  malloc := fun _ => true

end GdbServer
