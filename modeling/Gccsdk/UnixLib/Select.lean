import Gccsdk.Lib.BitSet

/-!
# `select`

The model of `unix/ul_select.c`: the translation of descriptor sets to socket sets and back
(`__convert_fd_set`, `__return_fd_set`), the round over the descriptors that asks every device,
and `select` itself. The devices' own `select` functions are those of `unix/dev.c`, `unix/tty.c`
and `unix/custom.c`; what the terminals, the pipes, the functions of custom devices and the
socket layer answer is a parameter.
-/

namespace UnixLib

open BitSet

/-- Number of descriptors that fit in an `fd_set`. -/
abbrev FD_SETSIZE : ℕ := 256

/-- `fd_set`: the words of `fds_bits`, the first one lowest. `FD_ISSET` is `getLsbD`, `FD_SET` is
`BitSet.insert`, `FD_CLR` is `BitSet.erase` and `FD_ZERO` is `0`. -/
abbrev FdSet := BitVec FD_SETSIZE

/-- `fds_bits[words]`. -/
def FdSet.word (set : FdSet) (words : ℕ) : BitVec 32 :=
  set.extractLsb' (words * 32) 32

/-- The three sets of `select`. -/
inductive SetKind where
  | read
  | write
  | except
  deriving DecidableEq, Repr

def SetKind.sum (f : SetKind → ℕ) : ℕ :=
  f .read + f .write + f .except

/-! ### Descriptors and their devices -/

abbrev NDEV : ℕ := 9

/-- The type of `/dev/null`. -/
abbrev DEV_NULL : ℕ := 3

abbrev DEV_SOCKET : ℕ := 4

/-- The functions that stand in the `select` column of `__dev`. -/
inductive SelectFunc where
  | nullselect
  | ttyselect
  | pipeselect
  | sockselect
  | customselect
  deriving DecidableEq, Repr

/-- The `select` column of `__dev`. -/
def devSelect : List SelectFunc :=
  [.nullselect, .ttyselect, .pipeselect, .nullselect, .sockselect, .nullselect, .nullselect,
    .nullselect, .customselect]

/-- `__dev[type < NDEV ? type : DEV_NULL].select`. -/
def selectFunc (type : ℕ) : SelectFunc :=
  devSelect.getD (if type < NDEV then type else DEV_NULL) .nullselect

/-- A `__unixlib_fd_handle`. -/
structure DeviceHandle where
  /-- The type of the device, -/
  type : ℕ
  /-- its own handle, for a socket the number the socket layer knows it by, -/
  handle : ℕ
  /-- and how many descriptors share it. -/
  refcount : ℕ

/-- What `select` finds of the descriptors. -/
structure Descriptors where
  /-- `getfd (fd)->devicehandle`, `none` for a descriptor that is not open. -/
  devicehandle : ℕ → Option DeviceHandle
  /-- The length of the table, that of an `fd_set` at most. -/
  maxfd : ℕ
  /-- `__socket_fd_set`. -/
  socket_fd_set : FdSet
  /-- `__socket_fd_set_initialised`. -/
  socket_fd_set_initialised : Bool
  /-- `socket` and `accept` set a descriptor's bit along with its type, `close` clears it. -/
  of_socket_fd_set : ∀ fd, socket_fd_set.getLsbD fd = true →
    ∃ d, devicehandle fd = some d ∧ d.type = DEV_SOCKET
  /-- The socket layer numbers its sockets below `FD_SETSIZE`: it has them in an `fd_set`. -/
  handle_lt : ∀ fd d, devicehandle fd = some d → d.type = DEV_SOCKET → d.handle < FD_SETSIZE

/-- `fd` is a socket. -/
def Descriptors.isSocket (t : Descriptors) (fd : ℕ) : Bool :=
  match t.devicehandle fd with
  | some d => d.type = DEV_SOCKET
  | none => false

/-- The scan of the descriptors that sets up `__socket_fd_set`, over those below `i`. -/
def Descriptors.scanSockets (t : Descriptors) : ℕ → FdSet
  | 0 => 0
  | i + 1 => if t.isSocket i then insert (t.scanSockets i) i else t.scanSockets i

/-- `__socket_fd_set` as `select` uses it: the first call sets it up. -/
def Descriptors.recorded (t : Descriptors) : FdSet :=
  if t.socket_fd_set_initialised then t.socket_fd_set else t.scanSockets t.maxfd

/-! ### From descriptors to sockets and back -/

/-- How many bits of a word are gone through: `bits = nfds % WORD_BITS`, or a whole word if that is
zero. It is the same number in every word. -/
def wordBits (nfds : ℤ) : ℕ :=
  if nfds.toNat % 32 = 0 then 32 else nfds.toNat % 32

/-- `while (bits-- > 0)` over the bits of a word. -/
def forBits {σ : Type} (body : ℕ → σ → σ) : ℕ → σ → σ
  | 0, s => s
  | bits + 1, s => forBits body bits (body bits s)

/-- `(nfds + WORD_BITS - 1) / WORD_BITS`. -/
def setWords (nfds : ℤ) : ℕ :=
  ((nfds + 32 - 1).tdiv 32).toNat

/-- The body of the loop over the bits in `__convert_fd_set`. -/
def convertBit (t : Descriptors) (words : ℕ) (bothset : BitVec 32) (bits : ℕ) (o : FdSet × ℕ) :
    FdSet × ℕ :=
  if bothset.getLsbD bits then
    match t.devicehandle (words * 32 + bits) with
    | some d => (insert o.1 d.handle, if o.2 < d.handle + 1 then d.handle + 1 else o.2)
    | none => o
  else o

/-- The loop over the words of `__convert_fd_set`. -/
def convertWords (t : Descriptors) (nfds : ℤ) (iset : FdSet) : ℕ → FdSet × ℕ → FdSet × ℕ
  | 0, o => o
  | words + 1, o =>
    let bothset := iset.word words &&& t.recorded.word words
    convertWords t nfds iset words
      (if bothset ≠ 0 then forBits (convertBit t words bothset) (wordBits nfds) o else o)

/-- `__convert_fd_set`: the sockets behind the descriptors of `iset`, and the new `max_fd`. -/
def convertFdSet (t : Descriptors) (nfds : ℤ) (iset : FdSet) (max_fd : ℕ) : FdSet × ℕ :=
  convertWords t nfds iset (setWords nfds) (0, max_fd)

/-- The body of the loop over the bits in `__return_fd_set`. -/
def returnBit (t : Descriptors) (oset : FdSet) (words bits : ℕ) (iset : FdSet) : FdSet :=
  match t.devicehandle (words * 32 + bits) with
  | some d =>
    if d.type = DEV_SOCKET ∧ ¬ oset.getLsbD d.handle then erase iset (words * 32 + bits) else iset
  | none => iset

/-- The loop over the words of `__return_fd_set`. -/
def returnWords (t : Descriptors) (nfds : ℤ) (oset : FdSet) : ℕ → FdSet → FdSet
  | 0, iset => iset
  | words + 1, iset =>
    let bothset := iset.word words &&& t.recorded.word words
    returnWords t nfds oset words
      (if bothset ≠ 0 then forBits (returnBit t oset words) (wordBits nfds) iset else iset)

/-- `__return_fd_set`: `iset` without the descriptors whose socket is not in `oset`. -/
def returnFdSet (t : Descriptors) (nfds : ℤ) (iset oset : FdSet) : FdSet :=
  returnWords t nfds oset (setWords nfds) iset

/-! ### What the devices and the socket layer answer -/

/-- The answers of the devices and of the socket layer in each round of a `select`. -/
structure SelectOs where
  /-- There is a line or a character for the terminal of this descriptor. -/
  ttyReady : ℕ → ℕ → Bool
  pipeData : ℕ → ℕ → Bool
  /-- The result of a custom device's function for the sets asked for, and the sets it puts the
  descriptor in. -/
  cselect : ℕ → ℕ → (SetKind → Bool) → ℤ × (SetKind → Bool)
  cselect_result : ∀ i fd wants, 0 ≤ (cselect i fd wants).1 → (cselect i fd wants).1 =
    (SetKind.sum fun k => if wants k && (cselect i fd wants).2 k then 1 else 0 : ℕ)
  /-- `_sselect`: the result and the sets. -/
  sselect : ℕ → ℕ → (SetKind → Option FdSet) → ℤ × (SetKind → FdSet)
  /-- It takes sockets out of the sets only, -/
  sselect_subset : ∀ i nfds sets k set, 0 ≤ (sselect i nfds sets).1 → sets k = some set →
    ∀ h, ((sselect i nfds sets).2 k).getLsbD h = true → set.getLsbD h = true
  /-- and returns the number of those that are left. -/
  sselect_result : ∀ i nfds sets, 0 ≤ (sselect i nfds sets).1 → (sselect i nfds sets).1 =
    (SetKind.sum fun k =>
      if (sets k).isSome then (elems ((sselect i nfds sets).2 k)).card else 0 : ℕ)
  /-- `clock ()`, call by call. -/
  clock : ℕ → BitVec 32

/-- `__nullselect`: ready to read and to write. -/
def nullselect : SetKind → Bool
  | .read => true
  | .write => true
  | .except => false

/-- A device's function in round `i`: the sets the descriptor is in after the call if they were
asked for, and the result. -/
def deviceSelect (os : SelectOs) (i fd : ℕ) (d : DeviceHandle) (wants : SetKind → Bool) :
    ℤ × (SetKind → Bool) :=
  match selectFunc d.type with
  | .nullselect =>
    ((if wants .read then 1 else 0) + (if wants .write then 1 else 0), nullselect)
  | .ttyselect =>
    let ready := os.ttyReady i fd
    ((if wants .read && ready then 1 else 0) + (if wants .write then 1 else 0),
      fun | .read => ready | .write => true | .except => false)
  | .pipeselect =>
    let to_read := os.pipeData i fd || d.refcount < 2
    ((if wants .read && to_read then 1 else 0) + (if wants .write then 1 else 0),
      fun | .read => to_read | .write => true | .except => false)
  | .sockselect => (0, fun _ => true)
  | .customselect => os.cselect i fd wants

/-! ### One round over the descriptors -/

/-- Why `select` fails: `EINVAL`, `EBADF`, or the error of a device or of the socket layer. -/
inductive SelectError where
  | EINVAL
  | EBADF
  | device (fd : ℕ)
  | socket
  deriving DecidableEq, Repr

/-- `set && FD_ISSET (fd, set)`. -/
def isset (sets : SetKind → Option FdSet) (fd : ℕ) (k : SetKind) : Bool :=
  match sets k with
  | some set => set.getLsbD fd
  | none => false

/-- `fd` is in one of the sets. -/
def wanted (sets : SetKind → Option FdSet) (fd : ℕ) : Bool :=
  isset sets fd .read || isset sets fd .write || isset sets fd .except

/-- `FD_SET` in the new sets that were asked for, `FD_CLR` in those where it is not ready. -/
def setReady (fd : ℕ) (wants ready : SetKind → Bool) (new : SetKind → FdSet) : SetKind → FdSet :=
  fun k => if wants k then (if ready k then insert (new k) fd else erase (new k) fd) else new k

/-- `FD_SET` in the new sets that were asked for. -/
def setWanted (fd : ℕ) (wants ready : SetKind → Bool) (new : SetKind → FdSet) : SetKind → FdSet :=
  fun k => if wants k && ready k then insert (new k) fd else new k

/-- `while (fd-- > 0)`: the new sets and `live_fds` once every descriptor was asked. -/
def scanFds (os : SelectOs) (t : Descriptors) (sets : SetKind → Option FdSet) (i : ℕ) :
    ℕ → (SetKind → FdSet) → ℤ → Except SelectError ((SetKind → FdSet) × ℤ)
  | 0, new, live_fds => .ok (new, live_fds)
  | fd + 1, new, live_fds =>
    match t.devicehandle fd with
    | some d =>
      match selectFunc d.type with
      | .nullselect =>
        -- `live_fds++` for each of the two
        scanFds os t sets i fd (setWanted fd (isset sets fd) nullselect new)
          (live_fds + (if isset sets fd .read then 1 else 0) +
            (if isset sets fd .write then 1 else 0))
      | .sockselect =>
        scanFds os t sets i fd (setWanted fd (isset sets fd) (fun _ => true) new) live_fds
      | _ =>
        if wanted sets fd then
          let (result, ready) := deviceSelect os i fd d (isset sets fd)
          if result < 0 then .error (.device fd)
          else scanFds os t sets i fd (setReady fd (isset sets fd) ready new) (live_fds + result)
        else scanFds os t sets i fd new live_fds
    | none =>
      if wanted sets fd then .error .EBADF else scanFds os t sets i fd new live_fds

/-! ### `select` -/

/-- A `struct timeval`. -/
structure Timeval where
  tv_sec : BitVec 32
  tv_usec : BitVec 32
  deriving DecidableEq, Repr

/-- What is left of `timeout` after the time from `start` to `now`. -/
def Timeval.subtract (timeout : Timeval) (start now : BitVec 32) : Timeval :=
  let spent := now - start
  let usec := timeout.tv_usec - (spent % 100) * 10000
  let (usec, sec) :=
    if usec.slt 0 then (usec + 1000000, timeout.tv_sec - 1) else (usec, timeout.tv_sec)
  let sec := sec - spent / 100
  if sec.slt 0 then ⟨0, 0⟩ else ⟨sec, usec⟩

/-- What `select` returns. -/
structure SelectReturn where
  live_fds : ℤ
  sets : SetKind → Option FdSet
  /-- The caller's `timeout`. -/
  timeout : Option Timeval
  round : ℕ

def convertSet (t : Descriptors) (nfds : ℤ) (set : Option FdSet) (max_fd : ℕ) : Option FdSet × ℕ :=
  match set with
  | some iset => (some (convertFdSet t nfds iset max_fd).1, (convertFdSet t nfds iset max_fd).2)
  | none => (none, max_fd)

/-- The sockets of a call: the set of each of the caller's sets, and `sock_nfds`. -/
def sockSets (t : Descriptors) (nfds : ℤ) (sets : SetKind → Option FdSet) :
    (SetKind → Option FdSet) × ℕ :=
  let (sock_readfds, sock_nfds) := convertSet t nfds (sets .read) 0
  let (sock_writefds, sock_nfds) := convertSet t nfds (sets .write) sock_nfds
  let (sock_exceptfds, sock_nfds) := convertSet t nfds (sets .except) sock_nfds
  (fun | .read => sock_readfds | .write => sock_writefds | .except => sock_exceptfds, sock_nfds)

/-- `_sselect` in round `i`, unless there is no socket to wait for: the result and the sets. -/
def sockWait (os : SelectOs) (t : Descriptors) (nfds : ℤ) (sets : SetKind → Option FdSet) (i : ℕ) :
    ℤ × (SetKind → FdSet) :=
  let (sock, sock_nfds) := sockSets t nfds sets
  if sock_nfds = 0 then (0, fun k => (sock k).getD 0) else os.sselect i sock_nfds sock

/-- The copy of the first `(nfds + 7) >> 3` bytes of a new set over the caller's, then the results of the
sockets. A negative number is a huge one to `memcpy`. -/
def copyBack (t : Descriptors) (nfds : ℤ) (sock_nfds : ℕ) (set new newsock : FdSet) :
    Option FdSet :=
  if (nfds + 7) / 8 < 0 then none
  else
    let set := splice (8 * ((nfds + 7) / 8).toNat) new set
    some (if sock_nfds ≠ 0 then returnFdSet t nfds set newsock else set)

def copyBackSet (t : Descriptors) (nfds : ℤ) (sock_nfds : ℕ) (sets : SetKind → Option FdSet)
    (new newsock : SetKind → FdSet) (k : SetKind) : Option (Option FdSet) :=
  match sets k with
  | some set => (copyBack t nfds sock_nfds set (new k) (newsock k)).map some
  | none => some none

def copyBackAll (t : Descriptors) (nfds : ℤ) (sock_nfds : ℕ) (sets : SetKind → Option FdSet)
    (new newsock : SetKind → FdSet) : Option (SetKind → Option FdSet) := do
  let readfds ← copyBackSet t nfds sock_nfds sets new newsock .read
  let writefds ← copyBackSet t nfds sock_nfds sets new newsock .write
  let exceptfds ← copyBackSet t nfds sock_nfds sets new newsock .except
  return fun | .read => readfds | .write => writefds | .except => exceptfds

/-- The end of `select`. -/
def selectEnd (t : Descriptors) (nfds : ℤ) (sets : SetKind → Option FdSet)
    (new newsock : SetKind → FdSet) (live_fds : ℤ) (timeout : Option Timeval) (i : ℕ) :
    Option (Except SelectError SelectReturn) := do
  let back ← copyBackAll t nfds (sockSets t nfds sets).2 sets new newsock
  return .ok { live_fds, sets := back, timeout, round := i }

/-- The rounds from round `i` on. There is no end of the wait without a `timeout`; with one it is at
`finish`, at once with `zerotime`. -/
def selectLoop (os : SelectOs) (t : Descriptors) (nfds : ℤ) (sets : SetKind → Option FdSet)
    (timeout : Option Timeval) (zerotime : Bool) (now finish : BitVec 32) :
    ℕ → ℕ → (SetKind → FdSet) → Option (Except SelectError SelectReturn)
  | 0, _, _ => none
  | fuel + 1, i, new =>
    match scanFds os t sets i nfds.toNat new 0 with
    | .error e => some (.error e)
    | .ok (new, live_fds) =>
      let (result, newsock) := sockWait os t nfds sets i
      if result < 0 then some (.error .socket)
      else if live_fds + result ≠ 0 ∨ zerotime then
        -- something is live, or nobody waits
        let left := if zerotime then timeout
          else timeout.map fun tv => tv.subtract now (os.clock (i + 1))
        selectEnd t nfds sets new newsock (live_fds + result) left i
      else if timeout.isSome ∧ finish < os.clock (i + 1) then
        selectEnd t nfds sets new newsock (live_fds + result) (some ⟨0, 0⟩) i
      else selectLoop os t nfds sets timeout zerotime now finish fuel (i + 1) new

def limitFds (nfds : ℤ) : ℤ :=
  if nfds > FD_SETSIZE then FD_SETSIZE else nfds

/-- `select`. It has no value when it does not return: the fuel is the number of rounds. -/
def select (fuel : ℕ) (os : SelectOs) (t : Descriptors) (nfds : ℤ) (sets : SetKind → Option FdSet)
    (timeout : Option Timeval) : Option (Except SelectError SelectReturn) :=
  let new : SetKind → FdSet := fun _ => 0
  match timeout with
  | none => selectLoop os t (limitFds nfds) sets none false 0 0 fuel 0 new
  | some tv =>
    if tv.tv_usec = 0 ∧ tv.tv_sec = 0 then
      selectLoop os t (limitFds nfds) sets timeout true 0 0 fuel 0 new
    else if (1000000 : BitVec 32).slt tv.tv_usec ∨ (21474835 : BitVec 32).slt tv.tv_sec then
      some (.error .EINVAL)
    else
      let now := os.clock 0
      let finish := now + tv.tv_sec * 100 + (50000 + tv.tv_usec).sdiv 1000000
      selectLoop os t (limitFds nfds) sets timeout false now finish fuel 0 new

end UnixLib
