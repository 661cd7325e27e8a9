import Gccsdk.Lib.ByteFile
import Mathlib.Data.Int.Notation

/-!
# Streams

The model of a `FILE` and of what reading and writing share: the calls to the OS, `__flsbuf`
(`stdio/flsbuf.c`), `fgetpos` and `fseeko`. A position is an `off_t`, a word that wraps; a file
has fewer than 2^32 - 1 bytes, so no position is the `-1` of a call that fails.
-/

namespace UnixLib

def EOF : ℤ := -1

def newline : UInt8 := 10

/-! ### The OS -/

/-- What the OS answers in one call of a stream function. -/
structure StdioOs where
  /-- The number of bytes that the call's `i`-th `write` of `n` bytes writes; `none` is an error. -/
  writes : ℕ → ℕ → Option ℕ
  writes_le : ∀ i n m, writes i n = some m → m ≤ n
  /-- The number of bytes that the call's `i`-th `read` returns of `n` that are asked for and that
  the file has; `none` is an error. -/
  reads : ℕ → ℕ → Option ℕ
  reads_le : ∀ i n m, reads i n = some m → m ≤ n
  reads_pos : ∀ i n m, reads i n = some m → 0 < n → 0 < m
  seeks : ℕ → Bool

/-- `write`: the bytes at the file pointer, or at the end of the file with `O_APPEND`. -/
def osWrite (os : StdioOs) (i : ℕ) (f : ByteFile) (append : Bool) (data : List UInt8) :
    ByteFile × Option ℕ :=
  if data = [] then (f, some 0)
  else
    match os.writes i data.length with
    | some count => ((if append then f.toEnd else f).put (data.take count), some count)
    | none => (if append then f.toEnd else f, none)

/-- `read` of `n` bytes. -/
def osRead (os : StdioOs) (i : ℕ) (f : ByteFile) (n : ℕ) : ByteFile × Option (List UInt8) :=
  match os.reads i (min n f.rest.length) with
  | some count => (f.advance count, some (f.rest.take count))
  | none => (f, none)

/-- The `whence` of `fseek`. -/
inductive Whence where
  | SEEK_SET
  | SEEK_CUR
  | SEEK_END
  | invalid
  deriving DecidableEq, Repr

/-- `lseek` from the start or from the end: the new position, `none` when the OS refuses it. -/
def osSeek (os : StdioOs) (f : ByteFile) (offset : BitVec 32) (fromEnd : Bool) :
    ByteFile × Option (BitVec 32) :=
  let target := if fromEnd then BitVec.ofNat 32 f.content.length + offset else offset
  if os.seeks target.toNat then (f.seek target.toNat, some target) else (f, none)

/-! ### `FILE` -/

/-- A `FILE`, with the file behind its descriptor. -/
structure Stream where
  /-- The bytes from `i_ptr` on that the input buffer was filled with. -/
  i_ptr : List UInt8
  i_base : Bool
  i_cnt : BitVec 32
  o_base : Bool
  /-- The bytes from `o_base` to `o_ptr`. -/
  o_buf : List UInt8
  o_cnt : BitVec 32
  bufsize : BitVec 32
  offset : BitVec 32
  read : Bool
  write : Bool
  append : Bool
  pushedchar : UInt8
  pushedi_cnt : BitVec 32
  pushedback : Bool
  eof : Bool
  error : Bool
  linebuf : Bool
  file : ByteFile

/-- What `setvbuf` is told about the buffer. -/
structure Buffering where
  size : BitVec 32
  /-- `_IOLBF`. -/
  line : Bool

/-- The stream that `fopen` and `setvbuf` give for a file, with its pointer at the start. -/
def newStream (content : List UInt8) (read write append : Bool) (b : Buffering) : Stream where
  i_ptr := []
  i_base := read && b.size ≠ 0
  i_cnt := 0
  o_base := write && b.size ≠ 0
  o_buf := []
  o_cnt := if write then b.size else 0
  bufsize := b.size
  offset := 0
  read := read
  write := write
  append := append
  pushedchar := 0
  pushedi_cnt := 0
  pushedback := false
  eof := false
  error := false
  linebuf := b.line
  file := ⟨content, 0, Nat.zero_le _⟩

/-! ### Flushing and seeking -/

/-- The first part of `__flsbuf`: the output buffer goes out, whatever the count that `write`
returns. `i` is the number of the `write` in the call. -/
def flushBuffer (os : StdioOs) (i : ℕ) (s : Stream) : Stream × ℤ :=
  let s := if s.pushedback then { s with i_cnt := s.pushedi_cnt, pushedback := false } else s
  if s.o_base then
    match osWrite os i s.file s.append s.o_buf with
    | (file, none) => ({ s with file, error := true }, EOF)
    | (file, some _) =>
      -- in append mode the position is asked for
      let offset :=
        if s.append then BitVec.ofNat 32 file.pos else s.offset + BitVec.ofNat 32 s.o_buf.length
      ({ s with file, offset, o_cnt := s.bufsize, o_buf := [] }, 0)
  else (s, 0)

/-- The second part of `__flsbuf`: the character goes out. -/
def flushChar (os : StdioOs) (i : ℕ) (c : UInt8) (s : Stream) : Stream × ℤ :=
  match osWrite os i s.file s.append [c] with
  | (file, none) => ({ s with file, error := true }, EOF)
  | (file, some _) =>
    let offset := if !s.o_base && s.append then BitVec.ofNat 32 file.pos else s.offset + 1
    ({ s with file, offset }, c.toNat)

/-- `__flsbuf`; no character is `EOF`. -/
def flsbuf (os : StdioOs) (i : ℕ) (c : Option UInt8) (s : Stream) : Stream × ℤ :=
  let (s, result) := flushBuffer os i s
  if result = EOF then (s, EOF)
  else
    match c with
    | none => (s, 0)
    | some c => flushChar os (i + 1) c s

/-- `fgetpos`: a stream that is read and written is flushed first. -/
def fgetpos (os : StdioOs) (s : Stream) : Stream × Option (BitVec 32) :=
  let (s, result) := if s.read && s.write then flsbuf os 0 none s else (s, 0)
  if result = EOF then (s, none)
  else if s.o_base then (s, some (s.offset + BitVec.ofNat 32 s.o_buf.length))
  else if s.i_base then
    (s, some (s.offset - (if s.pushedback then s.pushedi_cnt + 1 else s.i_cnt)))
  else (s, some (s.offset - (if s.pushedback then 1 else 0)))

/-- The second half of `fseeko`: pending data goes out, then the file pointer moves. -/
def seekTo (os : StdioOs) (offset : BitVec 32) (fromEnd : Bool) (s : Stream) : Stream × ℤ :=
  let (s, result) := if s.write then flsbuf os 1 none s else (s, 0)
  if result = EOF then (s, -1)
  else
    match osSeek os s.file offset fromEnd with
    | (file, none) => ({ s with file, error := true }, -1)
    | (file, some offset) =>
      ({ s with file, offset, i_cnt := 0, pushedback := false, eof := false }, 0)

def fseeko (os : StdioOs) (offset : BitVec 32) (w : Whence) (s : Stream) : Stream × ℤ :=
  match w with
  | .SEEK_CUR =>
    match fgetpos os s with
    | (s, none) => (s, -1)
    | (s, some pos) => seekTo os (pos + offset) false s
  | .SEEK_SET => seekTo os offset false s
  | .SEEK_END => seekTo os offset true s
  | .invalid => (s, -1)

end UnixLib
