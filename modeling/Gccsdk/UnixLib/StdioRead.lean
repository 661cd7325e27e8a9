import Gccsdk.UnixLib.StdioWrite

/-!
# Reading from a stream

The model of `fgetc`, `__filbuf`, `__peek_char`, `ungetc` and `fread` (`stdio/getc.c`,
`stdio/filbuf.c`, `stdio/ungetc.c`, `stdio/fread.c`) and their refinement of plain reading: a file
with a position and at most one character that was pushed back (`readRun_refines`). What the OS
hands over in one `read` may be short whenever the buffer is filled. It may not be in `fread`'s own
loop, which does not move on in the caller's memory, and `__peek_char` loses the character when
there is no buffer.
-/

namespace UnixLib

/-! ### The calls -/

/-- `fill_buffer`: the number of bytes, `none` for `EOF`. `i_ptr` is at the first of them. -/
def fillInput (os : StdioOs) (s : Stream) : Stream × Option ℕ :=
  -- unbuffered, one character is read into a buffer of its own
  let to_read := if s.i_base then s.bufsize.toNat else 1
  let i_cnt := if s.i_base then 0 else s.i_cnt
  match osRead os 0 s.file to_read with
  | (file, none) => ({ s with file, error := true, i_cnt, i_ptr := [] }, none)
  | (file, some bytes) =>
    if to_read ≠ 0 ∧ bytes = [] then ({ s with file, eof := true, i_cnt, i_ptr := [] }, none)
    else
      ({ s with file, i_ptr := bytes, offset := s.offset + BitVec.ofNat 32 bytes.length },
        some bytes.length)

/-- `__filbuf`: the next character, `none` for `EOF`. -/
def filbuf (os : StdioOs) (s : Stream) : Stream × Option UInt8 :=
  if s.eof then ({ s with i_cnt := 0 }, none)
  else if s.pushedback then
    ({ s with pushedback := false, i_cnt := s.pushedi_cnt }, some s.pushedchar)
  else
    match fillInput os s with
    | (s, none) => (s, none)
    | (s, some count) =>
      if !s.i_base then (s, if s.eof || s.error then none else s.i_ptr.head?)
      else ({ s with i_cnt := BitVec.ofNat 32 count - 1, i_ptr := s.i_ptr.tail }, s.i_ptr.head?)

/-- `fgetc`. It has no value when it takes what the buffer was not filled with. -/
def fgetc (os : StdioOs) (s : Stream) : Option (Stream × Option UInt8) :=
  let s := { s with i_cnt := s.i_cnt - 1 }
  if (0 : BitVec 32).sle s.i_cnt then
    match s.i_ptr with
    | c :: i_ptr => some ({ s with i_ptr }, some c)
    | [] => none
  else some (filbuf os s)

def peekChar (os : StdioOs) (s : Stream) : Option (Stream × Option UInt8) :=
  if s.eof then some (s, none)
  else if s.pushedback then some (s, some s.pushedchar)
  else if (0 : BitVec 32).slt s.i_cnt then
    match s.i_ptr with
    | c :: _ => some (s, some c)
    | [] => none
  else
    match fillInput os s with
    | (s, none) => some (s, none)
    | (s, some count) =>
      if !s.i_base then some (s, if s.eof || s.error then none else s.i_ptr.head?)
      else some ({ s with i_cnt := BitVec.ofNat 32 count }, s.i_ptr.head?)

/-- `ungetc`; no character is `EOF`. -/
def ungetc (c : Option UInt8) (s : Stream) : Stream × Option UInt8 :=
  if !s.read then (s, none)
  else
    match c with
    | none => (s, none)
    | some c =>
      if s.pushedback then (s, none)
      else
        ({ s with
            pushedchar := c
            pushedback := true
            pushedi_cnt := s.i_cnt
            i_cnt := 0
            eof := false }, some c)

/-- The memory of the caller of `fread`. -/
structure ReadObjects where
  size : ℕ
  count : ℕ
  data : List UInt8
  length_eq : data.length = size * count
  length_lt : data.length < 2 ^ 32

/-- The bytes are stored from `at` on. -/
def storeBytes (mem : List UInt8) (i : ℕ) (bytes : List UInt8) : List UInt8 :=
  mem.take i ++ bytes ++ mem.drop (i + bytes.length)

/-- The loop of `fread`: it reads to `data`, which stays where it is. -/
def readLoop (os : StdioOs) (data : ℕ) :
    ℕ → ℕ → ℕ → Stream → List UInt8 → Option (Stream × List UInt8 × ℕ)
  | 0, _, _, _, _ => none
  | fuel + 1, i, to_read, s, mem =>
    if to_read = 0 then some (s, mem, 0)
    else
      match osRead os i s.file to_read with
      | (file, none) => some ({ s with file, error := true }, mem, to_read)
      | (file, some bytes) =>
        if bytes = [] then some ({ s with file, eof := true }, mem, to_read)
        else
          readLoop os data fuel (i + 1) (to_read - bytes.length)
            { s with file, offset := s.offset + BitVec.ofNat 32 bytes.length }
            (storeBytes mem data bytes)

/-- The character that was pushed back goes first: the stream, the memory, `data` and `to_read`. -/
def readPushed (to_read : ℕ) (mem : List UInt8) (s : Stream) : Stream × List UInt8 × ℕ × ℕ :=
  if s.pushedback then
    ({ s with pushedback := false, i_cnt := s.pushedi_cnt }, storeBytes mem 0 [s.pushedchar], 1,
      to_read - 1)
  else (s, mem, 0, to_read)

def readBuffer (data to_read : ℕ) (mem : List UInt8) (s : Stream) :
    Option (Stream × List UInt8 × ℕ × ℕ) :=
  if s.i_base then
    let bytes := if s.i_cnt.toNat < to_read then s.i_cnt.toNat else to_read
    if s.i_ptr.length < bytes then none
    else
      some ({ s with i_cnt := s.i_cnt - BitVec.ofNat 32 bytes, i_ptr := s.i_ptr.drop bytes },
        storeBytes mem data (s.i_ptr.take bytes), data + bytes, to_read - bytes)
  else some (s, mem, data, to_read)

/-- `fread`: the memory and the number of objects. -/
def fread (fuel : ℕ) (os : StdioOs) (o : ReadObjects) (s : Stream) :
    Option (Stream × List UInt8 × ℕ) :=
  let s := if s.read then s else { s with error := true }
  if s.eof || s.error then some (s, o.data, 0)
  else
    let to_read := o.size * o.count % 2 ^ 32
    if to_read = 0 then some (s, o.data, 0)
    else do
      let (s, mem, data, to_read) := readPushed to_read o.data s
      let (s, mem, data, to_read) ← readBuffer data to_read mem s
      let (s, mem, to_read) ← readLoop os data fuel 0 to_read s mem
      return (s, mem, if to_read ≠ 0 then o.count - (to_read + o.size - 1) % 2 ^ 32 / o.size
        else o.count)

/-! ### Runs -/

inductive ReadOp where
  | fgetc
  | ungetc (c : Option UInt8)
  | peekChar
  | fread (o : ReadObjects)
  | fseek (offset : BitVec 32) (w : Whence)
  | ftell

inductive ReadResult where
  | char (c : Option UInt8)
  | objects (data : List UInt8) (count : ℕ)
  | status (result : ℤ)
  | position (pos : Option (BitVec 32))
  deriving DecidableEq, Repr

def readStep (fuel : ℕ) (os : StdioOs) (op : ReadOp) (s : Stream) : Option (Stream × ReadResult) :=
  match op with
  | .fgetc => (UnixLib.fgetc os s).map fun (s, c) => (s, .char c)
  | .ungetc c =>
    let (s, c) := UnixLib.ungetc c s
    some (s, .char c)
  | .peekChar => (UnixLib.peekChar os s).map fun (s, c) => (s, .char c)
  | .fread o => (UnixLib.fread fuel os o s).map fun (s, data, count) => (s, .objects data count)
  | .fseek offset w =>
    let (s, result) := fseeko os offset w s
    some (s, .status result)
  | .ftell =>
    let (s, pos) := fgetpos os s
    some (s, .position pos)

/-- The calls of a run, each with what the OS answers, and what they return. -/
def readRun (fuel : ℕ) : List (ReadOp × StdioOs) → Stream → Option (Stream × List ReadResult)
  | [], s => some (s, [])
  | (op, os) :: rest, s => do
    let (s, result) ← readStep fuel os op s
    let (s, results) ← readRun fuel rest s
    return (s, result :: results)

/-! ### Plain reading -/

/-- A file that is read without a buffer, and the character that was pushed back. -/
structure PlainReader where
  file : ByteFile
  pushed : Option UInt8

def PlainReader.ahead (p : PlainReader) : List UInt8 :=
  p.pushed.toList ++ p.file.rest

/-- The reader without the first `n` bytes of what is ahead. -/
def PlainReader.skip (p : PlainReader) (n : ℕ) : PlainReader :=
  if n = 0 then p else ⟨p.file.advance (n - p.pushed.toList.length), none⟩

/-- The position: that of the file, less the character that was pushed back. -/
def PlainReader.position (p : PlainReader) : BitVec 32 :=
  BitVec.ofNat 32 p.file.pos - BitVec.ofNat 32 p.pushed.toList.length

def plainReadStep (op : ReadOp) (p : PlainReader) : PlainReader × ReadResult :=
  match op with
  | .fgetc => (p.skip 1, .char p.ahead.head?)
  | .ungetc none => (p, .char none)
  | .ungetc (some c) =>
    if p.pushed.isSome then (p, .char none) else ({ p with pushed := some c }, .char (some c))
  | .peekChar => (p, .char p.ahead.head?)
  | .fread o =>
    let bytes := p.ahead.take o.data.length
    (p.skip bytes.length, .objects (storeBytes o.data 0 bytes) (bytes.length / o.size))
  | .fseek offset .SEEK_SET => (⟨p.file.seek offset.toNat, none⟩, .status 0)
  | .fseek offset .SEEK_CUR => (⟨p.file.seek (p.position + offset).toNat, none⟩, .status 0)
  | .fseek offset .SEEK_END =>
    (⟨p.file.seek (BitVec.ofNat 32 p.file.content.length + offset).toNat, none⟩, .status 0)
  | .fseek _ .invalid => (p, .status (-1))
  | .ftell => (p, .position (some p.position))

def plainReadRun : List (ReadOp × StdioOs) → PlainReader → PlainReader × List ReadResult
  | [], p => (p, [])
  | (op, _) :: rest, p =>
    let (p, result) := plainReadStep op p
    let (p, results) := plainReadRun rest p
    (p, result :: results)

/-! ### What the stream holds of the file -/

variable {os : StdioOs} {s s' : Stream} {p p' : PlainReader} {i n fuel : ℕ} {f : ByteFile}

/-- The count of the buffer, from before a character was pushed back if one was. -/
def Stream.bufCnt (s : Stream) : BitVec 32 :=
  if s.pushedback then s.pushedi_cnt else s.i_cnt

/-- A stream that is read only and has had no error. -/
structure ReadOnly (s : Stream) : Prop where
  read : s.read = true
  write : s.write = false
  o_base : s.o_base = false
  error : s.error = false
  /-- The buffer is no larger than an `int` can count. -/
  bufsize : s.i_base = true → 0 < s.bufsize.toNat ∧ s.bufsize.toNat < 2 ^ 31

/-- The first `cnt` bytes at `i_ptr` are the next ones of the file `f`, and the descriptor is
behind them. -/
structure Buffered (s : Stream) (cnt : BitVec 32) (f : ByteFile) : Prop where
  lt : cnt.toNat < 2 ^ 31
  le : cnt.toNat ≤ s.i_ptr.length
  pos : f.pos + cnt.toNat = s.file.pos
  rest : f.rest = s.i_ptr.take cnt.toNat ++ s.file.rest

/-- **The invariant of a read stream.** The plain reader's file is the stream's, less what is left
of the buffer. -/
structure Reading (s : Stream) (p : PlainReader) : Prop extends ReadOnly s where
  pushed : p.pushed = if s.pushedback then some s.pushedchar else none
  pushed_cnt : s.pushedback = true → s.i_cnt = 0
  offset : s.offset = BitVec.ofNat 32 s.file.pos
  content : p.file.content = s.file.content
  buffered : s.i_base = true → Buffered s s.bufCnt p.file
  unbuffered : s.i_base = false → p.file = s.file ∧ (0 : BitVec 32).slt s.bufCnt = false
  eof : s.eof = true → p.ahead = []

/-- `read` has no error. -/
def StdioOs.NoError (os : StdioOs) : Prop :=
  ∀ i n, os.reads i n ≠ none

theorem osRead_noError (hos : os.NoError) (i : ℕ) (f : ByteFile) (n : ℕ) :
    ∃ count, osRead os i f n = (f.advance count, some (f.rest.take count)) ∧
      count ≤ n ∧ count ≤ f.rest.length ∧ (0 < n → f.rest ≠ [] → 0 < count) := by
  cases hread : os.reads i (min n f.rest.length) with
  | none => exact absurd hread (hos i _)
  | some count =>
    have hle := os.reads_le i _ count hread
    refine ⟨count, ?_, hle.trans (Nat.min_le_left _ _), hle.trans (Nat.min_le_right _ _),
      fun hn hrest => ?_⟩
    · unfold osRead
      rw [hread]
    · have hpos : 0 < f.rest.length := List.length_pos_iff.mpr hrest
      exact os.reads_pos i _ count hread (lt_min hn hpos)

theorem bufCnt_eq (hpush : s.pushedback = false) : s.bufCnt = s.i_cnt := by
  unfold Stream.bufCnt
  rw [hpush, if_neg Bool.false_ne_true]

theorem Reading.pushed_none (h : Reading s p) (hpush : s.pushedback = false) : p.pushed = none := by
  rw [h.pushed, hpush, if_neg Bool.false_ne_true]

theorem ahead_none (hp : p.pushed = none) : p.ahead = p.file.rest := by
  unfold PlainReader.ahead
  rw [hp]
  rfl

theorem Reading.file_eq (h : Reading s p) (hcnt : s.i_base = true → s.bufCnt.toNat = 0) :
    p.file = s.file := by
  by_cases hbuf : s.i_base = true
  · have hpos := (h.buffered hbuf).pos
    rw [hcnt hbuf, Nat.add_zero] at hpos
    exact ByteFile.ext h.content hpos
  · exact (h.unbuffered (Bool.eq_false_iff.mpr hbuf)).1

theorem skip_of_ahead_nil (h : p.ahead = []) : p.skip n = p := by
  unfold PlainReader.ahead at h
  rw [List.append_eq_nil_iff] at h
  obtain ⟨hpush, hrest⟩ := h
  unfold PlainReader.skip
  split
  · rfl
  · have hnone : p.pushed = none := by
      cases hp : p.pushed with
      | none => rfl
      | some c =>
        rw [hp] at hpush
        cases hpush
    have hfile : p.file.advance (n - p.pushed.toList.length) = p.file := by
      have hlen := congrArg List.length hrest
      rw [ByteFile.length_rest, List.length_nil] at hlen
      have hle := p.file.pos_le
      refine ByteFile.ext rfl ?_
      change min (p.file.pos + _) p.file.content.length = p.file.pos
      omega
    rw [hfile, ← hnone]

/-- **Filling the buffer** at the end of the file, -/
theorem fillInput_nil (hos : os.NoError) (hrest : s.file.rest = [])
    (hbuf : s.i_base = true → 0 < s.bufsize.toNat) :
    fillInput os s = ({ s with
      eof := true
      i_cnt := if s.i_base then 0 else s.i_cnt
      i_ptr := [] }, none) := by
  obtain ⟨count, hread, -, hle, -⟩ :=
    osRead_noError hos 0 s.file (if s.i_base then s.bufsize.toNat else 1)
  have hzero : count = 0 := by
    rw [hrest] at hle
    exact Nat.le_zero.mp hle
  have hne : (if s.i_base then s.bufsize.toNat else 1) ≠ 0 := by
    split
    · rename_i hb
      exact Nat.ne_of_gt (hbuf hb)
    · exact Nat.one_ne_zero
  unfold fillInput
  dsimp only
  rw [hread, hzero, ByteFile.advance_zero]
  dsimp only
  rw [List.take_zero, if_pos (And.intro hne rfl)]

/-- and before it. -/
theorem fillInput_cons (hos : os.NoError) (hrest : s.file.rest ≠ [])
    (hbuf : s.i_base = true → 0 < s.bufsize.toNat) :
    ∃ count, fillInput os s = ({ s with
        file := s.file.advance count
        i_ptr := s.file.rest.take count
        offset := s.offset + BitVec.ofNat 32 count }, some count) ∧
      0 < count ∧ count ≤ s.file.rest.length ∧
      (s.i_base = true → count ≤ s.bufsize.toNat) ∧ (s.i_base = false → count = 1) := by
  obtain ⟨count, hread, hn, hle, hpos⟩ :=
    osRead_noError hos 0 s.file (if s.i_base then s.bufsize.toNat else 1)
  have hto : 0 < if s.i_base then s.bufsize.toNat else 1 := by
    split
    · rename_i hb
      exact hbuf hb
    · exact Nat.one_pos
  have hcount := hpos hto hrest
  have hlen : (s.file.rest.take count).length = count := by
    rw [List.length_take, Nat.min_eq_left hle]
  have hne : s.file.rest.take count ≠ [] := by
    intro hnil
    rw [hnil, List.length_nil] at hlen
    omega
  refine ⟨count, ?_, hcount, hle, fun hb => ?_, fun hb => ?_⟩
  · unfold fillInput
    dsimp only
    rw [hread]
    dsimp only
    rw [if_neg (fun hand => hne hand.2), hlen]
  · rw [hb, if_pos rfl] at hn
    exact hn
  · rw [hb, if_neg Bool.false_ne_true] at hn
    omega

/-! ### Characters -/

def GetOk (s : Stream) : Prop :=
  s.i_base = true ∨ (0 : BitVec 32).sle (s.i_cnt - 1) = false

theorem Reading.bufCnt_zero (h : Reading s p) (hpush : s.pushedback = false)
    (hneg : (0 : BitVec 32).sle (s.i_cnt - 1) = false) (hbuf : s.i_base = true) :
    s.i_cnt.toNat = 0 := by
  have hlt := (h.buffered hbuf).lt
  rw [bufCnt_eq hpush] at hlt
  by_contra hne
  rw [BitVec.sle_eq_decide, decide_eq_false_iff_not] at hneg
  apply hneg
  have hone : (s.i_cnt - 1).toNat = s.i_cnt.toNat - 1 := by
    rw [BitVec.toNat_sub_of_le (by rw [BitVec.le_def]; change 1 ≤ _; omega)]
    rfl
  rw [BitVec.ofNat_eq_ofNat, BitVec.toInt_zero, BitVec.toInt_eq_toNat_of_lt (by rw [hone]; omega)]
  exact Int.natCast_nonneg _

theorem pos_of_sle (hpos : (0 : BitVec 32).sle (s.i_cnt - 1) = true) : 0 < s.i_cnt.toNat := by
  by_contra hzero
  have hcnt : s.i_cnt = 0 := BitVec.eq_of_toNat_eq (Nat.eq_zero_of_not_pos hzero)
  rw [hcnt] at hpos
  cases hpos

theorem slt_of_sle {cnt : BitVec 32} (h : (0 : BitVec 32).sle cnt = false) :
    (0 : BitVec 32).slt cnt = false := by
  rw [BitVec.sle_eq_decide, decide_eq_false_iff_not] at h
  rw [BitVec.slt_eq_decide, decide_eq_false_iff_not]
  omega

theorem slt_ite {b : Bool} {cnt : BitVec 32} (h : (0 : BitVec 32).slt cnt = false) :
    (0 : BitVec 32).slt (if b then 0 else cnt) = false := by
  split
  · decide
  · exact h

theorem Reading.take (h : Reading s p) (hpush : s.pushedback = false) (hbuf : s.i_base = true)
    (hn : n ≤ s.i_cnt.toNat) :
    p.ahead.take n = s.i_ptr.take n ∧
      Reading { s with i_cnt := s.i_cnt - BitVec.ofNat 32 n, i_ptr := s.i_ptr.drop n }
        (p.skip n) := by
  have hb := h.buffered hbuf
  rw [bufCnt_eq hpush] at hb
  have hnone := h.pushed_none hpush
  have hlt := hb.lt
  have hle := hb.le
  have hcnt : (s.i_cnt - BitVec.ofNat 32 n).toNat = s.i_cnt.toNat - n := by
    have htoNat : (BitVec.ofNat 32 n).toNat = n := by
      rw [BitVec.toNat_ofNat, Nat.mod_eq_of_lt (by omega)]
    rw [BitVec.toNat_sub_of_le (by rw [BitVec.le_def, htoNat]; exact hn), htoNat]
  have hlen : n ≤ (s.i_ptr.take s.i_cnt.toNat).length := by
    rw [List.length_take, Nat.min_eq_left hle]
    exact hn
  have hrest : n ≤ p.file.rest.length := by
    rw [hb.rest, List.length_append]
    omega
  have hskip : p.skip n = ⟨p.file.advance n, none⟩ := by
    unfold PlainReader.skip
    split
    · rename_i hzero
      rw [hzero, ByteFile.advance_zero, ← hnone]
    · rw [hnone]
      rfl
  refine ⟨?_, ?_⟩
  · rw [ahead_none hnone, hb.rest, List.take_append_of_le_length hlen, List.take_take,
      Nat.min_eq_left hn]
  rw [hskip]
  refine ⟨⟨h.read, h.write, h.o_base, h.error, h.bufsize⟩, ?_, ?_, h.offset, h.content, fun _ => ?_,
    fun hb' => ?_, fun heof => ?_⟩
  · change none = if s.pushedback then some s.pushedchar else none
    rw [hpush, if_neg Bool.false_ne_true]
  · intro hp
    change s.pushedback = true at hp
    rw [hpush] at hp
    cases hp
  · change Buffered _ (if s.pushedback then s.pushedi_cnt else s.i_cnt - BitVec.ofNat 32 n) _
    rw [hpush, if_neg Bool.false_ne_true]
    refine ⟨?_, ?_, ?_, ?_⟩
    · rw [hcnt]
      omega
    · change _ ≤ (s.i_ptr.drop n).length
      rw [hcnt, List.length_drop]
      omega
    · change (p.file.advance n).pos + _ = s.file.pos
      have hpos := hb.pos
      rw [ByteFile.pos_advance hrest, hcnt]
      omega
    · change (p.file.advance n).rest = (s.i_ptr.drop n).take _ ++ s.file.rest
      rw [ByteFile.rest_advance, hb.rest, List.drop_append_of_le_length hlen, hcnt, List.drop_take]
  · change s.i_base = false at hb'
    rw [hbuf] at hb'
    cases hb'
  · change s.eof = true at heof
    have hnil := h.eof heof
    rw [ahead_none hnone] at hnil
    rw [hnil, List.length_nil] at hrest
    obtain rfl := Nat.le_zero.mp hrest
    change (PlainReader.mk (p.file.advance 0) none).ahead = []
    rw [ahead_none rfl, ByteFile.advance_zero, hnil]

theorem Reading.atEnd (h : Reading s p) (hpush : s.pushedback = false)
    (hcnt : s.i_base = true → s.bufCnt.toNat = 0) (hrest : s.file.rest = []) {i_cnt : BitVec 32}
    (hbuf : s.i_base = true → i_cnt = 0) (hunbuf : (0 : BitVec 32).slt i_cnt = false)
    {i_ptr : List UInt8} :
    p.ahead = [] ∧ Reading { s with eof := true, i_cnt, i_ptr } p := by
  have hnone := h.pushed_none hpush
  have hfile := h.file_eq hcnt
  have hnil : p.ahead = [] := by
    rw [ahead_none hnone, hfile, hrest]
  refine ⟨hnil, ⟨⟨h.read, h.write, h.o_base, h.error, h.bufsize⟩, h.pushed, ?_, h.offset, h.content,
    fun hb => ?_, fun hb => ?_, fun _ => hnil⟩⟩
  · intro hp
    change s.pushedback = true at hp
    rw [hpush] at hp
    cases hp
  · change s.i_base = true at hb
    change Buffered _ (if s.pushedback then s.pushedi_cnt else i_cnt) _
    rw [hpush, if_neg Bool.false_ne_true, hbuf hb]
    exact ⟨by decide, Nat.zero_le _, congrArg ByteFile.pos hfile, congrArg ByteFile.rest hfile⟩
  · change _ ∧ (0 : BitVec 32).slt (if s.pushedback then s.pushedi_cnt else i_cnt) = false
    rw [hpush, if_neg Bool.false_ne_true]
    exact ⟨hfile, hunbuf⟩

theorem Reading.filled (h : Reading s p) (hpush : s.pushedback = false) (hbuf : s.i_base = true)
    (hcnt : s.bufCnt.toNat = 0) {count taken : ℕ} (hle : count ≤ s.file.rest.length)
    (hsize : count ≤ s.bufsize.toNat) (htaken : taken ≤ count) (hpos : 0 < count) {i_cnt : BitVec 32}
    (hnew : i_cnt.toNat = count - taken) :
    Reading { s with
      file := s.file.advance count
      i_ptr := (s.file.rest.take count).drop taken
      offset := s.offset + BitVec.ofNat 32 count
      i_cnt } (p.skip taken) := by
  have hnone := h.pushed_none hpush
  have hfile := h.file_eq fun _ => hcnt
  have hskip : p.skip taken = ⟨s.file.advance taken, none⟩ := by
    unfold PlainReader.skip
    split
    · rename_i hzero
      obtain ⟨file, pushed⟩ := p
      dsimp only at hnone hfile
      rw [hnone, hfile, hzero, ByteFile.advance_zero]
    · rw [hnone, hfile]
      rfl
  have hmax := (h.bufsize hbuf).2
  rw [hskip]
  refine ⟨⟨h.read, h.write, h.o_base, h.error, h.bufsize⟩, ?_, ?_, ?_, rfl, fun _ => ?_,
    fun hb => ?_, fun heof => ?_⟩
  · change none = if s.pushedback then some s.pushedchar else none
    rw [hpush, if_neg Bool.false_ne_true]
  · intro hp
    change s.pushedback = true at hp
    rw [hpush] at hp
    cases hp
  · change s.offset + BitVec.ofNat 32 count = BitVec.ofNat 32 (s.file.advance count).pos
    rw [h.offset, ByteFile.pos_advance hle, BitVec.ofNat_add]
  · change Buffered _ (if s.pushedback then s.pushedi_cnt else i_cnt) _
    rw [hpush, if_neg Bool.false_ne_true]
    have hlen : ((s.file.rest.take count).drop taken).length = count - taken := by
      rw [List.length_drop, List.length_take, Nat.min_eq_left hle]
    refine ⟨?_, ?_, ?_, ?_⟩
    · omega
    · change i_cnt.toNat ≤ ((s.file.rest.take count).drop taken).length
      rw [hlen, hnew]
    · change (s.file.advance taken).pos + i_cnt.toNat = (s.file.advance count).pos
      rw [ByteFile.pos_advance hle, ByteFile.pos_advance (htaken.trans hle), hnew]
      omega
    · change (s.file.advance taken).rest =
        ((s.file.rest.take count).drop taken).take i_cnt.toNat ++ (s.file.advance count).rest
      rw [List.take_of_length_le (by rw [hlen, hnew]), ByteFile.rest_advance, ByteFile.rest_advance,
        ← List.drop_append_of_le_length (by rw [List.length_take, Nat.min_eq_left hle]; exact htaken),
        List.take_append_drop]
  · change s.i_base = false at hb
    rw [hbuf] at hb
    cases hb
  · change s.eof = true at heof
    have hnil := h.eof heof
    rw [ahead_none hnone, hfile] at hnil
    rw [hnil] at hle
    exact absurd hle (by rw [List.length_nil]; omega)

theorem Reading.readPast (h : Reading s p) (hpush : s.pushedback = false)
    (hcnt : s.i_base = true → s.bufCnt.toNat = 0) {count : ℕ} (hle : count ≤ s.file.rest.length)
    (hpos : 0 < count) {i_cnt : BitVec 32} (hbuf : s.i_base = true → i_cnt = 0)
    (hunbuf : (0 : BitVec 32).slt i_cnt = false) {i_ptr : List UInt8} :
    Reading { s with
      file := s.file.advance count
      i_ptr
      offset := s.offset + BitVec.ofNat 32 count
      i_cnt } (p.skip count) := by
  have hnone := h.pushed_none hpush
  have hfile := h.file_eq hcnt
  have hskip : p.skip count = ⟨s.file.advance count, none⟩ := by
    unfold PlainReader.skip
    rw [if_neg (Nat.ne_of_gt hpos), hnone, hfile]
    rfl
  rw [hskip]
  refine ⟨⟨h.read, h.write, h.o_base, h.error, h.bufsize⟩, ?_, ?_, ?_, rfl, fun hb => ?_, fun _ => ?_,
    fun heof => ?_⟩
  · change none = if s.pushedback then some s.pushedchar else none
    rw [hpush, if_neg Bool.false_ne_true]
  · intro hp
    change s.pushedback = true at hp
    rw [hpush] at hp
    cases hp
  · change s.offset + BitVec.ofNat 32 count = BitVec.ofNat 32 (s.file.advance count).pos
    rw [h.offset, ByteFile.pos_advance hle, BitVec.ofNat_add]
  · change s.i_base = true at hb
    change Buffered _ (if s.pushedback then s.pushedi_cnt else i_cnt) _
    rw [hpush, if_neg Bool.false_ne_true, hbuf hb]
    exact ⟨by decide, Nat.zero_le _, rfl, rfl⟩
  · change _ ∧ (0 : BitVec 32).slt (if s.pushedback then s.pushedi_cnt else i_cnt) = false
    rw [hpush, if_neg Bool.false_ne_true]
    exact ⟨rfl, hunbuf⟩
  · change s.eof = true at heof
    have hnil := h.eof heof
    rw [ahead_none hnone, hfile] at hnil
    rw [hnil] at hle
    exact absurd hle (by rw [List.length_nil]; omega)

theorem Reading.of_eof (h : Reading s p) (heof : s.eof = true) :
    s.pushedback = false ∧ (s.i_base = true → s.bufCnt.toNat = 0) ∧ s.file.rest = [] := by
  have hnil := h.eof heof
  unfold PlainReader.ahead at hnil
  rw [List.append_eq_nil_iff] at hnil
  obtain ⟨hpushed, hrest⟩ := hnil
  have hpush : s.pushedback = false := by
    rw [Bool.eq_false_iff]
    intro hp
    rw [h.pushed, hp, if_pos rfl] at hpushed
    cases hpushed
  have hcnt : s.i_base = true → s.bufCnt.toNat = 0 := by
    intro hbuf
    have hb := h.buffered hbuf
    rw [hb.rest, List.append_eq_nil_iff] at hrest
    have hlen := congrArg List.length hrest.1
    rw [List.length_take, Nat.min_eq_left hb.le] at hlen
    exact hlen
  refine ⟨hpush, hcnt, ?_⟩
  rw [← h.file_eq hcnt]
  exact hrest

theorem Reading.unpush (h : Reading s p) (hpush : s.pushedback = true) :
    p.ahead.head? = some s.pushedchar ∧
      Reading { s with pushedback := false, i_cnt := s.pushedi_cnt } (p.skip 1) := by
  have hp : p.pushed = some s.pushedchar := by
    rw [h.pushed, hpush, if_pos rfl]
  have hcnt : s.bufCnt = s.pushedi_cnt := by
    unfold Stream.bufCnt
    rw [hpush, if_pos rfl]
  have hskip : p.skip 1 = ⟨p.file, none⟩ := by
    unfold PlainReader.skip
    rw [if_neg Nat.one_ne_zero, hp]
    exact congrArg (fun f => PlainReader.mk f none) ByteFile.advance_zero
  have hahead : p.ahead.head? = some s.pushedchar := by
    unfold PlainReader.ahead
    rw [hp]
    rfl
  have hb := h.buffered
  have hu := h.unbuffered
  rw [hcnt] at hb hu
  rw [hskip]
  refine ⟨hahead, ⟨h.read, h.write, h.o_base, h.error, h.bufsize⟩, rfl, nofun, h.offset, h.content,
    fun hbuf => ?_, fun hbuf => ?_, fun heof => ?_⟩
  · exact ⟨(hb hbuf).lt, (hb hbuf).le, (hb hbuf).pos, (hb hbuf).rest⟩
  · exact hu hbuf
  · rw [(h.of_eof heof).1] at hpush
    cases hpush

theorem Stream.eof_eq (heof : s.eof = true) {i_cnt : BitVec 32} :
    { s with i_cnt } = { s with eof := true, i_cnt, i_ptr := s.i_ptr } := by
  rw [← heof]

theorem Reading.filbuf (h : Reading s p) (hos : os.NoError) {i_cnt : BitVec 32}
    (hcnt : s.pushedback = false → s.i_base = true → s.bufCnt.toNat = 0)
    (hunbuf : (0 : BitVec 32).slt i_cnt = false) :
    ∃ s', filbuf os { s with i_cnt } = (s', p.ahead.head?) ∧ Reading s' (p.skip 1) := by
  unfold UnixLib.filbuf
  dsimp only
  by_cases heof : s.eof = true
  · obtain ⟨hpush, hzero, hrest⟩ := h.of_eof heof
    obtain ⟨hnil, hread⟩ := @Reading.atEnd s p h hpush hzero hrest 0
      (fun _ => rfl) (by decide) s.i_ptr
    rw [if_pos heof, hnil, skip_of_ahead_nil hnil]
    refine ⟨_, rfl, ?_⟩
    rw [← Stream.eof_eq heof] at hread
    exact hread
  · rw [if_neg heof]
    by_cases hpush : s.pushedback = true
    · obtain ⟨hahead, hread⟩ := h.unpush hpush
      rw [if_pos hpush, hahead]
      exact ⟨_, rfl, hread⟩
    · rw [if_neg hpush]
      have hpush := Bool.eq_false_iff.mpr hpush
      have hnone := h.pushed_none hpush
      have hzero := hcnt hpush
      have hfile := h.file_eq hzero
      by_cases hrest : s.file.rest = []
      · have hfill := @fillInput_nil os { s with i_cnt } hos hrest fun hbuf => (h.bufsize hbuf).1
        obtain ⟨hnil, hread⟩ := @Reading.atEnd s p h hpush hzero hrest
          (if s.i_base then 0 else i_cnt) (fun hbuf => if_pos hbuf) (slt_ite hunbuf) []
        rw [hfill, hnil, skip_of_ahead_nil hnil]
        exact ⟨_, rfl, hread⟩
      · obtain ⟨count, hfill, hpos, hle, hsize, hone⟩ :=
          @fillInput_cons os { s with i_cnt } hos hrest fun hbuf => (h.bufsize hbuf).1
        have hhead : (s.file.rest.take count).head? = p.ahead.head? := by
          rw [ahead_none hnone, hfile, List.head?_take, if_neg (Nat.ne_of_gt hpos)]
        rw [hfill]
        dsimp only
        by_cases hbuf : s.i_base = true
        · have hmax := (h.bufsize hbuf).2
          have hcount := hsize hbuf
          have hnew : (BitVec.ofNat 32 count - 1).toNat = count - 1 := by
            have htoNat : (BitVec.ofNat 32 count).toNat = count := by
              rw [BitVec.toNat_ofNat, Nat.mod_eq_of_lt (by omega)]
            rw [BitVec.toNat_sub_of_le (by rw [BitVec.le_def, htoNat]; exact hpos), htoNat]
            rfl
          have hread := h.filled hpush hbuf (hzero hbuf) hle hcount hpos hpos hnew
          rw [List.drop_one] at hread
          have hnot : ¬ (!s.i_base) = true := by
            rw [hbuf]
            exact Bool.false_ne_true
          rw [if_neg hnot, hhead]
          exact ⟨_, rfl, hread⟩
        · have hbuf := Bool.eq_false_iff.mpr hbuf
          have hnot : (!s.i_base) = true := by
            rw [hbuf]
            rfl
          have hgood : ¬ (s.eof || s.error) = true := by
            rw [Bool.eq_false_iff.mpr heof, h.error]
            exact Bool.false_ne_true
          obtain rfl := hone hbuf
          rw [if_pos hnot, if_neg hgood, hhead]
          exact ⟨_, rfl, h.readPast hpush hzero hle hpos (fun hb => absurd hb (by rw [hbuf]; decide)) hunbuf⟩

theorem Reading.fgetc (h : Reading s p) (hos : os.NoError) (hget : GetOk s) :
    ∃ s', fgetc os s = some (s', p.ahead.head?) ∧ Reading s' (p.skip 1) := by
  unfold UnixLib.fgetc
  dsimp only
  by_cases hpos : (0 : BitVec 32).sle (s.i_cnt - 1) = true
  · have hcnt := pos_of_sle hpos
    have hbuf : s.i_base = true := by
      rcases hget with hbuf | hneg
      · exact hbuf
      · rw [hpos] at hneg
        cases hneg
    have hpush : s.pushedback = false := by
      rw [Bool.eq_false_iff]
      intro hp
      rw [h.pushed_cnt hp] at hcnt
      exact absurd hcnt (by decide)
    have hb := (h.buffered hbuf).le
    rw [bufCnt_eq hpush] at hb
    rw [if_pos hpos]
    obtain ⟨htake, hread⟩ := h.take hpush hbuf hcnt
    cases hptr : s.i_ptr with
    | nil =>
      rw [hptr, List.length_nil] at hb
      omega
    | cons c i_ptr =>
      rw [hptr] at htake hread
      have hhead : p.ahead.head? = some c := by
        have hone := congrArg List.head? htake
        rw [List.head?_take, if_neg Nat.one_ne_zero] at hone
        exact hone
      rw [hhead]
      exact ⟨_, rfl, hread⟩
  · have hneg := Bool.eq_false_iff.mpr hpos
    have hcnt : s.pushedback = false → s.i_base = true → s.bufCnt.toNat = 0 := by
      intro hpush hbuf
      rw [bufCnt_eq hpush]
      exact h.bufCnt_zero hpush hneg hbuf
    obtain ⟨s', hfil, hread⟩ := h.filbuf hos hcnt (slt_of_sle hneg)
    rw [if_neg hpos, hfil]
    exact ⟨s', rfl, hread⟩

def PeekOk (s : Stream) : Prop :=
  s.i_base = true ∨ s.eof = true ∨ s.pushedback = true ∨ s.file.rest = []

theorem skip_zero : p.skip 0 = p :=
  if_pos rfl

theorem Reading.bufCnt_zero' (h : Reading s p) (hpush : s.pushedback = false)
    (hneg : (0 : BitVec 32).slt s.i_cnt = false) (hbuf : s.i_base = true) : s.i_cnt = 0 := by
  have hlt := (h.buffered hbuf).lt
  rw [bufCnt_eq hpush] at hlt
  rw [BitVec.slt_eq_decide, decide_eq_false_iff_not, BitVec.ofNat_eq_ofNat, BitVec.toInt_zero,
    BitVec.toInt_eq_toNat_of_lt (by omega)] at hneg
  refine BitVec.eq_of_toNat_eq ?_
  change s.i_cnt.toNat = 0
  omega

theorem Reading.peekChar (h : Reading s p) (hos : os.NoError) (hpeek : PeekOk s) :
    ∃ s', peekChar os s = some (s', p.ahead.head?) ∧ Reading s' p := by
  unfold UnixLib.peekChar
  by_cases heof : s.eof = true
  · rw [if_pos heof, h.eof heof]
    exact ⟨s, rfl, h⟩
  · rw [if_neg heof]
    by_cases hpush : s.pushedback = true
    · rw [if_pos hpush, (h.unpush hpush).1]
      exact ⟨s, rfl, h⟩
    · rw [if_neg hpush]
      have hpush := Bool.eq_false_iff.mpr hpush
      have hnone := h.pushed_none hpush
      by_cases hpos : (0 : BitVec 32).slt s.i_cnt = true
      · have hbuf : s.i_base = true := by
          by_contra hbuf
          have hneg := (h.unbuffered (Bool.eq_false_iff.mpr hbuf)).2
          rw [bufCnt_eq hpush, hpos] at hneg
          cases hneg
        have hcnt : 1 ≤ s.i_cnt.toNat := by
          by_contra hzero
          have hcnt : s.i_cnt = 0 := BitVec.eq_of_toNat_eq (by change _ = 0; omega)
          rw [hcnt] at hpos
          cases hpos
        have hle := (h.buffered hbuf).le
        rw [bufCnt_eq hpush] at hle
        have htake := (h.take hpush hbuf hcnt).1
        rw [if_pos hpos]
        cases hptr : s.i_ptr with
        | nil =>
          rw [hptr, List.length_nil] at hle
          omega
        | cons c i_ptr =>
          rw [hptr] at htake
          have hhead : p.ahead.head? = some c := by
            have hone := congrArg List.head? htake
            rw [List.head?_take, if_neg Nat.one_ne_zero] at hone
            exact hone
          rw [hhead]
          exact ⟨s, rfl, h⟩
      · rw [if_neg hpos]
        have hneg := Bool.eq_false_iff.mpr hpos
        have hcnt := h.bufCnt_zero' hpush hneg
        have hzero : s.i_base = true → s.bufCnt.toNat = 0 := by
          intro hbuf
          rw [bufCnt_eq hpush, hcnt hbuf]
          rfl
        have hfile := h.file_eq hzero
        by_cases hrest : s.file.rest = []
        · have hfill := fillInput_nil hos hrest fun hbuf => (h.bufsize hbuf).1
          obtain ⟨hnil, hread⟩ := @Reading.atEnd s p h hpush hzero hrest
            (if s.i_base then 0 else s.i_cnt) (fun hbuf => if_pos hbuf) (slt_ite hneg) []
          rw [hfill, hnil]
          exact ⟨_, rfl, hread⟩
        · have hbuf : s.i_base = true := by
            rcases hpeek with hbuf | he | hp | hr
            · exact hbuf
            · exact absurd he heof
            · rw [hpush] at hp
              cases hp
            · exact absurd hr hrest
          obtain ⟨count, hfill, hpos, hle, hsize, -⟩ :=
            fillInput_cons hos hrest fun hbuf => (h.bufsize hbuf).1
          have hhead : (s.file.rest.take count).head? = p.ahead.head? := by
            rw [ahead_none hnone, hfile, List.head?_take, if_neg (Nat.ne_of_gt hpos)]
          have hmax := (h.bufsize hbuf).2
          have hcount := hsize hbuf
          have hnew : (BitVec.ofNat 32 count).toNat = count - 0 := by
            rw [BitVec.toNat_ofNat, Nat.mod_eq_of_lt (by omega), Nat.sub_zero]
          have hread := h.filled hpush hbuf (hzero hbuf) hle hcount (Nat.zero_le _) hpos hnew
          rw [List.drop_zero, skip_zero] at hread
          have hnot : ¬ (!s.i_base) = true := by
            rw [hbuf]
            exact Bool.false_ne_true
          rw [hfill]
          dsimp only
          rw [if_neg hnot, hhead]
          exact ⟨_, rfl, hread⟩

/-! ### Pushing back and the position -/

theorem Reading.ungetc (h : Reading s p) (c : Option UInt8) :
    ∃ s', ReadResult.char (ungetc c s).2 = (plainReadStep (.ungetc c) p).2 ∧
      (UnixLib.ungetc c s).1 = s' ∧ Reading s' (plainReadStep (.ungetc c) p).1 := by
  unfold UnixLib.ungetc plainReadStep
  have hnot : ¬ (!s.read) = true := by
    rw [h.read]
    exact Bool.false_ne_true
  rw [if_neg hnot]
  cases c with
  | none => exact ⟨s, rfl, rfl, h⟩
  | some c =>
    dsimp only
    by_cases hpush : s.pushedback = true
    · have hsome : p.pushed.isSome = true := by
        rw [h.pushed, hpush]
        rfl
      rw [if_pos hpush, if_pos hsome]
      exact ⟨s, rfl, rfl, h⟩
    · have hpush' := Bool.eq_false_iff.mpr hpush
      have hsome : ¬ p.pushed.isSome = true := by
        rw [h.pushed_none hpush']
        exact Bool.false_ne_true
      have hb := h.buffered
      have hu := h.unbuffered
      rw [bufCnt_eq hpush'] at hb hu
      rw [if_neg hpush, if_neg hsome]
      refine ⟨_, rfl, rfl, ⟨h.read, h.write, h.o_base, h.error, h.bufsize⟩, rfl, fun _ => rfl,
        h.offset, h.content, fun hbuf => ?_, fun hbuf => ?_, nofun⟩
      · exact ⟨(hb hbuf).lt, (hb hbuf).le, (hb hbuf).pos, (hb hbuf).rest⟩
      · exact hu hbuf

theorem Reading.fgetpos (h : Reading s p) : fgetpos os s = (s, some p.position) := by
  have hnot : ¬ (s.read && s.write) = true := by
    rw [h.write, Bool.and_false]
    exact Bool.false_ne_true
  unfold UnixLib.fgetpos PlainReader.position
  rw [if_neg hnot]
  dsimp only
  rw [if_neg (by decide), h.o_base, if_neg Bool.false_ne_true, h.offset, h.pushed]
  by_cases hbuf : s.i_base = true
  · have hpos := (h.buffered hbuf).pos
    unfold Stream.bufCnt at hpos
    rw [if_pos hbuf, ← hpos]
    by_cases hpush : s.pushedback = true
    · rw [if_pos hpush, if_pos hpush, if_pos hpush, BitVec.ofNat_add, BitVec.ofNat_toNat,
        BitVec.setWidth_eq]
      change (s, some _) = (s, some (BitVec.ofNat 32 p.file.pos - 1))
      congr 2
      bv_omega
    · rw [if_neg hpush, if_neg hpush, if_neg hpush, BitVec.ofNat_add, BitVec.ofNat_toNat,
        BitVec.setWidth_eq]
      change (s, some _) = (s, some (BitVec.ofNat 32 p.file.pos - 0))
      congr 2
      bv_omega
  · rw [if_neg hbuf, (h.unbuffered (Bool.eq_false_iff.mpr hbuf)).1]
    by_cases hpush : s.pushedback = true
    · rw [if_pos hpush, if_pos hpush]
      rfl
    · rw [if_neg hpush, if_neg hpush]
      rfl

theorem Reading.seekTo (h : Reading s p) (hseek : ∀ target, os.seeks target = true)
    {offset : BitVec 32} {fromEnd : Bool} :
    ∃ s', seekTo os offset fromEnd s = (s', 0) ∧ Reading s' ⟨p.file.seek
      (if fromEnd then BitVec.ofNat 32 p.file.content.length + offset else offset).toNat, none⟩ := by
  have hnot : ¬ s.write = true := by
    rw [h.write]
    exact Bool.false_ne_true
  have hfile : ∀ target, p.file.seek target = s.file.seek target := by
    intro target
    refine ByteFile.ext ?_ rfl
    change p.file.content ++ List.replicate (target - p.file.content.length) 0 = _
    rw [h.content]
    rfl
  have hslt : (0 : BitVec 32).slt 0 = false := by decide
  have hlt : (0 : BitVec 32).toNat < 2 ^ 31 := by decide
  unfold UnixLib.seekTo osSeek
  rw [if_neg hnot]
  dsimp only
  rw [if_neg (by decide), hfile, h.content, if_pos (hseek _)]
  refine ⟨_, rfl, ⟨h.read, h.write, h.o_base, h.error, h.bufsize⟩, rfl, nofun, ?_, rfl, fun _ => ?_,
    fun _ => ⟨rfl, hslt⟩, nofun⟩
  · exact ((BitVec.ofNat_toNat 32 _).trans (BitVec.setWidth_eq _)).symm
  · exact ⟨hlt, Nat.zero_le _, rfl, rfl⟩

theorem Reading.fseeko (h : Reading s p) (hseek : ∀ target, os.seeks target = true)
    (offset : BitVec 32) (w : Whence) :
    ∃ s', ReadResult.status (fseeko os offset w s).2 = (plainReadStep (.fseek offset w) p).2 ∧
      (UnixLib.fseeko os offset w s).1 = s' ∧ Reading s' (plainReadStep (.fseek offset w) p).1 := by
  unfold UnixLib.fseeko
  cases w with
  | SEEK_SET =>
    obtain ⟨s', hto, hread⟩ := @Reading.seekTo os s p h hseek offset false
    dsimp only
    rw [hto]
    exact ⟨s', rfl, rfl, hread⟩
  | SEEK_CUR =>
    obtain ⟨s', hto, hread⟩ := @Reading.seekTo os s p h hseek (p.position + offset) false
    dsimp only
    rw [h.fgetpos]
    dsimp only
    rw [hto]
    exact ⟨s', rfl, rfl, hread⟩
  | SEEK_END =>
    obtain ⟨s', hto, hread⟩ := @Reading.seekTo os s p h hseek offset true
    dsimp only
    rw [hto]
    exact ⟨s', rfl, rfl, hread⟩
  | invalid => exact ⟨s, rfl, rfl, h⟩

/-! ### `fread` -/

theorem storeBytes_zero {mem bytes : List UInt8} :
    storeBytes mem 0 bytes = bytes ++ mem.drop bytes.length := by
  unfold storeBytes
  rw [List.take_zero, List.nil_append, Nat.zero_add]

theorem storeBytes_append {mem a b : List UInt8} :
    storeBytes (storeBytes mem 0 a) a.length b = storeBytes mem 0 (a ++ b) := by
  rw [storeBytes_zero, storeBytes_zero]
  unfold storeBytes
  rw [List.take_left, ← List.drop_drop, List.drop_left, List.drop_drop, List.length_append]

theorem length_pushed_le : p.pushed.toList.length ≤ 1 := by
  cases p.pushed with
  | none => exact Nat.zero_le 1
  | some c => exact le_refl 1

theorem ahead_skip (h : n ≤ p.ahead.length) : (p.skip n).ahead = p.ahead.drop n := by
  unfold PlainReader.skip
  split
  · rename_i hzero
    rw [hzero, List.drop_zero]
  · rename_i hne
    have hpush := @length_pushed_le p
    have hnil : p.pushed.toList.drop n = [] := List.drop_eq_nil_of_le (by omega)
    rw [ahead_none rfl, ByteFile.rest_advance]
    unfold PlainReader.ahead
    rw [List.drop_append, hnil, List.nil_append]

theorem skip_skip {m : ℕ} (h : n ≤ p.ahead.length) : (p.skip n).skip m = p.skip (n + m) := by
  by_cases hn : n = 0
  · rw [hn, skip_zero, Nat.zero_add]
  · by_cases hm : m = 0
    · rw [hm, skip_zero, Nat.add_zero]
    · have hpush := @length_pushed_le p
      have hle : n - p.pushed.toList.length ≤ p.file.rest.length := by
        unfold PlainReader.ahead at h
        rw [List.length_append] at h
        omega
      unfold PlainReader.skip
      rw [if_neg hn, if_neg hm, if_neg (by omega)]
      dsimp only
      rw [Option.toList_none, List.length_nil, Nat.sub_zero, ByteFile.advance_advance hle,
        Nat.sub_add_comm (by omega)]

/-- **In the middle of an `fread`**: `d` bytes are delivered, each at its place, and `to_read` bytes
are still wanted. -/
structure Delivered (o : ReadObjects) (p : PlainReader) (s : Stream) (mem : List UInt8)
    (d to_read : ℕ) : Prop where
  le : d ≤ p.ahead.length
  total : d + to_read = o.data.length
  mem_eq : mem = storeBytes o.data 0 (p.ahead.take d)
  reading : Reading s (p.skip d)

variable {o : ReadObjects} {mem : List UInt8} {d to_read : ℕ}

theorem Reading.delivered (h : Reading s p) (o : ReadObjects) :
    Delivered o p s o.data 0 o.data.length := by
  refine ⟨Nat.zero_le _, Nat.zero_add _, ?_, h⟩
  rw [List.take_zero, storeBytes_zero]
  rfl

theorem Delivered.step (h : Delivered o p s mem d to_read) {bytes : List UInt8}
    (hbytes : bytes = (p.skip d).ahead.take n) (hn : n ≤ (p.skip d).ahead.length)
    (hle : n ≤ to_read) (hread : Reading s' ((p.skip d).skip n)) :
    Delivered o p s' (storeBytes mem d bytes) (d + n) (to_read - n) := by
  have htotal := h.total
  rw [ahead_skip h.le] at hbytes
  rw [ahead_skip h.le, List.length_drop] at hn
  rw [skip_skip h.le] at hread
  have hlen : (p.ahead.take d).length = d := by
    rw [List.length_take, Nat.min_eq_left h.le]
  have hd := h.le
  refine ⟨by omega, by omega, ?_, hread⟩
  rw [h.mem_eq, hbytes, List.take_add]
  conv_lhs => arg 2; rw [← hlen]
  rw [storeBytes_append]

theorem Reading.readPushed (h : Reading s p) (hpos : 0 < o.data.length) :
    ∃ s' mem d to_read, readPushed o.data.length o.data s = (s', mem, d, to_read) ∧
      Delivered o p s' mem d to_read ∧ s'.pushedback = false := by
  unfold UnixLib.readPushed
  by_cases hpush : s.pushedback = true
  · obtain ⟨hhead, hread⟩ := h.unpush hpush
    have hstep : [s.pushedchar] = (p.skip 0).ahead.take 1 := by
      rw [skip_zero]
      cases hahead : p.ahead with
      | nil =>
        rw [hahead] at hhead
        cases hhead
      | cons c rest =>
        rw [hahead] at hhead
        obtain rfl := Option.some.inj hhead
        rfl
    have hone : 1 ≤ (p.skip 0).ahead.length := by
      have hlen := congrArg List.length hstep
      rw [List.length_take, List.length_singleton] at hlen
      omega
    rw [if_pos hpush]
    exact ⟨_, _, _, _, rfl, (h.delivered o).step hstep hone hpos (by rw [skip_zero]; exact hread),
      rfl⟩
  · rw [if_neg hpush]
    exact ⟨_, _, _, _, rfl, h.delivered o, Bool.eq_false_iff.mpr hpush⟩

theorem Delivered.readBuffer (h : Delivered o p s mem d to_read) (hpush : s.pushedback = false) :
    ∃ s' mem' d' to_read', readBuffer d to_read mem s = some (s', mem', d', to_read') ∧
      Delivered o p s' mem' d' to_read' ∧ s'.pushedback = false ∧
      (0 < to_read' → s'.i_base = true → s'.bufCnt.toNat = 0) := by
  unfold UnixLib.readBuffer
  by_cases hbuf : s.i_base = true
  · have hb := (h.reading.buffered hbuf)
    rw [bufCnt_eq hpush] at hb
    rw [if_pos hbuf]
    dsimp only
    generalize hbytes : (if s.i_cnt.toNat < to_read then s.i_cnt.toNat else to_read) = bytes
    have hle : bytes ≤ s.i_cnt.toNat ∧ bytes ≤ to_read ∧
        (0 < to_read - bytes → bytes = s.i_cnt.toNat) := by
      split at hbytes <;> omega
    obtain ⟨hcnt, hto, hall⟩ := hle
    obtain ⟨htake, hread⟩ := h.reading.take hpush hbuf hcnt
    have hptr := hb.le
    have hahead : bytes ≤ (p.skip d).ahead.length := by
      rw [ahead_none (h.reading.pushed_none hpush), hb.rest, List.length_append, List.length_take]
      omega
    rw [if_neg (by omega)]
    refine ⟨_, _, _, _, rfl, h.step htake.symm hahead hto hread, hpush, fun hleft _ => ?_⟩
    -- the buffer is used up when there is more to read
    change (if s.pushedback then s.pushedi_cnt else s.i_cnt - BitVec.ofNat 32 bytes).toNat = 0
    rw [hpush, if_neg Bool.false_ne_true, hall hleft, BitVec.ofNat_toNat, BitVec.setWidth_eq,
      BitVec.sub_self]
    rfl
  · rw [if_neg hbuf]
    exact ⟨_, _, _, _, rfl, h, hpush, fun _ hb => absurd hb hbuf⟩

/-- Every `read` hands over all that it is asked for and that there is. -/
def StdioOs.CompleteRead (os : StdioOs) : Prop :=
  ∀ i n, os.reads i n = some n

theorem osRead_complete (hos : os.CompleteRead) :
    osRead os i f n = (f.advance (min n f.rest.length), some (f.rest.take n)) := by
  have htake : f.rest.take (min n f.rest.length) = f.rest.take n := by
    rw [← List.take_take, List.take_length]
  unfold osRead
  rw [hos]
  dsimp only
  rw [htake]

theorem Reading.i_cnt_zero (h : Reading s p) (hpush : s.pushedback = false)
    (hcnt : s.i_base = true → s.bufCnt.toNat = 0) :
    (s.i_base = true → s.i_cnt = 0) ∧ (0 : BitVec 32).slt s.i_cnt = false := by
  have hzero : s.i_base = true → s.i_cnt = 0 := by
    intro hbuf
    refine BitVec.eq_of_toNat_eq ?_
    rw [← bufCnt_eq hpush, hcnt hbuf]
    rfl
  refine ⟨hzero, ?_⟩
  by_cases hbuf : s.i_base = true
  · rw [hzero hbuf]
    decide
  · have hunbuf := (h.unbuffered (Bool.eq_false_iff.mpr hbuf)).2
    rw [bufCnt_eq hpush] at hunbuf
    exact hunbuf

theorem Reading.readEnd (h : Reading s p) (hpush : s.pushedback = false)
    (hcnt : s.i_base = true → s.bufCnt.toNat = 0) (hrest : s.file.rest = []) :
    p.ahead = [] ∧ Reading { s with eof := true } p :=
  have hzero := h.i_cnt_zero hpush hcnt
  h.atEnd hpush hcnt hrest hzero.1 hzero.2

theorem Delivered.eq_length (h : Delivered o p s mem d to_read) (hend : (p.skip d).ahead = []) :
    d = p.ahead.length := by
  rw [ahead_skip h.le] at hend
  exact le_antisymm h.le (List.drop_eq_nil_iff.mp hend)

theorem Delivered.readLoop (h : Delivered o p s mem d to_read) (fuel : ℕ) (hos : os.CompleteRead)
    (hpush : s.pushedback = false)
    (hcnt : 0 < to_read → s.i_base = true → s.bufCnt.toNat = 0) :
    ∃ s' mem' d' left, readLoop os d (fuel + 2) 0 to_read s mem = some (s', mem', left) ∧
      Delivered o p s' mem' d' left ∧ (left = 0 ∨ d' = p.ahead.length) := by
  by_cases hzero : to_read = 0
  · rw [UnixLib.readLoop, if_pos hzero]
    refine ⟨s, mem, d, 0, rfl, ?_, Or.inl rfl⟩
    rw [← hzero]
    exact h
  · have hpos := Nat.pos_of_ne_zero hzero
    rw [UnixLib.readLoop, if_neg hzero, osRead_complete hos]
    dsimp only
    by_cases hrest : s.file.rest = []
    · obtain ⟨hend, hread⟩ := h.reading.readEnd hpush (hcnt hpos) hrest
      rw [hrest, List.take_nil, if_pos rfl, List.length_nil, Nat.min_zero, ByteFile.advance_zero]
      refine ⟨_, mem, d, to_read, rfl, ⟨h.le, h.total, h.mem_eq, hread⟩, Or.inr ?_⟩
      exact h.eq_length hend
    · -- one read takes all that is wanted, or all that there is
      have hfile := h.reading.file_eq (hcnt hpos)
      have hahead : (p.skip d).ahead = s.file.rest := by
        rw [ahead_none (h.reading.pushed_none hpush), hfile]
      have hlen : 0 < s.file.rest.length := List.length_pos_iff.mpr hrest
      have hcount : (s.file.rest.take to_read).length = min to_read s.file.rest.length :=
        List.length_take
      have hne : s.file.rest.take to_read ≠ [] := by
        intro hnil
        rw [hnil, List.length_nil] at hcount
        omega
      have htake : s.file.rest.take to_read =
          (p.skip d).ahead.take (min to_read s.file.rest.length) := by
        rw [hahead, ← List.take_take, List.take_length]
      have hle : min to_read s.file.rest.length ≤ s.file.rest.length := Nat.min_le_right _ _
      have hread := @Reading.readPast s (p.skip d) h.reading hpush (hcnt hpos)
        (min to_read s.file.rest.length) hle (by omega) s.i_cnt
        (h.reading.i_cnt_zero hpush (hcnt hpos)).1 (h.reading.i_cnt_zero hpush (hcnt hpos)).2 s.i_ptr
      have hstep := h.step htake (by rw [hahead]; exact hle) (Nat.min_le_left _ _) hread
      rw [if_neg hne, hcount, UnixLib.readLoop]
      by_cases hall : to_read - min to_read s.file.rest.length = 0
      · rw [if_pos hall]
        rw [hall] at hstep
        exact ⟨_, _, _, 0, rfl, hstep, Or.inl rfl⟩
      · -- the next one finds the end of the file
        have hrest' : (s.file.advance (min to_read s.file.rest.length)).rest = [] := by
          rw [ByteFile.rest_advance]
          exact List.drop_eq_nil_of_le (by omega)
        obtain ⟨hend, hread'⟩ := hstep.reading.readEnd hpush (hcnt hpos) hrest'
        rw [if_neg hall, osRead_complete hos]
        dsimp only
        rw [hrest', List.take_nil, if_pos rfl, List.length_nil, Nat.min_zero, ByteFile.advance_zero]
        refine ⟨_, _, _, _, rfl, ⟨hstep.le, hstep.total, hstep.mem_eq, hread'⟩, Or.inr ?_⟩
        exact hstep.eq_length hend

theorem objects_of_left {size count left : ℕ} (hsize : 0 < size) (hleft : left ≤ size * count) :
    count - (left + size - 1) / size = (size * count - left) / size := by
  have hdiv := Nat.div_add_mod (left + size - 1) size
  have hmod := Nat.mod_lt (left + size - 1) hsize
  generalize (left + size - 1) / size = c at hdiv ⊢
  have hle : c ≤ count := by
    by_contra hlt
    have hmul := Nat.mul_le_mul_left size (Nat.succ_le_of_lt (not_le.mp hlt))
    rw [Nat.mul_succ] at hmul
    omega
  have hmul := Nat.mul_le_mul_left size hle
  symm
  refine Nat.div_eq_of_lt_le ?_ ?_
  · rw [Nat.sub_mul, Nat.mul_comm count, Nat.mul_comm c]
    omega
  · rw [Nat.succ_mul, Nat.sub_mul, Nat.mul_comm count, Nat.mul_comm c]
    omega

def Stream.ahead (s : Stream) : ℕ :=
  (if s.pushedback then 1 else 0) + (if s.i_base then s.bufCnt.toNat else 0) + s.file.rest.length

theorem Reading.length_ahead (h : Reading s p) : p.ahead.length = s.ahead := by
  have hpush : p.pushed.toList.length = if s.pushedback then 1 else 0 := by
    rw [h.pushed]
    split
    · rfl
    · rfl
  unfold PlainReader.ahead Stream.ahead
  rw [List.length_append, hpush, Nat.add_assoc]
  congr 1
  by_cases hbuf : s.i_base = true
  · have hb := h.buffered hbuf
    rw [if_pos hbuf, hb.rest, List.length_append, List.length_take, Nat.min_eq_left hb.le]
  · rw [if_neg hbuf, (h.unbuffered (Bool.eq_false_iff.mpr hbuf)).1, Nat.zero_add]

/-- In the loop of `fread` every `read` hands over all that it is asked for and that there is, and what is
missing in the end can be rounded up to whole objects. -/
structure FreadOk (os : StdioOs) (o : ReadObjects) (s : Stream) : Prop where
  complete : os.CompleteRead
  left : o.data.length - s.ahead + o.size ≤ 2 ^ 32

theorem Reading.fread (h : Reading s p) (fuel : ℕ) (hok : FreadOk os o s) :
    ∃ s' data count, fread (fuel + 2) os o s = some (s', data, count) ∧
      ReadResult.objects data count = (plainReadStep (.fread o) p).2 ∧
      Reading s' (plainReadStep (.fread o) p).1 := by
  have hmod : o.size * o.count % 2 ^ 32 = o.data.length := by
    rw [← o.length_eq, Nat.mod_eq_of_lt o.length_lt]
  -- nothing is delivered at the end of the file, or if nothing is wanted
  have hnothing : p.ahead.take o.data.length = [] → ReadResult.objects o.data 0 =
      (plainReadStep (.fread o) p).2 ∧ Reading s (plainReadStep (.fread o) p).1 := by
    intro hnil
    unfold plainReadStep
    dsimp only
    rw [hnil, List.length_nil, Nat.zero_div, skip_zero, storeBytes_zero]
    exact ⟨rfl, h⟩
  unfold UnixLib.fread
  dsimp only
  rw [if_pos h.read, h.error, Bool.or_false, hmod]
  by_cases heof : s.eof = true
  · obtain ⟨hresult, hread⟩ := hnothing (by rw [h.eof heof, List.take_nil])
    rw [if_pos heof]
    exact ⟨s, o.data, 0, rfl, hresult, hread⟩
  · rw [if_neg heof]
    by_cases hzero : o.data.length = 0
    · obtain ⟨hresult, hread⟩ := hnothing (by rw [hzero, List.take_zero])
      rw [if_pos hzero]
      exact ⟨s, o.data, 0, rfl, hresult, hread⟩
    · rw [if_neg hzero]
      obtain ⟨s₁, mem₁, d₁, to₁, hpushed, hd₁, hpush₁⟩ :=
        h.readPushed (Nat.pos_of_ne_zero hzero)
      obtain ⟨s₂, mem₂, d₂, to₂, hbuffer, hd₂, hpush₂, hcnt₂⟩ := hd₁.readBuffer hpush₁
      obtain ⟨s₃, mem₃, d₃, left, hloop, hd₃, hend⟩ :=
        hd₂.readLoop fuel hok.complete hpush₂ hcnt₂
      rw [hpushed]
      dsimp only
      rw [hbuffer]
      dsimp only [Option.bind_eq_bind, Option.bind_some]
      rw [hloop]
      dsimp only [Option.bind_some]
      have htotal := hd₃.total
      have hbytes : p.ahead.take o.data.length = p.ahead.take d₃ := by
        rcases hend with hleft | hlen
        · rw [← htotal, hleft, Nat.add_zero]
        · rw [List.take_of_length_le (by omega), List.take_of_length_le (by omega)]
      have hcount : (if left ≠ 0 then o.count - (left + o.size - 1) % 2 ^ 32 / o.size
          else o.count) = d₃ / o.size := by
        have hsize : 0 < o.size := by
          by_contra hnone
          apply hzero
          rw [o.length_eq, Nat.eq_zero_of_not_pos hnone, Nat.zero_mul]
        have hd : d₃ = o.size * o.count - left := by
          rw [← o.length_eq]
          omega
        have hobjects := objects_of_left hsize (show left ≤ o.size * o.count by
          rw [← o.length_eq]
          omega)
        by_cases hleft : left = 0
        · rw [if_neg (not_not.mpr hleft), hd, ← hobjects, hleft, Nat.zero_add,
            Nat.div_eq_of_lt (by omega), Nat.sub_zero]
        · have hlen := hend.resolve_left hleft
          have hfit := hok.left
          rw [← h.length_ahead] at hfit
          rw [if_pos hleft, Nat.mod_eq_of_lt (by omega), hobjects, hd]
      refine ⟨s₃, mem₃, _, rfl, ?_, ?_⟩
      · unfold plainReadStep
        dsimp only
        rw [hcount, hbytes, List.length_take, Nat.min_eq_left hd₃.le, hd₃.mem_eq]
      · unfold plainReadStep
        dsimp only
        rw [hbytes, List.length_take, Nat.min_eq_left hd₃.le]
        exact hd₃.reading

/-! ### Runs -/

/-- **When a call does what plain reading does.** -/
structure ReadOk (op : ReadOp) (os : StdioOs) (s : Stream) : Prop where
  /-- `read` and `lseek` have no error. -/
  noError : os.NoError
  seeks : ∀ target, os.seeks target = true
  fgetc : op = .fgetc → GetOk s
  peekChar : op = .peekChar → PeekOk s
  fread : ∀ o, op = .fread o → FreadOk os o s

def ReadRunOk (fuel : ℕ) : List (ReadOp × StdioOs) → Stream → Prop
  | [], _ => True
  | (op, os) :: rest, s =>
    ReadOk op os s ∧ ∀ s' result, readStep fuel os op s = some (s', result) →
      ReadRunOk fuel rest s'

theorem Reading.step (h : Reading s p) {op : ReadOp} (hok : ReadOk op os s) :
    ∃ s', readStep (fuel + 2) os op s = some (s', (plainReadStep op p).2) ∧
      Reading s' (plainReadStep op p).1 := by
  unfold readStep
  cases op with
  | fgetc =>
    obtain ⟨s', hcall, hread⟩ := h.fgetc hok.noError (hok.fgetc rfl)
    dsimp only
    rw [hcall]
    exact ⟨s', rfl, hread⟩
  | ungetc c =>
    obtain ⟨s', hresult, hcall, hread⟩ := h.ungetc c
    dsimp only
    rw [hcall, hresult]
    exact ⟨s', rfl, hread⟩
  | peekChar =>
    obtain ⟨s', hcall, hread⟩ := h.peekChar hok.noError (hok.peekChar rfl)
    dsimp only
    rw [hcall]
    exact ⟨s', rfl, hread⟩
  | fread o =>
    obtain ⟨s', data, count, hcall, hresult, hread⟩ := h.fread fuel (hok.fread o rfl)
    dsimp only
    rw [hcall, ← hresult]
    exact ⟨s', rfl, hread⟩
  | fseek offset w =>
    obtain ⟨s', hresult, hcall, hread⟩ := h.fseeko hok.seeks offset w
    dsimp only
    rw [hcall, hresult]
    exact ⟨s', rfl, hread⟩
  | ftell =>
    dsimp only
    rw [h.fgetpos]
    exact ⟨s, rfl, h⟩

theorem Reading.run (h : Reading s p) {events : List (ReadOp × StdioOs)}
    (hok : ReadRunOk (fuel + 2) events s) :
    ∃ s', readRun (fuel + 2) events s = some (s', (plainReadRun events p).2) ∧
      Reading s' (plainReadRun events p).1 := by
  induction events generalizing s p with
  | nil => exact ⟨s, rfl, h⟩
  | cons event rest ih =>
    obtain ⟨op, os⟩ := event
    obtain ⟨s₁, hstep, hread₁⟩ := h.step hok.1
    obtain ⟨s₂, hrun, hread₂⟩ := ih hread₁ (hok.2 s₁ _ hstep)
    refine ⟨s₂, ?_, hread₂⟩
    rw [readRun, hstep]
    dsimp only [Option.bind_eq_bind, Option.bind_some]
    rw [hrun]
    rfl

theorem reading_newStream (content : List UInt8) (append : Bool) (b : Buffering)
    (hb : b.size.toNat < 2 ^ 31) :
    Reading (newStream content true false append b) ⟨⟨content, 0, Nat.zero_le _⟩, none⟩ := by
  have hlt : (0 : BitVec 32).toNat < 2 ^ 31 := by decide
  have hslt : (0 : BitVec 32).slt 0 = false := by decide
  refine ⟨⟨rfl, rfl, rfl, rfl, fun hbuf => ⟨?_, hb⟩⟩, rfl, nofun, rfl, rfl,
    fun _ => ⟨hlt, Nat.zero_le _, rfl, rfl⟩, fun _ => ⟨rfl, hslt⟩, nofun⟩
  change (true && decide (b.size ≠ 0)) = true at hbuf
  rw [Bool.true_and, decide_eq_true_eq] at hbuf
  change 0 < b.size.toNat
  by_contra hzero
  exact hbuf (BitVec.eq_of_toNat_eq (Nat.eq_zero_of_not_pos hzero))

/-- **Buffered reading refines plain reading.** In every run of a read stream whose calls find the stream as
they need it, whatever the file, the buffer and the short reads that fill it, every call returns what plain
reading returns: characters, bytes in memory, the number of objects and the position. -/
theorem readRun_refines (content : List UInt8) (append : Bool) (b : Buffering)
    (hb : b.size.toNat < 2 ^ 31) (events : List (ReadOp × StdioOs))
    (hok : ReadRunOk (fuel + 2) events (newStream content true false append b)) :
    ∃ s, readRun (fuel + 2) events (newStream content true false append b) =
      some (s, (plainReadRun events ⟨⟨content, 0, Nat.zero_le _⟩, none⟩).2) := by
  obtain ⟨s, hrun, -⟩ := (reading_newStream content append b hb).run hok
  exact ⟨s, hrun⟩

/-! ### A run with short reads, and a short read in `fread` -/

def fiveBytes : ReadObjects :=
  ⟨1, 5, [0, 0, 0, 0, 0], rfl, by decide⟩

/-- The buffer of three bytes is filled by reads of two; a character is pushed back, and `fread`
takes it, the rest of the buffer and bytes from the file. -/
def shortFills : List (ReadOp × StdioOs) :=
  [(.fgetc, limitedOs 2 (by decide)), (.ungetc (some 9), wholeOs), (.fread fiveBytes, wholeOs),
    (.peekChar, limitedOs 2 (by decide)), (.ftell, wholeOs)]

theorem readRun_refines_shortFills :
    ∃ s, readRun 2 shortFills (newStream [1, 2, 3, 4, 5, 6, 7, 8] true false false ⟨3, false⟩) =
      some (s, [.char (some 1), .char (some 9), .objects [9, 2, 3, 4, 5] 5, .char (some 6),
        .position (some 5)]) := by
  have hlimited : (limitedOs 2 (by decide)).NoError := nofun
  have hwhole : wholeOs.NoError := nofun
  refine readRun_refines [1, 2, 3, 4, 5, 6, 7, 8] false ⟨3, false⟩ (by decide) shortFills ?_
  refine ⟨⟨hlimited, fun _ => rfl, fun _ => Or.inl rfl, nofun, nofun⟩, fun s₁ r₁ h₁ => ?_⟩
  cases h₁
  refine ⟨⟨hwhole, fun _ => rfl, nofun, nofun, nofun⟩, fun s₂ r₂ h₂ => ?_⟩
  cases h₂
  refine ⟨⟨hwhole, fun _ => rfl, nofun, nofun, fun o ho => ?_⟩, fun s₃ r₃ h₃ => ?_⟩
  · cases ho
    exact ⟨fun _ _ => rfl, by decide⟩
  cases h₃
  refine ⟨⟨hlimited, fun _ => rfl, nofun, fun _ => Or.inl rfl, nofun⟩, fun s₄ r₄ h₄ => ?_⟩
  cases h₄
  exact ⟨⟨hwhole, fun _ => rfl, nofun, nofun, nofun⟩, fun _ _ _ => trivial⟩

/-- A short read in the loop of `fread`: the next one is stored over it. -/
theorem fread_short_read :
    ∃ s, readRun 4 [(.fread fiveBytes, limitedOs 2 (by decide))]
        (newStream [1, 2, 3, 4, 5] true false false ⟨0, false⟩) =
          some (s, [.objects [5, 4, 0, 0, 0] 5]) ∧
      (plainReadRun [(.fread fiveBytes, limitedOs 2 (by decide))]
        ⟨⟨[1, 2, 3, 4, 5], 0, Nat.zero_le _⟩, none⟩).2 = [.objects [1, 2, 3, 4, 5] 5] :=
  ⟨_, rfl, rfl⟩

end UnixLib
