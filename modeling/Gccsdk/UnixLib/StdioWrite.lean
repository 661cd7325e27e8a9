import Gccsdk.UnixLib.Stdio
import Mathlib.Data.BitVec
import Mathlib.Tactic.Linarith

/-!
# Writing to a stream

The model of `fwrite`, `fputc` and `fflush` (`stdio/fwrite.c`, `stdio/putc.c`, `stdio/fflush.c`)
and its refinement of plain writing to the file: as long as every `write` writes all it is asked
to, what is in the file and what waits in the buffer add up to what plain writing would have put
in the file (`writeRun_refines`). A short `write` breaks that: the loops of `fwrite` do not move
on in the caller's data, and `__flsbuf` forgets what was not written.
-/

namespace UnixLib

/-! ### `fwrite`, `fputc`, `fflush` -/

/-- The objects of an `fwrite`, in the caller's memory. -/
structure Objects where
  size : ℕ
  count : ℕ
  data : List UInt8
  length_eq : data.length = size * count
  length_lt : data.length < 2 ^ 32

/-- The loop that writes straight to the file. `data` stays where it is. -/
def directLoop (os : StdioOs) (data : List UInt8) :
    ℕ → ℕ → ℕ → Stream → ℕ → Option (Stream × ℕ)
  | 0, _, _, _, _ => none
  | fuel + 1, i, to_write, s, total_bytes =>
    if to_write = 0 then some (s, total_bytes)
    else
      match osWrite os i s.file s.append (data.take to_write) with
      | (file, none) => some ({ s with file, error := true }, total_bytes)
      | (file, some bytes) =>
        directLoop os data fuel (i + 1) (to_write - bytes)
          { s with file, offset := s.offset + BitVec.ofNat 32 bytes } (total_bytes + bytes)

/-- `memrchr (data, '\n', to_write)`. -/
def lastNewline (data : List UInt8) : Option ℕ :=
  (data.reverse.findIdx? fun c => c = newline).map fun i => data.length - 1 - i

/-- How much of the data a line buffered stream takes before it is flushed: up to the last newline,
or all of it when there is none. -/
def lineBytes (data : List UInt8) : ℕ :=
  if data.getLast? = some newline then data.length
  else
    match lastNewline data with
    | some last_nl => last_nl + 1
    | none => data.length

/-- One round of the loop that fills the buffer; `more` when there is data left after it. -/
def bufferChunk (os : StdioOs) (i : ℕ) (chunk : List UInt8) (more : Bool) (s : Stream) : Stream :=
  let s := { s with
    o_cnt := s.o_cnt - BitVec.ofNat 32 chunk.length
    o_buf := s.o_buf ++ chunk }
  if more || s.o_buf.getLast? = some newline then (flsbuf os i none s).1 else s

/-- The data goes into the buffer. The second round of the loop takes all that is left. -/
def fillBuffer (os : StdioOs) (data : List UInt8) (s : Stream) : Stream :=
  let bytes := if s.linebuf then lineBytes data else data.length
  let s := bufferChunk os 0 (data.take bytes) (data.length - bytes ≠ 0) s
  if data.length - bytes ≠ 0 then bufferChunk os 1 (data.drop bytes) false s else s

/-- `fwrite`: the number of objects. It has no value when it does not return. -/
def fwrite (fuel : ℕ) (os : StdioOs) (o : Objects) (s : Stream) : Option (Stream × ℕ) :=
  let s := if s.write then s else { s with error := true }
  if s.error then some (s, 0)
  else
    let to_write := o.size * o.count % 2 ^ 32
    if to_write = 0 then some (s, 0)
    else if s.o_base then
      if s.o_cnt.toNat < to_write then
        let (s, result) := flsbuf os 0 none s
        if result < 0 then some (s, 0)
        else
          (directLoop os o.data fuel 1 to_write s 0).map fun (s, total) => (s, total / o.size)
      else some (fillBuffer os (o.data.take to_write) s, to_write / o.size)
    else (directLoop os o.data fuel 0 to_write s 0).map fun (s, total) => (s, total / o.size)

/-- `fputc`. Without a buffer there is nothing at `o_ptr` to store to. -/
def fputc (os : StdioOs) (c : UInt8) (s : Stream) : Option (Stream × ℤ) :=
  if s.linebuf && c = newline then some (flsbuf os 0 (some c) s)
  else
    let s := { s with o_cnt := s.o_cnt - 1 }
    if (0 : BitVec 32).slt s.o_cnt then
      if s.o_base then some ({ s with o_buf := s.o_buf ++ [c] }, (c.toNat : ℤ)) else none
    else some (flsbuf os 0 (some c) s)

def fflush (os : StdioOs) (s : Stream) : Stream × ℤ :=
  if s.write then flsbuf os 0 none s else (s, 0)

/-! ### Runs -/

inductive WriteOp where
  | fwrite (o : Objects)
  | fputc (c : UInt8)
  | fflush
  | fseek (offset : BitVec 32) (w : Whence)

def writeStep (fuel : ℕ) (os : StdioOs) (op : WriteOp) (s : Stream) : Option (Stream × ℤ) :=
  match op with
  | .fwrite o => (UnixLib.fwrite fuel os o s).map fun (s, count) => (s, (count : ℤ))
  | .fputc c => UnixLib.fputc os c s
  | .fflush => some (UnixLib.fflush os s)
  | .fseek offset w => some (fseeko os offset w s)

/-- The calls of a run, each with what the OS answers, and what they return. -/
def writeRun (fuel : ℕ) : List (WriteOp × StdioOs) → Stream → Option (Stream × List ℤ)
  | [], s => some (s, [])
  | (op, os) :: rest, s => do
    let (s, result) ← writeStep fuel os op s
    let (s, results) ← writeRun fuel rest s
    return (s, result :: results)

/-! ### Plain writing -/

/-- A file that is written to without a buffer; a seek that was refused is remembered. -/
structure PlainFile where
  file : ByteFile
  error : Bool

def plainSeek (os : StdioOs) (target : BitVec 32) (p : PlainFile) : PlainFile × ℤ :=
  if os.seeks target.toNat then ({ p with file := p.file.seek target.toNat }, 0)
  else ({ p with error := true }, -1)

def plainStep (append : Bool) (os : StdioOs) (op : WriteOp) (p : PlainFile) : PlainFile × ℤ :=
  match op with
  | .fwrite o =>
    if p.error || o.data.length = 0 then (p, 0)
    else ({ p with file := p.file.write append o.data }, o.count)
  | .fputc c => ({ p with file := p.file.write append [c] }, c.toNat)
  | .fflush => (p, 0)
  | .fseek offset .SEEK_SET => plainSeek os offset p
  | .fseek offset .SEEK_CUR => plainSeek os (BitVec.ofNat 32 p.file.pos + offset) p
  | .fseek offset .SEEK_END => plainSeek os (BitVec.ofNat 32 p.file.content.length + offset) p
  | .fseek _ .invalid => (p, -1)

def plainRun (append : Bool) : List (WriteOp × StdioOs) → PlainFile → PlainFile × List ℤ
  | [], p => (p, [])
  | (op, os) :: rest, p =>
    let (p, result) := plainStep append os op p
    let (p, results) := plainRun append rest p
    (p, result :: results)

/-! ### What the stream and the file hold together -/

/-- Every `write` writes all it is asked to. -/
def StdioOs.Complete (os : StdioOs) : Prop :=
  ∀ i n, os.writes i n = some n

/-- The file and what is pending in the buffer make up the plain file. -/
structure Pending (s : Stream) (p : PlainFile) : Prop where
  write : s.write = true
  read : s.read = false
  pushedback : s.pushedback = false
  i_base : s.i_base = false
  file : s.file.write s.append s.o_buf = p.file
  error : s.error = p.error
  unbuffered : s.o_base = false → s.o_buf = []
  offset : s.append = false → s.offset = BitVec.ofNat 32 s.file.pos

/-- **The invariant of a write stream.** -/
structure Writing (s : Stream) (p : PlainFile) : Prop extends Pending s p where
  /-- `o_cnt` is what is left of the buffer. -/
  room : s.o_base = true → s.o_buf.length + s.o_cnt.toNat = s.bufsize.toNat

variable {os : StdioOs} {s s' : Stream} {p p' : PlainFile} {i n fuel : ℕ} {f : ByteFile}
  {append : Bool} {data : List UInt8} {c : UInt8}

theorem osWrite_complete (hc : os.Complete) :
    osWrite os i f append data = (f.write append data, some data.length) := by
  unfold osWrite ByteFile.write
  split
  · rename_i hnil
    rw [hnil]
    rfl
  · rw [hc]
    dsimp only
    rw [List.take_length]

structure SameStream (s s' : Stream) : Prop where
  o_base : s'.o_base = s.o_base
  append : s'.append = s.append
  linebuf : s'.linebuf = s.linebuf
  bufsize : s'.bufsize = s.bufsize

theorem SameStream.refl : SameStream s s :=
  ⟨rfl, rfl, rfl, rfl⟩

theorem SameStream.trans {s'' : Stream} (h : SameStream s s') (h' : SameStream s' s'') :
    SameStream s s'' :=
  ⟨h'.o_base.trans h.o_base, h'.append.trans h.append, h'.linebuf.trans h.linebuf,
    h'.bufsize.trans h.bufsize⟩

/-- **Flushing.** The buffer is empty afterwards and the file is the plain file. -/
theorem Pending.flush (h : Pending s p) (hc : os.Complete) :
    ∃ s', flushBuffer os i s = (s', 0) ∧ Writing s' p ∧ s'.o_buf = [] ∧ SameStream s s' := by
  unfold flushBuffer
  rw [h.pushedback, if_neg Bool.false_ne_true]
  dsimp only
  by_cases hbuf : s.o_base = true
  · rw [if_pos hbuf, osWrite_complete hc, h.file]
    refine ⟨_, rfl, ⟨⟨h.write, h.read, h.pushedback, h.i_base, ByteFile.write_nil, h.error,
      fun _ => rfl, fun happ => ?_⟩, fun _ => Nat.zero_add _⟩, rfl, rfl, rfl, rfl, rfl⟩
    change s.append = false at happ
    have hpos : p.file.pos = s.file.pos + s.o_buf.length := by
      rw [← h.file, ByteFile.pos_write happ]
    change (if s.append = true then _ else s.offset + BitVec.ofNat 32 s.o_buf.length) =
      BitVec.ofNat 32 p.file.pos
    rw [happ, if_neg Bool.false_ne_true, h.offset happ, hpos, BitVec.ofNat_add]
  · have hnil := h.unbuffered (Bool.eq_false_iff.mpr hbuf)
    rw [if_neg hbuf]
    exact ⟨s, rfl, ⟨h, fun hb => absurd hb hbuf⟩, hnil, SameStream.refl⟩

theorem Pending.flsbuf_none (h : Pending s p) (hc : os.Complete) :
    ∃ s', flsbuf os i none s = (s', 0) ∧ Writing s' p ∧ s'.o_buf = [] ∧ SameStream s s' := by
  obtain ⟨s', hflush, hrest⟩ := h.flush hc
  refine ⟨s', ?_, hrest⟩
  unfold flsbuf
  rw [hflush]
  rfl

theorem Writing.direct (h : Writing s p) (hnil : s.o_buf = []) {offset : BitVec 32}
    (hoff : s.append = false → offset = BitVec.ofNat 32 (s.file.pos + data.length)) :
    Writing { s with file := s.file.write s.append data, offset }
      { p with file := p.file.write s.append data } := by
  have hfile := h.file
  rw [hnil, ByteFile.write_nil] at hfile
  refine ⟨⟨h.write, h.read, h.pushedback, h.i_base, ?_, h.error, h.unbuffered, fun happ => ?_⟩,
    h.room⟩
  · change (s.file.write s.append data).write s.append s.o_buf = p.file.write s.append data
    rw [hnil, ByteFile.write_nil, hfile]
  · change offset = BitVec.ofNat 32 (s.file.write s.append data).pos
    rw [ByteFile.pos_write happ]
    exact hoff happ

theorem Pending.flsbuf_some (h : Pending s p) (hc : os.Complete) :
    ∃ s', flsbuf os i (some c) s = (s', (c.toNat : ℤ)) ∧
      Writing s' { p with file := p.file.write s.append [c] } ∧ SameStream s s' := by
  obtain ⟨s₁, hflush, hw, hnil, hsame⟩ := h.flush (i := i) hc
  unfold flsbuf
  rw [hflush]
  dsimp only
  rw [if_neg (by decide)]
  unfold flushChar
  rw [osWrite_complete hc]
  refine ⟨_, rfl, ?_, ⟨hsame.o_base, hsame.append, hsame.linebuf, hsame.bufsize⟩⟩
  rw [← hsame.append]
  refine hw.direct hnil fun happ => ?_
  rw [happ, Bool.and_false, if_neg Bool.false_ne_true, hw.offset happ]
  exact (BitVec.ofNat_add _ 1).symm

/-- **The direct loop.** With a complete `write` there is one round. -/
theorem Writing.directLoop (h : Writing s p) (fuel : ℕ) (hc : os.Complete) (hnil : s.o_buf = [])
    (hdata : data ≠ []) :
    ∃ s', directLoop os data (fuel + 2) i data.length s n = some (s', n + data.length) ∧
      Writing s' { p with file := p.file.write s.append data } ∧ SameStream s s' := by
  have hlen : data.length ≠ 0 := fun hzero => hdata (List.length_eq_zero_iff.mp hzero)
  rw [UnixLib.directLoop, if_neg hlen, osWrite_complete hc, List.take_length]
  dsimp only
  rw [Nat.sub_self, UnixLib.directLoop, if_pos rfl]
  refine ⟨_, rfl, h.direct hnil fun happ => ?_, ⟨rfl, rfl, rfl, rfl⟩⟩
  rw [h.offset happ, BitVec.ofNat_add]

theorem Writing.store (h : Writing s p) (hbuf : s.o_base = true) {chunk : List UInt8}
    (hroom : chunk.length ≤ s.o_cnt.toNat) :
    Writing { s with o_cnt := s.o_cnt - BitVec.ofNat 32 chunk.length, o_buf := s.o_buf ++ chunk }
      { p with file := p.file.write s.append chunk } := by
  have hlt := s.o_cnt.isLt
  have htoNat : (BitVec.ofNat 32 chunk.length).toNat = chunk.length := by
    rw [BitVec.toNat_ofNat, Nat.mod_eq_of_lt (by omega)]
  refine ⟨⟨h.write, h.read, h.pushedback, h.i_base, ?_, h.error, fun hb => ?_, h.offset⟩,
    fun _ => ?_⟩
  · change s.file.write s.append (s.o_buf ++ chunk) = p.file.write s.append chunk
    rw [← ByteFile.write_write, h.file]
  · change s.o_base = false at hb
    rw [hbuf] at hb
    cases hb
  · have hold := h.room hbuf
    change (s.o_buf ++ chunk).length + (s.o_cnt - BitVec.ofNat 32 chunk.length).toNat =
      s.bufsize.toNat
    rw [List.length_append, BitVec.toNat_sub_of_le (by rw [BitVec.le_def, htoNat]; exact hroom),
      htoNat]
    omega

theorem Writing.bufferChunk (h : Writing s p) (hc : os.Complete) (hbuf : s.o_base = true)
    {chunk : List UInt8} (more : Bool) (hroom : chunk.length ≤ s.o_cnt.toNat) :
    Writing (bufferChunk os i chunk more s) { p with file := p.file.write s.append chunk } ∧
    SameStream s (bufferChunk os i chunk more s) ∧
    (more = true → (UnixLib.bufferChunk os i chunk more s).o_buf = []) := by
  have hstore := h.store hbuf hroom
  unfold UnixLib.bufferChunk
  dsimp only
  split
  · obtain ⟨s', hflush, hw, hnil, hsame⟩ := hstore.flsbuf_none (i := i) hc
    rw [hflush]
    exact ⟨hw, ⟨hsame.o_base, hsame.append, hsame.linebuf, hsame.bufsize⟩, fun _ => hnil⟩
  · rename_i hstay
    refine ⟨hstore, ⟨rfl, rfl, rfl, rfl⟩, fun hmore => ?_⟩
    rw [hmore, Bool.true_or] at hstay
    exact absurd rfl hstay

/-- **Data that fits the buffer.** A line buffered stream is flushed up to the last newline. -/
theorem Writing.fillBuffer (h : Writing s p) (hc : os.Complete) (hbuf : s.o_base = true)
    (hroom : data.length ≤ s.o_cnt.toNat) :
    Writing (fillBuffer os data s) { p with file := p.file.write s.append data } ∧
      SameStream s (UnixLib.fillBuffer os data s) := by
  unfold UnixLib.fillBuffer
  dsimp only
  generalize (if s.linebuf then lineBytes data else data.length) = bytes
  have htake : (data.take bytes).length ≤ s.o_cnt.toNat := by
    rw [List.length_take]
    omega
  obtain ⟨hw, hsame, hempty⟩ := @Writing.bufferChunk os s p 0 h hc hbuf _
    (data.length - bytes ≠ 0) htake
  split
  · rename_i hmore
    have hnil := hempty (decide_eq_true hmore)
    have hbuf' := hsame.o_base.trans hbuf
    -- the buffer is as large as it ever was
    have hroom' : (data.drop bytes).length ≤
        (UnixLib.bufferChunk os 0 (data.take bytes) (data.length - bytes ≠ 0) s).o_cnt.toNat := by
      have hold := h.room hbuf
      have hnew := hw.room hbuf'
      rw [hnil, List.length_nil, Nat.zero_add, hsame.bufsize] at hnew
      rw [hnew, List.length_drop]
      omega
    obtain ⟨hw', hsame', -⟩ := hw.bufferChunk (i := 1) hc hbuf' false hroom'
    refine ⟨?_, hsame.trans hsame'⟩
    dsimp only at hw'
    rw [hsame.append, ByteFile.write_write, List.take_append_drop] at hw'
    exact hw'
  · rename_i hall
    have hle : data.length ≤ bytes := by omega
    rw [List.take_of_length_le hle] at hw hsame ⊢
    exact ⟨hw, hsame⟩

/-! ### The calls -/

def Refines (s : Stream) (call : Option (Stream × ℤ)) (plain : PlainFile × ℤ) : Prop :=
  ∃ s', call = some (s', plain.2) ∧ Writing s' plain.1 ∧ s'.append = s.append

theorem Writing.fwrite (h : Writing s p) (hc : os.Complete) (o : Objects) :
    Refines s (writeStep (fuel + 2) os (.fwrite o) s) (plainStep s.append os (.fwrite o) p) := by
  have hmod : o.size * o.count % 2 ^ 32 = o.data.length := by
    rw [← o.length_eq, Nat.mod_eq_of_lt o.length_lt]
  unfold Refines writeStep plainStep UnixLib.fwrite
  dsimp only
  rw [if_pos h.write, hmod, h.error]
  by_cases herr : p.error = true
  · rw [if_pos herr, herr, Bool.true_or, if_pos rfl]
    exact ⟨s, rfl, h, rfl⟩
  · rw [if_neg herr]
    by_cases hzero : o.data.length = 0
    · rw [if_pos hzero, if_pos (by rw [decide_eq_true hzero, Bool.or_true])]
      exact ⟨s, rfl, h, rfl⟩
    · have hdata : o.data ≠ [] := fun hnil => hzero (List.length_eq_zero_iff.mpr hnil)
      have hcount : o.data.length / o.size = o.count := by
        have hpos : 0 < o.size := by
          by_contra hsize
          apply hzero
          rw [o.length_eq, Nat.eq_zero_of_not_pos hsize, Nat.zero_mul]
        rw [o.length_eq, Nat.mul_div_cancel_left _ hpos]
      have hgo : ¬ (p.error || decide (o.data.length = 0)) = true := by
        rw [Bool.or_eq_true, decide_eq_true_eq, not_or]
        exact ⟨herr, hzero⟩
      rw [if_neg hzero, if_neg hgo]
      by_cases hbuf : s.o_base = true
      · rw [if_pos hbuf]
        by_cases hroom : s.o_cnt.toNat < o.data.length
        · -- more than the buffer holds: flush it, then write the data
          obtain ⟨s₁, hflush, hw, hnil, hsame⟩ := h.flsbuf_none (i := 0) hc
          obtain ⟨s₂, hloop, hw₂, hsame₂⟩ :=
            hw.directLoop (i := 1) (n := 0) fuel hc hnil hdata
          rw [if_pos hroom, hflush]
          dsimp only
          rw [if_neg (by decide), hloop, Option.map_some, Option.map_some, Nat.zero_add]
          dsimp only
          rw [hcount]
          refine ⟨s₂, rfl, ?_, (hsame.trans hsame₂).append⟩
          rw [← hsame.append]
          exact hw₂
        · obtain ⟨hw, hsame⟩ := h.fillBuffer hc hbuf (not_lt.mp hroom)
          rw [if_neg hroom, List.take_length, Option.map_some, hcount]
          exact ⟨_, rfl, hw, hsame.append⟩
      · have hnil := h.unbuffered (Bool.eq_false_iff.mpr hbuf)
        obtain ⟨s₁, hloop, hw, hsame⟩ :=
          h.directLoop (i := 0) (n := 0) fuel hc hnil hdata
        rw [if_neg hbuf, hloop, Option.map_some, Option.map_some, Nat.zero_add]
        dsimp only
        rw [hcount]
        exact ⟨s₁, rfl, hw, hsame.append⟩

/-- A buffered stream has room for the character, or is flushed; one without a buffer must not have
its count wrap around. -/
def PutOk (c : UInt8) (s : Stream) : Prop :=
  s.o_base = true ∨ (s.linebuf && c = newline) = true ∨ ¬ (0 : BitVec 32).slt (s.o_cnt - 1)

theorem Writing.fputc (h : Writing s p) (hc : os.Complete) (hput : PutOk c s) :
    Refines s (writeStep fuel os (.fputc c) s) (plainStep s.append os (.fputc c) p) := by
  unfold Refines writeStep plainStep UnixLib.fputc
  dsimp only
  by_cases hline : (s.linebuf && decide (c = newline)) = true
  · rw [if_pos hline]
    obtain ⟨s', hflush, hw, hsame⟩ := h.flsbuf_some (i := 0) (c := c) hc
    exact ⟨s', congrArg some hflush, hw, hsame.append⟩
  · rw [if_neg hline]
    -- the count goes down before anything else
    have hpend : Pending { s with o_cnt := s.o_cnt - 1 } p :=
      ⟨h.write, h.read, h.pushedback, h.i_base, h.file, h.error, h.unbuffered, h.offset⟩
    by_cases hpos : (0 : BitVec 32).slt (s.o_cnt - 1) = true
    · have hbuf : s.o_base = true := by
        rcases hput with hbuf | hline' | hneg
        · exact hbuf
        · exact absurd hline' hline
        · exact absurd hpos hneg
      have hroom : [c].length ≤ s.o_cnt.toNat := by
        rw [List.length_singleton]
        by_contra hzero
        have hcnt : s.o_cnt = 0 := BitVec.eq_of_toNat_eq (by rw [BitVec.ofNat_eq_ofNat]; simp; omega)
        rw [hcnt] at hpos
        cases hpos
      rw [if_pos hpos, if_pos hbuf]
      exact ⟨_, rfl, h.store hbuf hroom, rfl⟩
    · rw [if_neg hpos]
      obtain ⟨s', hflush, hw, hsame⟩ := hpend.flsbuf_some (i := 0) (c := c) hc
      exact ⟨s', congrArg some hflush, hw, hsame.append⟩

theorem Writing.fflush (h : Writing s p) (hc : os.Complete) :
    Refines s (writeStep fuel os .fflush s) (plainStep s.append os .fflush p) := by
  obtain ⟨s', hflush, hw, -, hsame⟩ := h.flsbuf_none (i := 0) hc
  unfold Refines writeStep UnixLib.fflush
  dsimp only
  rw [if_pos h.write, hflush]
  exact ⟨s', rfl, hw, hsame.append⟩

/-- A seek from the current position is right about it, which an append stream need not be: it
does not know where its data will go, and `fwrite` does not ask where it went. -/
def SeekOk (w : Whence) (s : Stream) : Prop :=
  w = .SEEK_CUR → s.append = true → s.offset = BitVec.ofNat 32 s.file.pos ∧
    (s.o_buf = [] ∨ s.file.pos = s.file.content.length)

theorem Writing.fgetpos (h : Writing s p) (hseek : SeekOk .SEEK_CUR s) :
    fgetpos os s = (s, some (BitVec.ofNat 32 p.file.pos)) := by
  have hpos : s.offset = BitVec.ofNat 32 s.file.pos ∧
      p.file.pos = s.file.pos + s.o_buf.length := by
    rw [← h.file]
    cases happ : s.append with
    | false => exact ⟨h.offset happ, ByteFile.pos_write rfl⟩
    | true =>
      obtain ⟨hoff, hend⟩ := hseek rfl happ
      refine ⟨hoff, ?_⟩
      by_cases hnil : s.o_buf = []
      · rw [hnil, ByteFile.write_nil]
        rfl
      · rw [ByteFile.pos_write_atEnd hnil, hend.resolve_left hnil]
  unfold UnixLib.fgetpos
  rw [h.read, Bool.false_and, if_neg Bool.false_ne_true]
  dsimp only
  rw [if_neg (by decide)]
  by_cases hbuf : s.o_base = true
  · rw [if_pos hbuf, hpos.1, hpos.2, BitVec.ofNat_add]
  · rw [if_neg hbuf, h.i_base, if_neg Bool.false_ne_true, h.pushedback, if_neg Bool.false_ne_true,
      hpos.1, hpos.2, h.unbuffered (Bool.eq_false_iff.mpr hbuf), List.length_nil, Nat.add_zero]
    exact congrArg (fun pos => (s, some pos)) (BitVec.sub_zero _)

theorem Writing.seekTo (h : Writing s p) (hc : os.Complete) {offset : BitVec 32} (fromEnd : Bool) :
    Refines s (some (seekTo os offset fromEnd s)) (plainSeek os
      (if fromEnd then BitVec.ofNat 32 p.file.content.length + offset else offset) p) := by
  obtain ⟨s₁, hflush, hw, hnil, hsame⟩ := h.flsbuf_none (i := 1) hc
  have hfile := hw.file
  rw [hnil, ByteFile.write_nil] at hfile
  unfold Refines UnixLib.seekTo osSeek plainSeek
  rw [if_pos h.write, hflush]
  dsimp only
  rw [if_neg (by decide), hfile]
  generalize (if fromEnd then BitVec.ofNat 32 p.file.content.length + offset else offset) = target
  by_cases hgrant : os.seeks target.toNat = true
  · rw [if_pos hgrant, if_pos hgrant]
    refine ⟨_, rfl, ⟨⟨hw.write, hw.read, rfl, hw.i_base, ?_, hw.error, hw.unbuffered, fun _ => ?_⟩,
      hw.room⟩, hsame.append⟩
    · change (p.file.seek target.toNat).write s₁.append s₁.o_buf = p.file.seek target.toNat
      rw [hnil, ByteFile.write_nil]
    · change target = BitVec.ofNat 32 target.toNat
      rw [BitVec.ofNat_toNat, BitVec.setWidth_eq]
  · rw [if_neg hgrant, if_neg hgrant]
    refine ⟨_, rfl, ⟨⟨hw.write, hw.read, hw.pushedback, hw.i_base, ?_, rfl, hw.unbuffered, ?_⟩,
      hw.room⟩, hsame.append⟩
    · change p.file.write s₁.append s₁.o_buf = p.file
      rw [hnil, ByteFile.write_nil]
    · have hoff := hw.offset
      rw [hfile] at hoff
      exact hoff

theorem Writing.fseeko (h : Writing s p) (hc : os.Complete) {offset : BitVec 32} {w : Whence}
    (hseek : SeekOk w s) :
    Refines s (writeStep fuel os (.fseek offset w) s)
      (plainStep s.append os (.fseek offset w) p) := by
  unfold writeStep plainStep UnixLib.fseeko
  cases w with
  | SEEK_SET => exact h.seekTo hc false
  | SEEK_CUR =>
    dsimp only
    rw [h.fgetpos hseek]
    exact h.seekTo hc false
  | SEEK_END => exact h.seekTo hc true
  | invalid => exact ⟨s, rfl, h, rfl⟩

/-! ### Runs -/

/-- **When a call does what plain writing does.** -/
structure WriteOk (op : WriteOp) (os : StdioOs) (s : Stream) : Prop where
  /-- Every `write` writes all it is asked to. -/
  complete : os.Complete
  fputc : ∀ c, op = .fputc c → PutOk c s
  fseek : ∀ offset w, op = .fseek offset w → SeekOk w s

def WriteRunOk (fuel : ℕ) : List (WriteOp × StdioOs) → Stream → Prop
  | [], _ => True
  | (op, os) :: rest, s =>
    WriteOk op os s ∧ ∀ s' result, writeStep fuel os op s = some (s', result) →
      WriteRunOk fuel rest s'

theorem Writing.step (h : Writing s p) {op : WriteOp} (hok : WriteOk op os s) :
    Refines s (writeStep (fuel + 2) os op s) (plainStep s.append os op p) := by
  cases op with
  | fwrite o => exact h.fwrite hok.complete o
  | fputc c => exact h.fputc hok.complete (hok.fputc c rfl)
  | fflush => exact h.fflush hok.complete
  | fseek offset w => exact h.fseeko hok.complete (hok.fseek offset w rfl)

theorem Writing.run (h : Writing s p) {events : List (WriteOp × StdioOs)}
    (hok : WriteRunOk (fuel + 2) events s) :
    ∃ s', writeRun (fuel + 2) events s = some (s', (plainRun s.append events p).2) ∧
      Writing s' (plainRun s.append events p).1 := by
  induction events generalizing s p with
  | nil => exact ⟨s, rfl, h⟩
  | cons event rest ih =>
    obtain ⟨op, os⟩ := event
    obtain ⟨s₁, hstep, hw, happ⟩ := h.step hok.1
    obtain ⟨s₂, hrun, hw₂⟩ := ih hw (hok.2 s₁ _ hstep)
    rw [happ] at hrun hw₂
    refine ⟨s₂, ?_, hw₂⟩
    rw [writeRun, hstep]
    dsimp only [Option.bind_eq_bind, Option.bind_some]
    rw [hrun]
    rfl

theorem writing_newStream (content : List UInt8) (append : Bool) (b : Buffering) :
    Writing (newStream content false true append b) ⟨⟨content, 0, Nat.zero_le _⟩, false⟩ :=
  ⟨⟨rfl, rfl, rfl, rfl, ByteFile.write_nil, rfl, fun _ => rfl, fun _ => rfl⟩,
    fun _ => Nat.zero_add _⟩

/-- **Buffered writing refines plain writing.** In every run of a write stream, with any buffering, whose
`write`s are complete, every call returns what plain writing returns; and after a last `fflush` the file is
the one that plain writing makes. -/
theorem writeRun_refines (content : List UInt8) (append : Bool) (b : Buffering)
    (events : List (WriteOp × StdioOs)) (last : StdioOs) (hlast : last.Complete)
    (hok : WriteRunOk (fuel + 2) events (newStream content false true append b)) :
    ∃ s, writeRun (fuel + 2) events (newStream content false true append b) =
        some (s, (plainRun append events ⟨⟨content, 0, Nat.zero_le _⟩, false⟩).2) ∧
      (fflush last s).2 = 0 ∧ (fflush last s).1.file =
        (plainRun append events ⟨⟨content, 0, Nat.zero_le _⟩, false⟩).1.file := by
  obtain ⟨s, hrun, hw⟩ := (writing_newStream content append b).run hok
  obtain ⟨s', hflush, hw', hnil, -⟩ := hw.flsbuf_none (i := 0) hlast
  have hfile := hw'.file
  rw [hnil, ByteFile.write_nil] at hfile
  refine ⟨s, hrun, ?_, ?_⟩
  · unfold UnixLib.fflush
    rw [if_pos hw.write, hflush]
  · unfold UnixLib.fflush
    rw [if_pos hw.write, hflush]
    exact hfile

/-! ### A complete run and a short write -/

/-- An OS that moves `limit` bytes at most in one call. -/
def limitedOs (limit : ℕ) (h : 0 < limit) : StdioOs where
  writes _ n := some (min n limit)
  writes_le _ _ _ hm := by
    cases hm
    exact Nat.min_le_left _ _
  reads _ n := some (min n limit)
  reads_le _ _ _ hm := by
    cases hm
    exact Nat.min_le_left _ _
  reads_pos _ _ _ hm hn := by
    cases hm
    exact lt_min hn h
  seeks _ := true

def wholeOs : StdioOs where
  writes _ n := some n
  writes_le _ _ _ hm := by
    cases hm
    exact Nat.le_refl _
  reads _ n := some n
  reads_le _ _ _ hm := by
    cases hm
    exact Nat.le_refl _
  reads_pos _ _ _ hm hn := by
    cases hm
    exact hn
  seeks _ := true

def twoObjects : Objects :=
  ⟨4, 2, [1, 2, 3, 4, 5, 6, 7, 8], rfl, by decide⟩

theorem writeRun_refines_twoObjects :
    ∃ s, writeRun 2 [(.fputc 9, wholeOs), (.fwrite twoObjects, wholeOs)]
        (newStream [] false true false ⟨6, false⟩) = some (s, [9, 2]) ∧
      (fflush wholeOs s).2 = 0 ∧
      (fflush wholeOs s).1.file.content = [9, 1, 2, 3, 4, 5, 6, 7, 8] := by
  have hcomplete : wholeOs.Complete := fun _ _ => rfl
  have hok : WriteRunOk 2 [(.fputc 9, wholeOs), (.fwrite twoObjects, wholeOs)]
      (newStream [] false true false ⟨6, false⟩) :=
    ⟨⟨hcomplete, fun _ _ => Or.inl rfl, nofun⟩, fun _ _ _ =>
      ⟨⟨hcomplete, nofun, nofun⟩, fun _ _ _ => trivial⟩⟩
  obtain ⟨s, hrun, hflush, hfile⟩ := writeRun_refines [] false ⟨6, false⟩ _ wholeOs hcomplete hok
  exact ⟨s, hrun, hflush, congrArg ByteFile.content hfile⟩

/-- A `write` that is short by half, in the direct loop: the second half of the file is the first
half of the data again, and `fwrite` returns that both objects are written. -/
theorem fwrite_short_write :
    ∃ s, writeRun 3 [(.fwrite twoObjects, limitedOs 4 (by decide))]
        (newStream [] false true false ⟨6, false⟩) = some (s, [2]) ∧
      (fflush wholeOs s).1.file.content = [1, 2, 3, 4, 1, 2, 3, 4] ∧
      (plainRun false [(.fwrite twoObjects, limitedOs 4 (by decide))]
        ⟨⟨[], 0, Nat.zero_le _⟩, false⟩).1.file.content = [1, 2, 3, 4, 5, 6, 7, 8] :=
  ⟨_, rfl, rfl, rfl⟩

end UnixLib
