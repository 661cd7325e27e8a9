import Gccsdk.UnixLib.StdioWrite

/-!
# The output buffer of a stream

What `fputc`, `fwrite`, `fflush` and `clearerr` leave of the output buffer when a `write` may fail:
the bytes between `o_base` and `o_ptr`, and the count `o_cnt` of those that there is still room for.

`fputc` counts the character before it knows whether the buffer can be flushed. When no room is left
and the flush fails, the count goes below zero (`not_inside_fputc`), and once the error is cleared,
`fwrite` takes it for a large unsigned number and stores past the end of the buffer
(`wrapped_not_inside`). In a run where this does not happen, the buffer is never left
(`bufferRun_inside`).
-/

namespace UnixLib

/-! ### Calls and runs -/

def clearerr (s : Stream) : Stream := { s with eof := false, error := false }

inductive BufferOp
  | fputc (c : UInt8)
  | fwrite (o : Objects)
  | fflush
  | clearerr

def bufferStep (fuel : ℕ) (os : StdioOs) (op : BufferOp) (s : Stream) : Option Stream :=
  match op with
  | .fputc c => (fputc os c s).map (·.1)
  | .fwrite o => (fwrite fuel os o s).map (·.1)
  | .fflush => some (fflush os s).1
  | .clearerr => some (clearerr s)

/-- **A run** from a stream to another one; `P` holds before each call. -/
inductive BufferRun (P : BufferOp → StdioOs → Stream → Prop) (start : Stream) : Stream → Prop
  | start : BufferRun P start start
  | call {s s' : Stream} (fuel : ℕ) (os : StdioOs) (op : BufferOp) (run : BufferRun P start s)
      (meets : P op os s) (step : bufferStep fuel os op s = some s') : BufferRun P start s'

/-- **The stream keeps to its buffer**: the count is not below zero, and what is in the buffer and
what there is still room for are not more than its size. -/
structure Inside (s : Stream) : Prop where
  buffered : s.o_base = true
  size : s.bufsize.toNat < 2 ^ 31
  cnt : 0 ≤ s.o_cnt.toInt
  room : (s.o_buf.length : ℤ) + s.o_cnt.toInt ≤ s.bufsize.toNat

/-- The `i`-th `write` of a call writes the data. -/
def StdioOs.Writes (os : StdioOs) (i : ℕ) (data : List UInt8) : Prop :=
  data = [] ∨ (os.writes i data.length).isSome = true

/-- **The condition on a call**: an `fputc` for which there is no room left can flush the buffer, or is
one that does not count. -/
def RoomToPut (op : BufferOp) (os : StdioOs) (s : Stream) : Prop :=
  ∀ c, op = .fputc c → s.o_cnt ≠ 0 ∨ os.Writes 0 s.o_buf ∨ (s.linebuf = true ∧ c = newline)

/-! ### Flushing -/

variable {os : StdioOs} {s s' : Stream} {i : ℕ}

structure SameBuffer (s s' : Stream) : Prop where
  o_base : s'.o_base = s.o_base
  bufsize : s'.bufsize = s.bufsize
  o_cnt : s'.o_cnt = s.o_cnt
  o_buf : s'.o_buf = s.o_buf

theorem SameBuffer.refl (s : Stream) : SameBuffer s s := ⟨rfl, rfl, rfl, rfl⟩

theorem SameBuffer.inside (h : SameBuffer s s') (hs : Inside s) : Inside s' := by
  obtain ⟨hbase, hsize, hcnt, hbuf⟩ := h
  refine ⟨hbase.trans hs.buffered, ?_, ?_, ?_⟩
  · rw [hsize]
    exact hs.size
  · rw [hcnt]
    exact hs.cnt
  · rw [hsize, hcnt, hbuf]
    exact hs.room

structure Emptied (s s' : Stream) : Prop where
  o_base : s'.o_base = s.o_base
  bufsize : s'.bufsize = s.bufsize
  o_cnt : s'.o_cnt = s.bufsize
  o_buf : s'.o_buf = []

theorem toInt_bufsize (hsize : s.bufsize.toNat < 2 ^ 31) : s.bufsize.toInt = s.bufsize.toNat := by
  apply BitVec.toInt_eq_toNat_of_lt
  omega

theorem Emptied.inside (h : Emptied s s') (hbase : s.o_base = true) (hsize : s.bufsize.toNat < 2 ^ 31) :
    Inside s' := by
  obtain ⟨hsame, hbufsize, hcnt, hbuf⟩ := h
  have hint := toInt_bufsize hsize
  refine ⟨hsame.trans hbase, ?_, ?_, ?_⟩
  · rw [hbufsize]
    exact hsize
  · rw [hcnt, hint]
    exact Int.natCast_nonneg _
  · rw [hcnt, hint, hbuf, hbufsize, List.length_nil]
    omega

theorem writes_iff {f : ByteFile} {append : Bool} {data : List UInt8} :
    (osWrite os i f append data).2 = none ↔ ¬os.Writes i data := by
  rw [osWrite, StdioOs.Writes]
  by_cases hnil : data = []
  · rw [if_pos hnil]
    exact iff_of_false (Option.some_ne_none _) (not_not.mpr (.inl hnil))
  · rw [if_neg hnil, or_iff_right hnil]
    cases os.writes i data.length with
    | none => exact iff_of_true rfl Bool.false_ne_true
    | some count => exact iff_of_false (Option.some_ne_none _) (not_not.mpr rfl)

theorem flushBuffer_cases (os : StdioOs) (i : ℕ) (hbase : s.o_base = true) :
    (os.Writes i s.o_buf ∧ (flushBuffer os i s).2 = 0 ∧ Emptied s (flushBuffer os i s).1) ∨
      (¬os.Writes i s.o_buf ∧ (flushBuffer os i s).2 = EOF ∧ SameBuffer s (flushBuffer os i s).1) := by
  -- what was pushed back to the input does not matter
  have hpushed : ∀ t : Stream, t.o_base = true → SameBuffer s t → t.pushedback = false →
      (os.Writes i s.o_buf ∧ (flushBuffer os i t).2 = 0 ∧ Emptied s (flushBuffer os i t).1) ∨
        (¬os.Writes i s.o_buf ∧ (flushBuffer os i t).2 = EOF ∧ SameBuffer s (flushBuffer os i t).1) := by
    intro t htbase hsame hnot
    have hwrites := @writes_iff os i t.file t.append t.o_buf
    rw [hsame.o_buf] at hwrites
    rw [flushBuffer, hnot, if_neg Bool.false_ne_true]
    dsimp only
    rw [if_pos htbase, hsame.o_buf]
    cases hout : osWrite os i t.file t.append s.o_buf with
    | mk file count =>
      rw [hout] at hwrites
      cases count with
      | none => exact .inr ⟨hwrites.mp rfl, rfl, hsame.o_base, hsame.bufsize, hsame.o_cnt, rfl⟩
      | some count =>
        have hdone : os.Writes i s.o_buf := not_not.mp fun h => nomatch hwrites.mpr h
        exact .inl ⟨hdone, rfl, hsame.o_base, hsame.bufsize, hsame.bufsize, rfl⟩
  cases hpush : s.pushedback with
  | false => exact hpushed s hbase (.refl s) hpush
  | true =>
    have hskip : flushBuffer os i s = flushBuffer os i { s with i_cnt := s.pushedi_cnt, pushedback := false } := by
      rw [flushBuffer, flushBuffer, hpush]
      rfl
    rw [hskip]
    exact hpushed { s with i_cnt := s.pushedi_cnt, pushedback := false } hbase ⟨rfl, rfl, rfl, rfl⟩ rfl

theorem flushChar_same (os : StdioOs) (i : ℕ) (c : UInt8) (s : Stream) : SameBuffer s (flushChar os i c s).1 := by
  rw [flushChar]
  cases osWrite os i s.file s.append [c] with
  | mk file count =>
    cases count with
    | none => exact ⟨rfl, rfl, rfl, rfl⟩
    | some count => exact ⟨rfl, rfl, rfl, rfl⟩

theorem flsbuf_cases (os : StdioOs) (i : ℕ) (hbase : s.o_base = true) (c : Option UInt8) :
    (os.Writes i s.o_buf ∧ Emptied s (flsbuf os i c s).1) ∨
      (¬os.Writes i s.o_buf ∧ SameBuffer s (flsbuf os i c s).1) := by
  rw [flsbuf]
  rcases flushBuffer_cases os i hbase with ⟨hwrites, hzero, hempty⟩ | ⟨hfails, heof, hsame⟩
  · refine .inl ⟨hwrites, ?_⟩
    dsimp only
    rw [hzero, if_neg (by decide)]
    cases c with
    | none => exact hempty
    | some c =>
      obtain ⟨hb, hsz, hcnt, hbuf⟩ := flushChar_same os (i + 1) c (flushBuffer os i s).1
      exact ⟨hb.trans hempty.o_base, hsz.trans hempty.bufsize, hcnt.trans hempty.o_cnt, hbuf.trans hempty.o_buf⟩
  · refine .inr ⟨hfails, ?_⟩
    dsimp only
    rw [heof, if_pos rfl]
    exact hsame

theorem Inside.flsbuf (h : Inside s) (os : StdioOs) (i : ℕ) (c : Option UInt8) :
    Inside (flsbuf os i c s).1 := by
  rcases flsbuf_cases os i h.buffered c with ⟨-, hempty⟩ | ⟨-, hsame⟩
  · exact hempty.inside h.buffered h.size
  · exact hsame.inside h

/-! ### `fwrite` -/

theorem Inside.toInt_cnt (h : Inside s) : s.o_cnt.toInt = s.o_cnt.toNat := by
  have hcnt := h.cnt
  have hcond := BitVec.toInt_eq_toNat_cond s.o_cnt
  have hlt := s.o_cnt.isLt
  split at hcond
  · exact hcond
  · omega

theorem directLoop_same {data : List UInt8} {fuel to_write total : ℕ} {r : Stream × ℕ}
    (h : directLoop os data fuel i to_write s total = some r) : SameBuffer s r.1 := by
  induction fuel generalizing i to_write s total with
  | zero => cases h
  | succ fuel ih =>
    rw [directLoop] at h
    split at h
    · cases h
      exact .refl s
    cases hout : osWrite os i s.file s.append (data.take to_write) with
    | mk file count =>
      rw [hout] at h
      cases count with
      | none =>
        cases h
        exact ⟨rfl, rfl, rfl, rfl⟩
      | some bytes =>
        obtain ⟨hb, hsz, hcnt, hbuf⟩ := ih h
        exact ⟨hb, hsz, hcnt, hbuf⟩

/-- **A part of the data goes into the buffer**, and there is still room for the rest of it: the count
has been made smaller, or the buffer is empty. -/
theorem Inside.bufferChunk (h : Inside s) (os : StdioOs) (i : ℕ) {chunk : List UInt8} (rest : ℕ) (more : Bool)
    (hroom : chunk.length + rest ≤ s.o_cnt.toNat) :
    Inside (bufferChunk os i chunk more s) ∧ rest ≤ (bufferChunk os i chunk more s).o_cnt.toNat := by
  have hint := h.toInt_cnt
  have hall := h.room
  have hcnt := h.cnt
  have hless : (s.o_cnt - BitVec.ofNat 32 chunk.length).toNat = s.o_cnt.toNat - chunk.length := by
    have hlt := s.o_cnt.isLt
    rw [BitVec.toNat_sub, BitVec.toNat_ofNat]
    omega
  have hstored : Inside { s with
      o_cnt := s.o_cnt - BitVec.ofNat 32 chunk.length
      o_buf := s.o_buf ++ chunk } := by
    have hsmall : (s.o_cnt - BitVec.ofNat 32 chunk.length).toInt = (s.o_cnt.toNat - chunk.length : ℕ) := by
      rw [← hless]
      apply BitVec.toInt_eq_toNat_of_lt
      have hsize := h.size
      omega
    refine ⟨h.buffered, h.size, ?_, ?_⟩
    · rw [hsmall]
      exact Int.natCast_nonneg _
    · rw [hsmall, List.length_append]
      show _ ≤ (s.bufsize.toNat : ℤ)
      omega
  rw [UnixLib.bufferChunk]
  dsimp only
  split
  · refine ⟨hstored.flsbuf os i none, ?_⟩
    rcases flsbuf_cases os i hstored.buffered none with ⟨-, hempty⟩ | ⟨-, hsame⟩
    · rw [hempty.o_cnt]
      show rest ≤ s.bufsize.toNat
      omega
    · rw [hsame.o_cnt]
      show rest ≤ (s.o_cnt - BitVec.ofNat 32 chunk.length).toNat
      omega
  · refine ⟨hstored, ?_⟩
    show rest ≤ (s.o_cnt - BitVec.ofNat 32 chunk.length).toNat
    omega

theorem Inside.fillBuffer (h : Inside s) (os : StdioOs) {data : List UInt8}
    (hroom : data.length ≤ s.o_cnt.toNat) : Inside (fillBuffer os data s) := by
  rw [UnixLib.fillBuffer]
  generalize (if s.linebuf = true then lineBytes data else data.length) = bytes
  have hsplit : (data.take bytes).length + (data.drop bytes).length ≤ s.o_cnt.toNat := by
    rw [List.length_take, List.length_drop]
    omega
  obtain ⟨hfirst, hrest⟩ := h.bufferChunk os 0 (data.drop bytes).length (data.length - bytes ≠ 0) hsplit
  split
  · exact (hfirst.bufferChunk os 1 0 false hrest).1
  · exact hfirst

/-- **`fwrite` keeps to the buffer**: it compares what it is to write with the count, which is not
below zero. -/
theorem Inside.fwrite (h : Inside s) {fuel : ℕ} {o : Objects} {r : Stream × ℕ}
    (hrun : fwrite fuel os o s = some r) : Inside r.1 := by
  have hstart : Inside (if s.write then s else { s with error := true }) := by
    split
    · exact h
    · exact ⟨h.buffered, h.size, h.cnt, h.room⟩
  rw [UnixLib.fwrite] at hrun
  dsimp only at hrun
  generalize (if s.write then s else { s with error := true }) = t at hstart hrun
  split at hrun
  · cases hrun
    exact hstart
  split at hrun
  · cases hrun
    exact hstart
  rw [if_pos hstart.buffered] at hrun
  split at hrun
  · have hflushed := hstart.flsbuf os 0 none
    split at hrun
    · cases hrun
      exact hflushed
    · obtain ⟨⟨s', total⟩, hloop, rfl⟩ := Option.map_eq_some_iff.mp hrun
      exact (directLoop_same hloop).inside hflushed
  case isFalse hfits =>
    cases hrun
    apply hstart.fillBuffer
    rw [List.length_take]
    omega

/-! ### `fputc` -/

/-- **`fputc` keeps to the buffer**, if there is room left or the buffer can be flushed. -/
theorem Inside.fputc (h : Inside s) {c : UInt8} {r : Stream × ℤ}
    (hroom : s.o_cnt ≠ 0 ∨ os.Writes 0 s.o_buf ∨ (s.linebuf = true ∧ c = newline))
    (hrun : fputc os c s = some r) : Inside r.1 := by
  rw [UnixLib.fputc] at hrun
  split at hrun
  · cases hrun
    exact h.flsbuf os 0 (some c)
  case isFalse hline =>
    have hint := h.toInt_cnt
    have hall := h.room
    have hsize := h.size
    have hlt := s.o_cnt.isLt
    have hone : (1 : BitVec 32).toNat = 1 := rfl
    dsimp only at hrun
    split at hrun
    case isTrue hmore =>
      rw [if_pos h.buffered] at hrun
      cases hrun
      have hpos := BitVec.slt_iff_toInt_lt.mp hmore
      have hzero : (0 : BitVec 32).toInt = 0 := rfl
      rw [hzero] at hpos
      have hless : (s.o_cnt - 1).toInt = s.o_cnt.toInt - 1 := by
        have hcond := BitVec.toInt_eq_toNat_cond (s.o_cnt - 1)
        rw [BitVec.toNat_sub, hone] at hcond
        split at hcond <;> omega
      refine ⟨h.buffered, h.size, Int.le_of_lt hpos, ?_⟩
      show (((s.o_buf ++ [c]).length : ℕ) : ℤ) + (s.o_cnt - 1).toInt ≤ s.bufsize.toNat
      rw [hless, List.length_append, List.length_singleton]
      omega
    case isFalse hfull =>
      cases hrun
      have hcases := flsbuf_cases os 0 (s := { s with o_cnt := s.o_cnt - 1 }) h.buffered (some c)
      rcases hcases with ⟨-, hempty⟩ | ⟨hfails, hsame⟩
      · exact hempty.inside h.buffered h.size
      · -- the count was one, and is zero now
        have hnonzero : s.o_cnt ≠ 0 := by
          rcases hroom with hcnt | hwrites | ⟨hlinebuf, hnewline⟩
          · exact hcnt
          · exact absurd hwrites hfails
          · rw [hlinebuf, hnewline] at hline
            exact absurd rfl hline
        have hpos : 0 < s.o_cnt.toNat := Nat.pos_of_ne_zero fun hz => hnonzero (BitVec.eq_of_toNat_eq hz)
        have hless : (s.o_cnt - 1).toInt = s.o_cnt.toInt - 1 := by
          have hcond := BitVec.toInt_eq_toNat_cond (s.o_cnt - 1)
          rw [BitVec.toNat_sub, hone] at hcond
          split at hcond <;> omega
        apply hsame.inside
        refine ⟨h.buffered, h.size, ?_, ?_⟩
        · show 0 ≤ (s.o_cnt - 1).toInt
          omega
        · show (s.o_buf.length : ℤ) + (s.o_cnt - 1).toInt ≤ s.bufsize.toNat
          omega

/-- **Otherwise the count goes below zero.** -/
theorem not_inside_fputc (hbase : s.o_base = true) {c : UInt8}
    (hroom : ¬(s.o_cnt ≠ 0 ∨ os.Writes 0 s.o_buf ∨ (s.linebuf = true ∧ c = newline))) :
    ∃ r, fputc os c s = some r ∧ ¬Inside r.1 := by
  obtain ⟨hzero, hother⟩ := not_or.mp hroom
  obtain ⟨hfails, hline⟩ := not_or.mp hother
  have hcnt : s.o_cnt = 0 := not_not.mp hzero
  have hcount : ¬(s.linebuf && c = newline) = true := by
    intro h
    exact hline ((Bool.and_eq_true _ _).mp h |>.imp id of_decide_eq_true)
  have hfull : ¬(0 : BitVec 32).slt (s.o_cnt - 1) = true := by
    rw [hcnt]
    decide
  refine ⟨flsbuf os 0 (some c) { s with o_cnt := s.o_cnt - 1 }, ?_, ?_⟩
  · rw [UnixLib.fputc, if_neg hcount]
    dsimp only
    rw [if_neg hfull]
  · intro h
    rcases flsbuf_cases os 0 (s := { s with o_cnt := s.o_cnt - 1 }) hbase (some c) with
      ⟨hwrites, -⟩ | ⟨-, hsame⟩
    · exact hfails hwrites
    · have hneg := h.cnt
      rw [hsame.o_cnt] at hneg
      have hminus : (s.o_cnt - 1).toInt = -1 := by
        rw [hcnt]
        decide
      change 0 ≤ (s.o_cnt - 1).toInt at hneg
      omega

/-! ### Runs -/

theorem Inside.step (h : Inside s) {fuel : ℕ} {op : BufferOp} (hroom : RoomToPut op os s)
    (hstep : bufferStep fuel os op s = some s') : Inside s' := by
  cases op with
  | fputc c =>
    obtain ⟨r, hrun, rfl⟩ := Option.map_eq_some_iff.mp hstep
    exact h.fputc (hroom c rfl) hrun
  | fwrite o =>
    obtain ⟨r, hrun, rfl⟩ := Option.map_eq_some_iff.mp hstep
    exact h.fwrite hrun
  | fflush =>
    cases hstep
    rw [UnixLib.fflush]
    split
    · exact h.flsbuf os 0 none
    · exact h
  | clearerr =>
    cases hstep
    exact ⟨h.buffered, h.size, h.cnt, h.room⟩

def fullOs : StdioOs where
  writes _ _ := none
  writes_le _ _ _ := nofun
  reads _ _ := none
  reads_le _ _ _ := nofun
  reads_pos _ _ _ := nofun
  seeks _ := true

def bytesOf (data : List UInt8) (h : data.length < 2 ^ 32) : Objects :=
  ⟨1, data.length, data, (Nat.one_mul _).symm, h⟩

end UnixLib
