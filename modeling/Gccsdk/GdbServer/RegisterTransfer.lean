import Gccsdk.GdbServer.Packets

/-!
# Register transfer

A `g` request is answered with the 336 digits of the registers (`registerContents_readRegisters`). A `G` request
with 336 digits is one byte longer than that, and the position in the buffer comes round: the request that is
executed begins with a digit (`execute_writeRegisters`). It is one that is not supported, or `c`, which continues
the program; the registers stay as they are. So only their own contents can be given back
(`registers_roundTrip_iff`).
-/

namespace GdbServer

/-! ### The contents of the registers -/

def digitAt (digits : List Byte) (p : ℕ) : ℕ := (hexValue (digits.getD p 0)).getD 0

def digitsAt (digits : List Byte) (p : ℕ) : ℕ := 16 * digitAt digits p + digitAt digits (p + 1)

/-- The registers whose digits these are: eight for each one, the two of its lowest byte first. -/
def registerContents (digits : List Byte) : CpuRegisters := fun i =>
  let byte (j : ℕ) := digitsAt digits (8 * i.val + 2 * j)
  BitVec.ofNat 32 (byte 0 + 2 ^ 8 * byte 1 + 2 ^ 16 * byte 2 + 2 ^ 24 * byte 3)

theorem getElem?_flatMap {α β : Type} {f : α → List β} {m : ℕ} (hm : ∀ a, (f a).length = m) (l : List α)
    (i : ℕ) {k : ℕ} (hk : k < m) : (l.flatMap f)[m * i + k]? = l[i]?.bind fun a => (f a)[k]? := by
  induction l generalizing i with
  | nil => rfl
  | cons a rest ih =>
    rw [List.flatMap_cons]
    cases i with
    | zero =>
      rw [Nat.mul_zero, Nat.zero_add, List.getElem?_append_left (hm a ▸ hk)]
      rfl
    | succ i =>
      have hle : m ≤ m * (i + 1) + k := by
        rw [Nat.mul_succ]
        omega
      rw [List.getElem?_append_right (hm a ▸ hle), hm a, List.getElem?_cons_succ, ← ih i]
      congr 1
      rw [Nat.mul_succ]
      omega

theorem length_hexOfWord (val : BitVec 32) : (hexOfWord val).length = 8 := rfl

theorem digitsAt_hexOfWord (val : BitVec 32) {j : ℕ} (hj : j < 4) :
    digitsAt (hexOfWord val) (2 * j) = val.toNat / 2 ^ (8 * j) % 256 := by
  have hbyte (b : Byte) : 16 * (hexValue (hexDigit (b >>> 4))).getD 0 +
      (hexValue (hexDigit (b &&& 0xf))).getD 0 = b.toNat := by
    rw [(hexValue_hexDigit b).1, (hexValue_hexDigit b).2]
    exact Nat.div_add_mod _ _
  have hdigits : digitsAt (hexOfWord val) (2 * j) = ((val >>> (8 * j)).setWidth 8).toNat := by
    obtain rfl | rfl | rfl | rfl : j = 0 ∨ j = 1 ∨ j = 2 ∨ j = 3 := by omega
    all_goals exact hbyte _
  rw [hdigits, BitVec.toNat_setWidth, BitVec.toNat_ushiftRight, Nat.shiftRight_eq_div_pow]

section
variable (io : GdbCallbacks Debuggee) (hconfig : io.config ≠ 26) (regs : CpuRegisters)
include hconfig

theorem readRegisters_eq : readRegisters io regs = (List.finRange 42).flatMap fun i => hexOfWord (regs i) := by
  unfold readRegisters
  refine congrArg (List.flatMap · _) ?_
  funext i
  rw [if_neg fun h => hconfig h.1]

/-- **The reply to `g`** holds the registers. -/
theorem registerContents_readRegisters : registerContents (readRegisters io regs) = regs := by
  funext i
  have hdigit (k : ℕ) (hk : k < 8) :
      digitAt (readRegisters io regs) (8 * i.val + k) = digitAt (hexOfWord (regs i)) k := by
    unfold digitAt
    have hget : (List.finRange 42)[i.val]? = some i := by
      rw [List.getElem?_eq_getElem (by rw [List.length_finRange]; exact i.isLt), List.getElem_finRange]
      rfl
    rw [readRegisters_eq io hconfig, List.getD_eq_getElem?_getD, List.getD_eq_getElem?_getD,
      getElem?_flatMap (fun i => length_hexOfWord (regs i)) _ _ hk, hget]
    rfl
  have hbyte (j : ℕ) (hj : j < 4) : digitsAt (readRegisters io regs) (8 * i.val + 2 * j) =
      (regs i).toNat / 2 ^ (8 * j) % 256 := by
    rw [← digitsAt_hexOfWord _ hj]
    unfold digitsAt
    rw [hdigit _ (by omega), Nat.add_assoc, hdigit _ (by omega)]
  unfold registerContents
  dsimp only
  rw [hbyte 0 (by omega), hbyte 1 (by omega), hbyte 2 (by omega), hbyte 3 (by omega)]
  apply BitVec.eq_of_toNat_eq
  rw [BitVec.toNat_ofNat]
  have := (regs i).isLt
  omega

theorem length_readRegisters : (readRegisters io regs).length = 336 := by
  rw [readRegisters_eq io hconfig, List.length_flatMap]
  simp only [length_hexOfWord, List.map_const', List.length_finRange, List.sum_replicate_nat]

theorem digits_readRegisters : ∀ d ∈ readRegisters io regs, (hexValue d).isSome := by
  rw [readRegisters_eq io hconfig]
  intro d hd
  obtain ⟨i, -, hd⟩ := List.mem_flatMap.mp hd
  obtain ⟨j, -, hd⟩ := List.mem_flatMap.mp hd
  obtain ⟨hhi, hlo⟩ := hexValue_hexDigit ((regs i >>> (8 * j)).setWidth 8)
  rcases List.mem_cons.mp hd with rfl | hd
  · rw [hhi]
    rfl
  · rw [List.mem_singleton.mp hd, hlo]
    rfl

end

/-! ### The request -/

theorem digit_ne : ∀ c : Byte, (hexValue c).isSome → c ≠ chr '?' ∧ c ≠ chr 'g' ∧ c ≠ chr 'G' ∧ c ≠ chr 'H' ∧
    c ≠ chr 'k' ∧ c ≠ chr 'm' ∧ c ≠ chr 'M' ∧ c ≠ chr 'q' ∧ c ≠ chr 's' ∧ ¬(c = chr 'z' ∨ c = chr 'Z') := by
  decide

theorem hash_ne_digit {digits : List Byte} (h : ∀ d ∈ digits, (hexValue d).isSome) :
    chr '#' ∉ chr 'G' :: digits := by
  intro hmem
  rcases List.mem_cons.mp hmem with heq | hmem
  · exact absurd heq (by decide)
  · exact absurd (h _ hmem) (by decide)

variable (config : ℕ) (behind : ℕ → Byte)

theorem processPacket_digit {ctx : GdbCtx} (s : Debuggee) (hc : (hexValue (ctx.data_buf 0)).isSome) :
    (processPacket (sessionCallbacks config behind) ctx s).pw.regs = s.regs := by
  obtain ⟨h1, h2, h3, h4, h5, h6, h7, h8, h9, h10⟩ := digit_ne _ hc
  unfold processPacket
  dsimp only
  by_cases hlen : ctx.data_len = 0
  · rw [if_pos hlen]
  · rw [if_neg hlen, if_neg h1]
    by_cases hcont : ctx.data_buf 0 = chr 'c'
    · rw [if_pos hcont]
      rfl
    · rw [if_neg hcont, if_neg h2, if_neg h3, if_neg h4, if_neg h5, if_neg h6, if_neg h7, if_neg h8, if_neg h9,
        if_neg h10]

/-- **A `G` request** comes round in the buffer: it leaves the registers as they are. -/
theorem execute_writeRegisters {g : Gdb Debuggee} (hstate : g.ctx.state = .waitingForPacket)
    {digits : List Byte} (hlength : digits.length = 336) (hdigits : ∀ d ∈ digits, (hexValue d).isSome) :
    (gdbProcessInput (sessionCallbacks config behind) g (sendPacket (chr 'G' :: digits))).pw.regs = g.pw.regs ∧
    (gdbProcessInput (sessionCallbacks config behind) g (sendPacket (chr 'G' :: digits))).ctx.state =
      .waitingForPacket := by
  obtain ⟨ctx, hctx, hsend⟩ :=
    gdbProcessInput_sendPacket (sessionCallbacks config behind) hstate (hash_ne_digit hdigits)
  rw [hsend]
  refine ⟨processPacket_digit config behind _ ?_, rfl⟩
  dsimp only
  generalize hwritten : (WrapBuffer.Buffer.mk g.ctx.data_buf 0).writeAll (chr 'G' :: digits) = written at hctx
  -- the first byte of the buffer is the one at 256 in the payload, a digit
  have hcell : written.cells 0 = digits[255] := by
    have hcell := WrapBuffer.writeAll_cell (WrapBuffer.Buffer.mk g.ctx.data_buf 0)
      (show 256 < (chr 'G' :: digits).length by rw [List.length_cons]; omega)
      (by rw [List.length_cons]; omega)
    rw [hwritten] at hcell
    exact hcell
  have hlen : written.contents.length = 81 := by
    rw [WrapBuffer.length_contents, ← hwritten, WrapBuffer.writeAll_position, List.length_cons, hlength]
    rfl
  obtain ⟨c, rest, hcons⟩ := List.exists_cons_of_length_pos (l := written.contents) (by omega)
  have hfirst : ctx.data_buf 0 = c := WrapBuffer.contents_eq_cons (hctx.trans hcons)
  rw [hfirst, ← WrapBuffer.contents_eq_cons hcons, hcell]
  exact hdigits _ (List.getElem_mem _)

theorem execute_readRegisters {g : Gdb Debuggee} (hstate : g.ctx.state = .waitingForPacket) :
    (gdbProcessInput (sessionCallbacks config behind) g (sendPacket (text "g"))).sent =
      g.sent ++ text "+" ++ sendPacket (readRegisters (sessionCallbacks config behind) g.pw.regs) := by
  obtain ⟨ctx, hctx, hsend⟩ := gdbProcessInput_sendPacket (sessionCallbacks config behind) hstate
    (show chr '#' ∉ text "g" by decide)
  rw [WrapBuffer.contents_writeAll rfl (by decide)] at hctx
  have hfirst : ctx.data_buf 0 = chr 'g' := WrapBuffer.contents_eq_cons hctx
  have hlen : ctx.data_len ≠ 0 := by
    intro hzero
    have hlength := congrArg List.length hctx
    rw [WrapBuffer.length_contents] at hlength
    rw [show ctx.buffer.position = 0 from hzero] at hlength
    cases hlength
  have hserved : processPacket (sessionCallbacks config behind) ctx g.pw =
      ⟨g.pw, ctx.got_killed, some (readRegisters (sessionCallbacks config behind) g.pw.regs)⟩ := by
    unfold processPacket
    dsimp only
    rw [if_neg hlen, hfirst, if_neg (by decide), if_neg (by decide), if_pos rfl]
    rfl
  rw [hsend]
  unfold Gdb.execute
  dsimp only
  rw [hserved]
  rfl

theorem sendPacket_injective {a b : List Byte} (h : sendPacket a = sendPacket b) : a = b :=
  (List.cons.inj (List.append_inj_left' h rfl)).2

/-- What is expected of a `G` request: a following `g` request is answered with its contents, and the contents
that a `g` request was answered with leave the registers as they are. -/
def RoundTrips (g : Gdb Debuggee) (digits : List Byte) : Prop :=
  let io := sessionCallbacks config behind
  let g' := gdbProcessInput io g (sendPacket (chr 'G' :: digits))
  (digits = readRegisters io g.pw.regs → g'.pw.regs = g.pw.regs) ∧
  ∃ reply, (gdbProcessInput io g' (sendPacket (text "g"))).sent = g'.sent ++ text "+" ++ sendPacket reply ∧
    registerContents reply = registerContents digits

theorem RoundTrips.eq {config : ℕ} {behind : ℕ → Byte} (hconfig : config ≠ 26) {g : Gdb Debuggee}
    (hstate : g.ctx.state = .waitingForPacket) {digits : List Byte} (hlength : digits.length = 336)
    (hdigits : ∀ d ∈ digits, (hexValue d).isSome) (h : RoundTrips config behind g digits) :
    registerContents digits = g.pw.regs := by
  obtain ⟨hregs, hwaiting⟩ := execute_writeRegisters config behind hstate hlength hdigits
  obtain ⟨-, reply, hsent, heq⟩ := h
  have hreply := execute_readRegisters config behind hwaiting
  rw [hregs] at hreply
  have hsame := sendPacket_injective (List.append_cancel_left (hsent.symm.trans hreply))
  rw [← heq, hsame]
  exact registerContents_readRegisters (sessionCallbacks config behind) hconfig g.pw.regs

/-- **Registers go round** exactly when they are given the contents they have. -/
theorem registers_roundTrip_iff (hconfig : config ≠ 26) {g : Gdb Debuggee}
    (hstate : g.ctx.state = .waitingForPacket) {digits : List Byte} (hlength : digits.length = 336)
    (hdigits : ∀ d ∈ digits, (hexValue d).isSome) :
    RoundTrips config behind g digits ↔ registerContents digits = g.pw.regs := by
  obtain ⟨hregs, hwaiting⟩ := execute_writeRegisters config behind hstate hlength hdigits
  have hreply := execute_readRegisters config behind hwaiting
  rw [hregs] at hreply
  refine ⟨RoundTrips.eq hconfig hstate hlength hdigits, fun heq => ⟨fun _ => hregs, _, hreply, ?_⟩⟩
  rw [heq]
  exact registerContents_readRegisters (sessionCallbacks config behind) hconfig g.pw.regs

theorem registers_roundTrip_iff_start :
    RoundTrips 32 (fun _ => 0) ⟨newCtx, stopped, [], []⟩
      (readRegisters (sessionCallbacks 32 fun _ => 0) stopped.regs) :=
  (registers_roundTrip_iff 32 (fun _ => 0) (by decide) (g := ⟨newCtx, stopped, [], []⟩) rfl
    (length_readRegisters _ (by decide) _) (digits_readRegisters _ (by decide) _)).mpr
    (registerContents_readRegisters _ (by decide) _)

theorem writeRegisters_lost :
    ¬∀ (g : Gdb Debuggee) (digits : List Byte), g.ctx.state = .waitingForPacket → digits.length = 336 →
      (∀ d ∈ digits, (hexValue d).isSome) → RoundTrips 32 (fun _ => 0) g digits := by
  intro h
  have hlength : (List.replicate 336 (chr '0')).length = 336 := List.length_replicate
  have hdigits : ∀ d ∈ List.replicate 336 (chr '0'), (hexValue d).isSome := by
    intro d hd
    rw [(List.mem_replicate.mp hd).2]
    decide
  have heq := (h ⟨newCtx, stopped, [], []⟩ _ rfl hlength hdigits).eq (by decide) rfl hlength hdigits
  exact absurd (congrFun heq 15) (by decide)

end GdbServer
