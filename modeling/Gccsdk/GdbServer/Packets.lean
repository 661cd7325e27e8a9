import Gccsdk.GdbServer.Gdb
import Mathlib.Data.List.TakeWhile

/-!
# Packets

What a stream from the debugger consists of (`items`), whatever the calls it comes in: interrupts, and packets
`$payload#hh`, with the sum of the payload modulo 256 in `hh` (`IsChecksum`). `Answers` is what is expected for
each.

The length of a payload is kept in 8 bits, and a character that is no digit counts as 0. So
`gdbProcessInput_answers_iff` says which packets are answered as expected: a valid one has to be shorter than the
buffer, and one with other characters for its checksum must not come out right with them read as 0 (`Handled`).
What a context makes of a packet (`Outcome`) is followed through the stream. The packets that are sent are always
well formed (`processPacket_reply`).
-/

namespace GdbServer

/-! ### The stream -/

inductive Item
  | interrupt
  /-- The packet, with the two characters behind the `#`. -/
  | packet (payload : List Byte) (hi lo : Byte)
  deriving DecidableEq

/-- What a stream consists of. Bytes outside of packets other than 3 mean nothing; a packet at the end that is
not complete is not there yet. -/
def items : List Byte → List Item
  | [] => []
  | c :: rest =>
    if c = 3 then .interrupt :: items rest
    else if c = chr '$' then
      match _h : rest.dropWhile (· ≠ chr '#') with
      | _ :: hi :: lo :: rest' => .packet (rest.takeWhile (· ≠ chr '#')) hi lo :: items rest'
      | _ => []
    else items rest
termination_by stream => stream.length
decreasing_by
  · exact Nat.lt_succ_self _
  · have hle := (List.dropWhile_sublist (p := (· ≠ chr '#')) (l := rest)).length_le
    rw [_h] at hle
    simp only [List.length_cons] at hle ⊢
    omega
  · exact Nat.lt_succ_self _

theorem items_nil : items [] = [] := by
  rw [items]

theorem items_packet {rest rest' : List Byte} {hash hi lo : Byte}
    (h : rest.dropWhile (· ≠ chr '#') = hash :: hi :: lo :: rest') :
    items (chr '$' :: rest) = .packet (rest.takeWhile (· ≠ chr '#')) hi lo :: items rest' := by
  rw [items, if_neg (by decide), if_pos rfl]
  split
  · next heq =>
    cases h.symm.trans heq
    rfl
  · next hnone => exact absurd h (hnone _ _ _ _)

theorem items_incomplete {rest : List Byte}
    (h : ∀ hash hi lo rest', rest.dropWhile (· ≠ chr '#') ≠ hash :: hi :: lo :: rest') :
    items (chr '$' :: rest) = [] := by
  rw [items, if_neg (by decide), if_pos rfl]
  split
  · next heq => exact absurd heq (h _ _ _ _)
  · rfl

def hexValue (c : Byte) : Option ℕ :=
  if chr '0' ≤ c ∧ c ≤ chr '9' then some (c.toNat - (chr '0').toNat)
  else if chr 'a' ≤ c ∧ c ≤ chr 'f' then some (10 + (c.toNat - (chr 'a').toNat))
  else if chr 'A' ≤ c ∧ c ≤ chr 'F' then some (10 + (c.toNat - (chr 'A').toNat))
  else none

/-- The two characters are digits that give the sum of the payload modulo 256. -/
def IsChecksum (payload : List Byte) (hi lo : Byte) : Prop :=
  ∃ h l, hexValue hi = some h ∧ hexValue lo = some l ∧ 16 * h + l = (payload.map BitVec.toNat).sum % 256

/-- **What is expected**: a valid packet is executed or refused, others are refused. -/
inductive Answers : Item → GdbAction → Prop
  | interrupt : Answers .interrupt .interrupt
  | executed {payload : List Byte} {hi lo : Byte} :
    IsChecksum payload hi lo → Answers (.packet payload hi lo) (.execute payload)
  | refused (payload : List Byte) (hi lo : Byte) : Answers (.packet payload hi lo) .refuse

def Item.Handled : Item → Prop
  | .interrupt => True
  | .packet payload hi lo =>
    (IsChecksum payload hi lo → payload.length < 256) ∧
    ((hexToInt hi <<< 4 + hexToInt lo).toNat = (payload.map BitVec.toNat).sum % 256 →
      (hexValue hi).isSome ∧ (hexValue lo).isSome)

/-! ### Digits and sums -/

theorem hexToInt_of_hexValue : ∀ c : Byte, ∀ v ∈ hexValue c, (hexToInt c).toNat = v ∧ v < 16 := by
  decide

theorem hexToInt_pair {hi lo : Byte} {h l : ℕ} (hhi : hexValue hi = some h) (hlo : hexValue lo = some l) :
    (hexToInt hi <<< 4 + hexToInt lo).toNat = 16 * h + l := by
  obtain ⟨hh, hhlt⟩ := hexToInt_of_hexValue hi h hhi
  obtain ⟨hl, hllt⟩ := hexToInt_of_hexValue lo l hlo
  rw [BitVec.toNat_add, BitVec.toNat_shiftLeft, hh, hl, Nat.shiftLeft_eq]
  omega

theorem toNat_sum (payload : List Byte) (c : Byte) :
    (payload.foldl (· + ·) c).toNat = (c.toNat + (payload.map BitVec.toNat).sum) % 256 := by
  induction payload generalizing c with
  | nil =>
    have := c.isLt
    simp only [List.foldl_nil, List.map_nil, List.sum_nil]
    omega
  | cons b rest ih =>
    rw [List.foldl_cons, ih, BitVec.toNat_add, List.map_cons, List.sum_cons]
    omega

theorem toNat_sum_zero (payload : List Byte) :
    (payload.foldl (· + ·) (0 : Byte)).toNat = (payload.map BitVec.toNat).sum % 256 := by
  rw [toNat_sum]
  exact congrArg (· % 256) (Nat.zero_add _)

/-! ### What becomes of an item -/

/-- What a context makes of an item, with what happens to be in its buffer. -/
inductive Outcome : Item → GdbAction → Prop
  | interrupt : Outcome .interrupt .interrupt
  | executed {payload : List Byte} {hi lo : Byte} (b : WrapBuffer.Buffer 8 Byte) :
    b.position = 0 → payload.foldl (· + ·) 0 = hexToInt hi <<< 4 + hexToInt lo →
    Outcome (.packet payload hi lo) (.execute (b.writeAll payload).contents)
  | refused {payload : List Byte} {hi lo : Byte} :
    payload.foldl (· + ·) 0 ≠ hexToInt hi <<< 4 + hexToInt lo → Outcome (.packet payload hi lo) .refuse

theorem IsChecksum.sum_eq {payload : List Byte} {hi lo : Byte} (h : IsChecksum payload hi lo) :
    payload.foldl (· + ·) 0 = hexToInt hi <<< 4 + hexToInt lo := by
  obtain ⟨h, l, hhi, hlo, hsum⟩ := h
  apply BitVec.eq_of_toNat_eq
  rw [hexToInt_pair hhi hlo, hsum, toNat_sum_zero]

theorem IsChecksum.of_digits {payload : List Byte} {hi lo : Byte}
    (hsum : payload.foldl (· + ·) 0 = hexToInt hi <<< 4 + hexToInt lo) (hhi : (hexValue hi).isSome)
    (hlo : (hexValue lo).isSome) : IsChecksum payload hi lo := by
  obtain ⟨h, hhi⟩ := Option.isSome_iff_exists.mp hhi
  obtain ⟨l, hlo⟩ := Option.isSome_iff_exists.mp hlo
  refine ⟨h, l, hhi, hlo, ?_⟩
  rw [← hexToInt_pair hhi hlo, ← hsum, toNat_sum_zero]

theorem IsChecksum.isSome {payload : List Byte} {hi lo : Byte} (h : IsChecksum payload hi lo) :
    (hexValue hi).isSome ∧ (hexValue lo).isSome := by
  obtain ⟨h, l, hhi, hlo, -⟩ := h
  exact ⟨Option.isSome_iff_exists.mpr ⟨h, hhi⟩, Option.isSome_iff_exists.mpr ⟨l, hlo⟩⟩

/-- **An item is answered as expected** exactly when it is handled. -/
theorem Outcome.answers_iff {item : Item} {action : GdbAction} (h : Outcome item action) :
    Answers item action ↔ item.Handled := by
  cases h with
  | interrupt => exact ⟨fun _ => trivial, fun _ => .interrupt⟩
  | @executed payload hi lo b hb hsum =>
    constructor
    · intro h
      generalize hread : (b.writeAll payload).contents = read at h
      cases h with
      | executed hcheck =>
        refine ⟨fun _ => ?_, fun _ => hcheck.isSome⟩
        have hlt := WrapBuffer.length_contents_lt (b.writeAll payload)
        rw [hread] at hlt
        exact hlt
    · intro ⟨hfit, hdigits⟩
      have hnat : (hexToInt hi <<< 4 + hexToInt lo).toNat = (payload.map BitVec.toNat).sum % 256 := by
        rw [← hsum, toNat_sum_zero]
      have hcheck := IsChecksum.of_digits hsum (hdigits hnat).1 (hdigits hnat).2
      rw [WrapBuffer.contents_writeAll hb (hfit hcheck)]
      exact .executed hcheck
  | refused hsum =>
    refine ⟨fun _ => ⟨fun hcheck => absurd hcheck.sum_eq hsum, fun hnat => ?_⟩, fun _ => .refused _ _ _⟩
    refine absurd (BitVec.eq_of_toNat_eq ?_) hsum
    rw [hnat, toNat_sum_zero]

theorem forall₂_answers_iff {items : List Item} {actions : List GdbAction}
    (h : List.Forall₂ Outcome items actions) :
    List.Forall₂ Answers items actions ↔ ∀ item ∈ items, item.Handled := by
  induction h with
  | nil => exact ⟨fun _ => nofun, fun _ => .nil⟩
  | cons houtcome _ ih =>
    rw [List.forall₂_cons, List.forall_mem_cons, houtcome.answers_iff, ih]

/-! ### The input -/

section Input
variable {σ : Type} (io : GdbCallbacks σ) {g : Gdb σ}

theorem gdbProcessInput_append (g : Gdb σ) (data data' : List Byte) :
    gdbProcessInput io g (data ++ data') = gdbProcessInput io (gdbProcessInput io g data) data' :=
  List.foldl_append

theorem gdbProcessInput_flatten (g : Gdb σ) (input : List (List Byte)) :
    input.foldl (gdbProcessInput io) g = gdbProcessInput io g input.flatten := by
  induction input generalizing g with
  | nil => rfl
  | cons data rest ih =>
    rw [List.foldl_cons, ih, List.flatten_cons, gdbProcessInput_append]

theorem gdbProcessInput_payload (hstate : g.ctx.state = .readPacketData) {payload : List Byte}
    (hpayload : chr '#' ∉ payload) :
    gdbProcessInput io g payload = { g with ctx := { g.ctx with
      checksum := payload.foldl (· + ·) g.ctx.checksum
      data_buf := (g.ctx.buffer.writeAll payload).cells
      data_len := (g.ctx.buffer.writeAll payload).position } } := by
  induction payload generalizing g with
  | nil => rfl
  | cons c rest ih =>
    obtain ⟨hc, hrest⟩ := not_or.mp (mt List.mem_cons.mpr hpayload)
    have hbyte : gdbProcessByte io g c = { g with ctx := { g.ctx with
        checksum := g.ctx.checksum + c
        data_buf := Function.update g.ctx.data_buf g.ctx.data_len c
        data_len := g.ctx.data_len + 1 } } := by
      unfold gdbProcessByte
      dsimp only
      rw [hstate]
      dsimp only
      rw [if_neg (Ne.symm hc)]
    change gdbProcessInput io (gdbProcessByte io g c) rest = _
    rw [hbyte]
    exact ih hstate hrest

abbrev Gdb.begun (g : Gdb σ) : Gdb σ :=
  { g with ctx := { g.ctx with checksum := 0, data_len := 0, state := .readPacketData } }

theorem gdbProcessByte_dollar (hstate : g.ctx.state = .waitingForPacket) :
    gdbProcessByte io g (chr '$') = g.begun := by
  unfold gdbProcessByte
  dsimp only
  rw [hstate]
  rfl

theorem gdbProcessInput_checksum (hstate : g.ctx.state = .readPacketData) (hi lo : Byte) :
    ∃ ctx : GdbCtx, ctx.payload = g.ctx.payload ∧
      gdbProcessInput io g [chr '#', hi, lo] =
        let g' := if g.ctx.checksum ≠ hexToInt hi <<< 4 + hexToInt lo then Gdb.refuse { g with ctx }
          else Gdb.execute io { g with ctx }
        { g' with ctx := { g'.ctx with state := .waitingForPacket } } := by
  refine ⟨{ g.ctx with
    refcksum := hexToInt hi <<< 4 + hexToInt lo
    data_buf := Function.update g.ctx.data_buf g.ctx.data_len 0
    state := .readChecksum2 }, WrapBuffer.contents_terminate g.ctx.buffer 0, ?_⟩
  have hhash : gdbProcessByte io g (chr '#') = { g with ctx := { g.ctx with state := .readChecksum1 } } := by
    unfold gdbProcessByte
    dsimp only
    rw [hstate]
    rfl
  change gdbProcessByte io (gdbProcessByte io (gdbProcessByte io g (chr '#')) hi) lo = _
  rw [hhash]
  rfl

theorem gdbProcessInput_whole (hstate : g.ctx.state = .waitingForPacket) {payload : List Byte}
    (hpayload : chr '#' ∉ payload) (hi lo : Byte) :
    ∃ ctx : GdbCtx, ctx.payload = ((WrapBuffer.Buffer.mk g.ctx.data_buf 0).writeAll payload).contents ∧
      gdbProcessInput io g (chr '$' :: payload ++ [chr '#', hi, lo]) =
        let g' := if payload.foldl (· + ·) 0 ≠ hexToInt hi <<< 4 + hexToInt lo then Gdb.refuse { g with ctx }
          else Gdb.execute io { g with ctx }
        { g' with ctx := { g'.ctx with state := .waitingForPacket } } := by
  have hread : gdbProcessInput io g (chr '$' :: payload) = { g with ctx := { g.ctx with
      state := .readPacketData
      checksum := payload.foldl (· + ·) 0
      data_buf := ((WrapBuffer.Buffer.mk g.ctx.data_buf 0).writeAll payload).cells
      data_len := ((WrapBuffer.Buffer.mk g.ctx.data_buf 0).writeAll payload).position } } := by
    change gdbProcessInput io (gdbProcessByte io g (chr '$')) payload = _
    rw [gdbProcessByte_dollar io hstate, gdbProcessInput_payload io rfl hpayload]
  rw [gdbProcessInput_append, hread]
  exact gdbProcessInput_checksum io (g := { g with ctx := { g.ctx with
      state := .readPacketData
      checksum := payload.foldl (· + ·) 0
      data_buf := ((WrapBuffer.Buffer.mk g.ctx.data_buf 0).writeAll payload).cells
      data_len := ((WrapBuffer.Buffer.mk g.ctx.data_buf 0).writeAll payload).position } }) rfl hi lo

theorem gdbProcessInput_packet (hstate : g.ctx.state = .waitingForPacket) {payload : List Byte}
    (hpayload : chr '#' ∉ payload) (hi lo : Byte) :
    (gdbProcessInput io g (chr '$' :: payload ++ [chr '#', hi, lo])).ctx.state = .waitingForPacket ∧
    ∃ action, (gdbProcessInput io g (chr '$' :: payload ++ [chr '#', hi, lo])).actions =
      g.actions ++ [action] ∧ Outcome (.packet payload hi lo) action := by
  obtain ⟨ctx, hctx, hwhole⟩ := gdbProcessInput_whole io hstate hpayload hi lo
  rw [hwhole]
  refine ⟨rfl, ?_⟩
  dsimp only
  by_cases hsum : payload.foldl (· + ·) 0 = hexToInt hi <<< 4 + hexToInt lo
  · rw [if_neg (not_not.mpr hsum)]
    refine ⟨.execute ctx.payload, rfl, ?_⟩
    rw [hctx]
    exact .executed ⟨g.ctx.data_buf, 0⟩ rfl hsum
  · rw [if_pos hsum]
    exact ⟨.refuse, rfl, .refused hsum⟩

theorem eq_hash_of_dropWhile {rest tail : List Byte} {c : Byte}
    (h : rest.dropWhile (· ≠ chr '#') = c :: tail) : c = chr '#' := by
  have hhead := List.head?_dropWhile_not (· ≠ chr '#') rest
  rw [h] at hhead
  exact of_not_not (of_decide_eq_false hhead)

theorem hash_notMem_takeWhile (rest : List Byte) : chr '#' ∉ rest.takeWhile (· ≠ chr '#') := by
  intro hmem
  have hne := List.mem_takeWhile_imp hmem
  exact of_decide_eq_true hne rfl

theorem gdbProcessInput_incomplete (hstate : g.ctx.state = .readPacketData) {payload : List Byte}
    (hpayload : chr '#' ∉ payload) {tail : List Byte} (htail : tail = [] ∨ tail = [chr '#'] ∨
      ∃ hi, tail = [chr '#', hi]) :
    (gdbProcessInput io g (payload ++ tail)).actions = g.actions := by
  rw [gdbProcessInput_append, gdbProcessInput_payload io hstate hpayload]
  rcases htail with rfl | rfl | ⟨hi, rfl⟩
  · rfl
  all_goals
    unfold gdbProcessInput
    simp only [List.foldl_cons, List.foldl_nil, gdbProcessByte, hstate, if_pos]

theorem gdbProcessInput_outcomes (hstate : g.ctx.state = .waitingForPacket) (stream : List Byte) :
    ∃ actions, (gdbProcessInput io g stream).actions = g.actions ++ actions ∧
      List.Forall₂ Outcome (items stream) actions := by
  induction stream using items.induct generalizing g with
  | case1 =>
    rw [items]
    exact ⟨[], (List.append_nil _).symm, .nil⟩
  | case2 rest ih =>
    have hbyte : gdbProcessByte io g 3 =
        { g with pw := io.brk g.pw, actions := g.actions ++ [.interrupt] } := by
      unfold gdbProcessByte
      dsimp only
      rw [hstate]
      rfl
    obtain ⟨actions, hactions, houtcomes⟩ := ih (g := gdbProcessByte io g 3) (by rw [hbyte]; exact hstate)
    rw [items, if_pos rfl]
    refine ⟨.interrupt :: actions, hactions.trans ?_, .cons .interrupt houtcomes⟩
    rw [hbyte]
    exact List.append_assoc _ _ _
  | case3 rest hash hi lo rest' hdrop _ ih =>
    -- the packet first, then the rest of the stream
    have hsplit : chr '$' :: rest =
        (chr '$' :: rest.takeWhile (· ≠ chr '#') ++ [chr '#', hi, lo]) ++ rest' := by
      conv_lhs => rw [← List.takeWhile_append_dropWhile (p := (· ≠ chr '#')) (l := rest), hdrop,
        eq_hash_of_dropWhile hdrop]
      simp only [List.cons_append, List.append_assoc, List.nil_append]
    obtain ⟨hwaiting, action, haction, houtcome⟩ :=
      gdbProcessInput_packet io hstate (hash_notMem_takeWhile rest) hi lo
    obtain ⟨actions, hactions, houtcomes⟩ := ih hwaiting
    rw [items_packet hdrop, hsplit, gdbProcessInput_append]
    refine ⟨action :: actions, hactions.trans ?_, .cons houtcome houtcomes⟩
    rw [haction]
    exact List.append_assoc _ _ _
  | case4 rest hincomplete _ =>
    rw [items_incomplete hincomplete]
    refine ⟨[], ?_, .nil⟩
    rw [List.append_nil]
    change (gdbProcessInput io (gdbProcessByte io g (chr '$')) rest).actions = g.actions
    rw [gdbProcessByte_dollar io hstate,
      ← List.takeWhile_append_dropWhile (p := (· ≠ chr '#')) (l := rest)]
    refine gdbProcessInput_incomplete io (g := g.begun) rfl (hash_notMem_takeWhile rest) ?_
    rcases hdrop : rest.dropWhile (· ≠ chr '#') with _ | ⟨hash, _ | ⟨hi, _ | ⟨lo, rest'⟩⟩⟩
    · exact Or.inl rfl
    · rw [eq_hash_of_dropWhile hdrop]
      exact Or.inr (Or.inl rfl)
    · rw [eq_hash_of_dropWhile hdrop]
      exact Or.inr (Or.inr ⟨hi, rfl⟩)
    · exact absurd hdrop (hincomplete _ _ _ _)
  | case5 c rest hc hdollar ih =>
    have hbyte : gdbProcessByte io g c = g := by
      unfold gdbProcessByte
      dsimp only
      rw [hstate]
      dsimp only
      rw [if_neg hc, if_neg hdollar]
    rw [items, if_neg hc, if_neg hdollar]
    change ∃ actions, (gdbProcessInput io (gdbProcessByte io g c) rest).actions = _ ∧ _
    rw [hbyte]
    exact ih hstate

end Input

/-! ### The packets that are sent -/

def IsPacket (bytes payload : List Byte) : Prop :=
  ∃ hi lo, bytes = chr '$' :: payload ++ [chr '#', hi, lo] ∧ chr '#' ∉ payload ∧ IsChecksum payload hi lo

theorem hexValue_hexDigit : ∀ b : Byte, hexValue (hexDigit (b >>> 4)) = some (b.toNat / 16) ∧
    hexValue (hexDigit (b &&& 0xf)) = some (b.toNat % 16) := by
  decide

theorem hexDigit_ne_hash : ∀ n : Byte, chr '#' ≠ hexDigit n := by
  decide

theorem sendPacket_isPacket {payload : List Byte} (h : chr '#' ∉ payload) :
    IsPacket (sendPacket payload) payload := by
  have hsum := toNat_sum_zero payload
  obtain ⟨hhi, hlo⟩ := hexValue_hexDigit (payload.foldl (· + ·) 0)
  refine ⟨_, _, rfl, h, _, _, hhi, hlo, ?_⟩
  rw [← hsum]
  omega

theorem gdbProcessInput_sendPacket {σ : Type} (io : GdbCallbacks σ) {g : Gdb σ}
    (hstate : g.ctx.state = .waitingForPacket) {payload : List Byte} (hpayload : chr '#' ∉ payload) :
    ∃ ctx : GdbCtx, ctx.payload = ((WrapBuffer.Buffer.mk g.ctx.data_buf 0).writeAll payload).contents ∧
      gdbProcessInput io g (sendPacket payload) =
        let g' := Gdb.execute io { g with ctx }
        { g' with ctx := { g'.ctx with state := .waitingForPacket } } := by
  obtain ⟨hi, lo, hsend, -, hcheck⟩ := sendPacket_isPacket hpayload
  obtain ⟨ctx, hctx, hwhole⟩ := gdbProcessInput_whole io hstate hpayload hi lo
  refine ⟨ctx, hctx, ?_⟩
  rw [hsend, hwhole, if_neg (not_not.mpr hcheck.sum_eq)]

theorem hash_notMem_hexOfByte (b : Byte) : chr '#' ∉ hexOfByte b := by
  intro hmem
  rcases List.mem_cons.mp hmem with heq | hmem
  · exact hexDigit_ne_hash _ heq
  · exact hexDigit_ne_hash _ (List.mem_singleton.mp hmem)

theorem hash_notMem_readRegisters {σ : Type} (io : GdbCallbacks σ) (regs : CpuRegisters) :
    chr '#' ∉ readRegisters io regs := by
  intro hmem
  obtain ⟨i, -, hmem⟩ := List.mem_flatMap.mp hmem
  obtain ⟨j, -, hmem⟩ := List.mem_flatMap.mp hmem
  exact hash_notMem_hexOfByte _ hmem

private theorem getD_ite {c : Prop} [Decidable c] {a b : Option (List Byte)} (ha : chr '#' ∉ a.getD [])
    (hb : chr '#' ∉ b.getD []) : chr '#' ∉ (if c then a else b).getD [] := by
  split
  · exact ha
  · exact hb

theorem hash_notMem_readMemory {σ : Type} (io : GdbCallbacks σ) (ctx : GdbCtx) (pw : σ) :
    chr '#' ∉ (readMemory io ctx pw).getD [] := by
  refine getD_ite List.not_mem_nil (getD_ite List.not_mem_nil ?_)
  rw [Option.getD_some]
  intro hmem
  obtain ⟨i, -, hmem⟩ := List.mem_flatMap.mp hmem
  exact hash_notMem_hexOfByte _ hmem

theorem hash_notMem_query (ctx : GdbCtx) : chr '#' ∉ (query ctx).getD [] := by
  unfold query
  dsimp only
  refine getD_ite (getD_ite ?_ ?_) (getD_ite (getD_ite ?_ (getD_ite ?_ ?_)) (getD_ite (getD_ite ?_
    (getD_ite ?_ ?_)) ?_)) <;> decide

theorem hash_notMem_breakpoint {σ : Type} (io : GdbCallbacks σ) (ctx : GdbCtx) (pw : σ) :
    chr '#' ∉ (breakpoint io ctx pw).2 := by
  have hreply (success : Bool) : chr '#' ∉ if success = true then text "OK" else text "E00" := by
    cases success <;> decide
  unfold breakpoint
  dsimp only
  by_cases hkind : ctx.data_buf 1 ≠ chr '0' ∨ (strtoul (ctx.from (3 + (strtoul (ctx.from 3)).2 + 1))).1 ≠ 4
  · rw [if_pos hkind]
    exact List.not_mem_nil
  · rw [if_neg hkind]
    exact hreply _

theorem hash_notMem_setThread (ctx : GdbCtx) : chr '#' ∉ setThread ctx := by
  unfold setThread
  dsimp only
  generalize strtol (ctx.from 2) = thread
  split_ifs <;> decide

/-- If there is a reply, it has no `#`. -/
def Served.Clean {σ : Type} (served : Served σ) : Prop :=
  ∀ payload, served.reply = some payload → chr '#' ∉ payload

namespace Served.Clean
variable {σ : Type}

theorem silent (pw : σ) (killed : Bool) : Served.Clean ⟨pw, killed, none⟩ := nofun

theorem reply (pw : σ) (killed : Bool) {payload : List Byte} (h : chr '#' ∉ payload) :
    Served.Clean ⟨pw, killed, some payload⟩ := by
  intro payload' heq
  cases heq
  exact h

theorem ite {c : Prop} [Decidable c] {a b : Served σ} (ha : a.Clean) (hb : b.Clean) :
    (if c then a else b).Clean := by
  split
  · exact ha
  · exact hb

end Served.Clean

theorem processPacket_clean {σ : Type} (io : GdbCallbacks σ) (ctx : GdbCtx) (pw : σ) :
    (processPacket io ctx pw).Clean := by
  unfold processPacket
  refine .ite (.silent _ _) (.ite (.reply _ _ (by decide)) (.ite (.silent _ _) (.ite (.reply _ _ ?_)
    (.ite (.reply _ _ (by decide)) (.ite (.reply _ _ ?_) (.ite (.silent _ _) (.ite (.reply _ _ ?_)
    (.ite (.reply _ _ (by decide)) (.ite (.reply _ _ ?_) (.ite (.silent _ _) (.ite (.reply _ _ ?_)
    (.reply _ _ List.not_mem_nil))))))))))))
  · exact hash_notMem_readRegisters _ _
  · exact hash_notMem_setThread _
  · exact hash_notMem_readMemory _ _ _
  · exact hash_notMem_query _
  · exact hash_notMem_breakpoint _ _ _

/-- **A reply** is sent as a well-formed packet. -/
theorem processPacket_reply {σ : Type} (io : GdbCallbacks σ) (ctx : GdbCtx) (pw : σ) {payload : List Byte}
    (h : (processPacket io ctx pw).reply = some payload) : IsPacket (sendPacket payload) payload :=
  sendPacket_isPacket (processPacket_clean io ctx pw payload h)

/-- **Framing.** For every stream, however it is cut into calls: its items are answered as expected, and the
replies are well-formed packets, exactly when each packet is handled. -/
theorem gdbProcessInput_answers_iff {σ : Type} (io : GdbCallbacks σ) (ctx : GdbCtx) (pw : σ)
    (input : List (List Byte)) (hstart : ctx.state = .waitingForPacket) :
    (List.Forall₂ Answers (items input.flatten)
        (input.foldl (gdbProcessInput io) ⟨ctx, pw, [], []⟩).actions ∧
      ∀ ctx pw payload, (processPacket io ctx pw).reply = some payload → IsPacket (sendPacket payload) payload) ↔
    ∀ item ∈ items input.flatten, item.Handled := by
  obtain ⟨actions, hactions, houtcomes⟩ :=
    gdbProcessInput_outcomes io (g := ⟨ctx, pw, [], []⟩) hstart input.flatten
  rw [gdbProcessInput_flatten, hactions]
  exact ⟨fun h => (forall₂_answers_iff houtcomes).mp h.1,
    fun h => ⟨(forall₂_answers_iff houtcomes).mpr h, fun ctx pw _ => processPacket_reply io ctx pw⟩⟩

theorem gdbProcessInput_answers_iff_halt :
    List.Forall₂ Answers (items (text "$?#3f")) ([text "$?", text "#3f"].foldl
      (gdbProcessInput (sessionCallbacks 32 fun _ => 0)) ⟨newCtx, stopped, [], []⟩).actions := by
  have hitems : items (text "$?#3f") = [.packet (text "?") (chr '3') (chr 'f')] :=
    (@items_packet (text "?#3f") _ _ _ _ rfl).trans (congrArg (_ :: ·) items_nil)
  refine ((gdbProcessInput_answers_iff _ newCtx stopped [text "$?", text "#3f"] rfl).mpr fun item hitem => ?_).1
  change item ∈ items (text "$?#3f") at hitem
  rw [hitems] at hitem
  obtain rfl := List.mem_singleton.mp hitem
  exact ⟨fun _ => by decide, fun _ => by decide⟩

theorem damaged_executed :
    ¬∀ (ctx : GdbCtx) (pw : Debuggee) (input : List (List Byte)), ctx.state = .waitingForPacket →
      List.Forall₂ Answers (items input.flatten)
        (input.foldl (gdbProcessInput (sessionCallbacks 32 fun _ => 0)) ⟨ctx, pw, [], []⟩).actions := by
  intro h
  have hanswers := h newCtx stopped [text "$cm#d?"] rfl
  have hitems : items (text "$cm#d?") = [.packet (text "cm") (chr 'd') (chr '?')] :=
    (@items_packet (text "cm#d?") _ _ _ _ rfl).trans (congrArg (_ :: ·) items_nil)
  have hactions : ([text "$cm#d?"].foldl (gdbProcessInput (sessionCallbacks 32 fun _ => 0))
      ⟨newCtx, stopped, [], []⟩).actions = [.execute (text "cm")] := rfl
  change List.Forall₂ Answers (items (text "$cm#d?")) _ at hanswers
  rw [hitems, hactions] at hanswers
  cases hanswers with
  | cons hanswer _ =>
    cases hanswer with
    | executed hcheck => exact absurd hcheck.isSome.2 (by decide)

end GdbServer
