import Gccsdk.Lib.CheckedRun

/-!
# A block that is written from the front

A block with a place in it, where the next byte is written (`Buf`): what is in front of the place, and the room behind
it. Bytes are put there one by one (`put`, `puts`), or one is written without going on (`here`); with no room left
the writer leaves the block. So writing is safe just if there is room (`safe_puts`), and what is written before does
not change that: only lengths count.
-/

namespace WriteCursor

open CheckedRun

/-- **A block, and a place in it.** -/
structure Buf where
  text : List UInt8
  room : List UInt8
  deriving DecidableEq

/-- `*out++ = c` -/
def put (c : UInt8) (b : Buf) : Run Buf :=
  match b.room with
  | [] => throw .outside
  | _ :: room => pure ⟨b.text ++ [c], room⟩

def puts : List UInt8 → Buf → Run Buf
  | [], b => pure b
  | c :: l, b => do
    let b ← put c b
    puts l b

/-- `*out = c` -/
def here (c : UInt8) (b : Buf) : Run Buf :=
  match b.room with
  | [] => throw .outside
  | _ :: room => pure ⟨b.text, c :: room⟩

/-- `out[-1] = c` -/
def setLast (c : UInt8) (b : Buf) : Run Buf :=
  if b.text = [] then throw .outside else pure ⟨b.text.dropLast ++ [c], b.room⟩

/-- `*--out = c` -/
def stepBack (c : UInt8) (b : Buf) : Run Buf :=
  if b.text = [] then throw .outside else pure ⟨b.text.dropLast, c :: b.room⟩

def Buf.block (b : Buf) : List UInt8 := b.text ++ b.room

theorem put_eq (c : UInt8) (b : Buf) :
    put c b = if 1 ≤ b.room.length then .ok ⟨b.text ++ [c], b.room.drop 1⟩ else .error .outside := by
  obtain ⟨text, room⟩ := b
  cases room with
  | nil => rfl
  | cons d room => rfl

theorem puts_eq (l : List UInt8) (b : Buf) :
    puts l b = if l.length ≤ b.room.length then .ok ⟨b.text ++ l, b.room.drop l.length⟩ else .error .outside := by
  induction l generalizing b with
  | nil =>
    rw [List.append_nil]
    exact (if_pos (Nat.zero_le _)).symm
  | cons c l ih =>
    rw [puts, put_eq]
    by_cases h : 1 ≤ b.room.length
    · rw [if_pos h, ok_bind, ih]
      change (if l.length ≤ (b.room.drop 1).length then _ else _) = _
      rw [List.length_drop, List.length_cons, List.append_assoc, List.singleton_append, List.drop_drop,
        Nat.add_comm 1 l.length]
      by_cases hl : l.length ≤ b.room.length - 1
      · rw [if_pos hl, if_pos (by omega)]
      · rw [if_neg hl, if_neg (by omega)]
    · rw [if_neg h, if_neg (by rw [List.length_cons]; omega)]
      rfl

theorem here_eq (c : UInt8) (b : Buf) :
    here c b = if 1 ≤ b.room.length then .ok ⟨b.text, c :: b.room.drop 1⟩ else .error .outside := by
  obtain ⟨text, room⟩ := b
  cases room with
  | nil => rfl
  | cons d room => rfl

theorem puts_append (l m : List UInt8) (b : Buf) : puts (l ++ m) b = (puts l b >>= puts m) := by
  induction l generalizing b with
  | nil => rfl
  | cons c l ih =>
    change (put c b >>= fun b => puts (l ++ m) b) = ((put c b >>= fun b => puts l b) >>= puts m)
    rw [bind_assoc]
    exact congrArg _ (funext ih)

/-! ### Writing is safe if there is room -/

theorem givesIff_put (c : UInt8) (b : Buf) :
    GivesIff (put c b) (1 ≤ b.room.length) fun b' => b' = ⟨b.text ++ [c], b.room.drop 1⟩ := by
  rw [put_eq]
  exact givesIff_ite fun _ => rfl

theorem givesIff_puts (l : List UInt8) (b : Buf) :
    GivesIff (puts l b) (l.length ≤ b.room.length) fun b' => b' = ⟨b.text ++ l, b.room.drop l.length⟩ := by
  rw [puts_eq]
  exact givesIff_ite fun _ => rfl

theorem givesIff_here (c : UInt8) (b : Buf) :
    GivesIff (here c b) (1 ≤ b.room.length) fun b' => b' = ⟨b.text, c :: b.room.drop 1⟩ := by
  rw [here_eq]
  exact givesIff_ite fun _ => rfl

theorem givesIff_puts_here (l : List UInt8) (c : UInt8) (b : Buf) :
    GivesIff (puts l b >>= here c) (l.length + 1 ≤ b.room.length)
      fun b' => b' = ⟨b.text ++ l, c :: b.room.drop (l.length + 1)⟩ := by
  refine ((givesIff_puts l b).bind (d := 1 ≤ b.room.length - l.length) fun b' _ hb' => ?_).imp (by omega)
    fun _ _ h => h
  rw [hb']
  refine (givesIff_here c _).imp ?_ fun b'' _ h => ?_
  · rw [List.length_drop]
  · rw [h, List.drop_drop]

/-! ### Going to a place -/

/-- The block, with the place `k`. -/
def Buf.seek (k : ℕ) (b : Buf) : Buf := ⟨b.block.take k, b.block.drop k⟩

@[simp] theorem Buf.block_seek (k : ℕ) (b : Buf) : (b.seek k).block = b.block := List.take_append_drop k b.block

variable {b : Buf}

theorem Buf.length_text_seek {k : ℕ} (h : k ≤ b.block.length) : (b.seek k).text.length = k :=
  List.length_take_of_le h

theorem Buf.length_room_seek (k : ℕ) (b : Buf) : (b.seek k).room.length = b.block.length - k := List.length_drop

theorem Buf.text_seek {k : ℕ} (h : k ≤ b.text.length) : (b.seek k).text = b.text.take k :=
  List.take_append_of_le_length h

theorem Buf.length_block (b : Buf) : b.block.length = b.text.length + b.room.length := List.length_append

/-! ### Writing, for runs that may give up -/

theorem ensures_put {c : UInt8} {post : Buf → Prop} :
    Ensures (put c b) post ↔ 1 ≤ b.room.length ∧ post ⟨b.text ++ [c], b.room.drop 1⟩ := by
  rw [put_eq]
  exact ensures_ite_outside

theorem ensures_puts {l : List UInt8} {post : Buf → Prop} :
    Ensures (puts l b) post ↔ l.length ≤ b.room.length ∧ post ⟨b.text ++ l, b.room.drop l.length⟩ := by
  rw [puts_eq]
  exact ensures_ite_outside

theorem ensures_here {c : UInt8} {post : Buf → Prop} :
    Ensures (here c b) post ↔ 1 ≤ b.room.length ∧ post ⟨b.text, c :: b.room.drop 1⟩ := by
  rw [here_eq]
  exact ensures_ite_outside

/-- A block of `n` bytes in which a string is written: what stands in front of the place has no NUL. -/
structure Held (n : ℕ) (b : Buf) : Prop where
  block : b.block.length = n
  noNul : 0 ∉ b.text

theorem Held.length {n : ℕ} (h : Held n b) : b.text.length + b.room.length = n :=
  b.length_block.symm.trans h.block

theorem Held.puts {n : ℕ} (h : Held n b) {l : List UInt8} (hroom : l.length ≤ b.room.length) (hl : 0 ∉ l) :
    Held n ⟨b.text ++ l, b.room.drop l.length⟩ where
  block := by
    rw [Buf.length_block, List.length_append, List.length_drop, ← h.length]
    omega
  noNul := by
    rw [List.mem_append, not_or]
    exact ⟨h.noNul, hl⟩

theorem Held.put {n : ℕ} (h : Held n b) {c : UInt8} (hroom : 1 ≤ b.room.length) (hc : c ≠ 0) :
    Held n ⟨b.text ++ [c], b.room.drop 1⟩ :=
  h.puts hroom fun hmem => hc (List.mem_singleton.mp hmem).symm

theorem Held.here {n : ℕ} (h : Held n b) {c : UInt8} (hroom : 1 ≤ b.room.length) :
    Held n ⟨b.text, c :: b.room.drop 1⟩ where
  block := by
    have hlen := h.length
    rw [Buf.length_block]
    change b.text.length + (c :: b.room.drop 1).length = n
    rw [List.length_cons, List.length_drop]
    omega
  noNul := h.noNul

theorem Held.back {n k : ℕ} (h : Held n b) (hk : k ≤ b.text.length) : Held n (b.seek k) where
  block := by rw [Buf.block_seek, h.block]
  noNul := by
    rw [Buf.text_seek hk]
    exact fun hmem => h.noNul (List.mem_of_mem_take hmem)

end WriteCursor
