import Gccsdk.Asasm.FileName

/-!
# The buffer for the name of a file

What `FN_AnyToNative` writes is a text that depends on the name alone: what stands for its root or its path
variable (`opening`), and what is written for each of its parts (`partsText`). It is written into the buffer
if it fits, and else the place in the buffer becomes `NULL` (`Written`). A NUL is only written over a slash
at the end of that text, or where there is no text. A part is written with a slash behind it, but not the
two words of a last part with a dot between them, when they are written in the other order: so the name is
**left open** (`LeftOpen`) then, and ends where there was a NUL in the buffer before.
-/

namespace Asasm.FileName

open CText CheckedRun WriteCursor

/-! ### What is written -/

/-- What `add_dir` writes. -/
def dirText (dir : Name) (swapdirsep : Bool) : Name :=
  match dirName dir with
  | none => []
  | some dir => (if swapdirsep && dir ≠ [0x2E, 0x2E] then dir.map swapDirSep else dir) ++ [0x2F]

def partText (pathStyle : PathStyle) (outtype : OutputType) (isLast : Bool) (dirPart : Name) : Name :=
  match if isLast then splitDot dirPart else none with
  | some (before, behind) =>
    match outtype with
    | .eB_DirSep_A => behind ++ [0x2F] ++ before
    | .eA_Slash_B => dirText (before ++ 0x2F :: behind) false
    | .eA_Dot_B => dirText dirPart false
  | none => dirText dirPart (pathStyle ≠ .eUnix)

def partsOf (pathStyle : PathStyle) : ℕ → Name → List Name
  | _, [] => []
  | 0, _ :: _ => []
  | turns + 1, s@(_ :: _) =>
    s.take (dirLimit pathStyle s) :: partsOf pathStyle turns ((s.drop (dirLimit pathStyle s)).drop 1)

def partsText (pathStyle : PathStyle) (outtype : OutputType) : List Name → Name
  | [] => []
  | dirPart :: parts => partText pathStyle outtype parts.isEmpty dirPart ++ partsText pathStyle outtype parts

/-- What is known when the parts are to be taken, with what is written by then. -/
structure Opening where
  rest : Name
  pathStyle : PathStyle
  pathidx : ℕ
  text : Name

/-- The style of a name, and what is written for its root or its path variable. -/
def opening (environ : Environ) (s : Name) (pathidx : ℕ) : Opening :=
  match cutAtPair 0x2E 0x24 s with
  | some (before, behind) =>
    { rest := if behind.head? = some 0x2E ∨ behind.head? = some 0x2F then behind.drop 1 else behind
      pathStyle := if s.head? = some 0x2F then .eUnix else .eRISCOS
      pathidx := pathidx
      text := dirText [] false ++
        dirText ((if s.head? = some 0x2F then before.drop 1 else before) ++ [0x2E, 0x24]) false }
  | none =>
    if s.head? = some 0x2F then ⟨s.drop 1, .eUnix, pathidx, dirText [] false⟩
    else if beginsRiscos s then ⟨s, .eRISCOS, pathidx, []⟩
    else
      match pathVar (pathSize - 5) s with
      | none => ⟨s, shownStyle s, pathidx, []⟩
      | some (name, behind) =>
        match getenv environ (name ++ cstr "_PATH") with
        | none => ⟨s, .eRISCOS, pathidx, []⟩
        | some e =>
          match selectPath pathidx e with
          | (none, left) => ⟨s, .eRISCOS, left, []⟩
          | (some dirs, left) => ⟨behind, .eRISCOS, left, firstDir dirs ++ [0x2F]⟩

theorem riscosLimit_le (s : Name) : riscosLimit s ≤ s.length := by
  unfold riscosLimit
  split
  · exact Nat.le_refl _
  · split
    · rename_i before behind hcut
      split
      · rw [(cutAt_eq_some.mp hcut).1, List.length_append]
        exact Nat.le_add_right _ _
      · exact Nat.le_refl _
    · exact Nat.le_refl _

theorem dirLimit_le (pathStyle : PathStyle) (s : Name) : dirLimit pathStyle s ≤ s.length := by
  unfold dirLimit
  split
  · exact riscosLimit_le s
  · split
    · rename_i before behind hcut
      rw [(cutAt_eq_some.mp hcut).1, List.length_append]
      exact Nat.le_add_right _ _
    · exact Nat.le_refl _

variable {pathStyle : PathStyle}

theorem isEmpty_partsOf {turns : ℕ} {s : Name} (h : s.length ≤ turns) :
    s.isEmpty = (partsOf pathStyle turns s).isEmpty := by
  cases s with
  | nil =>
    rw [partsOf]
    rfl
  | cons c s =>
    cases turns with
    | zero => exact absurd h (Nat.not_succ_le_zero _)
    | succ turns => rfl

/-! ### The buffer -/

/-- **A text is written into a block**, or did not fit. -/
structure Written (block : List UInt8) (text : Name) (o : Out) : Prop where
  fits : text.length ≤ block.length → o = ⟨⟨text, block.drop text.length⟩, block.length - text.length, false⟩
  full : block.length < text.length → o.outsize = 0 ∧ o.isNull = true

variable {block : List UInt8} {text : Name} {o : Out}

theorem Written.nil (block : List UInt8) : Written block [] ⟨⟨[], block⟩, block.length, false⟩ :=
  ⟨fun _ => rfl, nofun⟩

/-- `add_to_out` -/
theorem Written.addToOut (h : Written block text o) (toadd : Name) (swapdirsep : Bool) :
    ∃ o', addToOut toadd o swapdirsep = .ok o' ∧
      Written block (text ++ if swapdirsep then toadd.map swapDirSep else toadd) o' := by
  have hlen : (if swapdirsep then toadd.map swapDirSep else toadd).length = toadd.length := by
    split
    · exact List.length_map _
    · rfl
  generalize hput : (if swapdirsep then toadd.map swapDirSep else toadd) = put at hlen ⊢
  have happ : (text ++ put).length = text.length + toadd.length := by rw [List.length_append, hlen]
  unfold FileName.addToOut
  rw [hput]
  by_cases hfits : text.length ≤ block.length
  · rw [h.fits hfits]
    by_cases hmore : block.length - text.length < toadd.length
    · refine ⟨_, if_pos hmore, ?_, fun _ => ⟨rfl, rfl⟩⟩
      intro hle
      omega
    · refine ⟨⟨⟨text ++ put, block.drop (text ++ put).length⟩, block.length - (text ++ put).length, false⟩,
      ?_,
        fun _ => rfl, fun hlt => by omega⟩
      rw [if_neg hmore, if_neg Bool.false_ne_true, puts_eq]
      change (if put.length ≤ (block.drop text.length).length then _ else _) >>= _ = _
      rw [List.length_drop, if_pos (by omega), ok_bind]
      change Except.ok _ = Except.ok _
      rw [List.drop_drop, happ, hlen, Nat.sub_sub]
  · obtain ⟨hzero, hnull⟩ := h.full (Nat.lt_of_not_le hfits)
    by_cases hempty : toadd = []
    · subst hempty
      refine ⟨o, ?_, fun hle => by omega, fun _ => ⟨hzero, hnull⟩⟩
      rw [List.length_nil, if_neg (Nat.not_lt_zero _), if_pos hnull, if_pos rfl]
      rfl
    · have hmore : o.outsize < toadd.length := by
        rw [hzero]
        exact List.length_pos_iff.mpr hempty
      exact ⟨_, if_pos hmore, fun hle => by omega, fun _ => ⟨rfl, hnull ▸ rfl⟩⟩

/-- `add_dir` -/
theorem Written.addDir (h : Written block text o) (dir : Name) (swapdirsep : Bool) :
    ∃ o', addDir dir o swapdirsep = .ok o' ∧ Written block (text ++ dirText dir swapdirsep) o' := by
  unfold FileName.addDir dirText
  cases dirName dir with
  | none => exact ⟨o, rfl, (List.append_nil text).symm ▸ h⟩
  | some dir =>
    obtain ⟨o₁, ho₁, h₁⟩ := h.addToOut dir (swapdirsep && dir ≠ [0x2E, 0x2E])
    obtain ⟨o₂, ho₂, h₂⟩ := h₁.addToOut [0x2F] false
    refine ⟨o₂, ?_, ?_⟩
    · change (FileName.addToOut dir o _ >>= fun o => FileName.addToOut [0x2F] o false) = _
      rw [ho₁, ok_bind, ho₂]
    · rw [List.append_assoc] at h₂
      exact h₂

theorem Written.addPart (h : Written block text o) (pathStyle : PathStyle) (outtype : OutputType)
    (isLast : Bool)
    (dirPart : Name) :
    ∃ o', addPart pathStyle outtype isLast dirPart o = .ok o' ∧
      Written block (text ++ partText pathStyle outtype isLast dirPart) o' := by
  unfold FileName.addPart partText
  cases (if isLast then splitDot dirPart else none) with
  | none => exact h.addDir dirPart _
  | some p =>
    obtain ⟨before, behind⟩ := p
    cases outtype with
    | eA_Dot_B => exact h.addDir dirPart false
    | eA_Slash_B => exact h.addDir _ false
    | eB_DirSep_A =>
      obtain ⟨o₁, ho₁, h₁⟩ := h.addToOut behind false
      obtain ⟨o₂, ho₂, h₂⟩ := h₁.addToOut [0x2F] false
      obtain ⟨o₃, ho₃, h₃⟩ := h₂.addToOut before false
      refine ⟨o₃, ?_, ?_⟩
      · change (FileName.addToOut behind o false >>= fun o =>
          FileName.addToOut [0x2F] o false >>= fun o => FileName.addToOut before o false) = _
        rw [ho₁, ok_bind, ho₂, ok_bind, ho₃]
      · change Written block (text ++ (behind ++ [0x2F] ++ before)) o₃
        rw [← List.append_assoc, ← List.append_assoc]
        exact h₃

theorem Written.addParts (h : Written block text o) (pathStyle : PathStyle) (outtype : OutputType) {turns : ℕ}
    {s : Name} (hturns : s.length ≤ turns) :
    ∃ o', addParts pathStyle outtype turns s o =
        .ok (o', (partsOf pathStyle turns s).all fun part => part.length < 256) ∧
      (((partsOf pathStyle turns s).all fun part => part.length < 256) = true →
        Written block (text ++ partsText pathStyle outtype (partsOf pathStyle turns s)) o') := by
  induction turns generalizing s text o with
  | zero =>
    obtain rfl := List.length_eq_zero_iff.mp (Nat.le_zero.mp hturns)
    exact ⟨o, rfl, fun _ => (List.append_nil text).symm ▸ h⟩
  | succ turns ih =>
    cases s with
    | nil => exact ⟨o, rfl, fun _ => (List.append_nil text).symm ▸ h⟩
    | cons c s =>
      have hrest : (((c :: s).drop (dirLimit pathStyle (c :: s))).drop 1).length ≤ turns := by
        rw [List.length_drop, List.length_drop]
        rw [List.length_cons] at hturns ⊢
        omega
      have htake : ((c :: s).take (dirLimit pathStyle (c :: s))).length = dirLimit pathStyle (c :: s) :=
        List.length_take_of_le (dirLimit_le _ _)
      rw [FileName.addParts, getDir, partsOf, List.all_cons, htake]
      generalize dirLimit pathStyle (c :: s) = limit at hrest ⊢
      by_cases hlong : limit < 256
      · rw [if_pos hlong, decide_eq_true hlong, Bool.true_and, partsText]
        obtain ⟨o₁, ho₁, h₁⟩ := h.addPart pathStyle outtype
          ((((c :: s).drop limit).drop 1).isEmpty) ((c :: s).take limit)
        obtain ⟨o₂, ho₂, h₂⟩ := ih h₁ hrest
        refine ⟨o₂, ?_, fun hall => ?_⟩
        · change (FileName.addPart _ _ _ _ o >>= fun o => FileName.addParts _ _ _ _ o) = _
          rw [ho₁, ok_bind, ho₂]
        · rw [← isEmpty_partsOf hrest, ← List.append_assoc]
          exact h₂ hall
      · rw [if_neg hlong, decide_eq_false hlong, Bool.false_and]
        exact ⟨o, rfl, nofun⟩

theorem length_pathVar {n : ℕ} {s name behind : Name} (h : pathVar n s = some (name, behind)) :
    name.length < n := by
  induction n generalizing s name with
  | zero => exact nomatch h
  | succ n ih =>
    cases s with
    | nil => exact nomatch h
    | cons c s =>
      rw [pathVar] at h
      split at h
      · exact nomatch h
      · split at h
        · obtain ⟨rfl, -⟩ := Prod.mk.inj (Option.some.inj h)
          exact Nat.succ_pos n
        · obtain ⟨⟨name', behind'⟩, hrest, heq⟩ := Option.map_eq_some_iff.mp h
          obtain ⟨rfl, rfl⟩ := Prod.mk.inj heq
          have hlt := ih hrest
          change (varName [c] ++ name').length < n + 1
          rw [List.length_append, show (varName [c]).length = 1 from rfl]
          omega

theorem Written.detectStyle (h : Written block text o) (environ : Environ) (s : Name) (pathidx : ℕ) :
    ∃ o', detectStyle environ s pathidx o = .ok
        { rest := (opening environ s pathidx).rest, pathStyle := (opening environ s pathidx).pathStyle,
          pathidx := (opening environ s pathidx).pathidx, out := o' } ∧
      Written block (text ++ (opening environ s pathidx).text) o' := by
  have hnothing : Written block (text ++ []) o := (List.append_nil text).symm ▸ h
  unfold FileName.detectStyle opening
  cases hroot : cutAtPair 0x2E 0x24 s with
  | some p =>
    obtain ⟨before, behind⟩ := p
    obtain ⟨o₁, ho₁, h₁⟩ := h.addDir [] false
    obtain ⟨o₂, ho₂, h₂⟩ :=
      h₁.addDir ((if s.head? = some 0x2F then before.drop 1 else before) ++ [0x2E, 0x24]) false
    refine ⟨o₂, ?_, ?_⟩
    · simp only [ho₁, ok_bind, ho₂]
      rfl
    · rw [List.append_assoc] at h₂
      exact h₂
  | none =>
    simp only []
    by_cases hslash : s.head? = some 0x2F
    · rw [if_pos hslash, if_pos hslash]
      obtain ⟨o₁, ho₁, h₁⟩ := h.addDir [] false
      refine ⟨o₁, ?_, h₁⟩
      rw [ho₁, ok_bind]
      rfl
    · rw [if_neg hslash, if_neg hslash]
      by_cases hriscos : beginsRiscos s = true
      · rw [if_pos hriscos, if_pos hriscos]
        exact ⟨o, rfl, hnothing⟩
      · rw [if_neg hriscos, if_neg hriscos]
        cases hvar : pathVar (pathSize - 5) s with
        | none => exact ⟨o, rfl, hnothing⟩
        | some p =>
          obtain ⟨name, behind⟩ := p
          have hbuf : pathBuf name = .ok (name ++ cstr "_PATH") := by
            refine if_pos ?_
            have hlen := length_pathVar hvar
            rw [show pathSize - 5 = 43 from rfl] at hlen
            change name.length + 6 ≤ 48
            omega
          simp only [hbuf, ok_bind]
          cases hget : getenv environ (name ++ cstr "_PATH") with
          | none => exact ⟨o, rfl, hnothing⟩
          | some e =>
            simp only []
            rcases selectPath pathidx e with ⟨_ | dirs, left⟩
            · exact ⟨o, rfl, hnothing⟩
            · obtain ⟨o₁, ho₁, h₁⟩ := h.addToOut (firstDir dirs) false
              obtain ⟨o₂, ho₂, h₂⟩ := h₁.addToOut [0x2F] false
              refine ⟨o₂, ?_, ?_⟩
              · simp only [ho₁, ok_bind, ho₂]
                rfl
              · rw [List.append_assoc] at h₂
                exact h₂

/-! ### The end of the name -/

/-- The name that a text is ended to: without its last slash, and `.` if there is nothing in it. -/
def nativeName (text : Name) : Name :=
  let dir := if text.getLast? = some 0x2F then text.dropLast else text
  if dir = [] ∨ dir.head? = some 0 then [0x2E] else CText.cstr dir

/-- **The text ends with a slash**, if there is one. -/
def Closed (text : Name) : Prop := text = [] ∨ text.getLast? = some 0x2F

theorem Closed.append {a b : Name} (ha : Closed a) (hb : Closed b) : Closed (a ++ b) := by
  rcases hb with rfl | hb
  · rwa [List.append_nil]
  · refine Or.inr ?_
    rw [List.getLast?_append, hb]
    rfl

theorem closed_append_iff {a b : Name} (ha : Closed a) : Closed (a ++ b) ↔ Closed b := by
  refine ⟨fun h => ?_, ha.append⟩
  by_cases hb : b = []
  · exact Or.inl hb
  · refine Or.inr ?_
    rcases h with hnil | hlast
    · exact absurd (List.append_eq_nil_iff.mp hnil).2 hb
    · rw [List.getLast?_append, List.getLast?_eq_some_getLast hb] at hlast
      rw [List.getLast?_eq_some_getLast hb]
      exact hlast

theorem closed_dirText (dir : Name) (swapdirsep : Bool) : Closed (dirText dir swapdirsep) := by
  unfold dirText
  cases dirName dir with
  | none => exact Or.inl rfl
  | some dir =>
    refine Or.inr ?_
    rw [List.getLast?_append]
    rfl

theorem closed_opening (environ : Environ) (s : Name) (pathidx : ℕ) :
    Closed (opening environ s pathidx).text := by
  unfold opening
  split
  · exact (closed_dirText _ _).append (closed_dirText _ _)
  · split
    · exact closed_dirText [] false
    · split
      · exact Or.inl rfl
      · split
        · exact Or.inl rfl
        · split
          · exact Or.inl rfl
          · split
            · exact Or.inl rfl
            · refine Or.inr ?_
              rw [List.getLast?_append]
              rfl

/-- **A part that is left open**: two words that are written in the other order, without a slash behind
them. -/
def OpenPart (outtype : OutputType) (dirPart : Name) : Prop :=
  outtype = .eB_DirSep_A ∧ ∃ before behind, splitDot dirPart = some (before, behind) ∧
    before.getLast? ≠ some 0x2F

theorem splitDot_ne_nil {dirPart before behind : Name} (h : splitDot dirPart = some (before, behind)) :
    before ≠ [] ∧ behind ≠ [] ∧ dirPart = before ++ 0x2E :: behind := by
  unfold splitDot at h
  split at h
  · exact nomatch h
  · rename_i before' behind' hcut
    split at h
    · rename_i hwords
      obtain ⟨rfl, rfl⟩ := Prod.mk.inj (Option.some.inj h)
      exact ⟨hwords.1, hwords.2.1, (cutAt_eq_some.mp hcut).1⟩
    · exact nomatch h

theorem closed_partText_iff {outtype : OutputType} {isLast : Bool} {dirPart : Name} :
    Closed (partText pathStyle outtype isLast dirPart) ↔ ¬(isLast = true ∧ OpenPart outtype dirPart) := by
  unfold partText
  cases isLast with
  | false => exact iff_of_true (closed_dirText _ _) (fun h => Bool.false_ne_true h.1)
  | true =>
    rw [if_pos rfl]
    cases hsplit : splitDot dirPart with
    | none =>
      refine iff_of_true (closed_dirText _ _) ?_
      rintro ⟨-, -, before, behind, h, -⟩
      rw [hsplit] at h
      exact nomatch h
    | some p =>
      obtain ⟨before, behind⟩ := p
      have hbefore := (splitDot_ne_nil hsplit).1
      cases outtype with
      | eA_Dot_B => exact iff_of_true (closed_dirText _ _) (fun h => nomatch h.2.1)
      | eA_Slash_B => exact iff_of_true (closed_dirText _ _) (fun h => nomatch h.2.1)
      | eB_DirSep_A =>
        change Closed (behind ++ [0x2F] ++ before) ↔ _
        have hclosed : Closed (behind ++ [0x2F]) := by
          refine Or.inr ?_
          rw [List.getLast?_append]
          rfl
        rw [closed_append_iff hclosed, Closed, or_iff_right hbefore]
        constructor
        · rintro hlast ⟨-, -, before', behind', h, hopen⟩
          rw [hsplit] at h
          obtain ⟨rfl, -⟩ := Prod.mk.inj (Option.some.inj h)
          exact hopen hlast
        · intro hnot
          by_contra hlast
          exact hnot ⟨rfl, rfl, before, behind, hsplit, hlast⟩

theorem closed_partsText_iff {outtype : OutputType} {parts : List Name} :
    Closed (partsText pathStyle outtype parts) ↔ ∀ last ∈ parts.getLast?, ¬OpenPart outtype last := by
  induction parts with
  | nil => exact iff_of_true (Or.inl rfl) nofun
  | cons dirPart parts ih =>
    rw [partsText]
    cases parts with
    | nil =>
      rw [partsText, List.append_nil, closed_partText_iff]
      change ¬(true = true ∧ _) ↔ ∀ last ∈ some dirPart, _
      rw [eq_self_iff_true, true_and]
      exact ⟨fun h last hlast => Option.some.inj hlast ▸ h, fun h => h dirPart rfl⟩
    | cons next parts =>
      have hclosed : Closed (partText pathStyle outtype (next :: parts).isEmpty dirPart) :=
        closed_partText_iff.mpr fun h => Bool.false_ne_true h.1
      rw [closed_append_iff hclosed, ih, List.getLast?_cons_cons]

def slashed (b : Buf) : Buf := if b.text.getLast? = some 0x2F then ⟨b.text.dropLast ++ [0], b.room⟩ else b

theorem length_block_slashed (b : Buf) : (slashed b).block.length = b.block.length := by
  unfold slashed
  split
  · rename_i hlast
    have hne : b.text ≠ [] := fun hnil => by rw [hnil] at hlast; exact nomatch hlast
    have hpos : 0 < b.text.length := List.length_pos_iff.mpr hne
    rw [Buf.length_block, Buf.length_block, List.length_append, List.length_dropLast, List.length_singleton]
    change b.text.length - 1 + 1 + b.room.length = _
    omega
  · rfl

theorem endName_eq {b : Buf} (h : 2 ≤ b.block.length) :
    endName b = .ok
      (if (slashed b).block.head? = some 0 then ⟨[0x2E], 0 :: (slashed b).block.drop 2⟩ else slashed b) := by
  have hslash : stripSlash b = .ok (slashed b) := by
    unfold stripSlash slashed
    split
    · rename_i hlast
      refine if_neg fun hnil => ?_
      rw [hnil] at hlast
      exact nomatch hlast
    · rfl
  have hlen : 2 ≤ (slashed b).block.length := by rwa [length_block_slashed]
  unfold endName
  rw [hslash, ok_bind]
  generalize slashed b = c at hlen ⊢
  split
  · have hroom : (c.seek 0).room = c.block := rfl
    have htext : (c.seek 0).text = [] := rfl
    rw [put_eq, if_pos (by rw [hroom]; omega), ok_bind, here_eq, hroom, htext]
    change (if 1 ≤ (c.block.drop 1).length then _ else _) = _
    rw [List.length_drop, if_pos (by omega), List.drop_drop]
    rfl
  · rfl

theorem length_block_written {text : Name} {block : List UInt8} (h : text.length ≤ block.length) :
    (⟨text, block.drop text.length⟩ : Buf).block.length = block.length := by
  rw [Buf.length_block, List.length_drop]
  exact Nat.add_sub_cancel' h

theorem exists_endName (text : Name) {block : List UInt8} (hfits : text.length ≤ block.length)
    (hlen : 2 ≤ block.length) : ∃ b, endName ⟨text, block.drop text.length⟩ = .ok b :=
  ⟨_, endName_eq (length_block_written hfits ▸ hlen)⟩

/-- **A closed text is ended by a NUL**, and what was in the buffer does not count. -/
theorem endName_closed {text : Name} {tail : List UInt8} (hclosed : Closed text)
    (hlen : 2 ≤ (⟨text, (0 :: tail).drop text.length⟩ : Buf).block.length) :
    ∃ b, endName ⟨text, (0 :: tail).drop text.length⟩ = .ok b ∧ 0 ∈ b.block ∧ CText.cstr b.block =
      nativeName text := by
  refine ⟨_, endName_eq hlen, ?_⟩
  have hdot (rest : List UInt8) : 0 ∈ (⟨[0x2E], 0 :: rest⟩ : Buf).block ∧
      CText.cstr (⟨[0x2E], 0 :: rest⟩ : Buf).block = [0x2E] :=
    ⟨List.mem_cons_of_mem _ List.mem_cons_self, @cstr_append_zero [0x2E] (by decide) rest⟩
  rcases hclosed with rfl | hlast
  · exact hdot _
  · obtain ⟨dir, rfl⟩ : ∃ dir, text = dir ++ [0x2F] := by
      obtain ⟨ne, hne⟩ := List.getLast?_eq_some_iff.mp hlast
      exact ⟨ne, hne⟩
    generalize (0 :: tail).drop (dir ++ [0x2F]).length = room
    have hslash : slashed ⟨dir ++ [0x2F], room⟩ = ⟨dir ++ [0], room⟩ := by
      unfold slashed
      rw [if_pos hlast, List.dropLast_concat]
    have hblock : (⟨dir ++ [0], room⟩ : Buf).block = dir ++ 0 :: room := by
      change dir ++ [0] ++ room = _
      rw [List.append_assoc]
      rfl
    have hname : nativeName (dir ++ [0x2F]) =
        if dir = [] ∨ dir.head? = some 0 then [0x2E] else CText.cstr dir := by
      unfold nativeName
      rw [if_pos hlast, List.dropLast_concat]
    rw [hslash, hblock, hname]
    have hhead : (dir ++ 0 :: room).head? = some 0 ↔ dir = [] ∨ dir.head? = some 0 := by
      cases dir with
      | nil => exact iff_of_true rfl (Or.inl rfl)
      | cons c dir => exact (or_iff_right (List.cons_ne_nil c dir)).symm
    by_cases hzero : dir = [] ∨ dir.head? = some 0
    · rw [if_pos (hhead.mpr hzero), if_pos hzero]
      exact hdot _
    · rw [if_neg fun h => hzero (hhead.mp h), if_neg hzero, hblock]
      exact ⟨List.mem_append_right _ List.mem_cons_self, cstr_append_end dir room⟩

theorem endName_open {text : Name} {room : List UInt8} (hopen : ¬Closed text) (hzero : 0 ∉ text)
    (hlen : 2 ≤ (⟨text, room⟩ : Buf).block.length) : endName ⟨text, room⟩ = .ok ⟨text, room⟩ := by
  obtain ⟨hne, hlast⟩ := not_or.mp hopen
  have hslash : slashed ⟨text, room⟩ = ⟨text, room⟩ := if_neg hlast
  rw [endName_eq hlen, hslash]
  cases text with
  | nil => exact absurd rfl hne
  | cons c text =>
    refine congrArg Except.ok (if_neg ?_)
    intro h
    exact hzero (Option.some.inj h ▸ List.mem_cons_self)

/-! ### The whole function -/

def parts (pathStyle : PathStyle) (s : Name) : List Name := partsOf pathStyle s.length s

/-- No part of the name is too long for `dirPart`. -/
def PartsFit (pathStyle : PathStyle) (s : Name) : Prop := ∀ part ∈ parts pathStyle s, part.length < 256

def wholeText (op : Opening) (pathStyle : PathStyle) (outtype : OutputType) : Name :=
  op.text ++ partsText pathStyle outtype (parts pathStyle op.rest)

variable {environ : Environ} {turns pathidx : ℕ} {name s : Name} {diags : List Diag} {state : Bool}
  {outtype : OutputType} {buf : List UInt8}

/-- What `FN_AnyToNative` comes to, behind the expansion. -/
inductive Outcome (op : Opening) (state : Bool) (outtype : OutputType) (diags : List Diag)
    (buf : List UInt8) :
    Run (Answer × List Diag) → Prop
  | notFound (b : List UInt8) (state' : Bool)
      (hstate : op.pathidx = 0 → ∀ pathStyle st, chooseStyle op.pathStyle state = .ok (pathStyle, st) →
        state' = st)
      (h : op.pathidx = 0 → ∀ pathStyle st, chooseStyle op.pathStyle state = .ok (pathStyle, st) →
        PartsFit pathStyle op.rest → buf.length < (wholeText op pathStyle outtype).length) :
      Outcome op state outtype diags buf (.ok (⟨b, false, state'⟩, diags))
  | asserts (h : chooseStyle op.pathStyle state = .error .message) :
      Outcome op state outtype diags buf (.error .message)
  | found (pathStyle : PathStyle) (state' : Bool) (b : Buf) (hidx : op.pathidx = 0)
      (hstyle : chooseStyle op.pathStyle state = .ok (pathStyle, state')) (hparts :
        PartsFit pathStyle op.rest)
      (hfits : (wholeText op pathStyle outtype).length ≤ buf.length)
      (hend : endName ⟨wholeText op pathStyle outtype,
        (0 :: buf.drop 1).drop (wholeText op pathStyle outtype).length⟩ = .ok b) :
      Outcome op state outtype diags buf (.ok (⟨b.block, true, state'⟩, diags))

theorem all_parts_iff : ((partsOf pathStyle s.length s).all fun part => decide (part.length < 256)) = true ↔
      PartsFit pathStyle s := by
  rw [List.all_eq_true]
  exact forall₂_congr fun part _ => decide_eq_true_iff

theorem anyToNative_outcome (hexp : expand environ turns name = .ok (s, diags)) (hbuf : 2 ≤ buf.length)
    (pathidx : ℕ) (state : Bool) (outtype : OutputType) :
    Outcome (opening environ s pathidx) state outtype diags buf
      (FN_AnyToNative turns environ name pathidx buf state outtype) := by
  have hhere : here 0 ⟨[], buf⟩ = .ok ⟨[], 0 :: buf.drop 1⟩ := by
    rw [here_eq]
    exact if_pos (Nat.le_of_lt hbuf)
  have hblock : (⟨[], 0 :: buf.drop 1⟩ : Buf).block = 0 :: buf.drop 1 := rfl
  have hlen : (0 :: buf.drop 1).length = buf.length := by
    rw [List.length_cons, List.length_drop]
    omega
  obtain ⟨o, ho, hwritten⟩ := (Written.nil (0 :: buf.drop 1)).detectStyle environ s pathidx
  unfold FN_AnyToNative
  rw [hexp, ok_bind]
  simp only [if_neg (Nat.not_lt.mpr hbuf), hhere, ok_bind, hblock, ho]
  generalize opening environ s pathidx = op at hwritten ⊢
  by_cases hidx : op.pathidx = 0
  · rw [if_neg (not_not.mpr hidx)]
    rcases hstyle : chooseStyle op.pathStyle state with e | ⟨pathStyle, state'⟩
    · have hmessage : e = .message := by
        unfold chooseStyle at hstyle
        split at hstyle
        · split at hstyle <;> exact nomatch hstyle
        · split at hstyle
          · exact (Except.error.inj hstyle).symm
          · exact nomatch hstyle
      rw [hmessage] at hstyle ⊢
      exact .asserts hstyle
    · rw [ok_bind]
      obtain ⟨o', ho', hparts⟩ := hwritten.addParts pathStyle outtype (Nat.le_refl op.rest.length)
      simp only [ho', ok_bind]
      have hnot (b : List UInt8) (h : PartsFit pathStyle op.rest →
          buf.length < (wholeText op pathStyle outtype).length) :
          Outcome op state outtype diags buf (.ok (⟨b, false, state'⟩, diags)) := by
        refine .notFound b state' (fun _ pathStyle' st hstyle' => ?_) fun _ pathStyle' st hstyle' => ?_
        · exact (Prod.mk.inj (Except.ok.inj (hstyle.symm.trans hstyle'))).2
        · obtain ⟨rfl, -⟩ := Prod.mk.inj (Except.ok.inj (hstyle.symm.trans hstyle'))
          exact h
      cases hall : (partsOf pathStyle op.rest.length op.rest).all fun part => decide (part.length < 256) with
      | false =>
        refine hnot _ fun hfit => ?_
        rw [all_parts_iff.mpr hfit] at hall
        exact nomatch hall
      | true =>
        have hfit := all_parts_iff.mp hall
        have hall' := hparts hall
        rw [List.nil_append] at hall'
        change Written _ (wholeText op pathStyle outtype) o' at hall'
        by_cases hle : (wholeText op pathStyle outtype).length ≤ (0 :: buf.drop 1).length
        · rw [hall'.fits hle]
          obtain ⟨b, hb⟩ := exists_endName (wholeText op pathStyle outtype) hle (hlen ▸ hbuf)
          change Outcome op state outtype diags buf (endName ⟨wholeText op pathStyle outtype,
            (0 :: buf.drop 1).drop (wholeText op pathStyle outtype).length⟩ >>= fun b =>
              pure (⟨b.block, true, state'⟩, diags))
          rw [hb, ok_bind]
          exact .found pathStyle state' b hidx hstyle hfit (hlen ▸ hle) hb
        · rw [(hall'.full (Nat.lt_of_not_le hle)).2]
          exact hnot _ fun _ => hlen ▸ Nat.lt_of_not_le hle
  · rw [if_pos hidx]
    exact .notFound _ _ (fun h => absurd h hidx) fun h => absurd h hidx

/-- **The answer to a name is settled**: nothing is written outside the buffer, and what is found is a text
with a NUL behind it, the same one in each buffer. -/
def Settled (environ : Environ) (name : Name) (pathidx : ℕ) (state : Bool) (outtype : OutputType) : Prop :=
  (∀ turns buf, FN_AnyToNative turns environ name pathidx buf state outtype ≠ .error .outside) ∧
    ∃ text, ∀ turns buf answer diags, 2 ≤ buf.length →
      FN_AnyToNative turns environ name pathidx buf state outtype = .ok (answer, diags) → answer.found =
        true →
        0 ∈ answer.buf ∧ CText.cstr answer.buf = text

/-- **A name that is left open**: it is found in a buffer that is large enough, and its last part is left
open. -/
def LeftOpen (environ : Environ) (name : Name) (pathidx : ℕ) (state : Bool) (outtype : OutputType) : Prop :=
  ∃ turns s diags pathStyle state', expand environ turns name = .ok (s, diags) ∧
    (opening environ s pathidx).pathidx = 0 ∧
    chooseStyle (opening environ s pathidx).pathStyle state = .ok (pathStyle, state') ∧
    PartsFit pathStyle (opening environ s pathidx).rest ∧
    ∃ last ∈ (parts pathStyle (opening environ s pathidx).rest).getLast?, OpenPart outtype last

theorem expand_unique {m n : ℕ} {r r' : Name × List Diag} (h : expand environ m s = .ok r)
    (h' : expand environ n s = .ok r') : r = r' := by
  induction m generalizing n s with
  | zero =>
    rw [expand] at h
    cases hturn : expandTurn environ s with
    | inl e =>
      rw [hturn] at h
      cases n <;> rw [expand, hturn] at h' <;> exact Except.ok.inj (h.symm.trans h')
    | inr t =>
      rw [hturn] at h
      exact nomatch h
  | succ m ih =>
    rw [expand] at h
    cases hturn : expandTurn environ s with
    | inl e =>
      rw [hturn] at h
      cases n <;> rw [expand, hturn] at h' <;> exact Except.ok.inj (h.symm.trans h')
    | inr t =>
      rw [hturn] at h
      cases n with
      | zero =>
        rw [expand, hturn] at h'
        exact nomatch h'
      | succ n =>
        rw [expand, hturn] at h'
        exact ih h h'

theorem expand_ne_outside (turns : ℕ) (s : Name) : expand environ turns s ≠ .error .outside := by
  induction turns generalizing s with
  | zero =>
    rw [expand]
    split <;> exact nofun
  | succ turns ih =>
    rw [expand]
    split
    · exact nofun
    · exact ih _

theorem closed_wholeText_iff {op : Opening} (hop : Closed op.text) :
    Closed (wholeText op pathStyle outtype) ↔ ∀ last ∈ (parts pathStyle op.rest).getLast?,
      ¬OpenPart outtype last := by
  unfold wholeText
  rw [closed_append_iff hop, closed_partsText_iff]

/-! ### No NUL is written before the end -/

theorem zero_notMem_cutAt {c : UInt8} {before behind : Name} (hs : 0 ∉ s)
    (h : cutAt c s = some (before, behind)) :
    0 ∉ before ∧ 0 ∉ behind := by
  rw [(cutAt_eq_some.mp h).1] at hs
  simp only [List.mem_append, List.mem_cons, not_or] at hs
  exact ⟨hs.1, hs.2.2⟩

theorem zero_notMem_cutAtPair {c d : UInt8} {before behind : Name} (hs : 0 ∉ s)
    (h : cutAtPair c d s = some (before, behind)) : 0 ∉ before ∧ 0 ∉ behind := by
  rw [cutAtPair_eq h] at hs
  simp only [List.mem_append, List.mem_cons, not_or] at hs
  exact ⟨hs.1, hs.2.2.2⟩

theorem zero_notMem_swap (swapdirsep : Bool) (hs : 0 ∉ s) :
    0 ∉ if swapdirsep then s.map swapDirSep else s := by
  split
  · intro hmem
    obtain ⟨c, hc, heq⟩ := List.mem_map.mp hmem
    have hzero : c = 0 := by
      unfold swapDirSep at heq
      split at heq
      · exact absurd heq (by decide)
      · split at heq
        · exact absurd heq (by decide)
        · exact heq
    exact hs (hzero ▸ hc)
  · exact hs

theorem zero_notMem_dirText {dir : Name} (hdir : 0 ∉ dir) (swapdirsep : Bool) :
    0 ∉ dirText dir swapdirsep := by
  unfold dirText
  cases hname : dirName dir with
  | none => exact List.not_mem_nil
  | some dir' =>
    have hdir' : 0 ∉ dir' := by
      unfold dirName at hname
      split at hname
      · split at hname
        · exact Option.some.inj hname ▸ List.not_mem_nil
        · split at hname
          · exact Option.some.inj hname ▸ by decide
          · split at hname
            · exact nomatch hname
            · exact Option.some.inj hname ▸ hdir
      · exact Option.some.inj hname ▸ hdir
    intro hmem
    rcases List.mem_append.mp hmem with hmem | hmem
    · exact zero_notMem_swap _ hdir' hmem
    · exact absurd hmem (by decide)

theorem zero_notMem_partText {isLast : Bool} {dirPart : Name} (hpart : 0 ∉ dirPart) :
    0 ∉ partText pathStyle outtype isLast dirPart := by
  unfold partText
  split
  · rename_i before behind hsplit
    have hwords : 0 ∉ before ∧ 0 ∉ behind := by
      cases isLast with
      | false => exact nomatch hsplit
      | true =>
        rw [(splitDot_ne_nil hsplit).2.2] at hpart
        simp only [List.mem_append, List.mem_cons, not_or] at hpart
        exact ⟨hpart.1, hpart.2.2⟩
    cases outtype with
    | eA_Dot_B => exact zero_notMem_dirText hpart false
    | eA_Slash_B =>
      refine zero_notMem_dirText ?_ false
      simp only [List.mem_append, List.mem_cons, not_or]
      exact ⟨hwords.1, by decide, hwords.2⟩
    | eB_DirSep_A =>
      simp only [List.mem_append, List.mem_cons, not_or]
      exact ⟨⟨hwords.2, by decide, List.not_mem_nil⟩, hwords.1⟩
  · exact zero_notMem_dirText hpart _

theorem zero_notMem_partsText {parts : List Name} (hparts : ∀ part ∈ parts, 0 ∉ part) :
    0 ∉ partsText pathStyle outtype parts := by
  induction parts with
  | nil => exact List.not_mem_nil
  | cons dirPart parts ih =>
    intro hmem
    rcases List.mem_append.mp hmem with hmem | hmem
    · exact zero_notMem_partText (hparts dirPart List.mem_cons_self) hmem
    · exact ih (fun part hpart => hparts part (List.mem_cons_of_mem _ hpart)) hmem

theorem mem_of_mem_partsOf {part : Name} {c : UInt8} (hc : c ∈ part)
    (hpart : part ∈ partsOf pathStyle turns s) : c ∈ s := by
  induction turns generalizing s with
  | zero =>
    cases s with
    | nil => exact absurd hpart List.not_mem_nil
    | cons d s => exact absurd hpart List.not_mem_nil
  | succ turns ih =>
    cases s with
    | nil => exact absurd hpart List.not_mem_nil
    | cons d s =>
      rw [partsOf] at hpart
      rcases List.mem_cons.mp hpart with rfl | hpart
      · exact List.mem_of_mem_take hc
      · exact List.mem_of_mem_drop (List.mem_of_mem_drop (ih hpart))

theorem zero_notMem_pathVar {n : ℕ} {name behind : Name} (hs : 0 ∉ s)
    (h : pathVar n s = some (name, behind)) :
    0 ∉ behind := by
  induction n generalizing s name with
  | zero => exact nomatch h
  | succ n ih =>
    cases s with
    | nil => exact nomatch h
    | cons c s =>
      have hrest : 0 ∉ s := fun hmem => hs (List.mem_cons_of_mem c hmem)
      rw [pathVar] at h
      split at h
      · exact nomatch h
      · split at h
        · exact (Prod.mk.inj (Option.some.inj h)).2 ▸ hrest
        · obtain ⟨⟨name', behind'⟩, hvar, heq⟩ := Option.map_eq_some_iff.mp h
          obtain ⟨-, rfl⟩ := Prod.mk.inj heq
          exact ih hrest hvar

theorem zero_notMem_selectPath {e dirs : Name} {left : ℕ} (he : 0 ∉ e)
    (h : selectPath pathidx e = (some dirs, left)) : 0 ∉ dirs := by
  induction pathidx generalizing e with
  | zero =>
    have hdirs := (Prod.mk.inj h).1
    split at hdirs
    · exact nomatch hdirs
    · exact Option.some.inj hdirs ▸ he
  | succ pathidx ih =>
    rw [selectPath] at h
    split at h
    · exact nomatch (Prod.mk.inj h).1
    · split at h
      · exact nomatch (Prod.mk.inj h).1
      · rename_i before rest hcut
        exact ih (zero_notMem_cutAt he hcut).2 h

theorem zero_notMem_firstDir {e : Name} (he : 0 ∉ e) : 0 ∉ firstDir e := by
  have hdir : 0 ∉ firstEntry e := by
    unfold firstEntry
    split
    · rename_i before rest hcut
      exact (zero_notMem_cutAt he hcut).1
    · exact he
  unfold firstDir
  split
  · exact fun hmem => hdir ((List.dropLast_sublist _).subset hmem)
  · exact hdir

section NoNul

variable (henv : ∀ entry ∈ environ, 0 ∉ entry)

include henv

theorem zero_notMem_getenv {k value : Name} (h : getenv environ k = some value) : 0 ∉ value := by
  obtain ⟨entry, hentry, hif⟩ := List.exists_of_findSome?_eq_some h
  split at hif
  · obtain rfl := Option.some.inj hif
    exact fun hmem => henv entry hentry (List.mem_of_mem_drop hmem)
  · exact nomatch hif

theorem zero_notMem_expandTurn (hs : 0 ∉ s) :
    (∀ r, expandTurn environ s = .inl r → 0 ∉ r.1) ∧ ∀ t, expandTurn environ s = .inr t → 0 ∉ t := by
  unfold expandTurn
  cases hfind : findVar s with
  | none => exact ⟨fun r h => Sum.inl.inj h ▸ hs, nofun⟩
  | some p =>
    obtain ⟨before, name, behind⟩ := p
    simp only []
    cases hget : getenv environ (varName name) with
    | none => exact ⟨fun r h => Sum.inl.inj h ▸ hs, nofun⟩
    | some value =>
      refine ⟨nofun, fun t h => ?_⟩
      obtain rfl := Sum.inr.inj h
      rw [(findVar_eq_some.mp hfind).1] at hs
      simp only [List.mem_append, List.mem_cons, not_or] at hs ⊢
      exact ⟨⟨hs.1.1, zero_notMem_getenv henv hget⟩, hs.2.2⟩

theorem zero_notMem_expand {r : Name × List Diag} (hs : 0 ∉ s) (h : expand environ turns s = .ok r) :
    0 ∉ r.1 := by
  induction turns generalizing s with
  | zero =>
    rw [expand] at h
    cases hturn : expandTurn environ s with
    | inl e =>
      rw [hturn] at h
      exact (zero_notMem_expandTurn henv hs).1 r (Except.ok.inj h ▸ hturn)
    | inr t =>
      rw [hturn] at h
      exact nomatch h
  | succ turns ih =>
    rw [expand] at h
    cases hturn : expandTurn environ s with
    | inl e =>
      rw [hturn] at h
      exact (zero_notMem_expandTurn henv hs).1 r (Except.ok.inj h ▸ hturn)
    | inr t =>
      rw [hturn] at h
      exact ih ((zero_notMem_expandTurn henv hs).2 t hturn) h

theorem zero_notMem_opening (hs : 0 ∉ s) :
    0 ∉ (opening environ s pathidx).text ∧ 0 ∉ (opening environ s pathidx).rest := by
  have hroot : 0 ∉ dirText [] false := by decide
  unfold opening
  cases hcut : cutAtPair 0x2E 0x24 s with
  | some p =>
    obtain ⟨before, behind⟩ := p
    obtain ⟨hbefore, hbehind⟩ := zero_notMem_cutAtPair hs hcut
    refine ⟨fun hmem => ?_, ?_⟩
    · rcases List.mem_append.mp hmem with hmem | hmem
      · exact hroot hmem
      · refine zero_notMem_dirText ?_ false hmem
        intro hmem
        rcases List.mem_append.mp hmem with hmem | hmem
        · split at hmem
          · exact hbefore (List.mem_of_mem_drop hmem)
          · exact hbefore hmem
        · exact absurd hmem (by decide)
    · change 0 ∉ if _ then behind.drop 1 else behind
      split
      · exact fun hmem => hbehind (List.mem_of_mem_drop hmem)
      · exact hbehind
  | none =>
    simp only []
    split
    · exact ⟨hroot, fun hmem => hs (List.mem_of_mem_drop hmem)⟩
    · split
      · exact ⟨List.not_mem_nil, hs⟩
      · split
        · exact ⟨List.not_mem_nil, hs⟩
        · rename_i name behind hvar
          split
          · exact ⟨List.not_mem_nil, hs⟩
          · rename_i e hget
            split
            · exact ⟨List.not_mem_nil, hs⟩
            · rename_i dirs left hselect
              have hdirs : 0 ∉ dirs := zero_notMem_selectPath (zero_notMem_getenv henv hget) hselect
              refine ⟨fun hmem => ?_, zero_notMem_pathVar hs hvar⟩
              rcases List.mem_append.mp hmem with hmem | hmem
              · exact zero_notMem_firstDir hdirs hmem
              · exact absurd hmem (by decide)

end NoNul

/-! ### When the answer is settled -/

theorem anyToNative_ne_outside :
    FN_AnyToNative turns environ name pathidx buf state outtype ≠ .error .outside := by
  cases hexp : expand environ turns name with
  | error e =>
    unfold FN_AnyToNative
    rw [hexp]
    intro h
    have he : e = .outside := Except.error.inj h
    exact expand_ne_outside turns name (hexp.trans (congrArg Except.error he))
  | ok r =>
    obtain ⟨s, diags⟩ := r
    by_cases hbuf : 2 ≤ buf.length
    · have hout := anyToNative_outcome hexp hbuf pathidx state outtype
      cases hrun : FN_AnyToNative turns environ name pathidx buf state outtype with
      | ok r => exact nofun
      | error e =>
        rw [hrun] at hout
        cases hout
        exact nofun
    · unfold FN_AnyToNative
      rw [hexp, ok_bind]
      simp only [if_pos (Nat.lt_of_not_le hbuf)]
      exact nofun

theorem found_of_ok (hbuf : 2 ≤ buf.length) {answer : Answer} {diags : List Diag}
    (h : FN_AnyToNative turns environ name pathidx buf state outtype = .ok (answer, diags))
    (hfound : answer.found = true) :
    ∃ s pathStyle state' b, expand environ turns name = .ok (s, diags) ∧ (opening environ s pathidx).pathidx =
      0 ∧
      chooseStyle (opening environ s pathidx).pathStyle state = .ok (pathStyle, state') ∧
      PartsFit pathStyle (opening environ s pathidx).rest ∧
      (wholeText (opening environ s pathidx) pathStyle outtype).length ≤ buf.length ∧
      endName ⟨wholeText (opening environ s pathidx) pathStyle outtype,
        (0 :: buf.drop 1).drop (wholeText (opening environ s pathidx) pathStyle outtype).length⟩ = .ok b ∧
      answer = ⟨b.block, true, state'⟩ := by
  cases hexp : expand environ turns name with
  | error e =>
    unfold FN_AnyToNative at h
    rw [hexp] at h
    exact nomatch h
  | ok r =>
    obtain ⟨s, diags'⟩ := r
    have hout := anyToNative_outcome hexp hbuf pathidx state outtype
    rw [h] at hout
    cases hout with
    | notFound b state' _ _ => exact nomatch hfound
    | found pathStyle state' b hidx hstyle hparts hfits hend =>
      exact ⟨s, pathStyle, state', b, rfl, hidx, hstyle, hparts, hfits, hend, rfl⟩

theorem anyToNative_found {pathStyle : PathStyle} {state' : Bool}
    (hexp : expand environ turns name = .ok (s, diags))
    (hbuf : 2 ≤ buf.length) (hidx : (opening environ s pathidx).pathidx = 0)
    (hstyle : chooseStyle (opening environ s pathidx).pathStyle state = .ok (pathStyle, state'))
    (hparts : PartsFit pathStyle (opening environ s pathidx).rest)
    (hfits : (wholeText (opening environ s pathidx) pathStyle outtype).length ≤ buf.length) :
    ∃ b, endName ⟨wholeText (opening environ s pathidx) pathStyle outtype,
        (0 :: buf.drop 1).drop (wholeText (opening environ s pathidx) pathStyle outtype).length⟩ = .ok b ∧
      FN_AnyToNative turns environ name pathidx buf state outtype = .ok (⟨b.block, true, state'⟩, diags) := by
  have hout := anyToNative_outcome hexp hbuf pathidx state outtype
  generalize FN_AnyToNative turns environ name pathidx buf state outtype = run at hout ⊢
  cases hout with
  | notFound b st _ h => exact absurd (h hidx pathStyle state' hstyle hparts) (Nat.not_lt.mpr hfits)
  | asserts h => exact nomatch hstyle.symm.trans h
  | found pathStyle' st b _ hstyle' _ _ hend =>
    obtain ⟨rfl, rfl⟩ := Prod.mk.inj (Except.ok.inj (hstyle.symm.trans hstyle'))
    exact ⟨b, hend, rfl⟩

theorem length_zero_cons_drop (hbuf : 2 ≤ buf.length) : (0 :: buf.drop 1).length = buf.length := by
  rw [List.length_cons, List.length_drop]
  omega

/-- **The answer to a name is settled just if the name is not left open.** -/
theorem settled_iff (hname : 0 ∉ name) (henv : ∀ entry ∈ environ, 0 ∉ entry) :
    Settled environ name pathidx state outtype ↔ ¬LeftOpen environ name pathidx state outtype := by
  constructor
  · rintro ⟨-, text, hsame⟩ ⟨turns, s, diags, pathStyle, state', hexp, hidx, hstyle, hparts, last, hlast,
    hpart⟩
    obtain ⟨hoptext, hoprest⟩ := zero_notMem_opening henv (zero_notMem_expand henv hname hexp)
    have hzero : 0 ∉ wholeText (opening environ s pathidx) pathStyle outtype := by
      intro hmem
      rcases List.mem_append.mp hmem with hmem | hmem
      · exact hoptext hmem
      · exact zero_notMem_partsText (fun part hpart hc => hoprest (mem_of_mem_partsOf hc hpart)) hmem
    have hopen : ¬Closed (wholeText (opening environ s pathidx) pathStyle outtype) := fun hclosed =>
      (closed_wholeText_iff (closed_opening environ s pathidx)).mp hclosed last hlast hpart
    -- a buffer without a NUL
    obtain ⟨buf, hbuf, hfits, hrest⟩ : ∃ buf : List UInt8, 2 ≤ buf.length ∧
        (wholeText (opening environ s pathidx) pathStyle outtype).length ≤ buf.length ∧ 0 ∉ buf.drop 1 := by
      refine ⟨List.replicate ((wholeText (opening environ s pathidx) pathStyle outtype).length + 2) 0x41,
        ?_, ?_, ?_⟩
      · rw [List.length_replicate]
        exact Nat.le_add_left _ _
      · rw [List.length_replicate]
        exact Nat.le_add_right _ _
      · intro hmem
        exact absurd (List.eq_of_mem_replicate (List.mem_of_mem_drop hmem)) (by decide)
    obtain ⟨b, hend, hrun⟩ := anyToNative_found hexp hbuf hidx hstyle hparts hfits
    obtain ⟨hmem, -⟩ := hsame turns buf _ diags hbuf hrun rfl
    have hlen := length_zero_cons_drop hbuf
    rw [endName_open hopen hzero (by rw [length_block_written (hlen ▸ hfits), hlen]; exact hbuf)] at hend
    obtain rfl := Except.ok.inj hend
    rcases List.mem_append.mp hmem with hmem | hmem
    · exact hzero hmem
    · generalize wholeText (opening environ s pathidx) pathStyle outtype = whole at hopen hmem
      cases whole with
      | nil => exact hopen (Or.inl rfl)
      | cons c whole => exact hrest (List.mem_of_mem_drop hmem)
  · intro hnot
    refine ⟨fun turns buf => anyToNative_ne_outside, ?_⟩
    by_cases hends : ∃ turns s diags pathStyle st, expand environ turns name = .ok (s, diags) ∧
        chooseStyle (opening environ s pathidx).pathStyle state = .ok (pathStyle, st)
    · obtain ⟨turns₀, s, diags₀, pathStyle, st, hexp, hstyle⟩ := hends
      refine ⟨nativeName (wholeText (opening environ s pathidx) pathStyle outtype), ?_⟩
      intro turns buf answer diags hbuf hrun hfound
      obtain ⟨s', pathStyle', st', b, hexp', hidx, hstyle', hparts, hfits, hend, rfl⟩ :=
        found_of_ok hbuf hrun hfound
      obtain ⟨rfl, rfl⟩ := Prod.mk.inj (expand_unique hexp hexp')
      obtain ⟨rfl, rfl⟩ := Prod.mk.inj (Except.ok.inj (hstyle.symm.trans hstyle'))
      have hclosed : Closed (wholeText (opening environ s pathidx) pathStyle outtype) := by
        refine (closed_wholeText_iff (closed_opening environ s pathidx)).mpr fun last hlast hpart => hnot ?_
        exact ⟨turns, s, diags₀, pathStyle, st, hexp', hidx, hstyle, hparts, last, hlast, hpart⟩
      have hlen := length_zero_cons_drop hbuf
      obtain ⟨b', hb', hmem, hname⟩ := @endName_closed _ (buf.drop 1) hclosed (by
        rw [length_block_written (hlen ▸ hfits), hlen]
        exact hbuf)
      obtain rfl := Except.ok.inj (hend.symm.trans hb')
      exact ⟨hmem, hname⟩
    · refine ⟨[], fun turns buf answer diags hbuf hrun hfound => absurd ?_ hends⟩
      obtain ⟨s, pathStyle, st, b, hexp, -, hstyle, -⟩ := found_of_ok hbuf hrun hfound
      exact ⟨turns, s, diags, pathStyle, st, hexp, hstyle⟩

theorem settled_words : Settled [] [0x61, 0x2E, 0x62] 0 false .eA_Dot_B :=
  (settled_iff (by decide) fun _ h => absurd h List.not_mem_nil).mpr <| by
    rintro ⟨turns, s, diags, pathStyle, state', -, -, -, -, last, -, h, -⟩
    exact nomatch h

/-- **`a.b` in the other order**: the buffer is full of it, and has no NUL. -/
theorem not_settled : ¬∀ environ name pathidx state outtype, 0 ∉ name → (∀ entry ∈ environ, 0 ∉ entry) →
    Settled environ name pathidx state outtype := by
  intro h
  obtain ⟨-, text, hsame⟩ := h [] [0x61, 0x2E, 0x62] 0 false .eB_DirSep_A (by decide)
    fun _ h => absurd h List.not_mem_nil
  have hrun : FN_AnyToNative 0 [] [0x61, 0x2E, 0x62] 0 [0x41, 0x41, 0x41] false .eB_DirSep_A =
      .ok (⟨[0x62, 0x2F, 0x61], true, true⟩, []) := rfl
  obtain ⟨hmem, -⟩ := hsame 0 _ _ _ (by decide) hrun rfl
  exact absurd hmem (by decide)

end Asasm.FileName
