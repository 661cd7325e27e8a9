import Gccsdk.Lib.CText

/-!
# Reading the lines of a source file

`filestack.c` has two readers: `File_GetLine` asks `fgets` for the lines of an open file,
`CachedFile_GetLine` scans the image of a file in memory. Both join the lines that end in a backslash.

`Delivers` is what a file gives, read to its end: the lines, as the C strings in the buffer of the caller,
each with its number. The two readers are followed side by side, from one end of a physical line to the
next, with what has been joined so far (`agree_loops_iff`). They part at a CR, at a NUL, at a line that
does not fit, at an empty line behind two backslashes, and where a line that is continued is the last one.
`SameLines` has these as conditions on the text, and `sameReading_iff` says that there are no others.
-/

namespace Asasm.FileStack

open CText

abbrev lf : UInt8 := 0x0A
abbrev cr : UInt8 := 0x0D
abbrev backslash : UInt8 := 0x5C

/-- The file of a `PObject`: what is behind its position (`curP` up to `endP`, or the stream), and the
counts of lines and of the characters of the last one. -/
structure PObject where
  rest : List UInt8
  lineNum : ℕ
  lastLineSize : ℕ
  deriving DecidableEq

/-- What a call of `GetLine` comes to. -/
inductive Got
  /-- `false`: the characters in the buffer, up to the NUL that is put behind them. -/
  | line (buf : List UInt8) (pObj : PObject)
  /-- `true`. -/
  | eof
  /-- `Error_Abort ("Line too long")`. -/
  | lineTooLong
  deriving DecidableEq

/-! ### The reader of an open file -/

/-- `fgets`, with room for a number of characters in front of the NUL: what it stores, and `feof` behind
it. -/
def fgets : ℕ → List UInt8 → List UInt8 × Bool
  | 0, _ => ([], false)
  | _ + 1, [] => ([], true)
  | room + 1, c :: rest =>
    if c = lf then ([c], false)
    else
      let (chars, feof) := fgets room rest
      (c :: chars, feof)

theorem fgets_nil (room : ℕ) : (fgets room []).1 = [] := by cases room <;> rfl

theorem ne_nil_of_fgets {room : ℕ} {rest : List UInt8} (h : CText.cstr (fgets room rest).1 ≠ []) :
    rest.length - (fgets room rest).1.length < rest.length := by
  cases rest with
  | nil =>
    rw [fgets_nil] at h
    exact absurd rfl h
  | cons c rest =>
    have hpos : 0 < (fgets room (c :: rest)).1.length := by
      refine List.length_pos_of_ne_nil fun hnil => ?_
      rw [hnil] at h
      exact h rfl
    rw [List.length_cons]
    omega

/-- The loop of `File_GetLine`, with the characters in the buffer in front of `bufP`. -/
def fileLoop (bufSize : ℕ) (joined rest : List UInt8) (lineNum lastLineSize : ℕ) : Got :=
  let chars := (fgets (bufSize - joined.length - 1) rest).1
  let feof := (fgets (bufSize - joined.length - 1) rest).2
  let bufP := CText.cstr chars
  if _h : bufP = [] then .eof
  else
    let lineLen := bufP.length
    let size := lastLineSize + lineLen
    if bufP[lineLen - 1]? = some lf then
      if 1 < lineLen ∧ bufP[lineLen - 2]? = some backslash then
        fileLoop bufSize (joined ++ bufP.take (lineLen - 2)) (rest.drop chars.length) (lineNum + 1) size
      else .line (joined ++ bufP.take (lineLen - 1)) ⟨rest.drop chars.length, lineNum, size⟩
    else if feof then .line (joined ++ bufP) ⟨rest.drop chars.length, lineNum, size⟩
    else .lineTooLong
termination_by rest.length
decreasing_by
  rw [List.length_drop]
  exact ne_nil_of_fgets _h

def fileGetLine (bufSize : ℕ) (pObj : PObject) : Got := fileLoop bufSize [] pObj.rest pObj.lineNum 0

/-! ### The reader of an image in memory -/

def isEol (c : UInt8) : Bool := c = cr || c = lf

def skipEol : List UInt8 → List UInt8
  | c :: rest =>
    if c = cr then
      match rest with
      | d :: rest' => if d = lf then rest' else d :: rest'
      | [] => []
    else if c = lf then rest
    else c :: rest
  | [] => []

def copied (room : ℕ) (curP : List UInt8) : List UInt8 := (curP.takeWhile (!isEol ·)).take room

theorem length_skipEol_le (curP : List UInt8) : (skipEol curP).length ≤ curP.length := by
  unfold skipEol
  split
  · split
    · split
      · split <;> simp only [List.length_cons] <;> omega
      · exact Nat.zero_le _
    · split <;> simp only [List.length_cons] <;> omega
  · exact le_refl _

/-- The loop of `CachedFile_GetLine`, with the characters in the buffer in front of `bufP`; `size` is the
number of characters from where the call started. -/
def cachedLoop (bufSize size : ℕ) (joined curP : List UInt8) (lineNum : ℕ) : Got :=
  let bufP := joined ++ copied (bufSize - joined.length) curP
  let atEol := curP.drop (copied (bufSize - joined.length) curP).length
  if atEol = [] ∨ atEol.head?.any isEol then
    let curP' := skipEol atEol
    if h : bufP.getLast? = some backslash then
      cachedLoop bufSize size bufP.dropLast curP' (lineNum + 1)
    else if bufP.length ≠ bufSize then .line bufP ⟨curP', lineNum, size - curP'.length⟩
    else .lineTooLong
  else .lineTooLong
termination_by joined.length + curP.length
decreasing_by
  have hle := length_skipEol_le (curP.drop (copied (bufSize - joined.length) curP).length)
  have hpos : 0 < (joined ++ copied (bufSize - joined.length) curP).length := by
    refine List.length_pos_of_ne_nil fun hnil => ?_
    rw [show bufP = [] from hnil] at h
    cases h
  have hcopied : (copied (bufSize - joined.length) curP).length ≤ curP.length :=
    (List.length_take_le' _ _).trans (List.takeWhile_sublist _).length_le
  rw [List.length_drop] at hle
  change (joined ++ copied (bufSize - joined.length) curP).dropLast.length + _ < _
  rw [List.length_append] at hpos
  rw [List.length_dropLast, List.length_append]
  omega

/-- `CachedFile_GetLine`. -/
def cachedGetLine (bufSize : ℕ) (pObj : PObject) : Got :=
  if pObj.rest = [] then .eof
  else cachedLoop bufSize pObj.rest.length [] pObj.rest pObj.lineNum

/-! ### What a file gives -/

/-- **A file that is read to its end**, from what a call comes to: the lines, as the strings in the buffer,
and the number of each. -/
inductive Delivers (getLine : PObject → Got) : Got → List (List UInt8 × ℕ) → Prop
  | eof : Delivers getLine .eof []
  | line {buf : List UInt8} {pObj : PObject} {lines : List (List UInt8 × ℕ)} :
      Delivers getLine (getLine { pObj with lineNum := pObj.lineNum + 1 }) lines →
      Delivers getLine (.line buf pObj) ((CText.cstr buf, pObj.lineNum + 1) :: lines)

def Agree (bufSize : ℕ) (file cached : Got) : Prop :=
  ∃ lines, Delivers (fileGetLine bufSize) file lines ∧ Delivers (cachedGetLine bufSize) cached lines

/-- A file as it is opened (`FS_PushFilePObject`). -/
def opened (content : List UInt8) : PObject := ⟨content, 0, 0⟩

/-- **Both readers give the same for a file.** -/
def SameReading (bufSize : ℕ) (content : List UInt8) : Prop :=
  Agree bufSize (fileGetLine bufSize (opened content)) (cachedGetLine bufSize (opened content))

variable {bufSize n size m : ℕ} {joined p rest r : List UInt8} {g : Got}

theorem agree_eof : Agree bufSize .eof .eof := ⟨[], .eof, .eof⟩

theorem eq_eof_of_agree (h : Agree bufSize .eof g) : g = .eof := by
  obtain ⟨lines, hfile, hcached⟩ := h
  cases hfile
  cases hcached
  rfl

theorem not_agree_lineTooLong : ¬Agree bufSize .lineTooLong g := by
  rintro ⟨lines, hfile, -⟩
  cases hfile

theorem delivers_line_iff {getLine : PObject → Got} {buf : List UInt8} {pObj : PObject}
    {lines : List (List UInt8 × ℕ)} : Delivers getLine (.line buf pObj) lines ↔
      ∃ behind, lines = (CText.cstr buf, pObj.lineNum + 1) :: behind ∧
        Delivers getLine (getLine { pObj with lineNum := pObj.lineNum + 1 }) behind := by
  constructor
  · intro h
    cases h with
    | line h => exact ⟨_, rfl, h⟩
  · rintro ⟨behind, rfl, h⟩
    exact .line h

theorem agree_line_iff {buf : List UInt8} {pObj : PObject} : Agree bufSize (.line buf pObj) g ↔
    ∃ buf' pObj', g = .line buf' pObj' ∧ CText.cstr buf' = CText.cstr buf ∧ pObj'.lineNum = pObj.lineNum ∧
      Agree bufSize (fileGetLine bufSize { pObj with lineNum := pObj.lineNum + 1 })
        (cachedGetLine bufSize { pObj' with lineNum := pObj'.lineNum + 1 }) := by
  constructor
  · rintro ⟨lines, hfile, hcached⟩
    obtain ⟨behind, rfl, hrest⟩ := delivers_line_iff.mp hfile
    cases g with
    | eof => cases hcached
    | lineTooLong => cases hcached
    | line buf' pObj' =>
      obtain ⟨behind', heq, hcached⟩ := delivers_line_iff.mp hcached
      obtain ⟨hhead, rfl⟩ := List.cons.inj heq
      obtain ⟨htext, hnum⟩ := Prod.mk.inj hhead
      exact ⟨buf', pObj', rfl, htext.symm, Nat.succ_injective hnum.symm, _, hrest, hcached⟩
  · rintro ⟨buf', pObj', rfl, htext, hnum, lines, hfile, hcached⟩
    refine ⟨_, .line hfile, ?_⟩
    rw [← htext, ← hnum]
    exact .line hcached

/-! ### What fgets stores -/

theorem fgets_line (hp : lf ∉ p) (hfit : p.length < m) : fgets m (p ++ lf :: r) = (p ++ [lf], false) := by
  induction p generalizing m with
  | nil =>
    cases m with
    | zero => exact absurd hfit (Nat.not_lt_zero _)
    | succ m => rfl
  | cons c p ih =>
    cases m with
    | zero => exact absurd hfit (Nat.not_lt_zero _)
    | succ m =>
      have hc : c ≠ lf := fun h => hp (h ▸ List.mem_cons_self)
      have hp' : lf ∉ p := fun h => hp (List.mem_cons_of_mem _ h)
      rw [List.cons_append, fgets, if_neg hc, ih hp' (Nat.lt_of_succ_lt_succ hfit)]
      rfl

theorem fgets_last (hp : lf ∉ p) (hfit : p.length < m) : fgets m p = (p, true) := by
  induction p generalizing m with
  | nil =>
    cases m with
    | zero => exact absurd hfit (Nat.not_lt_zero _)
    | succ m => rfl
  | cons c p ih =>
    cases m with
    | zero => exact absurd hfit (Nat.not_lt_zero _)
    | succ m =>
      have hc : c ≠ lf := fun h => hp (h ▸ List.mem_cons_self)
      have hp' : lf ∉ p := fun h => hp (List.mem_cons_of_mem _ h)
      rw [fgets, if_neg hc, ih hp' (Nat.lt_of_succ_lt_succ hfit)]

theorem fgets_part (hp : lf ∉ p) (hfit : m ≤ p.length) : fgets m (p ++ r) = (p.take m, false) := by
  induction p generalizing m with
  | nil =>
    obtain rfl := Nat.le_zero.mp hfit
    rfl
  | cons c p ih =>
    cases m with
    | zero => rfl
    | succ m =>
      have hc : c ≠ lf := fun h => hp (h ▸ List.mem_cons_self)
      have hp' : lf ∉ p := fun h => hp (List.mem_cons_of_mem _ h)
      rw [List.cons_append, fgets, if_neg hc, ih hp' (Nat.le_of_succ_le_succ hfit)]
      rfl

/-! ### One turn of the reader of an open file -/

/-- A line that ends, and is not continued, -/
theorem fileLoop_of_ends (hlf : lf ∉ p) (hzero : 0 ∉ p) (hfit : joined.length + p.length + 2 ≤ bufSize)
    (hlast : p.getLast? ≠ some backslash) :
    fileLoop bufSize joined (p ++ lf :: r) n size = .line (joined ++ p) ⟨r, n, size + (p.length + 1)⟩ := by
  have hmem : (0 : UInt8) ∉ p ++ [lf] := by simpa [lf] using hzero
  rw [fileLoop, fgets_line hlf (by omega)]
  simp only [cstr_of_notMem hmem, List.length_append, List.length_singleton]
  rw [dif_neg (by simp), if_pos (by simp), if_neg, Nat.add_sub_cancel, List.take_left' rfl]
  · rw [List.append_cons, List.drop_left' (by simp)]
  · rintro ⟨hlt, hget⟩
    rw [Nat.add_sub_add_right p.length 1 1, List.getElem?_append_left (by omega),
      ← List.getLast?_eq_getElem?] at hget
    exact hlast hget

theorem fileLoop_of_continues (hlf : lf ∉ p) (hzero : 0 ∉ p) (hfit : joined.length + p.length + 3 ≤ bufSize) :
    fileLoop bufSize joined (p ++ [backslash] ++ lf :: r) n size =
      fileLoop bufSize (joined ++ p) r (n + 1) (size + (p.length + 2)) := by
  have hlf' : lf ∉ p ++ [backslash] := by simpa [lf, backslash] using hlf
  have hmem : (0 : UInt8) ∉ p ++ [backslash] ++ [lf] := by simpa [lf, backslash] using hzero
  have hdrop : (p ++ [backslash] ++ lf :: r).drop (p.length + 1 + 1) = r := by
    rw [List.append_cons]
    exact List.drop_left' (by simp)
  have htake : (p ++ [backslash] ++ [lf]).take (p.length + 1 + 1 - 2) = p := by simp
  rw [fileLoop, fgets_line hlf' (by rw [List.length_append, List.length_singleton]; omega)]
  simp only [cstr_of_notMem hmem, List.length_append, List.length_singleton]
  rw [dif_neg (by simp), if_pos (by simp), if_pos, hdrop, htake]
  refine ⟨by omega, ?_⟩
  rw [show p.length + 1 + 1 - 2 = p.length by omega, List.append_assoc, List.getElem?_append_right (le_refl _),
    Nat.sub_self]
  rfl

theorem fileLoop_of_last (hlf : lf ∉ p) (hfit : joined.length + p.length + 2 ≤ bufSize) (hne : CText.cstr p ≠ []) :
    fileLoop bufSize joined p n size = .line (joined ++ CText.cstr p) ⟨[], n, size + (CText.cstr p).length⟩ := by
  rw [fileLoop, fgets_last hlf (by omega)]
  dsimp only
  rw [dif_neg hne, if_neg, if_pos rfl, List.drop_length]
  intro h
  exact hlf (List.takeWhile_subset _ (List.mem_of_getElem? h))

/-- A line that is not delivered: it begins with a NUL, or there is nothing left, or it is too long. -/
def Fails (g : Got) : Prop := g = .eof ∨ g = .lineTooLong

private theorem fileLoop_fails {chars : List UInt8}
    (hfgets : fgets (bufSize - joined.length - 1) rest = (chars, false)) (hlf : lf ∉ CText.cstr chars) :
    Fails (fileLoop bufSize joined rest n size) := by
  rw [fileLoop, hfgets]
  dsimp only
  by_cases hnil : CText.cstr chars = []
  · rw [dif_pos hnil]
    exact .inl rfl
  · rw [dif_neg hnil, if_neg, if_neg Bool.false_ne_true]
    · exact .inr rfl
    · intro h
      exact hlf (List.mem_of_getElem? h)

/-- There is no room for the line, -/
theorem fileLoop_of_misfit (hlf : lf ∉ p) (hfit : bufSize < joined.length + p.length + 2) :
    Fails (fileLoop bufSize joined (p ++ r) n size) := by
  refine fileLoop_fails (fgets_part hlf (by omega)) fun h => hlf ?_
  exact List.mem_of_mem_take (List.takeWhile_subset _ h)

theorem fileLoop_of_zero (hlf : lf ∉ p) (hzero : 0 ∈ p) (hfit : joined.length + p.length + 2 ≤ bufSize) :
    Fails (fileLoop bufSize joined (p ++ lf :: r) n size) := by
  refine fileLoop_fails (fgets_line hlf (by omega)) fun h => hlf ?_
  rw [cstr_append_of_mem hzero] at h
  exact List.takeWhile_subset _ h

theorem fileLoop_of_last_empty (hlf : lf ∉ p) (hnil : CText.cstr p = [])
    (hfit : joined.length + p.length + 2 ≤ bufSize) : fileLoop bufSize joined p n size = .eof := by
  rw [fileLoop, fgets_last hlf (by omega)]
  dsimp only
  rw [dif_pos hnil]

/-! ### One turn of the reader of an image -/

theorem isEol_eq_false_of_mem (hcr : cr ∉ p) (hlf : lf ∉ p) : ∀ c ∈ p, isEol c = false := by
  intro c hc
  rw [isEol, Bool.or_eq_false_iff, decide_eq_false_iff_not, decide_eq_false_iff_not]
  refine ⟨?_, ?_⟩
  · rintro rfl
    exact hcr hc
  · rintro rfl
    exact hlf hc

theorem copied_eq (hp : ∀ c ∈ p, isEol c = false) (hr : r = [] ∨ r.head?.any isEol)
    (hfit : p.length ≤ m) : copied m (p ++ r) = p := by
  have hstop : r.takeWhile (!isEol ·) = [] := by
    cases r with
    | nil => rfl
    | cons c r =>
      have hc : isEol c = true := by simpa using hr
      rw [List.takeWhile_cons, hc]
      rfl
  rw [copied, List.takeWhile_append_of_pos (fun c hc => by rw [hp c hc]; rfl), hstop, List.append_nil,
    List.take_of_length_le hfit]

theorem cachedLoop_of_ends (hp : ∀ c ∈ p, isEol c = false) (hr : r = [] ∨ r.head?.any isEol)
    (hfit : joined.length + p.length ≤ bufSize) :
    cachedLoop bufSize size joined (p ++ r) n =
      if (joined ++ p).getLast? = some backslash then
        cachedLoop bufSize size (joined ++ p).dropLast (skipEol r) (n + 1)
      else if (joined ++ p).length ≠ bufSize then
        .line (joined ++ p) ⟨skipEol r, n, size - (skipEol r).length⟩
      else .lineTooLong := by
  rw [cachedLoop, copied_eq hp hr (by omega), List.drop_left, if_pos hr]
  by_cases hlast : (joined ++ p).getLast? = some backslash
  · rw [dif_pos hlast, if_pos hlast]
  · rw [dif_neg hlast, if_neg hlast]

/-! ### What holds of any line -/

variable {buf : List UInt8} {pObj : PObject}

theorem fileLoop_line (h : fileLoop bufSize joined rest n size = .line buf pObj) (hzero : 0 ∉ joined) :
    joined <+: buf ∧ 0 ∉ buf := by
  fun_induction fileLoop bufSize joined rest n size with
  | case1 => cases h
  | case2 joined rest n size chars bufP hne lineLen size' hend hcont ih =>
    have htake : (0 : UInt8) ∉ bufP.take (lineLen - 2) := fun hmem =>
      zero_notMem_cstr _ (List.mem_of_mem_take hmem)
    obtain ⟨hpre, hnot⟩ := ih h (by simpa using ⟨hzero, htake⟩)
    exact ⟨(List.prefix_append _ _).trans hpre, hnot⟩
  | case3 joined rest n size chars bufP hne lineLen size' hend hcont =>
    have htake : (0 : UInt8) ∉ bufP.take (lineLen - 1) := fun hmem =>
      zero_notMem_cstr _ (List.mem_of_mem_take hmem)
    obtain ⟨rfl, -⟩ := Got.line.inj h
    exact ⟨List.prefix_append _ _, by simpa using ⟨hzero, htake⟩⟩
  | case4 joined rest n size chars feof bufP hne lineLen size' hend hfeof =>
    obtain ⟨rfl, -⟩ := Got.line.inj h
    exact ⟨List.prefix_append _ _, by simpa using ⟨hzero, zero_notMem_cstr _⟩⟩
  | case5 => cases h

theorem notMem_copied {c : UInt8} (hc : isEol c = true) (curP : List UInt8) : c ∉ copied m curP := by
  intro h
  have hnot := List.mem_takeWhile_imp (List.mem_of_mem_take h)
  rw [hc] at hnot
  cases hnot

/-- A line is begun in memory: the file is not at its end, -/
theorem cachedLoop_ne_eof : cachedLoop bufSize size joined rest n ≠ .eof := by
  fun_induction cachedLoop bufSize size joined rest n with
  | case1 _ _ _ _ _ _ _ _ ih => exact ih
  | case2 => nofun
  | case3 => nofun
  | case4 => nofun

theorem cachedLoop_line (h : cachedLoop bufSize size joined rest n = .line buf pObj) (hcr : cr ∉ joined) :
    n ≤ pObj.lineNum ∧ cr ∉ buf := by
  fun_induction cachedLoop bufSize size joined rest n with
  | case1 joined curP n bufP atEol hat curP' hlast ih =>
    have hbuf : cr ∉ bufP.dropLast := by
      intro hmem
      obtain hmem | hmem := List.mem_append.mp (List.dropLast_subset _ hmem)
      · exact hcr hmem
      · exact notMem_copied (by decide) _ hmem
    obtain ⟨hle, hnot⟩ := ih h hbuf
    exact ⟨by omega, hnot⟩
  | case2 joined curP n bufP atEol hat curP' hlast hlen =>
    obtain ⟨rfl, rfl⟩ := Got.line.inj h
    refine ⟨le_refl n, fun hmem => ?_⟩
    obtain hmem | hmem := List.mem_append.mp hmem
    · exact hcr hmem
    · exact notMem_copied (by decide) _ hmem
  | case3 => cases h
  | case4 => cases h

/-! ### Where the readers part -/

theorem not_agree_of_fails (h : Fails g) : ¬Agree bufSize g (cachedLoop bufSize size joined rest n) := by
  intro hagree
  obtain rfl | rfl := h
  · exact cachedLoop_ne_eof (eq_eof_of_agree hagree)
  · exact not_agree_lineTooLong hagree

theorem not_agree_of_cr (hcr : cr ∉ joined) (hbuf : cr ∈ buf) (hzero : 0 ∉ buf) :
    ¬Agree bufSize (.line buf pObj) (cachedLoop bufSize size joined rest n) := by
  intro hagree
  obtain ⟨buf', pObj', hline, htext, -, -⟩ := agree_line_iff.mp hagree
  have hnot := (cachedLoop_line hline hcr).2
  rw [cstr_of_notMem hzero] at htext
  exact hnot (List.takeWhile_subset _ (htext.symm ▸ hbuf))

theorem not_agree_of_lt (hcr : cr ∉ joined) (hlt : pObj.lineNum < n) :
    ¬Agree bufSize (.line buf pObj) (cachedLoop bufSize size joined rest n) := by
  intro hagree
  obtain ⟨buf', pObj', hline, -, hnum, -⟩ := agree_line_iff.mp hagree
  have hle := (cachedLoop_line hline hcr).1
  omega

theorem not_agree_of_joined {joined' rest' : List UInt8} {n' size' : ℕ} (hcr : cr ∉ joined)
    (hjoined : cr ∈ joined') (hzero : 0 ∉ joined') :
    ¬Agree bufSize (fileLoop bufSize joined' rest' n' size') (cachedLoop bufSize size joined rest n) := by
  cases hfile : fileLoop bufSize joined' rest' n' size' with
  | eof => exact not_agree_of_fails (.inl rfl)
  | lineTooLong => exact not_agree_of_fails (.inr rfl)
  | line buf pObj =>
    obtain ⟨hpre, hnot⟩ := fileLoop_line hfile hzero
    exact not_agree_of_cr hcr (hpre.subset hjoined) hnot

/-! ### The files that both readers give the same for -/

/-- **A physical line with a newline**, behind what was joined: it has no NUL and no CR, it fits together
with its newline, and where it is empty there is no backslash left in front of it. -/
structure LineOk (bufSize : ℕ) (joined p : List UInt8) : Prop where
  noZero : 0 ∉ p
  noCr : cr ∉ p
  fits : joined.length + p.length + 2 ≤ bufSize
  noSecond : p = [] → joined.getLast? ≠ some backslash

/-- **The last physical line**, without a newline: it is a line that fits, and is not continued. It has no
CR; or the CR is its last character, and both readers stop at a NUL in front of it. -/
structure LastOk (bufSize : ℕ) (joined last : List UInt8) : Prop where
  nonempty : CText.cstr last ≠ []
  fits : joined.length + last.length + 2 ≤ bufSize
  ends : ∃ a, (last = a ∨ last = a ++ [cr] ∧ 0 ∈ a) ∧ cr ∉ a ∧ a.getLast? ≠ some backslash

/-- **The physical lines from some point on**, behind what was joined before it. -/
def SameLines (bufSize : ℕ) : List UInt8 → List (List UInt8) → Prop
  | _, [] => False
  | joined, [last] => LastOk bufSize joined last
  | joined, p :: q :: ps =>
    LineOk bufSize joined p ∧
      if p.getLast? = some backslash then SameLines bufSize (joined ++ p.dropLast) (q :: ps)
      else q :: ps = [[]] ∨ SameLines bufSize [] (q :: ps)

theorem agree_line_step {size' : ℕ} (hlf : lf ∉ p) (hzero : 0 ∉ joined) (hcr : cr ∉ joined) :
    Agree bufSize (fileLoop bufSize joined (p ++ lf :: r) n size)
        (cachedLoop bufSize size' joined (p ++ lf :: r) n) ↔
      LineOk bufSize joined p ∧
        if p.getLast? = some backslash then
          Agree bufSize (fileLoop bufSize (joined ++ p.dropLast) r (n + 1) (size + (p.length + 1)))
            (cachedLoop bufSize size' (joined ++ p.dropLast) r (n + 1))
        else Agree bufSize (fileGetLine bufSize ⟨r, n + 1, 0⟩) (cachedGetLine bufSize ⟨r, n + 1, 0⟩) := by
  by_cases hfit : joined.length + p.length + 2 ≤ bufSize
  swap
  · refine iff_of_false (not_agree_of_fails (fileLoop_of_misfit hlf (by omega))) ?_
    exact fun h => hfit h.1.fits
  by_cases hp : 0 ∈ p
  · refine iff_of_false (not_agree_of_fails (fileLoop_of_zero hlf hp hfit)) ?_
    exact fun h => h.1.noZero hp
  by_cases hlast : p.getLast? = some backslash
  · -- the open file goes on behind the backslash
    obtain ⟨a, rfl⟩ := List.getLast?_eq_some_iff.mp hlast
    rw [if_pos hlast, List.dropLast_concat]
    have hlfa : lf ∉ a := fun h => hlf (List.mem_append_left _ h)
    have hzeroa : 0 ∉ a := fun h => hp (List.mem_append_left _ h)
    have hzero' : 0 ∉ joined ++ a := fun h => (List.mem_append.mp h).elim hzero hzeroa
    rw [List.length_append, List.length_singleton] at hfit
    rw [fileLoop_of_continues hlfa hzeroa (by omega), List.length_append, List.length_singleton]
    by_cases hcra : cr ∈ a
    · refine iff_of_false (not_agree_of_joined hcr (List.mem_append_right _ hcra) hzero') ?_
      exact fun h => h.1.noCr (List.mem_append_left _ hcra)
    · have hcrb : cr ∉ a ++ [backslash] := by
        intro h
        obtain h | h := List.mem_append.mp h
        · exact hcra h
        · exact absurd (List.mem_singleton.mp h) (by decide)
      have hplain := isEol_eq_false_of_mem hcrb hlf
      rw [cachedLoop_of_ends hplain (.inr rfl) (by rw [List.length_append, List.length_singleton]; omega),
        if_pos (by simp), ← List.append_assoc, List.dropLast_concat]
      refine (and_iff_right ?_).symm
      refine ⟨hp, hcrb, by rw [List.length_append, List.length_singleton]; omega, fun h => ?_⟩
      exact absurd h (List.append_ne_nil_of_right_ne_nil _ (List.cons_ne_nil _ _))
  · rw [if_neg hlast, fileLoop_of_ends hlf hp hfit hlast]
    have hzero' : 0 ∉ joined ++ p := fun h => (List.mem_append.mp h).elim hzero hp
    by_cases hcrp : cr ∈ p
    · refine iff_of_false (not_agree_of_cr hcr (List.mem_append_right _ hcrp) hzero') ?_
      exact fun h => h.1.noCr hcrp
    have hplain := isEol_eq_false_of_mem hcrp hlf
    have hcr' : cr ∉ joined ++ p := fun h => (List.mem_append.mp h).elim hcr hcrp
    rw [cachedLoop_of_ends hplain (.inr rfl) (by omega)]
    by_cases hsecond : (joined ++ p).getLast? = some backslash
    · -- an empty line behind what was joined: in memory, its last backslash continues the line again
      rw [if_pos hsecond]
      refine iff_of_false (not_agree_of_lt (fun h => hcr' (List.dropLast_subset _ h)) (Nat.lt_succ_self n)) ?_
      intro h
      cases p with
      | nil =>
        rw [List.append_nil] at hsecond
        exact h.1.noSecond rfl hsecond
      | cons c p =>
        rw [List.getLast?_append_of_ne_nil _ (List.cons_ne_nil _ _)] at hsecond
        exact hlast hsecond
    · have hne : (joined ++ p).length ≠ bufSize := by rw [List.length_append]; omega
      rw [if_neg hsecond, if_pos hne, agree_line_iff]
      constructor
      · rintro ⟨buf', pObj', heq, -, -, hagree⟩
        obtain ⟨rfl, rfl⟩ := Got.line.inj heq
        refine ⟨⟨hp, hcrp, hfit, ?_⟩, hagree⟩
        rintro rfl
        rwa [List.append_nil] at hsecond
      · rintro ⟨-, hagree⟩
        exact ⟨_, _, rfl, rfl, rfl, hagree⟩

/-! ### The last physical line -/

theorem fileGetLine_nil (l : ℕ) : fileGetLine bufSize ⟨[], n, l⟩ = .eof := by
  rw [fileGetLine, fileLoop, fgets_nil]
  rfl

theorem cachedGetLine_eq_eof_iff {l : ℕ} : cachedGetLine bufSize ⟨rest, n, l⟩ = .eof ↔ rest = [] := by
  by_cases hrest : rest = []
  · exact iff_of_true (if_pos hrest) hrest
  · refine iff_of_false (fun h => ?_) hrest
    rw [cachedGetLine, if_neg hrest] at h
    exact cachedLoop_ne_eof h

theorem agree_fileGetLine_nil {l l' : ℕ} :
    Agree bufSize (fileGetLine bufSize ⟨[], n, l⟩) (cachedGetLine bufSize ⟨rest, m, l'⟩) ↔ rest = [] := by
  rw [fileGetLine_nil]
  constructor
  · intro h
    exact cachedGetLine_eq_eof_iff.mp (eq_eof_of_agree h)
  · intro h
    rw [cachedGetLine_eq_eof_iff.mpr h]
    exact agree_eof

theorem skipEol_cr (hlf : lf ∉ r) : skipEol (cr :: r) = r := by
  cases r with
  | nil => rfl
  | cons c r =>
    have hc : c ≠ lf := fun h => hlf (h ▸ List.mem_cons_self)
    change (if c = lf then r else c :: r) = c :: r
    rw [if_neg hc]

private theorem agree_last_line {text : List UInt8} {k k' : ℕ} (hzero : 0 ∉ joined) (hcr : cr ∉ joined ++ p)
    (htext : 0 ∉ text) :
    Agree bufSize (.line (joined ++ text) ⟨[], n, k⟩)
        (if (joined ++ p).getLast? = some backslash then
            cachedLoop bufSize size (joined ++ p).dropLast r (n + 1)
          else .line (joined ++ p) ⟨r, n, k'⟩) ↔
      (joined ++ p).getLast? ≠ some backslash ∧ CText.cstr p = text ∧ r = [] := by
  by_cases hlast : (joined ++ p).getLast? = some backslash
  · rw [if_pos hlast]
    refine iff_of_false (not_agree_of_lt (fun h => hcr (List.dropLast_subset _ h)) (Nat.lt_succ_self n)) ?_
    exact fun h => h.1 hlast
  · rw [if_neg hlast, agree_line_iff, and_iff_right hlast]
    have hstr : CText.cstr (joined ++ text) = joined ++ text := by
      rw [cstr_append hzero, cstr_of_notMem htext]
    constructor
    · rintro ⟨buf', pObj', heq, hsame, -, hagree⟩
      obtain ⟨rfl, rfl⟩ := Got.line.inj heq
      rw [cstr_append hzero, hstr] at hsame
      exact ⟨List.append_cancel_left hsame, agree_fileGetLine_nil.mp hagree⟩
    · rintro ⟨hsame, rfl⟩
      refine ⟨_, _, rfl, ?_, rfl, agree_fileGetLine_nil.mpr rfl⟩
      rw [cstr_append hzero, hstr, hsame]

theorem agree_last_iff {last : List UInt8} {size' : ℕ} (hlf : lf ∉ last) (hzero : 0 ∉ joined)
    (hcr : cr ∉ joined) :
    Agree bufSize (fileLoop bufSize joined last n size) (cachedLoop bufSize size' joined last n) ↔
      LastOk bufSize joined last := by
  by_cases hfit : joined.length + last.length + 2 ≤ bufSize
  swap
  · have hfails : Fails (fileLoop bufSize joined (last ++ []) n size) :=
      fileLoop_of_misfit hlf (Nat.lt_of_not_le hfit)
    rw [List.append_nil] at hfails
    exact iff_of_false (not_agree_of_fails hfails) fun h => hfit h.fits
  by_cases hnil : CText.cstr last = []
  · refine iff_of_false (not_agree_of_fails (.inl (fileLoop_of_last_empty hlf hnil hfit))) ?_
    exact fun h => h.nonempty hnil
  rw [fileLoop_of_last hlf hfit hnil]
  by_cases hmem : cr ∈ last
  · obtain ⟨a, b, rfl, ha⟩ := List.eq_append_cons_of_mem hmem
    have hlfb : lf ∉ b := fun h => hlf (List.mem_append_right _ (List.mem_cons_of_mem _ h))
    have hplain := isEol_eq_false_of_mem ha fun h => hlf (List.mem_append_left _ h)
    have hcr' : cr ∉ joined ++ a := fun h => (List.mem_append.mp h).elim hcr ha
    rw [List.length_append, List.length_cons] at hfit
    have hne : (joined ++ a).length ≠ bufSize := by rw [List.length_append]; omega
    rw [cachedLoop_of_ends hplain (.inr rfl) (by omega), if_pos hne, skipEol_cr hlfb,
      agree_last_line hzero hcr' (zero_notMem_cstr _)]
    constructor
    · rintro ⟨hlast, hsame, rfl⟩
      -- without a NUL, the CR would stand in the line of the open file
      have hzeroa : 0 ∈ a := by
        by_contra hnot
        have hend : CText.cstr [cr] = [cr] := rfl
        rw [cstr_append hnot, cstr_of_notMem hnot, hend] at hsame
        exact absurd (congrArg List.length hsame) (by simp)
      refine ⟨hnil, by rw [List.length_append, List.length_singleton]; omega, a, .inr ⟨rfl, hzeroa⟩, ha, ?_⟩
      rwa [List.getLast?_append_of_ne_nil _ (List.ne_nil_of_mem hzeroa)] at hlast
    · rintro ⟨-, -, a', heq, ha', hlast⟩
      obtain rfl | ⟨heq, hzeroa⟩ := heq
      · exact absurd hmem ha'
      · obtain ⟨rfl, -, rfl⟩ := (List.append_cons_inj_of_notMem ha' List.not_mem_nil).mp heq.symm
        refine ⟨?_, (cstr_append_of_mem hzeroa _).symm, rfl⟩
        rwa [List.getLast?_append_of_ne_nil _ (List.ne_nil_of_mem hzeroa)]
  · have hne : last ≠ [] := by
      rintro rfl
      exact hnil rfl
    have hplain := isEol_eq_false_of_mem hmem hlf
    have hcr' : cr ∉ joined ++ last := fun h => (List.mem_append.mp h).elim hcr hmem
    have hne' : (joined ++ last).length ≠ bufSize := by rw [List.length_append]; omega
    have hcached : cachedLoop bufSize size' joined (last ++ []) n = _ :=
      cachedLoop_of_ends hplain (.inl rfl) (by omega)
    rw [List.append_nil, if_pos hne'] at hcached
    rw [hcached, agree_last_line hzero hcr' (zero_notMem_cstr _), List.getLast?_append_of_ne_nil _ hne]
    constructor
    · rintro ⟨hlast, -, -⟩
      exact ⟨hnil, hfit, last, .inl rfl, hmem, hlast⟩
    · rintro ⟨-, -, a, heq, ha, hlast⟩
      obtain rfl | ⟨rfl, -⟩ := heq
      · exact ⟨hlast, rfl, rfl⟩
      · exact absurd (List.mem_append_right _ List.mem_cons_self) hmem

/-! ### The whole file -/

theorem splitOn_eq_singleton_nil_iff : r.splitOn lf = [[]] ↔ r = [] := by
  constructor
  · intro h
    have hjoin : [lf].intercalate (r.splitOn lf) = r := List.intercalate_splitOn lf
    rw [h] at hjoin
    exact hjoin.symm
  · rintro rfl
    rfl

/-- **The loops of both readers**, in the middle of a line. The induction is on what is left of the file,
from one newline to the next. -/
theorem agree_loops_iff {size' : ℕ} (hzero : 0 ∉ joined) (hcr : cr ∉ joined) :
    Agree bufSize (fileLoop bufSize joined rest n size) (cachedLoop bufSize size' joined rest n) ↔
      SameLines bufSize joined (rest.splitOn lf) := by
  induction hlen : rest.length using Nat.strong_induction_on generalizing joined rest n size size' with
  | _ len ih =>
    subst hlen
    by_cases hmem : lf ∈ rest
    · obtain ⟨p, r, rfl, hlf⟩ := List.eq_append_cons_of_mem hmem
      have hlt : r.length < (p ++ lf :: r).length := by
        rw [List.length_append, List.length_cons]
        omega
      rw [agree_line_step hlf hzero hcr, List.splitOn_append_cons_self_of_not_mem hlf]
      obtain ⟨q, ps, hsplit⟩ := List.exists_cons_of_ne_nil (List.splitOn_ne_nil lf r)
      rw [hsplit, SameLines, ← hsplit]
      refine and_congr_right fun hok => ?_
      by_cases hlast : p.getLast? = some backslash
      · rw [if_pos hlast, if_pos hlast]
        have hsub : ∀ c ∈ joined ++ p.dropLast, c ∈ joined ∨ c ∈ p := fun c hc =>
          (List.mem_append.mp hc).imp_right fun h => List.dropLast_subset _ h
        exact ih _ hlt (fun h => (hsub _ h).elim hzero hok.noZero) (fun h => (hsub _ h).elim hcr hok.noCr) rfl
      · rw [if_neg hlast, if_neg hlast, splitOn_eq_singleton_nil_iff]
        by_cases hr : r = []
        · subst hr
          exact iff_of_true (agree_fileGetLine_nil.mpr rfl) (.inl rfl)
        · rw [or_iff_right hr, cachedGetLine, if_neg hr]
          exact ih _ hlt List.not_mem_nil List.not_mem_nil rfl
    · rw [agree_last_iff hmem hzero hcr, List.splitOn_eq_singleton hmem, SameLines]

/-- **Both readers give the same for a file** just if it is empty or each of its physical lines is one on
which they do not part. -/
theorem sameReading_iff (bufSize : ℕ) (content : List UInt8) :
    SameReading bufSize content ↔ content = [] ∨ SameLines bufSize [] (content.splitOn lf) := by
  by_cases hnil : content = []
  · subst hnil
    exact iff_of_true (agree_fileGetLine_nil.mpr rfl) (.inl rfl)
  · rw [SameReading, opened, cachedGetLine, if_neg hnil, or_iff_right hnil]
    exact agree_loops_iff List.not_mem_nil List.not_mem_nil

/-- A line that ends in CR LF keeps the CR, in the buffer of `Input_NextLineCore`, just where the file is not
cached. -/
theorem not_sameReading : ¬SameReading 4097 [0x61, cr, lf] := by
  intro h
  have hne : [0x61, cr, lf] ≠ ([] : List UInt8) := List.cons_ne_nil _ _
  rw [SameReading, opened, cachedGetLine, if_neg hne] at h
  have hlf : lf ∉ [0x61, cr] := by decide
  have hok := ((agree_line_step (r := []) hlf List.not_mem_nil List.not_mem_nil).mp h).1
  exact hok.noCr (by decide)

end Asasm.FileStack
