import Gccsdk.Decaof.Decode

/-!
# The dump of an area

The loops of `print_area` that print the contents of an area, eight words in a row. Rows of words that repeat the word
before them are printed as dots.

* `Tells`: what a dump says about the words of an area; it says no more than one thing (`Tells.unique`).
* `Scan`: the words from left to right, with what of them is collapsed. The loops print `Scan.shown`
  (`printContents_eq`).
* `printContents_tells_iff`: the dump ends and tells the words if and only if the size is a multiple of 4 and the area
  does not end in a collapsed run that is no whole number of rows.
-/

namespace Decaof

open TokenReader

/-! ### The loops -/

inductive DumpItem
  /-- a new line with an address -/
  | address (address : Word)
  | value (value : Word)
  /-- a line of dots -/
  | dots
  deriving DecidableEq, Repr

def DumpItem.isValue : DumpItem → Bool
  | .value _ => true
  | _ => false

/-- The variables of the loops, and what has not been read of the file. -/
structure DumpVars where
  areaIdx : Word
  cols : Word
  repeatedValue : Word
  numRepeatedValue : Word
  rest : List UInt8

def DumpVars.next (s : DumpVars) : DumpVars :=
  let value := (readWord.run s.rest).1
  let repeatedValue := if s.numRepeatedValue = 0 then value else s.repeatedValue
  { areaIdx := s.areaIdx + 4
    cols := s.cols + 1
    repeatedValue
    numRepeatedValue := if repeatedValue = value then s.numRepeatedValue + 1 else 0
    rest := (readWord.run s.rest).2 }

/-- "Print full rows": what is printed. The loop also ends behind a row with enough repeated values. -/
def printFullRows (areahdr : AreaHdr) : ℕ → DumpVars → Option (List DumpItem × DumpVars)
  | 0, _ => none
  | fuel + 1, s =>
    if s.areaIdx = areahdr.size then some ([], s)
    else
      let line := if s.cols % 8 = 0 then [.address (areahdr.baseaddr + s.areaIdx)] else []
      let items := line ++ [.value (readWord.run s.rest).1]
      if s.next.cols % 8 = 0 ∧ 4 < s.next.numRepeatedValue then some (items, s.next)
      else (printFullRows areahdr fuel s.next).map fun (rows, s) => (items ++ rows, s)

/-- The loop over repeated values: their number, and the value that ends them. -/
def collapse (areahdr : AreaHdr) : ℕ → DumpVars → Word → Option (Word × Option Word × DumpVars)
  | 0, _, _ => none
  | fuel + 1, s, colsR =>
    if s.areaIdx = areahdr.size then some (colsR, none, s)
    else
      let value := (readWord.run s.rest).1
      let rest := (readWord.run s.rest).2
      if value ≠ s.repeatedValue then some (colsR, some value, { s with rest })
      else collapse areahdr fuel { s with areaIdx := s.areaIdx + 4, rest } (colsR + 1)

/-- What is printed for repeated values. If the area does not end with them, the last of them that are no whole row
stand in a row with the value that ends them. -/
def printCollapsed (areahdr : AreaHdr) (colsR : Word) (value : Option Word) (s : DumpVars) : List DumpItem × DumpVars :=
  let dots := if colsR / 8 ≠ 0 then [.dots] else []
  match value with
  | none => (dots, { s with cols := s.cols + colsR })
  | some value =>
    (dots ++ .address (areahdr.baseaddr + s.areaIdx - 4 * (colsR &&& 7)) ::
        (List.replicate (colsR &&& 7).toNat (.value s.repeatedValue) ++ [.value value]),
      { s with areaIdx := s.areaIdx + 4, cols := s.cols + colsR + 1 })

def printWords (areahdr : AreaHdr) : ℕ → DumpVars → Option (List DumpItem)
  | 0, _ => none
  | fuel + 1, s =>
    if s.areaIdx = areahdr.size then some []
    else do
      let (rows, s) ← printFullRows areahdr fuel s
      let (colsR, value, s) ← collapse areahdr fuel s 0
      let (collapsed, s) := printCollapsed areahdr colsR value s
      let items ← printWords areahdr fuel s
      pure (rows ++ collapsed ++ items)

/-- **The contents of an area, as `print_area` prints them.** `repeatedValue` has no value at first; it is set before it
is used. -/
def printContents (d : Decoder) (areahdr : AreaHdr) (offset uninit : Word) (fuel : ℕ) : Option (List DumpItem) :=
  if areahdr.flags &&& areaUData = 0 then
    printWords areahdr fuel {
      areaIdx := 0
      cols := 0
      repeatedValue := uninit
      numRepeatedValue := 0
      rest := d.file.drop (d.area_offset + offset).toNat }
  else some []

/-! ### What a dump tells -/

/-- The length of a run can be read from what is printed behind it: an address, or nothing if the area ends. -/
def Readable : List DumpItem → Prop
  | [] => True
  | .address _ :: _ => True
  | _ => False

/-- **What a dump tells** about the words from position `pos` on. Every word is printed at its own address
(where one is printed, it is that of the next word), or it is in a run of whole rows, printed as dots, and
is the word printed last. -/
inductive Tells (base : Word) : (pos : ℕ) → (last : Option Word) → (addressed : Bool) → List DumpItem → List Word → Prop
  | done {pos last addressed} : Tells base pos last addressed [] []
  | address {pos last addressed items words} : Tells base pos last true items words →
      Tells base pos last addressed (.address (base + BitVec.ofNat 32 (4 * pos)) :: items) words
  | value {pos last w items words} : Tells base (pos + 1) (some w) true items words →
      Tells base pos last true (.value w :: items) (w :: words)
  | dots {pos w rows addressed items words} : 0 < rows → Readable items →
      Tells base (pos + 8 * rows) (some w) false items words →
      Tells base pos (some w) addressed (.dots :: items) (List.replicate (8 * rows) w ++ words)

/-- **A dump tells one thing**: it determines the words of an area of known size. -/
theorem Tells.unique {base : Word} {pos : ℕ} {last : Option Word} {addressed : Bool} {items : List DumpItem}
    {words words' : List Word} (h : Tells base pos last addressed items words)
    (h' : Tells base pos last addressed items words') (hlen : words.length = words'.length)
    (hsize : pos + words.length ≤ 2 ^ 30) : words = words' := by
  induction h generalizing words' with
  | done =>
    cases h'
    rfl
  | address _ ih =>
    cases h' with
    | address h' => exact ih h' hlen hsize
  | value _ ih =>
    cases h' with
    | value h' =>
      simp only [List.length_cons, Nat.add_right_cancel_iff] at hlen hsize
      rw [ih h' hlen (by omega)]
  | @dots pos w rows addressed items words hrows hreadable h ih =>
    cases h' with
    | @dots _ _ rows' _ _ words' hrows' _ h' =>
      simp only [List.length_append, List.length_replicate] at hlen hsize
      -- the number of rows
      have hsame : rows = rows' := by
        cases items with
        | nil =>
          cases h
          cases h'
          simp only [List.length_nil] at hlen
          omega
        | cons item items =>
          cases item with
          | value w => exact hreadable.elim
          | dots => exact hreadable.elim
          | address a =>
            have haddress {n : ℕ} {ws : List Word} (h : Tells base n (some w) false (.address a :: items) ws) :
                a = base + BitVec.ofNat 32 (4 * n) := by
              cases h
              rfl
            have heq := (haddress h).symm.trans (haddress h')
            have heq := congrArg BitVec.toNat ((BitVec.add_right_inj base).mp heq)
            rw [BitVec.toNat_ofNat, BitVec.toNat_ofNat] at heq
            omega
      subst hsame
      rw [ih h' (by omega) (by omega)]

/-! ### Scanning the words -/

/-- **A scan** of the words of an area, from left to right. -/
structure Scan where
  /-- the number of words so far -/
  pos : ℕ
  /-- the value that is counted, and how often it has been seen in a row; the value that ends a count is not counted -/
  value : Word
  num : ℕ
  /-- the number of words since the last row that was printed, if they are collapsed -/
  collapsed : Option ℕ
  counted : collapsed.isSome → 4 < num

namespace Scan

def start : Scan where
  pos := 0
  value := 0
  num := 0
  collapsed := none
  counted h := nomatch h

/-- Whether words are collapsed from here on: a row is full, and its words have repeated themselves. -/
def starts (pos num : ℕ) : Option ℕ := if pos % 8 = 0 ∧ 4 < num then some 0 else none

theorem lt_of_starts {pos num : ℕ} (h : (starts pos num).isSome) : 4 < num := by
  unfold starts at h
  split at h
  · next hstarts => exact hstarts.2
  · cases h

theorem starts_getD (pos num : ℕ) : (starts pos num).getD 0 = 0 := by
  unfold starts
  split <;> rfl

def count (s : Scan) (w : Word) : Scan where
  pos := s.pos + 1
  value := if s.num = 0 then w else s.value
  num := if s.num = 0 then 1 else if s.value = w then s.num + 1 else 0
  collapsed := starts (s.pos + 1) (if s.num = 0 then 1 else if s.value = w then s.num + 1 else 0)
  counted := lt_of_starts

def skip (s : Scan) (k : ℕ) (h : 4 < s.num) : Scan := { s with pos := s.pos + 1, collapsed := some (k + 1), counted := fun _ => h }

def resume (s : Scan) : Scan := { s with pos := s.pos + 1, collapsed := none, counted := fun h => nomatch h }

def step (s : Scan) (w : Word) : Scan :=
  match h : s.collapsed with
  | none => s.count w
  | some k => if w = s.value then s.skip k (s.counted (by rw [h]; rfl)) else s.resume

variable {s : Scan}

theorem step_of_none (h : s.collapsed = none) (w : Word) : s.step w = s.count w := by
  unfold step
  split
  · rfl
  · next heq => cases h.symm.trans heq

variable {k : ℕ}

theorem lt_of_collapsed (h : s.collapsed = some k) : 4 < s.num := s.counted (by rw [h]; rfl)

variable {w : Word}

theorem step_of_eq (h : s.collapsed = some k) (hw : w = s.value) :
    s.step w = s.skip k (lt_of_collapsed h) := by
  unfold step
  split
  · next heq => cases h.symm.trans heq
  · next k' heq =>
    obtain rfl := Option.some.inj (h.symm.trans heq)
    exact if_pos hw

theorem step_of_ne (h : s.collapsed = some k) (hw : w ≠ s.value) :
    s.step w = s.resume := by
  unfold step
  split
  · next heq => cases h.symm.trans heq
  · exact if_neg hw

def partialRow (s : Scan) : ℕ := s.collapsed.getD 0 % 8

def dots (k : ℕ) : List DumpItem := if k / 8 ≠ 0 then [.dots] else []

def print (base : Word) (s : Scan) (w : Word) : List DumpItem :=
  match s.collapsed with
  | none => (if s.pos % 8 = 0 then [.address (base + BitVec.ofNat 32 (4 * s.pos))] else []) ++ [.value w]
  | some k =>
    if w = s.value then []
    else dots k ++ .address (base + BitVec.ofNat 32 (4 * (s.pos - k % 8))) ::
      (List.replicate (k % 8) (.value s.value) ++ [.value w])

theorem print_of_none (h : s.collapsed = none) (base w : Word) : s.print base w =
    (if s.pos % 8 = 0 then [.address (base + BitVec.ofNat 32 (4 * s.pos))] else []) ++ [.value w] := by
  unfold print
  rw [h]

theorem print_of_eq (h : s.collapsed = some k) (base : Word) (hw : w = s.value) :
    s.print base w = [] := by
  unfold print
  rw [h]
  exact if_pos hw

theorem print_of_ne (h : s.collapsed = some k) (base : Word) (hw : w ≠ s.value) :
    s.print base w = dots k ++ .address (base + BitVec.ofNat 32 (4 * (s.pos - k % 8))) ::
      (List.replicate (k % 8) (.value s.value) ++ [.value w]) := by
  unfold print
  rw [h]
  exact if_neg hw

def shown (base : Word) : Scan → List Word → List DumpItem
  | s, [] => s.collapsed.elim [] dots
  | s, w :: words => s.print base w ++ shown base (s.step w) words

/-! ### What is shown -/

variable {base : Word} {last : Option Word} {addressed : Bool}

private theorem tells_replicate {pos n : ℕ} {items : List DumpItem} {words : List Word}
    (h : Tells base (pos + n) (some w) true items words) :
    Tells base pos (some w) true (List.replicate n (.value w) ++ items) (List.replicate n w ++ words) := by
  induction n generalizing pos with
  | zero => exact h
  | succ n ih =>
    rw [List.replicate_succ, List.replicate_succ]
    exact .value (ih (by rwa [Nat.add_assoc, Nat.add_comm 1 n]))

private theorem tells_dots {pos k : ℕ} {items : List DumpItem} {words : List Word}
    (hreadable : Readable items) (h : ∀ addressed, Tells base (pos + 8 * (k / 8)) (some w) addressed items words) :
    Tells base pos (some w) addressed (dots k ++ items) (List.replicate (8 * (k / 8)) w ++ words) := by
  unfold dots
  by_cases hk : k / 8 = 0
  · rw [if_neg (not_not.mpr hk), hk]
    have := h addressed
    rwa [hk] at this
  · rw [if_pos hk]
    exact .dots (by omega) hreadable (h false)

/-- **What is shown tells the words**, those that are being collapsed included, if no part of a row is left over at
the end. -/
theorem tells_shown (words : List Word) (s : Scan) (hk : s.collapsed.getD 0 = k) (hle : k ≤ s.pos)
    (haddressed : s.collapsed = none → s.pos % 8 ≠ 0 → addressed = true)
    (hlast : s.collapsed.isSome → last = some s.value) (hend : (words.foldl step s).partialRow = 0) :
    Tells base (s.pos - k) last addressed (s.shown base words) (List.replicate k s.value ++ words) := by
  induction words generalizing s k last addressed with
  | nil =>
    cases hc : s.collapsed with
    | none =>
      rw [hc] at hk
      obtain rfl : 0 = k := hk
      unfold shown
      rw [hc]
      exact .done
    | some k' =>
      rw [hc] at hk hlast
      obtain rfl : k' = k := hk
      have hrows : k' % 8 = 0 := by
        unfold partialRow at hend
        rw [List.foldl_nil, hc] at hend
        exact hend
      have hk : 8 * (k' / 8) = k' := by omega
      have htells : Tells base (s.pos - k') (some s.value) addressed (dots k' ++ [])
          (List.replicate (8 * (k' / 8)) s.value ++ []) := tells_dots trivial fun _ => .done
      rw [hk, List.append_nil] at htells
      unfold shown
      rw [hc, hlast rfl]
      exact htells
  | cons w words ih =>
    rw [List.foldl_cons] at hend
    unfold shown
    cases hc : s.collapsed with
    | none =>
      rw [hc] at hk
      obtain rfl : 0 = k := hk
      rw [step_of_none hc] at hend ⊢
      -- the word is printed
      have hnext : Tells base (s.pos + 1) (some w) true ((s.count w).shown base words) words := by
        refine ih (s.count w) (starts_getD _ _) (Nat.zero_le _) (fun _ _ => rfl) ?_ hend
        intro hsome
        have hnum := (s.count w).counted hsome
        change some w = some (if s.num = 0 then w else s.value)
        change 4 < (if s.num = 0 then 1 else if s.value = w then s.num + 1 else 0) at hnum
        by_cases hzero : s.num = 0
        · rw [if_pos hzero] at hnum
          omega
        · rw [if_neg hzero] at hnum ⊢
          by_cases hvalue : s.value = w
          · rw [hvalue]
          · rw [if_neg hvalue] at hnum
            omega
      rw [print_of_none hc]
      by_cases hcol : s.pos % 8 = 0
      · rw [if_pos hcol]
        exact .address (.value hnext)
      · rw [if_neg hcol, haddressed hc hcol]
        exact .value hnext
    | some k' =>
      rw [hc] at hk hlast
      obtain rfl : k' = k := hk
      by_cases hw : w = s.value
      · -- the word is collapsed
        rw [step_of_eq hc hw] at hend ⊢
        rw [print_of_eq hc base hw, List.nil_append]
        have hnext : Tells base ((s.skip k' (lt_of_collapsed hc)).pos - (k' + 1)) last addressed _
            (List.replicate (k' + 1) s.value ++ words) :=
          ih (s.skip k' (lt_of_collapsed hc)) rfl (Nat.succ_le_succ hle) (fun h => nomatch h) (fun _ => hlast rfl) hend
        have hpos : (s.skip k' (lt_of_collapsed hc)).pos - (k' + 1) = s.pos - k' := Nat.add_sub_add_right _ _ _
        rw [hpos] at hnext
        change Tells base (s.pos - k') last addressed _ (List.replicate (k' + 1) s.value ++ words) at hnext
        rw [List.replicate_succ', List.append_assoc] at hnext
        rw [hw]
        exact hnext
      · -- the run ends: what is no whole row of it is printed with the word
        rw [step_of_ne hc hw] at hend ⊢
        rw [print_of_ne hc base hw, hlast rfl]
        have hnext : Tells base (s.pos + 1) (some w) true (s.resume.shown base words) words :=
          ih s.resume (k := 0) rfl (Nat.zero_le _) (fun _ _ => rfl) (fun h => nomatch h) hend
        have hsplit : List.replicate k' s.value =
            List.replicate (8 * (k' / 8)) s.value ++ List.replicate (k' % 8) s.value := by
          rw [List.replicate_append_replicate, Nat.div_add_mod]
        rw [hsplit]
        simp only [List.append_assoc, List.cons_append, List.nil_append]
        refine tells_dots trivial fun addressed => ?_
        have hpos : s.pos - k' + 8 * (k' / 8) = s.pos - k' % 8 := by omega
        rw [hpos]
        refine .address (tells_replicate (.value ?_))
        rwa [Nat.sub_add_cancel (by omega)]

/-! ### What is left out -/

private theorem countP_dots (k : ℕ) : (dots k).countP DumpItem.isValue = 0 := by
  unfold dots
  split <;> rfl

private theorem countP_replicate (n : ℕ) (w : Word) : (List.replicate n (.value w)).countP DumpItem.isValue = n := by
  rw [List.countP_replicate]
  exact if_pos rfl

theorem countP_shown (words : List Word) (s : Scan) (hle : s.collapsed.getD 0 ≤ s.pos) :
    ((s.shown base words).countP DumpItem.isValue + (words.foldl step s).partialRow) % 8 =
      (s.collapsed.getD 0 + words.length) % 8 := by
  induction words generalizing s with
  | nil =>
    unfold shown partialRow
    cases hc : s.collapsed with
    | none =>
      rw [List.foldl_nil, hc]
      rfl
    | some k =>
      change ((dots k).countP _ + _) % 8 = _
      rw [countP_dots, List.foldl_nil, hc]
      change (0 + k % 8) % 8 = (k + 0) % 8
      omega
  | cons w words ih =>
    rw [List.foldl_cons, List.length_cons]
    unfold shown
    rw [List.countP_append]
    cases hc : s.collapsed with
    | none =>
      have hzero : (s.count w).collapsed.getD 0 = 0 := starts_getD _ _
      have hnext := ih (s.count w) (by rw [hzero]; exact Nat.zero_le _)
      have hprint : (s.print base w).countP DumpItem.isValue = 1 := by
        rw [print_of_none hc, List.countP_append]
        split <;> rfl
      rw [hzero] at hnext
      rw [step_of_none hc, hprint]
      change _ = (0 + _) % 8
      omega
    | some k =>
      rw [hc] at hle
      by_cases hw : w = s.value
      · have hnext := ih (s.skip k (lt_of_collapsed hc)) (Nat.succ_le_succ hle)
        change _ = (k + 1 + _) % 8 at hnext
        rw [step_of_eq hc hw, print_of_eq hc base hw]
        change (0 + _ + _) % 8 = (k + _) % 8
        omega
      · have hnext := ih s.resume (Nat.zero_le _)
        change _ = (0 + _) % 8 at hnext
        have hprint : (s.print base w).countP DumpItem.isValue = k % 8 + 1 := by
          rw [print_of_ne hc base hw, List.countP_append, countP_dots, List.countP_cons_of_neg Bool.false_ne_true,
            List.countP_append, countP_replicate]
          change 0 + (k % 8 + 1) = _
          omega
        rw [step_of_ne hc hw, hprint]
        change _ = (k + _) % 8
        omega

end Scan

theorem Tells.length_mod {base : Word} {pos : ℕ} {last : Option Word} {addressed : Bool} {items : List DumpItem}
    {words : List Word} (h : Tells base pos last addressed items words) :
    words.length % 8 = items.countP DumpItem.isValue % 8 := by
  induction h with
  | done => rfl
  | address _ ih => exact ih
  | value _ ih =>
    rw [List.length_cons, List.countP_cons_of_pos rfl]
    omega
  | dots _ _ _ ih =>
    rw [List.length_append, List.length_replicate, List.countP_cons_of_neg Bool.false_ne_true]
    omega

namespace Scan

/-- **What is shown tells the words if and only if** they do not end in a part of a row that is collapsed. -/
theorem tells_shown_iff (base : Word) (words : List Word) :
    Tells base 0 none false (start.shown base words) words ↔ (words.foldl step start).partialRow = 0 := by
  constructor
  · intro h
    have hcount : ((start.shown base words).countP _ + _) % 8 = (0 + words.length) % 8 :=
      countP_shown words start (Nat.zero_le _)
    have hlen := h.length_mod
    have hlt : (words.foldl step start).partialRow < 8 := Nat.mod_lt _ (by decide)
    omega
  · intro hend
    exact tells_shown words start rfl (Nat.zero_le _) (fun _ h => absurd rfl h) (fun h => nomatch h) hend

end Scan

/-! ### The loops scan the words -/

def Yields : List UInt8 → List Word → Prop
  | _, [] => True
  | rest, w :: words => (readWord.run rest).1 = w ∧ Yields (readWord.run rest).2 words

theorem yields_times (rest : List UInt8) (n : ℕ) : Yields rest ((times readWord n).run rest).1 := by
  induction n generalizing rest with
  | zero => trivial
  | succ n ih => exact ⟨rfl, ih _⟩

theorem length_times (rest : List UInt8) (n : ℕ) : ((times readWord n).run rest).1.length = n := by
  induction n generalizing rest with
  | zero => rfl
  | succ n ih => exact congrArg Nat.succ (ih _)

/-- **The loops are where a scan is**, with the words that follow. -/
structure DumpVars.At (v : DumpVars) (areahdr : AreaHdr) (s : Scan) (words : List Word) : Prop where
  areaIdx : v.areaIdx.toNat = 4 * s.pos
  /-- words that are collapsed are counted as columns at the end of their run -/
  cols : v.cols.toNat + s.collapsed.getD 0 = s.pos
  num : v.numRepeatedValue.toNat = s.num
  num_le : s.num ≤ s.pos
  value : s.num ≠ 0 → v.repeatedValue = s.value
  rest : Yields v.rest words
  size : areahdr.size.toNat = 4 * (s.pos + words.length)

namespace DumpVars.At
variable {v : DumpVars} {areahdr : AreaHdr} {s : Scan} {words : List Word}

theorem areaIdx_eq_iff (h : v.At areahdr s words) : v.areaIdx = areahdr.size ↔ words = [] := by
  rw [← List.length_eq_zero_iff, ← BitVec.toNat_inj, h.areaIdx, h.size]
  omega

theorem count {w : Word} (h : v.At areahdr s (w :: words)) (hnone : s.collapsed = none) :
    v.next.At areahdr (s.count w) words := by
  obtain ⟨hareaIdx, hcols, hnum, hle, hvalue, ⟨hw, hrest⟩, hsize⟩ := h
  have hlt := areahdr.size.isLt
  rw [hnone] at hcols
  rw [List.length_cons] at hsize
  change v.cols.toNat + 0 = s.pos at hcols
  have hone : (v.numRepeatedValue + 1).toNat = v.numRepeatedValue.toNat + 1 := by
    rw [BitVec.toNat_add]
    change (_ + 1) % 2 ^ 32 = _
    omega
  have hzero : v.numRepeatedValue = 0 ↔ s.num = 0 := by
    rw [← BitVec.toNat_inj, hnum]
    rfl
  unfold DumpVars.next
  rw [hw]
  refine ⟨?_, ?_, ?_, ?_, ?_, hrest, ?_⟩
  · rw [BitVec.toNat_add, hareaIdx]
    change (4 * s.pos + 4) % 2 ^ 32 = 4 * (s.pos + 1)
    omega
  · have hcollapsed : (s.count w).collapsed.getD 0 = 0 := Scan.starts_getD _ _
    rw [hcollapsed, BitVec.toNat_add]
    change (v.cols.toNat + 1) % 2 ^ 32 + 0 = s.pos + 1
    omega
  · change (if _ then v.numRepeatedValue + 1 else 0).toNat = if s.num = 0 then 1 else if s.value = w then s.num + 1 else 0
    by_cases hn : s.num = 0
    · rw [if_pos (hzero.mpr hn), if_pos rfl, if_pos hn, hone, hnum, hn]
    · rw [if_neg (mt hzero.mp hn), if_neg hn, hvalue hn]
      split
      · rw [hone, hnum]
      · rfl
  · change (if s.num = 0 then 1 else if s.value = w then s.num + 1 else 0) ≤ s.pos + 1
    split
    · omega
    · split <;> omega
  · intro _
    change (if v.numRepeatedValue = 0 then w else v.repeatedValue) = if s.num = 0 then w else s.value
    by_cases hn : s.num = 0
    · rw [if_pos (hzero.mpr hn), if_pos hn]
    · rw [if_neg (mt hzero.mp hn), if_neg hn, hvalue hn]
  · rw [hsize]
    change _ = 4 * (s.pos + 1 + words.length)
    omega

theorem starts_iff {w : Word} (h : v.next.At areahdr (s.count w) words) :
    (s.count w).collapsed = if v.next.cols % 8 = 0 ∧ 4 < v.next.numRepeatedValue then some 0 else none := by
  have hcols := h.cols
  have hnum := h.num
  have hzero : (s.count w).collapsed.getD 0 = 0 := Scan.starts_getD _ _
  rw [hzero] at hcols
  change v.next.cols.toNat + 0 = s.pos + 1 at hcols
  have hcol : v.next.cols % 8 = 0 ↔ (s.pos + 1) % 8 = 0 := by
    rw [← hcols, ← BitVec.toNat_inj, BitVec.toNat_umod]
    rfl
  have hlt : 4 < v.next.numRepeatedValue ↔ 4 < (s.count w).num := by
    rw [← hnum, BitVec.lt_def]
    rfl
  simp only [hcol, hlt]
  rfl

theorem address (h : v.At areahdr s words) : v.areaIdx = BitVec.ofNat 32 (4 * s.pos) := by
  apply BitVec.eq_of_toNat_eq
  rw [h.areaIdx, BitVec.toNat_ofNat, Nat.mod_eq_of_lt]
  have hlt := v.areaIdx.isLt
  rwa [h.areaIdx] at hlt

theorem cols_mod (h : v.At areahdr s words) (hnone : s.collapsed = none) : v.cols % 8 = 0 ↔ s.pos % 8 = 0 := by
  have hcols := h.cols
  rw [hnone] at hcols
  change v.cols.toNat + 0 = s.pos at hcols
  rw [← hcols, ← BitVec.toNat_inj, BitVec.toNat_umod]
  rfl

end DumpVars.At

variable {areahdr : AreaHdr} {words : List Word} {v : DumpVars} {fuel : ℕ}

/-- **"Print full rows"**: the loop scans words as long as they are not collapsed, one at least if there is one. -/
theorem printFullRows_eq {s : Scan}
    (hat : v.At areahdr s words) (hnone : s.collapsed = none) (hfuel : words.length < fuel) :
    ∃ front back items v', words = front ++ back ∧ printFullRows areahdr fuel v = some (items, v') ∧
      v'.At areahdr (front.foldl Scan.step s) back ∧ (words ≠ [] → front ≠ []) ∧
      ((front.foldl Scan.step s).collapsed = none ∧ back = [] ∨ (front.foldl Scan.step s).collapsed = some 0) ∧
      s.shown areahdr.baseaddr words = items ++ (front.foldl Scan.step s).shown areahdr.baseaddr back := by
  induction fuel generalizing v s words with
  | zero => exact absurd hfuel (Nat.not_lt_zero _)
  | succ fuel ih =>
    unfold printFullRows
    cases words with
    | nil =>
      rw [if_pos (hat.areaIdx_eq_iff.mpr rfl)]
      exact ⟨[], [], [], v, rfl, rfl, hat, fun h => absurd rfl h, .inl ⟨hnone, rfl⟩, rfl⟩
    | cons w words =>
      rw [if_neg (mt hat.areaIdx_eq_iff.mp (List.cons_ne_nil _ _))]
      have hnext := hat.count hnone
      have hw : (readWord.run v.rest).1 = w := hat.rest.1
      have hprint : s.print areahdr.baseaddr w = (if v.cols % 8 = 0 then [.address (areahdr.baseaddr + v.areaIdx)]
          else []) ++ [.value (readWord.run v.rest).1] := by
        rw [Scan.print_of_none hnone, hw, hat.address]
        simp only [hat.cols_mod hnone]
      have hstep := Scan.step_of_none hnone w
      have hstarts := hnext.starts_iff
      dsimp only
      rw [← hprint]
      by_cases hbreak : v.next.cols % 8 = 0 ∧ 4 < v.next.numRepeatedValue
      · rw [if_pos hbreak] at hstarts ⊢
        refine ⟨[w], words, _, _, rfl, rfl, ?_, fun _ => List.cons_ne_nil _ _, ?_, ?_⟩
        · rw [List.foldl_cons, hstep]
          exact hnext
        · rw [List.foldl_cons, hstep]
          exact .inr hstarts
        · rw [List.foldl_cons, hstep]
          rw [Scan.shown, hstep]
          rfl
      · rw [if_neg hbreak] at hstarts ⊢
        rw [List.length_cons] at hfuel
        obtain ⟨front, back, items, v', rfl, hrun, hat', -, hend, hshown⟩ :=
          ih hnext hstarts (Nat.lt_of_succ_lt_succ hfuel)
        rw [← hstep] at hat' hend hshown
        refine ⟨w :: front, back, _, v', rfl, by rw [hrun]; rfl, hat', fun _ => List.cons_ne_nil _ _, hend, ?_⟩
        rw [Scan.shown, hshown, List.append_assoc]
        rfl

private theorem dots_eq {colsR : Word} {k : ℕ} (hk : colsR.toNat = k) :
    (if colsR / 8 ≠ 0 then [.dots] else []) = Scan.dots k := by
  have hzero : colsR / 8 = 0 ↔ k / 8 = 0 := by
    rw [← BitVec.toNat_inj, BitVec.toNat_udiv, hk]
    rfl
  unfold Scan.dots
  simp only [ne_eq, hzero]

private theorem DumpVars.At.skip {s : Scan} {k : ℕ} {w : Word}
    (h : v.At areahdr s (w :: words)) (hk : s.collapsed = some k) :
    DumpVars.At { v with areaIdx := v.areaIdx + 4, rest := (readWord.run v.rest).2 } areahdr
      (s.skip k (Scan.lt_of_collapsed hk)) words := by
  obtain ⟨hareaIdx, hcols, hnum, hle, hvalue, ⟨hw, hrest⟩, hsize⟩ := h
  have hlt := areahdr.size.isLt
  rw [hk] at hcols
  rw [List.length_cons] at hsize
  change v.cols.toNat + k = s.pos at hcols
  refine ⟨?_, ?_, hnum, Nat.le_succ_of_le hle, hvalue, hrest, ?_⟩
  · rw [BitVec.toNat_add, hareaIdx]
    change (4 * s.pos + 4) % 2 ^ 32 = 4 * (s.pos + 1)
    omega
  · change v.cols.toNat + (k + 1) = s.pos + 1
    omega
  · rw [hsize]
    change _ = 4 * (s.pos + 1 + words.length)
    omega

private theorem printCollapsed_at {s : Scan} {k : ℕ} {w colsR : Word}
    (h : v.At areahdr s (w :: words)) (hk : s.collapsed = some k) (hcolsR : colsR.toNat = k)
    (hw : w ≠ s.value) : (printCollapsed areahdr colsR (some w) { v with rest :=(readWord.run v.rest).2 }).1 =
        s.print areahdr.baseaddr w ∧
      (printCollapsed areahdr colsR (some w) { v with rest := (readWord.run v.rest).2 }).2.At areahdr s.resume words := by
  have haddress := h.address
  obtain ⟨hareaIdx, hcols, hnum, hle, hvalue, ⟨hword, hrest⟩, hsize⟩ := h
  have hlt := areahdr.size.isLt
  rw [hk] at hcols
  rw [List.length_cons] at hsize
  change v.cols.toNat + k = s.pos at hcols
  have hsame := hvalue (by have := Scan.lt_of_collapsed hk; omega)
  have hmod : (colsR &&& 7).toNat = k % 8 := by
    rw [BitVec.toNat_and, hcolsR]
    exact Nat.and_two_pow_sub_one_eq_mod k 3
  refine ⟨?_, ?_, ?_, hnum, Nat.le_succ_of_le hle, hvalue, hrest, ?_⟩
  · have hrow : areahdr.baseaddr + v.areaIdx - 4 * (colsR &&& 7) =
        areahdr.baseaddr + BitVec.ofNat 32 (4 * (s.pos - k % 8)) := by
      have hback : v.areaIdx = BitVec.ofNat 32 (4 * (s.pos - k % 8)) + 4 * (colsR &&& 7) := by
        apply BitVec.eq_of_toNat_eq
        rw [BitVec.toNat_add, BitVec.toNat_mul, hmod, BitVec.toNat_ofNat, hareaIdx]
        change 4 * s.pos = (4 * (s.pos - k % 8) % 2 ^ 32 + 4 * (k % 8) % 2 ^ 32) % 2 ^ 32
        omega
      rw [hback, ← BitVec.add_assoc, BitVec.add_sub_cancel]
    unfold printCollapsed
    dsimp only
    rw [dots_eq hcolsR, hrow, hmod, hsame, Scan.print_of_ne hk _ hw]
  · change (v.areaIdx + 4).toNat = 4 * (s.pos + 1)
    rw [BitVec.toNat_add, hareaIdx]
    change (4 * s.pos + 4) % 2 ^ 32 = _
    omega
  · change (v.cols + colsR + 1).toNat + 0 = s.pos + 1
    rw [BitVec.toNat_add, BitVec.toNat_add, hcolsR]
    change ((v.cols.toNat + k) % 2 ^ 32 + 1) % 2 ^ 32 + 0 = s.pos + 1
    omega
  · rw [hsize]
    change _ = 4 * (s.pos + 1 + words.length)
    omega

/-- **The loop over repeated values**: the scan collapses words, up to the end of the area or to a word that is printed
again. -/
theorem collapse_eq {s : Scan} {k : ℕ} {colsR : Word}
    (hat : v.At areahdr s words) (hk : s.collapsed = some k) (hcolsR : colsR.toNat = k)
    (hfuel : words.length < fuel) :
    ∃ colsR' value v', collapse areahdr fuel v colsR = some (colsR', value, v') ∧
      ((printCollapsed areahdr colsR' value v').2.areaIdx = areahdr.size ∧
          s.shown areahdr.baseaddr words = (printCollapsed areahdr colsR' value v').1 ∨
        ∃ front back, words = front ++ back ∧ front ≠ [] ∧
          (printCollapsed areahdr colsR' value v').2.At areahdr (front.foldl Scan.step s) back ∧
          (front.foldl Scan.step s).collapsed = none ∧
          s.shown areahdr.baseaddr words = (printCollapsed areahdr colsR' value v').1 ++
            (front.foldl Scan.step s).shown areahdr.baseaddr back) := by
  induction fuel generalizing v s words k colsR with
  | zero => exact absurd hfuel (Nat.not_lt_zero _)
  | succ fuel ih =>
    unfold collapse
    cases words with
    | nil =>
      have hsize := hat.areaIdx_eq_iff.mpr rfl
      rw [if_pos hsize]
      refine ⟨_, _, _, rfl, .inl ⟨hsize, ?_⟩⟩
      unfold Scan.shown printCollapsed
      rw [hk, dots_eq hcolsR]
      rfl
    | cons w words =>
      rw [if_neg (mt hat.areaIdx_eq_iff.mp (List.cons_ne_nil _ _))]
      have hword : (readWord.run v.rest).1 = w := hat.rest.1
      have hsame := hat.value (by have := Scan.lt_of_collapsed hk; omega)
      dsimp only
      rw [hword]
      by_cases hw : w = s.value
      · rw [if_neg (not_not.mpr (hw.trans hsame.symm))]
        have hstep := Scan.step_of_eq hk hw
        have hcount : (colsR + 1).toNat = k + 1 := by
          have hlt := areahdr.size.isLt
          have hsize := hat.size
          have hcols := hat.cols
          rw [hk] at hcols
          change v.cols.toNat + k = s.pos at hcols
          rw [BitVec.toNat_add, hcolsR]
          change (k + 1) % 2 ^ 32 = _
          omega
        rw [List.length_cons] at hfuel
        obtain ⟨colsR', value, v', hrun, hcases⟩ :=
          ih (hat.skip hk) (k := k + 1) rfl hcount (Nat.lt_of_succ_lt_succ hfuel)
        refine ⟨colsR', value, v', hrun, ?_⟩
        rw [← hstep] at hcases
        have hshown : s.shown areahdr.baseaddr (w :: words) = (s.step w).shown areahdr.baseaddr words := by
          rw [Scan.shown, Scan.print_of_eq hk _ hw]
          rfl
        rw [hshown]
        rcases hcases with hend | ⟨front, back, rfl, -, hat', hnone, hshown'⟩
        · exact .inl hend
        · exact .inr ⟨w :: front, back, rfl, List.cons_ne_nil _ _, hat', hnone, hshown'⟩
      · rw [if_pos fun h => hw (h.trans hsame)]
        have hstep := Scan.step_of_ne hk hw
        obtain ⟨hprint, hat'⟩ := printCollapsed_at hat hk hcolsR hw
        refine ⟨_, _, _, rfl, .inr ⟨[w], words, rfl, List.cons_ne_nil _ _, ?_, ?_, ?_⟩⟩
        · rw [List.foldl_cons, hstep]
          exact hat'
        · rw [List.foldl_cons, hstep]
          rfl
        · rw [hprint, List.foldl_cons, Scan.shown]
          rfl

theorem printWords_eq {s : Scan}
    (hat : v.At areahdr s words) (hnone : s.collapsed = none) (hfuel : words.length + 2 ≤ fuel) :
    printWords areahdr fuel v = some (s.shown areahdr.baseaddr words) := by
  induction fuel generalizing v s words with
  | zero => omega
  | succ fuel ih =>
    unfold printWords
    by_cases hwords : words = []
    · rw [if_pos (hat.areaIdx_eq_iff.mpr hwords), hwords]
      unfold Scan.shown
      rw [hnone]
      rfl
    · rw [if_neg (mt hat.areaIdx_eq_iff.mp hwords)]
      have hlen : words.length < fuel := by omega
      obtain ⟨front, back, rows, v₁, rfl, hrows, hat₁, hfront, hend, hshown₁⟩ := printFullRows_eq hat hnone hlen
      have hfront := List.length_pos_of_ne_nil (hfront hwords)
      rw [List.length_append] at hfuel
      rw [hrows, hshown₁]
      rcases hend with ⟨hnone₁, rfl⟩ | hsome₁
      · -- all words have been printed
        have hsize := hat₁.areaIdx_eq_iff.mpr rfl
        have hcollapse : collapse areahdr fuel v₁ 0 = some (0, none, v₁) := by
          obtain ⟨fuel, rfl⟩ := Nat.exists_eq_succ_of_ne_zero (show fuel ≠ 0 by omega)
          unfold collapse
          rw [if_pos hsize]
        have hrest : printWords areahdr fuel { v₁ with cols := v₁.cols + 0 } = some [] := by
          obtain ⟨fuel, rfl⟩ := Nat.exists_eq_succ_of_ne_zero (show fuel ≠ 0 by omega)
          unfold printWords
          rw [if_pos hsize]
        change (collapse areahdr fuel v₁ 0).bind _ = _
        rw [hcollapse]
        change (printWords areahdr fuel { v₁ with cols := v₁.cols + 0 }).bind _ = _
        rw [hrest, Scan.shown, hnone₁]
        change some (rows ++ [] ++ []) = some (rows ++ [])
        rw [List.append_nil]
      · obtain ⟨colsR, value, v₂, hcollapse, hcases⟩ := 
          collapse_eq hat₁ hsome₁ (rfl : (0 : Word).toNat = 0) (show back.length < fuel by omega)
        change (collapse areahdr fuel v₁ 0).bind _ = _
        rw [hcollapse]
        change (printWords areahdr fuel (printCollapsed areahdr colsR value v₂).2).bind _ = _
        rcases hcases with ⟨hsize, hshown₂⟩ | ⟨front₂, back₂, rfl, hfront₂, hat₂, hnone₂, hshown₂⟩
        · have hrest : printWords areahdr fuel (printCollapsed areahdr colsR value v₂).2 = some [] := by
            obtain ⟨fuel, rfl⟩ := Nat.exists_eq_succ_of_ne_zero (show fuel ≠ 0 by omega)
            unfold printWords
            rw [if_pos hsize]
          rw [hrest, hshown₂]
          change some (rows ++ (printCollapsed areahdr colsR value v₂).1 ++ []) = some _
          rw [List.append_nil]
        · rw [List.length_append] at hfuel
          rw [ih hat₂ hnone₂ (by omega), hshown₂]
          exact congrArg some (List.append_assoc _ _ _)

/-! ### Sizes that are never reached -/

private theorem add_four_mod {a : Word} (h : a.toNat % 4 = 0) : (a + 4).toNat % 4 = 0 := by
  rw [BitVec.toNat_add]
  change (a.toNat + 4) % 2 ^ 32 % 4 = 0
  omega

private theorem printFullRows_mod {v v' : DumpVars} {items : List DumpItem}
    (h : printFullRows areahdr fuel v = some (items, v')) (hv : v.areaIdx.toNat % 4 = 0) :
    v'.areaIdx.toNat % 4 = 0 := by
  induction fuel generalizing v items with
  | zero => cases h
  | succ fuel ih =>
    unfold printFullRows at h
    by_cases hsize : v.areaIdx = areahdr.size
    · rw [if_pos hsize] at h
      cases h
      exact hv
    · rw [if_neg hsize] at h
      dsimp only at h
      by_cases hbreak : v.next.cols % 8 = 0 ∧ 4 < v.next.numRepeatedValue
      · rw [if_pos hbreak] at h
        cases h
        exact add_four_mod hv
      · rw [if_neg hbreak] at h
        obtain ⟨⟨rows, v₁⟩, hrun, heq⟩ := Option.map_eq_some_iff.mp h
        cases heq
        exact ih hrun (add_four_mod hv)

private theorem collapse_mod {v v' : DumpVars} {colsR colsR' : Word}
    {value : Option Word} (h : collapse areahdr fuel v colsR = some (colsR', value, v'))
    (hv : v.areaIdx.toNat % 4 = 0) : v'.areaIdx.toNat % 4 = 0 := by
  induction fuel generalizing v colsR with
  | zero => cases h
  | succ fuel ih =>
    unfold collapse at h
    by_cases hsize : v.areaIdx = areahdr.size
    · rw [if_pos hsize] at h
      cases h
      exact hv
    · rw [if_neg hsize] at h
      dsimp only at h
      by_cases hvalue : (readWord.run v.rest).1 ≠ v.repeatedValue
      · rw [if_pos hvalue] at h
        cases h
        exact hv
      · rw [if_neg hvalue] at h
        exact ih h (add_four_mod hv)

theorem printWords_eq_none (hsize : areahdr.size.toNat % 4 ≠ 0)
    (hv : v.areaIdx.toNat % 4 = 0) : printWords areahdr fuel v = none := by
  induction fuel generalizing v with
  | zero => rfl
  | succ fuel ih =>
    have hne : v.areaIdx ≠ areahdr.size := fun heq => hsize (heq ▸ hv)
    unfold printWords
    rw [if_neg hne]
    cases hrows : printFullRows areahdr fuel v with
    | none => rfl
    | some rows =>
      obtain ⟨rows, v₁⟩ := rows
      have hv₁ := printFullRows_mod hrows hv
      change (collapse areahdr fuel v₁ 0).bind _ = _
      cases hcollapse : collapse areahdr fuel v₁ 0 with
      | none => rfl
      | some collapsed =>
        obtain ⟨colsR, value, v₂⟩ := collapsed
        have hv₂ := collapse_mod hcollapse hv₁
        have hv₃ : (printCollapsed areahdr colsR value v₂).2.areaIdx.toNat % 4 = 0 := by
          cases value with
          | none => exact hv₂
          | some w => exact add_four_mod hv₂
        change (printWords areahdr fuel (printCollapsed areahdr colsR value v₂).2).bind _ = _
        rw [ih hv₃]
        rfl

/-! ### The dump of an area -/

def areaWords (d : Decoder) (areahdr : AreaHdr) (offset : Word) : List Word :=
  readAt (times readWord (areahdr.size.toNat / 4)) d.file (d.area_offset + offset).toNat

/-- **The dump ends, and determines the contents of the area**: with enough fuel something is printed, and it tells the
words of the area, and no others. -/
def DumpTells (d : Decoder) (areahdr : AreaHdr) (offset uninit : Word) : Prop :=
  ∃ n items words, (∀ fuel, n ≤ fuel → printContents d areahdr offset uninit fuel = some items) ∧
    readContents d areahdr offset = some words ∧ Tells areahdr.baseaddr 0 none false items words ∧
    ∀ words', words'.length = words.length → Tells areahdr.baseaddr 0 none false items words' → words' = words

variable {d : Decoder} {areahdr : AreaHdr} {offset uninit : Word}

theorem dumpTells_of_udata (hflags : areahdr.flags &&& areaUData ≠ 0) : DumpTells d areahdr offset uninit := by
  refine ⟨0, [], [], fun _ _ => if_neg hflags, if_neg hflags, .done, ?_⟩
  intro words' hlen _
  exact List.length_eq_zero_iff.mp hlen

theorem not_dumpTells_of_size (hflags : areahdr.flags &&& areaUData = 0) (hsize : areahdr.size.toNat % 4 ≠ 0) :
    ¬DumpTells d areahdr offset uninit := by
  rintro ⟨n, items, -, hrun, -⟩
  have hrun := hrun n (Nat.le_refl n)
  unfold printContents at hrun
  rw [if_pos hflags, printWords_eq_none hsize rfl] at hrun
  cases hrun

theorem dumpTells_iff_of_size (hflags : areahdr.flags &&& areaUData = 0) (hsize : areahdr.size.toNat % 4 = 0) :
    DumpTells d areahdr offset uninit ↔ ((areaWords d areahdr offset).foldl Scan.step Scan.start).partialRow = 0 := by
  have hlen : (areaWords d areahdr offset).length = areahdr.size.toNat / 4 := length_times _ _
  have hlt := areahdr.size.isLt
  have hcontents : readContents d areahdr offset = some (areaWords d areahdr offset) := by
    unfold readContents
    rw [if_pos hflags, if_pos hsize]
    rfl
  have hat : DumpVars.At ⟨0, 0, uninit, 0, d.file.drop (d.area_offset + offset).toNat⟩ areahdr Scan.start
      (areaWords d areahdr offset) := by
    refine ⟨rfl, rfl, rfl, Nat.le_refl 0, fun h => absurd rfl h, yields_times _ _, ?_⟩
    rw [hlen]
    change _ = 4 * (0 + areahdr.size.toNat / 4)
    omega
  have hrun (fuel : ℕ) (hfuel : (areaWords d areahdr offset).length + 2 ≤ fuel) :
      printContents d areahdr offset uninit fuel =
        some (Scan.start.shown areahdr.baseaddr (areaWords d areahdr offset)) := by
    unfold printContents
    rw [if_pos hflags]
    exact printWords_eq hat rfl hfuel
  rw [← Scan.tells_shown_iff areahdr.baseaddr]
  constructor
  · rintro ⟨n, items, words, hitems, hwords, htells, -⟩
    obtain rfl := Option.some.inj (hcontents.symm.trans hwords)
    -- what is printed with enough fuel for both
    have hsame := (hitems _ (Nat.le_max_left n _)).symm.trans (hrun _ (Nat.le_max_right n _))
    rwa [Option.some.inj hsame] at htells
  · intro htells
    refine ⟨_, _, _, hrun, hcontents, htells, fun words' hlen' htells' => ?_⟩
    exact htells'.unique htells hlen' (by omega)

/-- **The dump of an area** ends and determines its contents if and only if there is nothing to dump, or the size is a
multiple of 4 and the area does not end in a part of a row that is collapsed. -/
theorem printContents_tells_iff (d : Decoder) (areahdr : AreaHdr) (offset uninit : Word) :
    DumpTells d areahdr offset uninit ↔ (areahdr.flags &&& areaUData = 0 → areahdr.size.toNat % 4 = 0 ∧
      ((areaWords d areahdr offset).foldl Scan.step Scan.start).partialRow = 0) := by
  by_cases hflags : areahdr.flags &&& areaUData = 0
  · by_cases hsize : areahdr.size.toNat % 4 = 0
    · rw [dumpTells_iff_of_size hflags hsize]
      exact ⟨fun h _ => ⟨hsize, h⟩, fun h => (h hflags).2⟩
    · exact ⟨fun h => absurd h (not_dumpTells_of_size hflags hsize), fun h => absurd (h hflags).1 hsize⟩
  · exact ⟨fun _ h => absurd h hflags, fun _ => dumpTells_of_udata hflags⟩

def zerosDecoder : Decoder where
  file := List.replicate 64 0
  aofhdr := ⟨0, 310, 1, 0, 0, 0⟩
  areahdrs := []
  symboltab := none
  symboltab_size := 0
  stringtab := none
  area_offset := 0

theorem zeros_not_dumpTells :
    ¬DumpTells zerosDecoder ⟨0, 2, 36, 0, 0⟩ 0 0 ∧ ¬DumpTells zerosDecoder ⟨0, 2, 2, 0, 0⟩ 0 0 := by
  refine ⟨?_, not_dumpTells_of_size rfl (by decide)⟩
  rw [dumpTells_iff_of_size rfl (by decide)]
  decide

end Decaof
