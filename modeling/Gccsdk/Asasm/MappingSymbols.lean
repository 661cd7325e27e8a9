import Gccsdk.Asasm.Put
import Gccsdk.Asasm.Symbol
import Mathlib.Data.List.Nodup
import Mathlib.Logic.Function.Basic

/-!
# Mapping symbols

`Area_MarkStartAs` of `area.c` and its callers: `Decode`, behind a mnemonic, and `Lit_DumpPool`. A mapping
symbol is defined where the kind of what is marked is not the last one that was marked in the area, in both
passes; the second pass starts with the kind that the first one ended with.

In the first pass the last mapping symbol is in front of the bytes of its kind (`MarksOk`), where each line
that marks another kind writes something and a line that does not mark writes nothing of another kind. The
second pass then finds its mapping symbols defined (`Follows`), so that they are right in the end
(`assemble_mapped`).
-/

namespace Asasm

/-! ### Marking -/

structure AreaMap where
  entryType : AreaEntryType := .invalid
  /-- The mapping symbols of the area, the latest first: their names have the offset and the type. -/
  marks : List (ℕ × AreaEntryType) := []
  /-- What the bytes up to `curIdx` are. Padding is of no kind. -/
  kinds : List (Option AreaEntryType) := []

namespace AreaMap

/-- `Area::curIdx`. -/
def curIdx (a : AreaMap) : ℕ := a.kinds.length

/-- `ASM_DefineLabel` for a mapping symbol. The first pass may have defined it. -/
def defineLabel (a : AreaMap) (offset : ℕ) (type : AreaEntryType) : AreaMap :=
  if (offset, type) ∈ a.marks then a else { a with marks := (offset, type) :: a.marks }

/-- **`Area_MarkStartAs`.** -/
def markStartAs (implicit : Bool) (a : AreaMap) (offset : ℕ) (type : AreaEntryType) : AreaMap :=
  if implicit then a
  else if a.entryType ≠ type then { a with entryType := type }.defineLabel offset type
  else a

/-- Bytes are written at `curIdx`. -/
def write (a : AreaMap) (bytes : List (Option AreaEntryType)) :
    AreaMap := { a with kinds := a.kinds ++ bytes }

def padding (a : AreaMap) (align : ℕ) : List (Option AreaEntryType) :=
  List.replicate (alignUp a.curIdx align - a.curIdx) none

end AreaMap

/-! ### The callers -/

structure MapLine where
  /-- `IsARMOrThumbInstr` of its entry in `oDecodeTable`. -/
  instr : Bool
  /-- `updateMap` of the entry. -/
  updateMap : Bool
  /-- `State_GetInstrType`. -/
  instrType : InstrType
  align : ℕ
  /-- How many bytes are written behind the alignment, from an offset on. -/
  size : ℕ → ℕ
  fill : AreaEntryType
  fill_ne : fill ≠ .invalid

def InstrType.alignValue : InstrType → ℕ
  | .arm => 4
  | _ => 2

/-- The `entryType` of a line. -/
def MapLine.entryType (l : MapLine) : AreaEntryType :=
  if l.instr then
    match l.instrType with
    | .arm => .arm
    | .thumb => .thumb
    | .thumbEE => .thumbEE
  else .data

/-- What a line writes: an instruction or data of its own type, where it is marked. -/
def MapLine.kind (l : MapLine) : AreaEntryType := if l.updateMap then l.entryType else l.fill

def MapLine.bytes (l : MapLine) (a : AreaMap) : List (Option AreaEntryType) :=
  if l.size a.curIdx = 0 then []
  else a.padding (if l.instr then l.instrType.alignValue else l.align) ++
    List.replicate (l.size a.curIdx) (some l.kind)

/-- **`Decode`**, for the mapping symbol: the mnemonic comes first. -/
def MapLine.decode (implicit : Bool) (l : MapLine) (a : AreaMap) : AreaMap :=
  let startOffset := if l.instr then alignUp a.curIdx l.instrType.alignValue else a.curIdx
  let a := a.write (l.bytes a)
  if l.updateMap then a.markStartAs implicit startOffset l.entryType else a

/-- `Lit_eSize`. -/
inductive LitSize
  | intUByte
  | intSByte
  | intUHalfWord
  | intSHalfWord
  | intWord
  | float
  | double
  deriving DecidableEq, Repr

/-- `Lit_GetSizeInBytes`. -/
def LitSize.inBytes : LitSize → ℕ
  | .intUByte | .intSByte => 1
  | .intUHalfWord | .intSHalfWord => 2
  | .intWord | .float => 4
  | .double => 8

def LitSize.align : LitSize → ℕ
  | .intUByte | .intSByte => 1
  | .intUHalfWord | .intSHalfWord => 2
  | .intWord | .float | .double => 4

def dumpLiteral (implicit : Bool) (a : AreaMap) (size : LitSize) : AreaMap :=
  let a := a.markStartAs implicit a.curIdx .data
  a.write (a.padding size.align ++ List.replicate size.inBytes (some .data))

/-- **`Lit_DumpPool`**, for the literals that are written. -/
def dumpPool (implicit : Bool) (lits : List LitSize) (a : AreaMap) : AreaMap :=
  let a := lits.foldl (dumpLiteral implicit) a
  a.write (a.padding 4)

/-! ### The passes -/

/-- The current area, and all areas. The implicit one has no number. -/
structure MapState where
  cur : Option ℕ
  areas : Option ℕ → AreaMap

/-- What is read: `AREA`, another line, or `LTORG`. -/
inductive MapEvent
  | area (id : ℕ)
  | line (l : MapLine)
  | ltorg (lits : List LitSize)

def MapState.change (s : MapState) (f : Bool → AreaMap → AreaMap) : MapState :=
  { s with areas := Function.update s.areas s.cur (f s.cur.isNone (s.areas s.cur)) }

def MapState.step (s : MapState) : MapEvent → MapState
  | .area id => { s with cur := some id }
  | .line l => s.change fun implicit a => l.decode implicit a
  | .ltorg lits => s.change fun implicit a => dumpPool implicit lits a

/-- A source text, with the area before the first `AREA` and what the pools have in the end. -/
structure MapProgram where
  first : Option ℕ
  events : List MapEvent
  rest : Option ℕ → List LitSize

namespace MapProgram

variable (p : MapProgram)

def startPass (s : MapState) : MapState := ⟨p.first, fun r => { s.areas r with kinds := [] }⟩

def endPass (s : MapState) : MapState :=
  { s with areas := fun r => dumpPool r.isNone (p.rest r) (s.areas r) }

def pass (s : MapState) : MapState := p.endPass (p.events.foldl MapState.step (p.startPass s))

def start : MapState := ⟨p.first, fun _ => {}⟩

/-- **Both passes.** -/
def assemble : MapState := p.pass (p.pass p.start)

end MapProgram

/-- **The mapping symbols of an area are right**: one at an offset, and the last one at or before a byte is of
the kind of the byte. -/
structure Mapped (a : AreaMap) : Prop where
  unique : ∀ m ∈ a.marks, ∀ m' ∈ a.marks, m.1 = m'.1 → m = m'
  kind : ∀ o k, a.kinds[o]? = some (some k) →
    ∃ m ∈ a.marks, m.1 ≤ o ∧ m.2 = k ∧ ∀ m' ∈ a.marks, m'.1 ≤ o → m'.1 ≤ m.1

/-- What a line is to keep to: a marked line of another kind than the last one writes something, and a line
that is not marked writes nothing of another kind. In the implicit area nothing is written. -/
def MapLine.Fits (implicit : Bool) (l : MapLine) (a : AreaMap) : Prop :=
  if implicit then l.size a.curIdx = 0
  else if l.updateMap then l.size a.curIdx = 0 → l.entryType = a.entryType
  else l.size a.curIdx ≠ 0 → l.fill = a.entryType

def MapState.Fits (s : MapState) : MapEvent → Prop
  | .area _ => True
  | .line l => l.Fits s.cur.isNone (s.areas s.cur)
  | .ltorg lits => s.cur = none → lits = []

def RunFits : MapState → List MapEvent → Prop
  | _, [] => True
  | s, e :: events => s.Fits e ∧ RunFits (s.step e) events

/-- All lines fit in the first pass, and the implicit area has no literals. -/
structure MapProgram.Fits (p : MapProgram) : Prop where
  run : RunFits (p.startPass p.start) p.events
  rest : p.rest none = []

/-! ### The first pass -/

/-- **In the first pass** the mapping symbols go up, the last one has the type of the area, and the last one
before a byte has its kind. -/
structure MarksOk (a : AreaMap) : Prop where
  order : a.marks.Pairwise fun m m' => m'.1 < m.1
  below : ∀ m ∈ a.marks, m.1 < a.curIdx
  last : a.entryType = (a.marks.head?.map Prod.snd).getD .invalid
  kind : ∀ o k, a.kinds[o]? = some (some k) → (a.marks.find? (·.1 ≤ o)).map Prod.snd = some k

variable {a b : AreaMap} {k : AreaEntryType} {q : ℕ} {implicit : Bool}

theorem le_alignUp (o : ℕ) {align : ℕ} (h : 0 < align) : o ≤ alignUp o align := by
  have hdiv := Nat.div_add_mod (o + (align - 1)) align
  have hmod := Nat.mod_lt (o + (align - 1)) h
  rw [alignUp, Nat.mul_comm]
  omega

theorem MarksOk.write (h : MarksOk a) {bytes : List (Option AreaEntryType)}
    (hbytes : ∀ k, some k ∈ bytes → k = a.entryType ∧ k ≠ .invalid) : MarksOk (a.write bytes) := by
  refine ⟨h.order, fun m hm => ?_, h.last, fun o k hk => ?_⟩
  · have hlt := h.below m hm
    unfold AreaMap.write AreaMap.curIdx at *
    rw [List.length_append]
    omega
  · unfold AreaMap.write at hk
    by_cases ho : o < a.kinds.length
    · rw [List.getElem?_append_left ho] at hk
      exact h.kind o k hk
    · rw [List.getElem?_append_right (Nat.le_of_not_lt ho)] at hk
      obtain ⟨heq, hne⟩ := hbytes k (List.mem_of_getElem? hk)
      -- the first entry of the list is the last mapping symbol
      change (a.marks.find? (·.1 ≤ o)).map Prod.snd = some k
      cases hmarks : a.marks with
      | nil =>
        rw [h.last, hmarks] at heq
        exact absurd heq hne
      | cons m marks =>
        have hle : m.1 ≤ o := by
          have hlt := h.below m (hmarks ▸ List.mem_cons_self)
          unfold AreaMap.curIdx at hlt
          omega
        rw [heq, h.last, hmarks]
        simp only [List.find?_cons, hle, decide_true, Option.map_some, List.head?_cons, Option.getD_some]

theorem MarksOk.padding (h : MarksOk a) (align : ℕ) : MarksOk (a.write (a.padding align)) :=
  h.write fun _ hk => nomatch (List.mem_replicate.mp hk).2

/-- **A mark of another kind**, with bytes of this kind behind it. -/
theorem MarksOk.mark (h : MarksOk a) {bytes : List (Option AreaEntryType)} (hq : a.curIdx ≤ q)
    (hlt : q < a.curIdx + bytes.length)
    (hbytes : ∀ i k', bytes[i]? = some (some k') → k' = k ∧ q ≤ a.curIdx + i) :
    MarksOk ⟨k, (q, k) :: a.marks, a.kinds ++ bytes⟩ := by
  refine ⟨?_, ?_, rfl, fun o k' hk => ?_⟩
  · exact List.pairwise_cons.mpr ⟨fun m hm => Nat.lt_of_lt_of_le (h.below m hm) hq, h.order⟩
  · intro m hm
    change m.1 < (a.kinds ++ bytes).length
    rw [List.length_append]
    obtain rfl | hm := List.mem_cons.mp hm
    · exact hlt
    · have := h.below m hm
      unfold AreaMap.curIdx at this
      omega
  · unfold AreaMap.curIdx at hq hbytes
    change (a.kinds ++ bytes)[o]? = _ at hk
    change (((q, k) :: a.marks).find? (·.1 ≤ o)).map Prod.snd = some k'
    by_cases ho : o < a.kinds.length
    · rw [List.getElem?_append_left ho] at hk
      rw [List.find?_cons_of_neg (by rw [decide_eq_true_iff]; dsimp only; omega)]
      exact h.kind o k' hk
    · rw [List.getElem?_append_right (Nat.le_of_not_lt ho)] at hk
      obtain ⟨rfl, hle⟩ := hbytes _ k' hk
      have hle : q ≤ o := by omega
      simp only [List.find?_cons, hle, decide_true, Option.map_some]

theorem getElem?_padded {d n i : ℕ} {k' : AreaEntryType}
    (h : (List.replicate d none ++ List.replicate n (some k))[i]? = some (some k')) : k' = k ∧ d ≤ i := by
  by_cases hi : i < d
  · rw [List.getElem?_append_left (by rwa [List.length_replicate]), List.getElem?_replicate, if_pos hi] at h
    cases h
  · rw [List.getElem?_append_right (by rw [List.length_replicate]; omega), List.getElem?_replicate] at h
    split at h
    · cases h
      exact ⟨rfl, Nat.le_of_not_lt hi⟩
    · cases h

theorem markStartAs_write (bytes : List (Option AreaEntryType)) :
    (a.write bytes).markStartAs implicit q k = (a.markStartAs implicit q k).write bytes := by
  unfold AreaMap.markStartAs AreaMap.defineLabel AreaMap.write
  dsimp only
  split
  · rfl
  · split
    · split <;> rfl
    · rfl

theorem MarksOk.turn (h : MarksOk a) (hk : k ≠ .invalid) {d n : ℕ} (hq : a.curIdx ≤ q)
    (hqd : q ≤ a.curIdx + d)
    (hn : k = a.entryType ∨ 0 < n) :
    MarksOk ((a.markStartAs false q k).write (List.replicate d none ++ List.replicate n (some k))) := by
  unfold AreaMap.markStartAs
  rw [if_neg Bool.false_ne_true]
  by_cases heq : a.entryType = k
  · rw [if_neg (not_not_intro heq)]
    refine h.write fun k' hk' => ?_
    obtain hk' | hk' := List.mem_append.mp hk'
    · exact nomatch (List.mem_replicate.mp hk').2
    · obtain rfl := Option.some.inj (List.mem_replicate.mp hk').2
      exact ⟨heq.symm, hk⟩
  · have hpos := hn.resolve_left fun h => heq h.symm
    have hnew : (q, k) ∉ a.marks := fun hmem => absurd (h.below _ hmem) (Nat.not_lt.mpr hq)
    rw [if_pos heq, AreaMap.defineLabel, if_neg hnew]
    refine h.mark hq ?_ fun i k' hi => ?_
    · rw [List.length_append, List.length_replicate, List.length_replicate]
      omega
    · obtain ⟨hkind, hle⟩ := getElem?_padded hi
      exact ⟨hkind, by omega⟩

theorem MapLine.entryType_ne (l : MapLine) : l.entryType ≠ .invalid := by
  unfold MapLine.entryType
  split
  · cases l.instrType <;> nofun
  · nofun

theorem alignValue_pos (t : InstrType) : 0 < t.alignValue := by
  cases t <;> decide

theorem MarksOk.decode {l : MapLine} (h : MarksOk a) (hfits : l.Fits false a) :
    MarksOk (l.decode false a) := by
  unfold MapLine.Fits at hfits
  rw [if_neg Bool.false_ne_true] at hfits
  unfold MapLine.decode
  dsimp only
  cases hmap : l.updateMap with
  | false =>
    rw [hmap, if_neg Bool.false_ne_true] at hfits
    rw [if_neg Bool.false_ne_true]
    refine h.write fun k hk => ?_
    unfold MapLine.bytes at hk
    split at hk
    · cases hk
    · rename_i hsize
      obtain hk | hk := List.mem_append.mp hk
      · exact nomatch (List.mem_replicate.mp hk).2
      · obtain rfl := Option.some.inj (List.mem_replicate.mp hk).2
        unfold MapLine.kind
        rw [hmap, if_neg Bool.false_ne_true]
        exact ⟨hfits hsize, l.fill_ne⟩
  | true =>
    rw [hmap, if_pos rfl] at hfits
    rw [if_pos rfl, markStartAs_write]
    have hkind : l.kind = l.entryType := by
      unfold MapLine.kind
      rw [hmap, if_pos rfl]
    unfold MapLine.bytes
    rw [hkind]
    by_cases hsize : l.size a.curIdx = 0
    · -- nothing is written, and the kind stays
      rw [if_pos hsize]
      unfold AreaMap.markStartAs
      rw [if_neg Bool.false_ne_true, if_neg (not_not_intro (hfits hsize).symm)]
      exact h.write fun _ hk => nomatch hk
    · rw [if_neg hsize]
      refine h.turn l.entryType_ne ?_ ?_ (.inr (Nat.pos_of_ne_zero hsize))
      · split
        · exact le_alignUp _ (alignValue_pos _)
        · exact Nat.le_refl _
      · split
        · omega
        · exact Nat.le_add_right _ _

theorem MarksOk.dumpPool {lits : List LitSize} (h : MarksOk a) : MarksOk (dumpPool false lits a) := by
  unfold Asasm.dumpPool
  suffices hall : ∀ (lits : List LitSize) (a : AreaMap), MarksOk a →
    MarksOk (lits.foldl (dumpLiteral false) a) from
    (hall lits a h).padding 4
  intro lits
  induction lits with
  | nil => exact fun _ h => h
  | cons size lits ih =>
    intro a h
    refine ih _ ?_
    have hpos : 0 < size.inBytes := by cases size <;> decide
    have hcur : (a.markStartAs false a.curIdx .data).padding size.align = a.padding size.align := by
      unfold AreaMap.padding AreaMap.markStartAs AreaMap.defineLabel AreaMap.curIdx
      split
      · rfl
      · split
        · split <;> rfl
        · rfl
    unfold dumpLiteral
    dsimp only
    rw [hcur]
    exact h.turn (by decide) (Nat.le_refl _) (Nat.le_add_right _ _) (.inr hpos)

/-- The implicit area has no mapping symbols, and no bytes but padding. -/
structure Unmarked (a : AreaMap) : Prop where
  marks : a.marks = []
  entryType : a.entryType = .invalid
  kinds : ∀ k ∈ a.kinds, k = none

theorem Unmarked.marksOk (h : Unmarked a) : MarksOk a := by
  refine ⟨?_, ?_, ?_, fun o k hk => ?_⟩
  · rw [h.marks]
    exact .nil
  · rw [h.marks]
    exact fun _ hm => nomatch hm
  · rw [h.marks, h.entryType]
    rfl
  · exact nomatch h.kinds _ (List.mem_of_getElem? hk)

theorem Unmarked.padding (h : Unmarked a) (align : ℕ) : Unmarked (a.write (a.padding align)) := by
  refine ⟨h.marks, h.entryType, fun k hk => ?_⟩
  obtain hk | hk := List.mem_append.mp hk
  · exact h.kinds k hk
  · exact (List.mem_replicate.mp hk).2

theorem decode_implicit {l : MapLine} (hfits : l.Fits true a) : l.decode true a = a := by
  have hsize : l.size a.curIdx = 0 := hfits
  have hwrite : a.write (l.bytes a) = a := by
    unfold AreaMap.write MapLine.bytes
    rw [if_pos hsize, List.append_nil]
  unfold MapLine.decode
  dsimp only
  rw [hwrite]
  exact ite_self _

theorem change_areas_cur (s : MapState) (f : Bool → AreaMap → AreaMap) :
    (s.change f).areas s.cur = f s.cur.isNone (s.areas s.cur) := Function.update_self ..

theorem change_areas_of_ne (s : MapState) (f : Bool → AreaMap → AreaMap) {r : Option ℕ} (h : r ≠ s.cur) :
    (s.change f).areas r = s.areas r := Function.update_of_ne h ..

/-- **The areas in the first pass.** -/
structure MapState.Ok (s : MapState) : Prop where
  implicit : Unmarked (s.areas none)
  named : ∀ id, MarksOk (s.areas (some id))

theorem MapState.Ok.change {s : MapState} (h : s.Ok) {f : Bool → AreaMap → AreaMap}
    (himplicit : s.cur = none → Unmarked (f true (s.areas none)))
    (hnamed : ∀ id, s.cur = some id → MarksOk (f false (s.areas (some id)))) : (s.change f).Ok := by
  have hcur := change_areas_cur s f
  constructor
  · by_cases h₀ : s.cur = none
    · rw [h₀] at hcur
      rw [hcur]
      exact himplicit h₀
    · rw [change_areas_of_ne s f (Ne.symm h₀)]
      exact h.implicit
  · intro id
    by_cases hid : s.cur = some id
    · rw [hid] at hcur
      rw [hcur]
      exact hnamed id hid
    · rw [change_areas_of_ne s f (Ne.symm hid)]
      exact h.named id

theorem MapState.Ok.step {s : MapState} (h : s.Ok) {e : MapEvent} (hfits : s.Fits e) : (s.step e).Ok := by
  cases e with
  | area id => exact ⟨h.implicit, h.named⟩
  | line l =>
    refine h.change (f := fun implicit a => l.decode implicit a) (fun hcur => ?_) fun id hcur => ?_
    · have hline : l.Fits s.cur.isNone (s.areas s.cur) := hfits
      rw [hcur] at hline
      rw [decode_implicit hline]
      exact h.implicit
    · have hline : l.Fits s.cur.isNone (s.areas s.cur) := hfits
      rw [hcur] at hline
      exact (h.named id).decode hline
  | ltorg lits =>
    refine h.change (f := fun implicit a => dumpPool implicit lits a) (fun hcur => ?_) fun id _ =>
      (h.named id).dumpPool
    rw [hfits hcur]
    exact h.implicit.padding 4

theorem MapState.Ok.run {events : List MapEvent} {s : MapState} (h : s.Ok) (hfits : RunFits s events) :
    (events.foldl MapState.step s).Ok := by
  induction events generalizing s with
  | nil => exact h
  | cons e events ih => exact ih (h.step hfits.1) hfits.2

theorem MapState.Ok.endPass {p : MapProgram} {s : MapState} (h : s.Ok) (hrest : p.rest none = []) :
    (p.endPass s).Ok := by
  refine ⟨?_, fun id => (h.named id).dumpPool⟩
  change Unmarked (Asasm.dumpPool true (p.rest none) (s.areas none))
  rw [hrest]
  exact h.implicit.padding 4

theorem MarksOk.mapped (h : MarksOk a) : Mapped a := by
  have hfirst : ∀ (marks : List (ℕ × AreaEntryType)) o m, marks.Pairwise (fun m m' => m'.1 < m.1) →
      marks.find? (·.1 ≤ o) = some m → ∀ m' ∈ marks, m'.1 ≤ o → m'.1 ≤ m.1 := by
    intro marks o m horder hfind m' hm' hle
    induction marks with
    | nil => cases hm'
    | cons m₀ marks ih =>
      obtain ⟨hbelow, horder⟩ := List.pairwise_cons.mp horder
      by_cases hm₀ : m₀.1 ≤ o
      · simp only [List.find?_cons, hm₀, decide_true, Option.some_inj] at hfind
        subst hfind
        obtain rfl | hm' := List.mem_cons.mp hm'
        · exact Nat.le_refl _
        · exact Nat.le_of_lt (hbelow m' hm')
      · simp only [List.find?_cons, hm₀, decide_false] at hfind
        obtain rfl | hm' := List.mem_cons.mp hm'
        · exact absurd hle hm₀
        · exact ih horder hfind hm'
  refine ⟨fun m hm m' hm' heq => ?_, fun o k hk => ?_⟩
  · have hnodup : (a.marks.map Prod.fst).Nodup :=
      List.pairwise_map.mpr (h.order.imp fun hlt => Nat.ne_of_gt hlt)
    exact List.inj_on_of_nodup_map hnodup hm hm' heq
  · have hkind := h.kind o k hk
    obtain ⟨m, hfind, hsnd⟩ := Option.map_eq_some_iff.mp hkind
    have hle := List.find?_some hfind
    exact ⟨m, List.mem_of_find?_eq_some hfind, of_decide_eq_true hle, hsnd, hfirst _ o m h.order hfind⟩

/-! ### The second pass -/

/-- The mapping symbols are all defined, and the area of the second pass is the one of the first pass but for
what was marked last before the first mapping symbol. -/
structure Follows (M : List (ℕ × AreaEntryType)) (a b : AreaMap) : Prop where
  kinds : b.kinds = a.kinds
  marks : b.marks = M
  entryType : b.entryType = a.entryType ∨ a.entryType = .invalid

variable {M : List (ℕ × AreaEntryType)}

theorem Follows.write (h : Follows M a b) (bytes : List (Option AreaEntryType)) :
    Follows M (a.write bytes) (b.write bytes) :=
  ⟨congrArg (· ++ bytes) h.kinds, h.marks, h.entryType⟩

theorem Follows.curIdx (h : Follows M a b) : b.curIdx = a.curIdx := congrArg List.length h.kinds

theorem Follows.padding (h : Follows M a b) (align : ℕ) : b.padding align = a.padding align := by
  unfold AreaMap.padding
  rw [h.curIdx]

/-- **A mapping symbol of the first pass** is there in the second one. -/
theorem Follows.markStartAs (h : Follows M a b) (hk : k ≠ .invalid)
    (hM : (a.markStartAs implicit q k).marks ⊆ M) :
    Follows M (a.markStartAs implicit q k) (b.markStartAs implicit q k) := by
  unfold AreaMap.markStartAs at hM ⊢
  cases implicit with
  | true => exact h
  | false =>
    rw [if_neg Bool.false_ne_true] at hM
    rw [if_neg Bool.false_ne_true, if_neg Bool.false_ne_true]
    by_cases heq : a.entryType = k
    · have hb : b.entryType = k :=
      (h.entryType.resolve_right fun hinvalid => hk (heq.symm.trans hinvalid)).trans heq
      rw [if_neg (not_not_intro heq), if_neg (not_not_intro hb)]
      exact h
    · rw [if_pos heq] at hM
      rw [if_pos heq]
      have hmem : (q, k) ∈ b.marks := by
        rw [h.marks]
        refine hM ?_
        unfold AreaMap.defineLabel
        split
        · assumption
        · exact List.mem_cons_self
      have hkinds : ({ a with entryType := k }.defineLabel q k).kinds = a.kinds ∧
          ({ a with entryType := k }.defineLabel q k).entryType = k := by
        unfold AreaMap.defineLabel
        split <;> exact ⟨rfl, rfl⟩
      by_cases hb : b.entryType = k
      · rw [if_neg (not_not_intro hb)]
        exact ⟨h.kinds.trans hkinds.1.symm, h.marks, .inl (hb.trans hkinds.2.symm)⟩
      · have hdefine : { b with entryType := k }.defineLabel q k = { b with entryType := k } := if_pos hmem
        rw [if_pos hb, hdefine]
        exact ⟨h.kinds.trans hkinds.1.symm, h.marks, .inl hkinds.2.symm⟩

theorem marks_subset_markStartAs : a.marks ⊆ (a.markStartAs implicit q k).marks := by
  unfold AreaMap.markStartAs AreaMap.defineLabel
  split
  · exact fun _ h => h
  · split
    · split
      · exact fun _ h => h
      · exact List.subset_cons_self _ _
    · exact fun _ h => h

theorem marks_subset_dumpPool (lits : List LitSize) :
    a.marks ⊆ (lits.foldl (dumpLiteral implicit) a).marks := by
  induction lits generalizing a with
  | nil => exact fun _ h => h
  | cons size lits ih =>
    have hone : a.marks ⊆ (dumpLiteral implicit a size).marks :=
      marks_subset_markStartAs (a := a) (q := a.curIdx) (k := .data)
    exact List.Subset.trans hone ih

theorem marks_subset_decode (l : MapLine) : a.marks ⊆ (l.decode implicit a).marks := by
  unfold MapLine.decode
  dsimp only
  split
  · exact marks_subset_markStartAs (a := a.write (l.bytes a))
  · exact fun _ h => h

theorem Follows.decode {l : MapLine} (h : Follows M a b) (hM : (l.decode implicit a).marks ⊆ M) :
    Follows M (l.decode implicit a) (l.decode implicit b) := by
  have hbytes : l.bytes b = l.bytes a := by
    unfold MapLine.bytes
    rw [h.curIdx, h.padding]
  unfold MapLine.decode at hM ⊢
  dsimp only at hM ⊢
  rw [hbytes, h.curIdx]
  cases hmap : l.updateMap with
  | false => exact h.write _
  | true =>
    rw [hmap, if_pos rfl] at hM
    rw [if_pos rfl, if_pos rfl]
    exact (h.write _).markStartAs l.entryType_ne hM

theorem Follows.dumpPool {lits : List LitSize} (h : Follows M a b)
    (hM : (dumpPool implicit lits a).marks ⊆ M) :
    Follows M (dumpPool implicit lits a) (dumpPool implicit lits b) := by
  suffices hall : Follows M (lits.foldl (dumpLiteral implicit) a) (lits.foldl (dumpLiteral implicit) b) by
    unfold Asasm.dumpPool
    dsimp only
    rw [hall.padding]
    exact hall.write _
  have hpool : (lits.foldl (dumpLiteral implicit) a).marks ⊆ M := hM
  clear hM
  induction lits generalizing a b with
  | nil => exact h
  | cons size lits ih =>
    refine ih ?_ hpool
    have hone : (dumpLiteral implicit a size).marks ⊆ M := List.Subset.trans (marks_subset_dumpPool lits) hpool
    have hmark := h.markStartAs (q := a.curIdx) (k := .data) (by decide) hone
    unfold dumpLiteral
    dsimp only
    rw [h.curIdx, hmark.padding]
    exact hmark.write _

structure MapState.Follows (M : Option ℕ → List (ℕ × AreaEntryType)) (s t : MapState) : Prop where
  cur : t.cur = s.cur
  areas : ∀ r, Asasm.Follows (M r) (s.areas r) (t.areas r)

variable {N : Option ℕ → List (ℕ × AreaEntryType)} {s t : MapState}

theorem MapState.Follows.change (h : s.Follows N t) {f : Bool → AreaMap → AreaMap}
    (hf : Asasm.Follows (N s.cur) (f s.cur.isNone (s.areas s.cur)) (f s.cur.isNone (t.areas s.cur))) :
    (s.change f).Follows N (t.change f) := by
  refine ⟨h.cur, fun r => ?_⟩
  have hcur := change_areas_cur t f
  rw [h.cur] at hcur
  by_cases hr : r = s.cur
  · rw [hr, change_areas_cur, hcur]
    exact hf
  · rw [change_areas_of_ne s f hr, change_areas_of_ne t f (h.cur ▸ hr)]
    exact h.areas r

theorem marks_subset_step (e : MapEvent) (r : Option ℕ) : (s.areas r).marks ⊆ ((s.step e).areas r).marks := by
  have hchange : ∀ f : Bool → AreaMap → AreaMap,
    (s.areas s.cur).marks ⊆ (f s.cur.isNone (s.areas s.cur)).marks →
      (s.areas r).marks ⊆ ((s.change f).areas r).marks := by
    intro f hf
    by_cases hr : r = s.cur
    · rw [hr, change_areas_cur]
      exact hf
    · rw [change_areas_of_ne s f hr]
      exact fun _ h => h
  cases e with
  | area id => exact fun _ h => h
  | line l => exact hchange (fun implicit a => l.decode implicit a) (marks_subset_decode l)
  | ltorg lits => exact hchange (fun implicit a => dumpPool implicit lits a) (marks_subset_dumpPool lits)

theorem marks_subset_run (events : List MapEvent) (r : Option ℕ) :
    (s.areas r).marks ⊆ ((events.foldl MapState.step s).areas r).marks := by
  induction events generalizing s with
  | nil => exact fun _ h => h
  | cons e events ih => exact List.Subset.trans (marks_subset_step e r) ih

theorem MapState.Follows.step (h : s.Follows N t) (e : MapEvent)
    (hN : ∀ r, ((s.step e).areas r).marks ⊆ N r) :
    (s.step e).Follows N (t.step e) := by
  have hmarks := hN s.cur
  cases e with
  | area id => exact ⟨rfl, h.areas⟩
  | line l =>
    refine h.change (f := fun implicit a => l.decode implicit a) ((h.areas s.cur).decode ?_)
    rw [MapState.step, change_areas_cur] at hmarks
    exact hmarks
  | ltorg lits =>
    refine h.change (f := fun implicit a => dumpPool implicit lits a) ((h.areas s.cur).dumpPool ?_)
    rw [MapState.step, change_areas_cur] at hmarks
    exact hmarks

theorem MapState.Follows.run {events : List MapEvent} (h : s.Follows N t)
    (hN : ∀ r, ((events.foldl MapState.step s).areas r).marks ⊆ N r) :
    (events.foldl MapState.step s).Follows N (events.foldl MapState.step t) := by
  induction events generalizing s t with
  | nil => exact h
  | cons e events ih => exact ih (h.step e fun r => List.Subset.trans (marks_subset_run events r) (hN r)) hN

/-- **The mapping symbols are right at the end of assembly**, in every area. -/
theorem assemble_mapped (p : MapProgram) (hfits : p.Fits) (r : Option ℕ) : Mapped (p.assemble.areas r) := by
  have hstart : (p.startPass p.start).Ok := by
    have hempty : Unmarked {} := ⟨rfl, rfl, fun _ h => nomatch h⟩
    exact ⟨hempty, fun _ => hempty.marksOk⟩
  have hone : (p.pass p.start).Ok := (hstart.run hfits.run).endPass hfits.rest
  have hok : MarksOk ((p.pass p.start).areas r) := by
    cases r with
    | none => exact hone.implicit.marksOk
    | some id => exact hone.named id
  -- the second pass has all the mapping symbols of the first one from the start
  have hsecond : (p.startPass p.start).Follows (fun r => ((p.pass p.start).areas r).marks)
      (p.startPass (p.pass p.start)) := ⟨rfl, fun _ => ⟨rfl, rfl, .inr rfl⟩⟩
  have hrun : (p.events.foldl MapState.step (p.startPass p.start)).Follows _
      (p.events.foldl MapState.step (p.startPass (p.pass p.start))) :=
    hsecond.run fun r => marks_subset_dumpPool (p.rest r)
  have hlast : Follows _ ((p.pass p.start).areas r) (p.assemble.areas r) := (hrun.areas r).dumpPool fun _ h => h
  obtain ⟨hunique, hkind⟩ := hok.mapped
  have hkinds : (p.assemble.areas r).kinds = ((p.pass p.start).areas r).kinds := hlast.kinds
  have hmarks : (p.assemble.areas r).marks = ((p.pass p.start).areas r).marks := hlast.marks
  refine ⟨?_, ?_⟩
  · rw [hmarks]
    exact hunique
  · rw [hkinds, hmarks]
    exact hkind

def armLine : MapLine := ⟨true, true, .arm, 1, fun _ => 4, .data, nofun⟩

/-- `% n` -/
def reserveLine (n : ℕ) : MapLine := ⟨false, true, .arm, 1, fun _ => n, .data, nofun⟩

theorem assemble_mapped_reserve :
    Mapped ((MapProgram.mk none [.area 0, .line armLine, .line (reserveLine 2), .line armLine,
      .ltorg [.intWord]]
      fun _ => []).assemble.areas (some 0)) := by
  refine assemble_mapped _ ⟨?_, rfl⟩ _
  have hfour : ¬(4 : ℕ) = 0 := by decide
  have htwo : ¬(2 : ℕ) = 0 := by decide
  exact ⟨trivial, fun h => absurd h hfour, fun h => absurd h htwo, fun h => absurd h hfour, nofun, trivial⟩

/-- `% 0` between two instructions: there is a `$d` where the second one has its `$a`. -/
theorem not_assemble_mapped : ¬∀ (p : MapProgram) (id : ℕ), Mapped (p.assemble.areas (some id)) := by
  intro h
  have hunique := (h ⟨none, [.area 0, .line armLine, .line (reserveLine 0), .line armLine],
    fun _ => []⟩ 0).unique
    (4, .arm) (by decide) (4, .data) (by decide) rfl
  cases hunique

end Asasm
