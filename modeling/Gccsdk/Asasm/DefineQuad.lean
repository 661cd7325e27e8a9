import Gccsdk.Asasm.DefineInt
import Gccsdk.Asasm.Eval
import Gccsdk.Asasm.LexNumber

/-!
# 64-bit data

DCQ and DCQU: `DefineInt` of `directive_data.c` for size 8, whose operands are integer literals, maybe negated. The
lexer makes a 32-bit value of a literal below 2^32, and this value is put in another way than a 64-bit one: in one
piece, which is not aligned and not extended by its sign.

`defineQuads_right_iff` says for which lists of operands this makes no difference.
-/

namespace Asasm

open CheckedRun AreaImage

/-! ### Operands -/

def literalValue : Lex → Option Value
  | .int value => some (.int value .pureInt)
  | .int64 value => some (.int64 value)
  | _ => none

/-- An operand of DCQ: a literal, and what follows it in the line. -/
structure QuadLiteral where
  neg : Bool
  base : ℕ
  digits : Text
  rest : Text

namespace QuadLiteral

/-- The number without the sign, -/
def number (l : QuadLiteral) : ℕ := numberOf l.base l.digits

/-- and the 64-bit value with it, in two's complement. -/
def word (l : QuadLiteral) : BitVec 64 := if l.neg then -BitVec.ofNat 64 l.number else BitVec.ofNat 64 l.number

/-- **A literal that fits in 64 bits.** -/
structure Legal (l : QuadLiteral) : Prop where
  base : SupportedBase l.base
  digits : DigitString l.base l.digits l.rest
  fits : if l.neg then l.number ≤ 2 ^ 63 else l.number < 2 ^ 64

/-- What `Expr_BuildAndEval` makes of it. -/
def value (strtod : Name → ARMFloat × Nat) (ops : DoubleOps) (heap : SymHeap) (phase : Phase) (l : QuadLiteral) :
    Option Value := do
  let (lex, _, _) ← lexGetIntOrFloat strtod l.base (l.digits ++ l.rest)
  let v ← literalValue lex
  if l.neg then (evalNeg ops heap phase v).map Prod.fst else some v

end QuadLiteral

/-- **`DefineInt` for one operand of DCQ or DCQU.** -/
def defineQuad (os : Realloc) (passOne : Bool) (allowUnaligned : Bool) (s : AreaImage) (value : Value) :
    Run (AreaImage × List Diag) :=
  match value with
  | .int i _ => s.putAlignDataWithOffset os passOne ⟨s.curIdx, 8, i, 1, !allowUnaligned⟩
  | .int64 i => do
    let (t, diags) ← s.putAlignDataWithOffset os passOne ⟨s.curIdx, 4, i.setWidth 32, 1, !allowUnaligned⟩
    let (u, diags₁) ← t.putAlignDataWithOffset os passOne
      ⟨s.curIdx + 4, 4, (i >>> 32).setWidth 32, 1, !allowUnaligned⟩
    pure (u, diags ++ diags₁)
  | _ => do
    let (t, diags) ← s.putAlignDataWithOffset os passOne ⟨s.curIdx, 8, 0, 1, !allowUnaligned⟩
    let illegal : Diag :=
      ⟨.error, "Illegal %s expression", [.str (cstr (if allowUnaligned then "DCQU" else "DCQ"))]⟩
    pure (t, (if passOne then [] else [illegal]) ++ diags)

/-- **The operands of a directive**, one after the other. -/
def defineQuads (os : Realloc) (passOne : Bool) (allowUnaligned : Bool) :
    AreaImage → List Value → Run (AreaImage × List Diag)
  | s, [] => pure (s, [])
  | s, value :: values => do
    let (t, diags) ← defineQuad os passOne allowUnaligned s value
    let (u, diags₁) ← defineQuads os passOne allowUnaligned t values
    pure (u, diags ++ diags₁)

/-! ### The values -/

def QuadLiteral.word32 (l : QuadLiteral) : BitVec 32 :=
  if l.neg then -BitVec.ofNat 32 l.number else BitVec.ofNat 32 l.number

theorem QuadLiteral.value_eq (strtod : Name → ARMFloat × Nat) (ops : DoubleOps) (heap : SymHeap) (phase : Phase)
    {l : QuadLiteral} (h : l.Legal) :
    l.value strtod ops heap phase =
      some (if l.number < 2 ^ 32 then .int l.word32 .pureInt else .int64 l.word) := by
  have hassert : assert (decide ((2 ≤ l.base ∧ l.base ≤ 10) ∨ l.base = 16)) = some () :=
    assert_eq_some.mpr (decide_eq_true h.base)
  have hlt : l.number < 2 ^ 64 := by
    have hfits := h.fits
    split at hfits <;> omega
  have hnat : (BitVec.ofNat 64 l.number).toNat = l.number := by
    rw [BitVec.toNat_ofNat, Nat.mod_eq_of_lt hlt]
  have hlex : ∃ rest diags, lexGetIntOrFloat strtod l.base (l.digits ++ l.rest) =
      some (if l.number < 2 ^ 32 then .int (BitVec.ofNat 32 l.number) else .int64 (BitVec.ofNat 64 l.number), rest,
        diags) := by
    rw [lexGetIntOrFloat, hassert, lexDigits_digitString h.digits]
    simp only [h.digits.integer]
    change ∃ rest diags, some (lexInteger ⟨BitVec.ofNat 64 l.number, _, true, l.rest⟩) = _
    unfold lexInteger
    rw [if_neg (by simp)]
    dsimp only
    rw [hnat]
    by_cases hsmall : l.number < 2 ^ 32
    · have hword : (BitVec.ofNat 64 l.number).setWidth 32 = BitVec.ofNat 32 l.number := by
        apply BitVec.eq_of_toNat_eq
        rw [BitVec.toNat_setWidth, hnat, BitVec.toNat_ofNat]
      rw [if_pos (by omega), if_pos hsmall, hword]
      exact ⟨_, _, rfl⟩
    · rw [if_neg (by omega), if_neg hsmall]
      exact ⟨_, _, rfl⟩
  obtain ⟨rest, diags, hlex⟩ := hlex
  unfold QuadLiteral.value QuadLiteral.word32 QuadLiteral.word
  rw [hlex]
  by_cases hsmall : l.number < 2 ^ 32
  · rw [if_pos hsmall, if_pos hsmall]
    cases l.neg <;> rfl
  · rw [if_neg hsmall, if_neg hsmall]
    cases l.neg <;> rfl

/-- **The 32-bit value, filled up with zeros**, is the value just if it is not a negative one. -/
theorem QuadLiteral.setWidth_word32_iff {l : QuadLiteral} (hlt : l.number < 2 ^ 32) :
    l.word32.setWidth 64 = l.word ↔ l.neg = false ∨ l.number = 0 := by
  unfold QuadLiteral.word32 QuadLiteral.word
  rw [← BitVec.toNat_inj, BitVec.toNat_setWidth]
  cases l.neg with
  | false =>
    refine iff_of_true ?_ (Or.inl rfl)
    rw [if_neg Bool.false_ne_true, if_neg Bool.false_ne_true, BitVec.toNat_ofNat, BitVec.toNat_ofNat]
    omega
  | true =>
    rw [if_pos rfl, if_pos rfl, BitVec.toNat_neg, BitVec.toNat_neg, BitVec.toNat_ofNat, BitVec.toNat_ofNat]
    constructor
    · intro h
      right
      omega
    · intro h
      obtain h | h := h
      · exact nomatch h
      · rw [h]

/-! ### One operand -/

def quadStart (allowUnaligned : Bool) (s : AreaImage) : ℕ :=
  if allowUnaligned then s.curIdx.toNat else alignUp s.curIdx.toNat 4

theorem quadStart_aligned {allowUnaligned : Bool} {s : AreaImage} {n : ℕ} (h : s.curIdx.toNat = n)
    (hdvd : allowUnaligned = false → n % 4 = 0) : quadStart allowUnaligned s = n := by
  unfold quadStart
  rw [h]
  cases allowUnaligned with
  | true => rfl
  | false => exact alignUp_of_dvd (by decide) (Nat.dvd_of_mod_eq_zero (hdvd rfl))

theorem curIdx_le_quadStart (allowUnaligned : Bool) (s : AreaImage) :
    s.curIdx.toNat ≤ quadStart allowUnaligned s ∧ quadStart allowUnaligned s < s.curIdx.toNat + 4 := by
  unfold quadStart alignUp
  cases allowUnaligned with
  | true => exact ⟨Nat.le_refl _, Nat.lt_add_of_pos_right (by decide)⟩
  | false =>
    rw [if_neg Bool.false_ne_true]
    omega

/-- **Eight bytes have been put**: they stand at `start`, the index is behind them, and what was below the old
index is as it was. -/
structure QuadPut (start : ℕ) (w : BitVec 64) (s t : AreaImage) : Prop where
  noInit : t.noInit = false
  sound : t.Sound
  curIdx : t.curIdx.toNat = start + 8
  bytes : ∀ j < 8, t.image[start + j]? = (dataBytes 8 w)[j]?
  kept : ∀ p < s.curIdx.toNat, t.image[p]? = s.image[p]?

variable {os : Realloc} {passOne allowUnaligned : Bool} {s : AreaImage}

theorem ensures_defineQuad_int (hs : s.Sound) (hinit : s.noInit = false) (i : BitVec 32) (type : IntType)
    (hroom : s.curIdx.toNat + 8 < 2 ^ 32) :
    Ensures (defineQuad os passOne allowUnaligned s (.int i type)) fun r =>
      QuadPut s.curIdx.toNat (i.setWidth 64) s r.1 := by
  have hstart : PutCall.start ⟨s.curIdx, 8, i, 1, !allowUnaligned⟩ = s.curIdx.toNat := by
    refine if_neg ?_
    rintro ⟨_, h | h⟩
    · exact absurd h (show (8 : ℕ) ≠ 2 by decide)
    · exact absurd h (show (8 : ℕ) ≠ 4 by decide)
  have hstop : PutCall.stop ⟨s.curIdx, 8, i, 1, !allowUnaligned⟩ = s.curIdx.toNat + 8 := by
    unfold PutCall.stop
    rw [hstart]
    rfl
  have hfits : PutCall.Fits ⟨s.curIdx, 8, i, 1, !allowUnaligned⟩ := by
    unfold PutCall.Fits
    rw [hstop]
    exact hroom
  refine (ensures_putAlignDataWithOffset hs hfits).imp fun r _ h => ?_
  refine ⟨h.noInit.trans hinit, h.sound, ?_, fun j hj => ?_, fun p hp => ?_⟩
  · rw [h.curIdx, hstop]
    exact Nat.max_eq_right (Nat.le_add_right _ 8)
  · rw [← hstart]
    exact h.written hinit 0 Nat.one_pos j hj
  · refine h.kept p (Nat.lt_of_lt_of_le hp (hs.curIdx_le hinit)) ?_ fun _ => Or.inl hp
    rw [hstart]
    exact Or.inl hp

theorem getElem?_dataBytes_eight (i : BitVec 64) {j : ℕ} (hj : j < 8) :
    (dataBytes 8 i)[j]? = if j < 4 then (dataBytes 4 ((i.setWidth 32).setWidth 64))[j]?
      else (dataBytes 4 (((i >>> 32).setWidth 32).setWidth 64))[j - 4]? := by
  rw [getElem?_dataBytes i hj]
  by_cases hlow : j < 4
  · rw [if_pos hlow, getElem?_dataBytes _ hlow]
    congr 2
    ext k hk
    simp only [BitVec.getElem_extractLsb', BitVec.getLsbD_setWidth]
    rw [decide_eq_true (show 8 * j + k < 64 by omega), decide_eq_true (show 8 * j + k < 32 by omega)]
    rfl
  · rw [if_neg hlow, getElem?_dataBytes _ (show j - 4 < 4 by omega)]
    congr 2
    ext k hk
    simp only [BitVec.getElem_extractLsb', BitVec.getLsbD_setWidth, BitVec.getLsbD_ushiftRight]
    rw [decide_eq_true (show 8 * (j - 4) + k < 64 by omega), decide_eq_true (show 8 * (j - 4) + k < 32 by omega),
      show 32 + (8 * (j - 4) + k) = 8 * j + k by omega]
    rfl

theorem start_word (offset data : BitVec 32) (allowUnaligned : Bool) :
    PutCall.start ⟨offset, 4, data, 1, !allowUnaligned⟩ =
      if allowUnaligned then offset.toNat else alignUp offset.toNat 4 := by
  cases allowUnaligned <;> rfl

theorem ensures_defineQuad_int64 (hs : s.Sound) (hinit : s.noInit = false) (i : BitVec 64)
    (hroom : quadStart allowUnaligned s + 8 < 2 ^ 32) :
    Ensures (defineQuad os passOne allowUnaligned s (.int64 i)) fun r =>
      QuadPut (quadStart allowUnaligned s) i s r.1 := by
  have hle := (curIdx_le_quadStart allowUnaligned s).1
  have hnext : (s.curIdx + 4).toNat = s.curIdx.toNat + 4 := by
    rw [BitVec.toNat_add]
    exact Nat.mod_eq_of_lt (show s.curIdx.toNat + 4 < 2 ^ 32 by omega)
  have hstart₁ : PutCall.start ⟨s.curIdx, 4, i.setWidth 32, 1, !allowUnaligned⟩ = quadStart allowUnaligned s :=
    start_word _ _ _
  have hstart₂ : PutCall.start ⟨s.curIdx + 4, 4, (i >>> 32).setWidth 32, 1, !allowUnaligned⟩ =
      quadStart allowUnaligned s + 4 := by
    rw [start_word, hnext]
    unfold quadStart
    cases allowUnaligned with
    | true => rfl
    | false =>
      unfold alignUp
      rw [if_neg Bool.false_ne_true, if_neg Bool.false_ne_true]
      omega
  generalize quadStart allowUnaligned s = start at hroom hle hstart₁ hstart₂ ⊢
  unfold defineQuad
  dsimp only
  generalize hc₁ : (⟨s.curIdx, 4, i.setWidth 32, 1, !allowUnaligned⟩ : PutCall) = c₁ at hstart₁ ⊢
  generalize hc₂ : (⟨s.curIdx + 4, 4, (i >>> 32).setWidth 32, 1, !allowUnaligned⟩ : PutCall) = c₂ at hstart₂ ⊢
  have hstop₁ : c₁.stop = start + 4 := by rw [← hstart₁, ← hc₁]; rfl
  have hstop₂ : c₂.stop = start + 8 := by
    have h : c₂.stop = c₂.start + 4 := by rw [← hc₂]; rfl
    rw [h, hstart₂]
  have hbytes₁ : c₁.bytes = dataBytes 4 ((i.setWidth 32).setWidth 64) := by rw [← hc₁]; rfl
  have hbytes₂ : c₂.bytes = dataBytes 4 (((i >>> 32).setWidth 32).setWidth 64) := by rw [← hc₂]; rfl
  have hfits₁ : c₁.Fits := by change c₁.stop < 2 ^ 32; omega
  have hfits₂ : c₂.Fits := by change c₂.stop < 2 ^ 32; omega
  refine ensures_bind.mpr ((ensures_putAlignDataWithOffset hs hfits₁).imp fun r _ h₁ => ?_)
  refine ensures_bind.mpr ((ensures_putAlignDataWithOffset h₁.sound hfits₂).imp fun u _ h₂ => ensures_ok.mpr ?_)
  have hinit₁ : r.1.noInit = false := h₁.noInit.trans hinit
  have hcur₁ : r.1.curIdx.toNat = start + 4 := by
    rw [h₁.curIdx, hstop₁]
    omega
  have hlen := h₁.sound.curIdx_le hinit₁
  -- the second word leaves alone what is below it
  have hbelow : ∀ p < start + 4, u.1.image[p]? = r.1.image[p]? := fun p hp =>
    h₂.kept p (by omega) (by rw [hstart₂]; exact Or.inl hp) fun _ => Or.inl (by omega)
  refine ⟨h₂.noInit.trans hinit₁, h₂.sound, ?_, fun j hj => ?_, fun p hp => ?_⟩
  · rw [h₂.curIdx, hcur₁, hstop₂]
    omega
  · rw [getElem?_dataBytes_eight i hj]
    by_cases hlow : j < 4
    · have hwritten := h₁.written hinit 0 (by rw [← hc₁]; exact Nat.one_pos) j (by rw [← hc₁]; exact hlow)
      rw [if_pos hlow, hbelow _ (by omega), ← hbytes₁, ← hwritten, hstart₁, Nat.mul_zero]
      rfl
    · have hwritten := h₂.written hinit₁ 0 (by rw [← hc₂]; exact Nat.one_pos) (j - 4)
        (by rw [← hc₂]; change j - 4 < 4; omega)
      rw [if_neg hlow, ← hbytes₂, ← hwritten, hstart₂, Nat.mul_zero]
      congr 1
      omega
  · rw [hbelow p (by omega)]
    refine h₁.kept p (Nat.lt_of_lt_of_le hp (hs.curIdx_le hinit)) ?_ fun _ => Or.inl hp
    rw [hstart₁]
    exact Or.inl (by omega)

/-! ### The operands of a directive -/

def QuadLiteral.put (l : QuadLiteral) : Value :=
  if l.number < 2 ^ 32 then .int l.word32 .pureInt else .int64 l.word

/-- **A literal that comes out right at an index**: a 64-bit one, or a 32-bit one that is not negative where no
alignment is missing. -/
def QuadLiteral.Right (allowUnaligned : Bool) (curIdx : ℕ) (l : QuadLiteral) : Prop :=
  2 ^ 32 ≤ l.number ∨ ((l.neg = false ∨ l.number = 0) ∧ (allowUnaligned = false → curIdx % 4 = 0))

/-- **One operand**: eight bytes are put, not above where they are to stand; both place and bytes are as they are to
be just if the literal is right. -/
theorem ensures_defineQuad_put (hs : s.Sound) (hinit : s.noInit = false) (l : QuadLiteral)
    (hroom : quadStart allowUnaligned s + 8 < 2 ^ 32) :
    Ensures (defineQuad os passOne allowUnaligned s l.put) fun r => ∃ start w, QuadPut start w s r.1 ∧
      s.curIdx.toNat ≤ start ∧ start ≤ quadStart allowUnaligned s ∧
      ((start = quadStart allowUnaligned s ∧ w = l.word) ↔ l.Right allowUnaligned s.curIdx.toNat) := by
  obtain ⟨hle, hlt⟩ := curIdx_le_quadStart allowUnaligned s
  unfold QuadLiteral.put
  by_cases hsmall : l.number < 2 ^ 32
  · rw [if_pos hsmall]
    refine (ensures_defineQuad_int hs hinit l.word32 .pureInt (by omega)).imp fun r _ h => ?_
    refine ⟨_, _, h, Nat.le_refl _, hle, ?_⟩
    have hstart : s.curIdx.toNat = quadStart allowUnaligned s ↔
        (allowUnaligned = false → s.curIdx.toNat % 4 = 0) := by
      unfold quadStart alignUp
      cases allowUnaligned with
      | true => exact iff_of_true rfl nofun
      | false =>
        rw [if_neg Bool.false_ne_true, forall_prop_of_true rfl]
        omega
    unfold QuadLiteral.Right
    rw [hstart, QuadLiteral.setWidth_word32_iff hsmall]
    constructor
    · rintro ⟨haligned, hword⟩
      exact Or.inr ⟨hword, haligned⟩
    · rintro (hbig | ⟨hword, haligned⟩)
      · omega
      · exact ⟨haligned, hword⟩
  · rw [if_neg hsmall]
    refine (ensures_defineQuad_int64 hs hinit l.word hroom).imp fun r _ h => ?_
    exact ⟨_, _, h, hle, Nat.le_refl _, iff_of_true ⟨rfl, rfl⟩ (Or.inl (by omega))⟩

theorem quadStart_le {start : ℕ} {w : BitVec 64} {t : AreaImage} (h : QuadPut start w s t)
    (hle : start ≤ quadStart allowUnaligned s) : quadStart allowUnaligned t ≤ quadStart allowUnaligned s + 8 := by
  unfold quadStart alignUp at hle ⊢
  rw [h.curIdx]
  cases allowUnaligned with
  | true =>
    simp only [if_true] at hle ⊢
    omega
  | false =>
    simp only [Bool.false_eq_true, if_false] at hle ⊢
    omega

theorem quadStart_next {w : BitVec 64} {t : AreaImage} (h : QuadPut (quadStart allowUnaligned s) w s t) :
    quadStart allowUnaligned t = quadStart allowUnaligned s + 8 := by
  refine quadStart_aligned h.curIdx fun hallow => ?_
  unfold quadStart alignUp
  rw [hallow, if_neg Bool.false_ne_true]
  omega

/-- **The operands behind an index leave alone what is below it.** -/
theorem ensures_defineQuads (ls : List QuadLiteral) (hs : s.Sound) (hinit : s.noInit = false)
    (hroom : quadStart allowUnaligned s + 8 * ls.length < 2 ^ 32) :
    Ensures (defineQuads os passOne allowUnaligned s (ls.map QuadLiteral.put)) fun r =>
      ∀ p < s.curIdx.toNat, r.1.image[p]? = s.image[p]? := by
  induction ls generalizing s with
  | nil => exact ensures_ok.mpr fun _ _ => rfl
  | cons l ls ih =>
    rw [List.length_cons] at hroom
    refine ensures_bind.mpr ((ensures_defineQuad_put hs hinit l (by omega)).imp fun r _ h => ?_)
    obtain ⟨start, w, hput, hge, hle, -⟩ := h
    have hnext := quadStart_le hput hle
    refine ensures_bind.mpr ((ih hput.sound hput.noInit (by omega)).imp fun u _ hu => ensures_ok.mpr fun p hp => ?_)
    have hcur := hput.curIdx
    rw [hu p (by omega)]
    exact hput.kept p hp

/-- **The operands stand as they are to stand**: one behind the other from the aligned index on, each as the eight
bytes of its value; and behind each one the index is where the next one begins. -/
def QuadsRight (os : Realloc) (passOne allowUnaligned : Bool) (s : AreaImage) (ls : List QuadLiteral)
    (u : AreaImage) : Prop :=
  ∀ k, ∀ hk : k < ls.length,
    (∀ j < 8, u.image[quadStart allowUnaligned s + 8 * k + j]? = (dataBytes 8 ls[k].word)[j]?) ∧
    ∀ t, defineQuads os passOne allowUnaligned s ((ls.take (k + 1)).map QuadLiteral.put) = .ok t →
      t.1.curIdx.toNat = quadStart allowUnaligned s + 8 * (k + 1)

/-- **The condition on the operands**: each literal is a 64-bit one or not negative, and the first one is a 64-bit
one, or stands where no alignment is needed. -/
def QuadsLegible (allowUnaligned : Bool) (curIdx : ℕ) : List QuadLiteral → Prop
  | [] => True
  | l :: ls => l.Right allowUnaligned curIdx ∧ ∀ m ∈ ls, 2 ^ 32 ≤ m.number ∨ m.neg = false ∨ m.number = 0

theorem quadsLegible_next {n : ℕ} (hn : allowUnaligned = false → n % 4 = 0) (ls : List QuadLiteral) :
    QuadsLegible allowUnaligned n ls ↔ ∀ m ∈ ls, 2 ^ 32 ≤ m.number ∨ m.neg = false ∨ m.number = 0 := by
  cases ls with
  | nil => exact iff_of_true trivial nofun
  | cons l ls =>
    unfold QuadsLegible QuadLiteral.Right
    rw [List.forall_mem_cons]
    refine and_congr_left fun _ => ?_
    constructor
    · rintro (hbig | ⟨hword, _⟩)
      · exact Or.inl hbig
      · exact Or.inr hword
    · rintro (hbig | hword)
      · exact Or.inl hbig
      · exact Or.inr ⟨hword, hn⟩

theorem defineQuads_cons {v : Value} {vs : List Value} {u : AreaImage × List Diag} :
    defineQuads os passOne allowUnaligned s (v :: vs) = .ok u ↔
      ∃ r r', defineQuad os passOne allowUnaligned s v = .ok r ∧
      defineQuads os passOne allowUnaligned r.1 vs = .ok r' ∧ u = (r'.1, r.2 ++ r'.2) := by
  constructor
  · intro h
    obtain ⟨r, hr, h⟩ := CheckedRun.bind_eq_ok.mp h
    obtain ⟨r', hr', h⟩ := CheckedRun.bind_eq_ok.mp h
    exact ⟨r, r', hr, hr', (Except.ok.inj h).symm⟩
  · rintro ⟨r, r', hr, hr', rfl⟩
    exact CheckedRun.bind_eq_ok.mpr ⟨r, hr, CheckedRun.bind_eq_ok.mpr ⟨r', hr', rfl⟩⟩

/-- **One operand after the other**: the list is right just if its first operand stands as it is to stand and the
others are right behind it. -/
theorem quadsRight_cons {l : QuadLiteral} {ls : List QuadLiteral} {r u : AreaImage × List Diag} {start : ℕ}
    {w : BitVec 64} (hr : defineQuad os passOne allowUnaligned s l.put = .ok r) (hput : QuadPut start w s r.1)
    (hsame : ∀ p < r.1.curIdx.toNat, u.1.image[p]? = r.1.image[p]?) :
    QuadsRight os passOne allowUnaligned s (l :: ls) u.1 ↔
      (start = quadStart allowUnaligned s ∧ w = l.word) ∧ QuadsRight os passOne allowUnaligned r.1 ls u.1 := by
  have hcur := hput.curIdx
  -- the bytes of the first operand, in the end
  have hbytes : ∀ j < 8, u.1.image[start + j]? = (dataBytes 8 w)[j]? := by
    intro j hj
    rw [hsame _ (by omega)]
    exact hput.bytes j hj
  -- what is put behind it
  have hrest : start = quadStart allowUnaligned s → (QuadsRight os passOne allowUnaligned r.1 ls u.1 ↔
      ∀ k, ∀ hk : k < ls.length,
        (∀ j < 8, u.1.image[quadStart allowUnaligned s + 8 * (k + 1) + j]? = (dataBytes 8 ls[k].word)[j]?) ∧
        ∀ t, defineQuads os passOne allowUnaligned s (((l :: ls).take (k + 1 + 1)).map QuadLiteral.put) = .ok t →
          t.1.curIdx.toNat = quadStart allowUnaligned s + 8 * (k + 1 + 1)) := by
    rintro rfl
    have hnext := quadStart_next hput
    refine forall₂_congr fun k hk => and_congr ?_ ?_
    · rw [hnext, show quadStart allowUnaligned s + 8 + 8 * k = quadStart allowUnaligned s + 8 * (k + 1) by omega]
    · rw [hnext, List.take_succ_cons, List.map_cons]
      constructor
      · intro h t ht
        obtain ⟨r', t', hr', ht', rfl⟩ := defineQuads_cons.mp ht
        obtain rfl := Except.ok.inj (hr.symm.trans hr')
        rw [h t' ht']
        omega
      · intro h t ht
        have hall := h _ (defineQuads_cons.mpr ⟨r, t, hr, ht, rfl⟩)
        change t.1.curIdx.toNat = _ at hall
        rw [hall]
        omega
  constructor
  · intro h
    obtain ⟨hfirst, hindex⟩ := h 0 (Nat.succ_pos _)
    have hrun : defineQuads os passOne allowUnaligned s (((l :: ls).take 1).map QuadLiteral.put) =
        .ok (r.1, r.2 ++ []) := defineQuads_cons.mpr ⟨r, (r.1, []), hr, rfl, rfl⟩
    have hstart : start = quadStart allowUnaligned s := by
      have := hindex _ hrun
      change r.1.curIdx.toNat = _ at this
      omega
    have hword : w = l.word := by
      refine @eq_of_dataBytes 8 (Nat.le_refl 8) w l.word fun j hj => ?_
      change (dataBytes 8 (w.setWidth 64))[j]? = (dataBytes 8 (l.word.setWidth 64))[j]?
      rw [BitVec.setWidth_eq, BitVec.setWidth_eq, ← hbytes j hj, hstart]
      exact hfirst j hj
    exact ⟨⟨hstart, hword⟩, (hrest hstart).mpr fun k hk => h (k + 1) (Nat.succ_lt_succ hk)⟩
  · rintro ⟨⟨hstart, hword⟩, h⟩ k hk
    cases k with
    | zero =>
      refine ⟨fun j hj => ?_, fun t ht => ?_⟩
      · change u.1.image[quadStart allowUnaligned s + 0 + j]? = _
        rw [Nat.add_zero, ← hstart, hbytes j hj, hword]
        rfl
      · rw [List.take_succ_cons, List.map_cons] at ht
        obtain ⟨r', t', hr', ht', rfl⟩ := defineQuads_cons.mp ht
        obtain rfl := Except.ok.inj (hr.symm.trans hr')
        obtain rfl := Except.ok.inj ht'
        change r.1.curIdx.toNat = _
        omega
    | succ k => exact (hrest hstart).mp h k (Nat.lt_of_succ_lt_succ hk)

theorem ensures_defineQuads_right_iff (ls : List QuadLiteral) (hs : s.Sound) (hinit : s.noInit = false)
    (hroom : quadStart allowUnaligned s + 8 * ls.length < 2 ^ 32)
    (hreturns : defineQuads os passOne allowUnaligned s (ls.map QuadLiteral.put) ≠ .error .message) :
    Ensures (defineQuads os passOne allowUnaligned s (ls.map QuadLiteral.put))
        (fun r => QuadsRight os passOne allowUnaligned s ls r.1) ↔
      QuadsLegible allowUnaligned s.curIdx.toNat ls := by
  induction ls generalizing s with
  | nil => exact iff_of_true (ensures_ok.mpr fun k hk => absurd hk (Nat.not_lt_zero k)) trivial
  | cons l ls ih =>
    rw [List.length_cons] at hroom
    have hone : Ensures (defineQuad os passOne allowUnaligned s l.put) _ :=
      ensures_defineQuad_put hs hinit l (by omega)
    obtain hmessage | ⟨r, hr, start, w, hput, hge, hle, hright⟩ := hone
    · refine absurd ?_ hreturns
      rw [List.map_cons, defineQuads, hmessage]
      rfl
    · have hnext := quadStart_le hput hle
      have hroom' : quadStart allowUnaligned r.1 + 8 * ls.length < 2 ^ 32 := by omega
      have hrun : defineQuads os passOne allowUnaligned s ((l :: ls).map QuadLiteral.put) =
          defineQuads os passOne allowUnaligned r.1 (ls.map QuadLiteral.put) >>= fun r' =>
            pure (r'.1, r.2 ++ r'.2) := by
        rw [List.map_cons, defineQuads, hr]
        rfl
      rw [hrun] at hreturns ⊢
      have hreturns' : defineQuads os passOne allowUnaligned r.1 (ls.map QuadLiteral.put) ≠ .error .message := by
        intro h
        rw [h] at hreturns
        exact hreturns rfl
      have hothers : Ensures (defineQuads os passOne allowUnaligned r.1 (ls.map QuadLiteral.put)) _ :=
        ensures_defineQuads ls hput.sound hput.noInit hroom'
      obtain hmessage | ⟨u, hu, hsame⟩ := hothers
      · exact absurd hmessage hreturns'
      · have hih := ih hput.sound hput.noInit hroom' hreturns'
        rw [hu, ensures_ok] at hih
        rw [hu, ok_bind, ensures_pure]
        change QuadsRight os passOne allowUnaligned s (l :: ls) u.1 ↔ _
        rw [quadsRight_cons hr hput hsame, hright, hih]
        refine and_congr_right fun hl => quadsLegible_next (fun hallow => ?_) ls
        -- the first operand stands where it is to stand, so the index is aligned behind it
        rw [hput.curIdx, (hright.mpr hl).1]
        unfold quadStart alignUp
        rw [hallow, if_neg Bool.false_ne_true]
        omega

theorem mapM_value (strtod : Name → ARMFloat × Nat) (ops : DoubleOps) (heap : SymHeap) (phase : Phase)
    {ls : List QuadLiteral} (hlegal : ∀ l ∈ ls, l.Legal) :
    ls.mapM (QuadLiteral.value strtod ops heap phase) = some (ls.map QuadLiteral.put) := by
  induction ls with
  | nil => rfl
  | cons l ls ih =>
    rw [List.mapM_cons, QuadLiteral.value_eq strtod ops heap phase (hlegal l (List.mem_cons_self ..)),
      ih fun m hm => hlegal m (List.mem_cons_of_mem l hm)]
    rfl

/-- **DCQ and DCQU**: every operand comes out as the eight bytes of its value, in order and aligned, just if
no operand is a negated literal below 2^32 other than 0, and the first one is 64-bit or stands where no
alignment is missing. -/
theorem defineQuads_right_iff (hs : s.Reached) (hinit : s.noInit = false) (strtod : Name → ARMFloat × Nat)
    (ops : DoubleOps) (heap : SymHeap) (phase : Phase) (ls : List QuadLiteral) (hlegal : ∀ l ∈ ls, l.Legal)
    {values : List Value} (hvalues : ls.mapM (QuadLiteral.value strtod ops heap phase) = some values)
    (hroom : quadStart allowUnaligned s + 8 * ls.length < 2 ^ 32)
    (hreturns : defineQuads os passOne allowUnaligned s values ≠ .error .message) :
    Ensures (defineQuads os passOne allowUnaligned s values)
        (fun r => QuadsRight os passOne allowUnaligned s ls r.1) ↔
      QuadsLegible allowUnaligned s.curIdx.toNat ls := by
  have hput : values = ls.map QuadLiteral.put :=
    Option.some.inj (hvalues.symm.trans (mapM_value strtod ops heap phase hlegal))
  rw [hput] at hreturns ⊢
  exact ensures_defineQuads_right_iff ls hs.sound hinit hroom hreturns

def oneDigit (neg : Bool) (digit : UInt8) : QuadLiteral := ⟨neg, 10, [digit], []⟩

theorem oneDigit_legal (neg : Bool) : (oneDigit neg 0x31).Legal := by
  have hbase : SupportedBase 10 := Or.inl (by decide)
  have hdigits : DigitString 10 [0x31] [] := ⟨by decide, by decide +kernel, nofun, rfl⟩
  refine ⟨hbase, hdigits, ?_⟩
  cases neg <;> decide +kernel

theorem defineQuads_right_iff_one :
    let s := areaCreate false false
    let ls := [oneDigit false 0x31]
    let x := defineQuads (reallocUpTo 8) true false s (ls.map QuadLiteral.put)
    Ensures x (fun r => QuadsRight (reallocUpTo 8) true false s ls r.1) ↔ QuadsLegible false s.curIdx.toNat ls :=
  defineQuads_right_iff (.create false false) rfl (fun _ => (0, 0)) zeroOps absHeap .passOne [oneDigit false 0x31]
    (fun l hl => List.mem_singleton.mp hl ▸ oneDigit_legal false)
    (mapM_value _ _ _ _ fun l hl => List.mem_singleton.mp hl ▸ oneDigit_legal false) (by decide) (by decide +kernel)

/-- `DCQ -1` gives the bytes of 2^32 - 1. -/
theorem not_defineQuads_right :
    ¬ ∀ (s : AreaImage) (os : Realloc) (ls : List QuadLiteral) (values : List Value), s.Reached →
      s.noInit = false → (∀ l ∈ ls, l.Legal) →
      ls.mapM (QuadLiteral.value (fun _ => (0, 0)) zeroOps absHeap .passOne) = some values →
      quadStart false s + 8 * ls.length < 2 ^ 32 → defineQuads os true false s values ≠ .error .message →
        Ensures (defineQuads os true false s values) fun r => QuadsRight os true false s ls r.1 := by
  intro h
  have hlegal : ∀ l ∈ [oneDigit true 0x31], l.Legal := fun l hl => List.mem_singleton.mp hl ▸ oneDigit_legal true
  have hreturns : defineQuads (reallocUpTo 8) true false (areaCreate false false)
      ([oneDigit true 0x31].map QuadLiteral.put) ≠ .error .message := by decide +kernel
  have hright := h (areaCreate false false) (reallocUpTo 8) [oneDigit true 0x31] _ (.create false false) rfl hlegal
    (mapM_value _ _ _ _ hlegal) (by decide) hreturns
  have hiff := ensures_defineQuads_right_iff _ (sound_areaCreate false false) rfl (by decide) hreturns
  obtain ⟨hlegible, -⟩ := hiff.mp hright
  obtain hbig | ⟨hneg | hzero, -⟩ := hlegible
  · exact absurd hbig (by decide +kernel)
  · exact nomatch hneg
  · exact absurd hzero (by decide +kernel)

end Asasm
