import Gccsdk.Asasm.Lex
import Gccsdk.Lib.Numeral

/-!
# Number literals

`Lex_GetIntOrFloat` of `lex.c`, which reads an integer or a floating-point literal behind its base
indication. The digits of an integer are accumulated in 64 bits, with a test for an overflow at each
digit (`Numeral.accumulate`). `strtod` is a parameter: it gives a number and how many characters of the
literal it has taken.

The test misses overflows, as `res * base` may wrap to a greater word; and it is not looked at when
what is left of the number fits in 32 bits. `lexGetIntOrFloat_right_iff` says for which digits the
token is the number that they denote or an overflow is reported.
-/

namespace Asasm

/-- `isdigit`, -/
def isdigit (c : UInt8) : Bool := 0x30 ≤ c && c ≤ 0x39

/-- and `isxdigit`. -/
def isxdigit (c : UInt8) : Bool := isdigit c || (0x41 ≤ c && c ≤ 0x46) || (0x61 ≤ c && c ≤ 0x66)

def lexDigitVal (c : UInt8) : Nat := c.toNat - (if 0x61 ≤ c then 0x61 - 10 else 0x30)

def isLexDigit (base : Nat) (c : UInt8) : Bool :=
  isxdigit (tolower c) && decide (lexDigitVal (tolower c) < base)

structure LexDigits where
  res : BitVec 64
  didOverflow : Bool
  atLeastOneDigit : Bool
  rest : Text
  deriving DecidableEq, Repr

/-- **The loop over the digits.** -/
def lexDigits (base : Nat) (res : BitVec 64) (didOverflow atLeastOneDigit : Bool) :
    Text → LexDigits
  | [] => ⟨res, didOverflow, atLeastOneDigit, []⟩
  | c :: text =>
    if isLexDigit base c then
      let resNext := res * BitVec.ofNat 64 base + BitVec.ofNat 64 (lexDigitVal (tolower c))
      lexDigits base resNext (didOverflow || decide (resNext < res)) true text
    else ⟨res, didOverflow, atLeastOneDigit, c :: text⟩

def isExponentMark (c : UInt8) : Bool := c = 0x45 || c = 0x65 || c = 0x50 || c = 0x70

def startsFloat : Text → Bool
  | [] => false
  | c :: _ => tolower c = 0x2E || isExponentMark (tolower c)

/-- The end of a floating-point literal, from behind the digits in front of the dot. -/
def lexFloatEnd (base : Nat) (text : Text) : Text :=
  let text := match inputMatch 0x2E text with
    | some rest => rest.dropWhile (if base = 10 then isdigit else isxdigit)
    | none => text
  match text with
  | [] => []
  | c :: rest =>
    if isExponentMark c then
      let rest := match inputMatch 0x2D rest with
        | some rest => rest
        | none => (inputMatch 0x2B rest).getD rest
      rest.dropWhile isdigit
    else c :: rest

section Literal

variable (strtod : Name → ARMFloat × Nat)

/-- The floating-point branch: `text` starts at the mark, `rest` is behind the digits. -/
def lexFloatLiteral (base : Nat) (text rest : Text) : Lex × Text × List Diag :=
  let markEnd := lexFloatEnd base rest
  let fltLiteral := (if base = 10 then [] else cstr "0x") ++ text.take (text.length - markEnd.length)
  let (d, taken) := strtod fltLiteral
  if taken ≠ fltLiteral.length then
    (.none, markEnd, [⟨.error, "Failed to read floating point value", []⟩])
  else (.float d, markEnd, [])

def overflowWarning : Diag := ⟨.warning, "64-bit integer overflow", []⟩

def lexInteger (digits : LexDigits) : Lex × Text × List Diag :=
  if !digits.atLeastOneDigit then (.none, digits.rest, [])
  else if digits.res.toNat ≤ 0xFFFFFFFF then (.int (digits.res.setWidth 32), digits.rest, [])
  else (.int64 digits.res, digits.rest, if digits.didOverflow then [overflowWarning] else [])

/-- **`Lex_GetIntOrFloat`**: the token, what is left of the line, and the messages. -/
def lexGetIntOrFloat (base : Nat) (text : Text) : Option (Lex × Text × List Diag) := do
  assert (decide ((2 ≤ base ∧ base ≤ 10) ∨ base = 16))
  let digits := lexDigits base 0 false false text
  if startsFloat digits.rest then
    if base ≠ 10 ∧ base ≠ 16 then
      some (.none, digits.rest,
        [⟨.error, "No base 10 or 16 floating-point literal is not supported", []⟩])
    else some (lexFloatLiteral strtod base text digits.rest)
  else some (lexInteger digits)

end Literal

/-! ### Integers -/

/-- The bases of the language: decimal, `&` and `0x`, and `2_` to `9_`. -/
def SupportedBase (base : Nat) : Prop := (2 ≤ base ∧ base ≤ 10) ∨ base = 16

def numberOf (base : Nat) (digits : Text) : Nat :=
  Numeral.value base (digits.map fun c => lexDigitVal (tolower c))

/-- **A string of digits**, with what follows in the line. -/
structure DigitString (base : Nat) (digits rest : Text) : Prop where
  nonempty : digits ≠ []
  digit : ∀ c ∈ digits, isLexDigit base c = true
  /-- There are no more digits, -/
  ends : ∀ c ∈ rest.head?, isLexDigit base c = false
  /-- and the literal is no floating-point one. -/
  integer : startsFloat rest = false

def Lex.number? : Lex → Option Nat
  | .int value => some value.toNat
  | .int64 value => some value.toNat
  | _ => Option.none

/-- **The right token**: an integer token with the number `n`, or a report of an overflow. -/
def NumberRight (out : Option (Lex × Text × List Diag)) (n : Nat) : Prop :=
  ∃ lex rest diags, out = some (lex, rest, diags) ∧ (lex.number? = some n ∨ overflowWarning ∈ diags)

variable {base : Nat} {digits rest : Text}

private theorem lexDigits_append (hdigit : ∀ c ∈ digits, isLexDigit base c = true)
    (hends : ∀ c ∈ rest.head?, isLexDigit base c = false) :
    ∀ (res : BitVec 64) (didOverflow atLeastOneDigit : Bool),
      lexDigits base res didOverflow atLeastOneDigit (digits ++ rest)
        = ⟨((digits.map fun c => lexDigitVal (tolower c)).foldl
              (Numeral.accumulate (BitVec.ofNat 64 base)) (res, didOverflow)).1,
            ((digits.map fun c => lexDigitVal (tolower c)).foldl
              (Numeral.accumulate (BitVec.ofNat 64 base)) (res, didOverflow)).2,
            atLeastOneDigit || !digits.isEmpty, rest⟩ := by
  induction digits with
  | nil =>
    intro res didOverflow atLeastOneDigit
    rw [List.nil_append, List.isEmpty_nil, Bool.not_true, Bool.or_false]
    cases rest with
    | nil => rfl
    | cons c rest =>
      rw [lexDigits, hends c (by simp)]
      rfl
  | cons c digits ih =>
    intro res didOverflow atLeastOneDigit
    rw [List.cons_append, lexDigits, if_pos (hdigit c (by simp)),
      ih (fun c hc => hdigit c (List.mem_cons_of_mem _ hc))]
    simp [Numeral.accumulate]

theorem lexDigits_digitString (h : DigitString base digits rest) :
    lexDigits base 0 false false (digits ++ rest)
      = ⟨BitVec.ofNat 64 (numberOf base digits),
          decide (Numeral.Drops 64 base (digits.map fun c => lexDigitVal (tolower c))), true, rest⟩ := by
  have hne : digits.isEmpty = false := List.isEmpty_eq_false_iff.mpr h.nonempty
  rw [lexDigits_append h.digit h.ends, Numeral.accumulate_eq, hne]
  rfl

/-- The integer branch gives the right token when the number fits; when it does not, the overflow has to
be found and looked at. -/
private theorem lexInteger_right_iff (n : Nat) (dropped : Bool) (rest : Text) :
    NumberRight (some (lexInteger ⟨BitVec.ofNat 64 n, dropped, true, rest⟩)) n
      ↔ n < 2 ^ 64 ∨ (2 ^ 32 ≤ n % 2 ^ 64 ∧ dropped = true) := by
  have hnat : (BitVec.ofNat 64 n).toNat = n % 2 ^ 64 := BitVec.toNat_ofNat n 64
  by_cases hsmall : n % 2 ^ 64 ≤ 0xFFFFFFFF
  · -- a 32-bit token, without a look at the overflow
    have hint : lexInteger ⟨BitVec.ofNat 64 n, dropped, true, rest⟩
        = (.int ((BitVec.ofNat 64 n).setWidth 32), rest, []) := by
      rw [lexInteger, if_neg (by simp), if_pos (by rwa [hnat])]
    have hword : ((BitVec.ofNat 64 n).setWidth 32).toNat = n % 2 ^ 64 := by
      rw [BitVec.toNat_setWidth, hnat]
      exact Nat.mod_eq_of_lt (by omega)
    rw [hint]
    constructor
    · rintro ⟨lex, rest', diags, heq, hright⟩
      cases heq
      obtain hright | hright := hright
      · left
        rw [Lex.number?, hword, Option.some.injEq] at hright
        omega
      · cases hright
    · rintro (hfits | ⟨hlarge, -⟩)
      · refine ⟨_, _, _, rfl, Or.inl ?_⟩
        rw [Lex.number?, hword, Nat.mod_eq_of_lt hfits]
      · omega
  · have hint : lexInteger ⟨BitVec.ofNat 64 n, dropped, true, rest⟩
        = (.int64 (BitVec.ofNat 64 n), rest, if dropped then [overflowWarning] else []) := by
      rw [lexInteger, if_neg (by simp), if_neg (by rwa [hnat])]
    rw [hint]
    constructor
    · rintro ⟨lex, rest', diags, heq, hright⟩
      cases heq
      obtain hright | hright := hright
      · left
        rw [Lex.number?, hnat, Option.some.injEq] at hright
        omega
      · right
        cases dropped with
        | true => exact ⟨by omega, rfl⟩
        | false => cases hright
    · rintro (hfits | ⟨-, hdropped⟩)
      · refine ⟨_, _, _, rfl, Or.inl ?_⟩
        rw [Lex.number?, hnat, Nat.mod_eq_of_lt hfits]
      · refine ⟨_, _, _, rfl, Or.inr ?_⟩
        rw [if_pos hdropped]
        exact List.mem_singleton.mpr rfl

/-- **The token is right** just if the number fits in 64 bits, or what is left of it does not fit in 32 bits
and some beginning of the digits has a number less than the one before, both modulo `2 ^ 64`. -/
theorem lexGetIntOrFloat_right_iff (strtod : Name → ARMFloat × Nat) (base : Nat) (digits rest : Text)
    (hbase : SupportedBase base) (h : DigitString base digits rest) :
    NumberRight (lexGetIntOrFloat strtod base (digits ++ rest)) (numberOf base digits)
      ↔ numberOf base digits < 2 ^ 64
        ∨ (2 ^ 32 ≤ numberOf base digits % 2 ^ 64
          ∧ ∃ k, k < digits.length
            ∧ numberOf base (digits.take (k + 1)) % 2 ^ 64
              < numberOf base (digits.take k) % 2 ^ 64) := by
  have hassert : assert (decide ((2 ≤ base ∧ base ≤ 10) ∨ base = 16)) = some () :=
    assert_eq_some.mpr (decide_eq_true hbase)
  have hrun : lexGetIntOrFloat strtod base (digits ++ rest)
      = some (lexInteger ⟨BitVec.ofNat 64 (numberOf base digits),
          decide (Numeral.Drops 64 base (digits.map fun c => lexDigitVal (tolower c))), true, rest⟩) := by
    rw [lexGetIntOrFloat, hassert, lexDigits_digitString h]
    simp only [h.integer]
    rfl
  have hdrops : Numeral.Drops 64 base (digits.map fun c => lexDigitVal (tolower c))
      ↔ ∃ k, k < digits.length ∧ numberOf base (digits.take (k + 1)) % 2 ^ 64
        < numberOf base (digits.take k) % 2 ^ 64 := by
    unfold Numeral.Drops numberOf
    rw [List.length_map]
    simp only [List.map_take]
  rw [hrun, lexInteger_right_iff, decide_eq_true_iff, hdrops]

theorem lexGetIntOrFloat_right_iff_42 : SupportedBase 10 ∧ DigitString 10 (cstr "42") []
    ∧ (NumberRight (lexGetIntOrFloat (fun _ => (0, 0)) 10 (cstr "42" ++ [])) (numberOf 10 (cstr "42"))
      ↔ numberOf 10 (cstr "42") < 2 ^ 64
        ∨ (2 ^ 32 ≤ numberOf 10 (cstr "42") % 2 ^ 64
          ∧ ∃ k, k < (cstr "42").length
            ∧ numberOf 10 ((cstr "42").take (k + 1)) % 2 ^ 64
              < numberOf 10 ((cstr "42").take k) % 2 ^ 64)) := by
  have hbase : SupportedBase 10 := Or.inl (by decide)
  have h : DigitString 10 (cstr "42") [] :=
    ⟨by decide, by decide +kernel, by decide +kernel, rfl⟩
  exact ⟨hbase, h, lexGetIntOrFloat_right_iff (fun _ => (0, 0)) 10 (cstr "42") [] hbase h⟩

/-- The number `2 ^ 64` in decimal is read as 0, without a message. -/
theorem lexGetIntOrFloat_wraps : SupportedBase 10 ∧ DigitString 10 (cstr "18446744073709551616") []
    ∧ ¬ NumberRight (lexGetIntOrFloat (fun _ => (0, 0)) 10 (cstr "18446744073709551616" ++ []))
      (numberOf 10 (cstr "18446744073709551616")) := by
  have hrun : lexGetIntOrFloat (fun _ => (0, 0)) 10 (cstr "18446744073709551616" ++ [])
      = some (.int 0, [], []) := by decide +kernel
  have hnumber : numberOf 10 (cstr "18446744073709551616") = 2 ^ 64 := by decide +kernel
  refine ⟨Or.inl (by decide), ⟨by decide, by decide +kernel, by decide +kernel, rfl⟩, ?_⟩
  rw [hrun, hnumber]
  rintro ⟨lex, rest, diags, heq, hright⟩
  cases heq
  obtain hright | hright := hright
  · exact absurd (Option.some.inj hright) (by decide)
  · cases hright

end Asasm
