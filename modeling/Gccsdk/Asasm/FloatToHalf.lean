import Gccsdk.Asasm.Global
import Gccsdk.Lib.RoundEven
import Mathlib.Data.BitVec
import Mathlib.Algebra.Order.Ring.Rat
import Mathlib.Data.Nat.Bitwise

/-!
# Half-precision numbers

`FloatToHalf` of `put.c` makes a number of half precision from one of single precision, both as bit
patterns. The magnitudes of half precision are numbered by their patterns, up to `0x7C00` for infinity, which
stands at 2^16 when a number is rounded (`halfValue`).

`floatToHalf_right_iff`: the result is the correctly rounded one for every number, infinities stay, and a NaN
stays one unless only the bits of its mantissa that are cut off are set.
-/

namespace Asasm

open RoundEven

/-! ### The function -/

/-- `1 << n`, which C leaves open from 31 on. -/
def oneShl (openShift : ℕ → BitVec 32) (n : ℕ) : BitVec 32 :=
  if n < 31 then (1 : BitVec 32) <<< n else openShift n

def evenOddAdd (mantissa hp_lsb : BitVec 32) : BitVec 32 :=
  let add := hp_lsb >>> 1
  -- in the middle that is the last bit which stays
  if mantissa &&& (hp_lsb - 1) = add then mantissa &&& hp_lsb else add

/-- The end of `FloatToHalf`: overflow, underflow and the word of the number. -/
def packHalf (neg : BitVec 32) (exp : ℤ) (mantissa : BitVec 32) (ieee : Bool) : BitVec 32 :=
  if ieee ∧ 15 < exp then neg ||| 0x7C00
  else if ¬ ieee ∧ 16 < exp then neg ||| 0x7FFF
  else if exp < -14 - 10 then neg
  else
    let (exp, mantissa) := if exp < -14 then (-14, mantissa >>> (-14 - exp).toNat) else (exp, mantissa)
    neg ||| ((BitVec.ofInt 32 (exp + 15 - 1)) <<< 10 + mantissa >>> 13)

def roundToHalf (openShift : ℕ → BitVec 32) (neg : BitVec 32) (exp : ℤ) (mantissa : BitVec 32)
    (ieee : Bool) : BitVec 32 :=
  let hp_lsb := if exp < -14 then oneShl openShift (-exp - 1).toNat else (1 : BitVec 32) <<< (23 - 10)
  let mantissa := mantissa + evenOddAdd mantissa hp_lsb
  if (1 : BitVec 32) <<< 24 ≤ mantissa then packHalf neg (exp + 1) (mantissa >>> 1) ieee
  else packHalf neg exp mantissa ieee

/-- `iflt.ieee.exponent`. -/
def singleExponent (flt : BitVec 32) : BitVec 32 := (flt >>> 23) &&& 0xFF

/-- `iflt.ieee.mantissa`. -/
def singleMantissa (flt : BitVec 32) : BitVec 32 := flt &&& 0x7FFFFF

/-- **`FloatToHalf`**, with its message. -/
def floatToHalf (openShift : ℕ → BitVec 32) (flt : BitVec 32) (ieee : Bool) : BitVec 16 × List Diag :=
  let neg := (flt >>> 31) <<< 15
  let exp := singleExponent flt
  let mantissa := singleMantissa flt
  if exp = 0xFF then
    if ieee then ((neg ||| (0x7C00 : BitVec 32) ||| mantissa >>> (23 - 10)).setWidth 16, [])
    else ((if mantissa ≠ 0 then 0 else neg ||| 0x7FFF).setWidth 16,
      [⟨.warning, "ARM alternative half-precision format can not represent INF or NaN", []⟩])
  else if exp = 0 ∧ mantissa = 0 then (neg.setWidth 16, [])
  else
    -- the implicit significant bit, and the exponent without its bias
    let mantissa := mantissa ||| (1 : BitVec 32) <<< 23
    ((roundToHalf openShift neg ((exp.toNat : ℤ) - 127) mantissa ieee).setWidth 16, [])

/-! ### The formats -/

def halfUnits (n : ℕ) : ℕ := if n < 1024 then n else (1024 + n % 1024) * 2 ^ (n / 1024 - 1)

/-- **The magnitude of a half-precision pattern**; `0x7C00` stands at 2^16. -/
def halfValue (n : ℕ) : ℚ := halfUnits n / 2 ^ 24

/-- **The magnitude of a single-precision pattern** that is a number. -/
def singleValue (flt : BitVec 32) : ℚ :=
  if singleExponent flt = 0 then (singleMantissa flt).toNat / 2 ^ 149
  else (2 ^ 23 + (singleMantissa flt).toNat) * 2 ^ ((singleExponent flt).toNat - 1) / 2 ^ 149

def halfMagnitude (h : BitVec 16) : ℕ := (h.setWidth 15).toNat

def isHalfNaN (h : BitVec 16) : Bool := 0x7C00 < halfMagnitude h

/-- **The right result**: a NaN for a NaN; otherwise the same sign, infinity for infinity, and for a number
the pattern nearest to it. -/
def ConvertsRight (flt : BitVec 32) (h : BitVec 16) : Prop :=
  if singleExponent flt = 0xFF ∧ singleMantissa flt ≠ 0 then isHalfNaN h = true
  else h.msb = flt.msb
    ∧ if singleExponent flt = 0xFF then halfMagnitude h = 0x7C00
      else IsNearestEven halfValue 0x7C00 (singleValue flt) (halfMagnitude h)

theorem halfValue_strictMono : StrictMono halfValue := by
  have hunits : StrictMono halfUnits := by
    refine strictMono_nat_of_lt_succ fun n => ?_
    unfold halfUnits
    by_cases hlow : n + 1 < 1024
    · rw [if_pos hlow, if_pos (by omega)]
      exact Nat.lt_succ_self n
    · rw [if_neg hlow]
      by_cases hn : n < 1024
      · obtain rfl : n = 1023 := by omega
        decide
      · rw [if_neg hn]
        by_cases hlast : n % 1024 = 1023
        · -- the first pattern with the next exponent
          have hmod : (n + 1) % 1024 = 0 := by omega
          have hdiv : (n + 1) / 1024 - 1 = n / 1024 - 1 + 1 := by omega
          rw [hmod, hdiv, hlast, pow_succ]
          have hpos := Nat.two_pow_pos (n / 1024 - 1)
          omega
        · have hmod : (n + 1) % 1024 = n % 1024 + 1 := by omega
          have hdiv : (n + 1) / 1024 = n / 1024 := by omega
          rw [hmod, hdiv]
          exact Nat.mul_lt_mul_of_pos_right (by omega) (Nat.two_pow_pos _)
  intro a b hab
  unfold halfValue
  exact div_lt_div_of_pos_right (Nat.cast_lt.mpr (hunits hab)) (by norm_num)

/-! ### The grids of half precision -/

theorem halfUnits_normal {k q : ℕ} (hq : 1024 ≤ q) (hq' : q ≤ 2048) :
    halfUnits (k * 1024 + q) = q * 2 ^ k := by
  rw [halfUnits, if_neg (by omega)]
  obtain hlt | rfl := Nat.lt_or_eq_of_le hq'
  · rw [show (k * 1024 + q) % 1024 = q - 1024 by omega, show (k * 1024 + q) / 1024 - 1 = k by omega,
      show 1024 + (q - 1024) = q by omega]
  · rw [show (k * 1024 + 2048) % 1024 = 0 by omega, show (k * 1024 + 2048) / 1024 - 1 = k + 1 by omega,
      pow_succ]
    ring

theorem halfUnits_subnormal {q : ℕ} (hq : q ≤ 1024) : halfUnits q = q := by
  obtain hlt | rfl := Nat.lt_or_eq_of_le hq
  · rw [halfUnits, if_pos hlt]
  · rfl

section Nearest

variable {m x : ℕ}

theorem isNearest_normal (hm : 2 ^ 23 ≤ m) (hm' : m < 2 ^ 24) (hx : x ≤ 29) :
    IsNearestEven halfValue 0x7C00 ((m : ℚ) * 2 ^ (x + 112) / 2 ^ 149)
      (x * 1024 + halfEven m (2 ^ 13)) := by
  have hq : 1024 ≤ m / 2 ^ 13 ∧ m / 2 ^ 13 < 2048 := by omega
  have hv : (m : ℚ) * 2 ^ (x + 112) / 2 ^ 149 = m / (2 ^ 13 : ℕ) * (2 ^ x / 2 ^ 24) := by
    rw [pow_add]
    push_cast
    ring
  have hvalue : ∀ q, 1024 ≤ q → q ≤ 2048 → halfValue (x * 1024 + q) = q * (2 ^ x / 2 ^ 24) := by
    intro q hq hq'
    rw [halfValue, halfUnits_normal hq hq']
    push_cast
    ring
  rw [hv]
  refine isNearestEven_grid halfValue_strictMono (by decide) (by positivity) ?_ (by omega)
    (hvalue _ hq.1 hq.2.le) ?_
  · exact Nat.even_iff.mpr (by omega)
  · rw [add_assoc, hvalue _ (by omega) hq.2]
    push_cast
    rfl

theorem isNearest_subnormal {s : ℕ} (hm : m < 2 ^ (s + 10)) (hx : s + x = 125) :
    IsNearestEven halfValue 0x7C00 ((m : ℚ) * 2 ^ x / 2 ^ 149) (halfEven m (2 ^ s)) := by
  have hq : m / 2 ^ s < 1024 := by
    rw [Nat.div_lt_iff_lt_mul (Nat.two_pow_pos s), Nat.mul_comm]
    rwa [pow_add] at hm
  have hv : (m : ℚ) * 2 ^ x / 2 ^ 149 = m / (2 ^ s : ℕ) * (1 / 2 ^ 24) := by
    have hpow : (2 : ℚ) ^ 149 = 2 ^ s * 2 ^ x * 2 ^ 24 := by
      rw [← pow_add, hx, ← pow_add]
    rw [hpow]
    push_cast
    field_simp
  have hvalue : ∀ q, q ≤ 1024 → halfValue q = q * (1 / 2 ^ 24) := by
    intro q hq
    rw [halfValue, halfUnits_subnormal hq]
    ring
  rw [hv]
  have hgrid : IsNearestEven halfValue 0x7C00 ((m : ℚ) / (2 ^ s : ℕ) * (1 / 2 ^ 24))
      (0 + halfEven m (2 ^ s)) := by
    refine isNearestEven_grid halfValue_strictMono (Nat.two_pow_pos s) (by positivity)
      (Nat.even_iff.mpr (Nat.zero_mod 2)) (by omega) ?_ ?_
    · rw [zero_add]
      exact hvalue _ hq.le
    · rw [zero_add, hvalue _ hq]
      push_cast
      rfl
  rwa [zero_add] at hgrid

theorem isNearest_overflow (hm : 2 ^ 23 ≤ m) (hx : 142 ≤ x) :
    IsNearestEven halfValue 0x7C00 ((m : ℚ) * 2 ^ x / 2 ^ 149) 0x7C00 := by
  refine isNearestEven_top halfValue_strictMono ?_
  have htop : halfValue 0x7C00 = (2 ^ 23 : ℕ) * 2 ^ 142 / 2 ^ 149 := by
    rw [halfValue, show halfUnits 0x7C00 = 2 ^ 40 from rfl]
    norm_num
  rw [htop]
  refine div_le_div_of_nonneg_right ?_ (by positivity)
  exact mul_le_mul (Nat.cast_le.mpr hm) (pow_le_pow_right₀ (by norm_num) hx) (by positivity)
    (Nat.cast_nonneg m)

end Nearest

/-! ### The words of the function -/

section Words

variable {openShift : ℕ → BitVec 32} {neg mantissa : BitVec 32} {exp : ℤ} {s : ℕ}

theorem toNat_one_shl (hs : s < 32) : ((1 : BitVec 32) <<< s).toNat = 2 ^ s := by
  rw [BitVec.toNat_shiftLeft, Nat.shiftLeft_eq, show (1 : BitVec 32).toNat = 1 from rfl, Nat.one_mul,
    Nat.mod_eq_of_lt (Nat.pow_lt_pow_right (by decide) hs)]

theorem toNat_evenOddAdd (hs : 0 < s) (hs' : s < 32) :
    (evenOddAdd mantissa ((1 : BitVec 32) <<< s)).toNat
      = if mantissa.toNat % 2 ^ s = 2 ^ (s - 1) then mantissa.toNat / 2 ^ s % 2 * 2 ^ s else 2 ^ (s - 1) := by
  have hshl := toNat_one_shl hs'
  have hhalf : (((1 : BitVec 32) <<< s) >>> 1).toNat = 2 ^ (s - 1) := by
    rw [BitVec.toNat_ushiftRight, hshl, Nat.shiftRight_eq_div_pow, Nat.pow_div hs (by decide)]
  have hlow : (mantissa &&& ((1 : BitVec 32) <<< s - 1)).toNat = mantissa.toNat % 2 ^ s := by
    have hpos := Nat.two_pow_pos s
    have hone : (1 : BitVec 32) ≤ (1 : BitVec 32) <<< s := by
      rw [BitVec.le_def, hshl]
      exact hpos
    rw [BitVec.toNat_and, BitVec.toNat_sub_of_le hone, hshl, show (1 : BitVec 32).toNat = 1 from rfl,
      Nat.and_two_pow_sub_one_eq_mod]
  have hbit : (mantissa &&& (1 : BitVec 32) <<< s).toNat = mantissa.toNat / 2 ^ s % 2 * 2 ^ s := by
    rw [BitVec.toNat_and, hshl, Nat.and_two_pow, Nat.toNat_testBit]
  unfold evenOddAdd
  by_cases htie : mantissa.toNat % 2 ^ s = 2 ^ (s - 1)
  · rw [if_pos htie, if_pos (BitVec.eq_of_toNat_eq (by rw [hlow, hhalf, htie])), hbit]
  · rw [if_neg htie, if_neg (fun heq => htie (by rw [← hlow, heq, hhalf])), hhalf]

theorem toNat_rounded (hs : 0 < s) (hs' : s ≤ 24) (hm : mantissa.toNat < 2 ^ 24) :
    (mantissa + evenOddAdd mantissa ((1 : BitVec 32) <<< s)).toNat / 2 ^ s = halfEven mantissa.toNat (2 ^ s)
      ∧ (mantissa + evenOddAdd mantissa ((1 : BitVec 32) <<< s)).toNat ≤ mantissa.toNat + 2 ^ s := by
  have hadd : (evenOddAdd mantissa ((1 : BitVec 32) <<< s)).toNat = _ :=
    toNat_evenOddAdd hs (by omega)
  have hpow : 2 ^ s = 2 * 2 ^ (s - 1) := by
    rw [← Nat.pow_succ', Nat.succ_eq_add_one, Nat.sub_add_cancel hs]
  have hle24 : 2 ^ s ≤ 2 ^ 24 := Nat.pow_le_pow_right (by decide) hs'
  have hbound : (evenOddAdd mantissa ((1 : BitVec 32) <<< s)).toNat ≤ 2 ^ s := by
    rw [hadd]
    split
    · have hodd := Nat.mod_lt (mantissa.toNat / 2 ^ s) (by decide : 0 < 2)
      calc mantissa.toNat / 2 ^ s % 2 * 2 ^ s ≤ 1 * 2 ^ s := Nat.mul_le_mul_right _ (by omega)
        _ = 2 ^ s := Nat.one_mul _
    · omega
  have hsum : (mantissa + evenOddAdd mantissa ((1 : BitVec 32) <<< s)).toNat
      = mantissa.toNat + (evenOddAdd mantissa ((1 : BitVec 32) <<< s)).toNat := by
    rw [BitVec.toNat_add, Nat.mod_eq_of_lt]
    omega
  refine ⟨?_, by omega⟩
  have hhalf := add_half_div (Nat.two_pow_pos (s - 1)) mantissa.toNat
  rw [← hpow] at hhalf
  rw [hsum, hadd, hhalf]

/-- The pattern that `packHalf` makes. -/
def packCode (exp : ℤ) (m : ℕ) : ℕ :=
  if 15 < exp then 0x7C00
  else if exp < -24 then 0
  else if exp < -14 then m / 2 ^ (-14 - exp).toNat / 2 ^ 13
  else (exp + 14).toNat * 1024 + m / 2 ^ 13

theorem packHalf_eq (neg : BitVec 32) (exp : ℤ) (mantissa : BitVec 32) :
    packHalf neg exp mantissa true = neg ||| BitVec.ofNat 32 (packCode exp mantissa.toNat) := by
  unfold packHalf packCode
  by_cases hover : 15 < exp
  · rw [if_pos ⟨rfl, hover⟩, if_pos hover]
    rfl
  rw [if_neg (fun h => hover h.2), if_neg hover, if_neg (fun h => h.1 rfl)]
  by_cases hunder : exp < -24
  · rw [if_pos (by omega), if_pos hunder]
    exact (BitVec.or_zero).symm
  rw [if_neg (by omega), if_neg hunder]
  by_cases hsub : exp < -14
  · simp only [if_pos hsub]
    congr 1
    refine BitVec.eq_of_toNat_eq ?_
    have hzero : (BitVec.ofInt 32 (-14 + 15 - 1)) <<< 10 = 0#32 := by decide
    rw [hzero, BitVec.zero_add, BitVec.toNat_ushiftRight, BitVec.toNat_ushiftRight,
      Nat.shiftRight_eq_div_pow, Nat.shiftRight_eq_div_pow, BitVec.toNat_ofNat, Nat.mod_eq_of_lt]
    refine lt_of_le_of_lt (Nat.div_le_self _ _) (lt_of_le_of_lt (Nat.div_le_self _ _) mantissa.isLt)
  · simp only [if_neg hsub]
    congr 1
    obtain ⟨k, hk⟩ : ∃ k : ℕ, exp + 15 - 1 = k := ⟨(exp + 14).toNat, by omega⟩
    have hk' : (exp + 14).toNat = k := by omega
    have hlt : k ≤ 29 := by omega
    have hm := mantissa.isLt
    refine BitVec.eq_of_toNat_eq ?_
    rw [hk, hk', BitVec.ofInt_natCast, BitVec.toNat_add, BitVec.toNat_shiftLeft, BitVec.toNat_ofNat,
      BitVec.toNat_ushiftRight, Nat.shiftRight_eq_div_pow, BitVec.toNat_ofNat, Nat.shiftLeft_eq,
      Nat.mod_eq_of_lt (by omega : k < 2 ^ 32), Nat.mod_eq_of_lt (by omega : k * 2 ^ 10 < 2 ^ 32),
      show (2 : ℕ) ^ 10 = 1024 from rfl]

def roundCode (exp : ℤ) (m : ℕ) : ℕ :=
  if 15 < exp then 0x7C00
  else if exp < -25 then 0
  else if exp < -14 then halfEven m (2 ^ (-exp - 1).toNat)
  else (exp + 14).toNat * 1024 + halfEven m (2 ^ 13)

/-- **A normal result**: a carry out of the mantissa goes on into the exponent. -/
theorem packCode_normal {r : ℕ} (hexp : -14 ≤ exp) (hexp' : exp ≤ 15) (hr : r < 2 ^ 24 + 2 ^ 13) :
    (if 2 ^ 24 ≤ r then packCode (exp + 1) (r / 2) else packCode exp r)
      = (exp + 14).toNat * 1024 + r / 2 ^ 13 := by
  unfold packCode
  by_cases hcarry : 2 ^ 24 ≤ r
  · rw [if_pos hcarry]
    have hdiv : r / 2 ^ 13 = 2048 := by omega
    rw [hdiv]
    by_cases hlast : exp = 15
    · subst hlast
      rfl
    · rw [if_neg (by omega), if_neg (by omega), if_neg (by omega)]
      omega
  · rw [if_neg hcarry, if_neg (by omega), if_neg (by omega), if_neg (by omega)]

theorem packCode_subnormal {r s : ℕ} (hexp : exp = -1 - s) (hs : 14 ≤ s) (hs' : s ≤ 24)
    (hr : s = 14 → r < 2 ^ 24 + 2 ^ 14) :
    (if 2 ^ 24 ≤ r then packCode (exp + 1) (r / 2) else packCode exp r) = r / 2 ^ s := by
  subst hexp
  unfold packCode
  by_cases hcarry : 2 ^ 24 ≤ r
  · rw [if_pos hcarry, if_neg (by omega), if_neg (by omega)]
    by_cases hleast : s = 14
    · subst hleast
      rw [if_neg (by omega), Nat.div_div_eq_div_mul]
      omega
    · rw [if_pos (by omega), Nat.div_div_eq_div_mul, Nat.div_div_eq_div_mul,
        show (-14 - (-1 - (s : ℤ) + 1)).toNat = s - 14 by omega, ← pow_add, ← pow_succ',
        show s - 14 + 13 + 1 = s by omega]
  · rw [if_neg hcarry, if_neg (by omega)]
    by_cases hunder : s = 24
    · subst hunder
      rw [if_pos (by omega), Nat.div_eq_of_lt (by omega)]
    · rw [if_neg (by omega), if_pos (by omega), Nat.div_div_eq_div_mul, ← pow_add,
        show (-14 - (-1 - (s : ℤ))).toNat + 13 = s by omega]

theorem le_shl_iff : (1 : BitVec 32) <<< 24 ≤ mantissa ↔ 2 ^ 24 ≤ mantissa.toNat := by
  rw [BitVec.le_def, toNat_one_shl (by decide)]

theorem packHalf_carry (neg mantissa : BitVec 32) (exp : ℤ) :
    (if (1 : BitVec 32) <<< 24 ≤ mantissa then packHalf neg (exp + 1) (mantissa >>> 1) true
      else packHalf neg exp mantissa true)
      = neg ||| BitVec.ofNat 32 (if 2 ^ 24 ≤ mantissa.toNat then packCode (exp + 1) (mantissa.toNat / 2)
        else packCode exp mantissa.toNat) := by
  by_cases hcarry : (1 : BitVec 32) <<< 24 ≤ mantissa
  · rw [if_pos hcarry, if_pos (le_shl_iff.mp hcarry), packHalf_eq, BitVec.toNat_ushiftRight]
    rfl
  · rw [if_neg hcarry, if_neg (mt le_shl_iff.mpr hcarry), packHalf_eq]

/-- **The whole of it.** What is far below the least number becomes 0 whatever C makes of the shift. -/
theorem roundToHalf_eq (hm : 2 ^ 23 ≤ mantissa.toNat) (hm' : mantissa.toNat < 2 ^ 24) :
    roundToHalf openShift neg exp mantissa true
      = neg ||| BitVec.ofNat 32 (roundCode exp mantissa.toNat) := by
  unfold roundToHalf
  simp only
  rw [packHalf_carry]
  congr 2
  unfold roundCode
  by_cases hover : 15 < exp
  · have hpack : ∀ m, packCode (exp + 1) m = 0x7C00 ∧ packCode exp m = 0x7C00 := fun m =>
      ⟨if_pos (by omega), if_pos hover⟩
    rw [if_pos hover, (hpack _).1, (hpack _).2, ite_self]
  rw [if_neg hover]
  by_cases hunder : exp < -25
  · have hpack : ∀ m, packCode (exp + 1) m = 0 ∧ packCode exp m = 0 := by
      intro m
      unfold packCode
      rw [if_neg (by omega), if_pos (by omega), if_neg hover, if_pos (by omega)]
      exact ⟨rfl, rfl⟩
    rw [if_pos hunder, (hpack _).1, (hpack _).2, ite_self]
  rw [if_neg hunder]
  by_cases hsub : exp < -14
  · obtain ⟨s, hs⟩ : ∃ s : ℕ, exp = -1 - s := ⟨(-exp - 1).toNat, by omega⟩
    have hshl : oneShl openShift s = (1 : BitVec 32) <<< s := if_pos (by omega)
    rw [if_pos hsub, if_pos hsub, show (-exp - 1).toNat = s by omega, hshl]
    obtain ⟨hdiv, hle⟩ := toNat_rounded (by omega : 0 < s) (by omega) hm'
    have hleast : s = 14 → (mantissa + evenOddAdd mantissa ((1 : BitVec 32) <<< s)).toNat
        < 2 ^ 24 + 2 ^ 14 := by
      rintro rfl
      omega
    rw [packCode_subnormal hs (by omega) (by omega) hleast, hdiv]
  · rw [if_neg hsub, if_neg hsub, show 23 - 10 = 13 from rfl]
    obtain ⟨hdiv, hle⟩ := toNat_rounded (by decide : 0 < 13) (by decide) hm'
    rw [packCode_normal (by omega) (by omega) (by omega), hdiv]

end Words

/-! ### The result -/

section Result

variable {openShift : ℕ → BitVec 32} {flt : BitVec 32} {code : ℕ}

theorem signed_pattern (flt : BitVec 32) (hcode : code < 2 ^ 15) :
    (((flt >>> 31) <<< 15 ||| BitVec.ofNat 32 code).setWidth 16).msb = flt.msb
      ∧ halfMagnitude (((flt >>> 31) <<< 15 ||| BitVec.ofNat 32 code).setWidth 16) = code := by
  constructor
  · rw [BitVec.msb_eq_getLsbD_last, BitVec.getLsbD_setWidth, BitVec.getLsbD_or, BitVec.getLsbD_shiftLeft,
      BitVec.getLsbD_ushiftRight, BitVec.getLsbD_ofNat, Nat.testBit_lt_two_pow hcode,
      BitVec.msb_eq_getLsbD_last]
    simp
  · have hsign : ((flt >>> 31) <<< 15).setWidth 15 = 0#15 := by
      refine BitVec.eq_of_getLsbD_eq fun i hi => ?_
      rw [BitVec.getLsbD_setWidth, BitVec.getLsbD_shiftLeft, BitVec.getLsbD_zero]
      simp [hi]
    rw [halfMagnitude, BitVec.setWidth_setWidth_of_le _ (by decide), BitVec.setWidth_or, hsign,
      BitVec.zero_or, BitVec.toNat_setWidth, BitVec.toNat_ofNat, Nat.mod_eq_of_lt (by omega : code < 2 ^ 32),
      Nat.mod_eq_of_lt hcode]

theorem singleMantissa_lt (flt : BitVec 32) : (singleMantissa flt).toNat < 2 ^ 23 := by
  rw [singleMantissa, BitVec.toNat_and]
  exact lt_of_le_of_lt Nat.and_le_right (by decide)

theorem singleExponent_lt (flt : BitVec 32) : (singleExponent flt).toNat < 2 ^ 8 := by
  rw [singleExponent, BitVec.toNat_and]
  exact lt_of_le_of_lt Nat.and_le_right (by decide)

theorem toNat_implicit (flt : BitVec 32) :
    (singleMantissa flt ||| (1 : BitVec 32) <<< 23).toNat = 2 ^ 23 + (singleMantissa flt).toNat := by
  have hor := Nat.two_pow_add_eq_or_of_lt (singleMantissa_lt flt) 1
  rw [Nat.mul_one] at hor
  rw [BitVec.toNat_or, toNat_one_shl (by decide), Nat.or_comm, ← hor]

theorem toNat_special (mantissa : BitVec 32) (h : mantissa.toNat < 2 ^ 23) :
    (0x7C00 : BitVec 32) ||| mantissa >>> (23 - 10) = BitVec.ofNat 32 (0x7C00 + mantissa.toNat / 2 ^ 13) := by
  have hlow : mantissa.toNat / 2 ^ 13 < 2 ^ 10 := by omega
  have hor := Nat.shiftLeft_add_eq_or_of_lt hlow 31
  refine BitVec.eq_of_toNat_eq ?_
  rw [BitVec.toNat_or, BitVec.toNat_ushiftRight, Nat.shiftRight_eq_div_pow, BitVec.toNat_ofNat,
    Nat.mod_eq_of_lt (by omega)]
  exact hor.symm

theorem isNearest_roundCode (flt : BitVec 32) :
    IsNearestEven halfValue 0x7C00 (singleValue flt)
      (roundCode ((singleExponent flt).toNat - 127) (2 ^ 23 + (singleMantissa flt).toNat)) := by
  have hm := singleMantissa_lt flt
  have hx := singleExponent_lt flt
  unfold singleValue roundCode
  by_cases hzero : singleExponent flt = 0
  · -- a subnormal number of single precision is far below the least one of half precision
    rw [if_pos hzero, hzero]
    have hnear := isNearest_subnormal (m := (singleMantissa flt).toNat) (s := 125) (x := 0)
      (hm.trans (by norm_num)) rfl
    rw [halfEven_eq_zero (by omega), pow_zero, mul_one] at hnear
    exact hnear
  have hpos : 0 < (singleExponent flt).toNat :=
    Nat.pos_of_ne_zero fun h => hzero (BitVec.eq_of_toNat_eq h)
  rw [if_neg hzero]
  have hcast : (2 : ℚ) ^ 23 + (singleMantissa flt).toNat
      = ((2 ^ 23 + (singleMantissa flt).toNat : ℕ) : ℚ) := by
    push_cast
    rfl
  rw [hcast]
  generalize (singleExponent flt).toNat = x at hx hpos
  generalize hsum : 2 ^ 23 + (singleMantissa flt).toNat = m
  have hlow : 2 ^ 23 ≤ m := by omega
  have hhigh : m < 2 ^ 24 := by omega
  by_cases hover : 15 < (x : ℤ) - 127
  · rw [if_pos hover]
    exact isNearest_overflow hlow (by omega)
  rw [if_neg hover]
  by_cases hsub : (x : ℤ) - 127 < -14
  · -- one grid, of which the lowest part is 0
    have hpow : 2 ^ 24 ≤ 2 ^ (126 - x + 10) := Nat.pow_le_pow_right (by decide) (by omega)
    have hnear := isNearest_subnormal (hhigh.trans_le hpow) (by omega : 126 - x + (x - 1) = 125)
    by_cases hunder : (x : ℤ) - 127 < -25
    · have hpow' : 2 ^ 25 ≤ 2 ^ (126 - x) := Nat.pow_le_pow_right (by decide) (by omega)
      rw [if_pos hunder]
      rwa [halfEven_eq_zero (by omega)] at hnear
    · rw [if_neg hunder, if_pos hsub, show (-((x : ℤ) - 127) - 1).toNat = 126 - x by omega]
      exact hnear
  · rw [if_neg (by omega), if_neg hsub, show ((x : ℤ) - 127 + 14).toNat = x - 113 by omega]
    have hnear := isNearest_normal hlow hhigh (by omega : x - 113 ≤ 29)
    rwa [show x - 113 + 112 = x - 1 by omega] at hnear

/-- **`FloatToHalf`** is right for all patterns but those of a NaN that has no bit of its mantissa in the
ten bits that stay. -/
theorem floatToHalf_right_iff (openShift : ℕ → BitVec 32) (flt : BitVec 32) :
    ConvertsRight flt (floatToHalf openShift flt true).1
      ↔ ¬ (singleExponent flt = 0xFF ∧ singleMantissa flt ≠ 0 ∧ singleMantissa flt >>> 13 = 0) := by
  have hm := singleMantissa_lt flt
  by_cases hspecial : singleExponent flt = 0xFF
  · have hresult : (floatToHalf openShift flt true).1 = (((flt >>> 31) <<< 15
        ||| BitVec.ofNat 32 (0x7C00 + (singleMantissa flt).toNat / 2 ^ 13)).setWidth 16) := by
      unfold floatToHalf
      simp only [if_pos hspecial, if_true]
      rw [BitVec.or_assoc, toNat_special _ hm]
    obtain ⟨hmsb, hmagnitude⟩ := signed_pattern flt
      (by omega : 0x7C00 + (singleMantissa flt).toNat / 2 ^ 13 < 2 ^ 15)
    have hcut : singleMantissa flt >>> 13 = 0 ↔ (singleMantissa flt).toNat / 2 ^ 13 = 0 := by
      rw [← BitVec.toNat_inj, BitVec.toNat_ushiftRight, Nat.shiftRight_eq_div_pow]
      rfl
    rw [hresult]
    unfold ConvertsRight
    by_cases hnan : singleMantissa flt = 0
    · rw [if_neg (fun h => h.2 hnan), if_pos hspecial, hmagnitude]
      exact iff_of_true ⟨hmsb, by rw [hnan]; rfl⟩ fun h => h.2.1 hnan
    · rw [if_pos ⟨hspecial, hnan⟩, isHalfNaN, hmagnitude, hcut, decide_eq_true_iff]
      simp only [hspecial, hnan, true_and, ne_eq, not_false_eq_true]
      omega
  · refine iff_of_true ?_ fun h => hspecial h.1
    have hnear := isNearest_roundCode flt
    have hresult : (floatToHalf openShift flt true).1 = (((flt >>> 31) <<< 15 ||| BitVec.ofNat 32
        (roundCode ((singleExponent flt).toNat - 127) (2 ^ 23 + (singleMantissa flt).toNat))).setWidth 16) := by
      unfold floatToHalf
      simp only [if_neg hspecial]
      by_cases hzero : singleExponent flt = 0 ∧ singleMantissa flt = 0
      · have hcode : ∀ m, roundCode ((0 : BitVec 32).toNat - 127) m = 0 := fun _ => rfl
        rw [if_pos hzero, hzero.1, hcode]
        change ((flt >>> 31) <<< 15).setWidth 16 = _
        rw [BitVec.or_zero]
      · have himplicit := toNat_implicit flt
        have hlow : 2 ^ 23 ≤ (singleMantissa flt ||| (1 : BitVec 32) <<< 23).toNat := by omega
        have hhigh : (singleMantissa flt ||| (1 : BitVec 32) <<< 23).toNat < 2 ^ 24 := by omega
        rw [if_neg hzero, ← himplicit]
        exact congrArg (BitVec.setWidth 16) (roundToHalf_eq hlow hhigh)
    obtain ⟨hmsb, hmagnitude⟩ := signed_pattern flt (lt_of_le_of_lt hnear.1 (by decide))
    unfold ConvertsRight
    rw [hresult, if_neg (fun h => hspecial h.1), if_neg hspecial, hmagnitude]
    exact ⟨hmsb, hnear⟩

theorem floatToHalf_nan : (floatToHalf (fun _ => 0) 0x7F800001 true).1 = 0x7C00
    ∧ ¬ ConvertsRight 0x7F800001 0x7C00 := by
  refine ⟨rfl, fun h => ?_⟩
  unfold ConvertsRight at h
  rw [if_pos ⟨rfl, by decide⟩] at h
  exact absurd h (by decide)

end Result

end Asasm
