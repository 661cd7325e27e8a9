import Mathlib.Algebra.Order.Field.Basic
import Mathlib.Algebra.Order.Group.Unbundled.Abs
import Mathlib.Order.Monotone.Basic
import Mathlib.Tactic.FieldSimp
import Mathlib.Tactic.Linarith
import Mathlib.Tactic.Ring

/-!
# Rounding to the nearest value, ties to even

The values of a number format are numbered in their order, from 0 to the greatest one: `val n` is the value
of the code `n`. A number is rounded to the nearest of them, and half way between two to the one with the
even code (`IsNearestEven`).

A format is usually a number of grids side by side. Within one of them rounding is that of an integer
quotient (`halfEven`, `isNearestEven_grid`), which is computed by adding a half and cutting off
(`add_half_div`).
-/

namespace RoundEven

variable {K : Type*} [Field K] [LinearOrder K] [IsStrictOrderedRing K] {val : ℕ → K} {top a : ℕ}
  {v : K}

/-- **The code of the value nearest** to `v`, the even one when there are two. -/
def IsNearestEven (val : ℕ → K) (top : ℕ) (v : K) (n : ℕ) : Prop :=
  n ≤ top ∧ ∀ m ≤ top, m ≠ n → |v - val n| < |v - val m| ∨ (|v - val n| = |v - val m| ∧ Even n)

theorem isNearestEven_top (hval : StrictMono val) (h : val top ≤ v) : IsNearestEven val top v top := by
  refine ⟨le_rfl, fun m hm hne => Or.inl ?_⟩
  have hlt : val m < val top := hval (lt_of_le_of_ne hm hne)
  rw [abs_of_nonneg (sub_nonneg.mpr h), abs_of_nonneg (sub_nonneg.mpr (hlt.le.trans h))]
  exact sub_lt_sub_left hlt v

theorem isNearestEven_below (hval : StrictMono val) (ha : a ≤ top) (hlo : val a ≤ v)
    (hhi : v ≤ val (a + 1))
    (hnear : v - val a < val (a + 1) - v ∨ (v - val a = val (a + 1) - v ∧ Even a)) :
    IsNearestEven val top v a := by
  refine ⟨ha, fun m _ hne => ?_⟩
  rw [abs_of_nonneg (sub_nonneg.mpr hlo)]
  obtain hlt | hgt := lt_or_gt_of_ne hne
  · refine Or.inl ?_
    have hval' : val m < val a := hval hlt
    rw [abs_of_nonneg (sub_nonneg.mpr (hval'.le.trans hlo))]
    exact sub_lt_sub_left hval' v
  · have hle : val (a + 1) ≤ val m := hval.monotone hgt
    rw [abs_of_nonpos (sub_nonpos.mpr (hhi.trans hle)), neg_sub]
    obtain hnear | ⟨htie, heven⟩ := hnear
    · exact Or.inl (hnear.trans_le (sub_le_sub_right hle v))
    · obtain heq | hlt := Nat.eq_or_lt_of_le (Nat.succ_le_of_lt hgt)
      · exact Or.inr ⟨by rw [htie, ← heq], heven⟩
      · refine Or.inl ?_
        rw [htie]
        exact sub_lt_sub_right (hval hlt) v

theorem isNearestEven_above (hval : StrictMono val) (ha : a + 1 ≤ top) (hlo : val a ≤ v)
    (hhi : v ≤ val (a + 1))
    (hnear : val (a + 1) - v < v - val a ∨ (val (a + 1) - v = v - val a ∧ Even (a + 1))) :
    IsNearestEven val top v (a + 1) := by
  refine ⟨ha, fun m _ hne => ?_⟩
  rw [abs_of_nonpos (sub_nonpos.mpr hhi), neg_sub]
  obtain hlt | hgt := lt_or_gt_of_ne hne
  · have hle : val m ≤ val a := hval.monotone (Nat.le_of_lt_succ hlt)
    rw [abs_of_nonneg (sub_nonneg.mpr (hle.trans hlo))]
    obtain hnear | ⟨htie, heven⟩ := hnear
    · exact Or.inl (hnear.trans_le (sub_le_sub_left hle v))
    · obtain heq | hlt := Nat.eq_or_lt_of_le (Nat.le_of_lt_succ hlt)
      · exact Or.inr ⟨by rw [htie, heq], heven⟩
      · refine Or.inl ?_
        rw [htie]
        exact sub_lt_sub_left (hval hlt) v
  · refine Or.inl ?_
    have hval' : val (a + 1) < val m := hval hgt
    rw [abs_of_nonpos (sub_nonpos.mpr (hhi.trans hval'.le)), neg_sub]
    exact sub_lt_sub_right hval' v

/-! ### Quotients -/

/-- **The quotient rounded** to the nearest integer, ties to even. -/
def halfEven (m d : ℕ) : ℕ :=
  if 2 * (m % d) < d ∨ (2 * (m % d) = d ∧ m / d % 2 = 0) then m / d else m / d + 1

theorem halfEven_eq_zero {m d : ℕ} (h : 2 * m < d) : halfEven m d = 0 := by
  have hlt : m < d := by omega
  rw [halfEven, Nat.mod_eq_of_lt hlt, if_pos (Or.inl h), Nat.div_eq_of_lt hlt]

/-- **Adding a half and cutting off**; in the middle the last digit is added in place of the half. -/
theorem add_half_div {h : ℕ} (hh : 0 < h) (m : ℕ) :
    (m + if m % (2 * h) = h then m / (2 * h) % 2 * (2 * h) else h) / (2 * h) = halfEven m (2 * h) := by
  have hd : 0 < 2 * h := by omega
  have hm := Nat.div_add_mod m (2 * h)
  have hr := Nat.mod_lt m hd
  have hodd := Nat.mod_two_eq_zero_or_one (m / (2 * h))
  unfold halfEven
  generalize m / (2 * h) = q at *
  generalize m % (2 * h) = r at *
  subst hm
  by_cases htie : r = h
  · subst htie
    rw [if_pos rfl, show 2 * r * q + r + q % 2 * (2 * r) = r + 2 * r * (q + q % 2) by ring,
      Nat.add_mul_div_left _ _ hd, Nat.div_eq_of_lt hr, zero_add]
    obtain heven | hodd := hodd
    · rw [heven, if_pos (Or.inr ⟨rfl, rfl⟩), add_zero]
    · rw [hodd, if_neg (by omega)]
  · rw [if_neg htie]
    by_cases hlow : 2 * r < 2 * h
    · rw [if_pos (Or.inl hlow), show 2 * h * q + r + h = r + h + 2 * h * q by ring,
        Nat.add_mul_div_left _ _ hd, Nat.div_eq_of_lt (by omega), zero_add]
    · rw [if_neg (by omega), show 2 * h * q + r + h = r - h + 2 * h * (q + 1) by
          rw [mul_add]
          omega,
        Nat.add_mul_div_left _ _ hd, Nat.div_eq_of_lt (by omega), zero_add]

/-- **Rounding within a grid** of unit `u`, whose values have consecutive codes from `base` on. -/
theorem isNearestEven_grid {u : K} {m d base : ℕ} (hval : StrictMono val) (hd : 0 < d) (hu : 0 < u)
    (heven : Even base) (htop : base + m / d + 1 ≤ top) (ha : val (base + m / d) = (m / d : ℕ) * u)
    (hb : val (base + m / d + 1) = ((m / d : ℕ) + 1) * u) :
    IsNearestEven val top ((m : K) / d * u) (base + halfEven m d) := by
  have hd' : (0 : K) < d := Nat.cast_pos.mpr hd
  have hm : (m : K) / d = (m / d : ℕ) + (m % d : ℕ) / (d : K) := by
    have hcast : ((d * (m / d) + m % d : ℕ) : K) = (m : K) := congrArg _ (Nat.div_add_mod m d)
    rw [Nat.cast_add, Nat.cast_mul] at hcast
    rw [← hcast]
    field_simp
  have hr0 : (0 : K) ≤ (m % d : ℕ) / (d : K) := div_nonneg (Nat.cast_nonneg _) hd'.le
  have hr1 : ((m % d : ℕ) : K) / (d : K) < 1 :=
    (div_lt_one hd').mpr (Nat.cast_lt.mpr (Nat.mod_lt m hd))
  -- the distances to the two neighbours, in units
  have hbelow : (m : K) / d * u - val (base + m / d) = (m % d : ℕ) / (d : K) * u := by
    rw [ha, hm]
    ring
  have habove : val (base + m / d + 1) - (m : K) / d * u = (1 - (m % d : ℕ) / (d : K)) * u := by
    rw [hb, hm]
    ring
  have hlo : val (base + m / d) ≤ (m : K) / d * u := by
    rw [← sub_nonneg, hbelow]
    exact mul_nonneg hr0 hu.le
  have hhi : (m : K) / d * u ≤ val (base + m / d + 1) := by
    rw [← sub_nonneg, habove]
    exact mul_nonneg (by linarith) hu.le
  have hhalf : ∀ r : ℕ, ((r : K) / d < 1 - r / d ↔ 2 * r < d) ∧ ((r : K) / d = 1 - r / d ↔ 2 * r = d)
      ∧ (1 - (r : K) / d < r / d ↔ d < 2 * r) := by
    intro r
    have hcast : ((2 * r : ℕ) : K) = 2 * r := by push_cast; ring
    have htwice : (r : K) / d + r / d = (2 * r : ℕ) / (d : K) := by rw [hcast]; ring
    refine ⟨?_, ?_, ?_⟩
    · rw [lt_sub_iff_add_lt, htwice, div_lt_one hd', Nat.cast_lt]
    · rw [eq_sub_iff_add_eq, htwice, div_eq_one_iff_eq hd'.ne', Nat.cast_inj]
    · rw [sub_lt_iff_lt_add, htwice, one_lt_div hd', Nat.cast_lt]
  obtain ⟨hless, htie, hmore⟩ := hhalf (m % d)
  unfold halfEven
  split
  next hdown =>
    refine isNearestEven_below hval (by omega) hlo hhi ?_
    rw [hbelow, habove, mul_lt_mul_iff_left₀ hu, mul_left_inj' hu.ne', hless, htie]
    obtain hdown | ⟨hdown, hq⟩ := hdown
    · exact Or.inl hdown
    · exact Or.inr ⟨hdown, heven.add (Nat.even_iff.mpr hq)⟩
  next hup =>
    rw [not_or, not_and_or] at hup
    obtain ⟨hup, hq⟩ := hup
    change IsNearestEven val top _ (base + m / d + 1)
    refine isNearestEven_above hval htop hlo hhi ?_
    rw [hbelow, habove, mul_lt_mul_iff_left₀ hu, mul_left_inj' hu.ne', hmore, eq_comm, htie]
    by_cases heq : 2 * (m % d) = d
    · refine Or.inr ⟨heq, ?_⟩
      have hodd : m / d % 2 = 1 := by omega
      rw [add_assoc]
      exact heven.add (Nat.even_iff.mpr (by omega))
    · exact Or.inl (by omega)

end RoundEven
