import Mathlib.Algebra.Order.Group.Int
import Mathlib.Algebra.Order.Group.Unbundled.Basic
import Mathlib.Data.BitVec
import Mathlib.Data.List.Basic
import Mathlib.Tactic.Common

/-!
# Comparisons that order a list

A comparison of the kind `qsort` is given orders the elements of a list (`OrdersOn`) if it is a total preorder
on them: the two orders of the arguments give opposite signs, and being not greater is transitive. The
comparisons in use are put together from simpler ones.

* Comparing what a function gives of the elements orders a list if the comparison orders the values
  (`ordersOn_map`).
* A comparison that puts one class of elements before the others orders a list if it orders the two
  classes (`ordersOn_split_iff`).
* A comparison that takes elements of one group by one key, and elements of different groups by a key of
  the groups, orders a list only if groups that compare equal have no order inside either
  (`ordersOn_groups_iff`).
* The difference of two words, read as signed, goes around a circle, and orders a list of words just if
  they all lie in one half of it, counted from one of them (`ordersOn_difference_iff`).
-/

namespace CompareOn

variable {α β : Type} {compare : α → α → ℤ} {l : List α}

/-- **The comparison is a total preorder on the elements of the list.** -/
structure OrdersOn (compare : α → α → ℤ) (l : List α) : Prop where
  sign : ∀ a ∈ l, ∀ b ∈ l, (compare a b).sign = -(compare b a).sign
  trans : ∀ a ∈ l, ∀ b ∈ l, ∀ c ∈ l, compare a b ≤ 0 → compare b c ≤ 0 → compare a c ≤ 0

namespace OrdersOn

variable {a b c : α}

theorem subset {l' : List α} (h : OrdersOn compare l) (hsub : l' ⊆ l) : OrdersOn compare l' where
  sign a ha b hb := h.sign a (hsub ha) b (hsub hb)
  trans a ha b hb c hc := h.trans a (hsub ha) b (hsub hb) c (hsub hc)

theorem congr {compare' : α → α → ℤ} (h : OrdersOn compare l)
    (heq : ∀ a ∈ l, ∀ b ∈ l, compare' a b = compare a b) : OrdersOn compare' l where
  sign a ha b hb := by
    rw [heq a ha b hb, heq b hb a ha]
    exact h.sign a ha b hb
  trans a ha b hb c hc hab hbc := by
    rw [heq a ha b hb] at hab
    rw [heq b hb c hc] at hbc
    rw [heq a ha c hc]
    exact h.trans a ha b hb c hc hab hbc

theorem nonneg_iff (h : OrdersOn compare l) (ha : a ∈ l) (hb : b ∈ l) : 0 ≤ compare a b ↔ compare b a ≤ 0 := by
  have hsign := h.sign a ha b hb
  rw [← Int.sign_nonneg_iff, hsign, Left.nonneg_neg_iff, Int.sign_nonpos_iff]

theorem self (h : OrdersOn compare l) (ha : a ∈ l) : compare a a = 0 := by
  have hsign := h.sign a ha a ha
  exact Int.sign_eq_zero_iff_zero.mp (by omega)

theorem total (h : OrdersOn compare l) (ha : a ∈ l) (hb : b ∈ l) : compare a b ≤ 0 ∨ compare b a ≤ 0 := by
  obtain hle | hlt := le_or_gt (compare a b) 0
  · exact Or.inl hle
  · exact Or.inr ((h.nonneg_iff ha hb).mp hlt.le)

theorem eq_zero_iff (h : OrdersOn compare l) (ha : a ∈ l) (hb : b ∈ l) :
    compare a b = 0 ↔ compare a b ≤ 0 ∧ compare b a ≤ 0 := by
  rw [← h.nonneg_iff ha hb]
  exact Int.le_antisymm_iff

theorem trans_zero (h : OrdersOn compare l) (ha : a ∈ l) (hb : b ∈ l) (hc : c ∈ l) (hab : compare a b = 0)
    (hbc : compare b c = 0) : compare a c = 0 := by
  obtain ⟨hab, hba⟩ := (h.eq_zero_iff ha hb).mp hab
  obtain ⟨hbc, hcb⟩ := (h.eq_zero_iff hb hc).mp hbc
  exact (h.eq_zero_iff ha hc).mpr ⟨h.trans a ha b hb c hc hab hbc, h.trans c hc b hb a ha hcb hba⟩

theorem comm_zero (h : OrdersOn compare l) (ha : a ∈ l) (hb : b ∈ l) (hab : compare a b = 0) :
    compare b a = 0 :=
  (h.eq_zero_iff hb ha).mpr ((h.eq_zero_iff ha hb).mp hab).symm

theorem exists_least (h : OrdersOn compare l) (hne : l ≠ []) : ∃ m ∈ l, ∀ a ∈ l, compare m a ≤ 0 := by
  induction l with
  | nil => exact absurd rfl hne
  | cons a l ih =>
    have htail : OrdersOn compare l := h.subset (List.subset_cons_self a l)
    have hself : compare a a ≤ 0 := le_of_eq (h.self List.mem_cons_self)
    by_cases hl : l = []
    · subst hl
      refine ⟨a, List.mem_cons_self, fun b hb => ?_⟩
      rwa [List.mem_singleton.mp hb]
    · obtain ⟨m, hm, hleast⟩ := ih htail hl
      have hm' : m ∈ a :: l := List.mem_cons_of_mem a hm
      -- the least one of the tail stays, unless the head is not greater
      obtain ham | hma := h.total List.mem_cons_self hm'
      · refine ⟨a, List.mem_cons_self, fun b hb => ?_⟩
        obtain rfl | hb := List.mem_cons.mp hb
        · exact hself
        · exact h.trans a List.mem_cons_self m hm' b (List.mem_cons_of_mem a hb) ham (hleast b hb)
      · refine ⟨m, hm', fun b hb => ?_⟩
        obtain rfl | hb := List.mem_cons.mp hb
        · exact hma
        · exact hleast b hb

end OrdersOn

/-- **Comparing values of the elements** orders them if it orders the values. -/
theorem ordersOn_map (compare : β → β → ℤ) (f : α → β) :
    OrdersOn compare (l.map f) ↔ OrdersOn (fun a b => compare (f a) (f b)) l := by
  constructor
  · intro h
    exact ⟨fun a ha b hb => h.sign _ (List.mem_map_of_mem ha) _ (List.mem_map_of_mem hb),
      fun a ha b hb c hc => h.trans _ (List.mem_map_of_mem ha) _ (List.mem_map_of_mem hb) _
        (List.mem_map_of_mem hc)⟩
  · intro h
    refine ⟨fun x hx y hy => ?_, fun x hx y hy z hz => ?_⟩
    · obtain ⟨a, ha, rfl⟩ := List.mem_map.mp hx
      obtain ⟨b, hb, rfl⟩ := List.mem_map.mp hy
      exact h.sign a ha b hb
    · obtain ⟨a, ha, rfl⟩ := List.mem_map.mp hx
      obtain ⟨b, hb, rfl⟩ := List.mem_map.mp hy
      obtain ⟨c, hc, rfl⟩ := List.mem_map.mp hz
      exact h.trans a ha b hb c hc

/-- **A class of elements that comes last**: the list is ordered if its two classes are. -/
theorem ordersOn_split_iff {last : α → Bool}
    (hlt : ∀ a ∈ l, ∀ b ∈ l, last a = false → last b = true → compare a b < 0 ∧ 0 < compare b a) :
    OrdersOn compare l ↔
      OrdersOn compare (l.filter fun a => !last a) ∧ OrdersOn compare (l.filter last) := by
  constructor
  · intro h
    exact ⟨h.subset (List.filter_subset_self l), h.subset (List.filter_subset_self l)⟩
  · rintro ⟨hfirst, hlast⟩
    have hmemFirst : ∀ a ∈ l, last a = false → a ∈ l.filter fun a => !last a := by
      intro a ha hclass
      exact List.mem_filter.mpr ⟨ha, by rw [hclass]; rfl⟩
    have hmemLast : ∀ a ∈ l, last a = true → a ∈ l.filter last :=
      fun a ha hclass => List.mem_filter.mpr ⟨ha, hclass⟩
    refine ⟨fun a ha b hb => ?_, fun a ha b hb c hc hab hbc => ?_⟩
    · cases hclassA : last a <;> cases hclassB : last b
      · exact hfirst.sign a (hmemFirst a ha hclassA) b (hmemFirst b hb hclassB)
      · obtain ⟨hneg, hpos⟩ := hlt a ha b hb hclassA hclassB
        rw [Int.sign_eq_neg_one_of_neg hneg, Int.sign_eq_one_of_pos hpos]
      · obtain ⟨hneg, hpos⟩ := hlt b hb a ha hclassB hclassA
        rw [Int.sign_eq_neg_one_of_neg hneg, Int.sign_eq_one_of_pos hpos]
        rfl
      · exact hlast.sign a (hmemLast a ha hclassA) b (hmemLast b hb hclassB)
    · -- from the last class nothing leads back to the first one
      have hup : ∀ {x y : α}, x ∈ l → y ∈ l → compare x y ≤ 0 → last x = true → last y = true := by
        intro x y hx hy hxy hclassX
        by_contra hclassY
        have hpos := (hlt y hy x hx (eq_false_of_ne_true hclassY) hclassX).2
        omega
      cases hclassA : last a with
      | true =>
        have hclassB := hup ha hb hab hclassA
        exact hlast.trans a (hmemLast a ha hclassA) b (hmemLast b hb hclassB) c
          (hmemLast c hc (hup hb hc hbc hclassB)) hab hbc
      | false =>
        cases hclassC : last c with
        | true => exact le_of_lt (hlt a ha c hc hclassA hclassC).1
        | false =>
          have hclassB : last b = false := by
            by_contra hclassB
            have hclassC' := hup hb hc hbc (eq_true_of_ne_false hclassB)
            rw [hclassC] at hclassC'
            exact Bool.false_ne_true hclassC'
          exact hfirst.trans a (hmemFirst a ha hclassA) b (hmemFirst b hb hclassB) c
            (hmemFirst c hc hclassC) hab hbc

/-! ### Groups of elements -/

section Groups

variable {γ : Type} [DecidableEq γ] {group : α → γ} {within : α → α → ℤ} {across : γ → γ → ℤ}

/-- Elements of one group are compared by one key, elements of different groups by a key of the
groups. -/
def byGroup (group : α → γ) (within : α → α → ℤ) (across : γ → γ → ℤ) (a b : α) : ℤ :=
  if group a = group b then within a b else across (group a) (group b)

/-- **A comparison by groups** orders a list just if it orders each group, and a group that compares equal
with another one has no order inside. -/
theorem ordersOn_groups_iff (hacross : OrdersOn across (l.map group)) :
    OrdersOn (byGroup group within across) l ↔
      (∀ g, OrdersOn within (l.filter fun a => group a = g)) ∧
        ∀ a ∈ l, ∀ b ∈ l, ∀ c ∈ l, group a = group c → group a ≠ group b →
          across (group a) (group b) = 0 → within a c = 0 := by
  have hsame : ∀ {x y : α}, group x = group y → byGroup group within across x y = within x y :=
    fun h => if_pos h
  have hother : ∀ {x y : α}, group x ≠ group y →
      byGroup group within across x y = across (group x) (group y) :=
    fun h => if_neg h
  have hmem : ∀ {x : α}, x ∈ l → group x ∈ l.map group := List.mem_map_of_mem
  constructor
  · intro h
    refine ⟨fun g => ?_, fun a ha b hb c hc hac hab hzero => ?_⟩
    · refine (h.subset (List.filter_subset_self l)).congr fun a ha b hb => ?_
      have hgroupA : group a = g := of_decide_eq_true (List.mem_filter.mp ha).2
      have hgroupB : group b = g := of_decide_eq_true (List.mem_filter.mp hb).2
      exact (hsame (hgroupA.trans hgroupB.symm)).symm
    · -- both elements of the group compare equal with the one outside
      have hab' : byGroup group within across a b = 0 := (hother hab).trans hzero
      have hcb : byGroup group within across c b = 0 := by
        rw [hother (hac ▸ hab), ← hac]
        exact hzero
      rw [← hsame hac]
      exact h.trans_zero ha hb hc hab' (h.comm_zero hc hb hcb)
  · rintro ⟨hwithin, hapart⟩
    have hgroup : ∀ {x y : α}, x ∈ l → group x = group y → x ∈ l.filter fun a => group a = group y :=
      fun hx h => List.mem_filter.mpr ⟨hx, decide_eq_true h⟩
    refine ⟨fun a ha b hb => ?_, fun a ha b hb c hc hab hbc => ?_⟩
    · by_cases heq : group a = group b
      · rw [hsame heq, hsame heq.symm]
        exact (hwithin _).sign a (hgroup ha heq) b (hgroup hb rfl)
      · rw [hother heq, hother (Ne.symm heq)]
        exact hacross.sign _ (hmem ha) _ (hmem hb)
    · by_cases heqAB : group a = group b
      · rw [hsame heqAB] at hab
        by_cases heqBC : group b = group c
        · rw [hsame heqBC] at hbc
          rw [hsame (heqAB.trans heqBC)]
          exact (hwithin _).trans a (hgroup ha (heqAB.trans heqBC)) b (hgroup hb heqBC) c (hgroup hc rfl)
            hab hbc
        · rw [hother heqBC] at hbc
          rw [hother (heqAB ▸ heqBC), heqAB]
          exact hbc
      · rw [hother heqAB] at hab
        by_cases heqBC : group b = group c
        · rw [hother (heqBC ▸ heqAB), ← heqBC]
          exact hab
        · rw [hother heqBC] at hbc
          by_cases heqAC : group a = group c
          · -- there and back between two groups
            rw [← heqAC] at hbc
            have hzero := (hacross.eq_zero_iff (hmem ha) (hmem hb)).mpr ⟨hab, hbc⟩
            rw [hsame heqAC]
            exact le_of_eq (hapart a ha b hb c hc heqAC heqAB hzero)
          · rw [hother heqAC]
            exact hacross.trans _ (hmem ha) _ (hmem hb) _ (hmem hc) hab hbc

end Groups

/-! ### The difference of two words -/

section Difference

variable {w : ℕ} {x y s : BitVec w} {words : List (BitVec w)}

def InHalf (words : List (BitVec w)) : Prop := ∃ s ∈ words, ∀ x ∈ words, 2 * (x - s).toNat < 2 ^ w

theorem toInt_sub_of_half (hx : 2 * (x - s).toNat < 2 ^ w) (hy : 2 * (y - s).toNat < 2 ^ w) :
    (x - y).toInt = ((x - s).toNat : ℤ) - (y - s).toNat := by
  have hsub : x - y = (x - s) - (y - s) := by
    rw [sub_sub_sub_cancel_right]
  have hx' : (x - s).toInt = (x - s).toNat := BitVec.toInt_eq_toNat_of_lt hx
  have hy' : (y - s).toInt = (y - s).toNat := BitVec.toInt_eq_toNat_of_lt hy
  rw [hsub, BitVec.toInt_sub, hx', hy']
  have hpow : ((2 ^ w : ℕ) : ℤ) = 2 ^ w := by norm_cast
  refine Int.bmod_eq_of_le ?_ ?_ <;> omega

/-- **The difference of words orders them** just if there are none, or they all lie in the half of the
circle that begins with one of them. -/
theorem ordersOn_difference_iff :
    OrdersOn (fun x y : BitVec w => (x - y).toInt) words ↔ words = [] ∨ InHalf words := by
  constructor
  · intro h
    by_cases hempty : words = []
    · exact Or.inl hempty
    · -- the half begins with the least word
      obtain ⟨s, hs, hleast⟩ := h.exists_least hempty
      refine Or.inr ⟨s, hs, fun x hx => ?_⟩
      have hnonneg : 0 ≤ (x - s).toInt := (h.nonneg_iff hx hs).mpr (hleast x hx)
      exact BitVec.toInt_pos_iff.mp hnonneg
  · rintro (rfl | ⟨s, hs, hhalf⟩)
    · exact ⟨nofun, nofun⟩
    · refine ⟨fun x hx y hy => ?_, fun x hx y hy z hz hxy hyz => ?_⟩
      · rw [toInt_sub_of_half (hhalf x hx) (hhalf y hy), toInt_sub_of_half (hhalf y hy) (hhalf x hx),
          ← Int.sign_neg, neg_sub]
      · change (x - y).toInt ≤ 0 at hxy
        change (y - z).toInt ≤ 0 at hyz
        rw [toInt_sub_of_half (hhalf _ ‹_›) (hhalf _ ‹_›)] at hxy hyz ⊢
        omega

end Difference

end CompareOn
