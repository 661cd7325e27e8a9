import Mathlib.Data.List.GetD
import Mathlib.Data.List.Lex
import Mathlib.Order.Basic
import Mathlib.Order.Lattice

/-!
# Searching a table of words letter by letter

A table `word : ℕ → List α` of `n` words, of which a part is in lexicographic order. A search reads a
text letter by letter and keeps the interval of the words that begin with what it has read
(`Block word n p low high`). The `k`-th letters of the words of a block increase (`SortedOn.letter_mono`),
a word that has ended counting as a letter `z` below all others, so that the words with one more letter
of the text are again an interval, which a binary search for the letter finds (`Block.snoc`).

The words that are themselves beginnings of the text form a chain. They stand in the table in the order
of their lengths: `SortedOn.length_le_of_isPrefix` says that the last one in a block is the longest.
-/

namespace PrefixSearch

variable {α : Type} {word : ℕ → List α} {n low high : ℕ} {p : List α}

/-- The letter `k` of a word, `z` behind its end. -/
def letter (z : α) (w : List α) (k : ℕ) : α := w.getD k z

theorem letter_of_lt {z : α} {w : List α} {k : ℕ} (h : k < w.length) : letter z w k = w[k] :=
  List.getD_eq_getElem w z h

theorem letter_length (z : α) (w : List α) : letter z w w.length = z :=
  List.getD_eq_default w z (Nat.le_refl _)

theorem snoc_isPrefix_iff {z c : α} (hc : c ≠ z) (p w : List α) :
    p ++ [c] <+: w ↔ p <+: w ∧ letter z w p.length = c := by
  constructor
  · rintro ⟨rest, rfl⟩
    refine ⟨⟨c :: rest, by simp⟩, ?_⟩
    rw [letter_of_lt (by simp)]
    simp
  · rintro ⟨⟨rest, rfl⟩, hletter⟩
    cases rest with
    | nil =>
      rw [List.append_nil, letter_length] at hletter
      exact absurd hletter.symm hc
    | cons a rest =>
      rw [letter_of_lt (by simp)] at hletter
      simp only [List.getElem_append_right (Nat.le_refl _), Nat.sub_self,
        List.getElem_cons_zero] at hletter
      exact ⟨rest, by simp [hletter]⟩

/-- A word that begins with `p` and has no further letter is `p`. -/
theorem eq_of_letter_eq {z : α} {w : List α} (hz : z ∉ w) (hp : p <+: w)
    (hletter : letter z w p.length = z) : w = p := by
  obtain ⟨rest, rfl⟩ := hp
  cases rest with
  | nil => exact List.append_nil p
  | cons a rest =>
    rw [letter_of_lt (by simp)] at hletter
    simp only [List.getElem_append_right (Nat.le_refl _), Nat.sub_self,
      List.getElem_cons_zero] at hletter
    exact absurd (by simp [hletter]) hz

/-- **The words of an interval that begin with `p`**: exactly those from `low` to `high`. -/
structure Block (word : ℕ → List α) (n : ℕ) (p : List α) (low high : ℕ) : Prop where
  low_le : low ≤ high
  high_lt : high < n
  mem_iff : ∀ i, i < n → (p <+: word i ↔ low ≤ i ∧ i ≤ high)

/-- **One more letter**: when `[low', high']` are the words of the block with the letter `c`, they are
the block of the longer beginning. -/
theorem Block.snoc {z c : α} {low' high' : ℕ} (h : Block word n p low high) (hc : c ≠ z)
    (hle : low' ≤ high') (hhigh : high' ≤ high)
    (hletter : ∀ i, low ≤ i → i ≤ high →
      (letter z (word i) p.length = c ↔ low' ≤ i ∧ i ≤ high'))
    (hlow : low ≤ low') : Block word n (p ++ [c]) low' high' := by
  refine ⟨hle, Nat.lt_of_le_of_lt hhigh h.high_lt, fun i hi => ?_⟩
  rw [snoc_isPrefix_iff hc, h.mem_iff i hi]
  constructor
  · rintro ⟨⟨hl, hh⟩, hlet⟩
    exact (hletter i hl hh).mp hlet
  · rintro ⟨hl, hh⟩
    have hl' := Nat.le_trans hlow hl
    have hh' := Nat.le_trans hh hhigh
    exact ⟨⟨hl', hh'⟩, (hletter i hl' hh').mpr ⟨hl, hh⟩⟩

theorem Block.not_snoc {z c : α} (h : Block word n p low high) (hc : c ≠ z)
    (hletter : ∀ i, low ≤ i → i ≤ high → letter z (word i) p.length ≠ c) {i : ℕ} (hi : i < n) :
    ¬ p ++ [c] <+: word i := by
  intro hp
  obtain ⟨hp, hlet⟩ := (snoc_isPrefix_iff hc p (word i)).mp hp
  obtain ⟨hl, hh⟩ := (h.mem_iff i hi).mp hp
  exact hletter i hl hh hlet

section Order

variable [LinearOrder α]

/-- **The words from `low` to `high` are in order.** -/
def SortedOn (word : ℕ → List α) (low high : ℕ) : Prop :=
  ∀ i j, low ≤ i → i < j → j ≤ high → word i < word j

theorem SortedOn.mono {low' high' : ℕ} (h : SortedOn word low high) (hlow : low ≤ low')
    (hhigh : high' ≤ high) : SortedOn word low' high' :=
  fun i j hi hij hj => h i j (Nat.le_trans hlow hi) hij (Nat.le_trans hj hhigh)

def before : List α → List α → Bool
  | _, [] => false
  | [], _ :: _ => true
  | a :: u, b :: v => decide (a < b) || (decide (a = b) && before u v)

theorem before_iff {u v : List α} : before u v = true ↔ u < v := by
  induction u generalizing v with
  | nil => cases v <;> simp [before]
  | cons a u ih =>
    cases v with
    | nil => simp [before]
    | cons b v => simp [before, List.cons_lt_cons_iff, ih]

def increasing : List (List α) → Bool
  | [] => true
  | [_] => true
  | u :: v :: ws => before u v && increasing (v :: ws)

theorem increasing_iff {ws : List (List α)} : increasing ws = true ↔ ws.IsChain (· < ·) := by
  induction ws with
  | nil => simp [increasing]
  | cons u ws ih =>
    cases ws with
    | nil => simp [increasing]
    | cons v ws => rw [increasing, Bool.and_eq_true, ih, before_iff, List.isChain_cons_cons]

theorem append_lt_append_iff (p u v : List α) : p ++ u < p ++ v ↔ u < v := by
  induction p with
  | nil => rfl
  | cons a p ih =>
    rw [List.cons_append, List.cons_append, List.cons_lt_cons_iff, ih]
    simp

theorem letter_le_of_lt {z : α} {u v : List α} (hz : ∀ a ∈ v, z ≤ a) (hu : p <+: u) (hv : p <+: v)
    (h : u < v) : letter z u p.length ≤ letter z v p.length := by
  obtain ⟨u, rfl⟩ := hu
  obtain ⟨v, rfl⟩ := hv
  rw [append_lt_append_iff] at h
  -- the order is decided by the first letters behind `p`, unless they are equal
  cases v with
  | nil => cases h
  | cons b v =>
    have hb : letter z (p ++ b :: v) p.length = b := by
      rw [letter_of_lt (by simp)]
      simp
    rw [hb]
    cases u with
    | nil =>
      rw [List.append_nil, letter_length]
      exact hz b (by simp)
    | cons a u =>
      have ha : letter z (p ++ a :: u) p.length = a := by
        rw [letter_of_lt (by simp)]
        simp
      rw [ha]
      obtain hlt | ⟨rfl, -⟩ := List.cons_lt_cons_iff.mp h
      · exact le_of_lt hlt
      · exact le_refl a

theorem SortedOn.letter_mono {z : α} (h : SortedOn word low high) (hb : Block word n p low high)
    (hz : ∀ i, i < n → ∀ a ∈ word i, z ≤ a) {i j : ℕ} (hi : low ≤ i) (hij : i ≤ j) (hj : j ≤ high) :
    letter z (word i) p.length ≤ letter z (word j) p.length := by
  obtain rfl | hlt := Nat.eq_or_lt_of_le hij
  · exact le_refl _
  · have hjn := Nat.lt_of_le_of_lt hj hb.high_lt
    have hin := Nat.lt_trans hlt hjn
    exact letter_le_of_lt (hz j hjn)
      ((hb.mem_iff i hin).mpr ⟨hi, Nat.le_trans hij hj⟩)
      ((hb.mem_iff j hjn).mpr ⟨Nat.le_trans hi hij, hj⟩) (h i j hi hlt hj)

theorem lt_of_isPrefix {u v : List α} (h : u <+: v) (hne : u.length < v.length) : u < v := by
  obtain ⟨rest, rfl⟩ := h
  cases rest with
  | nil =>
    rw [List.append_nil] at hne
    exact absurd hne (Nat.lt_irrefl _)
  | cons a rest =>
    have hnil := (append_lt_append_iff u [] (a :: rest)).mpr (List.nil_lt_cons a rest)
    rwa [List.append_nil] at hnil

theorem SortedOn.eq_low_of_word_eq (h : SortedOn word low high) (hb : Block word n p low high)
    {i : ℕ} (hi : i < n) (hword : word i = p) : i = low := by
  obtain ⟨hl, hh⟩ := (hb.mem_iff i hi).mp (hword ▸ List.prefix_rfl)
  obtain heq | hlt := Nat.eq_or_lt_of_le hl
  · exact heq.symm
  · -- an earlier word of the block would be longer, and so behind `p`
    have hp := (hb.mem_iff low (Nat.lt_of_le_of_lt hb.low_le hb.high_lt)).mpr
      ⟨Nat.le_refl _, hb.low_le⟩
    have hlow := h low i (Nat.le_refl _) hlt hh
    obtain heq | hne := Nat.eq_or_lt_of_le hp.length_le
    · rw [hword, ← hp.eq_of_length heq] at hlow
      exact absurd hlow (lt_irrefl _)
    · rw [hword] at hlow
      exact absurd (lt_trans hlow (lt_of_isPrefix hp hne)) (lt_irrefl _)

/-- **The last is the longest**: when `word i` is the last word of the block of `p` that is a beginning
of the text, no word of the table that is one is longer. -/
theorem SortedOn.length_le_of_isPrefix (h : SortedOn word low high)
    (hb : Block word n p low high) {text : List α} {i : ℕ} (hi : low ≤ i) (hih : i ≤ high)
    (hword : word i <+: text)
    (hlast : ∀ j, i < j → j ≤ high → ¬ word j <+: text) {j : ℕ} (hj : j < n)
    (hjword : word j <+: text) : (word j).length ≤ (word i).length := by
  have hpi : p <+: word i := (hb.mem_iff i (Nat.lt_of_le_of_lt hih hb.high_lt)).mpr ⟨hi, hih⟩
  by_contra hlonger
  rw [Nat.not_le] at hlonger
  -- a longer one would be in the block, behind `word i`
  have hij : word i <+: word j := List.prefix_of_prefix_length_le hword hjword (Nat.le_of_lt hlonger)
  obtain ⟨hjl, hjh⟩ := (hb.mem_iff j hj).mp (hpi.trans hij)
  have hlt := lt_of_isPrefix hij hlonger
  obtain hji | rfl | hij' := Nat.lt_trichotomy j i
  · exact absurd (lt_trans hlt (h j i hjl hji hih)) (lt_irrefl _)
  · exact absurd hlonger (Nat.lt_irrefl _)
  · exact hlast j hij' hjh hjword

theorem SortedOn.eq_of_word_eq (h : SortedOn word low high) {i j : ℕ} (hi : low ≤ i)
    (hih : i ≤ high) (hj : low ≤ j) (hjh : j ≤ high) (heq : word i = word j) : i = j := by
  obtain hlt | heq' | hlt := Nat.lt_trichotomy i j
  · exact absurd (heq ▸ h i j hi hlt hjh) (lt_irrefl _)
  · exact heq'
  · exact absurd (heq ▸ h j i hj hlt hih) (lt_irrefl _)

theorem sortedOn_getD {ws : List (List α)} (h : ws.IsChain (· < ·)) :
    SortedOn (fun i => ws.getD i []) 0 (ws.length - 1) := by
  intro i j _ hij hj
  change ws.getD i [] < ws.getD j []
  cases ws with
  | nil =>
    simp only [List.length_nil] at hj
    omega
  | cons w ws =>
    simp only [List.length_cons, Nat.add_sub_cancel] at hj
    have hjlt : j < (w :: ws).length := by simp; omega
    rw [List.getD_eq_getElem _ _ (Nat.lt_trans hij hjlt), List.getD_eq_getElem _ _ hjlt]
    exact List.pairwise_iff_getElem.mp (List.isChain_iff_pairwise.mp h) i j _ hjlt hij

theorem lt_of_lt_letter {z c : α} {p v rest : List α} (hz : ∀ a, z ≤ a) (hv : p <+: v)
    (hc : c < letter z v p.length) : p ++ c :: rest < v := by
  obtain ⟨v, rfl⟩ := hv
  rw [append_lt_append_iff]
  cases v with
  | nil =>
    rw [List.append_nil, letter_length] at hc
    exact absurd hc (not_lt.mpr (hz c))
  | cons b v =>
    rw [letter_of_lt (by simp)] at hc
    refine List.cons_lt_cons_iff.mpr (Or.inl ?_)
    simpa using hc

theorem le_letter_of_lt {z c : α} {p v rest : List α} (hz : ∀ a ∈ v, z ≤ a) (hv : p <+: v)
    (h : p ++ c :: rest < v) : c ≤ letter z v p.length := by
  have hletter := letter_le_of_lt hz ⟨c :: rest, rfl⟩ hv h
  rw [letter_of_lt (by simp)] at hletter
  simpa using hletter

end Order

end PrefixSearch
