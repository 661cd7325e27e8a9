import Mathlib.Data.List.Basic
import Mathlib.Data.List.Infix
import Mathlib.Data.List.Perm.Basic

/-!
# Patterns with an open end

A pattern is a word, and either only this word matches or every word that begins with it. Two patterns
overlap just if one of them matches the word of the other (`overlaps_iff`), so that comparing words is
enough to keep a table free of overlaps. In such a table at most one pattern matches any word (`Unique`),
and it is found wherever it stands (`find?_eq_some_iff`, `find?_perm`).
-/

namespace PrefixPattern

variable {α β : Type}

structure Pattern (α : Type) where
  word : List α
  isOpen : Bool

/-- **A word matches.** -/
def Pattern.Matches (p : Pattern α) (w : List α) : Prop := if p.isOpen then p.word <+: w else w = p.word

def Overlaps (p q : Pattern α) : Prop := ∃ w, p.Matches w ∧ q.Matches w

theorem Pattern.matches_word (p : Pattern α) : p.Matches p.word := by
  unfold Pattern.Matches
  split
  · exact List.prefix_refl _
  · rfl

theorem Pattern.Matches.front {p : Pattern α} {w : List α} (h : p.Matches w) : p.word <+: w := by
  unfold Pattern.Matches at h
  split at h
  · exact h
  · exact h ▸ List.prefix_refl _

theorem matches_iff {p : Pattern α} {w : List α} :
    p.Matches w ↔ p.word <+: w ∧ (p.isOpen = true ∨ p.word.length = w.length) := by
  unfold Pattern.Matches
  cases p.isOpen with
  | true => exact ⟨fun h => ⟨h, Or.inl rfl⟩, fun h => h.1⟩
  | false =>
    constructor
    · intro h
      exact ⟨h ▸ List.prefix_refl _, Or.inr (congrArg List.length h).symm⟩
    · rintro ⟨hfront, h⟩
      exact (hfront.eq_of_length (h.resolve_left nofun)).symm

theorem take_min_eq_iff {a b : List α} :
    a.take (min a.length b.length) = b.take (min a.length b.length) ↔ a <+: b ∨ b <+: a := by
  rcases Nat.le_total a.length b.length with hle | hle
  · rw [Nat.min_eq_left hle, List.take_length, ← List.prefix_iff_eq_take]
    refine ⟨Or.inl, fun h => h.elim id fun hfront => ?_⟩
    rw [hfront.eq_of_length_le hle]
  · rw [Nat.min_eq_right hle, List.take_length, eq_comm, ← List.prefix_iff_eq_take]
    refine ⟨Or.inr, fun h => h.elim (fun hfront => ?_) id⟩
    rw [hfront.eq_of_length_le hle]

/-- **Patterns overlap just if one matches the word of the other.** -/
theorem overlaps_iff {p q : Pattern α} : Overlaps p q ↔ p.Matches q.word ∨ q.Matches p.word := by
  constructor
  · rintro ⟨w, hp, hq⟩
    have hpw := hp.front
    have hqw := hq.front
    unfold Pattern.Matches at hp hq ⊢
    cases hpopen : p.isOpen with
    | false =>
      rw [hpopen, if_neg Bool.false_ne_true] at hp
      exact Or.inr (hp ▸ hq)
    | true =>
      cases hqopen : q.isOpen with
      | false =>
        rw [hqopen, if_neg Bool.false_ne_true] at hq
        rw [if_pos rfl]
        exact Or.inl (hq ▸ hpw)
      | true =>
        rw [if_pos rfl, if_pos rfl]
        exact List.prefix_or_prefix_of_prefix hpw hqw
  · rintro (h | h)
    · exact ⟨q.word, h, q.matches_word⟩
    · exact ⟨p.word, p.matches_word, h⟩

theorem Overlaps.symm {p q : Pattern α} (h : Overlaps p q) : Overlaps q p := by
  obtain ⟨w, hp, hq⟩ := h
  exact ⟨w, hq, hp⟩

/-! ### Tables without overlaps -/

/-- **At most one entry** has the property. -/
def Unique (p : β → Bool) (l : List β) : Prop := l.Pairwise fun a b => ¬(p a = true ∧ p b = true)

theorem find?_eq_some_iff {p : β → Bool} {l : List β} (hl : Unique p l) {a : β} :
    l.find? p = some a ↔ a ∈ l ∧ p a = true := by
  induction l with
  | nil => exact iff_of_false nofun fun h => nomatch h.1
  | cons b l ih =>
    obtain ⟨hb, hl⟩ := List.pairwise_cons.mp hl
    cases hpb : p b with
    | true =>
      rw [List.find?_cons_of_pos hpb]
      constructor
      · rintro ⟨⟩
        exact ⟨List.mem_cons_self .., hpb⟩
      · rintro ⟨hmem, hpa⟩
        rcases List.mem_cons.mp hmem with rfl | hmem
        · rfl
        · exact absurd ⟨hpb, hpa⟩ (hb a hmem)
    | false =>
      rw [List.find?_cons_of_neg (Bool.eq_false_iff.mp hpb), ih hl, List.mem_cons]
      refine and_congr_left fun hpa => ⟨Or.inr, fun h => h.resolve_left ?_⟩
      rintro rfl
      rw [hpa] at hpb
      exact nomatch hpb

/-- **The order does not count.** -/
theorem find?_perm {p : β → Bool} {l l' : List β} (hl : Unique p l) (hperm : l.Perm l') :
    l'.find? p = l.find? p := by
  have hl' : Unique p l' := hperm.pairwise hl fun h hand => h hand.symm
  refine Option.ext fun a => ?_
  rw [find?_eq_some_iff hl, find?_eq_some_iff hl', hperm.mem_iff]

end PrefixPattern
