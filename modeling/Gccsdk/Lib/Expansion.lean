import Mathlib.Data.List.Basic
import Mathlib.Data.List.Infix
import Mathlib.Data.List.Nodup
import Mathlib.Data.List.Perm.Subperm
import Mathlib.Algebra.Order.BigOperators.Group.List
import Mathlib.Tactic.Linarith

/-!
# Expansion with rescanning

A text in which a reference is replaced by its value again and again. A reader takes the first reference off
the front of a text, with all that is before it, and the value is put in front of the rest. The reader looks
no further than the end of the reference (`read_append`), and there are finitely many keys.

The values that are not yet used up lie on each other like the levels of a stack. If no key is referenced
while its own value is on the stack, the stack is no higher than there are keys, and a weight that counts
the lower levels more goes down with each step. If one is, then what has led to it can be repeated for ever.
So **the expansion ends just if no key that it comes to leads from its own value to itself** (`ends_iff`).
-/

namespace Expansion

variable {α K : Type}

/-- **A reader of references**, with the values of the keys. -/
structure Reader (α K : Type) where
  read : List α → Option (K × List α)
  value : K → List α
  keys : List K
  mem_keys : ∀ {t k rest}, read t = some (k, rest) → k ∈ keys
  consumes : ∀ {t k rest}, read t = some (k, rest) → ∃ front, t = front ++ rest ∧ front ≠ []
  read_append : ∀ {t k rest} (more : List α), read (t ++ more) = some (k, rest ++ more) ↔ read t =
    some (k, rest)

variable (R : Reader α K)

inductive Reaches : List α → List α → Prop
  | refl (t : List α) : Reaches t t
  | step {t rest u : List α} {k : K} (hread : R.read t = some (k, rest)) (h : Reaches (R.value k ++ rest) u) :
      Reaches t u

/-- **A text leads to a key**: it comes to a text that begins with a reference to it. -/
def Leads (t : List α) (k : K) : Prop := ∃ u rest, Reaches R t u ∧ R.read u = some (k, rest)

def EndsIn : ℕ → List α → Prop
  | n, t =>
    match R.read t with
    | none => True
    | some (k, rest) =>
      match n with
      | 0 => False
      | n + 1 => EndsIn n (R.value k ++ rest)

/-- **The expansion of a text ends.** -/
def Ends (t : List α) : Prop := ∃ n, EndsIn R n t

variable {R} {t u v rest : List α} {k : K} {n : ℕ}

theorem endsIn_of_none (h : R.read t = none) : EndsIn R n t := by
  unfold EndsIn
  rw [h]
  trivial

theorem endsIn_succ_iff (h : R.read t = some (k, rest)) :
    EndsIn R (n + 1) t ↔ EndsIn R n (R.value k ++ rest) := by
  rw [EndsIn, h]

theorem not_endsIn_zero (h : R.read t = some (k, rest)) : ¬EndsIn R 0 t := by
  rw [EndsIn, h]
  exact id

theorem Reaches.trans (h : Reaches R t u) (h' : Reaches R u v) : Reaches R t v := by
  induction h with
  | refl => exact h'
  | step hread _ ih => exact .step hread (ih h')

theorem Reaches.snoc (h : Reaches R t u) (hread : R.read u = some (k, rest)) :
    Reaches R t (R.value k ++ rest) :=
  h.trans (.step hread (.refl _))

theorem Reaches.append (h : Reaches R t u) (more : List α) : Reaches R (t ++ more) (u ++ more) := by
  induction h with
  | refl => exact .refl _
  | step hread _ ih =>
    refine .step ((R.read_append more).mpr hread) ?_
    rw [← List.append_assoc]
    exact ih

theorem Reaches.endsIn (h : Reaches R t u) (hends : EndsIn R n t) : ∃ m ≤ n, EndsIn R m u := by
  induction h generalizing n with
  | refl => exact ⟨n, Nat.le_refl n, hends⟩
  | step hread _ ih =>
    cases n with
    | zero => exact absurd hends (not_endsIn_zero hread)
    | succ n =>
      obtain ⟨m, hm, hu⟩ := ih ((endsIn_succ_iff hread).mp hends)
      exact ⟨m, Nat.le_succ_of_le hm, hu⟩

/-! ### What does not end -/

theorem not_endsIn_of_leads (h : Leads R (R.value k) k) (n : ℕ) (more : List α) :
    ¬EndsIn R n (R.value k ++ more) := by
  induction n using Nat.strong_induction_on generalizing more with
  | _ n ih =>
    intro hends
    obtain ⟨u, rest, hreach, hread⟩ := h
    obtain ⟨m, hm, hu⟩ := (hreach.append more).endsIn hends
    have hread' : R.read (u ++ more) = some (k, rest ++ more) := (R.read_append more).mpr hread
    cases m with
    | zero => exact not_endsIn_zero hread' hu
    | succ m => exact ih m hm (rest ++ more) ((endsIn_succ_iff hread').mp hu)

/-- **A loop**: the expansion comes to a key whose value leads to it again. -/
theorem not_ends_of_leads (h : Leads R t k) (hself : Leads R (R.value k) k) : ¬Ends R t := by
  rintro ⟨n, hn⟩
  obtain ⟨u, rest, hreach, hread⟩ := h
  obtain ⟨m, -, hm⟩ := (hreach.snoc hread).endsIn hn
  exact not_endsIn_of_leads hself m rest hm

/-! ### The stack of values -/

/-- The values that are in use, the latest first, each with what is left of it. -/
abbrev Levels (α K : Type) := List (K × List α)

def stackText (levels : Levels α K) : List α := levels.flatMap Prod.snd

/-- **The stack of an expansion**: the keys on it are different, the expansion has come to them, and the
value of each leads to what is on the stack from its level on. -/
structure Stacked (R : Reader α K) (start : List α) (levels : Levels α K) (base : List α) : Prop where
  reaches : Reaches R start (stackText levels ++ base)
  nodup : (levels.map Prod.fst).Nodup
  subset : ∀ l ∈ levels, l.1 ∈ R.keys
  leads : ∀ l ∈ levels, Leads R start l.1
  own : ∀ top k s below, levels = top ++ (k, s) :: below → Reaches R (R.value k) (stackText top ++ s)

theorem takeOff {levels : Levels α K} {base front rest : List α}
    (h : stackText levels ++ base = front ++ rest)
    (hfront : front ≠ []) :
    (∃ x, base = x ++ rest ∧ x ≠ [] ∧ front = stackText levels ++ x) ∨
      ∃ top k s x s' below, levels = top ++ (k, s) :: below ∧ s = x ++ s' ∧ x ≠ [] ∧
        front = stackText top ++ x ∧ rest = s' ++ stackText below ++ base := by
  induction levels generalizing front with
  | nil => exact Or.inl ⟨front, h, hfront, rfl⟩
  | cons l levels ih =>
    obtain ⟨k, s⟩ := l
    have hcons : stackText ((k, s) :: levels) = s ++ stackText levels := rfl
    rw [hcons, List.append_assoc] at h
    rcases List.append_eq_append_iff.mp h with ⟨x, hfrontx, hrest⟩ | ⟨s', hs, hrest⟩
    · -- the whole level is taken off
      by_cases hx : x = []
      · subst hx
        rw [List.append_nil] at hfrontx
        subst hfrontx
        refine Or.inr ⟨[], k, front, front, [], levels, rfl, (List.append_nil _).symm, hfront, rfl, ?_⟩
        exact hrest.symm
      · rcases ih hrest hx with ⟨y, hbase, hy, rfl⟩ | ⟨top, k', s₁, y, s', below, rfl, hs, hy, rfl, hleft⟩
        · refine Or.inl ⟨y, hbase, hy, ?_⟩
          rw [hfrontx, hcons, List.append_assoc]
        · refine Or.inr ⟨(k, s) :: top, k', s₁, y, s', below, rfl, hs, hy, ?_, hleft⟩
          rw [hfrontx, ← List.append_assoc]
          rfl
    · refine Or.inr ⟨[], k, s, front, s', levels, rfl, hs, hfront, rfl, ?_⟩
      rw [hrest, List.append_assoc]

theorem stackText_append (top levels : Levels α K) :
    stackText (top ++ levels) = stackText top ++ stackText levels :=
  List.flatMap_append

theorem stackText_nil : stackText ([] : Levels α K) = [] := rfl

theorem stackText_cons (k : K) (s : List α) (levels : Levels α K) :
    stackText ((k, s) :: levels) = s ++ stackText levels := rfl

theorem Stacked.read_level {start : List α} {top below : Levels α K} {base s s' : List α} {k k' : K}
    (h : Stacked R start (top ++ (k', s) :: below) base)
    (hread : R.read (stackText (top ++ (k', s) :: below) ++ base) = some (k, s' ++ stackText below ++ base))
    {top₂ below₂ : Levels α K} {k₂ : K} {s₂ : List α} (hlevel : (k', s') :: below = top₂ ++ (k₂, s₂) ::
      below₂) :
    ∃ u, Reaches R (R.value k₂) u ∧ R.read u = some (k, stackText top₂ ++ s₂) := by
  cases top₂ with
  | nil =>
    obtain ⟨hkey, rfl⟩ := List.cons.inj hlevel
    obtain ⟨rfl, rfl⟩ := Prod.mk.inj hkey
    refine ⟨_, h.own top k' s below rfl, ?_⟩
    refine (R.read_append (stackText below ++ base)).mp ?_
    rw [stackText_append, stackText_cons] at hread
    simpa only [List.append_assoc, stackText_nil, List.nil_append] using hread
  | cons l top₂ =>
    obtain ⟨rfl, htail⟩ := List.cons.inj hlevel
    have hbelow : below = top₂ ++ (k₂, s₂) :: below₂ := htail
    subst hbelow
    refine ⟨_, h.own (top ++ (k', s) :: top₂) k₂ s₂ below₂ (by rw [List.append_assoc]; rfl), ?_⟩
    refine (R.read_append (stackText below₂ ++ base)).mp ?_
    rw [stackText_append, stackText_cons, stackText_append, stackText_cons] at hread
    rw [stackText_append, stackText_cons, stackText_cons]
    simpa only [List.append_assoc] using hread

def weight (B N : ℕ) : Levels α K → List α → ℕ
  | [], base => base.length * B ^ N
  | (_, s) :: levels, base => s.length * B ^ (N - (levels.length + 1)) + weight B N levels base

theorem le_weight_append (B N : ℕ) (top : Levels α K) (levels : Levels α K) (base : List α) :
    weight B N levels base ≤ weight B N (top ++ levels) base := by
  induction top with
  | nil => exact Nat.le_refl _
  | cons l top ih => exact Nat.le_trans ih (Nat.le_add_left _ _)

theorem value_lt {B N d : ℕ} (hd : d < N) {value : List α} (hB : value.length < B) {x : List α}
    (hx : x ≠ []) :
    value.length * B ^ (N - (d + 1)) < x.length * B ^ (N - d) := by
  have hpos : 0 < x.length := List.length_pos_of_ne_nil hx
  have hsplit : N - d = (N - (d + 1)) + 1 := by omega
  calc value.length * B ^ (N - (d + 1)) < B * B ^ (N - (d + 1)) :=
        Nat.mul_lt_mul_of_pos_right hB (Nat.pow_pos (Nat.zero_lt_of_lt hB))
    _ = B ^ (N - d) := by rw [hsplit, Nat.pow_succ, Nat.mul_comm]
    _ ≤ x.length * B ^ (N - d) := Nat.le_mul_of_pos_left _ hpos

/-- **One step on the stack** makes it lighter, if no key leads to itself. -/
theorem Stacked.step {start : List α} {levels : Levels α K} {base rest : List α} {k : K} {B : ℕ}
    (h : Stacked R start levels base) (hgood : ∀ k, Leads R start k → ¬Leads R (R.value k) k)
    (hB : ∀ k ∈ R.keys, (R.value k).length < B) (hread : R.read (stackText levels ++ base) = some (k, rest)) :
    ∃ levels' base', Stacked R start levels' base' ∧ stackText levels' ++ base' = R.value k ++ rest ∧
      weight B R.keys.length levels' base' < weight B R.keys.length levels base := by
  have hkey : k ∈ R.keys := R.mem_keys hread
  have hleads : Leads R start k := ⟨_, rest, h.reaches, hread⟩
  obtain ⟨front, hfront, hne⟩ := R.consumes hread
  have hnext : Reaches R start (R.value k ++ rest) := h.reaches.snoc hread
  rcases takeOff hfront hne with ⟨x, rfl, hx, -⟩ | ⟨top, k', s, x, s', below, rfl, hs, hx, -, rfl⟩
  · -- all levels are used up
    have hlevel : stackText [(k, R.value k)] = R.value k := List.append_nil _
    refine ⟨[(k, R.value k)], rest, ⟨?_, List.nodup_singleton k, ?_, ?_, ?_⟩, ?_, ?_⟩
    · rw [hlevel]
      exact hnext
    · intro l hl
      rw [List.mem_singleton.mp hl]
      exact hkey
    · intro l hl
      rw [List.mem_singleton.mp hl]
      exact hleads
    · intro top k₂ s₂ below hsplit
      cases top with
      | nil =>
        obtain ⟨rfl, rfl⟩ := Prod.mk.inj (List.cons.inj hsplit).1
        exact .refl _
      | cons l top => exact absurd (List.cons.inj hsplit).2 (List.nil_eq_append_iff.not.mpr fun h => nomatch h.2)
    · rw [hlevel]
    · have hvalue := value_lt (N := R.keys.length) (List.length_pos_of_mem hkey) (hB k hkey) hx
      have hweight := le_weight_append B R.keys.length levels [] (x ++ rest)
      rw [List.append_nil] at hweight
      refine Nat.lt_of_lt_of_le ?_ hweight
      change (R.value k).length * B ^ (R.keys.length - (0 + 1)) + rest.length * B ^ R.keys.length <
        (x ++ rest).length * B ^ R.keys.length
      rw [List.length_append, Nat.add_mul]
      exact Nat.add_lt_add_right hvalue _
  · -- one level is the new one's ground
    have hbelow : ∀ l ∈ (k', s') :: below, l.1 ≠ k := by
      rintro ⟨key, left⟩ hl heq
      obtain ⟨top₂, below₂, hsplit⟩ := List.append_of_mem hl
      obtain ⟨u, hu, hreadu⟩ := h.read_level hread hsplit
      obtain rfl : key = k := heq
      exact hgood key hleads ⟨u, _, hu, hreadu⟩
    have hnodup : (((k, R.value k) :: (k', s') :: below).map Prod.fst).Nodup := by
      have hold : ((k', s) :: below).map Prod.fst <:+ (top ++ (k', s) :: below).map Prod.fst := by
        rw [List.map_append]
        exact List.suffix_append _ _
      refine List.nodup_cons.mpr ⟨fun hmem => ?_, h.nodup.sublist hold.sublist⟩
      obtain ⟨l, hl, heq⟩ := List.mem_map.mp hmem
      exact hbelow l hl heq
    -- what holds of all keys of the stack holds of the new one too
    have hkeys : ∀ P : K → Prop, (∀ l ∈ top ++ (k', s) :: below, P l.1) → P k →
        ∀ l ∈ (k, R.value k) :: (k', s') :: below, P l.1 := by
      intro P hall hk l hl
      rcases List.mem_cons.mp hl with rfl | hl
      · exact hk
      · rcases List.mem_cons.mp hl with rfl | hl
        · exact hall (k', s) (List.mem_append_right _ (List.mem_cons_self ..))
        · exact hall l (List.mem_append_right _ (List.mem_cons_of_mem _ hl))
    have hsubset := hkeys (· ∈ R.keys) h.subset hkey
    refine ⟨(k, R.value k) :: (k', s') :: below, base, ⟨?_, hnodup, hsubset, ?_, ?_⟩, ?_, ?_⟩
    · rw [stackText_cons, stackText_cons]
      simpa only [List.append_assoc] using hnext
    · exact hkeys (Leads R start) h.leads hleads
    · intro top₂ k₂ s₂ below₂ hsplit
      cases top₂ with
      | nil =>
        obtain ⟨rfl, rfl⟩ := Prod.mk.inj (List.cons.inj hsplit).1
        exact .refl _
      | cons l top₂ =>
        have htail : (k', s') :: below = top₂ ++ (k₂, s₂) :: below₂ := (List.cons.inj hsplit).2
        obtain rfl := (List.cons.inj hsplit).1
        obtain ⟨u, hu, hreadu⟩ := h.read_level hread htail
        rw [stackText_cons, List.append_assoc]
        exact hu.snoc hreadu
    · rw [stackText_cons, stackText_cons]
      simp only [List.append_assoc]
    · have hheight : below.length + 1 < R.keys.length := by
        have hsub : ((k, R.value k) :: (k', s') :: below).map Prod.fst ⊆ R.keys := by
          intro key hmem
          obtain ⟨l, hl, rfl⟩ := List.mem_map.mp hmem
          exact hsubset l hl
        have hle := (List.subperm_of_subset hnodup hsub).length_le
        rw [List.length_map] at hle
        exact hle
      have hvalue := value_lt hheight (hB k hkey) hx
      refine Nat.lt_of_lt_of_le ?_ (le_weight_append B R.keys.length top ((k', s) :: below) base)
      change (R.value k).length * B ^ (R.keys.length - (below.length + 1 + 1)) +
          (s'.length * B ^ (R.keys.length - (below.length + 1)) + weight B R.keys.length below base) <
        s.length * B ^ (R.keys.length - (below.length + 1)) + weight B R.keys.length below base
      rw [hs, List.length_append, Nat.add_mul]
      linarith

/-! ### What ends -/

theorem exists_bound (R : Reader α K) : ∃ B, ∀ k ∈ R.keys, (R.value k).length < B := by
  refine ⟨(R.keys.map fun k => (R.value k).length).sum + 1, fun k hk => Nat.lt_succ_of_le ?_⟩
  exact List.le_sum_of_mem (List.mem_map_of_mem hk)

theorem Stacked.ends {start : List α} {levels : Levels α K} {base : List α} {B : ℕ}
    (h : Stacked R start levels base)
    (hgood : ∀ k, Leads R start k → ¬Leads R (R.value k) k) (hB : ∀ k ∈ R.keys, (R.value k).length < B) :
    Ends R (stackText levels ++ base) := by
  induction hw :
    weight B R.keys.length levels base using Nat.strong_induction_on generalizing levels base with
  | _ w ih =>
    cases hread : R.read (stackText levels ++ base) with
    | none => exact ⟨0, endsIn_of_none hread⟩
    | some r =>
      obtain ⟨k, rest⟩ := r
      obtain ⟨levels', base', hnext, htext, hlt⟩ := h.step hgood hB hread
      obtain ⟨n, hn⟩ := ih _ (hw ▸ hlt) hnext rfl
      rw [htext] at hn
      exact ⟨n + 1, (endsIn_succ_iff hread).mpr hn⟩

/-- **The expansion ends just if no key that it comes to leads from its own value to itself.** -/
theorem ends_iff : Ends R t ↔ ∀ k, Leads R t k → ¬Leads R (R.value k) k := by
  constructor
  · intro hends k hleads hself
    exact not_ends_of_leads hleads hself hends
  · intro hgood
    obtain ⟨B, hB⟩ := exists_bound R
    have hstart : Stacked R t [] t := by
      refine ⟨.refl t, List.nodup_nil, nofun, nofun, fun top k s below hsplit => ?_⟩
      exact absurd hsplit.symm (List.append_ne_nil_of_right_ne_nil _ (List.cons_ne_nil _ _))
    exact hstart.ends hgood hB

end Expansion
