import Mathlib.Data.List.Nodup
import Mathlib.Logic.Function.Basic

/-!
# Queues linked through a field of their members

A queue is a head pointer together with a link field `next` of the members: `Chain next h l` says that
following the links from `h` visits the nodes `l` and ends at a null link. The loops of a program over
such a queue are `last`, `before` and `find`; they take a bound on the number of nodes they may visit,
and give `none` where this does not reach the end of the loop. On a chain they are the list functions
one expects (`Chain.last_eq`, `Chain.before_eq`, `Chain.find_eq`).

Several queues may share one link field (`Queues`), as long as no node is a member of two of them. The
links of nodes that are on no queue are then of no importance (`Queues.frame`), whatever a former
membership has left in them.
-/

namespace LinkedQueue

variable {α κ : Type}

/-- The links from `h` lead through the nodes `l` to a null link. -/
def Chain (next : α → Option α) : Option α → List α → Prop
  | h, [] => h = none
  | h, a :: l => h = some a ∧ Chain next (next a) l

def last (next : α → Option α) : ℕ → α → Option α
  | 0, _ => none
  | fuel + 1, a =>
    match next a with
    | none => some a
    | some b => last next fuel b

/-- The first node whose link leads to `t`; `some none` when the end is reached first. -/
def before [DecidableEq α] (next : α → Option α) (t : α) : ℕ → Option α → Option (Option α)
  | _, none => some none
  | 0, some _ => none
  | fuel + 1, some a => if next a = some t then some (some a) else before next t fuel (next a)

/-- The first node behind which `t` stands or nothing, from the given one on. -/
def seek [DecidableEq α] (next : α → Option α) (t : α) : ℕ → α → Option α
  | 0, _ => none
  | fuel + 1, a =>
    match next a with
    | none => some a
    | some b => if b = t then some a else seek next t fuel b

/-- The first node with a property; `some none` when the end is reached first. -/
def find (next : α → Option α) (p : α → Bool) : ℕ → Option α → Option (Option α)
  | _, none => some none
  | 0, some _ => none
  | fuel + 1, some a => if p a then some (some a) else find next p fuel (next a)

/-! ### Chains -/

@[simp] theorem chain_nil {next : α → Option α} {h : Option α} : Chain next h [] ↔ h = none :=
  Iff.rfl

@[simp] theorem chain_cons {next : α → Option α} {h : Option α} {a : α} {l : List α} :
    Chain next h (a :: l) ↔ h = some a ∧ Chain next (next a) l := Iff.rfl

variable {next next' : α → Option α} {h : Option α} {l l₁ l₂ : List α} {a b t : α}

theorem Chain.unique : ∀ {h : Option α} {l l' : List α},
    Chain next h l → Chain next h l' → l = l'
  | _, [], [], _, _ => rfl
  | _, [], _ :: _, hl, hl' => by
    rw [chain_nil.mp hl] at hl'
    exact absurd hl'.1 (by simp)
  | _, _ :: _, [], hl, hl' => by
    rw [chain_nil.mp hl'] at hl
    exact absurd hl.1 (by simp)
  | h, a :: l, b :: l', hl, hl' => by
    have hab : a = b := Option.some.inj (hl.1.symm.trans hl'.1)
    subst hab
    rw [hl.2.unique hl'.2]

theorem Chain.congr : ∀ {h : Option α} {l : List α}, (∀ a ∈ l, next' a = next a) →
    Chain next h l → Chain next' h l
  | _, [], _, hl => hl
  | h, a :: l, heq, hl => by
    refine ⟨hl.1, ?_⟩
    rw [heq a (List.mem_cons_self ..)]
    exact hl.2.congr fun b hb => heq b (List.mem_cons_of_mem a hb)

theorem Chain.drop : ∀ {h : Option α} {l₁ : List α}, Chain next h (l₁ ++ a :: l₂) →
    Chain next (next a) l₂
  | _, [], hl => hl.2
  | _, _ :: _, hl => Chain.drop hl.2

theorem Chain.head_eq (hl : Chain next h l) : h = l.head? := by
  cases l with
  | nil => exact hl
  | cons a l => exact hl.1

theorem Chain.eq_nil_iff (hl : Chain next h l) : l = [] ↔ h = none := by
  rw [hl.head_eq]
  cases l <;> simp

/-- **A chain that ends has no node twice**: the rest behind the two places would be the same. -/
theorem Chain.nodup : ∀ {h : Option α} {l : List α}, Chain next h l → l.Nodup
  | _, [], _ => List.nodup_nil
  | h, a :: l, hl => by
    refine List.nodup_cons.mpr ⟨fun hmem => ?_, hl.2.nodup⟩
    obtain ⟨l₁, l₂, rfl⟩ := List.append_of_mem hmem
    have hsame := hl.2.unique hl.2.drop
    have hlen := congrArg List.length hsame
    simp only [List.length_append, List.length_cons] at hlen
    omega

/-! ### The loops over a chain -/

theorem Chain.last_eq : ∀ {l : List α} {a : α}, Chain next (some a) (l ++ [b]) → ∀ fuel,
    last next fuel a = if l.length < fuel then some b else none
  | [], a, hl, fuel => by
    obtain rfl : a = b := Option.some.inj hl.1
    cases fuel with
    | zero => rfl
    | succ fuel =>
      have hnull : next a = none := hl.2
      simp [last, hnull]
  | c :: l, a, hl, fuel => by
    obtain rfl : a = c := Option.some.inj hl.1
    cases fuel with
    | zero => rfl
    | succ fuel =>
      -- the link of an inner node is not null, so the loop goes on from the rest of the chain
      cases hnext : next a with
      | none =>
        have hrest : Chain next (next a) (l ++ [b]) := hl.2
        rw [hnext] at hrest
        exact absurd (hrest.eq_nil_iff.mpr rfl) (by simp)
      | some c =>
        have hrest : Chain next (some c) (l ++ [b]) := hnext ▸ hl.2
        simp [last, hnext, hrest.last_eq fuel]

/-- Looking for the node before `t`. -/
theorem Chain.before_eq [DecidableEq α] : ∀ {h : Option α} {l₁ : List α},
    Chain next h (l₁ ++ b :: t :: l₂) → ∀ fuel,
    before next t fuel h = if l₁.length < fuel then some (some b) else none
  | h, [], hl, fuel => by
    obtain ⟨rfl, hnext, -⟩ := hl
    cases fuel with
    | zero => rfl
    | succ fuel => simp [before, hnext]
  | h, c :: l₁, hl, fuel => by
    obtain ⟨rfl, hrest⟩ := hl
    cases fuel with
    | zero => rfl
    | succ fuel =>
      have hne : next c ≠ some t := by
        -- `t` is further behind, and stands in the chain only once
        intro heq
        have hnodup := Chain.nodup (heq ▸ hrest : Chain next (some t) _)
        have hhead := Chain.head_eq (heq ▸ hrest : Chain next (some t) _)
        cases l₁ with
        | nil => simp_all
        | cons d l₁ => simp_all
      simp [before, hne, Chain.before_eq hrest fuel]

theorem Chain.seek_eq [DecidableEq α] : ∀ {l₁ : List α} {a : α},
    Chain next (some a) (l₁ ++ b :: t :: l₂) → ∀ fuel,
    seek next t fuel a = if l₁.length < fuel then some b else none
  | [], a, hl, fuel => by
    obtain ⟨ha, hnext, -⟩ := hl
    obtain rfl := Option.some.inj ha
    cases fuel with
    | zero => rfl
    | succ fuel => simp [seek, hnext]
  | c :: l₁, a, hl, fuel => by
    obtain ⟨ha, hrest⟩ := hl
    obtain rfl := Option.some.inj ha
    cases fuel with
    | zero => rfl
    | succ fuel =>
      cases hnext : next a with
      | none =>
        rw [hnext] at hrest
        exact absurd (hrest.eq_nil_iff.mpr rfl) (by simp)
      | some d =>
        rw [hnext] at hrest
        -- `t` stands in the chain once, and not at this place
        have hdt : d ≠ t := by
          rintro rfl
          have hnodup := hrest.nodup
          have hhead := hrest.head_eq
          cases l₁ with
          | nil => simp_all
          | cons e l₁ => simp_all
        simp [seek, hnext, hdt, hrest.seek_eq fuel]

theorem Chain.find_eq {p : α → Bool} : ∀ {h : Option α} {l : List α}, Chain next h l →
    ∀ {fuel : ℕ} {r : Option α}, find next p fuel h = some r → r = l.find? p
  | _, [], hl, fuel, r, hr => by
    rw [chain_nil.mp hl] at hr
    cases fuel <;> simp_all [find]
  | h, a :: l, hl, fuel, r, hr => by
    obtain ⟨rfl, hrest⟩ := hl
    cases fuel with
    | zero => simp [find] at hr
    | succ fuel =>
      rw [find] at hr
      split at hr
      · rename_i hp
        simpa [hp] using hr.symm
      · rename_i hp
        simpa [hp] using hrest.find_eq hr

theorem Chain.find_isSome {p : α → Bool} : ∀ {h : Option α} {l : List α}, Chain next h l →
    (find next p l.length h).isSome
  | _, [], hl => by
    rw [chain_nil.mp hl]
    rfl
  | h, a :: l, hl => by
    obtain ⟨rfl, hrest⟩ := hl
    simp only [List.length_cons, find]
    split
    · rfl
    · exact hrest.find_isSome

/-! ### Changing a chain -/

theorem Chain.snoc [DecidableEq α] : ∀ {h : Option α} {l : List α},
    Chain next h (l ++ [b]) → a ∉ l ++ [b] → next a = none →
    Chain (Function.update next b (some a)) h (l ++ [b, a])
  | h, [], hl, ha, hnull => by
    have hne : a ≠ b := by simpa using ha
    refine ⟨hl.1, ?_⟩
    simp [hne, hnull]
  | h, c :: l, hl, ha, hnull => by
    have hnodup := hl.nodup
    have hcb : c ≠ b := by
      rintro rfl
      simp at hnodup
    refine ⟨hl.1, ?_⟩
    rw [Function.update_of_ne hcb]
    refine Chain.snoc hl.2 (fun hmem => ha ?_) hnull
    exact List.mem_cons_of_mem c hmem

theorem Chain.unlink [DecidableEq α] : ∀ {h : Option α} {l₁ : List α},
    Chain next h (l₁ ++ b :: a :: l₂) →
    Chain (Function.update next b (next a)) h (l₁ ++ b :: l₂)
  | h, [], hl => by
    have hnodup := hl.nodup
    obtain ⟨hh, hb, hrest⟩ := hl
    refine ⟨hh, ?_⟩
    rw [Function.update_self]
    refine hrest.congr fun c hc => Function.update_of_ne ?_ _ _
    rintro rfl
    simp [hc] at hnodup
  | h, c :: l₁, hl => by
    have hnodup := hl.nodup
    have hcb : c ≠ b := by
      rintro rfl
      simp at hnodup
    refine ⟨hl.1, ?_⟩
    rw [Function.update_of_ne hcb]
    exact Chain.unlink hl.2

theorem Chain.split_next : ∀ {h : Option α} {l : List α}, Chain next h l → a ∈ l → next a = some b →
    ∃ l₁ l₂, l = l₁ ++ a :: b :: l₂
  | _, [], _, ha, _ => absurd ha (by simp)
  | h, c :: l, hl, ha, hb => by
    rcases List.mem_cons.mp ha with rfl | ha
    · -- the successor is the head of the rest
      have hrest := hl.2
      rw [hb] at hrest
      cases l with
      | nil => exact absurd hrest (by simp)
      | cons d l =>
        obtain rfl := Option.some.inj hrest.1
        exact ⟨[], l, rfl⟩
    · obtain ⟨l₁, l₂, rfl⟩ := hl.2.split_next ha hb
      exact ⟨c :: l₁, l₂, rfl⟩

theorem Chain.push [DecidableEq α] (hl : Chain next h l) (ha : a ∉ l) :
    Chain (Function.update next a h) (some a) (a :: l) := by
  refine ⟨rfl, ?_⟩
  rw [Function.update_self]
  refine hl.congr fun b hb => Function.update_of_ne ?_ _ _
  rintro rfl
  exact ha hb

/-! ### Queues that share one link field -/

/-- The queues `q` with the heads `head`, no node being on two of them. -/
structure Queues (next : α → Option α) (head : κ → Option α) (q : κ → List α) : Prop where
  chain : ∀ k, Chain next (head k) (q k)
  disjoint : ∀ {a : α} {k k' : κ}, a ∈ q k → a ∈ q k' → k = k'

namespace Queues

variable {head : κ → Option α} {q : κ → List α} {k : κ}

/-- **Frame.** Links of nodes on no queue do not matter. -/
theorem frame (hq : Queues next head q) (heq : ∀ k, ∀ a ∈ q k, next' a = next a) :
    Queues next' head q where
  chain k := (hq.chain k).congr (heq k)
  disjoint := hq.disjoint

theorem frame_update [DecidableEq α] (hq : Queues next head q) (ha : ∀ k, a ∉ q k)
    (x : Option α) : Queues (Function.update next a x) head q := by
  refine hq.frame fun k b hb => Function.update_of_ne ?_ _ _
  rintro rfl
  exact ha k hb

variable [DecidableEq κ]

private theorem replace (hq : Queues next head q) (next' : α → Option α) {l : List α}
    {x : Option α}
    (hframe : ∀ k', k' ≠ k → ∀ a ∈ q k', next' a = next a)
    (hsub : ∀ a ∈ l, ∀ k', k' ≠ k → a ∉ q k') (hl : Chain next' x l) :
    Queues next' (Function.update head k x) (Function.update q k l) where
  chain k' := by
    by_cases hk : k' = k
    · subst hk
      simpa using hl
    · simpa [hk] using (hq.chain k').congr (hframe k' hk)
  disjoint := by
    intro a i j hi hj
    by_cases hik : i = k
    · by_cases hjk : j = k
      · rw [hik, hjk]
      · rw [hik, Function.update_self] at hi
        rw [Function.update_of_ne hjk] at hj
        exact absurd hj (hsub a hi j hjk)
    · rw [Function.update_of_ne hik] at hi
      by_cases hjk : j = k
      · rw [hjk, Function.update_self] at hj
        exact absurd hi (hsub a hj i hik)
      · rw [Function.update_of_ne hjk] at hj
        exact hq.disjoint hi hj

omit [DecidableEq κ] in
theorem not_mem_of_ne (hq : Queues next head q) (ha : a ∈ q k) {k' : κ} (hk : k' ≠ k) : a ∉ q k' :=
  fun ha' => hk (hq.disjoint ha' ha)

omit [DecidableEq κ] in
theorem ne_of_mem (hq : Queues next head q) (ha : a ∈ q k) {k' : κ} (hk : k' ≠ k) {c : α}
    (hc : c ∈ q k') : c ≠ a := by
  rintro rfl
  exact hq.not_mem_of_ne ha hk hc

theorem push_nil (hq : Queues next head q) (ha : ∀ k, a ∉ q k) (hnull : next a = none) :
    Queues next (Function.update head k (some a)) (Function.update q k [a]) := by
  refine hq.replace next (fun _ _ _ _ => rfl) ?_ ⟨rfl, hnull⟩
  intro b hb k' _
  rw [List.mem_singleton.mp hb]
  exact ha k'

theorem push_last [DecidableEq α] (hq : Queues next head q) (ha : ∀ k, a ∉ q k)
    (hnull : next a = none) (hb : q k = l ++ [b]) :
    Queues (Function.update next b (some a)) head (Function.update q k (q k ++ [a])) := by
  have hmem : b ∈ q k := by simp [hb]
  have hchain := hq.chain k
  rw [hb] at hchain
  have hnew := hchain.snoc (hb ▸ ha k) hnull
  have hrepl := hq.replace (k := k) (Function.update next b (some a))
    (fun k' hk c hc => Function.update_of_ne (hq.ne_of_mem hmem hk hc) _ _)
    (fun c hc k' hk => ?_) hnew
  · rw [Function.update_eq_self] at hrepl
    simpa [hb] using hrepl
  · intro hc'
    have hcases : c ∈ q k ∨ c = a := by
      simpa [hb, or_assoc] using hc
    rcases hcases with hck | rfl
    · exact hq.not_mem_of_ne hck hk hc'
    · exact ha k' hc'

theorem pop (hq : Queues next head q) (hk : q k = a :: l) :
    Queues next (Function.update head k (next a)) (Function.update q k l) := by
  have hchain := hq.chain k
  rw [hk] at hchain
  refine hq.replace next (fun _ _ _ _ => rfl) (fun b hb k' hk' => ?_) hchain.2
  exact hq.not_mem_of_ne (hk ▸ List.mem_cons_of_mem a hb) hk'

theorem unlink [DecidableEq α] (hq : Queues next head q) (hk : q k = l₁ ++ b :: a :: l₂) :
    Queues (Function.update next b (next a)) head (Function.update q k (l₁ ++ b :: l₂)) := by
  have hmem : b ∈ q k := by simp [hk]
  have hchain := hq.chain k
  rw [hk] at hchain
  have hrepl := hq.replace (k := k) (Function.update next b (next a))
    (fun k' hk' c hc => Function.update_of_ne (hq.ne_of_mem hmem hk' hc) _ _)
    (fun c hc k' hk' => hq.not_mem_of_ne (k := k) (a := c) ?_ hk') hchain.unlink
  · rwa [Function.update_eq_self] at hrepl
  · rw [hk]
    simp only [List.mem_append, List.mem_cons] at hc ⊢
    tauto

theorem clear (hq : Queues next head q) :
    Queues next (Function.update head k none) (Function.update q k []) :=
  hq.replace next (fun _ _ _ _ => rfl) (fun _ ha => absurd ha (by simp)) rfl

end Queues

end LinkedQueue
