import Gccsdk.Lib.LinkedQueue

/-!
# Cursors into linked queues

A program that walks along a queue with a pointer to the link that leads to the next node, and not with a
pointer to a node, can put a node in or take one out wherever it stands: there is no difference between the
head of the queue and a node's link field. `Spot` is what such a cursor points to, and `Spot.behind` the one
behind the given first nodes of a queue.

Writing through the cursor keeps the queues: at the end it appends a node (`Queues.append_spot`), and
elsewhere, given the link of the node it leads to, it takes this node out (`Queues.remove_spot`). The two
loops are the search for a node (`seekSpot`, `Queues.seekSpot_eq`), and the one that takes out all nodes with a
property (`sweep`, `Queues.sweep_some`).
-/

namespace LinkedQueue

variable {α κ : Type}

/-- What a pointer to a link points to: the head of a queue, or the link field of a node. -/
inductive Spot (κ α : Type)
  | head (k : κ)
  | next (a : α)

/-- The heads of all queues, and the link field of the nodes. -/
structure Links (κ α : Type) where
  head : κ → Option α
  next : α → Option α

/-- The place in the queue `k` behind the given nodes. -/
def Spot.behind (k : κ) (l : List α) : Spot κ α :=
  match l.getLast? with
  | none => .head k
  | some a => .next a

@[simp] theorem Spot.behind_nil (k : κ) : Spot.behind k ([] : List α) = .head k := rfl

@[simp] theorem Spot.behind_concat (k : κ) (l : List α) (a : α) : Spot.behind k (l ++ [a]) = .next a := by
  unfold Spot.behind
  rw [List.getLast?_concat]

namespace Links

def get (links : Links κ α) : Spot κ α → Option α
  | .head k => links.head k
  | .next a => links.next a

/-- The search for a node with a property: where the loop `while (*spot && !p (*spot)) spot = &(*spot)->next`
stops. It gives none if it has not stopped after the given number of turns. -/
def seekSpot (links : Links κ α) (p : α → Bool) : ℕ → Spot κ α → Option (Spot κ α)
  | 0, _ => none
  | turns + 1, spot =>
    match links.get spot with
    | none => some spot
    | some a => if p a then some spot else seekSpot links p turns (.next a)

variable [DecidableEq κ] [DecidableEq α]

def set (links : Links κ α) : Spot κ α → Option α → Links κ α
  | .head k, x => { links with head := Function.update links.head k x }
  | .next a, x => { links with next := Function.update links.next a x }

/-- Taking out of a queue all nodes for which a test gives true. A test may also stop the program. -/
def sweep (test : α → Option Bool) : ℕ → Links κ α → Spot κ α → Option (Links κ α)
  | 0, _, _ => none
  | turns + 1, links, spot =>
    match links.get spot with
    | none => some links
    | some a =>
      match test a with
      | none => none
      | some true => sweep test turns (links.set spot (links.next a)) spot
      | some false => sweep test turns links (.next a)

end Links

namespace Queues

variable {links : Links κ α} {q : κ → List α} {k : κ} {l₁ l₂ : List α} {a : α} {p : α → Bool} {turns : ℕ}

theorem get_spot (hq : Queues links.next links.head q) (hk : q k = l₁ ++ l₂) :
    links.get (.behind k l₁) = l₂.head? := by
  have hchain := hq.chain k
  rw [hk] at hchain
  obtain rfl | ⟨l, b, rfl⟩ := l₁.eq_nil_or_concat'
  · exact hchain.head_eq
  · rw [Spot.behind_concat]
    rw [List.append_assoc] at hchain
    exact hchain.drop.head_eq

/-- **The search** stops at the first node with the property, or at the end. -/
theorem seekSpot_eq (hq : Queues links.next links.head q) (hk : q k = l₁ ++ l₂)
    (hturns : l₂.length < turns) : links.seekSpot p turns (.behind k l₁) = some (.behind k (l₁ ++ l₂.takeWhile fun a => !p a)) := by
  induction l₂ generalizing l₁ turns with
  | nil =>
    obtain ⟨turns, rfl⟩ := Nat.exists_eq_add_one_of_ne_zero (Nat.ne_of_gt hturns)
    unfold Links.seekSpot
    rw [hq.get_spot hk]
    change some _ = some _
    rw [List.takeWhile_nil, List.append_nil]
  | cons b l₂ ih =>
    obtain ⟨turns, rfl⟩ := Nat.exists_eq_add_one_of_ne_zero (Nat.ne_of_gt (Nat.zero_lt_of_lt hturns))
    unfold Links.seekSpot
    rw [hq.get_spot hk]
    change (if p b then _ else _) = _
    cases hp : p b with
    | true =>
      rw [if_pos rfl, List.takeWhile_cons_of_neg (by rw [hp]; decide), List.append_nil]
    | false =>
      have hk' : q k = (l₁ ++ [b]) ++ l₂ := by rw [hk, List.append_assoc, List.singleton_append]
      rw [if_neg Bool.false_ne_true, List.takeWhile_cons_of_pos (by rw [hp]; rfl),
        ← Spot.behind_concat k l₁ b, ih hk' (Nat.lt_of_succ_lt_succ hturns), List.append_assoc,
        List.singleton_append]

variable [DecidableEq κ] [DecidableEq α]

/-- **Writing at the end** appends a node that is on no queue. -/
theorem append_spot (hq : Queues links.next links.head q) (ha : ∀ k, a ∉ q k) (hnull : links.next a = none) :
    Queues (links.set (.behind k (q k)) (some a)).next (links.set (.behind k (q k)) (some a)).head
      (Function.update q k (q k ++ [a])) := by
  obtain hnil | ⟨l, b, hlast⟩ := (q k).eq_nil_or_concat'
  · rw [hnil]
    exact hq.push_nil ha hnull
  · have hset : links.set (.behind k (q k)) (some a)
        = { links with next := Function.update links.next b (some a) } := by
      rw [hlast, Spot.behind_concat]
      rfl
    rw [hset]
    exact hq.push_last ha hnull hlast

/-- **Writing the link of the node it leads to** takes this node out. -/
theorem remove_spot (hq : Queues links.next links.head q) (hk : q k = l₁ ++ a :: l₂) :
    Queues (links.set (.behind k l₁) (links.next a)).next (links.set (.behind k l₁) (links.next a)).head
      (Function.update q k (l₁ ++ l₂)) := by
  obtain rfl | ⟨l, b, rfl⟩ := l₁.eq_nil_or_concat'
  · exact hq.pop hk
  · rw [Spot.behind_concat]
    have hk' : q k = l ++ b :: a :: l₂ := by rw [hk, List.append_assoc, List.singleton_append]
    rw [List.append_assoc, List.singleton_append]
    exact hq.unlink hk'

/-- **The sweep** leaves the nodes for which the test gives false. -/
theorem sweep_some {test : α → Option Bool} (hq : Queues links.next links.head q) (hk : q k = l₁ ++ l₂)
    (hturns : l₂.length < turns) (htest : ∀ a ∈ l₂, (test a).isSome) :
    ∃ links', Links.sweep test turns links (.behind k l₁) = some links' ∧
      Queues links'.next links'.head
        (Function.update q k (l₁ ++ l₂.filter fun a => test a = some false)) := by
  induction l₂ generalizing l₁ turns links q with
  | nil =>
    obtain ⟨turns, rfl⟩ := Nat.exists_eq_add_one_of_ne_zero (Nat.ne_of_gt hturns)
    refine ⟨links, ?_, ?_⟩
    · unfold Links.sweep
      rw [hq.get_spot hk]
      rfl
    · rw [List.filter_nil, ← hk, Function.update_eq_self]
      exact hq
  | cons b l₂ ih =>
    obtain ⟨turns, rfl⟩ := Nat.exists_eq_add_one_of_ne_zero (Nat.ne_of_gt (Nat.zero_lt_of_lt hturns))
    have hturns' : l₂.length < turns := Nat.lt_of_succ_lt_succ hturns
    have htest' : ∀ a ∈ l₂, (test a).isSome := fun a ha => htest a (List.mem_cons_of_mem b ha)
    unfold Links.sweep
    rw [hq.get_spot hk]
    obtain ⟨drop, hb⟩ := Option.isSome_iff_exists.mp (htest b List.mem_cons_self)
    cases drop with
    | true =>
      obtain ⟨links', hsweep, hq'⟩ :=
        ih (hq.remove_spot hk) (Function.update_self k (l₁ ++ l₂) q) hturns' htest'
      refine ⟨links', ?_, ?_⟩
      · change (match test b with | none => _ | some true => _ | some false => _) = _
        rw [hb]
        exact hsweep
      · rw [List.filter_cons_of_neg (by rw [hb]; decide)]
        rwa [Function.update_idem] at hq'
    | false =>
      have hk' : q k = (l₁ ++ [b]) ++ l₂ := by rw [hk, List.append_assoc, List.singleton_append]
      obtain ⟨links', hsweep, hq'⟩ := ih hq hk' hturns' htest'
      refine ⟨links', ?_, ?_⟩
      · change (match test b with | none => _ | some true => _ | some false => _) = _
        rw [hb]
        rwa [Spot.behind_concat] at hsweep
      · rw [List.filter_cons_of_pos (by rw [hb]; decide)]
        rwa [List.append_assoc, List.singleton_append] at hq'

theorem sweep_none {test : α → Option Bool} (hq : Queues links.next links.head q) (hk : q k = l₁ ++ l₂)
    (htest : ∃ a ∈ l₂, test a = none) : Links.sweep test turns links (.behind k l₁) = none := by
  induction l₂ generalizing l₁ turns links q with
  | nil =>
    obtain ⟨a, ha, -⟩ := htest
    exact absurd ha List.not_mem_nil
  | cons b l₂ ih =>
    cases turns with
    | zero => rfl
    | succ turns =>
      unfold Links.sweep
      rw [hq.get_spot hk]
      change (match test b with | none => _ | some true => _ | some false => _) = _
      cases hb : test b with
      | none => rfl
      | some drop =>
        have htest' : ∃ a ∈ l₂, test a = none := by
          obtain ⟨a, ha, hstop⟩ := htest
          obtain rfl | ha := List.mem_cons.mp ha
          · rw [hb] at hstop
            cases hstop
          · exact ⟨a, ha, hstop⟩
        cases drop with
        | true => exact ih (hq.remove_spot hk) (Function.update_self k (l₁ ++ l₂) q) htest'
        | false =>
          have hk' : q k = (l₁ ++ [b]) ++ l₂ := by rw [hk, List.append_assoc, List.singleton_append]
          have hstop : Links.sweep test turns links (.behind k (l₁ ++ [b])) = none := ih hq hk' htest'
          rwa [Spot.behind_concat] at hstop

end Queues

end LinkedQueue
