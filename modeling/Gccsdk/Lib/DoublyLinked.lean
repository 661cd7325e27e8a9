import Mathlib.Data.List.Nodup
import Mathlib.Data.Int.Notation
import Mathlib.Logic.Function.Basic
import Gccsdk.Lib.LinkedQueue

/-!
# Doubly linked lists

Nodes with a link to the node before and a link to the node behind, and a header with the first node, the
last node and the number of nodes. `Seg link p l n` says that the links of the nodes `l` are those of a part
of a list that stands between `p` and `n`; `IsList` is a whole list with its header. What a program does to a
list is a change of a few links: `Seg.setPrev` and `Seg.setNext` say what becomes of the parts of a list
at whose ends a link is set, and `Seg.append` takes a list apart at a node and puts it together again.

Several lists may share the nodes' link field (`Lists`), as long as no node is on two of them. A key of the
family may be dead: then its header is of no importance, and it has no nodes.
-/

namespace DoublyLinked

variable {α κ : Type}

structure Link (α : Type) where
  prev : Option α
  next : Option α
  deriving DecidableEq, Repr

structure Header (α : Type) where
  first : Option α
  last : Option α
  count : ℤ
  deriving DecidableEq, Repr

/-- The nodes `l` are linked with one another, with `p` before them and `n` behind them. -/
def Seg (link : α → Link α) : Option α → List α → Option α → Prop
  | _, [], _ => True
  | p, a :: l, n => link a = ⟨p, l.head?.or n⟩ ∧ Seg link (some a) l n

variable {link link' : α → Link α} {p n q : Option α} {l l₁ l₂ : List α} {a b c : α}

@[simp] theorem seg_nil : Seg link p [] n := trivial

@[simp] theorem seg_cons :
    Seg link p (a :: l) n ↔ link a = ⟨p, l.head?.or n⟩ ∧ Seg link (some a) l n := Iff.rfl

theorem Seg.congr (heq : ∀ a ∈ l, link' a = link a) : Seg link p l n → Seg link' p l n := by
  induction l generalizing p with
  | nil => exact fun h => h
  | cons a l ih =>
    intro h
    refine ⟨?_, ih (fun b hb => heq b (List.mem_cons_of_mem a hb)) h.2⟩
    rw [heq a List.mem_cons_self]
    exact h.1

theorem seg_append :
    Seg link p (l₁ ++ l₂) n ↔ Seg link p l₁ (l₂.head?.or n) ∧ Seg link (l₁.getLast?.or p) l₂ n := by
  induction l₁ generalizing p with
  | nil =>
    cases l₂ with
    | nil => simp
    | cons b l₂ => simp
  | cons a l₁ ih =>
    have hhead : (l₁ ++ l₂).head?.or n = l₁.head?.or (l₂.head?.or n) := by
      cases l₁ <;> simp
    have hlast : (a :: l₁).getLast?.or p = l₁.getLast?.or (some a) := by
      rw [List.getLast?_cons]
      cases l₁.getLast? <;> rfl
    rw [List.cons_append, seg_cons, seg_cons, ih, hhead, hlast, and_assoc]

theorem Seg.chain (h : Seg link p l none) :
    LinkedQueue.Chain (fun a => (link a).next) l.head? l := by
  induction l generalizing p with
  | nil => rfl
  | cons a l ih =>
    refine ⟨rfl, ?_⟩
    change LinkedQueue.Chain _ (link a).next l
    rw [h.1, Option.or_none]
    exact ih h.2

/-! ### Whole lists -/

/-- The header and the links are those of the list `l`. -/
structure IsList (link : α → Link α) (header : Header α) (l : List α) : Prop where
  first : header.first = l.head?
  last : header.last = l.getLast?
  count : header.count = l.length
  seg : Seg link none l none

variable {header : Header α}

theorem IsList.congr (h : IsList link header l) (heq : ∀ a ∈ l, link' a = link a) :
    IsList link' header l := ⟨h.first, h.last, h.count, h.seg.congr heq⟩

theorem IsList.chain (h : IsList link header l) :
    LinkedQueue.Chain (fun a => (link a).next) header.first l := by
  rw [h.first]
  exact h.seg.chain

theorem IsList.nodup (h : IsList link header l) : l.Nodup := h.chain.nodup

theorem IsList.link_eq (h : IsList link header (l₁ ++ a :: l₂)) :
    link a = ⟨l₁.getLast?, l₂.head?⟩ := by
  have hseg := (seg_append.mp h.seg).2.1
  rw [Option.or_none, Option.or_none] at hseg
  exact hseg

/-! ### Setting a link -/

section Set

variable [DecidableEq α]

theorem Seg.update (h : Seg link p l n) (ha : a ∉ l) (x : Link α) :
    Seg (Function.update link a x) p l n := by
  refine h.congr fun b hb => Function.update_of_ne ?_ _ _
  rintro rfl
  exact ha hb

theorem IsList.update (h : IsList link header l) (ha : a ∉ l) (x : Link α) :
    IsList (Function.update link a x) header l := ⟨h.first, h.last, h.count, h.seg.update ha x⟩

theorem Seg.setPrev (h : Seg link p (a :: l) n) (ha : a ∉ l) :
    Seg (Function.update link a { link a with prev := q }) q (a :: l) n := by
  refine ⟨?_, h.2.update ha _⟩
  rw [Function.update_self, h.1]

theorem Seg.setNext (h : Seg link p (l ++ [a]) n) (ha : a ∉ l) :
    Seg (Function.update link a { link a with next := q }) p (l ++ [a]) q := by
  rw [seg_append] at h ⊢
  refine ⟨h.1.update ha _, ?_, trivial⟩
  rw [Function.update_self, h.2.1]
  rfl

end Set

/-! ### Several lists -/

/-- Lists with the given headers, no node being on two of them. -/
structure Lists (link : α → Link α) (header : κ → Header α) (live : κ → Prop) (l : κ → List α) :
    Prop where
  isList : ∀ k, live k → IsList link (header k) (l k)
  dead : ∀ k, ¬live k → l k = []
  disjoint : ∀ {k k' : κ} {a : α}, a ∈ l k → a ∈ l k' → k = k'

namespace Lists

variable [DecidableEq κ] {headers : κ → Header α} {live : κ → Prop} {m : κ → List α} {k : κ}

omit [DecidableEq κ] in
theorem live_of_mem (h : Lists link headers live m) (ha : a ∈ m k) : live k := by
  by_contra hk
  rw [h.dead k hk] at ha
  cases ha

/-- **Changing one list.** Its nodes may be linked otherwise, and nodes that are on no list may come to it. -/
theorem replace (h : Lists link headers live m) (hk : live k) (hl : IsList link' header l)
    (hframe : ∀ b, b ∉ m k → b ∉ l → link' b = link b)
    (hsub : ∀ b ∈ l, b ∈ m k ∨ ∀ k', b ∉ m k') :
    Lists link' (Function.update headers k header) live (Function.update m k l) where
  isList k' hk' := by
    by_cases hkk : k' = k
    · subst hkk
      rw [Function.update_self, Function.update_self]
      exact hl
    · rw [Function.update_of_ne hkk, Function.update_of_ne hkk]
      refine (h.isList k' hk').congr fun b hb => hframe b (fun hmem => hkk (h.disjoint hb hmem)) ?_
      intro hmem
      rcases hsub b hmem with hmem | hnone
      · exact hkk (h.disjoint hb hmem)
      · exact hnone k' hb
  dead k' hk' := by
    have hkk : k' ≠ k := by
      rintro rfl
      exact hk' hk
    rw [Function.update_of_ne hkk]
    exact h.dead k' hk'
  disjoint {k₁ k₂ b} h₁ h₂ := by
    -- a node of the new list is on no other one
    have hother : ∀ {k'}, k' ≠ k → b ∈ l → b ∉ m k' := by
      intro k' hkk hb hmem
      rcases hsub b hb with hb | hnone
      · exact hkk (h.disjoint hmem hb)
      · exact hnone k' hmem
    by_cases h₁k : k₁ = k
    · by_cases h₂k : k₂ = k
      · rw [h₁k, h₂k]
      · rw [h₁k, Function.update_self] at h₁
        rw [Function.update_of_ne h₂k] at h₂
        exact absurd h₂ (hother h₂k h₁)
    · rw [Function.update_of_ne h₁k] at h₁
      by_cases h₂k : k₂ = k
      · rw [h₂k, Function.update_self] at h₂
        exact absurd h₁ (hother h₁k h₂)
      · rw [Function.update_of_ne h₂k] at h₂
        exact h.disjoint h₁ h₂

theorem create (h : Lists link headers live m) (hk : ¬live k) :
    Lists link (Function.update headers k ⟨none, none, 0⟩) (fun k' => k' = k ∨ live k') m where
  isList k' hk' := by
    by_cases hkk : k' = k
    · rw [hkk, Function.update_self, h.dead k hk]
      exact ⟨rfl, rfl, rfl, trivial⟩
    · rw [Function.update_of_ne hkk]
      exact h.isList k' (hk'.resolve_left hkk)
  dead k' hk' := h.dead k' fun hlive => hk' (Or.inr hlive)
  disjoint := h.disjoint

omit [DecidableEq κ] in
theorem drop (h : Lists link headers live m) (hk : m k = []) :
    Lists link headers (fun k' => k' ≠ k ∧ live k') m where
  isList k' hk' := h.isList k' hk'.2
  dead k' hk' := by
    by_cases hkk : k' = k
    · rw [hkk, hk]
    · exact h.dead k' fun hlive => hk' ⟨hkk, hlive⟩
  disjoint := h.disjoint

end Lists

end DoublyLinked
