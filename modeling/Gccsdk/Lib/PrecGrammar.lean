import Mathlib.Tactic.Common

/-!
# Expressions with operator precedence

The grammar of expressions with prefix operators, left associative binary operators on numbered
levels, and parentheses, over tokens whose role may depend on where they stand: a minus sign is a
prefix operator where an operand is expected and a binary operator after one.

`Parses g l t ts` says that the tokens `ts` are an expression of level `l` with the parse tree `t`: a chain,
nested to the left, of expressions of level `l + 1` joined by operators of level `l`. Above the highest level
`g.top` are the primaries, so prefix operators bind tightest.

A parser reads an expression off the front of its input and stops at the first token that does not
continue it: `Stops g l ts` is the condition under which an expression of level `l` ends before `ts`.
-/

namespace PrecGrammar

/-- What a token means where an operand is expected. -/
inductive Role (α υ : Type)
  | operand (a : α)
  | unary (u : υ)
  | lparen
  | other

/-- Tokens `T` for operands `α`, prefix operators `υ` and binary operators `β`. -/
structure Grammar (T α υ β : Type) where
  /-- The meaning of a token where an operand is expected, -/
  role : T → Role α υ
  /-- and after one. -/
  asBinary : T → Option β
  isRParen : T → Bool
  level : β → Nat
  top : Nat
  level_le : ∀ b, level b ≤ top
  one_le_level : ∀ b, 1 ≤ level b
  asBinary_rparen : ∀ tok, isRParen tok = true → asBinary tok = none

/-- Parse trees. -/
inductive Tree (α υ β : Type)
  | operand (a : α)
  | unary (u : υ) (t : Tree α υ β)
  | binary (b : β) (x y : Tree α υ β)
  | paren (t : Tree α υ β)

/-- An element of a postfix program. -/
inductive Item (α υ β : Type)
  | operand (a : α)
  | unary (u : υ)
  | binary (b : β)

variable {T α υ β : Type}

/-- **The postfix traversal** of a tree. -/
def Tree.postorder : Tree α υ β → List (Item α υ β)
  | .operand a => [.operand a]
  | .unary u t => t.postorder ++ [.unary u]
  | .binary b x y => x.postorder ++ (y.postorder ++ [.binary b])
  | .paren t => t.postorder

/-- **The grammar.** -/
inductive Parses (g : Grammar T α υ β) : Nat → Tree α υ β → List T → Prop
  | operand {tok : T} {a : α} (h : g.role tok = .operand a) :
      Parses g (g.top + 1) (.operand a) [tok]
  | unary {tok : T} {u : υ} {t : Tree α υ β} {ts : List T} (h : g.role tok = .unary u)
      (ht : Parses g (g.top + 1) t ts) : Parses g (g.top + 1) (.unary u t) (tok :: ts)
  | paren {lp rp : T} {t : Tree α υ β} {ts : List T} (hl : g.role lp = .lparen)
      (hr : g.isRParen rp = true) (ht : Parses g 1 t ts) :
      Parses g (g.top + 1) (.paren t) (lp :: (ts ++ [rp]))
  | up {l : Nat} {t : Tree α υ β} {ts : List T} (hl : 1 ≤ l) (hle : l ≤ g.top)
      (ht : Parses g (l + 1) t ts) : Parses g l t ts
  | binary {tok : T} {b : β} {x y : Tree α υ β} {ts us : List T} (h : g.asBinary tok = some b)
      (hx : Parses g (g.level b) x ts) (hy : Parses g (g.level b + 1) y us) :
      Parses g (g.level b) (.binary b x y) (ts ++ tok :: us)

variable {g : Grammar T α υ β}

theorem Parses.binary_of_level {l : Nat} {tok : T} {b : β}
    {x y : Tree α υ β} {ts us : List T} (h : g.asBinary tok = some b) (hl : g.level b = l)
    (hx : Parses g l x ts) (hy : Parses g (l + 1) y us) :
    Parses g l (.binary b x y) (ts ++ tok :: us) := by
  subst hl
  exact .binary h hx hy

variable {ts : List T}

theorem Parses.of_le {l l' : Nat} {t : Tree α υ β}
    (h : Parses g l' t ts) (hl : 1 ≤ l) (hle : l ≤ l') (htop : l' ≤ g.top + 1) :
    Parses g l t ts := by
  induction l' with
  | zero => omega
  | succ l' ih =>
    obtain rfl | hlt := Nat.eq_or_lt_of_le hle
    · exact h
    · exact ih (.up (by omega) (by omega) h) (by omega) (by omega)

/-- **A program is no longer than the expression**, which is not empty. -/
theorem Parses.length_postorder_le {l : Nat} {t : Tree α υ β}
    (h : Parses g l t ts) : t.postorder.length ≤ ts.length := by
  induction h with
  | operand => exact Nat.le_refl 1
  | unary _ _ ih =>
    rw [Tree.postorder, List.length_append]
    exact Nat.succ_le_succ ih
  | paren _ _ _ ih =>
    rw [Tree.postorder, List.length_cons, List.length_append]
    omega
  | up _ _ _ ih => exact ih
  | binary _ _ _ ihx ihy =>
    simp only [Tree.postorder, List.length_append, List.length_cons, List.length_nil]
    omega

theorem Tree.postorder_length_pos (t : Tree α υ β) : 0 < t.postorder.length := by
  cases t with
  | operand => exact Nat.one_pos
  | unary | binary =>
    simp only [Tree.postorder, List.length_append, List.length_cons, List.length_nil]
    omega
  | paren t => exact t.postorder_length_pos

/-- **An expression of level `l` ends here**: no operator of its level or a higher one follows. -/
def Stops (g : Grammar T α υ β) (l : Nat) : List T → Prop
  | [] => True
  | tok :: _ => ∀ b, g.asBinary tok = some b → g.level b < l

theorem Stops.mono {l l' : Nat} (h : Stops g l ts) (hle : l ≤ l') : Stops g l' ts := by
  cases ts with
  | nil => trivial
  | cons tok ts => exact fun b hb => Nat.lt_of_lt_of_le (h b hb) hle

theorem Stops.of_succ {l : Nat} (h : Stops g (l + 1) ts) :
    Stops g l ts ∨ ∃ tok rest b, ts = tok :: rest ∧ g.asBinary tok = some b ∧ g.level b = l := by
  cases ts with
  | nil => exact Or.inl trivial
  | cons tok rest =>
    by_cases hb : ∃ b, g.asBinary tok = some b ∧ g.level b = l
    · obtain ⟨b, htok, hlevel⟩ := hb
      exact Or.inr ⟨tok, rest, b, rfl, htok, hlevel⟩
    · refine Or.inl fun b htok => ?_
      have hlt := h b htok
      have hne : g.level b ≠ l := fun heq => hb ⟨b, htok, heq⟩
      omega

theorem stops_top (g : Grammar T α υ β) (ts : List T) : Stops g (g.top + 1) ts := by
  cases ts with
  | nil => trivial
  | cons tok ts => exact fun b _ => Nat.lt_succ_of_le (g.level_le b)

theorem stops_one_iff :
    Stops g 1 ts ↔ ∀ tok ∈ ts.head?, g.asBinary tok = none := by
  cases ts with
  | nil => simp [Stops]
  | cons tok ts =>
    simp only [Stops, List.head?_cons, Option.mem_def, Option.some.injEq, forall_eq']
    constructor
    · intro h
      cases hb : g.asBinary tok with
      | none => rfl
      | some b =>
        have := h b hb
        have := g.one_le_level b
        omega
    · intro h b hb
      rw [h] at hb
      cases hb

theorem stops_rparen {rp : T} (h : g.isRParen rp = true) (l : Nat)
    (ts : List T) : Stops g l (rp :: ts) := by
  intro b hb
  rw [g.asBinary_rparen rp h] at hb
  cases hb

end PrecGrammar
