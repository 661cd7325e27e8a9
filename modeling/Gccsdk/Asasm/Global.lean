import Mathlib.Data.List.Forall2

/-!
# Shared vocabulary of the assembler

The types every part of asasm refers to: character strings as byte lists (`Name`), the phases of
an assembly (`phase.h`), and the messages it gives (`error.h`).
-/

namespace Asasm

/-- A C string, without its terminating NUL: symbol, area and section names, source text. -/
abbrev Name := List UInt8

def cstr (s : String) : Name := s.toByteArray.data.toList

/-- `tolower` in the C locale, -/
def tolower (c : UInt8) : UInt8 := if 0x41 ≤ c ∧ c ≤ 0x5A then c + 0x20 else c

/-- and `toupper`. -/
def toupper (c : UInt8) : UInt8 := if 0x61 ≤ c ∧ c ≤ 0x7A then c - 0x20 else c

/-- `Phase_e`. -/
inductive Phase
  | startUp
  | passOne
  | passTwo
  | output
  | cleanUp
  deriving DecidableEq, Repr

/-- `ErrorTag`. Every `error` makes the exit status a failure, and the object file is then removed
again when the assembler exits. -/
inductive ErrorTag
  | info
  | warning
  | error
  | abort
  deriving DecidableEq, Repr

inductive DiagArg
  | str (s : Name)
  | int (i : Int)
  deriving DecidableEq, Repr

/-- A message given through `Error` or `Error_Line`: its tag, format and arguments. -/
structure Diag where
  tag : ErrorTag
  format : String
  args : List DiagArg
  deriving DecidableEq, Repr

/-- An `assert` of the source, compiled in: a false one stops the assembler. -/
def assert (b : Bool) : Option Unit := if b then some () else none

@[simp] theorem assert_eq_some {b : Bool} {u : Unit} : assert b = some u ↔ b = true := by
  cases b <;> simp [assert]

theorem forall₂_of_mapM_eq_some {α β : Type} {f : α → Option β} {xs : List α} {ys : List β}
    (h : xs.mapM f = some ys) : List.Forall₂ (fun x y => f x = some y) xs ys := by
  induction xs generalizing ys with
  | nil =>
    cases h
    exact .nil
  | cons x xs ih =>
    rw [List.mapM_cons] at h
    obtain ⟨y, hy, h⟩ := Option.bind_eq_some_iff.mp h
    obtain ⟨ys, hys, h⟩ := Option.bind_eq_some_iff.mp h
    cases h
    exact .cons hy (ih hys)

theorem except_ok_bind {ε α β : Type} (a : α) (f : α → Except ε β) :
    (Except.ok a >>= f) = f a := rfl

theorem except_error_bind {ε α β : Type} (e : ε) (f : α → Except ε β) :
    (Except.error e >>= f) = .error e := rfl

theorem except_bind_eq_ok {ε α β : Type} {x : Except ε α} {f : α → Except ε β} {b : β} :
    x >>= f = .ok b ↔ ∃ a, x = .ok a ∧ f a = .ok b := by
  cases x with
  | ok a => simp [bind, Except.bind]
  | error e => simp [bind, Except.bind]

end Asasm
