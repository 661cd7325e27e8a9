import Mathlib.Data.List.Basic

/-!
# Reading a stream of tokens

A reader takes tokens from the front of a stream. `Reads r front a` says what it takes and gives, whatever
follows; it is composed along the reader (`Reads.bind`, `Reads.times`), and read at a position of a stream
where `front` stands (`Reads.readAt`).
-/

namespace TokenReader

variable {τ α β ι : Type}

abbrev Reader (τ α : Type) := StateM (List τ) α

/-- **What a reader takes**, and what it gives, whatever follows. -/
def Reads (r : Reader τ α) (front : List τ) (a : α) : Prop :=
  ∀ rest, r.run (front ++ rest) = (a, rest)

/-- As many tokens as there are, but `n` at most. -/
def take (n : ℕ) : Reader τ (List τ) := fun stream => (stream.take n, stream.drop n)

def times (r : Reader τ α) : ℕ → Reader τ (List α)
  | 0 => return []
  | n + 1 => do
    let a ← r
    let as ← times r n
    return a :: as

def readAt (r : Reader τ α) (stream : List τ) (pos : ℕ) : α := (r.run (stream.drop pos)).1

namespace Reads

theorem pure (a : α) : Reads (Pure.pure a : Reader τ α) [] a := fun _ => rfl

theorem bind {r : Reader τ α} {k : α → Reader τ β} {front back : List τ} {a : α} {b : β} (hr : Reads r front a)
    (hk : Reads (k a) back b) : Reads (r >>= k) (front ++ back) b := by
  intro rest
  rw [List.append_assoc, StateT.run_bind, hr (back ++ rest)]
  exact hk rest

theorem map {r : Reader τ α} {front : List τ} {a : α} (f : α → β) (h : Reads r front a) :
    Reads (do let a ← r; return f a) front (f a) := by
  have := h.bind (k := fun a => Pure.pure (f a)) (Reads.pure (f a))
  rwa [List.append_nil] at this

theorem take {front : List τ} {n : ℕ} (hn : front.length = n) : Reads (TokenReader.take n) front front := by
  intro rest
  change ((front ++ rest).take n, (front ++ rest).drop n) = (front, rest)
  rw [← hn, List.take_left, List.drop_left]

/-- **Reading a list** of items that are read one by one. -/
theorem times {r : Reader τ α} {front : ι → List τ} {value : ι → α} {items : List ι}
    (h : ∀ i ∈ items, Reads r (front i) (value i)) :
    Reads (TokenReader.times r items.length) (items.flatMap front) (items.map value) := by
  induction items with
  | nil => exact Reads.pure []
  | cons i items ih =>
    have hrest := (ih fun j hj => h j (List.mem_cons_of_mem _ hj)).map (value i :: ·)
    exact (h i List.mem_cons_self).bind hrest

/-- **Reading at a position** where the tokens stand. -/
theorem readAt {r : Reader τ α} {front pre post : List τ} {a : α} {pos : ℕ} (h : Reads r front a)
    (hpos : pre.length = pos) : TokenReader.readAt r (pre ++ (front ++ post)) pos = a := by
  unfold TokenReader.readAt
  rw [← hpos, List.drop_left, h post]

theorem readAt_zero {r : Reader τ α} {front post : List τ} {a : α} (h : Reads r front a) :
    TokenReader.readAt r (front ++ post) 0 = a := by
  unfold TokenReader.readAt
  rw [List.drop_zero, h post]

end Reads

end TokenReader
