import Gccsdk.Lib.TokenReader

/-!
# Runs that keep to their tables

A run of a program with tables of a fixed size either gives a result, or it ends early: it gives up with a message, it
does not end, or it leaves one of its tables. It is *safe* if it does not leave one (`Safe`), whatever else becomes
of it. A run is safe if each of its steps is, behind the steps before it (`safe_bind`); where a step is safe just under a
condition, and gives something that is known, the conditions add up (`GivesIff.bind`).

The loops are those that programs have over tables: filling one from a stream (`fill`) and looking for an entry
(`search`). Both are safe exactly when the entries they count through are there.
-/

namespace CheckedRun

open TokenReader

variable {α β τ : Type}

/-- **Why a run ends early.** -/
inductive Stop
  | message
  | endless
  | outside
  deriving DecidableEq, Repr

abbrev Run := Except Stop

/-- **The run keeps to its tables.** -/
def Safe (x : Run α) : Prop := x ≠ .error .outside

instance (x : Run α) : Decidable (Safe x) :=
  match x with
  | .ok _ => .isTrue nofun
  | .error .message => .isTrue nofun
  | .error .endless => .isTrue nofun
  | .error .outside => .isFalse fun h => h rfl

theorem safe_pure (a : α) : Safe (pure a : Run α) := nofun

theorem safe_message : Safe (throw .message : Run α) := nofun

theorem safe_endless : Safe (throw .endless : Run α) := nofun

theorem not_safe_outside : ¬Safe (throw .outside : Run α) := fun h => h rfl

theorem ok_bind (a : α) (f : α → Run β) : (.ok a >>= f) = f a := rfl

/-- **One step after the other.** -/
theorem safe_bind {x : Run α} {f : α → Run β} : Safe (x >>= f) ↔ Safe x ∧ ∀ a, x = .ok a → Safe (f a) := by
  cases x with
  | error e =>
    change Safe (.error e) ↔ _
    refine ⟨fun h => ⟨?_, nofun⟩, fun h => ?_⟩
    · exact fun heq => h (congrArg Except.error (Except.error.inj heq))
    · exact fun heq => h.1 (congrArg Except.error (Except.error.inj heq))
  | ok a =>
    change Safe (f a) ↔ _
    refine ⟨fun h => ⟨nofun, ?_⟩, fun h => h.2 a rfl⟩
    intro b heq
    obtain rfl := Except.ok.inj heq
    exact h

theorem bind_eq_ok {x : Run α} {f : α → Run β} {b : β} : (x >>= f) = .ok b ↔ ∃ a, x = .ok a ∧ f a = .ok b := by
  cases x with
  | error e => exact ⟨nofun, nofun⟩
  | ok a => exact ⟨fun h => ⟨a, rfl, h⟩, fun ⟨_, heq, h⟩ => Except.ok.inj heq ▸ h⟩

theorem map_eq_ok {x : Run α} {f : α → β} {b : β} (h : x.map f = .ok b) : ∃ a, x = .ok a ∧ f a = b := by
  cases x with
  | error e => cases h
  | ok a => exact ⟨a, rfl, Except.ok.inj h⟩

theorem safe_map {x : Run α} {f : α → β} : Safe (x >>= fun a => pure (f a)) ↔ Safe x := by
  rw [safe_bind]
  exact and_iff_left fun _ _ => safe_pure _

/-- **A run that ends early only where it leaves a table.** -/
def Straight (x : Run α) : Prop := ∀ e, x = .error e → e = .outside

theorem straight_pure (a : α) : Straight (pure a : Run α) := nofun

theorem straight_outside : Straight (throw .outside : Run α) := fun _ h => (Except.error.inj h).symm

theorem Straight.exists_ok {x : Run α} (h : Straight x) (hx : Safe x) : ∃ a, x = .ok a := by
  cases x with
  | ok a => exact ⟨a, rfl⟩
  | error e => exact absurd (congrArg Except.error (h e rfl)) hx

theorem straight_bind {x : Run α} {f : α → Run β} (hx : Straight x) (hf : ∀ a, x = .ok a → Straight (f a)) :
    Straight (x >>= f) := by
  cases x with
  | error e => exact fun e' h => hx e' (congrArg Except.error (Except.error.inj h))
  | ok a => exact hf a rfl

/-- **One step after the other**, where the first does not end early. -/
theorem Straight.safe_bind {x : Run α} {f : α → Run β} {p : Prop} (hx : Straight x)
    (hf : ∀ a, x = .ok a → (Safe (f a) ↔ p)) : Safe (x >>= f) ↔ Safe x ∧ p := by
  rw [CheckedRun.safe_bind]
  refine and_congr_right fun hsafe => ?_
  obtain ⟨a, ha⟩ := hx.exists_ok hsafe
  refine ⟨fun h => (hf a ha).mp (h a ha), fun hp b hb => (hf b hb).mpr hp⟩

/-! ### Runs that are safe under a condition -/

/-- **The run is safe just if `c`**; then it has a result, with `post`, and else it leaves a table. -/
def GivesIff (x : Run α) (c : Prop) (post : α → Prop) : Prop :=
  (c ∧ ∃ a, x = .ok a ∧ post a) ∨ (¬c ∧ x = .error .outside)

theorem GivesIff.safe_iff {x : Run α} {c : Prop} {post : α → Prop} (h : GivesIff x c post) : Safe x ↔ c := by
  obtain ⟨hc, a, rfl, -⟩ | ⟨hc, rfl⟩ := h
  · exact iff_of_true nofun hc
  · exact iff_of_false not_safe_outside hc

theorem GivesIff.exists_ok {x : Run α} {c : Prop} {post : α → Prop} (h : GivesIff x c post) (hc : c) :
    ∃ a, x = .ok a ∧ post a := by
  obtain ⟨-, hok⟩ | ⟨hnot, -⟩ := h
  · exact hok
  · exact absurd hc hnot

theorem givesIff_pure {a : α} {post : α → Prop} (h : post a) : GivesIff (pure a) True post :=
  Or.inl ⟨trivial, a, rfl, h⟩

theorem givesIff_ite {c : Prop} [Decidable c] {a : α} {post : α → Prop} (h : c → post a) :
    GivesIff (if c then .ok a else .error .outside) c post := by
  by_cases hc : c
  · rw [if_pos hc]
    exact Or.inl ⟨hc, a, rfl, h hc⟩
  · rw [if_neg hc]
    exact Or.inr ⟨hc, rfl⟩

/-- **One step after the other.** -/
theorem GivesIff.bind {x : Run α} {f : α → Run β} {c d : Prop} {post : α → Prop} {post' : β → Prop}
    (hx : GivesIff x c post) (hf : ∀ a, c → post a → GivesIff (f a) d post') : GivesIff (x >>= f) (c ∧ d) post' := by
  obtain ⟨hc, a, rfl, hpost⟩ | ⟨hc, rfl⟩ := hx
  · obtain ⟨hd, b, hb, hpost'⟩ | ⟨hd, hb⟩ := hf a hc hpost
    · exact Or.inl ⟨⟨hc, hd⟩, b, hb, hpost'⟩
    · exact Or.inr ⟨fun h => hd h.2, hb⟩
  · exact Or.inr ⟨fun h => hc h.1, rfl⟩

theorem GivesIff.imp {x : Run α} {c d : Prop} {post post' : α → Prop} (hx : GivesIff x c post) (hcd : c ↔ d)
    (hpost : ∀ a, c → post a → post' a) : GivesIff x d post' := by
  obtain ⟨hc, a, hok, ha⟩ | ⟨hc, hout⟩ := hx
  · exact Or.inl ⟨hcd.mp hc, a, hok, hpost a hc ha⟩
  · exact Or.inr ⟨fun hd => hc (hcd.mpr hd), hout⟩

/-! ### Runs that may give up -/

/-- **The run gives up, or has a result with `post`**: it neither leaves a table nor goes on without end. -/
def Ensures (x : Run α) (post : α → Prop) : Prop := x = .error .message ∨ ∃ a, x = .ok a ∧ post a

@[simp] theorem ensures_ok {a : α} {post : α → Prop} : Ensures (.ok a) post ↔ post a := by
  refine ⟨fun h => ?_, fun h => Or.inr ⟨a, rfl, h⟩⟩
  obtain h | ⟨b, hb, h⟩ := h
  · cases h
  · exact Except.ok.inj hb ▸ h

@[simp] theorem ensures_pure {a : α} {post : α → Prop} : Ensures (pure a) post ↔ post a := ensures_ok

@[simp] theorem ensures_message {post : α → Prop} : Ensures (throw .message : Run α) post := Or.inl rfl

@[simp] theorem not_ensures_outside {post : α → Prop} : ¬Ensures (.error .outside : Run α) post := by
  rintro (h | ⟨a, h, -⟩) <;> cases h

/-- **One step after the other**: the first has to give what the second asks for. -/
theorem ensures_bind {x : Run α} {f : α → Run β} {post : β → Prop} :
    Ensures (x >>= f) post ↔ Ensures x fun a => Ensures (f a) post := by
  cases x with
  | ok a =>
    rw [ok_bind, ensures_ok]
  | error e =>
    refine ⟨fun h => ?_, fun h => ?_⟩
    · obtain h | ⟨b, hb, -⟩ := h
      · exact Or.inl (congrArg Except.error (Except.error.inj h))
      · cases hb
    · obtain h | ⟨a, ha, -⟩ := h
      · exact Or.inl (congrArg Except.error (Except.error.inj h))
      · cases ha

theorem Ensures.imp {x : Run α} {p q : α → Prop} (h : Ensures x p) (himp : ∀ a, x = .ok a → p a → q a) : Ensures x q := by
  obtain h | ⟨a, ha, hp⟩ := h
  · exact Or.inl h
  · exact Or.inr ⟨a, ha, himp a ha hp⟩

theorem Ensures.post {x : Run α} {p : α → Prop} (h : Ensures x p) {a : α} (ha : x = .ok a) : p a :=
  ensures_ok.mp (ha ▸ h)

theorem Ensures.iff_forall {x : Run α} {p q : α → Prop} (h : Ensures x p) : Ensures x q ↔ ∀ a, x = .ok a → q a :=
  ⟨fun hq _ ha => hq.post ha, fun hq => h.imp fun a ha _ => hq a ha⟩

theorem ensures_ite_outside {c : Prop} [Decidable c] {a : α} {post : α → Prop} :
    Ensures (if c then .ok a else .error .outside) post ↔ c ∧ post a := by
  by_cases h : c
  · rw [if_pos h, ensures_ok, and_iff_right h]
  · rw [if_neg h]
    exact iff_of_false not_ensures_outside fun hand => h hand.1

/-- **The run keeps to its tables just if `c`**; then it gives up, or has a result with `post`. -/
structure EnsuresIff (x : Run α) (c : Prop) (post : α → Prop) : Prop where
  ensures : c → Ensures x post
  outside : ¬c → x = .error .outside

theorem Ensures.ensuresIff {x : Run α} {c : Prop} {post : α → Prop} (h : Ensures x post) (hc : c) : EnsuresIff x c post :=
  ⟨fun _ => h, fun hnot => absurd hc hnot⟩

theorem EnsuresIff.safe_iff {x : Run α} {c : Prop} {post : α → Prop} (h : EnsuresIff x c post) : Safe x ↔ c := by
  by_cases hc : c
  · refine iff_of_true ?_ hc
    obtain hmessage | ⟨a, ha, -⟩ := h.ensures hc
    · rw [hmessage]
      exact safe_message
    · rw [ha]
      exact safe_pure a
  · rw [h.outside hc]
    exact iff_of_false not_safe_outside hc

theorem EnsuresIff.ne_endless {x : Run α} {c : Prop} {post : α → Prop} (h : EnsuresIff x c post) :
    x ≠ .error .endless := by
  by_cases hc : c
  · obtain hmessage | ⟨a, ha, -⟩ := h.ensures hc
    · rw [hmessage]
      nofun
    · rw [ha]
      nofun
  · rw [h.outside hc]
    nofun

theorem EnsuresIff.post {x : Run α} {c : Prop} {post : α → Prop} (h : EnsuresIff x c post) {a : α}
    (ha : x = .ok a) : post a := by
  have hc : c := h.safe_iff.mp (by rw [ha]; exact safe_pure a)
  exact (h.ensures hc).post ha

theorem EnsuresIff.imp {x : Run α} {c d : Prop} {post post' : α → Prop} (h : EnsuresIff x c post) (hcd : c ↔ d)
    (hpost : ∀ a, x = .ok a → post a → post' a) : EnsuresIff x d post' where
  ensures hd := (h.ensures (hcd.mpr hd)).imp hpost
  outside hd := h.outside fun hc => hd (hcd.mp hc)

/-- **One step after the other**, where only the first has a condition. -/
theorem EnsuresIff.bind {x : Run α} {f : α → Run β} {c : Prop} {inv : α → Prop} {post : β → Prop}
    (hx : EnsuresIff x c inv) (hf : ∀ a, inv a → Ensures (f a) post) : EnsuresIff (x >>= f) c post where
  ensures hc := ensures_bind.mpr ((hx.ensures hc).imp fun a _ => hf a)
  outside hc := by
    rw [hx.outside hc]
    rfl

/-- **One step after the other**: there is a condition for the first, and then one for what is left to do. -/
theorem EnsuresIff.bind_iff {x : Run α} {f : α → Run β} {c : Prop} {inv : α → Prop} {post : β → Prop} {d : α → Prop}
    (hx : EnsuresIff x c inv) (hf : ∀ a, inv a → (Ensures (f a) post ↔ d a)) :
    Ensures (x >>= f) post ↔ c ∧ ∀ a, x = .ok a → d a := by
  by_cases hc : c
  · have hensures := hx.ensures hc
    rw [and_iff_right hc, ensures_bind, hensures.iff_forall]
    exact forall₂_congr fun a ha => hf a (hensures.post ha)
  · rw [hx.outside hc]
    exact iff_of_false not_ensures_outside fun h => hc h.1

/-! ### Tables -/

def load (table : List α) (idx : ℕ) : Run α :=
  match table[idx]? with
  | some a => pure a
  | none => throw .outside

def store (table : List α) (idx : ℕ) (a : α) : Run (List α) :=
  if idx < table.length then pure (table.set idx a) else throw .outside

theorem load_eq {table : List α} {idx : ℕ} (h : idx < table.length) : load table idx = .ok table[idx] := by
  rw [load, List.getElem?_eq_getElem h]
  rfl

theorem safe_load {table : List α} {idx : ℕ} : Safe (load table idx) ↔ idx < table.length := by
  by_cases h : idx < table.length
  · rw [load_eq h]
    exact iff_of_true nofun h
  · rw [load, List.getElem?_eq_none (Nat.le_of_not_lt h)]
    exact iff_of_false not_safe_outside h

theorem straight_load {table : List α} {idx : ℕ} : Straight (load table idx) := by
  rw [load]
  split
  · exact straight_pure _
  · exact straight_outside

def loads (table : List α) (idx n : ℕ) : Run (List α) :=
  if idx + n ≤ table.length then pure ((table.drop idx).take n) else throw .outside

def stores (table : List α) (idx : ℕ) (l : List α) : Run (List α) :=
  if idx + l.length ≤ table.length then pure (table.take idx ++ l ++ table.drop (idx + l.length)) else throw .outside

theorem loads_eq {table : List α} {idx n : ℕ} (h : idx + n ≤ table.length) :
    loads table idx n = .ok ((table.drop idx).take n) := if_pos h

theorem stores_eq {table l : List α} {idx : ℕ} (h : idx + l.length ≤ table.length) :
    stores table idx l = .ok (table.take idx ++ l ++ table.drop (idx + l.length)) := if_pos h

theorem length_stores {table l : List α} {idx : ℕ} (h : idx + l.length ≤ table.length) :
    (table.take idx ++ l ++ table.drop (idx + l.length)).length = table.length := by
  rw [List.length_append, List.length_append, List.length_drop, List.length_take_of_le (by omega)]
  omega

/-- **A table is filled** with `left` entries from a stream. -/
def fill (read : ℕ → Reader τ α) : (left idx : ℕ) → List α → List τ → Run (List α)
  | 0, _, table, _ => pure table
  | left + 1, idx, table, stream => do
    let table ← store table idx ((read idx).run stream).1
    fill read left (idx + 1) table ((read idx).run stream).2

def entriesFrom (read : ℕ → Reader τ α) : (left idx : ℕ) → List τ → List α
  | 0, _, _ => []
  | left + 1, idx, stream =>
    ((read idx).run stream).1 :: entriesFrom read left (idx + 1) ((read idx).run stream).2

theorem length_entriesFrom (read : ℕ → Reader τ α) (left idx : ℕ) (stream : List τ) :
    (entriesFrom read left idx stream).length = left := by
  induction left generalizing idx stream with
  | zero => rfl
  | succ left ih => rw [entriesFrom, List.length_cons, ih]

/-- **Filling a table that is large enough**: the entries are in it. -/
theorem fill_eq (read : ℕ → Reader τ α) {left idx : ℕ} {table : List α} (stream : List τ)
    (h : idx + left ≤ table.length) :
    fill read left idx table stream =
      .ok (table.take idx ++ entriesFrom read left idx stream ++ table.drop (idx + left)) := by
  induction left generalizing idx table stream with
  | zero => rw [fill, entriesFrom, List.append_nil, Nat.add_zero, List.take_append_drop]; rfl
  | succ left ih =>
    have hidx : idx < table.length := by omega
    rw [fill, store, if_pos hidx]
    refine (ih _ (by rw [List.length_set]; omega)).trans (congrArg Except.ok ?_)
    have hfront : (table.set idx ((read idx).run stream).1).take (idx + 1) =
        table.take idx ++ [((read idx).run stream).1] := by
      rw [List.take_add_one, List.take_set_of_le (Nat.le_refl idx), List.getElem?_set_self hidx]
      rfl
    have hback : (table.set idx ((read idx).run stream).1).drop (idx + 1 + left) = table.drop (idx + (left + 1)) := by
      rw [List.drop_set_of_lt (by omega)]
      congr 1
      omega
    rw [hfront, hback, entriesFrom, List.append_assoc (table.take idx), List.singleton_append]

theorem safe_fill_from (read : ℕ → Reader τ α) {left idx : ℕ} {table : List α} (stream : List τ) :
    Safe (fill read left idx table stream) ↔ left = 0 ∨ idx + left ≤ table.length := by
  induction left generalizing idx table stream with
  | zero => exact iff_of_true (safe_pure table) (Or.inl rfl)
  | succ left ih =>
    rw [fill, store]
    by_cases hidx : idx < table.length
    · rw [if_pos hidx]
      change Safe (fill read left (idx + 1) (table.set idx ((read idx).run stream).1) _) ↔ _
      rw [ih, List.length_set]
      omega
    · rw [if_neg hidx]
      refine iff_of_false not_safe_outside ?_
      omega

/-- **Filling a table is safe** if and only if there is room for the entries. -/
theorem safe_fill (read : ℕ → Reader τ α) {left : ℕ} {table : List α} (stream : List τ) :
    Safe (fill read left 0 table stream) ↔ left ≤ table.length := by
  rw [safe_fill_from]
  omega

/-- **The first entry** with a property, among `left`. -/
def search (p : α → Bool) (table : List α) : (left idx : ℕ) → Run (Option α)
  | 0, _ => pure none
  | left + 1, idx => do
    let a ← load table idx
    if p a then pure (some a) else search p table left (idx + 1)

theorem search_eq (p : α → Bool) {table : List α} {left idx : ℕ} (h : idx + left ≤ table.length) :
    search p table left idx = .ok (((table.drop idx).take left).find? p) := by
  induction left generalizing idx with
  | zero => rfl
  | succ left ih =>
    have hidx : idx < table.length := by omega
    have hfront : (table.drop idx).take (left + 1) = table[idx] :: (table.drop (idx + 1)).take left := by
      rw [List.drop_eq_getElem_cons hidx, List.take_succ_cons]
    rw [search, load_eq hidx, hfront]
    change (if p table[idx] then pure (some table[idx]) else search p table left (idx + 1)) = _
    cases hp : p table[idx] with
    | true => rw [List.find?_cons_of_pos hp]; rfl
    | false =>
      rw [List.find?_cons_of_neg (Bool.eq_false_iff.mp hp)]
      exact ih (by omega)

end CheckedRun
