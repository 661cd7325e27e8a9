import Gccsdk.Lib.CheckedRun

/-!
# Switches over characters

A reader that looks at one character after the other with nested `switch` statements: each takes a
character, the case of the character tries to finish a word, and where it does not, the character is put
back. Putting back a character that was not the last one is an error of the reader (`unGetC`).

A body *accepts* a list of words if it finishes exactly them, and leaves the reader where it was otherwise
(`Reads`). One word is accepted by `finish`; what falls through accepts the words of both (`Reads.andThen`),
and a switch accepts the words of its cases, each behind its character (`Reads.switch`).
-/

namespace CharSwitch

open CheckedRun

variable {α β : Type}

/-! ### The reader -/

/-- **A place in a text**: what is before it, the last character first, and the rest. -/
structure Cursor (α : Type) where
  before : List α
  rest : List α
  deriving DecidableEq, Repr

/-- The place `n` characters on. -/
def Cursor.advance (n : ℕ) (p : Cursor α) : Cursor α := ⟨(p.rest.take n).reverse ++ p.before, p.rest.drop n⟩

def getC (p : Cursor α) : Option α × Cursor α :=
  match p.rest with
  | [] => (none, p)
  | c :: rest => (some c, ⟨c :: p.before, rest⟩)

theorem Cursor.advance_succ (n : ℕ) (before rest : List α) (c : α) :
    (Cursor.mk before (c :: rest)).advance (n + 1) = (Cursor.mk (c :: before) rest).advance n := by
  unfold Cursor.advance
  rw [List.take_succ_cons, List.reverse_cons, List.append_assoc]
  rfl

variable [DecidableEq α]

/-- **A character is put back.** It has to be the last one, or the end that is still there. -/
def unGetC (c : Option α) (p : Cursor α) : Run (Cursor α) :=
  match p.before with
  | d :: before =>
    if c = some d then pure ⟨before, d :: p.rest⟩
    else if p.rest = [] ∧ c = none then pure p
    else throw .message
  | [] => if p.rest = [] ∧ c = none then pure p else throw .message

def matchString (s : List α) (p : Cursor α) : Option (Cursor α) :=
  if s <+: p.rest then some (p.advance s.length) else none

theorem unGetC_getC (p : Cursor α) : unGetC (getC p).1 (getC p).2 = .ok p := by
  obtain ⟨before, rest⟩ := p
  cases rest with
  | nil =>
    unfold getC unGetC
    cases before with
    | nil => exact if_pos ⟨rfl, rfl⟩
    | cons d before =>
      dsimp only
      rw [if_neg nofun, if_pos ⟨rfl, rfl⟩]
      rfl
  | cons c rest => exact if_pos rfl

theorem length_le_of_unGetC {c : Option α} {p q : Cursor α} (h : unGetC c p = .ok q) :
    p.before.length ≤ q.before.length + 1 := by
  unfold unGetC at h
  split at h
  · rename_i d before hbefore
    split at h
    · rw [← Except.ok.inj h, hbefore]
      exact Nat.le_refl _
    · split at h
      · rw [← Except.ok.inj h]
        exact Nat.le_succ _
      · exact nomatch h
  · rename_i hbefore
    rw [hbefore]
    exact Nat.zero_le _

/-! ### Bodies -/

/-- How a body is left: with a result, or to go on behind it. -/
inductive Outcome (α β : Type)
  | returned (b : β) (p : Cursor α)
  | broke (p : Cursor α)

abbrev Body (α β : Type) := Cursor α → Run (Outcome α β)

/-- Nothing but a `break`. -/
def skip : Body α β := fun p => pure (.broke p)

def finish (s : List α) (b : β) : Body α β := fun p =>
  match matchString s p with
  | some p => pure (.returned b p)
  | none => pure (.broke p)

def andThen (x y : Body α β) : Body α β := fun p => do
  match ← x p with
  | .returned b p => pure (.returned b p)
  | .broke p => y p

def caseOf (cases : List (α × Body α β)) (c : Option α) : Body α β :=
  match cases.find? fun e => some e.1 = c with
  | some e => e.2
  | none => skip

/-- **A switch** over the next character, which is put back where no case finishes. -/
def switch (cases : List (α × Body α β)) : Body α β := fun p => do
  match ← caseOf cases (getC p).1 (getC p).2 with
  | .returned b p => pure (.returned b p)
  | .broke q => do
    let q ← unGetC (getC p).1 q
    pure (.broke q)

/-! ### Words -/

def wordAt (words : List (List α × β)) (text : List α) :
    Option (List α × β) := words.find? fun w => w.1 <+: text

def outcome (words : List (List α × β)) (p : Cursor α) : Outcome α β :=
  match wordAt words p.rest with
  | some w => .returned w.2 (p.advance w.1.length)
  | none => .broke p

/-- **A body accepts just these words**, on texts with a property. -/
def Reads (P : List α → Prop) (body : Body α β) (words : List (List α × β)) : Prop :=
  ∀ p : Cursor α, P p.rest → body p = .ok (outcome words p)

variable {P : List α → Prop}

theorem Reads.mono {Q : List α → Prop} {body : Body α β} {words : List (List α × β)} (h : Reads P body words)
    (hPQ : ∀ text, Q text → P text) : Reads Q body words := fun p hp => h p (hPQ _ hp)

theorem reads_finish (s : List α) (b : β) : Reads P (finish s b) [(s, b)] := by
  intro p _
  unfold finish matchString outcome wordAt
  rw [List.find?_cons]
  by_cases hs : s <+: p.rest
  · rw [if_pos hs, decide_eq_true hs]
    rfl
  · rw [if_neg hs, decide_eq_false hs]
    rfl

/-- **Falling through**: the words of the first body come first. -/
theorem Reads.andThen {x y : Body α β} {ws vs : List (List α × β)} (hx : Reads P x ws) (hy : Reads P y vs) :
    Reads P (andThen x y) (ws ++ vs) := by
  intro p hp
  have hsplit : wordAt (ws ++ vs) p.rest = (wordAt ws p.rest).or (wordAt vs p.rest) := List.find?_append
  unfold CharSwitch.andThen
  rw [hx p hp, ok_bind]
  unfold outcome
  rw [hsplit]
  cases hw : wordAt ws p.rest with
  | some w => rfl
  | none => exact hy p hp

def behind (c : α) (words : List (List α × β)) : List (List α × β) := words.map fun w => (c :: w.1, w.2)

theorem wordAt_behind (c d : α) (words : List (List α × β)) (text : List α) :
    wordAt (behind c words) (d :: text) =
      if c = d then (wordAt words text).map fun w => (c :: w.1, w.2) else none := by
  unfold wordAt behind
  rw [List.find?_map]
  split
  · rename_i hcd
    subst hcd
    refine congrArg (Option.map _) (congrArg (fun q => words.find? q) (funext fun w => ?_))
    exact decide_eq_decide.mpr (List.prefix_cons_inj c)
  · rename_i hcd
    rw [Option.map_eq_none_iff]
    refine List.find?_eq_none.mpr fun w _ hw => ?_
    exact hcd (List.cons_prefix_cons.mp (of_decide_eq_true hw)).1

theorem wordAt_append (ws vs : List (List α × β)) (text : List α) :
    wordAt (ws ++ vs) text = (wordAt ws text).or (wordAt vs text) := List.find?_append

abbrev CaseWords (α β : Type) := List (α × List (List α × β))

def switchWords (cs : CaseWords α β) : List (List α × β) := cs.flatMap fun c => behind c.1 c.2

theorem wordAt_switchWords_nil (cs : CaseWords α β) : wordAt (switchWords cs) [] = none := by
  refine List.find?_eq_none.mpr fun w hw h => ?_
  obtain ⟨c, -, hc⟩ := List.mem_flatMap.mp hw
  obtain ⟨v, -, rfl⟩ := List.mem_map.mp hc
  exact absurd (List.prefix_nil.mp (of_decide_eq_true h)) (List.cons_ne_nil _ _)

variable {cs : CaseWords α β}

theorem wordAt_switchWords_of_ne {d : α} (h : ∀ c ∈ cs, c.1 ≠ d) (text : List α) :
    wordAt (switchWords cs) (d :: text) = none := by
  induction cs with
  | nil => rfl
  | cons c cs ih =>
    unfold switchWords at ih ⊢
    rw [List.flatMap_cons, wordAt_append, wordAt_behind, if_neg (h c (List.mem_cons_self ..)),
      ih fun c hc => h c (List.mem_cons_of_mem _ hc)]
    rfl

/-- **Each case accepts its words**, on texts with a property for its character. -/
inductive CasesRead (Q : α → List α → Prop) : List (α × Body α β) → CaseWords α β → Prop
  | nil : CasesRead Q [] []
  | cons {c : α} {body : Body α β} {words : List (List α × β)} {cases : List (α × Body α β)} {cs :
    CaseWords α β}
      (h : Reads (Q c) body words) (hs : CasesRead Q cases cs) :
      CasesRead Q ((c, body) :: cases) ((c, words) :: cs)

variable {cases : List (α × Body α β)} {Q : α → List α → Prop}

theorem CasesRead.labels (h : CasesRead Q cases cs) : cs.map Prod.fst = cases.map Prod.fst := by
  induction h with
  | nil => rfl
  | cons _ _ ih => rw [List.map_cons, List.map_cons, ih]

theorem caseOf_outcome (h : CasesRead Q cases cs) (hnodup : (cases.map Prod.fst).Nodup)
    (before : List α) (d : α) (rest : List α) (hQ : Q d rest) :
    caseOf cases (some d) ⟨d :: before, rest⟩ = .ok (match wordAt (switchWords cs) (d :: rest) with
        | some w => .returned w.2 ((Cursor.mk before (d :: rest)).advance w.1.length)
        | none => .broke ⟨d :: before, rest⟩) := by
  induction h with
  | nil => rfl
  | @cons c body words cases cs hreads hs ih =>
    rw [List.map_cons, List.nodup_cons] at hnodup
    have hwords : wordAt (switchWords ((c, words) :: cs)) (d :: rest) =
        (wordAt (behind c words) (d :: rest)).or (wordAt (switchWords cs) (d :: rest)) := wordAt_append ..
    rw [hwords, wordAt_behind]
    unfold caseOf
    rw [List.find?_cons]
    by_cases hcd : c = d
    · -- it is this case, and no other has the character
      have hothers : wordAt (switchWords cs) (d :: rest) = none := by
        refine wordAt_switchWords_of_ne (fun c' hc' heq => hnodup.1 ?_) rest
        rw [← hs.labels, hcd, ← heq]
        exact List.mem_map.mpr ⟨c', hc', rfl⟩
      rw [decide_eq_true (congrArg some hcd), if_pos hcd, hothers, Option.or_none]
      dsimp only
      rw [hreads ⟨d :: before, rest⟩ (hcd ▸ hQ)]
      unfold outcome
      dsimp only
      cases wordAt words rest with
      | none => rfl
      | some w =>
        rw [Option.map_some]
        dsimp only
        rw [List.length_cons, Cursor.advance_succ]
    · have hne : ¬some c = some d := fun heq => hcd (Option.some.inj heq)
      rw [decide_eq_false hne, if_neg hcd, Option.none_or]
      exact ih hnodup.2

/-- **A switch accepts the words of its cases.** -/
theorem Reads.switch (h : CasesRead Q cases cs) (hnodup : (cases.map Prod.fst).Nodup) :
    Reads (fun text => ∀ c rest, text = c :: rest → Q c rest) (switch cases) (switchWords cs) := by
  rintro ⟨before, rest⟩ hP
  have hback := unGetC_getC (Cursor.mk before rest)
  unfold CharSwitch.switch outcome
  dsimp only
  cases rest with
  | nil =>
    have hget : getC (Cursor.mk before ([] : List α)) = (none, ⟨before, []⟩) := rfl
    have hnone : caseOf cases (none : Option α) = skip := by
      unfold caseOf
      rw [List.find?_eq_none.mpr fun e _ he => nomatch of_decide_eq_true he]
    rw [hget] at hback ⊢
    rw [hnone, wordAt_switchWords_nil]
    unfold skip
    change (unGetC none ⟨before, []⟩ >>= fun q => pure (Outcome.broke q)) = _
    rw [hback]
    rfl
  | cons d rest =>
    have hget : getC (Cursor.mk before (d :: rest)) = (some d, ⟨d :: before, rest⟩) := rfl
    rw [hget] at hback ⊢
    dsimp only at hback ⊢
    rw [caseOf_outcome h hnodup before d rest (hP d rest rfl), ok_bind]
    cases wordAt (switchWords cs) (d :: rest) with
    | some w => rfl
    | none =>
      dsimp only
      rw [hback]
      rfl

theorem Reads.switch_all (h : CasesRead (fun _ _ => True) cases cs) (hnodup : (cases.map Prod.fst).Nodup) :
    Reads P (CharSwitch.switch cases) (switchWords cs) :=
  (Reads.switch h hnodup).mono fun _ _ _ _ _ => trivial

end CharSwitch
