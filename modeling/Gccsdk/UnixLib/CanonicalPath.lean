import Gccsdk.Lib.PathName
import Gccsdk.UnixLib.CommandLine
import Mathlib.Logic.Function.Basic
import Mathlib.Tactic.Common

/-!
# Canonical Unix paths

`canonicalise_unix_path` of `riscosify.c`: in one pass over a path, slashes in a row become one, `./` is left
out, and for `..` the output goes back to the slash before the last one. Only these two are known, so the second
`..` in a row takes back the first. And `./` is left out without a look at a slash that follows.

`canonicaliseUnixPath_eq` says what an absolute path becomes: the path is read as items (`itemsOf`), names, `..`
and what stands between two slashes that are written, and `itemStep` is what one of them does to the names that
have been written. With it `canonRight_iff`: the path is resolved as it should be (`CanonRight`) just if no `..`
takes back another one, and no slash is doubled, but where it does not matter (`RunsClear`).
-/

namespace UnixLib

open PathName

/-- The characters `/` -/
abbrev SLASH : UInt8 := 0x2F
/-- and `.`, -/
abbrev DOT : UInt8 := 0x2E
/-- and the components of a path that are no names. -/
abbrev CURDIR : Text := [DOT]
abbrev UPDIR : Text := [DOT, DOT]

/-! ### `canonicalise_unix_path` -/

def textOf (s : String) : Text := s.toList.map fun c => UInt8.ofNat c.toNat

/-- The output, and the places in it; the pointers are offsets from `to`. -/
structure Canon where
  to_ : ℕ → UInt8
  out : ℕ
  current_slash : ℕ
  previous_slash : Option ℕ

namespace Canon

/-- `*out++ = c` -/
def put (s : Canon) (c : UInt8) : Canon := { s with to_ := Function.update s.to_ s.out c, out := s.out + 1 }

def slash (s : Canon) : Canon :=
  { s.put SLASH with previous_slash := some s.current_slash, current_slash := s.out }

def text (s : Canon) : Text := (List.range s.out).map s.to_

end Canon

/-- One turn of the loop, at the character `c` with `rest` behind it, and the one `before` it, if any. It gives the
place in the input and the output; `none` is for `return NULL`. -/
def canonTurn (buf_end : ℕ) (before : Option UInt8) (c : UInt8) (rest : Text) (s : Canon) :
    Option (UInt8 × Text × Canon) :=
  if c = SLASH then some (SLASH, rest.dropWhile (· = SLASH), s.slash)
  else if c = DOT ∧ (before = none ∨ before = some SLASH) then
    if rest.head? = some DOT ∧ (rest[1]? = some SLASH ∨ rest[1]? = none) then
      match s.previous_slash with
      | some previous_slash => some (DOT, rest.drop 1, { s with out := previous_slash })
      | none => if s.out + 1 ≤ buf_end then some (DOT, rest.drop 1, (s.put DOT).put DOT) else none
    else if rest.head? = some SLASH then some (SLASH, rest.drop 1, s)
    else if rest.head? = none ∧ before = some SLASH then some (DOT, rest, s)
    else some (c, rest, s.put c)
  else some (c, rest, s.put c)

def canonLoop (buf_end : ℕ) : ℕ → Option UInt8 → Text → Canon → Option Canon
  | _, _, [], s => some s
  | 0, _, _ :: _, _ => none
  | turns + 1, before, c :: rest, s =>
    if s.out ≤ buf_end then
      (canonTurn buf_end before c rest s).bind fun (before, rest, s) =>
        canonLoop buf_end turns (some before) rest s
    else some s

/-- `canonicalise_unix_path`: what stands in the buffer in front of the final NUL, and whether `to` is returned. -/
def canonicaliseUnixPath (buf_end : ℕ) (to_ : ℕ → UInt8) (from_ : Text) : Option (Text × Bool) :=
  (canonLoop buf_end from_.length none from_ ⟨to_, 0, 0, none⟩).map fun s => (s.text, ¬s.out ≤ buf_end)

/-! ### What is to become of a path -/

def resolved (path : Text) : List Text := resolve CURDIR UPDIR [] (components SLASH path)

/-- **The path that is left** leads to what the path means, perhaps with a slash at the end. -/
structure CanonRight (path text : Text) : Prop where
  resolved : resolved path ≠ [] ∧ text = render SLASH (resolved path) ∨
    text = render SLASH (resolved path) ++ [SLASH]
  /-- There are only names between two slashes, -/
  names : ∀ c ∈ (components SLASH text).tail.dropLast, IsName CURDIR UPDIR c
  /-- and at the end there may be nothing. -/
  last : ∀ c ∈ components SLASH text, c ≠ CURDIR ∧ c ≠ UPDIR
  again : ∀ buf_end to_, text.length ≤ buf_end →
    ∃ returned, canonicaliseUnixPath buf_end to_ text = some (text, returned)

/-! ### Items -/

/-- The path as the loop reads it, behind the first slash. An empty component is left out with the slashes
in front of it, unless these have gone with a `.`; and a slash at the end counts as an empty one behind it.
-/
def itemsOf : Bool → List Text → List Text
  | _, [] => []
  | _, [c] => if c = [] ∨ c = CURDIR then [[]] else [c]
  | dot, c :: cs =>
    if c = CURDIR then itemsOf true cs
    else if c = [] ∧ dot = false then itemsOf false cs
    else c :: itemsOf false cs

def kept : List Text × Bool → List Text
  | (names, false) => names
  | (names, true) => names.dropLast

def itemStep (x : List Text × Bool) (c : Text) : List Text × Bool :=
  if c = UPDIR then (x.1, !x.2) else (kept x ++ [c], false)

/-- Each name with the number of `..` that follow it; and the number of those in front of the first one. -/
def groups : List Text → ℕ × List (Text × ℕ)
  | [] => (0, [])
  | c :: cs => if c = UPDIR then ((groups cs).1 + 1, (groups cs).2) else (0, (c, (groups cs).1) :: (groups cs).2)

/-- Behind `depth` names, and `ghost` if an empty one follows: a name is followed by no `..`, or by one, or
by an odd number of them if it is the first; an empty one is followed by `..` only if it is the first, and
when it stays, no other does behind it. -/
def clearFrom : ℕ → Bool → List (Text × ℕ) → Prop
  | depth, ghost, [] => depth ≠ 0 ∨ ghost = true
  | depth, ghost, (c, ups) :: rest =>
    if ups % 2 = 1 then (depth = 0 ∨ c ≠ [] ∧ ups = 1) ∧ clearFrom depth ghost rest
    else
      ghost = false ∧ (ups = 0 ∨ c = [] ∧ depth = 0) ∧
        if c = [] then clearFrom depth true rest else clearFrom (depth + 1) false rest

/-- **No `..` takes back another one**, and no slash is doubled, but where it does not matter. -/
def RunsClear (path : Text) : Prop :=
  clearFrom 0 false (groups (itemsOf false (components SLASH path).tail)).2

/-! ### The output -/

section Output

variable {s : Canon} {x y : List Text × Bool} {t u w : Text} {to_ : ℕ → UInt8} {c : UInt8} {i : ℕ}

def HoldsText (to_ : ℕ → UInt8) (t : Text) : Prop := ∀ i, i < t.length → t[i]? = some (to_ i)

theorem HoldsText.left (h : HoldsText to_ (t ++ u)) : HoldsText to_ t := by
  intro i hi
  rw [← List.getElem?_append_left hi]
  refine h i ?_
  rw [List.length_append]
  omega

theorem HoldsText.concat (h : HoldsText to_ t) (c : UInt8) :
    HoldsText (Function.update to_ t.length c) (t ++ [c]) := by
  intro i hi
  rw [List.length_append, List.length_singleton] at hi
  by_cases hlast : i = t.length
  · rw [hlast, Function.update_self, List.getElem?_concat_length]
  · rw [Function.update_of_ne hlast, List.getElem?_append_left (by omega)]
    exact h i (by omega)

theorem HoldsText.same (h : HoldsText to_ t) (hc : t[i]? = some c) : HoldsText (Function.update to_ i c) t := by
  intro j hj
  by_cases hij : j = i
  · rw [hij, Function.update_self, hc]
  · rw [Function.update_of_ne hij]
    exact h j hj

theorem Canon.text_eq (h : HoldsText s.to_ t) (hout : s.out = t.length) : s.text = t := by
  unfold Canon.text
  refine List.ext_getElem? fun i => ?_
  rw [List.getElem?_map, hout]
  by_cases hi : i < t.length
  · rw [List.getElem?_range hi, h i hi, Option.map_some]
  · rw [List.getElem?_eq_none (by rw [List.length_range]; omega), List.getElem?_eq_none (by omega)]
    rfl

theorem HoldsText.copy (h : HoldsText s.to_ t) (hout : s.out = t.length) (w : Text) :
    HoldsText (w.foldl Canon.put s).to_ (t ++ w) ∧ (w.foldl Canon.put s).out = (t ++ w).length ∧
      (w.foldl Canon.put s).current_slash = s.current_slash := by
  induction w generalizing s t with
  | nil =>
    rw [List.append_nil]
    exact ⟨h, hout, rfl⟩
  | cons c w ih =>
    have hput : HoldsText (s.put c).to_ (t ++ [c]) := by
      change HoldsText (Function.update s.to_ s.out c) _
      rw [hout]
      exact h.concat c
    have hnext := ih hput (by rw [List.length_append, ← hout]; rfl)
    rw [List.append_assoc, List.singleton_append] at hnext
    exact hnext

/-- Where the names `x` have been written, with a slash at the end. -/
structure Writes (s : Canon) (x : List Text × Bool) : Prop where
  /-- The last name is still there when it has been taken back, -/
  holds : HoldsText s.to_ (render SLASH x.1 ++ [SLASH])
  out : s.out = (render SLASH (kept x)).length + 1
  current : s.current_slash = (render SLASH (kept x)).length
  /-- and the slash to go back to is then the one behind it. -/
  previous : s.previous_slash = some (render SLASH (kept (x.1, !x.2))).length

/-- Where an item has been written that makes the names `y`. -/
structure Wrote (s : Canon) (y : List Text × Bool) : Prop where
  text : HoldsText s.to_ (render SLASH (kept y))
  out : s.out = (render SLASH (kept y)).length
  current : s.current_slash = (render SLASH (kept (y.1, !y.2))).length
  holds : HoldsText (Function.update s.to_ s.out SLASH) (render SLASH y.1 ++ [SLASH])

theorem render_kept (x : List Text × Bool) :
    ∃ u, render SLASH x.1 ++ [SLASH] = render SLASH (kept x) ++ SLASH :: u := by
  obtain ⟨names, popped⟩ := x
  cases popped with
  | false => exact ⟨[], rfl⟩
  | true =>
    rcases List.eq_nil_or_concat names with rfl | ⟨names, w, rfl⟩
    · exact ⟨[], rfl⟩
    · refine ⟨w ++ [SLASH], ?_⟩
      change render SLASH (names.concat w) ++ _ = render SLASH (names.concat w).dropLast ++ _
      rw [List.concat_eq_append, List.dropLast_concat, render_concat, List.append_assoc, List.cons_append]

theorem Wrote.slash (h : Wrote s y) : Writes s.slash y where
  holds := h.holds
  out := congrArg (· + 1) h.out
  current := h.out
  previous := congrArg some h.current

theorem Writes.name (h : Writes s x) (w : Text) : Wrote (w.foldl Canon.put s) (kept x ++ [w], false) := by
  obtain ⟨u, hu⟩ := render_kept x
  have hdir : HoldsText s.to_ (render SLASH (kept x) ++ [SLASH]) := by
    have hall := h.holds
    rw [hu, List.append_cons] at hall
    exact hall.left
  obtain ⟨hholds, hout, hcurrent⟩ := hdir.copy (by rw [h.out, List.length_append]; rfl) w
  rw [List.append_assoc, List.singleton_append, ← render_concat] at hholds hout
  refine ⟨hholds, hout, ?_, ?_⟩
  · rw [hcurrent, h.current]
    change _ = (render SLASH (kept x ++ [w]).dropLast).length
    rw [List.dropLast_concat]
  · rw [hout]
    exact hholds.concat SLASH

theorem Writes.up (h : Writes s x) :
    Wrote { s with out := (render SLASH (kept (x.1, !x.2))).length } (x.1, !x.2) := by
  obtain ⟨u, hu⟩ := render_kept (x.1, !x.2)
  dsimp only at hu
  refine ⟨?_, rfl, ?_, h.holds.same ?_⟩
  · have hall := h.holds
    rw [hu] at hall
    exact hall.left
  · rw [Bool.not_not]
    exact h.current
  · rw [hu, List.getElem?_append_right (Nat.le_refl _), Nat.sub_self]
    rfl

theorem Wrote.text_eq (h : Wrote s y) : s.text = render SLASH (kept y) := Canon.text_eq h.text h.out

end Output

/-! ### The loop -/

section Loop

variable {buf_end turns : ℕ} {s : Canon} {x : List Text × Bool} {before : Option UInt8} {c : UInt8}
  {rest tail w c₁ : Text} {cs : List Text} {dot : Bool}

theorem canonLoop_cons (hle : s.out ≤ buf_end) :
    canonLoop buf_end (turns + 1) before (c :: rest) s =
      (canonTurn buf_end before c rest s).bind fun r => canonLoop buf_end turns (some r.1) r.2.1 r.2.2 := by
  rw [canonLoop, if_pos hle]

theorem canonTurn_copy (hc : c ≠ SLASH) (hdot : ¬(c = DOT ∧ (before = none ∨ before = some SLASH))) :
    canonTurn buf_end before c rest s = some (c, rest, s.put c) := by
  rw [canonTurn, if_neg hc, if_neg hdot]

theorem canonLoop_copy (hw : SLASH ∉ w) {b : UInt8} (hb : b ≠ SLASH) (hfits : s.out + w.length ≤ buf_end + 1) :
    ∃ b', b' ≠ SLASH ∧ canonLoop buf_end (w.length + turns) (some b) (w ++ tail) s =
      canonLoop buf_end turns (some b') tail (w.foldl Canon.put s) := by
  induction w generalizing b s with
  | nil =>
    refine ⟨b, hb, ?_⟩
    rw [List.length_nil, Nat.zero_add]
    rfl
  | cons c w ih =>
    rw [List.mem_cons, not_or] at hw
    rw [List.length_cons] at hfits
    have hc : c ≠ SLASH := Ne.symm hw.1
    obtain ⟨b', hb', heq⟩ := ih hw.2 hc (s := s.put c) (by
      change s.out + 1 + w.length ≤ buf_end + 1
      omega)
    refine ⟨b', hb', ?_⟩
    rw [List.length_cons, Nat.add_right_comm, List.cons_append, canonLoop_cons (by omega), canonTurn_copy hc]
    · exact heq
    · rintro ⟨-, hnone | hslash⟩
      · cases hnone
      · exact hb (Option.some.inj hslash)

def IsTail (tail : Text) : Prop := tail = [] ∨ ∃ t, tail = SLASH :: t

theorem canonTurn_name (hname : IsName CURDIR UPDIR (c :: w)) (hsep : SLASH ∉ c :: w) (htail : IsTail tail) :
    canonTurn buf_end (some SLASH) c (w ++ tail) s = some (c, w ++ tail, s.put c) := by
  rw [List.mem_cons, not_or] at hsep
  have hc : c ≠ SLASH := Ne.symm hsep.1
  by_cases hdot : c = DOT
  · subst hdot
    cases w with
    | nil => exact absurd rfl hname.2.1
    | cons d w =>
      rw [List.mem_cons, not_or] at hsep
      have hd : d ≠ SLASH := Ne.symm hsep.2.1
      rw [canonTurn, if_neg hc, if_pos ⟨rfl, Or.inr rfl⟩, if_neg, if_neg, if_neg]
      · rintro ⟨hnone, -⟩
        cases hnone
      · intro hslash
        exact hd (Option.some.inj hslash)
      · -- It is no `..`, since the name goes on.
        rintro ⟨hup, hend⟩
        obtain rfl : d = DOT := Option.some.inj hup
        cases w with
        | nil => exact hname.2.2 rfl
        | cons e w =>
          rw [List.mem_cons, not_or] at hsep
          rcases hend with hend | hend
          · exact hsep.2.2.1 (Option.some.inj hend).symm
          · cases hend
  · exact canonTurn_copy hc fun hboth => hdot hboth.1

theorem canonLoop_name (hname : IsName CURDIR UPDIR w) (hsep : SLASH ∉ w) (htail : IsTail tail)
    (hfits : s.out + w.length ≤ buf_end + 1) :
    ∃ b, canonLoop buf_end (w.length + turns) (some SLASH) (w ++ tail) s =
      canonLoop buf_end turns (some b) tail (w.foldl Canon.put s) := by
  cases w with
  | nil => exact absurd rfl hname.1
  | cons c w =>
    rw [List.length_cons] at hfits
    have hsep' := hsep
    rw [List.mem_cons, not_or] at hsep'
    have hfits' : (s.put c).out + w.length ≤ buf_end + 1 := by
      change s.out + 1 + w.length ≤ buf_end + 1
      omega
    obtain ⟨b, -, heq⟩ : ∃ b', b' ≠ SLASH ∧
        canonLoop buf_end (w.length + turns) (some c) (w ++ tail) (s.put c) =
          canonLoop buf_end turns (some b') tail (w.foldl Canon.put (s.put c)) :=
      canonLoop_copy hsep'.2 (Ne.symm hsep'.1) hfits'
    refine ⟨b, ?_⟩
    rw [List.length_cons, Nat.add_right_comm, List.cons_append, canonLoop_cons (by omega),
      canonTurn_name hname hsep htail]
    exact heq

theorem canonLoop_up {p : ℕ} (hprevious : s.previous_slash = some p) (htail : IsTail tail) (hle : s.out ≤ buf_end) :
    canonLoop buf_end (turns + 1) (some SLASH) (UPDIR ++ tail) s =
      canonLoop buf_end turns (some DOT) tail { s with out := p } := by
  have hend : (DOT :: tail)[1]? = some SLASH ∨ (DOT :: tail)[1]? = none := by
    rcases htail with rfl | ⟨t, rfl⟩
    · exact Or.inr rfl
    · exact Or.inl rfl
  change canonLoop buf_end (turns + 1) (some SLASH) (DOT :: DOT :: tail) s = _
  rw [canonLoop_cons hle, canonTurn, if_neg (by decide), if_pos ⟨rfl, Or.inr rfl⟩, if_pos ⟨rfl, hend⟩, hprevious]
  rfl

theorem canonLoop_cur {t : Text} (hle : s.out ≤ buf_end) :
    canonLoop buf_end (turns + 1) (some SLASH) (CURDIR ++ SLASH :: t) s =
      canonLoop buf_end turns (some SLASH) t s := by
  change canonLoop buf_end (turns + 1) (some SLASH) (DOT :: SLASH :: t) s = _
  rw [canonLoop_cons hle, canonTurn, if_neg (by decide), if_pos ⟨rfl, Or.inr rfl⟩, if_neg,
    if_pos (show (SLASH :: t).head? = some SLASH from rfl)]
  · rfl
  · rintro ⟨hup, -⟩
    exact absurd (Option.some.inj hup) (by decide)

theorem canonLoop_cur_end (hle : s.out ≤ buf_end) :
    canonLoop buf_end (turns + 1) (some SLASH) CURDIR s = some s := by
  change canonLoop buf_end (turns + 1) (some SLASH) [DOT] s = _
  rw [canonLoop_cons hle, canonTurn, if_neg (by decide), if_pos ⟨rfl, Or.inr rfl⟩, if_neg (by decide),
    if_neg (by decide), if_pos ⟨rfl, rfl⟩]
  cases turns <;> rfl

theorem canonLoop_slash {t : Text} (hle : s.out ≤ buf_end) :
    canonLoop buf_end (turns + 1) before (SLASH :: t) s =
      canonLoop buf_end turns (some SLASH) (t.dropWhile (· = SLASH)) s.slash := by
  rw [canonLoop_cons hle, canonTurn, if_pos rfl]
  rfl

/-- **One component**, a name or `..`, with what comes behind it. -/
theorem canonLoop_component (h : Writes s x) (hw : w ≠ [] ∧ w ≠ CURDIR) (hsep : SLASH ∉ w) (htail : IsTail tail)
    (hturns : (w ++ tail).length ≤ turns) (hfits : (render SLASH x.1).length + 1 + (w ++ tail).length ≤ buf_end) :
    ∃ s' b turns', Wrote s' (itemStep x w) ∧ tail.length ≤ turns' ∧ s'.out + tail.length ≤ buf_end ∧
      (render SLASH (itemStep x w).1).length + tail.length ≤ buf_end ∧
      canonLoop buf_end turns (some SLASH) (w ++ tail) s = canonLoop buf_end turns' (some b) tail s' := by
  obtain ⟨u, hu⟩ := render_kept x
  obtain ⟨v, hv⟩ := render_kept (x.1, !x.2)
  have hu := congrArg List.length hu
  have hv := congrArg List.length hv
  rw [List.length_append, List.length_append, List.length_singleton, List.length_cons] at hu hv
  rw [List.length_append] at hfits hturns
  have hout := h.out
  by_cases hup : w = UPDIR
  · subst hup
    have hlength : UPDIR.length = 2 := rfl
    obtain ⟨turns, rfl⟩ : ∃ n, turns = n + 1 := ⟨turns - 1, by omega⟩
    refine ⟨_, DOT, turns, ?_, by omega, ?_, ?_, canonLoop_up h.previous htail (by omega)⟩
    · rw [itemStep, if_pos rfl]
      exact h.up
    · dsimp only at hv ⊢
      omega
    · rw [itemStep, if_pos rfl]
      dsimp only
      omega
  · obtain ⟨turns', rfl⟩ : ∃ n, turns = w.length + n := ⟨turns - w.length, by omega⟩
    have hroom : s.out + w.length ≤ buf_end + 1 := by omega
    obtain ⟨b, heq⟩ : ∃ b, canonLoop buf_end (w.length + turns') (some SLASH) (w ++ tail) s =
        canonLoop buf_end turns' (some b) tail (w.foldl Canon.put s) :=
      canonLoop_name ⟨hw.1, hw.2, hup⟩ hsep htail hroom
    have hwrote := h.name w
    have hlength : (render SLASH (kept x ++ [w])).length = s.out + w.length := by
      rw [render_concat, List.length_append, List.length_cons, hout]
      omega
    refine ⟨_, b, turns', ?_, by omega, ?_, ?_, heq⟩
    · rw [itemStep, if_neg hup]
      exact hwrote
    · rw [hwrote.out]
      change (render SLASH (kept x ++ [w])).length + _ ≤ _
      omega
    · rw [itemStep, if_neg hup]
      dsimp only
      omega

theorem itemsOf_singleton (hw : w ≠ [] ∧ w ≠ CURDIR) : itemsOf dot [w] = [w] := by
  rw [itemsOf, if_neg (not_or.mpr hw)]

theorem itemsOf_empty : itemsOf false ([] :: c₁ :: cs) = itemsOf false (c₁ :: cs) := by
  rw [itemsOf, if_neg nofun, if_pos ⟨rfl, rfl⟩]
  nofun

theorem itemsOf_ghost : itemsOf true ([] :: c₁ :: cs) = [] :: itemsOf false (c₁ :: cs) := by
  rw [itemsOf, if_neg nofun, if_neg (fun hboth => nomatch hboth.2)]
  nofun

theorem itemsOf_cur : itemsOf dot (CURDIR :: c₁ :: cs) = itemsOf true (c₁ :: cs) := by
  rw [itemsOf, if_pos rfl]
  nofun

theorem itemsOf_cons (hw : w ≠ [] ∧ w ≠ CURDIR) : itemsOf dot (w :: c₁ :: cs) = w :: itemsOf false (c₁ :: cs) := by
  rw [itemsOf, if_neg hw.2, if_neg (fun hboth => hw.1 hboth.1)]
  nofun

/-- What is left of the path, when the slashes in front of it have been read or not. -/
def inputOf (dot : Bool) (cs : List Text) : Text :=
  if dot then join SLASH cs else (join SLASH cs).dropWhile (· = SLASH)

theorem inputOf_of_ne_nil (hw : w ≠ []) (hsep : SLASH ∉ w) : inputOf dot (w :: cs) = join SLASH (w :: cs) := by
  cases dot with
  | true => rfl
  | false => exact dropWhile_join_of_ne_nil hw hsep

theorem canonLoop_items (hcs : cs ≠ []) (hsep : ∀ c ∈ cs, SLASH ∉ c) (h : Writes s x)
    (hturns : (inputOf dot cs).length ≤ turns)
    (hfits : (render SLASH x.1).length + 1 + (inputOf dot cs).length ≤ buf_end) :
    ∃ s', canonLoop buf_end turns (some SLASH) (inputOf dot cs) s = some s' ∧
      Wrote s' ((itemsOf dot cs).foldl itemStep x) ∧ s'.out ≤ buf_end := by
  induction cs generalizing dot turns s x with
  | nil => exact absurd rfl hcs
  | cons w cs ih =>
    obtain ⟨u, hu⟩ := render_kept x
    have hu := congrArg List.length hu
    rw [List.length_append, List.length_append, List.length_singleton, List.length_cons] at hu
    have hout := h.out
    have hghost := h.name []
    have hw := hsep w List.mem_cons_self
    cases cs with
    | nil =>
      by_cases hempty : w = []
      · subst hempty
        have hnone : inputOf dot [[]] = [] := by cases dot <;> rfl
        rw [hnone] at hfits ⊢
        refine ⟨s, by cases turns <;> rfl, ?_, by omega⟩
        exact hghost
      rw [inputOf_of_ne_nil hempty hw, join, List.intercalate_singleton] at hturns hfits ⊢
      by_cases hcur : w = CURDIR
      · subst hcur
        obtain ⟨turns, rfl⟩ : ∃ n, turns = n + 1 := ⟨turns - 1, by rw [List.length_singleton] at hturns; omega⟩
        refine ⟨s, canonLoop_cur_end (by omega), ?_, by omega⟩
        exact hghost
      · rw [← List.append_nil w] at hturns hfits ⊢
        obtain ⟨s', b, turns', hwrote, -, hle, -, heq⟩ :=
          canonLoop_component h ⟨hempty, hcur⟩ hw (Or.inl rfl) hturns hfits
        refine ⟨s', heq.trans (by cases turns' <;> rfl), ?_, hle⟩
        rw [List.append_nil, itemsOf_singleton ⟨hempty, hcur⟩]
        exact hwrote
    | cons c₁ cs =>
      have hrest := fun c hc => hsep c (List.mem_cons_of_mem w hc)
      have hdrop : ((join SLASH (c₁ :: cs)).dropWhile (· = SLASH)).length ≤ (join SLASH (c₁ :: cs)).length :=
        (List.dropWhile_suffix _).length_le
      by_cases hempty : w = []
      · subst hempty
        cases dot with
        | false =>
          have hinput : inputOf false ([] :: c₁ :: cs) = inputOf false (c₁ :: cs) :=
            dropWhile_join_nil (List.cons_ne_nil c₁ cs)
          rw [hinput] at hturns hfits ⊢
          rw [itemsOf_empty]
          exact ih (List.cons_ne_nil c₁ cs) hrest h hturns hfits
        | true =>
          -- The slash behind a `.` is written as well.
          have hinput : inputOf true ([] :: c₁ :: cs) = SLASH :: join SLASH (c₁ :: cs) :=
            List.intercalate_cons_cons
          rw [hinput, List.length_cons] at hturns hfits
          obtain ⟨turns, rfl⟩ : ∃ n, turns = n + 1 := ⟨turns - 1, by omega⟩
          rw [hinput, itemsOf_ghost, canonLoop_slash (by omega)]
          have hlength : (render SLASH (kept x ++ [[]])).length = (render SLASH (kept x)).length + 1 := by
            rw [render_concat, List.length_append]
            rfl
          change ∃ s', canonLoop buf_end turns (some SLASH) (inputOf false (c₁ :: cs)) s.slash = some s' ∧ _
          refine ih (List.cons_ne_nil c₁ cs) hrest hghost.slash (Nat.le_trans hdrop (by omega)) ?_
          change (render SLASH (kept x ++ [[]])).length + 1 +
            ((join SLASH (c₁ :: cs)).dropWhile (· = SLASH)).length ≤ _
          omega
      have hinput : inputOf dot (w :: c₁ :: cs) = w ++ SLASH :: join SLASH (c₁ :: cs) := by
        rw [inputOf_of_ne_nil hempty hw, join, List.intercalate_cons_cons, List.append_assoc]
        rfl
      rw [hinput] at hturns hfits ⊢
      by_cases hcur : w = CURDIR
      · subst hcur
        have hone : CURDIR.length = 1 := rfl
        rw [List.length_append, hone, List.length_cons] at hturns hfits
        obtain ⟨turns, rfl⟩ : ∃ n, turns = n + 1 := ⟨turns - 1, by omega⟩
        rw [canonLoop_cur (by omega), itemsOf_cur]
        change ∃ s', canonLoop buf_end turns (some SLASH) (inputOf true (c₁ :: cs)) s = some s' ∧ _
        refine ih (List.cons_ne_nil c₁ cs) hrest h ?_ ?_
        · change (join SLASH (c₁ :: cs)).length ≤ _
          omega
        · change _ + (join SLASH (c₁ :: cs)).length ≤ _
          omega
      · obtain ⟨s', b, turns', hwrote, hturns', hle, hnames, heq⟩ :=
          canonLoop_component h ⟨hempty, hcur⟩ hw (Or.inr ⟨_, rfl⟩) hturns hfits
        rw [List.length_cons] at hturns' hle hnames
        obtain ⟨turns', rfl⟩ : ∃ n, turns' = n + 1 := ⟨turns' - 1, by omega⟩
        rw [heq, itemsOf_cons ⟨hempty, hcur⟩, canonLoop_slash (by omega)]
        change ∃ r, canonLoop buf_end turns' (some SLASH) (inputOf false (c₁ :: cs)) s'.slash = some r ∧ _
        refine ih (List.cons_ne_nil c₁ cs) hrest hwrote.slash (Nat.le_trans hdrop (by omega)) ?_
        change _ + ((join SLASH (c₁ :: cs)).dropWhile (· = SLASH)).length ≤ _
        omega

def writtenNames (rest : Text) : List Text := kept ((itemsOf false (components SLASH rest)).foldl itemStep ([], false))

/-- **`canonicalise_unix_path`** for an absolute path that fits the buffer. It returns NULL. -/
theorem canonicaliseUnixPath_eq (hfits : rest.length + 1 ≤ buf_end) (to_ : ℕ → UInt8) :
    canonicaliseUnixPath buf_end to_ (SLASH :: rest) = some (render SLASH (writtenNames rest), false) := by
  have hstart : Writes (Canon.slash ⟨to_, 0, 0, none⟩) ([], false) := by
    refine ⟨?_, rfl, rfl, rfl⟩
    exact HoldsText.concat (t := []) (fun i hi => absurd hi (Nat.not_lt_zero i)) SLASH
  have hinput : rest.dropWhile (· = SLASH) = inputOf false (components SLASH rest) := by
    change _ = (join SLASH (components SLASH rest)).dropWhile _
    rw [join_components]
  have hdrop : (inputOf false (components SLASH rest)).length ≤ rest.length := by
    rw [← hinput]
    exact (List.dropWhile_suffix _).length_le
  have hroom : (render SLASH []).length + 1 + (inputOf false (components SLASH rest)).length ≤ buf_end := by
    change 0 + 1 + (inputOf false (components SLASH rest)).length ≤ buf_end
    omega
  obtain ⟨s', hrun, hwrote, hle⟩ :=
    canonLoop_items (List.splitOn_ne_nil SLASH rest) (sep_not_mem SLASH rest) hstart hdrop hroom
  unfold canonicaliseUnixPath
  rw [List.length_cons, canonLoop_slash (Nat.zero_le _), hinput, hrun, Option.map_some, hwrote.text_eq,
    decide_eq_false (not_not.mpr hle)]
  rfl

-- The path of the comment has a slash behind `./`, which is doubled.
example : canonicaliseUnixPath 256 (fun _ => 0) (textOf "/foo///bar/../baz/.////") =
    some (textOf "/foo/baz//", false) := by decide

end Loop

/-! ### Which paths are resolved -/

section Resolve

variable {w : Text} {k : ℕ} {dir names cs : List Text} {dot ghost : Bool} {gs : List (Text × ℕ)} {rest : Text}
  {x : List Text × Bool}

theorem resolve_itemsOf : resolve CURDIR UPDIR dir (itemsOf dot cs) = resolve CURDIR UPDIR dir cs := by
  have hskip : ∀ (dir : List Text) c, c = [] ∨ c = CURDIR → resolveStep CURDIR UPDIR dir c = dir :=
    fun dir c hc => if_pos hc
  induction cs generalizing dir dot with
  | nil => rfl
  | cons w cs ih =>
    cases cs with
    | nil =>
      by_cases hw : w = [] ∨ w = CURDIR
      · rw [itemsOf, if_pos hw]
        change resolveStep CURDIR UPDIR dir [] = resolveStep CURDIR UPDIR dir w
        rw [hskip dir [] (Or.inl rfl), hskip dir w hw]
      · rw [itemsOf, if_neg hw]
    | cons c cs =>
      have hstep : resolve CURDIR UPDIR dir (w :: c :: cs) =
          resolve CURDIR UPDIR (resolveStep CURDIR UPDIR dir w) (c :: cs) := rfl
      by_cases hcur : w = CURDIR
      · rw [hstep, hcur, itemsOf_cur, ih, hskip dir CURDIR (Or.inr rfl)]
      by_cases hempty : w = []
      · rw [hstep, hempty, hskip dir [] (Or.inl rfl)]
        cases dot with
        | false => rw [itemsOf_empty, ih]
        | true =>
          have hghost : resolve CURDIR UPDIR dir ([] :: itemsOf false (c :: cs)) =
              resolve CURDIR UPDIR (resolveStep CURDIR UPDIR dir []) (itemsOf false (c :: cs)) := rfl
          rw [itemsOf_ghost, hghost, hskip dir [] (Or.inl rfl), ih]
      · rw [hstep, itemsOf_cons ⟨hempty, hcur⟩]
        exact ih

theorem ne_cur_of_mem_itemsOf : ∀ c ∈ itemsOf dot cs, c ≠ CURDIR := by
  induction cs generalizing dot with
  | nil => exact fun c hc => nomatch hc
  | cons w cs ih =>
    intro c hc
    cases cs with
    | nil =>
      rw [itemsOf] at hc
      split at hc
      · rw [List.mem_singleton.mp hc]
        nofun
      · rename_i hw
        rw [List.mem_singleton.mp hc]
        exact fun heq => hw (Or.inr heq)
    | cons c₁ cs =>
      by_cases hcur : w = CURDIR
      · rw [hcur, itemsOf_cur] at hc
        exact ih c hc
      by_cases hempty : w = []
      · subst hempty
        cases dot with
        | false =>
          rw [itemsOf_empty] at hc
          exact ih c hc
        | true =>
          rw [itemsOf_ghost] at hc
          rcases List.mem_cons.mp hc with rfl | hc
          · nofun
          · exact ih c hc
      · rw [itemsOf_cons ⟨hempty, hcur⟩] at hc
        rcases List.mem_cons.mp hc with rfl | hc
        · exact hcur
        · exact ih c hc

/-- A name with its `..`. -/
def groupItems (g : Text × ℕ) : List Text := g.1 :: List.replicate g.2 UPDIR

theorem groups_eq (cs : List Text) :
    cs = List.replicate (groups cs).1 UPDIR ++ (groups cs).2.flatMap groupItems ∧
      ∀ g ∈ (groups cs).2, g.1 ∈ cs ∧ g.1 ≠ UPDIR := by
  induction cs with
  | nil => exact ⟨rfl, fun g hg => nomatch hg⟩
  | cons c cs ih =>
    obtain ⟨heq, hmem⟩ := ih
    rw [groups]
    split
    · rename_i hup
      refine ⟨?_, fun g hg => ⟨List.mem_cons_of_mem c (hmem g hg).1, (hmem g hg).2⟩⟩
      rw [hup, List.replicate_succ, List.cons_append, ← heq]
    · rename_i hup
      refine ⟨?_, fun g hg => ?_⟩
      · change c :: cs = groupItems (c, (groups cs).1) ++ (groups cs).2.flatMap groupItems
        rw [groupItems, List.cons_append, ← heq]
      · rcases List.mem_cons.mp hg with rfl | hg
        · exact ⟨List.mem_cons_self, hup⟩
        · exact ⟨List.mem_cons_of_mem c (hmem g hg).1, (hmem g hg).2⟩

/-- The names that stay: those with an even number of `..` behind them. -/
def keptNames (gs : List (Text × ℕ)) : List Text := (gs.filter fun g => g.2 % 2 = 0).map Prod.fst

theorem keptNames_cons_odd (hodd : k % 2 = 1) : keptNames ((w, k) :: gs) = keptNames gs := by
  have hnot : ¬decide (k % 2 = 0) = true := by
    rw [decide_eq_true_iff]
    omega
  rw [keptNames, List.filter_cons, if_neg hnot]
  rfl

theorem keptNames_cons_even (heven : k % 2 = 0) : keptNames ((w, k) :: gs) = w :: keptNames gs := by
  rw [keptNames, List.filter_cons, if_pos (decide_eq_true heven)]
  rfl

theorem foldl_itemStep_up (x : List Text × Bool) (k : ℕ) :
    (List.replicate k UPDIR).foldl itemStep x = (x.1, if k % 2 = 1 then !x.2 else x.2) := by
  induction k generalizing x with
  | zero => rfl
  | succ k ih =>
    rw [List.replicate_succ, List.foldl_cons, ih, itemStep, if_pos rfl]
    dsimp only
    rcases Nat.mod_two_eq_zero_or_one k with hk | hk
    · rw [if_neg (by omega), if_pos (by omega)]
    · rw [if_pos hk, if_neg (by omega), Bool.not_not]

theorem kept_groups (hgs : ∀ g ∈ gs, g.1 ≠ UPDIR) (x : List Text × Bool) :
    kept ((gs.flatMap groupItems).foldl itemStep x) = kept x ++ keptNames gs := by
  induction gs generalizing x with
  | nil => exact (List.append_nil _).symm
  | cons g gs ih =>
    obtain ⟨w, k⟩ := g
    have hw : w ≠ UPDIR := hgs (w, k) List.mem_cons_self
    rw [List.flatMap_cons, List.foldl_append, ih fun g hg => hgs g (List.mem_cons_of_mem _ hg)]
    have hone : (groupItems (w, k)).foldl itemStep x = (kept x ++ [w], if k % 2 = 1 then true else false) := by
      rw [groupItems, List.foldl_cons, foldl_itemStep_up, itemStep, if_neg hw]
      rfl
    rw [hone]
    rcases Nat.mod_two_eq_zero_or_one k with hk | hk
    · rw [if_neg (by omega), keptNames_cons_even hk]
      exact List.append_assoc (kept x) [w] (keptNames gs)
    · rw [if_pos hk, keptNames_cons_odd hk]
      change (kept x ++ [w]).dropLast ++ _ = _
      rw [List.dropLast_concat]

theorem writtenNames_eq (rest : Text) :
    writtenNames rest = keptNames (groups (itemsOf false (components SLASH rest))).2 := by
  obtain ⟨heq, hmem⟩ := groups_eq (itemsOf false (components SLASH rest))
  rw [writtenNames]
  conv_lhs => rw [heq]
  rw [List.foldl_append, foldl_itemStep_up, kept_groups fun g hg => (hmem g hg).2]
  split <;> rfl

theorem resolved_eq (rest : Text) :
    resolved (SLASH :: rest) =
      resolve CURDIR UPDIR [] ((groups (itemsOf false (components SLASH rest))).2.flatMap groupItems) := by
  obtain ⟨heq, -⟩ := groups_eq (itemsOf false (components SLASH rest))
  have hcs : components SLASH (SLASH :: rest) = [] :: components SLASH rest := by
    rw [components, List.splitOn_cons_eq_if_modifyHead, if_pos (beq_self_eq_true SLASH)]
  have hitems : resolved (SLASH :: rest) =
      resolve CURDIR UPDIR [] (itemsOf false (components SLASH rest)) := by
    rw [resolved, hcs, resolve_itemsOf]
    rfl
  rw [hitems]
  conv_lhs => rw [heq]
  rw [resolve, List.foldl_append]
  change resolve CURDIR UPDIR (resolve CURDIR UPDIR [] (List.replicate _ UPDIR)) _ = _
  rw [resolve_replicate_up (show UPDIR ≠ [] from List.cons_ne_nil _ _) (by decide), List.take_nil]

/-- The names that are written are those of the path, perhaps with a slash at the end. -/
def RightNames (written names : List Text) : Prop := names ≠ [] ∧ written = names ∨ written = names ++ [[]]

theorem resolve_group (hw : w ≠ CURDIR ∧ w ≠ UPDIR) (dir : List Text) :
    resolve CURDIR UPDIR dir (groupItems (w, k)) =
      if w = [] then dir.take (dir.length - k) else (dir ++ [w]).take (dir.length + 1 - k) := by
  change resolve CURDIR UPDIR (resolveStep CURDIR UPDIR dir w) (List.replicate k UPDIR) = _
  rw [resolve_replicate_up (show UPDIR ≠ [] from List.cons_ne_nil _ _) (by decide)]
  split
  · rename_i hempty
    rw [resolveStep, if_pos (Or.inl hempty)]
  · rename_i hempty
    rw [resolveStep_name ⟨hempty, hw⟩, List.length_append]
    rfl

def named (names : List Text) : ℕ := names.countP fun c => c ≠ []

theorem named_append (names names' : List Text) : named (names ++ names') = named names + named names' :=
  List.countP_append

theorem named_eq_length (h : ∀ c ∈ names, c ≠ []) : named names = names.length :=
  List.countP_eq_length.mpr fun c hc => decide_eq_true (h c hc)

theorem named_singleton (w : Text) : named [w] = if w = [] then 0 else 1 := by
  rw [named, List.countP_singleton]
  split <;> split <;> simp_all

theorem named_cons (w : Text) (names : List Text) :
    named (w :: names) = (if w = [] then 0 else 1) + named names := by
  rw [← List.singleton_append, named_append, named_singleton]

theorem resolve_group_length (hw : w ≠ CURDIR ∧ w ≠ UPDIR) (dir : List Text) :
    (resolve CURDIR UPDIR dir (groupItems (w, k))).length = (if w = [] then dir.length else dir.length + 1) - k := by
  rw [resolve_group hw]
  split
  · rw [List.length_take]
    omega
  · rw [List.length_take, List.length_append, List.length_singleton]
    omega

theorem resolve_groups_cons (dir : List Text) (g : Text × ℕ) (gs : List (Text × ℕ)) :
    resolve CURDIR UPDIR dir ((g :: gs).flatMap groupItems) =
      resolve CURDIR UPDIR (resolve CURDIR UPDIR dir (groupItems g)) (gs.flatMap groupItems) := by
  rw [List.flatMap_cons, resolve, List.foldl_append]
  rfl

theorem length_resolve_le (hgs : ∀ g ∈ gs, g.1 ≠ CURDIR ∧ g.1 ≠ UPDIR) (dir : List Text) :
    (resolve CURDIR UPDIR dir (gs.flatMap groupItems)).length ≤ dir.length + named (keptNames gs) := by
  induction gs generalizing dir with
  | nil => exact Nat.le_add_right _ _
  | cons g gs ih =>
    obtain ⟨w, k⟩ := g
    have hrest := ih (fun g hg => hgs g (List.mem_cons_of_mem _ hg)) (resolve CURDIR UPDIR dir (groupItems (w, k)))
    rw [resolve_group_length (hgs (w, k) List.mem_cons_self)] at hrest
    rw [resolve_groups_cons]
    refine Nat.le_trans hrest ?_
    rcases Nat.mod_two_eq_zero_or_one k with hk | hk
    · rw [keptNames_cons_even hk, named_cons]
      split <;> omega
    · rw [keptNames_cons_odd hk]
      split <;> omega

theorem RightNames.named_eq {written : List Text} (h : RightNames written names) (hnames : ∀ c ∈ names, c ≠ []) :
    named written = names.length := by
  rcases h with ⟨-, rfl⟩ | rfl
  · exact named_eq_length hnames
  · rw [named_append, named_eq_length hnames]
    rfl

theorem RightNames.not_ghost {c : Text} (hnames : ∀ c ∈ names, c ≠ []) :
    ¬RightNames (dir ++ [[]] ++ c :: cs) names := by
  have hmem : [] ∈ dir ++ [[]] := List.mem_append_right dir List.mem_cons_self
  rintro (⟨-, heq⟩ | heq)
  · exact hnames [] (heq ▸ List.mem_append_left _ hmem) rfl
  · have hdrop := congrArg List.dropLast heq
    rw [List.dropLast_concat, List.dropLast_append_of_ne_nil (List.cons_ne_nil c cs)] at hdrop
    exact hnames [] (hdrop ▸ List.mem_append_left _ hmem) rfl

/-- A group that leaves the directory as it is, -/
theorem resolve_group_self (hw : w ≠ CURDIR ∧ w ≠ UPDIR)
    (hk : k % 2 = 1 ∧ (dir.length = 0 ∨ w ≠ [] ∧ k = 1) ∨ w = [] ∧ (k = 0 ∨ dir.length = 0)) :
    resolve CURDIR UPDIR dir (groupItems (w, k)) = dir := by
  rw [resolve_group hw]
  split
  · rename_i hempty
    have hlength : dir.length - k = dir.length := by
      rcases hk with ⟨-, hzero | ⟨hne, -⟩⟩ | ⟨-, hzero⟩
      · omega
      · exact absurd hempty hne
      · omega
    rw [hlength, List.take_length]
  · rename_i hempty
    have hlength : dir.length + 1 - k = dir.length := by
      rcases hk with ⟨hodd, hzero | ⟨-, rfl⟩⟩ | ⟨hnil, -⟩
      · omega
      · omega
      · exact absurd hnil hempty
    rw [hlength, List.take_left]

theorem resolve_group_name (hw : IsName CURDIR UPDIR w) :
    resolve CURDIR UPDIR dir (groupItems (w, 0)) = dir ++ [w] := resolveStep_name hw

def ghostOf : Bool → List Text
  | true => [[]]
  | false => []

/-- **Which groups are written as they should be**, from a directory on, behind which a slash may be doubled. -/
theorem rightNames_iff (hgs : ∀ g ∈ gs, g.1 ≠ CURDIR ∧ g.1 ≠ UPDIR) (hdir : ∀ c ∈ dir, IsName CURDIR UPDIR c) :
    RightNames (dir ++ ghostOf ghost ++ keptNames gs)
        (resolve CURDIR UPDIR dir (gs.flatMap groupItems)) ↔
      clearFrom dir.length ghost gs := by
  induction gs generalizing dir ghost with
  | nil =>
    have hpos : dir ≠ [] ↔ dir.length ≠ 0 := List.length_eq_zero_iff.not.symm
    change RightNames (dir ++ ghostOf ghost ++ []) dir ↔ dir.length ≠ 0 ∨ ghost = true
    rw [List.append_nil, RightNames, hpos]
    cases ghost with
    | true => exact ⟨fun _ => Or.inr rfl, fun _ => Or.inr rfl⟩
    | false =>
      rw [ghostOf, List.append_nil]
      constructor
      · rintro (⟨hne, -⟩ | heq)
        · exact Or.inl hne
        · have hlength := congrArg List.length heq
          rw [List.length_append, List.length_singleton] at hlength
          omega
      · rintro (hne | hfalse)
        · exact Or.inl ⟨hne, rfl⟩
        · cases hfalse
  | cons g gs ih =>
    obtain ⟨w, k⟩ := g
    have hw : w ≠ CURDIR ∧ w ≠ UPDIR := hgs (w, k) List.mem_cons_self
    have hrest : ∀ g ∈ gs, g.1 ≠ CURDIR ∧ g.1 ≠ UPDIR := fun g hg => hgs g (List.mem_cons_of_mem _ hg)
    have hnames : ∀ c ∈ resolve CURDIR UPDIR dir (((w, k) :: gs).flatMap groupItems), c ≠ [] :=
      fun c hc => (isName_of_mem_resolve hdir c hc).1
    have hlength := resolve_group_length (k := k) hw dir
    have hle := length_resolve_le hrest (resolve CURDIR UPDIR dir (groupItems (w, k)))
    have hnamed : named (dir ++ ghostOf ghost ++ keptNames ((w, k) :: gs)) =
        dir.length + named (keptNames ((w, k) :: gs)) := by
      rw [named_append, named_append, named_eq_length fun c hc => (hdir c hc).1]
      cases ghost <;> rfl
    -- Names that have been lost do not come back.
    have hlost : (resolve CURDIR UPDIR dir (groupItems (w, k))).length + named (keptNames gs) <
        dir.length + named (keptNames ((w, k) :: gs)) →
        ¬RightNames (dir ++ ghostOf ghost ++ keptNames ((w, k) :: gs))
          (resolve CURDIR UPDIR dir (((w, k) :: gs).flatMap groupItems)) := by
      intro hlt hright
      have heq := hright.named_eq hnames
      rw [hnamed, resolve_groups_cons] at heq
      omega
    rw [clearFrom]
    rcases Nat.mod_two_eq_zero_or_one k with hk | hk
    · rw [if_neg (by omega)]
      rw [keptNames_cons_even hk] at hlost ⊢
      rw [named_cons] at hlost
      cases ghost with
      | true =>
        exact ⟨fun hright => absurd hright (RightNames.not_ghost hnames), fun hclear => nomatch hclear.1⟩
      | false =>
        rw [ghostOf, List.append_nil] at hlost ⊢
        by_cases hempty : w = []
        · rw [if_pos hempty] at hlost hlength ⊢
          by_cases hlocal : k = 0 ∨ w = [] ∧ dir.length = 0
          · have hself : resolve CURDIR UPDIR dir (groupItems (w, k)) = dir :=
              resolve_group_self hw (Or.inr ⟨hempty, hlocal.imp_right And.right⟩)
            have hone : RightNames (dir ++ ghostOf true ++ keptNames gs)
                (resolve CURDIR UPDIR dir (gs.flatMap groupItems)) ↔ clearFrom dir.length true gs := ih hrest hdir
            rw [ghostOf] at hone
            rw [resolve_groups_cons, hself, hempty, List.append_cons, hone]
            exact ⟨fun hclear => ⟨rfl, hempty ▸ hlocal, hclear⟩, fun hclear => hclear.2.2⟩
          · refine ⟨fun hright => absurd hright (hlost ?_), fun hclear => absurd hclear.2.1 hlocal⟩
            rw [not_or, not_and] at hlocal
            have hpos := hlocal.2 hempty
            omega
        · rw [if_neg hempty] at hlost hlength ⊢
          by_cases hlocal : k = 0 ∨ w = [] ∧ dir.length = 0
          · obtain rfl : k = 0 := hlocal.resolve_right fun hboth => hempty hboth.1
            have hname : IsName CURDIR UPDIR w := ⟨hempty, hw⟩
            have hnew : ∀ c ∈ dir ++ [w], IsName CURDIR UPDIR c := by
              intro c hc
              rcases List.mem_append.mp hc with hc | hc
              · exact hdir c hc
              · rw [List.mem_singleton.mp hc]
                exact hname
            have hone : RightNames (dir ++ [w] ++ ghostOf false ++ keptNames gs)
                (resolve CURDIR UPDIR (dir ++ [w]) (gs.flatMap groupItems)) ↔
                  clearFrom (dir ++ [w]).length false gs := ih hrest hnew
            rw [ghostOf, List.append_nil, List.length_append, List.length_singleton] at hone
            rw [resolve_groups_cons, resolve_group_name hname, List.append_cons, hone]
            exact ⟨fun hclear => ⟨rfl, hlocal, hclear⟩, fun hclear => hclear.2.2⟩
          · refine ⟨fun hright => absurd hright (hlost ?_), fun hclear => absurd hclear.2.1 hlocal⟩
            rw [not_or] at hlocal
            omega
    · rw [if_pos hk]
      rw [keptNames_cons_odd hk] at hlost ⊢
      by_cases hlocal : dir.length = 0 ∨ w ≠ [] ∧ k = 1
      · rw [resolve_groups_cons, resolve_group_self hw (Or.inl ⟨hk, hlocal⟩), ih hrest hdir]
        exact ⟨fun hclear => ⟨hlocal, hclear⟩, And.right⟩
      · refine ⟨fun hright => absurd hright (hlost ?_), fun hclear => absurd hclear.1 hlocal⟩
        rw [not_or, not_and] at hlocal
        split at hlength
        · omega
        · rename_i hne
          have hmore := hlocal.2 hne
          omega

/-! ### Paths that do not change -/

theorem mem_itemsOf : ∀ c ∈ itemsOf dot cs, c = [] ∨ c ∈ cs := by
  induction cs generalizing dot with
  | nil => exact fun c hc => nomatch hc
  | cons w cs ih =>
    intro c hc
    have hbehind : ∀ dot, c ∈ itemsOf dot cs → c = [] ∨ c ∈ w :: cs := fun dot hc =>
      (ih c hc).imp_right (List.mem_cons_of_mem w)
    cases cs with
    | nil =>
      rw [itemsOf] at hc
      split at hc
      · exact Or.inl (List.mem_singleton.mp hc)
      · exact Or.inr hc
    | cons c₁ cs =>
      by_cases hcur : w = CURDIR
      · rw [hcur, itemsOf_cur] at hc
        exact hbehind _ hc
      by_cases hempty : w = []
      · subst hempty
        cases dot with
        | false =>
          rw [itemsOf_empty] at hc
          exact hbehind _ hc
        | true =>
          rw [itemsOf_ghost] at hc
          rcases List.mem_cons.mp hc with hc | hc
          · exact Or.inl hc
          · exact hbehind _ hc
      · rw [itemsOf_cons ⟨hempty, hcur⟩] at hc
        rcases List.mem_cons.mp hc with rfl | hc
        · exact Or.inr List.mem_cons_self
        · exact hbehind _ hc

theorem slash_not_mem_writtenNames (rest : Text) : ∀ c ∈ writtenNames rest, SLASH ∉ c := by
  intro c hc
  rw [writtenNames_eq, keptNames, List.mem_map] at hc
  obtain ⟨g, hg, rfl⟩ := hc
  have hitem := ((groups_eq _).2 g (List.mem_filter.mp hg).1).1
  rcases mem_itemsOf _ hitem with hempty | hmem
  · rw [hempty]
    exact List.not_mem_nil
  · exact sep_not_mem SLASH rest _ hmem

theorem slash_not_mem_resolved (path : Text) : ∀ c ∈ resolved path, SLASH ∉ c := by
  intro c hc
  rcases mem_of_mem_resolve hc with hc | hc
  · cases hc
  · exact sep_not_mem SLASH path c hc

theorem itemsOf_names (hnames : ∀ c ∈ names, IsName CURDIR UPDIR c) :
    itemsOf dot names = names ∧ itemsOf dot (names ++ [[]]) = names ++ [[]] := by
  induction names generalizing dot with
  | nil => exact ⟨by cases dot <;> rfl, by cases dot <;> rfl⟩
  | cons w names ih =>
    have hw := hnames w List.mem_cons_self
    obtain ⟨hone, htwo⟩ : itemsOf false names = names ∧ itemsOf false (names ++ [[]]) = names ++ [[]] :=
      ih fun c hc => hnames c (List.mem_cons_of_mem w hc)
    cases names with
    | nil =>
      refine ⟨itemsOf_singleton ⟨hw.1, hw.2.1⟩, ?_⟩
      change itemsOf dot (w :: [] :: []) = _
      rw [itemsOf_cons ⟨hw.1, hw.2.1⟩]
      rfl
    | cons c names =>
      refine ⟨?_, ?_⟩
      · rw [itemsOf_cons ⟨hw.1, hw.2.1⟩, hone]
      · rw [List.cons_append] at htwo
        rw [List.cons_append, List.cons_append, itemsOf_cons ⟨hw.1, hw.2.1⟩, htwo]

theorem foldl_itemStep_names (hup : ∀ c ∈ names, c ≠ UPDIR) (dir : List Text) :
    names.foldl itemStep (dir, false) = (dir ++ names, false) := by
  induction names generalizing dir with
  | nil =>
    rw [List.append_nil]
    rfl
  | cons w names ih =>
    rw [List.foldl_cons, itemStep, if_neg (hup w List.mem_cons_self),
      ih fun c hc => hup c (List.mem_cons_of_mem w hc)]
    exact congrArg (·, false) (List.append_assoc dir [w] names)

theorem canonicaliseUnixPath_names (hitems : itemsOf false names = names) (hne : names ≠ [])
    (hsep : ∀ c ∈ names, SLASH ∉ c) (hup : ∀ c ∈ names, c ≠ UPDIR) {buf_end : ℕ}
    (hfits : (render SLASH names).length ≤ buf_end) (to_ : ℕ → UInt8) :
    canonicaliseUnixPath buf_end to_ (render SLASH names) = some (render SLASH names, false) := by
  have hslash : render SLASH names = SLASH :: join SLASH names := by
    rw [render, join, List.intercalate_cons_of_ne_nil hne]
    rfl
  have hlength : (join SLASH names).length + 1 ≤ buf_end := by
    rw [hslash] at hfits
    exact hfits
  have hwritten : writtenNames (join SLASH names) = names := by
    rw [writtenNames, components_join hsep hne, hitems, foldl_itemStep_names hup]
    rfl
  have heq := canonicaliseUnixPath_eq hlength to_
  rw [hwritten, ← hslash] at heq
  exact heq

theorem canonRight_of_rightNames (h : RightNames (writtenNames rest) (resolved (SLASH :: rest))) :
    CanonRight (SLASH :: rest) (render SLASH (writtenNames rest)) := by
  have hnames : ∀ c ∈ resolved (SLASH :: rest), IsName CURDIR UPDIR c :=
    isName_of_mem_resolve fun c hc => nomatch hc
  have hsep := slash_not_mem_writtenNames rest
  have hcs := components_render hsep
  have hmem : ∀ c ∈ writtenNames rest, c = [] ∨ c ∈ resolved (SLASH :: rest) := by
    intro c hc
    rcases h with ⟨-, heq⟩ | heq
    · exact Or.inr (heq ▸ hc)
    · rw [heq, List.mem_append, List.mem_singleton] at hc
      exact hc.symm
  have hup : ∀ c ∈ writtenNames rest, c ≠ CURDIR ∧ c ≠ UPDIR := by
    intro c hc
    rcases hmem c hc with rfl | hc
    · exact ⟨nofun, nofun⟩
    · exact (hnames c hc).2
  refine ⟨?_, fun c hc => ?_, fun c hc => ?_, fun buf_end to_ hfits => ⟨false, ?_⟩⟩
  · rcases h with ⟨hne, heq⟩ | heq
    · exact Or.inl ⟨hne, congrArg _ heq⟩
    · rw [heq, render_concat]
      exact Or.inr rfl
  · rw [hcs, List.tail_cons] at hc
    rcases h with ⟨-, heq⟩ | heq
    · exact hnames c (heq ▸ List.dropLast_subset _ hc)
    · rw [heq, List.dropLast_concat] at hc
      exact hnames c hc
  · rw [hcs] at hc
    rcases List.mem_cons.mp hc with rfl | hc
    · exact ⟨nofun, nofun⟩
    · exact hup c hc
  · refine canonicaliseUnixPath_names ?_ ?_ hsep (fun c hc => (hup c hc).2) hfits to_
    · rcases h with ⟨-, heq⟩ | heq
      · rw [heq]
        exact (itemsOf_names hnames).1
      · rw [heq]
        exact (itemsOf_names hnames).2
    · rcases h with ⟨hne, heq⟩ | heq
      · rwa [heq]
      · rw [heq]
        exact List.append_ne_nil_of_right_ne_nil _ (List.cons_ne_nil _ _)

/-- **An absolute path that fits the buffer** is resolved as it should be just if its runs of `..` are clear. -/
theorem canonRight_iff {buf_end : ℕ} (hfits : (SLASH :: rest).length ≤ buf_end) (to_ : ℕ → UInt8) :
    (∃ text returned, canonicaliseUnixPath buf_end to_ (SLASH :: rest) = some (text, returned) ∧
      CanonRight (SLASH :: rest) text) ↔ RunsClear (SLASH :: rest) := by
  have htail : (components SLASH (SLASH :: rest)).tail = components SLASH rest := by
    rw [components, List.splitOn_cons_eq_if_modifyHead, if_pos (beq_self_eq_true SLASH)]
    rfl
  have hgs : ∀ g ∈ (groups (itemsOf false (components SLASH rest))).2, g.1 ≠ CURDIR ∧ g.1 ≠ UPDIR := by
    intro g hg
    obtain ⟨hmem, hup⟩ := (groups_eq _).2 g hg
    exact ⟨ne_cur_of_mem_itemsOf _ hmem, hup⟩
  have hiff : RightNames (writtenNames rest) (resolved (SLASH :: rest)) ↔ RunsClear (SLASH :: rest) := by
    rw [RunsClear, htail, writtenNames_eq, resolved_eq]
    change RightNames ([] ++ ghostOf false ++ _) _ ↔ _
    exact rightNames_iff hgs fun c hc => absurd hc List.not_mem_nil
  rw [← hiff, canonicaliseUnixPath_eq hfits to_]
  constructor
  · rintro ⟨text, returned, heq, hright⟩
    obtain ⟨rfl, -⟩ := Prod.mk.inj (Option.some.inj heq)
    have hsep := slash_not_mem_writtenNames rest
    have hsep' := slash_not_mem_resolved (SLASH :: rest)
    rcases hright.resolved with ⟨hne, htext⟩ | htext
    · exact Or.inl ⟨hne, render_injective hsep hsep' htext⟩
    · change _ = _ ++ SLASH :: [] at htext
      rw [← render_concat] at htext
      refine Or.inr (render_injective hsep (fun c hc => ?_) htext)
      rcases List.mem_append.mp hc with hc | hc
      · exact hsep' c hc
      · rw [List.mem_singleton.mp hc]
        exact List.not_mem_nil
  · intro hright
    exact ⟨_, false, rfl, canonRight_of_rightNames hright⟩

end Resolve

/-! ### Paths that are not resolved -/

theorem canonRight_iff_twoUps : (∃ text returned,
    canonicaliseUnixPath 256 (fun _ => 0) (textOf "/a/b/../..") = some (text, returned) ∧
      CanonRight (textOf "/a/b/../..") text) ↔ RunsClear (textOf "/a/b/../..") :=
  canonRight_iff (by decide) fun _ => 0

/-- The second `..` takes back the first. -/
theorem twoUps_not_right : ¬(∀ path : Text, path.length ≤ 256 → path.head? = some SLASH →
    ∃ text returned, canonicaliseUnixPath 256 (fun _ => 0) path = some (text, returned) ∧ CanonRight path text) := by
  intro hall
  obtain ⟨text, returned, hrun, hright⟩ := hall (textOf "/a/b/../..") (by decide) (by decide)
  have hsame : canonicaliseUnixPath 256 (fun _ => 0) (textOf "/a/b/../..") = some (textOf "/a/b", false) := by
    decide
  rw [hsame] at hrun
  obtain ⟨rfl, -⟩ := Prod.mk.inj (Option.some.inj hrun)
  exact absurd hright.resolved (by decide)

end UnixLib
