import Mathlib.Data.List.Basic
import Mathlib.Data.Nat.Notation

/-!
# Path names

A path is a text with a separator between its components. `resolve` goes through the components in order, with
one that stands for the current directory, which is left out, and one that leads to the directory above; `render`
writes an absolute path. What it writes is read back (`render_injective`, `components_render`).
-/

namespace PathName

variable {α : Type} [DecidableEq α] {sep a : α} {cur up c w : List α} {dir cs names : List (List α)} {k : ℕ}

/-! ### Components -/

abbrev components (sep : α) (path : List α) : List (List α) := path.splitOn sep

abbrev join (sep : α) (cs : List (List α)) : List α := [sep].intercalate cs

theorem join_components (sep : α) (path : List α) : join sep (components sep path) = path :=
  List.intercalate_splitOn sep

theorem components_join (hcs : ∀ c ∈ cs, sep ∉ c) (hne : cs ≠ []) : components sep (join sep cs) = cs :=
  List.splitOn_intercalate sep hcs hne

theorem sep_not_mem (sep : α) (path : List α) : ∀ c ∈ components sep path, sep ∉ c := by
  induction path with
  | nil =>
    intro c hc
    rw [components, List.splitOn_nil, List.mem_singleton] at hc
    rw [hc]
    exact List.not_mem_nil
  | cons a path ih =>
    intro c hc
    rw [components, List.splitOn_cons_eq_if_modifyHead] at hc
    split at hc
    · rcases List.mem_cons.mp hc with rfl | hc
      · exact List.not_mem_nil
      · exact ih c hc
    · rename_i hsep
      cases hfirst : path.splitOn sep with
      | nil => exact absurd hfirst (List.splitOn_ne_nil sep path)
      | cons d ds =>
        rw [hfirst, List.modifyHead_cons, List.mem_cons] at hc
        have hmem : ∀ e ∈ d :: ds, e ∈ components sep path := by
          intro e he
          rw [components, hfirst]
          exact he
        rcases hc with rfl | hc
        · rw [List.mem_cons, not_or]
          exact ⟨fun heq => hsep (beq_iff_eq.mpr heq.symm), ih d (hmem d List.mem_cons_self)⟩
        · exact ih c (hmem c (List.mem_cons_of_mem d hc))

theorem dropWhile_join_nil (hcs : cs ≠ []) :
    (join sep ([] :: cs)).dropWhile (· = sep) = (join sep cs).dropWhile (· = sep) := by
  cases cs with
  | nil => exact absurd rfl hcs
  | cons d ds =>
    rw [join, List.intercalate_cons_cons]
    exact List.dropWhile_cons_of_pos (decide_eq_true rfl)

theorem dropWhile_join_of_ne_nil (hc : c ≠ []) (hsep : sep ∉ c) :
    (join sep (c :: cs)).dropWhile (· = sep) = join sep (c :: cs) := by
  cases c with
  | nil => exact absurd rfl hc
  | cons a c =>
    have ha : ¬decide (a = sep) = true := fun heq => hsep (of_decide_eq_true heq ▸ List.mem_cons_self)
    cases cs with
    | nil =>
      rw [join, List.intercalate_singleton]
      exact List.dropWhile_cons_of_neg ha
    | cons d ds =>
      rw [join, List.intercalate_cons_cons]
      exact List.dropWhile_cons_of_neg ha

/-! ### Resolving -/

/-- One component, from the directory `dir`: the names on the way to it. -/
def resolveStep (cur up : List α) (dir : List (List α)) (c : List α) : List (List α) :=
  if c = [] ∨ c = cur then dir else if c = up then dir.dropLast else dir ++ [c]

/-- **The components in order**, from a directory. -/
def resolve (cur up : List α) (dir cs : List (List α)) : List (List α) := cs.foldl (resolveStep cur up) dir

def IsName (cur up c : List α) : Prop := c ≠ [] ∧ c ≠ cur ∧ c ≠ up

theorem resolveStep_name (hc : IsName cur up c) : resolveStep cur up dir c = dir ++ [c] := by
  rw [resolveStep, if_neg (not_or.mpr ⟨hc.1, hc.2.1⟩), if_neg hc.2.2]

theorem resolveStep_up (hup : up ≠ []) (hcur : up ≠ cur) : resolveStep cur up dir up = dir.dropLast := by
  rw [resolveStep, if_neg (not_or.mpr ⟨hup, hcur⟩), if_pos rfl]

theorem resolve_replicate_up (hup : up ≠ []) (hcur : up ≠ cur) (dir : List (List α)) (k : ℕ) :
    resolve cur up dir (List.replicate k up) = dir.take (dir.length - k) := by
  induction k generalizing dir with
  | zero => exact List.take_length.symm
  | succ k ih =>
    change resolve cur up (resolveStep cur up dir up) _ = _
    rw [resolveStep_up hup hcur, ih, List.dropLast_eq_take, List.take_take, List.length_take]
    congr 1
    omega

/-- **There are only names** in a directory that has been resolved. -/
theorem isName_of_mem_resolve (hdir : ∀ c ∈ dir, IsName cur up c) :
    ∀ c ∈ resolve cur up dir cs, IsName cur up c := by
  induction cs generalizing dir with
  | nil => exact hdir
  | cons d cs ih =>
    refine ih fun c hc => ?_
    unfold resolveStep at hc
    split at hc
    · exact hdir c hc
    · rename_i hnot
      split at hc
      · exact hdir c (List.dropLast_subset dir hc)
      · rename_i hup
        rcases List.mem_append.mp hc with hc | hc
        · exact hdir c hc
        · rw [List.mem_singleton.mp hc]
          exact ⟨fun h => hnot (Or.inl h), fun h => hnot (Or.inr h), hup⟩

theorem mem_of_mem_resolve (hc : c ∈ resolve cur up dir cs) : c ∈ dir ∨ c ∈ cs := by
  induction cs generalizing dir with
  | nil => exact Or.inl hc
  | cons d cs ih =>
    rcases ih hc with hmem | hmem
    · unfold resolveStep at hmem
      split at hmem
      · exact Or.inl hmem
      · split at hmem
        · exact Or.inl (List.dropLast_subset dir hmem)
        · rcases List.mem_append.mp hmem with hmem | hmem
          · exact Or.inl hmem
          · rw [List.mem_singleton.mp hmem]
            exact Or.inr List.mem_cons_self
    · exact Or.inr (List.mem_cons_of_mem d hmem)

/-! ### Absolute paths -/

def render (sep : α) (names : List (List α)) : List α := join sep ([] :: names)

theorem components_render (hnames : ∀ c ∈ names, sep ∉ c) : components sep (render sep names) = [] :: names := by
  refine components_join (fun c hc => ?_) nofun
  rcases List.mem_cons.mp hc with rfl | hc
  · exact List.not_mem_nil
  · exact hnames c hc

theorem render_injective {names' : List (List α)} (hnames : ∀ c ∈ names, sep ∉ c)
    (hnames' : ∀ c ∈ names', sep ∉ c) (heq : render sep names = render sep names') : names = names' := by
  have hcs := congrArg (components sep) heq
  rw [components_render hnames, components_render hnames'] at hcs
  exact (List.cons.inj hcs).2

theorem join_concat (hcs : cs ≠ []) (w : List α) : join sep (cs ++ [w]) = join sep cs ++ sep :: w := by
  induction cs with
  | nil => exact absurd rfl hcs
  | cons c cs ih =>
    cases cs with
    | nil =>
      rw [List.singleton_append, join, join, List.intercalate_cons_cons, List.intercalate_singleton,
        List.intercalate_singleton]
      exact List.append_assoc c [sep] w
    | cons d ds =>
      have hrest := ih nofun
      rw [join, join, List.cons_append, List.cons_append, List.intercalate_cons_cons,
        List.intercalate_cons_cons, ← List.cons_append]
      rw [join, join] at hrest
      rw [hrest, ← List.append_assoc]

theorem render_concat (names : List (List α)) (w : List α) :
    render sep (names ++ [w]) = render sep names ++ sep :: w := 
  join_concat (List.cons_ne_nil [] names) w

end PathName
