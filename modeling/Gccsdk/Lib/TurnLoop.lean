import Gccsdk.Lib.Chase
import Gccsdk.Lib.CheckedRun

/-!
# Loops of checked turns

A loop (`Loop`) takes turns for as long as its condition holds. A turn is a checked run: it may give up,
or leave a table. `Loop.run` takes at most a number of turns; where they do not suffice, the run counts
as one that does not end.

The states that a loop stands before form the chain of `Loop.next`, and what holds of all runs of the
loop is said about that chain:

* the loop keeps to its tables, and what is done behind it is right, just if this holds of each turn it
  stands before and of each state it stops at (`Loop.forall_keeps_iff`);
* some number of turns suffices just if the chain ends (`Loop.exists_run_iff`).
-/

namespace TurnLoop

open CheckedRun Chase StateTransition

variable {σ α : Type}

/-- **The run keeps to its tables, and its result is right.** It may give up, and it may not end. -/
def Keeps (x : Run α) (post : α → Prop) : Prop := Safe x ∧ ∀ a, x = .ok a → post a

theorem keeps_ok {a : α} {post : α → Prop} : Keeps (.ok a) post ↔ post a := by
  constructor
  · intro h
    exact h.2 a rfl
  · intro h
    refine ⟨(fun houtside => by cases houtside), fun b hb => ?_⟩
    rwa [← Except.ok.inj hb]

theorem keeps_error {e : Stop} {post : α → Prop} : Keeps (.error e : Run α) post ↔ e ≠ .outside := by
  constructor
  · intro h heq
    exact h.1 (congrArg Except.error heq)
  · intro h
    exact ⟨fun heq => h (Except.error.inj heq), nofun⟩

/-- `while (more) turn` -/
structure Loop (σ : Type) where
  more : σ → Bool
  turn : σ → Run σ

namespace Loop

/-- **The loop**, with a number of looks at its condition. -/
def run (l : Loop σ) : ℕ → σ → Run σ
  | 0, _ => throw .endless
  | turns + 1, s => if l.more s then l.turn s >>= l.run turns else pure s

/-- The state that the loop stands before next, unless it ends in this turn. -/
def next (l : Loop σ) (s : σ) : Option σ := if l.more s then (l.turn s).toOption else none

variable {l : Loop σ} {s t : σ} {m n : ℕ}

theorem next_eq_some : l.next s = some t ↔ l.more s = true ∧ l.turn s = .ok t := by
  unfold next
  by_cases hmore : l.more s = true
  · rw [if_pos hmore, and_iff_right hmore]
    cases hturn : l.turn s with
    | error e => exact ⟨nofun, nofun⟩
    | ok u =>
      change some u = some t ↔ _
      rw [Option.some.injEq, Except.ok.injEq]
  · rw [if_neg hmore]
    exact ⟨nofun, fun h => absurd h.1 hmore⟩

theorem run_of_next (h : l.next s = some t) : l.run (n + 1) s = l.run n t := by
  obtain ⟨hmore, hturn⟩ := next_eq_some.mp h
  rw [run, if_pos hmore, hturn]
  rfl

theorem run_of_stop (h : l.more s = false) : l.run (n + 1) s = .ok s := by
  rw [run, h]
  rfl

theorem exists_run_of_reaches (h : Reaches l.next s t) : ∃ k, ∀ n, l.run (k + n) s = l.run n t := by
  induction h using Relation.ReflTransGen.head_induction_on with
  | refl => exact ⟨0, fun n => congrArg (fun k => l.run k t) (Nat.zero_add n)⟩
  | @head s u hsu _ ih =>
    obtain ⟨k, hk⟩ := ih
    refine ⟨k + 1, fun n => ?_⟩
    calc l.run (k + 1 + n) s
        = l.run (k + n + 1) s := congrArg (fun k => l.run k s) (Nat.add_right_comm k 1 n)
      _ = l.run (k + n) u := run_of_next hsu
      _ = l.run n t := hk n

theorem run_mono (h : l.run n s ≠ .error .endless) (hle : n ≤ m) : l.run m s = l.run n s := by
  induction n generalizing s m with
  | zero => exact absurd rfl h
  | succ n ih =>
    obtain ⟨m, rfl⟩ : ∃ k, m = k + 1 := ⟨m - 1, by omega⟩
    rw [run] at h
    rw [run, run]
    by_cases hmore : l.more s = true
    · rw [if_pos hmore] at h
      rw [if_pos hmore, if_pos hmore]
      cases hturn : l.turn s with
      | error e => rfl
      | ok u =>
        rw [hturn] at h
        exact ih h (Nat.le_of_succ_le_succ hle)
    · rw [if_neg hmore, if_neg hmore]

theorem run_unique (hm : l.run m s ≠ .error .endless) (hn : l.run n s ≠ .error .endless) :
    l.run m s = l.run n s := by
  obtain hle | hle := Nat.le_total m n
  · exact (run_mono hm hle).symm
  · exact run_mono hn hle

/-! ### All runs of a loop -/

/-- **A loop keeps to its tables, and what is done behind it is right**, just if this holds of each turn
that it stands before and of each state that it stops at. -/
theorem forall_keeps_iff {f : σ → Run α} {post : α → Prop} :
    (∀ n, Keeps (l.run n s >>= f) post) ↔ ∀ t, Reaches l.next s t →
      (l.more t = true → Safe (l.turn t)) ∧ (l.more t = false → Keeps (f t) post) := by
  constructor
  · intro h t ht
    -- one look more at the condition, before the state that is reached
    obtain ⟨k, hk⟩ := exists_run_of_reaches ht
    have hone := h (k + 1)
    rw [hk 1] at hone
    refine ⟨fun hmore hout => ?_, fun hstop => ?_⟩
    · rw [run, if_pos hmore, hout] at hone
      exact keeps_error.mp hone rfl
    · rw [run_of_stop hstop] at hone
      exact hone
  · intro h n
    induction n generalizing s with
    | zero => exact keeps_error.mpr nofun
    | succ n ih =>
      rw [run]
      by_cases hmore : l.more s = true
      · rw [if_pos hmore]
        cases hturn : l.turn s with
        | error e =>
          refine keeps_error.mpr fun heq => ?_
          exact (h s .refl).1 hmore (by rw [hturn, heq])
        | ok u => exact ih fun t ht => h t (.head (next_eq_some.mpr ⟨hmore, hturn⟩) ht)
      · rw [if_neg hmore]
        exact (h s .refl).2 (Bool.eq_false_iff.mpr hmore)

theorem safe_run_iff (hn : l.run n s ≠ .error .endless) :
    Safe (l.run n s) ↔ ∀ t, Reaches l.next s t → l.more t = true → Safe (l.turn t) := by
  constructor
  · intro hsafe t ht hmore hout
    obtain ⟨k, hk⟩ := exists_run_of_reaches ht
    have hrun : l.run (k + 1) s = .error .outside := by
      rw [hk 1, run, if_pos hmore, hout]
      rfl
    exact hsafe ((run_unique hn (by rw [hrun]; nofun)).trans hrun)
  · intro h
    have hall : ∀ n, Keeps (l.run n s >>= pure) fun _ => True :=
      forall_keeps_iff.mpr fun t ht => ⟨h t ht, fun _ => keeps_ok.mpr trivial⟩
    have hkeeps := (hall n).1
    rwa [bind_pure] at hkeeps

/-! ### Loops that end -/

/-- **Some number of turns suffices** just if the chain of the loop ends. -/
theorem exists_run_iff
    (hturn : ∀ t, Reaches l.next s t → l.more t = true → l.turn t ≠ .error .endless) :
    (∃ n, l.run n s ≠ .error .endless) ↔ Ends l.next s := by
  constructor
  · rintro ⟨n, hn⟩
    induction n generalizing s with
    | zero => exact absurd rfl hn
    | succ n ih =>
      cases hnext : l.next s with
      | none => exact .stop hnext
      | some t =>
        rw [run_of_next hnext] at hn
        exact (ends_of_next hnext).mpr (ih (fun u hu => hturn u (.head hnext hu)) hn)
  · intro h
    revert hturn
    refine Ends.induction (motive := fun s =>
      (∀ t, Reaches l.next s t → l.more t = true → l.turn t ≠ .error .endless) →
        ∃ n, l.run n s ≠ .error .endless) h (fun s hstop hturn => ⟨1, ?_⟩) fun s t hst _ ih hturn => ?_
    · rw [run]
      by_cases hmore : l.more s = true
      · rw [if_pos hmore]
        cases hs : l.turn s with
        | ok u =>
          rw [next_eq_some.mpr ⟨hmore, hs⟩] at hstop
          cases hstop
        | error e =>
          intro heq
          exact hturn s .refl hmore (hs.trans heq)
      · rw [if_neg hmore]
        nofun
    · obtain ⟨n, hn⟩ := ih fun u hu => hturn u (.head hst hu)
      refine ⟨n + 1, ?_⟩
      rwa [run_of_next hst]

theorem run_ne_endless (μ : σ → ℕ) (hturn : ∀ t, l.more t = true → l.turn t ≠ .error .endless)
    (hμ : ∀ s t, l.next s = some t → μ t < μ s) (h : μ s < n) : l.run n s ≠ .error .endless := by
  induction n generalizing s with
  | zero => exact absurd h (Nat.not_lt_zero _)
  | succ n ih =>
    rw [run]
    by_cases hmore : l.more s = true
    · rw [if_pos hmore]
      cases hs : l.turn s with
      | error e =>
        intro heq
        exact hturn s hmore (hs.trans heq)
      | ok u =>
        have hlt := hμ s u (next_eq_some.mpr ⟨hmore, hs⟩)
        exact ih (by omega)
    · rw [if_neg hmore]
      nofun

theorem reaches_of_run (h : l.run n s = .ok t) : Reaches l.next s t ∧ l.more t = false := by
  induction n generalizing s with
  | zero => cases h
  | succ n ih =>
    by_cases hmore : l.more s = true
    · rw [run, if_pos hmore] at h
      obtain ⟨u, hu, h⟩ := bind_eq_ok.mp h
      obtain ⟨hreach, hstop⟩ := ih h
      exact ⟨.head (next_eq_some.mpr ⟨hmore, hu⟩) hreach, hstop⟩
    · rw [run, if_neg hmore] at h
      obtain rfl := Except.ok.inj h
      exact ⟨.refl, Bool.eq_false_iff.mpr hmore⟩

theorem invariant {P : σ → Prop} (hstart : P s) (hstep : ∀ t u, P t → l.next t = some u → P u)
    (h : Reaches l.next s t) : P t := by
  induction h with
  | refl => exact hstart
  | tail _ hnext ih => exact hstep _ _ ih hnext

/-- **A loop that ends**, by what its turns need: there is a condition for each state that it stands
before. -/
theorem ensuresIff_run {fits : σ → Prop} {post : σ → σ → Prop} (hn : l.run n s ≠ .error .endless)
    (hturn : ∀ t, l.more t = true → EnsuresIff (l.turn t) (fits t) (post t)) :
    EnsuresIff (l.run n s) (∀ t, Reaches l.next s t → l.more t = true → fits t)
      fun t => Reaches l.next s t ∧ l.more t = false := by
  have hsafe : Safe (l.run n s) ↔ ∀ t, Reaches l.next s t → l.more t = true → fits t := by
    rw [safe_run_iff hn]
    exact forall₃_congr fun t _ hmore => (hturn t hmore).safe_iff
  constructor
  · intro hfits
    have hkeeps := hsafe.mpr hfits
    cases hrun : l.run n s with
    | ok t => exact ensures_ok.mpr (reaches_of_run hrun)
    | error e =>
      cases e with
      | message => exact ensures_message
      | endless => exact absurd hrun hn
      | outside => exact absurd hrun hkeeps
  · intro hnot
    by_contra hrun
    exact hnot (hsafe.mp hrun)

end Loop

end TurnLoop
