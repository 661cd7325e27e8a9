import Mathlib.Computability.StateTransition
import Mathlib.Data.Finset.Basic
import Mathlib.Logic.Function.Basic

/-!
# Following references

Each of a set of nodes may refer to another one (`next`). A chain of references that is followed from a
node ends (`Ends`) at a node that refers to no other, unless it runs in a circle. The chains from all
nodes end just when there is no circle.

The library is about one node that is given a reference: `ends_update_iff` says that all chains still
end when those before it did, and the new reference does not lead back to its node.
-/

namespace Chase

open StateTransition

variable {α : Type} {next : α → Option α} {a b s t : α}

/-- **The chain from a node ends.** -/
def Ends (next : α → Option α) (a : α) : Prop := ∃ b, Reaches next a b ∧ next b = none

theorem Ends.stop (h : next a = none) : Ends next a := ⟨a, .refl, h⟩

theorem ends_of_next (h : next a = some b) : Ends next a ↔ Ends next b := by
  constructor
  · rintro ⟨c, hreach, hstop⟩
    obtain rfl | ⟨b', hb', hreach⟩ := Relation.ReflTransGen.cases_head hreach
    · rw [h] at hstop
      cases hstop
    · rw [Option.mem_def, h] at hb'
      cases hb'
      exact ⟨c, hreach, hstop⟩
  · rintro ⟨c, hreach, hstop⟩
    exact ⟨c, .head h hreach, hstop⟩

theorem Ends.induction {motive : α → Prop} (h : Ends next a)
    (stop : ∀ a, next a = none → motive a)
    (step : ∀ a b, next a = some b → Ends next b → motive b → motive a) : motive a := by
  obtain ⟨c, hreach, hstop⟩ := h
  induction hreach using Relation.ReflTransGen.head_induction_on with
  | refl => exact stop c hstop
  | head hab hbc ih => exact step _ _ hab ⟨c, hbc, hstop⟩ ih

theorem not_ends_of_circle (h : next a = some b) (hback : Reaches next b a) : ¬ Ends next a := by
  intro hends
  -- no node of a chain that ends is on a circle
  have hfree : ∀ b, next a = some b → ¬ Reaches next b a := by
    refine Ends.induction (motive := fun a => ∀ b, next a = some b → ¬ Reaches next b a) hends
      (fun a hstop b hb => ?_) (fun a c hac _ ih b hab hba => ?_)
    · rw [hstop] at hb
      cases hb
    · rw [hac] at hab
      cases hab
      obtain rfl | ⟨d, hcd, hda⟩ := Relation.ReflTransGen.cases_head hba
      · exact ih c hac .refl
      · exact ih d hcd (hda.tail hac)
  exact hfree b h hback

theorem ends_of_reaches (h : Reaches next a b) : Ends next a ↔ Ends next b := by
  induction h using Relation.ReflTransGen.head_induction_on with
  | refl => rfl
  | head hac _ ih => rw [ends_of_next hac, ih]

/-- **Among finitely many nodes**, a chain that runs in no circle ends. -/
theorem ends_of_finite {nodes : Finset α} (hin : ∀ b, Reaches next a b → b ∈ nodes)
    (hfree : ∀ b c, Reaches next a b → next b = some c → ¬ Reaches next c b) : Ends next a := by
  classical
  induction nodes using Finset.strongInduction generalizing a with
  | H nodes ih =>
    cases hnext : next a with
    | none => exact .stop hnext
    | some c =>
      -- the rest of the chain does not come back to `a`
      have hleft : ∀ b, Reaches next c b → b ∈ nodes.erase a := by
        intro b hb
        refine Finset.mem_erase.mpr ⟨fun heq => ?_, hin b (.head hnext hb)⟩
        rw [heq] at hb
        exact hfree a c .refl hnext hb
      have hlt : nodes.erase a ⊂ nodes := Finset.erase_ssubset (hin a .refl)
      exact (ends_of_next hnext).mpr
        (ih _ hlt hleft fun b d hb => hfree b d (.head hnext hb))

section Update

variable [DecidableEq α]

theorem Ends.update_of_not_reaches {r : Option α} (h : Ends next a) (hs : ¬ Reaches next a s) :
    Ends (Function.update next s r) a := by
  revert hs
  refine Ends.induction
    (motive := fun a => ¬ Reaches next a s → Ends (Function.update next s r) a) h
    (fun a hstop hs => .stop ?_) (fun a b hab _ ih hs => ?_)
  · have hne : a ≠ s := fun heq => hs (by rw [heq]; exact .refl)
    rw [Function.update_of_ne hne, hstop]
  · have hne : a ≠ s := fun heq => hs (by rw [heq]; exact .refl)
    have hab' : Function.update next s r a = some b := by rw [Function.update_of_ne hne, hab]
    rw [ends_of_next hab']
    exact ih fun hreach => hs (.head hab hreach)

theorem Ends.update {r : Option α} (h : Ends next a) (hs : Ends (Function.update next s r) s) :
    Ends (Function.update next s r) a := by
  refine Ends.induction (motive := fun a => Ends (Function.update next s r) a) h
    (fun a hstop => ?_) (fun a b hab _ ih => ?_)
  · by_cases heq : a = s
    · rwa [heq]
    · exact .stop (by rw [Function.update_of_ne heq, hstop])
  · by_cases heq : a = s
    · rwa [heq]
    · have hab' : Function.update next s r a = some b := by rw [Function.update_of_ne heq, hab]
      rwa [ends_of_next hab']

theorem ends_update_none (h : ∀ a, Ends next a) (s a : α) :
    Ends (Function.update next s none) a :=
  (h a).update (.stop (Function.update_self s none next))

theorem reaches_update {r : Option α} (h : Reaches next a s) :
    Reaches (Function.update next s r) a s := by
  induction h using Relation.ReflTransGen.head_induction_on with
  | refl => exact .refl
  | @head a b hab _ ih =>
    by_cases heq : a = s
    · rw [heq]
      exact .refl
    · refine .head ?_ ih
      rw [Option.mem_def, Function.update_of_ne heq]
      exact hab

/-- **One more reference**, from `s` to `t`: all chains still end just if it does not lead back. -/
theorem ends_update_iff (h : ∀ a, Ends next a) (s t : α) :
    (∀ a, Ends (Function.update next s (some t)) a) ↔ ¬ Reaches next t s := by
  have hst : Function.update next s (some t) s = some t := Function.update_self s (some t) next
  constructor
  · intro hends hback
    exact not_ends_of_circle hst (reaches_update hback) (hends s)
  · intro hback a
    refine (h a).update ?_
    rw [ends_of_next hst]
    exact (h t).update_of_not_reaches hback

end Update

end Chase
