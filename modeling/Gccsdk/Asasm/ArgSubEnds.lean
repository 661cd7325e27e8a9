import Gccsdk.Asasm.ArgSubBounds
import Mathlib.Data.FinEnum
import Mathlib.Data.Set.Finite.List

/-!
# Lines whose substitution does not end

Most turns of `Input_ArgSub` write something, and there is an end to `input_buff`. Two kinds do not: a
comment that ends exactly at `MAX_LINE` is not copied, and a variable outside of a string constant only
changes the line. So the loop goes on without end in two cases, and `inputArgSub_ends_iff` says that
there are no others:

* it stands before such a comment (`CommentStands`);
* the variables that the line begins with lead back to the same line (`Circular`).

A line of text that is never left has finitely many successors, as it has to fit in `workBuff`; that is
why a line that does not come back is done with at some time.
-/

namespace Asasm

open CheckedRun TurnLoop Chase StateTransition

variable {env : SubstEnv} {s u : ArgSub} {text : Text}

/-- **A comment that would end exactly at `MAX_LINE`.** -/
def CommentStands (s : ArgSub) : Prop :=
  s.rest.head? = some 0x3B ∧ s.out.length + s.rest.length = maxLine

/-- **A line that comes back**, when the variables it begins with are replaced one after the other. -/
def Circular (env : SubstEnv) (s : ArgSub) : Prop :=
  Relation.TransGen (fun t t' => expand env.table s.out.length t = some t') s.rest s.rest

/-! ### The turns that write nothing -/

theorem expand_eq_some {table : SymbolTable} {n : ℕ} {rest : Text} (h : expand table n rest = some text) :
    ∃ line name source, rest = 0x24 :: line ∧ replaced table rest = some (name, source) ∧ n ≤ maxLine ∧
      (source.take (maxLine - n) ++ behindName name line).length ≤ maxLine ∧
      text = CText.cstr (source.take (maxLine - n) ++ behindName name line) := by
  unfold expand at h
  cases hreplaced : replaced table rest with
  | none =>
    rw [hreplaced] at h
    cases h
  | some r =>
    cases rest with
    | nil => cases hreplaced
    | cons c line =>
      obtain ⟨rfl, -, -⟩ := replaced_eq_some hreplaced
      rw [hreplaced] at h
      simp only [List.drop_succ_cons, List.drop_zero] at h
      split at h
      · rename_i hfits
        exact ⟨line, r.1, r.2, rfl, rfl, hfits.1, hfits.2, (Option.some.inj h).symm⟩
      · cases h

/-- **The first variable of a line is replaced**, and nothing else happens. -/
theorem next_of_expand (hs : s.Sound) (h : expand env.table s.out.length s.rest = some text) :
    (argSubLoop env).next s = some { s with rest := text } := by
  obtain ⟨line, name, source, hrest, hreplaced, hout, hlen, rfl⟩ := expand_eq_some h
  have hmore : (argSubLoop env).more s = true := by
    refine more_argSubLoop.mpr ⟨by rw [hrest]; exact List.cons_ne_nil _ _, ?_⟩
    exact Nat.lt_of_le_of_lt hout (by decide)
  refine Loop.next_eq_some.mpr ⟨hmore, ?_⟩
  rw [hrest] at hreplaced
  obtain ⟨-, hdollar, value, hvar, hcopy⟩ := replaced_eq_some hreplaced
  have hturn : argSubTurn env s = dollarTurn env s := by
    unfold argSubTurn
    rw [hrest]
    rfl
  change argSubTurn env s = _
  rw [hturn]
  unfold dollarTurn
  rw [inputVarSub_eq hrest hdollar hvar, copyVariable_eq hcopy hout]
  simp only [ok_bind, pure, Except.pure, List.drop_left]
  by_cases hempty : source.take (maxLine - s.out.length) = []
  · have hnoNul : 0 ∉ behindName name line := by
      intro hmem
      refine hs.noNul ?_
      rw [hrest]
      exact List.mem_cons_of_mem _ ((behindName_suffix name line).subset hmem)
    rw [if_neg (fun h => h.1 hempty), hempty, List.append_nil, List.nil_append,
      CText.cstr_of_notMem hnoNul]
  · rw [List.length_append] at hlen
    rw [if_pos ⟨hempty, trivial⟩, if_pos (by unfold workBuffSize; omega)]

theorem next_of_commentStands (h : CommentStands s) : (argSubLoop env).next s = some s := by
  obtain ⟨hhead, hend⟩ := h
  cases hrest : s.rest with
  | nil =>
    rw [hrest] at hhead
    cases hhead
  | cons c rest =>
    rw [hrest] at hhead
    obtain rfl := Option.some.inj hhead
    have hlt : s.out.length < inputBuffSize := by
      have hbuff : maxLine < inputBuffSize := by decide
      omega
    have hturn : argSubTurn env s = commentTurn s := by
      unfold argSubTurn
      rw [hrest]
      rfl
    refine Loop.next_eq_some.mpr ⟨more_argSubLoop.mpr ⟨by rw [hrest]; exact List.cons_ne_nil _ _, hlt⟩, ?_⟩
    exact hturn.trans (commentTurn_stands hend)

theorem reaches_of_expand {n : ℕ} {t t' : Text} (hs : ArgSub.Sound { s with rest := t }) (hn : s.out.length = n)
    (h : Reaches (expand env.table n) t t') :
    Reaches (argSubLoop env).next { s with rest := t } { s with rest := t' } := by
  induction h using Relation.ReflTransGen.head_induction_on with
  | refl => exact .refl
  | @head t t₁ ht _ ih =>
    rw [← hn] at ht
    have hnext : (argSubLoop env).next { s with rest := t } = some { s with rest := t₁ } :=
      next_of_expand hs ht
    exact .head hnext (ih ((stepped_of_next hs hnext).sound hs))

theorem not_ends_of_circular (hs : s.Sound) (h : Circular env s) : ¬Chase.Ends (argSubLoop env).next s := by
  obtain ⟨t, hfirst, hback⟩ := Relation.TransGen.head'_iff.mp h
  have hnext := next_of_expand hs hfirst
  exact not_ends_of_circle hnext (reaches_of_expand ((stepped_of_next hs hnext).sound hs) rfl hback)

/-! ### The other turns -/

/-- **A line that is begun ends**, if no state it leads to is one of the two that do not end. The induction
is on the room left in `input_buff`, and for turns that write nothing on the chain of lines. -/
theorem ends_of_free (hs : s.Sound)
    (hfree : ∀ t, Reaches (argSubLoop env).next s t → ¬CommentStands t ∧ ¬Circular env t) :
    Chase.Ends (argSubLoop env).next s := by
  induction hleft : inputBuffSize - s.out.length using Nat.strongRecOn generalizing s with
  | ind left ih =>
    -- the lines that the variables in front lead to are finitely many, and none comes back
    have hline : ∀ t, Reaches (expand env.table s.out.length) s.rest t →
        Reaches (argSubLoop env).next s { s with rest := t } := fun t ht =>
      reaches_of_expand (s := s) hs rfl ht
    have hsound : ∀ t, Reaches (argSubLoop env).next s t → t.Sound := fun t ht =>
      Loop.invariant hs (fun _ _ hs hnext => (stepped_of_next hs hnext).sound hs) ht
    have hchain : Chase.Ends (expand env.table s.out.length) s.rest := by
      have hin : ∀ t, Reaches (expand env.table s.out.length) s.rest t →
          t ∈ (List.finite_length_le UInt8 maxLine).toFinset := fun t ht =>
        (Set.Finite.mem_toFinset _).mpr (hsound _ (hline t ht)).rest
      refine ends_of_finite hin fun t t' ht htt' hback => ?_
      exact (hfree _ (hline t ht)).2 (Relation.TransGen.head' htt' hback)
    -- a state with one of these lines, and the same output
    have hgo : ∀ t, Chase.Ends (expand env.table s.out.length) t →
        ∀ v, Reaches (argSubLoop env).next s v → v.rest = t → v.out.length = s.out.length →
          Chase.Ends (argSubLoop env).next v := by
      intro t ht
      have hcase : ∀ v, Reaches (argSubLoop env).next s v → v.out.length = s.out.length →
          (∀ t', expand env.table s.out.length v.rest = some t' →
            Chase.Ends (argSubLoop env).next { v with rest := t' }) →
          Chase.Ends (argSubLoop env).next v := by
        intro v hreach hout hexpand
        cases hnext : (argSubLoop env).next v with
        | none => exact .stop hnext
        | some w =>
          rw [ends_of_next hnext]
          have hw : Reaches (argSubLoop env).next s w := hreach.tail hnext
          cases stepped_of_next (hsound v hreach) hnext with
          | goesOn hon hlt =>
            have hwout := (hsound w hw).out
            exact ih _ (by omega) (hsound w hw) (fun x hx => hfree x (hw.trans hx)) rfl
          | expands h => exact hexpand _ (hout ▸ h)
          | stands hcomment hend => exact absurd ⟨hcomment, hend⟩ (hfree v hreach).1
      refine Chase.Ends.induction (motive := fun t => ∀ v, Reaches (argSubLoop env).next s v → v.rest = t →
        v.out.length = s.out.length → Chase.Ends (argSubLoop env).next v) ht
        (fun t hstop v hv hvt hout => ?_) fun t t' htt' _ ih' v hv hvt hout => ?_
      · refine hcase v hv hout fun t' ht' => ?_
        rw [hvt, hstop] at ht'
        cases ht'
      · refine hcase v hv hout fun t'' ht'' => ?_
        rw [hvt, htt'] at ht''
        obtain rfl := Option.some.inj ht''
        have hnext : (argSubLoop env).next v = some { v with rest := t' } :=
          next_of_expand (hsound v hv) (by rw [hout, hvt]; exact htt')
        exact ih' _ (hv.tail hnext) rfl hout
    exact hgo s.rest hchain s .refl rfl rfl

theorem argSubEnd_ne_endless (env : SubstEnv) (s : ArgSub) : argSubEnd env s ≠ .error .endless := by
  unfold argSubEnd
  by_cases hrest : s.rest = []
  · rw [if_neg (not_not.mpr hrest)]
    by_cases hroom : s.out.length < inputBuffSize
    · rw [if_pos hroom, putOut_eq hroom]
      nofun
    · rw [if_neg hroom]
      nofun
  · rw [if_pos hrest, errorReport_lineOverflow]
    nofun

theorem exists_inputArgSub_iff (env : SubstEnv) (numErrors : ℕ) (workBuff : WorkBuff) :
    (∃ turns, inputArgSub env turns numErrors workBuff ≠ .error .endless) ↔
      Chase.Ends (argSubLoop env).next (argSubStart numErrors workBuff) := by
  have hloop : ∀ turns, inputArgSub env turns numErrors workBuff ≠ .error .endless ↔
      (argSubLoop env).run turns (argSubStart numErrors workBuff) ≠ .error .endless := by
    intro turns
    unfold inputArgSub
    cases (argSubLoop env).run turns (argSubStart numErrors workBuff) with
    | error e =>
      change (Except.error e : Run ArgSub) ≠ _ ↔ (Except.error e : Run ArgSub) ≠ _
      rfl
    | ok s => exact iff_of_true (argSubEnd_ne_endless env s) nofun
  rw [exists_congr hloop]
  exact Loop.exists_run_iff fun s hs hmore =>
    (ensuresIff_argSubTurn (sound_of_reaches hs) hmore).ne_endless

/-- **The substitution ends**, with some number of turns, if and only if its loop stands neither before
a comment that ends exactly at `MAX_LINE`, nor before a line that its variables lead back to. -/
theorem inputArgSub_ends_iff (env : SubstEnv) (numErrors : ℕ) (workBuff : WorkBuff) :
    (∃ turns, inputArgSub env turns numErrors workBuff ≠ .error .endless) ↔
      ∀ s, Reaches (argSubLoop env).next (argSubStart numErrors workBuff) s →
        ¬CommentStands s ∧ ¬Circular env s := by
  rw [exists_inputArgSub_iff]
  constructor
  · intro hends s hs
    have hs' := (ends_of_reaches hs).mp hends
    exact ⟨fun h => not_ends_of_circle (next_of_commentStands h) .refl hs',
      fun h => not_ends_of_circular (sound_of_reaches hs) h hs'⟩
  · intro hfree
    exact ends_of_free (argSubStart_sound numErrors workBuff) hfree

theorem inputArgSub_endless : ¬∃ turns,
    inputArgSub (stringEnv (cstr "$a")) turns 0
        ⟨cstr "$a", by decide, by decide⟩ ≠ .error .endless := by
  rw [exists_inputArgSub_iff]
  refine not_ends_of_circular (argSubStart_sound _ _) (.single ?_)
  change expand (stringEnv (cstr "$a")).table 0 (cstr "$a") = some (cstr "$a")
  decide

end Asasm
