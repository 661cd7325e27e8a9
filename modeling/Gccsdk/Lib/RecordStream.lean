import Gccsdk.Lib.CheckedRun

/-!
# Streams of records

A program keeps records in a buffer, one behind the other, and later goes through them again. How a record
looks in the buffer is its format (`Format`), with the law that what was written is read again; the loop
over the buffer then does for each record, in order, what there is to do (`dumpLoop_eq`).

Often a record says only what has changed since the one before, so that both sides keep a state. They stay
in step over events of any number if they do over one (`foldlM_marks`).
-/

namespace RecordStream

open CheckedRun

variable {α ρ σ τ ε : Type}

/-! ### The host's representation of a value -/

/-- **How a host keeps a value**: so many bytes, from which the value is read again. -/
structure HostRepr (α : Type) where
  size : ℕ
  raw : α → List UInt8
  value : List UInt8 → α
  length_raw (a : α) : (raw a).length = size
  value_raw (a : α) : value (raw a) = a

def HostRepr.load (R : HostRepr α) (buf : List UInt8) (i : ℕ) : Run (α × ℕ) := do
  let raw ← loads buf i R.size
  pure (R.value raw, i + R.size)

theorem HostRepr.load_raw (R : HostRepr α) {pre : List UInt8} {i : ℕ} (hi : i = pre.length)
    (post : List UInt8) (a : α) :
    R.load (pre ++ (R.raw a ++ post)) i = .ok (a, i + (R.raw a).length) := by
  have hlen := R.length_raw a
  have hroom : pre.length + R.size ≤ (pre ++ (R.raw a ++ post)).length := by
    rw [List.length_append, List.length_append]
    omega
  unfold HostRepr.load
  rw [hi, loads_eq hroom, List.drop_left, ← hlen, List.take_left, ok_bind, R.value_raw]
  rfl

/-! ### Records in a buffer -/

/-- **A format of records**: the bytes of a record, and how the record at an index is read, with the index
behind it. -/
structure Format (ρ : Type) where
  bytes : ρ → List UInt8
  next : List UInt8 → ℕ → Run (ρ × ℕ)
  bytes_ne (r : ρ) : bytes r ≠ []
  next_bytes (pre post : List UInt8) (r : ρ) :
    next (pre ++ (bytes r ++ post)) pre.length = .ok (r, pre.length + (bytes r).length)

/-- The loop over the records of a buffer, up to the index `stop`. -/
def dumpLoop (f : Format ρ) (act : τ → ρ → Run τ) (buf : List UInt8) (stop : ℕ) : (turns i : ℕ) → τ → Run τ
  | 0, _, _ => throw .endless
  | turns + 1, i, t =>
    if i = stop then pure t
    else do
      let (r, i) ← f.next buf i
      let t ← act t r
      dumpLoop f act buf stop turns i t

/-- **The loop does what there is to do for each record**, in order. -/
theorem dumpLoop_eq (f : Format ρ) (act : τ → ρ → Run τ) {buf pre post : List UInt8} {rs : List ρ} {turns : ℕ}
    {t : τ}
    (hbuf : buf = pre ++ (rs.flatMap f.bytes ++ post)) (hturns : rs.length < turns) :
    dumpLoop f act buf (pre.length + (rs.flatMap f.bytes).length) turns pre.length t = rs.foldlM act t := by
  induction rs generalizing pre turns t with
  | nil =>
    obtain ⟨turns, rfl⟩ : ∃ k, turns = k + 1 := ⟨turns - 1, by omega⟩
    exact if_pos rfl
  | cons r rs ih =>
    obtain ⟨turns, rfl⟩ : ∃ k, turns = k + 1 := ⟨turns - 1, by omega⟩
    have hpos : (f.bytes r).length ≠ 0 := fun h => f.bytes_ne r (List.eq_nil_of_length_eq_zero h)
    have hstop : pre.length + ((r :: rs).flatMap f.bytes).length =
        (pre ++ f.bytes r).length + (rs.flatMap f.bytes).length := by
      rw [List.flatMap_cons, List.length_append, List.length_append, Nat.add_assoc]
    have hnext : f.next buf pre.length = .ok (r, (pre ++ f.bytes r).length) := by
      rw [hbuf, List.flatMap_cons, List.append_assoc, f.next_bytes, List.length_append]
    have hne : pre.length ≠ (pre ++ f.bytes r).length + (rs.flatMap f.bytes).length := by
      rw [List.length_append]
      omega
    rw [hstop, dumpLoop, if_neg hne, hnext, ok_bind, List.foldlM_cons]
    refine congrArg _ (funext fun u => ih ?_ (Nat.lt_of_succ_lt_succ hturns))
    rw [hbuf, List.flatMap_cons, List.append_assoc, List.append_assoc]

theorem Format.length_le (f : Format ρ) (rs : List ρ) : rs.length ≤ (rs.flatMap f.bytes).length := by
  induction rs with
  | nil => exact Nat.le_refl 0
  | cons r rs ih =>
    have hpos : (f.bytes r).length ≠ 0 := fun h => f.bytes_ne r (List.eq_nil_of_length_eq_zero h)
    rw [List.flatMap_cons, List.length_append, List.length_cons]
    omega

/-- **The loop over a whole buffer**, whatever is behind the records. -/
theorem dumpLoop_all (f : Format ρ) (act : τ → ρ → Run τ) (rs : List ρ) (rest : List UInt8) (t : τ) :
    dumpLoop f act (rs.flatMap f.bytes ++
      rest) (rs.flatMap f.bytes).length ((rs.flatMap f.bytes).length + 1) 0 t =
      rs.foldlM act t := by
  have hloop := dumpLoop_eq f act (t := t) (List.nil_append (rs.flatMap f.bytes ++ rest)).symm
    (Nat.lt_succ_of_le (f.length_le rs))
  rw [List.length_nil, Nat.zero_add] at hloop
  exact hloop

/-! ### Both sides in step -/

/-- The records of events, where each event says what follows the state so far. -/
def marks (write : σ → ε → List ρ) (after : σ → ε → σ) : σ → List ε → List ρ
  | _, [] => []
  | s, e :: es => write s e ++ marks write after (after s e) es

theorem marks_append (write : σ → ε → List ρ) (after : σ → ε → σ) (s : σ) (es es' : List ε) :
    marks write after s (es ++ es') = marks write after s es ++ marks write after (es.foldl after s) es' := by
  induction es generalizing s with
  | nil => rfl
  | cons e es ih =>
    change write s e ++ marks write after (after s e) (es ++ es') = _
    rw [ih, ← List.append_assoc]
    rfl

/-- **Writer and reader stay in step.** The relation also sees the events so far. -/
theorem foldlM_marks {write : σ → ε → List ρ} {after : σ → ε → σ} {act : τ → ρ → Run τ}
    {R : σ → τ → List ε → Prop}
    {p : ε → Prop}
    (hstep : ∀ s t es e, R s t es → p e → ∃ t', (write s e).foldlM act t = .ok t' ∧
      R (after s e) t' (es ++ [e]))
    {s : σ} {t : τ} {seen es : List ε} (h : R s t seen) (hp : ∀ e ∈ es, p e) :
    ∃ t', (marks write after s es).foldlM act t = .ok t' ∧ R (es.foldl after s) t' (seen ++ es) := by
  induction es generalizing s t seen with
  | nil => exact ⟨t, rfl, (List.append_nil seen).symm ▸ h⟩
  | cons e es ih =>
    obtain ⟨u, hu, hR⟩ := hstep s t seen e h (hp e (List.mem_cons_self ..))
    obtain ⟨t', ht', hR'⟩ := ih hR fun e' he' => hp e' (List.mem_cons_of_mem e he')
    refine ⟨t', ?_, ?_⟩
    · rw [marks, List.foldlM_append, hu]
      exact ht'
    · rw [List.append_assoc] at hR'
      exact hR'

end RecordStream
