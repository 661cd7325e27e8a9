import Mathlib.Order.Lattice.Nat
import Mathlib.Order.Interval.Set.Basic

/-!
# Covering positions by windows

A set of positions is covered by windows of a fixed width `w`, on the line (`Covers`) or round a circle
of `n` positions (`CoversRound`), where a window that passes the end goes on at the beginning.

On the line it is best to begin at the least position and to place each further window at the least
position that is left (`covers_succ_iff`). Round the circle one window across the end is enough
(`coversRound_succ_iff`). `Chain` is a run that begins at a given position, places windows as on the line,
and lets the last one go round: `exists_chain_iff` says for how many windows such a run succeeds.
-/

namespace WindowCover

variable {n w k s t x : ℕ} {P Q : Set ℕ} {xs : List ℕ}

/-! ### Windows on the line -/

/-- **`k` windows on the line** are enough. -/
def Covers (w k : ℕ) (P : Set ℕ) : Prop :=
  ∃ xs : List ℕ, xs.length ≤ k ∧ ∀ i ∈ P, ∃ x ∈ xs, i ∈ Set.Ico x (x + w)

theorem Covers.mono {k' : ℕ} (h : Covers w k P) (hk : k ≤ k') (hQ : Q ⊆ P) : Covers w k' Q := by
  obtain ⟨xs, hlength, hxs⟩ := h
  exact ⟨xs, hlength.trans hk, fun i hi => hxs i (hQ hi)⟩

theorem covers_of_empty (h : P = ∅) : Covers w k P := by
  subst h
  exact ⟨[], Nat.zero_le k, fun i hi => hi.elim⟩

theorem covers_zero_iff : Covers w 0 P ↔ P = ∅ := by
  refine ⟨?_, covers_of_empty⟩
  rintro ⟨xs, hlength, hxs⟩
  refine Set.eq_empty_of_forall_notMem fun i hi => ?_
  obtain ⟨x, hx, -⟩ := hxs i hi
  rw [List.length_eq_zero_iff.mp (Nat.le_zero.mp hlength)] at hx
  cases hx

theorem Covers.cons (ht : ∀ i ∈ P, t ≤ i) (h : Covers w k {i ∈ P | t + w ≤ i}) :
    Covers w (k + 1) P := by
  obtain ⟨xs, hlength, hxs⟩ := h
  refine ⟨t :: xs, Nat.succ_le_succ hlength, fun i hi => ?_⟩
  by_cases hit : i < t + w
  · exact ⟨t, List.mem_cons_self, ht i hi, hit⟩
  · obtain ⟨x, hx, hix⟩ := hxs i ⟨hi, not_lt.mp hit⟩
    exact ⟨x, List.mem_cons_of_mem t hx, hix⟩

/-- **Beginning at the least position is best.** -/
theorem covers_succ_iff (hs : IsLeast P s) : Covers w (k + 1) P ↔ Covers w k {i ∈ P | s + w ≤ i} := by
  refine ⟨?_, .cons fun i hi => hs.2 hi⟩
  rintro ⟨xs, hlength, hxs⟩
  obtain ⟨x, hx, hsx⟩ := hxs s hs.1
  -- the window over `s` has nothing of the rest
  refine ⟨xs.erase x, ?_, fun i hi => ?_⟩
  · rw [List.length_erase_of_mem hx]
    omega
  · obtain ⟨y, hy, hiy⟩ := hxs i hi.1
    refine ⟨y, (List.mem_erase_of_ne ?_).mpr hy, hiy⟩
    rintro rfl
    have hle : s + w ≤ i := hi.2
    have hxs : y ≤ s := hsx.1
    have hix : i < y + w := hiy.2
    omega

/-- `k` windows on the line of which the lowest one begins at `b` or before. -/
def CoversFrom (w k b : ℕ) (P : Set ℕ) : Prop :=
  ∃ t ≤ b, (∀ i ∈ P, t ≤ i) ∧ ∃ j, k = j + 1 ∧ Covers w j {i ∈ P | t + w ≤ i}

/-! ### Windows round the circle -/

def arc (n w x : ℕ) : Set ℕ := {i | i ∈ Set.Ico x (x + w) ∨ i + n < x + w}

/-- **`k` windows round the circle** are enough. -/
def CoversRound (n w k : ℕ) (P : Set ℕ) : Prop :=
  ∃ xs : List ℕ, xs.length ≤ k ∧ (∀ x ∈ xs, x < n) ∧ ∀ i ∈ P, ∃ x ∈ xs, i ∈ arc n w x

/-- **One window across the end is enough**: of a second one only a part on the line is of use. -/
theorem coversRound_succ_iff (hP : ∀ i ∈ P, i < n) :
    CoversRound n w (k + 1) P
      ↔ Covers w (k + 1) P ∨ ∃ x < n, n < x + w ∧ Covers w k (P \ arc n w x) := by
  constructor
  · rintro ⟨xs, hlength, hlt, hxs⟩
    by_cases hwrap : ∃ x ∈ xs, n < x + w
    · obtain ⟨x, hx, hxn⟩ := hwrap
      refine Or.inr ⟨x, hlt x hx, hxn, ?_⟩
      -- a second window across the end gives way to what it has besides `x`
      refine ⟨(xs.erase x).map fun y => if n < y + w ∧ x ≤ y then x + w - n else y, ?_, fun i hi => ?_⟩
      · rw [List.length_map, List.length_erase_of_mem hx]
        omega
      · obtain ⟨hi, hix⟩ := hi
        obtain ⟨y, hy, hiy⟩ := hxs i hi
        have hne : y ≠ x := by
          rintro rfl
          exact hix hiy
        refine ⟨_, List.mem_map_of_mem ((List.mem_erase_of_ne hne).mpr hy), ?_⟩
        have hin := hP i hi
        have hyn := hlt y hy
        have hxn' := hlt x hx
        have hix : ¬ ((x ≤ i ∧ i < x + w) ∨ i + n < x + w) := hix
        have hiy : (y ≤ i ∧ i < y + w) ∨ i + n < y + w := hiy
        split
        · change x + w - n ≤ i ∧ i < x + w - n + w
          omega
        · change y ≤ i ∧ i < y + w
          omega
    · refine Or.inl ⟨xs, hlength, fun i hi => ?_⟩
      obtain ⟨x, hx, hix⟩ := hxs i hi
      refine ⟨x, hx, hix.resolve_right fun hlow => hwrap ⟨x, hx, ?_⟩⟩
      omega
  · rintro (⟨xs, hlength, hxs⟩ | ⟨x, hxn, -, xs, hlength, hxs⟩)
    · refine ⟨xs.filter (· < n), (List.length_filter_le _ _).trans hlength, ?_, fun i hi => ?_⟩
      · intro x hx
        exact of_decide_eq_true (List.mem_filter.mp hx).2
      · obtain ⟨x, hx, hix⟩ := hxs i hi
        exact ⟨x, List.mem_filter.mpr ⟨hx, decide_eq_true (hix.1.trans_lt (hP i hi))⟩, Or.inl hix⟩
    · refine ⟨x :: xs.filter (· < n), ?_, ?_, fun i hi => ?_⟩
      · exact Nat.succ_le_succ ((List.length_filter_le _ _).trans hlength)
      · rintro y (_ | ⟨_, hy⟩)
        · exact hxn
        · exact of_decide_eq_true (List.mem_filter.mp hy).2
      · by_cases hix : i ∈ arc n w x
        · exact ⟨x, List.mem_cons_self, hix⟩
        · obtain ⟨y, hy, hiy⟩ := hxs i ⟨hi, hix⟩
          refine ⟨y, List.mem_cons_of_mem x (List.mem_filter.mpr ⟨hy, ?_⟩), Or.inl hiy⟩
          exact decide_eq_true (hiy.1.trans_lt (hP i hi))

/-! ### Runs from a position -/

/-- **Windows placed one behind the other**, the first one at `t`, each other one at the least position of
`P` behind the one before. -/
inductive Chain (w : ℕ) (P : Set ℕ) : ℕ → List ℕ → Prop
  | nil (t : ℕ) : Chain w P t []
  | cons {t x : ℕ} {xs : List ℕ} (hx : IsLeast {i ∈ P | t + w ≤ i} x) (h : Chain w P x xs) :
    Chain w P t (x :: xs)

def Rounds (n w : ℕ) (P : Set ℕ) (t : ℕ) (xs : List ℕ) : Prop :=
  ∀ i ∈ P, ∃ y ∈ t :: xs, i ∈ arc n w y

/-- The run covers all positions behind `t` on the line. -/
def Reaches (w : ℕ) (P : Set ℕ) (t : ℕ) (xs : List ℕ) : Prop :=
  ∀ i ∈ P, t ≤ i → ∃ y ∈ t :: xs, i ∈ Set.Ico y (y + w)

theorem Reaches.cons (hx : IsLeast {i ∈ P | t + w ≤ i} x) (h : Reaches w P x xs) :
    Reaches w P t (x :: xs) := by
  intro i hi hti
  by_cases hit : i < t + w
  · exact ⟨t, List.mem_cons_self, hti, hit⟩
  · obtain ⟨y, hy, hiy⟩ := h i hi (hx.2 ⟨hi, not_lt.mp hit⟩)
    exact ⟨y, List.mem_cons_of_mem t hy, hiy⟩

theorem reaches_nil (h : {i ∈ P | t + w ≤ i} = ∅) : Reaches w P t [] := by
  intro i hi hti
  refine ⟨t, List.mem_cons_self, hti, lt_of_not_ge fun hle => ?_⟩
  exact Set.notMem_empty i (h ▸ ⟨hi, hle⟩)

theorem exists_isLeast (h : P ≠ ∅) : ∃ x, IsLeast P x :=
  ⟨sInf P, Nat.sInf_mem (Set.nonempty_iff_ne_empty.mpr h), fun _ hi => Nat.sInf_le hi⟩

/-- **A run on the line** with as few windows as there can be. The induction is on their number. -/
theorem exists_reaches (h : Covers w k {i ∈ P | t + w ≤ i}) :
    ∃ xs, xs.length ≤ k ∧ Chain w P t xs ∧ Reaches w P t xs := by
  induction k generalizing t with
  | zero => exact ⟨[], le_refl 0, .nil t, reaches_nil (covers_zero_iff.mp h)⟩
  | succ k ih =>
    by_cases hempty : {i ∈ P | t + w ≤ i} = ∅
    · exact ⟨[], Nat.zero_le _, .nil t, reaches_nil hempty⟩
    · obtain ⟨x, hx⟩ := exists_isLeast hempty
      obtain ⟨xs, hlength, hchain, hreach⟩ := ih (((covers_succ_iff hx).mp h).mono le_rfl fun i hi =>
        ⟨⟨hi.1, hx.1.2.trans ((Nat.le_add_right x w).trans hi.2)⟩, hi.2⟩)
      exact ⟨x :: xs, Nat.succ_le_succ hlength, .cons hx hchain, hreach.cons hx⟩

/-- **A run whose last window may reach `x`**, from where a window goes across the end: with one window
more, or without it. -/
theorem exists_reaches_to (hP : ∀ i ∈ P, i < n) (hx : n ≤ x + w)
    (h : Covers w k {i ∈ P | t + w ≤ i ∧ i < x}) :
    ∃ xs, xs.length ≤ k + 1 ∧ Chain w P t xs ∧ Reaches w P t xs
      ∧ (xs.length ≤ k ∨ ∃ y ∈ xs, x ≤ y) := by
  induction k generalizing t with
  | zero =>
    by_cases hempty : {i ∈ P | t + w ≤ i} = ∅
    · exact ⟨[], Nat.zero_le _, .nil t, reaches_nil hempty, Or.inl (le_refl 0)⟩
    · obtain ⟨y, hy⟩ := exists_isLeast hempty
      have hxy : x ≤ y := by
        by_contra hyx
        exact Set.notMem_empty y (covers_zero_iff.mp h ▸ ⟨hy.1.1, hy.1.2, not_le.mp hyx⟩)
      have hend : {i ∈ P | y + w ≤ i} = ∅ := by
        refine Set.eq_empty_of_forall_notMem fun i hi => ?_
        have hin := hP i hi.1
        have hle : y + w ≤ i := hi.2
        omega
      exact ⟨[y], le_refl 1, .cons hy (.nil y), (reaches_nil hend).cons hy,
        Or.inr ⟨y, List.mem_cons_self, hxy⟩⟩
  | succ k ih =>
    by_cases hempty : {i ∈ P | t + w ≤ i} = ∅
    · exact ⟨[], Nat.zero_le _, .nil t, reaches_nil hempty, Or.inl (Nat.zero_le _)⟩
    · obtain ⟨y, hy⟩ := exists_isLeast hempty
      have hnext : Covers w k {i ∈ P | y + w ≤ i ∧ i < x} := by
        by_cases hyx : y < x
        · have hleast : IsLeast {i ∈ P | t + w ≤ i ∧ i < x} y :=
            ⟨⟨hy.1.1, hy.1.2, hyx⟩, fun i hi => hy.2 ⟨hi.1, hi.2.1⟩⟩
          refine ((covers_succ_iff hleast).mp h).mono le_rfl fun i hi => ?_
          have hty : t + w ≤ y := hy.1.2
          have hyi : y + w ≤ i := hi.2.1
          exact ⟨⟨hi.1, by omega, hi.2.2⟩, hyi⟩
        · refine covers_of_empty (Set.eq_empty_of_forall_notMem fun i hi => ?_)
          have hyi : y + w ≤ i := hi.2.1
          have hix : i < x := hi.2.2
          omega
      obtain ⟨xs, hlength, hchain, hreach, hlast⟩ := ih hnext
      refine ⟨y :: xs, Nat.succ_le_succ hlength, .cons hy hchain, hreach.cons hy, ?_⟩
      obtain hless | ⟨z, hz, hxz⟩ := hlast
      · exact Or.inl (Nat.succ_le_succ hless)
      · exact Or.inr ⟨z, List.mem_cons_of_mem y hz, hxz⟩

/-- The windows of a run begin at positions of `P`, and do not overlap. -/
theorem Chain.spread (h : Chain w P t xs) :
    (∀ y ∈ xs, y ∈ P) ∧ (t :: xs).Pairwise fun a b => a + w ≤ b := by
  induction h with
  | nil t => exact ⟨nofun, List.pairwise_singleton _ t⟩
  | @cons t x xs hx _ ih =>
    obtain ⟨hmem, hpair⟩ := ih
    refine ⟨?_, List.pairwise_cons.mpr ⟨?_, hpair⟩⟩
    · rintro y (_ | ⟨_, hy⟩)
      · exact hx.1.1
      · exact hmem y hy
    · have htx : t + w ≤ x := hx.1.2
      rintro y (_ | ⟨_, hy⟩)
      · exact htx
      · have hxy := (List.pairwise_cons.mp hpair).1 y hy
        omega

theorem Chain.apart (h : Chain w P t xs) {y z : ℕ} (hy : y ∈ t :: xs) (hz : z ∈ t :: xs) (hne : y ≠ z) :
    y + w ≤ z ∨ z + w ≤ y := by
  have hpair : (t :: xs).Pairwise fun a b => a + w ≤ b ∨ b + w ≤ a :=
    h.spread.2.imp fun hab => Or.inl hab
  have hsymm : Std.Symm fun a b : ℕ => a + w ≤ b ∨ b + w ≤ a := ⟨fun a b hab => hab.symm⟩
  exact hpair.forall hy hz hne

/-- **A run that succeeds**: on the line, or its last window is one across the end over `s`. -/
theorem covers_of_rounds (hn : 2 * w ≤ n) (hP : ∀ i ∈ P, i < n) (hs : IsLeast P s) (hst : s ≤ t)
    (hts : t < s + w) (hlength : xs.length ≤ k) (hchain : Chain w P t xs)
    (hround : Rounds n w P t xs) :
    Covers w (k + 1) P ∨ ∃ x < n, s + n < x + w ∧ CoversFrom w k (s + w - 1) (P \ arc n w x) := by
  obtain ⟨hmem, hpair⟩ := hchain.spread
  have hbehind : ∀ y ∈ xs, t + w ≤ y := fun y hy => (List.pairwise_cons.mp hpair).1 y hy
  have hsn := hP s hs.1
  obtain ⟨x, hx, hsx⟩ := hround s hs.1
  obtain hline | hwrap := hsx
  · -- the window over `s` is the first one
    have hts : t = s := by
      obtain ⟨hle, -⟩ := hline
      obtain rfl | hx := List.mem_cons.mp hx
      · omega
      · have hle' := hbehind x hx
        omega
    subst hts
    refine Or.inl ⟨t :: xs, Nat.succ_le_succ hlength, fun i hi => ?_⟩
    obtain ⟨y, hy, hiy⟩ := hround i hi
    have hti : t ≤ i := hs.2 hi
    obtain hiy | hiy := hiy
    · exact ⟨y, hy, hiy⟩
    · have hyn : y < n := by
        obtain rfl | hy := List.mem_cons.mp hy
        · exact hsn
        · exact hP y (hmem y hy)
      refine ⟨t, List.mem_cons_self, hti, ?_⟩
      omega
  · have hxt : x ≠ t := by
      rintro rfl
      omega
    have hx' : x ∈ xs := (List.mem_cons.mp hx).resolve_left hxt
    have hxn := hP x (hmem x hx')
    -- all others are on the line and before it
    have hline : ∀ i ∈ P \ arc n w x, ∃ y ∈ t :: xs, y ≠ x ∧ i ∈ Set.Ico y (y + w) := by
      rintro i ⟨hi, hix⟩
      obtain ⟨y, hy, hiy⟩ := hround i hi
      have hne : y ≠ x := by
        rintro rfl
        exact hix hiy
      refine ⟨y, hy, hne, hiy.resolve_right fun hlow => ?_⟩
      have hapart := hchain.apart hy hx hne
      have hyn : y ∈ xs → y < n := fun hy => hP y (hmem y hy)
      obtain rfl | hy := List.mem_cons.mp hy
      · have hle := hbehind x hx'
        omega
      · have hlt := hyn hy
        omega
    refine Or.inr ⟨x, hxn, hwrap, t, by omega, fun i hi => ?_, k - 1, ?_, xs.erase x, ?_, ?_⟩
    · obtain ⟨y, hy, -, hyi, -⟩ := hline i hi
      obtain rfl | hy := List.mem_cons.mp hy
      · exact hyi
      · have hle := hbehind y hy
        omega
    · have hpos := List.length_pos_of_mem hx'
      omega
    · rw [List.length_erase_of_mem hx']
      omega
    · rintro i ⟨hi, hti⟩
      obtain ⟨y, hy, hne, hiy⟩ := hline i hi
      have hyt : y ≠ t := by
        rintro rfl
        have hlt : i < y + w := hiy.2
        have hle : y + w ≤ i := hti
        omega
      exact ⟨y, (List.mem_erase_of_ne hne).mpr ((List.mem_cons.mp hy).resolve_left hyt), hiy⟩

/-- **When a run succeeds** from one of the first `w` positions: when there are so many windows on the line,
or with one across the end over the least position, and the lowest one of the others begins within `w` of
it. -/
theorem exists_chain_iff (hw : 0 < w) (hn : 2 * w ≤ n) (hP : ∀ i ∈ P, i < n) (hs : IsLeast P s) :
    (∃ t, s ≤ t ∧ t < s + w ∧ ∃ xs, xs.length ≤ k ∧ Chain w P t xs ∧ Rounds n w P t xs)
      ↔ Covers w (k + 1) P
        ∨ ∃ x < n, s + n < x + w ∧ CoversFrom w k (s + w - 1) (P \ arc n w x) := by
  have hline : Covers w (k + 1) P →
      ∃ t, s ≤ t ∧ t < s + w ∧ ∃ xs, xs.length ≤ k ∧ Chain w P t xs ∧ Rounds n w P t xs := by
    intro h
    obtain ⟨xs, hlength, hchain, hreach⟩ := exists_reaches ((covers_succ_iff hs).mp h)
    refine ⟨s, le_rfl, Nat.lt_add_of_pos_right hw, xs, hlength, hchain, fun i hi => ?_⟩
    obtain ⟨y, hy, hiy⟩ := hreach i hi (hs.2 hi)
    exact ⟨y, hy, Or.inl hiy⟩
  constructor
  · rintro ⟨t, hst, hts, xs, hlength, hchain, hround⟩
    exact covers_of_rounds hn hP hs hst hts hlength hchain hround
  · rintro (h | ⟨x, hxn, hsx, t, ht, hleast, j, rfl, hcovers⟩)
    · exact hline h
    -- the run begins no lower than the least position
    have hbefore : Covers w j {i ∈ P | max t s + w ≤ i ∧ i < x} := by
      refine hcovers.mono le_rfl fun i hi => ?_
      obtain ⟨hi, hti, hix⟩ := hi
      have htw : t + w ≤ i := by omega
      refine ⟨⟨hi, ?_⟩, htw⟩
      change ¬ ((x ≤ i ∧ i < x + w) ∨ i + n < x + w)
      omega
    obtain ⟨xs, hlength, hchain, hreach, hlast⟩ := exists_reaches_to hP (by omega) hbefore
    obtain hless | ⟨y, hy, hxy⟩ := hlast
    · -- with a window at `s` this is a cover on the line
      refine hline ⟨s :: max t s :: xs, ?_, fun i hi => ?_⟩
      · exact Nat.succ_le_succ (Nat.succ_le_succ hless)
      · have hsi : s ≤ i := hs.2 hi
        by_cases hti : max t s ≤ i
        · obtain ⟨z, hz, hiz⟩ := hreach i hi hti
          exact ⟨z, List.mem_cons_of_mem s hz, hiz⟩
        · refine ⟨s, List.mem_cons_self, hsi, ?_⟩
          omega
    · refine ⟨max t s, le_max_right t s, by omega, xs, hlength, hchain, fun i hi => ?_⟩
      by_cases hti : max t s ≤ i
      · obtain ⟨z, hz, hiz⟩ := hreach i hi hti
        exact ⟨z, hz, Or.inl hiz⟩
      · have hsi : s ≤ i := hs.2 hi
        have hix : i ∈ arc n w x := by
          by_contra hix
          have hle := hleast i ⟨hi, hix⟩
          omega
        have hix : (x ≤ i ∧ i < x + w) ∨ i + n < x + w := hix
        refine ⟨y, List.mem_cons_of_mem _ hy, Or.inr ?_⟩
        omega

end WindowCover
