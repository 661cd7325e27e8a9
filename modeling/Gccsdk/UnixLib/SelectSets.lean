import Gccsdk.UnixLib.Select
import Mathlib.Tactic.IntervalCases

/-!
# What the loops over a descriptor set do

The two translations between descriptor sets and socket sets member by member, and the round over
the descriptors: which bits of the new sets it leaves, and what it counts.
-/

namespace UnixLib

open BitSet

variable {t : Descriptors} {nfds : ℤ} {iset oset : FdSet} {fd h words bits : ℕ}

/-! ### Words and bits -/

@[simp] theorem FdSet.getLsbD_word {set : FdSet} {b : ℕ} :
    (set.word words).getLsbD b = (decide (b < 32) && set.getLsbD (words * 32 + b)) := by
  unfold FdSet.word
  rw [BitVec.getLsbD_extractLsb']

theorem word_and_ne_zero {a b : FdSet} :
    a.word words &&& b.word words ≠ 0 ↔
      ∃ fd, fd / 32 = words ∧ a.getLsbD fd = true ∧ b.getLsbD fd = true := by
  constructor
  · intro hne
    by_contra hnone
    push Not at hnone
    apply hne
    apply BitVec.eq_of_getLsbD_eq
    intro i hi
    rw [BitVec.getLsbD_and, FdSet.getLsbD_word, FdSet.getLsbD_word, BitVec.ofNat_eq_ofNat,
      BitVec.getLsbD_zero, decide_eq_true hi, Bool.true_and, Bool.true_and]
    rw [Bool.and_eq_false_imp]
    intro ha
    exact Bool.eq_false_iff.mpr (hnone _ (by omega) ha)
  · rintro ⟨fd, rfl, ha, hb⟩ hzero
    have hbit := congrArg (fun v => v.getLsbD (fd % 32)) hzero
    have hfd : fd / 32 * 32 + fd % 32 = fd := by omega
    have hlt : fd % 32 < 32 := Nat.mod_lt _ (by omega)
    simp only [BitVec.getLsbD_and, FdSet.getLsbD_word, hfd, ha, hb, decide_eq_true hlt,
      BitVec.ofNat_eq_ofNat, BitVec.getLsbD_zero, Bool.and_self, Bool.true_eq_false] at hbit

theorem wordBits_le : wordBits nfds ≤ 32 := by
  unfold wordBits
  split <;> omega

theorem setWords_eq : setWords nfds = (nfds.toNat + 31) / 32 := by
  unfold setWords
  rcases le_or_gt 0 (nfds + 32 - 1) with hle | hgt
  · rw [Int.tdiv_eq_ediv_of_nonneg hle]
    omega
  · -- C rounds towards zero, and there is no word either way
    have hneg : (nfds + 32 - 1).tdiv 32 = -(-(nfds + 32 - 1) / 32) := by
      rw [← Int.tdiv_eq_ediv_of_nonneg (by omega), Int.neg_tdiv, neg_neg]
    rw [hneg]
    omega

/-- The place of `fd` in its word is one that the loops over the bits come to. -/
def lowBit (nfds : ℤ) (fd : ℕ) : Prop :=
  fd % 32 < wordBits nfds

theorem lt_of_lowBit (hlow : lowBit nfds fd) (hword : fd / 32 < setWords nfds) :
    fd < nfds.toNat := by
  unfold lowBit wordBits at hlow
  rw [setWords_eq] at hword
  split at hlow <;> omega

theorem div_lt_setWords (hfd : fd < nfds.toNat) : fd / 32 < setWords nfds := by
  rw [setWords_eq]
  omega

/-! ### `__convert_fd_set` -/

/-- `fd` is one of the descriptors that `__convert_fd_set` translates. -/
structure Translated (t : Descriptors) (nfds : ℤ) (iset : FdSet) (fd : ℕ) : Prop where
  word : fd / 32 < setWords nfds
  low : lowBit nfds fd
  isset : iset.getLsbD fd = true
  recorded : t.recorded.getLsbD fd = true

variable {o : FdSet × ℕ}

theorem convertBit_fst {bothset : BitVec 32} :
    (convertBit t words bothset bits o).1.getLsbD h = true ↔ o.1.getLsbD h = true ∨
      (h < FD_SETSIZE ∧ bothset.getLsbD bits = true ∧
        ∃ d, t.devicehandle (words * 32 + bits) = some d ∧ d.handle = h) := by
  unfold convertBit
  split
  · rename_i hbit
    split
    · rename_i d hd
      rw [getLsbD_insert, Bool.or_eq_true, Bool.and_eq_true, decide_eq_true_eq, decide_eq_true_eq,
        hd]
      constructor
      · rintro (ho | ⟨hlt, rfl⟩)
        · exact Or.inl ho
        · exact Or.inr ⟨hlt, hbit, d, rfl, rfl⟩
      · rintro (ho | ⟨hlt, -, d', hd', rfl⟩)
        · exact Or.inl ho
        · cases hd'
          exact Or.inr ⟨hlt, rfl⟩
    · rename_i hd
      rw [hd]
      constructor
      · exact Or.inl
      · rintro (ho | ⟨-, -, d, hd', -⟩)
        · exact ho
        · cases hd'
  · rename_i hbit
    constructor
    · exact Or.inl
    · rintro (ho | ⟨-, hbit', -⟩)
      · exact ho
      · exact absurd hbit' hbit

theorem convertBits_fst {bothset : BitVec 32} :
    (forBits (convertBit t words bothset) bits o).1.getLsbD h = true ↔ o.1.getLsbD h = true ∨
      ∃ b < bits, h < FD_SETSIZE ∧ bothset.getLsbD b = true ∧
        ∃ d, t.devicehandle (words * 32 + b) = some d ∧ d.handle = h := by
  induction bits generalizing o with
  | zero =>
    constructor
    · exact Or.inl
    · rintro (ho | ⟨b, hb, -⟩)
      · exact ho
      · exact absurd hb (Nat.not_lt_zero b)
  | succ bits ih =>
    rw [forBits, ih, convertBit_fst]
    constructor
    · rintro ((ho | hbit) | ⟨b, hb, hbit⟩)
      · exact Or.inl ho
      · exact Or.inr ⟨bits, Nat.lt_succ_self bits, hbit⟩
      · exact Or.inr ⟨b, Nat.lt_succ_of_lt hb, hbit⟩
    · rintro (ho | ⟨b, hb, hbit⟩)
      · exact Or.inl (Or.inl ho)
      · rcases Nat.lt_succ_iff_lt_or_eq.mp hb with hb | rfl
        · exact Or.inr ⟨b, hb, hbit⟩
        · exact Or.inl (Or.inr hbit)

theorem convertWords_fst : (convertWords t nfds iset words o).1.getLsbD h = true ↔ o.1.getLsbD h = true ∨
      (h < FD_SETSIZE ∧ ∃ fd d, fd / 32 < words ∧ lowBit nfds fd ∧ iset.getLsbD fd = true ∧
        t.recorded.getLsbD fd = true ∧ t.devicehandle fd = some d ∧ d.handle = h) := by
  induction words generalizing o with
  | zero =>
    constructor
    · exact Or.inl
    · rintro (ho | ⟨-, fd, d, hfd, -⟩)
      · exact ho
      · exact absurd hfd (Nat.not_lt_zero _)
  | succ words ih =>
    -- the members that the word at hand adds
    have hword : ∀ o : FdSet × ℕ,
        (if iset.word words &&& t.recorded.word words ≠ 0 then
          forBits (convertBit t words (iset.word words &&& t.recorded.word words)) (wordBits nfds) o
          else o).1.getLsbD h = true ↔ o.1.getLsbD h = true ∨
        (h < FD_SETSIZE ∧ ∃ fd d, fd / 32 = words ∧ lowBit nfds fd ∧ iset.getLsbD fd = true ∧
          t.recorded.getLsbD fd = true ∧ t.devicehandle fd = some d ∧ d.handle = h) := by
      intro o
      split
      · rw [convertBits_fst]
        refine or_congr_right ?_
        constructor
        · rintro ⟨b, hb, hlt, hbit, d, hd, hh⟩
          have hb32 : b < 32 := lt_of_lt_of_le hb wordBits_le
          rw [BitVec.getLsbD_and, FdSet.getLsbD_word, FdSet.getLsbD_word, decide_eq_true hb32,
            Bool.true_and, Bool.true_and, Bool.and_eq_true] at hbit
          refine ⟨hlt, words * 32 + b, d, by omega, ?_, hbit.1, hbit.2, hd, hh⟩
          unfold lowBit
          rw [Nat.mul_add_mod', Nat.mod_eq_of_lt hb32]
          exact hb
        · rintro ⟨hlt, fd, d, rfl, hlow, hi, hr, hd, hh⟩
          have hfd : fd / 32 * 32 + fd % 32 = fd := by omega
          have hb32 : fd % 32 < 32 := Nat.mod_lt _ (by omega)
          refine ⟨fd % 32, hlow, hlt, ?_, d, hfd.symm ▸ hd, hh⟩
          rw [BitVec.getLsbD_and, FdSet.getLsbD_word, FdSet.getLsbD_word, decide_eq_true hb32, hfd,
            hi, hr]
          rfl
      · rename_i hzero
        constructor
        · exact Or.inl
        · rintro (ho | ⟨-, fd, d, hfd, -, hi, hr, -⟩)
          · exact ho
          · exact absurd (word_and_ne_zero.mpr ⟨fd, hfd, hi, hr⟩) hzero
    rw [convertWords, ih, hword]
    constructor
    · rintro ((ho | ⟨hlt, fd, d, hfd, hrest⟩) | ⟨hlt, fd, d, hfd, hrest⟩)
      · exact Or.inl ho
      · exact Or.inr ⟨hlt, fd, d, hfd ▸ Nat.lt_succ_self _, hrest⟩
      · exact Or.inr ⟨hlt, fd, d, Nat.lt_succ_of_lt hfd, hrest⟩
    · rintro (ho | ⟨hlt, fd, d, hfd, hrest⟩)
      · exact Or.inl (Or.inl ho)
      · rcases Nat.lt_succ_iff_lt_or_eq.mp hfd with hfd | hfd
        · exact Or.inr ⟨hlt, fd, d, hfd, hrest⟩
        · exact Or.inl (Or.inr ⟨hlt, fd, d, hfd, hrest⟩)

/-- **`__convert_fd_set`**: the sockets of the translated descriptors. -/
theorem getLsbD_convertFdSet {max_fd : ℕ} :
    (convertFdSet t nfds iset max_fd).1.getLsbD h = true ↔ h < FD_SETSIZE ∧
      ∃ fd d, Translated t nfds iset fd ∧ t.devicehandle fd = some d ∧ d.handle = h := by
  unfold convertFdSet
  rw [convertWords_fst]
  constructor
  · rintro (ho | ⟨hlt, fd, d, hw, hlow, hi, hr, hd⟩)
    · rw [BitVec.ofNat_eq_ofNat, BitVec.getLsbD_zero] at ho
      cases ho
    · exact ⟨hlt, fd, d, ⟨hw, hlow, hi, hr⟩, hd⟩
  · rintro ⟨hlt, fd, d, htr, hd⟩
    exact Or.inr ⟨hlt, fd, d, htr.word, htr.low, htr.isset, htr.recorded, hd⟩

/-! The other result, `max_fd`, is above every socket there is in the set. -/

/-- `max_fd` is above the members of the set. -/
def Bounds (o : FdSet × ℕ) (bound : ℕ) : Prop :=
  bound ≤ o.2 ∧ ∀ h, o.1.getLsbD h = true → h < o.2

theorem Bounds.convertBit {bothset : BitVec 32} {bound : ℕ} (ho : Bounds o bound) :
    Bounds (convertBit t words bothset bits o) bound := by
  unfold UnixLib.convertBit
  split
  · split
    · rename_i d hd
      refine ⟨?_, fun h hh => ?_⟩
      · have hbound := ho.1
        dsimp only
        split <;> omega
      · rw [getLsbD_insert, Bool.or_eq_true, Bool.and_eq_true, decide_eq_true_eq,
          decide_eq_true_eq] at hh
        rcases hh with hh | ⟨-, rfl⟩
        · have hlt := ho.2 h hh
          dsimp only
          split <;> omega
        · dsimp only
          split <;> omega
    · exact ho
  · exact ho

theorem Bounds.forBits {body : ℕ → FdSet × ℕ → FdSet × ℕ} {bound : ℕ}
    (hbody : ∀ b o, Bounds o bound → Bounds (body b o) bound) (ho : Bounds o bound) :
    Bounds (forBits body bits o) bound := by
  induction bits generalizing o with
  | zero => exact ho
  | succ bits ih => exact ih (hbody bits o ho)

theorem Bounds.convertWords {bound : ℕ} (ho : Bounds o bound) :
    Bounds (convertWords t nfds iset words o) bound := by
  induction words generalizing o with
  | zero => exact ho
  | succ words ih =>
    apply ih
    split
    · exact Bounds.forBits (fun _ _ => Bounds.convertBit) ho
    · exact ho

theorem bounds_convertFdSet {max_fd : ℕ} :
    Bounds (convertFdSet t nfds iset max_fd) max_fd := by
  apply Bounds.convertWords
  refine ⟨le_refl max_fd, fun h hh => ?_⟩
  rw [BitVec.ofNat_eq_ofNat, BitVec.getLsbD_zero] at hh
  cases hh

/-! ### `__return_fd_set` -/

/-- `fd` is a socket that is not in `oset`. -/
def NotReady (t : Descriptors) (oset : FdSet) (fd : ℕ) : Prop :=
  ∃ d, t.devicehandle fd = some d ∧ d.type = DEV_SOCKET ∧ oset.getLsbD d.handle = false

theorem getLsbD_returnBit : (returnBit t oset words bits iset).getLsbD fd = true ↔
    iset.getLsbD fd = true ∧ ¬ (fd = words * 32 + bits ∧ NotReady t oset fd) := by
  unfold returnBit NotReady
  split
  · rename_i d hd
    split
    · rename_i hclr
      rw [getLsbD_erase, Bool.and_eq_true, decide_eq_true_eq]
      refine and_congr_right fun _ => ?_
      constructor
      · rintro hne ⟨rfl, -⟩
        exact hne rfl
      · rintro hnot rfl
        exact hnot ⟨rfl, d, hd, hclr.1, Bool.eq_false_iff.mpr hclr.2⟩
    · rename_i hkeep
      constructor
      · intro hi
        refine ⟨hi, ?_⟩
        rintro ⟨rfl, d', hd', htype, hnot⟩
        rw [hd] at hd'
        cases hd'
        exact hkeep ⟨htype, Bool.eq_false_iff.mp hnot⟩
      · exact And.left
  · rename_i hd
    constructor
    · intro hi
      refine ⟨hi, ?_⟩
      rintro ⟨rfl, d', hd', -⟩
      rw [hd] at hd'
      cases hd'
    · exact And.left

theorem getLsbD_returnBits : (forBits (returnBit t oset words) bits iset).getLsbD fd = true ↔
    iset.getLsbD fd = true ∧ ¬ ((∃ b < bits, fd = words * 32 + b) ∧ NotReady t oset fd) := by
  induction bits generalizing iset with
  | zero =>
    constructor
    · intro hi
      refine ⟨hi, ?_⟩
      rintro ⟨⟨b, hb, -⟩, -⟩
      exact Nat.not_lt_zero b hb
    · exact And.left
  | succ bits ih =>
    rw [forBits, ih, getLsbD_returnBit, and_assoc]
    refine and_congr_right fun _ => ?_
    constructor
    · rintro ⟨hbit, hrest⟩ ⟨⟨b, hb, hfd⟩, hnot⟩
      rcases Nat.lt_succ_iff_lt_or_eq.mp hb with hb | rfl
      · exact hrest ⟨⟨b, hb, hfd⟩, hnot⟩
      · exact hbit ⟨hfd, hnot⟩
    · intro hall
      refine ⟨?_, ?_⟩
      · rintro ⟨hfd, hnot⟩
        exact hall ⟨⟨bits, Nat.lt_succ_self bits, hfd⟩, hnot⟩
      · rintro ⟨⟨b, hb, hfd⟩, hnot⟩
        exact hall ⟨⟨b, Nat.lt_succ_of_lt hb, hfd⟩, hnot⟩

/-- The loops of `__return_fd_set` come to `fd`: there is a recorded descriptor in its word. -/
structure Visited (t : Descriptors) (nfds : ℤ) (iset : FdSet) (words fd : ℕ) : Prop where
  word : fd / 32 < words
  low : lowBit nfds fd
  recorded : ∃ fd', fd' / 32 = fd / 32 ∧ iset.getLsbD fd' = true ∧ t.recorded.getLsbD fd' = true

theorem getLsbD_returnWords : (returnWords t nfds oset words iset).getLsbD fd = true ↔
    iset.getLsbD fd = true ∧ ¬ (Visited t nfds iset words fd ∧ NotReady t oset fd) := by
  induction words generalizing iset with
  | zero =>
    constructor
    · intro hi
      refine ⟨hi, ?_⟩
      rintro ⟨hv, -⟩
      exact Nat.not_lt_zero _ hv.word
    · exact And.left
  | succ words ih =>
    -- the word at hand loses members of its own only
    have hword : ∀ fd, (if iset.word words &&& t.recorded.word words ≠ 0 then
        forBits (returnBit t oset words) (wordBits nfds) iset else iset).getLsbD fd = true ↔
        iset.getLsbD fd = true ∧ ¬ (fd / 32 = words ∧ Visited t nfds iset (words + 1) fd ∧
          NotReady t oset fd) := by
      intro fd
      split
      · rename_i hne
        rw [getLsbD_returnBits]
        refine and_congr_right fun _ => not_congr ?_
        constructor
        · rintro ⟨⟨b, hb, rfl⟩, hnot⟩
          have hb32 : b < 32 := lt_of_lt_of_le hb wordBits_le
          have hdiv : (words * 32 + b) / 32 = words := by omega
          refine ⟨hdiv, ⟨by omega, ?_, ?_⟩, hnot⟩
          · unfold lowBit
            rw [Nat.mul_add_mod', Nat.mod_eq_of_lt hb32]
            exact hb
          · rw [hdiv]
            exact word_and_ne_zero.mp hne
        · rintro ⟨hfd, hv, hnot⟩
          exact ⟨⟨fd % 32, hv.low, by omega⟩, hnot⟩
      · rename_i hzero
        constructor
        · intro hi
          refine ⟨hi, ?_⟩
          rintro ⟨hfd, hv, -⟩
          obtain ⟨fd', hfd', hi', hr'⟩ := hv.recorded
          exact hzero (word_and_ne_zero.mpr ⟨fd', hfd'.trans hfd, hi', hr'⟩)
        · exact And.left
    rw [returnWords, ih, hword, and_assoc]
    refine and_congr_right fun hi => ?_
    constructor
    · rintro ⟨hhere, hbelow⟩ ⟨hv, hnot⟩
      by_cases hfd : fd / 32 = words
      · exact hhere ⟨hfd, hv, hnot⟩
      · obtain ⟨fd', hfd', hi', hr'⟩ := hv.recorded
        refine hbelow ⟨⟨?_, hv.low, fd', hfd', ?_, hr'⟩, hnot⟩
        · exact lt_of_le_of_ne (Nat.le_of_lt_succ hv.word) hfd
        · rw [hword]
          exact ⟨hi', fun hthere => hfd (hfd' ▸ hthere.1)⟩
    · intro hall
      refine ⟨fun hhere => hall hhere.2, ?_⟩
      rintro ⟨hv, hnot⟩
      obtain ⟨fd', hfd', hi', hr'⟩ := hv.recorded
      rw [hword] at hi'
      exact hall ⟨⟨Nat.lt_succ_of_lt hv.word, hv.low, fd', hfd', hi'.1, hr'⟩, hnot⟩

end UnixLib
