import Gccsdk.UnixLib.SelectRounds
import Mathlib.Data.Finset.Image

/-!
# What `select` returns

A `select` that returns is right about its sets when the sockets that it is asked about are all
translated, no two of them go to the socket layer by one handle, and the sets have no members past
the bytes that are copied back (`select_sound_iff`). The first condition is where the code goes
wrong: `__convert_fd_set` and `__return_fd_set` take the number of bits of the last word for the
number of bits of every word.
-/

namespace UnixLib

open BitSet

variable {os : SelectOs} {t : Descriptors} {nfds : ℤ} {sets : SetKind → Option FdSet} {k : SetKind}
  {fd h i n : ℕ} {new : SetKind → FdSet} {out : SelectReturn}

/-! ### The statement -/

/-- The descriptor is reported ready in round `i`: a socket by the socket layer, any other by its
device. -/
def reported (os : SelectOs) (t : Descriptors) (nfds : ℤ) (sets : SetKind → Option FdSet)
    (i fd : ℕ) (k : SetKind) : Bool :=
  match t.devicehandle fd with
  | some d =>
    if d.type = DEV_SOCKET then ((sockWait os t nfds sets i).2 k).getLsbD d.handle
    else (deviceSelect os i fd d (isset sets fd)).2 k
  | none => false

def setSize (sets : SetKind → Option FdSet) (k : SetKind) : ℕ :=
  match sets k with
  | some set => (elems set).card
  | none => 0

/-- **What the caller of `select` relies on.** -/
structure SelectSound (os : SelectOs) (t : Descriptors) (nfds : ℤ) (sets : SetKind → Option FdSet)
    (out : SelectReturn) : Prop where
  subset : ∀ k fd, isset out.sets fd k = true → isset sets fd k = true
  ready : ∀ k (fd : ℕ), (fd : ℤ) < nfds → (isset out.sets fd k = true ↔
    isset sets fd k = true ∧ reported os t (limitFds nfds) sets out.round fd k = true)
  /-- Every socket in a set takes part in the wait for the sockets. -/
  waits : ∀ k (fd : ℕ) d, (fd : ℤ) < nfds → isset sets fd k = true → t.devicehandle fd = some d →
    d.type = DEV_SOCKET → isset (sockSets t (limitFds nfds) sets).1 d.handle k = true ∧
      d.handle < (sockSets t (limitFds nfds) sets).2
  count : out.live_fds = (SetKind.sum (setSize out.sets) : ℕ)

/-- The call does not return without error: a descriptor below `nfds` in a set is not open, or
`nfds` is so far below zero that there is no end to the copy of a set. -/
def SelectRefused (t : Descriptors) (nfds : ℤ) (sets : SetKind → Option FdSet) : Prop :=
  (∃ k, ∃ fd : ℕ, (fd : ℤ) < nfds ∧ isset sets fd k = true ∧ t.devicehandle fd = none) ∨
    (nfds < -7 ∧ ∃ k set, sets k = some set)

/-- **When `select` is right.** -/
structure SelectClean (t : Descriptors) (nfds : ℤ) (sets : SetKind → Option FdSet) : Prop where
  bytes : ∀ k (fd : ℕ), isset sets fd k = true → (fd : ℤ) < (limitFds nfds + 7) / 8 * 8
  /-- Every socket in a set is recorded as one, and its place in its word is below the number of
  bits of the last word. -/
  recorded : ∀ k (fd : ℕ), (fd : ℤ) < nfds → isset sets fd k = true → t.isSocket fd = true →
    t.recorded.getLsbD fd = true ∧ fd % 32 < wordBits (limitFds nfds)
  distinct : ∀ k (fd fd' : ℕ) d d', (fd : ℤ) < nfds → (fd' : ℤ) < nfds → isset sets fd k = true →
    isset sets fd' k = true → t.devicehandle fd = some d → t.devicehandle fd' = some d' →
    d.type = DEV_SOCKET → d'.type = DEV_SOCKET → d.handle = d'.handle → fd = fd'

/-! ### The sockets of a call -/

theorem isset_lt (hfd : isset sets fd k = true) : fd < FD_SETSIZE := by
  unfold isset at hfd
  split at hfd
  · exact BitVec.lt_of_getLsbD hfd
  · cases hfd

theorem isset_iff : isset sets fd k = true ↔ ∃ set, sets k = some set ∧ set.getLsbD fd = true := by
  unfold isset
  cases sets k with
  | none =>
    constructor
    · intro hfd
      cases hfd
    · rintro ⟨set, hset, -⟩
      cases hset
  | some set =>
    constructor
    · intro hfd
      exact ⟨set, rfl, hfd⟩
    · rintro ⟨set', hset, hfd⟩
      cases hset
      exact hfd

theorem limitFds_le : (limitFds nfds).toNat ≤ FD_SETSIZE := by
  unfold limitFds
  split <;> omega

theorem lt_limitFds (hfd : isset sets fd k = true) :
    fd < (limitFds nfds).toNat ↔ (fd : ℤ) < nfds := by
  have hlt := isset_lt hfd
  unfold limitFds
  split <;> omega

def handleOf (t : Descriptors) (fd : ℕ) : ℕ :=
  match t.devicehandle fd with
  | some d => d.handle
  | none => 0

/-- The sockets below `n` in a set. -/
def socketsOf (t : Descriptors) (sets : SetKind → Option FdSet) (n : ℕ) (k : SetKind) : Finset ℕ :=
  (Finset.range n).filter fun fd => isset sets fd k && t.isSocket fd

def translatedOf (t : Descriptors) (nfds : ℤ) (sets : SetKind → Option FdSet) (k : SetKind) :
    Finset ℕ :=
  (socketsOf t sets nfds.toNat k).filter fun fd =>
    t.recorded.getLsbD fd && decide (fd % 32 < wordBits nfds)

theorem mem_socketsOf : fd ∈ socketsOf t sets n k ↔
    fd < n ∧ isset sets fd k = true ∧ t.isSocket fd = true := by
  unfold socketsOf
  rw [Finset.mem_filter, Finset.mem_range, Bool.and_eq_true]

theorem mem_translatedOf : fd ∈ translatedOf t nfds sets k ↔
    fd ∈ socketsOf t sets nfds.toNat k ∧ t.recorded.getLsbD fd = true ∧
      fd % 32 < wordBits nfds := by
  unfold translatedOf
  rw [Finset.mem_filter, Bool.and_eq_true, decide_eq_true_eq]

theorem mem_translatedOf_iff {set : FdSet} (hset : sets k = some set) :
    fd ∈ translatedOf t nfds sets k ↔ Translated t nfds set fd := by
  rw [mem_translatedOf, mem_socketsOf, isset_iff]
  constructor
  · rintro ⟨⟨hlt, ⟨set', hset', hbit⟩, -⟩, hrec, hlow⟩
    rw [hset] at hset'
    cases hset'
    exact ⟨div_lt_setWords hlt, hlow, hbit, hrec⟩
  · intro htr
    exact ⟨⟨lt_of_lowBit htr.low htr.word, ⟨set, hset, htr.isset⟩,
      isSocket_of_recorded htr.recorded⟩, htr.recorded, htr.low⟩

theorem le_convertSet {set : Option FdSet} {m : ℕ} : m ≤ (convertSet t nfds set m).2 := by
  unfold convertSet
  split
  · exact bounds_convertFdSet.1
  · exact le_refl m

theorem sockSets_apply (t : Descriptors) (nfds : ℤ) (sets : SetKind → Option FdSet) (k : SetKind) :
    ∃ m, (sockSets t nfds sets).1 k =
    (convertSet t nfds (sets k) m).1 ∧
    (convertSet t nfds (sets k) m).2 ≤ (sockSets t nfds sets).2 := by
  cases k with
  | read => exact ⟨0, rfl, le_convertSet.trans le_convertSet⟩
  | write => exact ⟨_, rfl, le_convertSet⟩
  | except => exact ⟨_, rfl, le_refl _⟩

theorem handleOf_lt (hs : t.isSocket fd = true) : handleOf t fd < FD_SETSIZE := by
  obtain ⟨d, hd, htype⟩ := isSocket_iff.mp hs
  unfold handleOf
  rw [hd]
  exact t.handle_lt fd d hd htype

/-- **The sockets that are waited for** are those of the translated descriptors, -/
theorem isset_sockSets : isset (sockSets t nfds sets).1 h k = true ↔
    h ∈ (translatedOf t nfds sets k).image (handleOf t) := by
  obtain ⟨m, hsock, -⟩ := sockSets_apply t nfds sets k
  unfold isset
  rw [hsock, Finset.mem_image]
  cases hset : sets k with
  | none =>
    constructor
    · intro hh
      cases hh
    · rintro ⟨fd, hfd, -⟩
      rw [mem_translatedOf, mem_socketsOf, isset_iff, hset] at hfd
      obtain ⟨⟨-, ⟨set, hset', -⟩, -⟩, -⟩ := hfd
      cases hset'
  | some set =>
    change (convertFdSet t nfds set m).1.getLsbD h = true ↔ _
    rw [getLsbD_convertFdSet]
    constructor
    · rintro ⟨-, fd, d, htr, hd, rfl⟩
      refine ⟨fd, (mem_translatedOf_iff hset).mpr htr, ?_⟩
      unfold handleOf
      rw [hd]
    · rintro ⟨fd, hfd, rfl⟩
      have htr := (mem_translatedOf_iff hset).mp hfd
      obtain ⟨d, hd, htype⟩ := isSocket_iff.mp (isSocket_of_recorded htr.recorded)
      refine ⟨handleOf_lt (isSocket_of_recorded htr.recorded), fd, d, htr, hd, ?_⟩
      unfold handleOf
      rw [hd]

/-- and `sock_nfds` is above them. -/
theorem lt_sock_nfds (hh : isset (sockSets t nfds sets).1 h k = true) :
    h < (sockSets t nfds sets).2 := by
  obtain ⟨m, hsock, hle⟩ := sockSets_apply t nfds sets k
  unfold isset at hh
  rw [hsock] at hh
  cases hset : sets k with
  | none =>
    rw [hset] at hh
    cases hh
  | some set =>
    rw [hset] at hh hle
    exact lt_of_lt_of_le (bounds_convertFdSet.2 h hh) hle

theorem sockSets_isSome (t : Descriptors) (nfds : ℤ) (sets : SetKind → Option FdSet)
    (k : SetKind) : ((sockSets t nfds sets).1 k).isSome = (sets k).isSome := by
  obtain ⟨m, hsock, -⟩ := sockSets_apply t nfds sets k
  rw [hsock]
  cases sets k with
  | none => rfl
  | some set => rfl

/-! ### The wait for the sockets -/

theorem sockWait_subset (hpos : 0 ≤ (sockWait os t nfds sets i).1) (hk : (sets k).isSome)
    (hh : ((sockWait os t nfds sets i).2 k).getLsbD h = true) :
    isset (sockSets t nfds sets).1 h k = true := by
  rw [← sockSets_isSome t nfds sets k] at hk
  obtain ⟨set, hset⟩ := Option.isSome_iff_exists.mp hk
  rw [isset_iff]
  refine ⟨set, hset, ?_⟩
  unfold sockWait at hpos hh
  dsimp only at hpos hh
  split at hh
  · dsimp only at hh
    rw [hset] at hh
    exact hh
  · rename_i hne
    rw [if_neg hne] at hpos
    exact os.sselect_subset i _ _ k set hpos hset h hh

theorem sockWait_result (hpos : 0 ≤ (sockWait os t nfds sets i).1) :
    (sockWait os t nfds sets i).1 = (SetKind.sum fun k =>
      if (sets k).isSome then (elems ((sockWait os t nfds sets i).2 k)).card else 0 : ℕ) := by
  by_cases hzero : (sockSets t nfds sets).2 = 0
  · -- nobody is waited for
    have hempty : ∀ k, (if (sets k).isSome then
        (elems ((sockWait os t nfds sets i).2 k)).card else 0) = 0 := by
      intro k
      split
      · rename_i hk
        rw [Finset.card_eq_zero, Finset.eq_empty_iff_forall_notMem]
        intro h hh
        have hlt := lt_sock_nfds (sockWait_subset hpos hk (mem_elems.mp hh))
        rw [hzero] at hlt
        exact Nat.not_lt_zero h hlt
      · rfl
    rw [SetKind.sum_eq_zero hempty]
    unfold sockWait
    dsimp only
    rw [if_pos hzero]
    rfl
  · unfold sockWait at hpos ⊢
    dsimp only at hpos ⊢
    rw [if_neg hzero] at hpos
    simp only [if_neg hzero, ← sockSets_isSome t nfds sets]
    exact os.sselect_result i _ _ hpos

/-! ### The returned sets -/

def copiedSet (nfds : ℤ) (set new : FdSet) : FdSet :=
  splice (8 * ((nfds + 7) / 8).toNat) new set

theorem LastRound.isset_out (h : LastRound os t nfds sets out new) {set : FdSet}
    (hset : sets k = some set) : isset out.sets fd k = true ↔
      (copiedSet nfds set (new k)).getLsbD fd = true ∧ ¬ ((sockSets t nfds sets).2 ≠ 0 ∧
        Visited t nfds (copiedSet nfds set (new k)) (setWords nfds) fd ∧
        NotReady t ((sockWait os t nfds sets out.round).2 k) fd) := by
  obtain ⟨back, hback, hcopy⟩ := h.copied k set hset
  rw [isset_iff, hback]
  unfold copyBack at hcopy
  split at hcopy
  · cases hcopy
  · have hbits : back.getLsbD fd = true ↔
        (copiedSet nfds set (new k)).getLsbD fd = true ∧ ¬ ((sockSets t nfds sets).2 ≠ 0 ∧
          Visited t nfds (copiedSet nfds set (new k)) (setWords nfds) fd ∧
          NotReady t ((sockWait os t nfds sets out.round).2 k) fd) := by
      cases hcopy
      split
      · rename_i hne
        unfold returnFdSet
        rw [getLsbD_returnWords]
        exact and_congr_right fun _ => not_congr ⟨fun hv => ⟨hne, hv⟩, And.right⟩
      · rename_i hzero
        exact ⟨fun hbit => ⟨hbit, fun hv => hzero hv.1⟩, And.left⟩
    rw [← hbits]
    constructor
    · rintro ⟨set', hset', hbit⟩
      cases hset'
      exact hbit
    · intro hbit
      exact ⟨back, rfl, hbit⟩

/-- Below `nfds` a set has no descriptors but those the devices said, -/
theorem LastRound.deviceReady_of_isset (h : LastRound os t nfds sets out new)
    (hfd : fd < nfds.toNat) (hk : isset out.sets fd k = true) :
    deviceReady os t sets out.round fd k = true := by
  cases hset : sets k with
  | none =>
    rw [isset_iff, h.null k hset] at hk
    obtain ⟨set, hnone, -⟩ := hk
    cases hnone
  | some set =>
    have hbit := ((h.isset_out hset).mp hk).1
    unfold copiedSet at hbit
    rw [getLsbD_splice, if_pos (by omega), h.new_bit, Bool.and_eq_true] at hbit
    exact hbit.2

theorem LastRound.isset_of_deviceReady (h : LastRound os t nfds sets out new)
    (hfd : fd < nfds.toNat) (hready : deviceReady os t sets out.round fd k = true)
    (hs : t.isSocket fd = false) : isset out.sets fd k = true := by
  obtain ⟨set, hset, -⟩ := isset_iff.mp (deviceReady_le hready)
  rw [h.isset_out hset]
  constructor
  · unfold copiedSet
    rw [getLsbD_splice, if_pos (by omega), h.new_bit, hready, decide_eq_true hfd]
    rfl
  · rintro ⟨-, -, d, hd, htype, -⟩
    rw [isSocket_iff.mpr ⟨d, hd, htype⟩] at hs
    cases hs

/-- A translated socket stays if it is ready, -/
theorem LastRound.isset_socket (h : LastRound os t nfds sets out new)
    (hfd : fd ∈ translatedOf t nfds sets k) : isset out.sets fd k = true ↔
      ((sockWait os t nfds sets out.round).2 k).getLsbD (handleOf t fd) = true := by
  obtain ⟨hsock, hrec, hlow⟩ := mem_translatedOf.mp hfd
  obtain ⟨hlt, hk, hs⟩ := mem_socketsOf.mp hsock
  obtain ⟨set, hset, -⟩ := isset_iff.mp hk
  obtain ⟨d, hd, htype⟩ := isSocket_iff.mp hs
  have hhandle : handleOf t fd = d.handle := by
    unfold handleOf
    rw [hd]
  have hbit : (copiedSet nfds set (new k)).getLsbD fd = true := by
    unfold copiedSet
    rw [getLsbD_splice, if_pos (by omega), h.new_bit, deviceReady_of_isSocket hs hk,
      decide_eq_true hlt]
    rfl
  have hwait := lt_sock_nfds (isset_sockSets.mpr (Finset.mem_image_of_mem (handleOf t) hfd))
  rw [h.isset_out hset, hhandle]
  constructor
  · rintro ⟨-, hnot⟩
    by_contra hready
    refine hnot ⟨by omega, ⟨div_lt_setWords hlt, hlow, fd, rfl, hbit, hrec⟩, d, hd, htype, ?_⟩
    exact Bool.eq_false_iff.mpr hready
  · intro hready
    refine ⟨hbit, ?_⟩
    rintro ⟨-, -, d', hd', -, hnot⟩
    rw [hd] at hd'
    cases hd'
    rw [hready] at hnot
    cases hnot

/-- and past the bytes that were copied there is what the caller had. -/
theorem LastRound.isset_past (h : LastRound os t nfds sets out new) (hfd : nfds.toNat ≤ fd) :
    isset out.sets fd k = true ↔ 8 * ((nfds + 7) / 8).toNat ≤ fd ∧ isset sets fd k = true := by
  cases hset : sets k with
  | none =>
    rw [isset_iff, isset_iff, h.null k hset, hset]
    constructor
    · rintro ⟨set, hnone, -⟩
      cases hnone
    · rintro ⟨-, set, hnone, -⟩
      cases hnone
  | some set =>
    have hnot : ¬ Visited t nfds (copiedSet nfds set (new k)) (setWords nfds) fd := by
      intro hv
      have hlt := lt_of_lowBit hv.low hv.word
      omega
    rw [h.isset_out hset]
    unfold copiedSet at hnot ⊢
    rw [getLsbD_splice]
    constructor
    · rintro ⟨hbit, -⟩
      split at hbit
      · rw [h.new_bit, decide_eq_false (not_lt.mpr hfd)] at hbit
        cases hbit
      · rename_i hge
        exact ⟨not_lt.mp hge, isset_iff.mpr ⟨set, hset, hbit⟩⟩
    · rintro ⟨hge, hk⟩
      rw [if_neg (not_lt.mpr hge)]
      obtain ⟨set', hset', hbit⟩ := isset_iff.mp hk
      rw [hset] at hset'
      cases hset'
      exact ⟨hbit, fun hv => hnot hv.2.1⟩

/-! ### A clean call -/

theorem mem_setSize_elems {set : FdSet} (hset : sets k = some set) :
    fd ∈ elems set ↔ isset sets fd k = true := by
  rw [mem_elems, isset_iff, hset]
  constructor
  · intro hbit
    exact ⟨set, rfl, hbit⟩
  · rintro ⟨set', hset', hbit⟩
    cases hset'
    exact hbit

theorem SelectClean.translatedOf_eq (h : SelectClean t nfds sets) :
    translatedOf t (limitFds nfds) sets k = socketsOf t sets (limitFds nfds).toNat k := by
  apply Finset.ext
  intro fd
  rw [mem_translatedOf]
  constructor
  · exact And.left
  · intro hfd
    obtain ⟨hlt, hk, hs⟩ := mem_socketsOf.mp hfd
    exact ⟨hfd, h.recorded k fd ((lt_limitFds hk).mp hlt) hk hs⟩

theorem SelectClean.injOn (h : SelectClean t nfds sets) :
    Set.InjOn (handleOf t) (socketsOf t sets (limitFds nfds).toNat k) := by
  intro fd hfd fd' hfd' heq
  obtain ⟨hlt, hk, hs⟩ := mem_socketsOf.mp hfd
  obtain ⟨hlt', hk', hs'⟩ := mem_socketsOf.mp hfd'
  obtain ⟨d, hd, htype⟩ := isSocket_iff.mp hs
  obtain ⟨d', hd', htype'⟩ := isSocket_iff.mp hs'
  refine h.distinct k fd fd' d d' ((lt_limitFds hk).mp hlt) ((lt_limitFds hk').mp hlt') hk hk' hd
    hd' htype htype' ?_
  unfold handleOf at heq
  rw [hd, hd'] at heq
  exact heq

def readySockets (os : SelectOs) (t : Descriptors) (nfds : ℤ) (sets : SetKind → Option FdSet)
    (i : ℕ) (k : SetKind) : Finset ℕ :=
  (socketsOf t sets nfds.toNat k).filter fun fd =>
    ((sockWait os t nfds sets i).2 k).getLsbD (handleOf t fd)

theorem disjoint_readySockets :
    Disjoint (readyFds os t sets i nfds.toNat k) (readySockets os t nfds sets i k) := by
  rw [Finset.disjoint_left]
  intro fd hfd hfd'
  unfold readyFds at hfd
  unfold readySockets at hfd'
  rw [Finset.mem_filter, Bool.and_eq_true, Bool.not_eq_true'] at hfd
  rw [Finset.mem_filter, mem_socketsOf] at hfd'
  rw [hfd.2.2] at hfd'
  cases hfd'.1.2.2

theorem SelectClean.card_readySockets (hc : SelectClean t nfds sets)
    (hpos : 0 ≤ (sockWait os t (limitFds nfds) sets i).1) (hk : (sets k).isSome) :
    (readySockets os t (limitFds nfds) sets i k).card =
      (elems ((sockWait os t (limitFds nfds) sets i).2 k)).card := by
  have himage : (readySockets os t (limitFds nfds) sets i k).image (handleOf t) =
      elems ((sockWait os t (limitFds nfds) sets i).2 k) := by
    apply Finset.ext
    intro h
    unfold readySockets
    rw [Finset.mem_image, mem_elems]
    constructor
    · rintro ⟨fd, hfd, rfl⟩
      exact (Finset.mem_filter.mp hfd).2
    · intro hh
      have hsock := isset_sockSets.mp (sockWait_subset hpos hk hh)
      rw [hc.translatedOf_eq, Finset.mem_image] at hsock
      obtain ⟨fd, hfd, rfl⟩ := hsock
      exact ⟨fd, Finset.mem_filter.mpr ⟨hfd, hh⟩, rfl⟩
  rw [← himage, Finset.card_image_of_injOn]
  exact hc.injOn.mono fun fd hfd => (Finset.mem_filter.mp hfd).1

theorem LastRound.subset (h : LastRound os t nfds sets out new)
    (hk : isset out.sets fd k = true) : isset sets fd k = true := by
  rcases lt_or_ge fd nfds.toNat with hlt | hge
  · exact deviceReady_le (h.deviceReady_of_isset hlt hk)
  · exact ((h.isset_past hge).mp hk).2

/-- A socket stays if the socket layer says so, -/
theorem SelectClean.isset_socket (hc : SelectClean t nfds sets)
    (h : LastRound os t (limitFds nfds) sets out new)
    (hfd : fd ∈ socketsOf t sets (limitFds nfds).toNat k) : isset out.sets fd k = true ↔
      ((sockWait os t (limitFds nfds) sets out.round).2 k).getLsbD (handleOf t fd) = true := by
  rw [← hc.translatedOf_eq] at hfd
  exact h.isset_socket hfd

theorem LastRound.isset_other (h : LastRound os t nfds sets out new) (hlt : fd < nfds.toNat)
    (hs : t.isSocket fd = false) :
    isset out.sets fd k = true ↔ deviceReady os t sets out.round fd k = true :=
  ⟨h.deviceReady_of_isset hlt, fun hr => h.isset_of_deviceReady hlt hr hs⟩

theorem SelectClean.elems_back (hc : SelectClean t nfds sets)
    (h : LastRound os t (limitFds nfds) sets out new) {back : FdSet}
    (hback : out.sets k = some back) :
    elems back = readyFds os t sets out.round (limitFds nfds).toNat k ∪
      readySockets os t (limitFds nfds) sets out.round k := by
  apply Finset.ext
  intro fd
  rw [mem_setSize_elems hback, Finset.mem_union]
  unfold readyFds readySockets
  rw [Finset.mem_filter, Finset.mem_filter, Finset.mem_range, Bool.and_eq_true, Bool.not_eq_true']
  constructor
  · intro hout
    have hk := h.subset hout
    have hlt : fd < (limitFds nfds).toNat := by
      by_contra hge
      have hpast := ((h.isset_past (not_lt.mp hge)).mp hout).1
      have hbytes := hc.bytes k fd hk
      omega
    cases hs : t.isSocket fd with
    | true =>
      have hmem := mem_socketsOf.mpr ⟨hlt, hk, hs⟩
      exact Or.inr ⟨hmem, (hc.isset_socket h hmem).mp hout⟩
    | false => exact Or.inl ⟨hlt, (h.isset_other hlt hs).mp hout, rfl⟩
  · rintro (⟨hlt, hready, hs⟩ | ⟨hmem, hready⟩)
    · exact (h.isset_other hlt hs).mpr hready
    · exact (hc.isset_socket h hmem).mpr hready

theorem readyFds_eq_empty (hset : sets k = none) : readyFds os t sets i n k = ∅ := by
  rw [Finset.eq_empty_iff_forall_notMem]
  intro fd hfd
  have hready := (Finset.mem_filter.mp hfd).2
  rw [Bool.and_eq_true] at hready
  obtain ⟨set, hsome, -⟩ := isset_iff.mp (deviceReady_le hready.1)
  rw [hset] at hsome
  cases hsome

theorem SelectClean.setSize_eq (hc : SelectClean t nfds sets)
    (h : LastRound os t (limitFds nfds) sets out new) (k : SetKind) : setSize out.sets k =
      (readyFds os t sets out.round (limitFds nfds).toNat k).card +
        if (sets k).isSome then
          (elems ((sockWait os t (limitFds nfds) sets out.round).2 k)).card else 0 := by
  unfold setSize
  cases hset : sets k with
  | none => rw [h.null k hset, readyFds_eq_empty hset]; rfl
  | some set =>
    have hsome : (sets k).isSome := Option.isSome_iff_exists.mpr ⟨set, hset⟩
    obtain ⟨back, hback, -⟩ := h.copied k set hset
    have hcard := hc.card_readySockets h.result hsome
    rw [hback]
    change (elems back).card = _ + (elems _).card
    rw [← hcard, hc.elems_back h hback, Finset.card_union_of_disjoint disjoint_readySockets]

theorem handleOf_eq {d : DeviceHandle} (hd : t.devicehandle fd = some d) :
    handleOf t fd = d.handle := by
  unfold handleOf
  rw [hd]

theorem SelectClean.reported_iff (hc : SelectClean t nfds sets)
    (h : LastRound os t (limitFds nfds) sets out new) (hlt : fd < (limitFds nfds).toNat)
    (hk : isset sets fd k = true) :
    reported os t (limitFds nfds) sets out.round fd k = true ↔ isset out.sets fd k = true := by
  unfold reported
  cases hd : t.devicehandle fd with
  | none =>
    rw [h.opened fd hlt hd k] at hk
    cases hk
  | some d =>
    dsimp only
    by_cases htype : d.type = DEV_SOCKET
    · have hs := isSocket_iff.mpr ⟨d, hd, htype⟩
      rw [if_pos htype, hc.isset_socket h (mem_socketsOf.mpr ⟨hlt, hk, hs⟩), handleOf_eq hd]
    · have hs : t.isSocket fd = false := by
        unfold Descriptors.isSocket
        rw [hd]
        exact decide_eq_false htype
      rw [if_neg htype, h.isset_other hlt hs]
      unfold deviceReady
      rw [hd]
      dsimp only
      rw [hk, Bool.true_and]

theorem SelectClean.sound (hc : SelectClean t nfds sets)
    (h : LastRound os t (limitFds nfds) sets out new) : SelectSound os t nfds sets out := by
  refine ⟨fun k fd => h.subset, fun k fd hfd => ?_, fun k fd d hfd hk hd htype => ?_, ?_⟩
  · constructor
    · intro hout
      have hk := h.subset hout
      exact ⟨hk, (hc.reported_iff h ((lt_limitFds hk).mpr hfd) hk).mpr hout⟩
    · rintro ⟨hk, hready⟩
      exact (hc.reported_iff h ((lt_limitFds hk).mpr hfd) hk).mp hready
  · have hmem : fd ∈ socketsOf t sets (limitFds nfds).toNat k :=
      mem_socketsOf.mpr ⟨(lt_limitFds hk).mpr hfd, hk, isSocket_iff.mpr ⟨d, hd, htype⟩⟩
    rw [← hc.translatedOf_eq] at hmem
    have hwait : isset (sockSets t (limitFds nfds) sets).1 d.handle k = true := by
      rw [isset_sockSets, ← handleOf_eq hd]
      exact Finset.mem_image_of_mem _ hmem
    exact ⟨hwait, lt_sock_nfds hwait⟩
  · rw [funext (hc.setSize_eq h), SetKind.sum_add, h.live_fds, sockWait_result h.result]
    push_cast
    rfl

/-! ### A call that is not clean -/

def promptOs : SelectOs where
  ttyReady _ _ := false
  pipeData _ _ := false
  cselect _ _ _ := (0, fun _ => false)
  cselect_result _ _ wants _ := by
    simp only [Bool.and_false]
    rfl
  sselect _ _ sets :=
    ((SetKind.sum fun k => if (sets k).isSome then (elems ((sets k).getD 0)).card else 0 : ℕ),
      fun k => (sets k).getD 0)
  sselect_subset _ _ sets k set _ hset h hh := by
    dsimp only at hh
    rw [hset] at hh
    exact hh
  sselect_result _ _ _ _ := rfl
  clock _ := 0

theorem deviceSelect_promptOs_nonneg {d : DeviceHandle} {wants : SetKind → Bool} :
    0 ≤ (deviceSelect promptOs i fd d wants).1 := by
  unfold deviceSelect
  cases selectFunc d.type with
  | nullselect => dsimp only; positivity
  | ttyselect => dsimp only; positivity
  | pipeselect => dsimp only; positivity
  | sockselect => exact le_refl 0
  | customselect => exact le_refl 0

theorem scanFds_promptOs {live : ℤ}
    (hopen : ∀ fd < n, t.devicehandle fd = none → wanted sets fd = false) :
    ∃ r, scanFds promptOs t sets i n new live = .ok r := by
  induction n generalizing new live with
  | zero => exact ⟨_, rfl⟩
  | succ n ih =>
    have hopen' : ∀ fd < n, t.devicehandle fd = none → wanted sets fd = false :=
      fun fd hfd => hopen fd (Nat.lt_succ_of_lt hfd)
    rw [scanFds]
    cases hd : t.devicehandle n with
    | none =>
      dsimp only
      rw [hopen n (Nat.lt_succ_self n) hd]
      exact ih hopen'
    | some d =>
      dsimp only
      split
      · exact ih hopen'
      · exact ih hopen'
      · split
        · rw [if_neg (not_lt.mpr deviceSelect_promptOs_nonneg)]
          exact ih hopen'
        · exact ih hopen'

theorem copyBackAll_isSome {sock_nfds : ℕ} {newsock : SetKind → FdSet}
    (hlen : ∀ k set, sets k = some set → 0 ≤ (nfds + 7) / 8) :
    ∃ back, copyBackAll t nfds sock_nfds sets new newsock = some back := by
  have hcopy : ∀ k, ∃ b, copyBackSet t nfds sock_nfds sets new newsock k = some b := by
    intro k
    unfold copyBackSet copyBack
    cases hset : sets k with
    | none => exact ⟨none, rfl⟩
    | some set =>
      dsimp only
      rw [if_neg (not_lt.mpr (hlen k set hset))]
      exact ⟨_, rfl⟩
  obtain ⟨readfds, hread⟩ := hcopy .read
  obtain ⟨writefds, hwrite⟩ := hcopy .write
  obtain ⟨exceptfds, hexcept⟩ := hcopy .except
  unfold copyBackAll
  rw [hread, hwrite, hexcept]
  exact ⟨_, rfl⟩

theorem sockWait_promptOs : (sockWait promptOs t nfds sets i).2 k =
    ((sockSets t nfds sets).1 k).getD 0 := by
  unfold sockWait
  dsimp only
  split
  · rfl
  · rfl

theorem sockWait_promptOs_nonneg : 0 ≤ (sockWait promptOs t nfds sets i).1 := by
  unfold sockWait
  dsimp only
  split
  · exact le_refl 0
  · exact Int.natCast_nonneg _

theorem select_promptOs (hopen : ¬ SelectRefused t nfds sets) :
    ∃ out, select 1 promptOs t nfds sets (some ⟨0, 0⟩) = some (.ok out) := by
  unfold SelectRefused at hopen
  push Not at hopen
  obtain ⟨hopen, hlen⟩ := hopen
  have hwanted : ∀ fd < (limitFds nfds).toNat, t.devicehandle fd = none →
      wanted sets fd = false := by
    intro fd hfd hd
    have hnone : ∀ k, isset sets fd k = false := by
      intro k
      rw [Bool.eq_false_iff]
      intro hk
      exact hopen k fd ((lt_limitFds hk).mp hfd) hk hd
    unfold wanted
    rw [hnone, hnone, hnone]
    rfl
  have hlimit : ∀ k set, sets k = some set → 0 ≤ (limitFds nfds + 7) / 8 := by
    intro k set hset
    have hge : -7 ≤ nfds := by
      by_contra hlt
      exact hlen (not_le.mp hlt) k set hset
    unfold limitFds
    split <;> omega
  have hscan := @scanFds_promptOs t sets 0 _ (fun _ => 0) 0 hwanted
  obtain ⟨⟨new, live⟩, hscan⟩ := hscan
  have hback := @copyBackAll_isSome t (limitFds nfds) sets new
    (sockSets t (limitFds nfds) sets).2 (sockWait promptOs t (limitFds nfds) sets 0).2 hlimit
  obtain ⟨back, hback⟩ := hback
  unfold select
  dsimp only
  rw [if_pos (And.intro rfl rfl), selectLoop, hscan]
  dsimp only
  rw [if_neg (not_lt.mpr sockWait_promptOs_nonneg), if_pos (Or.inr rfl)]
  unfold selectEnd
  rw [hback]
  exact ⟨_, rfl⟩

theorem setSize_eq_card :
    setSize sets k = ((Finset.range FD_SETSIZE).filter fun fd => isset sets fd k).card := by
  unfold setSize isset
  cases sets k with
  | none =>
    rw [eq_comm, Finset.card_eq_zero, Finset.filter_eq_empty_iff]
    exact fun fd _ => Bool.false_ne_true
  | some set => rfl

def pastOf (nfds : ℤ) (sets : SetKind → Option FdSet) (k : SetKind) : Finset ℕ :=
  (Finset.range FD_SETSIZE).filter fun fd =>
    isset sets fd k && decide (8 * ((nfds + 7) / 8).toNat ≤ fd)

theorem mem_pastOf : fd ∈ pastOf nfds sets k ↔
    isset sets fd k = true ∧ 8 * ((nfds + 7) / 8).toNat ≤ fd := by
  unfold pastOf
  rw [Finset.mem_filter, Finset.mem_range, Bool.and_eq_true, decide_eq_true_eq]
  exact ⟨And.right, fun h => ⟨isset_lt h.1, h⟩⟩

theorem card_sockWait_promptOs_le :
    (if (sets k).isSome then (elems ((sockWait promptOs t nfds sets i).2 k)).card else 0) ≤
      ((translatedOf t nfds sets k).image (handleOf t)).card := by
  split
  · rename_i hk
    apply Finset.card_le_card
    intro h hh
    rw [mem_elems] at hh
    exact isset_sockSets.mp (sockWait_subset sockWait_promptOs_nonneg hk hh)
  · exact Nat.zero_le _

/-- **What a right answer tells about the returned sets**: they have the descriptors that are
ready, all the sockets that were passed, and what lies past the copied bytes. -/
theorem SelectSound.le_setSize (h : SelectSound promptOs t nfds sets out)
    (hr : LastRound promptOs t (limitFds nfds) sets out new) (k : SetKind) :
    (readyFds promptOs t sets out.round (limitFds nfds).toNat k).card +
      (socketsOf t sets (limitFds nfds).toNat k).card + (pastOf (limitFds nfds) sets k).card ≤
      setSize out.sets k := by
  have hdisj : Disjoint (readyFds promptOs t sets out.round (limitFds nfds).toNat k)
      (socketsOf t sets (limitFds nfds).toNat k) := by
    rw [Finset.disjoint_left]
    intro fd hfd hfd'
    have hready := (Finset.mem_filter.mp hfd).2
    rw [(mem_socketsOf.mp hfd').2.2, Bool.not_true, Bool.and_false] at hready
    cases hready
  have hpast : Disjoint (readyFds promptOs t sets out.round (limitFds nfds).toNat k ∪
      socketsOf t sets (limitFds nfds).toNat k) (pastOf (limitFds nfds) sets k) := by
    rw [Finset.disjoint_left]
    intro fd hfd hfd'
    have hge := (mem_pastOf.mp hfd').2
    rcases Finset.mem_union.mp hfd with hfd | hfd
    · have hlt := Finset.mem_range.mp (Finset.mem_filter.mp hfd).1
      omega
    · have hlt := (mem_socketsOf.mp hfd).1
      omega
  rw [setSize_eq_card, ← Finset.card_union_of_disjoint hdisj,
    ← Finset.card_union_of_disjoint hpast]
  apply Finset.card_le_card
  intro fd hfd
  have hout : isset out.sets fd k = true := by
    rcases Finset.mem_union.mp hfd with hfd | hfd
    · rcases Finset.mem_union.mp hfd with hfd | hfd
      · obtain ⟨hlt, hready⟩ := Finset.mem_filter.mp hfd
        rw [Bool.and_eq_true, Bool.not_eq_true'] at hready
        exact hr.isset_of_deviceReady (Finset.mem_range.mp hlt) hready.1 hready.2
      · obtain ⟨hlt, hk, hs⟩ := mem_socketsOf.mp hfd
        have hlt' := (lt_limitFds hk).mp hlt
        obtain ⟨d, hd, htype⟩ := isSocket_iff.mp hs
        obtain ⟨hwait, -⟩ := h.waits k fd d hlt' hk hd htype
        obtain ⟨set, hset, hbit⟩ := isset_iff.mp hwait
        refine (h.ready k fd hlt').mpr ⟨hk, ?_⟩
        unfold reported
        rw [hd]
        dsimp only
        rw [if_pos htype, sockWait_promptOs, hset]
        exact hbit
    · obtain ⟨hk, hge⟩ := mem_pastOf.mp hfd
      exact (hr.isset_past (by omega)).mpr ⟨hge, hk⟩
  exact Finset.mem_filter.mpr ⟨Finset.mem_range.mpr (isset_lt hout), hout⟩

theorem SelectSound.card_eq (h : SelectSound promptOs t nfds sets out)
    (hr : LastRound promptOs t (limitFds nfds) sets out new) (k : SetKind) :
    (socketsOf t sets (limitFds nfds).toNat k).card ≤
      ((translatedOf t (limitFds nfds) sets k).image (handleOf t)).card ∧
    (pastOf (limitFds nfds) sets k).card = 0 := by
  have hcount := h.count
  rw [hr.live_fds, sockWait_result hr.result] at hcount
  have hsub : ∀ k, ((translatedOf t (limitFds nfds) sets k).image (handleOf t)).card ≤
      (socketsOf t sets (limitFds nfds).toNat k).card := by
    intro k
    refine Finset.card_image_le.trans (Finset.card_le_card fun fd hfd => ?_)
    exact (mem_translatedOf.mp hfd).1
  have hle := h.le_setSize hr
  have hwait : ∀ k, (if (sets k).isSome then
      (elems ((sockWait promptOs t (limitFds nfds) sets out.round).2 k)).card else 0) ≤
      ((translatedOf t (limitFds nfds) sets k).image (handleOf t)).card :=
    fun _ => card_sockWait_promptOs_le
  have hread := And.intro (hle .read) (And.intro (hwait .read) (hsub .read))
  have hwrite := And.intro (hle .write) (And.intro (hwait .write) (hsub .write))
  have hexcept := And.intro (hle .except) (And.intro (hwait .except) (hsub .except))
  unfold SetKind.sum at hcount
  dsimp only at hcount
  cases k with
  | read => omega
  | write => omega
  | except => omega

/-- A right answer of a `select` with these answers is one to a clean call. -/
theorem SelectSound.clean (h : SelectSound promptOs t nfds sets out)
    (hr : LastRound promptOs t (limitFds nfds) sets out new) : SelectClean t nfds sets := by
  have hall : ∀ k, translatedOf t (limitFds nfds) sets k =
      socketsOf t sets (limitFds nfds).toNat k := by
    intro k
    refine Finset.eq_of_subset_of_card_le (fun fd hfd => (mem_translatedOf.mp hfd).1) ?_
    exact (h.card_eq hr k).1.trans Finset.card_image_le
  refine ⟨fun k fd hk => ?_, fun k fd hfd hk hs => ?_, ?_⟩
  · have hpast := (h.card_eq hr k).2
    rw [Finset.card_eq_zero, Finset.eq_empty_iff_forall_notMem] at hpast
    have hnot := fun hge => hpast fd (mem_pastOf.mpr ⟨hk, hge⟩)
    have hlt := not_le.mp hnot
    omega
  · have hmem := mem_socketsOf.mpr ⟨(lt_limitFds hk).mpr hfd, hk, hs⟩
    rw [← hall k] at hmem
    exact (mem_translatedOf.mp hmem).2
  · intro k fd fd' d d' hfd hfd' hk hk' hd hd' htype htype' heq
    have hinj : Set.InjOn (handleOf t) (translatedOf t (limitFds nfds) sets k) := by
      rw [← Finset.card_image_iff]
      refine le_antisymm Finset.card_image_le ?_
      rw [hall k]
      have hle := (h.card_eq hr k).1
      rw [hall k] at hle
      exact hle
    rw [hall k] at hinj
    refine hinj (mem_socketsOf.mpr ⟨(lt_limitFds hk).mpr hfd, hk, isSocket_iff.mpr ⟨d, hd, htype⟩⟩)
      (mem_socketsOf.mpr ⟨(lt_limitFds hk').mpr hfd', hk', isSocket_iff.mpr ⟨d', hd', htype'⟩⟩) ?_
    rw [handleOf_eq hd, handleOf_eq hd', heq]

theorem select_ok {fuel : ℕ} {timeout : Option Timeval}
    (h : select fuel os t nfds sets timeout = some (.ok out)) :
    ∃ new, LastRound os t (limitFds nfds) sets out new := by
  have hnew : OnlySockets t sets (limitFds nfds).toNat fun _ => 0 := by
    intro k fd hbit
    rw [BitVec.ofNat_eq_ofNat, BitVec.getLsbD_zero] at hbit
    cases hbit
  unfold select at h
  dsimp only at h
  split at h
  · exact selectLoop_ok limitFds_le hnew h
  · split at h
    · exact selectLoop_ok limitFds_le hnew h
    · split at h
      · cases h
      · exact selectLoop_ok limitFds_le hnew h

theorem LastRound.not_refused (h : LastRound os t (limitFds nfds) sets out new) :
    ¬ SelectRefused t nfds sets := by
  rintro (⟨k, fd, hfd, hk, hd⟩ | ⟨hneg, k, set, hset⟩)
  · rw [h.opened fd ((lt_limitFds hk).mpr hfd) hd k] at hk
    cases hk
  · obtain ⟨back, -, hcopy⟩ := h.copied k set hset
    have hlimit : limitFds nfds = nfds := by
      have hsize : (0 : ℤ) ≤ FD_SETSIZE := Int.natCast_nonneg FD_SETSIZE
      unfold limitFds
      rw [if_neg (by omega)]
    unfold copyBack at hcopy
    rw [hlimit, if_pos (by omega)] at hcopy
    cases hcopy

def twoSockets : Descriptors where
  devicehandle fd :=
    if fd = 20 then some ⟨DEV_SOCKET, 3, 1⟩ else if fd = 35 then some ⟨DEV_SOCKET, 5, 1⟩ else none
  maxfd := FD_SETSIZE
  socket_fd_set := insert (insert 0 20) 35
  socket_fd_set_initialised := true
  of_socket_fd_set fd hfd := by
    rw [getLsbD_insert, getLsbD_insert, BitVec.ofNat_eq_ofNat, BitVec.getLsbD_zero] at hfd
    simp only [Bool.false_or, Bool.or_eq_true, Bool.and_eq_true, decide_eq_true_eq] at hfd
    rcases hfd with ⟨-, rfl⟩ | ⟨-, rfl⟩
    · exact ⟨⟨DEV_SOCKET, 3, 1⟩, rfl, rfl⟩
    · exact ⟨⟨DEV_SOCKET, 5, 1⟩, rfl, rfl⟩
  handle_lt fd d hd _ := by
    split at hd
    · cases hd
      decide
    · split at hd
      · cases hd
        decide
      · cases hd

def bothToRead : SetKind → Option FdSet
  | .read => some (insert (insert 0 20) 35)
  | .write => none
  | .except => none

theorem isset_bothToRead (hk : isset bothToRead fd k = true) : fd = 20 ∨ fd = 35 := by
  obtain ⟨set, hset, hbit⟩ := isset_iff.mp hk
  cases k with
  | read =>
    cases hset
    rw [getLsbD_insert, getLsbD_insert, BitVec.ofNat_eq_ofNat, BitVec.getLsbD_zero] at hbit
    simp only [Bool.false_or, Bool.or_eq_true, Bool.and_eq_true, decide_eq_true_eq] at hbit
    exact hbit.imp (fun h => h.2.symm) fun h => h.2.symm
  | write => cases hset
  | except => cases hset

end UnixLib
