import Gccsdk.UnixLib.SelectSets
import Mathlib.Data.Finset.Insert

/-!
# The rounds of a `select`

A round asks the devices of the descriptors one by one (`scanFds_ok`); a call that returns did so
in a last round (`LastRound`), and the rounds before it have left nothing in the new sets but the
sockets, which every round puts there for the socket layer to take out.
-/

namespace UnixLib

open BitSet

variable {os : SelectOs} {t : Descriptors} {nfds : ℤ} {sets : SetKind → Option FdSet} {k : SetKind}
  {fd i n : ℕ} {new new' : SetKind → FdSet} {live live' : ℤ}

/-! ### The descriptors -/

theorem selectFunc_eq_sockselect {type : ℕ} :
    selectFunc type = .sockselect ↔ type = DEV_SOCKET := by
  unfold selectFunc
  split
  · rename_i hlt
    interval_cases type <;> decide
  · rename_i hge
    constructor
    · intro h
      cases h
    · rintro rfl
      exact absurd (by decide) hge

theorem isSocket_iff : t.isSocket fd = true ↔
    ∃ d, t.devicehandle fd = some d ∧ d.type = DEV_SOCKET := by
  unfold Descriptors.isSocket
  cases t.devicehandle fd with
  | none =>
    constructor
    · intro h
      cases h
    · rintro ⟨d, hd, -⟩
      cases hd
  | some d =>
    rw [decide_eq_true_eq]
    constructor
    · intro h
      exact ⟨d, rfl, h⟩
    · rintro ⟨d', hd', h⟩
      cases hd'
      exact h

theorem isSocket_of_scanSockets (h : (t.scanSockets n).getLsbD fd = true) :
    t.isSocket fd = true := by
  induction n with
  | zero =>
    rw [Descriptors.scanSockets, BitVec.ofNat_eq_ofNat, BitVec.getLsbD_zero] at h
    cases h
  | succ n ih =>
    rw [Descriptors.scanSockets] at h
    split at h
    · rename_i hn
      rw [getLsbD_insert, Bool.or_eq_true, Bool.and_eq_true, decide_eq_true_eq,
        decide_eq_true_eq] at h
      rcases h with h | ⟨-, rfl⟩
      · exact ih h
      · exact hn
    · exact ih h

theorem isSocket_of_recorded (h : t.recorded.getLsbD fd = true) : t.isSocket fd = true := by
  unfold Descriptors.recorded at h
  split at h
  · exact isSocket_iff.mpr (t.of_socket_fd_set fd h)
  · exact isSocket_of_scanSockets h

/-! ### The round over the descriptors -/

/-- The descriptor's device puts it in this set: the word of the devices in round `i`, and for a
socket what is set before the socket layer is asked. -/
def deviceReady (os : SelectOs) (t : Descriptors) (sets : SetKind → Option FdSet) (i fd : ℕ)
    (k : SetKind) : Bool :=
  match t.devicehandle fd with
  | some d => isset sets fd k && (deviceSelect os i fd d (isset sets fd)).2 k
  | none => false

/-- The descriptors below `n` other than sockets that are ready. -/
def readyFds (os : SelectOs) (t : Descriptors) (sets : SetKind → Option FdSet) (i n : ℕ)
    (k : SetKind) : Finset ℕ :=
  (Finset.range n).filter fun fd => deviceReady os t sets i fd k && !t.isSocket fd

theorem deviceReady_le (h : deviceReady os t sets i fd k = true) : isset sets fd k = true := by
  unfold deviceReady at h
  split at h
  · exact (Bool.and_eq_true _ _ ▸ h).1
  · cases h

theorem deviceReady_of_isSocket (hs : t.isSocket fd = true) (hk : isset sets fd k = true) :
    deviceReady os t sets i fd k = true := by
  obtain ⟨d, hd, htype⟩ := isSocket_iff.mp hs
  unfold deviceReady deviceSelect
  rw [hd]
  dsimp only
  rw [hk, selectFunc_eq_sockselect.mpr htype]
  rfl

theorem SetKind.sum_eq_zero {f : SetKind → ℕ} (h : ∀ k, f k = 0) : SetKind.sum f = 0 := by
  unfold SetKind.sum
  rw [h, h, h]

theorem SetKind.le_sum (f : SetKind → ℕ) (k : SetKind) : f k ≤ SetKind.sum f := by
  unfold SetKind.sum
  cases k with
  | read => omega
  | write => omega
  | except => omega

theorem SetKind.sum_add {f g : SetKind → ℕ} :
    SetKind.sum (fun k => f k + g k) = SetKind.sum f + SetKind.sum g := by
  unfold SetKind.sum
  dsimp only
  omega

theorem deviceSelect_result {d : DeviceHandle} {wants : SetKind → Bool}
    (hd : d.type ≠ DEV_SOCKET) (hpos : 0 ≤ (deviceSelect os i fd d wants).1) :
    (deviceSelect os i fd d wants).1 = (SetKind.sum fun k =>
      if wants k && (deviceSelect os i fd d wants).2 k then 1 else 0 : ℕ) := by
  unfold deviceSelect at hpos ⊢
  have hne : selectFunc d.type ≠ .sockselect := fun h => hd (selectFunc_eq_sockselect.mp h)
  cases hsel : selectFunc d.type with
  | nullselect => cases hr : wants .read <;> cases hw : wants .write <;> simp [SetKind.sum, nullselect, hr, hw]
  | ttyselect =>
    cases hr : wants .read <;> cases hw : wants .write <;> cases hready : os.ttyReady i fd <;>
      simp [SetKind.sum, hr, hw]
  | pipeselect =>
    cases hr : wants .read <;> cases hw : wants .write <;>
      cases hready : (os.pipeData i fd || decide (d.refcount < 2)) <;>
      simp [SetKind.sum, hr, hw]
  | sockselect => exact absurd hsel hne
  | customselect =>
    rw [hsel] at hpos
    exact os.cselect_result i fd wants hpos

theorem readyFds_succ : readyFds os t sets i (n + 1) k =
    if deviceReady os t sets i n k && !t.isSocket n then Insert.insert n (readyFds os t sets i n k)
    else readyFds os t sets i n k := by
  unfold readyFds
  rw [Finset.range_add_one, Finset.filter_insert]

theorem card_readyFds_succ : (readyFds os t sets i (n + 1) k).card =
    (readyFds os t sets i n k).card +
      if deviceReady os t sets i n k && !t.isSocket n then 1 else 0 := by
  rw [readyFds_succ]
  split
  · rw [Finset.card_insert_of_notMem]
    intro hmem
    exact absurd (Finset.mem_range.mp (Finset.mem_filter.mp hmem).1) (lt_irrefl n)
  · rfl

theorem setWanted_apply {wants ready : SetKind → Bool} {f : ℕ} (hfd : fd < FD_SETSIZE) :
    (setWanted fd wants ready new k).getLsbD f =
      ((new k).getLsbD f || (wants k && ready k && decide (fd = f))) := by
  unfold setWanted
  split
  · rename_i h
    rw [getLsbD_insert, h, decide_eq_true hfd]
  · rename_i h
    rw [Bool.eq_false_iff.mpr h, Bool.false_and, Bool.or_false]

/-- `FD_SET` alone gives the descriptor's bit when it was not set before. -/
theorem setWanted_bit {wants ready : SetKind → Bool} {f : ℕ} {b : Bool} (hfd : fd < FD_SETSIZE)
    (hnew : (new k).getLsbD fd = true → b = true) (hb : (wants k && ready k) = b) :
    (setWanted fd wants ready new k).getLsbD f = if fd = f then b else (new k).getLsbD f := by
  rw [setWanted_apply hfd, hb]
  split
  · rename_i hf
    subst hf
    rw [decide_eq_true rfl, Bool.and_true]
    cases b with
    | true => exact Bool.or_true _
    | false =>
      rw [Bool.or_false, Bool.eq_false_iff]
      intro hbit
      cases hnew hbit
  · rename_i hf
    rw [decide_eq_false hf, Bool.and_false, Bool.or_false]

theorem setReady_bit {wants ready : SetKind → Bool} {f : ℕ} (hfd : fd < FD_SETSIZE)
    (hnew : (new k).getLsbD fd = true → (wants k && ready k) = true) :
    (setReady fd wants ready new k).getLsbD f =
      if fd = f then wants k && ready k else (new k).getLsbD f := by
  unfold setReady
  cases hw : wants k with
  | false =>
    rw [if_neg Bool.false_ne_true, Bool.false_and]
    split
    · rename_i hf
      subst hf
      rw [hw, Bool.false_and] at hnew
      exact Bool.eq_false_iff.mpr fun hbit => Bool.false_ne_true (hnew hbit)
    · rfl
  | true =>
    rw [if_pos rfl, Bool.true_and]
    cases ready k with
    | true =>
      rw [if_pos rfl, getLsbD_insert, decide_eq_true hfd, Bool.true_and]
      split
      · rename_i hf
        rw [decide_eq_true hf, Bool.or_true]
      · rename_i hf
        rw [decide_eq_false hf, Bool.or_false]
    | false =>
      rw [if_neg Bool.false_ne_true, getLsbD_erase]
      split
      · rename_i hf
        rw [decide_eq_false (not_not.mpr hf), Bool.and_false]
      · rename_i hf
        rw [decide_eq_true hf, Bool.and_true]

theorem not_wanted (h : wanted sets fd = false) (k : SetKind) : isset sets fd k = false := by
  unfold wanted at h
  rw [Bool.or_eq_false_iff, Bool.or_eq_false_iff] at h
  cases k with
  | read => exact h.1.1
  | write => exact h.1.2
  | except => exact h.2

/-- **One descriptor of the round.** It is in the sets its device puts it in, and counted in
`live_fds` unless it is a socket. -/
theorem scanFds_succ {r : (SetKind → FdSet) × ℤ} (hn : n < FD_SETSIZE)
    (hnew : ∀ k, (new k).getLsbD n = true → deviceReady os t sets i n k = true)
    (h : scanFds os t sets i (n + 1) new live = .ok r) :
    ∃ new₁, scanFds os t sets i n new₁ (live + (SetKind.sum fun k =>
        if deviceReady os t sets i n k && !t.isSocket n then 1 else 0 : ℕ)) = .ok r ∧
      (∀ k f, (new₁ k).getLsbD f =
        if n = f then deviceReady os t sets i n k else (new k).getLsbD f) ∧
      (t.devicehandle n = none → ∀ k, isset sets n k = false) := by
  -- a set that is left as it was
  have hkeep : ∀ k f, deviceReady os t sets i n k = false → (new k).getLsbD f =
      if n = f then deviceReady os t sets i n k else (new k).getLsbD f := by
    intro k f hnot
    split
    · rename_i hf
      subst hf
      rw [hnot]
      exact Bool.eq_false_iff.mpr fun hbit => Bool.eq_false_iff.mp hnot (hnew k hbit)
    · rfl
  rw [scanFds] at h
  cases hd : t.devicehandle n with
  | none =>
    have hready : ∀ k, deviceReady os t sets i n k = false := by
      intro k
      unfold deviceReady
      rw [hd]
    rw [hd] at h
    dsimp only at h
    split at h
    · cases h
    · rename_i hnot
      have hnone := not_wanted (Bool.eq_false_iff.mpr hnot)
      refine ⟨new, ?_, fun k f => hkeep k f (hready k), fun _ => hnone⟩
      rw [SetKind.sum_eq_zero fun k => by rw [hready k]; rfl, Nat.cast_zero, add_zero]
      exact h
  | some d =>
    have hready : ∀ k, deviceReady os t sets i n k =
        (isset sets n k && (deviceSelect os i n d (isset sets n)).2 k) := by
      intro k
      unfold deviceReady
      rw [hd]
    rw [hd] at h
    dsimp only at h
    by_cases hsock : d.type = DEV_SOCKET
    · -- the socket layer has the last word, and counts
      have hs : t.isSocket n = true := isSocket_iff.mpr ⟨d, hd, hsock⟩
      rw [selectFunc_eq_sockselect.mpr hsock] at h
      refine ⟨setWanted n (isset sets n) (fun _ => true) new, ?_, fun k f => ?_, nofun⟩
      · rw [SetKind.sum_eq_zero fun k => by rw [hs, Bool.not_true, Bool.and_false]; rfl,
          Nat.cast_zero, add_zero]
        exact h
      · have hall : deviceReady os t sets i n k = isset sets n k := by
          rw [hready k]
          unfold deviceSelect
          rw [selectFunc_eq_sockselect.mpr hsock]
          exact Bool.and_true _
        exact setWanted_bit hn (hnew k) (by rw [hall, Bool.and_true])
    · have hs : t.isSocket n = false := by
        rw [Bool.eq_false_iff]
        intro hs
        obtain ⟨d', hd', htype⟩ := isSocket_iff.mp hs
        rw [hd] at hd'
        cases hd'
        exact hsock htype
      have hcount : 0 ≤ (deviceSelect os i n d (isset sets n)).1 →
          (deviceSelect os i n d (isset sets n)).1 = (SetKind.sum fun k =>
            if deviceReady os t sets i n k && !t.isSocket n then 1 else 0 : ℕ) := by
        intro hpos
        rw [deviceSelect_result hsock hpos]
        simp only [hready, hs, Bool.not_false, Bool.and_true]
      split at h
      · rename_i hnull
        have hresult : (deviceSelect os i n d (isset sets n)).1 =
            (if isset sets n .read then 1 else 0) + (if isset sets n .write then 1 else 0) := by
          unfold deviceSelect
          rw [hnull]
        refine ⟨setWanted n (isset sets n) nullselect new, ?_, fun k f => ?_, nofun⟩
        · have hpos : 0 ≤ (deviceSelect os i n d (isset sets n)).1 := by
            rw [hresult]
            split <;> split <;> decide
          rw [← hcount hpos, hresult, ← add_assoc]
          exact h
        · refine setWanted_bit hn (hnew k) ?_
          rw [hready k]
          unfold deviceSelect
          rw [hnull]
      · rename_i hfunc
        exact absurd (selectFunc_eq_sockselect.mp hfunc) hsock
      · split at h
        · split at h
          · cases h
          · rename_i hpos
            refine ⟨setReady n (isset sets n) (deviceSelect os i n d (isset sets n)).2 new, ?_,
              fun k f => ?_, nofun⟩
            · rw [← hcount (not_lt.mp hpos)]
              exact h
            · have hnew' := hnew k
              rw [hready k] at hnew' ⊢
              exact setReady_bit hn hnew'
        · rename_i hnot
          have hnone := not_wanted (Bool.eq_false_iff.mpr hnot)
          have hfalse : ∀ k, deviceReady os t sets i n k = false := by
            intro k
            rw [hready k, hnone k, Bool.false_and]
          refine ⟨new, ?_, fun k f => hkeep k f (hfalse k), nofun⟩
          rw [SetKind.sum_eq_zero fun k => by rw [hfalse k]; rfl, Nat.cast_zero, add_zero]
          exact h

/-- **The round.** The new sets hold the descriptors below `n` that are ready, and `live_fds` is
the number of those that are not sockets. -/
theorem scanFds_ok (hn : n ≤ FD_SETSIZE)
    (hnew : ∀ k, ∀ fd < n, (new k).getLsbD fd = true → deviceReady os t sets i fd k = true)
    (h : scanFds os t sets i n new live = .ok (new', live')) :
    (∀ k fd, (new' k).getLsbD fd =
      if fd < n then deviceReady os t sets i fd k else (new k).getLsbD fd) ∧
    live' = live + (SetKind.sum fun k => (readyFds os t sets i n k).card : ℕ) ∧
    ∀ fd < n, t.devicehandle fd = none → ∀ k, isset sets fd k = false := by
  induction n generalizing new live with
  | zero =>
    cases h
    refine ⟨fun k fd => (if_neg (Nat.not_lt_zero fd)).symm, ?_, fun fd hfd => by cases hfd⟩
    rw [SetKind.sum_eq_zero fun k => by unfold readyFds; rfl, Nat.cast_zero, add_zero]
  | succ n ih =>
    obtain ⟨new₁, hrest, hbits, hopen⟩ :=
      scanFds_succ hn (fun k => hnew k n (Nat.lt_succ_self n)) h
    have hnew₁ : ∀ k, ∀ fd < n, (new₁ k).getLsbD fd = true →
        deviceReady os t sets i fd k = true := by
      intro k fd hfd hbit
      rw [hbits, if_neg (Nat.ne_of_gt hfd)] at hbit
      exact hnew k fd (Nat.lt_succ_of_lt hfd) hbit
    obtain ⟨hset, hlive, hclosed⟩ := ih (Nat.le_of_succ_le hn) hnew₁ hrest
    refine ⟨fun k fd => ?_, ?_, fun fd hfd => ?_⟩
    · rw [hset, hbits]
      rcases lt_trichotomy fd n with hlt | rfl | hgt
      · rw [if_pos hlt, if_pos (Nat.lt_succ_of_lt hlt)]
      · rw [if_neg (lt_irrefl fd), if_pos rfl, if_pos (Nat.lt_succ_self fd)]
      · rw [if_neg (not_lt_of_gt hgt), if_neg (Nat.ne_of_lt hgt), if_neg (by omega)]
    · have hcard : (fun k => (readyFds os t sets i (n + 1) k).card) = fun k =>
          (readyFds os t sets i n k).card +
            if deviceReady os t sets i n k && !t.isSocket n then 1 else 0 :=
        funext fun k => card_readyFds_succ
      rw [hlive, hcard, SetKind.sum_add]
      push_cast
      omega
    · rcases Nat.lt_succ_iff_lt_or_eq.mp hfd with hfd | rfl
      · exact hclosed fd hfd
      · exact hopen

/-! ### The rounds of a call -/

/-- What a `select` that returns did in its last round. -/
structure LastRound (os : SelectOs) (t : Descriptors) (nfds : ℤ) (sets : SetKind → Option FdSet)
    (out : SelectReturn) (new : SetKind → FdSet) : Prop where
  /-- The socket layer had no error, -/
  result : 0 ≤ (sockWait os t nfds sets out.round).1
  /-- the new sets are what the devices said, -/
  new_bit : ∀ k fd, (new k).getLsbD fd =
    (decide (fd < nfds.toNat) && deviceReady os t sets out.round fd k)
  /-- they were copied back, -/
  copied : ∀ k set, sets k = some set → ∃ back, out.sets k = some back ∧
    copyBack t nfds (sockSets t nfds sets).2 set (new k)
      ((sockWait os t nfds sets out.round).2 k) = some back
  null : ∀ k, sets k = none → out.sets k = none
  /-- the number is that of the devices and of the socket layer, -/
  live_fds : out.live_fds = (SetKind.sum fun k =>
    (readyFds os t sets out.round nfds.toNat k).card : ℕ) + (sockWait os t nfds sets out.round).1
  /-- and no closed descriptor was in a set. -/
  opened : ∀ fd < nfds.toNat, t.devicehandle fd = none → ∀ k, isset sets fd k = false

theorem copyBackSet_ok {sock_nfds : ℕ} {newsock : SetKind → FdSet} {back : Option FdSet}
    (h : copyBackSet t nfds sock_nfds sets new newsock k = some back) :
    (∀ set, sets k = some set → ∃ b, back = some b ∧
      copyBack t nfds sock_nfds set (new k) (newsock k) = some b) ∧
    (sets k = none → back = none) := by
  unfold copyBackSet at h
  cases hset : sets k with
  | none =>
    rw [hset] at h
    cases h
    exact ⟨nofun, fun _ => rfl⟩
  | some set =>
    rw [hset] at h
    obtain ⟨b, hb, rfl⟩ := Option.map_eq_some_iff.mp h
    refine ⟨fun set' hset' => ?_, nofun⟩
    cases hset'
    exact ⟨b, rfl, hb⟩

theorem copyBackAll_ok {sock_nfds : ℕ} {newsock : SetKind → FdSet}
    {back : SetKind → Option FdSet}
    (h : copyBackAll t nfds sock_nfds sets new newsock = some back) (k : SetKind) :
    copyBackSet t nfds sock_nfds sets new newsock k = some (back k) := by
  unfold copyBackAll at h
  rw [Option.bind_eq_bind, Option.bind_eq_some_iff] at h
  obtain ⟨readfds, hread, h⟩ := h
  rw [Option.bind_eq_some_iff] at h
  obtain ⟨writefds, hwrite, h⟩ := h
  rw [Option.bind_eq_some_iff] at h
  obtain ⟨exceptfds, hexcept, h⟩ := h
  cases h
  cases k with
  | read => exact hread
  | write => exact hwrite
  | except => exact hexcept

def OnlySockets (t : Descriptors) (sets : SetKind → Option FdSet) (n : ℕ) (new : SetKind → FdSet) :
    Prop :=
  ∀ k fd, (new k).getLsbD fd = true → fd < n ∧ isset sets fd k = true ∧ t.isSocket fd = true

/-- **The rounds of a call.** The new sets hold nothing but sockets when a round begins, so those
of the last round are what the devices say in that round. -/
theorem selectLoop_ok {timeout : Option Timeval} {zerotime : Bool} {now finish : BitVec 32}
    {fuel : ℕ} {out : SelectReturn} (hn : nfds.toNat ≤ FD_SETSIZE)
    (hnew : OnlySockets t sets nfds.toNat new)
    (h : selectLoop os t nfds sets timeout zerotime now finish fuel i new = some (.ok out)) :
    ∃ new', LastRound os t nfds sets out new' := by
  induction fuel generalizing i new with
  | zero => cases h
  | succ fuel ih =>
    rw [selectLoop] at h
    cases hscan : scanFds os t sets i nfds.toNat new 0 with
    | error e =>
      rw [hscan] at h
      cases h
    | ok r =>
      obtain ⟨new₁, live₁⟩ := r
      have hpre : ∀ k, ∀ fd < nfds.toNat, (new k).getLsbD fd = true →
          deviceReady os t sets i fd k = true := by
        intro k fd _ hbit
        obtain ⟨-, hk, hs⟩ := hnew k fd hbit
        exact deviceReady_of_isSocket hs hk
      obtain ⟨hset, hlive, hopen⟩ := scanFds_ok hn hpre hscan
      have hbits : ∀ k fd, (new₁ k).getLsbD fd =
          (decide (fd < nfds.toNat) && deviceReady os t sets i fd k) := by
        intro k fd
        rw [hset]
        split
        · rename_i hfd
          rw [decide_eq_true hfd, Bool.true_and]
        · rename_i hfd
          rw [decide_eq_false hfd, Bool.false_and, Bool.eq_false_iff]
          intro hbit
          exact hfd (hnew k fd hbit).1
      rw [zero_add] at hlive
      rw [hscan] at h
      dsimp only at h
      split at h
      · cases h
      · rename_i hpos
        -- the call ends in this round
        have hend : ∀ left, selectEnd t nfds sets new₁ (sockWait os t nfds sets i).2
            (live₁ + (sockWait os t nfds sets i).1) left i = some (.ok out) →
            LastRound os t nfds sets out new₁ := by
          intro left hend
          unfold selectEnd at hend
          rw [Option.bind_eq_bind, Option.bind_eq_some_iff] at hend
          obtain ⟨back, hback, hend⟩ := hend
          cases hend
          refine ⟨not_lt.mp hpos, hbits, fun k => (copyBackSet_ok (copyBackAll_ok hback k)).1,
            fun k => (copyBackSet_ok (copyBackAll_ok hback k)).2, ?_, hopen⟩
          rw [← hlive]
        split at h
        · exact ⟨new₁, hend _ h⟩
        · rename_i hdead
          split at h
          · exact ⟨new₁, hend _ h⟩
          · -- nothing is live: no device put its descriptor in a set
            refine ih ?_ h
            intro k fd hbit
            rw [hbits, Bool.and_eq_true, decide_eq_true_eq] at hbit
            refine ⟨hbit.1, deviceReady_le hbit.2, ?_⟩
            by_contra hs
            have hmem : fd ∈ readyFds os t sets i nfds.toNat k := by
              unfold readyFds
              rw [Finset.mem_filter, Finset.mem_range, hbit.2, Bool.eq_false_iff.mpr hs]
              exact ⟨hbit.1, rfl⟩
            have hcard := Finset.card_pos.mpr ⟨fd, hmem⟩
            have hle := SetKind.le_sum (fun k => (readyFds os t sets i nfds.toNat k).card) k
            have hzero : live₁ + (sockWait os t nfds sets i).1 = 0 := by
              by_contra hne
              exact hdead (Or.inl hne)
            omega

end UnixLib
