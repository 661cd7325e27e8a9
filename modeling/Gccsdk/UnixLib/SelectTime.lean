import Gccsdk.UnixLib.SelectReturn

/-!
# The time that `select` waits

A `select` with a timeout reads the clock, which counts centiseconds, and works out when it is to end:
whole seconds are 100 ticks, and the microseconds are divided by a million, so that they are one tick
from 950000 on and none below. It returns when the clock is past this deadline.

So the interval is over when it returns if there are fewer than 15000 microseconds, and if the
deadline is not past the end of the clock's 32 bits (`select_waits_iff`). What it writes back when
something is ready earlier is the timeout less the time since the call (`subtract_eq`); it is right
for every timeout whose microseconds are at most a tick below zero.
-/

namespace UnixLib

open BitSet

/-! ### Timeouts and clocks -/

def Timeval.interval (tv : Timeval) : ℤ := tv.tv_sec.toInt * 1000000 + tv.tv_usec.toInt

def Timeval.centiseconds (tv : Timeval) : ℤ := (tv.interval + 5000) / 10000

/-- The timeout is one that `select` accepts. -/
structure Timeval.Accepted (tv : Timeval) : Prop where
  usec : tv.tv_usec.toInt ≤ 1000000
  sec : tv.tv_sec.toInt ≤ 21474835

/-- **A clock that does not go back**: `time` is the time of each reading, and the clock has its low
32 bits. -/
structure SelectOs.Clock (os : SelectOs) (time : ℕ → ℕ) : Prop where
  mono : Monotone time
  reads : ∀ i, os.clock i = BitVec.ofNat 32 (time i)

/-- **`select` keeps to the timeout**, in every call that begins when the clock reads `start`: if
nothing becomes ready it returns when the interval is over, and what it writes back is a time, and
not more than the timeout. -/
def KeepsTimeout (tv : Timeval) (start : BitVec 32) : Prop :=
  ∀ os time t nfds sets fuel out, SelectOs.Clock os time → os.clock 0 = start →
    select fuel os t nfds sets (some tv) = some (.ok out) →
    (out.live_fds = 0 → tv.centiseconds ≤ (time (out.round + 1) : ℤ) - time 0) ∧
      ∃ left, out.timeout = some left ∧ 0 ≤ left.tv_sec.toInt ∧ 0 ≤ left.tv_usec.toInt ∧
        left.interval ≤ tv.interval

def Timeval.ticks (tv : Timeval) : ℤ :=
  100 * tv.tv_sec.toInt + if 950000 ≤ tv.tv_usec.toInt then 1 else 0

/-- **The timeouts that `select` keeps to**, when the clock reads `start`. -/
structure TimeoutFits (tv : Timeval) (start : BitVec 32) : Prop where
  /-- The timeout is not below zero, -/
  interval : 0 ≤ tv.interval
  /-- nor are its microseconds, by more than a tick. -/
  usec : -10000 ≤ tv.tv_usec.toInt
  /-- It is less than half a tick; or its microseconds are less than one tick and a half, and the
  deadline is in the range of the clock; or the deadline is the clock's last value, which it does
  not get past. -/
  deadline : tv.interval < 5000 ∨
    (tv.tv_usec.toInt < 15000 ∧ (start.toNat : ℤ) + 100 * tv.tv_sec.toInt < 2 ^ 32) ∨
    (start.toNat : ℤ) + tv.ticks = 2 ^ 32 - 1

/-! ### The time that is left -/

theorem bmod_of_int32 {x : ℤ} (hlow : -2 ^ 31 ≤ x) (hhigh : x < 2 ^ 31) : x.bmod (2 ^ 32) = x := by
  apply Int.bmod_eq_of_le
  · exact hlow
  · exact hhigh

theorem toInt_sub_of_range {a b : BitVec 32} (hlow : -2 ^ 31 ≤ a.toInt - b.toInt)
    (hhigh : a.toInt - b.toInt < 2 ^ 31) : (a - b).toInt = a.toInt - b.toInt := by
  rw [BitVec.toInt_sub]
  exact bmod_of_int32 hlow hhigh

theorem toInt_add_of_range {a b : BitVec 32} (hlow : -2 ^ 31 ≤ a.toInt + b.toInt)
    (hhigh : a.toInt + b.toInt < 2 ^ 31) : (a + b).toInt = a.toInt + b.toInt := by
  rw [BitVec.toInt_add]
  exact bmod_of_int32 hlow hhigh

theorem toInt_of_small {a : BitVec 32} (h : a.toNat < 2 ^ 31) : a.toInt = a.toNat := by
  apply BitVec.toInt_eq_toNat_of_lt
  omega

/-- The seconds of a time, -/
def secondsOf (spent : BitVec 32) : ℤ := (spent.toNat / 100 : ℕ)

/-- and the microseconds. -/
def microsecondsOf (spent : BitVec 32) : ℤ := (spent.toNat % 100 * 10000 : ℕ)

theorem secondsOf_eq (spent : BitVec 32) : (spent / 100).toInt = secondsOf spent := by
  have hdiv : (spent / 100).toNat = spent.toNat / 100 := BitVec.toNat_udiv
  have hlt := spent.isLt
  rw [toInt_of_small (by omega), hdiv, secondsOf]

theorem microsecondsOf_eq (spent : BitVec 32) : (spent % 100 * 10000).toInt = microsecondsOf spent := by
  have hmod : (spent % 100).toNat = spent.toNat % 100 := BitVec.toNat_umod
  have hmul : (spent % 100 * 10000).toNat = spent.toNat % 100 * 10000 := by
    rw [BitVec.toNat_mul, hmod]
    apply Nat.mod_eq_of_lt
    show spent.toNat % 100 * 10000 < _
    omega
  rw [toInt_of_small (by omega), hmul, microsecondsOf]

theorem microsecondsOf_range (spent : BitVec 32) :
    0 ≤ microsecondsOf spent ∧ microsecondsOf spent ≤ 990000 := by
  rw [microsecondsOf]
  omega

theorem secondsOf_range (spent : BitVec 32) : 0 ≤ secondsOf spent ∧ secondsOf spent < 42949673 := by
  have hlt := spent.isLt
  rw [secondsOf]
  omega

variable {tv : Timeval}

/-- **What is left**: the difference, with a second borrowed for the microseconds; or nothing, if the
seconds are below zero. -/
theorem subtract_eq (start now : BitVec 32) (haccept : tv.Accepted) (hsec : -1 ≤ tv.tv_sec.toInt)
    (husec : -2 ^ 31 ≤ tv.tv_usec.toInt - microsecondsOf (now - start)) :
    ∃ sec usec : ℤ, (0 ≤ usec ∧ usec = tv.tv_usec.toInt - microsecondsOf (now - start) ∧
          sec = tv.tv_sec.toInt - secondsOf (now - start) ∨
        tv.tv_usec.toInt - microsecondsOf (now - start) < 0 ∧
          usec = tv.tv_usec.toInt - microsecondsOf (now - start) + 1000000 ∧
          sec = tv.tv_sec.toInt - 1 - secondsOf (now - start)) ∧
      (sec < 0 ∧ tv.subtract start now = ⟨0, 0⟩ ∨
        0 ≤ sec ∧ (tv.subtract start now).tv_sec.toInt = sec ∧
          (tv.subtract start now).tv_usec.toInt = usec) := by
  obtain ⟨hu, hs⟩ := haccept
  obtain ⟨hp, hp'⟩ := microsecondsOf_range (now - start)
  obtain ⟨hq, hq'⟩ := secondsOf_range (now - start)
  have hdiff : (tv.tv_usec - (now - start) % 100 * 10000).toInt =
      tv.tv_usec.toInt - microsecondsOf (now - start) := by
    rw [toInt_sub_of_range, microsecondsOf_eq]
    · rw [microsecondsOf_eq]
      omega
    · rw [microsecondsOf_eq]
      omega
  have hzero : (0 : BitVec 32).toInt = 0 := rfl
  have hone : (1 : BitVec 32).toInt = 1 := rfl
  have hmillion : (1000000 : BitVec 32).toInt = 1000000 := rfl
  rw [Timeval.subtract]
  dsimp only
  by_cases hborrow : (tv.tv_usec - (now - start) % 100 * 10000).slt 0
  · have hneg := BitVec.slt_iff_toInt_lt.mp hborrow
    rw [hdiff, hzero] at hneg
    have husec' : (tv.tv_usec - (now - start) % 100 * 10000 + 1000000).toInt =
        tv.tv_usec.toInt - microsecondsOf (now - start) + 1000000 := by
      rw [toInt_add_of_range, hdiff, hmillion]
      · rw [hdiff, hmillion]
        omega
      · rw [hdiff, hmillion]
        omega
    have hless : (tv.tv_sec - 1).toInt = tv.tv_sec.toInt - 1 := by
      rw [toInt_sub_of_range, hone]
      · rw [hone]
        omega
      · rw [hone]
        omega
    have hsec' : (tv.tv_sec - 1 - (now - start) / 100).toInt =
        tv.tv_sec.toInt - 1 - secondsOf (now - start) := by
      rw [toInt_sub_of_range, hless, secondsOf_eq]
      · rw [hless, secondsOf_eq]
        omega
      · rw [hless, secondsOf_eq]
        omega
    refine ⟨_, _, .inr ⟨hneg, husec', hsec'⟩, ?_⟩
    rw [if_pos hborrow]
    dsimp only
    by_cases hover : (tv.tv_sec - 1 - (now - start) / 100).slt 0
    · rw [if_pos hover]
      exact .inl ⟨BitVec.slt_iff_toInt_lt.mp hover, rfl⟩
    · rw [if_neg hover]
      exact .inr ⟨Int.not_lt.mp fun h => hover (BitVec.slt_iff_toInt_lt.mpr h), rfl, rfl⟩
  · have hpos : 0 ≤ tv.tv_usec.toInt - microsecondsOf (now - start) := by
      rw [← hdiff]
      exact Int.not_lt.mp fun h => hborrow (BitVec.slt_iff_toInt_lt.mpr h)
    have hsec' : (tv.tv_sec - (now - start) / 100).toInt = tv.tv_sec.toInt - secondsOf (now - start) := by
      rw [toInt_sub_of_range, secondsOf_eq]
      · rw [secondsOf_eq]
        omega
      · rw [secondsOf_eq]
        omega
    refine ⟨_, _, .inl ⟨hdiff.symm ▸ hpos, hdiff, hsec'⟩, ?_⟩
    rw [if_neg hborrow]
    dsimp only
    by_cases hover : (tv.tv_sec - (now - start) / 100).slt 0
    · rw [if_pos hover]
      exact .inl ⟨BitVec.slt_iff_toInt_lt.mp hover, rfl⟩
    · rw [if_neg hover]
      exact .inr ⟨Int.not_lt.mp fun h => hover (BitVec.slt_iff_toInt_lt.mpr h), rfl, rfl⟩

/-! ### The deadline -/

def Timeval.deadline (tv : Timeval) (start : BitVec 32) : BitVec 32 :=
  start + tv.tv_sec * 100 + (50000 + tv.tv_usec).sdiv 1000000

theorem rounding_eq {usec : BitVec 32} (hlow : -10000 ≤ usec.toInt) (hhigh : usec.toInt ≤ 1000000) :
    (50000 + usec).sdiv 1000000 = if 950000 ≤ usec.toInt then 1 else 0 := by
  have hsum : (50000 + usec).toInt = 50000 + usec.toInt := by
    have hconst : (50000 : BitVec 32).toInt = 50000 := rfl
    rw [toInt_add_of_range, hconst]
    · rw [hconst]
      omega
    · rw [hconst]
      omega
  have hmillion : (1000000 : BitVec 32).toInt = 1000000 := rfl
  apply BitVec.eq_of_toInt_eq
  rw [BitVec.toInt_sdiv, hsum, hmillion, Int.tdiv_eq_ediv_of_nonneg (by omega)]
  split
  case isTrue hmore =>
    have hdiv : (50000 + usec.toInt) / 1000000 = 1 := by omega
    rw [hdiv]
    rfl
  case isFalse hless =>
    have hdiv : (50000 + usec.toInt) / 1000000 = 0 := by omega
    rw [hdiv]
    rfl

theorem deadline_eq (start : BitVec 32) (haccept : tv.Accepted)
    (hsec : 0 ≤ tv.tv_sec.toInt) (husec : -10000 ≤ tv.tv_usec.toInt) :
    ((tv.deadline start).toNat : ℤ) = ((start.toNat : ℤ) + tv.ticks) % 2 ^ 32 := by
  have hnat : tv.tv_sec.toInt = tv.tv_sec.toNat := by
    have hcond := BitVec.toInt_eq_toNat_cond tv.tv_sec
    split at hcond
    · exact hcond
    · omega
  rw [Timeval.deadline, rounding_eq husec haccept.usec, Timeval.ticks, hnat]
  have hhundred : (100 : BitVec 32).toNat = 100 := rfl
  split
  · have hone : (1 : BitVec 32).toNat = 1 := rfl
    rw [BitVec.toNat_add, BitVec.toNat_add, BitVec.toNat_mul, hhundred, hone]
    omega
  · have hzero : (0 : BitVec 32).toNat = 0 := rfl
    rw [BitVec.toNat_add, BitVec.toNat_add, BitVec.toNat_mul, hhundred, hzero]
    omega

variable {os : SelectOs}

theorem SelectOs.Clock.elapsed {time : ℕ → ℕ} (hclock : os.Clock time) {i : ℕ} {d : ℤ}
    (hlater : (os.clock 0).toNat + d ≤ (os.clock i).toNat) : d ≤ (time i : ℤ) - time 0 := by
  have hmono : time 0 ≤ time i := hclock.mono (Nat.zero_le i)
  rw [hclock.reads, hclock.reads, BitVec.toNat_ofNat, BitVec.toNat_ofNat] at hlater
  omega

/-! ### The calls -/

/-- What a call with a timeout does when it returns: something was ready, or the clock is past the
deadline. -/
theorem selectLoop_time {t : Descriptors} {nfds : ℤ} {sets : SetKind → Option FdSet}
    {now finish : BitVec 32} {fuel i : ℕ} {new : SetKind → FdSet} {out : SelectReturn}
    (h : selectLoop os t nfds sets (some tv) false now finish fuel i new = some (.ok out)) :
    (out.live_fds ≠ 0 ∧ out.timeout = some (tv.subtract now (os.clock (out.round + 1)))) ∨
      finish < os.clock (out.round + 1) ∧ out.timeout = some ⟨0, 0⟩ := by
  induction fuel generalizing i new with
  | zero => cases h
  | succ fuel ih =>
    rw [selectLoop] at h
    split at h
    · cases h
    case h_2 new' live hscan =>
      dsimp only at h
      split at h
      · cases h
      split at h
      case isTrue hlive =>
        obtain ⟨back, -, heq⟩ := Option.bind_eq_some_iff.mp h
        cases heq
        exact .inl ⟨hlive.resolve_right Bool.false_ne_true, rfl⟩
      split at h
      case isTrue hover =>
        obtain ⟨back, -, heq⟩ := Option.bind_eq_some_iff.mp h
        cases heq
        exact .inr ⟨hover.2, rfl⟩
      · exact ih h

theorem selectLoop_zerotime {t : Descriptors} {nfds : ℤ} {sets : SetKind → Option FdSet}
    {timeout : Option Timeval} {now finish : BitVec 32} {fuel i : ℕ} {new : SetKind → FdSet}
    {out : SelectReturn} (h : selectLoop os t nfds sets timeout true now finish fuel i new = some (.ok out)) :
    out.timeout = timeout := by
  cases fuel with
  | zero => cases h
  | succ fuel =>
    rw [selectLoop] at h
    split at h
    · cases h
    case h_2 new' live hscan =>
      dsimp only at h
      split at h
      · cases h
      · rw [if_pos (Or.inr rfl)] at h
        obtain ⟨back, -, heq⟩ := Option.bind_eq_some_iff.mp h
        cases heq
        rfl

/-- A `select` with a timeout that it accepts. -/
theorem select_waits (haccept : tv.Accepted) (hnonzero : ¬(tv.tv_usec = 0 ∧ tv.tv_sec = 0))
    (fuel : ℕ) (os : SelectOs) (t : Descriptors) (nfds : ℤ) (sets : SetKind → Option FdSet) :
    select fuel os t nfds sets (some tv) =
      selectLoop os t (limitFds nfds) sets (some tv) false (os.clock 0) (tv.deadline (os.clock 0)) fuel 0
        fun _ => 0 := by
  have hlong : ¬((1000000 : BitVec 32).slt tv.tv_usec ∨ (21474835 : BitVec 32).slt tv.tv_sec) := by
    rintro (husec | hsec)
    · exact Int.not_lt.mpr haccept.usec (BitVec.slt_iff_toInt_lt.mp husec)
    · exact Int.not_lt.mpr haccept.sec (BitVec.slt_iff_toInt_lt.mp hsec)
  rw [select]
  dsimp only
  rw [if_neg hnonzero, if_neg hlong]
  rfl

/-! ### Two programs -/

def noDescriptors : Descriptors where
  devicehandle _ := none
  maxfd := 0
  socket_fd_set := 0
  socket_fd_set_initialised := true
  of_socket_fd_set fd hfd := by
    rw [BitVec.ofNat_eq_ofNat, BitVec.getLsbD_zero] at hfd
    cases hfd
  handle_lt _ _ := nofun

def nullOpen : Descriptors where
  devicehandle fd := if fd = 0 then some ⟨DEV_NULL, 0, 1⟩ else none
  maxfd := 1
  socket_fd_set := 0
  socket_fd_set_initialised := true
  of_socket_fd_set fd hfd := by
    rw [BitVec.ofNat_eq_ofNat, BitVec.getLsbD_zero] at hfd
    cases hfd
  handle_lt fd d hd htype := by
    split at hd
    · cases hd
      cases htype
    · cases hd

def readNull : SetKind → Option FdSet
  | .read => some (insert 0 0)
  | .write => none
  | .except => none

theorem select_noDescriptors (haccept : tv.Accepted) (hnonzero : ¬(tv.tv_usec = 0 ∧ tv.tv_sec = 0))
    (hover : tv.deadline (os.clock 0) < os.clock 1) :
    ∃ out, select 1 os noDescriptors 0 (fun _ => none) (some tv) = some (.ok out) ∧ out.live_fds = 0 ∧
      out.round = 0 := by
  have hwait : ¬((0 : ℤ) + 0 ≠ 0 ∨ false = true) := by decide
  rw [select_waits haccept hnonzero, selectLoop]
  show ∃ out, (if (0 : ℤ) < 0 then _ else if (0 : ℤ) + 0 ≠ 0 ∨ false = true then _
    else if (some tv).isSome = true ∧ tv.deadline (os.clock 0) < os.clock 1 then _ else _) = _ ∧ _ ∧ _
  rw [if_neg (Int.lt_irrefl 0), if_neg hwait, if_pos ⟨rfl, hover⟩]
  exact ⟨_, rfl, rfl, rfl⟩

theorem select_nullOpen (haccept : tv.Accepted)
    (hnonzero : ¬(tv.tv_usec = 0 ∧ tv.tv_sec = 0)) (os : SelectOs) :
    ∃ out, select 1 os nullOpen 1 readNull (some tv) = some (.ok out) ∧
      out.timeout = some (tv.subtract (os.clock 0) (os.clock 1)) := by
  have hlive : (0 : ℤ) + 1 + 0 + 0 ≠ 0 ∨ false = true := by decide
  rw [select_waits haccept hnonzero, selectLoop]
  show ∃ out, (if (0 : ℤ) < 0 then _ else if (0 : ℤ) + 1 + 0 + 0 ≠ 0 ∨ false = true then _ else _) = _ ∧ _
  rw [if_neg (Int.lt_irrefl 0), if_pos hlive]
  exact ⟨_, rfl, rfl⟩

/-- A clock that reads `start` when the call begins, and that many ticks more from then on. -/
def laterOs (start : BitVec 32) (ticks : ℕ) : SelectOs where
  __ := promptOs
  clock i := BitVec.ofNat 32 (if i = 0 then start.toNat else start.toNat + ticks)

theorem laterOs_clock (start : BitVec 32) (ticks : ℕ) :
    (laterOs start ticks).Clock fun i => if i = 0 then start.toNat else start.toNat + ticks := by
  refine ⟨?_, fun _ => rfl⟩
  intro i j hij
  dsimp only
  split <;> split <;> omega

theorem laterOs_start (start : BitVec 32) (ticks : ℕ) : (laterOs start ticks).clock 0 = start := by
  show BitVec.ofNat 32 start.toNat = start
  rw [BitVec.ofNat_toNat, BitVec.setWidth_eq]

theorem laterOs_later (start : BitVec 32) (ticks : ℕ) :
    (laterOs start ticks).clock 1 = BitVec.ofNat 32 (start.toNat + ticks) := rfl

theorem laterOs_spent (start : BitVec 32) (ticks : ℕ) (h : ticks < 2 ^ 32) :
    ((laterOs start ticks).clock 1 - (laterOs start ticks).clock 0).toNat = ticks := by
  have hlt := start.isLt
  rw [laterOs_start, laterOs_later, BitVec.toNat_sub, BitVec.toNat_ofNat]
  omega

/-! ### When `select` keeps to the timeout -/

variable {tv : Timeval} {start : BitVec 32}

theorem Timeval.interval_zero (h : tv.tv_usec = 0 ∧ tv.tv_sec = 0) : tv.interval = 0 := by
  rw [Timeval.interval, h.1, h.2]
  rfl

theorem Timeval.Accepted.sec_ge (haccept : tv.Accepted) (h : 0 ≤ tv.interval) : -1 ≤ tv.tv_sec.toInt := by
  have husec := haccept.usec
  rw [Timeval.interval] at h
  omega

theorem TimeoutFits.left (h : TimeoutFits tv start) (haccept : tv.Accepted) (now later : BitVec 32) :
    0 ≤ (tv.subtract now later).tv_sec.toInt ∧ 0 ≤ (tv.subtract now later).tv_usec.toInt ∧
      (tv.subtract now later).interval ≤ tv.interval := by
  have hinterval := h.interval
  have husec := h.usec
  obtain ⟨hp, hp'⟩ := microsecondsOf_range (later - now)
  obtain ⟨hq, -⟩ := secondsOf_range (later - now)
  obtain ⟨sec, usec, hborrow, hleft⟩ := subtract_eq now later haccept
    (haccept.sec_ge hinterval) (by omega)
  rcases hleft with ⟨-, heq⟩ | ⟨hnonneg, hsec, hmicro⟩
  · rw [heq]
    exact ⟨Int.le_refl 0, Int.le_refl 0, hinterval⟩
  · rw [Timeval.interval, Timeval.interval, hsec, hmicro]
    omega

theorem TimeoutFits.waits (h : TimeoutFits tv start) (haccept : tv.Accepted) {time : ℕ → ℕ}
    (hclock : os.Clock time) (hstart : os.clock 0 = start) {i : ℕ} (hover : tv.deadline start < os.clock i) :
    tv.centiseconds ≤ (time i : ℤ) - time 0 := by
  have hinterval := h.interval
  have husec := h.usec
  have hnat : (tv.deadline start).toNat < (os.clock i).toNat := BitVec.lt_def.mp hover
  have hlast := (os.clock i).isLt
  -- less than half a tick is rounded to none
  by_cases hshort : tv.interval < 5000
  · have hmono : time 0 ≤ time i := hclock.mono (Nat.zero_le i)
    rw [Timeval.centiseconds]
    omega
  have hsec : 0 ≤ tv.tv_sec.toInt := by
    have hmost := haccept.usec
    rw [Timeval.interval] at hinterval hshort
    omega
  have hdeadline := deadline_eq start haccept hsec husec
  rcases h.deadline.resolve_left hshort with ⟨hless, hrange⟩ | hend
  · have hticks : tv.ticks = 100 * tv.tv_sec.toInt := by
      rw [Timeval.ticks, if_neg (by omega), Int.add_zero]
    have hpast : ((os.clock 0).toNat : ℤ) + (100 * tv.tv_sec.toInt + 1) ≤ (os.clock i).toNat := by
      rw [hstart]
      omega
    have helapsed := hclock.elapsed hpast
    rw [Timeval.centiseconds, Timeval.interval]
    omega
  · omega

theorem KeepsTimeout.deadline (h : KeepsTimeout tv start) (haccept : tv.Accepted)
    (hlong : 5000 ≤ tv.interval) (ticks : ℕ)
    (hover : tv.deadline start < BitVec.ofNat 32 (start.toNat + ticks)) : tv.centiseconds ≤ ticks := by
  have hnonzero : ¬(tv.tv_usec = 0 ∧ tv.tv_sec = 0) := by
    intro hzero
    rw [Timeval.interval_zero hzero] at hlong
    omega
  have hover' : tv.deadline ((laterOs start ticks).clock 0) < (laterOs start ticks).clock 1 := by
    rw [laterOs_start, laterOs_later]
    exact hover
  obtain ⟨out, hrun, hnothing, hround⟩ := select_noDescriptors haccept hnonzero hover'
  obtain ⟨hwait, -⟩ := h _ _ _ _ _ _ _ (laterOs_clock start ticks) (laterOs_start start ticks) hrun
  have hlate := hwait hnothing
  rw [hround, if_neg (by decide), if_pos rfl] at hlate
  omega

theorem KeepsTimeout.left (h : KeepsTimeout tv start) (haccept : tv.Accepted)
    (hnonzero : ¬(tv.tv_usec = 0 ∧ tv.tv_sec = 0)) (ticks : ℕ) :
    0 ≤ (tv.subtract ((laterOs start ticks).clock 0) ((laterOs start ticks).clock 1)).tv_sec.toInt ∧
      0 ≤ (tv.subtract ((laterOs start ticks).clock 0) ((laterOs start ticks).clock 1)).tv_usec.toInt ∧
      (tv.subtract ((laterOs start ticks).clock 0) ((laterOs start ticks).clock 1)).interval ≤ tv.interval := by
  obtain ⟨out, hrun, hout⟩ := select_nullOpen haccept hnonzero (laterOs start ticks)
  obtain ⟨-, left, hleft, hright⟩ := h _ _ _ _ _ _ _ (laterOs_clock start ticks) (laterOs_start start ticks) hrun
  rw [hout] at hleft
  cases hleft
  exact hright

/-- The microseconds are at most one tick below zero: else there is a time after which the last
second is borrowed and is not enough. -/
theorem KeepsTimeout.usec (h : KeepsTimeout tv start) (haccept : tv.Accepted) (hinterval : 0 ≤ tv.interval) :
    -10000 ≤ tv.tv_usec.toInt := by
  by_contra hlow
  have hlow := Int.not_le.mp hlow
  have hnonzero : ¬(tv.tv_usec = 0 ∧ tv.tv_sec = 0) := by
    rintro ⟨hzero, -⟩
    rw [hzero] at hlow
    revert hlow
    decide
  have hsec : 1 ≤ tv.tv_sec.toInt := by
    rw [Timeval.interval] at hinterval
    omega
  have hmost := haccept.sec
  have hleast : -2 ^ 31 ≤ tv.tv_usec.toInt := tv.tv_usec.le_toInt
  -- all seconds but one, and the hundredths that are still in range
  obtain ⟨ticks, hticks⟩ : ∃ ticks : ℕ, (ticks : ℤ) = (tv.tv_sec.toInt - 1) * 100 +
      if tv.tv_usec.toInt < -1000000 then 0 else 99 := by
    refine ⟨((tv.tv_sec.toInt - 1) * 100 + if tv.tv_usec.toInt < -1000000 then 0 else 99).toNat, ?_⟩
    apply Int.toNat_of_nonneg
    split <;> omega
  have hspent := laterOs_spent start ticks (by split at hticks <;> omega)
  have hp : microsecondsOf ((laterOs start ticks).clock 1 - (laterOs start ticks).clock 0) =
      if tv.tv_usec.toInt < -1000000 then 0 else 990000 := by
    rw [microsecondsOf, hspent]
    split at hticks <;> split <;> omega
  have hq : secondsOf ((laterOs start ticks).clock 1 - (laterOs start ticks).clock 0) = tv.tv_sec.toInt - 1 := by
    rw [secondsOf, hspent]
    split at hticks <;> omega
  obtain ⟨hleftSec, hleftUsec, -⟩ := h.left haccept hnonzero ticks
  obtain ⟨sec, usec, hborrow, hleft⟩ := subtract_eq ((laterOs start ticks).clock 0)
    ((laterOs start ticks).clock 1) haccept (by omega) (by rw [hp]; split <;> omega)
  rw [hp, hq] at hborrow
  rcases hleft with ⟨hneg, -⟩ | ⟨-, -, hmicro⟩
  · split at hborrow <;> omega
  · rw [hmicro] at hleftUsec
    split at hborrow <;> omega

/-- **When `select` keeps to the timeout**: half a second, for one, is taken for no time at all. -/
theorem select_keepsTimeout_iff (tv : Timeval) (start : BitVec 32) (haccept : tv.Accepted) :
    KeepsTimeout tv start ↔ TimeoutFits tv start := by
  refine ⟨fun h => ?_, fun h => ?_⟩
  · have hinterval : 0 ≤ tv.interval := by
      by_cases hzero : tv.tv_usec = 0 ∧ tv.tv_sec = 0
      · exact Int.le_of_eq (Timeval.interval_zero hzero).symm
      · obtain ⟨hsec, husec, hle⟩ := h.left haccept hzero 0
        rw [Timeval.interval] at hle
        omega
    have husec := h.usec haccept hinterval
    refine ⟨hinterval, husec, ?_⟩
    by_cases hshort : tv.interval < 5000
    · exact .inl hshort
    right
    have hlong := Int.not_lt.mp hshort
    have hmost := haccept.usec
    have hmostSec := haccept.sec
    have hsec : 0 ≤ tv.tv_sec.toInt := by
      rw [Timeval.interval] at hlong
      omega
    have hlt := start.isLt
    have hdeadline := deadline_eq start haccept hsec husec
    have hticks : 100 * tv.tv_sec.toInt ≤ tv.ticks ∧ tv.ticks ≤ 100 * tv.tv_sec.toInt + 1 := by
      rw [Timeval.ticks]
      split <;> omega
    rcases Int.lt_trichotomy ((start.toNat : ℤ) + tv.ticks) (2 ^ 32 - 1) with hbefore | hend | hafter
    · -- the call ends one tick after the deadline
      refine .inl ⟨?_, by omega⟩
      have hover : tv.deadline start < BitVec.ofNat 32 (start.toNat + (tv.ticks + 1).toNat) := by
        rw [BitVec.lt_def, BitVec.toNat_ofNat]
        omega
      have hlate := h.deadline haccept hlong _ hover
      rw [Timeval.centiseconds, Timeval.interval] at hlate
      by_contra hmicro
      have hticks' : tv.ticks = 100 * tv.tv_sec.toInt + if 950000 ≤ tv.tv_usec.toInt then 1 else 0 := rfl
      split at hticks' <;> omega
    · exact .inr hend
    · -- the deadline starts again from zero, and is past at once
      exfalso
      have hover : tv.deadline start < BitVec.ofNat 32 (start.toNat + 0) := by
        rw [BitVec.lt_def, BitVec.toNat_ofNat]
        omega
      have hlate := h.deadline haccept hlong _ hover
      rw [Timeval.centiseconds] at hlate
      omega
  · intro os time t nfds sets fuel out hclock hstart hrun
    by_cases hzero : tv.tv_usec = 0 ∧ tv.tv_sec = 0
    · -- nobody waits, and the timeout stays as it is
      rw [select] at hrun
      dsimp only at hrun
      rw [if_pos hzero] at hrun
      have hmono : time 0 ≤ time (out.round + 1) := hclock.mono (Nat.zero_le _)
      refine ⟨fun _ => ?_, tv, selectLoop_zerotime hrun, ?_, ?_, Int.le_refl _⟩
      · rw [Timeval.centiseconds, Timeval.interval_zero hzero]
        omega
      · rw [hzero.2]
        decide
      · rw [hzero.1]
        decide
    · rw [select_waits haccept hzero, hstart] at hrun
      rcases selectLoop_time hrun with ⟨hlive, hleft⟩ | ⟨hover, hleft⟩
      · exact ⟨fun hnothing => absurd hnothing hlive, _, hleft, h.left haccept _ _⟩
      · refine ⟨fun _ => h.waits haccept hclock hstart hover, _, hleft, ?_, ?_, h.interval⟩
        · exact Int.le_refl 0
        · exact Int.le_refl 0

theorem select_keepsTimeout_iff_twoSeconds : KeepsTimeout ⟨2, 0⟩ 0 :=
  (select_keepsTimeout_iff ⟨2, 0⟩ 0 ⟨by decide, by decide⟩).mpr ⟨by decide, by decide, .inr (.inl (by decide))⟩

theorem halfSecond_not_kept : ¬KeepsTimeout ⟨0, 500000⟩ 0 := by
  intro h
  have haccept : Timeval.Accepted ⟨0, 500000⟩ := ⟨by decide, by decide⟩
  have hlate := h.deadline haccept (by decide) 1 (by decide)
  revert hlate
  decide

end UnixLib
