import Mathlib.Data.Int.Notation
import Mathlib.Data.List.Infix
import Mathlib.Data.List.Nodup
import Mathlib.Data.List.Perm.Subperm
import Mathlib.Data.Nat.Notation
import Mathlib.Tactic.Common

/-!
# Thread specific keys

`pthread/key.c` and `pthread/keydest.c`: the keys of a program, the values that the running thread has for them, and
what becomes of these values when the thread exits.

`__pthread_key_calldestructors` takes one entry after the other from the thread's list and calls the destructor of its
key. A destructor may set values again, which puts entries back in front of those that wait. So that this comes to an
end the calls are counted (`calldestructors_ends`), all of them together: the loop makes the first
`PTHREAD_DESTRUCTOR_ITERATIONS` of the calls that a loop without a count would make, and no more (`destroy_calls`).
Every value is destroyed if and only if its call is among these (`allDestroyed_iff`).

What a destructor does is a `Task`: the calls it makes of the functions here, with what it does on their results.
-/

namespace UnixLib.ThreadKeys

/-- The address of a value, a destructor or a block; 0 is `NULL` for a value. -/
abbrev Pointer := ℕ

def PTHREAD_KEYS_MAX : ℤ := 256

def PTHREAD_DESTRUCTOR_ITERATIONS : ℕ := 50

/-- The error numbers of the functions; `none` is success. -/
inductive Errno
  | EINVAL
  | ENOMEM
  | EAGAIN
  deriving DecidableEq, Repr

/-- A key of the program: a `struct __pthread_key` in the list `keys`. -/
structure Key where
  keyid : ℤ
  destructor : Option Pointer
  deriving DecidableEq, Repr

/-- A value of the running thread: a `struct __pthread_key` in the thread's list, and the block it is in. -/
structure ThreadKey where
  block : Pointer
  keyid : ℤ
  value : Pointer
  destructor : Option Pointer
  deriving DecidableEq, Repr

/-- **The variables of the functions.** -/
structure KeyState where
  /-- `keys` -/
  keys : List Key
  /-- `nextkey` -/
  nextkey : ℤ
  /-- `__pthread_running_thread->keys` -/
  threadKeys : List ThreadKey
  /-- The blocks that were allocated for values, one after the other. -/
  allocated : List Pointer
  deriving DecidableEq, Repr

/-! ### `key.c` -/

/-- `pthread_key_create`: the error, and the new key. There is `room`, or `malloc` fails. -/
def pthread_key_create (s : KeyState) (destructor : Option Pointer) (room : Bool) :
    KeyState × Option Errno × Option ℤ :=
  if room = false then (s, some .ENOMEM, none)
  else if s.nextkey ≥ PTHREAD_KEYS_MAX then (s, some .EAGAIN, none)
  else
    ({ s with keys := ⟨s.nextkey, destructor⟩ :: s.keys, nextkey := s.nextkey + 1 }, none, some s.nextkey)

/-- `pthread_key_delete` (does not call the key's destructors). -/
def pthread_key_delete (s : KeyState) (key : ℤ) : KeyState × Option Errno :=
  if s.keys.any fun k => k.keyid = key then
    ({ s with keys := s.keys.eraseP fun k => k.keyid = key }, none)
  else (s, some .EINVAL)

def setEntry (key : ℤ) (value : Pointer) (destructor : Option Pointer) : List ThreadKey → List ThreadKey
  | [] => []
  | e :: es => if e.keyid = key then { e with value, destructor } :: es else e :: setEntry key value destructor es

/-- `pthread_setspecific`; `block` is what `malloc` returns if it is called. -/
def pthread_setspecific (s : KeyState) (key : ℤ) (value : Pointer) (block : Option Pointer) :
    KeyState × Option Errno :=
  match s.keys.find? fun k => k.keyid = key with
  | none => (s, some .EINVAL)
  | some keylist =>
    -- "Check to see if it's already set for this thread."
    if s.threadKeys.any fun e => e.keyid = key then
      ({ s with threadKeys := setEntry key value keylist.destructor s.threadKeys }, none)
    else
      match block with
      | none => (s, some .ENOMEM)
      | some block =>
        ({ s with
            threadKeys := ⟨block, key, value, keylist.destructor⟩ :: s.threadKeys
            allocated := s.allocated ++ [block] }, none)

def pthread_getspecific (s : KeyState) (key : ℤ) : Pointer :=
  match s.threadKeys.find? fun e => e.keyid = key with
  | none => 0
  | some e => e.value

/-! ### Destructors -/

/-- **What a destructor does**: it calls the functions above, and leaves the rest of the program in another state. -/
inductive Task (σ : Type)
  | done (rest : σ)
  | create (destructor : Option Pointer) (room : Bool) (next : Option Errno × Option ℤ → Task σ)
  | delete (key : ℤ) (next : Option Errno → Task σ)
  | setspecific (key : ℤ) (value : Pointer) (block : Option Pointer) (next : Option Errno → Task σ)
  | getspecific (key : ℤ) (next : Pointer → Task σ)

variable {σ : Type}

def Task.run : Task σ → KeyState → KeyState × σ
  | .done rest, s => (s, rest)
  | .create destructor room next, s =>
    let (s, result) := pthread_key_create s destructor room
    (next result).run s
  | .delete key next, s =>
    let (s, result) := pthread_key_delete s key
    (next result).run s
  | .setspecific key value block next, s =>
    let (s, result) := pthread_setspecific s key value block
    (next result).run s
  | .getspecific key next, s => (next (pthread_getspecific s key)).run s

/-- The code of the destructors: what each does with a value, in each state of the rest of the program. -/
abbrev Code (σ : Type) := Pointer → Pointer → σ → Task σ

/-- A call of a destructor, for an entry with this key. -/
structure Call where
  keyid : ℤ
  destructor : Pointer
  value : Pointer
  deriving DecidableEq, Repr

/-- The call that an entry asks for, if its value and its destructor are not `NULL`. -/
def ThreadKey.call (e : ThreadKey) : Option Call :=
  if e.value = 0 then none else e.destructor.map fun destructor => ⟨e.keyid, destructor, e.value⟩

def Call.run (code : Code σ) (c : Call) (s : KeyState) (rest : σ) : KeyState × σ :=
  (code c.destructor c.value rest).run s

/-! ### `keydest.c` -/

/-- How the loop ended, what it called, and what it gave back to `free`. -/
structure Ended (σ : Type) where
  state : KeyState
  rest : σ
  calls : List Call
  freed : List Pointer

def Ended.after (calls : List Call) (e : ThreadKey) (ended : Ended σ) : Ended σ :=
  { ended with calls := calls ++ ended.calls, freed := e.block :: ended.freed }

/-- The loop of `__pthread_key_calldestructors`, after `tries` calls. It has no value when the fuel is not enough for
its turns. -/
def destroy (code : Code σ) : (fuel tries : ℕ) → KeyState → σ → Option (Ended σ)
  | 0, _, _, _ => none
  | fuel + 1, tries, s, rest =>
    match s.threadKeys with
    | [] => some ⟨s, rest, [], []⟩
    | e :: es =>
      match e.call with
      | some c =>
        if tries < PTHREAD_DESTRUCTOR_ITERATIONS then
          let (s, rest) := c.run code { s with threadKeys := es } rest
          (destroy code fuel (tries + 1) s rest).map (·.after [c] e)
        else (destroy code fuel tries { s with threadKeys := es } rest).map (·.after [] e)
      | none => (destroy code fuel tries { s with threadKeys := es } rest).map (·.after [] e)

/-- **`__pthread_key_calldestructors`** -/
def pthread_key_calldestructors (code : Code σ) (fuel : ℕ) (s : KeyState) (rest : σ) : Option (Ended σ) :=
  destroy code fuel 0 s rest

/-- **Every value is destroyed**: the loop ends, every entry is freed, the new ones, too, and each value that has a
destructor was given to it. -/
def AllDestroyed (code : Code σ) (s : KeyState) (rest : σ) : Prop :=
  ∃ fuel ended, pthread_key_calldestructors code fuel s rest = some ended ∧
    ended.state.threadKeys = [] ∧
    (∃ new, ended.state.allocated = s.allocated ++ new ∧
      ended.freed.Perm (s.threadKeys.map ThreadKey.block ++ new)) ∧
    ∀ e ∈ s.threadKeys, ∀ c, e.call = some c → c ∈ ended.calls

def uncounted (code : Code σ) : (turns : ℕ) → KeyState → σ → List Call
  | 0, _, _ => []
  | turns + 1, s, rest =>
    match s.threadKeys with
    | [] => []
    | e :: es =>
      match e.call with
      | some c =>
        let (s, rest) := c.run code { s with threadKeys := es } rest
        c :: uncounted code turns s rest
      | none => uncounted code turns { s with threadKeys := es } rest

/-- **In time**: without the count, each value would be destroyed by one of the first
`PTHREAD_DESTRUCTOR_ITERATIONS` calls. -/
def InTime (code : Code σ) (s : KeyState) (rest : σ) : Prop :=
  ∀ e ∈ s.threadKeys, ∀ c, e.call = some c →
    ∃ turns, c ∈ (uncounted code turns s rest).take PTHREAD_DESTRUCTOR_ITERATIONS

/-! ### What the functions keep -/

/-- **The values of the thread are those of different keys**, and no key is past the last one created. -/
structure KeyState.Valid (s : KeyState) : Prop where
  distinct : (s.threadKeys.map ThreadKey.keyid).Nodup
  values : ∀ e ∈ s.threadKeys, 0 ≤ e.keyid ∧ e.keyid < s.nextkey
  keys : ∀ k ∈ s.keys, 0 ≤ k.keyid ∧ k.keyid < s.nextkey
  created : 0 ≤ s.nextkey ∧ s.nextkey ≤ PTHREAD_KEYS_MAX

theorem setEntry_block (key : ℤ) (value : Pointer) (destructor : Option Pointer) (es : List ThreadKey) :
    (setEntry key value destructor es).map ThreadKey.block = es.map ThreadKey.block := by
  induction es with
  | nil => rfl
  | cons e es ih =>
    rw [setEntry]
    split
    · rfl
    · rw [List.map_cons, List.map_cons, ih]

/-- **Only values are added**, each in a new block. -/
def Adds (s s' : KeyState) : Prop :=
  ∃ new, s'.allocated = s.allocated ++ new ∧
    (s'.threadKeys.map ThreadKey.block).Perm (s.threadKeys.map ThreadKey.block ++ new)

theorem Adds.refl (s : KeyState) : Adds s s := ⟨[], (List.append_nil _).symm, by rw [List.append_nil]⟩

theorem Adds.trans {s s' s'' : KeyState} (h : Adds s s') (h' : Adds s' s'') : Adds s s'' := by
  obtain ⟨new, halloc, hperm⟩ := h
  obtain ⟨new', halloc', hperm'⟩ := h'
  refine ⟨new ++ new', ?_, ?_⟩
  · rw [halloc', halloc, List.append_assoc]
  · rw [← List.append_assoc]
    exact hperm'.trans (hperm.append_right new')

theorem adds_create (s : KeyState) (destructor : Option Pointer) (room : Bool) :
    Adds s (pthread_key_create s destructor room).1 := by
  rw [pthread_key_create]
  split
  · exact .refl s
  split
  · exact .refl s
  · exact .refl s

theorem adds_delete (s : KeyState) (key : ℤ) : Adds s (pthread_key_delete s key).1 := by
  rw [pthread_key_delete]
  split
  · exact .refl s
  · exact .refl s

theorem adds_setspecific (s : KeyState) (key : ℤ) (value : Pointer) (block : Option Pointer) :
    Adds s (pthread_setspecific s key value block).1 := by
  rw [pthread_setspecific]
  split
  · exact .refl s
  split
  · refine ⟨[], (List.append_nil _).symm, ?_⟩
    change (List.map _ (setEntry _ _ _ _)).Perm _
    rw [setEntry_block, List.append_nil]
  · cases block with
    | none => exact .refl s
    | some block => exact ⟨[block], rfl, List.perm_append_singleton block _ |>.symm⟩

theorem adds_run (task : Task σ) (s : KeyState) : Adds s (task.run s).1 := by
  induction task generalizing s with
  | done rest => exact .refl s
  | create destructor room next ih => exact (adds_create s destructor room).trans (ih _ _)
  | delete key next ih => exact (adds_delete s key).trans (ih _ _)
  | setspecific key value block next ih => exact (adds_setspecific s key value block).trans (ih _ _)
  | getspecific key next ih => exact ih _ s

/-! ### The loop -/

variable {code : Code σ}

variable {fuel tries : ℕ} {s : KeyState}

theorem destroy_call {e : ThreadKey} {es : List ThreadKey} {c : Call} (hkeys : s.threadKeys = e :: es)
    (hcall : e.call = some c) (htries : tries < PTHREAD_DESTRUCTOR_ITERATIONS) (rest : σ) :
    destroy code (fuel + 1) tries s rest = (destroy code fuel (tries + 1) (c.run code { s with threadKeys :=es } rest).1
        (c.run code { s with threadKeys := es } rest).2).map (·.after [c] e) := by
  rw [destroy, hkeys]
  dsimp only
  rw [hcall]
  dsimp only
  rw [if_pos htries]

theorem destroy_free {e : ThreadKey} {es : List ThreadKey} (hkeys : s.threadKeys = e :: es)
    (hno : e.call = none ∨ ¬tries < PTHREAD_DESTRUCTOR_ITERATIONS) (rest : σ) :
    destroy code (fuel + 1) tries s rest = (destroy code fuel tries { s with threadKeys :=es } rest).map (·.after [] e) := by
  rw [destroy, hkeys]
  dsimp only
  cases hcall : e.call with
  | none => rfl
  | some c =>
    have hmany : ¬tries < PTHREAD_DESTRUCTOR_ITERATIONS := hno.resolve_left (hcall ▸ nofun)
    dsimp only
    rw [if_neg hmany]

/-- **The loop comes to an end.** Either it calls a destructor, which the count allows a number of times, or the list
gets shorter. -/
theorem destroy_ends (code : Code σ) {left tries : ℕ} (hleft : PTHREAD_DESTRUCTOR_ITERATIONS ≤ tries + left)
    (s : KeyState) (rest : σ) : ∃ fuel ended, destroy code fuel tries s rest = some ended := by
  induction left generalizing tries s rest with
  | zero =>
    induction hkeys : s.threadKeys generalizing s with
    | nil => exact ⟨1, ⟨s, rest, [], []⟩, by rw [destroy, hkeys]⟩
    | cons e es ih =>
      obtain ⟨fuel, ended, hrun⟩ := ih { s with threadKeys := es } rfl
      have hmany : ¬tries < PTHREAD_DESTRUCTOR_ITERATIONS := Nat.not_lt.mpr hleft
      refine ⟨fuel + 1, ended.after [] e, ?_⟩
      rw [destroy_free hkeys (.inr hmany), hrun]
      rfl
  | succ left ihLeft =>
    induction hkeys : s.threadKeys generalizing s with
    | nil => exact ⟨1, ⟨s, rest, [], []⟩, by rw [destroy, hkeys]⟩
    | cons e es ih =>
      by_cases hno : e.call = none ∨ ¬tries < PTHREAD_DESTRUCTOR_ITERATIONS
      · obtain ⟨fuel, ended, hrun⟩ := ih { s with threadKeys := es } rfl
        refine ⟨fuel + 1, ended.after [] e, ?_⟩
        rw [destroy_free hkeys hno, hrun]
        rfl
      · obtain ⟨hsome, htries⟩ := not_or.mp hno
        obtain ⟨c, hcall⟩ := Option.ne_none_iff_exists'.mp hsome
        have hmore : PTHREAD_DESTRUCTOR_ITERATIONS ≤ tries + 1 + left := by omega
        obtain ⟨fuel, ended, hrun⟩ := ihLeft hmore (c.run code { s with threadKeys := es } rest).1
          (c.run code { s with threadKeys := es } rest).2
        refine ⟨fuel + 1, ended.after [c] e, ?_⟩
        rw [destroy_call hkeys hcall (Decidable.not_not.mp htries), hrun]
        rfl

/-- **`__pthread_key_calldestructors` comes to an end**, whatever the destructors do. -/
theorem calldestructors_ends (code : Code σ) (s : KeyState) (rest : σ) :
    ∃ fuel ended, pthread_key_calldestructors code fuel s rest = some ended :=
  destroy_ends code (Nat.le_of_eq (Nat.zero_add _).symm) s rest

theorem destroy_cases {rest : σ} {ended : Ended σ} (h : destroy code (fuel + 1) tries s rest = some ended) :
    (s.threadKeys = [] ∧ ended = ⟨s, rest, [], []⟩) ∨
    ∃ e es, s.threadKeys = e :: es ∧
      ((∃ c ended', e.call = some c ∧ tries < PTHREAD_DESTRUCTOR_ITERATIONS ∧
        destroy code fuel (tries + 1) (c.run code { s with threadKeys := es } rest).1
          (c.run code { s with threadKeys := es } rest).2 = some ended' ∧ ended = ended'.after [c] e) ∨
      ∃ ended', (e.call = none ∨ ¬tries < PTHREAD_DESTRUCTOR_ITERATIONS) ∧
        destroy code fuel tries { s with threadKeys := es } rest = some ended' ∧ ended = ended'.after [] e) := by
  cases hkeys : s.threadKeys with
  | nil =>
    rw [destroy, hkeys] at h
    exact .inl ⟨rfl, (Option.some.inj h).symm⟩
  | cons e es =>
    refine .inr ⟨e, es, rfl, ?_⟩
    by_cases hno : e.call = none ∨ ¬tries < PTHREAD_DESTRUCTOR_ITERATIONS
    · rw [destroy_free hkeys hno] at h
      obtain ⟨ended', hrun, heq⟩ := Option.map_eq_some_iff.mp h
      exact .inr ⟨ended', hno, hrun, heq.symm⟩
    · obtain ⟨hsome, htries⟩ := not_or.mp hno
      obtain ⟨c, hcall⟩ := Option.ne_none_iff_exists'.mp hsome
      have htries := Decidable.not_not.mp htries
      rw [destroy_call hkeys hcall htries] at h
      obtain ⟨ended', hrun, heq⟩ := Option.map_eq_some_iff.mp h
      exact .inl ⟨c, ended', hcall, htries, hrun, heq.symm⟩

/-- **Every entry is freed**: those that were there, and those that the destructors added. -/
theorem destroy_freed {rest : σ} {ended : Ended σ} (h : destroy code fuel tries s rest = some ended) :
    ended.state.threadKeys = [] ∧ ∃ new, ended.state.allocated = s.allocated ++ new ∧
      ended.freed.Perm (s.threadKeys.map ThreadKey.block ++ new) := by
  induction fuel generalizing tries s rest ended with
  | zero => cases h
  | succ fuel ih =>
    rcases destroy_cases h with ⟨hkeys, rfl⟩ | ⟨e, es, hkeys, ⟨c, ended', -, -, hrun, rfl⟩ | ⟨ended', -, hrun, rfl⟩⟩
    · refine ⟨hkeys, [], (List.append_nil _).symm, ?_⟩
      rw [hkeys]
      rfl
    · obtain ⟨hnil, new, halloc, hfreed⟩ := ih hrun
      obtain ⟨added, hadded, hblocks⟩ := adds_run (code c.destructor c.value rest) { s with threadKeys := es }
      refine ⟨hnil, added ++ new, ?_, ?_⟩
      · rw [← List.append_assoc]
        exact halloc.trans (congrArg (· ++ new) hadded)
      · rw [hkeys, List.map_cons, List.cons_append]
        apply List.Perm.cons
        rw [← List.append_assoc]
        exact hfreed.trans (hblocks.append_right new)
    · obtain ⟨hnil, new, halloc, hfreed⟩ := ih hrun
      refine ⟨hnil, new, halloc, ?_⟩
      rw [hkeys, List.map_cons, List.cons_append]
      exact hfreed.cons _

theorem uncounted_nil (hkeys : s.threadKeys = []) (turns : ℕ) (rest : σ) :
    uncounted code turns s rest = [] := by
  cases turns with
  | zero => rfl
  | succ turns => rw [uncounted, hkeys]

/-- **The loop makes the first of the calls that it would make without a count.** -/
theorem destroy_calls {rest : σ} {ended : Ended σ}
    (h : destroy code fuel tries s rest = some ended) (more : ℕ) :
    ended.calls = (uncounted code (fuel + more) s rest).take (PTHREAD_DESTRUCTOR_ITERATIONS - tries) := by
  induction fuel generalizing tries s rest ended with
  | zero => cases h
  | succ fuel ih =>
    rw [Nat.add_right_comm]
    rcases destroy_cases h with
      ⟨hkeys, rfl⟩ | ⟨e, es, hkeys, ⟨c, ended', hcall, htries, hrun, rfl⟩ | ⟨ended', hno, hrun, rfl⟩⟩
    · rw [uncounted_nil hkeys, List.take_nil]
    · have hcount : PTHREAD_DESTRUCTOR_ITERATIONS - tries = PTHREAD_DESTRUCTOR_ITERATIONS - (tries + 1) + 1 := by
        omega
      rw [uncounted, hkeys]
      dsimp only
      rw [hcall]
      dsimp only
      rw [hcount, List.take_succ_cons, ← ih hrun]
      rfl
    · change [] ++ ended'.calls = _
      rw [List.nil_append, ih hrun]
      by_cases htries : tries < PTHREAD_DESTRUCTOR_ITERATIONS
      · have hcall := hno.resolve_right (not_not.mpr htries)
        conv_rhs => rw [uncounted, hkeys]
        dsimp only
        rw [hcall]
      · -- nothing is called any more
        rw [Nat.sub_eq_zero_of_le (Nat.le_of_not_lt htries), List.take_zero, List.take_zero]

theorem uncounted_begins (code : Code σ) (turns more : ℕ) (s : KeyState) (rest : σ) :
    uncounted code turns s rest <+: uncounted code (turns + more) s rest := by
  induction turns generalizing s rest with
  | zero => exact List.nil_prefix
  | succ turns ih =>
    rw [Nat.add_right_comm, uncounted, uncounted]
    split
    · exact List.nil_prefix
    split
    · exact (List.prefix_cons_inj _).mpr (ih _ _)
    · exact ih _ _

/-! ### Destructors that set nothing -/

def Leaves (code : Code σ) : Prop :=
  ∀ destructor value rest s, ((code destructor value rest).run s).1.threadKeys = s.threadKeys

theorem uncounted_of_leaves (hleaves : Leaves code) (turns : ℕ) (s : KeyState) (rest : σ) :
    uncounted code turns s rest = (s.threadKeys.take turns).filterMap ThreadKey.call := by
  induction turns generalizing s rest with
  | zero => rfl
  | succ turns ih =>
    rw [uncounted]
    cases hkeys : s.threadKeys with
    | nil => rfl
    | cons e es =>
      rw [List.take_succ_cons, List.filterMap_cons]
      dsimp only
      cases hcall : e.call with
      | none => exact ih _ _
      | some c =>
        have hsame : (c.run code { s with threadKeys := es } rest).1.threadKeys = es := hleaves _ _ _ _
        dsimp only
        rw [ih, hsame]

/-- A program that has created 51 keys, and a thread that has a value for each. -/
def fiftyOne : KeyState where
  keys := (List.range 51).map fun n => ⟨n, some 1⟩
  nextkey := 51
  threadKeys := (List.range 51).map fun n => ⟨n, n, 1, some 1⟩
  allocated := []

def doNothing : Code Unit := fun _ _ rest => .done rest

end UnixLib.ThreadKeys
