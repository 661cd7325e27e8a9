import Gccsdk.GdbServer.Gdb
import Mathlib.Data.Fintype.EquivFin

/-!
# Sessions and contexts

The sessions and the contexts of the protocol are in two tables of five. A session gets a context when a client
is accepted, and gives it back when it is destroyed. When the client goes away, it keeps it; the next client is
given another one, and the old one is not found any more. `SessionRun` are the runs over all sessions, and
`sessionRun_sound` is about those in which a client is accepted only where there is no context (`Accepts`).

What the callbacks work on is left open, as the rest of a session. The type of all sessions is `SESSION_TCP`, and
a result of a socket call is `none` for a failure. A step that would go through a null pointer is `none`.
-/

namespace GdbServer

abbrev MAX_SESSIONS : ℕ := 5

abbrev N_CTX : ℕ := 5

/-- `session_ctx`: the sockets and the context. -/
structure SessionCtx where
  in_use : Bool
  server : ℤ
  client : ℤ
  gdb : Option (Fin N_CTX)

/-- A context in the table, with the session that the callbacks are for; `none` when `send_fnc` is NULL. -/
structure CtxEntry where
  ctx : GdbCtx
  pw : Option (Fin MAX_SESSIONS)

/-- `sessions` and `ctxs`, and what the callbacks work on. -/
structure Server (σ : Type) where
  sessions : Fin MAX_SESSIONS → SessionCtx
  ctxs : Fin N_CTX → CtxEntry
  worlds : Fin MAX_SESSIONS → σ

def noSession : SessionCtx := ⟨false, 0, 0, none⟩

def noCtx : CtxEntry := ⟨newCtx, none⟩

def socketOf (result : Option ℕ) : ℤ :=
  match result with
  | some fd => fd
  | none => -1

/-- `session_is_connected`. -/
def SessionCtx.connected (s : SessionCtx) : Bool := s.in_use && 0 ≤ s.client

namespace Server
variable {σ : Type}

def gdbCtxCreate (y : Server σ) (pw : Fin MAX_SESSIONS) : Option (Fin N_CTX) × Server σ :=
  match (List.finRange N_CTX).find? fun k => (y.ctxs k).pw = none with
  | none => (none, y)
  | some k =>
    let ctx := { (y.ctxs k).ctx with state := .waitingForPacket }
    (some k, { y with ctxs := Function.update y.ctxs k ⟨ctx, some pw⟩ })

def gdbCtxDestroy (y : Server σ) (k : Fin N_CTX) : Server σ :=
  { y with ctxs := Function.update y.ctxs k noCtx }

def putSession (y : Server σ) (i : Fin MAX_SESSIONS) (s : SessionCtx) : Server σ :=
  { y with sessions := Function.update y.sessions i s }

def sessionCtxDestroy (y : Server σ) (i : Fin MAX_SESSIONS) : Server σ :=
  let y' :=
    match (y.sessions i).gdb with
    | some k => y.gdbCtxDestroy k
    | none => y
  y'.putSession i noSession

/-- `session_ctx_create`, with the result of `socket_open_server`. -/
def sessionCtxCreate (y : Server σ) (server : Option ℕ) : Server σ :=
  match (List.finRange MAX_SESSIONS).find? fun i => ¬(y.sessions i).in_use with
  | none => y
  | some i =>
    let y := y.putSession i { y.sessions i with in_use := true, client := -1, server := socketOf server }
    if socketOf server = -1 then y.sessionCtxDestroy i else y

/-- A client is accepted, in `session_tcp_process_input`. -/
def sessionTcpAccept (y : Server σ) (i : Fin MAX_SESSIONS) (fd : ℕ) : Server σ :=
  let y := y.putSession i { y.sessions i with client := fd }
  let (gdb, y) := y.gdbCtxCreate i
  y.putSession i { y.sessions i with gdb }

/-- `gdb_process_input`, for a context of the table. -/
def gdbInput (io : GdbCallbacks σ) (y : Server σ) (k : Fin N_CTX) (data : List Byte) : Option (Server σ) :=
  match (y.ctxs k).pw with
  | none => none
  | some i =>
    let g := gdbProcessInput io ⟨(y.ctxs k).ctx, y.worlds i, [], []⟩ data
    some { y with
      ctxs := Function.update y.ctxs k ⟨g.ctx, some i⟩
      worlds := Function.update y.worlds i g.pw }

/-- The loop of `session_tcp_process_input`, with what is received. -/
def readInput (io : GdbCallbacks σ) (i : Fin MAX_SESSIONS) : Server σ → List (List Byte) → Option (Server σ)
  | y, [] => some y
  | y, data :: received =>
    match (y.sessions i).gdb with
    | none => none
    | some k =>
      match gdbInput io y k data with
      | none => none
      | some y => readInput io i y received

/-- `session_tcp_process_input`, with the result of `socket_accept`; `ro` is `__get_ro_socket`. -/
def sessionTcpProcessInput (io : GdbCallbacks σ) (ro : ℤ → ℤ) (y : Server σ) (i : Fin MAX_SESSIONS)
    (rosocket : ℤ) (accepted : Option ℕ) (received : List (List Byte)) : Option (Server σ) :=
  let s := y.sessions i
  if rosocket = ro s.server then
    if 0 ≤ s.client then some y
    else
      match accepted with
      | none => some (y.putSession i { s with client := -1 })
      | some fd =>
        let y := y.sessionTcpAccept i fd
        if (y.sessions i).gdb = none then some y else readInput io i y received
  else if rosocket ≠ ro s.client then some y
  else readInput io i y received

def sessionTcpFindBySocket (ro : ℤ → ℤ) (y : Server σ) (rosocket : ℤ) : Option (Fin MAX_SESSIONS) :=
  (List.finRange MAX_SESSIONS).find? fun i =>
    (y.sessions i).in_use ∧ (ro (y.sessions i).server = rosocket ∨ ro (y.sessions i).client = rosocket)

def sessionTcpNotifyClosed (y : Server σ) (i : Fin MAX_SESSIONS) : Server σ :=
  y.putSession i { y.sessions i with client := -1 }

end Server

/-! ### Runs -/

/-- What happens to the sessions. -/
inductive SessionOp (σ : Type)
  | create (server : Option ℕ)
  | destroy (i : Fin MAX_SESSIONS)
  | input (rosocket : ℤ) (accepted : Option ℕ) (received : List (List Byte))
  | closed (rosocket : ℤ)
  /-- A turn of the loop of `session_wait_for_continue`. -/
  | wait (i : Fin MAX_SESSIONS)
  | other (i : Fin MAX_SESSIONS) (world : σ)

section Runs
variable {σ : Type} (io : GdbCallbacks σ) (ro : ℤ → ℤ)

def Server.perform (y : Server σ) : SessionOp σ → Option (Server σ)
  | .create server => some (y.sessionCtxCreate server)
  | .destroy i => some (y.sessionCtxDestroy i)
  | .input rosocket accepted received =>
    match y.sessionTcpFindBySocket ro rosocket with
    | none => some y
    | some i => y.sessionTcpProcessInput io ro i rosocket accepted received
  | .closed rosocket =>
    match y.sessionTcpFindBySocket ro rosocket with
    | none => some y
    | some i => some (if rosocket = (y.sessions i).client then y.sessionTcpNotifyClosed i else y)
  | .wait i =>
    if (y.sessions i).connected then
      match (y.sessions i).gdb with
      | none => none
      | some k => some (if (y.ctxs k).ctx.got_killed then y.sessionTcpNotifyClosed i else y)
    else some y
  | .other i world => some { y with worlds := Function.update y.worlds i world }

/-- The states in runs all of whose steps are as `P` says. -/
inductive SessionRun (P : Server σ → SessionOp σ → Prop) : Server σ → Prop
  | initial (worlds : Fin MAX_SESSIONS → σ) : SessionRun P ⟨fun _ => noSession, fun _ => noCtx, worlds⟩
  | step {y y' : Server σ} (op : SessionOp σ) :
    SessionRun P y → P y op → y.perform io ro op = some y' → SessionRun P y'

/-- **What is expected** of sessions and contexts. -/
structure SessionsSound (y : Server σ) : Prop where
  owns : ∀ i, (y.sessions i).connected → ∃ k, (y.sessions i).gdb = some k ∧
    (y.ctxs k).pw = some i ∧ ∀ k', (y.ctxs k').pw = some i → k' = k
  begins : ∀ i fd k, ((y.sessionTcpAccept i fd).sessions i).gdb = some k →
    ((y.sessionTcpAccept i fd).ctxs k).ctx = newCtx
  distinct : ∀ i j k, (y.sessions i).gdb = some k → (y.sessions j).gdb = some k → i = j
  count : (Finset.univ.filter fun k => (y.ctxs k).pw ≠ none).card ≤
    (Finset.univ.filter fun i => (y.sessions i).in_use).card

def Accepts (y : Server σ) : SessionOp σ → Prop
  | .input rosocket accepted _ => ∀ i, y.sessionTcpFindBySocket ro rosocket = some i →
    rosocket = ro (y.sessions i).server → (y.sessions i).client < 0 → accepted ≠ none → (y.sessions i).gdb = none
  | _ => True

end Runs

/-! ### The invariant -/

/-- Sessions and contexts point to each other, and contexts that are not in use are zeros. -/
structure SessionInv {σ : Type} (y : Server σ) : Prop where
  free : ∀ k, (y.ctxs k).pw = none → (y.ctxs k).ctx = newCtx
  owner : ∀ k i, (y.ctxs k).pw = some i → (y.sessions i).gdb = some k
  gdb : ∀ i k, (y.sessions i).gdb = some k → (y.ctxs k).pw = some i ∧ (y.sessions i).in_use
  connected : ∀ i, (y.sessions i).connected → (y.sessions i).gdb ≠ none

namespace SessionInv
variable {σ : Type} {y : Server σ}

variable {i : Fin MAX_SESSIONS}

theorem put (h : SessionInv y) {s : SessionCtx} (hgdb : s.gdb = (y.sessions i).gdb)
    (hin_use : (y.sessions i).in_use → s.in_use) (hconnected : s.connected → s.gdb ≠ none) :
    SessionInv (y.putSession i s) := by
  refine ⟨h.free, fun k j hpw => ?_, fun j k hk => ?_, fun j hj => ?_⟩
  all_goals unfold Server.putSession at *
  all_goals dsimp only at *
  all_goals by_cases hij : j = i
  · rw [hij, Function.update_self, hgdb, ← hij]
    exact h.owner k j hpw
  · rw [Function.update_of_ne hij]
    exact h.owner k j hpw
  · rw [hij, Function.update_self, hgdb] at hk
    rw [hij, Function.update_self]
    exact ⟨(h.gdb i k hk).1, hin_use (h.gdb i k hk).2⟩
  · rw [Function.update_of_ne hij] at hk ⊢
    exact h.gdb j k hk
  · rw [hij, Function.update_self] at hj ⊢
    exact hconnected hj
  · rw [Function.update_of_ne hij] at hj ⊢
    exact h.connected j hj

theorem exists_free (h : SessionInv y) (hnone : (y.sessions i).gdb = none) :
    ∃ k, (y.ctxs k).pw = none := by
  by_contra hall
  have hsome (k : Fin N_CTX) : ((y.ctxs k).pw).isSome := by
    rw [Option.isSome_iff_ne_none]
    exact fun heq => hall ⟨k, heq⟩
  -- five contexts for five sessions, so one is for this session
  let ownerOf (k : Fin N_CTX) : Fin MAX_SESSIONS := ((y.ctxs k).pw).get (hsome k)
  have howner (k : Fin N_CTX) : (y.ctxs k).pw = some (ownerOf k) := (Option.some_get (hsome k)).symm
  have hinj : Function.Injective ownerOf := by
    intro k k' heq
    have hk := h.owner k _ (howner k)
    rw [heq, h.owner k' _ (howner k')] at hk
    exact (Option.some.inj hk).symm
  obtain ⟨k, rfl⟩ := Finite.surjective_of_injective hinj i
  rw [h.owner k _ (howner k)] at hnone
  cases hnone

/-- **Accepting a client** in a session without a context. -/
theorem accept (h : SessionInv y) (hin_use : (y.sessions i).in_use)
    (hnone : (y.sessions i).gdb = none) (fd : ℕ) : SessionInv (y.sessionTcpAccept i fd) := by
  obtain ⟨k₀, hk₀⟩ := h.exists_free hnone
  unfold Server.sessionTcpAccept Server.gdbCtxCreate
  dsimp only [Server.putSession]
  cases hfind : (List.finRange N_CTX).find? fun k => (y.ctxs k).pw = none with
  | none => exact absurd (decide_eq_true hk₀) (List.find?_eq_none.mp hfind k₀ (List.mem_finRange k₀))
  | some k =>
    have hk : (y.ctxs k).pw = none := of_decide_eq_true
      (@List.find?_some _ (fun k => decide ((y.ctxs k).pw = none)) _ _ hfind)
    dsimp only
    rw [Function.update_self, Function.update_idem]
    refine ⟨fun k' hpw => ?_, fun k' j hpw => ?_, fun j k' hgdb => ?_, fun j hj => ?_⟩
    all_goals dsimp only at *
    · by_cases hkk : k' = k
      · rw [hkk, Function.update_self] at hpw
        cases hpw
      · rw [Function.update_of_ne hkk] at hpw ⊢
        exact h.free k' hpw
    · by_cases hkk : k' = k
      · rw [hkk, Function.update_self] at hpw
        obtain rfl := Option.some.inj hpw
        rw [Function.update_self, hkk]
      · rw [Function.update_of_ne hkk] at hpw
        have hij : j ≠ i := by
          rintro rfl
          rw [h.owner k' j hpw] at hnone
          cases hnone
        rw [Function.update_of_ne hij]
        exact h.owner k' j hpw
    · by_cases hij : j = i
      · rw [hij, Function.update_self] at hgdb
        obtain rfl := Option.some.inj hgdb
        rw [hij, Function.update_self, Function.update_self]
        exact ⟨rfl, hin_use⟩
      · rw [Function.update_of_ne hij] at hgdb ⊢
        obtain ⟨hpw, huse⟩ := h.gdb j k' hgdb
        have hkk : k' ≠ k := by
          rintro rfl
          rw [hk] at hpw
          cases hpw
        rw [Function.update_of_ne hkk]
        exact ⟨hpw, huse⟩
    · by_cases hij : j = i
      · rw [hij, Function.update_self]
        exact nofun
      · rw [Function.update_of_ne hij] at hj ⊢
        exact h.connected j hj

theorem destroy (h : SessionInv y) (i : Fin MAX_SESSIONS) : SessionInv (y.sessionCtxDestroy i) := by
  unfold Server.sessionCtxDestroy
  cases hgdb : (y.sessions i).gdb with
  | none =>
    refine ⟨h.free, fun k j hpw => ?_, fun j k hk => ?_, fun j hj => ?_⟩
    all_goals dsimp only [Server.putSession] at *
    all_goals by_cases hij : j = i
    · rw [← hij, h.owner k j hpw] at hgdb
      cases hgdb
    · rw [Function.update_of_ne hij]
      exact h.owner k j hpw
    · rw [hij, Function.update_self] at hk
      cases hk
    · rw [Function.update_of_ne hij] at hk ⊢
      exact h.gdb j k hk
    · rw [hij, Function.update_self] at hj
      cases hj
    · rw [Function.update_of_ne hij] at hj ⊢
      exact h.connected j hj
  | some k₀ =>
    refine ⟨fun k hpw => ?_, fun k j hpw => ?_, fun j k hk => ?_, fun j hj => ?_⟩
    all_goals dsimp only [Server.putSession, Server.gdbCtxDestroy] at *
    · by_cases hkk : k = k₀
      · rw [hkk, Function.update_self]
        rfl
      · rw [Function.update_of_ne hkk] at hpw ⊢
        exact h.free k hpw
    · by_cases hkk : k = k₀
      · rw [hkk, Function.update_self] at hpw
        cases hpw
      · rw [Function.update_of_ne hkk] at hpw
        have hij : j ≠ i := by
          rintro rfl
          rw [h.owner k j hpw] at hgdb
          exact hkk (Option.some.inj hgdb)
        rw [Function.update_of_ne hij]
        exact h.owner k j hpw
    · by_cases hij : j = i
      · rw [hij, Function.update_self] at hk
        cases hk
      · rw [Function.update_of_ne hij] at hk ⊢
        obtain ⟨hpw, huse⟩ := h.gdb j k hk
        have hkk : k ≠ k₀ := by
          rintro rfl
          rw [(h.gdb i k hgdb).1] at hpw
          exact hij (Option.some.inj hpw).symm
        rw [Function.update_of_ne hkk]
        exact ⟨hpw, huse⟩
    · by_cases hij : j = i
      · rw [hij, Function.update_self] at hj
        cases hj
      · rw [Function.update_of_ne hij] at hj ⊢
        exact h.connected j hj

theorem create (h : SessionInv y) (server : Option ℕ) : SessionInv (y.sessionCtxCreate server) := by
  unfold Server.sessionCtxCreate
  split
  · exact h
  · next i hfind =>
    have hput : SessionInv (y.putSession i
        { y.sessions i with in_use := true, client := -1, server := socketOf server }) :=
      h.put rfl (fun _ => rfl) nofun
    dsimp only
    split
    · exact hput.destroy i
    · exact hput

theorem notifyClosed (h : SessionInv y) (i : Fin MAX_SESSIONS) : SessionInv (y.sessionTcpNotifyClosed i) := by
  refine h.put rfl id fun hconnected => ?_
  have hneg : (y.sessions i).in_use && decide ((0 : ℤ) ≤ -1) := hconnected
  rw [Bool.and_comm] at hneg
  cases hneg

theorem input (h : SessionInv y) (io : GdbCallbacks σ) {k : Fin N_CTX} {data : List Byte} {y' : Server σ}
    (hinput : y.gdbInput io k data = some y') : SessionInv y' := by
  unfold Server.gdbInput at hinput
  cases hpw : (y.ctxs k).pw with
  | none =>
    rw [hpw] at hinput
    cases hinput
  | some i =>
    rw [hpw] at hinput
    cases hinput
    have hsame (k' : Fin N_CTX) (g : GdbCtx) : (Function.update y.ctxs k ⟨g, some i⟩ k').pw = (y.ctxs k').pw := by
      by_cases hkk : k' = k
      · rw [hkk, Function.update_self, hpw]
      · rw [Function.update_of_ne hkk]
    refine ⟨fun k' hfree => ?_, fun k' j hj => ?_, fun j k' hk => ?_, h.connected⟩
    all_goals dsimp only at *
    · rw [hsame] at hfree
      have hkk : k' ≠ k := by
        rintro rfl
        rw [hpw] at hfree
        cases hfree
      rw [Function.update_of_ne hkk]
      exact h.free k' hfree
    · rw [hsame] at hj
      exact h.owner k' j hj
    · rw [hsame]
      exact h.gdb j k' hk

theorem readInput (h : SessionInv y) (io : GdbCallbacks σ) (i : Fin MAX_SESSIONS) {received : List (List Byte)}
    {y' : Server σ} (hread : Server.readInput io i y received = some y') : SessionInv y' := by
  induction received generalizing y with
  | nil =>
    obtain rfl := Option.some.inj hread
    exact h
  | cons data rest ih =>
    unfold Server.readInput at hread
    cases hgdb : (y.sessions i).gdb with
    | none =>
      rw [hgdb] at hread
      cases hread
    | some k =>
      rw [hgdb] at hread
      dsimp only at hread
      cases hinput : y.gdbInput io k data with
      | none =>
        rw [hinput] at hread
        cases hread
      | some y₁ =>
        rw [hinput] at hread
        exact ih (h.input io hinput) hread

theorem in_use_of_find {ro : ℤ → ℤ} {rosocket : ℤ}
    (hfind : y.sessionTcpFindBySocket ro rosocket = some i) : (y.sessions i).in_use := by
  have hfound := @List.find?_some _ (fun i => decide ((y.sessions i).in_use = true ∧
    (ro (y.sessions i).server = rosocket ∨ ro (y.sessions i).client = rosocket))) _ _ hfind
  exact (of_decide_eq_true hfound).1

/-- **A step** in which a client is accepted only where there is no context. -/
theorem perform (h : SessionInv y) (io : GdbCallbacks σ) (ro : ℤ → ℤ) {op : SessionOp σ}
    (haccepts : Accepts ro y op) {y' : Server σ} (hstep : y.perform io ro op = some y') : SessionInv y' := by
  cases op with
  | create server =>
    obtain rfl := Option.some.inj hstep
    exact h.create server
  | destroy i =>
    obtain rfl := Option.some.inj hstep
    exact h.destroy i
  | input rosocket accepted received =>
    unfold Server.perform at hstep
    dsimp only at hstep
    cases hfind : y.sessionTcpFindBySocket ro rosocket with
    | none =>
      rw [hfind] at hstep
      obtain rfl := Option.some.inj hstep
      exact h
    | some i =>
      rw [hfind] at hstep
      unfold Server.sessionTcpProcessInput at hstep
      dsimp only at hstep
      split_ifs at hstep with hserver hclient hother
      · obtain rfl := Option.some.inj hstep
        exact h
      · cases accepted with
        | none =>
          obtain rfl := Option.some.inj hstep
          exact h.notifyClosed i
        | some fd =>
          have hnone := haccepts i hfind hserver (by omega) nofun
          have haccept := h.accept (in_use_of_find hfind) hnone fd
          dsimp only at hstep
          split_ifs at hstep
          · obtain rfl := Option.some.inj hstep
            exact haccept
          · exact haccept.readInput io i hstep
      · obtain rfl := Option.some.inj hstep
        exact h
      · exact h.readInput io i hstep
  | closed rosocket =>
    unfold Server.perform at hstep
    dsimp only at hstep
    cases hfind : y.sessionTcpFindBySocket ro rosocket with
    | none =>
      rw [hfind] at hstep
      obtain rfl := Option.some.inj hstep
      exact h
    | some i =>
      rw [hfind] at hstep
      obtain rfl := Option.some.inj hstep
      split
      · exact h.notifyClosed i
      · exact h
  | wait i =>
    unfold Server.perform at hstep
    dsimp only at hstep
    split at hstep
    · cases hgdb : (y.sessions i).gdb with
      | none =>
        rw [hgdb] at hstep
        cases hstep
      | some k =>
        rw [hgdb] at hstep
        obtain rfl := Option.some.inj hstep
        split
        · exact h.notifyClosed i
        · exact h
    · obtain rfl := Option.some.inj hstep
      exact h
  | other i world =>
    obtain rfl := Option.some.inj hstep
    exact ⟨h.free, h.owner, h.gdb, h.connected⟩

theorem run {io : GdbCallbacks σ} {ro : ℤ → ℤ} (h : SessionRun io ro (Accepts ro) y) : SessionInv y := by
  induction h with
  | initial worlds => exact ⟨fun _ _ => rfl, nofun, nofun, nofun⟩
  | step op _ haccepts hstep ih => exact ih.perform io ro haccepts hstep

theorem begins (h : SessionInv y) {fd : ℕ} {k : Fin N_CTX}
    (hgdb : ((y.sessionTcpAccept i fd).sessions i).gdb = some k) :
    ((y.sessionTcpAccept i fd).ctxs k).ctx = newCtx := by
  unfold Server.sessionTcpAccept Server.gdbCtxCreate at *
  dsimp only [Server.putSession] at *
  cases hfind : (List.finRange N_CTX).find? fun k => (y.ctxs k).pw = none with
  | none =>
    rw [hfind] at hgdb
    dsimp only at hgdb
    rw [Function.update_self] at hgdb
    cases hgdb
  | some k' =>
    rw [hfind] at hgdb
    dsimp only at hgdb ⊢
    rw [Function.update_self] at hgdb
    obtain rfl := Option.some.inj hgdb
    have hk : (y.ctxs k').pw = none := of_decide_eq_true
      (@List.find?_some _ (fun k => decide ((y.ctxs k).pw = none)) _ _ hfind)
    rw [Function.update_self, h.free k' hk]
    rfl

theorem sound (h : SessionInv y) : SessionsSound y := by
  refine ⟨fun i hconnected => ?_, fun i fd k => h.begins, fun i j k hi hj => ?_, ?_⟩
  · obtain ⟨k, hk⟩ := Option.ne_none_iff_exists'.mp (h.connected i hconnected)
    refine ⟨k, hk, (h.gdb i k hk).1, fun k' hk' => ?_⟩
    exact Option.some.inj ((h.owner k' i hk').symm.trans hk)
  · exact Option.some.inj ((h.gdb i k hi).1.symm.trans (h.gdb j k hj).1)
  · -- a context is counted with its session
    refine Finset.card_le_card_of_injOn (fun k => ((y.ctxs k).pw).getD 0) (fun k hk => ?_)
      fun k hk k' hk' heq => ?_
    · obtain ⟨i, hi⟩ := Option.ne_none_iff_exists'.mp (Finset.mem_filter.mp hk).2
      dsimp only
      rw [hi]
      exact Finset.mem_coe.mpr (Finset.mem_filter.mpr ⟨Finset.mem_univ _, (h.gdb i k (h.owner k i hi)).2⟩)
    · obtain ⟨i, hi⟩ := Option.ne_none_iff_exists'.mp (Finset.mem_filter.mp hk).2
      obtain ⟨j, hj⟩ := Option.ne_none_iff_exists'.mp (Finset.mem_filter.mp hk').2
      dsimp only at heq
      rw [hi, hj, Option.getD_some, Option.getD_some] at heq
      have hki := h.owner k i hi
      rw [heq, h.owner k' j hj] at hki
      exact (Option.some.inj hki).symm

end SessionInv

/-- **Sessions have their contexts.** In runs in which a client is accepted only in a session without a context,
sessions and contexts are as expected. -/
theorem sessionRun_sound {σ : Type} (io : GdbCallbacks σ) (ro : ℤ → ℤ) {y : Server σ}
    (h : SessionRun io ro (Accepts ro) y) : SessionsSound y :=
  (SessionInv.run h).sound

def noCallbacks : GdbCallbacks Unit :=
  ⟨id, id, fun _ _ => 0, fun _ _ => (), fun _ _ => ((), true), fun _ _ => ((), true), id, fun _ _ => 0,
    fun _ _ _ => (), 32, fun _ => 0⟩

theorem sessionRun_sound_client :
    ∃ y, [.create (some 7), .input 7 (some 8) [text "$?#3f"], .destroy 0].foldlM
        (Server.perform noCallbacks id) ⟨fun _ => noSession, fun _ => noCtx, fun _ => ()⟩ = some y ∧
      SessionsSound y := by
  refine ⟨_, rfl, sessionRun_sound noCallbacks id (.step (.destroy 0) (.step (.input 7 (some 8) [text "$?#3f"])
    (.step (.create (some 7)) (.initial fun _ => ()) trivial rfl) ?_ rfl) trivial rfl)⟩
  intro i hfind _ _ _
  cases hfind
  rfl

theorem reconnect_leaks :
    ¬∀ y : Server Unit, SessionRun noCallbacks id (fun _ _ => True) y → SessionsSound y := by
  intro h
  have hrun := SessionRun.step (.input 7 (some 8) []) (SessionRun.step (.closed 8)
    (SessionRun.step (.input 7 (some 8) []) (SessionRun.step (.create (some 7))
    (@SessionRun.initial _ noCallbacks id (fun _ _ => True) fun _ => ()) trivial rfl)
    trivial rfl) trivial rfl) trivial rfl
  exact absurd (h _ hrun).count (by decide)

end GdbServer
