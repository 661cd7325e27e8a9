import Gccsdk.SOManager.FromAddr

/-!
# The runtime arrays of a client

`som_generate_runtime_array` of `som_array.c`: for the client of the task two arrays are made, with an element
for each index of `object_array`: the GOT pointers, and what the dynamic linker wants to know. Element 0 is
the client's, and the others are for the client's own copies of the libraries that it uses. Two words of the
runtime workspace are set to point to the arrays.

The arrays that the client has had are freed first, and where one of the allocations fails then, the words of
the workspace still point to them. `runtimeRight_iff`: in every state of the registry the call does as it
should (`RuntimeRight`) just if there is no client, or both allocations succeed, or the words do not point to
arrays of the client's.

What `init_object` and `som_register_sharedobject` store of the clients, the libraries and the entries of the
clients' lists is a parameter (`RuntimeInfo`).
-/

namespace SOManager

open DoublyLinked

structure ObjectInfo where
  got_addr : Addr
  rw_addr : Addr
  rw_size : BitVec 32
  deriving DecidableEq, Repr

structure EntryInfo where
  got_addr : Addr
  rw_addr : Addr
  deriving DecidableEq, Repr

/-- What the records hold that the registry itself does not read. -/
structure RuntimeInfo where
  client : Addr → ObjectInfo
  library : Addr → ObjectInfo
  entry : Addr → EntryInfo

/-- `som_rt_elem` -/
structure RtElem where
  private_GOT_ptr : Addr
  public_RW_ptr : Addr
  private_RW_ptr : Addr
  RW_size : BitVec 32
  deriving DecidableEq, Repr

inductive ArrayBlock
  | gott (base : List Addr)
  | runtime (rt_base : List RtElem)
  deriving DecidableEq, Repr

/-- The words of a runtime workspace that point to arrays. -/
inductive RtWord
  | GOTT_BASE
  | RUNTIME_ARRAY
  deriving DecidableEq, Repr

/-- The arrays of the clients, and the workspaces of the tasks. -/
structure RtState where
  block : Addr → Option ArrayBlock
  /-- `gott_base.base` of a client, -/
  gott_base : Addr → Option Addr
  /-- and `runtime_array.rt_base`. -/
  runtime_array : Addr → Option Addr
  workspace : Task → RtWord → Addr

structure ArrayAnswers where
  gott_base : Option Addr
  runtime_array : Option Addr
  deriving DecidableEq, Repr

namespace RtState

/-- `som_free` of what an array has, and the array has none then. -/
def free (rt : RtState) (base : Option Addr) : RtState :=
  match base with
  | none => rt
  | some a => { rt with block := Function.update rt.block a none }

/-- `somarray_fini` of `gott_base`, -/
def finiGott (rt : RtState) (client : Addr) : RtState :=
  { rt.free (rt.gott_base client) with gott_base := Function.update rt.gott_base client none }

/-- and of `runtime_array`. -/
def finiRuntime (rt : RtState) (client : Addr) : RtState :=
  { rt.free (rt.runtime_array client) with
    runtime_array := Function.update rt.runtime_array client none }

/-- `somarray_init` of `gott_base`, for some elements; without any there is no block, and the member stays
null if there is no memory. -/
def initGott (rt : RtState) (client : Addr) (answer : Option Addr) (elem_count : ℕ) : Option RtState :=
  if elem_count = 0 then some { rt with gott_base := Function.update rt.gott_base client none }
  else
    answer.map fun a =>
      { rt with
        block := Function.update rt.block a (some (.gott (List.replicate elem_count 0)))
        gott_base := Function.update rt.gott_base client (some a) }

/-- `somarray_init` of `runtime_array`. -/
def initRuntime (rt : RtState) (client : Addr) (answer : Option Addr) (elem_count : ℕ) : Option RtState :=
  if elem_count = 0 then some { rt with runtime_array := Function.update rt.runtime_array client none }
  else
    answer.map fun a =>
      { rt with
        block := Function.update rt.block a (some (.runtime (List.replicate elem_count ⟨0, 0, 0, 0⟩)))
        runtime_array := Function.update rt.runtime_array client (some a) }

end RtState

def rtElemSetClient (info : RuntimeInfo) (client : Addr) : RtElem :=
  ⟨(info.client client).got_addr, (info.client client).rw_addr, (info.client client).rw_addr,
    (info.client client).rw_size⟩

def rtElemSet (info : RuntimeInfo) (s : Som) (c_obj : Addr) : RtElem :=
  let library := info.library (s.client_object c_obj).library
  ⟨(info.entry c_obj).got_addr, library.rw_addr, (info.entry c_obj).rw_addr, library.rw_size⟩

/-- The entry of the client's list for an element of `object_array`. -/
def usedEntry (fuel : ℕ) (s : Som) (client : Addr) (object : Option Addr) (i : ℕ) : Option (Option Addr) :=
  match object with
  | none => some none
  | some _ => s.findIn (.objects client) (fun c_obj => (s.libraryOf c_obj).index = i) fuel

/-- The loop over `object_array`, from index `i` on. -/
def usedFrom (fuel : ℕ) (s : Som) (client : Addr) : List (Option Addr) → ℕ → Option (List (Option Addr))
  | [], _ => some []
  | object :: rest, i => do
    let c_obj ← usedEntry fuel s client object i
    let used ← usedFrom fuel s client rest (i + 1)
    return c_obj :: used

def setArrays (rt : RtState) (t : Task) (gott_base runtime_array : Addr) (gott : List Addr)
    (elems : List RtElem) : RtState :=
  { rt with
    block := Function.update (Function.update rt.block gott_base (some (.gott gott))) runtime_array
      (some (.runtime elems))
    workspace := Function.update rt.workspace t fun
      | .GOTT_BASE => gott_base
      | .RUNTIME_ARRAY => runtime_array }

inductive RtErr
  | heap
  | somerr_unknown_client
  deriving DecidableEq, Repr

/-- `som_generate_runtime_array`, for the task `t`. Arrays without elements could not be filled in: `none`. -/
def somGenerateRuntimeArray (fuel : ℕ) (answers : ArrayAnswers) (s : Som) (info : RuntimeInfo) (rt : RtState)
    (t : Task) : Option (RtState × Option RtErr) :=
  match s.client_ptr t with
  | none => some (rt, some .somerr_unknown_client)
  | some client =>
    let rt := (rt.finiGott client).finiRuntime client
    match rt.initGott client answers.gott_base s.object_array.length with
    | none => some ((rt.finiGott client).finiRuntime client, some .heap)
    | some rt =>
      match rt.initRuntime client answers.runtime_array s.object_array.length with
      | none => some ((rt.finiGott client).finiRuntime client, some .heap)
      | some rt => do
        let gott_base ← rt.gott_base client
        let runtime_array ← rt.runtime_array client
        let used ← usedFrom fuel s client (s.object_array.drop 1) 1
        let gott := (info.client client).got_addr :: used.map fun
          | none => 0
          | some c_obj => (info.entry c_obj).got_addr
        let elems := rtElemSetClient info client :: used.map fun
          | none => ⟨0, 0, 0, 0⟩
          | some c_obj => rtElemSet info s c_obj
        return (setArrays rt t gott_base runtime_array gott elems, none)

/-! ### What is to hold -/

def RtState.Points (rt : RtState) (t : Task) (word : RtWord) : Prop := rt.block (rt.workspace t word) ≠ none

/-- The elements of the arrays: the client's, and for each index the client's copy of the library that has it. -/
structure ElementsRight (s : Som) (info : RuntimeInfo) (client : Addr) (entries : List Addr) (gott : List Addr)
    (elems : List RtElem) : Prop where
  gott_length : gott.length = s.object_array.length
  elems_length : elems.length = s.object_array.length
  gott_client : gott[0]? = some (info.client client).got_addr
  elems_client : elems[0]? = some (rtElemSetClient info client)
  /-- An element of an index the client uses, -/
  used : ∀ i, 1 ≤ i → i < s.object_array.length → (∃ e ∈ entries, (s.libraryOf e).index = i) →
    ∃ e ∈ entries, (s.libraryOf e).index = i ∧ gott[i]? = some (info.entry e).got_addr ∧
      elems[i]? = some (rtElemSet info s e)
  /-- and of another one. -/
  unused : ∀ i, 1 ≤ i → i < s.object_array.length → (∀ e ∈ entries, (s.libraryOf e).index ≠ i) →
    gott[i]? = some 0 ∧ elems[i]? = some ⟨0, 0, 0, 0⟩

/-- **What a call is to leave**: arrays as they should be, with the words of the workspace pointing to them; or,
if it fails, the words still point to arrays, where they did. -/
def RuntimeRight (s : Som) (info : RuntimeInfo) (rt : RtState) (t : Task) (entries : List Addr) :
    RtState × Option RtErr → Prop
  | (rt', none) => ∃ client gott elems, s.client_ptr t = some client ∧
      rt'.block (rt'.workspace t .GOTT_BASE) = some (.gott gott) ∧
      rt'.block (rt'.workspace t .RUNTIME_ARRAY) = some (.runtime elems) ∧
      ElementsRight s info client entries gott elems
  | (rt', some _) => ∀ word, rt.Points t word → rt'.Points t word

/-- What is allocated is free once the arrays of the client have been released. -/
structure AnswersFree (answers : ArrayAnswers) (rt : RtState) (client : Addr) : Prop where
  gott : ∀ a, answers.gott_base = some a → ((rt.finiGott client).finiRuntime client).block a = none
  runtime : ∀ a, answers.runtime_array = some a →
    ((rt.finiGott client).finiRuntime client).block a = none ∧ answers.gott_base ≠ some a

def NoOldArrays (rt : RtState) (t : Task) (client : Addr) : Prop :=
  ∀ word, rt.Points t word →
    rt.gott_base client ≠ some (rt.workspace t word) ∧ rt.runtime_array client ≠ some (rt.workspace t word)

/-! ### The elements -/

section Elements

variable {s : Som} {info : RuntimeInfo} {rt rt' : RtState} {t : Task} {client : Addr} {l : SomList → List Addr}
  {loose : Set Addr} {fuel i : ℕ} {object : Option Addr} {rest : List (Option Addr)} {used : List (Option Addr)}

theorem SomInv.find_of_none (hinv : SomInv s l loose) (hobject : s.object_array[i]? = some none) :
    (l (.objects client)).find? (fun e => (s.libraryOf e).index = i) = none := by
  refine List.find?_eq_none.mpr fun e he heq => ?_
  have harray := (hinv.reg.array i _).mpr ⟨hinv.reg.refers client e he, of_decide_eq_true heq⟩
  rw [hobject] at harray
  cases harray

theorem SomInv.usedEntry_eq (hinv : SomInv s l loose) (hc : client ∈ l .clients)
    (hobject : s.object_array[i]? = some object) {c_obj : Option Addr}
    (hr : usedEntry fuel s client object i = some c_obj) :
    c_obj = (l (.objects client)).find? fun e => (s.libraryOf e).index = i := by
  cases object with
  | none => exact (Option.some.inj hr).symm.trans (hinv.find_of_none hobject).symm
  | some a => exact findIn_eq hinv.mem.lists (show Live l (.objects client) from hc) hr

/-- **What the loop collects**: for each index the first entry for the library that has it. -/
theorem SomInv.usedFrom_eq (hinv : SomInv s l loose) (hc : client ∈ l .clients)
    (hrest : ∀ j, rest[j]? = s.object_array[i + j]?) (hr : usedFrom fuel s client rest i = some used) :
    used.length = rest.length ∧ ∀ j, j < rest.length →
      used[j]? = some ((l (.objects client)).find? fun e => (s.libraryOf e).index = i + j) := by
  induction rest generalizing i used with
  | nil =>
    cases hr
    exact ⟨rfl, fun j hj => absurd hj (Nat.not_lt_zero j)⟩
  | cons object rest ih =>
    unfold usedFrom at hr
    simp only [Option.bind_eq_bind, Option.bind_eq_some_iff, Option.pure_def, Option.some.injEq] at hr
    obtain ⟨c_obj, hone, used, hused, rfl⟩ := hr
    have hhead : s.object_array[i]? = some object := (hrest 0).symm
    obtain ⟨hlength, hall⟩ := ih (i := i + 1) (fun j => by
      have hnext := hrest (j + 1)
      rwa [List.getElem?_cons_succ, ← Nat.add_assoc, Nat.add_right_comm] at hnext) hused
    refine ⟨congrArg (· + 1) hlength, fun j hj => ?_⟩
    cases j with
    | zero =>
      rw [List.getElem?_cons_zero, hinv.usedEntry_eq hc hhead hone]
      rfl
    | succ j =>
      rw [List.getElem?_cons_succ, hall j (Nat.lt_of_succ_lt_succ hj), Nat.add_right_comm, Nat.add_assoc]

theorem SomInv.usedFrom_isSome (hinv : SomInv s l loose) (hc : client ∈ l .clients) :
    ∀ rest i, ∃ used, usedFrom (l (.objects client)).length s client rest i = some used := by
  intro rest
  induction rest with
  | nil => exact fun i => ⟨[], rfl⟩
  | cons object rest ih =>
    intro i
    obtain ⟨used, hused⟩ := ih (i + 1)
    have hone : ∃ c_obj, usedEntry (l (.objects client)).length s client object i = some c_obj := by
      cases object with
      | none => exact ⟨none, rfl⟩
      | some a =>
        have hlist := hinv.mem.lists.isList (.objects client) hc
        exact Option.isSome_iff_exists.mp hlist.chain.find_isSome
    obtain ⟨c_obj, hone⟩ := hone
    refine ⟨c_obj :: used, ?_⟩
    unfold usedFrom
    rw [hone, hused]
    rfl

theorem SomInv.elementsRight (hinv : SomInv s l loose) (hc : client ∈ l .clients)
    (hr : usedFrom fuel s client (s.object_array.drop 1) 1 = some used) (f : Option Addr → Addr)
    (g : Option Addr → RtElem) (hf : f none = 0) (hg : g none = ⟨0, 0, 0, 0⟩)
    (hf' : ∀ e, f (some e) = (info.entry e).got_addr) (hg' : ∀ e, g (some e) = rtElemSet info s e) :
    ElementsRight s info client (l (.objects client)) ((info.client client).got_addr :: used.map f)
      (rtElemSetClient info client :: used.map g) := by
  have hdrop : ∀ j, (s.object_array.drop 1)[j]? = s.object_array[1 + j]? := fun j => List.getElem?_drop
  obtain ⟨hlength, hall⟩ := hinv.usedFrom_eq hc hdrop hr
  rw [List.length_drop] at hlength hall
  have hpos := hinv.reg.array_pos
  have hat : ∀ k, k + 1 < s.object_array.length →
      used[k]? = some ((l (.objects client)).find? fun e => (s.libraryOf e).index = k + 1) := by
    intro k hk
    rw [hall k (by omega), Nat.add_comm 1 k]
  refine ⟨?_, ?_, rfl, rfl, fun i hi hlt hex => ?_, fun i hi hlt hno => ?_⟩
  · rw [List.length_cons, List.length_map, hlength]
    omega
  · rw [List.length_cons, List.length_map, hlength]
    omega
  · obtain ⟨k, rfl⟩ : ∃ k, i = k + 1 := ⟨i - 1, by omega⟩
    obtain ⟨e, he, hindex⟩ := hex
    cases hfind : (l (.objects client)).find? fun e => (s.libraryOf e).index = k + 1 with
    | none => exact absurd (decide_eq_true hindex) (List.find?_eq_none.mp hfind e he)
    | some e' =>
      have hslot := hat k hlt
      rw [hfind] at hslot
      have hindex' := of_decide_eq_true
        (List.find?_some (p := fun e => decide ((s.libraryOf e).index = k + 1)) hfind)
      refine ⟨e', List.mem_of_find?_eq_some hfind, hindex', ?_, ?_⟩
      · rw [List.getElem?_cons_succ, List.getElem?_map, hslot, Option.map_some, hf']
      · rw [List.getElem?_cons_succ, List.getElem?_map, hslot, Option.map_some, hg']
  · obtain ⟨k, rfl⟩ : ∃ k, i = k + 1 := ⟨i - 1, by omega⟩
    have hnone : (l (.objects client)).find? (fun e => (s.libraryOf e).index = k + 1) = none :=
      List.find?_eq_none.mpr fun e he heq => hno e he (of_decide_eq_true heq)
    have hslot := hat k hlt
    rw [hnone] at hslot
    refine ⟨?_, ?_⟩
    · rw [List.getElem?_cons_succ, List.getElem?_map, hslot, Option.map_some, hf]
    · rw [List.getElem?_cons_succ, List.getElem?_map, hslot, Option.map_some, hg]

end Elements

/-! ### When the call does as it should -/

section Call

variable {P : ℕ → Heap → Som → Task → SomCall → Prop} {s : Som} {info : RuntimeInfo} {rt : RtState} {t : Task}
  {client : Addr} {answers : ArrayAnswers} {l : SomList → List Addr} {loose : Set Addr}

abbrev RtState.released (rt : RtState) (client : Addr) : RtState := (rt.finiGott client).finiRuntime client

theorem RtState.free_block (rt : RtState) (base : Option Addr) (a : Addr) :
    (rt.free base).block a = if base = some a then none else rt.block a := by
  cases base with
  | none => rfl
  | some b =>
    change Function.update rt.block b none a = _
    by_cases hab : a = b
    · rw [hab, Function.update_self, if_pos rfl]
    · rw [Function.update_of_ne hab, if_neg fun heq => hab (Option.some.inj heq).symm]

theorem RtState.free_rest (rt : RtState) (base : Option Addr) :
    (rt.free base).gott_base = rt.gott_base ∧ (rt.free base).runtime_array = rt.runtime_array ∧
      (rt.free base).workspace = rt.workspace := by
  cases base <;> exact ⟨rfl, rfl, rfl⟩

theorem RtState.released_block (rt : RtState) (client a : Addr) :
    (rt.released client).block a =
      if rt.gott_base client = some a ∨ rt.runtime_array client = some a then none else rt.block a := by
  have hruntime : (rt.finiGott client).runtime_array client = rt.runtime_array client :=
    congrFun (rt.free_rest _).2.1 client
  change (((rt.finiGott client).free ((rt.finiGott client).runtime_array client))).block a = _
  rw [free_block, hruntime]
  change (if rt.runtime_array client = some a then none else (rt.free (rt.gott_base client)).block a) = _
  rw [free_block]
  by_cases hr : rt.runtime_array client = some a
  · rw [if_pos hr, if_pos (Or.inr hr)]
  · rw [if_neg hr]
    by_cases hg : rt.gott_base client = some a
    · rw [if_pos hg, if_pos (Or.inl hg)]
    · rw [if_neg hg, if_neg (not_or.mpr ⟨hg, hr⟩)]

theorem RtState.released_workspace (rt : RtState) (client : Addr) : (rt.released client).workspace = rt.workspace :=
  ((rt.finiGott client).free_rest _).2.2.trans (rt.free_rest _).2.2

theorem RtState.released_bases (rt : RtState) (client : Addr) :
    (rt.released client).gott_base client = none ∧ (rt.released client).runtime_array client = none := by
  refine ⟨?_, Function.update_self ..⟩
  change ((rt.finiGott client).free _).gott_base client = none
  rw [((rt.finiGott client).free_rest _).1]
  exact Function.update_self ..

theorem right_failed_iff {rt' : RtState} {entries : List Addr} {err : RtErr}
    (hblock : rt'.block = (rt.released client).block) (hworkspace : rt'.workspace = rt.workspace) :
    RuntimeRight s info rt t entries (rt', some err) ↔ NoOldArrays rt t client := by
  refine forall_congr' fun word => forall_congr' fun hpoints => ?_
  unfold RtState.Points
  rw [hblock, hworkspace, RtState.released_block]
  by_cases hold : rt.gott_base client = some (rt.workspace t word) ∨
      rt.runtime_array client = some (rt.workspace t word)
  · rw [if_pos hold]
    exact ⟨fun hne => absurd rfl hne, fun hnot => absurd hold (not_or.mpr hnot)⟩
  · rw [if_neg hold]
    exact ⟨fun _ => not_or.mp hold, fun _ => hpoints⟩

/-- Both allocations succeed, or the words of the workspace point to no array of the client's. -/
def ArraysGranted (answers : ArrayAnswers) (s : Som) (rt : RtState) (t : Task) : Prop :=
  ∀ client, s.client_ptr t = some client →
    answers.gott_base ≠ none ∧ answers.runtime_array ≠ none ∨ NoOldArrays rt t client

theorem somGenerateRuntimeArray_eq (info : RuntimeInfo) (fuel : ℕ) (hclient : s.client_ptr t = some client)
    (hpos : s.object_array.length ≠ 0) (hfree : AnswersFree answers rt client) :
    (answers.gott_base = none ∨ answers.runtime_array = none) ∧
        (∃ rt', somGenerateRuntimeArray fuel answers s info rt t = some (rt', some .heap) ∧
          rt'.block = (rt.released client).block ∧ rt'.workspace = rt.workspace) ∨
      ∃ a b, answers.gott_base = some a ∧ answers.runtime_array = some b ∧ a ≠ b ∧
        ∃ rt', somGenerateRuntimeArray fuel answers s info rt t =
          (usedFrom fuel s client (s.object_array.drop 1) 1).map fun used =>
            (setArrays rt' t a b
              ((info.client client).got_addr :: used.map fun
                | none => 0
                | some c_obj => (info.entry c_obj).got_addr)
              (rtElemSetClient info client :: used.map fun
                | none => ⟨0, 0, 0, 0⟩
                | some c_obj => rtElemSet info s c_obj), none) := by
  obtain ⟨hgott, hruntime⟩ := rt.released_bases client
  unfold somGenerateRuntimeArray
  rw [hclient]
  dsimp only
  cases hfirst : answers.gott_base with
  | none =>
    refine Or.inl ⟨Or.inl rfl, (rt.released client).released client, ?_, funext fun x => ?_, ?_⟩
    · rw [RtState.initGott, if_neg hpos]
      rfl
    · rw [RtState.released_block, hgott, hruntime, if_neg (by rintro (h | h) <;> cases h)]
    · rw [RtState.released_workspace, RtState.released_workspace]
  | some a =>
    have ha := hfree.gott a hfirst
    rw [RtState.initGott, if_neg hpos, Option.map_some]
    dsimp only
    cases hsecond : answers.runtime_array with
    | none =>
      let rt₁ : RtState :=
        { rt.released client with
          block := Function.update (rt.released client).block a
            (some (.gott (List.replicate s.object_array.length 0)))
          gott_base := Function.update (rt.released client).gott_base client (some a) }
      refine Or.inl ⟨Or.inr rfl, rt₁.released client, ?_, funext fun x => ?_, ?_⟩
      · rw [RtState.initRuntime, if_neg hpos]
        rfl
      · -- The block that has been allocated is freed again.
        rw [RtState.released_block]
        change (if Function.update (rt.released client).gott_base client (some a) client = some x ∨
          (rt.released client).runtime_array client = some x then none else
            Function.update (rt.released client).block a _ x) = _
        rw [Function.update_self, hruntime]
        by_cases hx : x = a
        · rw [hx, if_pos (Or.inl rfl), ha]
        · rw [if_neg (by rintro (h | h); exacts [hx (Option.some.inj h).symm, by cases h]),
            Function.update_of_ne hx]
      · rw [RtState.released_workspace]
        exact RtState.released_workspace rt client
    | some b =>
      have hab : a ≠ b := by
        rintro rfl
        exact (hfree.runtime a hsecond).2 hfirst
      refine Or.inr ⟨a, b, rfl, rfl, hab, ?_⟩
      rw [RtState.initRuntime, if_neg hpos, Option.map_some]
      dsimp only
      rw [Function.update_self, Function.update_self]
      let rt₂ : RtState :=
        { rt.released client with
          block := Function.update (Function.update (rt.released client).block a
            (some (.gott (List.replicate s.object_array.length 0)))) b
              (some (.runtime (List.replicate s.object_array.length ⟨0, 0, 0, 0⟩)))
          gott_base := Function.update (rt.released client).gott_base client (some a)
          runtime_array := Function.update (rt.released client).runtime_array client (some b) }
      refine ⟨rt₂, ?_⟩
      change (usedFrom fuel s client (s.object_array.drop 1) 1).bind _ = _
      rw [Option.map_eq_bind]
      rfl

theorem setArrays_block {a b : Addr} (hab : a ≠ b) (rt : RtState) (gott : List Addr) (elems : List RtElem) :
    (setArrays rt t a b gott elems).block ((setArrays rt t a b gott elems).workspace t .GOTT_BASE) =
        some (.gott gott) ∧
      (setArrays rt t a b gott elems).block ((setArrays rt t a b gott elems).workspace t .RUNTIME_ARRAY) =
        some (.runtime elems) := by
  unfold setArrays
  dsimp only
  rw [Function.update_self]
  dsimp only
  rw [Function.update_self, Function.update_of_ne hab, Function.update_self]
  exact ⟨rfl, rfl⟩

/-- **The runtime arrays** are as they should be, in every state, just if there is no client, or both
allocations succeed, or no word of the workspace points to an array the client has had. -/
theorem runtimeRight_iff (hrun : SomRun P s) (info : RuntimeInfo) (rt : RtState) (answers : ArrayAnswers)
    (hfree : ∀ client, s.client_ptr t = some client → AnswersFree answers rt client) :
    ∃ entries, (∀ client, s.client_ptr t = some client → IsList s.hdr (s.client client).object_list entries) ∧
      (Answers (fun fuel => somGenerateRuntimeArray fuel answers s info rt t) (RuntimeRight s info rt t entries) ↔
        ArraysGranted answers s rt t) := by
  obtain ⟨l, loose, hinv, -⟩ := SomInv.run hrun
  have hpos : s.object_array.length ≠ 0 := Nat.ne_of_gt hinv.reg.array_pos
  cases hclient : s.client_ptr t with
  | none =>
    refine ⟨[], nofun, ?_⟩
    have hrun' : ∀ fuel, somGenerateRuntimeArray fuel answers s info rt t =
        some (rt, some .somerr_unknown_client) := by
      intro fuel
      unfold somGenerateRuntimeArray
      rw [hclient]
    refine ⟨fun _ client hsome => ?_, fun _ => ⟨⟨0, by rw [hrun']; rfl⟩, fun fuel r hr => ?_⟩⟩
    · rw [hclient] at hsome
      cases hsome
    · rw [hrun'] at hr
      obtain rfl := Option.some.inj hr
      exact fun word hpoints => hpoints
  | some client =>
    have hc := hinv.client_ptr t client hclient
    refine ⟨l (.objects client), fun client' hsome => ?_, ?_⟩
    · obtain rfl := Option.some.inj hsome
      exact hinv.mem.lists.isList (.objects client) hc
    have hgranted : ArraysGranted answers s rt t ↔
        answers.gott_base ≠ none ∧ answers.runtime_array ≠ none ∨ NoOldArrays rt t client := by
      refine ⟨fun hall => hall client hclient, fun hone client' hsome => ?_⟩
      rw [hclient] at hsome
      obtain rfl := Option.some.inj hsome
      exact hone
    rw [hgranted]
    constructor
    · rintro ⟨⟨fuel, hends⟩, hright⟩
      rcases somGenerateRuntimeArray_eq info fuel hclient hpos (hfree client hclient) with
        ⟨-, rt', hfail, hblock, hworkspace⟩ | ⟨a, b, ha, hb, -, -⟩
      · exact Or.inr ((right_failed_iff hblock hworkspace).mp (hright fuel _ hfail))
      · exact Or.inl ⟨by rw [ha]; nofun, by rw [hb]; nofun⟩
    · intro hcond
      have hcall := fun fuel => somGenerateRuntimeArray_eq info fuel hclient hpos (hfree client hclient)
      refine ⟨⟨(l (.objects client)).length, ?_⟩, fun fuel r hr => ?_⟩
      · rcases hcall (l (.objects client)).length with ⟨-, rt', hfail, -⟩ | ⟨a, b, -, -, -, rt', hdone⟩
        · rw [hfail]
          rfl
        · obtain ⟨used, hused⟩ := hinv.usedFrom_isSome hc (s.object_array.drop 1) 1
          rw [hdone, hused]
          rfl
      · rcases hcall fuel with ⟨hnone, rt', hfail, hblock, hworkspace⟩ | ⟨a, b, -, -, hab, rt', hdone⟩
        · rw [hfail] at hr
          obtain rfl := Option.some.inj hr
          refine (right_failed_iff hblock hworkspace).mpr (hcond.resolve_left fun hboth => ?_)
          rcases hnone with hnone | hnone
          · exact hboth.1 hnone
          · exact hboth.2 hnone
        · rw [hdone] at hr
          obtain ⟨used, hused, rfl⟩ := Option.map_eq_some_iff.mp hr
          obtain ⟨hg, he⟩ := setArrays_block (t := t) hab rt' ((info.client client).got_addr :: used.map fun
              | none => 0
              | some c_obj => (info.entry c_obj).got_addr) (rtElemSetClient info client :: used.map fun
              | none => ⟨0, 0, 0, 0⟩
              | some c_obj => rtElemSet info s c_obj)
          exact ⟨client, _, _, hclient, hg, he,
            hinv.elementsRight hc hused _ _ rfl rfl (fun _ => rfl) fun _ => rfl⟩

end Call

/-! ### Arrays that are freed too early -/

def emptyInfo : RuntimeInfo := ⟨fun _ => ⟨0, 0, 0⟩, fun _ => ⟨0, 0, 0⟩, fun _ => ⟨0, 0⟩⟩

/-- The client at 1 has its arrays at 0x40 and 0x50, and the workspace of its task points to them. -/
def oldArrays : RtState where
  block := fun a => if a = 0x40 then some (.gott [0, 0]) else if a = 0x50 then some (.runtime []) else none
  gott_base := fun _ => some 0x40
  runtime_array := fun _ => some 0x50
  workspace := fun _ => fun
    | .GOTT_BASE => 0x40
    | .RUNTIME_ARRAY => 0x50

theorem runtimeRight_iff_oldArrays : ∃ s entries, oneLibrary true = some s ∧
    IsList s.hdr (s.client 1).object_list entries ∧
      (Answers (fun fuel => somGenerateRuntimeArray fuel ⟨some 0x60, some 0x70⟩ s emptyInfo oldArrays 0)
          (RuntimeRight s emptyInfo oldArrays 0 entries) ↔
        ArraysGranted ⟨some 0x60, some 0x70⟩ s oldArrays 0) := by
  obtain ⟨s, hs, hclient, -⟩ := oneLibrary_facts
  have hrun : SomRun (fun _ _ _ _ _ => True) s := oneLibrary_run true (fun _ => trivial) (fun _ => trivial) hs
  have hfree : ∀ client, s.client_ptr 0 = some client →
      AnswersFree ⟨some 0x60, some 0x70⟩ oldArrays client := by
    intro client _
    refine ⟨fun a ha => ?_, fun a ha => ?_⟩
    · obtain rfl := Option.some.inj ha
      rfl
    · obtain rfl := Option.some.inj ha
      exact ⟨rfl, by decide⟩
  obtain ⟨entries, hlist, hiff⟩ := runtimeRight_iff hrun emptyInfo oldArrays ⟨some 0x60, some 0x70⟩ hfree
  exact ⟨s, entries, hs, hlist 1 hclient, hiff⟩

theorem oldArrays_not_right : ∃ s, SomRun (fun _ _ _ _ _ => True) s ∧ s.client_ptr 0 = some 1 ∧
    (∀ word, oldArrays.Points 0 word) ∧
      ∀ entries, ¬Answers (fun fuel => somGenerateRuntimeArray fuel ⟨none, none⟩ s emptyInfo oldArrays 0)
        (RuntimeRight s emptyInfo oldArrays 0 entries) := by
  obtain ⟨s, hs, hclient, -⟩ := oneLibrary_facts
  have hrun : SomRun (fun _ _ _ _ _ => True) s := oneLibrary_run true (fun _ => trivial) (fun _ => trivial) hs
  obtain ⟨l, loose, hinv, -⟩ := SomInv.run hrun
  have hpoints : ∀ word, oldArrays.Points 0 word := by
    intro word
    cases word <;> nofun
  refine ⟨s, hrun, hclient, hpoints, fun entries hright => ?_⟩
  have hnone : AnswersFree ⟨none, none⟩ oldArrays 1 := ⟨nofun, nofun⟩
  rcases somGenerateRuntimeArray_eq emptyInfo 0 hclient (Nat.ne_of_gt hinv.reg.array_pos) hnone with
    ⟨-, rt', hfail, hblock, hworkspace⟩ | ⟨a, b, ha, -⟩
  · have hold := (right_failed_iff hblock hworkspace).mp (hright.right 0 _ hfail)
    exact (hold .GOTT_BASE (hpoints .GOTT_BASE)).1 rfl
  · cases ha

end SOManager
