import Gccsdk.SOManager.RegistryCalls

/-!
# Runs of the registry

Any number of tasks that register and deregister clients and libraries, with the collector called in between,
in any order; each request to the heap may fail (`SomRun`). `SomSound` is what is expected of the registry in
every state.

`somRun_sound`: it holds as long as no record is given up without being freed. That happens at two places, which
hand `som_free` the address of a variable in place of the record's: when `object_array` cannot be extended for
a new library, and when there is no memory for the names of a client that goes (`Fits`). Whatever the heap
answers, no record that is linked has been freed, and all the rest holds as well (`somRun_kept`).
-/

namespace SOManager

open DoublyLinked

inductive SomCall
  | registerClient
  | registerSharedobject (handle : BitVec 32) (base_addr : Addr)
  | deregisterSharedObject (handle : BitVec 32)
  | deregisterClient
  | callback
  /-- `*SOMExpire`. -/
  | expire (max_idle_time : BitVec 32)

/-- A call, by the task `t` at the time `now`. -/
def somCall (fuel : ℕ) (heap : Heap) (now : BitVec 32) (s : Som) (t : Task) : SomCall → Option Som
  | .registerClient => (somRegisterClient fuel heap now s t).map Prod.fst
  | .registerSharedobject handle base_addr =>
    (somRegisterSharedobject fuel heap s t handle base_addr).map Prod.fst
  | .deregisterSharedObject handle =>
    (somDeregisterSharedObject fuel now s t handle).map Prod.fst
  | .deregisterClient => (somDeregisterClient fuel heap now s t).map Prod.fst
  | .callback => somCallbackHandler fuel now s
  | .expire max_idle_time => some { s with max_idle_time := max_idle_time }

/-- The registry behind `module_initialise`: the array has the element of the client. -/
structure SomInitial (s : Som) : Prop where
  client_list : s.client_list = linklistInitList
  object_list : s.object_list = linklistInitList
  client_history : s.client_history = linklistInitList
  object_array : s.object_array = [none]
  block : s.block = fun _ => none
  client_ptr : s.client_ptr = fun _ => none

/-- The states of the registry in runs all of whose calls are as `P` says. -/
inductive SomRun (P : ℕ → Heap → Som → Task → SomCall → Prop) : Som → Prop
  | initial {s} : SomInitial s → SomRun P s
  | call {s s'} (fuel : ℕ) (heap : Heap) (now : BitVec 32) (t : Task) (call : SomCall) : SomRun P s →
      P fuel heap s t call → somCall fuel heap now s t call = some s' → SomRun P s'

def Fits (fuel : ℕ) (heap : Heap) (s : Som) (t : Task) : SomCall → Prop
  | .registerSharedobject handle _ => ObjectFits fuel heap s t handle
  | .deregisterClient => NamesFit heap s t
  | _ => True

/-! ### What is expected -/

/-- **The registry**, with the records `l` of its lists. -/
structure SomSound (s : Som) (l : SomList → List Addr) : Prop where
  /-- The lists are linked as they should be, and no record is on two of them. -/
  lists : Lists s.hdr s.list (Live l) l
  /-- The global list is sorted by base address, -/
  sorted : (l .libraries).Pairwise fun a b => (s.library a).base_addr ≤ (s.library b).base_addr
  /-- and has one record for each handle. -/
  handles : (l .libraries).Pairwise fun a b => (s.library a).handle ≠ (s.library b).handle
  /-- The usage count is the number of entries for the library in the clients' lists. -/
  usage : ∀ a ∈ l .libraries, (s.library a).usage_count = users s.client_object l a
  /-- The indices are at least 1, -/
  index_pos : ∀ a ∈ l .libraries, 1 ≤ (s.library a).index
  /-- and the array leads from an index to the library that has it. -/
  array : ∀ i a, s.object_array[i]? = some (some a) ↔ a ∈ l .libraries ∧ (s.library a).index = i
  linked : ∀ a k, s.block a = some k ↔ Leads s l k a

theorem Mem.block_of_leads {s : Som} {l : SomList → List Addr} {loose : Set Addr} (h : Mem s l loose)
    {a : Addr} {k : Block} (hlead : Leads s l k a) : s.block a = some k := by
  rcases hlead with ⟨j, rfl, ha⟩ | ⟨rfl, b, hb, rfl⟩
  · exact h.kept j a ha
  · exact h.names b hb

theorem SomInv.sound {s : Som} {l : SomList → List Addr} (h : SomInv s l ∅) : SomSound s l where
  lists := h.mem.lists
  sorted := h.reg.sorted
  handles := h.reg.handles
  usage := h.reg.usage
  index_pos := h.reg.index_pos
  array := h.reg.array
  linked a k := ⟨fun hb => (h.mem.leads a k hb).resolve_right id, h.mem.block_of_leads⟩

/-! ### The invariant in a run -/

section Runs

variable {P : ℕ → Heap → Som → Task → SomCall → Prop} {s s' : Som} {l : SomList → List Addr}
  {loose : Set Addr}

theorem SomInitial.somInv (h : SomInitial s) : SomInv s (fun _ => []) ∅ where
  mem :=
    { lists :=
        { isList := fun k hk => by
            cases k with
            | clients => exact ⟨congrArg _ h.client_list, congrArg _ h.client_list,
                congrArg _ h.client_list, trivial⟩
            | libraries => exact ⟨congrArg _ h.object_list, congrArg _ h.object_list,
                congrArg _ h.object_list, trivial⟩
            | history => exact ⟨congrArg _ h.client_history, congrArg _ h.client_history,
                congrArg _ h.client_history, trivial⟩
            | objects client => cases hk
          dead := fun _ _ => rfl
          disjoint := fun ha => by cases ha }
      kept := fun _ _ ha => by cases ha
      names := fun _ ha => by cases ha
      names_inj := fun _ ha => by cases ha
      leads := fun a k ha => by
        rw [h.block] at ha
        cases ha }
  reg :=
    { sorted := List.Pairwise.nil
      handles := List.Pairwise.nil
      refers := fun _ _ ha => by cases ha
      usage := fun _ ha => by cases ha
      index_pos := fun _ ha => by cases ha
      array := fun i a => by
        rw [h.object_array, List.getElem?_singleton]
        constructor
        · intro ha
          split at ha <;> cases ha
        · rintro ⟨ha, -⟩
          cases ha
      array_pos := by
        rw [h.object_array]
        exact Nat.le_refl 1
      client_sorted := fun _ => List.Pairwise.nil }
  client_ptr t c hc := by
    rw [h.client_ptr] at hc
    cases hc
  client_ptr_inj t t' c hc := by
    rw [h.client_ptr] at hc
    cases hc

/-- **A call keeps the invariant**, and loses no record if the heap grants what is needed. -/
theorem SomInv.call (h : SomInv s l loose) {fuel : ℕ} {heap : Heap} {now : BitVec 32} {t : Task}
    {call : SomCall} (hr : somCall fuel heap now s t call = some s') :
    ∃ l' loose', SomInv s' l' loose' ∧ (Fits fuel heap s t call → loose' = loose) := by
  cases call with
  | registerClient =>
    obtain ⟨⟨s₁, err⟩, hcall, rfl⟩ := Option.map_eq_some_iff.mp hr
    obtain ⟨l', hinv⟩ := h.registerClient hcall
    exact ⟨l', loose, hinv, fun _ => rfl⟩
  | registerSharedobject handle base_addr =>
    obtain ⟨⟨s₁, err⟩, hcall, rfl⟩ := Option.map_eq_some_iff.mp hr
    exact h.registerSharedobject hcall
  | deregisterSharedObject handle =>
    obtain ⟨⟨s₁, err⟩, hcall, rfl⟩ := Option.map_eq_some_iff.mp hr
    unfold somDeregisterSharedObject at hcall
    split at hcall
    · cases hcall
      exact ⟨l, loose, h, fun _ => rfl⟩
    · rename_i client hclient
      rw [Option.bind_eq_bind, Option.bind_eq_some_iff] at hcall
      obtain ⟨s₂, hone, hs⟩ := hcall
      cases hs
      obtain ⟨l', hinv, -⟩ := h.deregisterSharedObject (h.client_ptr t client hclient) hone
      exact ⟨l', loose, hinv, fun _ => rfl⟩
  | deregisterClient =>
    obtain ⟨⟨s₁, err⟩, hcall, rfl⟩ := Option.map_eq_some_iff.mp hr
    exact h.deregisterClient hcall
  | callback =>
    obtain ⟨l', hinv⟩ := h.callback hr
    exact ⟨l', loose, hinv, fun _ => rfl⟩
  | expire max_idle_time =>
    obtain rfl := Option.some.inj hr
    exact ⟨l, loose, ⟨h.mem.congr rfl (fun _ _ => rfl) rfl rfl, h.reg, h.client_ptr,
      h.client_ptr_inj⟩, fun _ => rfl⟩

theorem SomInv.run (h : SomRun P s) :
    ∃ l loose, SomInv s l loose ∧
      ((∀ fuel heap s t call, P fuel heap s t call → Fits fuel heap s t call) → loose = ∅) := by
  induction h with
  | initial h => exact ⟨_, ∅, h.somInv, fun _ => rfl⟩
  | call fuel heap now t call _ hP hr ih =>
    obtain ⟨l, loose, hinv, hloose⟩ := ih
    obtain ⟨l', loose', hinv', hloose'⟩ := hinv.call hr
    refine ⟨l', loose', hinv', fun hfits => ?_⟩
    rw [hloose' (hfits _ _ _ _ _ hP), hloose hfits]

/-- **Whatever the heap answers**, the lists are well linked, and no record that they lead to has been freed. -/
theorem somRun_kept (h : SomRun P s) :
    ∃ l, Lists s.hdr s.list (Live l) l ∧ Reg s.library s.client_object s.object_array l ∧
      ∀ a k, Leads s l k a → s.block a = some k := by
  obtain ⟨l, loose, hinv, -⟩ := SomInv.run h
  exact ⟨l, hinv.mem.lists, hinv.reg, fun a k hlead => hinv.mem.block_of_leads hlead⟩

/-- **The registry is sound** in every run in which the heap grants what is needed to lose no record. -/
theorem somRun_sound (h : SomRun Fits s) : ∃ l, SomSound s l := by
  obtain ⟨l, loose, hinv, hloose⟩ := SomInv.run h
  rw [hloose fun _ _ _ _ _ hP => hP] at hinv
  exact ⟨l, hinv.sound⟩

end Runs

/-! ### A client and a library -/

/-- The registry behind `module_initialise`. -/
def somStart : Som where
  client_list := linklistInitList
  object_list := linklistInitList
  client_history := linklistInitList
  object_array := [none]
  max_idle_time := 0
  hdr := fun _ => ⟨none, none⟩
  client := fun _ => ⟨0, linklistInitList⟩
  library := fun _ => ⟨0, 0, 0, 0, 0⟩
  client_object := fun _ => ⟨0⟩
  all_names := fun _ => 0
  block := fun _ => none
  client_ptr := fun _ => none

def fourBlocks (extend : Bool) : Heap where
  claim m _ := [1, 2, 3, 4].find? fun a => m a = none
  extend _ := extend
  claim_free h := of_decide_eq_true (List.find?_some (p := fun a => decide (_ = none)) h)

def oneLibrary (extend : Bool) : Option Som :=
  (somCall 4 (fourBlocks extend) 0 somStart 0 .registerClient).bind fun s =>
    somCall 4 (fourBlocks extend) 0 s 0 (.registerSharedobject 7 0x100)

theorem oneLibrary_run {P : ℕ → Heap → Som → Task → SomCall → Prop} {s : Som} (extend : Bool)
    (hclient : ∀ s, P 4 (fourBlocks extend) s 0 .registerClient)
    (hlibrary : ∀ s, P 4 (fourBlocks extend) s 0 (.registerSharedobject 7 0x100))
    (hs : oneLibrary extend = some s) : SomRun P s := by
  obtain ⟨s₁, h₁, h₂⟩ := Option.bind_eq_some_iff.mp hs
  have hinit : SomRun P somStart := .initial ⟨rfl, rfl, rfl, rfl, rfl, rfl⟩
  exact .call 4 _ 0 0 _ (.call 4 _ 0 0 _ hinit (hclient _) h₁) (hlibrary _) h₂

theorem somRun_sound_oneLibrary : ∃ s l, oneLibrary true = some s ∧ SomSound s l := by
  have hsome : (oneLibrary true).isSome = true := by decide
  obtain ⟨s, hs⟩ := Option.isSome_iff_exists.mp hsome
  have hrun : SomRun Fits s :=
    oneLibrary_run true (fun _ => trivial) (fun _ _ _ _ _ _ => rfl) hs
  obtain ⟨l, hsound⟩ := somRun_sound hrun
  exact ⟨s, l, hs, hsound⟩

theorem somRun_kept_oneLibrary : ∃ s l, oneLibrary false = some s ∧ Lists s.hdr s.list (Live l) l ∧
    ∀ a k, Leads s l k a → s.block a = some k := by
  have hsome : (oneLibrary false).isSome = true := by decide
  obtain ⟨s, hs⟩ := Option.isSome_iff_exists.mp hsome
  obtain ⟨l, hlists, -, hblock⟩ := somRun_kept
    (oneLibrary_run (P := fun _ _ _ _ _ => True) false (fun _ => trivial) (fun _ => trivial) hs)
  exact ⟨s, l, hs, hlists, hblock⟩
theorem somRegister_leaks : ¬∀ s, SomRun (fun _ _ _ _ _ => True) s → ∃ l, SomSound s l := by
  intro hall
  have hsome : (oneLibrary false).map (fun s => (s.block 2, s.object_list.first)) =
      some (some .library, none) := by decide
  obtain ⟨s, hs, hfacts⟩ := Option.map_eq_some_iff.mp hsome
  obtain ⟨hblock, hfirst⟩ := Prod.mk.inj hfacts
  obtain ⟨l, hsound⟩ := hall s (oneLibrary_run false (fun _ => trivial) (fun _ => trivial) hs)
  rcases (hsound.linked 2 .library).mp hblock with ⟨j, hj, hmem⟩ | ⟨huse, -⟩
  · have hj' : j = .libraries := by
      cases j <;> first | rfl | cases hj
    have hhead := (hsound.lists.isList .libraries trivial).first
    change s.object_list.first = _ at hhead
    rw [hfirst] at hhead
    rw [hj', List.head?_eq_none_iff.mp hhead.symm] at hmem
    cases hmem
  · cases huse

end SOManager
