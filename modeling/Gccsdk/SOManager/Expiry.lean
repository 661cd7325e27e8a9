import Gccsdk.SOManager.RegistryRuns

/-!
# Libraries that expire

`som_callback_handler` of `som_main.c` frees the libraries that have had no user for `max_idle_time`
centiseconds. The deadline of a library is set when its last user goes, from the monotonic time, which has 32
bits and wraps around. Here the registry gets the real time along (`TimedSom`): how many centiseconds have
passed since the clock stood at `start`, and for each library when its usage count last became zero.

`expiryRight_iff`: in the runs in which each new library gets its first entry (`EntryFits`), a callback frees
what it should and nothing else (`ExpiryRight`) just if no deadline is in a later period of the clock than the
callback itself (`NoDeadlineBeyond`). The deadlines are followed through a run by `TimedInv`.
-/

namespace SOManager

open DoublyLinked

/-- A library is in memory: `object_array` leads to it. -/
def Som.InMemory (s : Som) (a : Addr) : Prop := some a ∈ s.object_array

instance (s : Som) (a : Addr) : Decidable (s.InMemory a) :=
  inferInstanceAs (Decidable (some a ∈ s.object_array))

def Som.Unused (s : Som) (a : Addr) : Prop := s.InMemory a ∧ (s.library a).usage_count = 0

instance (s : Som) (a : Addr) : Decidable (s.Unused a) := inferInstanceAs (Decidable (_ ∧ _))

def Som.Uses (s : Som) (a : Addr) : Prop :=
  ∃ clients client entries, IsList s.hdr s.client_list clients ∧ client ∈ clients ∧
    IsList s.hdr (s.client client).object_list entries ∧ ∃ e ∈ entries, (s.client_object e).library = a

/-! ### Time -/

structure TimedSom where
  som : Som
  time : ℕ
  since : Addr → ℕ

def osReadMonotonicTime (start : BitVec 32) (time : ℕ) : BitVec 32 := start + BitVec.ofNat 32 time

/-- The state behind a call at a time. A library that had no users before, and was in memory, keeps its time. -/
def TimedSom.after (x : TimedSom) (time : ℕ) (s' : Som) : TimedSom :=
  ⟨s', time, fun a => if x.som.Unused a then x.since a else time⟩

/-- The runs of registrations, deregistrations and callbacks, at times that do not decrease, all of whose calls
are as `P` says. -/
inductive TimedRun (start : BitVec 32) (P : ℕ → Heap → TimedSom → ℕ → Task → SomCall → Prop) : TimedSom → Prop
  | initial {s} (since : Addr → ℕ) : SomInitial s → TimedRun start P ⟨s, 0, since⟩
  | call {x s'} (fuel : ℕ) (heap : Heap) (time : ℕ) (t : Task) (call : SomCall) : TimedRun start P x →
      x.time ≤ time → (∀ max_idle_time, call ≠ .expire max_idle_time) → P fuel heap x time t call →
      somCall fuel heap (osReadMonotonicTime start time) x.som t call = some s' →
      TimedRun start P (x.after time s')

/-- **What a callback may free**: libraries that no registered client uses, and whose usage count has been zero
for `max_idle_time` centiseconds. -/
def ExpiryRight (x : TimedSom) (time : ℕ) (s' : Som) : Prop :=
  ∀ a, x.som.InMemory a → ¬s'.InMemory a →
    ¬x.som.Uses a ∧ x.since a + x.som.max_idle_time.toNat ≤ time

/-- No library without users has its deadline in a later period of the clock. -/
def NoDeadlineBeyond (start : BitVec 32) (x : TimedSom) (time : ℕ) : Prop :=
  ∀ a, x.som.Unused a →
    (start.toNat + x.since a + x.som.max_idle_time.toNat) / 2 ^ 32 ≤ (start.toNat + time) / 2 ^ 32

/-- There is memory for the first entry of a new library, if the library gets into the array. -/
def EntryFits (fuel : ℕ) (heap : Heap) (s : Som) (t : Task) (handle : BitVec 32) : Prop :=
  ∀ a, s.client_ptr t ≠ none → findLibrary fuel s handle = some none →
    heap.claim s.block .library = some a →
    (somarrayUnused s.object_array < s.object_array.length ∨
      heap.extend (Function.update s.block a (some .library)) = true) →
    heap.claim (Function.update s.block a (some .library)) .client_object ≠ none

/-- The call sets a deadline for each library it leaves without users, and reads none that is out of sight. -/
def ExpiryFits (start : BitVec 32) (fuel : ℕ) (heap : Heap) (x : TimedSom) (time : ℕ) (t : Task) :
    SomCall → Prop
  | .registerSharedobject handle _ => EntryFits fuel heap x.som t handle
  | .callback => NoDeadlineBeyond start x time
  | _ => True

/-! ### Calls that only lower usage counts -/

/-- No library comes, and a usage count that changes falls; where it falls to zero the deadline is set. -/
structure Falls (now : BitVec 32) (s s' : Som) : Prop where
  idle : s'.max_idle_time = s.max_idle_time
  memory : ∀ a, s'.InMemory a → s.InMemory a
  library : ∀ a, s'.library a = s.library a ∨
    (s'.library a).usage_count < (s.library a).usage_count ∧
      ((s'.library a).usage_count = 0 → (s'.library a).expire_time = now + s.max_idle_time)

/-- What the expiry of libraries depends on is as it was. -/
structure SameObjects (s s' : Som) : Prop where
  idle : s'.max_idle_time = s.max_idle_time
  array : s'.object_array = s.object_array
  library : s'.library = s.library

section Falls

variable {now : BitVec 32} {s s' s'' : Som} {fuel walk : ℕ} {heap : Heap} {k : SomList} {a : Addr} {t : Task}

theorem SameObjects.trans (h : SameObjects s s') (h' : SameObjects s' s'') : SameObjects s s'' :=
  ⟨h'.idle.trans h.idle, h'.array.trans h.array, h'.library.trans h.library⟩

theorem SameObjects.falls (h : SameObjects s s') (now : BitVec 32) : Falls now s s' where
  idle := h.idle
  memory a ha := by
    unfold Som.InMemory at ha ⊢
    rwa [h.array] at ha
  library a := Or.inl (congrFun h.library a)

theorem Falls.refl (now : BitVec 32) (s : Som) : Falls now s s := SameObjects.falls ⟨rfl, rfl, rfl⟩ now

theorem Falls.trans (h : Falls now s s') (h' : Falls now s' s'') : Falls now s s'' where
  idle := h'.idle.trans h.idle
  memory a ha := h.memory a (h'.memory a ha)
  library a := by
    rcases h'.library a with hsame' | ⟨hlt', hzero'⟩
    · rw [hsame']
      exact h.library a
    · rw [h.idle] at hzero'
      refine Or.inr ⟨?_, hzero'⟩
      rcases h.library a with hsame | ⟨hlt, -⟩
      · rwa [hsame] at hlt'
      · exact lt_trans hlt' hlt

theorem sameObjects_setList (s : Som) (header : LinkList) (k : SomList) : SameObjects s (s.setList header k) := by
  cases k <;> exact ⟨rfl, rfl, rfl⟩

theorem sameObjects_addToEnd (s : Som) (k : SomList) (a : Addr) : SameObjects s (s.addToEnd k a) :=
  (sameObjects_setList s _ k).trans ⟨rfl, rfl, rfl⟩

theorem sameObjects_remove (s : Som) (k : SomList) (a : Addr) : SameObjects s (s.remove k a) :=
  (sameObjects_setList s _ k).trans ⟨rfl, rfl, rfl⟩

theorem sameObjects_insertIn {p : Addr → Bool} (hr : insertIn fuel s k p a = some s') : SameObjects s s' := by
  unfold insertIn at hr
  rw [Option.bind_eq_bind, Option.bind_eq_some_iff] at hr
  obtain ⟨at_, -, hr⟩ := hr
  cases at_ with
  | none =>
    obtain rfl := Option.some.inj hr
    exact sameObjects_addToEnd s k a
  | some at_ =>
    obtain rfl := Option.some.inj hr
    exact (sameObjects_setList s _ k).trans ⟨rfl, rfl, rfl⟩

theorem insertIn_block {p : Addr → Bool} (hr : insertIn fuel s k p a = some s') : s'.block = s.block := by
  unfold insertIn at hr
  rw [Option.bind_eq_bind, Option.bind_eq_some_iff] at hr
  obtain ⟨at_, -, hr⟩ := hr
  have hset : ∀ header, (s.setList header k).block = s.block := by
    intro header
    cases k <;> rfl
  cases at_ with
  | none =>
    obtain rfl := Option.some.inj hr
    exact hset _
  | some at_ =>
    obtain rfl := Option.some.inj hr
    exact hset _

theorem falls_removeLibrary (now : BitVec 32) (s : Som) (g : Addr) : Falls now s (removeLibrary s g) where
  idle := (sameObjects_remove s .libraries g).idle
  memory a ha := by
    change some a ∈ (s.remove .libraries g).object_array.set _ none at ha
    rw [(sameObjects_remove s .libraries g).array] at ha
    exact (List.mem_or_eq_of_mem_set ha).resolve_right nofun
  library a := Or.inl (congrFun (sameObjects_remove s .libraries g).library a)

theorem falls_dropUse (now : BitVec 32) (s : Som) (g : Addr) : Falls now s (dropUse now s g) where
  idle := rfl
  memory a ha := ha
  library a := by
    by_cases hag : a = g
    · subst hag
      refine Or.inr ?_
      change (Function.update s.library a _ a).usage_count < _ ∧ _
      unfold dropUse
      dsimp only
      rw [Function.update_self]
      exact ⟨Int.sub_lt_self _ Int.one_pos, fun hzero => if_neg (not_not.mpr hzero)⟩
    · exact Or.inl (Function.update_of_ne hag _ _)

theorem falls_deregisterSharedObject {client : Addr} {handle : BitVec 32}
    (hr : deregisterSharedObject fuel now s client handle = some s') : Falls now s s' := by
  unfold deregisterSharedObject at hr
  rw [Option.bind_eq_bind, Option.bind_eq_some_iff] at hr
  obtain ⟨found, -, hr⟩ := hr
  cases found with
  | some e =>
    obtain rfl := Option.some.inj hr
    have hremoved : SameObjects s (somFree (s.remove (.objects client) e) e) :=
      (sameObjects_remove s (.objects client) e).trans ⟨rfl, rfl, rfl⟩
    exact (hremoved.falls now).trans (falls_dropUse now _ _)
  | none =>
    dsimp only at hr
    rw [Option.bind_eq_some_iff] at hr
    obtain ⟨found, -, hr⟩ := hr
    cases found with
    | none =>
      obtain rfl := Option.some.inj hr
      exact Falls.refl now s
    | some g =>
      dsimp only at hr
      split at hr
      · obtain rfl := Option.some.inj hr
        exact falls_removeLibrary now s g
      · obtain rfl := Option.some.inj hr
        exact Falls.refl now s

theorem falls_deregisterObjects {client : Addr} {e : Option Addr}
    (hr : deregisterObjects walk now client fuel s e = some s') : Falls now s s' := by
  induction fuel generalizing s e with
  | zero =>
    cases e with
    | none =>
      cases hr
      exact Falls.refl now _
    | some e => cases hr
  | succ fuel ih =>
    cases e with
    | none =>
      cases hr
      exact Falls.refl now _
    | some e =>
      unfold deregisterObjects at hr
      rw [Option.bind_eq_bind, Option.bind_eq_some_iff] at hr
      obtain ⟨s₁, hone, hrest⟩ := hr
      exact (falls_deregisterSharedObject hone).trans (ih hrest)

theorem sameObjects_trimHistory (s : Som) : SameObjects s (trimHistory s) := by
  unfold trimHistory
  split
  · split
    · exact ⟨rfl, rfl, rfl⟩
    · rename_i oldest _
      have hremoved := sameObjects_remove s .history oldest
      exact ⟨hremoved.idle, hremoved.array, hremoved.library⟩
  · exact ⟨rfl, rfl, rfl⟩

theorem sameObjects_somAlloc {use : Block} (hr : somAlloc heap s use = some (s', a)) : SameObjects s s' := by
  unfold somAlloc at hr
  split at hr
  · cases hr
  · cases hr
    exact ⟨rfl, rfl, rfl⟩

theorem sameObjects_somHistoryAddClient (heap : Heap) (s : Som) :
    SameObjects s (somHistoryAddClient heap s) := by
  unfold somHistoryAddClient
  split
  · exact ⟨rfl, rfl, rfl⟩
  · rename_i s₁ client_hist halloc
    have hfirst : SameObjects s (clearHistory s₁ client_hist) :=
      (sameObjects_somAlloc halloc).trans ⟨rfl, rfl, rfl⟩
    split
    · exact hfirst
    · rename_i s₂ all_names halloc₂
      have hnames : SameObjects s₂ (setNames s₂ client_hist all_names) := ⟨rfl, rfl, rfl⟩
      exact ((hfirst.trans (sameObjects_somAlloc halloc₂)).trans hnames).trans
        ((sameObjects_addToEnd _ .history client_hist).trans (sameObjects_trimHistory _))

theorem falls_registerClient {err : Option SomErr}
    (hr : somRegisterClient fuel heap now s t = some (s', err)) : Falls now s s' := by
  unfold somRegisterClient at hr
  split at hr
  · cases hr
    exact Falls.refl now s
  · rename_i s₁ client halloc
    rw [Option.bind_eq_bind, Option.bind_eq_some_iff] at hr
    obtain ⟨ID, -, hr⟩ := hr
    cases hr
    have hset : SameObjects s₁ (setClient (clearClient s₁ client) t client ID) := ⟨rfl, rfl, rfl⟩
    exact (((sameObjects_somAlloc halloc).trans hset).trans
      (sameObjects_addToEnd _ .clients client)).falls now

theorem falls_deregisterClient {err : Option SomErr}
    (hr : somDeregisterClient fuel heap now s t = some (s', err)) : Falls now s s' := by
  unfold somDeregisterClient at hr
  split at hr
  · cases hr
    exact Falls.refl now s
  · rename_i client hclient
    dsimp only at hr
    rw [Option.bind_eq_bind, Option.bind_eq_some_iff] at hr
    obtain ⟨s₁, hloop, hr⟩ := hr
    cases hr
    have hleft : SameObjects s { s with client_ptr := Function.update s.client_ptr t none } := ⟨rfl, rfl, rfl⟩
    have hhist := hleft.trans (sameObjects_somHistoryAddClient heap _)
    have hgone : SameObjects s₁ (somFree (s₁.remove .clients client) client) :=
      (sameObjects_remove s₁ .clients client).trans ⟨rfl, rfl, rfl⟩
    exact ((hhist.falls now).trans (falls_deregisterObjects hloop)).trans (hgone.falls now)

theorem falls_deregister {handle : BitVec 32} {err : Option SomErr}
    (hr : somDeregisterSharedObject fuel now s t handle = some (s', err)) : Falls now s s' := by
  unfold somDeregisterSharedObject at hr
  split at hr
  · cases hr
    exact Falls.refl now s
  · rw [Option.bind_eq_bind, Option.bind_eq_some_iff] at hr
    obtain ⟨s₁, hone, hr⟩ := hr
    cases hr
    exact falls_deregisterSharedObject hone

end Falls

/-! ### A registration -/

section Register

variable {s s' : Som} {l : SomList → List Addr} {loose : Set Addr} {heap : Heap} {fuel : ℕ} {t : Task}
  {handle : BitVec 32} {base_addr : Addr} {err : Option SomErr} {client g a : Addr}

theorem SomInv.inMemory_iff (h : SomInv s l loose) : s.InMemory a ↔ a ∈ l .libraries := by
  unfold Som.InMemory
  rw [List.mem_iff_getElem?]
  constructor
  · rintro ⟨i, hi⟩
    exact ((h.reg.array i a).mp hi).1
  · intro ha
    exact ⟨(s.library a).index, (h.reg.array _ a).mpr ⟨ha, rfl⟩⟩

theorem recordObject_objects (hr : recordObject fuel heap s client g = some (s', err)) :
    s'.max_idle_time = s.max_idle_time ∧ s'.object_array = s.object_array ∧
      (heap.claim s.block .client_object = none ∧ s'.library = s.library ∨
        s'.library = Function.update s.library g
          { s.library g with usage_count := (s.library g).usage_count + 1 }) := by
  unfold recordObject at hr
  split at hr
  · rename_i hnone
    cases hr
    refine ⟨rfl, rfl, Or.inl ⟨?_, rfl⟩⟩
    unfold somAlloc at hnone
    split at hnone
    · assumption
    · cases hnone
  · rename_i s₁ e halloc
    rw [Option.bind_eq_bind, Option.bind_eq_some_iff] at hr
    obtain ⟨s₂, hins, hr⟩ := hr
    cases hr
    have hsame := sameObjects_somAlloc halloc
    have hadded := sameObjects_insertIn hins
    refine ⟨hadded.idle.trans hsame.idle, hadded.array.trans hsame.array, Or.inr ?_⟩
    rw [hadded.library]
    unfold initEntry
    rw [hsame.library]

theorem usage_pos_of_update {library : Addr → LibraryObject} (hcount : 0 ≤ (library g).usage_count)
    (hzero : (Function.update library g
      { library g with usage_count := (library g).usage_count + 1 } a).usage_count = 0) :
    a ≠ g ∧ Function.update library g { library g with usage_count := (library g).usage_count + 1 } a =
      library a := by
  have hne : a ≠ g := by
    rintro rfl
    rw [Function.update_self] at hzero
    exact absurd hzero (Int.ne_of_gt (Int.lt_add_one_of_le hcount))
  exact ⟨hne, Function.update_of_ne hne _ _⟩

/-- **A registration** sets no deadline, and needs none: where there is memory for the entry of a new library, the
libraries without users are those there were. -/
theorem SomInv.registerSharedobject_unused (h : SomInv s l loose) (hfits : EntryFits fuel heap s t handle)
    (hr : somRegisterSharedobject fuel heap s t handle base_addr = some (s', err)) :
    s'.max_idle_time = s.max_idle_time ∧ ∀ a, s'.Unused a → s.Unused a ∧ s'.library a = s.library a := by
  have hsame : s.max_idle_time = s.max_idle_time ∧
      ∀ a, s.Unused a → s.Unused a ∧ s.library a = s.library a := ⟨rfl, fun a ha => ⟨ha, rfl⟩⟩
  unfold somRegisterSharedobject at hr
  split at hr
  · cases hr
    exact hsame
  · rename_i client hclient
    rw [Option.bind_eq_bind, Option.bind_eq_some_iff] at hr
    obtain ⟨found, hfind, hr⟩ := hr
    have hfound := findIn_eq h.mem.lists (k := .libraries) trivial hfind
    cases found with
    | some g =>
      have hg := List.mem_of_find?_eq_some hfound.symm
      obtain ⟨hidle, harray, ⟨-, hlibrary⟩ | hlibrary⟩ := recordObject_objects hr
      · refine ⟨hidle, fun a ha => ?_⟩
        unfold Som.Unused Som.InMemory at ha
        rw [harray, hlibrary] at ha
        exact ⟨ha, congrFun hlibrary a⟩
      · refine ⟨hidle, fun a ha => ?_⟩
        unfold Som.Unused Som.InMemory at ha
        rw [harray, hlibrary] at ha
        have hcount : 0 ≤ (s.library g).usage_count := by
          rw [h.reg.usage g hg]
          exact Int.natCast_nonneg _
        obtain ⟨-, heq⟩ := usage_pos_of_update hcount ha.2
        rw [heq] at ha
        exact ⟨ha, (congrFun hlibrary a).trans heq⟩
    | none =>
      dsimp only at hr
      split at hr
      · cases hr
        exact hsame
      · rename_i s₁ g halloc
        obtain ⟨hclaim, rfl, hfree, -⟩ := h.mem.alloc halloc
        -- The new record is at the address of no library.
        have hold : ∀ a, s.InMemory a → a ≠ g := by
          rintro a ha rfl
          exact h.not_mem hfree .libraries (h.inMemory_iff.mp ha)
        split at hr
        · cases hr
          refine ⟨rfl, fun a ha => ?_⟩
          have heq : Function.update s.library g ⟨0, 0, handle, 0, base_addr⟩ a = s.library a :=
            Function.update_of_ne (hold a ha.1) _ _
          have hzero := ha.2
          change (Function.update s.library g _ a).usage_count = 0 at hzero
          rw [heq] at hzero
          exact ⟨⟨ha.1, hzero⟩, heq⟩
        · rename_i s₂ hadd
          rw [Option.bind_eq_bind, Option.bind_eq_some_iff] at hr
          obtain ⟨s₃, hins, hr⟩ := hr
          have hroom : somarrayUnused s.object_array < s.object_array.length ∨
              heap.extend (Function.update s.block g (some .library)) = true := by
            unfold somarrayAddObject at hadd
            dsimp only at hadd
            split at hadd
            · split at hadd
              · rename_i hextend
                exact Or.inr hextend
              · cases hadd
            · rename_i hlt
              exact Or.inl (Nat.lt_of_not_le hlt)
          have hgrant := hfits g (by rw [hclient]; nofun) hfind hclaim hroom
          obtain ⟨index, array, rfl, -, -, harray, -⟩ :=
            somarrayAddObject_spec (by exact h.reg.array_pos) hadd
          have hadded := sameObjects_insertIn hins
          obtain ⟨hidle, harray', ⟨hnone, -⟩ | hlibrary⟩ := recordObject_objects hr
          · rw [insertIn_block hins] at hnone
            exact absurd hnone hgrant
          · -- Of the libraries without users, only the new one is new; and it has got its user.
            have hnew : s₃.library g = ⟨0, 0, handle, index, base_addr⟩ := by
              rw [hadded.library]
              unfold setIndex initLibrary
              dsimp only
              rw [Function.update_self, Function.update_self]
            refine ⟨hidle.trans hadded.idle, fun a ha => ?_⟩
            have hzero := ha.2
            rw [hlibrary] at hzero
            obtain ⟨hne, heq⟩ := usage_pos_of_update (by rw [hnew]) hzero
            have hlib : s'.library a = s.library a := by
              rw [hlibrary, heq, hadded.library]
              unfold setIndex initLibrary Som.allocate
              dsimp only
              rw [Function.update_of_ne hne, Function.update_of_ne hne]
            refine ⟨⟨?_, hlib ▸ ha.2⟩, hlib⟩
            have hmem := ha.1
            unfold Som.InMemory at hmem
            rw [harray', hadded.array] at hmem
            obtain ⟨j, hj⟩ := List.mem_iff_getElem?.mp hmem
            rcases (harray j a).mp hj with ⟨-, heq⟩ | ⟨-, hold⟩
            · exact absurd heq hne
            · exact List.mem_of_getElem? hold

end Register

/-! ### The deadlines in a run -/

section Deadlines

variable {start : BitVec 32} {P : ℕ → Heap → TimedSom → ℕ → Task → SomCall → Prop} {x : TimedSom} {s s' : Som}
  {l l' : SomList → List Addr} {loose loose' : Set Addr} {now : BitVec 32} {fuel time : ℕ} {a : Addr}

/-- **The deadlines**: a library without users expires `max_idle_time` after its usage count became zero. -/
structure TimedInv (start : BitVec 32) (x : TimedSom) : Prop where
  som : ∃ l loose, SomInv x.som l loose
  expire_time : ∀ a, x.som.Unused a →
    (x.som.library a).expire_time = osReadMonotonicTime start (x.since a) + x.som.max_idle_time
  since_le : ∀ a, x.som.Unused a → x.since a ≤ x.time

/-- The loop of `som_callback_handler` leaves the libraries that are in use, and those whose deadline is above the
time. -/
theorem SomInv.expireFrom_libraries (h : SomInv s l loose) {done rest : List Addr}
    (hl : l .libraries = done ++ rest) (hr : SOManager.expireFrom now fuel s rest.head? = some s') :
    s'.max_idle_time = s.max_idle_time ∧ s'.library = s.library ∧ ∃ l', SomInv s' l' loose ∧
      l' .libraries = done ++ rest.filter fun a =>
        (s.library a).usage_count ≠ 0 ∨ (s.library a).expire_time > now := by
  induction fuel generalizing s l done rest with
  | zero =>
    cases rest with
    | nil =>
      cases hr
      exact ⟨rfl, rfl, l, h, hl⟩
    | cons g rest => cases hr
  | succ fuel ih =>
    cases rest with
    | nil =>
      cases hr
      exact ⟨rfl, rfl, l, h, hl⟩
    | cons g rest =>
      have hlist := h.mem.lists.isList .libraries trivial
      rw [hl] at hlist
      have hnext : (s.hdr g).next = rest.head? := by
        rw [hlist.link_eq]
      have hl' : l .libraries = (done ++ [g]) ++ rest := by
        rw [hl, List.append_assoc]
        rfl
      rw [List.head?_cons, SOManager.expireFrom, hnext] at hr
      split at hr
      · rename_i hused
        rw [List.filter_cons, if_pos (decide_eq_true (Or.inl hused)), List.append_cons]
        exact ih h hl' hr
      · rename_i hunused
        split at hr
        · rename_i hlater
          rw [List.filter_cons, if_pos (decide_eq_true (Or.inr hlater)), List.append_cons]
          exact ih h hl' hr
        · rename_i hexpired
          have hl₁ : Function.update l .libraries (done ++ rest) .libraries = done ++ rest :=
            Function.update_self _ _ _
          have hremoved := falls_removeLibrary now s g
          have hsame : (SOManager.removeLibrary s g).library = s.library :=
            (sameObjects_remove s .libraries g).library
          rw [List.filter_cons, if_neg (fun heq => not_or.mpr ⟨hunused, hexpired⟩ (of_decide_eq_true heq))]
          obtain ⟨hidle, hlibrary, l', hinv, hleft⟩ := ih (h.removeLibrary hl (not_not.mp hunused)) hl₁ hr
          rw [hsame] at hleft
          exact ⟨hidle.trans hremoved.idle, hlibrary.trans hsame, l', hinv, hleft⟩

/-- **`som_callback_handler`** frees the libraries without users whose deadline is not above the time. -/
theorem SomInv.callback_memory (h : SomInv s l loose) (hr : somCallbackHandler fuel now s = some s') :
    s'.max_idle_time = s.max_idle_time ∧ s'.library = s.library ∧ ∀ a, s'.InMemory a ↔
      s.InMemory a ∧ ((s.library a).usage_count ≠ 0 ∨ (s.library a).expire_time > now) := by
  unfold somCallbackHandler at hr
  have hfirst := (h.mem.lists.isList .libraries trivial).first
  change s.object_list.first = _ at hfirst
  rw [hfirst] at hr
  obtain ⟨hidle, hlibrary, l', hinv, hleft⟩ := h.expireFrom_libraries (List.nil_append _).symm hr
  refine ⟨hidle, hlibrary, fun a => ?_⟩
  rw [hinv.inMemory_iff, hleft, List.nil_append, List.mem_filter, decide_eq_true_iff, h.inMemory_iff]

theorem TimedInv.falls (h : TimedInv start x) (hle : x.time ≤ time) (hinv : SomInv s' l' loose')
    (hfalls : Falls (osReadMonotonicTime start time) x.som s') : TimedInv start (x.after time s') := by
  have hstep : ∀ a, s'.Unused a →
      (x.som.Unused a ∧ s'.library a = x.som.library a) ∨
        ¬x.som.Unused a ∧
          (s'.library a).expire_time = osReadMonotonicTime start time + x.som.max_idle_time := by
    rintro a ⟨hmem, hzero⟩
    rcases hfalls.library a with hsame | ⟨hlt, hdeadline⟩
    · exact Or.inl ⟨⟨hfalls.memory a hmem, hsame ▸ hzero⟩, hsame⟩
    · refine Or.inr ⟨fun hold => ?_, hdeadline hzero⟩
      rw [hzero, hold.2] at hlt
      exact absurd hlt (Int.lt_irrefl 0)
  refine ⟨⟨l', loose', hinv⟩, fun a ha => ?_, fun a ha => ?_⟩
  · change (s'.library a).expire_time =
      osReadMonotonicTime start (if x.som.Unused a then x.since a else time) + s'.max_idle_time
    rw [hfalls.idle]
    rcases hstep a ha with ⟨hold, hsame⟩ | ⟨hnew, hdeadline⟩
    · rw [if_pos hold, hsame]
      exact h.expire_time a hold
    · rw [if_neg hnew]
      exact hdeadline
  · change (if x.som.Unused a then x.since a else time) ≤ time
    split
    · rename_i hold
      exact Nat.le_trans (h.since_le a hold) hle
    · exact Nat.le_refl time

/-- **A call keeps the deadlines**, if a new library gets its entry. -/
theorem TimedInv.call (h : TimedInv start x) (hle : x.time ≤ time) {heap : Heap} {t : Task} {call : SomCall}
    (hcall : ∀ max_idle_time, call ≠ .expire max_idle_time) (hfits : ExpiryFits start fuel heap x time t call)
    (hr : somCall fuel heap (osReadMonotonicTime start time) x.som t call = some s') :
    TimedInv start (x.after time s') := by
  obtain ⟨l, loose, hinv⟩ := h.som
  obtain ⟨l', loose', hinv', -⟩ := hinv.call hr
  cases call with
  | registerClient =>
    obtain ⟨⟨s₁, err⟩, hone, rfl⟩ := Option.map_eq_some_iff.mp hr
    exact h.falls hle hinv' (falls_registerClient hone)
  | registerSharedobject handle base_addr =>
    obtain ⟨⟨s₁, err⟩, hone, rfl⟩ := Option.map_eq_some_iff.mp hr
    obtain ⟨hidle, hold⟩ := hinv.registerSharedobject_unused hfits hone
    refine ⟨⟨l', loose', hinv'⟩, fun a ha => ?_, fun a ha => ?_⟩
    · obtain ⟨hunused, hsame⟩ := hold a ha
      change (s₁.library a).expire_time =
        osReadMonotonicTime start (if x.som.Unused a then x.since a else time) + s₁.max_idle_time
      rw [if_pos hunused, hidle, hsame]
      exact h.expire_time a hunused
    · obtain ⟨hunused, -⟩ := hold a ha
      change (if x.som.Unused a then x.since a else time) ≤ time
      rw [if_pos hunused]
      exact Nat.le_trans (h.since_le a hunused) hle
  | deregisterSharedObject handle =>
    obtain ⟨⟨s₁, err⟩, hone, rfl⟩ := Option.map_eq_some_iff.mp hr
    exact h.falls hle hinv' (falls_deregister hone)
  | deregisterClient =>
    obtain ⟨⟨s₁, err⟩, hone, rfl⟩ := Option.map_eq_some_iff.mp hr
    exact h.falls hle hinv' (falls_deregisterClient hone)
  | callback =>
    obtain ⟨hidle, hlibrary, hmem⟩ := hinv.callback_memory hr
    exact h.falls hle hinv' ⟨hidle, fun a ha => ((hmem a).mp ha).1, fun a => Or.inl (congrFun hlibrary a)⟩
  | expire max_idle_time => exact absurd rfl (hcall max_idle_time)

theorem TimedInv.run (hrun : TimedRun start (ExpiryFits start) x) : TimedInv start x := by
  induction hrun with
  | @initial s since h =>
    have hnone : ∀ a, ¬s.Unused a := by
      rintro a ⟨hmem, -⟩
      unfold Som.InMemory at hmem
      rw [h.object_array] at hmem
      cases List.mem_singleton.mp hmem
    exact ⟨⟨_, ∅, h.somInv⟩, fun a ha => absurd ha (hnone a), fun a ha => absurd ha (hnone a)⟩
  | call fuel heap time t call _ hle hcall hfits hr ih => exact ih.call hle hcall hfits hr

theorem TimedRun.weaken (hrun : TimedRun start P x) : TimedRun start (fun _ _ _ _ _ _ => True) x := by
  induction hrun with
  | initial since h => exact .initial since h
  | call fuel heap time t call _ hle hcall _ hr ih => exact ih.call fuel heap time t call hle hcall trivial hr

theorem SomInv.not_uses (h : SomInv s l loose) (ha : s.Unused a) : ¬s.Uses a := by
  rintro ⟨clients, client, entries, hclients, hc, hentries, e, he, heq⟩
  have hall := (h.mem.lists.isList .clients trivial).chain
  rw [hclients.chain.unique hall] at hc
  have hown := (h.mem.lists.isList (.objects client) hc).chain
  rw [hentries.chain.unique hown] at he
  have husage := h.reg.usage a (h.inMemory_iff.mp ha.1)
  rw [ha.2] at husage
  have hzero : users s.client_object l a = 0 := Int.ofNat.inj husage.symm
  exact users_eq_zero_iff.mp hzero client hc e he heq

/-- **A deadline that has passed on the clock** has passed in real time, just if it is in no later period of the
clock. -/
theorem deadline_iff {start idle : BitVec 32} {since time : ℕ} (hle : since ≤ time) :
    (¬osReadMonotonicTime start since + idle > osReadMonotonicTime start time → since + idle.toNat ≤ time) ↔
      (start.toNat + since + idle.toNat) / 2 ^ 32 ≤ (start.toNat + time) / 2 ^ 32 := by
  have hidle := idle.isLt
  have hdeadline : (osReadMonotonicTime start since + idle).toNat =
      (start.toNat + since + idle.toNat) % 2 ^ 32 := by
    unfold osReadMonotonicTime
    rw [BitVec.toNat_add, BitVec.toNat_add, BitVec.toNat_ofNat]
    omega
  have hnow : (osReadMonotonicTime start time).toNat = (start.toNat + time) % 2 ^ 32 := by
    unfold osReadMonotonicTime
    rw [BitVec.toNat_add, BitVec.toNat_ofNat]
    omega
  rw [gt_iff_lt, BitVec.lt_def, hdeadline, hnow]
  omega

/-- **Libraries expire** as they should, in every run in which each new library gets its entry, just as long as no
callback comes while a deadline is in a later period of the clock. -/
theorem expiryRight_iff (hrun : TimedRun start (ExpiryFits start) x) (hle : x.time ≤ time)
    (hr : somCallbackHandler fuel (osReadMonotonicTime start time) x.som = some s') :
    ExpiryRight x time s' ↔ NoDeadlineBeyond start x time := by
  have h := TimedInv.run hrun
  obtain ⟨l, loose, hinv⟩ := h.som
  obtain ⟨-, -, hmem⟩ := hinv.callback_memory hr
  have hfreed : ∀ a, x.som.InMemory a ∧ ¬s'.InMemory a ↔ x.som.Unused a ∧
      ¬(x.som.library a).expire_time > osReadMonotonicTime start time := by
    intro a
    rw [hmem a]
    unfold Som.Unused
    tauto
  have hone : ∀ a, x.som.Unused a →
      ((¬(x.som.library a).expire_time > osReadMonotonicTime start time →
          x.since a + x.som.max_idle_time.toNat ≤ time) ↔
        (start.toNat + x.since a + x.som.max_idle_time.toNat) / 2 ^ 32 ≤ (start.toNat + time) / 2 ^ 32) := by
    intro a ha
    rw [h.expire_time a ha]
    exact deadline_iff (Nat.le_trans (h.since_le a ha) hle)
  constructor
  · intro hright a ha
    refine (hone a ha).mp fun hexpired => ?_
    obtain ⟨hin, hout⟩ := (hfreed a).mpr ⟨ha, hexpired⟩
    exact (hright a hin hout).2
  · intro hclear a hin hout
    obtain ⟨ha, hexpired⟩ := (hfreed a).mp ⟨hin, hout⟩
    exact ⟨hinv.not_uses ha, (hone a ha).mpr (hclear a ha) hexpired⟩

end Deadlines

/-! ### A clock that wraps around -/

def secondStart : Som := { somStart with max_idle_time := 100 }

/-- A client registers, and a library, and the client goes again; no time passes. -/
def idleLibrary (start : BitVec 32) : Option Som :=
  (somCall 4 (fourBlocks true) (osReadMonotonicTime start 0) secondStart 0 .registerClient).bind fun s =>
    (somCall 4 (fourBlocks true) (osReadMonotonicTime start 0) s 0 (.registerSharedobject 7 0x100)).bind fun s =>
      somCall 4 (fourBlocks true) (osReadMonotonicTime start 0) s 0 .deregisterClient

theorem after_zero (s s' : Som) : (TimedSom.mk s 0 fun _ => 0).after 0 s' = ⟨s', 0, fun _ => 0⟩ := by
  unfold TimedSom.after
  refine congrArg (TimedSom.mk s' 0) (funext fun a => ?_)
  exact ite_self 0

theorem idleLibrary_run {start : BitVec 32} {s : Som} (hs : idleLibrary start = some s) :
    TimedRun start (ExpiryFits start) ⟨s, 0, fun _ => 0⟩ := by
  obtain ⟨s₁, h₁, hs⟩ := Option.bind_eq_some_iff.mp hs
  obtain ⟨s₂, h₂, h₃⟩ := Option.bind_eq_some_iff.mp hs
  have hrun₀ : TimedRun start (ExpiryFits start) ⟨secondStart, 0, fun _ => 0⟩ :=
    .initial _ ⟨rfl, rfl, rfl, rfl, rfl, rfl⟩
  have hrun₁ := hrun₀.call 4 _ 0 0 .registerClient (Nat.le_refl 0) (fun _ => nofun) trivial h₁
  rw [after_zero] at hrun₁
  have hfits : EntryFits 4 (fourBlocks true) s₁ 0 7 := by
    -- There are two more blocks, and the library's record is in one at most.
    intro a _ _ _ _ hnone
    have hblocks : s₁.block 3 = none ∧ s₁.block 4 = none := by
      have hclient : somCall 4 (fourBlocks true) (osReadMonotonicTime start 0) secondStart 0 .registerClient =
          some ((setClient (clearClient (secondStart.allocate 1 .client) 1) 0 1
            (osReadMonotonicTime start 0)).addToEnd .clients 1) := rfl
      rw [h₁] at hclient
      obtain rfl := Option.some.inj hclient
      exact ⟨rfl, rfl⟩
    have hall := List.find?_eq_none.mp hnone
    by_cases ha : a = 3
    · subst ha
      refine hall 4 (by decide) (decide_eq_true ?_)
      rw [Function.update_of_ne (by decide)]
      exact hblocks.2
    · refine hall 3 (by decide) (decide_eq_true ?_)
      rw [Function.update_of_ne (Ne.symm ha)]
      exact hblocks.1
  have hrun₂ := hrun₁.call 4 _ 0 0 (.registerSharedobject 7 0x100) (Nat.le_refl 0) (fun _ => nofun) hfits h₂
  rw [after_zero] at hrun₂
  have hrun₃ := hrun₂.call 4 _ 0 0 .deregisterClient (Nat.le_refl 0) (fun _ => nofun) trivial h₃
  rw [after_zero] at hrun₃
  exact hrun₃

theorem expiryRight_iff_second : ∃ s s', idleLibrary 0 = some s ∧ somCallbackHandler 4 100 s = some s' ∧
    (ExpiryRight ⟨s, 0, fun _ => 0⟩ 100 s' ↔ NoDeadlineBeyond 0 ⟨s, 0, fun _ => 0⟩ 100) := by
  have hsome : ((idleLibrary 0).bind fun s => somCallbackHandler 4 100 s).isSome = true := by decide
  obtain ⟨s', hboth⟩ := Option.isSome_iff_exists.mp hsome
  obtain ⟨s, hs, hr⟩ := Option.bind_eq_some_iff.mp hboth
  exact ⟨s, s', hs, hr, expiryRight_iff (idleLibrary_run hs) (Nat.zero_le 100) hr⟩

/-- Where the clock wraps around before the deadline, the library is freed a centisecond after its client has
gone. -/
theorem idleLibrary_not_right : ∃ x time s', TimedRun 0xFFFFFFCE (fun _ _ _ _ _ _ => True) x ∧ x.time ≤ time ∧
    somCallbackHandler 4 (osReadMonotonicTime 0xFFFFFFCE time) x.som = some s' ∧ ¬ExpiryRight x time s' := by
  have hfacts : ((idleLibrary 0xFFFFFFCE).bind fun s =>
      (somCallbackHandler 4 (osReadMonotonicTime 0xFFFFFFCE 1) s).map fun s' =>
        (decide (s.InMemory 2), decide (s'.InMemory 2), s.max_idle_time)) = some (true, false, 100) := by decide
  obtain ⟨s, hs, hfacts⟩ := Option.bind_eq_some_iff.mp hfacts
  obtain ⟨s', hr, hfacts⟩ := Option.map_eq_some_iff.mp hfacts
  simp only [Prod.mk.injEq, decide_eq_true_eq, decide_eq_false_iff_not] at hfacts
  obtain ⟨hin, hout, hidle⟩ := hfacts
  refine ⟨⟨s, 0, fun _ => 0⟩, 1, s', (idleLibrary_run hs).weaken, Nat.zero_le 1, hr, fun hright => ?_⟩
  have hlate := (hright 2 hin hout).2
  change 0 + s.max_idle_time.toNat ≤ 1 at hlate
  rw [hidle] at hlate
  exact absurd hlate (by decide)

end SOManager
