import Gccsdk.SOManager.RegistryInv

/-!
# The calls keep the invariant of the registry

A lemma for each function of `som_register.c`, `som_history.c` and `som_main.c`. What the heap answers does
not matter to the invariant; where a record may be given up without being freed, the lemma says that a block
is loose then, and on which answers.
-/

namespace SOManager

open DoublyLinked

variable {s s' : Som} {l : SomList → List Addr} {loose : Set Addr} {heap : Heap} {fuel : ℕ}
  {now : BitVec 32} {t : Task}

/-! ### The array of objects -/

theorem somarrayUnused_spec {object_array : List (Option Addr)} (h : 1 ≤ object_array.length) :
    1 ≤ somarrayUnused object_array ∧ somarrayUnused object_array ≤ object_array.length ∧
      (somarrayUnused object_array < object_array.length →
        object_array[somarrayUnused object_array]? = some none) := by
  have hle : (object_array.drop 1).findIdx (fun object => object = none) ≤
      (object_array.drop 1).length := List.findIdx_le_length
  rw [List.length_drop] at hle
  unfold somarrayUnused
  refine ⟨Nat.le_add_right 1 _, by omega, fun hlt => ?_⟩
  have hin : (object_array.drop 1).findIdx (fun object => object = none) <
      (object_array.drop 1).length := by
    rw [List.length_drop]
    omega
  have hnone := List.findIdx_getElem (w := hin)
  rw [decide_eq_true_iff] at hnone
  rw [← List.getElem?_drop, List.getElem?_eq_getElem hin, hnone]

theorem somarrayAddObject_spec {object : Addr} (hpos : 1 ≤ s.object_array.length)
    (h : somarrayAddObject heap s object = some s') :
    ∃ index object_array,
      s' = setIndex s object index object_array ∧ 1 ≤ index ∧ 1 ≤ object_array.length ∧
      (∀ j x, object_array[j]? = some (some x) ↔
        j = index ∧ x = object ∨ j ≠ index ∧ s.object_array[j]? = some (some x)) ∧
      ∀ x, s.object_array[index]? ≠ some (some x) := by
  obtain ⟨h1, hle, hunused⟩ := somarrayUnused_spec hpos
  unfold somarrayAddObject at h
  dsimp only at h
  split at h
  · -- the array is extended
    split at h
    · obtain rfl := Option.some.inj h
      refine ⟨s.object_array.length, _, rfl, hpos, ?_, fun j x => ?_, fun x => ?_⟩
      · rw [List.length_append]
        exact Nat.le_add_right_of_le hpos
      · rw [List.getElem?_append]
        split
        · rename_i hj
          exact ⟨fun hx => Or.inr ⟨Nat.ne_of_lt hj, hx⟩, fun hor =>
            hor.elim (fun hx => absurd hx.1 (Nat.ne_of_lt hj)) And.right⟩
        · rename_i hj
          rw [List.getElem?_eq_none (Nat.le_of_not_lt hj), List.getElem?_singleton]
          constructor
          · intro hx
            split at hx
            · exact Or.inl ⟨by omega, (Option.some.inj (Option.some.inj hx)).symm⟩
            · cases hx
          · rintro (⟨rfl, rfl⟩ | ⟨-, hx⟩)
            · rw [Nat.sub_self, if_pos rfl]
            · cases hx
      · rw [List.getElem?_eq_none (Nat.le_refl _)]
        nofun
    · cases h
  · rename_i hlt
    obtain rfl := Option.some.inj h
    have hnone := hunused (Nat.lt_of_not_le hlt)
    refine ⟨somarrayUnused s.object_array, _, rfl, h1, ?_, fun j x => ?_, fun x => ?_⟩
    · rw [List.length_set]
      exact hpos
    · rw [List.getElem?_set]
      split
      · rename_i hj
        rw [if_pos (Nat.lt_of_not_le hlt)]
        constructor
        · intro hx
          exact Or.inl ⟨hj.symm, (Option.some.inj (Option.some.inj hx)).symm⟩
        · rintro (⟨-, rfl⟩ | ⟨hne, -⟩)
          · rfl
          · exact absurd hj.symm hne
      · rename_i hj
        exact ⟨fun hx => Or.inr ⟨Ne.symm hj, hx⟩, fun hor =>
          hor.elim (fun hx => absurd hx.1.symm hj) And.right⟩
    · rw [hnone]
      nofun

/-! ### Registering -/

theorem SomInv.not_mem (h : SomInv s l loose) {a : Addr} (ha : s.block a = none) (j : SomList) :
    a ∉ l j := h.mem.not_mem_of_free ha j

theorem SomInv.clients_nodup (h : SomInv s l loose) : (l .clients).Nodup :=
  (h.mem.lists.isList .clients trivial).nodup

theorem SomInv.registerClient (h : SomInv s l loose) {err : Option SomErr}
    (hr : somRegisterClient fuel heap now s t = some (s', err)) :
    ∃ l', SomInv s' l' loose := by
  unfold somRegisterClient at hr
  split at hr
  · cases hr
    exact ⟨l, h⟩
  · rename_i s₁ client halloc
    obtain ⟨-, rfl, hfree, hmem⟩ := h.mem.alloc halloc
    have hnew : ∀ j, client ∉ l j := h.not_mem hfree
    rw [Option.bind_eq_bind, Option.bind_eq_some_iff] at hr
    obtain ⟨ID, -, hr⟩ := hr
    cases hr
    refine ⟨Function.update l .clients (l .clients ++ [client]), ?_, ?_, fun u c hu => ?_,
      fun u u' c hu hu' => ?_⟩
    · refine Mem.linkClient (Mem.congr (hmem.memset hnew ⟨none, none⟩) rfl (fun j hj => ?_) rfl rfl)
        hnew ?_ ?_
      · cases j with
        | objects c =>
          have hne : c ≠ client := by
            rintro rfl
            exact hnew .clients hj
          dsimp only [Som.list, setClient, clearClient]
          rw [Function.update_of_ne hne, Function.update_of_ne hne]
        | _ => rfl
      · exact Function.update_self _ _ _
      · dsimp only [setClient, clearClient]
        rw [Function.update_self, Function.update_self]
    · exact h.reg.addClient (h.mem.lists.dead (.objects client) (hnew .clients))
    · rw [Function.update_self, List.mem_append]
      change Function.update s.client_ptr t _ u = _ at hu
      by_cases htu : u = t
      · rw [htu, Function.update_self] at hu
        obtain rfl := Option.some.inj hu
        exact Or.inr List.mem_cons_self
      · rw [Function.update_of_ne htu] at hu
        exact Or.inl (h.client_ptr u c hu)
    · change Function.update s.client_ptr t _ u = _ at hu
      change Function.update s.client_ptr t _ u' = _ at hu'
      -- no other task has had the new client
      have hother : ∀ v, s.client_ptr v ≠ some client := fun v hv =>
        hnew .clients (h.client_ptr v client hv)
      by_cases htu : u = t
      · rw [htu, Function.update_self] at hu
        by_cases htu' : u' = t
        · exact htu.trans htu'.symm
        · rw [Function.update_of_ne htu', ← hu] at hu'
          exact absurd hu' (hother u')
      · rw [Function.update_of_ne htu] at hu
        by_cases htu' : u' = t
        · rw [htu', Function.update_self, ← hu] at hu'
          exact absurd hu'.symm (hother u)
        · rw [Function.update_of_ne htu'] at hu'
          exact h.client_ptr_inj u u' c hu hu'

theorem initEntry_base_addr (s : Som) (e g x : Addr) :
    ((initEntry s e g).library x).base_addr = (s.library x).base_addr := by
  unfold initEntry
  dsimp only
  by_cases hxg : x = g
  · rw [hxg, Function.update_self]
  · rw [Function.update_of_ne hxg]

theorem initEntry_client_object (s : Som) (e g : Addr) :
    (initEntry s e g).client_object = Function.update s.client_object e ⟨g⟩ := rfl

theorem SomInv.recordObject (h : SomInv s l loose) {client g : Addr} (hc : client ∈ l .clients)
    (hg : g ∈ l .libraries) {err : Option SomErr}
    (hr : recordObject fuel heap s client g = some (s', err)) : ∃ l', SomInv s' l' loose := by
  unfold SOManager.recordObject at hr
  split at hr
  · cases hr
    exact ⟨l, h⟩
  · rename_i s₁ e halloc
    obtain ⟨-, rfl, hfree, hmem⟩ := h.mem.alloc halloc
    have hnew : ∀ j, e ∉ l j := h.not_mem hfree
    rw [Option.bind_eq_bind, Option.bind_eq_some_iff] at hr
    obtain ⟨s₂, hins, hr⟩ := hr
    cases hr
    obtain ⟨l₁, l₂, hdr, header, hl, hbefore, hbehind, rfl, hlists⟩ :=
      insertIn_lists (k := .objects client)
        (by exact (hmem.congr rfl (fun _ _ => rfl) rfl rfl).lists) (show Live l _ from hc) hnew hins
    refine ⟨Function.update l (.objects client) (l₁ ++ e :: l₂), ?_, ?_, h.client_ptr,
      h.client_ptr_inj⟩
    · refine Mem.link (k := .objects client) hmem (Function.update_self _ _ _)
        (fun heq => by cases heq) hl ?_ rfl rfl
      rw [live_update (fun heq => by cases heq)]
      exact hlists
    · have hself : ((initEntry (s.allocate e .client_object) e g).libraryOf e).base_addr =
          (s.library g).base_addr := by
        unfold Som.libraryOf
        rw [initEntry_base_addr, initEntry_client_object, Function.update_self]
        rfl
      have hother : ∀ x ∈ l (.objects client),
          ((initEntry (s.allocate e .client_object) e g).libraryOf x).base_addr =
            (s.library (s.client_object x).library).base_addr := by
        intro x hx
        have hne : x ≠ e := by
          rintro rfl
          exact hnew _ hx
        unfold Som.libraryOf
        rw [initEntry_base_addr, initEntry_client_object, Function.update_of_ne hne]
        rfl
      refine h.reg.addObject hc h.clients_nodup hnew hg hl (fun x hx => ?_) fun x hx => ?_
      · have hle := hbefore x hx
        rw [decide_eq_false_iff_not, not_not, hself, hother x (hl ▸ List.mem_append_left l₂ hx)] at hle
        exact hle
      · have hlt := hbehind x hx
        rw [decide_eq_true_iff, hself, hother x (hl ▸ List.mem_append_right l₁ (List.mem_of_mem_head? hx))] at hlt
        exact Nat.le_of_not_ge hlt

/-- What the heap must grant to a registration, so that no record is lost: room in the array for a new library,
where none of its elements is unused. -/
def ObjectFits (fuel : ℕ) (heap : Heap) (s : Som) (t : Task) (handle : BitVec 32) : Prop :=
  ∀ a, s.client_ptr t ≠ none → findLibrary fuel s handle = some none →
    heap.claim s.block .library = some a →
    somarrayUnused s.object_array ≥ s.object_array.length →
    heap.extend (Function.update s.block a (some .library)) = true

/-- **A new library** gets an index and its place in the global list. -/
theorem SomInv.newLibrary (h : SomInv s l loose) {g : Addr} {handle : BitVec 32} {base_addr : Addr}
    {s₂ s₃ : Som} (hfree : s.block g = none) (hmem : Mem (s.allocate g .library) l (insert g loose))
    (hhandle : ∀ b ∈ l .libraries, (s.library b).handle ≠ handle)
    (hadd : somarrayAddObject heap (initLibrary (s.allocate g .library) g handle base_addr) g = some s₂)
    (hins : somAddGlobalLibrary fuel s₂ g = some s₃) :
    ∃ l', SomInv s₃ l' loose ∧ g ∈ l' .libraries ∧ l' .clients = l .clients := by
  have hnew : ∀ j, g ∉ l j := h.not_mem hfree
  have hold : ∀ b ∈ l .libraries, ∀ x, Function.update s.library g x b = s.library b := by
    intro b hb x
    refine Function.update_of_ne ?_ _ _
    rintro rfl
    exact hnew _ hb
  obtain ⟨index, array, rfl, h1, hlen, harray, hunused⟩ :=
    somarrayAddObject_spec (by exact h.reg.array_pos) hadd
  obtain ⟨l₁, l₂, hdr, header, hl, hbefore, hbehind, rfl, hlists⟩ :=
    insertIn_lists (k := .libraries)
      (by exact (hmem.congr rfl (fun _ _ => rfl) rfl rfl).lists) (show Live l _ from trivial)
      hnew hins
  have hlib : (setIndex (initLibrary (s.allocate g .library) g handle base_addr) g index
      array).library = Function.update s.library g ⟨0, 0, handle, index, base_addr⟩ := by
    dsimp only [setIndex, initLibrary, Som.allocate]
    rw [Function.update_idem, Function.update_self]
  rw [hlib] at hbefore hbehind
  refine ⟨Function.update l .libraries (l₁ ++ g :: l₂), ⟨?_, ?_, h.client_ptr, h.client_ptr_inj⟩,
    ?_, rfl⟩
  · refine Mem.link (k := .libraries) hmem (Function.update_self _ _ _) nofun hl ?_ rfl rfl
    rw [live_update (k := .libraries) (by decide)]
    exact hlists
  · have hreg := h.reg.addLibrary ⟨0, 0, handle, index, base_addr⟩ hnew hl rfl hhandle
      (fun b hb => ?_) (fun b hb => ?_) h1 harray hunused hlen
    · rw [← hlib] at hreg
      exact hreg
    · have hle := hbefore b hb
      rw [Function.update_self, hold b, decide_eq_false_iff_not, not_not] at hle
      · exact hle
      · rw [hl]
        exact List.mem_append_left l₂ hb
    · have hlt := hbehind b hb
      rw [Function.update_self, hold b, decide_eq_true_iff] at hlt
      · exact Nat.le_of_not_ge hlt
      · rw [hl]
        exact List.mem_append_right l₁ (List.mem_of_mem_head? hb)
  · rw [Function.update_self]
    exact List.mem_append_right l₁ List.mem_cons_self

theorem SomInv.registerSharedobject (h : SomInv s l loose) {handle : BitVec 32} {base_addr : Addr}
    {err : Option SomErr}
    (hr : somRegisterSharedobject fuel heap s t handle base_addr = some (s', err)) :
    ∃ l' loose', SomInv s' l' loose' ∧ (ObjectFits fuel heap s t handle → loose' = loose) := by
  unfold somRegisterSharedobject at hr
  split at hr
  · cases hr
    exact ⟨l, loose, h, fun _ => rfl⟩
  · rename_i client hclient
    have hc := h.client_ptr t client hclient
    rw [Option.bind_eq_bind, Option.bind_eq_some_iff] at hr
    obtain ⟨found, hfind, hr⟩ := hr
    have hfound := findIn_eq h.mem.lists (k := .libraries) trivial hfind
    split at hr
    · rename_i g
      have hg := List.mem_of_find?_eq_some hfound.symm
      obtain ⟨l', hinv⟩ := h.recordObject hc hg hr
      exact ⟨l', loose, hinv, fun _ => rfl⟩
    · split at hr
      · cases hr
        exact ⟨l, loose, h, fun _ => rfl⟩
      · rename_i s₁ g halloc
        obtain ⟨hclaim, rfl, hfree, hmem⟩ := h.mem.alloc halloc
        split at hr
        · -- the record is lost
          rename_i hadd
          cases hr
          refine ⟨l, insert g loose, ⟨hmem.congr rfl (fun _ _ => rfl) rfl rfl, ?_, h.client_ptr,
            h.client_ptr_inj⟩, fun hfits => ?_⟩
          · refine h.reg.congr fun x hx => Function.update_of_ne ?_ _ _
            rintro rfl
            exact h.not_mem hfree _ hx
          · unfold somarrayAddObject at hadd
            dsimp only at hadd
            split at hadd
            · rename_i hfull
              have hextend := hfits g (by rw [hclient]; nofun) hfind hclaim hfull
              change (if heap.extend (Function.update s.block g (some .library)) = true then _
                else _) = _ at hadd
              rw [if_pos hextend] at hadd
              cases hadd
            · cases hadd
        · rename_i s₂ hadd
          rw [Option.bind_eq_bind, Option.bind_eq_some_iff] at hr
          obtain ⟨s₃, hins, hr⟩ := hr
          have hhandle : ∀ b ∈ l .libraries, (s.library b).handle ≠ handle := fun b hb heq =>
            List.find?_eq_none.mp hfound.symm b hb (decide_eq_true heq)
          obtain ⟨l₁, hinv, hg, hclients⟩ := h.newLibrary hfree hmem hhandle hadd hins
          rw [← hclients] at hc
          obtain ⟨l₂, hinv⟩ := hinv.recordObject hc hg hr
          exact ⟨l₂, loose, hinv, fun _ => rfl⟩

/-! ### Deregistering -/

theorem SomInv.removeLibrary (h : SomInv s l loose) {g : Addr} {l₁ l₂ : List Addr}
    (hl : l .libraries = l₁ ++ g :: l₂) (hunused : (s.library g).usage_count = 0) :
    SomInv (removeLibrary s g) (Function.update l .libraries (l₁ ++ l₂)) loose := by
  have hmem : Mem (s.remove .libraries g) (Function.update l .libraries (l₁ ++ l₂))
      (insert g loose) := by
    refine h.mem.unlink (k := .libraries) nofun hl ?_ rfl rfl
    rw [live_update (k := .libraries) (by decide)]
    exact remove_lists h.mem.lists (k := .libraries) trivial hl
  have hg : g ∈ l .libraries := by
    rw [hl]
    exact List.mem_append_right l₁ List.mem_cons_self
  refine ⟨?_, ?_, h.client_ptr, h.client_ptr_inj⟩
  · refine Mem.free (hmem.congr rfl (fun _ _ => rfl) rfl rfl) (h.mem.not_mem_remove hl) ?_
    intro b hb heq
    -- a block of names is no library
    have hnames := h.mem.names b (mem_remove hl hb)
    change s.all_names b = g at heq
    rw [heq, h.mem.kept .libraries g hg] at hnames
    cases hnames
  · exact h.reg.removeLibrary (h.mem.lists.isList .libraries trivial).nodup hl
      (fun c hc => h.mem.lists.dead (.objects c) hc) hunused

theorem SomInv.dropEntry (h : SomInv s l loose) {client e : Addr} {l₁ l₂ : List Addr}
    (hl : l (.objects client) = l₁ ++ e :: l₂) :
    SomInv (dropUse now (somFree (s.remove (.objects client) e) e) (s.client_object e).library)
      (Function.update l (.objects client) (l₁ ++ l₂)) loose := by
  have he : e ∈ l (.objects client) := by
    rw [hl]
    exact List.mem_append_right l₁ List.mem_cons_self
  have hc : client ∈ l .clients := h.mem.lists.live_of_mem he
  have hmem : Mem (s.remove (.objects client) e) (Function.update l (.objects client) (l₁ ++ l₂))
      (insert e loose) := by
    refine h.mem.unlink (fun heq => by cases heq) hl ?_ rfl rfl
    rw [live_update (fun heq => by cases heq)]
    exact remove_lists h.mem.lists hc hl
  refine ⟨?_, ?_, h.client_ptr, h.client_ptr_inj⟩
  · refine Mem.congr (Mem.free hmem (h.mem.not_mem_remove hl) fun b hb heq => ?_) rfl
      (fun _ _ => rfl) rfl rfl
    have hnames := h.mem.names b (mem_remove hl hb)
    change s.all_names b = e at heq
    rw [heq, h.mem.kept _ e he] at hnames
    cases hnames
  · exact h.reg.removeObject hc h.clients_nodup hl _

theorem SomInv.deregisterSharedObject (h : SomInv s l loose) {client : Addr} {handle : BitVec 32}
    (hc : client ∈ l .clients) (hr : deregisterSharedObject fuel now s client handle = some s') :
    ∃ l', SomInv s' l' loose ∧ l' .clients = l .clients ∧ s'.client_ptr = s.client_ptr ∧
      ∀ e rest, l (.objects client) = e :: rest → (s.libraryOf e).handle = handle →
        l' (.objects client) = rest := by
  unfold SOManager.deregisterSharedObject at hr
  rw [Option.bind_eq_bind, Option.bind_eq_some_iff] at hr
  obtain ⟨found, hfind, hr⟩ := hr
  have hfound := findIn_eq h.mem.lists (show Live l (.objects client) from hc) hfind
  split at hr
  · rename_i e
    cases hr
    obtain ⟨-, l₁, l₂, hl, hbefore⟩ := List.find?_eq_some_iff_append.mp hfound.symm
    refine ⟨_, h.dropEntry hl, Function.update_of_ne (fun heq => by cases heq) _ _, rfl,
      fun e' rest hl' hhandle => ?_⟩
    rw [Function.update_self]
    -- the first entry has the handle, so it is the one
    cases l₁ with
    | nil =>
      rw [hl] at hl'
      exact (List.cons.inj hl').2
    | cons x l₁ =>
      rw [hl] at hl'
      obtain ⟨rfl, -⟩ := List.cons.inj hl'
      have hnot := hbefore x List.mem_cons_self
      rw [decide_eq_true hhandle] at hnot
      cases hnot
  · -- no entry of the client has the handle
    have hfirst : ∀ e rest, l (.objects client) = e :: rest → (s.libraryOf e).handle ≠ handle := by
      intro e rest hl heq
      refine List.find?_eq_none.mp hfound.symm e ?_ (decide_eq_true heq)
      rw [hl]
      exact List.mem_cons_self
    rw [Option.bind_eq_some_iff] at hr
    obtain ⟨found, hfind, hr⟩ := hr
    have hfound := findIn_eq h.mem.lists (k := .libraries) trivial hfind
    split at hr
    · cases hr
      exact ⟨l, h, rfl, rfl, fun e rest hl heq => absurd heq (hfirst e rest hl)⟩
    · rename_i g
      split at hr
      · rename_i hunused
        cases hr
        obtain ⟨l₁, l₂, hl⟩ := List.append_of_mem (List.mem_of_find?_eq_some hfound.symm)
        exact ⟨_, h.removeLibrary hl hunused, rfl, rfl,
          fun e rest hl heq => absurd heq (hfirst e rest hl)⟩
      · cases hr
        exact ⟨l, h, rfl, rfl, fun e rest hl heq => absurd heq (hfirst e rest hl)⟩

/-- **The loop of `som_deregister_client`** leaves no entry in the client's list. -/
theorem SomInv.deregisterObjects {walk : ℕ} {client : Addr} (h : SomInv s l loose)
    (hc : client ∈ l .clients)
    (hr : deregisterObjects walk now client fuel s (l (.objects client)).head? = some s') :
    ∃ l', SomInv s' l' loose ∧ l' .clients = l .clients ∧ s'.client_ptr = s.client_ptr ∧
      l' (.objects client) = [] := by
  induction fuel generalizing s l with
  | zero =>
    cases hl : l (.objects client) with
    | nil =>
      rw [hl] at hr
      cases hr
      exact ⟨l, h, rfl, rfl, hl⟩
    | cons e rest =>
      rw [hl] at hr
      cases hr
  | succ fuel ih =>
    cases hl : l (.objects client) with
    | nil =>
      rw [hl] at hr
      cases hr
      exact ⟨l, h, rfl, rfl, hl⟩
    | cons e rest =>
      rw [hl] at hr
      change (SOManager.deregisterSharedObject walk now s client (s.libraryOf e).handle).bind
        (fun s₁ => SOManager.deregisterObjects walk now client fuel s₁ (s.hdr e).next) = _ at hr
      rw [Option.bind_eq_some_iff] at hr
      obtain ⟨s₁, hone, hr⟩ := hr
      -- the entry behind is the first one once this one has gone
      have hlist := h.mem.lists.isList (.objects client) hc
      rw [hl] at hlist
      have hnext : (s.hdr e).next = rest.head? := by
        change IsList _ _ ([] ++ e :: rest) at hlist
        rw [hlist.link_eq]
      obtain ⟨l₁, hinv, hclients, hptr, hrest⟩ := h.deregisterSharedObject hc hone
      rw [hnext, ← hrest e rest hl rfl] at hr
      obtain ⟨l₂, hinv₂, hclients₂, hptr₂, hempty⟩ := ih hinv (hclients ▸ hc) hr
      exact ⟨l₂, hinv₂, hclients₂.trans hclients, hptr₂.trans hptr, hempty⟩

/-! ### The history -/

private theorem reg_history (h : SomInv s l loose) (m : List Addr) :
    Reg s.library s.client_object s.object_array (Function.update l .history m) :=
  h.reg.clients rfl (fun _ => rfl) fun _ => rfl

theorem SomInv.trimHistory (h : SomInv s l loose) :
    ∃ m, SomInv (trimHistory s) (Function.update l .history m) loose ∧
      (trimHistory s).client_ptr = s.client_ptr := by
  have hsame : SomInv s (Function.update l .history (l .history)) loose := by
    rw [Function.update_eq_self]
    exact h
  unfold SOManager.trimHistory
  split
  · split
    · exact ⟨_, hsame, rfl⟩
    · rename_i r hfirst
      have hhead := (h.mem.lists.isList .history trivial).first
      change s.client_history.first = _ at hhead
      rw [hfirst] at hhead
      cases hl : l .history with
      | nil =>
        rw [hl] at hhead
        cases hhead
      | cons r' rest =>
        rw [hl] at hhead
        obtain rfl := Option.some.inj hhead
        have hr : r ∈ l .history := by
          rw [hl]
          exact List.mem_cons_self
        have hl' : l .history = [] ++ r :: rest := hl
        have hmem := h.mem.unlinkHistory hl'
        have hnot := h.mem.not_mem_remove hl'
        have hnames := h.mem.names r hr
        refine ⟨rest, ⟨?_, reg_history h rest, h.client_ptr, h.client_ptr_inj⟩, rfl⟩
        refine Mem.free (Mem.free hmem (fun j => ?_) fun b hb heq => ?_) hnot fun b hb heq => ?_
        · exact hmem.not_mem_of_use hnames (by cases j <;> nofun)
        · -- the names are those of no other record
          have hbr := h.mem.names_inj b (mem_remove hl' hb) r hr heq
          rw [hbr] at hb
          exact hnot .history hb
        · have hb' := h.mem.names b (mem_remove hl' hb)
          change s.all_names b = r at heq
          rw [heq, h.mem.kept .history r hr] at hb'
          cases hb'
  · exact ⟨_, hsame, rfl⟩

theorem SomInv.linkHistory {a n : Addr} (h : SomInv s l (insert n (insert a loose)))
    (ha : ∀ j, a ∉ l j) (huse : s.block a = some .client_history) (hnames : s.block n = some .names)
    (hown : ∀ b ∈ l .history, s.all_names b ≠ n) :
    ∃ m, SomInv (SOManager.trimHistory ((setNames s a n).addToEnd .history a))
        (Function.update l .history m) loose ∧
      (SOManager.trimHistory ((setNames s a n).addToEnd .history a)).client_ptr = s.client_ptr := by
  have hset : Mem (setNames s a n) l (insert n (insert a loose)) := h.mem.setNames (ha .history) n
  have hlinked := hset.linkHistory ha huse (Function.update_self _ _ _) hnames fun b hb heq => by
    have hba : b ≠ a := by
      rintro rfl
      exact ha .history hb
    change Function.update s.all_names a n b = n at heq
    rw [Function.update_of_ne hba] at heq
    exact hown b hb heq
  have hinv : SomInv ((setNames s a n).addToEnd .history a)
      (Function.update l .history (l .history ++ [a])) loose :=
    ⟨hlinked, reg_history h _, h.client_ptr, h.client_ptr_inj⟩
  obtain ⟨m, htrim, hptr⟩ := hinv.trimHistory
  rw [Function.update_idem] at htrim
  exact ⟨m, htrim, hptr⟩

/-- What the heap must grant to a deregistration, so that no record is lost: the names of a record of the
history, if it has granted the record. -/
def NamesFit (heap : Heap) (s : Som) (t : Task) : Prop :=
  ∀ a, s.client_ptr t ≠ none → heap.claim s.block .client_history = some a →
    heap.claim (Function.update s.block a (some .client_history)) .names ≠ none

theorem SomInv.historyAdd (heap : Heap) (h : SomInv s l loose) :
    ∃ m loose', SomInv (somHistoryAddClient heap s) (Function.update l .history m) loose' ∧
      (somHistoryAddClient heap s).client_ptr = s.client_ptr ∧
      ((∀ a, heap.claim s.block .client_history = some a →
        heap.claim (Function.update s.block a (some .client_history)) .names ≠ none) →
        loose' = loose) := by
  have hsame : Function.update l .history (l .history) = l := Function.update_eq_self _ _
  unfold somHistoryAddClient
  split
  · refine ⟨l .history, loose, ?_, rfl, fun _ => rfl⟩
    rw [hsame]
    exact h
  · rename_i s₁ a halloc
    obtain ⟨hclaim, rfl, hfree, hmem⟩ := h.mem.alloc halloc
    have hnew : ∀ j, a ∉ l j := h.not_mem hfree
    have hinv : SomInv (s.allocate a .client_history) l (insert a loose) :=
      ⟨hmem, h.reg, h.client_ptr, h.client_ptr_inj⟩
    have hcleared : SomInv (clearHistory (s.allocate a .client_history) a) l (insert a loose) :=
      ⟨hmem.memset hnew ⟨none, none⟩, hinv.reg, hinv.client_ptr, hinv.client_ptr_inj⟩
    split
    · -- the record is lost
      rename_i hnone
      refine ⟨l .history, insert a loose, ?_, rfl, fun hfit => ?_⟩
      · rw [hsame]
        exact hcleared
      · unfold somAlloc at hnone
        split at hnone
        · rename_i hrefused
          exact absurd hrefused (hfit a hclaim)
        · cases hnone
    · rename_i s₂ n hallocn
      obtain ⟨-, rfl, hfreen, hmemn⟩ := hcleared.mem.alloc hallocn
      have hna : a ≠ n := by
        rintro rfl
        change Function.update s.block a _ a = none at hfreen
        rw [Function.update_self] at hfreen
        cases hfreen
      have hinvn : SomInv ((clearHistory (s.allocate a .client_history) a).allocate n .names) l
          (insert n (insert a loose)) :=
        ⟨hmemn, hcleared.reg, hcleared.client_ptr, hcleared.client_ptr_inj⟩
      have huse : ((clearHistory (s.allocate a .client_history) a).allocate n .names).block a =
          some .client_history := by
        change Function.update (Function.update s.block a _) n _ a = _
        rw [Function.update_of_ne hna, Function.update_self]
      -- the names of the other records are in blocks that were not free
      have hown : ∀ b ∈ l .history,
          ((clearHistory (s.allocate a .client_history) a).allocate n .names).all_names b ≠ n := by
        intro b hb heq
        have hnames := hcleared.mem.names b hb
        change (clearHistory (s.allocate a .client_history) a).block (s.all_names b) = _ at hnames
        change s.all_names b = n at heq
        rw [heq] at hnames
        exact absurd (hfreen.symm.trans hnames) nofun
      obtain ⟨m, hlinked, hptr⟩ := hinvn.linkHistory hnew huse (Function.update_self _ _ _) hown
      exact ⟨m, loose, hlinked, hptr, fun _ => rfl⟩

theorem SomInv.deregisterClient (h : SomInv s l loose) {err : Option SomErr}
    (hr : somDeregisterClient fuel heap now s t = some (s', err)) :
    ∃ l' loose', SomInv s' l' loose' ∧ (NamesFit heap s t → loose' = loose) := by
  unfold somDeregisterClient at hr
  split at hr
  · cases hr
    exact ⟨l, loose, h, fun _ => rfl⟩
  · rename_i client hclient
    have hc := h.client_ptr t client hclient
    dsimp only at hr
    rw [Option.bind_eq_bind, Option.bind_eq_some_iff] at hr
    obtain ⟨s₁, hloop, hr⟩ := hr
    cases hr
    -- no workspace leads to the client any more
    have hptr : ∀ u c, Function.update s.client_ptr t none u = some c →
        s.client_ptr u = some c ∧ c ≠ client := by
      intro u c hu
      by_cases htu : u = t
      · rw [htu, Function.update_self] at hu
        cases hu
      · rw [Function.update_of_ne htu] at hu
        refine ⟨hu, ?_⟩
        rintro rfl
        exact htu (h.client_ptr_inj u t c hu hclient)
    have hleft : SomInv { s with client_ptr := Function.update s.client_ptr t none } l loose :=
      ⟨h.mem.congr rfl (fun _ _ => rfl) rfl rfl, h.reg, fun u c hu => h.client_ptr u c (hptr u c hu).1,
        fun u u' c hu hu' => h.client_ptr_inj u u' c (hptr u c hu).1 (hptr u' c hu').1⟩
    obtain ⟨m, loose', hhist, hptr₁, hfit⟩ := hleft.historyAdd heap
    have hfirst := (hhist.mem.lists.isList (.objects client) hc).first
    change (Client.object_list _).first = _ at hfirst
    rw [hfirst] at hloop
    obtain ⟨l₁, hinv, hclients, hptr₂, hempty⟩ := hhist.deregisterObjects hc hloop
    have hmem : client ∈ l₁ .clients := by
      rw [hclients]
      exact hc
    obtain ⟨xs, ys, hl⟩ := List.append_of_mem hmem
    refine ⟨Function.update l₁ .clients (xs ++ ys), loose', ⟨?_, ?_, fun u c hu => ?_, ?_⟩,
      fun hnames => hfit fun a ha => hnames a (by rw [hclient]; nofun) ha⟩
    · refine Mem.free (hinv.mem.unlinkClient hl hempty) (hinv.mem.not_mem_remove hl) fun b hb heq => ?_
      have hb' := hinv.mem.names b (mem_remove hl hb)
      change s₁.all_names b = client at heq
      rw [heq, hinv.mem.kept .clients client hmem] at hb'
      cases hb'
    · exact hinv.reg.removeClient hl hempty
    · -- the workspaces lead to the other clients
      have hu' := hu
      change s₁.client_ptr u = _ at hu'
      rw [hptr₂, hptr₁] at hu'
      have hmem := hinv.client_ptr u c hu
      rw [hl, List.mem_append, List.mem_cons] at hmem
      rw [Function.update_self, List.mem_append]
      exact hmem.imp_right fun hor => hor.resolve_left (hptr u c hu').2
    · exact hinv.client_ptr_inj

/-! ### Expiry -/

theorem SomInv.expireFrom (h : SomInv s l loose) {done rest : List Addr}
    (hl : l .libraries = done ++ rest) (hr : expireFrom now fuel s rest.head? = some s') :
    ∃ l', SomInv s' l' loose := by
  induction fuel generalizing s l done rest with
  | zero =>
    cases rest with
    | nil =>
      cases hr
      exact ⟨l, h⟩
    | cons g rest => cases hr
  | succ fuel ih =>
    cases rest with
    | nil =>
      cases hr
      exact ⟨l, h⟩
    | cons g rest =>
      have hlist := h.mem.lists.isList .libraries trivial
      rw [hl] at hlist
      have hnext : (s.hdr g).next = rest.head? := by
        rw [hlist.link_eq]
      have hl' : l .libraries = (done ++ [g]) ++ rest := by
        rw [hl, List.append_assoc]
        rfl
      rw [List.head?_cons, SOManager.expireFrom, hnext] at hr
      split at hr
      · exact ih h hl' hr
      · rename_i hunused
        split at hr
        · exact ih h hl' hr
        · have hl₁ : Function.update l .libraries (done ++ rest) .libraries = done ++ rest :=
            Function.update_self _ _ _
          exact ih (h.removeLibrary hl (not_not.mp hunused)) hl₁ hr

theorem SomInv.callback (h : SomInv s l loose) (hr : somCallbackHandler fuel now s = some s') :
    ∃ l', SomInv s' l' loose := by
  unfold somCallbackHandler at hr
  have hfirst := (h.mem.lists.isList .libraries trivial).first
  change s.object_list.first = _ at hfirst
  rw [hfirst] at hr
  exact h.expireFrom (List.nil_append _).symm hr

end SOManager
