import Mathlib.Data.Set.Insert
import Gccsdk.SOManager.Registry

/-!
# The records of the registry and their blocks

`Mem s l loose`: the lists of the registry have the records `l`, each in a block of its kind, and there are
no other blocks but the `loose` ones, to which no list leads. A block is loose between its allocation and the
call that links it, and between the call that unlinks it and the one that frees it; a block that is loose
for ever is a leak.
-/

namespace SOManager

open DoublyLinked

def SomList.use : SomList → Block
  | .clients => .client
  | .libraries => .library
  | .history => .client_history
  | .objects _ => .client_object

/-- A list that exists: that of a client does as long as the client is registered. -/
def Live (l : SomList → List Addr) : SomList → Prop
  | .objects client => client ∈ l .clients
  | _ => True

/-- A list leads to the block: to that of a record, or to the names of a record of the history. -/
def Leads (s : Som) (l : SomList → List Addr) (k : Block) (a : Addr) : Prop :=
  (∃ j : SomList, j.use = k ∧ a ∈ l j) ∨ (k = .names ∧ ∃ h ∈ l .history, s.all_names h = a)

structure Mem (s : Som) (l : SomList → List Addr) (loose : Set Addr) : Prop where
  lists : Lists s.hdr s.list (Live l) l
  /-- A record that is linked has not been freed, -/
  kept : ∀ j, ∀ a ∈ l j, s.block a = some j.use
  /-- nor have the names of one of the history, -/
  names : ∀ h ∈ l .history, s.block (s.all_names h) = some .names
  /-- which are its own; -/
  names_inj : ∀ h ∈ l .history, ∀ h' ∈ l .history, s.all_names h = s.all_names h' → h = h'
  /-- and a record that is allocated is linked, but for the loose ones. -/
  leads : ∀ a k, s.block a = some k → Leads s l k a ∨ a ∈ loose

/-! ### The list functions -/

section Lists

variable {s : Som} {live : SomList → Prop} {l : SomList → List Addr} {k : SomList} {a b : Addr}
  {l₁ l₂ : List Addr}

theorem list_setList (s : Som) (header : LinkList) (k : SomList) :
    (s.setList header k).list = Function.update s.list k header := by
  funext j
  cases k with
  | objects client =>
    cases j with
    | objects client' =>
      by_cases hc : client' = client
      · subst hc
        rw [Function.update_self]
        change (Function.update s.client client' _ client').object_list = _
        rw [Function.update_self]
      · rw [Function.update_of_ne fun h => hc (SomList.objects.inj h)]
        change (Function.update s.client client _ client').object_list = _
        rw [Function.update_of_ne hc]
        rfl
    | _ => rfl
  | _ => cases j <;> rfl

theorem addToEnd_lists (h : Lists s.hdr s.list live l) (hk : live k) (ha : ∀ j, a ∉ l j) :
    Lists (s.addToEnd k a).hdr (s.addToEnd k a).list live (Function.update l k (l k ++ [a])) := by
  have hlist := h.isList k hk
  have hnew := linklistAddToEnd_isList hlist (ha k)
  change Lists (linklistAddToEnd s.hdr (s.list k) a).1 (s.setList _ k).list live _
  rw [list_setList]
  refine h.replace hk hnew (fun b hb hb' => ?_) fun b hb => ?_
  · refine linklistAddToEnd_frame hlist hb fun hba => hb' ?_
    rw [hba]
    exact List.mem_append_right _ List.mem_cons_self
  · rcases List.mem_append.mp hb with hb | hb
    · exact Or.inl hb
    · rw [List.mem_singleton] at hb
      exact Or.inr (hb ▸ ha)

theorem addBefore_lists (h : Lists s.hdr s.list live l) (hk : live k) (ha : ∀ j, a ∉ l j)
    (hl : l k = l₁ ++ b :: l₂) :
    Lists (s.addBefore k (some b) a).hdr (s.addBefore k (some b) a).list live
      (Function.update l k (l₁ ++ a :: b :: l₂)) := by
  have hlist := h.isList k hk
  have hak := ha k
  rw [hl] at hlist hak
  have hnew := linklistAddBefore_isList hlist hak
  change Lists (linklistAddBefore s.hdr (s.list k) (some b) a).1 (s.setList _ k).list live _
  rw [list_setList]
  refine h.replace hk hnew (fun c hc hc' => ?_) fun c hc => ?_
  · rw [hl] at hc
    refine linklistAddBefore_frame hlist hc fun hca => hc' ?_
    rw [hca]
    exact List.mem_append_right _ List.mem_cons_self
  · rw [hl]
    rw [List.mem_append, List.mem_cons] at hc
    rcases hc with hc | rfl | hc
    · exact Or.inl (List.mem_append_left _ hc)
    · exact Or.inr ha
    · exact Or.inl (List.mem_append_right _ hc)

theorem remove_lists (h : Lists s.hdr s.list live l) (hk : live k) (hl : l k = l₁ ++ a :: l₂) :
    Lists (s.remove k a).hdr (s.remove k a).list live (Function.update l k (l₁ ++ l₂)) := by
  have hlist := h.isList k hk
  rw [hl] at hlist
  have hnew := linklistRemove_isList hlist
  change Lists (linklistRemove s.hdr (s.list k) a).1 (s.setList _ k).list live _
  rw [list_setList]
  refine h.replace hk hnew (fun b hb _ => ?_) fun b hb => Or.inl ?_
  · rw [hl] at hb
    exact linklistRemove_frame hlist hb
  · rw [hl]
    rcases List.mem_append.mp hb with hb | hb
    · exact List.mem_append_left _ hb
    · exact List.mem_append_right _ (List.mem_cons_of_mem a hb)

theorem findIn_eq (h : Lists s.hdr s.list live l) (hk : live k) {p : Addr → Bool} {fuel : ℕ}
    {r : Option Addr} (hr : s.findIn k p fuel = some r) : r = (l k).find? p :=
  (h.isList k hk).chain.find_eq hr

theorem insertIn_lists (h : Lists s.hdr s.list live l) (hk : live k) (ha : ∀ j, a ∉ l j)
    {p : Addr → Bool} {fuel : ℕ} {s' : Som} (hr : insertIn fuel s k p a = some s') :
    ∃ l₁ l₂ hdr header, l k = l₁ ++ l₂ ∧ (∀ b ∈ l₁, p b = false) ∧ (∀ b ∈ l₂.head?, p b = true) ∧
      s' = { s.setList header k with hdr := hdr } ∧
      Lists s'.hdr s'.list live (Function.update l k (l₁ ++ a :: l₂)) := by
  unfold insertIn at hr
  cases hfind : s.findIn k p fuel with
  | none =>
    rw [hfind] at hr
    cases hr
  | some at_ =>
    rw [hfind] at hr
    have hat := findIn_eq h hk hfind
    cases at_ with
    | none =>
      obtain rfl := Option.some.inj hr
      refine ⟨l k, [], _, _, (List.append_nil _).symm, fun b hb => ?_, by simp, rfl,
        addToEnd_lists h hk ha⟩
      have hnone := List.find?_eq_none.mp hat.symm b hb
      exact eq_false_of_ne_true hnone
    | some b =>
      obtain rfl := Option.some.inj hr
      obtain ⟨hpb, l₁, l₂, hl, hbefore⟩ := List.find?_eq_some_iff_append.mp hat.symm
      refine ⟨l₁, b :: l₂, _, _, hl, fun c hc => ?_, ?_, rfl, addBefore_lists h hk ha hl⟩
      · have hnot := hbefore c hc
        rw [Bool.not_eq_true'] at hnot
        exact hnot
      · intro c hc
        obtain rfl := Option.some.inj hc
        exact hpb

end Lists

/-! ### Changing one of the lists -/

section Change

variable {l : SomList → List Addr} {j k : SomList} {l₁ l₂ : List Addr} {a b : Addr}

theorem live_update {m : List Addr} (hk : k ≠ .clients) : Live (Function.update l k m) = Live l := by
  funext j
  cases j with
  | objects client =>
    change (client ∈ Function.update l k m .clients) = _
    rw [Function.update_of_ne (Ne.symm hk)]
    rfl
  | _ => rfl

theorem mem_insert (hl : l k = l₁ ++ l₂)
    (hb : b ∈ Function.update l k (l₁ ++ a :: l₂) j) : b ∈ l j ∨ b = a ∧ j = k := by
  by_cases hj : j = k
  · rw [hj, Function.update_self, List.mem_append, List.mem_cons] at hb
    rw [hj, hl, List.mem_append]
    rcases hb with hb | hb | hb
    · exact Or.inl (Or.inl hb)
    · exact Or.inr ⟨hb, rfl⟩
    · exact Or.inl (Or.inr hb)
  · rw [Function.update_of_ne hj] at hb
    exact Or.inl hb

theorem mem_of_insert (hl : l k = l₁ ++ l₂) (hb : b ∈ l j) :
    b ∈ Function.update l k (l₁ ++ a :: l₂) j := by
  by_cases hj : j = k
  · rw [hj, hl, List.mem_append] at hb
    rw [hj, Function.update_self, List.mem_append, List.mem_cons]
    exact hb.imp_right Or.inr
  · rw [Function.update_of_ne hj]
    exact hb

theorem mem_remove (hl : l k = l₁ ++ a :: l₂)
    (hb : b ∈ Function.update l k (l₁ ++ l₂) j) : b ∈ l j := by
  by_cases hj : j = k
  · rw [hj, Function.update_self, List.mem_append] at hb
    rw [hj, hl, List.mem_append, List.mem_cons]
    exact hb.imp_right Or.inr
  · rw [Function.update_of_ne hj] at hb
    exact hb

theorem mem_of_remove (hl : l k = l₁ ++ a :: l₂) (hb : b ∈ l j) :
    b ∈ Function.update l k (l₁ ++ l₂) j ∨ b = a := by
  by_cases hj : j = k
  · rw [hj, hl, List.mem_append, List.mem_cons] at hb
    rw [hj, Function.update_self, List.mem_append]
    rcases hb with hb | hb | hb
    · exact Or.inl (Or.inl hb)
    · exact Or.inr hb
    · exact Or.inl (Or.inr hb)
  · rw [Function.update_of_ne hj]
    exact Or.inl hb

end Change

/-! ### Blocks -/

namespace Mem

variable {s s' : Som} {l l' : SomList → List Addr} {loose loose' : Set Addr} {a : Addr}
  {j k : SomList} {l₁ l₂ : List Addr}

theorem congr (h : Mem s l loose) (hhdr : s'.hdr = s.hdr)
    (hlist : ∀ j, Live l j → s'.list j = s.list j) (hblock : s'.block = s.block)
    (hnames : s'.all_names = s.all_names) : Mem s' l loose where
  lists := by
    refine ⟨fun j hj => ?_, h.lists.dead, h.lists.disjoint⟩
    rw [hhdr, hlist j hj]
    exact h.lists.isList j hj
  kept := by
    rw [hblock]
    exact h.kept
  names := by
    rw [hblock, hnames]
    exact h.names
  names_inj := by
    rw [hnames]
    exact h.names_inj
  leads b k hb := by
    rw [hblock] at hb
    unfold Leads
    rw [hnames]
    exact h.leads b k hb

theorem not_mem_of_free (h : Mem s l loose) (ha : s.block a = none) (j : SomList) : a ∉ l j := by
  intro hmem
  rw [h.kept j a hmem] at ha
  cases ha

theorem not_mem_of_use (h : Mem s l loose) {use : Block} (ha : s.block a = some use)
    (hj : use ≠ j.use) : a ∉ l j := by
  intro hmem
  rw [h.kept j a hmem] at ha
  exact hj (Option.some.inj ha).symm

theorem memset (h : Mem s l loose) (ha : ∀ j, a ∉ l j) (x : LinkHdr) :
    Mem { s with hdr := Function.update s.hdr a x } l loose where
  lists := ⟨fun j hj => (h.lists.isList j hj).update (ha j) x, h.lists.dead, h.lists.disjoint⟩
  kept := h.kept
  names := h.names
  names_inj := h.names_inj
  leads := h.leads

theorem setNames (h : Mem s l loose) (ha : a ∉ l .history) (n : Addr) :
    Mem { s with all_names := Function.update s.all_names a n } l loose := by
  have hsame : ∀ b ∈ l .history, Function.update s.all_names a n b = s.all_names b := by
    intro b hb
    refine Function.update_of_ne ?_ _ _
    rintro rfl
    exact ha hb
  refine ⟨h.lists, h.kept, fun b hb => ?_, fun b hb c hc hbc => ?_, fun b use hb => ?_⟩
  · change s.block (Function.update s.all_names a n b) = _
    rw [hsame b hb]
    exact h.names b hb
  · change Function.update s.all_names a n b = Function.update s.all_names a n c at hbc
    rw [hsame b hb, hsame c hc] at hbc
    exact h.names_inj b hb c hc hbc
  · refine (h.leads b use hb).imp_left fun hlead => hlead.imp_right ?_
    rintro ⟨huse, c, hc, rfl⟩
    exact ⟨huse, c, hc, hsame c hc⟩

/-- **A new block** is loose. -/
theorem alloc (h : Mem s l loose) {heap : Heap} {use : Block}
    (ha : somAlloc heap s use = some (s', a)) :
    heap.claim s.block use = some a ∧ s' = s.allocate a use ∧ s.block a = none ∧
      Mem s' l (insert a loose) := by
  unfold somAlloc at ha
  cases hclaim : heap.claim s.block use with
  | none =>
    rw [hclaim] at ha
    cases ha
  | some b =>
    rw [hclaim] at ha
    obtain ⟨rfl, rfl⟩ := Prod.mk.inj (Option.some.inj ha)
    have hfree := heap.claim_free hclaim
    have hne : ∀ {c : Addr} {use' : Block}, s.block c = some use' → c ≠ b := by
      rintro c use' hc rfl
      rw [hfree] at hc
      cases hc
    refine ⟨rfl, rfl, hfree, h.lists, fun j c hc => ?_, fun c hc => ?_, h.names_inj, fun c use' hc => ?_⟩
    · have hkept := h.kept j c hc
      change Function.update s.block b _ c = _
      rw [Function.update_of_ne (hne hkept)]
      exact hkept
    · have hnames := h.names c hc
      change Function.update s.block b _ (s.all_names c) = _
      rw [Function.update_of_ne (hne hnames)]
      exact hnames
    · by_cases hcb : c = b
      · exact Or.inr (Or.inl hcb)
      · change Function.update s.block b _ c = _ at hc
        rw [Function.update_of_ne hcb] at hc
        exact (h.leads c use' hc).imp_right Or.inr

/-- **Freeing** a loose block. -/
theorem free (h : Mem s l (insert a loose)) (ha : ∀ j, a ∉ l j)
    (hnames : ∀ b ∈ l .history, s.all_names b ≠ a) : Mem (somFree s a) l loose where
  lists := h.lists
  kept j b hb := by
    have hba : b ≠ a := by
      rintro rfl
      exact ha j hb
    exact (Function.update_of_ne hba _ _).trans (h.kept j b hb)
  names b hb := (Function.update_of_ne (hnames b hb) _ _).trans (h.names b hb)
  names_inj := h.names_inj
  leads b use hb := by
    by_cases hba : b = a
    · rw [hba] at hb
      change Function.update s.block a none a = _ at hb
      rw [Function.update_self] at hb
      cases hb
    · change Function.update s.block a none b = _ at hb
      rw [Function.update_of_ne hba] at hb
      exact (h.leads b use hb).imp_right fun hor => hor.resolve_left hba

private theorem relist (h : Mem s l loose) (hlists : Lists s'.hdr s'.list (Live l') l')
    (hblock : s'.block = s.block) (hnames : s'.all_names = s.all_names)
    (hhist : l' .history = l .history) (hkept : ∀ j, ∀ b ∈ l' j, s.block b = some j.use)
    (hleads : ∀ j, ∀ b ∈ l j, b ∈ l' j ∨ b ∈ loose')
    (hloose : ∀ b ∈ loose, (∃ j, b ∈ l' j) ∨ b ∈ loose') : Mem s' l' loose' where
  lists := hlists
  kept := by
    rw [hblock]
    exact hkept
  names := by
    rw [hblock, hnames, hhist]
    exact h.names
  names_inj := by
    rw [hnames, hhist]
    exact h.names_inj
  leads b use hb := by
    rw [hblock] at hb
    rcases h.leads b use hb with (⟨j, hj, hmem⟩ | ⟨huse, hmem⟩) | hmem
    · exact (hleads j b hmem).imp_left fun hmem => Or.inl ⟨j, hj, hmem⟩
    · refine Or.inl (Or.inr ⟨huse, ?_⟩)
      rw [hnames, hhist]
      exact hmem
    · refine (hloose b hmem).imp_left fun ⟨j, hmem⟩ => Or.inl ⟨j, ?_, hmem⟩
      have hkept := hkept j b hmem
      rw [hb] at hkept
      exact (Option.some.inj hkept).symm

/-- **Linking** a loose record, with no change to the history. -/
theorem link (h : Mem s l (insert a loose)) (huse : s.block a = some k.use) (hk : k ≠ .history)
    (hl : l k = l₁ ++ l₂)
    (hlists : Lists s'.hdr s'.list (Live (Function.update l k (l₁ ++ a :: l₂)))
      (Function.update l k (l₁ ++ a :: l₂)))
    (hblock : s'.block = s.block) (hnames : s'.all_names = s.all_names) :
    Mem s' (Function.update l k (l₁ ++ a :: l₂)) loose := by
  refine h.relist hlists hblock hnames (Function.update_of_ne (Ne.symm hk) _ _) (fun j b hb => ?_)
    (fun j b hb => Or.inl (mem_of_insert hl hb)) fun b hb => ?_
  · rcases mem_insert hl hb with hb | ⟨rfl, rfl⟩
    · exact h.kept j b hb
    · exact huse
  · rcases hb with rfl | hb
    · refine Or.inl ⟨k, ?_⟩
      rw [Function.update_self]
      exact List.mem_append_right l₁ List.mem_cons_self
    · exact Or.inr hb

theorem linkClient (h : Mem s l (insert a loose)) (ha : ∀ j, a ∉ l j)
    (huse : s.block a = some .client) (hinit : (s.client a).object_list = linklistInitList) :
    Mem (s.addToEnd .clients a) (Function.update l .clients (l .clients ++ [a])) loose := by
  have hlists := addToEnd_lists h.lists (k := .clients) trivial ha
  have hfresh : ¬Live l (.objects a) := ha .clients
  have hcreate := hlists.create hfresh
  refine h.link (k := .clients) huse nofun (List.append_nil _).symm ?_ rfl rfl
  have hheader : Function.update (s.addToEnd .clients a).list (.objects a) ⟨none, none, 0⟩ =
      (s.addToEnd .clients a).list := by
    rw [Function.update_eq_self_iff]
    exact hinit.symm
  have hlive : (fun j => j = .objects a ∨ Live l j) =
      Live (Function.update l .clients (l .clients ++ [a])) := by
    funext j
    cases j with
    | objects client =>
      change (_ ∨ client ∈ l .clients) = (client ∈ Function.update l .clients _ .clients)
      rw [Function.update_self, List.mem_append, List.mem_singleton]
      refine propext ⟨?_, ?_⟩
      · rintro (hc | hc)
        · exact Or.inr (SomList.objects.inj hc)
        · exact Or.inl hc
      · rintro (hc | rfl)
        · exact Or.inr hc
        · exact Or.inl rfl
    | _ => exact propext ⟨fun _ => trivial, fun _ => Or.inr trivial⟩
  rw [hheader, hlive] at hcreate
  exact hcreate

theorem linkHistory {n : Addr} (h : Mem s l (insert n (insert a loose))) (ha : ∀ j, a ∉ l j)
    (huse : s.block a = some .client_history) (hn : s.all_names a = n)
    (hnames : s.block n = some .names) (hown : ∀ b ∈ l .history, s.all_names b ≠ n) :
    Mem (s.addToEnd .history a) (Function.update l .history (l .history ++ [a])) loose := by
  subst hn
  have hl : l .history = l .history ++ [] := (List.append_nil _).symm
  have hlists := addToEnd_lists h.lists (k := .history) trivial ha
  have hhist : ∀ b ∈ Function.update l .history (l .history ++ [a]) .history,
      b ∈ l .history ∨ b = a := fun b hb =>
    (mem_insert hl hb).imp_right And.left
  refine ⟨?_, fun j b hb => ?_, fun b hb => ?_, fun b hb c hc hbc => ?_, fun b use hb => ?_⟩
  · rw [live_update (k := .history) (by decide)]
    exact hlists
  · rcases mem_insert hl hb with hb | ⟨rfl, rfl⟩
    · exact h.kept j b hb
    · exact huse
  · rcases hhist b hb with hb | rfl
    · exact h.names b hb
    · exact hnames
  · rcases hhist b hb with hb' | hba
    · rcases hhist c hc with hc' | hca
      · exact h.names_inj b hb' c hc' hbc
      · rw [hca] at hbc
        exact absurd hbc (hown b hb')
    · rcases hhist c hc with hc' | hca
      · rw [hba] at hbc
        exact absurd hbc.symm (hown c hc')
      · exact hba.trans hca.symm
  · have ha' : a ∈ Function.update l .history (l .history ++ [a]) .history := by
      rw [Function.update_self]
      exact List.mem_append_right _ List.mem_cons_self
    rcases h.leads b use hb with (⟨j, hj, hmem⟩ | ⟨huse', c, hc, hbc⟩) | rfl | rfl | hmem
    · exact Or.inl (Or.inl ⟨j, hj, mem_of_insert hl hmem⟩)
    · exact Or.inl (Or.inr ⟨huse', c, mem_of_insert hl hc, hbc⟩)
    · refine Or.inl (Or.inr ⟨?_, a, ha', rfl⟩)
      exact Option.some.inj (hb.symm.trans hnames)
    · refine Or.inl (Or.inl ⟨.history, ?_, ha'⟩)
      exact Option.some.inj (huse.symm.trans hb)
    · exact Or.inr hmem

/-! ### Unlinking -/

theorem not_mem_remove (h : Mem s l loose) (hl : l k = l₁ ++ a :: l₂) (j : SomList) :
    a ∉ Function.update l k (l₁ ++ l₂) j := by
  have ha : a ∈ l k := by
    rw [hl]
    exact List.mem_append_right l₁ List.mem_cons_self
  intro hmem
  obtain rfl := h.lists.disjoint (mem_remove hl hmem) ha
  have hnodup := (h.lists.isList j (h.lists.live_of_mem ha)).nodup
  rw [Function.update_self] at hmem
  rw [hl] at hnodup
  exact (List.nodup_middle.mp hnodup |> List.nodup_cons.mp).1 hmem

/-- **Unlinking** a record, with no change to the history. -/
theorem unlink (h : Mem s l loose) (hk : k ≠ .history) (hl : l k = l₁ ++ a :: l₂)
    (hlists : Lists s'.hdr s'.list (Live (Function.update l k (l₁ ++ l₂)))
      (Function.update l k (l₁ ++ l₂)))
    (hblock : s'.block = s.block) (hnames : s'.all_names = s.all_names) :
    Mem s' (Function.update l k (l₁ ++ l₂)) (insert a loose) :=
  h.relist hlists hblock hnames (Function.update_of_ne (Ne.symm hk) _ _)
    (fun j b hb => h.kept j b (mem_remove hl hb))
    (fun _ _ hb => (mem_of_remove hl hb).imp_right Or.inl) fun _ hb => Or.inr (Or.inr hb)

theorem unlinkClient (h : Mem s l loose) (hl : l .clients = l₁ ++ a :: l₂)
    (hempty : l (.objects a) = []) :
    Mem (s.remove .clients a) (Function.update l .clients (l₁ ++ l₂)) (insert a loose) := by
  have hlists := remove_lists h.lists (k := .clients) trivial hl
  have hempty' : Function.update l .clients (l₁ ++ l₂) (.objects a) = [] :=
    (Function.update_of_ne (fun heq => by cases heq) _ _).trans hempty
  have hdrop := hlists.drop hempty'
  refine h.unlink (k := .clients) nofun hl ?_ rfl rfl
  have hnot : a ∉ l₁ ++ l₂ := by
    have hnone := h.not_mem_remove hl .clients
    rw [Function.update_self] at hnone
    exact hnone
  have hlive : (fun j => j ≠ .objects a ∧ Live l j) =
      Live (Function.update l .clients (l₁ ++ l₂)) := by
    funext j
    cases j with
    | objects client =>
      change (_ ∧ client ∈ l .clients) = (client ∈ Function.update l .clients _ .clients)
      rw [Function.update_self, hl, List.mem_append, List.mem_append, List.mem_cons]
      refine propext ⟨?_, fun hc => ⟨?_, hc.imp_right Or.inr⟩⟩
      · rintro ⟨hne, hc | rfl | hc⟩
        · exact Or.inl hc
        · exact absurd rfl hne
        · exact Or.inr hc
      · rintro hca
        rw [SomList.objects.inj hca] at hc
        exact hnot (List.mem_append.mpr hc)
    | _ => exact propext ⟨fun _ => trivial, fun _ => ⟨nofun, trivial⟩⟩
  rw [hlive] at hdrop
  exact hdrop

theorem unlinkHistory (h : Mem s l loose) (hl : l .history = l₁ ++ a :: l₂) :
    Mem (s.remove .history a) (Function.update l .history (l₁ ++ l₂))
      (insert (s.all_names a) (insert a loose)) := by
  have hlists := remove_lists h.lists (k := .history) trivial hl
  refine ⟨?_, fun j b hb => h.kept j b (mem_remove hl hb), fun b hb => h.names b (mem_remove hl hb),
    fun b hb c hc => h.names_inj b (mem_remove hl hb) c (mem_remove hl hc), fun b use hb => ?_⟩
  · rw [live_update (k := .history) (by decide)]
    exact hlists
  · rcases h.leads b use hb with (⟨j, hj, hmem⟩ | ⟨huse, c, hc, hbc⟩) | hmem
    · rcases mem_of_remove hl hmem with hmem | rfl
      · exact Or.inl (Or.inl ⟨j, hj, hmem⟩)
      · exact Or.inr (Or.inr (Or.inl rfl))
    · rcases mem_of_remove hl hc with hc | rfl
      · exact Or.inl (Or.inr ⟨huse, c, hc, hbc⟩)
      · exact Or.inr (Or.inl hbc.symm)
    · exact Or.inr (Or.inr (Or.inr hmem))

end Mem

end SOManager
