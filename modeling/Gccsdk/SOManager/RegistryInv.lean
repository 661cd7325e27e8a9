import Mathlib.Algebra.BigOperators.Group.List.Basic
import Gccsdk.SOManager.RegistryMem
import Mathlib.Algebra.GroupWithZero.Nat

/-!
# The invariant of the registry

`SomInv s l loose`: the records are `l`, with their blocks as `Mem` says; the global list is sorted by load
address, with one library for each handle; a library's `usage_count` is the number of entries for it in the
clients' lists; and `object_array` leads to the libraries by their index (`Reg`). The workspace of a task
leads to a client of its own.

There is one lemma for each function of the source. They keep the invariant, whatever the heap answers;
`loose` grows in two places only, where a record is given up without being freed
(`SomInv.registerSharedobject`, `SomInv.historyAdd`).
-/

namespace SOManager

open DoublyLinked

def users (client_object : Addr → ClientObject) (l : SomList → List Addr) (a : Addr) : ℕ :=
  ((l .clients).map fun c => (l (.objects c)).countP fun e => (client_object e).library = a).sum

/-- The libraries, the entries of the clients' lists, and the array. -/
structure Reg (library : Addr → LibraryObject) (client_object : Addr → ClientObject)
    (object_array : List (Option Addr)) (l : SomList → List Addr) : Prop where
  /-- The global list is sorted by load address, -/
  sorted : (l .libraries).Pairwise fun a b => (library a).base_addr ≤ (library b).base_addr
  /-- and has one library for each handle. -/
  handles : (l .libraries).Pairwise fun a b => (library a).handle ≠ (library b).handle
  /-- The clients' lists are for libraries of the global list, -/
  refers : ∀ c, ∀ e ∈ l (.objects c), (client_object e).library ∈ l .libraries
  /-- whose users are counted. -/
  usage : ∀ a ∈ l .libraries, (library a).usage_count = users client_object l a
  index_pos : ∀ a ∈ l .libraries, 1 ≤ (library a).index
  array : ∀ i a, object_array[i]? = some (some a) ↔ a ∈ l .libraries ∧ (library a).index = i
  array_pos : 1 ≤ object_array.length
  client_sorted : ∀ c, (l (.objects c)).Pairwise fun a b =>
    (library (client_object a).library).base_addr ≤ (library (client_object b).library).base_addr

/-- The invariant. -/
structure SomInv (s : Som) (l : SomList → List Addr) (loose : Set Addr) : Prop where
  mem : Mem s l loose
  reg : Reg s.library s.client_object s.object_array l
  /-- The workspace of a task leads to a client, -/
  client_ptr : ∀ t c, s.client_ptr t = some c → c ∈ l .clients
  /-- which is the task's own. -/
  client_ptr_inj : ∀ t t' c, s.client_ptr t = some c → s.client_ptr t' = some c → t = t'

/-! ### Counting the users of a library -/

section Users

variable {client_object : Addr → ClientObject} {l : SomList → List Addr} {a c e : Addr}
  {l₁ l₂ : List Addr}

theorem users_congr {client_object' : Addr → ClientObject} {l' : SomList → List Addr}
    (hc : l' .clients = l .clients) (ho : ∀ c ∈ l .clients, l' (.objects c) = l (.objects c))
    (he : ∀ c ∈ l .clients, ∀ e ∈ l (.objects c),
      (client_object' e).library = (client_object e).library) :
    users client_object' l' a = users client_object l a := by
  unfold users
  rw [hc]
  congr 1
  refine List.map_congr_left fun c hmem => ?_
  rw [ho c hmem]
  refine List.countP_congr fun e hmem' => ?_
  rw [he c hmem e hmem']

theorem users_eq_zero_iff :
    users client_object l a = 0 ↔
      ∀ c ∈ l .clients, ∀ e ∈ l (.objects c), (client_object e).library ≠ a := by
  unfold users
  rw [List.sum_eq_zero_iff_forall_eq_nat]
  constructor
  · intro h c hc e he
    have hcount := h _ (List.mem_map_of_mem hc)
    rw [List.countP_eq_zero] at hcount
    exact fun heq => hcount e he (decide_eq_true heq)
  · intro h n hn
    obtain ⟨c, hc, rfl⟩ := List.mem_map.mp hn
    refine List.countP_eq_zero.mpr fun e he heq => ?_
    exact h c hc e he (of_decide_eq_true heq)

theorem users_update (client_object : Addr → ClientObject) (a : Addr) (hc : c ∈ l .clients)
    (hnodup : (l .clients).Nodup) (m : List Addr) :
    users client_object (Function.update l (.objects c) m) a +
        (l (.objects c)).countP (fun e => (client_object e).library = a) =
      users client_object l a + m.countP (fun e => (client_object e).library = a) := by
  obtain ⟨xs, ys, hl⟩ := List.append_of_mem hc
  rw [hl, List.nodup_middle, List.nodup_cons, List.mem_append, not_or] at hnodup
  obtain ⟨⟨hxs, hys⟩, -⟩ := hnodup
  -- the lists of the other clients are the same
  have hother : ∀ zs : List Addr, c ∉ zs →
      zs.map (fun c' => (Function.update l (.objects c) m (.objects c')).countP
        fun e => (client_object e).library = a) =
      zs.map (fun c' => (l (.objects c')).countP fun e => (client_object e).library = a) := by
    intro zs hzs
    refine List.map_congr_left fun c' hc' => ?_
    rw [Function.update_of_ne]
    rintro heq
    rw [SomList.objects.inj heq] at hc'
    exact hzs hc'
  have hclients : Function.update l (.objects c) m .clients = xs ++ c :: ys := by
    rw [Function.update_of_ne (fun heq => by cases heq), hl]
  unfold users
  rw [hclients, hl, List.map_append, List.map_append, List.map_cons, List.map_cons,
    Function.update_self, hother xs hxs, hother ys hys, List.sum_append, List.sum_append,
    List.sum_cons, List.sum_cons]
  omega

end Users

theorem pairwise_insert {f : Addr → Addr} {l₁ l₂ : List Addr} {a : Addr}
    (hsorted : (l₁ ++ l₂).Pairwise fun x y => f x ≤ f y) (hbefore : ∀ x ∈ l₁, f x ≤ f a)
    (hbehind : ∀ x ∈ l₂.head?, f a ≤ f x) : (l₁ ++ a :: l₂).Pairwise fun x y => f x ≤ f y := by
  obtain ⟨h₁, h₂, h₁₂⟩ := List.pairwise_append.mp hsorted
  refine List.pairwise_append.mpr ⟨h₁, List.pairwise_cons.mpr ⟨fun x hx => ?_, h₂⟩, fun x hx y hy => ?_⟩
  · -- what is behind it is not before the first one there
    cases l₂ with
    | nil => cases hx
    | cons b l₂ =>
      rcases List.mem_cons.mp hx with rfl | hx
      · exact hbehind _ rfl
      · exact Nat.le_trans (hbehind b rfl) (List.rel_of_pairwise_cons h₂ hx)
  · rcases List.mem_cons.mp hy with rfl | hy
    · exact hbefore x hx
    · exact h₁₂ x hx y hy

/-! ### Changes of the registry -/

namespace Reg

variable {library library' : Addr → LibraryObject} {client_object client_object' : Addr → ClientObject}
  {object_array object_array' : List (Option Addr)} {l l' : SomList → List Addr} {a c e g i : ℕ}
  {l₁ l₂ : List Addr}

theorem index_inj (h : Reg library client_object object_array l) {b : Addr} (ha : a ∈ l .libraries)
    (hb : b ∈ l .libraries) (hab : (library a).index = (library b).index) : a = b := by
  have h₁ := (h.array _ a).mpr ⟨ha, rfl⟩
  have h₂ := (h.array _ b).mpr ⟨hb, hab.symm⟩
  exact Option.some.inj (Option.some.inj (h₁.symm.trans h₂))

theorem recount (h : Reg library client_object object_array l)
    (hsame : ∀ x ∈ l .libraries, (library' x).handle = (library x).handle ∧
      (library' x).index = (library x).index ∧ (library' x).base_addr = (library x).base_addr)
    (hl : l' .libraries = l .libraries)
    (hrefers : ∀ c, ∀ e ∈ l' (.objects c), (client_object' e).library ∈ l .libraries)
    (husage : ∀ x ∈ l .libraries, (library' x).usage_count = users client_object' l' x)
    (hordered : ∀ c, (l' (.objects c)).Pairwise fun x y =>
      (library (client_object' x).library).base_addr ≤ (library (client_object' y).library).base_addr) :
    Reg library' client_object' object_array l' where
  sorted := by
    rw [hl]
    refine h.sorted.imp_of_mem fun {x y} hx hy hxy => ?_
    rw [(hsame x hx).2.2, (hsame y hy).2.2]
    exact hxy
  handles := by
    rw [hl]
    refine h.handles.imp_of_mem fun {x y} hx hy hxy => ?_
    rw [(hsame x hx).1, (hsame y hy).1]
    exact hxy
  refers := by
    rw [hl]
    exact hrefers
  usage := by
    rw [hl]
    exact husage
  index_pos x hx := by
    rw [hl] at hx
    rw [(hsame x hx).2.1]
    exact h.index_pos x hx
  array j x := by
    rw [hl, h.array j x]
    refine and_congr_right fun hx => ?_
    rw [(hsame x hx).2.1]
  array_pos := h.array_pos
  client_sorted c := (hordered c).imp_of_mem fun {x y} hx hy hxy => by
    rw [(hsame _ (hrefers c x hx)).2.2, (hsame _ (hrefers c y hy)).2.2]
    exact hxy

theorem congr (h : Reg library client_object object_array l)
    (heq : ∀ x ∈ l .libraries, library' x = library x) :
    Reg library' client_object object_array l := by
  refine h.recount (fun x hx => ?_) rfl h.refers (fun x hx => ?_) h.client_sorted
  · rw [heq x hx]
    exact ⟨rfl, rfl, rfl⟩
  · rw [heq x hx]
    exact h.usage x hx

theorem clients (h : Reg library client_object object_array l) (hl : l' .libraries = l .libraries)
    (ho : ∀ c, l' (.objects c) = l (.objects c))
    (hu : ∀ x, users client_object l' x = users client_object l x) :
    Reg library client_object object_array l' := by
  refine h.recount (fun x _ => ⟨rfl, rfl, rfl⟩) hl (fun c e he => ?_) (fun x hx => ?_) fun c => ?_
  · rw [ho c] at he
    exact h.refers c e he
  · rw [hu x]
    exact h.usage x hx
  · rw [ho c]
    exact h.client_sorted c

/-- A client without entries comes, -/
theorem addClient (h : Reg library client_object object_array l) (ha : l (.objects a) = []) :
    Reg library client_object object_array
      (Function.update l .clients (l .clients ++ [a])) := by
  refine h.clients rfl (fun c => rfl) fun x => ?_
  have hl : Function.update l .clients (l .clients ++ [a]) .clients = l .clients ++ [a] :=
    Function.update_self _ _ _
  unfold users
  rw [hl, List.map_append, List.sum_append]
  change (List.map (fun c => (l (.objects c)).countP _) _).sum + ((l (.objects a)).countP _ + 0) = _
  rw [ha]
  rfl

theorem removeClient (h : Reg library client_object object_array l)
    (hl : l .clients = l₁ ++ a :: l₂) (ha : l (.objects a) = []) :
    Reg library client_object object_array (Function.update l .clients (l₁ ++ l₂)) := by
  refine h.clients rfl (fun c => rfl) fun x => ?_
  have hl' : Function.update l .clients (l₁ ++ l₂) .clients = l₁ ++ l₂ := Function.update_self _ _ _
  unfold users
  rw [hl', hl, List.map_append, List.map_append, List.map_cons, List.sum_append, List.sum_append,
    List.sum_cons, ha, List.countP_nil, Nat.zero_add]
  rfl

theorem addObject (h : Reg library client_object object_array l) (hc : c ∈ l .clients)
    (hnodup : (l .clients).Nodup) (he : ∀ j, e ∉ l j) (hg : g ∈ l .libraries)
    (hl : l (.objects c) = l₁ ++ l₂)
    (hbefore : ∀ x ∈ l₁, (library (client_object x).library).base_addr ≤ (library g).base_addr)
    (hbehind : ∀ x ∈ l₂.head?, (library g).base_addr ≤ (library (client_object x).library).base_addr) :
    Reg (Function.update library g
        { library g with usage_count := (library g).usage_count + 1 })
      (Function.update client_object e ⟨g⟩) object_array
      (Function.update l (.objects c) (l₁ ++ e :: l₂)) := by
  have hold : ∀ c', ∀ x ∈ l (.objects c'), Function.update client_object e ⟨g⟩ x = client_object x := by
    intro c' x hx
    refine Function.update_of_ne ?_ _ _
    rintro rfl
    exact he _ hx
  refine h.recount (fun x _ => ?_) (Function.update_of_ne (fun heq => by cases heq) _ _)
    (fun c' x hx => ?_) (fun x hx => ?_) fun c' => ?_
  · by_cases hxg : x = g
    · rw [hxg, Function.update_self]
      exact ⟨rfl, rfl, rfl⟩
    · rw [Function.update_of_ne hxg]
      exact ⟨rfl, rfl, rfl⟩
  · rcases mem_insert hl hx with hx | ⟨rfl, -⟩
    · rw [hold c' x hx]
      exact h.refers c' x hx
    · rw [Function.update_self]
      exact hg
  · have husers := users_update (Function.update client_object e ⟨g⟩) x hc hnodup (l₁ ++ e :: l₂)
    have hsame : users (Function.update client_object e ⟨g⟩) l x = users client_object l x :=
      users_congr rfl (fun _ _ => rfl) fun c' _ y hy => by rw [hold c' y hy]
    rw [hsame, hl, List.countP_append, List.countP_append, List.countP_cons] at husers
    rw [Function.update_self] at husers
    by_cases hxg : x = g
    · subst hxg
      rw [Function.update_self]
      have husage := h.usage x hx
      rw [decide_eq_true rfl, if_pos rfl] at husers
      change (library x).usage_count + 1 = _
      omega
    · rw [Function.update_of_ne hxg, h.usage x hx]
      rw [if_neg (fun heq => hxg (of_decide_eq_true heq).symm)] at husers
      omega
  · by_cases hcc : c' = c
    · subst hcc
      have hself : Function.update client_object e ⟨g⟩ e = ⟨g⟩ := Function.update_self _ _ _
      have hmem : ∀ x ∈ l₁ ++ l₂, x ∈ l (.objects c') := fun x hx => hl ▸ hx
      have hsorted := h.client_sorted c'
      rw [hl] at hsorted
      rw [Function.update_self]
      refine pairwise_insert (hsorted.imp_of_mem fun {x y} hx hy hxy => ?_) (fun x hx => ?_) fun x hx => ?_
      · rw [hold c' x (hmem x hx), hold c' y (hmem y hy)]
        exact hxy
      · rw [hself, hold c' x (hmem x (List.mem_append_left l₂ hx))]
        exact hbefore x hx
      · rw [hself, hold c' x (hmem x (List.mem_append_right l₁ (List.mem_of_mem_head? hx)))]
        exact hbehind x hx
    · rw [Function.update_of_ne (fun heq => hcc (SomList.objects.inj heq))]
      refine (h.client_sorted c').imp_of_mem fun {x y} hx hy hxy => ?_
      rw [hold c' x hx, hold c' y hy]
      exact hxy

theorem removeObject (h : Reg library client_object object_array l) (hc : c ∈ l .clients)
    (hnodup : (l .clients).Nodup) (hl : l (.objects c) = l₁ ++ e :: l₂) (expire_time : BitVec 32) :
    Reg (Function.update library (client_object e).library
        { library (client_object e).library with
          usage_count := (library (client_object e).library).usage_count - 1
          expire_time := expire_time })
      client_object object_array (Function.update l (.objects c) (l₁ ++ l₂)) := by
  refine h.recount (fun x _ => ?_) (Function.update_of_ne (fun heq => by cases heq) _ _)
    (fun c' x hx => h.refers c' x (mem_remove hl hx)) (fun x hx => ?_) fun c' => ?_
  · by_cases hxg : x = (client_object e).library
    · rw [hxg, Function.update_self]
      exact ⟨rfl, rfl, rfl⟩
    · rw [Function.update_of_ne hxg]
      exact ⟨rfl, rfl, rfl⟩
  · have husers := users_update client_object x hc hnodup (l₁ ++ l₂)
    rw [hl, List.countP_append, List.countP_append, List.countP_cons] at husers
    by_cases hxg : x = (client_object e).library
    · have husage := h.usage x hx
      rw [hxg] at husers husage ⊢
      rw [Function.update_self]
      rw [decide_eq_true rfl, if_pos rfl] at husers
      change (library (client_object e).library).usage_count - 1 = _
      omega
    · rw [Function.update_of_ne hxg, h.usage x hx]
      rw [if_neg (fun heq => hxg (of_decide_eq_true heq).symm)] at husers
      omega
  · by_cases hcc : c' = c
    · subst hcc
      rw [Function.update_self]
      have hsorted := h.client_sorted c'
      rw [hl] at hsorted
      exact hsorted.sublist (List.Sublist.append_left (List.sublist_cons_self e l₂) l₁)
    · rw [Function.update_of_ne (fun heq => hcc (SomList.objects.inj heq))]
      exact h.client_sorted c'

/-- **A library comes**, at its place in the list and at an unused index. -/
theorem addLibrary (h : Reg library client_object object_array l) (new : LibraryObject)
    (ha : ∀ j, a ∉ l j) (hl : l .libraries = l₁ ++ l₂) (hnew : new.usage_count = 0)
    (hhandle : ∀ b ∈ l .libraries, (library b).handle ≠ new.handle)
    (hbefore : ∀ b ∈ l₁, (library b).base_addr ≤ new.base_addr)
    (hbehind : ∀ b ∈ l₂.head?, new.base_addr ≤ (library b).base_addr) (hindex : 1 ≤ new.index)
    (harray : ∀ j x, object_array'[j]? = some (some x) ↔
      j = new.index ∧ x = a ∨ j ≠ new.index ∧ object_array[j]? = some (some x))
    (hunused : ∀ x, object_array[new.index]? ≠ some (some x))
    (hlength : 1 ≤ object_array'.length) :
    Reg (Function.update library a new) client_object object_array'
      (Function.update l .libraries (l₁ ++ a :: l₂)) := by
  have hlibs : Function.update l .libraries (l₁ ++ a :: l₂) .libraries = l₁ ++ a :: l₂ :=
    Function.update_self _ _ _
  have hold : ∀ x ∈ l .libraries, Function.update library a new x = library x := by
    intro x hx
    refine Function.update_of_ne ?_ _ _
    rintro rfl
    exact ha _ hx
  have hmem₁ : ∀ x ∈ l₁, x ∈ l .libraries := fun x hx => by
    rw [hl]
    exact List.mem_append_left l₂ hx
  have hmem₂ : ∀ x ∈ l₂, x ∈ l .libraries := fun x hx => by
    rw [hl]
    exact List.mem_append_right l₁ hx
  have hhandles := h.handles
  rw [hl, List.pairwise_append] at hhandles
  refine ⟨?_, ?_, fun c e he => ?_, fun x hx => ?_, fun x hx => ?_, fun j x => ?_, hlength, fun c => ?_⟩
  · have hself : Function.update library a new a = new := Function.update_self _ _ _
    have hsorted := h.sorted
    rw [hl] at hsorted
    rw [hlibs]
    refine pairwise_insert (hsorted.imp_of_mem fun {x y} hx hy hxy => ?_) (fun x hx => ?_) fun x hx => ?_
    · rw [hold x (hl ▸ hx), hold y (hl ▸ hy)]
      exact hxy
    · rw [hself, hold x (hmem₁ x hx)]
      exact hbefore x hx
    · rw [hself, hold x (hmem₂ x (List.mem_of_mem_head? hx))]
      exact hbehind x hx
  · rw [hlibs, List.pairwise_append, List.pairwise_cons]
    refine ⟨hhandles.1.imp_of_mem fun {x y} hx hy hxy => ?_, ⟨fun x hx => ?_,
      hhandles.2.1.imp_of_mem fun {x y} hx hy hxy => ?_⟩, fun x hx y hy => ?_⟩
    · rw [hold x (hmem₁ x hx), hold y (hmem₁ y hy)]
      exact hxy
    · rw [Function.update_self, hold x (hmem₂ x hx)]
      exact Ne.symm (hhandle x (hmem₂ x hx))
    · rw [hold x (hmem₂ x hx), hold y (hmem₂ y hy)]
      exact hxy
    · rw [hold x (hmem₁ x hx)]
      rcases List.mem_cons.mp hy with rfl | hy
      · rw [Function.update_self]
        exact hhandle x (hmem₁ x hx)
      · rw [hold y (hmem₂ y hy)]
        exact hhandles.2.2 x hx y hy
  · rw [Function.update_of_ne (fun heq => by cases heq)] at he
    exact mem_of_insert hl (h.refers c e he)
  · have husers : users client_object (Function.update l .libraries (l₁ ++ a :: l₂)) x =
        users client_object l x := users_congr rfl (fun _ _ => rfl) fun _ _ _ _ => rfl
    rw [husers]
    rcases mem_insert hl hx with hx | ⟨rfl, -⟩
    · rw [hold x hx]
      exact h.usage x hx
    · -- the entries there are for libraries of the list
      rw [Function.update_self, hnew, users_eq_zero_iff.mpr fun c _ e he heq => ?_]
      · rfl
      · refine ha .libraries ?_
        rw [← heq]
        exact h.refers c e he
  · rcases mem_insert hl hx with hx | ⟨rfl, -⟩
    · rw [hold x hx]
      exact h.index_pos x hx
    · rw [Function.update_self]
      exact hindex
  · rw [harray, h.array]
    constructor
    · rintro (⟨rfl, rfl⟩ | ⟨-, hx, rfl⟩)
      · refine ⟨?_, ?_⟩
        · rw [hlibs]
          exact List.mem_append_right l₁ List.mem_cons_self
        · rw [Function.update_self]
      · exact ⟨mem_of_insert hl hx, by rw [hold x hx]⟩
    · rintro ⟨hx, rfl⟩
      rcases mem_insert hl hx with hx | ⟨rfl, -⟩
      · rw [hold x hx]
        refine Or.inr ⟨fun heq => hunused x ?_, hx, rfl⟩
        rw [← heq]
        exact (h.array _ x).mpr ⟨hx, rfl⟩
      · rw [Function.update_self]
        exact Or.inl ⟨rfl, rfl⟩
  · rw [Function.update_of_ne (fun heq => by cases heq)]
    refine (h.client_sorted c).imp_of_mem fun {x y} hx hy hxy => ?_
    rw [hold _ (h.refers c x hx), hold _ (h.refers c y hy)]
    exact hxy

theorem removeLibrary (h : Reg library client_object object_array l) (hnodup : (l .libraries).Nodup)
    (hl : l .libraries = l₁ ++ a :: l₂) (hlive : ∀ c, c ∉ l .clients → l (.objects c) = [])
    (hunused : (library a).usage_count = 0) :
    Reg library client_object (object_array.set (library a).index none)
      (Function.update l .libraries (l₁ ++ l₂)) := by
  have hlibs : Function.update l .libraries (l₁ ++ l₂) .libraries = l₁ ++ l₂ :=
    Function.update_self _ _ _
  have ha : a ∈ l .libraries := by
    rw [hl]
    exact List.mem_append_right l₁ List.mem_cons_self
  have hnot : a ∉ l₁ ++ l₂ := by
    rw [hl, List.nodup_middle, List.nodup_cons] at hnodup
    exact hnodup.1
  have hsub : (l₁ ++ l₂).Sublist (l .libraries) := by
    rw [hl]
    exact List.Sublist.append_left (List.sublist_cons_self a l₂) l₁
  have hback : ∀ x ∈ l .libraries, x ≠ a → x ∈ l₁ ++ l₂ := by
    intro x hx hne
    rw [hl, List.mem_append, List.mem_cons] at hx
    rw [List.mem_append]
    exact hx.imp_right fun hx => hx.resolve_left hne
  refine ⟨?_, ?_, fun c e he => ?_, fun x hx => ?_, fun x hx => ?_, fun j x => ?_, ?_, fun c => ?_⟩
  · rw [hlibs]
    exact h.sorted.sublist hsub
  · rw [hlibs]
    exact h.handles.sublist hsub
  · rw [Function.update_of_ne (fun heq => by cases heq)] at he
    rw [hlibs]
    refine hback _ (h.refers c e he) fun heq => ?_
    -- an entry for the library would be counted
    have hzero : users client_object l a = 0 := by
      have husage := h.usage a ha
      omega
    by_cases hc : c ∈ l .clients
    · exact users_eq_zero_iff.mp hzero c hc e he heq
    · rw [hlive c hc] at he
      cases he
  · have husers : users client_object (Function.update l .libraries (l₁ ++ l₂)) x =
        users client_object l x := users_congr rfl (fun _ _ => rfl) fun _ _ _ _ => rfl
    rw [husers]
    exact h.usage x (mem_remove hl hx)
  · exact h.index_pos x (mem_remove hl hx)
  · rw [List.getElem?_set, hlibs]
    constructor
    · intro hj
      split at hj
      · split at hj <;> cases hj
      · rename_i hne
        obtain ⟨hx, rfl⟩ := (h.array j x).mp hj
        refine ⟨hback x hx ?_, rfl⟩
        rintro rfl
        exact hne rfl
    · rintro ⟨hx, rfl⟩
      have hx' := hsub.mem hx
      rw [if_neg]
      · exact (h.array _ x).mpr ⟨hx', rfl⟩
      · intro heq
        rw [h.index_inj ha hx' heq] at hnot
        exact hnot hx
  · rw [List.length_set]
    exact h.array_pos
  · rw [Function.update_of_ne (fun heq => by cases heq)]
    exact h.client_sorted c

end Reg

end SOManager
