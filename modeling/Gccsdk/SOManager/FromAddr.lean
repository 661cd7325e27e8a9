import Gccsdk.SOManager.RegistryRuns
import Mathlib.Data.List.Pairwise
import Mathlib.Order.Interval.Set.Basic
import Mathlib.Order.Interval.Set.Disjoint
import Mathlib.Data.BitVec
import Mathlib.Order.CompletePartialOrder

/-!
# Looking up addresses

`som_got_from_addr` and `som_handle_from_addr` of `som_utilswis.c`: of the libraries of a client, in the order
of their load addresses, they take the first one that does not end below the address. The load address of that
library is not looked at, and its end counts as one of its addresses.

`fromAddrRight_iff`: in every state of the registry in which the ranges of the client's libraries do not
overlap, the answer is right just where the address lies above all ends, or in a range with no library in front
of it that ends right there. An address below the first library, in a gap or at an end is given to the next
library.

`init_object` and `som_register_sharedobject` store the end of a library and the addresses of an entry as they
are told: these members are a parameter (`AddrInfo`).
-/

namespace SOManager

open DoublyLinked

/-- What is stored as `end_addr` of a library, and as `got_addr` of an entry of a client's list. -/
structure AddrInfo where
  end_addr : Addr → Addr
  got_addr : Addr → Addr

inductive LookupErr
  | somerr_client_not_found
  | somerr_object_not_found
  deriving DecidableEq, Repr

def Som.endOf (s : Som) (info : AddrInfo) (client_library : Addr) : Addr :=
  info.end_addr (s.client_object client_library).library

/-- The loop of both functions, and what is done with the entry it finds; `r[0]` is null with an error. -/
def fromAddr {α : Type} [Zero α] (fuel : ℕ) (s : Som) (info : AddrInfo) (t : Task) (addr : Addr)
    (value : Addr → α) : Option (α × Option LookupErr) :=
  match s.client_ptr t with
  | none => some (0, some .somerr_client_not_found)
  | some client =>
    (s.findIn (.objects client) (fun client_library => ¬addr > s.endOf info client_library) fuel).map fun
      | none => (0, some .somerr_object_not_found)
      | some client_library => (value client_library, none)

def somGotFromAddr (fuel : ℕ) (s : Som) (info : AddrInfo) (t : Task) (addr : Addr) :
    Option (Addr × Option LookupErr) :=
  fromAddr fuel s info t addr info.got_addr

def somHandleFromAddr (fuel : ℕ) (s : Som) (info : AddrInfo) (t : Task) (addr : Addr) :
    Option (BitVec 32 × Option LookupErr) :=
  fromAddr fuel s info t addr fun client_library => (s.libraryOf client_library).handle

/-! ### What is to hold -/

section Lookup

variable (s : Som) (info : AddrInfo)

def Som.range (client_library : Addr) : Set Addr :=
  Set.Ico (s.libraryOf client_library).base_addr (s.endOf info client_library)

/-- The answer about an address, from the entries of the client's list: the value of the one whose library has
the address, or that there is none. -/
def LookupRight {α : Type} (entries : List Addr) (addr : Addr) (value : Addr → α) :
    α × Option LookupErr → Prop
  | (v, none) => ∃ e ∈ entries, addr ∈ s.range info e ∧ v = value e
  | (_, some err) => err = .somerr_object_not_found ∧ ∀ e ∈ entries, addr ∉ s.range info e

/-- A walk comes to an end, and what it answers is right. -/
structure Answers {α : Type} (run : ℕ → Option α) (right : α → Prop) : Prop where
  ends : ∃ fuel, (run fuel).isSome = true
  right : ∀ fuel r, run fuel = some r → right r

/-- **Both answers are right.** -/
structure FromAddrRight (t : Task) (entries : List Addr) (addr : Addr) : Prop where
  got : Answers (somGotFromAddr · s info t addr) (LookupRight s info entries addr info.got_addr)
  handle : Answers (somHandleFromAddr · s info t addr)
    (LookupRight s info entries addr fun e => (s.libraryOf e).handle)

/-- The address is above the ends of all libraries, or it is in the range of one and no library in front of that
one ends there. -/
def AddrClear (entries : List Addr) (addr : Addr) : Prop :=
  (∀ e ∈ entries, s.endOf info e < addr) ∨
    ∃ pre e post, entries = pre ++ e :: post ∧ addr ∈ s.range info e ∧ ∀ e' ∈ pre, s.endOf info e' ≠ addr

end Lookup

/-! ### What the walk finds -/

variable {P : ℕ → Heap → Som → Task → SomCall → Prop} {s : Som} {info : AddrInfo} {t : Task} {client addr : Addr}
  {entries : List Addr}

theorem answers_fromAddr_iff {α : Type} [Zero α] {value : Addr → α} {right : α × Option LookupErr → Prop}
    (hclient : s.client_ptr t = some client) (hlist : IsList s.hdr (s.client client).object_list entries) :
    Answers (fromAddr · s info t addr value) right ↔
      right (match entries.find? fun e => ¬addr > s.endOf info e with
        | none => (0, some .somerr_object_not_found)
        | some e => (value e, none)) := by
  have hrun : ∀ fuel, fromAddr fuel s info t addr value =
      (s.findIn (.objects client) (fun e => ¬addr > s.endOf info e) fuel).map fun
        | none => (0, some .somerr_object_not_found)
        | some e => (value e, none) := by
    intro fuel
    unfold fromAddr
    rw [hclient]
  have hchain := hlist.chain
  constructor
  · rintro ⟨⟨fuel, hends⟩, hright⟩
    obtain ⟨r, hr⟩ := Option.isSome_iff_exists.mp hends
    have hr' := hright fuel r hr
    rw [hrun] at hr
    obtain ⟨found, hfind, rfl⟩ := Option.map_eq_some_iff.mp hr
    rw [← hchain.find_eq hfind]
    exact hr'
  · intro hright
    refine ⟨⟨entries.length, ?_⟩, fun fuel r hr => ?_⟩
    · rw [hrun, Option.isSome_map]
      exact hchain.find_isSome
    · rw [hrun] at hr
      obtain ⟨found, hfind, rfl⟩ := Option.map_eq_some_iff.mp hr
      rw [← hchain.find_eq hfind] at hright
      exact hright

/-- **Where the address is clear** the first library that does not end below it is the right one. -/
theorem lookupRight_of_clear {α : Type} [Zero α] {value : Addr → α}
    (hsorted : entries.Pairwise fun a b => (s.libraryOf a).base_addr ≤ (s.libraryOf b).base_addr)
    (hapart : entries.Pairwise fun a b => Disjoint (s.range info a) (s.range info b))
    (hclear : AddrClear s info entries addr) :
    LookupRight s info entries addr value
      (match entries.find? fun e => ¬addr > s.endOf info e with
        | none => (0, some .somerr_object_not_found)
        | some e => (value e, none)) := by
  cases hfind : entries.find? fun e => ¬addr > s.endOf info e with
  | none =>
    refine ⟨rfl, fun e he hin => ?_⟩
    have habove := List.find?_eq_none.mp hfind e he
    rw [decide_eq_true_iff, not_not] at habove
    exact absurd hin.2 (Nat.not_lt_of_lt habove)
  | some first =>
    obtain ⟨hreach, pre, post, hfirst, hbelow⟩ := List.find?_eq_some_iff_append.mp hfind
    rw [decide_eq_true_iff] at hreach
    have hmem : first ∈ entries := hfirst ▸ List.mem_append_right pre List.mem_cons_self
    refine ⟨first, hmem, ?_, rfl⟩
    rcases hclear with habove | ⟨pre', e, post', he, hin, hend⟩
    · exact absurd (habove first hmem) hreach
    rcases List.append_eq_append_iff.mp (he.symm.trans hfirst) with ⟨mid, hpre, hmid⟩ | ⟨mid, hpre, hmid⟩
    · cases mid with
      | nil => exact (List.cons.inj hmid).1 ▸ hin
      | cons x mid =>
        -- The library with the address ends above it.
        have hx : e ∈ pre := by
          rw [hpre, (List.cons.inj hmid).1]
          exact List.mem_append_right pre' List.mem_cons_self
        have hnot := hbelow e hx
        rw [Bool.not_eq_true', decide_eq_false_iff_not, not_not] at hnot
        exact absurd hin.2 (Nat.not_lt_of_lt hnot)
    · cases mid with
      | nil => exact (List.cons.inj hmid).1.symm ▸ hin
      | cons x mid =>
        -- The first one comes before it, and does not end at the address: both would have it.
        obtain ⟨rfl, hpost⟩ := List.cons.inj hmid
        have hbefore : first ∈ pre' := hpre ▸ List.mem_append_right pre List.mem_cons_self
        rw [he] at hsorted hapart
        have hbase := (List.pairwise_append.mp hsorted).2.2 first hbefore e List.mem_cons_self
        have hdisjoint := (List.pairwise_append.mp hapart).2.2 first hbefore e List.mem_cons_self
        have hin' : addr ∈ s.range info first :=
          ⟨Nat.le_trans hbase hin.1, Nat.lt_of_le_of_ne (Nat.not_lt.mp hreach) (hend first hbefore).symm⟩
        exact absurd hin (Set.disjoint_left.mp hdisjoint hin')

theorem range_congr {a b : Addr} (h : (s.client_object a).library = (s.client_object b).library) :
    s.range info a = s.range info b := by
  unfold Som.range Som.libraryOf Som.endOf
  rw [h]

/-- **The address is clear** where the handle is right, since each library has a handle of its own. -/
theorem clear_of_lookupRight
    (hhandles : ∀ a ∈ entries, ∀ b ∈ entries, (s.libraryOf a).handle = (s.libraryOf b).handle →
      (s.client_object a).library = (s.client_object b).library)
    (hright : LookupRight s info entries addr (fun e => (s.libraryOf e).handle)
      (match entries.find? fun e => ¬addr > s.endOf info e with
        | none => (0, some .somerr_object_not_found)
        | some e => ((s.libraryOf e).handle, none))) : AddrClear s info entries addr := by
  cases hfind : entries.find? fun e => ¬addr > s.endOf info e with
  | none =>
    refine Or.inl fun e he => ?_
    have habove := List.find?_eq_none.mp hfind e he
    rw [decide_eq_true_iff, not_not] at habove
    exact habove
  | some first =>
    rw [hfind] at hright
    obtain ⟨e, he, hin, hhandle⟩ := hright
    obtain ⟨-, pre, post, hfirst, hbelow⟩ := List.find?_eq_some_iff_append.mp hfind
    have hmem : first ∈ entries := hfirst ▸ List.mem_append_right pre List.mem_cons_self
    rw [← range_congr (hhandles first hmem e he hhandle)] at hin
    refine Or.inr ⟨pre, first, post, hfirst, hin, fun e' he' => ?_⟩
    have hnot := hbelow e' he'
    rw [Bool.not_eq_true', decide_eq_false_iff_not, not_not] at hnot
    exact Nat.ne_of_lt hnot

theorem SomInv.handles_entries {l : SomList → List Addr} {loose : Set Addr} (hinv : SomInv s l loose) :
    ∀ a ∈ l (.objects client), ∀ b ∈ l (.objects client), (s.libraryOf a).handle = (s.libraryOf b).handle →
      (s.client_object a).library = (s.client_object b).library := by
  intro a ha b hb heq
  by_contra hne
  have hsymm : Std.Symm fun x y : Addr => (s.library x).handle ≠ (s.library y).handle := ⟨fun _ _ h => h.symm⟩
  exact hinv.reg.handles.forall (hinv.reg.refers client a ha) (hinv.reg.refers client b hb) hne heq

/-- **The answers about an address** are right just if it is clear, in every state of the registry in which the
libraries of the client do not overlap. -/
theorem fromAddrRight_iff (hrun : SomRun P s) (info : AddrInfo) (hclient : s.client_ptr t = some client) :
    ∃ entries, IsList s.hdr (s.client client).object_list entries ∧
      (entries.Pairwise (fun a b => Disjoint (s.range info a) (s.range info b)) →
        ∀ addr, FromAddrRight s info t entries addr ↔ AddrClear s info entries addr) := by
  obtain ⟨l, loose, hinv, -⟩ := SomInv.run hrun
  have hc := hinv.client_ptr t client hclient
  have hlist := hinv.mem.lists.isList (.objects client) hc
  refine ⟨l (.objects client), hlist, fun hapart addr => ?_⟩
  have hsorted := hinv.reg.client_sorted client
  constructor
  · rintro ⟨-, hhandle⟩
    exact clear_of_lookupRight hinv.handles_entries ((answers_fromAddr_iff hclient hlist).mp hhandle)
  · intro hclear
    exact ⟨(answers_fromAddr_iff hclient hlist).mpr (lookupRight_of_clear hsorted hapart hclear),
      (answers_fromAddr_iff hclient hlist).mpr (lookupRight_of_clear hsorted hapart hclear)⟩

/-! ### An address below a library -/

def oneInfo : AddrInfo := ⟨fun _ => 0x200, fun _ => 0⟩

/-- The state in which a client has registered a library that is loaded at 0x100, and what the look-up of 0x80
answers there. -/
theorem oneLibrary_facts : ∃ s, oneLibrary true = some s ∧ s.client_ptr 0 = some 1 ∧
    (s.client 1).object_list.first = some 3 ∧ (s.client 1).object_list.count = 1 ∧
    (s.libraryOf 3).base_addr = 0x100 ∧ somHandleFromAddr 1 s oneInfo 0 0x80 = some (7, none) := by
  have hlist : (oneLibrary true).map (fun s => (s.client_ptr 0, (s.client 1).object_list.first,
      (s.client 1).object_list.count, (s.libraryOf 3).base_addr)) = some (some 1, some 3, 1, 0x100) := by decide
  have hlookup : (oneLibrary true).map (fun s => somHandleFromAddr 1 s oneInfo 0 0x80) =
      some (some (7, none)) := by decide
  obtain ⟨s, hs, heq⟩ := Option.map_eq_some_iff.mp hlist
  rw [hs] at hlookup
  simp only [Prod.mk.injEq] at heq
  exact ⟨s, hs, heq.1, heq.2.1, heq.2.2.1, heq.2.2.2, Option.some.inj hlookup⟩

theorem fromAddrRight_iff_oneLibrary : ∃ s entries, oneLibrary true = some s ∧
    IsList s.hdr (s.client 1).object_list entries ∧
      (entries.Pairwise (fun a b => Disjoint (s.range oneInfo a) (s.range oneInfo b)) →
        ∀ addr, FromAddrRight s oneInfo 0 entries addr ↔ AddrClear s oneInfo entries addr) := by
  obtain ⟨s, hs, hclient, -⟩ := oneLibrary_facts
  have hrun : SomRun (fun _ _ _ _ _ => True) s := oneLibrary_run true (fun _ => trivial) (fun _ => trivial) hs
  obtain ⟨entries, hlist, hright⟩ := fromAddrRight_iff hrun oneInfo hclient
  exact ⟨s, entries, hs, hlist, hright⟩

theorem oneLibrary_not_right : ∃ s entries, SomRun (fun _ _ _ _ _ => True) s ∧ s.client_ptr 0 = some 1 ∧
    IsList s.hdr (s.client 1).object_list entries ∧
      entries.Pairwise (fun a b => Disjoint (s.range oneInfo a) (s.range oneInfo b)) ∧
        ¬FromAddrRight s oneInfo 0 entries 0x80 := by
  obtain ⟨s, hs, hclient, hhead, hlength, hbase, hanswer⟩ := oneLibrary_facts
  have hrun : SomRun (fun _ _ _ _ _ => True) s := oneLibrary_run true (fun _ => trivial) (fun _ => trivial) hs
  obtain ⟨l, loose, hinv, -⟩ := SomInv.run hrun
  have hlist := hinv.mem.lists.isList (.objects 1) (hinv.client_ptr 0 1 hclient)
  have hlist' : IsList s.hdr (s.client 1).object_list (l (.objects 1)) := hlist
  have hone : l (.objects 1) = [3] := by
    have hcount := hlist'.count
    have hfirst := hlist'.first
    rw [hlength] at hcount
    rw [hhead] at hfirst
    obtain ⟨a, ha⟩ := List.length_eq_one_iff.mp (Int.ofNat.inj hcount.symm)
    rw [ha] at hfirst ⊢
    exact congrArg (fun x => [x]) (Option.some.inj hfirst).symm
  rw [hone] at hlist'
  refine ⟨s, [3], hrun, hclient, hlist', List.pairwise_singleton _ _, fun hright => ?_⟩
  obtain ⟨e, he, hin, -⟩ := hright.handle.right 1 _ hanswer
  rw [List.mem_singleton.mp he] at hin
  have hlow := hin.1
  rw [hbase] at hlow
  exact absurd hlow (by decide)

end SOManager
