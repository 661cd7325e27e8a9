import Gccsdk.Asasm.SymbolRuns
import Gccsdk.Asasm.SymbolTable
import Gccsdk.Lib.LinkCursor
import Mathlib.Data.List.TakeWhile

/-!
# The symbol hash table as a map of names

`symbolTable[]` holds the heads of chains that are linked through the symbols' `next` field, and the
functions of `symbol.c` walk along a chain with a pointer to a link (`SymbolChains`). Three descriptions of
the table are connected here.

* The chains with their links, as the code has them: `symbolGet`, `symbolFind`, `symbolRemove` and
  `symbolRemoveVariables`, which walk a chain, append to it and unlink from it.
* The chains as lists of symbols, `SymbolTable`. `SymbolTable.Sound` says that every symbol is in the chain
  of its own name, and that no name is there twice.
* A map of names to symbols, `SymbolMap`: `Symbol_Get` enters a name, the removals take names out.

`TableRun.represents` says that in every run the chains stand for the map. `Kept` tells from the calls that were
made whether a name is there.
-/

namespace Asasm

open LinkedQueue

/-! ### The code -/

/-- A name as the functions of the table are given it: a pointer, with the characters from it up to the
next NUL, and a length. `Input_Symbol` gives no empty names. -/
structure NameRef where
  symNameP : Name
  symLen : ℕ
  len_pos : 0 < symLen
  len_le : symLen ≤ symNameP.length

def NameRef.name (r : NameRef) : Name := r.symNameP.take r.symLen

def eqSymLex (str : Symbol) (r : NameRef) : Bool :=
  if str.len ≠ r.symLen then false else str.str.take r.symLen == r.symNameP.take r.symLen

/-- The heap of the symbols with `symbolTable[]` and the `next` field of the symbols. -/
structure SymbolChains where
  heap : SymHeap
  links : Links ℕ SymId

namespace SymbolChains

def empty : SymbolChains := ⟨default, ⟨fun _ => none, fun _ => none⟩⟩

/-- The walk along the chain of a name, to the link that leads to its symbol or is the last one; none if a
chain has more links than there are symbols. -/
def search (t : SymbolChains) (r : NameRef) : Option (Spot ℕ SymId) :=
  t.links.seekSpot (fun id => eqSymLex (t.heap.sym id) r) (t.heap.size + 1)
    (.head (symbolCalculateHash r.symNameP r.symLen))

def symbolGet (t : SymbolChains) (r : NameRef) : Option (SymbolChains × SymId) :=
  (t.search r).map fun isearch =>
    match t.links.get isearch with
    | some sym => (t, sym)
    | none =>
      let (heap, sym) := SymbolTable.new t.heap r.name
      let links := { t.links with next := Function.update t.links.next sym none }
      (⟨heap, links.set isearch (some sym)⟩, sym)

def symbolFind (t : SymbolChains) (r : NameRef) : Option (Option SymId) :=
  (t.search r).map t.links.get

/-- `Symbol_Free`: unlink the symbol a link leads to. -/
def symbolFree (t : SymbolChains) (symPP : Spot ℕ SymId) (symP : SymId) : SymbolChains :=
  { t with links := t.links.set symPP (t.links.next symP) }

/-- `Symbol_Remove`, with its assertion. -/
def symbolRemove (t : SymbolChains) (r : NameRef) : Option SymbolChains :=
  (t.search r).bind fun isearch => (t.links.get isearch).map (t.symbolFree isearch)

/-- The test of `Symbol_RemoveVariables` on a symbol, with its assertion. -/
def isVariable (sym : Symbol) : Option Bool :=
  if isSet sym.type symbolRW then
    match sym.value with
    | .bool _ => some true
    | .string _ => some true
    | .int _ _ => some true
    | _ => none
  else some false

/-- `Symbol_RemoveVariables` in one chain: the inner loop frees the symbol behind its pointer, or moves the
pointer on. -/
def removeVariablesIn (heap : SymHeap) (links : Links ℕ SymId) (i : ℕ) : Option (Links ℕ SymId) :=
  Links.sweep (fun id => isVariable (heap.sym id)) (heap.size + 1) links (.head i)

def symbolRemoveVariables (t : SymbolChains) : Option SymbolChains :=
  ((List.range symbolTableSize).foldlM (removeVariablesIn t.heap) t.links).map fun links =>
    { t with links := links }

end SymbolChains

/-- `Symbol_Define` with its assertion. -/
def symbolDefineAsserted (E : Evaluator) (heap : SymHeap) (s : SymId) (newSymbolType : BitVec 32)
    (newValue : Value) : Option (Bool × SymHeap) :=
  if (heap.sym s).isArea then some (symbolDefine E heap s newSymbolType newValue)
  else if isSet newSymbolType symbolArea then none
  else some (symbolDefine E heap s newSymbolType newValue)

/-! ### Calls and answers -/

/-- The calls of the table's functions, and any other change of a symbol's attributes. -/
inductive TableCall
  | get (r : NameRef)
  | find (r : NameRef)
  | define (s : SymId) (newSymbolType : BitVec 32) (newValue : Value)
  | attributes (s : SymId) (f : Symbol → Symbol)
  | remove (r : NameRef)
  | removeVariables

inductive TableAnswer
  | symbol (sym : SymId)
  | found (sym : Option SymId)
  | failed (b : Bool)
  | done

def SymHeap.setAttributes (heap : SymHeap) (s : SymId) (f : Symbol → Symbol) : SymHeap :=
  heap.modify s fun sym => { f sym with str := sym.str }

/-- **One call**; none where an assertion fails. -/
def SymbolChains.perform (E : Evaluator) (t : SymbolChains) : TableCall → Option (SymbolChains × TableAnswer)
  | .get r => (t.symbolGet r).map fun (t, sym) => (t, .symbol sym)
  | .find r => (t.symbolFind r).map fun sym => (t, .found sym)
  | .define s type value =>
    (symbolDefineAsserted E t.heap s type value).map fun (b, heap) => ({ t with heap := heap }, .failed b)
  | .attributes s f => some ({ t with heap := t.heap.setAttributes s f }, .done)
  | .remove r => (t.symbolRemove r).map fun t => (t, .done)
  | .removeVariables => t.symbolRemoveVariables.map fun t => (t, .done)

/-- **A run**: the table after calls, with the latest call first and before each call the table it was made
on. -/
inductive TableRun (E : Evaluator) : List (SymbolChains × TableCall × TableAnswer) → SymbolChains → Prop
  | start : TableRun E [] .empty
  | call {past : List (SymbolChains × TableCall × TableAnswer)} {t t' : SymbolChains} {c : TableCall}
    {a : TableAnswer} (hrun : TableRun E past t) (hcall : t.perform E c = some (t', a)) :
    TableRun E ((t, c, a) :: past) t'

/-! ### The map of names -/

/-- **The map of names to symbols**, with the heap the symbols are in. -/
structure SymbolMap where
  heap : SymHeap
  entries : Name → Option SymId

namespace SymbolMap

def empty : SymbolMap := ⟨default, fun _ => none⟩

def get (m : SymbolMap) (name : Name) : SymbolMap × SymId :=
  match m.entries name with
  | some sym => (m, sym)
  | none =>
    let (heap, sym) := SymbolTable.new m.heap name
    (⟨heap, Function.update m.entries name (some sym)⟩, sym)

def erase (m : SymbolMap) (name : Name) : SymbolMap :=
  { m with entries := Function.update m.entries name none }

def eraseVariables (m : SymbolMap) : SymbolMap :=
  { m with entries := fun name => (m.entries name).filter fun sym => !isSet (m.heap.sym sym).type symbolRW }

def VariablesOk (m : SymbolMap) : Prop :=
  ∀ name sym, m.entries name = some sym → SymbolChains.isVariable (m.heap.sym sym) ≠ none

open Classical in
/-- What a call means for the map. -/
noncomputable def perform (E : Evaluator) (m : SymbolMap) : TableCall → Option (SymbolMap × TableAnswer)
  | .get r => some ((m.get r.name).1, .symbol (m.get r.name).2)
  | .find r => some (m, .found (m.entries r.name))
  | .define s type value =>
    (symbolDefineAsserted E m.heap s type value).map fun (b, heap) => ({ m with heap := heap }, .failed b)
  | .attributes s f => some ({ m with heap := m.heap.setAttributes s f }, .done)
  | .remove r => if (m.entries r.name).isSome then some (m.erase r.name, .done) else none
  | .removeVariables => if m.VariablesOk then some (m.eraseVariables, .done) else none

variable {E : Evaluator} {m : SymbolMap}

theorem perform_removeVariables (h : m.VariablesOk) :
    m.perform E .removeVariables = some (m.eraseVariables, .done) := if_pos h

theorem perform_removeVariables_of_not (h : ¬m.VariablesOk) : m.perform E .removeVariables = none := if_neg h

end SymbolMap

/-! ### The chains as lists -/

def nameHash (name : Name) : ℕ := symbolCalculateHash name name.length

theorem nameHash_lt (name : Name) : nameHash name < symbolTableSize := by
  unfold nameHash symbolCalculateHash
  cases name with
  | nil => exact Nat.mod_lt _ (by decide)
  | cons c name => exact Nat.mod_lt _ (by decide)

theorem NameRef.length_name (r : NameRef) : r.name.length = r.symLen := by
  unfold NameRef.name
  rw [List.length_take, Nat.min_eq_left r.len_le]

theorem NameRef.hash_eq (r : NameRef) : symbolCalculateHash r.symNameP r.symLen = nameHash r.name := by
  have hlen := r.length_name
  unfold nameHash
  rw [hlen]
  obtain ⟨len, hsucc⟩ := Nat.exists_eq_add_one_of_ne_zero (Nat.ne_of_gt r.len_pos)
  have hle := r.len_le
  unfold NameRef.name symbolCalculateHash
  rw [hsucc] at hle ⊢
  cases hname : r.symNameP with
  | nil =>
    rw [hname] at hle
    exact absurd hle (Nat.not_succ_le_zero len)
  | cons c rest =>
    rw [List.take_succ_cons, List.take_succ_cons]
    simp only [Nat.add_sub_cancel, List.take_take, Nat.min_self]

theorem eqSymLex_eq (sym : Symbol) (r : NameRef) : eqSymLex sym r = (sym.str == r.name) := by
  unfold eqSymLex
  by_cases hlen : sym.len = r.symLen
  · rw [if_neg (not_not.mpr hlen), ← hlen]
    change (sym.str.take sym.str.length == _) = _
    rw [List.take_length]
    unfold NameRef.name
    rw [hlen]
  · rw [if_pos hlen, eq_comm, beq_eq_false_iff_ne]
    intro hname
    refine hlen ?_
    change sym.str.length = r.symLen
    rw [hname, r.length_name]

namespace SymbolTable

/-- **A table whose chains are in order.** -/
structure Sound (T : SymbolTable) : Prop where
  ownBucket : ∀ b, ∀ sym ∈ T.bucket b, nameHash (T.sym sym).str = b
  oneEntry : ∀ b, ∀ sym ∈ T.bucket b, ∀ sym' ∈ T.bucket b, (T.sym sym).str = (T.sym sym').str → sym = sym'
  allocated : ∀ b, ∀ sym ∈ T.bucket b, sym < T.heap.size

variable {T : SymbolTable} {name : Name} {sym : SymId}

theorem Sound.find_eq_some (h : T.Sound) :
    T.find name = some sym ↔ sym ∈ T.bucket (nameHash name) ∧ (T.sym sym).str = name := by
  unfold find
  constructor
  · intro hfind
    have hname := List.find?_some hfind
    exact ⟨List.mem_of_find?_eq_some hfind, eq_of_beq hname⟩
  · rintro ⟨hmem, hname⟩
    change (T.bucket (nameHash name)).find? _ = _
    cases hfind : (T.bucket (nameHash name)).find? fun id => (T.heap.sym id).str == name with
    | none =>
      have hne := List.find?_eq_none.mp hfind sym hmem
      exact absurd (beq_iff_eq.mpr hname) hne
    | some sym' =>
      have hmem' := List.mem_of_find?_eq_some hfind
      have hname' := List.find?_some hfind
      rw [h.oneEntry _ sym hmem sym' hmem' (hname.trans (eq_of_beq hname').symm)]

theorem Sound.find_of_mem (h : T.Sound) {b : ℕ} (hmem : sym ∈ T.bucket b) :
    T.find (T.sym sym).str = some sym := by
  rw [h.find_eq_some, h.ownBucket b sym hmem]
  exact ⟨hmem, rfl⟩

def map (T : SymbolTable) : SymbolMap := ⟨T.heap, T.find⟩

def erase (T : SymbolTable) (name : Name) : SymbolTable :=
  { T with bucket := fun b => (T.bucket b).filter fun sym => (T.sym sym).str ≠ name }

def eraseVariables (T : SymbolTable) : SymbolTable :=
  { T with bucket := fun b => (T.bucket b).filter fun sym => !isSet (T.sym sym).type symbolRW }

def withHeap (T : SymbolTable) (heap : SymHeap) : SymbolTable := { T with heap := heap }

/-! ### What the changes of a table mean for its map -/

theorem Sound.filter (h : T.Sound) (p : SymId → Bool) :
    Sound { T with bucket := fun b => (T.bucket b).filter p } where
  ownBucket b sym hmem := h.ownBucket b sym (List.mem_of_mem_filter hmem)
  oneEntry b sym hmem sym' hmem' :=
    h.oneEntry b sym (List.mem_of_mem_filter hmem) sym' (List.mem_of_mem_filter hmem')
  allocated b sym hmem := h.allocated b sym (List.mem_of_mem_filter hmem)

theorem Sound.find_filter (h : T.Sound) (p : SymId → Bool) :
    find { T with bucket := fun b => (T.bucket b).filter p } name = (T.find name).filter p := by
  refine Option.ext fun sym => ?_
  rw [(h.filter p).find_eq_some, Option.filter_eq_some_iff, h.find_eq_some]
  change sym ∈ (T.bucket (nameHash name)).filter p ∧ (T.sym sym).str = name ↔ _
  rw [List.mem_filter]
  exact and_right_comm

theorem Sound.map_erase (h : T.Sound) (name : Name) : (T.erase name).map = T.map.erase name := by
  refine congrArg (SymbolMap.mk T.heap) (funext fun n => ?_)
  change find { T with bucket := _ } n = Function.update T.find name none n
  rw [h.find_filter]
  by_cases hn : n = name
  · subst hn
    rw [Function.update_self, Option.filter_eq_none_iff]
    intro sym hfind
    rw [(h.find_eq_some.mp hfind).2, decide_eq_true_eq, not_not]
  · rw [Function.update_of_ne hn]
    cases hfind : T.find n with
    | none => rfl
    | some sym =>
      have hname := (h.find_eq_some.mp hfind).2
      rw [Option.filter_some, if_pos (decide_eq_true (hname ▸ hn))]

theorem Sound.map_eraseVariables (h : T.Sound) : T.eraseVariables.map = T.map.eraseVariables :=
  congrArg (SymbolMap.mk T.heap) (funext fun _ => h.find_filter _)

theorem Sound.withHeap (h : T.Sound) {heap : SymHeap}
    (hname : ∀ sym, (heap.sym sym).str = (T.heap.sym sym).str)
    (hsize : heap.size = T.heap.size) : (T.withHeap heap).Sound where
  ownBucket b sym hmem := by
    change nameHash (heap.sym sym).str = b
    rw [hname]
    exact h.ownBucket b sym hmem
  oneEntry b sym hmem sym' hmem' heq := by
    change (heap.sym sym).str = (heap.sym sym').str at heq
    rw [hname, hname] at heq
    exact h.oneEntry b sym hmem sym' hmem' heq
  allocated b sym hmem := by
    change sym < heap.size
    rw [hsize]
    exact h.allocated b sym hmem

theorem map_withHeap {heap : SymHeap} (hname : ∀ sym, (heap.sym sym).str = (T.heap.sym sym).str) :
    (T.withHeap heap).map = { T.map with heap := heap } := by
  refine congrArg (SymbolMap.mk heap) (funext fun name => ?_)
  change (T.bucket _).find? (fun sym => (heap.sym sym).str == name) = _
  simp only [hname]
  rfl

/-! ### A name that is new -/

def enter (T : SymbolTable) (name : Name) : SymbolTable :=
  ⟨(new T.heap name).1, fun b => if b = nameHash name then T.bucket b ++ [T.heap.size] else T.bucket b⟩

theorem get_of_none (hfind : T.find name = none) : T.get name = (T.enter name, T.heap.size) := by
  unfold get
  rw [hfind]
  rfl

theorem get_of_some (hfind : T.find name = some sym) : T.get name = (T, sym) := by
  unfold get
  rw [hfind]

theorem mem_enter {b : ℕ} :
    sym ∈ (T.enter name).bucket b ↔ sym ∈ T.bucket b ∨ b = nameHash name ∧ sym = T.heap.size := by
  change sym ∈ (if b = nameHash name then T.bucket b ++ [T.heap.size] else T.bucket b) ↔ _
  split
  case isTrue hb =>
    rw [List.mem_append, List.mem_singleton]
    simp only [hb, true_and]
  case isFalse hb => simp only [hb, false_and, or_false]

theorem bucket_enter : (T.enter name).bucket =
    Function.update T.bucket (nameHash name) (T.bucket (nameHash name) ++ [T.heap.size]) := by
  funext b
  by_cases hb : b = nameHash name
  · subst hb
    rw [Function.update_self]
    exact if_pos rfl
  · rw [Function.update_of_ne hb]
    exact if_neg hb

theorem str_enter_new : ((T.enter name).sym T.heap.size).str = name := by
  change (if T.heap.size = T.heap.size then _ else _ : Symbol).str = _
  rw [if_pos rfl]

theorem Sound.str_enter (h : T.Sound) {b : ℕ} (hmem : sym ∈ T.bucket b) :
    ((T.enter name).sym sym).str = (T.sym sym).str := by
  change (if sym = T.heap.size then _ else _ : Symbol).str = _
  rw [if_neg (Nat.ne_of_lt (h.allocated b sym hmem))]
  rfl

theorem Sound.enter (h : T.Sound) (hfind : T.find name = none) : (T.enter name).Sound where
  ownBucket b sym hmem := by
    obtain hmem | ⟨rfl, rfl⟩ := mem_enter.mp hmem
    · rw [h.str_enter hmem]
      exact h.ownBucket b sym hmem
    · rw [str_enter_new]
  oneEntry b sym hmem sym' hmem' heq := by
    -- no symbol of before has the new name
    have hnew : ∀ s, s ∈ T.bucket b → (T.sym s).str ≠ name := by
      intro s hs hname
      have hfound := h.find_of_mem hs
      rw [hname, hfind] at hfound
      cases hfound
    obtain hmem | ⟨-, rfl⟩ := mem_enter.mp hmem
    · obtain hmem' | ⟨-, rfl⟩ := mem_enter.mp hmem'
      · rw [h.str_enter hmem, h.str_enter hmem'] at heq
        exact h.oneEntry b sym hmem sym' hmem' heq
      · rw [h.str_enter hmem, str_enter_new] at heq
        exact absurd heq (hnew sym hmem)
    · obtain hmem' | ⟨-, rfl⟩ := mem_enter.mp hmem'
      · rw [h.str_enter hmem', str_enter_new] at heq
        exact absurd heq.symm (hnew sym' hmem')
      · rfl
  allocated b sym hmem := by
    change sym < T.heap.size + 1
    obtain hmem | ⟨-, rfl⟩ := mem_enter.mp hmem
    · exact Nat.lt_succ_of_lt (h.allocated b sym hmem)
    · exact Nat.lt_succ_self _

theorem Sound.find_enter (h : T.Sound) (hfind : T.find name = none) (n : Name) :
    (T.enter name).find n = Function.update T.find name (some T.heap.size) n := by
  refine Option.ext fun sym => ?_
  rw [(h.enter hfind).find_eq_some, mem_enter]
  by_cases hn : n = name
  · subst hn
    rw [Function.update_self, Option.some_inj]
    constructor
    · rintro ⟨hmem | ⟨-, rfl⟩, hstr⟩
      · rw [h.str_enter hmem] at hstr
        have hfound := h.find_eq_some.mpr ⟨hmem, hstr⟩
        rw [hfind] at hfound
        cases hfound
      · rfl
    · rintro rfl
      exact ⟨Or.inr ⟨rfl, rfl⟩, str_enter_new⟩
  · rw [Function.update_of_ne hn, h.find_eq_some]
    constructor
    · rintro ⟨hmem | ⟨-, rfl⟩, hstr⟩
      · rw [h.str_enter hmem] at hstr
        exact ⟨hmem, hstr⟩
      · rw [str_enter_new] at hstr
        exact absurd hstr.symm hn
    · rintro ⟨hmem, hstr⟩
      exact ⟨Or.inl hmem, (h.str_enter hmem).trans hstr⟩

/-- **`Symbol_Get`**: the table stays in order, and its map is the one with the name. -/
theorem Sound.map_get (h : T.Sound) (name : Name) :
    (T.get name).1.Sound ∧ T.map.get name = ((T.get name).1.map, (T.get name).2) := by
  unfold SymbolMap.get
  change _ ∧ (match T.find name with | some sym => _ | none => _) = _
  cases hfind : T.find name with
  | some sym =>
    rw [get_of_some hfind]
    exact ⟨h, rfl⟩
  | none =>
    rw [get_of_none hfind]
    refine ⟨h.enter hfind, ?_⟩
    change (SymbolMap.mk _ (Function.update T.find name (some T.heap.size)), T.heap.size) = _
    rw [← funext (h.find_enter hfind)]
    rfl

end SymbolTable

/-! ### The links of a table's chains -/

namespace SymbolChains

variable {t : SymbolChains} {T : SymbolTable} {r : NameRef} {name : Name} {sym : SymId}

structure Linked (t : SymbolChains) (T : SymbolTable) : Prop where
  heap : t.heap = T.heap
  queues : Queues t.links.next t.links.head T.bucket

theorem length_bucket_le (hT : T.Sound) (h : t.Linked T) (b : ℕ) : (T.bucket b).length < t.heap.size + 1 := by
  have hnodup : (T.bucket b).Nodup := (h.queues.chain b).nodup
  have hsub : T.bucket b ⊆ List.range T.heap.size :=
    fun sym hmem => List.mem_range.mpr (hT.allocated b sym hmem)
  have hle := (hnodup.subperm hsub).length_le
  rw [List.length_range] at hle
  rw [h.heap]
  exact Nat.lt_succ_of_le hle

/-- **Where the walk along a chain stops**: behind the symbols with other names. -/
theorem search_eq (hT : T.Sound) (h : t.Linked T) :
    t.search r = some (.behind (nameHash r.name)
      ((T.bucket (nameHash r.name)).takeWhile fun sym => !((T.sym sym).str == r.name))) := by
  have hseek := h.queues.seekSpot_eq (k := nameHash r.name) (p := fun sym => (T.sym sym).str == r.name)
    (List.nil_append _).symm (length_bucket_le hT h _)
  unfold search
  rw [r.hash_eq]
  simp only [eqSymLex_eq, h.heap] at hseek ⊢
  exact hseek

theorem split_bucket (T : SymbolTable) (name : Name) :
    T.bucket (nameHash name) =
      ((T.bucket (nameHash name)).takeWhile fun sym => !((T.sym sym).str == name)) ++
        (T.bucket (nameHash name)).dropWhile fun sym => !((T.sym sym).str == name) :=
  List.takeWhile_append_dropWhile.symm

theorem head?_dropWhile (T : SymbolTable) (name : Name) :
    ((T.bucket (nameHash name)).dropWhile fun sym => !((T.sym sym).str == name)).head? = T.find name :=
  (List.find?_eq_head?_dropWhile_not _ _).symm

theorem get_search (h : t.Linked T) :
    t.links.get (.behind (nameHash r.name)
      ((T.bucket (nameHash r.name)).takeWhile fun sym => !((T.sym sym).str == r.name))) = T.find r.name := by
  rw [h.queues.get_spot (split_bucket T r.name), head?_dropWhile]

theorem symbolFind_eq (hT : T.Sound) (h : t.Linked T) : t.symbolFind r = some (T.find r.name) := by
  unfold symbolFind
  rw [search_eq hT h, Option.map_some, get_search h]

theorem symbolGet_eq (hT : T.Sound) (h : t.Linked T) :
    ∃ t', t.symbolGet r = some (t', (T.get r.name).2) ∧ t'.Linked (T.get r.name).1 := by
  unfold symbolGet
  rw [search_eq hT h, Option.map_some, get_search h]
  cases hfind : T.find r.name with
  | some sym =>
    rw [SymbolTable.get_of_some hfind]
    exact ⟨t, rfl, h⟩
  | none =>
    rw [SymbolTable.get_of_none hfind]
    refine ⟨_, by rw [h.heap]; rfl, ?_⟩
    -- the walk has gone to the end of the chain
    have hend : ((T.bucket (nameHash r.name)).takeWhile fun sym => !((T.sym sym).str == r.name)) =
        T.bucket (nameHash r.name) := by
      rw [List.takeWhile_eq_self_iff]
      intro sym hmem
      have hne := List.find?_eq_none.mp hfind sym hmem
      rw [Bool.not_eq_true']
      exact Bool.eq_false_iff.mpr hne
    have hfresh : ∀ b, T.heap.size ∉ T.bucket b := fun b hmem => Nat.lt_irrefl _ (hT.allocated b _ hmem)
    let links : Links ℕ SymId := { t.links with next := Function.update t.links.next T.heap.size none }
    have hqueues : Queues links.next links.head T.bucket := h.queues.frame_update hfresh none
    have hnew := hqueues.append_spot (k := nameHash r.name) hfresh (Function.update_self _ _ _)
    rw [← SymbolTable.bucket_enter] at hnew
    rw [hend]
    exact ⟨rfl, hnew⟩

theorem bucket_erase (hT : T.Sound) (hnodup : (T.bucket (nameHash name)).Nodup) {l₁ l₂ : List SymId}
    (hsplit : T.bucket (nameHash name) = l₁ ++ sym :: l₂) (hname : (T.sym sym).str = name) :
    (T.erase name).bucket = Function.update T.bucket (nameHash name) (l₁ ++ l₂) := by
  funext b
  by_cases hb : b = nameHash name
  · subst hb
    rw [Function.update_self]
    change (T.bucket (nameHash name)).filter _ = _
    rw [hsplit] at hnodup ⊢
    have hother : ∀ s ∈ l₁ ++ l₂, (T.sym s).str ≠ name := by
      intro s hs hstr
      have hne : s ≠ sym := by
        rintro rfl
        exact (List.nodup_middle.mp hnodup).notMem hs
      have hmem : ∀ s, s ∈ l₁ ++ l₂ ∨ s = sym → s ∈ T.bucket (nameHash name) := by
        intro s hs
        rw [hsplit]
        exact List.perm_middle.symm.subset (List.mem_cons.mpr hs.symm)
      exact hne (hT.oneEntry _ s (hmem s (Or.inl hs)) sym (hmem sym (Or.inr rfl)) (hstr.trans hname.symm))
    rw [List.filter_append, List.filter_cons_of_neg, ← List.filter_append, List.filter_eq_self]
    · exact fun s hs => decide_eq_true (hother s hs)
    · rw [hname, decide_eq_true_eq, not_not]
  · rw [Function.update_of_ne hb]
    change (T.bucket b).filter _ = _
    rw [List.filter_eq_self]
    intro s hs
    refine decide_eq_true fun hstr => hb ?_
    rw [← hT.ownBucket b s hs, hstr]

/-- **`Symbol_Remove`** asserts that the name is there, and takes its symbol out of the chain. -/
theorem symbolRemove_none (hT : T.Sound) (h : t.Linked T) (hfind : T.find r.name = none) :
    t.symbolRemove r = none := by
  unfold symbolRemove
  rw [search_eq hT h, Option.bind_some, get_search h, hfind]
  rfl

theorem symbolRemove_some (hT : T.Sound) (h : t.Linked T) (hfind : T.find r.name = some sym) :
    ∃ t', t.symbolRemove r = some t' ∧ t'.Linked (T.erase r.name) := by
  unfold symbolRemove
  rw [search_eq hT h, Option.bind_some, get_search h, hfind]
  refine ⟨_, rfl, h.heap, ?_⟩
  obtain ⟨l₂, hdrop⟩ := List.head?_eq_some_iff.mp ((head?_dropWhile T r.name).trans hfind)
  have hsplit := split_bucket T r.name
  rw [hdrop] at hsplit
  rw [bucket_erase hT (h.queues.chain _).nodup hsplit (hT.find_eq_some.mp hfind).2]
  exact h.queues.remove_spot hsplit

/-! ### All variables at once -/

def sweptChains (heap : SymHeap) (q : ℕ → List SymId) (buckets : List ℕ) (b : ℕ) : List SymId :=
  if b ∈ buckets then (q b).filter fun sym => isVariable (heap.sym sym) = some false else q b

theorem sweptChains_cons (heap : SymHeap) (q : ℕ → List SymId) (i : ℕ) (buckets : List ℕ) :
    sweptChains heap
        (Function.update q i ((q i).filter fun sym => isVariable (heap.sym sym) = some false)) buckets =
      sweptChains heap q (i :: buckets) := by
  funext b
  unfold sweptChains
  by_cases hb : b = i
  · subst hb
    rw [if_pos List.mem_cons_self, Function.update_self, List.filter_filter]
    simp only [Bool.and_self, ite_self]
  · simp only [Function.update_of_ne hb, List.mem_cons, hb, false_or]

variable {heap : SymHeap} {links : Links ℕ SymId} {q : ℕ → List SymId} {buckets : List ℕ}

/-- **The loop over the buckets** takes the variables out of their chains. -/
theorem removeVariables_some (hq : Queues links.next links.head q) (hlen : ∀ b, (q b).length < heap.size + 1)
    (hok : ∀ b ∈ buckets, ∀ sym ∈ q b, (isVariable (heap.sym sym)).isSome) :
    ∃ links', buckets.foldlM (removeVariablesIn heap) links = some links' ∧
      Queues links'.next links'.head (sweptChains heap q buckets) := by
  induction buckets generalizing links q with
  | nil => exact ⟨links, rfl, hq⟩
  | cons i buckets ih =>
    obtain ⟨links₁, hsweep, hq₁⟩ := hq.sweep_some (k := i) (List.nil_append _).symm (hlen i)
      (hok i List.mem_cons_self)
    have hsub : ∀ b, List.Sublist (Function.update q i
        ([] ++ (q i).filter fun sym => isVariable (heap.sym sym) = some false) b) (q b) := by
      intro b
      by_cases hb : b = i
      · subst hb
        rw [Function.update_self]
        exact List.filter_sublist
      · rw [Function.update_of_ne hb]
    obtain ⟨links', hrest, hq'⟩ := ih hq₁ (fun b => Nat.lt_of_le_of_lt (hsub b).length_le (hlen b))
      fun b hb sym hsym => hok b (List.mem_cons_of_mem i hb) sym ((hsub b).subset hsym)
    refine ⟨links', ?_, ?_⟩
    · rw [List.foldlM_cons]
      change (removeVariablesIn heap links i).bind _ = _
      unfold removeVariablesIn
      rw [← Spot.behind_nil, hsweep]
      exact hrest
    · rw [← sweptChains_cons]
      exact hq'

/-- **The loop stops** at a variable whose value is not one of a variable. -/
theorem removeVariables_none (hq : Queues links.next links.head q) (hlen : ∀ b, (q b).length < heap.size + 1)
    (hbad : ∃ b ∈ buckets, ∃ sym ∈ q b, isVariable (heap.sym sym) = none) :
    buckets.foldlM (removeVariablesIn heap) links = none := by
  induction buckets generalizing links q with
  | nil =>
    obtain ⟨b, hb, -⟩ := hbad
    exact absurd hb List.not_mem_nil
  | cons i buckets ih =>
    rw [List.foldlM_cons]
    change (removeVariablesIn heap links i).bind _ = _
    unfold removeVariablesIn
    by_cases hi : ∃ sym ∈ q i, isVariable (heap.sym sym) = none
    · rw [← Spot.behind_nil, hq.sweep_none (k := i) (List.nil_append _).symm hi]
      rfl
    · have hok : ∀ sym ∈ q i, (isVariable (heap.sym sym)).isSome := by
        intro sym hsym
        rw [Option.isSome_iff_ne_none]
        exact fun hnone => hi ⟨sym, hsym, hnone⟩
      obtain ⟨links₁, hsweep, hq₁⟩ := hq.sweep_some (k := i) (List.nil_append _).symm (hlen i) hok
      rw [← Spot.behind_nil, hsweep]
      refine ih hq₁ (fun b => ?_) ?_
      · by_cases hb : b = i
        · subst hb
          rw [Function.update_self]
          exact Nat.lt_of_le_of_lt (List.length_filter_le _ _) (hlen b)
        · rw [Function.update_of_ne hb]
          exact hlen b
      · obtain ⟨b, hb, sym, hsym, hnone⟩ := hbad
        have hbi : b ≠ i := by
          rintro rfl
          exact hi ⟨sym, hsym, hnone⟩
        refine ⟨b, (List.mem_cons.mp hb).resolve_left hbi, sym, ?_, hnone⟩
        rwa [Function.update_of_ne hbi]

theorem isVariable_eq_some_false (sym : Symbol) :
    isVariable sym = some false ↔ isSet sym.type symbolRW = false := by
  unfold isVariable
  cases isSet sym.type symbolRW with
  | false => exact iff_of_true rfl rfl
  | true =>
    rw [if_pos rfl]
    refine iff_of_false ?_ nofun
    cases sym.value <;> nofun

/-- **`Symbol_RemoveVariables`** asserts that the variables have values of variables, and takes them out of
the chains. -/
theorem symbolRemoveVariables_some (hT : T.Sound) (h : t.Linked T)
    (hok : ∀ b, ∀ sym ∈ T.bucket b, isVariable (T.sym sym) ≠ none) :
    ∃ t', t.symbolRemoveVariables = some t' ∧ t'.Linked T.eraseVariables := by
  have htest : ∀ b ∈ List.range symbolTableSize, ∀ sym ∈ T.bucket b, (isVariable (t.heap.sym sym)).isSome := by
    intro b _ sym hsym
    rw [h.heap]
    exact Option.isSome_iff_ne_none.mpr (hok b sym hsym)
  obtain ⟨links', hfold, hq'⟩ := removeVariables_some h.queues (length_bucket_le hT h) htest
  unfold symbolRemoveVariables
  rw [hfold]
  refine ⟨_, rfl, h.heap, ?_⟩
  have hchains : sweptChains t.heap T.bucket (List.range symbolTableSize) = T.eraseVariables.bucket := by
    funext b
    unfold sweptChains
    change _ = (T.bucket b).filter _
    simp only [isVariable_eq_some_false, h.heap]
    split
    case isTrue =>
      refine List.filter_congr fun sym _ => ?_
      change decide (isSet (T.sym sym).type symbolRW = false) = _
      cases isSet (T.sym sym).type symbolRW <;> rfl
    case isFalse hb =>
      -- a chain outside of the array has no symbols
      have hnil : T.bucket b = [] := by
        refine List.eq_nil_iff_forall_not_mem.mpr fun sym hsym => hb ?_
        rw [← hT.ownBucket b sym hsym]
        exact List.mem_range.mpr (nameHash_lt _)
      rw [hnil]
      rfl
  rw [← hchains]
  exact hq'

theorem symbolRemoveVariables_none (hT : T.Sound) (h : t.Linked T)
    (hbad : ∃ b, ∃ sym ∈ T.bucket b, isVariable (T.sym sym) = none) : t.symbolRemoveVariables = none := by
  obtain ⟨b, sym, hsym, hnone⟩ := hbad
  have hfold : (List.range symbolTableSize).foldlM (removeVariablesIn t.heap) t.links = none := by
    refine removeVariables_none h.queues (length_bucket_le hT h) ⟨b, ?_, sym, hsym, ?_⟩
    · rw [← hT.ownBucket b sym hsym]
      exact List.mem_range.mpr (nameHash_lt _)
    · rw [h.heap]
      exact hnone
  unfold symbolRemoveVariables
  rw [hfold]
  rfl

/-! ### One call -/

/-- **The chains stand for the map**: they are those of a table that is in order, with the names of the
map. -/
def Represents (t : SymbolChains) (m : SymbolMap) : Prop :=
  ∃ T : SymbolTable, T.Sound ∧ t.Linked T ∧ T.map = m

inductive Agree : Option (SymbolChains × TableAnswer) → Option (SymbolMap × TableAnswer) → Prop
  | stop : Agree none none
  | goOn {t : SymbolChains} {m : SymbolMap} (a : TableAnswer) (h : t.Represents m) :
    Agree (some (t, a)) (some (m, a))

theorem Agree.isSome_iff {x : Option (SymbolChains × TableAnswer)} {y : Option (SymbolMap × TableAnswer)}
    (h : Agree x y) : x.isSome ↔ y.isSome := by
  cases h with
  | stop => exact Iff.rfl
  | goOn a _ => exact Iff.rfl

theorem represents_withHeap (hT : T.Sound) (h : t.Linked T) {heap : SymHeap}
    (hname : ∀ sym, (heap.sym sym).str = (T.heap.sym sym).str) (hsize : heap.size = T.heap.size) :
    Represents { t with heap := heap } { T.map with heap := heap } :=
  ⟨T.withHeap heap, hT.withHeap hname hsize, ⟨rfl, h.queues⟩, SymbolTable.map_withHeap hname⟩

end SymbolChains

theorem SymHeap.modify_str (heap : SymHeap) (s : SymId) {f : Symbol → Symbol}
    (hf : ∀ sym, (f sym).str = sym.str) (sym : SymId) : ((heap.modify s f).sym sym).str = (heap.sym sym).str :=
  heap.modify_sym_field s f Symbol.str hf sym

theorem symbolDefineAsserted_keeps {E : Evaluator} {heap heap' : SymHeap} {s : SymId} {type : BitVec 32}
    {value : Value} {b : Bool} (h : symbolDefineAsserted E heap s type value = some (b, heap')) :
    (∀ sym, (heap'.sym sym).str = (heap.sym sym).str) ∧ heap'.size = heap.size := by
  have hdefine : (symbolDefine E heap s type value).2 = heap' := by
    unfold symbolDefineAsserted at h
    split at h
    · rw [Option.some.inj h]
    · split at h
      · cases h
      · rw [Option.some.inj h]
  rw [← hdefine]
  unfold symbolDefine
  split
  · refine ⟨fun sym => ?_, rfl⟩
    change ((heap.defineAs s type value).sym sym).str = _
    unfold SymHeap.defineAs
    refine heap.modify_str s ?_ sym
    exact fun _ => rfl
  · exact ⟨fun _ => rfl, rfl⟩

namespace SymbolChains

variable {E : Evaluator} {t : SymbolChains} {m : SymbolMap}

/-- **Every call** means for the chains what it means for the map. -/
theorem Represents.perform (h : t.Represents m) (c : TableCall) : Agree (t.perform E c) (m.perform E c) := by
  obtain ⟨T, hT, hL, rfl⟩ := h
  cases c with
  | get r =>
    obtain ⟨t', hget, hL'⟩ := symbolGet_eq (r := r) hT hL
    obtain ⟨hT', hmap⟩ := hT.map_get r.name
    change Agree ((t.symbolGet r).map _) (some ((T.map.get r.name).1, .symbol (T.map.get r.name).2))
    rw [hget, hmap]
    exact .goOn _ ⟨_, hT', hL', rfl⟩
  | find r =>
    change Agree ((t.symbolFind r).map _) (some (T.map, .found (T.find r.name)))
    rw [symbolFind_eq hT hL]
    exact .goOn _ ⟨T, hT, hL, rfl⟩
  | define s type value =>
    change Agree ((symbolDefineAsserted E t.heap s type value).map _)
      ((symbolDefineAsserted E T.heap s type value).map _)
    rw [hL.heap]
    cases hdefine : symbolDefineAsserted E T.heap s type value with
    | none => exact .stop
    | some result =>
      obtain ⟨b, heap⟩ := result
      obtain ⟨hname, hsize⟩ := symbolDefineAsserted_keeps hdefine
      exact .goOn _ (represents_withHeap hT hL hname hsize)
  | attributes s f =>
    change Agree (some ({ t with heap := t.heap.setAttributes s f }, .done))
      (some ({ T.map with heap := T.heap.setAttributes s f }, .done))
    rw [hL.heap]
    exact .goOn _ (represents_withHeap hT hL (T.heap.modify_str s fun _ => rfl) rfl)
  | remove r =>
    change Agree ((t.symbolRemove r).map _) (if (T.find r.name).isSome then _ else _)
    cases hfind : T.find r.name with
    | none =>
      rw [symbolRemove_none hT hL hfind, if_neg (by decide)]
      exact .stop
    | some sym =>
      obtain ⟨t', hremove, hL'⟩ := symbolRemove_some hT hL hfind
      rw [hremove, if_pos Option.isSome_some]
      exact .goOn _ ⟨_, hT.filter _, hL', hT.map_erase r.name⟩
  | removeVariables =>
    have hperform : t.perform E .removeVariables = t.symbolRemoveVariables.map fun t => (t, .done) := rfl
    rw [hperform]
    by_cases hok : T.map.VariablesOk
    · obtain ⟨t', hremove, hL'⟩ := symbolRemoveVariables_some hT hL fun b sym hsym =>
        hok _ sym (hT.find_of_mem hsym)
      rw [hremove, SymbolMap.perform_removeVariables hok]
      exact .goOn _ ⟨_, hT.filter _, hL', hT.map_eraseVariables⟩
    · have hbad : ∃ b, ∃ sym ∈ T.bucket b, isVariable (T.sym sym) = none := by
        by_contra hnone
        refine hok fun name sym hfind hbad => hnone ?_
        exact ⟨_, sym, (hT.find_eq_some.mp hfind).1, hbad⟩
      rw [symbolRemoveVariables_none hT hL hbad, SymbolMap.perform_removeVariables_of_not hok]
      exact .stop

end SymbolChains

/-! ### Runs -/

/-- The map after calls with the given answers, the latest first. -/
inductive MapRun (E : Evaluator) : List (TableCall × TableAnswer) → SymbolMap → Prop
  | start : MapRun E [] .empty
  | call {past : List (TableCall × TableAnswer)} {m m' : SymbolMap} {c : TableCall} {a : TableAnswer}
    (hrun : MapRun E past m) (hcall : m.perform E c = some (m', a)) : MapRun E ((c, a) :: past) m'

/-- A call on a table takes a name out: it removes the name, or all variables while the name is one. -/
def Removes (t : SymbolChains) (name : Name) : TableCall → Prop
  | .remove r => r.name = name
  | .removeVariables => ∃ r sym, r.name = name ∧ t.symbolFind r = some (some sym) ∧
      isSet (t.heap.sym sym).type symbolRW = true
  | _ => False

/-- **A `Symbol_Get` has created the name, and no later call has removed it.** -/
def Kept (name : Name) : List (SymbolChains × TableCall × TableAnswer) → Prop
  | [] => False
  | (t, c, _) :: past => (∃ r, c = .get r ∧ r.name = name) ∨ Kept name past ∧ ¬Removes t name c

variable {E : Evaluator} {t t' : SymbolChains} {m m' : SymbolMap} {c : TableCall} {a : TableAnswer}
  {past : List (SymbolChains × TableCall × TableAnswer)}

theorem represents_empty : SymbolChains.empty.Represents .empty := by
  refine ⟨default, ⟨fun b sym hsym => ?_, fun b sym hsym => ?_, fun b sym hsym => ?_⟩,
    ⟨rfl, fun _ => rfl, fun hsym => ?_⟩, rfl⟩ <;> exact absurd hsym List.not_mem_nil

theorem SymbolChains.Represents.symbolFind (h : t.Represents m) (r : NameRef) :
    t.symbolFind r = some (m.entries r.name) := by
  obtain ⟨T, hT, hL, rfl⟩ := h
  exact symbolFind_eq hT hL

theorem SymbolMap.isSome_entries_get (m : SymbolMap) (name n : Name) :
    ((m.get name).1.entries n).isSome ↔ name = n ∨ (m.entries n).isSome := by
  unfold SymbolMap.get
  cases hentry : m.entries name with
  | some sym =>
    change (m.entries n).isSome ↔ _
    refine ⟨Or.inr, fun h => h.elim (fun heq => ?_) id⟩
    rw [← heq, hentry]
    rfl
  | none =>
    change (Function.update m.entries name _ n).isSome ↔ _
    by_cases hn : n = name
    · subst hn
      rw [Function.update_self]
      exact iff_of_true rfl (Or.inl rfl)
    · rw [Function.update_of_ne hn]
      exact ⟨Or.inr, fun h => h.resolve_left fun heq => hn heq.symm⟩

theorem isSome_entries_perform (h : t.Represents m) (hcall : m.perform E c = some (m', a)) (r : NameRef) :
    (m'.entries r.name).isSome ↔
      (∃ r', c = .get r' ∧ r'.name = r.name) ∨ (m.entries r.name).isSome ∧ ¬Removes t r.name c := by
  -- a call that neither creates nor removes
  have hkept : ∀ {m₁ : SymbolMap} {c : TableCall}, m₁.entries = m.entries → (∀ r', c ≠ .get r') →
      ¬Removes t r.name c → ((m₁.entries r.name).isSome ↔
        (∃ r', c = .get r' ∧ r'.name = r.name) ∨ (m.entries r.name).isSome ∧ ¬Removes t r.name c) := by
    intro m₁ c hentries hget hremoves
    rw [hentries, and_iff_left hremoves, or_iff_right]
    rintro ⟨r', hc, -⟩
    exact hget r' hc
  cases c with
  | get r' =>
    obtain ⟨rfl, -⟩ := Prod.mk.inj (Option.some.inj hcall)
    rw [m.isSome_entries_get, and_iff_left (show ¬Removes t r.name (.get r') from fun h => h)]
    refine or_congr_left ⟨fun heq => ⟨r', rfl, heq⟩, ?_⟩
    rintro ⟨r'', hc, heq⟩
    cases hc
    exact heq
  | find r' =>
    obtain ⟨rfl, -⟩ := Prod.mk.inj (Option.some.inj hcall)
    exact hkept rfl nofun fun h => h
  | define s type value =>
    obtain ⟨⟨b, heap⟩, -, hresult⟩ := Option.map_eq_some_iff.mp hcall
    obtain ⟨rfl, -⟩ := Prod.mk.inj hresult
    exact hkept rfl nofun fun h => h
  | attributes s f =>
    obtain ⟨rfl, -⟩ := Prod.mk.inj (Option.some.inj hcall)
    exact hkept rfl nofun fun h => h
  | remove r' =>
    change (if (m.entries r'.name).isSome then some (m.erase r'.name, TableAnswer.done) else none) = _ at hcall
    split at hcall
    case isFalse => cases hcall
    case isTrue =>
      obtain ⟨rfl, -⟩ := Prod.mk.inj (Option.some.inj hcall)
      rw [or_iff_right (by rintro ⟨_, hc, -⟩; cases hc)]
      change (Function.update m.entries r'.name none r.name).isSome ↔
        (m.entries r.name).isSome ∧ ¬r'.name = r.name
      by_cases heq : r.name = r'.name
      · rw [heq, Function.update_self]
        exact iff_of_false nofun fun h => h.2 rfl
      · rw [Function.update_of_ne heq]
        exact ⟨fun h => ⟨h, fun h' => heq h'.symm⟩, And.left⟩
  | removeVariables =>
    by_cases hok : m.VariablesOk
    case neg =>
      rw [SymbolMap.perform_removeVariables_of_not hok] at hcall
      cases hcall
    case pos =>
      rw [SymbolMap.perform_removeVariables hok] at hcall
      obtain ⟨rfl, -⟩ := Prod.mk.inj (Option.some.inj hcall)
      rw [or_iff_right (by rintro ⟨_, hc, -⟩; cases hc)]
      have hheap : t.heap = m.heap := by
        obtain ⟨T, -, hL, rfl⟩ := h
        exact hL.heap
      -- what is found under the name does not depend on how it is given
      have hremoves : Removes t r.name .removeVariables ↔
          ∃ sym, m.entries r.name = some sym ∧ isSet (m.heap.sym sym).type symbolRW = true := by
        constructor
        · rintro ⟨r', sym, hr', hfind, hset⟩
          rw [h.symbolFind, hr', Option.some_inj] at hfind
          exact ⟨sym, hfind, hheap ▸ hset⟩
        · rintro ⟨sym, hentry, hset⟩
          exact ⟨r, sym, rfl, by rw [h.symbolFind, hentry], hheap ▸ hset⟩
      rw [hremoves]
      change ((m.entries r.name).filter _).isSome ↔ _
      cases hentry : m.entries r.name with
      | none => exact iff_of_false nofun fun h => absurd h.1 (by decide)
      | some sym =>
        rw [Option.filter_some, and_iff_right Option.isSome_some]
        cases hset : isSet (m.heap.sym sym).type symbolRW with
        | true => exact iff_of_false nofun fun h => h ⟨sym, rfl, hset⟩
        | false =>
          refine iff_of_true rfl ?_
          rintro ⟨sym', heq, hset'⟩
          rw [← Option.some.inj heq, hset] at hset'
          cases hset'

/-- **In every run the chains stand for the map** that the same calls give, with the same answers. A name is
found just if a `Symbol_Get` has created it and no later call has removed it, and a call stops the program
only where an assertion about the map fails. -/
theorem tableRun_represents (hrun : TableRun E past t) :
    ∃ m, MapRun E (past.map Prod.snd) m ∧ t.Represents m ∧
      (∀ r, t.symbolFind r = some (m.entries r.name) ∧ ((m.entries r.name).isSome ↔ Kept r.name past)) ∧
      ∀ c, (t.perform E c).isSome ↔ (m.perform E c).isSome := by
  have hagree : ∀ {t : SymbolChains} {m : SymbolMap} (c : TableCall), t.Represents m →
      ((t.perform E c).isSome ↔ (m.perform E c).isSome) := fun c h => (h.perform c).isSome_iff
  induction hrun with
  | start =>
    refine ⟨.empty, .start, represents_empty, fun r => ⟨represents_empty.symbolFind r, ?_⟩, fun c =>
      hagree c represents_empty⟩
    exact iff_of_false nofun id
  | @call past t t' c a _ hcall ih =>
    obtain ⟨m, hmap, h, hfind, -⟩ := ih
    have hstep := h.perform (E := E) c
    rw [hcall] at hstep
    cases hcallM : m.perform E c with
    | none =>
      rw [hcallM] at hstep
      cases hstep
    | some result =>
      obtain ⟨m', a'⟩ := result
      rw [hcallM] at hstep
      cases hstep with
      | goOn _ h' =>
        refine ⟨m', .call hmap hcallM, h', fun r => ⟨h'.symbolFind r, ?_⟩, fun c => hagree c h'⟩
        rw [isSome_entries_perform h hcallM r, (hfind r).2]
        rfl

def letterA : NameRef := ⟨cstr "a", 1, by decide, by decide⟩

/-- The name is there after a `Symbol_Get`. -/
theorem tableRun_represents_letterA :
    ∃ t, TableRun plainEvaluator [(.empty, .get letterA, .symbol 0)] t ∧
      ∃ m, MapRun plainEvaluator [(.get letterA, .symbol 0)] m ∧ t.Represents m ∧
        (m.entries letterA.name).isSome := by
  obtain ⟨t, hcall⟩ : ∃ t, SymbolChains.empty.perform plainEvaluator (.get letterA) = some (t, .symbol 0) :=
    ⟨_, rfl⟩
  have hrun := TableRun.call .start hcall
  obtain ⟨m, hm, hrep, hfind, -⟩ := tableRun_represents hrun
  exact ⟨t, hrun, m, hm, hrep, (hfind letterA).2.mpr (Or.inl ⟨letterA, rfl, rfl⟩)⟩

end Asasm
