import Gccsdk.Asasm.Symbol

/-!
# The symbol hash table

`symbolTable[]` of `symbol.c`: an array of `SYMBOL_TABLESIZE` chains of symbols, with the lookup
functions `Symbol_Find` and `Symbol_Get`. A chain is the list of its symbols, the array a function
of the bucket number; the passes over all symbols visit `SymbolTable.allSymbols` in order.
-/

namespace Asasm

def symbolTableSize : Nat := 1024

/-- The table `hashtab` of `Symbol_CalculateHash`. -/
def hashtab : List (BitVec 8) := [
  1, 87, 49, 12, 176, 178, 102, 166, 121, 193, 6, 84, 249, 230, 44, 163,
  14, 197, 213, 181, 161, 85, 218, 80, 64, 239, 24, 226, 236, 142, 38, 200,
  110, 177, 104, 103, 141, 253, 255, 50, 77, 101, 81, 18, 45, 96, 31, 222,
  25, 107, 190, 70, 86, 237, 240, 34, 72, 242, 20, 214, 244, 227, 149, 235,
  97, 234, 57, 22, 60, 250, 82, 175, 208, 5, 127, 199, 111, 62, 135, 248,
  174, 169, 211, 58, 66, 154, 106, 195, 245, 171, 17, 187, 182, 179, 0, 243,
  132, 56, 148, 75, 128, 133, 158, 100, 130, 126, 91, 13, 153, 246, 216, 219,
  119, 68, 223, 78, 83, 88, 201, 99, 122, 11, 92, 32, 136, 114, 52, 10,
  138, 30, 48, 183, 156, 35, 61, 26, 143, 74, 251, 94, 129, 162, 63, 152,
  170, 7, 115, 167, 241, 206, 3, 150, 55, 59, 151, 220, 90, 53, 23, 131,
  125, 173, 15, 238, 79, 95, 89, 16, 105, 137, 225, 224, 217, 160, 37, 123,
  118, 73, 2, 157, 46, 116, 9, 145, 134, 228, 207, 212, 202, 215, 69, 229,
  27, 188, 67, 124, 168, 252, 42, 4, 29, 108, 21, 247, 19, 205, 39, 203,
  233, 40, 186, 147, 198, 192, 155, 33, 164, 191, 98, 204, 165, 180, 117, 76,
  140, 36, 210, 172, 41, 54, 159, 8, 185, 232, 113, 196, 231, 47, 146, 120,
  51, 65, 28, 144, 254, 221, 93, 189, 194, 139, 112, 43, 71, 109, 184, 209]

/-- One step of the hash, `h = hashtab[h ^ *p]`. -/
def hashStep (h : BitVec 8) (p : UInt8) : BitVec 8 := hashtab.getD (h ^^^ p.toBitVec).toNat 0

/-- `Symbol_CalculateHash`. The pointer `s` is given by the characters from it up to the next NUL,
of which at most `maxn` are hashed. -/
def symbolCalculateHash (s : Name) (maxn : Nat) : Nat :=
  let h := (s.take maxn).foldl hashStep 0
  match s with
  | [] => h.toNat % symbolTableSize
  | c :: rest =>
    let h' := (rest.take (maxn - 1)).foldl hashStep (c.toBitVec + 1)
    (h.toNat * 256 + h'.toNat) % symbolTableSize

/-- The hash table, with the heap its chains live in. -/
structure SymbolTable where
  heap : SymHeap
  bucket : Nat → List SymId

namespace SymbolTable

instance : Inhabited SymbolTable := ⟨default, fun _ => []⟩

/-- All symbols, in the order of the loops over the buckets and their chains. -/
def allSymbols (t : SymbolTable) : List SymId := (List.range symbolTableSize).flatMap t.bucket

/-- `Symbol_Find`. -/
def find (t : SymbolTable) (name : Name) : Option SymId :=
  (t.bucket (symbolCalculateHash name name.length)).find? fun id => (t.heap.sym id).str == name

/-- `Symbol_New`: the next free object of the heap. -/
def new (heap : SymHeap) (name : Name) : SymHeap × SymId :=
  (⟨heap.size + 1, fun j => if j = heap.size then { str := name } else heap.sym j⟩, heap.size)

/-- `Symbol_Get`: a new symbol goes to the end of its chain. -/
def get (t : SymbolTable) (name : Name) : SymbolTable × SymId :=
  match t.find name with
  | some id => (t, id)
  | none =>
    let hash := symbolCalculateHash name name.length
    let (heap, id) := new t.heap name
    (⟨heap, fun b => if b = hash then t.bucket b ++ [id] else t.bucket b⟩, id)

def modify (t : SymbolTable) (id : SymId) (f : Symbol → Symbol) : SymbolTable :=
  { t with heap := t.heap.modify id f }

def sym (t : SymbolTable) (id : SymId) : Symbol := t.heap.sym id

@[simp] theorem modify_sym_self (t : SymbolTable) (id : SymId) (f : Symbol → Symbol) :
    (t.modify id f).sym id = f (t.sym id) := t.heap.modify_sym_self id f

@[simp] theorem modify_sym_of_ne (t : SymbolTable) (id : SymId) (f : Symbol → Symbol) {j : SymId}
    (h : j ≠ id) : (t.modify id f).sym j = t.sym j := t.heap.modify_sym_of_ne id f h

theorem foldl_modify_sym {f : Symbol → Symbol} (hf : ∀ s, f (f s) = f s) (ids : List SymId)
    (t : SymbolTable) (j : SymId) :
    (ids.foldl (fun t id => t.modify id f) t).sym j
      = if j ∈ ids then f (t.sym j) else t.sym j := by
  induction ids generalizing t with
  | nil => rfl
  | cons id ids ih =>
    rw [List.foldl_cons, ih]
    by_cases hj : j = id
    · subst hj
      simp only [modify_sym_self, hf, ite_self, List.mem_cons_self, if_true]
    · simp only [modify_sym_of_ne _ _ _ hj, List.mem_cons, hj, false_or]

/-! ### A symbol that is new -/

section New

variable {t : SymbolTable} {name : Name}

theorem get_snd_of_find_eq_none (h : t.find name = none) : (t.get name).2 = t.heap.size := by
  simp only [get, h, new]

theorem get_size_of_find_eq_none (h : t.find name = none) :
    (t.get name).1.heap.size = t.heap.size + 1 := by
  simp only [get, h, new]

theorem get_sym_of_lt (h : t.find name = none) {j : SymId} (hj : j < t.heap.size) :
    (t.get name).1.sym j = t.sym j := by
  simp only [get, h, new, sym]
  exact if_neg (Nat.ne_of_lt hj)

theorem mem_allSymbols_get (h : t.find name = none) {id : SymId}
    (hid : id ∈ (t.get name).1.allSymbols) : id ∈ t.allSymbols ∨ id = t.heap.size := by
  simp only [get, h, new, allSymbols, List.mem_flatMap] at hid ⊢
  obtain ⟨b, hb, hid⟩ := hid
  split at hid
  · rcases List.mem_append.mp hid with hid | hid
    · exact Or.inl ⟨b, hb, hid⟩
    · exact Or.inr (List.mem_singleton.mp hid)
  · exact Or.inl ⟨b, hb, hid⟩

theorem mem_allSymbols_get_of_mem (h : t.find name = none) {id : SymId}
    (hid : id ∈ t.allSymbols) : id ∈ (t.get name).1.allSymbols := by
  simp only [get, h, new, allSymbols, List.mem_flatMap] at hid ⊢
  obtain ⟨b, hb, hid⟩ := hid
  refine ⟨b, hb, ?_⟩
  split
  · exact List.mem_append_left _ hid
  · exact hid

end New

end SymbolTable

end Asasm
