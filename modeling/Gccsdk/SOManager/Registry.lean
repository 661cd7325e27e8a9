import Gccsdk.SOManager.LinkList

/-!
# The registry of clients and shared objects

`som_register.c`, with what it uses of `som_array.c`, `som_alloc.c`, `som_main.c` and `som_history.c`: the
clients, the libraries that are in memory, for each client a list of the libraries it uses, a history of clients
that have gone, and the array that gives each library its index. `Som` is what memory holds of it.

Of an object the registry reads the handle, the index and the load address; what else `init_object` copies,
the arrays of a client (made by another call) and the contents of the libraries are not modelled. A record is
the block it lies in, whose use `block` says; what the heap answers to the requests of a call is a parameter of
the call (`Heap`). A walk along a list has a bound: `none` says that it does not come to an end within it.
-/

namespace SOManager

open DoublyLinked

abbrev Task := ℕ

/-- What a block is used for. -/
inductive Block
  | client
  | library
  | client_object
  | client_history
  | names
  deriving DecidableEq, Repr

/-- `som_client`. -/
structure Client where
  unique_ID : BitVec 32
  object_list : LinkList
  deriving DecidableEq, Repr

/-- `som_library_object`. -/
structure LibraryObject where
  usage_count : ℤ
  expire_time : BitVec 32
  handle : BitVec 32
  index : ℕ
  base_addr : Addr
  deriving DecidableEq, Repr

/-- `som_client_object`. -/
structure ClientObject where
  library : Addr
  deriving DecidableEq, Repr

/-- `som_globals`, the records, and the workspaces of the tasks. -/
structure Som where
  client_list : LinkList
  object_list : LinkList
  client_history : LinkList
  /-- The elements of `object_array`. -/
  object_array : List (Option Addr)
  max_idle_time : BitVec 32
  /-- The member `link` of the records. -/
  hdr : Addr → LinkHdr
  client : Addr → Client
  library : Addr → LibraryObject
  client_object : Addr → ClientObject
  /-- The member `all_names` of a `som_client_history`. -/
  all_names : Addr → Addr
  block : Addr → Option Block
  /-- `rt_workspace_CLIENT_STRUCT_PTR`. -/
  client_ptr : Task → Option Addr

/-- What the heap answers: a claim fails, or it gives a block that is free. -/
structure Heap where
  claim : (Addr → Option Block) → Block → Option Addr
  /-- The block of `object_array` can be extended. -/
  extend : (Addr → Option Block) → Bool
  claim_free : ∀ {m k a}, claim m k = some a → m a = none

inductive SomErr
  /-- The heap's own, or `somerr_no_memory`. -/
  | heap
  | somerr_client_not_found
  | somerr_unknown_client
  deriving DecidableEq, Repr

/-! ### Lists -/

/-- The lists: three global ones, and that of a client's libraries. -/
inductive SomList
  | clients
  | libraries
  | history
  | objects (client : Addr)
  deriving DecidableEq, Repr

namespace Som

def list (s : Som) : SomList → LinkList
  | .clients => s.client_list
  | .libraries => s.object_list
  | .history => s.client_history
  | .objects client => (s.client client).object_list

def setList (s : Som) (header : LinkList) : SomList → Som
  | .clients => { s with client_list := header }
  | .libraries => { s with object_list := header }
  | .history => { s with client_history := header }
  | .objects client =>
    { s with
      client := Function.update s.client client { s.client client with object_list := header } }

/-- `linklist_add_to_end`, -/
def addToEnd (s : Som) (k : SomList) (link : Addr) : Som :=
  let (hdr, header) := linklistAddToEnd s.hdr (s.list k) link
  { s.setList header k with hdr := hdr }

/-- `linklist_add_before`, -/
def addBefore (s : Som) (k : SomList) (at_ : Option Addr) (link : Addr) : Som :=
  let (hdr, header) := linklistAddBefore s.hdr (s.list k) at_ link
  { s.setList header k with hdr := hdr }

/-- and `linklist_remove` for one of the lists. -/
def remove (s : Som) (k : SomList) (link : Addr) : Som :=
  let (hdr, header) := linklistRemove s.hdr (s.list k) link
  { s.setList header k with hdr := hdr }

def findIn (s : Som) (k : SomList) (p : Addr → Bool) (fuel : ℕ) : Option (Option Addr) :=
  LinkedQueue.find (fun a => (s.hdr a).next) p fuel (s.list k).first

def libraryOf (s : Som) (client_library : Addr) : LibraryObject :=
  s.library (s.client_object client_library).library

end Som

/-! ### Memory -/

def Som.allocate (s : Som) (a : Addr) (k : Block) : Som :=
  { s with block := Function.update s.block a (some k) }

def somAlloc (heap : Heap) (s : Som) (k : Block) : Option (Som × Addr) :=
  match heap.claim s.block k with
  | none => none
  | some a => some (s.allocate a k, a)

def somFree (s : Som) (a : Addr) : Som := { s with block := Function.update s.block a none }

/-- The loop of `somarray_add_object`: the first element that can be recycled, from index 1 on, or the
number of elements. -/
def somarrayUnused (object_array : List (Option Addr)) : ℕ :=
  1 + (object_array.drop 1).findIdx fun object => object = none

def setIndex (s : Som) (object : Addr) (index : ℕ) (object_array : List (Option Addr)) : Som :=
  { s with
    library := Function.update s.library object { s.library object with index := index }
    object_array := object_array }

/-- `somarray_add_object`; `none` when the array cannot be extended. -/
def somarrayAddObject (heap : Heap) (s : Som) (object : Addr) : Option Som :=
  let index := somarrayUnused s.object_array
  if index ≥ s.object_array.length then
    if heap.extend s.block then
      some (setIndex s object s.object_array.length (s.object_array ++ [some object]))
    else none
  else some (setIndex s object index (s.object_array.set index (some object)))

/-! ### Registering -/

/-- Adding a record to a list before the first one with a property, or to its end. -/
def insertIn (fuel : ℕ) (s : Som) (k : SomList) (p : Addr → Bool) (insert : Addr) : Option Som := do
  match ← s.findIn k p fuel with
  | none => return s.addToEnd k insert
  | some at_ => return s.addBefore k (some at_) insert

def somAddGlobalLibrary (fuel : ℕ) (s : Som) (insert : Addr) : Option Som :=
  insertIn fuel s .libraries (fun a => ¬(s.library insert).base_addr ≥ (s.library a).base_addr)
    insert

def somAddClientLibrary (fuel : ℕ) (s : Som) (client insert : Addr) : Option Som :=
  insertIn fuel s (.objects client)
    (fun a => ¬(s.libraryOf insert).base_addr ≥ (s.libraryOf a).base_addr) insert

def somFindClient (fuel : ℕ) (s : Som) (ID : BitVec 32) : Option (Option Addr) :=
  s.findIn .clients (fun a => (s.client a).unique_ID = ID) fuel

/-- The loop of `som_register_client` that looks for an ID no client has. -/
def uniqueID (s : Som) (walk : ℕ) : ℕ → BitVec 32 → Option (BitVec 32)
  | 0, _ => none
  | fuel + 1, ID =>
    match somFindClient walk s ID with
    | none => none
    | some none => some ID
    | some (some _) => uniqueID s walk fuel (ID + 1)

/-- The `memset` of a new client. -/
def clearClient (s : Som) (client : Addr) : Som :=
  { s with
    hdr := Function.update s.hdr client ⟨none, none⟩
    client := Function.update s.client client ⟨0, linklistInitList⟩ }

def setClient (s : Som) (t : Task) (client : Addr) (ID : BitVec 32) : Som :=
  { s with
    client_ptr := Function.update s.client_ptr t (some client)
    client := Function.update s.client client { s.client client with unique_ID := ID } }

/-- `som_register_client`, for the task `t`. The two arrays of the client begin without elements, so that
their `somarray_init` asks for no memory and cannot fail. -/
def somRegisterClient (fuel : ℕ) (heap : Heap) (now : BitVec 32) (s : Som) (t : Task) :
    Option (Som × Option SomErr) :=
  match somAlloc heap s .client with
  | none => some (s, some .heap)
  | some (s, client) => do
    let ID ← uniqueID (clearClient s client) fuel fuel now
    return ((setClient (clearClient s client) t client ID).addToEnd .clients client, none)

def findLibrary (fuel : ℕ) (s : Som) (handle : BitVec 32) : Option (Option Addr) :=
  s.findIn .libraries (fun a => (s.library a).handle = handle) fuel

def initLibrary (s : Som) (global_library : Addr) (handle : BitVec 32) (base_addr : Addr) : Som :=
  { s with
    library := Function.update s.library global_library ⟨0, 0, handle, 0, base_addr⟩ }

def initEntry (s : Som) (client_library global_library : Addr) : Som :=
  { s with
    library := Function.update s.library global_library
      { s.library global_library with
        usage_count := (s.library global_library).usage_count + 1 }
    client_object := Function.update s.client_object client_library ⟨global_library⟩ }

/-- The second half of `som_register_sharedobject`: record the object in the client's list. -/
def recordObject (fuel : ℕ) (heap : Heap) (s : Som) (client global_library : Addr) :
    Option (Som × Option SomErr) :=
  match somAlloc heap s .client_object with
  | none => some (s, some .heap)
  | some (s, client_library) => do
    let s ← somAddClientLibrary fuel (initEntry s client_library global_library) client client_library
    return (s, none)

def somRegisterSharedobject (fuel : ℕ) (heap : Heap) (s : Som) (t : Task) (handle : BitVec 32)
    (base_addr : Addr) : Option (Som × Option SomErr) :=
  match s.client_ptr t with
  | none => some (s, some .somerr_client_not_found)
  | some client => do
    match ← findLibrary fuel s handle with
    | some global_library => recordObject fuel heap s client global_library
    | none =>
      match somAlloc heap s .library with
      | none => return (s, some .heap)
      | some (s, global_library) =>
        match somarrayAddObject heap (initLibrary s global_library handle base_addr)
          global_library with
        | none =>
          -- `som_free (&global_library)` is for the address of the variable, which is no block
          return (initLibrary s global_library handle base_addr, some .heap)
        | some s =>
          let s ← somAddGlobalLibrary fuel s global_library
          recordObject fuel heap s client global_library

/-! ### Deregistering -/

/-- Taking a library out of the global list, and its record out of memory. The library itself, at
`base_addr`, is freed as well, where it is in a block of the module's. -/
def removeLibrary (s : Som) (global_library : Addr) : Som :=
  let s := s.remove .libraries global_library
  somFree { s with object_array := s.object_array.set (s.library global_library).index none }
    global_library

def dropUse (now : BitVec 32) (s : Som) (global_library : Addr) : Som :=
  let library := s.library global_library
  let usage_count := library.usage_count - 1
  { s with
    library := Function.update s.library global_library
      { library with
        usage_count := usage_count
        expire_time := if usage_count ≠ 0 then library.expire_time else now + s.max_idle_time } }

def deregisterSharedObject (fuel : ℕ) (now : BitVec 32) (s : Som) (client : Addr)
    (handle : BitVec 32) : Option Som := do
  match ← s.findIn (.objects client) (fun a => (s.libraryOf a).handle = handle) fuel with
  | some client_library =>
    return dropUse now (somFree (s.remove (.objects client) client_library) client_library)
      (s.client_object client_library).library
  | none =>
    match ← findLibrary fuel s handle with
    | none => return s
    | some global_library =>
      if (s.library global_library).usage_count = 0 then return removeLibrary s global_library
      else return s

def MAX_HISTORY_COUNT : ℤ := 5

/-- The `memset` of a new record of the history. -/
def clearHistory (s : Som) (client_hist : Addr) : Som :=
  { s with hdr := Function.update s.hdr client_hist ⟨none, none⟩ }

def setNames (s : Som) (client_hist all_names : Addr) : Som :=
  { s with all_names := Function.update s.all_names client_hist all_names }

def trimHistory (s : Som) : Som :=
  if s.client_history.count > MAX_HISTORY_COUNT then
    match s.client_history.first with
    | none => s
    | some to_be_removed =>
      let s := s.remove .history to_be_removed
      somFree (somFree s (s.all_names to_be_removed)) to_be_removed
  else s

/-- `som_history_add_client`, whose record is made of two blocks. The loops that read the client's list only
find out how long they are, and what to write there. -/
def somHistoryAddClient (heap : Heap) (s : Som) : Som :=
  match somAlloc heap s .client_history with
  | none => s
  | some (s, client_hist) =>
    match somAlloc heap (clearHistory s client_hist) .names with
    | none =>
      -- `som_free (&client_hist)` is for the address of the variable, which is no block
      clearHistory s client_hist
    | some (s, all_names) =>
      trimHistory ((setNames s client_hist all_names).addToEnd .history client_hist)

/-- The loop of `som_deregister_client`, from an entry of the client's list on. -/
def deregisterObjects (walk : ℕ) (now : BitVec 32) (client : Addr) :
    ℕ → Som → Option Addr → Option Som
  | _, s, none => some s
  | 0, _, some _ => none
  | fuel + 1, s, some client_library => do
    let next_library := (s.hdr client_library).next
    let s ← deregisterSharedObject walk now s client (s.libraryOf client_library).handle
    deregisterObjects walk now client fuel s next_library

def somDeregisterClient (fuel : ℕ) (heap : Heap) (now : BitVec 32) (s : Som) (t : Task) :
    Option (Som × Option SomErr) :=
  match s.client_ptr t with
  | none => some (s, some .somerr_unknown_client)
  | some client => do
    let s := { s with client_ptr := Function.update s.client_ptr t none }
    let s := somHistoryAddClient heap s
    let s ← deregisterObjects fuel now client fuel s (s.client client).object_list.first
    let s := s.remove .clients client
    return (somFree s client, none)

def somDeregisterSharedObject (fuel : ℕ) (now : BitVec 32) (s : Som) (t : Task)
    (handle : BitVec 32) : Option (Som × Option SomErr) :=
  match s.client_ptr t with
  | none => some (s, some .somerr_unknown_client)
  | some client => do
    let s ← deregisterSharedObject fuel now s client handle
    return (s, none)

/-! ### Expiry -/

/-- The loop of `som_callback_handler`, from a library of the global list on. -/
def expireFrom (current_time : BitVec 32) : ℕ → Som → Option Addr → Option Som
  | _, s, none => some s
  | 0, _, some _ => none
  | fuel + 1, s, some global_library =>
    let next := (s.hdr global_library).next
    let library := s.library global_library
    if library.usage_count ≠ 0 then expireFrom current_time fuel s next
    else if library.expire_time > current_time then expireFrom current_time fuel s next
    else expireFrom current_time fuel (removeLibrary s global_library) next

def somCallbackHandler (fuel : ℕ) (now : BitVec 32) (s : Som) : Option Som :=
  expireFrom now fuel s s.object_list.first

end SOManager
