import Gccsdk.Lib.CText
import Gccsdk.UnixLib.CanonicalPath
import Mathlib.Data.List.Forall2

/-!
# The environment

`setenv`, `putenv`, `unsetenv` and `getenv` of UnixLib: `environ` is a vector of strings, with a NULL behind the last
one. It may be inherited, or set by the program, or it is the one that the library has made (`last_environ`); only
this one is given to `realloc`.

A new string needs a vector that is longer, and memory for itself. If there is no memory for the string, a vector that
is new is freed again; but the library's own one may have been moved by then, and `environ` is left at the place where
it was. So a call is right if and only if this does not happen (`run_right_iff`).

What the environment says is the list of its strings (`Env.texts`), and a name is looked up in this list (`lookup`).
-/

namespace UnixLib.Environ

open CText

/-- `=` -/
abbrev EQUALS : UInt8 := 0x3D
/-- and `$`. -/
abbrev DOLLAR : UInt8 := 0x24

/-- **The environment**: the vectors that are live, by their addresses, and the memory of the strings. NULL is 0. -/
structure Env where
  environ : ℕ
  last_environ : ℕ
  vec : ℕ → Option (List ℕ)
  mem : List UInt8

/-- What `realloc` does with a vector. -/
inductive Realloc
  | fails
  | stays
  | moves (to_ : ℕ)
  deriving DecidableEq

/-- **The outcome of the allocations**: `realloc` and `malloc` for the vector, `malloc` for the string, and what new
slots hold. -/
structure Outcome where
  realloc : Realloc
  vector : Option ℕ
  string : Option ℕ
  junk : ℕ

def text (mem : List UInt8) (p : ℕ) : Text := cstr (mem.drop p)

def write (mem : List UInt8) (p : ℕ) (l : List UInt8) : List UInt8 := mem.take p ++ l ++ mem.drop (p + l.length)

/-- `!strncmp (entry, name, namelen) && entry[namelen] == '='` -/
def HasName (name entry : Text) : Prop := entry.take name.length = name ∧ entry[name.length]? = some EQUALS

instance (name entry : Text) : Decidable (HasName name entry) := inferInstanceAs (Decidable (_ ∧ _))

/-- The slots of `environ`. -/
def Env.words (s : Env) : List ℕ := if s.environ = 0 then [] else (s.vec s.environ).getD []

def setSlot (vec : ℕ → Option (List ℕ)) (p i w : ℕ) : ℕ → Option (List ℕ) :=
  Function.update vec p ((vec p).map (·.set i w))

/-- `name=value`, with its NUL. -/
def assignment (name value : Text) : Text := name ++ EQUALS :: value

/-! ### `__getenv_from_env` -/

/-- The loop of `__getenv_from_env`. -/
def findValue (mem : List UInt8) (name : Text) : List ℕ → Option ℕ
  | [] => none
  | p :: words =>
    if p = 0 then none
    else if HasName name (text mem p) then some (p + (name.length + 1))
    else findValue mem name words

def getenv_from_env (s : Env) (name : Text) : Option ℕ :=
  if s.environ ≠ 0 then findValue s.mem name s.words else none

def Env.value (s : Env) (name : Text) : Option Text := (getenv_from_env s name).map (text s.mem)

/-! ### `__addenv_to_env` -/

/-- "Search environment for old value": where the loop ends. -/
def search (mem : List UInt8) (name : Text) : List ℕ → ℕ
  | [] => 0
  | p :: words => if p = 0 then 0 else if HasName name (text mem p) then 0 else search mem name words + 1

/-- A block of `n` slots, with what fits of the old ones. -/
def resize (n junk : ℕ) (words : List ℕ) : List ℕ := (words ++ List.replicate n junk).take n

/-- "If we allocated the environ, we can extend it, else allocate it." -/
def growVector (o : Outcome) (envcnt : ℕ) (s : Env) : Option (ℕ × (ℕ → Option (List ℕ))) :=
  if s.environ = s.last_environ then
    match o.realloc with
    | .fails => none
    | .stays =>
      some (s.last_environ, Function.update s.vec s.last_environ (some (resize (envcnt + 2) o.junk s.words)))
    | .moves to_ =>
      some (to_, Function.update (Function.update s.vec s.last_environ none) to_
        (some (resize (envcnt + 2) o.junk s.words)))
  else
    match o.vector with
    | none => none
    | some to_ =>
      some (to_, Function.update s.vec to_ (some (resize (envcnt + 2) o.junk (s.words.take envcnt))))

def publish (new_environ : ℕ) (vec : ℕ → Option (List ℕ)) (envcnt p : ℕ) (s : Env) : Env :=
  { s with
    environ := new_environ
    last_environ := new_environ
    vec := setSlot (setSlot vec new_environ envcnt p) new_environ (envcnt + 1) 0 }

/-- "Did not find old value." -/
def addNew (o : Outcome) (string : Option ℕ) (name value : Text) (envcnt : ℕ) (s : Env) : ℤ × Env :=
  match growVector o envcnt s with
  | none => (-1, s)
  | some (new_environ, vec) =>
    match string with
    | some p => (0, publish new_environ vec envcnt p s)
    | none =>
      match o.string with
      | none =>
        let vec := setSlot vec new_environ envcnt 0
        (-1, { s with vec := if s.environ ≠ s.last_environ then Function.update vec new_environ none else vec })
      | some p =>
        (0, publish new_environ vec envcnt p { s with mem := write s.mem p (assignment name value ++ [0]) })

/-- "Replace existing variable", the string `old` in slot `i`. -/
def replaceOld (o : Outcome) (string : Option ℕ) (name value : Text) (i old : ℕ) (s : Env) : ℤ × Env :=
  match string with
  | some p => (0, { s with vec := setSlot s.vec s.environ i p })
  | none =>
    if (text s.mem old).length < name.length + 1 + value.length then
      match o.string with
      | none => (-1, s)
      | some p =>
        (0, { s with
          vec := setSlot s.vec s.environ i p
          mem := write s.mem p (assignment name value ++ [0]) })
    else (0, { s with mem := write s.mem old (assignment name value ++ [0]) })

/-- A name and a value are added, or `string`. -/
def addNamed (o : Outcome) (string : Option ℕ) (name value : Text) (replace : Bool) (s : Env) : ℤ × Env :=
  let envcnt := search s.mem name s.words
  let old := s.words.getD envcnt 0
  if s.environ = 0 ∨ old = 0 then addNew o string name value envcnt s
  else if replace then replaceOld o string name value envcnt old s
  else (0, s)

/-- The name in front of the first `=`. -/
def nameOf (string : Text) : Text := string.takeWhile (· ≠ EQUALS)

def valueOf (string : Text) : Text := string.drop ((nameOf string).length + 1)

def addenv_to_env (o : Outcome) (string : Option ℕ) (name value : Text) (replace : Bool) (s : Env) : ℤ × Env :=
  match string with
  | some p =>
    if EQUALS ∈ text s.mem p then addNamed o (some p) (nameOf (text s.mem p)) [] replace s else (-1, s)
  | none => addNamed o none name value replace s

/-! ### The calls, for names without `$` -/

def setenv (o : Outcome) (name value : Text) (replace : Bool) (s : Env) : ℤ × Env :=
  if EQUALS ∈ name then (-1, s) else addenv_to_env o none name value replace s

/-- "Remove this pointer by moving later ones back." -/
def moveBack : List ℕ → List ℕ
  | [] => []
  | [p] => [p]
  | _ :: p :: words => if p = 0 then 0 :: p :: words else p :: moveBack (p :: words)

/-- The loop of `unsetenv`, with as many turns as there are slots. -/
def unsetFrom (mem : List UInt8) (name : Text) : (turns : ℕ) → List ℕ → List ℕ
  | 0, words => words
  | _ + 1, [] => []
  | turns + 1, p :: words =>
    if p = 0 then p :: words
    else if HasName name (text mem p) then unsetFrom mem name turns (moveBack (p :: words))
    else p :: unsetFrom mem name turns words

def unsetenv (name : Option Text) (s : Env) : ℤ × Env :=
  match name with
  | none => (-1, s)
  | some name =>
    if EQUALS ∈ name then (-1, s)
    else if s.environ = 0 then (0, s)
    else
      (0, { s with
        vec := Function.update s.vec s.environ (some (unsetFrom s.mem name s.words.length s.words)) })

def putenv (o : Outcome) (string : ℕ) (s : Env) : ℤ × Env :=
  if EQUALS ∈ text s.mem string then addenv_to_env o (some string) [] [] true s
  else unsetenv (some (text s.mem string)) s

def clearenv (s : Env) : ℤ × Env :=
  if s.environ = s.last_environ ∧ s.environ ≠ 0 then
    (0, { s with environ := 0, last_environ := 0, vec := Function.update s.vec s.environ none })
  else (0, { s with environ := 0 })

inductive Call
  | setenv (name value : Text) (replace : Bool)
  | putenv (string : ℕ)
  | unsetenv (name : Option Text)
  | clearenv

/-- **The call**: what it returns, and the environment behind it. -/
def Call.run (o : Outcome) : Call → Env → ℤ × Env
  | .setenv name value replace, s => Environ.setenv o name value replace s
  | .putenv string, s => Environ.putenv o string s
  | .unsetenv name, s => Environ.unsetenv name s
  | .clearenv, s => Environ.clearenv s

/-! ### What the environment says -/

/-- The strings of the environment, by their addresses, -/
def Env.entries (s : Env) : List ℕ := s.words.takeWhile (· ≠ 0)

/-- **and what they are.** -/
def Env.texts (s : Env) : List Text := s.entries.map (text s.mem)

/-- **The value of a name**, in a list of strings: the first one counts. -/
def lookup (name : Text) (texts : List Text) : Option Text :=
  (texts.find? fun entry => HasName name entry).map (·.drop (name.length + 1))

/-- **The environment is as it must be**: `environ` is a live vector that ends with a NULL, its strings are strings,
and `last_environ` is a live vector, too. -/
structure Env.Sound (s : Env) : Prop where
  vector : s.environ ≠ 0 → ∃ words, s.vec s.environ = some words ∧ 0 ∈ words
  strings : ∀ p ∈ s.entries, 0 ∈ s.mem.drop p
  last : s.last_environ ≠ 0 → ∃ words, s.vec s.last_environ = some words

/-- **The environment is what it was.** -/
structure Unchanged (s s' : Env) : Prop where
  environ : s'.environ = s.environ
  last_environ : s'.last_environ = s.last_environ
  entries : s'.entries = s.entries
  texts : s'.texts = s.texts
  sound : s'.Sound

def OthersSame (name : Text) (s s' : Env) : Prop :=
  ∀ other, EQUALS ∉ other → other ≠ name → s'.value other = s.value other

def Assigned (name value : Text) (s s' : Env) : Prop := s'.value name = some value ∧ OthersSame name s s'

def Removed (name : Text) (s s' : Env) : Prop :=
  s'.texts = s.texts.filter (fun entry => ¬HasName name entry) ∧ OthersSame name s s'

/-- **What a call is for.** -/
def Call.Done (s s' : Env) : Call → Prop
  | .setenv name value replace => Assigned name (if replace then value else (s.value name).getD value) s s'
  | .putenv string =>
    if EQUALS ∈ text s.mem string then
      Assigned (nameOf (text s.mem string)) (valueOf (text s.mem string)) s s'
    else Removed (text s.mem string) s s'
  | .unsetenv name => ∀ n ∈ name, Removed n s s'
  | .clearenv => s'.texts = []

/-- **The call is right**: it does what it is for, or returns -1 and leaves the environment as it was. -/
structure Call.Right (call : Call) (s : Env) (r : ℤ × Env) : Prop where
  code : r.1 = 0 ∨ r.1 = -1
  sound : r.2.Sound
  error : r.1 = -1 → Unchanged s r.2
  success : r.1 = 0 → call.Done s r.2

/-! ### What a call may rely on, and where it fails -/

/-- The arguments are strings, and the names have no `$`. -/
def Call.Legal (s : Env) : Call → Prop
  | .setenv name value _ => (0 ∉ name ∧ DOLLAR ∉ name) ∧ 0 ∉ value
  | .putenv string => string ≠ 0 ∧ 0 ∈ s.mem.drop string ∧ DOLLAR ∉ nameOf (text s.mem string)
  | .unsetenv name => ∀ n ∈ name, 0 ∉ n ∧ DOLLAR ∉ n
  | .clearenv => True

def Call.size : Call → ℕ
  | .setenv name value _ => name.length + value.length + 2
  | _ => 0

/-- Two pieces of memory have no byte in common: `n` bytes at `p`, and `m` at `q`. -/
def Apart (p n q m : ℕ) : Prop := p + n ≤ q ∨ q + m ≤ p

instance (p n q m : ℕ) : Decidable (Apart p n q m) := inferInstanceAs (Decidable (_ ∨ _))

/-- **Memory that is given is new**: it is no live vector, and no string of the environment is there. -/
structure Outcome.Fresh (o : Outcome) (size : ℕ) (s : Env) : Prop where
  stays : o.realloc = .stays → s.last_environ ≠ 0
  moves : ∀ to_, o.realloc = .moves to_ → to_ ≠ 0 ∧ s.vec to_ = none
  vector : ∀ to_, o.vector = some to_ → to_ ≠ 0 ∧ s.vec to_ = none
  string : ∀ p, o.string = some p → p ≠ 0 ∧ p + size ≤ s.mem.length ∧
    ∀ q ∈ s.entries, Apart q ((text s.mem q).length + 1) p size

/-- **Where the value is written over the old one, no other string has its bytes there.** -/
def Call.SparesOthers (s : Env) : Call → Prop
  | .setenv name value true =>
    EQUALS ∉ name → ∀ p, (s.entries.find? fun p => HasName name (text s.mem p)) = some p →
      name.length + 1 + value.length ≤ (text s.mem p).length →
        ∀ q ∈ s.entries, q ≠ p →
          Apart q ((text s.mem q).length + 1) (p + (name.length + 1)) (value.length + 1)
  | _ => True

/-- **The vector has been moved, and then there is no memory for the string.** -/
def Call.Lost (o : Outcome) (s : Env) : Call → Prop
  | .setenv name _ _ =>
    EQUALS ∉ name ∧ (∀ entry ∈ s.texts, ¬HasName name entry) ∧ s.environ = s.last_environ ∧ s.environ ≠ 0 ∧
      (∃ to_, o.realloc = .moves to_) ∧ o.string = none
  | _ => False

/-! ### Strings in memory -/

variable {p : ℕ}

theorem text_of_drop {mem t rest : List UInt8} (h : mem.drop p = t ++ 0 :: rest) (ht : 0 ∉ t) :
    text mem p = t := by
  rw [text, h]
  exact cstr_append_zero ht rest

theorem zero_notMem_text (mem : List UInt8) (p : ℕ) : 0 ∉ text mem p := zero_notMem_cstr _

theorem drop_write_self {mem l : List UInt8} (h : p + l.length ≤ mem.length) :
    (write mem p l).drop p = l ++ mem.drop (p + l.length) := by
  have hlen : (mem.take p).length = p := List.length_take_of_le (by omega)
  rw [write, List.append_assoc]
  exact List.drop_left' hlen

theorem text_write_apart {mem l : List UInt8} {p q : ℕ} (hp : 0 ∈ mem.drop p) (hroom : q + l.length ≤ mem.length)
    (hapart : Apart p ((text mem p).length + 1) q l.length) :
    text (write mem q l) p = text mem p ∧ 0 ∈ (write mem q l).drop p := by
  obtain ⟨rest, hrest⟩ := exists_of_zero_mem hp
  suffices h : ∃ rest', (write mem q l).drop p = text mem p ++ 0 :: rest' by
    obtain ⟨rest', hrest'⟩ := h
    refine ⟨text_of_drop hrest' (zero_notMem_text mem p), ?_⟩
    rw [hrest']
    exact List.mem_append_right _ List.mem_cons_self
  rw [write, List.append_assoc]
  obtain hbefore | hbehind := hapart
  · have hle : p ≤ (mem.take q).length := by rw [List.length_take_of_le (by omega)]; omega
    refine ⟨rest.take (q - p - ((text mem p).length + 1)) ++ (l ++ mem.drop (q + l.length)), ?_⟩
    rw [List.drop_append_of_le_length hle, List.drop_take, hrest]
    change (text mem p ++ 0 :: rest).take (q - p) ++ _ = _
    obtain ⟨n, hn⟩ : ∃ n, q - p = (text mem p).length + (n + 1) := ⟨q - p - ((text mem p).length + 1), by omega⟩
    rw [hn, List.take_length_add_append, List.take_succ_cons, List.append_assoc, List.cons_append]
    congr 4
    omega
  · refine ⟨rest, ?_⟩
    have hlen : (mem.take q ++ l).length = q + l.length := by
      rw [List.length_append, List.length_take_of_le (by omega)]
    rw [← List.append_assoc, List.drop_append, List.drop_eq_nil_of_le (by omega), List.nil_append, List.drop_drop, hlen]
    rw [show q + l.length + (p - (q + l.length)) = p by omega]
    exact hrest

theorem text_write_self {mem t : List UInt8} (ht : 0 ∉ t) (hroom : p + (t.length + 1) ≤ mem.length) :
    text (write mem p (t ++ [0])) p = t ∧ 0 ∈ (write mem p (t ++ [0])).drop p := by
  have hlen : (t ++ [0]).length = t.length + 1 := List.length_append
  have hdrop : (write mem p (t ++ [0])).drop p = t ++ [0] ++ mem.drop (p + (t ++ [0]).length) :=
    drop_write_self (by omega)
  rw [List.append_assoc] at hdrop
  refine ⟨text_of_drop hdrop ht, ?_⟩
  rw [hdrop]
  exact List.mem_append_right _ List.mem_cons_self

theorem write_front {mem front rest l : List UInt8} (h : mem.drop p = front ++ rest) :
    write mem p (front ++ l) = write mem (p + front.length) l := by
  have htake : mem.take (p + front.length) = mem.take p ++ front := by
    rw [List.take_add, h, List.take_left]
  simp only [write, htake, List.length_append, List.append_assoc, Nat.add_assoc]

/-! ### Names and values -/

theorem hasName_iff {name entry : Text} : HasName name entry ↔ ∃ value, entry = assignment name value := by
  refine ⟨fun ⟨hfront, heq⟩ => ⟨entry.drop (name.length + 1), ?_⟩, ?_⟩
  · obtain ⟨hlt, hget⟩ := List.getElem?_eq_some_iff.mp heq
    calc entry
        = entry.take name.length ++ entry.drop name.length := (List.take_append_drop _ _).symm
      _ = name ++ EQUALS :: entry.drop (name.length + 1) := by
        rw [hfront, List.drop_eq_getElem_cons hlt, hget]
  · rintro ⟨value, rfl⟩
    rw [HasName, assignment, List.take_left, List.getElem?_append_right (Nat.le_refl _), Nat.sub_self]
    exact ⟨rfl, rfl⟩

theorem hasName_assignment (name value : Text) : HasName name (assignment name value) := hasName_iff.mpr ⟨value, rfl⟩

@[simp] theorem drop_assignment (name value : Text) : (assignment name value).drop (name.length + 1) = value := by
  rw [assignment, List.drop_append, List.drop_eq_nil_of_le (Nat.le_succ _), List.nil_append, Nat.add_sub_cancel_left]
  rfl

theorem nameOf_eq {name entry : Text} (hname : EQUALS ∉ name) (h : HasName name entry) : nameOf entry = name := by
  obtain ⟨value, rfl⟩ := hasName_iff.mp h
  rw [nameOf, assignment, List.takeWhile_append_of_pos]
  · rw [List.takeWhile_cons_of_neg (by simp), List.append_nil]
  · intro c hc
    refine decide_eq_true ?_
    rintro rfl
    exact hname hc

theorem not_hasName_of_ne {name other entry : Text} (hname : EQUALS ∉ name) (hother : EQUALS ∉ other)
    (hne : other ≠ name) (h : HasName name entry) : ¬HasName other entry :=
  fun h' => hne ((nameOf_eq hother h').symm.trans (nameOf_eq hname h))

theorem notMem_nameOf (string : Text) : EQUALS ∉ nameOf string := by
  intro h
  rw [nameOf] at h
  have hne := List.mem_takeWhile_imp h
  exact of_decide_eq_true hne rfl

theorem assignment_nameOf {string : Text} (h : EQUALS ∈ string) :
    string = assignment (nameOf string) (valueOf string) := by
  have hsplit := List.takeWhile_append_dropWhile (p := fun c => decide (c ≠ EQUALS)) (l := string)
  cases hrest : string.dropWhile (fun c => decide (c ≠ EQUALS)) with
  | nil =>
    rw [hrest, List.append_nil] at hsplit
    have hmem : EQUALS ∈ nameOf string := by
      rw [nameOf, hsplit]
      exact h
    exact absurd hmem (notMem_nameOf string)
  | cons c rest =>
    have hc : c = EQUALS := by
      have hhead := List.head?_dropWhile_not (fun c => decide (c ≠ EQUALS)) string
      rw [hrest] at hhead
      simpa using hhead
    rw [hrest, hc] at hsplit
    have hstring : string = assignment (nameOf string) rest := hsplit.symm
    have hvalue : valueOf string = rest :=
      calc valueOf string
          = (assignment (nameOf string) rest).drop ((nameOf string).length + 1) := congrArg (List.drop _) hstring
        _ = rest := drop_assignment _ _
    rw [hvalue]
    exact hstring

/-! ### Looking up a name -/

variable {name value : Text}

theorem lookup_concat {texts : List Text} (h : ∀ entry ∈ texts, ¬HasName name entry) :
    lookup name (texts ++ [assignment name value]) = some value := by
  have hnone : texts.find? (fun entry => HasName name entry) = none :=
    List.find?_eq_none.mpr fun entry hentry => by simpa using h entry hentry
  rw [lookup, List.find?_append, hnone, Option.none_or,
    List.find?_cons_of_pos (by simpa using hasName_assignment name value), Option.map_some, drop_assignment]

theorem lookup_concat_other {other entry : Text} {texts : List Text} (h : ¬HasName other entry) :
    lookup other (texts ++ [entry]) = lookup other texts := by
  rw [lookup, lookup, List.find?_append, List.find?_cons_of_neg (by simpa using h), List.find?_nil, Option.or_none]

theorem lookup_first {front behind : List Text} (h : ∀ entry ∈ front, ¬HasName name entry) :
    lookup name (front ++ assignment name value :: behind) = some value := by
  have hnone : front.find? (fun entry => HasName name entry) = none :=
    List.find?_eq_none.mpr fun entry hentry => by simpa using h entry hentry
  rw [lookup, List.find?_append, hnone, Option.none_or,
    List.find?_cons_of_pos (by simpa using hasName_assignment name value), Option.map_some, drop_assignment]

/-- **A string may be replaced by one of the same name.** -/
def Replaces (name entry entry' : Text) : Prop := entry' = entry ∨ HasName name entry ∧ HasName name entry'

theorem lookup_replaced {name other : Text} {texts texts' : List Text} (hname : EQUALS ∉ name)
    (hother : EQUALS ∉ other) (hne : other ≠ name) (h : List.Forall₂ (Replaces name) texts texts') :
    lookup other texts' = lookup other texts := by
  induction h with
  | nil => rfl
  | @cons entry entry' texts texts' hentry _ ih =>
    obtain rfl | ⟨hold, hnew⟩ := hentry
    · by_cases hhas : HasName other entry'
      · rw [lookup, lookup, List.find?_cons_of_pos (by simpa using hhas), List.find?_cons_of_pos (by simpa using hhas)]
      · rw [lookup, lookup, List.find?_cons_of_neg (by simpa using hhas), List.find?_cons_of_neg (by simpa using hhas)]
        exact ih
    · have hold' := not_hasName_of_ne hname hother hne hold
      have hnew' := not_hasName_of_ne hname hother hne hnew
      rw [lookup, lookup, List.find?_cons_of_neg (by simpa using hnew'), List.find?_cons_of_neg (by simpa using hold')]
      exact ih

theorem lookup_filter {name other : Text} (texts : List Text) (hname : EQUALS ∉ name) (hother : EQUALS ∉ other)
    (hne : other ≠ name) :
    lookup other (texts.filter fun entry => ¬HasName name entry) = lookup other texts := by
  have hstays {entry : Text} (h : HasName other entry) : ¬HasName name entry :=
    not_hasName_of_ne hother hname (Ne.symm hne) h
  rw [lookup, lookup, List.find?_filter]
  congr 2
  funext entry
  by_cases hhas : HasName other entry
  · simp [hhas, hstays hhas]
  · simp [hhas]

/-! ### The vector -/

variable {s : Env}

theorem Env.Sound.words_eq (hs : s.Sound) (h : s.environ ≠ 0) :
    s.vec s.environ = some s.words ∧ 0 ∈ s.words := by
  obtain ⟨words, hvec, hmem⟩ := hs.vector h
  have hwords : s.words = words := by rw [Env.words, if_neg h, hvec]; rfl
  rw [hwords]
  exact ⟨hvec, hmem⟩

theorem entries_of_zero (h : s.environ = 0) : s.entries = [] := by
  rw [Env.entries, Env.words, if_pos h]
  rfl

theorem ne_zero_of_mem_entries (h : p ∈ s.entries) : p ≠ 0 := by
  rw [Env.entries] at h
  have hne := List.mem_takeWhile_imp h
  exact of_decide_eq_true hne

/-- **The search**: it ends at the NULL, and no string has the name, or at the first one that has it. -/
theorem search_cases (mem : List UInt8) (name : Text) {words : List ℕ} (h : 0 ∈ words) :
    (∃ behind, words = words.takeWhile (· ≠ 0) ++ 0 :: behind ∧
      search mem name words = (words.takeWhile (· ≠ 0)).length ∧
        ∀ p ∈ words.takeWhile (· ≠ 0), ¬HasName name (text mem p)) ∨
    ∃ front p behind, words = front ++ p :: behind ∧ search mem name words = front.length ∧ p ≠ 0 ∧
      HasName name (text mem p) ∧ ∀ q ∈ front, q ≠ 0 ∧ ¬HasName name (text mem q) := by
  induction words with
  | nil => exact absurd h List.not_mem_nil
  | cons p words ih =>
    rw [search]
    by_cases hp : p = 0
    · rw [if_pos hp, List.takeWhile_cons_of_neg (by simpa using hp), hp]
      exact Or.inl ⟨words, rfl, rfl, nofun⟩
    · rw [if_neg hp, List.takeWhile_cons_of_pos (by simpa using hp)]
      by_cases hname : HasName name (text mem p)
      · rw [if_pos hname]
        exact Or.inr ⟨[], p, words, rfl, rfl, hp, hname, nofun⟩
      · rw [if_neg hname]
        obtain ⟨behind, hwords, hsearch, hnone⟩ | ⟨front, q, behind, hwords, hsearch, hq, hhas, hfront⟩ :=
          ih ((List.mem_cons.mp h).resolve_left (Ne.symm hp))
        · refine Or.inl ⟨behind, congrArg (p :: ·) hwords, congrArg (· + 1) hsearch, ?_⟩
          exact List.forall_mem_cons.mpr ⟨hname, hnone⟩
        · refine Or.inr ⟨p :: front, q, behind, congrArg (p :: ·) hwords, congrArg (· + 1) hsearch, hq, hhas, ?_⟩
          exact List.forall_mem_cons.mpr ⟨⟨hp, hname⟩, hfront⟩

theorem findValue_eq (mem : List UInt8) (name : Text) (words : List ℕ) :
    findValue mem name words =
      ((words.takeWhile (· ≠ 0)).find? fun p => HasName name (text mem p)).map (· + (name.length + 1)) := by
  induction words with
  | nil => rfl
  | cons p words ih =>
    rw [findValue]
    by_cases hp : p = 0
    · rw [if_pos hp, List.takeWhile_cons_of_neg (by simpa using hp)]
      rfl
    · rw [if_neg hp, List.takeWhile_cons_of_pos (by simpa using hp)]
      by_cases hname : HasName name (text mem p)
      · rw [if_pos hname, List.find?_cons_of_pos (by simpa using hname)]
        rfl
      · rw [if_neg hname, List.find?_cons_of_neg (by simpa using hname)]
        exact ih

theorem text_value {mem : List UInt8} {name : Text} (hp : 0 ∈ mem.drop p) (h : HasName name (text mem p)) :
    text mem (p + (name.length + 1)) = (text mem p).drop (name.length + 1) := by
  obtain ⟨rest, hrest⟩ := exists_of_zero_mem hp
  obtain ⟨value, hvalue⟩ := hasName_iff.mp h
  have hnot := zero_notMem_text mem p
  rw [hvalue] at hnot ⊢
  rw [drop_assignment]
  have hsplit : assignment name value ++ 0 :: rest = (name ++ [EQUALS]) ++ (value ++ 0 :: rest) := by simp [assignment]
  have hdrop : mem.drop (p + (name.length + 1)) = value ++ 0 :: rest := by
    rw [← List.drop_drop, hrest]
    change (text mem p ++ 0 :: rest).drop _ = _
    rw [hvalue, hsplit]
    exact List.drop_left' List.length_append
  exact text_of_drop hdrop fun hmem => hnot (List.mem_append_right _ (List.mem_cons_of_mem _ hmem))

theorem Env.Sound.value_eq (hs : s.Sound) (name : Text) : s.value name = lookup name s.texts := by
  have hfind : getenv_from_env s name =
      (s.entries.find? fun p => HasName name (text s.mem p)).map (· + (name.length + 1)) := by
    rw [getenv_from_env]
    by_cases h : s.environ = 0
    · rw [if_neg (not_not_intro h), entries_of_zero h]
      rfl
    · rw [if_pos h]
      exact findValue_eq s.mem name s.words
  rw [Env.value, hfind, lookup, Env.texts, List.find?_map]
  change _ = Option.map _ (Option.map _ (s.entries.find? fun p => HasName name (text s.mem p)))
  cases hp : s.entries.find? fun p => HasName name (text s.mem p) with
  | none => rfl
  | some p =>
    have hhas : HasName name (text s.mem p) := by simpa using List.find?_some hp
    exact congrArg some (text_value (hs.strings p (List.mem_of_find?_eq_some hp)) hhas)

theorem resize_eq {words entries : List ℕ} {n : ℕ} (junk : ℕ) (h : words.take n = entries) (hn : entries.length = n) :
    ∃ x y, resize (n + 2) junk words = entries ++ [x, y] := by
  have hlen : (resize (n + 2) junk words).length = n + 2 := by
    rw [resize, List.length_take, List.length_append, List.length_replicate]
    omega
  have hle : n ≤ words.length := by
    rw [← h, List.length_take] at hn
    omega
  have htake : (resize (n + 2) junk words).take n = entries := by
    rw [resize, List.take_take, Nat.min_eq_left (by omega), List.take_append_of_le_length hle, h]
  have hdrop : ((resize (n + 2) junk words).drop n).length = 2 := by
    rw [List.length_drop, hlen]
    omega
  obtain ⟨x, y, hxy⟩ := List.length_eq_two.mp hdrop
  refine ⟨x, y, ?_⟩
  rw [← htake, ← hxy, List.take_append_drop]

variable {o : Outcome}

/-- **The vector grows**, or there is no memory for it. It is a new one, the library's own one at its place, or the
library's own one at another place; in front of the two slots more there are the strings. -/
theorem growVector_cases {size : ℕ} (hfresh : o.Fresh size s) :
    growVector o s.entries.length s = none ∨ ∃ new x y, new ≠ 0 ∧
      (s.environ ≠ s.last_environ ∧ s.vec new = none ∧
        growVector o s.entries.length s =
          some (new, Function.update s.vec new (some (s.entries ++ [x, y]))) ∨
      s.environ = s.last_environ ∧ s.environ ≠ 0 ∧ new = s.environ ∧ (∀ to_, o.realloc ≠ .moves to_) ∧
        growVector o s.entries.length s =
          some (new, Function.update s.vec new (some (s.entries ++ [x, y]))) ∨
      s.environ = s.last_environ ∧ s.vec new = none ∧ o.realloc = .moves new ∧
        growVector o s.entries.length s =
          some (new, Function.update (Function.update s.vec s.last_environ none) new (some (s.entries ++ [x, y])))) := by
  have hwords : s.words.take s.entries.length = s.entries :=
    (List.prefix_iff_eq_take.mp (List.takeWhile_prefix _)).symm
  rw [growVector]
  by_cases hown : s.environ = s.last_environ
  · rw [if_pos hown]
    obtain ⟨x, y, hxy⟩ := resize_eq o.junk hwords rfl
    rw [hxy]
    cases hrealloc : o.realloc with
    | fails => exact Or.inl rfl
    | stays =>
      have hne := hfresh.stays hrealloc
      exact Or.inr ⟨s.last_environ, x, y, hne, Or.inr (Or.inl ⟨hown, hown ▸ hne, hown.symm, nofun, rfl⟩)⟩
    | moves to_ =>
      obtain ⟨hne, hnone⟩ := hfresh.moves to_ hrealloc
      exact Or.inr ⟨to_, x, y, hne, Or.inr (Or.inr ⟨hown, hnone, rfl, rfl⟩)⟩
  · rw [if_neg hown]
    have htake : (s.words.take s.entries.length).take s.entries.length = s.entries := by
      rw [List.take_take, Nat.min_self, hwords]
    obtain ⟨x, y, hxy⟩ := resize_eq o.junk htake rfl
    rw [hxy]
    cases hvector : o.vector with
    | none => exact Or.inl rfl
    | some to_ =>
      obtain ⟨hne, hnone⟩ := hfresh.vector to_ hvector
      exact Or.inr ⟨to_, x, y, hne, Or.inl ⟨hown, hnone, rfl⟩⟩

theorem set_length {α : Type} (front : List α) (x a : α) (rest : List α) :
    (front ++ x :: rest).set front.length a = front ++ a :: rest := by
  rw [List.set_append_right _ _ (Nat.le_refl _), Nat.sub_self]
  rfl

variable {vec : ℕ → Option (List ℕ)}

theorem publish_words {new x y p : ℕ} {entries : List ℕ} (s : Env) (hnew : new ≠ 0)
    (hvec : vec new = some (entries ++ [x, y])) :
    (publish new vec entries.length p s).vec new = some (entries ++ [p, 0]) ∧
      (publish new vec entries.length p s).words = entries ++ [p, 0] := by
  have hset : (publish new vec entries.length p s).vec new = some (entries ++ [p, 0]) := by
    change setSlot (setSlot vec new entries.length p) new (entries.length + 1) 0 new = _
    have hsecond := set_length (entries ++ [p]) y 0 []
    rw [List.length_append, List.length_singleton, List.append_assoc] at hsecond
    rw [setSlot, Function.update_self, setSlot, Function.update_self, hvec, Option.map_some, Option.map_some,
      set_length entries x p [y]]
    refine congrArg some (hsecond.trans ?_)
    rw [List.append_assoc]
    rfl
  refine ⟨hset, ?_⟩
  have hwords : (publish new vec entries.length p s).words =
      if new = 0 then [] else ((publish new vec entries.length p s).vec new).getD [] := rfl
  rw [hwords, if_neg hnew, hset]
  rfl

theorem takeWhile_entries {entries behind : List ℕ} (h : ∀ p ∈ entries, p ≠ 0) :
    (entries ++ 0 :: behind).takeWhile (· ≠ 0) = entries := by
  rw [List.takeWhile_append_of_pos fun p hp => decide_eq_true (h p hp), List.takeWhile_cons_of_neg (by simp),
    List.append_nil]

theorem sound_of_vector {entries behind : List ℕ} (henv : s.environ ≠ 0)
    (hvec : s.vec s.environ = some (entries ++ 0 :: behind)) (hne : ∀ p ∈ entries, p ≠ 0)
    (hstrings : ∀ p ∈ entries, 0 ∈ s.mem.drop p)
    (hlast : s.last_environ ≠ 0 → ∃ words, s.vec s.last_environ = some words) :
    s.Sound ∧ s.entries = entries := by
  have hentries : s.entries = entries := by
    rw [Env.entries, Env.words, if_neg henv, hvec]
    exact takeWhile_entries hne
  refine ⟨⟨fun _ => ⟨_, hvec, List.mem_append_right _ List.mem_cons_self⟩, ?_, hlast⟩, hentries⟩
  rw [hentries]
  exact hstrings

/-! ### A new name -/

theorem publish_sound {new x y p : ℕ} {mem : List UInt8}
    (hnew : new ≠ 0) (hvec : vec new = some (s.entries ++ [x, y])) (hp : p ≠ 0) (hstring : 0 ∈ mem.drop p)
    (hold : ∀ q ∈ s.entries, text mem q = text s.mem q ∧ 0 ∈ mem.drop q) :
    (publish new vec s.entries.length p { s with mem := mem }).Sound ∧
      (publish new vec s.entries.length p { s with mem := mem }).texts = s.texts ++ [text mem p] := by
  obtain ⟨hslots, -⟩ := publish_words (p := p) { s with mem := mem } hnew hvec
  have hslots' : (publish new vec s.entries.length p { s with mem := mem }).vec new =
      some ((s.entries ++ [p]) ++ 0 :: []) := by
    rw [hslots, List.append_assoc]
    rfl
  obtain ⟨hsound, hentries⟩ := sound_of_vector (s := publish new vec s.entries.length p { s with mem := mem })
    hnew hslots'
    (List.forall_mem_append.mpr ⟨fun q hq => ne_zero_of_mem_entries hq, List.forall_mem_singleton.mpr hp⟩)
    (List.forall_mem_append.mpr ⟨fun q hq => (hold q hq).2, List.forall_mem_singleton.mpr hstring⟩)
    fun _ => ⟨_, hslots⟩
  refine ⟨hsound, ?_⟩
  rw [Env.texts, hentries, List.map_append]
  refine congrArg (· ++ [text mem p]) (List.map_congr_left fun q hq => (hold q hq).1)

theorem lookup_eq_none {name : Text} {texts : List Text} (h : ∀ entry ∈ texts, ¬HasName name entry) :
    lookup name texts = none := by
  have hnone : texts.find? (fun entry => HasName name entry) = none :=
    List.find?_eq_none.mpr fun entry hentry => by simpa using h entry hentry
  rw [lookup, hnone]
  rfl

theorem assigned_of_concat {s s' : Env} (hs : s.Sound) (hs' : s'.Sound) (hname : EQUALS ∉ name)
    (hnone : ∀ entry ∈ s.texts, ¬HasName name entry) (h : s'.texts = s.texts ++ [assignment name value]) :
    Assigned name value s s' := by
  refine ⟨?_, ?_⟩
  · rw [hs'.value_eq, h, lookup_concat hnone]
  · intro other hother hne
    rw [hs'.value_eq, hs.value_eq, h]
    exact lookup_concat_other (not_hasName_of_ne hname hother hne (hasName_assignment name value))

theorem Env.Sound.unchanged (hs : s.Sound) : Unchanged s s := ⟨rfl, rfl, rfl, rfl, hs⟩

theorem unchanged_of_zero (henv : s.environ = 0) (hlast : s.last_environ = 0) :
    Unchanged s { s with vec := vec } := by
  have hbefore := entries_of_zero henv
  have hbehind : Env.entries { s with vec := vec } = [] := entries_of_zero henv
  refine ⟨rfl, rfl, hbehind.trans hbefore.symm, ?_, ⟨fun h => absurd henv h, ?_, fun h => absurd hlast h⟩⟩
  · rw [Env.texts, Env.texts, hbefore, hbehind]
  · rw [hbehind]
    exact List.forall_mem_nil _

theorem addNew_string {size p : ℕ} (name value : Text) (hs : s.Sound)
    (hfresh : o.Fresh size s) (hp : p ≠ 0) (hstring : 0 ∈ s.mem.drop p) :
    addNew o (some p) name value s.entries.length s = (-1, s) ∨
      ∃ s', addNew o (some p) name value s.entries.length s = (0, s') ∧ s'.Sound ∧
        s'.texts = s.texts ++ [text s.mem p] := by
  rw [addNew]
  obtain hnone | ⟨new, x, y, hnew, hcases⟩ := growVector_cases hfresh
  · rw [hnone]
    exact Or.inl rfl
  · obtain ⟨vec, hgrow, hvec⟩ : ∃ vec, growVector o s.entries.length s = some (new, vec) ∧
        vec new = some (s.entries ++ [x, y]) := by
      obtain ⟨-, -, hgrow⟩ | ⟨-, -, -, -, hgrow⟩ | ⟨-, -, -, hgrow⟩ := hcases
      · exact ⟨_, hgrow, Function.update_self ..⟩
      · exact ⟨_, hgrow, Function.update_self ..⟩
      · exact ⟨_, hgrow, Function.update_self ..⟩
    rw [hgrow]
    have hold : ∀ q ∈ s.entries, text s.mem q = text s.mem q ∧ 0 ∈ s.mem.drop q := fun q hq => ⟨rfl, hs.strings q hq⟩
    exact Or.inr ⟨_, rfl, publish_sound hnew hvec hp hstring hold⟩

theorem Outcome.Fresh.write (hs : s.Sound)
    (hfresh : o.Fresh (name.length + value.length + 2) s) (hp : o.string = some p) (hname : 0 ∉ name)
    (hvalue : 0 ∉ value) :
    p ≠ 0 ∧ text (Environ.write s.mem p (assignment name value ++ [0])) p = assignment name value ∧
      0 ∈ (Environ.write s.mem p (assignment name value ++ [0])).drop p ∧
      ∀ q ∈ s.entries, text (Environ.write s.mem p (assignment name value ++ [0])) q = text s.mem q ∧
        0 ∈ (Environ.write s.mem p (assignment name value ++ [0])).drop q := by
  obtain ⟨hne, hroom, hapart⟩ := hfresh.string p hp
  have hlen : (assignment name value).length + 1 = name.length + value.length + 2 := by
    rw [assignment, List.length_append, List.length_cons]
    omega
  have hlen' : (assignment name value ++ [0]).length = name.length + value.length + 2 :=
    (List.length_append).trans hlen
  have hnot : 0 ∉ assignment name value := by
    rw [assignment, List.mem_append, List.mem_cons]
    rintro (h | h | h)
    · exact hname h
    · exact absurd h (by decide)
    · exact hvalue h
  obtain ⟨htext, hend⟩ := text_write_self hnot (Nat.le_trans (Nat.le_of_eq (congrArg (p + ·) hlen)) hroom)
  refine ⟨hne, htext, hend, fun q hq => ?_⟩
  have hroom' : p + (assignment name value ++ [0]).length ≤ s.mem.length := by
    rw [hlen']
    exact hroom
  refine text_write_apart (hs.strings q hq) hroom' ?_
  rw [hlen']
  exact hapart q hq

/-- **The vector is lost**: it is at another place, and `environ` is where it was. -/
theorem addNew_lost {size : ℕ} (name value : Text) (hs : s.Sound) (hfresh : o.Fresh size s)
    (hown : s.environ = s.last_environ) (henv : s.environ ≠ 0) (hmoves : ∃ to_, o.realloc = .moves to_)
    (hstring : o.string = none) :
    ∃ s', addNew o none name value s.entries.length s = (-1, s') ∧ s'.environ = s.environ ∧
      s'.vec s.environ = none := by
  obtain ⟨to_, hto⟩ := hmoves
  have hvec := (hs.words_eq henv).1
  have hne : s.environ ≠ to_ := by
    intro h
    rw [h, (hfresh.moves to_ hto).2] at hvec
    cases hvec
  rw [addNew, growVector, if_pos hown, hto, hstring]
  refine ⟨_, rfl, rfl, ?_⟩
  dsimp only
  rw [if_neg (not_not_intro hown), setSlot, Function.update_of_ne hne, Function.update_of_ne hne, hown,
    Function.update_self]

/-- **A copy is added**, or the environment is what it was, if the vector is not lost. -/
theorem addNew_copy (hs : s.Sound)
    (hfresh : o.Fresh (name.length + value.length + 2) s) (hname : 0 ∉ name) (hvalue : 0 ∉ value)
    (hkept : ¬(s.environ = s.last_environ ∧ s.environ ≠ 0 ∧ (∃ to_, o.realloc = .moves to_) ∧ o.string = none)) :
    (∃ s', addNew o none name value s.entries.length s = (-1, s') ∧ Unchanged s s') ∨
      ∃ s', addNew o none name value s.entries.length s = (0, s') ∧ s'.Sound ∧
        s'.texts = s.texts ++ [assignment name value] := by
  rw [addNew]
  obtain hnone | ⟨new, x, y, hnew, hcases⟩ := growVector_cases hfresh
  · rw [hnone]
    exact Or.inl ⟨s, rfl, hs.unchanged⟩
  · cases hstring : o.string with
    | some p =>
      obtain ⟨vec, hgrow, hvec⟩ : ∃ vec, growVector o s.entries.length s = some (new, vec) ∧
          vec new = some (s.entries ++ [x, y]) := by
        obtain ⟨-, -, hgrow⟩ | ⟨-, -, -, -, hgrow⟩ | ⟨-, -, -, hgrow⟩ := hcases
        · exact ⟨_, hgrow, Function.update_self ..⟩
        · exact ⟨_, hgrow, Function.update_self ..⟩
        · exact ⟨_, hgrow, Function.update_self ..⟩
      obtain ⟨hp, htext, hend, hold⟩ := hfresh.write hs hstring hname hvalue
      rw [hgrow]
      refine Or.inr ⟨_, rfl, ?_⟩
      have hsound := publish_sound hnew hvec hp hend hold
      rw [htext] at hsound
      exact hsound
    | none =>
      obtain ⟨hown, hfree, hgrow⟩ | ⟨hown, henv, rfl, -, hgrow⟩ | ⟨hown, hfree, hmoves, hgrow⟩ := hcases
      · -- the new vector is freed again
        rw [hgrow]
        refine Or.inl ⟨s, Prod.ext rfl ?_, hs.unchanged⟩
        change { s with vec := if s.environ ≠ s.last_environ then _ else _ } = s
        rw [if_pos hown, setSlot, Function.update_idem, Function.update_idem]
        rw [← hfree, Function.update_eq_self]
      · -- the library's own vector, with a slot more
        rw [hgrow]
        have hslots : setSlot (Function.update s.vec s.environ (some (s.entries ++ [x, y]))) s.environ
            s.entries.length 0 s.environ = some (s.entries ++ 0 :: [y]) := by
          rw [setSlot, Function.update_self, Function.update_self, Option.map_some, set_length s.entries x 0 [y]]
        refine Or.inl ⟨_, rfl, ?_⟩
        rw [if_neg (not_not_intro hown)]
        generalize setSlot (Function.update s.vec s.environ (some (s.entries ++ [x, y]))) s.environ
          s.entries.length 0 = vec at hslots
        obtain ⟨hsound, hentries⟩ := sound_of_vector (s := { s with vec := vec }) henv hslots
          (fun q hq => ne_zero_of_mem_entries hq) hs.strings (fun _ => ⟨_, hown ▸ hslots⟩)
        exact ⟨rfl, rfl, hentries, congrArg (List.map (text s.mem)) hentries, hsound⟩
      · -- the first vector of all
        have henv : s.environ = 0 := by
          by_contra henv
          exact hkept ⟨hown, henv, ⟨new, hmoves⟩, hstring⟩
        rw [hgrow]
        exact Or.inl ⟨_, rfl, unchanged_of_zero henv (hown.symm.trans henv)⟩

/-! ### A name that is there -/

theorem forall₂_replaces_refl (name : Text) (texts : List Text) : List.Forall₂ (Replaces name) texts texts := by
  induction texts with
  | nil => exact .nil
  | cons entry texts ih => exact .cons (Or.inl rfl) ih

theorem assigned_of_replaced {name value old : Text} {front behind behind' : List Text} {s s' : Env} (hs : s.Sound)
    (hs' : s'.Sound) (hname : EQUALS ∉ name) (htexts : s.texts = front ++ old :: behind)
    (htexts' : s'.texts = front ++ assignment name value :: behind') (hold : HasName name old)
    (hfront : ∀ entry ∈ front, ¬HasName name entry) (hbehind : List.Forall₂ (Replaces name) behind behind') :
    Assigned name value s s' := by
  refine ⟨?_, fun other hother hne => ?_⟩
  · rw [hs'.value_eq, htexts', lookup_first hfront]
  · rw [hs'.value_eq, hs.value_eq, htexts, htexts']
    refine lookup_replaced hname hother hne ?_
    exact List.rel_append (forall₂_replaces_refl name front)
      (.cons (Or.inr ⟨hold, hasName_assignment name value⟩) hbehind)

theorem Env.Sound.split {front behind : List ℕ} (hs : s.Sound) (henv : s.environ ≠ 0)
    (hwords : s.words = front ++ p :: behind) (hp : p ≠ 0) (hfront : ∀ q ∈ front, q ≠ 0) :
    ∃ more rest, s.vec s.environ = some (front ++ p :: (more ++ 0 :: rest)) ∧ s.entries = front ++ p :: more := by
  obtain ⟨hvec, hmem⟩ := hs.words_eq henv
  rw [hwords] at hvec hmem
  have hbehind : 0 ∈ behind := by
    obtain h | h := List.mem_append.mp hmem
    · exact absurd rfl (hfront 0 h)
    · exact (List.mem_cons.mp h).resolve_left (Ne.symm hp)
  obtain ⟨more, rest, rfl, hmore⟩ : ∃ more rest, behind = more ++ 0 :: rest ∧ ∀ q ∈ more, q ≠ 0 := by
    obtain ⟨more, rest, heq, hnot⟩ := List.eq_append_cons_of_mem hbehind
    exact ⟨more, rest, heq, fun q hq h => hnot (h ▸ hq)⟩
  refine ⟨more, rest, hvec, ?_⟩
  have hsplit : front ++ p :: (more ++ 0 :: rest) = (front ++ p :: more) ++ 0 :: rest := by
    rw [List.append_assoc]
    rfl
  rw [Env.entries, hwords, hsplit]
  exact takeWhile_entries (List.forall_mem_append.mpr ⟨hfront, List.forall_mem_cons.mpr ⟨hp, hmore⟩⟩)

theorem setSlot_sound {front more rest : List ℕ} {p q : ℕ} {mem : List UInt8} (hs : s.Sound)
    (henv : s.environ ≠ 0) (hvec : s.vec s.environ = some (front ++ p :: (more ++ 0 :: rest)))
    (hentries : s.entries = front ++ p :: more) (hq : q ≠ 0) (hstring : 0 ∈ mem.drop q)
    (hold : ∀ e ∈ s.entries, text mem e = text s.mem e ∧ 0 ∈ mem.drop e) :
    Env.Sound { s with vec := setSlot s.vec s.environ front.length q, mem := mem } ∧
      Env.texts { s with vec := setSlot s.vec s.environ front.length q, mem := mem } =
        front.map (text s.mem) ++ text mem q :: more.map (text s.mem) := by
  have hslots : setSlot s.vec s.environ front.length q s.environ = some ((front ++ q :: more) ++ 0 :: rest) := by
    rw [setSlot, Function.update_self, hvec, Option.map_some, set_length, List.append_assoc]
    rfl
  have hne {e : ℕ} (he : e ∈ front ++ p :: more) : e ≠ 0 := ne_zero_of_mem_entries (hentries ▸ he)
  have hkept {e : ℕ} (he : e ∈ front ++ p :: more) : text mem e = text s.mem e ∧ 0 ∈ mem.drop e :=
    hold e (hentries ▸ he)
  have hinFront {e : ℕ} (he : e ∈ front) : e ∈ front ++ p :: more := List.mem_append_left _ he
  have hinMore {e : ℕ} (he : e ∈ more) : e ∈ front ++ p :: more :=
    List.mem_append_right _ (List.mem_cons_of_mem _ he)
  obtain ⟨hsound, hnew⟩ := sound_of_vector
    (s := { s with vec := setSlot s.vec s.environ front.length q, mem := mem }) henv hslots
    (List.forall_mem_append.mpr ⟨fun e he => hne (hinFront he), List.forall_mem_cons.mpr ⟨hq, fun e he => hne (hinMore he)⟩⟩)
    (List.forall_mem_append.mpr ⟨fun e he => (hkept (hinFront he)).2,
      List.forall_mem_cons.mpr ⟨hstring, fun e he => (hkept (hinMore he)).2⟩⟩)
    (fun hlast => by
      change ∃ words, setSlot s.vec s.environ front.length q s.last_environ = some words
      by_cases h : s.last_environ = s.environ
      · rw [h]
        exact ⟨_, hslots⟩
      · rw [setSlot, Function.update_of_ne h]
        exact hs.last hlast)
  refine ⟨hsound, ?_⟩
  rw [Env.texts, hnew, List.map_append, List.map_cons]
  congr 1
  · exact List.map_congr_left fun e he => (hkept (hinFront he)).1
  · exact congrArg _ (List.map_congr_left fun e he => (hkept (hinMore he)).1)

/-- **The value is written over the old one**; where the same string is in the vector twice, it is so in both
places. -/
theorem overwrite_assigned {front more rest : List ℕ} (hs : s.Sound)
    (hvec : s.vec s.environ = some (front ++ p :: (more ++ 0 :: rest)))
    (hentries : s.entries = front ++ p :: more) (hname : EQUALS ∉ name) (hvalue : 0 ∉ value)
    (hfound : HasName name (text s.mem p)) (hfront : ∀ q ∈ front, ¬HasName name (text s.mem q))
    (hroom : name.length + 1 + value.length ≤ (text s.mem p).length) (hspares : ∀ q ∈ s.entries, q ≠ p →
      Apart q ((text s.mem q).length + 1) (p + (name.length + 1)) (value.length + 1)) :
    Env.Sound { s with mem := write s.mem p (assignment name value ++ [0]) } ∧
      Assigned name value s { s with mem := write s.mem p (assignment name value ++ [0]) } := by
  have hpmem : p ∈ s.entries := by
    rw [hentries]
    exact List.mem_append_right _ List.mem_cons_self
  obtain ⟨old, hold⟩ := hasName_iff.mp hfound
  obtain ⟨tail, htail⟩ := exists_of_zero_mem (hs.strings p hpmem)
  have hnot : 0 ∉ assignment name value := by
    have hall := zero_notMem_text s.mem p
    rw [hold, assignment, List.mem_append, List.mem_cons, not_or, not_or] at hall
    rw [assignment, List.mem_append, List.mem_cons, not_or, not_or]
    exact ⟨hall.1, hall.2.1, hvalue⟩
  have hlen : (assignment name value).length = name.length + 1 + value.length := by
    rw [assignment, List.length_append, List.length_cons]
    omega
  have hmem : p + ((text s.mem p).length + 1) ≤ s.mem.length := by
    have hdrop := congrArg List.length htail
    change (s.mem.drop p).length = (text s.mem p ++ 0 :: tail).length at hdrop
    rw [List.length_drop, List.length_append, List.length_cons] at hdrop
    omega
  have hroom' : p + ((assignment name value).length + 1) ≤ s.mem.length := by omega
  obtain ⟨htext, hend⟩ := text_write_self hnot hroom'
  -- the name in front of the value is written over itself
  have hsplit : s.mem.drop p = (name ++ [EQUALS]) ++ (old ++ 0 :: tail) := by
    rw [htail]
    change text s.mem p ++ 0 :: tail = _
    rw [hold]
    simp [assignment]
  have hsame : write s.mem p (assignment name value ++ [0]) =
      write s.mem (p + (name.length + 1)) (value ++ [0]) := by
    have hassign : assignment name value ++ [0] = (name ++ [EQUALS]) ++ (value ++ [0]) := by simp [assignment]
    rw [hassign, write_front hsplit, List.length_append]
    rfl
  have hothers {q : ℕ} (hq : q ∈ s.entries) (hne : q ≠ p) :
      text (write s.mem p (assignment name value ++ [0])) q = text s.mem q ∧
        0 ∈ (write s.mem p (assignment name value ++ [0])).drop q := by
    rw [hsame]
    refine text_write_apart (hs.strings q hq) ?_ ?_
    · rw [List.length_append, List.length_singleton]
      omega
    · rw [List.length_append, List.length_singleton]
      exact hspares q hq hne
  generalize write s.mem p (assignment name value ++ [0]) = mem at htext hend hothers
  have hsound : Env.Sound { s with mem := mem } := by
    refine ⟨hs.vector, fun q hq => ?_, hs.last⟩
    by_cases hne : q = p
    · exact hne ▸ hend
    · exact (hothers hq hne).2
  refine ⟨hsound, ?_⟩
  have hinFront {q : ℕ} (hq : q ∈ front) : q ∈ s.entries := by
    rw [hentries]
    exact List.mem_append_left _ hq
  have htexts : s.texts = front.map (text s.mem) ++ text s.mem p :: more.map (text s.mem) := by
    rw [Env.texts, hentries, List.map_append, List.map_cons]
  have hmap : front.map (text mem) = front.map (text s.mem) := by
    refine List.map_congr_left fun q hq => (hothers (hinFront hq) ?_).1
    rintro rfl
    exact hfront q hq hfound
  have htexts' : Env.texts { s with mem := mem } =
      front.map (text s.mem) ++ assignment name value :: more.map (text mem) :=
    calc Env.texts { s with mem := mem }
        = s.entries.map (text mem) := rfl
      _ = front.map (text mem) ++ text mem p :: more.map (text mem) := by
        rw [hentries, List.map_append, List.map_cons]
      _ = front.map (text s.mem) ++ assignment name value :: more.map (text mem) := by rw [hmap, htext]
  refine assigned_of_replaced hs hsound hname htexts htexts' hfound (List.forall_mem_map.mpr hfront) ?_
  rw [List.forall₂_map_left_iff, List.forall₂_map_right_iff, List.forall₂_same]
  intro q hq
  have hq' : q ∈ s.entries := by
    rw [hentries]
    exact List.mem_append_right _ (List.mem_cons_of_mem _ hq)
  by_cases hne : q = p
  · rw [hne]
    exact Or.inr ⟨hfound, htext ▸ hasName_assignment name value⟩
  · exact Or.inl (hothers hq' hne).1

/-! ### The calls -/

theorem getD_length {α : Type} (front : List α) (x : α) (rest : List α) (d : α) :
    (front ++ x :: rest).getD front.length d = x := by
  rw [List.getD_eq_getElem?_getD, List.getElem?_append_right (Nat.le_refl _), Nat.sub_self]
  rfl

/-- **What a search leads to**: the name is new, or its first string is found. -/
theorem addNamed_cases (hs : s.Sound) (name : Text) :
    ((∀ p ∈ s.entries, ¬HasName name (text s.mem p)) ∧ ∀ o string value replace,
      addNamed o string name value replace s = addNew o string name value s.entries.length s) ∨
    ∃ front p more rest, s.environ ≠ 0 ∧ s.vec s.environ = some (front ++ p :: (more ++ 0 :: rest)) ∧
      s.entries = front ++ p :: more ∧ HasName name (text s.mem p) ∧
      (∀ q ∈ front, ¬HasName name (text s.mem q)) ∧ ∀ o string value replace,
        addNamed o string name value replace s =
          if replace then replaceOld o string name value front.length p s else (0, s) := by
  by_cases henv : s.environ = 0
  · have hwords : s.words = [] := if_pos henv
    refine Or.inl ⟨by rw [entries_of_zero henv]; exact List.forall_mem_nil _, fun o string value replace => ?_⟩
    rw [addNamed, hwords, if_pos (Or.inl henv), entries_of_zero henv]
    rfl
  · obtain ⟨hvec, hmem⟩ := hs.words_eq henv
    obtain ⟨behind, hwords, hsearch, hnone⟩ | ⟨front, p, behind, hwords, hsearch, hp, hhas, hfront⟩ :=
      search_cases s.mem name hmem
    · refine Or.inl ⟨hnone, fun o string value replace => ?_⟩
      have hend := getD_length (s.words.takeWhile (· ≠ 0)) 0 behind 0
      rw [← hwords] at hend
      rw [addNamed, hsearch, hend, if_pos (Or.inr rfl)]
      rfl
    · obtain ⟨more, rest, hslots, hentries⟩ := hs.split henv hwords hp fun q hq => (hfront q hq).1
      refine Or.inr ⟨front, p, more, rest, henv, hslots, hentries, hhas, fun q hq => (hfront q hq).2, ?_⟩
      intro o string value replace
      have hold : s.words.getD front.length 0 = p := by
        rw [hwords]
        exact getD_length front p behind 0
      rw [addNamed, hsearch, hold, if_neg (not_or_intro henv hp)]

theorem not_hasName_texts {name : Text} :
    (∀ entry ∈ s.texts, ¬HasName name entry) ↔ ∀ p ∈ s.entries, ¬HasName name (text s.mem p) :=
  List.forall_mem_map

theorem right_of_unchanged {call : Call} {s s' : Env} (h : Unchanged s s') : call.Right s (-1, s') :=
  ⟨Or.inr rfl, h.sound, fun _ => h, nofun⟩

theorem right_of_done {call : Call} {s s' : Env} (hs : s'.Sound) (h : call.Done s s') : call.Right s (0, s') :=
  ⟨Or.inl rfl, hs, nofun, fun _ => h⟩

theorem setenv_right {replace : Bool} (hs : s.Sound)
    (hlegal : (Call.setenv name value replace).Legal s) (hfresh : o.Fresh (name.length + value.length + 2) s)
    (hspares : (Call.setenv name value replace).SparesOthers s) (hkept : ¬(Call.setenv name value replace).Lost o s) :
    (Call.setenv name value replace).Right s (setenv o name value replace s) := by
  obtain ⟨⟨hzero, -⟩, hvalue⟩ := hlegal
  rw [setenv]
  by_cases hname : EQUALS ∈ name
  · rw [if_pos hname]
    exact right_of_unchanged hs.unchanged
  · rw [if_neg hname, addenv_to_env]
    obtain ⟨hnone, hadd⟩ | ⟨front, p, more, rest, henv, hvec, hentries, hfound, hfront, hadd⟩ := addNamed_cases hs name
    · -- a new name
      rw [hadd]
      have hnone' := not_hasName_texts.mpr hnone
      have hwas : s.value name = none := by rw [hs.value_eq, lookup_eq_none hnone']
      obtain ⟨s', hrun, hsame⟩ | ⟨s', hrun, hsound, htexts⟩ :=
        addNew_copy hs hfresh hzero hvalue fun h => hkept ⟨hname, hnone', h⟩
      · rw [hrun]
        exact right_of_unchanged hsame
      · rw [hrun]
        refine right_of_done hsound ?_
        change Assigned name (if replace then value else (s.value name).getD value) s s'
        rw [hwas, Option.getD_none, ite_self]
        exact assigned_of_concat hs hsound hname hnone' htexts
    · -- the name is there
      have htexts : s.texts = front.map (text s.mem) ++ text s.mem p :: more.map (text s.mem) := by
        rw [Env.texts, hentries, List.map_append, List.map_cons]
      have hfront' : ∀ entry ∈ front.map (text s.mem), ¬HasName name entry := List.forall_mem_map.mpr hfront
      obtain ⟨old, hold⟩ := hasName_iff.mp hfound
      rw [hadd]
      cases replace with
      | false =>
        refine right_of_done hs ?_
        change Assigned name ((s.value name).getD value) s s
        have hwas : s.value name = some old := by rw [hs.value_eq, htexts, hold, lookup_first hfront']
        rw [hwas]
        exact ⟨hwas, fun _ _ _ => rfl⟩
      | true =>
        rw [if_pos rfl, replaceOld]
        by_cases hshort : (text s.mem p).length < name.length + 1 + value.length
        · rw [if_pos hshort]
          cases hstring : o.string with
          | none => exact right_of_unchanged hs.unchanged
          | some q =>
            obtain ⟨hq, htext, hend, hothers⟩ := hfresh.write hs hstring hzero hvalue
            obtain ⟨hsound, hnew⟩ := setSlot_sound hs henv hvec hentries hq hend hothers
            refine right_of_done hsound ?_
            rw [htext] at hnew
            exact assigned_of_replaced hs hsound hname htexts hnew hfound hfront' (forall₂_replaces_refl name _)
        · rw [if_neg hshort]
          have hfind : (s.entries.find? fun p => HasName name (text s.mem p)) = some p := by
            have hnone : front.find? (fun p => HasName name (text s.mem p)) = none :=
              List.find?_eq_none.mpr fun q hq => by simpa using hfront q hq
            rw [hentries, List.find?_append, hnone, Option.none_or, List.find?_cons_of_pos (by simpa using hfound)]
          have hroom := Nat.le_of_not_lt hshort
          obtain ⟨hsound, hdone⟩ := overwrite_assigned hs hvec hentries hname hvalue hfound hfront hroom
            (hspares hname p hfind hroom)
          exact right_of_done hsound hdone

/-- **`setenv`, if the vector is lost**: it returns -1, and `environ` is no vector. -/
theorem setenv_lost {size : ℕ} {replace : Bool} (hs : s.Sound)
    (hfresh : o.Fresh size s) (hlost : (Call.setenv name value replace).Lost o s) :
    ¬(Call.setenv name value replace).Right s (setenv o name value replace s) := by
  obtain ⟨hname, hnone, hown, henv, hmoves, hstring⟩ := hlost
  obtain ⟨-, hadd⟩ | ⟨front, p, more, rest, -, -, hentries, hfound, -, -⟩ := addNamed_cases hs name
  · obtain ⟨s', hrun, henv', hdead⟩ := addNew_lost name value hs hfresh hown henv hmoves hstring
    rw [setenv, if_neg hname, addenv_to_env, hadd, hrun]
    intro hright
    obtain ⟨words, hlive, -⟩ := hright.sound.vector (henv'.symm ▸ henv)
    rw [henv', hdead] at hlive
    cases hlive
  · have hmem : p ∈ s.entries := by
      rw [hentries]
      exact List.mem_append_right _ List.mem_cons_self
    exact absurd hfound (not_hasName_texts.mp hnone p hmem)

/-! ### `unsetenv` -/

theorem moveBack_eq (p : ℕ) {entries : List ℕ} (rest : List ℕ) (h : ∀ q ∈ entries, q ≠ 0) :
    moveBack (p :: (entries ++ 0 :: rest)) = entries ++ 0 :: 0 :: rest := by
  induction entries generalizing p with
  | nil => rw [List.nil_append, moveBack, if_pos rfl]; rfl
  | cons q entries ih =>
    obtain ⟨hq, hentries⟩ := List.forall_mem_cons.mp h
    rw [List.cons_append, moveBack, if_neg hq, ih q hentries]
    rfl

/-- **The loop takes out the strings of the name**; in every turn there is one string less in front of it. -/
theorem unsetFrom_eq (mem : List UInt8) (name : Text) {turns : ℕ} {entries : List ℕ} (rest : List ℕ)
    (hturns : entries.length ≤ turns) (h : ∀ q ∈ entries, q ≠ 0) :
    ∃ rest', unsetFrom mem name turns (entries ++ 0 :: rest) =
      (entries.filter fun q => ¬HasName name (text mem q)) ++ 0 :: rest' := by
  induction turns generalizing entries rest with
  | zero =>
    obtain rfl := List.length_eq_zero_iff.mp (Nat.le_zero.mp hturns)
    exact ⟨rest, rfl⟩
  | succ turns ih =>
    cases entries with
    | nil => exact ⟨rest, if_pos rfl⟩
    | cons p entries =>
      obtain ⟨hp, hentries⟩ := List.forall_mem_cons.mp h
      have hlen : entries.length ≤ turns := Nat.le_of_succ_le_succ hturns
      rw [List.cons_append, unsetFrom, if_neg hp]
      by_cases hname : HasName name (text mem p)
      · rw [if_pos hname, moveBack_eq p rest hentries, List.filter_cons_of_neg (by simpa using hname)]
        exact ih (0 :: rest) hlen hentries
      · rw [if_neg hname, List.filter_cons_of_pos (by simpa using hname)]
        obtain ⟨rest', heq⟩ := ih rest hlen hentries
        exact ⟨rest', congrArg (p :: ·) heq⟩

theorem unset_texts (name : Text) (hs : s.Sound) (henv : s.environ ≠ 0)
    (hvec : vec = Function.update s.vec s.environ (some (unsetFrom s.mem name s.words.length s.words))) :
    Env.Sound { s with vec := vec } ∧
      Env.texts { s with vec := vec } = s.texts.filter fun entry => ¬HasName name entry := by
  obtain ⟨-, hmem⟩ := hs.words_eq henv
  obtain ⟨entries, rest, hwords, hnot⟩ := List.eq_append_cons_of_mem hmem
  have hne : ∀ q ∈ entries, q ≠ 0 := fun q hq h => hnot (h ▸ hq)
  have hentries : s.entries = entries := by
    rw [Env.entries, hwords]
    exact takeWhile_entries hne
  have hlen : entries.length ≤ s.words.length := by
    rw [hwords, List.length_append]
    exact Nat.le_add_right _ _
  obtain ⟨rest', hunset⟩ := unsetFrom_eq s.mem name rest hlen hne
  rw [← hwords] at hunset
  rw [hunset] at hvec
  have hslots : vec s.environ = some ((entries.filter fun q => ¬HasName name (text s.mem q)) ++ 0 :: rest') := by
    rw [hvec, Function.update_self]
  have hlast (h : s.last_environ ≠ 0) : ∃ words, vec s.last_environ = some words := by
    rw [hvec]
    by_cases heq : s.last_environ = s.environ
    · rw [heq, Function.update_self]
      exact ⟨_, rfl⟩
    · rw [Function.update_of_ne heq]
      exact hs.last h
  obtain ⟨hsound, hnew⟩ := sound_of_vector (s := { s with vec := vec }) henv hslots
    (fun q hq => hne q (List.mem_of_mem_filter hq))
    (fun q hq => hs.strings q (hentries ▸ List.mem_of_mem_filter hq)) hlast
  refine ⟨hsound, ?_⟩
  rw [Env.texts, Env.texts, hnew, hentries, List.filter_map]
  rfl

/-- **`unsetenv`**: without an environment there is nothing to do. -/
theorem unsetenv_cases (name : Text) (hs : s.Sound) :
    unsetenv (some name) s = (-1, s) ∨
      ∃ s', unsetenv (some name) s = (0, s') ∧ s'.Sound ∧ Removed name s s' := by
  rw [unsetenv]
  by_cases hname : EQUALS ∈ name
  · exact Or.inl (if_pos hname)
  · have hremoved {s' : Env} (hsound : s'.Sound) (h : s'.texts = s.texts.filter fun entry => ¬HasName name entry) :
        Removed name s s' := by
      refine ⟨h, fun other hother hne => ?_⟩
      rw [hsound.value_eq, hs.value_eq, h]
      exact lookup_filter s.texts hname hother hne
    rw [if_neg hname]
    by_cases henv : s.environ = 0
    · rw [if_pos henv]
      refine Or.inr ⟨s, rfl, hs, hremoved hs ?_⟩
      rw [Env.texts, entries_of_zero henv]
      rfl
    · rw [if_neg henv]
      obtain ⟨hsound, htexts⟩ := unset_texts name hs henv rfl
      exact Or.inr ⟨_, rfl, hsound, hremoved hsound htexts⟩

theorem putenv_right {size p : ℕ} (hs : s.Sound) (hlegal : (Call.putenv p).Legal s)
    (hfresh : o.Fresh size s) : (Call.putenv p).Right s (putenv o p s) := by
  obtain ⟨hp, hstring, -⟩ := hlegal
  rw [putenv]
  by_cases hequals : EQUALS ∈ text s.mem p
  · rw [if_pos hequals, addenv_to_env, if_pos hequals]
    have hname := notMem_nameOf (text s.mem p)
    have hassign := assignment_nameOf hequals
    have hdone {s' : Env} (h : Assigned (nameOf (text s.mem p)) (valueOf (text s.mem p)) s s') :
        (Call.putenv p).Done s s' := by
      rw [Call.Done, if_pos hequals]
      exact h
    obtain ⟨hnone, hadd⟩ | ⟨front, q, more, rest, henv, hvec, hentries, hfound, hfront, hadd⟩ :=
      addNamed_cases hs (nameOf (text s.mem p))
    · rw [hadd]
      have hnone' := not_hasName_texts.mpr hnone
      obtain hrun | ⟨s', hrun, hsound, htexts⟩ :=
        addNew_string (nameOf (text s.mem p)) [] hs hfresh hp hstring
      · rw [hrun]
        exact right_of_unchanged hs.unchanged
      · rw [hrun]
        rw [hassign] at htexts
        exact right_of_done hsound (hdone (assigned_of_concat hs hsound hname hnone' htexts))
    · rw [hadd, if_pos rfl, replaceOld]
      have htexts : s.texts = front.map (text s.mem) ++ text s.mem q :: more.map (text s.mem) := by
        rw [Env.texts, hentries, List.map_append, List.map_cons]
      have hold : ∀ e ∈ s.entries, text s.mem e = text s.mem e ∧ 0 ∈ s.mem.drop e := fun e he => ⟨rfl, hs.strings e he⟩
      obtain ⟨hsound, hnew⟩ := setSlot_sound hs henv hvec hentries hp hstring hold
      rw [hassign] at hnew
      exact right_of_done hsound (hdone (assigned_of_replaced hs hsound hname htexts hnew hfound
        (List.forall_mem_map.mpr hfront) (forall₂_replaces_refl _ _)))
  · rw [if_neg hequals]
    obtain hrun | ⟨s', hrun, hsound, hremoved⟩ := unsetenv_cases (text s.mem p) hs
    · rw [hrun]
      exact right_of_unchanged hs.unchanged
    · rw [hrun]
      refine right_of_done hsound ?_
      rw [Call.Done, if_neg hequals]
      exact hremoved

/-- **`clearenv`**: there is no environment; and a vector of the library's own is freed. -/
theorem clearenv_right (hs : s.Sound) : Call.clearenv.Right s (clearenv s) := by
  have hempty {s' : Env} (h : s'.environ = 0) (hlast : s'.last_environ ≠ 0 → ∃ words, s'.vec s'.last_environ = some words) :
      Call.clearenv.Right s (0, s') := by
    have hentries := entries_of_zero h
    refine right_of_done ⟨fun henv => absurd h henv, ?_, hlast⟩ (congrArg (List.map (text s'.mem)) hentries)
    rw [hentries]
    exact List.forall_mem_nil _
  rw [clearenv]
  split
  · exact hempty rfl fun h => absurd rfl h
  · exact hempty rfl hs.last

/-- **The calls on the environment**: a call does what it is for, or leaves the environment as it was, if and only if
it does not lose the vector. -/
theorem run_right_iff {o : Outcome} {call : Call} {s : Env} (hs : s.Sound) (hlegal : call.Legal s)
    (hfresh : o.Fresh call.size s) (hspares : call.SparesOthers s) :
    call.Right s (call.run o s) ↔ ¬call.Lost o s := by
  cases call with
  | setenv name value replace =>
    refine ⟨fun hright hlost => ?_, fun hkept => setenv_right hs hlegal hfresh hspares hkept⟩
    exact setenv_lost hs hfresh hlost hright
  | putenv p => exact iff_of_true (putenv_right hs hlegal hfresh) not_false
  | unsetenv name =>
    refine iff_of_true ?_ not_false
    cases name with
    | none => exact right_of_unchanged hs.unchanged
    | some name =>
      obtain hrun | ⟨s', hrun, hsound, hremoved⟩ := unsetenv_cases name hs
      · change Call.Right _ s (unsetenv (some name) s)
        rw [hrun]
        exact right_of_unchanged hs.unchanged
      · change Call.Right _ s (unsetenv (some name) s)
        rw [hrun]
        refine right_of_done hsound fun n hn => ?_
        obtain rfl := Option.some.inj hn
        exact hremoved
  | clearenv => exact iff_of_true (clearenv_right hs) not_false

/-! ### A vector that is lost -/

/-- The environment of the library with `A=1`, in the slots at 100; it has the string at 1. -/
def oneEnv : Env where
  environ := 100
  last_environ := 100
  vec := Function.update (fun _ => none) 100 (some [1, 0])
  mem := 0 :: textOf "A=1" ++ List.replicate 12 0

/-- The vector goes from 100 to 200, and there is no memory for the string. -/
def moved : Outcome := ⟨.moves 200, none, none, 0⟩

def stayed : Outcome := ⟨.stays, none, some 8, 0⟩

theorem oneEnv_sound : oneEnv.Sound :=
  ⟨fun _ => ⟨_, rfl, by decide⟩, by decide, fun _ => ⟨_, rfl⟩⟩

/-- **`setenv ("B", "2", 1)` returns -1 and loses the environment.** -/
theorem moved_not_right :
    (Environ.setenv moved (textOf "B") (textOf "2") true oneEnv).1 = -1 ∧
      ¬(Call.setenv (textOf "B") (textOf "2") true).Right oneEnv
        ((Call.setenv (textOf "B") (textOf "2") true).run moved oneEnv) := by
  refine ⟨rfl, fun hright => ?_⟩
  obtain ⟨words, hlive, -⟩ := hright.sound.vector (by decide)
  have hdead : ((Call.setenv (textOf "B") (textOf "2") true).run moved oneEnv).2.vec 100 = none := rfl
  cases hdead.symm.trans hlive

theorem run_right_iff_stayed :
    (Call.setenv (textOf "B") (textOf "2") true).Right oneEnv
      ((Call.setenv (textOf "B") (textOf "2") true).run stayed oneEnv) := by
  have hlegal : (Call.setenv (textOf "B") (textOf "2") true).Legal oneEnv := ⟨⟨by decide, by decide⟩, by decide⟩
  have hfresh : stayed.Fresh (Call.setenv (textOf "B") (textOf "2") true).size oneEnv := by
    refine ⟨fun _ => by decide, ?_, ?_, ?_⟩
    · intro to_ h
      cases (show Realloc.stays = .moves to_ from h)
    · intro to_ h
      cases (show (none : Option ℕ) = some to_ from h)
    · intro p hp
      obtain rfl := Option.some.inj hp
      exact ⟨by decide, by decide, by decide⟩
  have hspares : (Call.setenv (textOf "B") (textOf "2") true).SparesOthers oneEnv := by
    intro _ p hp
    have hnone : (oneEnv.entries.find? fun p => HasName (textOf "B") (text oneEnv.mem p)) = none := by decide
    cases hnone.symm.trans hp
  refine (run_right_iff oneEnv_sound hlegal hfresh hspares).mpr ?_
  rintro ⟨-, -, -, -, ⟨to_, hto⟩, -⟩
  cases hto

end UnixLib.Environ
