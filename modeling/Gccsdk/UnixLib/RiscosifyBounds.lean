import Gccsdk.UnixLib.Riscosify

/-!
# What `__riscosify` keeps to

When does the code keep to the name and to its buffers, and return NULL or the place of the NUL behind the result
(`Good`)? Nearly all that is written comes with a look at the end of the buffer. What does not is listed here: a dot in
front of a slash, and `foo/..` in a buffer of one byte (`slips`); a suffix that is swapped (`SwapFits`); a device; a
home directory, and a canonical name (`RouteFits`). The call is as it should be just if nothing of the list goes wrong
(`riscosify_right_iff`).
-/

namespace UnixLib.Riscosify

open CheckedRun WriteCursor CText

/-- **What is returned**: the place of the NUL that ends the result in the buffer of `n` bytes. -/
structure Good (n : ℕ) (b : Buf) : Prop extends Held n b where
  nul : b.room.head? = some 0

/-- **The call is as it should be**: it returns NULL, or what is `Good`. -/
def Right (n : ℕ) (run : Run Buf) : Prop := Ensures run (Good n)

/-! ### What can go wrong -/

/-- **A turn that goes wrong**: a dot in front of a slash that is copied to the last byte, so that the dot for the slash
will be behind it; or `foo/..` in a buffer without room for `@` and a NUL. -/
def slips (n : ℕ) (path : Bool) (pos : ℕ) (before c : UInt8) (rest : Text) (s : Trans) : Prop :=
  c = DOT ∧
    (rest.head? = some SLASH ∧ ¬(pos = 0 ∧ path = false) ∧ before ≠ SLASH ∧ s.b.room.length = 1 ∨
      n = 1 ∧ 0 < pos ∧ before = SLASH ∧ rest = [DOT] ∧ s.previous_slash = some 0)

def TurnsFit (n : ℕ) (path : Bool) : ℕ → ℕ → UInt8 → Text → Trans → Prop
  | _, _, _, [], _ => True
  | 0, _, _, _ :: _, _ => True
  | turns + 1, pos, before, c :: rest, s =>
    ¬slips n path pos before c rest s ∧
      ∀ r, turn path pos before c rest s = .ok r → TurnsFit n path turns r.1.pos r.1.before r.1.rest r.2

/-- **A suffix can be swapped**: if the code does it (the suffix and, as far as it looks, the leaf name are
within the buffer), the leaf name starts in what has been written, and there is room for the dot and the
NUL. -/
def SwapFits (os : Os) (flags : Flags) (path : Bool) (n : ℕ) (s : Trans) : Prop :=
  ∀ b, ended flags path s = .ok b → ∀ suffix k, suffixOf os flags s b = some (suffix, k) →
    s.last_out_slash + suffix.length < n → (s.last_out_slash + suffix.length : ℤ) + leafLen s k ≤ n - 1 →
      s.last_out_slash ≤ b.text.length ∧ s.last_out_slash + suffix.length + (leafLen s k).toNat + 2 ≤ n

def TranslateFits (os : Os) (flags : Flags) (n : ℕ) (b : Buf) (i : Place) (path : Bool) : Prop :=
  b.room ≠ [] → TurnsFit n path i.rest.length 0 i.before i.rest ⟨b, 0, none, b.text.length, none⟩ ∧
    ∀ s, transLoop path i.rest.length 0 i.before i.rest ⟨b, 0, none, b.text.length, none⟩ = .ok s →
      SwapFits os flags path n s

/-- **The rest of the call can be done**; the name of a device must not be one byte too long for its colon. -/
def Tail.Fits (os : Os) (flags : Flags) (n : ℕ) : Tail → Prop
  | .copy _ _ => True
  | .translate b i path => TranslateFits os flags n b i path
  | .device _ name => name.length + 1 ≠ n
  | .done _ => True

/-- **The canonical name fits into its array**: what is written never gets behind it, and there is room for the NUL. -/
def CanonFitsFrom : ℕ → Option UInt8 → Text → Canon → Prop
  | _, _, [], s => s.out < MAXPATHLEN
  | 0, _, _ :: _, _ => True
  | turns + 1, before, c :: rest, s =>
    ∃ r, canonTurn MAXPATHLEN before c rest s = some r ∧ r.2.2.out ≤ MAXPATHLEN ∧
      CanonFitsFrom turns (some r.1) r.2.1 r.2.2

def CanonFits (name : Text) : Prop := CanonFitsFrom name.length none name ⟨fun _ => 0, 0, 0, none⟩

/-- What is copied in front of a `:`. -/
def field (rest : Text) : Text :=
  rest.takeWhile plain ++
    (if (rest.dropWhile plain).head? = some HASH then (rest.dropWhile plain).takeWhile (· ≠ COLON) else [])

def behindField (rest : Text) : Text :=
  if (rest.dropWhile plain).head? = some HASH then (rest.dropWhile plain).dropWhile (· ≠ COLON)
  else rest.dropWhile plain

/-- Behind a slash: a path without a sysvar, a filing system or a path variable has a canonical name that fits (if the
code comes so far). -/
def SlashFits (n : ℕ) (name rest : Text) : Prop :=
  rest.head? ≠ some LESS → (field rest).length < n → (behindField rest).head? ≠ some COLON → CanonFits name

/-- A name that does not start with `~`. -/
def NameFits (n : ℕ) (name : Text) : Prop :=
  ∀ rest, skipCurrent name = SLASH :: rest → SlashFits n name rest

/-- **A name with a home directory**: there is room for this in `new_buffer`, and for what is behind the user; if the
home directory starts with `~`, there is a slash behind the user. -/
def HomeFits (os : Os) (n : ℕ) (name : Text) : Prop :=
  os.home.length < MAXPATHLEN ∧
    if os.home.head? = some TILDE then ∃ c rest, behindUser name = c :: rest ∧ SlashFits n name rest
    else (os.home ++ behindUser name).length < MAXPATHLEN ∧ NameFits n (os.home ++ behindUser name)

/-- **The first characters can be dealt with.** -/
def RouteFits (os : Os) (flags : Flags) (n : ℕ) (name : Text) : Prop :=
  flags.no_process = true ∨ if name.head? = some TILDE then HomeFits os n name else NameFits n name

/-! ### Copying -/

section Copying

variable {n : ℕ} {b : Buf} {c before : UInt8} {rest source : Text} {p : UInt8 → Bool}

theorem room_pos (h : b.room ≠ []) : 1 ≤ b.room.length := List.length_pos_iff.mpr h

theorem good_here (h : Held n b) (hroom : 1 ≤ b.room.length) : Good n ⟨b.text, 0 :: b.room.drop 1⟩ :=
  ⟨h.here hroom, rfl⟩

theorem putChecked_eq (h : b.room ≠ []) :
    putChecked c b = if 1 < b.room.length then .ok ⟨b.text ++ [c], b.room.drop 1⟩ else .error .message := by
  have hpos := room_pos h
  have hnil : b.room.drop 1 = [] ↔ b.room.length ≤ 1 := List.drop_eq_nil_iff
  rw [putChecked, put_eq, if_pos hpos, ok_bind]
  by_cases hlen : 1 < b.room.length
  · rw [if_neg (show ¬b.room.drop 1 = [] from fun hd => absurd (hnil.mp hd) (by omega)), if_pos hlen]
    rfl
  · rw [if_pos (show b.room.drop 1 = [] from hnil.mpr (by omega)), if_neg hlen]
    rfl

theorem ensures_putChecked (h : Held n b) (hroom : b.room ≠ []) (hc : c ≠ 0) :
    Ensures (putChecked c b) fun b' =>
      Held n b' ∧ b'.room ≠ [] ∧ b'.text = b.text ++ [c] := by
  rw [putChecked_eq hroom]
  by_cases hlen : 1 < b.room.length
  · rw [if_pos hlen, ensures_ok]
    refine ⟨h.put (by omega) hc, fun hnil => ?_, rfl⟩
    exact absurd (List.drop_eq_nil_iff.mp hnil) (by omega)
  · rw [if_neg hlen]
    exact ensures_message

theorem copy_or_null_eq (source : Text) (b : Buf) :
    copy_or_null source b =
      if source.length < b.room.length then .ok ⟨b.text ++ source, 0 :: b.room.drop (source.length + 1)⟩
      else .error .message := by
  induction source generalizing b with
  | nil =>
    rw [copy_or_null, here_eq, List.append_nil]
    by_cases hroom : b.room = []
    · rw [if_pos hroom, hroom]
      rfl
    · have hpos := room_pos hroom
      rw [if_neg hroom, if_pos hpos, if_pos (show ([] : Text).length < b.room.length from hpos)]
      rfl
  | cons c source ih =>
    rw [copy_or_null]
    by_cases hroom : b.room = []
    · rw [if_pos hroom, hroom, List.length_nil, if_neg (Nat.not_lt_zero _)]
      rfl
    · have hpos := room_pos hroom
      rw [if_neg hroom, put_eq, if_pos hpos, ok_bind, ih]
      change (if source.length < (b.room.drop 1).length then _ else _) = _
      rw [List.length_drop, List.length_cons, List.append_assoc, List.singleton_append, List.drop_drop,
        show 1 + (source.length + 1) = source.length + 1 + 1 from Nat.add_comm _ _]
      by_cases hlen : source.length < b.room.length - 1
      · rw [if_pos hlen, if_pos (by omega)]
      · rw [if_neg hlen, if_neg (by omega)]

theorem ensures_copy (h : Held n b) (hsource : 0 ∉ source) :
    Ensures (copy_or_null source b) fun b' => Good n b' ∧ b'.text = b.text ++ source := by
  rw [copy_or_null_eq]
  by_cases hlen : source.length < b.room.length
  · rw [if_pos hlen, ensures_ok]
    refine ⟨⟨⟨?_, ?_⟩, rfl⟩, rfl⟩
    · have hall := h.length
      rw [Buf.length_block]
      change (b.text ++ source).length + (0 :: b.room.drop (source.length + 1)).length = n
      rw [List.length_append, List.length_cons, List.length_drop]
      omega
    · exact fun hmem => (List.mem_append.mp hmem).elim h.noNul hsource
  · rw [if_neg hlen]
    exact ensures_message

/-- **The characters with the property are copied**, if they are within the buffer and not at its end. -/
theorem copyWhile_eq (p : UInt8 → Bool) (before : UInt8) (rest : Text) (hroom : b.room ≠ []) :
    ∃ before', copyWhile p before rest b =
      if (rest.takeWhile p).length < b.room.length then
        .ok (⟨before', rest.dropWhile p⟩, ⟨b.text ++ rest.takeWhile p, b.room.drop (rest.takeWhile p).length⟩)
      else .error .message := by
  induction rest generalizing b before with
  | nil =>
    refine ⟨before, ?_⟩
    have hpos := room_pos hroom
    rw [copyWhile, List.takeWhile_nil, List.append_nil, if_pos (show ([] : Text).length < b.room.length from hpos)]
    rfl
  | cons c rest ih =>
    have hpos := room_pos hroom
    rw [copyWhile]
    cases hp : p c with
    | false =>
      refine ⟨before, ?_⟩
      rw [List.takeWhile_cons_of_neg (by rw [hp]; exact Bool.false_ne_true),
        List.dropWhile_cons_of_neg (by rw [hp]; exact Bool.false_ne_true), List.append_nil,
        if_pos (show ([] : Text).length < b.room.length from hpos)]
      rfl
    | true =>
      rw [List.takeWhile_cons_of_pos hp, List.dropWhile_cons_of_pos hp, if_pos rfl, putChecked_eq hroom,
        List.length_cons]
      by_cases hlen : 1 < b.room.length
      · have hne : (Buf.mk (b.text ++ [c]) (b.room.drop 1)).room ≠ [] :=
          fun hnil => absurd (List.drop_eq_nil_iff.mp hnil) (by omega)
        obtain ⟨before', heq⟩ := ih c hne
        refine ⟨before', ?_⟩
        rw [if_pos hlen, ok_bind, heq]
        change (if (rest.takeWhile p).length < (b.room.drop 1).length then _ else _) = _
        rw [List.length_drop, List.append_assoc, List.singleton_append, List.drop_drop,
          Nat.add_comm 1 (rest.takeWhile p).length]
        by_cases hall : (rest.takeWhile p).length < b.room.length - 1
        · rw [if_pos hall, if_pos (by omega)]
        · rw [if_neg hall, if_neg (by omega)]
      · refine ⟨before, ?_⟩
        rw [if_neg hlen, if_neg (by omega)]
        rfl

theorem zero_notMem_takeWhile (h : 0 ∉ rest) : 0 ∉ rest.takeWhile p :=
  fun hmem => h ((List.takeWhile_prefix p).subset hmem)

theorem zero_notMem_dropWhile (h : 0 ∉ rest) : 0 ∉ rest.dropWhile p :=
  fun hmem => h ((List.dropWhile_suffix p).subset hmem)

theorem zero_notMem_drop (k : ℕ) (h : 0 ∉ rest) : 0 ∉ rest.drop k := fun hmem => h (List.mem_of_mem_drop hmem)

/-- Where the place in the input and the place in the output are good to go on. -/
structure Ready (n : ℕ) (r : Place × Buf) : Prop where
  held : Held n r.2
  room : r.2.room ≠ []
  noNul : 0 ∉ r.1.rest

theorem ensures_copyWhile (h : Held n b) (hroom : b.room ≠ []) (hrest : 0 ∉ rest) :
    Ensures (copyWhile p before rest b) fun r =>
      Ready n r ∧ r.1.rest = rest.dropWhile p ∧ r.2.text = b.text ++ rest.takeWhile p := by
  obtain ⟨before', heq⟩ := copyWhile_eq p before rest hroom
  rw [heq]
  by_cases hlen : (rest.takeWhile p).length < b.room.length
  · rw [if_pos hlen, ensures_ok]
    refine ⟨⟨?_, ?_, zero_notMem_dropWhile hrest⟩, rfl, rfl⟩
    · exact h.puts (by omega) (zero_notMem_takeWhile hrest)
    · exact fun hnil => absurd (List.drop_eq_nil_iff.mp hnil) (by omega)
  · rw [if_neg hlen]
    exact ensures_message

end Copying

/-! ### The turns of the loop -/

section Turns

variable {n len pos turns : ℕ} {path : Bool} {before c : UInt8} {rest : Text} {s : Trans} {b : Buf}

theorem filenameCharMap_ne_zero (hc : c ≠ 0) : filenameCharMap c ≠ 0 := by
  have hall : ∀ k, k < 256 → UInt8.ofNat k ≠ 0 → filenameCharMap (UInt8.ofNat k) ≠ 0 := by decide +kernel
  have hof := hall c.toNat c.toNat_lt
  rw [UInt8.ofNat_toNat] at hof
  exact hof hc

/-- **What holds at every place**, for an input of `len` characters. -/
structure Sound (n len : ℕ) (s : Trans) : Prop where
  held : Held n s.b
  room : s.b.room ≠ []
  /-- The pointers are in the buffer, -/
  slash : s.last_out_slash < n
  /-- and in the input. -/
  inside : s.last_slash ≤ len
  leaf : ∀ k, s.last_out_dot = some k → k + 1 < n ∧ s.last_slash + (k - s.last_out_slash) ≤ len

/-- **What holds where the loop goes on**: behind the last slash, a character is written for each one that is read. -/
structure Going (pos : ℕ) (before : UInt8) (s : Trans) : Prop where
  even : s.b.text.length + s.last_slash = pos + s.last_out_slash
  le : s.last_out_slash ≤ s.b.text.length
  atSlash : before = SLASH → s.b.text.length = s.last_out_slash
  dot : ∀ k, s.last_out_dot = some k → k < s.b.text.length

structure At (n len pos : ℕ) (before : UInt8) (rest : Text) (s : Trans) : Prop extends Sound n len s where
  length : pos + rest.length = len
  noNul : 0 ∉ rest
  going : rest ≠ [] → Going pos before s

def Next (n len : ℕ) (rest : Text) (r : InPlace × Trans) : Prop :=
  At n len r.1.pos r.1.before r.1.rest r.2 ∧ r.1.rest.length ≤ rest.length

/-- **Something is written behind the last slash**, for as many characters. -/
theorem At.write (h : At n len pos before (c :: rest) s) {t : Text} (ht : 0 ∉ t) (hroom : t.length < s.b.room.length)
    {before' : UInt8} {rest' : Text} (hbefore : before' ≠ SLASH) (hlen : rest'.length + t.length = rest.length + 1)
    (hrest : rest' <:+ rest) {dot : Option ℕ} (hdot : dot = s.last_out_dot ∨ dot = some s.b.text.length ∧ t ≠ []) :
    At n len (pos + t.length) before' rest'
      { s with b := ⟨s.b.text ++ t, s.b.room.drop t.length⟩, last_out_dot := dot } := by
  have hgo := h.going nofun
  have heven := hgo.even
  have hle := hgo.le
  have htotal := h.held.length
  have hlength := h.length
  rw [List.length_cons] at hlength
  refine ⟨⟨h.held.puts (by omega) ht, ?_, h.slash, h.inside, ?_⟩, by omega, ?_, fun _ => ⟨?_, ?_, ?_, ?_⟩⟩
  · exact fun hnil => absurd (List.drop_eq_nil_iff.mp hnil) (by omega)
  · intro k hk
    obtain hsame | ⟨hnew, hne⟩ := hdot
    · exact h.leaf k (hsame ▸ hk)
    · have hpos := List.length_pos_iff.mpr hne
      obtain rfl : s.b.text.length = k := Option.some.inj (hnew.symm.trans hk)
      refine ⟨by omega, ?_⟩
      change s.last_slash + (s.b.text.length - s.last_out_slash) ≤ len
      omega
  · exact fun hmem => h.noNul (List.mem_cons_of_mem _ (hrest.subset hmem))
  · change (s.b.text ++ t).length + s.last_slash = pos + t.length + s.last_out_slash
    rw [List.length_append]
    omega
  · change s.last_out_slash ≤ (s.b.text ++ t).length
    rw [List.length_append]
    omega
  · exact fun heq => absurd heq hbefore
  · intro k hk
    change k < (s.b.text ++ t).length
    rw [List.length_append]
    obtain hsame | ⟨hnew, hne⟩ := hdot
    · exact Nat.lt_add_right _ (hgo.dot k (hsame ▸ hk))
    · obtain rfl : s.b.text.length = k := Option.some.inj (hnew.symm.trans hk)
      exact Nat.lt_add_of_pos_right (List.length_pos_iff.mpr hne)

/-- **A directory ends**: what comes next is behind a slash, in the input and in the output. -/
theorem At.directory (h : At n len pos before (c :: rest) s) (hb : Held n b) (hroom : b.room ≠ [])
    (hle : s.b.text.length ≤ b.text.length) {pos' : ℕ} {rest' : Text} {previous : Option ℕ}
    (hlen : pos' + rest'.length = len) (hrest : rest' <:+ rest) :
    At n len pos' SLASH rest' ⟨b, pos', previous, b.text.length, s.last_out_dot⟩ := by
  have hgo := h.going nofun
  have hb' := hb.length
  have hpos := room_pos hroom
  refine ⟨⟨hb, hroom, ?_, ?_, ?_⟩, hlen, ?_, fun _ => ⟨?_, Nat.le_refl _, fun _ => rfl, ?_⟩⟩
  · change b.text.length < n
    omega
  · change pos' ≤ len
    omega
  · intro k hk
    have hlt := hgo.dot k hk
    change k + 1 < n ∧ pos' + (k - b.text.length) ≤ len
    omega
  · exact fun hmem => h.noNul (List.mem_cons_of_mem _ (hrest.subset hmem))
  · exact Nat.add_comm _ _
  · exact fun k hk => Nat.lt_of_lt_of_le (hgo.dot k hk) hle

theorem At.last (h : At n len pos before (c :: rest) s) (hb : Held n b) (hroom : b.room ≠ []) {pos' : ℕ} {before' : UInt8}
    (hlen : pos' = len) : At n len pos' before' [] { s with b := b } :=
  ⟨⟨hb, hroom, h.slash, h.inside, h.leaf⟩, hlen, List.not_mem_nil, fun hne => absurd rfl hne⟩

theorem ensures_write (h : At n len pos before (c :: rest) s) {d before' : UInt8} (hd : d ≠ 0) (hbefore : before' ≠ SLASH)
    {dot : Option ℕ} (hdot : dot = s.last_out_dot ∨ dot = some s.b.text.length) :
    Ensures (putChecked d s.b >>= fun b => pure ((⟨pos + 1, before', rest⟩, { s with b := b, last_out_dot := dot }) :
      InPlace × Trans)) (Next n len rest) := by
  rw [ensures_bind, putChecked_eq h.room]
  by_cases hlen : 1 < s.b.room.length
  · rw [if_pos hlen, ensures_ok, ensures_pure]
    refine ⟨h.write (t := [d]) ?_ hlen hbefore rfl List.suffix_rfl ?_, Nat.le_refl _⟩
    · exact fun hmem => hd (List.mem_singleton.mp hmem).symm
    · exact hdot.imp_right fun hnew => ⟨hnew, nofun⟩
  · rw [if_neg hlen]
    exact ensures_message

/-- `./` -/
theorem ensures_dotTurn_current (h : At n len pos before (DOT :: rest) s) (hslash : rest.head? = some SLASH)
    (hslip : ¬slips n path pos before DOT rest s) : Ensures (dotTurn path pos before rest s) (Next n len rest) := by
  have hlen := h.length
  have hshort : (rest.drop 1).length ≤ rest.length := List.length_drop ▸ Nat.sub_le _ _
  have hnext : (pos + 2) + (rest.drop 1).length = len := by
    have hne : rest ≠ [] := fun hnil => by rw [hnil] at hslash; cases hslash
    have hpos := List.length_pos_iff.mpr hne
    rw [List.length_cons] at hlen
    rw [List.length_drop]
    omega
  rw [dotTurn, if_pos hslash]
  by_cases hstart : pos = 0 ∧ path = false
  · rw [if_pos hstart]
    by_cases hroom : s.b.room.length ≤ 2
    · rw [if_pos hroom]
      exact ensures_message
    · rw [if_neg hroom, ensures_bind, ensures_puts]
      have hheld : Held n ⟨s.b.text ++ [AT, DOT], s.b.room.drop [AT, DOT].length⟩ :=
        h.held.puts (Nat.le_of_not_le hroom) (by decide)
      refine ⟨Nat.le_of_not_le hroom, ensures_pure.mpr ⟨h.directory hheld ?_ ?_ hnext (List.drop_suffix _ _), hshort⟩⟩
      · exact fun hnil => hroom (List.drop_eq_nil_iff.mp hnil)
      · exact List.length_append ▸ Nat.le_add_right _ _
  · rw [if_neg hstart]
    by_cases hbefore : before = SLASH
    · rw [if_pos hbefore, ensures_pure]
      -- nothing has been written behind the last slash
      have hat := (h.going nofun).atSlash hbefore
      have hdir : At n len (pos + 2) SLASH (rest.drop 1)
          ⟨s.b, pos + 2, s.previous_slash, s.b.text.length, s.last_out_dot⟩ :=
        h.directory h.held h.room (Nat.le_refl _) hnext (List.drop_suffix _ _)
      rw [hat] at hdir
      exact ⟨hdir, hshort⟩
    · rw [if_neg hbefore, ensures_bind, ensures_put]
      have hroom : 1 < s.b.room.length := by
        have hpos := room_pos h.room
        have hone : s.b.room.length ≠ 1 := fun hone => hslip ⟨rfl, Or.inl ⟨hslash, hstart, hbefore, hone⟩⟩
        omega
      refine ⟨Nat.le_of_lt hroom, ensures_pure.mpr ⟨?_, Nat.le_refl _⟩⟩
      have hdot : DOT ≠ SLASH := by decide
      exact h.write (t := [SLASH]) (by decide) hroom hdot rfl List.suffix_rfl (Or.inl rfl)

/-- `..` at the end -/
theorem ensures_dotTurn_up (h : At n len pos before (DOT :: rest) s) (hrest : rest = [DOT]) (hpos : 0 < pos)
    (hbefore : before = SLASH) (hslip : ¬slips n path pos before DOT rest s) :
    Ensures (dotTurn path pos before rest s) (Next n len rest) := by
  have hlen := h.length
  subst hrest
  change pos + 2 = len at hlen
  have hheld := h.held.length
  rw [dotTurn, if_neg (by decide), if_neg (fun hend => nomatch hend.2.2), if_neg (fun hend => nomatch hend.2),
    if_pos ⟨hpos, hbefore, rfl, rfl⟩]
  by_cases hprevious : s.previous_slash = some 0
  · -- `foo/..`
    rw [if_pos hprevious, ensures_bind, ensures_put]
    have hn : n ≠ 1 := fun hn => hslip ⟨rfl, Or.inr ⟨hn, hpos, hbefore, rfl, hprevious⟩⟩
    have hroom := room_pos h.room
    have hback : Held n (s.b.seek 0) := h.held.back (Nat.zero_le _)
    have hall : (s.b.seek 0).room.length = n := by rw [Buf.length_room_seek, h.held.block, Nat.sub_zero]
    refine ⟨by omega, ?_⟩
    rw [ensures_bind, ensures_here]
    have hdrop : 1 ≤ ((s.b.seek 0).room.drop 1).length := by
      rw [List.length_drop]
      omega
    refine ⟨hdrop, ensures_pure.mpr ⟨?_, Nat.zero_le _⟩⟩
    exact h.last ((hback.put (c := AT) (by omega) (by decide)).here hdrop) (List.cons_ne_nil _ _) hlen
  · rw [if_neg hprevious]
    by_cases hroom : s.b.room.length ≤ 1
    · rw [if_pos hroom]
      exact ensures_message
    · rw [if_neg hroom, ensures_bind, ensures_put]
      refine ⟨by omega, ensures_pure.mpr ⟨?_, Nat.zero_le _⟩⟩
      refine h.last (h.held.put (c := CARET) (by omega) (by decide)) ?_ hlen
      exact fun hnil => hroom (List.drop_eq_nil_iff.mp hnil)

theorem ensures_dotTurn (h : At n len pos before (DOT :: rest) s) (hslip : ¬slips n path pos before DOT rest s) :
    Ensures (dotTurn path pos before rest s) (Next n len rest) := by
  have hlen := h.length
  rw [List.length_cons] at hlen
  by_cases hslash : rest.head? = some SLASH
  · exact ensures_dotTurn_current h hslash hslip
  · by_cases hup : pos > 0 ∧ before = SLASH ∧ rest.head? = some DOT ∧ rest[1]? = none
    · obtain ⟨hpos, hbefore, hhead, hnone⟩ := hup
      refine ensures_dotTurn_up h ?_ hpos hbefore hslip
      match rest, hhead, hnone with
      | [d], hhead, _ => rw [Option.some.inj hhead]
    · rw [dotTurn, if_neg hslash]
      by_cases hend : pos > 0 ∧ before = SLASH ∧ rest = []
      · rw [if_pos hend, ensures_pure]
        obtain ⟨-, -, rfl⟩ := hend
        exact ⟨h.last h.held h.room hlen, Nat.le_refl _⟩
      · rw [if_neg hend]
        by_cases hdir : rest.head? = some DOT ∧ rest[1]? = some SLASH
        · rw [if_pos hdir]
          by_cases hroom : s.b.room.length ≤ 2
          · rw [if_pos hroom]
            exact ensures_message
          · rw [if_neg hroom, ensures_bind, ensures_puts]
            have hheld : Held n ⟨s.b.text ++ [CARET, DOT], s.b.room.drop [CARET, DOT].length⟩ :=
              h.held.puts (Nat.le_of_not_le hroom) (by decide)
            have hnext : (pos + 3) + (rest.drop 2).length = len := by
              have htwo : 1 < rest.length := (List.getElem?_eq_some_iff.mp hdir.2).1
              rw [List.length_drop]
              omega
            refine ⟨Nat.le_of_not_le hroom,
              ensures_pure.mpr ⟨h.directory hheld ?_ ?_ hnext (List.drop_suffix _ _), ?_⟩⟩
            · exact fun hnil => hroom (List.drop_eq_nil_iff.mp hnil)
            · exact List.length_append ▸ Nat.le_add_right _ _
            · exact List.length_drop ▸ Nat.sub_le _ _
        · rw [if_neg hdir, if_neg hup]
          exact ensures_write h (by decide) (by decide) (Or.inr rfl)

theorem ensures_slashTurn (h : At n len pos before (SLASH :: rest) s) : Ensures (slashTurn pos rest s) (Next n len rest) := by
  have hlen := h.length
  rw [List.length_cons] at hlen
  have hsplit : (rest.takeWhile (· = SLASH)).length + (rest.dropWhile (· = SLASH)).length = rest.length := by
    rw [← List.length_append, List.takeWhile_append_dropWhile]
  -- what has been written is there, and perhaps a dot
  have hseparate : Ensures (separate s.b) fun b => Held n b ∧ s.b.text.length ≤ b.text.length := by
    rw [separate]
    split
    · rw [ensures_put]
      refine ⟨room_pos h.room, h.held.put (room_pos h.room) (by decide), ?_⟩
      exact List.length_append ▸ Nat.le_add_right _ _
    · exact ensures_pure.mpr ⟨h.held, Nat.le_refl _⟩
  rw [slashTurn, ensures_bind]
  refine hseparate.imp fun b _ ⟨hb, hle⟩ => ?_
  by_cases hroom : b.room = []
  · rw [if_pos hroom]
    exact ensures_message
  · rw [if_neg hroom, ensures_pure]
    exact ⟨h.directory hb hroom hle (by dsimp only; omega) (List.dropWhile_suffix _), by dsimp only; omega⟩

theorem ensures_turn (h : At n len pos before (c :: rest) s) (hslip : ¬slips n path pos before c rest s) :
    Ensures (turn path pos before c rest s) (Next n len rest) := by
  rw [turn]
  by_cases hdot : c = DOT
  · subst hdot
    rw [if_pos rfl]
    exact ensures_dotTurn h hslip
  · rw [if_neg hdot]
    by_cases hslash : c = SLASH
    · subst hslash
      rw [if_pos rfl]
      exact ensures_slashTurn h
    · rw [if_neg hslash]
      have hc : c ≠ 0 := fun hc => h.noNul (hc ▸ List.mem_cons_self)
      exact ensures_write h (filenameCharMap_ne_zero hc) hslash (Or.inl rfl)

/-- **A turn that goes wrong**: the code does not keep to its buffer, in this turn or in the next one. -/
theorem not_ensures_of_slips (h : At n len pos before (c :: rest) s) (hturns : rest.length ≤ turns)
    (hslip : slips n path pos before c rest s) (post : Trans → Prop) :
    ¬Ensures (transLoop path (turns + 1) pos before (c :: rest) s) post := by
  obtain ⟨rfl, ⟨hslash, hstart, hbefore, hroom⟩ | ⟨rfl, hpos, hbefore, rfl, hprevious⟩⟩ := hslip
  · -- the dot takes the last byte, and the slash behind it is written as well
    obtain ⟨rest', rfl⟩ : ∃ rest', rest = SLASH :: rest' := List.head?_eq_some_iff.mp hslash
    obtain ⟨turns', rfl⟩ : ∃ turns', turns = turns' + 1 :=
      Nat.exists_eq_add_of_le' (Nat.le_trans (Nat.succ_le_succ (Nat.zero_le _)) hturns)
    have hdot : turn path pos before DOT (SLASH :: rest') s =
        .ok (⟨pos + 1, DOT, SLASH :: rest'⟩, { s with b := ⟨s.b.text ++ [SLASH], s.b.room.drop 1⟩ }) := by
      rw [turn, if_pos rfl, dotTurn, if_pos hslash, if_neg hstart, if_neg hbefore, put_eq, if_pos (by omega)]
      rfl
    have hnil : s.b.room.drop 1 = [] := List.drop_eq_nil_iff.mpr (Nat.le_of_eq hroom)
    have hlast : s.b.text ++ [SLASH] ≠ [] ∧ (s.b.text ++ [SLASH]).getLast? ≠ some DOT := by
      refine ⟨List.append_ne_nil_of_right_ne_nil _ (List.cons_ne_nil _ _), ?_⟩
      rw [List.getLast?_concat]
      decide
    rw [transLoop, hdot, ok_bind]
    change ¬Ensures (transLoop path (turns' + 1) (pos + 1) DOT (SLASH :: rest') _) post
    rw [transLoop, turn, if_neg (by decide), if_pos rfl, slashTurn, separate, if_pos hlast, put_eq, hnil]
    exact not_ensures_outside
  · -- there is no room for the NUL
    have hall : (s.b.seek 0).room.length = 1 := by rw [Buf.length_room_seek, h.held.block]
    rw [transLoop, turn, if_pos rfl, dotTurn, if_neg (by decide), if_neg (fun hend => nomatch hend.2.2),
      if_neg (fun hend => nomatch hend.2), if_pos ⟨hpos, hbefore, rfl, rfl⟩, if_pos hprevious, put_eq,
      if_pos (Nat.le_of_eq hall.symm), ok_bind, here_eq, if_neg]
    · exact not_ensures_outside
    · change ¬1 ≤ ((s.b.seek 0).room.drop 1).length
      rw [List.length_drop]
      omega

theorem turnsFit_of_ensures {post : Trans → Prop} (h : At n len pos before rest s) (hturns : rest.length ≤ turns)
    (hensures : Ensures (transLoop path turns pos before rest s) post) : TurnsFit n path turns pos before rest s := by
  induction turns generalizing pos before rest s with
  | zero =>
    obtain rfl := List.length_eq_zero_iff.mp (Nat.le_zero.mp hturns)
    trivial
  | succ turns ih =>
    cases rest with
    | nil => trivial
    | cons c rest =>
      have hle : rest.length ≤ turns := Nat.le_of_succ_le_succ hturns
      have hslip : ¬slips n path pos before c rest s := fun hslip => not_ensures_of_slips h hle hslip post hensures
      have hturn := ensures_turn h hslip
      refine ⟨hslip, fun r hr => ?_⟩
      obtain ⟨hnext, hshort⟩ := hturn.post hr
      rw [transLoop, ensures_bind] at hensures
      exact ih hnext (Nat.le_trans hshort hle) (hensures.post hr)

/-- **The loop keeps to its buffers** just if no turn goes wrong. -/
theorem ensures_transLoop (path : Bool) (h : At n len pos before rest s) (hturns : rest.length ≤ turns) :
    Ensures (transLoop path turns pos before rest s) (Sound n len) ↔ TurnsFit n path turns pos before rest s := by
  -- by induction on the turns; each one that does not go wrong keeps the invariant
  induction turns generalizing pos before rest s with
  | zero =>
    obtain rfl := List.length_eq_zero_iff.mp (Nat.le_zero.mp hturns)
    rw [transLoop, TurnsFit, ensures_pure]
    exact iff_of_true h.toSound trivial
  | succ turns ih =>
    cases rest with
    | nil =>
      rw [transLoop, TurnsFit, ensures_pure]
      exact iff_of_true h.toSound trivial
    | cons c rest =>
      have hle : rest.length ≤ turns := Nat.le_of_succ_le_succ hturns
      rw [TurnsFit]
      by_cases hslip : slips n path pos before c rest s
      · exact iff_of_false (not_ensures_of_slips h hle hslip _) fun hfits => hfits.1 hslip
      · have hturn := ensures_turn h hslip
        rw [transLoop, ensures_bind, hturn.iff_forall, and_iff_right hslip]
        refine forall₂_congr fun r hr => ?_
        obtain ⟨hnext, hshort⟩ := hturn.post hr
        exact ih hnext (Nat.le_trans hshort hle)

end Turns

/-! ### Behind the loop -/

section Behind

variable {os : Os} {flags : Flags} {n len k : ℕ} {path create_dir : Bool} {source suffix : Text} {s : Trans} {b : Buf}

theorem length_removeType (ext : Bool) (last_out_slash : ℕ) (t : Text) :
    (removeType ext last_out_slash t).length ≤ t.length := by
  rw [removeType]
  split
  · simp only [List.length_dropLast]
    omega
  · exact Nat.le_refl _

theorem ensures_ended (h : Sound n len s) : Ensures (ended flags path s) (Good n) := by
  have hlt : s.b.text.length < n := by
    have hlen := h.held.length
    have hpos := room_pos h.room
    omega
  have hstrip := stripDots_length_le s.b.text
  have hheld := h.held.back hstrip
  have htext : (s.b.seek (stripDots s.b.text).length).text.length = (stripDots s.b.text).length :=
    Buf.length_text_seek (by rw [h.held.block]; omega)
  have hcurrent : Ensures (currentDir path (s.b.seek (stripDots s.b.text).length)) fun b => Held n b ∧ b.text.length < n := by
    rw [currentDir]
    split
    · split
      · exact ensures_message
      · next hroom =>
        rw [ensures_put]
        have hput := hheld.put (c := AT) (by omega) (by decide)
        have hlen := hput.length
        dsimp only at hlen
        rw [List.length_drop] at hlen
        exact ⟨by omega, hput, by dsimp only; omega⟩
    · rw [ensures_pure]
      exact ⟨hheld, by omega⟩
  rw [ended, ensures_bind]
  refine hcurrent.imp fun b _ ⟨hb, hblt⟩ => ?_
  have hremove := length_removeType flags.filetype_ext s.last_out_slash b.text
  have hback := hb.back hremove
  have hroom : 1 ≤ (b.seek (removeType flags.filetype_ext s.last_out_slash b.text).length).room.length := by
    rw [Buf.length_room_seek, hb.block]
    omega
  rw [ensures_here]
  exact ⟨hroom, good_here hback hroom⟩

/-- **The suffix is copied**, if it does not come to the end of the buffer. -/
theorem copySuffix_eq (hroom : b.room ≠ []) :
    copySuffix suffix b =
      if suffix.length < b.room.length then .ok ⟨b.text ++ suffix, b.room.drop suffix.length⟩
      else .error .message := by
  induction suffix generalizing b with
  | nil =>
    rw [copySuffix, List.append_nil, if_pos (show ([] : Text).length < b.room.length from room_pos hroom)]
    rfl
  | cons c suffix ih =>
    rw [copySuffix, putChecked_eq hroom, List.length_cons]
    by_cases hlen : 1 < b.room.length
    · have hne : (Buf.mk (b.text ++ [c]) (b.room.drop 1)).room ≠ [] :=
        fun hnil => absurd (List.drop_eq_nil_iff.mp hnil) (by omega)
      rw [if_pos hlen, ok_bind, ih hne]
      change (if suffix.length < (b.room.drop 1).length then _ else _) = _
      rw [List.length_drop, List.append_assoc, List.singleton_append, List.drop_drop, Nat.add_comm 1 suffix.length]
      by_cases hall : suffix.length < b.room.length - 1
      · rw [if_pos hall, if_pos (by omega)]
      · rw [if_neg hall, if_neg (by omega)]
    · rw [if_neg hlen, if_neg (by omega)]
      rfl

theorem forDirectory_eq (create_dir : Bool) (hroom : 1 ≤ b.room.length) :
    ∃ room, room.length = b.room.length ∧ forDirectory create_dir b = .ok ⟨b.text, room⟩ := by
  rw [forDirectory]
  cases create_dir with
  | false => exact ⟨b.room, rfl, rfl⟩
  | true =>
    rw [if_pos rfl, here_eq, if_pos hroom]
    refine ⟨_, ?_, rfl⟩
    rw [List.length_cons, List.length_drop]
    omega

theorem Good.zero_notMem_take_iff (h : Good n b) (hk : k ≤ b.block.length) : 0 ∉ b.block.take k ↔ k ≤ b.text.length := by
  obtain ⟨room, hroom⟩ : ∃ room, b.room = 0 :: room := List.head?_eq_some_iff.mp h.nul
  refine ⟨fun hnot => ?_, fun hle hmem => ?_⟩
  · by_contra hlt
    refine hnot (List.mem_take_iff_getElem.mpr ⟨b.text.length, ?_, ?_⟩)
    · exact lt_min (Nat.lt_of_not_le hlt) (Nat.lt_of_lt_of_le (Nat.lt_of_not_le hlt) hk)
    · simp [Buf.block, hroom]
  · rw [Buf.block, List.take_append_of_le_length hle] at hmem
    exact h.noNul (List.mem_of_mem_take hmem)

theorem ensures_copyLeaf (hb : b.block.length = n) (hroom : b.room ≠ []) (hsource : 0 ∉ source)
    (hinside : s.last_slash + (k - s.last_out_slash) ≤ source.length) :
    Ensures (copyLeaf source s k b) (Good n) ↔
      ((b.text.length : ℤ) + leafLen s k ≤ n - 1 → 0 ∉ b.text ∧ b.text.length + (leafLen s k).toNat + 2 ≤ n) := by
  have hlen := b.length_block
  have hpos := room_pos hroom
  have hleaf : (leafLen s k).toNat = k - s.last_out_slash := Int.toNat_sub k s.last_out_slash
  rw [copyLeaf, hb]
  by_cases hover : (b.text.length : ℤ) + leafLen s k > (n : ℤ) - 1
  · rw [if_pos hover]
    exact iff_of_true ensures_message fun hle => absurd hover (Int.not_lt.mpr hle)
  · have hread : ((source.drop s.last_slash).take (leafLen s k).toNat).length = (leafLen s k).toNat :=
      List.length_take_of_le (by rw [List.length_drop, hleaf]; omega)
    have hchars : 0 ∉ ((source.drop s.last_slash).take (leafLen s k).toNat).map filenameCharMap := by
      intro hmem
      obtain ⟨c, hc, hzero⟩ := List.mem_map.mp hmem
      refine filenameCharMap_ne_zero ?_ hzero
      rintro rfl
      exact hsource (List.mem_of_mem_drop (List.mem_of_mem_take hc))
    rw [if_neg hover, ensures_bind, ensures_put, and_iff_right hpos,
      loads_eq (show s.last_slash + (leafLen s k).toNat ≤ source.length from hleaf ▸ hinside), ok_bind, ensures_bind,
      ensures_puts, ensures_here, List.length_map, hread]
    change (leafLen s k).toNat ≤ (b.room.drop 1).length ∧ 1 ≤ ((b.room.drop 1).drop (leafLen s k).toNat).length ∧
      Good n ⟨b.text ++ [DOT] ++ _, _⟩ ↔ _
    rw [List.length_drop, List.length_drop, List.length_drop]
    refine ⟨fun ⟨_, hend, hgood⟩ _ => ⟨fun hmem => ?_, by omega⟩, fun hfits => ?_⟩
    · exact hgood.noNul (List.mem_append_left _ (List.mem_append_left _ hmem))
    · obtain ⟨hnoNul, hle⟩ := hfits (Int.not_lt.mp hover)
      refine ⟨by omega, by omega, ⟨?_, ?_⟩, rfl⟩
      · rw [Buf.length_block]
        simp only [List.length_append, List.length_cons, List.length_nil, List.length_map, List.length_drop, hread]
        omega
      · rw [List.mem_append, List.mem_append, not_or, not_or]
        exact ⟨⟨hnoNul, by decide⟩, hchars⟩

theorem ensures_swap (h : Sound n source.length s) (hgood : Good n b) (hsource : 0 ∉ source)
    (hsuffix : 0 ∉ suffix) (hk : s.last_out_dot = some k) :
    Ensures (swap create_dir source s suffix k b) (Good n) ↔
      (s.last_out_slash + suffix.length < n → (s.last_out_slash + suffix.length : ℤ) + leafLen s k ≤ n - 1 →
        s.last_out_slash ≤ b.text.length ∧ s.last_out_slash + suffix.length + (leafLen s k).toNat + 2 ≤ n) := by
  have hslash := h.slash
  have hblock := hgood.block
  have hroom : (b.seek s.last_out_slash).room.length = n - s.last_out_slash := by rw [Buf.length_room_seek, hblock]
  have htext : (b.seek s.last_out_slash).text.length = s.last_out_slash := Buf.length_text_seek (by omega)
  have hne : (b.seek s.last_out_slash).room ≠ [] := List.length_pos_iff.mp (by omega)
  rw [swap, copySuffix_eq hne, hroom]
  by_cases hlen : suffix.length < n - s.last_out_slash
  · have hlt : s.last_out_slash + suffix.length < n := by omega
    obtain ⟨room, hsame, hdir⟩ := forDirectory_eq create_dir
      (b := ⟨(b.seek s.last_out_slash).text ++ suffix, (b.seek s.last_out_slash).room.drop suffix.length⟩)
      (by dsimp only; rw [List.length_drop]; omega)
    dsimp only at hsame
    rw [List.length_drop, hroom] at hsame
    have hall : ((b.seek s.last_out_slash).text ++ suffix).length = s.last_out_slash + suffix.length := by
      rw [List.length_append, htext]
    have hfront : 0 ∉ (b.seek s.last_out_slash).text ++ suffix ↔ s.last_out_slash ≤ b.text.length := by
      rw [List.mem_append, not_or, and_iff_left hsuffix]
      exact hgood.zero_notMem_take_iff (by omega)
    rw [if_pos hlen, ok_bind, hdir, ok_bind,
      ensures_copyLeaf (n := n) ?_ (List.length_pos_iff.mp (by dsimp only; omega)) hsource (h.leaf k hk).2]
    · dsimp only
      rw [hall, hfront, Int.natCast_add]
      exact ⟨fun hfits _ => hfits, fun hfits => hfits hlt⟩
    · rw [Buf.length_block, hall]
      dsimp only
      omega
  · rw [if_neg hlen]
    exact iff_of_true ensures_message fun hlt => by omega

/-- **What is done behind the loop**, if a suffix can be swapped. -/
theorem ensures_finish (h : Sound n source.length s) (hsource : 0 ∉ source) :
    Ensures (finish os flags create_dir path source s) (Good n) ↔ SwapFits os flags path n s := by
  have hended : Ensures (ended flags path s) (Good n) := ensures_ended h
  rw [finish, ensures_bind, hended.iff_forall]
  refine forall₂_congr fun b hb => ?_
  have hgood := hended.post hb
  cases hswap : suffixOf os flags s b with
  | none =>
    rw [ensures_pure]
    exact iff_of_true hgood fun _ _ heq => by cases heq
  | some found =>
    obtain ⟨suffix, k⟩ := found
    obtain ⟨hdot, hsuffix⟩ : s.last_out_dot = some k ∧ 0 ∉ suffix := by
      rw [suffixOf] at hswap
      cases hdot : s.last_out_dot with
      | none => rw [hdot] at hswap; cases hswap
      | some k' =>
        rw [hdot] at hswap
        dsimp only at hswap
        split at hswap
        · obtain ⟨rfl, rfl⟩ := Prod.mk.inj (Option.some.inj hswap)
          exact ⟨rfl, zero_notMem_cstr _⟩
        · cases hswap
    refine (ensures_swap h hgood hsource hsuffix hdot).trans ⟨fun hfits suffix' k' heq => ?_, fun hfits => hfits _ _ rfl⟩
    obtain ⟨rfl, rfl⟩ := Prod.mk.inj (Option.some.inj heq)
    exact hfits

/-- **`translate_or_null`** -/
theorem ensures_translate {i : Place} (h : Held n b) (hrest : 0 ∉ i.rest) :
    Ensures (translate_or_null os flags create_dir b i path) (Good n) ↔ TranslateFits os flags n b i path := by
  rw [translate_or_null, TranslateFits]
  by_cases hroom : b.room = []
  · rw [if_pos hroom]
    exact iff_of_true ensures_message fun hne => absurd hroom hne
  · have hlen := h.length
    have hpos := room_pos hroom
    have hstart : At n i.rest.length 0 i.before i.rest ⟨b, 0, none, b.text.length, none⟩ := by
      refine ⟨⟨h, hroom, ?_, Nat.zero_le _, nofun⟩, Nat.zero_add _, hrest, fun _ => ⟨?_, Nat.le_refl _, fun _ => rfl, nofun⟩⟩
      · change b.text.length < n
        omega
      · exact Nat.add_comm _ _
    have hloop := ensures_transLoop path hstart (Nat.le_refl _)
    rw [if_neg hroom, ensures_bind, ← hloop]
    refine ⟨fun hensures _ => ?_, fun hfits => ?_⟩
    · have hsound : Ensures (transLoop path i.rest.length 0 i.before i.rest ⟨b, 0, none, b.text.length, none⟩)
          (Sound n i.rest.length) := by
        -- a run that gives a result has made no turn that goes wrong
        rw [hloop]
        exact turnsFit_of_ensures hstart (Nat.le_refl _) hensures
      exact ⟨hsound, fun s hs => (ensures_finish (hsound.post hs) hrest).mp (hensures.post hs)⟩
    · obtain ⟨hsound, hswap⟩ := hfits hroom
      exact hsound.imp fun s hs hsnd => (ensures_finish hsnd hrest).mpr (hswap s hs)

end Behind

/-! ### The first characters -/

def Tail.Ready (n : ℕ) : Tail → Prop
  | .copy b source => Held n b ∧ 0 ∉ source
  | .translate b i _ => Held n b ∧ 0 ∉ i.rest
  | .device b name => Held n b ∧ b.text = [] ∧ 0 ∉ name
  | .done b => Good n b

section First

variable {os : Os} {flags : Flags} {n : ℕ} {path create_dir : Bool} {name rest : Text} {b : Buf} {i : Place}

theorem ensures_tail {t : Tail} (h : t.Ready n) : Ensures (t.run os flags create_dir) (Good n) ↔ t.Fits os flags n := by
  cases t with
  | copy b source =>
    obtain ⟨hb, hsource⟩ := h
    exact iff_of_true ((ensures_copy hb hsource).imp fun _ _ hgood => hgood.1) trivial
  | translate b i path =>
    obtain ⟨hb, hrest⟩ := h
    exact ensures_translate hb hrest
  | device b name =>
    obtain ⟨hb, htext, hname⟩ := h
    have hlen := hb.length
    have hroom : b.room.length = n := by
      rw [htext, List.length_nil, Nat.zero_add] at hlen
      exact hlen
    change Ensures (Riscosify.device b name) (Good n) ↔ name.length + 1 ≠ n
    rw [Riscosify.device, copy_or_null_eq, hroom]
    by_cases hfits : name.length < n
    · rw [if_pos hfits, ok_bind, ensures_bind, ensures_put, ensures_here]
      dsimp only
      rw [List.drop_succ_cons, List.drop_zero, List.length_cons, List.length_drop, hroom, htext]
      refine ⟨fun hensures => by omega, fun hne => ⟨by omega, by omega, ⟨?_, ?_⟩, rfl⟩⟩
      · rw [Buf.length_block]
        simp only [List.length_append, List.length_cons, List.length_nil, List.length_drop, hroom]
        omega
      · rw [List.nil_append, List.mem_append, not_or]
        exact ⟨hname, by decide⟩
    · rw [if_neg hfits]
      exact iff_of_true ensures_message (by omega)
  | done b => exact iff_of_true (ensures_pure.mpr h) trivial

theorem zero_notMem_skipSlashes (h : 0 ∉ i.rest) : 0 ∉ (skipSlashes i).rest := zero_notMem_dropWhile h

theorem ensures_slashAsDot (h : Held n b) (hroom : b.room ≠ []) (hrest : 0 ∉ i.rest) :
    Ensures (slashAsDot i b) fun r => Held n r.2 ∧ 0 ∉ r.1.rest := by
  rw [slashAsDot, ensures_bind, ensures_put, ensures_pure]
  exact ⟨room_pos hroom, h.put (room_pos hroom) (by decide), zero_notMem_skipSlashes hrest⟩

theorem ensures_dotForSlash (h : Held n b) (hroom : b.room ≠ []) (hrest : 0 ∉ i.rest) :
    Ensures (dotForSlash i b) fun r => Held n r.2 ∧ 0 ∉ r.1.rest := by
  rw [dotForSlash]
  split
  · exact ensures_slashAsDot h hroom hrest
  · rw [ensures_pure]
    exact ⟨h, zero_notMem_skipSlashes hrest⟩

theorem ready_translate {r : Place × Buf} (h : Held n r.2 ∧ 0 ∉ r.1.rest) :
    Ensures (pure (Tail.translate r.2 r.1 path) : Run Tail) (Tail.Ready n) := ensures_pure.mpr h

theorem ensures_copySysvar (h : Held n b) (hroom : b.room ≠ []) (hrest : 0 ∉ rest) :
    Ensures (copySysvar rest b) (Ready n) := by
  rw [copySysvar, ensures_bind]
  refine (ensures_putChecked h hroom (by decide)).imp fun b' _ ⟨hb', hroom', _⟩ => ?_
  exact (ensures_copyWhile hb' hroom' hrest).imp fun _ _ hr => hr.1

theorem ensures_copyGreater {r : Place × Buf} (h : Ready n r) :
    Ensures (copyGreater r) fun r' => Held n r'.2 ∧ 0 ∉ r'.1.rest ∧ r.2.room.length ≤ r'.2.room.length + 1 := by
  rw [copyGreater]
  split
  · rw [ensures_pure]
    exact ⟨h.held, h.noNul, Nat.le_succ _⟩
  · next c rest hcons =>
    have hnot := h.noNul
    rw [hcons, List.mem_cons, not_or] at hnot
    rw [ensures_bind, ensures_put, ensures_pure]
    refine ⟨room_pos h.room, h.held.put (room_pos h.room) (Ne.symm hnot.1), hnot.2, ?_⟩
    dsimp only
    rw [List.length_drop]
    omega

theorem ensures_slashSysvar (h : Held n b) (hroom : b.room ≠ []) (hrest : 0 ∉ rest) :
    Ensures (slashSysvar rest b) (Tail.Ready n) := by
  rw [slashSysvar, ensures_bind]
  refine (ensures_copySysvar h hroom hrest).imp fun r _ hr => ?_
  by_cases htwo : r.2.room.length ≤ 2
  · rw [if_pos htwo]
    exact ensures_message
  · rw [if_neg htwo, ensures_bind]
    refine (ensures_copyGreater hr).imp fun r' _ ⟨hheld, hnot, hmore⟩ => ?_
    rw [ensures_bind]
    refine (ensures_dotForSlash hheld (List.length_pos_iff.mp (by omega)) hnot).imp fun r'' _ hr'' => ?_
    exact ready_translate hr''

theorem ensures_dotBeforeRoot (h : Held n b) (hroom : b.room ≠ []) :
    Ensures (dotBeforeRoot b) fun b' => Held n b' ∧ b'.room ≠ [] := by
  rw [dotBeforeRoot]
  split
  · next hlast =>
    have hne : b.text ≠ [] := fun hnil => by rw [hnil] at hlast; cases hlast
    have hpos := List.length_pos_iff.mpr hne
    rw [setLast, if_neg hne, ensures_pure]
    refine ⟨⟨?_, ?_⟩, hroom⟩
    · rw [← h.block, Buf.length_block, Buf.length_block]
      simp only [List.length_append, List.length_dropLast, List.length_cons, List.length_nil]
      omega
    · rw [List.mem_append, not_or]
      exact ⟨fun hmem => h.noNul (List.dropLast_subset _ hmem), by decide⟩
  · rw [ensures_pure]
    exact ⟨h, hroom⟩

theorem ensures_slashFilingSystem (h : Held n b) (hroom : b.room ≠ []) (hrest : 0 ∉ i.rest) :
    Ensures (slashFilingSystem i b) (Tail.Ready n) := by
  rw [slashFilingSystem, ensures_bind]
  refine (ensures_copyWhile h hroom hrest).imp fun r _ ⟨hr, _, _⟩ => ?_
  have hnot := hr.noNul
  split
  · exact ready_translate ⟨hr.held, hnot⟩
  · next c rest hcons =>
    rw [hcons, List.mem_cons, not_or] at hnot
    rw [ensures_bind]
    refine (ensures_dotBeforeRoot hr.held hr.room).imp fun b' _ ⟨hb', hroom'⟩ => ?_
    rw [ensures_bind, ensures_put]
    refine ⟨room_pos hroom', ?_⟩
    have hput := hb'.put (room_pos hroom') (Ne.symm hnot.1)
    split
    · exact ensures_message
    · next hone =>
      have hne : b'.room.drop 1 ≠ [] := List.length_pos_iff.mp (Nat.lt_of_lt_of_le Nat.zero_lt_one (Nat.le_of_not_le hone))
      rw [ensures_bind]
      exact (ensures_dotForSlash (i := ⟨c, rest⟩) hput hne hnot.2).imp fun r' _ hr' => ready_translate hr'

theorem ensures_slashRoot (h : Held n b) (hroom : b.room ≠ []) (hrest : 0 ∉ rest) :
    Ensures (slashRoot rest b) (Tail.Ready n) := by
  rw [slashRoot, ensures_bind, ensures_put]
  refine ⟨room_pos hroom, ?_⟩
  have hput := h.put (c := DOLLAR) (room_pos hroom) (by decide)
  split
  · exact ensures_message
  · next hone =>
    rw [ensures_bind]
    unfold behindRoot
    split
    · rw [ensures_pure]
      exact ready_translate (r := (⟨DOLLAR, []⟩, _)) ⟨hput, List.not_mem_nil⟩
    · next c rest' =>
      have hpos : 1 ≤ (b.room.drop 1).length := Nat.le_of_lt (Nat.lt_of_not_le hone)
      rw [ensures_bind, ensures_put, ensures_pure]
      refine ⟨hpos, ready_translate (r := (_, _)) ⟨hput.put (c := DOT) hpos (by decide), ?_⟩⟩
      dsimp only
      split
      · exact fun hmem => hrest (List.mem_cons_of_mem _ hmem)
      · exact zero_notMem_skipSlashes (i := ⟨DOLLAR, c :: rest'⟩) hrest

theorem ensures_slashColon (h : Held n b) (hroom : b.room ≠ []) (hrest : 0 ∉ rest) :
    Ensures (slashColon rest b) (Tail.Ready n) := by
  rw [slashColon]
  split
  · exact ensures_slashFilingSystem h hroom hrest
  · split
    · exact ensures_slashRoot h hroom (zero_notMem_drop 1 hrest)
    · exact ready_translate (r := (_, _)) ⟨h, zero_notMem_skipSlashes (i := ⟨COLON, rest⟩) hrest⟩

/-! ### The guess -/

/-- The marks are places in what has been written from `lo` on. -/
def Marks.Within (lo hi : ℕ) (m : Marks) : Prop := ∀ k, m.last = some k → lo ≤ k ∧ k < hi

theorem ensures_findMarks {lo : ℕ} {m : Marks} (h : Held n b) (hroom : b.room ≠ []) (hrest : 0 ∉ rest)
    (hlo : lo ≤ b.text.length) (hm : m.Within lo b.text.length) :
    Ensures (findMarks rest b m) fun r =>
      Held n r.1 ∧ r.1.room ≠ [] ∧ lo ≤ r.1.text.length ∧ r.2.Within lo r.1.text.length := by
  induction rest generalizing b m with
  | nil =>
    rw [findMarks, ensures_pure]
    exact ⟨h, hroom, hlo, hm⟩
  | cons c rest ih =>
    rw [List.mem_cons, not_or] at hrest
    rw [findMarks, ensures_bind]
    refine (ensures_putChecked h hroom (Ne.symm hrest.1)).imp fun b' _ ⟨hb', hroom', htext⟩ => ?_
    have hlen : b'.text.length = b.text.length + 1 := by rw [htext, List.length_append]; rfl
    refine ih hb' hroom' hrest.2 (by omega) fun k hk => ?_
    have hold (hk : m.last = some k) : lo ≤ k ∧ k < b'.text.length := by
      have hlast := hm k hk
      omega
    have hnew (hk : some b.text.length = some k) : lo ≤ k ∧ k < b'.text.length := by
      obtain rfl := Option.some.inj hk
      omega
    rw [Marks.at] at hk
    split at hk
    · exact hnew hk
    · split at hk
      · exact hnew hk
      · exact hold hk

theorem held_seek_set {k last : ℕ} (h : Held n b) (hk : k ≤ last) (hlast : last < b.text.length) :
    Held n (Buf.seek k ⟨[], b.block.set last 0⟩) where
  block := by
    rw [Buf.block_seek, Buf.length_block, List.length_nil, List.length_set, h.block, Nat.zero_add]
  noNul := by
    change 0 ∉ (b.block.set last 0).take k
    rw [List.take_set_of_le hk, Buf.block, List.take_append_of_le_length (by omega)]
    exact fun hmem => h.noNul (List.mem_of_mem_take hmem)

theorem ready_ite {p : Prop} [Decidable p] (h : Held n b) (hi : 0 ∉ i.rest) :
    (if p then Tail.copy b i.rest else Tail.translate b i path).Ready n := by
  split
  · exact ⟨h, hi⟩
  · exact ⟨h, hi⟩

theorem ensures_guess (h : Held n b) (hroom : b.room ≠ []) (hi : 0 ∉ i.rest) (hname : 0 ∉ name) :
    Ensures (guess_or_null os flags b i name path) (Tail.Ready n) := by
  have horig : (if path then b.text.length else 0) ≤ b.text.length := by split <;> omega
  have hin : 0 ∉ (if path then i else ⟨0, name⟩ : Place).rest := by split <;> assumption
  rw [guess_or_null]
  by_cases hstrict : flags.strict_unix_specs = true
  · rw [if_pos hstrict]
    exact ensures_pure.mpr ⟨h.back horig, hin⟩
  · rw [if_neg hstrict, ensures_bind]
    have hnone : Marks.Within (if path then b.text.length else 0) b.text.length ⟨none, none, false⟩ := nofun
    refine (ensures_findMarks h hroom hi horig hnone).imp fun r _ ⟨hr, hroom', hle, hwithin⟩ => ?_
    rw [ensures_bind, ensures_here]
    refine ⟨room_pos hroom', ?_⟩
    have hheld := hr.here (c := 0) (room_pos hroom')
    split
    · exact ensures_pure.mpr ⟨hheld.back hle, hin⟩
    · next last hlast =>
      obtain ⟨hlo, hlt⟩ := hwithin last hlast
      have hblock := hheld.length
      dsimp only at hblock
      have hlast' : last < (Buf.mk r.1.text (0 :: r.1.room.drop 1)).block.length := by
        rw [Buf.length_block]
        dsimp only
        omega
      rw [guessAt, load_eq hlast', ok_bind, store, if_pos hlast', pure_bind]
      have hseek := held_seek_set hheld hlo hlt
      exact ensures_pure.mpr (ready_ite hseek hin)

/-! ### Absolute paths -/

/-- The output in the array is where it is without an end. -/
structure Follows (s : Canonical) (t : Canon) : Prop where
  block : s.b.block.length = MAXPATHLEN
  out : s.b.text.length = t.out
  current : s.current_slash = t.current_slash
  previous : s.previous_slash = t.previous_slash
  currentLe : t.current_slash ≤ MAXPATHLEN
  previousLe : ∀ previous_slash, t.previous_slash = some previous_slash → previous_slash ≤ MAXPATHLEN

variable {s : Canonical} {t : Canon}

theorem Follows.length (h : Follows s t) : t.out + s.b.room.length = MAXPATHLEN := by
  rw [← h.out, ← s.b.length_block, h.block]

/-- What a turn does, and what it does without an end: the code leaves the array just if the output gets behind it. -/
def SameTurn (x : Run (UInt8 × Text × Canonical)) (y : Option (UInt8 × Text × Canon)) : Prop :=
  (∃ d rest' s' t', x = .ok (d, rest', s') ∧ y = some (d, rest', t') ∧ t'.out ≤ MAXPATHLEN ∧ Follows s' t') ∨
    x = .error .outside ∧ ∀ r, y = some r → ¬r.2.2.out ≤ MAXPATHLEN

theorem sameTurn_put (h : Follows s t) (c d : UInt8) (rest' : Text) :
    SameTurn (s.put c >>= fun s => pure (d, rest', s)) (some (d, rest', t.put c)) := by
  have hlen := h.length
  rw [Canonical.put, put_eq]
  by_cases hroom : 1 ≤ s.b.room.length
  · rw [if_pos hroom]
    refine Or.inl ⟨d, rest', _, _, rfl, rfl, ?_, ?_, ?_, h.current, h.previous, h.currentLe, h.previousLe⟩
    · change t.out + 1 ≤ MAXPATHLEN
      omega
    · have hblock := h.block
      rw [Buf.length_block] at hblock ⊢
      simp only [List.length_append, List.length_cons, List.length_nil, List.length_drop]
      omega
    · change (s.b.text ++ [c]).length = t.out + 1
      rw [List.length_append, h.out]
      rfl
  · rw [if_neg hroom]
    refine Or.inr ⟨rfl, fun r hr => ?_⟩
    obtain rfl := Option.some.inj hr
    change ¬t.out + 1 ≤ MAXPATHLEN
    omega

theorem sameTurn_slash (h : Follows s t) (rest' : Text) :
    SameTurn (s.slash >>= fun s => pure (SLASH, rest', s)) (some (SLASH, rest', t.slash)) := by
  have hlen := h.length
  rw [Canonical.slash, put_eq]
  by_cases hroom : 1 ≤ s.b.room.length
  · rw [if_pos hroom]
    refine Or.inl ⟨SLASH, rest', _, _, rfl, rfl, ?_, ?_, ?_, h.out, congrArg some h.current, ?_, ?_⟩
    · change t.out + 1 ≤ MAXPATHLEN
      omega
    · have hblock := h.block
      rw [Buf.length_block] at hblock ⊢
      simp only [List.length_append, List.length_cons, List.length_nil, List.length_drop]
      omega
    · change (s.b.text ++ [SLASH]).length = t.out + 1
      rw [List.length_append, h.out]
      rfl
    · change t.out ≤ MAXPATHLEN
      omega
    · intro previous_slash heq
      obtain rfl : t.current_slash = previous_slash := Option.some.inj heq
      exact h.currentLe
  · rw [if_neg hroom]
    refine Or.inr ⟨rfl, fun r hr => ?_⟩
    obtain rfl := Option.some.inj hr
    change ¬t.out + 1 ≤ MAXPATHLEN
    omega

theorem sameTurn_up (h : Follows s t) (rest' : Text) :
    SameTurn (s.up >>= fun s => pure (DOT, rest', s)) (match t.previous_slash with
        | some previous_slash => some (DOT, rest', { t with out := previous_slash })
        | none => if t.out + 1 ≤ MAXPATHLEN then some (DOT, rest', (t.put DOT).put DOT) else none) := by
  have hlen := h.length
  unfold Canonical.up
  rw [h.previous]
  cases hprevious : t.previous_slash with
  | some previous_slash =>
    have hle := h.previousLe previous_slash hprevious
    refine Or.inl ⟨DOT, rest', _, _, rfl, rfl, hle, ?_, ?_, h.current, ?_, h.currentLe, ?_⟩
    · rw [Buf.block_seek, h.block]
    · exact Buf.length_text_seek (h.block ▸ hle)
    · rfl
    · exact fun _ heq => h.previousLe _ (hprevious.trans heq)
  | none =>
    dsimp only
    rw [puts_eq]
    by_cases hroom : [DOT, DOT].length ≤ s.b.room.length
    · have htwo : 2 ≤ s.b.room.length := hroom
      rw [if_pos hroom, if_pos (by omega)]
      refine Or.inl ⟨DOT, rest', _, _, rfl, rfl, ?_, ?_, ?_, h.current, hprevious.symm, h.currentLe, h.previousLe⟩
      · change t.out + 1 + 1 ≤ MAXPATHLEN
        omega
      · have hblock := h.block
        rw [Buf.length_block] at hblock ⊢
        simp only [List.length_append, List.length_cons, List.length_nil, List.length_drop]
        omega
      · change (s.b.text ++ [DOT, DOT]).length = t.out + 1 + 1
        rw [List.length_append, h.out]
        rfl
    · have htwo : ¬2 ≤ s.b.room.length := hroom
      rw [if_neg hroom]
      refine Or.inr ⟨rfl, fun r hr => ?_⟩
      split at hr
      · obtain rfl := Option.some.inj hr
        change ¬t.out + 1 + 1 ≤ MAXPATHLEN
        omega
      · cases hr

theorem sameTurn (h : Follows s t) (before : Option UInt8) (c : UInt8) (rest : Text) :
    SameTurn (s.turn before c rest) (canonTurn MAXPATHLEN before c rest t) := by
  have hlen := h.length
  have hsame (d : UInt8) (rest' : Text) : SameTurn (pure (d, rest', s)) (some (d, rest', t)) :=
    Or.inl ⟨d, rest', s, t, rfl, rfl, by omega, h⟩
  rw [Canonical.turn, canonTurn]
  split
  · exact sameTurn_slash h _
  · split
    · split
      · exact sameTurn_up h _
      · split
        · exact hsame _ _
        · split
          · exact hsame _ _
          · exact sameTurn_put h _ _ _
    · exact sameTurn_put h _ _ _

theorem canonTurn_shorter {buf_end : ℕ} {before : Option UInt8} {c : UInt8} {rest : Text}
    {r : UInt8 × Text × Canon} (h : canonTurn buf_end before c rest t = some r) : r.2.1.length ≤ rest.length := by
  have hdrop : (rest.drop 1).length ≤ rest.length := List.length_drop ▸ Nat.sub_le _ _
  rw [canonTurn] at h
  split at h
  · obtain rfl := Option.some.inj h
    exact (List.dropWhile_suffix _).length_le
  · split at h
    · split at h
      · split at h
        · obtain rfl := Option.some.inj h
          exact hdrop
        · split at h
          · obtain rfl := Option.some.inj h
            exact hdrop
          · cases h
      · split at h
        · obtain rfl := Option.some.inj h
          exact hdrop
        · split at h
          · obtain rfl := Option.some.inj h
            exact Nat.le_refl _
          · obtain rfl := Option.some.inj h
            exact Nat.le_refl _
    · obtain rfl := Option.some.inj h
      exact Nat.le_refl _

theorem ensuresIff_canonicalLoop {turns : ℕ} {before : Option UInt8} (h : Follows s t)
    (hturns : rest.length ≤ turns) :
    EnsuresIff (Canonical.loop turns before rest s >>= fun s => here 0 s.b) (CanonFitsFrom turns before rest t)
      fun _ => True := by
  have hlen := h.length
  induction turns generalizing before rest s t with
  | zero =>
    obtain rfl := List.length_eq_zero_iff.mp (Nat.le_zero.mp hturns)
    rw [Canonical.loop, CanonFitsFrom, pure_bind, here_eq]
    refine ⟨fun hfits => ?_, fun hnot => if_neg (by omega)⟩
    rw [if_pos (by omega), ensures_ok]
    trivial
  | succ turns ih =>
    cases rest with
    | nil =>
      rw [Canonical.loop, CanonFitsFrom, pure_bind, here_eq]
      refine ⟨fun hfits => ?_, fun hnot => if_neg (by omega)⟩
      rw [if_pos (by omega), ensures_ok]
      trivial
    | cons c rest =>
      rw [Canonical.loop, CanonFitsFrom, bind_assoc]
      obtain ⟨d, rest', s', t', hx, hy, hle, hnext⟩ | ⟨hx, hy⟩ := sameTurn h before c rest
      · have hshort : rest'.length ≤ turns :=
          Nat.le_trans (canonTurn_shorter hy) (Nat.le_of_succ_le_succ hturns)
        have hih : EnsuresIff (Canonical.loop turns (some d) rest' s' >>= fun s => here 0 s.b)
            (CanonFitsFrom turns (some d) rest' t') fun _ => True := ih hnext hshort hnext.length
        obtain ⟨hensures, houtside⟩ := hih
        rw [hx, ok_bind]
        refine ⟨fun ⟨r, hr, _, hfits⟩ => hensures ?_, fun hnot => houtside fun hfits => hnot ⟨_, hy, hle, hfits⟩⟩
        obtain rfl := Option.some.inj (hy.symm.trans hr)
        exact hfits
      · rw [hx]
        exact ⟨fun ⟨r, hr, hle, _⟩ => absurd hle (hy r hr), fun _ => rfl⟩

theorem ensuresIff_canonicalise (os : Os) (name : Text) : EnsuresIff (canonicalise_unix_path os name) (CanonFits name) fun _ => True := by
  refine ensuresIff_canonicalLoop ⟨os.canonical_length, rfl, rfl, rfl, Nat.zero_le _, nofun⟩ (Nat.le_refl _)

theorem ensures_sdirseg {source : Text} (h : Held n b) (hsource : 0 ∉ source) :
    Ensures (sdirseg os source b) fun m => ∀ x, m = some x → Held n x.2 ∧ 0 ∉ x.1 := by
  unfold sdirseg
  split
  · exact ensures_pure.mpr nofun
  · next rest riscos_name hfound =>
    obtain ⟨d, hd, hsome⟩ := List.exists_of_findSome?_eq_some hfound
    obtain ⟨rest', hrest', heq⟩ := Option.map_eq_some_iff.mp hsome
    obtain ⟨rfl, rfl⟩ := Prod.mk.inj heq
    have hnot : 0 ∉ rest' := by
      rw [behindDir] at hrest'
      split at hrest'
      · exact Option.some.inj hrest' ▸ zero_notMem_drop _ hsource
      · cases hrest'
    rw [ensures_bind]
    refine (ensures_copy h (os.sdirs_noNul d hd)).imp fun b' _ ⟨hgood, _⟩ => ?_
    rw [ensures_pure]
    intro x hx
    obtain rfl := Option.some.inj hx
    exact ⟨hgood.toHeld, hnot⟩

theorem ready_matched (h : Held n b) (hrest : 0 ∉ rest) : (matched rest b).Ready n := by
  refine ⟨h, ?_⟩
  split
  · exact zero_notMem_skipSlashes (i := ⟨0, rest⟩) hrest
  · exact hrest

theorem ensures_rootSegment {canonical : List UInt8} (h : Held n b) :
    Ensures (rootSegment os canonical b) (Tail.Ready n) := by
  rw [rootSegment, ensures_bind]
  refine (ensures_sdirseg h (zero_notMem_cstr _)).imp fun m _ hm => ?_
  split
  · next rest b' =>
    obtain ⟨hheld, hrest⟩ := hm _ rfl
    exact ensures_pure.mpr (ready_matched hheld hrest)
  · rw [currentFs]
    split
    · exact ensures_message
    · next htwo =>
      rw [ensures_bind, ensures_puts, ensures_pure]
      have hroom : [DOLLAR, DOT].length ≤ b.room.length := Nat.le_of_not_le htwo
      exact ⟨hroom, h.puts hroom (by decide), zero_notMem_cstr _⟩

theorem ensuresIff_absolute (os : Os) (name : Text) (h : Held n b) : EnsuresIff (absolute os name b) (CanonFits name) (Tail.Ready n) := by
  obtain ⟨hensures, houtside⟩ := ensuresIff_canonicalise os name
  have hback : Held n (b.seek 0) := h.back (Nat.zero_le _)
  rw [absolute]
  refine ⟨fun hfits => ?_, fun hnot => by rw [houtside hnot]; rfl⟩
  rw [ensures_bind]
  refine (hensures hfits).imp fun canonical _ _ => ?_
  split
  · exact ensures_pure.mpr ⟨hback, rfl, zero_notMem_drop 5 (zero_notMem_cstr _)⟩
  · have husr : Ensures (usrSegment os (cstr canonical.block) (b.seek 0)) fun m =>
        ∀ x, m = some x → Held n x.2 ∧ 0 ∉ x.1 := by
      rw [usrSegment]
      split
      · exact ensures_sdirseg hback (zero_notMem_drop 5 (zero_notMem_cstr _))
      · exact ensures_pure.mpr nofun
    rw [ensures_bind]
    refine husr.imp fun m _ hm => ?_
    split
    · obtain ⟨hheld, hrest⟩ := hm _ rfl
      exact ensures_pure.mpr (ready_matched hheld hrest)
    · exact ensures_rootSegment hback

/-! ### The cases -/

theorem zero_notMem_behindField (h : 0 ∉ rest) : 0 ∉ behindField rest := by
  rw [behindField]
  split
  · exact zero_notMem_dropWhile (zero_notMem_dropWhile h)
  · exact zero_notMem_dropWhile h

/-- **What is in front of a `:` is copied**, if it is within the buffer and not at its end. -/
theorem copyField_eq (hroom : b.room ≠ []) :
    ∃ before', copyField i b =
      if (field i.rest).length < b.room.length then
        .ok (⟨before', behindField i.rest⟩, ⟨b.text ++ field i.rest, b.room.drop (field i.rest).length⟩)
      else .error .message := by
  obtain ⟨before₁, hplain⟩ := copyWhile_eq plain i.before i.rest hroom
  rw [copyField, hplain, field, behindField]
  by_cases hlen : (i.rest.takeWhile plain).length < b.room.length
  · rw [if_pos hlen, ok_bind]
    dsimp only
    by_cases hhash : (i.rest.dropWhile plain).head? = some HASH
    · have hne : b.room.drop (i.rest.takeWhile plain).length ≠ [] :=
        fun hnil => absurd (List.drop_eq_nil_iff.mp hnil) (by omega)
      obtain ⟨before₂, hspecial⟩ := copyWhile_eq (· ≠ COLON) before₁ (i.rest.dropWhile plain)
        (b := ⟨b.text ++ i.rest.takeWhile plain, b.room.drop (i.rest.takeWhile plain).length⟩) hne
      refine ⟨before₂, ?_⟩
      rw [if_pos hhash, if_pos hhash, if_pos hhash, hspecial]
      dsimp only
      rw [List.length_drop, List.length_append, List.append_assoc, List.drop_drop]
      by_cases hall : ((i.rest.dropWhile plain).takeWhile (· ≠ COLON)).length <
          b.room.length - (i.rest.takeWhile plain).length
      · rw [if_pos hall, if_pos (by omega)]
      · rw [if_neg hall, if_neg (by omega)]
    · refine ⟨before₁, ?_⟩
      rw [if_neg hhash, if_neg hhash, if_neg hhash, List.append_nil, if_pos hlen]
      rfl
  · refine ⟨before₁, ?_⟩
    rw [if_neg hlen, if_neg (by rw [List.length_append]; omega)]
    rfl

theorem ensuresIff_slashCase (os : Os) (name : Text) (h : Held n b) (htext : b.text = []) (hroom : b.room ≠ []) (hrest : 0 ∉ rest) :
    EnsuresIff (slashCase os name rest b) (SlashFits n name rest) (Tail.Ready n) := by
  rw [slashCase, SlashFits]
  by_cases hless : rest.head? = some LESS
  · rw [if_pos hless]
    exact (ensures_slashSysvar h hroom (zero_notMem_drop 1 hrest)).ensuresIff fun hne => absurd hless hne
  · obtain ⟨before', heq⟩ := copyField_eq (i := ⟨SLASH, rest⟩) hroom
    dsimp only at heq
    have hn : b.room.length = n := by
      have hlen := h.length
      rw [htext, List.length_nil, Nat.zero_add] at hlen
      exact hlen
    rw [if_neg hless, heq, hn]
    by_cases hlen : (field rest).length < n
    · have hfield : 0 ∉ field rest := by
        rw [field, List.mem_append, not_or]
        refine ⟨zero_notMem_takeWhile hrest, ?_⟩
        split
        · exact zero_notMem_takeWhile (zero_notMem_dropWhile hrest)
        · exact List.not_mem_nil
      have hheld := h.puts (l := field rest) (by omega) hfield
      have hne : b.room.drop (field rest).length ≠ [] := fun hnil => absurd (List.drop_eq_nil_iff.mp hnil) (by omega)
      rw [if_pos hlen, ok_bind]
      dsimp only
      by_cases hcolon : (behindField rest).head? = some COLON
      · rw [if_pos hcolon]
        refine Ensures.ensuresIff ?_ fun _ _ hnot => absurd hcolon hnot
        rw [ensures_bind]
        refine (ensures_putChecked (b := ⟨b.text ++ field rest, b.room.drop (field rest).length⟩) hheld hne
          (by decide)).imp fun b' _ ⟨hb', hroom', _⟩ => ?_
        exact ensures_slashColon hb' hroom' (zero_notMem_drop 1 (zero_notMem_behindField hrest))
      · rw [if_neg hcolon]
        obtain ⟨hensures, houtside⟩ := ensuresIff_absolute os name hheld
        exact ⟨fun hfits => hensures (hfits hless hlen hcolon), fun hnot => houtside fun hfits => hnot fun _ _ _ => hfits⟩
    · rw [if_neg hlen]
      exact Ensures.ensuresIff ensures_message fun _ hlt => absurd hlt hlen

theorem ensures_rootCase {c : UInt8} (h : Held n b) (hroom : b.room ≠ []) (hc : c ≠ 0) (hrest : 0 ∉ rest) :
    Ensures (rootCase c rest b) (Tail.Ready n) := by
  rw [rootCase, ensures_bind, ensures_put]
  have hput := h.put (room_pos hroom) hc
  refine ⟨room_pos hroom, ?_⟩
  split
  · split
    · exact ensures_message
    · next hne =>
      rw [ensures_bind]
      exact (ensures_slashAsDot (i := ⟨c, rest⟩) hput hne hrest).imp fun r _ hr => ready_translate hr
  · exact ensures_pure.mpr ⟨hput, hrest⟩

theorem ensures_translateOrCopy (h : Held n b) (hroom : b.room ≠ []) (hi : 0 ∉ i.rest) :
    Ensures (translateOrCopy i b) (Tail.Ready n) := by
  rw [translateOrCopy]
  split
  · rw [ensures_bind]
    exact (ensures_slashAsDot h hroom hi).imp fun r _ hr => ready_translate hr
  · exact ensures_pure.mpr ⟨h, hi⟩

theorem ensures_sysvarCase (h : Held n b) (hroom : b.room ≠ []) (hrest : 0 ∉ rest) :
    Ensures (sysvarCase rest b) (Tail.Ready n) := by
  rw [sysvarCase, ensures_bind]
  refine (ensures_copySysvar h hroom hrest).imp fun r _ hr => ?_
  rw [ensures_bind]
  refine (ensures_copyGreater hr).imp fun r' _ ⟨hheld, hnot, _⟩ => ?_
  split
  · exact ensures_message
  · next hne => exact ensures_translateOrCopy hheld hne hnot

theorem ensures_return {c : UInt8} (h : Held n b) (hc : c ≠ 0) : Ensures (return_ c b) (Tail.Ready n) := by
  rw [return_]
  split
  · exact ensures_message
  · next hone =>
    have hdrop : 1 ≤ (b.room.drop 1).length := by
      rw [List.length_drop]
      omega
    rw [ensures_bind, ensures_put, ensures_bind, ensures_here, ensures_pure]
    exact ⟨by omega, hdrop, good_here (h.put (by omega) hc) hdrop⟩

theorem ensures_dotCase (h : Held n b) (hname : 0 ∉ name) : Ensures (dotCase name b) (Tail.Ready n) := by
  rw [dotCase]
  split
  · exact ensures_return h (by decide)
  · split
    · exact ensures_return h (by decide)
    · exact ensures_pure.mpr ⟨h, hname⟩

theorem ensures_filingSystem (h : Held n b) (hroom : b.room ≠ []) (hrest : 0 ∉ rest) :
    Ensures (filingSystem rest b) (Tail.Ready n) := by
  have hroot {r : Place × Buf} (hr : Ready n r) : Ensures (rootOfDisc r) (Ready n) := by
    rw [rootOfDisc]
    split
    · split
      · exact ensures_message
      · next htwo =>
        have hle : [DOT, DOLLAR].length ≤ r.2.room.length := Nat.le_of_not_le htwo
        rw [ensures_bind, ensures_puts, ensures_pure]
        refine ⟨hle, hr.held.puts hle (by decide), ?_, zero_notMem_drop 2 hr.noNul⟩
        exact fun hnil => htwo (List.drop_eq_nil_iff.mp hnil)
    · exact ensures_pure.mpr hr
  rw [filingSystem, ensures_bind]
  refine (ensures_copyWhile h hroom hrest).imp fun r _ ⟨hr, _, _⟩ => ?_
  rw [ensures_bind]
  exact (hroot hr).imp fun r' _ hr' => ensures_translateOrCopy hr'.held hr'.room hr'.noNul

theorem ensures_defaultCase (h : Held n b) (hroom : b.room ≠ []) (hname : 0 ∉ name) :
    Ensures (defaultCase os flags name b) (Tail.Ready n) := by
  have hfield : Ensures (copyField ⟨0, name⟩ b) (Ready n) := by
    rw [copyField, ensures_bind]
    refine (ensures_copyWhile h hroom hname).imp fun r _ ⟨hr, _, _⟩ => ?_
    split
    · exact (ensures_copyWhile hr.held hr.room hr.noNul).imp fun _ _ hr' => hr'.1
    · exact ensures_pure.mpr hr
  rw [defaultCase, ensures_bind]
  refine hfield.imp fun r _ hr => ?_
  split
  · rw [ensures_bind]
    refine (ensures_putChecked hr.held hr.room (by decide)).imp fun b' _ ⟨hb', hroom', _⟩ => ?_
    have hrest := zero_notMem_drop 1 hr.noNul
    rw [colonCase]
    split
    · exact ensures_filingSystem hb' hroom' hrest
    · split
      · exact ensures_pure.mpr ⟨hb', zero_notMem_skipSlashes (i := ⟨COLON, _⟩) hrest⟩
      · exact ensures_guess hb' hroom' hrest hname
  · exact ensures_guess hr.held hr.room hr.noNul hname

theorem ensuresIff_routeName (h : Held n b) (htext : b.text = []) (hroom : b.room ≠ []) (hname : 0 ∉ name) :
    EnsuresIff (routeName os flags name b) (NameFits n name) (Tail.Ready n) := by
  have hskip : 0 ∉ skipCurrent name := by
    rw [skipCurrent]
    split
    · exact zero_notMem_drop 1 hname
    · exact hname
  unfold routeName
  rw [NameFits]
  cases hsplit : skipCurrent name with
  | nil => exact (ensures_defaultCase h hroom hname).ensuresIff nofun
  | cons c rest =>
    rw [hsplit, List.mem_cons, not_or] at hskip
    dsimp only
    by_cases hslash : c = SLASH
    · subst hslash
      rw [if_pos rfl]
      obtain ⟨hensures, houtside⟩ := ensuresIff_slashCase os name h htext hroom hskip.2
      refine ⟨fun hfits => hensures (hfits rest rfl), fun hnot => houtside fun hfits => hnot fun rest' heq => ?_⟩
      obtain rfl := (List.cons.inj heq).2
      exact hfits
    · rw [if_neg hslash]
      refine Ensures.ensuresIff ?_ fun rest' heq => absurd (List.cons.inj heq).1 hslash
      split
      · exact ensures_rootCase h hroom (Ne.symm hskip.1) hskip.2
      · split
        · exact ensures_sysvarCase h hroom hskip.2
        · split
          · exact ensures_dotCase h hname
          · exact ensures_defaultCase h hroom hname

theorem ensuresIff_homeCase (h : Held n b) (htext : b.text = []) (hroom : b.room ≠ []) (hname : 0 ∉ name) :
    EnsuresIff (homeCase os flags name b) (HomeFits os n name) (Tail.Ready n) := by
  have huser : 0 ∉ behindUser name := zero_notMem_dropWhile (zero_notMem_drop 1 hname)
  rw [homeCase, HomeFits, toNewBuffer]
  by_cases hhome : os.home.length < MAXPATHLEN
  · rw [if_pos hhome, pure_bind, and_iff_right hhome]
    by_cases htilde : os.home.head? = some TILDE
    · rw [if_pos htilde, if_pos htilde]
      cases hsplit : behindUser name with
      | nil => exact ⟨fun ⟨c, rest, heq, _⟩ => (nomatch heq), fun _ => rfl⟩
      | cons c rest =>
        rw [hsplit, List.mem_cons, not_or] at huser
        obtain ⟨hensures, houtside⟩ := ensuresIff_slashCase os name h htext hroom huser.2
        refine ⟨fun ⟨c', rest', heq, hfits⟩ => hensures ?_, fun hnot => houtside fun hfits => hnot ⟨c, rest, rfl, hfits⟩⟩
        obtain rfl := (List.cons.inj heq).2
        exact hfits
    · rw [if_neg htilde, if_neg htilde, toNewBuffer]
      by_cases hall : (os.home ++ behindUser name).length < MAXPATHLEN
      · rw [if_pos hall, pure_bind, and_iff_right hall]
        exact ensuresIff_routeName h htext hroom fun hmem => (List.mem_append.mp hmem).elim os.home_noNul huser
      · rw [if_neg hall]
        exact ⟨fun hfits => absurd hfits.1 hall, fun _ => rfl⟩
  · rw [if_neg hhome]
    exact ⟨fun hfits => absurd hfits.1 hhome, fun _ => rfl⟩

theorem ensuresIff_route (os : Os) (flags : Flags) (h : Held n b) (htext : b.text = []) (hroom : b.room ≠ []) (hname : 0 ∉ name) :
    EnsuresIff (route os flags name b) (RouteFits os flags n name) (Tail.Ready n) := by
  rw [route, RouteFits]
  by_cases hcopy : flags.no_process = true
  · rw [if_pos hcopy]
    exact (ensures_pure.mpr ⟨h, hname⟩ : Ensures (pure (Tail.copy b name)) (Tail.Ready n)).ensuresIff (Or.inl hcopy)
  · rw [if_neg hcopy, or_iff_right hcopy]
    by_cases htilde : name.head? = some TILDE
    · rw [if_pos htilde, if_pos htilde]
      exact ensuresIff_homeCase h htext hroom hname
    · rw [if_neg htilde, if_neg htilde]
      exact ensuresIff_routeName h htext hroom hname

end First

/-! ### The call -/

/-- **When `__riscosify` keeps to its buffers**: the first characters can be dealt with, and then so can the rest. -/
theorem riscosify_right_iff (os : Os) (flags : Flags) (create_dir : Bool) (name : Text) (block : List UInt8)
    (hname : 0 ∉ name) (hblock : 1 ≤ block.length) :
    Right block.length (riscosify os flags create_dir name block) ↔
      RouteFits os flags block.length name ∧
        ∀ t, route os flags name ⟨[], block⟩ = .ok t → t.Fits os flags block.length := by
  have hheld : Held block.length ⟨[], block⟩ := ⟨rfl, List.not_mem_nil⟩
  have hroute := ensuresIff_route os flags hheld rfl (List.length_pos_iff.mp hblock) hname
  exact hroute.bind_iff fun t ht => ensures_tail ht

def someOs : Os where
  suffixes := [textOf "c", textOf "h", textOf "o"]
  sdirs := [(textOf "tmp", textOf "<Wimp$ScrapDir>")]
  sdirs_noNul := by decide
  home := textOf "/home"
  home_noNul := by decide
  canonical := List.replicate MAXPATHLEN 0
  canonical_length := List.length_replicate
  below := 0
  behind := []
  beyond := []

def noFlags : Flags := ⟨false, false, false, false⟩

/-- A name that is copied: `$.c` in 8 bytes. -/
theorem riscosify_right_iff_copied :
    0 ∉ textOf "$.c" ∧ 1 ≤ (List.replicate 8 (0 : UInt8)).length ∧
      Right 8 (riscosify someOs noFlags false (textOf "$.c") (List.replicate 8 0)) := by
  have hname : 0 ∉ textOf "$.c" := by decide
  have hblock : 1 ≤ (List.replicate 8 (0 : UInt8)).length := by decide
  refine ⟨hname, hblock, (riscosify_right_iff someOs noFlags false _ _ hname hblock).mpr ⟨?_, fun t ht => ?_⟩⟩
  · refine Or.inr ?_
    rw [if_neg (by decide)]
    intro rest heq
    have hskip : skipCurrent (textOf "$.c") = DOLLAR :: textOf ".c" := by decide
    have hhead : DOLLAR ≠ SLASH := by decide
    exact absurd (List.cons.inj (hskip.symm.trans heq)).1 hhead
  · obtain rfl := Except.ok.inj ht
    trivial

/-- **The dot of a name in front of a slash**: for `$/a./b` in 4 bytes, the code writes behind the buffer. -/
theorem dot_not_right : ¬Right 4 (riscosify someOs noFlags false (textOf "$/a./b") (List.replicate 4 0)) := by
  have hrun : riscosify someOs noFlags false (textOf "$/a./b") (List.replicate 4 0) = .error .outside := by
    decide
  rw [hrun]
  exact not_ensures_outside

end UnixLib.Riscosify
