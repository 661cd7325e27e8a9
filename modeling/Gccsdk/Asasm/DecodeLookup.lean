import Gccsdk.Asasm.Decode
import Gccsdk.Lib.PrefixSearch

/-!
# The mnemonic found by `Decode`

The search of `Decode` finds the longest mnemonic of the table that is a beginning of the text
(`Longest`), and selects it when the rest of the word is left to the callback or the word ends there.
The mnemonics are in order, so that `PrefixSearch` applies: what the search keeps after some
characters is the block of the mnemonics that begin with them (`Searching`). `decodeNarrow_spec` is the
binary search of one character, `decodeLoop_decides` the induction over the characters.

In lower case only the entries from `A` to `YIELD` are in order; the first character is then searched
in a table that is not, and all letters but one are found in it (`narrows_lowerCase`).
-/

namespace Asasm

open PrefixSearch

local instance letterOrder : LinearOrder UInt8 where
  le := (· ≤ ·)
  lt := (· < ·)
  le_refl _ := UInt8.le_refl _
  le_trans _ _ _ := UInt8.le_trans
  le_antisymm _ _ := UInt8.le_antisymm
  le_total := UInt8.le_total
  lt_iff_le_not_ge _ _ := Std.lt_iff_le_and_not_ge
  toDecidableLE := inferInstance
  toDecidableEq := inferInstance
  toDecidableLT := inferInstance

/-! ### Characters -/

def isalpha (c : UInt8) : Bool := 0x41 ≤ toupper c && toupper c ≤ 0x5A

private theorem forall_char {P : UInt8 → Prop} (h : ∀ b : BitVec 8, P ⟨b⟩) (c : UInt8) : P c :=
  h c.toBitVec

private theorem char_facts (c : UInt8) :
    resolveLowerCase c true = tolower c ∧ tolower (toupper c) = tolower c
      ∧ toupper (tolower c) = toupper c ∧ endsKeyword [tolower c] = endsKeyword [c]
      ∧ (tolower c = 0 → c = 0) ∧ (0x21 ≤ c → 0x21 ≤ toupper c ∧ 0x21 ≤ tolower c)
      ∧ (0x61 ≤ toupper c && toupper c ≤ 0x7A) = false
      ∧ (0x61 ≤ tolower c && tolower c ≤ 0x7A) = isalpha c
      ∧ (isalpha c = false → tolower c = c ∧ toupper c = c) := by
  refine forall_char (P := fun c => resolveLowerCase c true = tolower c
    ∧ tolower (toupper c) = tolower c ∧ toupper (tolower c) = toupper c
    ∧ endsKeyword [tolower c] = endsKeyword [c]
    ∧ (tolower c = 0 → c = 0) ∧ (0x21 ≤ c → 0x21 ≤ toupper c ∧ 0x21 ≤ tolower c)
    ∧ (0x61 ≤ toupper c && toupper c ≤ 0x7A) = false
    ∧ (0x61 ≤ tolower c && tolower c ≤ 0x7A) = isalpha c
    ∧ (isalpha c = false → tolower c = c ∧ toupper c = c)) ?_ c
  decide +kernel

theorem resolveLowerCase_true (c : UInt8) : resolveLowerCase c true = tolower c :=
  (char_facts c).1

theorem tolower_toupper (c : UInt8) : tolower (toupper c) = tolower c := (char_facts c).2.1

theorem toupper_tolower (c : UInt8) : toupper (tolower c) = toupper c := (char_facts c).2.2.1

theorem tolower_comp_toupper : tolower ∘ toupper = tolower := funext tolower_toupper

theorem toupper_comp_tolower : toupper ∘ tolower = toupper := funext toupper_tolower

theorem endsKeyword_tolower (c : UInt8) (text : Text) :
    endsKeyword (tolower c :: text) = endsKeyword (c :: text) := (char_facts c).2.2.2.1

theorem endsKeyword_toupper (c : UInt8) (text : Text) :
    endsKeyword (toupper c :: text) = endsKeyword (c :: text) := by
  rw [← endsKeyword_tolower (toupper c), tolower_toupper, endsKeyword_tolower]

theorem tolower_ne_zero {c : UInt8} (hc : c ≠ 0) : tolower c ≠ 0 :=
  fun h => hc ((char_facts c).2.2.2.2.1 h)

theorem toupper_ne_zero {c : UInt8} (hc : c ≠ 0) : toupper c ≠ 0 := by
  intro h
  have hlow := tolower_toupper c
  rw [h] at hlow
  exact tolower_ne_zero hc hlow.symm

/-! ### The table -/

def entryAt (i : Nat) : DecodeTableEntry := oDecodeTable.getD i ⟨[], .void, false⟩

/-- **The spelling of a mnemonic** in a search. -/
def spelled (doLowerCase : Bool) (i : Nat) : Name :=
  (entryAt i).mnemonic.map (resolveLowerCase · doLowerCase)

theorem spelled_false (i : Nat) : spelled false i = (entryAt i).mnemonic :=
  List.map_id _

theorem spelled_true (i : Nat) : spelled true i = (entryAt i).mnemonic.map tolower :=
  List.map_congr_left fun c _ => resolveLowerCase_true c

theorem length_spelled (doLowerCase : Bool) (i : Nat) :
    (spelled doLowerCase i).length = (entryAt i).mnemonic.length := List.length_map ..

/-- The first characters that matter in lower case: of the entries that the search meets first, and of
those from `WHILE` on. -/
def firstLetters : List (Nat × UInt8) :=
  [(112, 0x6D), (168, 0x73), (196, 0x73), (210, 0x75), (217, 0x77), (219, 0x77), (220, 0x79),
    (221, 0x5B), (222, 0x5D), (223, 0x5E), (224, 0x7C)]

/-- What a mnemonic is made of: characters that do not end a word and are no small letters; only one
if it is a sign. -/
def goodMnemonic (m : Name) : Bool :=
  !m.isEmpty && m.all (fun c => c != 0 && !endsKeyword [c] && toupper c == c)
    && (isalpha (m.headD 0) || m.length == 1)

/-- **The table**, checked as a whole: its length, its mnemonics, their order in the case of the source,
and in lower case up to the last one with a letter, and the first letters. -/
private theorem table_facts :
    oDecodeTable.length = decodeEntries
    ∧ (oDecodeTable.all fun e => goodMnemonic e.mnemonic) = true
    ∧ increasing (((oDecodeTable.drop 0).take 225).map fun e =>
      e.mnemonic.map (resolveLowerCase · false)) = true
    ∧ increasing (((oDecodeTable.drop 0).take 221).map fun e =>
      e.mnemonic.map (resolveLowerCase · true)) = true
    ∧ (firstLetters.all fun x => resolvedChar true x.1 0 == some x.2) = true := by
  decide +kernel

theorem length_oDecodeTable : oDecodeTable.length = decodeEntries := table_facts.1

variable {i : Nat}

theorem oDecodeTable_getElem? (hi : i < decodeEntries) :
    oDecodeTable[i]? = some (entryAt i) := by
  have hlt : i < oDecodeTable.length := by rwa [length_oDecodeTable]
  rw [List.getElem?_eq_getElem hlt, entryAt, List.getD_eq_getElem _ _ hlt]

theorem entryAt_mem (hi : i < decodeEntries) : entryAt i ∈ oDecodeTable :=
  List.mem_of_getElem? (oDecodeTable_getElem? hi)

private theorem mnemonic_facts (hi : i < decodeEntries) : (entryAt i).mnemonic ≠ []
    ∧ (∀ c ∈ (entryAt i).mnemonic, c ≠ 0 ∧ endsKeyword [c] = false ∧ toupper c = c)
    ∧ (isalpha ((entryAt i).mnemonic.headD 0) = true ∨ (entryAt i).mnemonic.length = 1) := by
  have hgood := List.all_eq_true.mp table_facts.2.1 _ (entryAt_mem hi)
  simp only [goodMnemonic, Bool.and_eq_true, Bool.not_eq_true', List.isEmpty_eq_false_iff,
    List.all_eq_true, bne_iff_ne, beq_iff_eq, Bool.or_eq_true] at hgood
  obtain ⟨⟨hne, hall⟩, hsign⟩ := hgood
  exact ⟨hne, fun c hc => ⟨(hall c hc).1.1, (hall c hc).1.2, (hall c hc).2⟩, hsign⟩

theorem mnemonic_ne_nil (hi : i < decodeEntries) : (entryAt i).mnemonic ≠ [] :=
  (mnemonic_facts hi).1

theorem toupper_of_mem_mnemonic (hi : i < decodeEntries) {c : UInt8}
    (hc : c ∈ (entryAt i).mnemonic) : toupper c = c :=
  ((mnemonic_facts hi).2.1 c hc).2.2

theorem map_toupper_mnemonic (hi : i < decodeEntries) :
    (entryAt i).mnemonic.map toupper = (entryAt i).mnemonic :=
  (List.map_congr_left fun _ hc => toupper_of_mem_mnemonic hi hc).trans (List.map_id _)

private theorem spelled_chars (doLowerCase : Bool) (hi : i < decodeEntries) {c : UInt8}
    (hc : c ∈ spelled doLowerCase i) : c ≠ 0 ∧ ∀ text, endsKeyword (c :: text) = false := by
  have hmem := (mnemonic_facts hi).2.1
  cases doLowerCase with
  | false =>
    rw [spelled_false] at hc
    exact ⟨(hmem c hc).1, fun _ => (hmem c hc).2.1⟩
  | true =>
    rw [spelled_true] at hc
    obtain ⟨c, hc', rfl⟩ := List.mem_map.mp hc
    exact ⟨tolower_ne_zero (hmem c hc').1, fun text =>
      (endsKeyword_tolower c text).trans (hmem c hc').2.1⟩

theorem zero_notMem_spelled (doLowerCase : Bool) (hi : i < decodeEntries) :
    (0 : UInt8) ∉ spelled doLowerCase i :=
  fun h => (spelled_chars doLowerCase hi h).1 rfl

variable {doLowerCase : Bool}

private theorem sortedOn_of_isChain {k m : Nat} (hkm : k + (m + 1) ≤ decodeEntries)
    (h : (((oDecodeTable.drop k).take (m + 1)).map fun e =>
      e.mnemonic.map (resolveLowerCase · doLowerCase)).IsChain (· < ·)) :
    SortedOn (spelled doLowerCase) k (k + m) := by
  have hget : ∀ i, k ≤ i → i ≤ k + m → (((oDecodeTable.drop k).take (m + 1)).map fun e =>
      e.mnemonic.map (resolveLowerCase · doLowerCase))[i - k]? = some (spelled doLowerCase i) := by
    intro i hi him
    rw [List.getElem?_map, List.getElem?_take_of_lt (by omega), List.getElem?_drop,
      Nat.add_sub_cancel' hi, oDecodeTable_getElem? (by omega)]
    rfl
  intro i j hi hij hj
  obtain ⟨hi', hgeti⟩ := List.getElem?_eq_some_iff.mp (hget i hi (by omega))
  obtain ⟨hj', hgetj⟩ := List.getElem?_eq_some_iff.mp (hget j (by omega) hj)
  rw [← hgeti, ← hgetj]
  exact List.pairwise_iff_getElem.mp (List.isChain_iff_pairwise.mp h) _ _ hi' hj' (by omega)

theorem sortedOn_upperCase : SortedOn (spelled false) 0 224 :=
  sortedOn_of_isChain (k := 0) (m := 224) (by decide) (increasing_iff.mp table_facts.2.2.1)

/-- **In lower case** so is the part up to the last entry with letters. -/
theorem sortedOn_lowerCase : SortedOn (spelled true) 0 220 :=
  sortedOn_of_isChain (k := 0) (m := 220) (by decide) (increasing_iff.mp table_facts.2.2.2.1)

theorem spelled_inj {i j : Nat} (hi : i < decodeEntries)
    (hj : j < decodeEntries) (h : spelled doLowerCase i = spelled doLowerCase j) : i = j := by
  have hmn : (entryAt i).mnemonic = (entryAt j).mnemonic := by
    cases doLowerCase with
    | false => rwa [spelled_false, spelled_false] at h
    | true =>
      -- the mnemonics are the spellings in capitals
      rw [spelled_true, spelled_true] at h
      rw [← map_toupper_mnemonic hi, ← map_toupper_mnemonic hj, ← toupper_comp_tolower,
        ← List.map_map, ← List.map_map, h]
  exact sortedOn_upperCase.eq_of_word_eq (Nat.zero_le _) (Nat.le_pred_of_lt hi) (Nat.zero_le _)
    (Nat.le_pred_of_lt hj) (by rwa [spelled_false, spelled_false])

/-! ### Reading the table -/

theorem resolvedChar_eq {i k : Nat} (hi : i < decodeEntries) (hk : k ≤ (spelled doLowerCase i).length) :
    resolvedChar doLowerCase i k = some (letter 0 (spelled doLowerCase i) k) := by
  rw [length_spelled] at hk
  rw [resolvedChar, mnemonicChar, oDecodeTable_getElem? hi]
  obtain heq | hlt := Nat.eq_or_lt_of_le hk
  · -- the NUL
    subst heq
    rw [← length_spelled doLowerCase, letter_length]
    cases doLowerCase <;> simp [spelled, resolveLowerCase]
  · rw [letter_of_lt (by rwa [length_spelled])]
    simp [spelled, List.getElem?_append_left hlt, List.getElem?_eq_getElem hlt]

theorem mnemonicChar_eq {i k : Nat} (hi : i < decodeEntries) (hk : k ≤ (spelled doLowerCase i).length) :
    ∃ m, mnemonicChar i k = some m ∧ (m = 0 ↔ (spelled doLowerCase i).length = k) := by
  rw [length_spelled] at hk ⊢
  rw [mnemonicChar, oDecodeTable_getElem? hi]
  obtain heq | hlt := Nat.eq_or_lt_of_le hk
  · exact ⟨0, by simp [heq], by simp [heq]⟩
  · refine ⟨(entryAt i).mnemonic[k], by simp [List.getElem?_append_left hlt, hlt], ?_⟩
    refine iff_of_false (fun hzero => ?_) (Nat.ne_of_gt hlt)
    refine zero_notMem_spelled false hi ?_
    rw [spelled_false, ← hzero]
    exact List.getElem_mem hlt

/-! ### The binary search of a character -/

section Narrow

variable {read : Nat → Option UInt8} {c : UInt8} {lo hi : Nat} {f : Nat → UInt8}

/-- `lowNew` goes down to the first of the entries before `mid` with the character. -/
theorem lowNewLoop_spec {low : Nat} (hread : ∀ i, low ≤ i → i ≤ hi → read i = some (f i)) :
    ∀ mid, low ≤ mid → mid ≤ hi → f mid = c → ∃ lowNew,
      lowNewLoop read c low mid = some lowNew ∧ low ≤ lowNew ∧ lowNew ≤ mid
        ∧ (∀ i, lowNew ≤ i → i ≤ mid → f i = c) ∧ (low < lowNew → f (lowNew - 1) ≠ c) := by
  intro mid
  induction mid with
  | zero =>
    intro hle _ hmid
    refine ⟨0, rfl, hle, Nat.le_refl 0, fun i _ hi0 => ?_, fun h => absurd h (Nat.not_lt_zero _)⟩
    rwa [Nat.le_zero.mp hi0]
  | succ mid ih =>
    intro hle hhi hmid
    rw [lowNewLoop]
    by_cases hlt : low < mid + 1
    · rw [if_pos hlt, hread mid (by omega) (by omega)]
      by_cases hc : f mid = c
      · obtain ⟨lowNew, hrun, hlow, hlowMid, hall, hfirst⟩ := ih (by omega) (by omega) hc
        refine ⟨lowNew, ?_, hlow, by omega, fun i hli him => ?_, hfirst⟩
        · simpa [hc] using hrun
        · obtain rfl | hlt' := Nat.eq_or_lt_of_le him
          · exact hmid
          · exact hall i hli (by omega)
      · refine ⟨mid + 1, by simp [hc], hle, Nat.le_refl _, fun i hli him => ?_, fun _ => hc⟩
        rwa [show i = mid + 1 by omega]
    · rw [if_neg hlt]
      refine ⟨mid + 1, rfl, hle, Nat.le_refl _, fun i hli him => ?_, fun h => absurd h hlt⟩
      rwa [show i = mid + 1 by omega]

/-- `highNew` goes up to the last of the entries behind `mid` with the character. -/
theorem highNewLoop_spec {high : Nat} (hread : ∀ i, lo ≤ i → i ≤ high → read i = some (f i)) :
    ∀ steps, steps ≤ high → lo ≤ high - steps → f (high - steps) = c → ∃ highNew,
      highNewLoop read c high steps = some highNew ∧ high - steps ≤ highNew
        ∧ highNew ≤ high ∧ (∀ i, high - steps ≤ i → i ≤ highNew → f i = c)
        ∧ (highNew < high → f (highNew + 1) ≠ c) := by
  intro steps
  induction steps with
  | zero =>
    intro _ _ hmid
    refine ⟨high, rfl, Nat.le_refl _, Nat.le_refl _, fun i h₁ h₂ => ?_,
      fun h => absurd h (Nat.lt_irrefl _)⟩
    rwa [show i = high - 0 by omega]
  | succ steps ih =>
    intro hle hlo hmid
    rw [highNewLoop, hread (high - steps) (by omega) (by omega)]
    by_cases hc : f (high - steps) = c
    · obtain ⟨highNew, hrun, hlow, hhigh, hall, hlast⟩ := ih (by omega) (by omega) hc
      refine ⟨highNew, by simpa [hc] using hrun, by omega, hhigh, fun i h₁ h₂ => ?_, hlast⟩
      obtain rfl | hlt := Nat.eq_or_lt_of_le h₁
      · exact hmid
      · exact hall i (by omega) h₂
    · refine ⟨high - (steps + 1), by simp [hc], Nat.le_refl _, by omega, fun i h₁ h₂ => ?_,
        fun _ => ?_⟩
      · rwa [show i = high - (steps + 1) by omega]
      · rwa [show high - (steps + 1) + 1 = high - steps by omega]

/-- **Around an entry with the character** the loops find all of them, when there are none behind the
part that is in order. -/
theorem expand_spec {low mid high : Nat}
    (hread : ∀ i, low ≤ i → i ≤ high → read i = some (f i))
    (hmono : ∀ i j, lo ≤ i → i ≤ j → j ≤ hi → f i ≤ f j) (hlow : lo ≤ low) (hlm : low ≤ mid)
    (hmh : mid ≤ high) (hmhi : mid ≤ hi) (hend : high ≤ hi ∨ f (hi + 1) ≠ c) (hc : f mid = c)
    (hin : ∀ i, lo ≤ i → i ≤ hi → f i = c → low ≤ i ∧ i ≤ high) :
    ∃ lowNew highNew, lowNewLoop read c low mid = some lowNew
      ∧ highNewLoop read c high (high - mid) = some highNew
      ∧ (∀ i, lo ≤ i → i ≤ hi → (f i = c ↔ lowNew ≤ i ∧ i ≤ highNew))
      ∧ low ≤ lowNew ∧ highNew ≤ hi := by
  obtain ⟨lowNew, hrunL, hl₁, hl₂, hallL, hfirst⟩ := lowNewLoop_spec hread mid hlm hmh hc
  have hsteps : high - (high - mid) = mid := by omega
  obtain ⟨highNew, hrunH, hh₁, hh₂, hallH, hlast⟩ :=
    highNewLoop_spec (c := c) hread (high - mid) (by omega) (by omega) (by rw [hsteps]; exact hc)
  rw [hsteps] at hh₁ hallH
  have hhi : highNew ≤ hi := by
    by_contra hnot
    obtain hle | hne := hend
    · omega
    · exact hne (hallH (hi + 1) (by omega) (by omega))
  refine ⟨lowNew, highNew, hrunL, hrunH, fun i h₁ h₂ => ⟨fun hic => ?_, ?_⟩, hl₁, hhi⟩
  · -- the characters between `i` and `mid` are squeezed
    obtain ⟨hil, hih⟩ := hin i h₁ h₂ hic
    refine ⟨?_, ?_⟩
    · by_contra hnot
      refine hfirst (by omega) (le_antisymm ?_ ?_)
      · exact hc ▸ hmono (lowNew - 1) mid (by omega) (by omega) (by omega)
      · exact hic ▸ hmono i (lowNew - 1) h₁ (by omega) (by omega)
    · by_contra hnot
      refine hlast (by omega) (le_antisymm ?_ ?_)
      · exact hic ▸ hmono (highNew + 1) i (by omega) (by omega) h₂
      · exact hc ▸ hmono mid (highNew + 1) (by omega) (by omega) (by omega)
  · rintro ⟨hil, hih⟩
    rcases Nat.le_total i mid with him | hmi
    · exact hallL i hil him
    · exact hallH i hmi hih

theorem decodeNarrow_succ {fuel low high mid : Nat} (hlh : low ≤ high)
    (hmid : low + (high - low) / 2 = mid) (hread : read mid = some (f mid)) :
    decodeNarrow read c (fuel + 1) low high
      = if f mid < c then decodeNarrow read c fuel (mid + 1) high
        else if c < f mid then decodeNarrow read c fuel low (sizePred mid)
        else (lowNewLoop read c low mid).bind fun lowNew =>
          (highNewLoop read c high (high - mid)).bind fun highNew => some (lowNew, highNew) := by
  rw [decodeNarrow, if_pos hlh]
  dsimp only
  rw [hmid, hread]
  rfl

/-- **The binary search**: over characters that increase it gives exactly the entries with the one searched
for. -/
theorem decodeNarrow_spec (hread : ∀ i, lo ≤ i → i ≤ hi → read i = some (f i))
    (hmono : ∀ i j, lo ≤ i → i ≤ j → j ≤ hi → f i ≤ f j) :
    ∀ fuel low high, lo ≤ low → high ≤ hi → low ≤ high + 1 → high + 1 - low < fuel →
      (low = 0 → f 0 ≤ c) → (∀ i, lo ≤ i → i ≤ hi → f i = c → low ≤ i ∧ i ≤ high) →
      ∃ low' high', decodeNarrow read c fuel low high = some (low', high')
        ∧ (∀ i, lo ≤ i → i ≤ hi → (f i = c ↔ low' ≤ i ∧ i ≤ high'))
        ∧ (low' ≤ high' → lo ≤ low' ∧ high' ≤ hi) := by
  intro fuel
  induction fuel with
  | zero =>
    intro low high _ _ _ hfuel
    exact absurd hfuel (Nat.not_lt_zero _)
  | succ fuel ih =>
    intro low high hlow hhigh hle hfuel hzero hin
    by_cases hlh : low ≤ high
    · obtain ⟨mid, hmid, hm₁, hm₂⟩ : ∃ mid, low + (high - low) / 2 = mid ∧ low ≤ mid
          ∧ mid ≤ high := ⟨_, rfl, by omega, by omega⟩
      rw [decodeNarrow_succ hlh hmid (hread mid (by omega) (by omega))]
      by_cases hlt : f mid < c
      · -- the entries up to `mid` are less
        rw [if_pos hlt]
        refine ih (mid + 1) high (by omega) hhigh (by omega) (by omega) (by omega) ?_
        intro i h₁ h₂ hc
        obtain ⟨-, hih⟩ := hin i h₁ h₂ hc
        refine ⟨?_, hih⟩
        by_contra hnot
        have := hmono i mid h₁ (by omega) (by omega)
        rw [hc] at this
        exact absurd hlt (not_lt.mpr this)
      rw [if_neg hlt]
      by_cases hgt : c < f mid
      · -- those from `mid` on are greater, and `mid` is not the first entry
        rw [if_pos hgt]
        have hmid0 : mid ≠ 0 := by
          intro h0
          have hlow0 : low = 0 := by omega
          rw [h0] at hgt
          exact absurd hgt (not_lt.mpr (hzero hlow0))
        rw [sizePred, if_neg hmid0]
        refine ih low (mid - 1) hlow (by omega) (by omega) (by omega) hzero ?_
        intro i h₁ h₂ hc
        obtain ⟨hil, -⟩ := hin i h₁ h₂ hc
        refine ⟨hil, ?_⟩
        by_contra hnot
        have := hmono mid i (by omega) (by omega) h₂
        rw [hc] at this
        exact absurd hgt (not_lt.mpr this)
      · -- `mid` has the character
        have hc : f mid = c := le_antisymm (not_lt.mp hgt) (not_lt.mp hlt)
        obtain ⟨lowNew, highNew, hrunL, hrunH, hletters, hl, hh⟩ :=
          expand_spec (fun i h₁ h₂ => hread i (Nat.le_trans hlow h₁) (Nat.le_trans h₂ hhigh))
            hmono hlow hm₁ hm₂ (Nat.le_trans hm₂ hhigh) (Or.inl hhigh) hc hin
        rw [if_neg hgt, hrunL, hrunH]
        exact ⟨lowNew, highNew, rfl, hletters, fun _ => ⟨Nat.le_trans hlow hl, hh⟩⟩
    · rw [decodeNarrow, if_neg hlh]
      refine ⟨low, high, rfl, fun i h₁ h₂ => ⟨hin i h₁ h₂, fun h => ?_⟩, fun h => absurd h hlh⟩
      exact absurd (Nat.le_trans h.1 h.2) hlh

end Narrow

/-! ### What a search keeps -/

section Search

variable {doLowerCase : Bool} {c : UInt8} {p text rest : Text} {low high : Nat}

/-- **The search of one character** gives the block of the mnemonics that go on with it, in order, or
an empty interval when none does. -/
def Narrows (doLowerCase : Bool) (p : Text) (c : UInt8) (low high : Nat) : Prop :=
  ∃ low' high', decodeNarrow (resolvedChar doLowerCase · p.length) c (decodeEntries + 1) low high
      = some (low', high')
    ∧ ((Block (spelled doLowerCase) decodeEntries (p ++ [c]) low' high'
        ∧ SortedOn (spelled doLowerCase) low' high')
      ∨ (high' < low' ∧ ∀ i, i < decodeEntries → ¬ p ++ [c] <+: spelled doLowerCase i))

private theorem narrows_of_letters {low' high' : Nat}
    (hb : Block (spelled doLowerCase) decodeEntries p low high) (hc : c ≠ 0)
    (hsorted : low' ≤ high' → SortedOn (spelled doLowerCase) low' high')
    (hrun : decodeNarrow (resolvedChar doLowerCase · p.length) c (decodeEntries + 1) low high
      = some (low', high'))
    (hletters : ∀ i, low ≤ i → i ≤ high →
      (letter 0 (spelled doLowerCase i) p.length = c ↔ low' ≤ i ∧ i ≤ high'))
    (hin : low' ≤ high' → low ≤ low' ∧ high' ≤ high) : Narrows doLowerCase p c low high := by
  refine ⟨low', high', hrun, ?_⟩
  by_cases hle : low' ≤ high'
  · obtain ⟨hlow, hhigh⟩ := hin hle
    exact Or.inl ⟨hb.snoc hc hle hhigh hletters hlow, hsorted hle⟩
  · refine Or.inr ⟨Nat.lt_of_not_le hle, fun i hi => hb.not_snoc hc (fun j h₁ h₂ hj => ?_) hi⟩
    obtain ⟨h₃, h₄⟩ := (hletters j h₁ h₂).mp hj
    exact hle (Nat.le_trans h₃ h₄)

theorem narrows_of_sortedOn (hb : Block (spelled doLowerCase) decodeEntries p low high)
    (hs : SortedOn (spelled doLowerCase) low high) (hc : c ≠ 0)
    (hzero : low = 0 → letter 0 (spelled doLowerCase 0) p.length ≤ c) :
    Narrows doLowerCase p c low high := by
  have hread : ∀ i, low ≤ i → i ≤ high → (resolvedChar doLowerCase · p.length) i
      = some (letter 0 (spelled doLowerCase i) p.length) := by
    intro i h₁ h₂
    have hi := Nat.lt_of_le_of_lt h₂ hb.high_lt
    exact resolvedChar_eq hi ((hb.mem_iff i hi).mpr ⟨h₁, h₂⟩).length_le
  have hmono : ∀ i j, low ≤ i → i ≤ j → j ≤ high →
      letter 0 (spelled doLowerCase i) p.length ≤ letter 0 (spelled doLowerCase j) p.length :=
    fun i j h₁ h₂ h₃ => hs.letter_mono hb (fun _ _ _ _ => UInt8.zero_le) h₁ h₂ h₃
  have hhigh := hb.high_lt
  obtain ⟨low', high', hrun, hletters, hin⟩ := decodeNarrow_spec (c := c) hread hmono
    (decodeEntries + 1) low high (Nat.le_refl _) (Nat.le_refl _) (Nat.le_succ_of_le hb.low_le)
    (by omega) hzero (fun i h₁ h₂ _ => ⟨h₁, h₂⟩)
  exact narrows_of_letters hb hc (fun hle => hs.mono (hin hle).1 (hin hle).2) hrun hletters hin

theorem block_nil (doLowerCase : Bool) :
    Block (spelled doLowerCase) decodeEntries [] 0 (decodeEntries - 1) where
  low_le := by decide
  high_lt := by decide
  mem_iff i hi := iff_of_true List.nil_prefix ⟨Nat.zero_le i, Nat.le_pred_of_lt hi⟩

theorem spelled_zero (doLowerCase : Bool) : spelled doLowerCase 0 = [0x21] := by
  cases doLowerCase <;> rfl

theorem narrows_upperCase (hc : 0x21 ≤ c) : Narrows false [] c 0 (decodeEntries - 1) := by
  have hne : c ≠ 0 := by
    rintro rfl
    exact absurd hc (by decide)
  refine narrows_of_sortedOn (block_nil false) sortedOn_upperCase hne fun _ => ?_
  rw [spelled_zero]
  exact hc

/-! In lower case the brackets behind the letters of the table come before them. As long as the search
meets entries with lesser letters it goes on with the end of the table, which is out of order. -/

def firstLetter (i : Nat) : UInt8 := letter 0 (spelled true i) 0

theorem resolvedChar_zero {i : Nat} (hi : i < decodeEntries) :
    resolvedChar true i 0 = some (firstLetter i) :=
  resolvedChar_eq hi (Nat.zero_le _)

theorem firstLetter_eq {x : Nat × UInt8} (hx : x ∈ firstLetters) (hi : x.1 < decodeEntries) :
    firstLetter x.1 = x.2 := by
  have h := beq_iff_eq.mp (List.all_eq_true.mp table_facts.2.2.2.2 x hx)
  rw [resolvedChar_zero hi] at h
  exact Option.some.inj h

theorem firstLetter_mono {i j : Nat} (hij : i ≤ j) (hj : j ≤ 220) :
    firstLetter i ≤ firstLetter j := by
  obtain rfl | hlt := Nat.eq_or_lt_of_le hij
  · exact le_refl _
  · exact letter_le_of_lt (p := []) (fun _ _ => UInt8.zero_le) List.nil_prefix List.nil_prefix
      (sortedOn_lowerCase i j (Nat.zero_le _) hlt hj)

theorem firstLetter_ne {i : Nat} (h₁ : 0x61 ≤ c) (h₂ : c ≤ 0x7A) (hi : 220 < i)
    (hi' : i < decodeEntries) : firstLetter i ≠ c := by
  have hcases : i = 221 ∨ i = 222 ∨ i = 223 ∨ i = 224 := by
    unfold decodeEntries at hi'
    omega
  rintro rfl
  obtain rfl | rfl | rfl | rfl := hcases
  · rw [firstLetter_eq (x := (221, 0x5B)) (by decide) hi'] at h₁
    exact absurd h₁ (by decide)
  · rw [firstLetter_eq (x := (222, 0x5D)) (by decide) hi'] at h₁
    exact absurd h₁ (by decide)
  · rw [firstLetter_eq (x := (223, 0x5E)) (by decide) hi'] at h₁
    exact absurd h₁ (by decide)
  · rw [firstLetter_eq (x := (224, 0x7C)) (by decide) hi'] at h₂
    exact absurd h₂ (by decide)

def FindsFirst (c : UInt8) (run : Option (Nat × Nat)) : Prop :=
  ∃ low high, run = some (low, high)
    ∧ (∀ i, 0 ≤ i → i ≤ 220 → (firstLetter i = c ↔ low ≤ i ∧ i ≤ high))
    ∧ (low ≤ high → high ≤ 220)

/-- **A step towards the end of the table**: the search goes on there, or it stays in the part in order
and finds the letter. -/
private theorem probe (h₁ : 0x61 ≤ c) (h₂ : c ≤ 0x7A) (fuel mid : Nat) {low : Nat} (hfuel : 220 < fuel)
    (hmid : low + (224 - low) / 2 = mid) (hm : mid ≤ 220) (hm0 : 0 < mid) (hlow : low ≤ mid)
    (hin : ∀ i, i ≤ 220 → firstLetter i = c → low ≤ i) :
    FindsFirst c (decodeNarrow (resolvedChar true · 0) c (fuel + 1) low 224)
      ∨ (firstLetter mid < c ∧ decodeNarrow (resolvedChar true · 0) c (fuel + 1) low 224
        = decodeNarrow (resolvedChar true · 0) c fuel (mid + 1) 224
        ∧ ∀ i, i ≤ 220 → firstLetter i = c → mid + 1 ≤ i) := by
  have hread : ∀ i, i < decodeEntries → (resolvedChar true · 0) i = some (firstLetter i) :=
    fun i hi => resolvedChar_zero hi
  have hmono : ∀ i j, 0 ≤ i → i ≤ j → j ≤ 220 → firstLetter i ≤ firstLetter j :=
    fun i j _ hij hj => firstLetter_mono hij hj
  rw [decodeNarrow_succ (f := firstLetter) (by omega) hmid
    (hread mid (Nat.lt_of_le_of_lt hm (by decide)))]
  by_cases hlt : firstLetter mid < c
  · refine Or.inr ⟨hlt, if_pos hlt, fun i hi hc => ?_⟩
    by_contra hnot
    have := firstLetter_mono (i := i) (j := mid) (by omega) hm
    rw [hc] at this
    exact absurd hlt (not_lt.mpr this)
  left
  rw [if_neg hlt]
  by_cases hgt : c < firstLetter mid
  · -- from here on the search is in the part in order
    rw [if_pos hgt, sizePred, if_neg (Nat.ne_of_gt hm0)]
    have hin' : ∀ i, 0 ≤ i → i ≤ 220 → firstLetter i = c → low ≤ i ∧ i ≤ mid - 1 := by
      intro i _ hi hc
      refine ⟨hin i hi hc, ?_⟩
      by_contra hnot
      have := firstLetter_mono (i := mid) (j := i) (by omega) hi
      rw [hc] at this
      exact absurd hgt (not_lt.mpr this)
    have hzero : low = 0 → firstLetter 0 ≤ c := by
      intro _
      rw [firstLetter, spelled_zero]
      exact le_trans (by decide) h₁
    obtain ⟨low', high', hrun, hletters, hin'⟩ := decodeNarrow_spec
      (fun i _ hi => hread i (Nat.lt_of_le_of_lt hi (by decide))) hmono fuel low (mid - 1)
      (Nat.zero_le _) (by omega) (by omega) (by omega) hzero hin'
    exact ⟨low', high', hrun, hletters, fun h => (hin' h).2⟩
  · have hc : firstLetter mid = c := le_antisymm (not_lt.mp hgt) (not_lt.mp hlt)
    obtain ⟨lowNew, highNew, hrunL, hrunH, hletters, -, hh⟩ :=
      expand_spec (fun i _ (hi : i ≤ 224) => hread i (Nat.lt_of_le_of_lt hi (by decide))) hmono
        (Nat.zero_le _) hlow
        (by omega) hm (Or.inr (firstLetter_ne h₁ h₂ (by decide) (by decide))) hc
        (fun i _ hi hic => ⟨hin i hi hic, by omega⟩)
    rw [if_neg hgt, hrunL, hrunH]
    exact ⟨lowNew, highNew, rfl, hletters, fun _ => hh⟩

private theorem findsFirst (h₁ : 0x61 ≤ c) (h₂ : c ≤ 0x7A) (hy : c ≠ 0x79) :
    FindsFirst c (decodeNarrow (resolvedChar true · 0) c (decodeEntries + 1) 0 224) := by
  change FindsFirst c (decodeNarrow (resolvedChar true · 0) c (225 + 1) 0 224)
  obtain h | ⟨-, hrun, hin⟩ := probe h₁ h₂ 225 112 (by decide) rfl (by decide)
    (by decide) (by decide) fun _ _ _ => Nat.zero_le _
  · exact h
  rw [hrun]
  obtain h | ⟨-, hrun, hin⟩ := probe h₁ h₂ 224 168 (by decide) rfl (by decide)
    (by decide) (by decide) hin
  · exact h
  rw [hrun]
  obtain h | ⟨-, hrun, hin⟩ := probe h₁ h₂ 223 196 (by decide) rfl (by decide)
    (by decide) (by decide) hin
  · exact h
  rw [hrun]
  obtain h | ⟨-, hrun, hin⟩ := probe h₁ h₂ 222 210 (by decide) rfl (by decide)
    (by decide) (by decide) hin
  · exact h
  rw [hrun]
  obtain h | ⟨hlt, hrun, -⟩ := probe h₁ h₂ 221 217 (by decide) rfl (by decide)
    (by decide) (by decide) hin
  · exact h
  rw [hrun]
  -- behind `w` it runs off the table
  have hstep : ∀ i, i < decodeEntries → (resolvedChar true · 0) i = some (firstLetter i) :=
    fun i hi => resolvedChar_zero hi
  have h221 : firstLetter 221 < c := by
    rw [firstLetter_eq (x := (221, 0x5B)) (by decide) (by decide)]
    exact lt_of_lt_of_le (by decide) h₁
  have h223 : firstLetter 223 < c := by
    rw [firstLetter_eq (x := (223, 0x5E)) (by decide) (by decide)]
    exact lt_of_lt_of_le (by decide) h₁
  have h224 : c < firstLetter 224 := by
    rw [firstLetter_eq (x := (224, 0x7C)) (by decide) (by decide)]
    exact lt_of_le_of_lt h₂ (by decide)
  rw [decodeNarrow_succ (f := firstLetter) (by decide) rfl (hstep 221 (by decide)), if_pos h221,
    decodeNarrow_succ (f := firstLetter) (by decide) rfl (hstep 223 (by decide)), if_pos h223,
    decodeNarrow_succ (f := firstLetter) (by decide) rfl (hstep 224 (by decide)),
    if_neg (not_lt.mpr (le_of_lt h224)), if_pos h224]
  refine ⟨224, 223, rfl, fun i _ hi => iff_of_false (fun hc => ?_) (by omega), by omega⟩
  -- the letter is `x` or `z`
  rw [firstLetter_eq (x := (217, 0x77)) (by decide) (by decide)] at hlt
  rw [← hc] at hlt hy
  by_cases h220 : i = 220
  · rw [h220, firstLetter_eq (x := (220, 0x79)) (by decide) (by decide)] at hy
    exact hy rfl
  · have hle := firstLetter_mono (i := i) (j := 219) (by omega) (by decide)
    rw [firstLetter_eq (x := (219, 0x77)) (by decide) (by decide)] at hle
    exact absurd hlt (not_lt.mpr hle)

/-- **The first character** of a text in small letters. The brackets hide the `y`. -/
theorem narrows_lowerCase (h₁ : 0x61 ≤ c) (h₂ : c ≤ 0x7A) (hy : c ≠ 0x79) :
    Narrows true [] c 0 (decodeEntries - 1) := by
  have hne : c ≠ 0 := by
    rintro rfl
    exact absurd h₁ (by decide)
  obtain ⟨low, high, hrun, hletters, hhigh⟩ := findsFirst h₁ h₂ hy
  refine narrows_of_letters (block_nil true) hne
    (fun hle => sortedOn_lowerCase.mono (Nat.zero_le _) (hhigh hle)) hrun (fun i _ hi => ?_)
    fun hle => ⟨Nat.zero_le _, Nat.le_trans (hhigh hle) (by decide)⟩
  by_cases hi' : i ≤ 220
  · exact hletters i (Nat.zero_le _) hi'
  · refine iff_of_false (firstLetter_ne h₁ h₂ (Nat.lt_of_not_le hi')
      (Nat.lt_of_le_of_lt hi (by decide))) fun h => ?_
    exact hi' (Nat.le_trans h.2 (hhigh (Nat.le_trans h.1 h.2)))

/-! ### The longest mnemonic -/

/-- **The longest mnemonic** of the table that is a beginning of the text. -/
structure Longest (doLowerCase : Bool) (text : Text) (i : Nat) : Prop where
  lt : i < decodeEntries
  isPrefix : spelled doLowerCase i <+: text
  length_le : ∀ j, j < decodeEntries → spelled doLowerCase j <+: text →
    (spelled doLowerCase j).length ≤ (spelled doLowerCase i).length

theorem Longest.eq {i j : Nat} (h : Longest doLowerCase text i) (h' : Longest doLowerCase text j) :
    i = j := by
  have hlen := Nat.le_antisymm (h'.length_le i h.lt h.isPrefix) (h.length_le j h'.lt h'.isPrefix)
  have hbegins := List.prefix_of_prefix_length_le h.isPrefix h'.isPrefix (Nat.le_of_eq hlen)
  exact spelled_inj h.lt h'.lt (hbegins.eq_of_length hlen)

def Accepts (text : Text) (doLowerCase : Bool) (i : Nat) : Prop :=
  (entryAt i).isPartiallyMatched = true
    ∨ endsKeyword (text.drop (spelled doLowerCase i).length) = true

/-- **The right answer** of a search: the longest mnemonic, when the text may go on as it does. -/
def Decides (doLowerCase : Bool) (text : Text) (r : Decoded) : Prop :=
  ∀ i rest, r = some (i, rest) ↔ Longest doLowerCase text i ∧ Accepts text doLowerCase i
    ∧ rest = text.drop (spelled doLowerCase i).length

theorem decides_none (h : ∀ i, i < decodeEntries → spelled doLowerCase i <+: text →
    ¬ Accepts text doLowerCase i) : Decides doLowerCase text none := by
  intro i rest
  refine iff_of_false (fun h => nomatch h) ?_
  rintro ⟨hlong, haccepts, -⟩
  exact h i hlong.lt hlong.isPrefix haccepts

theorem decides_some {i : Nat} (h : Longest doLowerCase text i) (haccepts : Accepts text doLowerCase i)
    (hrest : rest = text.drop (spelled doLowerCase i).length) :
    Decides doLowerCase text (some (i, rest)) := by
  intro j rest'
  constructor
  · intro heq
    cases heq
    exact ⟨h, haccepts, hrest⟩
  · rintro ⟨hj, -, rfl⟩
    cases h.eq hj
    rw [hrest]

/-! ### The loops -/

theorem matchAt_eq (rest : Text) {q : Text} {k i : Nat} (hi : i < decodeEntries) (hq : q.length = k + 1)
    (hbegins : q <+: spelled doLowerCase i) : ∃ b, matchAt doLowerCase rest k i = some b
      ∧ (b = true ↔ spelled doLowerCase i <+: q ++ rest) := by
  have hlen := hbegins.length_le
  rw [length_spelled, hq] at hlen
  refine ⟨matchRestOfKeyword rest ((entryAt i).mnemonic.drop (k + 1)) doLowerCase, ?_, ?_⟩
  · rw [matchAt, oDecodeTable_getElem? hi]
    simp only [Option.bind_eq_bind, Option.bind_some, assert, hlen, decide_true, if_true]
  · obtain ⟨tail, htail⟩ := hbegins
    have hdrop : ((entryAt i).mnemonic.drop (k + 1)).map (resolveLowerCase · doLowerCase) = tail := by
      rw [List.map_drop, ← hq]
      change (spelled doLowerCase i).drop q.length = tail
      rw [← htail, List.drop_left]
    rw [matchRestOfKeyword, hdrop, List.isPrefixOf_iff_prefix, ← htail, List.prefix_append_right_inj]

/-- **Counting down** ends at the last mnemonic of the block that is a beginning of the text. -/
theorem matchHigh_spec (rest : Text) {q : Text} {k : Nat} (hq : q.length = k + 1)
    (hb : Block (spelled doLowerCase) decodeEntries q low high)
    (hword : spelled doLowerCase low = q) :
    ∃ i, matchHigh doLowerCase rest k high = some i ∧ low ≤ i ∧ i ≤ high
      ∧ spelled doLowerCase i <+: q ++ rest
      ∧ ∀ j, i < j → j ≤ high → ¬ spelled doLowerCase j <+: q ++ rest := by
  have hlow : spelled doLowerCase low <+: q ++ rest := hword ▸ List.prefix_append q rest
  -- what has been passed does not match
  have hdown : ∀ h, low ≤ h → h ≤ high →
      (∀ j, h < j → j ≤ high → ¬ spelled doLowerCase j <+: q ++ rest) →
      ∃ i, matchHigh doLowerCase rest k h = some i ∧ low ≤ i ∧ i ≤ high
        ∧ spelled doLowerCase i <+: q ++ rest
        ∧ ∀ j, i < j → j ≤ high → ¬ spelled doLowerCase j <+: q ++ rest := by
    intro h
    induction h with
    | zero =>
      intro hl hh hpassed
      have h0 : low = 0 := Nat.le_zero.mp hl
      rw [h0] at hlow hword
      obtain ⟨b, hrun, hb'⟩ := matchAt_eq rest (by decide) hq
        (hword ▸ List.prefix_rfl : q <+: spelled doLowerCase 0)
      refine ⟨0, ?_, hl, hh, hlow, hpassed⟩
      rw [matchHigh, hrun, hb'.mpr hlow]
      rfl
    | succ h ih =>
      intro hl hh hpassed
      have hh' := Nat.lt_of_le_of_lt hh hb.high_lt
      obtain ⟨b, hrun, hb'⟩ := matchAt_eq rest hh' hq
        ((hb.mem_iff (h + 1) hh').mpr ⟨hl, hh⟩)
      rw [matchHigh, hrun]
      cases b with
      | true => exact ⟨h + 1, rfl, hl, hh, hb'.mp rfl, hpassed⟩
      | false =>
        have hnot : ¬ spelled doLowerCase (h + 1) <+: q ++ rest := fun hp => nomatch hb'.mpr hp
        have hne : low ≠ h + 1 := fun heq => hnot (heq ▸ hlow)
        refine ih (by omega) (by omega) fun j hj hjh => ?_
        obtain heq | hlt := Nat.eq_or_lt_of_le hj
        · exact heq ▸ hnot
        · exact hpassed j hlt hjh
  exact hdown high hb.low_le (Nat.le_refl _) fun j h₁ h₂ => absurd h₁ (Nat.not_lt_of_le h₂)

/-- **A search after some characters**: what it keeps are the mnemonics that go on, and no shorter one
is accepted. -/
structure Searching (doLowerCase : Bool) (text p rest : Text) (low high : Nat) : Prop where
  split : text = p ++ rest
  block : Block (spelled doLowerCase) decodeEntries p low high
  shorter : ∀ i, i < decodeEntries → spelled doLowerCase i <+: p → ¬ Accepts text doLowerCase i

private theorem isPrefix_or (p rest : Text) {u : Text} (h : u <+: p ++ c :: rest) : u <+: p ∨ p ++ [c] <+: u := by
  have hp : p <+: p ++ c :: rest := List.prefix_append p _
  have hq : p ++ [c] <+: p ++ c :: rest := ⟨rest, by simp⟩
  by_cases hlen : u.length ≤ p.length
  · exact Or.inl (List.prefix_of_prefix_length_le h hp hlen)
  · refine Or.inr (List.prefix_of_prefix_length_le hq h ?_)
    rw [List.length_append]
    exact Nat.lt_of_not_le hlen

private theorem decodeLoop_cons {k low' high' : Nat} {m : UInt8} (hle : low' ≤ high')
    (hrun : decodeNarrow (resolvedChar doLowerCase · k) c (decodeEntries + 1) low high
      = some (low', high'))
    (hlt : low' < decodeEntries) (hm : mnemonicChar low' (k + 1) = some m) :
    decodeLoop doLowerCase (c :: rest) k low high
      = if (m = 0 && (entryAt low').isPartiallyMatched) = true then
          decodePartial doLowerCase rest k low' high'
        else if endsKeyword rest = true then
          if m = 0 then some (some (low', rest)) else some none
        else (mnemonicChar high' (k + 1)).bind fun m' =>
          if m' ≠ 0 then decodeLoop doLowerCase rest (k + 1) low' high'
          else (assert (low' = high')).bind fun _ => some none := by
  rw [decodeLoop, hrun]
  change (if high' < low' then _ else _) = _
  rw [if_neg (Nat.not_lt_of_le hle), oDecodeTable_getElem? hlt, hm]
  rfl

private theorem decodePartial_decides {q : Text} {k : Nat} (hq : q.length = k + 1)
    (htext : text = q ++ rest) (hb : Block (spelled doLowerCase) decodeEntries q low high)
    (hs : SortedOn (spelled doLowerCase) low high) (hword : spelled doLowerCase low = q) :
    ∃ r, decodePartial doLowerCase rest k low high = some r ∧ Decides doLowerCase text r := by
  obtain ⟨i, hrun, hl, hh, hbegins, hlast⟩ := matchHigh_spec rest hq hb hword
  rw [← htext] at hbegins hlast
  have hi := Nat.lt_of_le_of_lt hh hb.high_lt
  have hlong : Longest doLowerCase text i :=
    ⟨hi, hbegins, fun j hj hjp => hs.length_le_of_isPrefix hb hl hh hbegins hlast hj hjp⟩
  -- the text behind it
  have hrest : rest.drop ((entryAt i).mnemonic.drop (k + 1)).length
      = text.drop (spelled doLowerCase i).length := by
    have hlen := ((hb.mem_iff i hi).mpr ⟨hl, hh⟩).length_le
    rw [length_spelled, hq] at hlen
    have hnil : q.drop (entryAt i).mnemonic.length = [] :=
      List.drop_eq_nil_of_le (hq ▸ hlen)
    rw [htext, length_spelled, List.length_drop, List.drop_append, hnil, hq, List.nil_append]
  have hwild : decodePartial doLowerCase rest k low high
      = if ((entryAt i).isPartiallyMatched
          || endsKeyword (text.drop (spelled doLowerCase i).length)) = true
        then some (some (i, text.drop (spelled doLowerCase i).length)) else some none := by
    rw [decodePartial, hrun]
    simp only [Option.bind_eq_bind, Option.bind_some, assert, hl, decide_true, if_true,
      oDecodeTable_getElem? hi, hrest, inputIsEndOfKeywordN, List.drop_zero]
  rw [hwild]
  by_cases haccepts : Accepts text doLowerCase i
  · rw [if_pos ((Bool.or_eq_true _ _).mpr haccepts)]
    exact ⟨_, rfl, decides_some hlong haccepts rfl⟩
  · rw [if_neg fun h => haccepts ((Bool.or_eq_true _ _).mp h)]
    refine ⟨none, rfl, fun j rest' => iff_of_false (fun h => by cases h) ?_⟩
    rintro ⟨hj, hjaccepts, -⟩
    cases hlong.eq hj
    exact haccepts hjaccepts

/-- **One character**: the loop has the answer, or goes on behind the character. -/
theorem decodeLoop_step (h : Searching doLowerCase text p (c :: rest) low high)
    (hn : Narrows doLowerCase p c low high) :
    (∃ r, decodeLoop doLowerCase (c :: rest) p.length low high = some r ∧ Decides doLowerCase text r)
      ∨ ∃ low' high', decodeLoop doLowerCase (c :: rest) p.length low high
          = decodeLoop doLowerCase rest (p ++ [c]).length low' high'
        ∧ Searching doLowerCase text (p ++ [c]) rest low' high'
        ∧ SortedOn (spelled doLowerCase) low' high' ∧ endsKeyword rest = false := by
  obtain ⟨low', high', hrun, ⟨hb, hs⟩ | ⟨hempty, hnone⟩⟩ := hn
  swap
  · -- no mnemonic goes on
    refine Or.inl ⟨none, ?_, decides_none fun i hi hp => ?_⟩
    · rw [decodeLoop, hrun]
      change (if high' < low' then _ else _) = _
      rw [if_pos hempty]
    · rw [h.split] at hp
      obtain hp | hp := isPrefix_or p rest hp
      · exact h.shorter i hi hp
      · exact absurd hp (hnone i hi)
  have htext : text = (p ++ [c]) ++ rest := by
    rw [h.split]
    simp
  have hq : (p ++ [c]).length = p.length + 1 := by simp
  have hle := hb.low_le
  have hlow : low' < decodeEntries := Nat.lt_of_le_of_lt hle hb.high_lt
  have hhigh := hb.high_lt
  have hlowp : p ++ [c] <+: spelled doLowerCase low' := (hb.mem_iff low' hlow).mpr ⟨Nat.le_refl _, hle⟩
  have hhighp : p ++ [c] <+: spelled doLowerCase high' :=
    (hb.mem_iff high' hhigh).mpr ⟨hle, Nat.le_refl _⟩
  obtain ⟨m, hm, hm0⟩ := mnemonicChar_eq hlow (hq ▸ hlowp.length_le)
  have hword : m = 0 ↔ spelled doLowerCase low' = p ++ [c] := by
    rw [hm0, ← hq]
    exact ⟨fun heq => (hlowp.eq_of_length heq.symm).symm, fun heq => by rw [heq]⟩
  -- a mnemonic that ends with this character is the first of the block
  have hend : ∀ i, i < decodeEntries → spelled doLowerCase i = p ++ [c] → i = low' :=
    fun i hi heq => hs.eq_low_of_word_eq hb hi heq
  rw [decodeLoop_cons hle hrun hlow hm]
  by_cases hwild : m = 0 ∧ (entryAt low').isPartiallyMatched = true
  · left
    rw [if_pos (by simp [hwild])]
    exact decodePartial_decides hq htext hb hs (hword.mp hwild.1)
  rw [if_neg (by simpa using hwild)]
  cases hends : endsKeyword rest with
  | true =>
    left
    rw [if_pos rfl]
    -- no longer mnemonic is a beginning of the text
    have hlonger : ∀ i, i < decodeEntries → spelled doLowerCase i <+: text →
        spelled doLowerCase i <+: p ∨ spelled doLowerCase i = p ++ [c] := by
      intro i hi hp
      obtain hp' | hp' := isPrefix_or p rest (h.split ▸ hp)
      · exact Or.inl hp'
      · obtain ⟨tail, htail⟩ := hp'
        rw [← htail, htext, List.prefix_append_right_inj] at hp
        cases tail with
        | nil => exact Or.inr (by rw [← htail, List.append_nil])
        | cons a tail =>
          obtain ⟨rest', rfl⟩ := hp
          have := (spelled_chars doLowerCase hi (c := a) (by simp [← htail])).2 (tail ++ rest')
          rw [← List.cons_append, hends] at this
          cases this
    by_cases hmz : m = 0
    · rw [if_pos hmz]
      have hlw := hword.mp hmz
      have hrest : rest = text.drop (spelled doLowerCase low').length := by
        rw [hlw, htext, List.drop_left]
      refine ⟨_, rfl, decides_some ⟨hlow, ?_, fun j hj hp => ?_⟩ (Or.inr ?_) hrest⟩
      · rw [hlw, htext]
        exact List.prefix_append _ _
      · rw [hlw]
        obtain hp' | hp' := hlonger j hj hp
        · exact Nat.le_trans hp'.length_le (by simp)
        · rw [hp']
      · rwa [← hrest]
    · rw [if_neg hmz]
      refine ⟨none, rfl, decides_none fun i hi hp => ?_⟩
      obtain hp' | hp' := hlonger i hi hp
      · exact h.shorter i hi hp'
      · exact absurd (hword.mpr (hend i hi hp' ▸ hp')) hmz
  | false =>
    rw [if_neg (by simp)]
    -- what ends with this character is not accepted either
    have hshorter : ∀ i, i < decodeEntries → spelled doLowerCase i <+: p ++ [c] →
        ¬ Accepts text doLowerCase i := by
      intro i hi hp haccepts
      obtain hp' | hp' := isPrefix_or p [] hp
      · exact h.shorter i hi hp' haccepts
      · have heq := hp.eq_of_length_le hp'.length_le
        have hil := hend i hi heq
        rw [Accepts, heq, htext, List.drop_left, hends] at haccepts
        obtain hpm | hpm := haccepts
        · exact hwild ⟨hword.mpr (hil ▸ heq), hil ▸ hpm⟩
        · cases hpm
    obtain ⟨m', hm', hm0'⟩ := mnemonicChar_eq hhigh (hq ▸ hhighp.length_le)
    rw [hm', Option.bind_some]
    by_cases hmz : m' = 0
    · -- the block is one mnemonic, which ends here
      left
      have hhw : spelled doLowerCase high' = p ++ [c] :=
        (hhighp.eq_of_length (by rw [hm0'.mp hmz, hq])).symm
      have hlh : high' = low' := hend high' hhigh hhw
      rw [if_neg (not_not.mpr hmz), hlh]
      refine ⟨none, by simp [assert], decides_none fun i hi hp => ?_⟩
      obtain hp' | hp' := isPrefix_or p rest (h.split ▸ hp)
      · exact h.shorter i hi hp'
      · obtain ⟨h₁, h₂⟩ := (hb.mem_iff i hi).mp hp'
        have hil : i = high' := by omega
        have hiw : spelled doLowerCase i = p ++ [c] := by rw [hil, hhw]
        exact hshorter i hi (hiw ▸ List.prefix_rfl)
    · right
      rw [if_pos hmz, ← hq]
      exact ⟨low', high', rfl, ⟨htext, hb, hshorter⟩, hs, rfl⟩

/-- **The loop** gives the right answer. -/
theorem decodeLoop_decides (hzero : 0 ∉ text) :
    ∀ (rest : Text) (c : UInt8) (p : Text) (low high : Nat),
      Searching doLowerCase text p (c :: rest) low high → Narrows doLowerCase p c low high →
      ∃ r, decodeLoop doLowerCase (c :: rest) p.length low high = some r
        ∧ Decides doLowerCase text r := by
  intro rest
  induction rest with
  | nil =>
    intro c p low high h hn
    obtain hdone | ⟨low', high', -, -, -, hends⟩ := decodeLoop_step h hn
    · exact hdone
    · cases hends
  | cons c' rest ih =>
    intro c p low high h hn
    obtain hdone | ⟨low', high', hrun, h', hs', -⟩ := decodeLoop_step h hn
    · exact hdone
    · rw [hrun]
      refine ih c' (p ++ [c]) low' high' h' (narrows_of_sortedOn h'.block hs' ?_ ?_)
      · rintro rfl
        exact hzero (h'.split ▸ by simp)
      · -- the first entry has one character only
        intro _
        rw [spelled_zero, letter, List.getD_eq_default _ _ (by simp)]
        exact UInt8.zero_le

end Search

/-! ### `Decode` -/

/-- **The text at a mnemonic**: a line, which has no NUL, behind the spaces in front of the mnemonic. So
it begins with a character that can be seen. -/
structure SourceText where
  first : UInt8
  rest : Text
  visible : 0x21 ≤ first
  noNul : 0 ∉ first :: rest

def SourceText.text (t : SourceText) : Text := t.first :: t.rest

theorem SourceText.doLowerCaseOf_eq (t : SourceText) (optionUppercase : Bool) :
    doLowerCaseOf optionUppercase t.text
      = (!optionUppercase && (0x61 ≤ t.first && t.first ≤ 0x7A : Bool)) := rfl

private theorem decodeLoop_text (optionUppercase : Bool) (t : SourceText)
    (hy : doLowerCaseOf optionUppercase t.text = true → t.first ≠ 0x79) :
    ∃ r, decodeLoop (doLowerCaseOf optionUppercase t.text) t.text 0 0 (decodeEntries - 1) = some r
      ∧ Decides (doLowerCaseOf optionUppercase t.text) t.text r := by
  have hstart : ∀ doLowerCase, Searching doLowerCase t.text [] t.text 0 (decodeEntries - 1) := by
    intro doLowerCase
    refine ⟨rfl, block_nil doLowerCase, fun i hi hp => ?_⟩
    rw [List.prefix_nil, spelled, List.map_eq_nil_iff] at hp
    exact absurd hp (mnemonic_ne_nil hi)
  have hfirst : Narrows (doLowerCaseOf optionUppercase t.text) [] t.first 0 (decodeEntries - 1) := by
    cases hlower : doLowerCaseOf optionUppercase t.text with
    | false => exact narrows_upperCase t.visible
    | true =>
      rw [t.doLowerCaseOf_eq] at hlower
      simp only [Bool.and_eq_true, decide_eq_true_eq] at hlower
      exact narrows_lowerCase hlower.2.1 hlower.2.2 (hy (by simp [t.doLowerCaseOf_eq, hlower]))
  exact decodeLoop_decides t.noNul t.rest t.first [] 0 _ (hstart _) hfirst

/-- **`Decode`** ends, stays in the table, and selects the longest mnemonic, when what follows may
follow it and, in lower case, it is one of an instruction. -/
theorem decode_spec (optionUppercase : Bool) (t : SourceText)
    (hy : doLowerCaseOf optionUppercase t.text = true → t.first ≠ 0x79) :
    ∃ r, decode optionUppercase t.text = some r ∧ ∀ i rest, r = some (i, rest) ↔
      Longest (doLowerCaseOf optionUppercase t.text) t.text i
        ∧ Accepts t.text (doLowerCaseOf optionUppercase t.text) i
        ∧ (doLowerCaseOf optionUppercase t.text = true → (entryAt i).instr = true)
        ∧ rest = t.text.drop (entryAt i).mnemonic.length := by
  obtain ⟨r, hrun, hr⟩ := decodeLoop_text optionUppercase t hy
  have hdecode : decode optionUppercase t.text
      = decodeSelect (doLowerCaseOf optionUppercase t.text) r := by
    rw [decode, hrun]
    rfl
  rw [hdecode]
  clear hdecode hrun hy
  generalize doLowerCaseOf optionUppercase t.text = doLowerCase at hr ⊢
  cases hfound : r with
  | none =>
    refine ⟨none, rfl, fun i rest => iff_of_false (fun h => nomatch h) ?_⟩
    rintro ⟨hlong, haccepts, -⟩
    rw [hfound] at hr
    cases (hr i _).mpr ⟨hlong, haccepts, rfl⟩
  | some found =>
    obtain ⟨i, rest⟩ := found
    obtain ⟨hlong, haccepts, hrest⟩ := (hr i rest).mp hfound
    rw [length_spelled] at hrest
    rw [decodeSelect, oDecodeTable_getElem? hlong.lt]
    change ∃ r, (if (doLowerCase && !(entryAt i).instr) = true then _ else _) = some r ∧ _
    by_cases hcase : (doLowerCase && !(entryAt i).instr) = true
    · -- a directive in lower case
      rw [if_pos hcase]
      refine ⟨none, rfl, fun j rest' => iff_of_false (fun h => nomatch h) ?_⟩
      rintro ⟨hj, -, hinstr, -⟩
      cases hlong.eq hj
      simp only [Bool.and_eq_true, Bool.not_eq_true'] at hcase
      rw [hinstr hcase.1] at hcase
      cases hcase.2
    · rw [if_neg hcase]
      have hok : (inputIsEndOfKeywordN rest 0 || (entryAt i).isPartiallyMatched) = true := by
        rw [inputIsEndOfKeywordN, List.drop_zero, Bool.or_eq_true, hrest, ← length_spelled doLowerCase]
        exact haccepts.symm
      refine ⟨some (i, rest), ?_, fun j rest' => ⟨fun heq => ?_, ?_⟩⟩
      · simp only [hok, assert, if_true, Option.bind_eq_bind, Option.bind_some]
      · cases heq
        refine ⟨hlong, haccepts, fun hlower => ?_, hrest⟩
        rw [hlower] at hcase
        simpa using hcase
      · rintro ⟨hj, -, -, rfl⟩
        cases hlong.eq hj
        rw [hrest]

/-! ### Capitals and small letters -/

/-- **The text in capitals**, -/
def SourceText.upper (t : SourceText) : SourceText where
  first := toupper t.first
  rest := t.rest.map toupper
  visible := ((char_facts t.first).2.2.2.2.2.1 t.visible).1
  noNul := by
    rw [← List.map_cons, List.mem_map]
    rintro ⟨c, hc, hzero⟩
    exact toupper_ne_zero (fun h => t.noNul (h ▸ hc)) hzero

/-- **and in small letters.** -/
def SourceText.lower (t : SourceText) : SourceText where
  first := tolower t.first
  rest := t.rest.map tolower
  visible := ((char_facts t.first).2.2.2.2.2.1 t.visible).2
  noNul := by
    rw [← List.map_cons, List.mem_map]
    rintro ⟨c, hc, hzero⟩
    exact tolower_ne_zero (fun h => t.noNul (h ▸ hc)) hzero

theorem SourceText.upper_text (t : SourceText) : t.upper.text = t.text.map toupper := rfl

theorem SourceText.lower_text (t : SourceText) : t.lower.text = t.text.map tolower := rfl

private theorem endsKeyword_drop_upper_lower (text : Text) (n : Nat) :
    endsKeyword ((text.map toupper).drop n) = endsKeyword ((text.map tolower).drop n) := by
  rw [← List.map_drop, ← List.map_drop]
  cases text.drop n with
  | nil => rfl
  | cons c text => exact (endsKeyword_toupper c _).trans (endsKeyword_tolower c _).symm

/-- **Both spellings of a mnemonic** begin the text in their case, or none does. -/
theorem spelled_isPrefix_lower_iff {i : Nat} (hi : i < decodeEntries) (text : Text) :
    spelled true i <+: text.map tolower ↔ spelled false i <+: text.map toupper := by
  rw [spelled_true, spelled_false]
  constructor
  · intro h
    have hup := h.map toupper
    rwa [List.map_map, List.map_map, toupper_comp_tolower, map_toupper_mnemonic hi] at hup
  · intro h
    have hlow := h.map tolower
    rwa [List.map_map, tolower_comp_toupper] at hlow

theorem spelled_of_sign {i : Nat} (hi : i < decodeEntries) {c : UInt8} {text : Text}
    (hc : isalpha c = false) (hp : spelled false i <+: c :: text) : spelled false i = [c] := by
  rw [spelled_false] at hp ⊢
  have hhead := (mnemonic_facts hi).2.2
  have hne := mnemonic_ne_nil hi
  cases hm : (entryAt i).mnemonic with
  | nil => exact absurd hm hne
  | cons a m =>
    rw [hm] at hp hhead
    obtain ⟨rfl, -⟩ := List.cons_prefix_cons.mp hp
    obtain halpha | hlen := hhead
    · change isalpha a = true at halpha
      rw [hc] at halpha
      cases halpha
    · rw [List.length_eq_one_iff] at hlen
      obtain ⟨b, hb⟩ := hlen
      cases hb
      rfl

private theorem longest_lower_iff (t : SourceText) (i : Nat) :
    Longest (isalpha t.first) t.lower.text i ↔ Longest false t.upper.text i := by
  -- a mnemonic is a beginning of both or of none
  have hbegins : ∀ j, j < decodeEntries →
      (spelled (isalpha t.first) j <+: t.lower.text ↔ spelled false j <+: t.upper.text) := by
    intro j hj
    cases halpha : isalpha t.first with
    | true => exact spelled_isPrefix_lower_iff hj t.text
    | false =>
      obtain ⟨-, -, -, -, -, -, -, -, hsign⟩ := char_facts t.first
      obtain ⟨hlower, hupper⟩ := hsign halpha
      have hone : ∀ text text' : Text, spelled false j <+: t.first :: text →
          spelled false j <+: t.first :: text' := by
        intro text text' hp
        rw [spelled_of_sign hj halpha hp]
        exact List.cons_prefix_cons.mpr ⟨rfl, List.nil_prefix⟩
      change spelled false j <+: tolower t.first :: _ ↔ spelled false j <+: toupper t.first :: _
      rw [hlower, hupper]
      exact ⟨hone _ _, hone _ _⟩
  constructor
  · intro h
    refine ⟨h.lt, (hbegins i h.lt).mp h.isPrefix, fun j hj hp => ?_⟩
    have := h.length_le j hj ((hbegins j hj).mpr hp)
    rwa [length_spelled, length_spelled] at this ⊢
  · intro h
    refine ⟨h.lt, (hbegins i h.lt).mpr h.isPrefix, fun j hj hp => ?_⟩
    have := h.length_le j hj ((hbegins j hj).mp hp)
    rwa [length_spelled, length_spelled] at this ⊢

/-- **Case.** The text in small letters selects the entry that it selects in capitals, unless that is
a directive with a name of letters; `y` is left out. -/
theorem decode_case (t : SourceText) (hy : tolower t.first ≠ 0x79) :
    ∃ rU rL, decode false t.upper.text = some rU ∧ decode false t.lower.text = some rL
      ∧ ∀ i, (∃ rest, rL = some (i, rest)) ↔ (∃ rest, rU = some (i, rest))
        ∧ (isalpha t.first = true → (entryAt i).instr = true) := by
  obtain ⟨-, -, -, -, -, -, hupper, hlower, -⟩ := char_facts t.first
  have hdoU : doLowerCaseOf false t.upper.text = false := hupper
  have hdoL : doLowerCaseOf false t.lower.text = isalpha t.first := hlower
  obtain ⟨rU, hrunU, hU⟩ := decode_spec false t.upper fun h => by
    rw [hdoU] at h
    cases h
  obtain ⟨rL, hrunL, hL⟩ := decode_spec false t.lower fun _ => hy
  rw [hdoU] at hU
  rw [hdoL] at hL
  refine ⟨rU, rL, hrunU, hrunL, fun i => ?_⟩
  have haccepts : Accepts t.lower.text (isalpha t.first) i ↔ Accepts t.upper.text false i := by
    rw [Accepts, Accepts, length_spelled, length_spelled, t.upper_text, t.lower_text,
      endsKeyword_drop_upper_lower]
  constructor
  · rintro ⟨rest, hrest⟩
    obtain ⟨hlong, hacc, hinstr, -⟩ := (hL i rest).mp hrest
    exact ⟨⟨_, (hU i _).mpr ⟨(longest_lower_iff t i).mp hlong, haccepts.mp hacc,
      fun h => (nomatch h), rfl⟩⟩, hinstr⟩
  · rintro ⟨⟨rest, hrest⟩, hinstr⟩
    obtain ⟨hlong, hacc, -, -⟩ := (hU i rest).mp hrest
    exact ⟨_, (hL i _).mpr ⟨(longest_lower_iff t i).mpr hlong, haccepts.mpr hacc, hinstr, rfl⟩⟩

/-- **What the search of `Decode` selects**, for every text: it ends, reads nothing outside of the table,
and selects an entry exactly when its mnemonic is the longest that begins the text, the text may go on as it
does, and in lower case it is one of an instruction; small letters select what capitals do, unless that is a
directive. A `y` in lower case is left out. -/
theorem decode_selects :
    (∀ (optionUppercase : Bool) (t : SourceText),
      (doLowerCaseOf optionUppercase t.text = true → t.first ≠ 0x79) →
      ∃ r, decode optionUppercase t.text = some r ∧ ∀ i rest, r = some (i, rest) ↔
        Longest (doLowerCaseOf optionUppercase t.text) t.text i
          ∧ Accepts t.text (doLowerCaseOf optionUppercase t.text) i
          ∧ (doLowerCaseOf optionUppercase t.text = true → (entryAt i).instr = true)
          ∧ rest = t.text.drop (entryAt i).mnemonic.length)
    ∧ ∀ t : SourceText, tolower t.first ≠ 0x79 →
      ∃ rU rL, decode false t.upper.text = some rU ∧ decode false t.lower.text = some rL
        ∧ ∀ i, (∃ rest, rL = some (i, rest)) ↔ (∃ rest, rU = some (i, rest))
          ∧ (isalpha t.first = true → (entryAt i).instr = true) :=
  ⟨decode_spec, decode_case⟩

/-- `movs r0` -/
def movsText : SourceText where
  first := 0x6D
  rest := cstr "ovs r0"
  visible := by decide
  noNul := by decide +kernel

/-- The mnemonic is `MOV`, and its function reads on at the `s`. -/
theorem decode_movs : decode false movsText.text = some (some (116, cstr "s r0")) := by
  obtain ⟨r, hrun, hr⟩ := decode_selects.1 false movsText fun _ => by decide
  have hlower : doLowerCaseOf false movsText.text = true := by decide
  rw [hlower] at hr
  -- of all mnemonics
  have hall : (oDecodeTable.all fun e =>
      !(e.mnemonic.map (resolveLowerCase · true)).isPrefixOf movsText.text
        || Nat.ble e.mnemonic.length 3) = true := by
    decide +kernel
  have hlong : Longest true movsText.text 116 := by
    refine ⟨by decide, by decide +kernel, fun j hj hp => ?_⟩
    have hmov : (spelled true 116).length = 3 := by decide +kernel
    have hj' := List.all_eq_true.mp hall _ (entryAt_mem hj)
    rw [show (entryAt j).mnemonic.map (resolveLowerCase · true) = spelled true j from rfl,
      List.isPrefixOf_iff_prefix.mpr hp, Bool.not_true, Bool.false_or] at hj'
    rw [hmov, length_spelled]
    exact Nat.le_of_ble_eq_true hj'
  have hwild : (entryAt 116).isPartiallyMatched = true := by decide +kernel
  have hinstr : (entryAt 116).instr = true := by decide +kernel
  have hrest : cstr "s r0" = movsText.text.drop (entryAt 116).mnemonic.length := by
    decide +kernel
  rw [hrun, (hr 116 (cstr "s r0")).mpr ⟨hlong, Or.inl hwild, fun _ => hinstr, hrest⟩]

/-- **Directives are written in capitals**: `END` is found, `end` is not. -/
theorem decode_end : (∃ i, decode false (cstr "END") = some (some (i, [])))
    ∧ decode false (cstr "end") = some none := by
  refine ⟨⟨61, ?_⟩, ?_⟩
  · decide +kernel
  · decide +kernel

end Asasm
