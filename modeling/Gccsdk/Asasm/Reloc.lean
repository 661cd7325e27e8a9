import Gccsdk.Asasm.DecodeLookup

/-!
# The value of a relocation name

`Reloc_GetRelocValue` of `reloc.c`: the ELF relocation called `R_ARM_` and a name of the table
`oARMRelocTypes`, whose values are the constants of the vendored `elfdefinitions.h`. The search is the
one of `Decode`, letter by letter (`decodeNarrow`), but goes on to the NUL of the string.

The bounds of the search are unsigned. `high = mid - 1` wraps when the letter comes before those of all
entries and the interval begins with the first entry of the table; the next entry that is read is
then the one in the middle of the address space. `relocGetRelocValue_right_iff` says when: the search
stays in the table and gives the right answer unless what is behind `R_ARM_` comes before the first name.
-/

namespace Asasm

open PrefixSearch

attribute [local instance] letterOrder

/-! ### The table -/

structure ArmRelocTypes where
  name : Name
  value : BitVec 8
  deriving DecidableEq, Repr

def oARMRelocTypes : List ArmRelocTypes :=
  [⟨cstr "ABS12", 6⟩, ⟨cstr "ABS16", 5⟩, ⟨cstr "ABS32", 2⟩, ⟨cstr "ABS32_NOI", 55⟩,
    ⟨cstr "ABS8", 8⟩, ⟨cstr "ALU_PCREL_15_8", 33⟩, ⟨cstr "ALU_PCREL_23_15", 34⟩,
    ⟨cstr "ALU_PCREL_7_0", 32⟩, ⟨cstr "ALU_PC_G0", 58⟩, ⟨cstr "ALU_PC_G0_NC", 57⟩,
    ⟨cstr "ALU_PC_G1", 60⟩, ⟨cstr "ALU_PC_G1_NC", 59⟩, ⟨cstr "ALU_PC_G2", 61⟩,
    ⟨cstr "ALU_SBREL_19_12_NC", 36⟩, ⟨cstr "ALU_SBREL_27_20_CK", 37⟩, ⟨cstr "ALU_SB_G0", 71⟩,
    ⟨cstr "ALU_SB_G0_NC", 70⟩, ⟨cstr "ALU_SB_G1", 73⟩, ⟨cstr "ALU_SB_G1_NC", 72⟩,
    ⟨cstr "ALU_SB_G2", 74⟩, ⟨cstr "BASE_ABS", 31⟩, ⟨cstr "BASE_PREL", 25⟩, ⟨cstr "BREL_ADJ", 12⟩,
    ⟨cstr "CALL", 28⟩, ⟨cstr "COPY", 20⟩, ⟨cstr "GLOB_DAT", 21⟩, ⟨cstr "GNU_VTENTRY", 100⟩,
    ⟨cstr "GNU_VTINHERIT", 101⟩, ⟨cstr "GOTOFF12", 98⟩, ⟨cstr "GOTOFF32", 24⟩,
    ⟨cstr "GOTRELAX", 99⟩, ⟨cstr "GOT_ABS", 95⟩, ⟨cstr "GOT_BREL", 26⟩, ⟨cstr "GOT_BREL12", 97⟩,
    ⟨cstr "GOT_PREL", 96⟩, ⟨cstr "IRELATIVE", 140⟩, ⟨cstr "JUMP24", 29⟩, ⟨cstr "JUMP_SLOT", 22⟩,
    ⟨cstr "LDC_PC_G0", 67⟩, ⟨cstr "LDC_PC_G1", 68⟩, ⟨cstr "LDC_PC_G2", 69⟩, ⟨cstr "LDC_SB_G0", 81⟩,
    ⟨cstr "LDC_SB_G1", 82⟩, ⟨cstr "LDC_SB_G2", 83⟩, ⟨cstr "LDRS_PC_G0", 64⟩,
    ⟨cstr "LDRS_PC_G1", 65⟩, ⟨cstr "LDRS_PC_G2", 66⟩, ⟨cstr "LDRS_SB_G0", 78⟩,
    ⟨cstr "LDRS_SB_G1", 79⟩, ⟨cstr "LDRS_SB_G2", 80⟩, ⟨cstr "LDR_PC_G0", 4⟩, ⟨cstr "LDR_PC_G1", 62⟩,
    ⟨cstr "LDR_PC_G2", 63⟩, ⟨cstr "LDR_SBREL_11_0_NC", 35⟩, ⟨cstr "LDR_SB_G0", 75⟩,
    ⟨cstr "LDR_SB_G1", 76⟩, ⟨cstr "LDR_SB_G2", 77⟩, ⟨cstr "ME_TOO", 128⟩, ⟨cstr "MOVT_ABS", 44⟩,
    ⟨cstr "MOVT_BREL", 85⟩, ⟨cstr "MOVT_PREL", 46⟩, ⟨cstr "MOVW_ABS_NC", 43⟩,
    ⟨cstr "MOVW_BREL", 86⟩, ⟨cstr "MOVW_BREL_NC", 84⟩, ⟨cstr "MOVW_PREL_NC", 45⟩, ⟨cstr "NONE", 0⟩,
    ⟨cstr "PC24", 1⟩, ⟨cstr "PLT32", 27⟩, ⟨cstr "PLT32_ABS", 94⟩, ⟨cstr "PREL31", 42⟩,
    ⟨cstr "PRIVATE_0", 112⟩, ⟨cstr "PRIVATE_1", 113⟩, ⟨cstr "PRIVATE_10", 122⟩,
    ⟨cstr "PRIVATE_11", 123⟩, ⟨cstr "PRIVATE_12", 124⟩, ⟨cstr "PRIVATE_13", 125⟩,
    ⟨cstr "PRIVATE_14", 126⟩, ⟨cstr "PRIVATE_15", 127⟩, ⟨cstr "PRIVATE_2", 114⟩,
    ⟨cstr "PRIVATE_3", 115⟩, ⟨cstr "PRIVATE_4", 116⟩, ⟨cstr "PRIVATE_5", 117⟩,
    ⟨cstr "PRIVATE_6", 118⟩, ⟨cstr "PRIVATE_7", 119⟩, ⟨cstr "PRIVATE_8", 120⟩,
    ⟨cstr "PRIVATE_9", 121⟩, ⟨cstr "REL32", 3⟩, ⟨cstr "REL32_NOI", 56⟩, ⟨cstr "RELATIVE", 23⟩,
    ⟨cstr "SBREL31", 39⟩, ⟨cstr "SBREL32", 9⟩, ⟨cstr "SWI24", 13⟩, ⟨cstr "TARGET1", 38⟩,
    ⟨cstr "TARGET2", 41⟩, ⟨cstr "THM_ABS5", 7⟩, ⟨cstr "THM_ALU_PREL_11_0", 53⟩,
    ⟨cstr "THM_CALL", 10⟩, ⟨cstr "THM_GOT_BREL12", 131⟩, ⟨cstr "THM_JUMP11", 102⟩,
    ⟨cstr "THM_JUMP19", 51⟩, ⟨cstr "THM_JUMP24", 30⟩, ⟨cstr "THM_JUMP6", 52⟩,
    ⟨cstr "THM_JUMP8", 103⟩, ⟨cstr "THM_MOVT_ABS", 48⟩, ⟨cstr "THM_MOVT_BREL", 88⟩,
    ⟨cstr "THM_MOVT_PREL", 50⟩, ⟨cstr "THM_MOVW_ABS_NC", 47⟩, ⟨cstr "THM_MOVW_BREL", 89⟩,
    ⟨cstr "THM_MOVW_BREL_NC", 87⟩, ⟨cstr "THM_MOVW_PREL_NC", 49⟩, ⟨cstr "THM_PC12", 54⟩,
    ⟨cstr "THM_PC8", 11⟩, ⟨cstr "THM_SWI8", 14⟩, ⟨cstr "THM_TLS_CALL", 93⟩,
    ⟨cstr "THM_TLS_DESCSEQ16", 129⟩, ⟨cstr "THM_TLS_DESCSEQ32", 130⟩, ⟨cstr "THM_XPC22", 16⟩,
    ⟨cstr "TLS_CALL", 91⟩, ⟨cstr "TLS_DESC", 13⟩, ⟨cstr "TLS_DESCSEQ", 92⟩,
    ⟨cstr "TLS_DTPMOD32", 17⟩, ⟨cstr "TLS_DTPOFF32", 18⟩, ⟨cstr "TLS_GD32", 104⟩,
    ⟨cstr "TLS_GOTDESC", 90⟩, ⟨cstr "TLS_IE12GP", 111⟩, ⟨cstr "TLS_IE32", 107⟩,
    ⟨cstr "TLS_LDM32", 105⟩, ⟨cstr "TLS_LDO12", 109⟩, ⟨cstr "TLS_LDO32", 106⟩,
    ⟨cstr "TLS_LE12", 110⟩, ⟨cstr "TLS_LE32", 108⟩, ⟨cstr "TLS_TPOFF32", 19⟩, ⟨cstr "V4BX", 40⟩,
    ⟨cstr "XPC25", 15⟩]

def relocEntries : Nat := 134

def relocPrefix : Name := cstr "R_ARM_"

/-! ### The search -/

/-- `oARMRelocTypes[i].name[idx]`; none behind the table and behind the NUL of the name. -/
def relocChar (i idx : Nat) : Option UInt8 := do
  let entry ← oARMRelocTypes[i]?
  (entry.name ++ [0])[idx]?

/-- The result when the string and the name of the first entry that is left end. -/
def relocEnd (c : UInt8) (idx low : Nat) : Option (Option (BitVec 32)) :=
  if c = 0 then do
    let m ← relocChar low idx
    let entry ← oARMRelocTypes[low]?
    some (if m = 0 then some (entry.value.setWidth 32) else none)
  else some none

def uint32Max : BitVec 32 := 0xFFFFFFFF#32

/-- **The loop over the characters** of the string, its NUL included. The binary search of a character
is coded as in `Decode`. -/
def relocLoop : Text → (idx low high : Nat) → Option (BitVec 32)
  | [], _, _, _ => none
  | c :: text, idx, low, high => do
    match ← relocEnd c idx low with
    | some value => some value
    | none => do
      let (low, high) ← decodeNarrow (relocChar · idx) c (relocEntries + 1) low high
      if high < low then some uint32Max else relocLoop text (idx + 1) low high

/-- **`Reloc_GetRelocValue`** of a string, given without its NUL. -/
def relocGetRelocValue (relocName : Name) : Option (BitVec 32) :=
  if relocName.take relocPrefix.length ≠ relocPrefix then some uint32Max
  else relocLoop (relocName.drop relocPrefix.length ++ [0]) 0 0 (relocEntries - 1)

/-- **The right answer**: the search stays in the table and ends, with the value of the entry whose name
is behind `R_ARM_` in the string, or with `UINT32_MAX` when there is none. -/
def RelocRight (relocName : Name) : Prop :=
  ∃ value, relocGetRelocValue relocName = some value
    ∧ ((∃ entry ∈ oARMRelocTypes, relocName = relocPrefix ++ entry.name
        ∧ value = entry.value.setWidth 32)
      ∨ (value = uint32Max ∧ ∀ entry ∈ oARMRelocTypes, relocName ≠ relocPrefix ++ entry.name))

/-! ### The table is in order -/

def relocWord (i : Nat) : Name := (oARMRelocTypes.map ArmRelocTypes.name).getD i []

/-- **The table**, checked as a whole: its length, its names and their order. -/
private theorem relocTable_facts :
    oARMRelocTypes.length = relocEntries
    ∧ (oARMRelocTypes.all fun entry => !entry.name.isEmpty && entry.name.all (· != 0)) = true
    ∧ increasing (oARMRelocTypes.map ArmRelocTypes.name) = true := by
  decide +kernel

theorem length_oARMRelocTypes : oARMRelocTypes.length = relocEntries := relocTable_facts.1

theorem relocEntry_exists {i : Nat} (hi : i < relocEntries) :
    ∃ entry, oARMRelocTypes[i]? = some entry ∧ relocWord i = entry.name := by
  have hlt : i < oARMRelocTypes.length := by rwa [length_oARMRelocTypes]
  refine ⟨oARMRelocTypes[i], List.getElem?_eq_getElem hlt, ?_⟩
  rw [relocWord, List.getD_eq_getElem _ _ (by rwa [List.length_map])]
  exact List.getElem_map _

theorem mem_oARMRelocTypes {entry : ArmRelocTypes} (h : entry ∈ oARMRelocTypes) :
    ∃ i, i < relocEntries ∧ relocWord i = entry.name := by
  obtain ⟨i, hi⟩ := List.mem_iff_getElem?.mp h
  have hlt : i < relocEntries := by
    rw [← length_oARMRelocTypes]
    exact (List.getElem?_eq_some_iff.mp hi).1
  obtain ⟨entry', hentry, hword⟩ := relocEntry_exists hlt
  rw [hi] at hentry
  cases hentry
  exact ⟨i, hlt, hword⟩

theorem zero_notMem_relocWord {i : Nat} (hi : i < relocEntries) : (0 : UInt8) ∉ relocWord i := by
  obtain ⟨entry, hentry, hword⟩ := relocEntry_exists hi
  have hgood := List.all_eq_true.mp relocTable_facts.2.1 entry (List.mem_of_getElem? hentry)
  simp only [Bool.and_eq_true, List.all_eq_true, bne_iff_ne] at hgood
  rw [hword]
  exact fun h => hgood.2 0 h rfl

theorem sortedOn_relocWord : SortedOn relocWord 0 (relocEntries - 1) := by
  have hsorted := sortedOn_getD (increasing_iff.mp relocTable_facts.2.2)
  rwa [List.length_map, length_oARMRelocTypes] at hsorted

theorem relocBlock_nil : Block relocWord relocEntries [] 0 (relocEntries - 1) where
  low_le := by decide
  high_lt := by decide
  mem_iff i hi := iff_of_true List.nil_prefix ⟨Nat.zero_le i, Nat.le_pred_of_lt hi⟩

theorem relocChar_eq {i k : Nat} (hi : i < relocEntries) (hk : k ≤ (relocWord i).length) :
    relocChar i k = some (letter 0 (relocWord i) k) := by
  obtain ⟨entry, hentry, hword⟩ := relocEntry_exists hi
  rw [hword] at hk ⊢
  rw [relocChar, hentry]
  change (entry.name ++ [0])[k]? = _
  obtain rfl | hlt := Nat.eq_or_lt_of_le hk
  · -- the NUL
    rw [letter_length, List.getElem?_append_right (Nat.le_refl _), Nat.sub_self]
    rfl
  · rw [letter_of_lt hlt, List.getElem?_append_left hlt, List.getElem?_eq_getElem hlt]

/-! ### The binary search below the first entry -/

/-- **Below the first entry** of the table `high` wraps, and the entry read next is in no table. -/
theorem decodeNarrow_below {read : Nat → Option UInt8} {c : UInt8} {f : Nat → UInt8} {n : Nat}
    (hread : ∀ i, i ≤ n → read i = some (f i)) (hbelow : ∀ i, i ≤ n → c < f i)
    (houtside : read (sizeMax / 2) = none) :
    ∀ fuel high, high ≤ n → decodeNarrow read c fuel 0 high = none := by
  intro fuel
  induction fuel with
  | zero => exact fun _ _ => rfl
  | succ fuel ih =>
    intro high hhigh
    have hmid : high / 2 ≤ n := by omega
    rw [decodeNarrow_succ (Nat.zero_le high) (show 0 + (high - 0) / 2 = high / 2 by omega) (hread _ hmid),
      if_neg (not_lt.mpr (le_of_lt (hbelow _ hmid))), if_pos (hbelow _ hmid), sizePred]
    by_cases hzero : high / 2 = 0
    · rw [if_pos hzero]
      cases fuel with
      | zero => rfl
      | succ fuel =>
        rw [decodeNarrow, if_pos (Nat.zero_le _)]
        simp only [Nat.sub_zero, Nat.zero_add, houtside]
        rfl
    · rw [if_neg hzero]
      exact ih _ (by omega)

/-! ### The search of the rest of the string -/

section Search

variable {p rest : Name} {low high : Nat}

/-- What the search is to give for the text behind `R_ARM_`. -/
def RelocFound (text : Name) (value : BitVec 32) : Prop :=
  (∃ entry ∈ oARMRelocTypes, text = entry.name ∧ value = entry.value.setWidth 32)
    ∨ (value = uint32Max ∧ ∀ entry ∈ oARMRelocTypes, text ≠ entry.name)

private theorem relocRead (hb : Block relocWord relocEntries p low high) (i : Nat) (hl : low ≤ i)
    (hh : i ≤ high) :
    (relocChar · p.length) i = some (letter 0 (relocWord i) p.length) := by
  have hi := Nat.lt_of_le_of_lt hh hb.high_lt
  exact relocChar_eq hi ((hb.mem_iff i hi).mpr ⟨hl, hh⟩).length_le

private theorem relocFound_none {text : Name} (h : ∀ i, i < relocEntries → relocWord i ≠ text) :
    RelocFound text uint32Max := by
  refine Or.inr ⟨rfl, fun entry hentry heq => ?_⟩
  obtain ⟨i, hi, hword⟩ := mem_oARMRelocTypes hentry
  exact h i hi (hword.trans heq.symm)

/-- **The search of one character** `c` over a block: the letters that it finds, unless it comes before
those of a block that begins with the first entry. -/
private theorem relocNarrow (hb : Block relocWord relocEntries p low high)
    (hs : SortedOn relocWord low high) (c : UInt8)
    (hzero : low = 0 → letter 0 (relocWord 0) p.length ≤ c) :
    ∃ low' high', decodeNarrow (relocChar · p.length) c (relocEntries + 1) low high
        = some (low', high')
      ∧ (∀ i, low ≤ i → i ≤ high →
        (letter 0 (relocWord i) p.length = c ↔ low' ≤ i ∧ i ≤ high'))
      ∧ (low' ≤ high' → low ≤ low' ∧ high' ≤ high) := by
  have hhigh := hb.high_lt
  exact decodeNarrow_spec (f := fun i => letter 0 (relocWord i) p.length) (relocRead hb)
    (fun i j h₁ h₂ h₃ => hs.letter_mono hb (fun _ _ _ _ => UInt8.zero_le) h₁ h₂ h₃)
    (relocEntries + 1) low high (Nat.le_refl _) (Nat.le_refl _) (Nat.le_succ_of_le hb.low_le)
    (by omega) hzero (fun i h₁ h₂ _ => ⟨h₁, h₂⟩)

private theorem relocNarrow_below (hb : Block relocWord relocEntries p 0 high)
    (hs : SortedOn relocWord 0 high) {c : UInt8} (hc : c < letter 0 (relocWord 0) p.length) :
    decodeNarrow (relocChar · p.length) c (relocEntries + 1) 0 high = none := by
  refine decodeNarrow_below (f := fun i => letter 0 (relocWord i) p.length)
    (fun i hi => relocRead hb i (Nat.zero_le i) hi) (fun i hi => lt_of_lt_of_le hc ?_) ?_ _ high
    (Nat.le_refl _)
  · exact hs.letter_mono hb (fun _ _ _ _ => UInt8.zero_le) (Nat.le_refl _) (Nat.zero_le i) hi
  · have houtside : oARMRelocTypes[sizeMax / 2]? = none := by
      rw [List.getElem?_eq_none_iff, length_oARMRelocTypes]
      decide
    change relocChar (sizeMax / 2) p.length = none
    rw [relocChar, houtside]
    rfl

private theorem relocLoop_nul (hb : Block relocWord relocEntries p low high)
    (hs : SortedOn relocWord low high) :
    (low = 0 → p < relocWord 0 → relocLoop [0] p.length low high = none)
    ∧ ((low = 0 → ¬ p < relocWord 0) →
      ∃ value, relocLoop [0] p.length low high = some value ∧ RelocFound p value) := by
  have hlow : low < relocEntries := Nat.lt_of_le_of_lt hb.low_le hb.high_lt
  have hpre : p <+: relocWord low := (hb.mem_iff low hlow).mpr ⟨Nat.le_refl _, hb.low_le⟩
  obtain ⟨entry, hentry, hword⟩ := relocEntry_exists hlow
  have hend : relocEnd 0 p.length low = some (if letter 0 (relocWord low) p.length = 0
      then some (entry.value.setWidth 32) else none) := by
    rw [relocEnd, if_pos rfl, relocChar_eq hlow hpre.length_le, hentry]
    rfl
  by_cases hletter : letter 0 (relocWord low) p.length = 0
  · -- the first name of the block ends here, too
    have hp := eq_of_letter_eq (zero_notMem_relocWord hlow) hpre hletter
    refine ⟨fun h0 hlt => ?_, fun _ => ⟨entry.value.setWidth 32, ?_, Or.inl ⟨entry,
      List.mem_of_getElem? hentry, hp.symm.trans hword, rfl⟩⟩⟩
    · subst h0
      rw [hp] at hlt
      exact absurd hlt (lt_irrefl _)
    · rw [relocLoop, hend, if_pos hletter]
      rfl
  · -- all names of the block are longer
    have hlonger : ∀ i, low ≤ i → i ≤ high → letter 0 (relocWord i) p.length ≠ 0 := by
      intro i h₁ h₂ hzero
      have hi := Nat.lt_of_le_of_lt h₂ hb.high_lt
      have hp := eq_of_letter_eq (zero_notMem_relocWord hi)
        ((hb.mem_iff i hi).mpr ⟨h₁, h₂⟩) hzero
      rw [hs.eq_low_of_word_eq hb hi hp] at hzero
      exact hletter hzero
    have hrun : relocLoop [0] p.length low high
        = (decodeNarrow (relocChar · p.length) 0 (relocEntries + 1) low high).bind
          fun (low, high) => if high < low then some uint32Max else relocLoop [] (p.length + 1) low high := by
      rw [relocLoop, hend, if_neg hletter]
      rfl
    have hne : ∀ i, i < relocEntries → relocWord i ≠ p := by
      intro i hi hp
      obtain ⟨h₁, h₂⟩ := (hb.mem_iff i hi).mp (hp ▸ List.prefix_rfl)
      refine hlonger i h₁ h₂ ?_
      rw [hp, letter_length]
    have hproper : p < relocWord low := by
      refine lt_of_isPrefix hpre (Nat.lt_of_le_of_ne hpre.length_le fun hlen => ?_)
      exact hne low hlow (hpre.eq_of_length hlen).symm
    refine ⟨fun h0 _ => ?_, fun hnot => ⟨uint32Max, ?_, relocFound_none hne⟩⟩
    · subst h0
      rw [hrun, relocNarrow_below hb hs (lt_of_le_of_ne UInt8.zero_le (Ne.symm hletter))]
      rfl
    · have hlow0 : low ≠ 0 := fun h0 => hnot h0 (h0 ▸ hproper)
      obtain ⟨low', high', hnarrow, hletters, hin⟩ :=
        relocNarrow hb hs 0 (fun h0 => absurd h0 hlow0)
      have hempty : high' < low' := by
        by_contra hle
        rw [Nat.not_lt] at hle
        obtain ⟨h₁, h₂⟩ := hin hle
        exact hlonger low' h₁ (Nat.le_trans hle h₂)
          ((hletters low' h₁ (Nat.le_trans hle h₂)).mpr ⟨Nat.le_refl _, hle⟩)
      rw [hrun, hnarrow]
      exact if_pos hempty

/-- **The search** behind the characters `p` that have been read: in the block of the names that begin with
them it leaves the table exactly when the text comes before the first name, and finds the text otherwise. -/
theorem relocLoop_spec (h0 : (0 : UInt8) ∉ rest) (hb : Block relocWord relocEntries p low high)
    (hs : SortedOn relocWord low high) :
    (low = 0 → p ++ rest < relocWord 0 → relocLoop (rest ++ [0]) p.length low high = none)
    ∧ ((low = 0 → ¬ p ++ rest < relocWord 0) →
      ∃ value, relocLoop (rest ++ [0]) p.length low high = some value
        ∧ RelocFound (p ++ rest) value) := by
  induction rest generalizing p low high with
  | nil =>
    rw [List.append_nil]
    exact relocLoop_nul hb hs
  | cons c rest ih =>
    have hc : c ≠ 0 := fun h => h0 (by simp [h])
    have hrest : (0 : UInt8) ∉ rest := fun h => h0 (List.mem_cons_of_mem c h)
    have hrun : relocLoop (c :: rest ++ [0]) p.length low high
        = (decodeNarrow (relocChar · p.length) c (relocEntries + 1) low high).bind
          fun (low, high) => if high < low then some uint32Max
            else relocLoop (rest ++ [0]) (p.length + 1) low high := by
      rw [List.cons_append, relocLoop, relocEnd, if_neg hc]
      rfl
    have hlen : p.length + 1 = (p ++ [c]).length := by simp
    have hsplit : p ++ c :: rest = (p ++ [c]) ++ rest := by simp
    rw [hrun]
    by_cases hbelow : low = 0 ∧ c < letter 0 (relocWord 0) p.length
    · -- the character comes before those of the first entry
      obtain ⟨rfl, hbelow⟩ := hbelow
      have hpre : p <+: relocWord 0 :=
        (hb.mem_iff 0 (by decide)).mpr ⟨Nat.le_refl _, hb.low_le⟩
      rw [relocNarrow_below hb hs hbelow]
      exact ⟨fun _ _ => rfl, fun hnot => absurd (lt_of_lt_letter (fun _ => UInt8.zero_le) hpre hbelow) (hnot rfl)⟩
    · have hzero : low = 0 → letter 0 (relocWord 0) p.length ≤ c :=
        fun hl => not_lt.mp fun hlt => hbelow ⟨hl, hlt⟩
      obtain ⟨low', high', hnarrow, hletters, hin⟩ := relocNarrow hb hs c hzero
      rw [hnarrow]
      change (low = 0 → _ → (if high' < low' then some uint32Max else _) = none)
        ∧ (_ → ∃ value, (if high' < low' then some uint32Max else _) = some value ∧ _)
      by_cases hle : low' ≤ high'
      · -- the names that go on with the character
        obtain ⟨hl, hh⟩ := hin hle
        have hb' := hb.snoc hc hle hh hletters hl
        obtain ⟨hbad, hgood⟩ := ih hrest hb' (hs.mono hl hh)
        rw [if_neg (Nat.not_lt.mpr hle), hlen, hsplit]
        refine ⟨fun hl0 hlt => ?_, fun hnot => hgood fun hl0 => hnot (by omega)⟩
        -- the first entry goes on with the character, too
        subst hl0
        refine hbad ?_ hlt
        have hpre : p <+: relocWord 0 :=
          (hb.mem_iff 0 (by decide)).mpr ⟨Nat.le_refl _, hb.low_le⟩
        have hfirst : c ≤ letter 0 (relocWord 0) p.length := by
          rw [← hsplit] at hlt
          exact le_letter_of_lt (fun _ _ => UInt8.zero_le) hpre hlt
        have hletter := (hletters 0 (Nat.le_refl _) (Nat.zero_le _)).mp
          (le_antisymm (hzero rfl) hfirst)
        omega
      · -- no name goes on with it
        have hne : ∀ i, i < relocEntries → ¬ p ++ [c] <+: relocWord i := fun i hi =>
          hb.not_snoc hc (fun j h₁ h₂ hj => by
            obtain ⟨h₃, h₄⟩ := (hletters j h₁ h₂).mp hj
            exact hle (Nat.le_trans h₃ h₄)) hi
        rw [if_pos (Nat.not_le.mp hle)]
        refine ⟨fun hl0 hlt => ?_, fun _ => ⟨uint32Max, rfl, relocFound_none fun i hi heq =>
          hne i hi (heq ▸ ⟨rest, by simp⟩)⟩⟩
        -- the first entry would go on with the character
        subst hl0
        have hpre : p <+: relocWord 0 :=
          (hb.mem_iff 0 (by decide)).mpr ⟨Nat.le_refl _, hb.low_le⟩
        have hfirst := le_antisymm (hzero rfl) (le_letter_of_lt (fun _ _ => UInt8.zero_le) hpre hlt)
        exact absurd ((snoc_isPrefix_iff hc p _).mpr ⟨hpre, hfirst⟩) (hne 0 (by decide))

end Search

/-! ### The result -/

/-- **The answer is right** unless the text behind `R_ARM_` comes before the first name of the table. -/
theorem relocGetRelocValue_right_iff (relocName : Name) (h0 : (0 : UInt8) ∉ relocName) :
    RelocRight relocName
      ↔ ¬ ∃ text, relocName = relocPrefix ++ text ∧ text < cstr "ABS12" := by
  have hfirst : relocWord 0 = cstr "ABS12" := by decide
  by_cases hpre : relocName.take relocPrefix.length = relocPrefix
  · obtain ⟨text, rfl⟩ : ∃ text, relocName = relocPrefix ++ text := by
      refine ⟨relocName.drop relocPrefix.length, ?_⟩
      have hsplit := List.take_append_drop relocPrefix.length relocName
      rw [hpre] at hsplit
      exact hsplit.symm
    have htext : (0 : UInt8) ∉ text := fun h => h0 (List.mem_append_right _ h)
    have hspec := relocLoop_spec htext relocBlock_nil sortedOn_relocWord
    rw [List.nil_append, List.length_nil] at hspec
    obtain ⟨hbad, hgood⟩ := hspec
    have hrun : relocGetRelocValue (relocPrefix ++ text)
        = relocLoop (text ++ [0]) 0 0 (relocEntries - 1) := by
      rw [relocGetRelocValue, if_neg (by rw [List.take_left]; exact fun h => h rfl), List.drop_left]
    rw [RelocRight, hrun]
    constructor
    · rintro ⟨value, hvalue, -⟩ ⟨text', heq, hlt⟩
      rw [← List.append_cancel_left heq, ← hfirst] at hlt
      rw [hbad rfl hlt] at hvalue
      cases hvalue
    · intro hnot
      obtain ⟨value, hvalue, hfound⟩ := hgood fun _ hlt => hnot ⟨text, rfl, hfirst ▸ hlt⟩
      refine ⟨value, hvalue, ?_⟩
      simpa only [RelocFound, ne_eq, List.append_cancel_left_eq] using hfound
  · -- another string is in no entry
    refine iff_of_true ⟨uint32Max, if_pos hpre, Or.inr ⟨rfl, fun entry _ heq => hpre ?_⟩⟩ ?_
    · rw [heq, List.take_left]
    · rintro ⟨text, heq, -⟩
      rw [heq, List.take_left] at hpre
      exact hpre rfl

theorem relocGetRelocValue_right_call : (0 : UInt8) ∉ cstr "R_ARM_CALL"
    ∧ (RelocRight (cstr "R_ARM_CALL")
      ↔ ¬ ∃ text, cstr "R_ARM_CALL" = relocPrefix ++ text ∧ text < cstr "ABS12") :=
  ⟨by decide, relocGetRelocValue_right_iff (cstr "R_ARM_CALL") (by decide)⟩

/-- `R_ARM_` with no name behind it: the table is left. -/
theorem relocGetRelocValue_empty_name : (0 : UInt8) ∉ cstr "R_ARM_"
    ∧ ¬ RelocRight (cstr "R_ARM_") := by
  have hrun : relocGetRelocValue (cstr "R_ARM_") = none := by decide
  refine ⟨by decide, ?_⟩
  rintro ⟨value, hvalue, -⟩
  rw [hrun] at hvalue
  cases hvalue

end Asasm
