import Gccsdk.Asasm.SymbolOut
import Gccsdk.Lib.CompareOn
import Mathlib.Data.List.GetD

/-!
# The order of the symbols in the output

`Symbol_CreateSymbolOut` sorts the local and the other symbols with `qsort`, and so relies on
`SymbolCompare` being a total preorder on them (`Serves`). For ELF it compares names with `strcasecmp`,
which is one on names without NUL bytes (`ordersOn_strcasecmp`). For AOF the mapping symbols come last, and
among themselves they are compared in one of two ways: by offset in the same area, by the name of their
area in different ones. The two ways fit together only under `MapsOrdered`.

* `ordersOn_strcasecmp`: the order of names.
* `symbolOrder_maps`: two mapping symbols are compared by groups, one for each area.
* `symbolCompare_serves_iff`: `SymbolCompare` serves the sort just if, for AOF, `MapsOrdered` holds.
-/

namespace Asasm

open CompareOn

variable {s t u : Name} {c d : UInt8} {heap : SymHeap} {ids : List SymId} {a b : SymId}

/-! ### `strcasecmp` -/

theorem strcasecmp_comm (s t : Name) : strcasecmp t s = -strcasecmp s t := by
  induction s, t using strcasecmp.induct with
  | case1 => rfl
  | case2 c s => rfl
  | case3 d t =>
    change ((tolower d).toNat : ℤ) = - -(tolower d).toNat
    omega
  | case4 c s d t heq ih =>
    rw [strcasecmp, if_pos heq.symm, strcasecmp, if_pos heq, ih]
  | case5 c s d t hne =>
    rw [strcasecmp, if_neg (Ne.symm hne), strcasecmp, if_neg hne]
    omega

theorem tolower_pos (hc : c ≠ 0) : 0 < (tolower c).toNat := by
  have hpos : c.toNat ≠ 0 := fun h => hc (UInt8.toNat_inj.mp h)
  unfold tolower
  split
  case isTrue h =>
    -- a capital letter, so the sum does not wrap
    have hle : c.toNat ≤ 0x5A := UInt8.le_iff_toNat_le.mp h.2
    rw [UInt8.toNat_add]
    change 0 < (c.toNat + 0x20) % 256
    omega
  case isFalse => omega

theorem strcasecmp_nil_right (hs : 0 ∉ s) (hle : strcasecmp s [] ≤ 0) : s = [] := by
  cases s with
  | nil => rfl
  | cons c s =>
    have hpos : 0 < (tolower c).toNat := tolower_pos fun h => hs (h ▸ List.mem_cons_self)
    change ((tolower c).toNat : ℤ) ≤ 0 at hle
    omega

theorem strcasecmp_nil_left (t : Name) : strcasecmp [] t ≤ 0 := by
  cases t with
  | nil => exact le_refl 0
  | cons d t =>
    change -((tolower d).toNat : ℤ) ≤ 0
    omega

theorem strcasecmp_cons_nonpos : strcasecmp (c :: s) (d :: t) ≤ 0 ↔
    (tolower c).toNat < (tolower d).toNat ∨ tolower c = tolower d ∧ strcasecmp s t ≤ 0 := by
  rw [strcasecmp]
  split
  case isTrue heq =>
    rw [heq]
    exact ⟨fun h => Or.inr ⟨rfl, h⟩, fun h => h.elim (fun hlt => absurd hlt (lt_irrefl _)) And.right⟩
  case isFalse hne =>
    have hne' : (tolower c).toNat ≠ (tolower d).toNat := fun h => hne (UInt8.toNat_inj.mp h)
    constructor
    · intro h
      exact Or.inl (by omega)
    · rintro (hlt | ⟨heq, -⟩)
      · omega
      · exact absurd heq hne

theorem strcasecmp_trans (hs : 0 ∉ s) (ht : 0 ∉ t) (hst : strcasecmp s t ≤ 0) (htu : strcasecmp t u ≤ 0) :
    strcasecmp s u ≤ 0 := by
  induction s generalizing t u with
  | nil => exact strcasecmp_nil_left u
  | cons c s ih =>
    cases t with
    | nil => exact absurd (strcasecmp_nil_right hs hst) (List.cons_ne_nil c s)
    | cons d t =>
      cases u with
      | nil => exact absurd (strcasecmp_nil_right ht htu) (List.cons_ne_nil d t)
      | cons e u =>
        rw [strcasecmp_cons_nonpos] at hst htu ⊢
        obtain hlt | ⟨heq, hst⟩ := hst
        · obtain hlt' | ⟨heq', -⟩ := htu
          · exact Or.inl (hlt.trans hlt')
          · exact Or.inl (heq' ▸ hlt)
        · obtain hlt' | ⟨heq', htu⟩ := htu
          · exact Or.inl (heq ▸ hlt')
          · exact Or.inr ⟨heq.trans heq', ih (fun h => hs (List.mem_cons_of_mem c h))
              (fun h => ht (List.mem_cons_of_mem d h)) hst htu⟩

/-- **`strcasecmp` orders names** that have no NUL bytes. -/
theorem ordersOn_strcasecmp {names : List Name} (hnames : ∀ s ∈ names, 0 ∉ s) :
    OrdersOn strcasecmp names where
  sign s _ t _ := by rw [strcasecmp_comm t s, Int.sign_neg]
  trans s hs t ht _ _ := strcasecmp_trans (hnames s hs) (hnames t ht)

/-! ### What the sort asks for -/

/-- The number `SymbolCompare` gives for two symbols, 0 where its assertion fails. -/
def symbolOrder (optionAof : Bool) (heap : SymHeap) (a b : SymId) : ℤ :=
  (symbolCompare optionAof heap (heap.sym a) (heap.sym b)).getD 0

/-- **`SymbolCompare` serves the sort** of the symbols: its assertion holds for any two of them, and it is
a total preorder. -/
structure Serves (optionAof : Bool) (heap : SymHeap) (ids : List SymId) : Prop where
  asserted : ∀ a ∈ ids, ∀ b ∈ ids, a ≠ b → (symbolCompare optionAof heap (heap.sym a) (heap.sym b)).isSome
  orders : OrdersOn (symbolOrder optionAof heap) ids

def Symbol.mapArea (sym : Symbol) : Option SymId :=
  match sym.value with
  | .symbol area _ _ => some area
  | _ => none

def Symbol.mapOffset (sym : Symbol) : BitVec 32 :=
  match sym.value with
  | .symbol _ _ offset => offset
  | _ => 0

def Symbol.InArea (sym : Symbol) : Prop := ∃ area offset, sym.value = .symbol area 1 offset

def areaName (heap : SymHeap) (area : Option SymId) : Name := area.elim [] fun id => (heap.sym id).str

def mapsOf (heap : SymHeap) (ids : List SymId) : List SymId := ids.filter fun id => (heap.sym id).isMapping

/-- **When the two ways of comparing mapping symbols fit together.** -/
structure MapsOrdered (heap : SymHeap) (ids : List SymId) : Prop where
  inArea : ∀ a ∈ mapsOf heap ids, ∀ b ∈ mapsOf heap ids, a ≠ b → (heap.sym a).InArea
  /-- The offsets in one area lie in one half of the 32-bit circle, so that their difference does not
  wrap. -/
  window : ∀ area, ((mapsOf heap ids).filter fun id => (heap.sym id).mapArea = area) = [] ∨
    InHalf (((mapsOf heap ids).filter fun id => (heap.sym id).mapArea = area).map fun id =>
      (heap.sym id).mapOffset)
  /-- An area whose name equals the one of another area but for case has its mapping symbols at one
  offset. -/
  apart : ∀ a ∈ mapsOf heap ids, ∀ b ∈ mapsOf heap ids, ∀ c ∈ mapsOf heap ids,
    (heap.sym a).mapArea = (heap.sym c).mapArea → (heap.sym a).mapArea ≠ (heap.sym b).mapArea →
    strcasecmp (areaName heap (heap.sym a).mapArea) (areaName heap (heap.sym b).mapArea) = 0 →
    (heap.sym a).mapOffset = (heap.sym c).mapOffset

/-! ### What is compared -/

theorem symbolCompare_names {optionAof : Bool}
    (h : optionAof = true → (heap.sym a).isMapping = false ∧ (heap.sym b).isMapping = false) :
    symbolCompare optionAof heap (heap.sym a) (heap.sym b) =
      some (strcasecmp (heap.sym a).str (heap.sym b).str) := by
  unfold symbolCompare
  rw [if_pos]
  cases optionAof with
  | false => rfl
  | true =>
    obtain ⟨ha, hb⟩ := h rfl
    rw [ha, hb]
    rfl

theorem symbolCompare_mapLast (ha : (heap.sym a).isMapping = false) (hb : (heap.sym b).isMapping = true) :
    symbolCompare true heap (heap.sym a) (heap.sym b) = some (-1) ∧
      symbolCompare true heap (heap.sym b) (heap.sym a) = some 1 := by
  unfold symbolCompare
  rw [ha, hb]
  exact ⟨rfl, rfl⟩

theorem inArea_of_isSome (ha : (heap.sym a).isMapping = true) (hb : (heap.sym b).isMapping = true)
    (h : (symbolCompare true heap (heap.sym a) (heap.sym b)).isSome) :
    (heap.sym a).InArea ∧ (heap.sym b).InArea := by
  unfold symbolCompare at h
  rw [ha, hb, if_neg (by decide), if_neg (by decide)] at h
  split at h
  case h_1 area1 factor1 offset1 area2 factor2 offset2 hval1 hval2 =>
    cases hassert : factor1 == 1 && factor2 == 1 with
    | false =>
      rw [hassert] at h
      exact absurd h Bool.false_ne_true
    | true =>
      rw [Bool.and_eq_true] at hassert
      obtain rfl : factor1 = 1 := eq_of_beq hassert.1
      obtain rfl : factor2 = 1 := eq_of_beq hassert.2
      exact ⟨⟨area1, offset1, hval1⟩, ⟨area2, offset2, hval2⟩⟩
  case h_2 => exact absurd h (by decide)

/-- The area of a mapping symbol, by which it is compared with those of other areas. -/
def mapGroup (heap : SymHeap) (id : SymId) : Option SymId := (heap.sym id).mapArea

def mapWithin (heap : SymHeap) (a b : SymId) : ℤ :=
  ((heap.sym a).mapOffset - (heap.sym b).mapOffset).toInt

def mapAcross (heap : SymHeap) (area1 area2 : Option SymId) : ℤ :=
  strcasecmp (areaName heap area1) (areaName heap area2)

/-- **Two mapping symbols** are compared by offset in one area, and by name of different areas. -/
theorem symbolCompare_inArea (ha : (heap.sym a).isMapping = true) (hb : (heap.sym b).isMapping = true)
    (hplaceA : (heap.sym a).InArea) (hplaceB : (heap.sym b).InArea) :
    symbolCompare true heap (heap.sym a) (heap.sym b) =
      some (byGroup (mapGroup heap) (mapWithin heap) (mapAcross heap) a b) := by
  obtain ⟨area1, offset1, hval1⟩ := hplaceA
  obtain ⟨area2, offset2, hval2⟩ := hplaceB
  unfold symbolCompare
  rw [ha, hb, if_neg (by decide), if_neg (by decide)]
  have hgroupA : mapGroup heap a = some area1 := by
    unfold mapGroup Symbol.mapArea
    rw [hval1]
  have hgroupB : mapGroup heap b = some area2 := by
    unfold mapGroup Symbol.mapArea
    rw [hval2]
  have hwithin : mapWithin heap a b = (offset1 - offset2).toInt := by
    unfold mapWithin Symbol.mapOffset
    rw [hval1, hval2]
  unfold byGroup
  rw [hgroupA, hgroupB, hwithin, hval1, hval2]
  change (if area1 ≠ area2 then _ else _) = _
  by_cases heq : area1 = area2
  · rw [if_neg (not_not.mpr heq), if_pos (congrArg some heq)]
  · rw [if_pos heq, if_neg fun h => heq (Option.some.inj h)]
    rfl

theorem symbolOrder_maps (ha : (heap.sym a).isMapping = true) (hb : (heap.sym b).isMapping = true)
    (hplace : a ≠ b → (heap.sym a).InArea ∧ (heap.sym b).InArea) :
    symbolOrder true heap a b = byGroup (mapGroup heap) (mapWithin heap) (mapAcross heap) a b := by
  unfold symbolOrder
  cases hcmp : symbolCompare true heap (heap.sym a) (heap.sym b) with
  | some order =>
    obtain ⟨hplaceA, hplaceB⟩ := inArea_of_isSome ha hb (hcmp ▸ rfl)
    rw [symbolCompare_inArea ha hb hplaceA hplaceB] at hcmp
    exact (Option.some.inj hcmp).symm
  | none =>
    -- the assertion fails, so it is one symbol that is no position
    have hab : a = b := by
      by_contra hne
      obtain ⟨hplaceA, hplaceB⟩ := hplace hne
      rw [symbolCompare_inArea ha hb hplaceA hplaceB] at hcmp
      cases hcmp
    subst hab
    unfold byGroup mapWithin
    rw [if_pos rfl, sub_self]
    rfl

/-! ### When it serves the sort -/

theorem mem_mapsOf : a ∈ mapsOf heap ids ↔ a ∈ ids ∧ (heap.sym a).isMapping = true := List.mem_filter

/-- **The mapping symbols are ordered** just if both ways of comparing them fit together. -/
theorem ordersOn_mapsOf_iff (hnames : ∀ id, 0 ∉ (heap.sym id).str)
    (hplace : ∀ a ∈ mapsOf heap ids, ∀ b ∈ mapsOf heap ids, a ≠ b → (heap.sym a).InArea) :
    OrdersOn (symbolOrder true heap) (mapsOf heap ids) ↔ MapsOrdered heap ids := by
  have heq : ∀ a ∈ mapsOf heap ids, ∀ b ∈ mapsOf heap ids,
      symbolOrder true heap a b = byGroup (mapGroup heap) (mapWithin heap) (mapAcross heap) a b :=
    fun a ha b hb => symbolOrder_maps (mem_mapsOf.mp ha).2 (mem_mapsOf.mp hb).2 fun hne =>
      ⟨hplace a ha b hb hne, hplace b hb a ha hne.symm⟩
  have hacross : OrdersOn (mapAcross heap) ((mapsOf heap ids).map (mapGroup heap)) := by
    refine (ordersOn_map strcasecmp (areaName heap)).mp (ordersOn_strcasecmp fun name hname => ?_)
    obtain ⟨area, -, rfl⟩ := List.mem_map.mp hname
    cases area with
    | none => exact List.not_mem_nil
    | some id => exact hnames id
  have hwithin : ∀ group,
      OrdersOn (mapWithin heap) ((mapsOf heap ids).filter fun id => mapGroup heap id = group) ↔
      ((mapsOf heap ids).filter fun id => mapGroup heap id = group) = [] ∨
        InHalf (((mapsOf heap ids).filter fun id => mapGroup heap id = group).map fun id =>
          (heap.sym id).mapOffset) := by
    intro group
    rw [← List.map_eq_nil_iff (f := fun id => (heap.sym id).mapOffset), ← ordersOn_difference_iff]
    exact (ordersOn_map (fun x y => (x - y).toInt) fun id => (heap.sym id).mapOffset).symm
  have hzero : ∀ a c, mapWithin heap a c = 0 ↔ (heap.sym a).mapOffset = (heap.sym c).mapOffset := by
    intro a c
    unfold mapWithin
    rw [← BitVec.toInt_zero, BitVec.toInt_inj]
    exact sub_eq_zero
  constructor
  · intro h
    obtain ⟨hgroups, hapart⟩ := (ordersOn_groups_iff hacross).mp
      (h.congr fun a ha b hb => (heq a ha b hb).symm)
    exact ⟨hplace, fun area => (hwithin area).mp (hgroups area), fun a ha b hb c hc hac hab hname =>
      (hzero a c).mp (hapart a ha b hb c hc hac hab hname)⟩
  · intro h
    have hgroups := (ordersOn_groups_iff hacross).mpr
      ⟨fun group => (hwithin group).mpr (h.window group), fun a ha b hb c hc hac hab hname =>
        (hzero a c).mpr (h.apart a ha b hb c hc hac hab hname)⟩
    exact hgroups.congr heq

theorem ordersOn_names {optionAof : Bool} (hnames : ∀ id, 0 ∉ (heap.sym id).str)
    (h : optionAof = true → ∀ a ∈ ids, (heap.sym a).isMapping = false) :
    OrdersOn (symbolOrder optionAof heap) ids := by
  have horder : OrdersOn strcasecmp (ids.map fun id => (heap.sym id).str) := by
    refine ordersOn_strcasecmp fun name hname => ?_
    obtain ⟨id, -, rfl⟩ := List.mem_map.mp hname
    exact hnames id
  refine ((ordersOn_map strcasecmp fun id => (heap.sym id).str).mp horder).congr fun a ha b hb => ?_
  unfold symbolOrder
  rw [symbolCompare_names fun haof => ⟨h haof a ha, h haof b hb⟩]
  rfl

/-- **`SymbolCompare` serves the sort** of any list of symbols for ELF, and for AOF just if the mapping
symbols among them are `MapsOrdered`. -/
theorem symbolCompare_serves_iff (optionAof : Bool) (heap : SymHeap) (ids : List SymId)
    (hnames : ∀ id, 0 ∉ (heap.sym id).str) :
    Serves optionAof heap ids ↔ (optionAof = true → MapsOrdered heap ids) := by
  cases optionAof with
  | false =>
    refine iff_of_true ⟨fun a _ b _ _ => ?_, ordersOn_names hnames nofun⟩ nofun
    rw [symbolCompare_names fun h => absurd h Bool.false_ne_true]
    rfl
  | true =>
    have hlast : ∀ a ∈ ids, ∀ b ∈ ids, (heap.sym a).isMapping = false → (heap.sym b).isMapping = true →
        symbolOrder true heap a b < 0 ∧ 0 < symbolOrder true heap b a := by
      intro a _ b _ ha hb
      obtain ⟨hab, hba⟩ := symbolCompare_mapLast ha hb
      unfold symbolOrder
      rw [hab, hba]
      decide
    have hsplit := ordersOn_split_iff hlast
    have hfirst : OrdersOn (symbolOrder true heap) (ids.filter fun id => !(heap.sym id).isMapping) :=
      ordersOn_names hnames fun _ a ha => Bool.not_eq_true' _ ▸ (List.mem_filter.mp ha).2
    constructor
    · intro h _
      have hplace : ∀ a ∈ mapsOf heap ids, ∀ b ∈ mapsOf heap ids, a ≠ b → (heap.sym a).InArea := by
        intro a ha b hb hne
        rw [mem_mapsOf] at ha hb
        exact (inArea_of_isSome ha.2 hb.2 (h.asserted a ha.1 b hb.1 hne)).1
      exact (ordersOn_mapsOf_iff hnames hplace).mp (hsplit.mp h.orders).2
    · intro h
      obtain hmaps := h rfl
      refine ⟨fun a ha b hb hne => ?_,
        hsplit.mpr ⟨hfirst, (ordersOn_mapsOf_iff hnames hmaps.inArea).mpr hmaps⟩⟩
      cases hmapA : (heap.sym a).isMapping <;> cases hmapB : (heap.sym b).isMapping
      · rw [symbolCompare_names fun _ => ⟨hmapA, hmapB⟩]
        rfl
      · rw [(symbolCompare_mapLast hmapA hmapB).1]
        rfl
      · rw [(symbolCompare_mapLast hmapB hmapA).2]
        rfl
      · have ha' : a ∈ mapsOf heap ids := mem_mapsOf.mpr ⟨ha, hmapA⟩
        have hb' : b ∈ mapsOf heap ids := mem_mapsOf.mpr ⟨hb, hmapB⟩
        rw [symbolCompare_inArea hmapA hmapB (hmaps.inArea a ha' b hb' hne)
          (hmaps.inArea b hb' a ha' hne.symm)]
        rfl

/-! ### Two areas whose names differ in case -/

/-- The areas `A` and `a`, with ARM code and then data in the one, and Thumb code in the other. -/
def caseAreas : SymHeap := SymHeap.ofList [
  { str := cstr "A", type := symbolArea, value := .int 0 .pureInt },
  { str := cstr "a", type := symbolArea, value := .int 0 .pureInt },
  { str := cstr "$a$$.A.00000000", type := symbolLocal, value := .symbol 0 1 0 },
  { str := cstr "$d$$.A.00000004", type := symbolLocal, value := .symbol 0 1 4 },
  { str := cstr "$t$$.a.00000000", type := symbolLocal, value := .symbol 1 1 0 }]

/-- The data is not after the Thumb code, which is not after the ARM code, but the data is after the ARM
code. -/
theorem symbolCompare_not_serves : ¬Serves true caseAreas [2, 3, 4] := by
  intro h
  have hdata : symbolOrder true caseAreas 3 2 ≤ 0 :=
    h.orders.trans 3 (by decide) 4 (by decide) 2 (by decide) (by decide) (by decide)
  exact absurd hdata (by decide)

theorem symbolCompare_serves_iff_caseAreas : (∀ id, 0 ∉ (caseAreas.sym id).str) ∧
    (Serves false caseAreas [2, 3, 4] ↔ (false = true → MapsOrdered caseAreas [2, 3, 4])) := by
  have hnames : ∀ id, 0 ∉ (caseAreas.sym id).str := by
    intro id
    have hlist : ∀ id < 5, 0 ∉ (caseAreas.sym id).str := by decide
    by_cases hid : id < 5
    · exact hlist id hid
    · rw [show caseAreas.sym id = {} from List.getD_eq_default _ _ (Nat.le_of_not_lt hid)]
      exact List.not_mem_nil
  exact ⟨hnames, symbolCompare_serves_iff false caseAreas [2, 3, 4] hnames⟩

end Asasm
