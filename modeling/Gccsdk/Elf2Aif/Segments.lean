import Gccsdk.Elf2Aif.Convert
import Mathlib.Data.List.Sort
import Mathlib.Order.Interval.Set.Basic
import Mathlib.Order.Interval.Set.Disjoint
import Mathlib.Algebra.GroupWithZero.Nat
import Mathlib.Order.CompletePartialOrder

/-!
# The list of segments

`e2a_readphdr` is to accept the loadable program headers exactly when they are sound (`SegmentsSound`), and to
list them by address (`ReadsSegments`). A header is compared only with the first one loaded before it that is
not below, and the comparison asks for a gap. So an overlap is missed where the header that comes later begins
inside the range of a lower one, or where its end wraps; and a header that ends where an earlier one begins is
refused though the ranges do not overlap.

`readsSegments_iff`: it does what it should exactly where neither happens, for every table of program headers
(`OrderOk`). What `e2a_readphdr` does with a table is `readPhdrs_eq` and `loadPhentries_isSome`.
-/

namespace Elf2Aif

def Phdr.range (ph : Phdr) : Set ℕ :=
  Set.Ico ph.p_paddr.toNat (ph.p_paddr.toNat + ph.p_memsz.toNat)

def Phdr.Fine (ph : Phdr) : Prop := ph.p_vaddr = ph.p_paddr ∧ ph.p_filesz ≤ ph.p_memsz

def Phdr.NoWrap (ph : Phdr) : Prop := ph.p_paddr.toNat + ph.p_memsz.toNat ≤ 2 ^ 32

/-- **Sound headers**: each is fine, and the ranges do not wrap or overlap. -/
structure SegmentsSound (hs : List Phdr) : Prop where
  fine : ∀ ph ∈ hs, ph.Fine
  noWrap : ∀ ph ∈ hs, ph.NoWrap
  disjoint : hs.Pairwise fun e l => Disjoint e.range l.range

/-- What is expected of the list that is built from the headers. -/
structure ReadsSegments (hs : List Phdr) (result : Option (List Phdr)) : Prop where
  accepts : result.isSome = true ↔ SegmentsSound hs
  perm : ∀ list, result = some list → list.Perm hs
  sorted : ∀ list, result = some list → list.Pairwise fun p q => p.p_paddr ≤ q.p_paddr

/-! ### What the code does -/

/-- The check of a header, `l`, against one that was loaded before it. -/
def Checked (e l : Phdr) : Prop := l.p_paddr ≤ e.p_paddr → l.p_paddr + l.p_memsz < e.p_paddr

def loadPhentries : List Phdr → List Phdr → Option (List Phdr)
  | list, [] => some list
  | list, ph :: rest =>
    match e2aLoadphentry true ph list with
    | .error _ => none
    | .ok list' => loadPhentries list' rest

variable {list list' hs : List Phdr} {ph : Phdr}

abbrev ByAddress (list : List Phdr) : Prop := list.Pairwise fun p q => p.p_paddr ≤ q.p_paddr

theorem insertPhdr_eq_some (hsorted : ByAddress list) :
    (insertPhdr ph list).isSome = true ↔ ∀ e ∈ list, Checked e ph := by
  induction list with
  | nil => exact ⟨fun _ => nofun, fun _ => rfl⟩
  | cons next rest ih =>
    obtain ⟨hnext, hrest⟩ := List.pairwise_cons.mp hsorted
    unfold insertPhdr
    by_cases hle : ph.p_paddr ≤ next.p_paddr
    · rw [if_pos hle]
      by_cases hover : next.p_paddr ≤ ph.p_paddr + ph.p_memsz
      · rw [if_pos hover]
        refine ⟨nofun, fun hall => ?_⟩
        exact absurd (hall next List.mem_cons_self hle) (BitVec.not_lt.mpr hover)
      · rw [if_neg hover]
        refine ⟨fun _ e he hlow => ?_, fun _ => rfl⟩
        rcases List.mem_cons.mp he with rfl | he
        · exact BitVec.not_le.mp hover
        · exact BitVec.lt_def.mpr (Nat.lt_of_lt_of_le (BitVec.lt_def.mp (BitVec.not_le.mp hover))
            (BitVec.le_def.mp (hnext e he)))
    · rw [if_neg hle, Option.isSome_map, ih hrest]
      refine ⟨fun hall e he => ?_, fun hall e he => hall e (List.mem_cons_of_mem _ he)⟩
      rcases List.mem_cons.mp he with rfl | he
      · exact fun hlow => absurd hlow hle
      · exact hall e he

theorem insertPhdr_perm (h : insertPhdr ph list = some list') : list'.Perm (ph :: list) := by
  induction list generalizing list' with
  | nil =>
    cases h
    exact List.Perm.refl _
  | cons next rest ih =>
    unfold insertPhdr at h
    split at h
    · split at h
      · cases h
      · cases h
        exact List.Perm.refl _
    · obtain ⟨rest', hrest, rfl⟩ := Option.map_eq_some_iff.mp h
      exact ((ih hrest).cons next).trans (List.Perm.swap ph next rest)

theorem insertPhdr_sorted (hsorted : ByAddress list) (h : insertPhdr ph list = some list') :
    ByAddress list' := by
  induction list generalizing list' with
  | nil =>
    cases h
    exact List.pairwise_singleton _ _
  | cons next rest ih =>
    obtain ⟨hnext, hrest⟩ := List.pairwise_cons.mp hsorted
    unfold insertPhdr at h
    by_cases hle : ph.p_paddr ≤ next.p_paddr
    · rw [if_pos hle] at h
      split at h
      · cases h
      · cases h
        refine List.pairwise_cons.mpr ⟨fun e he => ?_, hsorted⟩
        rcases List.mem_cons.mp he with rfl | he
        · exact hle
        · exact BitVec.le_trans hle (hnext e he)
    · rw [if_neg hle] at h
      obtain ⟨rest', hinsert, rfl⟩ := Option.map_eq_some_iff.mp h
      refine List.pairwise_cons.mpr ⟨fun e he => ?_, ih hrest hinsert⟩
      rcases List.mem_cons.mp ((insertPhdr_perm hinsert).mem_iff.mp he) with rfl | he
      · exact BitVec.le_of_lt (BitVec.not_le.mp hle)
      · exact hnext e he

theorem e2aLoadphentry_eq_ok (malloc : Bool) (ph : Phdr) (list : List Phdr) :
    e2aLoadphentry malloc ph list = .ok list' ↔
      ph.Fine ∧ insertPhdr ph list = some list' ∧ malloc = true := by
  unfold e2aLoadphentry Phdr.Fine
  by_cases haddr : ph.p_vaddr = ph.p_paddr
  · rw [if_neg (not_not.mpr haddr)]
    by_cases hsize : ph.p_memsz < ph.p_filesz
    · rw [if_pos hsize]
      exact ⟨nofun, fun h => absurd h.1.2 (BitVec.not_le.mpr hsize)⟩
    · rw [if_neg hsize]
      cases insertPhdr ph list with
      | none => exact ⟨nofun, nofun⟩
      | some inserted =>
        cases malloc with
        | true =>
          refine ⟨fun h => ?_, fun h => ?_⟩
          · cases h
            exact ⟨⟨haddr, BitVec.not_lt.mp hsize⟩, rfl, rfl⟩
          · obtain rfl := Option.some.inj h.2.1
            rfl
        | false => exact ⟨nofun, nofun⟩
  · rw [if_pos haddr]
    exact ⟨nofun, fun h => absurd h.1.1 haddr⟩

/-- **What is accepted**: fine headers, each of them checked against those before it. -/
theorem loadPhentries_isSome (hsorted : ByAddress list) :
    (loadPhentries list hs).isSome = true ↔
      (∀ ph ∈ hs, ph.Fine) ∧ (∀ e ∈ list, ∀ l ∈ hs, Checked e l) ∧ hs.Pairwise Checked := by
  induction hs generalizing list with
  | nil => exact ⟨fun _ => ⟨nofun, fun _ _ => nofun, List.Pairwise.nil⟩, fun _ => rfl⟩
  | cons ph rest ih =>
    unfold loadPhentries
    have hload := fun l => @e2aLoadphentry_eq_ok l true ph list
    rcases hcall : e2aLoadphentry true ph list with stop | inserted
    · rw [hcall] at hload
      refine ⟨nofun, fun ⟨hfine, hlist, _⟩ => ?_⟩
      -- what is checked would be inserted
      have hsome := (insertPhdr_eq_some hsorted).mpr fun e he => hlist e he ph List.mem_cons_self
      obtain ⟨l, hl⟩ := Option.isSome_iff_exists.mp hsome
      cases (hload l).mpr ⟨hfine ph List.mem_cons_self, hl, rfl⟩
    · obtain ⟨hfine, hinsert, -⟩ := (hload inserted).mp hcall
      have hchecked := (insertPhdr_eq_some hsorted).mp (Option.isSome_of_eq_some hinsert)
      dsimp only
      rw [ih (insertPhdr_sorted hsorted hinsert)]
      constructor
      · intro ⟨hrest, hlist, hpairs⟩
        refine ⟨fun l hl => ?_, fun e he l hl => ?_, List.pairwise_cons.mpr ⟨fun l hl => ?_, hpairs⟩⟩
        · rcases List.mem_cons.mp hl with rfl | hl
          · exact hfine
          · exact hrest l hl
        · rcases List.mem_cons.mp hl with rfl | hl
          · exact hchecked e he
          · exact hlist e ((insertPhdr_perm hinsert).mem_iff.mpr (List.mem_cons_of_mem _ he)) l hl
        · exact hlist ph ((insertPhdr_perm hinsert).mem_iff.mpr List.mem_cons_self) l hl
      · intro ⟨hrest, hlist, hpairs⟩
        obtain ⟨hph, hpairs⟩ := List.pairwise_cons.mp hpairs
        refine ⟨fun l hl => hrest l (List.mem_cons_of_mem _ hl), fun e he l hl => ?_, hpairs⟩
        rcases List.mem_cons.mp ((insertPhdr_perm hinsert).mem_iff.mp he) with rfl | he
        · exact hph l hl
        · exact hlist e he l (List.mem_cons_of_mem _ hl)

theorem loadPhentries_spec (hsorted : ByAddress list) (h : loadPhentries list hs = some list') :
    list'.Perm (hs ++ list) ∧ ByAddress list' := by
  induction hs generalizing list with
  | nil =>
    cases h
    exact ⟨List.Perm.refl _, hsorted⟩
  | cons ph rest ih =>
    unfold loadPhentries at h
    rcases hcall : e2aLoadphentry true ph list with stop | inserted
    · rw [hcall] at h
      cases h
    · rw [hcall] at h
      obtain ⟨-, hinsert, -⟩ := (e2aLoadphentry_eq_ok true ph list).mp hcall
      obtain ⟨hperm, hlast⟩ := ih (insertPhdr_sorted hsorted hinsert) h
      refine ⟨hperm.trans ?_, hlast⟩
      exact ((insertPhdr_perm hinsert).append_left rest).trans List.perm_middle

/-! ### When it does what it should -/

/-- The later header, `l`, ends where the earlier one begins, or reaches an empty one. -/
def Touches (e l : Phdr) : Prop :=
  l.p_paddr ≤ e.p_paddr ∧ e.p_paddr.toNat ≤ l.p_paddr.toNat + l.p_memsz.toNat ∧
    l.p_paddr.toNat + l.p_memsz.toNat < 2 ^ 32

def BeginsInside (e l : Phdr) : Prop :=
  e.p_paddr < l.p_paddr ∧ l.p_paddr.toNat < e.p_paddr.toNat + e.p_memsz.toNat ∧ l.p_memsz ≠ 0

/-- It goes over the earlier one up to the top of the address space, where its end is 0. -/
def ReachesTop (e l : Phdr) : Prop :=
  l.p_paddr ≤ e.p_paddr ∧ l.p_paddr.toNat + l.p_memsz.toNat = 2 ^ 32 ∧ e.p_memsz ≠ 0

/-- The order of the headers is one that the check can cope with. -/
structure OrderOk (hs : List Phdr) : Prop where
  /-- Sound headers do not touch where they would be refused, -/
  noTouch : SegmentsSound hs → hs.Pairwise fun e l => ¬Touches e l
  /-- and where nothing is refused no range wraps, and no overlap is of a kind that is missed. -/
  noMiss : (∀ ph ∈ hs, ph.Fine) → hs.Pairwise Checked →
    (∀ ph ∈ hs, ph.NoWrap) ∧ hs.Pairwise fun e l => ¬BeginsInside e l ∧ ¬ReachesTop e l

theorem disjoint_range_iff (p q : Phdr) :
    Disjoint p.range q.range ↔
      min (p.p_paddr.toNat + p.p_memsz.toNat) (q.p_paddr.toNat + q.p_memsz.toNat) ≤
        max p.p_paddr.toNat q.p_paddr.toNat :=
  Set.Ico_disjoint_Ico

theorem memsz_ne_zero_iff (ph : Phdr) : ph.p_memsz ≠ 0 ↔ ph.p_memsz.toNat ≠ 0 :=
  not_congr ⟨fun h => congrArg BitVec.toNat h, fun h => BitVec.eq_of_toNat_eq h⟩

theorem checked_iff_of_disjoint {e l : Phdr} (hwrap : l.NoWrap) (hdisjoint : Disjoint e.range l.range) :
    Checked e l ↔ ¬Touches e l := by
  rw [disjoint_range_iff] at hdisjoint
  unfold Checked Touches
  unfold Phdr.NoWrap at hwrap
  rw [BitVec.le_def, BitVec.lt_def, BitVec.toNat_add]
  have he := e.p_paddr.isLt
  have hl := l.p_memsz.isLt
  by_cases htop : l.p_paddr.toNat + l.p_memsz.toNat = 2 ^ 32
  · -- the end comes out as 0
    rw [htop, Nat.mod_self]
    omega
  · rw [Nat.mod_eq_of_lt (by omega)]
    omega

theorem disjoint_iff_of_checked {e l : Phdr} (hwrap : l.NoWrap) (hchecked : Checked e l) :
    Disjoint e.range l.range ↔ ¬BeginsInside e l ∧ ¬ReachesTop e l := by
  rw [disjoint_range_iff]
  unfold BeginsInside ReachesTop
  unfold Checked at hchecked
  unfold Phdr.NoWrap at hwrap
  rw [BitVec.le_def, BitVec.lt_def, BitVec.toNat_add] at hchecked
  rw [memsz_ne_zero_iff, memsz_ne_zero_iff, BitVec.le_def, BitVec.lt_def]
  have he := e.p_paddr.isLt
  by_cases htop : l.p_paddr.toNat + l.p_memsz.toNat = 2 ^ 32
  · rw [htop, Nat.mod_self] at hchecked
    omega
  · rw [Nat.mod_eq_of_lt (by omega)] at hchecked
    omega

/-- **The list of segments** is what it should be exactly where the order of the headers is fine. -/
theorem loadPhentries_readsSegments_iff (hs : List Phdr) :
    ReadsSegments hs (loadPhentries [] hs) ↔ OrderOk hs := by
  have hsome : (loadPhentries [] hs).isSome = true ↔
      (∀ ph ∈ hs, ph.Fine) ∧ hs.Pairwise Checked := by
    rw [loadPhentries_isSome List.Pairwise.nil]
    exact ⟨fun h => ⟨h.1, h.2.2⟩, fun h => ⟨h.1, fun _ => nofun, h.2⟩⟩
  constructor
  · intro ⟨haccepts, _, _⟩
    rw [hsome] at haccepts
    refine ⟨fun hsound => ?_, fun hfine hchecked => ?_⟩
    · refine ((haccepts.mpr hsound).2.and hsound.disjoint).imp_of_mem ?_
      intro e l _ hl ⟨hchecked, hdisjoint⟩
      exact (checked_iff_of_disjoint (hsound.noWrap l hl) hdisjoint).mp hchecked
    · have hsound := haccepts.mp ⟨hfine, hchecked⟩
      refine ⟨hsound.noWrap, (hchecked.and hsound.disjoint).imp_of_mem ?_⟩
      intro e l _ hl ⟨hcheck, hdisjoint⟩
      exact (disjoint_iff_of_checked (hsound.noWrap l hl) hcheck).mp hdisjoint
  · intro hok
    refine ⟨?_, fun list hlist => ?_, fun list hlist => (loadPhentries_spec List.Pairwise.nil hlist).2⟩
    · rw [hsome]
      constructor
      · intro ⟨hfine, hchecked⟩
        obtain ⟨hwrap, hkinds⟩ := hok.noMiss hfine hchecked
        refine ⟨hfine, hwrap, (hchecked.and hkinds).imp_of_mem ?_⟩
        intro e l _ hl ⟨hcheck, hkind⟩
        exact (disjoint_iff_of_checked (hwrap l hl) hcheck).mpr hkind
      · intro hsound
        refine ⟨hsound.fine, (hsound.disjoint.and (hok.noTouch hsound)).imp_of_mem ?_⟩
        intro e l _ hl ⟨hdisjoint, htouch⟩
        exact (checked_iff_of_disjoint (hsound.noWrap l hl) hdisjoint).mpr htouch
    · have hperm := (loadPhentries_spec List.Pairwise.nil hlist).1
      rwa [List.append_nil] at hperm

/-! ### The table in the file -/

/-- The program headers that are read from pass `i` on, from an offset; none is for dynamic linking. -/
inductive TableReads (o : Outcomes) (file : Bytes) (size : BitVec 32) :
    ℕ → BitVec 32 → List Phdr → Prop
  | nil (i : ℕ) (offset : BitVec 32) : TableReads o file size i offset []
  | cons {i : ℕ} {offset : BitVec 32} {bytes : Bytes} {rest : List Phdr} : o.readPhdr i = true →
    o.mallocPhdr i = true → readAt file offset.toNat sizeofPhdr = some bytes →
    (Phdr.ofBytes bytes).p_type ≠ PT_DYNAMIC → TableReads o file size (i + 1) (offset + size) rest →
    TableReads o file size i offset (Phdr.ofBytes bytes :: rest)

structure HasTable (o : Outcomes) (file : Bytes) (ehdr : Ehdr) (table : List Phdr) : Prop where
  offset_ne : ehdr.e_phoff ≠ 0
  table_ne : table ≠ []
  length : ehdr.e_phnum.toNat = table.length
  size_le : sizeofPhdr ≤ ehdr.e_phentsize.toNat
  reads : TableReads o file ehdr.e_phentsize 0 ehdr.e_phoff table

def loadable (table : List Phdr) : List Phdr := table.filter fun ph => ph.p_type = PT_LOAD

variable {o : Outcomes} {file : Bytes} {ehdr : Ehdr} {table : List Phdr}

theorem readPhdrs_eq {size offset : BitVec 32} {i : ℕ} (h : TableReads o file size i offset table)
    (list : List Phdr) :
    (readPhdrs o file size table.length i offset list).toOption =
      loadPhentries list (loadable table) := by
  induction h generalizing list with
  | nil => rfl
  | @cons i offset bytes rest hread hmalloc hbytes hdynamic _ ih =>
    unfold loadable at ih ⊢
    rw [List.length_cons, readPhdrs, if_pos hread, hbytes]
    dsimp only
    by_cases hload : (Phdr.ofBytes bytes).p_type = PT_LOAD
    · rw [if_pos hload, hmalloc, List.filter_cons, if_pos (decide_eq_true hload), loadPhentries]
      cases e2aLoadphentry true (Phdr.ofBytes bytes) list with
      | error stop => rfl
      | ok inserted => exact ih inserted
    · rw [if_neg hload, if_neg hdynamic, List.filter_cons,
        if_neg (fun hdec => hload (of_decide_eq_true hdec))]
      exact ih list

theorem e2aReadphdr_eq (h : HasTable o file ehdr table) :
    (e2aReadphdr o file ehdr).toOption = loadPhentries [] (loadable table) := by
  have hnum : ehdr.e_phnum ≠ 0 := by
    intro hzero
    have hlength := h.length
    rw [hzero] at hlength
    exact h.table_ne (List.length_eq_zero_iff.mp hlength.symm)
  unfold e2aReadphdr
  rw [if_neg (not_or.mpr ⟨h.offset_ne, hnum⟩), if_neg (not_lt.mpr h.size_le), h.length]
  exact readPhdrs_eq h.reads []

/-- **Reading the program headers.** For every table the loadable headers are accepted if and only if they are
sound, and listed by address, exactly where their order is one that the check can cope with. -/
theorem readsSegments_iff (h : HasTable o file ehdr table) :
    ReadsSegments (loadable table) (e2aReadphdr o file ehdr).toOption ↔ OrderOk (loadable table) := by
  rw [e2aReadphdr_eq h]
  exact loadPhentries_readsSegments_iff (loadable table)

/-! ### Two segments -/

def emptySegment (addr memsz : BitVec 32) : Phdr := ⟨PT_LOAD, 0, addr, addr, 0, memsz, 0⟩

def emptySegmentBytes (addr memsz : BitVec 32) : Bytes :=
  [PT_LOAD, 0, addr, addr, 0, memsz, 0, 4].flatMap wrLong

def twoSegments (addr₁ memsz₁ addr₂ memsz₂ : BitVec 32) : Bytes :=
  0 :: emptySegmentBytes addr₁ memsz₁ ++ emptySegmentBytes addr₂ memsz₂

def twoSegmentsEhdr : Ehdr := ⟨[], 0, 0, 0, 0, 1, 0, 32, 2⟩

theorem hasTable_twoSegments {addr₁ memsz₁ addr₂ memsz₂ : BitVec 32}
    (h₁ : Phdr.ofBytes (emptySegmentBytes addr₁ memsz₁) = emptySegment addr₁ memsz₁)
    (h₂ : Phdr.ofBytes (emptySegmentBytes addr₂ memsz₂) = emptySegment addr₂ memsz₂) :
    HasTable allOk (twoSegments addr₁ memsz₁ addr₂ memsz₂) twoSegmentsEhdr
      [emptySegment addr₁ memsz₁, emptySegment addr₂ memsz₂] := by
  refine ⟨by decide, by simp, rfl, by decide, ?_⟩
  rw [← h₁, ← h₂]
  refine .cons rfl rfl rfl ?_ (.cons rfl rfl rfl ?_ (.nil _ _))
  · rw [h₁]
    exact (by decide : PT_LOAD ≠ PT_DYNAMIC)
  · rw [h₂]
    exact (by decide : PT_LOAD ≠ PT_DYNAMIC)

theorem readsSegments_iff_gap :
    ReadsSegments (loadable [emptySegment 0x9000 0x1000, emptySegment 0x8000 0x800])
      (e2aReadphdr allOk (twoSegments 0x9000 0x1000 0x8000 0x800) twoSegmentsEhdr).toOption ↔
    OrderOk (loadable [emptySegment 0x9000 0x1000, emptySegment 0x8000 0x800]) :=
  readsSegments_iff (hasTable_twoSegments (by decide) (by decide))

theorem e2aReadphdr_overlap :
    ¬∀ o file ehdr table, HasTable o file ehdr table →
      ReadsSegments (loadable table) (e2aReadphdr o file ehdr).toOption := by
  intro hall
  have hreads := hall _ _ _ _ (@hasTable_twoSegments 0x8000 0x2000 0x9000 0x1000 (by decide) (by decide))
  have hsound := hreads.accepts.mp (by decide)
  have hdisjoint := List.rel_of_pairwise_cons hsound.disjoint List.mem_cons_self
  rw [disjoint_range_iff] at hdisjoint
  exact absurd hdisjoint (by decide)

end Elf2Aif
