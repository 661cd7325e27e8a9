import Gccsdk.UnixLib.Mman

/-!
# The table of mappings

Runs of `mmap`, `munmap` and `mremap`, with any answers of the operating system (`MmapRun`). A mapping is live
as long as its area exists. `TableSound` and `CallSound` are what is expected of the table, and of a call that
searches it.

`mmapRun_sound`: both hold in runs whose calls are as `Kept` says. There `mremap` never changes a mapping in
place, for it does not write down the new length; where it moves one, no entry before that of the mapping is
spare, since the new mapping would go there and leave the old entry behind with its address; no call is for
the address 0, which all spare entries have; and the areas that go are deleted indeed. The invariant is
`MmapInv`.
-/

namespace UnixLib

inductive MmapCall
  | mmap (addr len prot flags offset : BitVec 32)
  | munmap (addr len : BitVec 32)
  | mremap (addr old_len new_len may_move : BitVec 32)

def MmapCall.run (os : Os) (s : Mman) : MmapCall → Mman × Except MmapErrno (BitVec 32)
  | .mmap addr len prot flags offset => UnixLib.mmap os s addr len prot flags offset
  | .munmap addr len => UnixLib.munmap os s addr len
  | .mremap addr old_len new_len may_move => UnixLib.mremap os s addr old_len new_len may_move

/-- The table before any call. -/
structure MmapInitial (s : Mman) : Prop where
  mmaps : s.mmaps = fun _ => IMMAP
  areas : s.areas = fun _ => none

/-- The states of the table in runs all of whose calls are as `P` says. -/
inductive MmapRun (P : Os → Mman → MmapCall → Prop) : Mman → Prop
  | initial {s} : MmapInitial s → MmapRun P s
  | call {s} (os : Os) (call : MmapCall) : MmapRun P s → P os s call → MmapRun P (call.run os s).1

/-! ### What is expected -/

/-- Every live mapping has exactly one entry, with its address, length and number. -/
def TableSound (s : Mman) : Prop :=
  ∀ n a, s.areas n = some a →
    (∃ i, (s.mmaps i).number = n ∧ (s.mmaps i).addr = a.base ∧ (s.mmaps i).len = a.size) ∧
      ∀ i j, (s.mmaps i).number = n → (s.mmaps j).number = n → i = j

def Mapped (s : Mman) (addr : BitVec 32) : Prop := ∃ n a, s.areas n = some a ∧ a.base = addr

def LookupSound (s : Mman) (addr : BitVec 32) : Prop :=
  (∀ i, s.lookup addr = some i → ∃ a, s.areas (s.mmaps i).number = some a ∧ a.base = addr) ∧
    (Mapped s addr → (s.lookup addr).isSome)

/-- **A call**: its search is right, `munmap` of what is not mapped is refused without deleting an area, and
`mremap` of a mapping with its current length is not. -/
def CallSound (os : Os) (s : Mman) : MmapCall → Prop
  | .mmap .. => True
  | .munmap addr len =>
    LookupSound s addr ∧ (¬Mapped s addr → UnixLib.munmap os s addr len = (s, .error .EINVAL))
  | .mremap addr old_len new_len may_move =>
    LookupSound s addr ∧
      ∀ n a, s.areas n = some a → a.base = addr →
        pageAlign s.pagesize old_len = pageAlign s.pagesize a.size →
        (UnixLib.mremap os s addr old_len new_len may_move).2 ≠ .error .EINVAL

def Kept (os : Os) (s : Mman) : MmapCall → Prop
  | .mmap .. => True
  | .munmap addr _ => addr ≠ 0 ∧ ∀ i, s.lookup addr = some i → os.delete s.areas (s.mmaps i).number = true
  | .mremap addr old_len new_len may_move =>
    addr ≠ 0 ∧ ∀ i, s.lookup addr = some i →
      pageAlign s.pagesize new_len ≠ pageAlign s.pagesize old_len →
      -- the mapping is not changed in place,
      osChange os s.areas (s.mmaps i).number
        (pageAlign s.pagesize new_len - pageAlign s.pagesize old_len) = none ∧
      -- and where it is moved, its entry is the first spare one, and its area is deleted
      ∀ flags limit number base, may_move &&& MREMAP_MAYMOVE ≠ 0 →
        ¬pageAlign s.pagesize new_len < pageAlign s.pagesize old_len →
        os.create s.areas (pageAlign s.pagesize new_len) flags limit = some (number, base) →
        (∀ j < i, (s.mmaps j).number ≠ -1) ∧
          os.delete (Function.update s.areas number (some ⟨base, pageAlign s.pagesize new_len⟩))
            (s.mmaps i).number = true

/-! ### The invariant -/

structure MmapInv (s : Mman) : Prop where
  /-- An entry in use is that of an area, -/
  entry : ∀ i, (s.mmaps i).number ≠ -1 →
    s.areas (s.mmaps i).number = some ⟨(s.mmaps i).addr, (s.mmaps i).len⟩
  /-- a spare one has the address 0, -/
  free : ∀ i, (s.mmaps i).number = -1 → (s.mmaps i).addr = 0
  /-- and all are for memory. -/
  fd : ∀ i, (s.mmaps i).fd = -1
  /-- An area has an entry, -/
  listed : ∀ n a, s.areas n = some a → ∃ i, (s.mmaps i).number = n
  /-- and only one. -/
  unique : ∀ i j, (s.mmaps i).number ≠ -1 → (s.mmaps i).number = (s.mmaps j).number → i = j
  number_ne : s.areas (-1) = none
  base_ne : ∀ n a, s.areas n = some a → a.base ≠ 0
  /-- Areas have addresses of their own, -/
  base_inj : ∀ n m a b, s.areas n = some a → s.areas m = some b → a.base = b.base → n = m
  /-- and whole pages. -/
  aligned : ∀ n a, s.areas n = some a → pageAlign s.pagesize a.size = a.size

theorem pageAlign_idem (pagesize len : BitVec 32) :
    pageAlign pagesize (pageAlign pagesize len) = pageAlign pagesize len := by
  unfold pageAlign
  generalize pagesize - 1 = m
  generalize len + m = y
  have hand : (y &&& ~~~m) &&& m = 0#32 := by
    rw [BitVec.and_assoc, BitVec.not_and_self]
    exact BitVec.and_zero
  rw [BitVec.add_eq_or_of_and_eq_zero _ _ hand]
  ext k hk
  simp only [BitVec.getElem_and, BitVec.getElem_or, BitVec.getElem_not]
  cases y[k] <;> cases m[k] <;> rfl

namespace MmapInv

variable {s : Mman} {i : Fin MAX_MMAPS}

theorem initial (h : MmapInitial s) : MmapInv s := by
  have hentry : ∀ i, s.mmaps i = IMMAP := fun i => by rw [h.mmaps]
  have hnone : ∀ n, s.areas n = none := fun n => by rw [h.areas]
  refine ⟨fun i hi => ?_, fun i _ => ?_, fun i => ?_, fun n a ha => ?_, fun i j hi => ?_, hnone _,
    fun n a ha => ?_, fun n m a b ha => ?_, fun n a ha => ?_⟩
  · rw [hentry i] at hi
    exact absurd rfl hi
  · rw [hentry i]
    rfl
  · rw [hentry i]
    rfl
  · rw [hnone n] at ha
    cases ha
  · rw [hentry i] at hi
    exact absurd rfl hi
  · rw [hnone n] at ha
    cases ha
  · rw [hnone n] at ha
    cases ha
  · rw [hnone n] at ha
    cases ha

theorem exists_entry (h : MmapInv s) {n : BitVec 32} {a : Area} (ha : s.areas n = some a) :
    ∃ i, (s.mmaps i).number = n ∧ (s.mmaps i).addr = a.base ∧ (s.mmaps i).len = a.size ∧ n ≠ -1 := by
  obtain ⟨i, hi⟩ := h.listed n a ha
  have hne : n ≠ -1 := by
    rintro rfl
    rw [h.number_ne] at ha
    cases ha
  have hentry := h.entry i (by rw [hi]; exact hne)
  rw [hi, ha] at hentry
  have harea := Option.some.inj hentry
  exact ⟨i, hi, by rw [harea], by rw [harea], hne⟩

theorem in_use (h : MmapInv s) (haddr : (s.mmaps i).addr ≠ 0) : (s.mmaps i).number ≠ -1 :=
  fun hi => haddr (h.free i hi)

theorem create (h : MmapInv s) {number base size : BitVec 32} (prot flags offset : BitVec 32)
    (hi : (s.mmaps i).number = -1)
    (hn : number ≠ -1) (hfree : s.areas number = none) (hbase : base ≠ 0)
    (hnew : ∀ n a, s.areas n = some a → a.base ≠ base) (hsize : pageAlign s.pagesize size = size) :
    MmapInv (s.newArea i number base size prot flags offset) := by
  have hne : ∀ n a, s.areas n = some a → n ≠ number := by
    rintro n a ha rfl
    rw [hfree] at ha
    cases ha
  have hother : ∀ j, (s.mmaps j).number ≠ -1 → (s.mmaps j).number ≠ number := fun j hj =>
    hne _ _ (h.entry j hj)
  refine ⟨fun j hj => ?_, fun j hj => ?_, fun j => ?_, fun n a ha => ?_, fun j k hj hjk => ?_, ?_,
    fun n a ha => ?_, fun n m a b ha hb hab => ?_, fun n a ha => ?_⟩
  · by_cases hji : j = i
    · subst hji
      change Function.update s.areas number _ (Function.update s.mmaps j _ j).number =
        some ⟨(Function.update s.mmaps j _ j).addr, (Function.update s.mmaps j _ j).len⟩
      rw [Function.update_self, Function.update_self]
    · change (Function.update s.mmaps i _ j).number ≠ -1 at hj
      change Function.update s.areas number _ (Function.update s.mmaps i _ j).number =
        some ⟨(Function.update s.mmaps i _ j).addr, (Function.update s.mmaps i _ j).len⟩
      rw [Function.update_of_ne hji] at hj ⊢
      rw [Function.update_of_ne (hother j hj)]
      exact h.entry j hj
  · change (Function.update s.mmaps i _ j).number = -1 at hj
    change (Function.update s.mmaps i _ j).addr = 0
    by_cases hji : j = i
    · rw [hji, Function.update_self] at hj
      exact absurd hj hn
    · rw [Function.update_of_ne hji] at hj ⊢
      exact h.free j hj
  · change (Function.update s.mmaps i _ j).fd = -1
    by_cases hji : j = i
    · rw [hji, Function.update_self]
    · rw [Function.update_of_ne hji]
      exact h.fd j
  · change Function.update s.areas number _ n = some a at ha
    by_cases hnn : n = number
    · refine ⟨i, ?_⟩
      change (Function.update s.mmaps i _ i).number = n
      rw [Function.update_self, hnn]
    · rw [Function.update_of_ne hnn] at ha
      obtain ⟨j, hj, -, -, hne⟩ := h.exists_entry ha
      refine ⟨j, ?_⟩
      have hji : j ≠ i := by
        rintro rfl
        exact hne (hj.symm.trans hi)
      change (Function.update s.mmaps i _ j).number = n
      rw [Function.update_of_ne hji]
      exact hj
  · change (Function.update s.mmaps i _ j).number ≠ -1 at hj
    change (Function.update s.mmaps i _ j).number = (Function.update s.mmaps i _ k).number at hjk
    by_cases hji : j = i
    · by_cases hki : k = i
      · exact hji.trans hki.symm
      · rw [hji, Function.update_self, Function.update_of_ne hki] at hjk
        dsimp only at hjk
        have hk : (s.mmaps k).number ≠ -1 := by
          rw [← hjk]
          exact hn
        exact absurd hjk.symm (hother k hk)
    · rw [Function.update_of_ne hji] at hj hjk
      by_cases hki : k = i
      · rw [hki, Function.update_self] at hjk
        exact absurd hjk (hother j hj)
      · rw [Function.update_of_ne hki] at hjk
        exact h.unique j k hj hjk
  · change Function.update s.areas number _ (-1) = none
    rw [Function.update_of_ne (Ne.symm hn)]
    exact h.number_ne
  · change Function.update s.areas number _ n = some a at ha
    by_cases hnn : n = number
    · rw [hnn, Function.update_self] at ha
      rw [← Option.some.inj ha]
      exact hbase
    · rw [Function.update_of_ne hnn] at ha
      exact h.base_ne n a ha
  · change Function.update s.areas number _ n = some a at ha
    change Function.update s.areas number _ m = some b at hb
    by_cases hnn : n = number
    · by_cases hmn : m = number
      · exact hnn.trans hmn.symm
      · rw [hnn, Function.update_self] at ha
        rw [Function.update_of_ne hmn] at hb
        rw [← Option.some.inj ha] at hab
        exact absurd hab.symm (hnew m b hb)
    · rw [Function.update_of_ne hnn] at ha
      by_cases hmn : m = number
      · rw [hmn, Function.update_self] at hb
        rw [← Option.some.inj hb] at hab
        exact absurd hab (hnew n a ha)
      · rw [Function.update_of_ne hmn] at hb
        exact h.base_inj n m a b ha hb hab
  · change Function.update s.areas number _ n = some a at ha
    by_cases hnn : n = number
    · rw [hnn, Function.update_self] at ha
      rw [← Option.some.inj ha]
      exact hsize
    · rw [Function.update_of_ne hnn] at ha
      exact h.aligned n a ha

theorem remove (h : MmapInv s) (info : MmapInfo) (hi : (s.mmaps i).number ≠ -1)
    (haddr : info.addr = 0) (hnumber : info.number = -1) (hfd : info.fd = -1) :
    MmapInv { s.setEntry i info with areas := Function.update s.areas (s.mmaps i).number none } := by
  have hold : ∀ n a, Function.update s.areas (s.mmaps i).number none n = some a →
      s.areas n = some a ∧ n ≠ (s.mmaps i).number := by
    intro n a ha
    by_cases hnn : n = (s.mmaps i).number
    · rw [hnn, Function.update_self] at ha
      cases ha
    · rw [Function.update_of_ne hnn] at ha
      exact ⟨ha, hnn⟩
  have hused : ∀ j, (Function.update s.mmaps i info j).number ≠ -1 → j ≠ i := by
    rintro j hj rfl
    rw [Function.update_self] at hj
    exact hj hnumber
  refine ⟨fun j hj => ?_, fun j hj => ?_, fun j => ?_, fun n a ha => ?_, fun j k hj hjk => ?_, ?_,
    fun n a ha => h.base_ne n a (hold n a ha).1,
    fun n m a b ha hb hab => h.base_inj n m a b (hold n a ha).1 (hold m b hb).1 hab,
    fun n a ha => h.aligned n a (hold n a ha).1⟩
  · have hji := hused j hj
    change (Function.update s.mmaps i _ j).number ≠ -1 at hj
    change Function.update s.areas _ none (Function.update s.mmaps i _ j).number =
      some ⟨(Function.update s.mmaps i _ j).addr, (Function.update s.mmaps i _ j).len⟩
    rw [Function.update_of_ne hji] at hj ⊢
    rw [Function.update_of_ne fun heq => hji (h.unique j i hj heq)]
    exact h.entry j hj
  · change (Function.update s.mmaps i _ j).number = -1 at hj
    change (Function.update s.mmaps i _ j).addr = 0
    by_cases hji : j = i
    · rw [hji, Function.update_self]
      exact haddr
    · rw [Function.update_of_ne hji] at hj ⊢
      exact h.free j hj
  · change (Function.update s.mmaps i _ j).fd = -1
    by_cases hji : j = i
    · rw [hji, Function.update_self]
      exact hfd
    · rw [Function.update_of_ne hji]
      exact h.fd j
  · obtain ⟨hold, hne⟩ := hold n a ha
    obtain ⟨j, hj⟩ := h.listed n a hold
    refine ⟨j, ?_⟩
    have hji : j ≠ i := by
      rintro rfl
      exact hne hj.symm
    change (Function.update s.mmaps i _ j).number = n
    rw [Function.update_of_ne hji]
    exact hj
  · have hji := hused j hj
    have hki : k ≠ i := hused k (by
      change (Function.update s.mmaps i info k).number ≠ -1
      change (Function.update s.mmaps i info j).number = (Function.update s.mmaps i info k).number
        at hjk
      rw [← hjk]
      exact hj)
    change (Function.update s.mmaps i _ j).number ≠ -1 at hj
    change (Function.update s.mmaps i _ j).number = (Function.update s.mmaps i _ k).number at hjk
    rw [Function.update_of_ne hji] at hj hjk
    rw [Function.update_of_ne hki] at hjk
    exact h.unique j k hj hjk
  · change Function.update s.areas _ none (-1) = none
    rw [Function.update_of_ne (Ne.symm hi)]
    exact h.number_ne

end MmapInv

/-! ### What the calls do -/

section Calls

variable {s : Mman} {os : Os} {i : Fin MAX_MMAPS} {addr len prot flags offset : BitVec 32}

theorem spare_number (h : s.spare = some i) : (s.mmaps i).number = -1 :=
  of_decide_eq_true (Fin.find?_eq_some_iff.mp h).1

theorem lookup_addr (h : s.lookup addr = some i) : (s.mmaps i).addr = addr :=
  of_decide_eq_true (Fin.find?_eq_some_iff.mp h).1

/-- **`mmap`** fails and leaves everything as it is, or it makes an area, in a spare entry. -/
theorem mmap_cases (os : Os) (s : Mman) (addr len prot flags offset : BitVec 32) :
    (∃ errno, mmap os s addr len prot flags offset = (s, .error errno)) ∨
      ∃ i number base, s.spare = some i ∧
        os.create s.areas (pageAlign s.pagesize len) (areaFlags prot) (pageAlign s.pagesize len * 3) =
          some (number, base) ∧
        mmap os s addr len prot flags offset =
          (s.newArea i number base (pageAlign s.pagesize len) prot flags offset, .ok base) := by
  unfold mmap
  split
  · exact Or.inl ⟨_, rfl⟩
  · split
    · exact Or.inl ⟨_, rfl⟩
    · rename_i i hi
      dsimp only
      split
      · exact Or.inl ⟨_, rfl⟩
      · split
        · exact Or.inl ⟨_, rfl⟩
        · rename_i number base hcreate
          exact Or.inr ⟨i, number, base, hi, hcreate, rfl⟩

/-- Without an address and an offset `EINVAL` is none of its errors. -/
theorem mmap_ne_EINVAL : (mmap os s 0 len prot flags 0).2 ≠ .error .EINVAL := by
  unfold mmap
  split
  · rename_i errno hcheck
    unfold mmapCheck at hcheck
    have hzero : ¬(0 : BitVec 32) &&& (s.pagesize - 1) ≠ 0 := not_not.mpr BitVec.zero_and
    rw [if_neg hzero] at hcheck
    intro heq
    cases heq
    split at hcheck
    · cases hcheck
    · split at hcheck
      · cases hcheck
      · split at hcheck <;> cases hcheck
  · split
    · nofun
    · dsimp only
      rw [if_neg (not_not.mpr rfl)]
      split <;> nofun

theorem keepOld_giveUp (haddr : (s.mmaps i).addr = addr) :
    (s.giveUp i).keepOld i addr (s.mmaps i).number = s := by
  have hentry : ({ (s.giveUp i).mmaps i with addr := addr, number := (s.mmaps i).number } : MmapInfo) =
      s.mmaps i := by
    change ({ (Function.update s.mmaps i _ i : MmapInfo) with
      addr := addr, number := (s.mmaps i).number } : MmapInfo) = _
    rw [Function.update_self, ← haddr]
  unfold Mman.keepOld
  rw [hentry]
  unfold Mman.giveUp Mman.setEntry
  dsimp only
  rw [Function.update_idem, Function.update_eq_self]

/-- **Moving a mapping**: it is left as it is, or it gets a new area. -/
theorem mremapMove_cases (os : Os) (s : Mman) {addr : BitVec 32} (new_len : BitVec 32)
    (haddr : (s.mmaps i).addr = addr) :
    (∃ errno, errno ≠ .EINVAL ∧ mremapMove os s i addr new_len = (s, .error errno)) ∨
      ∃ j number base prot flags, (s.giveUp i).spare = some j ∧
        os.create s.areas (pageAlign s.pagesize new_len) (areaFlags prot)
          (pageAlign s.pagesize new_len * 3) = some (number, base) ∧
        mremapMove os s i addr new_len =
          (((s.giveUp i).newArea j number base (pageAlign s.pagesize new_len) prot flags 0).deleteOld os
            (s.mmaps i).number, .ok base) := by
  unfold mremapMove
  dsimp only
  rcases mmap_cases os (s.giveUp i) 0 new_len (s.mmaps i).prot (s.mmaps i).flags 0 with
    ⟨errno, hmmap⟩ | ⟨j, number, base, hspare, hcreate, hmmap⟩
  · refine Or.inl ⟨errno, ?_, ?_⟩
    · rintro rfl
      exact mmap_ne_EINVAL (congrArg Prod.snd hmmap)
    · -- the entry is as it was
      rw [hmmap]
      change ((s.giveUp i).keepOld i addr (s.mmaps i).number, _) = _
      rw [keepOld_giveUp haddr]
  · refine Or.inr ⟨j, number, base, _, (s.mmaps i).flags, hspare, hcreate, ?_⟩
    rw [hmmap]
    rfl

end Calls

/-! ### The calls keep the invariant -/

namespace MmapInv

variable {s : Mman} {os : Os} {i : Fin MAX_MMAPS} {addr len old_len new_len may_move : BitVec 32}

/-- The entry that a search finds is that of a live mapping, -/
theorem lookup_live (h : MmapInv s) (haddr : addr ≠ 0) (hi : s.lookup addr = some i) :
    (s.mmaps i).number ≠ -1 ∧ s.areas (s.mmaps i).number = some ⟨addr, (s.mmaps i).len⟩ := by
  have haddr' := lookup_addr hi
  have hused : (s.mmaps i).number ≠ -1 := h.in_use (by rw [haddr']; exact haddr)
  have hentry := h.entry i hused
  rw [haddr'] at hentry
  exact ⟨hused, hentry⟩

theorem lookup_isSome (h : MmapInv s) (hmapped : Mapped s addr) : (s.lookup addr).isSome := by
  obtain ⟨n, a, ha, rfl⟩ := hmapped
  obtain ⟨i, -, hi, -⟩ := h.exists_entry ha
  exact Fin.isSome_find?_iff.mpr ⟨i, decide_eq_true hi⟩

theorem lookupSound (h : MmapInv s) (haddr : addr ≠ 0) : LookupSound s addr :=
  ⟨fun _ hi => ⟨_, (h.lookup_live haddr hi).2, rfl⟩, h.lookup_isSome⟩

theorem tableSound (h : MmapInv s) : TableSound s := by
  intro n a ha
  obtain ⟨i, hi, haddr, hlen, hne⟩ := h.exists_entry ha
  refine ⟨⟨i, hi, haddr, hlen⟩, fun j k hj hk => h.unique j k ?_ (hj.trans hk.symm)⟩
  rw [hj]
  exact hne

/-- **`mmap`.** -/
theorem mmap (h : MmapInv s) (os : Os) (addr len prot flags offset : BitVec 32) :
    MmapInv (UnixLib.mmap os s addr len prot flags offset).1 := by
  rcases mmap_cases os s addr len prot flags offset with
    ⟨errno, hmmap⟩ | ⟨i, number, base, hspare, hcreate, hmmap⟩
  · rw [hmmap]
    exact h
  · rw [hmmap]
    obtain ⟨hn, hfree, hbase, hnew⟩ := os.create_new hcreate
    exact h.create _ _ _ (spare_number hspare) hn hfree hbase hnew (pageAlign_idem _ _)

/-- **`munmap`**, where the area is deleted indeed. -/
theorem munmap (h : MmapInv s) (hkept : Kept os s (.munmap addr len)) :
    MmapInv (UnixLib.munmap os s addr len).1 := by
  obtain ⟨haddr, hdelete⟩ := hkept
  unfold UnixLib.munmap
  split
  · exact h
  · rename_i i hi
    obtain ⟨hused, harea⟩ := h.lookup_live haddr hi
    have hosDelete : osDelete os s.areas (s.mmaps i).number =
        some (Function.update s.areas (s.mmaps i).number none) := by
      unfold osDelete
      rw [harea]
      exact if_pos (hdelete i hi)
    rw [hosDelete]
    exact h.remove _ hused rfl rfl (h.fd i)

theorem mremapMove (h : MmapInv s) (haddr : addr ≠ 0) (hi : s.lookup addr = some i)
    (hmove : ∀ flags limit number base,
      os.create s.areas (pageAlign s.pagesize new_len) flags limit = some (number, base) →
      (∀ j < i, (s.mmaps j).number ≠ -1) ∧
        os.delete (Function.update s.areas number (some ⟨base, pageAlign s.pagesize new_len⟩))
          (s.mmaps i).number = true) :
    MmapInv (UnixLib.mremapMove os s i addr new_len).1 := by
  obtain ⟨hused, harea⟩ := h.lookup_live haddr hi
  rcases mremapMove_cases os s new_len (lookup_addr hi) with
    ⟨errno, -, hres⟩ | ⟨j, number, base, prot, flags, hspare, hcreate, hres⟩
  · rw [hres]
    exact h
  · obtain ⟨hbefore, hdelete⟩ := hmove _ _ _ _ hcreate
    obtain ⟨hn, hfree, hbase, hnew⟩ := os.create_new hcreate
    have hne : (s.mmaps i).number ≠ number := by
      intro heq
      rw [heq, hfree] at harea
      cases harea
    -- the entry before the moving one is in use, so the new area gets that of the old one
    obtain rfl : j = i := by
      obtain ⟨hj, hfirst⟩ := Fin.find?_eq_some_iff.mp hspare
      rcases lt_trichotomy j i with hlt | heq | hlt
      · have hjn := of_decide_eq_true hj
        change (Function.update s.mmaps i _ j).number = -1 at hjn
        rw [Function.update_of_ne hlt.ne] at hjn
        exact absurd hjn (hbefore j hlt)
      · exact heq
      · have hin := of_decide_eq_false (hfirst i hlt)
        change (Function.update s.mmaps i _ i).number ≠ -1 at hin
        rw [Function.update_self] at hin
        exact absurd rfl hin
    -- deleting the old area first comes to the same
    have hgone := h.remove { s.mmaps j with addr := 0, number := -1 } hused rfl rfl (h.fd j)
    have hold : ∀ n a, Function.update s.areas (s.mmaps j).number none n = some a →
        s.areas n = some a := by
      intro n a ha
      by_cases hnn : n = (s.mmaps j).number
      · rw [hnn, Function.update_self] at ha
        cases ha
      · rw [Function.update_of_ne hnn] at ha
        exact ha
    have hspare' : (Function.update s.mmaps j { s.mmaps j with addr := 0, number := -1 } j).number =
        -1 := by
      rw [Function.update_self]
    have hfree' : Function.update s.areas (s.mmaps j).number none number = none := by
      rw [Function.update_of_ne (Ne.symm hne)]
      exact hfree
    have hcreated := hgone.create prot flags 0 hspare' hn hfree' hbase
      (fun n a ha => hnew n a (hold n a ha)) (pageAlign_idem s.pagesize new_len)
    have hsame : (((s.giveUp j).newArea j number base (pageAlign s.pagesize new_len) prot flags
        0).deleteOld os (s.mmaps j).number) = Mman.newArea
          { s.setEntry j { s.mmaps j with addr := 0, number := -1 } with
            areas := Function.update s.areas (s.mmaps j).number none }
          j number base (pageAlign s.pagesize new_len) prot flags 0 := by
      have hosDelete : osDelete os
          (Function.update s.areas number (some ⟨base, pageAlign s.pagesize new_len⟩))
          (s.mmaps j).number = some (Function.update
            (Function.update s.areas number (some ⟨base, pageAlign s.pagesize new_len⟩))
            (s.mmaps j).number none) := by
        unfold osDelete
        rw [Function.update_of_ne hne, harea]
        exact if_pos hdelete
      refine (Mman.deleteOld_of_some hosDelete).trans ?_
      unfold Mman.newArea Mman.giveUp Mman.setEntry
      dsimp only
      rw [Function.update_idem, Function.update_idem, Function.update_comm hne]
    rw [hres, hsame]
    exact hcreated

/-- **`mremap`**, where it changes nothing in place. -/
theorem mremap (h : MmapInv s) (hkept : Kept os s (.mremap addr old_len new_len may_move)) :
    MmapInv (UnixLib.mremap os s addr old_len new_len may_move).1 := by
  obtain ⟨haddr, hkept⟩ := hkept
  unfold UnixLib.mremap
  split
  · exact h
  · rename_i i hi
    rw [if_neg (not_not.mpr (h.fd i))]
    dsimp only
    split
    · exact h
    · split
      · exact h
      · rename_i hsize
        have hne : pageAlign s.pagesize new_len ≠ pageAlign s.pagesize old_len := fun heq =>
          hsize (by rw [heq]; exact BitVec.sub_self _)
        obtain ⟨hchange, hmove⟩ := hkept i hi hne
        rw [hchange]
        dsimp only
        split
        · exact h
        · rename_i hgrows
          split
          · exact h
          · rename_i hmay
            refine h.mremapMove haddr hi fun flags limit number base hcreate => ?_
            rw [pageAlign_idem] at hcreate ⊢
            exact hmove flags limit number base hmay hgrows hcreate

/-- `mremap` of a mapping with its current length is not refused as such. -/
theorem mremap_ne_EINVAL (h : MmapInv s) {n : BitVec 32} {a : Area} (ha : s.areas n = some a)
    (hbase : a.base = addr)
    (hlen : pageAlign s.pagesize old_len = pageAlign s.pagesize a.size) :
    (UnixLib.mremap os s addr old_len new_len may_move).2 ≠ .error .EINVAL := by
  have haddr : addr ≠ 0 := by
    rw [← hbase]
    exact h.base_ne n a ha
  obtain ⟨i, hi⟩ := Option.isSome_iff_exists.mp (h.lookup_isSome ⟨n, a, ha, hbase⟩)
  obtain ⟨-, harea⟩ := h.lookup_live haddr hi
  -- the entry found is that of the mapping
  obtain rfl := h.base_inj _ _ _ _ ha harea hbase
  rw [ha] at harea
  have hsize : pageAlign s.pagesize old_len = (s.mmaps i).len := by
    rw [hlen, h.aligned _ a ha, Option.some.inj harea]
  unfold UnixLib.mremap
  rw [hi]
  dsimp only
  rw [if_neg (not_not.mpr (h.fd i)), if_neg (not_not.mpr hsize)]
  split
  · nofun
  · split
    · nofun
    · split
      · nofun
      · split
        · nofun
        · rcases mremapMove_cases os s (pageAlign s.pagesize new_len) (lookup_addr hi) with
            ⟨errno, hne, hres⟩ | ⟨j, number, base, prot, flags, -, -, hres⟩
          · rw [hres]
            intro heq
            cases heq
            exact hne rfl
          · rw [hres]
            nofun

theorem callSound (h : MmapInv s) {call : MmapCall} (hkept : Kept os s call) :
    CallSound os s call := by
  cases call with
  | mmap => trivial
  | munmap addr len =>
    refine ⟨h.lookupSound hkept.1, fun hnot => ?_⟩
    unfold UnixLib.munmap
    cases hi : s.lookup addr with
    | none => rfl
    | some i => exact absurd ⟨_, _, (h.lookup_live hkept.1 hi).2, rfl⟩ hnot
  | mremap addr old_len new_len may_move =>
    exact ⟨h.lookupSound hkept.1, fun n a ha hbase hlen => h.mremap_ne_EINVAL ha hbase hlen⟩

theorem call (h : MmapInv s) {call : MmapCall} (hkept : Kept os s call) :
    MmapInv (call.run os s).1 := by
  cases call with
  | mmap addr len prot flags offset => exact h.mmap os addr len prot flags offset
  | munmap addr len => exact h.munmap hkept
  | mremap addr old_len new_len may_move => exact h.mremap hkept

theorem run (h : MmapRun Kept s) : MmapInv s := by
  induction h with
  | initial h => exact initial h
  | call os call _ hkept ih => exact ih.call hkept

end MmapInv

/-- **The table of mappings**, in runs whose calls keep it: every live mapping has its entry, and every call
that keeps it again is right. -/
theorem mmapRun_sound {s : Mman} (h : MmapRun Kept s) :
    TableSound s ∧ ∀ os call, Kept os s call → CallSound os s call ∧ TableSound (call.run os s).1 := by
  have hinv := MmapInv.run h
  exact ⟨hinv.tableSound, fun os call hkept => ⟨hinv.callSound hkept, (hinv.call hkept).tableSound⟩⟩

/-! ### One mapping -/

def mmapStart : Mman := ⟨fun _ => IMMAP, fun _ => none, 4096⟩

/-- An operating system with one address for areas, which changes them in place or not. -/
def oneArea (inPlace : Bool) : Os where
  create areas _ _ _ :=
    if areas 1 = none ∧ ∀ n, ((areas n).all fun a => a.base ≠ 0x10000) = true then some (1, 0x10000)
    else none
  change _ _ _ := inPlace
  delete _ _ := true
  create_new := by
    intro areas size flags limit number base h
    split at h
    · rename_i hfree
      obtain ⟨rfl, rfl⟩ := Prod.mk.inj (Option.some.inj h)
      refine ⟨by decide, hfree.1, by decide, fun n a ha => ?_⟩
      have hall := hfree.2 n
      rw [ha] at hall
      exact of_decide_eq_true hall
    · cases h

def onePage : MmapCall := .mmap 0 4096 6 0 0

theorem mmapRun_sound_onePage :
    TableSound (onePage.run (oneArea false) mmapStart).1 ∧
      CallSound (oneArea false) (onePage.run (oneArea false) mmapStart).1 (.munmap 0x10000 4096) := by
  have hrun : MmapRun Kept (onePage.run (oneArea false) mmapStart).1 :=
    .call _ _ (.initial ⟨rfl, rfl⟩) trivial
  have hkept : Kept (oneArea false) (onePage.run (oneArea false) mmapStart).1 (.munmap 0x10000 4096) :=
    ⟨by decide, fun _ _ => rfl⟩
  obtain ⟨htable, hcalls⟩ := mmapRun_sound hrun
  exact ⟨htable, (hcalls _ _ hkept).1⟩

theorem mremap_stale_len :
    ¬∀ s, MmapRun (fun _ _ _ => True) s → TableSound s ∧ ∀ os call, CallSound os s call := by
  intro hall
  have hmapped : (onePage.run (oneArea true) mmapStart).1 =
      mmapStart.newArea 0 1 0x10000 4096 6 0 0 := by
    have hfree : mmapStart.areas 1 = none ∧
        ∀ n, ((mmapStart.areas n).all fun a => a.base ≠ 0x10000) = true := ⟨rfl, fun _ => rfl⟩
    have hcheck : mmapCheck mmapStart.pagesize 0 6 0 = none := by decide
    have hspare : mmapStart.spare = some 0 := by decide
    have hpage : pageAlign mmapStart.pagesize 4096 = 4096 := by decide
    have hcreate : ∀ flags limit,
        (oneArea true).create mmapStart.areas 4096 flags limit = some (1, 0x10000) := by
      intro flags limit
      dsimp only [oneArea]
      rw [if_pos hfree]
    unfold onePage MmapCall.run UnixLib.mmap
    dsimp only
    rw [hcheck, hspare, hpage]
    dsimp only
    rw [if_neg (not_not.mpr rfl), hcreate]
  have henlarged : (MmapCall.run (oneArea true) (mmapStart.newArea 0 1 0x10000 4096 6 0 0)
      (.mremap 0x10000 4096 8192 0)).1.areas 1 = some ⟨0x10000, 8192⟩ := by decide
  have hlen : ∀ i, ((MmapCall.run (oneArea true) (mmapStart.newArea 0 1 0x10000 4096 6 0 0)
      (.mremap 0x10000 4096 8192 0)).1.mmaps i).len ≠ 8192 := by decide
  have hrun : MmapRun (fun _ _ _ => True) (onePage.run (oneArea true) mmapStart).1 :=
    .call _ _ (.initial ⟨rfl, rfl⟩) trivial
  rw [hmapped] at hrun
  obtain ⟨⟨i, -, -, hi⟩, -⟩ :=
    (hall _ (.call (oneArea true) (.mremap 0x10000 4096 8192 0) hrun trivial)).1 1 _ henlarged
  exact hlen i hi

end UnixLib
