import Gccsdk.Lib.DoublyLinked

/-!
# The lists of the shared object manager

`link_list.c`. Each function gets the links of all nodes and the header of one list, and gives what it leaves
of both. On a list (`IsList`) they are what their names say: `linklistAddToEnd_isList`,
`linklistAddBefore_isList` and `linklistRemove_isList`, and they set no links but those of the list's nodes and
of the node they are given.
-/

namespace SOManager

open DoublyLinked

abbrev Addr := ℕ

abbrev LinkHdr := Link Addr

abbrev LinkList := Header Addr

def linklistInitList : LinkList := ⟨none, none, 0⟩

def linklistAddToEnd (hdr : Addr → LinkHdr) (list : LinkList) (link : Addr) :
    (Addr → LinkHdr) × LinkList :=
  let hdr := Function.update hdr link ⟨list.last, none⟩
  match list.last with
  | none => (hdr, ⟨some link, some link, list.count + 1⟩)
  | some oldlast =>
    (Function.update hdr oldlast { hdr oldlast with next := some link },
      { list with last := some link, count := list.count + 1 })

def linklistAddToFront (hdr : Addr → LinkHdr) (list : LinkList) (link : Addr) :
    (Addr → LinkHdr) × LinkList :=
  let hdr := Function.update hdr link ⟨none, list.first⟩
  match list.first with
  | none => (hdr, ⟨some link, some link, list.count + 1⟩)
  | some oldfirst =>
    (Function.update hdr oldfirst { hdr oldfirst with prev := some link },
      { list with first := some link, count := list.count + 1 })

def linklistAddBefore (hdr : Addr → LinkHdr) (list : LinkList) (at_ : Option Addr) (link : Addr) :
    (Addr → LinkHdr) × LinkList :=
  match at_ with
  | none => linklistAddToEnd hdr list link
  | some at_ =>
    match (hdr at_).prev with
    | none => linklistAddToFront hdr list link
    | some oldprev =>
      let hdr := Function.update hdr oldprev { hdr oldprev with next := some link }
      let hdr := Function.update hdr link { hdr link with prev := some oldprev }
      let hdr := Function.update hdr at_ { hdr at_ with prev := some link }
      (Function.update hdr link { hdr link with next := some at_ },
        { list with count := list.count + 1 })

def linklistRemove (hdr : Addr → LinkHdr) (list : LinkList) (link : Addr) :
    (Addr → LinkHdr) × LinkList :=
  let next := (hdr link).next
  let prev := (hdr link).prev
  let (hdr, list) := match next with
    | none => (hdr, { list with last := prev })
    | some next => (Function.update hdr next { hdr next with prev := prev }, list)
  let (hdr, list) := match prev with
    | none => (hdr, { list with first := next })
    | some prev => (Function.update hdr prev { hdr prev with next := next }, list)
  (Function.update hdr link ⟨none, none⟩, { list with count := list.count - 1 })

/-! ### What they do to a list -/

variable {hdr : Addr → LinkHdr} {list : LinkList} {l l₁ l₂ : List Addr} {a b : Addr}

theorem linklistAddToEnd_isList (h : IsList hdr list l) (ha : a ∉ l) :
    IsList (linklistAddToEnd hdr list a).1 (linklistAddToEnd hdr list a).2 (l ++ [a]) := by
  have hnew := h.update ha ⟨list.last, none⟩
  have hcount : list.count + 1 = ((l ++ [a]).length : ℤ) := by
    rw [h.count, List.length_append]
    rfl
  unfold linklistAddToEnd
  rcases List.eq_nil_or_concat l with rfl | ⟨l, b, rfl⟩
  · rw [h.last]
    exact ⟨rfl, rfl, hcount, Function.update_self _ _ _, trivial⟩
  · rw [List.concat_eq_append] at *
    have hlast : list.last = some b := by
      rw [h.last, List.getLast?_concat]
    have hb : b ∉ l := by
      have hnodup := h.nodup
      rw [List.nodup_append] at hnodup
      exact fun hmem => hnodup.2.2 b hmem b List.mem_cons_self rfl
    have hab : a ≠ b := by
      rintro rfl
      exact ha (List.mem_append_right l List.mem_cons_self)
    rw [hlast] at hnew ⊢
    refine ⟨?_, ?_, hcount, ?_⟩
    · change list.first = _
      rw [h.first]
      cases l <;> rfl
    · rw [List.getLast?_concat]
    · rw [seg_append]
      refine ⟨hnew.seg.setNext hb, ?_, trivial⟩
      change Function.update _ b _ a = _
      rw [Function.update_of_ne hab, Function.update_self, List.getLast?_concat]
      rfl

theorem linklistAddToEnd_frame (h : IsList hdr list l) (hb : b ∉ l) (hba : b ≠ a) :
    (linklistAddToEnd hdr list a).1 b = hdr b := by
  unfold linklistAddToEnd
  cases hlast : list.last with
  | none => exact Function.update_of_ne hba _ _
  | some oldlast =>
    have hne : b ≠ oldlast := by
      rintro rfl
      rw [h.last] at hlast
      exact hb (List.mem_of_getLast? hlast)
    dsimp only
    rw [Function.update_of_ne hne, Function.update_of_ne hba]

theorem linklistAddBefore_isList (h : IsList hdr list (l₁ ++ b :: l₂)) (ha : a ∉ l₁ ++ b :: l₂) :
    IsList (linklistAddBefore hdr list (some b) a).1 (linklistAddBefore hdr list (some b) a).2
      (l₁ ++ a :: b :: l₂) := by
  have hnodup := h.nodup
  rw [List.nodup_append, List.nodup_cons] at hnodup
  obtain ⟨-, ⟨hb₂, -⟩, hapart⟩ := hnodup
  have hlink := h.link_eq
  have hcount : list.count + 1 = ((l₁ ++ a :: b :: l₂).length : ℤ) := by
    rw [h.count]
    simp only [List.length_append, List.length_cons]
    omega
  have hlast : list.last = (l₁ ++ a :: b :: l₂).getLast? := by
    rw [h.last]
    simp [List.getLast?_append]
  rw [List.mem_append, List.mem_cons, not_or, not_or] at ha
  obtain ⟨ha₁, hab, ha₂⟩ := ha
  have hseg := seg_append.mp h.seg
  unfold linklistAddBefore
  dsimp only
  rw [hlink]
  rcases List.eq_nil_or_concat l₁ with rfl | ⟨l₁, c, rfl⟩
  · -- the new node is the first one
    have hfirst : list.first = some b := h.first
    dsimp only [List.getLast?_nil]
    unfold linklistAddToFront
    rw [hfirst]
    refine ⟨rfl, hlast, hcount, ?_, ?_⟩
    · change Function.update _ b _ a = _
      rw [Function.update_of_ne hab, Function.update_self]
      rfl
    · refine Seg.setPrev (h.seg.update ?_ _) hb₂
      rw [List.nil_append, List.mem_cons, not_or]
      exact ⟨hab, ha₂⟩
  · rw [List.concat_eq_append] at *
    rw [List.getLast?_concat] at *
    have hc : c ∉ l₁ := by
      have hnodup := h.nodup
      rw [List.append_assoc, List.nodup_append] at hnodup
      exact fun hmem => hnodup.2.2 c hmem c List.mem_cons_self rfl
    have hcl : ∀ d ∈ b :: l₂, c ≠ d := hapart c (List.mem_append_right l₁ List.mem_cons_self)
    have hb₁ : b ∉ l₁ ++ [c] := fun hmem => hapart b hmem b List.mem_cons_self rfl
    have hab₂ : a ∉ b :: l₂ := by
      rw [List.mem_cons, not_or]
      exact ⟨hab, ha₂⟩
    dsimp only
    refine ⟨?_, hlast, hcount, ?_⟩
    · change list.first = _
      rw [h.first]
      cases l₁ <;> rfl
    · rw [seg_append]
      refine ⟨?_, ?_, ?_⟩
      · -- the part before the new node: the link of its last one is set
        exact (((hseg.1.setNext hc).update ha₁ _).update hb₁ _).update ha₁ _
      · rw [Function.update_self, Function.update_of_ne hab, Function.update_self,
          List.getLast?_concat]
        rfl
      · -- the part behind it: the link of its first one is set
        refine Seg.update (Seg.setPrev (Seg.update (Seg.update hseg.2 ?_ _) hab₂ _) hb₂) hab₂ _
        exact fun hmem => hcl c hmem rfl

theorem linklistAddBefore_frame (h : IsList hdr list (l₁ ++ b :: l₂)) {d : Addr}
    (hd : d ∉ l₁ ++ b :: l₂) (hda : d ≠ a) :
    (linklistAddBefore hdr list (some b) a).1 d = hdr d := by
  have hdb : d ≠ b := by
    rintro rfl
    exact hd (List.mem_append_right l₁ List.mem_cons_self)
  unfold linklistAddBefore
  dsimp only
  rw [h.link_eq]
  rcases List.eq_nil_or_concat l₁ with rfl | ⟨l₁, c, rfl⟩
  · have hfirst : list.first = some b := h.first
    dsimp only [List.getLast?_nil]
    unfold linklistAddToFront
    rw [hfirst]
    dsimp only
    rw [Function.update_of_ne hdb, Function.update_of_ne hda]
  · rw [List.concat_eq_append, List.getLast?_concat]
    have hdc : d ≠ c := by
      rintro rfl
      refine hd (List.mem_append_left _ ?_)
      rw [List.concat_eq_append]
      exact List.mem_append_right l₁ List.mem_cons_self
    dsimp only
    rw [Function.update_of_ne hda, Function.update_of_ne hdb, Function.update_of_ne hda,
      Function.update_of_ne hdc]

theorem linklistRemove_isList (h : IsList hdr list (l₁ ++ a :: l₂)) :
    IsList (linklistRemove hdr list a).1 (linklistRemove hdr list a).2 (l₁ ++ l₂) := by
  have hnodup := h.nodup
  rw [List.nodup_append, List.nodup_cons] at hnodup
  obtain ⟨hnodup₁, ⟨ha₂, hnodup₂⟩, hapart⟩ := hnodup
  have ha₁ : a ∉ l₁ := fun hmem => hapart a hmem a List.mem_cons_self rfl
  have hapart₂ : ∀ b ∈ l₁, b ∉ l₂ := fun b hb hmem => hapart b hb b (List.mem_cons_of_mem a hmem) rfl
  have hcount : list.count - 1 = ((l₁ ++ l₂).length : ℤ) := by
    rw [h.count]
    simp only [List.length_append, List.length_cons]
    omega
  obtain ⟨hseg₁, -, hseg₂⟩ := seg_append.mp h.seg
  have hfirst : list.first = l₁.head?.or (some a) := by
    rw [h.first]
    cases l₁ <;> rfl
  have hlast : list.last = l₂.getLast?.or (some a) := by
    rw [h.last, List.getLast?_append, List.getLast?_cons]
    cases l₂.getLast? <;> rfl
  unfold linklistRemove
  rw [h.link_eq]
  cases l₂ with
  | nil =>
    rcases List.eq_nil_or_concat l₁ with rfl | ⟨l₁, c, rfl⟩
    · exact ⟨rfl, rfl, hcount, trivial⟩
    · rw [List.concat_eq_append] at *
      have hc : c ∉ l₁ := fun hmem => by
        rw [List.nodup_append] at hnodup₁
        exact hnodup₁.2.2 c hmem c List.mem_cons_self rfl
      rw [List.append_nil, List.getLast?_concat] at *
      refine ⟨?_, List.getLast?_concat.symm, hcount, (hseg₁.setNext hc).update ha₁ _⟩
      change list.first = _
      rw [hfirst]
      cases l₁ <;> rfl
  | cons d l₂ =>
    rw [List.nodup_cons] at hnodup₂
    have hdlast : list.last = (d :: l₂).getLast? := by
      rw [hlast, List.getLast?_cons]
      rfl
    rcases List.eq_nil_or_concat l₁ with rfl | ⟨l₁, c, rfl⟩
    · exact ⟨rfl, hdlast, hcount, (hseg₂.setPrev hnodup₂.1).update ha₂ _⟩
    · rw [List.concat_eq_append] at *
      have hc : c ∉ l₁ := fun hmem => by
        rw [List.nodup_append] at hnodup₁
        exact hnodup₁.2.2 c hmem c List.mem_cons_self rfl
      have hcl : c ∉ d :: l₂ := hapart₂ c (List.mem_append_right l₁ List.mem_cons_self)
      have hd : d ∉ l₁ ++ [c] := fun hmem => hapart₂ d hmem List.mem_cons_self
      rw [List.getLast?_concat] at *
      refine ⟨?_, ?_, hcount, ?_⟩
      · change list.first = _
        rw [hfirst]
        cases l₁ <;> rfl
      · change list.last = _
        rw [hdlast, List.getLast?_append, List.getLast?_cons]
        rfl
      · rw [seg_append, List.getLast?_concat]
        exact ⟨((hseg₁.update hd _).setNext hc).update ha₁ _,
          ((hseg₂.setPrev hnodup₂.1).update hcl _).update ha₂ _⟩

theorem linklistRemove_frame (h : IsList hdr list (l₁ ++ a :: l₂)) (hb : b ∉ l₁ ++ a :: l₂) :
    (linklistRemove hdr list a).1 b = hdr b := by
  have hne : ∀ c ∈ l₁ ++ a :: l₂, b ≠ c := by
    rintro c hc rfl
    exact hb hc
  have hba : b ≠ a := hne a (List.mem_append_right l₁ List.mem_cons_self)
  have hnext : ∀ c, l₂.head? = some c → b ≠ c := fun c hc =>
    hne c (List.mem_append_right l₁ (List.mem_cons_of_mem a (List.mem_of_mem_head? hc)))
  have hprev : ∀ c, l₁.getLast? = some c → b ≠ c := fun c hc =>
    hne c (List.mem_append_left _ (List.mem_of_getLast? hc))
  unfold linklistRemove
  rw [h.link_eq]
  dsimp only
  rw [Function.update_of_ne hba]
  cases hn : l₂.head? with
  | none =>
    cases hp : l₁.getLast? with
    | none => rfl
    | some c => exact Function.update_of_ne (hprev c hp) _ _
  | some d =>
    cases hp : l₁.getLast? with
    | none => exact Function.update_of_ne (hnext d hn) _ _
    | some c =>
      dsimp only
      rw [Function.update_of_ne (hprev c hp), Function.update_of_ne (hnext d hn)]

end SOManager
