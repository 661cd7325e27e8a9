import Gccsdk.Asasm.AofStrings

/-!
# AOF: reading undoes writing

`AofJob.listing` is what a file is about, in terms of the areas, symbols and relocations it is written from.
`decode_outputAOF`: decaof reads it from the file that `Output_AOF` writes.
-/

namespace Asasm

open TokenReader (Reads)
open Decaof (AreaListing SymbolListing SymbolPlace RelocListing Listing)
open StringTable (IsNameAt)

/-! ### What is to be found -/

def wordsOf : List UInt8 → List (BitVec 32)
  | b0 :: b1 :: b2 :: b3 :: rest => (b3.toBitVec ++ b2.toBitVec ++ b1.toBitVec ++ b0.toBitVec) :: wordsOf rest
  | _ => []

namespace AofJob
variable (job : AofJob)

/-- The data of an area, with the zeros that make its length a multiple of 4. -/
def contents (id : SymId) : List UInt8 :=
  if (job.table.sym id).area.isNoInit then []
  else job.image id ++
    List.replicate (fix4 (job.table.sym id).area.maxIdx - (job.table.sym id).area.maxIdx).toNat 0

/-- **A relocation**: its offset, its kind, and the name of the symbol or area it was made against. The lowest bits of
its flags are the index of the symbol or the number of the area. -/
def relocListing (ids : List SymId) (reloc : RelocInt) : RelocListing :=
  match reloc.symP with
  | none => .unknown
  | some s =>
    let isArea := (job.table.sym s).isArea
    let sid := BitVec.ofNat 32 (if isArea then job.written.idxOf s else ids.idxOf s)
    let flags := reloc.how ||| sid ||| if isArea then 0 else how2Symbol
    .type2 reloc.offset flags (Decaof.fieldType2 reloc.how) (Decaof.relocHow reloc.how) (!isArea)
      (some (job.table.sym s).writtenName)

/-- **An area**: its name, attributes and size, its contents and its relocations. -/
def areaListing (ids : List SymId) (id : SymId) : AreaListing :=
  let ap := job.table.sym id
  { name := some ap.str
    flags := ap.area.type &&& areaIntAofMask
    size := fix4 ap.area.maxIdx
    numrelocs := BitVec.ofNat 32 ap.area.reloc.length
    baseaddr := ap.baseAddr.getD 0
    contents := wordsOf (job.contents id)
    relocs := ap.area.reloc.map (job.relocListing ids) }

def place (flags value : BitVec 32) (area : Option Name) : SymbolPlace :=
  if flags &&& Decaof.symbolDefinedOrCommon = 0 then .nowhere
  else if flags &&& Decaof.symbolAbsoluteOrCommon ≠ 0 then .value value
  else .inArea area value

def areaName (a : SymId) : Option Name :=
  if (job.table.sym a).isImplicit then none else some (job.table.sym a).str

def symbolFlags (sym : Symbol) : BitVec 32 :=
  let type := sym.type &&& 0x3F7F
  if job.options.exportAllSymbols && !sym.isMapping
  then applyDefaultSymbolType job.options (type ||| symbolExport) else type

/-- **A symbol**: its name, kind, value and area. -/
def symbolListing (id : SymId) : SymbolListing :=
  let sym := job.table.sym id
  if sym.isArea then
    let flags := symbolLocal ||| (sym.type &&& symbolAbsolute)
    { name := some sym.str, flags, place := place flags (sym.baseAddr.getD 0) (some sym.str) }
  else if isSet sym.type symbolDefined then
    let flags := job.symbolFlags sym
    match definedSymbolValue job.table.heap sym with
    | some (.inr (v, relToAreaSym)) =>
      { name := some sym.writtenName, flags, place := place flags v (relToAreaSym.bind job.areaName) }
    | _ => { name := none, flags, place := .nowhere }
  else
    let flags := (sym.type ||| symbolReference) &&& 0x3F7F
    let v := match isSet sym.type symbolCommon, sym.value with
      | true, .int i _ => i
      | _, _ => 0
    { name := some sym.writtenName, flags, place := place flags v none }

/-- **What is in the file**, with its symbols in the order `ids`. -/
def listing (ids : List SymId) : Listing where
  filetype := aofHeaderID
  version := 310
  ident := some ((job.idfn ++ 0 :: job.behindIdfn).take (fixSize (job.idfn.length + 1)))
  areas := job.written.map (job.areaListing ids)
  symbols := ids.map job.symbolListing

/-- **The data of every area, and its relocations, begin below 4 GiB** and are shorter than that, if they are there:
for areas that are written from a position on. -/
def below : ℕ → List SymId → Prop
  | _, [] => True
  | pos, id :: ids =>
    let area := (job.table.sym id).area
    let relocs := pos + area.paddedLength
    (0 < area.paddedLength → pos < 2 ^ 32 ∧ area.paddedLength < 2 ^ 32) ∧
      (0 < area.reloc.length → relocs < 2 ^ 32 ∧ area.reloc.length < 2 ^ 32) ∧
      below (relocs + area.rawRelocSize) ids

end AofJob

/-! ### Words -/

private theorem wordBytes_append (b0 b1 b2 b3 : UInt8) :
    wordBytes (b3.toBitVec ++ b2.toBitVec ++ b1.toBitVec ++ b0.toBitVec) = [b0, b1, b2, b3] := by
  have hbyte (x : BitVec 32) (b : UInt8) (i : ℕ) (h : x.toNat / 2 ^ (8 * i) % 256 = b.toNat) :
      (⟨x.extractLsb' (8 * i) 8⟩ : UInt8) = b := by
    apply UInt8.toNat_inj.mp
    change (x.extractLsb' (8 * i) 8).toNat = b.toNat
    rw [BitVec.extractLsb'_toNat, Nat.shiftRight_eq_div_pow]
    exact h
  have h0 := b0.toNat_lt
  have h1 := b1.toNat_lt
  have h2 := b2.toNat_lt
  have h3 := b3.toNat_lt
  have hx : (b3.toBitVec ++ b2.toBitVec ++ b1.toBitVec ++ b0.toBitVec).toNat =
      b0.toNat + 2 ^ 8 * b1.toNat + 2 ^ 16 * b2.toNat + 2 ^ 24 * b3.toNat := by
    simp only [BitVec.toNat_append, UInt8.toNat_toBitVec]
    rw [← Nat.shiftLeft_add_eq_or_of_lt h2, ← Nat.shiftLeft_add_eq_or_of_lt h1, ← Nat.shiftLeft_add_eq_or_of_lt h0]
    simp only [Nat.shiftLeft_eq]
    omega
  unfold wordBytes
  simp only [List.map_cons, List.map_nil]
  rw [hbyte _ b0 0 (by rw [hx]; omega), hbyte _ b1 1 (by rw [hx]; omega), hbyte _ b2 2 (by rw [hx]; omega),
    hbyte _ b3 3 (by rw [hx]; omega)]

theorem reads_wordsOf {bytes : List UInt8} (h : bytes.length % 4 = 0) :
    Reads (TokenReader.times Decaof.readWord (bytes.length / 4)) bytes (wordsOf bytes) := by
  have hwords : (wordsOf bytes).flatMap wordBytes = bytes ∧ (wordsOf bytes).length = bytes.length / 4 := by
    fun_induction wordsOf bytes with
    | case1 b0 b1 b2 b3 rest ih =>
      simp only [List.length_cons] at h
      obtain ⟨hbytes, hlen⟩ := ih (by omega)
      refine ⟨?_, ?_⟩
      · rw [List.flatMap_cons, hbytes, wordBytes_append]
        rfl
      · simp only [List.length_cons, hlen]
        omega
    | case2 bytes hshort =>
      match bytes, hshort with
      | [], _ => exact ⟨rfl, rfl⟩
      | [_], _ => simp at h
      | [_, _], _ => simp at h
      | [_, _, _], _ => simp at h
      | b0 :: b1 :: b2 :: b3 :: rest, hshort => exact absurd rfl (hshort b0 b1 b2 b3 rest)
  have hreads : ∀ w ∈ wordsOf bytes, Reads Decaof.readWord (wordBytes w) (id w) := fun w _ => reads_wordBytes w
  have htimes := Reads.times hreads
  rwa [hwords.1, hwords.2, List.map_id] at htimes

/-! ### The header -/

private theorem flatten_of_mapM {α β : Type} {f : α → Option (List β)} {xs : List α} {ys : List (List β)}
    (h : xs.mapM f = some ys) :
    ys.flatten = (xs.flatMap fun x => (f x).getD []) ∧ ∀ x ∈ xs, ∃ y, f x = some y := by
  have hall := forall₂_of_mapM_eq_some h
  clear h
  induction hall with
  | nil => exact ⟨rfl, fun x hx => nomatch hx⟩
  | cons hxy _ ih =>
    refine ⟨?_, ?_⟩
    · rw [List.flatten_cons, List.flatMap_cons, ih.1, hxy]
      rfl
    · intro x hx
      rcases List.mem_cons.mp hx with rfl | hx
      · exact ⟨_, hxy⟩
      · exact ih.2 x hx

private theorem toNat_ofNat_of_lt {n : ℕ} (h : n < 2 ^ 32) : (BitVec.ofNat 32 n).toNat = n := by
  rw [BitVec.toNat_ofNat, Nat.mod_eq_of_lt h]

namespace AofRun

variable {job : AofJob} {file : AofFile} (run : AofRun job file)

def areaStart (_ : AofRun job file) : ℕ :=
  92 + file.head.length + file.idfn.length + file.strt.length + file.symt.length

def areaHdr (id : SymId) : Decaof.AreaHdr where
  name := (run.table.sym id).offset
  flags := (job.table.sym id).area.type &&& areaIntAofMask
  size := fix4 (job.table.sym id).area.maxIdx
  numrelocs := BitVec.ofNat 32 (job.table.sym id).area.reloc.length
  baseaddr := (job.table.sym id).baseAddr.getD 0

def aofHdr : Decaof.AofHdr where
  filetype := aofHeaderID
  version := 310
  numareas := BitVec.ofNat 32 job.written.length
  numsyms := BitVec.ofNat 32 run.symOut.numAllSymbols
  entryarea := job.areaEntrySymbol.elim 0 fun id => (run.table.sym id).area.number + 1
  entryoffset := job.areaEntrySymbol.elim 0 fun _ => job.areaEntryOffset

private theorem reads_areaEntry {id : SymId} {bytes : List UInt8} (h : aofAreaEntry (run.table.sym id) = some bytes) :
    Reads Decaof.readAreahdr bytes (run.areaHdr id) := by
  simp only [aofAreaEntry, Option.bind_eq_bind, Option.bind_eq_some_iff, Option.pure_def, Option.some.injEq] at h
  obtain ⟨base, hbase, rfl⟩ := h
  obtain ⟨number, offset, used, hsym⟩ := run.table_sym id
  have hbase' : (job.table.sym id).baseAddr.getD 0 = base := by
    rw [hsym] at hbase
    have hsame : (job.table.sym id).baseAddr = some base := hbase
    rw [hsame]
    rfl
  have hhdr : run.areaHdr id = ⟨(run.table.sym id).offset, (run.table.sym id).area.type &&& areaIntAofMask,
      fix4 (run.table.sym id).area.maxIdx, BitVec.ofNat 32 (run.table.sym id).area.reloc.length, base⟩ := by
    unfold areaHdr
    rw [hbase', hsym]
  rw [hhdr]
  simp only [List.append_assoc]
  rw [← List.append_nil (wordBytes base)]
  exact (reads_wordBytes _).bind ((reads_wordBytes _).bind ((reads_wordBytes _).bind ((reads_wordBytes _).bind
    ((reads_wordBytes _).bind (Reads.pure _)))))

theorem read_aofhdr (hstart : run.areaStart < 2 ^ 32) :
    Decaof.readAofhdr file.bytes (aofChunkent chunkIdObjHead file.head.length 92) =
      some (run.aofHdr, job.written.map run.areaHdr) := by
  have hlen := run.length_head
  unfold areaStart at hstart
  have hnum : run.aofHdr.numareas.toNat = job.written.length := toNat_ofNat_of_lt (by omega)
  obtain ⟨hflat, hsome⟩ := flatten_of_mapM run.areaEntries
  have hfixed : Reads Decaof.readAofFixed (aofHeader job run.table job.numbered.2 run.symOut.numAllSymbols)
      run.aofHdr := by
    unfold aofHeader
    simp only [List.append_assoc]
    rw [← List.append_nil (wordBytes (job.areaEntrySymbol.elim 0 fun _ => job.areaEntryOffset)), job.numAreas]
    exact (reads_wordBytes _).bind ((reads_wordBytes _).bind ((reads_wordBytes _).bind ((reads_wordBytes _).bind
      ((reads_wordBytes _).bind ((reads_wordBytes _).bind (Reads.pure _))))))
  have hareas : Reads (TokenReader.times Decaof.readAreahdr job.written.length) run.entries.flatten
      (job.written.map run.areaHdr) := by
    rw [hflat]
    refine Reads.times fun id hid => ?_
    obtain ⟨bytes, hbytes⟩ := hsome id hid
    rw [hbytes]
    exact run.reads_areaEntry hbytes
  have hfile : file.bytes = file.chunkHeader ++ ((aofHeader job run.table job.numbered.2 run.symOut.numAllSymbols ++
      (run.entries.flatten ++ [])) ++ (file.idfn ++ file.strt ++ file.symt ++ file.area)) := by
    unfold AofFile.bytes
    rw [run.head, List.append_nil]
    simp only [List.append_assoc]
  rw [← hnum] at hareas
  have hall : Reads
      (do
        let aofHdr ← Decaof.readAofFixed
        let areaHdrs ← TokenReader.times Decaof.readAreahdr aofHdr.numareas.toNat
        return (aofHdr, areaHdrs))
      (aofHeader job run.table job.numbered.2 run.symOut.numAllSymbols ++ (run.entries.flatten ++ []))
      (run.aofHdr, job.written.map run.areaHdr) :=
    hfixed.bind (hareas.bind (Reads.pure _))
  have hread : TokenReader.readAt _ (file.chunkHeader ++ ((aofHeader job run.table job.numbered.2 run.symOut.numAllSymbols ++
      (run.entries.flatten ++ [])) ++ (file.idfn ++ file.strt ++ file.symt ++ file.area))) 92 = _ :=
    hall.readAt run.length_chunkHeader
  unfold Decaof.readAofhdr
  have hoffset : (aofChunkent chunkIdObjHead file.head.length 92).offset.toNat = 92 := rfl
  have hsize : (aofChunkent chunkIdObjHead file.head.length 92).size.toNat = file.head.length :=
    toNat_ofNat_of_lt (by omega)
  have hmin : ¬(aofChunkent chunkIdObjHead file.head.length 92).size < 24 := by
    rw [BitVec.lt_def, hsize, hlen]
    change ¬24 + job.written.length * 20 < 24
    omega
  rw [if_neg hmin, hoffset, hfile]
  dsimp only
  rw [hread, hsize, hnum, hlen, if_neg (not_not.mpr rfl)]

private theorem toNat_sub_four {offset : BitVec 32} (h : 4 ≤ offset.toNat) : (offset - 4).toNat = offset.toNat - 4 := by
  have hle : (4 : BitVec 32) ≤ offset := BitVec.le_def.mpr h
  rw [BitVec.toNat_sub_of_le hle]
  rfl

end AofRun

/-! ### Relocations -/

/-- **The kind of a relocation** and what it refers to, from its flags: the number of what it refers to does not reach
the bits of the kind. -/
theorem printReloc_type2 (d : Decaof.Decoder) (hversion : d.aofhdr.version = 310) {how sid : BitVec 32}
    (hinit : isSet how how2Init = true) (hfree : how &&& (how2SidMask ||| how2Symbol) = 0)
    (hsid : sid.toNat < 2 ^ 24) (isArea : Bool) (offset : BitVec 32) :
    Decaof.printReloc d ⟨offset, how ||| sid ||| if isArea then 0 else how2Symbol⟩ =
      .type2 offset (how ||| sid ||| if isArea then 0 else how2Symbol) (Decaof.fieldType2 how) (Decaof.relocHow how)
        (!isArea) (if isArea then d.areaname sid else d.symname sid) := by
  generalize hsymbol : (if isArea then (0 : BitVec 32) else how2Symbol) = symbol
  have hsymbol' : symbol = 0 ∨ symbol = how2Symbol := by
    cases isArea with
    | true => exact .inl hsymbol.symm
    | false => exact .inr hsymbol.symm
  -- the number is in the lowest 24 bits
  have hmask : sid &&& how2SidMask = sid := by
    apply BitVec.eq_of_toNat_eq
    rw [BitVec.toNat_and]
    change sid.toNat &&& (2 ^ 24 - 1) = sid.toNat
    rw [Nat.and_two_pow_sub_one_eq_mod, Nat.mod_eq_of_lt hsid]
  have hsidAnd (m : BitVec 32) (hm : how2SidMask &&& m = 0) : sid &&& m = 0 := by
    rw [← hmask, BitVec.and_assoc, hm]
    exact BitVec.and_zero
  have hhowAnd (m : BitVec 32) (hm : (how2SidMask ||| how2Symbol) &&& m = m) : how &&& m = 0 := by
    rw [← hm, ← BitVec.and_assoc, hfree]
    exact BitVec.zero_and
  have hkind (m : BitVec 32) (hm : how2SidMask &&& m = 0) (hm' : how2Symbol &&& m = 0) :
      (how ||| sid ||| symbol) &&& m = how &&& m := by
    rw [BitVec.and_or_distrib_right, BitVec.and_or_distrib_right, hsidAnd m hm]
    rcases hsymbol' with rfl | rfl
    · simp
    · simp [hm']
  have hshift (n m : ℕ) (hm : how2SidMask &&& (BitVec.ofNat 32 m <<< n) = 0)
      (hm' : how2Symbol &&& (BitVec.ofNat 32 m <<< n) = 0)
      (hback : BitVec.ofNat 32 m <<< n >>> n = BitVec.ofNat 32 m) :
      (how ||| sid ||| symbol) >>> n &&& BitVec.ofNat 32 m = how >>> n &&& BitVec.ofNat 32 m := by
    rw [← hback, ← BitVec.ushiftRight_and_distrib, ← BitVec.ushiftRight_and_distrib, hkind _ hm hm']
  have hinit' : how &&& how2Init = how2Init := by
    have hbit := BitVec.and_twoPow how 31
    change how &&& how2Init = if how.getLsbD 31 then how2Init else 0 at hbit
    split at hbit
    · exact hbit
    · unfold isSet at hinit
      rw [hbit] at hinit
      cases hinit
  have hflags : (how ||| sid ||| symbol) &&& how2Init = how2Init := (hkind _ (by decide) (by decide)).trans hinit'
  have htype2 : ¬(how ||| sid ||| symbol) &&& 0xfff00000 = 0 := by
    intro h
    have hsub : (how ||| sid ||| symbol) &&& 0xfff00000 &&& how2Init = how2Init := by
      rw [BitVec.and_assoc]
      exact hflags
    rw [h] at hsub
    exact absurd hsub (by decide)
  have hfield : Decaof.fieldType2 (how ||| sid ||| symbol) = Decaof.fieldType2 how := by
    have h24 : (how ||| sid ||| symbol) >>> 24 &&& (0x3 : BitVec 32) = how >>> 24 &&& 0x3 :=
      hshift 24 3 (by decide) (by decide) (by decide)
    have h29 : (how ||| sid ||| symbol) >>> 29 &&& (0x3 : BitVec 32) = how >>> 29 &&& 0x3 :=
      hshift 29 3 (by decide) (by decide) (by decide)
    unfold Decaof.fieldType2
    rw [h24, h29]
  have hhow : Decaof.relocHow (how ||| sid ||| symbol) = Decaof.relocHow how := by
    unfold Decaof.relocHow
    simp only [hkind 0x14000000 (by decide) (by decide)]
  have hsymbolBit : (how ||| sid ||| symbol) &&& 0x08000000 = symbol := by
    rw [BitVec.and_or_distrib_right, BitVec.and_or_distrib_right, hsidAnd _ (by decide), hhowAnd _ (by decide)]
    rcases hsymbol' with rfl | rfl <;> rfl
  have hnumber : (how ||| sid ||| symbol) &&& 0xFFFFFF = sid := by
    rw [BitVec.and_or_distrib_right, BitVec.and_or_distrib_right, hhowAnd _ (by decide)]
    change 0 ||| sid &&& how2SidMask ||| symbol &&& 0xFFFFFF = sid
    rw [hmask]
    have hnone : symbol &&& 0xFFFFFF = 0 := by
      rcases hsymbol' with rfl | rfl <;> rfl
    rw [hnone]
    simp
  unfold Decaof.printReloc
  dsimp only
  rw [if_neg htype2, if_pos (show (how ||| sid ||| symbol) &&& 0x80000000 = 0x80000000 from hflags)]
  have htarget : Decaof.printReloc.type2 d ⟨offset, how ||| sid ||| symbol⟩ (how ||| sid ||| symbol)
      (Decaof.fieldType2 (how ||| sid ||| symbol)) =
      .type2 offset (how ||| sid ||| symbol) (Decaof.fieldType2 how) (Decaof.relocHow how) (!isArea)
        (if isArea then d.areaname sid else d.symname sid) := by
    unfold Decaof.printReloc.type2
    rw [hfield, hhow, hsymbolBit, hnumber, ← hsymbol]
    cases isArea with
    | true => exact if_neg (not_not.mpr rfl)
    | false => exact if_pos (show how2Symbol ≠ 0 by decide)
  rw [← htarget]
  split
  · next n heq =>
    rw [if_neg (by rw [hversion]; decide), heq]
  · rfl

private theorem mem_of_mapM {α β : Type} {f : α → Option β} {xs : List α} {ys : List β} (h : xs.mapM f = some ys)
    {x : α} (hx : x ∈ xs) : ∃ y ∈ ys, f x = some y := by
  have hall := forall₂_of_mapM_eq_some h
  clear h
  induction hall with
  | nil => cases hx
  | cons hxy _ ih =>
    rcases List.mem_cons.mp hx with rfl | hx
    · exact ⟨_, List.mem_cons_self, hxy⟩
    · obtain ⟨y, hy, heq⟩ := ih hx
      exact ⟨y, List.mem_cons_of_mem _ hy, heq⟩

/-! ### Entries -/

variable {heap : SymHeap}

private theorem aofSymbolEntry_area {o : SymbolOptions} {sym : Symbol} (h : sym.isArea = true) :
    aofSymbolEntry o heap sym = (do
      assert (isSet sym.type symbolAbsolute == isSet sym.area.type areaAbs)
      let base ← sym.baseAddr
      pure (some ⟨sym.offset, symbolLocal ||| (sym.type &&& symbolAbsolute), base, sym.offset⟩, [])) := by
  unfold aofSymbolEntry Symbol.baseAddr
  rw [if_pos h]
  cases isSet sym.area.type areaAbs <;> rfl

private theorem aofSymbolEntry_none {o : SymbolOptions} {s : Symbol} {diags : List Diag}
    (h : aofSymbolEntry o heap s = some (none, diags)) : ∃ d ∈ diags, d.tag = .error := by
  cases harea : s.isArea with
  | true =>
    rw [aofSymbolEntry_area harea] at h
    simp [Option.bind_eq_some_iff] at h
  | false =>
    unfold aofSymbolEntry at h
    rw [harea, if_neg Bool.false_ne_true] at h
    split at h
    · simp only [Option.bind_eq_bind, Option.bind_eq_some_iff] at h
      obtain ⟨value, hvalue, h⟩ := h
      cases value with
      | inl diag =>
        cases h
        exact ⟨diag, List.mem_singleton_self _, definedSymbolValue_error hvalue⟩
      | inr value => simp [Option.bind_eq_some_iff] at h
    · simp at h

private theorem aofSymbolEntry_name {o : SymbolOptions} {sym : Symbol} {entry : AofSymbol}
    {diags : List Diag} (h : aofSymbolEntry o heap sym = some (some entry, diags)) : entry.name = sym.offset := by
  cases harea : sym.isArea with
  | true =>
    rw [aofSymbolEntry_area harea] at h
    simp only [Option.bind_eq_bind, Option.bind_eq_some_iff, Option.pure_def, Option.some.injEq, Prod.mk.injEq] at h
    obtain ⟨_, -, base, -, rfl, -⟩ := h
    rfl
  | false =>
    unfold aofSymbolEntry at h
    rw [harea, if_neg Bool.false_ne_true] at h
    split at h
    · simp only [Option.bind_eq_bind, Option.bind_eq_some_iff] at h
      obtain ⟨value, -, h⟩ := h
      cases value with
      | inl diag => cases h
      | inr value =>
        simp only [Option.bind_eq_some_iff, Option.pure_def, Option.some.injEq, Prod.mk.injEq] at h
        obtain ⟨_, -, rfl, -⟩ := h
        rfl
    · cases h
      rfl

private theorem size_eq {area : Area} (hinit : area.isNoInit = false)
    (hlt : 0 < area.paddedLength → area.paddedLength < 2 ^ 32) : (fix4 area.maxIdx).toNat = area.paddedLength := by
  have hpadded : area.paddedLength = area.maxIdx.toNat + (fix4 area.maxIdx - area.maxIdx).toNat := by
    unfold Area.paddedLength
    rw [hinit, if_neg Bool.false_ne_true]
  have hextra := (add_extra area.maxIdx.isLt).2
  rw [BitVec.ofNat_toNat, BitVec.setWidth_eq, ← hpadded] at hextra
  exact hextra (by omega)

private theorem findEnt_aofChunkents (headSize idfnSize strtSize symtSize areaSize : ℕ) :
    Decaof.findEnt (aofChunkents headSize idfnSize strtSize symtSize areaSize) "OBJ_STRT".toUTF8.data.toList =
        some (aofChunkent chunkIdObjStrt strtSize (92 + headSize + idfnSize)) ∧
      Decaof.findEnt (aofChunkents headSize idfnSize strtSize symtSize areaSize) "OBJ_IDFN".toUTF8.data.toList =
        some (aofChunkent chunkIdObjIdfn idfnSize (92 + headSize)) ∧
      Decaof.findEnt (aofChunkents headSize idfnSize strtSize symtSize areaSize) "OBJ_AREA".toUTF8.data.toList =
        some (aofChunkent chunkIdObjArea areaSize (92 + headSize + idfnSize + strtSize + symtSize)) ∧
      Decaof.findEnt (aofChunkents headSize idfnSize strtSize symtSize areaSize) "OBJ_HEAD".toUTF8.data.toList =
        some (aofChunkent chunkIdObjHead headSize 92) ∧
      Decaof.findEnt (aofChunkents headSize idfnSize strtSize symtSize areaSize) "OBJ_SYMT".toUTF8.data.toList =
        some (aofChunkent chunkIdObjSymt symtSize (92 + headSize + idfnSize + strtSize)) :=
  ⟨rfl, rfl, rfl, rfl, rfl⟩

private theorem reads_aofSymbol (e : AofSymbol) : Reads Decaof.readSymbol e.bytes ⟨e.name, e.type, e.value, e.areaName⟩ := by
  unfold AofSymbol.bytes
  simp only [List.append_assoc]
  rw [← List.append_nil (wordBytes e.areaName)]
  exact (reads_wordBytes _).bind ((reads_wordBytes _).bind ((reads_wordBytes _).bind ((reads_wordBytes _).bind
    (Reads.pure _))))

private theorem aofSymbolBytes_eq {unwritten : ℕ → AofSymbol} {f : SymId → Option (Option AofSymbol × List Diag)}
    {ids : List SymId} {rs : List (Option AofSymbol × List Diag)} (h : ids.mapM f = some rs)
    (hsome : ∀ id ∈ ids, ∃ entry diags, f id = some (some entry, diags)) :
    aofSymbolBytes unwritten (rs.map Prod.fst) =
      ids.flatMap fun id => (((f id).bind Prod.fst).getD ⟨0, 0, 0, 0⟩).bytes := by
  have hall := forall₂_of_mapM_eq_some h
  clear h
  unfold aofSymbolBytes
  induction hall generalizing unwritten with
  | nil => rfl
  | @cons id r ids rs hr _ ih =>
    obtain ⟨entry, diags, hentry⟩ := hsome id List.mem_cons_self
    obtain rfl := Option.some.inj (hr.symm.trans hentry)
    have hrest : aofSymbolBytes (fun i => unwritten (i + 1)) _ = _ := ih fun j hj => hsome j (List.mem_cons_of_mem _ hj)
    rw [List.map_cons, List.mapIdx_cons, List.flatten_cons, List.flatMap_cons, ← hrest, hentry]
    rfl

private theorem definedSymbolValue_relToArea {sym : Symbol} {v : BitVec 32} {a : SymId}
    (h : definedSymbolValue heap sym = some (.inr (v, some a))) : ∃ factor offset, sym.value = .symbol a factor offset := by
  unfold definedSymbolValue at h
  split at h
  · simp [Option.bind_eq_some_iff] at h
  · next a' factor offset heq =>
    dsimp only at h
    split at h
    · simp [Option.bind_eq_some_iff] at h
    · split at h
      · cases h
      · cases h
        exact ⟨factor, _, heq⟩
  · cases h

namespace AofRun

variable {job : AofJob} {file : AofFile} (run : AofRun job file)

/-! ### Strings -/

def strTab : Decaof.StringTab where
  size := BitVec.ofNat 32 run.symOut.strData.length
  str := run.symOut.strData.drop 4 ++ List.replicate
    (fix4 (BitVec.ofNat 32 run.symOut.strData.length) - BitVec.ofNat 32 run.symOut.strData.length).toNat 0

def readSym (id : SymId) : Decaof.Symbol :=
  let entry := ((aofSymbolEntry job.options run.table.heap (run.table.sym id)).bind Prod.fst).getD ⟨0, 0, 0, 0⟩
  { name := entry.name, flags := entry.type, value := entry.value, areaname := entry.areaName }

def decoder (ids : List SymId) : Decaof.Decoder where
  file := file.bytes
  aofhdr := run.aofHdr
  areahdrs := job.written.map run.areaHdr
  symboltab := if ids = [] then none else some (ids.map run.readSym)
  symboltab_size := if ids = [] then 0 else BitVec.ofNat 32 file.symt.length
  stringtab := some run.strTab
  area_offset := BitVec.ofNat 32 run.areaStart

variable {id : SymId}

theorem area_number {k : ℕ} (hid : job.written[k]? = some id) :
    (run.table.sym id).area.number = BitVec.ofNat 32 k := by
  obtain ⟨offset, used, hout⟩ := (symbolCreateSymbolOut_outputOnly run.symbols).sym id
  have hnumber := (foldl_numberAofArea job.areas_nodup (job.table, 0)).2 k id hid
  rw [Nat.zero_add] at hnumber
  rw [hout]
  exact hnumber

private theorem areaHdr_udata :
    (run.areaHdr id).flags &&& Decaof.areaUData = 0 ↔ (job.table.sym id).area.isNoInit = false := by
  change (job.table.sym id).area.type &&& areaIntAofMask &&& Decaof.areaUData = 0 ↔ _
  rw [BitVec.and_assoc, show areaIntAofMask &&& Decaof.areaUData = areaUData by decide]
  unfold Area.isNoInit isSet
  simp

theorem string_zero (ids : List SymId) : (run.decoder ids).string 0 = none := by
  unfold Decaof.Decoder.string
  change (if (0 : BitVec 32) < 4 ∨ run.strTab.size ≤ 0 then none
    else StringTable.readName run.strTab.str ((0 : BitVec 32) - 4).toNat) = none
  exact if_pos (Or.inl (by decide))

theorem definedSymbolValue_eq (id : SymId) :
    definedSymbolValue run.table.heap (run.table.sym id) = definedSymbolValue job.table.heap (job.table.sym id) := by
  obtain ⟨number, offset, used, hsym⟩ := run.table_sym id
  rw [hsym]
  unfold definedSymbolValue
  dsimp only
  split
  · rfl
  · next a factor off heq =>
    obtain ⟨number', offset', used', harea⟩ := run.table_sym a
    rw [← SymbolTable.sym, harea]
    rfl
  · rfl

variable {ids : List SymId} (order : run.Order ids)
include order

theorem read_strTab (hstart : run.areaStart < 2 ^ 32) :
    Decaof.readStringtab file.bytes (aofChunkent chunkIdObjStrt
      (fix4 (BitVec.ofNat 32 run.symOut.strData.length)).toNat (92 + file.head.length + file.idfn.length)) =
      some run.strTab := by
  unfold areaStart at hstart
  obtain ⟨hsize, -⟩ := run.toNat_fix4_strData (by omega)
  obtain ⟨body, hbody⟩ := order.strData
  have hlen : 4 ≤ run.symOut.strData.length := by
    rw [hbody, List.length_append, length_wordBytes]
    exact Nat.le_add_right _ _
  have hstrt := run.length_strt
  have hent : (aofChunkent chunkIdObjStrt (fix4 (BitVec.ofNat 32 run.symOut.strData.length)).toNat
      (92 + file.head.length + file.idfn.length)).size.toNat = file.strt.length :=
    (toNat_ofNat_of_lt (BitVec.isLt _)).trans hsize
  have hoffset : (aofChunkent chunkIdObjStrt (fix4 (BitVec.ofNat 32 run.symOut.strData.length)).toNat
      (92 + file.head.length + file.idfn.length)).offset.toNat = 92 + file.head.length + file.idfn.length :=
    toNat_ofNat_of_lt (by omega)
  have hdrop : wordBytes run.strTab.size ++ run.strTab.str = file.strt := by
    rw [run.strt]
    unfold strTab
    dsimp only
    have hback : wordBytes (BitVec.ofNat 32 run.symOut.strData.length) ++ run.symOut.strData.drop 4 =
        run.symOut.strData := by
      generalize BitVec.ofNat 32 run.symOut.strData.length = size at hbody
      rw [hbody]
      rfl
    rw [← List.append_assoc, hback]
  have hread : Reads
      (do return { size := ← Decaof.readWord, str := ← TokenReader.take (file.strt.length - 4) } :
        TokenReader.Reader UInt8 Decaof.StringTab)
      (wordBytes run.strTab.size ++ (run.strTab.str ++ [])) run.strTab := by
    refine (reads_wordBytes _).bind (Reads.bind (Reads.take ?_) (Reads.pure _))
    have hlength := congrArg List.length hdrop
    rw [List.length_append, length_wordBytes] at hlength
    omega
  have hfile : file.bytes = (file.chunkHeader ++ file.head ++ file.idfn) ++
      ((wordBytes run.strTab.size ++ (run.strTab.str ++ [])) ++ (file.symt ++ file.area)) := by
    rw [List.append_nil, hdrop]
    unfold AofFile.bytes
    simp only [List.append_assoc]
  have hmin : ¬(aofChunkent chunkIdObjStrt (fix4 (BitVec.ofNat 32 run.symOut.strData.length)).toNat
      (92 + file.head.length + file.idfn.length)).size < 4 := by
    rw [BitVec.lt_def, hent]
    change ¬file.strt.length < 4
    omega
  unfold Decaof.readStringtab
  rw [if_neg hmin, hent, hoffset, hfile]
  refine congrArg some (hread.readAt ?_)
  rw [List.length_append, List.length_append, run.length_chunkHeader]

theorem string_eq (hstart : run.areaStart < 2 ^ 32) (hid : id ∈ ids) :
    (run.decoder ids).string (run.table.sym id).offset = some (job.table.sym id).writtenName := by
  unfold areaStart at hstart
  have hstrt := run.length_strt
  obtain ⟨hfour, hname⟩ := order.name id hid
  obtain ⟨body, hbody⟩ := order.strData
  have hzero : 0 ∉ (job.table.sym id).writtenName :=
    Symbol.zero_notMem_writtenName (job.names id ((order.mem_iff id).mp hid).1)
  have hlt : (run.table.sym id).offset.toNat < run.symOut.strData.length := by
    obtain ⟨pre, post, hdata, hpre⟩ := hname
    rw [hdata, List.length_append, List.length_append, List.length_cons]
    omega
  have hinside : ¬((run.table.sym id).offset < 4 ∨ run.strTab.size ≤ (run.table.sym id).offset) := by
    rw [not_or]
    refine ⟨?_, ?_⟩
    · rw [BitVec.lt_def]
      exact Nat.not_lt.mpr hfour
    · rw [BitVec.le_def, show run.strTab.size.toNat = run.symOut.strData.length from toNat_ofNat_of_lt (by omega)]
      omega
  have hrest : IsNameAt run.strTab.str ((run.table.sym id).offset.toNat - 4) (job.table.sym id).writtenName := by
    rw [hbody] at hname
    have hbehind := hname.of_prepend hfour
    have hdrop : run.symOut.strData.drop 4 = body := by
      generalize BitVec.ofNat 32 run.symOut.strData.length = size at hbody
      rw [hbody]
      rfl
    unfold strTab
    dsimp only
    rw [hdrop]
    exact hbehind.append _
  unfold Decaof.Decoder.string
  change (if (run.table.sym id).offset < 4 ∨ run.strTab.size ≤ (run.table.sym id).offset then none
    else StringTable.readName run.strTab.str ((run.table.sym id).offset - 4).toNat) = _
  rw [if_neg hinside, toNat_sub_four hfour]
  exact hrest.readName_eq hzero

theorem mem_of_written (hid : id ∈ job.written) : id ∈ ids := by
  obtain ⟨hareas, himplicit⟩ := List.mem_filter.mp hid
  obtain ⟨hall, harea⟩ := (job.areas_iff id).mp hareas
  refine (order.mem_iff id).mpr ⟨hall, ?_⟩
  unfold needToOutputSymbol needToOutputUsed
  rw [if_pos harea]
  exact himplicit

theorem string_area (hstart : run.areaStart < 2 ^ 32) (hid : id ∈ ids)
    (harea : (job.table.sym id).isArea = true) :
    (run.decoder ids).string (run.table.sym id).offset = some (job.table.sym id).str := by
  rw [run.string_eq order hstart hid, order.area_name id hid harea]

/-! ### Symbols -/

theorem entry_of_mem (hdiags : ∀ d ∈ file.diags, d.tag ≠ .error) (hid : id ∈ ids) :
    ∃ entry diags, aofSymbolEntry job.options run.table.heap (run.table.sym id) = some (some entry, diags) := by
  obtain ⟨rs, hrs, -, hfile⟩ := order.entries
  obtain ⟨r, hr, hentry⟩ := mem_of_mapM hrs hid
  obtain ⟨entry, diags⟩ := r
  cases entry with
  | some entry => exact ⟨entry, diags, hentry⟩
  | none =>
    obtain ⟨d, hd, htag⟩ := aofSymbolEntry_none hentry
    exact absurd htag (hdiags d (hfile d (List.mem_flatMap.mpr ⟨_, hr, hd⟩)))

theorem read_symboltab (hstart : run.areaStart < 2 ^ 32) (hdiags : ∀ d ∈ file.diags, d.tag ≠ .error) :
    Decaof.readSymboltab file.bytes (aofChunkent chunkIdObjSymt file.symt.length
      (92 + file.head.length + file.idfn.length + (fix4 (BitVec.ofNat 32 run.symOut.strData.length)).toNat))
      run.aofHdr.numsyms = ids.map run.readSym := by
  unfold areaStart at hstart
  have hsymt := run.length_symt
  obtain ⟨hsize, -⟩ := run.toNat_fix4_strData (by omega)
  have hnum : run.aofHdr.numsyms.toNat = ids.length := by
    rw [order.length]
    exact toNat_ofNat_of_lt (by omega)
  obtain ⟨rs, hrs, hdata, -⟩ := order.entries
  have hbytes : file.symt = ids.flatMap fun id =>
      (((aofSymbolEntry job.options run.table.heap (run.table.sym id)).bind Prod.fst).getD ⟨0, 0, 0, 0⟩).bytes := by
    rw [run.symt, hdata]
    exact aofSymbolBytes_eq hrs fun id hid => run.entry_of_mem order hdiags hid
  have hreads : Reads (TokenReader.times Decaof.readSymbol ids.length) file.symt (ids.map run.readSym) := by
    rw [hbytes]
    exact Reads.times fun id _ => reads_aofSymbol _
  have hoffset : (aofChunkent chunkIdObjSymt file.symt.length (92 + file.head.length + file.idfn.length +
      (fix4 (BitVec.ofNat 32 run.symOut.strData.length)).toNat)).offset.toNat =
      92 + file.head.length + file.idfn.length + file.strt.length := by
    rw [hsize]
    exact toNat_ofNat_of_lt (by omega)
  have hfile : file.bytes = (file.chunkHeader ++ file.head ++ file.idfn ++ file.strt) ++ (file.symt ++ file.area) := by
    unfold AofFile.bytes
    simp only [List.append_assoc]
  unfold Decaof.readSymboltab
  rw [hnum, hoffset, hfile]
  refine hreads.readAt ?_
  rw [List.length_append, List.length_append, List.length_append, run.length_chunkHeader]

theorem string_relToArea (hstart : run.areaStart < 2 ^ 32) {a : SymId} (ha : a ∈ job.table.allSymbols)
    (harea : (job.table.sym a).isArea = true) :
    (run.decoder ids).string (run.table.sym a).offset = job.areaName a := by
  unfold AofJob.areaName
  have hneed : needToOutputSymbol job.options (job.table.sym a) = !(job.table.sym a).isImplicit := by
    unfold needToOutputSymbol needToOutputUsed
    rw [if_pos harea]
  cases himplicit : (job.table.sym a).isImplicit with
  | true =>
    have hnot : a ∉ ids := by
      intro hid
      have hout := ((order.mem_iff a).mp hid).2
      rw [hneed, himplicit] at hout
      cases hout
    rw [order.offset_of_not_mem a hnot, if_pos rfl]
    exact run.string_zero ids
  | false =>
    have hid : a ∈ ids := (order.mem_iff a).mpr ⟨ha, by rw [hneed, himplicit]; rfl⟩
    rw [if_neg Bool.false_ne_true]
    exact run.string_area order hstart hid harea

theorem printSymbol_eq (hstart : run.areaStart < 2 ^ 32) (hdiags : ∀ d ∈ file.diags, d.tag ≠ .error)
    (hid : id ∈ ids) : Decaof.printSymbol (run.decoder ids) (run.readSym id) = job.symbolListing id := by
  have hname := run.string_eq order hstart hid
  obtain ⟨number, offset, used, hsym⟩ := run.table_sym id
  obtain ⟨entry, diags, hentry⟩ := run.entry_of_mem order hdiags hid
  have hread : run.readSym id = ⟨entry.name, entry.type, entry.value, entry.areaName⟩ := by
    unfold readSym
    rw [hentry]
    rfl
  rw [hread]
  have hisArea : (run.table.sym id).isArea = (job.table.sym id).isArea := by rw [hsym]; rfl
  unfold AofJob.symbolListing
  dsimp only
  cases harea : (job.table.sym id).isArea with
  | true =>
    -- the symbol of an area
    rw [if_pos rfl]
    rw [aofSymbolEntry_area (hisArea.trans harea)] at hentry
    simp only [Option.bind_eq_bind, Option.bind_eq_some_iff, Option.pure_def, Option.some.injEq, Prod.mk.injEq] at hentry
    obtain ⟨_, -, base, hbase, rfl, -⟩ := hentry
    have hbase' : (job.table.sym id).baseAddr = some base := by
      rw [hsym] at hbase
      exact hbase
    have htype : (run.table.sym id).type = (job.table.sym id).type := by rw [hsym]
    rw [order.area_name id hid harea] at hname
    unfold Decaof.printSymbol AofJob.place
    dsimp only
    rw [hname, hbase', htype]
    rfl
  | false =>
    rw [if_neg Bool.false_ne_true]
    unfold aofSymbolEntry at hentry
    rw [hisArea, harea, if_neg Bool.false_ne_true, run.definedSymbolValue_eq id] at hentry
    have htype : (run.table.sym id).type = (job.table.sym id).type := by rw [hsym]
    have hvalue : (run.table.sym id).value = (job.table.sym id).value := by rw [hsym]
    have hmapping : (run.table.sym id).isMapping = (job.table.sym id).isMapping := by rw [hsym]; rfl
    rw [htype, hvalue, hmapping] at hentry
    cases hdefined : isSet (job.table.sym id).type symbolDefined with
    | true =>
      rw [hdefined, if_pos rfl] at hentry
      rw [if_pos rfl]
      simp only [Option.bind_eq_bind, Option.bind_eq_some_iff] at hentry
      obtain ⟨value, hdef, hentry⟩ := hentry
      rw [hdef]
      cases value with
      | inl diag => cases hentry
      | inr value =>
        obtain ⟨v, relToAreaSym⟩ := value
        simp only [Option.bind_eq_some_iff, assert_eq_some, Option.pure_def, Option.some.injEq, Prod.mk.injEq] at hentry
        obtain ⟨_, hok, rfl, -⟩ := hentry
        have hareaName : (run.decoder ids).string (relToAreaSym.elim 0 fun a => (run.table.heap.sym a).offset) =
            relToAreaSym.bind job.areaName := by
          cases relToAreaSym with
          | none => exact run.string_zero ids
          | some a =>
            obtain ⟨factor, off, hsymbol⟩ := definedSymbolValue_relToArea hdef
            have ha := job.relative id ((order.mem_iff id).mp hid).1 a factor off hsymbol
            obtain ⟨number', offset', used', hasym⟩ := run.table_sym a
            refine run.string_relToArea order hstart ha ?_
            have hisArea := (Bool.and_eq_true_iff.mp hok).2
            change (run.table.sym a).isArea = true at hisArea
            rw [hasym] at hisArea
            exact hisArea
        unfold Decaof.printSymbol AofJob.place
        dsimp only
        rewrite [hname, hareaName]
        rfl
    | false =>
      rw [hdefined, if_neg Bool.false_ne_true] at hentry
      rw [if_neg Bool.false_ne_true]
      simp only [Option.pure_def, Option.some.injEq, Prod.mk.injEq] at hentry
      obtain ⟨rfl, -⟩ := hentry
      unfold Decaof.printSymbol AofJob.place
      dsimp only
      rewrite [hname, run.string_zero ids]
      rfl

/-! ### Relocations of an area -/

theorem symname_eq (hstart : run.areaStart < 2 ^ 32) (hdiags : ∀ d ∈ file.diags, d.tag ≠ .error) {i : ℕ}
    (hid : ids[i]? = some id) :
    (run.decoder ids).symname (BitVec.ofNat 32 i) = some (job.table.sym id).writtenName := by
  have hname := run.string_eq order hstart (List.mem_of_getElem? hid)
  unfold areaStart at hstart
  have hsymt := run.length_symt
  rw [← order.length] at hsymt
  obtain ⟨hi, -⟩ := List.getElem?_eq_some_iff.mp hid
  have hindex : (BitVec.ofNat 32 i).toNat = i := toNat_ofNat_of_lt (by omega)
  have hne : ids ≠ [] := List.ne_nil_of_length_pos (by omega)
  obtain ⟨entry, diags, hentry⟩ := run.entry_of_mem order hdiags (List.mem_of_getElem? hid)
  have hread : (run.readSym id).name = (run.table.sym id).offset := by
    unfold readSym
    rw [hentry]
    exact aofSymbolEntry_name hentry
  have hsyms : (run.decoder ids).symboltab = some (ids.map run.readSym) := if_neg hne
  have hsize : (run.decoder ids).symboltab_size = BitVec.ofNat 32 file.symt.length := if_neg hne
  have hinside : ¬BitVec.ofNat 32 file.symt.length ≤ BitVec.ofNat 32 i := by
    rw [BitVec.le_def, hindex, toNat_ofNat_of_lt (by omega)]
    omega
  unfold Decaof.Decoder.symname
  rw [hsyms, hsize]
  change (if BitVec.ofNat 32 file.symt.length ≤ BitVec.ofNat 32 i then none
    else (ids.map run.readSym)[(BitVec.ofNat 32 i).toNat]?.bind fun sym => (run.decoder ids).string sym.name) = _
  rw [if_neg hinside, hindex, List.getElem?_map, hid]
  change (run.decoder ids).string (run.readSym id).name = _
  rw [hread, hname]

theorem areaname_eq (hstart : run.areaStart < 2 ^ 32) {k : ℕ} (hid : job.written[k]? = some id) :
    (run.decoder ids).areaname (BitVec.ofNat 32 k) = some (job.table.sym id).writtenName := by
  have hname := run.string_eq order hstart (run.mem_of_written order (List.mem_of_getElem? hid))
  unfold areaStart at hstart
  have hhead := run.length_head
  obtain ⟨hk, -⟩ := List.getElem?_eq_some_iff.mp hid
  have hindex : (BitVec.ofNat 32 k).toNat = k := toNat_ofNat_of_lt (by omega)
  have hinside : ¬BitVec.ofNat 32 job.written.length ≤ BitVec.ofNat 32 k := by
    rw [BitVec.le_def, hindex, toNat_ofNat_of_lt (by omega)]
    omega
  unfold Decaof.Decoder.areaname
  change (if BitVec.ofNat 32 job.written.length ≤ BitVec.ofNat 32 k then none
    else (job.written.map run.areaHdr)[(BitVec.ofNat 32 k).toNat]?.bind fun hdr => (run.decoder ids).string hdr.name) = _
  rw [if_neg hinside, hindex, List.getElem?_map, hid]
  exact hname

theorem reloc_target (hstart : run.areaStart < 2 ^ 32) (hdiags : ∀ d ∈ file.diags, d.tag ≠ .error) {s : SymId}
    (hall : s ∈ job.table.allSymbols) (hused : 0 ≤ (run.table.sym s).used) :
    ∃ n : ℕ, (run.table.sym s).used = n ∧
      n = (if (job.table.sym s).isArea then job.written.idxOf s else ids.idxOf s) ∧
      (if (job.table.sym s).isArea then (run.decoder ids).areaname (BitVec.ofNat 32 n)
        else (run.decoder ids).symname (BitVec.ofNat 32 n)) = some (job.table.sym s).writtenName := by
  have hid : s ∈ ids := by
    by_contra hnot
    have hneg := order.used_of_not_mem s hall hnot
    omega
  have hget : ids[ids.idxOf s]? = some s := by
    rw [List.getElem?_eq_getElem (List.idxOf_lt_length_iff.mpr hid), List.getElem_idxOf]
  have hout := order.used _ s hget
  cases harea : (job.table.sym s).isArea with
  | true =>
    have hwritten : s ∈ job.written := by
      refine List.mem_filter.mpr ⟨(job.areas_iff s).mpr ⟨hall, harea⟩, ?_⟩
      have hneed := ((order.mem_iff s).mp hid).2
      unfold needToOutputSymbol needToOutputUsed at hneed
      rwa [if_pos harea] at hneed
    have hgetArea : job.written[job.written.idxOf s]? = some s := by
      rw [List.getElem?_eq_getElem (List.idxOf_lt_length_iff.mpr hwritten), List.getElem_idxOf]
    have hhead := run.length_head
    have hlt := List.idxOf_lt_length_iff.mpr hwritten
    have hnumber : (run.table.sym s).area.number.toNat = job.written.idxOf s := by
      rw [run.area_number hgetArea]
      unfold areaStart at hstart
      exact toNat_ofNat_of_lt (by omega)
    rw [harea, if_pos rfl, hnumber] at hout
    exact ⟨_, hout, rfl, run.areaname_eq order hstart hgetArea⟩
  | false =>
    rw [harea, if_neg Bool.false_ne_true] at hout
    exact ⟨_, hout, rfl, run.symname_eq order hstart hdiags hget⟩

def readReloc (reloc : RelocInt) : Decaof.Reloc :=
  match reloc.symP with
  | none => ⟨reloc.offset, 0⟩
  | some s =>
    let how := reloc.how ||| BitVec.ofInt 32 (run.table.sym s).used
    ⟨reloc.offset, how ||| if (job.table.sym s).isArea then 0 else how2Symbol⟩

theorem printReloc_eq (hstart : run.areaStart < 2 ^ 32) (hdiags : ∀ d ∈ file.diags, d.tag ≠ .error)
    (hid : id ∈ job.areas) {reloc : RelocInt} (hreloc : reloc ∈ (job.table.sym id).area.reloc) {bytes : List UInt8}
    (hbytes : aofReloc run.table reloc = some bytes) :
    Reads Decaof.readReloc bytes (run.readReloc reloc) ∧
      Decaof.printReloc (run.decoder ids) (run.readReloc reloc) = job.relocListing ids reloc := by
  obtain ⟨hinit, hfree, s, hall, hsymP⟩ := job.relocs id hid reloc hreloc
  simp only [aofReloc, hsymP, Option.bind_eq_bind, Option.bind_eq_some_iff, Option.pure_def, Option.some.injEq,
    assert_eq_some, Bool.and_eq_true, decide_eq_true_eq] at hbytes
  obtain ⟨_, rfl, _, ⟨hused, hmax⟩, rfl⟩ := hbytes
  obtain ⟨n, hn, hindex, htarget⟩ := run.reloc_target order hstart hdiags hall hused
  have hisArea : (run.table.sym s).isArea = (job.table.sym s).isArea := by
    obtain ⟨number, offset, used, hsym⟩ := run.table_sym s
    rw [hsym]
    rfl
  have hread : run.readReloc reloc = ⟨reloc.offset,
      reloc.how ||| BitVec.ofNat 32 n ||| if (job.table.sym s).isArea then 0 else how2Symbol⟩ := by
    unfold readReloc
    rw [hsymP]
    dsimp only
    rw [hn]
    rfl
  have hhow : (if (run.table.sym s).isArea then reloc.how ||| BitVec.ofInt 32 (run.table.sym s).used
      else reloc.how ||| BitVec.ofInt 32 (run.table.sym s).used ||| how2Symbol) =
      reloc.how ||| BitVec.ofNat 32 n ||| if (job.table.sym s).isArea then 0 else how2Symbol := by
    rw [hisArea, hn]
    cases (job.table.sym s).isArea with
    | true => exact BitVec.or_zero.symm
    | false => rfl
  refine ⟨?_, ?_⟩
  · rw [hread, hhow, ← List.append_nil (wordBytes (reloc.how ||| _ ||| _))]
    exact (reads_wordBytes _).bind ((reads_wordBytes _).bind (Reads.pure _))
  · have hnlt : (BitVec.ofNat 32 n).toNat < 2 ^ 24 := by
      rw [hn] at hmax
      have hmask : how2SidMask.toNat = 2 ^ 24 - 1 := rfl
      rw [toNat_ofNat_of_lt (by omega)]
      omega
    rw [hread, printReloc_type2 _ rfl hinit hfree hnlt, htarget, hindex]
    unfold AofJob.relocListing
    rw [hsymP]

/-! ### Areas -/

theorem reads_relocs (hstart : run.areaStart < 2 ^ 32) (hdiags : ∀ d ∈ file.diags, d.tag ≠ .error)
    (hid : id ∈ job.areas) {relocs : List (List UInt8)}
    (hrelocs : (job.table.sym id).area.reloc.mapM (aofReloc run.table) = some relocs) :
    Reads (TokenReader.times Decaof.readReloc (job.table.sym id).area.reloc.length) relocs.flatten
        ((job.table.sym id).area.reloc.map run.readReloc) ∧
      ((job.table.sym id).area.reloc.map run.readReloc).map (Decaof.printReloc (run.decoder ids)) =
        (job.table.sym id).area.reloc.map (job.relocListing ids) := by
  obtain ⟨hflat, hsome⟩ := flatten_of_mapM hrelocs
  refine ⟨?_, ?_⟩
  · rw [hflat]
    refine Reads.times fun reloc hreloc => ?_
    obtain ⟨bytes, hbytes⟩ := hsome reloc hreloc
    rw [hbytes]
    exact (run.printReloc_eq order hstart hdiags hid hreloc hbytes).1
  · rw [List.map_map]
    refine List.map_congr_left fun reloc hreloc => ?_
    obtain ⟨bytes, hbytes⟩ := hsome reloc hreloc
    exact (run.printReloc_eq order hstart hdiags hid hreloc hbytes).2

theorem printArea_eq (hstart : run.areaStart < 2 ^ 32) (hdiags : ∀ d ∈ file.diags, d.tag ≠ .error)
    (hid : id ∈ job.written) {bytes pre post : List UInt8} (hdata : aofAreaData run.table job.image id = some bytes)
    (hfile : file.bytes = pre ++ (bytes ++ post)) {offset reloff : BitVec 32}
    (hoffset : 0 < (job.table.sym id).area.paddedLength →
      (BitVec.ofNat 32 run.areaStart + offset).toNat = pre.length ∧ (job.table.sym id).area.paddedLength < 2 ^ 32)
    (hreloff : 0 < (job.table.sym id).area.reloc.length →
      (BitVec.ofNat 32 run.areaStart + reloff).toNat = pre.length + (job.table.sym id).area.paddedLength ∧
        (job.table.sym id).area.reloc.length < 2 ^ 32) :
    Decaof.printArea (run.decoder ids) (run.areaHdr id) offset reloff = some (job.areaListing ids id) := by
  obtain ⟨number, offset', used, hsym⟩ := run.table_sym id
  obtain ⟨hareas, -⟩ := List.mem_filter.mp hid
  have harea := ((job.areas_iff id).mp hareas).2
  have hnoInit : (run.table.sym id).area.isNoInit = (job.table.sym id).area.isNoInit := by rw [hsym]; rfl
  have hmaxIdx : (run.table.sym id).area.maxIdx = (job.table.sym id).area.maxIdx := by rw [hsym]
  have hrelocEq : (run.table.sym id).area.reloc = (job.table.sym id).area.reloc := by rw [hsym]
  simp only [aofAreaData, Option.bind_eq_bind, Option.bind_eq_some_iff, Option.pure_def, Option.some.injEq, hnoInit,
    hmaxIdx, hrelocEq] at hdata
  obtain ⟨relocs, hrelocs, hbytes⟩ := hdata
  have hcontents : job.contents id ++ relocs.flatten = bytes := hbytes
  have hlen : (job.contents id).length = (job.table.sym id).area.paddedLength := by
    unfold AofJob.contents Area.paddedLength
    cases hinit : (job.table.sym id).area.isNoInit with
    | true => rfl
    | false =>
      rw [if_neg Bool.false_ne_true, if_neg Bool.false_ne_true, List.length_append, List.length_replicate,
        job.image_length id hareas hinit]
  obtain ⟨hreads, hprint⟩ := run.reads_relocs order hstart hdiags hareas hrelocs
  have hnumrelocs : (BitVec.ofNat 32 (job.table.sym id).area.reloc.length).toNat =
      (job.table.sym id).area.reloc.length := by
    by_cases hzero : (job.table.sym id).area.reloc.length = 0
    · rw [hzero]
      rfl
    · exact toNat_ofNat_of_lt (hreloff (by omega)).2
  -- the relocations
  have hrelocsRead : TokenReader.readAt (TokenReader.times Decaof.readReloc (job.table.sym id).area.reloc.length)
      file.bytes (BitVec.ofNat 32 run.areaStart + reloff).toNat = (job.table.sym id).area.reloc.map run.readReloc := by
    by_cases hzero : (job.table.sym id).area.reloc.length = 0
    · rw [hzero, List.length_eq_zero_iff.mp hzero]
      rfl
    · have hpos := (hreloff (by omega)).1
      have hsplit : file.bytes = (pre ++ job.contents id) ++ (relocs.flatten ++ post) := by
        rw [hfile, ← hcontents]
        simp only [List.append_assoc]
      rw [hsplit, hpos]
      exact hreads.readAt (by rw [List.length_append, hlen])
  -- the data
  have hcontentsRead : Decaof.readContents (run.decoder ids) (run.areaHdr id) offset =
      some (wordsOf (job.contents id)) := by
    unfold Decaof.readContents
    by_cases hinit : (job.table.sym id).area.isNoInit = false
    · have hsize : (run.areaHdr id).size.toNat = (job.table.sym id).area.paddedLength :=
        size_eq hinit fun hpos => (hoffset hpos).2
      have hmod := (job.table.sym id).area.paddedLength_mod
      rw [if_pos (run.areaHdr_udata.mpr hinit), hsize, if_pos hmod]
      refine congrArg some ?_
      by_cases hzero : (job.table.sym id).area.paddedLength = 0
      · rw [hzero] at hlen ⊢
        rw [List.length_eq_zero_iff.mp hlen]
        rfl
      · have hsplit : file.bytes = pre ++ (job.contents id ++ (relocs.flatten ++ post)) := by
          rw [hfile, ← hcontents]
          simp only [List.append_assoc]
        change TokenReader.readAt _ file.bytes (BitVec.ofNat 32 run.areaStart + offset).toNat = _
        rw [hsplit, (hoffset (by omega)).1, ← hlen]
        exact (reads_wordsOf (by omega)).readAt rfl
    · rw [if_neg (mt run.areaHdr_udata.mp hinit)]
      unfold AofJob.contents
      rw [Bool.not_eq_false] at hinit
      rw [hinit]
      rfl
  have hname := run.string_area order hstart (run.mem_of_written order hid) harea
  unfold Decaof.printArea
  rw [hcontentsRead]
  change some (Decaof.AreaListing.mk ((run.decoder ids).string (run.table.sym id).offset) _ _ _ _ _
    ((TokenReader.readAt (TokenReader.times Decaof.readReloc
      (BitVec.ofNat 32 (job.table.sym id).area.reloc.length).toNat) file.bytes
      (BitVec.ofNat 32 run.areaStart + reloff).toNat).map (Decaof.printReloc (run.decoder ids)))) = _
  rw [hname, hnumrelocs, hrelocsRead, hprint]
  rfl

/-- **The areas** from a position on: the offset decaof counts is that of the writer, as a word. -/
theorem printAreas_eq (hstart : run.areaStart < 2 ^ 32) (hdiags : ∀ d ∈ file.diags, d.tag ≠ .error) {rest : List SymId}
    (hrest : ∀ id ∈ rest, id ∈ job.written) {areas : List (List UInt8)}
    (hareas : rest.mapM (aofAreaData run.table job.image) = some areas) {pre : List UInt8}
    (hfile : file.bytes = pre ++ areas.flatten) (hbelow : job.below pre.length rest) {offset : BitVec 32}
    (hoffset : BitVec.ofNat 32 run.areaStart + offset = BitVec.ofNat 32 pre.length) :
    Decaof.printAreas (run.decoder ids) offset (rest.map run.areaHdr) = some (rest.map (job.areaListing ids)) := by
  induction rest generalizing pre areas offset with
  | nil => rfl
  | cons id rest ih =>
    obtain ⟨bytes, areas, hdata, hareas', rfl⟩ : ∃ bytes areas', aofAreaData run.table job.image id = some bytes ∧
        rest.mapM (aofAreaData run.table job.image) = some areas' ∧ areas = bytes :: areas' := by
      rw [List.mapM_cons] at hareas
      simp only [Option.bind_eq_bind, Option.bind_eq_some_iff, Option.pure_def, Option.some.injEq] at hareas
      obtain ⟨bytes, hdata, areas', hareas', rfl⟩ := hareas
      exact ⟨bytes, areas', hdata, hareas', rfl⟩
    have hid := hrest id List.mem_cons_self
    obtain ⟨hpadded, hrelocs, hbelow⟩ := hbelow
    rw [List.flatten_cons] at hfile
    have hlen : bytes.length = (job.table.sym id).area.paddedLength + (job.table.sym id).area.rawRelocSize :=
      run.length_areaData (List.mem_filter.mp hid).1 hdata
    -- where the relocations begin
    have hreloff : BitVec.ofNat 32 run.areaStart + (if (run.areaHdr id).flags &&& Decaof.areaUData ≠ 0 then offset
        else offset + (run.areaHdr id).size) = BitVec.ofNat 32 (pre.length + (job.table.sym id).area.paddedLength) := by
      rw [BitVec.ofNat_add, ← hoffset]
      by_cases hinit : (job.table.sym id).area.isNoInit = false
      · rw [if_neg (not_not.mpr (run.areaHdr_udata.mpr hinit)), BitVec.add_assoc]
        have hsize := size_eq hinit fun hpos => (hpadded hpos).2
        have hword : (run.areaHdr id).size = BitVec.ofNat 32 (job.table.sym id).area.paddedLength := by
          rw [← hsize, BitVec.ofNat_toNat, BitVec.setWidth_eq]
          rfl
        rw [hword]
      · rw [if_pos (mt run.areaHdr_udata.mp hinit)]
        have hzero : (job.table.sym id).area.paddedLength = 0 := by
          unfold Area.paddedLength
          exact if_pos (Bool.not_eq_false _ ▸ hinit)
        rw [hzero]
        exact (BitVec.add_zero _).symm
    have harea : Decaof.printArea (run.decoder ids) (run.areaHdr id) offset
        (if (run.areaHdr id).flags &&& Decaof.areaUData ≠ 0 then offset else offset + (run.areaHdr id).size) =
        some (job.areaListing ids id) :=
      run.printArea_eq order hstart hdiags hid hdata hfile
        (fun hpos => ⟨by rw [hoffset, toNat_ofNat_of_lt (hpadded hpos).1], (hpadded hpos).2⟩)
        (fun hpos => ⟨by rw [hreloff, toNat_ofNat_of_lt (hrelocs hpos).1], (hrelocs hpos).2⟩)
    have hnext : Decaof.printAreas (run.decoder ids) ((if (run.areaHdr id).flags &&& Decaof.areaUData ≠ 0 then offset
        else offset + (run.areaHdr id).size) + (run.areaHdr id).numrelocs * 8) (rest.map run.areaHdr) =
        some (rest.map (job.areaListing ids)) := by
      have hpos : (pre ++ bytes).length = pre.length + (job.table.sym id).area.paddedLength +
          (job.table.sym id).area.rawRelocSize := by
        rw [List.length_append, hlen, ← Nat.add_assoc]
      refine ih (fun j hj => hrest j (List.mem_cons_of_mem _ hj)) hareas' (hfile.trans (List.append_assoc _ _ _).symm)
        (by rw [hpos]; exact hbelow) ?_
      rw [← BitVec.add_assoc, hreloff, hpos, BitVec.ofNat_add _ (Area.rawRelocSize _)]
      unfold Area.rawRelocSize
      rw [Nat.mul_comm, BitVec.ofNat_mul]
      rfl
    rw [List.map_cons, List.map_cons, Decaof.printAreas]
    rw [harea, hnext]
    rfl

/-! ### The file -/

omit order in
theorem read_ident (hstart : run.areaStart < 2 ^ 32) :
    Decaof.readIdent file.bytes (aofChunkent chunkIdObjIdfn file.idfn.length (92 + file.head.length)) = file.idfn := by
  unfold areaStart at hstart
  have hsize : (aofChunkent chunkIdObjIdfn file.idfn.length (92 + file.head.length)).size.toNat = file.idfn.length :=
    toNat_ofNat_of_lt (by omega)
  have hoffset : (aofChunkent chunkIdObjIdfn file.idfn.length (92 + file.head.length)).offset.toNat =
      92 + file.head.length := toNat_ofNat_of_lt (by omega)
  have hfile : file.bytes = (file.chunkHeader ++ file.head) ++ (file.idfn ++ (file.strt ++ file.symt ++ file.area)) := by
    unfold AofFile.bytes
    simp only [List.append_assoc]
  have hread : Reads (TokenReader.take file.idfn.length) file.idfn file.idfn := Reads.take rfl
  unfold Decaof.readIdent
  rw [hsize, hoffset, hfile]
  exact hread.readAt (by rw [List.length_append, run.length_chunkHeader])

theorem decode_eq (hstart : run.areaStart < 2 ^ 32) (hdiags : ∀ d ∈ file.diags, d.tag ≠ .error)
    (hbelow : job.below run.areaStart job.written) : Decaof.decode file.bytes = some (job.listing ids) := by
  obtain ⟨hhdr, hents⟩ := run.read_header
  obtain ⟨hstrt, hidfn, harea, hhead, hsymt⟩ := findEnt_aofChunkents file.head.length file.idfn.length
    (fix4 (BitVec.ofNat 32 run.symOut.strData.length)).toNat file.symt.length job.totalAreaSize
  have hstring := run.read_strTab order hstart
  have haofhdr := run.read_aofhdr hstart
  have hsyms := run.read_symboltab order hstart hdiags
  have hident := run.read_ident hstart
  have hpre : (file.chunkHeader ++ file.head ++ file.idfn ++ file.strt ++ file.symt).length = run.areaStart := by
    simp only [List.length_append, run.length_chunkHeader]
    rfl
  have hsplit : file.bytes = (file.chunkHeader ++ file.head ++ file.idfn ++ file.strt ++ file.symt) ++
      run.areas.flatten := by
    unfold AofFile.bytes
    rw [run.area]
  have hnum : run.aofHdr.numsyms = 0 ↔ ids = [] := by
    have hlen := run.length_symt
    unfold areaStart at hstart
    have hnumsyms : run.aofHdr.numsyms.toNat = ids.length := by
      rw [order.length]
      exact toNat_ofNat_of_lt (by omega)
    rw [← List.length_eq_zero_iff, ← hnumsyms]
    exact ⟨fun h => by rw [h]; rfl, fun h => BitVec.eq_of_toNat_eq h⟩
  have hsymEnt : (if run.aofHdr.numsyms ≠ 0 then Decaof.findEnt (aofChunkents file.head.length file.idfn.length
      (fix4 (BitVec.ofNat 32 run.symOut.strData.length)).toNat file.symt.length job.totalAreaSize)
      "OBJ_SYMT".toUTF8.data.toList else none) = if ids = [] then none else
        some (aofChunkent chunkIdObjSymt file.symt.length (92 + file.head.length + file.idfn.length +
          (fix4 (BitVec.ofNat 32 run.symOut.strData.length)).toNat)) := by
    rw [hsymt]
    by_cases hids : ids = []
    · rw [if_pos hids, if_neg (not_not.mpr (hnum.mpr hids))]
    · rw [if_neg hids, if_pos (mt hnum.mp hids)]
  -- what has been read is what the lemmas above are about
  have hdecoder : (⟨file.bytes, run.aofHdr, job.written.map run.areaHdr,
      (if ids = [] then none else some (aofChunkent chunkIdObjSymt file.symt.length (92 + file.head.length +
        file.idfn.length + (fix4 (BitVec.ofNat 32 run.symOut.strData.length)).toNat))).map
          fun ent => Decaof.readSymboltab file.bytes ent run.aofHdr.numsyms,
      (if ids = [] then none else some (aofChunkent chunkIdObjSymt file.symt.length (92 + file.head.length +
        file.idfn.length + (fix4 (BitVec.ofNat 32 run.symOut.strData.length)).toNat))).elim 0 Decaof.ChunkEnt.size,
      some run.strTab, BitVec.ofNat 32 (92 + file.head.length + file.idfn.length +
        (fix4 (BitVec.ofNat 32 run.symOut.strData.length)).toNat + file.symt.length)⟩ : Decaof.Decoder) =
      run.decoder ids := by
    unfold areaStart at hstart
    unfold decoder areaStart
    rw [(run.toNat_fix4_strData (by omega)).1]
    rw [(run.toNat_fix4_strData (by omega)).1] at hsyms
    by_cases hids : ids = []
    · rw [if_pos hids, if_pos hids, if_pos hids]
      rfl
    · rw [if_neg hids, if_neg hids, if_neg hids, Option.map_some, hsyms]
      rfl
  have hareas : Decaof.printAreas (run.decoder ids) 0 (job.written.map run.areaHdr) =
      some (job.written.map (job.areaListing ids)) :=
    run.printAreas_eq order hstart hdiags (fun _ hid => hid) run.areaData hsplit (by rw [hpre]; exact hbelow)
      (by rw [hpre]; exact BitVec.add_zero _)
  have hsymbols : (run.decoder ids).listedSymbols = some (ids.map run.readSym) := by
    unfold Decaof.Decoder.listedSymbols
    by_cases hids : ids = []
    · rw [hids]
      exact if_pos (hnum.mpr hids)
    · exact (if_neg (mt hnum.mp hids)).trans (if_neg hids)
  have hprint : (ids.map run.readSym).map (Decaof.printSymbol (run.decoder ids)) = ids.map job.symbolListing := by
    rw [List.map_map]
    exact List.map_congr_left fun id hid => run.printSymbol_eq order hstart hdiags hid
  have hlisting : (run.decoder ids).listing (some file.idfn) = some (job.listing ids) := by
    unfold Decaof.Decoder.listing
    change (Decaof.printAreas (run.decoder ids) 0 (job.written.map run.areaHdr)).bind _ = _
    rw [hareas, hsymbols, Option.bind_some]
    change some (Listing.mk _ _ (some file.idfn) _ ((ids.map run.readSym).map (Decaof.printSymbol _))) = _
    rw [hprint, run.idfn]
    rfl
  have hfileId : ¬(chunkFileID ≠ (0xc3cbc6c5 : BitVec 32)) := not_not.mpr rfl
  unfold Decaof.decode
  rw [hhdr]
  dsimp only
  rw [if_neg hfileId, hents]
  simp only [Option.bind_eq_bind, Option.bind_some, hstrt, Decaof.readOptStringtab, hstring, Option.map_some, harea,
    hhead, haofhdr, hidfn, hsymEnt, hident]
  exact (congrArg (fun d => Decaof.Decoder.listing d (some file.idfn)) hdecoder).trans hlisting

end AofRun

/-- **Output_AOF, then decaof.** Every area, symbol and relocation of the file is listed as what it is, a
mapping symbol under the name of its kind. -/
theorem decode_outputAOF {job : AofJob} {file : AofFile} (h : outputAOF job = some file)
    (hdiags : ∀ d ∈ file.diags, d.tag ≠ .error)
    (hstart : 92 + file.head.length + file.idfn.length + file.strt.length + file.symt.length < 2 ^ 32)
    (hbelow : job.below (92 + file.head.length + file.idfn.length + file.strt.length + file.symt.length) job.written) :
    ∃ ids : List SymId, ids.Nodup ∧
      (∀ id, id ∈ ids ↔ id ∈ job.table.allSymbols ∧ needToOutputSymbol job.options (job.table.sym id) = true) ∧
      Decaof.decode file.bytes = some (job.listing ids) := by
  obtain ⟨run⟩ := outputAOF_inv h
  have hstrt := run.length_strt
  obtain ⟨ids, order⟩ := run.exists_order
  exact ⟨ids, order.nodup, order.mem_iff, run.decode_eq order hstart hdiags hbelow⟩

/-! ### A mapping symbol -/

/-- An area with an instruction, a mapping symbol for it, and a relocation to the area. -/
def mappedSymbols : SymbolTable where
  heap := .ofList [
    { str := cstr "code", type := symbolArea, value := .int 0 .pureInt,
      area := { type := 0x0202, maxIdx := 4, reloc := [⟨how2Init ||| 0x02000000, 0, some 0⟩] } },
    { str := cstr "$a$$0", type := symbolLocal, value := .symbol 0 1 0 }]
  bucket b := if b = 5 then [0, 1] else []

private theorem allSymbols_mappedSymbols : mappedSymbols.allSymbols = [0, 1] := by
  change ((List.range symbolTableSize).flatMap fun b => if b = 5 then [0, 1] else []) = [0, 1]
  decide +kernel

private theorem areas_mappedSymbols (id : SymId) :
    id ∈ [0] ↔ id ∈ mappedSymbols.allSymbols ∧ (mappedSymbols.sym id).isArea = true := by
  rw [allSymbols_mappedSymbols]
  rcases id with _ | _ | id
  · decide
  · decide
  · simp

private theorem names_mappedSymbols : ∀ id ∈ mappedSymbols.allSymbols, 0 ∉ (mappedSymbols.sym id).str := by
  intro id hid
  rw [allSymbols_mappedSymbols] at hid
  rcases List.mem_cons.mp hid with rfl | hid
  · change 0 ∉ cstr "code"
    decide
  · rw [List.mem_singleton.mp hid]
    change 0 ∉ cstr "$a$$0"
    decide

private theorem relative_mappedSymbols : ∀ id ∈ mappedSymbols.allSymbols, ∀ a factor offset,
    (mappedSymbols.sym id).value = .symbol a factor offset → a ∈ mappedSymbols.allSymbols := by
  intro id hid a factor offset h
  rw [allSymbols_mappedSymbols] at hid ⊢
  rcases List.mem_cons.mp hid with rfl | hid
  · cases h
  · obtain rfl := List.mem_singleton.mp hid
    obtain rfl : 0 = a := (Value.symbol.inj h).1
    exact List.mem_cons_self

private theorem optionAof_aof : SymbolOptions.optionAof { optionAof := true } = true := rfl

private theorem length_padding : [(0 : UInt8), 0, 0].length = 3 := rfl

/-- What `Output_AOF` is called with. -/
def mappedCode : AofJob where
  options := { optionAof := true }
  table := mappedSymbols
  areas := [0]
  image _ := [0, 0, 0xA0, 0xE1]
  areaEntrySymbol := none
  areaEntryOffset := 0
  idfn := cstr "id"
  behindIdfn := [0, 0, 0]
  unwritten _ := ⟨0, 0, 0, 0⟩
  aof := optionAof_aof
  symbols_nodup := by
    rw [allSymbols_mappedSymbols]
    decide
  offset_zero
    | 0 => rfl
    | 1 => rfl
    | _ + 2 => rfl
  areas_nodup := nodup_oneArea
  areas_iff := areas_mappedSymbols
  image_length id hid _ := by
    rw [List.mem_singleton.mp hid]
    rfl
  behindIdfn_length := length_padding
  names := names_mappedSymbols
  relocs id hid reloc hreloc := by
    rw [List.mem_singleton.mp hid] at hreloc
    obtain rfl : reloc = ⟨how2Init ||| 0x02000000, 0, some 0⟩ := List.mem_singleton.mp hreloc
    refine ⟨by decide, by decide, 0, ?_, rfl⟩
    rw [allSymbols_mappedSymbols]
    exact List.mem_cons_self
  relative := relative_mappedSymbols

theorem mappedCode_decoded : ∃ file ids, outputAOF mappedCode = some file ∧
    Decaof.decode file.bytes = some (mappedCode.listing ids) := by
  have hrun : (outputAOF mappedCode).map (fun file => (file.diags.length,
      92 + file.head.length + file.idfn.length + file.strt.length + file.symt.length)) = some (0, 184) := by
    decide +kernel
  obtain ⟨file, hfile, hlen⟩ := Option.map_eq_some_iff.mp hrun
  rw [Prod.mk.injEq] at hlen
  have hwritten : mappedCode.written = [0] := by decide
  have hdiags : file.diags = [] := List.length_eq_zero_iff.mp hlen.1
  obtain ⟨ids, -, -, hdecode⟩ := decode_outputAOF hfile (by rw [hdiags]; exact fun d hd => nomatch hd) (by omega)
    (by
      rw [hlen.2, hwritten]
      exact ⟨fun _ => by decide, fun _ => by decide, trivial⟩)
  exact ⟨file, ids, hfile, hdecode⟩

theorem mappedCode_name_lost : ∃ file listing, outputAOF mappedCode = some file ∧
    Decaof.decode file.bytes = some listing ∧ 1 ∈ mappedCode.table.allSymbols ∧
    needToOutputSymbol mappedCode.options (mappedCode.table.sym 1) = true ∧
    ∀ sym ∈ listing.symbols, sym.name ≠ some (mappedCode.table.sym 1).str := by
  have hrun : ((outputAOF mappedCode).bind fun file => Decaof.decode file.bytes).map
      (fun listing => listing.symbols.map Decaof.SymbolListing.name) = some [some (cstr "code"), some (cstr "$a")] := by
    decide +kernel
  obtain ⟨listing, hlisting, hnames⟩ := Option.map_eq_some_iff.mp hrun
  obtain ⟨file, hfile, hdecode⟩ := Option.bind_eq_some_iff.mp hlisting
  refine ⟨file, listing, hfile, hdecode, ?_, by decide, ?_⟩
  · rw [show mappedCode.table = mappedSymbols from rfl, allSymbols_mappedSymbols]
    exact List.mem_cons_of_mem _ List.mem_cons_self
  · intro sym hsym hname
    have hmem : sym.name ∈ [some (cstr "code"), some (cstr "$a")] := hnames ▸ List.mem_map_of_mem hsym
    rw [hname] at hmem
    revert hmem
    decide

end Asasm
