import Gccsdk.Asasm.OutputAOF
import Gccsdk.Asasm.SymbolBinding
import Gccsdk.Decaof.Decode
import Gccsdk.Lib.Address
import Mathlib.Algebra.BigOperators.Ring.List
import Mathlib.Algebra.Ring.Nat

/-!
# The chunks of an AOF file

What `outputAOF` writes, chunk by chunk, and what the header of the chunk file says about it
(`outputAOF_consistent_iff`): the entries of the header, as decaof reads them, describe the chunks that follow if and
only if the positions and sizes of the chunks are below 4 GiB.
-/

namespace Asasm

open TokenReader (Reads)

/-! ### Words -/

theorem reads_wordBytes (w : BitVec 32) : Reads Decaof.readWord (wordBytes w) w := by
  intro rest
  have hbyte (i : ℕ) : (w.extractLsb' (8 * i) 8).toNat = w.toNat / 2 ^ (8 * i) % 256 := by
    rw [BitVec.extractLsb'_toNat, Nat.shiftRight_eq_div_pow]
  have hlt := w.isLt
  have h0 := hbyte 0
  have h1 := hbyte 1
  have h2 := hbyte 2
  have h3 := hbyte 3
  have hvalue : (((w.extractLsb' (8 * 0) 8).setWidth 16 + (w.extractLsb' (8 * 1) 8).setWidth 16 <<< 8).setWidth 32 +
      ((w.extractLsb' (8 * 2) 8).setWidth 16 + (w.extractLsb' (8 * 3) 8).setWidth 16 <<< 8).setWidth 32 <<< 16) = w := by
    apply BitVec.eq_of_toNat_eq
    simp only [BitVec.toNat_add, BitVec.toNat_setWidth, BitVec.toNat_shiftLeft, Nat.shiftLeft_eq, h0, h1, h2, h3]
    omega
  exact Prod.ext hvalue rfl

@[simp] theorem length_wordBytes (w : BitVec 32) : (wordBytes w).length = 4 := rfl

/-! ### Padding -/

theorem toNat_fix4 (n : BitVec 32) : (fix4 n).toNat = (3 + n.toNat) % 2 ^ 32 / 4 * 4 := by
  unfold fix4
  refine (Address.toNat_roundDown _ 2).trans ?_
  rw [BitVec.toNat_add]
  rfl

theorem add_extra {n : ℕ} (hn : n < 2 ^ 32) :
    (n + (fix4 (BitVec.ofNat 32 n) - BitVec.ofNat 32 n).toNat) % 4 = 0 ∧
      (n + (fix4 (BitVec.ofNat 32 n) - BitVec.ofNat 32 n).toNat < 2 ^ 32 →
        (fix4 (BitVec.ofNat 32 n)).toNat = n + (fix4 (BitVec.ofNat 32 n) - BitVec.ofNat 32 n).toNat) := by
  have hfix := toNat_fix4 (BitVec.ofNat 32 n)
  rw [BitVec.toNat_ofNat, Nat.mod_eq_of_lt hn] at hfix
  rw [BitVec.toNat_sub, BitVec.toNat_ofNat, Nat.mod_eq_of_lt hn, hfix]
  omega

/-! ### Numbering the areas -/

theorem numberAofArea_sym (s : SymbolTable × ℕ) (id j : SymId) :
    ∃ number, (numberAofArea s id).1.sym j = (s.1.sym j).setAreaNumber number := by
  unfold numberAofArea
  split
  · exact ⟨_, rfl⟩
  · by_cases h : j = id
    · subst h
      exact ⟨_, SymbolTable.modify_sym_self _ _ _⟩
    · exact ⟨_, SymbolTable.modify_sym_of_ne _ _ _ h⟩

theorem foldl_numberAofArea_sym (ids : List SymId) (s : SymbolTable × ℕ) (j : SymId) :
    ∃ number, (ids.foldl numberAofArea s).1.sym j = (s.1.sym j).setAreaNumber number := by
  induction ids generalizing s with
  | nil => exact ⟨_, rfl⟩
  | cons id ids ih =>
    obtain ⟨a, ha⟩ := numberAofArea_sym s id j
    obtain ⟨b, hb⟩ := ih (numberAofArea s id)
    refine ⟨b, ?_⟩
    rw [List.foldl_cons, hb, ha]
    rfl

theorem foldl_numberAofArea_bucket (ids : List SymId) (s : SymbolTable × ℕ) :
    (ids.foldl numberAofArea s).1.bucket = s.1.bucket := by
  induction ids generalizing s with
  | nil => rfl
  | cons id ids ih =>
    rw [List.foldl_cons, ih, numberAofArea]
    split <;> rfl

theorem foldl_numberAofArea_of_not_mem {ids : List SymId} {j : SymId} (hj : j ∉ ids) (s : SymbolTable × ℕ) :
    (ids.foldl numberAofArea s).1.sym j = s.1.sym j := by
  induction ids generalizing s with
  | nil => rfl
  | cons id ids ih =>
    obtain ⟨hne, hids⟩ := not_or.mp (mt List.mem_cons.mpr hj)
    rw [List.foldl_cons, ih hids, numberAofArea]
    split
    · rfl
    · exact SymbolTable.modify_sym_of_ne _ _ _ hne

theorem foldl_numberAofArea {ids : List SymId} (hids : ids.Nodup) (s : SymbolTable × ℕ) :
    (ids.foldl numberAofArea s).2 = s.2 + (ids.filter fun id => !(s.1.sym id).isImplicit).length ∧
      ∀ k id, (ids.filter fun id => !(s.1.sym id).isImplicit)[k]? = some id →
        ((ids.foldl numberAofArea s).1.sym id).area.number = BitVec.ofNat 32 (s.2 + k) := by
  induction ids generalizing s with
  | nil => exact ⟨rfl, fun k id h => by simp at h⟩
  | cons id ids ih =>
    obtain ⟨hid, hids⟩ := List.nodup_cons.mp hids
    obtain ⟨hcount, hnumber⟩ := ih hids (numberAofArea s id)
    -- the areas that follow are written as before
    have hsame : (ids.filter fun j => !((numberAofArea s id).1.sym j).isImplicit) =
        ids.filter fun j => !(s.1.sym j).isImplicit := by
      refine List.filter_congr fun j _ => ?_
      obtain ⟨_, hj⟩ := numberAofArea_sym s id j
      rw [hj]
      rfl
    rw [hsame] at hcount hnumber
    rw [List.foldl_cons]
    cases himplicit : (s.1.sym id).isImplicit with
    | true =>
      have hstep : numberAofArea s id = s := if_pos himplicit
      rw [hstep] at hcount hnumber ⊢
      rw [List.filter_cons_of_neg (by rw [himplicit]; exact Bool.false_ne_true)]
      exact ⟨hcount, hnumber⟩
    | false =>
      have hstep : numberAofArea s id =
          (s.1.modify id (Symbol.setAreaNumber (BitVec.ofNat 32 s.2)), s.2 + 1) :=
        if_neg (by rw [himplicit]; exact Bool.false_ne_true)
      rw [List.filter_cons_of_pos (by rw [himplicit]; rfl), List.length_cons]
      refine ⟨?_, ?_⟩
      · rw [hcount, hstep]
        dsimp only
        omega
      · intro k j hk
        cases k with
        | zero =>
          cases hk
          rw [foldl_numberAofArea_of_not_mem hid, hstep]
          dsimp only
          rw [SymbolTable.modify_sym_self]
          rfl
        | succ k =>
          rw [hnumber k j hk, hstep]
          dsimp only
          rw [Nat.add_right_comm, Nat.add_assoc]

/-! ### What is written -/

/-- The parts of a run of `outputAOF`. -/
structure AofRun (job : AofJob) (file : AofFile) where
  symOut : SymbolOut
  table : SymbolTable
  diags : List Diag
  entries : List (List UInt8)
  symData : List (Option AofSymbol)
  areas : List (List UInt8)
  symbols : symbolCreateSymbolOut job.options job.numbered.1 = some (symOut, table, diags)
  areaEntries : job.written.mapM (fun id => aofAreaEntry (table.sym id)) = some entries
  symData_eq : symOut.symData = .aof symData
  areaData : job.written.mapM (aofAreaData table job.image) = some areas
  chunkHeader : file.chunkHeader = aofChunkHeader (24 + job.numbered.2 * 20) (fixSize (job.idfn.length + 1))
    (fix4 (BitVec.ofNat 32 symOut.strData.length)).toNat (symOut.numAllSymbols * 16) job.totalAreaSize
  head : file.head = aofHeader job table job.numbered.2 symOut.numAllSymbols ++ entries.flatten
  idfn : file.idfn = (job.idfn ++ 0 :: job.behindIdfn).take (fixSize (job.idfn.length + 1))
  strt : file.strt = symOut.strData ++ List.replicate
    (fix4 (BitVec.ofNat 32 symOut.strData.length) - BitVec.ofNat 32 symOut.strData.length).toNat 0
  symt : file.symt = aofSymbolBytes job.unwritten symData
  area : file.area = areas.flatten
  diags_eq : file.diags = diags

theorem outputAOF_inv {job : AofJob} {file : AofFile} (h : outputAOF job = some file) : Nonempty (AofRun job file) := by
  simp only [outputAOF, Option.bind_eq_bind, Option.bind_eq_some_iff, Option.pure_def, Option.some.injEq] at h
  obtain ⟨⟨symOut, table, diags⟩, hsymbols, entries, hentries, symData, hdata, areas, hareas, rfl⟩ := h
  have hsymData : symOut.symData = .aof symData := by
    unfold SymData.aofEntries at hdata
    dsimp only at hdata
    split at hdata
    next entries heq => rw [heq, Option.some.inj hdata]
    next => cases hdata
  exact ⟨⟨symOut, table, diags, entries, symData, areas, hsymbols, hentries, hsymData, hareas, rfl, rfl, rfl, rfl, rfl,
    rfl, rfl⟩⟩

/-! ### The header of the chunk file -/

def aofChunkent (type : BitVec 32) (size offset : ℕ) : Decaof.ChunkEnt where
  chunkid := wordBytes chunkIdObj ++ wordBytes type
  offset := BitVec.ofNat 32 offset
  size := BitVec.ofNat 32 size

theorem reads_writeEntry (type : BitVec 32) (size offset : ℕ) :
    Reads Decaof.readChunkent (writeEntry type size offset) (aofChunkent type size offset) := by
  have hid : Reads (TokenReader.take 8) (wordBytes chunkIdObj ++ wordBytes type)
      (wordBytes chunkIdObj ++ wordBytes type) := Reads.take rfl
  have hentry : writeEntry type size offset = wordBytes chunkIdObj ++ wordBytes type ++
      (wordBytes (BitVec.ofNat 32 offset) ++ (wordBytes (BitVec.ofNat 32 size) ++ [])) := by
    unfold writeEntry
    rw [List.append_nil, List.append_assoc _ _ (wordBytes (BitVec.ofNat 32 size))]
  rw [hentry]
  exact hid.bind ((reads_wordBytes _).bind ((reads_wordBytes _).bind (Reads.pure _)))

def aofChunkents (headSize idfnSize strtSize symtSize areaSize : ℕ) : List Decaof.ChunkEnt :=
  [aofChunkent chunkIdObjHead headSize 92, aofChunkent chunkIdObjIdfn idfnSize (92 + headSize),
    aofChunkent chunkIdObjStrt strtSize (92 + headSize + idfnSize),
    aofChunkent chunkIdObjSymt symtSize (92 + headSize + idfnSize + strtSize),
    aofChunkent chunkIdObjArea areaSize (92 + headSize + idfnSize + strtSize + symtSize)]

theorem length_aofChunkHeader (headSize idfnSize strtSize symtSize areaSize : ℕ) :
    (aofChunkHeader headSize idfnSize strtSize symtSize areaSize).length = 92 := rfl

theorem read_aofChunkHeader (headSize idfnSize strtSize symtSize areaSize : ℕ) (rest : List UInt8) :
    TokenReader.readAt Decaof.readChunkhdr (aofChunkHeader headSize idfnSize strtSize symtSize areaSize ++ rest) 0 =
        ⟨chunkFileID, 5, 5⟩ ∧
      Decaof.readChunkents (aofChunkHeader headSize idfnSize strtSize symtSize areaSize ++ rest) ⟨chunkFileID, 5, 5⟩ =
        some (aofChunkents headSize idfnSize strtSize symtSize areaSize) := by
  have hhdr : Reads Decaof.readChunkhdr (wordBytes chunkFileID ++ (wordBytes 5 ++ (wordBytes 5 ++ [])))
      ⟨chunkFileID, 5, 5⟩ :=
    (reads_wordBytes _).bind ((reads_wordBytes _).bind ((reads_wordBytes _).bind (Reads.pure _)))
  have hitems : ∀ i ∈ [(chunkIdObjHead, headSize, 92), (chunkIdObjIdfn, idfnSize, 92 + headSize),
      (chunkIdObjStrt, strtSize, 92 + headSize + idfnSize),
      (chunkIdObjSymt, symtSize, 92 + headSize + idfnSize + strtSize),
      (chunkIdObjArea, areaSize, 92 + headSize + idfnSize + strtSize + symtSize)],
      Reads Decaof.readChunkent (writeEntry i.1 i.2.1 i.2.2) (aofChunkent i.1 i.2.1 i.2.2) :=
    fun i _ => reads_writeEntry i.1 i.2.1 i.2.2
  have hents := Reads.times hitems
  simp only [List.flatMap_cons, List.flatMap_nil, List.append_nil] at hents
  have hheader : aofChunkHeader headSize idfnSize strtSize symtSize areaSize ++ rest =
      (wordBytes chunkFileID ++ (wordBytes 5 ++ (wordBytes 5 ++ []))) ++
        ((writeEntry chunkIdObjHead headSize 92 ++ (writeEntry chunkIdObjIdfn idfnSize (92 + headSize) ++
          (writeEntry chunkIdObjStrt strtSize (92 + headSize + idfnSize) ++
            (writeEntry chunkIdObjSymt symtSize (92 + headSize + idfnSize + strtSize) ++
              writeEntry chunkIdObjArea areaSize (92 + headSize + idfnSize + strtSize + symtSize))))) ++ rest) := by
    unfold aofChunkHeader
    simp only [List.append_assoc, List.append_nil]
  rw [hheader]
  constructor
  · exact hhdr.readAt_zero
  · exact congrArg some (Reads.readAt hents (List.length_append.trans rfl))

/-! ### The length of each chunk -/

private theorem length_flatten_of_forall {α : Type} {n : ℕ} {pieces : List (List α)}
    (h : ∀ piece ∈ pieces, piece.length = n) : pieces.flatten.length = n * pieces.length := by
  induction pieces with
  | nil => rfl
  | cons piece pieces ih =>
    rw [List.flatten_cons, List.length_append, h piece List.mem_cons_self,
      ih fun p hp => h p (List.mem_cons_of_mem _ hp), List.length_cons, Nat.mul_succ, Nat.add_comm]

private theorem exists_of_mem_mapM {α β : Type} {f : α → Option β} {xs : List α} {ys : List β}
    (h : xs.mapM f = some ys) : ys.length = xs.length ∧ ∀ y ∈ ys, ∃ x ∈ xs, f x = some y := by
  have hall := forall₂_of_mapM_eq_some h
  refine ⟨hall.length_eq.symm, fun y hy => ?_⟩
  clear h
  induction hall with
  | nil => cases hy
  | cons hxy _ ih =>
    rcases List.mem_cons.mp hy with rfl | hy
    · exact ⟨_, List.mem_cons_self, hxy⟩
    · obtain ⟨x, hx, heq⟩ := ih hy
      exact ⟨x, List.mem_cons_of_mem _ hx, heq⟩

private theorem length_aofAreaEntry {ap : Symbol} {bytes : List UInt8} (h : aofAreaEntry ap = some bytes) :
    bytes.length = 20 := by
  simp only [aofAreaEntry, Option.bind_eq_bind, Option.bind_eq_some_iff, Option.pure_def, Option.some.injEq] at h
  obtain ⟨base, -, rfl⟩ := h
  rfl

private theorem length_aofReloc {table : SymbolTable} {reloc : RelocInt} {bytes : List UInt8}
    (h : aofReloc table reloc = some bytes) : bytes.length = 8 := by
  simp only [aofReloc, Option.bind_eq_bind, Option.bind_eq_some_iff, Option.pure_def, Option.some.injEq] at h
  obtain ⟨_, -, _, -, rfl⟩ := h
  rfl

def Area.paddedLength (area : Area) : ℕ :=
  if area.isNoInit then 0 else area.maxIdx.toNat + (fix4 area.maxIdx - area.maxIdx).toNat

theorem Area.paddedLength_mod (area : Area) : area.paddedLength % 4 = 0 := by
  unfold Area.paddedLength
  split
  · rfl
  · have h := (add_extra area.maxIdx.isLt).1
    rwa [BitVec.ofNat_toNat, BitVec.setWidth_eq] at h

theorem Area.aofSize_eq {area : Area} (h : area.paddedLength < 2 ^ 32) :
    area.aofSize = area.paddedLength + area.rawRelocSize := by
  unfold Area.paddedLength at h ⊢
  unfold Area.aofSize
  split
  · rfl
  · next hinit =>
    rw [if_neg hinit] at h
    have hextra := (add_extra area.maxIdx.isLt).2
    rw [BitVec.ofNat_toNat, BitVec.setWidth_eq] at hextra
    rw [hextra h]

private theorem length_aofAreaData {table : SymbolTable} {image : SymId → List UInt8} {id : SymId} {bytes : List UInt8}
    (himage : (table.sym id).area.isNoInit = false → (image id).length = (table.sym id).area.maxIdx.toNat)
    (h : aofAreaData table image id = some bytes) :
    bytes.length = (table.sym id).area.paddedLength + (table.sym id).area.rawRelocSize := by
  simp only [aofAreaData, Option.bind_eq_bind, Option.bind_eq_some_iff, Option.pure_def, Option.some.injEq] at h
  obtain ⟨relocs, hrelocs, rfl⟩ := h
  obtain ⟨hlen, hmem⟩ := exists_of_mem_mapM hrelocs
  have hrelocsLen : relocs.flatten.length = 8 * relocs.length := by
    refine length_flatten_of_forall fun piece hpiece => ?_
    obtain ⟨reloc, -, hreloc⟩ := hmem piece hpiece
    exact length_aofReloc hreloc
  rw [List.length_append, hrelocsLen, hlen]
  unfold Area.paddedLength Area.rawRelocSize
  congr 1
  cases hinit : (table.sym id).area.isNoInit with
  | true => rfl
  | false =>
    rw [if_neg Bool.false_ne_true, if_neg Bool.false_ne_true, List.length_append, List.length_replicate, himage hinit]

/-! ### The symbols of a run -/

/-- **The parts of a run of `symbolCreateSymbolOut` for AOF**, with the symbols in their order in the file. -/
theorem symbolCreateSymbolOut_aof {o : SymbolOptions} {t t' : SymbolTable} {out : SymbolOut} {diags : List Diag}
    (ho : o.optionAof = true) (h : symbolCreateSymbolOut o t = some (out, t', diags)) :
    ∃ ids size maps rs checkDiags,
      ids.length = out.numAllSymbols ∧
      (∀ id, id ∈ ids ↔ id ∈ t.allSymbols ∧ needToOutputSymbol o (t.sym id) = true) ∧
      (t.allSymbols.Nodup → ids.Nodup) ∧
      assignOffsets true ⟨4, fun _ => none, t.markUsed o⟩ 0 ids = some ⟨size, maps, t'⟩ ∧
      symbolBuildStringData true t'.heap size ids = some out.strData ∧
      ids.mapM (fun id => aofSymbolEntry o t'.heap (t'.heap.sym id)) = some rs ∧
      out.symData = .aof (rs.map Prod.fst) ∧
      diags = checkDiags ++ rs.flatMap Prod.snd := by
  simp only [symbolCreateSymbolOut, Option.bind_eq_bind, Option.bind_eq_some_iff, Option.pure_def, assert_eq_some,
    Bool.and_eq_true, beq_iff_eq, Option.some.injEq, Prod.mk.injEq, ho, if_true] at h
  obtain ⟨checkDiags, -, _, ⟨-, hnum⟩, locals, hlocals, globals, hglobals, s, hassign, strData, hstr,
    ⟨symData, symDiags⟩, hsym, rfl, rfl, rfl⟩ := h
  simp only [symbolBuildSymbolData, ho, if_true, Option.bind_eq_bind, Option.bind_eq_some_iff, Option.pure_def,
    Option.some.injEq, Prod.mk.injEq] at hsym
  obtain ⟨rs, hrs, rfl, rfl⟩ := hsym
  simp only [orderSymbols, if_true] at hassign hstr hrs
  refine ⟨globals ++ locals, s.strDataSize, s.mapSymbols, rs, checkDiags.flatten, ?_, ?_, ?_, hassign, hstr, hrs, rfl,
    rfl⟩
  · have hundefined : undefinedSymbols true = 0 := rfl
    rw [hundefined] at hnum ⊢
    dsimp only
    rw [List.length_append, length_sortSymbols hlocals, length_sortSymbols hglobals]
    omega
  · intro id
    rw [List.mem_append, mem_sortSymbols hlocals, mem_sortSymbols hglobals, t.mem_listed_markUsed, t.mem_listed_markUsed]
    cases (t.sym id).isLocalPart <;> simp
  · intro hnodup
    have hall : (t.markUsed o).allSymbols = t.allSymbols := by
      rw [SymbolTable.allSymbols, (markUsed_outputOnly o t).bucket, SymbolTable.allSymbols]
    have hpart (isLocal : Bool) : ((t.markUsed o).listed isLocal).Nodup := by
      unfold SymbolTable.listed
      rw [hall]
      exact hnodup.filter _
    have hperm {ids sorted : List SymId} (h : sortSymbols true (t.markUsed o).heap ids = some sorted)
        (hids : ids.Nodup) : sorted.Nodup := by
      simp only [sortSymbols, Option.bind_eq_bind, Option.bind_eq_some_iff, Option.pure_def, Option.some.injEq] at h
      obtain ⟨_, -, rfl⟩ := h
      exact (List.perm_insertionSort _ _).nodup_iff.mpr hids
    refine List.nodup_append.mpr ⟨hperm hglobals (hpart _), hperm hlocals (hpart _), ?_⟩
    rintro a ha b hb rfl
    rw [mem_sortSymbols hglobals, t.mem_listed_markUsed] at ha
    rw [mem_sortSymbols hlocals, t.mem_listed_markUsed] at hb
    exact Bool.false_ne_true (ha.2.2.symm.trans hb.2.2)

private theorem length_aofSymbolBytes (unwritten : ℕ → AofSymbol) (entries : List (Option AofSymbol)) :
    (aofSymbolBytes unwritten entries).length = 16 * entries.length := by
  unfold aofSymbolBytes
  rw [length_flatten_of_forall, List.length_mapIdx]
  intro piece hpiece
  obtain ⟨i, hi, rfl⟩ := List.mem_mapIdx.mp hpiece
  rfl

theorem AofJob.numAreas (job : AofJob) : job.numbered.2 = job.written.length := by
  have h := (foldl_numberAofArea job.areas_nodup (job.table, 0)).1
  rw [Nat.zero_add] at h
  exact h

namespace AofRun

variable {job : AofJob} {file : AofFile} (run : AofRun job file)
include run

theorem table_sym (id : SymId) : ∃ number offset used,
    run.table.sym id = { job.table.sym id with area := { (job.table.sym id).area with number }, offset, used } := by
  obtain ⟨number, hnumber⟩ := foldl_numberAofArea_sym job.areas (job.table, 0) id
  obtain ⟨offset, used, heq⟩ := (symbolCreateSymbolOut_outputOnly run.symbols).sym id
  refine ⟨number, offset, used, ?_⟩
  rw [heq]
  unfold AofJob.numbered
  rw [hnumber]
  rfl

theorem length_chunkHeader : file.chunkHeader.length = 92 := by
  rw [run.chunkHeader, length_aofChunkHeader]

theorem length_head : file.head.length = 24 + job.written.length * 20 := by
  obtain ⟨hlen, hmem⟩ := exists_of_mem_mapM run.areaEntries
  have hentries : run.entries.flatten.length = 20 * run.entries.length := by
    refine length_flatten_of_forall fun piece hpiece => ?_
    obtain ⟨id, -, hentry⟩ := hmem piece hpiece
    exact length_aofAreaEntry hentry
  rw [run.head, List.length_append, hentries, hlen]
  change 24 + _ = _
  omega

theorem length_idfn : file.idfn.length = fixSize (job.idfn.length + 1) := by
  have hbehind := job.behindIdfn_length
  rw [run.idfn, List.length_take, List.length_append, List.length_cons, hbehind]
  unfold fixSize
  omega

theorem length_strt : file.strt.length = run.symOut.strData.length +
    (fix4 (BitVec.ofNat 32 run.symOut.strData.length) - BitVec.ofNat 32 run.symOut.strData.length).toNat := by
  rw [run.strt, List.length_append, List.length_replicate]

theorem length_symt : file.symt.length = run.symOut.numAllSymbols * 16 := by
  obtain ⟨ids, _, _, rs, _, hlen, -, -, -, -, hrs, hdata, -⟩ := symbolCreateSymbolOut_aof job.aof run.symbols
  rw [run.symt, length_aofSymbolBytes, SymData.aof.inj (run.symData_eq.symm.trans hdata), List.length_map, (exists_of_mem_mapM hrs).1, hlen]
  exact Nat.mul_comm _ _

theorem length_areaData {id : SymId} (hid : id ∈ job.areas) {bytes : List UInt8}
    (hdata : aofAreaData run.table job.image id = some bytes) :
    bytes.length = (job.table.sym id).area.paddedLength + (job.table.sym id).area.rawRelocSize := by
  obtain ⟨number, offset, used, hsym⟩ := run.table_sym id
  have himage := job.image_length id hid
  have hlen : bytes.length = (run.table.sym id).area.paddedLength + (run.table.sym id).area.rawRelocSize := by
    refine length_aofAreaData ?_ hdata
    rw [hsym]
    exact himage
  rw [hsym] at hlen
  exact hlen

theorem length_area : file.area.length =
    (job.written.map fun id => (job.table.sym id).area.paddedLength + (job.table.sym id).area.rawRelocSize).sum := by
  have hall := forall₂_of_mapM_eq_some run.areaData
  have hwritten : ∀ id ∈ job.written, id ∈ job.areas := fun id hid => (List.mem_filter.mp hid).1
  rw [run.area]
  generalize job.written = ids at hall hwritten
  generalize run.areas = areas at hall
  induction hall with
  | nil => rfl
  | @cons id bytes ids areas hdata _ ih =>
    have hlen := run.length_areaData (hwritten id List.mem_cons_self) hdata
    rw [List.flatten_cons, List.length_append, ih fun j hj => hwritten j (List.mem_cons_of_mem _ hj), List.map_cons,
      List.sum_cons, hlen]

theorem totalAreaSize (h : file.area.length < 2 ^ 32) : job.totalAreaSize = file.area.length := by
  rw [run.length_area] at h ⊢
  unfold AofJob.totalAreaSize
  generalize job.written = ids at h
  induction ids with
  | nil => rfl
  | cons id ids ih =>
    rw [List.map_cons, List.sum_cons] at h ⊢
    rw [List.map_cons, List.sum_cons, ih (by omega), Area.aofSize_eq (by omega)]

theorem length_bytes : file.bytes.length = 92 + file.head.length + file.idfn.length + file.strt.length +
    file.symt.length + file.area.length := by
  unfold AofFile.bytes
  simp only [List.length_append, run.length_chunkHeader]

end AofRun

/-! ### The header describes the chunks -/

def AofFile.chunks (file : AofFile) : List (List UInt8 × List UInt8) :=
  [(cstr "OBJ_HEAD", file.head), (cstr "OBJ_IDFN", file.idfn), (cstr "OBJ_STRT", file.strt),
    (cstr "OBJ_SYMT", file.symt), (cstr "OBJ_AREA", file.area)]

/-- **Entries describe chunks**, which lie one behind the other between two positions, at multiples of 4. -/
inductive Describe : ℕ → List Decaof.ChunkEnt → List (List UInt8 × List UInt8) → ℕ → Prop
  | nil {pos : ℕ} : pos % 4 = 0 → Describe pos [] [] pos
  | cons {pos last : ℕ} {e : Decaof.ChunkEnt} {es : List Decaof.ChunkEnt} {name data : List UInt8}
      {chunks : List (List UInt8 × List UInt8)} :
      e.chunkid = name → e.offset.toNat = pos → e.size.toNat = data.length → pos % 4 = 0 →
      Describe (pos + data.length) es chunks last → Describe pos (e :: es) ((name, data) :: chunks) last

/-- **The file is consistent**: its first chunk has an entry for each written area, and the entries of the header,
as they are read from the file, describe the chunks from the end of the header to the end of the file. -/
structure AofFile.Consistent (file : AofFile) (job : AofJob) : Prop where
  head : file.head.length = 24 + job.written.length * 20
  entries : ∃ hdr es, TokenReader.readAt Decaof.readChunkhdr file.bytes 0 = hdr ∧ hdr.chunkfileid = chunkFileID ∧
    hdr.numchunks = 5 ∧ Decaof.readChunkents file.bytes hdr = some es ∧
    Describe 92 es file.chunks file.bytes.length

theorem AofRun.read_header {job : AofJob} {file : AofFile} (run : AofRun job file) :
    TokenReader.readAt Decaof.readChunkhdr file.bytes 0 = ⟨chunkFileID, 5, 5⟩ ∧
      Decaof.readChunkents file.bytes ⟨chunkFileID, 5, 5⟩ = some (aofChunkents file.head.length file.idfn.length
        (fix4 (BitVec.ofNat 32 run.symOut.strData.length)).toNat file.symt.length job.totalAreaSize) := by
  have hread := read_aofChunkHeader (24 + job.numbered.2 * 20) (fixSize (job.idfn.length + 1))
    (fix4 (BitVec.ofNat 32 run.symOut.strData.length)).toNat (run.symOut.numAllSymbols * 16) job.totalAreaSize
    (file.head ++ file.idfn ++ file.strt ++ file.symt ++ file.area)
  have hfile : file.chunkHeader ++ (file.head ++ file.idfn ++ file.strt ++ file.symt ++ file.area) = file.bytes := by
    unfold AofFile.bytes
    simp only [List.append_assoc]
  rw [← run.chunkHeader, hfile, job.numAreas, ← run.length_head, ← run.length_idfn, ← run.length_symt] at hread
  exact hread

theorem AofRun.toNat_fix4_strData {job : AofJob} {file : AofFile} (run : AofRun job file)
    (h : file.strt.length < 2 ^ 32) :
    (fix4 (BitVec.ofNat 32 run.symOut.strData.length)).toNat = file.strt.length ∧ file.strt.length % 4 = 0 := by
  have hlen := run.length_strt
  have hextra := add_extra (show run.symOut.strData.length < 2 ^ 32 by omega)
  rw [← hlen] at hextra
  exact ⟨hextra.2 h, hextra.1⟩

theorem AofRun.consistent_iff {job : AofJob} {file : AofFile} (run : AofRun job file) :
    file.Consistent job ↔
      92 + file.head.length + file.idfn.length + file.strt.length + file.symt.length < 2 ^ 32 ∧
        file.area.length < 2 ^ 32 := by
  have hhead := run.length_head
  have hidfn := run.length_idfn
  have hsymt := run.length_symt
  have hbytes := run.length_bytes
  have hread := run.read_header
  constructor
  · rintro ⟨-, hdr, es, rfl, -, -, hes, hdescribe⟩
    rw [hread.1, hread.2] at hes
    obtain rfl := Option.some.inj hes
    -- the fields of the last entry are words
    cases hdescribe with
    | cons _ _ _ _ hdescribe =>
      cases hdescribe with
      | cons _ _ _ _ hdescribe =>
        cases hdescribe with
        | cons _ _ _ _ hdescribe =>
          cases hdescribe with
          | cons _ _ _ _ hdescribe =>
            cases hdescribe with
            | cons _ hoffset hsize _ _ =>
              exact ⟨hoffset ▸ BitVec.isLt _, hsize ▸ BitVec.isLt _⟩
  · rintro ⟨hstart, harea⟩
    obtain ⟨hstrt, hstrt4⟩ := run.toNat_fix4_strData (by omega)
    rw [hstrt, run.totalAreaSize harea] at hread
    have hidfn4 : file.idfn.length % 4 = 0 := by
      rw [hidfn]
      exact Nat.mul_mod_left _ _
    have harea4 : file.area.length % 4 = 0 := by
      rw [run.length_area]
      apply Nat.mod_eq_zero_of_dvd
      apply List.dvd_sum
      intro n hn
      obtain ⟨id, -, rfl⟩ := List.mem_map.mp hn
      have hpadded := (job.table.sym id).area.paddedLength_mod
      unfold Area.rawRelocSize
      omega
    have hword {n : ℕ} (hn : n < 2 ^ 32) : (BitVec.ofNat 32 n).toNat = n := by
      rw [BitVec.toNat_ofNat, Nat.mod_eq_of_lt hn]
    refine ⟨hhead, _, _, hread.1, rfl, rfl, hread.2, ?_⟩
    rw [hbytes]
    refine .cons rfl (hword (by omega)) (hword (by omega)) (by omega) ?_
    refine .cons rfl (hword (by omega)) (hword (by omega)) (by omega) ?_
    refine .cons rfl (hword (by omega)) (hword (by omega)) (by omega) ?_
    refine .cons rfl (hword (by omega)) (hword (by omega)) (by omega) ?_
    refine .cons rfl (hword (by omega)) (hword (by omega)) (by omega) ?_
    exact .nil (by omega)

/-- **Output_AOF**: the header describes the chunks if and only if the last one, the data of the areas, begins below
4 GiB and is shorter than that. -/
theorem outputAOF_consistent_iff {job : AofJob} {file : AofFile} (h : outputAOF job = some file) :
    file.Consistent job ↔
      92 + file.head.length + file.idfn.length + file.strt.length + file.symt.length < 2 ^ 32 ∧
        file.area.length < 2 ^ 32 := by
  obtain ⟨run⟩ := outputAOF_inv h
  exact run.consistent_iff

/-- The symbols of two areas with `n` bytes each. -/
def twoAreaSymbols (n : BitVec 32) : SymbolTable where
  heap := .ofList [
    { str := cstr "a", type := symbolArea, value := .int 0 .pureInt, area := { type := 2, maxIdx := n } },
    { str := cstr "b", type := symbolArea, value := .int 0 .pureInt, area := { type := 2, maxIdx := n } }]
  bucket b := if b = 5 then [0, 1] else []

private theorem allSymbols_twoAreaSymbols (n : BitVec 32) : (twoAreaSymbols n).allSymbols = [0, 1] := by
  change ((List.range symbolTableSize).flatMap fun b => if b = 5 then [0, 1] else []) = [0, 1]
  decide +kernel

/-- Two areas of `n` zeros. -/
def twoAreas (n : BitVec 32) : AofJob where
  options := { optionAof := true }
  table := twoAreaSymbols n
  areas := [0, 1]
  image _ := List.replicate n.toNat 0
  areaEntrySymbol := none
  areaEntryOffset := 0
  idfn := cstr "id"
  behindIdfn := [0, 0, 0]
  unwritten _ := ⟨0, 0, 0, 0⟩
  aof := rfl
  symbols_nodup := by
    rw [allSymbols_twoAreaSymbols]
    decide
  offset_zero
    | 0 => rfl
    | 1 => rfl
    | _ + 2 => rfl
  areas_nodup := by decide
  areas_iff id := by
    rw [allSymbols_twoAreaSymbols]
    refine ⟨fun hid => ⟨hid, ?_⟩, And.left⟩
    rcases List.mem_cons.mp hid with rfl | hid
    · change isSet symbolArea symbolArea = true
      decide
    · rw [List.mem_singleton.mp hid]
      change isSet symbolArea symbolArea = true
      decide
  image_length id hid _ := by
    rw [List.length_replicate]
    rcases List.mem_cons.mp hid with rfl | hid
    · rfl
    · rw [List.mem_singleton.mp hid]
      rfl
  behindIdfn_length := rfl
  names id hid := by
    rw [allSymbols_twoAreaSymbols] at hid
    rcases List.mem_cons.mp hid with rfl | hid
    · change 0 ∉ cstr "a"
      decide
    · rw [List.mem_singleton.mp hid]
      change 0 ∉ cstr "b"
      decide
  relocs id hid reloc hreloc := by
    rcases List.mem_cons.mp hid with rfl | hid
    · cases hreloc
    · rw [List.mem_singleton.mp hid] at hreloc
      cases hreloc
  relative
    | 0, _, _, _, _, h => nomatch h
    | 1, _, _, _, _, h => nomatch h
    | _ + 2, _, _, _, _, h => nomatch h

theorem twoAreas_consistent : ∃ file, outputAOF (twoAreas 4) = some file ∧ file.Consistent (twoAreas 4) := by
  have hrun : (outputAOF (twoAreas 4)).map (fun file => (file.bytes.length, file.area.length)) = some (208, 8) := by
    decide +kernel
  obtain ⟨file, hfile, hlen⟩ := Option.map_eq_some_iff.mp hrun
  obtain ⟨run⟩ := outputAOF_inv hfile
  have hbytes := run.length_bytes
  rw [Prod.mk.injEq] at hlen
  exact ⟨file, hfile, (outputAOF_consistent_iff hfile).mpr (by omega)⟩

theorem twoAreas_not_consistent :
    ∃ file, outputAOF (twoAreas 0x80000000) = some file ∧ ¬file.Consistent (twoAreas 0x80000000) := by
  have hrun : (outputAOF (twoAreas 0x80000000)).isSome = true := by decide +kernel
  obtain ⟨file, hfile⟩ := Option.isSome_iff_exists.mp hrun
  obtain ⟨run⟩ := outputAOF_inv hfile
  have harea : file.area.length = 2 ^ 32 := run.length_area.trans (by decide)
  refine ⟨file, hfile, fun hconsistent => ?_⟩
  have hlt := (run.consistent_iff.mp hconsistent).2
  omega

end Asasm
