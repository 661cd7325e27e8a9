import Gccsdk.UnixLib.StdioRead
import Gccsdk.UnixLib.StdioWrite

/-!
# Written and read back

A file that is written through one stream and read through another, each with a buffer of its own. What the
calls of the first one have written (`WriteOp.bytes`) comes back character by character from the second one, and
behind the last character the end of the file (`written_readBack`). The two halves meet at the plain file: what
the run of writes leaves of it is `plainRun_bytes`, and what a run of reads takes from it `plainReadRun_fgetc`.
-/

namespace UnixLib

variable {fuel : ℕ}

/-- What a call that does not seek writes. -/
def WriteOp.bytes : WriteOp → List UInt8
  | .fwrite o => o.data
  | .fputc c => [c]
  | _ => []

def WriteOp.seeks : WriteOp → Bool
  | .fseek .. => true
  | _ => false

/-- **Plain writing without seeks**: the bytes of the calls, one after the other. -/
theorem plainRun_bytes (append : Bool) : ∀ {calls : List (WriteOp × StdioOs)} {p : PlainFile},
    p.error = false → (∀ call ∈ calls, call.1.seeks = false) →
      (plainRun append calls p).1.file = p.file.write append (calls.flatMap fun call => call.1.bytes)
  | [], p, _, _ => ByteFile.write_nil.symm
  | (op, os) :: rest, p, herror, hseeks => by
    have hstep : plainStep append os op p = ({ p with file := p.file.write append op.bytes },
        (plainStep append os op p).2) := by
      cases op with
      | fwrite o =>
        unfold plainStep
        dsimp only
        by_cases hnil : o.data.length = 0
        · rw [if_pos (by simp [hnil]), WriteOp.bytes, List.length_eq_zero_iff.mp hnil, ByteFile.write_nil]
        · rw [if_neg (by simp [herror, hnil])]
          rfl
      | fputc c => rfl
      | fflush =>
        change _ = ({ p with file := p.file.write append [] }, _)
        rw [ByteFile.write_nil]
        rfl
      | fseek offset w => exact nomatch hseeks _ (List.mem_cons_self ..)
    have ih : (plainRun append rest { p with file := p.file.write append op.bytes }).1.file = _ :=
      plainRun_bytes append herror fun call hcall => hseeks call (List.mem_cons_of_mem _ hcall)
    rw [plainRun, hstep]
    dsimp only
    rw [ih, ByteFile.write_write, List.flatMap_cons]

theorem content_write_empty (append : Bool) (data : List UInt8) :
    ((⟨[], 0, Nat.zero_le _⟩ : ByteFile).write append data).content = data := by
  unfold ByteFile.write
  split
  · rename_i hnil
    exact hnil.symm
  · cases append <;> simp [ByteFile.put, ByteFile.toEnd]

/-- **Plain reading, character by character.** -/
theorem plainReadRun_fgetc : ∀ {gets : List StdioOs} {p : PlainReader}, p.pushed = none →
    (plainReadRun (gets.map fun os => (.fgetc, os)) p).2 =
      (List.range gets.length).map fun i => .char p.file.rest[i]?
  | [], _, _ => rfl
  | os :: gets, p, hpushed => by
    have hahead : p.ahead = p.file.rest := by
      rw [PlainReader.ahead, hpushed]
      rfl
    have hskip : p.skip 1 = ⟨p.file.advance 1, none⟩ := by
      rw [PlainReader.skip, if_neg Nat.one_ne_zero, hpushed]
      rfl
    rw [List.map_cons, plainReadRun]
    dsimp only [plainReadStep]
    rw [hskip, plainReadRun_fgetc rfl, hahead, List.head?_eq_getElem?, List.length_cons,
      List.range_succ_eq_map, List.map_cons, List.map_map]
    refine congrArg _ (List.map_congr_left fun i _ => ?_)
    rw [Function.comp_apply, ByteFile.rest_advance, List.getElem?_drop, Nat.add_comm]

/-- **What is written is read back**: by any calls that do not seek, into a new file, through any buffers, and
with reads however short. -/
theorem written_readBack (append : Bool) (b b' : Buffering) (hb' : b'.size.toNat < 2 ^ 31)
    {calls : List (WriteOp × StdioOs)} (hseeks : ∀ call ∈ calls, call.1.seeks = false)
    (hwrites : WriteRunOk (fuel + 2) calls (newStream [] false true append b))
    {last : StdioOs} (hlast : last.Complete) {gets : List StdioOs}
    (hreads : ReadRunOk (fuel + 2) (gets.map fun os => (.fgetc, os))
      (newStream (calls.flatMap fun call => call.1.bytes) true false false b')) :
    ∃ s results s', writeRun (fuel + 2) calls (newStream [] false true append b) = some (s, results) ∧
      readRun (fuel + 2) (gets.map fun os => (.fgetc, os))
        (newStream (fflush last s).1.file.content true false false b') =
          some (s', (List.range gets.length).map fun i =>
            .char (calls.flatMap fun call => call.1.bytes)[i]?) := by
  obtain ⟨s, hrun, hw⟩ := (writing_newStream [] append b).run hwrites
  obtain ⟨s₁, hflush, hw₁, hnil, -⟩ := hw.toPending.flsbuf_none (i := 0) hlast
  have hfile : (fflush last s).1.file = (plainRun append calls ⟨⟨[], 0, Nat.zero_le _⟩, false⟩).1.file := by
    have hplain := hw₁.file
    rw [hnil, ByteFile.write_nil] at hplain
    rw [fflush, if_pos hw.write, hflush]
    exact hplain
  have hcontent : (fflush last s).1.file.content = calls.flatMap fun call => call.1.bytes := by
    rw [hfile, plainRun_bytes append rfl hseeks]
    exact content_write_empty append _
  obtain ⟨s', hread, -⟩ := (reading_newStream _ false b' hb').run hreads
  refine ⟨s, _, s', hrun, ?_⟩
  rw [hcontent, hread, plainReadRun_fgetc rfl]
  rfl

theorem written_readBack_twoObjects : ∃ s results s',
    writeRun 2 [(.fputc 9, wholeOs), (.fwrite twoObjects, wholeOs)] (newStream [] false true false ⟨6, false⟩) =
        some (s, results) ∧
      readRun 2 [(.fgetc, limitedOs 2 (by decide)), (.fgetc, limitedOs 2 (by decide))]
          (newStream (fflush wholeOs s).1.file.content true false false ⟨3, false⟩) =
        some (s', [.char (some 9), .char (some 1)]) := by
  have hcomplete : wholeOs.Complete := fun _ _ => rfl
  have hlimited : (limitedOs 2 (by decide)).NoError := nofun
  have hwrites : WriteRunOk 2 [(.fputc 9, wholeOs), (.fwrite twoObjects, wholeOs)]
      (newStream [] false true false ⟨6, false⟩) :=
    ⟨⟨hcomplete, fun _ _ => Or.inl rfl, nofun⟩, fun _ _ _ => ⟨⟨hcomplete, nofun, nofun⟩, fun _ _ _ => trivial⟩⟩
  refine written_readBack false _ ⟨3, false⟩ (by decide) (by decide) hwrites hcomplete
    (show ReadRunOk 2 ([limitedOs 2 _, limitedOs 2 _].map fun os => (.fgetc, os)) _ from ?_)
  refine ⟨⟨hlimited, fun _ => rfl, fun _ => Or.inl rfl, nofun, nofun⟩, fun s₁ r₁ h₁ => ?_⟩
  cases h₁
  exact ⟨⟨hlimited, fun _ => rfl, fun _ => Or.inl rfl, nofun, nofun⟩, fun _ _ _ => trivial⟩

end UnixLib
