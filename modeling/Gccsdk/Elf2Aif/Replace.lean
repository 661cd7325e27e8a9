import Gccsdk.Elf2Aif.Convert

/-!
# Converting in place

`e2a_convert` without an output name writes a temporary file and renames it. `ReplacesFile` is what is expected:
a failure leaves the ELF file as it was, a success leaves the converted file under its name and no temporary
file, and no other file is ever touched.

`e2aConvert_replaces_iff`: it is so whatever becomes of each operation, but for one way in the build for the
shared C library, where `rename` does not replace a file: the ELF file is removed first, and if the renaming
fails after that both files are gone (`LosesBoth`).
-/

namespace Elf2Aif

def tempName (elffilename : String) : String := elffilename ++ "_tmp"

/-- **What is expected** of the files, and of whether it was a success. -/
structure ReplacesFile (o : Outcomes) (elffilename : String) (files files' : Files) (status : Bool) :
    Prop where
  failure : status = false → files' elffilename = files elffilename
  /-- A success replaces it by what it is converted to, -/
  success : status = true → ∃ file out, files elffilename = some file ∧
    convertFile o file = .ok out ∧ files' elffilename = some out
  /-- without a temporary file. -/
  noTemp : status = true → files' (tempName elffilename) = none
  others : ∀ name, name ≠ elffilename → name ≠ tempName elffilename → files' name = files name

/-- The ELF file is removed, and the temporary one cannot be renamed. -/
structure LosesBoth (b : Build) (o : Outcomes) (elffilename : String) (files : Files) : Prop where
  scl : b.scl = true
  started : o.mallocName = true ∧ o.openElf = true ∧ o.openAif = true
  converts : ∃ file out, files elffilename = some file ∧ convertFile o file = .ok out
  finishes : finishStatus b o = true
  removed : o.removeElf = true
  notRenamed : o.rename = false

variable {b : Build} {o : Outcomes} {elf : String} {files files' files'' : Files} {status : Bool}

theorem tempName_ne (elf : String) : tempName elf ≠ elf := by
  intro heq
  have hlength := congrArg String.length heq
  unfold tempName at hlength
  rw [String.length_append] at hlength
  exact absurd hlength (by have : "_tmp".length = 4 := rfl; omega)

def OnlyTemp (elf : String) (files files' : Files) : Prop :=
  ∀ name, name ≠ tempName elf → files' name = files name

namespace OnlyTemp

theorem refl (elf : String) (files : Files) : OnlyTemp elf files files := fun _ _ => rfl

theorem update (h : OnlyTemp elf files files') (content : Option Bytes) :
    OnlyTemp elf files (Function.update files' (tempName elf) content) := by
  intro name hname
  rw [Function.update_of_ne hname]
  exact h name hname

theorem removeFile (h : OnlyTemp elf files files') (ok : Bool) :
    OnlyTemp elf files (removeFile ok files' (tempName elf)).1 := by
  cases ok with
  | true => exact h.update none
  | false => exact h

theorem replaces (h : OnlyTemp elf files files') : ReplacesFile o elf files files' false :=
  ⟨fun _ => h elf (tempName_ne elf).symm, nofun, nofun, fun name _ hname => h name hname⟩

end OnlyTemp

theorem finishFiles_failure (written : Bool) (h : OnlyTemp elf files files') :
    finishFiles b o elf (tempName elf) true written false files' =
        ((finishFiles b o elf (tempName elf) true written false files').1, false) ∧
      OnlyTemp elf files (finishFiles b o elf (tempName elf) true written false files').1 := by
  unfold finishFiles
  rw [if_pos (by decide)]
  cases written with
  | true => exact ⟨rfl, h.removeFile o.removeAif⟩
  | false => exact ⟨rfl, h⟩

theorem renameFile_replaces {file out : Bytes} (hfile : files elf = some file)
    (hconvert : convertFile o file = .ok out) (h : ∀ name, name ≠ tempName elf → name ≠ elf →
      files' name = files name) (hout : files' (tempName elf) = some out) :
    ReplacesFile o elf files (renameFile files' (tempName elf) elf) true := by
  have hne := tempName_ne elf
  unfold renameFile
  refine ⟨nofun, fun _ => ⟨file, out, hfile, hconvert, ?_⟩, fun _ => ?_, fun name helf htemp => ?_⟩
  · rw [Function.update_of_ne hne.symm, Function.update_self, hout]
  · rw [Function.update_self]
  · rw [Function.update_of_ne htemp, Function.update_of_ne helf]
    exact h name htemp helf

theorem finishFiles_success {file out : Bytes} (hfile : files elf = some file)
    (hconvert : convertFile o file = .ok out) (h : OnlyTemp elf files files')
    (hout : files' (tempName elf) = some out)
    (hresult : finishFiles b o elf (tempName elf) true true true files' = (files'', status)) :
    ReplacesFile o elf files files'' status ↔
      ¬(b.scl = true ∧ o.removeElf = true ∧ o.rename = false) := by
  have hne := tempName_ne elf
  unfold finishFiles at hresult
  rw [if_neg (by decide), if_pos rfl] at hresult
  cases hscl : b.scl with
  | false =>
    refine iff_of_true ?_ (fun hlost => Bool.false_ne_true hlost.1)
    rw [hscl, if_neg Bool.false_ne_true] at hresult
    cases hrename : o.rename with
    | true =>
      rw [hrename, if_pos rfl] at hresult
      cases hresult
      exact renameFile_replaces hfile hconvert (fun name htemp _ => h name htemp) hout
    | false =>
      rw [hrename, if_neg Bool.false_ne_true] at hresult
      cases hresult
      exact (h.removeFile o.removeTemp).replaces
  | true =>
    rw [hscl, if_pos rfl] at hresult
    cases hremove : o.removeElf with
    | false =>
      -- the ELF file is still there
      refine iff_of_true ?_ (fun hlost => Bool.false_ne_true hlost.2.1)
      rw [hremove] at hresult
      cases hresult
      exact (h.removeFile o.removeTemp).replaces
    | true =>
      rw [hremove] at hresult
      dsimp only [removeFile] at hresult
      cases hrename : o.rename with
      | true =>
        refine iff_of_true ?_ (fun hlost => Bool.false_ne_true hlost.2.2.symm)
        rw [hrename] at hresult
        cases hresult
        refine renameFile_replaces hfile hconvert (fun name htemp helf => ?_) ?_
        · rw [Function.update_of_ne helf]
          exact h name htemp
        · rw [Function.update_of_ne hne]
          exact hout
      | false =>
        refine iff_of_false (fun hreplaces => ?_) (not_not.mpr ⟨rfl, rfl, rfl⟩)
        rw [hrename] at hresult
        cases hresult
        -- nothing is left under its name
        have hkept := hreplaces.failure rfl
        rw [hfile] at hkept
        cases hremoveTemp : o.removeTemp with
        | true =>
          rw [hremoveTemp] at hkept
          change Function.update (Function.update files' elf none) (tempName elf) none elf = _ at hkept
          rw [Function.update_of_ne hne.symm, Function.update_self] at hkept
          cases hkept
        | false =>
          rw [hremoveTemp] at hkept
          change Function.update files' elf none elf = _ at hkept
          rw [Function.update_self] at hkept
          cases hkept

/-- **Converting in place** does what is expected, whatever becomes of each operation, if and only if it does
not lose both files. -/
theorem e2aConvert_replaces_iff (h : e2aConvert b o elf none files = .ok (files', status)) :
    ReplacesFile o elf files files' status ↔ ¬LosesBoth b o elf files := by
  -- what the failures have in common
  have hfailure : ∀ {written files₁}, OnlyTemp elf files files₁ →
      finishFiles b o elf (tempName elf) true written false files₁ = (files', status) →
      ReplacesFile o elf files files' status := by
    intro written files₁ honly hresult
    obtain ⟨hstatus, hlast⟩ := finishFiles_failure written honly
    rw [hstatus] at hresult
    cases hresult
    exact hlast.replaces
  have hrefl := OnlyTemp.refl elf files
  unfold e2aConvert at h
  dsimp only at h
  cases hmalloc : o.mallocName with
  | false =>
    rw [hmalloc] at h
    cases h
    exact iff_of_true hrefl.replaces
      (fun hlost => Bool.false_ne_true (hmalloc.symm.trans hlost.started.1))
  | true =>
    rw [hmalloc, if_neg (by decide)] at h
    change convertTo b o elf (tempName elf) true files = _ at h
    unfold convertTo at h
    cases hopen : o.openElf with
    | false =>
      rw [hopen] at h
      exact iff_of_true (hfailure hrefl (Except.ok.inj h))
        (fun hlost => Bool.false_ne_true (hopen.symm.trans hlost.started.2.1))
    | true =>
      rw [hopen, if_pos rfl] at h
      cases hfile : files elf with
      | none =>
        rw [hfile] at h
        refine iff_of_true (hfailure hrefl (Except.ok.inj h)) (fun hlost => ?_)
        obtain ⟨file, out, hsome, -⟩ := hlost.converts
        rw [hfile] at hsome
        cases hsome
      | some file =>
        rw [hfile] at h
        dsimp only at h
        cases haif : o.openAif with
        | false =>
          rw [haif, if_pos (by decide)] at h
          exact iff_of_true (hfailure hrefl (Except.ok.inj h))
            (fun hlost => Bool.false_ne_true (haif.symm.trans hlost.started.2.2))
        | true =>
          rw [haif, if_neg (by decide)] at h
          cases hconvert : convertFile o file with
          | error stop =>
            rw [hconvert] at h
            cases stop with
            | abort => cases h
            | failure =>
              refine iff_of_true (hfailure (hrefl.update _) (Except.ok.inj h)) (fun hlost => ?_)
              obtain ⟨file', out, hsome, hout⟩ := hlost.converts
              obtain rfl := Option.some.inj (hfile.symm.trans hsome)
              rw [hconvert] at hout
              cases hout
          | ok out =>
            rw [hconvert] at h
            dsimp only at h
            cases hfinish : finishStatus b o with
            | false =>
              rw [hfinish] at h
              exact iff_of_true (hfailure (hrefl.update _) (Except.ok.inj h))
                (fun hlost => Bool.false_ne_true (hfinish.symm.trans hlost.finishes))
            | true =>
              rw [hfinish, if_pos rfl] at h
              rw [finishFiles_success hfile hconvert (hrefl.update (some out))
                (Function.update_self _ _ _) (Except.ok.inj h)]
              refine not_congr ⟨fun hlost => ?_, fun hlost => ⟨hlost.scl, hlost.removed, hlost.notRenamed⟩⟩
              exact ⟨hlost.1, ⟨hmalloc, hopen, haif⟩, ⟨file, out, hfile, hconvert⟩, hfinish,
                hlost.2.1, hlost.2.2⟩

/-! ### A file of one segment -/

/-- An executable of its headers only, at 0x8000, with its entry point behind them. -/
def tinyElf : Bytes :=
  [0x7F, 0x45, 0x4C, 0x46, 1, 1, 1, 97, 0, 0, 0, 0, 0, 0, 0, 0] ++ [2, 0, 40, 0] ++
    ([1, 0x8080, 52, 0, 0].flatMap wrLong) ++ [52, 0, 32, 0, 1, 0, 0, 0, 0, 0, 0, 0] ++
    ([PT_LOAD, 0, 0x8000, 0x8000, 84, 84, 5, 4].flatMap wrLong)

def tinyFiles : Files := fun name => if name = "a" then some tinyElf else none

def noRename : Outcomes := { allOk with rename := false }

theorem convertFile_tinyElf : (convertFile noRename tinyElf).toOption.isSome = true := by
  decide

/-- Where `rename` replaces files the ELF file stays. -/
theorem e2aConvert_replaces_iff_noRename :
    ∃ files' status, e2aConvert ⟨false, false⟩ noRename "a" none tinyFiles = .ok (files', status) ∧
      ReplacesFile noRename "a" tinyFiles files' status := by
  obtain ⟨out, hout⟩ : ∃ out, convertFile noRename tinyElf = .ok out := by
    have hsome := convertFile_tinyElf
    cases hconvert : convertFile noRename tinyElf with
    | error stop =>
      rw [hconvert] at hsome
      cases hsome
    | ok out => exact ⟨out, rfl⟩
  have hfile : tinyFiles "a" = some tinyElf := rfl
  have hcall : ∃ files', e2aConvert ⟨false, false⟩ noRename "a" none tinyFiles = .ok (files', false) := by
    unfold e2aConvert convertTo
    dsimp only
    rw [if_neg (by decide), if_pos (by decide), hfile]
    dsimp only
    rw [if_neg (by decide), hout]
    exact ⟨_, rfl⟩
  obtain ⟨files', hcall⟩ := hcall
  refine ⟨files', false, hcall, (e2aConvert_replaces_iff hcall).mpr fun hlost => ?_⟩
  cases hlost.scl

theorem e2aConvert_loses_both :
    ¬∀ b o elf files files' status, e2aConvert b o elf none files = .ok (files', status) →
      ReplacesFile o elf files files' status := by
  intro hall
  have hsome := convertFile_tinyElf
  cases hconvert : convertFile noRename tinyElf with
  | error stop =>
    rw [hconvert] at hsome
    cases hsome
  | ok out =>
    have hfile : tinyFiles "a" = some tinyElf := rfl
    have hcall : e2aConvert ⟨true, true⟩ noRename "a" none tinyFiles =
        .ok (Function.update (Function.update (Function.update tinyFiles "a_tmp" (some out)) "a" none)
          "a_tmp" none, false) := by
      unfold e2aConvert convertTo
      dsimp only
      rw [if_neg (by decide), if_pos (by decide), hfile]
      dsimp only
      rw [if_neg (by decide), hconvert]
      rfl
    have hkept := (hall _ _ _ _ _ _ hcall).failure rfl
    rw [Function.update_of_ne (by decide), Function.update_self, hfile] at hkept
    cases hkept

end Elf2Aif
