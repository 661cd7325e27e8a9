import Gccsdk.Asasm.Input
import Mathlib.Algebra.GroupWithZero.Nat

/-!
# Decoding a mnemonic

The first half of `Decode` in `decode.c`: the search for the mnemonic at the current position of the
line in `oDecodeTable`. The table is searched letter by letter: a binary search keeps the entries from
`low` to `high` whose mnemonics begin with what has been read (`decodeNarrow`, `decodeLoop`).

Every access to the table or to a character of a mnemonic is checked: the model returns `none` when one
is out of range, when an assertion fails, or when a search has not ended after `decodeEntries + 1`
steps. What the entry's function does with the rest of the line is left out.
-/

namespace Asasm

/-- The kind of callback (`eCB_*`). -/
inductive CbType
  | void
  | voidPMatch
  | noLex
  | noLexPMatch
  | lex
  | lexPMatch
  | symbol
  deriving DecidableEq, Repr

/-- `decode_table_t`, without what is used after the search. -/
structure DecodeTableEntry where
  mnemonic : Name
  cbType : CbType
  instr : Bool
  deriving DecidableEq, Repr

def oDecodeTable : List DecodeTableEntry :=
  [⟨cstr "!", .noLex, false⟩, ⟨cstr "#", .lex, false⟩, ⟨cstr "%", .void, false⟩,
    ⟨cstr "&", .void, false⟩, ⟨cstr "*", .symbol, false⟩, ⟨cstr "=", .void, false⟩,
    ⟨cstr "ABS", .voidPMatch, true⟩, ⟨cstr "ACS", .voidPMatch, true⟩,
    ⟨cstr "ADC", .voidPMatch, true⟩, ⟨cstr "ADD", .voidPMatch, true⟩,
    ⟨cstr "ADF", .voidPMatch, true⟩, ⟨cstr "ADR", .voidPMatch, true⟩,
    ⟨cstr "ALIGN", .void, false⟩, ⟨cstr "AND", .voidPMatch, true⟩, ⟨cstr "AOF", .noLex, false⟩,
    ⟨cstr "AOUT", .noLex, false⟩, ⟨cstr "AREA", .noLex, false⟩, ⟨cstr "ARM", .noLex, false⟩,
    ⟨cstr "ASN", .voidPMatch, true⟩, ⟨cstr "ASR", .voidPMatch, true⟩,
    ⟨cstr "ASSERT", .noLex, false⟩, ⟨cstr "ATN", .voidPMatch, true⟩,
    ⟨cstr "B", .voidPMatch, true⟩, ⟨cstr "BFC", .voidPMatch, true⟩,
    ⟨cstr "BFI", .voidPMatch, true⟩, ⟨cstr "BIC", .voidPMatch, true⟩,
    ⟨cstr "BIN", .noLex, false⟩, ⟨cstr "BKPT", .voidPMatch, true⟩,
    ⟨cstr "BLX", .voidPMatch, true⟩, ⟨cstr "BX", .voidPMatch, true⟩,
    ⟨cstr "BXJ", .voidPMatch, true⟩, ⟨cstr "CB", .voidPMatch, true⟩,
    ⟨cstr "CDP", .voidPMatch, true⟩, ⟨cstr "CLREX", .void, true⟩,
    ⟨cstr "CLZ", .voidPMatch, true⟩, ⟨cstr "CMF", .voidPMatch, true⟩,
    ⟨cstr "CMN", .voidPMatch, true⟩, ⟨cstr "CMP", .voidPMatch, true⟩,
    ⟨cstr "CN", .symbol, false⟩, ⟨cstr "CNF", .voidPMatch, true⟩, ⟨cstr "CODE16", .noLex, false⟩,
    ⟨cstr "CODE32", .noLex, false⟩, ⟨cstr "COMMON", .noLex, false⟩,
    ⟨cstr "COS", .voidPMatch, true⟩, ⟨cstr "CP", .symbol, false⟩,
    ⟨cstr "CPS", .voidPMatch, true⟩, ⟨cstr "DATA", .void, false⟩,
    ⟨cstr "DBG", .voidPMatch, true⟩, ⟨cstr "DCB", .void, false⟩,
    ⟨cstr "DCD", .voidPMatch, false⟩, ⟨cstr "DCFD", .voidPMatch, false⟩,
    ⟨cstr "DCFH", .voidPMatch, false⟩, ⟨cstr "DCFS", .voidPMatch, false⟩,
    ⟨cstr "DCI", .voidPMatch, false⟩, ⟨cstr "DCQ", .voidPMatch, false⟩,
    ⟨cstr "DCW", .voidPMatch, false⟩, ⟨cstr "DMB", .void, true⟩, ⟨cstr "DSB", .void, true⟩,
    ⟨cstr "DVF", .voidPMatch, true⟩, ⟨cstr "ELIF", .noLex, false⟩, ⟨cstr "ELSE", .noLex, false⟩,
    ⟨cstr "END", .noLex, false⟩, ⟨cstr "ENDFUNC", .noLex, false⟩, ⟨cstr "ENDIF", .noLex, false⟩,
    ⟨cstr "ENDP", .noLex, false⟩, ⟨cstr "ENTRY", .noLex, false⟩, ⟨cstr "EOR", .voidPMatch, true⟩,
    ⟨cstr "EQU", .symbol, false⟩, ⟨cstr "EXP", .voidPMatch, true⟩,
    ⟨cstr "EXPORT", .noLex, false⟩, ⟨cstr "EXTERN", .noLex, false⟩,
    ⟨cstr "FDV", .voidPMatch, true⟩, ⟨cstr "FIELD", .lex, false⟩, ⟨cstr "FILL", .void, false⟩,
    ⟨cstr "FIX", .voidPMatch, true⟩, ⟨cstr "FLT", .voidPMatch, true⟩,
    ⟨cstr "FML", .voidPMatch, true⟩, ⟨cstr "FN", .symbol, false⟩, ⟨cstr "FRAME", .noLex, false⟩,
    ⟨cstr "FRD", .voidPMatch, true⟩, ⟨cstr "FUNCTION", .noLex, false⟩,
    ⟨cstr "GBL", .noLexPMatch, false⟩, ⟨cstr "GET", .noLex, false⟩,
    ⟨cstr "GLOBAL", .noLex, false⟩, ⟨cstr "IDFN", .noLex, false⟩, ⟨cstr "IF", .noLex, false⟩,
    ⟨cstr "IMPORT", .noLex, false⟩, ⟨cstr "INCBIN", .noLex, false⟩,
    ⟨cstr "INCLUDE", .noLex, false⟩, ⟨cstr "INFO", .noLex, false⟩, ⟨cstr "ISB", .void, true⟩,
    ⟨cstr "IT", .voidPMatch, true⟩, ⟨cstr "KEEP", .noLex, false⟩,
    ⟨cstr "LCL", .noLexPMatch, false⟩, ⟨cstr "LDC", .voidPMatch, true⟩,
    ⟨cstr "LDF", .voidPMatch, true⟩, ⟨cstr "LDM", .voidPMatch, true⟩,
    ⟨cstr "LDR", .voidPMatch, true⟩, ⟨cstr "LDREX", .voidPMatch, true⟩,
    ⟨cstr "LEAF", .noLex, false⟩, ⟨cstr "LFM", .voidPMatch, true⟩,
    ⟨cstr "LGN", .voidPMatch, true⟩, ⟨cstr "LNK", .noLex, false⟩,
    ⟨cstr "LOG", .voidPMatch, true⟩, ⟨cstr "LSL", .voidPMatch, true⟩,
    ⟨cstr "LSR", .voidPMatch, true⟩, ⟨cstr "LTORG", .noLex, false⟩,
    ⟨cstr "MACRO", .noLex, false⟩, ⟨cstr "MAP", .noLex, false⟩, ⟨cstr "MCR", .voidPMatch, true⟩,
    ⟨cstr "MCRR", .voidPMatch, true⟩, ⟨cstr "MEND", .noLex, false⟩,
    ⟨cstr "MEXIT", .noLex, false⟩, ⟨cstr "MLA", .voidPMatch, true⟩,
    ⟨cstr "MLS", .voidPMatch, true⟩, ⟨cstr "MNF", .voidPMatch, true⟩,
    ⟨cstr "MOV", .voidPMatch, true⟩, ⟨cstr "MRC", .voidPMatch, true⟩,
    ⟨cstr "MRRC", .voidPMatch, true⟩, ⟨cstr "MRS", .voidPMatch, true⟩,
    ⟨cstr "MSR", .voidPMatch, true⟩, ⟨cstr "MUF", .voidPMatch, true⟩,
    ⟨cstr "MUL", .voidPMatch, true⟩, ⟨cstr "MVF", .voidPMatch, true⟩,
    ⟨cstr "MVN", .voidPMatch, true⟩, ⟨cstr "NOFP", .noLex, false⟩,
    ⟨cstr "NOP", .voidPMatch, true⟩, ⟨cstr "NRM", .voidPMatch, true⟩,
    ⟨cstr "OPT", .noLex, false⟩, ⟨cstr "ORG", .noLex, false⟩, ⟨cstr "ORR", .voidPMatch, true⟩,
    ⟨cstr "PKH", .voidPMatch, true⟩, ⟨cstr "PL", .voidPMatch, true⟩,
    ⟨cstr "POL", .voidPMatch, true⟩, ⟨cstr "POP", .voidPMatch, true⟩,
    ⟨cstr "POW", .voidPMatch, true⟩, ⟨cstr "PRESERVE8", .noLex, false⟩,
    ⟨cstr "PROC", .noLex, false⟩, ⟨cstr "PUSH", .voidPMatch, true⟩,
    ⟨cstr "QADD", .voidPMatch, true⟩, ⟨cstr "QDADD", .voidPMatch, true⟩,
    ⟨cstr "QDSUB", .voidPMatch, true⟩, ⟨cstr "QSUB", .voidPMatch, true⟩,
    ⟨cstr "RDF", .voidPMatch, true⟩, ⟨cstr "RELOC", .noLex, false⟩,
    ⟨cstr "REQUIRE8", .noLex, false⟩, ⟨cstr "RFC", .voidPMatch, true⟩,
    ⟨cstr "RFE", .voidPMatch, true⟩, ⟨cstr "RFS", .voidPMatch, true⟩,
    ⟨cstr "RLIST", .symbol, false⟩, ⟨cstr "RMF", .voidPMatch, true⟩, ⟨cstr "RN", .symbol, false⟩,
    ⟨cstr "RND", .voidPMatch, true⟩, ⟨cstr "ROR", .voidPMatch, true⟩, ⟨cstr "ROUT", .lex, false⟩,
    ⟨cstr "RPW", .voidPMatch, true⟩, ⟨cstr "RRX", .voidPMatch, true⟩,
    ⟨cstr "RSB", .voidPMatch, true⟩, ⟨cstr "RSC", .voidPMatch, true⟩,
    ⟨cstr "RSF", .voidPMatch, true⟩, ⟨cstr "SBC", .voidPMatch, true⟩,
    ⟨cstr "SBFX", .voidPMatch, true⟩, ⟨cstr "SET", .lexPMatch, false⟩,
    ⟨cstr "SEV", .voidPMatch, true⟩, ⟨cstr "SFM", .voidPMatch, true⟩,
    ⟨cstr "SIN", .voidPMatch, true⟩, ⟨cstr "SMC", .voidPMatch, true⟩,
    ⟨cstr "SMI", .voidPMatch, true⟩, ⟨cstr "SMLABB", .voidPMatch, true⟩,
    ⟨cstr "SMLABT", .voidPMatch, true⟩, ⟨cstr "SMLAL", .voidPMatch, true⟩,
    ⟨cstr "SMLALBB", .voidPMatch, true⟩, ⟨cstr "SMLALBT", .voidPMatch, true⟩,
    ⟨cstr "SMLALTB", .voidPMatch, true⟩, ⟨cstr "SMLALTT", .voidPMatch, true⟩,
    ⟨cstr "SMLATB", .voidPMatch, true⟩, ⟨cstr "SMLATT", .voidPMatch, true⟩,
    ⟨cstr "SMLAWB", .voidPMatch, true⟩, ⟨cstr "SMLAWT", .voidPMatch, true⟩,
    ⟨cstr "SMULBB", .voidPMatch, true⟩, ⟨cstr "SMULBT", .voidPMatch, true⟩,
    ⟨cstr "SMULL", .voidPMatch, true⟩, ⟨cstr "SMULTB", .voidPMatch, true⟩,
    ⟨cstr "SMULTT", .voidPMatch, true⟩, ⟨cstr "SMULWB", .voidPMatch, true⟩,
    ⟨cstr "SMULWT", .voidPMatch, true⟩, ⟨cstr "SPACE", .void, false⟩,
    ⟨cstr "SQT", .voidPMatch, true⟩, ⟨cstr "SRS", .voidPMatch, true⟩,
    ⟨cstr "STC", .voidPMatch, true⟩, ⟨cstr "STF", .voidPMatch, true⟩,
    ⟨cstr "STM", .voidPMatch, true⟩, ⟨cstr "STR", .voidPMatch, true⟩,
    ⟨cstr "STREX", .voidPMatch, true⟩, ⟨cstr "STRONG", .noLex, false⟩,
    ⟨cstr "SUB", .voidPMatch, true⟩, ⟨cstr "SUBT", .noLex, false⟩,
    ⟨cstr "SUF", .voidPMatch, true⟩, ⟨cstr "SVC", .voidPMatch, true⟩,
    ⟨cstr "SWI", .voidPMatch, true⟩, ⟨cstr "SWP", .voidPMatch, true⟩,
    ⟨cstr "SXT", .voidPMatch, true⟩, ⟨cstr "TAN", .voidPMatch, true⟩,
    ⟨cstr "TEQ", .voidPMatch, true⟩, ⟨cstr "THUMB", .noLex, false⟩,
    ⟨cstr "THUMBX", .noLex, false⟩, ⟨cstr "TST", .voidPMatch, true⟩, ⟨cstr "TTL", .noLex, false⟩,
    ⟨cstr "UBFX", .voidPMatch, true⟩, ⟨cstr "UMLAL", .voidPMatch, true⟩,
    ⟨cstr "UMULL", .voidPMatch, true⟩, ⟨cstr "UND", .voidPMatch, true⟩,
    ⟨cstr "URD", .voidPMatch, true⟩, ⟨cstr "UXT", .voidPMatch, true⟩,
    ⟨cstr "WEND", .noLex, false⟩, ⟨cstr "WFC", .voidPMatch, true⟩,
    ⟨cstr "WFE", .voidPMatch, true⟩, ⟨cstr "WFI", .voidPMatch, true⟩,
    ⟨cstr "WFS", .voidPMatch, true⟩, ⟨cstr "WHILE", .noLex, false⟩,
    ⟨cstr "YIELD", .voidPMatch, true⟩, ⟨cstr "[", .noLex, false⟩, ⟨cstr "]", .noLex, false⟩,
    ⟨cstr "^", .noLex, false⟩, ⟨cstr "|", .noLex, false⟩]

def decodeEntries : Nat := 225

def kDecodeTableIndexReloc : Nat := 144

def sizeMax : Nat := 2 ^ 64 - 1

def DecodeTableEntry.lowerCaseIsOK (entry : DecodeTableEntry) : Bool := entry.instr

def DecodeTableEntry.isPartiallyMatched (entry : DecodeTableEntry) : Bool :=
  entry.cbType = .voidPMatch || entry.cbType = .lexPMatch || entry.cbType = .noLexPMatch

def resolveLowerCase (c : UInt8) (doLowerCase : Bool) : UInt8 :=
  if doLowerCase && 0x41 ≤ c && c ≤ 0x5A then c - 0x41 + 0x61 else c

/-- `oDecodeTable[i].mnemonic[k]`, of which the last one is the NUL. -/
def mnemonicChar (i k : Nat) : Option UInt8 := do
  let entry ← oDecodeTable[i]?
  (entry.mnemonic ++ [0])[k]?

def resolvedChar (doLowerCase : Bool) (i k : Nat) : Option UInt8 :=
  (mnemonicChar i k).map (resolveLowerCase · doLowerCase)

def matchRestOfKeyword (l : Text) (r : Name) (doLowerCase : Bool) : Bool :=
  (r.map (resolveLowerCase · doLowerCase)).isPrefixOf l

/-- `i - 1` of type `size_t`. -/
def sizePred (i : Nat) : Nat := if i = 0 then sizeMax else i - 1

/-- The loop over `lowNew`. The characters compared are those that `read` gives for the entries. -/
def lowNewLoop (read : Nat → Option UInt8) (c : UInt8) (low : Nat) : Nat → Option Nat
  | 0 => some 0
  | lowNew + 1 =>
    if low < lowNew + 1 then do
      let m ← read lowNew
      if m = c then lowNewLoop read c low lowNew else some (lowNew + 1)
    else some (lowNew + 1)

/-- The loop over `highNew`, `steps` below `high`. -/
def highNewLoop (read : Nat → Option UInt8) (c : UInt8) (high : Nat) : Nat → Option Nat
  | 0 => some high
  | steps + 1 => do
    let m ← read (high - steps)
    if m = c then highNewLoop read c high steps else some (high - (steps + 1))

/-- **The binary search** of one character. It gives an empty interval when no entry has it. -/
def decodeNarrow (read : Nat → Option UInt8) (c : UInt8) :
    (fuel low high : Nat) → Option (Nat × Nat)
  | 0, _, _ => none
  | fuel + 1, low, high =>
    if low ≤ high then do
      let mid := low + (high - low) / 2
      let m ← read mid
      if m < c then decodeNarrow read c fuel (mid + 1) high
      else if c < m then decodeNarrow read c fuel low (sizePred mid)
      else do
        let lowNew ← lowNewLoop read c low mid
        let highNew ← highNewLoop read c high (high - mid)
        some (lowNew, highNew)
    else some (low, high)

/-- Whether the rest of the mnemonic `high` is in the line. -/
def matchAt (doLowerCase : Bool) (text : Text) (charsMatched high : Nat) : Option Bool := do
  let entry ← oDecodeTable[high]?
  assert (charsMatched + 1 ≤ entry.mnemonic.length)
  some (matchRestOfKeyword text (entry.mnemonic.drop (charsMatched + 1)) doLowerCase)

/-- The loop that counts `high` down to such a mnemonic. -/
def matchHigh (doLowerCase : Bool) (text : Text) (charsMatched : Nat) : Nat → Option Nat
  | 0 => do
    let found ← matchAt doLowerCase text charsMatched 0
    if found then some 0 else none
  | high + 1 => do
    let found ← matchAt doLowerCase text charsMatched (high + 1)
    if found then some (high + 1) else matchHigh doLowerCase text charsMatched high

abbrev Decoded := Option (Nat × Text)

/-- The end of the search at an entry whose mnemonic has been read and is partially matched. -/
def decodePartial (doLowerCase : Bool) (text : Text) (charsMatched low high : Nat) :
    Option Decoded := do
  let high ← matchHigh doLowerCase text charsMatched high
  assert (low ≤ high)
  let entry ← oDecodeTable[high]?
  let text := text.drop (entry.mnemonic.drop (charsMatched + 1)).length
  if entry.isPartiallyMatched || inputIsEndOfKeywordN text 0 then some (some (high, text))
  else some none

/-- **The loop over the characters of the line.** -/
def decodeLoop (doLowerCase : Bool) : Text → (charsMatched low high : Nat) → Option Decoded
  | [], _, _, _ => none
  | c :: text, charsMatched, low, high => do
    let (low, high) ←
      decodeNarrow (resolvedChar doLowerCase · charsMatched) c (decodeEntries + 1) low high
    if high < low then some none
    else
      let lowEntry ← oDecodeTable[low]?
      let lowNext ← mnemonicChar low (charsMatched + 1)
      if lowNext = 0 && lowEntry.isPartiallyMatched then
        decodePartial doLowerCase text charsMatched low high
      else if inputIsEndOfKeywordN text 0 then
        if lowNext = 0 then some (some (low, text)) else some none
      else do
        let highNext ← mnemonicChar high (charsMatched + 1)
        if highNext ≠ 0 then decodeLoop doLowerCase text (charsMatched + 1) low high
        else do
          assert (low = high)
          some none

def doLowerCaseOf (optionUppercase : Bool) (text : Text) : Bool :=
  !optionUppercase && match text with
    | [] => false
    | c :: _ => 0x61 ≤ c && c ≤ 0x7A

/-- What is done with the entry found: the check of a mnemonic in lower case, and an assertion. -/
def decodeSelect (doLowerCase : Bool) : Decoded → Option Decoded
  | none => some none
  | some (indexFound, rest) => do
    let entry ← oDecodeTable[indexFound]?
    if doLowerCase && !entry.lowerCaseIsOK then some none
    else do
      assert (inputIsEndOfKeywordN rest 0 || entry.isPartiallyMatched)
      some (some (indexFound, rest))

/-- **The search of `Decode`** for the mnemonic at the beginning of the text. -/
def decode (optionUppercase : Bool) (text : Text) : Option Decoded := do
  let doLowerCase := doLowerCaseOf optionUppercase text
  let found ← decodeLoop doLowerCase text 0 0 (decodeEntries - 1)
  decodeSelect doLowerCase found

example : (oDecodeTable[kDecodeTableIndexReloc]?).map DecodeTableEntry.mnemonic
    = some (cstr "RELOC") := by
  decide

end Asasm
