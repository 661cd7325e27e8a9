import Gccsdk.Asasm.Global

/-!
# Reading an input line

The functions of `input.c` used by the models of this development. A line is the list of its bytes
from the current position on; its end is the end of the list.
-/

namespace Asasm

abbrev Text := List UInt8

/-- `isspace` in the C locale. -/
def isspace (c : UInt8) : Bool := c = 0x20 || (0x09 ≤ c && c ≤ 0x0D)

def endsKeyword : Text → Bool
  | [] => true
  | c :: _ => isspace c || c = 0x3B

def inputIsEndOfKeywordN (text : Text) (n : Nat) : Bool := endsKeyword (text.drop n)

/-- `Input_Match` without skipping spaces. -/
def inputMatch (c : UInt8) : Text → Option Text
  | [] => none
  | c' :: text => if c' = c then some text else none

def inputMatchKeyword (keyword : Name) (text : Text) : Option Text :=
  if keyword.isPrefixOf text && inputIsEndOfKeywordN text keyword.length then
    some (text.drop keyword.length)
  else none

def inputSkipWS (text : Text) : Text := text.dropWhile isspace

end Asasm
