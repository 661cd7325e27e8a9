import Gccsdk.UnixLib.CommandLine

/-!
# Building a command line

`sys/exec.c`: how `execve` puts the name of a program and the arguments of the new process into one string.
The length of the string is calculated first; the string is then written into a block of that length with
one more byte. `Cli` is the part of the block that has been written, with the end of the highest write into
it, since `stpcpy` and `sprintf` also write a NUL that is overwritten later.

Not modelled are the search for the program, the environment, and the handing over of the string to the
new process (in pieces, when it is a long one).
-/

namespace UnixLib

def isQuote (c : UInt8) : Bool := c = DQUOTE || c = SQUOTE

def isControl (c : UInt8) : Bool := c = 127 || c < 32

/-- The character `*`. -/
abbrev ASTERISK : UInt8 := 0x2A

/-! ### The length -/

/-- What is added to `cli_length` for an argument. -/
def argLength (nasty_hack : ℕ) (first : Bool) (arg : Text) : ℕ :=
  let p := if nasty_hack ≠ 0 ∧ first = true then arg.drop nasty_hack else arg
  let chars := p.foldl (fun n c =>
    n + (if (nasty_hack = 0 ∨ first = false) ∧ isQuote c = true then 1 else 0) +
      (if isControl c = true then 3 else 0) + 1) 0
  chars + (if p.any isspace = true ∧ nasty_hack = 0 then 2 else 0) + 1

/-- The arguments with a mark at the first one, `argv[scenario]`. -/
def markFirst : List Text → List (Bool × Text)
  | [] => []
  | arg :: args => (true, arg) :: args.map fun arg => (false, arg)

/-- `cli_length`; `args` are the arguments from `argv[scenario]` on. -/
def cliLength (nasty_hack : ℕ) (program_name : Text) (args : List Text) : ℕ :=
  (markFirst args).foldl (fun n arg => n + argLength nasty_hack arg.1 arg.2)
    (program_name.length + 1)

/-! ### The string -/

/-- The block `cli`, written up to `command_line`. -/
structure Cli where
  text : Text
  /-- The number of bytes from the start of the block that have been written to. -/
  high : ℕ
  deriving DecidableEq, Repr

namespace Cli

/-- `*command_line++ = c`. -/
def put (cli : Cli) (c : UInt8) : Cli where
  text := cli.text ++ [c]
  high := max cli.high (cli.text.length + 1)

/-- `stpcpy` and `sprintf`: writing a string with its NUL. -/
def puts (cli : Cli) (s : Text) : Cli where
  text := cli.text ++ s
  high := max cli.high (cli.text.length + s.length + 1)

end Cli

/-- A digit of `%X`. -/
def hexDigit (n : UInt8) : UInt8 := if n < 10 then 0x30 + n else 0x41 + (n - 10)

/-- The characters `sprintf` writes for `"\\x%.2X"`. -/
def hexEscape (c : UInt8) : Text := [BACKSLASH, LETTER_X, hexDigit (c >>> 4), hexDigit (c &&& 15)]

def writeChar (quotes : Bool) (cli : Cli) (c : UInt8) : Cli :=
  -- If character is a " or a ' then preceed with a backslash.
  let cli := if quotes && isQuote c then cli.put BACKSLASH else cli
  if isControl c then cli.puts (hexEscape c) else cli.put c

def writeArg (nasty_hack : ℕ) (cli : Cli) (arg : Bool × Text) : Cli :=
  let p := if nasty_hack ≠ 0 ∧ arg.1 = true then arg.2.drop nasty_hack else arg.2
  -- Don't enclose arguments in additional quotes if our nasty hack is in place.
  let contains_space := decide (nasty_hack = 0) && p.any isspace
  let cli := if contains_space then cli.put DQUOTE else cli
  let cli := p.foldl (writeChar (decide (nasty_hack = 0 ∨ arg.1 = false))) cli
  let cli := if contains_space then cli.put DQUOTE else cli
  cli.put SPACE

/-- The program name as it is copied: without leading spaces and asterisks. -/
def commandName (program_name : Text) : Text :=
  program_name.dropWhile fun c => c = ASTERISK || c = SPACE

def buildCli (nasty_hack : ℕ) (program_name : Text) (args : List Text) : Cli :=
  (markFirst args).foldl (writeArg nasty_hack)
    (((⟨[], 0⟩ : Cli).puts (commandName program_name)).put SPACE)

def commandLine (nasty_hack : ℕ) (program_name : Text) (args : List Text) : Text :=
  (buildCli nasty_hack program_name args).text.dropLast

end UnixLib
