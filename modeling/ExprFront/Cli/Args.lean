import ExprFront.Text.Basic
/-!
# Command-line arguments

The command line takes three flags and at most one file: `--tokens` prints the tokens before
the tree, `--json` prints the tree as JSON instead of its rendering, `--verbose` turns on
debug diagnostics. Arguments are read in order; the first that is neither a flag nor a file
(anything else starting with `-`), or a second file, stops the reading with an error.

## Main definitions

* `Flags`, `Args`, `ArgsError`.
* `parseArgs`.
-/

namespace ExprFront

/-- What to print for each input. -/
structure Flags where
  /-- Print the tokens first. -/
  tokens : Bool
  /-- Print the tree as JSON. -/
  json : Bool
  deriving DecidableEq, Repr

/-- The meaning of a command line. -/
structure Args where
  /-- The file to read; none for the prompt. -/
  file : Option Text
  /-- Whether debug diagnostics are on. -/
  verbose : Bool
  /-- What to print. -/
  flags : Flags
  deriving DecidableEq, Repr

/-- Why a command line was refused. -/
inductive ArgsError where
  /-- An argument starting with `-` that is not a flag. -/
  | unknownOption (arg : Text)
  /-- A second file. -/
  | tooManyFiles
  deriving DecidableEq, Repr

/-- The message of a refusal. -/
def ArgsError.message : ArgsError → Text
  | .unknownOption arg => Text.ofString "unknown option '" ++ arg ++ Text.ofString "'"
  | .tooManyFiles => Text.ofString "expected at most one file"

/-- No flags and no file. -/
def Args.empty : Args := ⟨none, false, ⟨false, false⟩⟩

/-- Read arguments in order onto what was read so far. -/
def parseArgsFrom (acc : Args) : List Text → Except ArgsError Args
  | [] => .ok acc
  | arg :: rest =>
    if arg = Text.ofString "--tokens" then
      parseArgsFrom { acc with flags := { acc.flags with tokens := true } } rest
    else if arg = Text.ofString "--json" then
      parseArgsFrom { acc with flags := { acc.flags with json := true } } rest
    else if arg = Text.ofString "--verbose" then parseArgsFrom { acc with verbose := true } rest
    else if arg.units.head? = some 0x2D then .error (.unknownOption arg)
    else if acc.file.isSome then .error .tooManyFiles
    else parseArgsFrom { acc with file := some arg } rest

/-- Read a command line. -/
def parseArgs (argv : List Text) : Except ArgsError Args := parseArgsFrom Args.empty argv

end ExprFront
