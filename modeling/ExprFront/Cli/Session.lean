import ExprFront.Source
import ExprFront.Tree.Json
import ExprFront.Text.Blank
import ExprFront.Cli.Args
import ExprFront.Cli.Log
/-!
# Running the command line

The command line runs one scan-and-parse cycle per input: a whole file, or each line typed at
the prompt. A cycle writes program output (the token dump, then the tree) and diagnostics (a
debug count of tokens and errors, each scan error, or the parse error); diagnostics pass
through the logger's level. The cycle fails with the data-error code when there was an error.

The prompt writes `> `, then reads lines until the input ends, writing `> ` again after each.
A line ends at a line feed, a carriage return, or both together; the last line counts even
without an end. Lines that are blank once trimmed are skipped. The prompt always succeeds.

Everything here is pure: a run is the list of what it writes, in order, and an exit code.

## Main definitions

* `Emit`, `ExitCode`.
* `runSource`, `splitLines`, `runPrompt`.
* `Plan`, `plan`: what a command line asks for.
-/

namespace ExprFront

/-- One thing a run writes. -/
inductive Emit where
  /-- A line of program output. -/
  | out (line : Text)
  /-- A line of diagnostics. -/
  | err (line : Text)
  /-- The prompt, `> `, on the prompt stream. -/
  | prompt
  deriving DecidableEq, Repr

/-- How a run ends. -/
inductive ExitCode where
  /-- Success. -/
  | ok
  /-- The command line was refused. -/
  | usage
  /-- The input had an error. -/
  | dataError
  /-- The input could not be read. -/
  | noInput
  deriving DecidableEq, Repr

/-- The number a process exits with. -/
def ExitCode.code : ExitCode → Nat
  | .ok => 0
  | .usage => 64
  | .dataError => 65
  | .noInput => 66

/-- The text of the prompt. -/
def promptText : Text := Text.ofString "> "

/-- The usage line. -/
def usageLine : Text := Text.ofString "Usage: kestrel [--tokens] [--json] [--verbose] [file]"

namespace Logger

/-- An error diagnostic, if errors get through. -/
def errorLine (log : Logger) (line : Text) : List Emit :=
  if log.enabled .error then [.err line] else []

/-- A debug diagnostic, marked `[debug]`, if debug diagnostics get through. -/
def debugLine (log : Logger) (line : Text) : List Emit :=
  if log.enabled .debug then [.err (Text.ofString "[debug] " ++ line)] else []

end Logger

/-- How a cycle writes a tree: indented JSON with numeric kinds, or the rendering. -/
def showTree (flags : Flags) (e : Expr Nat) : Text :=
  if flags.json then (e.toJson .codes none).indented else e.render

/-- One scan-and-parse cycle. -/
def runSource (log : Logger) (flags : Flags) (src : Text) : List Emit × ExitCode :=
  let r := parseSource src
  let count := log.debugLine (Text.ofString "scanned " ++ Text.ofNat r.tokens.length ++
    Text.ofString " tokens, " ++ Text.ofNat r.errors.length ++ Text.ofString " errors")
  let dump := if flags.tokens then r.tokens.map (fun t => Emit.out t.dumpLine) else []
  let scanErrors := r.errors.flatMap (fun e => log.errorLine e.report)
  let head := count ++ dump ++ scanErrors
  match r.result with
  | none => (head, .dataError)
  | some (.error e) => (head ++ log.errorLine e.report, .dataError)
  | some (.ok tree) => (head ++ [.out (showTree flags tree)], .ok)

/-- Split units into lines, `line` holding the units of the current line in reverse. -/
def splitLinesFrom (line : List UInt16) : List UInt16 → List Text
  | [] => if line.isEmpty then [] else [⟨line.reverse⟩]
  | 0x0D :: 0x0A :: rest => ⟨line.reverse⟩ :: splitLinesFrom [] rest
  | 0x0D :: rest => ⟨line.reverse⟩ :: splitLinesFrom [] rest
  | 0x0A :: rest => ⟨line.reverse⟩ :: splitLinesFrom [] rest
  | u :: rest => splitLinesFrom (u :: line) rest

/-- The lines of an input: ended by `\r\n`, `\n` or `\r`; a last line without an end counts
when it is not empty. -/
def splitLines (input : Text) : List Text := splitLinesFrom [] input.units

/-- What the prompt writes for lines read: each non-blank line's cycle, then the prompt. -/
def promptLines (log : Logger) (flags : Flags) (lines : List Text) : List Emit :=
  lines.flatMap (fun line =>
    (if Text.isAllBlank line then [] else (runSource log flags line).1) ++ [.prompt])

/-- The prompt over a whole input. -/
def runPrompt (log : Logger) (flags : Flags) (input : Text) : List Emit :=
  .prompt :: promptLines log flags (splitLines input)

/-- A cycle over a file's text, after a debug note of its length. -/
def runFile (log : Logger) (flags : Flags) (path source : Text) : List Emit × ExitCode :=
  let note := log.debugLine (Text.ofString "read " ++ Text.ofNat source.length ++
    Text.ofString " characters from " ++ path)
  let (emits, code) := runSource log flags source
  (note ++ emits, code)

/-- What a command line asks for. -/
inductive Plan where
  /-- Refuse it: write the reason and the usage line, exit with the usage code. -/
  | refuse (e : ArgsError)
  /-- Run the prompt. -/
  | prompt (log : Logger) (flags : Flags)
  /-- Run a file. -/
  | file (path : Text) (log : Logger) (flags : Flags)

/-- The plan for a command line, with the level the environment asks for: debug when
verbose, else the environment's. -/
def plan (argv : List Text) (envLevel : Option Text) : Plan :=
  match parseArgs argv with
  | .error e => .refuse e
  | .ok a =>
    let log : Logger := ⟨some (if a.verbose then .debug else LogLevel.fromEnv envLevel)⟩
    match a.file with
    | none => .prompt log a.flags
    | some path => .file path log a.flags

/-- What a refused command line writes. -/
def refusal (e : ArgsError) : List Emit :=
  [.err (Text.ofString "kestrel: " ++ e.message), .err usageLine]

end ExprFront
