import ExprFront.Cli.Session
/-!
# The command-line program

`kestrel [--tokens] [--json] [--verbose] [file]`: scan and parse a file, or each line typed at
the prompt. The level of diagnostics comes from `KESTREL_LOG_LEVEL` unless `--verbose` is
given. This is the only part that reads or writes anything: the rest is `plan`, `runFile` and
`promptLines`, which say what to write.

The prompt reads its input a line at a time, each piece ending at a line feed. A line
never spans two pieces, and a carriage return and the line feed after it are always in the
same piece, so splitting each piece gives the lines of the whole input.
-/

namespace ExprFront

/-- Write what a run emits, each on its stream, in order. -/
def writeEmits (emits : List Emit) : IO Unit := do
  let out ← IO.getStdout
  let err ← IO.getStderr
  for e in emits do
    match e with
    | .out line => out.putStrLn line.toString
    | .err line => err.putStrLn line.toString
    | .prompt =>
      out.putStr promptText.toString
      out.flush

/-- Read the input a piece at a time and answer each of its lines. -/
partial def promptLoop (stdin : IO.FS.Stream) (log : Logger) (flags : Flags) : IO Unit := do
  let piece ← stdin.getLine
  if piece.isEmpty then return
  writeEmits (promptLines log flags (splitLines (Text.ofString piece)))
  promptLoop stdin log flags

end ExprFront

open ExprFront in
/-- Run the command line. -/
def main (args : List String) : IO UInt32 := do
  let envLevel ← IO.getEnv "KESTREL_LOG_LEVEL"
  match plan (args.map Text.ofString) (envLevel.map Text.ofString) with
  | .refuse e =>
    writeEmits (refusal e)
    return ExitCode.usage.code.toUInt32
  | .prompt log flags =>
    writeEmits [.prompt]
    promptLoop (← IO.getStdin) log flags
    return ExitCode.ok.code.toUInt32
  | .file path log flags =>
    try
      let source ← IO.FS.readFile path.toString
      let (emits, code) := runFile log flags path (Text.ofString source)
      writeEmits emits
      return code.code.toUInt32
    catch e =>
      writeEmits (log.errorLine (Text.ofString "Could not read '" ++ path ++
        Text.ofString ("': " ++ toString e)))
      return ExitCode.noInput.code.toUInt32
