import BoxFlow.CommandLine.Run

/-!
# The program

Reads the files that a run needs, runs it, and does what its outcome says.
-/

namespace BoxFlow.Main

/-- What is found at a path on disk. -/
def contentAt (path : String) : IO Text.FileContent := do
  try
    return .bytes (← IO.FS.readBinFile path).toList
  catch
    | .noFileOrDirectory .. => return .missing
    | _ => return .directory

/-- Writes a text, making the directories of its path. -/
def writeText (path text : String) : IO Unit := do
  let directory := "/".intercalate (path.splitOn "/").dropLast
  unless directory.isEmpty do IO.FS.createDirAll directory
  IO.FS.writeFile path text

def usageText : String :=
  "usage: catflow [-h] [--version] [-v] \x7boptimize,check,cfg\x7d ..."

/-- Runs an invocation; the result is the exit code. -/
def perform (v : Invocation) : IO UInt32 := do
  if v.command.isNone then
    IO.eprintln usageText
    return 2
  let files ← v.inputs.mapM fun path => return (path, ← contentAt path)
  match v.run fun path => (files.lookup path).getD .missing with
  | .error (.overlong e) =>
    IO.eprintln e.message
    return 1
  | .error (.edit f) =>
    IO.eprintln f.message
    return 1
  | .ok outcome =>
    for r in outcome.log do IO.eprintln r.line
    IO.print outcome.stdout
    match outcome.written with
    | some (path, text) => writeText path text
    | none => pure ()
    return outcome.exit.toUInt32

/-- Runs the program on its arguments; the result is the exit code. -/
def start (args : List String) : IO UInt32 := do
  match Invocation.parse args with
  | .ok v => perform v
  | .error .usage =>
    IO.eprintln usageText
    return 2
  | .error .help =>
    IO.println usageText
    return 0
  | .error .version =>
    IO.print Invocation.versionText
    return 0

end BoxFlow.Main

def main (args : List String) : IO UInt32 := BoxFlow.Main.start args
