import BoxFlow.CommandLine.Arguments
import BoxFlow.Loading
import BoxFlow.Options.OfJson
import BoxFlow.Pass

/-!
# Running a command

What a run prints, logs and writes, as a function of its arguments and of the files it may read.
-/

namespace BoxFlow

/-- What a run leaves behind. -/
structure Outcome where
  exit : Nat
  stdout : String := ""
  log : List Log.Record := []
  /-- A file to be written: its path and its text. -/
  written : Option (String × String) := none
  deriving DecidableEq, Repr

namespace Outcome

def ok : Nat := 0
/-- The input can be read but is not valid. -/
def invalid : Nat := 1
/-- A file, the text of the module, the configuration or the arguments cannot be used. -/
def unusable : Nat := 2

def error (message : String) : Log.Record :=
  { level := .error, channel := .main, message }

def ofRejection (log : List Log.Record) : Rejection → Outcome
  | .invalid problems _ =>
    { exit := invalid, log := log ++ problems.map fun p => error p.message }
  | r => { exit := unusable, log := log ++ [error r.diagnostic.text] }

end Outcome

namespace Invocation

def version : String := "0.1.0"

/-- The program name and version, as `--version` prints them. -/
def versionText : String := s!"catflow {version}\n"

/-- The records that are shown at a verbosity. -/
def level (v : Invocation) : Log.Level :=
  match v.verbosity with
  | 0 => .warning
  | 1 => .info
  | _ => .debug

/-- An option that is given and not empty. -/
def given? (s : Option String) : Option String := s.filter (!·.isEmpty)

/-- The files a run reads, in order. -/
def inputs (v : Invocation) : List String :=
  (given? v.config).toList ++ v.file.toList

/-- The options of a run, with what loading them reports. -/
def loadOptions (v : Invocation) (read : String → Text.FileContent) :
    Except (Decimal.Overlong ⊕ String) (Options × List Log.Record) := do
  let (o, records) ← match given? v.config with
    | none => pure (({} : Options), [])
    | some path =>
      match Options.ofFile path (read path) with
      | .ok o =>
        let record : Log.Record :=
          { level := .debug, channel := .config
            message := s!"Loaded pass options from {Text.plainPath path}: {o.display}" }
        pure (o, [record])
      | .error (.config f) => throw (.inr f.message)
      | .error (.overlong e) => throw (.inl e)
  let o := if v.catNames then { o with names := Names.cat } else o
  match v.maxIterations with
  | none => return (o, records)
  | some n =>
    if n ≤ 0 then throw (.inr "--max-iterations must be positive")
    else return ({ o with maxIterations := n.toNat }, records)

def optimize (v : Invocation) (o : Options) (p : Program) (log : List Log.Record) :
    Except EditFault Outcome :=
  let kind : OracleKind := if v.conservative then .conservative else .escape
  match (Pass.runModule o kind).run { program := p } with
  | .error f _ => .error f
  | .ok changed s =>
    let dumps := s.analyses.flatMap fun a => v.dumps.map (a.report a.program)
    let last : Log.Record :=
      { level := .info, channel := .main
        message := s!"Module {p.name} " ++ if changed then "changed" else "unchanged" }
    let log := log ++ s.records ++ [last]
    let dumped := String.join dumps
    match v.output.filter (· ≠ "-") with
    | none => .ok { exit := Outcome.ok, stdout := dumped ++ s.program.text, log }
    | some path =>
      let written := some (Text.resolvedPath path, s.program.text)
      .ok { exit := Outcome.ok, stdout := dumped, log, written }

def check (file : String) (p : Program) (log : List Log.Record) : Outcome :=
  { exit := Outcome.ok, log
    stdout := s!"{file}: ok ({p.functions.length} function(s), {p.globals.length} global(s))\n" }

def cfg (v : Invocation) (file : String) (p : Program) (log : List Log.Record) : Outcome :=
  let graphs (fs : List FuncId) : String :=
    String.join (fs.map fun f => p.graph f (some ("@" ++ (p.func f).name)) ++ "\n")
  match given? v.function with
  | none => { exit := Outcome.ok, stdout := graphs p.moduleFuncs, log }
  | some name =>
    match p.functions.lookup name with
    | some f => { exit := Outcome.ok, stdout := graphs [f], log }
    | none =>
      { exit := Outcome.invalid, log := log ++ [Outcome.error s!"no function @{name} in {file}"] }

/-- Why a run breaks off without an outcome of its own. -/
inductive Abort
  | overlong (e : Decimal.Overlong)
  | edit (f : EditFault)
  deriving DecidableEq, Repr

/-- The outcome with every record, whatever the verbosity. -/
def perform (v : Invocation) (read : String → Text.FileContent) : Except Abort Outcome :=
  match v.command, v.file with
  | some command, some file =>
    match v.loadOptions read with
    | .error (.inl e) => .error (.overlong e)
    | .error (.inr message) =>
      .ok { exit := Outcome.unusable, log := [Outcome.error message] }
    | .ok (o, log) =>
      match Program.loadFile file (read file) o with
      | .error r => .ok (.ofRejection log r)
      | .ok p =>
        let log := log ++ [p.loadRecord (Text.plainPath file)]
        match command with
        | .optimize =>
          match v.optimize o p log with
          | .ok outcome => .ok outcome
          | .error f => .error (.edit f)
        | .check => .ok (check file p log)
        | .cfg => .ok (v.cfg file p log)
  | _, _ => .ok { exit := Outcome.unusable }

/-- The outcome of a run; its log holds what the verbosity shows. -/
def run (v : Invocation) (read : String → Text.FileContent) : Except Abort Outcome :=
  (v.perform read).map fun outcome =>
    { outcome with log := Log.atLeast v.level outcome.log }

end Invocation

end BoxFlow
