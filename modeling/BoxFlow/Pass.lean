import BoxFlow.Rewriting

/-!
# The pass

Classification, analysis and rewriting, one function after another. Nothing is carried from one
function to the next.
-/

namespace BoxFlow

/-- Which calls are taken to write where. -/
inductive OracleKind
  | escape
  | conservative
  deriving DecidableEq, Repr

namespace OracleKind

def name : OracleKind → String
  | escape => "escape"
  | conservative => "conservative"

def ofName? (s : String) : Option OracleKind := [escape, conservative].find? (·.name = s)

end OracleKind

/-- What one run over a function did. -/
structure FuncResult where
  func : String
  changed : Bool
  visits : Nat
  converged : Bool
  stats : RewriteStats
  warnings : List Warning
  deriving DecidableEq, Repr

/-- A pass in progress: the program, what has been done, and what has been reported. `analyses` are
those of the functions, each from before the function was rewritten. -/
structure PassState where
  program : Program
  results : List FuncResult := []
  analyses : List Analysis := []
  records : List Log.Record := []

abbrev PassM (α : Type) := EStateM EditFault PassState α

namespace Pass

/-- The oracle for a function, with what making it reports. -/
def oracleFor (p : Program) (o : Options) (kind : OracleKind) (f : FuncId) :
    Oracle × List Log.Record :=
  match kind with
  | .conservative => (.conservative, [])
  | .escape =>
    let e := Escape.ofFunc p o f
    (e.oracle, [e.record])

/-- The analysis of a function, with what it reports. -/
def analyze (p : Program) (o : Options) (kind : OracleKind) (f : FuncId) :
    Analysis × List Log.Record :=
  let (cls, scans) := Classification.ofFunc p o f
  let (oracle, records) := oracleFor p o kind f
  let a := Analysis.solve p f o oracle cls
  (a, Classification.record p f cls scans :: records ++ a.records)

def report (records : List Log.Record) : PassM Unit :=
  modify fun s => { s with records := s.records ++ records }

/-- Runs a rewriting on the program. -/
def rewrite {α : Type} (r : Rewriter) (m : RewriteM α) : PassM (α × RewriteState) := fun s =>
  match m { program := s.program, rewriter := r } with
  | .ok a t => .ok (a, t) { s with program := t.program, records := s.records ++ t.records }
  | .error f t => .error f { s with program := t.program, records := s.records ++ t.records }

def summaryRecord (cls : Classification) (r : FuncResult) : Log.Record where
  level := .info
  channel := .pass
  message := s!"@{r.func}: {cls.data.size} data, {cls.pointerCount} pointer; " ++
    s!"{r.visits} iteration(s); {r.stats.folded} folded, {r.stats.simplified} simplified, " ++
    s!"{r.stats.propagated} propagated"

/-- Analyses and rewrites one function; true if it has changed. A function without blocks is left
alone. -/
def runFunc (o : Options) (kind : OracleKind) (f : FuncId) : PassM Bool := do
  let p := (← get).program
  if (p.func f).blocks.isEmpty then return false
  let (a, records) := analyze p o kind f
  report records
  modify fun s => { s with analyses := s.analyses ++ [a] }
  let (changed, t) ← rewrite { analysis := a, names := o.names } RewriteM.run
  let result : FuncResult :=
    { func := (p.func f).name, changed, visits := a.visits, converged := a.converged
      stats := t.rewriter.stats, warnings := a.warnings }
  modify fun s => { s with results := s.results ++ [result] }
  report [summaryRecord a.cls result]
  return changed

/-- Runs over every function of the module; true if one has changed. -/
def runModule (o : Options) (kind : OracleKind) : PassM Bool := do
  let changes ← (← get).program.moduleFuncs.mapM (runFunc o kind)
  return changes.any id

end Pass

end BoxFlow
