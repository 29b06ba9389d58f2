import BoxFlow.Dataflow.Transfer

/-!
# The analysis of a function

`Analysis.solve` visits blocks from a worklist, at first those without predecessors. A visit joins
the facts at the ends of the predecessors and takes them through the block; if the facts at its end
have changed, its successors are visited again. The bound on the number of visits is the fuel of
the iteration: an analysis that uses it up with blocks left to visit has not converged.
-/

namespace BoxFlow

/-- What has been found out about a function: the facts before and after every instruction of the
blocks visited, on top of those at their ends. -/
structure Analysis extends View where
  func : FuncId
  before : Std.ExtTreeMap InstId Facts := ∅
  after : Std.ExtTreeMap InstId Facts := ∅
  /-- How many visits have been made. -/
  visits : Nat := 0
  converged : Bool := true
  /-- Distinct warnings, in the order in which they arose. -/
  warnings : List Warning := []
  queries : List Query := []

namespace Analysis

/-! ## Visiting blocks -/

/-- The facts with a classified number: it is its own only alias, and what it holds is not known if
it comes from outside the function. -/
def seedId (c : Classification) (s : Facts) (id : Id) : Facts :=
  let s := { s with aliases := s.aliases.insert id {id} }
  match c.arena.value? id with
  | some (.param _) | some (.global _) => s.setTableOf (c.classOfId id) id {unknown}
  | _ => s

/-- The facts where control enters the function. -/
def seed (c : Classification) : Facts :=
  c.classifiedIds.foldl (seedId c) {}

/-- The facts at the start of a block. -/
def entry (a : Analysis) (b : BlockId) : Facts :=
  match a.program.predecessorBlocks b with
  | [] => seed a.cls
  | preds => (preds.filterMap (a.exits[·]?)).foldl Facts.join {}

/-- The warnings of a list that are not yet there, each once. -/
def addWarnings (known new : List Warning) : List Warning :=
  new.foldl (fun known w => if w ∈ known then known else known ++ [w]) known

/-- Takes the facts `s` through instruction `i`. -/
def step (state : Analysis × Facts) (i : InstId) : Analysis × Facts :=
  let (a, s) := state
  let a := { a with cls.arena := a.reserve i }
  let out := a.transfer i s
  ({ a with
      before := a.before.insert i s
      after := a.after.insert i out
      warnings := addWarnings a.warnings (a.toView.warnings i s)
      queries := a.queries ++ a.toView.queries i s }, out)

/-- A visit of block `b` that has come to the facts `out` at its end. -/
def finish (a : Analysis) (b : BlockId) (out : Facts) : Analysis :=
  { a with exits := a.exits.insert b out, visits := a.visits + 1 }

/-- Are the facts `out` at the end of block `b` news? -/
def changes (a : Analysis) (b : BlockId) (out : Facts) : Bool :=
  match a.exits[b]? with
  | some old => !old.same out
  | none => true

/-- Computes the facts of a block anew. Its successors need a visit if the result is true. -/
def visit (a : Analysis) (b : BlockId) : Analysis × Bool :=
  let (a', out) := (a.program.block b).insts.foldl step (a, a.entry b)
  (a'.finish b out, a.changes b out)

/-- The worklist with the blocks that are not on it yet. -/
def enqueue (worklist new : List BlockId) : List BlockId :=
  new.foldl (fun l b => if b ∈ l then l else l ++ [b]) worklist

/-- Visits the blocks of the worklist, at most `bound` of them. -/
def iterate : Nat → List BlockId → Analysis → Analysis
  | _, [], a => a
  | 0, _ :: _, a => { a with converged := false }
  | bound + 1, b :: worklist, a =>
    let (a, changed) := a.visit b
    iterate bound (if changed then enqueue worklist (a.program.successorBlocks b) else worklist) a

/-- The blocks where an analysis starts. -/
def roots (p : Program) (f : FuncId) : List BlockId :=
  (p.func f).blocks.filter fun b => (p.block b).predecessors.isEmpty

/-- The analysis before any visit. -/
def start (p : Program) (f : FuncId) (oracle : Oracle) (c : Classification) : Analysis :=
  { program := p, func := f, oracle, cls := c }

/-- The analysis of a function whose values have been classified. -/
def solve (p : Program) (f : FuncId) (o : Options) (oracle : Oracle) (c : Classification) :
    Analysis :=
  iterate o.maxIterations (roots p f) (start p f oracle c)

/-! ## Asking for facts -/

/-- The facts before an instruction; none if it has not been visited. -/
def factsBefore (a : Analysis) (i : InstId) : Facts := a.before.getD i {}

def factsAfter (a : Analysis) (i : InstId) : Facts := a.after.getD i {}

/-- The set of a value in a table, in order. -/
def idsIn (a : Analysis) (t : Table) (v : Value) : List Id :=
  match a.cls.arena.find v with
  | some id => (t.get id).toList
  | none => []

/-- The numbers of the calls that may have set a handle before an instruction, or `unknown`. -/
def definitions (a : Analysis) (i : InstId) (v : Value) : List Id :=
  a.idsIn (a.factsBefore i).defs v

def aliasesAfter (a : Analysis) (i : InstId) (v : Value) : List Id :=
  a.idsIn (a.factsAfter i).aliases v

def pointsToAfter (a : Analysis) (i : InstId) (v : Value) : List Id :=
  a.idsIn (a.factsAfter i).pointsTo v

/-! ## Reporting -/

def warningRecords (ws : List Warning) : List Log.Record :=
  ws.map fun w => { level := .warning, channel := .dataflow, message := w.message }

/-- What the analysis reports, in order. -/
def records (a : Analysis) : List Log.Record :=
  let name := (a.program.func a.func).name
  let stopped : Log.Record :=
    { level := .warning, channel := .dataflow
      message := s!"Dataflow analysis of @{name} stopped after {a.visits} iterations " ++
        "without reaching a fixpoint" }
  let converged := if a.converged then "True" else "False"
  let summary : Log.Record :=
    { level := .debug, channel := .dataflow
      message := s!"Dataflow analysis of @{name}: {a.visits} block visit(s), " ++
        s!"converged={converged}" }
  warningRecords a.warnings ++ (if a.converged then [] else [stopped]) ++ [summary]

end Analysis

end BoxFlow
