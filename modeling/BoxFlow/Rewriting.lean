import BoxFlow.Dataflow.Analysis
import BoxFlow.IR.Edit
import BoxFlow.Word

/-!
# Rewriting a function by its facts

A handle is constant before an instruction if its definitions there are known and every one of them
is a `create` or `write` of the same literal. `Rewriter.foldArithmetic` replaces an `add` or
`subtract` by one `write` where its operands are constant or it is trivial, and
`Rewriter.propagateConstants` replaces the results of constant reads by literals. The facts are
those of the function before any rewriting; a replaced call is looked up through the `write` that
took its place.
-/

namespace BoxFlow

/-- How many rewrites of each kind have been made. -/
structure RewriteStats where
  folded : Nat := 0
  simplified : Nat := 0
  propagated : Nat := 0
  deriving DecidableEq, Repr

def RewriteStats.total (s : RewriteStats) : Nat := s.folded + s.simplified + s.propagated

/-- One rewrite, with the instructions as they stood. -/
inductive Rewrite
  | simplified (call write : String)
  | folded (call write : String)
  | propagated (value : Int) (uses : Nat) (call : String)
  deriving DecidableEq, Repr

def Rewrite.message : Rewrite → String
  | simplified call write => s!"Simplified {call} to {write}"
  | folded call write => s!"Folded {call} to {write}"
  | propagated value uses call => s!"Propagated {value} into {uses} use(s) of {call}"

/-- What the rewrites of a function go by: its analysis, and the writes that have replaced
arithmetic calls so far. -/
structure Rewriter where
  analysis : Analysis
  names : Names
  replaced : List (InstId × InstId) := []
  stats : RewriteStats := {}

/-! ## Constancy -/

namespace Rewriter

/-- The literal that a definition gives its handle. -/
def literalOf (r : Rewriter) (p : Program) (definition : Id) : Option Int := do
  let .inst i ← r.analysis.cls.arena.value? definition | none
  let .call _ _ := (p.inst i).op | none
  let i := (r.replaced.lookup i).getD i
  let .call _ args := (p.inst i).op | none
  let v ← match r.analysis.cls.kindOf i with
    | .operation .create => args[0]?
    | .operation .write => args[1]?
    | _ => none
  match v with
  | .literal l => some l.value
  | _ => none

/-- The value that all members of a list share. -/
def common? : List Int → Option Int
  | [] => none
  | c :: cs => if cs.all (· = c) then some c else none

/-- The literal that a handle certainly holds right before an instruction. -/
def constantOf (r : Rewriter) (p : Program) (i : InstId) (v : Value) : Option Int :=
  ((r.analysis.definitions i v).mapM (r.literalOf p)).bind common?

/-! ## Arithmetic -/

/-- What an arithmetic call comes to. -/
inductive Outcome
  /-- A value less itself. -/
  | cancelled
  | constant (n : Int)
  /-- The value of another handle, to which zero is added. -/
  | copied (handle : Value)
  deriving DecidableEq, Repr

/-- What the call `i` comes to, if that is known. -/
def outcome? (r : Rewriter) (p : Program) (i : InstId) : Option Outcome :=
  match (p.inst i).op with
  | .call _ (_ :: left :: right :: _) =>
    let isAdd := r.analysis.cls.kindOf i = .operation .add
    if !isAdd && left = right then some .cancelled
    else
      match r.constantOf p i left, r.constantOf p i right with
      | some a, some b => some (.constant (wrap64 (if isAdd then a + b else a - b)))
      | some a, none => if isAdd && a = 0 then some (.copied right) else none
      | none, some b => if isAdd && b = 0 then some (.copied left) else none
      | none, none => none
  | _ => none

/-- The calls of a function of the given operations. -/
def callsOf (r : Rewriter) (p : Program) (operations : List Operation) : List InstId :=
  (p.calls r.analysis.func).filter fun i =>
    match r.analysis.cls.kindOf i with
    | .operation o => o ∈ operations
    | _ => false

end Rewriter

/-- A rewriting in progress. -/
structure RewriteState where
  program : Program
  rewriter : Rewriter
  done : List Rewrite := []

/-- A step of a rewriting; on failure it leaves what was done so far. -/
abbrev RewriteM (α : Type) := EStateM EditFault RewriteState α

namespace RewriteM

def liftEdit {α : Type} (e : Edit α) : RewriteM α := fun s =>
  match e s.program with
  | .ok a p => .ok a { s with program := p }
  | .error f p => .error f { s with program := p }

def ofExcept {α : Type} : Except EditFault α → RewriteM α
  | .ok a => pure a
  | .error f => throw f

/-- A new call right before another, known to be the given operation. -/
def insertCall (before : InstId) (o : Operation) (args : List Value) (ty : Ty)
    (hint : Option String := none) : RewriteM InstId := do
  let s ← get
  let place ← ofExcept (Place.before s.program before)
  let callee := s.rewriter.names.nameOf o
  let i ← liftEdit (Edit.insert place (.call callee args) ty hint)
  modify fun s => { s with
    rewriter.analysis.cls.kinds := s.rewriter.analysis.cls.kinds.insert i (.operation o) }
  return i

def newLiteral (value : Int) (ty : Ty := .i64) : RewriteM Value :=
  modifyGet fun s =>
    let (v, p) := s.program.newLiteral value ty
    (v, { s with program := p })

/-- Notes a rewrite and counts it. -/
def note (rewrite : Rewrite) (count : RewriteStats → RewriteStats) : RewriteM Unit :=
  modify fun s => { s with rewriter.stats := count s.rewriter.stats, done := s.done ++ [rewrite] }

/-- Takes instructions out of their blocks. -/
def eraseAll (is : List InstId) : RewriteM Unit :=
  is.forM fun i => liftEdit (Edit.erase i)

/-! ## The two rewrites -/

/-- Puts a `write` of `operand` before the arithmetic call `i` with the same destination. -/
def replaceWithWrite (i : InstId) (operand : Value) : RewriteM InstId := do
  let args := ((← get).program.inst i).op.operands
  let write ← insertCall i .write (args.take 1 ++ [operand]) .void
  modify fun s => { s with rewriter.replaced := (i, write) :: s.rewriter.replaced }
  return write

/-- Replaces the arithmetic call `i` if it is known what it comes to. The result says whether the
call has to go. -/
def foldCall (i : InstId) : RewriteM Bool := do
  let s ← get
  match s.rewriter.outcome? s.program i with
  | none => return false
  | some outcome =>
    let operand ← match outcome with
      | .cancelled => newLiteral 0
      | .constant n => newLiteral n
      | .copied handle => .inst <$> insertCall i .read [handle] .i64 (some "val")
    let write ← replaceWithWrite i operand
    let p := (← get).program
    let call := p.instText i
    let write := p.instText write
    match outcome with
    | .constant _ => note (.folded call write) fun c => { c with folded := c.folded + 1 }
    | _ => note (.simplified call write) fun c => { c with simplified := c.simplified + 1 }
    return true

/-- Replaces `add` and `subtract` calls; true if there were any to replace. -/
def foldArithmetic : RewriteM Bool := do
  let s ← get
  let doomed ← (s.rewriter.callsOf s.program [.add, .subtract]).filterM foldCall
  eraseAll doomed
  return !doomed.isEmpty

/-- Replaces the result of the `read` call `i` if its handle is constant. The result says whether
the call has to go. -/
def propagateCall (i : InstId) : RewriteM Bool := do
  let s ← get
  let inst := s.program.inst i
  match inst.op.operands.head?.bind (s.rewriter.constantOf s.program i) with
  | none => return false
  | some value =>
    let literal ← newLiteral value (if inst.hasResult then inst.ty else .i64)
    let uses ← modifyGet fun s =>
      let (n, p) := s.program.replaceAllUses s.rewriter.analysis.func (.inst i) literal
      (n, { s with program := p })
    note (.propagated value uses ((← get).program.instText i)) fun c =>
      { c with propagated := c.propagated + 1 }
    return true

/-- Replaces constant reads by literals; true if there were any. -/
def propagateConstants : RewriteM Bool := do
  let s ← get
  let doomed ← (s.rewriter.callsOf s.program [.read]).filterM propagateCall
  eraseAll doomed
  return !doomed.isEmpty

/-- Both rewrites, if the facts can be relied on; true if the function has changed. -/
def run : RewriteM Bool := do
  if (← get).rewriter.analysis.converged then
    let folded ← foldArithmetic
    let propagated ← propagateConstants
    return folded || propagated
  else return false

end RewriteM

/-- What a rewriting reports. -/
def RewriteState.records (s : RewriteState) : List Log.Record :=
  if s.rewriter.analysis.converged then
    s.done.map fun r => { level := .debug, channel := .rewriting, message := r.message }
  else
    let name := (s.program.func s.rewriter.analysis.func).name
    [{ level := .warning, channel := .rewriting
       message := s!"Skipping rewrites of @{name}: dataflow facts did not converge" }]

end BoxFlow
