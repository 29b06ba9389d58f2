import BoxFlow.IR.Printer
import BoxFlow.Log
import BoxFlow.Options
import BoxFlow.Worklist

/-!
# Escaping values

A handle or cell made in a function is safe from calls that cannot be seen into as long as it does
not escape: by being passed to one, returned, or stored into a cell that escapes or is not local.
`Escape.ofFunc` finds the values that escape, and `mayModify` answers whether a call may write
through a location. Both go by the origins of values, which are looked for once and then known.
-/

namespace BoxFlow

/-- May the call write the given number of bytes at the location? A size of zero means that the
extent of the location is not known. -/
abbrev Oracle := InstId → Value → Nat → Bool

/-- Every call may write everywhere. -/
def Oracle.conservative : Oracle := fun _ _ _ => true

namespace Escape

/-- Where a value may come from: a local allocation, or elsewhere. -/
inductive Origin
  | root (i : InstId)
  | elsewhere
  deriving DecidableEq, Repr

/-- Does the instruction make a cell or a handle? -/
def isRoot (p : Program) (o : Options) (i : InstId) : Bool :=
  match (p.inst i).op with
  | .alloca _ => true
  | .call callee _ => o.kindOf callee = .operation .create
  | _ => false

/-- The values a phi or select passes on. -/
def mergeInputs (p : Program) : Value → List Value
  | .inst i =>
    match (p.inst i).op with
    | .phi incoming => incoming.map (·.1)
    | .select _ t e => [t, e]
    | _ => []
  | _ => []

/-- There are no more values than instructions and operands. -/
def valueBound (p : Program) : Nat :=
  (p.insts.toList.flatMap fun i => i.op.operands).length + p.insts.size + 1

/-- The origin that a value is by itself; a phi or select is none. -/
def ownOrigin (p : Program) (o : Options) : Value → Option Origin
  | .inst i =>
    if isRoot p o i then some (.root i)
    else
      match (p.inst i).op with
      | .phi _ | .select .. => none
      | _ => some .elsewhere
  | _ => some .elsewhere

/-! ## Origins -/

/-- The origins of values, as far as they are known. -/
abbrev Known := List (Value × List Origin)

/-- The origins of several values together. -/
def gather (trace : Value → Known → Option (List Origin × Known)) :
    List Value → Known → Option (List Origin × Known)
  | [], known => some ([], known)
  | v :: vs, known => do
    let (found, known) ← trace v known
    let (more, known) ← gather trace vs known
    return ((found ++ more).eraseDups, known)

/-- The origins of a value that is come to along `path`, a way through phis and selects, unless the
way is longer than `depth`. A value on the path adds nothing to what is found there anyway; what is
found off the start of a path may lack just that, and is not kept as known. -/
def trace (p : Program) (o : Options) :
    Nat → List Value → Value → Known → Option (List Origin × Known)
  | 0, _, _, _ => none
  | depth + 1, path, v, known =>
    match known.lookup v, ownOrigin p o v with
    | some found, _ => some (found, known)
    | none, some r => some ([r], (v, [r]) :: known)
    | none, none =>
      if v ∈ path then some ([], known)
      else do
        let (found, known) ← gather (trace p o depth (v :: path)) (mergeInputs p v) known
        return (found, if path.isEmpty then (v, found) :: known else known)

/-- The origins of a value, and what is known then. -/
def originsFrom (p : Program) (o : Options) (v : Value) (known : Known) : List Origin × Known :=
  (trace p o (p.insts.size + 2) [] v known).getD ([], known)

/-- Every place a value may come from, through phis and selects. -/
def origins (p : Program) (o : Options) (v : Value) : List Origin :=
  (originsFrom p o v []).1

/-! ## What escapes -/

/-- The values that some instructions store, each with the origins of the cell. -/
def storesFrom (p : Program) (o : Options) :
    List InstId → Known → List (List Origin × Value) × Known
  | [], known => ([], known)
  | i :: is, known =>
    match (p.inst i).op with
    | .store value pointer =>
      let (cell, known) := originsFrom p o pointer known
      let (rest, known) := storesFrom p o is known
      ((cell, value) :: rest, known)
    | _ => storesFrom p o is known

/-- The values stored in the function, each with the origins of the cell. -/
def stores (p : Program) (o : Options) (f : FuncId) : List (List Origin × Value) :=
  (storesFrom p o (p.instructions f) []).1

/-- The values stored into a cell with one of the given origins. -/
def storedIn (stores : List (List Origin × Value)) (cells : List Origin) : List Value :=
  (stores.filter fun s => s.1.any (· ∈ cells)).map (·.2)

/-- What escapes by itself: returned values and the arguments of opaque calls. -/
def given (p : Program) (o : Options) (f : FuncId) : List Value :=
  (p.instructions f).flatMap fun i =>
    match (p.inst i).op with
    | .ret v => v.toList
    | .call callee args => if o.kindOf callee = .opaqueCall then args else []
    | _ => []

/-- What a load may yield. -/
def loadedBy (p : Program) (o : Options) (stores : List (List Origin × Value)) (op : Op)
    (known : Known) : List Value × Known :=
  match op with
  | .load pointer =>
    let (cells, known) := originsFrom p o pointer known
    (storedIn stores cells, known)
  | _ => ([], known)

/-- What escapes with a value: what a phi or select takes, what may be loaded, and what a cell
holds. -/
def escapeFrom (p : Program) (o : Options) (stores : List (List Origin × Value)) (v : Value)
    (known : Known) : List Value × Known :=
  match v with
  | .inst i =>
    let (loaded, known) := loadedBy p o stores (p.inst i).op known
    let held := if isRoot p o i then storedIn stores [.root i] else []
    (mergeInputs p v ++ loaded ++ held, known)
  | _ => ([], known)

/-- The search for escaping values: one after another, what escapes with it is met. -/
def spread (p : Program) (o : Options) (f : FuncId) : Worklist Value × Known :=
  let (stores, known) := storesFrom p o (p.instructions f) []
  Worklist.search .oldest (escapeFrom p o stores) (valueBound p)
    (Worklist.meetAll .oldest {} (given p o f ++ storedIn stores [.elsewhere]), known)

/-- The escaping values of a function, in no particular order and each once. -/
def escapingValues (p : Program) (o : Options) (f : FuncId) : List Value :=
  (spread p o f).1.met

end Escape

/-- The escaping values of a function, with what is needed to ask about others. -/
structure Escape where
  program : Program
  options : Options
  func : FuncId
  escaped : List Value
  known : Escape.Known

namespace Escape

def ofFunc (p : Program) (o : Options) (f : FuncId) : Escape :=
  let s := spread p o f
  { program := p, options := o, func := f, escaped := s.1.met, known := s.2 }

/-- The origins of a value, and the oracle that knows them. -/
def ask (e : Escape) (v : Value) : List Origin × Escape :=
  let answer := originsFrom e.program e.options v e.known
  (answer.1, { e with known := answer.2 })

/-- Is what comes from there out of the hands of the function, if `escaped` escapes? -/
def Origin.isOut (escaped : List Value) : Origin → Bool
  | .root i => .inst i ∈ escaped
  | .elsewhere => true

theorem Origin.isOut_root {escaped : List Value} {i : InstId} :
    (root i).isOut escaped = true ↔ .inst i ∈ escaped := decide_eq_true_iff

/-- May the value be something that escapes or is not local? -/
def escapes (e : Escape) (v : Value) : Bool :=
  (e.ask v).1.any (·.isOut e.escaped)

/-- May a call of `callee` write through the location? -/
def mayModifyBy (e : Escape) (callee : String) (location : Value) : Bool :=
  !e.options.readonlyCallees.contains callee && e.escapes location

/-- A question to the oracle of a function. -/
inductive Question
  | origins (v : Value)
  | escapes (v : Value)
  | mayModify (callee : String) (location : Value)
  deriving DecidableEq, Repr

/-- The oracle after a question, which it may have had to look for origins to answer. -/
def asked (e : Escape) : Question → Escape
  | .origins v | .escapes v => (e.ask v).2
  | .mayModify callee location =>
    if e.options.readonlyCallees.contains callee then e else (e.ask location).2

/-- The oracle of a function. -/
def oracle (e : Escape) : Oracle := fun call location _ =>
  match (e.program.inst call).op with
  | .call callee _ => e.mayModifyBy callee location
  | _ => true

def display (e : Escape) : String :=
  s!"EscapeOracle(@{(e.program.func e.func).name}, escaped={e.escaped.length})"

/-- What the analysis of a function reports. -/
def record (e : Escape) : Log.Record where
  level := .debug
  channel := .escape
  message :=
    s!"Escape analysis of @{(e.program.func e.func).name}: {e.escaped.length} escaping value(s)"

end Escape

end BoxFlow
