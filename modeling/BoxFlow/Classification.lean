import BoxFlow.Arena
import BoxFlow.IR.Printer
import BoxFlow.Log
import BoxFlow.Options

/-!
# Which values matter

`Classification.ofFunc` finds the values of a function that are handles of boxed integers (`data`)
and those that are cells holding handles or other cells (`pointer`); all others are irrelevant.
Calls and allocas seed the two sets, and stores, loads, phis and selects spread them, in scans over
the whole function until a scan adds nothing.
-/

namespace BoxFlow

inductive ValueClass
  | data
  | pointer
  | irrelevant
  deriving DecidableEq, Repr

def ValueClass.name : ValueClass → String
  | data => "data"
  | pointer => "pointer"
  | irrelevant => "irrelevant"

def ValueClass.ofName? (s : String) : Option ValueClass :=
  [data, pointer, irrelevant].find? (·.name = s)

/-- The values that the rule of an instruction may classify. -/
def Program.mentioned (p : Program) (i : InstId) : List Value :=
  .inst i :: (p.inst i).op.operands

/-- What is known about the values of a function. A number in both sets counts as `data`;
`holdsData` and `holdsPointers` are the values that may hold something of that class. -/
structure Classification where
  arena : Arena := default
  data : IdSet := ∅
  pointer : IdSet := ∅
  holdsData : IdSet := ∅
  holdsPointers : IdSet := ∅
  kinds : Std.ExtTreeMap InstId CallKind := ∅
  deriving DecidableEq

namespace Classification

def classOfId (c : Classification) (id : Id) : ValueClass :=
  if id ∈ c.data then .data
  else if id ∈ c.pointer then .pointer
  else .irrelevant

def classOf (c : Classification) (v : Value) : ValueClass :=
  match c.arena.find v with
  | some id => c.classOfId id
  | none => .irrelevant

def isClassified (c : Classification) (v : Value) : Bool := c.classOf v ≠ .irrelevant

def kindOf (c : Classification) (call : InstId) : CallKind :=
  c.kinds.getD call .opaqueCall

/-- The classified numbers, in order. -/
def classifiedIds (c : Classification) : List Id := (c.data ∪ c.pointer).toList

/-- The classified values of one class, by number. -/
def valuesOf (c : Classification) (k : ValueClass) : List Value :=
  (c.classifiedIds.filter fun id => c.classOfId id = k).filterMap c.arena.value?

/-- The class of what a number may hold. -/
def pointeeClassOfId (c : Classification) (id : Id) : ValueClass :=
  if id ∈ c.holdsData then .data
  else if id ∈ c.holdsPointers then .pointer
  else .irrelevant

/-- The class of what a value may hold. -/
def pointeeClass (c : Classification) (v : Value) : ValueClass :=
  match c.arena.find v with
  | some id => c.pointeeClassOfId id
  | none => .irrelevant

/-- How many numbers are `pointer` and not `data`. -/
def pointerCount (c : Classification) : Nat :=
  (c.pointer.toList.filter (· ∉ c.data)).length

def display (c : Classification) : String :=
  s!"Classification(data={c.data.size}, pointer={c.pointerCount})"

/-! ## Growth -/

/-- `v` in the set of a class. Literals are never classified. -/
def add (c : Classification) (v : Value) (k : ValueClass) : Classification :=
  if v.isLiteral then c
  else
    let id := c.arena.idOf v
    match k with
    | .data => { c with arena := c.arena.insert v, data := c.data.insert id }
    | .pointer => { c with arena := c.arena.insert v, pointer := c.pointer.insert id }
    | .irrelevant => c

/-- `v` as something that may hold values of a class. -/
def addPointee (c : Classification) (v : Value) (k : ValueClass) : Classification :=
  let id := c.arena.idOf v
  match k with
  | .data => { c with arena := c.arena.insert v, holdsData := c.holdsData.insert id }
  | .pointer => { c with arena := c.arena.insert v, holdsPointers := c.holdsPointers.insert id }
  | .irrelevant => c

/-! ## Seeds -/

/-- What an instruction says by itself. -/
def seed (p : Program) (o : Options) (c : Classification) (i : InstId) : Classification :=
  match (p.inst i).op with
  | .alloca _ => c.add (.inst i) .pointer
  | .call callee args =>
    let kind := o.kindOf callee
    let c := { c with kinds := c.kinds.insert i kind }
    let c := if kind = .operation .create then c.add (.inst i) .data else c
    (args.take kind.handleArgs).foldl (·.add · .data) c
  | _ => c

/-! ## Spreading -/

/-- What is stored decides what the cell holds. -/
def visitStore (c : Classification) (value pointer : Value) : Classification :=
  match c.classOf value with
  | .irrelevant => c
  | k => (c.add pointer .pointer).addPointee pointer k

/-- A classified result makes its source a cell that holds it. -/
def loadedFrom (c : Classification) (result pointer : Value) : Classification :=
  if c.isClassified result then
    let c := c.add pointer .pointer
    c.addPointee pointer (c.classOf result)
  else c

/-- What a cell holds is what is loaded, and the other way round. -/
def visitLoad (c : Classification) (result pointer : Value) : Classification :=
  let c := c.loadedFrom result pointer
  if c.classOf pointer = .pointer then c.add result (c.pointeeClass pointer) else c

/-- A phi or select is of the class of its inputs, and they of its. -/
def spread (c : Classification) (result : Value) (inputs : List Value) : Classification :=
  match c.classOf result with
  | .irrelevant => inputs.foldl (fun c v => c.add result (c.classOf v)) c
  | k => inputs.foldl (·.add · k) c

/-- What is joined is of one class, and cells that are joined share what they may hold. -/
def visitMerge (c : Classification) (result : Value) (inputs : List Value) : Classification :=
  let c := c.spread result inputs
  if c.classOf result = .pointer then
    let members := result :: inputs.filter fun v => c.classOf v = .pointer
    members.foldl (fun c a => members.foldl (fun c b => c.addPointee a (c.pointeeClass b)) c) c
  else c

def visit (p : Program) (c : Classification) (i : InstId) : Classification :=
  match (p.inst i).op with
  | .store value pointer => c.visitStore value pointer
  | .load pointer => c.visitLoad (.inst i) pointer
  | .phi incoming => c.visitMerge (.inst i) (incoming.map (·.1))
  | .select _ t e => c.visitMerge (.inst i) [t, e]
  | _ => c

def scan (p : Program) (is : List InstId) (c : Classification) : Classification :=
  is.foldl (visit p) c

/-- Scans until one adds nothing, at most `bound` productive ones; the result counts them all. -/
def settle (p : Program) (is : List InstId) : Nat → Classification → Classification × Nat
  | 0, c => (c, 1)
  | bound + 1, c =>
    let c' := scan p is c
    if c' = c then (c, 1)
    else
      let (c'', n) := settle p is bound c'
      (c'', n + 1)

/-- Every value that occurs in the function can enter four sets. -/
def scanBound (p : Program) (is : List InstId) : Nat :=
  4 * (is.flatMap p.mentioned).length

/-- The classification of a function, and how many scans it took. -/
def ofFunc (p : Program) (o : Options) (f : FuncId) : Classification × Nat :=
  let is := p.instructions f
  settle p is (scanBound p is) (is.foldl (seed p o) {})

/-- What classifying a function reports. -/
def record (p : Program) (f : FuncId) (c : Classification) (scans : Nat) : Log.Record where
  level := .debug
  channel := .classifier
  message := s!"Classified @{(p.func f).name} in {scans} scan(s): {c.data.size} data, " ++
    s!"{c.pointerCount} pointer"

end Classification

end BoxFlow
