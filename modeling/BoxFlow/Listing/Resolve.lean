import BoxFlow.IR.Edit
import BoxFlow.Listing

/-!
# From listings to programs

Names are resolved function by function. The labels of a function are known before its
instructions, so a branch may go forward; the results are known before the operands, so a phi may
take a value from further down. What is wrong first in that order is reported, with its place.
-/

namespace BoxFlow.Listing

/-- Why a listing is no program. -/
inductive NameFault
  | functionRedefined (name : String)
  | duplicateParameter (func : String)
  | duplicateLabel (label : String)
  | unknownLabel (label : String)
  | redefined (name : String)
  | voidValue (name : String)
  | unknownGlobal (name : String)
  | undefinedValue (name : String)
  deriving DecidableEq, Repr

def NameFault.message : NameFault → String
  | functionRedefined n => s!"function @{n} redefined"
  | duplicateParameter f => s!"duplicate parameter in @{f}"
  | duplicateLabel l => s!"duplicate label {Text.quote l}"
  | unknownLabel l => s!"unknown label %{l}"
  | redefined n => s!"%{n} redefined"
  | voidValue n => s!"%{n} is assigned a void value"
  | unknownGlobal n => s!"unknown global @{n}"
  | undefinedValue n => s!"use of undefined value %{n}"

/-- A fault, and how many characters of the text are left at its place. -/
abbrev Resolved := Except (NameFault × Nat)

/-- What the names of a function stand for. -/
structure Scope where
  labels : Keyed BlockId := []
  values : Keyed Value := []

/-- An instruction whose operands are still by name. -/
structure Draft where
  block : BlockId
  name : Option String
  form : Form Typed BlockId
  ty : Ty
  left : Nat

/-! ## Labels -/

def addBlock (f : FuncId) (state : Scope × Program) (b : Block) : Resolved (Scope × Program) := do
  let (scope, p) := state
  if (scope.labels.lookup b.label).isSome || (scope.values.lookup b.label).isSome then
    throw (.duplicateLabel b.label, b.left)
  let (id, p) := p.addBlock f b.label
  return ({ scope with labels := scope.labels.put b.label id }, p)

def resolveLabels (labels : Keyed BlockId) (l : Line) : Resolved (Form Typed BlockId) :=
  match l.form.blocks.find? fun name => (labels.lookup name).isNone with
  | some name => .error (.unknownLabel name, l.left)
  | none => .ok (l.form.map id fun name => (labels.lookup name).getD 0)

/-! ## Results -/

/-- The draft of a line of block `b`, which will be instruction `id`, and the names after it. -/
def draft (f : FuncId) (b : BlockId) (id : InstId) (scope : Scope) (p : Program) (l : Line) :
    Resolved (Draft × Scope × Program) := do
  let form ← resolveLabels scope.labels l
  let new : Draft := { block := b, name := l.result, form, ty := l.ty, left := l.left }
  match l.result with
  | some name =>
    if (scope.values.lookup name).isSome || (scope.labels.lookup name).isSome then
      throw (.redefined name, l.left)
    if l.ty = .void then throw (.voidValue name, l.left)
    return (new, { scope with values := scope.values.put name (.inst id) }, p)
  | none =>
    if l.ty = .void then return (new, scope, p)
    let (name, p) := p.freshName f "t"
    return ({ new with name := some name }, scope, p)

/-- The drafts of all lines, each with its block; `drafts` holds those before, the last first. -/
def draftAll (f : FuncId) (base : InstId) :
    List (BlockId × Line) → List Draft → Scope → Program →
      Resolved (List Draft × Scope × Program)
  | [], drafts, scope, p => .ok (drafts.reverse, scope, p)
  | (b, l) :: rest, drafts, scope, p => do
    let (new, scope, p) ← draft f b (base + drafts.length) scope p l
    draftAll f base rest (new :: drafts) scope p

/-! ## Operands -/

/-- The value an operand stands for. Every literal is a value of its own. -/
def operandValue (scope : Scope) (left : Nat) (t : Typed) : StateT Program Resolved Value :=
  fun p =>
    match t.operand with
    | .integer negative digits =>
      let n : Int := Decimal.ofDigits (digits.map Decimal.digitValue)
      .ok (p.newLiteral (if negative then -n else n) t.ty)
    | .global name =>
      match p.globals.lookup name with
      | some g => .ok (.global g, p)
      | none => .error (.unknownGlobal name, left)
    | .named name =>
      match scope.values.lookup name with
      | some v => .ok (v, p)
      | none => .error (.undefinedValue name, left)

/-- The instruction of a draft, at the end of its block. -/
def place (scope : Scope) (p : Program) (d : Draft) : Resolved Program := do
  let (op, p) ← (d.form.mapM (operandValue scope d.left)).run p
  let (i, p) := p.newInst { op, ty := d.ty, name := d.name }
  return p.append d.block i

/-! ## Functions and modules -/

/-- A function whose name and parameters are new. -/
def buildFunction (p : Program) (f : Function) : Resolved Program := do
  let (id, p) := p.newFunc f.name f.result f.params
  let scope : Scope := { values := (f.params.map (·.2)).zip (p.params id) }
  let (scope, p) ← f.blocks.foldlM (addBlock id) (scope, p)
  let p := (f.lines.filterMap (·.result)).foldl (·.claimName id ·) p
  let lines := f.blocks.flatMap fun b =>
    b.lines.map fun l => ((scope.labels.lookup b.label).getD 0, l)
  let (drafts, scope, p) ← draftAll id p.insts.size lines [] scope p
  drafts.foldlM (place scope) p

def addFunction (p : Program) (f : Function) : Resolved Program :=
  if (p.functions.lookup f.name).isSome then .error (.functionRedefined f.name, f.left)
  else if (f.params.map (·.2)).Nodup then buildFunction p f
  else .error (.duplicateParameter f.name, f.left)

/-- The globals and declarations of a listing; of two with one name the later. -/
def addOutline (p : Program) : Item → Program
  | .global name cell => (p.newGlobal name cell).2
  | .declaration name result params => p.declare name result params
  | .function _ => p

/-- The program that a listing describes. -/
def toProgram (name : String) (items : List Item) : Resolved Program :=
  let outline := items.foldl addOutline { name }
  (items.filterMap Item.function?).foldlM addFunction outline

end BoxFlow.Listing
