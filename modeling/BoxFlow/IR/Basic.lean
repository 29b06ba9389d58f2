import BoxFlow.IR.Type
import BoxFlow.Keyed

/-!
# Programs

A program holds its instructions, blocks and functions in three stores and names them by their
index there; an operand refers to an instruction by that index, so that loops and forward
references need no special treatment and two instructions that look the same stay distinct. The
block of an instruction, the function of a block and the edges between blocks are recorded on both
sides and kept in step by the operations of `BoxFlow.IR.Edit`.
-/

namespace BoxFlow

abbrev InstId := Nat

abbrev BlockId := Nat

abbrev FuncId := Nat

/-! ## Values -/

/-- An integer literal. Every occurrence is a value of its own, told apart by `serial`. -/
structure Literal where
  serial : Nat
  value : Int
  ty : Ty
  deriving DecidableEq, Repr

/-- A formal parameter; `index` is its position in the signature of `func`. -/
structure Param where
  func : FuncId
  index : Nat
  name : String
  ty : Ty
  deriving DecidableEq, Repr

/-- A storage cell of the module, which holds a value of type `cell`. As a value it is the address
of the cell. -/
structure Global where
  serial : Nat
  name : String
  cell : Ty
  deriving DecidableEq, Repr

/-- Anything that can be an operand. -/
inductive Value
  | literal (l : Literal)
  | param (a : Param)
  | global (g : Global)
  | inst (i : InstId)
  deriving DecidableEq, Repr

def Value.isLiteral : Value → Bool
  | .literal _ => true
  | _ => false

/-! ## Instructions -/

/-- What an instruction does, over operands in `V` and blocks in `B`. -/
inductive Form (V B : Type)
  /-- A fresh stack cell for a value of type `cell`. -/
  | alloca (cell : Ty)
  | load (pointer : V)
  | store (value pointer : V)
  /-- The value that belongs to the block control comes from. -/
  | phi (incoming : List (V × B))
  | select (condition ifTrue ifFalse : V)
  /-- A direct call of the function of that name. -/
  | call (callee : String) (args : List V)
  | br (condition : Option V) (targets : List B)
  | ret (value : Option V)
  | unreachable
  deriving DecidableEq, Repr

namespace Form

variable {V W B C : Type}

def operands : Form V B → List V
  | alloca _ | unreachable => []
  | load p => [p]
  | store v p => [v, p]
  | phi incoming => incoming.map (·.1)
  | select c t f => [c, t, f]
  | call _ args => args
  | br c _ => c.toList
  | ret v => v.toList

/-- The blocks that are named: those a phi takes values from, those a branch may go to. -/
def blocks : Form V B → List B
  | phi incoming => incoming.map (·.2)
  | br _ targets => targets
  | _ => []

/-- The form with every operand passed through `f` and every block through `g`. -/
def map (f : V → W) (g : B → C) : Form V B → Form W C
  | alloca ty => alloca ty
  | load p => load (f p)
  | store v p => store (f v) (f p)
  | phi incoming => phi (incoming.map fun (v, b) => (f v, g b))
  | select c t e => select (f c) (f t) (f e)
  | call callee args => call callee (args.map f)
  | br c targets => br (c.map f) (targets.map g)
  | ret v => ret (v.map f)
  | unreachable => unreachable

/-- The form with every operand run through `f`, from left to right. -/
def mapM {m : Type → Type} [Monad m] (f : V → m W) : Form V B → m (Form W B)
  | alloca ty => pure (alloca ty)
  | load p => return load (← f p)
  | store v p => return store (← f v) (← f p)
  | phi incoming => return phi (← incoming.mapM fun (v, b) => return (← f v, b))
  | select c t e => return select (← f c) (← f t) (← f e)
  | call callee args => return call callee (← args.mapM f)
  | br (some c) targets => return br (some (← f c)) targets
  | br none targets => pure (br none targets)
  | ret (some v) => return ret (some (← f v))
  | ret none => pure (ret none)
  | unreachable => pure unreachable

theorem operands_map (f : V → W) (g : B → C) (op : Form V B) :
    (op.map f g).operands = op.operands.map f := by
  cases op with
  | br c | ret c => cases c <;> rfl
  | phi incoming => simp [map, operands]
  | _ => rfl

theorem blocks_map (f : V → W) (g : B → C) (op : Form V B) :
    (op.map f g).blocks = op.blocks.map g := by
  cases op with
  | phi incoming => simp [map, blocks]
  | _ => rfl

def isTerminator : Form V B → Bool
  | br .. | ret _ | unreachable => true
  | _ => false

def isPhi : Form V B → Bool
  | phi _ => true
  | _ => false

def isCall : Form V B → Bool
  | call .. => true
  | _ => false

def callee? : Form V B → Option String
  | call callee _ => some callee
  | _ => none

/-- The word an instruction starts with. -/
def mnemonic : Form V B → String
  | alloca _ => "alloca"
  | load _ => "load"
  | store .. => "store"
  | phi _ => "phi"
  | select .. => "select"
  | call .. => "call"
  | br .. => "br"
  | ret _ => "ret"
  | unreachable => "unreachable"

end Form

/-- What an instruction of a program does. -/
abbrev Op := Form Value BlockId

/-- An instruction; `block` is the block that holds it, if one does. -/
structure Inst where
  op : Op
  ty : Ty
  name : Option String := none
  block : Option BlockId := none
  deriving DecidableEq, Repr

instance : Inhabited Inst := ⟨{ op := .unreachable, ty := .void }⟩

def Inst.hasResult (i : Inst) : Bool := i.ty ≠ .void

/-! ## Blocks and functions -/

inductive EdgeKind
  | fallThrough
  | branchTrue
  | branchFalse
  deriving DecidableEq, Repr

def EdgeKind.name : EdgeKind → String
  | fallThrough => "fall-through"
  | branchTrue => "branch-true"
  | branchFalse => "branch-false"

/-- A way control may go from one block to another. -/
structure Edge where
  source : BlockId
  target : BlockId
  kind : EdgeKind
  deriving DecidableEq, Repr

/-- A straight sequence of instructions. `number` is unique within the function. -/
structure Block where
  label : String
  number : Nat := 0
  insts : List InstId := []
  parent : Option FuncId := none
  successors : List Edge := []
  predecessors : List Edge := []
  deriving DecidableEq, Repr

instance : Inhabited Block := ⟨{ label := "" }⟩

/-- A function: its blocks in textual order, the first being the entry, and the names it has given
away. -/
structure Func where
  name : String
  result : Ty := .void
  params : List (Ty × String) := []
  blocks : List BlockId := []
  names : List String := []
  nextNumber : Nat := 0
  deriving DecidableEq, Repr

instance : Inhabited Func := ⟨{ name := "" }⟩

/-! ## Programs -/

/-- The functions, globals and declarations of one module, with the stores they live in. A function
in `funcs` that `functions` does not name belongs to no module. -/
structure Program where
  name : String := "module"
  functions : Keyed FuncId := []
  globals : Keyed Global := []
  declarations : Keyed (Ty × List Ty) := []
  insts : Array Inst := #[]
  blocks : Array Block := #[]
  funcs : Array Func := #[]
  /-- Serial numbers from here on are unused. -/
  nextSerial : Nat := 0
  deriving Repr, Inhabited

namespace Program

def inst (p : Program) (i : InstId) : Inst := p.insts.getD i default

def block (p : Program) (b : BlockId) : Block := p.blocks.getD b default

def func (p : Program) (f : FuncId) : Func := p.funcs.getD f default

/-- The operation of a value, if it is an instruction. -/
def op? (p : Program) : Value → Option Op
  | .inst i => some (p.inst i).op
  | _ => none

/-- The parameters of a function as values. -/
def params (p : Program) (f : FuncId) : List Value :=
  (p.func f).params.mapIdx fun index (ty, name) => .param { func := f, index, name, ty }

def entry? (p : Program) (f : FuncId) : Option BlockId :=
  (p.func f).blocks.head?

/-- The instructions of a function in textual order. -/
def instructions (p : Program) (f : FuncId) : List InstId :=
  (p.func f).blocks.flatMap fun b => (p.block b).insts

def calls (p : Program) (f : FuncId) : List InstId :=
  (p.instructions f).filter fun i => (p.inst i).op.isCall

def blockNamed? (p : Program) (f : FuncId) (label : String) : Option BlockId :=
  (p.func f).blocks.find? fun b => (p.block b).label = label

/-- The instruction at a place in the block of that label. -/
def instAt? (p : Program) (f : FuncId) (label : String) (place : Nat) : Option InstId :=
  (p.blockNamed? f label).bind fun b => (p.block b).insts[place]?

/-- The last instruction of a block, if it is a terminator. -/
def terminator? (p : Program) (b : BlockId) : Option InstId :=
  (p.block b).insts.getLast?.filter fun i => (p.inst i).op.isTerminator

def phis (p : Program) (b : BlockId) : List InstId :=
  (p.block b).insts.filter fun i => (p.inst i).op.isPhi

def successorBlocks (p : Program) (b : BlockId) : List BlockId :=
  (p.block b).successors.map (·.target)

def predecessorBlocks (p : Program) (b : BlockId) : List BlockId :=
  (p.block b).predecessors.map (·.source)

/-- The module functions in textual order. -/
def moduleFuncs (p : Program) : List FuncId :=
  p.functions.map (·.2)

/-- The name of a value; literals have none. -/
def valueName? (p : Program) : Value → Option String
  | .literal _ => none
  | .param a => some a.name
  | .global g => some g.name
  | .inst i => (p.inst i).name

def valueTy (p : Program) : Value → Ty
  | .literal l => l.ty
  | .param a => a.ty
  | .global _ => .ptr
  | .inst i => (p.inst i).ty

/-- The size in bytes of the cell a value points at; zero if that is not known. -/
def locationSize (p : Program) : Value → Nat
  | .global g => g.cell.size
  | .inst i =>
    match (p.inst i).op with
    | .alloca cell => cell.size
    | _ => 0
  | _ => 0

end Program

end BoxFlow
