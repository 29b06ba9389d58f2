import BoxFlow.IR.Basic

/-!
# The text of a program

`Program.text` writes a module in the syntax that the reader takes: globals, declarations, then the
functions, an instruction to a line. `Program.graph` draws the blocks of a function and the edges
between them as a Graphviz digraph.
-/

namespace BoxFlow.Program

/-- A value as an operand. A result without a name has no proper reference. -/
def ref (p : Program) : Value → String
  | .literal l => toString l.value
  | .param a => "%" ++ a.name
  | .global g => "@" ++ g.name
  | .inst i =>
    match (p.inst i).name with
    | some n => "%" ++ n
    | none => "%<?>"

/-- A value as an operand, its type before it. -/
def typedRef (p : Program) (v : Value) : String :=
  (p.valueTy v).name ++ " " ++ p.ref v

def label (p : Program) (b : BlockId) : String := (p.block b).label

/-- An operation of type `ty`, without the result. -/
def opText (p : Program) (ty : Ty) : Op → String
  | .alloca cell => "alloca " ++ cell.name
  | .load v => "load " ++ ty.name ++ ", " ++ p.typedRef v
  | .store v cell => "store " ++ p.typedRef v ++ ", " ++ p.typedRef cell
  | .phi incoming =>
    "phi " ++ ty.name ++ " " ++
      ", ".intercalate (incoming.map fun (v, b) => "[ " ++ p.ref v ++ ", %" ++ p.label b ++ " ]")
  | .select c t e => "select " ++ ", ".intercalate ([c, t, e].map p.typedRef)
  | .call callee args =>
    "call " ++ ty.name ++ " @" ++ callee ++ "(" ++ ", ".intercalate (args.map p.typedRef) ++ ")"
  | .br c targets =>
    let labels := ", ".intercalate (targets.map fun b => "label %" ++ p.label b)
    match c with
    | some c => "br " ++ p.typedRef c ++ ", " ++ labels
    | none => "br " ++ labels
  | .ret (some v) => "ret " ++ p.typedRef v
  | .ret none => "ret void"
  | .unreachable => "unreachable"

/-- An operation is written with its word first. -/
theorem head_opText (p : Program) (ty : Ty) (op : Op) (s : List Char) :
    ((p.opText ty op).toList ++ s).head? = op.mnemonic.toList.head? := by
  cases op with
  | br c => cases c <;> simp [opText, Form.mnemonic]
  | ret v => cases v <;> simp [opText, Form.mnemonic]
  | _ => simp [opText, Form.mnemonic]

/-- One instruction. -/
def instText (p : Program) (i : InstId) : String :=
  let inst := p.inst i
  (if inst.hasResult then p.ref (.inst i) ++ " = " else "") ++ p.opText inst.ty inst.op

def blockLines (p : Program) (b : BlockId) : List String :=
  (p.label b ++ ":") :: (p.block b).insts.map fun i => "  " ++ p.instText i

def funcText (p : Program) (f : FuncId) : String :=
  let fn := p.func f
  let params := ", ".intercalate ((p.params f).map p.typedRef)
  let head := "define " ++ fn.result.name ++ " @" ++ fn.name ++ "(" ++ params ++ ") \x7b"
  "\n".intercalate (head :: fn.blocks.flatMap p.blockLines ++ ["\x7d"])

def globalText (name : String) (cell : Ty) : String :=
  "@" ++ name ++ " = global " ++ cell.name

def declarationText (name : String) (result : Ty) (params : List Ty) : String :=
  "declare " ++ result.name ++ " @" ++ name ++ "(" ++ ", ".intercalate (params.map Ty.name) ++ ")"

/-- The whole module. -/
def text (p : Program) : String :=
  let header :=
    p.globals.map (fun (_, g) => globalText g.name g.cell) ++
      p.declarations.map fun (name, result, params) => declarationText name result params
  let parts := if header.isEmpty then [] else ["\n".intercalate header]
  "\n\n".intercalate (parts ++ p.moduleFuncs.map p.funcText) ++ "\n"

/-! ## Values by name -/

/-- A value; a result without a name by its instruction. -/
def display (p : Program) : Value → String
  | .inst i => if (p.inst i).name.isNone then "<" ++ p.instText i ++ ">" else p.ref (.inst i)
  | v => p.ref v

/-- The values that a function can refer to by name, those of the module included. -/
def namedValues (p : Program) (f : FuncId) : List Value :=
  p.params f ++ p.globals.map (fun g => .global g.2) ++
    ((p.instructions f).filter fun i => (p.inst i).hasResult).map .inst

/-- The first named value that is written `ref`. -/
def valueNamed? (p : Program) (f : FuncId) (ref : String) : Option Value :=
  (p.namedValues f).find? fun v => p.ref v = ref

/-! ## What kind of thing a value is -/

/-- What messages call a kind of value. -/
def kindName (p : Program) : Value → String
  | .literal _ => "Constant"
  | .param _ => "Argument"
  | .global _ => "GlobalVariable"
  | .inst i =>
    match (p.inst i).op with
    | .alloca _ => "AllocaInst"
    | .load _ => "LoadInst"
    | .store .. => "StoreInst"
    | .phi _ => "PhiNode"
    | .select .. => "SelectInst"
    | .call .. => "CallInst"
    | .br .. => "BranchInst"
    | .ret _ => "ReturnInst"
    | .unreachable => "UnreachableInst"

/-- A value with its kind. -/
def describe (p : Program) (v : Value) : String :=
  p.kindName v ++ "(" ++ p.ref v ++ ")"

def describeBlock (p : Program) (b : BlockId) : String :=
  let blk := p.block b
  s!"BasicBlock(id={blk.number}, name={Text.quote blk.label}, ninstructions={blk.insts.length})"

def describeEdge (p : Program) (e : Edge) : String :=
  s!"CFGEdge({p.label e.source} -> {p.label e.target}, kind={Text.quote e.kind.name})"

def describeFunc (p : Program) (f : FuncId) : String :=
  let fn := p.func f
  s!"Function(name={Text.quote fn.name}, blocks={fn.blocks.length})"

/-! ## Graphs -/

/-- A text inside the double quotes of a node label. -/
def escapeQuotes (s : String) : String :=
  String.join (s.toList.map fun c => if c = '"' then "\\\"" else c.toString)

def graphNode (p : Program) (f : FuncId) (b : BlockId) : String :=
  let blk := p.block b
  let body := "\\l".intercalate (blk.insts.map fun i => escapeQuotes (p.instText i))
  let color := if p.entry? f = some b then ", style=filled, fillcolor=\"#ccffcc\"" else ""
  s!"  BB{blk.number} [label=\"" ++ blk.label ++ ":\\l" ++ body ++ "\\l\"" ++ color ++ "];"

def graphEdge (p : Program) (e : Edge) : String :=
  let style := match e.kind with
    | .fallThrough => ""
    | .branchTrue => ", color=green, fontcolor=green"
    | .branchFalse => ", color=red, fontcolor=red"
  s!"  BB{(p.block e.source).number} -> BB{(p.block e.target).number} [label=\"" ++ e.kind.name ++
    "\"" ++ style ++ "];"

/-- The blocks of a function and their edges; an empty title is no title. -/
def graph (p : Program) (f : FuncId) (title : Option String := none) : String :=
  let blocks := (p.func f).blocks
  let caption := match title with
    | some t => if t.isEmpty then [] else ["  label=\"" ++ t ++ "\";"]
    | none => []
  "\n".intercalate
    (["digraph CFG \x7b"] ++ caption ++
      ["  node [shape=box, fontname=monospace, fontsize=10];"] ++
      blocks.map (p.graphNode f) ++
      blocks.flatMap (fun b => (p.block b).successors.map p.graphEdge) ++
      ["\x7d"])

end BoxFlow.Program
