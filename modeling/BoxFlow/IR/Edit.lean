import BoxFlow.IR.Printer

/-!
# Changing a program

The operations that grow and change a program. A terminator that enters a block of a function adds
the edges of the block, one that leaves it takes them away, on both sides. Names are given away
once: `freshName` returns its hint, or the hint with the least number that makes it unused.

An operation that can fail is an `Edit`: on failure it hands back the program with what had been
done before.
-/

namespace BoxFlow

namespace Program

/-! ## The stores -/

def modifyInst (p : Program) (i : InstId) (f : Inst → Inst) : Program :=
  { p with insts := p.insts.modify i f }

def modifyBlock (p : Program) (b : BlockId) (f : Block → Block) : Program :=
  { p with blocks := p.blocks.modify b f }

def modifyFunc (p : Program) (f : FuncId) (g : Func → Func) : Program :=
  { p with funcs := p.funcs.modify f g }

/-- A new instruction, in no block yet. -/
def newInst (p : Program) (i : Inst) : InstId × Program :=
  (p.insts.size, { p with insts := p.insts.push i })

/-- A new literal, different from every other. -/
def newLiteral (p : Program) (value : Int) (ty : Ty := .i64) : Value × Program :=
  (.literal { serial := p.nextSerial, value, ty }, { p with nextSerial := p.nextSerial + 1 })

/-- A new block that belongs to no function. -/
def newBlock (p : Program) (label : String) : BlockId × Program :=
  (p.blocks.size, { p with blocks := p.blocks.push { label } })

/-! ## Names -/

def claimName (p : Program) (f : FuncId) (name : String) : Program :=
  p.modifyFunc f fun fn => { fn with names := name :: fn.names }

/-- `hint`, then `hint.1`, `hint.2`, … -/
def numbered (hint : String) : Nat → String
  | 0 => hint
  | n => hint ++ "." ++ toString n

/-- The first numbered form of `hint` that is not in `names`. Among one form more than there are
names, one is unused. -/
def firstUnused (names : List String) (hint : String) : String :=
  let forms := (List.range (names.length + 1)).map (numbered hint)
  (forms.find? (· ∉ names)).getD hint

/-- An unused name made from `hint`; it counts as given away from now on. -/
def freshName (p : Program) (f : FuncId) (hint : String) : String × Program :=
  let name := firstUnused (p.func f).names hint
  (name, p.claimName f name)

/-! ## The module -/

/-- A new function; it belongs to the module if `attach` is set. -/
def newFunc (p : Program) (name : String) (result : Ty) (params : List (Ty × String))
    (attach : Bool := true) : FuncId × Program :=
  let f := p.funcs.size
  let fn : Func := { name, result, params, names := (params.map (·.2)).reverse }
  let functions := if attach then p.functions.put name f else p.functions
  (f, { p with funcs := p.funcs.push fn, functions })

def newGlobal (p : Program) (name : String) (cell : Ty) : Value × Program :=
  let g : Global := { serial := p.nextSerial, name, cell }
  (.global g, { p with globals := p.globals.put name g, nextSerial := p.nextSerial + 1 })

def declare (p : Program) (name : String) (result : Ty) (params : List Ty) : Program :=
  { p with declarations := p.declarations.put name (result, params) }

/-- A new block at the end of a function, labelled by a fresh name made from `hint`. -/
def addBlock (p : Program) (f : FuncId) (hint : String) : BlockId × Program :=
  let (label, p) := p.freshName f hint
  let b := p.blocks.size
  let block : Block := { label, number := (p.func f).nextNumber, parent := some f }
  let p := { p with blocks := p.blocks.push block }
  (b, p.modifyFunc f fun fn =>
    { fn with blocks := fn.blocks ++ [b], nextNumber := fn.nextNumber + 1 })

/-! ## Edges -/

/-- The edges a terminator of block `b` stands for. -/
def branchEdges (b : BlockId) : Op → List Edge
  | .br none targets => (targets.take 1).map fun t => ⟨b, t, .fallThrough⟩
  | .br (some _) targets =>
    List.zipWith (fun t kind => ⟨b, t, kind⟩) targets [.branchTrue, .branchFalse]
  | _ => []

def linkEdge (p : Program) (e : Edge) : Program :=
  let p := p.modifyBlock e.source fun blk => { blk with successors := blk.successors ++ [e] }
  p.modifyBlock e.target fun blk => { blk with predecessors := blk.predecessors ++ [e] }

/-- Adds the edges of a terminator of block `b`. -/
def link (p : Program) (b : BlockId) (op : Op) : Program :=
  (branchEdges b op).foldl linkEdge p

/-- Takes away every edge that leaves block `b`. -/
def unlink (p : Program) (b : BlockId) : Program :=
  let p := (p.block b).successors.foldl (fun p e =>
    p.modifyBlock e.target fun blk =>
      { blk with predecessors := blk.predecessors.filter (·.source ≠ b) }) p
  p.modifyBlock b fun blk => { blk with successors := [] }

/-! ## Instructions in blocks -/

/-- What follows when instruction `i` has been put into the list of block `b`: its name is given
away, and a terminator brings its edges. -/
def adopt (p : Program) (b : BlockId) (i : InstId) : Program :=
  let p := p.modifyInst i fun inst => { inst with block := some b }
  match (p.block b).parent with
  | none => p
  | some f =>
    let inst := p.inst i
    let p := match inst.name with
      | some n => p.claimName f n
      | none => p
    p.link b inst.op

/-- Instruction `i` at the end of block `b`. -/
def append (p : Program) (b : BlockId) (i : InstId) : Program :=
  (p.modifyBlock b fun blk => { blk with insts := blk.insts ++ [i] }).adopt b i

/-- The list with `i` before the first `anchor`. -/
def insertBeforeFirst (anchor i : InstId) : List InstId → List InstId
  | [] => []
  | j :: js => if j = anchor then i :: j :: js else j :: insertBeforeFirst anchor i js

/-- Instruction `i` before `anchor`, which must be in block `b`. -/
def insertBefore? (p : Program) (b : BlockId) (i anchor : InstId) : Option Program :=
  if anchor ∈ (p.block b).insts then
    some ((p.modifyBlock b fun blk =>
      { blk with insts := insertBeforeFirst anchor i blk.insts }).adopt b i)
  else none

/-- Takes instruction `i` out of block `b`, which must hold it. -/
def remove? (p : Program) (b : BlockId) (i : InstId) : Option Program :=
  if i ∈ (p.block b).insts then
    let p := p.modifyBlock b fun blk => { blk with insts := blk.insts.erase i }
    let p := p.modifyInst i fun inst => { inst with block := none }
    some (if (p.inst i).op.isTerminator && (p.block b).parent.isSome then p.unlink b else p)
  else none

/-! ## Operands -/

/-- How many operands of instruction `i` are `old`. -/
def usesIn (p : Program) (old : Value) (i : InstId) : Nat :=
  (p.inst i).op.operands.count old

/-- Every operand `old` of instruction `i` becomes `new`. -/
def replaceUses (p : Program) (i : InstId) (old new : Value) : Program :=
  p.modifyInst i fun inst =>
    { inst with op := inst.op.map (fun v => if v = old then new else v) id }

/-- Every operand `old` in the function becomes `new`; the result counts them. -/
def replaceAllUses (p : Program) (f : FuncId) (old new : Value) : Nat × Program :=
  (p.instructions f).foldl (fun (n, p) i => (n + p.usesIn old i, p.replaceUses i old new)) (0, p)

end Program

/-! ## Edits -/

/-- Why an edit fails. -/
inductive EditFault
  /-- An instruction that was to be found through its block is in none. -/
  | notInBlock (inst : String)
  /-- The block does not hold the instruction. -/
  | notHeld
  deriving DecidableEq, Repr

def EditFault.message : EditFault → String
  | notInBlock inst => inst ++ " is not in a block"
  | notHeld => "the instruction is not in the block"

/-- A change of a program that may fail and then leaves what was done so far. -/
abbrev Edit (α : Type) := EStateM EditFault Program α

/-- Where new instructions go: before the anchor, or at the end of the block. -/
structure Place where
  block : BlockId
  anchor : Option InstId := none
  deriving DecidableEq, Repr

namespace Place

/-- The place right before an instruction. -/
def before (p : Program) (i : InstId) : Except EditFault Place :=
  match (p.inst i).block with
  | some block => .ok { block, anchor := some i }
  | none => .error (.notInBlock (p.describe (.inst i)))

end Place

namespace Edit

def ofOption (p? : Program → Option Program) : Edit Unit := fun p =>
  match p? p with
  | some p => .ok () p
  | none => .error .notHeld p

/-- Puts instruction `i` at a place. -/
def put (place : Place) (i : InstId) : Edit Unit :=
  match place.anchor with
  | none => modify (·.append place.block i)
  | some anchor => ofOption (·.insertBefore? place.block i anchor)

/-- A new instruction at a place. A result in a function is named by a fresh name made from the
hint, or from `t` without one. -/
def insert (place : Place) (op : Op) (ty : Ty) (hint : Option String := none) : Edit InstId := do
  let p ← get
  let name ← match (p.block place.block).parent with
    | some f =>
      if ty = .void then pure none
      else
        let hint := match hint with
          | some h => if h.isEmpty then "t" else h
          | none => "t"
        let (name, p) := p.freshName f hint
        set p
        pure (some name)
    | none => pure (if ty = .void then none else hint)
  let i ← modifyGet (·.newInst { op, ty, name })
  put place i
  return i

/-- Takes an instruction out of its block; nothing happens to one that is in none. -/
def erase (i : InstId) : Edit Unit := do
  match ((← get).inst i).block with
  | none => pure ()
  | some b => ofOption (·.remove? b i)

end Edit

end BoxFlow
