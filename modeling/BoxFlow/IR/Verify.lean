import BoxFlow.IR.Printer

/-!
# Structural checks

What makes a function well formed, and one report for each rule it breaks: there is an entry block
without predecessors, every block ends in its only terminator, phis come first and name exactly
the predecessors, and operands are instructions of the same function.
-/

namespace BoxFlow

/-- A broken rule; instructions and blocks are given by their text. -/
inductive Problem
  | noBlocks (func : String)
  | entryHasPredecessors (func label : String)
  | noTerminator (func label : String)
  | latePhi (func label inst : String)
  | phiMismatch (func label inst : String)
  | earlyTerminator (func label inst : String)
  | foreignOperand (func label operand : String)
  /-- An operation with the wrong number of arguments. -/
  | arity (func label callee : String) (expected got : Nat) (inst : String)
  /-- A `create` without a result. -/
  | noResult (func label callee inst : String)
  deriving DecidableEq, Repr

namespace Problem

def message : Problem → String
  | noBlocks f => s!"@{f}: function has no blocks"
  | entryHasPredecessors f b => s!"@{f}: entry block {Text.quote b} has predecessors"
  | noTerminator f b => s!"@{f}:{b}: block does not end in a terminator"
  | latePhi f b i => s!"@{f}:{b}: phi after non-phi: {i}"
  | phiMismatch f b i => s!"@{f}:{b}: phi incoming blocks do not match predecessors: {i}"
  | earlyTerminator f b i => s!"@{f}:{b}: terminator in the middle: {i}"
  | foreignOperand f b v => s!"@{f}:{b}: operand {v} is not in this function"
  | arity f b callee expected got i =>
    s!"@{f}:{b}: @{callee} expects {expected} argument(s), got {got}: {i}"
  | noResult f b callee i => s!"@{f}:{b}: @{callee} must return a value: {i}"

end Problem

namespace Program

/-- The same members, in whatever order and number. -/
def sameMembers (a b : List BlockId) : Bool :=
  a.all (· ∈ b) && b.all (· ∈ a)

/-- What is wrong with a phi of a block. -/
def phiProblems (p : Program) (f : FuncId) (b : BlockId) (i : InstId) : List Problem :=
  let fn := (p.func f).name
  let leading := (p.block b).insts.take (p.phis b).length
  (if i ∈ leading then [] else [.latePhi fn (p.label b) (p.instText i)]) ++
    if sameMembers (p.inst i).op.blocks (p.predecessorBlocks b) then []
    else [.phiMismatch fn (p.label b) (p.instText i)]

/-- What is wrong with an instruction of a block of a function with instructions `owned`. -/
def instProblems (p : Program) (f : FuncId) (owned : List InstId) (b : BlockId) (i : InstId) :
    List Problem :=
  let fn := (p.func f).name
  let op := (p.inst i).op
  (if op.isTerminator && (p.block b).insts.getLast? ≠ some i then
    [.earlyTerminator fn (p.label b) (p.instText i)] else []) ++
  op.operands.filterMap fun v =>
    match v with
    | .inst j => if j ∈ owned then none else some (.foreignOperand fn (p.label b) (p.ref v))
    | _ => none

def blockProblems (p : Program) (f : FuncId) (owned : List InstId) (b : BlockId) :
    List Problem :=
  (if (p.terminator? b).isNone then [.noTerminator (p.func f).name (p.label b)] else []) ++
    (p.phis b).flatMap (p.phiProblems f b) ++
    (p.block b).insts.flatMap (p.instProblems f owned b)

/-- Every rule that a function breaks, in textual order. -/
def verify (p : Program) (f : FuncId) : List Problem :=
  match p.entry? f with
  | none => [.noBlocks (p.func f).name]
  | some e =>
    (if (p.block e).predecessors.isEmpty then []
      else [.entryHasPredecessors (p.func f).name (p.label e)]) ++
    (p.func f).blocks.flatMap (p.blockProblems f (p.instructions f))

end Program

end BoxFlow
