import Mathlib.Logic.Function.Basic
import BoxFlow.Options
import BoxFlow.Proofs.IR.Verify

/-!
# Running a function

`Machine.step` executes one instruction of a function: `create` makes an object, a boxed 64-bit
integer, and `alloca` a cell, both anew every time. What is outside the function is a `World`, which
sees nothing of a run but its calls. A machine is stuck where an operand is not defined or is not of
the kind that the instruction needs.
-/

namespace BoxFlow

/-- What a value stands for while a function runs. -/
inductive Datum
  | int (n : BitVec 64)
  /-- The handle of an object. -/
  | handle (object : Nat)
  /-- The address of a cell. -/
  | cell (address : Nat)
  deriving DecidableEq, Repr

/-- The objects and the cells, in the order in which they were made. -/
structure Heap where
  objects : List (BitVec 64) := []
  cells : List (Option Datum) := []
  deriving DecidableEq, Repr

/-- A call. -/
structure Event where
  callee : String
  args : List Datum
  deriving DecidableEq, Repr

/-- What a call of unknown effect does: the objects it sets, one after another, those it makes, the
cells as it leaves them, and its result. -/
structure Aftermath where
  sets : List (Nat × BitVec 64) := []
  made : List (BitVec 64) := []
  cells : List (Option Datum)
  result : Datum
  deriving DecidableEq, Repr

namespace Aftermath

variable (a : Aftermath) (objects : List (BitVec 64))

/-- The objects after the call. -/
def after : List (BitVec 64) := a.sets.foldl (fun os s => os.set s.1 s.2) objects ++ a.made

/-- The call neither sets nor makes the object `h`. -/
def keeps (h : Nat) : Bool := h < objects.length && h ∉ a.sets.map Prod.fst

end Aftermath

/-- What a function runs in. What a call results in, apart from `create` and `read`, and what a call
of unknown effect does, may depend on the calls so far that are no operations, and on the call
itself, which comes last. -/
structure World where
  outside : Value → Option Datum := fun _ => none
  heap : Heap := {}
  result : List Event → BitVec 64 := fun _ => 0
  act : List Event → Heap → Aftermath := fun _ h => { cells := h.cells, result := .int 0 }

/-- A run in progress, right before the first instruction of `rest`. -/
structure Machine where
  env : InstId → Option Datum := fun _ => none
  heap : Heap := {}
  /-- The calls so far that are no operations. -/
  trace : List Event := []
  /-- The call that has set an object last; no step depends on it. -/
  setter : Nat → Option InstId := fun _ => none
  block : BlockId
  rest : List InstId
  result : Option (Option Datum) := none

/-- What an instruction that is not a branch does. -/
inductive Action
  | yield (x : Datum)
  | alloc
  | fill (address : Nat) (x : Datum)
  | create (n : BitVec 64)
  | set (object : Nat) (n result : BitVec 64)
  | report (e : Event)
  | leave (e : Event)
  deriving DecidableEq, Repr

namespace Machine

variable (p : Program) (o : Options) (w : World) (m : Machine)

def eval : Value → Option Datum
  | .literal l => some (.int (.ofInt 64 l.value))
  | .inst i => m.env i
  | v => w.outside v

/-! ## Actions -/

/-- The action of an operation; `x` is the result where the operation says nothing of it. -/
def operation (x : BitVec 64) : Operation → List Datum → Option Action
  | .create, [.int n] => some (.create n)
  | .read, [.handle h] => m.heap.objects[h]?.map fun n => .yield (.int n)
  | .write, [.handle h, .int n] => m.heap.objects[h]?.map fun _ => .set h n x
  | .add, [.handle h, .handle l, .handle r] => do
    let _ ← m.heap.objects[h]?
    return .set h ((← m.heap.objects[l]?) + (← m.heap.objects[r]?)) x
  | .subtract, [.handle h, .handle l, .handle r] => do
    let _ ← m.heap.objects[h]?
    return .set h ((← m.heap.objects[l]?) - (← m.heap.objects[r]?)) x
  | .destroy, [.handle _] => some (.yield (.int x))
  | _, _ => none

def call (callee : String) (args : List Datum) : Option Action :=
  match o.kindOf callee with
  | .operation op => m.operation (w.result (m.trace ++ [⟨callee, args⟩])) op args
  | .benign => some (.report ⟨callee, args⟩)
  | .opaqueCall => some (.leave ⟨callee, args⟩)

/-- What an operation on operands does; nothing is known of one that is stuck. -/
def action (op : Op) : Option Action :=
  match op with
  | .alloca _ => some .alloc
  | .load pointer =>
    match m.eval w pointer with
    | some (.cell a) => (m.heap.cells[a]?.join).map .yield
    | _ => none
  | .store value pointer =>
    match m.eval w value, m.eval w pointer with
    | some x, some (.cell a) => m.heap.cells[a]?.map fun _ => .fill a x
    | _, _ => none
  | .select c t e =>
    match m.eval w c, m.eval w t, m.eval w e with
    | some (.int b), some x, some y => some (.yield (if b ≠ 0 then x else y))
    | _, _, _ => none
  | .call callee args => (args.mapM (m.eval w)).bind (m.call o w callee)
  | _ => none

/-- `x` is the result of instruction `i`. -/
def assign (i : InstId) (x : Datum) : Machine :=
  { m with env := Function.update m.env i (some x) }

/-- The machine after instruction `i` has done something. -/
def perform (i : InstId) : Action → Machine
  | .yield x => m.assign i x
  | .alloc =>
    { m with heap.cells := m.heap.cells ++ [none] }.assign i (.cell m.heap.cells.length)
  | .fill a x => { m with heap.cells := m.heap.cells.set a (some x) }
  | .create n =>
    { m with
      heap.objects := m.heap.objects ++ [n]
      setter := Function.update m.setter m.heap.objects.length (some i)
      }.assign i (.handle m.heap.objects.length)
  | .set h n x =>
    { m with
      heap.objects := m.heap.objects.set h n
      setter := Function.update m.setter h (some i) }.assign i (.int x)
  | .report e =>
    { m with trace := m.trace ++ [e] }.assign i (.int (w.result (m.trace ++ [e])))
  | .leave e =>
    let a := w.act (m.trace ++ [e]) m.heap
    { m with
      heap := { objects := a.after m.heap.objects, cells := a.cells }
      trace := m.trace ++ [e]
      setter := fun h => if a.keeps m.heap.objects h then m.setter h else none }.assign i a.result

/-! ## Control -/

/-- The block where a branch goes. -/
def target? : Option Value → List BlockId → Option BlockId
  | none, targets => targets[0]?
  | some c, targets =>
    match m.eval w c with
    | some (.int b) => targets[if b ≠ 0 then 0 else 1]?
    | _ => none

/-- What a phi takes when control comes from the block of the machine. -/
def incoming? (op : Op) : Option Datum :=
  match op with
  | .phi incoming => (incoming.find? (·.2 = m.block)).bind fun (v, _) => m.eval w v
  | _ => none

/-- Goes to block `b`, whose phis take their values all at once. -/
def enter (b : BlockId) : Option Machine :=
  let taken i := m.incoming? w (p.inst i).op
  if (p.phis b).all fun i => (taken i).isSome then
    some { m with
      env := fun i => if i ∈ p.phis b then taken i else m.env i
      block := b
      rest := p.body b }
  else none

/-- The next instruction; none if the run is over or stuck. -/
def step : Option Machine :=
  match m.rest with
  | [] => none
  | i :: rest =>
    match (p.inst i).op with
    | .br c targets => (m.target? w c targets).bind (m.enter p w)
    | .ret v => (v.mapM (m.eval w)).map fun x => { m with rest := [], result := some x }
    | op => (m.action o w op).map fun a => { m.perform w i a with rest }

/-- The start of a run. -/
def start (f : FuncId) : Option Machine :=
  (p.entry? f).map fun b => { block := b, rest := p.body b, heap := w.heap }

/-- What runs of a function come by. -/
inductive Reaches (p : Program) (o : Options) (w : World) (f : FuncId) : Machine → Prop
  | start {s : Machine} : start p w f = some s → Reaches p o w f s
  | step {s t : Machine} : Reaches p o w f s → s.step p o w = some t → Reaches p o w f t

end Machine

end BoxFlow
