import Std.Data.ExtTreeSet
import BoxFlow.Operation

/-!
# Options

What the analysis is told about a program: the names of the six operations, which other callees
are benign or write no memory, and how many blocks may be visited.
-/

namespace BoxFlow

/-- A finite set of texts. -/
abbrev StringSet := Std.ExtTreeSet String

structure Options where
  names : Names := default
  /-- Callees that touch no handle and no cell. -/
  benignCallees : StringSet := .ofList ["printf"]
  /-- Every callee whose name starts with one of these is benign. -/
  benignPrefixes : StringSet := .ofList ["llvm.lifetime"]
  /-- Callees that write no memory. -/
  readonlyCallees : StringSet := ∅
  /-- The most blocks that one analysis visits. -/
  maxIterations : Nat := 1000000
  deriving DecidableEq

namespace Options

/-- Is the callee declared benign? -/
def isBenign (o : Options) (callee : String) : Bool :=
  o.benignCallees.contains callee ||
    o.benignPrefixes.toList.any fun start => start.toList.isPrefixOf callee.toList

/-- What a call of `callee` means: an operation if it is named like one, whatever the benign lists
hold. -/
def kindOf (o : Options) (callee : String) : CallKind :=
  match o.names.operation? callee with
  | some op => .operation op
  | none => if o.isBenign callee then .benign else .opaqueCall

end Options

end BoxFlow
