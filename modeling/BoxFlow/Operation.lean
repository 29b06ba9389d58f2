/-!
# Operations on boxed integers

A call means one of six operations on handles of boxed integers, or something that does not
concern them (benign), or anything at all (opaque). `Names` holds the callee names of the six; that
they are distinct is part of the type, so `kindOf` finds every operation by its own name.
-/

namespace BoxFlow

/-- The six operations. -/
inductive Operation
  | create
  | read
  | write
  | add
  | subtract
  | destroy
  deriving DecidableEq, Repr

namespace Operation

def all : List Operation := [create, read, write, add, subtract, destroy]

theorem mem_all (o : Operation) : o ∈ all := by cases o <;> simp [all]

/-- The key of an operation in a configuration. -/
def key : Operation → String
  | create => "create"
  | read => "read"
  | write => "write"
  | add => "add"
  | subtract => "subtract"
  | destroy => "destroy"

/-- How many arguments an operation takes. -/
def arity : Operation → Nat
  | create | read | destroy => 1
  | write => 2
  | add | subtract => 3

/-- How many leading arguments are handles. -/
def handleArgs : Operation → Nat
  | create => 0
  | read | write | destroy => 1
  | add | subtract => 3

end Operation

/-- What a call means to the analysis. -/
inductive CallKind
  | operation (o : Operation)
  /-- Touches no handle and no cell. -/
  | benign
  /-- May do anything to what it can reach. -/
  | opaqueCall
  deriving DecidableEq, Repr

namespace CallKind

def name : CallKind → String
  | operation o => o.key
  | benign => "benign"
  | opaqueCall => "opaque"

def isOperation : CallKind → Bool
  | operation _ => true
  | _ => false

/-- Does the call give the handle in its first argument a new value? -/
def definesFirst : CallKind → Bool
  | operation .write | operation .add | operation .subtract => true
  | _ => false

/-- The number of arguments the call must have, if that is fixed. -/
def arity? : CallKind → Option Nat
  | operation o => some o.arity
  | _ => none

/-- How many leading arguments are handles. -/
def handleArgs : CallKind → Nat
  | operation o => o.handleArgs
  | _ => 0

end CallKind

/-- The callee names of the operations. -/
structure Names where
  create : String := "create"
  read : String := "read"
  write : String := "write"
  add : String := "add"
  subtract : String := "subtract"
  destroy : String := "destroy"
  distinct : [create, read, write, add, subtract, destroy].Nodup := by decide
  deriving DecidableEq, Repr

instance : Inhabited Names := ⟨{}⟩

namespace Names

/-- The names of the runtime that prefixes them with `CAT_`. -/
def cat : Names where
  create := "CAT_new"
  read := "CAT_get"
  write := "CAT_set"
  add := "CAT_add"
  subtract := "CAT_sub"
  destroy := "CAT_destroy"

def nameOf (n : Names) : Operation → String
  | .create => n.create
  | .read => n.read
  | .write => n.write
  | .add => n.add
  | .subtract => n.subtract
  | .destroy => n.destroy

def toList (n : Names) : List String := Operation.all.map n.nameOf

theorem nodup_toList (n : Names) : n.toList.Nodup := n.distinct

/-- The operation a callee name stands for. -/
def operation? (n : Names) (callee : String) : Option Operation :=
  Operation.all.find? fun o => n.nameOf o = callee

/-- What a callee name means when no call is benign. -/
def kindOf (n : Names) (callee : String) : CallKind :=
  match n.operation? callee with
  | some o => .operation o
  | none => .opaqueCall

end Names

end BoxFlow
