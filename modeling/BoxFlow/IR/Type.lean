import BoxFlow.Text.Quoted

/-!
# Types

The scalar and pointer types of the representation.
-/

namespace BoxFlow

inductive Ty
  | void
  | i1
  | i8
  | i32
  | i64
  | ptr
  deriving DecidableEq, Repr, Inhabited

namespace Ty

def name : Ty → String
  | void => "void"
  | i1 => "i1"
  | i8 => "i8"
  | i32 => "i32"
  | i64 => "i64"
  | ptr => "ptr"

def all : List Ty := [void, i1, i8, i32, i64, ptr]

def ofName? (s : String) : Option Ty :=
  all.find? (·.name = s)

/-- A type is found by its name and by no other text. -/
theorem ofName?_eq_some_iff {s : String} {t : Ty} : ofName? s = some t ↔ s = t.name := by
  constructor
  · intro h
    have := List.find?_some h
    simpa [eq_comm] using this
  · rintro rfl
    cases t <;> rfl

/-- How many bytes a value of the type takes in memory. -/
def size : Ty → Nat
  | void => 0
  | i1 | i8 => 1
  | i32 => 4
  | i64 | ptr => 8

def isPointer (t : Ty) : Bool := t = ptr

/-- A text that names no type. -/
structure Unknown where
  name : String
  deriving DecidableEq, Repr

def Unknown.message (e : Unknown) : String :=
  s!"unknown IR type {Text.quote e.name}"

def ofName (s : String) : Except Unknown Ty :=
  match ofName? s with
  | some t => .ok t
  | none => .error ⟨s⟩

end Ty

end BoxFlow
