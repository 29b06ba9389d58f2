import BoxFlow.Decimal.Integer
import BoxFlow.IR.Basic

/-!
# Listings

A module as it is written: items in textual order, operands and labels by name. Where a message
may have to point at a place, the listing records how many characters of the text were left there.
-/

namespace BoxFlow.Listing

/-- An operand as it is written. -/
inductive Operand
  | named (name : String)
  | global (name : String)
  | integer (negative : Bool) (digits : List Char)
  deriving DecidableEq, Repr

/-- An operand with its type. The operands of a phi have the type of the phi. -/
structure Typed where
  ty : Ty
  operand : Operand
  deriving DecidableEq, Repr

/-- An instruction; `left` is the place of its first word, after the result. -/
structure Line where
  result : Option String := none
  form : Form Typed String
  ty : Ty
  left : Nat
  deriving DecidableEq, Repr

/-- A label with the instructions after it; `left` is the place of the label. -/
structure Block where
  label : String
  lines : List Line
  left : Nat
  deriving DecidableEq, Repr

/-- A function; `left` is the place of its first word. -/
structure Function where
  name : String
  result : Ty
  params : List (Ty × String)
  blocks : List Block
  left : Nat
  deriving DecidableEq, Repr

inductive Item
  | global (name : String) (cell : Ty)
  | declaration (name : String) (result : Ty) (params : List Ty)
  | function (f : Function)
  deriving DecidableEq, Repr

def Item.function? : Item → Option Function
  | .function f => some f
  | _ => none

def Function.lines (f : Function) : List Line :=
  f.blocks.flatMap (·.lines)

/-- The integer operands, in textual order, that are too long to be read. -/
def overlong (items : List Item) : List Decimal.Overlong :=
  (items.filterMap Item.function?).flatMap fun f =>
    f.lines.flatMap fun l =>
      l.form.operands.filterMap fun t =>
        match t.operand with
        | .integer negative digits =>
          match Decimal.ofSignDigits negative digits with
          | .ok _ => none
          | .error e => some e
        | _ => none

end BoxFlow.Listing
