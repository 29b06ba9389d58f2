import BoxFlow.Decimal.Integer
import BoxFlow.Decimal.Shortest
import BoxFlow.Keyed
import BoxFlow.Text.Quoted

/-!
# JSON values

Values as they stand in a text: the fields of an object in the order in which their names first
appear, integers apart from other numbers. `Json.display` is how a message shows a value.
-/

namespace BoxFlow

/-- A number with a fraction or a power of ten, or one of the three numbers that are named. -/
inductive Json.Real
  /-- `digits * 10 ^ exponent` with a sign. -/
  | finite (negative : Bool) (digits : Nat) (exponent : Int)
  | infinite (negative : Bool)
  | notANumber
  deriving DecidableEq, Repr

inductive Json
  | null
  | bool (b : Bool)
  | int (n : Int)
  | real (r : Json.Real)
  | str (s : String)
  | arr (items : List Json)
  | obj (fields : List (String × Json))
  deriving Repr, Inhabited

namespace Json

/-- A number by the shortest decimal of the nearest binary number. -/
def Real.display : Real → String
  | .finite negative digits exponent =>
    (if negative then "-" else "") ++ Decimal.nearestText digits exponent
  | .infinite negative => if negative then "-inf" else "inf"
  | .notANumber => "nan"

mutual

/-- How a message shows a value. -/
def display : Json → String
  | .null => "None"
  | .bool b => if b then "True" else "False"
  | .int n => toString n
  | .real r => r.display
  | .str s => Text.quote s
  | .arr items => "[" ++ ", ".intercalate (displayItems items) ++ "]"
  | .obj fields => "\x7b" ++ ", ".intercalate (displayFields fields) ++ "\x7d"

def displayItems : List Json → List String
  | [] => []
  | v :: vs => display v :: displayItems vs

def displayFields : List (String × Json) → List String
  | [] => []
  | (k, v) :: fs => (Text.quote k ++ ": " ++ display v) :: displayFields fs

end

/-- The value of a field of an object. -/
def field? (j : Json) (name : String) : Option Json :=
  match j with
  | .obj fields => fields.lookup name
  | _ => none

def isInt : Json → Bool
  | .int _ => true
  | _ => false

end Json

end BoxFlow
