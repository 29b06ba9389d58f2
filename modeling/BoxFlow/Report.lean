import BoxFlow.Dataflow.Analysis

/-!
# Reports on an analysis

Human-readable dumps: the classified values of a function, or its instructions with the facts of
one table before and after each. A program that has been rewritten since is shown as it is now;
instructions without facts are left out.
-/

namespace BoxFlow

inductive ReportKind
  | types
  | definitions
  | pointsTo
  | aliases
  deriving DecidableEq, Repr

namespace ReportKind

def all : List ReportKind := [types, definitions, pointsTo, aliases]

def name : ReportKind → String
  | types => "types"
  | definitions => "rda"
  | pointsTo => "points-to"
  | aliases => "aliases"

def ofName? (s : String) : Option ReportKind := all.find? (·.name = s)

end ReportKind

namespace Analysis

/-- The value with a number. -/
def idText (a : Analysis) (p : Program) (id : Id) : String :=
  if id = unknown then "UNKNOWN" else ((a.cls.arena.value? id).map p.display).getD ""

def sortTexts (texts : List String) : List String :=
  texts.mergeSort fun a b => a ≤ b

/-- A table, a line to an id that has members, ordered by name. -/
def tableLines (a : Analysis) (p : Program) (t : Table) : List String :=
  let named := t.toList.map fun (id, members) => (a.idText p id, members)
  let sorted := named.mergeSort fun x y => x.1 ≤ y.1
  (sorted.filter fun x => !x.2.isEmpty).map fun (name, members) =>
    let members := ", ".intercalate (sortTexts (members.toList.map (a.idText p)))
    "      " ++ name ++ ": \x7b" ++ members ++ "\x7d"

def factLines (a : Analysis) (p : Program) (caption : String) (t : Table) : List String :=
  let body := a.tableLines p t
  ("    " ++ caption ++ ":" ++ if body.isEmpty then " \x7b\x7d" else "") :: body

def instLines (a : Analysis) (p : Program) (select : Facts → Table) (i : InstId) :
    List String :=
  if a.before.contains i then
    ("    " ++ p.instText i) :: a.factLines p "IN" (select (a.factsBefore i)) ++
      a.factLines p "OUT" (select (a.factsAfter i))
  else []

/-- The instructions with the facts of one table. -/
def tableReport (a : Analysis) (p : Program) (title : String) (select : Facts → Table) :
    String :=
  let fn := p.func a.func
  let lines := fn.blocks.flatMap fun b =>
    ("  " ++ p.label b ++ ":") :: (p.block b).insts.flatMap (a.instLines p select)
  "\n".intercalate ((title ++ " of @" ++ fn.name) :: lines) ++ "\n"

def typesReport (a : Analysis) (p : Program) : String :=
  let section_ (title : String) (k : ValueClass) : List String :=
    ("  " ++ title ++ ":") :: (a.cls.valuesOf k).map fun v => "    " ++ p.ref v
  "\n".intercalate (("Classification of @" ++ (p.func a.func).name) ::
    section_ "data" .data ++ section_ "pointers" .pointer) ++ "\n"

/-- A report on the analysis, with the instructions as `p` has them. -/
def report (a : Analysis) (p : Program) : ReportKind → String
  | .types => a.typesReport p
  | .definitions => a.tableReport p "Reaching definitions" (·.defs)
  | .pointsTo => a.tableReport p "Points-to sets" (·.pointsTo)
  | .aliases => a.tableReport p "Alias sets" (·.aliases)

end Analysis

end BoxFlow
