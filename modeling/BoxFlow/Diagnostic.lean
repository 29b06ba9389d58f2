/-!
# Messages about a source text

A message may come with a span: a file, and a place in it unless the line is zero.
-/

namespace BoxFlow

/-- A place in a named text. Lines and columns count from one; line zero stands for the text as a
whole. -/
structure Span where
  file : String := "<input>"
  line : Int := 0
  column : Int := 0
  deriving DecidableEq, Repr

def Span.text (s : Span) : String :=
  if s.line = 0 then s.file else s!"{s.file}:{s.line}:{s.column}"

structure Diagnostic where
  message : String
  span : Option Span := none
  deriving DecidableEq, Repr

def Diagnostic.text (d : Diagnostic) : String :=
  match d.span with
  | some s => s.text ++ ": " ++ d.message
  | none => d.message

/-- Several problems in one line: a single one as it is, of more their number and the first. -/
def summary : List String → String
  | [] => "invalid IR"
  | [problem] => problem
  | problem :: rest => s!"{rest.length + 1} problems; first: {problem}"

end BoxFlow
