import BoxFlow.Diagnostic
import BoxFlow.IR.Verify
import BoxFlow.Listing.Reader
import BoxFlow.Listing.Resolve
import BoxFlow.Log
import BoxFlow.Options
import BoxFlow.Text.Source

/-!
# Loading programs

`Program.load` reads a module from its text: the text must be a listing to its end, the names must
resolve, every function must be well formed, and every call of one of the six operations must have
the arguments it takes. The first of these that fails decides the rejection.
-/

namespace BoxFlow

/-- What is wrong with a text that is no listing of a program. -/
inductive TextFault
  /-- The characters (at most twenty) where the last item has ended. -/
  | unexpected (next : List Char)
  | overlong (e : Decimal.Overlong)
  | name (f : Listing.NameFault)
  deriving DecidableEq, Repr

def TextFault.message : TextFault → String
  | unexpected next => s!"unexpected text {Text.quote (String.ofList next)}"
  | overlong e => s!"malformed IR: ValueError: {e.message}"
  | name f => f.message

/-- Why a module is not loaded. -/
inductive Rejection
  | unreadable (path : String) (reason : Text.ReadFault)
  | text (fault : TextFault) (span : Span)
  | invalid (problems : List Problem) (span : Option Span)
  deriving DecidableEq, Repr

namespace Rejection

def problems : Rejection → List Problem
  | invalid problems _ => problems
  | _ => []

def diagnostic : Rejection → Diagnostic
  | unreadable path reason => { message := s!"cannot read {path}: {reason.message}" }
  | text fault span => { message := fault.message, span := some span }
  | invalid problems span => { message := summary (problems.map Problem.message), span }

end Rejection

namespace Program

/-- What is wrong with the arguments of a call in a function. -/
def callProblems (p : Program) (o : Options) (f : FuncId) (i : InstId) : List Problem :=
  let inst := p.inst i
  let func := (p.func f).name
  let label := p.label (inst.block.getD 0)
  match inst.op with
  | .call callee args =>
    match o.kindOf callee with
    | .operation op =>
      (if args.length ≠ op.arity then
        [.arity func label callee op.arity args.length (p.instText i)] else []) ++
      if op = .create && !inst.hasResult then [.noResult func label callee (p.instText i)] else []
    | _ => []
  | _ => []

/-- What is wrong with the calls of operations in the module. -/
def arityProblems (p : Program) (o : Options) : List Problem :=
  p.moduleFuncs.flatMap fun f => (p.instructions f).flatMap (p.callProblems o f)

/-- Rejects a module in which an operation has the wrong arguments. -/
def checkArity (p : Program) (o : Options) : Except Rejection Unit :=
  match p.arityProblems o with
  | [] => .ok ()
  | problems => .error (.invalid problems none)

/-- The listing that a text is, up to its end. -/
def listing (s : List Char) : Except (TextFault × Option Nat) (List Listing.Item) :=
  match Listing.ofText s with
  | (items, []) =>
    match Listing.overlong items with
    | [] => .ok items
    | e :: _ => .error (.overlong e, none)
  | (_, rest) => .error (.unexpected (rest.take 20), some rest.length)

/-- The module that the text `s` of a file describes. -/
def load (s : List Char) (file : String := "<input>") (options : Options := {})
    (name : String := "module") : Except Rejection Program := do
  let spanAt (left : Nat) : Span :=
    let at_ := Text.Position.ofLeft s left
    { file, line := at_.line, column := at_.column }
  let items ← match listing s with
    | .ok items => .ok items
    | .error (fault, left) => .error (.text fault (left.elim { file } spanAt))
  let p ← match Listing.toProgram (if name.isEmpty then "module" else name) items with
    | .ok p => .ok p
    | .error (fault, left) => .error (.text (.name fault) (spanAt left))
  match p.moduleFuncs.flatMap p.verify with
  | [] => pure ()
  | problems => throw (.invalid problems (some { file }))
  p.checkArity options
  return p

/-- The module in the file at `path`, named after the file. -/
def loadFile (path : String) (content : Text.FileContent) (options : Options := {}) :
    Except Rejection Program :=
  let path := Text.plainPath path
  match Text.ofContent path content with
  | .ok s => load s path options (Text.pathStem path)
  | .error reason => .error (.unreadable path reason)

/-- What loading a module reports. -/
def loadRecord (p : Program) (file : String) : Log.Record where
  level := .debug
  channel := .reader
  message := s!"Parsed {file}: {p.functions.length} function(s), {p.globals.length} global(s)"

end Program

end BoxFlow
