import BoxFlow.Listing

/-!
# The grammar of listings

A parsing expression grammar, rule by rule. Every rule reads from the front of the text and gives
back what is left, alternatives are tried in order, and repetition takes as much as it can. No
separator is needed between tokens; white space and comments may stand between any two of them, and
a comment ends only with its line.

`module` never fails: it stops where no further item can be read. `rules` lists every rule by name.
-/

namespace BoxFlow.Listing

/-- Reads from the front of a text or fails; what is left follows the result. -/
abbrev Reader := StateT (List Char) Option

namespace Reader

variable {α β : Type}

/-- How many characters are left. -/
def left : Reader Nat := fun s => some (s.length, s)

/-- Exactly the characters of `w`. -/
def word (w : String) : Reader Unit := fun s =>
  if w.toList.isPrefixOf s then some ((), s.drop w.toList.length) else none

/-- The longest run of characters in a class, which must not be empty. -/
def run (p : Char → Bool) : Reader (List Char) := fun s =>
  match s.takeWhile p with
  | [] => none
  | cs => some (cs, s.dropWhile p)

/-- `r` at most `bound` times, for as long as it succeeds. -/
def repeated (r : Reader α) : Nat → List Char → List α × List Char
  | 0, s => ([], s)
  | bound + 1, s =>
    match r s with
    | none => ([], s)
    | some (a, s) =>
      let (as, s) := repeated r bound s
      (a :: as, s)

/-- `r` as often as it succeeds. Every rule that is repeated takes a character, so the length of
the text bounds how often that is. -/
def many (r : Reader α) : Reader (List α) := fun s => some (repeated r s.length s)

/-- `r` at least once. -/
def many1 (r : Reader α) : Reader (List α) := do
  let a ← r
  return a :: (← many r)

/-- `r`, or nothing. -/
def opt (r : Reader α) : Reader (Option α) :=
  (some <$> r) <|> pure none

end Reader

open Reader

/-! ## Tokens -/

/-- The text after white space and comments; the flag says whether a comment has begun. -/
def skipLayout : Bool → List Char → List Char
  | _, [] => []
  | true, c :: rest => skipLayout (c ≠ '\n') rest
  | false, c :: rest =>
    if Text.isBlank c then skipLayout false rest
    else if c = ';' then skipLayout true rest
    else c :: rest

/-- White space and comments, or nothing. -/
def layout : Reader Unit := fun s => some ((), skipLayout false s)

/-- A word and the layout after it. -/
def token (w : String) : Reader Unit := do
  word w
  layout

def isWordChar (c : Char) : Bool := c.isAlphanum || c = '_'

def isNameChar (c : Char) : Bool :=
  c.isAlphanum || c = '_' || c = '.' || c = '$' || c = '-'

/-- A type name that no letter, digit or underscore follows. -/
def type : Reader Ty := fun s =>
  (Ty.ofName? (String.ofList (s.takeWhile isWordChar))).map (·, s.dropWhile isWordChar)

def labelName : Reader String := String.ofList <$> run isNameChar

def localName : Reader String := do
  word "%"
  labelName

def globalName : Reader String := do
  word "@"
  labelName

def integer : Reader Operand := do
  let sign ← opt (word "-")
  let digits ← run Char.isDigit
  return .integer sign.isSome digits

/-! ## Operands -/

def operand : Reader Operand := do
  let v ← .named <$> localName <|> .global <$> globalName <|> integer
  layout
  return v

def typedOperand : Reader Typed := do
  let ty ← type
  layout
  return ⟨ty, ← operand⟩

/-- A type and the layout after it. -/
def typeToken : Reader Ty := do
  let ty ← type
  layout
  return ty

def localToken : Reader String := do
  let n ← localName
  layout
  return n

def globalToken : Reader String := do
  let n ← globalName
  layout
  return n

/-- Items with commas between them. -/
def commaList {α : Type} (r : Reader α) : Reader (List α) := do
  let a ← r
  return a :: (← many (do token ","; r))

/-- Items with commas between them, or none. -/
def optList {α : Type} (r : Reader (List α)) : Reader (List α) := do
  return (← opt r).getD []

/-! ## Instructions -/

def allocaInst : Reader Line := do
  let left ← left
  token "alloca"
  return { form := .alloca (← typeToken), ty := .ptr, left }

def loadInst : Reader Line := do
  let left ← left
  token "load"
  let ty ← typeToken
  token ","
  return { form := .load (← typedOperand), ty, left }

def storeInst : Reader Line := do
  let left ← left
  token "store"
  let v ← typedOperand
  token ","
  return { form := .store v (← typedOperand), ty := .void, left }

/-- One value of a phi and the label it belongs to. -/
def incoming : Reader (Operand × String) := do
  token "["
  let v ← operand
  token ","
  let label ← localToken
  token "]"
  return (v, label)

def phiInst : Reader Line := do
  let left ← left
  token "phi"
  let ty ← typeToken
  let pairs ← commaList incoming
  return { form := .phi (pairs.map fun (v, label) => (⟨ty, v⟩, label)), ty, left }

def selectInst : Reader Line := do
  let left ← left
  token "select"
  let c ← typedOperand
  token ","
  let t ← typedOperand
  token ","
  let e ← typedOperand
  return { form := .select c t e, ty := t.ty, left }

def argList : Reader (List Typed) := commaList typedOperand

def callInst : Reader Line := do
  let left ← left
  token "call"
  let ty ← typeToken
  let callee ← globalToken
  token "("
  let args ← optList argList
  token ")"
  return { form := .call callee args, ty, left }

def labelRef : Reader String := do
  token "label"
  localToken

/-- A condition and the labels of the two ways. -/
def condBranch : Reader (Form Typed String) := do
  let c ← typedOperand
  token ","
  let t ← labelRef
  token ","
  let e ← labelRef
  return .br (some c) [t, e]

def brInst : Reader Line := do
  let left ← left
  token "br"
  let form ← condBranch <|> (fun l => .br none [l]) <$> labelRef
  return { form, ty := .void, left }

def retVoid : Reader Unit := token "void"

def retInst : Reader Line := do
  let left ← left
  token "ret"
  let value ← (fun _ => none) <$> retVoid <|> some <$> typedOperand
  return { form := .ret value, ty := .void, left }

def unreachableInst : Reader Line := do
  let left ← left
  token "unreachable"
  return { form := .unreachable, ty := .void, left }

/-- An instruction that may have a result. -/
def valueInst : Reader Line :=
  allocaInst <|> loadInst <|> phiInst <|> selectInst <|> callInst

def assignment : Reader Line := do
  let name ← localToken
  token "="
  return { ← valueInst with result := some name }

/-- An instruction without a result, or whose result has no name. -/
def statement : Reader Line :=
  storeInst <|> callInst <|> brInst <|> retInst <|> unreachableInst

def instruction : Reader Line := assignment <|> statement

/-! ## Items -/

def block : Reader Block := do
  let left ← left
  let label ← labelName
  token ":"
  return { label, lines := ← many1 instruction, left }

def param : Reader (Ty × String) := do
  let ty ← typeToken
  return (ty, ← localToken)

def paramList : Reader (List (Ty × String)) := commaList param

def functionDef : Reader Item := do
  let left ← left
  token "define"
  let result ← typeToken
  let name ← globalToken
  token "("
  let params ← optList paramList
  token ")"
  token "\x7b"
  let blocks ← many1 block
  token "\x7d"
  return .function { name, result, params, blocks, left }

def globalDecl : Reader Item := do
  let name ← globalToken
  token "="
  token "global"
  return .global name (← typeToken)

def typeList : Reader (List Ty) := commaList typeToken

def declareDecl : Reader Item := do
  token "declare"
  let result ← typeToken
  let name ← globalToken
  token "("
  let params ← optList typeList
  token ")"
  return .declaration name result params

def toplevel : Reader Item := globalDecl <|> declareDecl <|> functionDef

/-- Items for as long as there are any. -/
def module : Reader (List Item) := do
  layout
  many toplevel

/-- What a text holds: the items from its front, and what follows the last of them. -/
def ofText (s : List Char) : List Item × List Char :=
  (module s).getD ([], s)

/-! ## Rules by name -/

/-- What is left after a rule. -/
def remainder {α : Type} (r : Reader α) (s : List Char) : Option (List Char) :=
  (r s).map (·.2)

/-- Every rule of the grammar. -/
def rules : List (String × (List Char → Option (List Char))) := [
  ("module", remainder module), ("toplevel", remainder toplevel),
  ("global_decl", remainder globalDecl), ("declare_decl", remainder declareDecl),
  ("type_list", remainder typeList), ("function_def", remainder functionDef),
  ("param_list", remainder paramList), ("param", remainder param), ("block", remainder block),
  ("instruction", remainder instruction), ("assignment", remainder assignment),
  ("value_inst", remainder valueInst), ("statement", remainder statement),
  ("alloca_inst", remainder allocaInst), ("load_inst", remainder loadInst),
  ("store_inst", remainder storeInst), ("phi_inst", remainder phiInst),
  ("incoming", remainder incoming), ("select_inst", remainder selectInst),
  ("call_inst", remainder callInst), ("arg_list", remainder argList),
  ("br_inst", remainder brInst), ("cond_branch", remainder condBranch),
  ("label_ref", remainder labelRef), ("ret_inst", remainder retInst),
  ("ret_void", remainder retVoid), ("unreachable_inst", remainder unreachableInst),
  ("typed_operand", remainder typedOperand), ("operand", remainder operand),
  ("type", remainder type), ("local_name", remainder localName),
  ("global_name", remainder globalName), ("label_name", remainder labelName),
  ("integer", remainder integer), ("_", remainder layout)]

end BoxFlow.Listing
