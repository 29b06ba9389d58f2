import BoxFlow.Json.Reader
import BoxFlow.Options
import BoxFlow.Text.Source

/-!
# Options from a configuration

`Options.ofJson` takes an object with some of the five keys; everything else is refused, with the
reason. `Options.ofFile` reads the object from a file.
-/

namespace BoxFlow

/-- Why a configuration is refused. -/
inductive ConfigFault
  | notAnObject
  | unknownKeys (keys : List String)
  | unknownOperations (keys : List String)
  | emptyName (key : String)
  | sameNames
  | badNames (value : Json)
  | notStrings (key : String)
  | badBound
  | unreadable (path : String) (reason : Text.ReadFault)
  | notJson (path : String) (line : Nat) (cause : Json.Cause)
  deriving Repr

namespace ConfigFault

def message : ConfigFault → String
  | notAnObject => "configuration must be a JSON object"
  | unknownKeys keys => "unknown configuration key(s): " ++ ", ".intercalate keys
  | unknownOperations keys => "unknown operation name key(s): " ++ ", ".intercalate keys
  | emptyName key => s!"operation name {Text.quote key} must be a non-empty string"
  | sameNames => "operation names must be distinct"
  | badNames v => s!"invalid 'names' value: {v.display}"
  | notStrings key => s!"{Text.quote key} must be a list of strings"
  | badBound => "'max_iterations' must be a positive integer"
  | unreadable path reason => s!"cannot read config {path}: {reason.message}"
  | notJson path line cause => s!"{path}: invalid JSON at line {line}: {cause.message}"

end ConfigFault

/-- The texts outside `allowed`, in order and each once. -/
def strangers (allowed : List String) (keys : List String) : List String :=
  (Std.ExtTreeSet.ofList (keys.filter (· ∉ allowed))).toList

namespace Names

/-- Names in which a JSON object replaces some of the usual ones. -/
def ofFields (fields : Keyed Json) : Except ConfigFault Names := do
  let unknown := strangers (Operation.all.map Operation.key) (fields.map (·.1))
  unless unknown.isEmpty do throw (.unknownOperations unknown)
  match fields.find? fun (_, v) => match v with | .str s => s.isEmpty | _ => true with
  | some (key, _) => throw (.emptyName key)
  | none => pure ()
  let get (o : Operation) : String :=
    match fields.lookup o.key with
    | some (.str s) => s
    | _ => (default : Names).nameOf o
  if distinct :
      [get .create, get .read, get .write, get .add, get .subtract, get .destroy].Nodup then
    return {
      create := get .create, read := get .read, write := get .write, add := get .add
      subtract := get .subtract, destroy := get .destroy, distinct }
  else throw .sameNames

def ofJson : Json → Except ConfigFault Names
  | .null => .ok default
  | .str s =>
    if s = "default" then .ok default
    else if s = "cat" then .ok Names.cat
    else .error (.badNames (.str s))
  | .obj fields => ofFields fields
  | v => .error (.badNames v)

end Names

namespace Options

/-- The texts of a list. An object counts as the list of its keys. -/
def stringList? : Json → Option (List String)
  | .arr items => items.mapM fun
    | .str s => some s
    | _ => none
  | .obj fields => some (fields.map (·.1))
  | _ => none

/-- The set under a key, or `given` if the key is not there. -/
def stringsAt (fields : Keyed Json) (key : String) (given : StringSet) :
    Except ConfigFault StringSet :=
  match fields.lookup key with
  | none => .ok given
  | some v =>
    match stringList? v with
    | some l => .ok (.ofList l)
    | none => .error (.notStrings key)

def boundAt (fields : Keyed Json) (given : Nat) : Except ConfigFault Nat :=
  match fields.lookup "max_iterations" with
  | none => .ok given
  | some (.int n) => if 0 < n then .ok n.toNat else .error .badBound
  | some _ => .error .badBound

def keys : List String :=
  ["names", "benign_callees", "benign_prefixes", "readonly_callees", "max_iterations"]

/-- The options that a JSON value describes. -/
def ofJson : Json → Except ConfigFault Options
  | .obj fields => do
    let unknown := strangers keys (fields.map (·.1))
    unless unknown.isEmpty do throw (.unknownKeys unknown)
    let usual : Options := {}
    let names ← match fields.lookup "names" with
      | some v => Names.ofJson v
      | none => pure usual.names
    let benignCallees ← stringsAt fields "benign_callees" usual.benignCallees
    let benignPrefixes ← stringsAt fields "benign_prefixes" usual.benignPrefixes
    let readonlyCallees ← stringsAt fields "readonly_callees" usual.readonlyCallees
    let maxIterations ← boundAt fields usual.maxIterations
    return { names, benignCallees, benignPrefixes, readonlyCallees, maxIterations }
  | _ => .error .notAnObject

/-- Why a configuration file gives no options. An overlong integer is no fault of the
configuration's shape and is kept apart. -/
inductive LoadFault
  | config (f : ConfigFault)
  | overlong (e : Decimal.Overlong)
  deriving Repr

/-- The options in the file at `path`. -/
def ofFile (path : String) (content : Text.FileContent) : Except LoadFault Options :=
  let path := Text.plainPath path
  match Text.ofContent path content with
  | .error reason => .error (.config (.unreadable path reason))
  | .ok s =>
    match Json.read s with
    | .error ⟨.overlong e, _⟩ => .error (.overlong e)
    | .error ⟨cause, left⟩ =>
      .error (.config (.notJson path (Text.Position.ofLeft s left).line cause))
    | .ok v =>
      match ofJson v with
      | .ok o => .ok o
      | .error f => .error (.config f)

/-! ## Showing options -/

def displaySet (s : StringSet) : String :=
  if s.isEmpty then "frozenset()"
  else "frozenset(\x7b" ++ ", ".intercalate (s.toList.map Text.quote) ++ "\x7d)"

/-- How a log record shows options. -/
def display (o : Options) : String :=
  let names := ", ".intercalate
    (Operation.all.map fun op => op.key ++ "=" ++ Text.quote (o.names.nameOf op))
  s!"PassOptions(names=OperationNames({names}), benign_callees={displaySet o.benignCallees}, " ++
    s!"benign_prefixes={displaySet o.benignPrefixes}, " ++
    s!"readonly_callees={displaySet o.readonlyCallees}, max_iterations={o.maxIterations})"

end Options

end BoxFlow
