import BoxFlow.Decimal.Integer
import BoxFlow.Report

/-!
# Command-line arguments

`Invocation.parse` reads an argument list: options of the program, a command, then the options and
the file of the command in any order. Long options may be shortened as long as one option remains,
short ones may share a dash, a value may follow an equals sign, and after a double dash nothing is
an option. A word that looks like a negative number is no option.
-/

namespace BoxFlow

/-- Why an argument list leads to no run. -/
inductive Stop
  | usage
  | help
  | version
  deriving DecidableEq, Repr

/-- What an option asks for. -/
inductive Switch
  | help
  | version
  | verbose
  | config
  | catNames
  | output
  | conservative
  | dump
  | maxIterations
  | function
  deriving DecidableEq, Repr

def Switch.takesValue : Switch → Bool
  | config | output | dump | maxIterations | function => true
  | _ => false

inductive Command
  | optimize
  | check
  | cfg
  deriving DecidableEq, Repr

def Command.ofName? : String → Option Command
  | "optimize" => some .optimize
  | "check" => some .check
  | "cfg" => some .cfg
  | _ => none

/-- The spellings of the options that may stand before the command. -/
def programOptions : List (String × Switch) :=
  [("-h", .help), ("--help", .help), ("--version", .version), ("-v", .verbose),
    ("--verbose", .verbose)]

/-- The spellings of the options of a command. -/
def Command.options (c : Command) : List (String × Switch) :=
  [("-h", .help), ("--help", .help), ("--config", .config), ("--cat-names", .catNames)] ++
    match c with
    | optimize =>
      [("-o", .output), ("--output", .output), ("--conservative", .conservative),
        ("--dump", .dump), ("--max-iterations", .maxIterations)]
    | check => []
    | cfg => [("--function", .function)]

/-! ## Words -/

/-- What a word is taken for. -/
inductive ArgWord
  | plain (s : String)
  /-- The double dash. -/
  | separator
  /-- A switch, with what follows it in the same word: its value, or further switches. -/
  | option (s : Switch) (value : Option String)
  /-- A switch with a value that it does not take. -/
  | overfull
  | unknownOption
  deriving DecidableEq, Repr

namespace ArgWord

/-- A word cut at its first equals sign. -/
def cutAtEquals (s : String) : String × Option String :=
  let cs := s.toList
  match cs.dropWhile (· ≠ '=') with
  | [] => (s, none)
  | _ :: value => (String.ofList (cs.takeWhile (· ≠ '=')), some (String.ofList value))

/-- Does the word look like a negative number? -/
def isNegativeNumber (s : String) : Bool :=
  match s.toList with
  | '-' :: rest =>
    let digit (c : Char) : Bool := (Decimal.scriptDigit? c).isSome
    let tail := rest.dropWhile digit
    (rest ≠ [] && tail = []) ||
      match tail with
      | '.' :: places => places ≠ [] && places.all digit
      | _ => false
  | _ => false

/-- A switch with the value behind an equals sign, if there is one. -/
def valued (s : Switch) : Option String → ArgWord
  | some value => if s.takesValue then option s (some value) else overfull
  | none => option s none

/-- The options that an unfamiliar spelling may stand for. -/
def candidates (table : List (String × Switch)) (s : String) : List ArgWord :=
  if s.startsWith "--" then
    let (start, value) := cutAtEquals s
    (table.filter fun o => start.toList.isPrefixOf o.1.toList).map fun o => valued o.2 value
  else
    let short := String.ofList (s.toList.take 2)
    table.filterMap fun o =>
      if o.1 = short then some (option o.2 (some (String.ofList (s.toList.drop 2))))
      else if s.toList.isPrefixOf o.1.toList then some (option o.2 none)
      else none

/-- What a word before any double dash is taken for. -/
def classify (table : List (String × Switch)) (s : String) : Except Stop ArgWord :=
  if !s.startsWith "-" || s = "-" then .ok (plain s)
  else
    match table.lookup s with
    | some o => .ok (option o none)
    | none =>
      let (spelling, value) := cutAtEquals s
      match table.lookup spelling, value with
      | some o, some value => .ok (valued o (some value))
      | _, _ =>
        match candidates table s with
        | _ :: _ :: _ => .error .usage
        | [w] => .ok w
        | [] =>
          if isNegativeNumber s || s.toList.contains ' ' then .ok (plain s) else .ok unknownOption

/-- What the words of a list are taken for. -/
def classifyAll (table : List (String × Switch)) : List String → Except Stop (List ArgWord)
  | [] => .ok []
  | "--" :: rest => .ok (separator :: rest.map plain)
  | s :: rest => do
    let w ← classify table s
    return w :: (← classifyAll table rest)

/-- The switches of a word whose first one is `s`; `rest` is what follows it in the word. -/
def unbundle (table : List (String × Switch)) (s : Switch) :
    List Char → Except Stop (List ArgWord)
  | [] => .ok [option s none]
  | c :: rest =>
    if s.takesValue then .ok [option s (some (String.ofList (if c = '=' then rest else c :: rest)))]
    else if c = '=' || c = '-' then .error .usage
    else
      match table.lookup (String.ofList ['-', c]) with
      | some o => do return option s none :: (← unbundle table o rest)
      | none => .ok [option s none, unknownOption]

/-- The switches that one word stands for, in order. -/
def expand (table : List (String × Switch)) : ArgWord → Except Stop (List ArgWord)
  | option s (some value) =>
    if s.takesValue then .ok [option s (some value)] else unbundle table s value.toList
  | overfull => .error .usage
  | w => .ok [w]

end ArgWord

/-! ## Invocations -/

/-- What a run is asked to do. -/
structure Invocation where
  command : Option Command := none
  verbosity : Nat := 0
  file : Option String := none
  config : Option String := none
  catNames : Bool := false
  output : Option String := none
  conservative : Bool := false
  dumps : List ReportKind := []
  maxIterations : Option Int := none
  function : Option String := none
  /-- Words that nothing takes. -/
  extras : Bool := false
  deriving DecidableEq, Repr

namespace Invocation

/-- The effect of a switch, with its value if it takes one. -/
def apply (v : Invocation) (o : Switch) (value : String) : Except Stop Invocation :=
  match o with
  | .help => .error .help
  | .version => .error .version
  | .verbose => .ok { v with verbosity := v.verbosity + 1 }
  | .config => .ok { v with config := some value }
  | .catNames => .ok { v with catNames := true }
  | .output => .ok { v with output := some value }
  | .conservative => .ok { v with conservative := true }
  | .dump =>
    match ReportKind.ofName? value with
    | some k => .ok { v with dumps := if k ∈ v.dumps then v.dumps else v.dumps ++ [k] }
    | none => .error .usage
  | .maxIterations =>
    match Decimal.ofArgument? value with
    | some n => .ok { v with maxIterations := some n }
    | none => .error .usage
  | .function => .ok { v with function := some value }

/-- The switches of one word, the last of which may take its value from the words after it. -/
def applyAll (v : Invocation) :
    List ArgWord → List ArgWord → Except Stop (Invocation × List ArgWord)
  | [], rest => .ok (v, rest)
  | .option o value :: more, rest =>
    if o.takesValue then
      match value, rest with
      | some value, rest => do applyAll (← v.apply o value) more rest
      | none, .plain value :: rest => do applyAll (← v.apply o value) more rest
      | none, _ => .error .usage
    else do applyAll (← v.apply o "") more rest
  | _ :: more, rest => applyAll { v with extras := true } more rest

/-- The words of a command; `bound` is at least their number. -/
def takeWords (table : List (String × Switch)) :
    Nat → Invocation → List ArgWord → Except Stop Invocation
  | 0, v, _ | _, v, [] => .ok v
  | bound + 1, v, .plain s :: rest =>
    if v.file.isNone then
      let rest := match rest with
        | .separator :: rest => rest
        | rest => rest
      takeWords table bound { v with file := some s } rest
    else takeWords table bound { v with extras := true } rest
  | bound + 1, v, .separator :: .plain s :: rest =>
    if v.file.isNone then takeWords table bound { v with file := some s } rest
    else takeWords table bound { v with extras := true } rest
  | bound + 1, v, .separator :: rest => takeWords table bound { v with extras := true } rest
  | bound + 1, v, w :: rest => do
    let (v, rest) ← v.applyAll (← ArgWord.expand table w) rest
    takeWords table bound v rest

/-- The words from the command on. -/
def takeCommand (v : Invocation) (name : String) (words : List String) :
    Except Stop Invocation := do
  let some c := Command.ofName? name | throw .usage
  let words ← ArgWord.classifyAll c.options words
  let v ← takeWords c.options words.length { v with command := some c } words
  if v.file.isNone then throw .usage
  return v

/-- The words of the program up to its command; `words` are those that `rest` is taken for. -/
def takeProgram (v : Invocation) : List ArgWord → List String → Except Stop Invocation
  | .plain name :: _, _ :: rest => v.takeCommand name rest
  | .separator :: _, _ => .error .usage
  | w :: words, _ :: rest => do
    let (v, _) ← v.applyAll (← ArgWord.expand programOptions w) []
    takeProgram v words rest
  | _, _ => .ok v

/-- What an argument list asks for. -/
def parse (args : List String) : Except Stop Invocation := do
  let words ← ArgWord.classifyAll programOptions args
  let v ← takeProgram {} words args
  if v.extras then throw .usage
  return v

end Invocation

end BoxFlow
