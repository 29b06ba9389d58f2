import BoxFlow.Classification
import BoxFlow.Escape
import BoxFlow.Worklist

/-!
# What an instruction does to the facts

`View.transfer` takes the facts before an instruction to those after it. A handle is set strongly,
and weakly through its aliases; a store does the same to a cell; what comes out of a merge or a
load is unlinked from its old aliases and linked to those of its sources. `View.reserve` numbers
the values that the rule of an instruction mentions, `View.warnings` and `View.queries` tell what
goes wrong with it and what it asks the oracle.
-/

namespace BoxFlow

/-- What a transfer rule may look at besides the facts before the instruction: `exits` are the facts
at the ends of the blocks that have been visited. -/
structure View where
  program : Program
  oracle : Oracle
  cls : Classification
  exits : Std.ExtTreeMap BlockId Facts := ∅

namespace Facts

/-! ## Aliases -/

/-- `id` aliased to nothing but itself: it leaves the sets of those it had as aliases. -/
def unalias (id : Id) (s out : Facts) : Facts :=
  let cleared := (s.aliases.get id).toList.foldl
    (fun t a => t.insert a ((t.get a).erase id)) out.aliases
  { out with aliases := cleared.insert id {id} }

/-- `id` aliased, both ways, to each of `sources`. -/
def linkAliases (id : Id) (sources : IdSet) (out : Facts) : Facts :=
  { out with aliases := sources.toList.foldl (fun t a => (t.add id {a}).add a {id}) out.aliases }

/-- The aliases of an id; it is its own if it has no entry. -/
def aliasesOf (aliases : Table) (id : Id) : IdSet :=
  aliases.getD id {id}

/-- An entry for an id that has none in `aliases`. -/
def initAlias (aliases : Table) (id : Id) (out : Facts) : Facts :=
  if aliases.contains id then out else { out with aliases := out.aliases.add id {id} }

/-! ## Setting handles and cells -/

/-- Handle `id` is set by `definition`, and so may be its aliases. -/
def setDef (id definition : Id) (aliases : Table) (out : Facts) : Facts :=
  let out := { initAlias aliases id out with defs := out.defs.insert id ∅ }
  { out with
    defs := (aliasesOf aliases id).toList.foldl (fun t a => t.add a {definition}) out.defs }

/-- Cell `id` and its aliases may now hold `target` too. -/
def addPointsTo (id target : Id) (aliases : Table) (out : Facts) : Facts :=
  let out := initAlias aliases id out
  { out with
    pointsTo := (aliasesOf aliases id).toList.foldl (fun t a => t.add a {target}) out.pointsTo }

/-- Cell `id` now holds `target`, and so may its aliases. -/
def setPointsTo (id target : Id) (aliases : Table) (out : Facts) : Facts :=
  addPointsTo id target aliases { out with pointsTo := out.pointsTo.insert id ∅ }

/-! ## By class -/

/-- The table that describes values of a class: what set a handle, what a cell holds. -/
def tableOf (s : Facts) : ValueClass → Table
  | .data => s.defs
  | _ => s.pointsTo

/-- The entry of an id in the table of a class. -/
def setTableOf (out : Facts) (k : ValueClass) (id : Id) (members : IdSet) : Facts :=
  match k with
  | .data => { out with defs := out.defs.insert id members }
  | _ => { out with pointsTo := out.pointsTo.insert id members }

/-! ## Reachability -/

/-- A look into cell `id`: the cells that it may hold are met, and the handles are added to those
that are found, as is `unknown`. -/
def lookInto (c : Classification) (s : Facts) (id : Id) (found : IdSet) : List Id × IdSet :=
  let held := (s.pointsTo.get id).toList
  (held.filter fun i => i ≠ unknown ∧ c.classOfId i = .pointer,
    (held.filter fun i => i = unknown ∨ c.classOfId i = .data).foldl (·.insert ·) found)

/-- The search from cell `id` through cells that hold cells, with what it finds. -/
def explore (c : Classification) (s : Facts) (id : Id) : Worklist Id × IdSet :=
  Worklist.search .newest (lookInto c s) (c.pointer.size + 1)
    (Worklist.meetAll .newest {} [id], ∅)

/-- The handles that can be reached from cell `id`, and `unknown` if a cell on the way may hold
something that is not tracked. -/
def reachableData (c : Classification) (s : Facts) (id : Id) : IdSet :=
  (explore c s id).2

end Facts

/-! ## Warnings -/

/-- A rule that does not fit the classification; instructions and values are given by their text. -/
inductive Warning
  | pointerNotRecognized (inst : String)
  | dataNotRecognized (inst : String)
  | invalidType (inst : String) (k : ValueClass)
  | aliasNotInitialised (value : String)
  deriving DecidableEq, Repr

def Warning.message : Warning → String
  | pointerNotRecognized i => s!"In {i} the ptr is not recognized"
  | dataNotRecognized i => s!"In {i} the data is not recognized"
  | invalidType i k =>
    s!"In {i} trying to assign invalid type to " ++ if k = .data then "DATA" else "PTR"
  | aliasNotInitialised v => s!"{v} alias not initialised"

/-- A question to the oracle with its answer. -/
structure Query where
  callee : String
  location : Value
  size : Nat
  answer : Bool
  deriving DecidableEq, Repr

namespace View

open Facts

def idOf (v : View) (x : Value) : Id := v.cls.arena.idOf x

/-! ## Opaque calls -/

/-- The cells among the arguments of a call. -/
def pointerArgs (v : View) (args : List Value) : IdSet :=
  .ofList ((args.filter fun a => v.cls.classOf a = .pointer).map v.idOf)

/-- The handles that a call gets: among its arguments or reachable from its cells. -/
def dataArgs (v : View) (args : List Value) (s : Facts) : IdSet :=
  .ofList (args.flatMap fun a =>
    match v.cls.classOf a with
    | .data => [v.idOf a]
    | .pointer => (reachableData v.cls s (v.idOf a)).toList
    | .irrelevant => [])

/-- May a call write through the value with this number? -/
def mayModify (v : View) (call : InstId) (id : Id) : Bool :=
  (v.cls.arena.value? id).elim true fun x => v.oracle call x (v.program.locationSize x)

/-- The facts once a call has done to its arguments what the oracle allows: the cells may hold the
handles, and the handles may be set. -/
def touched (v : View) (call : InstId) (args : List Value) (s : Facts) : Facts :=
  let data := v.dataArgs args s
  let out := ((v.pointerArgs args).toList.filter (v.mayModify call)).foldl (fun out ptr =>
    data.toList.foldl (fun out target => addPointsTo ptr target s.aliases out) out) s
  (data.toList.filter fun i => i ≠ unknown && v.mayModify call i).foldl
    (fun out i => setDef i unknown s.aliases out) out

/-- What the result of a call may be, if it is of a class. -/
def callSources (v : View) (k : ValueClass) (args : List Value) (s : Facts) : List Id :=
  (if k = .data then v.dataArgs args s else v.pointerArgs args).toList.filter (· ≠ unknown)

/-- The facts after a call that may do anything the oracle allows. -/
def opaqueCall (v : View) (call : InstId) (args : List Value) (s : Facts) : Facts :=
  let out := v.touched call args s
  match v.cls.classOf (.inst call) with
  | .irrelevant => out
  | k =>
    let id := v.idOf (.inst call)
    let sources := v.callSources k args s
    let table := out.tableOf k
    let members := sources.foldl (fun m i => m ∪ table.get i) {unknown}
    let out := sources.foldl (fun out i => linkAliases id (s.aliases.get i) out) (unalias id s out)
    out.setTableOf k id members

/-! ## Rules -/

/-- A merge of values, each with the facts it comes with. -/
def merge (v : View) (i : InstId) (inputs : List (Value × Facts)) (s : Facts) : Facts :=
  match v.cls.classOf (.inst i) with
  | .irrelevant => s
  | k =>
    let id := v.idOf (.inst i)
    let sources := inputs.filterMap fun (x, facts) => (v.cls.arena.find x).map (·, facts)
    let out := sources.foldl (fun out (j, facts) => linkAliases id (facts.aliases.get j) out)
      (unalias id s s)
    let members := sources.foldl (fun m (j, facts) => m ∪ (facts.tableOf k).get j) ∅
    out.setTableOf k id members

/-- The values a phi may take, each with the facts at the end of the block it comes from. -/
def phiInputs (v : View) (incoming : List (Value × BlockId)) : List (Value × Facts) :=
  incoming.filterMap fun (x, b) => v.exits[b]?.map (x, ·)

/-- What a load may yield: the set that describes it, from those of what the cell may hold. -/
def loadedMembers (v : View) (k : ValueClass) (pointees : IdSet) (s : Facts) : IdSet :=
  pointees.toList.foldl (fun m j =>
    if j = unknown then m.insert unknown
    else if v.cls.classOfId j = k then m ∪ (s.tableOf k).get j
    else m) ∅

/-- The result of a load, linked to what the cell may hold and described by it. -/
def loadResult (v : View) (i : InstId) (pointees : IdSet) (s : Facts) : Facts :=
  let id := v.idOf (.inst i)
  let out := (pointees.toList.filter (· ≠ unknown)).foldl
    (fun out j => linkAliases id (s.aliases.get j) out) (unalias id s s)
  match v.cls.classOf (.inst i) with
  | .irrelevant => out
  | k => out.setTableOf k id (v.loadedMembers k pointees s)

def load (v : View) (i : InstId) (pointer : Value) (s : Facts) : Facts :=
  let ptr := v.idOf pointer
  let out := v.loadResult i (s.pointsTo.get ptr) s
  -- The loaded value now stands for whatever was not tracked.
  let out := { out with
    pointsTo := out.pointsTo.insert ptr ((out.pointsTo.get ptr).erase unknown) }
  addPointsTo ptr (v.idOf (.inst i)) s.aliases out

/-- The facts after an instruction. -/
def transfer (v : View) (i : InstId) (s : Facts) : Facts :=
  match (v.program.inst i).op with
  | .phi incoming => v.merge i (v.phiInputs incoming) s
  | .select _ t e => v.merge i [(t, s), (e, s)] s
  | .alloca _ =>
    if v.cls.classOf (.inst i) = .pointer then
      let id := v.idOf (.inst i)
      let out := unalias id s s
      { out with pointsTo := out.pointsTo.insert id ∅ }
    else s
  | .store value pointer =>
    if v.cls.classOf pointer = .pointer then
      setPointsTo (v.idOf pointer) (v.idOf value) s.aliases s
    else s
  | .load pointer => if v.cls.classOf pointer = .pointer then v.load i pointer s else s
  | .call _ args =>
    match v.cls.kindOf i, args with
    | .operation .create, _ =>
      let id := v.idOf (.inst i)
      let out := unalias id s s
      setDef id id out.aliases out
    | .opaqueCall, _ => v.opaqueCall i args s
    | kind, handle :: _ =>
      if kind.definesFirst && v.cls.classOf handle = .data then
        setDef (v.idOf handle) (v.idOf (.inst i)) s.aliases s
      else s
    | _, [] => s
  | _ => s

/-! ## Numbers, warnings and queries -/

/-- The arena in which everything that the rule of an instruction mentions has a number. -/
def reserve (v : View) (i : InstId) : Arena :=
  let arena := v.cls.arena
  match (v.program.inst i).op with
  | .store value pointer => if v.cls.classOf pointer = .pointer then arena.insert value else arena
  | .load pointer => if v.cls.classOf pointer = .pointer then arena.insert (.inst i) else arena
  | .call _ args =>
    match v.cls.kindOf i, args with
    | .operation .create, _ => arena.insert (.inst i)
    | kind, handle :: _ =>
      if kind.definesFirst && v.cls.classOf handle = .data then arena.insert (.inst i) else arena
    | _, [] => arena
  | _ => arena

/-- A warning if a value has no aliases yet. -/
def aliasWarning (v : View) (s : Facts) (id : Id) : List Warning :=
  if s.aliases.contains id then []
  else [.aliasNotInitialised ((v.cls.arena.value? id).elim "" v.program.ref)]

/-- What does not fit the classification in the rule of an instruction. -/
def warnings (v : View) (i : InstId) (s : Facts) : List Warning :=
  let text := v.program.instText i
  match (v.program.inst i).op with
  | .alloca _ =>
    if v.cls.classOf (.inst i) = .pointer then [] else [.pointerNotRecognized text]
  | .store _ pointer =>
    if v.cls.classOf pointer = .pointer then v.aliasWarning s (v.idOf pointer)
    else [.pointerNotRecognized text]
  | .load pointer =>
    if v.cls.classOf pointer = .pointer then
      let ptr := v.idOf pointer
      let k := v.cls.classOf (.inst i)
      let misfit := (s.pointsTo.get ptr).toList.any fun j => j ≠ unknown && v.cls.classOfId j ≠ k
      (if k ≠ .irrelevant && misfit then [.invalidType text k] else []) ++ v.aliasWarning s ptr
    else [.pointerNotRecognized text]
  | .call _ args =>
    match v.cls.kindOf i with
    | .opaqueCall =>
      let data := (v.dataArgs args s).toList
      let pointers := if data.isEmpty then [] else (v.pointerArgs args).toList
      (pointers.filter (v.mayModify i) ++
        data.filter fun j => j ≠ unknown && v.mayModify i j).flatMap (v.aliasWarning s)
    | kind =>
      if kind.definesFirst then
        match args with
        | handle :: _ =>
          if v.cls.classOf handle = .data then v.aliasWarning s (v.idOf handle)
          else [.dataNotRecognized text]
        | [] => [.dataNotRecognized text]
      else []
  | _ => []

/-- What the rule of an instruction asks the oracle, in order. -/
def queries (v : View) (i : InstId) (s : Facts) : List Query :=
  match (v.program.inst i).op with
  | .call callee args =>
    if v.cls.kindOf i = .opaqueCall then
      ((v.pointerArgs args).toList ++ (v.dataArgs args s).toList.filter (· ≠ unknown)).filterMap
        fun id => (v.cls.arena.value? id).map fun location =>
          let size := v.program.locationSize location
          { callee, location, size, answer := v.oracle i location size }
    else []
  | _ => []

end View

end BoxFlow
