/-!
# Log records

What the stages of a run report, each under the name of its own channel.
-/

namespace BoxFlow.Log

inductive Level
  | debug
  | info
  | warning
  | error
  deriving DecidableEq, Repr

namespace Level

def name : Level → String
  | debug => "DEBUG"
  | info => "INFO"
  | warning => "WARNING"
  | error => "ERROR"

def all : List Level := [debug, info, warning, error]

def ofName? (s : String) : Option Level := all.find? (·.name = s)

def rank : Level → Nat
  | debug => 0
  | info => 1
  | warning => 2
  | error => 3

end Level

/-- The part of the program a record comes from. -/
inductive Channel
  | main
  | config
  | reader
  | classifier
  | escape
  | dataflow
  | rewriting
  | pass
  deriving DecidableEq, Repr

def Channel.name : Channel → String
  | main => "catflow"
  | config => "catflow.config"
  | reader => "catflow.ir_parser"
  | classifier => "catflow.classifier"
  | escape => "catflow.oracle"
  | dataflow => "catflow.engine"
  | rewriting => "catflow.optimizer"
  | pass => "catflow.passes"

structure Record where
  level : Level
  channel : Channel
  message : String
  deriving DecidableEq, Repr

/-- The records of at least the given level. -/
def atLeast (level : Level) (records : List Record) : List Record :=
  records.filter fun r => level.rank ≤ r.level.rank

/-- A record as a line: the level takes five characters. -/
def Record.line (r : Record) : String :=
  let level := String.ofList ((r.level.name.toList ++ List.replicate 5 ' ').take 5)
  "[" ++ level ++ "] " ++ r.channel.name ++ ": " ++ r.message

end BoxFlow.Log
