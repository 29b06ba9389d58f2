import BoxFlow.Lattice

/-!
# Facts at a program point

Three tables from ids to sets of ids: which calls may have set a handle, which values an access
through a value may be seen through, and what a cell may hold. `unknown` stands for a source that
is not tracked.
-/

namespace BoxFlow

/-- The number of a value in an arena, or `unknown`. -/
abbrev Id := Int

/-- Set by, or pointing to, something that is not tracked. It comes before every other id. -/
def unknown : Id := -1

abbrev IdSet := Std.ExtTreeSet Id

abbrev Table := Std.ExtTreeMap Id IdSet

/-- The lattice of the tables: the pointwise order on sets of ids. -/
def tableLattice : Semilattice Table := (Semilattice.powerset Id).pointwise Id

namespace Table

/-- The set of an id, empty if there is none. -/
def get (t : Table) (id : Id) : IdSet := t.getD id ∅

/-- The table with more members in the set of an id. -/
def add (t : Table) (id : Id) (members : IdSet) : Table :=
  t.insert id (t.get id ∪ members)

end Table

/-- The facts that hold at one point. -/
structure Facts where
  defs : Table := ∅
  aliases : Table := ∅
  pointsTo : Table := ∅
  deriving DecidableEq

namespace Facts

def join (a b : Facts) : Facts where
  defs := tableLattice.join a.defs b.defs
  aliases := tableLattice.join a.aliases b.aliases
  pointsTo := tableLattice.join a.pointsTo b.pointsTo

def leq (a b : Facts) : Bool :=
  tableLattice.leq a.defs b.defs && tableLattice.leq a.aliases b.aliases &&
    tableLattice.leq a.pointsTo b.pointsTo

/-- The facts without empty sets. -/
def normalize (a : Facts) : Facts where
  defs := Semilattice.normalize (Semilattice.powerset Id) a.defs
  aliases := Semilattice.normalize (Semilattice.powerset Id) a.aliases
  pointsTo := Semilattice.normalize (Semilattice.powerset Id) a.pointsTo

/-- Facts are the same if they differ at most in empty sets. -/
def same (a b : Facts) : Bool := a.normalize = b.normalize

/-- How a message shows facts: by the sizes of the tables. -/
def display (a : Facts) : String :=
  s!"FactState(defs={a.defs.size}, aliases={a.aliases.size}, points_to={a.pointsTo.size})"

end Facts

end BoxFlow
