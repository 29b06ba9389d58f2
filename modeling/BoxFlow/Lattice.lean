import Std.Data.ExtTreeMap
import Std.Data.ExtTreeSet

/-!
# Lattices of facts

A `Semilattice` has a least element, joins and a decidable order. `powerset` is the lattice of the
finite subsets of a type, `pointwise` lifts a lattice to finite maps into it, a missing key standing
for the least element. `normalize` drops the keys that say no more than a missing one.
-/

namespace BoxFlow

open Std (ExtTreeMap ExtTreeSet TransCmp)

/-- The operations of a join-semilattice with a least element. -/
structure Semilattice (α : Type) where
  bottom : α
  join : α → α → α
  leq : α → α → Bool

namespace Semilattice

variable {α β κ : Type}

/-- Equal elements are below each other. -/
def eq (L : Semilattice α) (a b : α) : Bool := L.leq a b && L.leq b a

def isBottom (L : Semilattice α) (a : α) : Bool := L.eq a L.bottom

section Powerset

variable (α) [Ord α] [TransCmp (compare : α → α → Ordering)]

/-- Finite sets under inclusion. -/
def powerset : Semilattice (ExtTreeSet α) where
  bottom := ∅
  join a b := a ∪ b
  leq a b := a.toList.all (b.contains ·)

end Powerset

section Pointwise

variable (κ) [Ord κ] [TransCmp (compare : κ → κ → Ordering)]

/-- Finite maps, ordered key by key. -/
def pointwise (L : Semilattice β) : Semilattice (ExtTreeMap κ β) where
  bottom := ∅
  join a b := b.foldl (fun m k y => m.insert k (m[k]?.elim y (L.join · y))) a
  leq a b := a.toList.all fun (k, x) => L.leq x (b.getD k L.bottom)

/-- The map without the keys that stand for the least element. -/
def normalize {κ : Type} [Ord κ] [TransCmp (compare : κ → κ → Ordering)] (L : Semilattice β)
    (m : ExtTreeMap κ β) : ExtTreeMap κ β :=
  m.filter fun _ x => !L.isBottom x

end Pointwise

end Semilattice

end BoxFlow
