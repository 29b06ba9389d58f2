import BoxFlow.Proofs.Facts.Knowledge

/-!
# The lattice of facts

Facts are ordered and joined table by table, so they form a lawful lattice (`Facts.lawful_lattice`),
in which facts are below each other exactly if they are the same. With the laws for maps into any
lawful lattice, whether nested or not, that is `Facts.lattice_laws`.
-/

namespace BoxFlow.Facts

open Std (TransCmp)
open Table (lawful_tableLattice)

variable {a b c : Facts}

/-- Facts with the order and the joins of their tables. -/
def lattice : Semilattice Facts where
  bottom := {}
  join := join
  leq := leq

theorem leq_iff_tables : a.leq b = true ↔ tableLattice.leq a.defs b.defs = true ∧
    tableLattice.leq a.aliases b.aliases = true ∧
      tableLattice.leq a.pointsTo b.pointsTo = true := by
  rw [leq, Bool.and_eq_true, Bool.and_eq_true, and_assoc]

theorem lawful_lattice : lattice.Lawful where
  refl _ := leq_iff_tables.2
    ⟨lawful_tableLattice.refl _, lawful_tableLattice.refl _, lawful_tableLattice.refl _⟩
  trans hab hbc := by
    obtain ⟨hdefs, haliases, hpoints⟩ := leq_iff_tables.1 hab
    obtain ⟨hdefs', haliases', hpoints'⟩ := leq_iff_tables.1 hbc
    exact leq_iff_tables.2 ⟨lawful_tableLattice.trans hdefs hdefs',
      lawful_tableLattice.trans haliases haliases', lawful_tableLattice.trans hpoints hpoints'⟩
  bottom_leq a := (leq_iff_tables (a := {}) (b := a)).2 ⟨lawful_tableLattice.bottom_leq _,
    lawful_tableLattice.bottom_leq _, lawful_tableLattice.bottom_leq _⟩
  leq_join_left _ _ := leq_iff_tables.2 ⟨lawful_tableLattice.leq_join_left _ _,
    lawful_tableLattice.leq_join_left _ _, lawful_tableLattice.leq_join_left _ _⟩
  leq_join_right _ _ := leq_iff_tables.2 ⟨lawful_tableLattice.leq_join_right _ _,
    lawful_tableLattice.leq_join_right _ _, lawful_tableLattice.leq_join_right _ _⟩
  join_leq hac hbc := by
    obtain ⟨hdefs, haliases, hpoints⟩ := leq_iff_tables.1 hac
    obtain ⟨hdefs', haliases', hpoints'⟩ := leq_iff_tables.1 hbc
    exact leq_iff_tables.2 ⟨lawful_tableLattice.join_leq hdefs hdefs',
      lawful_tableLattice.join_leq haliases haliases',
      lawful_tableLattice.join_leq hpoints hpoints'⟩

/-- Facts that are below each other differ at most in empty sets. -/
theorem leq_and_leq_iff : a.leq b = true ∧ b.leq a = true ↔ a.same b = true := by
  rw [leq_iff, leq_iff, same_iff]
  exact le_antisymm_iff.symm

/-- The maps into a lawful lattice are a lawful lattice, hence so is every nesting of maps over
finite sets, and so are the facts, in which `same` is being below each other. -/
theorem lattice_laws :
    (∀ {κ β : Type} [Ord κ] [TransCmp (compare : κ → κ → Ordering)] {L : Semilattice β},
      L.Lawful → (L.pointwise κ).bottom = ∅ ∧ (L.pointwise κ).Lawful ∧
        (L.pointwise κ).JoinLaws) ∧
    (∀ {α : Type} {L : Semilattice α}, L.Nested → L.Lawful ∧ L.JoinLaws) ∧
    lattice.Lawful ∧ lattice.JoinLaws ∧
    ∀ a b : Facts, a.leq b = true ∧ b.leq a = true ↔ a.same b = true := by
  refine ⟨fun h => ?_, fun h => ?_, lawful_lattice, lawful_lattice.joinLaws,
    fun _ _ => leq_and_leq_iff⟩
  · exact ⟨rfl, h.pointwise, h.pointwise.joinLaws⟩
  · exact ⟨h.lawful, h.lawful.joinLaws⟩

/-- The numbers below `n`, as a set. -/
def below (n : Nat) : Std.ExtTreeSet Nat := .ofList (List.range n)

/-- Maps of which each has a key that the other lacks; both have an empty set. -/
theorem lattice_laws_apart :
    let L := (Semilattice.powerset Nat).pointwise String
    let a : Std.ExtTreeMap String (Std.ExtTreeSet Nat) := .ofList [("a", below 2), ("b", ∅)]
    let b : Std.ExtTreeMap String (Std.ExtTreeSet Nat) := .ofList [("a", ∅), ("c", below 1)]
    (Semilattice.powerset Nat).Lawful ∧ L.leq a b = false ∧ L.leq b a = false ∧
      L.leq a (L.join a b) = true ∧ L.eq (L.join a b) (L.join b a) = true := by
  intro L a b
  have hpowerset : (Semilattice.powerset Nat).Lawful := Semilattice.lawful_powerset
  obtain ⟨-, hlawful, hjoin⟩ := lattice_laws.1 (κ := String) hpowerset
  exact ⟨hpowerset, by decide +kernel, by decide +kernel,
    hlawful.leq_join_left a b, hjoin.comm a b⟩

end BoxFlow.Facts
