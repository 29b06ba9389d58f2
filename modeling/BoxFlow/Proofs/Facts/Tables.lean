import Mathlib.Data.Set.Basic
import BoxFlow.Facts
import BoxFlow.Proofs.Lattice

/-!
# What a table says

A table is read through `Table.get`: a missing set is empty. The lemmas here say what an id is
found with after an operation on the table, `tableLattice` and `normalize` included, so that no
later proof opens the tables themselves.
-/

namespace BoxFlow

open Std (ExtTreeMap ExtTreeSet)

section Map

variable {K V : Type} {cmp : K → K → Ordering} [Std.TransCmp cmp] {m : ExtTreeMap K V cmp}
  {k k' : K} {v v' : V}

theorem mem_iff_getElem?_eq_some : k ∈ m ↔ ∃ v, m[k]? = some v := by
  rw [ExtTreeMap.mem_iff_isSome_getElem?, Option.isSome_iff_exists]

theorem mem_of_getElem?_eq_some (h : m[k]? = some v) : k ∈ m :=
  mem_iff_getElem?_eq_some.2 ⟨v, h⟩

/-- What is found after an entry has been set is that entry, or was there before. -/
theorem getElem?_insert_eq_some [Std.LawfulEqCmp cmp] : (m.insert k v)[k']? = some v' ↔
    k' = k ∧ v' = v ∨ k' ≠ k ∧ m[k']? = some v' := by
  rw [ExtTreeMap.getElem?_insert]
  by_cases h : k' = k
  · subst h
    rw [if_pos Std.ReflCmp.compare_self, Option.some.injEq, eq_comm]
    simp
  · rw [if_neg fun heq => h (Std.LawfulEqCmp.eq_of_compare heq).symm]
    simp [h]

end Map

namespace IdSet

variable {s t : IdSet} {a m : Id}

theorem compare_eq_eq : compare a m = .eq ↔ a = m :=
  Std.LawfulEqCmp.compare_eq_iff_eq

@[simp] theorem mem_insert (s : IdSet) (a m : Id) : m ∈ s.insert a ↔ m = a ∨ m ∈ s := by
  rw [ExtTreeSet.mem_insert, compare_eq_eq, eq_comm]

@[simp] theorem mem_erase (s : IdSet) (a m : Id) : m ∈ s.erase a ↔ m ≠ a ∧ m ∈ s := by
  rw [ExtTreeSet.mem_erase, Ne, compare_eq_eq, eq_comm (a := a)]

@[simp] theorem mem_singleton (a m : Id) : m ∈ ({a} : IdSet) ↔ m = a := by
  have h : m ∈ (∅ : IdSet).insert a ↔ m = a ∨ m ∈ (∅ : IdSet) := mem_insert ..
  exact h.trans (or_iff_left ExtTreeSet.not_mem_empty)

theorem mem_union (s t : IdSet) (m : Id) : m ∈ s ∪ t ↔ m ∈ s ∨ m ∈ t :=
  ExtTreeSet.mem_union_iff

end IdSet

namespace Table

variable {t u : Table} {x y m : Id} {s : IdSet}

@[simp] theorem get_empty : (∅ : Table).get x = ∅ := by
  simp [get]

@[simp] theorem get_insert (t : Table) (x y : Id) (s : IdSet) :
    Table.get (t.insert x s) y = if x = y then s else t.get y := by
  simp [get, ExtTreeMap.getD_insert]

theorem mem_get_iff : m ∈ t.get x ↔ ∃ s, t[x]? = some s ∧ m ∈ s := by
  rw [get, ExtTreeMap.getD_eq_getD_getElem?]
  cases t[x]? <;> simp

@[simp] theorem mem_get_add (t : Table) (x y : Id) (s : IdSet) :
    m ∈ (t.add x s).get y ↔ m ∈ t.get y ∨ x = y ∧ m ∈ s := by
  by_cases h : x = y
  · subst h; simp [add]
  · simp [add, h]

/-- There is an entry wherever the table says something. -/
theorem contains_of_mem_get (h : m ∈ t.get x) : t.contains x = true := by
  obtain ⟨s, hs, -⟩ := mem_get_iff.1 h
  rw [ExtTreeMap.contains_eq_isSome_getElem?, hs, Option.isSome_some]

theorem getD_eq_get (h : m ∈ t.get x) (s : IdSet) : t.getD x s = t.get x := by
  obtain ⟨s', hs, -⟩ := mem_get_iff.1 h
  rw [get, ExtTreeMap.getD_eq_getD_getElem?, ExtTreeMap.getD_eq_getD_getElem?, hs,
    Option.getD_some, Option.getD_some]

/-! ## The lattice of tables -/

theorem lawful_tableLattice : tableLattice.Lawful := Semilattice.lawful_powerset.pointwise

theorem leq_iff : tableLattice.leq t u = true ↔ ∀ x m, m ∈ t.get x → m ∈ u.get x :=
  (Semilattice.pointwise_leq_iff Semilattice.lawful_powerset).trans
    (forall_congr' fun _ => Semilattice.powerset_leq_iff)

theorem mem_get_join : m ∈ (tableLattice.join t u).get x ↔ m ∈ t.get x ∨ m ∈ u.get x := by
  have hjoin : (tableLattice.join t u)[x]? = Option.merge (· ∪ ·) t[x]? u[x]? :=
    Semilattice.getElem?_join t u x
  simp only [get, ExtTreeMap.getD_eq_getD_getElem?, hjoin]
  cases t[x]? <;> cases u[x]? <;> simp [Option.merge]

theorem isBottom_powerset : (Semilattice.powerset Id).isBottom s = true ↔ s = ∅ := by
  simp only [Semilattice.isBottom, Semilattice.eq, Semilattice.powerset, Bool.and_eq_true,
    List.all_eq_true]
  constructor
  · rintro ⟨h, -⟩
    refine ExtTreeSet.ext_mem fun k => ⟨fun hk => ?_, fun hk => ?_⟩
    · simpa using h k (ExtTreeSet.mem_toList.2 hk)
    · simp at hk
  · rintro rfl
    simp

/-- The set under a key, if it is not empty. -/
def nonempty? (t : Table) (x : Id) : Option IdSet := t[x]?.filter (· ≠ ∅)

theorem getElem?_normalize (t : Table) (x : Id) :
    (Semilattice.normalize (Semilattice.powerset Id) t)[x]? = t.nonempty? x := by
  rw [Semilattice.normalize, ExtTreeMap.getElem?_filter', nonempty?]
  congr 1
  funext s
  by_cases h : s = ∅
  · simp [h, isBottom_powerset.2 rfl]
  · simp [h, Bool.eq_false_iff.2 (mt isBottom_powerset.1 h)]

theorem nonempty?_eq (t : Table) (x : Id) :
    t.nonempty? x = if t.get x = ∅ then none else some (t.get x) := by
  rw [nonempty?, get, ExtTreeMap.getD_eq_getD_getElem?]
  cases t[x]? with
  | none => simp
  | some s => by_cases h : s = ∅ <;> simp [h, Option.filter]

/-- Tables have the same normal form exactly if they say the same. -/
theorem normalize_eq_iff :
    Semilattice.normalize (Semilattice.powerset Id) t =
      Semilattice.normalize (Semilattice.powerset Id) u ↔ ∀ x, t.get x = u.get x := by
  constructor
  · intro h x
    have hx : t.nonempty? x = u.nonempty? x := by
      rw [← getElem?_normalize, h, getElem?_normalize]
    rw [nonempty?_eq, nonempty?_eq] at hx
    split at hx <;> split at hx <;> simp_all
  · intro h
    refine ExtTreeMap.ext_getElem? fun x => ?_
    rw [getElem?_normalize, getElem?_normalize, nonempty?_eq, nonempty?_eq, h x]

end Table

end BoxFlow
