import Mathlib.Order.Basic
import BoxFlow.Classification
import BoxFlow.Proofs.Facts.Tables

/-!
# What facts say

`Facts.knowledge` reads the three tables as functions to sets, so that facts that differ in empty
sets are equal. `same`, `leq` and `join` are equality, the order and the union of knowledge.

`Knowledge.AliasWF` is the invariant of the alias table: it is symmetric, and every classified id
is an alias of itself.
-/

namespace BoxFlow

/-- What sets a handle, what an access may be seen through, and what a cell may hold. -/
@[ext] structure Knowledge where
  defs : Id → Set Id
  aliases : Id → Set Id
  pointsTo : Id → Set Id

namespace Knowledge

variable {k l : Knowledge}

instance : PartialOrder Knowledge where
  le k l := (∀ x, k.defs x ⊆ l.defs x) ∧ (∀ x, k.aliases x ⊆ l.aliases x) ∧
    ∀ x, k.pointsTo x ⊆ l.pointsTo x
  le_refl _ := ⟨fun _ => subset_rfl, fun _ => subset_rfl, fun _ => subset_rfl⟩
  le_trans _ _ _ h h' := ⟨fun x => (h.1 x).trans (h'.1 x), fun x => (h.2.1 x).trans (h'.2.1 x),
    fun x => (h.2.2 x).trans (h'.2.2 x)⟩
  le_antisymm _ _ h h' := Knowledge.ext (funext fun x => (h.1 x).antisymm (h'.1 x))
    (funext fun x => (h.2.1 x).antisymm (h'.2.1 x)) (funext fun x => (h.2.2 x).antisymm (h'.2.2 x))

theorem le_iff : k ≤ l ↔ (∀ x, k.defs x ⊆ l.defs x) ∧ (∀ x, k.aliases x ⊆ l.aliases x) ∧
    ∀ x, k.pointsTo x ⊆ l.pointsTo x := .rfl

/-- Nothing is known. -/
def empty : Knowledge := ⟨fun _ => ∅, fun _ => ∅, fun _ => ∅⟩

/-- What one or the other says. -/
def union (k l : Knowledge) : Knowledge where
  defs x := k.defs x ∪ l.defs x
  aliases x := k.aliases x ∪ l.aliases x
  pointsTo x := k.pointsTo x ∪ l.pointsTo x

/-- What one of several says. -/
def sUnion (S : Set Knowledge) : Knowledge where
  defs x := {m | ∃ k ∈ S, m ∈ k.defs x}
  aliases x := {m | ∃ k ∈ S, m ∈ k.aliases x}
  pointsTo x := {m | ∃ k ∈ S, m ∈ k.pointsTo x}

/-- The table that describes values of a class. -/
def tableOf (k : Knowledge) : ValueClass → Id → Set Id
  | .data => k.defs
  | _ => k.pointsTo

/-! ## The alias invariant -/

/-- Aliases are mutual, and a classified id is one of its own. -/
structure AliasWF (c : Classification) (k : Knowledge) : Prop where
  symm : ∀ {x y}, y ∈ k.aliases x → x ∈ k.aliases y
  refl : ∀ {x}, c.classOfId x ≠ .irrelevant → x ∈ k.aliases x

theorem AliasWF.sUnion {c : Classification} {S : Set Knowledge} (hS : S.Nonempty)
    (h : ∀ k ∈ S, k.AliasWF c) : (sUnion S).AliasWF c where
  symm := fun ⟨k, hk, hm⟩ => ⟨k, hk, (h k hk).symm hm⟩
  refl hx := hS.imp fun k hk => ⟨hk, (h k hk).refl hx⟩

end Knowledge

namespace Facts

variable {a b : Facts} {x m : Id}

/-- What the tables say. -/
def knowledge (a : Facts) : Knowledge where
  defs x := {m | m ∈ a.defs.get x}
  aliases x := {m | m ∈ a.aliases.get x}
  pointsTo x := {m | m ∈ a.pointsTo.get x}

@[simp] theorem mem_knowledge_defs : m ∈ a.knowledge.defs x ↔ m ∈ a.defs.get x := .rfl

@[simp] theorem mem_knowledge_aliases : m ∈ a.knowledge.aliases x ↔ m ∈ a.aliases.get x := .rfl

@[simp] theorem mem_knowledge_pointsTo : m ∈ a.knowledge.pointsTo x ↔ m ∈ a.pointsTo.get x := .rfl

@[simp] theorem knowledge_empty : ({} : Facts).knowledge = .empty := by
  ext x m <;> simp [Knowledge.empty]

theorem knowledge_join (a b : Facts) : (a.join b).knowledge = a.knowledge.union b.knowledge := by
  ext x m <;> exact Table.mem_get_join

theorem knowledge_foldl_join (l : List Facts) :
    (l.foldl join {}).knowledge = .sUnion {k | ∃ s ∈ l, s.knowledge = k} := by
  have hfold (l : List Facts) (s : Facts) : (l.foldl join s).knowledge =
      s.knowledge.union (.sUnion {k | ∃ s ∈ l, s.knowledge = k}) := by
    induction l generalizing s with
    | nil => ext x m <;> simp [Knowledge.union, Knowledge.sUnion]
    | cons t l ih =>
      rw [List.foldl_cons, ih, knowledge_join]
      ext x m <;> simp [Knowledge.union, Knowledge.sUnion, or_assoc]
  rw [hfold, knowledge_empty]
  ext x m <;> simp [Knowledge.union, Knowledge.empty]

theorem leq_iff : a.leq b = true ↔ a.knowledge ≤ b.knowledge := by
  simp only [leq, Bool.and_eq_true, Table.leq_iff, and_assoc]
  exact .rfl

theorem same_iff : a.same b = true ↔ a.knowledge = b.knowledge := by
  have get_eq {t u : Table} : (∀ x, t.get x = u.get x) ↔
      (fun x => {m | m ∈ t.get x}) = fun x => {m | m ∈ u.get x} := by
    constructor
    · intro h
      funext x
      rw [h x]
    · intro h x
      exact Std.ExtTreeSet.ext_mem fun m => Set.ext_iff.1 (congrFun h x) m
  rw [same, decide_eq_true_iff]
  simp only [normalize, Facts.mk.injEq, Table.normalize_eq_iff, get_eq, knowledge,
    Knowledge.mk.injEq]

end Facts

end BoxFlow
