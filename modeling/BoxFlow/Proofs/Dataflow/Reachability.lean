import Mathlib.Order.Bounds.Defs
import Mathlib.Data.Set.Lattice
import BoxFlow.Proofs.Classification
import BoxFlow.Proofs.Dataflow.Effect
import BoxFlow.Proofs.Worklist

/-!
# What can be reached through cells

The search of `Facts.reachableData` looks into every cell that can be reached, whatever cycles the
cells form, and into nothing else (`Facts.mem_reachableData`, `Facts.explore_exact`).
-/

namespace BoxFlow

open Relation (ReflTransGen)

namespace Facts

variable {c : Classification} {s : Facts} {id m x : Id} {found : IdSet}

theorem mem_foldl_insert {l : List Id} {t : IdSet} :
    m ∈ l.foldl (·.insert ·) t ↔ m ∈ t ∨ m ∈ l := by
  induction l generalizing t with
  | nil => simp
  | cons a l ih => rw [List.foldl_cons, ih, IdSet.mem_insert, List.mem_cons]; grind

theorem mem_lookInto_cells : m ∈ (lookInto c s id found).1 ↔
    m ∈ s.pointsTo.get id ∧ m ≠ unknown ∧ c.classOfId m = .pointer := by
  simp [lookInto]

theorem mem_lookInto_found : m ∈ (lookInto c s id found).2 ↔
    m ∈ found ∨ m ∈ s.pointsTo.get id ∧ (m = unknown ∨ c.classOfId m = .data) := by
  simp [lookInto, mem_foldl_insert]

/-- What has been found when some cells have been looked into. -/
def FoundIn (c : Classification) (s : Facts) (R : Set Id) (found : IdSet) : Prop :=
  ∀ m, m ∈ found ↔ ∃ r ∈ R, m ∈ s.pointsTo.get r ∧ (m = unknown ∨ c.classOfId m = .data)

theorem foundIn_lookInto {R : Set Id} (h : FoundIn c s R found) :
    FoundIn c s (insert x R) (lookInto c s x found).2 := by
  intro m
  rw [mem_lookInto_found, h m, Set.exists_mem_insert, or_comm]

/-- The search looks into exactly the cells that can be reached. -/
theorem explore_spec (c : Classification) (s : Facts) (id : Id) :
    (explore c s id).1.waiting = [] ∧
      FoundIn c s {x | s.knowledge.Reaches c id x} (reachableData c s id) := by
  have hlook (R : Set Id) (x : Id) (found : IdSet) (hfound : FoundIn c s R found) (_ : x ∉ R) :
      (∀ y, y ∈ (lookInto c s x found).1 ↔
        y ∈ s.knowledge.pointsTo x ∧ y ≠ unknown ∧ c.classOfId y = .pointer) ∧
        FoundIn c s (insert x R) (lookInto c s x found).2 :=
    ⟨fun y => mem_lookInto_cells, foundIn_lookInto hfound⟩
  have hbounds : ∀ r ∈ [id], ∀ x, s.knowledge.Reaches c r x → x ∈ id :: c.pointer.toList := by
    intro r hr x hx
    obtain rfl := List.mem_singleton.1 hr
    rcases hx.cases_tail with rfl | ⟨y, -, -, -, hclass⟩
    · exact List.mem_cons_self
    · exact List.mem_cons_of_mem _
        (Std.ExtTreeSet.mem_toList.2 (Classification.mem_pointer hclass))
  obtain ⟨hnil, -, hmet, hfound⟩ := Worklist.search_spec (r := ∅) .newest (FoundIn c s) hlook
    hbounds (show _ ≤ c.pointer.size + 1 by simp) (fun m => by simp) rfl
  have hreached : {x | s.knowledge.Reaches c id x} = {x | x ∈ (explore c s id).1.met} := by
    ext x
    exact ((hmet x).trans (by simp [Knowledge.Reaches])).symm
  exact ⟨hnil, hreached ▸ hfound⟩

theorem mem_reachableData :
    m ∈ reachableData c s id ↔ m ∈ s.knowledge.reachableData c id :=
  (explore_spec c s id).2 m

/-! ## The least set of cells -/

/-- A set with a cell in it, and with every cell all the cells that it may hold. -/
structure HoldsCells (c : Classification) (s : Facts) (id : Id) (R : Set Id) : Prop where
  start : id ∈ R
  held : ∀ r ∈ R, ∀ q ∈ s.pointsTo.get r, q ≠ unknown → c.classOfId q = .pointer → q ∈ R

theorem isLeast_reaches (c : Classification) (s : Facts) (id : Id) :
    IsLeast {R | HoldsCells c s id R} {x | s.knowledge.Reaches c id x} := by
  refine ⟨⟨.refl, fun r hr q hq hne hclass => hr.tail ⟨hq, hne, hclass⟩⟩, fun R hR x hx => ?_⟩
  induction hx with
  | refl => exact hR.start
  | tail _ hq ih => exact hR.held _ ih _ hq.1 hq.2.1 hq.2.2

/-- The search ends, and it finds the handles that some cell of the least set may hold, with
`unknown` if one of these cells may hold something that is not tracked. -/
theorem explore_exact (c : Classification) (s : Facts) (id : Id) :
    (explore c s id).1.waiting = [] ∧ ∃ R, IsLeast {R | HoldsCells c s id R} R ∧
      (∀ m, m ≠ unknown → (m ∈ reachableData c s id ↔
        c.classOfId m = .data ∧ ∃ r ∈ R, m ∈ s.pointsTo.get r)) ∧
      (unknown ∈ reachableData c s id ↔ ∃ r ∈ R, unknown ∈ s.pointsTo.get r) := by
  obtain ⟨hnil, hfound⟩ := explore_spec c s id
  refine ⟨hnil, _, isLeast_reaches c s id, fun m hm => ?_, ?_⟩
  · rw [hfound m]
    simp only [hm, false_or]
    constructor
    · rintro ⟨r, hr, hmr, hclass⟩
      exact ⟨hclass, r, hr, hmr⟩
    · rintro ⟨hclass, r, hr, hmr⟩
      exact ⟨r, hr, hmr, hclass⟩
  · simp [hfound unknown]

/-- The classes of two cells and a handle. -/
def ringClasses : Classification where
  data := {2}
  pointer := {0, 1}

/-- Each of the cells may hold the other, and one of them the handle. -/
def ringFacts : Facts where
  pointsTo := Table.add (Table.add ∅ 0 {1}) 1 {0, 2}

/-- The handle is found from the other cell. -/
theorem explore_exact_ring : ∃ R, IsLeast {R | HoldsCells ringClasses ringFacts 0 R} R ∧
    (2 : Id) ≠ unknown ∧ 2 ∈ reachableData ringClasses ringFacts 0 := by
  obtain ⟨-, R, hR, hfound, -⟩ := explore_exact ringClasses ringFacts 0
  have hcell : (1 : Id) ∈ R := hR.1.held 0 hR.1.start 1 (by decide +kernel) (by decide)
    (by decide +kernel)
  have hclass : ringClasses.classOfId 2 = .data := by decide +kernel
  exact ⟨R, hR, by decide, (hfound 2 (by decide)).2 ⟨hclass, 1, hcell, by decide +kernel⟩⟩

end Facts

end BoxFlow
