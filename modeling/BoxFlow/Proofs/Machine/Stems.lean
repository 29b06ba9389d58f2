import BoxFlow.Proofs.Escape
import BoxFlow.Proofs.Machine.Closed

/-!
# What a value may stand for

A value stems from a root, which makes a handle or a cell, or from outside the function: by itself,
through phis and selects, or out of a cell into which it has been stored. Other than the origins of
a value, this also follows what is loaded (`Program.Stems.origin`).
-/

namespace BoxFlow

open Escape (Origin isRoot origins)

/-- The function mentions neither parameters nor globals. -/
def Program.SelfContained (p : Program) (f : FuncId) : Prop :=
  ∀ i ∈ p.instructions f, ∀ v ∈ (p.inst i).op.operands, v.isOutside = false

instance (p : Program) (f : FuncId) : Decidable (p.SelfContained f) :=
  inferInstanceAs (Decidable (∀ i ∈ p.instructions f, _))

/-- May a cell come from there? -/
def Escape.Origin.IsCell (p : Program) : Origin → Prop
  | .root i => ∃ ty, (p.inst i).op = .alloca ty
  | .elsewhere => True

/-- What a value may stand for comes from there, as far as values flow through phis, selects and
cells of the function. -/
inductive Program.Stems (p : Program) (o : Options) (f : FuncId) : Value → Origin → Prop
  | root {i : InstId} : i ∈ p.instructions f → isRoot p o i → Stems p o f (.inst i) (.root i)
  | outside {v : Value} : v.isOutside = true → Stems p o f v .elsewhere
  | merge {i : InstId} {u : Value} {t : Origin} : i ∈ p.instructions f →
    u ∈ (p.inst i).op.merged → Stems p o f u t → Stems p o f (.inst i) t
  /-- Loaded from a cell into which it has been stored, perhaps through another pointer. -/
  | load {i j : InstId} {pointer value q : Value} {s t : Origin} : i ∈ p.instructions f →
    (p.inst i).op = .load pointer → j ∈ p.instructions f → (p.inst j).op = .store value q →
    s.IsCell p → Stems p o f pointer s → Stems p o f q s → Stems p o f value t →
    Stems p o f (.inst i) t
  /-- Loaded from a cell that comes from outside. -/
  | content {i : InstId} {pointer : Value} : i ∈ p.instructions f →
    (p.inst i).op = .load pointer → Stems p o f pointer .elsewhere →
    Stems p o f (.inst i) .elsewhere

namespace Program.Stems

variable {p : Program} {o : Options} {f : FuncId} {v : Value} {t : Origin} {i r : InstId}

theorem isLiteral_eq_false (h : p.Stems o f v t) : v.isLiteral = false := by
  cases h with
  | outside hv =>
    cases v with
    | literal => cases hv
    | _ => rfl
  | _ => rfl

/-- Where a value stems from is among its origins, or it has one that is not local. -/
theorem origin (h : p.Stems o f v t) : t ∈ origins p o v ∨ .elsewhere ∈ origins p o v := by
  have hload {i : InstId} {pointer : Value} (hop : (p.inst i).op = .load pointer) :
      .elsewhere ∈ origins p o (.inst i) :=
    Escape.mem_origins_of_own (by simp [Escape.ownOrigin, isRoot, hop])
  induction h with
  | root _ hroot => exact .inl ((Escape.mem_origins_root hroot).2 rfl)
  | @outside v hv =>
    left
    cases v with
    | param | global => exact Escape.mem_origins_of_own rfl
    | literal | inst => cases hv
  | merge _ hu _ ih =>
    rw [← Escape.mergeInputs_inst] at hu
    exact ih.imp (Escape.mem_origins_of_merge hu) (Escape.mem_origins_of_merge hu)
  | load _ hop => exact .inr (hload hop)
  | content _ hop => exact .inr (hload hop)

/-- A root stems from nothing but itself. -/
theorem eq_of_root (h : p.Stems o f (.inst i) t) (hi : isRoot p o i = true) : t = .root i := by
  cases h with
  | root => rfl
  | outside hout => cases hout
  | merge _ hu => cases hop : (p.inst i).op <;> simp [isRoot, hop, Form.merged] at hi hu
  | load _ hop | content _ hop => simp [isRoot, hop] at hi

/-- Where a value stems from is a root of the function, if it is not outside. -/
theorem isRoot_of_root (h : p.Stems o f v (.root r)) :
    r ∈ p.instructions f ∧ isRoot p o r = true := by
  generalize ht : Origin.root r = t at h
  induction h with
  | root hi hroot =>
    cases ht
    exact ⟨hi, hroot⟩
  | outside | content => cases ht
  | merge _ _ _ ih => exact ih ht
  | load _ _ _ _ _ _ _ _ _ _ ih => exact ih ht

/-- In a self-contained function results stem from roots. -/
theorem ne_elsewhere (hself : p.SelfContained f) (h : p.Stems o f v t) (hv : v.isOutside = false) :
    t ≠ .elsewhere := by
  induction h with
  | root => simp
  | outside hout => simp [hout] at hv
  | merge hi hu _ ih => exact ih (hself _ hi _ (Escape.merged_subset _ hu))
  | load _ _ hj hjop _ _ _ _ _ _ ih => exact ih (hself _ hj _ (by simp [hjop, Form.operands]))
  | content hi hop _ ih => exact absurd rfl (ih (hself _ hi _ (by simp [hop, Form.operands])))

/-- What is loaded stems from something that is stored. -/
theorem exists_stored (hself : p.SelfContained f) {pointer : Value}
    (hop : (p.inst i).op = .load pointer) (h : p.Stems o f (.inst i) t) :
    ∃ j ∈ p.instructions f, ∃ value q, (p.inst j).op = .store value q ∧ p.Stems o f value t := by
  cases h with
  | root _ hroot => simp [isRoot, hop] at hroot
  | outside hout => cases hout
  | merge _ hu => simp [hop, Form.merged] at hu
  | load _ _ hj hjop _ _ _ hvalue => exact ⟨_, hj, _, _, hjop, hvalue⟩
  | content hi hop hpointer =>
    exact absurd rfl (hpointer.ne_elsewhere hself (hself _ hi _ (by simp [hop, Form.operands])))

end Program.Stems

end BoxFlow
