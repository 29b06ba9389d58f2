import BoxFlow.Proofs.Machine.Renamed
import BoxFlow.Proofs.Options
import BoxFlow.Proofs.Rewriting.Phases

/-!
# Machines that mirror each other

A machine of a function and one of the rewritten function mirror each other (`Machine.Mirrors`) if
they have done the same, have the same results of what is kept, and what is left to do for the one
is what stands there for the other. The phis of a block stay, and the rest of a block becomes what
its instructions become (`Rewriting.phis_eq`, `Rewriting.body_eq`).
-/

namespace BoxFlow

/-! ## What stands where an instruction stood -/

namespace Fates

variable {φ : Fates} {i : InstId}

theorem segment_of_kept (hx : φ i = .kept) : (φ.layout []).segment i = [i] := by
  simp [Layout.segment, layout, hx, Fate.code]

theorem segment_of_gone (hx : φ i ≠ .kept) : (φ.layout []).segment i = (φ i).code := by
  simp [Layout.segment, layout, hx]

end Fates

theorem filter_flatMap_congr {α β : Type} {l : List α} {g : α → List β} {P : α → Bool}
    {Q : β → Bool} (h : ∀ a ∈ l, ∀ b ∈ g a, Q b = P a) :
    (l.flatMap g).filter Q = (l.filter P).flatMap g := by
  induction l with
  | nil => rfl
  | cons a l ih =>
    rw [List.flatMap_cons, List.filter_append, ih fun c hc => h c (List.mem_cons_of_mem _ hc)]
    cases ha : P a with
    | true =>
      rw [List.filter_cons_of_pos ha, List.flatMap_cons, List.filter_eq_self.2]
      exact fun b hb => (h a List.mem_cons_self b hb).trans ha
    | false =>
      rw [List.filter_cons_of_neg (by simp [ha]), List.filter_eq_nil_iff.2, List.nil_append]
      exact fun b hb => by simp [h a List.mem_cons_self b hb, ha]

namespace Rewriting

variable {p : Program} {a : Analysis} {names : Names} {J : InstId → Fate → Prop} {φ : Fates}
  {s : RewriteState} {i j : InstId} {b : BlockId} (h : Rewriting p a names J φ [] s)
include h

theorem isPhi_of_mem_segment (hi : i ∈ p.instructions a.func) (hj : j ∈ (φ.layout []).segment i) :
    (s.program.inst j).op.isPhi = (p.inst i).op.isPhi := by
  by_cases hx : φ i = .kept
  · rw [Fates.segment_of_kept hx, List.mem_singleton] at hj
    rw [hj, h.op_of_kept hi (.inl hx), Form.isPhi_map]
  · rw [Fates.segment_of_gone hx] at hj
    obtain ⟨_, _, hcalls, -⟩ := h.kind_of_mem_code hj
    rw [hcalls.op, Form.isPhi_of_isCall (h.isCall hx)]
    rfl

theorem phis_eq (hb : b ∈ (p.func a.func).blocks) : s.program.phis b = p.phis b := by
  have hphis : s.program.phis b = (p.phis b).flatMap (φ.layout []).segment := by
    rw [Program.phis, h.program.blocks]
    exact filter_flatMap_congr fun i hi j hj =>
      h.isPhi_of_mem_segment (List.mem_flatMap.2 ⟨b, hb, hi⟩) hj
  rw [hphis]
  exact (List.flatMap_congr fun i hi => Fates.segment_of_kept
    (h.kept_of_isPhi (List.mem_filter.1 hi).2)).trans (List.flatMap_singleton' _)

theorem body_eq (hb : b ∈ (p.func a.func).blocks) :
    s.program.body b = (p.body b).flatMap (φ.layout []).segment := by
  rw [Program.body, h.program.blocks]
  exact filter_flatMap_congr fun i hi j hj => congrArg (! ·)
    (h.isPhi_of_mem_segment (List.mem_flatMap.2 ⟨b, hb, hi⟩) hj)

end Rewriting

/-! ## Machines that agree -/

/-- No operand is the result of an `add` or a `subtract`. -/
def Program.IgnoresArithmetic (p : Program) (o : Options) (f : FuncId) : Prop :=
  ∀ i ∈ p.instructions f, ∀ j, .inst j ∈ (p.inst i).op.operands →
    ∀ callee ∈ (p.inst j).op.callee?,
      o.kindOf callee ≠ .operation .add ∧ o.kindOf callee ≠ .operation .subtract

instance (p : Program) (o : Options) (f : FuncId) : Decidable (p.IgnoresArithmetic o f) :=
  decidable_of_iff (∀ i ∈ p.instructions f, ∀ v ∈ (p.inst i).op.operands, ∀ op ∈ p.op? v,
      ∀ callee ∈ op.callee?,
        o.kindOf callee ≠ .operation .add ∧ o.kindOf callee ≠ .operation .subtract)
    ⟨fun h i hi j hj => h i hi _ hj _ rfl, fun h i hi v hv op hop => by
      cases v with
      | inst j => cases hop; exact h i hi j hv
      | _ => cases hop⟩

/-- Every operand that is a result is the result of some instruction. -/
def Program.Grounded (p : Program) (f : FuncId) : Prop :=
  ∀ i ∈ p.instructions f, ∀ j, .inst j ∈ (p.inst i).op.operands → j < p.insts.size

namespace Machine

variable {p q : Program} {o : Options} {f : FuncId} {φ : Fates} {m n : Machine} {w : World}
  {i r : InstId} {x : Datum}

/-- The machines have done the same, and have the same results of all instructions that are kept. -/
structure Agrees (p : Program) (φ : Fates) (m n : Machine) : Prop where
  block : n.block = m.block
  heap : n.heap = m.heap
  trace : n.trace = m.trace
  result : n.result = m.result
  env : ∀ {i}, i < p.insts.size → φ i = .kept → n.env i = m.env i

/-- They have the same to do, too. -/
structure Mirrors (p : Program) (φ : Fates) (m n : Machine) : Prop extends Agrees p φ m n where
  rest : n.rest = m.rest.flatMap (φ.layout []).segment

theorem Mirrors.rest_of_kept {rest : List InstId} (h : Mirrors p φ m n) (hx : φ i = .kept)
    (hrest : m.rest = i :: rest) : n.rest = i :: rest.flatMap (φ.layout []).segment := by
  rw [h.rest, hrest, List.flatMap_cons, Fates.segment_of_kept hx]
  rfl

theorem Mirrors.rest_of_gone {rest : List InstId} (h : Mirrors p φ m n) (hx : φ i ≠ .kept)
    (hrest : m.rest = i :: rest) :
    n.rest = (φ i).code ++ rest.flatMap (φ.layout []).segment := by
  rw [h.rest, hrest, List.flatMap_cons, Fates.segment_of_gone hx]

namespace Agrees

theorem assign (h : Agrees p φ m n) (i : InstId) (x : Datum) :
    Agrees p φ (m.assign i x) (n.assign i x) where
  block := h.block
  heap := h.heap
  trace := h.trace
  result := h.result
  env {j} hj hx := by
    show Function.update n.env i (some x) j = Function.update m.env i (some x) j
    by_cases hji : j = i
    · rw [hji, Function.update_self, Function.update_self]
    · rw [Function.update_of_ne hji, Function.update_of_ne hji]
      exact h.env hj hx

/-- Results that are not kept do not matter. -/
theorem assign_left (h : Agrees p φ m n) (hi : φ i ≠ .kept) (x : Datum) :
    Agrees p φ (m.assign i x) n where
  block := h.block
  heap := h.heap
  trace := h.trace
  result := h.result
  env {j} hj hx := by
    have hji : j ≠ i := by
      rintro rfl
      exact hi hx
    exact (h.env hj hx).trans (Function.update_of_ne hji ..).symm

/-- Nor do results of instructions that are new. -/
theorem assign_right (h : Agrees p φ m n) (hr : p.insts.size ≤ r) (x : Datum) :
    Agrees p φ m (n.assign r x) where
  block := h.block
  heap := h.heap
  trace := h.trace
  result := h.result
  env {j} hj hx := by
    have hjr : j ≠ r := Nat.ne_of_lt (Nat.lt_of_lt_of_le hj hr)
    exact (Function.update_of_ne hjr ..).trans (h.env hj hx)

theorem touch (h : Agrees p φ m n) (heap : Heap) (trace : List Event)
    (setter setter' : Nat → Option InstId) :
    Agrees p φ { m with heap, trace, setter } { n with heap, trace, setter := setter' } where
  block := h.block
  heap := rfl
  trace := rfl
  result := h.result
  env := h.env

theorem perform (h : Agrees p φ m n) (i : InstId) (act : Action) :
    Agrees p φ (m.perform w i act) (n.perform w i act) := by
  cases act with
  | yield x => exact h.assign i x
  | fill c x =>
    simp only [Machine.perform, h.heap]
    exact ⟨h.block, rfl, h.trace, h.result, h.env⟩
  | alloc | create | set | report | leave =>
    simp only [Machine.perform, h.heap, h.trace]
    exact (h.touch _ _ _ _).assign i _

/-- A call that goes and a new one set one object to one value. -/
theorem set (h : Agrees p φ m n) (hi : φ i ≠ .kept) (hr : p.insts.size ≤ r) (g : Nat)
    (k x y : BitVec 64) :
    Agrees p φ (m.perform w i (.set g k x)) (n.perform w r (.set g k y)) := by
  simp only [Machine.perform, h.heap]
  refine Agrees.assign_right (Agrees.assign_left ?_ hi _) hr _
  exact ⟨h.block, rfl, h.trace, h.result, h.env⟩

/-- What is to be done next is not among what has been done. -/
theorem mirrors (h : Agrees p φ m n) (rest : List InstId) :
    Mirrors p φ { m with rest } { n with rest := rest.flatMap (φ.layout []).segment } :=
  ⟨⟨h.block, h.heap, h.trace, h.result, h.env⟩, rfl⟩

end Agrees

/-! ## Calls that are put in -/

theorem action_write {handle v : Value} {g : Nat} {k y : BitVec 64}
    (hop : (p.inst r).op = .call (o.names.nameOf .write) [handle, v])
    (hhandle : m.eval w handle = some (.handle g)) (hv : m.eval w v = some (.int k))
    (hg : m.heap.objects[g]? = some y) : ∃ x, m.action o w (p.inst r).op = some (.set g k x) := by
  rw [hop]
  exact ⟨_, (action_operation (o.kindOf_nameOf .write)).2
    ⟨[.handle g, .int k], by simp [hhandle, hv], .write hg⟩⟩

theorem action_read {handle : Value} {g : Nat} {y : BitVec 64}
    (hop : (p.inst r).op = .call (o.names.nameOf .read) [handle])
    (hhandle : m.eval w handle = some (.handle g)) (hg : m.heap.objects[g]? = some y) :
    m.action o w (p.inst r).op = some (.yield (.int y)) := by
  rw [hop]
  exact (action_operation (o.kindOf_nameOf .read)).2 ⟨[.handle g], by simp [hhandle], .read hg⟩

end Machine

end BoxFlow
