import BoxFlow.Loading
import BoxFlow.Proofs.IR.Verify

/-!
# What the checks ask for

`Program.WellFormed` is what the structural checks ask of a function (`Program.verify_eq_nil_iff`),
and `Inst.FitsArity` what the check of the operations asks of an instruction.
-/

namespace BoxFlow

/-! ## Functions -/

namespace Program

variable {p : Program} {f : FuncId} {b : BlockId} {i : InstId}

/-- The rules for a function. -/
structure WellFormed (p : Program) (f : FuncId) : Prop where
  entry : ∃ e, p.entry? f = some e ∧ (p.block e).predecessors = []
  terminated : ∀ b ∈ (p.func f).blocks, (p.terminator? b).isSome = true
  leading : ∀ b ∈ (p.func f).blocks, ∀ i ∈ p.phis b,
    i ∈ (p.block b).insts.take (p.phis b).length
  sources : ∀ b ∈ (p.func f).blocks, ∀ i ∈ p.phis b,
    sameMembers (p.inst i).op.blocks (p.predecessorBlocks b) = true
  last : ∀ b ∈ (p.func f).blocks, ∀ i ∈ (p.block b).insts, (p.inst i).op.isTerminator = true →
    (p.block b).insts.getLast? = some i
  owned : ∀ i ∈ p.instructions f, ∀ j, .inst j ∈ (p.inst i).op.operands → j ∈ p.instructions f

theorem phiProblems_eq_nil_iff : p.phiProblems f b i = [] ↔
    i ∈ (p.block b).insts.take (p.phis b).length ∧
      sameMembers (p.inst i).op.blocks (p.predecessorBlocks b) = true := by
  rw [phiProblems, List.append_eq_nil_iff]
  simp

theorem instProblems_eq_nil_iff {owned : List InstId} : p.instProblems f owned b i = [] ↔
    ((p.inst i).op.isTerminator = true → (p.block b).insts.getLast? = some i) ∧
      ∀ j, .inst j ∈ (p.inst i).op.operands → j ∈ owned := by
  rw [instProblems, List.append_eq_nil_iff, List.filterMap_eq_nil_iff]
  apply and_congr
  · simp
  · constructor
    · intro h j hj
      have hnone := h _ hj
      dsimp only at hnone
      split at hnone
      · assumption
      · cases hnone
    · intro h v hv
      cases v with
      | inst j => simp [h j hv]
      | _ => rfl

theorem verify_eq_nil_iff : p.verify f = [] ↔ p.WellFormed f := by
  have hblock {b : BlockId} : p.blockProblems f (p.instructions f) b = [] ↔
      (p.terminator? b).isSome = true ∧ (∀ i ∈ p.phis b, p.phiProblems f b i = []) ∧
        ∀ i ∈ (p.block b).insts, p.instProblems f (p.instructions f) b i = [] := by
    rw [blockProblems, List.append_eq_nil_iff, List.append_eq_nil_iff, List.flatMap_eq_nil_iff,
      List.flatMap_eq_nil_iff, and_assoc]
    simp [Option.isSome_iff_ne_none]
  constructor
  · intro h
    obtain ⟨e, he⟩ : ∃ e, p.entry? f = some e := by
      cases he : p.entry? f with
      | none =>
        rw [verify, he] at h
        cases h
      | some e => exact ⟨e, rfl⟩
    have hb {b : BlockId} (hb : b ∈ (p.func f).blocks) := hblock.1 (blockProblems_of_verify h hb)
    refine ⟨⟨e, he, (predecessors_entry h he).2⟩, fun b hmem => (hb hmem).1,
      fun b hmem i hi => (phiProblems_eq_nil_iff.1 ((hb hmem).2.1 i hi)).1,
      fun b hmem i hi => (phiProblems_eq_nil_iff.1 ((hb hmem).2.1 i hi)).2,
      fun b hmem i hi => (instProblems_eq_nil_iff.1 ((hb hmem).2.2 i hi)).1, ?_⟩
    intro i hi
    obtain ⟨b, hmem, hib⟩ := List.mem_flatMap.1 hi
    exact (instProblems_eq_nil_iff.1 ((hb hmem).2.2 i hib)).2
  · intro h
    obtain ⟨e, he, hpred⟩ := h.entry
    rw [verify, he]
    dsimp only
    rw [if_pos (List.isEmpty_iff.2 hpred), List.nil_append, List.flatMap_eq_nil_iff]
    intro b hb
    refine hblock.2 ⟨h.terminated b hb, fun i hi => ?_, fun i hi => ?_⟩
    · exact phiProblems_eq_nil_iff.2 ⟨h.leading b hb i hi, h.sources b hb i hi⟩
    · exact instProblems_eq_nil_iff.2 ⟨h.last b hb i hi,
        h.owned i (List.mem_flatMap.2 ⟨b, hb, hi⟩)⟩

end Program

/-! ## Calls of operations -/

/-- An operation has the arguments it takes, and a `create` has a result. -/
def Inst.FitsArity (o : Options) (inst : Inst) : Prop :=
  ∀ callee args op, inst.op = .call callee args → o.kindOf callee = .operation op →
    args.length = op.arity ∧ (op = .create → inst.hasResult = true)

theorem Program.callProblems_eq_nil_iff {p : Program} {o : Options} {f : FuncId} {i : InstId} :
    p.callProblems o f i = [] ↔ (p.inst i).FitsArity o := by
  unfold callProblems Inst.FitsArity
  dsimp only
  split
  · next callee args hop =>
    split
    · next op hkind =>
      rw [List.append_eq_nil_iff, hop]
      constructor
      · rintro ⟨hlength, hresult⟩ callee' args' op' hcall hkind'
        obtain ⟨rfl, rfl⟩ := Form.call.inj hcall
        obtain rfl := CallKind.operation.inj (hkind.symm.trans hkind')
        refine ⟨by simpa using hlength, ?_⟩
        rintro rfl
        simpa using hresult
      · intro h
        obtain ⟨hlength, hresult⟩ := h _ _ _ rfl hkind
        refine ⟨by simpa using hlength, ?_⟩
        simpa using hresult
    · next hkind =>
      refine iff_of_true rfl fun callee' args' op' hcall hkind' => ?_
      rw [hop] at hcall
      obtain ⟨rfl, rfl⟩ := Form.call.inj hcall
      exact absurd hkind' (hkind op')
  · next hop => exact iff_of_true rfl fun callee args _ hcall => absurd hcall (hop callee args)

end BoxFlow
