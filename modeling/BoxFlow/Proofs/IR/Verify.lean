import BoxFlow.IR.Verify
import BoxFlow.Proofs.IR.Linked

/-!
# What the structural checks establish

For a function without problems: every block passes its checks (`blockProblems_of_verify`), the
phis of a block come first (`insts_eq_phis_append`) and take their values from its predecessors
(`sources_subset`), and control enters the function at a block without any (`predecessors_entry`).
-/

namespace BoxFlow

/-- The blocks that a phi takes values from. -/
def Form.sources {V B : Type} : Form V B → List B
  | .phi incoming => incoming.map (·.2)
  | _ => []

namespace Program

variable {p : Program} {f : FuncId} {b d : BlockId} {i : InstId}

theorem blockProblems_of_verify (hv : p.verify f = []) (hb : b ∈ (p.func f).blocks) :
    p.blockProblems f (p.instructions f) b = [] := by
  unfold verify at hv
  split at hv
  · cases hv
  · exact List.flatMap_eq_nil_iff.1 (List.append_eq_nil_iff.1 hv).2 b hb

theorem phiProblems_of_verify (hv : p.verify f = []) (hb : b ∈ (p.func f).blocks)
    (hi : i ∈ p.phis b) : p.phiProblems f b i = [] := by
  have h := blockProblems_of_verify hv hb
  rw [blockProblems, List.append_eq_nil_iff, List.append_eq_nil_iff] at h
  exact List.flatMap_eq_nil_iff.1 h.1.2 i hi

theorem sameMembers_iff {xs ys : List BlockId} :
    sameMembers xs ys = true ↔ ∀ d, d ∈ xs ↔ d ∈ ys := by
  simp only [sameMembers, Bool.and_eq_true, List.all_eq_true, decide_eq_true_eq]
  exact ⟨fun h d => ⟨h.1 d, h.2 d⟩, fun h => ⟨fun d => (h d).1, fun d => (h d).2⟩⟩

theorem mem_sameMembers {xs ys : List BlockId} (h : sameMembers xs ys = true) :
    d ∈ xs ↔ d ∈ ys :=
  sameMembers_iff.1 h d

/-- A phi takes values from no block but the predecessors. -/
theorem sources_subset (hv : p.verify f = []) (hb : b ∈ (p.func f).blocks)
    (hi : i ∈ (p.block b).insts) : (p.inst i).op.sources ⊆ p.predecessorBlocks b := by
  cases hop : (p.inst i).op with
  | phi incoming =>
    have h := phiProblems_of_verify hv hb (List.mem_filter.2 ⟨hi, by rw [hop]; rfl⟩)
    rw [phiProblems, List.append_eq_nil_iff] at h
    obtain ⟨-, h⟩ := h
    split at h
    · next hsame =>
      rw [hop] at hsame
      exact fun d hd => (mem_sameMembers hsame).1 hd
    · cases h
  | _ => exact List.nil_subset _

theorem instProblems_of_verify (hv : p.verify f = []) (hb : b ∈ (p.func f).blocks)
    (hi : i ∈ (p.block b).insts) : p.instProblems f (p.instructions f) b i = [] := by
  have h := blockProblems_of_verify hv hb
  rw [blockProblems, List.append_eq_nil_iff] at h
  exact List.flatMap_eq_nil_iff.1 h.2 i hi

/-- A terminator is the last instruction of its block. -/
theorem getLast?_of_verify (hv : p.verify f = []) (hb : b ∈ (p.func f).blocks)
    (hi : i ∈ (p.block b).insts) (ht : (p.inst i).op.isTerminator = true) :
    (p.block b).insts.getLast? = some i := by
  have h := instProblems_of_verify hv hb hi
  rw [instProblems, List.append_eq_nil_iff, ht] at h
  simpa using h.1

/-- The operands of a function are its own. -/
theorem operand_of_verify (hv : p.verify f = []) (hb : b ∈ (p.func f).blocks)
    (hi : i ∈ (p.block b).insts) {j : InstId} (hj : .inst j ∈ (p.inst i).op.operands) :
    j ∈ p.instructions f := by
  have h := instProblems_of_verify hv hb hi
  rw [instProblems, List.append_eq_nil_iff] at h
  have hnone := List.filterMap_eq_nil_iff.1 h.2 _ hj
  dsimp only at hnone
  split at hnone
  · assumption
  · cases hnone

theorem predecessors_entry (hv : p.verify f = []) (he : p.entry? f = some b) :
    b ∈ (p.func f).blocks ∧ (p.block b).predecessors = [] := by
  refine ⟨List.mem_of_head? he, ?_⟩
  unfold verify at hv
  rw [he] at hv
  dsimp only at hv
  obtain ⟨hv, -⟩ := List.append_eq_nil_iff.1 hv
  split at hv
  · exact List.isEmpty_iff.1 (by assumption)
  · cases hv

/-- The instructions of a block after its phis. -/
def body (p : Program) (b : BlockId) : List InstId :=
  (p.block b).insts.filter fun i => !(p.inst i).op.isPhi

/-- Phis come first if none stands there twice. -/
theorem insts_eq_phis_append_of_nodup (hv : p.verify f = []) (hb : b ∈ (p.func f).blocks)
    (hphis : (p.phis b).Nodup) : (p.block b).insts = p.phis b ++ p.body b := by
  obtain ⟨n, hn⟩ : ∃ n, (p.phis b).length = n := ⟨_, rfl⟩
  have hsplit := List.take_append_drop n (p.block b).insts
  rw [phis, ← hsplit, List.filter_append] at hphis
  have hlead : ∀ i ∈ (p.block b).insts.drop n, (p.inst i).op.isPhi = false := by
    intro i hi
    refine Bool.eq_false_iff.2 fun hphi => ?_
    have hmem : i ∈ p.phis b := List.mem_filter.2 ⟨List.mem_of_mem_drop hi, hphi⟩
    have h := phiProblems_of_verify hv hb hmem
    rw [phiProblems, List.append_eq_nil_iff, hn] at h
    obtain ⟨h, -⟩ := h
    split at h
    · next htake =>
      exact (List.nodup_append.1 hphis).2.2 i (List.mem_filter.2 ⟨htake, hphi⟩) i
        (List.mem_filter.2 ⟨hi, hphi⟩) rfl
    · cases h
  have hdrop : ((p.block b).insts.drop n).filter (fun i => (p.inst i).op.isPhi) = [] :=
    List.filter_eq_nil_iff.2 fun i hi => by simp [hlead i hi]
  have hphis : p.phis b = ((p.block b).insts.take n).filter fun i => (p.inst i).op.isPhi := by
    have : p.phis b = ((p.block b).insts.take n ++ (p.block b).insts.drop n).filter
        fun i => (p.inst i).op.isPhi := by rw [hsplit]; rfl
    rw [this, List.filter_append, hdrop, List.append_nil]
  have htake : ((p.block b).insts.take n).filter (fun i => (p.inst i).op.isPhi) =
      (p.block b).insts.take n := by
    refine List.filter_eq_self.2 (List.length_filter_eq_length_iff.1 ?_)
    rw [← hphis, List.length_take, hn]
    have : n ≤ (p.block b).insts.length := hn ▸ List.length_filter_le ..
    omega
  have hbody : p.body b = (p.block b).insts.drop n := by
    have : p.body b = ((p.block b).insts.take n ++ (p.block b).insts.drop n).filter
        fun i => !(p.inst i).op.isPhi := by rw [hsplit]; rfl
    rw [this, List.filter_append, List.filter_eq_nil_iff.2, List.nil_append]
    · exact List.filter_eq_self.2 fun i hi => by simp [hlead i hi]
    · exact fun i hi => by simpa using List.filter_eq_self.1 htake i hi
  rw [hbody, hphis, htake, hsplit]

/-- Phis come first. -/
theorem insts_eq_phis_append (hp : p.Linked) (hv : p.verify f = []) (hb : b ∈ (p.func f).blocks) :
    (p.block b).insts = p.phis b ++ p.body b :=
  insts_eq_phis_append_of_nodup hv hb (hp.nodup.filter _)

end Program

end BoxFlow
