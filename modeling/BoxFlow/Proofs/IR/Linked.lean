import Mathlib.Data.List.Nodup
import BoxFlow.Proofs.IR.Stores

/-!
# Linked programs

What the two sides of a program record about each other: an edge is known to both its blocks, stays
within a function and belongs to a branch of its source; an instruction knows the only block that
holds it, and a block its function.
-/

namespace BoxFlow

open Program (branchEdges)

/-- The records on both sides agree. -/
structure Program.Linked (p : Program) : Prop where
  succ : ∀ {b e}, e ∈ (p.block b).successors → e.source = b ∧ e ∈ (p.block e.target).predecessors
  pred : ∀ {b e}, e ∈ (p.block b).predecessors → e.target = b ∧ e ∈ (p.block e.source).successors
  within : ∀ {f b e}, b ∈ (p.func f).blocks → e ∈ (p.block b).successors →
    e.target ∈ (p.func f).blocks
  edges : ∀ {f b e}, b ∈ (p.func f).blocks →
    (e ∈ (p.block b).successors ↔ ∃ i ∈ (p.block b).insts, e ∈ branchEdges b (p.inst i).op)
  parent : ∀ {f b}, b ∈ (p.func f).blocks → (p.block b).parent = some f
  held : ∀ {b i}, i ∈ (p.block b).insts → (p.inst i).block = some b
  nodup : ∀ {b}, (p.block b).insts.Nodup
  distinct : ∀ {f}, (p.func f).blocks.Nodup

namespace Program

variable {p q : Program} {b b' : BlockId} {i : InstId} {f : FuncId}

namespace Linked

theorem mem_predecessorBlocks_iff (hp : p.Linked) :
    b ∈ p.predecessorBlocks b' ↔ b' ∈ p.successorBlocks b := by
  simp only [predecessorBlocks, successorBlocks, List.mem_map]
  constructor
  · rintro ⟨e, he, rfl⟩
    obtain ⟨rfl, hs⟩ := hp.pred he
    exact ⟨e, hs, rfl⟩
  · rintro ⟨e, he, rfl⟩
    obtain ⟨rfl, hs⟩ := hp.succ he
    exact ⟨e, hs, rfl⟩

theorem successor_within (hp : p.Linked) (hb : b ∈ (p.func f).blocks)
    (h : b' ∈ p.successorBlocks b) : b' ∈ (p.func f).blocks := by
  obtain ⟨e, he, rfl⟩ := List.mem_map.1 h
  exact hp.within hb he

theorem nodup_instructions (hp : p.Linked) (f : FuncId) : (p.instructions f).Nodup := by
  rw [instructions, List.nodup_flatMap]
  refine ⟨fun b _ => hp.nodup, hp.distinct.imp fun {b d} hbd i hi hi' => hbd ?_⟩
  exact Option.some.inj ((hp.held hi).symm.trans (hp.held hi'))

/-! ## The operations that build a program -/

/-- Names and everything outside the stores do not matter. -/
theorem congr (hp : p.Linked) (hb : ∀ b, q.block b = p.block b) (hi : ∀ i, q.inst i = p.inst i)
    (hf : ∀ f, (q.func f).blocks = (p.func f).blocks) : q.Linked where
  succ := by simp only [hb]; exact hp.succ
  pred := by simp only [hb]; exact hp.pred
  within := by simp only [hb, hf]; exact hp.within
  edges := by simp only [hb, hf, hi]; exact hp.edges
  parent := by simp only [hb, hf]; exact hp.parent
  held := by simp only [hb, hi]; exact hp.held
  nodup := by simp only [hb]; exact hp.nodup
  distinct := by simp only [hf]; exact hp.distinct

theorem empty {name : String} : ({ name } : Program).Linked := by
  constructor <;> simp [block, func, default]

theorem newFunc (hp : p.Linked) (name : String) (result : Ty) (params : List (Ty × String)) :
    (p.newFunc name result params).2.Linked := by
  have hf {b f} (h : b ∈ ((p.newFunc name result params).2.func f).blocks) :
      b ∈ (p.func f).blocks := by
    rw [func_newFunc] at h
    split at h
    · cases h
    · exact h
  refine ⟨hp.succ, hp.pred, fun hb he => ?_, fun hb => hp.edges (hf hb),
    fun hb => hp.parent (hf hb), hp.held, hp.nodup, ?_⟩
  · have h := hp.within (hf hb) he
    rw [func_newFunc]
    split
    · next hsize =>
      subst hsize
      exact absurd (lt_of_mem_blocks h) (Nat.lt_irrefl _)
    · exact h
  · intro f
    rw [func_newFunc]
    split
    · exact List.nodup_nil
    · exact hp.distinct

theorem mem_blocks_addBlock {g : FuncId} (hf : f < p.funcs.size) {hint : String} :
    b ∈ ((p.addBlock f hint).2.func g).blocks ↔
      b ∈ (p.func g).blocks ∨ b = p.blocks.size ∧ g = f := by
  rw [func_addBlock p hf]
  by_cases h : g = f <;> simp [h]

theorem addBlock (hp : p.Linked) (hf : f < p.funcs.size) (hint : String) :
    (p.addBlock f hint).2.Linked := by
  have hinsts (b : BlockId) := (block_addBlock p f hint b).1
  have hsucc (b : BlockId) := (block_addBlock p f hint b).2.1
  have hpred (b : BlockId) := (block_addBlock p f hint b).2.2.1
  have hnil : (p.block p.blocks.size).successors = [] ∧ (p.block p.blocks.size).insts = [] := by
    simp [block, default]
  have hlt {g b} (hb : b ∈ (p.func g).blocks) := Nat.ne_of_lt (lt_of_parent (hp.parent hb))
  exact {
    succ := by simp only [hsucc, hpred]; exact hp.succ
    pred := by simp only [hsucc, hpred]; exact hp.pred
    within := fun {g b e} hb he => by
      rw [hsucc] at he
      rcases (mem_blocks_addBlock hf).1 hb with hb | ⟨rfl, -⟩
      · exact (mem_blocks_addBlock hf).2 (.inl (hp.within hb he))
      · rw [hnil.1] at he; cases he
    edges := fun {g b e} hb => by
      rw [hsucc, hinsts]
      rcases (mem_blocks_addBlock hf).1 hb with hb | ⟨rfl, -⟩
      · exact hp.edges hb
      · simp [hnil]
    parent := fun {g b} hb => by
      rw [(block_addBlock p f hint b).2.2.2]
      rcases (mem_blocks_addBlock hf).1 hb with hb | ⟨rfl, rfl⟩
      · rw [if_neg (hlt hb)]
        exact hp.parent hb
      · exact if_pos rfl
    held := by simp only [hinsts]; exact hp.held
    nodup := by simp only [hinsts]; exact hp.nodup
    distinct := fun {g} => by
      rw [func_addBlock p hf]
      split
      · refine List.nodup_append.2 ⟨hp.distinct, by simp, fun b hb d hd => ?_⟩
        rw [List.mem_singleton.1 hd]
        exact hlt hb
      · exact hp.distinct }

theorem newInst (hp : p.Linked) (new : Inst) : (p.newInst new).2.Linked := by
  have hinst {b i} (h : i ∈ (p.block b).insts) : (p.newInst new).2.inst i = p.inst i := by
    have := lt_of_inst_block (hp.held h)
    rw [inst_newInst, if_neg (Nat.ne_of_lt this)]
  refine ⟨hp.succ, hp.pred, hp.within, fun {f b e} hb => ?_, hp.parent, ?_, hp.nodup, hp.distinct⟩
  · refine (hp.edges hb).trans (exists_congr fun i => and_congr_right fun hi => ?_)
    rw [hinst hi]
  · intro b i hi
    rw [hinst hi]
    exact hp.held hi

/-! An instruction at the end of a block -/

section Append

variable (hp : p.Linked) (hb : b ∈ (p.func f).blocks)

include hp hb in
theorem op_append (j : InstId) : ((p.append b i).inst j).op = (p.inst j).op := by
  rw [inst_append (hp.parent hb)]
  split <;> rfl

variable (ht : ∀ t ∈ (p.inst i).op.blocks, t ∈ (p.func f).blocks)
include hp hb ht

theorem block_append_of_within (d : BlockId) : (p.append b i).block d =
    { p.block d with
      insts := (p.block d).insts ++ if b = d then [i] else []
      successors := (p.block d).successors ++
        (branchEdges b (p.inst i).op).filter fun e => e.source = d
      predecessors := (p.block d).predecessors ++
        (branchEdges b (p.inst i).op).filter fun e => e.target = d } :=
  block_append (hp.parent hb) (fun t h => lt_of_parent (hp.parent (ht t h))) d

theorem mem_successors_append {d : BlockId} {e : Edge} :
    e ∈ ((p.append b i).block d).successors ↔
      e ∈ (p.block d).successors ∨ e ∈ branchEdges b (p.inst i).op ∧ e.source = d := by
  simp [hp.block_append_of_within hb ht]

theorem mem_predecessors_append {d : BlockId} {e : Edge} :
    e ∈ ((p.append b i).block d).predecessors ↔
      e ∈ (p.block d).predecessors ∨ e ∈ branchEdges b (p.inst i).op ∧ e.target = d := by
  simp [hp.block_append_of_within hb ht]

theorem mem_insts_append {d : BlockId} {j : InstId} : j ∈ ((p.append b i).block d).insts ↔
    j ∈ (p.block d).insts ∨ b = d ∧ j = i := by
  rw [hp.block_append_of_within hb ht]
  by_cases h : b = d <;> simp [h]

theorem append (hi : (p.inst i).block = none) (hsize : i < p.insts.size) :
    (p.append b i).Linked := by
  have hparent := hp.parent hb
  have hfunc := blocks_append hparent i
  have hedge {e} (h : e ∈ branchEdges b (p.inst i).op) := source_of_mem_branchEdges h
  have hsucc {d e} := hp.mem_successors_append hb ht (d := d) (e := e)
  have hpred {d e} := hp.mem_predecessors_append hb ht (d := d) (e := e)
  have hmem {d j} := hp.mem_insts_append hb ht (d := d) (j := j)
  have hnew {d} : i ∉ (p.block d).insts := fun hd => by
    have := hp.held hd
    rw [hi] at this
    cases this
  exact {
    succ := fun he => by
      rcases hsucc.1 he with he | ⟨he, hs⟩
      · exact (hp.succ he).imp_right fun h => hpred.2 (.inl h)
      · exact ⟨hs, hpred.2 (.inr ⟨he, rfl⟩)⟩
    pred := fun he => by
      rcases hpred.1 he with he | ⟨he, hs⟩
      · exact (hp.pred he).imp_right fun h => hsucc.2 (.inl h)
      · exact ⟨hs, hsucc.2 (.inr ⟨he, rfl⟩)⟩
    within := fun {g d e} hd he => by
      rw [hfunc] at hd ⊢
      rcases hsucc.1 he with he | ⟨hadded, hs⟩
      · exact hp.within hd he
      · obtain rfl : b = d := (hedge hadded).1.symm.trans hs
        obtain rfl : f = g := Option.some.inj (hparent.symm.trans (hp.parent hd))
        exact ht _ (hedge hadded).2
    edges := fun {g d e} hd => by
      rw [hfunc] at hd
      rw [hsucc, hp.edges hd]
      simp only [hmem, hp.op_append hb]
      constructor
      · rintro (⟨j, hj, he⟩ | ⟨he, hs⟩)
        · exact ⟨j, .inl hj, he⟩
        · obtain rfl : b = d := (hedge he).1.symm.trans hs
          exact ⟨i, .inr ⟨rfl, rfl⟩, he⟩
      · rintro ⟨j, hj | ⟨rfl, rfl⟩, he⟩
        · exact .inl ⟨j, hj, he⟩
        · exact .inr ⟨he, (hedge he).1⟩
    parent := fun {g d} hd => by
      rw [hfunc] at hd
      rw [hp.block_append_of_within hb ht]
      exact hp.parent hd
    held := fun {d j} hj => by
      rw [inst_append hparent]
      rcases hmem.1 hj with hj | ⟨rfl, rfl⟩
      · rw [if_neg fun h => hnew (h.1 ▸ hj)]
        exact hp.held hj
      · rw [if_pos ⟨rfl, hsize⟩]
    nodup := fun {d} => by
      rw [hp.block_append_of_within hb ht]
      dsimp only
      split
      · refine List.nodup_append.2 ⟨hp.nodup, by simp, fun j hj k hk hjk => hnew (d := d) ?_⟩
        rwa [← List.mem_singleton.1 hk, ← hjk]
      · simpa using hp.nodup
    distinct := fun {g} => by
      rw [hfunc]
      exact hp.distinct }

end Append

end Linked

end Program

end BoxFlow
