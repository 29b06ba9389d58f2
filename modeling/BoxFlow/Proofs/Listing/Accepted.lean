import BoxFlow.Proofs.IR.Edges
import BoxFlow.Proofs.IR.WellFormed
import BoxFlow.Proofs.Listing.Resolved

/-!
# Programs that are accepted

`Program.Accepted` is what the later phases rely on: distinct names, operands that are there, and
edges that are those of the terminators. Every function of a loaded module has it
(`Program.load_accepted`).
-/

namespace BoxFlow

open Program (Edged branchEdges)

/-! ## Edges of loaded programs -/

/-- The edges of a block are those of its instructions, in their order, as long as instructions are
only put at the ends of blocks. -/
theorem Listing.Kept.edged :
    Kept fun p => p.Linked ∧ p.Edged fun b => (p.block b).insts where
  congr {p q} h hb hi hf := by
    refine ⟨h.1.congr hb hi hf, ?_⟩
    simp only [hb]
    exact h.2.congr_op (fun b => by rw [hb]) (fun b => by rw [hb]) fun _ i _ => by rw [hi]
  newFunc {p} h name result params :=
    ⟨h.1.newFunc .., h.2.congr_op (fun _ => rfl) (fun _ => rfl) fun _ _ _ => rfl⟩
  addBlock {p f} h hf hint := by
    have hblock (b : BlockId) := Program.block_addBlock p f hint b
    refine ⟨h.1.addBlock hf hint, ?_⟩
    simp only [(hblock _).1]
    exact h.2.congr_op (fun b => (hblock b).2.1) (fun b => (hblock b).2.2.1) fun _ _ _ => rfl
  appendNew {p f b new} h hb hnew ht := by
    refine ⟨Listing.Kept.linked.appendNew h.1 hb hnew ht, ?_⟩
    have hlt := Program.lt_of_parent (h.1.parent hb)
    let q := (p.newInst new).2.modifyBlock b fun blk =>
      { blk with insts := blk.insts ++ [p.insts.size] }
    have hq (d : BlockId) := (p.newInst new).2.edges_modifyInsts b (· ++ [p.insts.size]) d
    have hop : (q.inst p.insts.size).op = new.op := by
      rw [Program.inst_modifyBlock, Program.inst_newInst, if_pos rfl]
    have hedged : q.Edged fun b => (p.block b).insts :=
      (h.2.newInst (fun _ _ hi => Program.lt_of_inst_block (h.1.held hi)) new).congr_op
        (fun d => (hq d).1) (fun d => (hq d).2.1) fun _ _ _ => rfl
    have hadopt := hedged.adopt (i := p.insts.size) ((hq b).2.2.trans (h.1.parent hb)) (by
      rw [hop, Program.size_modifyBlock]
      exact fun t hmem => Program.lt_of_parent (h.1.parent (ht t hmem)))
    have hinsts : (fun d => ((p.appendNew b new).block d).insts) = Function.update
        (fun d => (p.block d).insts) b ((p.block b).insts ++ [p.insts.size]) := by
      funext d
      rw [(Program.block_appendNew hlt new d).2]
      by_cases hd : d = b
      · subst hd
        simp
      · simp [hd, Ne.symm hd]
    rw [hinsts]
    exact hadopt

namespace Program

/-- A value that an instruction of the function can have as an operand. -/
def Owns (p : Program) (f : FuncId) : Value → Prop
  | .literal _ => True
  | .param a => .param a ∈ p.params f
  | .global g => p.globals.lookup g.name = some g
  | .inst j => j ∈ p.instructions f ∧ (p.inst j).ty ≠ .void

/-- What holds of a function that has been read and checked. -/
structure Accepted (p : Program) (f : FuncId) : Prop where
  distinct : (p.localNames f).Nodup
  named : ∀ i ∈ p.instructions f, (p.inst i).name.isSome = (p.inst i).hasResult
  operands : ∀ i ∈ p.instructions f, ∀ v ∈ (p.inst i).op.operands, p.Owns f v
  /-- A block ends in its only terminator, whose edges are those of the block. -/
  terminated : ∀ b ∈ (p.func f).blocks, ∃ t, (p.block b).insts.getLast? = some t ∧
    p.terminators b = [t] ∧ p.InSync b t
  leading : ∀ b ∈ (p.func f).blocks, (p.block b).insts = p.phis b ++ p.body b
  incoming : ∀ b ∈ (p.func f).blocks, ∀ i ∈ p.phis b, ∀ d,
    d ∈ (p.inst i).op.blocks ↔ d ∈ p.predecessorBlocks b
  entry : ∃ e, p.entry? f = some e ∧ (p.block e).predecessors = []

variable {p : Program} {f : FuncId} {b : BlockId}

theorem WellFormed.terminators_eq (h : p.WellFormed f) (hp : p.Linked)
    (hb : b ∈ (p.func f).blocks) :
    ∃ t, (p.block b).insts.getLast? = some t ∧ p.terminators b = [t] := by
  obtain ⟨t, ht⟩ := Option.isSome_iff_exists.1 (h.terminated b hb)
  obtain ⟨hlast, hterm⟩ := Option.filter_eq_some_iff.1 ht
  refine ⟨t, hlast, ?_⟩
  have hmem : t ∈ p.terminators b := List.mem_filter.2 ⟨List.mem_of_getLast? hlast, hterm⟩
  have hall : ∀ i ∈ p.terminators b, i = t := by
    intro i hi
    obtain ⟨hi, hit⟩ := List.mem_filter.1 hi
    exact Option.some.inj ((h.last b hb i hi hit).symm.trans hlast)
  exact ((eq_nil_or_singleton (hp.nodup.filter _) hall).resolve_left fun h => h.1 hmem).2

/-- What an operand stands for is there. -/
theorem Stands.owns {t : Listing.Typed} {v : Value} (h : p.Stands f t v)
    (hglobals : ∀ g ∈ p.globals, g.2.name = g.1) (hnodup : (p.globals.map (·.1)).Nodup)
    (hnamed : ∀ i ∈ p.instructions f, (p.inst i).name.isSome = (p.inst i).hasResult) :
    p.Owns f v := by
  cases h with
  | integer => trivial
  | global ty hg =>
    have hname := hglobals _ hg
    dsimp only at hname
    subst hname
    exact Keyed.lookup_of_mem hnodup hg
  | param ty ha => exact ha
  | inst ty hi hn =>
    have hty := hnamed _ hi
    rw [hn, Option.isSome_some, Inst.hasResult, eq_comm, decide_eq_true_iff] at hty
    exact ⟨hi, hty⟩

/-- Every function of a module that loads is as it has to be. -/
theorem load_accepted {s : List Char} {file name : String} {o : Options}
    (h : load s file o name = .ok p) : ∀ f ∈ p.moduleFuncs, p.Accepted f := by
  intro f hf
  obtain ⟨⟨name, items, hp⟩, hverify, -⟩ := load_eq_ok h
  have hlisted := Listing.toProgram_listed hp
  have houtlined := Listing.outlined name items
  have hwf := verify_eq_nil_iff.1 (hverify f hf)
  obtain ⟨hlinked, hedged⟩ := Listing.toProgram_of_kept .edged hp ⟨.empty, .empty⟩
  obtain ⟨x, hx, rfl⟩ := List.mem_map.1 hf
  obtain ⟨fn, -, -, -, hreal⟩ := exists_right_of_mem hlisted.realized hx
  have hnamed : ∀ i ∈ p.instructions x.2, (p.inst i).name.isSome = (p.inst i).hasResult := by
    intro i hi
    obtain ⟨l, -, hl⟩ := hreal.isLine hi
    exact hl.hasResult
  refine ⟨hreal.nodup, hnamed, fun i hi v hv => ?_, fun b hb => ?_,
    fun b hb => insts_eq_phis_append hlinked (hverify _ hf) hb,
    fun b hb i hi d => mem_sameMembers (hwf.sources b hb i hi), hwf.entry⟩
  · obtain ⟨l, -, hl⟩ := hreal.isLine hi
    obtain ⟨form, -, -, hrel⟩ := hl.form
    obtain ⟨t, -, hstands⟩ := exists_left_of_mem hrel.operands hv
    exact hstands.owns (hlisted.globals ▸ houtlined.globals)
      (hlisted.globals ▸ houtlined.globals_nodup) hnamed
  · obtain ⟨t, hlast, hone⟩ := hwf.terminators_eq hlinked hb
    exact ⟨t, hlast, hone, hedged.filter.inSync hone⟩

/-- A result without a name, a global, and a phi that takes a value from further down. -/
def counterText : String :=
  "@c=global i64 define void @f(i64 %n)\x7be:call i64 @g(i64 %n,ptr @c)br label %h " ++
  "h:%b=phi i64[%n,%e],[%d,%h]%d=call i64 @g(i64 %b)br i1 1,label %h,label %x x:ret void\x7d"

theorem load_accepted_counter :
    ∃ p, load counterText.toList = .ok p ∧ p.moduleFuncs = [0] ∧ p.Accepted 0 := by
  obtain ⟨p, hload, -, hfuncs⟩ := exists_load (s := counterText.toList)
    (P := fun p => p.moduleFuncs = [0]) (by decide +kernel)
  exact ⟨p, hload, hfuncs, load_accepted hload 0 (hfuncs ▸ List.mem_singleton_self 0)⟩

end Program

end BoxFlow
