import BoxFlow.Proofs.IR.Construction
import BoxFlow.Proofs.Lists

/-!
# Names are given once

While functions are built, each name of a parameter, a block or a result is given once, even if what
it was given to is gone (`BuildStep.names_given_once`). `Program.namesInUse` are the names that show
in a function, `BuildStep.given` is the record of all that have been given. Along the way
instructions and blocks are where they know to be (`Program.Housed`).
-/

namespace BoxFlow

namespace Program

/-- The names that are in use in a function: of its parameters, of its blocks and of the results of
its instructions. -/
def namesInUse (p : Program) (f : FuncId) : List String :=
  (p.func f).params.map (·.2) ++ (p.func f).blocks.map (fun b => (p.block b).label) ++
    (p.instructions f).filterMap fun i => (p.inst i).name

variable {p q r : Program} {f : FuncId} {b : BlockId} {l : List InstId}

/-- No more names are in use in a function than before, but for those of the instructions in `l`, if
no other instructions have come into it. -/
theorem namesInUse_subperm (hfunc : q.func f = { p.func f with names := (q.func f).names })
    (hlabel : ∀ b ∈ (p.func f).blocks, (q.block b).label = (p.block b).label)
    (hname : ∀ i ∈ p.instructions f, (q.inst i).name = (p.inst i).name)
    (hinsts : (q.instructions f).Subperm (p.instructions f ++ l)) :
    (q.namesInUse f).Subperm (p.namesInUse f ++ l.filterMap fun i => (q.inst i).name) := by
  have hparams : (q.func f).params = (p.func f).params := by rw [hfunc]
  have hblocks : (q.func f).blocks = (p.func f).blocks := by rw [hfunc]
  unfold namesInUse
  rw [hparams, hblocks, List.map_congr_left hlabel, List.append_assoc (_ ++ _)]
  apply (List.subperm_append_left _).2
  obtain ⟨is, hperm, hsub⟩ := hinsts
  have hsub := hsub.filterMap fun i => (q.inst i).name
  rw [List.filterMap_append, List.filterMap_congr hname] at hsub
  exact ⟨_, hperm.filterMap _, hsub⟩

/-- One block has gained no more instructions than those in `l`. -/
theorem instructions_subperm (hblocks : (q.func f).blocks = (p.func f).blocks)
    (hdistinct : (p.func f).blocks.Nodup)
    (hothers : ∀ d ≠ b, (q.block d).insts = (p.block d).insts)
    (hb : (q.block b).insts.Subperm ((p.block b).insts ++ l)) :
    (q.instructions f).Subperm (p.instructions f ++ l) := by
  unfold instructions
  rw [hblocks]
  exact subperm_flatMap hdistinct hothers hb

theorem label_remove? {i : InstId} (h : p.remove? b i = some q) (d : BlockId) :
    (q.block d).label = (p.block d).label := by
  have hlabel : (((p.modifyBlock b fun blk => { blk with insts := blk.insts.erase i }).modifyInst i
      fun inst => { inst with block := none }).block d).label = (p.block d).label := by
    rw [block_modifyInst, block_modifyBlock]
    split <;> rfl
  unfold remove? at h
  split at h
  · cases h
    split
    · rw [block_unlink]
      exact hlabel
    · exact hlabel
  · cases h

/-! ## Instructions put in -/

/-- `q` is `p` with a new instruction, in block `b` or, if its place was not there, in none. -/
structure PutIn (p q : Program) (b : BlockId) (new : Inst) : Prop where
  old : ∀ {i}, i ≠ p.insts.size → q.inst i = p.inst i
  new : (q.inst p.insts.size).shown = new.shown
  label : ∀ d, (q.block d).label = (p.block d).label
  parent : ∀ d, (q.block d).parent = (p.block d).parent
  others : ∀ d ≠ b, (q.block d).insts = (p.block d).insts
  place : (q.inst p.insts.size).block = none ∧ (q.block b).insts = (p.block b).insts ∨
    (q.inst p.insts.size).block = some b ∧
      (q.block b).insts.Perm (p.insts.size :: (p.block b).insts)

theorem putNew_spec {place : Place} (new : Inst)
    (hparent : (p.block place.block).parent = some f) (hnew : new.block = none)
    (htargets : ∀ t ∈ new.op.blocks, t < p.blocks.size) :
    p.SameItems (BuildStep.putNew p place new) f ∧
      p.PutIn (BuildStep.putNew p place new) place.block new := by
  have hin : (p.newInst new).2.inst p.insts.size = new := by rw [inst_newInst, if_pos rfl]
  have hold {i : InstId} (hi : i ≠ p.insts.size) : (p.newInst new).2.inst i = p.inst i := by
    rw [inst_newInst, if_neg hi]
  obtain heq | ⟨g, hg, heq⟩ := BuildStep.putNew_cases p place new
  · rw [heq]
    refine ⟨.of_func rfl rfl rfl rfl fun _ => rfl, hold, congrArg _ hin, fun _ => rfl, fun _ => rfl,
      fun _ _ => rfl, .inl ⟨by rw [hin, hnew], rfl⟩⟩
  · rw [heq]
    let r := (p.newInst new).2.modifyBlock place.block fun blk => { blk with insts := g blk.insts }
    have hr (d : BlockId) : (r.block d).label = (p.block d).label ∧
        (r.block d).parent = (p.block d).parent := by
      rw [block_modifyBlock]
      split <;> exact ⟨rfl, rfl⟩
    have hrparent : (r.block place.block).parent = some f := (hr _).2.trans hparent
    have hrtargets : ∀ t ∈ (r.inst p.insts.size).op.blocks, t < r.blocks.size := by
      intro t ht
      rw [inst_modifyBlock, hin] at ht
      rw [size_modifyBlock]
      exact htargets t ht
    have hlooks := LooksLike.adopt r place.block p.insts.size
    have hinsts := BuildStep.Sited.insts_adopt (p := (p.newInst new).2) (lt_of_parent hparent)
      p.insts.size g
    have hlt : p.insts.size < r.insts.size := by simp [r, modifyBlock, newInst]
    refine ⟨(SameItems.adopt hrparent _).congr rfl rfl rfl rfl fun _ => rfl, fun hi => ?_, ?_,
      fun d => ?_, fun d => ?_, fun d hd => ?_, .inr ⟨?_, ?_⟩⟩
    · rw [inst_adopt hrparent, if_neg fun h => hi h.1.symm]
      exact hold hi
    · rw [hlooks.inst]
      exact congrArg _ hin
    · exact (Block.of_shown (hlooks.block d)).1.trans (hr d).1
    · rw [block_adopt hrparent hrtargets]
      exact (hr d).2
    · rw [hinsts, if_neg hd]
      rfl
    · rw [inst_adopt hrparent, if_pos ⟨rfl, hlt⟩]
    · rw [hinsts, if_pos rfl]
      exact hg

/-- Instructions and blocks are where they know to be, and results have names, but nothing else
has. -/
structure Housed (p : Program) : Prop where
  mem : ∀ {i b}, (p.inst i).block = some b → i ∈ (p.block b).insts
  blocks : ∀ {f b}, b ∈ (p.func f).blocks ↔ (p.block b).parent = some f
  distinct : ∀ f, (p.func f).blocks.Nodup
  named : ∀ i, (p.inst i).name.isSome = (p.inst i).hasResult

namespace Housed

theorem empty {name : String} : Housed { name } := by
  constructor <;> simp [inst, block, func, Inst.hasResult, default]

variable (h : p.Housed)
include h

theorem newFunc (name : String) (result : Ty) (params : List (Ty × String)) (attach : Bool) :
    (p.newFunc name result params attach).2.Housed where
  mem := h.mem
  blocks {f b} := by
    rw [func_newFunc]
    split
    · next hf =>
      subst hf
      refine iff_of_false List.not_mem_nil fun hparent => ?_
      exact Nat.lt_irrefl _ (lt_of_mem_blocks (h.blocks.2 hparent))
    · exact h.blocks
  distinct f := by
    rw [func_newFunc]
    split
    · exact List.nodup_nil
    · exact h.distinct f
  named := h.named

/-- A new block is in no function yet. -/
theorem size_not_mem (f : FuncId) : p.blocks.size ∉ (p.func f).blocks :=
  fun hb => Nat.lt_irrefl _ (lt_of_parent (h.blocks.1 hb))

theorem addBlock (hf : f < p.funcs.size) (hint : String) : (p.addBlock f hint).2.Housed where
  mem {i b} hi := by
    rw [(block_addBlock p f hint b).1]
    exact h.mem hi
  blocks {f' b} := by
    rw [func_addBlock p hf, (block_addBlock p f hint b).2.2.2]
    by_cases hb : b = p.blocks.size
    · subst hb
      have hnot := h.size_not_mem f'
      rw [if_pos rfl]
      split
      · next heq => simp [heq]
      · next hne => simp [hnot, Ne.symm hne]
    · rw [if_neg hb, ← h.blocks]
      split
      · simp [hb]
      · exact Iff.rfl
  distinct f' := by
    rw [func_addBlock p hf]
    split
    · exact (h.distinct f').append (List.nodup_singleton _)
        (List.disjoint_singleton.2 (h.size_not_mem f'))
    · exact h.distinct f'
  named := h.named

theorem putIn {new : Inst} (hitems : p.SameItems q f) (hput : p.PutIn q b new)
    (hnamed : new.name.isSome = new.hasResult) : q.Housed where
  mem {i d} hi := by
    by_cases hnew : i = p.insts.size
    · subst hnew
      obtain ⟨hnone, -⟩ | ⟨hblock, hperm⟩ := hput.place
      · rw [hnone] at hi
        cases hi
      · obtain rfl := Option.some.inj (hblock.symm.trans hi)
        exact hperm.mem_iff.2 List.mem_cons_self
    · rw [hput.old hnew] at hi
      by_cases hd : d = b
      · subst hd
        obtain ⟨-, hsame⟩ | ⟨-, hperm⟩ := hput.place
        · rw [hsame]
          exact h.mem hi
        · exact hperm.mem_iff.2 (List.mem_cons_of_mem _ (h.mem hi))
      · rw [hput.others d hd]
        exact h.mem hi
  blocks := by
    intro g d
    rw [hitems.func, hput.parent]
    exact h.blocks
  distinct g := by
    rw [hitems.func]
    exact h.distinct g
  named i := by
    by_cases hnew : i = p.insts.size
    · subst hnew
      obtain ⟨-, hty, hname⟩ := Inst.of_shown hput.new
      rw [hname, hnamed, Inst.hasResult, Inst.hasResult, hty]
    · rw [hput.old hnew]
      exact h.named i

theorem removed {i : InstId} (hremove : p.remove? b i = some q) (hr : p.Removed q b i) :
    q.Housed where
  mem {j d} hj := by
    rw [hr.inst] at hj
    split at hj
    · cases hj
    · next hne =>
      rw [hr.insts]
      split
      · next hd =>
        subst hd
        exact (List.mem_erase_of_ne hne).2 (h.mem hj)
      · exact h.mem hj
  blocks := by
    intro g d
    rw [(SameItems.remove? (f := g) hremove).func, hr.parent]
    exact h.blocks
  distinct g := by
    rw [(SameItems.remove? (f := g) hremove).func]
    exact h.distinct g
  named j := by
    rw [hr.inst]
    split
    · exact h.named j
    · exact h.named j

end Housed

/-! ## Names given -/

/-- From `p` to `q` the names in `new` have been given in function `f`. -/
structure Gives (p q : Program) (f : FuncId) (new : List String) : Prop where
  nodup : new.Nodup
  fresh : ∀ n ∈ new, n ∉ (p.func f).names
  kept : (p.func f).names ⊆ (q.func f).names
  claimed : new ⊆ (q.func f).names
  inUse : (q.namesInUse f).Subperm (p.namesInUse f ++ new)

/-- `log` is a record of the names that have been given in function `f`. -/
structure Recorded (p : Program) (f : FuncId) (log : List String) : Prop where
  nodup : log.Nodup
  claimed : log ⊆ (p.func f).names
  inUse : (p.namesInUse f).Subperm log

theorem Recorded.gives {log new : List String} (h : p.Recorded f log) (hg : p.Gives q f new) :
    q.Recorded f (log ++ new) where
  nodup := h.nodup.append hg.nodup fun n hn hnew => hg.fresh n hnew (h.claimed hn)
  claimed := List.append_subset.2 ⟨List.Subset.trans h.claimed hg.kept, hg.claimed⟩
  inUse := hg.inUse.trans ((List.subperm_append_right new).2 h.inUse)

theorem SameItems.kept (h : p.SameItems q f) (g : FuncId) :
    (p.func g).names ⊆ (q.func g).names := by
  by_cases hg : g = f
  · subst hg
    exact h.given
  · rw [h.others g hg]
    exact List.Subset.refl _

/-- No name is given where neither the function nor what is in it has grown. -/
theorem Gives.of_same (hfunc : q.func f = { p.func f with names := (q.func f).names })
    (hkept : (p.func f).names ⊆ (q.func f).names)
    (hlabel : ∀ b ∈ (p.func f).blocks, (q.block b).label = (p.block b).label)
    (hname : ∀ i ∈ p.instructions f, (q.inst i).name = (p.inst i).name)
    (hinsts : (q.instructions f).Subperm (p.instructions f)) : p.Gives q f [] where
  nodup := List.nodup_nil
  fresh := nofun
  kept := hkept
  claimed := List.nil_subset _
  inUse := namesInUse_subperm (l := []) hfunc hlabel hname (by rwa [List.append_nil])

/-- No name is given in a function that is left alone. -/
theorem Gives.of_func_eq (hfunc : q.func f = p.func f)
    (hblock : ∀ b ∈ (p.func f).blocks, (q.block b).label = (p.block b).label ∧
      (q.block b).insts = (p.block b).insts)
    (hname : ∀ i ∈ p.instructions f, (q.inst i).name = (p.inst i).name) : p.Gives q f [] := by
  have hinstructions : q.instructions f = p.instructions f := by
    unfold instructions
    rw [hfunc]
    exact List.flatMap_congr fun b hb => (hblock b hb).2
  apply Gives.of_same
  · rw [hfunc]
  · rw [hfunc]
    exact List.Subset.refl _
  · exact fun b hb => (hblock b hb).1
  · exact hname
  · rw [hinstructions]

end Program

namespace BuildStep

open Program (Gives Housed PutIn Recorded SameItems)

/-- The step makes a function whose parameters have different names or a block of a function, or it
puts in an instruction that is named by the builder, or takes one out. -/
def Builds : BuildStep → Prop
  | function _ _ params _ => (params.map (·.2)).Nodup
  | block .. | insert .. | erase _ => True
  | looseBlock _ | put .. => False

instance : ∀ s : BuildStep, Decidable s.Builds
  | function .. => inferInstanceAs (Decidable (List.Nodup _))
  | block .. | insert .. | erase _ => inferInstanceAs (Decidable True)
  | looseBlock _ | put .. => inferInstanceAs (Decidable False)

/-- The names that the step gives in function `f`: those of the parameters of a new function, of a
new block, or of the result of a new instruction, also if its place is not there. -/
def gives (p : Program) (f : FuncId) (s : BuildStep) : List String :=
  match s with
  | function _ _ params _ => if f = p.funcs.size then params.map (·.2) else []
  | block g _ => if f = g then [((s.after p).block p.blocks.size).label] else []
  | insert place .. =>
    if (p.block place.block).parent = some f then ((s.after p).inst p.insts.size).name.toList
    else []
  | _ => []

/-- The names that all the steps give in function `f`, in order. -/
def given (p : Program) (f : FuncId) : List BuildStep → List String
  | [] => []
  | s :: steps => s.gives p f ++ given (s.after p) f steps

variable {p q : Program} {s : BuildStep} {steps : List BuildStep} {f : FuncId}
  {live : BlockId → List InstId}

theorem given_concat :
    given p f (steps ++ [s]) = given p f steps ++ s.gives (run p steps) f := by
  induction steps generalizing p with
  | nil => simp [given, run]
  | cons s' steps ih =>
    rw [List.cons_append, given, given, ih, List.append_assoc]
    rfl

/-! ### One step -/

theorem gives_function (name : String) (result : Ty) {params : List (Ty × String)} (attach : Bool)
    (hparams : (params.map (·.2)).Nodup) : Gives p ((function name result params attach).after p) f
      (if f = p.funcs.size then params.map (·.2) else []) := by
  have hfunc (g : FuncId) : ((function name result params attach).after p).func g =
      if g = p.funcs.size then { name, result, params, names := (params.map (·.2)).reverse }
      else p.func g := Program.func_newFunc_eq p name result params g
  by_cases hf : f = p.funcs.size
  · have hnone : (p.func f).names = [] ∧ (p.func f).params = [] ∧ (p.func f).blocks = [] := by
      rw [hf]
      simp [Program.func, default]
    have hnew := hfunc f
    rw [if_pos hf] at hnew
    rw [if_pos hf]
    refine ⟨hparams, fun n _ => ?_, ?_, ?_, ?_⟩
    · rw [hnone.1]
      exact List.not_mem_nil
    · rw [hnone.1]
      exact List.nil_subset _
    · rw [hnew]
      exact fun n hn => List.mem_reverse.2 hn
    · unfold Program.namesInUse Program.instructions
      rw [hnew, hnone.2.1, hnone.2.2]
      simp [List.Subperm.refl]
  · rw [if_neg hf]
    exact .of_func_eq ((hfunc f).trans (if_neg hf)) (fun _ _ => ⟨rfl, rfl⟩) fun _ _ => rfl

/-- A new block has a name that had not been given, and no instructions. -/
theorem gives_block {g : FuncId} (h : Housed p) (hg : g < p.funcs.size) (hint : String) :
    Gives p ((block g hint).after p) f
      (if f = g then [(((block g hint).after p).block p.blocks.size).label] else []) := by
  have hfunc (f : FuncId) : ((block g hint).after p).func f = if f = g then { p.func g with
      blocks := (p.func g).blocks ++ [p.blocks.size]
      names := Program.firstUnused (p.func g).names hint :: (p.func g).names
      nextNumber := (p.func g).nextNumber + 1 } else p.func f :=
    Program.func_addBlock_eq hg hint f
  have hlabel (b : BlockId) : (((block g hint).after p).block b).label =
      if b = p.blocks.size then Program.firstUnused (p.func g).names hint
      else (p.block b).label := by
    refine (congrArg Block.label (Program.block_addBlock_eq p g hint b)).trans ?_
    split <;> rfl
  have hinsts (b : BlockId) : (((block g hint).after p).block b).insts = (p.block b).insts :=
    (Program.block_addBlock p g hint b).1
  have hlabels : ∀ b ∈ (p.func f).blocks,
      (((block g hint).after p).block b).label = (p.block b).label := by
    intro b hb
    have hne : b ≠ p.blocks.size := fun hsize => h.size_not_mem f (hsize ▸ hb)
    rw [hlabel, if_neg hne]
  by_cases hf : f = g
  · subst hf
    have hnew := hfunc f
    rw [if_pos rfl] at hnew
    rw [if_pos rfl, hlabel, if_pos rfl]
    refine ⟨List.nodup_singleton _, fun n hn => ?_, ?_, ?_, ?_⟩
    · rw [List.mem_singleton.1 hn]
      exact Program.firstUnused_not_mem _ _
    · rw [hnew]
      exact List.subset_cons_self _ _
    · rw [hnew]
      exact fun n hn => List.mem_cons.2 (.inl (List.mem_singleton.1 hn))
    · have hnone : (p.block p.blocks.size).insts = [] := by simp [Program.block, default]
      have hinstructions : ((block f hint).after p).instructions f = p.instructions f := by
        unfold Program.instructions
        rw [hnew, List.flatMap_append, List.flatMap_singleton, hinsts, hnone, List.append_nil]
        exact List.flatMap_congr fun b _ => hinsts b
      unfold Program.namesInUse
      rw [hinstructions, hnew, List.map_append, List.map_congr_left hlabels, List.map_singleton,
        hlabel, if_pos rfl]
      simp only [List.append_assoc]
      apply (List.subperm_append_left _).2
      apply (List.subperm_append_left _).2
      exact List.perm_append_comm.subperm
  · rw [if_neg hf]
    exact .of_func_eq ((hfunc f).trans (if_neg hf)) (fun b hb => ⟨hlabels b hb, hinsts b⟩)
      fun _ _ => rfl

/-- What a builder does: it names the result, if there is one, by a name that had not been given,
and puts the instruction in if its place is there. -/
theorem after_insert_putIn {place : Place} (hf : f < p.funcs.size)
    (hparent : (p.block place.block).parent = some f) {op : Op}
    (htargets : ∀ t ∈ op.blocks, t < p.blocks.size) (ty : Ty) (hint : Option String) :
    ∃ name, SameItems p ((insert place op ty hint).after p) f ∧
      PutIn p ((insert place op ty hint).after p) place.block { op, ty, name } ∧
      name.isSome = (decide (ty ≠ .void)) ∧ ∀ n, name = some n → n ∉ (p.func f).names ∧
        n ∈ (((insert place op ty hint).after p).func f).names := by
  obtain ⟨r, name, hname, heq⟩ := after_insert hparent op ty hint
  rw [heq]
  refine ⟨name, ?_⟩
  cases hname with
  | void hty =>
    obtain ⟨hitems, hput⟩ :=
      Program.putNew_spec { op, ty, name := none } hparent rfl htargets
    exact ⟨hitems, hput, by simp [hty], nofun⟩
  | @fresh n hty hnot =>
    obtain ⟨hitems, hput⟩ := Program.putNew_spec (p := p.claimName f n)
      { op, ty, name := some n } hparent rfl htargets
    have hput : PutIn p _ place.block _ := ⟨hput.old, hput.new, hput.label, hput.parent,
      hput.others, hput.place⟩
    refine ⟨(SameItems.claimName p f n).trans hitems, hput, by simp [hty], fun m hm => ?_⟩
    cases hm
    refine ⟨hnot, hitems.given ?_⟩
    rw [Program.names_claimName hf]
    exact List.mem_cons_self

theorem housed_insert {place : Place} {g : FuncId} (h : Housed p)
    (hparent : (p.block place.block).parent = some g) {op : Op}
    (htargets : ∀ t ∈ op.blocks, t < p.blocks.size) (ty : Ty) (hint : Option String) :
    Housed ((insert place op ty hint).after p) := by
  have hg := Program.lt_of_mem_blocks (h.blocks.2 hparent)
  obtain ⟨name, hitems, hput, hnamed, -⟩ := after_insert_putIn hg hparent htargets ty hint
  exact h.putIn hitems hput hnamed

theorem gives_insert {place : Place} {g : FuncId} (h : Housed p) (hsited : Sited live p)
    (hparent : (p.block place.block).parent = some g) {op : Op}
    (htargets : ∀ t ∈ op.blocks, t < p.blocks.size) (ty : Ty) (hint : Option String) :
    Gives p ((insert place op ty hint).after p) f
      (if (p.block place.block).parent = some f then
        (((insert place op ty hint).after p).inst p.insts.size).name.toList else []) := by
  have hg := Program.lt_of_mem_blocks (h.blocks.2 hparent)
  obtain ⟨name, hitems, hput, -, hname⟩ := after_insert_putIn hg hparent htargets ty hint
  generalize (insert place op ty hint).after p = q at *
  have hold : ∀ i ∈ p.instructions f, (q.inst i).name = (p.inst i).name := by
    intro i hi
    obtain ⟨b, -, hib⟩ := List.mem_flatMap.1 hi
    rw [hput.old (Nat.ne_of_lt (hsited.lt_size hib))]
  have hblocks : (q.func f).blocks = (p.func f).blocks := by rw [hitems.func]
  by_cases hf : f = g
  · subst hf
    obtain ⟨-, -, hnew⟩ := Inst.of_shown hput.new
    rw [if_pos hparent, hnew]
    have hinsts : (q.instructions f).Subperm (p.instructions f ++ [p.insts.size]) := by
      apply Program.instructions_subperm hblocks (h.distinct f) hput.others
      obtain ⟨-, hsame⟩ | ⟨-, hperm⟩ := hput.place
      · rw [hsame]
        exact (List.sublist_append_left _ _).subperm
      · exact (hperm.trans (List.perm_append_singleton _ _).symm).subperm
    have hinUse := Program.namesInUse_subperm (hitems.func f) (fun b _ => hput.label b) hold hinsts
    have hnames : ([p.insts.size].filterMap fun i => (q.inst i).name) = name.toList := by
      rw [List.filterMap_cons, hnew]
      cases name <;> rfl
    rw [hnames] at hinUse
    refine ⟨?_, fun n hn => ?_, hitems.given, fun n hn => ?_, hinUse⟩
    · cases name with
      | none => exact List.nodup_nil
      | some n => exact List.nodup_singleton n
    · exact (hname n (Option.mem_toList.1 hn)).1
    · exact (hname n (Option.mem_toList.1 hn)).2
  · have hne : ¬(p.block place.block).parent = some f := by
      rw [hparent]
      exact fun heq => hf (Option.some.inj heq).symm
    rw [if_neg hne]
    have hfunc : q.func f = p.func f := by rw [hitems.func, hitems.others f hf]
    refine .of_func_eq hfunc (fun b hb => ⟨hput.label b, hput.others b ?_⟩) hold
    exact fun hbp => hne (hbp ▸ h.blocks.1 hb)

/-- An instruction is taken out if it is in a block. -/
theorem after_erase_cases (h : Housed p) (hsited : Sited live p) (i : InstId) :
    (erase i).after p = p ∨ ∃ b, p.remove? b i = some ((erase i).after p) ∧
      p.Removed ((erase i).after p) b i := by
  rw [after_erase]
  cases hblock : (p.inst i).block with
  | none => exact .inl rfl
  | some b =>
    have hi := h.mem hblock
    obtain ⟨q, hq⟩ : ∃ q, p.remove? b i = some q := ⟨_, if_pos hi⟩
    rw [Option.bind_some, hq, Option.getD_some]
    exact .inr ⟨b, hq, Program.removed_of_remove? hq (hsited.parent hi) (hsited.lt_size hi)⟩

theorem gives_erase (h : Housed p) (hsited : Sited live p) (i : InstId) :
    Gives p ((erase i).after p) f [] := by
  obtain hsame | ⟨b, hremove, hr⟩ := after_erase_cases h hsited i
  · rw [hsame]
    exact .of_func_eq rfl (fun _ _ => ⟨rfl, rfl⟩) fun _ _ => rfl
  · generalize (erase i).after p = q at *
    have hitems : SameItems p q f := .remove? hremove
    have hname (j : InstId) : (q.inst j).name = (p.inst j).name := by
      rw [hr.inst]
      split <;> rfl
    have hinsts : (q.instructions f).Subperm (p.instructions f ++ []) := by
      apply Program.instructions_subperm (b := b) (by rw [hitems.func]) (h.distinct f)
      · intro d hd
        rw [hr.insts, if_neg hd]
      · rw [hr.insts, if_pos rfl, List.append_nil]
        exact List.erase_sublist.subperm
    rw [List.append_nil] at hinsts
    exact .of_same (hitems.func f) (hitems.kept f) (fun d _ => Program.label_remove? hremove d)
      (fun j _ => hname j) hinsts

/-- What every step of a builder does. -/
theorem step_gives (h : Housed p) (hsited : Sited live p) (hfits : s.Fits p) (hbuilds : s.Builds) :
    Housed (s.after p) ∧ ∀ f, Gives p (s.after p) f (s.gives p f) := by
  cases s with
  | function name result params attach =>
    exact ⟨h.newFunc name result params attach, fun f => gives_function name result attach hbuilds⟩
  | block g hint => exact ⟨h.addBlock hfits hint, fun f => gives_block h hfits hint⟩
  | looseBlock label => exact hbuilds.elim
  | insert place op ty hint =>
    obtain ⟨g, hparent⟩ := Option.isSome_iff_exists.1 hfits.1
    exact ⟨housed_insert h hparent hfits.2 ty hint,
      fun f => gives_insert h hsited hparent hfits.2 ty hint⟩
  | put place op ty name => exact hbuilds.elim
  | erase i =>
    refine ⟨?_, fun f => gives_erase h hsited i⟩
    obtain hsame | ⟨b, hremove, hr⟩ := after_erase_cases h hsited i
    · rw [hsame]
      exact h
    · exact h.removed hremove hr

/-! ### All steps -/

/-- The record of the names given is kept by every step. -/
theorem run_recorded {name : String} {steps : List BuildStep} (hlegal : Legal { name } steps)
    (hbuilds : ∀ s ∈ steps, s.Builds) : Housed (run { name } steps) ∧
      ∀ f, Recorded (run { name } steps) f (given { name } f steps) := by
  induction steps using List.reverseRecOn with
  | nil =>
    refine ⟨.empty, fun f => ⟨List.nodup_nil, List.nil_subset _, ?_⟩⟩
    have hnone : Program.namesInUse { name } f = [] := by
      simp [Program.namesInUse, Program.instructions, Program.func, default]
    exact hnone ▸ List.nil_subperm
  | append_singleton steps s ih =>
    obtain ⟨hlegal, hfits⟩ := legal_concat.1 hlegal
    obtain ⟨hhoused, hrecorded⟩ :=
      ih hlegal fun s hs => hbuilds s (List.mem_append_left _ hs)
    obtain ⟨live, hsited, -⟩ := exists_sited name steps hlegal
    obtain ⟨hhoused', hgives⟩ :=
      step_gives hhoused hsited hfits (hbuilds s (List.mem_append_right _ List.mem_cons_self))
    rw [run_concat]
    refine ⟨hhoused', fun f => ?_⟩
    rw [given_concat]
    exact (hrecorded f).gives (hgives f)

/-- While functions with different parameter names are built, however blocks are added, instructions
put in and taken out and whatever the hints, at every moment: the search for a name ends, with the
first form of the hint that is not in use; the names of the parameters, blocks and results in a
function are all different, and so are all names that have ever been given in it, those included;
exactly the instructions with results have names; and an instruction is once in the list of the
block that it is in, and in no other list. -/
theorem names_given_once {name : String} {steps : List BuildStep} (hlegal : Legal { name } steps)
    (hbuilds : ∀ s ∈ steps, s.Builds) :
    (∀ f hint, ∃ n ≤ ((run { name } steps).func f).names.length,
      ((run { name } steps).freshName f hint).1 = Program.numbered hint n ∧
      Program.numbered hint n ∉ ((run { name } steps).func f).names ∧
      ∀ m < n, Program.numbered hint m ∈ ((run { name } steps).func f).names) ∧
    (∀ f, ((run { name } steps).namesInUse f).Nodup ∧ (given { name } f steps).Nodup ∧
      (run { name } steps).namesInUse f ⊆ given { name } f steps) ∧
    (∀ i, ((run { name } steps).inst i).name.isSome = ((run { name } steps).inst i).hasResult) ∧
    ∀ i b, ((run { name } steps).block b).insts.count i =
      if ((run { name } steps).inst i).block = some b then 1 else 0 := by
  obtain ⟨hhoused, hrecorded⟩ := run_recorded hlegal hbuilds
  obtain ⟨live, hsited, -⟩ := exists_sited name steps hlegal
  refine ⟨fun f hint => Program.firstUnused_least _ _, fun f => ?_, hhoused.named, fun i b => ?_⟩
  · obtain ⟨hnodup, -, hinUse⟩ := hrecorded f
    obtain ⟨names, hperm, hsub⟩ := hinUse
    have hsame := hperm.nodup_iff.1 (hnodup.sublist hsub)
    exact ⟨hsame, hnodup, fun n hn => hsub.subset (hperm.mem_iff.2 hn)⟩
  · by_cases hi : i ∈ ((run { name } steps).block b).insts
    · rw [if_pos (hsited.held hi)]
      exact List.count_eq_one_of_mem (hsited.nodup b) hi
    · rw [if_neg fun hblock => hi (hhoused.mem hblock)]
      exact List.count_eq_zero.2 hi

/-- Hints that look like names made up, a place that is not there and a result that goes. -/
def clash : List BuildStep := [
  function "f" .i64 [(.ptr, "a"), (.i64, "a.1")] true,
  block 0 "a",
  insert ⟨0, none⟩ (.call "create" [.literal ⟨0, 1, .i64⟩]) .ptr (some "a"),
  insert ⟨0, some 7⟩ (.call "create" [.literal ⟨1, 2, .i64⟩]) .ptr (some "a.1"),
  erase 0,
  insert ⟨0, none⟩ (.call "create" [.literal ⟨2, 3, .i64⟩]) .ptr (some "a.3"),
  insert ⟨0, none⟩ (.ret none) .void none]

theorem names_given_once_clash : Legal { name := "module" } clash ∧ (∀ s ∈ clash, s.Builds) ∧
    given { name := "module" } 0 clash = ["a", "a.1", "a.2", "a.3", "a.1.1", "a.3.1"] ∧
    (run { name := "module" } clash).namesInUse 0 = ["a", "a.1", "a.2", "a.3.1"] ∧
    ((run { name := "module" } clash).namesInUse 0).Nodup ∧
    (given { name := "module" } 0 clash).Nodup ∧
    ((run { name := "module" } clash).block 0).insts.count 0 = 0 := by
  have hlegal : Legal { name := "module" } clash := by decide +kernel
  have hbuilds : ∀ s ∈ clash, s.Builds := by decide +kernel
  obtain ⟨-, hnames, -, hcount⟩ := names_given_once hlegal hbuilds
  refine ⟨hlegal, hbuilds, by decide +kernel, by decide +kernel, (hnames 0).1, (hnames 0).2.1, ?_⟩
  have hgone : ((run { name := "module" } clash).inst 0).block ≠ some 0 := by decide +kernel
  rw [hcount, if_neg hgone]

end BuildStep

end BoxFlow
