import Mathlib.Data.List.Induction
import BoxFlow.Proofs.IR.Edges
import BoxFlow.Proofs.IR.Edits

/-!
# Functions that are built by hand

A program grows from an empty one by steps: functions, blocks, instructions put into blocks and taken
out again. Blocks lose edges in one way only: `BuildStep.Stripped` says that another terminator was
taken out of a block while an instruction was in it, and then the edges of both are gone
(`BuildStep.inSync_of_legal`).
-/

namespace BoxFlow

open Program (Edged InSync)

namespace Edit

variable {α β : Type}

/-- The program after the edit, whether or not it has failed. -/
def leaves (x : Edit α) (p : Program) : Program :=
  match x p with
  | .ok _ q | .error _ q => q

theorem leaves_get_bind (k : Program → Edit β) (p : Program) :
    (get >>= k).leaves p = (k p).leaves p := rfl

theorem leaves_set_bind (k : PUnit → Edit β) (p q : Program) :
    (set q >>= k).leaves p = (k ⟨⟩).leaves q := rfl

theorem leaves_modifyGet_bind (g : Program → α × Program) (k : α → Edit β) (p : Program) :
    (modifyGet g >>= k).leaves p = (k (g p).1).leaves (g p).2 := rfl

theorem leaves_map (g : α → β) (x : Edit α) (p : Program) : (g <$> x).leaves p = x.leaves p := by
  show (match EStateM.map g x p with | .ok _ q | .error _ q => q) = _
  rw [EStateM.map, leaves]
  cases x p <;> rfl

theorem leaves_ofOption (p? : Program → Option Program) (p : Program) :
    (ofOption p?).leaves p = (p? p).getD p := by
  rw [leaves, ofOption]
  cases p? p <;> rfl

/-- The program with instruction `i` at a place, if that is there. -/
theorem leaves_put (place : Place) (i : InstId) (p : Program) : (put place i).leaves p =
    match place.anchor with
    | none => p.append place.block i
    | some anchor => (p.insertBefore? place.block i anchor).getD p := by
  obtain ⟨b, anchor⟩ := place
  cases anchor with
  | none => rfl
  | some anchor => exact leaves_ofOption ..

end Edit

/-- One step of building functions. -/
inductive BuildStep
  | function (name : String) (result : Ty) (params : List (Ty × String)) (attach : Bool)
  | block (f : FuncId) (hint : String)
  /-- A block of no function. -/
  | looseBlock (label : String)
  /-- A new instruction with a name of its own. -/
  | insert (place : Place) (op : Op) (ty : Ty) (hint : Option String)
  /-- A new instruction, named as it is. -/
  | put (place : Place) (op : Op) (ty : Ty) (name : Option String)
  | erase (i : InstId)
  deriving DecidableEq, Repr

namespace BuildStep

/-- What the step does. -/
def edit : BuildStep → Edit Unit
  | function name result params attach => modify fun p => (p.newFunc name result params attach).2
  | block f hint => modify fun p => (p.addBlock f hint).2
  | looseBlock label => modify fun p => (p.newBlock label).2
  | insert place op ty hint => discard (Edit.insert place op ty hint)
  | put place op ty name => do
    let i ← modifyGet (·.newInst { op, ty, name })
    Edit.put place i
  | erase i => Edit.erase i

/-- The program after the step, whether or not the step has failed. -/
def after (s : BuildStep) (p : Program) : Program := s.edit.leaves p

/-- The step is about a function that is there, or puts an instruction into a block of a function,
and the blocks that the instruction names are there. -/
def Fits (p : Program) : BuildStep → Prop
  | block f _ => f < p.funcs.size
  | insert place op _ _ | put place op _ _ =>
    (p.block place.block).parent.isSome = true ∧ ∀ t ∈ op.blocks, t < p.blocks.size
  | _ => True

instance (p : Program) : ∀ s : BuildStep, Decidable (s.Fits p)
  | block f _ => inferInstanceAs (Decidable (f < _))
  | insert .. | put .. => inferInstanceAs (Decidable (_ ∧ _))
  | function .. | looseBlock _ | erase _ => inferInstanceAs (Decidable True)

/-- The program after all steps. -/
def run (p : Program) (steps : List BuildStep) : Program := steps.foldl (fun p s => s.after p) p

/-- Every step fits the program that it is made in. -/
def Legal (p : Program) : List BuildStep → Prop
  | [] => True
  | s :: steps => s.Fits p ∧ Legal (s.after p) steps

instance : ∀ (steps : List BuildStep) (p : Program), Decidable (Legal p steps)
  | [], _ => inferInstanceAs (Decidable True)
  | s :: steps, p =>
    have := instDecidableLegal steps (s.after p)
    inferInstanceAs (Decidable (_ ∧ _))

/-- The step takes another terminator out of block `b` while instruction `t` is in it. -/
def Strips (p : Program) (b : BlockId) (t : InstId) : BuildStep → Prop
  | erase i => i ≠ t ∧ i ∈ (p.block b).insts ∧ t ∈ (p.block b).insts ∧
    (p.inst i).op.isTerminator = true
  | _ => False

instance (p : Program) (b : BlockId) (t : InstId) : ∀ s : BuildStep, Decidable (s.Strips p b t)
  | erase _ => inferInstanceAs (Decidable (_ ∧ _))
  | function .. | block .. | looseBlock _ | insert .. | put .. => inferInstanceAs (Decidable False)

/-- One of the steps does so. -/
def Stripped (p : Program) : List BuildStep → BlockId → InstId → Prop
  | [], _, _ => False
  | s :: steps, b, t => s.Strips p b t ∨ Stripped (s.after p) steps b t

instance : ∀ (steps : List BuildStep) (p : Program) (b : BlockId) (t : InstId),
    Decidable (Stripped p steps b t)
  | [], _, _, _ => inferInstanceAs (Decidable False)
  | s :: steps, p, b, t =>
    have := instDecidableStripped steps (s.after p) b t
    inferInstanceAs (Decidable (_ ∨ _))

variable {p q r : Program} {s : BuildStep} {steps : List BuildStep} {b : BlockId} {i t : InstId}
  {f : FuncId} {live live' : BlockId → List InstId}

theorem run_concat (p : Program) (steps : List BuildStep) (s : BuildStep) :
    run p (steps ++ [s]) = s.after (run p steps) := List.foldl_append

theorem legal_concat : Legal p (steps ++ [s]) ↔ Legal p steps ∧ s.Fits (run p steps) := by
  induction steps generalizing p with
  | nil => simp [Legal, run]
  | cons s' steps ih => rw [List.cons_append, Legal, Legal, ih, and_assoc]; rfl

theorem stripped_concat :
    Stripped p (steps ++ [s]) b t ↔ Stripped p steps b t ∨ s.Strips (run p steps) b t := by
  induction steps generalizing p with
  | nil => simp [Stripped, run]
  | cons s' steps ih => rw [List.cons_append, Stripped, Stripped, ih, or_assoc]; rfl

/-- What is stripped is there. -/
theorem Strips.mem (h : s.Strips p b t) : t ∈ (p.block b).insts := by
  cases s with
  | erase i => exact h.2.2.1
  | _ => cases h

/-! ## What the operations keep -/

/-- The instructions in `live` are in their blocks and bring the edges. An instruction knows the
only block that holds it, which is in a function. -/
structure Sited (live : BlockId → List InstId) (p : Program) : Prop where
  edged : p.Edged live
  mem : ∀ {b i}, i ∈ live b → i ∈ (p.block b).insts
  live_nodup : ∀ b, (live b).Nodup
  held : ∀ {b i}, i ∈ (p.block b).insts → (p.inst i).block = some b
  parent : ∀ {b i}, i ∈ (p.block b).insts → (p.block b).parent.isSome = true
  nodup : ∀ b, (p.block b).insts.Nodup

namespace Sited

theorem empty {name : String} : Sited (fun _ => []) { name } := by
  refine ⟨.empty, ?_, ?_, ?_, ?_, ?_⟩ <;> simp [Program.block, default]

theorem lt_size (h : Sited live p) (hi : i ∈ (p.block b).insts) : i < p.insts.size :=
  Program.lt_of_inst_block (h.held hi)

/-- Functions, names and blocks without instructions do not matter. -/
theorem congr (h : Sited live p) (hinst : ∀ i, q.inst i = p.inst i)
    (hblock : ∀ b, (q.block b).insts = (p.block b).insts ∧
      (q.block b).successors = (p.block b).successors ∧
      (q.block b).predecessors = (p.block b).predecessors)
    (hparent : ∀ b, (p.block b).parent.isSome = true → (q.block b).parent.isSome = true) :
    Sited live q where
  edged := h.edged.congr_op (fun b => (hblock b).2.1) (fun b => (hblock b).2.2)
    fun b i _ => by rw [hinst]
  mem hi := (hblock _).1 ▸ h.mem hi
  live_nodup := h.live_nodup
  held hi := by
    rw [hinst]
    exact h.held ((hblock _).1 ▸ hi)
  parent hi := hparent _ (h.parent ((hblock _).1 ▸ hi))
  nodup b := (hblock b).1 ▸ h.nodup b

theorem newInst (h : Sited live p) (new : Inst) : Sited live (p.newInst new).2 where
  edged := h.edged.newInst (fun _ _ hi => h.lt_size (h.mem hi)) new
  mem := h.mem
  live_nodup := h.live_nodup
  held hi := by
    rw [Program.inst_newInst, if_neg (Nat.ne_of_lt (h.lt_size hi))]
    exact h.held hi
  parent := h.parent
  nodup := h.nodup

/-- Putting an instruction somewhere into the list of a block changes no other list. -/
theorem insts_adopt (hb : b < p.blocks.size) (i : InstId) (g : List InstId → List InstId)
    (d : BlockId) : (((p.modifyBlock b fun blk => { blk with insts := g blk.insts }).adopt b
      i).block d).insts = if d = b then g (p.block d).insts else (p.block d).insts := by
  refine (Block.of_shown ((Program.LooksLike.adopt _ b i).block d)).2.trans ?_
  rw [Program.block_modifyBlock_of_lt p hb]
  split <;> rfl

theorem mem_insts_adopt (hb : b < p.blocks.size) {g : List InstId → List InstId}
    (hg : (g (p.block b).insts).Perm (i :: (p.block b).insts)) {d : BlockId} {j : InstId} :
    j ∈ (((p.modifyBlock b fun blk => { blk with insts := g blk.insts }).adopt b i).block d).insts ↔
      j ∈ (p.block d).insts ∨ d = b ∧ j = i := by
  rw [insts_adopt hb]
  by_cases hd : d = b
  · subst hd
    simp [hg.mem_iff, or_comm]
  · simp [hd]

/-- An instruction that is in no block goes somewhere into the list of one. -/
theorem adopt (h : Sited live p) (hparent : (p.block b).parent = some f)
    (htargets : ∀ t ∈ (p.inst i).op.blocks, t < p.blocks.size) (hi : (p.inst i).block = none)
    (hlt : i < p.insts.size) {g : List InstId → List InstId}
    (hg : (g (p.block b).insts).Perm (i :: (p.block b).insts)) :
    Sited (Function.update live b (live b ++ [i]))
      ((p.modifyBlock b fun blk => { blk with insts := g blk.insts }).adopt b i) := by
  let q := p.modifyBlock b fun blk => { blk with insts := g blk.insts }
  have hq (d : BlockId) := p.edges_modifyInsts b g d
  have hqparent : (q.block b).parent = some f := (hq b).2.2.trans hparent
  have hqtargets : ∀ t ∈ (q.inst i).op.blocks, t < q.blocks.size := by simpa [q] using htargets
  have hfree {d : BlockId} : i ∉ (p.block d).insts := fun hd => by
    have := h.held hd
    rw [hi] at this
    cases this
  have hmem {d j} := mem_insts_adopt (Program.lt_of_parent hparent) hg (d := d) (j := j)
  exact {
    edged := Edged.adopt (h.edged.congr_op (fun d => (hq d).1) (fun d => (hq d).2.1)
      fun _ _ _ => rfl) hqparent hqtargets
    mem := fun {d j} hj => hmem.2 <| by
      by_cases hd : d = b
      · subst hd
        rw [Function.update_self, List.mem_append, List.mem_singleton] at hj
        exact hj.imp h.mem fun hj => ⟨rfl, hj⟩
      · rw [Function.update_of_ne hd] at hj
        exact .inl (h.mem hj)
    live_nodup := fun d => by
      by_cases hd : d = b
      · subst hd
        rw [Function.update_self]
        exact (h.live_nodup d).append (List.nodup_singleton i)
          (List.disjoint_singleton.2 fun hj => hfree (h.mem hj))
      · rw [Function.update_of_ne hd]
        exact h.live_nodup d
    held := fun {d j} hj => by
      rw [Program.inst_adopt hqparent]
      rcases hmem.1 hj with hj | ⟨rfl, rfl⟩
      · rw [if_neg fun h' => hfree (h'.1 ▸ hj)]
        exact h.held hj
      · rw [if_pos ⟨rfl, hlt⟩]
    parent := fun {d j} hj => by
      rw [Program.block_adopt hqparent hqtargets]
      rcases hmem.1 hj with hj | ⟨rfl, rfl⟩
      · rw [(hq d).2.2]
        exact h.parent hj
      · rw [hqparent]
        rfl
    nodup := fun d => by
      rw [insts_adopt (Program.lt_of_parent hparent)]
      by_cases hd : d = b
      · subst hd
        simpa [hg.nodup_iff] using ⟨hfree, h.nodup d⟩
      · simpa [hd] using h.nodup d }

/-- An instruction is taken out of its block, a terminator with all edges of the block. -/
theorem remove (h : Sited live p) (hq : p.remove? b i = some q) :
    Sited (Function.update live b
      (if (p.inst i).op.isTerminator then [] else (live b).erase i)) q := by
  obtain ⟨hi, hparent⟩ : i ∈ (p.block b).insts ∧ (p.block b).parent.isSome = true := by
    have hi := Program.mem_of_remove? hq
    exact ⟨hi, h.parent hi⟩
  have hr := Program.removed_of_remove? hq hparent (h.lt_size hi)
  have hmem {d j} : j ∈ (q.block d).insts ↔ j ∈ (p.block d).insts ∧ ¬(d = b ∧ j = i) := by
    rw [hr.insts]
    by_cases hd : d = b
    · subst hd
      simp [(h.nodup d).mem_erase_iff, and_comm]
    · simp [hd]
  exact {
    edged := hr.edged h.edged
    mem := fun {d j} hj => hmem.2 <| by
      by_cases hd : d = b
      · subst hd
        rw [Function.update_self] at hj
        split at hj
        · cases hj
        · rw [(h.live_nodup d).mem_erase_iff] at hj
          exact ⟨h.mem hj.2, fun h' => hj.1 h'.2⟩
      · rw [Function.update_of_ne hd] at hj
        exact ⟨h.mem hj, fun h' => hd h'.1⟩
    live_nodup := fun d => by
      by_cases hd : d = b
      · subst hd
        rw [Function.update_self]
        split
        · exact List.nodup_nil
        · exact (h.live_nodup d).erase i
      · rw [Function.update_of_ne hd]
        exact h.live_nodup d
    held := fun {d j} hj => by
      obtain ⟨hj, hne⟩ := hmem.1 hj
      rw [hr.inst, if_neg]
      · exact h.held hj
      · rintro rfl
        exact hne ⟨Option.some.inj ((h.held hj).symm.trans (h.held hi)), rfl⟩
    parent := fun {d j} hj => by
      rw [hr.parent]
      exact h.parent (hmem.1 hj).1
    nodup := fun d => by
      rw [hr.insts]
      split
      · exact (h.nodup d).erase i
      · exact h.nodup d }

end Sited

/-! ## One step -/

/-- After step `s` the instructions in `live'` are live: those that were, unless the step strips
them, and a new one. -/
structure Carried (live : BlockId → List InstId) (p : Program) (s : BuildStep)
    (live' : BlockId → List InstId) (q : Program) : Prop where
  sited : Sited live' q
  size : p.insts.size ≤ q.insts.size
  insts : ∀ {b t}, t ∈ (q.block b).insts →
    t ∈ (p.block b).insts ∧ (t ∈ live' b ↔ t ∈ live b ∧ ¬s.Strips p b t) ∨
      t = p.insts.size ∧ t ∈ live' b

/-- A step that leaves the lists of the blocks alone. -/
theorem Carried.of_insts (h : Sited live q) (hsize : p.insts.size ≤ q.insts.size)
    (hinsts : ∀ b, (q.block b).insts = (p.block b).insts) (hs : ∀ b t, ¬s.Strips p b t) :
    Carried live p s live q :=
  ⟨h, hsize, fun ht => .inl ⟨hinsts _ ▸ ht, by simp [hs]⟩⟩

/-- The program with a new instruction, at its place if that is there. -/
def putNew (p : Program) (place : Place) (new : Inst) : Program :=
  match place.anchor with
  | none => (p.newInst new).2.append place.block p.insts.size
  | some anchor =>
    ((p.newInst new).2.insertBefore? place.block p.insts.size anchor).getD (p.newInst new).2

/-- The new instruction is in no block, or somewhere in the list of its block. -/
theorem putNew_cases (p : Program) (place : Place) (new : Inst) :
    putNew p place new = (p.newInst new).2 ∨ ∃ g : List InstId → List InstId,
      (g (p.block place.block).insts).Perm (p.insts.size :: (p.block place.block).insts) ∧
      putNew p place new = ((p.newInst new).2.modifyBlock place.block fun blk =>
        { blk with insts := g blk.insts }).adopt place.block p.insts.size := by
  unfold putNew
  split
  · exact .inr ⟨(· ++ [p.insts.size]), List.perm_append_singleton _ _, rfl⟩
  · next anchor _ =>
    by_cases ha : anchor ∈ ((p.newInst new).2.block place.block).insts
    · rw [Program.insertBefore?, if_pos ha, Option.getD_some]
      exact .inr ⟨_, Program.perm_insertBeforeFirst _ ha, rfl⟩
    · rw [Program.insertBefore?, if_neg ha, Option.getD_none]
      exact .inl rfl

/-- Names that have been given away do not matter. -/
structure SameButNames (p r : Program) : Prop where
  insts : r.insts = p.insts
  blocks : r.blocks = p.blocks

theorem carried_putNew {place : Place} {new : Inst} (h : Sited live p) (hr : SameButNames p r)
    (hnew : new.block = none) (hparent : (p.block place.block).parent.isSome = true)
    (htargets : ∀ t ∈ new.op.blocks, t < p.blocks.size) (hs : ∀ b t, ¬s.Strips p b t) :
    ∃ live', Carried live p s live' (putNew r place new) := by
  have hinst (i : InstId) : r.inst i = p.inst i := by rw [Program.inst, hr.insts]; rfl
  have hblock (b : BlockId) : r.block b = p.block b := by rw [Program.block, hr.blocks]; rfl
  have hsize : r.insts.size = p.insts.size := congrArg Array.size hr.insts
  have hsited : Sited live (r.newInst new).2 :=
    (h.congr hinst (fun b => by simp [hblock]) fun b => by rw [hblock]; exact id).newInst new
  obtain ⟨f, hparent⟩ := Option.isSome_iff_exists.1 hparent
  have hin : (r.newInst new).2.inst r.insts.size = new := by
    rw [Program.inst_newInst, if_pos rfl]
  have hlt : r.insts.size < (r.newInst new).2.insts.size := by simp [Program.newInst]
  have hgrown : p.insts.size ≤ (r.newInst new).2.insts.size := by
    rw [← hsize]; exact Nat.le_of_lt hlt
  have hput {g : List InstId → List InstId} (hg : (g (p.block place.block).insts).Perm
      (r.insts.size :: (p.block place.block).insts)) :
      Carried live p s (Function.update live place.block (live place.block ++ [r.insts.size]))
        (((r.newInst new).2.modifyBlock place.block fun blk =>
          { blk with insts := g blk.insts }).adopt place.block r.insts.size) := by
    have hb : place.block < (r.newInst new).2.blocks.size :=
      Program.lt_of_parent (f := f) ((congrArg Block.parent (hblock place.block)).trans hparent)
    refine ⟨hsited.adopt (f := f) ?_ ?_ ?_ hlt ?_, ?_, fun {b t} ht => ?_⟩
    · exact (congrArg Block.parent (hblock place.block)).trans hparent
    · rw [hin]
      exact fun t ht => (congrArg Array.size hr.blocks).symm ▸ htargets t ht
    · rw [hin, hnew]
    · exact (congrArg Block.insts (hblock place.block)).symm ▸ hg
    · rw [Program.size_adopt]
      exact hgrown
    · rw [Sited.insts_adopt hb] at ht
      by_cases hd : b = place.block
      · subst hd
        rw [if_pos rfl] at ht
        have ht : t ∈ g (p.block place.block).insts :=
          congrArg Block.insts (hblock place.block) ▸ ht
        rcases List.mem_cons.1 (hg.mem_iff.1 ht) with rfl | ht
        · exact .inr ⟨hsize, by simp⟩
        · have hne : t ≠ r.insts.size := hsize ▸ Nat.ne_of_lt (h.lt_size ht)
          exact .inl ⟨ht, by simp [hne, hs]⟩
      · rw [if_neg hd] at ht
        exact .inl ⟨congrArg Block.insts (hblock b) ▸ ht, by simp [hd, hs]⟩
  obtain heq | ⟨g, hg, heq⟩ := putNew_cases r place new
  · rw [heq]
    exact ⟨live, .of_insts hsited hgrown (fun b => congrArg Block.insts (hblock b)) hs⟩
  · rw [heq]
    exact ⟨_, hput (congrArg Block.insts (hblock place.block) ▸ hg)⟩

theorem leaves_putNew (place : Place) (new : Inst) (r : Program) : Edit.leaves (do
    let i ← modifyGet (·.newInst new)
    Edit.put place i) r = putNew r place new :=
  (Edit.leaves_modifyGet_bind ..).trans (Edit.leaves_put ..)

/-- What a builder calls a result in function `f` of the program `p`, and the program with the name
given away: nothing if the result is void, and otherwise by a name that had not been given away. -/
inductive Naming (p : Program) (f : FuncId) (ty : Ty) : Program → Option String → Prop
  | void : ty = .void → Naming p f ty p none
  | fresh {n : String} : ty ≠ .void → n ∉ (p.func f).names →
      Naming p f ty (p.claimName f n) (some n)

theorem Naming.sameButNames {ty : Ty} {name : Option String} (h : Naming p f ty r name) :
    SameButNames p r := by
  cases h <;> exact ⟨rfl, rfl⟩

/-- A builder gives away a name at most before it puts an instruction in. -/
theorem after_insert {place : Place} (hparent : (p.block place.block).parent = some f) (op : Op)
    (ty : Ty) (hint : Option String) : ∃ r name, Naming p f ty r name ∧
      (insert place op ty hint).after p = putNew r place { op, ty, name } := by
  have hput (r : Program) (name : Option String) : Edit.leaves (do
      let i ← modifyGet (·.newInst { op, ty, name })
      Edit.put place i
      return i) r = putNew r place { op, ty, name } :=
    (Edit.leaves_modifyGet_bind ..).trans ((Edit.leaves_map ..).trans (Edit.leaves_put ..))
  have hinsert : ∃ r name, Naming p f ty r name ∧
      (Edit.insert place op ty hint).leaves p = putNew r place { op, ty, name } := by
    unfold Edit.insert
    rw [Edit.leaves_get_bind]
    simp only [hparent]
    split
    · next hty => exact ⟨p, none, .void hty, hput p none⟩
    · next hty =>
      refine ⟨_, _, .fresh hty ?_, (Edit.leaves_set_bind ..).trans (hput _ (some _))⟩
      exact Program.firstUnused_not_mem _ _
  obtain ⟨r, name, hname, heq⟩ := hinsert
  exact ⟨r, name, hname, (Edit.leaves_map ..).trans heq⟩

theorem after_erase (i : InstId) (p : Program) : (erase i).after p =
    ((p.inst i).block.bind fun b => p.remove? b i).getD p := by
  refine (Edit.leaves_get_bind ..).trans ?_
  cases (p.inst i).block with
  | none => rfl
  | some b => exact Edit.leaves_ofOption ..

theorem exists_carried_erase (h : Sited live p) (i : InstId) :
    ∃ live', Carried live p (erase i) live' ((erase i).after p) := by
  rw [after_erase]
  by_cases hi : ∃ b, i ∈ (p.block b).insts
  · obtain ⟨b, hi⟩ := hi
    obtain ⟨q, hq⟩ : ∃ q, p.remove? b i = some q := ⟨_, if_pos hi⟩
    have hr := Program.removed_of_remove? hq (h.parent hi) (h.lt_size hi)
    rw [h.held hi, Option.bind_some, hq, Option.getD_some]
    refine ⟨_, h.remove hq, Nat.le_of_eq hr.size.symm, fun {d t} ht => .inl ?_⟩
    rw [hr.insts] at ht
    by_cases hd : d = b
    · subst hd
      rw [if_pos rfl, (h.nodup d).mem_erase_iff] at ht
      refine ⟨ht.2, ?_⟩
      have hstrips : (erase i).Strips p d t ↔ (p.inst i).op.isTerminator = true :=
        ⟨fun h => h.2.2.2, fun hterm => ⟨Ne.symm ht.1, hi, ht.2, hterm⟩⟩
      rw [hstrips, Function.update_self]
      split
      · next hterm => simp [hterm]
      · next hterm => simp [hterm, (h.live_nodup d).mem_erase_iff, ht.1]
    · rw [if_neg hd] at ht
      refine ⟨ht, ?_⟩
      have hstrips : ¬(erase i).Strips p d t := fun hs =>
        hd (Option.some.inj ((h.held hs.2.1).symm.trans (h.held hi)))
      rw [Function.update_of_ne hd]
      simp [hstrips]
  · have hsame : ((p.inst i).block.bind fun b => p.remove? b i) = none := by
      cases (p.inst i).block with
      | none => rfl
      | some b => exact if_neg fun hb => hi ⟨b, hb⟩
    rw [hsame]
    exact ⟨live, .of_insts h (Nat.le_refl _) (fun _ => rfl) fun b t hs => hi ⟨b, hs.2.1⟩⟩

/-- What every step does to the instructions that are live. -/
theorem exists_carried (h : Sited live p) (hs : s.Fits p) :
    ∃ live', Carried live p s live' (s.after p) := by
  cases s with
  | function name result params attach =>
    exact ⟨live, .of_insts (h.congr (fun _ => rfl) (fun _ => ⟨rfl, rfl, rfl⟩) fun _ => id)
      (Nat.le_refl _) (fun _ => rfl) (by simp [Strips])⟩
  | block f hint =>
    have hblock (b : BlockId) := Program.block_addBlock p f hint b
    refine ⟨live, .of_insts (h.congr (fun _ => rfl)
      (fun b => ⟨(hblock b).1, (hblock b).2.1, (hblock b).2.2.1⟩) fun b hb => ?_)
      (Nat.le_refl _) (fun b => (hblock b).1) (by simp [Strips])⟩
    refine (congrArg Option.isSome (hblock b).2.2.2).trans ?_
    split
    · rfl
    · exact hb
  | looseBlock label =>
    have hblock (b : BlockId) : ((p.newBlock label).2.block b).insts = (p.block b).insts ∧
        ((p.newBlock label).2.block b).successors = (p.block b).successors ∧
        ((p.newBlock label).2.block b).predecessors = (p.block b).predecessors ∧
        ((p.newBlock label).2.block b).parent = (p.block b).parent := by
      simp only [Program.block, Program.newBlock, Array.getD_eq_getD_getElem?,
        Array.getElem?_push]
      split
      · next hb => subst hb; simp; exact ⟨rfl, rfl, rfl, rfl⟩
      · exact ⟨rfl, rfl, rfl, rfl⟩
    exact ⟨live, .of_insts (h.congr (fun _ => rfl)
      (fun b => ⟨(hblock b).1, (hblock b).2.1, (hblock b).2.2.1⟩)
      fun b hb => (congrArg Option.isSome (hblock b).2.2.2).trans hb)
      (Nat.le_refl _) (fun b => (hblock b).1) (by simp [Strips])⟩
  | insert place op ty hint =>
    obtain ⟨f, hparent⟩ := Option.isSome_iff_exists.1 hs.1
    obtain ⟨r, name, hname, heq⟩ := after_insert hparent op ty hint
    rw [heq]
    exact carried_putNew h hname.sameButNames rfl hs.1 hs.2 (by simp [Strips])
  | put place op ty name =>
    rw [after, edit, leaves_putNew]
    exact carried_putNew h ⟨rfl, rfl⟩ rfl hs.1 hs.2 (by simp [Strips])
  | erase i =>
    exact exists_carried_erase h i

/-! ## All steps -/

/-- An instruction that is in a block is live as long as the block has not been stripped. -/
theorem exists_sited (name : String) (steps : List BuildStep) (h : Legal { name } steps) :
    ∃ live, Sited live (run { name } steps) ∧
      (∀ {b t}, Stripped { name } steps b t → t < (run { name } steps).insts.size) ∧
      ∀ {b t}, t ∈ ((run { name } steps).block b).insts →
        (t ∈ live b ↔ ¬Stripped { name } steps b t) := by
  induction steps using List.reverseRecOn with
  | nil =>
    refine ⟨fun _ => [], .empty, ?_, ?_⟩
    · exact fun h => h.elim
    · intro b t ht
      simp [run, Program.block, default] at ht
  | append_singleton steps s ih =>
    obtain ⟨hlegal, hfits⟩ := legal_concat.1 h
    obtain ⟨live, hsited, hlt, hlive⟩ := ih hlegal
    obtain ⟨live', hcarried⟩ := exists_carried hsited hfits
    rw [run_concat]
    refine ⟨live', hcarried.sited, fun {b t} ht => ?_, fun {b t} ht => ?_⟩
    · refine Nat.lt_of_lt_of_le ?_ hcarried.size
      rcases stripped_concat.1 ht with ht | ht
      · exact hlt ht
      · exact hsited.lt_size ht.mem
    · rw [stripped_concat, not_or]
      rcases hcarried.insts ht with ⟨hmem, hiff⟩ | ⟨rfl, hmem⟩
      · rw [hiff, hlive hmem]
      · exact iff_of_true hmem ⟨fun hs => Nat.lt_irrefl _ (hlt hs),
          fun hs => Nat.lt_irrefl _ (hsited.lt_size hs.mem)⟩

/-- A block without a terminator has no edges. The edges of a block with one terminator are those
of the terminator, unless another terminator was taken out while that one was there: then no edges
are left. -/
theorem inSync_of_legal {name : String} {steps : List BuildStep} (h : Legal { name } steps)
    (b : BlockId) :
    ((run { name } steps).terminators b = [] →
      ((run { name } steps).block b).successors = []) ∧
    ∀ t, (run { name } steps).terminators b = [t] →
      (¬Stripped { name } steps b t → (run { name } steps).InSync b t) ∧
      (Stripped { name } steps b t → ((run { name } steps).block b).successors = [] ∧
        ∀ d, b ∉ (run { name } steps).predecessorBlocks d) := by
  obtain ⟨live, hsited, -, hlive⟩ := exists_sited name steps h
  generalize run { name } steps = p at *
  have hedged := hsited.edged.filter
  have hsub : ∀ i ∈ (live b).filter (fun i => (p.inst i).op.isTerminator), i ∈ p.terminators b := by
    intro i hi
    obtain ⟨hi, hterm⟩ := List.mem_filter.1 hi
    exact List.mem_filter.2 ⟨hsited.mem hi, hterm⟩
  constructor
  · intro hnone
    exact (hedged.isolated (List.eq_nil_iff_forall_not_mem.2 fun i hi => by
      simpa [hnone] using hsub i hi)).1
  · intro t hone
    obtain ⟨ht, hterm⟩ := List.mem_filter.1 (hone ▸ List.mem_singleton_self t)
    have hlive : t ∈ (live b).filter (fun i => (p.inst i).op.isTerminator) ↔
        ¬Stripped { name } steps b t := by
      rw [List.mem_filter, hlive ht]
      exact and_iff_left hterm
    rcases Program.eq_nil_or_singleton ((hsited.live_nodup b).filter _)
      (fun i hi => List.mem_singleton.1 (hone ▸ hsub i hi)) with ⟨hnot, hnil⟩ | ⟨hmem, hsing⟩
    · exact ⟨fun hs => absurd (hlive.2 hs) hnot, fun _ => hedged.isolated hnil⟩
    · exact ⟨fun _ => hedged.inSync hsing, fun hs => absurd hs (hlive.1 hmem)⟩

/-- A block that jumps to another: the jump is taken out and put in again. -/
def rejump : List BuildStep :=
  [function "f" .void [] true, block 0 "e", block 0 "x",
    insert { block := 0 } (.br none [1]) .void none, erase 0,
    insert { block := 0 } (.br none [1]) .void none]

/-- The same with the new jump put in before the old one is taken out. -/
def swapJump : List BuildStep :=
  [function "f" .void [] true, block 0 "e", block 0 "x",
    insert { block := 0 } (.br none [1]) .void none,
    insert { block := 0 } (.br none [1]) .void none, erase 0]

theorem inSync_of_legal_rejump : (run { name := "module" } rejump).terminators 0 = [1] ∧
    ¬Stripped { name := "module" } rejump 0 1 ∧ (run { name := "module" } rejump).InSync 0 1 :=
  ⟨by decide +kernel, by decide +kernel, ((inSync_of_legal (by decide +kernel) 0).2 1
    (by decide +kernel)).1 (by decide +kernel)⟩

/-- Replacing a terminator in that order loses the edges of the block. -/
theorem not_inSync_swapJump : Legal { name := "module" } swapJump ∧
    (run { name := "module" } swapJump).terminators 0 = [1] ∧
    ((run { name := "module" } swapJump).block 0).insts.getLast? = some 1 ∧
    ¬(run { name := "module" } swapJump).InSync 0 1 := by decide +kernel

end BuildStep

end BoxFlow
