import Mathlib.Data.List.Nodup
import BoxFlow.Proofs.IR.Growth

/-!
# Which instructions the edges come from

`Program.Edged live` says that the edges that leave a block are those of the instructions that
`live` has for it, in that order, and that every edge is known at its target as often as at its
source. An instruction that is put into a block comes last in `live`, wherever it is in the block
(`Edged.adopt`), and a terminator that is taken out takes everything with it (`Edged.unlink`).
-/

namespace BoxFlow.Program

variable {p q : Program} {live live' : BlockId → List InstId} {b d : BlockId} {i t : InstId}
  {f : FuncId} {op : Op} {e : Edge}

/-! ## The edges of a terminator -/

theorem nodup_branchEdges (b : BlockId) (op : Op) : (branchEdges b op).Nodup := by
  cases op with
  | br c targets =>
    match c, targets with
    | none, [] => exact List.nodup_nil
    | none, t :: _ => exact List.nodup_singleton _
    | some _, [] => exact List.nodup_nil
    | some _, [t] => exact List.nodup_singleton _
    | some _, t :: t' :: _ => simp [branchEdges]
  | _ => exact List.nodup_nil

theorem branchEdges_of_not_terminator (h : op.isTerminator = false) : branchEdges b op = [] := by
  cases op <;> first | rfl | cases h

theorem filter_source_branchEdges (b d : BlockId) (op : Op) :
    (branchEdges b op).filter (·.source = d) = if d = b then branchEdges b op else [] := by
  split
  · next h => exact List.filter_eq_self.2 fun e he => by simp [h, (source_of_mem_branchEdges he).1]
  · next h =>
    refine List.filter_eq_nil_iff.2 fun e he => ?_
    simpa [(source_of_mem_branchEdges he).1] using Ne.symm h

theorem count_filter_target (es : List Edge) (e : Edge) (d : BlockId) :
    (es.filter (·.target = d)).count e = if e.target = d then es.count e else 0 := by
  split
  · next h => exact List.count_filter (by simpa using h)
  · next h => exact List.count_eq_zero.2 fun hmem => h (by simpa using (List.mem_filter.1 hmem).2)

/-! ## Edges and where they come from -/

theorem eq_nil_or_singleton {α : Type} {l : List α} {a : α} (h : l.Nodup) (hl : ∀ x ∈ l, x = a) :
    a ∉ l ∧ l = [] ∨ a ∈ l ∧ l = [a] := by
  match l with
  | [] => exact .inl ⟨List.not_mem_nil, rfl⟩
  | [x] =>
    obtain rfl := hl x List.mem_cons_self
    exact .inr ⟨List.mem_cons_self, rfl⟩
  | x :: y :: l =>
    have hx := hl x List.mem_cons_self
    have hy := hl y (List.mem_cons_of_mem _ List.mem_cons_self)
    exact absurd (hx.trans hy.symm) fun hxy =>
      (List.nodup_cons.1 h).1 (hxy ▸ List.mem_cons_self)

/-- The edges are those of the instructions in `live`, and both sides agree on them. -/
structure Edged (live : BlockId → List InstId) (p : Program) : Prop where
  successors : ∀ b, (p.block b).successors =
    (live b).flatMap fun i => branchEdges b (p.inst i).op
  predecessors : ∀ b e, (p.block b).predecessors.count e =
    if e.target = b then (p.block e.source).successors.count e else 0

def terminators (p : Program) (b : BlockId) : List InstId :=
  (p.block b).insts.filter fun i => (p.inst i).op.isTerminator

/-- The edges of block `b` are those of instruction `t`, and each is known once at its target. -/
def InSync (p : Program) (b : BlockId) (t : InstId) : Prop :=
  (p.block b).successors = branchEdges b (p.inst t).op ∧
    ∀ e ∈ branchEdges b (p.inst t).op, (p.block e.target).predecessors.count e = 1

instance : Decidable (p.InSync b t) := inferInstanceAs (Decidable (_ ∧ _))

namespace Edged

theorem empty {name : String} : Edged (fun _ => []) { name } := by
  constructor <;> simp [block, default]

theorem congr (h : p.Edged live) (hsucc : ∀ b, (q.block b).successors = (p.block b).successors)
    (hpred : ∀ b, (q.block b).predecessors = (p.block b).predecessors)
    (hedges : ∀ b, ((live' b).flatMap fun i => branchEdges b (q.inst i).op) =
      (live b).flatMap fun i => branchEdges b (p.inst i).op) : q.Edged live' where
  successors b := by rw [hsucc, h.successors, hedges]
  predecessors b e := by rw [hpred, hsucc, h.predecessors]

/-- Only what the instructions in `live` do matters. -/
theorem congr_op (h : p.Edged live) (hsucc : ∀ b, (q.block b).successors = (p.block b).successors)
    (hpred : ∀ b, (q.block b).predecessors = (p.block b).predecessors)
    (hop : ∀ b, ∀ i ∈ live b, (q.inst i).op = (p.inst i).op) : q.Edged live :=
  h.congr hsucc hpred fun b => List.flatMap_congr fun i hi => by rw [hop b i hi]

/-- Only terminators bring edges. -/
theorem filter (h : p.Edged live) :
    p.Edged fun b => (live b).filter fun i => (p.inst i).op.isTerminator := by
  refine h.congr (fun _ => rfl) (fun _ => rfl) fun b => ?_
  generalize live b = is
  induction is with
  | nil => rfl
  | cons i is ih =>
    rw [List.flatMap_cons, ← ih, List.filter_cons]
    split
    · rw [List.flatMap_cons]
    · next hi =>
      rw [branchEdges_of_not_terminator (Bool.eq_false_iff.2 hi), List.nil_append]

theorem inSync (h : p.Edged live) (hb : live b = [t]) : p.InSync b t := by
  have hsucc : (p.block b).successors = branchEdges b (p.inst t).op := by
    rw [h.successors, hb, List.flatMap_singleton]
  refine ⟨hsucc, fun e he => ?_⟩
  rw [h.predecessors, if_pos rfl, (source_of_mem_branchEdges he).1, hsucc]
  exact List.count_eq_one_of_mem (nodup_branchEdges ..) he

/-- A block from which no instruction is live is alone. -/
theorem isolated (h : p.Edged live) (hb : live b = []) :
    (p.block b).successors = [] ∧ ∀ d, b ∉ p.predecessorBlocks d := by
  have hsucc : (p.block b).successors = [] := by rw [h.successors, hb, List.flatMap_nil]
  refine ⟨hsucc, fun d hd => ?_⟩
  obtain ⟨e, he, rfl⟩ := List.mem_map.1 hd
  have hcount := h.predecessors d e
  rw [hsucc, List.count_nil, ite_self] at hcount
  exact List.count_eq_zero.1 hcount he

/-! ## Operations -/

theorem newInst (h : p.Edged live) (hlive : ∀ b, ∀ i ∈ live b, i < p.insts.size) (new : Inst) :
    (p.newInst new).2.Edged live :=
  h.congr_op (fun _ => rfl) (fun _ => rfl) fun b i hi => by
    rw [inst_newInst, if_neg (Nat.ne_of_lt (hlive b i hi))]

/-- The edges of an instruction that is put into a block are added at the end. -/
theorem adopt (h : p.Edged live) (hparent : (p.block b).parent = some f)
    (htargets : ∀ t ∈ (p.inst i).op.blocks, t < p.blocks.size) :
    (p.adopt b i).Edged (Function.update live b (live b ++ [i])) := by
  have hblock := block_adopt hparent htargets
  have hop (j : InstId) : ((p.adopt b i).inst j).op = (p.inst j).op := by
    rw [inst_adopt hparent]
    split <;> rfl
  have hsucc (d : BlockId) : ((p.adopt b i).block d).successors =
      (p.block d).successors ++ if d = b then branchEdges b (p.inst i).op else [] := by
    rw [hblock, ← filter_source_branchEdges]
  constructor
  · intro d
    simp only [hop]
    rw [hsucc, h.successors]
    by_cases hd : d = b
    · subst hd
      simp
    · simp [hd]
  · intro d e
    have hcount : (branchEdges b (p.inst i).op).count e =
        (if e.source = b then branchEdges b (p.inst i).op else []).count e := by
      split
      · rfl
      · next hne =>
        rw [List.count_nil]
        exact List.count_eq_zero.2 fun he => hne (source_of_mem_branchEdges he).1
    rw [hsucc, hblock, List.count_append, count_filter_target, h.predecessors, hcount,
      List.count_append]
    split <;> rfl

/-- An instruction without edges may be forgotten. -/
theorem erase (h : p.Edged live) (b : BlockId) (hi : branchEdges b (p.inst i).op = []) :
    p.Edged (Function.update live b ((live b).erase i)) := by
  refine h.congr (fun _ => rfl) (fun _ => rfl) fun d => ?_
  by_cases hd : d = b
  · subst hd
    rw [Function.update_self]
    generalize live d = is
    induction is with
    | nil => rfl
    | cons j is ih =>
      by_cases hj : j = i
      · subst hj
        rw [List.erase_cons_head, List.flatMap_cons, hi, List.nil_append]
      · rw [List.erase_cons_tail (by simpa using hj), List.flatMap_cons, List.flatMap_cons, ih]
  · rw [Function.update_of_ne hd]

end Edged

/-! ## Taking edges away -/

theorem block_modifyBlock_of_default (p : Program) (b d : BlockId) {g : Block → Block}
    (hg : g default = default) :
    (p.modifyBlock b g).block d = if d = b then g (p.block d) else p.block d := by
  rw [block_modifyBlock]
  by_cases hd : d = b
  · subst hd
    rw [if_pos rfl]
    split
    · rfl
    · next hlt =>
      have : p.block d = default := by
        rw [block, Array.getD_eq_getD_getElem?, Array.getElem?_eq_none (by simpa using hlt)]
        rfl
      rw [this, hg]
  · rw [if_neg hd, if_neg fun h => hd h.1.symm]

/-- Without its edges a block is in no successor's record either. -/
theorem block_unlink (p : Program) (b d : BlockId) : (p.unlink b).block d = { p.block d with
    successors := if d = b then [] else (p.block d).successors
    predecessors := if d ∈ (p.block b).successors.map (·.target)
      then (p.block d).predecessors.filter (·.source ≠ b) else (p.block d).predecessors } := by
  have hfold (es : List Edge) (p : Program) (d : BlockId) :
      (es.foldl (fun p e => p.modifyBlock e.target fun blk =>
        { blk with predecessors := blk.predecessors.filter (·.source ≠ b) }) p).block d =
      { p.block d with predecessors := if d ∈ es.map (·.target)
        then (p.block d).predecessors.filter (·.source ≠ b) else (p.block d).predecessors } := by
    induction es generalizing p with
    | nil => rfl
    | cons e es ih =>
      rw [List.foldl_cons, ih, block_modifyBlock_of_default _ _ _ rfl]
      by_cases hd : d = e.target
      · subst hd
        simp
      · simp [hd]
  rw [unlink, block_modifyBlock_of_default _ _ _ rfl, hfold]
  by_cases hd : d = b
  · rw [if_pos hd, if_pos hd]
  · rw [if_neg hd, if_neg hd]

theorem insts_unlink (p : Program) (b : BlockId) : (p.unlink b).insts = p.insts := by
  have hfold (es : List Edge) (p : Program) :
      (es.foldl (fun p e => p.modifyBlock e.target fun blk =>
        { blk with predecessors := blk.predecessors.filter (·.source ≠ b) }) p).insts =
      p.insts := by
    induction es generalizing p with
    | nil => rfl
    | cons e es ih => exact ih _
  exact hfold ..

theorem inst_unlink (p : Program) (b : BlockId) (i : InstId) : (p.unlink b).inst i = p.inst i := by
  rw [inst, insts_unlink]
  rfl

theorem Edged.unlink (h : p.Edged live) (b : BlockId) :
    (p.unlink b).Edged (Function.update live b []) := by
  have hsucc (d : BlockId) : ((p.unlink b).block d).successors =
      if d = b then [] else (p.block d).successors := by rw [block_unlink]
  constructor
  · intro d
    simp only [inst_unlink]
    rw [hsucc]
    by_cases hd : d = b
    · subst hd
      simp
    · rw [if_neg hd, h.successors, Function.update_of_ne hd]
  · intro d e
    rw [hsucc, block_unlink]
    dsimp only
    by_cases hs : e.source = b
    · -- Where the edge was known, it is not any more; elsewhere it never was.
      rw [if_pos hs, List.count_nil, ite_self]
      split
      · exact List.count_eq_zero.2 fun he => by simpa [hs] using (List.mem_filter.1 he).2
      · next hd =>
        rw [h.predecessors, hs]
        split
        · next ht =>
          exact List.count_eq_zero.2 fun he => hd (ht ▸ List.mem_map_of_mem he)
        · rfl
    · rw [if_neg hs, ← h.predecessors]
      split
      · exact List.count_filter (by simpa using hs)
      · rfl

/-! ## Removal -/

/-- `q` is `p` without an instruction of block `b`, and without the edges of the block if that was a
terminator. -/
structure Removed (p q : Program) (b : BlockId) (i : InstId) : Prop where
  size : q.insts.size = p.insts.size
  inst : ∀ j, q.inst j = if j = i then { p.inst j with block := none } else p.inst j
  insts : ∀ d, (q.block d).insts = if d = b then (p.block d).insts.erase i else (p.block d).insts
  parent : ∀ d, (q.block d).parent = (p.block d).parent
  edged : ∀ {live}, p.Edged live → q.Edged (Function.update live b
    (if (p.inst i).op.isTerminator then [] else (live b).erase i))

theorem mem_of_remove? (h : p.remove? b i = some q) : i ∈ (p.block b).insts := by
  unfold remove? at h
  split at h
  · assumption
  · cases h

theorem removed_of_remove? (h : p.remove? b i = some q) (hparent : (p.block b).parent.isSome = true)
    (hi : i < p.insts.size) : p.Removed q b i := by
  let r := (p.modifyBlock b fun blk => { blk with insts := blk.insts.erase i }).modifyInst i
    fun inst => { inst with block := none }
  have hinst (j : InstId) :
      r.inst j = if j = i then { p.inst j with block := none } else p.inst j :=
    inst_modifyInst_of_lt _ hi _ j
  have hop (j : InstId) : (r.inst j).op = (p.inst j).op := by
    rw [hinst]
    split <;> rfl
  have hblock (d : BlockId) : r.block d = { p.block d with
      insts := if d = b then (p.block d).insts.erase i else (p.block d).insts } := by
    refine (block_modifyBlock_of_default _ _ _ rfl).trans ?_
    by_cases hd : d = b
    · rw [if_pos hd, if_pos hd]
    · rw [if_neg hd, if_neg hd]
  have hedged {live : BlockId → List InstId} (h : p.Edged live) : r.Edged live :=
    h.congr_op (fun d => by rw [hblock]) (fun d => by rw [hblock]) fun _ _ _ => hop _
  have hsize : r.insts.size = p.insts.size := Array.size_modify
  have hq : q = if (p.inst i).op.isTerminator then r.unlink b else r := by
    have hcond : ((r.inst i).op.isTerminator && (r.block b).parent.isSome) =
        (p.inst i).op.isTerminator := by
      rw [hop, hblock, hparent, Bool.and_true]
    rw [← hcond]
    exact (Option.some.inj ((if_pos (mem_of_remove? h)).symm.trans h)).symm
  subst hq
  cases hterm : (p.inst i).op.isTerminator with
  | false =>
    refine ⟨hsize, hinst, fun d => by rw [if_neg nofun, hblock],
      fun d => by rw [if_neg nofun, hblock],
      fun h => ?_⟩
    have hnone : branchEdges b (r.inst i).op = [] :=
      branchEdges_of_not_terminator ((hop i).symm ▸ hterm)
    simpa [hterm] using (hedged h).erase b hnone
  | true =>
    refine ⟨?_, fun j => ?_, fun d => ?_, fun d => ?_, fun h => ?_⟩
    · rw [if_pos rfl, insts_unlink, hsize]
    · rw [if_pos rfl, inst_unlink, hinst]
    · rw [if_pos rfl, block_unlink, hblock]
    · rw [if_pos rfl, block_unlink, hblock]
    · simpa [hterm] using (hedged h).unlink b

end BoxFlow.Program
