import BoxFlow.IR.Edit

/-!
# What the stores hold after an operation

For each operation of `BoxFlow.IR.Edit`, the block, instruction or function that is found under a
number afterwards. Nothing later looks into the stores themselves.
-/

namespace BoxFlow

namespace Program

variable {p : Program} {b b' : BlockId} {i j : InstId} {f f' : FuncId}

theorem lt_of_parent (h : (p.block b).parent = some f) : b < p.blocks.size := by
  refine Nat.lt_of_not_le fun hb => ?_
  rw [block, Array.getD_eq_getD_getElem?, Array.getElem?_eq_none (by assumption)] at h
  cases h

theorem lt_of_inst_block (h : (p.inst i).block = some b) : i < p.insts.size := by
  refine Nat.lt_of_not_le fun hi => ?_
  rw [inst, Array.getD_eq_getD_getElem?, Array.getElem?_eq_none (by assumption)] at h
  cases h

theorem lt_of_mem_blocks (h : b ∈ (p.func f).blocks) : f < p.funcs.size := by
  refine Nat.lt_of_not_le fun hf => ?_
  rw [func, Array.getD_eq_getD_getElem?, Array.getElem?_eq_none (by assumption)] at h
  cases h

/-! ## One place changed -/

theorem block_modifyBlock (p : Program) (b b' : BlockId) (g : Block → Block) :
    (p.modifyBlock b g).block b' =
      if b = b' ∧ b < p.blocks.size then g (p.block b') else p.block b' := by
  simp only [block, modifyBlock, Array.getD_eq_getD_getElem?, Array.getElem?_modify]
  by_cases h : b = b'
  · subst h
    by_cases hb : b < p.blocks.size
    · simp [hb]
    · simp [hb]
  · simp [h]

theorem block_modifyBlock_of_lt (p : Program) {b : BlockId} (hb : b < p.blocks.size)
    (g : Block → Block) (d : BlockId) :
    (p.modifyBlock b g).block d = if d = b then g (p.block d) else p.block d := by
  rw [block_modifyBlock]
  by_cases hd : d = b
  · rw [if_pos ⟨hd.symm, hb⟩, if_pos hd]
  · rw [if_neg fun h => hd h.1.symm, if_neg hd]

/-- A change to the list of a block changes no edge. -/
theorem edges_modifyInsts (p : Program) (b : BlockId) (g : List InstId → List InstId)
    (d : BlockId) :
    let q := p.modifyBlock b fun blk => { blk with insts := g blk.insts }
    (q.block d).successors = (p.block d).successors ∧
      (q.block d).predecessors = (p.block d).predecessors ∧
      (q.block d).parent = (p.block d).parent := by
  dsimp only
  rw [block_modifyBlock]
  split <;> exact ⟨rfl, rfl, rfl⟩

@[simp] theorem size_modifyBlock (p : Program) (b : BlockId) (g : Block → Block) :
    (p.modifyBlock b g).blocks.size = p.blocks.size := Array.size_modify

@[simp] theorem inst_modifyBlock (p : Program) (b : BlockId) (g : Block → Block) (i : InstId) :
    (p.modifyBlock b g).inst i = p.inst i := rfl

@[simp] theorem func_modifyBlock (p : Program) (b : BlockId) (g : Block → Block) (f : FuncId) :
    (p.modifyBlock b g).func f = p.func f := rfl

theorem inst_modifyInst (p : Program) (i j : InstId) (g : Inst → Inst) :
    (p.modifyInst i g).inst j =
      if i = j ∧ i < p.insts.size then g (p.inst j) else p.inst j := by
  simp only [inst, modifyInst, Array.getD_eq_getD_getElem?, Array.getElem?_modify]
  by_cases h : i = j
  · subst h
    by_cases hi : i < p.insts.size
    · simp [hi]
    · simp [hi]
  · simp [h]

theorem inst_modifyInst_of_lt (p : Program) {i : InstId} (hi : i < p.insts.size) (g : Inst → Inst)
    (j : InstId) : (p.modifyInst i g).inst j = if j = i then g (p.inst j) else p.inst j := by
  rw [inst_modifyInst]
  by_cases hj : j = i
  · rw [if_pos ⟨hj.symm, hi⟩, if_pos hj]
  · rw [if_neg fun h => hj h.1.symm, if_neg hj]

@[simp] theorem block_modifyInst (p : Program) (i : InstId) (g : Inst → Inst) (b : BlockId) :
    (p.modifyInst i g).block b = p.block b := rfl

@[simp] theorem func_modifyInst (p : Program) (i : InstId) (g : Inst → Inst) (f : FuncId) :
    (p.modifyInst i g).func f = p.func f := rfl

theorem func_modifyFunc (p : Program) (f f' : FuncId) (g : Func → Func) :
    (p.modifyFunc f g).func f' =
      if f = f' ∧ f < p.funcs.size then g (p.func f') else p.func f' := by
  simp only [func, modifyFunc, Array.getD_eq_getD_getElem?, Array.getElem?_modify]
  by_cases h : f = f'
  · subst h
    by_cases hf : f < p.funcs.size
    · simp [hf]
    · simp [hf]
  · simp [h]

/-! ## Names -/

@[simp] theorem block_claimName (p : Program) (f : FuncId) (n : String) (b : BlockId) :
    (p.claimName f n).block b = p.block b := rfl

@[simp] theorem inst_claimName (p : Program) (f : FuncId) (n : String) (i : InstId) :
    (p.claimName f n).inst i = p.inst i := rfl

@[simp] theorem blocks_claimName (p : Program) (f : FuncId) (n : String) (f' : FuncId) :
    ((p.claimName f n).func f').blocks = (p.func f').blocks := by
  rw [claimName, func_modifyFunc]
  split <;> rfl

@[simp] theorem params_claimName (p : Program) (f : FuncId) (n : String) (f' : FuncId) :
    ((p.claimName f n).func f').params = (p.func f').params := by
  rw [claimName, func_modifyFunc]
  split <;> rfl

/-! ## New things -/

theorem inst_newInst (p : Program) (new : Inst) (j : InstId) :
    (p.newInst new).2.inst j = if j = p.insts.size then new else p.inst j := by
  simp only [inst, newInst, Array.getD_eq_getD_getElem?, Array.getElem?_push]
  split <;> rfl

theorem func_newFunc (p : Program) (name : String) (result : Ty) (params : List (Ty × String))
    (attach : Bool) (f' : FuncId) :
    ((p.newFunc name result params attach).2.func f').blocks =
      if f' = p.funcs.size then [] else (p.func f').blocks := by
  simp only [func, newFunc, Array.getD_eq_getD_getElem?, Array.getElem?_push]
  split <;> rfl

theorem size_newFunc (p : Program) (name : String) (result : Ty) (params : List (Ty × String))
    (attach : Bool) : (p.newFunc name result params attach).2.funcs.size = p.funcs.size + 1 :=
  Array.size_push ..

/-- The block that `addBlock` makes is empty, so only its label, number and function are new. -/
theorem block_addBlock (p : Program) (f : FuncId) (hint : String) (b : BlockId) :
    ((p.addBlock f hint).2.block b).insts = (p.block b).insts ∧
    ((p.addBlock f hint).2.block b).successors = (p.block b).successors ∧
    ((p.addBlock f hint).2.block b).predecessors = (p.block b).predecessors ∧
    ((p.addBlock f hint).2.block b).parent =
      if b = p.blocks.size then some f else (p.block b).parent := by
  simp only [addBlock, block, modifyFunc, freshName, claimName, Array.getD_eq_getD_getElem?,
    Array.getElem?_push]
  split
  · next h => subst h; simp; exact ⟨rfl, rfl, rfl⟩
  · exact ⟨rfl, rfl, rfl, rfl⟩

theorem func_addBlock (p : Program) {f : FuncId} (hf : f < p.funcs.size) (hint : String)
    (f' : FuncId) : ((p.addBlock f hint).2.func f').blocks =
      if f' = f then (p.func f').blocks ++ [p.blocks.size] else (p.func f').blocks := by
  have hsize : f < (p.freshName f hint).2.funcs.size := by
    simpa [freshName, claimName, modifyFunc] using hf
  have hblocks : ((p.freshName f hint).2.func f').blocks = (p.func f').blocks :=
    blocks_claimName ..
  rw [← hblocks]
  refine (congrArg Func.blocks (func_modifyFunc _ f f' _)).trans ?_
  by_cases h : f = f'
  · subst h
    rw [if_pos ⟨rfl, hsize⟩, if_pos rfl]
    rfl
  · rw [if_neg (fun h' => h h'.1), if_neg (Ne.symm h)]
    rfl

/-! ## Edges -/

theorem block_linkEdge {e : Edge} (hs : e.source < p.blocks.size) (ht : e.target < p.blocks.size)
    (b : BlockId) : (p.linkEdge e).block b = { p.block b with
      successors := (p.block b).successors ++ if e.source = b then [e] else []
      predecessors := (p.block b).predecessors ++ if e.target = b then [e] else [] } := by
  rw [linkEdge, block_modifyBlock, block_modifyBlock]
  simp only [size_modifyBlock, hs, ht, and_true]
  by_cases h : e.source = b <;> by_cases h' : e.target = b <;> simp [h, h']

@[simp] theorem size_linkEdge (p : Program) (e : Edge) :
    (p.linkEdge e).blocks.size = p.blocks.size := by
  simp [linkEdge]

theorem link_foldl {es : List Edge} (hs : ∀ e ∈ es, e.source < p.blocks.size)
    (ht : ∀ e ∈ es, e.target < p.blocks.size) (b : BlockId) :
    (es.foldl linkEdge p).block b = { p.block b with
      successors := (p.block b).successors ++ es.filter (·.source = b)
      predecessors := (p.block b).predecessors ++ es.filter (·.target = b) } := by
  induction es generalizing p with
  | nil => simp
  | cons e es ih =>
    rw [List.foldl_cons, ih (by simpa using fun e he => hs e (List.mem_cons_of_mem _ he))
      (by simpa using fun e he => ht e (List.mem_cons_of_mem _ he)),
      block_linkEdge (hs e List.mem_cons_self) (ht e List.mem_cons_self)]
    by_cases h : e.source = b <;> by_cases h' : e.target = b <;> simp [h, h']

theorem inst_link (p : Program) (b : BlockId) (op : Op) (i : InstId) :
    (p.link b op).inst i = p.inst i := by
  have hfold (es : List Edge) (p : Program) : (es.foldl linkEdge p).inst i = p.inst i := by
    induction es generalizing p with
    | nil => rfl
    | cons e es ih => rw [List.foldl_cons, ih]; rfl
  exact hfold ..

theorem func_link (p : Program) (b : BlockId) (op : Op) (f : FuncId) :
    (p.link b op).func f = p.func f := by
  have hfold (es : List Edge) (p : Program) : (es.foldl linkEdge p).func f = p.func f := by
    induction es generalizing p with
    | nil => rfl
    | cons e es ih => rw [List.foldl_cons, ih]; rfl
  exact hfold ..

theorem source_of_mem_branchEdges {op : Op} {e : Edge} (h : e ∈ branchEdges b op) :
    e.source = b ∧ e.target ∈ op.blocks := by
  have hzip (ts : List BlockId) (ks : List EdgeKind)
      (h : e ∈ List.zipWith (fun t kind => ⟨b, t, kind⟩) ts ks) : e.source = b ∧ e.target ∈ ts := by
    induction ts generalizing ks with
    | nil => simp at h
    | cons t ts ih =>
      cases ks with
      | nil => simp at h
      | cons k ks =>
        rcases List.mem_cons.1 h with rfl | h
        · exact ⟨rfl, List.mem_cons_self⟩
        · exact (ih ks h).imp_right (List.mem_cons_of_mem _)
  cases op with
  | br c targets =>
    cases c with
    | none =>
      obtain ⟨t, ht, rfl⟩ := List.mem_map.1 h
      exact ⟨rfl, List.mem_of_mem_take ht⟩
    | some c => exact hzip targets _ h
  | _ => cases h

/-! ## Instructions in blocks -/

section Adopt

variable (hparent : (p.block b).parent = some f)
  (htargets : ∀ t ∈ (p.inst i).op.blocks, t < p.blocks.size)
include hparent

/-- An instruction adopted by a block of a function knows its block and brings its edges. -/
theorem adopt_eq (i : InstId) : ∃ q : Program, p.adopt b i = q.link b (p.inst i).op ∧
    q.block = p.block ∧ q.blocks.size = p.blocks.size ∧
    q.inst = (p.modifyInst i fun inst => { inst with block := some b }).inst ∧
    (∀ f, (q.func f).blocks = (p.func f).blocks) ∧
    (∀ f, (q.func f).params = (p.func f).params) := by
  have hop : ((p.modifyInst i fun inst => { inst with block := some b }).inst i).op =
      (p.inst i).op := by
    rw [inst_modifyInst]
    split <;> rfl
  simp only [adopt, block_modifyInst, hparent, hop]
  split
  · exact ⟨_, rfl, rfl, rfl, rfl, by simp, by simp⟩
  · exact ⟨_, rfl, rfl, rfl, rfl, by simp, by simp⟩

theorem inst_adopt (i j : InstId) : (p.adopt b i).inst j =
    if i = j ∧ i < p.insts.size then { p.inst j with block := some b } else p.inst j := by
  obtain ⟨q, hq, -, -, hinst, -⟩ := adopt_eq hparent i
  rw [hq, inst_link, hinst, inst_modifyInst]

theorem blocks_adopt (i : InstId) (f' : FuncId) :
    ((p.adopt b i).func f').blocks = (p.func f').blocks := by
  obtain ⟨q, hq, -, -, -, hblocks, -⟩ := adopt_eq hparent i
  rw [hq, func_link, hblocks]

include htargets in
theorem block_adopt (b' : BlockId) : (p.adopt b i).block b' = { p.block b' with
    successors := (p.block b').successors ++ (branchEdges b (p.inst i).op).filter (·.source = b')
    predecessors :=
      (p.block b').predecessors ++ (branchEdges b (p.inst i).op).filter (·.target = b') } := by
  obtain ⟨q, hq, hblock, hsize, -⟩ := adopt_eq hparent i
  rw [hq, link, link_foldl, hblock]
  · intro e he
    rw [hsize, (source_of_mem_branchEdges he).1]
    exact lt_of_parent hparent
  · intro e he
    rw [hsize]
    exact htargets _ (source_of_mem_branchEdges he).2

theorem inst_append (i j : InstId) : (p.append b i).inst j =
    if i = j ∧ i < p.insts.size then { p.inst j with block := some b } else p.inst j := by
  have hp : ((p.modifyBlock b fun blk => { blk with insts := blk.insts ++ [i] }).block b).parent =
      some f := (p.edges_modifyInsts b (· ++ [i]) b).2.2.trans hparent
  rw [append, inst_adopt hp]
  rfl

theorem blocks_append (i : InstId) (f' : FuncId) :
    ((p.append b i).func f').blocks = (p.func f').blocks := by
  have hp : ((p.modifyBlock b fun blk => { blk with insts := blk.insts ++ [i] }).block b).parent =
      some f := (p.edges_modifyInsts b (· ++ [i]) b).2.2.trans hparent
  rw [append, blocks_adopt hp]
  rfl

include htargets in
theorem block_append (b' : BlockId) : (p.append b i).block b' = { p.block b' with
    insts := (p.block b').insts ++ if b = b' then [i] else []
    successors := (p.block b').successors ++ (branchEdges b (p.inst i).op).filter (·.source = b')
    predecessors :=
      (p.block b').predecessors ++ (branchEdges b (p.inst i).op).filter (·.target = b') } := by
  have hp : ((p.modifyBlock b fun blk => { blk with insts := blk.insts ++ [i] }).block b).parent =
      some f := (p.edges_modifyInsts b (· ++ [i]) b).2.2.trans hparent
  rw [append, block_adopt hp (by simpa using htargets), block_modifyBlock]
  by_cases h : b = b'
  · simp [h, lt_of_parent (h ▸ hparent)]
  · simp [h]

end Adopt

end Program

end BoxFlow
