import BoxFlow.Proofs.IR.Stores

/-!
# Programs that grow

What a listing shows of a function, a block and an instruction, and what the operations that build
a program do to it. Two programs may look alike (`Program.LooksLike`), and one program may have
become another by growing, so that all that it showed is still there (`Program.Extends`).
-/

namespace BoxFlow

/-- The function without the names that it has given away. -/
def Func.shown (fn : Func) : Func := { fn with names := [], nextNumber := 0 }

/-- The label and the instructions of the block. -/
def Block.shown (b : Block) : Block := { label := b.label, insts := b.insts }

/-- The instruction, wherever it is. -/
def Inst.shown (i : Inst) : Inst := { i with block := none }

theorem Func.of_shown {a b : Func} (h : a.shown = b.shown) :
    a.name = b.name ∧ a.result = b.result ∧ a.params = b.params ∧ a.blocks = b.blocks := by
  cases a
  cases b
  simp_all [shown]

theorem Block.of_shown {a b : Block} (h : a.shown = b.shown) :
    a.label = b.label ∧ a.insts = b.insts := by
  cases a
  cases b
  simp_all [shown]

theorem Inst.of_shown {a b : Inst} (h : a.shown = b.shown) :
    a.op = b.op ∧ a.ty = b.ty ∧ a.name = b.name := by
  cases a
  cases b
  simp_all [shown]

namespace Program

variable {p q r : Program} {b : BlockId} {f : FuncId}

/-! ## Looking alike -/

/-- The same is shown of both programs, under the same numbers. -/
structure LooksLike (p q : Program) : Prop where
  functions : q.functions = p.functions
  globals : q.globals = p.globals
  declarations : q.declarations = p.declarations
  funcs_size : q.funcs.size = p.funcs.size
  blocks_size : q.blocks.size = p.blocks.size
  insts_size : q.insts.size = p.insts.size
  func : ∀ f, (q.func f).shown = (p.func f).shown
  block : ∀ b, (q.block b).shown = (p.block b).shown
  inst : ∀ i, (q.inst i).shown = (p.inst i).shown

namespace LooksLike

theorem refl (p : Program) : p.LooksLike p :=
  ⟨rfl, rfl, rfl, rfl, rfl, rfl, fun _ => rfl, fun _ => rfl, fun _ => rfl⟩

theorem trans (h : p.LooksLike q) (h' : q.LooksLike r) : p.LooksLike r where
  functions := h'.functions.trans h.functions
  globals := h'.globals.trans h.globals
  declarations := h'.declarations.trans h.declarations
  funcs_size := h'.funcs_size.trans h.funcs_size
  blocks_size := h'.blocks_size.trans h.blocks_size
  insts_size := h'.insts_size.trans h.insts_size
  func f := (h'.func f).trans (h.func f)
  block b := (h'.block b).trans (h.block b)
  inst i := (h'.inst i).trans (h.inst i)

theorem claimName (p : Program) (f : FuncId) (n : String) : p.LooksLike (p.claimName f n) where
  functions := rfl
  globals := rfl
  declarations := rfl
  funcs_size := Array.size_modify
  blocks_size := rfl
  insts_size := rfl
  func f' := by
    rw [Program.claimName, func_modifyFunc]
    split <;> rfl
  block _ := rfl
  inst _ := rfl

theorem modifyInst (p : Program) (i : InstId) (b : Option BlockId) :
    p.LooksLike (p.modifyInst i fun inst => { inst with block := b }) where
  functions := rfl
  globals := rfl
  declarations := rfl
  funcs_size := rfl
  blocks_size := rfl
  insts_size := Array.size_modify
  func _ := rfl
  block _ := rfl
  inst j := by
    rw [inst_modifyInst]
    split <;> rfl

theorem linkEdge (p : Program) (e : Edge) : p.LooksLike (p.linkEdge e) where
  functions := rfl
  globals := rfl
  declarations := rfl
  funcs_size := rfl
  blocks_size := size_linkEdge p e
  insts_size := rfl
  func _ := rfl
  block b := by
    rw [Program.linkEdge, block_modifyBlock]
    split <;> rw [block_modifyBlock] <;> split <;> rfl
  inst _ := rfl

theorem link (p : Program) (b : BlockId) (op : Op) : p.LooksLike (p.link b op) := by
  have hfold (es : List Edge) (p : Program) : p.LooksLike (es.foldl Program.linkEdge p) := by
    induction es generalizing p with
    | nil => exact .refl p
    | cons e es ih => exact (linkEdge p e).trans (ih _)
  exact hfold ..

/-- Putting an instruction into a block changes what is not shown. -/
theorem adopt (p : Program) (b : BlockId) (i : InstId) : p.LooksLike (p.adopt b i) := by
  unfold Program.adopt
  have hinst := modifyInst p i (some b)
  dsimp only
  split
  · exact hinst
  · split
    · exact (hinst.trans (claimName ..)).trans (link ..)
    · exact hinst.trans (link ..)

end LooksLike

/-! ## Growing -/

/-- Everything that `p` shows is in `q`. -/
structure Extends (p q : Program) : Prop where
  globals : q.globals = p.globals
  declarations : q.declarations = p.declarations
  funcs_size : p.funcs.size ≤ q.funcs.size
  blocks_size : p.blocks.size ≤ q.blocks.size
  insts_size : p.insts.size ≤ q.insts.size
  func : ∀ {f}, f < p.funcs.size → (q.func f).shown = (p.func f).shown
  block : ∀ {b}, b < p.blocks.size → (q.block b).shown = (p.block b).shown
  inst : ∀ {i}, i < p.insts.size → (q.inst i).shown = (p.inst i).shown

theorem LooksLike.toExtends (h : p.LooksLike q) : p.Extends q where
  globals := h.globals
  declarations := h.declarations
  funcs_size := Nat.le_of_eq h.funcs_size.symm
  blocks_size := Nat.le_of_eq h.blocks_size.symm
  insts_size := Nat.le_of_eq h.insts_size.symm
  func _ := h.func _
  block _ := h.block _
  inst _ := h.inst _

namespace Extends

theorem refl (p : Program) : p.Extends p := (LooksLike.refl p).toExtends

theorem trans (h : p.Extends q) (h' : q.Extends r) : p.Extends r where
  globals := h'.globals.trans h.globals
  declarations := h'.declarations.trans h.declarations
  funcs_size := Nat.le_trans h.funcs_size h'.funcs_size
  blocks_size := Nat.le_trans h.blocks_size h'.blocks_size
  insts_size := Nat.le_trans h.insts_size h'.insts_size
  func hf := (h'.func (Nat.lt_of_lt_of_le hf h.funcs_size)).trans (h.func hf)
  block hb := (h'.block (Nat.lt_of_lt_of_le hb h.blocks_size)).trans (h.block hb)
  inst hi := (h'.inst (Nat.lt_of_lt_of_le hi h.insts_size)).trans (h.inst hi)

end Extends

/-! ## New functions and blocks -/

theorem names_claimName (hf : f < p.funcs.size) (n : String) :
    ((p.claimName f n).func f).names = n :: (p.func f).names := by
  rw [claimName, func_modifyFunc, if_pos ⟨rfl, hf⟩]

theorem func_newFunc_eq (p : Program) (name : String) (result : Ty) (params : List (Ty × String))
    (f : FuncId) : (p.newFunc name result params).2.func f = if f = p.funcs.size then
      { name, result, params, names := (params.map (·.2)).reverse } else p.func f := by
  simp only [func, newFunc, Array.getD_eq_getD_getElem?, Array.getElem?_push]
  split <;> rfl

theorem Extends.newFunc (p : Program) (name : String) (result : Ty) (params : List (Ty × String)) :
    p.Extends (p.newFunc name result params).2 where
  globals := rfl
  declarations := rfl
  funcs_size := by rw [size_newFunc]; exact Nat.le_succ _
  blocks_size := Nat.le_refl _
  insts_size := Nat.le_refl _
  func hf := by rw [func_newFunc_eq, if_neg (Nat.ne_of_lt hf)]
  block _ := rfl
  inst _ := rfl

theorem func_addBlock_eq (hf : f < p.funcs.size) (hint : String) (f' : FuncId) :
    (p.addBlock f hint).2.func f' = if f' = f then
      { p.func f with
        blocks := (p.func f).blocks ++ [p.blocks.size]
        names := firstUnused (p.func f).names hint :: (p.func f).names
        nextNumber := (p.func f).nextNumber + 1 }
      else p.func f' := by
  have hsize : f < (p.freshName f hint).2.funcs.size := by
    simpa [freshName, claimName, modifyFunc] using hf
  have hclaim (f' : FuncId) : (p.freshName f hint).2.func f' =
      if f = f' ∧ f < p.funcs.size then
        { p.func f' with names := firstUnused (p.func f).names hint :: (p.func f').names }
      else p.func f' := func_modifyFunc ..
  refine (func_modifyFunc _ f f' _).trans ?_
  show (if f = f' ∧ f < (p.freshName f hint).2.funcs.size then
      { (p.freshName f hint).2.func f' with
        blocks := ((p.freshName f hint).2.func f').blocks ++ [p.blocks.size]
        nextNumber := ((p.freshName f hint).2.func f').nextNumber + 1 }
    else (p.freshName f hint).2.func f') = _
  rw [hclaim]
  by_cases h : f' = f
  · subst h
    simp [hsize, hf]
  · simp [h, Ne.symm h]

theorem block_addBlock_eq (p : Program) (f : FuncId) (hint : String) (b : BlockId) :
    ((p.addBlock f hint).2.block b).shown = if b = p.blocks.size then
      { label := firstUnused (p.func f).names hint } else (p.block b).shown := by
  simp only [addBlock, block, modifyFunc, freshName, claimName, Array.getD_eq_getD_getElem?,
    Array.getElem?_push]
  split <;> rfl

theorem blocks_size_addBlock (p : Program) (f : FuncId) (hint : String) :
    (p.addBlock f hint).2.blocks.size = p.blocks.size + 1 := Array.size_push _

theorem funcs_size_addBlock (p : Program) (f : FuncId) (hint : String) :
    (p.addBlock f hint).2.funcs.size = p.funcs.size := by
  simp [addBlock, modifyFunc, freshName, claimName]

/-- A function that is not in `p` grows at its end by a new block. -/
theorem Extends.addBlock (h : p.Extends q) (hf : p.funcs.size ≤ f) (hfq : f < q.funcs.size)
    (hint : String) : p.Extends (q.addBlock f hint).2 where
  globals := h.globals
  declarations := h.declarations
  funcs_size := by rw [funcs_size_addBlock]; exact h.funcs_size
  blocks_size := by rw [blocks_size_addBlock]; exact Nat.le_succ_of_le h.blocks_size
  insts_size := h.insts_size
  func hf' := by
    rw [func_addBlock_eq hfq, if_neg (Nat.ne_of_lt (Nat.lt_of_lt_of_le hf' hf)), h.func hf']
  block hb := by
    rw [block_addBlock_eq, if_neg (Nat.ne_of_lt (Nat.lt_of_lt_of_le hb h.blocks_size)), h.block hb]
  inst := h.inst

/-! ## New instructions -/

/-- A new instruction at the end of a block. -/
def appendNew (p : Program) (b : BlockId) (new : Inst) : Program :=
  (p.newInst new).2.append b p.insts.size

/-- Apart from the new instruction and its block, all looks the same. -/
theorem appendNew_rest (p : Program) (b : BlockId) (new : Inst) :
    (p.appendNew b new).functions = p.functions ∧ (p.appendNew b new).globals = p.globals ∧
      (p.appendNew b new).declarations = p.declarations ∧
      (p.appendNew b new).funcs.size = p.funcs.size ∧
      (p.appendNew b new).blocks.size = p.blocks.size ∧
      (p.appendNew b new).insts.size = p.insts.size + 1 ∧
      ∀ f, ((p.appendNew b new).func f).shown = (p.func f).shown := by
  have h := LooksLike.adopt ((p.newInst new).2.modifyBlock b fun blk =>
    { blk with insts := blk.insts ++ [p.insts.size] }) b p.insts.size
  exact ⟨h.functions, h.globals, h.declarations, h.funcs_size,
    h.blocks_size.trans (size_modifyBlock ..), h.insts_size.trans (Array.size_push _), h.func⟩

theorem inst_appendNew (p : Program) (b : BlockId) (new : Inst) (i : InstId) :
    ((p.appendNew b new).inst i).shown =
      if i = p.insts.size then new.shown else (p.inst i).shown := by
  have h := LooksLike.adopt ((p.newInst new).2.modifyBlock b fun blk =>
    { blk with insts := blk.insts ++ [p.insts.size] }) b p.insts.size
  refine (h.inst i).trans ?_
  rw [inst_modifyBlock, inst_newInst]
  split <;> rfl

/-- The block grows at its end. -/
theorem block_appendNew (hb : b < p.blocks.size) (new : Inst) (b' : BlockId) :
    ((p.appendNew b new).block b').label = (p.block b').label ∧
      ((p.appendNew b new).block b').insts =
        (p.block b').insts ++ if b = b' then [p.insts.size] else [] := by
  have h := LooksLike.adopt ((p.newInst new).2.modifyBlock b fun blk =>
    { blk with insts := blk.insts ++ [p.insts.size] }) b p.insts.size
  have hblock := block_modifyBlock (p.newInst new).2 b b' fun blk =>
    { blk with insts := blk.insts ++ [p.insts.size] }
  refine ⟨(congrArg Block.label (h.block b')).trans ?_,
    (congrArg Block.insts (h.block b')).trans ?_⟩
  · rw [hblock]
    split <;> rfl
  · rw [hblock]
    by_cases heq : b = b'
    · subst heq
      rw [if_pos ⟨rfl, hb⟩, if_pos rfl]
      rfl
    · rw [if_neg fun h => heq h.1, if_neg heq, List.append_nil]
      rfl

/-- A block that is not in `p` grows at its end. -/
theorem Extends.appendNew (h : p.Extends q) (hb : p.blocks.size ≤ b) (hbq : b < q.blocks.size)
    (new : Inst) : p.Extends (q.appendNew b new) := by
  obtain ⟨-, hglobals, hdecls, hfuncs, hblocks, hinsts, hfunc⟩ := appendNew_rest q b new
  refine ⟨hglobals.trans h.globals, hdecls.trans h.declarations, hfuncs ▸ h.funcs_size,
    hblocks ▸ h.blocks_size, hinsts ▸ Nat.le_succ_of_le h.insts_size,
    fun hf => (hfunc _).trans (h.func hf), fun {b'} hb' => ?_, fun hi => ?_⟩
  · have hne : b ≠ b' := Nat.ne_of_gt (Nat.lt_of_lt_of_le hb' hb)
    obtain ⟨hlabel, hinsts⟩ := block_appendNew hbq new b'
    rw [if_neg hne, List.append_nil] at hinsts
    rw [← h.block hb', Block.shown, Block.shown, hlabel, hinsts]
  · rw [inst_appendNew, if_neg (Nat.ne_of_lt (Nat.lt_of_lt_of_le hi h.insts_size)), h.inst hi]

end Program

end BoxFlow
