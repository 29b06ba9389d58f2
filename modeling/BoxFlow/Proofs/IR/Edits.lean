import BoxFlow.Proofs.Ends
import BoxFlow.Proofs.IR.Forms
import BoxFlow.Proofs.IR.FreshNames
import BoxFlow.Proofs.IR.Growth
import BoxFlow.Proofs.IR.Linked

/-!
# What the edits of a rewriting do

A call put before an instruction (`Edit.ends_insert`), an instruction taken out of its block
(`Edit.ends_erase`) and an operand replaced throughout a function
(`Program.replaceAllUses_substituted`), each by what the program is like afterwards. The items of
the module stay as they are (`Program.SameItems`).
-/

namespace BoxFlow

namespace Program

variable {p q r : Program} {f : FuncId} {b : BlockId} {i j anchor : InstId}

/-! ## What no edit changes -/

/-- `q` has the items of `p`; function `f` may have given away more names. -/
structure SameItems (p q : Program) (f : FuncId) : Prop where
  name : q.name = p.name
  functions : q.functions = p.functions
  globals : q.globals = p.globals
  declarations : q.declarations = p.declarations
  func : ∀ g, q.func g = { p.func g with names := (q.func g).names }
  others : ∀ g ≠ f, (q.func g).names = (p.func g).names
  given : (p.func f).names ⊆ (q.func f).names

namespace SameItems

theorem of_func (hname : q.name = p.name) (hfunctions : q.functions = p.functions)
    (hglobals : q.globals = p.globals) (hdecls : q.declarations = p.declarations)
    (hfunc : ∀ g, q.func g = p.func g) : p.SameItems q f where
  name := hname
  functions := hfunctions
  globals := hglobals
  declarations := hdecls
  func g := by rw [hfunc]
  others g _ := by rw [hfunc]
  given := by rw [hfunc]; exact List.Subset.refl _

theorem refl (p : Program) (f : FuncId) : p.SameItems p f := of_func rfl rfl rfl rfl fun _ => rfl

theorem trans (h : p.SameItems q f) (h' : q.SameItems r f) : p.SameItems r f where
  name := h'.name.trans h.name
  functions := h'.functions.trans h.functions
  globals := h'.globals.trans h.globals
  declarations := h'.declarations.trans h.declarations
  func g := by rw [h'.func, h.func]
  others g hg := (h'.others g hg).trans (h.others g hg)
  given := List.Subset.trans h.given h'.given

/-- What has been changed elsewhere before does not matter. -/
theorem congr (h : r.SameItems q f) (hname : r.name = p.name)
    (hfunctions : r.functions = p.functions) (hglobals : r.globals = p.globals)
    (hdecls : r.declarations = p.declarations) (hfunc : ∀ g, r.func g = p.func g) :
    p.SameItems q f := (of_func hname hfunctions hglobals hdecls hfunc).trans h

theorem claimName (p : Program) (f : FuncId) (n : String) : p.SameItems (p.claimName f n) f where
  name := rfl
  functions := rfl
  globals := rfl
  declarations := rfl
  func g := by
    rw [Program.claimName, func_modifyFunc]
    split <;> rfl
  others g hg := by rw [Program.claimName, func_modifyFunc, if_neg fun h => hg h.1.symm]
  given := by
    rw [Program.claimName, func_modifyFunc]
    split
    · exact List.subset_cons_self _ _
    · exact List.Subset.refl _

theorem link (p : Program) (b : BlockId) (op : Op) : p.SameItems (p.link b op) f := by
  have hfold (es : List Edge) (p : Program) : p.SameItems (es.foldl linkEdge p) f := by
    induction es generalizing p with
    | nil => exact refl p f
    | cons e es ih => exact (ih (p.linkEdge e)).congr rfl rfl rfl rfl fun _ => rfl
  exact hfold ..

theorem unlink (p : Program) (b : BlockId) : p.SameItems (p.unlink b) f := by
  have hfold (es : List Edge) (p : Program) : p.SameItems (es.foldl (fun p e =>
      p.modifyBlock e.target fun blk =>
        { blk with predecessors := blk.predecessors.filter (·.source ≠ b) }) p) f := by
    induction es generalizing p with
    | nil => exact refl p f
    | cons e es ih => exact (ih (p.modifyBlock e.target _)).congr rfl rfl rfl rfl fun _ => rfl
  exact (hfold (p.block b).successors p).trans (of_func rfl rfl rfl rfl fun _ => rfl)

theorem adopt (hb : (p.block b).parent = some f) (i : InstId) : p.SameItems (p.adopt b i) f := by
  unfold Program.adopt
  simp only [block_modifyInst, hb]
  refine SameItems.trans ?_ (link _ b _)
  split
  · exact (claimName (p.modifyInst i _) f _).congr rfl rfl rfl rfl fun _ => rfl
  · exact of_func rfl rfl rfl rfl fun _ => rfl

theorem insertBefore? (hb : (p.block b).parent = some f) (h : p.insertBefore? b i anchor = some q) :
    p.SameItems q f := by
  unfold Program.insertBefore? at h
  split at h
  · cases h
    refine (adopt (p := p.modifyBlock b _) ?_ i).congr rfl rfl rfl rfl fun _ => rfl
    rw [block_modifyBlock]
    split <;> exact hb
  · cases h

theorem remove? (h : p.remove? b i = some q) : p.SameItems q f := by
  unfold Program.remove? at h
  split at h
  · cases h
    split
    · exact (unlink ((p.modifyBlock b _).modifyInst i _) b).congr rfl rfl rfl rfl fun _ => rfl
    · exact of_func rfl rfl rfl rfl fun _ => rfl
  · cases h

theorem replaceAllUses (p : Program) (f : FuncId) (old new : Value) :
    p.SameItems (p.replaceAllUses f old new).2 f := by
  have hfold (l : List InstId) (n : Nat) (r : Program) : r.SameItems
      (l.foldl (fun t i => (t.1 + t.2.usesIn old i, t.2.replaceUses i old new)) (n, r)).2 f := by
    induction l generalizing n r with
    | nil => exact refl r f
    | cons i l ih =>
      exact (ih _ (r.replaceUses i old new)).congr rfl rfl rfl rfl fun _ => rfl
  exact hfold ..

end SameItems

/-- Instruction `i` stands in block `b` of function `f`. -/
structure Sits (p : Program) (f : FuncId) (b : BlockId) (i : InstId) : Prop where
  block : b ∈ (p.func f).blocks
  parent : (p.block b).parent = some f
  mem : i ∈ (p.block b).insts
  held : (p.inst i).block = some b

/-- What the result of a new instruction of function `f` is called: nothing if it is void, and
otherwise by a name that had not been given away, made from the hint. -/
def Christens (p q : Program) (f : FuncId) (ty : Ty) (hint : Option String) :
    Option String → Prop
  | none => ty = .void
  | some n => ty ≠ .void ∧ n ∉ (p.func f).names ∧ n ∈ (q.func f).names ∧
    ∃ h k, n = numbered h k ∧ (hint = some h ∨ h = "t" ∧ hint.all (·.isEmpty))

/-! ## Insertion -/

theorem insertBeforeFirst_append {pre post : List InstId} (h : anchor ∉ pre) (i : InstId) :
    insertBeforeFirst anchor i (pre ++ anchor :: post) = pre ++ i :: anchor :: post := by
  induction pre with
  | nil => simp [insertBeforeFirst]
  | cons j pre ih =>
    rw [List.mem_cons, not_or] at h
    rw [List.cons_append, insertBeforeFirst, if_neg (Ne.symm h.1), ih h.2, List.cons_append]

theorem perm_insertBeforeFirst (i : InstId) {is : List InstId} (h : anchor ∈ is) :
    (insertBeforeFirst anchor i is).Perm (i :: is) := by
  induction is with
  | nil => cases h
  | cons j is ih =>
    rw [insertBeforeFirst]
    split
    · exact .refl _
    · next hne =>
      have hmem := (List.mem_cons.1 h).resolve_left (Ne.symm hne)
      exact ((ih hmem).cons j).trans (.swap i j is)

/-- `q` is `p` with one more instruction, right before an anchor in block `b`. -/
structure Inserted (p q : Program) (b : BlockId) (anchor : InstId) (new : Inst) : Prop where
  size : q.insts.size = p.insts.size + 1
  inst : ∀ j, q.inst j = if j = p.insts.size then { new with block := some b } else p.inst j
  block : ∀ d, q.block d = if d = b then { p.block d with
    insts := insertBeforeFirst anchor p.insts.size (p.block d).insts } else p.block d
  blocks : ∀ g, (q.func g).blocks = (p.func g).blocks
  functions : q.functions = p.functions
  nextSerial : q.nextSerial = p.nextSerial

theorem insts_link (p : Program) (b : BlockId) (op : Op) : (p.link b op).insts = p.insts := by
  have hfold (es : List Edge) (p : Program) : (es.foldl linkEdge p).insts = p.insts := by
    induction es generalizing p with
    | nil => rfl
    | cons e es ih => exact ih _
  exact hfold _ p

theorem rest_adopt (p : Program) (b : BlockId) (i : InstId) :
    (p.adopt b i).functions = p.functions ∧ (p.adopt b i).nextSerial = p.nextSerial := by
  have hfold (es : List Edge) (p : Program) : (es.foldl linkEdge p).functions = p.functions ∧
      (es.foldl linkEdge p).nextSerial = p.nextSerial := by
    induction es generalizing p with
    | nil => exact ⟨rfl, rfl⟩
    | cons e es ih => exact ih _
  unfold adopt link
  dsimp only
  split
  · exact ⟨rfl, rfl⟩
  · rw [(hfold _ _).1, (hfold _ _).2]
    split <;> exact ⟨rfl, rfl⟩

theorem size_adopt (p : Program) (b : BlockId) (i : InstId) :
    (p.adopt b i).insts.size = p.insts.size := by
  have hmodify : (p.modifyInst i fun inst => { inst with block := some b }).insts.size =
      p.insts.size := Array.size_modify
  unfold adopt
  dsimp only
  split
  · exact hmodify
  · rw [insts_link]
    split
    · exact hmodify
    · exact hmodify

/-- What the functions have given away as names does not matter. -/
theorem Inserted.congr {r : Program} {new : Inst} (h : r.Inserted q b anchor new)
    (hinsts : r.insts = p.insts) (hblock : ∀ d, r.block d = p.block d)
    (hfunc : ∀ g, (r.func g).blocks = (p.func g).blocks) (hfuncs : r.functions = p.functions)
    (hserial : r.nextSerial = p.nextSerial) : p.Inserted q b anchor new where
  size := hinsts ▸ h.size
  inst j := by
    have hinst : r.inst j = p.inst j := by rw [Program.inst, hinsts]; rfl
    rw [h.inst, hinst, hinsts]
  block d := by rw [h.block, hblock, hinsts]
  blocks g := (h.blocks g).trans (hfunc g)
  functions := h.functions.trans hfuncs
  nextSerial := h.nextSerial.trans hserial

theorem mem_insertBeforeFirst {l : List InstId} (hj : j ∈ l) (i anchor : InstId) :
    j ∈ insertBeforeFirst anchor i l := by
  induction l with
  | nil => exact hj
  | cons k l ih =>
    rw [insertBeforeFirst]
    split
    · exact List.mem_cons_of_mem _ hj
    · rcases List.mem_cons.1 hj with rfl | hj
      · exact List.mem_cons_self
      · exact List.mem_cons_of_mem _ (ih hj)

/-- What stands in a block stays there. -/
theorem Inserted.sits {new : Inst} {d : BlockId} (h : p.Inserted q b anchor new)
    (hj : p.Sits f d j) : q.Sits f d j where
  block := by rw [h.blocks]; exact hj.block
  parent := by
    rw [h.block]
    split <;> exact hj.parent
  mem := by
    rw [h.block]
    split
    · exact mem_insertBeforeFirst hj.mem _ _
    · exact hj.mem
  held := by
    rw [h.inst, if_neg (Nat.ne_of_lt (lt_of_inst_block hj.held))]
    exact hj.held

namespace Inserted

variable {new : Inst} {d : BlockId} (h : p.Inserted q b anchor new)
  (ha : anchor ∈ (p.block b).insts)
include h ha

theorem insts_perm : (q.block b).insts.Perm (p.insts.size :: (p.block b).insts) := by
  rw [h.block, if_pos rfl]
  exact perm_insertBeforeFirst _ ha

variable (hheld : ∀ {d j}, j ∈ (p.block d).insts → (p.inst j).block = some d)
include hheld

theorem held (hj : j ∈ (q.block d).insts) : (q.inst j).block = some d := by
  have hold (hj : j ∈ (p.block d).insts) : (q.inst j).block = some d := by
    rw [h.inst, if_neg (Nat.ne_of_lt (lt_of_inst_block (hheld hj)))]
    exact hheld hj
  by_cases hd : d = b
  · subst hd
    rcases List.mem_cons.1 ((h.insts_perm ha).mem_iff.1 hj) with rfl | hj
    · rw [h.inst, if_pos rfl]
    · exact hold hj
  · rw [h.block, if_neg hd] at hj
    exact hold hj

theorem nodup (hnodup : (p.block d).insts.Nodup) : (q.block d).insts.Nodup := by
  by_cases hd : d = b
  · subst hd
    refine (h.insts_perm ha).nodup_iff.2 (List.nodup_cons.2 ⟨fun hmem => ?_, hnodup⟩)
    exact Nat.lt_irrefl _ (lt_of_inst_block (hheld hmem))
  · rw [h.block, if_neg hd]
    exact hnodup

end Inserted

/-- A new call can be put before every instruction of a block of a function. -/
theorem insertBefore?_inserted (hb : (p.block b).parent = some f)
    (ha : anchor ∈ (p.block b).insts) (new : Inst) (hop : new.op.isCall = true) :
    ∃ q, (p.newInst new).2.insertBefore? b p.insts.size anchor = some q ∧
      p.Inserted q b anchor new := by
  let r := (p.newInst new).2.modifyBlock b fun blk =>
    { blk with insts := insertBeforeFirst anchor p.insts.size blk.insts }
  have hr (d : BlockId) : r.block d = if d = b then { p.block d with
      insts := insertBeforeFirst anchor p.insts.size (p.block d).insts } else p.block d :=
    block_modifyBlock_of_lt (p.newInst new).2 (lt_of_parent hb) _ d
  have hparent : (r.block b).parent = some f := by rw [hr, if_pos rfl]; exact hb
  have hinst (j : InstId) : r.inst j = if j = p.insts.size then new else p.inst j :=
    inst_newInst p new j
  have hop' : (r.inst p.insts.size).op = new.op := by rw [hinst, if_pos rfl]
  have hedges : new.op.blocks = [] ∧ branchEdges b new.op = [] := by
    cases h : new.op <;> first | exact ⟨rfl, rfl⟩ | (rw [h] at hop; cases hop)
  refine ⟨r.adopt b p.insts.size, if_pos ha, ?_, fun j => ?_, fun d => ?_, fun g => ?_,
    (rest_adopt ..).1, (rest_adopt ..).2⟩
  · rw [size_adopt]
    exact Array.size_push ..
  · rw [inst_adopt hparent, hinst]
    by_cases h : j = p.insts.size
    · subst h
      rw [if_pos ⟨rfl, by simp [r, newInst, modifyBlock]⟩, if_pos rfl, if_pos rfl]
    · rw [if_neg (fun h' => h h'.1.symm), if_neg h, if_neg h]
  · rw [block_adopt hparent (by rw [hop', hedges.1]; simp), hop', hedges.2, hr]
    split <;> simp
  · rw [blocks_adopt hparent]
    rfl

/-! ## Removal -/

/-- `q` is `p` without an instruction of block `b`. -/
structure Erased (p q : Program) (b : BlockId) (i : InstId) : Prop where
  size : q.insts.size = p.insts.size
  inst : ∀ j, q.inst j = if j = i then { p.inst j with block := none } else p.inst j
  block : ∀ d, q.block d = if d = b then { p.block d with
    insts := (p.block d).insts.erase i } else p.block d
  blocks : ∀ g, (q.func g).blocks = (p.func g).blocks
  functions : q.functions = p.functions
  nextSerial : q.nextSerial = p.nextSerial

/-- Every instruction of a block of a function but a terminator can be taken out. -/
theorem remove?_erased (hb : (p.block b).parent = some f) (hi : i ∈ (p.block b).insts)
    (hheld : (p.inst i).block = some b) (hop : (p.inst i).op.isTerminator = false) :
    ∃ q, p.remove? b i = some q ∧ p.Erased q b i := by
  let r := (p.modifyBlock b fun blk => { blk with insts := blk.insts.erase i }).modifyInst i
    fun inst => { inst with block := none }
  have hinst (j : InstId) :
      r.inst j = if j = i then { p.inst j with block := none } else p.inst j :=
    inst_modifyInst_of_lt (p.modifyBlock b _) (lt_of_inst_block hheld) _ j
  have hkeep : p.remove? b i = some r := by
    have hterm : (r.inst i).op.isTerminator = false := by rw [hinst, if_pos rfl]; exact hop
    refine (if_pos hi).trans (congrArg some ?_)
    exact if_neg (by rw [hterm]; exact Bool.false_ne_true)
  exact ⟨r, hkeep, Array.size_modify, hinst, block_modifyBlock_of_lt p (lt_of_parent hb) _,
    fun g => rfl, rfl, rfl⟩

/-! ## Substitution -/

/-- The value in place of `v` when `old` becomes `new`. -/
def replaced (old new v : Value) : Value := if v = old then new else v

theorem replaced_replaced {old new : Value} (h : new ≠ old) (v : Value) :
    replaced old new (replaced old new v) = replaced old new v := by
  by_cases hv : v = old
  · rw [replaced, replaced, if_pos hv, if_neg h]
  · rw [replaced, replaced, if_neg hv, if_neg hv]

/-- `q` is `p` with one value for another in every operand of a function. -/
structure Substituted (p q : Program) (f : FuncId) (old new : Value) : Prop where
  size : q.insts.size = p.insts.size
  inst : ∀ j, q.inst j = if j ∈ p.instructions f ∧ j < p.insts.size then
    { p.inst j with op := (p.inst j).op.map (replaced old new) id } else p.inst j
  block : ∀ d, q.block d = p.block d
  blocks : ∀ g, (q.func g).blocks = (p.func g).blocks
  functions : q.functions = p.functions
  nextSerial : q.nextSerial = p.nextSerial

theorem replaceAllUses_substituted (p : Program) (f : FuncId) (old new : Value) (h : new ≠ old) :
    p.Substituted (p.replaceAllUses f old new).2 f old new := by
  have hfold (l : List InstId) (n : Nat) (r : Program) :
      let q := (l.foldl (fun t i => (t.1 + t.2.usesIn old i, t.2.replaceUses i old new)) (n, r)).2
      q.insts.size = r.insts.size ∧ (∀ d, q.block d = r.block d) ∧ (∀ g, q.func g = r.func g) ∧
        q.functions = r.functions ∧ q.nextSerial = r.nextSerial ∧
        ∀ j, q.inst j = if j ∈ l ∧ j < r.insts.size then
          { r.inst j with op := (r.inst j).op.map (replaced old new) id } else r.inst j := by
    induction l generalizing n r with
    | nil => simp
    | cons i l ih =>
      obtain ⟨hsize, hblock, hfunc, hfuncs, hserial, hinst⟩ :=
        ih (n + r.usesIn old i) (r.replaceUses i old new)
      have hsize' : (r.replaceUses i old new).insts.size = r.insts.size := Array.size_modify
      refine ⟨hsize.trans hsize', hblock, hfunc, hfuncs, hserial, fun j => ?_⟩
      rw [List.foldl_cons]
      dsimp only at hinst ⊢
      have hone : (r.replaceUses i old new).inst j = if i = j ∧ i < r.insts.size then
          { r.inst j with op := (r.inst j).op.map (replaced old new) id } else r.inst j :=
        inst_modifyInst ..
      rw [hinst, hsize', hone]
      by_cases hij : i = j
      · subst hij
        by_cases hlt : i < r.insts.size
        · -- Replaced once more, nothing changes.
          have hidem : replaced old new ∘ replaced old new = replaced old new :=
            funext (replaced_replaced h)
          simp [hlt, Form.map_map, hidem]
        · simp [hlt]
      · simp [hij, Ne.symm hij]
  obtain ⟨hsize, hblock, hfunc, hfuncs, hserial, hinst⟩ := hfold (p.instructions f) 0 p
  exact ⟨hsize, hinst, hblock, fun g => congrArg Func.blocks (hfunc g), hfuncs, hserial⟩

end Program

namespace Edit

open Program (SameItems firstUnused_not_mem firstUnused_spec)

variable {p : Program} {f : FuncId} {b : BlockId} {i anchor : InstId}

theorem ends_insert (ha : p.Sits f b anchor) (callee : String) (args : List Value) (ty : Ty)
    (hint : Option String) :
    Ends (insert ⟨b, some anchor⟩ (.call callee args) ty hint) p fun i q => i = p.insts.size ∧
      p.SameItems q f ∧ ∃ name, p.Christens q f ty hint name ∧
        p.Inserted q b anchor { op := .call callee args, ty, name } := by
  -- Only the record of the names given away may have changed before the call is put in.
  have hplace (r : Program) (name : Option String) (hinsts : r.insts = p.insts)
      (hblock : ∀ d, r.block d = p.block d) (hitems : p.SameItems r f)
      (hserial : r.nextSerial = p.nextSerial) (hname : p.Christens r f ty hint name) :
      Ends (do
        let i ← modifyGet (·.newInst { op := .call callee args, ty, name })
        put ⟨b, some anchor⟩ i
        return i) r fun i q => i = p.insts.size ∧
          p.SameItems q f ∧ ∃ name, p.Christens q f ty hint name ∧
            p.Inserted q b anchor { op := .call callee args, ty, name } := by
    have hbr : (r.block b).parent = some f := by rw [hblock]; exact ha.parent
    obtain ⟨q, hq, hins⟩ := Program.insertBefore?_inserted (p := r) hbr
      (by rw [hblock]; exact ha.mem) { op := .call callee args, ty, name } rfl
    have hadded : r.SameItems q f :=
      (SameItems.insertBefore? (p := (r.newInst _).2) hbr hq).congr rfl rfl rfl rfl fun _ => rfl
    refine .bind_modifyGet (.bind_ok (a := ()) (t := q) ?_ ?_)
    · show ofOption (fun s => s.insertBefore? b r.insts.size anchor) _ = _
      rw [ofOption, hq]
    · refine .pure ⟨congrArg Array.size hinsts, hitems.trans hadded, name, ?_,
        hins.congr hinsts hblock (fun g => by rw [hitems.func]) hitems.functions hserial⟩
      cases name with
      | none => exact hname
      | some n =>
        obtain ⟨hty, hnot, hmem, hbase⟩ := hname
        exact ⟨hty, hnot, hadded.given hmem, hbase⟩
  unfold insert
  refine .bind_get ?_
  simp only [ha.parent]
  split
  · next hty => exact hplace _ none rfl (fun _ => rfl) (.refl p f) rfl hty
  · next hty =>
    refine .bind_set (hplace _ (some _) rfl (fun _ => rfl) (.claimName ..) rfl ⟨hty, ?_, ?_, ?_⟩)
    · exact firstUnused_not_mem (p.func f).names _
    · exact (Program.names_claimName (Program.lt_of_mem_blocks ha.block) _).symm ▸
        List.mem_cons_self
    · obtain ⟨k, hk⟩ := (firstUnused_spec (p.func f).names _).2
      refine ⟨_, k, hk, ?_⟩
      cases hint with
      | none => exact .inr ⟨rfl, rfl⟩
      | some h =>
        dsimp only
        split
        · next hempty => exact .inr ⟨rfl, hempty⟩
        · exact .inl rfl

/-- An instruction that is in a block can be erased. -/
theorem ends_erase (hi : p.Sits f b i) (hop : (p.inst i).op.isTerminator = false) :
    Ends (erase i) p fun _ q => p.SameItems q f ∧ p.Erased q b i := by
  obtain ⟨q, hq, herased⟩ := Program.remove?_erased hi.parent hi.mem hi.held hop
  unfold erase
  refine .bind_get ?_
  simp only [hi.held]
  exact .ok (by rw [ofOption, hq]) ⟨.remove? hq, herased⟩

end Edit

end BoxFlow
