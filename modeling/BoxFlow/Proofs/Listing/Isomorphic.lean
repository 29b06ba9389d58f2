import BoxFlow.Proofs.IR.Edges
import BoxFlow.Proofs.IR.Forms
import BoxFlow.Proofs.IR.WellFormed
import BoxFlow.Proofs.Lists
import BoxFlow.Proofs.Listing.Listable

/-!
# Programs that differ in numbering only

`Program.Isomorphic` compares two programs place by place: the same names, types and operations in
the same order, with operands and blocks that are in the same places. If the edges of a function say
what its branches say (`Program.Tied`), what the structural checks and the check of the operations
find is the same on both sides (`SameFunc.wellFormed`, `SameFunc.fitsArity`). The texts are the same
(`Isomorphic.text_eq`).
-/

namespace BoxFlow.Program

variable {p q : Program} {f g : FuncId} {b d b' d' : BlockId} {i j : InstId} {v w : Value}

/-! ## The same, place by place -/

/-- What the instructions of a function can refer to by name within it. -/
def locals (p : Program) (f : FuncId) : List Value :=
  p.params f ++ (p.instructions f).map .inst

theorem inst_mem_locals : .inst i ∈ p.locals f ↔ i ∈ p.instructions f := by
  simp [locals, params, List.mem_mapIdx]

theorem filterMap_locals (p : Program) (f : FuncId) : (p.locals f).filterMap p.valueName? =
    (p.func f).params.map (·.2) ++ (p.instructions f).filterMap fun i => (p.inst i).name := by
  have hparams : (p.params f).filterMap p.valueName? = (p.func f).params.map (·.2) := by
    have hmap : (p.params f).map p.valueName? = (p.func f).params.map fun x => some x.2 :=
      List.ext_getElem (by simp [params]) fun n _ _ => by simp [params, valueName?]
    have h := congrArg (List.filterMap id) hmap
    rw [List.filterMap_map, List.filterMap_map] at h
    exact h.trans (congrFun List.filterMap_eq_map _)
  rw [locals, List.filterMap_append, List.filterMap_map, hparams]
  rfl

theorem nodup_locals (h : (p.localNames f).Nodup) :
    ((p.locals f).filterMap p.valueName?).Nodup := by
  rw [filterMap_locals]
  exact h.sublist ((List.sublist_append_left ..).append_right _)

theorem forall₂_params (h : (q.func g).params = (p.func f).params) : List.Forall₂
    (fun v w => ∃ a a', v = .param a ∧ w = .param a' ∧ a'.name = a.name ∧ a'.ty = a.ty)
    (p.params f) (q.params g) := by
  refine List.forall₂_of_length_eq_of_get (by simp [params, h]) fun n hn hn' => ?_
  simp [params, h]

/-- The same operand: a constant of the same value and type, or in the same place. -/
inductive SameValue (p : Program) (f : FuncId) (q : Program) (g : FuncId) : Value → Value → Prop
  | literal {l l' : Literal} : l'.value = l.value → l'.ty = l.ty →
    SameValue p f q g (.literal l) (.literal l')
  | global {x x' : String × Global} : (x, x') ∈ p.globals.zip q.globals →
    SameValue p f q g (.global x.2) (.global x'.2)
  | local_ {v w : Value} : (v, w) ∈ (p.locals f).zip (q.locals g) → SameValue p f q g v w

/-- The blocks are in the same place of their functions. -/
def SameBlock (p : Program) (f : FuncId) (q : Program) (g : FuncId) (b d : BlockId) : Prop :=
  (b, d) ∈ (p.func f).blocks.zip (q.func g).blocks

structure SameInst (p : Program) (f : FuncId) (q : Program) (g : FuncId) (i j : InstId) :
    Prop where
  ty : (q.inst j).ty = (p.inst i).ty
  name : (q.inst j).name = (p.inst i).name
  op : (p.inst i).op.Rel (p.SameValue f q g) (p.SameBlock f q g) (q.inst j).op

/-- The same function: blocks and instructions in the same order. -/
structure SameFunc (p : Program) (f : FuncId) (q : Program) (g : FuncId) : Prop where
  name : (q.func g).name = (p.func f).name
  result : (q.func g).result = (p.func f).result
  params : (q.func g).params = (p.func f).params
  blocks : List.Forall₂ (fun b d => q.label d = p.label b ∧
    List.Forall₂ (p.SameInst f q g) (p.block b).insts (q.block d).insts)
    (p.func f).blocks (q.func g).blocks

/-- The same module: globals, declarations and functions in the same order. -/
structure Isomorphic (p q : Program) : Prop where
  globals : List.Forall₂ (fun x y => y.1 = x.1 ∧ y.2.name = x.2.name ∧ y.2.cell = x.2.cell)
    p.globals q.globals
  declarations : q.declarations = p.declarations
  functions : List.Forall₂ (fun x y => y.1 = x.1 ∧ p.SameFunc x.2 q y.2) p.functions q.functions

/-! ## Edges that say what the branches say -/

/-- Branches stay in the function, a block has no terminator twice, and its predecessors are the
blocks of the function that branch to it. -/
structure Tied (p : Program) (f : FuncId) : Prop where
  targets : ∀ i ∈ p.instructions f, ∀ c ts, (p.inst i).op = .br c ts → ∀ t ∈ ts,
    t ∈ (p.func f).blocks
  once : ∀ b ∈ (p.func f).blocks, (p.terminators b).Nodup
  predecessors : ∀ b ∈ (p.func f).blocks, ∀ d, d ∈ p.predecessorBlocks b ↔
    d ∈ (p.func f).blocks ∧ ∃ i ∈ (p.block d).insts, ∃ e ∈ branchEdges d (p.inst i).op, e.target = b

/-- Where a branch goes in one program, it goes in the other. -/
theorem target_iff_of_rel {R : Value → Value → Prop} {S : BlockId → BlockId → Prop} {op op' : Op}
    (hS : Relator.BiUnique S) (h : op.Rel R S op') (hb : S b b') :
    (∃ e ∈ branchEdges d op, e.target = b) ↔ ∃ e ∈ branchEdges d' op', e.target = b' := by
  have hmem {bs ds : List BlockId} (h : List.Forall₂ S bs ds) : b ∈ bs ↔ b' ∈ ds :=
    List.rel_mem hS hb h
  have hjump (d b : BlockId) (ts : List BlockId) :
      (∃ e ∈ branchEdges d (.br none ts), e.target = b) ↔ b ∈ ts.take 1 := by
    cases ts <;> simp [branchEdges, eq_comm]
  have hbranch (d b : BlockId) (c : Value) (ts : List BlockId) :
      (∃ e ∈ branchEdges d (.br (some c) ts), e.target = b) ↔ b ∈ ts.take 2 := by
    rcases ts with _ | ⟨t, _ | ⟨t', ts⟩⟩ <;> simp [branchEdges, eq_comm]
  cases h with
  | jump h => rw [hjump, hjump, hmem (List.forall₂_take 1 h)]
  | branch _ h => rw [hbranch, hbranch, hmem (List.forall₂_take 2 h)]
  | _ => simp [branchEdges]

/-! ## What the checks look at -/

/-- The instructions are of the same type and do the same to what is in the same places. -/
structure SameKind (p : Program) (f : FuncId) (q : Program) (g : FuncId) (i j : InstId) :
    Prop where
  ty : (q.inst j).ty = (p.inst i).ty
  op : (p.inst i).op.Rel (p.SameValue f q g) (p.SameBlock f q g) (q.inst j).op

/-- The same function but for names and labels. -/
def SameShape (p : Program) (f : FuncId) (q : Program) (g : FuncId) : Prop :=
  List.Forall₂ (fun b d => List.Forall₂ (p.SameKind f q g) (p.block b).insts (q.block d).insts)
    (p.func f).blocks (q.func g).blocks

namespace SameShape

variable (h : p.SameShape f q g)
include h

theorem sameBlocks : List.Forall₂ (fun b d => p.SameBlock f q g b d ∧
    List.Forall₂ (p.SameKind f q g) (p.block b).insts (q.block d).insts)
    (p.func f).blocks (q.func g).blocks :=
  forall₂_place h

theorem insts (hb : p.SameBlock f q g b d) :
    List.Forall₂ (p.SameKind f q g) (p.block b).insts (q.block d).insts :=
  List.forall₂_zip h hb

theorem instructions :
    List.Forall₂ (p.SameKind f q g) (p.instructions f) (q.instructions g) :=
  forall₂_flatMap h fun _ _ hb => hb

/-! ## Blocks -/

/-- A block is what comes before its terminator, and the terminator. -/
theorem terminated (hp : p.Tied f) (hw : p.WellFormed f) (hb : p.SameBlock f q g b d) :
    ∃ js t, (q.block d).insts = js ++ [t] ∧ (q.inst t).op.isTerminator = true ∧
      ∀ j ∈ js, (q.inst j).op.isTerminator = false := by
  have hbp := (List.of_mem_zip hb).1
  obtain ⟨t, ht⟩ := Option.isSome_iff_exists.1 (hw.terminated b hbp)
  obtain ⟨hlast, hterm⟩ := Option.filter_eq_some_iff.1 ht
  obtain ⟨is, his⟩ := List.getLast?_eq_some_iff.1 hlast
  have hbefore : ∀ i ∈ is, (p.inst i).op.isTerminator = false := by
    intro i hi
    refine Bool.eq_false_iff.2 fun hit => ?_
    have heq := hw.last b hbp i (by rw [his]; exact List.mem_append_left _ hi) hit
    obtain rfl : i = t := Option.some.inj (heq.symm.trans hlast)
    have honce := hp.once b hbp
    rw [terminators, his, List.filter_append] at honce
    exact (List.nodup_append.1 honce).2.2 i (List.mem_filter.2 ⟨hi, hterm⟩) i
      (List.mem_filter.2 ⟨List.mem_singleton_self i, hterm⟩) rfl
  have hinsts := h.insts hb
  rw [his] at hinsts
  obtain ⟨js, ts, hjs, hbefore', hts⟩ := forall₂_append_left hinsts
  obtain ⟨t', ts', htt', hnil, rfl⟩ := List.forall₂_cons_left_iff.1 hts
  obtain rfl := List.forall₂_nil_left_iff.1 hnil
  refine ⟨js, t', hjs, htt'.op.isTerminator ▸ hterm, fun j hj => ?_⟩
  obtain ⟨i, hi, hij⟩ := exists_left_of_mem hbefore' hj
  rw [← hij.op.isTerminator]
  exact hbefore i hi

/-- Phis come first here if they do there. -/
theorem leading (hw : p.WellFormed f) (hphis : (p.phis b).Nodup) (hb : p.SameBlock f q g b d) :
    ∀ j ∈ q.phis d, j ∈ (q.block d).insts.take (q.phis d).length := by
  have hinsts := h.insts hb
  rw [insts_eq_phis_append_of_nodup (verify_eq_nil_iff.2 hw) (List.of_mem_zip hb).1 hphis] at hinsts
  obtain ⟨js, js', hjs, hphi, hbody⟩ := forall₂_append_left hinsts
  have hfilter : q.phis d = js := by
    rw [phis, hjs, List.filter_append, List.filter_eq_self.2, List.filter_eq_nil_iff.2,
      List.append_nil]
    · intro j hj
      obtain ⟨i, hi, hij⟩ := exists_left_of_mem hbody hj
      rw [← hij.op.isPhi]
      simpa using (List.mem_filter.1 hi).2
    · intro j hj
      obtain ⟨i, hi, hij⟩ := exists_left_of_mem hphi hj
      rw [← hij.op.isPhi]
      exact (List.mem_filter.1 hi).2
  rw [hfilter, hjs, List.take_left]
  exact fun _ => id

/-- The operations have what they take here if they have it there. -/
theorem fitsArity {o : Options} (harity : ∀ i ∈ p.instructions f, (p.inst i).FitsArity o) :
    ∀ j ∈ q.instructions g, (q.inst j).FitsArity o := by
  intro j hj callee ws op hop hkind
  obtain ⟨i, hi, hij⟩ := exists_left_of_mem h.instructions hj
  have hrel := hij.op
  rw [hop] at hrel
  cases hp : (p.inst i).op with
  | call callee' vs =>
    rw [hp] at hrel
    cases hrel with
    | call _ hargs =>
      obtain ⟨hlength, hresult⟩ := harity i hi _ _ op hp hkind
      refine ⟨hargs.length_eq.symm.trans hlength, fun hcreate => ?_⟩
      rw [Inst.hasResult, hij.ty]
      exact hresult hcreate
  | _ => rw [hp] at hrel; cases hrel

/-! ## Edges -/

variable (hpn : (p.func f).blocks.Nodup) (hqn : (q.func g).blocks.Nodup) (hp : p.Tied f)
  (hq : q.Tied g)
include hpn hqn hp hq

theorem mem_predecessorBlocks (hb : p.SameBlock f q g b b') (hd : p.SameBlock f q g d d') :
    d ∈ p.predecessorBlocks b ↔ d' ∈ q.predecessorBlocks b' := by
  obtain ⟨hbp, hbq⟩ := List.of_mem_zip hb
  obtain ⟨hdp, hdq⟩ := List.of_mem_zip hd
  rw [hp.predecessors b hbp, hq.predecessors b' hbq, and_iff_right hdp, and_iff_right hdq]
  exact exists_iff_of_forall₂ (h.insts hd) fun i j hij =>
    target_iff_of_rel (biUnique_zip hpn hqn) hij.op hb

theorem entry (hw : p.WellFormed f) :
    ∃ e, q.entry? g = some e ∧ (q.block e).predecessors = [] := by
  obtain ⟨e, he, hpred⟩ := hw.entry
  obtain ⟨es, hes⟩ := List.head?_eq_some_iff.1 he
  have hblocks := h.sameBlocks
  rw [hes] at hblocks
  obtain ⟨e', es', ⟨hsame, -⟩, -, hes'⟩ := List.forall₂_cons_left_iff.1 hblocks
  refine ⟨e', by rw [ entry?, hes']; rfl, ?_⟩
  rw [← List.map_eq_nil_iff (f := Edge.source)]
  refine List.eq_nil_iff_forall_not_mem.2 fun d' hd' => ?_
  obtain ⟨d, -, hd, -⟩ := exists_left_of_mem h.sameBlocks
    ((hq.predecessors e' (List.of_mem_zip hsame).2 d').1 hd').1
  have hmem := (h.mem_predecessorBlocks hpn hqn hp hq hsame hd).2 hd'
  rw [predecessorBlocks, hpred] at hmem
  cases hmem

/-- The structural checks find nothing here if they find nothing there. -/
theorem wellFormed (hphis : ∀ b ∈ (p.func f).blocks, (p.phis b).Nodup) (hw : p.WellFormed f) :
    q.WellFormed g := by
  have hleft {d : BlockId} (hd : d ∈ (q.func g).blocks) : ∃ b, p.SameBlock f q g b d := by
    obtain ⟨b, -, hb, -⟩ := exists_left_of_mem h.sameBlocks hd
    exact ⟨b, hb⟩
  refine ⟨h.entry hpn hqn hp hq hw, fun d hd => ?_, fun d hd => ?_, fun d hd j hj => ?_,
    fun d hd j hj hterm => ?_, fun j hj k hk => ?_⟩
  · obtain ⟨b, hb⟩ := hleft hd
    obtain ⟨js, t, hjs, ht, -⟩ := h.terminated hp hw hb
    simp [terminator?, hjs, ht]
  · obtain ⟨b, hb⟩ := hleft hd
    exact h.leading hw (hphis b (List.of_mem_zip hb).1) hb
  · obtain ⟨b, hb⟩ := hleft hd
    obtain ⟨hj, hphi⟩ := List.mem_filter.1 hj
    obtain ⟨i, hi, hij⟩ := exists_left_of_mem (h.insts hb) hj
    rw [← hij.op.isPhi] at hphi
    have hsources := sameMembers_iff.1
      (hw.sources b (List.of_mem_zip hb).1 i (List.mem_filter.2 ⟨hi, hphi⟩))
    have hmem {c c' : BlockId} (hc : p.SameBlock f q g c c') :
        c' ∈ (q.inst j).op.blocks ↔ c' ∈ q.predecessorBlocks d := by
      have hblocks : c ∈ (p.inst i).op.blocks ↔ c' ∈ (q.inst j).op.blocks :=
        List.rel_mem (biUnique_zip hpn hqn) hc hij.op.blocks
      rw [← hblocks, hsources, h.mem_predecessorBlocks hpn hqn hp hq hb hc]
    refine sameMembers_iff.2 fun c' => ⟨fun hc => ?_, fun hc => ?_⟩
    · obtain ⟨c, -, hsame⟩ := exists_left_of_mem hij.op.blocks hc
      exact (hmem hsame).1 hc
    · obtain ⟨c, hsame⟩ := hleft ((hq.predecessors d hd c').1 hc).1
      exact (hmem hsame).2 hc
  · obtain ⟨b, hb⟩ := hleft hd
    obtain ⟨js, t, hjs, -, hbefore⟩ := h.terminated hp hw hb
    rw [hjs] at hj ⊢
    rcases List.mem_append.1 hj with hj | hj
    · rw [hbefore j hj] at hterm
      cases hterm
    · rw [List.mem_singleton.1 hj, List.getLast?_append_cons, List.getLast?_singleton]
  · obtain ⟨i, -, hij⟩ := exists_left_of_mem h.instructions hj
    obtain ⟨v, -, hv⟩ := exists_left_of_mem hij.op.operands hk
    obtain _ | _ | hplace := hv
    exact inst_mem_locals.1 (List.of_mem_zip hplace).2

end SameShape

namespace SameFunc

variable (h : p.SameFunc f q g)
include h

theorem shape : p.SameShape f q g :=
  h.blocks.imp fun _ _ hb => hb.2.imp fun _ _ hi => ⟨hi.ty, hi.op⟩

theorem instructions :
    List.Forall₂ (p.SameInst f q g) (p.instructions f) (q.instructions g) :=
  forall₂_flatMap h.blocks fun _ _ hb => hb.2

theorem labels : (q.func g).blocks.map q.label = (p.func f).blocks.map p.label :=
  (map_eq_map (h.blocks.imp fun _ _ hb => hb.1.symm)).symm

theorem names : (q.instructions g).filterMap (fun j => (q.inst j).name) =
    (p.instructions f).filterMap fun i => (p.inst i).name := by
  have hnames : (p.instructions f).map (fun i => (p.inst i).name) =
      (q.instructions g).map fun j => (q.inst j).name :=
    map_eq_map (h.instructions.imp fun _ _ hi => hi.name.symm)
  have h := congrArg (List.filterMap id) hnames
  rw [List.filterMap_map, List.filterMap_map] at h
  exact h.symm

theorem localNames : q.localNames g = p.localNames f := by
  rw [Program.localNames, Program.localNames, h.params, h.labels, h.names]

/-- The structural checks find nothing here if they find nothing there. -/
theorem wellFormed (hnodup : (p.localNames f).Nodup) (hp : p.Tied f) (hq : q.Tied g)
    (hphis : ∀ b ∈ (p.func f).blocks, (p.phis b).Nodup) (hw : p.WellFormed f) :
    q.WellFormed g := by
  have hblocks (p : Program) (f : FuncId) (h : (p.localNames f).Nodup) :
      (p.func f).blocks.Nodup :=
    .of_map p.label (List.nodup_append.1 (List.nodup_append.1 h).1).2.1
  exact h.shape.wellFormed (hblocks p f hnodup) (hblocks q g (h.localNames ▸ hnodup)) hp hq hphis hw

end SameFunc

/-! ## Texts -/

theorem opText_eq_of_rel {R : Value → Value → Prop} {S : BlockId → BlockId → Prop} {op op' : Op}
    (h : op.Rel R S op') (hR : ∀ v w, R v w → q.ref w = p.ref v ∧ q.typedRef w = p.typedRef v)
    (hS : ∀ b d, S b d → q.label d = p.label b) (ty : Ty) : q.opText ty op' = p.opText ty op := by
  have htyped {vs ws : List Value} (h : List.Forall₂ R vs ws) :
      ws.map q.typedRef = vs.map p.typedRef :=
    (map_eq_map (h.imp fun v w hvw => (hR v w hvw).2.symm)).symm
  have hlabels {bs ds : List BlockId} (h : List.Forall₂ S bs ds) :
      (ds.map fun d => "label %" ++ q.label d) = bs.map fun b => "label %" ++ p.label b :=
    (map_eq_map (h.imp fun b d hbd => congrArg ("label %" ++ ·) (hS b d hbd).symm)).symm
  cases h with
  | alloca | leave | unreachable => rfl
  | load hv => rw [opText, opText, (hR _ _ hv).2]
  | store hv hc => rw [opText, opText, (hR _ _ hv).2, (hR _ _ hc).2]
  | phi h =>
    rw [opText, opText]
    refine congrArg ("phi " ++ ty.name ++ " " ++ ", ".intercalate ·) (map_eq_map ?_).symm
    exact h.imp fun x y hxy => by dsimp only; rw [(hR _ _ hxy.1).1, hS _ _ hxy.2]
  | select hc ht he =>
    rw [opText, opText, htyped (.cons hc (.cons ht (.cons he .nil)))]
  | call callee h => rw [opText, opText, htyped h]
  | jump h => simp only [opText, hlabels h]
  | branch hv h => simp only [opText, hlabels h, (hR _ _ hv).2]
  | ret hv => rw [opText, opText, (hR _ _ hv).2]

namespace SameFunc

variable (h : p.SameFunc f q g) (hglobals : List.Forall₂ (fun x y => y.1 = x.1 ∧
  y.2.name = x.2.name ∧ y.2.cell = x.2.cell) p.globals q.globals)
include h hglobals

/-- The same operand is written the same. -/
theorem ref_eq (hv : p.SameValue f q g v w) :
    q.ref w = p.ref v ∧ q.typedRef w = p.typedRef v := by
  have htyped {v w : Value} (href : q.ref w = p.ref v) (hty : q.valueTy w = p.valueTy v) :
      q.ref w = p.ref v ∧ q.typedRef w = p.typedRef v :=
    ⟨href, by rw [typedRef, typedRef, href, hty]⟩
  cases hv with
  | literal hvalue hty => exact htyped (congrArg toString hvalue) hty
  | global hx => exact htyped (congrArg ("@" ++ ·) (List.forall₂_zip hglobals hx).2.1) rfl
  | local_ hplace =>
    have hlocals : List.Forall₂ (fun v w => q.ref w = p.ref v ∧ q.valueTy w = p.valueTy v)
        (p.locals f) (q.locals g) := by
      refine List.rel_append ((forall₂_params h.params).imp ?_) ?_
      · rintro _ _ ⟨a, a', rfl, rfl, hname, hty⟩
        exact ⟨congrArg ("%" ++ ·) hname, hty⟩
      · rw [List.forall₂_map_left_iff, List.forall₂_map_right_iff]
        exact h.instructions.imp fun i j hij => ⟨by rw [ref, ref, hij.name], hij.ty⟩
    obtain ⟨href, hty⟩ := List.forall₂_zip hlocals hplace
    exact htyped href hty

theorem instText_eq (hij : p.SameInst f q g i j) : q.instText j = p.instText i := by
  have hresult : (q.inst j).hasResult = (p.inst i).hasResult := by
    rw [Inst.hasResult, Inst.hasResult, hij.ty]
  have href : q.ref (.inst j) = p.ref (.inst i) := by rw [ref, ref, hij.name]
  rw [instText, instText, hresult, href, hij.ty,
    opText_eq_of_rel hij.op (fun v w => h.ref_eq hglobals)
      fun b d hbd => (List.forall₂_zip h.blocks hbd).1]

theorem funcText_eq : q.funcText g = p.funcText f := by
  have hparams : (q.params g).map q.typedRef = (p.params f).map p.typedRef := by
    refine (map_eq_map ((forall₂_params h.params).imp ?_)).symm
    rintro _ _ ⟨a, a', rfl, rfl, hname, hty⟩
    rw [typedRef, typedRef, ref, ref, valueTy, valueTy, hname, hty]
  have hblocks : (q.func g).blocks.flatMap q.blockLines = (p.func f).blocks.flatMap p.blockLines := by
    have hlines : List.Forall₂ Eq ((p.func f).blocks.flatMap p.blockLines)
        ((q.func g).blocks.flatMap q.blockLines) := by
      refine forall₂_flatMap h.blocks fun b d hb => ?_
      have hinsts := hb.2.imp fun i j hij => congrArg ("  " ++ ·) (h.instText_eq hglobals hij).symm
      rw [blockLines, blockLines, hb.1, map_eq_map hinsts]
      exact List.forall₂_refl _
    rw [List.forall₂_eq_eq_eq] at hlines
    exact hlines.symm
  rw [funcText, funcText, h.name, h.result, hparams, hblocks]

end SameFunc

/-- The same modules have the same text. -/
theorem Isomorphic.text_eq (h : p.Isomorphic q) : q.text = p.text := by
  have hglobals : q.globals.map (fun g => globalText g.2.name g.2.cell) =
      p.globals.map fun g => globalText g.2.name g.2.cell :=
    (map_eq_map (h.globals.imp fun x y hxy => by rw [hxy.2.1, hxy.2.2])).symm
  have hfuncs : q.moduleFuncs.map q.funcText = p.moduleFuncs.map p.funcText := by
    rw [moduleFuncs, moduleFuncs, List.map_map, List.map_map]
    exact (map_eq_map (h.functions.imp fun x y hxy =>
      (hxy.2.funcText_eq h.globals).symm)).symm
  rw [text, text]
  dsimp only
  rw [hglobals, h.declarations, hfuncs]

end BoxFlow.Program
