import BoxFlow.Proofs.Pass
import BoxFlow.Proofs.Rewriting.Validity

/-!
# The pass keeps modules valid

A run over a module succeeds, and the module has the right arguments in every operation afterwards.
Every function that uses no result of arithmetic passes the structural checks, too, and none of its
operands has gone (`Pass.runModule_valid`). Where such a result is used, it may be the result of a
call that is no longer there (`Pass.not_valid_sum`).
-/

namespace BoxFlow

namespace Pass

variable {p q : Program} {o : Options} {f : FuncId} {kind : OracleKind} {s : PassState}

/-- What is valid in `p` is valid in `q`. -/
structure Keeps (p q : Program) (o : Options) : Prop where
  linked : q.Linked
  functions : q.functions = p.functions
  fitsArity : ∀ f, (∀ i ∈ p.instructions f, (p.inst i).FitsArity o) →
    ∀ i ∈ q.instructions f, (q.inst i).FitsArity o
  wellFormed : ∀ f, p.WellFormed f → p.IgnoresArithmetic o f →
    q.WellFormed f ∧ q.IgnoresArithmetic o f

theorem Keeps.refl (hp : p.Linked) (o : Options) : Keeps p p o :=
  ⟨hp, rfl, fun _ => id, fun _ hw hi => ⟨hw, hi⟩⟩

theorem Keeps.trans {r : Program} (h : Keeps p q o) (h' : Keeps q r o) : Keeps p r o where
  linked := h'.linked
  functions := h'.functions.trans h.functions
  fitsArity f hf := h'.fitsArity f (h.fitsArity f hf)
  wellFormed f hw hi := h'.wellFormed f (h.wellFormed f hw hi).1 (h.wellFormed f hw hi).2

/-! ## One function -/

/-- What the rewrites go by, where they are made. -/
theorem analyze_knows (hp : p.Linked) (hconv : (analyze p o kind f).1.converged = true) :
    (∀ i ∈ (analyze p o kind f).1.before, i < p.insts.size) ∧
      ∀ i ∈ p.instructions f, ∀ callee args, (p.inst i).op = .call callee args →
        (analyze p o kind f).1.cls.kindOf i = o.kindOf callee := by
  rw [analyze_fst] at hconv ⊢
  have hrun := Analysis.run_of_converged hconv
  constructor
  · intro i hi
    obtain ⟨b, -, hib⟩ := (Analysis.run_explored hrun).recorded i (.inl hi)
    exact Program.lt_of_inst_block (hp.held hib)
  · intro i hi callee args hop
    have hcls := (Analysis.run_program hrun).2.2.2.1
    rw [Classification.kindOf, hcls]
    exact Classification.kindOf_ofFunc hi hop

theorem ends_run_keeps (hp : p.Linked) {a : Analysis}
    (hknows : a.converged = true → (∀ i ∈ a.before, i < p.insts.size) ∧
      ∀ i ∈ p.instructions a.func, ∀ callee args, (p.inst i).op = .call callee args →
        a.cls.kindOf i = o.kindOf callee) :
    Ends RewriteM.run { program := p, rewriter := { analysis := a, names := o.names } }
      fun _ t => Keeps p t.program o := by
  by_cases hconv : a.converged = true
  · obtain ⟨hknown, hkinds⟩ := hknows hconv
    have hS : Sanctions p a o.names fun _ _ => True :=
      ⟨fun _ _ _ _ _ => trivial, fun _ _ _ _ => trivial⟩
    apply (RewriteM.ends_run hp hS hknown).mono
    rintro _ t ⟨φ, h⟩
    refine ⟨h.linked hp, h.program.functions, fun f hf i hi => h.fitsArity hp rfl hf hi,
      fun f hw harith => ?_⟩
    by_cases hf : f = a.func
    · subst hf
      exact ⟨h.wellFormed hp hkinds harith hw, h.ignoresArithmetic hkinds harith rfl hw⟩
    · exact ⟨h.wellFormed_of_ne hp hf hw, h.ignoresArithmetic_of_ne hp hf hw harith⟩
  · unfold RewriteM.run
    apply Ends.bind_get
    rw [if_neg hconv]
    exact .pure (.refl hp o)

/-- A run over a function succeeds and keeps what is valid. -/
theorem runFunc_keeps (hp : s.program.Linked) (f : FuncId) :
    Ends (runFunc o kind f) s fun _ t => Keeps s.program t.program o := by
  unfold runFunc
  apply Ends.bind_get
  dsimp only
  split
  · exact .pure (.refl hp o)
  · cases hanalyze : analyze s.program o kind f with
    | mk a records =>
      have ha : a = (analyze s.program o kind f).1 := by rw [hanalyze]
      have hfunc : a.func = f := ha ▸ (analyze_program s.program o kind f).2
      have hrewrite := ends_run_keeps (o := o) (a := a) hp fun hconv => by
        rw [hfunc, ha]
        exact analyze_knows hp (ha ▸ hconv)
      refine .bind_modify (.bind_modify (.bind (ends_rewrite hrewrite) ?_))
      rintro x t ⟨hx, ht⟩
      exact .bind_modify (.bind_modify (.pure (ht ▸ hx)))

/-! ## The module -/

theorem mapM_keeps (hp : s.program.Linked) (fs : List FuncId) :
    Ends (fs.mapM (runFunc o kind)) s fun _ t => Keeps s.program t.program o := by
  induction fs generalizing s with
  | nil => exact .pure (.refl hp o)
  | cons f fs ih =>
    rw [List.mapM_cons]
    apply (runFunc_keeps hp f).bind
    intro _ t ht
    apply (ih ht.linked).bind
    intro _ u hu
    exact .pure (ht.trans hu)

theorem runModule_keeps (hp : s.program.Linked) :
    Ends (runModule o kind) s fun _ t => Keeps s.program t.program o := by
  unfold runModule
  apply Ends.bind_get
  exact (mapM_keeps hp _).bind fun _ _ ht => .pure ht

/-- A run over a module that has been loaded succeeds, and every function is left with the right
arguments in its operations and, if it uses no result of arithmetic, well formed, with operands that
are all still there. -/
theorem runModule_valid {text : List Char} {file name : String}
    (hload : Program.load text file o name = .ok p) (hs : s.program = p) (kind : OracleKind) :
    Ends (runModule o kind) s fun _ t =>
      t.program.moduleFuncs = p.moduleFuncs ∧ t.program.checkArity o = .ok () ∧
      ∀ f ∈ p.moduleFuncs, p.IgnoresArithmetic o f → t.program.verify f = [] ∧
        ∀ i ∈ t.program.instructions f, ∀ j, .inst j ∈ (t.program.inst i).op.operands →
          ∃ b ∈ (t.program.func f).blocks, (t.program.inst j).block = some b ∧
            j ∈ (t.program.block b).insts := by
  subst hs
  obtain ⟨-, hv, harity⟩ := Program.load_eq_ok hload
  apply (runModule_keeps (Program.load_linked hload)).mono
  intro _ t ht
  have hfuncs : t.program.moduleFuncs = s.program.moduleFuncs := by
    rw [Program.moduleFuncs, ht.functions]
    rfl
  refine ⟨hfuncs, ?_, fun f hf harith => ?_⟩
  · have hnone : t.program.arityProblems o = [] := by
      rw [Program.arityProblems, hfuncs, List.flatMap_eq_nil_iff]
      intro f hf
      have hold := List.flatMap_eq_nil_iff.1 (List.flatMap_eq_nil_iff.1 harity f hf)
      rw [List.flatMap_eq_nil_iff]
      intro i hi
      exact Program.callProblems_eq_nil_iff.2
        (ht.fitsArity f (fun i hi => Program.callProblems_eq_nil_iff.1 (hold i hi)) i hi)
    rw [Program.checkArity, hnone]
  · have hw := (ht.wellFormed f (Program.verify_eq_nil_iff.1 (hv f hf)) harith).1
    refine ⟨Program.verify_eq_nil_iff.2 hw, fun i hi j hj => ?_⟩
    obtain ⟨b, hb, hjb⟩ := List.mem_flatMap.1 (hw.owned i hi j hj)
    exact ⟨b, hb, ht.linked.held hjb, hjb⟩

/-- A sum that is folded, and a handle that is read. -/
def foldedText : String :=
  "define i64 @f()\x7be:%a=call ptr @create(i64 1)%b=call ptr @create(i64 2)" ++
  "call void @add(ptr %a,ptr %a,ptr %b)%x=call i64 @read(ptr %a)call void @printf(i64 %x)ret i64 %x\x7d"

theorem runModule_valid_folded : ∃ p, Program.load foldedText.toList = .ok p ∧
    p.moduleFuncs = [0] ∧ p.IgnoresArithmetic {} 0 ∧
    Ends (runModule {} .escape) { program := p } fun _ t =>
      t.program.moduleFuncs = p.moduleFuncs ∧ t.program.checkArity {} = .ok () ∧
      ∀ f ∈ p.moduleFuncs, p.IgnoresArithmetic {} f → t.program.verify f = [] ∧
        ∀ i ∈ t.program.instructions f, ∀ j, .inst j ∈ (t.program.inst i).op.operands →
          ∃ b ∈ (t.program.func f).blocks, (t.program.inst j).block = some b ∧
            j ∈ (t.program.block b).insts := by
  obtain ⟨p, hload, -, hfuncs, harith⟩ := Program.exists_load (s := foldedText.toList)
    (P := fun p => p.moduleFuncs = [0] ∧ p.IgnoresArithmetic {} 0) (by decide +kernel)
  exact ⟨p, hload, hfuncs, harith, runModule_valid hload rfl .escape⟩

/-- The result of a sum that is folded is returned. -/
def sumText : String :=
  "define i64 @f()\x7be:%a=call ptr @create(i64 1)" ++
  "%x=call i64 @add(ptr %a,ptr %a,ptr %a)ret i64 %x\x7d"

theorem not_valid_sum : ∃ p, Program.load sumText.toList = .ok p ∧ p.moduleFuncs = [0] ∧
    p.verify 0 = [] ∧ p.checkArity {} = .ok () ∧
    ∀ kind, Ends (runModule {} kind) { program := p } fun _ t =>
      t.program.verify 0 = [.foreignOperand "f" "e" "%x"] ∧
      2 ∈ t.program.instructions 0 ∧ .inst 1 ∈ (t.program.inst 2).op.operands ∧
        (t.program.inst 1).block = none := by
  obtain ⟨p, hload, -, hfuncs, hv, harity, hescape, hconservative⟩ := Program.exists_load
    (s := sumText.toList)
    (P := fun p => p.moduleFuncs = [0] ∧ p.verify 0 = [] ∧ p.arityProblems {} = [] ∧
      (Ends (runModule {} .escape) { program := p } fun _ t =>
        t.program.verify 0 = [.foreignOperand "f" "e" "%x"] ∧
        2 ∈ t.program.instructions 0 ∧ .inst 1 ∈ (t.program.inst 2).op.operands ∧
          (t.program.inst 1).block = none) ∧
      Ends (runModule {} .conservative) { program := p } fun _ t =>
        t.program.verify 0 = [.foreignOperand "f" "e" "%x"] ∧
        2 ∈ t.program.instructions 0 ∧ .inst 1 ∈ (t.program.inst 2).op.operands ∧
          (t.program.inst 1).block = none) (by decide +kernel)
  refine ⟨p, hload, hfuncs, hv, by rw [Program.checkArity, harity], fun kind => ?_⟩
  cases kind with
  | escape => exact hescape
  | conservative => exact hconservative

end Pass

end BoxFlow
