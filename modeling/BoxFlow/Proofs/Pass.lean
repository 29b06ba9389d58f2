import BoxFlow.Pass
import BoxFlow.Proofs.Rewriting.SameRuns

/-!
# The pass preserves closed functions

A closed function that uses no result of an arithmetic call does the same after the pass as before,
if the facts that the pass goes by are reliable (`Pass.runFunc_sameRuns`). Two phis of one block
that take the same handle are enough for them not to be: the pass may then have a function report
another number (`Pass.not_sameRuns_twins`).
-/

namespace BoxFlow

namespace Pass

variable {p : Program} {o : Options} {f : FuncId} {kind : OracleKind}

/-- A rewriting that succeeds is one of the program. -/
theorem ends_rewrite {α : Type} {r : Rewriter} {m : RewriteM α} {s : PassState}
    {Q : α → RewriteState → Prop} (h : Ends m { program := s.program, rewriter := r } Q) :
    Ends (rewrite r m) s fun x t => Q x.1 x.2 ∧ t.program = x.2.program := by
  obtain ⟨a, t, hm, hQ⟩ := h
  refine .ok (a := (a, t)) (t := { s with
    program := t.program, records := s.records ++ t.records }) ?_ ⟨hQ, rfl⟩
  rw [rewrite, hm]

/-- What the pass goes by. -/
theorem analyze_fst : (analyze p o kind f).1 =
    Analysis.solve p f o (oracleFor p o kind f).1 (Classification.ofFunc p o f).1 := rfl

theorem analyze_program (p : Program) (o : Options) (kind : OracleKind) (f : FuncId) :
    (analyze p o kind f).1.program = p ∧ (analyze p o kind f).1.func = f := by
  obtain ⟨w, a, hrun, heq⟩ := Analysis.run_solve p f o (oracleFor p o kind f).1
    (Classification.ofFunc p o f).1
  rw [analyze_fst, heq]
  exact ⟨(Analysis.run_program hrun).1, (Analysis.run_program hrun).2.1⟩

/-- A run of the rewriting leaves the runs of the function as they are, if it goes by truthful
facts. -/
theorem ends_run_sameRuns {a : Analysis} (hp : p.Linked) (hops : p.Grounded a.func)
    (harith : p.IgnoresArithmetic o a.func)
    (h : a.converged = true → a.Describes p o ∧ a.Truthful o) :
    Ends RewriteM.run { program := p, rewriter := { analysis := a, names := o.names } }
      fun _ t => p.SameRuns t.program o a.func := by
  by_cases hconv : a.converged = true
  · obtain ⟨ha, ht⟩ := h hconv
    have hS := Analysis.Truthful.sanctions ht hp ha.toClassifies ha.program o.names
    refine (RewriteM.ends_run hp hS ha.known).mono ?_
    rintro _ t ⟨φ, hφ⟩
    exact hφ.sameRuns ha.toClassifies hops harith hp
  · unfold RewriteM.run
    refine .bind_get ?_
    rw [if_neg hconv]
    exact .pure (.refl ..)

/-- The pass preserves a closed function that uses no result of an arithmetic call, as far as the
facts are reliable. -/
theorem runFunc_sameRuns (hp : p.Linked) (hv : p.verify f = []) (hc : p.Closed o f)
    (harith : p.IgnoresArithmetic o f)
    (hr : (analyze p o kind f).1.converged = true → (analyze p o kind f).1.Reliable)
    {s : PassState} (hs : s.program = p) :
    Ends (runFunc o kind f) s fun _ t => p.SameRuns t.program o f := by
  subst hs
  cases hanalyze : analyze s.program o kind f with
  | mk a records =>
    rw [hanalyze] at hr
    have ha : a = Analysis.solve s.program f o (oracleFor s.program o kind f).1
        (Classification.ofFunc s.program o f).1 := by
      rw [← analyze_fst, hanalyze]
    have hfunc : a.func = f := by
      have := analyze_program s.program o kind f
      rw [hanalyze] at this
      exact this.2
    have hrewrite := ends_run_sameRuns (o := o) (a := a) hp
      (hfunc ▸ Program.grounded_of_verify hp hv) (hfunc ▸ harith) fun hconv => by
        have hn := Classification.ofFunc_numbered s.program o f
        have hrun := Analysis.run_of_converged (ha ▸ hconv)
        rw [← ha] at hrun
        have hsettled := Analysis.run_settled hp hv hn hrun
        exact ⟨hsettled.describes hp,
          hsettled.truthful hp hv hc (hr hconv) (Analysis.run_quiet hp hn hrun)⟩
    rw [hfunc] at hrewrite
    unfold runFunc
    refine .bind_get ?_
    dsimp only
    split
    · exact .pure (.refl ..)
    · rw [hanalyze]
      refine .bind_modify (.bind_modify (.bind (ends_rewrite hrewrite) ?_))
      rintro x t ⟨hx, ht⟩
      exact .bind_modify (.bind_modify (.pure (ht ▸ hx)))

/-- A handle that is set in a loop under one name and read under another. -/
def roundText : String :=
  "define i64 @f()\x7be:%a=call ptr @create(i64 2)br label %h " ++
  "h:%b=phi ptr[%a,%e],[%b,%h]call void @write(ptr %b,i64 5)%x=call i64 @read(ptr %a)" ++
  "call void @printf(i64 %x)br i1 1,label %h,label %d d:ret i64 %x\x7d"

theorem runFunc_sameRuns_round : ∃ p, Program.load roundText.toList = .ok p ∧ p.Linked ∧
    p.verify 0 = [] ∧ p.Closed {} 0 ∧ p.IgnoresArithmetic {} 0 ∧
    (analyze p {} .escape 0).1.Reliable ∧
    Ends (runFunc {} .escape 0) { program := p } fun _ t => p.SameRuns t.program {} 0 := by
  obtain ⟨p, hload, hp, hv, hc, harith, hphis, hstores, hquiet⟩ :=
    Program.exists_load (s := roundText.toList) (P := fun p =>
      p.verify 0 = [] ∧ p.Closed {} 0 ∧ p.IgnoresArithmetic {} 0 ∧ p.SinglePhis 0 ∧
      (∀ i ∈ p.instructions 0, ∀ x ∈ (p.inst i).op.operands, ∀ y ∈ (p.inst i).op.operands,
        (p.inst i).op ≠ .store x y) ∧
      (analyze p {} .escape 0).1.warnings = [])
      (by decide +kernel)
  obtain ⟨hprog, hfunc⟩ := analyze_program p {} .escape 0
  have hr : (analyze p {} .escape 0).1.Reliable := by
    refine ⟨hquiet, fun hb hi hj hij _ _ => ?_, fun hi _ _ => ?_⟩
    · rw [hprog] at hi hj
      rw [hprog, hfunc] at hb
      rw [hphis.phis_eq hb hi, List.mem_singleton] at hj
      exact absurd hj.symm hij
    · rw [hprog, hfunc] at hi
      obtain ⟨j, hj, pointer, hop⟩ := hi
      exact absurd hop (hstores j hj _ (by rw [hop]; exact List.mem_cons_self) pointer
        (by rw [hop]; exact List.mem_cons_of_mem _ List.mem_cons_self))
  exact ⟨p, hload, hp, hv, hc, harith, hr, runFunc_sameRuns hp hv hc harith (fun _ => hr) rfl⟩

/-- Two phis that take the same handle: it is set as the one and read as the other. -/
def twinsText : String :=
  "define i64 @f()\x7be:%a=call ptr @create(i64 1)br label %j " ++
  "j:%b=phi ptr[%a,%e]%c=phi ptr[%a,%e]call void @write(ptr %b,i64 5)" ++
  "%x=call i64 @read(ptr %c)call void @printf(i64 %x)ret i64 %x\x7d"

theorem not_sameRuns_twins : ∃ p, Program.load twinsText.toList = .ok p ∧ p.verify 0 = [] ∧
    p.Closed {} 0 ∧ p.IgnoresArithmetic {} 0 ∧
    Ends (runFunc {} .escape 0) { program := p } fun _ t => ¬p.SameRuns t.program {} 0 := by
  obtain ⟨p, hload, -, hv, hc, harith, hrun⟩ :=
    Program.exists_load (s := twinsText.toList) (P := fun p =>
      p.verify 0 = [] ∧ p.Closed {} 0 ∧ p.IgnoresArithmetic {} 0 ∧
      Ends (runFunc {} .escape 0) { program := p } fun _ t =>
        (Machine.after? p {} {} 0 6).map Machine.trace = some [⟨"printf", [.int 5]⟩] ∧
        (∀ k ∈ List.range 6, (Machine.after? t.program {} {} 0 k).map Machine.trace ≠
          some [⟨"printf", [.int 5]⟩]) ∧
        (Machine.after? t.program {} {} 0 6).isNone)
      (by decide +kernel)
  refine ⟨p, hload, hv, hc, harith, hrun.mono ?_⟩
  rintro _ t ⟨hprinted, hother, hend⟩ hsame
  obtain ⟨m, hm, hprinted⟩ := Option.map_eq_some_iff.1 hprinted
  -- What the function has reported, the rewritten one never has.
  obtain ⟨n, hn, hmn⟩ := hsame.kept (Machine.reaches_of_after hm)
  obtain ⟨k, hk, hat⟩ := hn.exists_after (Option.isNone_iff_eq_none.1 hend)
  exact hother k (List.mem_range.2 hk) (by rw [hat, Option.map_some, hmn.trace, hprinted])

end Pass

end BoxFlow
