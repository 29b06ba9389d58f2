import BoxFlow.Proofs.Machine.Acyclic
import BoxFlow.Proofs.Rewriting.Simulation

/-!
# Rewriting by truthful facts

Whatever rewrites are made of a function one after another, by facts that are truthful, the function
still does the same (`RewriteM.sameRuns_of_truthful`), as long as it uses no result of an arithmetic
call. The facts are not computed anew: those of the function before any rewriting do for all the
rewrites.
-/

namespace BoxFlow

/-! ## The same runs -/

/-- The machines have made the same calls, have the same objects and cells, and, if they are
through, the same result. -/
structure Machine.SameOutcome (m n : Machine) : Prop where
  trace : n.trace = m.trace
  heap : n.heap = m.heap
  result : n.result = m.result

/-- Function `f` does the same in `q` as in `p`, in any world: it comes to whatever it comes to in
`p`, and is always on the way there, unless it gets stuck in `p`. -/
structure Program.SameRuns (p q : Program) (o : Options) (f : FuncId) : Prop where
  kept : ∀ {w m}, Machine.Reaches p o w f m →
    ∃ n, Machine.Reaches q o w f n ∧ m.SameOutcome n
  no_others : ∀ {w}, (∀ {m}, Machine.Reaches p o w f m → ¬m.Stuck p o w) →
    ∀ {n}, Machine.Reaches q o w f n →
    ∃ m n', Machine.Reaches p o w f m ∧ Machine.Leads q o w n n' ∧ m.SameOutcome n'

theorem Program.SameRuns.refl (p : Program) (o : Options) (f : FuncId) : p.SameRuns p o f where
  kept h := ⟨_, h, rfl, rfl, rfl⟩
  no_others _ _ h := ⟨_, _, h, .refl, rfl, rfl, rfl⟩

theorem Machine.Agrees.sameOutcome {p : Program} {φ : Fates} {m n : Machine}
    (h : Machine.Agrees p φ m n) : m.SameOutcome n :=
  ⟨h.trace, h.heap, h.result⟩

/-- A verified function has no operands but its own results. -/
theorem Program.grounded_of_verify {p : Program} {f : FuncId} (hp : p.Linked)
    (hv : p.verify f = []) : p.Grounded f := by
  intro i hi j hj
  obtain ⟨b, hb, hib⟩ := List.mem_flatMap.1 hi
  exact hp.lt_size (Program.operand_of_verify hv hb hib hj)

/-- Where every fate is justified, the rewritten function does the same. -/
theorem Rewriting.sameRuns {p : Program} {o : Options} {a : Analysis} {φ : Fates}
    {s : RewriteState} (h : Rewriting p a o.names (Fate.Justified p o a.func) φ [] s)
    (ha : a.Classifies p o) (hops : p.Grounded a.func) (harith : p.IgnoresArithmetic o a.func)
    (hp : p.Linked) : p.SameRuns s.program o a.func where
  kept hm := by
    obtain ⟨n, hn, hmn⟩ := h.mirror_reaches ha hops harith hp hm
    exact ⟨n, hn, hmn.sameOutcome⟩
  no_others hsafe _ hn := by
    obtain ⟨m, k, hm, hmk, hleads⟩ := h.reaches_mirror ha hops harith hp hsafe hn
    exact ⟨m, k, hm, hleads, hmk.sameOutcome⟩

/-! ## Any rewrites -/

/-- The two rewrites of a function. -/
inductive Phase
  | arithmetic
  | reads
  deriving DecidableEq, Repr

def Phase.run : Phase → RewriteM Bool
  | arithmetic => RewriteM.foldArithmetic
  | reads => RewriteM.propagateConstants

/-- The analysis is one of the program, by the options. -/
structure Analysis.Describes (a : Analysis) (p : Program) (o : Options) : Prop
    extends a.Classifies p o where
  program : a.program = p
  known : ∀ i ∈ a.before, i < p.insts.size

theorem Analysis.Settled.describes {p : Program} {o : Options} {f : FuncId} {a : Analysis}
    (ha : a.Settled p f (Classification.ofFunc p o f).1) (hp : p.Linked) : a.Describes p o where
  toClassifies := ha.classifies
  program := ha.program
  known i hi := by
    obtain ⟨b, -, hib⟩ := ha.recorded i (.inl hi)
    exact Program.lt_of_inst_block (hp.held hib)

namespace RewriteM

variable {p : Program} {o : Options} {a : Analysis}

/-- Any rewrites succeed, and leave a rewriting. -/
theorem ends_phases {names : Names} {J : InstId → Fate → Prop} {φ : Fates} {s : RewriteState}
    (hp : p.Linked) (hS : Sanctions p a names J) (hknown : ∀ i ∈ a.before, i < p.insts.size)
    (h : Rewriting p a names J φ [] s) (phases : List Phase) :
    Ends (phases.mapM Phase.run) s fun _ t => ∃ φ, Rewriting p a names J φ [] t := by
  induction phases generalizing φ s with
  | nil => exact .pure ⟨φ, h⟩
  | cons phase phases ih =>
    rw [List.mapM_cons]
    have hK := Upholds.trivial p a names J
    have hphase : Ends phase.run s fun _ t => ∃ φ, Rewriting p a names J φ [] t := by
      cases phase with
      | arithmetic =>
        exact (ends_foldArithmetic hp hK hS.arithmetic h True.intro).mono
          fun _ _ ⟨ψ, ht, _⟩ => ⟨ψ, ht⟩
      | reads =>
        exact (ends_propagateConstants hp hS hK hknown h True.intro).mono
          fun _ _ ⟨ψ, ht, _⟩ => ⟨ψ, ht⟩
    exact hphase.bind fun _ _ ⟨ψ, ht⟩ => (ih ht).bind fun _ _ hu => .pure hu

/-- Rewriting by truthful facts leaves the runs of a function as they are, whatever rewrites are
made of it one after another. -/
theorem sameRuns_of_truthful (hp : p.Linked) (hops : p.Grounded a.func)
    (harith : p.IgnoresArithmetic o a.func) (ha : a.Describes p o) (ht : a.Truthful o)
    (phases : List Phase) :
    Ends (phases.mapM Phase.run) { program := p, rewriter := { analysis := a, names := o.names } }
      fun _ t => p.SameRuns t.program o a.func := by
  have hS := ht.sanctions hp ha.toClassifies ha.program o.names
  refine (ends_phases hp hS ha.known (.start hp a o.names _) phases).mono ?_
  rintro _ t ⟨φ, hφ⟩
  exact hφ.sameRuns ha.toClassifies hops harith hp

/-- A sum of constants, and what is read from it. -/
def sumText : String :=
  "define i64 @f()\x7be:%a=call ptr @create(i64 2)%b=call ptr @create(i64 3)" ++
  "%r=call ptr @create(i64 0)call void @add(ptr %r,ptr %a,ptr %b)%x=call i64 @read(ptr %r)" ++
  "call void @printf(i64 %x)ret i64 %x\x7d"

theorem sameRuns_of_truthful_sum : ∃ p a, Program.load sumText.toList = .ok p ∧ p.Linked ∧
    a = Analysis.solve p 0 {} .conservative (Classification.ofFunc p {} 0).1 ∧
    p.Grounded a.func ∧ p.IgnoresArithmetic {} a.func ∧ a.Describes p {} ∧ a.Truthful {} ∧
    Ends ([.arithmetic, .reads].mapM Phase.run)
      { program := p, rewriter := { analysis := a, names := Options.names {} } }
      fun _ t => p.SameRuns t.program {} a.func := by
  obtain ⟨p, hload, hp, hv, hc, harith, hlt, hphis, hconv, hquiet⟩ :=
    Program.exists_load (s := sumText.toList) (P := fun p =>
      p.verify 0 = [] ∧ p.Closed {} 0 ∧ p.IgnoresArithmetic {} 0 ∧
      (∀ b ∈ (p.func 0).blocks, ∀ d ∈ p.successorBlocks b, b < d) ∧ p.SinglePhis 0 ∧
      (Analysis.solve p 0 {} .conservative (Classification.ofFunc p {} 0).1).converged = true ∧
      (Analysis.solve p 0 {} .conservative (Classification.ofFunc p {} 0).1).warnings = [])
      (by decide +kernel)
  have hn := Classification.ofFunc_numbered p {} 0
  have hrun := Analysis.run_of_converged hconv
  have ha := Analysis.run_settled hp hv hn hrun
  have hr := Analysis.reliable_of_acyclic hp hv ha hphis (Program.acyclic_of_lt hp hlt) hquiet
  have ht : Analysis.Truthful _ {} := ha.truthful hp hv hc hr (Analysis.run_quiet hp hn hrun)
  have hops := Program.grounded_of_verify hp hv
  rw [← ha.func] at hops harith
  exact ⟨p, _, hload, hp, rfl, hops, harith, ha.describes hp, ht,
    sameRuns_of_truthful hp hops harith (ha.describes hp) ht _⟩

end RewriteM

end BoxFlow
