import BoxFlow.Proofs.Classification.Rules
import BoxFlow.Proofs.Dataflow.Convergence

/-!
# Least solutions

In a function without calls of unknown effect every effect is monotone, and the oracle is never
asked. So the analysis converges, whatever the oracle, and what it comes to is the least solution of
its equations (`exists_leastSolution`): along the run, what is known at the ends of blocks stays
below any facts that are closed under the effects of the blocks (`visit_saturated`).
-/

namespace BoxFlow

open Knowledge (Below)

namespace Analysis

open View

variable {O : Set Oracle} {p : Program} {f : FuncId} {c : Classification} {a a' z : Analysis}
  {t : Analysis × Facts} {i : InstId} {is : List InstId} {b : BlockId} {w : List BlockId}
  {o : Oracle} {out : Facts} {S : Std.ExtTreeMap BlockId Facts} {opts : Options}

/-- The analysis with other facts at the ends of the blocks. -/
def withExits (a : Analysis) (S : Std.ExtTreeMap BlockId Facts) : Analysis := { a with exits := S }

/-- Facts for the ends of the blocks visited, with well-formed aliases and no less than what follows
from them. -/
structure Saturated (p : Program) (a : Analysis) (S : Std.ExtTreeMap BlockId Facts) : Prop where
  visited : ∀ b, b ∈ S ↔ b ∈ a.exits
  aliases : ∀ {b : BlockId} {s : Facts}, S[b]? = some s → s.knowledge.AliasWF a.cls
  closed : ∀ (b : BlockId) (s : Facts), S[b]? = some s →
    ((a.withExits S).recompute b (p.block b).insts).leq s = true

/-- What is recorded for the ends of blocks is the least solution of the equations of the blocks
that can be reached. -/
structure LeastSolution (p : Program) (f : FuncId) (a : Analysis) : Prop where
  visited : ∀ b, b ∈ a.exits ↔ Reachable p f b
  exit : ∀ (b : BlockId) (e : Facts), a.exits[b]? = some e →
    e.same (a.recompute b (p.block b).insts) = true
  least : ∀ S, Saturated p a S → ∀ (b : BlockId) (e s : Facts), a.exits[b]? = some e →
    S[b]? = some s → e.leq s = true

/-! ## Below all saturated facts -/

/-- What is recomputed from saturated facts is below them. -/
theorem Saturated.effects_below (hz : z.program = p) (hS : Saturated p z S)
    (hb : p.predecessorBlocks b = [] ∨ ∃ q ∈ p.predecessorBlocks b, q ∈ S) {s : Facts}
    (hs : S[b]? = some s) :
    Below True ((z.withExits S).effects (p.block b).insts
      ((z.withExits S).entry b).knowledge) s.knowledge := by
  have hentry : ((z.withExits S).entry b).knowledge.AliasWF (z.withExits S).cls :=
    entry_aliasWF (a := z.withExits S) hS.aliases (fun _ => rfl) (by rwa [← hz] at hb)
  have hle := Facts.leq_iff.1 (hS.closed b s hs)
  rw [recompute, knowledge_foldl_transfer hentry] at hle
  exact Below.true_iff.2 hle

/-- What a visit finds out follows from the ends of the blocks as they were, in whichever view that
knows of later numbers. -/
theorem visit_effects (hp : p.Linked) (hc : c.Numbered) (h : Run {o} p f c (b :: w) a)
    (hs : Steps {o} (p.block b).insts (a, a.entry b) (a', out))
    (hz : Grown [] a'.toView z.toView) :
    out.knowledge = (z.withExits a.exits).effects (p.block b).insts
      ((z.withExits a.exits).entry b).knowledge ∧
    ∀ pre i post, (p.block b).insts = pre ++ i :: post → ∃ s, a'.before[i]? = some s ∧
      s.knowledge = (z.withExits a.exits).effects pre
        ((z.withExits a.exits).entry b).knowledge := by
  obtain ⟨hn, hw⟩ := run_bounds hp hc h
  have hext := steps_extends hs
  -- The same view as at the end of the visit, but for the numbers given later.
  let v := z.withExits a.exits
  have hgrown {B} : Grown B a'.toView v.toView :=
    ⟨hz.program, hz.oracle, hz.cls, hz.arena, fun _ _ => by rw [hext.exits]; rfl⟩
  have hgrown' {B} : Grown B a.toView v.toView := (steps_grown hs (run_oracle h)).trans hgrown
  obtain ⟨hout, hres, hfacts⟩ := steps_effects hs (entry_sound hp hc h) hp.nodup
  have hentry : (v.entry b).knowledge = (a.entry b).knowledge := entry_congr hgrown' hn
  have hwithin := (entry_within (b := b) hn hw).mono (ids_mono (Arena.size_le hext.arena))
  have heffects (is : List InstId) (his : is ⊆ (p.block b).insts) :
      v.effects is (v.entry b).knowledge = a'.effects is (a.entry b).knowledge := by
    rw [hentry]
    exact effects_congr (B := is.flatMap fun i => (a'.program.inst i).op.sources)
      hgrown (hext.numbered hn) (hext.exitsWithin hw)
      (fun i hi _ hq => List.mem_flatMap.2 ⟨i, hi, hq⟩) (fun i hi => hres i (his hi)) hwithin
  refine ⟨(heffects _ fun _ hi => hi).symm ▸ hout, fun pre i post hsplit => ?_⟩
  obtain ⟨s, -, hs, -, hks, -⟩ := hfacts pre i post hsplit
  exact ⟨s, hs, (heffects pre (by rw [hsplit]; simp)).symm ▸ hks⟩

/-- A visit keeps below the saturated facts of a later analysis, if no call may modify a handle. -/
theorem visit_saturated (hp : p.Linked) (hc : c.Numbered) (h : Run {o} p f c (b :: w) a)
    (hs : Steps {o} (p.block b).insts (a, a.entry b) (a', out))
    (hz : Grown [] a'.toView z.toView) (hkeeps : ∀ i ∈ p.instructions f, z.KeepsHandles i)
    (hS : Saturated p z S) (hb : b ∈ z.exits) (hE : ExitsBelow True a.exits S) :
    ExitsBelow True (a'.finish b out).exits S := by
  have hext := steps_extends hs
  have hzprog : z.program = p := hz.program.trans (hext.program.trans (run_program h).1)
  have hout := (visit_effects hp hc h hs hz).1
  obtain ⟨s, hsat⟩ := mem_iff_getElem?_eq_some.1 ((hS.visited b).2 hb)
  have hready : p.predecessorBlocks b = [] ∨ ∃ q ∈ p.predecessorBlocks b, q ∈ S := by
    refine (run_ready hp h (.inl List.mem_cons_self)).imp_right ?_
    rintro ⟨q, hq, hqa⟩
    obtain ⟨e, he⟩ := mem_iff_getElem?_eq_some.1 hqa
    obtain ⟨e', he', -⟩ := hE q e he
    exact ⟨q, hq, mem_of_getElem?_eq_some he'⟩
  have hblock := ((run_explored h).reachable b (.inr List.mem_cons_self)).mem_blocks hp
  have hle : Below True out.knowledge s.knowledge := by
    have hentry : Below True ((z.withExits a.exits).entry b).knowledge
        ((z.withExits S).entry b).knowledge := entry_below rfl rfl hE
    rw [hout]
    exact (View.effects_below (v := (z.withExits a.exits).toView)
      (fun _ i hi => hkeeps i (List.mem_flatMap.2 ⟨b, hblock, hi⟩)) hE hentry).trans
      (hS.effects_below hzprog hready hsat)
  intro d e hd
  rcases getElem?_insert_eq_some.1 hd with ⟨rfl, rfl⟩ | ⟨-, hd⟩
  · exact ⟨s, hsat, hle⟩
  · exact hE d e (hext.exits ▸ hd)

/-! ## The oracle is never asked -/

/-- The analysis with another oracle. -/
def withOracle (a : Analysis) (o : Oracle) : Analysis := { a with oracle := o }

/-- Instruction `i` is no call of unknown effect. -/
def Plain (a : Analysis) (i : InstId) : Prop :=
  ∀ callee args, (a.program.inst i).op = .call callee args → a.cls.kindOf i ≠ .opaqueCall

section Plain

variable (hi : a.Plain i) (s : Facts)
include hi

theorem transfer_withOracle : (a.withOracle o).transfer i s = a.transfer i s := by
  obtain ⟨⟨p, o', c, E⟩⟩ := a
  unfold View.transfer withOracle
  dsimp only
  cases hop : (p.inst i).op with
  | call callee args =>
    have hkind : c.kindOf i ≠ .opaqueCall := hi callee args hop
    cases hk : c.kindOf i with
    | opaqueCall => exact absurd hk hkind
    | operation op => cases op <;> cases args <;> rfl
    | benign => cases args <;> rfl
  | _ => rfl

theorem warnings_withOracle : (a.withOracle o).toView.warnings i s = a.toView.warnings i s := by
  obtain ⟨⟨p, o', c, E⟩⟩ := a
  unfold View.warnings withOracle
  dsimp only
  cases hop : (p.inst i).op with
  | call callee args =>
    have hkind : c.kindOf i ≠ .opaqueCall := hi callee args hop
    cases hk : c.kindOf i with
    | opaqueCall => exact absurd hk hkind
    | _ => rfl
  | _ => rfl

theorem queries_withOracle : (a.withOracle o).toView.queries i s = a.toView.queries i s := by
  obtain ⟨⟨p, o', c, E⟩⟩ := a
  unfold View.queries withOracle
  dsimp only
  cases hop : (p.inst i).op with
  | call callee args =>
    have hkind : c.kindOf i ≠ .opaqueCall := hi callee args hop
    dsimp only
    rw [if_neg hkind, if_neg hkind]
  | _ => rfl

theorem step_withOracle :
    step (a.withOracle o, s) i = ((step (a, s) i).1.withOracle o, (step (a, s) i).2) := by
  let a' : Analysis := { a with cls.arena := a.reserve i }
  have hi' : a'.Plain i := hi
  have hstep : step (a.withOracle o, s) i = ({ a'.withOracle o with
      before := a.before.insert i s
      after := a.after.insert i ((a'.withOracle o).transfer i s)
      warnings := addWarnings a.warnings ((a'.withOracle o).toView.warnings i s)
      queries := a.queries ++ (a'.withOracle o).toView.queries i s },
    (a'.withOracle o).transfer i s) := rfl
  rw [hstep, transfer_withOracle hi', warnings_withOracle hi', queries_withOracle hi']
  rfl

end Plain

theorem Extends.plain (h : Extends a a') (hi : a.Plain i) : a'.Plain i := by
  intro callee args hop
  rw [h.program] at hop
  rw [h.cls]
  exact hi callee args hop

theorem steps_withOracle {u : Analysis × Facts} (h : Steps O is t u)
    (hplain : ∀ i ∈ is, t.1.Plain i) :
    Steps {o} is (t.1.withOracle o, t.2) (u.1.withOracle o, u.2) := by
  induction h with
  | nil => exact .nil
  | @cons i is t u v hi hs ih =>
    have hext := step_extends hi
    obtain ⟨o', -, rfl⟩ := hi
    have hi : (t.1.withOracle o').Plain i := hplain i List.mem_cons_self
    refine .cons ⟨o, rfl, (step_withOracle (o := o) hi t.2).symm⟩ (ih fun j hj => ?_)
    exact hext.plain (hplain j (List.mem_cons_of_mem _ hj))

/-- A run of a function without calls of unknown effect is one with any oracle. -/
theorem run_withOracle (hp : p.Linked) (hplain : ∀ i ∈ p.instructions f, (start p f o c).Plain i)
    (h : Run O p f c w a) : Run {o} p f c w (a.withOracle o) := by
  induction h with
  | start => exact .start rfl
  | @visit b w a a' out h hs ih =>
    have hblock := ((run_explored h).reachable b (.inr List.mem_cons_self)).mem_blocks hp
    obtain ⟨hprog, -, -, hcls, -⟩ := run_program h
    refine ih.visit (steps_withOracle hs fun i hi callee args hop => ?_)
    rw [hprog] at hop
    rw [hcls]
    exact hplain i (List.mem_flatMap.2 ⟨b, hblock, hi⟩) callee args hop

/-! ## The least solution -/

theorem Plain.keepsHandles (hi : a.Plain i) : a.KeepsHandles i := by
  intro args hrule
  have hfits := rule_fits (v := a.toView) (i := i)
  rw [hrule] at hfits
  obtain ⟨⟨callee, hop⟩, hkind⟩ := hfits
  exact absurd hkind (hi callee args hop)

section Plain

variable (hp : p.Linked) (hv : p.verify f = []) (hc : c.Numbered)
  (hplain : ∀ i ∈ p.instructions f, (start p f o c).Plain i)
include hp hv hc hplain

/-- What a finished run comes to is below all facts that are saturated. -/
theorem run_below (h : Run {o} p f c [] z) (hS : Saturated p z S) : ExitsBelow True z.exits S := by
  obtain ⟨hzprog, -, -, hzcls, -⟩ := run_program h
  have hkeeps : ∀ i ∈ p.instructions f, z.KeepsHandles i := fun i hi =>
    Plain.keepsHandles fun callee args hop => by
      rw [hzprog] at hop
      rw [hzcls]
      exact hplain i hi callee args hop
  have hend := config_visits h
  have hbelow (n : Nat) : ExitsBelow True (config p f o c n).2.exits S := by
    induction n with
    | zero => exact fun b e he => by simp [config, start] at he
    | succ n ih =>
      have hrun := run_config p f o c n
      have hlt (hne : (config p f o c n).1 ≠ []) : n + 1 ≤ z.visits := by
        by_contra hn
        have hle : z.visits ≤ n := Nat.le_of_lt_succ (Nat.lt_of_not_le hn)
        exact hne (by rw [config_of_empty (by rw [hend]) hle, hend])
      have hsucc := config_succ p f o c n
      generalize config p f o c n = s at hrun ih hlt hsucc
      obtain ⟨w, a⟩ := s
      cases w with
      | nil => rw [hsucc]; exact ih
      | cons b w =>
        obtain ⟨a', out, hs, hadvance⟩ := advance_cons hrun
        have harena := config_arena p f o c (hlt (List.cons_ne_nil b w))
        rw [hsucc, hadvance, hend] at harena
        have hnext := hrun.visit hs
        obtain ⟨hprog, -, -, hcls, -⟩ := run_program hnext
        have hgrown : Grown [] a'.toView z.toView :=
          ⟨hzprog.trans hprog.symm, (run_oracle h).trans (run_oracle hnext).symm,
            by rw [hzcls]; exact congrArg (fun d => { d with arena := z.cls.arena }) hcls.symm,
            harena, fun _ hd => absurd hd List.not_mem_nil⟩
        have hb : b ∈ z.exits := ((run_settled hp hv hc h).visited b).2
          ((run_explored hrun).reachable b (.inr List.mem_cons_self))
        rw [hsucc, hadvance]
        exact visit_saturated hp hc hrun hs hgrown hkeeps hS hb ih
  have hz := hbelow z.visits
  rwa [hend] at hz

/-- A finished run comes to the least solution. -/
theorem run_leastSolution (h : Run {o} p f c [] z) : LeastSolution p f z := by
  have hz := run_settled hp hv hc h
  refine ⟨hz.visited, fun b e he => ?_, fun S hS b e s he hs => ?_⟩
  · rw [Facts.same_iff, (hz.stable he).out, recompute]
    exact (knowledge_foldl_transfer (hz.aliases b (mem_of_getElem?_eq_some he))).symm
  · obtain ⟨s', hs', hle⟩ := run_below hp hv hc hplain h hS b e he
    obtain rfl : s' = s := Option.some.inj (hs'.symm.trans hs)
    exact Facts.leq_iff.2 (Below.true_iff.1 hle)

end Plain

theorem plain_of_calls (hcalls : ∀ i ∈ p.instructions f, ∀ callee ∈ (p.inst i).op.callee?,
    opts.kindOf callee ≠ .opaqueCall) (o : Oracle) :
    ∀ i ∈ p.instructions f, (start p f o (Classification.ofFunc p opts f).1).Plain i := by
  intro i hi callee args hop
  show (Classification.ofFunc p opts f).1.kindOf i ≠ _
  rw [Classification.kindOf_ofFunc hi hop]
  exact hcalls i hi callee (by rw [show (p.inst i).op = _ from hop]; rfl)

/-- Without calls of unknown effect, the analysis converges to the least solution of its equations,
with any bound that is large enough, and however the oracle would answer. -/
theorem exists_leastSolution (hp : p.Linked) (hv : p.verify f = []) (opts : Options)
    (hcalls : ∀ i ∈ p.instructions f, ∀ callee ∈ (p.inst i).op.callee?,
      opts.kindOf callee ≠ .opaqueCall) :
    ∃ N,
      (∀ o bound, N ≤ bound →
        (solve p f { opts with maxIterations := bound } o
          (Classification.ofFunc p opts f).1).converged = true ∧
        LeastSolution p f (solve p f { opts with maxIterations := bound } o
          (Classification.ofFunc p opts f).1)) ∧
      ∀ w a, Run Set.univ p f (Classification.ofFunc p opts f).1 w a →
        (N ≤ a.visits → w = []) ∧ (w = [] → LeastSolution p f a) := by
  have hc := Classification.ofFunc_numbered p opts f
  have hplain := plain_of_calls hcalls
  obtain ⟨N, hN⟩ := converges_of_keepsHandles hp f opts .conservative fun i hi =>
    (hplain .conservative i hi).keepsHandles
  have hempty := converged_solve_iff.1 (hN N le_rfl)
  -- A run with any oracle takes as many visits as that with the conservative one.
  have hend {O : Set Oracle} {w a} (h : Run O p f (Classification.ofFunc p opts f).1 w a)
      (hle : N ≤ a.visits) : w = [] := by
    have hrun := config_visits (run_withOracle hp (hplain .conservative) h)
    have := config_of_empty hempty hle
    rw [← hempty, ← this]
    exact congrArg Prod.fst hrun.symm
  refine ⟨N, fun o bound hbound => ?_, fun w a h => ⟨hend h, ?_⟩⟩
  · have hconv : (solve p f { opts with maxIterations := bound } o
        (Classification.ofFunc p opts f).1).converged = true := by
      refine converged_solve_iff.2 ?_
      rcases visits_config p f o (Classification.ofFunc p opts f).1 bound with h | h
      · exact h
      · exact hend (run_config ..) (by rw [h]; exact hbound)
    exact ⟨hconv, run_leastSolution hp hv hc (hplain o) (run_of_converged hconv)⟩
  · rintro rfl
    exact run_leastSolution hp hv hc (hplain a.oracle) (run_withOracle hp (hplain a.oracle) h)

theorem exists_leastSolution_loop : ∃ p, Program.load Program.loopText.toList = .ok p ∧ p.Linked ∧
    p.verify 0 = [] ∧
    (∀ i ∈ p.instructions 0, ∀ callee ∈ (p.inst i).op.callee?,
      Options.kindOf {} callee ≠ .opaqueCall) ∧
    ∃ N,
      (∀ o bound, N ≤ bound →
        (solve p 0 { maxIterations := bound } o (Classification.ofFunc p {} 0).1).converged = true ∧
        LeastSolution p 0 (solve p 0 { maxIterations := bound } o
          (Classification.ofFunc p {} 0).1)) ∧
      ∀ w a, Run Set.univ p 0 (Classification.ofFunc p {} 0).1 w a →
        (N ≤ a.visits → w = []) ∧ (w = [] → LeastSolution p 0 a) := by
  obtain ⟨p, hload, hp, hv, hcalls⟩ :=
    Program.exists_load (s := Program.loopText.toList) (P := fun p =>
      p.verify 0 = [] ∧ ∀ i ∈ p.instructions 0, ∀ callee ∈ (p.inst i).op.callee?,
        Options.kindOf {} callee ≠ .opaqueCall)
      (by decide +kernel)
  exact ⟨p, hload, hp, hv, hcalls, exists_leastSolution hp hv {} hcalls⟩

end Analysis

end BoxFlow
