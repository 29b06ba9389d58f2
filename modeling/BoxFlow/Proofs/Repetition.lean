import BoxFlow.Proofs.Rewriting.Account
import BoxFlow.Proofs.Validity

/-!
# Running the pass until nothing changes

Every run over a function that changes it leaves fewer additions and subtractions, or as many of
them and fewer reads, whatever the oracle of the run has answered (`Pass.ends_runWith`). So a run
changes nothing sooner or later, when the pass is repeated (`Pass.repetition_ends`).
-/

namespace BoxFlow

/-- Elements that stand for those of another list, counted, and those that stand for nothing. -/
theorem countP_flatMap_add {α β : Type} {l : List α} {g : α → List β} {P : β → Bool}
    {Q R : α → Bool}
    (h : ∀ x ∈ l, (g x).countP P + (if Q x then 1 else 0) = if R x then 1 else 0) :
    (l.flatMap g).countP P + l.countP Q = l.countP R := by
  induction l with
  | nil => rfl
  | cons x l ih =>
    have hx := h x List.mem_cons_self
    have hrest := ih fun y hy => h y (List.mem_cons_of_mem _ hy)
    rw [List.flatMap_cons, List.countP_append, List.countP_cons, List.countP_cons]
    omega

variable {p q : Program} {o : Options} {f : FuncId} {a : Analysis} {φ : Fates} {t : RewriteState}
  {i : InstId}

/-! ## What is left to rewrite -/

namespace Program

/-- Does instruction `i` call one of the operations `ops`? -/
def performs (p : Program) (o : Options) (ops : List Operation) (i : InstId) : Bool :=
  (p.inst i).op.callee?.any fun callee => ops.any fun op => o.kindOf callee = .operation op

/-- The number of calls of the operations `ops` in function `f`. -/
def performed (p : Program) (o : Options) (f : FuncId) (ops : List Operation) : Nat :=
  (p.instructions f).countP (p.performs o ops)

/-- The additions and subtractions in function `f`, and the reads. -/
def rewritable (p : Program) (o : Options) (f : FuncId) : Nat × Nat :=
  (p.performed o f [.add, .subtract], p.performed o f [.read])

theorem performs_of_call {callee : String} {args : List Value} {ops : List Operation}
    (hop : (p.inst i).op = .call callee args) :
    p.performs o ops i = ops.any fun op => o.kindOf callee = .operation op := by
  rw [performs, hop]
  rfl

theorem performs_of_nameOf {op : Operation} {args : List Value}
    (hop : (p.inst i).op = .call (o.names.nameOf op) args) (ops : List Operation) :
    p.performs o ops i = ops.contains op := by
  rw [performs_of_call hop, o.kindOf_nameOf, Bool.eq_iff_iff, List.any_eq_true,
    List.contains_iff_mem]
  constructor
  · rintro ⟨op', hmem, heq⟩
    obtain rfl := CallKind.operation.inj (of_decide_eq_true heq)
    exact hmem
  · exact fun hmem => ⟨op, hmem, decide_eq_true rfl⟩

end Program

/-- The calls are classified by what they call. -/
def Analysis.Kinds (a : Analysis) (p : Program) (o : Options) : Prop :=
  ∀ i ∈ p.instructions a.func, ∀ callee args, (p.inst i).op = .call callee args →
    a.cls.kindOf i = o.kindOf callee

theorem Analysis.Reading.performs (h : a.Reading p i) (hkinds : a.Kinds p o)
    (ops : List Operation) : p.performs o ops i = ops.contains .read := by
  have hcall := h.call
  cases hop : (p.inst i).op with
  | call callee args =>
    have hkind := hkinds i h.mem _ _ hop
    rw [h.kind] at hkind
    rw [Program.performs_of_call hop, ← hkind]
    induction ops with
    | nil => rfl
    | cons op ops ih => rw [List.any_cons, List.contains_cons, ih]; cases op <;> rfl
  | _ => rw [hop] at hcall; cases hcall

namespace Accounted

variable (h : Accounted p a o.names φ t) (hkinds : a.Kinds p o)
include h

theorem instructions_eq :
    t.program.instructions a.func = (p.instructions a.func).flatMap φ.segment := by
  rw [Program.instructions, Program.instructions, h.grows.items.func, List.flatMap_assoc]
  exact List.flatMap_congr fun b _ => by rw [h.blocks]

/-- What stands in the place of a call that has met its fate. -/
theorem performs_kept (hi : i ∈ p.instructions a.func) (hx : φ i = .kept) (ops : List Operation) :
    t.program.performs o ops i = p.performs o ops i := by
  have hbecame := h.became i hi
  rw [hx] at hbecame
  rw [Program.performs, show t.program.inst i = _ from hbecame, Program.performs,
    Form.callee?_map]

include hkinds

/-- Every write that has been put in stands for an addition or a subtraction. -/
theorem performed_arithmetic : t.program.performed o a.func [.add, .subtract] +
    (t.rewriter.stats.folded + t.rewriter.stats.simplified) =
      p.performed o a.func [.add, .subtract] := by
  rw [Program.performed, h.instructions_eq, h.replaced, Program.performed]
  refine countP_flatMap_add fun i hi => ?_
  have hbecame := h.became i hi
  have harith {handle x y : Value} (ha : a.Arithmetic p i handle x y) :
      p.performs o [.add, .subtract] i = true := by
    obtain ⟨callee, rest, hop⟩ := ha.op
    have hkind := ha.kind
    rw [hkinds i hi _ _ hop] at hkind
    rw [Program.performs_of_call hop]
    simpa using hkind
  cases hx : φ i with
  | kept =>
    rw [Fates.segment_eq_self hx, List.countP_singleton, h.performs_kept hi hx]
    rfl
  | dropped l =>
    rw [hx] at hbecame
    rw [Fates.segment_eq_code (by simp [hx]), hx, hbecame.1.performs hkinds]
    rfl
  | written w l =>
    rw [hx] at hbecame
    obtain ⟨-, handle, x, y, ha, hw⟩ := hbecame
    have hwrite := Program.performs_of_nameOf (o := o) (congrArg Inst.op hw) [.add, .subtract]
    rw [Fates.segment_eq_code (by simp [hx]), hx, Fate.code, List.countP_singleton, hwrite,
      harith ha]
    rfl
  | copied r w u =>
    rw [hx] at hbecame
    obtain ⟨-, handle, x, y, n, ha, -, -, hr, hw⟩ := hbecame
    have hwrite := Program.performs_of_nameOf (o := o) (congrArg Inst.op hw) [.add, .subtract]
    have hread := Program.performs_of_nameOf (o := o) (congrArg Inst.op hr) [.add, .subtract]
    rw [Fates.segment_eq_code (by simp [hx]), hx, Fate.code, List.countP_cons,
      List.countP_singleton, hwrite, hread, harith ha]
    rfl

/-- If nothing has been put in, then the reads that have gone are all that has changed. -/
theorem performed_read (hnone : t.rewriter.stats.folded + t.rewriter.stats.simplified = 0) :
    t.program.performed o a.func [.read] + t.rewriter.stats.propagated =
      p.performed o a.func [.read] := by
  rw [h.replaced, List.countP_eq_zero] at hnone
  rw [Program.performed, h.instructions_eq, h.propagated, Program.performed]
  refine countP_flatMap_add fun i hi => ?_
  have hwrite := hnone i hi
  have hbecame := h.became i hi
  cases hx : φ i with
  | kept =>
    rw [Fates.segment_eq_self hx, List.countP_singleton, h.performs_kept hi hx]
    rfl
  | dropped l =>
    rw [hx] at hbecame
    rw [Fates.segment_eq_code (by simp [hx]), hx, hbecame.1.performs hkinds]
    rfl
  | written w l | copied r w u =>
    rw [hx] at hwrite
    exact absurd rfl hwrite

/-- Whatever is reported is less to rewrite. -/
theorem rewritable_lt (hstats : 0 < t.rewriter.stats.total) :
    Prod.Lex (· < ·) (· < ·) (t.program.rewritable o a.func) (p.rewritable o a.func) := by
  have harith := h.performed_arithmetic hkinds
  rw [RewriteStats.total] at hstats
  by_cases hnone : t.rewriter.stats.folded + t.rewriter.stats.simplified = 0
  · have hread := h.performed_read hkinds hnone
    rw [hnone, Nat.add_zero] at harith
    rw [Program.rewritable, Program.rewritable, harith]
    exact .right _ (by omega)
  · exact .left _ _ (by omega)

end Accounted

/-! ## One run -/

/-- `a` is an analysis of function `f`. Its oracle may have answered whatever it liked, and the
analysis may have been broken off at any visit. -/
def Analysis.Of (p : Program) (o : Options) (f : FuncId) (a : Analysis) : Prop :=
  ∃ O w b, Analysis.Run O p f (Classification.ofFunc p o f).1 w b ∧
    a = { b with converged := w.isEmpty }

namespace Analysis.Of

theorem solve (p : Program) (o : Options) (f : FuncId) (oracle : Oracle) :
    Of p o f (Analysis.solve p f o oracle (Classification.ofFunc p o f).1) := by
  obtain ⟨w, b, hrun, heq⟩ := run_solve p f o oracle (Classification.ofFunc p o f).1
  exact ⟨_, w, b, hrun, heq⟩

variable (h : Of p o f a)
include h

theorem func : a.func = f := by
  obtain ⟨O, w, b, hrun, rfl⟩ := h
  exact (run_program hrun).2.1

theorem kinds : a.Kinds p o := by
  rw [Analysis.Kinds, h.func]
  obtain ⟨O, w, b, hrun, rfl⟩ := h
  intro i hi callee args hop
  have hcls := (run_program hrun).2.2.2.1
  rw [Classification.kindOf, show View.cls _ = b.cls from rfl, hcls]
  exact Classification.kindOf_ofFunc hi hop

theorem known (hp : p.Linked) : ∀ i ∈ a.before, i < p.insts.size := by
  obtain ⟨O, w, b, hrun, rfl⟩ := h
  intro i hi
  obtain ⟨d, -, hid⟩ := (run_explored hrun).recorded i (.inl hi)
  exact Program.lt_of_inst_block (hp.held hid)

end Analysis.Of

namespace Pass

variable {s : PassState}

/-- A way to analyse function `f`. -/
structure Analyzer (o : Options) (f : FuncId) where
  analyze : Program → Analysis × List Log.Record
  sound : ∀ p, Analysis.Of p o f (analyze p).1

/-- Analyses with the oracles that are made for the programs. -/
def Analyzer.ofFactory (o : Options) (f : FuncId) (make : Program → Oracle × List Log.Record) :
    Analyzer o f where
  analyze p :=
    let (cls, scans) := Classification.ofFunc p o f
    let (oracle, records) := make p
    let a := Analysis.solve p f o oracle cls
    (a, Classification.record p f cls scans :: records ++ a.records)
  sound p := .solve p o f (make p).1

/-- `runFunc`, with any way to analyse the function. -/
def runWith (z : Analyzer o f) : PassM Bool := do
  let p := (← get).program
  if (p.func f).blocks.isEmpty then return false
  let (a, records) := z.analyze p
  report records
  modify fun s => { s with analyses := s.analyses ++ [a] }
  let (changed, t) ← rewrite { analysis := a, names := o.names } RewriteM.run
  let result : FuncResult :=
    { func := (p.func f).name, changed, visits := a.visits, converged := a.converged
      stats := t.rewriter.stats, warnings := a.warnings }
  modify fun s => { s with results := s.results ++ [result] }
  report [summaryRecord a.cls result]
  return changed

theorem runFunc_eq (o : Options) (kind : OracleKind) (f : FuncId) :
    runFunc o kind f = runWith (.ofFactory o f fun p => oracleFor p o kind f) := rfl

/-- A run over a function succeeds, and if it has changed the function, there is less to rewrite. -/
theorem ends_runWith (z : Analyzer o f) (hp : s.program.Linked) :
    Ends (runWith z) s fun changed t => t.program.Linked ∧ (changed = true →
      Prod.Lex (· < ·) (· < ·) (t.program.rewritable o f) (s.program.rewritable o f)) := by
  unfold runWith
  refine .bind_get ?_
  dsimp only
  split
  · exact .pure ⟨hp, nofun⟩
  · have hsound := z.sound s.program
    have hfunc := hsound.func
    have hrun := RewriteM.ends_run_accounted hp (hsound.known hp) o.names
    have hkeeps := ends_run_keeps (o := o) hp fun _ => ⟨hsound.known hp, hsound.kinds⟩
    refine .bind_modify (.bind_modify (.bind (ends_rewrite (hrun.and hkeeps.yields)) ?_))
    rintro ⟨changed, t⟩ u ⟨⟨⟨φ, h, hchanged⟩, hkept⟩, hu⟩
    refine .bind_modify (.bind_modify (.pure ?_))
    have hless := fun hc => h.rewritable_lt hsound.kinds (hchanged.1 hc)
    rw [hfunc] at hless
    exact ⟨hu ▸ hkept.linked, hu ▸ hless⟩

/-! ## Many runs -/

/-- Every run over a function that changes it leaves less to rewrite, and when the pass is repeated,
with any analyses, a run comes that leaves the function alone. -/
theorem repetition_ends (zs : Nat → Analyzer o f) (hp : s.program.Linked) :
    (∀ z : Analyzer o f, Ends (runWith z) s fun changed t => changed = true →
      Prod.Lex (· < ·) (· < ·) (t.program.rewritable o f) (s.program.rewritable o f)) ∧
    ∃ n, Ends (((List.range (n + 1)).map zs).mapM runWith) s fun changes _ =>
      changes = List.replicate n true ++ [false] := by
  refine ⟨fun z => (ends_runWith z hp).mono fun _ _ => And.right, ?_⟩
  have hwf : WellFounded (Prod.Lex (· < ·) (· < ·) : Nat × Nat → Nat × Nat → Prop) :=
    (Prod.lex Nat.lt_wfRel Nat.lt_wfRel).wf
  generalize hm : s.program.rewritable o f = m
  induction m using hwf.induction generalizing s zs with
  | _ m ih =>
    subst hm
    obtain ⟨changed, t, hrun, hlinked, hless⟩ := ends_runWith (zs 0) hp
    cases changed with
    | false =>
      refine ⟨0, ?_⟩
      rw [List.range_one, List.map_singleton, List.mapM_cons, List.mapM_nil]
      exact .bind_ok hrun (.pure rfl)
    | true =>
      obtain ⟨n, hn⟩ := ih _ (hless rfl) (fun k => zs (k + 1)) hlinked rfl
      refine ⟨n + 1, ?_⟩
      rw [List.range_succ_eq_map, List.map_cons, List.map_map, List.mapM_cons]
      refine .bind_ok hrun (hn.bind fun changes u hc => .pure ?_)
      rw [hc]
      rfl

/-- A constant that is read and written to another handle, which is then added to itself. -/
def twoRunsText : String :=
  "define void @f()\x7be:%a=call ptr @create(i64 5)%b=call ptr @create(i64 0)" ++
  "%c=call ptr @create(i64 0)%x=call i64 @read(ptr %a)call void @write(ptr %b,i64 %x)" ++
  "call void @add(ptr %c,ptr %b,ptr %b)ret void\x7d"

theorem repetition_ends_twoRuns : ∃ p, Program.load twoRunsText.toList = .ok p ∧ p.Linked ∧
    p.rewritable {} 0 = (1, 1) ∧
    Ends (runFunc {} .escape 0) { program := p } (fun changed t => changed = true ∧
      t.program.rewritable {} 0 = (1, 0)) ∧
    (Ends (runFunc {} .escape 0) { program := p } fun changed t => changed = true →
      Prod.Lex (· < ·) (· < ·) (t.program.rewritable {} 0) (p.rewritable {} 0)) ∧
    ∃ n, Ends (((List.range (n + 1)).map fun _ => Analyzer.ofFactory {} 0
        fun p => oracleFor p {} .escape 0).mapM runWith) { program := p } fun changes _ =>
      changes = List.replicate n true ++ [false] := by
  obtain ⟨p, hload, hp, hleft, hrun⟩ := Program.exists_load (s := twoRunsText.toList)
    (P := fun p => p.rewritable {} 0 = (1, 1) ∧
      Ends (runFunc {} .escape 0) { program := p } fun changed t => changed = true ∧
        t.program.rewritable {} 0 = (1, 0)) (by decide +kernel)
  obtain ⟨hless, hends⟩ := repetition_ends (s := { program := p })
    (fun _ => Analyzer.ofFactory {} 0 fun p => oracleFor p {} .escape 0) hp
  exact ⟨p, hload, hp, hleft, hrun, runFunc_eq .. ▸ hless _, hends⟩

end Pass

end BoxFlow
