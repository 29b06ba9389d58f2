import Mathlib.Data.Set.Insert
import Mathlib.Logic.Function.Iterate
import BoxFlow.Dataflow.Analysis
import BoxFlow.Proofs.Arena
import BoxFlow.Proofs.IR.Linked

/-!
# Runs of the worklist

`Run O` describes the analyses in progress that visits from the worklist lead to. The answers of
the oracle may change from one instruction to the next, as long as each is that of an oracle in `O`;
an instruction asks about no location twice, so this covers oracles that remember what they have
been asked. `Analysis.solve` is a run with a single oracle, cut off at its bound (`run_solve`).
-/

namespace BoxFlow

namespace Analysis

/-! ## Instructions and visits -/

/-- Instruction `i` is taken with some oracle. -/
def Step (O : Set Oracle) (i : InstId) (t u : Analysis × Facts) : Prop :=
  ∃ o ∈ O, u = step ({ t.1 with oracle := o }, t.2) i

/-- Instructions taken one after another. -/
inductive Steps (O : Set Oracle) : List InstId → Analysis × Facts → Analysis × Facts → Prop
  | nil {t} : Steps O [] t t
  | cons {i is t u v} : Step O i t u → Steps O is u v → Steps O (i :: is) t v

/-- Visits from the worklist. -/
inductive Run (O : Set Oracle) (p : Program) (f : FuncId) (c : Classification) :
    List BlockId → Analysis → Prop
  | start {o} : o ∈ O → Run O p f c (roots p f) (start p f o c)
  | visit {b w a a' out} : Run O p f c (b :: w) a →
      Steps O (p.block b).insts (a, a.entry b) (a', out) →
      Run O p f c (if a.changes b out then enqueue w (p.successorBlocks b) else w)
        (a'.finish b out)

variable {O : Set Oracle} {p : Program} {f : FuncId} {c : Classification}
  {a a' : Analysis} {s : Facts} {t u : Analysis × Facts} {i : InstId} {is : List InstId}
  {b : BlockId} {w : List BlockId}

/-- What each instruction keeps, all of them keep. -/
theorem Steps.induction {P : Analysis × Facts → Prop} (h : Steps O is t u)
    (hstep : ∀ {i t u}, i ∈ is → Step O i t u → P t → P u) (ht : P t) : P u := by
  induction h with
  | nil => exact ht
  | cons hi _ ih =>
    exact ih (fun hj => hstep (List.mem_cons_of_mem _ hj)) (hstep List.mem_cons_self hi ht)

/-- What a step records: the rule is that of the view it leaves. -/
theorem step_records (h : Step O i t u) : u.2 = u.1.transfer i t.2 ∧
    u.1.before = t.1.before.insert i t.2 ∧ u.1.after = t.1.after.insert i u.2 ∧
    u.1.warnings = addWarnings t.1.warnings (u.1.toView.warnings i t.2) := by
  obtain ⟨o, _, rfl⟩ := h
  exact ⟨rfl, rfl, rfl, rfl⟩

theorem step_oracle (h : Step O i t u) : u.1.oracle ∈ O := by
  obtain ⟨o, ho, rfl⟩ := h
  exact ho

/-! ## What instructions leave alone -/

/-- The analysis with, perhaps, more numbers and more facts about instructions. -/
structure Extends (a a' : Analysis) : Prop where
  program : a'.program = a.program
  func : a'.func = a.func
  exits : a'.exits = a.exits
  visits : a'.visits = a.visits
  converged : a'.converged = a.converged
  cls : a'.cls = { a.cls with arena := a'.cls.arena }
  arena : a.cls.arena.values <+: a'.cls.arena.values

theorem Extends.refl (a : Analysis) : Extends a a :=
  ⟨rfl, rfl, rfl, rfl, rfl, rfl, List.prefix_rfl⟩

theorem Extends.trans {a'' : Analysis} (h : Extends a a') (h' : Extends a' a'') :
    Extends a a'' where
  program := h'.program.trans h.program
  func := h'.func.trans h.func
  exits := h'.exits.trans h.exits
  visits := h'.visits.trans h.visits
  converged := h'.converged.trans h.converged
  cls := by rw [h'.cls, h.cls]
  arena := h.arena.trans h'.arena

theorem Extends.classOfId (h : Extends a a') (x : Id) :
    a'.cls.classOfId x = a.cls.classOfId x := by
  rw [h.cls]; rfl

theorem reserve_prefix (v : View) (i : InstId) : v.cls.arena.values <+: (v.reserve i).values := by
  unfold View.reserve
  dsimp only
  repeat' split
  all_goals first | exact List.prefix_rfl | exact Arena.insert_prefix ..

theorem step_extends (h : Step O i t u) : Extends t.1 u.1 := by
  obtain ⟨o, _, rfl⟩ := h
  exact ⟨rfl, rfl, rfl, rfl, rfl, rfl, reserve_prefix _ i⟩

theorem steps_extends (h : Steps O is t u) : Extends t.1 u.1 :=
  h.induction (P := fun v => Extends t.1 v.1) (fun _ hi ht => ht.trans (step_extends hi)) (.refl _)

/-- A run keeps what it started with. -/
theorem run_program (h : Run O p f c w a) : a.program = p ∧ a.func = f ∧ a.converged = true ∧
    a.cls = { c with arena := a.cls.arena } ∧ c.arena.values <+: a.cls.arena.values := by
  induction h with
  | start => exact ⟨rfl, rfl, rfl, rfl, List.prefix_rfl⟩
  | visit _ hs ih =>
    obtain ⟨hp, hf, hconv, hc, ha⟩ := ih
    have he := steps_extends hs
    exact ⟨he.program.trans hp, he.func.trans hf, he.converged.trans hconv,
      he.cls.trans (by rw [hc]; rfl), ha.trans he.arena⟩

theorem run_classOfId (h : Run O p f c w a) (x : Id) : a.cls.classOfId x = c.classOfId x := by
  rw [(run_program h).2.2.2.1]; rfl

theorem steps_oracle {o : Oracle} (h : Steps {o} is t u) (ho : t.1.oracle = o) :
    u.1.oracle = o :=
  h.induction (P := fun v => v.1.oracle = o) (fun _ hi _ => step_oracle hi) ho

theorem run_oracle {o : Oracle} (h : Run {o} p f c w a) : a.oracle = o := by
  induction h with
  | start ho => exact ho
  | visit _ hs ih => exact steps_oracle hs ih

/-! ## The worklist -/

theorem mem_enqueue {new : List BlockId} : b ∈ enqueue w new ↔ b ∈ w ∨ b ∈ new := by
  induction new generalizing w with
  | nil => simp [enqueue]
  | cons d new ih =>
    have h : b ∈ enqueue (if d ∈ w then w else w ++ [d]) new ↔ _ := ih
    rw [enqueue, List.foldl_cons, ← enqueue, h]
    split <;> simp <;> grind

theorem mem_finish {d : BlockId} {out : Facts} :
    d ∈ (a.finish b out).exits ↔ d = b ∨ d ∈ a.exits := by
  rw [finish, Std.ExtTreeMap.mem_insert, Std.LawfulEqCmp.compare_eq_iff_eq, eq_comm]

/-- A block that is visited is a root, or one of its predecessors has been visited. -/
theorem run_ready (hp : p.Linked) (h : Run O p f c w a) (hb : b ∈ w ∨ b ∈ a.exits) :
    p.predecessorBlocks b = [] ∨ ∃ q ∈ p.predecessorBlocks b, q ∈ a.exits := by
  induction h with
  | start =>
    obtain ⟨-, h⟩ := List.mem_filter.1 (hb.resolve_right (by simp [Analysis.start]))
    left
    simpa [Program.predecessorBlocks] using h
  | @visit b' w a a' out _ hs ih =>
    have hold (h : b ∈ b' :: w ∨ b ∈ a.exits) : p.predecessorBlocks b = [] ∨
        ∃ q ∈ p.predecessorBlocks b, q ∈ (a'.finish b' out).exits := by
      refine (ih h).imp_right ?_
      rintro ⟨q, hq, he⟩
      exact ⟨q, hq, mem_finish.2 (.inr ((steps_extends hs).exits ▸ he))⟩
    rcases hb with hb | hb
    · split at hb
      · rcases mem_enqueue.1 hb with hw | hnew
        · exact hold (.inl (List.mem_cons_of_mem _ hw))
        · exact .inr ⟨b', hp.mem_predecessorBlocks_iff.2 hnew, mem_finish.2 (.inl rfl)⟩
      · exact hold (.inl (List.mem_cons_of_mem _ hb))
    · rcases mem_finish.1 hb with rfl | hb
      · exact hold (.inl List.mem_cons_self)
      · exact hold (.inr ((steps_extends hs).exits ▸ hb))

/-! ## The analysis as a run -/

/-- One visit, if the worklist is not empty. -/
def advance : List BlockId × Analysis → List BlockId × Analysis
  | ([], a) => ([], a)
  | (b :: w, a) =>
    let (a', changed) := a.visit b
    (if changed then enqueue w (a'.program.successorBlocks b) else w, a')

/-- The worklist and the analysis after `n` visits. -/
def config (p : Program) (f : FuncId) (o : Oracle) (c : Classification) (n : Nat) :
    List BlockId × Analysis :=
  advance^[n] (roots p f, start p f o c)

theorem config_succ (p : Program) (f : FuncId) (o : Oracle) (c : Classification) (n : Nat) :
    config p f o c (n + 1) = advance (config p f o c n) :=
  Function.iterate_succ_apply' ..

theorem iterate_eq (n : Nat) (w : List BlockId) (a : Analysis) :
    iterate n w a = { (advance^[n] (w, a)).2 with
      converged := (advance^[n] (w, a)).2.converged && (advance^[n] (w, a)).1.isEmpty } := by
  induction n generalizing w a with
  | zero =>
    cases w with
    | nil => simp [iterate]
    | cons b w => simp [iterate]
  | succ n ih =>
    rw [Function.iterate_succ_apply]
    cases w with
    | nil =>
      have hnil (n : Nat) : advance^[n] ([], a) = ([], a) := Function.iterate_fixed rfl n
      simp [iterate, advance, hnil]
    | cons b w => exact ih _ _

theorem steps_foldl (o : Oracle) (is : List InstId) (t : Analysis × Facts)
    (ht : t.1.oracle = o) : Steps {o} is t (is.foldl step t) := by
  induction is generalizing t with
  | nil => exact .nil
  | cons i is ih =>
    subst ht
    exact .cons ⟨_, rfl, rfl⟩ (ih _ rfl)

theorem eq_foldl_of_steps {o : Oracle} (h : Steps {o} is t u) (ht : t.1.oracle = o) :
    u = is.foldl step t := by
  induction h with
  | nil => rfl
  | cons hi _ ih =>
    rw [List.foldl_cons, ih (step_oracle hi)]
    obtain ⟨o', rfl, rfl⟩ := hi
    subst ht
    rfl

/-- A visit takes the instructions of the block one after another. -/
theorem visit_steps {o : Oracle} (h : Run {o} p f c (b :: w) a) : ∃ a' out,
    Steps {o} (p.block b).insts (a, a.entry b) (a', out) ∧
      a.visit b = (a'.finish b out, a.changes b out) := by
  refine ⟨_, _, steps_foldl o _ _ (run_oracle h), ?_⟩
  rw [visit, (run_program h).1]

theorem advance_cons {o : Oracle} (h : Run {o} p f c (b :: w) a) : ∃ a' out,
    Steps {o} (p.block b).insts (a, a.entry b) (a', out) ∧ advance (b :: w, a) =
      (if a.changes b out then enqueue w (p.successorBlocks b) else w, a'.finish b out) := by
  obtain ⟨a', out, hs, hvisit⟩ := visit_steps h
  have hp : (a'.finish b out).program = p := (steps_extends hs).program.trans (run_program h).1
  refine ⟨a', out, hs, ?_⟩
  rw [advance, hvisit]
  dsimp only
  rw [hp]

theorem run_advance {o : Oracle} {s : List BlockId × Analysis} (h : Run {o} p f c s.1 s.2) :
    Run {o} p f c (advance s).1 (advance s).2 := by
  obtain ⟨w, a⟩ := s
  cases w with
  | nil => exact h
  | cons b w =>
    obtain ⟨a', out, hs, heq⟩ := advance_cons h
    rw [heq]
    exact h.visit hs

theorem run_config (p : Program) (f : FuncId) (o : Oracle) (c : Classification) (n : Nat) :
    Run {o} p f c (config p f o c n).1 (config p f o c n).2 := by
  induction n with
  | zero => exact .start rfl
  | succ n ih =>
    rw [config_succ]
    exact run_advance ih

/-- With one oracle, a run is determined by the number of its visits. -/
theorem config_visits {o : Oracle} (h : Run {o} p f c w a) : config p f o c a.visits = (w, a) := by
  induction h with
  | start ho =>
    obtain rfl := ho
    rfl
  | @visit b w a a' out h hs ih =>
    have hvisits : (a'.finish b out).visits = a.visits + 1 :=
      congrArg (· + 1) (steps_extends hs).visits
    obtain ⟨a'', out', hs', hadvance⟩ := advance_cons h
    have heq := (eq_foldl_of_steps hs (run_oracle h)).trans
      (eq_foldl_of_steps hs' (run_oracle h)).symm
    obtain ⟨rfl, rfl⟩ := Prod.mk.inj heq
    rw [hvisits, config_succ, ih, hadvance]

/-- No number is given up. -/
theorem config_arena (p : Program) (f : FuncId) (o : Oracle) (c : Classification) {m n : Nat}
    (h : m ≤ n) :
    (config p f o c m).2.cls.arena.values <+: (config p f o c n).2.cls.arena.values := by
  induction h with
  | refl => exact List.prefix_rfl
  | @step n _ ih =>
    have hrun := run_config p f o c n
    rw [config_succ]
    generalize config p f o c n = s at hrun ih
    obtain ⟨w, a⟩ := s
    cases w with
    | nil => exact ih
    | cons b w =>
      obtain ⟨a', out, hs, hadvance⟩ := advance_cons hrun
      rw [hadvance]
      exact ih.trans (steps_extends hs).arena

/-- An empty worklist stays empty. -/
theorem config_of_empty {o : Oracle} {m n : Nat} (h : (config p f o c m).1 = []) (hn : m ≤ n) :
    config p f o c n = config p f o c m := by
  induction hn with
  | refl => rfl
  | step _ ih =>
    rw [config_succ, ih]
    generalize config p f o c m = s at h
    obtain ⟨w, a⟩ := s
    subst h
    rfl

/-- A visit is made each time, unless the worklist is empty. -/
theorem visits_config (p : Program) (f : FuncId) (o : Oracle) (c : Classification) (n : Nat) :
    (config p f o c n).1 = [] ∨ (config p f o c n).2.visits = n := by
  induction n with
  | zero => exact .inr rfl
  | succ n ih =>
    rcases ih with ih | ih
    · exact .inl (by rw [config_of_empty ih (Nat.le_succ n), ih])
    · have hrun := run_config p f o c n
      rw [config_succ]
      generalize config p f o c n = s at hrun ih
      obtain ⟨w, a⟩ := s
      cases w with
      | nil => exact .inl rfl
      | cons b w =>
        obtain ⟨a', out, hs, hadvance⟩ := advance_cons hrun
        rw [hadvance]
        exact .inr (congrArg (· + 1) ((steps_extends hs).visits.trans ih))

/-- The analysis is a run that has come to an end, if it has converged, or has been cut off. -/
theorem solve_eq (p : Program) (f : FuncId) (opts : Options) (o : Oracle) (c : Classification) :
    solve p f opts o c = { (config p f o c opts.maxIterations).2 with
      converged := (config p f o c opts.maxIterations).1.isEmpty } := by
  rw [solve, iterate_eq, ← config, (run_program (run_config ..)).2.2.1, Bool.true_and]

theorem converged_solve_iff {opts : Options} {o : Oracle} :
    (solve p f opts o c).converged = true ↔ (config p f o c opts.maxIterations).1 = [] := by
  rw [solve_eq]
  exact List.isEmpty_iff

theorem run_solve (p : Program) (f : FuncId) (opts : Options) (o : Oracle) (c : Classification) :
    ∃ w a, Run {o} p f c w a ∧ solve p f opts o c = { a with converged := w.isEmpty } :=
  ⟨_, _, run_config .., solve_eq ..⟩

/-- An analysis that has converged is a run that has come to its end. -/
theorem run_of_converged {opts : Options} {o : Oracle} (h : (solve p f opts o c).converged = true) :
    Run {o} p f c [] (solve p f opts o c) := by
  have hrun := run_config p f o c opts.maxIterations
  rw [converged_solve_iff.1 h] at hrun
  have hconv := (run_program hrun).2.2.1
  rw [solve_eq, converged_solve_iff.1 h]
  generalize (config p f o c opts.maxIterations).2 = a at hrun hconv
  rw [List.isEmpty_nil, ← hconv]
  exact hrun

end Analysis

end BoxFlow
