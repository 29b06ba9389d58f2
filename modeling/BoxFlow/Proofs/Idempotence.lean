import BoxFlow.Proofs.Listing.Resolved
import BoxFlow.Proofs.Rewriting.Carried
import BoxFlow.Proofs.Rewriting.Exhausted
import BoxFlow.Proofs.Validity

/-!
# Running the pass again

A run of the pass folds the arithmetic of a function once and then propagates constants once, in the
order of the text. What becomes constant on the way is found only if it comes later. A second run
changes nothing exactly if the rewritings of the first are all exhausted
(`Pass.runModule_again_iff`), provided that the analyses have converged and that no call has gone
that a value owes its class to. A constant that is read, written to another handle and then added
is enough for a second run to change something (`Pass.not_idempotent_relayed`).
-/

namespace BoxFlow

/-- What the values of function `f` are classified as in `p`, they are in `q`. -/
def SameClasses (p q : Program) (o : Options) (f : FuncId) : Prop :=
  ∀ x, (Classification.ofFunc q o f).1.classOf x = (Classification.ofFunc p o f).1.classOf x

instance (p q : Program) (o : Options) (f : FuncId) : Decidable (SameClasses p q o f) :=
  decidable_of_iff (∀ x ∈ p.values f ++ q.values f,
    (Classification.ofFunc q o f).1.classOf x = (Classification.ofFunc p o f).1.classOf x) <| by
    refine ⟨fun h x => ?_, fun h x _ => h x⟩
    by_contra hne
    refine hne (h x ?_)
    by_cases hx : (Classification.ofFunc p o f).1.classOf x = .irrelevant
    · exact List.mem_append_right _ (Classification.mem_mentioned_of_classOf (hx ▸ hne))
    · exact List.mem_append_left _ (Classification.mem_mentioned_of_classOf hx)

namespace Pass

variable {p p' q : Program} {o : Options} {f : FuncId} {kind : OracleKind} {s : PassState}
  {φ : Fates} {t : RewriteState}

/-! ## Turns -/

/-- The rewriting of a function when nothing has been decided. -/
def fresh (o : Options) (kind : OracleKind) (p : Program) (f : FuncId) : RewriteState :=
  { program := p, rewriter := { analysis := (analyze p o kind f).1, names := o.names } }

/-- The rewriting of a function in its turn, as it has ended. -/
def turn (o : Options) (kind : OracleKind) (p : Program) (f : FuncId) : RewriteState :=
  match RewriteM.run (fresh o kind p f) with
  | .ok _ t => t
  | .error _ t => t

/-- The rewritings of several functions, one after another. -/
def turns (o : Options) (kind : OracleKind) (p : Program) : List FuncId → List RewriteState
  | [] => []
  | f :: fs =>
    if (p.func f).blocks.isEmpty then turns o kind p fs
    else turn o kind p f :: turns o kind (turn o kind p f).program fs

/-- The oracle answers as before for the calls that stay. -/
theorem agree_oracleFor (h : p.Follows q o f φ) (hp : p.Enclosed f) (kind : OracleKind) :
    Analysis.Agree p f φ (oracleFor p o kind f).1 (oracleFor q o kind f).1 := by
  cases kind with
  | conservative => exact fun _ _ _ _ _ _ _ => rfl
  | escape => exact fun i hi hfate x hx m n => h.oracle_subst hp hi hfate hx m n

/-- A function that has had its turn, and is analysed again. -/
theorem exists_resumes {J : InstId → Fate → Prop} (hp : p.Enclosed f)
    (h : Rewriting p (analyze p o kind f).1 o.names J φ [] t)
    (hconv : (analyze p o kind f).1.converged = true) (hq : q.Linked)
    (hcarries : t.program.Carries f q) (hclasses : SameClasses p q o f) :
    ∃ r, Resumes p q o f J φ r (analyze p o kind f).1 (analyze q o kind f).1 t := by
  obtain ⟨-, hkinds⟩ := analyze_knows hp.linked hconv
  have hfunc := (analyze_program p o kind f).2
  have hfollows : p.Follows q o f φ := h.follows hp.linked hfunc hkinds hcarries
  obtain ⟨r, hredone⟩ := Analysis.exists_redone hfollows hp hq hclasses
    (agree_oracleFor hfollows hp kind)
  rw [← analyze_fst, ← analyze_fst] at hredone
  obtain ⟨-, hkinds'⟩ := analyze_knows hq (hredone.converged.trans hconv)
  have hlinked := h.linked hp.linked
  refine ⟨r, ⟨h, hp.linked, hfollows, hcarries.instructions_eq,
    fun i hi => hcarries.inst_eq hlinked hi, (analyze_program p o kind f).1, hfunc,
    (analyze_program q o kind f).2, Analysis.solve_inDomain .., Analysis.solve_inDomain ..,
    fun hi hop => hkinds _ hi _ _ hop, fun hi hop => hkinds' _ hi _ _ hop, ?_, hredone⟩⟩
  intro i callee args x hi hop hx
  cases hlit : x.isLiteral with
  | true =>
    cases x with
    | literal l => rfl
    | _ => cases hlit
  | false =>
    refine hfollows.subst_of_classified hp hclasses ?_
    rw [Classification.classOf_handleArg hi hop hx hlit]
    nofun

theorem converged_of_turn (h : (turn o kind p f).rewriter.analysis.converged = true) :
    (analyze p o kind f).1.converged = true := by
  by_contra hconv
  have hrun : Ends RewriteM.run (fresh o kind p f) fun _ t => t = fresh o kind p f := by
    unfold RewriteM.run
    refine .bind_get ?_
    rw [if_neg (show ¬(fresh o kind p f).rewriter.analysis.converged = true from hconv)]
    exact .pure rfl
  obtain ⟨b, t, hrun, rfl⟩ := hrun
  rw [turn, hrun] at h
  exact hconv h

/-- A turn is a rewriting that succeeds. -/
theorem ends_run_turn (hp : p.Linked) (hconv : (analyze p o kind f).1.converged = true) :
    Ends RewriteM.run (fresh o kind p f) fun _ t => t = turn o kind p f ∧
      ∃ φ, Rewriting p (analyze p o kind f).1 o.names (fun _ _ => True) φ [] t := by
  have hS : Sanctions p (analyze p o kind f).1 o.names fun _ _ => True :=
    ⟨fun _ _ _ _ _ => trivial, fun _ _ _ _ => trivial⟩
  obtain ⟨b, t, hrun, hφ⟩ := RewriteM.ends_run hp hS (analyze_knows hp hconv).1
  exact .ok hrun ⟨by rw [turn, fresh, hrun], hφ⟩

/-! ## The first run -/

theorem ends_runFunc_turn (hp : s.program.Linked) (hb : (s.program.func f).blocks ≠ [])
    (hconv : (analyze s.program o kind f).1.converged = true) :
    Ends (runFunc o kind f) s fun _ u => u.program = (turn o kind s.program f).program := by
  have hrun := ends_run_turn hp hconv
  unfold runFunc
  refine .bind_get ?_
  dsimp only
  rw [if_neg (by simpa using hb)]
  refine .bind_modify (.bind_modify (.bind (ends_rewrite hrun) ?_))
  rintro x u ⟨⟨hx, -⟩, hu⟩
  exact .bind_modify (.bind_modify (.pure (by rw [← hx]; exact hu)))

theorem ends_runFunc_empty (hb : (s.program.func f).blocks = []) :
    Ends (runFunc o kind f) s fun changed u => changed = false ∧ u = s := by
  unfold runFunc
  refine .bind_get ?_
  dsimp only
  rw [if_pos (by simpa using hb)]
  exact .pure ⟨rfl, rfl⟩

/-- In a run that has taken the program `p` to `q`, function `f` has had the turn `t`. -/
def HadTurn (o : Options) (kind : OracleKind) (p q : Program) (f : FuncId) (t : RewriteState) :
    Prop :=
  t.rewriter.analysis.converged = true ∧ ∃ p' : Program, p'.Linked ∧ p.Carries f p' ∧
    t = turn o kind p' f ∧ t.program.Carries f q

/-- The functions `fs` are still as in `p` when, in the program `p'`, their turns come. The program
is `q` after these. -/
structure HaveTurns (o : Options) (kind : OracleKind) (p p' : Program) (fs : List FuncId)
    (q : Program) : Prop where
  linked : q.Linked
  functions : q.functions = p'.functions
  blocks : ∀ g, (q.func g).blocks = (p'.func g).blocks
  carries : ∀ g ∉ fs, p'.Carries g q
  turns : List.Forall₂ (HadTurn o kind p q) (fs.filter fun f => (p.func f).blocks ≠ [])
    (turns o kind p' fs)

theorem ends_turns {fs : List FuncId} (hnodup : fs.Nodup) (hp : s.program.Linked)
    (hblocks : ∀ g, (s.program.func g).blocks = (p.func g).blocks)
    (hcarries : ∀ g ∈ fs, p.Carries g s.program)
    (hconv : ∀ t ∈ turns o kind s.program fs, t.rewriter.analysis.converged = true) :
    Ends (fs.mapM (runFunc o kind)) s fun _ u => HaveTurns o kind p s.program fs u.program := by
  induction fs generalizing s with
  | nil =>
    exact .pure ⟨hp, rfl, fun _ => rfl, fun g _ => .refl g _, .nil⟩
  | cons f fs ih =>
    obtain ⟨hf, hnodup⟩ := List.nodup_cons.1 hnodup
    rw [List.mapM_cons]
    have hcarries' : ∀ g ∈ fs, p.Carries g s.program := fun g hg =>
      hcarries g (List.mem_cons_of_mem _ hg)
    by_cases hb : (s.program.func f).blocks = []
    · rw [turns, if_pos (by simpa using hb)] at hconv
      refine (ends_runFunc_empty hb).bind ?_
      rintro _ u ⟨-, rfl⟩
      refine (ih hnodup hp hblocks hcarries' hconv).bind fun _ v hv => .pure ?_
      refine ⟨hv.linked, hv.functions, hv.blocks,
        fun g hg => hv.carries g fun hg' => hg (List.mem_cons_of_mem _ hg'), ?_⟩
      rw [turns, if_pos (by simpa using hb),
        List.filter_cons_of_neg (by simpa [← hblocks] using hb)]
      exact hv.turns
    · rw [turns, if_neg (by simpa using hb)] at hconv
      have hturn := hconv _ List.mem_cons_self
      have hanalyze := converged_of_turn hturn
      obtain ⟨_, _, -, rfl, φ, hφ⟩ := ends_run_turn hp hanalyze
      have hfunc := (analyze_program s.program o kind f).2
      have hstep {g : FuncId} (hg : g ≠ f) :
          s.program.Carries g (turn o kind s.program f).program :=
        hφ.carries hp (hfunc.symm ▸ hg)
      refine (ends_runFunc_turn hp hb hanalyze).bind fun _ u hu => ?_
      have hlater := ih (s := u) hnodup (hu ▸ hφ.linked hp)
        (fun g => by rw [hu, hφ.program.funcs, hblocks])
        (fun g hg => hu ▸ (hcarries' g hg).trans (hstep fun hgf => hf (hgf ▸ hg)))
        (fun t ht => hconv t (List.mem_cons_of_mem _ (hu ▸ ht)))
      rw [hu] at hlater
      refine hlater.bind fun _ v hv => .pure ⟨hv.linked, hv.functions.trans hφ.program.functions,
        fun g => (hv.blocks g).trans (hφ.program.funcs g), fun g hg => ?_, ?_⟩
      · rw [List.mem_cons, not_or] at hg
        exact (hstep hg.1).trans (hv.carries g hg.2)
      · rw [turns, if_neg (by simpa using hb),
          List.filter_cons_of_pos (by simpa [← hblocks] using hb)]
        exact .cons ⟨hturn, s.program, hp, hcarries f List.mem_cons_self, rfl, hv.carries f hf⟩
          hv.turns

/-! ## The second run -/

/-- A run over a function leaves it alone exactly if there is nothing to decide. -/
theorem ends_runFunc_again (hq : s.program.Linked) (hconv : (s.program.func f).blocks ≠ [] →
      (analyze s.program o kind f).1.converged = true) :
    Ends (runFunc o kind f) s fun changed u =>
      (changed = false ↔
        ((s.program.func f).blocks ≠ [] → (fresh o kind s.program f).Exhausted)) ∧
      (changed = false → u.program = s.program) := by
  by_cases hb : (s.program.func f).blocks = []
  · refine (ends_runFunc_empty hb).mono fun _ u ⟨hchanged, hu⟩ => ?_
    exact ⟨iff_of_true hchanged fun hne => absurd hb hne, fun _ => congrArg _ hu⟩
  · have hrun := (ends_run_turn hq (hconv hb)).and (RewriteM.run_idles (hconv hb) rfl)
    unfold runFunc
    refine .bind_get ?_
    dsimp only
    rw [if_neg (by simpa using hb)]
    refine .bind_modify (.bind_modify (.bind (ends_rewrite hrun) ?_))
    rintro ⟨changed, t⟩ u ⟨⟨-, hidle, ht⟩, hu⟩
    refine .bind_modify (.bind_modify (.pure ⟨?_, fun hchanged => ?_⟩))
    · exact hidle.trans ⟨fun h _ => h, fun h => h hb⟩
    · exact hu.trans (congrArg RewriteState.program (ht hchanged))

theorem ends_again {fs : List FuncId} (hs : s.program = q) (hq : q.Linked)
    (hconv : ∀ f ∈ fs, (q.func f).blocks ≠ [] → (analyze q o kind f).1.converged = true) :
    Ends (fs.mapM (runFunc o kind)) s fun changes u =>
      (changes.any id = false ↔
        ∀ f ∈ fs, (q.func f).blocks ≠ [] → (fresh o kind q f).Exhausted) ∧
      (changes.any id = false → u.program = q) := by
  induction fs generalizing s with
  | nil => exact .pure ⟨by simp, fun _ => hs⟩
  | cons f fs ih =>
    subst hs
    have hkeeps : Yields (runFunc o kind f) s fun _ t => Keeps s.program t.program o :=
      (runFunc_keeps hq f).yields
    rw [List.mapM_cons]
    refine ((ends_runFunc_again hq (hconv f List.mem_cons_self)).and hkeeps).bind ?_
    rintro changed u ⟨⟨hidle, hu⟩, hkept⟩
    cases changed with
    | true =>
      refine (mapM_keeps hkept.linked fs).bind fun changes v _ => .pure ?_
      have hbusy : ¬((s.program.func f).blocks ≠ [] → (fresh o kind s.program f).Exhausted) :=
        fun h => nomatch hidle.2 h
      refine ⟨iff_of_false (by simp) fun h => hbusy (h f List.mem_cons_self), by simp⟩
    | false =>
      refine (ih (hu rfl) fun g hg => hconv g (List.mem_cons_of_mem _ hg)).bind ?_
      rintro changes v ⟨hall, hv⟩
      refine .pure ⟨?_, by simpa using hv⟩
      rw [List.forall_mem_cons, ← hall, ← hidle]
      simp

/-! ## Both runs -/

/-- What is left to decide after the turn of a function is what there is to decide in a second
run. -/
theorem HadTurn.exhausted_iff (h : HadTurn o kind p q f t) (hp : p.Linked) (hw : p.WellFormed f)
    (hl : p.LiteralsNumbered) (hq : q.Linked) (hclasses : SameClasses p q o f) :
    (analyze q o kind f).1.converged = true ∧ (t.Exhausted ↔ (fresh o kind q f).Exhausted) := by
  obtain ⟨hconv, p', hp', hcarries, rfl, hcarries'⟩ := h
  have hconv := converged_of_turn hconv
  obtain ⟨_, _, -, rfl, φ, hφ⟩ := ends_run_turn hp' hconv
  have hclasses' : SameClasses p' q o f := fun x => by
    rw [hcarries.ofFunc_eq hp]
    exact hclasses x
  obtain ⟨r, hr⟩ := exists_resumes (hcarries.enclosed hp hw hl hp') hφ hconv hq hcarries'
    hclasses'
  exact ⟨hr.redone.converged.trans hconv, hr.exhausted_iff⟩

/-- After a run over a module that has been loaded, with analyses that have converged and values
that are classified as before, another run says that nothing has changed, and leaves the text as it
is, exactly if the rewritings of the first run have left nothing to decide. -/
theorem runModule_again_iff {text : List Char} {file name : String}
    (hload : Program.load text file o name = .ok p) (hs : s.program = p)
    (hconv : ∀ t ∈ turns o kind p p.moduleFuncs, t.rewriter.analysis.converged = true) :
    Ends (runModule o kind) s fun _ u => (∀ f ∈ p.moduleFuncs, SameClasses p u.program o f) →
      Ends (runModule o kind) { program := u.program } fun changed v =>
        (changed = false ↔ ∀ t ∈ turns o kind p p.moduleFuncs, t.Exhausted) ∧
        (changed = false → v.program.text = u.program.text) := by
  subst hs
  have hp := Program.load_linked hload
  have hl := Program.load_literalsNumbered hload
  obtain ⟨⟨_, _, hlisting⟩, hv, -⟩ := Program.load_eq_ok hload
  have hfirst := ends_turns (p := s.program) (Listing.toProgram_listed hlisting).nodup_moduleFuncs
    hp (fun _ => rfl) (fun g _ => .refl g _) hconv
  unfold runModule
  refine .bind_get (hfirst.bind fun _ u hu => .pure fun hclasses => .bind_get ?_)
  have hfuncs : u.program.moduleFuncs = s.program.moduleFuncs := by
    rw [Program.moduleFuncs, hu.functions]
    rfl
  have hturn {f t} (hf : f ∈ s.program.moduleFuncs) (ht : HadTurn o kind s.program u.program f t) :=
    ht.exhausted_iff hp (Program.verify_eq_nil_iff.1 (hv f hf)) hl hu.linked (hclasses f hf)
  have hexists {f} (hf : f ∈ s.program.moduleFuncs) (hb : (u.program.func f).blocks ≠ []) :=
    exists_right_of_mem hu.turns (x := f)
      (List.mem_filter.2 ⟨hf, by simpa [hu.blocks] using hb⟩)
  have hsecond : Ends (s.program.moduleFuncs.mapM (runFunc o kind)) { program := u.program } _ :=
    ends_again rfl hu.linked fun f hf hb => by
      obtain ⟨t, -, ht⟩ := hexists hf hb
      exact (hturn hf ht).1
  rw [hfuncs]
  refine hsecond.bind fun changes v hsame => .pure ⟨hsame.1.trans ⟨fun h t ht => ?_,
    fun h f hf hb => ?_⟩, fun hchanged => congrArg Program.text (hsame.2 hchanged)⟩
  · obtain ⟨f, hf, hhad⟩ := exists_left_of_mem hu.turns ht
    obtain ⟨hf, hb⟩ := List.mem_filter.1 hf
    exact (hturn hf hhad).2.2 (h f hf (by simpa [hu.blocks] using hb))
  · obtain ⟨t, ht, hhad⟩ := hexists hf hb
    exact (hturn hf hhad).2.1 (h t ht)

theorem runModule_again_iff_folded : ∃ p, Program.load foldedText.toList = .ok p ∧
    (∀ t ∈ turns {} .escape p p.moduleFuncs, t.rewriter.analysis.converged = true) ∧
    (∀ t ∈ turns {} .escape p p.moduleFuncs, t.Exhausted) ∧
    Ends (runModule {} .escape) { program := p } fun changed u => changed = true ∧
      (∀ f ∈ p.moduleFuncs, SameClasses p u.program {} f) ∧
      Ends (runModule {} .escape) { program := u.program } fun changed v =>
        changed = false ∧ v.program.text = u.program.text := by
  obtain ⟨p, hload, -, hconv, hexhausted, hrun⟩ := Program.exists_load (s := foldedText.toList)
    (P := fun p =>
      (∀ t ∈ turns {} .escape p p.moduleFuncs, t.rewriter.analysis.converged = true) ∧
      (∀ t ∈ turns {} .escape p p.moduleFuncs, t.Exhausted) ∧
      Ends (runModule {} .escape) { program := p } fun changed u => changed = true ∧
        ∀ f ∈ p.moduleFuncs, SameClasses p u.program {} f) (by decide +kernel)
  refine ⟨p, hload, hconv, hexhausted,
    (hrun.and (runModule_again_iff hload rfl hconv).yields).mono ?_⟩
  rintro _ u ⟨⟨hchanged, hclasses⟩, hagain⟩
  refine ⟨hchanged, hclasses, (hagain hclasses).mono fun changed v ⟨hidle, htext⟩ => ?_⟩
  exact ⟨hidle.2 hexhausted, htext (hidle.2 hexhausted)⟩

/-- A handle that is read into another, which is then added to itself. -/
def relayedText : String :=
  "define void @f()\x7be:%a=call ptr @create(i64 5)%b=call ptr @create(i64 0)" ++
  "%c=call ptr @create(i64 0)%x=call i64 @read(ptr %a)call void @write(ptr %b,i64 %x)" ++
  "call void @add(ptr %c,ptr %b,ptr %b)ret void\x7d"

theorem not_idempotent_relayed : ∃ p, Program.load relayedText.toList = .ok p ∧ ∀ kind,
    (∀ t ∈ turns {} kind p p.moduleFuncs, t.rewriter.analysis.converged = true) ∧
    Ends (runModule {} kind) { program := p } fun _ u =>
      (∀ f ∈ p.moduleFuncs, SameClasses p u.program {} f) ∧
      Ends (runModule {} kind) { program := u.program } fun changed v =>
        changed = true ∧ v.program.text ≠ u.program.text := by
  obtain ⟨p, hload, -, hkinds⟩ := Program.exists_load (s := relayedText.toList) (P := fun p =>
    ∀ kind ∈ [OracleKind.conservative, .escape],
      (∀ t ∈ turns {} kind p p.moduleFuncs, t.rewriter.analysis.converged = true) ∧
      Ends (runModule {} kind) { program := p } fun _ u =>
        (∀ f ∈ p.moduleFuncs, SameClasses p u.program {} f) ∧
        Ends (runModule {} kind) { program := u.program } fun changed v =>
          changed = true ∧ v.program.text ≠ u.program.text) (by decide +kernel)
  exact ⟨p, hload, fun kind => hkinds kind (by cases kind <;> simp)⟩

end Pass

end BoxFlow
