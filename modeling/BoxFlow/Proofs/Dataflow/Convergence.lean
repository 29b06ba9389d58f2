import Mathlib.Data.Set.Card
import Mathlib.Order.CompletePartialOrder
import BoxFlow.Proofs.Dataflow.Ascent

/-!
# When the worklist runs empty

From one visit to the next, what is known of aliases and of what cells hold only grows at the ends
of blocks (`growing_visit`), and there are only so many numbers. What sets the handles need not
grow: a call that may modify a handle replaces what was known of it, once the handle has come within
its reach. So the analysis converges exactly if from some visit on none takes anything away from
what may have set a handle (`converges_iff`), in particular if no call may modify a handle
(`converges_of_keepsHandles`).
-/

namespace BoxFlow

open Knowledge (Below)

/-- The three tables by number. -/
def Knowledge.table (k : Knowledge) : Fin 3 → Id → Set Id
  | 0 => k.defs
  | 1 => k.aliases
  | 2 => k.pointsTo

namespace Analysis

open View

variable {O : Set Oracle} {p : Program} {f : FuncId} {c : Classification} {a a' : Analysis}
  {s out : Facts} {t u : Analysis × Facts} {i : InstId} {is : List InstId} {b d : BlockId}
  {w : List BlockId} {o : Oracle} {D : Prop}

/-! ## Finitely many facts -/

/-- The values that an analysis may number. -/
def nameable (p : Program) (f : FuncId) (c : Classification) : List Value :=
  c.arena.values ++ (p.instructions f).flatMap fun i => .inst i :: (p.inst i).op.operands

theorem run_nameable (hp : p.Linked) (h : Run O p f c w a) :
    a.cls.arena.values ⊆ nameable p f c := by
  induction h with
  | start => exact List.subset_append_left ..
  | @visit b w a a' out h hs ih =>
    have hmem : b ∈ (p.func f).blocks :=
      ((run_explored h).reachable b (.inr List.mem_cons_self)).mem_blocks hp
    refine (hs.induction (P := fun t => t.1.program = p ∧
      t.1.cls.arena.values ⊆ nameable p f c) ?_ ⟨(run_program h).1, ih⟩).2
    rintro i t u hi hstep ⟨hprog, ht⟩
    refine ⟨(step_extends hstep).program.trans hprog, fun x hx => ?_⟩
    obtain ⟨v, hcls, hg, harena⟩ := step_view hstep
    rw [harena, reserve_eq] at hx
    cases hr : v.reserved i with
    | none =>
      rw [hr, Option.elim_none, hcls] at hx
      exact ht hx
    | some y =>
      rw [hr, Option.elim_some, Arena.mem_insert, hcls] at hx
      rcases hx with hx | rfl
      · exact ht hx
      · have hy := mem_of_reserved hr
        rw [← hg.program, (step_extends hstep).program, hprog] at hy
        refine List.mem_append_right _ (List.mem_flatMap.2 ⟨i, ?_, List.mem_cons.2 hy⟩)
        exact List.mem_flatMap.2 ⟨b, hmem, hi⟩

theorem run_size_le (hp : p.Linked) (h : Run O p f c w a) :
    a.cls.arena.size ≤ (nameable p f c).length :=
  (List.subperm_of_subset a.cls.arena.nodup (run_nameable hp h)).length_le

/-- What is recorded for the ends of blocks, one fact at a time: that a block has been visited, and
each entry of the three tables. -/
def extent (a : Analysis) : Set (BlockId × Option (Fin 3 × Id × Id)) :=
  {q | ∃ e : Facts, a.exits[q.1]? = some e ∧ ∀ t ∈ q.2, t.2.2 ∈ e.knowledge.table t.1 t.2.1}

theorem ids_finite (n : Nat) : (ids n).Finite := by
  refine (List.finite_toSet (unknown :: (List.range n).map Int.ofNat)).subset ?_
  rintro x (rfl | ⟨h0, hx⟩)
  · exact List.mem_cons_self
  · refine List.mem_cons_of_mem _ (List.mem_map.2 ⟨x.toNat, ?_, Int.toNat_of_nonneg h0⟩)
    exact List.mem_range.2 ((Int.toNat_lt h0).2 hx)

/-- Everything that may be recorded. -/
def recordable (p : Program) (f : FuncId) (c : Classification) :
    Set (BlockId × Option (Fin 3 × Id × Id)) :=
  {b | b ∈ (p.func f).blocks} ×ˢ
    insert none (some '' (Set.univ ×ˢ (ids (nameable p f c).length ×ˢ ids (nameable p f c).length)))

theorem recordable_finite (p : Program) (f : FuncId) (c : Classification) :
    (recordable p f c).Finite :=
  (List.finite_toSet _).prod (((Set.finite_univ.prod ((ids_finite _).prod (ids_finite _))).image
    _).insert _)

theorem extent_subset (hp : p.Linked) (hc : c.Numbered) (h : Run O p f c w a) :
    extent a ⊆ recordable p f c := by
  rintro ⟨b, q⟩ ⟨e, he, hq⟩
  have hw := ((run_bounds hp hc h).2 b e he).mono (ids_mono (run_size_le hp h))
  refine ⟨((run_explored h).reachable b (.inl (mem_of_getElem?_eq_some he))).mem_blocks hp, ?_⟩
  cases q with
  | none => exact .inl rfl
  | some q =>
    obtain ⟨n, x, m⟩ := q
    refine .inr ⟨_, ⟨Set.mem_univ _, ?_⟩, rfl⟩
    have := hq _ rfl
    match n with
    | 0 => exact hw.defs this
    | 1 => exact hw.aliases this
    | 2 => exact hw.pointsTo this

theorem table_subset {k l : Knowledge} (h : Below True k l) (n : Fin 3) (x : Id) :
    k.table n x ⊆ l.table n x := by
  match n with
  | 0 => exact h.defs trivial x
  | 1 => exact h.aliases x
  | 2 => exact h.pointsTo x

theorem extent_mono (h : ExitsBelow True a.exits a'.exits) : extent a ⊆ extent a' := by
  rintro ⟨b, q⟩ ⟨e, he, hq⟩
  obtain ⟨e', he', hle⟩ := h b e he
  exact ⟨e', he', fun t ht => table_subset hle _ _ (hq t ht)⟩

/-- A change that takes nothing away adds something. -/
theorem extent_ssubset (h : ExitsBelow True a.exits (a'.finish b out).exits)
    (hchanges : a.changes b out = true) : extent a ⊂ extent (a'.finish b out) := by
  refine ⟨extent_mono h, fun hle => ?_⟩
  have hout : (a'.finish b out).exits[b]? = some out := Std.ExtTreeMap.getElem?_insert_self
  have hback (q : Option (Fin 3 × Id × Id)) (hq : ∀ t ∈ q, t.2.2 ∈ out.knowledge.table t.1 t.2.1) :
      ∃ e : Facts, a.exits[b]? = some e ∧ ∀ t ∈ q, t.2.2 ∈ e.knowledge.table t.1 t.2.1 :=
    hle (a := (b, q)) ⟨out, hout, hq⟩
  obtain ⟨e, he, -⟩ := hback none nofun
  obtain ⟨e', he', hbelow⟩ := h b e he
  obtain rfl : out = e' := Option.some.inj (hout.symm.trans he')
  have htable (n : Fin 3) (x : Id) : e.knowledge.table n x = out.knowledge.table n x := by
    refine (table_subset hbelow n x).antisymm fun m hm => ?_
    obtain ⟨e₁, he₁, hq⟩ := hback (some (n, x, m)) fun t ht => by cases ht; exact hm
    obtain rfl : e = e₁ := Option.some.inj (he.symm.trans he₁)
    exact hq _ rfl
  have heq : e.knowledge = out.knowledge :=
    Knowledge.ext (funext (htable 0)) (funext (htable 1)) (funext (htable 2))
  simp [changes, he, Facts.same_iff.2 heq] at hchanges

/-! ## Convergence -/

/-- Nothing is taken away, at the end of any block, from what may have set a handle. -/
def DefsGrow (a a' : Analysis) : Prop :=
  ∀ (b : BlockId) (e e' : Facts), a.exits[b]? = some e → a'.exits[b]? = some e' →
    ∀ x, e.knowledge.defs x ⊆ e'.knowledge.defs x

theorem exitsBelow_of_defsGrow (h : ExitsBelow False a.exits a'.exits) (hd : DefsGrow a a') :
    ExitsBelow True a.exits a'.exits := by
  intro b e he
  obtain ⟨e', he', hle⟩ := h b e he
  exact ⟨e', he', fun _ => hd b e e' he he', hle.aliases, hle.pointsTo⟩

/-- If nothing is taken away from some visit on, the worklist runs empty: every visit adds to what
is known at the ends of blocks, or else shortens the worklist. -/
theorem exists_empty (hp : p.Linked) (hc : c.Numbered) {n : Nat}
    (h : ∀ m, n ≤ m → DefsGrow (config p f o c m).2 (config p f o c (m + 1)).2) (m : Nat)
    (hm : n ≤ m) : ∃ m, (config p f o c m).1 = [] := by
  have hrun := run_config p f o c m
  have hrun' := run_config p f o c (m + 1)
  have hnext := config_succ p f o c m
  have hgrow := h m hm
  have hbound (m : Nat) : (extent (config p f o c m).2).ncard ≤ (recordable p f c).ncard :=
    Set.ncard_le_ncard (extent_subset hp hc (run_config ..)) (recordable_finite p f c)
  have hfinite : (extent (config p f o c (m + 1)).2).Finite :=
    (recordable_finite p f c).subset (extent_subset hp hc hrun')
  generalize hs : config p f o c m = s at hrun hnext hgrow
  obtain ⟨w, a⟩ := s
  cases w with
  | nil => exact ⟨m, by rw [hs]⟩
  | cons b w =>
    obtain ⟨a', out, hsteps, heq⟩ := advance_cons hrun
    have hbelow : ExitsBelow True a.exits (a'.finish b out).exits :=
      exitsBelow_of_defsGrow (growing_visit hp hc hrun hsteps (run_growing hp hc nofun hrun)).2
        (by rwa [hnext, heq] at hgrow)
    rw [heq] at hnext
    have hdec : Prod.Lex (· < ·) (· < ·)
        ((recordable p f c).ncard - (extent (config p f o c (m + 1)).2).ncard,
          (config p f o c (m + 1)).1.length)
        ((recordable p f c).ncard - (extent (config p f o c m).2).ncard,
          (config p f o c m).1.length) := by
      have hb := hbound (m + 1)
      rw [hnext] at hb hfinite ⊢
      rw [hs]
      dsimp only at hb hfinite ⊢
      cases hch : a.changes b out with
      | true =>
        have := Set.ncard_lt_ncard (extent_ssubset hbelow hch) hfinite
        exact .left _ _ (by omega)
      | false =>
        have := Set.ncard_le_ncard (extent_mono hbelow) hfinite
        exact Prod.Lex.right' _ (by omega) (by simp)
    exact exists_empty hp hc h (m + 1) (Nat.le_succ_of_le hm)
termination_by ((recordable p f c).ncard - (extent (config p f o c m).2).ncard,
  (config p f o c m).1.length)
decreasing_by exact hdec

theorem converges_of_empty {m : Nat} {opts : Options} (h : (config p f o c m).1 = []) :
    ∃ N, ∀ bound, N ≤ bound →
      (solve p f { opts with maxIterations := bound } o c).converged = true := by
  refine ⟨m, fun bound hb => converged_solve_iff.2 ?_⟩
  rw [config_of_empty h hb, h]

/-- The analysis converges, with any bound that is large enough, exactly if from some visit on no
visit takes anything away from what may have set a handle. -/
theorem converges_iff (hp : p.Linked) (f : FuncId) (opts : Options) (o : Oracle) :
    (∃ N, ∀ bound, N ≤ bound → (solve p f { opts with maxIterations := bound } o
      (Classification.ofFunc p opts f).1).converged = true) ↔
    ∃ n, ∀ m, n ≤ m → DefsGrow (config p f o (Classification.ofFunc p opts f).1 m).2
      (config p f o (Classification.ofFunc p opts f).1 (m + 1)).2 := by
  constructor
  · rintro ⟨N, hN⟩
    have hN := converged_solve_iff.1 (hN N le_rfl)
    refine ⟨N, fun m hm => ?_⟩
    rw [config_of_empty hN hm, config_of_empty hN (Nat.le_succ_of_le hm)]
    intro b e e' he he' x
    rw [Option.some.inj (he.symm.trans he')]
  · rintro ⟨n, h⟩
    obtain ⟨m, hm⟩ := exists_empty hp (Classification.ofFunc_numbered p opts f) h n le_rfl
    exact converges_of_empty hm

/-- The analysis converges if no call may modify a handle. -/
theorem converges_of_keepsHandles (hp : p.Linked) (f : FuncId) (opts : Options) (o : Oracle)
    (h : ∀ i ∈ p.instructions f,
      (start p f o (Classification.ofFunc p opts f).1).KeepsHandles i) :
    ∃ N, ∀ bound, N ≤ bound → (solve p f { opts with maxIterations := bound } o
      (Classification.ofFunc p opts f).1).converged = true := by
  have hc := Classification.ofFunc_numbered p opts f
  suffices hgrow : ∀ m, 0 ≤ m → DefsGrow (config p f o (Classification.ofFunc p opts f).1 m).2
      (config p f o (Classification.ofFunc p opts f).1 (m + 1)).2 by
    obtain ⟨m, hm⟩ := exists_empty hp hc hgrow 0 le_rfl
    exact converges_of_empty hm
  intro m _
  have hrun := run_config p f o (Classification.ofFunc p opts f).1 m
  rw [config_succ]
  generalize config p f o (Classification.ofFunc p opts f).1 m = s at hrun
  obtain ⟨w, a⟩ := s
  intro b e e' he he'
  cases w with
  | nil =>
    obtain rfl : e = e' := Option.some.inj (he.symm.trans he')
    exact fun _ => subset_rfl
  | cons d w =>
    obtain ⟨a', out, hsteps, heq⟩ := advance_cons hrun
    obtain ⟨e₁, he₁, hle⟩ := (growing_visit (D := True) hp hc hrun hsteps
      (run_growing hp hc (fun _ => h) hrun)).2 b e he
    rw [heq] at he'
    obtain rfl : e₁ = e' := Option.some.inj (he₁.symm.trans he')
    exact hle.defs trivial

/-! ## Runs that do not end

What a visit does depends on the worklist and on the view, so an analysis that comes back to both
goes around forever.
-/

theorem step_congr {i : InstId} (hv : t.1.toView = u.1.toView) (hs : t.2 = u.2) :
    (step t i).1.toView = (step u i).1.toView ∧ (step t i).2 = (step u i).2 := by
  obtain ⟨⟨v⟩, s⟩ := t
  obtain ⟨⟨v'⟩, s'⟩ := u
  dsimp only at hv hs
  subst hv hs
  exact ⟨rfl, rfl⟩

theorem foldl_step_congr (is : List InstId) (hv : t.1.toView = u.1.toView) (hs : t.2 = u.2) :
    (is.foldl step t).1.toView = (is.foldl step u).1.toView ∧
      (is.foldl step t).2 = (is.foldl step u).2 := by
  induction is generalizing t u with
  | nil => exact ⟨hv, hs⟩
  | cons i is ih =>
    obtain ⟨hv, hs⟩ := step_congr (i := i) hv hs
    exact ih hv hs

/-- Two analyses that go on alike. -/
def Alike (s s' : List BlockId × Analysis) : Prop :=
  s.1 = s'.1 ∧ s.2.toView = s'.2.toView

theorem Alike.advance {s s' : List BlockId × Analysis} (h : Alike s s') :
    Alike (advance s) (advance s') := by
  obtain ⟨w, a⟩ := s
  obtain ⟨w', a'⟩ := s'
  obtain ⟨rfl, hv⟩ : w = w' ∧ a.toView = a'.toView := h
  cases w with
  | nil => exact ⟨rfl, hv⟩
  | cons b w =>
    have hp : a.program = a'.program := congrArg View.program hv
    have hentry : a.entry b = a'.entry b := by
      unfold entry
      rw [hp, show a.exits = a'.exits from congrArg View.exits hv,
        show a.cls = a'.cls from congrArg View.cls hv]
    have hchanges (out : Facts) : a.changes b out = a'.changes b out := by
      rw [changes, changes, show a.exits = a'.exits from congrArg View.exits hv]
    obtain ⟨hv', hs'⟩ := foldl_step_congr (t := (a, a.entry b)) (u := (a', a'.entry b))
      (a.program.block b).insts hv hentry
    rw [Analysis.advance, Analysis.advance, visit, visit, ← hp]
    generalize (a.program.block b).insts.foldl step (a, a.entry b) = t at hv' hs'
    generalize (a.program.block b).insts.foldl step (a', a'.entry b) = u at hv' hs'
    obtain ⟨⟨v⟩, out⟩ := t
    obtain ⟨⟨v'⟩, out'⟩ := u
    dsimp only at hv' hs'
    subst hv' hs'
    exact ⟨by simp only [hchanges]; rfl, rfl⟩

theorem config_alike (p : Program) (f : FuncId) (o : Oracle) (c : Classification) {m n : Nat}
    (hw : (config p f o c m).1 = (config p f o c n).1)
    (hcls : (config p f o c m).2.cls.arena = (config p f o c n).2.cls.arena)
    (hexits : (config p f o c m).2.exits = (config p f o c n).2.exits) :
    Alike (config p f o c m) (config p f o c n) := by
  obtain ⟨hp, -, -, hc, -⟩ := run_program (run_config p f o c m)
  obtain ⟨hp', -, -, hc', -⟩ := run_program (run_config p f o c n)
  refine ⟨hw, ?_⟩
  have ho := run_oracle (run_config p f o c m)
  have ho' := run_oracle (run_config p f o c n)
  rw [View.mk.injEq]
  exact ⟨hp.trans hp'.symm, ho.trans ho'.symm, by rw [hc, hc', hcls], hexits⟩

/-- An analysis that comes back to where it was with a worklist that is not empty never
converges. -/
theorem not_converged_of_alike {o : Oracle} {m n : Nat} {opts : Options} (hmn : m < n)
    (h : Alike (config p f o c m) (config p f o c n))
    (hne : (config p f o c n).1 ≠ []) :
    (solve p f opts o c).converged = false := by
  have hagain (j : Nat) : Alike (config p f o c (m + j)) (config p f o c (n + j)) := by
    induction j with
    | zero => exact h
    | succ j ih =>
      rw [← Nat.add_assoc, ← Nat.add_assoc, config_succ, config_succ]
      exact ih.advance
  have hever (i : Nat) : (config p f o c i).1 ≠ [] := by
    induction i using Nat.strong_induction_on with
    | _ i ih =>
      rcases Nat.lt_or_ge i n with hi | hi
      · exact fun he => hne (config_of_empty he hi.le ▸ he)
      · obtain ⟨j, rfl⟩ := Nat.exists_eq_add_of_le hi
        rw [← (hagain j).1]
        exact ih _ (by omega)
  rw [Bool.eq_false_iff, ne_eq, converged_solve_iff]
  exact hever _

/-- Two waves that chase each other around a ring: the handle is within reach of the call in one of
them only, where what set it is replaced. -/
def ringText : String :=
  "define void @f()\x7bn:%v=call ptr @create(i64 1)%p=alloca ptr br i1 1,label %e,label %x " ++
  "x:store ptr %v,ptr %p br label %e e:call void @g(ptr %p)br label %r " ++
  "r:br label %s s:br label %t t:br label %r\x7d"

theorem not_converges_ring : ∃ p, Program.load ringText.toList = .ok p ∧ ∀ bound,
    (solve p 0 { maxIterations := bound } .conservative
      (Classification.ofFunc p {} 0).1).converged = false := by
  have hload : (Program.load ringText.toList).toOption.any (fun p =>
      let s := config p 0 .conservative (Classification.ofFunc p {} 0).1
      decide ((s 11).1 = (s 17).1 ∧ (s 11).2.cls.arena = (s 17).2.cls.arena ∧
        (s 11).2.exits = (s 17).2.exits ∧ (s 17).1 ≠ [])) = true := by
    decide +kernel
  cases h : Program.load ringText.toList with
  | error e => rw [h] at hload; cases hload
  | ok p =>
    rw [h] at hload
    obtain ⟨hw, hcls, hexits, hne⟩ := of_decide_eq_true hload
    refine ⟨p, rfl, fun bound => ?_⟩
    exact not_converged_of_alike (m := 11) (by decide) (config_alike _ _ _ _ hw hcls hexits) hne

theorem converges_iff_loop : ∃ p, Program.load Program.loopText.toList = .ok p ∧ p.Linked ∧
    ((∃ N, ∀ bound, N ≤ bound → (solve p 0 { maxIterations := bound } .conservative
      (Classification.ofFunc p {} 0).1).converged = true) ↔
    ∃ n, ∀ m, n ≤ m → DefsGrow (config p 0 .conservative (Classification.ofFunc p {} 0).1 m).2
      (config p 0 .conservative (Classification.ofFunc p {} 0).1 (m + 1)).2) := by
  have hload : (Program.load Program.loopText.toList).toOption.isSome = true := by decide +kernel
  cases h : Program.load Program.loopText.toList with
  | error e => rw [h] at hload; cases hload
  | ok p =>
    have hp := Program.load_linked h
    exact ⟨p, rfl, hp, converges_iff hp 0 {} .conservative⟩

end Analysis

end BoxFlow
