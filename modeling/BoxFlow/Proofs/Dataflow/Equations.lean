import Mathlib.Logic.Relation
import BoxFlow.Proofs.Dataflow.Invariant

/-!
# The equations a converged analysis solves

Two invariants of a run. The blocks visited or on the worklist are reachable, and the worklist holds
what is still to be reached (`run_explored`). A visited block that is not on the worklist satisfies
its equations with the facts as they are recorded (`run_stable`): a visit that changes what is known
at the end of a block puts every block that reads it on the worklist, and what does not change is
read the same, whatever empty sets differ. An empty worklist then leaves a solution.
-/

namespace BoxFlow

open Relation (ReflTransGen)

namespace Analysis

open View

variable {O : Set Oracle} {p : Program} {f : FuncId} {c : Classification} {a a' : Analysis}
  {s : Facts} {t u : Analysis × Facts} {i : InstId} {is : List InstId} {b d : BlockId}
  {w : List BlockId}

/-! ## Reading the facts -/

theorem factsBefore_eq (h : a.before[i]? = some s) : a.factsBefore i = s := by
  rw [factsBefore, Std.ExtTreeMap.getD_eq_getD_getElem?, h]
  rfl

theorem factsAfter_eq (h : a.after[i]? = some s) : a.factsAfter i = s := by
  rw [factsAfter, Std.ExtTreeMap.getD_eq_getD_getElem?, h]
  rfl

theorem mem_idsIn {x : Value} {m : Id} {t : Table} (hx : a.cls.classOf x ≠ .irrelevant) :
    m ∈ a.idsIn t x ↔ m ∈ t.get (a.idOf x) := by
  rw [idsIn, Classification.find_of_classOf hx]
  exact Std.ExtTreeSet.mem_toList

/-! ## Which blocks are visited -/

/-- The blocks that control can reach from a block without predecessors. -/
def Reachable (p : Program) (f : FuncId) (b : BlockId) : Prop :=
  ∃ r ∈ roots p f, ReflTransGen (fun x y => y ∈ p.successorBlocks x) r b

theorem Reachable.mem_blocks (hp : p.Linked) (h : Reachable p f b) : b ∈ (p.func f).blocks := by
  obtain ⟨r, hr, h⟩ := h
  induction h with
  | refl => exact (List.mem_filter.1 hr).1
  | tail _ hd ih => exact hp.successor_within ih hd

/-- What has been visited, and what is to be visited yet. -/
structure Explored (p : Program) (f : FuncId) (w : List BlockId) (a : Analysis) : Prop where
  roots : ∀ r ∈ roots p f, r ∈ a.exits ∨ r ∈ w
  edges : ∀ b ∈ a.exits, ∀ d ∈ p.successorBlocks b, d ∈ a.exits ∨ d ∈ w
  reachable : ∀ b, b ∈ a.exits ∨ b ∈ w → Reachable p f b
  recorded : ∀ i, i ∈ a.before ∨ i ∈ a.after → ∃ b ∈ a.exits, i ∈ (p.block b).insts

/-- Only the instructions that are taken get new facts. -/
theorem steps_recorded (h : Steps O is t u) :
    (∀ j ∉ is, u.1.before[j]? = t.1.before[j]? ∧ u.1.after[j]? = t.1.after[j]?) ∧
      ∀ j, (j ∈ u.1.before → j ∈ t.1.before ∨ j ∈ is) ∧
        (j ∈ u.1.after → j ∈ t.1.after ∨ j ∈ is) := by
  induction h with
  | nil => exact ⟨fun _ _ => ⟨rfl, rfl⟩, fun _ => ⟨.inl, .inl⟩⟩
  | @cons i is t u v hi _ ih =>
    obtain ⟨-, hbefore, hafter, -⟩ := step_records hi
    refine ⟨fun j hj => ?_, fun j => ⟨fun hj => ?_, fun hj => ?_⟩⟩
    · rw [List.mem_cons, not_or] at hj
      obtain ⟨hb, ha⟩ := ih.1 j hj.2
      rw [hb, ha, hbefore, hafter, Std.ExtTreeMap.getElem?_insert, Std.ExtTreeMap.getElem?_insert]
      simp [Ne.symm hj.1]
    · rcases (ih.2 j).1 hj with hj | hj
      · rw [hbefore, Std.ExtTreeMap.mem_insert] at hj
        rcases hj with hj | hj
        · exact .inr (List.mem_cons.2 (.inl (Std.LawfulEqCmp.eq_of_compare hj).symm))
        · exact .inl hj
      · exact .inr (List.mem_cons_of_mem _ hj)
    · rcases (ih.2 j).2 hj with hj | hj
      · rw [hafter, Std.ExtTreeMap.mem_insert] at hj
        rcases hj with hj | hj
        · exact .inr (List.mem_cons.2 (.inl (Std.LawfulEqCmp.eq_of_compare hj).symm))
        · exact .inl hj
      · exact .inr (List.mem_cons_of_mem _ hj)

theorem run_explored (h : Run O p f c w a) : Explored p f w a := by
  induction h with
  | start =>
    refine ⟨fun _ => .inr, by simp [start], fun b hb => ?_, by simp [start]⟩
    exact ⟨b, hb.resolve_left (by simp [start]), .refl⟩
  | @visit b w a a' out h hs ih =>
    have hexits : a'.exits = a.exits := (steps_extends hs).exits
    have hw {d} (hd : d ∈ w) :
        d ∈ if a.changes b out then enqueue w (p.successorBlocks b) else w := by
      split
      · exact mem_enqueue.2 (.inl hd)
      · exact hd
    have hkeep {d} (hd : d ∈ a.exits ∨ d ∈ b :: w) : d ∈ (a'.finish b out).exits ∨
        d ∈ if a.changes b out then enqueue w (p.successorBlocks b) else w := by
      rw [mem_finish, hexits]
      rcases hd with hd | hd
      · exact .inl (.inr hd)
      · exact (List.mem_cons.1 hd).imp .inl hw
    have hb : Reachable p f b := ih.reachable b (.inr List.mem_cons_self)
    refine ⟨fun r hr => hkeep (ih.roots r hr), fun d hd d' hd' => ?_, fun d hd => ?_,
      fun i hi => ?_⟩
    · rw [mem_finish, hexits] at hd
      by_cases hda : d ∈ a.exits
      · exact hkeep (ih.edges d hda d' hd')
      · obtain rfl : d = b := hd.resolve_right hda
        have hchanges : a.changes d out = true := by
          rw [changes, Std.ExtTreeMap.getElem?_eq_none hda]
        exact .inr (by rw [if_pos hchanges]; exact mem_enqueue.2 (.inr hd'))
    · rw [mem_finish, hexits] at hd
      rcases hd with (rfl | hd) | hd
      · exact hb
      · exact ih.reachable d (.inl hd)
      · split at hd
        · rcases mem_enqueue.1 hd with hd | hd
          · exact ih.reachable d (.inr (List.mem_cons_of_mem _ hd))
          · obtain ⟨r, hr, hrb⟩ := hb
            exact ⟨r, hr, hrb.tail hd⟩
        · exact ih.reachable d (.inr (List.mem_cons_of_mem _ hd))
    · have hi' : (i ∈ a.before ∨ i ∈ a.after) ∨ i ∈ (p.block b).insts := by
        rcases hi with hi | hi
        · exact (((steps_recorded hs).2 i).1 hi).imp_left .inl
        · exact (((steps_recorded hs).2 i).2 hi).imp_left .inr
      rcases hi' with hi | hi
      · obtain ⟨d, hd, hid⟩ := ih.recorded i hi
        exact ⟨d, mem_finish.2 (.inr (hexits ▸ hd)), hid⟩
      · exact ⟨b, mem_finish.2 (.inl rfl), hi⟩

/-! ## The start of a block, once more -/

variable {B : List BlockId} {o : Oracle}

theorem seed_congr {d : Classification} (hd : d = { c with arena := d.arena })
    (ha : c.arena.values <+: d.arena.values) (hc : c.Numbered) : seed d = seed c := by
  have hfold (l : List Id) (s : Facts) (hl : ∀ x ∈ l, x < c.arena.size) :
      l.foldl (seedId d) s = l.foldl (seedId c) s := by
    induction l generalizing s with
    | nil => rfl
    | cons x l ih =>
      have hx : seedId d s x = seedId c s x := by
        unfold seedId
        rw [Arena.value?_of_prefix ha (hl x List.mem_cons_self), hd]
        rfl
      rw [List.foldl_cons, List.foldl_cons, hx]
      exact ih _ fun y hy => hl y (List.mem_cons_of_mem _ hy)
  have hids : d.classifiedIds = c.classifiedIds := by rw [hd]; rfl
  rw [seed, seed, hids]
  refine hfold _ _ fun x hx => (hc x ?_).2
  rw [Classification.classOfId_ne_irrelevant]
  simpa [Classification.classifiedIds, IdSet.mem_union] using hx

/-- What is known at the start of a block depends on what is known at the ends of its
predecessors. -/
theorem entry_congr (h : Grown (a.program.predecessorBlocks b) a.toView a'.toView)
    (hc : a.cls.Numbered) : (a'.entry b).knowledge = (a.entry b).knowledge := by
  have hprog : a'.program = a.program := h.program
  by_cases hne : a.program.predecessorBlocks b = []
  · rw [entry_eq_seed hne, entry_eq_seed (hprog ▸ hne), seed_congr h.cls h.arena hc]
  · rw [knowledge_entry hne, knowledge_entry (hprog ▸ hne), hprog]
    congr 1
    ext k
    exact exists_congr fun q => and_congr_right fun hq => by rw [h.exits q hq]

/-! ## Blocks whose facts are settled -/

/-- The facts recorded for block `b`, and `out` at its end, are those that follow from the ends of
its predecessors. -/
structure Stable (p : Program) (a : Analysis) (b : BlockId) (out : Facts) : Prop where
  reserved : ∀ i ∈ (p.block b).insts, a.Reserved i
  out : out.knowledge = a.effects (p.block b).insts (a.entry b).knowledge
  facts : ∀ pre i post, (p.block b).insts = pre ++ i :: post → ∃ s t, a.before[i]? = some s ∧
    a.after[i]? = some t ∧ s.knowledge = a.effects pre (a.entry b).knowledge ∧
    t.knowledge = a.effects (pre ++ [i]) (a.entry b).knowledge

theorem steps_grown (h : Steps {o} is t u) (ho : t.1.oracle = o) :
    Grown B t.1.toView u.1.toView := by
  have he := steps_extends h
  exact ⟨he.program, (steps_oracle h ho).trans ho.symm, he.cls, he.arena,
    fun b _ => by rw [he.exits]⟩

/-- Instructions one after another have their effects, seen from the view that they leave. -/
theorem steps_effects (h : Steps {o} is t u) (ht : Sound t) (hnodup : is.Nodup) :
    u.2.knowledge = u.1.effects is t.2.knowledge ∧ (∀ i ∈ is, u.1.Reserved i) ∧
    ∀ pre i post, is = pre ++ i :: post → ∃ s s', u.1.before[i]? = some s ∧
      u.1.after[i]? = some s' ∧ s.knowledge = u.1.effects pre t.2.knowledge ∧
      s'.knowledge = u.1.effects (pre ++ [i]) t.2.knowledge := by
  induction h with
  | nil => exact ⟨rfl, by simp, by simp⟩
  | @cons i is t u v hi hs ih =>
    obtain ⟨hu, hout⟩ := step_sound hi ht
    have he := step_extends hi
    have hres := step_reserved hi ht.numbered
    have hgrown {B} : Grown B u.1.toView v.1.toView := steps_grown hs (step_oracle hi)
    have heffect : v.1.effect i t.2.knowledge = u.2.knowledge := by
      rw [effect_congr hgrown hu.numbered hres hu.exits
        (ht.within.mono (ids_mono (Arena.size_le he.arena))), hout]
    obtain ⟨hi', hnodup⟩ := List.nodup_cons.1 hnodup
    obtain ⟨ihout, ihres, ihfacts⟩ := ih hu hnodup
    refine ⟨?_, ?_, ?_⟩
    · rw [effects_cons, heffect]
      exact ihout
    · intro j hj
      rcases List.mem_cons.1 hj with rfl | hj
      · exact (hgrown (B := [])).reserved hu.numbered hres
      · exact ihres j hj
    · intro pre j post hsplit
      cases pre with
      | nil =>
        obtain ⟨rfl, rfl⟩ := List.cons.inj hsplit
        obtain ⟨-, hbefore, hafter, -⟩ := step_records hi
        obtain ⟨hb, ha⟩ := (steps_recorded hs).1 i hi'
        refine ⟨t.2, u.2, ?_, ?_, rfl, heffect.symm⟩
        · rw [hb, hbefore, Std.ExtTreeMap.getElem?_insert_self]
        · rw [ha, hafter, Std.ExtTreeMap.getElem?_insert_self]
      | cons k pre =>
        obtain ⟨rfl, rfl⟩ := List.cons.inj hsplit
        obtain ⟨s, s', hs, hs', hk, hk'⟩ := ihfacts pre j post rfl
        refine ⟨s, s', hs, hs', ?_, ?_⟩
        · rw [effects_cons, heffect]; exact hk
        · rw [List.cons_append, effects_cons, heffect]; exact hk'

/-- The end of a visit is seen by the blocks that are visited again, or it is no news. -/
theorem finish_grown {out : Facts} (h : b ∈ B → a.changes b out = false) :
    Grown B a.toView (a.finish b out).toView := by
  refine ⟨rfl, rfl, rfl, List.prefix_rfl, fun d hd => ?_⟩
  show ((a.exits.insert b out)[d]?).map _ = _
  rw [Std.ExtTreeMap.getElem?_insert]
  split
  · next hbd =>
    obtain rfl : b = d := Std.LawfulEqCmp.eq_of_compare hbd
    have hsame := h hd
    unfold changes at hsame
    split at hsame
    · next old hold =>
      rw [hold, Option.map_some, Option.map_some]
      rw [Bool.not_eq_false', Facts.same_iff] at hsame
      rw [hsame]
    · cases hsame
  · rfl

/-- Facts stay settled as long as nothing changes at the ends of the predecessors. -/
theorem Stable.grown {out : Facts} (h : Stable p a b out) (hp : a.program = p)
    (hg : Grown (p.predecessorBlocks b) a.toView a'.toView) (hc : a.cls.Numbered)
    (he : a.ExitsWithin a.cls.arena.size)
    (hsources : ∀ i ∈ (p.block b).insts, (p.inst i).op.sources ⊆ p.predecessorBlocks b)
    (hrec : ∀ i ∈ (p.block b).insts,
      a'.before[i]? = a.before[i]? ∧ a'.after[i]? = a.after[i]?) : Stable p a' b out := by
  subst hp
  have hk : (a'.entry b).knowledge = (a.entry b).knowledge := entry_congr hg hc
  have heffects (pre : List InstId) (hpre : pre ⊆ (a.program.block b).insts) :
      a'.effects pre (a.entry b).knowledge = a.effects pre (a.entry b).knowledge :=
    effects_congr hg hc he (fun i hi => hsources i (hpre hi)) (fun i hi => h.reserved i (hpre hi))
      (entry_within hc he)
  refine ⟨fun i hi => hg.reserved hc (h.reserved i hi), ?_, fun pre i post hsplit => ?_⟩
  · rw [hk, heffects _ fun _ hi => hi]
    exact h.out
  · obtain ⟨s, t, hs, ht, hks, hkt⟩ := h.facts pre i post hsplit
    have hi : i ∈ (a.program.block b).insts := by rw [hsplit]; simp
    refine ⟨s, t, (hrec i hi).1.trans hs, (hrec i hi).2.trans ht, ?_, ?_⟩
    · rw [hk, heffects pre (by rw [hsplit]; simp)]
      exact hks
    · rw [hk, heffects (pre ++ [i]) (by rw [hsplit]; simp)]
      exact hkt

/-- A visited block that is not on the worklist is settled. -/
theorem run_stable (hp : p.Linked) (hv : p.verify f = []) (hc : c.Numbered)
    (h : Run {o} p f c w a) : ∀ {b e}, a.exits[b]? = some e → b ∉ w → Stable p a b e := by
  induction h with
  | start => simp [start]
  | @visit b w a a' out h hs ih =>
    intro d e hd hdw
    obtain ⟨hn, hw⟩ := run_bounds hp hc h
    obtain ⟨hprog, -⟩ := run_program h
    have hext := steps_extends hs
    have hsound := entry_sound hp hc h
    have hgrown {B} : Grown B a.toView a'.toView := steps_grown hs (run_oracle h)
    have hmem : d ∈ (p.func f).blocks := by
      have hvisited := mem_of_getElem?_eq_some hd
      exact ((run_explored (h.visit hs)).reachable d (.inl hvisited)).mem_blocks hp
    have hsources : ∀ i ∈ (p.block d).insts, (p.inst i).op.sources ⊆ p.predecessorBlocks d :=
      fun i hi => Program.sources_subset hv hmem hi
    have hdep : b ∈ p.predecessorBlocks d → a'.changes b out = false := by
      intro hb
      by_contra hchanges
      rw [changes, hext.exits, ← changes, Bool.not_eq_false] at hchanges
      rw [if_pos hchanges, mem_enqueue, not_or] at hdw
      exact hdw.2 (hp.mem_predecessorBlocks_iff.1 hb)
    have hstable : Stable p a' d e := by
      rcases getElem?_insert_eq_some.1 hd with ⟨rfl, rfl⟩ | ⟨hne, hd⟩
      · obtain ⟨hout, hres, hfacts⟩ := steps_effects hs hsound hp.nodup
        have hk : (a'.entry d).knowledge = (a.entry d).knowledge := entry_congr hgrown hn
        exact ⟨hres, by rw [hk]; exact hout, by rw [hk]; exact hfacts⟩
      · have hold : d ∉ b :: w := by
          rw [List.mem_cons, not_or]
          refine ⟨hne, fun hw => hdw ?_⟩
          split
          · exact mem_enqueue.2 (.inl hw)
          · exact hw
        refine (ih (hext.exits ▸ hd) hold).grown hprog hgrown hn hw hsources fun i hi => ?_
        refine (steps_recorded hs).1 i fun hib => hne ?_
        exact Option.some.inj ((hp.held hi).symm.trans (hp.held hib))
    exact hstable.grown (hext.program.trans hprog) (finish_grown hdep) (hext.numbered hn)
      (hext.exitsWithin hw) hsources fun i _ => ⟨rfl, rfl⟩

/-! ## Converged analyses -/

/-- What holds of an analysis that has come to an end: all its facts are settled. -/
structure Settled (p : Program) (f : FuncId) (c : Classification) (a : Analysis) : Prop where
  program : a.program = p
  func : a.func = f
  cls : a.cls = { c with arena := a.cls.arena }
  arena : c.arena.values <+: a.cls.arena.values
  numbered : a.cls.Numbered
  visited : ∀ b, b ∈ a.exits ↔ Reachable p f b
  recorded : ∀ i, i ∈ a.before ∨ i ∈ a.after → ∃ b ∈ a.exits, i ∈ (p.block b).insts
  stable : ∀ {b e}, a.exits[b]? = some e → Stable p a b e
  aliases : ∀ b ∈ a.exits, (a.entry b).knowledge.AliasWF a.cls

theorem run_settled (hp : p.Linked) (hv : p.verify f = []) (hc : c.Numbered)
    (h : Run {o} p f c [] a) : Settled p f c a := by
  obtain ⟨hprog, hfunc, -, hcls, harena⟩ := run_program h
  have hex := run_explored h
  refine ⟨hprog, hfunc, hcls, harena, (run_bounds hp hc h).1,
    fun b => ⟨fun hb => hex.reachable b (.inl hb), ?_⟩, hex.recorded,
    fun hb => run_stable hp hv hc h hb (by simp), fun b hb => ?_⟩
  · rintro ⟨r, hr, hrb⟩
    induction hrb with
    | refl => exact (hex.roots r hr).resolve_right (by simp)
    | tail _ hd ih => exact (hex.edges _ ih _ hd).resolve_right (by simp)
  · have hready := run_ready hp h (.inr hb)
    rw [← hprog] at hready
    exact (entry_aliasWF (run_aliasesWF hp h).exits (run_classOfId h) hready).classes
      (run_classOfId h)

/-! ## Solutions -/

/-- The facts that follow from those at the start of a block, and from those at the ends of the
blocks its phis name, after some instructions. -/
def recompute (a : Analysis) (b : BlockId) (is : List InstId) : Facts :=
  is.foldl (fun s i => a.transfer i s) (a.entry b)

/-- The recorded facts solve the equations: exactly the blocks that can be reached have been
visited, recomputing their facts leads to what is recorded, and nothing else is recorded. -/
structure Solution (p : Program) (f : FuncId) (a : Analysis) : Prop where
  visited : ∀ b, b ∈ a.exits ↔ Reachable p f b
  exit : ∀ (b : BlockId) (e : Facts), a.exits[b]? = some e →
    e.same (a.recompute b (p.block b).insts) = true
  facts : ∀ b ∈ a.exits, ∀ pre i post, (p.block b).insts = pre ++ i :: post → ∃ s t : Facts,
    a.before[i]? = some s ∧ a.after[i]? = some t ∧
    s.same (a.recompute b pre) = true ∧ t.same (a.recompute b (pre ++ [i])) = true
  recorded : ∀ i, i ∈ a.before ∨ i ∈ a.after → ∃ b ∈ a.exits, i ∈ (p.block b).insts

/-- A converged analysis of a function without problems solves its equations. -/
theorem solve_solution (hp : p.Linked) (hv : p.verify f = []) (opts : Options) (o : Oracle)
    (h : (solve p f opts o (Classification.ofFunc p opts f).1).converged = true) :
    Solution p f (solve p f opts o (Classification.ofFunc p opts f).1) := by
  obtain ⟨w, a, hrun, heq⟩ := run_solve p f opts o (Classification.ofFunc p opts f).1
  have hw : w = [] := by simpa [heq] using h
  subst hw
  have ha := run_settled hp hv (Classification.ofFunc_numbered p opts f) hrun
  have hrec {b} (hb : b ∈ a.exits) (is : List InstId) :
      (a.recompute b is).knowledge = a.effects is (a.entry b).knowledge :=
    knowledge_foldl_transfer (ha.aliases b hb)
  rw [heq]
  refine ⟨ha.visited, fun b e hb => ?_, fun b hb pre i post hsplit => ?_, ha.recorded⟩
  · have hmem : b ∈ a.exits := Std.ExtTreeMap.mem_iff_isSome_getElem?.2 (by rw [hb]; rfl)
    rw [Facts.same_iff, (ha.stable hb).out, ← hrec hmem]
    rfl
  · obtain ⟨e, he⟩ := Option.isSome_iff_exists.1 (Std.ExtTreeMap.mem_iff_isSome_getElem?.1 hb)
    obtain ⟨s, t, hs, ht, hks, hkt⟩ := (ha.stable he).facts pre i post hsplit
    refine ⟨s, t, hs, ht, ?_, ?_⟩
    · rw [Facts.same_iff, hks, ← hrec hb]
      rfl
    · rw [Facts.same_iff, hkt, ← hrec hb]
      rfl

theorem solve_solution_loop : ∃ p, Program.load Program.loopText.toList = .ok p ∧ p.Linked ∧
    p.verify 0 = [] ∧
    (solve p 0 {} .conservative (Classification.ofFunc p {} 0).1).converged = true ∧
    Solution p 0 (solve p 0 {} .conservative (Classification.ofFunc p {} 0).1) := by
  have hload : (Program.load Program.loopText.toList).toOption.any (fun p =>
      p.verify 0 = [] ∧
      (solve p 0 {} .conservative (Classification.ofFunc p {} 0).1).converged = true) = true := by
    decide +kernel
  cases h : Program.load Program.loopText.toList with
  | error e => rw [h] at hload; cases hload
  | ok p =>
    rw [h] at hload
    obtain ⟨hv, hconv⟩ := of_decide_eq_true hload
    have hp := Program.load_linked h
    exact ⟨p, rfl, hp, hv, hconv, solve_solution hp hv {} .conservative hconv⟩

end Analysis

end BoxFlow
