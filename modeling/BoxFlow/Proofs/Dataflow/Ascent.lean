import BoxFlow.Proofs.Dataflow.Equations
import BoxFlow.Proofs.Dataflow.Growth

/-!
# What grows from visit to visit

Whatever calls may do, what is known of aliases and of what cells hold only grows at the ends of
blocks (`visit_ascends`), and so does what sets the handles, if no call may modify a handle
(`growing_visit`).
-/

namespace BoxFlow

open Knowledge (Below)

namespace Analysis

open View

variable {O : Set Oracle} {p : Program} {f : FuncId} {c : Classification} {a a' : Analysis}
  {out : Facts} {b d : BlockId} {w : List BlockId} {o : Oracle} {D : Prop}

theorem entry_below (hp : a'.program = a.program) (hc : a'.cls = a.cls)
    (hE : ExitsBelow D a.exits a'.exits) :
    Below D (a.entry b).knowledge (a'.entry b).knowledge := by
  by_cases hne : a.program.predecessorBlocks b = []
  · rw [entry_eq_seed hne, entry_eq_seed (hp ▸ hne), hc]
    exact .refl _
  · rw [knowledge_entry hne, knowledge_entry (hp ▸ hne), hp]
    refine .sUnion ?_
    rintro k ⟨q, hq, hk⟩
    obtain ⟨e, he, rfl⟩ := Option.map_eq_some_iff.1 hk
    obtain ⟨e', he', hle⟩ := hE q e he
    exact ⟨e'.knowledge, ⟨q, hq, Option.map_eq_some_iff.2 ⟨e', he', rfl⟩⟩, hle⟩

/-- What is known at the ends of the blocks is not more than what follows from it. -/
structure Growing (D : Prop) (p : Program) (f : FuncId) (a : Analysis) : Prop where
  keeps : D → ∀ i ∈ p.instructions f, a.KeepsHandles i
  reserved : ∀ b ∈ a.exits, ∀ i ∈ (p.block b).insts, a.Reserved i
  below : ∀ (b : BlockId) (e : Facts), a.exits[b]? = some e →
    Below D e.knowledge (a.effects (p.block b).insts (a.entry b).knowledge)

/-- A visit takes the invariant of growth on, and what is known at the ends of blocks grows. -/
theorem growing_visit (hp : p.Linked) (hc : c.Numbered) (h : Run {o} p f c (b :: w) a)
    (hs : Steps {o} (p.block b).insts (a, a.entry b) (a', out)) (ha : Growing D p f a) :
    Growing D p f (a'.finish b out) ∧ ExitsBelow D a.exits (a'.finish b out).exits := by
  obtain ⟨hn, hw⟩ := run_bounds hp hc h
  obtain ⟨hprog, -⟩ := run_program h
  have hext := steps_extends hs
  have hgrown {B} : Grown B a.toView a'.toView := steps_grown hs (run_oracle h)
  have hkeeps (d : D) : ∀ i ∈ p.instructions f, a'.KeepsHandles i :=
    fun i hi => (ha.keeps d i hi).grown (B := []) hgrown hn
  obtain ⟨hout, hres, -⟩ := steps_effects hs (entry_sound hp hc h) hp.nodup
  have hentry (d : BlockId) : (a'.entry d).knowledge = (a.entry d).knowledge :=
    entry_congr hgrown hn
  have heffects {d : BlockId} (hd : ∀ i ∈ (p.block d).insts, a.Reserved i) :
      a'.effects (p.block d).insts (a'.entry d).knowledge =
        a.effects (p.block d).insts (a.entry d).knowledge := by
    rw [hentry]
    exact effects_congr (B := (p.block d).insts.flatMap fun i => (a.program.inst i).op.sources)
      hgrown hn hw (fun i hi _ hq => List.mem_flatMap.2 ⟨i, hi, hq⟩) hd (entry_within hn hw)
  -- What the visit comes to is not less than what was known before.
  have hE : ExitsBelow D a'.exits (a'.finish b out).exits := by
    intro d e hd
    by_cases hbd : b = d
    · subst hbd
      refine ⟨out, Std.ExtTreeMap.getElem?_insert_self, ?_⟩
      rw [hext.exits] at hd
      rw [show out.knowledge = _ from hout]
      show Below D e.knowledge (a'.effects _ (a.entry b).knowledge)
      rw [← hentry, heffects (ha.reserved b (mem_of_getElem?_eq_some hd))]
      exact ha.below b e hd
    · exact ⟨e, getElem?_insert_eq_some.2 (.inr ⟨Ne.symm hbd, hd⟩), .refl _⟩
  have hstep {d : BlockId} (hd : d ∈ (a'.finish b out).exits) :
      Below D (a'.effects (p.block d).insts (a'.entry d).knowledge)
        ((a'.finish b out).effects (p.block d).insts ((a'.finish b out).entry d).knowledge) := by
    have hblock := ((run_explored (h.visit hs)).reachable d (.inl hd)).mem_blocks hp
    exact effects_below (v := a'.toView)
      (fun hD i hi => hkeeps hD i (List.mem_flatMap.2 ⟨d, hblock, hi⟩)) hE (entry_below rfl rfl hE)
  refine ⟨⟨hkeeps, fun d hd => ?_, fun d e hd => ?_⟩, hext.exits ▸ hE⟩
  · rcases mem_finish.1 hd with rfl | hd
    · exact hres
    · exact fun i hi => (hgrown (B := [])).reserved hn (ha.reserved d (hext.exits ▸ hd) i hi)
  · refine Below.trans ?_ (hstep (mem_of_getElem?_eq_some hd))
    rcases getElem?_insert_eq_some.1 hd with ⟨rfl, rfl⟩ | ⟨-, hd⟩
    · rw [hentry, show e.knowledge = _ from hout]
      exact .refl _
    · rw [hext.exits] at hd
      rw [heffects (ha.reserved d (mem_of_getElem?_eq_some hd))]
      exact ha.below d e hd

theorem run_growing (hp : p.Linked) (hc : c.Numbered)
    (hD : D → ∀ i ∈ p.instructions f, (start p f o c).KeepsHandles i) (h : Run {o} p f c w a) :
    Growing D p f a := by
  induction h with
  | start ho =>
    obtain rfl := ho
    exact ⟨hD, by simp [start], by simp [start]⟩
  | visit h hs ih => exact (growing_visit hp hc h hs ih).1

/-- A visit takes nothing away, at the end of any block visited before, from what is known of
aliases and of what cells hold, whatever calls may do. -/
theorem visit_ascends (hp : p.Linked) {opts : Options}
    (h : Run {o} p f (Classification.ofFunc p opts f).1 (b :: w) a) {e : Facts}
    (he : a.exits[d]? = some e) : ∃ e', (a.visit b).1.exits[d]? = some e' ∧
      tableLattice.leq e.aliases e'.aliases = true ∧
      tableLattice.leq e.pointsTo e'.pointsTo = true := by
  have hc := Classification.ofFunc_numbered p opts f
  obtain ⟨a', out, hs, hvisit⟩ := visit_steps h
  obtain ⟨e', he', hle⟩ :=
    (growing_visit (D := False) hp hc h hs (run_growing hp hc nofun h)).2 d e he
  rw [hvisit]
  exact ⟨e', he', Table.leq_iff.2 hle.aliases, Table.leq_iff.2 hle.pointsTo⟩

/-- The head of the loop, visited a second time. -/
theorem visit_ascends_loop : ∃ p a e, Program.load Program.loopText.toList = .ok p ∧ p.Linked ∧
    Run {.conservative} p 0 (Classification.ofFunc p {} 0).1 [1, 2] a ∧
    a.exits[1]? = some e ∧ ∃ e', (a.visit 1).1.exits[1]? = some e' ∧
      tableLattice.leq e.aliases e'.aliases = true ∧
      tableLattice.leq e.pointsTo e'.pointsTo = true := by
  obtain ⟨p, hload, hp, hw, hexit⟩ :=
    Program.exists_load (s := Program.loopText.toList) (P := fun p =>
      (config p 0 .conservative (Classification.ofFunc p {} 0).1 2).1 = [1, 2] ∧
      ((config p 0 .conservative (Classification.ofFunc p {} 0).1 2).2.exits[1]?).isSome)
      (by decide +kernel)
  have hrun := run_config p 0 .conservative (Classification.ofFunc p {} 0).1 2
  rw [hw] at hrun
  obtain ⟨e, he⟩ := Option.isSome_iff_exists.1 hexit
  exact ⟨p, _, e, hload, hp, hrun, he, visit_ascends hp hrun he⟩

end Analysis

end BoxFlow
