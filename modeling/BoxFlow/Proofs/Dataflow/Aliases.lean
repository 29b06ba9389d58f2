import BoxFlow.Proofs.Dataflow.Run
import BoxFlow.Proofs.Dataflow.Transfer
import BoxFlow.Proofs.Loading

/-!
# Aliases stay well formed

No effect breaks the alias invariant (`View.effect_aliasWF`): whatever a fresh id is linked to, it
is linked both ways. The facts at the entry of a function have it by construction, and those at the
start of any other block get it from the predecessors that have been visited. So it holds of all
facts that a run records, and no rule misses an alias entry (`Analysis.run_aliasesWF`).
-/

namespace BoxFlow

namespace Knowledge

variable {k : Knowledge} {c : Classification}

theorem AliasWF.congr {l : Knowledge} (hk : k.AliasWF c) (h : l.aliases = k.aliases) :
    l.AliasWF c where
  symm hy := h ▸ hk.symm (h ▸ hy)
  refl hx := h ▸ hk.refl hx

/-- Only the classes of the ids matter. -/
theorem AliasWF.classes {d : Classification} (hk : k.AliasWF c)
    (h : ∀ x, d.classOfId x = c.classOfId x) : k.AliasWF d where
  symm := hk.symm
  refl hx := hk.refl (h _ ▸ hx)

theorem AliasWF.relink (hk : k.AliasWF c) (id : Id) (ls : Set Id) : (k.relink id ls).AliasWF c where
  symm {x y} h := by
    have hsymm : y ∈ k.aliases x → x ∈ k.aliases y := hk.symm
    simp only [Knowledge.relink, Set.mem_ofPred_eq] at h ⊢
    grind
  refl {x} hx := by
    by_cases h : x = id
    · exact .inl ⟨h, .inl h⟩
    · exact .inr (.inr ⟨h, h, hk.refl hx⟩)

theorem AliasWF.describe (hk : k.AliasWF c) (id : Id) (cls : ValueClass) (ms : Set Id) :
    (k.describe id cls ms).AliasWF c :=
  hk.congr (by cases cls <;> rfl)

end Knowledge

namespace View

variable {v : View} {i : InstId} {k : Knowledge}

theorem mergeEffect_aliasWF (hk : k.AliasWF v.cls) (sources : Set (Id × Knowledge)) :
    (v.mergeEffect i k sources).AliasWF v.cls := by
  unfold mergeEffect
  split
  · exact hk
  · exact (hk.relink ..).describe ..

theorem loadEffect_aliasWF (hk : k.AliasWF v.cls) (pointer : Value) :
    (v.loadEffect i k pointer).AliasWF v.cls := by
  have h : (v.loadedEffect i k pointer).AliasWF v.cls := by
    unfold loadedEffect
    dsimp only
    split
    · exact hk.relink ..
    · exact (hk.relink ..).describe ..
  exact h.congr rfl

theorem opaqueEffect_aliasWF (hk : k.AliasWF v.cls) (args : List Value) :
    (v.opaqueEffect i k args).AliasWF v.cls := by
  have h : (v.touch i k args).AliasWF v.cls := hk.congr rfl
  unfold opaqueEffect
  dsimp only
  split
  · exact h
  · exact (h.relink ..).describe ..

/-- No instruction breaks the alias invariant. -/
theorem effect_aliasWF (hk : k.AliasWF v.cls) : (v.effect i k).AliasWF v.cls := by
  unfold effect
  cases v.rule i with
  | keep => exact hk
  | phi | select => exact mergeEffect_aliasWF hk _
  | cell => exact (hk.relink ..).describe ..
  | store => exact hk.congr rfl
  | load => exact loadEffect_aliasWF hk _
  | handle => exact (hk.relink _ _).congr rfl
  | set => exact hk.congr rfl
  | call => exact opaqueEffect_aliasWF hk _

theorem transfer_aliasWF {s : Facts} (hs : s.knowledge.AliasWF v.cls) :
    (v.transfer i s).knowledge.AliasWF v.cls :=
  knowledge_transfer hs ▸ effect_aliasWF hs

/-! ## Warnings -/

theorem aliasWarning_eq_nil {s : Facts} {x : Id} (h : x ∈ s.aliases.get x) :
    v.aliasWarning s x = [] := by
  rw [aliasWarning, if_pos (Table.contains_of_mem_get h)]

/-- The rules find an alias entry wherever they need one. -/
theorem aliasNotInitialised_not_mem {s : Facts} (hs : s.knowledge.AliasWF v.cls) (text : String) :
    .aliasNotInitialised text ∉ v.warnings i s := by
  have hvalue (x : Value) (c : ValueClass) (hc : c ≠ .irrelevant) (h : v.cls.classOf x = c) :
      v.aliasWarning s (v.idOf x) = [] :=
    aliasWarning_eq_nil (mem_aliases_idOf hs (h ▸ hc))
  unfold warnings
  dsimp only
  split
  · split <;> simp
  · split
    · next h => simp [hvalue _ _ (by decide) h]
    · simp
  · split
    · next h =>
      rw [hvalue _ _ (by decide) h, List.append_nil]
      split <;> simp
    · simp
  · next args _ =>
    split
    · intro h
      obtain ⟨j, hj, hw⟩ := List.mem_flatMap.1 h
      have hself : j ∈ s.aliases.get j := by
        rcases List.mem_append.1 hj with hj | hj
        · have hj := (List.mem_filter.1 hj).1
          split at hj
          · cases hj
          · exact mem_aliases_of_classOfId hs (classOfId_of_mem_pointerSet
              (mem_pointerArgs.1 (Std.ExtTreeSet.mem_toList.1 hj))) (by decide)
        · simp only [List.mem_filter, Std.ExtTreeSet.mem_toList, Bool.and_eq_true,
            decide_eq_true_eq] at hj
          exact mem_aliases_of_classOfId hs
            (classOfId_of_mem_dataSet (mem_dataArgs.1 hj.1) hj.2.1) (by decide)
      rw [aliasWarning_eq_nil hself] at hw
      cases hw
    · split
      · split
        · split
          · next h => simp [hvalue _ _ (by decide) h]
          · simp
        · simp
      · simp
  · simp

end View

namespace Analysis

open View

variable {c : Classification}

/-! ## The start of a block -/

/-- What is known at the start of a block with predecessors. -/
theorem knowledge_entry {a : Analysis} {b : BlockId} (h : a.program.predecessorBlocks b ≠ []) :
    (a.entry b).knowledge = .sUnion {k | ∃ q ∈ a.program.predecessorBlocks b,
      a.exits[q]?.map Facts.knowledge = some k} := by
  have hentry : a.entry b =
      ((a.program.predecessorBlocks b).filterMap (a.exits[·]?)).foldl Facts.join {} := by
    unfold entry
    split
    · contradiction
    · rfl
  rw [hentry, Facts.knowledge_foldl_join]
  congr 1
  ext k
  simp only [Set.mem_ofPred_eq, List.mem_filterMap, Option.map_eq_some_iff]
  exact ⟨fun ⟨s, ⟨q, hq, hs⟩, hk⟩ => ⟨q, hq, s, hs, hk⟩,
    fun ⟨q, hq, s, hs, hk⟩ => ⟨s, ⟨q, hq, hs⟩, hk⟩⟩

theorem entry_eq_seed {a : Analysis} {b : BlockId} (h : a.program.predecessorBlocks b = []) :
    a.entry b = seed a.cls := by
  rw [entry, h]

theorem seedId_aliases (c : Classification) (s : Facts) (id : Id) :
    (seedId c s id).aliases = s.aliases.insert id {id} := by
  unfold seedId
  split <;> first | rfl | (cases c.classOfId id <;> rfl)

theorem seed_aliases (c : Classification) (x : Id) :
    (seed c).aliases.get x = if c.classOfId x ≠ .irrelevant then {x} else ∅ := by
  have hfold (l : List Id) (s : Facts) :
      (l.foldl (seedId c) s).aliases.get x = if x ∈ l then {x} else s.aliases.get x := by
    induction l generalizing s with
    | nil => simp
    | cons id l ih =>
      rw [List.foldl_cons, ih, seedId_aliases, Table.get_insert]
      grind
  rw [seed, hfold, Table.get_empty]
  congr 1
  simp only [Classification.classifiedIds, Std.ExtTreeSet.mem_toList, IdSet.mem_union,
    Classification.classOfId, eq_iff_iff]
  grind

theorem seed_aliasWF (c : Classification) : (seed c).knowledge.AliasWF c where
  symm {x y} h := by
    rw [Facts.mem_knowledge_aliases, seed_aliases] at h ⊢
    split at h
    · rw [IdSet.mem_singleton] at h
      subst h
      rw [if_pos (by assumption), IdSet.mem_singleton]
    · simp at h
  refl {x} h := by
    rw [Facts.mem_knowledge_aliases, seed_aliases, if_pos h, IdSet.mem_singleton]

/-! ## Along a run -/

/-- All recorded facts have well-formed aliases, and no rule has missed an alias entry. -/
structure AliasesWF (c : Classification) (a : Analysis) : Prop where
  before : ∀ {i : InstId} {s : Facts}, a.before[i]? = some s → s.knowledge.AliasWF c
  after : ∀ {i : InstId} {s : Facts}, a.after[i]? = some s → s.knowledge.AliasWF c
  exits : ∀ {b : BlockId} {s : Facts}, a.exits[b]? = some s → s.knowledge.AliasWF c
  warnings : ∀ text, .aliasNotInitialised text ∉ a.warnings

variable {O : Set Oracle} {p : Program} {f : FuncId} {a : Analysis} {w : List BlockId}
  {b : BlockId} {t u : Analysis × Facts} {i : InstId}

theorem mem_addWarnings {known new : List Warning} {m : Warning} :
    m ∈ addWarnings known new ↔ m ∈ known ∨ m ∈ new := by
  induction new generalizing known with
  | nil => simp [addWarnings]
  | cons n new ih =>
    have h : m ∈ addWarnings (if n ∈ known then known else known ++ [n]) new ↔ _ := ih
    rw [addWarnings, List.foldl_cons, ← addWarnings, h]
    split <;> simp <;> grind

theorem entry_aliasWF
    (ha : ∀ {b : BlockId} {s : Facts}, a.exits[b]? = some s → s.knowledge.AliasWF c)
    (hc : ∀ x, a.cls.classOfId x = c.classOfId x)
    (hb : a.program.predecessorBlocks b = [] ∨
      ∃ q ∈ a.program.predecessorBlocks b, q ∈ a.exits) :
    (a.entry b).knowledge.AliasWF c := by
  by_cases hne : a.program.predecessorBlocks b = []
  · rw [entry_eq_seed hne]
    exact (seed_aliasWF a.cls).classes fun x => (hc x).symm
  · rw [knowledge_entry hne]
    refine .sUnion ?_ ?_
    · obtain ⟨q, hq, he⟩ := hb.resolve_left hne
      obtain ⟨s, hs⟩ := mem_iff_getElem?_eq_some.1 he
      exact ⟨s.knowledge, q, hq, by rw [hs]; rfl⟩
    · rintro k ⟨q, _, hk⟩
      obtain ⟨s, hs, rfl⟩ := Option.map_eq_some_iff.1 hk
      exact ha hs

theorem step_aliasesWF (h : Step O i t u) (ht : t.1.AliasesWF c)
    (hs : t.2.knowledge.AliasWF c) (hc : ∀ x, u.1.cls.classOfId x = c.classOfId x) :
    u.1.AliasesWF c ∧ u.2.knowledge.AliasWF c := by
  obtain ⟨hout, hbefore, hafter, hwarnings⟩ := step_records h
  have hs' : t.2.knowledge.AliasWF u.1.cls := hs.classes hc
  have hu : u.2.knowledge.AliasWF c := by
    rw [hout]
    exact (transfer_aliasWF hs').classes fun x => (hc x).symm
  refine ⟨⟨?_, ?_, ?_, ?_⟩, hu⟩
  · intro j s hj
    rcases getElem?_insert_eq_some.1 (hbefore ▸ hj) with ⟨-, rfl⟩ | ⟨-, hj⟩
    · exact hs
    · exact ht.before hj
  · intro j s hj
    rcases getElem?_insert_eq_some.1 (hafter ▸ hj) with ⟨-, rfl⟩ | ⟨-, hj⟩
    · exact hu
    · exact ht.after hj
  · rw [(step_extends h).exits]
    exact ht.exits
  · intro text h
    rcases mem_addWarnings.1 (hwarnings ▸ h) with h | h
    · exact ht.warnings text h
    · exact aliasNotInitialised_not_mem hs' text h

/-- Facts recorded along a run have well-formed aliases, and every rule finds the entries it looks
for. -/
theorem run_aliasesWF (hp : p.Linked) (h : Run O p f c w a) : a.AliasesWF c := by
  induction h with
  | start => exact ⟨by simp [start], by simp [start], by simp [start], by simp [start]⟩
  | @visit b w a a' out h hs ih =>
    have hready := run_ready hp h (.inl List.mem_cons_self)
    rw [← (run_program h).1] at hready
    have hentry := entry_aliasWF ih.exits (run_classOfId h) hready
    obtain ⟨hc, ha, hout⟩ := hs.induction
      (P := fun t => (∀ x, t.1.cls.classOfId x = c.classOfId x) ∧ t.1.AliasesWF c ∧
        t.2.knowledge.AliasWF c)
      (fun _ hi ht =>
        have hc := fun x => ((step_extends hi).classOfId x).trans (ht.1 x)
        ⟨hc, step_aliasesWF hi ht.2.1 ht.2.2 hc⟩)
      ⟨run_classOfId h, ih, hentry⟩
    refine ⟨ha.before, ha.after, ?_, ha.warnings⟩
    intro d s hd
    rcases getElem?_insert_eq_some.1 hd with ⟨-, rfl⟩ | ⟨-, hd⟩
    · exact hout
    · exact ha.exits hd

/-- The alias invariant of the analysis: no instruction breaks it, all facts that are recorded along
a run have it, however the oracle answers and wherever the run is cut off, and so do those of the
analysis itself. No rule ever misses an alias entry. -/
theorem analysis_aliasesWF (hp : p.Linked) (f : FuncId) (o : Options) :
    (∀ (v : View) (i : InstId) (s : Facts), s.knowledge.AliasWF v.cls →
      (v.transfer i s).knowledge.AliasWF v.cls) ∧
    (∀ w a, Run Set.univ p f (Classification.ofFunc p o f).1 w a →
      a.AliasesWF (Classification.ofFunc p o f).1) ∧
    ∀ oracle, (solve p f o oracle (Classification.ofFunc p o f).1).AliasesWF
      (Classification.ofFunc p o f).1 := by
  refine ⟨fun _ _ _ => transfer_aliasWF, fun _ _ => run_aliasesWF hp, fun oracle => ?_⟩
  obtain ⟨w, a, h, heq⟩ := run_solve p f o oracle (Classification.ofFunc p o f).1
  have ha := run_aliasesWF hp h
  rw [heq]
  exact ⟨ha.before, ha.after, ha.exits, ha.warnings⟩

theorem analysis_aliasesWF_loop : ∃ p, Program.load Program.loopText.toList = .ok p ∧
    p.Linked ∧ (solve p 0 {} .conservative (Classification.ofFunc p {} 0).1).AliasesWF
      (Classification.ofFunc p {} 0).1 := by
  have hload : (Program.load Program.loopText.toList).toOption.isSome = true := by decide +kernel
  cases h : Program.load Program.loopText.toList with
  | error e => rw [h] at hload; cases hload
  | ok p =>
    have hp := Program.load_linked h
    exact ⟨p, rfl, hp, (analysis_aliasesWF hp 0 {}).2.2 .conservative⟩

end Analysis

end BoxFlow
