import BoxFlow.Proofs.Classification
import BoxFlow.Proofs.Dataflow.Reachability

/-!
# Rules and effects

On facts with well-formed aliases the rule of an instruction has its effect
(`View.knowledge_transfer`). In particular facts that say the same are taken to facts that say the
same, whatever empty sets they hold.
-/

namespace BoxFlow

open Relation (ReflTransGen)

theorem mem_foldl_union {γ : Type} {m : Id} (g : γ → IdSet) (l : List γ) (s : IdSet) :
    m ∈ l.foldl (fun s c => s ∪ g c) s ↔ m ∈ s ∨ ∃ c ∈ l, m ∈ g c := by
  induction l generalizing s with
  | nil => simp
  | cons c l ih => rw [List.foldl_cons, ih, IdSet.mem_union]; simp [or_assoc]

namespace Facts

variable {s out : Facts} {c : Classification} {id m : Id}

/-! ## Folds -/

theorem knowledge_foldl_addPointsTo (h : id ∈ s.aliases.get id) (l : List Id) (out : Facts) :
    (l.foldl (fun out target => addPointsTo id target s.aliases out) out).knowledge =
      { out.knowledge with pointsTo := fun x => {m | m ∈ out.knowledge.pointsTo x ∨
        x ∈ s.knowledge.aliases id ∧ m ∈ l} } := by
  induction l generalizing out with
  | nil => simp; rfl
  | cons target l ih =>
    rw [List.foldl_cons, ih, knowledge_addPointsTo h]
    refine Knowledge.ext rfl rfl (funext fun x => Set.ext fun m => ?_)
    simp only [Set.mem_ofPred_eq, List.mem_cons]
    grind

/-- Cells that may each be filled with all of `l`. -/
theorem knowledge_foldl_foldl_addPointsTo {ps : List Id} (h : ∀ p ∈ ps, p ∈ s.aliases.get p)
    (l : List Id) (out : Facts) :
    (ps.foldl (fun out p =>
      l.foldl (fun out target => addPointsTo p target s.aliases out) out) out).knowledge =
      { out.knowledge with pointsTo := fun x => {m | m ∈ out.knowledge.pointsTo x ∨
        (∃ p ∈ ps, x ∈ s.knowledge.aliases p) ∧ m ∈ l} } := by
  induction ps generalizing out with
  | nil => simp; rfl
  | cons p ps ih =>
    rw [List.foldl_cons, ih fun q hq => h q (List.mem_cons_of_mem _ hq),
      knowledge_foldl_addPointsTo (h p List.mem_cons_self)]
    refine Knowledge.ext rfl rfl (funext fun x => Set.ext fun m => ?_)
    simp only [Set.mem_ofPred_eq, List.mem_cons]
    grind

theorem knowledge_foldl_setDef {l : List Id} (h : ∀ j ∈ l, j ∈ s.aliases.get j) (d : Id)
    (out : Facts) :
    (l.foldl (fun out j => setDef j d s.aliases out) out).knowledge =
      { out.knowledge with defs := fun x => {m |
        m = d ∧ (∃ j ∈ l, x ∈ s.knowledge.aliases j) ∨ x ∉ l ∧ m ∈ out.knowledge.defs x} } := by
  induction l generalizing out with
  | nil => simp; rfl
  | cons j l ih =>
    have hl : ∀ j ∈ l, j ∈ s.knowledge.aliases j := fun q hq => h q (List.mem_cons_of_mem _ hq)
    have hj : j ∈ s.knowledge.aliases j := h j List.mem_cons_self
    rw [List.foldl_cons, ih hl, knowledge_setDef (h j List.mem_cons_self)]
    refine Knowledge.ext (funext fun x => Set.ext fun m => ?_) rfl rfl
    simp only [Set.mem_ofPred_eq, List.mem_cons]
    clear ih
    grind

end Facts

namespace View

open Facts

variable {v : View} {i : InstId} {s : Facts}

/-- A classified value is an alias of itself. -/
theorem mem_aliases_idOf (hs : s.knowledge.AliasWF v.cls) {x : Value}
    (h : v.cls.classOf x ≠ .irrelevant) : v.idOf x ∈ s.aliases.get (v.idOf x) :=
  hs.refl (by rwa [View.idOf, Classification.classOfId_idOf h])

/-! ## Merges -/

/-- The numbered values among some inputs. -/
def inputSources (v : View) (inputs : List (Value × Facts)) : Set (Id × Knowledge) :=
  {q | ∃ x ∈ inputs, v.cls.arena.find x.1 = some q.1 ∧ q.2 = x.2.knowledge}

theorem exists_inputSources {inputs : List (Value × Facts)} {P : Id × Knowledge → Prop} :
    (∃ q ∈ v.inputSources inputs, P q) ↔
      ∃ c ∈ inputs.filterMap fun (x, facts) => (v.cls.arena.find x).map (·, facts),
        P (c.1, c.2.knowledge) := by
  simp only [inputSources, Set.mem_ofPred_eq, List.mem_filterMap, Option.map_eq_some_iff]
  constructor
  · rintro ⟨⟨j, k⟩, ⟨x, hx, hj, rfl⟩, hP⟩
    exact ⟨(j, x.2), ⟨x, hx, j, hj, rfl⟩, hP⟩
  · rintro ⟨_, ⟨x, hx, j, hj, rfl⟩, hP⟩
    exact ⟨_, ⟨x, hx, hj, rfl⟩, hP⟩

theorem knowledge_merge (hs : s.knowledge.AliasWF v.cls) (inputs : List (Value × Facts)) :
    (v.merge i inputs s).knowledge = v.mergeEffect i s.knowledge (v.inputSources inputs) := by
  cases hc : v.cls.classOf (.inst i) with
  | irrelevant => simp only [merge, mergeEffect, hc]
  | data | pointer =>
    simp only [merge, mergeEffect, hc]
    rw [knowledge_setTableOf, knowledge_foldl_linkAliases _ _ s.knowledge _ ∅
      (knowledge_unalias hs rfl _), Set.empty_union]
    simp only [exists_inputSources, mem_foldl_union, mem_knowledge_aliases, mem_knowledge_tableOf,
      Std.ExtTreeSet.not_mem_empty, false_or]

theorem inputSources_phiInputs (incoming : List (Value × BlockId)) :
    v.inputSources (v.phiInputs incoming) = v.phiSources incoming := by
  ext ⟨j, k⟩
  simp only [inputSources, phiInputs, phiSources, List.mem_filterMap, Option.map_eq_some_iff,
    Set.mem_ofPred_eq]
  constructor
  · rintro ⟨_, ⟨⟨x, b⟩, hx, e, he, rfl⟩, hj, rfl⟩
    exact ⟨x, b, e, hx, hj, he, rfl⟩
  · rintro ⟨x, b, e, hx, hj, he, rfl⟩
    exact ⟨_, ⟨(x, b), hx, e, he, rfl⟩, hj, rfl⟩

theorem inputSources_select (t e : Value) :
    v.inputSources [(t, s), (e, s)] = v.selectSources s.knowledge t e := by
  ext ⟨j, k⟩
  constructor
  · rintro ⟨x, hx, hj, rfl⟩
    simp only [List.mem_cons, List.not_mem_nil, or_false] at hx
    rcases hx with rfl | rfl
    · exact ⟨.inl hj, rfl⟩
    · exact ⟨.inr hj, rfl⟩
  · rintro ⟨hj | hj, rfl⟩
    · exact ⟨(t, s), by simp, hj, rfl⟩
    · exact ⟨(e, s), by simp, hj, rfl⟩

/-! ## Loads -/

theorem mem_loadedMembers {k : ValueClass} {pointees : IdSet} {m : Id} :
    m ∈ v.loadedMembers k pointees s ↔ m ∈ v.loaded s.knowledge k {j | j ∈ pointees} := by
  have hfold (l : List Id) (t : IdSet) : m ∈ l.foldl (fun t j =>
      if j = unknown then t.insert unknown
      else if v.cls.classOfId j = k then t ∪ (s.tableOf k).get j
      else t) t ↔ m ∈ t ∨ m ∈ v.loaded s.knowledge k {j | j ∈ l} := by
    simp only [loaded, Set.mem_ofPred_eq, mem_knowledge_tableOf]
    induction l generalizing t with
    | nil => simp
    | cons j l ih =>
      rw [List.foldl_cons, ih]
      split
      · next h => simp only [IdSet.mem_insert, List.mem_cons]; grind
      · split
        · simp only [IdSet.mem_union, List.mem_cons]; grind
        · simp only [List.mem_cons]; grind
  rw [loadedMembers, hfold]
  simp

theorem knowledge_loadResult (hs : s.knowledge.AliasWF v.cls) (pointer : Value) :
    (v.loadResult i (s.pointsTo.get (v.idOf pointer)) s).knowledge =
      v.loadedEffect i s.knowledge pointer := by
  have hlinked : (((s.pointsTo.get (v.idOf pointer)).toList.filter (· ≠ unknown)).foldl
      (fun out j => linkAliases (v.idOf (.inst i)) (s.aliases.get j) out)
      (unalias (v.idOf (.inst i)) s s)).knowledge = s.knowledge.relink (v.idOf (.inst i))
        {m | ∃ j ∈ s.knowledge.pointsTo (v.idOf pointer), j ≠ unknown ∧
          m ∈ s.knowledge.aliases j} := by
    rw [knowledge_foldl_linkAliases _ _ s.knowledge _ ∅ (knowledge_unalias hs rfl _),
      Set.empty_union]
    simp [and_assoc]
  cases hc : v.cls.classOf (.inst i) with
  | irrelevant =>
    simp only [loadResult, loadedEffect, hc]
    exact hlinked
  | data | pointer =>
    simp only [loadResult, loadedEffect, hc]
    rw [knowledge_setTableOf, hlinked]
    simp only [mem_loadedMembers]
    rfl

theorem knowledge_load (hs : s.knowledge.AliasWF v.cls) {pointer : Value}
    (h : v.cls.classOf pointer = .pointer) :
    (v.load i pointer s).knowledge = v.loadEffect i s.knowledge pointer := by
  rw [load, knowledge_addPointsTo (mem_aliases_idOf hs (by simp [h])), loadEffect,
    ← knowledge_loadResult hs]
  refine Knowledge.ext rfl rfl (funext fun x => Set.ext fun m => ?_)
  simp only [Set.mem_ofPred_eq, mem_knowledge_pointsTo, Table.get_insert]
  by_cases hx : v.idOf pointer = x
  · subst hx
    simp only [if_true, IdSet.mem_erase]
    grind
  · simp [hx, Ne.symm hx]

/-! ## Opaque calls -/

theorem mem_pointerArgs {args : List Value} {m : Id} :
    m ∈ v.pointerArgs args ↔ m ∈ v.pointerSet args := by
  simp [pointerArgs, pointerSet, and_assoc]

theorem mem_dataArgs {args : List Value} {m : Id} :
    m ∈ v.dataArgs args s ↔ m ∈ v.dataSet s.knowledge args := by
  simp only [dataArgs, Std.ExtTreeSet.mem_ofList, List.contains_iff_mem, List.mem_flatMap, dataSet,
    Set.mem_ofPred_eq]
  refine exists_congr fun a => and_congr_right fun _ => ?_
  cases v.cls.classOf a <;> simp [mem_reachableData, eq_comm]

theorem classOfId_of_mem_pointerSet {args : List Value} {m : Id} (h : m ∈ v.pointerSet args) :
    v.cls.classOfId m = .pointer := by
  obtain ⟨a, _, ha, rfl⟩ := h
  rw [idOf, Classification.classOfId_idOf (by simp [ha]), ha]

theorem classOfId_of_mem_dataSet {args : List Value} {k : Knowledge} {m : Id}
    (h : m ∈ v.dataSet k args) (hm : m ≠ unknown) : v.cls.classOfId m = .data := by
  obtain ⟨a, _, ⟨ha, rfl⟩ | ⟨_, _, _, _, h⟩⟩ := h
  · rw [idOf, Classification.classOfId_idOf (by simp [ha]), ha]
  · exact h.resolve_left hm

theorem classOfId_of_mem_modified {args : List Value} {k : Knowledge} {j : Id}
    (h : j ∈ v.modified i k args) : v.cls.classOfId j = .data :=
  classOfId_of_mem_dataSet h.1 h.2.1

theorem mem_aliases_of_classOfId (hs : s.knowledge.AliasWF v.cls) {j : Id} {c : ValueClass}
    (h : v.cls.classOfId j = c) (hc : c ≠ .irrelevant) : j ∈ s.aliases.get j :=
  hs.refl (h ▸ hc)

theorem knowledge_touched (hs : s.knowledge.AliasWF v.cls) (args : List Value) :
    (v.touched i args s).knowledge = v.touch i s.knowledge args := by
  have hcells : ∀ p ∈ (v.pointerArgs args).toList.filter (v.mayModify i), p ∈ s.aliases.get p := by
    intro p hp
    have hp := mem_pointerArgs.1 (Std.ExtTreeSet.mem_toList.1 (List.mem_filter.1 hp).1)
    exact mem_aliases_of_classOfId hs (classOfId_of_mem_pointerSet hp) (by decide)
  have hmodified {j : Id} :
      j ∈ (v.dataArgs args s).toList.filter (fun j => j ≠ unknown && v.mayModify i j) ↔
        j ∈ v.modified i s.knowledge args := by
    simp only [List.mem_filter, Std.ExtTreeSet.mem_toList, mem_dataArgs, modified,
      Set.mem_ofPred_eq, Bool.and_eq_true, decide_eq_true_eq]
  rw [touched, knowledge_foldl_setDef, knowledge_foldl_foldl_addPointsTo hcells]
  · refine Knowledge.ext (funext fun x => Set.ext fun m => ?_) rfl
      (funext fun x => Set.ext fun m => ?_)
    · simp only [touch, Set.mem_ofPred_eq, hmodified]
    · simp only [touch, Set.mem_ofPred_eq, List.mem_filter, Std.ExtTreeSet.mem_toList,
        mem_pointerArgs, mem_dataArgs, and_assoc]
  · exact fun j hj => mem_aliases_of_classOfId hs
      (classOfId_of_mem_modified (hmodified.1 hj)) (by decide)

theorem mem_callSources {args : List Value} {c : ValueClass} {q : Id} :
    q ∈ v.callSources c args s ↔ q ∈ v.resultSources s.knowledge c args := by
  cases c <;> simp [callSources, resultSources, mem_dataArgs, mem_pointerArgs, and_comm]

theorem knowledge_opaqueCall (hs : s.knowledge.AliasWF v.cls) (args : List Value) :
    (v.opaqueCall i args s).knowledge = v.opaqueEffect i s.knowledge args := by
  have ht := @knowledge_touched v i s hs args
  have ha : (v.touched i args s).knowledge.aliases = s.knowledge.aliases := by rw [ht]; rfl
  cases hc : v.cls.classOf (.inst i) with
  | irrelevant =>
    simp only [opaqueCall, opaqueEffect, hc]
    exact ht
  | data | pointer =>
    simp only [opaqueCall, opaqueEffect, hc]
    rw [knowledge_setTableOf, knowledge_foldl_linkAliases _ _ _ _ ∅ (knowledge_unalias hs ha _),
      Set.empty_union, ht]
    simp only [mem_foldl_union, ← mem_knowledge_tableOf, ht, IdSet.mem_singleton,
      mem_callSources]
    rfl

/-! ## Every instruction -/

/-- The rule of an instruction has its effect. -/
theorem knowledge_transfer (hs : s.knowledge.AliasWF v.cls) :
    (v.transfer i s).knowledge = v.effect i s.knowledge := by
  have halloc : (unalias (v.idOf (.inst i)) s s).knowledge =
      s.knowledge.relink (v.idOf (.inst i)) ∅ := knowledge_unalias hs rfl _
  have hself : v.idOf (.inst i) ∈
      (unalias (v.idOf (.inst i)) s s).aliases.get (v.idOf (.inst i)) := by
    rw [← mem_knowledge_aliases, halloc]
    exact .inl ⟨rfl, .inl rfl⟩
  unfold transfer effect rule
  cases (v.program.inst i).op with
  | phi incoming => exact (knowledge_merge hs _).trans (by rw [inputSources_phiInputs])
  | select c t e => exact (knowledge_merge hs _).trans (by rw [inputSources_select])
  | alloca ty =>
    dsimp only
    split
    · dsimp only
      rw [← halloc]
      exact (knowledge_setTableOf (k := .pointer) _ ∅ _).trans (by simp)
    · rfl
  | store value pointer =>
    dsimp only
    split
    · next h => exact knowledge_setPointsTo (mem_aliases_idOf hs (by simp [h])) _
    · rfl
  | load pointer =>
    dsimp only
    split
    · next h => exact knowledge_load hs h
    · rfl
  | call callee args =>
    cases v.cls.kindOf i with
    | opaqueCall => exact knowledge_opaqueCall hs _
    | benign => cases args <;> rfl
    | operation o =>
      cases o with
      | create => exact (knowledge_setDef hself _ _).trans (by rw [halloc]; rfl)
      | read | destroy => cases args <;> rfl
      | write | add | subtract =>
        cases args with
        | nil => rfl
        | cons handle args =>
          dsimp only
          split
          · next h =>
            have h : v.cls.classOf handle = .data := by simpa [CallKind.definesFirst] using h
            exact knowledge_setDef (mem_aliases_idOf hs (by simp [h])) _ _
          · rfl
  | br | ret | unreachable => rfl

end View

end BoxFlow
