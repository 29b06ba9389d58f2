import BoxFlow.Proofs.Dataflow.Aliases
import BoxFlow.Proofs.Dataflow.Kept

/-!
# What an opaque call does

`View.callOutcome` is what is known after an opaque call, in terms of the sets of ids that the call
gets: no table is walked through, so neither the order of the arguments nor how often one is given
matters. On facts with well-formed aliases it is what the rule of the call computes
(`View.transfer_opaqueCall`).
-/

namespace BoxFlow

namespace Knowledge

variable (k : Knowledge) (id : Id)

open Classical in
/-- The alias sets once `id` is no alias of any other, and is then linked, both ways, to `ls`. -/
noncomputable def realias (ls : Set Id) (x : Id) : Set Id :=
  if x = id then insert id ls
  else if x ∈ ls then insert id (k.aliases x) else k.aliases x \ {id}

theorem realias_eq (ls : Set Id) : k.realias id ls = (k.relink id ls).aliases := by
  funext x
  ext m
  simp only [realias, relink, Set.mem_ofPred_eq]
  split
  · next h =>
    subst h
    simp only [Set.mem_insert_iff, true_and, ne_eq, not_true_eq_false, false_and, or_false]
    grind
  · split <;> simp <;> grind

theorem describe_data (ms : Set Id) :
    k.describe id .data ms = { k with defs := Function.update k.defs id ms } := by
  refine Knowledge.ext (funext fun x => Set.ext fun m => ?_) rfl rfl
  by_cases h : x = id <;> simp [describe, h]

theorem describe_pointer (ms : Set Id) :
    k.describe id .pointer ms = { k with pointsTo := Function.update k.pointsTo id ms } := by
  refine Knowledge.ext rfl rfl (funext fun x => Set.ext fun m => ?_)
  by_cases h : x = id <;> simp [describe, h]

end Knowledge

namespace View

variable (v : View) (i : InstId) (args : List Value) (s : Facts)

/-- The handles that a call gets: its arguments, and what can be reached from its cells. -/
def handed : Set Id :=
  {d | ∃ a ∈ args, v.cls.classOf a = .data ∧ v.idOf a = d} ∪
    {d | ∃ p ∈ v.pointerSet args, d ∈ Facts.reachableData v.cls s p}

/-- The handles that a call gets and that the oracle lets it set. -/
def handedSet : Set Id :=
  {d ∈ v.handed args s | d ≠ unknown ∧ v.mayModify i d = true}

/-- The cells that a call gets and that the oracle lets it fill. -/
def filledSet : Set Id :=
  {p ∈ v.pointerSet args | v.mayModify i p = true}

open Classical in
/-- What is known of the handles and cells after a call, its result aside. A handle that the call
gets is set; one that is seen through it may have been. A cell that the call gets may hold all the
handles that the call gets, and so may its aliases. -/
noncomputable def callTouch : Knowledge where
  defs x :=
    if x ∈ v.handedSet i args s then {unknown}
    else if ∃ d ∈ v.handedSet i args s, x ∈ s.aliases.get d then insert unknown (s.knowledge.defs x)
    else s.knowledge.defs x
  aliases := s.knowledge.aliases
  pointsTo x :=
    if ∃ p ∈ v.filledSet i args, x ∈ s.aliases.get p then s.knowledge.pointsTo x ∪ v.handed args s
    else s.knowledge.pointsTo x

open Classical in
/-- What is known after an opaque call. The result of a call is something unknown or anything of
its class that the call gets. -/
noncomputable def callOutcome : Knowledge :=
  let out := v.callTouch i args s
  let r := v.idOf (.inst i)
  let linked (Q : Set Id) := s.knowledge.realias r {m | ∃ q ∈ Q \ {unknown}, m ∈ s.aliases.get q}
  let described (t : Id → Set Id) (Q : Set Id) :=
    Function.update t r (insert unknown {m | ∃ q ∈ Q \ {unknown}, m ∈ t q})
  match v.cls.classOf (.inst i) with
  | .irrelevant => out
  | .data =>
    { out with
      aliases := linked (v.handed args s)
      defs := described out.defs (v.handed args s) }
  | .pointer =>
    { out with
      aliases := linked (v.pointerSet args)
      pointsTo := described out.pointsTo (v.pointerSet args) }

variable {v i args s}

/-! ## The sets that a call gets -/

theorem handed_eq : v.handed args s = v.dataSet s.knowledge args := by
  ext m
  simp only [handed, dataSet, pointerSet, Facts.mem_reachableData, Set.mem_union,
    Set.mem_ofPred_eq]
  constructor
  · rintro (⟨a, ha, h⟩ | ⟨_, ⟨a, ha, hc, rfl⟩, h⟩)
    · exact ⟨a, ha, .inl h⟩
    · exact ⟨a, ha, .inr ⟨hc, h⟩⟩
  · rintro ⟨a, ha, h | ⟨hc, h⟩⟩
    · exact .inl ⟨a, ha, h⟩
    · exact .inr ⟨_, ⟨a, ha, hc, rfl⟩, h⟩

theorem handedSet_eq : v.handedSet i args s = v.modified i s.knowledge args := by
  simp only [handedSet, modified, handed_eq]

/-- The sets that a call gets do not depend on the order of its arguments. -/
theorem opaqueCall_congr {args' : List Value} (h : ∀ a, a ∈ args' ↔ a ∈ args) :
    v.opaqueCall i args' s = v.opaqueCall i args s := by
  have hp : v.pointerArgs args' = v.pointerArgs args :=
    Std.ExtTreeSet.ext_mem fun m => by simp only [mem_pointerArgs, pointerSet, h]
  have hd : v.dataArgs args' s = v.dataArgs args s :=
    Std.ExtTreeSet.ext_mem fun m => by simp only [mem_dataArgs, dataSet, h]
  simp only [opaqueCall, touched, callSources, hp, hd]

/-! ## The outcome -/

theorem callTouch_eq (hs : s.knowledge.AliasWF v.cls) :
    v.callTouch i args s = v.touch i s.knowledge args := by
  refine Knowledge.ext (funext fun x => Set.ext fun m => ?_) rfl
    (funext fun x => Set.ext fun m => ?_)
  · have hself (hx : x ∈ v.handedSet i args s) : x ∈ s.aliases.get x := by
      rw [handedSet_eq] at hx
      exact mem_aliases_of_classOfId hs (classOfId_of_mem_modified hx) (by decide)
    simp only [callTouch, touch, ← handedSet_eq, Set.mem_ofPred_eq, Facts.mem_knowledge_aliases]
    split
    · next hx => simpa [hx] using fun _ => ⟨x, hx, hself hx⟩
    · next hx =>
      split
      · next hshared => simp [hx, hshared]
      · next hshared => simp [hx, hshared]
  · have hfilled : (∃ p ∈ v.pointerSet args, v.mayModify i p = true ∧
        x ∈ s.knowledge.aliases p) ↔ ∃ p ∈ v.filledSet i args, x ∈ s.aliases.get p :=
      exists_congr fun p => and_assoc.symm
    simp only [callTouch, touch, hfilled, handed_eq, Set.mem_ofPred_eq]
    split_ifs with h <;> simp [h]

theorem callOutcome_eq (hs : s.knowledge.AliasWF v.cls) :
    v.callOutcome i args s = v.opaqueEffect i s.knowledge args := by
  have hdata : v.resultSources s.knowledge .data args = v.handed args s \ {unknown} := by
    rw [handed_eq]
    exact Set.ext fun q => and_comm
  have hpointer : v.resultSources s.knowledge .pointer args = v.pointerSet args \ {unknown} :=
    Set.ext fun q => and_comm
  unfold callOutcome opaqueEffect
  cases v.cls.classOf (.inst i) with
  | irrelevant => exact callTouch_eq hs
  | data =>
    simp only [hdata, Knowledge.describe_data, Knowledge.realias_eq, callTouch_eq hs]
    rfl
  | pointer =>
    simp only [hpointer, Knowledge.describe_pointer, Knowledge.realias_eq, callTouch_eq hs]
    rfl

/-- An opaque call has its outcome, in whatever order its arguments are given. Where nothing is
known of `unknown`, it would add nothing to the sets that describe the result. -/
theorem transfer_opaqueCall {callee : String} (hs : s.knowledge.AliasWF v.cls)
    (hop : (v.program.inst i).op = .call callee args) (hkind : v.cls.kindOf i = .opaqueCall) :
    (v.transfer i s).knowledge = v.callOutcome i args s ∧
      (∀ args', (∀ a, a ∈ args' ↔ a ∈ args) → v.opaqueCall i args' s = v.transfer i s) ∧
      unknown ∉ v.pointerSet args ∧
      (s.defs.get unknown = ∅ → s.aliases.get unknown = ∅ →
        (v.callTouch i args s).defs unknown = ∅) := by
  have htransfer : v.transfer i s = v.opaqueCall i args s := by simp only [transfer, hop, hkind]
  refine ⟨?_, fun args' h => ?_, fun ⟨a, _, _, h⟩ => ?_, fun hd ha => ?_⟩
  · rw [htransfer, knowledge_opaqueCall hs, callOutcome_eq hs]
  · rw [htransfer, opaqueCall_congr h]
  · exact idOf_ne_unknown v a h
  · have hno : ∀ d, unknown ∉ s.aliases.get d := fun d hd => by
      have hd : d ∈ s.aliases.get unknown := hs.symm (x := d) (y := unknown) hd
      simp [ha] at hd
    have hset : unknown ∉ v.handedSet i args s := fun h => h.2.1 rfl
    simp only [callTouch, hset, hno, if_false, and_false, exists_false]
    ext m
    simp [hd]

/-- A handle in a cell that a call gets. -/
def cellCallText : String :=
  "define void @f()\x7be:%a=call ptr @create(i64 1)%p=alloca ptr store ptr %a,ptr %p " ++
  "%r=call ptr @g(ptr %p)call void @destroy(ptr %r)ret void\x7d"

theorem transfer_opaqueCall_cell : ∃ p, Program.load cellCallText.toList = .ok p ∧
    let a := Analysis.solve p 0 {} .conservative (Classification.ofFunc p {} 0).1
    let s := a.transfer 2 (a.transfer 1 (a.transfer 0 (Analysis.seed a.cls)))
    s.knowledge.AliasWF a.cls ∧ (p.inst 3).op = .call "g" [.inst 1] ∧
      a.cls.kindOf 3 = .opaqueCall ∧ a.cls.classOf (.inst 3) = .data ∧
      a.idOf (.inst 0) ∈ a.handedSet 3 [.inst 1] s ∧
      (a.transfer 3 s).knowledge = a.callOutcome 3 [.inst 1] s := by
  obtain ⟨p, hload, -, hprogram, hop, hkind, hclass, hmem, hmodify⟩ :=
    Program.exists_load (s := cellCallText.toList) (P := fun p =>
      let a := Analysis.solve p 0 {} .conservative (Classification.ofFunc p {} 0).1
      let s := a.transfer 2 (a.transfer 1 (a.transfer 0 (Analysis.seed a.cls)))
      (a.program.inst 3).op = .call "g" [.inst 1] ∧ (p.inst 3).op = .call "g" [.inst 1] ∧
      a.cls.kindOf 3 = .opaqueCall ∧ a.cls.classOf (.inst 3) = .data ∧
      a.idOf (.inst 0) ∈ a.dataArgs [.inst 1] s ∧ a.mayModify 3 (a.idOf (.inst 0)) = true)
      (by decide +kernel)
  refine ⟨p, hload, ?_⟩
  intro a s
  have hs : s.knowledge.AliasWF a.cls :=
    transfer_aliasWF (transfer_aliasWF (transfer_aliasWF (Analysis.seed_aliasWF a.cls)))
  have hhanded : a.idOf (.inst 0) ∈ a.handed [.inst 1] s := handed_eq ▸ mem_dataArgs.1 hmem
  exact ⟨hs, hop, hkind, hclass, ⟨hhanded, idOf_ne_unknown _ _, hmodify⟩,
    (transfer_opaqueCall hs hprogram hkind).1⟩

end View

end BoxFlow
