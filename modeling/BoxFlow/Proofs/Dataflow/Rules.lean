import BoxFlow.Dataflow.Transfer
import BoxFlow.Proofs.Facts.Knowledge

/-!
# What the parts of a rule do to the knowledge

One lemma for each operation that the rules of `View.transfer` are made of: unlinking and linking
aliases, setting a handle, filling a cell. Where an operation falls back on `initAlias`, the id has
an entry already, as it does in facts with well-formed aliases.
-/

namespace BoxFlow

namespace Knowledge

variable (k : Knowledge) (id : Id)

/-- `id` linked, both ways, to itself and to `ls`, and to nothing else. -/
def relink (ls : Set Id) : Knowledge :=
  { k with aliases := fun x => {m |
      x = id ∧ (m = id ∨ m ∈ ls) ∨ m = id ∧ x ∈ ls ∨ x ≠ id ∧ m ≠ id ∧ m ∈ k.aliases x} }

/-- `id` described by `ms` in the table of a class. -/
def describe (c : ValueClass) (ms : Set Id) : Knowledge :=
  match c with
  | .data => { k with defs := fun x => {m | x = id ∧ m ∈ ms ∨ x ≠ id ∧ m ∈ k.defs x} }
  | _ => { k with pointsTo := fun x => {m | x = id ∧ m ∈ ms ∨ x ≠ id ∧ m ∈ k.pointsTo x} }

/-- Handle `id` set by `d`, which may be seen through its aliases. -/
def define (d : Id) : Knowledge :=
  { k with defs := fun x => {m | x ∈ k.aliases id ∧ m = d ∨ x ≠ id ∧ m ∈ k.defs x} }

/-- Cell `id` filled with `target`, which may be seen through its aliases. -/
def overwrite (target : Id) : Knowledge :=
  { k with
    pointsTo := fun x => {m | x ∈ k.aliases id ∧ m = target ∨ x ≠ id ∧ m ∈ k.pointsTo x} }

end Knowledge

namespace Table

variable {m x : Id}

theorem mem_get_foldl_erase (id : Id) (l : List Id) (t : Table) :
    m ∈ (l.foldl (fun t a => t.insert a ((t.get a).erase id)) t).get x ↔
      m ∈ t.get x ∧ ¬(x ∈ l ∧ m = id) := by
  induction l generalizing t with
  | nil => simp
  | cons a l ih =>
    rw [List.foldl_cons, ih, get_insert]
    by_cases h : a = x
    · subst h
      rw [if_pos rfl, IdSet.mem_erase]
      simp only [List.mem_cons]
      grind
    · simp [h, Ne.symm h]

theorem mem_get_foldl_link (id : Id) (l : List Id) (t : Table) :
    m ∈ (l.foldl (fun t a => (t.add id {a}).add a {id}) t).get x ↔
      m ∈ t.get x ∨ x = id ∧ m ∈ l ∨ m = id ∧ x ∈ l := by
  induction l generalizing t with
  | nil => simp
  | cons a l ih =>
    rw [List.foldl_cons, ih]
    simp only [mem_get_add, IdSet.mem_singleton, List.mem_cons]
    grind

theorem mem_get_foldl_add (d : Id) (l : List Id) (t : Table) :
    m ∈ (l.foldl (fun t a => t.add a {d}) t).get x ↔ m ∈ t.get x ∨ x ∈ l ∧ m = d := by
  induction l generalizing t with
  | nil => simp
  | cons a l ih =>
    rw [List.foldl_cons, ih]
    simp only [mem_get_add, IdSet.mem_singleton, List.mem_cons]
    grind

end Table

namespace Facts

variable {a s out : Facts} {c : Classification} {id x m d target : Id}

theorem mem_knowledge_tableOf {k : ValueClass} :
    m ∈ a.knowledge.tableOf k x ↔ m ∈ (a.tableOf k).get x := by
  cases k <;> exact .rfl

/-! ## Aliases -/

theorem knowledge_unalias (hs : s.knowledge.AliasWF c)
    (ho : out.knowledge.aliases = s.knowledge.aliases) (id : Id) :
    (unalias id s out).knowledge = out.knowledge.relink id ∅ := by
  refine Knowledge.ext rfl (funext fun x => Set.ext fun m => ?_) rfl
  simp only [mem_knowledge_aliases, unalias, Table.get_insert, Knowledge.relink,
    Set.mem_ofPred_eq, Set.mem_empty_iff_false]
  by_cases h : id = x
  · subst h
    rw [if_pos rfl, IdSet.mem_singleton]
    simp
  · have hsymm : id ∈ out.aliases.get x → x ∈ s.aliases.get id := fun hx =>
      hs.symm (ho ▸ hx : id ∈ s.knowledge.aliases x)
    rw [if_neg h, Table.mem_get_foldl_erase, Std.ExtTreeSet.mem_toList]
    grind

theorem knowledge_linkAliases (id : Id) (ls : IdSet) (out : Facts) :
    (linkAliases id ls out).knowledge = { out.knowledge with
      aliases := fun x =>
        {m | m ∈ out.knowledge.aliases x ∨ x = id ∧ m ∈ ls ∨ m = id ∧ x ∈ ls} } := by
  ext x m
  · exact .rfl
  · simp only [mem_knowledge_aliases, linkAliases, Table.mem_get_foldl_link,
      Std.ExtTreeSet.mem_toList, Set.mem_ofPred_eq]
  · exact .rfl

/-- A fresh id linked to the aliases of several sources. -/
theorem knowledge_foldl_linkAliases {γ : Type} (g : γ → IdSet) (l : List γ) (k : Knowledge)
    (id : Id) (ls : Set Id) (ho : out.knowledge = k.relink id ls) :
    (l.foldl (fun out c => linkAliases id (g c) out) out).knowledge =
      k.relink id (ls ∪ {m | ∃ c ∈ l, m ∈ g c}) := by
  induction l generalizing out ls with
  | nil => simp [ho]
  | cons c l ih =>
    rw [List.foldl_cons, ih (ls ∪ {m | m ∈ g c})]
    · congr 1
      ext m
      simp [or_assoc]
    · rw [knowledge_linkAliases, ho]
      ext x m
      · exact .rfl
      · simp only [Knowledge.relink, Set.mem_ofPred_eq, Set.mem_union]
        grind
      · exact .rfl

theorem aliasesOf_eq (h : id ∈ s.aliases.get id) : aliasesOf s.aliases id = s.aliases.get id :=
  Table.getD_eq_get h _

theorem initAlias_eq (h : id ∈ s.aliases.get id) (out : Facts) :
    initAlias s.aliases id out = out := by
  rw [initAlias, if_pos (Table.contains_of_mem_get h)]

/-! ## Handles and cells -/

theorem setDef_aliases (h : id ∈ s.aliases.get id) (d : Id) (out : Facts) :
    (setDef id d s.aliases out).aliases = out.aliases := by
  simp only [setDef, initAlias_eq h]

theorem addPointsTo_aliases (h : id ∈ s.aliases.get id) (target : Id) (out : Facts) :
    (addPointsTo id target s.aliases out).aliases = out.aliases := by
  simp only [addPointsTo, initAlias_eq h]

theorem knowledge_setDef (h : id ∈ s.aliases.get id) (d : Id) (out : Facts) :
    (setDef id d s.aliases out).knowledge = { out.knowledge with
      defs := fun x => {m | x ∈ s.knowledge.aliases id ∧ m = d ∨
        x ≠ id ∧ m ∈ out.knowledge.defs x} } := by
  ext x m
  · simp only [mem_knowledge_defs, mem_knowledge_aliases, setDef, initAlias_eq h, aliasesOf_eq h,
      Table.mem_get_foldl_add, Table.get_insert, Std.ExtTreeSet.mem_toList, Set.mem_ofPred_eq]
    by_cases hx : id = x
    · simp [hx]
    · simp [hx, Ne.symm hx, or_comm]
  · rw [mem_knowledge_aliases, setDef_aliases h, mem_knowledge_aliases]
  · simp only [mem_knowledge_pointsTo, setDef, initAlias_eq h]

theorem knowledge_addPointsTo (h : id ∈ s.aliases.get id) (target : Id) (out : Facts) :
    (addPointsTo id target s.aliases out).knowledge = { out.knowledge with
      pointsTo := fun x => {m | m ∈ out.knowledge.pointsTo x ∨
        x ∈ s.knowledge.aliases id ∧ m = target} } := by
  ext x m
  · simp only [mem_knowledge_defs, addPointsTo, initAlias_eq h]
  · rw [mem_knowledge_aliases, addPointsTo_aliases h, mem_knowledge_aliases]
  · simp only [mem_knowledge_pointsTo, mem_knowledge_aliases, addPointsTo, initAlias_eq h,
      aliasesOf_eq h, Table.mem_get_foldl_add, Std.ExtTreeSet.mem_toList, Set.mem_ofPred_eq]

theorem knowledge_setPointsTo (h : id ∈ s.aliases.get id) (target : Id) :
    (setPointsTo id target s.aliases s).knowledge = s.knowledge.overwrite id target := by
  rw [setPointsTo, knowledge_addPointsTo h]
  ext x m
  · exact .rfl
  · exact .rfl
  · simp only [mem_knowledge_pointsTo, Table.get_insert, Knowledge.overwrite, Set.mem_ofPred_eq]
    by_cases hx : id = x
    · simp [hx]
    · simp [hx, Ne.symm hx, or_comm]

theorem knowledge_setTableOf {k : ValueClass} (id : Id) (ms : IdSet) (out : Facts) :
    (out.setTableOf k id ms).knowledge = out.knowledge.describe id k {m | m ∈ ms} := by
  have mem_insert (t : Table) (x m : Id) :
      m ∈ Table.get (t.insert id ms) x ↔ x = id ∧ m ∈ ms ∨ x ≠ id ∧ m ∈ t.get x := by
    rw [Table.get_insert]
    by_cases h : id = x
    · simp [h]
    · simp [h, Ne.symm h]
  cases k with
  | data => ext x m <;> first | exact .rfl | exact mem_insert ..
  | pointer | irrelevant => ext x m <;> first | exact .rfl | exact mem_insert ..

end Facts

end BoxFlow
