import BoxFlow.Proofs.Classification.Rules
import BoxFlow.Proofs.Dataflow.Invariant

/-!
# What stands in the tables

An id that occurs in a table is the number of a value, or `unknown` as a member of a set that says
what sets a handle or what a cell holds. What sets a handle is the number of a call that makes or
changes handles. `Facts.In` says so of every entry, those with empty sets included, which
`Knowledge.Within` cannot see.

One lemma for each operation on tables and facts, then for each rule, leads to `step_tidy`: a step
keeps the domain as its arena grows. So do runs of any length (`analysis_inDomain`), and no rule ever
looks up an id that is not the number of a value.
-/

namespace BoxFlow

/-! ## Tables -/

namespace Table

variable {K K' M M' : Set Id} {t u : Table} {x m : Id} {s : IdSet}

/-- The keys are in `K` and the members of their sets in `M`. -/
def In (K M : Set Id) (t : Table) : Prop :=
  ∀ (x : Id) (s : IdSet), t[x]? = some s → x ∈ K ∧ ∀ m ∈ s, m ∈ M

theorem In.mono (h : t.In K M) (hK : K ⊆ K') (hM : M ⊆ M') : t.In K' M' :=
  fun x s hx => ⟨hK (h x s hx).1, fun m hm => hM ((h x s hx).2 m hm)⟩

theorem In.empty : (∅ : Table).In K M := by
  intro x s hx
  simp at hx

theorem In.get (h : t.In K M) (hm : m ∈ t.get x) : m ∈ M := by
  obtain ⟨s, hs, hm⟩ := mem_get_iff.1 hm
  exact (h x s hs).2 m hm

theorem In.key (h : t.In K M) (hm : m ∈ t.get x) : x ∈ K := by
  obtain ⟨s, hs, -⟩ := mem_get_iff.1 hm
  exact (h x s hs).1

theorem In.insert (h : t.In K M) (hx : x ∈ K) (hs : ∀ m ∈ s, m ∈ M) :
    Table.In K M (t.insert x s) := by
  intro y r hy
  rcases getElem?_insert_eq_some.1 hy with ⟨rfl, rfl⟩ | ⟨-, hy⟩
  · exact ⟨hx, hs⟩
  · exact h y r hy

theorem In.add (h : t.In K M) (hx : x ∈ K) (hs : ∀ m ∈ s, m ∈ M) : (t.add x s).In K M := by
  refine h.insert hx fun m hm => ?_
  rcases (IdSet.mem_union ..).1 hm with hm | hm
  · exact h.get hm
  · exact hs m hm

/-- What a step for each element keeps, a fold keeps. -/
theorem In.foldl {γ : Type} {l : List γ} {g : Table → γ → Table} (h : t.In K M)
    (hg : ∀ t : Table, t.In K M → ∀ a ∈ l, (g t a).In K M) : (l.foldl g t).In K M :=
  List.foldlRecOn (motive := Table.In K M) _ _ h hg

theorem In.join (ht : t.In K M) (hu : u.In K M) : (tableLattice.join t u).In K M := by
  simp only [tableLattice, Semilattice.pointwise, Semilattice.powerset,
    Std.ExtTreeMap.foldl_eq_foldl_toList]
  refine ht.foldl fun t ht q hq => ?_
  obtain ⟨hk, hm⟩ := hu _ _ (Std.ExtTreeMap.mem_toList_iff_getElem?_eq_some.1 hq)
  refine ht.insert hk fun m h => ?_
  cases hx : t[q.1]? with
  | none =>
    rw [hx] at h
    exact hm m h
  | some s =>
    rw [hx] at h
    exact ((IdSet.mem_union ..).1 h).elim ((ht _ _ hx).2 m) (hm m)

end Table

/-! ## Facts -/

namespace Facts

variable {N D N' D' : Set Id} {s out : Facts} {id target d : Id} {k : ValueClass} {ms : IdSet}

/-- What may stand in the sets of the table for a class. -/
def members (N D : Set Id) : ValueClass → Set Id
  | .data => insert unknown D
  | _ => insert unknown N

/-- The keys and the aliases are in `N`, and so is what a cell may hold unless it is `unknown`; what
may have set a handle is in `D` unless it is `unknown`. -/
structure In (N D : Set Id) (s : Facts) : Prop where
  defs : s.defs.In N (insert unknown D)
  aliases : s.aliases.In N N
  pointsTo : s.pointsTo.In N (insert unknown N)

theorem In.mono (h : s.In N D) (hN : N ⊆ N') (hD : D ⊆ D') : s.In N' D' where
  defs := h.defs.mono hN (Set.insert_subset_insert hD)
  aliases := h.aliases.mono hN hN
  pointsTo := h.pointsTo.mono hN (Set.insert_subset_insert hN)

theorem In.empty : ({} : Facts).In N D := ⟨.empty, .empty, .empty⟩

theorem In.join (hs : s.In N D) (ho : out.In N D) : (s.join out).In N D where
  defs := hs.defs.join ho.defs
  aliases := hs.aliases.join ho.aliases
  pointsTo := hs.pointsTo.join ho.pointsTo

theorem In.foldl {γ : Type} {l : List γ} {g : Facts → γ → Facts} (h : s.In N D)
    (hg : ∀ s : Facts, s.In N D → ∀ a ∈ l, (g s a).In N D) : (l.foldl g s).In N D :=
  List.foldlRecOn (motive := Facts.In N D) _ _ h hg

theorem In.tableOf (h : s.In N D) (k : ValueClass) : (s.tableOf k).In N (members N D k) := by
  cases k with
  | data => exact h.defs
  | pointer | irrelevant => exact h.pointsTo

theorem In.setTableOf (h : s.In N D) (hid : id ∈ N) (hms : ∀ m ∈ ms, m ∈ members N D k) :
    (s.setTableOf k id ms).In N D := by
  cases k with
  | data => exact ⟨h.defs.insert hid hms, h.aliases, h.pointsTo⟩
  | pointer | irrelevant => exact ⟨h.defs, h.aliases, h.pointsTo.insert hid hms⟩

theorem unknown_mem_members : unknown ∈ members N D k := by
  cases k <;> exact Set.mem_insert ..

theorem mem_of_mem_self (hid : id ∈ N) : ∀ m ∈ ({id} : IdSet), m ∈ N := by
  intro m hm
  rw [IdSet.mem_singleton] at hm
  exact hm ▸ hid

theorem In.unalias (hs : s.In N D) (ho : out.In N D) (hid : id ∈ N) :
    (Facts.unalias id s out).In N D := by
  refine ⟨ho.defs, .insert (.foldl ho.aliases fun t ht a ha => ?_) hid (mem_of_mem_self hid),
    ho.pointsTo⟩
  refine ht.insert (hs.aliases.get (Std.ExtTreeSet.mem_toList.1 ha)) fun m hm => ?_
  exact ht.get ((IdSet.mem_erase ..).1 hm).2

theorem In.linkAliases {sources : IdSet} (ho : out.In N D) (hid : id ∈ N)
    (hsources : ∀ m ∈ sources, m ∈ N) : (Facts.linkAliases id sources out).In N D := by
  refine ⟨ho.defs, .foldl ho.aliases fun t ht a ha => ?_, ho.pointsTo⟩
  have ha := hsources a (Std.ExtTreeSet.mem_toList.1 ha)
  exact (ht.add hid (mem_of_mem_self ha)).add ha (mem_of_mem_self hid)

theorem In.initAlias (ho : out.In N D) (hid : id ∈ N) (aliases : Table) :
    (Facts.initAlias aliases id out).In N D := by
  unfold Facts.initAlias
  split
  · exact ho
  · exact ⟨ho.defs, ho.aliases.add hid (mem_of_mem_self hid), ho.pointsTo⟩

theorem aliasesOf_in {t : Table} (ht : t.In N N) (hid : id ∈ N) : ∀ a ∈ aliasesOf t id, a ∈ N := by
  intro a ha
  rw [aliasesOf, Std.ExtTreeMap.getD_eq_getD_getElem?] at ha
  cases hx : t[id]? with
  | none =>
    rw [hx] at ha
    exact mem_of_mem_self hid a ha
  | some r =>
    rw [hx] at ha
    exact (ht _ _ hx).2 a ha

theorem In.setDef {t : Table} (ho : out.In N D) (ht : t.In N N) (hid : id ∈ N)
    (hd : d ∈ insert unknown D) : (Facts.setDef id d t out).In N D := by
  have hinit := ho.initAlias hid t
  refine ⟨.foldl (ho.defs.insert hid (by simp)) fun u hu a ha => ?_, hinit.aliases,
    hinit.pointsTo⟩
  exact hu.add (aliasesOf_in ht hid a (Std.ExtTreeSet.mem_toList.1 ha)) (mem_of_mem_self hd)

theorem In.addPointsTo {t : Table} (ho : out.In N D) (ht : t.In N N) (hid : id ∈ N)
    (htarget : target ∈ insert unknown N) : (Facts.addPointsTo id target t out).In N D := by
  have hinit := ho.initAlias hid t
  refine ⟨hinit.defs, hinit.aliases, .foldl hinit.pointsTo fun u hu a ha => ?_⟩
  exact hu.add (aliasesOf_in ht hid a (Std.ExtTreeSet.mem_toList.1 ha)) (mem_of_mem_self htarget)

theorem In.setPointsTo {t : Table} (ho : out.In N D) (ht : t.In N N) (hid : id ∈ N)
    (htarget : target ∈ insert unknown N) : (Facts.setPointsTo id target t out).In N D :=
  addPointsTo ⟨ho.defs, ho.aliases, ho.pointsTo.insert hid (by simp)⟩ ht hid htarget

end Facts

/-! ## Rules -/

/-- The numbers given so far. -/
def Arena.numbers (a : Arena) : Set Id := {x | 0 ≤ x ∧ x < a.size}

namespace Arena

variable {a b : Arena} {id : Id}

theorem numbers_mono (h : a.values <+: b.values) : a.numbers ⊆ b.numbers :=
  fun _ hx => ⟨hx.1, Int.lt_of_lt_of_le hx.2 (Int.ofNat_le.2 (size_le h))⟩

theorem exists_value?_iff : (∃ x, a.value? id = some x) ↔ id ∈ a.numbers := by
  unfold value? numbers size
  by_cases h : 0 ≤ id
  · simp [h, Int.toNat_lt h, List.getElem?_eq_some_iff]
  · simp [h]

end Arena

namespace View

open Facts

variable {v : View} {D : Set Id} {i : InstId} {s : Facts} {x : Value} {k : ValueClass}
  {args : List Value}

/-- The numbers of the calls of a function that make a handle or give one a new value. -/
def definers (v : View) (f : FuncId) : Set Id :=
  {m | ∃ i ∈ v.program.calls f, v.cls.arena.find (.inst i) = some m ∧
    ∃ o ∈ [Operation.create, .write, .add, .subtract], v.cls.kindOf i = .operation o}

theorem idOf_mem_numbers (h : v.cls.classOf x ≠ .irrelevant) : v.idOf x ∈ v.cls.arena.numbers :=
  Arena.find_bounds (Classification.find_of_classOf h)

theorem merge_in {inputs : List (Value × Facts)} (hs : s.In v.cls.arena.numbers D)
    (hi : ∀ q ∈ inputs, q.2.In v.cls.arena.numbers D) :
    (v.merge i inputs s).In v.cls.arena.numbers D := by
  unfold merge
  split
  · exact hs
  · next k hk =>
    have hid : v.idOf (.inst i) ∈ v.cls.arena.numbers := idOf_mem_numbers hk
    have hsource {q : Id × Facts} (hq : q ∈ inputs.filterMap
        fun x => (v.cls.arena.find x.1).map (·, x.2)) : q.2.In v.cls.arena.numbers D := by
      obtain ⟨⟨x, facts⟩, hx, hq⟩ := List.mem_filterMap.1 hq
      obtain ⟨j, -, rfl⟩ := Option.map_eq_some_iff.1 hq
      exact hi _ hx
    refine In.setTableOf (.foldl (hs.unalias hs hid) fun out ho q hq => ?_) hid fun m hm => ?_
    · exact ho.linkAliases hid fun m hm => (hsource hq).aliases.get hm
    · obtain ⟨q, hq, hm⟩ := ((mem_foldl_union ..).1 hm).resolve_left (by simp)
      exact ((hsource hq).tableOf _).get hm

theorem loadedMembers_in (hs : s.In v.cls.arena.numbers D) {pointees : IdSet} {m : Id}
    (hm : m ∈ v.loadedMembers k pointees s) : m ∈ members v.cls.arena.numbers D k := by
  rcases mem_loadedMembers.1 hm with ⟨rfl, -⟩ | ⟨j, -, -, -, hm⟩
  · exact unknown_mem_members
  · exact (hs.tableOf k).get (Facts.mem_knowledge_tableOf.1 hm)

theorem loadResult_in (hs : s.In v.cls.arena.numbers D)
    (hid : v.idOf (.inst i) ∈ v.cls.arena.numbers) (pointees : IdSet) :
    (v.loadResult i pointees s).In v.cls.arena.numbers D := by
  unfold loadResult
  have hlinked : ((pointees.toList.filter (· ≠ unknown)).foldl
      (fun out j => linkAliases (v.idOf (.inst i)) (s.aliases.get j) out)
      (unalias (v.idOf (.inst i)) s s)).In v.cls.arena.numbers D :=
    .foldl (hs.unalias hs hid) fun out ho j _ =>
      ho.linkAliases hid fun m hm => hs.aliases.get hm
  dsimp only
  split
  · exact hlinked
  · exact hlinked.setTableOf hid fun m hm => loadedMembers_in hs hm

theorem load_in (hs : s.In v.cls.arena.numbers D) {pointer : Value}
    (hptr : v.cls.classOf pointer = .pointer)
    (hid : v.idOf (.inst i) ∈ v.cls.arena.numbers) :
    (v.load i pointer s).In v.cls.arena.numbers D := by
  have hp : v.idOf pointer ∈ v.cls.arena.numbers := idOf_mem_numbers (by simp [hptr])
  have hr := loadResult_in hs hid (s.pointsTo.get (v.idOf pointer))
  refine .addPointsTo ⟨hr.defs, hr.aliases, hr.pointsTo.insert hp fun m hm => ?_⟩ hs.aliases hp
    (.inr hid)
  exact hr.pointsTo.get ((IdSet.mem_erase ..).1 hm).2

/-! ## Opaque calls -/

theorem pointerArgs_in {m : Id} (hm : m ∈ v.pointerArgs args) : m ∈ v.cls.arena.numbers := by
  obtain ⟨a, _, h, rfl⟩ := mem_pointerArgs.1 hm
  exact idOf_mem_numbers (by simp [h])

theorem dataArgs_in (hs : s.In v.cls.arena.numbers D) {m : Id} (hm : m ∈ v.dataArgs args s) :
    m ∈ insert unknown v.cls.arena.numbers := by
  obtain ⟨a, _, ⟨h, rfl⟩ | ⟨_, q, _, h, _⟩⟩ := mem_dataArgs.1 hm
  · exact .inr (idOf_mem_numbers (by simp [h]))
  · exact hs.pointsTo.get h

theorem touched_in (hs : s.In v.cls.arena.numbers D) :
    (v.touched i args s).In v.cls.arena.numbers D := by
  refine .foldl (.foldl hs fun out ho ptr hptr => .foldl ho fun out ho target ht => ?_)
    fun out ho id hid => ?_
  · exact ho.addPointsTo hs.aliases
      (pointerArgs_in (Std.ExtTreeSet.mem_toList.1 (List.mem_filter.1 hptr).1))
      (dataArgs_in hs (Std.ExtTreeSet.mem_toList.1 ht))
  · obtain ⟨hid, h⟩ := List.mem_filter.1 hid
    rw [Bool.and_eq_true, decide_eq_true_eq] at h
    exact ho.setDef hs.aliases
      ((dataArgs_in hs (Std.ExtTreeSet.mem_toList.1 hid)).resolve_left h.1) (Set.mem_insert ..)

theorem opaqueCall_in (hs : s.In v.cls.arena.numbers D) :
    (v.opaqueCall i args s).In v.cls.arena.numbers D := by
  have ht : (v.touched i args s).In v.cls.arena.numbers D := touched_in hs
  unfold opaqueCall
  dsimp only
  split
  · exact ht
  · next k hk =>
    have hid : v.idOf (.inst i) ∈ v.cls.arena.numbers := idOf_mem_numbers hk
    refine In.setTableOf (.foldl (hs.unalias ht hid) fun out ho j _ => ?_) hid fun m hm => ?_
    · exact ho.linkAliases hid fun m hm => hs.aliases.get hm
    · rcases (mem_foldl_union ..).1 hm with hm | ⟨j, _, hm⟩
      · rw [IdSet.mem_singleton] at hm
        exact hm ▸ unknown_mem_members
      · exact (ht.tableOf _).get hm

/-! ## Every rule -/

/-- An instruction brings no id into the tables but the numbers of values, and none into what sets
handles but its own, and that only if it makes or changes a handle. -/
theorem transfer_in (hv : v.Reserved i) (hs : s.In v.cls.arena.numbers D)
    (he : ∀ {b : BlockId} {e : Facts}, v.exits[b]? = some e → e.In v.cls.arena.numbers D)
    (hd : v.rule i = .handle ∨ (∃ handle, v.rule i = .set handle) → v.idOf (.inst i) ∈ D) :
    (v.transfer i s).In v.cls.arena.numbers D := by
  have hres {x : Value} (h : v.reserved i = some x) : v.idOf x ∈ v.cls.arena.numbers :=
    Arena.find_bounds (hv x h)
  unfold transfer
  cases hop : (v.program.inst i).op with
  | phi incoming =>
    refine merge_in hs fun q hq => ?_
    obtain ⟨⟨x, b⟩, -, hq⟩ := List.mem_filterMap.1 hq
    obtain ⟨e, hb, rfl⟩ := Option.map_eq_some_iff.1 hq
    exact he hb
  | select c t e => exact merge_in hs (by simp [hs])
  | alloca ty =>
    dsimp only
    split
    · next h =>
      have hid : v.idOf (.inst i) ∈ v.cls.arena.numbers := idOf_mem_numbers (by simp [h])
      have hu := hs.unalias hs hid
      exact ⟨hu.defs, hu.aliases, hu.pointsTo.insert hid (by simp)⟩
    · exact hs
  | store value pointer =>
    dsimp only
    split
    · next h =>
      exact hs.setPointsTo hs.aliases (idOf_mem_numbers (by simp [h]))
        (.inr (hres (by simp [reserved, rule, hop, h])))
    · exact hs
  | load pointer =>
    dsimp only
    split
    · next h => exact load_in hs h (hres (by simp [reserved, rule, hop, h]))
    · exact hs
  | call callee args =>
    cases hk : v.cls.kindOf i with
    | opaqueCall => cases args <;> exact opaqueCall_in hs
    | benign => cases args <;> exact hs
    | operation o =>
      cases o with
      | create =>
        have hrule : v.rule i = .handle := rule_create hop hk
        have hid : v.idOf (.inst i) ∈ v.cls.arena.numbers := hres (by simp [reserved, hrule])
        have hu := hs.unalias hs hid
        exact hu.setDef hu.aliases hid (.inr (hd (.inl hrule)))
      | read | destroy => cases args <;> exact hs
      | write | add | subtract =>
        cases args with
        | nil => exact hs
        | cons handle args =>
          dsimp only
          split
          · next h =>
            have h : v.cls.classOf handle = .data := by simpa [CallKind.definesFirst] using h
            have hrule : v.rule i = .set handle := by
              rw [rule_of_definesFirst hop (by rw [hk]; rfl), if_pos h]
            exact hs.setDef hs.aliases (idOf_mem_numbers (by simp [h]))
              (.inr (hd (.inr ⟨handle, hrule⟩)))
          · exact hs
  | br | ret | unreachable => exact hs

/-! ## What is looked up -/

/-- The ids whose values are looked up on behalf of an instruction: those the oracle is asked about,
and those that a warning tells about if they have no aliases yet. -/
def lookups (v : View) (i : InstId) (s : Facts) : List Id :=
  match v.rule i with
  | .store _ pointer | .load pointer => [v.idOf pointer]
  | .handle => [v.idOf (.inst i)]
  | .set handle => [v.idOf handle]
  | .call args => (v.pointerArgs args).toList ++ (v.dataArgs args s).toList.filter (· ≠ unknown)
  | _ => []

/-- What is looked up is found. -/
theorem exists_value?_of_mem_lookups (hv : v.Reserved i) (hs : s.In v.cls.arena.numbers D) {id : Id}
    (h : id ∈ v.lookups i s) : ∃ x, v.cls.arena.value? id = some x := by
  rw [Arena.exists_value?_iff]
  have hfits := rule_fits (v := v) (i := i)
  unfold lookups at h
  cases hr : v.rule i with
  | store value pointer | load pointer =>
    rw [hr] at h hfits
    rw [List.mem_singleton.1 h]
    exact idOf_mem_numbers (by simp [hfits.2])
  | handle =>
    rw [hr] at h
    rw [List.mem_singleton.1 h]
    exact Arena.find_bounds (hv _ (by simp [reserved, hr]))
  | set handle =>
    rw [hr] at h hfits
    rw [List.mem_singleton.1 h]
    exact idOf_mem_numbers (by simp [hfits.2.2])
  | call args =>
    rw [hr] at h
    rcases List.mem_append.1 h with h | h
    · exact pointerArgs_in (Std.ExtTreeSet.mem_toList.1 h)
    · obtain ⟨h, hne⟩ := List.mem_filter.1 h
      exact (dataArgs_in hs (Std.ExtTreeSet.mem_toList.1 h)).resolve_left (of_decide_eq_true hne)
  | keep | phi | select | cell =>
    rw [hr] at h
    cases h

/-- The oracle is asked about every value that is looked up for an opaque call. -/
theorem locations_queries (hv : v.Reserved i) (hs : s.In v.cls.arena.numbers D)
    (hr : v.rule i = .call args) : (v.queries i s).map (some ·.location) =
      (v.lookups i s).map v.cls.arena.value? := by
  obtain ⟨⟨callee, hop⟩, hkind⟩ : v.Fits i (.call args) := hr ▸ rule_fits
  have hlookups : v.lookups i s =
      (v.pointerArgs args).toList ++ (v.dataArgs args s).toList.filter (· ≠ unknown) := by
    rw [lookups, hr]
  simp only [queries, hop, hkind, if_true, ← hlookups, List.map_filterMap]
  rw [← List.filterMap_eq_map]
  refine List.filterMap_congr fun id hid => ?_
  obtain ⟨x, hx⟩ := exists_value?_of_mem_lookups hv hs hid
  rw [Function.comp_apply, hx]
  rfl

end View

/-! ## Along a run -/

namespace Analysis

open View

variable {O : Set Oracle} {p : Program} {f : FuncId} {c : Classification} {a a' : Analysis}
  {s : Facts} {t u : Analysis × Facts} {i : InstId} {is : List InstId} {b : BlockId}
  {w : List BlockId}

/-- Everything in the facts is a number of the analysis; what sets a handle is one of its
definers. -/
def Holds (a : Analysis) (s : Facts) : Prop :=
  s.In a.cls.arena.numbers (a.definers a.func)

/-- All recorded facts keep to the domain. -/
structure InDomain (a : Analysis) : Prop where
  before : ∀ {i : InstId} {s : Facts}, a.before[i]? = some s → a.Holds s
  after : ∀ {i : InstId} {s : Facts}, a.after[i]? = some s → a.Holds s
  exits : ∀ {b : BlockId} {s : Facts}, a.exits[b]? = some s → a.Holds s

theorem Extends.definers (h : Extends a a') : a.definers a.func ⊆ a'.definers a'.func := by
  rintro m ⟨i, hi, hfind, o, ho, hk⟩
  refine ⟨i, ?_, Arena.find_of_prefix h.arena hfind, o, ho, ?_⟩
  · rw [h.program, h.func]
    exact hi
  · rw [h.cls]
    exact hk

/-- Facts that keep to the domain go on doing so when more values have numbers. -/
theorem Extends.holds (h : Extends a a') (hs : a.Holds s) : a'.Holds s :=
  hs.mono (Arena.numbers_mono h.arena) h.definers

/-- A classification that fits the function: it classifies numbers of values, and the operations are
calls of the function. -/
structure Fitting (a : Analysis) : Prop where
  numbered : a.cls.Numbered
  kinds : ∀ {i o}, a.cls.kindOf i = .operation o → i ∈ a.program.calls a.func

theorem Extends.fitting (h : Extends a a') (ha : a.Fitting) : a'.Fitting where
  numbered := h.numbered ha.numbered
  kinds hk := by
    rw [h.cls] at hk
    rw [h.program, h.func]
    exact ha.kinds hk

theorem mem_numbers_of_mem_classifiedIds {id : Id} (hc : c.Numbered) (h : id ∈ c.classifiedIds) :
    id ∈ c.arena.numbers := by
  refine hc id (Classification.classOfId_ne_irrelevant.2 ?_)
  simpa [Classification.classifiedIds, IdSet.mem_union] using h

theorem seed_in (hc : c.Numbered) (D : Set Id) : (seed c).In c.arena.numbers D := by
  refine Facts.In.foldl .empty fun s hs id hid => ?_
  have hid := mem_numbers_of_mem_classifiedIds hc hid
  have haliases : ({ s with aliases := s.aliases.insert id {id} } : Facts).In c.arena.numbers D :=
    ⟨hs.defs, hs.aliases.insert hid (Facts.mem_of_mem_self hid), hs.pointsTo⟩
  have hsource : ∀ m ∈ ({unknown} : IdSet),
      m ∈ Facts.members c.arena.numbers D (c.classOfId id) := by
    intro m hm
    rw [IdSet.mem_singleton] at hm
    exact hm ▸ Facts.unknown_mem_members
  unfold seedId
  dsimp only
  split
  · exact haliases.setTableOf hid hsource
  · exact haliases.setTableOf hid hsource
  · exact haliases

theorem holds_entry (ha : a.Fitting) (h : a.InDomain) (b : BlockId) : a.Holds (a.entry b) := by
  unfold entry
  split
  · exact seed_in ha.numbered _
  · refine Facts.In.foldl .empty fun s hs e he => ?_
    obtain ⟨q, -, hq⟩ := List.mem_filterMap.1 he
    exact hs.join (h.exits hq)

/-- A rule that sets a handle is that of a definer. -/
theorem definer_of_rule (ha : a.Fitting) (hv : a.Reserved i)
    (hr : a.rule i = .handle ∨ ∃ handle, a.rule i = .set handle) :
    a.idOf (.inst i) ∈ a.definers a.func := by
  have hfits : a.Fits i (a.rule i) := rule_fits
  have hfind : a.cls.arena.find (.inst i) = some (a.idOf (.inst i)) := by
    refine hv _ ?_
    rcases hr with hr | ⟨handle, hr⟩ <;> simp [reserved, hr]
  have hkind : ∃ o ∈ [Operation.create, .write, .add, .subtract],
      a.cls.kindOf i = .operation o := by
    rcases hr with hr | ⟨handle, hr⟩
    · rw [hr] at hfits
      exact ⟨.create, by simp, hfits.2⟩
    · rw [hr] at hfits
      have hd := hfits.2.1
      cases hk : a.cls.kindOf i with
      | opaqueCall | benign => simp [hk, CallKind.definesFirst] at hd
      | operation o =>
        refine ⟨o, ?_, rfl⟩
        cases o <;> simp [hk, CallKind.definesFirst] at hd ⊢
  obtain ⟨o, ho, hk⟩ := hkind
  exact ⟨i, ha.kinds hk, hfind, o, ho, hk⟩

/-- What holds at each point of a visit. -/
structure Tidy (t : Analysis × Facts) : Prop where
  fitting : t.1.Fitting
  recorded : t.1.InDomain
  facts : t.1.Holds t.2

/-- A step keeps to the domain, and what it looks up is found. -/
theorem step_tidy (h : Step O i t u) (ht : Tidy t) :
    Tidy u ∧ u.1.Holds t.2 ∧ ∀ id ∈ u.1.lookups i t.2, ∃ x, u.1.cls.arena.value? id = some x := by
  obtain ⟨hout, hbefore, hafter, -⟩ := step_records h
  have he := step_extends h
  have hfitting := he.fitting ht.fitting
  have hres := step_reserved h ht.fitting.numbered
  have hfacts : u.1.Holds t.2 := he.holds ht.facts
  have hexits {b : BlockId} {e : Facts} (hb : u.1.exits[b]? = some e) : u.1.Holds e :=
    he.holds (ht.recorded.exits (he.exits ▸ hb))
  have hnew : u.1.Holds u.2 := by
    rw [hout]
    exact transfer_in hres hfacts hexits (definer_of_rule hfitting hres)
  refine ⟨⟨hfitting, ⟨fun hj => ?_, fun hj => ?_, hexits⟩, hnew⟩, hfacts,
    fun id hid => exists_value?_of_mem_lookups hres hfacts hid⟩
  · rcases getElem?_insert_eq_some.1 (hbefore ▸ hj) with ⟨-, rfl⟩ | ⟨-, hj⟩
    · exact hfacts
    · exact he.holds (ht.recorded.before hj)
  · rcases getElem?_insert_eq_some.1 (hafter ▸ hj) with ⟨-, rfl⟩ | ⟨-, hj⟩
    · exact hnew
    · exact he.holds (ht.recorded.after hj)

theorem steps_tidy (h : Steps O is t u) (ht : Tidy t) : Tidy u :=
  h.induction (fun _ hi ht => (step_tidy hi ht).1) ht

theorem run_inDomain (hc : (start p f .conservative c).Fitting) (h : Run O p f c w a) :
    a.Fitting ∧ a.InDomain := by
  induction h with
  | start => exact ⟨⟨hc.numbered, hc.kinds⟩, by simp [start], by simp [start], by simp [start]⟩
  | @visit b w a a' out h hs ih =>
    have hout := steps_tidy hs ⟨ih.1, ih.2, holds_entry ih.1 ih.2 b⟩
    refine ⟨⟨hout.fitting.numbered, hout.fitting.kinds⟩, hout.recorded.before,
      hout.recorded.after, fun hd => ?_⟩
    rcases getElem?_insert_eq_some.1 hd with ⟨-, rfl⟩ | ⟨-, hd⟩
    · exact hout.facts
    · exact hout.recorded.exits hd

/-- The aliases of a value are found by their numbers. -/
theorem InDomain.aliasesAfter (ha : a.InDomain) {x : Value} {id : Id}
    (h : id ∈ a.aliasesAfter i x) : ∃ y, a.cls.arena.value? id = some y := by
  rw [Arena.exists_value?_iff]
  have hfacts : a.Holds (a.factsAfter i) := by
    rw [factsAfter, Std.ExtTreeMap.getD_eq_getD_getElem?]
    cases hs : a.after[i]? with
    | none => exact .empty
    | some s => exact ha.after hs
  unfold Analysis.aliasesAfter idsIn at h
  split at h
  · exact hfacts.aliases.get (Std.ExtTreeSet.mem_toList.1 h)
  · cases h

/-- What is known before an instruction keeps to the domain. -/
theorem InDomain.factsBefore (ha : a.InDomain) (i : InstId) : a.Holds (a.factsBefore i) := by
  rw [Analysis.factsBefore, Std.ExtTreeMap.getD_eq_getD_getElem?]
  cases hs : a.before[i]? with
  | none => exact .empty
  | some s => exact ha.before hs

/-- What sets a handle is a definer, if it is known. -/
theorem InDomain.definitions (ha : a.InDomain) {x : Value} {m : Id}
    (h : m ∈ a.definitions i x) : m = unknown ∨ m ∈ a.definers a.func := by
  unfold Analysis.definitions idsIn at h
  split at h
  · exact (ha.factsBefore i).defs.get (Std.ExtTreeSet.mem_toList.1 h)
  · cases h

theorem solve_inDomain (p : Program) (f : FuncId) (o : Options) (oracle : Oracle) :
    (solve p f o oracle (Classification.ofFunc p o f).1).InDomain := by
  obtain ⟨w, a, h, heq⟩ := run_solve p f o oracle (Classification.ofFunc p o f).1
  have ha := (run_inDomain ⟨Classification.ofFunc_numbered p o f,
    Classification.mem_calls_of_kindOf⟩ h).2
  rw [heq]
  exact ⟨ha.before, ha.after, ha.exits⟩

/-- Facts keep to their domain, whatever the function, the oracle and the length of the run: the keys
and the aliases in recorded facts are numbers of values, what a cell may hold is such a number or
`unknown`, and what may have set a handle is `unknown` or the number of a call of the function that
makes or changes handles. So an id whose value is looked up when the facts are seeded, at any step of
a run or among the aliases found is always the number of a value, never `unknown`. -/
theorem analysis_inDomain (p : Program) (f : FuncId) (o : Options) :
    (∀ id ∈ (Classification.ofFunc p o f).1.classifiedIds,
      ∃ x, (Classification.ofFunc p o f).1.arena.value? id = some x) ∧
    (∀ w a, Run Set.univ p f (Classification.ofFunc p o f).1 w a →
      a.InDomain ∧ ∀ i x, ∀ id ∈ a.aliasesAfter i x, ∃ y, a.cls.arena.value? id = some y) ∧
    (∀ b w a is i js t u, Run Set.univ p f (Classification.ofFunc p o f).1 (b :: w) a →
      (p.block b).insts = is ++ i :: js → Steps Set.univ is (a, a.entry b) t →
      Step Set.univ i t u → u.1.Holds t.2 ∧ u.1.Holds u.2 ∧
        ∀ id ∈ u.1.lookups i t.2, ∃ x, u.1.cls.arena.value? id = some x) ∧
    ∀ oracle, (solve p f o oracle (Classification.ofFunc p o f).1).InDomain ∧ ∀ i x,
      ∀ id ∈ (solve p f o oracle (Classification.ofFunc p o f).1).aliasesAfter i x, ∃ y,
        (solve p f o oracle (Classification.ofFunc p o f).1).cls.arena.value? id = some y := by
  have hc : (start p f .conservative (Classification.ofFunc p o f).1).Fitting :=
    ⟨Classification.ofFunc_numbered p o f, Classification.mem_calls_of_kindOf⟩
  refine ⟨fun id hid => ?_, fun w a h => ?_, fun b w a is i js t u h _ hs hi => ?_,
    fun oracle => ⟨solve_inDomain .., fun _ _ _ => (solve_inDomain ..).aliasesAfter⟩⟩
  · exact Arena.exists_value?_iff.2 (mem_numbers_of_mem_classifiedIds hc.numbered hid)
  · have ha := (run_inDomain hc h).2
    exact ⟨ha, fun _ _ _ => ha.aliasesAfter⟩
  · obtain ⟨hf, ha⟩ := run_inDomain hc h
    obtain ⟨hu, ht, hl⟩ := step_tidy hi (steps_tidy hs ⟨hf, ha, holds_entry hf ha b⟩)
    exact ⟨ht, hu.facts, hl⟩

end Analysis

end BoxFlow
