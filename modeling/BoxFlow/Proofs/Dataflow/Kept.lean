import BoxFlow.Proofs.Dataflow.Transfer

/-!
# What an effect keeps

An instruction leaves alone what is known of other values, but for what it sets, fills or hands to a
call. `unknown` in particular stays among the definitions of a handle that nothing sets
(`View.unknown_mem_effect_defs`), and a cell that nothing fills holds what it has held
(`View.mem_effect_pointsTo`).
-/

namespace BoxFlow

namespace Knowledge

variable {k : Knowledge} {id x q : Id} {c : ValueClass} {ms : Set Id}

theorem describe_aliases : (k.describe id c ms).aliases = k.aliases := by cases c <;> rfl

theorem describe_defs (h : x ≠ id) : (k.describe id c ms).defs x = k.defs x := by
  cases c with
  | data => ext m; simp [describe, h]
  | pointer | irrelevant => rfl

theorem describe_pointsTo (h : x ≠ id) : (k.describe id c ms).pointsTo x = k.pointsTo x := by
  cases c with
  | data => rfl
  | pointer | irrelevant => ext m; simp [describe, h]

theorem mem_describe_data : q ∈ (k.describe id .data ms).defs id ↔ q ∈ ms := by simp [describe]

theorem mem_describe_pointer : q ∈ (k.describe id .pointer ms).pointsTo id ↔ q ∈ ms := by
  simp [describe]

end Knowledge

namespace View

variable {v : View} {k : Knowledge} {i : InstId} {x y : Value}

theorem fits_of_rule {r : Rule} (h : v.rule i = r) : v.Fits i r :=
  h ▸ rule_fits

theorem idOf_ne (hx : v.cls.classOf x ≠ .irrelevant) (hne : x ≠ y) : v.idOf x ≠ v.idOf y := by
  intro heq
  have hfind : v.cls.arena.find x = some (v.idOf x) := Classification.find_of_classOf hx
  cases hy : v.cls.arena.find y with
  | some q =>
    have hq : v.idOf y = q := Arena.idOf_of_find hy
    rw [heq, hq] at hfind
    obtain ⟨-, h⟩ := Arena.find_eq_some_iff.1 hfind
    obtain ⟨-, h'⟩ := Arena.find_eq_some_iff.1 hy
    exact hne (Option.some.inj (h.symm.trans h'))
  | none =>
    have hq : v.idOf y = v.cls.arena.size := by rw [idOf, Arena.idOf, hy, Option.getD_none]
    have := (Arena.find_bounds hfind).2
    rw [heq, hq] at this
    exact absurd this (Int.lt_irrefl _)

theorem idOf_ne_unknown (v : View) (x : Value) : v.idOf x ≠ unknown := by
  have h : 0 ≤ v.idOf x := by
    unfold idOf Arena.idOf
    cases hx : v.cls.arena.find x with
    | some q => exact (Arena.find_bounds hx).1
    | none => exact Int.natCast_nonneg _
  rintro heq
  rw [heq] at h
  exact absurd h (by decide)

theorem classOfId_idOf (hn : v.cls.Numbered) (x : Value) :
    v.cls.classOfId (v.idOf x) = v.cls.classOf x := by
  by_cases hx : v.cls.classOf x = .irrelevant
  · rw [hx]
    by_contra hne
    cases hfind : v.cls.arena.find x with
    | some q =>
      rw [idOf, Arena.idOf_of_find hfind] at hne
      rw [Classification.classOf, hfind] at hx
      exact hne hx
    | none =>
      have := (hn _ hne).2
      rw [idOf, Arena.idOf, hfind, Option.getD_none] at this
      exact absurd this (Int.lt_irrefl _)
  · exact Classification.classOfId_idOf hx

/-! ## Loads -/

/-- The aliases that a load gives its result. -/
theorem loadEffect_aliases (v : View) (i : InstId) (k : Knowledge) (pointer : Value) :
    (v.loadEffect i k pointer).aliases = (k.relink (v.idOf (.inst i))
      {q | ∃ j ∈ k.pointsTo (v.idOf pointer), j ≠ unknown ∧ q ∈ k.aliases j}).aliases := by
  unfold loadEffect loadedEffect
  dsimp only
  split
  · rfl
  · exact Knowledge.describe_aliases

theorem loadEffect_defs {pointer : Value} {q : Id} (hq : q ≠ v.idOf (.inst i)) :
    k.defs q ⊆ (v.loadEffect i k pointer).defs q := by
  unfold loadEffect loadedEffect
  dsimp only
  split
  · exact subset_rfl
  · rw [Knowledge.describe_defs hq]
    exact subset_rfl

theorem loadEffect_pointsTo {pointer : Value} {q r : Id} (hq : q ≠ v.idOf (.inst i))
    (hr : r = unknown → q ≠ v.idOf pointer) (h : r ∈ k.pointsTo q) :
    r ∈ (v.loadEffect i k pointer).pointsTo q := by
  refine .inl ⟨?_, fun ⟨hptr, hu⟩ => hr hu hptr⟩
  unfold loadedEffect
  dsimp only
  split
  · exact h
  · rwa [Knowledge.describe_pointsTo hq]

/-- What is known of a value that the cell may hold is known of the result. -/
theorem loadEffect_loaded {pointer : Value} {j q : Id} (hj : j ∈ k.pointsTo (v.idOf pointer))
    (hu : j ≠ unknown) (hclass : v.cls.classOfId j = v.cls.classOf (.inst i)) :
    (v.cls.classOf (.inst i) = .data → q ∈ k.defs j →
      q ∈ (v.loadEffect i k pointer).defs (v.idOf (.inst i))) ∧
    (v.cls.classOf (.inst i) = .pointer → q ≠ unknown → q ∈ k.pointsTo j →
      q ∈ (v.loadEffect i k pointer).pointsTo (v.idOf (.inst i))) := by
  unfold loadEffect loadedEffect
  dsimp only
  constructor
  · intro hk hq
    rw [hk] at hclass ⊢
    exact Knowledge.mem_describe_data.2 (.inr ⟨j, hj, hu, hclass, hq⟩)
  · intro hk hne hq
    rw [hk] at hclass ⊢
    exact .inl ⟨Knowledge.mem_describe_pointer.2 (.inr ⟨j, hj, hu, hclass, hq⟩),
      fun ⟨_, h⟩ => hne h⟩

theorem loadEffect_defs_self {pointer : Value} (hk : v.cls.classOf (.inst i) = .data) :
    (v.loadEffect i k pointer).defs (v.idOf (.inst i)) =
      v.loaded k .data (k.pointsTo (v.idOf pointer)) := by
  unfold loadEffect loadedEffect
  dsimp only
  rw [hk]
  exact Set.ext fun m => Knowledge.mem_describe_data

/-- What has been loaded from a cell is in it. -/
theorem idOf_mem_loadEffect_pointsTo (hs : k.AliasWF v.cls) {pointer : Value}
    (h : v.cls.classOf pointer = .pointer) :
    v.idOf (.inst i) ∈ (v.loadEffect i k pointer).pointsTo (v.idOf pointer) :=
  .inr ⟨hs.refl (by rw [idOf, Classification.classOfId_idOf (by simp [h]), h]; decide), rfl⟩

/-! ## Opaque calls -/

section Calls

variable {args : List Value} {x m : Id}

/-- What is not known of a handle after a call is not known of it with the result either. -/
theorem opaqueEffect_defs (h : unknown ∈ (v.touch i k args).defs x) :
    unknown ∈ (v.opaqueEffect i k args).defs x := by
  unfold opaqueEffect
  dsimp only
  split
  · exact h
  · next hc =>
    by_cases hx : x = v.idOf (.inst i)
    · cases hk : v.cls.classOf (.inst i) with
      | data => exact .inl ⟨hx, .inl rfl⟩
      | pointer => exact h
      | irrelevant => exact absurd hk hc
    · rw [Knowledge.describe_defs hx]
      exact h

theorem opaqueEffect_pointsTo (hx : x ≠ v.idOf (.inst i)) (h : m ∈ (v.touch i k args).pointsTo x) :
    m ∈ (v.opaqueEffect i k args).pointsTo x := by
  unfold opaqueEffect
  dsimp only
  split
  · exact h
  · rw [Knowledge.describe_pointsTo hx]
    exact h

/-- A handle that may be set by a call is one of which nothing is known. -/
theorem unknown_mem_of_modified {j : Id} (hj : j ∈ v.modified i k args) (hx : x ∈ k.aliases j) :
    unknown ∈ (v.opaqueEffect i k args).defs x :=
  opaqueEffect_defs (.inl ⟨rfl, j, hj, hx⟩)

theorem unknown_mem_opaqueEffect (hs : k.AliasWF v.cls) (h : unknown ∈ k.defs x) :
    unknown ∈ (v.opaqueEffect i k args).defs x := by
  by_cases hx : x ∈ v.modified i k args
  · refine unknown_mem_of_modified hx (hs.refl ?_)
    rw [classOfId_of_mem_modified hx]
    decide
  · exact opaqueEffect_defs (.inr ⟨hx, h⟩)

/-- A cell that a call gets and may fill holds all the handles that the call gets. -/
theorem mem_opaqueEffect_pointsTo (hs : k.AliasWF v.cls) {pointer : Value} (hp : pointer ∈ args)
    (hc : v.cls.classOf pointer = .pointer) (hmod : v.mayModify i (v.idOf pointer) = true)
    (hm : m ∈ v.dataSet k args) :
    m ∈ (v.opaqueEffect i k args).pointsTo (v.idOf pointer) := by
  have hmem : v.idOf pointer ∈ v.pointerSet args := ⟨pointer, hp, hc, rfl⟩
  have hself : v.idOf pointer ∈ k.aliases (v.idOf pointer) :=
    hs.refl (by rw [classOfId_of_mem_pointerSet hmem]; decide)
  have htouch : m ∈ (v.touch i k args).pointsTo (v.idOf pointer) :=
    .inr ⟨⟨_, hmem, hmod, hself⟩, hm⟩
  by_cases hx : v.idOf pointer = v.idOf (.inst i)
  · -- The call defines the cell itself, as one that holds what its arguments may hold.
    have hi : pointer = .inst i := by
      by_contra hne
      exact idOf_ne (by simp [hc]) hne hx
    subst hi
    unfold opaqueEffect
    dsimp only
    rw [hc]
    exact Knowledge.mem_describe_pointer.2 (.inr ⟨_, ⟨idOf_ne_unknown v _, hmem⟩, htouch⟩)
  · exact opaqueEffect_pointsTo hx htouch

end Calls

/-! ## Any instruction -/

variable {x q m : Id}

/-- `unknown` stays among the definitions of a handle that is neither set nor defined anew; an
opaque call defines nothing but unknown handles. -/
theorem unknown_mem_effect_defs (hs : k.AliasWF v.cls) (h : unknown ∈ k.defs x)
    (hset : ∀ handle, v.rule i = .set handle → x ≠ v.idOf handle)
    (hdef : (∃ args, v.rule i = .call args) ∨ x ≠ v.idOf (.inst i)) :
    unknown ∈ (v.effect i k).defs x := by
  have hx (hr : ∀ args, v.rule i ≠ .call args) : x ≠ v.idOf (.inst i) :=
    hdef.resolve_left fun ⟨args, h⟩ => hr args h
  have hmerge (sources : Set (Id × Knowledge)) (hx : x ≠ v.idOf (.inst i)) :
      unknown ∈ (v.mergeEffect i k sources).defs x := by
    unfold mergeEffect
    split
    · exact h
    · rw [Knowledge.describe_defs hx]
      exact h
  unfold effect
  cases hr : v.rule i with
  | keep | cell | store => exact h
  | phi | select => exact hmerge _ (hx (by simp [hr]))
  | load => exact loadEffect_defs (hx (by simp [hr])) h
  | handle => exact .inr ⟨hx (by simp [hr]), h⟩
  | set handle => exact .inr ⟨hset handle hr, h⟩
  | call => exact unknown_mem_opaqueEffect hs h

/-- A cell that is neither filled nor made anew holds what it has held; a load from it takes away
that something in it is not tracked. -/
theorem mem_effect_pointsTo (h : m ∈ k.pointsTo q) (hdef : q ≠ v.idOf (.inst i))
    (hstore : ∀ value pointer, v.rule i ≠ .store value pointer)
    (hload : ∀ pointer, v.rule i = .load pointer → m = unknown → q ≠ v.idOf pointer) :
    m ∈ (v.effect i k).pointsTo q := by
  have hmerge (sources : Set (Id × Knowledge)) :
      m ∈ (v.mergeEffect i k sources).pointsTo q := by
    unfold mergeEffect
    split
    · exact h
    · rw [Knowledge.describe_pointsTo hdef]
      exact h
  unfold effect
  cases hr : v.rule i with
  | keep | set | handle => exact h
  | phi | select => exact hmerge _
  | cell => exact .inr ⟨hdef, h⟩
  | store value pointer => exact absurd hr (hstore value pointer)
  | load pointer => exact loadEffect_pointsTo hdef (hload pointer hr) h
  | call args => exact opaqueEffect_pointsTo hdef (.inl h)

end View

end BoxFlow
