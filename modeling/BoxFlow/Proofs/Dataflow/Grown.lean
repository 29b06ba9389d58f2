import BoxFlow.Proofs.Dataflow.Aliases
import BoxFlow.Proofs.Dataflow.Bounds
import BoxFlow.Proofs.IR.Verify

/-!
# Numbers given later

The arena grows while a function is analysed. What is numbered later makes no difference to the
effect of an instruction (`View.effect_congr`): nothing is known about it.
-/

namespace BoxFlow

namespace View

variable {v v' : View} {i : InstId} {k : Knowledge} {x : Value} {id : Id}
  {B : List BlockId}

/-- Another view of the same program with, perhaps, more numbers, in which the same is known at the
ends of the given blocks. -/
structure Grown (B : List BlockId) (v v' : View) : Prop where
  program : v'.program = v.program
  oracle : v'.oracle = v.oracle
  cls : v'.cls = { v.cls with arena := v'.cls.arena }
  arena : v.cls.arena.values <+: v'.cls.arena.values
  exits : ∀ b ∈ B, v'.exits[b]?.map Facts.knowledge = v.exits[b]?.map Facts.knowledge

namespace Grown

variable {args : List Value}

theorem classOfId (h : Grown B v v') (x : Id) : v'.cls.classOfId x = v.cls.classOfId x := by
  rw [h.cls]; rfl

theorem classOf (h : Grown B v v') (hc : v.cls.Numbered) (x : Value) :
    v'.cls.classOf x = v.cls.classOf x := by
  unfold Classification.classOf
  cases hx : v.cls.arena.find x with
  | some id => rw [Arena.find_of_prefix h.arena hx]; exact h.classOfId id
  | none =>
    cases hx' : v'.cls.arena.find x with
    | none => rfl
    | some id =>
      by_contra hne
      have := (hc id (by rwa [← h.classOfId id])).2
      exact absurd (Arena.size_le_of_find h.arena hx hx') (Int.not_le.2 this)

theorem idOf (h : Grown B v v') (hx : v.cls.arena.find x = some (v.idOf x)) :
    v'.idOf x = v.idOf x := by
  rw [View.idOf, Arena.idOf, Arena.find_of_prefix h.arena hx, Option.getD_some]

theorem idOf_classified (h : Grown B v v') (hx : v.cls.classOf x ≠ .irrelevant) :
    v'.idOf x = v.idOf x :=
  h.idOf (Classification.find_of_classOf hx)

theorem rule (h : Grown B v v') (hc : v.cls.Numbered) : v'.rule i = v.rule i := by
  have hkind : v'.cls.kindOf i = v.cls.kindOf i := by rw [h.cls]; rfl
  simp only [View.rule, h.program, h.classOf hc, hkind]

theorem mayModify (h : Grown B v v') (hid : id < v.cls.arena.size) :
    v'.mayModify i id = v.mayModify i id := by
  simp only [View.mayModify, Arena.value?_of_prefix h.arena hid, h.oracle, h.program]

theorem pointerSet (h : Grown B v v') (hc : v.cls.Numbered) :
    v'.pointerSet args = v.pointerSet args := by
  ext m
  refine exists_congr fun a => and_congr_right fun _ => ?_
  rw [h.classOf hc]
  refine and_congr_right fun ha => ?_
  rw [h.idOf_classified (by simp [ha])]

theorem reachableData (h : Grown B v v') (x : Id) :
    k.reachableData v'.cls x = k.reachableData v.cls x := by
  simp only [Knowledge.reachableData, Knowledge.Reaches, h.classOfId]

theorem dataSet (h : Grown B v v') (hc : v.cls.Numbered) :
    v'.dataSet k args = v.dataSet k args := by
  ext m
  refine exists_congr fun a => and_congr_right fun _ => ?_
  rw [h.classOf hc, h.reachableData]
  refine or_congr (and_congr_right fun ha => ?_) (and_congr_right fun ha => ?_)
  · rw [h.idOf_classified (by simp [ha])]
  · rw [h.idOf_classified (by simp [ha])]

theorem modified (h : Grown B v v') (hc : v.cls.Numbered) :
    v'.modified i k args = v.modified i k args := by
  ext j
  simp only [View.modified, h.dataSet hc, Set.mem_ofPred_eq]
  refine and_congr_right fun hj => and_congr_right fun hu => ?_
  rw [h.mayModify (hc j (by simp [classOfId_of_mem_dataSet hj hu])).2]

theorem touch (h : Grown B v v') (hc : v.cls.Numbered) :
    v'.touch i k args = v.touch i k args := by
  simp only [View.touch, h.modified hc, h.pointerSet hc, h.dataSet hc]
  refine Knowledge.ext rfl rfl (funext fun x => Set.ext fun m => or_congr_right (and_congr_left
    fun _ => exists_congr fun p => and_congr_right fun hp => ?_))
  rw [h.mayModify (hc p (by simp [classOfId_of_mem_pointerSet hp])).2]

/-- What is known about the sources of a merge does not come from values numbered later. -/
theorem mergeEffect (h : Grown B v v') (hc : v.cls.Numbered)
    {sources sources' : Set (Id × Knowledge)}
    (hs : ∀ P : Id × Knowledge → Prop,
      (∀ q ∈ sources', P q → q.1 ∈ ids v.cls.arena.size) →
      ((∃ q ∈ sources', P q) ↔ ∃ q ∈ sources, P q))
    (hw : ∀ q ∈ sources', q.2.Within (ids v.cls.arena.size)) :
    v'.mergeEffect i k sources' = v.mergeEffect i k sources := by
  unfold View.mergeEffect
  rw [h.classOf hc]
  split
  · rfl
  · next hne =>
    simp only [h.idOf_classified hne]
    congr 1
    · congr 1
      ext m
      exact hs (fun q => m ∈ q.2.aliases q.1) fun q hq hm => ((hw q hq).aliases hm).1
    · ext m
      exact hs (fun q => m ∈ q.2.tableOf _ q.1) fun q hq hm => ((hw q hq).tableOf hm).1

theorem find_of_mem_ids (h : Grown B v v') {j : Id} (hfind : v'.cls.arena.find x = some j)
    (hj : j ∈ ids v.cls.arena.size) : v.cls.arena.find x = some j := by
  cases hn : v.cls.arena.find x with
  | some n => rw [← hfind, Arena.find_of_prefix h.arena hn]
  | none =>
    have hle := Arena.size_le_of_find h.arena hn hfind
    have h0 := (Arena.find_bounds hfind).1
    rcases hj with rfl | ⟨_, hlt⟩
    · exact absurd h0 (by decide)
    · exact absurd hlt (Int.not_lt.2 hle)

theorem phiSources (h : Grown B v v') {incoming : List (Value × BlockId)}
    (hbs : ∀ x ∈ incoming, x.2 ∈ B) {P : Id × Knowledge → Prop}
    (hP : ∀ q ∈ v'.phiSources incoming, P q → q.1 ∈ ids v.cls.arena.size) :
    (∃ q ∈ v'.phiSources incoming, P q) ↔ ∃ q ∈ v.phiSources incoming, P q := by
  constructor
  · rintro ⟨⟨j, l⟩, hq, hPq⟩
    have hj := hP _ hq hPq
    obtain ⟨x, b, e', hx, hfind, he', rfl⟩ := hq
    have hexit := h.exits b (hbs _ hx)
    rw [he', Option.map_some] at hexit
    obtain ⟨e, he, heq⟩ := Option.map_eq_some_iff.1 hexit.symm
    exact ⟨_, ⟨x, b, e, hx, h.find_of_mem_ids hfind hj, he, heq.symm⟩, hPq⟩
  · rintro ⟨⟨j, l⟩, ⟨x, b, e, hx, hfind, he, rfl⟩, hPq⟩
    have hexit := h.exits b (hbs _ hx)
    rw [he, Option.map_some] at hexit
    obtain ⟨e', he', heq⟩ := Option.map_eq_some_iff.1 hexit
    exact ⟨_, ⟨x, b, e', hx, Arena.find_of_prefix h.arena hfind, he', heq.symm⟩, hPq⟩

theorem selectSources (h : Grown B v v') {t e : Value} {P : Id × Knowledge → Prop}
    (hP : ∀ q ∈ v'.selectSources k t e, P q → q.1 ∈ ids v.cls.arena.size) :
    (∃ q ∈ v'.selectSources k t e, P q) ↔ ∃ q ∈ v.selectSources k t e, P q := by
  constructor
  · rintro ⟨⟨j, l⟩, hq, hPq⟩
    have hj := hP _ hq hPq
    exact ⟨_, ⟨hq.1.imp (h.find_of_mem_ids · hj) (h.find_of_mem_ids · hj), hq.2⟩, hPq⟩
  · rintro ⟨⟨j, l⟩, hq, hPq⟩
    exact ⟨_, ⟨hq.1.imp (Arena.find_of_prefix h.arena) (Arena.find_of_prefix h.arena), hq.2⟩, hPq⟩

theorem loadEffect (h : Grown B v v') (hc : v.cls.Numbered) {pointer : Value}
    (hp : v.cls.classOf pointer = .pointer)
    (hi : v.cls.arena.find (.inst i) = some (v.idOf (.inst i))) :
    v'.loadEffect i k pointer = v.loadEffect i k pointer := by
  have hloaded (c : ValueClass) (ms : Set Id) : v'.loaded k c ms = v.loaded k c ms := by
    simp only [View.loaded, h.classOfId]
  have hptr : v'.idOf pointer = v.idOf pointer := h.idOf_classified (by simp [hp])
  simp only [View.loadEffect, View.loadedEffect, hptr, h.idOf hi, h.classOf hc, hloaded]

theorem opaqueEffect (h : Grown B v v') (hc : v.cls.Numbered) :
    v'.opaqueEffect i k args = v.opaqueEffect i k args := by
  have hsources (c : ValueClass) : v'.resultSources k c args = v.resultSources k c args := by
    cases c <;> simp only [View.resultSources, h.dataSet hc, h.pointerSet hc]
  unfold View.opaqueEffect
  simp only [h.touch hc, h.classOf hc, hsources]
  split
  · rfl
  · next hne => rw [h.idOf_classified hne]

theorem refl (v : View) : Grown B v v := ⟨rfl, rfl, rfl, List.prefix_rfl, fun _ _ => rfl⟩

theorem trans {v'' : View} (h : Grown B v v') (h' : Grown B v' v'') : Grown B v v'' :=
  ⟨h'.program.trans h.program, h'.oracle.trans h.oracle, by rw [h'.cls, h.cls],
    h.arena.trans h'.arena, fun b hb => (h'.exits b hb).trans (h.exits b hb)⟩

theorem mono (h : Grown B v v') {B' : List BlockId} (hbs : B' ⊆ B) : Grown B' v v' :=
  ⟨h.program, h.oracle, h.cls, h.arena, fun b hb => h.exits b (hbs hb)⟩

theorem reserved (h : Grown B v v') (hc : v.cls.Numbered) (hv : v.Reserved i) : v'.Reserved i := by
  intro x hx
  have hx : x ∈ v.reserved i := by rwa [View.reserved, h.rule hc] at hx
  rw [h.idOf (hv x hx)]
  exact Arena.find_of_prefix h.arena (hv x hx)

end Grown

/-- The effect of an instruction does not depend on numbers given later. -/
theorem effect_congr (h : Grown (v.program.inst i).op.sources v v') (hc : v.cls.Numbered)
    (hv : v.Reserved i) (he : v.ExitsWithin v.cls.arena.size)
    (hk : k.Within (ids v.cls.arena.size)) : v'.effect i k = v.effect i k := by
  have hfits := rule_fits (v := v) (i := i)
  unfold effect
  rw [h.rule hc]
  cases hr : v.rule i with
  | keep => rfl
  | phi incoming =>
    rw [hr] at hfits
    have hbs : ∀ x ∈ incoming, x.2 ∈ (v.program.inst i).op.sources := by
      intro x hx
      rw [show (v.program.inst i).op = .phi incoming from hfits]
      exact List.mem_map_of_mem hx
    refine h.mergeEffect hc (fun P hP => h.phiSources hbs hP) ?_
    rintro ⟨j, _⟩ ⟨x, b, e', hx, _, he', rfl⟩
    have hexit := h.exits b (hbs _ hx)
    rw [he', Option.map_some] at hexit
    obtain ⟨e, hb, heq⟩ := Option.map_eq_some_iff.1 hexit.symm
    exact heq ▸ he b e hb
  | select t e =>
    refine h.mergeEffect hc (fun P hP => h.selectSources hP) ?_
    rintro ⟨j, _⟩ ⟨_, rfl⟩
    exact hk
  | cell =>
    rw [hr] at hfits
    rw [h.idOf_classified (by simp [hfits.2])]
  | store value pointer =>
    rw [hr] at hfits
    dsimp only
    rw [h.idOf_classified (x := pointer) (by simp [hfits.2]),
      h.idOf (hv value (by simp [reserved, hr]))]
  | load pointer =>
    rw [hr] at hfits
    exact h.loadEffect hc hfits.2 (hv _ (by simp [reserved, hr]))
  | handle => rw [h.idOf (hv (.inst i) (by simp [reserved, hr]))]
  | set handle =>
    rw [hr] at hfits
    dsimp only
    rw [h.idOf_classified (x := handle) (by simp [hfits.2.2]),
      h.idOf (hv (.inst i) (by simp [reserved, hr]))]
  | call args => exact h.opaqueEffect hc

/-! ## Several instructions -/

/-- What is known after instructions one after another. -/
def effects (v : View) (is : List InstId) (k : Knowledge) : Knowledge :=
  is.foldl (fun k i => v.effect i k) k

variable {is : List InstId}

theorem effects_cons : v.effects (i :: is) k = v.effects is (v.effect i k) := rfl

theorem effects_append {js : List InstId} :
    v.effects (is ++ js) k = v.effects js (v.effects is k) :=
  List.foldl_append

theorem effects_within (hv : ∀ i ∈ is, v.Reserved i) (he : v.ExitsWithin v.cls.arena.size)
    (hk : k.Within (ids v.cls.arena.size)) : (v.effects is k).Within (ids v.cls.arena.size) := by
  induction is generalizing k with
  | nil => exact hk
  | cons i is ih =>
    exact ih (fun j hj => hv j (List.mem_cons_of_mem _ hj))
      (effect_within (hv i List.mem_cons_self) he hk)

theorem knowledge_foldl_transfer {s : Facts} (hs : s.knowledge.AliasWF v.cls) :
    (is.foldl (fun s i => v.transfer i s) s).knowledge = v.effects is s.knowledge := by
  induction is generalizing s with
  | nil => rfl
  | cons i is ih =>
    rw [List.foldl_cons, ih (transfer_aliasWF hs), knowledge_transfer hs]
    rfl

theorem effects_congr (h : Grown B v v') (hc : v.cls.Numbered) (he : v.ExitsWithin v.cls.arena.size)
    (hbs : ∀ i ∈ is, (v.program.inst i).op.sources ⊆ B) (hv : ∀ i ∈ is, v.Reserved i)
    (hk : k.Within (ids v.cls.arena.size)) : v'.effects is k = v.effects is k := by
  induction is generalizing k with
  | nil => rfl
  | cons i is ih =>
    have hi := hv i List.mem_cons_self
    rw [effects_cons, effect_congr (h.mono (hbs i List.mem_cons_self)) hc hi he hk]
    exact ih (fun j hj => hbs j (List.mem_cons_of_mem _ hj))
      (fun j hj => hv j (List.mem_cons_of_mem _ hj)) (effect_within hi he hk)

end View

end BoxFlow
