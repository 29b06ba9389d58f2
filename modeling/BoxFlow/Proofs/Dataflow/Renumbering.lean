import Mathlib.Data.Set.Countable
import Mathlib.Logic.Denumerable
import BoxFlow.Proofs.Dataflow.Grown

/-!
# Other numbers

Which numbers stand for which values does not matter: the effect of an instruction commutes with a
permutation of the ids (`View.effect_renumber`). The ids of what sets handles are permuted on their
own, so one instruction may set a handle in the place of another.
-/

namespace BoxFlow

open Relation (ReflTransGen)

/-- Other ids for the values, and for what sets handles; `unknown` stays. -/
structure Renumbering where
  value : Equiv.Perm Id
  setter : Equiv.Perm Id
  value_unknown : value unknown = unknown
  setter_unknown : setter unknown = unknown

namespace Renumbering

variable (r : Renumbering)

/-- The ids of what describes values of a class. -/
def member : ValueClass → Equiv.Perm Id
  | .data => r.setter
  | _ => r.value

theorem member_unknown (c : ValueClass) : r.member c unknown = unknown := by
  cases c with
  | data => exact r.setter_unknown
  | pointer | irrelevant => exact r.value_unknown

variable {r} {x m : Id}

theorem value_symm_eq_unknown : r.value.symm m = unknown ↔ m = unknown := by
  rw [Equiv.symm_apply_eq, r.value_unknown]

theorem setter_symm_eq_unknown : r.setter.symm m = unknown ↔ m = unknown := by
  rw [Equiv.symm_apply_eq, r.setter_unknown]

theorem member_symm_eq_unknown {c : ValueClass} : (r.member c).symm m = unknown ↔ m = unknown := by
  rw [Equiv.symm_apply_eq, r.member_unknown]

theorem exists_value_symm {P : Id → Prop} : (∃ x, P (r.value.symm x)) ↔ ∃ x, P x :=
  r.value.symm.surjective.exists.symm

/-! ## Finding other numbers -/

/-- A permutation that takes finitely many ids where they should go. -/
theorem exists_perm {s : Set Id} (hs : s.Finite) {g : Id → Id} (hg : Set.InjOn g s) :
    ∃ e : Equiv.Perm Id, Set.EqOn e g s := by
  have : Infinite {x // x ∉ s} := hs.infinite_compl.to_subtype
  have : Infinite {x // x ∉ g '' s} := (hs.image g).infinite_compl.to_subtype
  obtain ⟨rest⟩ := nonempty_equiv_of_countable (α := {x // x ∉ s}) (β := {x // x ∉ g '' s})
  classical
  let inside := Equiv.Set.imageOfInjOn g s hg
  refine ⟨(Equiv.sumCompl (· ∈ s)).symm.trans
    ((inside.sumCongr rest).trans (Equiv.sumCompl (· ∈ g '' s))), fun x hx => ?_⟩
  simp only [Equiv.trans_apply, Equiv.sumCompl_symm_apply_of_pos hx]
  rfl

/-- The same for ids that are given by what they are the ids of, with `unknown` in its place. -/
theorem exists_perm_of_forall {ι : Type} {xs : List ι} (g g' : ι → Id)
    (h : ∀ x ∈ xs, ∀ y ∈ xs, g x = g y ↔ g' x = g' y) (hg : ∀ x ∈ xs, 0 ≤ g x)
    (hg' : ∀ x ∈ xs, 0 ≤ g' x) :
    ∃ e : Equiv.Perm Id, e unknown = unknown ∧ ∀ x ∈ xs, e (g x) = g' x := by
  have hfactor : (fun x : {x // x ∈ xs} => g' x).FactorsThrough fun x => g x :=
    fun x y heq => (h x x.2 y y.2).1 heq
  set image := Function.extend (fun x : {x // x ∈ xs} => g x) (fun x => g' x) id
  have himage {x : ι} (hx : x ∈ xs) : image (g x) = g' x := hfactor.extend_apply id ⟨x, hx⟩
  have hunknown : image unknown = unknown :=
    Function.extend_apply' _ _ _ fun ⟨x, heq⟩ => absurd (heq ▸ hg x x.2) (by decide)
  have hne {x : ι} (hx : x ∈ xs) : image (g x) ≠ image unknown := by
    rw [himage hx, hunknown]
    exact fun heq => absurd (heq ▸ hg' x hx) (by decide)
  have hinj : Set.InjOn image (insert unknown (g '' {x | x ∈ xs})) := by
    rintro _ (rfl | ⟨x, hx, rfl⟩) _ (rfl | ⟨y, hy, rfl⟩) heq
    · rfl
    · exact absurd heq.symm (hne hy)
    · exact absurd heq (hne hx)
    · rw [himage hx, himage hy] at heq
      exact (h x hx y hy).2 heq
  obtain ⟨e, he⟩ := exists_perm (((List.finite_toSet xs).image g).insert unknown) hinj
  exact ⟨e, (he (.inl rfl)).trans hunknown, fun x hx => (he (.inr ⟨x, hx, rfl⟩)).trans (himage hx)⟩

/-- Values and what sets handles can be numbered as two arenas say. -/
theorem exists_renumbering (A A' : Arena) {xs : List Value} (σ : Value → Value)
    {is : List InstId} (w : InstId → InstId) (hxs : ∀ x ∈ xs, x ∈ A.values ∧ σ x ∈ A'.values)
    (hσ : ∀ x ∈ xs, ∀ y ∈ xs, σ x = σ y → x = y)
    (his : ∀ i ∈ is, .inst i ∈ A.values ∧ .inst (w i) ∈ A'.values)
    (hw : ∀ i ∈ is, ∀ j ∈ is, w i = w j → i = j) :
    ∃ r : Renumbering, (∀ x ∈ xs, A'.find (σ x) = some (r.value (A.idOf x))) ∧
      ∀ i ∈ is, A'.idOf (.inst (w i)) = r.setter (A.idOf (.inst i)) := by
  have hfind {B : Arena} {x : Value} (hx : x ∈ B.values) : B.find x = some (B.idOf x) := by
    obtain ⟨id, hid⟩ := Option.ne_none_iff_exists'.1 (mt Arena.find_eq_none_iff.1 (not_not.2 hx))
    rw [hid, Arena.idOf_of_find hid]
  have hpos {B : Arena} {x : Value} (hx : x ∈ B.values) : 0 ≤ B.idOf x :=
    (Arena.find_bounds (hfind hx)).1
  have hinj {B : Arena} {x y : Value} (hx : x ∈ B.values) (hy : y ∈ B.values) :
      B.idOf x = B.idOf y ↔ x = y := by
    refine ⟨fun heq => ?_, congrArg _⟩
    have hx := (Arena.find_eq_some_iff.1 (hfind hx)).2
    rw [heq, (Arena.find_eq_some_iff.1 (hfind hy)).2] at hx
    exact (Option.some.inj hx).symm
  obtain ⟨value, hunknown, hvalue⟩ := exists_perm_of_forall A.idOf (fun x => A'.idOf (σ x))
    (fun x hx y hy => by
      rw [hinj (hxs x hx).1 (hxs y hy).1, hinj (hxs x hx).2 (hxs y hy).2]
      exact ⟨congrArg σ, hσ x hx y hy⟩)
    (fun x hx => hpos (hxs x hx).1) fun x hx => hpos (hxs x hx).2
  obtain ⟨setter, hunknown', hsetter⟩ := exists_perm_of_forall
    (fun i => A.idOf (.inst i)) (fun i => A'.idOf (.inst (w i)))
    (fun i hi j hj => by
      rw [hinj (his i hi).1 (his j hj).1, hinj (his i hi).2 (his j hj).2, Value.inst.injEq,
        Value.inst.injEq]
      exact ⟨congrArg w, hw i hi j hj⟩)
    (fun i hi => hpos (his i hi).1) fun i hi => hpos (his i hi).2
  refine ⟨⟨value, setter, hunknown, hunknown'⟩, fun x hx => ?_, fun i hi => (hsetter i hi).symm⟩
  exact (hfind (hxs x hx).2).trans (congrArg some (hvalue x hx).symm)

end Renumbering

namespace Knowledge

variable {k l : Knowledge} {r : Renumbering} {c d : Classification} {x m id : Id}

/-- The same with other ids. -/
def renumber (r : Renumbering) (k : Knowledge) : Knowledge where
  defs x := {m | r.setter.symm m ∈ k.defs (r.value.symm x)}
  aliases x := {m | r.value.symm m ∈ k.aliases (r.value.symm x)}
  pointsTo x := {m | r.value.symm m ∈ k.pointsTo (r.value.symm x)}

@[simp] theorem mem_renumber_defs :
    m ∈ (k.renumber r).defs x ↔ r.setter.symm m ∈ k.defs (r.value.symm x) := .rfl

@[simp] theorem mem_renumber_aliases :
    m ∈ (k.renumber r).aliases x ↔ r.value.symm m ∈ k.aliases (r.value.symm x) := .rfl

@[simp] theorem mem_renumber_pointsTo :
    m ∈ (k.renumber r).pointsTo x ↔ r.value.symm m ∈ k.pointsTo (r.value.symm x) := .rfl

theorem mem_renumber_tableOf {c : ValueClass} : m ∈ (k.renumber r).tableOf c x ↔
    (r.member c).symm m ∈ k.tableOf c (r.value.symm x) := by
  cases c <;> exact .rfl

/-- Nothing is lost. -/
theorem renumber_inj : k.renumber r = l.renumber r ↔ k = l := by
  refine ⟨fun h => ?_, congrArg _⟩
  ext x m
  · simpa using Set.ext_iff.1 (congrFun (congrArg defs h) (r.value x)) (r.setter m)
  · simpa using Set.ext_iff.1 (congrFun (congrArg aliases h) (r.value x)) (r.value m)
  · simpa using Set.ext_iff.1 (congrFun (congrArg pointsTo h) (r.value x)) (r.value m)

/-! ## The operations -/

theorem renumber_relink (id : Id) (ls : Set Id) : (k.relink id ls).renumber r =
    (k.renumber r).relink (r.value id) {m | r.value.symm m ∈ ls} := by
  ext x m
  · exact .rfl
  · simp [relink, Equiv.symm_apply_eq]
  · exact .rfl

theorem renumber_describe (id : Id) (c : ValueClass) (ms : Set Id) :
    (k.describe id c ms).renumber r =
      (k.renumber r).describe (r.value id) c {m | (r.member c).symm m ∈ ms} := by
  cases c with
  | data =>
    ext x m
    · simp [describe, Renumbering.member, Equiv.symm_apply_eq]
    · exact .rfl
    · exact .rfl
  | pointer | irrelevant =>
    ext x m
    · exact .rfl
    · exact .rfl
    · simp [describe, Renumbering.member, Equiv.symm_apply_eq]

theorem renumber_define (id d : Id) :
    (k.define id d).renumber r = (k.renumber r).define (r.value id) (r.setter d) := by
  ext x m
  · simp [define, Equiv.symm_apply_eq]
  · exact .rfl
  · exact .rfl

theorem renumber_overwrite (id target : Id) :
    (k.overwrite id target).renumber r =
      (k.renumber r).overwrite (r.value id) (r.value target) := by
  ext x m
  · exact .rfl
  · exact .rfl
  · simp [overwrite, Equiv.symm_apply_eq]

theorem renumber_sUnion (S : Set Knowledge) :
    (sUnion S).renumber r = sUnion (renumber r '' S) := by
  ext x m <;> simp [sUnion]

theorem reaches_renumber (hc : ∀ x, d.classOfId (r.value x) = c.classOfId x) {p q : Id} :
    (k.renumber r).Reaches d (r.value p) q ↔ k.Reaches c p (r.value.symm q) := by
  have hclass (y : Id) : d.classOfId y = c.classOfId (r.value.symm y) := by
    rw [← hc, Equiv.apply_symm_apply]
  constructor
  · intro h
    have := ReflTransGen.lift (p := fun p q =>
      q ∈ k.pointsTo p ∧ q ≠ unknown ∧ c.classOfId q = .pointer) r.value.symm (fun _ _ h =>
      ⟨h.1, mt Renumbering.value_symm_eq_unknown.1 h.2.1, hclass _ ▸ h.2.2⟩) _ _ h
    rwa [Function.onFun_apply, Equiv.symm_apply_apply] at this
  · intro h
    have := ReflTransGen.lift
      (p := fun p q => q ∈ (k.renumber r).pointsTo p ∧ q ≠ unknown ∧ d.classOfId q = .pointer)
      r.value (fun _ _ h => ⟨by simpa using h.1,
        mt (Renumbering.value_symm_eq_unknown (r := r)).2 (by simpa using h.2.1),
        (hc _).trans h.2.2⟩) _ _ h
    rwa [Function.onFun_apply, Equiv.apply_symm_apply] at this

theorem mem_reachableData_renumber (hc : ∀ x, d.classOfId (r.value x) = c.classOfId x) {p : Id} :
    m ∈ (k.renumber r).reachableData d (r.value p) ↔
      r.value.symm m ∈ k.reachableData c p := by
  have hclass (y : Id) : d.classOfId y = c.classOfId (r.value.symm y) := by
    rw [← hc, Equiv.apply_symm_apply]
  simp only [reachableData, Set.mem_ofPred_eq, reaches_renumber hc, mem_renumber_pointsTo, hclass,
    Renumbering.value_symm_eq_unknown]
  exact Renumbering.exists_value_symm (r := r) (P := fun q => k.Reaches c p q ∧
    r.value.symm m ∈ k.pointsTo q ∧ (m = unknown ∨ c.classOfId (r.value.symm m) = .data))

end Knowledge

/-- The rule with other operands. -/
def Rule.map (σ : Value → Value) : Rule → Rule
  | .keep => .keep
  | .phi incoming => .phi (incoming.map fun (x, b) => (σ x, b))
  | .select t e => .select (σ t) (σ e)
  | .cell => .cell
  | .store value pointer => .store (σ value) (σ pointer)
  | .load pointer => .load (σ pointer)
  | .handle => .handle
  | .set x => .set (σ x)
  | .call args => .call (args.map σ)

namespace View

variable {r : Renumbering} {σ : Value → Value} {V : Set Value} {v v' : View} {i : InstId}
  {k : Knowledge} {x : Value} {args : List Value} {m : Id}

/-- `v'` sees by other numbers what `v` sees, the value `σ x` being in the place of `x`. -/
structure Renumbers (r : Renumbering) (σ : Value → Value) (V : Set Value) (v v' : View) :
    Prop where
  classOfId : ∀ x, v'.cls.classOfId (r.value x) = v.cls.classOfId x
  find : ∀ x ∈ V, v.cls.arena.find x = some (v.idOf x)
  find_image : ∀ x ∈ V, v'.cls.arena.find (σ x) = some (r.value (v.idOf x))
  exits : ∀ b : BlockId, v'.exits[b]?.map Facts.knowledge =
    v.exits[b]?.map fun e : Facts => e.knowledge.renumber r

/-- Instruction `i` stays, but for its operands. -/
structure Stays (r : Renumbering) (σ : Value → Value) (V : Set Value) (v v' : View) (i : InstId) :
    Prop where
  op : (v'.program.inst i).op = (v.program.inst i).op.map σ id
  kind : (v.program.inst i).op.isCall = true → v'.cls.kindOf i = v.cls.kindOf i
  mentioned : ∀ x ∈ v.program.mentioned i, x ∈ V
  self : σ (.inst i) = .inst i
  setter : v'.idOf (.inst i) = r.setter (v.idOf (.inst i))
  mayModify : v.cls.kindOf i = .opaqueCall → ∀ x, v.cls.classOfId x ≠ .irrelevant →
    v'.mayModify i (r.value x) = v.mayModify i x

namespace Renumbers

variable (h : Renumbers r σ V v v')
include h

theorem idOf (hx : x ∈ V) : v'.idOf (σ x) = r.value (v.idOf x) :=
  Arena.idOf_of_find (h.find_image x hx)

theorem classOf (hx : x ∈ V) : v'.cls.classOf (σ x) = v.cls.classOf x := by
  rw [Classification.classOf, Classification.classOf, h.find_image x hx, h.find x hx]
  exact h.classOfId _

theorem classOfId_symm (x : Id) : v'.cls.classOfId x = v.cls.classOfId (r.value.symm x) := by
  rw [← h.classOfId, Equiv.apply_symm_apply]

end Renumbers

/-! ## Rules -/

namespace Stays

variable (hi : Stays r σ V v v' i) (h : Renumbers r σ V v v')
include hi h

theorem idOf_self : v'.idOf (.inst i) = r.value (v.idOf (.inst i)) := by
  have := h.idOf (hi.mentioned _ List.mem_cons_self)
  rwa [hi.self] at this

theorem classOf_self : v'.cls.classOf (.inst i) = v.cls.classOf (.inst i) := by
  have := h.classOf (hi.mentioned _ List.mem_cons_self)
  rwa [hi.self] at this

omit h in
theorem mem_of_operand (hx : x ∈ (v.program.inst i).op.operands) : x ∈ V :=
  hi.mentioned x (List.mem_cons_of_mem _ hx)

theorem classOf_operand (hx : x ∈ (v.program.inst i).op.operands) :
    v'.cls.classOf (σ x) = v.cls.classOf x := h.classOf (hi.mem_of_operand hx)

theorem idOf_operand (hx : x ∈ (v.program.inst i).op.operands) :
    v'.idOf (σ x) = r.value (v.idOf x) := h.idOf (hi.mem_of_operand hx)

theorem rule_eq : v'.rule i = (v.rule i).map σ := by
  unfold rule
  rw [hi.op]
  cases hop : (v.program.inst i).op with
  | alloca ty =>
    simp only [Form.map, hi.classOf_self h]
    split <;> rfl
  | store value pointer =>
    simp only [Form.map, hi.classOf_operand h (x := pointer) (by simp [hop, Form.operands])]
    split <;> rfl
  | load pointer =>
    simp only [Form.map, hi.classOf_operand h (x := pointer) (by simp [hop, Form.operands])]
    split <;> rfl
  | call callee args =>
    simp only [Form.map, hi.kind (by rw [hop]; rfl)]
    cases args with
    | nil => cases v.cls.kindOf i with
      | operation o => cases o <;> rfl
      | _ => rfl
    | cons handle args =>
      have hclass := hi.classOf_operand h (x := handle) (by simp [hop, Form.operands])
      cases v.cls.kindOf i with
      | operation o =>
        cases o with
        | create => rfl
        | _ =>
          simp only [List.map_cons, hclass]
          split <;> rfl
      | opaqueCall => rfl
      | benign =>
        simp only [List.map_cons, hclass]
        split <;> rfl
  | _ => rfl

end Stays

/-! ## Merges -/

/-- A source by other numbers. -/
def renumberSource (r : Renumbering) (q : Id × Knowledge) : Id × Knowledge :=
  (r.value q.1, q.2.renumber r)

variable (h : Renumbers r σ V v v') (hi : Stays r σ V v v' i)
include h hi

theorem mergeEffect_renumber (sources : Set (Id × Knowledge)) :
    v'.mergeEffect i (k.renumber r) (renumberSource r '' sources) =
      (v.mergeEffect i k sources).renumber r := by
  unfold mergeEffect
  rw [hi.classOf_self h, hi.idOf_self h]
  split
  · rfl
  · rw [Knowledge.renumber_describe, Knowledge.renumber_relink]
    simp only [Set.exists_mem_image, renumberSource, Knowledge.mem_renumber_tableOf,
      Knowledge.mem_renumber_aliases, Equiv.symm_apply_apply, Set.mem_ofPred_eq]

omit hi in
theorem phiSources_renumber {incoming : List (Value × BlockId)}
    (hV : ∀ x ∈ incoming, x.1 ∈ V) :
    v'.phiSources (incoming.map fun (x, b) => (σ x, b)) =
      renumberSource r '' v.phiSources incoming := by
  ext ⟨j, l⟩
  constructor
  · rintro ⟨_, b, e', hmem, hfind, he', rfl⟩
    obtain ⟨⟨x, b⟩, hx, heq⟩ := List.mem_map.1 hmem
    cases heq
    rw [h.find_image x (hV _ hx)] at hfind
    have hexit := h.exits b
    rw [he'] at hexit
    obtain ⟨e, he, heq⟩ := Option.map_eq_some_iff.1 hexit.symm
    refine ⟨(v.idOf x, e.knowledge), ⟨x, b, e, hx, h.find x (hV _ hx), he, rfl⟩, ?_⟩
    rw [renumberSource, Option.some.inj hfind, heq]
  · rintro ⟨⟨j, l⟩, ⟨x, b, e, hx, hfind, he, rfl⟩, heq⟩
    have hexit := h.exits b
    rw [he, Option.map_some] at hexit
    obtain ⟨e', he', hknow⟩ := Option.map_eq_some_iff.1 hexit
    rw [← heq]
    refine ⟨σ x, b, e', List.mem_map_of_mem hx, ?_, he', hknow.symm⟩
    rw [h.find_image x (hV _ hx), renumberSource,
      show j = v.idOf x from Option.some.inj (hfind.symm.trans (h.find x (hV _ hx)))]

omit hi in
theorem selectSources_renumber {t e : Value} (ht : t ∈ V) (he : e ∈ V) :
    v'.selectSources (k.renumber r) (σ t) (σ e) =
      renumberSource r '' v.selectSources k t e := by
  have hfind {x : Value} (hx : x ∈ V) (j : Id) : v'.cls.arena.find (σ x) = some j ↔
      v.cls.arena.find x = some (r.value.symm j) := by
    rw [h.find_image x hx, h.find x hx, Option.some.injEq, Option.some.injEq,
      Equiv.eq_symm_apply]
  ext ⟨j, l⟩
  simp only [selectSources, hfind ht, hfind he, Set.mem_image, Set.mem_ofPred_eq, renumberSource]
  constructor
  · rintro ⟨hj, rfl⟩
    exact ⟨(r.value.symm j, k), ⟨hj, rfl⟩, by rw [Equiv.apply_symm_apply]⟩
  · rintro ⟨⟨j, l⟩, ⟨hj, rfl⟩, heq⟩
    cases heq
    rw [Equiv.symm_apply_apply]
    exact ⟨hj, rfl⟩

/-! ## Loads -/

omit hi in
theorem mem_loaded_renumber {c : ValueClass} {pointees : Set Id} :
    m ∈ v'.loaded (k.renumber r) c {m | r.value.symm m ∈ pointees} ↔
      (r.member c).symm m ∈ v.loaded k c pointees := by
  have hunknown : r.value.symm unknown = unknown := Renumbering.value_symm_eq_unknown.2 rfl
  simp only [loaded, Set.mem_ofPred_eq, hunknown, Renumbering.member_symm_eq_unknown,
    h.classOfId_symm, Knowledge.mem_renumber_tableOf]
  refine or_congr_right (Iff.trans ?_ r.value.symm.surjective.exists.symm)
  simp only [ne_eq, Renumbering.value_symm_eq_unknown]

theorem loadedEffect_renumber {pointer : Value}
    (hp : pointer ∈ (v.program.inst i).op.operands) :
    v'.loadedEffect i (k.renumber r) (σ pointer) = (v.loadedEffect i k pointer).renumber r := by
  have hlinks : {m | ∃ j ∈ (k.renumber r).pointsTo (r.value (v.idOf pointer)), j ≠ unknown ∧
      m ∈ (k.renumber r).aliases j} = {m | r.value.symm m ∈
        {m | ∃ j ∈ k.pointsTo (v.idOf pointer), j ≠ unknown ∧ m ∈ k.aliases j}} := by
    ext m
    simp only [Set.mem_ofPred_eq, Knowledge.mem_renumber_pointsTo, Knowledge.mem_renumber_aliases,
      Equiv.symm_apply_apply]
    refine Iff.trans ?_ r.value.symm.surjective.exists.symm
    simp only [ne_eq, Renumbering.value_symm_eq_unknown]
  have hloaded (c : ValueClass) : v'.loaded (k.renumber r) c
      ((k.renumber r).pointsTo (r.value (v.idOf pointer))) =
        {m | (r.member c).symm m ∈ v.loaded k c (k.pointsTo (v.idOf pointer))} := by
    ext m
    rw [Set.mem_ofPred_eq, ← mem_loaded_renumber h]
    simp only [Knowledge.renumber, Equiv.symm_apply_apply]
  unfold loadedEffect
  simp only [hi.classOf_self h, hi.idOf_self h, hi.idOf_operand h hp, hlinks, hloaded]
  rw [← Knowledge.renumber_relink]
  split
  · rfl
  · rw [Knowledge.renumber_describe]

theorem loadEffect_renumber {pointer : Value} (hp : pointer ∈ (v.program.inst i).op.operands) :
    v'.loadEffect i (k.renumber r) (σ pointer) = (v.loadEffect i k pointer).renumber r := by
  unfold loadEffect
  rw [loadedEffect_renumber h hi hp, hi.idOf_operand h hp, hi.idOf_self h]
  ext x m
  · exact .rfl
  · exact .rfl
  · simp [Equiv.symm_apply_eq, r.value_unknown]

/-! ## Calls of unknown effect -/

section Calls

variable (hargs : ∀ a ∈ args, a ∈ V)
include hargs

omit hi in
theorem mem_pointerSet_renumber :
    m ∈ v'.pointerSet (args.map σ) ↔ r.value.symm m ∈ v.pointerSet args := by
  simp only [pointerSet, Set.mem_ofPred_eq, List.mem_map, exists_exists_and_eq_and]
  refine exists_congr fun a => and_congr_right fun ha => ?_
  rw [h.classOf (hargs a ha), h.idOf (hargs a ha), Equiv.eq_symm_apply]

omit hi in
theorem mem_dataSet_renumber :
    m ∈ v'.dataSet (k.renumber r) (args.map σ) ↔ r.value.symm m ∈ v.dataSet k args := by
  simp only [dataSet, Set.mem_ofPred_eq, List.mem_map, exists_exists_and_eq_and]
  refine exists_congr fun a => and_congr_right fun ha => ?_
  rw [h.classOf (hargs a ha), h.idOf (hargs a ha), Equiv.eq_symm_apply,
    Knowledge.mem_reachableData_renumber h.classOfId]

variable (hk : v.cls.kindOf i = .opaqueCall)
include hk

theorem mem_modified_renumber :
    m ∈ v'.modified i (k.renumber r) (args.map σ) ↔ r.value.symm m ∈ v.modified i k args := by
  simp only [modified, Set.mem_ofPred_eq, mem_dataSet_renumber h hargs, ne_eq,
    Renumbering.value_symm_eq_unknown]
  refine and_congr_right fun hm => and_congr_right fun hne => ?_
  have hclass := classOfId_of_mem_dataSet hm (mt Renumbering.value_symm_eq_unknown.1 hne)
  rw [← hi.mayModify hk _ (by rw [hclass]; decide), Equiv.apply_symm_apply]

theorem touch_renumber :
    v'.touch i (k.renumber r) (args.map σ) = (v.touch i k args).renumber r := by
  have hwrites {p : Id} (hp : r.value.symm p ∈ v.pointerSet args) :
      v'.mayModify i p = v.mayModify i (r.value.symm p) := by
    rw [← hi.mayModify hk _ (by rw [classOfId_of_mem_pointerSet hp]; decide),
      Equiv.apply_symm_apply]
  ext x m
  · simp only [touch, Set.mem_ofPred_eq, Knowledge.mem_renumber_defs,
      Knowledge.mem_renumber_aliases, mem_modified_renumber h hi hargs hk,
      Renumbering.setter_symm_eq_unknown]
    refine or_congr_left (and_congr_right fun _ => ?_)
    exact Renumbering.exists_value_symm (r := r) (P := fun j => j ∈ v.modified i k args ∧
      r.value.symm x ∈ k.aliases j)
  · exact .rfl
  · simp only [touch, Set.mem_ofPred_eq, Knowledge.mem_renumber_pointsTo,
      Knowledge.mem_renumber_aliases, mem_pointerSet_renumber h hargs,
      mem_dataSet_renumber h hargs]
    refine or_congr_right (and_congr_left fun _ => Iff.trans ?_ <|
      Renumbering.exists_value_symm (r := r) (P := fun p => p ∈ v.pointerSet args ∧
        v.mayModify i p = true ∧ r.value.symm x ∈ k.aliases p))
    exact exists_congr fun p => and_congr_right fun hp => by rw [hwrites hp]

omit hi hk in
theorem mem_resultSources_renumber {c : ValueClass} :
    m ∈ v'.resultSources (k.renumber r) c (args.map σ) ↔
      r.value.symm m ∈ v.resultSources k c args := by
  cases c with
  | data =>
    simp only [resultSources, Set.mem_ofPred_eq, ne_eq, Renumbering.value_symm_eq_unknown,
      mem_dataSet_renumber h hargs]
  | pointer | irrelevant =>
    simp only [resultSources, Set.mem_ofPred_eq, ne_eq, Renumbering.value_symm_eq_unknown,
      mem_pointerSet_renumber h hargs]

theorem opaqueEffect_renumber :
    v'.opaqueEffect i (k.renumber r) (args.map σ) = (v.opaqueEffect i k args).renumber r := by
  unfold opaqueEffect
  simp only [hi.classOf_self h, hi.idOf_self h, touch_renumber h hi hargs hk]
  split
  · rfl
  · rw [Knowledge.renumber_describe, Knowledge.renumber_relink]
    congr 1
    · congr 1
      ext m
      simp only [mem_resultSources_renumber h hargs, Set.mem_ofPred_eq,
        Knowledge.mem_renumber_aliases]
      exact Renumbering.exists_value_symm (r := r)
        (P := fun q => q ∈ v.resultSources k _ args ∧ r.value.symm m ∈ k.aliases q)
    · ext m
      simp only [mem_resultSources_renumber h hargs, Set.mem_ofPred_eq,
        Knowledge.mem_renumber_tableOf, Renumbering.member_symm_eq_unknown]
      refine or_congr_right ?_
      exact Renumbering.exists_value_symm (r := r) (P := fun q =>
        q ∈ v.resultSources k _ args ∧ (r.member _).symm m ∈ (v.touch i k args).tableOf _ q)

end Calls

/-- The effect of an instruction that stays is the same by other numbers. -/
theorem effect_renumber : v'.effect i (k.renumber r) = (v.effect i k).renumber r := by
  have hfits := rule_fits (v := v) (i := i)
  unfold effect
  rw [hi.rule_eq h]
  cases hr : v.rule i with
  | keep => rfl
  | phi incoming =>
    rw [hr] at hfits
    have hV : ∀ x ∈ incoming, x.1 ∈ V := fun x hx => hi.mem_of_operand (by
      rw [show (v.program.inst i).op = .phi incoming from hfits]
      exact List.mem_map_of_mem hx)
    dsimp only [Rule.map]
    rw [phiSources_renumber h hV, mergeEffect_renumber h hi]
  | select t e =>
    rw [hr] at hfits
    obtain ⟨c, hop⟩ := hfits
    dsimp only [Rule.map]
    rw [selectSources_renumber h (hi.mem_of_operand (by simp [hop, Form.operands]))
      (hi.mem_of_operand (by simp [hop, Form.operands])), mergeEffect_renumber h hi]
  | cell =>
    dsimp only [Rule.map]
    rw [hi.idOf_self h, Knowledge.renumber_describe, Knowledge.renumber_relink]
    rfl
  | store value pointer =>
    rw [hr] at hfits
    dsimp only [Rule.map]
    rw [hi.idOf_operand h (x := value) (by simp [hfits.1, Form.operands]),
      hi.idOf_operand h (x := pointer) (by simp [hfits.1, Form.operands]),
      Knowledge.renumber_overwrite]
  | load pointer =>
    rw [hr] at hfits
    exact loadEffect_renumber h hi (by simp [hfits.1, Form.operands])
  | handle =>
    dsimp only [Rule.map]
    rw [Knowledge.renumber_define, Knowledge.renumber_relink, ← hi.setter, hi.idOf_self h]
    rfl
  | set handle =>
    rw [hr] at hfits
    obtain ⟨⟨callee, args, hop⟩, -⟩ := hfits
    dsimp only [Rule.map]
    rw [Knowledge.renumber_define, ← hi.setter,
      hi.idOf_operand h (x := handle) (by simp [hop, Form.operands])]
  | call args =>
    rw [hr] at hfits
    obtain ⟨⟨callee, hop⟩, hk⟩ := hfits
    exact opaqueEffect_renumber h hi
      (fun a ha => hi.mem_of_operand (by rw [hop]; exact ha)) hk

end View

end BoxFlow
