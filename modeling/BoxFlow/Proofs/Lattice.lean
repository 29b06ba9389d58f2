import BoxFlow.Lattice

/-!
# Laws of lattices

A lattice is lawful if its order is a preorder, its least element is least and its joins are least
upper bounds (`Semilattice.Lawful`). That joins are commutative, associative and idempotent follows
up to `eq`. A map is read at a key through the least element, which stands for a missing value
(`pointwise_leq_iff`), and where only one of two maps has a key the join takes its value over
(`getElem?_join`). So the maps into a lawful lattice are one (`Lawful.pointwise`).
-/

namespace BoxFlow.Semilattice

open Std (ExtTreeMap ExtTreeSet TransCmp LawfulEqCmp ReflCmp OrientedCmp)

variable {α β κ : Type}

/-- A preorder with a least element and least upper bounds. -/
structure Lawful (L : Semilattice α) : Prop where
  refl : ∀ a, L.leq a a = true
  trans : ∀ {a b c}, L.leq a b = true → L.leq b c = true → L.leq a c = true
  bottom_leq : ∀ a, L.leq L.bottom a = true
  leq_join_left : ∀ a b, L.leq a (L.join a b) = true
  leq_join_right : ∀ a b, L.leq b (L.join a b) = true
  join_leq : ∀ {a b c}, L.leq a c = true → L.leq b c = true → L.leq (L.join a b) c = true

/-- The algebraic laws of joins, up to `eq`. -/
structure JoinLaws (L : Semilattice α) : Prop where
  comm : ∀ a b, L.eq (L.join a b) (L.join b a) = true
  assoc : ∀ a b c, L.eq (L.join (L.join a b) c) (L.join a (L.join b c)) = true
  idem : ∀ a, L.eq (L.join a a) a = true

theorem eq_iff {L : Semilattice α} {a b : α} :
    L.eq a b = true ↔ L.leq a b = true ∧ L.leq b a = true := by
  rw [eq, Bool.and_eq_true]

namespace Lawful

variable {L : Semilattice α} (h : L.Lawful)
include h

theorem join_leq_iff {a b c : α} :
    L.leq (L.join a b) c = true ↔ L.leq a c = true ∧ L.leq b c = true where
  mp hle := ⟨h.trans (h.leq_join_left a b) hle, h.trans (h.leq_join_right a b) hle⟩
  mpr hle := h.join_leq hle.1 hle.2

theorem join_mono {a a' b b' : α} (ha : L.leq a a' = true) (hb : L.leq b b' = true) :
    L.leq (L.join a b) (L.join a' b') = true :=
  h.join_leq (h.trans ha (h.leq_join_left a' b')) (h.trans hb (h.leq_join_right a' b'))

theorem joinLaws : L.JoinLaws where
  comm a b := eq_iff.2 ⟨h.join_leq (h.leq_join_right b a) (h.leq_join_left b a),
    h.join_leq (h.leq_join_right a b) (h.leq_join_left a b)⟩
  assoc a b c := by
    have hleft := h.leq_join_left (L.join a b) c
    have hright := h.leq_join_right a (L.join b c)
    refine eq_iff.2 ⟨h.join_leq ?_ ?_, h.join_leq ?_ ?_⟩
    · exact h.join_mono (h.refl a) (h.leq_join_left b c)
    · exact h.trans (h.leq_join_right b c) hright
    · exact h.trans (h.leq_join_left a b) hleft
    · exact h.join_mono (h.leq_join_right a b) (h.refl c)
  idem a := eq_iff.2 ⟨h.join_leq (h.refl a) (h.refl a), h.leq_join_left a a⟩

end Lawful

/-! ## Finite sets -/

section Powerset

variable [Ord α] [TransCmp (compare : α → α → Ordering)]
  [LawfulEqCmp (compare : α → α → Ordering)] {a b : ExtTreeSet α}

theorem powerset_leq_iff : (powerset α).leq a b = true ↔ ∀ x ∈ a, x ∈ b := by
  simp only [powerset, List.all_eq_true, ExtTreeSet.mem_toList]
  exact .rfl

theorem lawful_powerset : (powerset α).Lawful where
  refl _ := powerset_leq_iff.2 fun _ => id
  trans hab hbc := powerset_leq_iff.2 fun x hx =>
    powerset_leq_iff.1 hbc x (powerset_leq_iff.1 hab x hx)
  bottom_leq _ := powerset_leq_iff.2 fun _ hx => absurd hx ExtTreeSet.not_mem_empty
  leq_join_left _ _ := powerset_leq_iff.2 fun _ hx => ExtTreeSet.mem_union_iff.2 (.inl hx)
  leq_join_right _ _ := powerset_leq_iff.2 fun _ hx => ExtTreeSet.mem_union_iff.2 (.inr hx)
  join_leq hac hbc := powerset_leq_iff.2 fun x hx =>
    (ExtTreeSet.mem_union_iff.1 hx).elim (powerset_leq_iff.1 hac x) (powerset_leq_iff.1 hbc x)

end Powerset

/-! ## Maps -/

section Pointwise

variable [Ord κ] [TransCmp (compare : κ → κ → Ordering)] {L : Semilattice β}
  {m a b : ExtTreeMap κ β} {k : κ}

/-- In the pointwise order a missing value counts as the least one on both sides. -/
theorem pointwise_leq_iff (h : L.Lawful) : (L.pointwise κ).leq a b = true ↔
    ∀ k, L.leq (a.getD k L.bottom) (b.getD k L.bottom) = true := by
  simp only [pointwise, List.all_eq_true]
  constructor
  · intro hall k
    rw [ExtTreeMap.getD_eq_getD_getElem? (t := a)]
    cases hk : a[k]? with
    | none => exact h.bottom_leq _
    | some x =>
      obtain ⟨k', hkk', hx⟩ :=
        ExtTreeMap.getElem?_eq_some_iff_exists_compare_eq_eq_and_mem_toList.1 hk
      rw [ExtTreeMap.getD_congr hkk']
      exact hall _ hx
  · rintro hle ⟨k, x⟩ hx
    have hk := (ExtTreeMap.mem_toList_iff_getKey?_eq_some_and_getElem?_eq_some.1 hx).2
    have := hle k
    rwa [ExtTreeMap.getD_eq_getD_getElem? (t := a), hk] at this

/-- What a join does for one key of its second map. -/
def joinStep (L : Semilattice β) (m : ExtTreeMap κ β) (e : κ × β) : ExtTreeMap κ β :=
  m.insert e.1 (m[e.1]?.elim e.2 (L.join · e.2))

theorem getElem?_joinStep (e : κ × β) : (L.joinStep m e)[k]? =
    if compare e.1 k = .eq then some (m[k]?.elim e.2 (L.join · e.2)) else m[k]? := by
  rw [joinStep, ExtTreeMap.getElem?_insert]
  split
  · next hk => rw [ExtTreeMap.getElem?_congr hk]
  · rfl

theorem getElem?_foldl_joinStep_of_ne {l : List (κ × β)} (h : ∀ e ∈ l, compare e.1 k ≠ .eq) :
    (l.foldl L.joinStep m)[k]? = m[k]? := by
  induction l generalizing m with
  | nil => rfl
  | cons e l ih =>
    rw [List.foldl_cons, ih fun e he => h e (List.mem_cons_of_mem _ he), getElem?_joinStep,
      if_neg (h e List.mem_cons_self)]

/-- Each key occurs once, so its value is joined once with what was there before. -/
theorem getElem?_foldl_joinStep {l : List (κ × β)} {e : κ × β}
    (hl : l.Pairwise fun e e' => ¬compare e.1 e'.1 = .eq) (he : e ∈ l)
    (hk : compare e.1 k = .eq) :
    (l.foldl L.joinStep m)[k]? = some (m[k]?.elim e.2 (L.join · e.2)) := by
  induction l generalizing m with
  | nil => cases he
  | cons e' l ih =>
    rw [List.pairwise_cons] at hl
    rw [List.foldl_cons]
    rcases List.mem_cons.1 he with rfl | he
    · have hne : ∀ e' ∈ l, compare e'.1 k ≠ .eq := fun e' he' hk' =>
        hl.1 e' he' (TransCmp.eq_trans hk (OrientedCmp.eq_symm hk'))
      rw [getElem?_foldl_joinStep_of_ne hne, getElem?_joinStep, if_pos hk]
    · have hne : compare e'.1 k ≠ .eq := fun hk' =>
        hl.1 e he (TransCmp.eq_trans hk' (OrientedCmp.eq_symm hk))
      rw [ih hl.2 he, getElem?_joinStep, if_neg hne]

/-- What a join has under a key: the join of both values, or the only one there is. -/
theorem getElem?_join (a b : ExtTreeMap κ β) (k : κ) :
    ((L.pointwise κ).join a b)[k]? = Option.merge L.join a[k]? b[k]? := by
  have hfold : (L.pointwise κ).join a b = b.toList.foldl L.joinStep a :=
    ExtTreeMap.foldl_eq_foldl_toList
  rw [hfold]
  cases hb : b[k]? with
  | none =>
    rw [getElem?_foldl_joinStep_of_ne]
    · cases a[k]? <;> rfl
    · intro e he hk
      have hmem : b[k]? = some e.2 :=
        ExtTreeMap.getElem?_eq_some_iff_exists_compare_eq_eq_and_mem_toList.2
          ⟨e.1, OrientedCmp.eq_symm hk, he⟩
      rw [hb] at hmem
      cases hmem
  | some y =>
    obtain ⟨k', hk, he⟩ :=
      ExtTreeMap.getElem?_eq_some_iff_exists_compare_eq_eq_and_mem_toList.1 hb
    rw [getElem?_foldl_joinStep ExtTreeMap.distinct_keys_toList he (OrientedCmp.eq_symm hk)]
    cases a[k]? <;> rfl

/-- Under each key a join is a least upper bound, whether both maps have the key or not. -/
theorem getD_join_leq_iff (h : L.Lawful) (a b : ExtTreeMap κ β) (k : κ) (c : β) :
    L.leq (((L.pointwise κ).join a b).getD k L.bottom) c = true ↔
      L.leq (a.getD k L.bottom) c = true ∧ L.leq (b.getD k L.bottom) c = true := by
  simp only [ExtTreeMap.getD_eq_getD_getElem?, getElem?_join]
  cases a[k]? <;> cases b[k]? <;> simp [Option.merge, h.bottom_leq, h.join_leq_iff]

/-- The pointwise order on maps into a lawful lattice is lawful. -/
theorem Lawful.pointwise (h : L.Lawful) : (L.pointwise κ).Lawful where
  refl a := (pointwise_leq_iff h).2 fun k => h.refl _
  trans hab hbc := (pointwise_leq_iff h).2 fun k =>
    h.trans ((pointwise_leq_iff h).1 hab k) ((pointwise_leq_iff h).1 hbc k)
  bottom_leq a := by
    refine (pointwise_leq_iff h).2 fun k => ?_
    rw [show (L.pointwise κ).bottom = ∅ from rfl, ExtTreeMap.getD_empty]
    exact h.bottom_leq _
  leq_join_left a b := (pointwise_leq_iff h).2 fun k =>
    ((getD_join_leq_iff h a b k _).1 (h.refl _)).1
  leq_join_right a b := (pointwise_leq_iff h).2 fun k =>
    ((getD_join_leq_iff h a b k _).1 (h.refl _)).2
  join_leq hac hbc := (pointwise_leq_iff h).2 fun k => (getD_join_leq_iff h _ _ k _).2
    ⟨(pointwise_leq_iff h).1 hac k, (pointwise_leq_iff h).1 hbc k⟩

end Pointwise

/-- The finite sets, and the maps into a lattice that is one of these. -/
inductive Nested : {α : Type} → Semilattice α → Prop
  | powerset (α : Type) [Ord α] [TransCmp (compare : α → α → Ordering)]
    [LawfulEqCmp (compare : α → α → Ordering)] : Nested (powerset α)
  | pointwise (κ : Type) [Ord κ] [TransCmp (compare : κ → κ → Ordering)] {β : Type}
    {L : Semilattice β} : Nested L → Nested (L.pointwise κ)

theorem Nested.lawful {L : Semilattice α} (h : Nested L) : L.Lawful := by
  induction h with
  | powerset => exact lawful_powerset
  | pointwise _ _ ih => exact ih.pointwise

end BoxFlow.Semilattice
