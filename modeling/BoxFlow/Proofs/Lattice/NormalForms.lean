import BoxFlow.Facts
import BoxFlow.Proofs.Lattice

/-!
# Normal forms of maps

`normalize` takes the keys out of a map that say no more than a missing key. What is left of a map
is equal to it (`eq_normalize`), so maps with one normal form are equal. Equal maps have the same
normal form only if the values that are left are the same (`normalize_eq_normalize_iff`). Sets that
are equal are the same. Maps need not be: `normalize` does not go down into the values, which may
have keys of the kind that it takes out. Values that have no such key at any depth are `Tidy`, and
tidy values that are equal are the same (`Nesting.Tidy.eq_of_eq`).
-/

namespace BoxFlow.Semilattice

open Std (ExtTreeMap ExtTreeSet TransCmp LawfulEqCmp)

/-! ## Equality up to the order -/

section Values

variable {β κ : Type} {L : Semilattice β} {x y z : β}

theorem eq_symm (hxy : L.eq x y = true) : L.eq y x = true :=
  eq_iff.2 (eq_iff.1 hxy).symm

namespace Lawful

variable (h : L.Lawful)
include h

theorem eq_refl (x : β) : L.eq x x = true := eq_iff.2 ⟨h.refl x, h.refl x⟩

theorem eq_trans (hxy : L.eq x y = true) (hyz : L.eq y z = true) : L.eq x z = true := by
  obtain ⟨hle, hge⟩ := eq_iff.1 hxy
  obtain ⟨hle', hge'⟩ := eq_iff.1 hyz
  exact eq_iff.2 ⟨h.trans hle hle', h.trans hge' hge⟩

/-- Equal values stand both for nothing or both for something. -/
theorem isBottom_of_eq (hxy : L.eq x y = true) (hx : L.isBottom x = false) :
    L.isBottom y = false := by
  cases hy : L.isBottom y with
  | false => rfl
  | true => exact absurd (h.eq_trans hxy hy) (Bool.eq_false_iff.1 hx)

end Lawful

/-! ## What is left of a map -/

variable [Ord κ] [TransCmp (compare : κ → κ → Ordering)]

/-- Every value of the map is as described. -/
def AllValues (P : β → Prop) (m : ExtTreeMap κ β) : Prop :=
  ∀ (k : κ) (x : β), m[k]? = some x → P x

variable [LawfulEqCmp (compare : κ → κ → Ordering)] {a b : ExtTreeMap κ β} {k : κ}

instance (P : β → Prop) [∀ x, Decidable (P x)] (m : ExtTreeMap κ β) : Decidable (AllValues P m) :=
  decidable_of_iff (∀ e ∈ m.toList, P e.2) ⟨fun h k x hx =>
    h (k, x) (ExtTreeMap.mem_toList_iff_getElem?_eq_some.2 hx), fun h e he =>
    h e.1 e.2 (ExtTreeMap.mem_toList_iff_getElem?_eq_some.1 he)⟩

theorem getElem?_normalize_eq_some :
    (normalize L a)[k]? = some x ↔ a[k]? = some x ∧ L.isBottom x = false := by
  rw [normalize, ExtTreeMap.getElem?_filter', Option.filter_eq_some_iff, Bool.not_eq_true']

omit [LawfulEqCmp (compare : κ → κ → Ordering)] in
theorem pointwise_eq_iff (h : L.Lawful) : (L.pointwise κ).eq a b = true ↔
    ∀ k, L.eq (a.getD k L.bottom) (b.getD k L.bottom) = true := by
  simp only [eq_iff, pointwise_leq_iff h, forall_and]

/-- The normal form of a map is equal to it. -/
theorem eq_normalize (h : L.Lawful) (a : ExtTreeMap κ β) :
    (L.pointwise κ).eq (normalize L a) a = true := by
  refine (pointwise_eq_iff h).2 fun k => ?_
  rw [ExtTreeMap.getD_eq_getD_getElem?, ExtTreeMap.getD_eq_getD_getElem?, normalize,
    ExtTreeMap.getElem?_filter']
  cases a[k]? with
  | none => exact h.eq_refl _
  | some x =>
    cases hx : L.isBottom x with
    | false => simpa [Option.filter, hx] using h.eq_refl x
    | true => simpa [Option.filter, hx] using eq_symm hx

/-- Equal maps have equal values left under the same keys. -/
theorem exists_left_of_eq (h : L.Lawful) (hab : (L.pointwise κ).eq a b = true)
    (hx : (normalize L a)[k]? = some x) :
    ∃ y, (normalize L b)[k]? = some y ∧ L.eq x y = true := by
  obtain ⟨hx, hbottom⟩ := getElem?_normalize_eq_some.1 hx
  have hk := (pointwise_eq_iff h).1 hab k
  rw [ExtTreeMap.getD_eq_getD_getElem?, ExtTreeMap.getD_eq_getD_getElem?, hx,
    Option.getD_some] at hk
  cases hy : b[k]? with
  | none =>
    rw [hy, Option.getD_none] at hk
    exact absurd hk (Bool.eq_false_iff.1 hbottom)
  | some y =>
    rw [hy, Option.getD_some] at hk
    exact ⟨y, getElem?_normalize_eq_some.2 ⟨hy, h.isBottom_of_eq hk hbottom⟩, hk⟩

/-- Maps have one normal form exactly if they are equal and the values left under a key of both are
the same. -/
theorem normalize_eq_normalize_iff (h : L.Lawful) : normalize L a = normalize L b ↔
    (L.pointwise κ).eq a b = true ∧ ∀ (k : κ) (x y : β),
      (normalize L a)[k]? = some x → (normalize L b)[k]? = some y → x = y := by
  constructor
  · intro hnormal
    refine ⟨h.pointwise.eq_trans (eq_symm (eq_normalize h a)) ?_, fun k x y hx hy => ?_⟩
    · rw [hnormal]
      exact eq_normalize h b
    · rw [hnormal, hy] at hx
      exact (Option.some.inj hx).symm
  · rintro ⟨heq, hsame⟩
    refine ExtTreeMap.ext_getElem? fun k => Option.ext fun x => ⟨fun hx => ?_, fun hx => ?_⟩
    · obtain ⟨y, hy, -⟩ := exists_left_of_eq h heq hx
      rw [hy, hsame k x y hx hy]
    · obtain ⟨y, hy, -⟩ := exists_left_of_eq h (eq_symm heq) hx
      rw [hy, hsame k y x hy hx]

end Values

/-! ## Values without keys that say nothing -/

/-- Finite sets, or finite maps into such values. -/
inductive Nesting : Type 1
  | sets (α : Type) [Ord α] [TransCmp (compare : α → α → Ordering)]
    [LawfulEqCmp (compare : α → α → Ordering)]
  | maps (κ : Type) [Ord κ] [TransCmp (compare : κ → κ → Ordering)]
    [LawfulEqCmp (compare : κ → κ → Ordering)] (values : Nesting)

namespace Nesting

/-- The values themselves. -/
@[reducible] def Carrier : Nesting → Type
  | sets α => ExtTreeSet α
  | maps κ values => ExtTreeMap κ values.Carrier

def lattice : (s : Nesting) → Semilattice s.Carrier
  | sets α => powerset α
  | maps κ values => values.lattice.pointwise κ

theorem nested (s : Nesting) : s.lattice.Nested := by
  induction s with
  | sets α => exact .powerset α
  | maps κ values ih => exact .pointwise κ ih

/-- At no depth does a key stand for what a missing key stands for. -/
def Tidy : (s : Nesting) → s.Carrier → Prop
  | sets _, _ => True
  | maps _ values, m =>
    AllValues (fun x => values.lattice.isBottom x = false ∧ values.Tidy x) m

instance : (s : Nesting) → (x : s.Carrier) → Decidable (s.Tidy x)
  | sets _, _ => .isTrue trivial
  | maps _ values, m =>
    have (x : values.Carrier) := instDecidableTidy values x
    inferInstanceAs (Decidable (AllValues _ m))

variable {κ : Type} [Ord κ] [TransCmp (compare : κ → κ → Ordering)]
  [LawfulEqCmp (compare : κ → κ → Ordering)] {s : Nesting} {a b : ExtTreeMap κ s.Carrier}

/-- Nothing has to be taken out of a tidy map. -/
theorem normalize_of_tidy (h : (maps κ s).Tidy a) : normalize s.lattice a = a := by
  refine ExtTreeMap.ext_getElem? fun k => Option.ext fun x => ?_
  rw [getElem?_normalize_eq_some]
  exact and_iff_left_of_imp fun hx => (h k x hx).1

/-- Tidy values that are equal are the same. -/
theorem Tidy.eq_of_eq {x y : s.Carrier} (hx : s.Tidy x) (hy : s.Tidy y)
    (h : s.lattice.eq x y = true) : x = y := by
  induction s with
  | sets α =>
    obtain ⟨hle, hge⟩ := eq_iff.1 h
    exact ExtTreeSet.ext_mem fun m =>
      ⟨fun hm => powerset_leq_iff.1 hle m hm, fun hm => powerset_leq_iff.1 hge m hm⟩
  | maps κ values ih =>
    have hlawful := values.nested.lawful
    refine (normalize_of_tidy hx).symm.trans (Eq.trans ?_ (normalize_of_tidy hy))
    refine (normalize_eq_normalize_iff hlawful).2 ⟨h, fun k u v hu hv => ?_⟩
    obtain ⟨w, hw, huw⟩ := exists_left_of_eq hlawful h hu
    obtain rfl := Option.some.inj (hw.symm.trans hv)
    exact ih (hx k u (getElem?_normalize_eq_some.1 hu).1).2
      (hy k w (getElem?_normalize_eq_some.1 hw).1).2 huw

/-- Maps with one normal form are equal, whatever their values are; to be more exact, they have one
normal form exactly if they are equal and the values left under a key of both are the same. So
where the values are tidy, as sets always are, the normal forms are the same exactly if the maps
are equal. -/
theorem normalize_eq_iff_eq (s : Nesting) (a b : ExtTreeMap κ s.Carrier) :
    (normalize s.lattice a = normalize s.lattice b ↔
      (s.lattice.pointwise κ).eq a b = true ∧ ∀ (k : κ) (x y : s.Carrier),
        (normalize s.lattice a)[k]? = some x → (normalize s.lattice b)[k]? = some y → x = y) ∧
    (AllValues s.Tidy a → AllValues s.Tidy b →
      (normalize s.lattice a = normalize s.lattice b ↔
        (s.lattice.pointwise κ).eq a b = true)) := by
  have hlawful := s.nested.lawful
  refine ⟨normalize_eq_normalize_iff hlawful, fun ha hb => ?_⟩
  rw [normalize_eq_normalize_iff hlawful]
  refine and_iff_left_of_imp fun heq k x y hx hy => ?_
  obtain ⟨z, hz, hxz⟩ := exists_left_of_eq hlawful heq hx
  obtain rfl := Option.some.inj (hz.symm.trans hy)
  exact (ha k x (getElem?_normalize_eq_some.1 hx).1).eq_of_eq
    (hb k z (getElem?_normalize_eq_some.1 hz).1) hxz

/-- The values of `Table`. -/
abbrev table : Nesting := .maps Id (.sets Id)

/-- Tables by name, each by its entries. -/
def named (tables : List (String × List (Id × IdSet))) : ExtTreeMap String Table :=
  .ofList (tables.map fun (name, entries) => (name, ExtTreeMap.ofList entries))

/-- A key with an empty table goes. -/
theorem normalize_eq_iff_eq_blank :
    let a := named [("x", [(0, {1})]), ("y", [])]
    let b := named [("x", [(0, {1})])]
    AllValues table.Tidy a ∧ AllValues table.Tidy b ∧ a.size = 2 ∧ b.size = 1 ∧
      normalize table.lattice a = normalize table.lattice b := by
  intro a b
  have ha : AllValues table.Tidy a := by decide +kernel
  have hb : AllValues table.Tidy b := by decide +kernel
  have heq : (table.lattice.pointwise String).eq a b = true := by decide +kernel
  exact ⟨ha, hb, by decide +kernel, by decide +kernel,
    ((normalize_eq_iff_eq table a b).2 ha hb).2 heq⟩

/-- An empty set inside of a table stays. -/
theorem not_normalize_eq_iff_eq :
    let a := named [("x", [(0, {1})])]
    let b := named [("x", [(0, {1}), (1, ∅)])]
    (table.lattice.pointwise String).eq a b = true ∧
      normalize table.lattice a ≠ normalize table.lattice b := by
  decide +kernel

end Nesting

end BoxFlow.Semilattice
