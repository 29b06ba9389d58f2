import Mathlib.Data.Set.Card
import Mathlib.Tactic.FinCases
import BoxFlow.Proofs.Classification

/-!
# The last scan

Every scan but the last adds a mark, and there are at most four for each value that occurs in the
function, so the scans end with one that changes nothing (`ofFunc_spec`). A classification is
therefore closed under its rules (`visit_ofFunc`).
-/

namespace BoxFlow

namespace Classification

variable {c d : Classification} {x : Value} {id : Id} {w : List Value} {n : Fin 4}

/-! ## Marks -/

/-- The four sets by number. -/
def members (c : Classification) : Fin 4 → IdSet
  | 0 => c.data
  | 1 => c.pointer
  | 2 => c.holdsData
  | 3 => c.holdsPointers

/-- `x` has entered set `n`. -/
structure Enters (c : Classification) (n : Fin 4) (x : Value) (d : Classification) : Prop where
  arena : d.arena = c.arena.insert x
  members : ∀ m y, y ∈ d.members m ↔ m = n ∧ c.arena.idOf x = y ∨ y ∈ c.members m

theorem enters_add_data (hx : x.isLiteral = false) : Enters c 0 x (c.add x .data) := by
  rw [add, if_neg (by simp [hx])]
  refine ⟨rfl, fun m y => ?_⟩
  fin_cases m <;> simp [members]

theorem enters_add_pointer (hx : x.isLiteral = false) : Enters c 1 x (c.add x .pointer) := by
  rw [add, if_neg (by simp [hx])]
  refine ⟨rfl, fun m y => ?_⟩
  fin_cases m <;> simp [members]

theorem enters_addPointee_data : Enters c 2 x (c.addPointee x .data) := by
  refine ⟨rfl, fun m y => ?_⟩
  fin_cases m <;> simp [members, addPointee]

theorem enters_addPointee_pointer : Enters c 3 x (c.addPointee x .pointer) := by
  refine ⟨rfl, fun m y => ?_⟩
  fin_cases m <;> simp [members, addPointee]

/-- Nothing is added, or a class is and the value may have it. -/
theorem add_cases (c : Classification) (x : Value) (k : ValueClass) :
    c.add x k = c ∨ x.isLiteral = false ∧ k ≠ .irrelevant := by
  by_cases hx : x.isLiteral = true
  · exact .inl (by rw [add, if_pos hx])
  · cases k with
    | irrelevant => exact .inl (by rw [add, if_neg hx])
    | data | pointer => exact .inr ⟨by simpa using hx, by decide⟩

theorem add_enters (c : Classification) (x : Value) (k : ValueClass) :
    c.add x k = c ∨ ∃ n, Enters c n x (c.add x k) := by
  refine (add_cases c x k).imp_right fun ⟨hx, hk⟩ => ?_
  cases k with
  | data => exact ⟨0, enters_add_data hx⟩
  | pointer => exact ⟨1, enters_add_pointer hx⟩
  | irrelevant => exact absurd rfl hk

theorem addPointee_enters (c : Classification) (x : Value) (k : ValueClass) :
    c.addPointee x k = c ∨ ∃ n, Enters c n x (c.addPointee x k) := by
  cases k with
  | irrelevant => exact .inl rfl
  | data => exact .inr ⟨2, enters_addPointee_data⟩
  | pointer => exact .inr ⟨3, enters_addPointee_pointer⟩

/-- What holds at first and whenever a value enters a set holds in the end. -/
theorem Adds.induction {P : Classification → Prop} (h : Adds w c d) (hc : P c)
    (hstep : ∀ {c d n x}, x ∈ w → Enters c n x d → P c → P d) : P d := by
  induction h with
  | refl => exact hc
  | @add d x k _ hx ih =>
    rcases add_enters d x k with h | ⟨n, h⟩
    · exact h.symm ▸ ih
    · exact hstep hx h ih
  | @addPointee d x k _ hx ih =>
    rcases addPointee_enters d x k with h | ⟨n, h⟩
    · exact h.symm ▸ ih
    · exact hstep hx h ih

theorem Adds.arena (h : Adds w c d) : c.arena.values <+: d.arena.values :=
  h.induction (P := fun d => c.arena.values <+: d.arena.values) List.prefix_rfl fun _ h ih =>
    ih.trans (h.arena ▸ Arena.insert_prefix ..)

theorem Adds.members (h : Adds w c d) (hid : id ∈ c.members n) : id ∈ d.members n :=
  h.induction (P := fun d => id ∈ d.members n) hid fun _ h ih => (h.members _ _).2 (.inr ih)

theorem Adds.values (h : Adds w c d) (hc : c.arena.values ⊆ w) : d.arena.values ⊆ w :=
  h.induction (P := fun d => d.arena.values ⊆ w) hc fun hx h ih y hy => by
    rw [h.arena, Arena.mem_insert] at hy
    rcases hy with hy | rfl
    · exact ih hy
    · exact hx

theorem ext_of_members (ha : c.arena.values = d.arena.values)
    (hm : ∀ n id, id ∈ c.members n ↔ id ∈ d.members n) (hk : c.kinds = d.kinds) : c = d := by
  obtain ⟨⟨w, hvs⟩, c₀, c₁, c₂, c₃, ck⟩ := c
  obtain ⟨⟨ws, hws⟩, d₀, d₁, d₂, d₃, dk⟩ := d
  obtain rfl : w = ws := ha
  obtain rfl : ck = dk := hk
  obtain rfl : c₀ = d₀ := Std.ExtTreeSet.ext_mem fun {id} => hm 0 id
  obtain rfl : c₁ = d₁ := Std.ExtTreeSet.ext_mem fun {id} => hm 1 id
  obtain rfl : c₂ = d₂ := Std.ExtTreeSet.ext_mem fun {id} => hm 2 id
  obtain rfl : c₃ = d₃ := Std.ExtTreeSet.ext_mem fun {id} => hm 3 id
  rfl

theorem Adds.antisymm {ws : List Value} (h : Adds w c d) (h' : Adds ws d c) : c = d :=
  ext_of_members (h.arena.eq_of_length_le h'.arena.length_le) (fun _ _ => ⟨h.members, h'.members⟩)
    h.kinds.symm

/-- If going through a list changes nothing in the end, no step has changed anything. -/
theorem eq_of_foldl_eq {α : Type} {g : Classification → α → Classification} {l : List α}
    (hg : ∀ d, ∀ a ∈ l, Adds w d (g d a)) (h : l.foldl g c = c) {a : α} (ha : a ∈ l) :
    g c a = c := by
  induction l with
  | nil => cases ha
  | cons b l ih =>
    have hl (d : Classification) : ∀ a ∈ l, Adds w d (g d a) :=
      fun a ha => hg d a (List.mem_cons_of_mem _ ha)
    have hb : g c b = c := by
      have hback : Adds w (g c b) c := by
        have := Adds.foldl hl (g c b)
        rwa [show l.foldl g (g c b) = c from h] at this
      exact hback.antisymm (hg c b List.mem_cons_self)
    rcases List.mem_cons.1 ha with rfl | ha
    · exact hb
    · exact ih hl (by rwa [List.foldl_cons, hb] at h) ha

/-! ## Counting -/

def marks (c : Classification) : Set (Fin 4 × Id) := {q | q.2 ∈ c.members q.1}

/-- Exactly the numbers have marks. -/
def Marked (c : Classification) : Prop :=
  ∀ id, (∃ n, id ∈ c.members n) ↔ 0 ≤ id ∧ id < c.arena.size

theorem not_mem_members_empty : id ∉ ({} : Classification).members n := by
  unfold members
  split <;> simp

theorem empty_marked : ({} : Classification).Marked := by
  intro id
  simp only [not_mem_members_empty, exists_false, false_iff, not_and]
  exact fun h0 hlt => absurd hlt (Int.not_lt.2 h0)

theorem Enters.marked (h : Enters c n x d) (hc : c.Marked) : d.Marked := by
  have hfind := Arena.find_insert_self c.arena x
  rw [← h.arena] at hfind
  intro id
  simp only [h.members, exists_or, exists_and_right, exists_eq, true_and, hc id]
  constructor
  · rintro (rfl | ⟨h0, hlt⟩)
    · exact Arena.find_bounds hfind
    · refine ⟨h0, Int.lt_of_lt_of_le hlt (Int.ofNat_le.2 (Arena.size_le ?_))⟩
      exact h.arena ▸ Arena.insert_prefix ..
  · rintro ⟨h0, hlt⟩
    by_cases hx : x ∈ c.arena.values
    · rw [h.arena, Arena.insert, dif_pos hx] at hlt
      exact .inr ⟨h0, hlt⟩
    · rw [h.arena, Arena.insert, dif_neg hx, Arena.size, List.length_append] at hlt
      have hid : c.arena.idOf x = c.arena.size := by
        rw [Arena.idOf, Arena.find_eq_none_iff.2 hx, Option.getD_none]
      rcases Int.lt_or_eq_of_le (Int.le_of_lt_add_one (by simpa using hlt)) with hlt | heq
      · exact .inr ⟨h0, hlt⟩
      · exact .inl (hid.trans heq.symm)

theorem Adds.marked (h : Adds w c d) (hc : c.Marked) : d.Marked :=
  h.induction hc fun _ h ih => h.marked ih

theorem marks_subset (hc : c.Marked) :
    c.marks ⊆ ((Finset.univ ×ˢ (Finset.range c.arena.size).image Int.ofNat :
      Finset (Fin 4 × Id)) : Set (Fin 4 × Id)) := by
  rintro ⟨n, id⟩ hq
  obtain ⟨h0, hlt⟩ := (hc id).1 ⟨n, hq⟩
  simp only [Finset.coe_product, Set.mem_prod, Finset.coe_univ, Set.mem_univ, true_and,
    Finset.mem_coe, Finset.mem_image, Finset.mem_range]
  exact ⟨id.toNat, (Int.toNat_lt h0).2 hlt, Int.toNat_of_nonneg h0⟩

theorem ncard_marks_le (hc : c.Marked) (hv : c.arena.values ⊆ w) :
    c.marks.ncard ≤ 4 * w.length := by
  have hle := Set.ncard_le_ncard (marks_subset hc) (Finset.finite_toSet _)
  rw [Set.ncard_coe_finset, Finset.card_product, Finset.card_univ, Fintype.card_fin] at hle
  have himage : ((Finset.range c.arena.size).image Int.ofNat).card ≤ c.arena.values.length :=
    Finset.card_image_le.trans (Finset.card_range _).le
  have hlen := (List.subperm_of_subset c.arena.nodup hv).length_le
  omega

theorem Adds.marks (h : Adds w c d) : c.marks ⊆ d.marks := fun _ hq => h.members hq

/-- Growth shows in the marks. -/
theorem Adds.eq_of_marks (h : Adds w c d) (hc : c.Marked) (hd : d.marks ⊆ c.marks) : c = d := by
  refine ext_of_members (h.arena.eq_of_length_le (Nat.le_of_not_lt fun hlt => ?_))
    (fun n id => ⟨h.members, fun hid => @hd (n, id) hid⟩) h.kinds.symm
  obtain ⟨n, hn⟩ := (h.marked hc c.arena.size).2 ⟨by simp, by exact_mod_cast hlt⟩
  exact absurd ((hc _).1 ⟨n, @hd (n, _) hn⟩).2 (Int.lt_irrefl _)

theorem ncard_marks_lt (h : Adds w c d) (hc : c.Marked) (hne : d ≠ c) :
    c.marks.ncard < d.marks.ncard := by
  refine Set.ncard_lt_ncard ⟨h.marks, fun hd => hne (h.eq_of_marks hc hd).symm⟩ ?_
  exact (Finset.finite_toSet _).subset (marks_subset (h.marked hc))

/-! ## The end of the scans -/

variable {p : Program} {is : List InstId} {i : InstId} {o : Options} {f : FuncId}

/-- Every scan adds a mark until one adds nothing, and with that the scans end; the bound is not
reached before. -/
theorem settle_spec (bound : Nat) (hw : is.flatMap p.mentioned ⊆ w) (hc : c.Marked)
    (hv : c.arena.values ⊆ w) (hbound : 4 * w.length ≤ bound + c.marks.ncard) :
    ∃ n, settle p is bound c = ((scan p is)^[n] c, n + 1) ∧ n + c.marks.ncard ≤ 4 * w.length ∧
      (∀ m < n, (scan p is)^[m + 1] c ≠ (scan p is)^[m] c) ∧
      (scan p is)^[n + 1] c = (scan p is)^[n] c := by
  have hadds (d : Classification) : Adds w d (scan p is d) := (scan_adds p is d).mono hw
  induction bound generalizing c with
  | zero =>
    refine ⟨0, rfl, by simpa using ncard_marks_le hc hv, by simp, ?_⟩
    by_contra hne
    have hlt := ncard_marks_lt (hadds c) hc hne
    have hle := ncard_marks_le ((hadds c).marked hc) ((hadds c).values hv)
    omega
  | succ bound ih =>
    rw [settle]
    by_cases hscan : scan p is c = c
    · exact ⟨0, if_pos hscan, by simpa using ncard_marks_le hc hv, by simp, hscan⟩
    · have hlt := ncard_marks_lt (hadds c) hc hscan
      obtain ⟨n, hn, hle, hmore, hlast⟩ :=
        ih ((hadds c).marked hc) ((hadds c).values hv) (by omega)
      refine ⟨n + 1, ?_, by omega, fun m hm => ?_, hlast⟩
      · dsimp only
        rw [if_neg hscan, hn]
        rfl
      · cases m with
        | zero => exact hscan
        | succ m => exact hmore m (Nat.lt_of_succ_lt_succ hm)

/-- The seeds have marks, and they occur in the function. -/
theorem seeds_marked (p : Program) (o : Options) (f : FuncId) :
    ((p.instructions f).foldl (seed p o) {}).Marked ∧
      ((p.instructions f).foldl (seed p o) {}).arena.values ⊆
        (p.instructions f).flatMap p.mentioned := by
  refine List.foldlRecOn (motive := fun c : Classification => c.Marked ∧
    c.arena.values ⊆ (p.instructions f).flatMap p.mentioned) _ _ ?_ fun c hc i hi => ?_
  · exact ⟨empty_marked, List.nil_subset _⟩
  · have hnoted : (noted p o c i).Marked ∧ (noted p o c i).arena = c.arena := by
      unfold noted
      split
      · exact ⟨hc.1, rfl⟩
      · exact ⟨hc.1, rfl⟩
    have hadds := (seed_adds p o c i).mono (fun v hv => List.mem_flatMap.2 ⟨i, hi, hv⟩)
    exact ⟨hadds.marked hnoted.1, hadds.values (hnoted.2 ▸ hc.2)⟩

/-- At most four scans for each value that occurs in the function add something. -/
theorem ofFunc_spec (p : Program) (o : Options) (f : FuncId) :
    ∃ n ≤ 4 * ((p.instructions f).flatMap p.mentioned).toFinset.card,
      ofFunc p o f = ((scan p (p.instructions f))^[n] ((p.instructions f).foldl (seed p o) {}),
        n + 1) ∧
      (∀ m < n, (scan p (p.instructions f))^[m + 1] ((p.instructions f).foldl (seed p o) {}) ≠
        (scan p (p.instructions f))^[m] ((p.instructions f).foldl (seed p o) {})) ∧
      scan p (p.instructions f) (ofFunc p o f).1 = (ofFunc p o f).1 := by
  obtain ⟨hmarked, hvalues⟩ := seeds_marked p o f
  have hdedup := List.subset_dedup ((p.instructions f).flatMap p.mentioned)
  have hlength := (List.dedup_sublist ((p.instructions f).flatMap p.mentioned)).length_le
  obtain ⟨n, hn, hle, hmore, hlast⟩ := settle_spec
    (scanBound p (p.instructions f)) hdedup hmarked (List.Subset.trans hvalues hdedup)
    (by unfold scanBound; omega)
  refine ⟨n, ?_, hn, hmore, ?_⟩
  · rw [List.card_toFinset]
    omega
  · rw [ofFunc, hn]
    exact (Function.iterate_succ_apply' ..).symm.trans hlast

/-- The scans have stopped because there was nothing to add. -/
theorem scan_ofFunc (p : Program) (o : Options) (f : FuncId) :
    scan p (p.instructions f) (ofFunc p o f).1 = (ofFunc p o f).1 := by
  obtain ⟨_, _, _, _, hlast⟩ := ofFunc_spec p o f
  exact hlast

/-- A classification is closed under its rules. -/
theorem visit_ofFunc (hi : i ∈ p.instructions f) :
    visit p (ofFunc p o f).1 i = (ofFunc p o f).1 :=
  eq_of_foldl_eq (w := (p.instructions f).flatMap p.mentioned)
    (fun d j hj => (visit_adds p d j).mono fun _ hv => List.mem_flatMap.2 ⟨j, hj, hv⟩)
    (scan_ofFunc p o f) hi

end Classification

end BoxFlow
