import Mathlib.Data.List.Forall2
import Mathlib.Data.List.Nodup
import Mathlib.Data.List.Perm.Subperm

/-!
# Lists side by side

Lists of which each element is beside one of another list: where the parts, the members and the last
elements of the one are found in the other. Places are told by `List.zip`, which is one to one if
nothing is repeated (`biUnique_zip`). At the end, lists that are strung together.
-/

namespace BoxFlow

variable {α β γ δ : Type} {R : α → γ → Prop}

theorem forall₂_append_left {xs ys : List α} {zs : List γ} (h : List.Forall₂ R (xs ++ ys) zs) :
    ∃ zs₁ zs₂, zs = zs₁ ++ zs₂ ∧ List.Forall₂ R xs zs₁ ∧ List.Forall₂ R ys zs₂ := by
  induction xs generalizing zs with
  | nil => exact ⟨[], zs, rfl, .nil, h⟩
  | cons x xs ih =>
    cases h with
    | cons hx h =>
      obtain ⟨zs₁, zs₂, rfl, h₁, h₂⟩ := ih h
      exact ⟨_ :: zs₁, zs₂, rfl, .cons hx h₁, h₂⟩

theorem forall₂_zipIdx {xs : List α} {zs : List γ} (h : List.Forall₂ R xs zs) (n : Nat) :
    List.Forall₂ (fun x z => x.2 = z.2 ∧ R x.1 z.1) (xs.zipIdx n) (zs.zipIdx n) := by
  induction h generalizing n with
  | nil => exact .nil
  | cons h _ ih => exact .cons ⟨rfl, h⟩ (ih (n + 1))

theorem exists_left_of_mem {xs : List α} {zs : List γ} (h : List.Forall₂ R xs zs) {z : γ}
    (hz : z ∈ zs) : ∃ x ∈ xs, R x z := by
  induction h with
  | nil => cases hz
  | cons h _ ih =>
    rcases List.mem_cons.1 hz with rfl | hz
    · exact ⟨_, List.mem_cons_self, h⟩
    · obtain ⟨x, hx, hr⟩ := ih hz
      exact ⟨x, List.mem_cons_of_mem _ hx, hr⟩

theorem exists_right_of_mem {xs : List α} {zs : List γ} (h : List.Forall₂ R xs zs) {x : α}
    (hx : x ∈ xs) : ∃ z ∈ zs, R x z := by
  obtain ⟨z, hz, hr⟩ := exists_left_of_mem (List.Forall₂.flip (R := flip R) h) hx
  exact ⟨z, hz, hr⟩

theorem forall₂_mem {xs : List α} {zs : List γ} (h : List.Forall₂ R xs zs) :
    List.Forall₂ (fun x z => (x ∈ xs ∧ z ∈ zs) ∧ R x z) xs zs :=
  List.forall₂_iff_zip.2 ⟨h.length_eq, fun hmem => ⟨List.of_mem_zip hmem, List.forall₂_zip h hmem⟩⟩

theorem map_eq_map {xs : List α} {zs : List γ} {f : α → β} {g : γ → β}
    (h : List.Forall₂ (fun x z => f x = g z) xs zs) : xs.map f = zs.map g := by
  induction h with
  | nil => rfl
  | cons h _ ih => exact congrArg₂ List.cons h ih

/-- What is beside what, by place. -/
theorem forall₂_place {xs : List α} {zs : List γ} (h : List.Forall₂ R xs zs) :
    List.Forall₂ (fun x z => (x, z) ∈ xs.zip zs ∧ R x z) xs zs :=
  List.forall₂_iff_zip.2 ⟨h.length_eq, fun hmem => ⟨hmem, List.forall₂_zip h hmem⟩⟩

theorem exists_iff_of_forall₂ {P : α → Prop} {Q : γ → Prop} {xs : List α} {zs : List γ}
    (h : List.Forall₂ R xs zs) (hPQ : ∀ x z, R x z → (P x ↔ Q z)) :
    (∃ x ∈ xs, P x) ↔ ∃ z ∈ zs, Q z := by
  constructor
  · rintro ⟨x, hx, hP⟩
    obtain ⟨z, hz, hR⟩ := exists_right_of_mem h hx
    exact ⟨z, hz, (hPQ x z hR).1 hP⟩
  · rintro ⟨z, hz, hQ⟩
    obtain ⟨x, hx, hR⟩ := exists_left_of_mem h hz
    exact ⟨x, hx, (hPQ x z hR).2 hQ⟩

theorem forall₂_flatMap {P : β → δ → Prop} {g : α → List β} {k : γ → List δ} {xs : List α}
    {zs : List γ} (h : List.Forall₂ R xs zs) (hgk : ∀ x z, R x z → List.Forall₂ P (g x) (k z)) :
    List.Forall₂ P (xs.flatMap g) (zs.flatMap k) :=
  List.rel_flatMap h fun x z hxz => hgk x z hxz

/-- Elements of lists without repetitions are in the same place of one element only. -/
theorem biUnique_zip {xs : List α} {zs : List γ} (hxs : xs.Nodup) (hzs : zs.Nodup) :
    Relator.BiUnique fun x z => (x, z) ∈ xs.zip zs := by
  have hplace {x : α} {z : γ} (h : (x, z) ∈ xs.zip zs) :
      ∃ n : Nat, xs[n]? = some x ∧ zs[n]? = some z := by
    obtain ⟨n, hn⟩ := List.mem_iff_getElem?.1 h
    exact ⟨n, List.getElem?_zip_eq_some.1 hn⟩
  have hinj {κ : Type} {ys : List κ} (h : ys.Nodup) {m n : Nat} {y : κ} (hm : ys[m]? = some y)
      (hn : ys[n]? = some y) : m = n := by
    obtain ⟨hlt, hm'⟩ := List.getElem?_eq_some_iff.1 hm
    exact (List.getElem?_inj hlt h).1 (hm.trans hn.symm)
  constructor
  · intro x y z hx hy
    obtain ⟨m, hm, hmz⟩ := hplace hx
    obtain ⟨n, hn, hnz⟩ := hplace hy
    obtain rfl := hinj hzs hmz hnz
    exact Option.some.inj (hm.symm.trans hn)
  · intro x z z' hz hz'
    obtain ⟨m, hm, hmz⟩ := hplace hz
    obtain ⟨n, hn, hnz⟩ := hplace hz'
    obtain rfl := hinj hxs hm hn
    exact Option.some.inj (hmz.symm.trans hnz)

/-- Elements with the same key are the same if no key is repeated. -/
theorem eq_of_nodup_filterMap {k : α → Option β} {xs : List α} (h : (xs.filterMap k).Nodup)
    {x y : α} {b : β} (hx : x ∈ xs) (hy : y ∈ xs) (hkx : k x = some b) (hky : k y = some b) :
    x = y := by
  induction xs with
  | nil => cases hx
  | cons a xs ih =>
    cases ha : k a with
    | none =>
      rw [List.filterMap_cons_none ha] at h
      have hmem {z : α} (hz : z ∈ a :: xs) (hkz : k z = some b) : z ∈ xs := by
        rcases List.mem_cons.1 hz with rfl | hz
        · rw [ha] at hkz
          cases hkz
        · exact hz
      exact ih h (hmem hx hkx) (hmem hy hky)
    | some c =>
      rw [List.filterMap_cons_some ha, List.nodup_cons] at h
      have hhead {z : α} (hz : z ∈ xs) (hkz : k z = some b) (hkb : k a = some b) : False := by
        rw [ha] at hkb
        exact h.1 (List.mem_filterMap.2 ⟨z, hz, hkz.trans hkb.symm⟩)
      rcases List.mem_cons.1 hx with rfl | hx'
      · rcases List.mem_cons.1 hy with rfl | hy'
        · rfl
        · exact (hhead hy' hky hkx).elim
      · rcases List.mem_cons.1 hy with rfl | hy'
        · exact (hhead hx' hkx hky).elim
        · exact ih h.2 hx' hy'

/-- Elements that have distinct keys are distinct. -/
theorem nodup_of_filterMap {k : α → Option β} {xs : List α} (h : (xs.filterMap k).Nodup)
    (hk : ∀ x ∈ xs, (k x).isSome = true) : xs.Nodup := by
  induction xs with
  | nil => exact .nil
  | cons a xs ih =>
    obtain ⟨c, hc⟩ := Option.isSome_iff_exists.1 (hk a List.mem_cons_self)
    rw [List.filterMap_cons_some hc, List.nodup_cons] at h
    refine List.nodup_cons.2 ⟨fun ha => h.1 (List.mem_filterMap.2 ⟨a, ha, hc⟩), ?_⟩
    exact ih h.2 fun x hx => hk x (List.mem_cons_of_mem _ hx)

/-! ## Strung together -/

theorem intercalate_cons (sep t : List α) (ts : List (List α)) :
    sep.intercalate (t :: ts) = t ++ ts.flatMap (sep ++ ·) := by
  induction ts generalizing t with
  | nil => simp [List.intercalate]
  | cons u ts ih =>
    rw [List.intercalate_cons_cons, ih, List.flatMap_cons, List.append_assoc, List.append_assoc]

theorem mem_intercalate {sep : List α} {ts : List (List α)} {a : α} (h : a ∈ sep.intercalate ts) :
    a ∈ sep ∨ ∃ t ∈ ts, a ∈ t := by
  cases ts with
  | nil => cases h
  | cons t ts =>
    rw [intercalate_cons, List.mem_append, List.mem_flatMap] at h
    rcases h with h | ⟨u, hu, h⟩
    · exact .inr ⟨t, List.mem_cons_self, h⟩
    · exact (List.mem_append.1 h).imp_right fun h => ⟨u, List.mem_cons_of_mem _ hu, h⟩

/-- If one of several lists has gained no more than the elements of `new`, neither have all of them
strung together. -/
theorem subperm_flatMap {F G : α → List β} {l : List α} {new : List β} {a : α} (hl : l.Nodup)
    (hne : ∀ x ≠ a, G x = F x) (ha : (G a).Subperm (F a ++ new)) :
    (l.flatMap G).Subperm (l.flatMap F ++ new) := by
  induction l with
  | nil => exact List.nil_subperm
  | cons x l ih =>
    obtain ⟨hx, hl⟩ := List.nodup_cons.1 hl
    rw [List.flatMap_cons, List.flatMap_cons, List.append_assoc]
    by_cases hxa : x = a
    · subst hxa
      -- The other lists are as they were, so the new elements may come after them.
      have hrest : l.flatMap G = l.flatMap F :=
        List.flatMap_congr fun y hy => hne y fun hyx => hx (hyx ▸ hy)
      rw [hrest]
      have hgrown : (G x ++ l.flatMap F).Subperm (F x ++ new ++ l.flatMap F) :=
        (List.subperm_append_right _).2 ha
      rw [List.append_assoc] at hgrown
      exact hgrown.trans (List.perm_append_comm.append_left (F x)).subperm
    · rw [hne x hxa]
      exact (List.subperm_append_left _).2 (ih hl)

end BoxFlow
