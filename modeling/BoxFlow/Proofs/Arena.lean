import BoxFlow.Arena

/-!
# Arenas that grow

Numbers are places in the arena, so they stay when more values are numbered.
-/

namespace BoxFlow

namespace Arena

variable {a b : Arena} {x : Value} {id : Id}

theorem find_eq_some_iff : a.find x = some id ↔ 0 ≤ id ∧ a.values[id.toNat]? = some x := by
  simp only [find, Option.map_eq_some_iff, List.idxOf?_eq_some_iff]
  constructor
  · rintro ⟨n, ⟨hn, h, -⟩, rfl⟩
    exact ⟨Int.natCast_nonneg n, List.getElem?_eq_some_iff.2 ⟨hn, h⟩⟩
  · rintro ⟨h0, h⟩
    obtain ⟨hn, h⟩ := List.getElem?_eq_some_iff.1 h
    refine ⟨id.toNat, ⟨hn, h, fun j hj hx => ?_⟩, Int.toNat_of_nonneg h0⟩
    have := (List.getElem?_inj hn a.nodup).1
      ((List.getElem?_eq_getElem hn).trans ((congrArg some (h.trans hx.symm)).trans
        (List.getElem?_eq_getElem (by omega)).symm))
    omega

theorem find_bounds (h : a.find x = some id) : 0 ≤ id ∧ id < a.size := by
  obtain ⟨h0, h⟩ := find_eq_some_iff.1 h
  obtain ⟨hn, -⟩ := List.getElem?_eq_some_iff.1 h
  exact ⟨h0, (Int.toNat_lt h0).1 hn⟩

theorem idOf_of_find (h : a.find x = some id) : a.idOf x = id := by
  rw [idOf, h, Option.getD_some]

theorem getElem?_grown (hp : a.values <+: b.values) {n : Nat} (h : n < a.size) :
    b.values[n]? = a.values[n]? := by
  rw [List.getElem?_eq_getElem h, List.prefix_iff_getElem?.1 hp n h]

theorem find_of_prefix (hp : a.values <+: b.values) (h : a.find x = some id) :
    b.find x = some id := by
  obtain ⟨h0, hlt⟩ := find_bounds h
  have hn : id.toNat < a.size := (Int.toNat_lt h0).2 hlt
  rw [find_eq_some_iff, getElem?_grown hp hn]
  exact find_eq_some_iff.1 h

/-- A value that is numbered later gets a number that was free. -/
theorem size_le_of_find (hp : a.values <+: b.values) (h : a.find x = none)
    (h' : b.find x = some id) : a.size ≤ id := by
  refine Int.not_lt.1 fun hlt => ?_
  obtain ⟨h0, h'⟩ := find_eq_some_iff.1 h'
  rw [getElem?_grown hp ((Int.toNat_lt h0).2 hlt)] at h'
  rw [find_eq_some_iff.2 ⟨h0, h'⟩] at h
  cases h

/-- A number stands for no other value, whether it is given out yet or not. -/
theorem eq_of_value?_idOf {y : Value} (h : a.value? (a.idOf x) = some y) : y = x := by
  cases hx : a.find x with
  | some q =>
    obtain ⟨h0, hq⟩ := find_eq_some_iff.1 hx
    rw [idOf_of_find hx, value?, if_pos h0] at h
    exact Option.some.inj (h.symm.trans hq)
  | none =>
    rw [idOf, hx, Option.getD_none, value?, if_pos (Int.natCast_nonneg _), Int.toNat_natCast,
      size, List.getElem?_eq_none (Nat.le_refl _)] at h
    cases h

theorem value?_of_prefix (hp : a.values <+: b.values) (h : id < a.size) :
    b.value? id = a.value? id := by
  unfold value?
  split
  · next h0 => exact getElem?_grown hp ((Int.toNat_lt h0).2 h)
  · rfl

theorem insert_prefix (a : Arena) (x : Value) : a.values <+: (a.insert x).values := by
  unfold insert
  split
  · exact List.prefix_rfl
  · exact List.prefix_append ..

theorem mem_insert {y : Value} : y ∈ (a.insert x).values ↔ y ∈ a.values ∨ y = x := by
  unfold insert
  split
  · next h => exact ⟨.inl, fun hy => hy.elim id fun hy => hy ▸ h⟩
  · simp

theorem size_le (hp : a.values <+: b.values) : a.size ≤ b.size := hp.length_le

theorem value?_of_find (h : a.find x = some id) : a.value? id = some x := by
  obtain ⟨h0, hx⟩ := find_eq_some_iff.1 h
  rw [value?, if_pos h0, hx]

theorem find_insert_of_ne {y : Value} (h : y ≠ x) : (a.insert x).find y = a.find y := by
  have hp : a.values <+: (a.insert x).values := insert_prefix a x
  cases hy : a.find y with
  | some id => exact find_of_prefix hp hy
  | none =>
    rw [find_eq_none_iff] at hy ⊢
    rw [mem_insert]
    exact fun hmem => hmem.elim hy h

/-! ## Several values -/

theorem values_foldl_insert (xs : List Value) (a : Arena) :
    a.values <+: (xs.foldl insert a).values := by
  induction xs generalizing a with
  | nil => exact List.prefix_rfl
  | cons x xs ih =>
    have hp : a.values <+: (a.insert x).values := insert_prefix a x
    exact hp.trans (ih _)

theorem mem_foldl_insert {xs : List Value} (hx : x ∈ xs) (a : Arena) :
    x ∈ (xs.foldl insert a).values := by
  induction xs generalizing a with
  | nil => cases hx
  | cons y xs ih =>
    rcases List.mem_cons.1 hx with rfl | hx
    · exact (values_foldl_insert xs _).subset (mem_insert.2 (.inr rfl))
    · exact ih hx _

end Arena

end BoxFlow
