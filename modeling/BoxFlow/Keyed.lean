/-!
# Tables in the order of their keys

Association lists from text to values. Setting a key that is there keeps its place; a new key goes
to the end. `lookup_put` says what is found after a key is set.
-/

namespace BoxFlow

/-- A table whose keys keep the order in which they were first set. -/
abbrev Keyed (α : Type) := List (String × α)

namespace Keyed

variable {α : Type}

/-- The table with `key` set to `value`. -/
def put : Keyed α → String → α → Keyed α
  | [], key, value => [(key, value)]
  | (k, v) :: rest, key, value =>
    if k = key then (k, value) :: rest else (k, v) :: put rest key value

theorem lookup_put (t : Keyed α) (key k : String) (v : α) :
    List.lookup k (t.put key v) = if k = key then some v else List.lookup k t := by
  have hb {a b : String} (h : ¬a = b) : (a == b) = false := by simp [h]
  induction t with
  | nil => by_cases h : k = key <;> simp [put, List.lookup_cons, h, hb]
  | cons e t ih =>
    obtain ⟨k₀, v₀⟩ := e
    by_cases h₀ : k₀ = key
    · subst h₀
      by_cases h : k = k₀ <;> simp [put, List.lookup_cons, h, hb]
    · by_cases h : k = k₀
      · subst h; simp [put, h₀]
      · simp [put, List.lookup_cons, h₀, hb h, ih]

/-- The keys stay as they are, or the new one follows them. -/
theorem keys_put (t : Keyed α) (key : String) (v : α) :
    (t.put key v).map (·.1) =
      if key ∈ t.map (·.1) then t.map (·.1) else t.map (·.1) ++ [key] := by
  induction t with
  | nil => simp [put]
  | cons e t ih =>
    obtain ⟨k₀, v₀⟩ := e
    by_cases h₀ : k₀ = key
    · simp [put, h₀]
    · have h₁ : ¬ key = k₀ := fun h => h₀ h.symm
      by_cases hm : key ∈ t.map (·.1) <;> simp_all [put]

end Keyed

end BoxFlow
