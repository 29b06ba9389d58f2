import BoxFlow.Facts
import BoxFlow.IR.Basic

/-!
# Arenas

An arena numbers values in the order in which they are first met. `find_insert_self` says that a
value has a number once it has been asked for one, and `find_mono` that numbers never change.
-/

namespace BoxFlow

/-- Values by number: the number of a value is its place. -/
structure Arena where
  values : List Value := []
  nodup : values.Nodup := by simp
  deriving DecidableEq

namespace Arena

instance : Inhabited Arena := ⟨{}⟩

def size (a : Arena) : Nat := a.values.length

/-- The number of a value. -/
def find (a : Arena) (v : Value) : Option Id :=
  (a.values.idxOf? v).map Int.ofNat

/-- The arena with a number for `v`: the next one if it had none. -/
def insert (a : Arena) (v : Value) : Arena :=
  if h : v ∈ a.values then a
  else { values := a.values ++ [v], nodup := by grind [a.nodup] }

/-- The number of a value that has one, the next free number otherwise. -/
def idOf (a : Arena) (v : Value) : Id :=
  (a.find v).getD a.size

/-- The value with a number. -/
def value? (a : Arena) (id : Id) : Option Value :=
  if 0 ≤ id then a.values[id.toNat]? else none

theorem find_eq_none_iff {a : Arena} {v : Value} : a.find v = none ↔ v ∉ a.values := by
  simp [find, List.idxOf?_eq_none_iff]

theorem find_insert_self (a : Arena) (v : Value) : (a.insert v).find v = some (a.idOf v) := by
  by_cases h : v ∈ a.values
  · have : a.find v ≠ none := by simp [find_eq_none_iff, h]
    obtain ⟨i, hi⟩ := Option.ne_none_iff_exists'.1 this
    simp [insert, h, idOf, hi]
  · have hn : a.find v = none := find_eq_none_iff.2 h
    have hi : a.values.idxOf? v = none := List.idxOf?_eq_none_iff.2 h
    have : (a.values ++ [v]).idxOf? v = some a.values.length := by
      simp only [List.idxOf?] at hi ⊢
      simp [List.findIdx?_append, hi]
    simp [insert, h, idOf, find, this, size, hi]

/-- A number, once given, stays. -/
theorem find_mono {a : Arena} {v : Value} {id : Id} (w : Value) (h : a.find v = some id) :
    (a.insert w).find v = some id := by
  by_cases hw : w ∈ a.values
  · simpa [insert, hw] using h
  · simp only [find, Option.map_eq_some_iff] at h
    obtain ⟨n, hn, rfl⟩ := h
    have : (a.values ++ [w]).idxOf? v = some n := by
      simp only [List.idxOf?] at hn ⊢
      simp [List.findIdx?_append, hn]
    simp [insert, hw, find, this]

end Arena

end BoxFlow
