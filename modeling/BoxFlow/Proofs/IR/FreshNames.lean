import Mathlib.Data.List.Nodup
import Mathlib.Data.List.Perm.Subperm
import BoxFlow.IR.Edit

/-!
# Names that are made up

`Program.freshName` gives away a name that has not been given away yet, and it is the hint itself
if that is still free.
-/

namespace BoxFlow.Program

variable {names : List String} {hint : String}

theorem numbered_injective (hint : String) : Function.Injective (numbered hint) := by
  intro m n h
  have hlist := congrArg String.toList h
  cases m with
  | zero =>
    cases n with
    | zero => rfl
    | succ n => simp [numbered] at hlist
  | succ m =>
    cases n with
    | zero => simp [numbered] at hlist
    | succ n =>
      simp only [numbered, String.toList_append] at hlist
      have hdigits := List.append_cancel_left hlist
      have hnumber := congrArg (fun digits => Nat.ofDigitChars 10 digits 0) hdigits
      simpa [Nat.toString_eq_ofList_toDigits] using hnumber

/-- The search for an unused name ends: it takes the first form that is not in use, and of one form
more than there are names, one is unused. -/
theorem firstUnused_least (names : List String) (hint : String) :
    ∃ n ≤ names.length, firstUnused names hint = numbered hint n ∧ numbered hint n ∉ names ∧
      ∀ m < n, numbered hint m ∈ names := by
  rw [firstUnused, List.find?_map]
  cases hfind : (List.range (names.length + 1)).find? ((· ∉ names) ∘ numbered hint) with
  | some n =>
    obtain ⟨hunused, hrange, hleast⟩ := List.find?_range_eq_some.1 hfind
    refine ⟨n, Nat.le_of_lt_succ (List.mem_range.1 hrange), rfl, by simpa using hunused, ?_⟩
    intro m hm
    simpa using hleast m hm
  | none =>
    have hsub : (List.range (names.length + 1)).map (numbered hint) ⊆ names := by
      intro name hname
      obtain ⟨n, hn, rfl⟩ := List.mem_map.1 hname
      simpa using List.find?_eq_none.1 hfind n hn
    have hnodup : ((List.range (names.length + 1)).map (numbered hint)).Nodup :=
      List.nodup_range.map (numbered_injective hint)
    have hlength := (List.subperm_of_subset hnodup hsub).length_le
    rw [List.length_map, List.length_range] at hlength
    omega

theorem firstUnused_spec (names : List String) (hint : String) :
    firstUnused names hint ∉ names ∧ ∃ n, firstUnused names hint = numbered hint n := by
  obtain ⟨n, -, hn, hunused, -⟩ := firstUnused_least names hint
  exact ⟨hn ▸ hunused, n, hn⟩

theorem firstUnused_not_mem (names : List String) (hint : String) :
    firstUnused names hint ∉ names := (firstUnused_spec names hint).1

theorem firstUnused_of_not_mem (h : hint ∉ names) : firstUnused names hint = hint := by
  rw [firstUnused, List.range_succ_eq_map, List.map_cons, List.find?_cons_of_pos]
  · rfl
  · simpa [numbered] using h

end BoxFlow.Program
