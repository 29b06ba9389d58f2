import Mathlib.Data.Set.Insert
import Mathlib.Logic.Relation
import Mathlib.Data.List.Perm.Subperm
import BoxFlow.Worklist

/-!
# What a search finds

A search in either order meets exactly what can be reached from where it starts, and looks at all
of it (`Worklist.search_spec`): no step leaves anything behind that is met at an element already
looked at, and every step takes one element off a list that grows only by what is met for the first
time.
-/

namespace BoxFlow

open Relation (ReflTransGen)

namespace Worklist

variable {α σ : Type} [DecidableEq α] {turn : Turn} {w : Worklist α} {x y : α} {xs : List α}

/-! ## Meeting -/

theorem mem_met_meet : y ∈ (w.meet turn x).met ↔ y ∈ w.met ∨ y = x := by
  unfold meet
  split
  · next hx => exact ⟨.inl, fun h => h.elim id fun h => h ▸ hx⟩
  · simp

theorem mem_waiting_meet :
    y ∈ (w.meet turn x).waiting ↔ y ∈ w.waiting ∨ y = x ∧ x ∉ w.met := by
  unfold meet
  split
  · next hx => simp [hx]
  · next hx => cases turn <;> simp [hx, or_comm]

/-- What is met for the first time is one more to be looked at. -/
theorem length_meet (turn : Turn) (w : Worklist α) (x : α) :
    (w.meet turn x).waiting.length + w.met.length =
      (w.meet turn x).met.length + w.waiting.length := by
  unfold meet
  split
  · exact Nat.add_comm ..
  · cases turn <;> simp <;> omega

theorem mem_met_meetAll : y ∈ (w.meetAll turn xs).met ↔ y ∈ w.met ∨ y ∈ xs := by
  induction xs generalizing w with
  | nil => simp [meetAll]
  | cons x xs ih => rw [meetAll, List.foldl_cons, ← meetAll, ih, mem_met_meet]; simp [or_assoc]

theorem mem_waiting_meetAll :
    y ∈ (w.meetAll turn xs).waiting ↔ y ∈ w.waiting ∨ y ∈ xs ∧ y ∉ w.met := by
  induction xs generalizing w with
  | nil => simp [meetAll]
  | cons x xs ih =>
    rw [meetAll, List.foldl_cons, ← meetAll, ih, mem_waiting_meet, mem_met_meet, List.mem_cons]
    by_cases hyx : y = x
    · subst hyx
      simp
    · simp [hyx]

theorem length_meetAll (turn : Turn) (w : Worklist α) (xs : List α) :
    (w.meetAll turn xs).waiting.length + w.met.length =
      (w.meetAll turn xs).met.length + w.waiting.length := by
  induction xs generalizing w with
  | nil => exact Nat.add_comm ..
  | cons x xs ih =>
    have hx := length_meet turn w x
    have hxs := ih (w.meet turn x)
    rw [meetAll, List.foldl_cons, ← meetAll]
    omega

/-! ## A search on its way -/

variable {next : α → α → Prop} {start : List α} {U : List α} {ys : List α}
  {look : α → σ → List α × σ} {Good : Set α → σ → Prop} {r : σ}

/-- What has been looked at. -/
def seen (w : Worklist α) : Set α := {x | x ∈ w.met ∧ x ∉ w.waiting}

/-- What a search from `start` along `next` keeps to. -/
structure OnWay (start : List α) (next : α → α → Prop) (w : Worklist α) : Prop where
  met_nodup : w.met.Nodup
  waiting_nodup : w.waiting.Nodup
  waiting_met : w.waiting ⊆ w.met
  started : start ⊆ w.met
  reached : ∀ x ∈ w.met, ∃ s ∈ start, ReflTransGen next s x
  closed : ∀ x ∈ w.seen, ∀ y, next x y → y ∈ w.met

theorem nodup_meet (turn : Turn) (x : α) (hmet : w.met.Nodup) (hwaiting : w.waiting.Nodup)
    (hsub : w.waiting ⊆ w.met) :
    (w.meet turn x).met.Nodup ∧ (w.meet turn x).waiting.Nodup ∧
      (w.meet turn x).waiting ⊆ (w.meet turn x).met := by
  refine ⟨?_, ?_, fun y hy => ?_⟩
  · unfold meet
    split
    · exact hmet
    · next hx => exact List.nodup_append.2 ⟨hmet, by simp, by grind⟩
  · unfold meet
    split
    · exact hwaiting
    · next hx =>
      have hnew : x ∉ w.waiting := fun h => hx (hsub h)
      cases turn with
      | newest => exact List.nodup_cons.2 ⟨hnew, hwaiting⟩
      | oldest => exact List.nodup_append.2 ⟨hwaiting, by simp, by grind⟩
  · rw [mem_met_meet]
    exact (mem_waiting_meet.1 hy).imp (@hsub y) And.left

theorem nodup_meetAll (turn : Turn) (xs : List α) (hmet : w.met.Nodup) (hwaiting : w.waiting.Nodup)
    (hsub : w.waiting ⊆ w.met) :
    (w.meetAll turn xs).met.Nodup ∧ (w.meetAll turn xs).waiting.Nodup ∧
      (w.meetAll turn xs).waiting ⊆ (w.meetAll turn xs).met := by
  induction xs generalizing w with
  | nil => exact ⟨hmet, hwaiting, hsub⟩
  | cons x xs ih =>
    obtain ⟨hmet, hwaiting, hsub⟩ := nodup_meet turn x hmet hwaiting hsub
    exact ih hmet hwaiting hsub

theorem onWay_start (turn : Turn) (start : List α) (next : α → α → Prop) :
    OnWay start next (meetAll turn {} start) := by
  have hmet {x : α} : x ∈ (meetAll turn {} start).met ↔ x ∈ start := by simp [mem_met_meetAll]
  have hwaiting {x : α} : x ∈ (meetAll turn {} start).waiting ↔ x ∈ start := by
    simp [mem_waiting_meetAll]
  obtain ⟨hmet', hwaiting', hsub⟩ := nodup_meetAll (w := {}) turn start
    List.nodup_nil List.nodup_nil (List.nil_subset _)
  exact {
    met_nodup := hmet'
    waiting_nodup := hwaiting'
    waiting_met := hsub
    started := fun x hx => hmet.2 hx
    reached := fun x hx => ⟨x, hmet.1 hx, .refl⟩
    closed := fun x hx => absurd (hwaiting.2 (hmet.1 hx.1)) hx.2 }

/-- The next element is looked at. -/
theorem OnWay.step {rest : List α} (turn : Turn) (h : OnWay start next w)
    (hw : w.waiting = x :: rest) (hys : ∀ y, y ∈ ys ↔ next x y) :
    OnWay start next (meetAll turn { w with waiting := rest } ys) ∧
      (meetAll turn { w with waiting := rest } ys).seen = insert x w.seen := by
  have hx : x ∈ w.met := h.waiting_met (by simp [hw])
  obtain ⟨hxrest, hrest⟩ := List.nodup_cons.1 (hw ▸ h.waiting_nodup)
  have hsub : rest ⊆ w.met := fun y hy => h.waiting_met (by simp [hw, hy])
  have hseen : (meetAll turn { w with waiting := rest } ys).seen = insert x w.seen := by
    ext y
    simp only [seen, Set.mem_ofPred_eq, Set.mem_insert_iff, mem_met_meetAll, mem_waiting_meetAll,
      hw, List.mem_cons]
    grind
  obtain ⟨hmet, hwaiting, hsub⟩ := nodup_meetAll (w := { w with waiting := rest }) turn ys
    h.met_nodup hrest hsub
  refine ⟨⟨hmet, hwaiting, hsub, fun s hs => ?_, fun y hy => ?_, fun z hz y hzy => ?_⟩, hseen⟩
  · exact mem_met_meetAll.2 (.inl (h.started hs))
  · rcases mem_met_meetAll.1 hy with hy | hy
    · exact h.reached y hy
    · obtain ⟨s, hs, hsx⟩ := h.reached x hx
      exact ⟨s, hs, hsx.tail ((hys y).1 hy)⟩
  · rw [hseen] at hz
    rw [mem_met_meetAll]
    rcases hz with rfl | hz
    · exact .inr ((hys y).2 hzy)
    · exact .inl (h.closed z hz y hzy)

omit [DecidableEq α] in
/-- When nothing waits any more, all that can be reached has been met. -/
theorem OnWay.mem_met_iff (h : OnWay start next w) (hw : w.waiting = []) :
    x ∈ w.met ↔ ∃ s ∈ start, ReflTransGen next s x := by
  refine ⟨h.reached x, ?_⟩
  rintro ⟨s, hs, hsx⟩
  induction hsx with
  | refl => exact h.started hs
  | tail _ hy ih => exact h.closed _ ⟨ih, by simp [hw]⟩ _ hy

/-! ## Searching -/

/-- A search ends within the bound if the bound covers what has still to be met and what waits; on
the way the record is kept right. -/
theorem OnWay.search (turn : Turn) (hlook : ∀ S x r, Good S r → x ∉ S →
      (∀ y, y ∈ (look x r).1 ↔ next x y) ∧ Good (insert x S) (look x r).2)
    (hU : ∀ s ∈ start, ∀ x, ReflTransGen next s x → x ∈ U) {bound : Nat}
    (h : OnWay start next w) (hr : Good w.seen r)
    (hbound : U.length + w.waiting.length ≤ bound + w.met.length) :
    OnWay start next (search turn look bound (w, r)).1 ∧
      (search turn look bound (w, r)).1.waiting = [] ∧
      Good (search turn look bound (w, r)).1.seen (search turn look bound (w, r)).2 := by
  induction bound generalizing w r with
  | zero =>
    have hmet : w.met ⊆ U := fun x hx => by
      obtain ⟨s, hs, hsx⟩ := h.reached x hx
      exact hU s hs x hsx
    have hlength := (List.subperm_of_subset h.met_nodup hmet).length_le
    exact ⟨h, List.eq_nil_of_length_eq_zero (show w.waiting.length = 0 by omega), hr⟩
  | succ bound ih =>
    rw [Worklist.search]
    cases hw : w.waiting with
    | nil => exact ⟨h, hw, hr⟩
    | cons x rest =>
      dsimp only
      have hx : x ∉ w.seen := fun hx => hx.2 (by simp [hw])
      obtain ⟨hys, hgood⟩ := hlook _ x r hr hx
      obtain ⟨hway, hseen⟩ := h.step turn hw hys
      have hlength := length_meetAll turn { w with waiting := rest } (look x r).1
      rw [hw, List.length_cons] at hbound
      exact ih hway (hseen ▸ hgood) (by dsimp only at hlength; omega)

/-- A search whose bound is not below the number of elements that can be reached comes to its end,
having met exactly them, each once. -/
theorem search_spec (turn : Turn) (Good : Set α → σ → Prop)
    (hlook : ∀ S x r, Good S r → x ∉ S →
      (∀ y, y ∈ (look x r).1 ↔ next x y) ∧ Good (insert x S) (look x r).2)
    (hU : ∀ s ∈ start, ∀ x, ReflTransGen next s x → x ∈ U) {bound : Nat}
    (hbound : U.length ≤ bound) (hr : Good ∅ r) {w : Worklist α} {r' : σ}
    (hw : search turn look bound (meetAll turn {} start, r) = (w, r')) :
    w.waiting = [] ∧ w.met.Nodup ∧ (∀ x, x ∈ w.met ↔ ∃ s ∈ start, ReflTransGen next s x) ∧
      Good {x | x ∈ w.met} r' := by
  have hstart := onWay_start turn start next
  have hseen : (meetAll turn {} start).seen = ∅ := by
    ext x
    simp [seen, mem_met_meetAll, mem_waiting_meetAll]
  have hlength := length_meetAll turn {} start
  obtain ⟨hway, hnil, hgood⟩ := hstart.search turn hlook hU (hseen ▸ hr)
    (show _ ≤ bound + _ by simp at hlength; omega)
  rw [hw] at hway hnil hgood
  refine ⟨hnil, hway.met_nodup, fun x => hway.mem_met_iff hnil, ?_⟩
  have hall : w.seen = {x | x ∈ w.met} := by
    ext x
    have hx : x ∉ w.waiting := by simp [show w.waiting = [] from hnil]
    simp [seen, hx]
  exact hall ▸ hgood

end Worklist

end BoxFlow
