import BoxFlow.Proofs.Listing.Spaced
import BoxFlow.Proofs.Listing.Reprinted

/-!
# Texts that are moved

A text that is a listing to its end is made of the lexemes of its items, after some layout
(`IsText`). When they are moved, the labels of each item under new names of their own, what is read
is the same but for these names (`listing_moved`).
-/

namespace BoxFlow

namespace Listing

open Reader

variable {items items' : List Item} {s t u front : List Char} {es es' : List (List Lexeme)}
  {σ : Item → String → String}

/-! ## Items, one after the other -/

/-- Each item is moved, its labels under the names that `σ` has for them in it. -/
def MovedItems (σ : Item → String → String) (items : List Item) (es es' : List (List Lexeme)) :
    Prop :=
  List.Forall₂ (fun x e' => Moved (σ x.1) x.2 e') (items.zip es) es'

/-- The lexemes start with one that defines no label. -/
def Leads (e : List Lexeme) : Prop := ∃ x xs, e = x :: xs ∧ x.kind.isLabel = false ∧ x.Proper

/-- Items that are moved still come after what is before them. -/
theorem meets_items (hes : ∀ e ∈ es, Leads e) (hlength : items.length = es.length)
    (h : MovedItems σ items es es') (e' : List Lexeme) :
    Meets e' (chars es.flatten) (chars es'.flatten) := by
  cases es with
  | nil =>
    obtain rfl := List.length_eq_zero_iff.1 hlength
    cases h
    exact ⟨.inl rfl, id, fun _ _ _ _ => rfl⟩
  | cons e es =>
    obtain ⟨item, items, rfl⟩ := List.exists_cons_of_length_eq_add_one hlength
    obtain ⟨d', es', hd, -, rfl⟩ := List.forall₂_cons_left_iff.1 h
    obtain ⟨x, xs, rfl, hlabel, hx⟩ := hes e List.mem_cons_self
    rw [List.flatten_cons, List.flatten_cons, chars_append, chars_append]
    refine ⟨.inr (hd.opens hx _), fun hnil => ?_, fun _ _ _ _ => ?_⟩
    · obtain ⟨c, u, hu, -⟩ := hx.opens
      rw [chars_cons, hu] at hnil
      cases hnil
    · exact (hd.head hx (fun hl => nomatch hlabel.symm.trans hl) _ _).symm

/-- The items of a text and their lexemes, and what they become when they are moved. -/
theorem Runs.moved (σ : Item → String → String) (h : Runs toplevel u items t) (ht : t = []) :
    ∃ es, Runs Rule.toplevel.read u es [] ∧ u = chars es.flatten ∧ (∀ e ∈ es, Leads e) ∧
      (∀ x ∈ es.flatten, x.Proper) ∧ items.length = es.length ∧
        ∀ es', MovedItems σ items es es' → ∃ items', Runs toplevel (chars es'.flatten) items' [] ∧
          List.Forall₂ (fun a b => a.Matches (σ a) b) items items' := by
  induction h with
  | nil hnone =>
    subst ht
    refine ⟨[], .nil rfl, rfl, nofun, nofun, rfl, fun es' hes' => ?_⟩
    obtain rfl := List.forall₂_nil_left_iff.1 hes'
    exact ⟨[], .nil hnone, .nil⟩
  | @cons s u t item items hitem hlt _ ih =>
    obtain ⟨es, hruns, rfl, hes, hproper, hlength, hmoves⟩ := ih ht
    rcases tracks_toplevel (ρ := σ item) s with ⟨hnone, -⟩ | ⟨_, e, _, hread, hrule, htracked⟩
    · cases hnone.symm.trans hitem
    cases hread.symm.trans hitem
    obtain ⟨x, xs, rfl, hlabel⟩ := Rule.exists_first (R := .toplevel) rfl hrule
    have hx : x.Proper := htracked.proper x List.mem_cons_self
    refine ⟨(x :: xs) :: es, .cons hrule hlt hruns, ?_,
      List.forall_mem_cons.2 ⟨⟨x, xs, rfl, hlabel, hx⟩, hes⟩, ?_, congrArg (· + 1) hlength,
      fun es' hes' => ?_⟩
    · rw [List.flatten_cons, chars_append]
      exact htracked.text
    · rw [List.flatten_cons]
      exact fun y hy => (List.mem_append.1 hy).elim (htracked.proper y) (hproper y)
    · obtain ⟨e', es', he', hrest, rfl⟩ := List.forall₂_cons_left_iff.1 hes'
      obtain ⟨items', hruns', hitems'⟩ := hmoves es' hrest
      obtain ⟨item', hread', hmatches⟩ :=
        htracked.moves he' (meets_items hes hlength hrest e') trivial
      rw [List.flatten_cons, chars_append]
      refine ⟨item' :: items', .cons hread' ?_ hruns', .cons hmatches hitems'⟩
      obtain ⟨c, v, hv, -⟩ := he'.opens hx []
      rw [List.append_nil] at hv
      rw [hv, List.length_append, List.length_cons]
      omega

/-! ## What items that match have in common -/

section Matches

variable {ρ : String → String} {fn fn' : Function}
  (h : List.Forall₂ (fun a b => a.Matches (σ a) b) items items')

theorem Function.Matches.lines (h : fn.Matches ρ fn') :
    List.Forall₂ (Line.Matches ρ) fn.lines fn'.lines :=
  forall₂_flatMap h.blocks fun _ _ hb => hb.lines

theorem Function.Matches.results (h : fn.Matches ρ fn') :
    fn'.lines.filterMap (·.result) = fn.lines.filterMap (·.result) := by
  have hresults := congrArg (List.filterMap id)
    (map_eq_map (h.lines.imp fun _ _ hl => hl.result.symm))
  rw [List.filterMap_map, List.filterMap_map] at hresults
  exact hresults.symm

include h

theorem outline_eq_of_matches (p : Program) :
    items'.foldl addOutline p = items.foldl addOutline p := by
  induction h generalizing p with
  | nil => rfl
  | cons hab _ ih =>
    rw [List.foldl_cons, List.foldl_cons, ih]
    cases hab <;> rfl

theorem functions_of_matches : List.Forall₂ (fun fn fn' => fn.Matches (σ (.function fn)) fn')
    (items.filterMap Item.function?) (items'.filterMap Item.function?) := by
  induction h with
  | nil => exact .nil
  | cons hab _ ih =>
    cases hab with
    | function hf => exact .cons hf ih
    | global | declaration => exact ih

/-- The constants are the same. -/
theorem overlong_of_matches : overlong items' = overlong items := by
  refine (forall₂_eq (forall₂_flatMap (functions_of_matches h) fun fn fn' hf =>
    forall₂_flatMap hf.lines fun l l' hl => ?_)).symm
  rw [hl.form, Form.operands_map, List.map_id]
  exact List.forall₂_refl _

end Matches

/-! ## Whole texts -/

theorem ofText_eq {rest : List Char} :
    ofText s = (items, rest) ↔ many toplevel (skipLayout false s) = some (items, rest) := by
  have hmodule : module s = many toplevel (skipLayout false s) := rfl
  rw [ofText, hmodule, many, Option.getD_some, Option.some.injEq]

/-- A text that is a listing to its end, lexeme by lexeme. -/
structure IsText (s : List Char) (items : List Item) (front : List Char)
    (es : List (List Lexeme)) : Prop where
  read : ofText s = (items, [])
  lexemes : lexemes s = some ((front, es), [])
  eq : s = front ++ chars es.flatten
  length : items.length = es.length
  proper : ∀ x ∈ es.flatten, x.Proper

/-- Every listing is made of lexemes, and if they are moved it reads the same but for the names of
labels. -/
theorem ofText_moved (σ : Item → String → String) (h : ofText s = (items, [])) :
    ∃ front es, IsText s items front es ∧ ∀ ins es', IsLayout ins → MovedItems σ items es es' →
      ∃ items', ofText (ins ++ front ++ chars es'.flatten) = (items', []) ∧
        List.Forall₂ (fun a b => a.Matches (σ a) b) items items' := by
  obtain ⟨hs, -⟩ := gap_eq_some.1 (show gap s = some (_, skipLayout false s) from rfl)
  generalize s.take (s.length - (skipLayout false s).length) = front at hs
  obtain ⟨es, hruns, hu, hes, hproper, hlength, hmoves⟩ :=
    (runs_of_many gives_toplevel.takes (ofText_eq.1 h)).moved σ rfl
  rw [hu] at hs
  have hlexemes : lexemes s = some ((front, es), []) := by
    rw [lexemes, bind_run (gap_eq_some.2 ⟨hs, hu⟩), ← hu, bind_run hruns.many]
    rfl
  refine ⟨front, es, ⟨h, hlexemes, hs, hlength, hproper⟩, fun ins es' hins hes' => ?_⟩
  obtain ⟨items', hruns', hitems'⟩ := hmoves es' hes'
  have hmeets := meets_items hes hlength hes' []
  refine ⟨items', ofText_eq.2 ?_, hitems'⟩
  rw [hs] at hu
  rw [List.append_assoc, hins.skip, skipLayout_gap hu hmeets.nil hmeets.opens]
  exact hruns'.many

theorem listing_eq_ok_iff :
    Program.listing s = .ok items ↔ ofText s = (items, []) ∧ overlong items = [] := by
  unfold Program.listing
  constructor
  · intro h
    split at h
    · next items' htext =>
      split at h
      · next hoverlong =>
        cases h
        exact ⟨htext, hoverlong⟩
      · cases h
    · cases h
  · rintro ⟨htext, hoverlong⟩
    rw [htext]
    simp only [hoverlong]

theorem listing_moved (σ : Item → String → String) (h : Program.listing s = .ok items) :
    ∃ front es, IsText s items front es ∧ ∀ ins es', IsLayout ins → MovedItems σ items es es' →
      ∃ items', Program.listing (ins ++ front ++ chars es'.flatten) = .ok items' ∧
        List.Forall₂ (fun a b => a.Matches (σ a) b) items items' := by
  obtain ⟨htext, hoverlong⟩ := listing_eq_ok_iff.1 h
  obtain ⟨front, es, hs, hmoves⟩ := ofText_moved σ htext
  refine ⟨front, es, hs, fun ins es' hins hes' => ?_⟩
  obtain ⟨items', htext', hitems'⟩ := hmoves ins es' hins hes'
  exact ⟨items', listing_eq_ok_iff.2 ⟨htext', (overlong_of_matches hitems').trans hoverlong⟩,
    hitems'⟩

end Listing

end BoxFlow
