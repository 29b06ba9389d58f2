import BoxFlow.Proofs.Listing.Moved

/-!
# Layout does not matter

White space and comments may be put in before the layout after any lexeme, and at the front of a
text. What is read then is the same but for the places of its parts, and places are only used in
messages. So a text that loads loads as before (`Program.load_padded`).
-/

namespace BoxFlow

namespace Listing

/-! ## Computations side by side -/

section Yields

variable {α β γ δ ε ε' σ : Type} {R : α → β → Prop} {S : γ → δ → Prop}

/-- If `x` succeeds so does `y`, with a related result. -/
def Yields (R : α → β → Prop) (x : Except ε α) (y : Except ε' β) : Prop :=
  ∀ a, x = .ok a → ∃ b, y = .ok b ∧ R a b

theorem Yields.bind {x : Except ε α} {y : Except ε' β} {k : α → Except ε γ} {k' : β → Except ε' δ}
    (h : Yields R x y) (hk : ∀ a b, R a b → Yields S (k a) (k' b)) :
    Yields S (x >>= k) (y >>= k') := by
  intro c hc
  obtain ⟨a, ha, hc⟩ := bind_eq_ok.1 hc
  obtain ⟨b, hb, hab⟩ := h a ha
  obtain ⟨d, hd, hcd⟩ := hk a b hab c hc
  exact ⟨d, bind_eq_ok.2 ⟨b, hb, hd⟩, hcd⟩

theorem Yields.foldlM {T : σ → σ → Prop} {g : σ → α → Except ε σ} {g' : σ → β → Except ε' σ}
    (hg : ∀ s s' a b, T s s' → R a b → Yields T (g s a) (g' s' b)) {as : List α} {bs : List β}
    (h : List.Forall₂ R as bs) {s s' : σ} (hs : T s s') :
    Yields T (as.foldlM g s) (bs.foldlM g' s') := by
  induction h generalizing s s' with
  | nil =>
    rintro _ ⟨⟩
    exact ⟨s', rfl, hs⟩
  | cons hab _ ih =>
    rw [List.foldlM_cons, List.foldlM_cons]
    exact (hg s s' _ _ hs hab).bind fun s s' hs => ih hs

/-- `y` does what `x` does, wherever that succeeds. -/
def Covers (x : StateT σ (Except ε) α) (y : StateT σ (Except ε') α) : Prop :=
  ∀ s, Yields Eq (x.run s) (y.run s)

theorem Covers.refl (x : StateT σ (Except ε) α) : Covers x x := fun _ a h => ⟨a, h, rfl⟩

theorem Covers.bind {x : StateT σ (Except ε) α} {y : StateT σ (Except ε') α}
    {k : α → StateT σ (Except ε) γ} {k' : α → StateT σ (Except ε') γ} (h : Covers x y)
    (hk : ∀ a, Covers (k a) (k' a)) : Covers (x >>= k) (y >>= k') := by
  intro s
  rw [StateT.run_bind, StateT.run_bind]
  refine (h s).bind fun a b hab => ?_
  subst hab
  exact hk a.1 a.2

theorem Covers.map {x : StateT σ (Except ε) α} {y : StateT σ (Except ε') α} (h : Covers x y)
    (f : α → γ) : Covers (x >>= fun a => pure (f a)) (y >>= fun a => pure (f a)) :=
  h.bind fun a s r hr => ⟨r, by cases hr; rfl, rfl⟩

theorem Covers.mapM {f : α → StateT σ (Except ε) γ} {g : α → StateT σ (Except ε') γ}
    (h : ∀ a, Covers (f a) (g a)) (as : List α) : Covers (as.mapM f) (as.mapM g) := by
  induction as with
  | nil =>
    intro s r hr
    cases hr
    exact ⟨_, rfl, rfl⟩
  | cons a as ih =>
    rw [List.mapM_cons, List.mapM_cons]
    exact (h a).bind fun b => ih.map _

/-- An operation is run through operand by operand. -/
theorem Covers.formMapM {V W B : Type} {f : V → StateT σ (Except ε) W}
    {g : V → StateT σ (Except ε') W} (h : ∀ v, Covers (f v) (g v)) (form : Form V B) :
    Covers (form.mapM f) (form.mapM g) := by
  have hpure (op : Form W B) : Covers (pure op : StateT σ (Except ε) _)
      (pure op : StateT σ (Except ε') _) := fun s r hr => ⟨r, by cases hr; rfl, rfl⟩
  cases form with
  | alloca | unreachable => exact hpure _
  | load p => exact (h p).map _
  | store v p => exact (h v).bind fun _ => (h p).map _
  | phi incoming => exact (Covers.mapM (fun x => (h x.1).map _) incoming).map _
  | select c t e => exact (h c).bind fun _ => (h t).bind fun _ => (h e).map _
  | call callee args => exact (Covers.mapM h args).map _
  | br c targets =>
    cases c with
    | none => exact hpure _
    | some c => exact (h c).map _
  | ret v =>
    cases v with
    | none => exact hpure _
    | some v => exact (h v).map _

end Yields

/-! ## Places -/

variable {p : Program} {f : FuncId} {scope : Scope} {b b' : Block} {l l' : Line} {d d' : Draft}
  {fn fn' : Function} {item item' : Item} {items items' : List Item}

/-- The drafts are of the same line, wherever it is. -/
def Draft.Same (d d' : Draft) : Prop := d' = { d with left := d'.left }

theorem Line.Matches.eq (h : l.Matches id l') : l' = { l with left := l'.left } := by
  obtain ⟨hresult, hform, hty⟩ := h
  rw [Form.map_id] at hform
  cases l'
  simp_all

theorem addBlock_place (st : Scope × Program) (h : b.Matches id b') :
    Yields Eq (addBlock f st b) (addBlock f st b') := by
  intro r hr
  have hlabel : b'.label = b.label := h.label
  unfold addBlock at hr ⊢
  rw [hlabel]
  dsimp only at hr ⊢
  split at hr
  · cases hr
  · next hnew => exact ⟨r, by rw [if_neg hnew]; exact hr, rfl⟩

theorem resolveLabels_place (labels : Keyed BlockId) (l : Line) (left : Nat) :
    Yields Eq (resolveLabels labels l) (resolveLabels labels { l with left }) := by
  intro form hform
  have h := resolveLabels_eq_ok.1 hform
  exact ⟨form, resolveLabels_eq_ok.2 h, rfl⟩

theorem draft_place (b : BlockId) (id : InstId) (scope : Scope) (p : Program) (l : Line)
    (left : Nat) : Yields (fun x y => x.1.Same y.1 ∧ x.2 = y.2) (draft f b id scope p l)
      (draft f b id scope p { l with left }) := by
  unfold draft
  refine (resolveLabels_place scope.labels l left).bind ?_
  rintro form _ rfl
  dsimp only
  cases l.result with
  | some name =>
    dsimp only
    split
    · rintro _ ⟨⟩
    · split
      · rintro _ ⟨⟩
      · rintro _ ⟨⟩
        exact ⟨_, rfl, rfl, rfl⟩
  | none =>
    dsimp only
    split <;>
    · rintro _ ⟨⟩
      exact ⟨_, rfl, rfl, rfl⟩

theorem draftAll_place {base : InstId} {lines lines' : List (BlockId × Line)}
    (h : List.Forall₂ (fun x y => x.1 = y.1 ∧ x.2.Matches id y.2) lines lines')
    {drafts drafts' : List Draft} (hd : List.Forall₂ Draft.Same drafts drafts') (scope : Scope)
    (p : Program) : Yields (fun x y => List.Forall₂ Draft.Same x.1 y.1 ∧ x.2 = y.2)
      (draftAll f base lines drafts scope p) (draftAll f base lines' drafts' scope p) := by
  induction h generalizing drafts drafts' scope p with
  | nil =>
    rintro _ ⟨⟩
    exact ⟨_, rfl, List.forall₂_reverse_iff.2 hd, rfl⟩
  | @cons x y lines lines' hxy _ ih =>
    obtain ⟨b, l⟩ := x
    obtain ⟨b', l'⟩ := y
    obtain ⟨hb, hl⟩ := hxy
    obtain rfl : b = b' := hb
    have hl : l' = { l with left := l'.left } := hl.eq
    rw [draftAll, draftAll, hd.length_eq, hl]
    refine (draft_place b _ scope p l l'.left).bind ?_
    rintro ⟨d, scope, p⟩ ⟨d', _, _⟩ ⟨hd', ⟨⟩⟩
    exact ih (.cons hd' hd) scope p

theorem operandValue_place (scope : Scope) (left left' : Nat) (t : Typed) :
    Covers (operandValue scope left t) (operandValue scope left' t) := by
  intro p r hr
  refine ⟨r, ?_, rfl⟩
  obtain ⟨ty, operand⟩ := t
  simp only [operandValue, StateT.run] at hr ⊢
  split at hr
  · exact hr
  all_goals
    split at hr
    · exact hr
    · cases hr

theorem place_place (scope : Scope) (p : Program) (h : d.Same d') :
    Yields Eq (place scope p d) (place scope p d') := by
  rw [h]
  unfold place
  refine (Covers.formMapM (operandValue_place scope _ _) d.form p).bind ?_
  rintro x _ rfl
  exact fun r hr => ⟨r, hr, rfl⟩

theorem Function.Matches.placedLines (h : fn.Matches id fn') (labels : Keyed BlockId) :
    List.Forall₂ (fun x y => x.1 = y.1 ∧ x.2.Matches id y.2) (placedLines labels fn)
      (placedLines labels fn') := by
  refine forall₂_flatMap h.blocks fun b b' hb => ?_
  rw [List.forall₂_map_left_iff, List.forall₂_map_right_iff]
  exact hb.lines.imp fun l l' hl => ⟨by rw [hb.label]; rfl, hl⟩

theorem addFunction_place (p : Program) (h : fn.Matches id fn') :
    Yields Eq (addFunction p fn) (addFunction p fn') := by
  have hbuild : Yields Eq (buildFunction p fn) (buildFunction p fn') := by
    unfold buildFunction
    rw [h.name, h.result, h.params, h.results]
    dsimp only
    refine (Yields.foldlM (T := Eq) (R := Block.Matches id) ?_ h.blocks rfl).bind ?_
    · rintro st _ b b' rfl hb
      exact addBlock_place st hb
    rintro ⟨scope, q⟩ _ rfl
    refine (draftAll_place (h.placedLines scope.labels) .nil scope _).bind ?_
    rintro ⟨ds, scope, q⟩ ⟨ds', _, _⟩ ⟨hds, ⟨⟩⟩
    refine Yields.foldlM ?_ hds rfl
    rintro q _ d d' rfl hd
    exact place_place scope q hd
  unfold addFunction
  rw [h.name, h.params]
  split
  · rintro _ ⟨⟩
  · split
    · exact hbuild
    · rintro _ ⟨⟩

/-- Places make no difference to the program. -/
theorem toProgram_place {name : String} {p : Program}
    (h : List.Forall₂ (fun a b => a.Matches id b) items items')
    (hp : toProgram name items = .ok p) : toProgram name items' = .ok p := by
  unfold toProgram at hp ⊢
  dsimp only at hp ⊢
  rw [outline_eq_of_matches h]
  obtain ⟨q, hq, rfl⟩ := Yields.foldlM (T := Eq) (by
    rintro p _ fn fn' rfl hfn
    exact addFunction_place p hfn) (functions_of_matches h) rfl p hp
  exact hq

/-! ## Lexemes with more layout between them -/

/-- `x'` is `x` with more layout before its own. -/
def Lexeme.Padded (x x' : Lexeme) : Prop :=
  ∃ ins, IsLayout ins ∧ x' = { x with gap := ins ++ x.gap }

theorem Lexeme.Padded.moves {x x' : Lexeme} (h : x.Padded x') (hx : x.Proper) : x.Moves id x' := by
  obtain ⟨ins, hins, rfl⟩ := h
  exact ⟨rfl, by simp, hx.name, ⟨ins, hins, rfl⟩, fun _ => id⟩

theorem moved_of_padded {e e' : List Lexeme} (hproper : ∀ x ∈ e, x.Proper)
    (h : List.Forall₂ Lexeme.Padded e e') : Moved id e e' where
  moves := (forall₂_mem h).imp fun x _ hx => hx.2.moves (hproper x hx.1.1)
  apart := (List.pairwise_of_forall fun _ _ _ _ => rfl).isChain

theorem movedItems_of_padded {es es' : List (List Lexeme)} (hlength : items.length = es.length)
    (hproper : ∀ x ∈ es.flatten, x.Proper)
    (h : List.Forall₂ (List.Forall₂ Lexeme.Padded) es es') :
    MovedItems (fun _ => id) items es es' := by
  induction h generalizing items with
  | nil =>
    obtain rfl := List.length_eq_zero_iff.1 hlength
    exact .nil
  | @cons e e' es es' he _ ih =>
    obtain ⟨item, items, rfl⟩ := List.exists_cons_of_length_eq_add_one hlength
    rw [List.flatten_cons] at hproper
    refine .cons (moved_of_padded (fun x hx => hproper x (List.mem_append_left _ hx)) he) ?_
    exact ih (Nat.succ.inj hlength) fun x hx => hproper x (List.mem_append_right _ hx)

end Listing

namespace Program

open Listing

variable {s : List Char} {file name : String} {o : Options} {p : Program}

/-- Layout may be put in wherever there may be some. -/
theorem load_padded (h : load s file o name = .ok p) :
    ∃ front es, lexemes s = some ((front, es), []) ∧ s = front ++ chars es.flatten ∧
      ∀ ins es', IsLayout ins → List.Forall₂ (List.Forall₂ Lexeme.Padded) es es' →
        load (ins ++ front ++ chars es'.flatten) file o name = .ok p := by
  obtain ⟨items, hlisting, hp, hchecks⟩ := load_ok_iff.1 h
  obtain ⟨front, es, hs, hmoves⟩ := listing_moved (fun _ => id) hlisting
  refine ⟨front, es, hs.lexemes, hs.eq, fun ins es' hins hes' => ?_⟩
  obtain ⟨items', hlisting', hitems'⟩ :=
    hmoves ins es' hins (movedItems_of_padded hs.length hs.proper hes')
  exact load_ok_iff.2 ⟨items', hlisting', toProgram_place hitems' hp, hchecks⟩

/-- No layout at all, and a result without a name. -/
def tightText : String := "definei64@f()\x7b5x:calli64@g()reti64-5\x7d"

/-- A comment that hides a brace. -/
def note : List Char := "; \x7b\n".toList

/-- A comment before everything and after every lexeme. -/
theorem load_padded_tight : ∃ p front es, load tightText.toList = .ok p ∧
    lexemes tightText.toList = some ((front, es), []) ∧ es.flatten.length = 16 ∧
    load (note ++ front ++ chars (es.flatten.map fun x => { x with gap := note ++ x.gap })) =
      .ok p := by
  obtain ⟨p, hp, -⟩ := exists_load (s := tightText.toList) (P := fun _ => True) (by decide +kernel)
  obtain ⟨front, es, hlexemes, -, hpadded⟩ := load_padded hp
  have hlength : (lexemes tightText.toList).map (·.1.2.flatten.length) = some 16 := by
    decide +kernel
  have hnote : IsLayout note := by
    show IsLayout (';' :: ([' ', '\x7b'] ++ '\n' :: []))
    exact .comment (by decide) .nil
  refine ⟨p, front, es, hp, hlexemes, by simpa [hlexemes] using hlength, ?_⟩
  rw [List.map_flatten]
  refine hpadded note _ hnote (List.forall₂_map_right_iff.2 (List.forall₂_same.2 fun e _ => ?_))
  exact List.forall₂_map_right_iff.2 (List.forall₂_same.2 fun x _ => ⟨note, hnote, rfl⟩)

end Program

end BoxFlow
