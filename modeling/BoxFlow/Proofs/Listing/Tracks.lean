import Mathlib.Data.List.Chain
import BoxFlow.Proofs.Lists
import BoxFlow.Proofs.Listing.Grammar
import BoxFlow.Proofs.Listing.Proper

/-!
# Readers that keep their way

Lexemes may be moved apart by layout that is put in before the layout between them, and labels may
be given other names (`Moved`). `Tracks` says that a reader goes by a rule, and that on lexemes that
have been moved it reads what it has read before, but for the names of the labels. There is one
lemma for each way to put readers together.
-/

namespace BoxFlow.Listing

open Reader

instance : DecidablePred Opens
  | [] => isFalse fun ⟨_, _, h, _⟩ => nomatch h
  | c :: t => decidable_of_iff (IsSolid c) ⟨(.cons · t), fun ⟨_, _, h, hc⟩ => by cases h; exact hc⟩

/-! ## Layout that is put in -/

/-- White space and comments, of which each has its line break. -/
inductive IsLayout : List Char → Prop
  | nil : IsLayout []
  | blank {c : Char} {s : List Char} : Text.isBlank c = true → IsLayout s → IsLayout (c :: s)
  | comment {cs s : List Char} : '\n' ∉ cs → IsLayout s → IsLayout (';' :: (cs ++ '\n' :: s))

theorem skipLayout_comment {cs : List Char} (h : '\n' ∉ cs) (s : List Char) :
    skipLayout true (cs ++ '\n' :: s) = skipLayout false s := by
  induction cs with
  | nil => rfl
  | cons c cs ih =>
    rw [List.mem_cons, not_or] at h
    rw [List.cons_append, skipLayout, decide_eq_true (Ne.symm h.1), ih h.2]

theorem IsLayout.skip {ins : List Char} (h : IsLayout ins) (s : List Char) :
    skipLayout false (ins ++ s) = skipLayout false s := by
  induction h with
  | nil => rfl
  | blank hc _ ih => rw [List.cons_append, skipLayout_blank hc, ih]
  | comment hcs _ ih =>
    rw [List.cons_append, List.append_assoc, List.cons_append, skipLayout,
      if_neg (by decide), if_pos rfl, skipLayout_comment hcs, ih]

/-- The layout before a text is the layout before another one that starts as it does. -/
theorem skipLayout_gap {c : Bool} {g t t' : List Char} (h : skipLayout c (g ++ t) = t)
    (hnil : t = [] → t' = []) (ht' : t' = [] ∨ Opens t') : skipLayout c (g ++ t') = t' := by
  induction g generalizing c with
  | nil =>
    cases c with
    | false => exact ht'.elim (fun h => by rw [h]; rfl) skipLayout_of_opens
    | true =>
      cases t with
      | nil => rw [hnil rfl]; rfl
      | cons d t =>
        have hle := length_skipLayout_le (d ≠ '\n') t
        rw [List.nil_append, skipLayout] at h
        rw [h, List.length_cons] at hle
        omega
  | cons d g ih =>
    rw [List.cons_append] at h ⊢
    cases c with
    | true => exact ih h
    | false =>
      rw [skipLayout] at h ⊢
      split
      · next hd => exact ih (by rwa [if_pos hd] at h)
      · next hd =>
        rw [if_neg hd] at h
        split
        · next hd' => exact ih (by rwa [if_pos hd'] at h)
        · next hd' =>
          rw [if_neg hd'] at h
          have := congrArg List.length h
          simp at this
          omega

/-- No name goes on into layout. -/
theorem ends_layout {g t : List Char} (hg : g ≠ []) (h : skipLayout false (g ++ t) = t) :
    Ends (g ++ t) := by
  obtain ⟨c, g, rfl⟩ := List.exists_cons_of_ne_nil hg
  refine ends_cons (Bool.eq_false_iff.2 fun hc => ?_) _
  have hsame := skipLayout_of_opens ((Opens.cons (isSolid_of_isNameChar hc) g).append t)
  have hlength := congrArg List.length (hsame.symm.trans h)
  simp at hlength
  omega

/-! ## Lexemes that are moved -/

/-- No instruction is read where the label stands. -/
def IsFree (n : String) : Prop := instruction (n.toList ++ [':']) = none

instance : DecidablePred IsFree := fun n =>
  decidable_of_iff ((instruction (n.toList ++ [':'])).isNone = true) Option.isNone_iff_eq_none

/-- `x'` is `x` with more layout before its own, and another name if it is a label. -/
structure Lexeme.Moves (ρ : String → String) (x x' : Lexeme) : Prop where
  kind : x'.kind = x.kind
  body : x'.body = if x.kind = .plain then x.body else ρ x.body
  name : x.kind ≠ .plain → IsName x'.body
  gap : ∃ ins, IsLayout ins ∧ x'.gap = ins ++ x.gap
  free : x.kind = .label false → IsFree x.body → IsFree x'.body

/-- Lexemes that are moved. A label that ends up right after another lexeme keeps its name. -/
structure Moved (ρ : String → String) (e e' : List Lexeme) : Prop where
  moves : List.Forall₂ (Lexeme.Moves ρ) e e'
  apart : (e.zip e').IsChain fun x y =>
    x.2.gap = [] → y.2.kind.isLabel = true → ρ y.1.body = y.1.body

/-- What `t` may become after the lexemes `e'` when it is moved: it does not start with layout then,
and without layout before it it starts as before. Or else it is cut off. -/
structure Meets (e' : List Lexeme) (t t' : List Char) : Prop where
  opens : t' = [] ∨ Opens t'
  nil : t = [] → t' = []
  head : ∀ x ∈ e'.getLast?, x.gap = [] → t' ≠ [] → t.head? = t'.head?

section Moved

variable {ρ : String → String} {x x' : Lexeme} {e e' e₁ e₂ : List Lexeme} {t t' : List Char}

theorem Lexeme.Moves.text_opens (h : x.Moves ρ x') (hx : x.Proper) : Opens x'.text := by
  rw [Lexeme.text, h.kind, h.body]
  cases hk : x.kind with
  | plain =>
    have := hx.opens
    rwa [Lexeme.text, hk] at this
  | label entry =>
    have hn := h.name (by rw [hk]; nofun)
    rw [h.body, if_neg (by rw [hk]; nofun)] at hn
    rw [if_neg nofun]
    obtain ⟨c, u, hu⟩ := List.exists_cons_of_ne_nil hn.1
    refine Opens.append ⟨c, u, hu, isSolid_of_isNameChar (hn.2 c ?_)⟩ _
    rw [hu]
    exact List.mem_cons_self
  | target => exact .cons (by decide) _

/-- All lexemes but labels still start with the same character. -/
theorem Lexeme.Moves.text_head (h : x.Moves ρ x')
    (hx : x.kind.isLabel = true → ρ x.body = x.body) : x'.text.head? = x.text.head? := by
  rw [Lexeme.text, Lexeme.text, h.kind, h.body]
  cases hk : x.kind with
  | plain => rfl
  | label entry => rw [if_neg nofun, hx (by rw [hk]; rfl)]
  | target => rfl

theorem Moved.head (h : Moved ρ (x :: e) e') (hx : x.Proper)
    (hlabel : x.kind.isLabel = true → ρ x.body = x.body) (t t' : List Char) :
    (chars e' ++ t').head? = (chars (x :: e) ++ t).head? := by
  obtain ⟨x', e', hx', -, rfl⟩ := List.forall₂_cons_left_iff.1 h.moves
  obtain ⟨c, u, hu, -⟩ := hx.opens
  obtain ⟨c', u', hu', -⟩ := hx'.text_opens hx
  have hhead := hx'.text_head hlabel
  rw [hu, hu'] at hhead
  rw [chars_cons, chars_cons, hu, hu']
  exact hhead

theorem Moved.opens (h : Moved ρ (x :: e) e') (hx : x.Proper) (t' : List Char) :
    Opens (chars e' ++ t') := by
  obtain ⟨x', e', hx', -, rfl⟩ := List.forall₂_cons_left_iff.1 h.moves
  rw [chars_cons, List.append_assoc]
  exact (hx'.text_opens hx).append _

theorem Moved.chars_ne_nil (h : Moved ρ e e') (hproper : ∀ x ∈ e, x.Proper) (hne : chars e ≠ []) :
    chars e' ≠ [] := by
  cases e with
  | nil => exact absurd rfl hne
  | cons x e =>
    obtain ⟨c, u, hu, -⟩ := h.opens (hproper x List.mem_cons_self) []
    rw [List.append_nil] at hu
    rw [hu]
    exact List.cons_ne_nil _ _

theorem exists_getLast {α β : Type} {R : α → β → Prop} {xs : List α} {ys : List β} {y : β}
    (h : List.Forall₂ R xs ys) (hy : y ∈ ys.getLast?) : ∃ x, (x, y) ∈ (xs.zip ys).getLast? := by
  obtain ⟨ys, rfl⟩ := List.getLast?_eq_some_iff.1 hy
  obtain ⟨xs₁, xs₂, rfl, h₁, h₂⟩ := forall₂_append_left h.flip
  obtain ⟨x, l, -, hl, rfl⟩ := List.forall₂_cons_left_iff.1 h₂
  obtain rfl := List.forall₂_nil_left_iff.1 hl
  exact ⟨x, by rw [List.zip_append h₁.length_eq.symm, List.getLast?_append]; rfl⟩

theorem Moved.left (h : Moved ρ (e₁ ++ e₂) e') : ∃ e₁' e₂', e' = e₁' ++ e₂' ∧ Moved ρ e₁ e₁' := by
  obtain ⟨e₁', e₂', rfl, h₁, -⟩ := forall₂_append_left h.moves
  have hapart := h.apart
  rw [List.zip_append h₁.length_eq] at hapart
  exact ⟨e₁', e₂', rfl, h₁, (List.isChain_append.1 hapart).1⟩

/-- Lexemes that are moved are moved part by part. -/
theorem Moved.split (h : Moved ρ (e₁ ++ e₂) e') (hproper : ∀ x ∈ e₂, x.Proper)
    (ht : Meets e' t t') : ∃ e₁' e₂', e' = e₁' ++ e₂' ∧ Moved ρ e₁ e₁' ∧ Moved ρ e₂ e₂' ∧
      Meets e₁' (chars e₂ ++ t) (chars e₂' ++ t') ∧ Meets e₂' t t' := by
  obtain ⟨e₁', e₂', rfl, h₁, h₂⟩ := forall₂_append_left h.moves
  have hapart := h.apart
  rw [List.zip_append h₁.length_eq] at hapart
  obtain ⟨hapart₁, hapart₂, hjoin⟩ := List.isChain_append.1 hapart
  refine ⟨e₁', e₂', rfl, ⟨h₁, hapart₁⟩, ⟨h₂, hapart₂⟩, ?_, ⟨ht.opens, ht.nil, fun x hx => ?_⟩⟩
  · cases e₂ with
    | nil =>
      cases h₂
      rw [List.append_nil] at ht
      exact ht
    | cons y e₂ =>
      have hy := hproper y List.mem_cons_self
      have hm : Moved ρ (y :: e₂) e₂' := ⟨h₂, hapart₂⟩
      refine ⟨.inr (hm.opens hy t'), fun hnil => ?_, fun x' hx' hgap _ => ?_⟩
      · obtain ⟨c, u, hu, -⟩ := hy.opens
        rw [chars_cons, hu] at hnil
        cases hnil
      · obtain ⟨x, hx⟩ := exists_getLast h₁ hx'
        obtain ⟨y', e₂', hyy', -, rfl⟩ := List.forall₂_cons_left_iff.1 h₂
        refine (hm.head hy (fun hl => hjoin _ hx (y, y') rfl hgap ?_) t t').symm
        rw [hyy'.kind]
        exact hl
  · refine ht.head x ?_
    rw [List.getLast?_append, hx]
    rfl

end Moved

/-! ## Readers that go by rules -/

/-- Any two texts. -/
def Anyway (_ _ : List Char) : Prop := True

variable {α β : Type} {ρ : String → String} {R R₁ R₂ : Rule} {r r' r₁ r₁' : Reader α}
  {k k' : α → Reader β} {V : α → α → Prop} {W : β → β → Prop}
  {H H₁ H₂ : List Char → List Char → Prop}
  {s t : List Char} {a : α} {e : List Lexeme}

/-- What is read of the lexemes `e` is read by `r'` when they have been moved, as long as what comes
after them may do so. -/
structure Tracked (ρ : String → String) (r' : Reader α) (V : α → α → Prop)
    (H : List Char → List Char → Prop) (s : List Char) (a : α) (e : List Lexeme) (t : List Char) :
    Prop where
  text : s = chars e ++ t
  proper : ∀ x ∈ e, x.Proper
  total : ∃ a', V a a'
  moves : ∀ {e' t'}, Moved ρ e e' → Meets e' t t' → H t t' →
    ∃ a', r' (chars e' ++ t') = some (a', t') ∧ V a a'

/-- `r` reads what the rule takes, and `r'` reads what `r` has read when that has been moved. -/
def Tracks (ρ : String → String) (R : Rule) (r r' : Reader α) (V : α → α → Prop)
    (H : List Char → List Char → Prop) : Prop :=
  ∀ s, r s = none ∧ R.read s = none ∨
    ∃ a e t, r s = some (a, t) ∧ R.read s = some (e, t) ∧ Tracked ρ r' V H s a e t

namespace Tracks

theorem tracked (h : Tracks ρ R r r' V H) (hr : r s = some (a, t)) (hR : R.read s = some (e, t)) :
    Tracked ρ r' V H s a e t := by
  rcases h s with ⟨hnone, -⟩ | ⟨b, f, u, hb, hf, htracked⟩
  · cases hnone.symm.trans hr
  · cases hb.symm.trans hr
    cases hf.symm.trans hR
    exact htracked

theorem mono {V' : α → α → Prop} (h : Tracks ρ R r r' V H₁) (hV : ∀ a a', V a a' → V' a a')
    (hH : ∀ t t', H t t' → H₁ t t') : Tracks ρ R r r' V' H := by
  intro s
  rcases h s with hnone | ⟨a, e, t, hr, hR, hs⟩
  · exact .inl hnone
  · refine .inr ⟨a, e, t, hr, hR, hs.text, hs.proper, hs.total.imp fun _ => hV a _, ?_⟩
    intro e' t' he' ht' hH'
    obtain ⟨a', hr', hV'⟩ := hs.moves he' ht' (hH t t' hH')
    exact ⟨a', hr', hV a a' hV'⟩

/-- What comes next takes up where the first has ended. -/
theorem bindWith (h₁ : Tracks ρ R₁ r r' V H₁) (h₂ : ∀ a a', V a a' → Tracks ρ R₂ (k a) (k' a') W H₂)
    (hH : ∀ u e e' t t', R₂.read u = some (e, t) → u = chars e ++ t → (∀ x ∈ e, x.Proper) →
      Moved ρ e e' → H₂ t t' → H₁ u (chars e' ++ t')) :
    Tracks ρ (.seq R₁ R₂) (r >>= k) (r' >>= k') W H₂ := by
  intro s
  rcases h₁ s with ⟨hr, hR⟩ | ⟨a, e₁, u, hr, hR, hs⟩
  · exact .inl ⟨bind_of_none hr k, bind_of_none hR _⟩
  obtain ⟨a₀, hV⟩ := hs.total
  rw [bind_run hr]
  rcases h₂ a a₀ hV u with ⟨hk, hR₂⟩ | ⟨b, e₂, t, hk, hR₂, hu⟩
  · refine .inl ⟨hk, ?_⟩
    rw [Rule.read, bind_run hR]
    exact bind_of_none hR₂ _
  refine .inr ⟨b, e₁ ++ e₂, t, hk, Rule.read_seq_eq_some.2 ⟨e₁, e₂, u, rfl, hR, hR₂⟩, ?_, ?_,
    hu.total, ?_⟩
  · rw [hs.text, hu.text, chars_append, List.append_assoc]
  · exact fun x hx => (List.mem_append.1 hx).elim (hs.proper x) (hu.proper x)
  · intro e' t' he' ht' hH'
    obtain ⟨e₁', e₂', rfl, hm₁, hm₂, hmeets₁, hmeets₂⟩ := he'.split hu.proper ht'
    rw [← hu.text] at hmeets₁
    obtain ⟨a', hr', hV'⟩ := hs.moves hm₁ hmeets₁ (hH u e₂ e₂' t t' hR₂ hu.text hu.proper hm₂ hH')
    obtain ⟨b', hk', hW⟩ := ((h₂ a a' hV').tracked hk hR₂).moves hm₂ hmeets₂ hH'
    refine ⟨b', ?_, hW⟩
    rw [chars_append, List.append_assoc, bind_run hr', hk']

theorem bind (h₁ : Tracks ρ R₁ r r' V Anyway)
    (h₂ : ∀ a a', V a a' → Tracks ρ R₂ (k a) (k' a') W H) :
    Tracks ρ (.seq R₁ R₂) (r >>= k) (r' >>= k') W H :=
  h₁.bindWith h₂ fun _ _ _ _ _ _ _ _ _ _ => trivial

theorem bindEq (h₁ : Tracks ρ R₁ r r' Eq Anyway) (h₂ : ∀ a, Tracks ρ R₂ (k a) (k' a) W H) :
    Tracks ρ (.seq R₁ R₂) (r >>= k) (r' >>= k') W H :=
  h₁.bind fun a _ ha => ha ▸ h₂ a

/-- What comes next, where nothing has been read but words. -/
theorem next {r r' : Reader Unit} {k k' : Unit → Reader β} (h₁ : Tracks ρ R₁ r r' Eq Anyway)
    (h₂ : Tracks ρ R₂ (k ()) (k' ()) W H) : Tracks ρ (.seq R₁ R₂) (r >>= k) (r' >>= k') W H :=
  h₁.bind fun _ _ _ => h₂

theorem map {f f' : α → β} (h : Tracks ρ R r r' V H) (hf : ∀ a a', V a a' → W (f a) (f' a')) :
    Tracks ρ R (r >>= fun a => pure (f a)) (r' >>= fun a => pure (f' a)) W H := by
  intro s
  rcases h s with ⟨hr, hR⟩ | ⟨a, e, t, hr, hR, hs⟩
  · exact .inl ⟨bind_of_none hr _, hR⟩
  refine .inr ⟨f a, e, t, by rw [bind_run hr, pure_run], hR, hs.text, hs.proper, ?_, ?_⟩
  · obtain ⟨a', hV⟩ := hs.total
    exact ⟨f' a', hf a a' hV⟩
  · intro e' t' he' ht' hH'
    obtain ⟨a', hr', hV⟩ := hs.moves he' ht' hH'
    exact ⟨f' a', by rw [bind_run hr', pure_run], hf a a' hV⟩

theorem mapEq {f f' : α → β} (h : Tracks ρ R r r' Eq H) (hf : ∀ a, W (f a) (f' a)) :
    Tracks ρ R (r >>= fun a => pure (f a)) (r' >>= fun a => pure (f' a)) W H :=
  h.map fun a _ ha => ha ▸ hf a

theorem fmap {f f' : α → β} (h : Tracks ρ R r r' V H) (hf : ∀ a a', V a a' → W (f a) (f' a')) :
    Tracks ρ R (f <$> r) (f' <$> r') W H := by
  rw [map_eq_pure_bind, map_eq_pure_bind]
  exact h.map hf

/-- Places do not matter. -/
theorem left {k k' : Nat → Reader β} (h : ∀ n n', Tracks ρ R (k n) (k' n') W H) :
    Tracks ρ R (left >>= k) (left >>= k') W H := by
  intro s
  have hleft (k : Nat → Reader β) (s : List Char) : (Reader.left >>= k) s = k s.length s :=
    bind_run (r := Reader.left) rfl
  rw [hleft]
  rcases h s.length 0 s with hnone | ⟨a, e, t, hr, hR, hs⟩
  · exact .inl hnone
  refine .inr ⟨a, e, t, hr, hR, hs.text, hs.proper, hs.total, fun {e' t'} he' ht' hH' => ?_⟩
  rw [hleft]
  exact ((h s.length _).tracked hr hR).moves he' ht' hH'

/-- An alternative that fails still fails. -/
theorem orOf (h : Tracks ρ R r r' V H) (h₁ : Tracks ρ R₁ r₁ r₁' V H)
    (hfail : ∀ s e t e' t', r s = none → R₁.read s = some (e, t) → s = chars e ++ t →
      (∀ x ∈ e, x.Proper) → Moved ρ e e' → r' (chars e' ++ t') = none) :
    Tracks ρ (.alt R R₁) (r <|> r₁) (r' <|> r₁') V H := by
  intro s
  rw [orElse_run, Rule.read_alt_run]
  rcases h s with ⟨hr, hR⟩ | ⟨a, e, t, hr, hR, hs⟩
  · rw [hr, hR, Option.none_or, Option.none_or]
    rcases h₁ s with hnone | ⟨a, e, t, hr₁, hR₁, hs⟩
    · exact .inl hnone
    refine .inr ⟨a, e, t, hr₁, hR₁, hs.text, hs.proper, hs.total, fun {e' t'} he' ht' hH' => ?_⟩
    rw [orElse_run, hfail s e t e' t' hr hR₁ hs.text hs.proper he', Option.none_or]
    exact hs.moves he' ht' hH'
  · refine .inr ⟨a, e, t, by rw [hr]; rfl, by rw [hR]; rfl, hs.text, hs.proper, hs.total,
      fun {e' t'} he' ht' hH' => ?_⟩
    obtain ⟨a', hr', hV⟩ := hs.moves he' ht' hH'
    exact ⟨a', by rw [orElse_run, hr']; rfl, hV⟩

/-! ### Repetition -/

/-- What a repetition has read of the lexemes `es`, and what becomes of it when they are moved. -/
structure Repeated (ρ : String → String) (r r' : Reader α) (V : α → α → Prop)
    (H : List Char → List Char → Prop) (bound : Nat) (s : List Char) (as : List α)
    (es : List (List Lexeme)) (t : List Char) : Prop where
  text : s = chars es.flatten ++ t
  proper : ∀ x ∈ es.flatten, x.Proper
  total : ∃ as', List.Forall₂ V as as'
  joins : ∀ {e' t'}, Moved ρ es.flatten e' → H t t' → H s (chars e' ++ t')
  moves : s.length ≤ bound → ∀ {e' t'}, Moved ρ es.flatten e' → Meets e' t t' → H t t' →
    (r t = none → r' t' = none) → ∃ as', Runs r' (chars e' ++ t') as' t' ∧ List.Forall₂ V as as'

theorem Repeated.nil {bound : Nat} (h : s.length ≤ bound → r s = none) :
    Repeated ρ r r' V H bound s [] [] s where
  text := rfl
  proper := nofun
  total := ⟨[], .nil⟩
  joins he' hH := by
    obtain rfl := List.forall₂_nil_left_iff.1 he'.moves
    exact hH
  moves hlen e' t' he' _ _ hstop := by
    obtain rfl := List.forall₂_nil_left_iff.1 he'.moves
    exact ⟨[], .nil (hstop (h hlen)), .nil⟩

theorem Repeated.cons {bound : Nat} {u : List Char} {as : List α} {es : List (List Lexeme)}
    (hs : Tracked ρ r' V H s a e u) (hne : chars e ≠ [])
    (hnext : ∀ e' t', Moved ρ e e' → H s (chars e' ++ t'))
    (h : Repeated ρ r r' V H bound u as es t) :
    Repeated ρ r r' V H (bound + 1) s (a :: as) (e :: es) t where
  text := by rw [List.flatten_cons, chars_append, List.append_assoc, ← h.text, ← hs.text]
  proper := by
    rw [List.flatten_cons]
    exact fun x hx => (List.mem_append.1 hx).elim (hs.proper x) (h.proper x)
  total := by
    obtain ⟨a', hV⟩ := hs.total
    obtain ⟨as', hall⟩ := h.total
    exact ⟨a' :: as', .cons hV hall⟩
  joins he' _ := by
    obtain ⟨e₁', e₂', rfl, hm⟩ := Moved.left he'
    rw [chars_append, List.append_assoc]
    exact hnext e₁' _ hm
  moves hlen e' t' he' ht' hH hstop := by
    obtain ⟨e₁', e₂', rfl, hm₁, hm₂, hmeets₁, hmeets₂⟩ := he'.split h.proper ht'
    rw [← h.text] at hmeets₁
    obtain ⟨a', hr', hV⟩ := hs.moves hm₁ hmeets₁ (h.joins hm₂ hH)
    have hshort : u.length ≤ bound := by
      have hlength := congrArg List.length hs.text
      have hpos := List.length_pos_iff.2 hne
      rw [List.length_append] at hlength
      omega
    obtain ⟨as', hruns, hall⟩ := h.moves hshort hm₂ hmeets₂ hH hstop
    refine ⟨a' :: as', ?_, .cons hV hall⟩
    rw [chars_append, List.append_assoc]
    have hpos := List.length_pos_iff.2 (hm₁.chars_ne_nil hs.proper hne)
    exact .cons hr' (by simp only [List.length_append]; omega) hruns

section Many

variable (h : Tracks ρ R r r' V H) (hne : ∀ s e t, R.read s = some (e, t) → e ≠ [])
  (hnext : ∀ u e t e' t', R.read u = some (e, t) → u = chars e ++ t → (∀ x ∈ e, x.Proper) →
    Moved ρ e e' → H u (chars e' ++ t'))
include h hne hnext

theorem repeated (bound : Nat) (s : List Char) : ∃ as es t, Reader.repeated r bound s = (as, t) ∧
    Reader.repeated R.read bound s = (es, t) ∧ Repeated ρ r r' V H bound s as es t := by
  induction bound generalizing s with
  | zero =>
    refine ⟨[], [], s, rfl, rfl, .nil fun hlen => ?_⟩
    obtain rfl := List.length_eq_zero_iff.1 (Nat.le_zero.1 hlen)
    rcases h [] with ⟨hr, -⟩ | ⟨a, e, t, -, hR, hs⟩
    · exact hr
    · exact absurd hs.text.symm (List.append_ne_nil_of_left_ne_nil
        (chars_ne_nil (hne _ _ _ hR) hs.proper) t)
  | succ bound ih =>
    rw [Reader.repeated, Reader.repeated]
    rcases h s with ⟨hr, hR⟩ | ⟨a, e, u, hr, hR, hs⟩
    · rw [hr, hR]
      exact ⟨[], [], s, rfl, rfl, .nil fun _ => hr⟩
    rw [hr, hR]
    dsimp only
    obtain ⟨as, es, t, hrep, hrepR, hu⟩ := ih u
    refine ⟨a :: as, e :: es, t, by rw [hrep], by rw [hrepR], .cons hs ?_ ?_ hu⟩
    · exact chars_ne_nil (hne _ _ _ hR) hs.proper
    · exact fun e' t' he' => hnext s e u e' t' hR hs.text hs.proper he'

theorem many : Tracks ρ (.many R) (many r) (many r') (List.Forall₂ V)
    fun t t' => H t t' ∧ (r t = none → r' t' = none) := by
  intro s
  obtain ⟨as, es, t, hrep, hrepR, hs⟩ := h.repeated hne hnext s.length s
  refine .inr ⟨as, es.flatten, t, congrArg some hrep, ?_, hs.text, hs.proper, hs.total, ?_⟩
  · rw [Rule.read, map_run, Reader.many, hrepR]
    rfl
  · intro e' t' he' ht' hH
    obtain ⟨as', hruns, hall⟩ := hs.moves (Nat.le_refl _) he' ht' hH.1 hH.2
    exact ⟨as', hruns.many, hall⟩

/-- One, and more of them. The first may be read by a rule of its own. -/
theorem consMany {r₀ r₀' : Reader α} (h₀ : Tracks ρ R₁ r₀ r₀' V H) :
    Tracks ρ (.seq R₁ (.many R)) (r₀ >>= fun a => Reader.many r >>= fun as => pure (a :: as))
      (r₀' >>= fun a => Reader.many r' >>= fun as => pure (a :: as)) (List.Forall₂ V)
      fun t t' => H t t' ∧ (r t = none → r' t' = none) := by
  refine h₀.bindWith (fun a a' ha => (h.many hne hnext).map fun as as' has => .cons ha has) ?_
  intro u e e' t t' hread _ _ he' hH
  obtain ⟨as, es, t₁, -, hrepR, hu⟩ := h.repeated hne hnext u.length u
  rw [Rule.read, map_run, Reader.many, hrepR] at hread
  cases hread
  exact hu.joins he' hH.1

end Many

/-- Items with commas between them, and no comma after them. -/
theorem commaList (h : Tracks ρ R r r' V Anyway)
    (hcomma : Tracks ρ (.word ",") (token ",") (token ",") Eq Anyway) :
    Tracks ρ (.commaList R) (commaList r) (commaList r') (List.Forall₂ V)
      fun _ t' => t'.head? ≠ some ',' := by
  have hitem : Tracks ρ (.row [.word ",", R]) (token "," >>= fun _ => r) (token "," >>= fun _ => r')
      V Anyway := hcomma.next h
  refine (hitem.consMany (fun s e t hread hnil => ?_) (fun _ _ _ _ _ _ _ _ _ => trivial) h).mono
    (fun _ _ => id) fun t t' ht' => ⟨trivial, fun _ => ?_⟩
  · obtain ⟨x, xs, rfl, -⟩ := Rule.exists_first (R := .row [.word ",", R]) rfl hread
    cases hnil
  · exact bind_of_none (token_eq_none (c := ',') rfl ht') _

/-- Perhaps nothing. -/
theorem optList {r r' : Reader (List α)} {V : List α → List α → Prop} (h : Tracks ρ R r r' V H)
    (hV : V [] []) : Tracks ρ (.opt R) (optList r) (optList r') V
      fun t t' => H t t' ∧ (r t = none → r' t' = none) := by
  have hrun (r : Reader (List α)) (s : List Char) : Listing.optList r s =
      some (((r s).map (·.1)).getD [], ((r s).map (·.2)).getD s) := by
    rw [Listing.optList, Reader.opt]
    cases hr : r s with
    | none =>
      refine bind_run (a := none) (u := s) ?_
      rw [orElse_run, map_run, hr]
      rfl
    | some x =>
      refine bind_run (a := some x.1) (u := x.2) ?_
      rw [orElse_run, map_run, hr]
      rfl
  intro s
  rw [Rule.opt, Rule.read_alt_run, hrun]
  rcases h s with ⟨hr, hR⟩ | ⟨a, e, t, hr, hR, hs⟩
  · rw [hr, hR]
    refine .inr ⟨[], [], s, rfl, rfl, rfl, by simp, ⟨[], hV⟩, fun {e' t'} he' _ hH => ⟨[], ?_, hV⟩⟩
    obtain rfl := List.forall₂_nil_left_iff.1 he'.moves
    rw [hrun, show chars [] ++ t' = t' from rfl, hH.2 hr]
    rfl
  · rw [hr, hR]
    refine .inr ⟨a, e, t, rfl, rfl, hs.text, hs.proper, hs.total, fun {e' t'} he' ht' hH => ?_⟩
    obtain ⟨a', hr', hV'⟩ := hs.moves he' ht' hH.1
    exact ⟨a', by rw [hrun, hr']; rfl, hV'⟩

end Tracks

/-! ## Where readers start -/

/-- Whatever `r` reads starts with a character like that. -/
def Starts (r : Reader α) (P : Char → Prop) : Prop :=
  ∀ s x, r s = some x → ∃ c u, s = c :: u ∧ P c

namespace Starts

variable {P Q : Char → Prop}

theorem bind (h : Starts r P) (k : α → Reader β) : Starts (r >>= k) P := fun s x hs => by
  obtain ⟨a, t, hr, -⟩ := bind_eq_some.1 hs
  exact h _ _ hr

theorem left {k : Nat → Reader β} (h : ∀ n, Starts (k n) P) : Starts (left >>= k) P := by
  intro s x hs
  obtain ⟨n, t, hleft, hk⟩ := bind_eq_some.1 hs
  cases hleft
  exact h _ _ _ hk

theorem map (h : Starts r P) (f : α → β) : Starts (f <$> r) P := by
  rw [map_eq_pure_bind]
  exact h.bind _

theorem or (h : Starts r P) (h₁ : Starts r₁ Q) : Starts (r <|> r₁) fun c => P c ∨ Q c :=
    fun s x hs => by
  rw [orElse_run, Option.or_eq_some_iff] at hs
  rcases hs with hs | ⟨-, hs⟩
  · obtain ⟨c, u, rfl, hc⟩ := h _ _ hs
    exact ⟨c, u, rfl, .inl hc⟩
  · obtain ⟨c, u, rfl, hc⟩ := h₁ _ _ hs
    exact ⟨c, u, rfl, .inr hc⟩

theorem mono (h : Starts r P) (hPQ : ∀ c, P c → Q c) : Starts r Q := fun s x hs => by
  obtain ⟨c, u, hu, hc⟩ := h s x hs
  exact ⟨c, u, hu, hPQ c hc⟩

theorem eq_none (h : Starts r P) {c : Char} (hs : s.head? = some c) (hc : ¬P c) : r s = none := by
  cases hr : r s with
  | none => rfl
  | some x =>
    obtain ⟨d, u, rfl, hd⟩ := h _ _ hr
    cases hs
    exact absurd hd hc

theorem token {w : String} {c : Char} (hw : w.toList.head? = some c) :
    Starts (token w) (· = c) := fun s x hs => by
  obtain ⟨t, rfl, -⟩ := token_eq_some.1 hs
  obtain ⟨u, hu⟩ := List.head?_eq_some_iff.1 hw
  exact ⟨c, u ++ t, by rw [hu]; rfl, rfl⟩

end Starts

/-- Alternatives that start differently. -/
theorem Tracks.or {P Q : Char → Prop} (h : Tracks ρ R r r' V H) (h₁ : Tracks ρ R₁ r₁ r₁' V H)
    (hr : Starts r' P) (hr₁ : Starts r₁ Q) (hR : R₁.starts = true) (hdisjoint : ∀ c, Q c → ¬P c) :
    Tracks ρ (.alt R R₁) (r <|> r₁) (r' <|> r₁') V H := by
  refine h.orOf h₁ fun s e t e' t' _ hread htext hproper he' => ?_
  obtain ⟨x, xs, rfl, hx⟩ := Rule.exists_first hR hread
  have hhead := he'.head (hproper x List.mem_cons_self) (fun hl => nomatch hx.symm.trans hl) t t'
  rw [← htext] at hhead
  rcases h₁ s with ⟨-, hnone⟩ | ⟨a, _, _, hs, -, -⟩
  · cases hnone.symm.trans hread
  obtain ⟨c, u, rfl, hc⟩ := hr₁ _ _ hs
  exact hr.eq_none hhead (hdisjoint c hc)

/-! ## Terminals -/

/-- No name and no number goes on in `u'` if none does in `u`. -/
def EndsLike (u u' : List Char) : Prop := ∀ p : Char → Bool,
  (∀ c, p c = true → isNameChar c = true) → (∀ c ∈ u.head?, p c = false) →
    ∀ c ∈ u'.head?, p c = false

/-- `r` reads the terminal, and `r'` reads what `r` has read under its new name. -/
def Spells (ρ : String → String) (k : Terminal) (r r' : Reader α) (V : α → α → Prop) : Prop :=
  ∀ s, r s = none ∧ k.body s = none ∨ ∃ a b u, r s = some (a, u) ∧ k.body s = some (b, u) ∧
    s = k.kind.text b ++ u ∧ Opens (k.kind.text b) ∧ (k.kind ≠ .plain → IsName b) ∧
    (∃ a', V a a') ∧ ∀ b' u', b' = (if k.kind = .plain then b else ρ b) →
      (k.kind ≠ .plain → IsName b') → EndsLike u u' →
        ∃ a', r' (k.kind.text b' ++ u') = some (a', u') ∧ V a a'

theorem Spells.map {k : Terminal} {f : α → β} (h : Spells ρ k r r' V)
    (hf : ∀ a a', V a a' → W (f a) (f a')) : Spells ρ k (f <$> r) (f <$> r') W := by
  intro s
  rw [map_run]
  rcases h s with ⟨hr, hk⟩ | ⟨a, b, u, hr, hk, htext, hopens, hname, ⟨a₀, hV⟩, hmoves⟩
  · exact .inl ⟨by rw [hr]; rfl, hk⟩
  refine .inr ⟨f a, b, u, by rw [hr]; rfl, hk, htext, hopens, hname, ⟨f a₀, hf a a₀ hV⟩, ?_⟩
  intro b' u' hb' hname' hu'
  obtain ⟨a', hr', hV'⟩ := hmoves b' u' hb' hname' hu'
  exact ⟨f a', by rw [map_run, hr']; rfl, hf a a' hV'⟩

/-- The layout after a terminal is taken, whatever there is of it. -/
theorem Spells.tracks {k : Terminal} (h : Spells ρ k r r' V) :
    Tracks ρ (.terminal k) (r >>= fun a => layout >>= fun _ => pure a)
      (r' >>= fun a => layout >>= fun _ => pure a) V Anyway := by
  intro s
  rcases h s with ⟨hr, hk⟩ | ⟨a, b, u, hr, hk, htext, hopens, hname, htotal, hmoves⟩
  · exact .inl ⟨bind_of_none hr _, Rule.read_terminal_eq_none.2 hk⟩
  obtain ⟨hu, hskip⟩ := gap_eq_some.1 (show gap u = some (_, skipLayout false u) from rfl)
  generalize u.take (u.length - (skipLayout false u).length) = g at hu
  generalize hst : skipLayout false u = t at hu hskip
  subst hu
  have hread : k.read s = some (⟨k.kind, b, g⟩, t) := Terminal.read_eq_some.2 ⟨_, hk, rfl, rfl, hst⟩
  refine .inr ⟨a, [⟨k.kind, b, g⟩], t, ?_, Rule.read_terminal_eq_some.2 ⟨_, rfl, hread⟩, ?_, ?_,
    htotal, ?_⟩
  · rw [bind_run hr, bind_run (show layout (g ++ t) = some ((), t) by rw [layout, hst]), pure_run]
  · rw [htext, chars_cons]
    simp [chars, Lexeme.text]
  · exact List.forall_mem_singleton.2 ⟨hopens, hname⟩
  intro e' t' he' ht' _
  obtain ⟨x', l, hx', hl, rfl⟩ := List.forall₂_cons_left_iff.1 he'.moves
  obtain rfl := List.forall₂_nil_left_iff.1 hl
  obtain ⟨ins, hins, hgap⟩ := hx'.gap
  have hlayout : skipLayout false (x'.gap ++ t') = t' := by
    rw [hgap, List.append_assoc, hins.skip]
    exact skipLayout_gap hst ht'.nil ht'.opens
  have hends : EndsLike (g ++ t) (x'.gap ++ t') := by
    intro p hp hhead
    by_cases hempty : x'.gap = []
    · obtain ⟨-, rfl⟩ := List.append_eq_nil_iff.1 (hgap ▸ hempty)
      rw [hempty, List.nil_append]
      intro c hc
      have hne : t' ≠ [] := by
        rintro rfl
        cases hc
      exact hhead c (ht'.head x' rfl hempty hne ▸ hc)
    · exact (ends_layout hempty hlayout).head hp
  obtain ⟨a', hr', hV⟩ := hmoves x'.body (x'.gap ++ t') hx'.body hx'.name hends
  refine ⟨a', ?_, hV⟩
  have htext' : chars [x'] ++ t' = k.kind.text x'.body ++ (x'.gap ++ t') := by
    rw [chars_cons, Lexeme.text, hx'.kind]
    simp [chars]
  rw [htext', bind_run hr', bind_run (show layout (x'.gap ++ t') = some ((), t') by
    rw [layout, hlayout]), pure_run]

end BoxFlow.Listing
