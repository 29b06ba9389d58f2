import BoxFlow.Proofs.Listing.Reading

/-!
# Labels that are no instructions

A label is read only where no instruction can be. Whether one can be depends on the label alone and
not on what follows its colon (`instruction_label`): readers are compared on two texts that start
with one word and go on with a colon (`Agree`), and are seen to fail on all of them (`Fails`).
-/

namespace BoxFlow.Listing

open Reader

/-- A colon comes next, after layout. -/
structure Colon (t : List Char) : Prop where
  ends : Ends t
  head : (skipLayout false t).head? = some ':'

/-- The texts start with one word and go on with a colon. -/
def Alike (s s' : List Char) : Prop :=
  ∃ l t t', (∀ c ∈ l, isNameChar c = true) ∧ Colon t ∧ Colon t' ∧ s = l ++ t ∧ s' = l ++ t'

/-- On texts that are alike both readers fail, or both leave texts that are alike. -/
def Agree {α : Type} (r r' : Reader α) : Prop := ∀ s s', Alike s s' →
  r s = none ∧ r' s' = none ∨
    ∃ a a' t t', r s = some (a, t) ∧ r' s' = some (a', t') ∧ Alike t t'

/-- The reader fails on a word with a colon after it. -/
def Fails {α : Type} (r : Reader α) : Prop := ∀ s s', Alike s s' → r s = none

theorem Alike.symm {s s' : List Char} (h : Alike s s') : Alike s' s := by
  obtain ⟨l, t, t', hl, ht, ht', rfl, rfl⟩ := h
  exact ⟨l, t', t, hl, ht', ht, rfl, rfl⟩

theorem skipLayout_skipLayout (s : List Char) :
    skipLayout false (skipLayout false s) = skipLayout false s := by
  have hopens (comment : Bool) (s : List Char) :
      skipLayout comment s = [] ∨ Opens (skipLayout comment s) := by
    fun_induction skipLayout comment s with
    | case1 => exact .inl rfl
    | case2 _ _ ih | case3 _ _ _ ih | case4 _ _ ih => exact ih
    | case5 c s hb hc => exact .inr (.cons ⟨by simpa using hb, hc⟩ s)
  rcases hopens false s with h | h
  · rw [h, skipLayout]
  · exact skipLayout_of_opens h

theorem Colon.skipLayout {t : List Char} (h : Colon t) : Colon (skipLayout false t) where
  ends := by
    rintro c hc
    rw [h.head] at hc
    cases hc
    rfl
  head := by rw [skipLayout_skipLayout, h.head]

theorem Colon.head_ne {t : List Char} (h : Colon t) {c : Char} (hc : IsSolid c) (hne : c ≠ ':') :
    t.head? ≠ some c := by
  intro hhead
  obtain ⟨u, rfl⟩ := List.head?_eq_some_iff.1 hhead
  have hcolon := h.head
  rw [skipLayout_of_opens (.cons hc u)] at hcolon
  exact hne (Option.some.inj hcolon)

section Combinators

variable {α β : Type} {r r' r₁ r₁' : Reader α} {k k' : α → Reader β}

theorem Fails.agree (h : Fails r) (h' : Fails r') : Agree r r' :=
  fun s s' hs => .inl ⟨h s s' hs, h' s' s hs.symm⟩

theorem Fails.bind (h : Fails r) (k : α → Reader β) : Fails (r >>= k) :=
  fun s s' hs => bind_of_none (h s s' hs) k

theorem Fails.map (h : Fails r) (f : α → β) : Fails (f <$> r) := by
  intro s s' hs
  rw [map_run, h s s' hs, Option.map_none]

theorem Fails.or (h : Fails r) (h₁ : Fails r₁) : Fails (r <|> r₁) := by
  intro s s' hs
  rw [orElse_run, h s s' hs, Option.none_or, h₁ s s' hs]

theorem Agree.bind (h : Agree r r') (hk : ∀ a a', Agree (k a) (k' a')) :
    Agree (r >>= k) (r' >>= k') := by
  intro s s' hs
  rcases h s s' hs with ⟨hr, hr'⟩ | ⟨a, a', t, t', hr, hr', ht⟩
  · exact .inl ⟨bind_of_none hr _, bind_of_none hr' _⟩
  · rw [bind_run hr, bind_run hr']
    exact hk a a' t t' ht

/-- What comes after a reader that goes the same way may fail. -/
theorem Agree.fails (h : Agree r r') (hk : ∀ a, Fails (k a)) : Fails (r >>= k) := by
  intro s s' hs
  rcases h s s' hs with ⟨hr, -⟩ | ⟨a, a', t, t', hr, -, ht⟩
  · exact bind_of_none hr _
  · rw [bind_run hr]
    exact hk a t t' ht

theorem Agree.pure (a a' : α) : Agree (Pure.pure a : Reader α) (Pure.pure a') :=
  fun s s' hs => .inr ⟨a, a', s, s', rfl, rfl, hs⟩

theorem Agree.map (h : Agree r r') (f : α → β) : Agree (f <$> r) (f <$> r') := by
  rw [map_eq_pure_bind, map_eq_pure_bind]
  exact h.bind fun _ _ => .pure _ _

theorem Agree.or (h : Agree r r') (h₁ : Agree r₁ r₁') : Agree (r <|> r₁) (r' <|> r₁') := by
  intro s s' hs
  rw [orElse_run, orElse_run]
  rcases h s s' hs with ⟨hr, hr'⟩ | ⟨a, a', t, t', hr, hr', ht⟩
  · rw [hr, hr']
    exact h₁ s s' hs
  · rw [hr, hr']
    exact .inr ⟨a, a', t, t', rfl, rfl, ht⟩

theorem agree_left : Agree left left := fun s s' hs => .inr ⟨_, _, s, s', rfl, rfl, hs⟩

end Combinators

/-! ## Tokens -/

theorem agree_layout : Agree layout layout := by
  rintro _ _ ⟨l, t, t', hl, ht, ht', rfl, rfl⟩
  refine .inr ⟨(), (), _, _, rfl, rfl, ?_⟩
  cases l with
  | nil => exact ⟨[], _, _, by simp, ht.skipLayout, ht'.skipLayout, rfl, rfl⟩
  | cons c l =>
    have hc := isSolid_of_isNameChar (hl c List.mem_cons_self)
    rw [skipLayout_of_opens ((Opens.cons hc l).append t),
      skipLayout_of_opens ((Opens.cons hc l).append t')]
    exact ⟨c :: l, t, t', hl, ht, ht', rfl, rfl⟩

/-- A word made of the characters of names is found within the word at the front, or not at all. -/
theorem agree_word {w : String} (hw : w.toList.all isNameChar = true) :
    Agree (word w) (word w) := by
  have hprefix {l t : List Char} (hends : Ends t) :
      w.toList <+: l ++ t ↔ w.toList <+: l := by
    refine ⟨fun h => ?_, fun h => h.trans (List.prefix_append ..)⟩
    rcases Nat.le_total w.toList.length l.length with hle | hle
    · exact List.prefix_of_prefix_length_le h (List.prefix_append ..) hle
    · obtain ⟨u, hu⟩ := List.prefix_of_prefix_length_le (List.prefix_append l t) h hle
      cases u with
      | nil => exact ⟨[], by rw [← hu, List.append_nil, List.append_nil]⟩
      | cons c u =>
        rw [← hu, List.prefix_append_right_inj] at h
        obtain ⟨v, rfl⟩ := h
        have hname := List.all_eq_true.1 hw c (hu ▸ by simp)
        rw [hends c rfl] at hname
        cases hname
  rintro _ _ ⟨l, t, t', hl, ht, ht', rfl, rfl⟩
  by_cases h : w.toList <+: l
  · obtain ⟨u, rfl⟩ := h
    refine .inr ⟨(), (), u ++ t, u ++ t', ?_, ?_, u, t, t', fun c hc => hl c (by simp [hc]), ht, ht',
      rfl, rfl⟩
    · rw [List.append_assoc, word_append]
    · rw [List.append_assoc, word_append]
  · have hnone {t : List Char} (hends : Ends t) : word w (l ++ t) = none := by
      rw [word, if_neg (by rwa [List.isPrefixOf_iff_prefix, hprefix hends])]
    exact .inl ⟨hnone ht.ends, hnone ht'.ends⟩

theorem agree_token {w : String} (hw : w.toList.all isNameChar = true) :
    Agree (token w) (token w) :=
  (agree_word hw).bind fun _ _ => agree_layout

/-- A word that starts with another solid character is not found. -/
theorem fails_word {w : String} {c : Char} (hw : w.toList.head? = some c) (hsolid : IsSolid c)
    (hne : c ≠ ':') (hname : isNameChar c = false) : Fails (word w) := by
  rintro _ _ ⟨l, t, t', hl, ht, -, rfl, -⟩
  refine word_eq_none hw ?_
  cases l with
  | nil => exact ht.head_ne hsolid hne
  | cons d l =>
    rintro ⟨⟩
    rw [hl c List.mem_cons_self] at hname
    cases hname

theorem fails_localName : Fails localName :=
  (fails_word (c := '%') rfl (by decide) (by decide) rfl).bind _

theorem fails_globalName : Fails globalName :=
  (fails_word (c := '@') rfl (by decide) (by decide) rfl).bind _

theorem fails_comma : Fails (token ",") :=
  (fails_word (c := ',') rfl (by decide) (by decide) rfl).bind _

/-- A class of characters of names is left within the word at the front. -/
theorem takeWhile_dropWhile_word {q : Char → Bool} (hq : ∀ c, q c = true → isNameChar c = true)
    (l : List Char) {t : List Char} (ht : Ends t) :
    (l ++ t).takeWhile q = l.takeWhile q ∧ (l ++ t).dropWhile q = l.dropWhile q ++ t := by
  induction l with
  | nil =>
    cases t with
    | nil => simp
    | cons c t => simp [ht.head hq c rfl]
  | cons c l ih =>
    cases hc : q c with
    | false => simp [hc]
    | true => simp [hc, ih]

theorem agree_type : Agree type type := by
  rintro _ _ ⟨l, t, t', hl, ht, ht', rfl, rfl⟩
  unfold type
  obtain ⟨htake, hdrop⟩ := takeWhile_dropWhile_word isNameChar_of_isWordChar l ht.ends
  obtain ⟨htake', hdrop'⟩ := takeWhile_dropWhile_word isNameChar_of_isWordChar l ht'.ends
  rw [htake, hdrop, htake', hdrop']
  cases Ty.ofName? (String.ofList (l.takeWhile isWordChar)) with
  | none => exact .inl ⟨rfl, rfl⟩
  | some ty =>
    exact .inr ⟨ty, ty, _, _, rfl, rfl, _, t, t',
      fun c hc => hl c ((List.dropWhile_sublist _).mem hc), ht, ht', rfl, rfl⟩

theorem agree_typeToken : Agree typeToken typeToken :=
  agree_type.bind fun _ _ => agree_layout.bind fun _ _ => .pure _ _

theorem agree_digits : Agree (run Char.isDigit) (run Char.isDigit) := by
  rintro _ _ ⟨l, t, t', hl, ht, ht', rfl, rfl⟩
  unfold run
  obtain ⟨htake, hdrop⟩ := takeWhile_dropWhile_word isNameChar_of_isDigit l ht.ends
  obtain ⟨htake', hdrop'⟩ := takeWhile_dropWhile_word isNameChar_of_isDigit l ht'.ends
  rw [htake, hdrop, htake', hdrop']
  cases l.takeWhile Char.isDigit with
  | nil => exact .inl ⟨rfl, rfl⟩
  | cons d ds =>
    exact .inr ⟨_, _, _, _, rfl, rfl, _, t, t',
      fun c hc => hl c ((List.dropWhile_sublist _).mem hc), ht, ht', rfl, rfl⟩

theorem agree_integer : Agree integer integer := by
  have hsign : Agree (opt (word "-")) (opt (word "-")) :=
    ((agree_word (by decide)).map _).or (.pure _ _)
  exact hsign.bind fun _ _ => agree_digits.bind fun _ _ => .pure _ _

theorem agree_typedOperand : Agree typedOperand typedOperand := by
  have hoperand : Agree operand operand := by
    have hlocal := fails_localName.map Operand.named
    have hglobal := fails_globalName.map Operand.global
    exact ((hlocal.agree hlocal).or ((hglobal.agree hglobal).or agree_integer)).bind fun _ _ =>
      agree_layout.bind fun _ _ => .pure _ _
  exact agree_type.bind fun _ _ => agree_layout.bind fun _ _ => hoperand.bind fun _ _ => .pure _ _

/-! ## Instructions -/

theorem fails_localToken : Fails localToken := fails_localName.bind _

theorem fails_assignment : Fails assignment := fails_localToken.bind _

theorem fails_storeInst : Fails storeInst :=
  agree_left.fails fun _ => (agree_token (by decide)).fails fun _ =>
    agree_typedOperand.fails fun _ => fails_comma.bind _

theorem fails_callInst : Fails callInst :=
  agree_left.fails fun _ => (agree_token (by decide)).fails fun _ =>
    agree_typeToken.fails fun _ => (fails_globalName.bind _).bind _

theorem fails_brInst : Fails brInst := by
  have hcond : Fails condBranch := agree_typedOperand.fails fun _ => fails_comma.bind _
  have hlabel : Fails labelRef := (agree_token (by decide)).fails fun _ => fails_localToken
  exact agree_left.fails fun _ => (agree_token (by decide)).fails fun _ =>
    (hcond.or (hlabel.map _)).bind _

theorem agree_retInst : Agree retInst retInst :=
  agree_left.bind fun _ _ => (agree_token (by decide)).bind fun _ _ =>
    (((agree_token (by decide)).map _).or (agree_typedOperand.map _)).bind fun _ _ => .pure _ _

theorem agree_unreachableInst : Agree unreachableInst unreachableInst :=
  agree_left.bind fun _ _ => (agree_token (by decide)).bind fun _ _ => .pure _ _

theorem agree_instruction : Agree instruction instruction :=
  (fails_assignment.agree fails_assignment).or
    ((fails_storeInst.agree fails_storeInst).or ((fails_callInst.agree fails_callInst).or
      ((fails_brInst.agree fails_brInst).or (agree_retInst.or agree_unreachableInst))))

/-- Whether a word is the start of an instruction does not depend on what follows its colon. -/
theorem instruction_label {l t t' : List Char} (hl : ∀ c ∈ l, isNameChar c = true) (ht : Colon t)
    (ht' : Colon t') : instruction (l ++ t) = none ↔ instruction (l ++ t') = none := by
  rcases agree_instruction _ _ ⟨l, t, t', hl, ht, ht', rfl, rfl⟩ with ⟨h, h'⟩ | ⟨_, _, _, _, h, h', -⟩
  · simp [h, h']
  · simp [h, h']

end BoxFlow.Listing
