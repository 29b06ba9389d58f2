import BoxFlow.Proofs.Listing.Tracks
import BoxFlow.Proofs.Listing.Written

/-!
# Rules that keep their way

Every rule of the grammar reads what it has read before when lexemes have been moved: first the
terminals, then the rules one by one.
-/

namespace BoxFlow.Listing

open Reader

variable {ρ : String → String}

/-! ## Terminals -/

theorem labelName_eq_some_iff {s u : List Char} {n : String} :
    labelName s = some (n, u) ↔ s = n.toList ++ u ∧ IsName n ∧ Ends u := by
  constructor
  · intro h
    rw [labelName, map_run, Option.map_eq_some_iff] at h
    obtain ⟨x, hx, heq⟩ := h
    cases heq
    obtain ⟨htext, hne, hall, hends⟩ := run_eq_some hx
    rw [IsName, String.toList_ofList]
    exact ⟨htext, ⟨hne, hall⟩, hends⟩
  · rintro ⟨rfl, hn, hends⟩
    exact labelName_append hn hends

theorem EndsLike.ends {u u' : List Char} (h : EndsLike u u') (hu : Ends u) : Ends u' :=
  h isNameChar (fun _ => id) hu

theorem IsName.opens {n : String} (h : IsName n) : Opens n.toList := by
  obtain ⟨c, u, hu⟩ := List.exists_cons_of_ne_nil h.1
  exact ⟨c, u, hu, isSolid_of_isNameChar (h.2 c (hu ▸ List.mem_cons_self))⟩

theorem spells_word {w : String} (hw : Opens w.toList) :
    Spells ρ (.word w) (word w) (word w) Eq := by
  intro s
  cases h : word w s with
  | none => exact .inl ⟨rfl, bind_of_none h _⟩
  | some x =>
    obtain ⟨⟨⟩, u⟩ := x
    refine .inr ⟨(), w, u, rfl, by rw [Terminal.body, bind_run h]; rfl, word_eq_some.1 h, hw,
      fun h => absurd rfl h, ⟨_, rfl⟩, ?_⟩
    intro b' u' hb' _ _
    obtain rfl : b' = w := hb'
    exact ⟨(), word_append b' u', rfl⟩

theorem type_eq_some_iff {s u : List Char} {ty : Ty} :
    type s = some (ty, u) ↔ s = ty.name.toList ++ u ∧ ∀ c ∈ u.head?, isWordChar c = false := by
  constructor
  · intro h
    rw [type, Option.map_eq_some_iff] at h
    obtain ⟨ty', hty, heq⟩ := h
    obtain ⟨rfl, rfl⟩ := Prod.mk.inj heq
    rw [← Ty.ofName?_eq_some_iff.1 hty, String.toList_ofList]
    refine ⟨List.takeWhile_append_dropWhile.symm, fun c hc => ?_⟩
    have hstop := List.head?_dropWhile_not isWordChar s
    rw [hc] at hstop
    simpa using hstop
  · rintro ⟨rfl, hu⟩
    have hall : ∀ c ∈ ty.name.toList, isWordChar c = true :=
      List.all_eq_true.1 (by cases ty <;> rfl)
    obtain ⟨htake, hdrop⟩ := takeWhile_dropWhile_append hall hu
    rw [type, htake, hdrop, String.ofList_toList, Ty.ofName?_eq_some_iff.2 rfl]
    rfl

theorem spells_type : Spells ρ .type type type Eq := by
  intro s
  cases h : type s with
  | none => exact .inl ⟨rfl, by rw [Terminal.body, map_run, h]; rfl⟩
  | some x =>
    obtain ⟨ty, u⟩ := x
    obtain ⟨hs, hu⟩ := type_eq_some_iff.1 h
    refine .inr ⟨ty, ty.name, u, rfl, by rw [Terminal.body, map_run, h]; rfl, hs, ?_,
      fun h => absurd rfl h, ⟨_, rfl⟩, ?_⟩
    · cases ty <;> decide
    · intro b' u' hb' _ hends
      obtain rfl : b' = ty.name := hb'
      exact ⟨ty, type_eq_some_iff.2 ⟨rfl, hends isWordChar isNameChar_of_isWordChar hu⟩, rfl⟩

theorem spells_localName : Spells ρ .localName localName localName Eq := by
  intro s
  cases h : localName s with
  | none => exact .inl ⟨rfl, by rw [Terminal.body, map_run, h]; rfl⟩
  | some x =>
    obtain ⟨n, u⟩ := x
    obtain ⟨⟨⟩, t, hw, hn⟩ := bind_eq_some.1 h
    obtain ⟨rfl, hname, hu⟩ := labelName_eq_some_iff.1 hn
    obtain rfl := word_eq_some.1 hw
    refine .inr ⟨n, "%" ++ n, u, rfl, by rw [Terminal.body, map_run, h]; rfl, ?_, ?_,
      fun h => absurd rfl h, ⟨_, rfl⟩, ?_⟩
    · simp [Terminal.kind, Lexeme.Kind.text]
    · exact ⟨'%', n.toList, by simp [Terminal.kind, Lexeme.Kind.text], by decide⟩
    · intro b' u' hb' _ hends
      obtain rfl : b' = "%" ++ n := hb'
      refine ⟨n, ?_, rfl⟩
      have := localName_append hname (hends.ends hu)
      simpa [Terminal.kind, Lexeme.Kind.text] using this

theorem spells_globalName : Spells ρ .globalName globalName globalName Eq := by
  intro s
  cases h : globalName s with
  | none => exact .inl ⟨rfl, by rw [Terminal.body, map_run, h]; rfl⟩
  | some x =>
    obtain ⟨n, u⟩ := x
    obtain ⟨⟨⟩, t, hw, hn⟩ := bind_eq_some.1 h
    obtain ⟨rfl, hname, hu⟩ := labelName_eq_some_iff.1 hn
    obtain rfl := word_eq_some.1 hw
    refine .inr ⟨n, "@" ++ n, u, rfl, by rw [Terminal.body, map_run, h]; rfl, ?_, ?_,
      fun h => absurd rfl h, ⟨_, rfl⟩, ?_⟩
    · simp [Terminal.kind, Lexeme.Kind.text]
    · exact ⟨'@', n.toList, by simp [Terminal.kind, Lexeme.Kind.text], by decide⟩
    · intro b' u' hb' _ hends
      obtain rfl : b' = "@" ++ n := hb'
      refine ⟨n, ?_, rfl⟩
      have := globalName_append hname (hends.ends hu)
      simpa [Terminal.kind, Lexeme.Kind.text] using this

/-- A mention of a label. -/
theorem spells_target : Spells ρ .target localName localName fun n n' => n' = ρ n := by
  intro s
  cases h : localName s with
  | none => exact .inl ⟨rfl, h⟩
  | some x =>
    obtain ⟨n, u⟩ := x
    obtain ⟨⟨⟩, t, hw, hn⟩ := bind_eq_some.1 h
    obtain ⟨rfl, hname, hu⟩ := labelName_eq_some_iff.1 hn
    obtain rfl := word_eq_some.1 hw
    refine .inr ⟨n, n, u, rfl, h, rfl, .cons (by decide) _, fun _ => hname, ⟨_, rfl⟩, ?_⟩
    rintro _ u' rfl hname' hends
    exact ⟨ρ n, localName_append (hname' nofun) (hends.ends hu), rfl⟩

/-- The definition of a label. -/
theorem spells_label (entry : Bool) : Spells ρ (.label entry)
    (labelName >>= fun n => word ":" >>= fun _ => pure n)
    (labelName >>= fun n => word ":" >>= fun _ => pure n) fun n n' => n' = ρ n := by
  intro s
  cases h : (labelName >>= fun n => word ":" >>= fun _ => pure n) s with
  | none => exact .inl ⟨rfl, h⟩
  | some x =>
    obtain ⟨n, u⟩ := x
    obtain ⟨_, t, hn, hrest⟩ := bind_eq_some.1 h
    obtain ⟨⟨⟩, v, hw, hpure⟩ := bind_eq_some.1 hrest
    cases hpure
    obtain ⟨rfl, hname, hu⟩ := labelName_eq_some_iff.1 hn
    obtain rfl := word_eq_some.1 hw
    refine .inr ⟨n, n, u, rfl, h, ?_, hname.opens.append _, fun _ => hname, ⟨_, rfl⟩, ?_⟩
    · simp [Terminal.kind, Lexeme.Kind.text]
    · intro b' u' hb' hname' _
      obtain rfl : b' = ρ n := hb'
      refine ⟨ρ n, ?_, rfl⟩
      have hlabel := labelName_append (hname' nofun) (ends_cons (c := ':') rfl u')
      show (labelName >>= _) ((ρ n).toList ++ [':'] ++ u') = _
      rw [List.append_assoc, List.singleton_append, bind_run hlabel]
      exact bind_run (word_append ":" u')

/-- An integer as it is written. -/
def signed (negative : Bool) (digits : List Char) : List Char :=
  (if negative then ['-'] else []) ++ digits

theorem sign_eq_some {s t : List Char} {sign : Option Unit}
    (h : opt (word "-") s = some (sign, t)) :
    s = signed sign.isSome t ∧ (sign = none → t.head? ≠ some '-') := by
  rw [opt, orElse_run, map_run] at h
  cases hw : word "-" s with
  | some x =>
    obtain ⟨⟨⟩, u⟩ := x
    rw [hw] at h
    cases h
    exact ⟨word_eq_some.1 hw, by simp⟩
  | none =>
    rw [hw] at h
    cases h
    refine ⟨rfl, fun _ hhead => ?_⟩
    obtain ⟨u, rfl⟩ := List.head?_eq_some_iff.1 hhead
    rw [show '-' :: u = "-".toList ++ u from rfl, word_append] at hw
    cases hw

theorem sign_append (negative : Bool) {t : List Char} (ht : t.head? ≠ some '-') :
    opt (word "-") (signed negative t) = some (if negative then some () else none, t) := by
  rw [opt, orElse_run, map_run]
  cases negative with
  | true =>
    rw [show signed true t = "-".toList ++ t from rfl, word_append]
    rfl
  | false =>
    rw [show signed false t = t from rfl, word_eq_none rfl ht]
    rfl

theorem head_ne_of_digits {digits : List Char} (hne : digits ≠ [])
    (h : ∀ c ∈ digits, c.isDigit = true) (u : List Char) : (digits ++ u).head? ≠ some '-' := by
  obtain ⟨c, cs, rfl⟩ := List.exists_cons_of_ne_nil hne
  rintro ⟨⟩
  cases h '-' List.mem_cons_self

theorem spells_integer : Spells ρ .integer integer integer Eq := by
  intro s
  cases h : integer s with
  | none =>
    refine .inl ⟨rfl, bind_eq_none.2 fun sign t hsign => ?_⟩
    have hdigits : run Char.isDigit t = none := by
      cases hrun : run Char.isDigit t with
      | none => rfl
      | some x =>
        have := bind_eq_none.1 h sign t hsign
        rw [bind_run hrun] at this
        cases this
    exact bind_of_none hdigits _
  | some x =>
    obtain ⟨v, u⟩ := x
    obtain ⟨sign, t, hsign, hrest⟩ := bind_eq_some.1 h
    obtain ⟨digits, w, hdigits, hpure⟩ := bind_eq_some.1 hrest
    cases hpure
    obtain ⟨rfl, hnone⟩ := sign_eq_some hsign
    obtain ⟨rfl, hne, hall, hends⟩ := run_eq_some hdigits
    have htext : ((if sign.isSome then "-" else "") ++ String.ofList digits).toList =
        signed sign.isSome digits := by
      rw [String.toList_append, String.toList_ofList, signed]
      cases sign <;> simp
    refine .inr ⟨_, (if sign.isSome then "-" else "") ++ String.ofList digits, u, rfl, ?_, ?_, ?_,
      fun h => absurd rfl h, ⟨_, rfl⟩, ?_⟩
    · rw [Terminal.body, bind_run hsign, bind_run hdigits]
      rfl
    · show _ = String.toList _ ++ u
      rw [htext, signed, signed, List.append_assoc]
    · show Opens (String.toList _)
      rw [htext]
      obtain ⟨c, cs, rfl⟩ := List.exists_cons_of_ne_nil hne
      cases sign with
      | some _ => exact .cons (by decide) _
      | none => exact .cons (isSolid_of_isNameChar
          (isNameChar_of_isDigit c (hall c List.mem_cons_self))) _
    · intro b' u' hb' _ hlike
      refine ⟨_, ?_, rfl⟩
      obtain rfl : b' = (if sign.isSome then "-" else "") ++ String.ofList digits := hb'
      show integer (String.toList _ ++ u') = _
      rw [htext, signed, List.append_assoc, ← signed, integer,
        bind_run (sign_append sign.isSome (head_ne_of_digits hne hall u')),
        bind_run (run_append hne hall (hlike _ isNameChar_of_isDigit hends))]
      cases sign <;> rfl

/-! ## Tokens -/

theorem tracks_token {w : String} (hw : Opens w.toList) :
    Tracks ρ (.word w) (token w) (token w) Eq Anyway := by
  have heq : token w = word w >>= fun a => layout >>= fun _ => pure a := by
    simp [token]
  rw [heq]
  exact (spells_word hw).tracks

theorem tracks_typeToken : Tracks ρ (.terminal .type) typeToken typeToken Eq Anyway :=
  spells_type.tracks

theorem tracks_localToken : Tracks ρ (.terminal .localName) localToken localToken Eq Anyway :=
  spells_localName.tracks

theorem tracks_globalToken : Tracks ρ (.terminal .globalName) globalToken globalToken Eq Anyway :=
  spells_globalName.tracks

theorem tracks_target :
    Tracks ρ (.terminal .target) localToken localToken (fun n n' => n' = ρ n) Anyway :=
  spells_target.tracks

/-! ## Operands -/

theorem starts_localName : Starts localName (· = '%') := fun s x hs => by
  obtain ⟨⟨⟩, t, hw, -⟩ := bind_eq_some.1 hs
  exact ⟨'%', t, word_eq_some.1 hw, rfl⟩

theorem starts_globalName : Starts globalName (· = '@') := fun s x hs => by
  obtain ⟨⟨⟩, t, hw, -⟩ := bind_eq_some.1 hs
  exact ⟨'@', t, word_eq_some.1 hw, rfl⟩

theorem starts_integer : Starts integer fun c => c = '-' ∨ c.isDigit = true := fun s x hs => by
  obtain ⟨sign, t, hsign, hrest⟩ := bind_eq_some.1 hs
  obtain ⟨digits, u, hdigits, -⟩ := bind_eq_some.1 hrest
  obtain ⟨rfl, -⟩ := sign_eq_some hsign
  obtain ⟨rfl, hne, hall, -⟩ := run_eq_some hdigits
  obtain ⟨c, cs, rfl⟩ := List.exists_cons_of_ne_nil hne
  cases sign with
  | some _ => exact ⟨'-', _, rfl, .inl rfl⟩
  | none => exact ⟨c, _, rfl, .inr (hall c List.mem_cons_self)⟩

/-- What comes next may be put into the alternatives, if it does not fail. -/
theorem orElse_bind {α β : Type} {k : α → Reader β} (hk : ∀ a s, k a s ≠ none) (r r' : Reader α) :
    ((r <|> r') >>= k) = ((r >>= k) <|> (r' >>= k)) := by
  funext s
  rw [orElse_run]
  cases hr : r s with
  | none =>
    rw [bind_of_none hr, Option.none_or]
    show ((r <|> r') s).bind _ = (r' s).bind _
    rw [orElse_run, hr, Option.none_or]
  | some x =>
    rw [bind_run (a := x.1) (u := x.2) (by rw [orElse_run, hr]; rfl), bind_run hr]
    cases h : k x.1 x.2 with
    | none => exact absurd h (hk _ _)
    | some y => rfl

theorem tracks_operand : Tracks ρ .operand operand operand Eq Anyway := by
  have hk (v : Operand) (s : List Char) : (layout >>= fun _ => pure v) s ≠ none := nofun
  have heq : operand = ((Operand.named <$> localName >>= fun v => layout >>= fun _ => pure v) <|>
      (Operand.global <$> globalName >>= fun v => layout >>= fun _ => pure v) <|>
      (integer >>= fun v => layout >>= fun _ => pure v)) := by
    rw [← orElse_bind hk, ← orElse_bind hk]
    rfl
  have hlocal := (starts_localName.map Operand.named).bind
    fun v => layout >>= fun _ => (pure v : Reader Operand)
  have hglobal := (starts_globalName.map Operand.global).bind
    fun v => layout >>= fun _ => (pure v : Reader Operand)
  have hinteger := starts_integer.bind fun v => layout >>= fun _ => (pure v : Reader Operand)
  have hdigit {c : Char} (hc : c = '-' ∨ c.isDigit = true) : c ≠ '%' ∧ c ≠ '@' := by
    rcases hc with rfl | hc
    · decide
    · constructor <;> (rintro rfl; cases hc)
  rw [heq]
  refine .or (spells_localName.map fun _ _ => congrArg _).tracks (.or
    (spells_globalName.map fun _ _ => congrArg _).tracks spells_integer.tracks hglobal hinteger rfl
      fun c hc => (hdigit hc).2) hlocal (hglobal.or hinteger) rfl fun c hc => ?_
  rcases hc with rfl | hc
  · decide
  · exact (hdigit hc).1

theorem tracks_typedOperand : Tracks ρ .typedOperand typedOperand typedOperand Eq Anyway := by
  have heq : typedOperand = typeToken >>= fun ty => operand >>= fun o => pure ⟨ty, o⟩ := by
    simp [typedOperand, typeToken]
  rw [heq]
  exact tracks_typeToken.bindEq fun ty => tracks_operand.mapEq fun o => rfl

/-! ## Instructions -/

/-- The lines say the same, but that labels have other names in the second one. -/
structure Line.Matches (ρ : String → String) (l l' : Line) : Prop where
  result : l'.result = l.result
  form : l'.form = l.form.map id ρ
  ty : l'.ty = l.ty

/-- No comma comes next. -/
def NoComma (_ t' : List Char) : Prop := t'.head? ≠ some ','

theorem tracks_allocaInst : Tracks ρ .allocaInst allocaInst allocaInst (Line.Matches ρ) Anyway :=
  .left fun _ _ => (tracks_token (by decide)).next <|
    tracks_typeToken.mapEq fun _ => ⟨rfl, rfl, rfl⟩

theorem tracks_loadInst : Tracks ρ .loadInst loadInst loadInst (Line.Matches ρ) Anyway :=
  .left fun _ _ => (tracks_token (by decide)).next <| tracks_typeToken.bindEq fun _ =>
    (tracks_token (by decide)).next <| tracks_typedOperand.mapEq fun _ => ⟨rfl, rfl, rfl⟩

theorem tracks_storeInst : Tracks ρ .storeInst storeInst storeInst (Line.Matches ρ) Anyway :=
  .left fun _ _ => (tracks_token (by decide)).next <| tracks_typedOperand.bindEq fun _ =>
    (tracks_token (by decide)).next <| tracks_typedOperand.mapEq fun _ => ⟨rfl, rfl, rfl⟩

theorem tracks_incoming : Tracks ρ .incoming incoming incoming
    (fun x x' => x' = (x.1, ρ x.2)) Anyway :=
  (tracks_token (by decide)).next <| tracks_operand.bindEq fun v =>
    (tracks_token (by decide)).next <| tracks_target.bind fun label label' hlabel =>
      (tracks_token (by decide)).map fun _ _ _ => congrArg (v, ·) hlabel

theorem tracks_comma : Tracks ρ (.word ",") (token ",") (token ",") Eq Anyway :=
  tracks_token (by decide)

theorem tracks_phiInst : Tracks ρ .phiInst phiInst phiInst (Line.Matches ρ) NoComma := by
  refine .left fun _ _ => (tracks_token (by decide)).next <| tracks_typeToken.bindEq fun ty =>
    (tracks_incoming.commaList tracks_comma).map fun pairs pairs' hpairs => ⟨rfl, ?_, rfl⟩
  have hmap : pairs' = pairs.map fun x => (x.1, ρ x.2) := by
    rw [← List.forall₂_eq_eq_eq, List.forall₂_map_right_iff]
    exact hpairs.flip
  simp [hmap, Form.map]

theorem tracks_selectInst : Tracks ρ .selectInst selectInst selectInst (Line.Matches ρ) Anyway :=
  .left fun _ _ => (tracks_token (by decide)).next <| tracks_typedOperand.bindEq fun _ =>
    (tracks_token (by decide)).next <| tracks_typedOperand.bindEq fun _ =>
      (tracks_token (by decide)).next <| tracks_typedOperand.mapEq fun _ => ⟨rfl, rfl, rfl⟩

/-! ### Calls -/

/-- The rule takes the word first. -/
def Rule.Begins (w : String) (R : Rule) : Prop := ∀ u e t, R.read u = some (e, t) →
  ∃ x xs, e = x :: xs ∧ x.kind = .plain ∧ x.body = w

theorem Rule.Begins.word (w : String) : (Rule.word w).Begins w := by
  intro u e t h
  obtain ⟨x, rfl, hx⟩ := read_terminal_eq_some.1 h
  obtain ⟨v, hbody, hkind, -⟩ := Terminal.read_eq_some.1 hx
  obtain ⟨⟨⟩, z, -, hpure⟩ := bind_eq_some.1 hbody
  exact ⟨x, [], rfl, hkind, congrArg Prod.fst (Option.some.inj hpure).symm⟩

theorem Rule.Begins.seq {w : String} {R : Rule} (S : Rule) (h : R.Begins w) :
    (Rule.seq R S).Begins w := by
  intro u e t hread
  obtain ⟨ea, eb, v, rfl, ha, -⟩ := read_seq_eq_some.1 hread
  obtain ⟨x, xs, rfl, hx⟩ := h _ _ _ ha
  exact ⟨x, xs ++ eb, rfl, hx⟩

theorem Moved.word {w : String} {R : Rule} (hR : R.Begins w) {u t : List Char}
    {e e' : List Lexeme} (hread : R.read u = some (e, t)) (h : Moved ρ e e') (t' : List Char) :
    ∃ v, chars e' ++ t' = w.toList ++ v := by
  obtain ⟨x, xs, rfl, hkind, hbody⟩ := hR _ _ _ hread
  obtain ⟨x', xs', hx', -, rfl⟩ := List.forall₂_cons_left_iff.1 h.moves
  rw [chars_cons, Lexeme.text, hx'.kind, hx'.body, hkind, if_pos rfl, hbody, List.append_assoc]
  exact ⟨_, rfl⟩

theorem starts_type : Starts type (· ∈ ['v', 'i', 'p']) := by
  intro s x h
  obtain ⟨ty, hty, heq⟩ := Option.map_eq_some_iff.1 h
  have htake := congrArg String.toList (Ty.ofName?_eq_some_iff.1 hty)
  rw [String.toList_ofList] at htake
  rw [← List.takeWhile_append_dropWhile (p := isWordChar) (l := s), htake]
  cases ty <;> exact ⟨_, _, rfl, by decide⟩

/-- Items with commas between them, or none, before a closing parenthesis. -/
theorem tracks_parens {α β : Type} {R S : Rule} {r r' : Reader (List α)} {k k' : List α → Reader β}
    {V : List α → List α → Prop} {W : β → β → Prop} {H : List Char → List Char → Prop}
    (h : Tracks ρ R r r' V NoComma) (hV : V [] []) (hr' : Starts r' (· ∈ ['v', 'i', 'p']))
    (hS : S.Begins ")") (hk : ∀ as as', V as as' → Tracks ρ S (k as) (k' as') W H) :
    Tracks ρ (.seq (.opt R) S) (optList r >>= k) (optList r' >>= k') W H := by
  refine (h.optList hV).bindWith hk fun u e e' t t' hread _ _ he' _ => ?_
  obtain ⟨v, hv⟩ := he'.word hS hread t'
  rw [hv]
  exact ⟨by rw [NoComma]; exact nofun, fun _ => hr'.eq_none (c := ')') rfl (by decide)⟩

theorem starts_typedOperand : Starts typedOperand (· ∈ ['v', 'i', 'p']) := starts_type.bind _

theorem starts_commaList {α : Type} {r : Reader α} {P : Char → Prop} (h : Starts r P) :
    Starts (commaList r) P := h.bind _

theorem forall₂_eq {α : Type} {as as' : List α} (h : List.Forall₂ Eq as as') : as = as' := by
  rwa [List.forall₂_eq_eq_eq] at h

theorem tracks_callInst : Tracks ρ .callInst callInst callInst (Line.Matches ρ) Anyway := by
  refine .left fun _ _ => (tracks_token (by decide)).next <| tracks_typeToken.bindEq fun _ =>
    tracks_globalToken.bindEq fun _ => (tracks_token (by decide)).next ?_
  refine tracks_parens (tracks_typedOperand.commaList tracks_comma) .nil
    (starts_commaList starts_typedOperand) (Rule.Begins.word ")") fun args args' hargs => ?_
  obtain rfl := forall₂_eq hargs
  exact (tracks_token (by decide)).mapEq fun _ => ⟨rfl, by simp [Form.map], rfl⟩

/-! ### Terminators -/

theorem tracks_labelRef : Tracks ρ .labelRef labelRef labelRef (fun n n' => n' = ρ n) Anyway :=
  (tracks_token (by decide)).next tracks_target

theorem tracks_condBranch : Tracks ρ .condBranch condBranch condBranch
    (fun form form' => form' = form.map id ρ) Anyway :=
  tracks_typedOperand.bindEq fun _ => (tracks_token (by decide)).next <|
    tracks_labelRef.bind fun _ _ ht => (tracks_token (by decide)).next <|
      tracks_labelRef.map fun _ _ he => by rw [ht, he]; rfl

theorem tracks_brInst : Tracks ρ .brInst brInst brInst (Line.Matches ρ) Anyway := by
  have hcond : Starts condBranch (· ∈ ['v', 'i', 'p']) := starts_typedOperand.bind _
  have hjump : Starts ((fun l => (.br none [l] : Form Typed String)) <$> labelRef) (· = 'l') :=
    ((Starts.token rfl).bind _).map _
  refine .left fun _ _ => (tracks_token (by decide)).next <| .map
    (.or tracks_condBranch (tracks_labelRef.fmap fun _ _ hl => by rw [hl]; rfl) hcond hjump rfl ?_)
      fun form form' hform => ⟨rfl, hform, rfl⟩
  rintro _ rfl
  decide

/-- The lexemes of a typed operand start with the name of a type. -/
theorem Rule.exists_type {s t : List Char} {e : List Lexeme}
    (h : typedOperand.read s = some (e, t)) :
    ∃ x xs ty, e = x :: xs ∧ x.kind = .plain ∧ x.body = Ty.name ty := by
  obtain ⟨ea, eb, v, rfl, ha, -⟩ := read_seq_eq_some.1 h
  obtain ⟨x, rfl, hx⟩ := read_terminal_eq_some.1 ha
  obtain ⟨u, hbody, hkind, -⟩ := Terminal.read_eq_some.1 hx
  rw [Terminal.body, map_run, Option.map_eq_some_iff] at hbody
  obtain ⟨y, -, hy⟩ := hbody
  exact ⟨x, eb, y.1, rfl, hkind, (congrArg Prod.fst hy).symm⟩

theorem tracks_retInst : Tracks ρ .retInst retInst retInst (Line.Matches ρ) Anyway := by
  have hvoid : Tracks ρ (.word "void") ((fun _ => none) <$> retVoid) ((fun _ => none) <$> retVoid)
      (Eq (α := Option Typed)) Anyway := (tracks_token (by decide)).fmap fun _ _ _ => rfl
  have hvalue : Tracks ρ .typedOperand (some <$> typedOperand) (some <$> typedOperand)
      Eq Anyway := tracks_typedOperand.fmap fun _ _ => congrArg some
  refine .left fun _ _ => (tracks_token (by decide)).next <|
    (hvoid.orOf hvalue fun s e t e' t' hnone hread htext hproper he' => ?_).mapEq
      fun value => ⟨rfl, by cases value <;> rfl, rfl⟩
  obtain ⟨x, xs, ty, rfl, hkind, hbody⟩ := Rule.exists_type hread
  have hx : x.text = ty.name.toList := by rw [Lexeme.text, hkind, hbody]; rfl
  have hty : ty ≠ .void := by
    rintro rfl
    rw [htext, chars_cons, hx, List.append_assoc, map_run, retVoid] at hnone
    rw [show Ty.name .void = "void" from rfl, token_append] at hnone
    cases hnone
  have hhead := he'.head (hproper x List.mem_cons_self)
    (fun hl => by rw [hkind] at hl; cases hl) t t'
  rw [chars_cons, hx, List.append_assoc] at hhead
  refine (Starts.map (Starts.token (c := 'v') rfl) _).eq_none (c := ty.name.toList.head!) ?_ ?_
  · rw [hhead]
    cases ty <;> rfl
  · cases ty <;> first | exact absurd rfl hty | decide

theorem tracks_unreachableInst : Tracks ρ (.word "unreachable") unreachableInst unreachableInst
    (Line.Matches ρ) Anyway :=
  .left fun _ _ => (tracks_token (by decide)).mapEq fun _ => ⟨rfl, rfl, rfl⟩

/-! ### Any instruction -/

theorem starts_inst {w : String} {c : Char} (hw : w.toList.head? = some c)
    (k : Nat → Unit → Reader Line) : Starts (left >>= fun n => token w >>= k n) (· = c) :=
  .left fun n => (Starts.token hw).bind (k n)

theorem Tracks.uncomma {R : Rule} {r r' : Reader Line} {V : Line → Line → Prop}
    (h : Tracks ρ R r r' V Anyway) : Tracks ρ R r r' V NoComma :=
  h.mono (fun _ _ => id) fun _ _ _ => trivial

theorem starts_callInst : Starts callInst (· = 'c') := starts_inst rfl _

theorem tracks_valueInst : Tracks ρ .valueInst valueInst valueInst (Line.Matches ρ) NoComma := by
  have halloca : Starts allocaInst (· = 'a') := starts_inst rfl _
  have hload : Starts loadInst (· = 'l') := starts_inst rfl _
  have hphi : Starts phiInst (· = 'p') := starts_inst rfl _
  have hselect : Starts selectInst (· = 's') := starts_inst rfl _
  have hselect' := hselect.or starts_callInst
  have hphi' := hphi.or hselect'
  refine .or tracks_allocaInst.uncomma (.or tracks_loadInst.uncomma (.or tracks_phiInst
    (.or tracks_selectInst.uncomma tracks_callInst.uncomma hselect starts_callInst rfl ?_) hphi
      hselect' rfl ?_) hload hphi' rfl ?_) halloca (hload.or hphi') rfl ?_ <;>
    (intro c; rintro h rfl; revert h; decide)

theorem tracks_assignment :
    Tracks ρ .assignment assignment assignment (Line.Matches ρ) NoComma :=
  tracks_localToken.bindEq fun _ => (tracks_token (by decide)).next <|
    tracks_valueInst.map fun _ _ hl => ⟨rfl, hl.form, hl.ty⟩

theorem starts_storeInst : Starts storeInst (· = 's') := starts_inst rfl _

theorem starts_brInst : Starts brInst (· = 'b') := starts_inst rfl _

/-- What starts neither like a store, nor like a call, nor like a branch. -/
theorem starts_end : Starts (retInst <|> unreachableInst) fun c => c = 'r' ∨ c = 'u' :=
  (starts_inst rfl _).or (starts_inst rfl _)

theorem starts_statement : Starts statement (· ∈ ['s', 'c', 'b', 'r', 'u']) :=
  (starts_storeInst.or (starts_callInst.or (starts_brInst.or starts_end))).mono fun c hc => by
    simpa using hc

theorem tracks_statement : Tracks ρ .statement statement statement (Line.Matches ρ) NoComma := by
  have hret : Starts retInst (· = 'r') := starts_inst rfl _
  have hunreachable : Starts unreachableInst (· = 'u') := starts_inst rfl _
  have hbr := starts_brInst.or starts_end
  refine .or tracks_storeInst.uncomma (.or tracks_callInst.uncomma (.or tracks_brInst.uncomma
    (.or tracks_retInst.uncomma tracks_unreachableInst.uncomma hret hunreachable rfl ?_)
      starts_brInst starts_end rfl ?_) starts_callInst hbr rfl ?_) starts_storeInst
        (starts_callInst.or hbr) rfl ?_ <;> (intro c; rintro h rfl; revert h; decide)

theorem starts_assignment : Starts assignment (· = '%') := (starts_localName.bind _).bind _

theorem tracks_instruction :
    Tracks ρ .instruction instruction instruction (Line.Matches ρ) NoComma :=
  .or tracks_assignment tracks_statement starts_assignment starts_statement rfl <| by simp

theorem starts_instruction :
    Starts instruction fun c => c = '%' ∨ c ∈ ['s', 'c', 'b', 'r', 'u'] :=
  starts_assignment.or starts_statement

/-! ## Blocks -/

/-- The blocks say the same, but for the names of labels. -/
structure Block.Matches (ρ : String → String) (b b' : Block) : Prop where
  label : b'.label = ρ b.label
  lines : List.Forall₂ (Line.Matches ρ) b.lines b'.lines

/-- No comma comes next, and no instruction if there was none. -/
def NoLine (t t' : List Char) : Prop :=
  NoComma t t' ∧ (instruction t = none → instruction t' = none)

theorem tracks_block (entry : Bool) :
    Tracks ρ (.block entry) block block (Block.Matches ρ) NoLine := by
  have heq : block = left >>= fun n =>
      (labelName >>= fun label => word ":" >>= fun _ => pure label) >>=
      (fun label => layout >>= fun _ => pure label) >>= fun label => many1 instruction >>=
        fun lines => pure { label, lines, left := n } := by
    simp [block, token]
  have hlines : Tracks ρ (.seq .instruction (.many .instruction)) (many1 instruction)
      (many1 instruction) (List.Forall₂ (Line.Matches ρ)) NoLine := by
    refine tracks_instruction.consMany (fun s e t hread hnil => ?_)
      (fun u e t e' t' hread htext hproper he' => ?_) tracks_instruction
    · obtain ⟨x, xs, rfl, -⟩ := Rule.exists_first (R := .instruction) rfl hread
      cases hnil
    · obtain ⟨x, xs, rfl, hx⟩ := Rule.exists_first (R := .instruction) rfl hread
      have hhead := he'.head (hproper x List.mem_cons_self)
        (fun hl => by cases hx.symm.trans hl) t t'
      rw [← htext] at hhead
      rcases tracks_instruction (ρ := ρ) u with ⟨-, hnone⟩ | ⟨l, _, _, hl, -, -⟩
      · cases hnone.symm.trans hread
      obtain ⟨c, v, rfl, hc⟩ := starts_instruction _ _ hl
      rw [NoComma, hhead]
      rintro ⟨⟩
      revert hc
      decide
  rw [heq]
  exact .left fun _ _ => (spells_label entry).tracks.bind fun _ _ hlabel =>
    hlines.map fun _ _ hl => ⟨hlabel, hl⟩

/-- The lexemes of a block start with its label. -/
theorem Rule.exists_label {entry : Bool} {s t : List Char} {e : List Lexeme}
    (h : (block entry).read s = some (e, t)) : ∃ x xs, e = x :: xs ∧ x.kind = .label entry := by
  obtain ⟨ea, eb, v, rfl, ha, -⟩ := read_seq_eq_some.1 h
  obtain ⟨x, rfl, hx⟩ := read_terminal_eq_some.1 ha
  obtain ⟨u, -, hkind, -⟩ := Terminal.read_eq_some.1 hx
  exact ⟨x, eb, rfl, hkind⟩

theorem colon_cons (u : List Char) : Colon (':' :: u) :=
  ⟨ends_cons rfl u, by rw [skipLayout_of_opens (.cons (by decide) u)]; rfl⟩

/-- No instruction is read where a later label stands, under its new name as under its old one. -/
theorem Moved.noLine {u t t' : List Char} {e e' : List Lexeme}
    (hread : (Rule.block false).read u = some (e, t)) (htext : u = chars e ++ t)
    (hproper : ∀ x ∈ e, x.Proper) (h : Moved ρ e e') : NoLine u (chars e' ++ t') := by
  obtain ⟨x, xs, rfl, hkind⟩ := Rule.exists_label hread
  obtain ⟨x', xs', hx', -, rfl⟩ := List.forall₂_cons_left_iff.1 h.moves
  have hn := (hproper x List.mem_cons_self).name (by rw [hkind]; nofun)
  have hn' := hx'.name (by rw [hkind]; nofun)
  have hu (y : Lexeme) (hy : y.kind = .label false) (ys : List Lexeme) (w : List Char) :
      ∃ v, chars (y :: ys) ++ w = y.body.toList ++ ':' :: v := by
    refine ⟨y.gap ++ (chars ys ++ w), ?_⟩
    rw [chars_cons, Lexeme.text, hy]
    simp [Lexeme.Kind.text]
  obtain ⟨v, hv⟩ := hu x hkind xs t
  obtain ⟨v', hv'⟩ := hu x' (hx'.kind.trans hkind) xs' t'
  rw [htext, hv, hv']
  constructor
  · obtain ⟨c, w, hw⟩ := List.exists_cons_of_ne_nil hn'.1
    rw [NoComma, hw]
    rintro ⟨⟩
    have hname := hn'.2 ',' (by rw [hw]; exact List.mem_cons_self)
    cases hname
  · rw [instruction_label hn.2 (colon_cons v) (colon_cons []),
      instruction_label hn'.2 (colon_cons v') (colon_cons [])]
    exact hx'.free hkind

theorem tracks_blocks : Tracks ρ .blocks (many1 block) (many1 block)
    (List.Forall₂ (Block.Matches ρ)) fun t t' => NoLine t t' ∧ (block t = none → block t' = none) :=
  (tracks_block false).consMany
    (fun s e t hread hnil => by
      obtain ⟨x, xs, rfl, -⟩ := Rule.exists_label hread
      cases hnil)
    (fun _ _ _ _ _ => Moved.noLine) (tracks_block true)

theorem starts_block : Starts block (isNameChar · = true) := by
  refine .left fun _ => Starts.bind (fun s x hs => ?_) _
  obtain ⟨rfl, hn, -⟩ := labelName_eq_some_iff.1 hs
  obtain ⟨c, u, hu⟩ := List.exists_cons_of_ne_nil hn.1
  rw [hu]
  exact ⟨c, _, rfl, hn.2 c (hu ▸ List.mem_cons_self)⟩

/-! ## Items -/

/-- The functions say the same, but for the names of labels. -/
structure Function.Matches (ρ : String → String) (f f' : Function) : Prop where
  name : f'.name = f.name
  result : f'.result = f.result
  params : f'.params = f.params
  blocks : List.Forall₂ (Block.Matches ρ) f.blocks f'.blocks

/-- The items say the same, but for the names of labels. -/
inductive Item.Matches (ρ : String → String) : Item → Item → Prop
  | global (name : String) (cell : Ty) : Matches ρ (.global name cell) (.global name cell)
  | declaration (name : String) (result : Ty) (params : List Ty) :
    Matches ρ (.declaration name result params) (.declaration name result params)
  | function {f f' : Function} : f.Matches ρ f' → Matches ρ (.function f) (.function f')

theorem tracks_param : Tracks ρ .param param param Eq Anyway :=
  tracks_typeToken.bindEq fun _ => tracks_localToken.mapEq fun _ => rfl

theorem starts_typeToken : Starts typeToken (· ∈ ['v', 'i', 'p']) := starts_type.bind _

theorem tracks_functionDef :
    Tracks ρ .functionDef functionDef functionDef (Item.Matches ρ) Anyway := by
  refine .left fun _ _ => (tracks_token (by decide)).next <| tracks_typeToken.bindEq fun _ =>
    tracks_globalToken.bindEq fun _ => (tracks_token (by decide)).next <|
      tracks_parens (tracks_param.commaList tracks_comma) .nil
        (starts_commaList (starts_typeToken.bind _)) (.seq _ (.word ")"))
          fun params params' hparams => ?_
  obtain rfl := forall₂_eq hparams
  refine (tracks_token (by decide)).next <| (tracks_token (by decide)).next <|
    tracks_blocks.bindWith (fun blocks blocks' hblocks => (tracks_token (by decide)).map
      fun _ _ _ => .function ⟨rfl, rfl, rfl, hblocks⟩) fun u e e' t t' hread _ _ he' _ => ?_
  obtain ⟨v, hv⟩ := he'.word (Rule.Begins.word "\x7d") hread t'
  rw [hv]
  refine ⟨⟨by rw [NoComma]; exact nofun, fun _ => ?_⟩, fun _ => ?_⟩
  · exact starts_instruction.eq_none (c := '\x7d') rfl (by decide)
  · exact starts_block.eq_none (c := '\x7d') rfl (by decide)

theorem tracks_globalDecl :
    Tracks ρ .globalDecl globalDecl globalDecl (Item.Matches ρ) Anyway :=
  tracks_globalToken.bindEq fun _ => (tracks_token (by decide)).next <|
    (tracks_token (by decide)).next <| tracks_typeToken.mapEq fun _ => .global _ _

theorem tracks_declareDecl :
    Tracks ρ .declareDecl declareDecl declareDecl (Item.Matches ρ) Anyway := by
  refine (tracks_token (by decide)).next <| tracks_typeToken.bindEq fun _ =>
    tracks_globalToken.bindEq fun _ => (tracks_token (by decide)).next <|
      tracks_parens (tracks_typeToken.commaList tracks_comma) .nil
        (starts_commaList starts_typeToken) (.word ")") fun params params' hparams => ?_
  obtain rfl := forall₂_eq hparams
  exact (tracks_token (by decide)).mapEq fun _ => .declaration _ _ _

theorem tracks_toplevel : Tracks ρ .toplevel toplevel toplevel (Item.Matches ρ) Anyway := by
  have hglobal : Starts globalDecl (· = '@') := (starts_globalName.bind _).bind _
  have hdeclare : Starts declareDecl (· = 'd') := (Starts.token rfl).bind _
  have hdefine : Starts functionDef (· = 'd') := .left fun _ => (Starts.token rfl).bind _
  refine .or tracks_globalDecl (tracks_declareDecl.orOf tracks_functionDef ?_) hglobal
    (hdeclare.or hdefine) rfl (by simp)
  intro s e t e' t' _ hread _ _ he'
  have hword : Rule.functionDef.Begins "define" := .seq _ (.word "define")
  obtain ⟨v, hv⟩ := he'.word hword hread t'
  have hnone : word "declare" ("define".toList ++ v) = none := rfl
  rw [hv]
  exact bind_of_none (bind_of_none hnone _) _

end BoxFlow.Listing
