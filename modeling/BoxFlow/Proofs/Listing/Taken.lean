import BoxFlow.Proofs.Listing.Spaced

/-!
# Words that start like instructions

The instructions of a block go on for as long as there is one, and no space is needed after a word
of the grammar. So a word that starts like an instruction cannot be the label of a block but the
first. Which words these are says `not_isFree_iff`.
-/

namespace BoxFlow.Listing

open Reader

/-- The word starts like an instruction: no space is needed after `unreachable`, nor between the
parts of a return. -/
inductive Taken (n : String) : Prop
  | unreachable {u : List Char} : n.toList = "unreachable".toList ++ u → Taken n
  | retVoid {u : List Char} : n.toList = "ret".toList ++ ("void".toList ++ u) → Taken n
  | ret (ty : Ty) {d : Char} {u : List Char} : d.isDigit = true →
    n.toList = "ret".toList ++ (ty.name.toList ++ '-' :: d :: u) → Taken n

theorem token_append_opens (w : String) {s : List Char} (h : Opens s) :
    token w (w.toList ++ s) = some ((), s) := by
  rw [token_append, skipLayout_of_opens h]

theorem instruction_eq_none {n : String} (hn : IsName n) : instruction (n.toList ++ [':']) = none ↔
    retInst (n.toList ++ [':']) = none ∧ unreachableInst (n.toList ++ [':']) = none := by
  have halike : Alike (n.toList ++ [':']) (n.toList ++ [':']) :=
    ⟨n.toList, [':'], [':'], hn.2, colon_cons [], colon_cons [], rfl, rfl⟩
  rw [instruction, statement, orElse_run, orElse_run, orElse_run, orElse_run, orElse_run,
    fails_assignment _ _ halike, fails_storeInst _ _ halike, fails_callInst _ _ halike,
    fails_brInst _ _ halike, Option.none_or, Option.none_or, Option.none_or, Option.none_or]
  exact Option.or_eq_none_iff

theorem append_colon {w l t : List Char} (hw : ':' ∉ w) (h : l ++ [':'] = w ++ t) :
    ∃ u, l = w ++ u ∧ t = u ++ [':'] := by
  rcases List.append_eq_append_iff.1 h with ⟨u, rfl, hu⟩ | ⟨u, rfl, ht⟩
  · cases u with
    | nil => exact ⟨[], by simp, by simpa using hu.symm⟩
    | cons c u =>
      obtain ⟨rfl, -⟩ := List.cons.inj hu
      simp at hw
  · exact ⟨u, rfl, ht⟩

theorem opens_colon {u : List Char} (hu : ∀ c ∈ u, isNameChar c = true) : Opens (u ++ [':']) := by
  cases u with
  | nil => exact .cons (by decide) []
  | cons c u => exact .cons (isSolid_of_isNameChar (hu c List.mem_cons_self)) _

/-- A word at the front of a name. -/
theorem token_name {w : String} {l t : List Char} (hl : ∀ c ∈ l, isNameChar c = true)
    (hw : ':' ∉ w.toList) (h : token w (l ++ [':']) = some ((), t)) :
    ∃ u, l = w.toList ++ u ∧ t = u ++ [':'] ∧ ∀ c ∈ u, isNameChar c = true := by
  obtain ⟨v, hv, rfl⟩ := token_eq_some.1 h
  obtain ⟨u, rfl, rfl⟩ := append_colon hw hv
  have hu : ∀ c ∈ u, isNameChar c = true := fun c hc => hl c (List.mem_append_right _ hc)
  exact ⟨u, rfl, skipLayout_of_opens (opens_colon hu), hu⟩

/-- A type and an operand at the front of a name: the operand is an integer with a sign. -/
theorem typedOperand_name {u t : List Char} {v : Typed} (hu : ∀ c ∈ u, isNameChar c = true)
    (h : typedOperand (u ++ [':']) = some (v, t)) :
    ∃ ty d w, d.isDigit = true ∧ u = (Ty.name ty).toList ++ '-' :: d :: w := by
  obtain ⟨ty, s, hty, h⟩ := bind_eq_some.1 h
  obtain ⟨htext, hstop⟩ := type_eq_some_iff.1 hty
  have hcolon : ':' ∉ ty.name.toList := by cases ty <;> decide
  obtain ⟨v, rfl, rfl⟩ := append_colon hcolon htext
  have hv : ∀ c ∈ v, isNameChar c = true := fun c hc => hu c (List.mem_append_right _ hc)
  obtain ⟨⟨⟩, s, hlayout, h⟩ := bind_eq_some.1 h
  obtain rfl : v ++ [':'] = s := by
    rw [layout, skipLayout_of_opens (opens_colon hv)] at hlayout
    cases hlayout
    rfl
  obtain ⟨o, s, ho, -⟩ := bind_eq_some.1 h
  obtain ⟨o, s, ho, -⟩ := bind_eq_some.1 ho
  have halike : Alike (v ++ [':']) (v ++ [':']) :=
    ⟨v, [':'], [':'], hv, colon_cons [], colon_cons [], rfl, rfl⟩
  rw [orElse_run, orElse_run, fails_localName.map Operand.named _ _ halike,
    fails_globalName.map Operand.global _ _ halike, Option.none_or, Option.none_or] at ho
  obtain ⟨sign, t, hsign, ho⟩ := bind_eq_some.1 ho
  obtain ⟨digits, w, hdigits, -⟩ := bind_eq_some.1 ho
  obtain ⟨hs, -⟩ := sign_eq_some hsign
  obtain ⟨rfl, hne, hall, -⟩ := run_eq_some hdigits
  obtain ⟨d, ds, rfl⟩ := List.exists_cons_of_ne_nil hne
  have hd := hall d List.mem_cons_self
  cases sign with
  | none =>
    rw [hs] at hstop
    have hword : isWordChar d = true := by simp [isWordChar, Char.isAlphanum, hd]
    rw [hstop d rfl] at hword
    cases hword
  | some _ =>
    have hnocolon : ':' ∉ ['-', d] := by
      rintro hmem
      rcases List.mem_pair.1 hmem with h | rfl
      · cases h
      · cases hd
    obtain ⟨x, rfl, -⟩ := append_colon (w := ['-', d]) hnocolon hs
    exact ⟨ty, d, x, hd, rfl⟩

theorem typedOperand_ne_none (ty : Ty) {d : Char} (hd : d.isDigit = true) (s : List Char) :
    typedOperand (ty.name.toList ++ '-' :: d :: s) ≠ none := by
  have hty : type (ty.name.toList ++ '-' :: d :: s) = some (ty, '-' :: d :: s) :=
    type_eq_some_iff.2 ⟨rfl, by rintro _ ⟨⟩; decide⟩
  have hdigits : run Char.isDigit (d :: s) =
      some (d :: s.takeWhile Char.isDigit, s.dropWhile Char.isDigit) := by
    rw [run, List.takeWhile_cons_of_pos hd, List.dropWhile_cons_of_pos hd]
  have hsign : opt (word "-") ('-' :: d :: s) = some (some (), d :: s) :=
    sign_append true (by rintro ⟨⟩; cases hd)
  have hlocal : localName ('-' :: d :: s) = none := rfl
  have hglobal : globalName ('-' :: d :: s) = none := rfl
  have hoperand : operand ('-' :: d :: s) ≠ none := by
    intro hnone
    have hvalue : integer ('-' :: d :: s) ≠ none := by
      rw [integer, bind_run hsign, bind_run hdigits]
      exact Option.some_ne_none _
    obtain ⟨v, hv⟩ := Option.ne_none_iff_exists'.1 hvalue
    rw [operand, bind_run (a := v.1) (u := v.2) (by
      rw [orElse_run, orElse_run, map_run, map_run, hlocal, hglobal, hv]; rfl)] at hnone
    cases hnone
  obtain ⟨v, hv⟩ := Option.ne_none_iff_exists'.1 hoperand
  have hlayout : layout ('-' :: d :: s) = some ((), '-' :: d :: s) := by
    rw [layout, skipLayout_of_opens (.cons (by decide) _)]
  rw [typedOperand, bind_run hty, bind_run hlayout, bind_run hv]
  exact Option.some_ne_none _

theorem retInst_ne_none {l u : List Char} (hl : l = "ret".toList ++ u) (hu : Opens (u ++ [':']))
    (h : ((fun _ => none) <$> retVoid <|> some <$> typedOperand : Reader (Option Typed))
      (u ++ [':']) ≠ none) :
    retInst (l ++ [':']) ≠ none := by
  obtain ⟨x, hx⟩ := Option.ne_none_iff_exists'.1 h
  rw [retInst, bind_run (r := left) rfl, hl, List.append_assoc, bind_run (token_append_opens _ hu),
    bind_run hx]
  exact Option.some_ne_none _

/-- The words that cannot be the label of a later block. -/
theorem not_isFree_iff {n : String} (hn : IsName n) : ¬IsFree n ↔ Taken n := by
  rw [IsFree, instruction_eq_none hn, not_and_or]
  constructor
  · rintro (h | h)
    · obtain ⟨x, hx⟩ := Option.ne_none_iff_exists'.1 h
      obtain ⟨k, s, hleft, h⟩ := bind_eq_some.1 hx
      cases hleft
      obtain ⟨⟨⟩, t, hret, h⟩ := bind_eq_some.1 h
      obtain ⟨u, hu, rfl, hname⟩ := token_name hn.2 (by decide) hret
      obtain ⟨value, t, hvalue, -⟩ := bind_eq_some.1 h
      rw [orElse_run, Option.or_eq_some_iff, map_run, map_run] at hvalue
      rcases hvalue with hvoid | ⟨-, hvalue⟩
      · obtain ⟨y, hy, -⟩ := Option.map_eq_some_iff.1 hvoid
        obtain ⟨w, rfl, -⟩ := token_name hname (by decide) hy
        exact .retVoid hu
      · obtain ⟨y, hy, -⟩ := Option.map_eq_some_iff.1 hvalue
        obtain ⟨ty, d, w, hd, rfl⟩ := typedOperand_name hname hy
        exact .ret ty hd hu
    · obtain ⟨x, hx⟩ := Option.ne_none_iff_exists'.1 h
      obtain ⟨k, s, hleft, h⟩ := bind_eq_some.1 hx
      cases hleft
      obtain ⟨⟨⟩, t, hword, -⟩ := bind_eq_some.1 h
      obtain ⟨u, hu, -⟩ := token_name hn.2 (by decide) hword
      exact .unreachable hu
  · rintro (hu | hu | ⟨ty, hd, hu⟩)
    · right
      rw [unreachableInst, bind_run (r := left) rfl, hu, List.append_assoc,
        bind_run (token_append _ _)]
      exact Option.some_ne_none _
    · left
      exact retInst_ne_none hu (.cons (c := 'v') (by decide) _)
        (by
          rw [orElse_run, map_run, retVoid, List.append_assoc, token_append]
          exact Option.some_ne_none _)
    · left
      refine retInst_ne_none hu ((opens_type ty _).append _) ?_
      rw [orElse_run, map_run, map_run, ne_eq, Option.or_eq_none_iff, not_and]
      rintro -
      rw [Option.map_eq_none_iff, List.append_assoc]
      exact typedOperand_ne_none ty hd _

end BoxFlow.Listing
