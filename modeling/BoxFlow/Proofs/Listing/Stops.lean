import Mathlib.Logic.Relation
import BoxFlow.Proofs.Listing.Layout

/-!
# Where reading stops

A text is read item by item, for as long as there is one. The text before the place where that stops
(`StopsAt`) is a listing to its end, of the same items (`Runs.cut`): to cut off what comes after
lexemes is one way of moving them. A text that is no listing to its end is rejected with this place,
which is found again from line and column by counting line feeds (`Position.offset_after`), and no
other text is (`load_unexpected`).
-/

namespace BoxFlow

/-! ## Places by line and column -/

namespace Text.Position

/-- How many characters stand before the line that follows `n` line feeds. -/
def lineStart : List Char → Nat → Nat
  | _, 0 => 0
  | [], _ + 1 => 0
  | c :: s, n + 1 => lineStart s (if c = '\n' then n else n + 1) + 1

/-- How many characters of the text stand before the place. -/
def offset (s : List Char) (place : Position) : Nat :=
  lineStart s (place.line - 1) + (place.column - 1)

/-- Behind whole lines a line starts. -/
theorem lineStart_append {lines : List Char} (h : ∀ c ∈ lines.getLast?, c = '\n')
    (s : List Char) : lineStart (lines ++ s) (lines.count '\n') = lines.length := by
  induction lines with
  | nil => cases s <;> rfl
  | cons c lines ih =>
    have hlast : ∀ d ∈ lines.getLast?, d = '\n' := fun d hd => h d (by
      rw [List.getLast?_cons, hd]
      rfl)
    by_cases hc : c = '\n'
    · rw [List.cons_append, List.count_cons, if_pos (by simpa using hc), lineStart, if_pos hc,
        ih hlast, List.length_cons]
    · have hmem : '\n' ∈ lines := by
        cases hd : lines.getLast? with
        | none =>
          rw [List.getLast?_eq_none_iff.1 hd] at h
          exact absurd (h c rfl) hc
        | some d =>
          rw [← hlast d hd]
          exact List.mem_of_getLast? hd
      obtain ⟨n, hn⟩ := Nat.exists_eq_succ_of_ne_zero (List.count_pos_iff.2 hmem).ne'
      have ih := ih hlast
      rw [hn] at ih
      rw [List.cons_append, List.count_cons_of_ne hc, hn, lineStart, if_neg hc, ih,
        List.length_cons]

theorem offset_after (before s : List Char) :
    (after before).offset (before ++ s) = before.length := by
  generalize hlast : before.reverse.takeWhile (· ≠ '\n') = last
  generalize hlines : before.reverse.dropWhile (· ≠ '\n') = lines
  have hbefore : before = lines.reverse ++ last.reverse := by
    rw [← List.reverse_append, ← hlast, ← hlines, List.takeWhile_append_dropWhile,
      List.reverse_reverse]
  have hnone : last.reverse.count '\n' = 0 := by
    rw [List.count_reverse, List.count_eq_zero, ← hlast]
    intro hmem
    simpa using List.all_eq_true.1 List.all_takeWhile _ hmem
  have hend : ∀ c ∈ lines.reverse.getLast?, c = '\n' := by
    rw [List.getLast?_reverse, ← hlines]
    intro c hc
    have hstop := List.head?_dropWhile_not (· ≠ '\n') before.reverse
    rw [hc] at hstop
    simpa using hstop
  have hline : before.count '\n' = lines.reverse.count '\n' := by
    rw [hbefore, List.count_append, hnone, Nat.add_zero]
  rw [offset, after, hlast, hline, Nat.add_sub_cancel, Nat.add_sub_cancel, hbefore,
    List.append_assoc, lineStart_append hend, List.length_append]
  simp

end Text.Position

namespace Listing

open Reader

variable {s t u : List Char} {items : List Item}

/-! ## Texts that are cut off -/

/-- What has been read up to a place is read of the text that ends there. -/
theorem Runs.cut (h : Runs toplevel u items t) : ∃ w items', u = w ++ t ∧ (w = [] ∨ Opens w) ∧
    Runs toplevel w items' [] ∧ List.Forall₂ (Item.Matches id) items items' := by
  induction h with
  | nil => exact ⟨[], [], rfl, .inl rfl, .nil rfl, .nil⟩
  | @cons s u t item items hitem hlt _ ih =>
    obtain ⟨w, items', rfl, hopens, hruns, hitems⟩ := ih
    rcases tracks_toplevel (ρ := id) s with ⟨hnone, -⟩ | ⟨_, e, _, hread, hrule, htracked⟩
    · cases hnone.symm.trans hitem
    cases hread.symm.trans hitem
    obtain ⟨x, xs, rfl, -⟩ := Rule.exists_first (R := .toplevel) rfl hrule
    have hstill : Moved id (x :: xs) (x :: xs) :=
      moved_of_padded htracked.proper (List.forall₂_same.2 fun x _ => ⟨[], .nil, rfl⟩)
    have hmeets : Meets (x :: xs) (w ++ t) w := by
      refine ⟨hopens, fun hnil => (List.append_eq_nil_iff.1 hnil).1, fun _ _ _ hne => ?_⟩
      obtain ⟨c, w, rfl⟩ := List.exists_cons_of_ne_nil hne
      rfl
    obtain ⟨item', hread', hitem'⟩ := htracked.moves hstill hmeets trivial
    have hstart : Opens (chars (x :: xs) ++ w) :=
      hstill.opens (htracked.proper x List.mem_cons_self) w
    refine ⟨chars (x :: xs) ++ w, item' :: items', ?_, .inr hstart, .cons hread' ?_ hruns,
      .cons hitem' hitems⟩
    · rw [List.append_assoc]
      exact htracked.text
    · obtain ⟨c, v, hv, -⟩ := hstill.opens (htracked.proper x List.mem_cons_self) []
      rw [List.append_nil] at hv
      rw [hv, List.length_append, List.length_cons]
      omega

/-! ## The last item -/

/-- An item is read from the front of a text, and this is left. -/
def Leaves (s t : List Char) : Prop := ∃ item, toplevel s = some (item, t)

/-- `p` is where the last of the items ends that are read from the front of the text. If a text is
cut within a word it may be a listing further on: `@g=global ptr` is one, but no item is read from
the front of `@g=global ptrx`. -/
structure StopsAt (s : List Char) (p : Nat) : Prop where
  lt : p < s.length
  /-- The text before it is a listing of the items that are read of the whole text. -/
  listing : ∃ items items', module s = some (items, s.drop p) ∧
    module (s.take p) = some (items', []) ∧ List.Forall₂ (Item.Matches id) items items'
  stops : toplevel (s.drop p) = none
  /-- Wherever the items end that are read one after the other, it is not behind this. -/
  longest : ∀ q ≤ s.length, Relation.ReflTransGen Leaves (skipLayout false s) (s.drop q) → q ≤ p

theorem Runs.of_leaves (h : Runs toplevel s items u) (ht : Relation.ReflTransGen Leaves s t) :
    ∃ items, Runs toplevel t items u := by
  induction ht with
  | refl => exact ⟨items, h⟩
  | tail _ hleaves ih =>
    obtain ⟨items, hruns⟩ := ih
    obtain ⟨item, hitem⟩ := hleaves
    cases hruns with
    | nil hnone => cases hnone.symm.trans hitem
    | cons hitem' _ hruns =>
      cases hitem'.symm.trans hitem
      exact ⟨_, hruns⟩

/-- What is left of a text is where reading stops, if it is anything. -/
theorem stopsAt_of_module {rest : List Char} (h : module s = some (items, rest)) (hne : rest ≠ []) :
    StopsAt s (s.length - rest.length) := by
  have hruns : Runs toplevel (skipLayout false s) items rest :=
    runs_of_many gives_toplevel.takes h
  obtain ⟨w, items', hw, hopens, hcut, hitems⟩ := hruns.cut
  obtain ⟨hs, -⟩ := gap_eq_some.1 (show gap s = some (_, skipLayout false s) from rfl)
  generalize s.take (s.length - (skipLayout false s).length) = g at hs
  rw [hw] at hs
  have hfront : skipLayout false (g ++ w) = w :=
    skipLayout_gap (hs ▸ hw) (fun hnil => (List.append_eq_nil_iff.1 hnil).1) hopens
  have hp : s.length - rest.length = (g ++ w).length := by
    rw [hs]
    simp
    omega
  have hdrop : s.drop (s.length - rest.length) = rest := by
    rw [hp, hs, ← List.append_assoc, List.drop_left]
  have htake : s.take (s.length - rest.length) = g ++ w := by
    rw [hp, hs, ← List.append_assoc, List.take_left]
  have hpos := List.length_pos_iff.2 hne
  have hlength : rest.length ≤ s.length := by
    rw [hs]
    simp
    omega
  refine ⟨by omega, ⟨items, items', by rw [hdrop, h], ?_, hitems⟩, by rw [hdrop, hruns.stops], ?_⟩
  · rw [htake]
    show many toplevel (skipLayout false (g ++ w)) = _
    rw [hfront, hcut.many]
  · intro q hq hleaves
    obtain ⟨items, hruns⟩ := hruns.of_leaves hleaves
    obtain ⟨v, -, hv, -⟩ := hruns.cut
    have hlength := congrArg List.length hv
    rw [List.length_drop, List.length_append] at hlength
    omega

end Listing

/-! ## What is reported -/

/-- The message is neither about what is left of a text, nor about a text that the grammar fails
on. -/
def Elsewise (m : List Char) : Prop :=
  ∀ start ∈ ["unexpected text", "syntax error near"], ¬start.toList <+: m

theorem elsewise_of_front {front : String} {m : List Char} (h : front.toList <+: m)
    (hfront : ∀ start ∈ ["unexpected text", "syntax error near"],
      ¬start.toList <+: front.toList ∧ ¬front.toList <+: start.toList) : Elsewise m :=
  fun start hstart hm => (List.prefix_or_prefix_of_prefix hm h).elim (hfront start hstart).1
    (hfront start hstart).2

theorem elsewise_cons {c : Char} (h : c ∉ ['u', 's']) (m : List Char) : Elsewise (c :: m) := by
  intro start hstart hm
  obtain ⟨t, ht⟩ := hm
  have hhead := congrArg List.head? ht
  simp only [List.mem_cons, List.not_mem_nil, or_false] at hstart
  rcases hstart with rfl | rfl
  · obtain rfl : 'u' = c := Option.some.inj hhead
    exact h (by decide)
  · obtain rfl : 's' = c := Option.some.inj hhead
    exact h (by decide)

theorem prefix_append (a b : String) : a.toList <+: (a ++ b).toList := by
  rw [String.toList_append]
  exact List.prefix_append ..

theorem elsewise_name (f : Listing.NameFault) : Elsewise f.message.toList := by
  have hfront (a b c : String) : a.toList <+: (a ++ b ++ c).toList := by
    rw [String.append_assoc]
    exact prefix_append ..
  cases f with
  | functionRedefined n =>
    exact elsewise_of_front (hfront "function @" n " redefined") (by decide)
  | duplicateParameter f =>
    exact elsewise_of_front (prefix_append "duplicate parameter in @" f) (by decide)
  | duplicateLabel l =>
    exact elsewise_of_front (prefix_append "duplicate label " (Text.quote l)) (by decide)
  | unknownLabel l => exact elsewise_of_front (prefix_append "unknown label %" l) (by decide)
  | redefined n => exact elsewise_of_front (hfront "%" n " redefined") (by decide)
  | voidValue n => exact elsewise_of_front (hfront "%" n " is assigned a void value") (by decide)
  | unknownGlobal n => exact elsewise_of_front (prefix_append "unknown global @" n) (by decide)
  | undefinedValue n =>
    exact elsewise_of_front (prefix_append "use of undefined value %" n) (by decide)

theorem elsewise_problem (problem : Problem) : Elsewise problem.message.toList := by
  have hfront : "@".toList <+: problem.message.toList := by
    unfold Problem.message
    split <;> simp only [toString, String.append_assoc, prefix_append]
  exact elsewise_of_front hfront (by decide)

theorem elsewise_summary (problems : List Problem) :
    Elsewise (summary (problems.map Problem.message)).toList := by
  cases problems with
  | nil => exact elsewise_of_front (List.prefix_refl "invalid IR".toList) (by decide)
  | cons x problems =>
    cases problems with
    | nil => exact elsewise_problem x
    | cons y problems =>
      -- the number of the problems comes first
      obtain ⟨c, m, hm, hc⟩ := Listing.head_digits ((problems.length + 1) + 1)
        (" problems; first: " ++ x.message).toList
      have hsummary : (summary ((x :: y :: problems).map Problem.message)).toList = c :: m := by
        rw [← hm]
        simp [summary, toString]
      rw [hsummary]
      refine elsewise_cons (fun hmem => ?_) m
      simp only [List.mem_cons, List.not_mem_nil, or_false] at hmem
      rcases hmem with rfl | rfl <;> cases hc

namespace Rejection

/-- Every message but one starts in another way. -/
theorem elsewise_message (e : Rejection) : (∃ next span, e = .text (.unexpected next) span) ∨
    Elsewise e.diagnostic.message.toList := by
  cases e with
  | unreadable path reason =>
    have hfront : "cannot read ".toList <+:
        ("cannot read " ++ path ++ ": " ++ reason.message).toList := by
      rw [String.append_assoc, String.append_assoc]
      exact prefix_append ..
    exact .inr (elsewise_of_front hfront (by decide))
  | text fault span =>
    cases fault with
    | unexpected next => exact .inl ⟨next, span, rfl⟩
    | overlong e =>
      exact .inr (elsewise_of_front (prefix_append "malformed IR: ValueError: " _) (by decide))
    | name f => exact .inr (elsewise_name f)
  | invalid problems span => exact .inr (elsewise_summary problems)

theorem prefix_message_unexpected (next : List Char) (span : Span) :
    "unexpected text".toList <+: (text (.unexpected next) span).diagnostic.message.toList :=
  (List.prefix_append "unexpected text".toList [' ']).trans (prefix_append "unexpected text " _)

end Rejection

namespace Program

variable {s : List Char} {file : String} {o : Options} {name : String}

/-- The text is rejected with a message that starts like that. -/
def Reports (s : List Char) (file : String) (o : Options) (name start : String) : Prop :=
  ∃ e, load s file o name = .error e ∧ start.toList <+: e.diagnostic.message.toList

/-- A text that is a listing to its end may be rejected, but nothing in it is unexpected. -/
theorem ne_unexpected_of_module {items : List Listing.Item}
    (h : Listing.module s = some (items, [])) (next : List Char) (span : Span) :
    load s file o name ≠ .error (.text (.unexpected next) span) := by
  have htext : Listing.ofText s = (items, []) := by
    rw [Listing.ofText, h]
    rfl
  intro hload
  unfold load listing at hload
  simp only [htext, bind, Except.bind] at hload
  cases hoverlong : Listing.overlong items with
  | cons e es =>
    rw [hoverlong] at hload
    cases hload
  | nil =>
    cases hp : Listing.toProgram (if name.isEmpty then "module" else name) items with
    | error e =>
      simp only [hoverlong, hp] at hload
      cases hload
    | ok p =>
      simp only [hoverlong, hp, checkArity] at hload
      split at hload
      · cases harity : p.arityProblems o with
        | nil =>
          rw [harity] at hload
          cases hload
        | cons problem problems =>
          rw [harity] at hload
          cases hload
      · cases hload

/-- What is reported of a text that is no listing to its end. -/
theorem load_of_module {items : List Listing.Item} {rest : List Char}
    (h : Listing.module s = some (items, rest)) (hne : rest ≠ []) :
    load s file o name = .error (.text (.unexpected (rest.take 20))
      { file
        line := (Text.Position.ofLeft s rest.length).line
        column := (Text.Position.ofLeft s rest.length).column }) := by
  have htext : Listing.ofText s = (items, rest) := by
    rw [Listing.ofText, h]
    rfl
  have hlisting : listing s = .error (.unexpected (rest.take 20), some rest.length) := by
    obtain ⟨c, rest, rfl⟩ := List.exists_cons_of_ne_nil hne
    rw [listing, htext]
  rw [load, hlisting]
  rfl

/-- A text is read item by item to where that stops. If that is not its end, it is what is reported,
with the place. If it is, the text may still be rejected, but with other messages; and no text is
rejected because the grammar fails on it. -/
theorem load_unexpected (s : List Char) (file : String) (o : Options) (name : String) :
    ¬Reports s file o name "syntax error near" ∧
    (Reports s file o name "unexpected text" ↔ ¬∃ items, Listing.module s = some (items, [])) ∧
    ((∃ items, Listing.module s = some (items, [])) ∨ ∃ p, Listing.StopsAt s p ∧
      let place := Text.Position.after (s.take p)
      place.offset s = p ∧ load s file o name = .error (.text (.unexpected ((s.drop p).take 20))
        { file, line := place.line, column := place.column })) := by
  have hreports {start : String} (hstart : start ∈ ["unexpected text", "syntax error near"])
      (h : Reports s file o name start) :
      ∃ next span, load s file o name = .error (.text (.unexpected next) span) ∧
        start.toList <+: (Rejection.text (.unexpected next) span).diagnostic.message.toList := by
    obtain ⟨e, he, hfront⟩ := h
    rcases e.elsewise_message with ⟨next, span, rfl⟩ | helse
    · exact ⟨next, span, he, hfront⟩
    · exact absurd hfront (helse start hstart)
  obtain ⟨items, rest, hmodule⟩ : ∃ items rest, Listing.module s = some (items, rest) :=
    ⟨_, _, rfl⟩
  refine ⟨fun h => ?_, ⟨fun h => ?_, fun h => ?_⟩, ?_⟩
  · obtain ⟨next, span, -, hfront⟩ := hreports (by decide) h
    have hunexpected := Rejection.prefix_message_unexpected next span
    rcases List.prefix_or_prefix_of_prefix hfront hunexpected with h | h <;>
      exact absurd h (by decide)
  · obtain ⟨next, span, hload, -⟩ := hreports (by decide) h
    rintro ⟨items, hitems⟩
    exact ne_unexpected_of_module hitems next span hload
  · have hne : rest ≠ [] := fun hnil => h ⟨items, hnil ▸ hmodule⟩
    exact ⟨_, load_of_module hmodule hne, Rejection.prefix_message_unexpected ..⟩
  · by_cases hne : rest = []
    · exact .inl ⟨items, hne ▸ hmodule⟩
    · have hstops := Listing.stopsAt_of_module hmodule hne
      obtain ⟨items', _, hread, -⟩ := hstops.listing
      have hrest : rest = s.drop (s.length - rest.length) :=
        congrArg Prod.snd (Option.some.inj (hmodule.symm.trans hread))
      have hoffset := Text.Position.offset_after (s.take (s.length - rest.length))
        (s.drop (s.length - rest.length))
      rw [List.take_append_drop, List.length_take, Nat.min_eq_left hstops.lt.le] at hoffset
      refine .inr ⟨_, hstops, hoffset, ?_⟩
      rw [← hrest]
      exact load_of_module hmodule hne

end Program

end BoxFlow
