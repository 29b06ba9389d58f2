import Mathlib.Data.List.Basic
import BoxFlow.Listing.Reader

/-!
# Reading what has been written

`Reads stop r t P` says that the rule `r` reads the text `t` whole, whatever follows it, as long as
that meets `stop`, and takes the layout after it; what it reads has the property `P`. One rule for
each way to put readers together, then what the tokens read.
-/

namespace BoxFlow.Listing

open Reader

/-! ## Layout -/

/-- A character that is neither white space nor the start of a comment. -/
def IsSolid (c : Char) : Prop := Text.isBlank c = false ∧ c ≠ ';'

instance (c : Char) : Decidable (IsSolid c) := inferInstanceAs (Decidable (_ ∧ _))

theorem isSolid_of_isNameChar {c : Char} (h : isNameChar c = true) : IsSolid c := by
  have hc : c.toNat < 0x80 ∧ 0x24 ≤ c.toNat ∧ c.toNat ≠ 0x3b := by
    have hword : c.isAlphanum = (decide (c.val ≥ 'A'.val ∧ c.val ≤ 'Z'.val) ||
        (decide (c.val ≥ 'a'.val) && decide (c.val ≤ 'z'.val)) ||
        (decide (c.val ≥ '0'.val) && decide (c.val ≤ '9'.val))) := rfl
    simp only [isNameChar, hword, Bool.or_eq_true, Bool.and_eq_true, decide_eq_true_eq,
      UInt32.le_iff_toNat_le, ge_iff_le] at h
    rcases h with ((((((⟨h, h'⟩ | ⟨h, h'⟩) | ⟨h, h'⟩) | rfl) | rfl) | rfl) | rfl)
    all_goals first | decide | skip
    all_goals simp only [Char.toNat] at *
    all_goals simp at h h' ⊢
    all_goals omega
  constructor
  · simp [Text.isBlank]
    omega
  · rintro rfl
    exact hc.2.2 rfl

theorem isNameChar_of_isWordChar (c : Char) (h : isWordChar c = true) : isNameChar c = true := by
  simp only [isWordChar, isNameChar, Bool.or_eq_true] at h ⊢
  rcases h with h | h <;> simp [h]

theorem isNameChar_of_isDigit (c : Char) (h : c.isDigit = true) : isNameChar c = true := by
  simp [isNameChar, Char.isAlphanum, h]

/-- The text has a solid character at its front. -/
def Opens (t : List Char) : Prop := ∃ c u, t = c :: u ∧ IsSolid c

theorem Opens.cons {c : Char} (h : IsSolid c) (t : List Char) : Opens (c :: t) := ⟨c, t, rfl, h⟩

theorem Opens.append {t : List Char} (h : Opens t) (s : List Char) : Opens (t ++ s) := by
  obtain ⟨c, u, rfl, hc⟩ := h
  exact ⟨c, u ++ s, rfl, hc⟩

theorem skipLayout_of_opens {t : List Char} (h : Opens t) : skipLayout false t = t := by
  obtain ⟨c, u, rfl, hb, hc⟩ := h
  rw [skipLayout, if_neg (by simp [hb]), if_neg hc]

theorem skipLayout_blank {c : Char} (h : Text.isBlank c = true) (s : List Char) :
    skipLayout false (c :: s) = skipLayout false s := by
  rw [skipLayout, if_pos h]

theorem skipLayout_blanks {sep : List Char} (h : ∀ c ∈ sep, Text.isBlank c = true) (s : List Char) :
    skipLayout false (sep ++ s) = skipLayout false s := by
  induction sep with
  | nil => rfl
  | cons c sep ih =>
    rw [List.cons_append, skipLayout_blank (h c List.mem_cons_self),
      ih fun d hd => h d (List.mem_cons_of_mem _ hd)]

theorem length_skipLayout_le (comment : Bool) (s : List Char) :
    (skipLayout comment s).length ≤ s.length := by
  fun_induction skipLayout comment s <;> simp_all <;> omega

/-! ## Where tokens end -/

/-- No character of a name comes next. -/
def Ends (s : List Char) : Prop := ∀ c ∈ s.head?, isNameChar c = false

/-- Nor does a comma come after layout. -/
def Closes (s : List Char) : Prop := Ends s ∧ (skipLayout false s).head? ≠ some ','

/-- Anything may come next. -/
def Any (_ : List Char) : Prop := True

theorem ends_cons {c : Char} (h : isNameChar c = false) (s : List Char) : Ends (c :: s) := by
  rintro _ ⟨⟩
  exact h

theorem ends_gap {sep : List Char} (h : ∀ c ∈ sep, Text.isBlank c = true) (hne : sep ≠ [])
    (s : List Char) : Ends (sep ++ s) := by
  cases sep with
  | nil => exact absurd rfl hne
  | cons c sep =>
    refine ends_cons (Bool.eq_false_iff.2 fun hc => ?_) _
    have hblank := h c List.mem_cons_self
    rw [(isSolid_of_isNameChar hc).1] at hblank
    cases hblank

theorem closes_gap {sep t : List Char} (h : ∀ c ∈ sep, Text.isBlank c = true) (hne : sep ≠ [])
    (ht : Opens t) (hcomma : t.head? ≠ some ',') (s : List Char) : Closes (sep ++ (t ++ s)) := by
  refine ⟨ends_gap h hne _, ?_⟩
  rw [skipLayout_blanks h, skipLayout_of_opens (ht.append s), List.head?_append]
  obtain ⟨c, u, rfl, -⟩ := ht
  exact hcomma

/-- Where no name goes on, nothing goes on that is made of fewer characters. -/
theorem Ends.head {s : List Char} {p : Char → Bool} (h : Ends s)
    (hp : ∀ c, p c = true → isNameChar c = true) : ∀ c ∈ s.head?, p c = false := by
  intro c hc
  refine Bool.eq_false_iff.2 fun hpc => ?_
  have := h c hc
  rw [hp c hpc] at this
  cases this

/-! ## Readers put together -/

section Combinators

variable {α β : Type} {r r' : Reader α} {k : α → Reader β} {s s' t u : List Char} {a : α} {b : β}
  {P : α → Prop} {Q : β → Prop} {stop stop' : List Char → Prop}

theorem bind_run (h : r s = some (a, u)) : (r >>= k) s = k a u := by
  show (r s).bind _ = _
  rw [h]
  rfl

theorem bind_eq_some {x : β × List Char} :
    (r >>= k) s = some x ↔ ∃ a s', r s = some (a, s') ∧ k a s' = some x := by
  show (r s).bind _ = _ ↔ _
  cases h : r s with
  | none => simp
  | some y => obtain ⟨a, s'⟩ := y; simp

theorem bind_eq_none : (r >>= k) s = none ↔ ∀ a s', r s = some (a, s') → k a s' = none := by
  show (r s).bind _ = _ ↔ _
  cases h : r s with
  | none => simp
  | some y => obtain ⟨a, s'⟩ := y; simp

theorem bind_of_none (h : r s = none) (k : α → Reader β) : (r >>= k) s = none :=
  bind_eq_none.2 fun _ _ h' => nomatch h.symm.trans h'

theorem pure_run (a : α) (s : List Char) : (pure a : Reader α) s = some (a, s) := rfl

theorem map_run (f : α → β) (s : List Char) :
    (f <$> r) s = (r s).map fun x => (f x.1, x.2) := by
  show (r s).bind _ = _
  cases r s <;> rfl

theorem orElse_run (r r' : Reader α) (s : List Char) :
    (r <|> r') s = (r s).or (r' s) := by
  show (r s <|> r' s) = _
  cases r s <;> rfl

/-- `r` reads `t` and the layout after it, whatever follows that meets `stop`. -/
def Reads (stop : List Char → Prop) (r : Reader α) (t : List Char) (P : α → Prop) : Prop :=
  ∀ s, stop s → ∃ a, r (t ++ s) = some (a, skipLayout false s) ∧ P a

namespace Reads

theorem mono (h : Reads stop r t P) (hs : ∀ s, stop' s → stop s) {Q : α → Prop}
    (hP : ∀ a, P a → Q a) : Reads stop' r t Q := by
  intro s hstop
  obtain ⟨a, ha, hp⟩ := h s (hs s hstop)
  exact ⟨a, ha, hP a hp⟩

/-- What comes next, after white space. -/
theorem gap {sep : List Char} (h : Reads stop' r t P) (hsep : ∀ c ∈ sep, Text.isBlank c = true)
    (hstop : ∀ s, stop' (sep ++ (u ++ s))) (hu : Opens u)
    (hk : ∀ a, P a → Reads stop (k a) u Q) : Reads stop (r >>= k) (t ++ (sep ++ u)) Q := by
  intro s hs
  obtain ⟨a, ha, hp⟩ := h (sep ++ (u ++ s)) (hstop s)
  obtain ⟨b, hb, hq⟩ := hk a hp s hs
  refine ⟨b, ?_, hq⟩
  rw [List.append_assoc, List.append_assoc, bind_run ha, skipLayout_blanks hsep,
    skipLayout_of_opens (hu.append s), hb]

/-- What comes next, after a space. -/
theorem space (h : Reads stop' r t P) (hstop : ∀ s, stop' (' ' :: s)) (hu : Opens u)
    (hk : ∀ a, P a → Reads stop (k a) u Q) : Reads stop (r >>= k) (t ++ ' ' :: u) Q :=
  h.gap (List.forall_mem_singleton.2 rfl) (fun _ => hstop _) hu hk

/-- What comes next, right away. -/
theorem next (h : Reads stop' r t P) (hstop : ∀ s, stop' (u ++ s)) (hu : Opens u)
    (hk : ∀ a, P a → Reads stop (k a) u Q) : Reads stop (r >>= k) (t ++ u) Q :=
  h.gap (List.forall_mem_nil _) hstop hu hk

theorem map (h : Reads stop r t P) (f : α → β) (hQ : ∀ a, P a → Q (f a)) :
    Reads stop (r >>= fun a => pure (f a)) t Q := by
  intro s hs
  obtain ⟨a, ha, hp⟩ := h s hs
  exact ⟨f a, by rw [bind_run ha, pure_run], hQ a hp⟩

theorem left {k : Nat → Reader β} (h : ∀ n, Reads stop (k n) t Q) :
    Reads stop (left >>= k) t Q := by
  intro s hs
  obtain ⟨b, hb, hq⟩ := h (t ++ s).length s hs
  exact ⟨b, by rw [bind_run (r := Reader.left) rfl, hb], hq⟩

theorem orLeft (h : Reads stop r t P) : Reads stop (r <|> r') t P := by
  intro s hs
  obtain ⟨a, ha, hp⟩ := h s hs
  exact ⟨a, by rw [orElse_run, ha, Option.some_or], hp⟩

theorem orRight (hr : ∀ s, r (t ++ s) = none) (h : Reads stop r' t P) :
    Reads stop (r <|> r') t P := by
  intro s hs
  obtain ⟨a, ha, hp⟩ := h s hs
  exact ⟨a, by rw [orElse_run, hr, Option.none_or, ha], hp⟩

end Reads

end Combinators

/-! ## Repetition -/

section Repetition

variable {α : Type} {r : Reader α} {s s' s₁ : List Char} {a : α} {as : List α}

/-- `r` succeeds on `s` again and again, reading `as`, and fails on `s'`. -/
inductive Runs (r : Reader α) : List Char → List α → List Char → Prop
  | nil {s : List Char} : r s = none → Runs r s [] s
  | cons {s t u : List Char} {a : α} {as : List α} : r s = some (a, t) →
    t.length < s.length → Runs r t as u → Runs r s (a :: as) u

theorem Runs.repeated (h : Runs r s as s') {bound : Nat} (hb : s.length ≤ bound) :
    repeated r bound s = (as, s') := by
  induction h generalizing bound with
  | nil h =>
    cases bound with
    | zero => rfl
    | succ bound => rw [Reader.repeated, h]
  | cons h hlt _ ih =>
    cases bound with
    | zero => omega
    | succ bound => rw [Reader.repeated, h]; dsimp only; rw [ih (by omega)]

theorem Runs.many (h : Runs r s as s') : many r s = some (as, s') := by
  rw [Reader.many, h.repeated (Nat.le_refl _)]

/-- A reader that takes a character whenever it succeeds. -/
def Takes (r : Reader α) : Prop := ∀ {s a s'}, r s = some (a, s') → s'.length < s.length

theorem runs_of_repeated (hr : Takes r) {bound : Nat} (hb : s.length ≤ bound)
    (h : Reader.repeated r bound s = (as, s')) : Runs r s as s' := by
  induction bound generalizing s as with
  | zero =>
    cases h
    refine .nil ?_
    cases hs : r s' with
    | none => rfl
    | some x => exact absurd (Nat.lt_of_lt_of_le (hr hs) hb) (Nat.not_lt_zero _)
  | succ bound ih =>
    rw [Reader.repeated] at h
    split at h
    · next hs => cases h; exact .nil hs
    · next a s₁ hs =>
      have hlt := hr hs
      generalize hrep : Reader.repeated r bound s₁ = x at h
      obtain ⟨as', t⟩ := x
      cases h
      exact .cons hs hlt (ih (by omega) hrep)

theorem runs_of_many (hr : Takes r) (h : many r s = some (as, s')) : Runs r s as s' :=
  runs_of_repeated hr (Nat.le_refl _) (Option.some.inj h)

/-- It stops where the reader fails. -/
theorem Runs.stops (h : Runs r s as s') : r s' = none := by
  induction h with
  | nil h => exact h
  | cons _ _ _ ih => exact ih

/-! ## Chunks -/

variable {β : Type} {r : Reader β} {stop stop' : List Char → Prop} {g : β → β} {b : β}
  {bs : List β} {t : List Char} {cs : List (List Char × List Char)}

/-- Texts one after the other, each after its white space. -/
def chunks (cs : List (List Char × List Char)) : List Char := cs.flatMap fun c => c.1 ++ c.2

theorem chunks_cons (c : List Char × List Char) (cs : List (List Char × List Char)) :
    chunks (c :: cs) = c.1 ++ (c.2 ++ chunks cs) := by
  rw [chunks, List.flatMap_cons, List.append_assoc, chunks]

/-- The reader reads the chunk as an item that is `b` up to `g`. -/
def ReadsChunk (stop : List Char → Prop) (r : Reader β) (g : β → β) (c : List Char × List Char)
    (b : β) : Prop :=
  (∀ x ∈ c.1, Text.isBlank x = true) ∧ Opens c.2 ∧ Reads stop r c.2 (g · = b)

theorem runs_chunks (h : List.Forall₂ (ReadsChunk stop r g) cs bs)
    (hstop : ∀ c ∈ cs.tail, ∀ s, stop (c.1 ++ (c.2 ++ s))) (hs : stop s)
    (hnone : r (skipLayout false s) = none) :
    ∃ bs', Runs r (skipLayout false (chunks cs ++ s)) bs' (skipLayout false s) ∧
      bs'.map g = bs := by
  induction h with
  | nil => exact ⟨[], .nil hnone, rfl⟩
  | @cons c b cs bs hc _ ih =>
    obtain ⟨hblank, hopens, hreads⟩ := hc
    obtain ⟨bs', hruns, hmap⟩ := ih fun c hc => hstop c (List.mem_of_mem_tail hc)
    have hnext : stop (chunks cs ++ s) := by
      cases cs with
      | nil => exact hs
      | cons c cs =>
        rw [chunks_cons, List.append_assoc, List.append_assoc]
        exact hstop c List.mem_cons_self _
    obtain ⟨b', hb', rfl⟩ := hreads _ hnext
    refine ⟨b' :: bs', ?_, congrArg _ hmap⟩
    rw [chunks_cons, List.append_assoc, List.append_assoc, skipLayout_blanks hblank,
      skipLayout_of_opens (hopens.append _)]
    refine .cons hb' ?_ hruns
    obtain ⟨x, u, hu, -⟩ := hopens
    refine Nat.lt_of_le_of_lt (length_skipLayout_le false _) ?_
    simp only [hu, List.cons_append, List.length_cons, List.length_append]
    omega

/-- An item and the chunks after it. -/
theorem reads_many1 (h₁ : Reads stop r t (g · = b)) (h : List.Forall₂ (ReadsChunk stop r g) cs bs)
    (hnext : ∀ c ∈ cs, ∀ s, stop (c.1 ++ (c.2 ++ s)))
    (hstop : ∀ s, stop' s → stop s ∧ r (skipLayout false s) = none) :
    Reads stop' (many1 r) (t ++ chunks cs) (·.map g = b :: bs) := by
  intro s hs
  obtain ⟨hs, hnone⟩ := hstop s hs
  obtain ⟨bs', hruns, hmap⟩ := runs_chunks h (fun c hc => hnext c (List.mem_of_mem_tail hc)) hs hnone
  have hfirst : stop (chunks cs ++ s) := by
    cases cs with
    | nil => exact hs
    | cons c cs =>
      rw [chunks_cons, List.append_assoc, List.append_assoc]
      exact hnext c List.mem_cons_self _
  obtain ⟨b', hb', rfl⟩ := h₁ _ hfirst
  refine ⟨b' :: bs', ?_, congrArg _ hmap⟩
  rw [many1, List.append_assoc, bind_run hb', bind_run hruns.many, pure_run]

end Repetition

/-! ## Words -/

section Words

variable {w : String} {c : Char} {s s' t : List Char}

theorem word_append (w : String) (s : List Char) : word w (w.toList ++ s) = some ((), s) := by
  rw [word, if_pos (List.isPrefixOf_iff_prefix.2 (List.prefix_append ..)), List.drop_left]

theorem word_eq_some : word w s = some ((), s') ↔ s = w.toList ++ s' := by
  constructor
  · intro h
    unfold word at h
    split at h
    · next hpre =>
      cases h
      exact (List.prefix_iff_eq_append.1 (List.isPrefixOf_iff_prefix.1 hpre)).symm
    · cases h
  · rintro rfl
    exact word_append w s'

theorem token_eq_some :
    token w s = some ((), s') ↔ ∃ t, s = w.toList ++ t ∧ s' = skipLayout false t := by
  rw [token, bind_eq_some]
  constructor
  · rintro ⟨⟨⟩, t, h, h'⟩
    cases h'
    exact ⟨t, word_eq_some.1 h, rfl⟩
  · rintro ⟨t, rfl, rfl⟩
    exact ⟨(), t, word_append w t, rfl⟩

theorem token_append (w : String) (s : List Char) :
    token w (w.toList ++ s) = some ((), skipLayout false s) :=
  token_eq_some.2 ⟨s, rfl, rfl⟩

/-- A word is not read where another character comes first. -/
theorem token_eq_none (hw : w.toList.head? = some c) (hs : s.head? ≠ some c) :
    token w s = none := by
  cases h : token w s with
  | none => rfl
  | some x =>
    obtain ⟨t, rfl, -⟩ := token_eq_some.1 h
    rw [List.head?_append, hw] at hs
    exact absurd rfl hs

theorem word_eq_none (hw : w.toList.head? = some c) (hs : s.head? ≠ some c) : word w s = none := by
  cases h : word w s with
  | none => rfl
  | some x =>
    rw [word_eq_some.1 h, List.head?_append, hw] at hs
    exact absurd rfl hs

/-- Symbols and keywords. -/
theorem reads_token (w : String) : Reads Any (token w) w.toList fun _ => True :=
  fun s _ => ⟨(), token_append w s, trivial⟩

theorem takeWhile_dropWhile_append {p : Char → Bool} (hp : ∀ c ∈ t, p c = true)
    (hs : ∀ c ∈ s.head?, p c = false) :
    (t ++ s).takeWhile p = t ∧ (t ++ s).dropWhile p = s := by
  rw [List.takeWhile_append_of_pos hp, List.dropWhile_append_of_pos hp]
  cases s with
  | nil => simp
  | cons c s => simp [hs c rfl]

theorem run_append {p : Char → Bool} (ht : t ≠ []) (hp : ∀ c ∈ t, p c = true)
    (hs : ∀ c ∈ s.head?, p c = false) : run p (t ++ s) = some (t, s) := by
  obtain ⟨htake, hdrop⟩ := takeWhile_dropWhile_append hp hs
  unfold run
  rw [htake, hdrop]
  cases t with
  | nil => exact absurd rfl ht
  | cons => rfl

theorem run_eq_some {p : Char → Bool} (h : run p s = some (t, s')) :
    s = t ++ s' ∧ t ≠ [] ∧ (∀ c ∈ t, p c = true) ∧ ∀ c ∈ s'.head?, p c = false := by
  unfold run at h
  split at h
  · cases h
  · next hne =>
    cases h
    refine ⟨List.takeWhile_append_dropWhile.symm, hne, List.all_eq_true.1 List.all_takeWhile, ?_⟩
    intro c hc
    have := List.head?_dropWhile_not p s
    rw [hc] at this
    simpa using this

end Words

end BoxFlow.Listing
