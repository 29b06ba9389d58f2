import BoxFlow.Rewriting

/-!
# Edits that succeed

`Ends x s Q` says that the computation `x` succeeds from the state `s`, and what holds of its result
and of the state it leaves; `Yields x s Q` says the latter only. There is one lemma for each of the
operations that edits and rewrites are made of.
-/

namespace BoxFlow

variable {ε σ α β : Type} {x : EStateM ε σ α} {k : α → EStateM ε σ β} {s t : σ}
  {P Q : α → σ → Prop} {R : β → σ → Prop}

/-- The computation succeeds with a result and a state as described. -/
def Ends (x : EStateM ε σ α) (s : σ) (Q : α → σ → Prop) : Prop :=
  ∃ a t, x s = .ok a t ∧ Q a t

instance [∀ a t, Decidable (Q a t)] : Decidable (Ends x s Q) :=
  match h : x s with
  | .ok a t => decidable_of_iff (Q a t) ⟨fun hQ => ⟨a, t, h, hQ⟩, fun ⟨_, _, hx, hQ⟩ => by
      cases h.symm.trans hx
      exact hQ⟩
  | .error _ _ => .isFalse fun ⟨_, _, hx, _⟩ => nomatch h.symm.trans hx

namespace Ends

theorem mono (h : Ends x s P) (hPQ : ∀ a t, P a t → Q a t) : Ends x s Q := by
  obtain ⟨a, t, hx, hP⟩ := h
  exact ⟨a, t, hx, hPQ a t hP⟩

theorem ok {a : α} (h : x s = .ok a t) (hQ : Q a t) : Ends x s Q := ⟨a, t, h, hQ⟩

theorem pure {a : α} (h : Q a s) : Ends (ε := ε) (pure a) s Q := ⟨a, s, rfl, h⟩

theorem bind (h : Ends x s P) (hk : ∀ a t, P a t → Ends (k a) t R) : Ends (x >>= k) s R := by
  obtain ⟨a, t, hx, hP⟩ := h
  obtain ⟨b, u, hb, hR⟩ := hk a t hP
  refine ⟨b, u, ?_, hR⟩
  show EStateM.bind x k s = _
  rw [EStateM.bind, hx]
  exact hb

/-- A first step that is known to succeed. -/
theorem bind_ok {a : α} (hx : x s = .ok a t) (h : Ends (k a) t R) : Ends (x >>= k) s R :=
  bind (P := fun b u => b = a ∧ u = t) ⟨a, t, hx, rfl, rfl⟩ fun _ _ ⟨hb, hu⟩ => hb ▸ hu ▸ h

theorem bind_get {k : σ → EStateM ε σ β} (h : Ends (k s) s R) :
    Ends (MonadState.get >>= k) s R := bind_ok rfl h

theorem bind_set {k : PUnit → EStateM ε σ β} (h : Ends (k ⟨⟩) t R) :
    Ends (MonadStateOf.set t >>= k) s R := bind_ok rfl h

theorem bind_modify {g : σ → σ} {k : PUnit → EStateM ε σ β} (h : Ends (k ⟨⟩) (g s) R) :
    Ends (modify g >>= k) s R := bind_ok rfl h

theorem bind_modifyGet {g : σ → α × σ} (h : Ends (k (g s).1) (g s).2 R) :
    Ends (modifyGet g >>= k) s R := bind_ok rfl h

theorem map {g : α → β} (h : Ends x s fun a t => R (g a) t) : Ends (g <$> x) s R := by
  obtain ⟨a, t, hx, hR⟩ := h
  refine ⟨g a, t, ?_, hR⟩
  show EStateM.map g x s = _
  rw [EStateM.map, hx]

/-! ## Lists -/

variable {γ : Type} {l : List γ}

/-- An invariant of the elements that are left. -/
theorem forM {g : γ → EStateM ε σ PUnit} {I : List γ → σ → Prop}
    (hstep : ∀ a l s, I (a :: l) s → Ends (g a) s fun _ t => I l t) (h : I l s) :
    Ends (l.forM g) s fun _ t => I [] t := by
  induction l generalizing s with
  | nil => exact .pure h
  | cons a l ih => exact (hstep a l s h).bind fun _ t ht => ih ht

/-- An invariant of the elements that are left and of those chosen so far. -/
theorem filterM {g : γ → EStateM ε σ Bool} {I : List γ → List γ → σ → Prop}
    (hstep : ∀ a l sel s, I (a :: l) sel s →
      Ends (g a) s fun b t => I l (if b then sel ++ [a] else sel) t)
    (h : I l [] s) : Ends (l.filterM g) s fun sel t => I [] sel t := by
  have haux (l acc : List γ) (s : σ) (h : I l acc.reverse s) :
      Ends (l.filterAuxM g acc) s fun sel t => I [] sel.reverse t := by
    induction l generalizing acc s with
    | nil => exact .pure h
    | cons a l ih =>
      refine (hstep a l _ s h).bind fun b t ht => ih _ t ?_
      cases b with
      | true => simpa using ht
      | false => exact ht
  exact (haux l [] s h).bind fun sel t ht => .pure ht

end Ends

/-! ## Results -/

/-- The computation fails from the state `s`, or its result and the state it leaves are as
described. -/
def Yields (x : EStateM ε σ α) (s : σ) (Q : α → σ → Prop) : Prop :=
  ∀ a t, x s = .ok a t → Q a t

theorem Ends.yields (h : Ends x s P) : Yields x s P := by
  obtain ⟨a, t, hx, hP⟩ := h
  intro b u hb
  cases hx.symm.trans hb
  exact hP

/-- What is known of the result, if there is one. -/
theorem Ends.and (h : Ends x s P) (hQ : Yields x s Q) : Ends x s fun a t => P a t ∧ Q a t := by
  obtain ⟨a, t, hx, hP⟩ := h
  exact ⟨a, t, hx, hP, hQ a t hx⟩

namespace Yields

theorem mono (h : Yields x s P) (hPQ : ∀ a t, P a t → Q a t) : Yields x s Q :=
  fun a t hx => hPQ a t (h a t hx)

theorem any : Yields x s fun _ _ => True := fun _ _ _ => trivial

theorem pure {a : α} (h : Q a s) : Yields (ε := ε) (pure a) s Q := by
  intro b t hx
  cases hx
  exact h

theorem bind (h : Yields x s P) (hk : ∀ a t, P a t → Yields (k a) t R) : Yields (x >>= k) s R := by
  intro b u hb
  change EStateM.bind x k s = .ok b u at hb
  unfold EStateM.bind at hb
  split at hb
  · next a t hx => exact hk a t (h a t hx) b u hb
  · cases hb

theorem bind_get {k : σ → EStateM ε σ β} (h : Yields (k s) s R) :
    Yields (MonadState.get >>= k) s R :=
  bind (P := fun a t => a = s ∧ t = s) (fun _ _ hx => by cases hx; exact ⟨rfl, rfl⟩)
    fun _ _ ⟨ha, ht⟩ => ha ▸ ht ▸ h

end Yields

/-- The computation says no exactly if `idle`, and then it leaves the state as it is. -/
def Idles (x : EStateM ε σ Bool) (s : σ) (idle : Prop) : Prop :=
  Yields x s fun b t => (b = false ↔ idle) ∧ (b = false → t = s)

namespace Idles

variable {y : EStateM ε σ Bool} {idle : Prop}

theorem no (h : idle) : Idles (ε := ε) (pure false) s idle :=
  .pure ⟨iff_of_true rfl h, fun _ => rfl⟩

/-- Whatever has been done before, the computation does not say no. -/
theorem yes (h : Yields y s fun b _ => b = true) (hidle : ¬idle) : Idles y s idle :=
  h.mono fun b _ hb => ⟨iff_of_false (by simp [hb]) hidle, by simp [hb]⟩

/-- Nothing is selected, and nothing is done, exactly if each of the elements by itself is idle. -/
theorem filterM {γ : Type} {l : List γ} {g : γ → EStateM ε σ Bool} {idle : γ → Prop}
    (h : ∀ a ∈ l, Idles (g a) s (idle a)) :
    Yields (l.filterM g) s fun sel t => (sel = [] ↔ ∀ a ∈ l, idle a) ∧ (sel = [] → t = s) := by
  -- What has been selected stays selected.
  have hselected (l acc : List γ) (s : σ) (hacc : acc ≠ []) :
      Yields (l.filterAuxM g acc) s fun sel _ => sel ≠ [] := by
    induction l generalizing acc s with
    | nil => exact .pure hacc
    | cons a l ih =>
      refine .bind .any fun b t _ => ih _ t ?_
      cases b <;> simp [hacc]
  have haux (l : List γ) (h : ∀ a ∈ l, Idles (g a) s (idle a)) :
      Yields (l.filterAuxM g []) s fun sel t =>
        (sel = [] ↔ ∀ a ∈ l, idle a) ∧ (sel = [] → t = s) := by
    induction l with
    | nil => exact .pure (by simp)
    | cons a l ih =>
      refine .bind (h a List.mem_cons_self) fun b t ⟨hidle, ht⟩ => ?_
      cases b with
      | true =>
        refine (hselected l [a] t (by simp)).mono fun sel u hsel => ?_
        have hbusy : ¬idle a := fun ha => nomatch hidle.2 ha
        simp [hsel, hbusy]
      | false =>
        obtain rfl := ht rfl
        refine (ih fun b hb => h b (List.mem_cons_of_mem _ hb)).mono fun sel u hsel => ?_
        simpa [hidle.1 rfl] using hsel
  exact (haux l h).bind fun sel t ht => .pure (by simpa using ht)

end Idles

end BoxFlow
