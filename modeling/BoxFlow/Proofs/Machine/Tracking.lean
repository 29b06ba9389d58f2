import BoxFlow.Proofs.Machine.Effects
import BoxFlow.Proofs.Machine.Given

/-!
# Effects keep track of actions

The effect of an instruction keeps track of what its action does (`Tracks.perform`), in a function
that is given handles and cells from outside, by one lemma for each action. A load of an unknown
pointee brings to light what the cell has held from the start (`Tracks.load`).
-/

namespace BoxFlow

namespace View

variable {v : View} {k : Knowledge} {i : InstId} {pointer : Value} {q : Id}

/-- What describes the result of a load. -/
theorem mem_loadEffect_pointsTo (hk : v.cls.classOf (.inst i) = .pointer)
    (hne : v.idOf (.inst i) ≠ v.idOf pointer)
    (hq : q ∈ v.loaded k .pointer (k.pointsTo (v.idOf pointer))) :
    q ∈ (v.loadEffect i k pointer).pointsTo (v.idOf (.inst i)) := by
  unfold loadEffect loadedEffect
  dsimp only
  rw [hk]
  exact .inl ⟨Knowledge.mem_describe_pointer.2 hq, fun ⟨h, _⟩ => hne h⟩

end View

/-- No merge that is a cell to the analysis takes what is a handle to it. -/
def Program.PureMerges (p : Program) (f : FuncId) (c : Classification) : Prop :=
  ∀ i ∈ p.instructions f, c.classOf (.inst i) = .pointer → ∀ u ∈ (p.inst i).op.merged,
    c.classOf u ≠ .data

instance (p : Program) (f : FuncId) (c : Classification) : Decidable (p.PureMerges f c) :=
  inferInstanceAs (Decidable (∀ i ∈ p.instructions f, _ → ∀ u ∈ _, _))

namespace Machine

variable {p : Program} {o : Options} {w : World} {f : FuncId} {v : View} {k k' : Knowledge}
  {m : Machine} {i : InstId} {x y : Datum} {s t u : Value} {c g : Nat} {q : Id}

namespace Tracks

/-! ## Merges -/

/-- What is known of the value that a merge takes, where it takes it. -/
structure Takes (v : View) (w : World) (i : InstId) (x : Datum) (m : Machine) (q : Id × Knowledge) :
    Prop where
  aliases : ∀ {u}, v.cls.classOf u ≠ .irrelevant → m.eval w u = some x → v.idOf u ∈ q.2.aliases q.1
  defs : ∀ {g}, v.cls.classOf (.inst i) = .data → x = .handle g → m.definer v g ∈ q.2.defs q.1
  pointsTo : ∀ {c y}, v.cls.classOf (.inst i) = .pointer → x = .cell c →
    m.heap.cells[c]? = some (some y) → Content v w q.2 m q.1 c y
  held : m.Exposes v w x

/-- A value of the same class is taken with what is known of it. -/
theorem takes (h : Tracks v w k m) (he : m.eval w s = some x) (href : x.IsRef)
    (hs : v.cls.classOf s = v.cls.classOf (.inst i)) (hi : v.cls.classOf (.inst i) ≠ .irrelevant) :
    Takes v w i x m (v.idOf s, k) where
  aliases hu hex := h.aliases (hs ▸ hi) hu href he hex
  defs hk hg := h.defs (hs.trans hk) (hg ▸ he)
  pointsTo hk hc hy := h.pointsTo (hs.trans hk) (hc ▸ he) hy
  held := ⟨s, hs ▸ hi, he⟩

theorem merge (h : Tracks v w k m) (hfresh : m.env i = none) {sources : Set (Id × Knowledge)}
    (hsrc : v.cls.classOf (.inst i) ≠ .irrelevant → x.IsRef → ∃ q ∈ sources, Takes v w i x m q) :
    Tracks v w (v.mergeEffect i k sources) (m.assign i x) := by
  unfold View.mergeEffect
  split
  · next hi => exact h.assign_plain hfresh fun _ => hi
  · next hi =>
    -- What is taken is in the open already.
    have hopen (hi : v.cls.classOf (.inst i) ≠ .irrelevant) (href : x.IsRef) (u : Value) (d : Nat)
        (hhid : Hidden v w m u (d + 1)) (e : Nat) (he : d < e) : w.along u e ≠ some x := by
      intro hx
      obtain ⟨q, -, htakes⟩ := hsrc hi href
      exact hhid.held he hx href htakes.held
    refine h.assign (S := {r | ∃ q ∈ sources, r ∈ q.2.aliases q.1})
      (by rw [Knowledge.describe_aliases]) ?_ ?_ ?_ ?_ ?_ ?_
    · intro q hq
      rw [Knowledge.describe_defs hq]
      exact subset_rfl
    · intro hi href u hu hex
      obtain ⟨q, hq, htakes⟩ := hsrc hi href
      exact ⟨q, hq, htakes.aliases hu hex⟩
    · rintro g hk rfl
      obtain ⟨q, hq, htakes⟩ := hsrc hi trivial
      rw [hk, Knowledge.mem_describe_data]
      exact ⟨q, hq, htakes.defs hk rfl⟩
    · intro u c y hu hec hy
      have hne := View.idOf_ne (v := v) (by simp [hu]) (ne_of_eval hfresh hec)
      refine (h.pointsTo hu hec hy).assign hfresh ?_ fun hi href u d _ _ hhid e he =>
        hopen hi href u d hhid e he
      rw [Knowledge.describe_pointsTo hne]
      exact subset_rfl
    · rintro c y hk rfl hy
      obtain ⟨q, hq, htakes⟩ := hsrc hi trivial
      refine (htakes.pointsTo hk rfl hy).assign hfresh (fun r hr => ?_)
        fun hi href u d _ _ hhid e he => hopen hi href u d hhid e he
      rw [hk, Knowledge.mem_describe_pointer]
      exact ⟨q, hq, hr⟩
    · intro hi
      cases x with
      | int => trivial
      | _ =>
        obtain ⟨q, -, htakes⟩ := hsrc hi trivial
        obtain ⟨u, hu, hx⟩ := htakes.held
        exact h.bounded hu hx

/-- A merge that has not taken anything yet. -/
theorem merge_of_fresh (h : Tracks v w k m) (hfresh : m.env i = none)
    (sources : Set (Id × Knowledge)) : Tracks v w (v.mergeEffect i k sources) m := by
  unfold View.mergeEffect
  split
  · exact h
  · have hne {u x} (hu : v.cls.classOf u ≠ .irrelevant) (hx : m.eval w u = some x) :
        v.idOf u ≠ v.idOf (.inst i) := View.idOf_ne hu (ne_of_eval hfresh hx)
    refine ⟨fun {s t x} hs ht href hes het => ?_, fun {s g} hs he => ?_, fun {s c y} hs he hy => ?_,
      h.bounded, h.grown⟩
    · rw [Knowledge.describe_aliases]
      exact .inr (.inr ⟨hne hs hes, hne ht het, h.aliases hs ht href hes het⟩)
    · rw [Knowledge.describe_defs (hne (by simp [hs]) he)]
      exact h.defs hs he
    · refine (h.pointsTo hs he hy).mono ?_
      rw [Knowledge.describe_pointsTo (hne (by simp [hs]) he)]
      exact subset_rfl

/-! ## Making handles and cells -/

section Making

variable (hs : Suited p o f v) (hw : w.Separate v.cls) (hfresh : m.env i = none)
  (h : Tracks v w k m)
include hs hw hfresh h

theorem alloc {ty : Ty} (hop : (p.inst i).op = .alloca ty)
    (hcons : v.cls.classOf (.inst i) = .pointer) :
    Tracks v w (v.effect i k) (m.perform w i .alloc) := by
  have hbefore : Tracks v w k { m with heap.cells := m.heap.cells ++ [none] } := by
    refine h.congr hw rfl (fun {c} hc => List.getElem?_append_left hc) (fun _ => rfl)
      fun {x} hx => ?_
    cases x with
    | cell c => exact Nat.lt_of_lt_of_le hx (by simp)
    | _ => exact hx
  have hnew : ¬(Datum.cell m.heap.cells.length).In m.heap := Nat.lt_irrefl _
  rw [View.effect_alloca (by rw [hs.program, hop]) hcons]
  refine hbefore.assign (S := ∅) (by rw [Knowledge.describe_aliases]) ?_ ?_ ?_ ?_ ?_ ?_
  · intro q hq
    rw [Knowledge.describe_defs hq]
    exact subset_rfl
  · intro _ _ u hu hx
    exact absurd (h.bounded hu hx) hnew
  · intro g _ hg
    cases hg
  · intro u c y hu hec hy
    refine (hbefore.pointsTo hu hec hy).assign hfresh ?_ fun _ _ u d hrec _ _ e _ he => ?_
    · rw [Knowledge.describe_pointsTo (View.idOf_ne (by simp [hu]) (ne_of_eval hfresh hec))]
      exact subset_rfl
    · exact hnew (h.grown (hw.inHeap hrec he))
  · rintro c y _ heq hy
    cases heq
    simp at hy
  · intro _
    simp [Datum.In]

theorem create {callee : String} {args : List Value} (hi : i ∈ p.instructions f)
    (hop : (p.inst i).op = .call callee args) (hkind : o.kindOf callee = .operation .create)
    (n : BitVec 64) : Tracks v w (v.effect i k) (m.perform w i (.create n)) := by
  have hbefore : Tracks v w k { m with
      heap.objects := m.heap.objects ++ [n]
      setter := Function.update m.setter m.heap.objects.length (some i) } := by
    refine h.congr hw rfl (fun _ => rfl)
      (fun {g} hg => Function.update_of_ne (Nat.ne_of_lt hg) ..) fun {x} hx => ?_
    cases x with
    | handle g => exact Nat.lt_of_lt_of_le hx (by simp)
    | _ => exact hx
  have hnew : ¬(Datum.handle m.heap.objects.length).In m.heap := Nat.lt_irrefl _
  rw [View.effect_create (by rw [hs.program, hop]) ((hs.kinds hi hop).trans hkind)]
  refine hbefore.assign (S := ∅) rfl (fun q hq d hd => .inr ⟨hq, hd⟩) ?_ ?_ ?_ ?_ ?_
  · intro _ _ u hu hx
    exact absurd (h.bounded hu hx) hnew
  · intro g _ hg
    cases hg
    refine .inl ⟨.inl ⟨rfl, .inl rfl⟩, ?_⟩
    simp [definer]
  · intro u c y hu hec hy
    exact (hbefore.pointsTo hu hec hy).assign hfresh subset_rfl fun _ _ u d hrec _ _ e _ he =>
      hnew (h.grown (hw.inHeap hrec he))
  · intro c y _ heq
    cases heq
  · intro _
    simp [Datum.In]

end Making

/-! ## Setting handles and filling cells -/

/-- A handle is set through a classified value. -/
theorem define (h : Tracks v w k m) (hw : w.Separate v.cls) (ht : v.cls.classOf t = .data)
    (he : m.eval w t = some (.handle g)) (n : BitVec 64) :
    Tracks v w (k.define (v.idOf t) (v.idOf (.inst i))) { m with
      heap.objects := m.heap.objects.set g n
      setter := Function.update m.setter g (some i) } := by
  let m' : Machine := { m with
    heap.objects := m.heap.objects.set g n
    setter := Function.update m.setter g (some i) }
  have htne : v.cls.classOf t ≠ .irrelevant := by simp [ht]
  have heval (u : Value) : m'.eval w u = m.eval w u := eval_congr rfl
  have hin {x : Datum} (hx : x.In m.heap) : x.In m'.heap := by
    cases x with
    | handle g' => simpa [Datum.In, m'] using hx
    | _ => exact hx
  refine ⟨fun {s u x} hs hu href hes heu => ?_, fun {s g'} hs hes => ?_,
    fun {s c y} hs hes hy => ?_,
    fun {s x} hs hes => hin (h.bounded hs ((heval s) ▸ hes)), fun hx => hin (h.grown hx)⟩
  · exact h.aliases hs hu href ((heval s) ▸ hes) ((heval u) ▸ heu)
  · have hes : m.eval w s = some (.handle g') := (heval s) ▸ hes
    have hsne : v.cls.classOf s ≠ .irrelevant := by simp [hs]
    by_cases hg : g' = g
    · subst hg
      refine .inl ⟨h.aliases (x := .handle g') htne hsne trivial he hes, ?_⟩
      simp [definer]
    · have hdef : m'.definer v g' = m.definer v g' := by
        simp only [definer, m', Function.update_of_ne hg]
      refine .inr ⟨View.idOf_ne hsne ?_, hdef ▸ h.defs hs hes⟩
      rintro rfl
      rw [he] at hes
      cases hes
      exact hg rfl
  · have hes : m.eval w s = some (.cell c) := (heval s) ▸ hes
    have hcontent : Content v w (k.define (v.idOf t) (v.idOf (.inst i))) m (v.idOf s) c y :=
      (h.pointsTo hs hes hy).mono subset_rfl
    refine hcontent.congr hw rfl (fun _ _ => rfl) fun {g'} _ hheld => ?_
    refine Function.update_of_ne (fun (hg : g' = g) => hheld ⟨t, htne, ?_⟩) ..
    rw [hg, he]

/-- A cell is filled through a classified value. -/
theorem overwrite (h : Tracks v w k m) (hw : w.Separate v.cls) (ht : v.cls.classOf t = .pointer)
    (he : m.eval w t = some (.cell c)) (hx : m.eval w u = some x) :
    Tracks v w (k.overwrite (v.idOf t) (v.idOf u)) (m.perform w i (.fill c x)) := by
  have htne : v.cls.classOf t ≠ .irrelevant := by simp [ht]
  have heval (u : Value) : (m.perform w i (.fill c x)).eval w u = m.eval w u := eval_congr rfl
  have hin {y : Datum} (hy : y.In m.heap) : y.In (m.perform w i (.fill c x)).heap := by
    cases y with
    | cell d => simpa [Datum.In, Machine.perform] using hy
    | _ => exact hy
  refine ⟨fun {s u x} hs hu href hes heu => ?_, fun {s g'} hs hes => ?_,
    fun {s c' y} hs hes hy => ?_,
    fun {s x} hs hes => hin (h.bounded hs ((heval s) ▸ hes)), fun hx => hin (h.grown hx)⟩
  · exact h.aliases hs hu href ((heval s) ▸ hes) ((heval u) ▸ heu)
  · exact h.defs hs ((heval s) ▸ hes)
  · have hes : m.eval w s = some (.cell c') := (heval s) ▸ hes
    have hsne : v.cls.classOf s ≠ .irrelevant := by simp [hs]
    have hy : (m.heap.cells.set c (some x))[c']? = some (some y) := hy
    by_cases hc : c' = c
    · subst hc
      rw [List.getElem?_set_self'] at hy
      cases hcell : m.heap.cells[c']? with
      | none => rw [hcell] at hy; cases hy
      | some z =>
        rw [hcell] at hy
        cases hy
        have hmem := h.aliases (x := .cell c') htne hsne trivial he hes
        exact .known (.inl ⟨hmem, rfl⟩) fun _ => (heval u).trans hx
    · rw [List.getElem?_set_ne (Ne.symm hc)] at hy
      have hne : v.idOf s ≠ v.idOf t := by
        refine View.idOf_ne hsne ?_
        rintro rfl
        rw [he] at hes
        cases hes
        exact hc rfl
      have hcontent : Content v w (k.overwrite (v.idOf t) (v.idOf u)) m (v.idOf s) c' y :=
        (h.pointsTo hs hes hy).mono fun r hr => .inr ⟨hne, hr⟩
      refine hcontent.congr hw rfl (fun {d} _ hheld => ?_) fun _ _ => rfl
      refine List.getElem?_set_ne fun (hcd : c = d) => hheld ⟨t, htne, ?_⟩
      rw [← hcd, he]

/-! ## Loads -/

/-- What a cell in the hands of the function holds: what a value of the class of the result stands
for, or what the caller has left in it. -/
inductive Held (v : View) (w : World) (k : Knowledge) (m : Machine) (i : InstId) (q : Id) (c : Nat)
    (x : Datum) : Prop
  | known {s : Value} : v.idOf s ∈ k.pointsTo q → v.cls.classOf s = v.cls.classOf (.inst i) →
    m.eval w s = some x → Held v w k m i q c x
  | initial {s : Value} {d : Nat} : unknown ∈ k.pointsTo q → v.cls.Receives s →
    w.along s d = some (.cell c) → w.along s (d + 1) = some x → Hidden v w m s (d + 1) →
    Held v w k m i q c x

namespace Held

variable {pointer : Value}

/-- What a tracked cell holds, if the load from it is consistent. -/
theorem of_load (hnum : v.cls.Numbered) (h : Tracks v w k m)
    (hptr : v.cls.classOf pointer = .pointer)
    (hclass : ∀ j ∈ k.pointsTo (v.idOf pointer), j ≠ unknown →
      v.cls.classOfId j = v.cls.classOf (.inst i))
    (hi : v.cls.classOf (.inst i) ≠ .irrelevant) (he : m.eval w pointer = some (.cell c))
    (hx : m.heap.cells[c]? = some (some x)) : Held v w k m i (v.idOf pointer) c x := by
  cases h.pointsTo hptr he hx with
  | @known s hmem heval =>
    have hs : v.cls.classOf s = v.cls.classOf (.inst i) := by
      rw [← View.classOfId_idOf hnum]
      exact hclass _ hmem (v.idOf_ne_unknown s)
    exact .known hmem hs (heval (hs ▸ hi))
  | initial hmem hrec hcell hnext hhid => exact .initial hmem hrec hcell hnext hhid

/-- A load brings to light only what is in the open already, or what is next to it. -/
theorem along_ne (h : Held v w k m i q c x) (hw : w.Separate v.cls)
    (hi : v.cls.classOf (.inst i) ≠ .irrelevant) (href : x.IsRef) (hc : m.Exposes v w (.cell c))
    {d e : Nat} (hu : v.cls.Receives u) (hd : w.along u d ≠ some (.cell c))
    (hhid : Hidden v w m u (d + 1)) (he : d < e) : w.along u e ≠ some x := by
  intro hx
  cases h with
  | known hmem hclass heval => exact hhid.held he hx href ⟨_, hclass ▸ hi, heval⟩
  | @initial s d' hmem hs hcell hnext hhid' =>
    obtain ⟨rfl, rfl⟩ := hw.unique hu hs href hx hnext
    rcases Nat.lt_or_eq_of_le (Nat.le_of_lt_succ he) with hlt | rfl
    · -- The cell itself would be hidden.
      exact hhid.held hlt hcell trivial hc
    · exact hd hcell

/-- What stands for the same as a loaded value is linked to it. -/
theorem mem_aliases (hheld : Held v w k m i (v.idOf pointer) c x) (h : Tracks v w k m)
    (hi : v.cls.classOf (.inst i) ≠ .irrelevant) (href : x.IsRef)
    (hu : v.cls.classOf u ≠ .irrelevant) (hex : m.eval w u = some x) :
    ∃ j ∈ k.pointsTo (v.idOf pointer), j ≠ unknown ∧ v.idOf u ∈ k.aliases j := by
  cases hheld with
  | @known s hmem hs hes =>
    exact ⟨_, hmem, v.idOf_ne_unknown s, h.aliases (hs ▸ hi) hu href hes hex⟩
  | initial _ _ _ hnext hhid => exact absurd ⟨u, hu, hex⟩ (hhid.held (Nat.le_refl _) hnext href)

/-- What has set a loaded handle is known of the result. -/
theorem definer_mem (hheld : Held v w k m i (v.idOf pointer) c (.handle g)) (h : Tracks v w k m)
    (hnum : v.cls.Numbered) (hk : v.cls.classOf (.inst i) = .data) :
    m.definer v g ∈ (v.loadEffect i k pointer).defs (v.idOf (.inst i)) := by
  cases hheld with
  | @known s hmem hs hes =>
    exact (View.loadEffect_loaded hmem (v.idOf_ne_unknown s)
      ((View.classOfId_idOf hnum _).trans hs)).1 hk (h.defs (hs.trans hk) hes)
  | initial hmem _ _ hnext hhid =>
    rw [definer, hhid.setter (Nat.le_refl _) hnext, View.loadEffect_defs_self hk]
    exact .inl ⟨rfl, hmem⟩

/-- What a loaded cell holds is known of the result. -/
theorem content (hheld : Held v w k m i (v.idOf pointer) c (.cell g)) (h : Tracks v w k m)
    (hnum : v.cls.Numbered) (hw : w.Separate v.cls) (hfresh : m.env i = none)
    (hk : v.cls.classOf (.inst i) = .pointer) (hne : v.idOf (.inst i) ≠ v.idOf pointer)
    (hy : m.heap.cells[g]? = some (some y)) :
    Content v w (v.loadEffect i k pointer) (m.assign i (.cell g)) (v.idOf (.inst i)) g y := by
  have hi : v.cls.classOf (.inst i) ≠ .irrelevant := by simp [hk]
  cases hheld with
  | @known s hmem hs hes =>
    have hclass := (View.classOfId_idOf hnum s).trans (hs.trans hk)
    refine (h.pointsTo (hs.trans hk) hes hy).assign hfresh (fun r hr =>
      View.mem_loadEffect_pointsTo hk hne (.inr ⟨_, hmem, v.idOf_ne_unknown s, hclass, hr⟩)) ?_
    intro _ href u' d _ _ hhid e hde hex
    exact hhid.held hde hex href ⟨_, hs ▸ hi, hes⟩
  | @initial s d hmem hrec _ hnext hhid =>
    rw [hhid.cells (Nat.le_refl _) hnext] at hy
    refine .initial (View.mem_loadEffect_pointsTo hk hne (.inl ⟨rfl, hmem⟩)) hrec hnext
      (World.along_succ hnext hy) ((hhid.mono (Nat.le_succ _)).assign ?_)
    intro _ href e hde hex
    have := (hw.unique hrec hrec href hex hnext).2
    omega

/-- A loaded handle or cell is in the heap. -/
theorem mem_heap (hheld : Held v w k m i q c x) (h : Tracks v w k m) (hw : w.Separate v.cls)
    (hi : v.cls.classOf (.inst i) ≠ .irrelevant) : x.In m.heap := by
  cases hheld with
  | known _ hs hes => exact h.bounded (hs ▸ hi) hes
  | initial _ hrec _ hnext _ => exact h.grown (hw.inHeap hrec hnext)

end Held

theorem load (hs : Suited p o f v) (hw : w.Separate v.cls) (hfresh : m.env i = none)
    (h : Tracks v w k m) {pointer : Value} (hop : (p.inst i).op = .load pointer)
    (hcons : v.Consistent i k) (he : m.eval w pointer = some (.cell c))
    (hx : m.heap.cells[c]? = some (some x)) :
    Tracks v w (v.effect i k) (m.perform w i (.yield x)) := by
  have hop' : (v.program.inst i).op = .load pointer := by rw [hs.program, hop]
  obtain ⟨hptr, hclass⟩ := hcons.load hop'
  have hptrne : v.cls.classOf pointer ≠ .irrelevant := by simp [hptr]
  have hne : v.idOf (.inst i) ≠ v.idOf pointer := fun heq =>
    View.idOf_ne hptrne (ne_of_eval hfresh he) heq.symm
  have hheld (hi : v.cls.classOf (.inst i) ≠ .irrelevant) :
      Held v w k m i (v.idOf pointer) c x := .of_load hs.numbered h hptr (hclass hi) hi he hx
  rw [View.effect_load hop' hptr]
  refine h.assign (View.loadEffect_aliases ..) (fun q hq => View.loadEffect_defs hq)
    (fun hi href u hu hex => (hheld hi).mem_aliases h hi href hu hex) ?_ ?_ ?_
    fun hi => (hheld hi).mem_heap h hw hi
  · rintro g hk rfl
    exact (hheld (by simp [hk])).definer_mem h hs.numbered hk
  · intro u c' y hu hec hy
    have hune : v.cls.classOf u ≠ .irrelevant := by simp [hu]
    by_cases hc : c' = c
    · subst hc
      rw [hx] at hy
      cases hy
      have hmem := h.aliases (x := .cell c') hptrne hune trivial he hec
      refine .known (u := .inst i) (.inr ⟨hmem, rfl⟩) fun _ => eval_assign_iff.2 (.inl ⟨rfl, rfl⟩)
    · have hptr' : v.idOf u ≠ v.idOf pointer := by
        refine View.idOf_ne hune ?_
        rintro rfl
        rw [he] at hec
        cases hec
        exact hc rfl
      refine (h.pointsTo hu hec hy).assign hfresh (fun r hr => View.loadEffect_pointsTo
        (View.idOf_ne hune (ne_of_eval hfresh hec)) (fun _ => hptr') hr) ?_
      intro hi href u' d hrec hcell hhid e hde
      refine (hheld hi).along_ne hw hi href ⟨_, hptrne, he⟩ hrec ?_ hhid hde
      rw [hcell]
      simpa using hc
  · rintro c' y hk rfl hy
    exact (hheld (by simp [hk])).content h hs.numbered hw hfresh hk hne hy

/-! ## Selects -/

/-- A merge that is a cell to the analysis takes no value that is a handle to it. -/
theorem classOf_merged (hs : Suited p o f v) (hmix : p.PureMerges f v.cls)
    (hi : i ∈ p.instructions f) (hu : u ∈ (p.inst i).op.merged) (hlit : u.isLiteral = false)
    (hclass : v.cls.classOf (.inst i) ≠ .irrelevant) :
    v.cls.classOf u = v.cls.classOf (.inst i) := by
  cases hk : v.cls.classOf (.inst i) with
  | data => exact hs.data hi hu hlit hk
  | pointer =>
    have hne := hs.pointer hi hu hlit hk
    have hdata := hmix i hi hk u hu
    cases hc : v.cls.classOf u with
    | data => exact absurd hc hdata
    | pointer => rfl
    | irrelevant => exact absurd hc hne
  | irrelevant => exact absurd hk hclass

theorem isLiteral_of_isRef (he : m.eval w u = some x) (href : x.IsRef) : u.isLiteral = false := by
  cases u with
  | literal l => cases he; exact href.elim
  | _ => rfl

theorem select (hs : Suited p o f v) (hmix : p.PureMerges f v.cls) (hi : i ∈ p.instructions f)
    (hfresh : m.env i = none) (h : Tracks v w k m) {b ifTrue ifFalse : Value}
    (hop : (p.inst i).op = .select b ifTrue ifFalse) (hu : u ∈ [ifTrue, ifFalse])
    (hx : m.eval w u = some x) : Tracks v w (v.effect i k) (m.perform w i (.yield x)) := by
  have hmerged : u ∈ (p.inst i).op.merged := by rw [hop]; exact hu
  rw [View.effect_select (by rw [hs.program, hop])]
  refine h.merge hfresh fun hclass href => ?_
  have hsame := classOf_merged hs hmix hi hmerged (isLiteral_of_isRef hx href) hclass
  have hfind : v.cls.arena.find u = some (v.idOf u) :=
    Classification.find_of_classOf (hsame ▸ hclass)
  refine ⟨(v.idOf u, k), ⟨?_, rfl⟩, h.takes hx href hsame hclass⟩
  simp only [List.mem_cons, List.not_mem_nil, or_false] at hu
  rcases hu with rfl | rfl
  · exact .inl hfind
  · exact .inr hfind

/-! ## Calls -/

theorem call (hs : Suited p o f v) (hw : w.Separate v.cls) (hi : i ∈ p.instructions f)
    (hfresh : m.env i = none) (h : Tracks v w k m) {callee : String} {args : List Value}
    (hop : (p.inst i).op = .call callee args) (hcalls : o.kindOf callee ≠ .opaqueCall)
    (hcons : v.Consistent i k) {a : Action} (ha : m.action o w (.call callee args) = some a) :
    Tracks v w (v.effect i k) (m.perform w i a) := by
  have hkind := hs.kinds hi hop
  have hop' : (v.program.inst i).op = .call callee args := by rw [hs.program, hop]
  obtain ⟨xs, hxs, ha⟩ := action_call.1 ha
  -- The handle that a call sets is classified as such.
  have hset {g : Nat} {n r : BitVec 64} {ys : List Datum}
      (hd : (o.kindOf callee).definesFirst = true) (hys : xs = .handle g :: ys) :
      Tracks v w (v.effect i k) (m.perform w i (.set g n r)) := by
    obtain ⟨u, rest, rfl, hu, heffect⟩ := hcons.define hop' (hkind ▸ hd)
    rw [hys, List.map_cons, List.map_cons] at hxs
    obtain ⟨hx, -⟩ := List.cons.inj hxs
    rw [heffect]
    exact (h.define hw hu hx n).assign_plain hfresh fun href => href.elim
  have hplain (hc : o.kindOf callee ≠ .operation .create)
      (hd : (o.kindOf callee).definesFirst = false) (n : BitVec 64) :
      Tracks v w (v.effect i k) (m.assign i (.int n)) := by
    rw [View.effect_of_keeping hop' (hkind ▸ hc) (hkind ▸ hcalls) (hkind ▸ hd)]
    exact h.assign_plain hfresh fun href => href.elim
  unfold Machine.call at ha
  split at ha
  · next op hk =>
    cases operation_eq_some_iff.1 ha with
    | create => exact h.create hs hw hfresh hi hop hk _
    | read | destroy => exact hplain (by simp [hk]) (by simp [hk, CallKind.definesFirst]) _
    | write | add | subtract => exact hset (by simp [hk, CallKind.definesFirst]) rfl
  · next hk =>
    cases ha
    have hreport := hplain (by simp [hk]) (by simp [hk, CallKind.definesFirst])
      (w.result (m.trace ++ [⟨callee, xs⟩]))
    exact hreport.congr hw rfl (fun _ => rfl) (fun _ => rfl) id
  · next hk => exact absurd hk hcalls

/-! ## Any action -/

/-- The effect of an instruction that does something keeps track of what it does. -/
theorem perform (hs : Suited p o f v) (hw : w.Separate v.cls) (hmix : p.PureMerges f v.cls)
    (hi : i ∈ p.instructions f)
    (hcalls : ∀ callee ∈ (p.inst i).op.callee?, o.kindOf callee ≠ .opaqueCall)
    (hfresh : m.env i = none) (h : Tracks v w k m) (hcons : v.Consistent i k) {a : Action}
    (ha : m.action o w (p.inst i).op = some a) :
    Tracks v w (v.effect i k) (m.perform w i a) := by
  cases hop : (p.inst i).op with
  | alloca ty =>
    rw [hop] at ha
    cases ha
    exact h.alloc hs hw hfresh hop (hcons.alloca (by rw [hs.program, hop]))
  | load pointer =>
    rw [hop] at ha
    obtain ⟨c, x, hptr, hcell, rfl⟩ := action_load.1 ha
    exact h.load hs hw hfresh hop hcons hptr hcell
  | store value pointer =>
    rw [hop] at ha
    obtain ⟨x, c, y, hval, hptr, -, rfl⟩ := action_store.1 ha
    have hop' : (v.program.inst i).op = .store value pointer := by rw [hs.program, hop]
    have ht := hcons.store hop'
    rw [View.effect_store hop' ht]
    exact h.overwrite hw ht hptr hval
  | select b ifTrue ifFalse =>
    rw [hop] at ha
    obtain ⟨n, x, y, -, hx, hy, rfl⟩ := action_select.1 ha
    split
    · exact h.select hs hmix hi hfresh hop List.mem_cons_self hx
    · exact h.select hs hmix hi hfresh hop (by simp) hy
  | call callee args =>
    exact h.call hs hw hi hfresh hop (hcalls callee (by rw [hop]; rfl)) hcons (hop ▸ ha)
  | phi | br | ret | unreachable => rw [hop] at ha; cases ha

end Tracks

end Machine

end BoxFlow
