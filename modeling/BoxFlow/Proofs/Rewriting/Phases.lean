import BoxFlow.Proofs.Rewriting.Steps

/-!
# Whole rewritings

A rewriting succeeds, and it leaves every instruction kept or replaced by what its fate says
(`RewriteM.ends_run`).
-/

namespace BoxFlow

open Function (update)

/-- Where nothing is recorded, nothing is known. -/
theorem Analysis.definitions_eq_nil {a : Analysis} {i : InstId} {v : Value} (hi : i ∉ a.before) :
    a.definitions i v = [] := by
  have hfacts : a.factsBefore i = {} := Std.ExtTreeMap.getD_eq_fallback hi
  unfold definitions idsIn
  rw [hfacts]
  split
  · simp [Table.get]
  · rfl

namespace Rewriting

variable {p : Program} {a : Analysis} {names : Names} {J : InstId → Fate → Prop} {φ : Fates}
  {ds : List InstId} {s : RewriteState} {i j : InstId} {b : BlockId}

/-- Only calls go. -/
theorem isCall (h : Rewriting p a names J φ ds s) (hi : φ i ≠ .kept) :
    (p.inst i).op.isCall = true := by
  have hfits := h.fits i
  have harith {handle x y : Value} (ha : a.Arithmetic p i handle x y) :
      (p.inst i).op.isCall = true := by
    obtain ⟨callee, rest, hop⟩ := ha.op
    rw [hop]
    rfl
  cases hx : φ i with
  | kept => exact absurd hx hi
  | dropped l => rw [hx] at hfits; exact hfits.call
  | written w l =>
    rw [hx] at hfits
    obtain ⟨_, _, _, ha, -⟩ := hfits
    exact harith ha
  | copied r w u =>
    rw [hx] at hfits
    obtain ⟨_, _, _, ha, -⟩ := hfits
    exact harith ha

theorem kept_of_not_isCall (h : Rewriting p a names J φ ds s)
    (hcall : (p.inst i).op.isCall = false) : φ i = .kept := by
  by_contra hx
  rw [h.isCall hx] at hcall
  cases hcall

theorem kept_of_isPhi (h : Rewriting p a names J φ ds s) (hphi : (p.inst i).op.isPhi = true) :
    φ i = .kept := by
  apply h.kept_of_not_isCall
  by_contra hcall
  rw [Form.isPhi_of_isCall (by simpa using hcall)] at hphi
  cases hphi

theorem kept_of_isTerminator (h : Rewriting p a names J φ ds s)
    (hterm : (p.inst i).op.isTerminator = true) : φ i = .kept := by
  apply h.kept_of_not_isCall
  by_contra hcall
  rw [Form.isTerminator_of_isCall (by simpa using hcall)] at hterm
  cases hterm

theorem kept_of_le (hp : p.Linked) (h : Rewriting p a names J φ ds s) (hi : p.insts.size ≤ i) :
    φ i = .kept := by
  by_contra hne
  exact Nat.not_le.2 (hp.lt_size (h.mem_instructions hne)) hi

/-- A doomed call goes. -/
theorem erase (hp : p.Linked) (h : Rewriting p a names J φ (i :: ds) s) (hi : φ i ≠ .kept)
    (hds : i ∉ ds) (hb : b ∈ (p.func a.func).blocks) (hib : i ∈ (p.block b).insts) {q : Program}
    (hq : s.program.Erased q b i) : Rewriting p a names J φ ds { s with program := q } where
  program := by
    rw [Fates.layout_erase hi hds]
    exact h.program.erase hp hb hib (Fates.erased_layout.2 (.inr List.mem_cons_self)) hq
  analysis := h.analysis
  names := h.names
  kinds := h.kinds
  replaced := h.replaced
  fits j := by
    refine (h.fits j).mono (g := id) (fun l hl o args hc => ⟨hc.kind, ?_⟩) (fun _ => rfl)
      fun _ _ => rfl
    have hne : l ≠ i := fun hli =>
      Nat.not_lt.2 (h.lt_of_mem_code hl).1 (hli ▸ hp.lt_size (h.mem_instructions hi))
    rw [List.map_id, hq.inst, if_neg hne]
    exact hc.op
  justified := h.justified
  fresh := hq.nextSerial ▸ h.fresh

theorem nodup_instructions (hp : p.Linked) (h : Rewriting p a names J φ ds s) :
    (s.program.instructions a.func).Nodup := by
  rw [Program.instructions, List.nodup_flatMap]
  refine ⟨fun b _ => h.program.nodup b, ?_⟩
  rw [h.program.funcs]
  refine hp.distinct.imp fun {b d} hbd i hi hi' => hbd ?_
  exact Option.some.inj ((h.program.held hi).symm.trans (h.program.held hi'))

end Rewriting

namespace RewriteM

variable {p : Program} {a : Analysis} {names : Names} {J : InstId → Fate → Prop}
  {K : Fates → RewriteState → Prop} {φ : Fates} {ds : List InstId} {s : RewriteState} {i : InstId}
  (hp : p.Linked) (hK : Upholds p a names J K)
include hp hK

theorem ends_eraseAll (h : Rewriting p a names J φ ds s) (hs : K φ s) (hnodup : ds.Nodup)
    (hds : ∀ i ∈ ds, φ i ≠ .kept) :
    Ends (eraseAll ds) s fun _ t => Rewriting p a names J φ [] t ∧ K φ t := by
  refine (Ends.forM (I := fun ds s => (Rewriting p a names J φ ds s ∧ K φ s) ∧ ds.Nodup ∧
    ∀ i ∈ ds, φ i ≠ .kept) ?_ ⟨⟨h, hs⟩, hnodup, hds⟩).mono fun _ _ ht => ht.1
  rintro i ds s ⟨⟨h, hs⟩, hnodup, hds⟩
  obtain ⟨hi, hnodup⟩ := List.nodup_cons.1 hnodup
  have hx := hds i List.mem_cons_self
  obtain ⟨b, hib, hsits⟩ := h.program.place hp (h.mem_instructions hx)
    (Fates.erased_layout.2 (.inr List.mem_cons_self))
  have hterm : (s.program.inst i).op.isTerminator = false := by
    rw [h.op_of_kept (h.mem_instructions hx) (.inr List.mem_cons_self)]
    exact Form.isTerminator_of_isCall ((Form.isCall_map ..).trans (h.isCall hx))
  refine (ends_liftEdit (Edit.ends_erase hsits hterm)).mono ?_
  rintro _ _ ⟨q, ⟨hitems, hq⟩, rfl⟩
  have hb : b ∈ (p.func a.func).blocks := h.program.funcs a.func ▸ hsits.block
  exact ⟨⟨h.erase hp hx hi hb hib hq, hK.erased h hs hitems hq⟩, hnodup,
    fun j hj => hds j (List.mem_cons_of_mem _ hj)⟩

/-- Calls are decided one after another, and then the doomed ones go. -/
theorem ends_phase {g : InstId → RewriteM Bool} {cs : List InstId} (hcs : cs.Nodup)
    (hstep : ∀ φ ds s, ∀ i ∈ cs, Rewriting p a names J φ ds s → K φ s → φ i = .kept →
      Ends (g i) s (Decides p a names J K φ ds i))
    (h : Rewriting p a names J φ [] s) (hs : K φ s) (hkept : ∀ i ∈ cs, φ i = .kept) :
    Ends (do
      let doomed ← cs.filterM g
      eraseAll doomed
      return !doomed.isEmpty) s fun changed t => ∃ ψ, Rewriting p a names J ψ [] t ∧ K ψ t ∧
        ((∃ i, ψ i ≠ .kept) ↔ changed = true ∨ ∃ i, φ i ≠ .kept) := by
  refine .bind (Ends.filterM (I := fun left ds s => ∃ ψ, Rewriting p a names J ψ ds s ∧ K ψ s ∧
    left.Nodup ∧ left ⊆ cs ∧ (∀ i ∈ left, ψ i = .kept) ∧ ds.Nodup ∧ (∀ i ∈ ds, ψ i ≠ .kept) ∧
    ((∃ i, ψ i ≠ .kept) ↔ ds ≠ [] ∨ ∃ i, φ i ≠ .kept)) ?_ ?_) ?_
  · rintro i left ds s ⟨ψ, h, hs, hleft, hsub, hkept, hds, hdoomed, hchanged⟩
    obtain ⟨hi, hleft⟩ := List.nodup_cons.1 hleft
    have hx := hkept i List.mem_cons_self
    have hsub' : left ⊆ cs := fun j hj => hsub (List.mem_cons_of_mem _ hj)
    refine (hstep ψ ds s i (hsub List.mem_cons_self) h hs hx).mono fun b t ht => ?_
    cases b with
    | false =>
      exact ⟨ψ, ht.1, ht.2, hleft, hsub', fun j hj => hkept j (List.mem_cons_of_mem _ hj), hds,
        hdoomed, hchanged⟩
    | true =>
      obtain ⟨x, hne, ht, htK⟩ := ht
      refine ⟨update ψ i x, ht, htK, hleft, hsub', fun j hj => ?_, ?_, fun j hj => ?_, ?_⟩
      · have hji : j ≠ i := fun hji => hi (hji ▸ hj)
        rw [Function.update_of_ne hji]
        exact hkept j (List.mem_cons_of_mem _ hj)
      · refine List.nodup_append.2 ⟨hds, by simp, fun j hj l hl => ?_⟩
        rw [List.mem_singleton.1 hl]
        exact fun hji => hdoomed j hj (hji ▸ hx)
      · by_cases hji : j = i
        · rw [hji, Function.update_self]
          exact hne
        · rw [Function.update_of_ne hji]
          exact hdoomed j (by simpa [hji] using hj)
      · exact iff_of_true ⟨i, by rw [Function.update_self]; exact hne⟩ (.inl (by simp))
  · exact ⟨φ, h, hs, hcs, List.Subset.refl _, hkept, List.nodup_nil, by simp, by simp⟩
  · rintro ds t ⟨ψ, ht, htK, -, -, -, hds, hdoomed, hchanged⟩
    refine .bind (ends_eraseAll hp hK ht htK hds hdoomed) fun _ u hu => .pure ⟨ψ, hu.1, hu.2, ?_⟩
    rw [hchanged]
    simp

end RewriteM

/-! ## The calls that are decided -/

namespace Rewriting

variable {p : Program} {a : Analysis} {names : Names} {J : InstId → Fate → Prop} {φ : Fates}
  {ds : List InstId} {s : RewriteState} {i : InstId} {os : List Operation}

theorem mem_callsOf (h : Rewriting p a names J φ [] s)
    (hi : i ∈ s.rewriter.callsOf s.program os) : i ∈ s.program.instructions a.func ∧
      (s.program.inst i).op.isCall = true ∧
      ∃ o ∈ os, s.rewriter.analysis.cls.kindOf i = .operation o := by
  obtain ⟨hi, hkind⟩ := List.mem_filter.1 hi
  obtain ⟨hi, hcall⟩ := List.mem_filter.1 hi
  rw [h.func_eq] at hi
  refine ⟨hi, hcall, ?_⟩
  split at hkind
  · next o ho => exact ⟨o, by simpa using hkind, ho⟩
  · cases hkind

theorem nodup_callsOf (hp : p.Linked) (h : Rewriting p a names J φ [] s) (os : List Operation) :
    (s.rewriter.callsOf s.program os).Nodup := by
  unfold Rewriter.callsOf Program.calls
  rw [h.func_eq]
  exact ((h.nodup_instructions hp).filter _).filter _

/-- A call that is to be decided has not been, or it is new and a `read` or `write`. -/
theorem callsOf_cases (hp : p.Linked) (h : Rewriting p a names J φ [] s)
    (hi : i ∈ s.rewriter.callsOf s.program os) : φ i = .kept ∧ ∃ o ∈ os,
      (i ∈ p.instructions a.func ∧ (p.inst i).op.isCall = true ∧ a.cls.kindOf i = .operation o ∨
        p.insts.size ≤ i ∧ (o = .read ∨ o = .write)) := by
  obtain ⟨hi, hcall, o, ho, hkind⟩ := h.mem_callsOf hi
  rcases h.program.old_or_new hi with ⟨hold, herased⟩ | ⟨hnew, j, hj, hcode⟩
  · have hx : φ i = .kept := (Fates.erased_layout.1 herased).resolve_right (by simp)
    rw [h.op_of_kept hold (.inl hx), Form.isCall_map] at hcall
    rw [h.kinds (hp.lt_size hold)] at hkind
    exact ⟨hx, o, ho, .inl ⟨hold, hcall, hkind⟩⟩
  · obtain ⟨o', _, hc, ho'⟩ := h.kind_of_mem_code (i := j) hcode
    rw [hc.kind] at hkind
    cases hkind
    exact ⟨h.kept_of_le hp hnew, o, ho, .inr ⟨hnew, ho'⟩⟩

/-- Nothing is known about what is put in. -/
theorem constantOf_eq_none (hknown : ∀ i ∈ a.before, i < p.insts.size)
    (h : Rewriting p a names J φ ds s) (hi : p.insts.size ≤ i) (v : Value) :
    s.rewriter.constantOf s.program i v = none := by
  obtain ⟨kinds, hkinds⟩ := h.analysis
  have hdefs : s.rewriter.analysis.definitions i v = [] := by
    rw [hkinds]
    exact Analysis.definitions_eq_nil fun hi' => Nat.not_lt.2 hi (hknown i hi')
  rw [Rewriter.constantOf, hdefs]
  rfl

end Rewriting

namespace RewriteM

variable {p : Program} {a : Analysis} {names : Names} {J : InstId → Fate → Prop}
  {K : Fates → RewriteState → Prop} {φ : Fates} {ds : List InstId} {s : RewriteState} {i : InstId}
  (hp : p.Linked) (hS : Sanctions p a names J) (hK : Upholds p a names J K)
include hp hK

theorem ends_foldArithmetic (hS : SanctionsArithmetic p a names J)
    (h : Rewriting p a names J φ [] s) (hs : K φ s) :
    Ends foldArithmetic s fun changed t => ∃ ψ, Rewriting p a names J ψ [] t ∧ K ψ t ∧
      ((∃ i, ψ i ≠ .kept) ↔ changed = true ∨ ∃ i, φ i ≠ .kept) := by
  unfold foldArithmetic
  refine .bind_get (ends_phase hp hK (h.nodup_callsOf hp _) (fun ψ ds t i hi ht htK hx => ?_) h hs
    fun i hi => (h.callsOf_cases hp hi).1)
  obtain ⟨-, o, ho, ⟨hmem, -, hkind⟩ | ⟨-, hnew⟩⟩ := h.callsOf_cases hp hi
  · refine ends_foldCall hp hS hK ht htK hmem hx ?_
    simp only [List.mem_cons, List.not_mem_nil, or_false] at ho
    rcases ho with rfl | rfl
    · exact .inl hkind
    · exact .inr hkind
  · rcases hnew with rfl | rfl <;> simp at ho

include hS

theorem ends_propagateConstants (hknown : ∀ i ∈ a.before, i < p.insts.size)
    (h : Rewriting p a names J φ [] s) (hs : K φ s) :
    Ends propagateConstants s fun changed t => ∃ ψ, Rewriting p a names J ψ [] t ∧ K ψ t ∧
      ((∃ i, ψ i ≠ .kept) ↔ changed = true ∨ ∃ i, φ i ≠ .kept) := by
  unfold propagateConstants
  refine .bind_get (ends_phase hp hK (h.nodup_callsOf hp _) (fun ψ ds t i hi ht htK hx => ?_) h hs
    fun i hi => (h.callsOf_cases hp hi).1)
  obtain ⟨-, o, ho, ⟨hmem, hcall, hkind⟩ | ⟨hnew, -⟩⟩ := h.callsOf_cases hp hi
  · rw [List.mem_singleton.1 ho] at hkind
    exact ends_propagateCall hp hS hK ht htK hx ⟨hmem, hkind, hcall⟩
  · unfold propagateCall
    refine .bind_get ?_
    dsimp only
    split
    · exact .pure ⟨ht, htK⟩
    · next value hvalue =>
      obtain ⟨v, -, hv⟩ := Option.bind_eq_some_iff.1 hvalue
      rw [ht.constantOf_eq_none hknown hnew] at hv
      cases hv

/-- A rewriting succeeds, it keeps whatever each of its steps keeps, and it says whether anything
has met its fate. -/
theorem ends_run_upholds (hknown : ∀ i ∈ a.before, i < p.insts.size)
    (hs : K (fun _ => .kept) { program := p, rewriter := { analysis := a, names } }) :
    Ends run { program := p, rewriter := { analysis := a, names } } fun changed t =>
      ∃ φ, Rewriting p a names J φ [] t ∧ K φ t ∧ ((∃ i, φ i ≠ .kept) ↔ changed = true) := by
  have h := Rewriting.start hp a names J
  unfold run
  refine .bind_get ?_
  split
  · refine .bind (ends_foldArithmetic hp hK hS.arithmetic h hs)
      fun folded t ⟨φ, ht, htK, hfolded⟩ => ?_
    refine .bind (ends_propagateConstants hp hS hK hknown ht htK) fun propagated u hu => ?_
    obtain ⟨ψ, hu, huK, hpropagated⟩ := hu
    refine .pure ⟨ψ, hu, huK, ?_⟩
    rw [hpropagated, hfolded]
    simp [or_comm]
  · exact .pure ⟨_, h, hs, by simp⟩

omit hK in
/-- A rewriting succeeds. -/
theorem ends_run (hknown : ∀ i ∈ a.before, i < p.insts.size) :
    Ends run { program := p, rewriter := { analysis := a, names } } fun _ t =>
      ∃ φ, Rewriting p a names J φ [] t :=
  (ends_run_upholds hp hS (.trivial p a names J) hknown True.intro).mono
    fun _ _ ⟨φ, ht, _⟩ => ⟨φ, ht⟩

end RewriteM

end BoxFlow
