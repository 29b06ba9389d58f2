import BoxFlow.Proofs.Dataflow.Invariant

/-!
# What the absence of warnings says

If an analysis has not warned, every instruction it has visited is consistent with the
classification: no rule is left out because of a class, and what a load may yield is of the class of
its result (`run_quiet`).
-/

namespace BoxFlow

namespace View

variable {v v' : View} {i : InstId} {k : Knowledge} {B : List BlockId}

/-- The classes of the operands of an instruction, and of what is known to be loaded, are those that
its rule goes by. -/
def Consistent (v : View) (i : InstId) (k : Knowledge) : Prop :=
  match (v.program.inst i).op with
  | .alloca _ => v.cls.classOf (.inst i) = .pointer
  | .store _ pointer => v.cls.classOf pointer = .pointer
  | .load pointer => v.cls.classOf pointer = .pointer ∧ (v.cls.classOf (.inst i) ≠ .irrelevant →
      ∀ j ∈ k.pointsTo (v.idOf pointer), j ≠ unknown → v.cls.classOfId j = v.cls.classOf (.inst i))
  | .call _ args => (v.cls.kindOf i).definesFirst = true →
      ∃ handle rest, args = handle :: rest ∧ v.cls.classOf handle = .data
  | _ => True

namespace Consistent

variable {value pointer : Value} {callee : String} {args : List Value}

theorem alloca {ty : Ty} (h : v.Consistent i k) (hop : (v.program.inst i).op = .alloca ty) :
    v.cls.classOf (.inst i) = .pointer := by
  simpa only [Consistent, hop] using h

theorem store (h : v.Consistent i k) (hop : (v.program.inst i).op = .store value pointer) :
    v.cls.classOf pointer = .pointer := by
  simpa only [Consistent, hop] using h

theorem load (h : v.Consistent i k) (hop : (v.program.inst i).op = .load pointer) :
    v.cls.classOf pointer = .pointer ∧ (v.cls.classOf (.inst i) ≠ .irrelevant →
      ∀ j ∈ k.pointsTo (v.idOf pointer), j ≠ unknown →
        v.cls.classOfId j = v.cls.classOf (.inst i)) := by
  simpa only [Consistent, hop] using h

/-- What sets a handle sets its first argument. -/
theorem define (h : v.Consistent i k) (hop : (v.program.inst i).op = .call callee args)
    (hkind : (v.cls.kindOf i).definesFirst = true) :
    ∃ handle rest, args = handle :: rest ∧ v.cls.classOf handle = .data ∧
      v.effect i k = k.define (v.idOf handle) (v.idOf (.inst i)) := by
  simp only [Consistent, hop] at h
  obtain ⟨handle, rest, rfl, hclass⟩ := h hkind
  exact ⟨handle, rest, rfl, hclass, by rw [effect_of_definesFirst hop hkind, if_pos hclass]⟩

end Consistent

theorem consistent_of_warnings {s : Facts} (h : v.warnings i s = []) :
    v.Consistent i s.knowledge := by
  unfold warnings at h
  unfold Consistent
  cases hop : (v.program.inst i).op with
  | alloca ty =>
    simp only [hop] at h ⊢
    split at h
    · assumption
    · cases h
  | store value pointer =>
    simp only [hop] at h ⊢
    split at h
    · assumption
    · cases h
  | load pointer =>
    simp only [hop] at h ⊢
    split at h
    · next hptr =>
      refine ⟨hptr, fun hne j hj hu => ?_⟩
      by_contra hclass
      rw [if_pos] at h
      · cases h
      · simp only [Bool.and_eq_true, decide_eq_true_eq, List.any_eq_true]
        exact ⟨hne, j, Std.ExtTreeSet.mem_toList.2 hj, hu, hclass⟩
    · cases h
  | call callee args =>
    simp only [hop] at h ⊢
    intro hdef
    cases hk : v.cls.kindOf i with
    | opaqueCall => rw [hk] at hdef; cases hdef
    | operation o | benign =>
      simp only [hk] at h hdef
      rw [if_pos hdef] at h
      cases args with
      | nil => cases h
      | cons handle rest =>
        dsimp only at h
        split at h
        · exact ⟨handle, rest, rfl, by assumption⟩
        · cases h
  | _ => trivial

/-- Numbers given later make no difference. -/
theorem Consistent.grown (h : v.Consistent i k) (hg : Grown B v v') (hc : v.cls.Numbered) :
    v'.Consistent i k := by
  have hkind : v'.cls.kindOf i = v.cls.kindOf i := by rw [hg.cls]; rfl
  unfold Consistent at h ⊢
  rw [hg.program]
  cases hop : (v.program.inst i).op with
  | load pointer =>
    simp only [hop] at h ⊢
    simp only [hg.classOf hc, hg.classOfId, hg.idOf_classified (x := pointer) (by simp [h.1])]
    exact h
  | alloca | store =>
    simp only [hop] at h
    exact (hg.classOf hc _).trans h
  | call callee args =>
    simp only [hop] at h
    simp only [hg.classOf hc, hkind]
    exact h
  | _ => trivial

end View

namespace Analysis

variable {O : Set Oracle} {p : Program} {f : FuncId} {c : Classification} {a a' : Analysis}
  {t u : Analysis × Facts} {i : InstId} {w : List BlockId}

theorem addWarnings_eq_nil {known new : List Warning} (h : addWarnings known new = []) :
    known = [] ∧ new = [] := by
  constructor
  · exact List.eq_nil_iff_forall_not_mem.2 fun m hm => by
      have := mem_addWarnings.2 (.inl hm : m ∈ known ∨ m ∈ new)
      rw [h] at this
      cases this
  · exact List.eq_nil_iff_forall_not_mem.2 fun m hm => by
      have := mem_addWarnings.2 (.inr hm : m ∈ known ∨ m ∈ new)
      rw [h] at this
      cases this

/-- If there has been no warning, the recorded facts fit the classification. -/
def Quiet (a : Analysis) : Prop :=
  a.warnings = [] → ∀ (i : InstId) (s : Facts), a.before[i]? = some s →
    a.Consistent i s.knowledge

theorem step_quiet (h : Step O i t u) (hc : t.1.cls.Numbered) (ht : t.1.Quiet) : u.1.Quiet := by
  obtain ⟨-, hbefore, -, hwarnings⟩ := step_records h
  obtain ⟨v, hcls, hg, -⟩ := step_view h
  intro hw j s hj
  obtain ⟨hold, hnew⟩ := addWarnings_eq_nil (hwarnings ▸ hw)
  rw [hbefore] at hj
  rcases getElem?_insert_eq_some.1 hj with ⟨rfl, rfl⟩ | ⟨-, hj⟩
  · exact View.consistent_of_warnings hnew
  · have hcons : v.Consistent j s.knowledge := by
      have := ht hold j s hj
      unfold View.Consistent View.idOf at this ⊢
      rwa [hcls, ← hg.program, (step_extends h).program]
    exact hcons.grown hg (hcls ▸ hc)

theorem run_quiet (hp : p.Linked) (hc : c.Numbered) (h : Run O p f c w a) : a.Quiet := by
  induction h with
  | start => exact fun _ _ _ h => by simp [start] at h
  | @visit b w a a' out h hs ih =>
    have hn := (run_bounds hp hc h).1
    exact (hs.induction (P := fun t => t.1.cls.Numbered ∧ t.1.Quiet)
      (fun _ hi ht => ⟨(step_extends hi).numbered ht.1, step_quiet hi ht.1 ht.2⟩) ⟨hn, ih⟩).2

end Analysis

end BoxFlow
