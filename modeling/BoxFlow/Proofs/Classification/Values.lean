import BoxFlow.Proofs.Classification.Scans

/-!
# Which values are classified

The classified values of a function are among those that its instructions mention
(`mem_mentioned_of_classOf`), and no literal is one of them (`isLiteral_of_classOf`). A
classification depends on the function alone (`ofFunc_congr`).
-/

namespace BoxFlow

namespace Classification

variable {c d : Classification} {p q : Program} {o : Options} {f : FuncId} {x y : Value}
  {w : List Value} {k : ValueClass}

theorem mem_values_of_classOf (h : c.classOf x ≠ .irrelevant) : x ∈ c.arena.values := by
  by_contra hx
  rw [classOf, Arena.find_eq_none_iff.2 hx] at h
  exact h rfl

theorem mem_mentioned_of_classOf (h : (ofFunc p o f).1.classOf x ≠ .irrelevant) :
    x ∈ (p.instructions f).flatMap p.mentioned :=
  (settle_adds ..).values (seeds_marked p o f).2 (mem_values_of_classOf h)

/-! ## Literals -/

theorem classOf_add_of_ne (hne : y ≠ x) : (c.add x k).classOf y = c.classOf y := by
  have hid {id : Id} (hy : c.arena.find y = some id) : id ≠ c.arena.idOf x := by
    rintro rfl
    obtain ⟨h0, hvalue⟩ := Arena.find_eq_some_iff.1 hy
    exact hne (Arena.eq_of_value?_idOf (by rw [Arena.value?, if_pos h0, hvalue]))
  unfold add
  split
  · rfl
  · cases k with
    | irrelevant => rfl
    | data | pointer =>
      simp only [classOf, Arena.find_insert_of_ne hne]
      cases hy : c.arena.find y with
      | none => rfl
      | some id =>
        simp only [classOfId, IdSet.mem_insert, hid hy, false_or]

theorem classOf_addPointee (hn : c.Numbered) : (c.addPointee x k).classOf y = c.classOf y := by
  have hclass (id : Id) : (c.addPointee x k).classOfId id = c.classOfId id := by cases k <;> rfl
  have harena : c.arena.values <+: (c.addPointee x k).arena.values := by
    cases k
    · exact Arena.insert_prefix ..
    · exact Arena.insert_prefix ..
    · exact List.prefix_rfl
  unfold classOf
  cases hy : c.arena.find y with
  | some id => simp only [Arena.find_of_prefix harena hy, hclass]
  | none =>
    cases hy' : (c.addPointee x k).arena.find y with
    | none => rfl
    | some id =>
      dsimp only
      by_contra hne
      have hlt := (hn id (by rwa [← hclass])).2
      exact absurd (Arena.size_le_of_find harena hy hy') (Int.not_le.2 hlt)

/-- No literal is classified. -/
def Symbolic (c : Classification) : Prop := ∀ x, c.classOf x ≠ .irrelevant → x.isLiteral = false

theorem Adds.symbolic (h : Adds w c d) (hn : c.Numbered) (hc : c.Symbolic) : d.Symbolic := by
  induction h with
  | refl => exact hc
  | @add d x k hadds _ ih =>
    intro y hy
    by_cases hyx : y = x
    · subst hyx
      by_contra hlit
      rw [Bool.not_eq_false] at hlit
      rw [Classification.add, if_pos hlit] at hy
      exact absurd (ih y hy) (by simp [hlit])
    · exact ih y (by rwa [classOf_add_of_ne hyx] at hy)
  | addPointee k hadds _ ih =>
    intro y hy
    exact ih y (by rwa [classOf_addPointee (hadds.numbered hn)] at hy)

theorem seeds_symbolic (p : Program) (o : Options) (f : FuncId) :
    ((p.instructions f).foldl (seed p o) {}).Numbered ∧
      ((p.instructions f).foldl (seed p o) {}).Symbolic := by
  refine List.foldlRecOn (motive := fun c : Classification => c.Numbered ∧ c.Symbolic) _ _ ?_
    fun c hc i _ => ?_
  · exact ⟨fun x hx => absurd (classOfId_ne_irrelevant.1 hx) (by simp),
      fun x hx => absurd rfl hx⟩
  · have hnoted : (noted p o c i).Symbolic := by
      unfold noted
      split
      · exact hc.2
      · exact hc.2
    exact ⟨(seed_adds p o c i).numbered (noted_numbered p o hc.1 i),
      (seed_adds p o c i).symbolic (noted_numbered p o hc.1 i) hnoted⟩

/-- No scan classifies a literal. -/
theorem iterate_symbolic (p : Program) (o : Options) (f : FuncId) (n : Nat) :
    ((scan p (p.instructions f))^[n] ((p.instructions f).foldl (seed p o) {})).Symbolic := by
  obtain ⟨hnumbered, hsymbolic⟩ := seeds_symbolic p o f
  have hadds (c : Classification) : Adds ((p.instructions f).flatMap p.mentioned) c
      ((scan p (p.instructions f))^[n] c) := by
    induction n generalizing c with
    | zero => exact .refl
    | succ n ih => exact (scan_adds p _ c).trans (ih _)
  exact (hadds _).symbolic hnumbered hsymbolic

theorem isLiteral_of_classOf (h : (ofFunc p o f).1.classOf x ≠ .irrelevant) :
    x.isLiteral = false := by
  obtain ⟨n, -, hn, -⟩ := ofFunc_spec p o f
  rw [hn] at h
  exact iterate_symbolic p o f n x h

/-! ## Other programs -/

/-- A function with the same instructions has the same classification. -/
theorem ofFunc_congr (hinstructions : q.instructions f = p.instructions f)
    (hop : ∀ i ∈ p.instructions f, (q.inst i).op = (p.inst i).op) (o : Options) :
    ofFunc q o f = ofFunc p o f := by
  have hseed : (p.instructions f).foldl (seed q o) {} = (p.instructions f).foldl (seed p o) {} :=
    List.foldl_ext _ _ _ fun c i hi => by rw [seed, seed, hop i hi]
  have hscan (c : Classification) :
      scan q (p.instructions f) c = scan p (p.instructions f) c :=
    List.foldl_ext _ _ _ fun c i hi => by rw [visit, visit, hop i hi]
  have hbound : scanBound q (p.instructions f) = scanBound p (p.instructions f) := by
    have hmentioned : (p.instructions f).flatMap q.mentioned =
        (p.instructions f).flatMap p.mentioned :=
      List.flatMap_congr fun i hi => by rw [Program.mentioned, Program.mentioned, hop i hi]
    rw [scanBound, scanBound, hmentioned]
  have hsettle (n : Nat) (c : Classification) :
      settle q (p.instructions f) n c = settle p (p.instructions f) n c := by
    induction n generalizing c with
    | zero => rfl
    | succ n ih => simp only [settle, hscan, ih]
  simp only [ofFunc, hinstructions, hseed, hbound, hsettle]

end Classification

end BoxFlow
