import BoxFlow.Proofs.Classification.Rules
import BoxFlow.Proofs.Classification.Values
import BoxFlow.Proofs.Loading

/-!
# A classification is closed

The scans of a function end, after no more productive ones than four for each value that occurs in
it, and what they leave has all that the rules demand of it at once (`Classification.Closed`,
`Classification.ofFunc_closed`). A rule reads classes that other rules change in the same scan, so
that is a matter of the last scan, in which none of them changes anything.
-/

namespace BoxFlow

namespace Classification

/-- What the seeds and the rules demand of a classification. -/
structure Closed (p : Program) (o : Options) (f : FuncId) (c : Classification) : Prop where
  cell : ∀ i ∈ p.instructions f, ∀ ty, (p.inst i).op = .alloca ty → c.Has (.inst i) .pointer
  made : ∀ i ∈ p.instructions f, ∀ callee args, (p.inst i).op = .call callee args →
    o.kindOf callee = .operation .create → c.Has (.inst i) .data
  handle : ∀ i ∈ p.instructions f, ∀ callee args op, (p.inst i).op = .call callee args →
    o.kindOf callee = .operation op → ∀ x ∈ args.take op.handleArgs, x.isLiteral = false →
      c.Has x .data
  stored : ∀ i ∈ p.instructions f, ∀ value pointer, (p.inst i).op = .store value pointer →
    c.classOf value ≠ .irrelevant →
      c.MayHold pointer (c.classOf value) ∧ (pointer.isLiteral = false → c.Has pointer .pointer)
  loaded : ∀ i ∈ p.instructions f, ∀ pointer, (p.inst i).op = .load pointer →
    c.classOf (.inst i) ≠ .irrelevant →
      c.MayHold pointer (c.classOf (.inst i)) ∧
        (pointer.isLiteral = false → c.Has pointer .pointer)
  yielded : ∀ i ∈ p.instructions f, ∀ pointer, (p.inst i).op = .load pointer →
    c.classOf pointer = .pointer → c.pointeeClass pointer ≠ .irrelevant →
      c.Has (.inst i) (c.pointeeClass pointer)
  taken : ∀ i ∈ p.instructions f, c.classOf (.inst i) ≠ .irrelevant →
    ∀ x ∈ (p.inst i).op.merged, x.isLiteral = false → c.Has x (c.classOf (.inst i))
  unclassified : ∀ i ∈ p.instructions f, c.classOf (.inst i) = .irrelevant →
    ∀ x ∈ (p.inst i).op.merged, c.classOf x = .irrelevant
  shared : ∀ i ∈ p.instructions f, c.classOf (.inst i) = .pointer →
    ∀ x ∈ (p.inst i).op.merged, c.classOf x = .pointer →
      c.pointeeClass (.inst i) = c.pointeeClass x

theorem closed_ofFunc (p : Program) (o : Options) (f : FuncId) :
    Closed p o f (ofFunc p o f).1 where
  cell _ hi _ hop := mem_pointer_of_alloca hi hop
  made _ hi _ _ hop hk := has_of_classOf_data (classOf_create hi hop hk)
  handle _ hi _ _ _ hop hk _ hx hlit :=
    has_of_classOf_data (classOf_handleArg hi hop (by rw [hk]; exact hx) hlit)
  stored i hi value pointer hop hk := by
    obtain ⟨hadd, hholds⟩ := add_of_visitStore (visitStore_ofFunc hi hop) hk
    exact ⟨mayHold_of_addPointee_eq hholds hk, has_of_add_eq hadd (by decide)⟩
  loaded i hi pointer hop hk := by
    obtain ⟨hadd, hholds⟩ := add_of_visitLoad (visitLoad_ofFunc hi hop) hk
    exact ⟨mayHold_of_addPointee_eq hholds hk, has_of_add_eq hadd (by decide)⟩
  yielded i hi pointer hop hptr hk :=
    has_of_add_eq (add_of_pointeeClass (visitLoad_ofFunc hi hop) hptr) hk rfl
  taken i hi hk x hx hlit :=
    has_of_add_eq (add_of_visitMerge (visitMerge_ofFunc hi hx) hk hx) hk hlit
  unclassified i hi hk x hx := by
    by_contra hne
    exact result_of_visitMerge (visitMerge_ofFunc hi hx) hx hne rfl hk
  shared i hi hk x hx hkx := by
    obtain ⟨hresult, hinput⟩ := addPointee_of_visitMerge (visitMerge_ofFunc hi hx) hk hx hkx
    exact pointeeClass_eq_of_addPointee hresult hinput

/-- The scans end, each of them but the last having added something; no literal is ever put into a
set, and the classification is closed. -/
theorem ofFunc_closed (p : Program) (o : Options) (f : FuncId) :
    let is := p.instructions f
    let seeds := is.foldl (seed p o) {}
    ∃ n ≤ 4 * (is.flatMap p.mentioned).toFinset.card,
      ofFunc p o f = ((scan p is)^[n] seeds, n + 1) ∧
      (∀ m < n, (scan p is)^[m + 1] seeds ≠ (scan p is)^[m] seeds) ∧
      scan p is (ofFunc p o f).1 = (ofFunc p o f).1 ∧
      (∀ m x k, x.isLiteral = true → ¬((scan p is)^[m] seeds).Has x k) ∧
      Closed p o f (ofFunc p o f).1 := by
  obtain ⟨n, hle, hn, hmore, hlast⟩ := ofFunc_spec p o f
  refine ⟨n, hle, hn, hmore, hlast, fun m x k hlit hx => ?_, closed_ofFunc p o f⟩
  exact absurd (iterate_symbolic p o f m x hx.classOf_ne) (by simp [hlit])

/-- A handle that is loaded from its cell, by way of a select. -/
def loadedText : String :=
  "define void @f()\x7be:%a=call ptr @create(i64 1)%p=alloca ptr store ptr %a,ptr %p " ++
  "%s=select i1 1,ptr %p,ptr %p %l=load ptr,ptr %s ret void\x7d"

/-- What the select takes holds handles, hence what is loaded is one. -/
theorem ofFunc_closed_loaded : ∃ p, Program.load loadedText.toList = .ok p ∧
    let c := (ofFunc p {} 0).1
    (p.inst 4).op = .load (.inst 3) ∧ 4 ∈ p.instructions 0 ∧ c.classOf (.inst 3) = .pointer ∧
      c.pointeeClass (.inst 3) = .data ∧ c.Has (.inst 4) .data := by
  obtain ⟨p, hload, -, hop, hi, hptr, hk⟩ := Program.exists_load (s := loadedText.toList)
    (P := fun p =>
      let c := (ofFunc p {} 0).1
      (p.inst 4).op = .load (.inst 3) ∧ 4 ∈ p.instructions 0 ∧ c.classOf (.inst 3) = .pointer ∧
        c.pointeeClass (.inst 3) = .data)
    (by decide +kernel)
  obtain ⟨-, -, -, -, -, -, hclosed⟩ := ofFunc_closed p {} 0
  have hhas := hclosed.yielded 4 hi (.inst 3) hop hptr (by rw [hk]; decide)
  rw [hk] at hhas
  exact ⟨p, hload, hop, hi, hptr, hk, hhas⟩

end Classification

end BoxFlow
