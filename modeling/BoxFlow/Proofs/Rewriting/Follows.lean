import BoxFlow.Proofs.Classification.Values
import BoxFlow.Proofs.Rewriting.Validity

/-!
# The function after its fates

`Program.Follows` says what function `f` of a program is like when its instructions have met their
fates, whatever has become of other functions. What the function mentions then is what it mentioned
before, literals being in the place of results (`Fates.subst`), with nothing of what has been
dropped (`Follows.not_mem_values`). If the same values are classified before and after, a value is
of the class of what is in its place (`Follows.classOf_subst`).
-/

namespace BoxFlow

/-- The values that a function mentions. -/
def Program.values (p : Program) (f : FuncId) : List Value :=
  (p.instructions f).flatMap p.mentioned

/-- What the function refers to is its own, and its literals have been numbered. -/
structure Program.Enclosed (p : Program) (f : FuncId) : Prop where
  linked : p.Linked
  owned : ∀ i ∈ p.instructions f, ∀ j, .inst j ∈ (p.inst i).op.operands → j ∈ p.instructions f
  numbered : ∀ i ∈ p.instructions f, ∀ l, .literal l ∈ (p.inst i).op.operands →
    l.serial < p.nextSerial

theorem Program.Enclosed.mem_of_values {p : Program} {f : FuncId} {i : InstId}
    (hp : p.Enclosed f) (hi : .inst i ∈ p.values f) : i ∈ p.instructions f := by
  obtain ⟨j, hj, hmem⟩ := List.mem_flatMap.1 hi
  rcases List.mem_cons.1 hmem with heq | hmem
  · exact Value.inst.inj heq ▸ hj
  · exact hp.owned j hj i hmem

theorem Program.mem_values_of_operand {p : Program} {f : FuncId} {i : InstId} {x : Value}
    (hi : i ∈ p.instructions f) (hx : x ∈ (p.inst i).op.operands) : x ∈ p.values f :=
  List.mem_flatMap.2 ⟨i, hi, List.mem_cons_of_mem _ hx⟩

namespace Fates

variable (φ : Fates) {i : InstId} {x : Value} {l : Literal}

/-- The value in place of another when all that has met its fate is gone. -/
def subst : Value → Value := (φ.layout []).subst

/-- What stands in the place of an instruction when all that has met its fate is gone. -/
def segment : InstId → List InstId := (φ.layout []).segment

/-- The instruction that sets the handle in the place of another. -/
def setter (i : InstId) : InstId := (φ i).write?.getD i

variable {φ}

theorem segment_eq_self (hi : φ i = .kept) : φ.segment i = [i] := segment_of_kept hi

theorem segment_eq_code (hi : φ i ≠ .kept) : φ.segment i = (φ i).code := segment_of_gone hi

theorem subst_eq_literal (hi : φ i = .dropped l) : φ.subst (.inst i) = .literal l :=
  subst_dropped hi

theorem subst_eq_self (hi : (φ i).literal? = none) : φ.subst (.inst i) = .inst i :=
  subst_of_literal?_eq_none hi

theorem subst_cases (φ : Fates) (x : Value) :
    φ.subst x = x ∨ ∃ i l, x = .inst i ∧ φ i = .dropped l ∧ φ.subst x = .literal l := by
  cases x with
  | inst i =>
    cases hi : φ i with
    | dropped l => exact .inr ⟨i, l, rfl, hi, subst_eq_literal hi⟩
    | _ => exact .inl (subst_eq_self (by rw [hi]; rfl))
  | _ => exact .inl rfl

theorem subst_eq_inst (h : φ.subst x = .inst i) : x = .inst i := by
  rcases subst_cases φ x with hx | ⟨_, _, -, -, hx⟩
  · exact hx.symm.trans h
  · cases hx.symm.trans h

theorem write?_mem_segment {w : InstId} (hw : (φ i).write? = some w) : w ∈ φ.segment i := by
  rw [segment_eq_code (by rintro hx; rw [hx] at hw; cases hw)]
  cases hx : φ i <;> rw [hx] at hw <;> cases hw <;> simp [Fate.code]

end Fates

namespace Program

/-- Instruction `i` of `p` adds or subtracts `x` and `y`. -/
def IsArithmetic (p : Program) (o : Options) (i : InstId) (handle x y : Value) : Prop :=
  ∃ callee rest, (p.inst i).op = .call callee (handle :: x :: y :: rest) ∧
    (o.kindOf callee = .operation .add ∨ o.kindOf callee = .operation .subtract)

/-- What is in `q` where instruction `i` of `p` has met its fate, operands being replaced
by `σ`. -/
def Meets (p q : Program) (o : Options) (σ : Value → Value) (i : InstId) : Fate → Prop
  | .kept => (q.inst i).op = (p.inst i).op.map σ id
  | .dropped _ => ∃ callee args, (p.inst i).op = .call callee args ∧
      o.kindOf callee = .operation .read
  | .written w l => ∃ handle x y, p.IsArithmetic o i handle x y ∧
      (q.inst w).op = .call (o.names.nameOf .write) [σ handle, .literal l]
  | .copied r w u => ∃ handle x y, p.IsArithmetic o i handle x y ∧ (u = x ∨ u = y) ∧
      (q.inst r).op = .call (o.names.nameOf .read) [σ u] ∧
      (q.inst w).op = .call (o.names.nameOf .write) [σ handle, .inst r]

/-- In `q` the instructions of function `f` of `p` have met their fates. -/
structure Follows (p q : Program) (o : Options) (f : FuncId) (φ : Fates) : Prop where
  blocks : (q.func f).blocks = (p.func f).blocks
  block : ∀ b ∈ (p.func f).blocks,
    q.block b = { p.block b with insts := (p.block b).insts.flatMap φ.segment }
  meets : ∀ i ∈ p.instructions f, p.Meets q o φ.subst i (φ i)
  skeleton : ∀ i ∈ p.instructions f, (q.inst i).op.skeleton = (p.inst i).op.skeleton
  mem : ∀ {i}, φ i ≠ .kept → i ∈ p.instructions f
  new : ∀ {i j}, j ∈ (φ i).code → p.insts.size ≤ j
  fresh : ∃ n, φ.Fresh p.nextSerial n
  nodup : (q.instructions f).Nodup

namespace Follows

variable {p q : Program} {o : Options} {f : FuncId} {φ : Fates} {i j k : InstId} {x y : Value}
  {l : Literal}

variable (h : p.Follows q o f φ)
include h

/-! ## Instructions -/

theorem instructions_eq : q.instructions f = (p.instructions f).flatMap φ.segment := by
  rw [instructions, instructions, h.blocks, List.flatMap_assoc]
  exact List.flatMap_congr fun b hb => by rw [h.block b hb]

theorem mem_instructions : j ∈ q.instructions f ↔ ∃ i ∈ p.instructions f, j ∈ φ.segment i := by
  rw [h.instructions_eq, List.mem_flatMap]

/-- An instruction is in the place of one instruction only. -/
theorem eq_of_mem_segment (hi : i ∈ p.instructions f) (hk : k ∈ p.instructions f)
    (hj : j ∈ φ.segment i) (hj' : j ∈ φ.segment k) : i = k := by
  by_contra hne
  have hnodup := h.nodup
  rw [h.instructions_eq, List.nodup_flatMap] at hnodup
  have : Std.Symm (Function.onFun List.Disjoint φ.segment) := ⟨fun _ _ h => h.symm⟩
  exact hnodup.2.forall hi hk hne hj hj'

/-- An instruction of the function is an old one, or one that has been put in. -/
theorem kept_or_new (hj : j ∈ q.instructions f) :
    j ∈ p.instructions f ∧ φ j = .kept ∧ (q.inst j).op = (p.inst j).op.map φ.subst id ∨
      ∃ i op args, φ i ≠ .kept ∧ j ∈ (φ i).code ∧
        (q.inst j).op = .call (o.names.nameOf op) args ∧ (op = .read ∨ op = .write) := by
  obtain ⟨i, hi, hj⟩ := h.mem_instructions.1 hj
  have hmeets := h.meets i hi
  by_cases hx : φ i = .kept
  · rw [Fates.segment_eq_self hx, List.mem_singleton] at hj
    rw [hx] at hmeets
    exact .inl ⟨hj ▸ hi, hj ▸ hx, hj ▸ hmeets⟩
  · rw [Fates.segment_eq_code hx] at hj
    refine .inr ⟨i, ?_⟩
    cases hfate : φ i with
    | kept => exact absurd hfate hx
    | dropped l =>
      rw [hfate] at hj
      cases hj
    | written w l =>
      rw [hfate] at hj hmeets
      obtain ⟨_, _, _, -, hw⟩ := hmeets
      exact ⟨.write, _, nofun, hj, List.mem_singleton.1 hj ▸ hw, .inr rfl⟩
    | copied r w u =>
      rw [hfate] at hj hmeets
      obtain ⟨_, _, _, -, -, hr, hw⟩ := hmeets
      rcases List.mem_cons.1 hj with rfl | hj'
      · exact ⟨.read, _, nofun, hj, hr, .inl rfl⟩
      · exact ⟨.write, _, nofun, hj, List.mem_singleton.1 hj' ▸ hw, .inr rfl⟩

/-- What goes is a call of an operation that makes nothing. -/
theorem call_of_gone (hx : φ i ≠ .kept) : ∃ callee args op,
    (p.inst i).op = .call callee args ∧ o.kindOf callee = .operation op ∧ op ≠ .create := by
  have hmeets := h.meets i (h.mem hx)
  have harith {handle y z : Value} (ha : p.IsArithmetic o i handle y z) : ∃ callee args op,
      (p.inst i).op = .call callee args ∧ o.kindOf callee = .operation op ∧ op ≠ .create := by
    obtain ⟨callee, rest, hop, hk | hk⟩ := ha
    · exact ⟨callee, _, .add, hop, hk, nofun⟩
    · exact ⟨callee, _, .subtract, hop, hk, nofun⟩
  cases hfate : φ i with
  | kept => exact absurd hfate hx
  | dropped l =>
    rw [hfate] at hmeets
    obtain ⟨callee, args, hop, hk⟩ := hmeets
    exact ⟨callee, args, .read, hop, hk, nofun⟩
  | written w l =>
    rw [hfate] at hmeets
    obtain ⟨_, _, _, ha, -⟩ := hmeets
    exact harith ha
  | copied r w u =>
    rw [hfate] at hmeets
    obtain ⟨_, _, _, ha, -⟩ := hmeets
    exact harith ha

variable (hp : p.Enclosed f)
include hp

theorem lt_of_gone (hi : φ i ≠ .kept) : i < p.insts.size := hp.linked.lt_size (h.mem hi)

/-- Handles are set in different places by different instructions. -/
theorem setter_inj (hi : i ∈ p.instructions f) (hj : j ∈ p.instructions f)
    (heq : φ.setter i = φ.setter j) : i = j := by
  have hold {i j : InstId} {w : InstId} (hi : i ∈ p.instructions f) (hj : (φ j).write? = some w)
      (heq : i = w) : False := by
    have hmem := Fates.write?_mem_segment hj
    rw [Fates.segment_eq_code (by rintro hx; rw [hx] at hj; cases hj), ← heq] at hmem
    exact Nat.not_lt.2 (h.new hmem) (hp.linked.lt_size hi)
  unfold Fates.setter at heq
  cases hwi : (φ i).write? with
  | none =>
    cases hwj : (φ j).write? with
    | none => simpa [hwi, hwj] using heq
    | some w => exact (hold hi hwj (by simpa [hwi, hwj] using heq)).elim
  | some v =>
    cases hwj : (φ j).write? with
    | none => exact (hold hj hwi (by simpa [hwi, hwj] using heq.symm)).elim
    | some w =>
      obtain rfl : v = w := by simpa [hwi, hwj] using heq
      exact h.eq_of_mem_segment hi hj (Fates.write?_mem_segment hwi)
        (Fates.write?_mem_segment hwj)

/-! ## Values -/

/-- Different values have different values in their place. -/
theorem subst_inj (hx : x ∈ p.values f) (hy : y ∈ p.values f) (heq : φ.subst x = φ.subst y) :
    x = y := by
  obtain ⟨n, hfresh⟩ := h.fresh
  have hold {i : InstId} {l : Literal} (hi : φ i = .dropped l) (hl : .literal l ∈ p.values f) :
      False := by
    obtain ⟨j, hj, hmem⟩ := List.mem_flatMap.1 hl
    have hmem : .literal l ∈ (p.inst j).op.operands := by simpa [mentioned] using hmem
    exact Nat.not_lt.2 (hfresh.bounds hi).1 (hp.numbered j hj l hmem)
  rcases Fates.subst_cases φ x with hx' | ⟨i, l, rfl, hi, hil⟩
  · rcases Fates.subst_cases φ y with hy' | ⟨j, m, rfl, hj, hjm⟩
    · rwa [hx', hy'] at heq
    · rw [hx', hjm] at heq
      exact (hold hj (heq ▸ hx)).elim
  · rcases Fates.subst_cases φ y with hy' | ⟨j, m, rfl, hj, hjm⟩
    · rw [hy', hil] at heq
      exact (hold hi (heq ▸ hy)).elim
    · rw [hil, hjm] at heq
      obtain rfl := Value.literal.inj heq
      rw [hfresh.inj hi hj rfl]

omit hp in
/-- An operand is in the place of one, or it is made with the call that it is an operand of. -/
theorem operand_cases (hi : i ∈ p.instructions f) (hj : j ∈ φ.segment i)
    (hx : x ∈ (q.inst j).op.operands) : (∃ y ∈ (p.inst i).op.operands, φ.subst y = x) ∨
      (∃ l, x = .literal l) ∨ ∃ r ∈ (φ i).code, x = .inst r := by
  have hmeets := h.meets i hi
  cases hfate : φ i with
  | kept =>
    rw [Fates.segment_eq_self hfate, List.mem_singleton] at hj
    rw [hfate] at hmeets
    rw [hj, show (q.inst i).op = _ from hmeets, Form.operands_map] at hx
    exact .inl (List.mem_map.1 hx)
  | dropped l =>
    rw [Fates.segment_eq_code (by simp [hfate]), hfate] at hj
    cases hj
  | written w l =>
    rw [Fates.segment_eq_code (by simp [hfate]), hfate] at hj
    rw [hfate] at hmeets
    obtain ⟨handle, y, z, ⟨callee, rest, hop, -⟩, hw⟩ := hmeets
    rw [List.mem_singleton.1 hj, hw] at hx
    rcases List.mem_cons.1 hx with rfl | hx
    · exact .inl ⟨handle, by simp [hop, Form.operands], rfl⟩
    · exact .inr (.inl ⟨l, List.mem_singleton.1 hx⟩)
  | copied r w u =>
    rw [Fates.segment_eq_code (by simp [hfate]), hfate] at hj
    rw [hfate] at hmeets
    obtain ⟨handle, y, z, ⟨callee, rest, hop, -⟩, hu, hr, hw⟩ := hmeets
    rcases List.mem_cons.1 hj with rfl | hj
    · rw [hr, show (Form.call _ [φ.subst u] : Op).operands = [φ.subst u] from rfl,
        List.mem_singleton] at hx
      refine .inl ⟨u, ?_, hx.symm⟩
      rcases hu with rfl | rfl <;> simp [hop, Form.operands]
    · rw [List.mem_singleton.1 hj, hw] at hx
      rcases List.mem_cons.1 hx with rfl | hx
      · exact .inl ⟨handle, by simp [hop, Form.operands], rfl⟩
      · exact .inr (.inr ⟨r, by simp [Fate.code], List.mem_singleton.1 hx⟩)

/-- A result that has been dropped is not mentioned any more. -/
theorem not_mem_values (hk : φ k = .dropped l) : .inst k ∉ q.values f := by
  intro hmem
  have hold {i : InstId} (hcode : k ∈ (φ i).code) : False :=
    Nat.not_lt.2 (h.new hcode) (h.lt_of_gone hp (by simp [hk]))
  obtain ⟨j, hj, hmem⟩ := List.mem_flatMap.1 hmem
  obtain ⟨i, hi, hj⟩ := h.mem_instructions.1 hj
  rcases List.mem_cons.1 hmem with heq | hmem
  · obtain rfl := Value.inst.inj heq
    by_cases hx : φ i = .kept
    · rw [Fates.segment_eq_self hx, List.mem_singleton] at hj
      rw [hj, hx] at hk
      cases hk
    · rw [Fates.segment_eq_code hx] at hj
      exact hold hj
  · rcases h.operand_cases hi hj hmem with ⟨y, -, hy⟩ | ⟨l, hl⟩ | ⟨r, hr, heq⟩
    · rw [Fates.subst_eq_inst hy, Fates.subst_eq_literal hk] at hy
      cases hy
    · cases hl
    · obtain rfl := Value.inst.inj heq
      exact hold hr

/-! ## Classes -/

section Classes

variable (hclasses : ∀ x, (Classification.ofFunc q o f).1.classOf x =
  (Classification.ofFunc p o f).1.classOf x)
include hclasses

/-- What is classified stays. -/
theorem subst_of_classified (hx : (Classification.ofFunc p o f).1.classOf x ≠ .irrelevant) :
    φ.subst x = x := by
  rcases Fates.subst_cases φ x with heq | ⟨i, l, rfl, hi, -⟩
  · exact heq
  · rw [← hclasses] at hx
    exact absurd (Classification.mem_mentioned_of_classOf hx) (h.not_mem_values hp hi)

end Classes

end Follows

end Program

end BoxFlow
