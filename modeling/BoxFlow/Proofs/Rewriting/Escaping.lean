import BoxFlow.Proofs.Escape
import BoxFlow.Proofs.Rewriting.Follows

/-!
# What escapes from a rewritten function

A rewriting takes away reads and arithmetic only, and adds reads and writes, none of which lets
anything escape. So a value of the function escapes before a rewriting if and only if what is in its
place does afterwards (`Program.Follows.escapes_subst`), and the oracle answers the same.
-/

namespace BoxFlow

open Relation (ReflTransGen)

/-- What can be reached from images, if every step from one leads to the images of what the steps
from its source lead to. -/
theorem reflTransGen_image_iff {α β : Type} {R : α → α → Prop} {S : β → β → Prop} {g : α → β}
    {V : α → Prop} (hV : ∀ {a b}, V a → R a b → V b)
    (hstep : ∀ {a}, V a → ∀ c, S (g a) c ↔ ∃ b, R a b ∧ g b = c) {a : α} (ha : V a) (c : β) :
    ReflTransGen S (g a) c ↔ ∃ b, ReflTransGen R a b ∧ V b ∧ g b = c := by
  constructor
  · intro h
    induction h with
    | refl => exact ⟨a, .refl, ha, rfl⟩
    | tail _ hc ih =>
      obtain ⟨b, hab, hb, rfl⟩ := ih
      obtain ⟨b', hbb', rfl⟩ := (hstep hb _).1 hc
      exact ⟨b', hab.tail hbb', hV hb hbb', rfl⟩
  · rintro ⟨b, hab, -, rfl⟩
    induction hab using ReflTransGen.head_induction_on with
    | refl => exact .refl
    | @head a b hab _ ih => exact .head ((hstep ha _).2 ⟨b, hab, rfl⟩) (ih (hV ha hab))

theorem Form.merged_map {V W B C : Type} (g : V → W) (g' : B → C) (op : Form V B) :
    (op.map g g').merged = op.merged.map g := by
  cases op <;> simp [Form.map, Form.merged]

namespace Escape

variable {p q : Program} {o : Options} {i : InstId} {g : Value → Value} {callee : String}
  {args : List Value} {op : Operation}

theorem isRoot_map (h : (q.inst i).op = (p.inst i).op.map g id) : isRoot q o i = isRoot p o i := by
  unfold isRoot
  rw [h]
  cases (p.inst i).op <;> rfl

theorem ownOrigin_map (h : (q.inst i).op = (p.inst i).op.map g id) :
    ownOrigin q o (.inst i) = ownOrigin p o (.inst i) := by
  unfold ownOrigin
  dsimp only
  rw [isRoot_map h, h]
  cases (p.inst i).op <;> rfl

theorem isRoot_of_call (h : (p.inst i).op = .call callee args)
    (hk : o.kindOf callee = .operation op) (hne : op ≠ .create) : isRoot p o i = false := by
  simp [isRoot, h, hk, hne]

/-- The result of an operation but `create` comes from elsewhere. -/
theorem ownOrigin_of_call (h : (p.inst i).op = .call callee args)
    (hk : o.kindOf callee = .operation op) (hne : op ≠ .create) :
    ownOrigin p o (.inst i) = some .elsewhere := by
  simp [ownOrigin, isRoot_of_call h hk hne, h]

theorem mergeInputs_of_call (h : (p.inst i).op = .call callee args) :
    mergeInputs p (.inst i) = [] := by
  simp [mergeInputs, h]

/-- Nothing escapes with the result of an operation but `create`. -/
theorem not_escapesWith_of_call (h : (p.inst i).op = .call callee args)
    (hk : o.kindOf callee = .operation op) (hne : op ≠ .create) {f : FuncId} {v : Value} :
    ¬EscapesWith p o f (.inst i) v := by
  simp [EscapesWith, mergeInputs_of_call h, isRoot_of_call h hk hne, h]

end Escape

namespace Program.Follows

open Escape

variable {p q : Program} {o : Options} {f : FuncId} {φ : Fates} {i j : InstId} {x y : Value}
  {cells : List Origin} {r : Origin}
variable (h : p.Follows q o f φ) (hp : p.Enclosed f)
include h hp

/-! ## Origins -/

omit h in
theorem mem_values_of_merge (hx : x ∈ p.values f) (hy : y ∈ mergeInputs p x) :
    y ∈ p.values f := by
  cases x with
  | inst i =>
    rw [mergeInputs_inst] at hy
    exact mem_values_of_operand (hp.mem_of_values hx) (merged_subset _ hy)
  | _ => cases hy

omit hp in
theorem op_of_kept (hi : i ∈ p.instructions f) (hx : φ i = .kept) :
    (q.inst i).op = (p.inst i).op.map φ.subst id := by
  have hmeets := h.meets i hi
  rw [hx] at hmeets
  exact hmeets

omit hp in
/-- A call that has gone is still a call of the same function. -/
theorem calls_of_gone (hx : φ i ≠ .kept) : ∃ callee args args' op,
    (p.inst i).op = .call callee args ∧ (q.inst i).op = .call callee args' ∧
      o.kindOf callee = .operation op ∧ op ≠ .create := by
  obtain ⟨callee, args, op, hop, hk, hne⟩ := h.call_of_gone hx
  have hskeleton := h.skeleton i (h.mem hx)
  rw [hop] at hskeleton
  obtain ⟨args', hq⟩ : ∃ args', (q.inst i).op = .call callee args' := by
    cases hq : (q.inst i).op <;> rw [hq] at hskeleton <;>
      simp only [Form.skeleton, Form.map, reduceCtorEq, Form.call.injEq] at hskeleton
    exact ⟨_, by rw [hskeleton.1]⟩
  exact ⟨callee, args, args', op, hop, hq, hk, hne⟩

/-- What a value passes on, and where it comes from by itself. -/
theorem merge_subst (hx : x ∈ p.values f) :
    mergeInputs q (φ.subst x) = (mergeInputs p x).map φ.subst ∧
      ownOrigin q o (φ.subst x) = ownOrigin p o x := by
  cases x with
  | inst i =>
    have hi := hp.mem_of_values hx
    by_cases hfate : φ i = .kept
    · have hop := h.op_of_kept hi hfate
      rw [Fates.subst_eq_self (by rw [hfate]; rfl), mergeInputs_inst, mergeInputs_inst, hop,
        Form.merged_map]
      exact ⟨rfl, ownOrigin_map hop⟩
    · obtain ⟨callee, args, args', op, hop, hq, hk, hne⟩ := h.calls_of_gone hfate
      rw [mergeInputs_of_call hop, ownOrigin_of_call hop hk hne]
      rcases Fates.subst_cases φ (.inst i) with heq | ⟨_, l, -, -, heq⟩
      · rw [heq]
        exact ⟨mergeInputs_of_call hq, ownOrigin_of_call hq hk hne⟩
      · rw [heq]
        exact ⟨rfl, rfl⟩
  | _ => exact ⟨rfl, rfl⟩

theorem mem_origins_subst (hx : x ∈ p.values f) :
    r ∈ origins q o (φ.subst x) ↔ r ∈ origins p o x := by
  rw [mem_origins_iff, mem_origins_iff]
  have himage (u : Value) := reflTransGen_image_iff (R := fun a b => b ∈ mergeInputs p a)
    (S := fun a b => b ∈ mergeInputs q a) (V := (· ∈ p.values f)) (g := φ.subst)
    (mem_values_of_merge hp) (fun hv c => by rw [(h.merge_subst hp hv).1, List.mem_map]) hx u
  constructor
  · rintro ⟨u, hu, hr⟩
    obtain ⟨y, hy, hv, rfl⟩ := (himage u).1 hu
    exact ⟨y, hy, by rwa [(h.merge_subst hp hv).2] at hr⟩
  · rintro ⟨y, hy, hr⟩
    have hv : y ∈ p.values f := by
      clear hr himage
      induction hy with
      | refl => exact hx
      | tail _ hyz ih => exact mem_values_of_merge hp ih hyz
    exact ⟨φ.subst y, (himage _).2 ⟨y, hy, hv, rfl⟩, by rw [(h.merge_subst hp hv).2]; exact hr⟩

/-! ## Stored and given values -/

theorem mem_storedIn_subst : y ∈ storedIn (stores q o f) cells ↔
    ∃ x ∈ storedIn (stores p o f) cells, φ.subst x = y := by
  simp only [mem_storedIn]
  constructor
  · rintro ⟨j, hj, pointer, hop, r, hr, hcell⟩
    rcases h.kept_or_new hj with ⟨hi, -, hmap⟩ | ⟨_, _, _, -, -, hcall, -⟩
    · rw [hop] at hmap
      cases hp' : (p.inst j).op with
      | store u pointer' =>
        rw [hp'] at hmap
        obtain ⟨rfl, rfl⟩ := Form.store.inj hmap
        have hv := mem_values_of_operand hi (x := pointer') (by simp [hp', Form.operands])
        exact ⟨u, ⟨j, hi, pointer', hp', r, (h.mem_origins_subst hp hv).1 hr, hcell⟩, rfl⟩
      | _ =>
        rw [hp'] at hmap
        cases hmap
    · rw [hop] at hcall
      cases hcall
  · rintro ⟨u, ⟨i, hi, pointer, hop, r, hr, hcell⟩, rfl⟩
    have hfate : φ i = .kept := by
      by_contra hx
      obtain ⟨_, _, _, _, hcall, -⟩ := h.calls_of_gone hx
      rw [hop] at hcall
      cases hcall
    have hv := mem_values_of_operand hi (x := pointer) (by simp [hop, Form.operands])
    refine ⟨i, h.mem_instructions.2 ⟨i, hi, by simp [Fates.segment_eq_self hfate]⟩,
      φ.subst pointer, ?_, r, (h.mem_origins_subst hp hv).2 hr, hcell⟩
    rw [h.op_of_kept hi hfate, hop]
    rfl

omit hp in
theorem mem_given_subst : y ∈ given q o f ↔ ∃ x ∈ given p o f, φ.subst x = y := by
  simp only [mem_given]
  constructor
  · rintro ⟨j, hj, hgiven⟩
    rcases h.kept_or_new hj with ⟨hi, -, hmap⟩ | ⟨_, op, _, -, -, hcall, -⟩
    · rw [hmap] at hgiven
      cases hop : (p.inst j).op with
      | ret v =>
        cases v with
        | none => simp [hop, Form.map] at hgiven
        | some v =>
          simp only [hop, Form.map, Option.map_some, Form.ret.injEq, Option.some.injEq,
            reduceCtorEq, false_and, exists_false, or_false] at hgiven
          exact ⟨v, ⟨j, hi, .inl hop⟩, hgiven⟩
      | call callee args =>
        simp only [hop, Form.map, reduceCtorEq, false_or, Form.call.injEq] at hgiven
        obtain ⟨_, _, ⟨rfl, rfl⟩, hk, hy⟩ := hgiven
        obtain ⟨v, hv, rfl⟩ := List.mem_map.1 hy
        exact ⟨v, ⟨j, hi, .inr ⟨_, args, hop, hk, hv⟩⟩, rfl⟩
      | _ => simp [hop, Form.map] at hgiven
    · rw [hcall] at hgiven
      rcases hgiven with heq | ⟨callee, args, heq, hk, -⟩
      · cases heq
      · obtain ⟨rfl, -⟩ := Form.call.inj heq
        rw [o.kindOf_nameOf] at hk
        cases hk
  · rintro ⟨u, ⟨i, hi, hgiven⟩, rfl⟩
    have hfate : φ i = .kept := by
      by_contra hx
      obtain ⟨callee, _, _, op, hcall, -, hk, -⟩ := h.calls_of_gone hx
      rcases hgiven with heq | ⟨_, _, heq, hk', -⟩
      · rw [heq] at hcall
        cases hcall
      · rw [heq] at hcall
        obtain ⟨rfl, -⟩ := Form.call.inj hcall
        rw [hk] at hk'
        cases hk'
    refine ⟨i, h.mem_instructions.2 ⟨i, hi, by simp [Fates.segment_eq_self hfate]⟩, ?_⟩
    rw [h.op_of_kept hi hfate]
    rcases hgiven with heq | ⟨callee, args, heq, hk, hu⟩
    · exact .inl (by rw [heq]; rfl)
    · exact .inr ⟨callee, args.map φ.subst, by rw [heq]; rfl, hk, List.mem_map_of_mem hu⟩

/-! ## Escaping values -/

omit h hp in
theorem storedIn_subset_values : storedIn (stores p o f) cells ⊆ p.values f := by
  intro y hy
  obtain ⟨i, hi, pointer, hop, -⟩ := mem_storedIn.1 hy
  exact mem_values_of_operand hi (by simp [hop, Form.operands])

omit h in
theorem mem_values_of_escapesWith (hx : x ∈ p.values f) (hy : EscapesWith p o f x y) :
    y ∈ p.values f := by
  cases x with
  | inst i =>
    rcases hy with hy | ⟨_, _, hy⟩ | ⟨_, hy⟩
    · exact mem_values_of_merge hp hx hy
    · exact storedIn_subset_values hy
    · exact storedIn_subset_values hy
  | _ => cases hy

theorem escapesWith_subst (hx : x ∈ p.values f) :
    EscapesWith q o f (φ.subst x) y ↔ ∃ u, EscapesWith p o f x u ∧ φ.subst u = y := by
  cases x with
  | inst i =>
    have hi := hp.mem_of_values hx
    by_cases hfate : φ i = .kept
    · have hop := h.op_of_kept hi hfate
      have hmerge := (h.merge_subst hp hx).1
      rw [Fates.subst_eq_self (by rw [hfate]; rfl)] at hmerge ⊢
      have hload : (∃ pointer, (q.inst i).op = .load pointer ∧
            y ∈ storedIn (stores q o f) (origins q o pointer)) ↔
          ∃ u, (∃ pointer, (p.inst i).op = .load pointer ∧
            u ∈ storedIn (stores p o f) (origins p o pointer)) ∧ φ.subst u = y := by
        rw [hop]
        cases hp' : (p.inst i).op with
        | load pointer =>
          have hv := mem_values_of_operand hi (x := pointer) (by simp [hp', Form.operands])
          have hcells : y ∈ storedIn (stores q o f) (origins q o (φ.subst pointer)) ↔
              y ∈ storedIn (stores q o f) (origins p o pointer) := by
            simp only [mem_storedIn, h.mem_origins_subst hp hv]
          simp only [Form.map, Form.load.injEq, exists_eq_left', hcells]
          exact h.mem_storedIn_subst hp
        | _ => simp [Form.map]
      have hheld : (isRoot q o i = true ∧ y ∈ storedIn (stores q o f) [.root i]) ↔
          ∃ u, (isRoot p o i = true ∧ u ∈ storedIn (stores p o f) [.root i]) ∧
            φ.subst u = y := by
        rw [isRoot_map hop, h.mem_storedIn_subst hp]
        simp [and_assoc]
      simp only [EscapesWith, hmerge, List.mem_map, hload, hheld, ← exists_or, or_and_right]
    · obtain ⟨callee, args, args', op, hop, hq, hk, hne⟩ := h.calls_of_gone hfate
      have hno {u : Value} : ¬EscapesWith p o f (.inst i) u := not_escapesWith_of_call hop hk hne
      rcases Fates.subst_cases φ (.inst i) with heq | ⟨_, l, -, -, heq⟩
      · have hno' : ¬EscapesWith q o f (.inst i) y := not_escapesWith_of_call hq hk hne
        simp only [heq, hno, hno', false_and, exists_false]
      · have hno' : ¬EscapesWith q o f (.literal l) y := not_false
        simp only [heq, hno, hno', false_and, exists_false]
  | _ => simp [EscapesWith, Fates.subst, Layout.subst]

omit h in
theorem escapingValues_subset_values : escapingValues p o f ⊆ p.values f := by
  intro x hx
  obtain ⟨r, hr, hrx⟩ := mem_escapingValues_iff.1 hx
  have hroot : r ∈ p.values f := by
    rcases List.mem_append.1 hr with hr | hr
    · obtain ⟨i, hi, hop | ⟨callee, args, hop, -, hr⟩⟩ := mem_given.1 hr
      · exact mem_values_of_operand hi (by simp [hop, Form.operands])
      · exact mem_values_of_operand hi (by rw [hop]; exact hr)
    · exact storedIn_subset_values hr
  clear hr hx
  induction hrx with
  | refl => exact hroot
  | tail _ h ih => exact mem_values_of_escapesWith hp ih h

theorem mem_escapingValues_subst :
    y ∈ escapingValues q o f ↔ ∃ x ∈ escapingValues p o f, φ.subst x = y := by
  have hroots : ∀ r, r ∈ given q o f ++ storedIn (stores q o f) [.elsewhere] ↔
      ∃ x ∈ given p o f ++ storedIn (stores p o f) [.elsewhere], φ.subst x = r := by
    intro r
    simp only [List.mem_append, h.mem_given_subst, h.mem_storedIn_subst hp, or_and_right, exists_or]
  have himage {a : Value} (ha : a ∈ p.values f) := reflTransGen_image_iff
    (R := EscapesWith p o f) (S := EscapesWith q o f) (V := (· ∈ p.values f)) (g := φ.subst)
    (mem_values_of_escapesWith hp) (fun hv c => h.escapesWith_subst hp hv) ha y
  have hvalues {r : Value} (hr : r ∈ given p o f ++ storedIn (stores p o f) [.elsewhere]) :
      r ∈ p.values f :=
    escapingValues_subset_values hp (mem_escapingValues_iff.2 ⟨r, hr, .refl⟩)
  simp only [mem_escapingValues_iff, hroots]
  constructor
  · rintro ⟨_, ⟨r, hr, rfl⟩, hy⟩
    obtain ⟨x, hrx, -, rfl⟩ := (himage (hvalues hr)).1 hy
    exact ⟨x, ⟨r, hr, hrx⟩, rfl⟩
  · rintro ⟨x, ⟨r, hr, hrx⟩, rfl⟩
    have hx := escapingValues_subset_values hp (mem_escapingValues_iff.2 ⟨r, hr, hrx⟩)
    exact ⟨_, ⟨r, hr, rfl⟩, (himage (hvalues hr)).2 ⟨x, hrx, hx, rfl⟩⟩

/-! ## The oracle -/

theorem escapes_subst (hx : x ∈ p.values f) :
    (ofFunc q o f).escapes (φ.subst x) = (ofFunc p o f).escapes x := by
  have hroot {i : InstId} (hr : .root i ∈ origins p o x) :
      .inst i ∈ escapingValues q o f ↔ .inst i ∈ escapingValues p o f := by
    rw [h.mem_escapingValues_subst hp]
    constructor
    · rintro ⟨y, hy, heq⟩
      rwa [← Fates.subst_eq_inst heq]
    · intro hi
      have hfate : φ i = .kept := by
        by_contra hx
        obtain ⟨u, -, hu⟩ := mem_origins_iff.1 hr
        obtain ⟨callee, args, op, hop, hk, hne⟩ := h.call_of_gone hx
        exact absurd (root_of_ownOrigin hu).2 (by simp [isRoot_of_call hop hk hne])
      exact ⟨_, hi, Fates.subst_eq_self (by rw [hfate]; rfl)⟩
  rw [Bool.eq_iff_iff, escapes_iff, escapes_iff]
  constructor
  · rintro ⟨r, hr, hout⟩
    have hr := (h.mem_origins_subst hp hx).1 hr
    exact ⟨r, hr, fun i hi => (hroot (hi ▸ hr)).1 (hout i hi)⟩
  · rintro ⟨r, hr, hout⟩
    exact ⟨r, (h.mem_origins_subst hp hx).2 hr, fun i hi => (hroot (hi ▸ hr)).2 (hout i hi)⟩

/-- The oracle answers for a call that stays as it has done. -/
theorem oracle_subst (hi : i ∈ p.instructions f) (hfate : φ i = .kept) (hx : x ∈ p.values f)
    (m n : Nat) : (ofFunc q o f).oracle i (φ.subst x) m = (ofFunc p o f).oracle i x n := by
  have hop : ((ofFunc q o f).program.inst i).op =
      ((ofFunc p o f).program.inst i).op.map φ.subst id := h.op_of_kept hi hfate
  unfold oracle
  rw [hop]
  cases ((ofFunc p o f).program.inst i).op with
  | call callee args =>
    show mayModifyBy _ _ _ = mayModifyBy _ _ _
    unfold mayModifyBy
    rw [h.escapes_subst hp hx]
    rfl
  | _ => rfl

end Program.Follows

end BoxFlow
