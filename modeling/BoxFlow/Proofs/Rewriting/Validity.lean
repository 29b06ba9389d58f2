import BoxFlow.Proofs.IR.WellFormed
import BoxFlow.Proofs.Rewriting.Mirrors

/-!
# Rewritten programs are well formed

A rewriting keeps what the structural checks and the check of the operations ask for, with one
exception: an arithmetic call that goes may leave its result behind as an operand. So a function
that uses no result of arithmetic stays well formed (`Rewriting.wellFormed`), and so does every
other function (`Rewriting.wellFormed_of_ne`).
-/

namespace BoxFlow

open Program (branchEdges)

/-! ## The instructions of a rewritten program -/

namespace Program

variable {p q : Program} {g : Value → Value} {f : FuncId} {b : BlockId}

theorem branchEdges_map (g : Value → Value) (b : BlockId) (op : Op) :
    branchEdges b (op.map g id) = branchEdges b op := by
  cases op with
  | br c targets => cases c <;> simp [Form.map, branchEdges]
  | _ => rfl

theorem branchEdges_of_isCall {op : Op} (h : op.isCall = true) : branchEdges b op = [] := by
  cases op <;> first | rfl | cases h

/-- An instruction belongs to one function. -/
theorem Linked.not_mem_of_ne {f' : FuncId} (hp : p.Linked) (hf : f ≠ f') {i : InstId}
    (hi : i ∈ p.instructions f) : i ∉ p.instructions f' := by
  obtain ⟨b, hb, hib⟩ := List.mem_flatMap.1 hi
  intro hmem
  obtain ⟨d, hd, hid⟩ := List.mem_flatMap.1 hmem
  obtain rfl : b = d := Option.some.inj ((hp.held hib).symm.trans (hp.held hid))
  exact hf (Option.some.inj ((hp.parent hb).symm.trans (hp.parent hd)))

/-- A function is well formed if another one looks the same. -/
theorem WellFormed.congr (h : p.WellFormed f) (hblocks : (q.func f).blocks = (p.func f).blocks)
    (hblock : ∀ b ∈ (p.func f).blocks, q.block b = p.block b)
    (hop : ∀ i ∈ p.instructions f, (q.inst i).op = (p.inst i).op) : q.WellFormed f := by
  have hmem {b i} (hb : b ∈ (p.func f).blocks) (hi : i ∈ (p.block b).insts) :
      i ∈ p.instructions f := List.mem_flatMap.2 ⟨b, hb, hi⟩
  have hinstructions : q.instructions f = p.instructions f := by
    rw [instructions, hblocks]
    exact List.flatMap_congr fun b hb => congrArg Block.insts (hblock b hb)
  have hphis {b} (hb : b ∈ (p.func f).blocks) : q.phis b = p.phis b := by
    rw [phis, hblock b hb]
    exact List.filter_congr fun i hi => congrArg Form.isPhi (hop i (hmem hb hi))
  obtain ⟨e, he, hpred⟩ := h.entry
  refine ⟨⟨e, by rw [ entry?, hblocks]; exact he, ?_⟩, ?_, ?_, ?_, ?_, ?_⟩
  · rw [hblock e (List.mem_of_head? he)]
    exact hpred
  · intro b hb
    rw [hblocks] at hb
    have hlast := h.terminated b hb
    rw [terminator?, Option.isSome_iff_exists] at hlast ⊢
    obtain ⟨i, hi⟩ := hlast
    obtain ⟨hi, hterm⟩ := Option.filter_eq_some_iff.1 hi
    refine ⟨i, Option.filter_eq_some_iff.2 ⟨by rw [hblock b hb]; exact hi, ?_⟩⟩
    rw [hop i (hmem hb (List.mem_of_getLast? hi))]
    exact hterm
  · intro b hb i hi
    rw [hblocks] at hb
    rw [hphis hb] at hi ⊢
    rw [hblock b hb]
    exact h.leading b hb i hi
  · intro b hb i hi
    rw [hblocks] at hb
    rw [hphis hb] at hi
    rw [predecessorBlocks, hblock b hb, hop i (hmem hb (List.mem_filter.1 hi).1)]
    exact h.sources b hb i hi
  · intro b hb i hi hterm
    rw [hblocks] at hb
    rw [hblock b hb] at hi ⊢
    rw [hop i (hmem hb hi)] at hterm
    exact h.last b hb i hi hterm
  · intro i hi j hj
    rw [hinstructions] at hi ⊢
    rw [hop i hi] at hj
    exact h.owned i hi j hj

end Program

namespace Rewriting

variable {p : Program} {o : Options} {a : Analysis} {names : Names} {J : InstId → Fate → Prop}
  {φ : Fates} {s : RewriteState} {f : FuncId} {b : BlockId} {i j k : InstId} {v : Value}

variable (hp : p.Linked) (h : Rewriting p a names J φ [] s)
include hp h

/-- An instruction that is kept differs in its operands only, if at all. -/
theorem exists_map_of_kept (hi : i ∈ p.instructions f) (hx : φ i = .kept) :
    ∃ g, s.program.inst i = { p.inst i with op := (p.inst i).op.map g id } := by
  by_cases hmem : i ∈ p.instructions a.func
  · exact ⟨_, h.program.inst hmem (Fates.erased_layout.2 (.inl hx))⟩
  · refine ⟨id, ?_⟩
    rw [h.program.others (hp.lt_size hi) hmem, Form.map_id]

/-- What branches where an instruction stood. -/
theorem mem_branchEdges_segment (hi : i ∈ p.instructions f) {e : Edge} :
    (∃ j ∈ (φ.layout []).segment i, e ∈ branchEdges b (s.program.inst j).op) ↔
      e ∈ branchEdges b (p.inst i).op := by
  by_cases hx : φ i = .kept
  · obtain ⟨g, hg⟩ := h.exists_map_of_kept hp hi hx
    rw [Fates.segment_of_kept hx]
    simp [hg, Program.branchEdges_map]
  · rw [Fates.segment_of_gone hx, Program.branchEdges_of_isCall (h.isCall hx)]
    refine iff_of_false ?_ (by simp)
    rintro ⟨j, hj, he⟩
    obtain ⟨_, _, hcalls, -⟩ := h.kind_of_mem_code hj
    rw [hcalls.op, Program.branchEdges_of_isCall rfl] at he
    cases he

/-- A rewritten program is linked. -/
theorem linked : s.program.Linked where
  succ := by simp only [h.program.blocks]; exact hp.succ
  pred := by simp only [h.program.blocks]; exact hp.pred
  within := by simp only [h.program.blocks, h.program.funcs]; exact hp.within
  edges {f b e} hb := by
    rw [h.program.funcs] at hb
    rw [h.program.blocks]
    simp only [List.mem_flatMap]
    rw [hp.edges hb]
    constructor
    · rintro ⟨i, hi, he⟩
      obtain ⟨j, hj, he⟩ := (h.mem_branchEdges_segment hp (List.mem_flatMap.2 ⟨b, hb, hi⟩)).2 he
      exact ⟨j, ⟨i, hi, hj⟩, he⟩
    · rintro ⟨j, ⟨i, hi, hj⟩, he⟩
      exact ⟨i, hi, (h.mem_branchEdges_segment hp (List.mem_flatMap.2 ⟨b, hb, hi⟩)).1 ⟨j, hj, he⟩⟩
  parent := by simp only [h.program.blocks, h.program.funcs]; exact hp.parent
  held := h.program.held
  nodup := h.program.nodup _
  distinct := by simp only [h.program.funcs]; exact hp.distinct

/-- A rewritten program has the arguments that operations take, if the program has. -/
theorem fitsArity (hnames : names = o.names) (hf : ∀ i ∈ p.instructions f, (p.inst i).FitsArity o)
    (hj : j ∈ s.program.instructions f) : (s.program.inst j).FitsArity o := by
  obtain ⟨i, hi, hj⟩ := h.program.mem_instructions.1 hj
  by_cases hx : φ i = .kept
  · obtain ⟨g, hg⟩ := h.exists_map_of_kept hp hi hx
    rw [Fates.segment_of_kept hx, List.mem_singleton] at hj
    rw [hj, hg]
    intro callee args op hcall hkind
    cases hop : (p.inst i).op with
    | call callee' args' =>
      rw [hop] at hcall
      obtain ⟨rfl, rfl⟩ := Form.call.inj hcall
      obtain ⟨hlength, hresult⟩ := hf i hi _ _ _ hop hkind
      exact ⟨by rw [List.length_map]; exact hlength, hresult⟩
    | _ =>
      rw [hop] at hcall
      cases hcall
  · rw [Fates.segment_of_gone hx] at hj
    have hfits := h.fits i
    have hnew {op args} (hcalls : s.Calls j op args) (hlength : args.length = op.arity)
        (hop : op ≠ .create) : (s.program.inst j).FitsArity o := by
      intro callee args' op' hcall hkind
      rw [hcalls.op, h.names, hnames] at hcall
      obtain ⟨rfl, rfl⟩ := Form.call.inj hcall
      obtain rfl := CallKind.operation.inj ((o.kindOf_nameOf op).symm.trans hkind)
      exact ⟨hlength, fun hcreate => absurd hcreate hop⟩
    cases hxi : φ i with
    | kept => exact absurd hxi hx
    | dropped l =>
      rw [hxi] at hj
      cases hj
    | written w l =>
      rw [hxi] at hj hfits
      obtain ⟨_, _, _, -, hw⟩ := hfits
      obtain rfl := List.mem_singleton.1 hj
      exact hnew hw rfl nofun
    | copied r w u =>
      rw [hxi] at hj hfits
      obtain ⟨_, _, _, -, -, hr, hw⟩ := hfits
      rcases List.mem_cons.1 hj with rfl | hj
      · exact hnew hr rfl nofun
      · obtain rfl := List.mem_singleton.1 hj
        exact hnew hw rfl nofun

/-! ## Other functions -/

/-- Another function stays as it is. -/
theorem frame (hf : f ≠ a.func) : (∀ b ∈ (p.func f).blocks, s.program.block b = p.block b) ∧
    ∀ i ∈ p.instructions f, s.program.inst i = p.inst i := by
  constructor
  · intro b hb
    have hsegment : (p.block b).insts.flatMap (φ.layout []).segment = (p.block b).insts := by
      refine (List.flatMap_congr fun i hi => Fates.segment_of_kept ?_).trans
        (List.flatMap_singleton' _)
      by_contra hx
      exact hp.not_mem_of_ne hf (List.mem_flatMap.2 ⟨b, hb, hi⟩) (h.mem_instructions hx)
    rw [h.program.blocks, hsegment]
  · intro i hi
    exact h.program.others (hp.lt_size hi) (hp.not_mem_of_ne hf hi)

theorem wellFormed_of_ne (hf : f ≠ a.func) (hw : p.WellFormed f) : s.program.WellFormed f :=
  hw.congr (h.program.funcs f) (h.frame hp hf).1 fun i hi =>
    congrArg Inst.op ((h.frame hp hf).2 i hi)

/-- No operand of another function becomes the result of arithmetic. -/
theorem ignoresArithmetic_of_ne (hf : f ≠ a.func) (hw : p.WellFormed f)
    (hi : p.IgnoresArithmetic o f) : s.program.IgnoresArithmetic o f := by
  obtain ⟨hblock, hinst⟩ := h.frame hp hf
  have hinstructions : s.program.instructions f = p.instructions f := by
    rw [Program.instructions, h.program.funcs]
    exact List.flatMap_congr fun b hb => congrArg Block.insts (hblock b hb)
  intro i hmem j hj
  rw [hinstructions] at hmem
  rw [hinst i hmem] at hj
  rw [hinst j (hw.owned i hmem j hj)]
  exact hi i hmem j hj

/-! ## The rewritten function -/

omit hp in
/-- An operand that is a result was one of the function, or it is what has been put in. -/
theorem operand_cases (hj : j ∈ s.program.instructions a.func)
    (hk : .inst k ∈ (s.program.inst j).op.operands) :
    (∃ i ∈ p.instructions a.func, .inst k ∈ (p.inst i).op.operands ∧ (φ k).literal? = none) ∨
      ∃ i, k ∈ (φ i).code := by
  have hold {i : InstId} {u : Value} (hi : i ∈ p.instructions a.func)
      (hu : u ∈ (p.inst i).op.operands) (heq : (φ.layout []).subst u = .inst k) :
      ∃ i ∈ p.instructions a.func, .inst k ∈ (p.inst i).op.operands ∧ (φ k).literal? = none := by
    cases u with
    | inst l =>
      cases hl : (φ l).literal? with
      | none =>
        rw [Fates.subst_of_literal?_eq_none hl] at heq
        cases heq
        exact ⟨i, hi, hu, hl⟩
      | some c =>
        simp [Layout.subst, Fates.layout, hl] at heq
    | _ => cases heq
  rcases h.program.old_or_new hj with ⟨hmem, herased⟩ | ⟨-, i, hi, hcode⟩
  · have hx := (Fates.erased_layout.1 herased).resolve_right (by simp)
    rw [h.op_of_kept hmem (.inl hx), Form.operands_map] at hk
    obtain ⟨u, hu, heq⟩ := List.mem_map.1 hk
    exact .inl (hold hmem hu heq)
  · change j ∈ (φ i).code at hcode
    have hfits := h.fits i
    cases hx : φ i with
    | kept | dropped =>
      rw [hx] at hcode
      cases hcode
    | written w l =>
      rw [hx] at hcode hfits
      obtain ⟨handle, x, y, ⟨-, -, callee, rest, hop⟩, hw⟩ := hfits
      obtain rfl := List.mem_singleton.1 hcode
      rw [hw.op] at hk
      rcases List.mem_cons.1 hk with hk | hk
      · exact .inl (hold (u := handle) hi (by rw [hop]; simp [Form.operands]) hk.symm)
      · simp at hk
    | copied r w u =>
      have hr : r ∈ (φ i).code := by rw [hx]; exact List.mem_cons_self
      rw [hx] at hcode hfits
      obtain ⟨handle, x, y, ⟨-, -, callee, rest, hop⟩, hu, hread, hw⟩ := hfits
      rcases List.mem_cons.1 hcode with rfl | hcode
      · rw [hread.op] at hk
        refine .inl (hold (u := u) hi ?_ (List.mem_singleton.1 hk).symm)
        rw [hop]
        rcases hu with rfl | rfl
        · simp [Form.operands]
        · simp [Form.operands]
      · obtain rfl := List.mem_singleton.1 hcode
        rw [hw.op] at hk
        rcases List.mem_cons.1 hk with hk | hk
        · exact .inl (hold (u := handle) hi (by rw [hop]; simp [Form.operands]) hk.symm)
        · obtain rfl := Value.inst.inj (List.mem_singleton.1 hk)
          exact .inr ⟨i, hr⟩

section Ignoring

variable (hkinds : ∀ i ∈ p.instructions a.func, ∀ callee args,
    (p.inst i).op = .call callee args → a.cls.kindOf i = o.kindOf callee)
  (harith : p.IgnoresArithmetic o a.func)
include hkinds harith

omit hp in
/-- What is used as an operand stays, unless it gives way to a literal. -/
theorem kept_of_operand (hi : i ∈ p.instructions a.func)
    (hk : .inst k ∈ (p.inst i).op.operands) (hliteral : (φ k).literal? = none) : φ k = .kept := by
  have hfits := h.fits k
  have hnone {handle x y : Value} (ha : a.Arithmetic p k handle x y) : False := by
    obtain ⟨callee, rest, hop⟩ := ha.op
    have hne := harith i hi k hk callee (by rw [hop]; rfl)
    rw [← hkinds k ha.mem _ _ hop] at hne
    exact ha.kind.elim hne.1 hne.2
  cases hx : φ k with
  | kept => rfl
  | dropped l =>
    rw [hx] at hliteral
    cases hliteral
  | written w l =>
    rw [hx] at hfits
    obtain ⟨_, _, _, ha, -⟩ := hfits
    exact (hnone ha).elim
  | copied r w u =>
    rw [hx] at hfits
    obtain ⟨_, _, _, ha, -⟩ := hfits
    exact (hnone ha).elim

omit hp hkinds harith in
/-- Only calls go, so a terminator at the end of a block stays there. -/
theorem getLast?_of_terminator (hi : (p.block b).insts.getLast? = some i)
    (hterm : (p.inst i).op.isTerminator = true) : (s.program.block b).insts.getLast? = some i := by
  obtain ⟨pre, hpre⟩ := List.getLast?_eq_some_iff.1 hi
  rw [h.program.blocks, hpre, List.flatMap_append, List.flatMap_singleton,
    Fates.segment_of_kept (h.kept_of_isTerminator hterm), List.getLast?_append]
  rfl

omit hkinds harith in
/-- So do the phis at its start. -/
theorem take_phis (hb : b ∈ (p.func a.func).blocks) (hw : p.WellFormed a.func) :
    (s.program.block b).insts.take (p.phis b).length = p.phis b := by
  have hsegments : (p.phis b).flatMap (φ.layout []).segment = p.phis b :=
    (List.flatMap_congr fun i hi => Fates.segment_of_kept
      (h.kept_of_isPhi (List.mem_filter.1 hi).2)).trans (List.flatMap_singleton' _)
  have hsplit := Program.insts_eq_phis_append hp (Program.verify_eq_nil_iff.2 hw) hb
  rw [h.program.blocks, hsplit, List.flatMap_append, hsegments, List.take_left]

/-- A function that uses no result of arithmetic stays well formed. -/
theorem wellFormed (hw : p.WellFormed a.func) : s.program.WellFormed a.func := by
  have hmem {b i} (hb : b ∈ (p.func a.func).blocks) (hi : i ∈ (p.block b).insts) :
      i ∈ p.instructions a.func := List.mem_flatMap.2 ⟨b, hb, hi⟩
  have hop {i} (hi : i ∈ p.instructions a.func) (hx : φ i = .kept) :=
    h.op_of_kept hi (.inl hx)
  have hblocks := h.program.funcs a.func
  exact {
    entry := by
      obtain ⟨e, he, hpred⟩ := hw.entry
      refine ⟨e, ?_, ?_⟩
      · rw [Program.entry?, hblocks]
        exact he
      · rw [h.program.blocks]
        exact hpred
    terminated := fun b hb => by
      rw [hblocks] at hb
      have hsome := hw.terminated b hb
      rw [Program.terminator?, Option.isSome_iff_exists] at hsome ⊢
      obtain ⟨i, hi⟩ := hsome
      obtain ⟨hi, hterm⟩ := Option.filter_eq_some_iff.1 hi
      refine ⟨i, Option.filter_eq_some_iff.2 ⟨h.getLast?_of_terminator hi hterm, ?_⟩⟩
      rw [hop (hmem hb (List.mem_of_getLast? hi)) (h.kept_of_isTerminator hterm),
        Form.isTerminator_map]
      exact hterm
    leading := fun b hb i hi => by
      rw [hblocks] at hb
      rw [h.phis_eq hb] at hi ⊢
      rw [h.take_phis hp hb hw]
      exact hi
    sources := fun b hb i hi => by
      rw [hblocks] at hb
      rw [h.phis_eq hb] at hi
      obtain ⟨hib, hphi⟩ := List.mem_filter.1 hi
      rw [hop (hmem hb hib) (h.kept_of_isPhi hphi), Form.blocks_map, List.map_id,
        Program.predecessorBlocks, h.program.blocks]
      exact hw.sources b hb i hi
    last := fun b hb j hj hterm => by
      rw [hblocks] at hb
      rw [h.program.blocks] at hj
      obtain ⟨i, hi, hj⟩ := List.mem_flatMap.1 hj
      by_cases hx : φ i = .kept
      · rw [Fates.segment_of_kept hx, List.mem_singleton] at hj
        rw [hj] at hterm ⊢
        rw [hop (hmem hb hi) hx, Form.isTerminator_map] at hterm
        exact h.getLast?_of_terminator (hw.last b hb i hi hterm) hterm
      · -- What has been put in is a call.
        rw [Fates.segment_of_gone hx] at hj
        obtain ⟨_, _, hcalls, -⟩ := h.kind_of_mem_code hj
        rw [hcalls.op] at hterm
        cases hterm
    owned := fun j hj k hk => by
      rcases h.operand_cases hj hk with ⟨i, hi, hk, hliteral⟩ | ⟨i, hcode⟩
      · have hx := h.kept_of_operand hkinds harith hi hk hliteral
        exact h.program.mem_instructions_of_kept (hw.owned i hi k hk)
          (Fates.erased_layout.2 (.inl hx))
      · exact h.code_mem_instructions hcode }

omit hp in
/-- It still uses no result of arithmetic. -/
theorem ignoresArithmetic (hnames : names = o.names) (hw : p.WellFormed a.func) :
    s.program.IgnoresArithmetic o a.func := by
  intro j hj k hk callee hcallee
  rcases h.operand_cases hj hk with ⟨i, hi, hk, hliteral⟩ | ⟨i, hcode⟩
  · have hx := h.kept_of_operand hkinds harith hi hk hliteral
    have hop := h.op_of_kept (hw.owned i hi k hk) (.inl hx)
    rw [hop, Form.callee?_map] at hcallee
    exact harith i hi k hk callee hcallee
  · obtain ⟨op, args, hcalls, hop⟩ := h.kind_of_mem_code hcode
    rw [hcalls.op, h.names, hnames] at hcallee
    obtain rfl := Option.some.inj hcallee
    rw [o.kindOf_nameOf]
    rcases hop with rfl | rfl
    · simp
    · simp

end Ignoring

end Rewriting

end BoxFlow
