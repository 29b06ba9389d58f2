import BoxFlow.Proofs.Listing.Serials
import BoxFlow.Proofs.Rewriting.Follows

/-!
# A function in a program that goes on changing

The functions of a module are rewritten one after another. `Program.Carries` says that a function is
left alone by what becomes of a program. So a function comes to its turn as it was loaded
(`Program.Carries.enclosed`), and what has become of it then is still there in the end
(`Rewriting.follows`).
-/

namespace BoxFlow

/-- The program `q` has come from `p` without a change to function `f`, nor to an instruction that
stands in no function. -/
structure Program.Carries (f : FuncId) (p q : Program) : Prop where
  blocks : (q.func f).blocks = (p.func f).blocks
  block : ∀ b ∈ (p.func f).blocks, q.block b = p.block b
  size : p.insts.size ≤ q.insts.size
  nextSerial : p.nextSerial ≤ q.nextSerial
  inst : ∀ i < p.insts.size, (∀ g ≠ f, i ∉ p.instructions g) → q.inst i = p.inst i
  others : ∀ g ≠ f, ∀ i ∈ q.instructions g, i ∈ p.instructions g ∨ p.insts.size ≤ i

namespace Program.Carries

variable {p q r : Program} {f : FuncId} {o : Options} {i : InstId}

theorem refl (f : FuncId) (p : Program) : p.Carries f p :=
  ⟨rfl, fun _ _ => rfl, Nat.le_refl _, Nat.le_refl _, fun _ _ _ => rfl, fun _ _ _ => .inl⟩

theorem trans (h : p.Carries f q) (h' : q.Carries f r) : p.Carries f r where
  blocks := h'.blocks.trans h.blocks
  block b hb := (h'.block b (h.blocks ▸ hb)).trans (h.block b hb)
  size := Nat.le_trans h.size h'.size
  nextSerial := Nat.le_trans h.nextSerial h'.nextSerial
  inst i hi hnot := by
    refine (h'.inst i (Nat.lt_of_lt_of_le hi h.size) fun g hg hmem => ?_).trans (h.inst i hi hnot)
    exact (h.others g hg i hmem).elim (hnot g hg) (Nat.not_le.2 hi)
  others g hg i hi := (h'.others g hg i hi).elim (h.others g hg i)
    fun hle => .inr (Nat.le_trans h.size hle)

variable (h : p.Carries f q)
include h

theorem instructions_eq : q.instructions f = p.instructions f := by
  rw [instructions, instructions, h.blocks]
  exact List.flatMap_congr fun b hb => congrArg Block.insts (h.block b hb)

variable (hp : p.Linked)
include hp

theorem inst_eq (hi : i ∈ p.instructions f) : q.inst i = p.inst i :=
  h.inst i (hp.lt_size hi) fun _ hg => hp.not_mem_of_ne (Ne.symm hg) hi

theorem ofFunc_eq (o : Options) : Classification.ofFunc q o f = Classification.ofFunc p o f :=
  Classification.ofFunc_congr h.instructions_eq (fun _ hi => congrArg Inst.op (h.inst_eq hp hi)) o

/-- A function of a loaded program refers to nothing else when its turn comes. -/
theorem enclosed (hw : p.WellFormed f) (hl : p.LiteralsNumbered) (hq : q.Linked) :
    q.Enclosed f where
  linked := hq
  owned i hi j hj := by
    rw [h.instructions_eq] at hi ⊢
    rw [h.inst_eq hp hi] at hj
    exact hw.owned i hi j hj
  numbered i hi l hl' := by
    rw [h.instructions_eq] at hi
    rw [h.inst_eq hp hi] at hl'
    exact Nat.lt_of_lt_of_le (hl i l hl') h.nextSerial

end Program.Carries

namespace Rewriting

variable {p q : Program} {o : Options} {a : Analysis} {names : Names} {J : InstId → Fate → Prop}
  {φ : Fates} {s : RewriteState} {f : FuncId} {i j : InstId}

variable (hp : p.Linked)
include hp

/-- A rewriting leaves the other functions alone. -/
theorem carries (h : Rewriting p a names J φ [] s) (hf : f ≠ a.func) :
    p.Carries f s.program where
  blocks := h.program.funcs f
  block := (h.frame hp hf).1
  size := h.program.size
  nextSerial := h.fresh.le
  inst i hi hnot := h.program.others hi (hnot _ (Ne.symm hf))
  others g _ i hi := by
    obtain ⟨j, hj, hi⟩ := h.program.mem_instructions.1 hi
    rcases List.mem_append.1 hi with hi | hi
    · exact .inr (h.program.new hi).1
    · split at hi
      · cases hi
      · exact .inl (List.mem_singleton.1 hi ▸ hj)

/-- What has become of a function in its turn is still there in the end. -/
theorem follows (h : Rewriting p a o.names J φ [] s) (hf : a.func = f)
    (hkinds : ∀ i ∈ p.instructions f, ∀ callee args, (p.inst i).op = .call callee args →
      a.cls.kindOf i = o.kindOf callee) (hq : s.program.Carries f q) : p.Follows q o f φ := by
  subst hf
  have hs := h.linked hp
  -- An instruction of the function is in no other one, though it may have gone by now.
  have hold {i : InstId} (hi : i ∈ p.instructions a.func) : q.inst i = s.program.inst i := by
    refine hq.inst i (Nat.lt_of_lt_of_le (hp.lt_size hi) h.program.size) fun g hg hmem => ?_
    rw [(h.carries hp hg).instructions_eq] at hmem
    exact hp.not_mem_of_ne (Ne.symm hg) hi hmem
  have hnew {i w : InstId} (hw : w ∈ (φ i).code) : q.inst w = s.program.inst w :=
    hq.inst_eq hs (h.code_mem_instructions hw)
  refine ⟨hq.blocks.trans (h.program.funcs _), fun b hb => ?_, fun i hi => ?_, fun i hi => ?_,
    h.mem_instructions, fun hj => (h.lt_of_mem_code hj).1, ⟨_, h.fresh⟩, ?_⟩
  · rw [hq.block b (by rw [h.program.funcs]; exact hb), h.program.blocks]
    rfl
  · have harith {handle x y : Value} (ha : a.Arithmetic p i handle x y) :
        p.IsArithmetic o i handle x y := by
      obtain ⟨callee, rest, hop⟩ := ha.op
      exact ⟨callee, rest, hop, by rw [← hkinds i hi _ _ hop]; exact ha.kind⟩
    have hfits := h.fits i
    cases hx : φ i with
    | kept =>
      show (q.inst i).op = _
      rw [hold hi]
      exact h.op_of_kept hi (.inl hx)
    | dropped l =>
      rw [hx] at hfits
      have hcall := hfits.call
      cases hop : (p.inst i).op with
      | call callee args => exact ⟨callee, args, hop, (hkinds i hi _ _ hop).symm.trans hfits.kind⟩
      | _ => rw [hop] at hcall; cases hcall
    | written w l =>
      rw [hx] at hfits
      obtain ⟨handle, x, y, ha, hw⟩ := hfits
      refine ⟨handle, x, y, harith ha, ?_⟩
      rw [hnew (i := i) (by rw [hx]; exact List.mem_cons_self), hw.op, h.names]
      rfl
    | copied r w u =>
      rw [hx] at hfits
      obtain ⟨handle, x, y, ha, hu, hr, hw⟩ := hfits
      refine ⟨handle, x, y, harith ha, hu, ?_, ?_⟩
      · rw [hnew (i := i) (by rw [hx]; exact List.mem_cons_self), hr.op, h.names]
        rfl
      · rw [hnew (i := i) (by rw [hx]; simp [Fate.code]), hw.op, h.names]
        rfl
  · rw [hold hi]
    exact h.program.skeleton (hp.lt_size hi)
  · rw [hq.instructions_eq]
    exact h.nodup_instructions hp

end Rewriting

end BoxFlow
