import BoxFlow.Proofs.Listing.Names

/-!
# Placing instructions

When everything has its name, the drafts of a function become instructions at the ends of their
blocks, the first of them under the next free number (`Placed`). Their operands are what the names
stand for (`Means`).
-/

namespace BoxFlow.Listing

variable {p q q' : Program} {f : FuncId} {scope : Scope} {d : Draft} {ds : List Draft}

/-! ## Operands -/

/-- The number that digits after a sign stand for. -/
def signedValue (negative : Bool) (digits : List Char) : Int :=
  if negative then -(Decimal.ofDigits (digits.map Decimal.digitValue) : Int)
  else Decimal.ofDigits (digits.map Decimal.digitValue)

/-- What an operand stands for. -/
def Means (scope : Scope) (globals : Keyed Global) (t : Typed) (v : Value) : Prop :=
  match t.operand with
  | .integer negative digits =>
    ∃ serial, v = .literal { serial, value := signedValue negative digits, ty := t.ty }
  | .global name => ∃ g, globals.lookup name = some g ∧ v = .global g
  | .named name => scope.values.lookup name = some v

/-- The operand stands for something. -/
def Known (scope : Scope) (globals : Keyed Global) (t : Typed) : Prop :=
  match t.operand with
  | .integer .. => True
  | .global name => (globals.lookup name).isSome = true
  | .named name => (scope.values.lookup name).isSome = true

/-- The programs differ in the next serial number at most. -/
def SameButSerial (p q : Program) : Prop := q = { p with nextSerial := q.nextSerial }

theorem SameButSerial.looksLike (h : SameButSerial p q) : p.LooksLike q := by
  rw [h]
  exact ⟨rfl, rfl, rfl, rfl, rfl, rfl, fun _ => rfl, fun _ => rfl, fun _ => rfl⟩

theorem SameButSerial.refl (p : Program) : SameButSerial p p := rfl

theorem SameButSerial.trans (h : SameButSerial p q) (h' : SameButSerial q q') :
    SameButSerial p q' := by
  rw [SameButSerial, h', h]

theorem operandValue_means {left : Nat} {t : Typed} {v : Value}
    (h : (operandValue scope left t).run p = .ok (v, q)) :
    Means scope p.globals t v ∧ SameButSerial p q := by
  obtain ⟨ty, operand⟩ := t
  cases operand with
  | integer negative digits =>
    cases h
    exact ⟨⟨p.nextSerial, rfl⟩, rfl⟩
  | global n =>
    cases hg : p.globals.lookup n with
    | none => simp [operandValue, StateT.run, hg] at h
    | some g =>
      simp only [operandValue, StateT.run, hg] at h
      cases h
      exact ⟨⟨g, hg, rfl⟩, rfl⟩
  | named n =>
    cases hv : scope.values.lookup n with
    | none => simp [operandValue, StateT.run, hv] at h
    | some v =>
      simp only [operandValue, StateT.run, hv] at h
      cases h
      exact ⟨hv, rfl⟩

theorem operandValue_ok (left : Nat) {t : Typed} (h : Known scope p.globals t) :
    ∃ v q, (operandValue scope left t).run p = .ok (v, q) := by
  obtain ⟨ty, operand⟩ := t
  cases operand with
  | integer negative digits => exact ⟨_, _, rfl⟩
  | global n =>
    obtain ⟨g, hg⟩ := Option.isSome_iff_exists.1 h
    exact ⟨.global g, p, by simp only [operandValue, StateT.run, hg]⟩
  | named n =>
    obtain ⟨v, hv⟩ := Option.isSome_iff_exists.1 h
    exact ⟨v, p, by simp only [operandValue, StateT.run, hv]⟩

/-! ## Instructions -/

/-- The drafts `ds` of function `f`, which `q₀` holds with its blocks empty, have been placed. -/
structure Placed (p : Program) (f : FuncId) (scope : Scope) (q₀ : Program) (ds : List Draft)
    (q : Program) : Prop where
  grown : p.Extends q
  functions : q.functions = q₀.functions
  globals : q.globals = q₀.globals
  funcs_size : q.funcs.size = q₀.funcs.size
  blocks_size : q.blocks.size = q₀.blocks.size
  insts_size : q.insts.size = q₀.insts.size + ds.length
  func : (q.func f).shown = (q₀.func f).shown
  label : ∀ b, (q.block b).label = (q₀.block b).label
  insts : ∀ x ∈ ds.zipIdx q₀.insts.size, (q.inst x.2).ty = x.1.ty ∧
    (q.inst x.2).name = x.1.name ∧ x.1.form.Rel (Means scope q₀.globals) Eq (q.inst x.2).op
  held : ∀ b ∈ (q₀.func f).blocks,
    (q.block b).insts = ((ds.zipIdx q₀.insts.size).filter (·.1.block = b)).map (·.2)

namespace Placed

variable {q₀ : Program}

theorem step (h : Placed p f scope q₀ ds q)
    (hnew : ∀ b ∈ (q₀.func f).blocks, p.blocks.size ≤ b ∧ b < q₀.blocks.size)
    (hd : d.block ∈ (q₀.func f).blocks) (hstep : place scope q d = .ok q') :
    Placed p f scope q₀ (ds ++ [d]) q' := by
  unfold place at hstep
  rw [bind_eq_ok] at hstep
  obtain ⟨⟨op, q₁⟩, hop, hstep⟩ := hstep
  obtain rfl : q' = q₁.appendNew d.block { op, ty := d.ty, name := d.name } := by
    cases hstep
    rfl
  obtain ⟨hrel, hserial⟩ := rel_of_mapM (R := fun _ => Means scope q₀.globals)
    (I := SameButSerial q) (fun {t v s s'} hs hv => by
      obtain ⟨hv, hs'⟩ := operandValue_means hv
      rw [hs.looksLike.globals, h.globals] at hv
      exact ⟨hv, hs.trans hs', fun _ _ => id⟩) hop (.refl q)
  have hsame := hserial.looksLike
  have hlt : d.block < q₁.blocks.size := by
    rw [hsame.blocks_size, h.blocks_size]
    exact (hnew _ hd).2
  have hsize : q₁.insts.size = q₀.insts.size + ds.length := hsame.insts_size.trans h.insts_size
  obtain ⟨hfunctions, hglobals, -, hfuncs, hblocks, hinsts, hfunc⟩ :=
    q₁.appendNew_rest d.block { op, ty := d.ty, name := d.name }
  refine ⟨(h.grown.trans hsame.toExtends).appendNew (hnew _ hd).1 hlt _,
    hfunctions.trans (hsame.functions.trans h.functions),
    hglobals.trans (hsame.globals.trans h.globals),
    hfuncs.trans (hsame.funcs_size.trans h.funcs_size),
    hblocks.trans (hsame.blocks_size.trans h.blocks_size), ?_,
    (hfunc f).trans ((hsame.func f).trans h.func), fun b => ?_, fun x hx => ?_, fun b hb => ?_⟩
  · rw [hinsts, hsize, List.length_append]
    rfl
  · exact (Program.block_appendNew hlt _ b).1.trans
      ((congrArg BoxFlow.Block.label (hsame.block b)).trans (h.label b))
  · have hinst := q₁.inst_appendNew d.block { op, ty := d.ty, name := d.name } x.2
    rw [List.zipIdx_append, List.mem_append] at hx
    rcases hx with hx | hx
    · have hlt := List.snd_lt_of_mem_zipIdx hx
      have hne : x.2 ≠ q₁.insts.size := by omega
      rw [if_neg hne, hsame.inst] at hinst
      obtain ⟨hty, hname, hop⟩ := h.insts x hx
      exact ⟨(congrArg Inst.ty hinst).trans hty, (congrArg Inst.name hinst).trans hname,
        (congrArg Inst.op hinst).symm ▸ hop⟩
    · obtain rfl := List.mem_singleton.1 hx
      rw [if_pos (by rw [hsize])] at hinst
      exact ⟨congrArg Inst.ty hinst, congrArg Inst.name hinst,
        (congrArg Inst.op hinst).symm ▸ hrel⟩
  · rw [(Program.block_appendNew hlt _ b).2, List.zipIdx_append, List.filter_append,
      List.map_append, ← h.held b hb, hsize]
    have hshown := congrArg BoxFlow.Block.insts (hsame.block b)
    refine congrArg₂ (· ++ ·) hshown ?_
    by_cases heq : d.block = b <;> simp [heq]

/-- All drafts, one after the other. -/
theorem run {rest : List Draft} (h : Placed p f scope q₀ ds q)
    (hnew : ∀ b ∈ (q₀.func f).blocks, p.blocks.size ≤ b ∧ b < q₀.blocks.size)
    (hrest : ∀ d ∈ rest, d.block ∈ (q₀.func f).blocks)
    (hrun : rest.foldlM (place scope) q = .ok q') : Placed p f scope q₀ (ds ++ rest) q' := by
  induction rest generalizing ds q with
  | nil =>
    cases hrun
    rwa [List.append_nil]
  | cons d rest ih =>
    rw [List.foldlM_cons, bind_eq_ok] at hrun
    obtain ⟨q₁, h₁, hrun⟩ := hrun
    have := ih (h.step hnew (hrest d List.mem_cons_self) h₁)
      (fun d hd => hrest d (List.mem_cons_of_mem _ hd)) hrun
    rwa [List.append_assoc] at this

/-- They can be placed if all their operands stand for something. -/
theorem run_ok (rest : List Draft) (h : Placed p f scope q₀ ds q)
    (hnew : ∀ b ∈ (q₀.func f).blocks, p.blocks.size ≤ b ∧ b < q₀.blocks.size)
    (hrest : ∀ d ∈ rest, d.block ∈ (q₀.func f).blocks)
    (hknown : ∀ d ∈ rest, ∀ t ∈ d.form.operands, Known scope q₀.globals t) :
    ∃ q', rest.foldlM (place scope) q = .ok q' := by
  induction rest generalizing ds q with
  | nil => exact ⟨q, rfl⟩
  | cons d rest ih =>
    obtain ⟨q₁, h₁⟩ : ∃ q₁, place scope q d = .ok q₁ := by
      obtain ⟨op, q₁, h₁, -⟩ := formMapM_ok (I := SameButSerial q) d.form
        (f := operandValue scope d.left) (fun t ht s hs => by
          have hk := hknown d List.mem_cons_self t ht
          rw [← h.globals, ← hs.looksLike.globals] at hk
          obtain ⟨v, s', hv⟩ := operandValue_ok d.left hk
          exact ⟨v, s', hv, hs.trans (operandValue_means hv).2⟩) (.refl q)
      exact ⟨_, by rw [place, h₁]; rfl⟩
    obtain ⟨q', hrun⟩ := ih (h.step hnew (hrest d List.mem_cons_self) h₁)
      (fun d hd => hrest d (List.mem_cons_of_mem _ hd))
      (fun d hd => hknown d (List.mem_cons_of_mem _ hd))
    exact ⟨q', by rw [List.foldlM_cons, h₁]; exact hrun⟩

end Placed

end BoxFlow.Listing
