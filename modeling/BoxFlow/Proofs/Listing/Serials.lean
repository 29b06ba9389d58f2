import BoxFlow.Proofs.IR.Edits
import BoxFlow.Proofs.Listing.Names
import BoxFlow.Proofs.Lists

/-!
# The serial numbers of literals

The literals of a program that has been read have serial numbers below the next one
(`Program.load_literalsNumbered`), so a literal that is made later is none of them.
-/

namespace BoxFlow

/-- The serial numbers of the literals among the operands are taken. -/
def Program.LiteralsNumbered (p : Program) : Prop :=
  ∀ i l, .literal l ∈ (p.inst i).op.operands → l.serial < p.nextSerial

namespace Listing

variable {p q q' : Program} {scope scope' : Scope} {f : FuncId} {fn : Function}

/-- The instructions are the same, and no serial number is free again. -/
def SameCode (p q : Program) : Prop := q.insts = p.insts ∧ p.nextSerial ≤ q.nextSerial

theorem SameCode.refl (p : Program) : SameCode p p := ⟨rfl, Nat.le_refl _⟩

theorem SameCode.trans (h : SameCode p q) (h' : SameCode q q') : SameCode p q' :=
  ⟨h'.1.trans h.1, Nat.le_trans h.2 h'.2⟩

theorem SameCode.literalsNumbered (h : SameCode p q) (hp : p.LiteralsNumbered) :
    q.LiteralsNumbered := by
  intro i l hl
  have hinst : q.inst i = p.inst i := by rw [Program.inst, h.1]; rfl
  rw [hinst] at hl
  exact Nat.lt_of_lt_of_le (hp i l hl) h.2

/-- No name stands for a literal. -/
def Scope.Symbolic (s : Scope) : Prop := ∀ n v, s.values.lookup n = some v → v.isLiteral = false

/-! ## Placing instructions -/

/-- A literal that an operand stands for has been numbered. -/
def IsNumbered (p : Program) (v : Value) : Prop := ∀ l, v = .literal l → l.serial < p.nextSerial

theorem operandValue_numbered (hs : scope.Symbolic) {left : Nat} {t : Typed} {v : Value}
    (h : (operandValue scope left t).run p = .ok (v, q)) : IsNumbered q v ∧ SameCode p q := by
  simp only [operandValue, StateT.run] at h
  split at h
  · cases h
    refine ⟨fun l hl => ?_, rfl, Nat.le_succ _⟩
    cases hl
    exact Nat.lt_succ_self _
  · split at h
    · cases h
      exact ⟨fun l hl => (by cases hl), .refl _⟩
    · cases h
  · next name _ =>
    split at h
    · next v' hv =>
      cases h
      refine ⟨fun l hl => ?_, .refl _⟩
      have hfalse := hs name _ hv
      rw [hl] at hfalse
      cases hfalse
    · cases h

theorem place_literalsNumbered (hs : scope.Symbolic) {d : Draft} (h : place scope p d = .ok q)
    (hp : p.LiteralsNumbered) : q.LiteralsNumbered := by
  unfold place at h
  rw [bind_eq_ok] at h
  obtain ⟨⟨op, p₁⟩, h₁, h⟩ := h
  obtain rfl : q = p₁.appendNew d.block { op, ty := d.ty, name := d.name } := by
    cases h
    rfl
  obtain ⟨hrel, hcode⟩ := rel_of_mapM (R := fun r _ v => IsNumbered r v) (I := SameCode p)
    (fun hs' h => by
      obtain ⟨hv, hcode⟩ := operandValue_numbered hs h
      exact ⟨hv, hs'.trans hcode, fun _ _ hx l hl => Nat.lt_of_lt_of_le (hx l hl) hcode.2⟩)
    h₁ (.refl p)
  have hserial : (p₁.appendNew d.block { op, ty := d.ty, name := d.name }).nextSerial =
      p₁.nextSerial := (Program.rest_adopt ..).2
  intro i l hl
  rw [hserial]
  have hop := congrArg Inst.op (p₁.inst_appendNew d.block { op, ty := d.ty, name := d.name } i)
  change ((p₁.appendNew d.block { op, ty := d.ty, name := d.name }).inst i).op = _ at hop
  rw [hop] at hl
  split at hl
  · obtain ⟨t, -, hv⟩ := exists_left_of_mem hrel.operands hl
    exact hv l rfl
  · exact hcode.literalsNumbered hp i l hl

/-! ## Building functions -/

theorem addBlock_sameCode {b : Block} (h : addBlock f (scope, p) b = .ok (scope', q)) :
    SameCode p q ∧ scope'.values = scope.values := by
  simp only [addBlock] at h
  split at h
  · cases h
  · cases h
    exact ⟨.refl p, rfl⟩

theorem draft_symbolic {b : BlockId} {id : InstId} {l : Line} {d : Draft}
    (h : draft f b id scope p l = .ok (d, scope', q)) (hs : scope.Symbolic) :
    SameCode p q ∧ scope'.Symbolic := by
  unfold draft at h
  rw [bind_eq_ok] at h
  obtain ⟨form, -, h⟩ := h
  dsimp only at h
  split at h
  · next name _ =>
    split at h
    · cases h
    split at h
    · cases h
    cases h
    refine ⟨.refl p, fun n v hv => ?_⟩
    rw [Keyed.lookup_put] at hv
    split at hv
    · cases hv
      rfl
    · exact hs n v hv
  · split at h
    · cases h
      exact ⟨.refl p, hs⟩
    · cases h
      exact ⟨.refl p, hs⟩

theorem draftAll_symbolic {base : InstId} {lines : List (BlockId × Line)} {drafts ds : List Draft}
    (h : draftAll f base lines drafts scope p = .ok (ds, scope', q)) (hs : scope.Symbolic) :
    SameCode p q ∧ scope'.Symbolic := by
  induction lines generalizing drafts scope p with
  | nil =>
    cases h
    exact ⟨.refl _, hs⟩
  | cons x lines ih =>
    obtain ⟨b, l⟩ := x
    rw [draftAll, bind_eq_ok] at h
    obtain ⟨⟨d, scope₁, p₁⟩, h₁, h⟩ := h
    obtain ⟨hcode₁, hs₁⟩ := draft_symbolic h₁ hs
    obtain ⟨hcode, hs'⟩ := ih h hs₁
    exact ⟨hcode₁.trans hcode, hs'⟩

theorem symbolic_params (ns : List String) (p : Program) (f : FuncId) :
    Scope.Symbolic { values := ns.zip (p.params f) } := by
  intro n v hv
  have hmem : v ∈ p.params f := (List.of_mem_zip (Keyed.mem_of_lookup hv)).2
  obtain ⟨k, -, rfl⟩ := List.mem_mapIdx.1 hmem
  rfl

theorem buildFunction_literalsNumbered (h : buildFunction p fn = .ok q)
    (hp : p.LiteralsNumbered) : q.LiteralsNumbered := by
  unfold buildFunction at h
  dsimp only at h
  rw [bind_eq_ok] at h
  obtain ⟨⟨scope₁, p₁⟩, h₁, h⟩ := h
  rw [bind_eq_ok] at h
  obtain ⟨⟨drafts, scope₂, p₂⟩, h₂, h⟩ := h
  have hlabels := foldlM_induction (P := fun s : Scope × Program =>
    SameCode (p.newFunc fn.name fn.result fn.params).2 s.2 ∧ s.1.Symbolic) h₁
    ⟨.refl _, fun n v hv => symbolic_params _ _ _ n v hv⟩ (fun b _ s s' ⟨hcode, hs⟩ hadd => by
      obtain ⟨hcode', hvalues⟩ := addBlock_sameCode hadd
      exact ⟨hcode.trans hcode', fun n v hv => hs n v (hvalues ▸ hv)⟩)
  have hclaimed (names : List String) (r : Program) :
      SameCode r (names.foldl (·.claimName p.funcs.size ·) r) := by
    induction names generalizing r with
    | nil => exact .refl r
    | cons n names ih => exact ih (r.claimName p.funcs.size n)
  obtain ⟨hdrafted, hs₂⟩ := draftAll_symbolic h₂ hlabels.2
  have hcode := (hlabels.1.trans (hclaimed _ _)).trans hdrafted
  have hnew : (p.newFunc fn.name fn.result fn.params).2.LiteralsNumbered := hp
  exact foldlM_induction h (hcode.literalsNumbered hnew)
    fun d _ r r' hr hplace => place_literalsNumbered hs₂ hplace hr

/-! ## Whole listings -/

theorem outline_sameCode (items : List Item) (p : Program) :
    SameCode p (items.foldl addOutline p) := by
  induction items generalizing p with
  | nil => exact .refl p
  | cons item items ih =>
    refine SameCode.trans ?_ (ih (addOutline p item))
    cases item with
    | global name cell => exact ⟨rfl, Nat.le_succ _⟩
    | declaration name result params => exact .refl p
    | function fn => exact .refl p

theorem toProgram_literalsNumbered {name : String} {items : List Item}
    (h : toProgram name items = .ok p) : p.LiteralsNumbered := by
  have hempty : Program.LiteralsNumbered { name } := nofun
  refine foldlM_induction h ((outline_sameCode items _).literalsNumbered hempty)
    fun fn _ r r' hr hadd => ?_
  unfold addFunction at hadd
  split at hadd
  · cases hadd
  split at hadd
  · exact buildFunction_literalsNumbered hadd hr
  · cases hadd

end Listing

/-- A literal of a loaded program has a serial number that has been given away. -/
theorem Program.load_literalsNumbered {s : List Char} {file name : String} {o : Options}
    {p : Program} (h : load s file o name = .ok p) : p.LiteralsNumbered := by
  obtain ⟨⟨_, _, h⟩, -⟩ := load_eq_ok h
  exact Listing.toProgram_literalsNumbered h

end BoxFlow
