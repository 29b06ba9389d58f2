import BoxFlow.Proofs.Rewriting.Layout

/-!
# What becomes of the calls

A rewriting gives every instruction a `Fate`. `Rewriting` is the invariant of a rewriting in
progress: the program is laid out by the fates, the calls in place of others are what they should
be, and every fate is justified, in whatever sense. Calls that have met their fate but are still in
their blocks are `doomed`.
-/

namespace BoxFlow

open Function (update)

/-- What becomes of an instruction. -/
inductive Fate
  | kept
  /-- A `read` gives way to a literal. -/
  | dropped (l : Literal)
  /-- An arithmetic call gives way to the `write` of a literal. -/
  | written (write : InstId) (l : Literal)
  /-- An arithmetic call gives way to the `write` of what is read from one of its operands. -/
  | copied (read write : InstId) (operand : Value)
  deriving DecidableEq

namespace Fate

/-- The instructions that are put before the one that goes. -/
def code : Fate → List InstId
  | kept | dropped _ => []
  | written w _ => [w]
  | copied r w _ => [r, w]

def literal? : Fate → Option Literal
  | dropped l => some l
  | _ => none

def write? : Fate → Option InstId
  | written w _ | copied _ w _ => some w
  | _ => none

end Fate

abbrev Fates := InstId → Fate

namespace Fates

variable {φ : Fates} {ds : List InstId} {i j : InstId} {x : Fate}

/-- The layout that fates come to, as long as the `doomed` calls are there. -/
def layout (φ : Fates) (doomed : List InstId) : Layout where
  before i := (φ i).code
  literal i := (φ i).literal?
  erased i := φ i ≠ .kept && i ∉ doomed

theorem erased_layout : (φ.layout ds).erased i = false ↔ φ i = .kept ∨ i ∈ ds := by
  simp [layout, or_iff_not_imp_left]

theorem layout_kept : Fates.layout (fun _ => .kept) [] = {} := by
  simp [layout, Fate.code, Fate.literal?]

theorem before_of_kept (hi : φ i = .kept) : (φ.layout ds).before i = [] := by
  simp [layout, hi, Fate.code]

theorem literal_of_kept (hi : φ i = .kept) : (φ.layout ds).literal i = none := by
  simp [layout, hi, Fate.literal?]

theorem subst_dropped {l : Literal} (hi : φ i = .dropped l) :
    (φ.layout ds).subst (.inst i) = .literal l := by
  simp [Layout.subst, layout, hi, Fate.literal?]

theorem subst_of_literal?_eq_none (hi : (φ i).literal? = none) :
    (φ.layout ds).subst (.inst i) = .inst i := by
  simp [Layout.subst, layout, hi]

/-- The layout when an instruction meets its fate. -/
theorem layout_update (hi : φ i = .kept) : layout (update φ i x) (ds ++ [i]) =
    { φ.layout ds with
      before := update (φ.layout ds).before i x.code
      literal := update (φ.layout ds).literal i x.literal? } := by
  unfold layout
  congr 1
  · funext j
    by_cases hj : j = i
    · subst hj; simp
    · simp [hj]
  · funext j
    by_cases hj : j = i
    · subst hj; simp
    · simp [hj]
  · funext j
    by_cases hj : j = i
    · subst hj; simp [hi]
    · simp [hj]

theorem layout_dropped (ds : List InstId) (hi : φ i = .kept) (l : Literal) :
    layout (update φ i (.dropped l)) (ds ++ [i]) = (φ.layout ds).substitute i l := by
  have hbefore : update (φ.layout ds).before i [] = (φ.layout ds).before :=
    Function.update_eq_self_iff.2 (before_of_kept hi).symm
  rw [layout_update hi]
  simp [Layout.substitute, Fate.code, Fate.literal?, hbefore]

theorem layout_written (ds : List InstId) (hi : φ i = .kept) (w : InstId) (l : Literal) :
    layout (update φ i (.written w l)) (ds ++ [i]) = (φ.layout ds).insert i w := by
  have hliteral : update (φ.layout ds).literal i none = (φ.layout ds).literal :=
    Function.update_eq_self_iff.2 (literal_of_kept hi).symm
  rw [layout_update hi]
  simp [Layout.insert, Fate.code, Fate.literal?, hliteral, before_of_kept hi]

theorem layout_copied (ds : List InstId) (hi : φ i = .kept) (r w : InstId) (u : Value) :
    layout (update φ i (.copied r w u)) (ds ++ [i]) = ((φ.layout ds).insert i r).insert i w := by
  have hliteral : update (φ.layout ds).literal i none = (φ.layout ds).literal :=
    Function.update_eq_self_iff.2 (literal_of_kept hi).symm
  rw [layout_update hi]
  simp [Layout.insert, Fate.code, Fate.literal?, hliteral, before_of_kept hi]

/-- The layout when a doomed call goes. -/
theorem layout_erase (hi : φ i ≠ .kept) (hds : i ∉ ds) :
    φ.layout ds = (φ.layout (i :: ds)).erase i := by
  unfold layout Layout.erase
  congr 1
  funext j
  by_cases hj : j = i
  · subst hj; simp [hi, hds]
  · simp [hj]

/-! ## The literals of fates -/

/-- The literals that reads give way to are all different, and numbered from `lo` on and
below `hi`. -/
structure Fresh (φ : Fates) (lo hi : Nat) : Prop where
  le : lo ≤ hi
  bounds : ∀ {i l}, φ i = .dropped l → lo ≤ l.serial ∧ l.serial < hi
  inj : ∀ {i j l m}, φ i = .dropped l → φ j = .dropped m → l.serial = m.serial → i = j

namespace Fresh

variable {lo hi hi' : Nat} {l : Literal} (h : φ.Fresh lo hi)
include h

theorem mono (hle : hi ≤ hi') : φ.Fresh lo hi' where
  le := Nat.le_trans h.le hle
  bounds hx := (h.bounds hx).imp_right fun hlt => Nat.lt_of_lt_of_le hlt hle
  inj := h.inj

/-- A fate without a literal. -/
theorem update_other (hx : x.literal? = none) : Fresh (update φ i x) lo hi := by
  have hold {j l} (hj : update φ i x j = .dropped l) : φ j = .dropped l := by
    by_cases hji : j = i
    · subst hji
      rw [Function.update_self] at hj
      rw [hj] at hx
      cases hx
    · rwa [Function.update_of_ne hji] at hj
  exact ⟨h.le, fun hj => h.bounds (hold hj), fun hj hk => h.inj (hold hj) (hold hk)⟩

/-- A fate with the next literal. -/
theorem update_dropped (hl : l.serial = hi) :
    Fresh (update φ i (.dropped l)) lo (hi + 1) := by
  have hcases {j m} (hj : update φ i (.dropped l) j = .dropped m) :
      j = i ∧ m = l ∨ φ j = .dropped m := by
    by_cases hji : j = i
    · subst hji
      rw [Function.update_self] at hj
      exact .inl ⟨rfl, (Fate.dropped.inj hj).symm⟩
    · rw [Function.update_of_ne hji] at hj
      exact .inr hj
  refine ⟨Nat.le_succ_of_le h.le, fun hj => ?_, fun hj hk heq => ?_⟩
  · obtain ⟨-, rfl⟩ | hj := hcases hj
    · exact ⟨hl ▸ h.le, hl ▸ Nat.lt_succ_self _⟩
    · exact (h.bounds hj).imp_right Nat.lt_succ_of_lt
  · obtain ⟨hji, hm⟩ | hj := hcases hj
    · obtain ⟨hki, -⟩ | hk := hcases hk
      · exact hji.trans hki.symm
      · exact absurd (heq ▸ hm ▸ hl) (Nat.ne_of_lt (h.bounds hk).2)
    · obtain ⟨-, hm⟩ | hk := hcases hk
      · exact absurd (heq.trans (hm ▸ hl)) (Nat.ne_of_lt (h.bounds hj).2)
      · exact h.inj hj hk heq

end Fresh

end Fates

/-! ## Rewritings in progress -/

/-- The same analysis with other kinds of calls. -/
def Analysis.withKinds (a : Analysis) (kinds : Std.ExtTreeMap InstId CallKind) : Analysis :=
  { a with cls.kinds := kinds }

/-- Instruction `i` of the analysed function adds or subtracts `x` and `y`. -/
structure Analysis.Arithmetic (a : Analysis) (p : Program) (i : InstId) (handle x y : Value) :
    Prop where
  mem : i ∈ p.instructions a.func
  kind : a.cls.kindOf i = .operation .add ∨ a.cls.kindOf i = .operation .subtract
  op : ∃ callee rest, (p.inst i).op = .call callee (handle :: x :: y :: rest)

/-- An operation has one list of operands. -/
theorem Analysis.Arithmetic.operands_eq {a : Analysis} {p : Program} {i : InstId}
    {handle x y handle' x' y' : Value} (h : a.Arithmetic p i handle x y)
    (h' : a.Arithmetic p i handle' x' y') : handle = handle' ∧ x = x' ∧ y = y' := by
  obtain ⟨callee, rest, hop⟩ := h.op
  obtain ⟨callee', rest', hop'⟩ := h'.op
  rw [hop] at hop'
  obtain ⟨-, hargs⟩ := Form.call.inj hop'
  simp only [List.cons.injEq] at hargs
  exact ⟨hargs.1, hargs.2.1, hargs.2.2.1⟩

/-- Instruction `i` of the analysed function is a call that reads. -/
structure Analysis.Reading (a : Analysis) (p : Program) (i : InstId) : Prop where
  mem : i ∈ p.instructions a.func
  kind : a.cls.kindOf i = .operation .read
  call : (p.inst i).op.isCall = true

namespace RewriteState

variable {s t : RewriteState}

/-- Instruction `i` is known to be a call of an operation. -/
structure Calls (s : RewriteState) (i : InstId) (o : Operation) (args : List Value) : Prop where
  kind : s.rewriter.analysis.cls.kindOf i = .operation o
  op : (s.program.inst i).op = .call (s.rewriter.names.nameOf o) args

/-- What stands in the place of instruction `i` of the program `p`, operands being replaced
by `σ`. -/
def Fits (s : RewriteState) (p : Program) (a : Analysis) (σ : Value → Value) (i : InstId) :
    Fate → Prop
  | .kept => True
  | .dropped _ => a.Reading p i
  | .written w l => ∃ handle x y, a.Arithmetic p i handle x y ∧
      s.Calls w .write [σ handle, .literal l]
  | .copied r w u => ∃ handle x y, a.Arithmetic p i handle x y ∧ (u = x ∨ u = y) ∧
      s.Calls r .read [σ u] ∧ s.Calls w .write [σ handle, .inst r]

theorem Fits.mono {p : Program} {a : Analysis} {σ g : Value → Value} {i : InstId} {x : Fate}
    (h : s.Fits p a σ i x)
    (hcalls : ∀ j ∈ x.code, ∀ o args, s.Calls j o args → t.Calls j o (args.map g))
    (hliteral : ∀ l, g (.literal l) = .literal l) (hinst : ∀ j ∈ x.code, g (.inst j) = .inst j) :
    t.Fits p a (g ∘ σ) i x := by
  cases x with
  | kept => trivial
  | dropped l => exact h
  | written w l =>
    obtain ⟨handle, x, y, harith, hw⟩ := h
    have hw := hcalls w (by simp [Fate.code]) _ _ hw
    rw [List.map_cons, List.map_cons, hliteral] at hw
    exact ⟨handle, x, y, harith, hw⟩
  | copied r w u =>
    obtain ⟨handle, x, y, harith, hu, hr, hw⟩ := h
    have hr := hcalls r (by simp [Fate.code]) _ _ hr
    have hw := hcalls w (by simp [Fate.code]) _ _ hw
    rw [List.map_cons, List.map_cons, hinst r (by simp [Fate.code])] at hw
    exact ⟨handle, x, y, harith, hu, hr, hw⟩

end RewriteState

/-- A rewriting in progress, of the function of `a` in the program `p`: every instruction has met
its fate, or is kept as yet. -/
structure Rewriting (p : Program) (a : Analysis) (names : Names) (J : InstId → Fate → Prop)
    (φ : Fates) (doomed : List InstId) (s : RewriteState) : Prop where
  program : p.Rewritten a.func (φ.layout doomed) s.program
  analysis : ∃ kinds, s.rewriter.analysis = a.withKinds kinds
  names : s.rewriter.names = names
  kinds : ∀ {i}, i < p.insts.size → s.rewriter.analysis.cls.kindOf i = a.cls.kindOf i
  replaced : ∀ i, s.rewriter.replaced.lookup i = (φ i).write?
  fits : ∀ i, s.Fits p a (φ.layout doomed).subst i (φ i)
  justified : ∀ i, φ i ≠ .kept → J i (φ i)
  fresh : φ.Fresh p.nextSerial s.program.nextSerial

namespace Rewriting

variable {p : Program} {a : Analysis} {names : Names} {J : InstId → Fate → Prop} {φ : Fates}
  {ds : List InstId} {s t : RewriteState} {i j : InstId} {b : BlockId}

/-- Nothing has been rewritten yet. -/
theorem start (hp : p.Linked) (a : Analysis) (names : Names) (J : InstId → Fate → Prop) :
    Rewriting p a names J (fun _ => .kept) []
      { program := p, rewriter := { analysis := a, names } } where
  program := by
    rw [Fates.layout_kept]
    exact .refl hp a.func
  analysis := ⟨a.cls.kinds, rfl⟩
  names := rfl
  kinds _ := rfl
  replaced _ := rfl
  fits _ := trivial
  justified _ h := absurd rfl h
  fresh := ⟨Nat.le_refl _, nofun, nofun⟩

variable (hp : p.Linked) (h : Rewriting p a names J φ ds s)
include h

theorem mem_instructions (hi : φ i ≠ .kept) : i ∈ p.instructions a.func := by
  have hfits := h.fits i
  cases hx : φ i with
  | kept => exact absurd hx hi
  | dropped l => rw [hx] at hfits; exact hfits.mem
  | written w l =>
    rw [hx] at hfits
    obtain ⟨_, _, _, harith, -⟩ := hfits
    exact harith.mem
  | copied r w u =>
    rw [hx] at hfits
    obtain ⟨_, _, _, harith, -⟩ := hfits
    exact harith.mem

/-- What is put in place of an instruction is new. -/
theorem lt_of_mem_code (hj : j ∈ (φ i).code) : p.insts.size ≤ j ∧ j < s.program.insts.size :=
  h.program.new (i := i) hj

/-- What is put in place of an instruction stands in the function. -/
theorem code_mem_instructions (hj : j ∈ (φ i).code) : j ∈ s.program.instructions a.func := by
  refine h.program.mem_instructions.2 ⟨i, h.mem_instructions fun hi => ?_, ?_⟩
  · rw [hi] at hj
    cases hj
  · exact List.mem_append_left _ hj

theorem kind_of_mem_code (hj : j ∈ (φ i).code) : ∃ o args, s.Calls j o args ∧
    (o = .read ∨ o = .write) := by
  have hfits := h.fits i
  cases hx : φ i with
  | kept | dropped => rw [hx] at hj; cases hj
  | written w l =>
    rw [hx] at hj hfits
    obtain ⟨_, _, _, -, hw⟩ := hfits
    rw [List.mem_singleton.1 hj]
    exact ⟨_, _, hw, .inr rfl⟩
  | copied r w u =>
    rw [hx] at hj hfits
    obtain ⟨_, _, _, -, -, hr, hw⟩ := hfits
    rcases List.mem_cons.1 hj with rfl | hj
    · exact ⟨_, _, hr, .inl rfl⟩
    · rw [List.mem_singleton.1 hj]
      exact ⟨_, _, hw, .inr rfl⟩

/-- The operation of an instruction that has not gone, as it stands. -/
theorem op_of_kept (hi : i ∈ p.instructions a.func) (hx : φ i = .kept ∨ i ∈ ds) :
    (s.program.inst i).op = (p.inst i).op.map (φ.layout ds).subst id := by
  rw [h.program.inst hi (Fates.erased_layout.2 hx)]

end Rewriting

end BoxFlow
