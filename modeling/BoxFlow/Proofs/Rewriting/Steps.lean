import BoxFlow.Proofs.Rewriting.Fates

/-!
# Each rewrite seals a fate

`RewriteM.ends_foldCall` and `RewriteM.ends_propagateCall`: a rewrite of one call succeeds and keeps
the invariant, the call having met its fate if it is doomed then. What justifies the fates is a
parameter (`Sanctions`), and so is whatever else is to hold throughout (`Upholds`).
-/

namespace BoxFlow

open Function (update)

/-! ## Outcomes -/

namespace Rewriter

variable {r : Rewriter} {p : Program} {i : InstId}

/-- What has to be constant for an outcome. -/
def Comes (r : Rewriter) (p : Program) (i : InstId) (left right : Value) : Outcome → Prop
  | .cancelled => r.analysis.cls.kindOf i ≠ .operation .add ∧ left = right
  | .constant n => ∃ x y, r.constantOf p i left = some x ∧ r.constantOf p i right = some y ∧
      n = wrap64 (if r.analysis.cls.kindOf i = .operation .add then x + y else x - y)
  | .copied v => r.analysis.cls.kindOf i = .operation .add ∧
      (r.constantOf p i left = some 0 ∧ v = right ∨ r.constantOf p i right = some 0 ∧ v = left)

theorem outcome?_eq_some {outcome : Outcome} (h : r.outcome? p i = some outcome) :
    ∃ callee handle left right rest,
      (p.inst i).op = .call callee (handle :: left :: right :: rest) ∧
      r.Comes p i left right outcome := by
  unfold outcome? at h
  split at h
  · next callee handle left right rest hop =>
    refine ⟨callee, handle, left, right, rest, hop, ?_⟩
    dsimp only at h
    split at h
    · next hc =>
      cases h
      simpa [Comes] using hc
    · split at h
      · next x y hx hy =>
        cases h
        exact ⟨x, y, hx, hy, by simp⟩
      · next x hx _ =>
        split at h
        · next hc =>
          cases h
          simp only [Bool.and_eq_true, decide_eq_true_eq] at hc
          exact ⟨hc.1, .inl ⟨by rw [hx, hc.2], rfl⟩⟩
        · cases h
      · next y _ hy =>
        split at h
        · next hc =>
          cases h
          simp only [Bool.and_eq_true, decide_eq_true_eq] at hc
          exact ⟨hc.1, .inr ⟨by rw [hy, hc.2], rfl⟩⟩
        · cases h
      · cases h
  · cases h

end Rewriter

/-- The fate that an outcome brings, operands being replaced by `σ`. -/
inductive Rewriter.Outcome.Brings (σ : Value → Value) (x y : Value) : Outcome → Fate → Prop
  | cancelled {w : InstId} {l : Literal} : l.value = 0 → Brings σ x y .cancelled (.written w l)
  | constant {w : InstId} {l : Literal} {n : Int} : l.value = n →
    Brings σ x y (.constant n) (.written w l)
  | copied {r w : InstId} {u : Value} : u = x ∨ u = y →
    Brings σ x y (.copied (σ u)) (.copied r w u)

/-- What arithmetic calls come to in the course of a rewriting is justified. -/
abbrev SanctionsArithmetic (p : Program) (a : Analysis) (names : Names)
    (J : InstId → Fate → Prop) : Prop :=
  ∀ {φ ds s i handle x y outcome fate}, Rewriting p a names J φ ds s → φ i = .kept →
    a.Arithmetic p i handle x y → s.rewriter.outcome? s.program i = some outcome →
    outcome.Brings (φ.layout ds).subst x y fate → J i fate

/-- What is decided in the course of a rewriting is justified. -/
structure Sanctions (p : Program) (a : Analysis) (names : Names) (J : InstId → Fate → Prop) :
    Prop where
  arithmetic : SanctionsArithmetic p a names J
  reading : ∀ {φ ds s i l}, Rewriting p a names J φ ds s → φ i = .kept → a.Reading p i →
    (s.program.inst i).op.operands.head?.bind (s.rewriter.constantOf s.program i) = some l.value →
    J i (.dropped l)

/-! ## Calls put in -/

namespace RewriteState

variable {s t u : RewriteState} {f : FuncId} {b d : BlockId} {i j w : InstId} {o : Operation}
  {args : List Value} {ty : Ty} {hint : Option String} {handle operand : Value}

/-- `t` is `s` with one more call `w` in function `f`, right before `i`. -/
structure Added (s t : RewriteState) (f : FuncId) (b : BlockId) (i : InstId) (o : Operation)
    (args : List Value) (ty : Ty) (hint : Option String) (w : InstId) : Prop where
  id : w = s.program.insts.size
  items : s.program.SameItems t.program f
  program : ∃ name, s.program.Christens t.program f ty hint name ∧ s.program.Inserted t.program b i
    { op := .call (s.rewriter.names.nameOf o) args, ty, name }
  rewriter : t.rewriter = { s.rewriter with
    analysis.cls.kinds := s.rewriter.analysis.cls.kinds.insert w (.operation o) }

namespace Added

variable (h : s.Added t f b i o args ty hint w)
include h

theorem calls : t.Calls w o args := by
  obtain ⟨name, -, hins⟩ := h.program
  refine ⟨?_, ?_⟩
  · rw [h.rewriter]
    exact Std.ExtTreeMap.getD_insert_self
  · rw [hins.inst, if_pos h.id, h.rewriter]

theorem kindOf (hj : j ≠ w) :
    t.rewriter.analysis.cls.kindOf j = s.rewriter.analysis.cls.kindOf j := by
  rw [h.rewriter]
  refine Std.ExtTreeMap.getD_insert.trans (if_neg fun heq => hj ?_)
  exact (Std.LawfulEqCmp.eq_of_compare heq).symm

theorem analysis {a : Analysis} (ha : ∃ kinds, s.rewriter.analysis = a.withKinds kinds) :
    ∃ kinds, t.rewriter.analysis = a.withKinds kinds := by
  obtain ⟨kinds, hkinds⟩ := ha
  refine ⟨kinds.insert w (.operation o), ?_⟩
  rw [h.rewriter]
  dsimp only
  rw [hkinds]
  rfl

theorem inst (hj : j < s.program.insts.size) : t.program.inst j = s.program.inst j := by
  obtain ⟨name, -, hins⟩ := h.program
  rw [hins.inst, if_neg (Nat.ne_of_lt hj)]

theorem calls_old {o' : Operation} {args' : List Value} (hj : j < s.program.insts.size)
    (hcalls : s.Calls j o' args') : t.Calls j o' args' where
  kind := (h.kindOf (h.id ▸ Nat.ne_of_lt hj)).trans hcalls.kind
  op := by
    rw [h.inst hj, h.rewriter]
    exact hcalls.op

theorem sits (hj : s.program.Sits f d j) : t.program.Sits f d j := by
  obtain ⟨name, -, hins⟩ := h.program
  exact hins.sits hj

end Added

/-- `t` is `s` with a `write` of an operand right before the call `i`, which it is to replace. -/
structure Writes (s t : RewriteState) (f : FuncId) (b : BlockId) (i : InstId)
    (handle operand : Value) (w : InstId) : Prop where
  added : ∃ u, s.Added u f b i .write [handle, operand] .void none w ∧ t.program = u.program ∧
    t.rewriter = { u.rewriter with
      replaced := (i, w) :: u.rewriter.replaced
      stats := t.rewriter.stats }
  replaced : t.rewriter.stats.folded + t.rewriter.stats.simplified =
    s.rewriter.stats.folded + s.rewriter.stats.simplified + 1
  propagated : t.rewriter.stats.propagated = s.rewriter.stats.propagated

/-- `t` is `s` with a `write` of what the call `i` comes to, or of what is read from the handle that
it comes to. -/
inductive Folds (s t : RewriteState) (f : FuncId) (b : BlockId) (i : InstId) (handle : Value) :
    Rewriter.Outcome → Prop
  | cancelled {w : InstId} : Writes { s with program.nextSerial := s.program.nextSerial + 1 } t f b
      i handle (.literal ⟨s.program.nextSerial, 0, .i64⟩) w → Folds s t f b i handle .cancelled
  | constant {w : InstId} {n : Int} :
      Writes { s with program.nextSerial := s.program.nextSerial + 1 } t f b i handle
        (.literal ⟨s.program.nextSerial, n, .i64⟩) w → Folds s t f b i handle (.constant n)
  | copied {u : RewriteState} {r w : InstId} {v : Value} :
      s.Added u f b i .read [v] .i64 (some "val") r →
      u.Writes t f b i handle (.inst r) w → Folds s t f b i handle (.copied v)

/-- `t` is `s` with a literal for the result of the `read` call `i`. -/
structure Drops (s t : RewriteState) (i : InstId) (value : Int) (l : Literal) : Prop where
  literal : l = ⟨s.program.nextSerial, value,
    if (s.program.inst i).hasResult then (s.program.inst i).ty else .i64⟩
  items : s.program.SameItems t.program s.rewriter.analysis.func
  program : { s.program with nextSerial := s.program.nextSerial + 1 }.Substituted t.program
    s.rewriter.analysis.func (.inst i) (.literal l)
  rewriter : t.rewriter = { s.rewriter with stats := t.rewriter.stats }
  replaced : t.rewriter.stats.folded + t.rewriter.stats.simplified =
    s.rewriter.stats.folded + s.rewriter.stats.simplified
  propagated : t.rewriter.stats.propagated = s.rewriter.stats.propagated + 1

end RewriteState

namespace RewriteM

variable {p : Program} {s : RewriteState} {f : FuncId} {b : BlockId} {i : InstId} {handle : Value}

theorem ends_liftEdit {α : Type} {e : Edit α} {Q : α → Program → Prop}
    (h : Ends e s.program Q) :
    Ends (liftEdit e) s fun x t => ∃ q, Q x q ∧ t = { s with program := q } := by
  obtain ⟨x, q, he, hQ⟩ := h
  exact .ok (by rw [liftEdit, he]) ⟨q, hQ, rfl⟩

theorem ends_insertCall (hi : s.program.Sits f b i) (o : Operation) (args : List Value) (ty : Ty)
    (hint : Option String) :
    Ends (insertCall i o args ty hint) s fun w t => s.Added t f b i o args ty hint w := by
  unfold insertCall
  refine .bind_get (.bind_ok (a := ⟨b, some i⟩) (t := s) ?_ ?_)
  · rw [Place.before, hi.held]
    rfl
  · have hedit := Edit.ends_insert hi (s.rewriter.names.nameOf o) args ty hint
    refine .bind (ends_liftEdit hedit) ?_
    rintro w _ ⟨q, ⟨rfl, hitems, name, hname, hins⟩, rfl⟩
    exact .bind_modify (.pure ⟨rfl, hitems, ⟨name, hname, hins⟩, rfl⟩)

/-- A `write` of an operand is put before an arithmetic call. -/
theorem ends_replaceWithWrite (hi : s.program.Sits f b i)
    (hargs : (s.program.inst i).op.operands.take 1 = [handle]) (operand : Value) :
    Ends (replaceWithWrite i operand) s fun w t =>
      ∃ u, s.Added u f b i .write [handle, operand] .void none w ∧
        t = { u with rewriter.replaced := (i, w) :: u.rewriter.replaced } := by
  unfold replaceWithWrite
  refine .bind_get ?_
  dsimp only
  rw [hargs]
  refine .bind (ends_insertCall hi .write [handle, operand] .void none) fun w u hu => ?_
  exact .bind_modify (.pure ⟨u, hu, rfl⟩)

theorem ends_note (rewrite : Rewrite) (count : RewriteStats → RewriteStats) :
    Ends (note rewrite count) s fun _ t => t.program = s.program ∧
      t.rewriter = { s.rewriter with stats := count s.rewriter.stats } := .ok rfl ⟨rfl, rfl⟩

/-- All that deciding an arithmetic call does. -/
theorem ends_foldCall_folds (hi : s.program.Sits f b i)
    (hargs : ∀ outcome, s.rewriter.outcome? s.program i = some outcome →
      (s.program.inst i).op.operands.take 1 = [handle]) :
    Ends (foldCall i) s fun doomed t => match s.rewriter.outcome? s.program i with
      | none => doomed = false ∧ t = s
      | some outcome => doomed = true ∧ s.Folds t f b i handle outcome := by
  unfold foldCall
  refine .bind_get ?_
  cases ho : s.rewriter.outcome? s.program i with
  | none => exact .pure ⟨rfl, rfl⟩
  | some outcome =>
    have hargs := hargs outcome ho
    have hreplace (l : Literal) := ends_replaceWithWrite
      (s := { s with program.nextSerial := s.program.nextSerial + 1 })
      ⟨hi.block, hi.parent, hi.mem, hi.held⟩ hargs (.literal l)
    cases outcome with
    | cancelled =>
      refine .bind_ok rfl (.bind (hreplace _) ?_)
      rintro w _ ⟨u, hu, rfl⟩
      refine .bind_get (.bind (ends_note _ _) fun _ t ht =>
        .pure ⟨rfl, .cancelled ⟨⟨u, hu, ht.1, ?_⟩, ?_, ?_⟩⟩)
      · rw [ht.2]
      · rw [ht.2, hu.rewriter]
        rfl
      · rw [ht.2, hu.rewriter]
    | constant n =>
      refine .bind_ok rfl (.bind (hreplace _) ?_)
      rintro w _ ⟨u, hu, rfl⟩
      refine .bind_get (.bind (ends_note _ _) fun _ t ht =>
        .pure ⟨rfl, .constant ⟨⟨u, hu, ht.1, ?_⟩, ?_, ?_⟩⟩)
      · rw [ht.2]
      · rw [ht.2, hu.rewriter]
        exact Nat.succ_add ..
      · rw [ht.2, hu.rewriter]
    | copied v =>
      refine .bind (.map (R := fun x u => ∃ r, x = .inst r ∧
        s.Added u f b i .read [v] .i64 (some "val") r)
        ((ends_insertCall hi .read [v] .i64 (some "val")).mono fun r u hr => ⟨r, rfl, hr⟩)) ?_
      rintro _ u ⟨r, rfl, hr⟩
      rw [← hr.inst (Program.lt_of_inst_block hi.held)] at hargs
      refine .bind (ends_replaceWithWrite (hr.sits hi) hargs _) ?_
      rintro w _ ⟨v, hw, rfl⟩
      refine .bind_get (.bind (ends_note _ _) fun _ t ht =>
        .pure ⟨rfl, .copied hr ⟨⟨v, hw, ht.1, ?_⟩, ?_, ?_⟩⟩)
      · rw [ht.2]
      · rw [ht.2, hw.rewriter]
        rfl
      · rw [ht.2, hw.rewriter]

/-- All that deciding a `read` call does. -/
theorem ends_propagateCall_drops : Ends (propagateCall i) s fun doomed t =>
    match (s.program.inst i).op.operands.head?.bind (s.rewriter.constantOf s.program i) with
      | none => doomed = false ∧ t = s
      | some value => doomed = true ∧ ∃ l, s.Drops t i value l := by
  unfold propagateCall
  refine .bind_get ?_
  dsimp only
  cases (s.program.inst i).op.operands.head?.bind (s.rewriter.constantOf s.program i) with
  | none => exact .pure ⟨rfl, rfl⟩
  | some value =>
    refine .bind_ok rfl (.bind_modifyGet (.bind_get (.bind (ends_note _ _) fun _ t ht =>
      .pure ⟨rfl, _, rfl, ?_, ?_, ?_, ?_, ?_⟩)))
    · rw [ht.1]
      exact (Program.SameItems.replaceAllUses
        { s.program with nextSerial := s.program.nextSerial + 1 } s.rewriter.analysis.func (.inst i)
        (.literal _)).congr rfl rfl rfl rfl fun _ => rfl
    · rw [ht.1]
      exact Program.replaceAllUses_substituted _ _ _ _ nofun
    · rw [ht.2]
    · rw [ht.2]
    · rw [ht.2]

end RewriteM

/-! ## One more fate -/

namespace Rewriting

variable {p : Program} {a : Analysis} {names : Names} {J : InstId → Fate → Prop} {φ : Fates}
  {ds : List InstId} {s t : RewriteState} {i j : InstId} {b : BlockId} {x : Fate}

/-- Statistics and notes do not matter. -/
theorem congr (h : Rewriting p a names J φ ds s) (hprog : t.program = s.program)
    (hrew : t.rewriter = { s.rewriter with stats := t.rewriter.stats }) :
    Rewriting p a names J φ ds t where
  program := hprog ▸ h.program
  analysis := by rw [hrew]; exact h.analysis
  names := by rw [hrew]; exact h.names
  kinds hi := by rw [hrew]; exact h.kinds hi
  replaced i := by rw [hrew]; exact h.replaced i
  fits i := by
    have hfits := (h.fits i).mono (t := t) (g := id) (fun j _ o args hc => ?_) (fun _ => rfl)
      fun _ _ => rfl
    · exact hfits
    · rw [List.map_id]
      exact ⟨by rw [hrew]; exact hc.kind, by rw [hprog, hrew]; exact hc.op⟩
  justified := h.justified
  fresh := hprog ▸ h.fresh

/-- An instruction meets its fate, and operands change by `g`. -/
theorem meet (h : Rewriting p a names J φ ds s) {g : Value → Value}
    (hprog : p.Rewritten a.func (Fates.layout (update φ i x) (ds ++ [i])) t.program)
    (hsubst : (Fates.layout (update φ i x) (ds ++ [i])).subst = g ∘ (φ.layout ds).subst)
    (hanalysis : ∃ kinds, t.rewriter.analysis = a.withKinds kinds)
    (hnames : t.rewriter.names = s.rewriter.names)
    (hkinds : ∀ j < p.insts.size,
      t.rewriter.analysis.cls.kindOf j = s.rewriter.analysis.cls.kindOf j)
    (hreplaced : ∀ j, t.rewriter.replaced.lookup j =
      if j = i then x.write? else s.rewriter.replaced.lookup j)
    (hcalls : ∀ j ∈ s.program.instructions a.func, j < s.program.insts.size → ∀ o args,
      s.Calls j o args → t.Calls j o (args.map g))
    (hliteral : ∀ l, g (.literal l) = .literal l)
    (hinst : ∀ j, p.insts.size ≤ j → g (.inst j) = .inst j)
    (hfits : t.Fits p a (Fates.layout (update φ i x) (ds ++ [i])).subst i x)
    (hJ : J i x) (hfresh : Fates.Fresh (update φ i x) p.nextSerial t.program.nextSerial) :
    Rewriting p a names J (update φ i x) (ds ++ [i]) t where
  program := hprog
  analysis := hanalysis
  names := hnames.trans h.names
  kinds hj := (hkinds _ hj).trans (h.kinds hj)
  replaced j := by
    rw [hreplaced]
    by_cases hj : j = i
    · subst hj; simp
    · simp [hj, h.replaced]
  fits j := by
    by_cases hj : j = i
    · subst hj
      rw [Function.update_self]
      exact hfits
    · rw [Function.update_of_ne hj, hsubst]
      exact (h.fits j).mono
        (fun l hl => hcalls l (h.code_mem_instructions hl) (h.lt_of_mem_code hl).2) hliteral
        fun l hl => hinst l (h.lt_of_mem_code hl).1
  justified j hne := by
    by_cases hj : j = i
    · subst hj
      rw [Function.update_self]
      exact hJ
    · rw [Function.update_of_ne hj] at hne ⊢
      exact h.justified j hne
  fresh := hfresh

/-- Literals that are used up do not matter. -/
theorem serial (h : Rewriting p a names J φ ds s) {n : Nat} (hn : s.program.nextSerial ≤ n) :
    Rewriting p a names J φ ds { s with program := { s.program with nextSerial := n } } where
  program := ⟨h.program.blocks, h.program.funcs, h.program.functions, h.program.size, h.program.new,
    h.program.inst, h.program.others, h.program.skeleton, h.program.held, h.program.nodup⟩
  analysis := h.analysis
  names := h.names
  kinds := h.kinds
  replaced := h.replaced
  fits i := by
    refine (h.fits i).mono (g := id) (fun j _ o args hc => ?_) (fun _ => rfl) fun _ _ => rfl
    rw [List.map_id]
    exact ⟨hc.kind, hc.op⟩
  justified := h.justified
  fresh := h.fresh.mono hn

variable {handle y z : Value} {l : Literal} {u v : RewriteState} {r w : InstId}

/-- The operands of an arithmetic call, as it stands. -/
theorem take_operands (h : Rewriting p a names J φ ds s) (hx : φ i = .kept)
    (ha : a.Arithmetic p i handle y z) :
    (s.program.inst i).op.operands.take 1 = [(φ.layout ds).subst handle] := by
  obtain ⟨callee, rest, hop⟩ := ha.op
  rw [h.op_of_kept ha.mem (.inl hx), hop]
  rfl

theorem lookup_cons_write (l : List (InstId × InstId)) (i w j : InstId) :
    ((i, w) :: l).lookup j = if j = i then some w else l.lookup j := by
  rw [List.lookup_cons]
  by_cases hj : j = i
  · simp [hj]
  · rw [beq_false_of_ne hj, if_neg hj]

theorem meet_written (hp : p.Linked) (h : Rewriting p a names J φ ds s) (hx : φ i = .kept)
    (hi : i ∈ (p.block b).insts) (ha : a.Arithmetic p i handle y z)
    (ht : s.Writes t a.func b i ((φ.layout ds).subst handle) (.literal l) w)
    (hJ : J i (.written w l)) :
    Rewriting p a names J (update φ i (.written w l)) (ds ++ [i]) t := by
  obtain ⟨u, hw, hprog, hrew⟩ := ht.added
  have hlayout := Fates.layout_written ds hx w l
  have hsubst : (Fates.layout (update φ i (.written w l)) (ds ++ [i])).subst =
      (φ.layout ds).subst := by
    rw [hlayout]; rfl
  have hle := h.program.size
  obtain ⟨name, -, hins⟩ := hw.program
  have hmeet : Rewriting p a names J (update φ i (.written w l)) (ds ++ [i])
      { u with rewriter.replaced := (i, w) :: u.rewriter.replaced } := by
    refine h.meet (g := id) ?_ hsubst ?_ ?_ (fun j hj => ?_) (fun j => ?_)
      (fun j _ hlt o args hc => ?_) (fun _ => rfl) (fun _ _ => rfl) ?_ hJ ?_
    · rw [hlayout, hw.id]
      exact h.program.insert hp hi (Fates.erased_layout.2 (.inl hx)) hins
    · exact hw.analysis h.analysis
    · show u.rewriter.names = _
      rw [hw.rewriter]
    · exact hw.kindOf (by rw [hw.id]; exact Nat.ne_of_lt (Nat.lt_of_lt_of_le hj hle))
    · exact (lookup_cons_write ..).trans (by rw [hw.rewriter]; rfl)
    · rw [List.map_id]
      have := hw.calls_old hlt hc
      exact ⟨this.kind, this.op⟩
    · rw [hsubst]
      exact ⟨handle, y, z, ha, hw.calls.kind, hw.calls.op⟩
    · exact hins.nextSerial ▸ h.fresh.update_other rfl
  exact hmeet.congr hprog hrew

theorem meet_copied (hp : p.Linked) (h : Rewriting p a names J φ ds s) (hx : φ i = .kept)
    (hi : i ∈ (p.block b).insts) (ha : a.Arithmetic p i handle y z) {operand : Value}
    (hoperand : operand = y ∨ operand = z)
    (hr : s.Added u a.func b i .read [(φ.layout ds).subst operand] .i64 (some "val") r)
    (ht : u.Writes t a.func b i ((φ.layout ds).subst handle) (.inst r) w)
    (hJ : J i (.copied r w operand)) :
    Rewriting p a names J (update φ i (.copied r w operand)) (ds ++ [i]) t := by
  obtain ⟨v, hw, hprog, hrew⟩ := ht.added
  have hlayout := Fates.layout_copied ds hx r w operand
  have hsubst : (Fates.layout (update φ i (.copied r w operand)) (ds ++ [i])).subst =
      (φ.layout ds).subst := by
    rw [hlayout]; rfl
  have hle := h.program.size
  have herased := Fates.erased_layout.2 (.inl hx : φ i = .kept ∨ i ∈ ds)
  obtain ⟨name, -, hins⟩ := hr.program
  obtain ⟨name', -, hins'⟩ := hw.program
  have hlt : r < u.program.insts.size := by rw [hins.size, hr.id]; exact Nat.lt_succ_self _
  have hmeet : Rewriting p a names J (update φ i (.copied r w operand)) (ds ++ [i])
      { v with rewriter.replaced := (i, w) :: v.rewriter.replaced } := by
    refine h.meet (g := id) ?_ hsubst ?_ ?_ (fun j hj => ?_) (fun j => ?_)
      (fun j _ hj o args hc => ?_) (fun _ => rfl) (fun _ _ => rfl) ?_ hJ ?_
    · rw [hlayout, hr.id, hw.id]
      exact (h.program.insert hp hi herased hins).insert hp hi herased hins'
    · exact hw.analysis (hr.analysis h.analysis)
    · show v.rewriter.names = _
      rw [hw.rewriter, hr.rewriter]
    · have hj := Nat.lt_of_lt_of_le hj hle
      refine (hw.kindOf ?_).trans (hr.kindOf (by rw [hr.id]; exact Nat.ne_of_lt hj))
      rw [hw.id, hins.size]
      exact Nat.ne_of_lt (Nat.lt_succ_of_lt hj)
    · exact (lookup_cons_write ..).trans (by rw [hw.rewriter, hr.rewriter]; rfl)
    · rw [List.map_id]
      have := hw.calls_old (by rw [hins.size]; exact Nat.lt_succ_of_lt hj) (hr.calls_old hj hc)
      exact ⟨this.kind, this.op⟩
    · have hread := hw.calls_old hlt hr.calls
      rw [hsubst]
      exact ⟨handle, y, z, ha, hoperand, ⟨hread.kind, hread.op⟩, ⟨hw.calls.kind, hw.calls.op⟩⟩
    · exact (hins'.nextSerial.trans hins.nextSerial) ▸ h.fresh.update_other rfl
  exact hmeet.congr hprog hrew

theorem func_eq (h : Rewriting p a names J φ ds s) : s.rewriter.analysis.func = a.func := by
  obtain ⟨kinds, hkinds⟩ := h.analysis
  rw [hkinds]
  rfl

theorem meet_dropped (hp : p.Linked) (h : Rewriting p a names J φ ds s) (hx : φ i = .kept)
    (ha : a.Reading p i) {value : Int} (ht : s.Drops t i value l) (hJ : J i (.dropped l)) :
    Rewriting p a names J (update φ i (.dropped l)) (ds ++ [i]) t := by
  have hlayout := Fates.layout_dropped ds hx l
  have hnone : (φ.layout ds).literal i = none := Fates.literal_of_kept hx
  have hs := ht.program
  rw [h.func_eq] at hs
  have hserial := h.serial (Nat.le_succ s.program.nextSerial)
  have hmeet : Rewriting p a names J (update φ i (.dropped l)) (ds ++ [i])
      { s with program := t.program } := by
    refine hserial.meet (g := Program.replaced (.inst i) (.literal l)) ?_ ?_ h.analysis rfl
      (fun _ _ => rfl) (fun j => ?_) (fun j hj hlt o args hc => ⟨hc.kind, ?_⟩) (fun l' => ?_)
      (fun j hj => ?_) ha hJ ?_
    · rw [hlayout]
      exact hserial.program.substitute hp hnone hs
    · rw [hlayout]
      exact funext fun _ => Layout.subst_substitute hnone
    · by_cases hj : j = i
      · subst hj
        simp [h.replaced, hx, Fate.write?]
      · simp [hj]
    · rw [hs.inst, if_pos ⟨hj, hlt⟩, hc.op]
      rfl
    · simp [Program.replaced]
    · have hne : j ≠ i := fun hji => Nat.not_le.2 (hp.lt_size ha.mem) (hji ▸ hj)
      simp [Program.replaced, hne]
    · rw [hs.nextSerial]
      exact h.fresh.update_dropped (by rw [ht.literal])
  exact hmeet.congr rfl ht.rewriter

/-- What has an outcome is an arithmetic call, of operands that may have been replaced since. -/
theorem arithmetic_of_outcome (h : Rewriting p a names J φ ds s) (hi : i ∈ p.instructions a.func)
    (hx : φ i = .kept)
    (hkind : a.cls.kindOf i = .operation .add ∨ a.cls.kindOf i = .operation .subtract)
    {outcome : Rewriter.Outcome} (ho : s.rewriter.outcome? s.program i = some outcome) :
    ∃ handle y z, a.Arithmetic p i handle y z ∧
      s.rewriter.Comes s.program i ((φ.layout ds).subst y) ((φ.layout ds).subst z) outcome := by
  obtain ⟨callee, handle, left, right, rest, hop, hcomes⟩ := Rewriter.outcome?_eq_some ho
  rw [h.op_of_kept hi (.inl hx)] at hop
  cases hop' : (p.inst i).op with
  | call callee' args =>
    rw [hop'] at hop
    obtain ⟨rfl, hargs⟩ := Form.call.inj hop
    match args, hargs with
    | handle' :: y :: z :: rest', hargs =>
      simp only [List.map_cons, List.cons.injEq] at hargs
      obtain ⟨-, rfl, rfl, -⟩ := hargs
      exact ⟨handle', y, z, ⟨hi, hkind, _, rest', hop'⟩, hcomes⟩
  | _ => rw [hop'] at hop; cases hop

end Rewriting

/-! ## What else holds in the course of a rewriting -/

/-- `K` holds on, of the fates and the state of a rewriting, whatever call meets its fate and
whatever doomed call goes. -/
structure Upholds (p : Program) (a : Analysis) (names : Names) (J : InstId → Fate → Prop)
    (K : Fates → RewriteState → Prop) : Prop where
  written : ∀ {φ ds s t i b handle y z w l}, Rewriting p a names J φ ds s → K φ s → φ i = .kept →
    a.Arithmetic p i handle y z → l.ty = .i64 →
    RewriteState.Writes { s with program.nextSerial := s.program.nextSerial + 1 } t a.func b i
      ((φ.layout ds).subst handle) (.literal l) w →
    Rewriting p a names J (update φ i (.written w l)) (ds ++ [i]) t →
    K (update φ i (.written w l)) t
  copied : ∀ {φ ds s u t i b handle y z r w operand}, Rewriting p a names J φ ds s → K φ s →
    φ i = .kept → a.Arithmetic p i handle y z → a.cls.kindOf i = .operation .add →
    (s.rewriter.constantOf s.program i ((φ.layout ds).subst y) = some 0 ∧ operand = z ∨
      s.rewriter.constantOf s.program i ((φ.layout ds).subst z) = some 0 ∧ operand = y) →
    s.Added u a.func b i .read [(φ.layout ds).subst operand] .i64 (some "val") r →
    u.Writes t a.func b i ((φ.layout ds).subst handle) (.inst r) w →
    Rewriting p a names J (update φ i (.copied r w operand)) (ds ++ [i]) t →
    K (update φ i (.copied r w operand)) t
  dropped : ∀ {φ ds s t i value l}, Rewriting p a names J φ ds s → K φ s → φ i = .kept →
    a.Reading p i → s.Drops t i value l →
    Rewriting p a names J (update φ i (.dropped l)) (ds ++ [i]) t → K (update φ i (.dropped l)) t
  erased : ∀ {φ ds s q i b}, Rewriting p a names J φ ds s → K φ s →
    s.program.SameItems q a.func → s.program.Erased q b i → K φ { s with program := q }

theorem Upholds.trivial (p : Program) (a : Analysis) (names : Names) (J : InstId → Fate → Prop) :
    Upholds p a names J fun _ _ => True := by
  constructor <;> intros <;> exact True.intro

/-! ## The rewrites -/

namespace RewriteM

variable {p : Program} {a : Analysis} {names : Names} {J : InstId → Fate → Prop}
  {K : Fates → RewriteState → Prop} {φ : Fates} {ds : List InstId} {s : RewriteState} {i : InstId}

/-- What a rewrite of one call keeps, and whether the call is doomed. -/
def Decides (p : Program) (a : Analysis) (names : Names) (J : InstId → Fate → Prop)
    (K : Fates → RewriteState → Prop) (φ : Fates) (ds : List InstId) (i : InstId) (doomed : Bool)
    (t : RewriteState) : Prop :=
  if doomed then
    ∃ x ≠ Fate.kept, Rewriting p a names J (update φ i x) (ds ++ [i]) t ∧ K (update φ i x) t
  else Rewriting p a names J φ ds t ∧ K φ t

theorem ends_foldCall (hp : p.Linked) (hS : SanctionsArithmetic p a names J)
    (hK : Upholds p a names J K) (h : Rewriting p a names J φ ds s) (hs : K φ s)
    (hi : i ∈ p.instructions a.func) (hx : φ i = .kept)
    (hkind : a.cls.kindOf i = .operation .add ∨ a.cls.kindOf i = .operation .subtract) :
    Ends (foldCall i) s (Decides p a names J K φ ds i) := by
  obtain ⟨b, hib, hsits⟩ := h.program.place hp hi (Fates.erased_layout.2 (.inl hx))
  cases ho : s.rewriter.outcome? s.program i with
  | none =>
    have hargs : ∀ outcome, s.rewriter.outcome? s.program i = some outcome →
        (s.program.inst i).op.operands.take 1 = [.inst i] := by simp [ho]
    refine (ends_foldCall_folds hsits hargs).mono fun doomed t ht => ?_
    rw [ho] at ht
    obtain ⟨rfl, rfl⟩ := ht
    exact ⟨h, hs⟩
  | some outcome =>
    obtain ⟨handle, y, z, ha, hcomes⟩ := h.arithmetic_of_outcome hi hx hkind ho
    refine (ends_foldCall_folds hsits fun _ _ => h.take_operands hx ha).mono fun doomed t ht => ?_
    rw [ho] at ht
    obtain ⟨rfl, hfolds⟩ := ht
    have hserial := h.serial (Nat.le_succ s.program.nextSerial)
    have hwritten {l : Literal} {w : InstId} (hl : l.ty = .i64)
        (hw : RewriteState.Writes { s with program.nextSerial := s.program.nextSerial + 1 } t
          a.func b i ((φ.layout ds).subst handle) (.literal l) w)
        (hbrings : outcome.Brings (φ.layout ds).subst y z (.written w l)) :
        Decides p a names J K φ ds i true t := by
      have ht := hserial.meet_written hp hx hib ha hw (hS h hx ha ho hbrings)
      exact ⟨.written w l, nofun, ht, hK.written h hs hx ha hl hw ht⟩
    cases hfolds with
    | cancelled hw => exact hwritten rfl hw (.cancelled rfl)
    | constant hw => exact hwritten rfl hw (.constant rfl)
    | @copied u r w v hr hw =>
      obtain ⟨operand, hzero, rfl⟩ : ∃ operand,
          (s.rewriter.constantOf s.program i ((φ.layout ds).subst y) = some 0 ∧ operand = z ∨
            s.rewriter.constantOf s.program i ((φ.layout ds).subst z) = some 0 ∧ operand = y) ∧
          v = (φ.layout ds).subst operand := by
        rcases hcomes.2 with ⟨hzero, rfl⟩ | ⟨hzero, rfl⟩
        · exact ⟨z, .inl ⟨hzero, rfl⟩, rfl⟩
        · exact ⟨y, .inr ⟨hzero, rfl⟩, rfl⟩
      have hoperand : operand = y ∨ operand = z :=
        hzero.elim (fun hz => .inr hz.2) fun hz => .inl hz.2
      have ht := h.meet_copied hp hx hib ha hoperand hr hw
        (hS h hx ha ho (.copied hoperand))
      exact ⟨.copied r w operand, nofun, ht, hK.copied h hs hx ha
        ((h.kinds (hp.lt_size hi)).symm.trans hcomes.1) hzero hr hw ht⟩

theorem ends_propagateCall (hp : p.Linked) (hS : Sanctions p a names J)
    (hK : Upholds p a names J K) (h : Rewriting p a names J φ ds s) (hs : K φ s)
    (hx : φ i = .kept) (ha : a.Reading p i) :
    Ends (propagateCall i) s (Decides p a names J K φ ds i) := by
  refine ends_propagateCall_drops.mono fun doomed t ht => ?_
  split at ht
  · obtain ⟨rfl, rfl⟩ := ht
    exact ⟨h, hs⟩
  · next value hvalue =>
    obtain ⟨rfl, l, hl⟩ := ht
    have ht := h.meet_dropped hp hx ha hl (hS.reading h hx ha (by rw [hvalue, hl.literal]))
    exact ⟨.dropped l, nofun, ht, hK.dropped h hs hx ha hl ht⟩

end RewriteM

end BoxFlow
