import BoxFlow.Loading
import BoxFlow.Proofs.IR.Forms
import BoxFlow.Proofs.IR.Growth
import BoxFlow.Proofs.IR.Linked
import BoxFlow.Proofs.Options

/-!
# Loaded programs

Reading a listing only adds: functions, blocks at the end of a function, instructions at the end of
a block, with branches to blocks of the same function. What these keep (`Listing.Kept`) holds of
every program that is read (`Listing.toProgram_of_kept`). So what is loaded is linked
(`Program.load_linked`), and it has passed the checks of `Program.load`.
-/

namespace BoxFlow

namespace Listing

open Program (Linked)

/-! ## Computations that can fail -/

section Monad

variable {α β ε σ : Type}

theorem run_bind_eq_ok {x : StateT σ (Except ε) α} {k : α → StateT σ (Except ε) β} {s : σ}
    {r : β × σ} :
    (x >>= k).run s = .ok r ↔ ∃ a s', x.run s = .ok (a, s') ∧ (k a).run s' = .ok r := by
  rw [StateT.run_bind, bind_eq_ok]
  exact Prod.exists

theorem foldlM_induction {P : σ → Prop} {g : σ → α → Except ε σ} {l : List α} {s t : σ}
    (h : l.foldlM g s = .ok t) (hs : P s)
    (hstep : ∀ a ∈ l, ∀ s s', P s → g s a = .ok s' → P s') : P t := by
  induction l generalizing s with
  | nil => cases h; exact hs
  | cons a l ih =>
    rw [List.foldlM_cons, bind_eq_ok] at h
    obtain ⟨s', h', h⟩ := h
    exact ih h (hstep a List.mem_cons_self _ _ hs h')
      fun b hb => hstep b (List.mem_cons_of_mem _ hb)

/-! ## Operations, operand by operand -/

variable {V W B : Type} {R : σ → V → W → Prop} {I : σ → Prop} {s s' : σ}

/-- Items that are run one after the other, each keeping an invariant and what relates the items
before it to their results. -/
theorem forall₂_of_mapM {γ δ : Type} {R : σ → γ → δ → Prop} {g : γ → StateT σ (Except ε) δ}
    (hg : ∀ {c d s s'}, I s → (g c).run s = .ok (d, s') →
      R s' c d ∧ I s' ∧ ∀ x y, R s x y → R s' x y) {cs : List γ} {ds : List δ}
    (h : (cs.mapM g).run s = .ok (ds, s')) (hs : I s) :
    List.Forall₂ (R s') cs ds ∧ I s' ∧ ∀ x y, R s x y → R s' x y := by
  induction cs generalizing s ds with
  | nil => cases h; exact ⟨.nil, hs, fun _ _ => id⟩
  | cons c cs ih =>
    rw [List.mapM_cons, run_bind_eq_ok] at h
    obtain ⟨d, s₁, h₁, h⟩ := h
    obtain ⟨ds', s₂, h₂, h⟩ := run_bind_eq_ok.1 h
    cases h
    obtain ⟨hd, hs₁, hmono₁⟩ := hg hs h₁
    obtain ⟨hds, hs₂, hmono₂⟩ := ih h₂ hs₁
    exact ⟨.cons (hmono₂ _ _ hd) hds, hs₂, fun x y hxy => hmono₂ _ _ (hmono₁ _ _ hxy)⟩

/-- An operation whose operands are run through a function. -/
theorem rel_of_mapM {f : V → StateT σ (Except ε) W}
    (hf : ∀ {v w s s'}, I s → (f v).run s = .ok (w, s') →
      R s' v w ∧ I s' ∧ ∀ x y, R s x y → R s' x y) {form : Form V B}
    {op : Form W B} (h : (form.mapM f).run s = .ok (op, s')) (hs : I s) :
    form.Rel (R s') Eq op ∧ I s' := by
  cases form with
  | alloca ty => cases h; exact ⟨.alloca ty, hs⟩
  | unreachable => cases h; exact ⟨.unreachable, hs⟩
  | load x =>
    obtain ⟨v, s₁, h₁, h⟩ := run_bind_eq_ok.1 h
    cases h
    obtain ⟨hv, hs₁, -⟩ := hf hs h₁
    exact ⟨.load hv, hs₁⟩
  | store x y =>
    obtain ⟨v, s₁, h₁, h⟩ := run_bind_eq_ok.1 h
    obtain ⟨u, s₂, h₂, h⟩ := run_bind_eq_ok.1 h
    cases h
    obtain ⟨hv, hs₁, -⟩ := hf hs h₁
    obtain ⟨hu, hs₂, hmono⟩ := hf hs₁ h₂
    exact ⟨.store (hmono _ _ hv) hu, hs₂⟩
  | select x y z =>
    obtain ⟨v, s₁, h₁, h⟩ := run_bind_eq_ok.1 h
    obtain ⟨u, s₂, h₂, h⟩ := run_bind_eq_ok.1 h
    obtain ⟨w, s₃, h₃, h⟩ := run_bind_eq_ok.1 h
    cases h
    obtain ⟨hv, hs₁, -⟩ := hf hs h₁
    obtain ⟨hu, hs₂, hmono₂⟩ := hf hs₁ h₂
    obtain ⟨hw, hs₃, hmono₃⟩ := hf hs₂ h₃
    exact ⟨.select (hmono₃ _ _ (hmono₂ _ _ hv)) (hmono₃ _ _ hu) hw, hs₃⟩
  | phi incoming =>
    obtain ⟨vs, s₁, h₁, h⟩ := run_bind_eq_ok.1 h
    cases h
    obtain ⟨hvs, hs₁, -⟩ := forall₂_of_mapM
      (R := fun s x y => R s x.1 y.1 ∧ x.2 = y.2) (fun {x y s s'} hs h => by
        obtain ⟨v, s₂, h₂, h⟩ := run_bind_eq_ok.1 h
        cases h
        obtain ⟨hv, hs₂, hmono⟩ := hf hs h₂
        exact ⟨⟨hv, rfl⟩, hs₂, fun _ _ => And.imp_left (hmono _ _)⟩) h₁ hs
    exact ⟨.phi hvs, hs₁⟩
  | call callee args =>
    obtain ⟨vs, s₁, h₁, h⟩ := run_bind_eq_ok.1 h
    cases h
    obtain ⟨hvs, hs₁, -⟩ := forall₂_of_mapM hf h₁ hs
    exact ⟨.call callee hvs, hs₁⟩
  | br c targets =>
    cases c with
    | none => cases h; exact ⟨.jump (List.forall₂_same.2 fun _ _ => rfl), hs⟩
    | some c =>
      obtain ⟨v, s₁, h₁, h⟩ := run_bind_eq_ok.1 h
      cases h
      obtain ⟨hv, hs₁, -⟩ := hf hs h₁
      exact ⟨.branch hv (List.forall₂_same.2 fun _ _ => rfl), hs₁⟩
  | ret x =>
    cases x with
    | none => cases h; exact ⟨.leave, hs⟩
    | some x =>
      obtain ⟨v, s₁, h₁, h⟩ := run_bind_eq_ok.1 h
      cases h
      obtain ⟨hv, hs₁, -⟩ := hf hs h₁
      exact ⟨.ret hv, hs₁⟩

theorem mapM_ok {γ δ : Type} {g : γ → StateT σ (Except ε) δ} (cs : List γ)
    (hg : ∀ c ∈ cs, ∀ s, I s → ∃ d s', (g c).run s = .ok (d, s') ∧ I s') (hs : I s) :
    ∃ ds s', (cs.mapM g).run s = .ok (ds, s') ∧ I s' := by
  induction cs generalizing s with
  | nil => exact ⟨[], s, rfl, hs⟩
  | cons c cs ih =>
    obtain ⟨d, s₁, h₁, hs₁⟩ := hg c List.mem_cons_self s hs
    obtain ⟨ds, s₂, h₂, hs₂⟩ := ih (fun c hc => hg c (List.mem_cons_of_mem _ hc)) hs₁
    refine ⟨d :: ds, s₂, ?_, hs₂⟩
    rw [List.mapM_cons, run_bind_eq_ok]
    exact ⟨d, s₁, h₁, run_bind_eq_ok.2 ⟨ds, s₂, h₂, rfl⟩⟩

/-- An operation runs through if every operand does. -/
theorem formMapM_ok {f : V → StateT σ (Except ε) W} (form : Form V B)
    (hf : ∀ v ∈ form.operands, ∀ s, I s → ∃ w s', (f v).run s = .ok (w, s') ∧ I s') (hs : I s) :
    ∃ op s', (form.mapM f).run s = .ok (op, s') ∧ I s' := by
  cases form with
  | alloca ty => exact ⟨.alloca ty, s, rfl, hs⟩
  | unreachable => exact ⟨.unreachable, s, rfl, hs⟩
  | load x =>
    obtain ⟨v, s₁, h₁, hs₁⟩ := hf x (by simp [Form.operands]) s hs
    exact ⟨.load v, s₁, run_bind_eq_ok.2 ⟨v, s₁, h₁, rfl⟩, hs₁⟩
  | store x y =>
    obtain ⟨v, s₁, h₁, hs₁⟩ := hf x (by simp [Form.operands]) s hs
    obtain ⟨u, s₂, h₂, hs₂⟩ := hf y (by simp [Form.operands]) s₁ hs₁
    exact ⟨.store v u, s₂, run_bind_eq_ok.2 ⟨v, s₁, h₁, run_bind_eq_ok.2 ⟨u, s₂, h₂, rfl⟩⟩, hs₂⟩
  | select x y z =>
    obtain ⟨v, s₁, h₁, hs₁⟩ := hf x (by simp [Form.operands]) s hs
    obtain ⟨u, s₂, h₂, hs₂⟩ := hf y (by simp [Form.operands]) s₁ hs₁
    obtain ⟨w, s₃, h₃, hs₃⟩ := hf z (by simp [Form.operands]) s₂ hs₂
    exact ⟨.select v u w, s₃, run_bind_eq_ok.2 ⟨v, s₁, h₁, run_bind_eq_ok.2 ⟨u, s₂, h₂,
      run_bind_eq_ok.2 ⟨w, s₃, h₃, rfl⟩⟩⟩, hs₃⟩
  | phi incoming =>
    obtain ⟨vs, s₁, h₁, hs₁⟩ := mapM_ok (I := I) (s := s) incoming
      (g := fun x => return (← f x.1, x.2)) (fun x hx s hs => by
        obtain ⟨v, s₁, h₁, hs₁⟩ := hf x.1 (List.mem_map_of_mem hx) s hs
        exact ⟨(v, x.2), s₁, run_bind_eq_ok.2 ⟨v, s₁, h₁, rfl⟩, hs₁⟩) hs
    exact ⟨.phi vs, s₁, run_bind_eq_ok.2 ⟨vs, s₁, h₁, rfl⟩, hs₁⟩
  | call callee args =>
    obtain ⟨vs, s₁, h₁, hs₁⟩ := mapM_ok args hf hs
    exact ⟨.call callee vs, s₁, run_bind_eq_ok.2 ⟨vs, s₁, h₁, rfl⟩, hs₁⟩
  | br c targets =>
    cases c with
    | none => exact ⟨.br none targets, s, rfl, hs⟩
    | some c =>
      obtain ⟨v, s₁, h₁, hs₁⟩ := hf c (by simp [Form.operands]) s hs
      exact ⟨.br (some v) targets, s₁, run_bind_eq_ok.2 ⟨v, s₁, h₁, rfl⟩, hs₁⟩
  | ret x =>
    cases x with
    | none => exact ⟨.ret none, s, rfl, hs⟩
    | some x =>
      obtain ⟨v, s₁, h₁, hs₁⟩ := hf x (by simp [Form.operands]) s hs
      exact ⟨.ret (some v), s₁, run_bind_eq_ok.2 ⟨v, s₁, h₁, rfl⟩, hs₁⟩

end Monad

/-! ## Operands -/

/-- The same instructions, blocks and functions. -/
def SameStores (p q : Program) : Prop := q.insts = p.insts ∧ q.blocks = p.blocks ∧ q.funcs = p.funcs

variable {p q : Program} {scope : Scope} {f : FuncId}

theorem SameStores.refl (p : Program) : SameStores p p := ⟨rfl, rfl, rfl⟩

theorem SameStores.trans {r : Program} (h : SameStores p q) (h' : SameStores q r) :
    SameStores p r :=
  ⟨h'.1.trans h.1, h'.2.1.trans h.2.1, h'.2.2.trans h.2.2⟩

theorem operandValue_sameStores {left : Nat} {t : Typed} {v : Value}
    (h : (operandValue scope left t).run p = .ok (v, q)) : SameStores p q := by
  simp only [operandValue, StateT.run] at h
  split at h
  · cases h; exact ⟨rfl, rfl, rfl⟩
  all_goals split at h <;> cases h; exact .refl _

/-- Looking up operands leaves the stores and the blocks of a form as they are. -/
theorem mapM_sameStores {left : Nat} {form : Form Typed BlockId} {op : Op}
    (h : (form.mapM (operandValue scope left)).run p = .ok (op, q)) :
    SameStores p q ∧ op.blocks = form.blocks := by
  obtain ⟨hrel, hs⟩ := rel_of_mapM (R := fun _ _ _ => True) (I := SameStores p)
    (fun hs h => ⟨trivial, hs.trans (operandValue_sameStores h), fun _ _ => id⟩) h (.refl p)
  exact ⟨hs, hrel.blocks_eq.symm⟩

/-! ## One function -/

/-- The property is kept by what a listing adds to a program. -/
structure Kept (P : Program → Prop) : Prop where
  /-- Names and everything outside the stores do not matter. -/
  congr : ∀ {p q : Program}, P p → (∀ b, q.block b = p.block b) → (∀ i, q.inst i = p.inst i) →
    (∀ f, (q.func f).blocks = (p.func f).blocks) → P q
  newFunc : ∀ {p : Program}, P p → ∀ name result params, P (p.newFunc name result params).2
  addBlock : ∀ {p : Program} {f : FuncId}, P p → f < p.funcs.size → ∀ hint, P (p.addBlock f hint).2
  /-- An instruction goes to the end of a block, and branches within the function. -/
  appendNew : ∀ {p : Program} {f : FuncId} {b : BlockId} {new : Inst}, P p →
    b ∈ (p.func f).blocks → new.block = none → (∀ t ∈ new.op.blocks, t ∈ (p.func f).blocks) →
    P (p.appendNew b new)

theorem Kept.linked : Kept Program.Linked where
  congr := Program.Linked.congr
  newFunc := Program.Linked.newFunc
  addBlock := Program.Linked.addBlock
  appendNew {p f b new} hp hb hnew ht := by
    have hinst : (p.newInst new).2.inst p.insts.size = new := by
      rw [Program.inst_newInst, if_pos rfl]
    exact (hp.newInst new).append hb (by rw [hinst]; exact ht) (by rw [hinst, hnew])
      (by simp [Program.newInst])

variable {P : Program → Prop}

/-- A function under construction: the property holds, and the labels are its blocks. -/
structure Building (P : Program → Prop) (f : FuncId) (labels : Keyed BlockId) (p : Program) :
    Prop where
  holds : P p
  func_lt : f < p.funcs.size
  labels_mem : ∀ {name b}, labels.lookup name = some b → b ∈ (p.func f).blocks

theorem Building.congr (hP : Kept P) {labels : Keyed BlockId} (h : Building P f labels p)
    (hb : ∀ b, q.block b = p.block b) (hi : ∀ i, q.inst i = p.inst i)
    (hf : ∀ f, (q.func f).blocks = (p.func f).blocks) (hsize : q.funcs.size = p.funcs.size) :
    Building P f labels q where
  holds := hP.congr h.holds hb hi hf
  func_lt := hsize ▸ h.func_lt
  labels_mem hl := hf f ▸ h.labels_mem hl

theorem Building.claimName (hP : Kept P) {labels : Keyed BlockId} (h : Building P f labels p)
    (f' : FuncId) (name : String) : Building P f labels (p.claimName f' name) :=
  h.congr hP (fun _ => rfl) (fun _ => rfl) (by simp)
    (by simp [Program.claimName, Program.modifyFunc])

theorem addBlock_building (hP : Kept P) {scope' : Scope} {b : Block}
    (h : addBlock f (scope, p) b = .ok (scope', q)) (hb : Building P f scope.labels p) :
    Building P f scope'.labels q ∧ (scope'.labels.lookup b.label).isSome ∧
      ∀ name, (scope.labels.lookup name).isSome → (scope'.labels.lookup name).isSome := by
  simp only [addBlock] at h
  split at h
  · cases h
  cases h
  refine ⟨⟨hP.addBlock hb.holds hb.func_lt _, ?_, ?_⟩, ?_, ?_⟩
  · simpa [Program.addBlock, Program.freshName, Program.claimName, Program.modifyFunc]
      using hb.func_lt
  · intro name b' h
    rw [Keyed.lookup_put] at h
    rw [Program.func_addBlock p hb.func_lt, if_pos rfl]
    split at h
    · cases h; exact List.mem_append_right _ (List.mem_singleton.2 rfl)
    · exact List.mem_append_left _ (hb.labels_mem h)
  · simp [Keyed.lookup_put]
  · intro name h
    rw [Keyed.lookup_put]
    split
    · rfl
    · exact h

theorem addBlocks_building (hP : Kept P) {scope' : Scope} {bs : List Block}
    (h : bs.foldlM (addBlock f) (scope, p) = .ok (scope', q))
    (hb : Building P f scope.labels p) :
    Building P f scope'.labels q ∧ (∀ b ∈ bs, (scope'.labels.lookup b.label).isSome) ∧
      ∀ name, (scope.labels.lookup name).isSome → (scope'.labels.lookup name).isSome := by
  induction bs generalizing scope p with
  | nil => cases h; exact ⟨hb, by simp, fun _ => id⟩
  | cons b bs ih =>
    rw [List.foldlM_cons, bind_eq_ok] at h
    obtain ⟨⟨scope₁, p₁⟩, h₁, h⟩ := h
    obtain ⟨hb₁, hl, hmono⟩ := addBlock_building hP h₁ hb
    obtain ⟨hb', hls, hmono'⟩ := ih h hb₁
    refine ⟨hb', fun b' h' => ?_, fun name h => hmono' _ (hmono _ h)⟩
    rcases List.mem_cons.1 h' with rfl | h'
    · exact hmono' _ hl
    · exact hls b' h'

/-- The blocks that a draft names are in its function. -/
structure Draft.Fits (f : FuncId) (p : Program) (d : Draft) : Prop where
  block : d.block ∈ (p.func f).blocks
  blocks : ∀ t ∈ d.form.blocks, t ∈ (p.func f).blocks

theorem Draft.Fits.congr {d : Draft} (h : d.Fits f p)
    (hf : (q.func f).blocks = (p.func f).blocks) : d.Fits f q :=
  ⟨hf ▸ h.block, hf ▸ h.blocks⟩

theorem resolveLabels_blocks {labels : Keyed BlockId} {l : Line} {form : Form Typed BlockId}
    (h : resolveLabels labels l = .ok form) (hb : Building P f labels p) :
    ∀ t ∈ form.blocks, t ∈ (p.func f).blocks := by
  unfold resolveLabels at h
  split at h
  · cases h
  · next hnone =>
    cases h
    rw [Form.blocks_map]
    intro t ht
    obtain ⟨name, hname, rfl⟩ := List.mem_map.1 ht
    obtain ⟨b, hl⟩ := Option.ne_none_iff_exists'.1
      (mt Option.isNone_iff_eq_none.2 (List.find?_eq_none.1 hnone name hname))
    exact hb.labels_mem (by rw [hl]; rfl)

theorem draft_fits (hP : Kept P) {b : BlockId} {id : InstId} {l : Line} {d : Draft}
    {scope' : Scope} (h : draft f b id scope p l = .ok (d, scope', q))
    (hb : Building P f scope.labels p) (hmem : b ∈ (p.func f).blocks) :
    Building P f scope'.labels q ∧ d.Fits f q ∧ (q.func f).blocks = (p.func f).blocks := by
  unfold draft at h
  rw [bind_eq_ok] at h
  obtain ⟨form, hform, h⟩ := h
  have ht := resolveLabels_blocks hform hb
  dsimp only at h
  split at h
  · split at h
    · cases h
    split at h
    · cases h
    cases h
    exact ⟨hb.congr hP (fun _ => rfl) (fun _ => rfl) (fun _ => rfl) rfl, ⟨hmem, ht⟩, rfl⟩
  · split at h
    · cases h
      exact ⟨hb, ⟨hmem, ht⟩, rfl⟩
    · cases h
      have hf : ((p.freshName f "t").2.func f).blocks = (p.func f).blocks :=
        Program.blocks_claimName ..
      exact ⟨hb.claimName hP .., ⟨hf ▸ hmem, hf ▸ ht⟩, hf⟩

theorem draftAll_fits (hP : Kept P) {base : InstId} {lines : List (BlockId × Line)}
    {drafts ds : List Draft} {scope' : Scope}
    (h : draftAll f base lines drafts scope p = .ok (ds, scope', q))
    (hb : Building P f scope.labels p) (hlines : ∀ x ∈ lines, x.1 ∈ (p.func f).blocks)
    (hdrafts : ∀ d ∈ drafts, d.Fits f p) :
    Building P f scope'.labels q ∧ ∀ d ∈ ds, d.Fits f q := by
  induction lines generalizing drafts scope p with
  | nil =>
    cases h
    exact ⟨hb, by simpa using hdrafts⟩
  | cons x lines ih =>
    obtain ⟨b, l⟩ := x
    rw [draftAll, bind_eq_ok] at h
    obtain ⟨⟨d, scope₁, p₁⟩, h₁, h⟩ := h
    obtain ⟨hb₁, hd, hf⟩ := draft_fits hP h₁ hb (hlines _ List.mem_cons_self)
    refine ih h hb₁ (fun x hx => hf ▸ hlines x (List.mem_cons_of_mem _ hx)) fun d' hd' => ?_
    rcases List.mem_cons.1 hd' with rfl | hd'
    · exact hd
    · exact (hdrafts d' hd').congr hf

theorem place_building (hP : Kept P) {d : Draft} {labels : Keyed BlockId}
    (h : place scope p d = .ok q) (hb : Building P f labels p) (hd : d.Fits f p) :
    Building P f labels q ∧ (q.func f).blocks = (p.func f).blocks := by
  unfold place at h
  rw [bind_eq_ok] at h
  obtain ⟨⟨op, p₁⟩, h₁, h⟩ := h
  obtain rfl : q = p₁.appendNew d.block { op, ty := d.ty, name := d.name } := by
    cases h
    rfl
  obtain ⟨hs, hblocks⟩ := mapM_sameStores h₁
  have hfunc (f : FuncId) : (p₁.func f).blocks = (p.func f).blocks := by
    rw [Program.func, hs.2.2]; rfl
  have hfunc' (f : FuncId) :
      ((p₁.appendNew d.block { op, ty := d.ty, name := d.name }).func f).blocks =
        (p.func f).blocks := by
    obtain ⟨-, -, -, -, -, -, hshown⟩ :=
      p₁.appendNew_rest d.block { op, ty := d.ty, name := d.name }
    exact (Func.of_shown (hshown f)).2.2.2.trans (hfunc f)
  have hholds : P p₁ := hP.congr hb.holds (fun b => by rw [Program.block, hs.2.1]; rfl)
    (fun i => by rw [Program.inst, hs.1]; rfl) hfunc
  refine ⟨⟨hP.appendNew hholds ((hfunc f).symm ▸ hd.block) rfl fun t ht => ?_, ?_, ?_⟩, hfunc' f⟩
  · exact (hfunc f).symm ▸ hd.blocks t (hblocks ▸ ht)
  · exact Program.lt_of_mem_blocks (b := d.block) ((hfunc' f).symm ▸ hd.block)
  · exact fun hl => (hfunc' f).symm ▸ hb.labels_mem hl

theorem buildFunction_of_kept (hP : Kept P) {fn : Function} (h : buildFunction p fn = .ok q)
    (hp : P p) : P q := by
  unfold buildFunction at h
  dsimp only at h
  rw [bind_eq_ok] at h
  obtain ⟨⟨scope₁, p₁⟩, h₁, h⟩ := h
  rw [bind_eq_ok] at h
  obtain ⟨⟨drafts, scope₂, p₂⟩, h₂, h⟩ := h
  have hstart : Building P p.funcs.size ([] : Keyed BlockId)
      (p.newFunc fn.name fn.result fn.params).2 :=
    ⟨hP.newFunc hp .., by rw [Program.size_newFunc]; exact Nat.lt_succ_self _, by simp⟩
  obtain ⟨hb₁, hl, -⟩ := addBlocks_building hP h₁ hstart
  have hclaimed {f : FuncId} (names : List String) (p : Program)
      (hb : Building P f scope₁.labels p) :
      Building P f scope₁.labels (names.foldl (·.claimName f ·) p) := by
    induction names generalizing p with
    | nil => exact hb
    | cons n names ih => exact ih _ (hb.claimName hP ..)
  have hbuilding := hclaimed (fn.lines.filterMap (·.result)) p₁ hb₁
  have hlines : ∀ x ∈ fn.blocks.flatMap fun b =>
      b.lines.map fun l => ((scope₁.labels.lookup b.label).getD 0, l),
      x.1 ∈ (((fn.lines.filterMap (·.result)).foldl (·.claimName p.funcs.size ·) p₁).func
        p.funcs.size).blocks := by
    intro x hx
    obtain ⟨b, hb, hx⟩ := List.mem_flatMap.1 hx
    obtain ⟨l, _, rfl⟩ := List.mem_map.1 hx
    obtain ⟨b', hb'⟩ := Option.isSome_iff_exists.1 (hl b hb)
    exact hbuilding.labels_mem (by rw [hb']; rfl)
  obtain ⟨hb₂, hfits⟩ := draftAll_fits hP h₂ hbuilding hlines (by simp)
  refine (foldlM_induction (P := fun q => Building P p.funcs.size scope₂.labels q ∧
    ∀ d ∈ drafts, d.Fits p.funcs.size q) h ⟨hb₂, hfits⟩ ?_).1.holds
  intro d hd q q' ⟨hb, hf⟩ hq
  obtain ⟨hb', hblocks⟩ := place_building hP hq hb (hf d hd)
  exact ⟨hb', fun d hd => (hf d hd).congr hblocks⟩

theorem addFunction_of_kept (hP : Kept P) {fn : Function} (h : addFunction p fn = .ok q)
    (hp : P p) : P q := by
  unfold addFunction at h
  split at h
  · cases h
  split at h
  · exact buildFunction_of_kept hP h hp
  · cases h

theorem outline_of_kept (hP : Kept P) (items : List Item) (hp : P p) :
    P (items.foldl addOutline p) := by
  induction items generalizing p with
  | nil => exact hp
  | cons item items ih =>
    refine ih ?_
    cases item <;> exact hP.congr hp (fun _ => rfl) (fun _ => rfl) fun _ => rfl

theorem toProgram_of_kept (hP : Kept P) {name : String} {items : List Item}
    (h : toProgram name items = .ok p) (hstart : P { name }) : P p :=
  foldlM_induction h (outline_of_kept hP items hstart)
    fun _ _ _ _ hs h => addFunction_of_kept hP h hs

end Listing

/-! ## Loading -/

namespace Program

variable {s : List Char} {file name : String} {o : Options} {p : Program}

/-- A text is loaded if it is a listing of a program that passes the checks. -/
theorem load_ok_iff : load s file o name = .ok p ↔ ∃ items, listing s = .ok items ∧
    Listing.toProgram (if name.isEmpty then "module" else name) items = .ok p ∧
      (∀ f ∈ p.moduleFuncs, p.verify f = []) ∧ p.arityProblems o = [] := by
  constructor
  · intro h
    unfold load at h
    cases hl : listing s with
    | error e => rw [hl] at h; cases h
    | ok items =>
      cases ht : Listing.toProgram (if name.isEmpty then "module" else name) items with
      | error e => simp only [hl, bind, Except.bind, ht] at h; cases h
      | ok q =>
        simp only [hl, bind, Except.bind, ht] at h
        split at h
        · next hv =>
          cases ha : q.checkArity o with
          | error e => rw [ha] at h; cases h
          | ok u =>
            rw [ha] at h
            cases h
            refine ⟨items, rfl, ht, fun f hf => List.flatMap_eq_nil_iff.1 hv f hf, ?_⟩
            unfold checkArity at ha
            split at ha
            · assumption
            · cases ha
        · cases h
  · rintro ⟨items, hs, hp, hverify, harity⟩
    have hv : p.moduleFuncs.flatMap p.verify = [] := List.flatMap_eq_nil_iff.2 hverify
    simp only [load, hs, bind, Except.bind, hp, hv, checkArity, harity]
    rfl

/-- What is loaded comes from a listing and has passed the checks. -/
theorem load_eq_ok (h : load s file o name = .ok p) :
    (∃ name items, Listing.toProgram name items = .ok p) ∧
      (∀ f ∈ p.moduleFuncs, p.verify f = []) ∧ p.arityProblems o = [] := by
  obtain ⟨items, -, hp, hchecks⟩ := load_ok_iff.1 h
  exact ⟨⟨_, items, hp⟩, hchecks⟩

theorem load_linked (h : load s file o name = .ok p) : p.Linked := by
  obtain ⟨⟨_, _, h⟩, -⟩ := load_eq_ok h
  exact Listing.toProgram_of_kept .linked h .empty

/-- A program that loads and has what can be checked of it. -/
theorem exists_load {P : Program → Prop} [DecidablePred P]
    (h : (load s).toOption.any (fun p => P p) = true) :
    ∃ p, load s = .ok p ∧ p.Linked ∧ P p := by
  cases hload : load s with
  | error e => rw [hload] at h; cases h
  | ok p =>
    rw [hload] at h
    exact ⟨p, rfl, load_linked hload, of_decide_eq_true h⟩

/-- A handle that goes around a loop. -/
def loopText : String :=
  "define void @f()\x7be:%a=call ptr @create(i64 1)br label %h " ++
  "h:%b=phi ptr[%a,%e],[%b,%h]br i1 1,label %h,label %d d:ret void\x7d"

end Program

end BoxFlow
