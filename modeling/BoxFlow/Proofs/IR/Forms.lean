import Mathlib.Data.List.Forall2
import BoxFlow.IR.Basic

/-!
# Operations operand by operand

Maps of an operation, and the relation of two operations that differ in their operands alone
(`Form.Rel`): the same constructor, related operands in the same places, the same blocks.
-/

namespace BoxFlow.Form

variable {V W X B C D : Type}

/-! ## Maps -/

theorem map_map (f : V → W) (g : B → C) (f' : W → X) (g' : C → D) (op : Form V B) :
    (op.map f g).map f' g' = op.map (f' ∘ f) (g' ∘ g) := by
  cases op <;> simp [map]

theorem map_id (op : Form V B) : op.map id id = op := by
  cases op <;> simp [map]

/-- Only what happens to the operands and blocks that are there matters. -/
theorem map_congr {f f' : V → W} {g g' : B → C} {op : Form V B}
    (hf : ∀ v ∈ op.operands, f v = f' v) (hg : ∀ b ∈ op.blocks, g b = g' b) :
    op.map f g = op.map f' g' := by
  cases op with
  | alloca | unreachable => rfl
  | load v => simp_all [map, operands]
  | store v c => simp_all [map, operands]
  | select c t e => simp_all [map, operands]
  | phi incoming =>
    refine congrArg phi (List.map_congr_left fun x hx => ?_)
    exact Prod.ext (hf _ (List.mem_map_of_mem hx)) (hg _ (List.mem_map_of_mem hx))
  | call callee args => exact congrArg (call callee) (List.map_congr_left hf)
  | br c targets =>
    refine congrArg₂ br ?_ (List.map_congr_left hg)
    cases c with
    | none => rfl
    | some c => exact congrArg some (hf c List.mem_cons_self)
  | ret v =>
    cases v with
    | none => rfl
    | some v => exact congrArg (ret ∘ some) (hf v List.mem_cons_self)

theorem isPhi_map (f : V → W) (g : B → C) (op : Form V B) : (op.map f g).isPhi = op.isPhi := by
  cases op <;> rfl

theorem isTerminator_map (f : V → W) (g : B → C) (op : Form V B) :
    (op.map f g).isTerminator = op.isTerminator := by cases op <;> rfl

theorem isCall_map (f : V → W) (g : B → C) (op : Form V B) :
    (op.map f g).isCall = op.isCall := by cases op <;> rfl

theorem callee?_map (f : V → W) (g : B → C) (op : Form V B) :
    (op.map f g).callee? = op.callee? := by cases op <;> rfl

/-! ## Calls -/

theorem isTerminator_of_isCall {op : Form V B} (h : op.isCall = true) :
    op.isTerminator = false := by cases op <;> first | rfl | cases h

theorem isPhi_of_isCall {op : Form V B} (h : op.isCall = true) :
    op.isPhi = false := by cases op <;> first | rfl | cases h

/-! ## Relations -/

/-- The same but for the operands and the blocks, which are related place by place. -/
inductive Rel (R : V → W → Prop) (S : B → C → Prop) : Form V B → Form W C → Prop
  | alloca (cell : Ty) : Rel R S (.alloca cell) (.alloca cell)
  | load {v : V} {w : W} : R v w → Rel R S (.load v) (.load w)
  | store {v c : V} {w d : W} : R v w → R c d → Rel R S (.store v c) (.store w d)
  | phi {xs : List (V × B)} {ys : List (W × C)} :
    List.Forall₂ (fun x y => R x.1 y.1 ∧ S x.2 y.2) xs ys → Rel R S (.phi xs) (.phi ys)
  | select {c t e : V} {c' t' e' : W} :
    R c c' → R t t' → R e e' → Rel R S (.select c t e) (.select c' t' e')
  | call (callee : String) {vs : List V} {ws : List W} :
    List.Forall₂ R vs ws → Rel R S (.call callee vs) (.call callee ws)
  | jump {bs : List B} {cs : List C} :
    List.Forall₂ S bs cs → Rel R S (.br none bs) (.br none cs)
  | branch {bs : List B} {cs : List C} {v : V} {w : W} :
    R v w → List.Forall₂ S bs cs → Rel R S (.br (some v) bs) (.br (some w) cs)
  | leave : Rel R S (.ret none) (.ret none)
  | ret {v : V} {w : W} : R v w → Rel R S (.ret (some v)) (.ret (some w))
  | unreachable : Rel R S .unreachable .unreachable

/-- What is left of an operation without its operands and blocks: where they stand. -/
def skeleton (op : Form V B) : Form Unit Unit := op.map (fun _ => ()) fun _ => ()

theorem skeleton_map (f : V → W) (g : B → C) (op : Form V B) :
    (op.map f g).skeleton = op.skeleton := map_map ..

namespace Rel

variable {R R' : V → W → Prop} {S S' : B → C → Prop} {a : Form V B} {b : Form W C}

theorem operands (h : Rel R S a b) : List.Forall₂ R a.operands b.operands := by
  cases h with
  | phi h =>
    rw [Form.operands, Form.operands, List.forall₂_map_left_iff, List.forall₂_map_right_iff]
    exact h.imp fun _ _ h => h.1
  | call _ h => exact h
  | _ => simp_all [Form.operands]

theorem blocks (h : Rel R S a b) : List.Forall₂ S a.blocks b.blocks := by
  cases h with
  | phi h =>
    rw [Form.blocks, Form.blocks, List.forall₂_map_left_iff, List.forall₂_map_right_iff]
    exact h.imp fun _ _ h => h.2
  | jump h | branch _ h => exact h
  | _ => exact .nil

theorem blocks_eq {c : Form W B} (h : Rel R Eq a c) : a.blocks = c.blocks := by
  have h := h.blocks
  rwa [List.forall₂_eq_eq_eq] at h

theorem skeleton (h : Rel R S a b) : a.skeleton = b.skeleton := by
  have hmap {X Y : Type} {T : X → Y → Prop} {xs : List X} {ys : List Y} (h : List.Forall₂ T xs ys) :
      xs.map (fun _ => ()) = ys.map fun _ => () := by
    induction h with
    | nil => rfl
    | cons _ _ ih => exact congrArg (List.cons ()) ih
  cases h with
  | phi h =>
    refine congrArg Form.phi ?_
    induction h with
    | nil => rfl
    | cons _ _ ih => exact congrArg (List.cons ((), ())) ih
  | call callee h => exact congrArg (Form.call callee) (hmap h)
  | jump h | branch _ h => exact congrArg (Form.br _) (hmap h)
  | _ => rfl

/-- Operations are related if they look the same and what stands in them is related. -/
theorem of_skeleton (h : a.skeleton = b.skeleton) (hR : List.Forall₂ R a.operands b.operands)
    (hS : List.Forall₂ S a.blocks b.blocks) : Rel R S a b := by
  cases a <;> cases b <;> simp only [Form.skeleton, map, reduceCtorEq] at h
  case alloca.alloca cell cell' =>
    cases h
    exact .alloca cell
  case load.load =>
    obtain _ | ⟨hv, -⟩ := hR
    exact .load hv
  case store.store =>
    obtain _ | ⟨hv, _ | ⟨hc, -⟩⟩ := hR
    exact .store hv hc
  case phi.phi =>
    rw [Form.operands, Form.operands, List.forall₂_map_left_iff, List.forall₂_map_right_iff] at hR
    rw [Form.blocks, Form.blocks, List.forall₂_map_left_iff, List.forall₂_map_right_iff] at hS
    exact .phi (List.forall₂_iff_zip.2 ⟨hR.length_eq, fun hmem =>
      ⟨List.forall₂_zip hR hmem, List.forall₂_zip hS hmem⟩⟩)
  case select.select =>
    obtain _ | ⟨hc, _ | ⟨ht, _ | ⟨he, -⟩⟩⟩ := hR
    exact .select hc ht he
  case call.call callee vs callee' ws =>
    obtain rfl := (Form.call.inj h).1
    exact .call callee hR
  case br.br c bs c' cs =>
    cases c <;> cases c'
    · exact .jump hS
    · cases hR
    · cases hR
    · obtain _ | ⟨hv, -⟩ := hR
      exact .branch hv hS
  case ret.ret v w =>
    cases v <;> cases w
    · exact .leave
    · cases hR
    · cases hR
    · obtain _ | ⟨hv, -⟩ := hR
      exact .ret hv
  case unreachable.unreachable => exact .unreachable

theorem callee? (h : Rel R S a b) : a.callee? = b.callee? := by cases h <;> rfl

theorem isPhi (h : Rel R S a b) : a.isPhi = b.isPhi := by cases h <;> rfl

theorem isTerminator (h : Rel R S a b) : a.isTerminator = b.isTerminator := by cases h <;> rfl

theorem imp (h : Rel R S a b) (hR : ∀ v w, R v w → R' v w) (hS : ∀ b c, S b c → S' b c) :
    Rel R' S' a b :=
  of_skeleton h.skeleton (h.operands.imp hR) (h.blocks.imp hS)

end Rel

end BoxFlow.Form
