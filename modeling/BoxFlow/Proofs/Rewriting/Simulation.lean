import BoxFlow.Proofs.Rewriting.Justified
import BoxFlow.Proofs.Rewriting.Mirrors

/-!
# Rewritten functions do the same

Where every fate is justified and no operand is the result of an arithmetic call, each move of the
function is mirrored by steps of the rewritten function (`Rewriting.mirror`): a dropped call is no
step, and a copied one is two. So every run is mirrored (`Rewriting.mirror_reaches`), and there are
no other runs, unless the function gets stuck (`Rewriting.reaches_mirror`).
-/

namespace BoxFlow

open Relation (ReflTransGen TransGen)

/-! ## Moves -/

namespace Rewriting

open Machine

/-- What the rewritten function does where the function makes one move: it makes moves until it is
in the same state, or none at all, and then there is less to go. -/
def Mirrored (p : Program) (o : Options) (φ : Fates) (s : RewriteState) (w : World)
    (m m' n : Machine) : Prop :=
  ∃ n', Mirrors p φ m' n' ∧ (TransGen (fun m n => m.step s.program o w = some n) n n' ∨
    n' = n ∧ m'.rest.length < m.rest.length)

variable {p : Program} {o : Options} {a : Analysis} {φ : Fates} {s : RewriteState} {w : World}
  {m n m' n' : Machine} {i r t : InstId} {rest : List InstId} {u v : Value} {x : Datum}
  {act : Action} {b : BlockId} {l : Literal}
  (h : Rewriting p a o.names (Fate.Justified p o a.func) φ [] s)
  (ha : a.Classifies p o) (hops : p.Grounded a.func) (harith : p.IgnoresArithmetic o a.func)
include h ha hops harith

/-- An operand that has a value keeps it. -/
theorem eval_operand (hm : Reaches p o w a.func m) (hmn : Agrees p φ m n)
    (hi : i ∈ p.instructions a.func) (hmem : v ∈ (p.inst i).op.operands)
    (hx : m.eval w v = some x) : n.eval w ((φ.layout []).subst v) = some x := by
  cases v with
  | literal | param | global => exact hx
  | inst j =>
    have hignored {handle y z : Value} : ¬a.Arithmetic p j handle y z := fun hj => by
      obtain ⟨callee, args, hop⟩ := hj.op
      have hnot := harith i hi j hmem callee (by rw [hop]; rfl)
      rcases hj.kind with hk | hk
      · exact hnot.1 ((ha.kinds hj.mem hop).symm.trans hk)
      · exact hnot.2 ((ha.kinds hj.mem hop).symm.trans hk)
    have hfits := h.fits j
    cases hfate : φ j with
    | kept =>
      rw [Fates.subst_of_literal?_eq_none (by rw [hfate]; rfl)]
      exact (hmn.env (hops i hi j hmem) hfate).trans hx
    | dropped l =>
      have hsubst : (φ.layout []).subst (.inst j) = .literal l := Fates.subst_dropped hfate
      rw [hsubst, h.eval_of_literal hm hsubst hx]
      rfl
    | written =>
      rw [hfate] at hfits
      obtain ⟨_, _, _, hwrong, -⟩ := hfits
      exact absurd hwrong hignored
    | copied =>
      rw [hfate] at hfits
      obtain ⟨_, _, _, hwrong, -⟩ := hfits
      exact absurd hwrong hignored

variable (hp : p.Linked)
include hp

theorem mirror_kept (hm : Reaches p o w a.func m) (hmn : Mirrors p φ m n) (hx : φ i = .kept)
    (hrest : m.rest = i :: rest) (hact : m.action o w (p.inst i).op = some act) :
    Mirrored p o φ s w m { m.perform w i act with rest } n := by
  have hi := mem_instructions_of_reaches hp hm hrest
  have hnact : n.action o w (s.program.inst i).op = some act := by
    rw [h.op_of_kept hi (.inl hx)]
    exact action_map hmn.heap hmn.trace
      (fun v hmem x => h.eval_operand ha hops harith hm hmn.toAgrees hi hmem) hact
  have hstep := step_act (hmn.rest_of_kept hx hrest) hnact
  exact ⟨_, (hmn.perform i act).mirrors rest, .inl (.single hstep)⟩

omit ha hops harith hp in
/-- A `read` that is dropped has yielded what its uses are by now. -/
theorem mirror_dropped (hm : Reaches p o w a.func m) (hmn : Mirrors p φ m n)
    (hx : φ i = .dropped l) (hrest : m.rest = i :: rest)
    (hact : m.action o w (p.inst i).op = some act) :
    Mirrored p o φ s w m { m.perform w i act with rest } n := by
  have hj := h.justified i (by simp [hx])
  rw [hx] at hj
  obtain rfl := hj hm hrest hact
  have hnrest : n.rest = rest.flatMap (φ.layout []).segment := by
    rw [hmn.rest_of_gone (by simp [hx]) hrest, hx]
    rfl
  have hmirrors := (hmn.assign_left (i := i) (by simp [hx]) (.int (.ofInt 64 l.value))).mirrors rest
  rw [← hnrest] at hmirrors
  exact ⟨n, hmirrors, .inr ⟨rfl, by simp [hrest]⟩⟩

/-- An arithmetic call that is replaced sets its handle to what has always come of it. -/
theorem mirror_written (hm : Reaches p o w a.func m) (hmn : Mirrors p φ m n)
    (hx : φ i = .written r l) (hrest : m.rest = i :: rest)
    (hact : m.action o w (p.inst i).op = some act) :
    Mirrored p o φ s w m { m.perform w i act with rest } n := by
  have hi := mem_instructions_of_reaches hp hm hrest
  have hr := (h.lt_of_mem_code (i := i) (j := r) (by simp [hx, Fate.code])).1
  have hfits := h.fits i
  have hj := h.justified i (by simp [hx])
  rw [hx] at hfits hj
  obtain ⟨handle, y, z, hcall, hwrite⟩ := hfits
  obtain ⟨callee, args, hop⟩ := hcall.op
  obtain ⟨g, _, _, k, _, _, result, hhandle, hg, -, -, -, -, rfl⟩ := hcall.action ha hact
  obtain ⟨_, _, heq⟩ := hj hm hrest hact
  obtain ⟨rfl, hk, rfl⟩ := Action.set.inj heq
  rw [hk]
  have hnrest : n.rest = r :: rest.flatMap (φ.layout []).segment := by
    rw [hmn.rest_of_gone (by simp [hx]) hrest, hx]
    rfl
  have hnhandle := h.eval_operand ha hops harith hm hmn.toAgrees hi
    (by rw [hop]; exact List.mem_cons_self) hhandle
  obtain ⟨x, hnact⟩ := action_write (o := o) (by rw [← h.names]; exact hwrite.op) hnhandle
    (v := .literal l) rfl (hmn.heap ▸ hg)
  exact ⟨_, (hmn.set (by simp [hx]) hr g _ result x).mirrors rest,
    .inl (.single (step_act hnrest hnact))⟩

/-- One that is replaced by a copy sets its handle to what is read first. -/
theorem mirror_copied (hm : Reaches p o w a.func m) (hmn : Mirrors p φ m n)
    (hx : φ i = .copied r t u) (hrest : m.rest = i :: rest)
    (hact : m.action o w (p.inst i).op = some act) :
    Mirrored p o φ s w m { m.perform w i act with rest } n := by
  have hi := mem_instructions_of_reaches hp hm hrest
  have hr := (h.lt_of_mem_code (i := i) (j := r) (by simp [hx, Fate.code])).1
  have ht := (h.lt_of_mem_code (i := i) (j := t) (by simp [hx, Fate.code])).1
  have hfits := h.fits i
  have hj := h.justified i (by simp [hx])
  rw [hx] at hfits hj
  obtain ⟨handle, y, z, hcall, hu, hread, hwrite⟩ := hfits
  obtain ⟨callee, args, hop⟩ := hcall.op
  obtain ⟨g, _, _, k, _, _, result, hhandle, hg, -, -, -, -, rfl⟩ := hcall.action ha hact
  obtain ⟨_, g', x, _, hsource, hg', heq⟩ := hj hm hrest hact
  obtain ⟨rfl, hk, rfl⟩ := Action.set.inj heq
  rw [hk]
  have hmem : u ∈ (p.inst i).op.operands := by
    rw [hop]
    rcases hu with rfl | rfl <;> simp [Form.operands]
  have hnrest : n.rest = r :: t :: rest.flatMap (φ.layout []).segment := by
    rw [hmn.rest_of_gone (by simp [hx]) hrest, hx]
    rfl
  -- The `read` first, whose result nothing else uses.
  have hnread : n.action o w (s.program.inst r).op = some (.yield (.int x)) :=
    action_read (by rw [← h.names]; exact hread.op)
      (h.eval_operand ha hops harith hm hmn.toAgrees hi hmem hsource) (hmn.heap ▸ hg')
  have hbetween : Agrees p φ m (n.assign r (.int x)) := hmn.assign_right hr _
  have hhandle' := h.eval_operand ha hops harith hm hbetween hi
    (by rw [hop]; exact List.mem_cons_self) hhandle
  have hvalue : (n.assign r (.int x)).eval w (.inst r) = some (.int x) := Function.update_self ..
  obtain ⟨y, hnwrite⟩ := action_write (o := o) (by rw [← h.names]; exact hwrite.op) hhandle' hvalue
    (hmn.heap ▸ hg)
  have hfirst := step_act hnrest hnread
  have hsecond := step_act (m := { n.assign r (.int x) with
    rest := t :: rest.flatMap (φ.layout []).segment }) (i := t) rfl hnwrite
  exact ⟨_, (hbetween.set (by simp [hx]) ht g x result y).mirrors rest,
    .inl (.tail (.single hfirst) hsecond)⟩

theorem mirror_jump {c : Option Value} {targets : List BlockId} (hm : Reaches p o w a.func m)
    (hmn : Mirrors p φ m n) (hrest : m.rest = i :: rest) (hop : (p.inst i).op = .br c targets)
    (ht : m.target? w c targets = some b) (hent : m.enter p w b = some m') :
    Mirrored p o φ s w m m' n := by
  have hi := mem_instructions_of_reaches hp hm hrest
  have hx := h.kept_of_not_isCall (i := i) (by rw [hop]; rfl)
  obtain ⟨hblock, hsub⟩ := reaches_within hp hm
  have hb := hp.successor_within hblock
    (flows_of_target hp hblock (hsub (hrest ▸ List.mem_cons_self)) hop ht)
  obtain ⟨hin, rfl⟩ := enter_eq_some hent
  have heval {j : InstId} (hj : j ∈ p.instructions a.func) (v : Value)
      (hv : v ∈ (p.inst j).op.operands) (x : Datum) (hx : m.eval w v = some x) :
      n.eval w ((φ.layout []).subst v) = some x :=
    h.eval_operand ha hops harith hm hmn.toAgrees hj hv hx
  have hnop : (s.program.inst i).op = .br (c.map (φ.layout []).subst) targets := by
    rw [h.op_of_kept hi (.inl hx), hop]
    show Form.br _ (targets.map id) = _
    rw [List.map_id]
  have hnt : n.target? w (c.map (φ.layout []).subst) targets = some b :=
    target_map (fun v hv => heval hi v (by rw [hop]; exact Option.mem_toList.2 hv)) ht
  -- The phis of the block are kept, and take what they have taken.
  have hphi {j : InstId} (hj : j ∈ p.phis b) : j ∈ p.instructions a.func ∧ φ j = .kept := by
    obtain ⟨hj, hphi⟩ := List.mem_filter.1 hj
    refine ⟨List.mem_flatMap.2 ⟨b, hb, hj⟩, h.kept_of_not_isCall ?_⟩
    cases hop : (p.inst j).op with
    | call => rw [hop] at hphi; cases hphi
    | _ => rfl
  have hnin {j : InstId} (hj : j ∈ p.phis b) :
      n.incoming? w (s.program.inst j).op = m.incoming? w (p.inst j).op := by
    obtain ⟨x, hx⟩ := hin j hj
    rw [h.op_of_kept (hphi hj).1 (.inl (hphi hj).2), hx]
    exact incoming_map hmn.block (heval (hphi hj).1) hx
  have hnent := enter_of_incoming (p := s.program) (m := n) (w := w) (b := b) fun j hj => by
    rw [h.phis_eq hb] at hj
    rw [hnin hj]
    exact hin j hj
  have hnrest := hmn.rest_of_kept hx hrest
  refine ⟨_, ?_, .inl (.single (step_eq_some_iff.2 (.jump hnrest hnop hnt hnent)))⟩
  refine ⟨⟨rfl, hmn.heap, hmn.trace, hmn.result, fun {j} hj hkept => ?_⟩, h.body_eq hb⟩
  dsimp only
  rw [h.phis_eq hb]
  split
  · exact hnin (by assumption)
  · exact hmn.env hj hkept

theorem mirror_ret {v : Option Value} {x : Option Datum} (hm : Reaches p o w a.func m)
    (hmn : Mirrors p φ m n) (hrest : m.rest = i :: rest) (hop : (p.inst i).op = .ret v)
    (hx : v.mapM (m.eval w) = some x) :
    Mirrored p o φ s w m { m with rest := [], result := some x } n := by
  have hi := mem_instructions_of_reaches hp hm hrest
  have hkept := h.kept_of_not_isCall (i := i) (by rw [hop]; rfl)
  have hnrest := hmn.rest_of_kept hkept hrest
  have hnop : (s.program.inst i).op = .ret (v.map (φ.layout []).subst) := by
    rw [h.op_of_kept hi (.inl hkept), hop]
    rfl
  have hnx : (v.map (φ.layout []).subst).mapM (n.eval w) = some x :=
    mapM_eval (fun u hu y => h.eval_operand ha hops harith hm hmn.toAgrees hi
      (by rw [hop]; exact Option.mem_toList.2 hu)) hx
  refine ⟨_, ?_, .inl (.single (step_eq_some_iff.2 (.ret hnrest hnop hnx)))⟩
  exact ⟨⟨hmn.block, hmn.heap, hmn.trace, rfl, hmn.env⟩, rfl⟩

/-- Whatever the function does next is mirrored. -/
theorem mirror (hm : Reaches p o w a.func m) (hmn : Mirrors p φ m n) (hmove : Move p o w m m') :
    Mirrored p o φ s w m m' n := by
  cases hmove with
  | @act i rest act hrest hact =>
    cases hx : φ i with
    | kept => exact h.mirror_kept ha hops harith hp hm hmn hx hrest hact
    | dropped => exact h.mirror_dropped hm hmn hx hrest hact
    | written => exact h.mirror_written ha hops harith hp hm hmn hx hrest hact
    | copied => exact h.mirror_copied ha hops harith hp hm hmn hx hrest hact
  | jump hrest hop ht hent => exact h.mirror_jump ha hops harith hp hm hmn hrest hop ht hent
  | ret hrest hop hx => exact h.mirror_ret ha hops harith hp hm hmn hrest hop hx

omit ha hops harith hp in
theorem mirror_start (hm : Machine.start p w a.func = some m) :
    ∃ n, Machine.start s.program w a.func = some n ∧ Mirrors p φ m n := by
  obtain ⟨b, hb, rfl⟩ := Option.map_eq_some_iff.1 hm
  have hentry : s.program.entry? a.func = some b := by
    rw [Program.entry?, h.program.funcs]
    exact hb
  refine ⟨_, Option.map_eq_some_iff.2 ⟨b, hentry, rfl⟩, ⟨⟨rfl, rfl, rfl, rfl, fun _ _ => rfl⟩, ?_⟩⟩
  exact h.body_eq (List.mem_of_head? hb)

/-! ## Runs -/

/-- Every run is mirrored. -/
theorem mirror_reaches (hm : Reaches p o w a.func m) :
    ∃ n, Reaches s.program o w a.func n ∧ Mirrors p φ m n := by
  refine hm.induction (P := fun m => ∃ n, Reaches s.program o w a.func n ∧ Mirrors p φ m n) ?_ ?_
  · intro m hs
    obtain ⟨n, hn, hmn⟩ := h.mirror_start hs
    exact ⟨n, .start hn, hmn⟩
  · rintro m m' hm ⟨n, hn, hmn⟩ hmove
    obtain ⟨n', hmn', hsteps | ⟨rfl, -⟩⟩ := h.mirror ha hops harith hp hm hmn hmove
    · exact ⟨n', hn.leads hsteps.to_reflTransGen, hmn'⟩
    · exact ⟨n', hn, hmn'⟩

/-- Where the rewritten function makes a step, it is on its way to where the function comes. -/
theorem mirror_step (hsafe : ∀ {m}, Reaches p o w a.func m → ¬m.Stuck p o w)
    (hm : Reaches p o w a.func m) (hmn : Mirrors p φ m n) (hn : n.step s.program o w = some n') :
    ∃ m' k, Reaches p o w a.func m' ∧ Mirrors p φ m' k ∧ Leads s.program o w n' k := by
  -- Only finitely many moves of the function come without a step.
  induction hlen : m.rest.length using Nat.strong_induction_on generalizing m with
  | _ len ih =>
    have hne : m.rest ≠ [] := by
      rintro heq
      obtain ⟨_, _, hrest⟩ := rest_of_step hn
      rw [hmn.rest, heq] at hrest
      cases hrest
    obtain ⟨m', hmove⟩ := exists_move hne (hsafe hm)
    obtain ⟨k, hk, hsteps | ⟨rfl, hlt⟩⟩ := h.mirror ha hops harith hp hm hmn hmove
    · refine ⟨m', k, .step hm (step_eq_some_iff.2 hmove), hk, ?_⟩
      obtain ⟨n'', hfirst, hleads⟩ := TransGen.head'_iff.1 hsteps
      rw [hn] at hfirst
      cases hfirst
      exact hleads
    · exact ih _ (hlen ▸ hlt) (.step hm (step_eq_some_iff.2 hmove)) hk rfl

/-- Every run of the rewritten function is on its way to where the function comes. -/
theorem reaches_mirror (hsafe : ∀ {m}, Reaches p o w a.func m → ¬m.Stuck p o w)
    (hn : Reaches s.program o w a.func n) :
    ∃ m k, Reaches p o w a.func m ∧ Mirrors p φ m k ∧ Leads s.program o w n k := by
  induction hn with
  | @start n hs =>
    obtain ⟨b, hb, -⟩ := Option.map_eq_some_iff.1 hs
    have hentry : p.entry? a.func = some b := by
      rw [Program.entry?, ← h.program.funcs]
      exact hb
    have hstart : Machine.start p w a.func = some _ := Option.map_eq_some_iff.2 ⟨b, hentry, rfl⟩
    obtain ⟨k, hk, hmn⟩ := h.mirror_start hstart
    rw [hs] at hk
    cases hk
    exact ⟨_, n, .start hstart, hmn, .refl⟩
  | @step n n' _ hstep ih =>
    obtain ⟨m, k, hm, hmk, hleads⟩ := ih
    rcases ReflTransGen.cases_head hleads with rfl | ⟨n'', hfirst, hleads⟩
    · exact h.mirror_step ha hops harith hp hsafe hm hmk hstep
    · rw [hstep] at hfirst
      cases hfirst
      exact ⟨m, k, hm, hmk, hleads⟩

end Rewriting

end BoxFlow
