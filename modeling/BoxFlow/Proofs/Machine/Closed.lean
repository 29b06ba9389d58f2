import BoxFlow.Proofs.Machine.Runs

/-!
# Runs of closed functions

Where a run is (`reaches_within`, `reaches_located`), which instructions it has passed
(`reaches_passed`), and that a closed function sees no handle and no cell but those that it has made
(`reaches_proper`).
-/

namespace BoxFlow

open Relation (TransGen)

/-- Is it a parameter or a global? -/
def Value.isOutside : Value → Bool
  | .param _ | .global _ => true
  | _ => false

/-- Nothing of the outside gets into the function: it mentions no parameter and no global, and makes
no call of unknown effect. -/
structure Program.Closed (p : Program) (o : Options) (f : FuncId) : Prop where
  operands : ∀ i ∈ p.instructions f, ∀ v ∈ (p.inst i).op.operands, v.isOutside = false
  calls : ∀ i ∈ p.instructions f, ∀ callee ∈ (p.inst i).op.callee?, o.kindOf callee ≠ .opaqueCall

instance (p : Program) (o : Options) (f : FuncId) : Decidable (p.Closed o f) :=
  decidable_of_iff ((∀ i ∈ p.instructions f, ∀ v ∈ (p.inst i).op.operands, v.isOutside = false) ∧
      ∀ i ∈ p.instructions f, ∀ callee ∈ (p.inst i).op.callee?, o.kindOf callee ≠ .opaqueCall)
    ⟨fun h => ⟨h.1, h.2⟩, fun h => ⟨h.operands, h.calls⟩⟩

/-- The operands of a closed function are literals and results. -/
theorem Program.Closed.literal_or_inst {p : Program} {o : Options} {f : FuncId} {i : InstId}
    {v : Value} (hc : p.Closed o f) (hi : i ∈ p.instructions f)
    (hv : v ∈ (p.inst i).op.operands) : v.isLiteral = true ∨ ∃ j, v = .inst j := by
  have hout := hc.operands i hi v hv
  cases v with
  | literal => exact .inl rfl
  | inst j => exact .inr ⟨j, rfl⟩
  | param | global => cases hout

/-- Control may go from one block to the other. -/
def Program.Flows (p : Program) (b d : BlockId) : Prop := d ∈ p.successorBlocks b

namespace Machine

variable {p : Program} {o : Options} {w : World} {f : FuncId} {m n : Machine} {i j : InstId}
  {rest pre pre' : List InstId} {x : Datum} {b d : BlockId}

/-! ## Where a run is -/

/-- The machine has done the instructions `pre` of its block. -/
structure Located (p : Program) (f : FuncId) (m : Machine) (pre : List InstId) : Prop where
  block : m.block ∈ (p.func f).blocks
  insts : (p.block m.block).insts = pre ++ m.rest

theorem Located.mem_instructions (h : Located p f m pre) (hr : m.rest = i :: rest) :
    i ∈ p.instructions f :=
  List.mem_flatMap.2 ⟨m.block, h.block, by rw [h.insts, hr]; simp⟩

theorem Located.unique (h : Located p f m pre) (h' : Located p f m pre') : pre' = pre :=
  List.append_cancel_right (h'.insts.symm.trans h.insts)

theorem perform_block (i : InstId) (a : Action) : (m.perform w i a).block = m.block := by
  cases a <;> rfl

/-- An instruction that acts is done. -/
theorem Located.perform (h : Located p f m pre) (hr : m.rest = i :: rest) (a : Action) :
    Located p f { m.perform w i a with rest } (pre ++ [i]) :=
  ⟨by rw [perform_block]; exact h.block, by rw [perform_block, h.insts, hr]; simp⟩

/-- A branch goes to a successor. -/
theorem flows_of_target {c : Option Value} {targets : List BlockId} (hp : p.Linked)
    (hm : m.block ∈ (p.func f).blocks) (hi : i ∈ (p.block m.block).insts)
    (hop : (p.inst i).op = .br c targets) (ht : m.target? w c targets = some b) :
    p.Flows m.block b := by
  have hedge {e : Edge} (he : e ∈ Program.branchEdges m.block (p.inst i).op) :
      p.Flows m.block e.target :=
    List.mem_map.2 ⟨e, (hp.edges hm).2 ⟨i, hi, he⟩, rfl⟩
  rw [hop] at hedge
  cases c with
  | none =>
    cases targets with
    | nil => cases ht
    | cons t ts =>
      cases ht
      exact hedge (e := ⟨m.block, b, .fallThrough⟩) (by simp [Program.branchEdges])
  | some c =>
    unfold target? at ht
    dsimp only at ht
    split at ht
    · cases targets with
      | nil => simp at ht
      | cons t ts =>
        split at ht
        · cases ht
          exact hedge (e := ⟨m.block, b, .branchTrue⟩) (by simp [Program.branchEdges])
        · cases ts with
          | nil => cases ht
          | cons e ts =>
            cases ht
            exact hedge (e := ⟨m.block, b, .branchFalse⟩) (by simp [Program.branchEdges])
    · cases ht

/-- Control stays within the function, and what is left to do belongs to the block it is in. -/
theorem reaches_within (hp : p.Linked) (h : Reaches p o w f m) :
    m.block ∈ (p.func f).blocks ∧ m.rest ⊆ (p.block m.block).insts := by
  have hbody (b : BlockId) : p.body b ⊆ (p.block b).insts := fun _ hi => (List.mem_filter.1 hi).1
  refine h.induction (P := fun m =>
    m.block ∈ (p.func f).blocks ∧ m.rest ⊆ (p.block m.block).insts) ?_ ?_
  · intro m hs
    obtain ⟨b, hb, rfl⟩ := Option.map_eq_some_iff.1 hs
    exact ⟨List.mem_of_head? hb, hbody b⟩
  · rintro m n - ⟨hblock, hrest⟩ hmove
    cases hmove with
    | @act i rest a hr _ =>
      rw [perform_block]
      exact ⟨hblock, fun j hj => hrest (hr ▸ List.mem_cons_of_mem _ hj)⟩
    | @jump i rest c targets b _ hr hop ht hn =>
      obtain ⟨-, rfl⟩ := enter_eq_some hn
      have hflow := flows_of_target hp hblock (hrest (hr ▸ List.mem_cons_self)) hop ht
      exact ⟨hp.successor_within hblock hflow, hbody b⟩
    | ret => exact ⟨hblock, List.nil_subset _⟩

/-- A run acts by instructions of the function. -/
theorem mem_instructions_of_reaches (hp : p.Linked) (h : Reaches p o w f m)
    (hr : m.rest = i :: rest) : i ∈ p.instructions f := by
  obtain ⟨hblock, hrest⟩ := reaches_within hp h
  exact List.mem_flatMap.2 ⟨m.block, hblock, hrest (hr ▸ List.mem_cons_self)⟩

theorem Located.flows {c : Option Value} {targets : List BlockId} (hm : Located p f m pre)
    (hp : p.Linked) (hr : m.rest = i :: rest) (hop : (p.inst i).op = .br c targets)
    (ht : m.target? w c targets = some b) : p.Flows m.block b :=
  flows_of_target hp hm.block (by rw [hm.insts, hr]; simp) hop ht

theorem located_enter (hp : p.Linked) (hv : p.verify f = []) (hb : b ∈ (p.func f).blocks)
    (hblock : n.block = b) (hrest : n.rest = p.body b) : Located p f n (p.phis b) := by
  subst hblock
  exact ⟨hb, by rw [hrest]; exact Program.insts_eq_phis_append hp hv hb⟩

theorem reaches_located (hp : p.Linked) (hv : p.verify f = []) (h : Reaches p o w f m) :
    ∃ pre, Located p f m pre := by
  refine h.induction (P := fun m => ∃ pre, Located p f m pre) ?_ ?_
  · intro m hs
    obtain ⟨b, hb, rfl⟩ := Option.map_eq_some_iff.1 hs
    exact ⟨_, located_enter hp hv (Program.predecessors_entry hv hb).1 rfl rfl⟩
  · rintro m n - ⟨pre, hm⟩ hmove
    cases hmove with
    | act hr _ => exact ⟨_, hm.perform hr _⟩
    | @jump i rest c targets b _ hr hop ht hn =>
      obtain ⟨-, rfl⟩ := enter_eq_some hn
      exact ⟨_, located_enter hp hv
        (hp.successor_within hm.block (hm.flows hp hr hop ht)) rfl rfl⟩
    | ret => exact ⟨(p.block m.block).insts, hm.block, by simp⟩

/-! ## What a run has passed -/

/-- Every result comes from an instruction done in this visit of the block, or in a block that
control has left since. -/
def Passed (p : Program) (m : Machine) (pre : List InstId) : Prop :=
  ∀ i, m.env i ≠ none → i ∈ pre ∨ ∃ d, i ∈ (p.block d).insts ∧ TransGen p.Flows d m.block

theorem env_perform_of_ne (a : Action) (hij : j ≠ i) : (m.perform w i a).env j = m.env j := by
  cases a <;> first | rfl | exact Function.update_of_ne hij ..

theorem Passed.perform (h : Passed p m pre) (a : Action) :
    Passed p { m.perform w i a with rest } (pre ++ [i]) := by
  intro j hj
  rw [perform_block]
  by_cases hij : j = i
  · exact .inl (by simp [hij])
  · refine (h j ?_).imp_left (List.mem_append_left _)
    rwa [← env_perform_of_ne (w := w) a hij]

theorem Passed.enter (hm : Located p f m pre) (h : Passed p m pre) (hflow : p.Flows m.block b)
    (hn : m.enter p w b = some n) : Passed p n (p.phis b) := by
  obtain ⟨-, rfl⟩ := enter_eq_some hn
  intro i hi
  dsimp only at hi
  split at hi
  · next hphi => exact .inl hphi
  · right
    rcases h i hi with hpre | ⟨d, hid, hd⟩
    · exact ⟨m.block, by rw [hm.insts]; exact List.mem_append_left _ hpre, .single hflow⟩
    · exact ⟨d, hid, hd.tail hflow⟩

theorem reaches_passed (hp : p.Linked) (hv : p.verify f = []) (h : Reaches p o w f m) :
    ∀ pre, Located p f m pre → Passed p m pre := by
  refine h.induction (P := fun m => ∀ pre, Located p f m pre → Passed p m pre) ?_ ?_
  · intro m hs pre _ i hi
    obtain ⟨b, -, rfl⟩ := Option.map_eq_some_iff.1 hs
    exact absurd rfl hi
  · intro m n hreach ih hmove pre' hn
    obtain ⟨pre, hm⟩ := reaches_located hp hv hreach
    cases hmove with
    | act hr _ =>
      obtain rfl := (hm.perform hr _).unique hn
      exact (ih pre hm).perform _
    | @jump i rest c targets b _ hr hop ht hent =>
      have hpass := (ih pre hm).enter hm (hm.flows hp hr hop ht) hent
      obtain ⟨-, rfl⟩ := enter_eq_some hent
      obtain rfl := (located_enter hp hv hn.block rfl rfl).unique hn
      exact hpass
    | ret =>
      intro j hj
      refine (ih pre hm j hj).imp_left fun hpre => ?_
      have := hn.insts
      rw [hm.insts] at this
      rw [← List.append_nil pre', ← this]
      exact List.mem_append_left _ hpre

/-- An instruction that comes up with a result it has had already lies on a cycle. -/
theorem cycle_of_passed (hp : p.Linked) (hm : Located p f m pre) (hr : m.rest = i :: rest)
    (h : Passed p m pre) (hi : m.env i ≠ none) : TransGen p.Flows m.block m.block := by
  have hmem : i ∈ (p.block m.block).insts := by rw [hm.insts, hr]; simp
  rcases h i hi with hpre | ⟨d, hid, hd⟩
  · have hnodup := hp.nodup (b := m.block)
    rw [hm.insts, hr] at hnodup
    exact absurd rfl ((List.nodup_append.1 hnodup).2.2 i hpre i List.mem_cons_self)
  · obtain rfl : d = m.block := Option.some.inj ((hp.held hid).symm.trans (hp.held hmem))
    exact hd

/-- So does a phi that is about to take another value. -/
theorem cycle_of_phi (hp : p.Linked) (hm : Located p f m pre) (hflow : p.Flows m.block b)
    (h : Passed p m pre) (hi : i ∈ p.phis b) (hres : m.env i ≠ none) : TransGen p.Flows b b := by
  have hmem : i ∈ (p.block b).insts := (List.mem_filter.1 hi).1
  rcases h i hres with hpre | ⟨d, hid, hd⟩
  · have hmem' : i ∈ (p.block m.block).insts := by
      rw [hm.insts]; exact List.mem_append_left _ hpre
    rw [← Option.some.inj ((hp.held hmem').symm.trans (hp.held hmem))] at hflow ⊢
    exact .single hflow
  · rw [← Option.some.inj ((hp.held hid).symm.trans (hp.held hmem))] at hflow ⊢
    exact hd.tail hflow

/-! ## What a run has made -/

/-- Made in the run, if it is a handle or an address. -/
def Made (w : World) (m : Machine) : Datum → Prop
  | .int _ => True
  | .handle h => w.heap.objects.length ≤ h ∧ h < m.heap.objects.length
  | .cell c => w.heap.cells.length ≤ c ∧ c < m.heap.cells.length

/-- The function has got hold of nothing but what it has made, and it has set what it has made. -/
structure Proper (w : World) (m : Machine) : Prop where
  env : ∀ {i x}, m.env i = some x → m.Made w x
  cells : ∀ {c x}, w.heap.cells.length ≤ c → m.heap.cells[c]? = some (some x) → m.Made w x
  setter : ∀ {h}, w.heap.objects.length ≤ h → h < m.heap.objects.length → m.setter h ≠ none
  objects_le : w.heap.objects.length ≤ m.heap.objects.length
  cells_le : w.heap.cells.length ≤ m.heap.cells.length

theorem Made.mono (h : m.Made w x) (ho : m.heap.objects.length ≤ n.heap.objects.length)
    (hc : m.heap.cells.length ≤ n.heap.cells.length) : n.Made w x := by
  cases x with
  | int => trivial
  | handle => exact ⟨h.1, Nat.lt_of_lt_of_le h.2 ho⟩
  | cell => exact ⟨h.1, Nat.lt_of_lt_of_le h.2 hc⟩

theorem assign_env {y : Datum} :
    (m.assign i x).env j = some y ↔ j = i ∧ x = y ∨ j ≠ i ∧ m.env j = some y := by
  by_cases hij : j = i
  · simp [Machine.assign, hij]
  · simp [Machine.assign, hij]

theorem Proper.assign (h : m.Proper w) (hx : m.Made w x) (i : InstId) :
    (m.assign i x).Proper w where
  env {j y} hy := by
    rcases assign_env.1 hy with ⟨-, rfl⟩ | ⟨-, hy⟩
    · exact hx
    · exact h.env hy
  cells := h.cells
  setter := h.setter
  objects_le := h.objects_le
  cells_le := h.cells_le

/-- What has been made in the run may be changed, and more be made. -/
theorem Proper.grow (h : m.Proper w) (henv : n.env = m.env)
    (ho : m.heap.objects.length ≤ n.heap.objects.length)
    (hc : m.heap.cells.length ≤ n.heap.cells.length)
    (hcells : ∀ {c : Nat} {x}, n.heap.cells[c]? = some (some x) →
      m.heap.cells[c]? = some (some x) ∨ m.Made w x)
    (hset : ∀ {g}, g < n.heap.objects.length →
      n.setter g ≠ none ∨ g < m.heap.objects.length ∧ n.setter g = m.setter g) : n.Proper w where
  env hx := (h.env (henv ▸ hx)).mono ho hc
  cells hle hx := (hcells hx).elim (fun hx => (h.cells hle hx).mono ho hc) fun hx => hx.mono ho hc
  setter hle hlt := by
    rcases hset hlt with hne | ⟨hlt, heq⟩
    · exact hne
    · rw [heq]
      exact h.setter hle hlt
  objects_le := Nat.le_trans h.objects_le ho
  cells_le := Nat.le_trans h.cells_le hc

/-- What the invariant does not speak of may be changed. -/
theorem Proper.congr (h : m.Proper w) (henv : n.env = m.env) (hheap : n.heap = m.heap)
    (hset : n.setter = m.setter) : n.Proper w :=
  h.grow henv (Nat.le_of_eq (by rw [hheap])) (Nat.le_of_eq (by rw [hheap]))
    (fun hx => .inl (hheap ▸ hx)) fun hlt => .inr ⟨hheap ▸ hlt, congrFun hset _⟩

theorem made_of_eval (hc : p.Closed o f) (hi : i ∈ p.instructions f) (hm : m.Proper w) {v : Value}
    (hv : v ∈ (p.inst i).op.operands) (hx : m.eval w v = some x) : m.Made w x := by
  rcases hc.literal_or_inst hi hv with hlit | ⟨j, rfl⟩
  · cases v with
    | literal l => cases hx; trivial
    | _ => cases hlit
  · exact hm.env hx

/-- The actions that take nothing but what has been made. -/
def MadeAction (w : World) (m : Machine) : Action → Prop
  | .yield x => m.Made w x
  | .fill c x => m.Made w (.cell c) ∧ m.Made w x
  | .set h _ _ => m.Made w (.handle h)
  | .leave _ => False
  | _ => True

theorem made_of_action {a : Action} (hc : p.Closed o f) (hi : i ∈ p.instructions f)
    (hm : m.Proper w) (ha : m.action o w (p.inst i).op = some a) : m.MadeAction w a := by
  have hmade {v : Value} {x : Datum} (hv : v ∈ (p.inst i).op.operands)
      (hx : m.eval w v = some x) : m.Made w x := made_of_eval hc hi hm hv hx
  cases hop : (p.inst i).op with
  | alloca => rw [hop] at ha; cases ha; trivial
  | load pointer =>
    rw [hop] at ha hmade
    obtain ⟨c, x, hptr, hcell, rfl⟩ := action_load.1 ha
    exact hm.cells (hmade List.mem_cons_self hptr).1 hcell
  | store value pointer =>
    rw [hop] at ha hmade
    obtain ⟨x, c, y, hval, hptr, -, rfl⟩ := action_store.1 ha
    exact ⟨hmade (by simp [Form.operands]) hptr, hmade (by simp [Form.operands]) hval⟩
  | select c t e =>
    rw [hop] at ha hmade
    obtain ⟨k, x, y, -, hx, hy, rfl⟩ := action_select.1 ha
    show m.Made w (if k ≠ 0 then x else y)
    split
    · exact hmade (by simp [Form.operands]) hx
    · exact hmade (by simp [Form.operands]) hy
  | call callee args =>
    have hkind := hc.calls i hi callee (by rw [hop]; rfl)
    rw [hop] at ha hmade
    obtain ⟨xs, hxs, ha⟩ := action_call.1 ha
    have hmem {x : Datum} (hx : x ∈ xs) : m.Made w x := by
      have : some x ∈ args.map (m.eval w) := by rw [hxs]; exact List.mem_map_of_mem hx
      obtain ⟨v, hv, hvx⟩ := List.mem_map.1 this
      exact hmade hv hvx
    unfold Machine.call at ha
    split at ha
    · cases operation_eq_some_iff.1 ha <;> first | trivial | exact hmem List.mem_cons_self
    · cases ha; trivial
    · exact absurd (by assumption) hkind
  | phi | br | ret | unreachable => rw [hop] at ha; cases ha

theorem Proper.perform {a : Action} (h : m.Proper w) (ha : m.MadeAction w a) (i : InstId) :
    (m.perform w i a).Proper w := by
  cases a with
  | yield x => exact h.assign ha i
  | leave e => exact ha.elim
  | report e =>
    exact Proper.assign (m := { m with trace := m.trace ++ [e] }) (h.congr rfl rfl rfl)
      (x := .int _) trivial i
  | alloc =>
    refine Proper.assign (m := { m with heap.cells := m.heap.cells ++ [none] })
      (h.grow rfl (Nat.le_refl _) (by simp) (fun {c x} hx => .inl ?_) fun hlt => .inr ⟨hlt, rfl⟩)
      (x := .cell _) ⟨h.cells_le, by simp⟩ i
    have hx : (m.heap.cells ++ [none])[c]? = some (some x) := hx
    rw [List.getElem?_append] at hx
    split at hx
    · exact hx
    · rw [List.getElem?_singleton] at hx
      split at hx <;> cases hx
  | fill c x =>
    refine h.grow rfl (Nat.le_refl _) (Nat.le_of_eq (List.length_set ..).symm) (fun {d y} hy => ?_)
      fun hlt => .inr ⟨hlt, rfl⟩
    have hy : (m.heap.cells.set c (some x))[d]? = some (some y) := hy
    rw [List.getElem?_set] at hy
    split at hy
    · split at hy
      · cases hy
        exact .inr ha.2
      · cases hy
    · exact .inl hy
  | create n =>
    refine Proper.assign (m := { m with
      heap.objects := m.heap.objects ++ [n]
      setter := Function.update m.setter m.heap.objects.length (some i) })
      (h.grow rfl (by simp) (Nat.le_refl _) .inl fun {g} hlt => ?_)
      (x := .handle _) ⟨h.objects_le, by simp⟩ i
    have hlt : g < (m.heap.objects ++ [n]).length := hlt
    by_cases heq : g = m.heap.objects.length
    · exact .inl (by simp [heq])
    · rw [List.length_append, List.length_singleton] at hlt
      exact .inr ⟨by omega, Function.update_of_ne heq ..⟩
  | set g n r =>
    refine Proper.assign (m := { m with
      heap.objects := m.heap.objects.set g n
      setter := Function.update m.setter g (some i) })
      (h.grow rfl (Nat.le_of_eq (List.length_set ..).symm) (Nat.le_refl _) .inl fun {g'} hlt => ?_)
      (x := .int r) trivial i
    have hlt : g' < (m.heap.objects.set g n).length := hlt
    by_cases heq : g' = g
    · exact .inl (by simp [heq])
    · exact .inr ⟨by simpa using hlt, Function.update_of_ne heq ..⟩

theorem incoming_eval (hx : m.incoming? w (p.inst i).op = some x) :
    ∃ v b incoming, (p.inst i).op = .phi incoming ∧ (v, b) ∈ incoming ∧ b = m.block ∧
      m.eval w v = some x := by
  unfold incoming? at hx
  split at hx
  · next incoming hop =>
    obtain ⟨⟨v, b⟩, hfind, hv⟩ := Option.bind_eq_some_iff.1 hx
    exact ⟨v, b, incoming, hop, List.mem_of_find?_eq_some hfind,
      by simpa using List.find?_some hfind, hv⟩
  · cases hx

theorem reaches_proper (hp : p.Linked) (hv : p.verify f = []) (hc : p.Closed o f)
    (h : Reaches p o w f m) : m.Proper w := by
  refine h.induction (P := Proper w) ?_ ?_
  · intro m hs
    obtain ⟨b, -, rfl⟩ := Option.map_eq_some_iff.1 hs
    refine ⟨nofun, fun hc hx => ?_, fun hh hlt => absurd hlt (Nat.not_lt.2 hh), Nat.le_refl _,
      Nat.le_refl _⟩
    exact absurd (List.getElem?_eq_some_iff.1 hx).1 (Nat.not_lt.2 hc)
  · intro m n hreach hm hmove
    obtain ⟨pre, hloc⟩ := reaches_located hp hv hreach
    cases hmove with
    | act hr ha =>
      exact (hm.perform (made_of_action hc (hloc.mem_instructions hr) hm ha) _).congr rfl rfl rfl
    | @jump i rest c targets b _ hr hop ht hn =>
      have hb := hp.successor_within hloc.block (hloc.flows hp hr hop ht)
      obtain ⟨-, rfl⟩ := enter_eq_some hn
      refine ⟨fun {j x} hx => ?_, hm.cells, hm.setter, hm.objects_le, hm.cells_le⟩
      dsimp only at hx
      split at hx
      · next hphi =>
        obtain ⟨v, d, incoming, hop', hmem, -, hv'⟩ := incoming_eval hx
        have hmade : m.Made w x :=
          made_of_eval hc (List.mem_flatMap.2 ⟨b, hb, (List.mem_filter.1 hphi).1⟩) hm
            (by rw [hop']; exact List.mem_map_of_mem hmem) hv'
        exact hmade
      · exact hm.env hx
    | ret => exact ⟨hm.env, hm.cells, hm.setter, hm.objects_le, hm.cells_le⟩

end Machine

end BoxFlow
